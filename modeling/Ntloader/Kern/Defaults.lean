import Ntloader.Kern.Effects

/-!
# Settings that depend on the boot type

The record starts with marks for the settings whose defaults depend on the boot type. They are
resolved behind the loop over the arguments.

* `CommandLine` — the string that a pointer to the command line points to.
* `Usable` — settings without marks, with the documented defaults.
* `usable_iff` — the settings are usable exactly if there is a command line that is not empty.
-/

namespace Ntloader.Kern

open Ntloader.Lib Ntloader.Posix

/-- The string that a pointer to a command line points to; there is none for NULL. -/
inductive CommandLine (m : Mem) : Option ℕ → Option (List UInt8) → Prop
  | null : CommandLine m none none
  | string {cmdline : ℕ} {s : List UInt8} : m.bytes cmdline (s.length + 1) = s ++ [0] →
      (0 : UInt8) ∉ s → CommandLine m (some cmdline) (some s)

/-- The keys of the words of a command line. -/
def lineKeys (line : Option (List UInt8)) : List (List UInt8) :=
  (words (line.getD [])).map fun w => (splitWord w).1

/-- Source: docs/cmdline.md, hires, minint -/
def documentedBool (boottype : BootType) : UInt8 :=
  if boottype = .ntbootWim then ntargBoolTrue else ntargBoolFalse

/-- Source: docs/cmdline.md, winload -/
def documentedWinload (boottype : BootType) : List UInt8 :=
  if boottype = .ntbootWim then str "/Windows/System32/Boot/winload.efi"
  else str "/Windows/System32/winload.efi"

/-- Settings without marks, and with the documented defaults where no argument sets them. Paths are
the same up to their slashes and their case. -/
structure Usable (keys : List (List UInt8)) (args : NtArgs) : Prop where
  hires_mem : args.hires ∈ [ntargBoolTrue, ntargBoolFalse, ntargBoolNa]
  minint_mem : args.minint ∈ [ntargBoolTrue, ntargBoolFalse]
  winload_ne : args.winload.toString ≠ []
  hires_default : str "hires" ∉ keys → str "gfxmode" ∉ keys →
    args.hires = documentedBool args.boottype
  minint_default : str "minint" ∉ keys → args.minint = documentedBool args.boottype
  winload_default : str "winload" ∉ keys →
    strcasecmp args.winload.toString (convertPath true (documentedWinload args.boottype)) = true

/-! ## One argument -/

/-- A switch is on or off. -/
theorem convertBool_mem (value : Option (List UInt8)) :
    convertBool value ∈ [ntargBoolTrue, ntargBoolFalse] := by
  cases value with
  | none => exact List.mem_cons_self
  | some s =>
      rw [convertBool]
      split_ifs
      · exact List.mem_cons_self
      · exact List.mem_cons_of_mem _ List.mem_cons_self

/-- Only `hires` and `gfxmode` change the resolution, -/
theorem Effect.run_hires (e : Effect) (args : NtArgs) :
    (e.run args).hires = args.hires ∨ e.keys = ["hires", "gfxmode"] ∧
      (e.run args).hires ∈ [ntargBoolTrue, ntargBoolFalse, ntargBoolNa] := by
  cases e with
  | hires value =>
      have h : convertBool value ∈ [ntargBoolTrue, ntargBoolFalse] ++ [ntargBoolNa] :=
        List.mem_append_left _ (convertBool_mem value)
      exact Or.inr ⟨rfl, h⟩
  | gfxmode value => exact Or.inr ⟨rfl, by simp [run]⟩
  | _ => exact Or.inl rfl

/-- only `minint` the switch, -/
theorem Effect.run_minint (e : Effect) (args : NtArgs) :
    (e.run args).minint = args.minint ∨ e.keys = ["minint"] ∧
      (e.run args).minint ∈ [ntargBoolTrue, ntargBoolFalse] := by
  cases e with
  | minint value => exact Or.inr ⟨rfl, convertBool_mem value⟩
  | _ => exact Or.inl rfl

/-- and only `winload` the path. -/
theorem Effect.run_winload (e : Effect) (args : NtArgs) :
    (e.run args).winload = args.winload ∨ e.keys = ["winload"] := by
  cases e with
  | winload value => exact Or.inr rfl
  | _ => exact Or.inl rfl

/-! ## Defaults -/

/-- **The default of `winload`** is the documented path of the boot type. -/
theorem winload_default (args : NtArgs) (h : args.winload = NtArgs.init.winload) :
    strcasecmp (fillDefaults args).winload.toString
      (Kern.convertPath true (documentedWinload (fillDefaults args).boottype)) = true := by
  have hboot : (fillDefaults args).boottype = args.boottype := rfl
  have hwinload : (fillDefaults args).winload =
      if args.boottype = .ntbootWim then
        NtArgs.init.winload.snprintf (str "\\Windows\\System32\\boot\\winload.efi")
      else NtArgs.init.winload.snprintf (str "\\Windows\\System32\\winload.efi") := by
    rw [fillDefaults, h]
    rfl
  rw [hwinload, hboot, documentedWinload]
  split_ifs
  · decide +kernel
  · decide +kernel

/-- A path whose first character is no NUL is not empty, and the others are set. -/
theorem winload_ne (args : NtArgs) : (fillDefaults args).winload.toString ≠ [] := by
  -- a string that is written to the array is there if it is not empty
  have hset {c : UInt8} {s : List UInt8} (hc : c ≠ 0) :
      (args.winload.snprintf (c :: s)).toString ≠ [] := by
    show List.takeWhile (· ≠ 0) (List.take 64 (List.take 63 (c :: s) ++ _)) ≠ []
    rw [List.take_succ_cons, List.cons_append, List.take_succ_cons, List.takeWhile_cons,
      if_pos (by simpa using hc)]
    exact List.cons_ne_nil _ _
  show (if args.winload.bytes.headD 0 = 0 then _ else args.winload).toString ≠ []
  split_ifs with hhead hboot
  · exact hset (c := 0x5c) (by decide)
  · exact hset (c := 0x5c) (by decide)
  · rw [CharArray.toString]
    cases hbytes : args.winload.bytes with
    | nil =>
        rw [hbytes] at hhead
        exact absurd rfl hhead
    | cons c s =>
        rw [hbytes] at hhead
        rw [List.takeWhile_cons, if_pos (by simpa using hhead)]
        exact List.cons_ne_nil _ _

/-- None of the names is a key, if none is among the keys of the words. -/
theorem not_exists_key {ws : List (List UInt8)} {names : List String}
    (h : ∀ name ∈ names, str name ∉ ws.map fun w => (splitWord w).1) :
    ¬∃ w ∈ ws, (splitWord w).1 ∈ names.map str := by
  rintro ⟨w, hw, hmem⟩
  obtain ⟨name, hname, heq⟩ := List.mem_map.mp hmem
  exact h name hname (heq ▸ List.mem_map_of_mem hw)

/-- The defaults leave no marks behind. -/
theorem usable_fillDefaults {arch : Arch} {ws : List (List UInt8)} {args : NtArgs}
    (h : ws.foldlM (processWord arch) .init = .ok args) :
    Usable (ws.map fun w => (splitWord w).1) (fillDefaults args) := by
  have hhires := @foldlM_cases _ _ _ _ h _ NtArgs.hires _ _ Effect.run_hires
  have hminint := @foldlM_cases _ _ _ _ h _ NtArgs.minint _ _ Effect.run_minint
  have hwinload := @foldlM_cases _ _ _ _ h _ NtArgs.winload _ (fun _ => True)
    fun e args => (e.run_winload args).imp_right fun hkeys => ⟨hkeys, trivial⟩
  -- what is left of a mark
  have hdefault {x : UInt8} (hx : x = ntargBoolUnset) :
      (if x = ntargBoolUnset then
        if args.boottype = .ntbootWim then ntargBoolTrue else ntargBoolFalse
      else x) = documentedBool args.boottype :=
    if_pos hx
  have hbool : documentedBool args.boottype ∈ [ntargBoolTrue, ntargBoolFalse] := by
    rw [documentedBool]
    split_ifs
    · exact List.mem_cons_self
    · exact List.mem_cons_of_mem _ List.mem_cons_self
  constructor
  case hires_mem =>
    show (if args.hires = ntargBoolUnset then _ else args.hires) ∈ _
    rcases hhires with hsame | ⟨-, hmem⟩
    · rw [hdefault hsame]
      exact List.mem_append_left [ntargBoolNa] hbool
    · rw [if_neg fun hunset => absurd (hunset ▸ hmem) (by decide)]
      exact hmem
  case minint_mem =>
    show (if args.minint = ntargBoolUnset then _ else args.minint) ∈ _
    rcases hminint with hsame | ⟨-, hmem⟩
    · rw [hdefault hsame]
      exact hbool
    · rw [if_neg fun hunset => absurd (hunset ▸ hmem) (by decide)]
      exact hmem
  case winload_ne => exact winload_ne args
  case hires_default =>
    intro h₁ h₂
    refine hdefault (hhires.resolve_right fun hset => not_exists_key ?_ hset.1)
    exact List.forall_mem_cons.mpr ⟨h₁, List.forall_mem_singleton.mpr h₂⟩
  case minint_default =>
    intro h₁
    refine hdefault (hminint.resolve_right fun hset => not_exists_key ?_ hset.1)
    exact List.forall_mem_singleton.mpr h₁
  case winload_default =>
    intro h₁
    refine winload_default args (hwinload.resolve_right fun hset => not_exists_key ?_ hset.1)
    exact List.forall_mem_singleton.mpr h₁

/-- Without arguments the marks stay. -/
theorem not_usable_init (keys : List (List UInt8)) : ¬Usable keys .init := fun h =>
  absurd h.hires_mem (by decide)

/-- **The settings are usable** exactly if there is a command line and it is not empty. -/
theorem usable_iff {arch : Arch} {m m' : Mem} {cmdline : Option ℕ} {line : Option (List UInt8)}
    {fuel : ℕ} {args : NtArgs} (hline : CommandLine m cmdline line)
    (hfuel : (line.getD []).length + 1 < fuel)
    (hrun : processCmdline arch fuel m .init cmdline = some (.ok (args, m'))) :
    Usable (lineKeys line) args ↔ ∃ s, line = some s ∧ s ≠ [] := by
  cases hline with
  | null =>
      have hargs : NtArgs.init = args := congrArg Prod.fst (Except.ok.inj (Option.some.inj hrun))
      rw [← hargs]
      exact iff_of_false (not_usable_init _) (by simp)
  | @string cmdline s hbytes hnul =>
      obtain ⟨args₁, hfold, hargs, -⟩ := (processCmdline_ok_iff hbytes hnul hfuel).mp hrun
      by_cases hs : s = []
      · subst hs
        cases hfold
        rw [← hargs, if_pos rfl]
        exact iff_of_false (not_usable_init _) (by simp)
      · rw [← hargs, if_neg hs]
        exact iff_of_true (usable_fillDefaults hfold) ⟨s, rfl, hs⟩

/-- The command line `file=/a.wim`. -/
theorem usable_iff_file :
    ∃ args m', processCmdline .i386 20 (Mem.ofList (str "file=/a.wim" ++ [0])) .init (some 0) =
        some (.ok (args, m')) ∧
      (Usable (lineKeys (some (str "file=/a.wim"))) args ↔
        ∃ s, some (str "file=/a.wim") = some s ∧ s ≠ []) := by
  have hline : (Mem.ofList (str "file=/a.wim" ++ [0])).bytes 0 ((str "file=/a.wim").length + 1) =
      str "file=/a.wim" ++ [0] := by decide
  have hwords : words (str "file=/a.wim") = [str "file=/a.wim"] := by decide +kernel
  have hrun := @processCmdline_eq .i386 _ _ 20 _ hline (by decide) (by decide) .init
  rw [hwords] at hrun
  exact ⟨_, _, hrun, usable_iff (.string hline (by decide)) (by decide) hrun⟩

/-- Without a command line, the settings are not usable. -/
theorem not_usable_null :
    ¬∀ (arch : Arch) (m m' : Mem) (cmdline : Option ℕ) (line : Option (List UInt8)) (fuel : ℕ)
      (args : NtArgs), CommandLine m cmdline line → (line.getD []).length + 1 < fuel →
      processCmdline arch fuel m .init cmdline = some (.ok (args, m')) →
      Usable (lineKeys line) args := by
  intro h
  exact not_usable_init _ (h .i386 Mem.zero Mem.zero none none 2 .init .null (by decide) rfl)

end Ntloader.Kern
