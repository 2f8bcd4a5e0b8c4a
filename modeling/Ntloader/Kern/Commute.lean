import Ntloader.Kern.Effects

/-!
# The order of arguments

Arguments that set different fields can be exchanged.

* `Independent` — the keys of arguments that can be exchanged.
* `Effect.run_comm` — effects with different fields commute.
* `processCmdline_swap` — a command line with two arguments exchanged has the same result.
-/

namespace Ntloader.Kern

open Ntloader.Lib Ntloader.Posix

/-- Keys that set a field in common to values of their own: the file to boot, the resolution and the
path of the initrd. -/
def sharedKeys : List (List String) :=
  [["wim", "vhd", "ram", "file"], ["hires", "gfxmode"], ["initrdfile", "initrd"]]

/-- Keys that are not the same and set no field in common to values of their own. -/
def Independent (key key' : List UInt8) : Prop :=
  key ≠ key' ∧ ∀ names ∈ sharedKeys, ¬(key ∈ names.map str ∧ key' ∈ names.map str)

/-- Keys are independent of each other. -/
theorem Independent.symm {key key' : List UInt8} (h : Independent key key') :
    Independent key' key :=
  ⟨h.1.symm, fun names hnames hmem => h.2 names hnames hmem.symm⟩

/-! ## Effects -/

/-- An effect has one key, or the keys that share a field. -/
theorem Effect.keys_cases (e : Effect) :
    e.keys = [] ∨ (∃ name, e.keys = [name]) ∨ e.keys ∈ sharedKeys := by
  cases e <;> simp [keys, sharedKeys]

/-- Effects with different fields commute. Fields that both of them set are set to TRUE. -/
theorem Effect.run_comm {e e' : Effect} (h : e.keys ≠ e'.keys) (args : NtArgs) :
    e'.run (e.run args) = e.run (e'.run args) := by
  cases e <;> cases e' <;> first | exact absurd rfl h | simp only [run, setFilepath]

/-- Effects of independent arguments have different keys, unless they are ignored. -/
theorem keys_ne_of_independent {arch : Arch} {key key' : List UInt8}
    {value value' : Option (List UInt8)} {e e' : Effect} (h : Independent key key')
    (he : effect arch key value = .ok e) (he' : effect arch key' value' = .ok e') :
    e = .ignored ∨ e' = .ignored ∨ e.keys ≠ e'.keys := by
  rcases mem_keys_of_effect arch key value e he with hi | hkey
  · exact Or.inl hi
  rcases mem_keys_of_effect arch key' value' e' he' with hi | hkey'
  · exact Or.inr (Or.inl hi)
  refine Or.inr (Or.inr fun heq => ?_)
  rw [← heq] at hkey'
  rcases e.keys_cases with hnil | ⟨name, hname⟩ | hshared
  · rw [hnil] at hkey
    cases hkey
  · rw [hname, List.map_singleton, List.mem_singleton] at hkey hkey'
    exact h.1 (hkey.trans hkey'.symm)
  · exact h.2 _ hshared ⟨hkey, hkey'⟩

/-! ## Command lines -/

/-- Two words with independent keys can be exchanged. -/
theorem processWord_comm {arch : Arch} {w w' : List UInt8}
    (h : Independent (splitWord w).1 (splitWord w').1) {args args' : NtArgs}
    (hrun : (processWord arch args w >>= (processWord arch · w')) = .ok args') :
    (processWord arch args w' >>= (processWord arch · w)) = .ok args' := by
  have hword (args : NtArgs) (w : List UInt8) : processWord arch args w =
      (effect arch (splitWord w).1 (splitWord w).2).map (·.run args) :=
    processArgument_eq arch args _ _
  simp only [hword] at hrun ⊢
  cases he : effect arch (splitWord w).1 (splitWord w).2 with
  | error d =>
      rw [he] at hrun
      cases hrun
  | ok e =>
      cases he' : effect arch (splitWord w').1 (splitWord w').2 with
      | error d =>
          rw [he, he'] at hrun
          cases hrun
      | ok e' =>
          rw [he, he'] at hrun
          have hargs : e'.run (e.run args) = args' := Except.ok.inj hrun
          refine congrArg Except.ok (Eq.trans ?_ hargs)
          rcases keys_ne_of_independent h he he' with rfl | rfl | hne
          · rfl
          · rfl
          · exact (Effect.run_comm hne args).symm

/-- **Two adjacent arguments with independent keys can be exchanged**: a command line that is
processed without an error gives the same record. -/
theorem processCmdline_swap {arch : Arch} {m m' m₁ : Mem} {cmdline cmdline' fuel fuel' : ℕ}
    {s s' w w' : List UInt8} {pre post : List (List UInt8)} {args args' : NtArgs}
    (hline : m.bytes cmdline (s.length + 1) = s ++ [0]) (hnul : (0 : UInt8) ∉ s)
    (hfuel : s.length + 1 < fuel)
    (hline' : m'.bytes cmdline' (s'.length + 1) = s' ++ [0]) (hnul' : (0 : UInt8) ∉ s')
    (hfuel' : s'.length + 1 < fuel')
    (hwords : words s = pre ++ w :: w' :: post) (hwords' : words s' = pre ++ w' :: w :: post)
    (hkeys : Independent (splitWord w).1 (splitWord w').1)
    (hrun : processCmdline arch fuel m args (some cmdline) = some (.ok (args', m₁))) :
    processCmdline arch fuel' m' args (some cmdline') = some (.ok (args', m')) := by
  obtain ⟨args₁, hfold, hargs, -⟩ := (processCmdline_ok_iff hline hnul hfuel).mp hrun
  rw [if_neg (ne_nil_of_words hwords)] at hargs
  rw [hwords] at hfold
  refine (processCmdline_ok_iff hline' hnul' hfuel').mpr ⟨args₁, ?_, ?_, rfl⟩
  · rw [hwords']
    exact foldlM_swap (fun _ _ => processWord_comm hkeys) hfold
  · rw [if_neg (ne_nil_of_words hwords')]
    exact hargs

/-- `text hires=no` and `hires=no text`. -/
theorem processCmdline_swap_text :
    ∃ args m₁, processCmdline .i386 20 (Mem.ofList (str "text hires=no" ++ [0])) .init (some 0) =
        some (.ok (args, m₁)) ∧
      processCmdline .i386 20 (Mem.ofList (str "hires=no text" ++ [0])) .init (some 0) =
        some (.ok (args, Mem.ofList (str "hires=no text" ++ [0]))) := by
  have hline : (Mem.ofList (str "text hires=no" ++ [0])).bytes 0
      ((str "text hires=no").length + 1) = str "text hires=no" ++ [0] := by decide
  have hline' : (Mem.ofList (str "hires=no text" ++ [0])).bytes 0
      ((str "hires=no text").length + 1) = str "hires=no text" ++ [0] := by decide
  have hwords : words (str "text hires=no") = [str "text", str "hires=no"] := by decide +kernel
  have hwords' : words (str "hires=no text") = [str "hires=no", str "text"] := by decide +kernel
  have hrun := @processCmdline_eq .i386 _ _ 20 _ hline (by decide) (by decide) .init
  rw [hwords] at hrun
  exact ⟨_, _, hrun, @processCmdline_swap _ _ _ _ _ _ _ _ _ _ _ _ [] [] _ _ hline (by decide)
    (by decide) hline' (by decide) (by decide) hwords hwords' ⟨by decide, by decide⟩ hrun⟩

end Ntloader.Kern
