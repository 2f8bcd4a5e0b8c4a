import Ntloader.Kern.Cmdline
import Ntloader.Lib.Updates

/-!
# Effects of arguments

What an argument does to the record is one of a few effects, each of which sets fields of its own.

* `Effect`, `Effect.run`, `effect` — the effects, what they do, and the effect of an argument.
* `processArgument_eq` — processing an argument runs its effect.
* `Effect.keys` — the keys of the arguments that an effect shares fields with; `mem_keys_of_effect`.
* `foldlM_cases` — a field after a sequence of arguments; `foldlM_ok_iff`.
* `mem_of_mem_words` — the characters of the words of a string.
-/

namespace Ntloader.Kern

open Ntloader.Lib Ntloader.Posix

/-! ## Effects -/

/-- What an argument does, with the part of its value that it looks at. -/
inductive Effect where
  | fsuuid (value : List UInt8)
  | filepath (value : List UInt8) (boottype : BootType)
  | textmode
  | testmode (value : Option (List UInt8))
  | hires (value : Option (List UInt8))
  | hal (value : Option (List UInt8))
  | minint (value : Option (List UInt8))
  | novga (value : Option (List UInt8))
  | novesa (value : Option (List UInt8))
  | altshell (value : Option (List UInt8))
  | exportcd (value : Option (List UInt8))
  | advmenu
  | optedit
  | nx (value : Option (List UInt8))
  | pae (value : Option (List UInt8))
  | safeboot (value : Option (List UInt8))
  | gfxmode (value : Option (List UInt8))
  | imgofs (value : ℕ)
  | loadopt (value : List UInt8)
  | winload (value : List UInt8)
  | sysroot (value : List UInt8)
  | initrdPath (value : List UInt8)
  | ignored

/-- The fields that an effect sets. -/
def Effect.run (args : NtArgs) : Effect → NtArgs
  | .fsuuid value => { args with fsuuid := args.fsuuid.snprintf value }
  | .filepath value boottype => setFilepath args value boottype
  | .textmode => { args with textmode := ntargBoolTrue }
  | .testmode value => { args with testmode := convertBool value }
  | .hires value => { args with hires := convertBool value }
  | .hal value => { args with hal := convertBool value }
  | .minint value => { args with minint := convertBool value }
  | .novga value => { args with novga := convertBool value }
  | .novesa value => { args with novesa := convertBool value }
  | .altshell value => { args with altshell := convertBool value, safemode := ntargBoolTrue }
  | .exportcd value => { args with exportcd := convertBool value }
  | .advmenu => { args with advmenu := ntargBoolTrue, textmode := ntargBoolTrue }
  | .optedit => { args with optedit := ntargBoolTrue, textmode := ntargBoolTrue }
  | .nx value =>
    { args with nx :=
      if value.isNone ∨ valueIs value "OptIn" then 0x00
      else if valueIs value "OptOut" then 0x01
      else if valueIs value "AlwaysOff" then 0x02
      else if valueIs value "AlwaysOn" then 0x03
      else args.nx }
  | .pae value =>
    { args with pae :=
      if value.isNone ∨ valueIs value "Default" then 0x00
      else if valueIs value "Enable" then 0x01
      else if valueIs value "Disable" then 0x02
      else args.pae }
  | .safeboot value =>
    { args with
      safemode := ntargBoolTrue
      safeboot :=
        if value.isNone ∨ valueIs value "Minimal" then 0x00
        else if valueIs value "Network" then 0x01
        else if valueIs value "DsRepair" then 0x02
        else args.safeboot }
  | .gfxmode value =>
    { args with
      hires := ntargBoolNa
      gfxmode :=
        if value.isNone ∨ valueIs value "1024x768" then 0x00
        else if valueIs value "800x600" then 0x01
        else if valueIs value "1024x600" then 0x02
        else args.gfxmode }
  | .imgofs value => { args with imgofs := value }
  | .loadopt value => { args with loadopt := (args.loadopt.snprintf value).convertPath false }
  | .winload value => { args with winload := (args.winload.snprintf value).convertPath true }
  | .sysroot value => { args with sysroot := (args.sysroot.snprintf value).convertPath true }
  | .initrdPath value =>
      { args with initrdPath := (args.initrdPath.snprintf value).convertPath true }
  | .ignored => args

/-- The value of `imgofs`. -/
def imgofsValue (arch : Arch) (value : List UInt8) : Except Die ℕ :=
  let (imgofs, endp) := strtoul arch value 0
  if endp = [] then .ok imgofs else .error (.invalidImgofs value)

/-- The effect of an argument, by its key. -/
def effect (arch : Arch) (key : List UInt8) (value : Option (List UInt8)) : Except Die Effect :=
  if key = str "uuid" then return .fsuuid (← needValue "uuid" value)
  else if key = str "wim" then return .filepath (← needValue "wim" value) .ntbootWim
  else if key = str "vhd" then return .filepath (← needValue "vhd" value) .ntbootVhd
  else if key = str "ram" then return .filepath (← needValue "ram" value) .ntbootRam
  else if key = str "file" then do
    let value ← needValue "file" value
    return .filepath value (fileBoottype value)
  else if key = str "text" then .ok .textmode
  else if key = str "testmode" then .ok (.testmode value)
  else if key = str "hires" then .ok (.hires value)
  else if key = str "detecthal" then .ok (.hal value)
  else if key = str "minint" then .ok (.minint value)
  else if key = str "novga" then .ok (.novga value)
  else if key = str "novesa" then .ok (.novesa value)
  else if key = str "altshell" then .ok (.altshell value)
  else if key = str "exportascd" then .ok (.exportcd value)
  else if key = str "f8" then .ok .advmenu
  else if key = str "edit" then .ok .optedit
  else if key = str "nx" then .ok (.nx value)
  else if key = str "pae" then .ok (.pae value)
  else if key = str "safemode" then .ok (.safeboot value)
  else if key = str "gfxmode" then .ok (.gfxmode value)
  else if key = str "imgofs" then do
    return .imgofs (← (needValue "imgofs" value).bind (imgofsValue arch))
  else if key = str "loadopt" then return .loadopt (← needValue "loadopt" value)
  else if key = str "winload" then return .winload (← needValue "winload" value)
  else if key = str "sysroot" then return .sysroot (← needValue "sysroot" value)
  else if key = str "initrdfile" ∨ key = str "initrd" then
    return .initrdPath (← needValue "initrd" value)
  else .ok .ignored

/-- A choice between effects, if its branches are effects, -/
theorem ite_map {c : Prop} [Decidable c] {x y : Except Die NtArgs} {e e' : Except Die Effect}
    {args : NtArgs} (hx : x = e.map (·.run args)) (hy : y = e'.map (·.run args)) :
    (if c then x else y) = (if c then e else e').map (·.run args) := by
  split_ifs
  · exact hx
  · exact hy

/-- and a value in front of one. -/
theorem bind_map {α : Type} {x : Except Die α} {f : α → NtArgs} {e : α → Effect} {args : NtArgs}
    (h : ∀ value, f value = (e value).run args) :
    (do return f (← x)) = (do return e (← x) : Except Die Effect).map (·.run args) := by
  cases x with
  | error d => rfl
  | ok value => exact congrArg Except.ok (h value)

/-- The value of `imgofs` is checked before it is stored, which makes no difference: `die` does not
return. -/
theorem imgofs_map (arch : Arch) (args : NtArgs) (value : Option (List UInt8)) :
    (do
      let value ← needValue "imgofs" value
      let (imgofs, endp) := strtoul arch value 0
      if endp = [] then return { args with imgofs := imgofs }
      else .error (.invalidImgofs value) : Except Die NtArgs) =
      (do return Effect.imgofs (← (needValue "imgofs" value).bind (imgofsValue arch)) :
        Except Die Effect).map (·.run args) := by
  cases needValue "imgofs" value with
  | error d => rfl
  | ok v =>
      have hvalue : imgofsValue arch v = if (strtoul arch v 0).2 = [] then
          .ok (strtoul arch v 0).1 else .error (.invalidImgofs v) := rfl
      show (if (strtoul arch v 0).2 = [] then .ok { args with imgofs := (strtoul arch v 0).1 }
        else .error (.invalidImgofs v) : Except Die NtArgs) =
          Except.map (·.run args) (imgofsValue arch v >>= fun n => pure (Effect.imgofs n))
      rw [hvalue]
      split_ifs <;> rfl

/-- Processing an argument runs its effect. -/
theorem processArgument_eq (arch : Arch) (args : NtArgs) (key : List UInt8)
    (value : Option (List UInt8)) :
    processArgument arch args key value = (effect arch key value).map (·.run args) := by
  unfold processArgument effect
  repeat' apply ite_map
  all_goals first | rfl | exact bind_map fun _ => rfl | exact imgofs_map arch args value

/-- An argument succeeds if it has an effect. -/
theorem processWord_ok_iff {arch : Arch} {args args' : NtArgs} {w : List UInt8} :
    processWord arch args w = .ok args' ↔
      ∃ e, effect arch (splitWord w).1 (splitWord w).2 = .ok e ∧ e.run args = args' := by
  rw [processWord, processArgument_eq]
  cases effect arch (splitWord w).1 (splitWord w).2 with
  | error d => simp [Except.map]
  | ok e => simp [Except.map]

/-! ## Keys -/

/-- The keys of the arguments that set fields which an effect sets to a value of its own. The fields
`textmode` and `safemode` are only ever set to TRUE. -/
def Effect.keys : Effect → List String
  | .fsuuid _ => ["uuid"]
  | .filepath _ _ => ["wim", "vhd", "ram", "file"]
  | .textmode => ["text"]
  | .testmode _ => ["testmode"]
  | .hires _ => ["hires", "gfxmode"]
  | .hal _ => ["detecthal"]
  | .minint _ => ["minint"]
  | .novga _ => ["novga"]
  | .novesa _ => ["novesa"]
  | .altshell _ => ["altshell"]
  | .exportcd _ => ["exportascd"]
  | .advmenu => ["f8"]
  | .optedit => ["edit"]
  | .nx _ => ["nx"]
  | .pae _ => ["pae"]
  | .safeboot _ => ["safemode"]
  | .gfxmode _ => ["hires", "gfxmode"]
  | .imgofs _ => ["imgofs"]
  | .loadopt _ => ["loadopt"]
  | .winload _ => ["winload"]
  | .sysroot _ => ["sysroot"]
  | .initrdPath _ => ["initrdfile", "initrd"]
  | .ignored => []

/-- What holds of the effects of both branches holds of a choice, -/
theorem ite_keys {c : Prop} [Decidable c] {x y : Except Die Effect} {P : Effect → Prop}
    (hx : c → ∀ e, x = .ok e → P e) (hy : ∀ e, y = .ok e → P e) :
    ∀ e, (if c then x else y) = .ok e → P e := by
  intro e he
  split_ifs at he with hc
  · exact hx hc e he
  · exact hy e he

/-- and what holds of all values' effects holds behind a value. -/
theorem bind_keys {α : Type} {x : Except Die α} {f : α → Effect} {P : Effect → Prop}
    (h : ∀ value, P (f value)) : ∀ e, (do return f (← x)) = Except.ok e → P e := by
  intro e he
  cases x with
  | error d => cases he
  | ok value =>
      cases he
      exact h value

/-- An effect comes from one of its keys, or the argument is ignored. -/
theorem mem_keys_of_effect (arch : Arch) (key : List UInt8) (value : Option (List UInt8)) :
    ∀ e, effect arch key value = .ok e → e = .ignored ∨ key ∈ e.keys.map str := by
  have hkeys {e : Effect} {name : String} (hkey : key = str name) (hname : name ∈ e.keys) :
      e = .ignored ∨ key ∈ e.keys.map str :=
    Or.inr (hkey ▸ List.mem_map_of_mem hname)
  have hok {e : Effect} {name : String} (hkey : key = str name) (hname : name ∈ e.keys) :
      ∀ e', Except.ok e = (.ok e' : Except Die Effect) → e' = .ignored ∨ key ∈ e'.keys.map str := by
    intro e' he
    cases he
    exact hkeys hkey hname
  unfold effect
  repeat' apply ite_keys
  -- the branches that need a value, those that do not, `initrd`, and the last one
  all_goals first
    | exact fun hkey => bind_keys fun _ => hkeys hkey (by simp [Effect.keys])
    | exact fun hkey => hok hkey (by simp [Effect.keys])
    | exact fun hkey => bind_keys fun _ => hkey.elim (hkeys · (by simp [Effect.keys]))
        (hkeys · (by simp [Effect.keys]))
    | exact fun e he => Or.inl (Except.ok.inj he).symm

/-! ## Sequences of arguments -/

/-- A field that an argument changes is one of its key's. -/
theorem processWord_cases {arch : Arch} {args args' : NtArgs} {w : List UInt8}
    (h : processWord arch args w = .ok args') {α : Type} {field : NtArgs → α} {names : List String}
    {P : α → Prop}
    (hrun : ∀ e : Effect, field (e.run args) = field args ∨ e.keys = names ∧ P (field (e.run args))) :
    field args' = field args ∨ (splitWord w).1 ∈ names.map str ∧ P (field args') := by
  obtain ⟨e, he, rfl⟩ := processWord_ok_iff.mp h
  rcases hrun e with hsame | ⟨hkeys, hP⟩
  · exact Or.inl hsame
  · rcases mem_keys_of_effect arch _ _ e he with rfl | hmem
    · exact Or.inl rfl
    · rw [hkeys] at hmem
      exact Or.inr ⟨hmem, hP⟩

/-- A field keeps its value, or an argument with one of its keys sets it. -/
theorem foldlM_cases {arch : Arch} {args args' : NtArgs} {ws : List (List UInt8)}
    (h : ws.foldlM (processWord arch) args = .ok args') {α : Type} {field : NtArgs → α}
    {names : List String} {P : α → Prop}
    (hrun : ∀ (e : Effect) (args : NtArgs),
      field (e.run args) = field args ∨ e.keys = names ∧ P (field (e.run args))) :
    field args' = field args ∨ (∃ w ∈ ws, (splitWord w).1 ∈ names.map str) ∧ P (field args') := by
  refine foldlM_invariant (P := fun args₁ => field args₁ = field args ∨
    (∃ w ∈ ws, (splitWord w).1 ∈ names.map str) ∧ P (field args₁)) ?_ (Or.inl rfl) h
  intro w hw args₁ args₂ hargs hstep
  rcases processWord_cases hstep (hrun · args₁) with hsame | ⟨hkey, hP⟩
  · rw [hsame]
    exact hargs
  · exact Or.inr ⟨⟨w, hw, hkey⟩, hP⟩

/-- The last argument with one of the keys of a field decides what the field is. -/
theorem foldlM_last {arch : Arch} {args args' : NtArgs} {pre post : List (List UInt8)}
    {w : List UInt8} (h : (pre ++ w :: post).foldlM (processWord arch) args = .ok args')
    {α : Type} {field : NtArgs → α} {names : List String}
    (hrun : ∀ (e : Effect) (args : NtArgs), field (e.run args) = field args ∨ e.keys = names)
    (hlast : ∀ w ∈ post, (splitWord w).1 ∉ names.map str) :
    ∃ e args₁, effect arch (splitWord w).1 (splitWord w).2 = .ok e ∧
      field args' = field (e.run args₁) := by
  rw [List.foldlM_append] at h
  cases hpre : pre.foldlM (processWord arch) args with
  | error d =>
      rw [hpre] at h
      cases h
  | ok args₁ =>
      rw [hpre] at h
      change (w :: post).foldlM (processWord arch) args₁ = .ok args' at h
      rw [List.foldlM_cons] at h
      cases hword : processWord arch args₁ w with
      | error d =>
          rw [hword] at h
          cases h
      | ok args₂ =>
          rw [hword] at h
          obtain ⟨e, he, rfl⟩ := processWord_ok_iff.mp hword
          refine ⟨e, args₁, he, ?_⟩
          refine (@foldlM_cases _ _ _ _ h _ field _ (fun _ => True)
            fun e args => (hrun e args).imp_right fun hk => ⟨hk, trivial⟩).resolve_right ?_
          rintro ⟨⟨w, hw, hkey⟩, -⟩
          exact hlast w hw hkey

/-- Whether a word succeeds does not depend on the record. -/
theorem foldlM_ok_iff (arch : Arch) (ws : List (List UInt8)) (args : NtArgs) :
    (∃ args', ws.foldlM (processWord arch) args = .ok args') ↔
      ∀ w ∈ ws, ∃ e, effect arch (splitWord w).1 (splitWord w).2 = .ok e := by
  induction ws generalizing args with
  | nil => exact iff_of_true ⟨args, rfl⟩ (List.forall_mem_nil _)
  | cons w ws ih =>
      have hword : processWord arch args w =
          (effect arch (splitWord w).1 (splitWord w).2).map (·.run args) :=
        processArgument_eq arch args _ _
      rw [List.forall_mem_cons, List.foldlM_cons, hword]
      cases effect arch (splitWord w).1 (splitWord w).2 with
      | error d =>
          refine iff_of_false ?_ ?_
          · rintro ⟨args', h⟩
            cases h
          · rintro ⟨⟨e, he⟩, -⟩
            cases he
      | ok e => exact (ih (e.run args)).trans (and_iff_right ⟨e, rfl⟩).symm

/-! ## Words -/

/-- A part of a split list has members of the list, and no separator. -/
theorem mem_of_mem_splitOnP {α : Type} {p : α → Bool} {s w : List α} {c : α}
    (hw : w ∈ s.splitOnP p) (hc : c ∈ w) : c ∈ s ∧ p c = false := by
  induction s generalizing w with
  | nil =>
      rw [List.splitOnP_nil, List.mem_singleton] at hw
      rw [hw] at hc
      cases hc
  | cons a s ih =>
      have hrest (hmem : w ∈ s.splitOnP p) : c ∈ a :: s ∧ p c = false :=
        ⟨List.mem_cons_of_mem _ (ih hmem hc).1, (ih hmem hc).2⟩
      rw [List.splitOnP_cons_eq_if_modifyHead] at hw
      split_ifs at hw with ha
      · rcases List.mem_cons.mp hw with rfl | hw
        · cases hc
        · exact hrest hw
      · cases hsplit : s.splitOnP p with
        | nil => exact absurd hsplit (List.splitOnP_ne_nil p s)
        | cons x xs =>
            rw [hsplit] at hw ih hrest
            rcases List.mem_cons.mp hw with rfl | hw
            · rcases List.mem_cons.mp hc with rfl | hc
              · exact ⟨List.mem_cons_self, by simpa using ha⟩
              · have hx := ih List.mem_cons_self hc
                exact ⟨List.mem_cons_of_mem _ hx.1, hx.2⟩
            · exact hrest (List.mem_cons_of_mem _ hw)

/-- The characters of a word are those of the string that are no whitespace. -/
theorem mem_of_mem_words {s w : List UInt8} {c : UInt8} (hw : w ∈ words s) (hc : c ∈ w) :
    c ∈ s ∧ isspace c = false :=
  mem_of_mem_splitOnP (List.mem_of_mem_filter hw) hc

/-- The characters of the value of a word. -/
theorem mem_of_words {s key value : List UInt8} {pre post : List (List UInt8)}
    (h : words s = pre ++ (key ++ value) :: post) {c : UInt8} (hc : c ∈ value) :
    c ∈ s ∧ isspace c = false := by
  have hw : key ++ value ∈ words s := h ▸ List.mem_append_right pre List.mem_cons_self
  exact mem_of_mem_words hw (List.mem_append_right key hc)

end Ntloader.Kern
