import Ntloader.Bcd.Encoding
import Ntloader.Lib.Updates
import Ntloader.Reg.Isolation

/-!
# Patching is exact

The patches of the BCD run one after the other on one image. Each of them changes its element and no
other, so that in the end every element that is patched holds its value, every one that is deleted is
gone, and all others are as they were.

* `elementKey`, `elementData`, `element` — the key and the data of an element; `SameKey`, `OwnKeys` —
  elements with the same key, and elements that have keys of their own.
* `Opened` — an image in which the patches run; `Opened.write`, `Opened.delete` — what one does to it.
* `updates_patches` — patches are updates of the elements.
* `patchElements_exact` — all patches, for a hive that has their elements; `not_patchElements_exact` —
  its conditions are needed.
* `StoreCheck` — a test that a store is accepted and holds the elements; `smallStore` — a store with an
  element for every patch.
-/

namespace Ntloader.Bcd

open Ntloader.Lib Ntloader.Posix Ntloader.Charset Ntloader.Kern Ntloader.Reg

/-! ## Elements -/

section Elements

variable (m : Mem) (objects : ℕ) (t : Target)

/-- The key of an element, below the key of the objects. -/
def elementKey : Except BcdError ℕ := do
  let entry ← orDie (findKey m objects t.guid) (.findHkey t.guid)
  let elements ← orDie (findKey m entry bcdRegHkey) (.findHkey bcdRegHkey)
  orDie (findKey m elements t.keyname) (.findHkey t.keyname)

/-- The data of an element, below the key of the objects. -/
def elementData : Except BcdError (List UInt8) := do
  let key ← elementKey m objects t
  orDie (keyData m key bcdRegHval) (.findHval bcdRegHval)

/-- The key of the objects. -/
def objectsKey : Except BcdError ℕ := orDie (findKey m (rootKey m) bcdRegRoot) (.findHkey bcdRegRoot)

/-- The data of an element of an image. -/
def element : Except BcdError (List UInt8) := do
  let objects ← objectsKey m
  elementData m objects t

end Elements

/-- Two elements have the same key. -/
def SameKey (m : Mem) (objects : ℕ) (t t' : Target) : Prop :=
  ∃ key, elementKey m objects t = .ok key ∧ elementKey m objects t' = .ok key

/-- Elements have keys of their own: those with the same key have the same names. -/
def OwnKeys (m : Mem) : Prop :=
  ∀ objects, objectsKey m = .ok objects → ∀ t t', SameKey m objects t t' → sameTarget t t'

/-- The keys on the way to an element. -/
structure Located (m : Mem) (objects : ℕ) (t : Target) (entry elements key : ℕ) : Prop where
  entry_eq : findKey m objects t.guid = .ok entry
  elements_eq : findKey m entry bcdRegHkey = .ok elements
  key_eq : findKey m elements t.keyname = .ok key

/-- A key is found exactly if there are keys on the way to it. -/
theorem elementKey_eq_ok_iff {m : Mem} {objects key : ℕ} {t : Target} :
    elementKey m objects t = .ok key ↔ ∃ entry elements, Located m objects t entry elements key := by
  unfold elementKey
  simp only [bind_eq_ok_iff, orDie_eq_ok_iff]
  constructor
  · rintro ⟨entry, hentry, elements, helements, hkey⟩
    exact ⟨entry, elements, hentry, helements, hkey⟩
  · rintro ⟨entry, elements, hentry, helements, hkey⟩
    exact ⟨entry, hentry, elements, helements, hkey⟩

/-- What the source reads of an element. -/
theorem bcdFindHive_eq (m : Mem) (objects : ℕ) (t : Target) :
    bcdFindHive m objects t.guid t.keyname = elementKey m objects t >>= fun key =>
      orDie (queryValue m key bcdRegHval) (.findHval bcdRegHval) := by
  unfold bcdFindHive elementKey
  simp only [bind_assoc]

/-- The names of the keys above the elements are no paths. -/
theorem bcdReg_component : backslash ∉ bcdRegRoot ∧ backslash ∉ bcdRegHkey := by decide +kernel

/-- The two names on the way to every element differ. -/
theorem bcdReg_not_sameName : ¬sameName bcdRegRoot bcdRegHkey := by decide +kernel

section Congr

variable {m m' : Mem} {objects : ℕ} {t : Target}

/-- The key of an element is the same, if the lookups on the way are. -/
theorem elementKey_congr (hguid : findKey m' objects t.guid = findKey m objects t.guid)
    (hhkey : ∀ entry, findKey m objects t.guid = .ok entry →
      findKey m' entry bcdRegHkey = findKey m entry bcdRegHkey)
    (hkeyname : ∀ entry elements, findKey m objects t.guid = .ok entry →
      findKey m entry bcdRegHkey = .ok elements →
      findKey m' elements t.keyname = findKey m elements t.keyname) :
    elementKey m' objects t = elementKey m objects t := by
  unfold elementKey
  rw [hguid]
  rcases hentry : findKey m objects t.guid with e | entry
  · rw [orDie_error, error_bind, error_bind]
  · rw [orDie_ok, ok_bind, ok_bind, hhkey entry hentry]
    rcases helements : findKey m entry bcdRegHkey with e | elements
    · rw [orDie_error, error_bind, error_bind]
    · rw [orDie_ok, ok_bind, ok_bind, hkeyname entry elements hentry helements]

/-- The data of an element are the same, if its key and the data of this key are. -/
theorem elementData_congr (hkey : elementKey m' objects t = elementKey m objects t)
    (hdata : ∀ key, elementKey m objects t = .ok key →
      keyData m' key bcdRegHval = keyData m key bcdRegHval) :
    elementData m' objects t = elementData m objects t := by
  unfold elementData
  rw [hkey]
  rcases hk : elementKey m objects t with e | key
  · rw [error_bind, error_bind]
  · rw [ok_bind, ok_bind, hdata key hk]

end Congr

/-! ## Patches one by one -/

/-- An image in which the patches run: a hive with its root and the key of the objects. -/
structure Opened (keys : Set ℕ) (root objects : ℕ) (m : Mem) : Prop where
  hive : Hive keys m
  root_mem : root ∈ keys
  root_eq : rootKey m = root
  objects_eq : findKey m root bcdRegRoot = .ok objects

/-- The keys on the way to an element are keys of the hive, each a subkey of the one before, with its
name. -/
structure Placed (keys : Set ℕ) (m : Mem) (objects : ℕ) (t : Target) (entry elements key : ℕ) :
    Prop where
  entry_mem : entry ∈ keys
  elements_mem : elements ∈ keys
  key_mem : key ∈ keys
  entry_child : entry ∈ childKeys m objects
  elements_child : elements ∈ childKeys m entry
  key_child : key ∈ childKeys m elements
  entry_name : sameName (nodeName m (keyBody entry)) t.guid
  elements_name : sameName (nodeName m (keyBody elements)) bcdRegHkey
  key_name : sameName (nodeName m (keyBody key)) t.keyname

section Steps

variable {keys : Set ℕ} {root objects : ℕ} {m m' : Mem} {t t' : Target}
  {entry elements key entry' elements' key' : ℕ}

/-- What a lookup of a name finds. -/
theorem findKey_child (hh : Hive keys m) {k c : ℕ} (hk : k ∈ keys) {name : List UInt16}
    (hname : backslash ∉ name) (h : findKey m k name = .ok c) :
    c ∈ keys ∧ c ∈ childKeys m k ∧ sameName (nodeName m (keyBody c)) name := by
  rw [findKey_component m k hname] at h
  exact ⟨hh.keyTree.findChildKey_mem hk h, hh.keyTree.findChildKey_child hk h⟩

/-- Images with the same indexes have the same elements. -/
theorem sameIndexes_elementKey_eq (hh : Hive keys m) (hf : Framed keys m m')
    (hi : SameIndexes keys m m') (hobjects : objects ∈ keys) :
    elementKey m' objects t = elementKey m objects t := by
  refine elementKey_congr (hi.findKey_eq hh hf hobjects t.guid_component) ?_ ?_
  · intro entry hentry
    obtain ⟨hmem, -⟩ := findKey_child hh hobjects t.guid_component hentry
    exact hi.findKey_eq hh hf hmem bcdReg_component.2
  · intro entry elements hentry helements
    obtain ⟨hmem, -⟩ := findKey_child hh hobjects t.guid_component hentry
    obtain ⟨hmem', -⟩ := findKey_child hh hmem bcdReg_component.2 helements
    exact hi.findKey_eq hh hf hmem' t.keyname_component

/-- The key of the objects is in the hive, and has its name. -/
theorem Opened.objects_mem (ho : Opened keys root objects m) :
    objects ∈ keys ∧ sameName (nodeName m (keyBody objects)) bcdRegRoot := by
  obtain ⟨hmem, -, hname⟩ := findKey_child ho.hive ho.root_mem bcdReg_component.1 ho.objects_eq
  exact ⟨hmem, hname⟩

/-- The keys on the way to an element are in the hive, one below the other. -/
theorem Opened.placed (ho : Opened keys root objects m) (hl : Located m objects t entry elements key) :
    Placed keys m objects t entry elements key := by
  obtain ⟨hentry, hentry_child, hentry_name⟩ :=
    findKey_child ho.hive ho.objects_mem.1 t.guid_component hl.entry_eq
  obtain ⟨helements, helements_child, helements_name⟩ :=
    findKey_child ho.hive hentry bcdReg_component.2 hl.elements_eq
  obtain ⟨hkey, hkey_child, hkey_name⟩ :=
    findKey_child ho.hive helements t.keyname_component hl.key_eq
  exact ⟨hentry, helements, hkey, hentry_child, helements_child, hkey_child, hentry_name,
    helements_name, hkey_name⟩

/-- **Writing to the data of an element** changes its data, and no element with another key. -/
theorem Opened.write (ho : Opened keys root objects m) (hl : Located m objects t entry elements key)
    {r : ValueData} (hq : queryValue m key bcdRegHval = .ok r) (hlen : r.length ≠ 0)
    (hw : ∀ x, (x < dataOf r ∨ dataOf r + r.length ≤ x) → m' x = m x) :
    Opened keys root objects m' ∧ (∀ t', elementKey m' objects t' = elementKey m objects t') ∧
      elementData m' objects t = .ok (m'.bytes (dataOf r) r.length) ∧
      ∀ t', ¬SameKey m objects t' t → elementData m' objects t' = elementData m objects t' := by
  have hp := ho.placed hl
  obtain ⟨i, a, ha, hd⟩ := ho.hive.dataAt hp.key_mem hq hlen
  have hdata : dataOf r = a := by
    unfold dataOf
    rw [ha]
    rfl
  rw [hdata] at hw ⊢
  obtain ⟨hf, hi⟩ := hd.framed ho.hive hp.key_mem hw
  have hkeys : ∀ t', elementKey m' objects t' = elementKey m objects t' :=
    fun t' => sameIndexes_elementKey_eq ho.hive hf hi ho.objects_mem.1
  refine ⟨⟨hi.hive ho.hive hf, ho.root_mem, ?_, ?_⟩, hkeys, ?_, ?_⟩
  · obtain ⟨hof, hstart, -⟩ := hd.part ho.hive hp.key_mem
    have habove := ho.hive.above _ hof
    rw [← ho.root_eq]
    exact rootKey_congr (Mem.word_congr fun x hx => hw _ (by omega))
  · rw [hi.findKey_eq ho.hive hf ho.root_mem bcdReg_component.1, ho.objects_eq]
  · have hkey : elementKey m' objects t = .ok key := by
      rw [hkeys t]
      exact elementKey_eq_ok_iff.mpr ⟨entry, elements, hl⟩
    unfold elementData keyData
    rw [hkey, ok_bind, hf.queryValue_eq ho.hive hp.key_mem, hq, ← hdata]
    rfl
  · intro t' hne
    refine elementData_congr (hkeys t') fun key' hkey' => ?_
    obtain ⟨entry', elements', hl'⟩ := elementKey_eq_ok_iff.mp hkey'
    have hp' := ho.placed hl'
    refine hd.keyData_eq ho.hive hp.key_mem hw hp'.key_mem ?_ bcdRegHval
    rintro rfl
    exact hne ⟨_, hkey', elementKey_eq_ok_iff.mpr ⟨entry, elements, hl⟩⟩

/-- **Deleting an element**: it is not found any more, no element is found that was not, and every one
with another key is what it was. -/
theorem Opened.delete (ho : Opened keys root objects m) (hl : Located m objects t entry elements key)
    (hname : ¬sameName bcdRegRoot t.keyname ∧ ¬sameName bcdRegHkey t.keyname)
    (hm' : m' = (deleteKey m elements key).2) :
    (deleteKey m elements key).1 = .ok () ∧ Opened keys root objects m' ∧
      elementKey m' objects t = .error (.findHkey t.keyname) ∧
      (∀ t' key', elementKey m' objects t' = .ok key' → elementKey m objects t' = .ok key') ∧
      ∀ t', ¬SameKey m objects t' t → elementKey m' objects t' = elementKey m objects t' ∧
        elementData m' objects t' = elementData m objects t' := by
  have hp := ho.placed hl
  have hok := ho.hive.keyTree.deleteKey_isOk hp.elements_mem hp.key_child
  have hexact : DeleteExact keys m (deleteKey m elements key).2 elements key
      (deleteKey m elements key).1 := ho.hive.keyTree.deleteExact hp.elements_mem
  obtain ⟨hf, hhive, hdata⟩ := ho.hive.deleteKey hp.elements_mem hok
  rw [← hm'] at hexact hf hhive hdata
  -- only the name of the element is looked up with another result, and only below its parent
  have hkept : ∀ q ∈ keys, ∀ name, backslash ∉ name → ¬(q = elements ∧ sameName name t.keyname) →
      findKey m' q name = findKey m q name := by
    intro q hq name hsep hne
    refine hexact.kept hok q hq name hsep fun h => hne ⟨h.1, ?_⟩
    exact sameName_trans h.2 hp.key_name
  have hobjects : objects ≠ elements := by
    rintro rfl
    exact bcdReg_not_sameName
      (sameName_trans (sameName_symm ho.objects_mem.2) hp.elements_name)
  have hguid : ∀ t' : Target, findKey m' objects t'.guid = findKey m objects t'.guid :=
    fun t' => hkept _ ho.objects_mem.1 _ t'.guid_component fun h => hobjects h.1
  have hhkey : ∀ q ∈ keys, findKey m' q bcdRegHkey = findKey m q bcdRegHkey :=
    fun q hq => hkept q hq _ bcdReg_component.2 fun h => hname.2 h.2
  -- an element below the same key with the same name goes with it, every other one stays
  have hgone : ∀ {t' : Target} {entry'}, findKey m objects t'.guid = .ok entry' →
      findKey m entry' bcdRegHkey = .ok elements → sameName t'.keyname t.keyname →
      elementKey m' objects t' = .error (.findHkey t'.keyname) ∧ SameKey m objects t' t := by
    intro t' entry' hentry' helements' hkeyname
    obtain ⟨hmem, -⟩ := findKey_child ho.hive ho.objects_mem.1 t'.guid_component hentry'
    have hnone := hexact.gone hok t'.keyname t'.keyname_component
      (sameName_trans hkeyname (sameName_symm hp.key_name))
    refine ⟨?_, key, elementKey_eq_ok_iff.mpr ⟨entry', elements, hentry', helements', ?_⟩,
      elementKey_eq_ok_iff.mpr ⟨entry, elements, hl⟩⟩
    · unfold elementKey
      rw [hguid t', hentry', orDie_ok, ok_bind, hhkey entry' hmem, helements', orDie_ok, ok_bind,
        hnone, orDie_error]
    · rw [← hl.key_eq, findKey_component m elements t'.keyname_component,
        findKey_component m elements t.keyname_component]
      exact ho.hive.keyTree.findChildKey_sameName hp.elements_mem hkeyname
  have hstays : ∀ t' : Target, (∀ entry', findKey m objects t'.guid = .ok entry' →
      findKey m entry' bcdRegHkey = .ok elements → ¬sameName t'.keyname t.keyname) →
      elementKey m' objects t' = elementKey m objects t' := by
    intro t' hother
    refine elementKey_congr (hguid t') ?_ ?_
    · intro entry' hentry'
      obtain ⟨hmem, -⟩ := findKey_child ho.hive ho.objects_mem.1 t'.guid_component hentry'
      exact hhkey entry' hmem
    · intro entry' elements' hentry' helements'
      obtain ⟨hmem, -⟩ := findKey_child ho.hive ho.objects_mem.1 t'.guid_component hentry'
      obtain ⟨hmem', -⟩ := findKey_child ho.hive hmem bcdReg_component.2 helements'
      refine hkept elements' hmem' _ t'.keyname_component ?_
      rintro ⟨rfl, hkeyname⟩
      exact hother entry' hentry' helements' hkeyname
  have hkeys : ∀ t', elementKey m' objects t' = elementKey m objects t' ∨
      elementKey m' objects t' = .error (.findHkey t'.keyname) ∧ SameKey m objects t' t := by
    intro t'
    by_cases hother : ∀ entry', findKey m objects t'.guid = .ok entry' →
        findKey m entry' bcdRegHkey = .ok elements → ¬sameName t'.keyname t.keyname
    · exact Or.inl (hstays t' hother)
    · push Not at hother
      obtain ⟨entry', hentry', helements', hkeyname⟩ := hother
      exact Or.inr (hgone hentry' helements' hkeyname)
  refine ⟨hok, ⟨hhive, ho.root_mem, ?_, ?_⟩, ?_, ?_, ?_⟩
  · obtain ⟨hcount, hframe⟩ := ho.hive.keyTree.deleteKey_frame hp.elements_mem hok
    have hnode := ho.hive.above (.node elements) hp.elements_mem
    have hindex := ho.hive.above (.index elements) ⟨hp.elements_mem, hcount⟩
    change 0x1000 ≤ elements at hnode
    change 0x1000 ≤ indexAddr m elements at hindex
    rw [← ho.root_eq, hm']
    exact rootKey_congr (Mem.word_congr fun x hx => hframe _ (by omega) (by omega))
  · rw [hkept _ ho.root_mem _ bcdReg_component.1 fun h => hname.1 h.2, ho.objects_eq]
  · exact (hgone hl.entry_eq hl.elements_eq (sameName_refl _)).1
  · intro t' key' hkey'
    rcases hkeys t' with hsame | ⟨hnone, -⟩
    · rwa [← hsame]
    · rw [hnone] at hkey'
      cases hkey'
  · intro t' hne
    have hkey : elementKey m' objects t' = elementKey m objects t' :=
      (hkeys t').resolve_right fun h => hne h.2
    refine ⟨hkey, elementData_congr hkey fun key' hkey' => ?_⟩
    obtain ⟨entry', elements', hl'⟩ := elementKey_eq_ok_iff.mp hkey'
    exact hdata key' (ho.placed hl').key_mem bcdRegHval

end Steps

/-! ## All patches -/

/-- What is known of an element: its key, and its data. -/
abbrev ElementView := Except BcdError ℕ × Except BcdError (List UInt8)

/-- The view of an element in an image. -/
def elementView (objects : ℕ) (m : Mem) (t : Target) : ElementView :=
  (elementKey m objects t, elementData m objects t)

/-- The patch finds its element, with room for its value. -/
def Patch.Ready (p : Patch) (v : ElementView) : Prop :=
  if p.change = .delete then ∃ key, v.1 = .ok key
  else ∃ bs, v.2 = .ok bs ∧ p.change.Fits bs.length

/-- The view of the element after the patch. -/
def Patch.result (args : NtArgs) (p : Patch) (v : ElementView) : ElementView :=
  if p.change = .delete then (.error (.findHkey p.keyname.units), .error (.findHkey p.keyname.units))
  else (v.1, v.2.map fun bs => p.change.encoding args bs.length)

/-- A value is not empty. -/
theorem Change.Fits.ne_zero {c : Change} {len : ℕ} (hc : c ≠ .delete) (h : c.Fits len) : len ≠ 0 := by
  cases c with
  | delete => exact absurd rfl hc
  | bool val =>
      change len = 1 at h
      omega
  | u64 val =>
      change len = 8 at h
      omega
  | sz s =>
      change 2 * ((ucs2 s).length + 1) ≤ len at h
      omega
  | szw s =>
      change 2 * (s.length + 1) ≤ len at h
      omega
  | dp boottype =>
      have hpos : 0 < dpLength boottype := by cases boottype <;> decide
      change dpLength boottype ≤ len at h
      omega

/-- An image in which patches have run: no element is found in it that was not found before them. -/
structure Patched (keys : Set ℕ) (root objects : ℕ) (m₀ m : Mem) : Prop
    extends Opened keys root objects m where
  kept : ∀ t key, elementKey m objects t = .ok key → elementKey m₀ objects t = .ok key

/-- Elements with the same key had the same key before. -/
theorem Patched.sameKey {keys : Set ℕ} {root objects : ℕ} {m₀ m : Mem} {t t' : Target}
    (ho : Patched keys root objects m₀ m) (h : SameKey m objects t t') : SameKey m₀ objects t t' := by
  obtain ⟨key, hkey, hkey'⟩ := h
  exact ⟨key, ho.kept t key hkey, ho.kept t' key hkey'⟩

/-- **Patches are updates of elements**: one changes its element, and those only that have the same
key. -/
theorem updates_patches (args : NtArgs) (keys : Set ℕ) (root objects : ℕ) (m₀ : Mem) :
    Updates (Patched keys root objects m₀) (elementView objects) (SameKey m₀ objects) Patch.target
      Patch.Ready (Patch.result args) (Patch.run args objects) where
  step m p ho hready := by
    unfold Patch.Ready elementView at hready
    unfold Patch.result elementView
    by_cases hdelete : p.change = .delete
    · rw [if_pos hdelete] at hready ⊢
      obtain ⟨key, hkey⟩ := hready
      obtain ⟨entry, elements, hl⟩ := elementKey_eq_ok_iff.mp hkey
      obtain ⟨hok, ho', hgone, hfound, hothers⟩ := ho.delete hl p.keyname.not_sameName rfl
      refine ⟨_, ?_, ⟨ho', fun t key h => ho.kept t key (hfound t key h)⟩, ?_, ?_⟩
      · have hentry := hl.entry_eq
        have hkeyname := hl.key_eq
        unfold Patch.target at hentry hkeyname
        unfold Patch.run bcdDeleteKey
        rw [hdelete]
        dsimp only at hentry hkeyname ⊢
        rw [hentry, orDie_ok, ok_bind, hl.elements_eq, orDie_ok, ok_bind, hkeyname, orDie_ok, ok_bind,
          hok, orDie_ok, ok_bind]
        rfl
      · unfold elementData
        rw [hgone, error_bind]
        rfl
      · intro t hne
        obtain ⟨hkeys, hdata⟩ := hothers t fun h => hne (ho.sameKey h)
        rw [hkeys, hdata]
    · rw [if_neg hdelete] at hready ⊢
      obtain ⟨bs, hbs, hfits⟩ := hready
      dsimp only at hbs
      obtain ⟨key, hkey, hdata⟩ := bind_eq_ok_iff.mp hbs
      rw [orDie_eq_ok_iff] at hdata
      obtain ⟨entry, elements, hl⟩ := elementKey_eq_ok_iff.mp hkey
      -- the query that the data come from
      rcases hq : queryValue m key bcdRegHval with e | r
      · unfold keyData at hdata
        rw [hq] at hdata
        cases hdata
      unfold keyData at hdata
      rw [hq] at hdata
      cases hdata
      rw [Mem.bytes_length] at hfits
      have hfind : bcdFindHive m objects p.guid.units p.keyname.units = .ok r := by
        have heq := bcdFindHive_eq m objects p.target
        rw [hkey, ok_bind, hq] at heq
        exact heq
      have hlength := Change.encoding_length args hdelete hfits
      have hframe : ∀ x, (x < dataOf r ∨ dataOf r + r.length ≤ x) →
          m.store (dataOf r) (p.change.encoding args r.length) x = m x := by
        intro x hx
        rw [← hlength] at hx
        exact Mem.store_of_not_mem _ hx
      obtain ⟨ho', hkeys, hself, hothers⟩ := ho.write hl hq (hfits.ne_zero hdelete) hframe
      have hkept : Patched keys root objects m₀
          (m.store (dataOf r) (p.change.encoding args r.length)) := by
        refine ⟨ho', fun t key h => ho.kept t key ?_⟩
        rwa [hkeys] at h
      refine ⟨_, p.run_eq args hdelete hfind hfits, hkept, ?_, ?_⟩
      · have hstore := Mem.bytes_store_self m (dataOf r) (p.change.encoding args r.length)
        rw [hlength] at hstore
        rw [hkeys, hself, hstore, hbs]
        change _ = (_, Except.ok (p.change.encoding args (m.bytes (r.data.getD 0) r.length).length))
        rw [Mem.bytes_length]
      · intro t hne
        rw [hkeys, hothers t fun h => hne (ho.sameKey h)]

/-! ## The whole -/

/-- The image holds the element of a patch, with room for its value. -/
def Patch.Holds (m : Mem) (p : Patch) : Prop :=
  if p.change = .delete then
    ∃ objects key, objectsKey m = .ok objects ∧ elementKey m objects p.target = .ok key
  else ∃ bs, element m p.target = .ok bs ∧ p.change.Fits bs.length

/-- What the patches do to an image. -/
structure Exact (args : NtArgs) (m m' : Mem) : Prop where
  /-- A patched element holds its value, in as many bytes as it had. -/
  patched : ∀ p ∈ patches args, p.change ≠ .delete → ∀ bs, element m p.target = .ok bs →
    element m' p.target = .ok (p.change.encoding args bs.length)
  /-- A deleted element is not found. -/
  deleted : ∀ p ∈ patches args, p.change = .delete →
    element m' p.target = .error (.findHkey p.keyname.units)
  /-- Every other element is what it was. -/
  others : ∀ t, (∀ p ∈ patches args, ¬sameTarget t p.target) → element m' t = element m t

/-- Elements are looked up below the key of the objects. -/
theorem element_eq {m : Mem} {objects : ℕ} (h : objectsKey m = .ok objects) (t : Target) :
    element m t = elementData m objects t := by
  unfold element
  rw [h]
  rfl

/-- The key of the objects is found. -/
theorem Opened.objectsKey_eq {keys : Set ℕ} {root objects : ℕ} {m : Mem}
    (ho : Opened keys root objects m) : objectsKey m = .ok objects := by
  unfold objectsKey
  rw [ho.root_eq, ho.objects_eq]
  rfl

/-- There is a patch that is no deletion. -/
theorem exists_patch (args : NtArgs) : ∃ p ∈ patches args, p.change ≠ .delete := by
  refine ⟨⟨.bootmgr, .timeout, .u64 args.timeout⟩, ?_, by simp⟩
  simp [patches, bootmgrPatches]

/-- Patching is a run of updates, if no two patches are for elements with the same key: no patch fails,
the view of its element becomes its result, an element with another key is seen as it was, and no
element is found that was not. -/
theorem patchElements_views {keys : Set ℕ} {m m₁ : Mem} {fuel : ℕ} (hh : Hive keys m)
    (hroot : rootKey m ∈ keys) (hopen : regOpenHive fuel m = some (.ok m₁)) (args : NtArgs)
    (hown : ∀ objects, objectsKey m = .ok objects →
      (patches args).Pairwise fun p q => ¬SameKey m objects p.target q.target)
    (hholds : ∀ p ∈ patches args, p.Holds m) :
    ∃ objects m', objectsKey m = .ok objects ∧ objectsKey m' = .ok objects ∧
      patchElements fuel args m = some (.ok m') ∧
      (∀ p ∈ patches args,
        elementView objects m' p.target = Patch.result args p (elementView objects m p.target)) ∧
      (∀ t, (∀ p ∈ patches args, ¬SameKey m objects t p.target) →
        elementView objects m' t = elementView objects m t) ∧
      ∀ t key, elementKey m' objects t = .ok key → elementKey m objects t = .ok key := by
  obtain ⟨objects, hobjects⟩ : ∃ objects, objectsKey m = .ok objects := by
    obtain ⟨p, hp, hchange⟩ := exists_patch args
    have hp := hholds p hp
    unfold Patch.Holds at hp
    rw [if_neg hchange] at hp
    obtain ⟨bs, hbs, -⟩ := hp
    obtain ⟨objects, hobjects, -⟩ := bind_eq_ok_iff.mp hbs
    exact ⟨objects, hobjects⟩
  have hfound := orDie_eq_ok_iff.mp hobjects
  have hmem := (findKey_child hh hroot bcdReg_component.1 hfound).1
  -- opening leaves the elements as they are
  obtain ⟨hrootKey, hf, hi, hdata⟩ := hh.opened hroot hopen
  have hkeys : ∀ t, elementKey m₁ objects t = elementKey m objects t :=
    fun t => sameIndexes_elementKey_eq hh hf hi hmem
  have hopened : Patched keys (rootKey m) objects m m₁ := by
    refine ⟨⟨hi.hive hh hf, hroot, hrootKey, ?_⟩, fun t key h => ?_⟩
    · rw [hi.findKey_eq hh hf hroot bcdReg_component.1, hfound]
    · rwa [hkeys] at h
  have hview : ∀ t, elementView objects m₁ t = elementView objects m t := by
    intro t
    unfold elementView
    rw [hkeys t, elementData_congr (hkeys t) fun key hkey => ?_]
    obtain ⟨entry, elements, hl⟩ := elementKey_eq_ok_iff.mp hkey
    obtain ⟨hentry, -⟩ := findKey_child hh hmem t.guid_component hl.entry_eq
    obtain ⟨helements, -⟩ := findKey_child hh hentry bcdReg_component.2 hl.elements_eq
    obtain ⟨hkey, -⟩ := findKey_child hh helements t.keyname_component hl.key_eq
    exact hdata key hkey bcdRegHval
  have hready : ∀ p ∈ patches args, p.Ready (elementView objects m₁ p.target) := by
    intro p hp
    have hp := hholds p hp
    rw [hview]
    unfold Patch.Holds at hp
    unfold Patch.Ready elementView
    by_cases hdelete : p.change = .delete
    · rw [if_pos hdelete] at hp ⊢
      obtain ⟨objects', key, hobjects', hkey⟩ := hp
      rw [hobjects] at hobjects'
      cases hobjects'
      exact ⟨key, hkey⟩
    · rw [if_neg hdelete, element_eq hobjects] at hp
      rw [if_neg hdelete]
      exact hp
  have hpairwise : (patches args).Pairwise fun p q =>
      ¬SameKey m objects p.target q.target ∧ ¬SameKey m objects q.target p.target :=
    (hown objects hobjects).imp fun h => ⟨h, fun ⟨key, hq, hp⟩ => h ⟨key, hp, hq⟩⟩
  obtain ⟨m', hrun, hopened', htargets, hothers⟩ :=
    (updates_patches args keys (rootKey m) objects m).run hpairwise hopened hready
  have hobjects' := hopened'.objectsKey_eq
  have hpatched : patchElements fuel args m = some (.ok m') := by
    have hobjects₁ := hopened.objectsKey_eq
    unfold objectsKey at hobjects₁
    unfold patchElements patchHive
    rw [hopen, Option.map_some, orDie_ok, ok_bind, hobjects₁, ok_bind, hrun]
  refine ⟨objects, m', hobjects, hobjects', hpatched, fun p hp => ?_, fun t ht => ?_, hopened'.kept⟩
  · rw [htargets p hp, hview]
  · rw [hothers t ht, hview]

/-- **An element with the key of a patched one** changes with it, whatever its names are. -/
theorem not_exact_of_sameKey {keys : Set ℕ} {m m₁ m' : Mem} {fuel objects : ℕ} (hh : Hive keys m)
    (hroot : rootKey m ∈ keys) (hopen : regOpenHive fuel m = some (.ok m₁)) {args : NtArgs}
    (hobjects : objectsKey m = .ok objects)
    (hown : (patches args).Pairwise fun p q => ¬SameKey m objects p.target q.target)
    (hholds : ∀ p ∈ patches args, p.Holds m) {p : Patch} (hp : p ∈ patches args)
    (hchange : p.change ≠ .delete) {t : Target} (ht : ∀ q ∈ patches args, ¬sameTarget t q.target)
    (hsame : SameKey m objects t p.target) {bs : List UInt8} (hbs : element m p.target = .ok bs)
    (hne : p.change.encoding args bs.length ≠ bs)
    (hrun : patchElements fuel args m = some (.ok m')) : ¬Exact args m m' := by
  intro hexact
  obtain ⟨objects', m'', hobjects', hobjects'', hrun', -, -, hkept⟩ :=
    patchElements_views hh hroot hopen args
      (fun objects' h => by rwa [Except.ok.inj (h.symm.trans hobjects)]) hholds
  obtain rfl : objects' = objects := Except.ok.inj (hobjects'.symm.trans hobjects)
  obtain rfl : m'' = m' := Except.ok.inj (Option.some.inj (hrun'.symm.trans hrun))
  obtain ⟨key, hkey, hkey'⟩ := hsame
  have hpatched := hexact.patched p hp hchange bs hbs
  have hother := hexact.others t ht
  -- both elements have their data, before and after, and it is the data of one key
  have hdata : ∀ {t' : Target} {bs' : List UInt8}, elementKey m objects' t' = .ok key →
      element m'' t' = .ok bs' → keyData m'' key bcdRegHval = .ok bs' := by
    intro t' bs' ht' hbs'
    rw [element_eq hobjects''] at hbs'
    obtain ⟨key', hkey', hbs'⟩ := bind_eq_ok_iff.mp hbs'
    rw [Except.ok.inj ((hkept t' key' hkey').symm.trans ht'), orDie_eq_ok_iff] at hbs'
    exact hbs'
  have hsame : element m t = .ok bs := by
    rw [element_eq hobjects] at hbs ⊢
    unfold elementData at hbs ⊢
    rwa [hkey, ← hkey']
  rw [hsame] at hother
  exact hne (Except.ok.inj ((hdata hkey' hpatched).symm.trans (hdata hkey hother)))

/-- Where elements have keys of their own, no two patches are for the same key. -/
theorem OwnKeys.pairwise {m : Mem} {objects : ℕ} (h : OwnKeys m) (hobjects : objectsKey m = .ok objects)
    (args : NtArgs) : (patches args).Pairwise fun p q => ¬SameKey m objects p.target q.target :=
  (patches_pairwise args).imp fun hne hsame => hne.1 (h objects hobjects _ _ hsame)

/-- Where every key has one parent at most, elements have keys of their own. -/
theorem ownKeys_of_parent {keys : Set ℕ} {m : Mem} (hh : Hive keys m) (hroot : rootKey m ∈ keys)
    (hparent : ∀ p ∈ keys, ∀ q ∈ keys, ∀ c ∈ childKeys m p, c ∈ childKeys m q → p = q) :
    OwnKeys m := by
  rintro objects hobjects t t' ⟨key, hkey, hkey'⟩
  have ho : Opened keys (rootKey m) objects m := ⟨hh, hroot, rfl, orDie_eq_ok_iff.mp hobjects⟩
  obtain ⟨entry, elements, hl⟩ := elementKey_eq_ok_iff.mp hkey
  obtain ⟨entry', elements', hl'⟩ := elementKey_eq_ok_iff.mp hkey'
  have hp := ho.placed hl
  have hp' := ho.placed hl'
  obtain rfl := hparent elements hp.elements_mem elements' hp'.elements_mem key hp.key_child hp'.key_child
  obtain rfl :=
    hparent entry hp.entry_mem entry' hp'.entry_mem elements hp.elements_child hp'.elements_child
  exact ⟨sameName_trans (sameName_symm hp.entry_name) hp'.entry_name,
    sameName_trans (sameName_symm hp.key_name) hp'.key_name⟩

/-- **Patching is exact and isolated**: in a hive that is accepted and holds the elements, with room for
their values, no patch fails; each patched element holds its value, each deleted one is gone, and all
others are what they were. This is the image whose suffixes are rewritten then. The hive has leaves with
as many entries as their keys count, cells of data with room for them and their sizes, and a key of its
own for every element. -/
theorem patchElements_exact {keys : Set ℕ} {size : ℕ} {m m₁ : Mem} {fuel : ℕ}
    (hh : AllocatedHive keys size m) (hcounts : CountsAgree keys m) (hdata : DataFits keys m)
    (hown : OwnKeys m) (hroot : rootKey m ∈ keys) (hopen : regOpenHive fuel m = some (.ok m₁))
    (args : NtArgs) (hholds : ∀ p ∈ patches args, p.Holds m) :
    ∃ m', patchElements fuel args m = some (.ok m') ∧ Exact args m m' ∧
      ∀ efi length, bcdPatchData fuel efi args length m =
        some (.ok (patchSuffix efi m' 0 length)) := by
  obtain ⟨objects, m', hobjects, hobjects', hpatched, htargets, hothers, -⟩ :=
    patchElements_views (hh.hive hcounts hdata) hroot hopen args (fun _ h => hown.pairwise h args) hholds
  refine ⟨m', hpatched, ⟨?_, ?_, ?_⟩, ?_⟩
  · intro p hp hchange bs hbs
    have htarget := htargets p hp
    unfold Patch.result elementView at htarget
    rw [if_neg hchange] at htarget
    have hdata' := congrArg Prod.snd htarget
    dsimp only at hdata'
    rw [element_eq hobjects] at hbs
    rw [element_eq hobjects', hdata', hbs]
    rfl
  · intro p hp hchange
    have htarget := htargets p hp
    unfold Patch.result elementView at htarget
    rw [if_pos hchange] at htarget
    rw [element_eq hobjects']
    exact congrArg Prod.snd htarget
  · intro t ht
    have hsame := congrArg Prod.snd
      (hothers t fun p hp hsame => ht p hp (hown objects hobjects _ _ hsame))
    rw [element_eq hobjects', element_eq hobjects]
    exact hsame
  · intro efi length
    unfold bcdPatchData
    rw [hpatched]
    rfl

/-! ### Small stores -/

/-- A key of a small store: its name, the numbers of its subkeys, and the length of its data, if it has
any. -/
structure StoreKey where
  name : List UInt16
  subkeys : List ℕ
  length : ℕ

/-- The objects of the store. -/
def storeGuids : List Guid := [.bootmgr, .hibr, .ramdisk, .optn, .wosb]

/-- The least length of an element for a value. -/
def Change.minLength : Change → ℕ
  | .delete => 0
  | .bool _ => 1
  | .u64 _ => 8
  | .sz s => 2 * ((ucs2 s).length + 1)
  | .szw s => 2 * (s.length + 1)
  | .dp boottype => dpLength boottype

/-- The root key, the key of the objects with keys of the given numbers, the objects with their keys
`Elements`, and an element for every patch. -/
def storeKeys (args : NtArgs) (objects : List ℕ) : List StoreKey :=
  [⟨[], [1], 0⟩, ⟨bcdRegRoot, objects, 0⟩] ++
    storeGuids.zipIdx.map (fun g => ⟨g.1.units, [7 + g.2], 0⟩) ++
    storeGuids.map (fun g => ⟨bcdRegHkey,
      ((patches args).zipIdx 12).filterMap fun p => if p.1.guid = g then some p.2 else none, 0⟩) ++
    (patches args).map fun p => ⟨p.keyname.units, [], p.change.minLength⟩

/-- The place of a key of the store. -/
def storeAddr (i : ℕ) : ℕ := 0x1020 + 0x200 * i

/-- The cells of a key of the store, each at an offset of its own. -/
def storeFields (i : ℕ) (k : StoreKey) : List (ℕ × ℕ) :=
  [(0, 2 ^ 32 - 0xa0), (4, keyNodeSignature), (24, k.subkeys.length),
    (32, storeAddr i + 0xa0 - 0x1000), (36, 0xbaadf00d), (40, if k.length = 0 then 0 else 1),
    (44, storeAddr i + 0x128 - 0x1000), (76, 2 * k.name.length), (80, leNat (unitBytes k.name)),
    (0xa0, 2 ^ 32 - (8 + 8 * k.subkeys.length)), (0xa4, keyFastLeaf), (0xa6, k.subkeys.length)] ++
    k.subkeys.zipIdx.map (fun c => (0xa8 + 8 * c.2, storeAddr c.1 - 0x1000)) ++
    [(0x128, 2 ^ 32 - 8), (0x12c, storeAddr i + 0x130 - 0x1000), (0x130, 2 ^ 32 - 0x28),
      (0x134, keyValueSignature), (0x136, 2 * bcdRegHval.length),
      (0x138, if k.length = 1 then 2 ^ 31 + 1 else k.length), (0x13c, storeAddr i + 0x158 - 0x1000),
      (0x148, leNat (unitBytes bcdRegHval)), (0x158, 2 ^ 32 - (4 + k.length))]

/-- A hive with the given keys: its header, its bin and its keys. -/
def storeImage (keys : List StoreKey) : ℕ :=
  packed ([(0, 0x66676572), (20, 1), (24, 3), (32, 1), (36, 0x20), (40, 0x6000), (44, 1),
    (508, 0x66676572 ^^^ 1 ^^^ 3 ^^^ 1 ^^^ 0x20 ^^^ 0x6000 ^^^ 1), (0x1000, 0x6e696268),
    (0x1008, 0x6000)] ++
    keys.zipIdx.map fun k => (storeAddr k.2, packed (storeFields k.2 k.1)))

/-- The store with the elements for the static arguments. -/
def smallStore : Mem := ofImage (storeImage (storeKeys .init [2, 3, 4, 5, 6]))

/-- The keys of the store. -/
def smallStoreKeys : List ℕ := (List.range 40).map storeAddr

instance (len : ℕ) (c : Change) : Decidable (c.Fits len) :=
  match c with
  | .delete => isTrue trivial
  | .bool _ => inferInstanceAs (Decidable (_ = _))
  | .u64 _ => inferInstanceAs (Decidable (_ = _))
  | .sz _ => inferInstanceAs (Decidable (_ ≤ _))
  | .szw _ => inferInstanceAs (Decidable (_ ≤ _))
  | .dp _ => inferInstanceAs (Decidable (_ ≤ _))

/-- A test whether an image holds the element of a patch. -/
def Patch.check (m : Mem) (p : Patch) : Bool :=
  if p.change = .delete then
    (objectsKey m >>= fun objects => elementKey m objects p.target).toOption.isSome
  else (element m p.target).toOption.any fun bs => p.change.Fits bs.length

/-- A value that is there is the result. -/
theorem toOption_eq_some_iff {ε α : Type} {x : Except ε α} {a : α} :
    x.toOption = some a ↔ x = .ok a := by
  cases x with
  | error e => simp [Except.toOption]
  | ok b => simp [Except.toOption]

/-- What passes the test holds the element. -/
theorem Patch.holds_of_check {m : Mem} {p : Patch} (h : p.check m = true) : p.Holds m := by
  unfold Patch.check at h
  unfold Patch.Holds
  by_cases hdelete : p.change = .delete
  · rw [if_pos hdelete] at h ⊢
    obtain ⟨key, hkey⟩ := Option.isSome_iff_exists.mp h
    obtain ⟨objects, hobjects, hkey⟩ := bind_eq_ok_iff.mp (toOption_eq_some_iff.mp hkey)
    exact ⟨objects, key, hobjects, hkey⟩
  · rw [if_neg hdelete] at h ⊢
    obtain ⟨bs, hbs, hfits⟩ := Option.any_eq_true _ _ |>.mp h
    exact ⟨bs, toOption_eq_some_iff.mp hbs, of_decide_eq_true hfits⟩

/-- A store that is accepted and holds the elements for the static arguments. -/
structure StoreOk (ks : List ℕ) (m : Mem) : Prop where
  hive : AllocatedHive {k | k ∈ ks} 0x7000 m
  root : rootKey m ∈ ks
  opened : regOpenHive 8 m = some (.ok m)
  holds : ∀ p ∈ patches .init, p.Holds m

/-- A test for stores with clear keys. -/
def StoreCheck (ks : List ℕ) (m : Mem) : Prop :=
  AllocatedCheck ks m 0x7000 ∧ OpensCheck ks m 8 ∧ (patches .init).all (Patch.check m) = true

instance (ks : List ℕ) (m : Mem) : Decidable (StoreCheck ks m) :=
  inferInstanceAs (Decidable (_ ∧ _))

/-- What passes the test is accepted and holds the elements. -/
theorem StoreOk.of_check {ks : List ℕ} {m : Mem} (h : StoreCheck ks m) : StoreOk ks m := by
  obtain ⟨hcheck, hopens, hholds⟩ := h
  refine ⟨hcheck.allocatedHive, hopens.root, hopens.regOpenHive_eq, ?_⟩
  intro p hp
  exact Patch.holds_of_check (List.all_eq_true.mp hholds p hp)

/-- A test of the counts of keys and of the room for their data. -/
def PlainCheck (ks : List ℕ) (m : Mem) : Prop :=
  (∀ k ∈ ks, subKeyCount m (keyBody k) ≠ 0 →
    indexCount m (keyBody (indexAddr m k)) = subKeyCount m (keyBody k)) ∧
    ∀ k ∈ ks, ∀ i < valuesCount m (keyBody k), isSpecial m (valueBody m k i) = false →
      4 + valueDataLength m (valueBody m k i) ≤ getInt32Size m (dataAddr m k i)

instance (ks : List ℕ) (m : Mem) : Decidable (PlainCheck ks m) :=
  inferInstanceAs (Decidable (_ ∧ _))

/-- What passes the test has counts that agree, and data that fit. -/
theorem PlainCheck.plain {ks : List ℕ} {m : Mem} (h : PlainCheck ks m) :
    CountsAgree {k | k ∈ ks} m ∧ DataFits {k | k ∈ ks} m :=
  h

/-- What is evaluated of the small store: its tests, and no key is a subkey of two keys. -/
theorem smallStore_checks : StoreCheck smallStoreKeys smallStore ∧ PlainCheck smallStoreKeys smallStore ∧
    (smallStoreKeys.flatMap (childKeys smallStore)).Nodup := by
  decide +kernel

/-- The store is accepted and holds the elements. -/
theorem smallStore_ok : StoreOk smallStoreKeys smallStore := .of_check smallStore_checks.1

/-- Its counts agree, its data fit, and no key is a subkey of two keys. -/
theorem smallStore_plain : CountsAgree {k | k ∈ smallStoreKeys} smallStore ∧
    DataFits {k | k ∈ smallStoreKeys} smallStore ∧ OwnKeys smallStore := by
  obtain ⟨hcounts, hdata⟩ := smallStore_checks.2.1.plain
  have hnodup : (smallStoreKeys.flatMap (childKeys smallStore)).Nodup := smallStore_checks.2.2
  have hsymm : Std.Symm (Function.onFun List.Disjoint (childKeys smallStore)) :=
    ⟨fun _ _ h => List.Disjoint.symm h⟩
  refine ⟨hcounts, hdata, ownKeys_of_parent (smallStore_ok.hive.hive hcounts hdata) smallStore_ok.root ?_⟩
  intro p hp q hq c hc hc'
  by_contra hne
  exact ((List.nodup_flatMap.mp hnodup).2.forall hp hq hne) hc hc'

/-- No patch of the small store fails. -/
theorem patchElements_smallStore : ∃ m', patchElements 8 .init smallStore = some (.ok m') := by
  obtain ⟨hcounts, hdata, hown⟩ := smallStore_plain
  obtain ⟨-, m', -, -, hm', -⟩ :=
    patchElements_views (smallStore_ok.hive.hive hcounts hdata) smallStore_ok.root smallStore_ok.opened
      .init (fun _ h => hown.pairwise h .init) smallStore_ok.holds
  exact ⟨m', hm'⟩

/-- The small store is patched, and patched exactly. -/
theorem patchElements_exact_smallStore :
    ∃ m', patchElements 8 .init smallStore = some (.ok m') ∧ Exact .init smallStore m' ∧
      ∀ efi length, bcdPatchData 8 efi .init length smallStore =
        some (.ok (patchSuffix efi m' 0 length)) := by
  obtain ⟨hcounts, hdata, hown⟩ := smallStore_plain
  exact patchElements_exact smallStore_ok.hive hcounts hdata hown smallStore_ok.root
    smallStore_ok.opened .init smallStore_ok.holds

/-! ### Stores that are not patched exactly -/

/-- The store, but the key `Elements` of the ram disk counts one subkey where its leaf has two. -/
def countStore : Mem :=
  ofImage (storeImage (storeKeys .init [2, 3, 4, 5, 6]) - 1 <<< (8 * (storeAddr 9 + 24)))

/-- The store, but the first element has data of 80 bytes in a cell that states 80 bytes, in front of the
key of the next element. -/
def tightStore : Mem :=
  ofImage (storeImage (storeKeys .init [2, 3, 4, 5, 6]) + packed [(storeAddr 12 + 0x138, 80 - 78),
    (storeAddr 12 + 0x13c, 0x200 - 0x50 - 0x158), (storeAddr 13 - 0x50, 2 ^ 32 - 80)])

/-- The store with one more object, `X`, that has the key `Elements` of the boot manager. -/
def sharedStore : Mem :=
  ofImage (storeImage (storeKeys .init [2, 3, 4, 5, 6, 40] ++ [⟨[88], [7], 0⟩]))

/-- Its keys. -/
def sharedStoreKeys : List ℕ := smallStoreKeys ++ [storeAddr 40]

/-- A store of which a patch fails is not patched. -/
theorem StoreOk.not_exact {ks : List ℕ} {m : Mem} (h : StoreOk ks m)
    (hrun : (patchHive .init m).toOption.isSome = false) :
    ¬∃ m', patchElements 8 .init m = some (.ok m') ∧ Exact .init m m' := by
  rintro ⟨m', hm', -⟩
  unfold patchElements at hm'
  rw [h.opened, Option.map_some, orDie_ok, ok_bind] at hm'
  rw [Option.some.inj hm'] at hrun
  cases hrun

/-- What is evaluated of the store with the wrong count: its tests, the two numbers, and the run. -/
theorem countStore_checks : StoreCheck smallStoreKeys countStore ∧
    subKeyCount countStore (keyBody (storeAddr 9)) = 1 ∧
    indexCount countStore (keyBody (indexAddr countStore (storeAddr 9))) = 2 ∧
    (patchHive .init countStore).toOption.isSome = false := by
  decide +kernel

/-- The store with the wrong count is accepted and holds the elements. -/
theorem countStore_ok : StoreOk smallStoreKeys countStore := .of_check countStore_checks.1

/-- Of the two elements of the ram disk one is deleted first. The other is not found then: its key
counts no subkeys any more. -/
theorem countStore_not_exact :
    ¬∃ m', patchElements 8 .init countStore = some (.ok m') ∧ Exact .init countStore m' :=
  countStore_ok.not_exact countStore_checks.2.2.2

/-- The ram disk has a leaf of two entries, and a count of one. -/
theorem countStore_counts : ¬CountsAgree {k | k ∈ smallStoreKeys} countStore := by
  intro h
  obtain ⟨-, hone, htwo, -⟩ := countStore_checks
  have hmem : storeAddr 9 ∈ smallStoreKeys := List.mem_map.mpr ⟨9, by decide, rfl⟩
  have heq := h (storeAddr 9) hmem (by omega)
  omega

/-- What is evaluated of the store with the tight cell: its tests, the value in the cell, and the run. -/
theorem tightStore_checks : StoreCheck smallStoreKeys tightStore ∧
    0 < valuesCount tightStore (keyBody (storeAddr 12)) ∧
    isSpecial tightStore (valueBody tightStore (storeAddr 12) 0) = false ∧
    valueDataLength tightStore (valueBody tightStore (storeAddr 12) 0) = 80 ∧
    getInt32Size tightStore (dataAddr tightStore (storeAddr 12) 0) = 80 ∧
    (patchHive .init tightStore).toOption.isSome = false := by
  decide +kernel

/-- The store with the tight cell is accepted and holds the elements. -/
theorem tightStore_ok : StoreOk smallStoreKeys tightStore := .of_check tightStore_checks.1

/-- The first value ends in the size of the cell behind its own, and the next key is not found. -/
theorem tightStore_not_exact :
    ¬∃ m', patchElements 8 .init tightStore = some (.ok m') ∧ Exact .init tightStore m' :=
  tightStore_ok.not_exact tightStore_checks.2.2.2.2.2

/-- The tight cell has no room for its size and 80 bytes. -/
theorem tightStore_data : ¬DataFits {k | k ∈ smallStoreKeys} tightStore := by
  intro h
  obtain ⟨-, hvalue, hspecial, hlength, hsize, -⟩ := tightStore_checks
  have hmem : storeAddr 12 ∈ smallStoreKeys := List.mem_map.mpr ⟨12, by decide, rfl⟩
  have hle := h (storeAddr 12) hmem 0 hvalue hspecial
  omega

/-- The order of the objects, an element of `X` that no patch is for. -/
def sharedTarget : Target :=
  ⟨[88], BcdOpt.order.units, by decide +kernel, BcdOpt.order.backslash_notMem⟩

/-- The patch of the order of the objects. -/
def orderPatch : Patch := ⟨.bootmgr, .order, .szw (entryGuid NtArgs.init.boottype).units⟩

/-- Keys without repetition are no two the same. -/
theorem pairwise_of_nodup {m : Mem} {objects : ℕ} {ps : List Patch}
    (h : (ps.map fun p => (elementKey m objects p.target).toOption).Nodup) :
    ps.Pairwise fun p q => ¬SameKey m objects p.target q.target := by
  refine (List.pairwise_map.mp h).imp ?_
  rintro p q hne ⟨key, hp, hq⟩
  exact hne ((toOption_eq_some_iff.mpr hp).trans (toOption_eq_some_iff.mpr hq).symm)

/-- What is evaluated of the store with the object `X`: its tests, the keys of the patched elements, which
differ, and the key and the data of the order of the boot manager, which are those of `X`. -/
theorem sharedStore_checks : StoreCheck sharedStoreKeys sharedStore ∧
    PlainCheck sharedStoreKeys sharedStore ∧
    (objectsKey sharedStore).toOption = some (storeAddr 1) ∧
    ((patches .init).map fun p => (elementKey sharedStore (storeAddr 1) p.target).toOption).Nodup ∧
    (elementKey sharedStore (storeAddr 1) sharedTarget).toOption = some (storeAddr 13) ∧
    (elementKey sharedStore (storeAddr 1) orderPatch.target).toOption = some (storeAddr 13) ∧
    (element sharedStore orderPatch.target).toOption = some (List.replicate 78 0) ∧
    orderPatch.change.encoding .init (List.replicate 78 (0 : UInt8)).length ≠ List.replicate 78 0 := by
  decide +kernel

/-- The store is accepted and holds the elements. -/
theorem sharedStore_ok : StoreOk sharedStoreKeys sharedStore := .of_check sharedStore_checks.1

/-- The order under `X` changes with that of the boot manager. -/
theorem sharedStore_not_exact :
    ¬∃ m', patchElements 8 .init sharedStore = some (.ok m') ∧ Exact .init sharedStore m' := by
  rintro ⟨m', hm', hexact⟩
  obtain ⟨-, hplain, hobjects, hnodup, hother, horder, hbs, hne⟩ := sharedStore_checks
  have hsame : SameKey sharedStore (storeAddr 1) sharedTarget orderPatch.target :=
    ⟨storeAddr 13, toOption_eq_some_iff.mp hother, toOption_eq_some_iff.mp horder⟩
  have hx : ∀ g ∈ Guid.all, ¬sameName [88] g.units := by decide +kernel
  exact not_exact_of_sameKey (sharedStore_ok.hive.hive hplain.plain.1 hplain.plain.2) sharedStore_ok.root
    sharedStore_ok.opened (toOption_eq_some_iff.mp hobjects) (pairwise_of_nodup hnodup)
    sharedStore_ok.holds (p := orderPatch) (by simp [patches, bootmgrPatches, orderPatch])
    (by simp [orderPatch]) (fun q _ h => hx q.guid q.guid.mem_all h.1) hsame
    (toOption_eq_some_iff.mp hbs) hne hm' hexact

/-- **Each of the three conditions is needed**: there are accepted hives with allocated cells that do not
overlap, the elements in them and room for their values, of which one patch fails, or one element that is
not patched changes. -/
theorem not_patchElements_exact :
    (∃ ks m, StoreOk ks m ∧ ¬CountsAgree {k | k ∈ ks} m ∧
      ¬∃ m', patchElements 8 .init m = some (.ok m') ∧ Exact .init m m') ∧
    (∃ ks m, StoreOk ks m ∧ ¬DataFits {k | k ∈ ks} m ∧
      ¬∃ m', patchElements 8 .init m = some (.ok m') ∧ Exact .init m m') ∧
    ∃ ks m, StoreOk ks m ∧ CountsAgree {k | k ∈ ks} m ∧ DataFits {k | k ∈ ks} m ∧
      ¬∃ m', patchElements 8 .init m = some (.ok m') ∧ Exact .init m m' := by
  exact ⟨⟨_, _, countStore_ok, countStore_counts, countStore_not_exact⟩,
    ⟨_, _, tightStore_ok, tightStore_data, tightStore_not_exact⟩,
    ⟨_, _, sharedStore_ok, sharedStore_checks.2.1.plain.1, sharedStore_checks.2.1.plain.2,
      sharedStore_not_exact⟩⟩

end Ntloader.Bcd
