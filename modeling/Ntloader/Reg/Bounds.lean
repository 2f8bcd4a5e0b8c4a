import Ntloader.Reg.Access
import Ntloader.Reg.Bins
import Ntloader.Reg.Volatile

/-!
# Where the registry routines read and write

Nothing that the routines check says that a cell lies in the image. They stay in it as long as every
cell that they come to does.

* `CellIn`, `KeyIn`, `WalkIn` — the cells that a call comes to lie in the image.
* `EnumKeysIn`, `PathIn`, `QueryValueIn`, … — so does all that a call of a routine comes to.
* `enumKeys_within`, `findKey_within`, … — a call then accesses bytes of the image only.
* `Session` — opening a hive, and a sequence of calls on handles that they have returned.
* `session_within` — a session whose calls come to cells of the image only stays in the image.
* `OpenInCheck` — a test that all that an opening comes to lies in the image.
* `not_session_within` — a hive that is accepted although its root key lies behind the image.
-/

namespace Ntloader.Reg

open Ntloader.Lib Ntloader.Lib.Traced

/-! ## Cells in the image -/

/-- The size of a cell lies in the image, and so do the contents of a cell in use. -/
structure CellIn (size : ℕ) (m : Mem) (off body : ℕ) : Prop where
  addr : off + 4 ≤ size
  body : getInt32Size m off < 2 ^ 31 → body + getInt32Size m off ≤ size + 4

instance (size : ℕ) (m : Mem) (off body : ℕ) : Decidable (CellIn size m off body) :=
  decidable_of_iff
    (off + 4 ≤ size ∧ (getInt32Size m off < 2 ^ 31 → body + getInt32Size m off ≤ size + 4))
    ⟨fun ⟨h₁, h₂⟩ => ⟨h₁, h₂⟩, fun ⟨h₁, h₂⟩ => ⟨h₁, h₂⟩⟩

/-- A call for a key comes to a list of it: the key passes its tests, it has what the call wants, and
there is a list. -/
def ComesTo (m : Mem) (key list : ℕ) (wanted : Prop) : Prop :=
  checkNode m key (keyBody key) = .ok () ∧ wanted ∧ list ≠ noCell

/-- The cell of a key lies in the image, and so does the list that a call comes to. -/
structure KeyIn (size : ℕ) (m : Mem) (key list : ℕ) (wanted : Prop) : Prop where
  node : CellIn size m key (keyBody key)
  list : ComesTo m key list wanted → CellIn size m (cellAddr list) (cellBody list)

/-! ## One cell -/

section Cell

variable {size : ℕ} {m : Mem} {off body header : ℕ}

/-- The check of a size reads four bytes. -/
theorem checkSize_within (h : off + 4 ≤ size) : Within size (Access.checkSize m off header) := by
  rw [Access.checkSize, Access.getInt32Size]
  refine within_bind (within_read_bind h (within_pure _)) fun v _ => ?_
  exact within_refuse_bind fun _ => within_refuse_bind fun _ => within_pure _

/-- What the tests of a cell access. -/
theorem checkCell_within {signatures : List ℕ} {length : Traced RegErr ℕ}
    (hcell : CellIn size m off body) (hheader : 2 ≤ header)
    (hlength : body + header ≤ size → Within size length) :
    Within size (Access.checkCell m off body header signatures length) := by
  rw [Access.checkCell]
  refine within_bind (checkSize_within hcell.addr) fun v hv => ?_
  rw [Access.checkSize_value] at hv
  obtain ⟨u, hu, hsize⟩ := bind_eq_ok_iff.mp hv
  cases hsize
  obtain ⟨hneg, hroom⟩ := checkSize_ok_iff.mp hu
  have hbody := hcell.body hneg
  refine within_read_bind (by omega) (within_refuse_bind fun _ => ?_)
  exact within_bind (hlength (by omega)) fun n _ => within_refuse _ _

/-- The check of a key cell reads inside, if the cell lies inside. -/
theorem checkNode_within (hcell : CellIn size m off body) :
    Within size (Access.checkNode m off body) :=
  checkCell_within hcell (by norm_num) fun h => within_read (by omega)

/-- So does the check of a leaf, -/
theorem checkLeaf_within (hcell : CellIn size m off body) :
    Within size (Access.checkLeaf m off body) :=
  checkCell_within hcell (by norm_num) fun h => within_read_bind (by omega) (within_pure _)

/-- and of a value cell. -/
theorem checkValue_within (hcell : CellIn size m off body) :
    Within size (Access.checkValue m off body) :=
  checkCell_within hcell (by norm_num) fun h => within_read (by omega)

/-- A key that passes its tests lies in the image with its name. -/
theorem CellIn.node (hcell : CellIn size m off body) (h : checkNode m off body = .ok ()) :
    body + 76 + nodeNameLength m body ≤ size := by
  obtain ⟨hneg, hroom, -⟩ := checkNode_ok_iff.mp h
  have hbody := hcell.body hneg
  omega

/-- A value cell that passes its check has its name inside, -/
theorem CellIn.value (hcell : CellIn size m off body) (h : checkValue m off body = .ok ()) :
    body + 20 + valueNameLength m body ≤ size := by
  obtain ⟨hneg, hroom, -⟩ := checkValue_ok_iff.mp h
  have hbody := hcell.body hneg
  omega

/-- and a leaf has its entries inside. -/
theorem CellIn.leaf (hcell : CellIn size m off body) (h : checkLeaf m off body = .ok ()) :
    body + 4 + 8 * indexCount m body ≤ size := by
  obtain ⟨hneg, hroom, -⟩ := checkLeaf_ok_iff.mp h
  have hbody := hcell.body hneg
  omega

end Cell

/-! ## Names -/

section Name

variable {size : ℕ} {m : Mem} {comp : Bool} {name length : ℕ}

/-- A unit of a name inside is read inside, -/
theorem readUnit_within {j : ℕ} (h : name + length ≤ size) (hj : j < Access.nameCount comp length) :
    Within size (Access.readUnit m comp name j) := by
  cases comp with
  | false =>
      simp only [Access.nameCount, Bool.false_eq_true, if_false] at hj
      exact within_read_bind (by omega) (within_pure _)
  | true =>
      simp only [Access.nameCount, if_true] at hj
      exact within_read_bind (by omega) (within_pure _)

/-- units one after the other, -/
theorem readUnits_within {n j : ℕ} (h : name + length ≤ size)
    (hj : j + n ≤ Access.nameCount comp length) :
    Within size (Access.readUnits m comp name n j) := by
  induction n generalizing j with
  | zero => exact within_pure _
  | succ n ih =>
      refine within_bind (readUnit_within h (by omega)) fun c _ => ?_
      exact within_bind (ih (by omega)) fun cs _ => within_pure _

/-- and the whole name. -/
theorem readName_within {nameLength : ℕ} (h : name + length ≤ size) :
    Within size (Access.readName m comp name length nameLength) :=
  within_bind (readUnits_within h (by omega)) fun _ _ => within_pure _

/-- The comparison of a name inside reads inside, from a unit on, -/
theorem compareUnits_within {j : ℕ} {query : List UInt16} (h : name + length ≤ size)
    (hj : j + query.length ≤ Access.nameCount comp length) :
    Within size (Access.compareUnits m comp name j query) := by
  induction query generalizing j with
  | nil => exact within_pure _
  | cons c cs ih =>
      rw [List.length_cons] at hj
      rw [Access.compareUnits]
      refine within_bind (readUnit_within h (by omega)) fun c' _ => ?_
      by_cases hc : lower c' = lower c
      · rw [if_pos hc]
        exact ih (by omega)
      · rw [if_neg hc]
        exact within_pure _

/-- and from the start. -/
theorem compareName_within {query : List UInt16} (h : name + length ≤ size) :
    Within size (Access.compareName m comp name length query) := by
  rw [Access.compareName]
  by_cases hlength : Access.nameCount comp length = query.length
  · rw [if_neg (not_not_intro hlength)]
    exact compareUnits_within h (by omega)
  · rw [if_pos hlength]
    exact within_pure _

end Name

/-! ## Keys -/

section Keys

variable {size : ℕ} {m : Mem}

/-- What the walk over the leaves of a root comes to lies in the image: the entry of a leaf and the
header of the leaf, and what is behind it if the entry that is asked for is not in this leaf. -/
def RootWalkIn (size : ℕ) (m : Mem) (ri : ℕ) : ℕ → ℕ → ℕ → Prop
  | 0, _, _ => True
  | n + 1, i, index =>
      ri + 4 + 4 * i + 4 ≤ size ∧ cellBody (rootCell m ri i) + 4 ≤ size ∧
        (isLeaf m (cellBody (rootCell m ri i)) → indexCount m (cellBody (rootCell m ri i)) ≤ index →
          RootWalkIn size m ri n (i + 1) (index - indexCount m (cellBody (rootCell m ri i))))

instance instDecidableRootWalkIn (ri : ℕ) : ∀ n i index, Decidable (RootWalkIn size m ri n i index)
  | 0, _, _ => isTrue trivial
  | n + 1, i, index =>
      have := instDecidableRootWalkIn ri n (i + 1) (index - indexCount m (cellBody (rootCell m ri i)))
      inferInstanceAs (Decidable (_ ∧ _ ∧ (_ → _ → _)))

/-- The walk over the leaves behind a root reads inside, as far as it goes. -/
theorem rootWalk_within {ri n i index : ℕ} (hri : ri + 4 ≤ size) (h : RootWalkIn size m ri n i index) :
    Within size (Access.rootWalk m ri n i index) := by
  induction n generalizing i index with
  | zero => exact within_bind (within_touch fun _ => by omega) fun _ _ => within_pure _
  | succ n ih =>
      obtain ⟨hentry, hheader, hrest⟩ := h
      rw [rootCell] at hheader
      rw [Access.rootWalk]
      refine within_bind (within_touch fun _ => by omega) fun _ _ => ?_
      refine within_read_bind hentry (within_read_bind (by omega) ?_)
      refine within_refuse_bind fun _ => within_refuse_bind fun hleaf => ?_
      refine within_read_bind (by omega) ?_
      by_cases hindex : index < m.word (cellBody (m.word (ri + 4 + 4 * i) 4) + 2) 2
      · rw [if_pos hindex]
        exact within_pure _
      · rw [if_neg hindex]
        exact ih (hrest (not_not.mp hleaf) (not_lt.mp hindex))

/-- A call for a subkey comes to the entries of the index of its key. -/
def ComesToIndex (m : Mem) (key index : ℕ) : Prop :=
  ComesTo m key (subKeyList m (keyBody key)) (index < subKeyCount m (keyBody key)) ∧
    checkSize m (indexAddr m key) 4 = .ok ()

/-- What a call for a subkey comes to lies in the image: the key and its index, the leaves of a root up
to that of the subkey, and the subkey. -/
structure EnumKeysIn (size : ℕ) (m : Mem) (key index : ℕ) : Prop where
  keyIn : KeyIn size m key (subKeyList m (keyBody key)) (index < subKeyCount m (keyBody key))
  walk : ComesToIndex m key index →
    indexSignature m (cellBody (subKeyList m (keyBody key))) = keyIndexRoot →
      RootWalkIn size m (cellBody (subKeyList m (keyBody key)))
        (indexCount m (cellBody (subKeyList m (keyBody key)))) 0 index
  entry : ComesToIndex m key index → ∀ p,
    findLeaf m (cellBody (subKeyList m (keyBody key))) index = .ok p → p.1 + 4 ≤ size ∧
      (8 + 8 * indexCount m p.1 ≤ getInt32Size m (indexAddr m key) → p.2 < indexCount m p.1 →
        p.1 + 4 + 8 * p.2 + 4 ≤ size ∧
          CellIn size m (cellAddr (leafCell m p.1 p.2)) (cellBody (leafCell m p.1 p.2)))

/-- So does the search for the leaf of an index. -/
theorem findLeaf_within {list index : ℕ} (hlist : list + 4 ≤ size)
    (h : indexSignature m list = keyIndexRoot →
      RootWalkIn size m list (indexCount m list) 0 index) :
    Within size (Access.findLeaf m list index) := by
  rw [Access.findLeaf]
  refine within_read_bind (by omega) ?_
  by_cases hroot : m.word list 2 = keyIndexRoot
  · rw [if_pos hroot]
    exact rootWalk_within hlist (h hroot)
  · rw [if_neg hroot]
    exact within_refuse_bind fun _ => within_pure _

/-- **The enumeration of a key stays inside**, if the call asks for words inside. -/
theorem enumKeys_within {key index nameLength : ℕ} (h : EnumKeysIn size m key index) :
    Within size (Access.enumKeys m key index nameLength) := by
  rw [Access.enumKeys]
  refine within_bind (checkNode_within h.keyIn.node) fun u hu => ?_
  rw [Access.checkNode_value] at hu
  have hnode := h.keyIn.node.node hu
  refine within_read_bind (by omega) (within_refuse_bind fun hcount => ?_)
  refine within_read_bind (by omega) (within_refuse_bind fun hlist => ?_)
  have hcomes : ComesTo m key (subKeyList m (keyBody key)) (index < subKeyCount m (keyBody key)) :=
    ⟨hu, not_le.mp hcount, hlist⟩
  have hcell := h.keyIn.list hcomes
  refine within_bind (checkSize_within hcell.addr) fun v hv => ?_
  rw [Access.checkSize_value] at hv
  obtain ⟨u', hsize, hv⟩ := bind_eq_ok_iff.mp hv
  cases hv
  have hindex : ComesToIndex m key index := ⟨hcomes, hsize⟩
  obtain ⟨hneg, hroom⟩ := checkSize_ok_iff.mp hsize
  have hbody := hcell.body hneg
  refine within_bind (findLeaf_within ?_ (h.walk hindex)) fun p hp => ?_
  · rw [subKeyList] at hbody
    omega
  rw [Access.findLeaf_value] at hp
  obtain ⟨hp4, hentry⟩ := h.entry hindex p hp
  refine within_read_bind (by omega) (within_refuse_bind fun hroom => ?_)
  refine within_refuse_bind fun hi => ?_
  obtain ⟨hread, hchild⟩ := hentry (not_lt.mp hroom) (not_le.mp hi)
  refine within_read_bind (by omega) ?_
  refine within_bind (checkNode_within hchild) fun u'' hu'' => ?_
  rw [Access.checkNode_value] at hu''
  have hname := hchild.node hu''
  rw [leafCell] at hname
  refine within_read_bind (by omega) (within_read_bind (by omega) ?_)
  exact readName_within hname

/-- An attempt reads what the attempted call reads. -/
theorem attempt_within {x : Traced RegErr Unit} (h : Within size x) :
    Within size (Access.attempt x) := h

/-- The test of a subkey's name reads inside, if its cell lies inside. -/
theorem isChildNamed_within {name : List UInt16} {cell : ℕ}
    (h : CellIn size m (cellAddr cell) (cellBody cell)) :
    Within size (Access.isChildNamed m name cell) := by
  rw [Access.isChildNamed]
  refine within_bind (attempt_within (checkNode_within h)) fun passed hp => ?_
  rw [Access.attempt_value, Access.checkNode_value] at hp
  cases hp
  by_cases hcheck : checkNode m (cellAddr cell) (cellBody cell) = .ok ()
  · have hname := h.node hcheck
    rw [decide_eq_true hcheck, if_pos rfl]
    exact within_read_bind (by omega) (within_read_bind (by omega) (compareName_within hname))
  · rw [decide_eq_false hcheck, if_neg (by simp)]
    exact within_pure _

/-- So does the test of a value's name. -/
theorem isValueNamed_within {name : List UInt16} {cell : ℕ}
    (h : CellIn size m (cellAddr cell) (cellBody cell)) :
    Within size (Access.isValueNamed m name cell) := by
  rw [Access.isValueNamed]
  refine within_bind (attempt_within (checkValue_within h)) fun passed hp => ?_
  rw [Access.attempt_value, Access.checkValue_value] at hp
  cases hp
  by_cases hcheck : checkValue m (cellAddr cell) (cellBody cell) = .ok ()
  · have hname := h.value hcheck
    rw [decide_eq_true hcheck, if_pos rfl]
    exact within_read_bind (by omega) (within_read_bind (by omega) (compareName_within hname))
  · rw [decide_eq_false hcheck, if_neg (by simp)]
    exact within_pure _

/-- A loop over entries stays in the image if its counter does, and the entries that it comes to, with
their tests: those that no entry in front of them ends the loop for. -/
theorem findEntry_within {counter list stride n i : ℕ} {test : ℕ → Traced RegErr Bool}
    {p : ℕ → Bool} (htest : ∀ cell, (test cell).value = .ok (p cell)) (hcounter : counter + 2 ≤ size)
    (hentry : ∀ j, i ≤ j → j < i + n →
      (∀ l, i ≤ l → l < j → p (m.word (list + stride * l) 4) = false) →
        list + stride * j + 4 ≤ size ∧ Within size (test (m.word (list + stride * j) 4))) :
    Within size (Access.findEntry m counter list stride test n i) := by
  induction n generalizing i with
  | zero => exact within_bind (within_touch fun _ => hcounter) fun _ _ => within_fail _
  | succ n ih =>
      obtain ⟨hread, hwithin⟩ := hentry i le_rfl (by omega) fun l _ _ => by omega
      rw [Access.findEntry]
      refine within_bind (within_touch fun _ => hcounter) fun _ _ => ?_
      refine within_read_bind hread (within_bind hwithin fun found hfound => ?_)
      rw [htest] at hfound
      cases found with
      | false =>
          refine ih fun j h₁ h₂ h₃ => hentry j (by omega) (by omega) fun l hl hlj => ?_
          rcases hl.eq_or_lt with rfl | hlt
          · exact Except.ok.inj hfound
          · exact h₃ l hlt hlj
      | true => exact within_pure _

/-- A loop that finds an entry finds one of its range. -/
theorem findEntry_ok {counter list stride n i : ℕ} {test : ℕ → Traced RegErr Bool}
    {p : ℕ → Bool} (htest : ∀ cell, (test cell).value = .ok (p cell)) {r : ℕ × ℕ}
    (h : (Access.findEntry m counter list stride test n i).value = .ok r) :
    i ≤ r.1 ∧ r.1 < i + n ∧ r.2 = m.word (list + stride * r.1) 4 ∧ p r.2 := by
  rw [Access.findEntry_value htest] at h
  rcases hfind : (List.range' i n).find? fun j => p (m.word (list + stride * j) 4) with _ | j
  · rw [hfind] at h
    cases h
  · rw [hfind] at h
    cases h
    have hmem := List.mem_range'_1.mp (List.mem_of_find?_eq_some hfind)
    have hp := List.find?_some hfind
    exact ⟨hmem.1, hmem.2, rfl, by simpa using hp⟩

/-- No entry in front of the one that a loop finds passes the test. -/
theorem findEntry_before {counter list stride n i : ℕ} {test : ℕ → Traced RegErr Bool}
    {p : ℕ → Bool} (htest : ∀ cell, (test cell).value = .ok (p cell)) {r : ℕ × ℕ}
    (h : (Access.findEntry m counter list stride test n i).value = .ok r) :
    ∀ l, i ≤ l → l < r.1 → p (m.word (list + stride * l) 4) = false := by
  induction n generalizing i with
  | zero => cases h
  | succ n ih =>
      intro l hl hlt
      simp only [Access.findEntry, value_bind, value_touch, value_read, ok_bind, htest] at h
      cases hp : p (m.word (list + stride * i) 4) with
      | true =>
          rw [hp, if_pos rfl] at h
          cases h
          omega
      | false =>
          rw [hp, if_neg (by simp)] at h
          rcases hl.eq_or_lt with rfl | hlt'
          · exact hp
          · exact ih h l hlt' hlt

/-- The parent of a lookup and its leaf lie in the image. -/
def ParentIn (size : ℕ) (m : Mem) (parent : ℕ) : Prop :=
  KeyIn size m parent (subKeyList m (keyBody parent)) (subKeyCount m (keyBody parent) ≠ 0)

/-- A leaf that is found has its count in the parent inside, and its entries. -/
theorem ParentIn.leaf {parent lh : ℕ} (h : ParentIn size m parent)
    (hleaf : parentLeaf m parent = .ok lh) :
    keyBody parent + 24 ≤ size ∧ lh + 4 + 8 * indexCount m lh ≤ size := by
  obtain ⟨hnode, hcount, hlist, hcheck, rfl⟩ := parentLeaf_ok_iff.mp hleaf
  have hnodeIn := h.node.node hnode
  exact ⟨by omega, (h.list ⟨hnode, hcount, hlist⟩).leaf hcheck⟩

/-- The leaf of a parent is found by reads inside. -/
theorem parentLeaf_within {parent : ℕ} (h : ParentIn size m parent) :
    Within size (Access.parentLeaf m parent) := by
  rw [Access.parentLeaf]
  refine within_bind (checkNode_within h.node) fun u hu => ?_
  rw [Access.checkNode_value] at hu
  have hnode := h.node.node hu
  refine within_read_bind (by omega) (within_refuse_bind fun hcount => ?_)
  refine within_read_bind (by omega) (within_refuse_bind fun hlist => ?_)
  exact within_bind (checkLeaf_within (h.list ⟨hu, hcount, hlist⟩)) fun _ _ => within_pure _

/-- What a lookup of a name comes to lies in the image: the parent, its leaf, and the keys of the leaf
up to the first that has the name. -/
structure FindChildIn (size : ℕ) (m : Mem) (parent : ℕ) (name : List UInt16) : Prop where
  parentIn : ParentIn size m parent
  entries : ∀ lh, parentLeaf m parent = .ok lh → ∀ i < indexCount m lh,
    (∀ j < i, ¬isChildNamed m name (leafCell m lh j)) →
      CellIn size m (cellAddr (leafCell m lh i)) (cellBody (leafCell m lh i))

/-- **The search for a subkey stays inside.** -/
theorem findChildKey_within {parent : ℕ} {name : List UInt16} (h : FindChildIn size m parent name) :
    Within size (Access.findChildKey m parent name) := by
  rw [Access.findChildKey]
  refine within_bind (parentLeaf_within h.parentIn) fun lh hlh => ?_
  rw [Access.parentLeaf_value] at hlh
  obtain ⟨-, hleaf⟩ := h.parentIn.leaf hlh
  refine within_bind ?_ fun _ _ => within_pure _
  refine findEntry_within (fun cell => Access.isChildNamed_value m name cell) (by omega) ?_
  intro j _ hj hbefore
  refine ⟨by omega, isChildNamed_within (h.entries lh hlh j (by omega) fun l hl => ?_)⟩
  exact of_decide_eq_false (hbefore l (Nat.zero_le _) hl)

/-- What a lookup of a path comes to lies in the image: what the lookup of each name of it does, at the
key that the names in front of it lead to. -/
def PathIn (size : ℕ) (m : Mem) (name : List UInt16) (parent : ℕ) : List UInt16 → Prop
  | [] => FindChildIn size m parent name
  | c :: path =>
      if c = backslash then
        FindChildIn size m parent name ∧
          ∀ k, findChildKey m parent name = .ok k → path ≠ [] → PathIn size m [] k path
      else PathIn size m (name ++ [c]) parent path

/-- A path is followed by reads inside, from a component on, -/
theorem findKeyFrom_within {parent : ℕ} {name path : List UInt16}
    (h : PathIn size m name parent path) : Within size (Access.findKeyFrom m name parent path) := by
  induction path generalizing name parent with
  | nil => exact findChildKey_within h
  | cons c path ih =>
      rw [PathIn] at h
      rw [Access.findKeyFrom]
      by_cases hc : c = backslash
      · rw [if_pos hc] at h ⊢
        refine within_bind (findChildKey_within h.1) fun k hk => ?_
        rw [Access.findChildKey_value] at hk
        by_cases hpath : path = []
        · rw [if_pos hpath]
          exact within_pure _
        · rw [if_neg hpath]
          exact ih (h.2 k hk hpath)
      · rw [if_neg hc] at h ⊢
        exact ih h

/-- and from its start. -/
theorem findKey_within {parent : ℕ} {path : List UInt16} (h : PathIn size m [] parent path) :
    Within size (Access.findKey m parent path) := findKeyFrom_within h

/-- Entries inside are moved inside. -/
theorem shiftTouches_within {lh n j : ℕ} (h : lh + 4 + 8 * (j + n + 1) ≤ size) :
    Within size (Access.shiftTouches lh n j) := by
  induction n generalizing j with
  | zero => exact within_touch fun _ => by omega
  | succ n ih =>
      refine within_bind (within_touch fun _ => by omega) fun _ _ => ?_
      refine within_bind (within_touch fun _ => by omega) fun _ _ => ?_
      refine within_bind (within_touch fun _ => by omega) fun _ _ => ?_
      exact ih (by omega)

/-- **A deletion stays inside.** -/
theorem deleteKey_within {parent key : ℕ} (h : ParentIn size m parent) :
    Within size (Access.deleteKey m parent key) := by
  rw [Access.deleteKey]
  refine within_bind (parentLeaf_within h) fun lh hlh => ?_
  rw [Access.parentLeaf_value] at hlh
  obtain ⟨hnode, hleaf⟩ := h.leaf hlh
  refine within_bind (findEntry_within (fun _ => rfl) (by omega)
    fun j _ hj _ => ⟨by omega, within_pure _⟩) fun r hr => ?_
  obtain ⟨-, hlt, -, -⟩ := findEntry_ok (fun cell => rfl) hr
  refine within_bind (within_touch fun _ => by omega) fun _ _ => ?_
  refine within_bind (shiftTouches_within (by omega)) fun _ _ => ?_
  exact within_bind (within_touch fun _ => by omega) fun _ _ => within_pure _

/-- The root key is read from the header. -/
theorem findRoot_within (h : 40 ≤ size) : Within size (Access.findRoot m) :=
  within_read_bind h (within_pure _)

/-! ## Values -/

/-- The list of values is found by reads inside. -/
theorem valueList_within {key : ℕ} (hnode : keyBody key + 76 ≤ size)
    (h : CellIn size m (cellAddr (valuesList m (keyBody key))) (cellBody (valuesList m (keyBody key)))) :
    Within size (Access.valueList m (keyBody key) (valuesList m (keyBody key))) := by
  rw [Access.valueList]
  refine within_read_bind (by omega) ?_
  exact within_bind (checkSize_within h.addr) fun _ _ => within_pure _

/-- An entry of a list of values lies in the image with the list. -/
theorem CellIn.valueEntry {key list i : ℕ}
    (h : CellIn size m (cellAddr (valuesList m (keyBody key))) (cellBody (valuesList m (keyBody key))))
    (hlist : valueList m (keyBody key) = .ok list) (hi : i < valuesCount m (keyBody key)) :
    list + 4 * i + 4 ≤ size := by
  rw [valueList] at hlist
  obtain ⟨u, hsize, heq⟩ := bind_eq_ok_iff.mp hlist
  cases heq
  obtain ⟨hneg, hroom⟩ := checkSize_ok_iff.mp hsize
  have hbody := h.body hneg
  omega

/-- What a call for a value at an index comes to lies in the image: the key, its list, the value. -/
structure EnumValuesIn (size : ℕ) (m : Mem) (key index : ℕ) : Prop where
  keyIn : KeyIn size m key (valuesList m (keyBody key)) (index < valuesCount m (keyBody key))
  entry : ComesTo m key (valuesList m (keyBody key)) (index < valuesCount m (keyBody key)) →
    ∀ list, valueList m (keyBody key) = .ok list →
      CellIn size m (cellAddr (valueCell m list index)) (cellBody (valueCell m list index))

/-- **The enumeration of values stays inside.** -/
theorem enumValues_within {key index nameLength : ℕ} (h : EnumValuesIn size m key index) :
    Within size (Access.enumValues m key index nameLength) := by
  rw [Access.enumValues]
  refine within_bind (checkNode_within h.keyIn.node) fun u hu => ?_
  rw [Access.checkNode_value] at hu
  have hnode := h.keyIn.node.node hu
  refine within_read_bind (by omega) (within_refuse_bind fun hcount => ?_)
  refine within_read_bind (by omega) (within_refuse_bind fun hvalues => ?_)
  have hcomes : ComesTo m key (valuesList m (keyBody key)) (index < valuesCount m (keyBody key)) :=
    ⟨hu, not_le.mp hcount, hvalues⟩
  have hlist := h.keyIn.list hcomes
  refine within_bind (valueList_within (by omega) hlist) fun list hl => ?_
  rw [show m.word (keyBody key + 40) 4 = valuesList m (keyBody key) from rfl,
    Access.valueList_value] at hl
  have hcell := h.entry hcomes list hl
  refine within_read_bind (hlist.valueEntry hl (not_le.mp hcount)) ?_
  refine within_bind (checkValue_within hcell) fun u' hu' => ?_
  rw [Access.checkValue_value] at hu'
  have hvalue := hcell.value hu'
  rw [valueCell] at hvalue
  refine within_read_bind (by omega) (within_read_bind (by omega) ?_)
  refine within_bind (readName_within hvalue) fun name _ => ?_
  exact within_read_bind (by omega) (within_pure _)

/-- The data of a value are read inside, with the size of their cell. -/
theorem valueData_within {vk : ℕ} (hvk : vk + 20 ≤ size)
    (hdata : isSpecial m vk = false → cellAddr (valueDataCell m vk) + 4 ≤ size) :
    Within size (Access.valueData m vk) := by
  rw [Access.valueData]
  refine within_read_bind (by omega) ?_
  by_cases hspecial : (m.word (vk + 4) 4).testBit 31 = true
  · rw [if_pos hspecial]
    split_ifs
    · exact within_pure _
    · exact within_pure _
    · exact within_fail _
  · rw [if_neg hspecial]
    have hread := hdata (by rw [isSpecial, valueDataLength]; simpa using hspecial)
    refine within_read_bind (by omega) ?_
    refine within_bind (within_read_bind hread (within_pure _)) fun _ _ => ?_
    exact within_refuse_bind fun _ => within_pure _

/-- What a query comes to lies in the image: the key, its list, and the values up to the first that has
the name, with the size of its data. -/
structure QueryValueIn (size : ℕ) (m : Mem) (key : ℕ) (name : List UInt16) : Prop where
  keyIn : KeyIn size m key (valuesList m (keyBody key)) (valuesCount m (keyBody key) ≠ 0)
  entries : ComesTo m key (valuesList m (keyBody key)) (valuesCount m (keyBody key) ≠ 0) →
    ∀ list, valueList m (keyBody key) = .ok list → ∀ i < valuesCount m (keyBody key),
      (∀ j < i, ¬isValueNamed m name (valueCell m list j)) →
        CellIn size m (cellAddr (valueCell m list i)) (cellBody (valueCell m list i)) ∧
          (isValueNamed m name (valueCell m list i) →
            isSpecial m (cellBody (valueCell m list i)) = false →
              cellAddr (valueDataCell m (cellBody (valueCell m list i))) + 4 ≤ size)

/-- **The query of a value stays inside.** -/
theorem queryValue_within {key : ℕ} {name : List UInt16} (h : QueryValueIn size m key name) :
    Within size (Access.queryValue m key name) := by
  rw [Access.queryValue]
  refine within_bind (checkNode_within h.keyIn.node) fun u hu => ?_
  rw [Access.checkNode_value] at hu
  have hnode := h.keyIn.node.node hu
  refine within_read_bind (by omega) (within_refuse_bind fun hcount => ?_)
  refine within_read_bind (by omega) (within_refuse_bind fun hvalues => ?_)
  have hcomes : ComesTo m key (valuesList m (keyBody key)) (valuesCount m (keyBody key) ≠ 0) :=
    ⟨hu, hcount, hvalues⟩
  have hlist := h.keyIn.list hcomes
  refine within_bind (valueList_within (by omega) hlist) fun list hl => ?_
  rw [show m.word (keyBody key + 40) 4 = valuesList m (keyBody key) from rfl,
    Access.valueList_value] at hl
  have hentries := h.entries hcomes list hl
  have htest : ∀ cell, (Access.isValueNamed m name cell).value = .ok _ :=
    fun cell => Access.isValueNamed_value m name cell
  refine within_bind (findEntry_within htest (by omega) ?_) fun r hr => ?_
  · intro j _ hj hbefore
    rw [Nat.zero_add] at hj
    refine ⟨hlist.valueEntry hl hj, isValueNamed_within (hentries j hj fun l hlt => ?_).1⟩
    exact of_decide_eq_false (hbefore l (Nat.zero_le _) hlt)
  · obtain ⟨-, hlt, heq, hnamed⟩ := findEntry_ok htest hr
    rw [Nat.zero_add] at hlt
    have hbefore := findEntry_before htest hr
    obtain ⟨hcell, hdata⟩ := hentries r.1 hlt fun l hl => of_decide_eq_false (hbefore l (Nat.zero_le _) hl)
    rw [valueCell, ← heq] at hcell hdata
    have hmatch : isValueNamed m name r.2 := of_decide_eq_true hnamed
    have hvalue := hcell.value hmatch.1
    refine within_bind (valueData_within (by omega) (hdata hmatch)) fun data _ => ?_
    exact within_read_bind (by omega) (within_read_bind (by omega) (within_pure _))

end Keys

/-! ## Opening -/

section Opening

variable {size : ℕ} {m : Mem}

/-- A bin of an accepted image: the check goes on behind it, at a multiple of 0x1000. -/
theorem validateBins_step {len fuel off : ℕ} (h : validateBins m len (fuel + 1) off = some true)
    (hlt : off < len) (hoff : off % 0x1000 = 0) :
    ∃ off', off' = off + m.word (0x1000 + off + 8) 4 ∧ off' ≤ len ∧ off' % 0x1000 = 0 ∧
      validateBins m len fuel off' = some true := by
  by_cases hbin : BinAt m off ∧ 0x1000 ∣ binSize m off ∧ off + binSize m off ≤ len
  · obtain ⟨header, dvd, fits⟩ := hbin
    rw [validateBins_of_bin hlt header dvd fits] at h
    exact ⟨off + binSize m off, rfl, fits, by omega, h⟩
  · rw [validateBins_of_not_bin hlt hbin] at h
    cases h

/-- The bins of an accepted image fill its length, in steps of 0x1000. -/
theorem validateBins_length {len fuel off : ℕ} (h : validateBins m len fuel off = some true)
    (hle : off ≤ len) (hoff : off % 0x1000 = 0) : len % 0x1000 = 0 := by
  induction fuel generalizing off with
  | zero => cases h
  | succ fuel ih =>
      by_cases hlt : off < len
      · obtain ⟨off', -, hle', hoff', hrest⟩ := validateBins_step h hlt hoff
        exact ih hrest hle' hoff'
      · have heq : off = len := by omega
        rw [← heq]
        exact hoff

/-- The walk over bins that are accepted stays in front of the length of the header. -/
theorem validateBins_within {len fuel off : ℕ} (h : validateBins m len fuel off = some true)
    (hle : off ≤ len) (hoff : off % 0x1000 = 0) (hlen : len ≠ 0 → 0x1000 + len ≤ size) :
    Within size (Access.validateBins m len fuel off) := by
  have hmod := validateBins_length h hle hoff
  induction fuel generalizing off with
  | zero => cases h
  | succ fuel ih =>
      rw [Access.validateBins]
      by_cases hlt : off < len
      · obtain ⟨_, rfl, hle', hoff', hrest⟩ := validateBins_step h hlt hoff
        have hroom := hlen (by omega)
        rw [if_pos hlt]
        refine within_read_bind (by omega) (within_refuse_bind fun _ => ?_)
        refine within_read_bind (by omega) (within_refuse_bind fun _ => ?_)
        refine within_read_bind (by omega) (within_refuse_bind fun _ => ?_)
        exact within_refuse_bind fun _ => ih hrest hle' hoff'
      · rw [if_neg hlt]
        exact within_pure _

/-- The header has 512 bytes. -/
theorem checkHeader_within (h : 512 ≤ size) : Within size (Access.checkHeader m) := by
  rw [Access.checkHeader]
  refine within_read_bind (by omega) (within_refuse_bind fun _ => ?_)
  refine within_read_bind (by omega) (within_refuse_bind fun _ => ?_)
  refine within_read_bind (by omega) (within_refuse_bind fun _ => ?_)
  refine within_read_bind (by omega) (within_refuse_bind fun _ => ?_)
  refine within_read_bind (by omega) (within_refuse_bind fun _ => ?_)
  refine within_read_bind (by omega) (within_refuse_bind fun _ => ?_)
  refine within_bind (within_touch fun _ => by omega) fun _ _ => ?_
  refine within_bind (within_touch fun _ => by omega) fun _ _ => ?_
  refine within_bind (within_touch fun _ => by omega) fun _ _ => ?_
  exact within_bind (within_touch fun _ => by omega) fun _ _ => within_pure _

/-- A cell passes the tests of clear_volatile for a key. -/
def IsKeyCell (m : Mem) (key : ℕ) : Prop :=
  getInt32Size m key < 2 ^ 31 ∧ 80 ≤ getInt32Size m key ∧ m.word (keyBody key) 2 = keyNodeSignature

instance (m : Mem) (key : ℕ) : Decidable (IsKeyCell m key) := inferInstanceAs (Decidable (_ ∧ _))

/-- What a call of clear_volatile comes to lies in the image: its cell, the header of the index if it
is a key, and the entries of the rounds that its loop comes to. -/
structure WalkIn (size : ℕ) (s : Mem × ℕ) : Prop where
  node : CellIn size s.1 s.2 (keyBody s.2)
  index : IsKeyCell s.1 s.2 → ∀ m list, m = clearNode s.1 (keyBody s.2) →
    list = subKeyList m (keyBody s.2) → subKeyCount m (keyBody s.2) ≠ 0 → list ≠ noCell →
      cellAddr list + 4 ≤ size ∧ cellBody list + 4 ≤ size
  entries : ∀ m list i m', clearKey s.1 s.2 = (m, some list) → LoopReaches list m i m' →
    i < indexCount m' list.1 → list.1 + 4 + list.2 * i + 4 ≤ size

/-- A visit of a key reads and writes inside. -/
theorem clearKey_within {s : Mem × ℕ} (h : WalkIn size s) :
    Within size (Access.clearKey s.1 s.2) := by
  rw [Access.clearKey]
  dsimp only
  refine within_read_bind h.node.addr ?_
  by_cases hneg : 2 ^ 31 ≤ getInt32Size s.1 s.2
  · rw [getInt32Size] at hneg
    rw [if_pos hneg]
    exact within_pure _
  have hbody := h.node.body (not_le.mp hneg)
  rw [getInt32Size] at hneg hbody
  rw [if_neg hneg]
  by_cases hshort : (2 ^ 32 - s.1.word s.2 4) % 2 ^ 32 < 80
  · rw [if_pos hshort]
    exact within_pure _
  rw [if_neg hshort]
  refine within_read_bind (by omega) ?_
  by_cases hsig : s.1.word (keyBody s.2) 2 ≠ keyNodeSignature
  · rw [if_pos hsig]
    exact within_pure _
  rw [if_neg hsig]
  refine within_bind (within_touch fun _ => by omega) fun _ _ => ?_
  refine within_bind (within_touch fun _ => by omega) fun _ _ => ?_
  refine within_read_bind (by omega) (within_read_bind (by omega) ?_)
  by_cases hnone : subKeyCount (clearNode s.1 (keyBody s.2)) (keyBody s.2) = 0 ∨
      subKeyList (clearNode s.1 (keyBody s.2)) (keyBody s.2) = noCell
  · rw [subKeyCount, subKeyList] at hnone
    rw [if_pos hnone]
    exact within_pure _
  obtain ⟨hcount, hlist⟩ := not_or.mp hnone
  have hcell : IsKeyCell s.1 s.2 := ⟨by rw [getInt32Size]; omega, by rw [getInt32Size]; omega, not_not.mp hsig⟩
  obtain ⟨haddr, hindex⟩ := h.index hcell _ _ rfl rfl hcount hlist
  rw [subKeyCount, subKeyList] at hnone
  rw [subKeyList] at haddr hindex
  rw [if_neg hnone]
  refine within_bind (within_touch fun _ => haddr) fun _ _ => ?_
  refine within_read_bind (by omega) ?_
  split_ifs <;> exact within_pure _

/-- The index that a call comes to. -/
theorem WalkIn.list {s : Mem × ℕ} {m' : Mem} {list : ℕ × ℕ} (h : WalkIn size s)
    (hkey : clearKey s.1 s.2 = (m', some list)) : list.1 + 4 ≤ size := by
  rw [clearKey] at hkey
  dsimp only at hkey
  -- two branches come to a loop, over a leaf and over a root
  split_ifs at hkey with hneg hshort hsig hnone <;> cases hkey
  · obtain ⟨hcount, hlist⟩ := not_or.mp hnone
    exact (h.index ⟨not_le.mp hneg, not_lt.mp hshort, not_not.mp hsig⟩ _ _ rfl rfl hcount hlist).2
  · obtain ⟨hcount, hlist⟩ := not_or.mp hnone
    exact (h.index ⟨not_le.mp hneg, not_lt.mp hshort, not_not.mp hsig⟩ _ _ rfl rfl hcount hlist).2

/-- The rounds of a loop stay in the image if the calls from them do. -/
theorem clearEntries_within {s : Mem × ℕ} {m₀ : Mem} {list : ℕ × ℕ} {fuel : ℕ} (h : WalkIn size s)
    (hkey : clearKey s.1 s.2 = (m₀, some list))
    (hcalls : ∀ t, NestedCall s t → Within size (Access.clearVolatile fuel t.1 t.2))
    (n : ℕ) {i : ℕ} {m' : Mem} (hreach : LoopReaches list m₀ i m') :
    Within size (Access.clearEntries (Access.clearVolatile fuel) list n i m') := by
  induction n generalizing i m' with
  | zero => exact within_pure _
  | succ n ih =>
      have hlist := h.list hkey
      rw [Access.clearEntries]
      refine within_read_bind (by omega) ?_
      by_cases hi : i < indexCount m' list.1
      · have hentry := h.entries m₀ list i m' hkey hreach hi
        rw [indexCount] at hi
        rw [if_pos hi]
        refine within_read_bind (by omega) ?_
        refine within_bind (hcalls (m', entryKey m' list i) ⟨m₀, list, i, hkey, hreach, hi, rfl⟩)
          fun m₂ hm₂ => ?_
        rw [Access.clearVolatile_value] at hm₂
        rcases hcall : clearVolatile fuel m' (entryKey m' list i) with _ | r
        · rw [entryKey] at hcall
          rw [hcall] at hm₂
          cases hm₂
        · have hround := hreach.round hi hcall
          rw [entryKey] at hcall
          rw [hcall] at hm₂
          cases hm₂
          exact ih hround
      · rw [indexCount] at hi
        rw [if_neg hi]
        exact within_pure _

/-- A walk stays in the image if each of its calls does. -/
theorem clearVolatile_within {fuel : ℕ} {s : Mem × ℕ}
    (h : ∀ t, Relation.ReflTransGen NestedCall s t → WalkIn size t) :
    Within size (Access.clearVolatile fuel s.1 s.2) := by
  induction fuel generalizing s with
  | zero => exact within_fail _
  | succ fuel ih =>
      have hs := h s Relation.ReflTransGen.refl
      rw [Access.clearVolatile]
      refine within_bind (clearKey_within hs) fun r hr => ?_
      rw [Access.clearKey_value] at hr
      rcases hkey : clearKey s.1 s.2 with ⟨m', _ | list⟩
      · rw [hkey] at hr
        cases hr
        exact within_pure _
      · rw [hkey] at hr
        cases hr
        refine clearEntries_within hs hkey (fun t ht => ?_) _ LoopReaches.start
        exact ih fun u hu => h u (Relation.ReflTransGen.head ht hu)

/-- What the opening of an image comes to lies in it: the header, the bins and the keys of the walk. -/
structure OpenIn (size : ℕ) (m : Mem) : Prop where
  header : 512 ≤ size
  bins : headerLength (repairHeader m) ≠ 0 → 0x1000 + headerLength (repairHeader m) ≤ size
  walk : ∀ t, Relation.ReflTransGen NestedCall
    (repairHeader m, cellAddr (headerRootCell (repairHeader m))) t → WalkIn size t

/-- Opening an image stays in it if all that it comes to does. -/
theorem regOpenHive_within {fuel : ℕ} {r : Mem} (h : OpenIn size m)
    (hr : regOpenHive fuel m = some (.ok r)) : Within size (Access.regOpenHive fuel m) := by
  have hheader := h.header
  rw [Access.regOpenHive]
  refine within_bind (checkHeader_within hheader) fun m₁ hm₁ => ?_
  rw [Access.checkHeader_value] at hm₁
  rcases hcheck : checkHeader m with _ | m₂
  · rw [hcheck] at hm₁
    cases hm₁
  · rw [hcheck] at hm₁
    cases hm₁
    obtain ⟨-, rfl⟩ := checkHeader_eq_some_iff.mp hcheck
    simp only [regOpenHive, hcheck] at hr
    rcases hvalid : validateBins (repairHeader m) (headerLength (repairHeader m)) fuel 0 with
      _ | valid
    · rw [hvalid] at hr
      cases hr
    cases valid with
    | false =>
        rw [hvalid] at hr
        cases hr
    | true =>
        refine within_read_bind (by omega) ?_
        refine within_bind (validateBins_within hvalid (Nat.zero_le _) rfl h.bins) fun _ _ => ?_
        exact within_read_bind (by omega)
          (clearVolatile_within (s := (repairHeader m, cellAddr (headerRootCell (repairHeader m))))
            h.walk)

end Opening

/-! ## Sessions -/

/-- A call of a registry routine for an open hive. -/
inductive RegCall where
  | findRoot
  | findKey (parent : ℕ) (path : List UInt16)
  | enumKeys (key index nameLength : ℕ)
  | enumValues (key index nameLength : ℕ)
  | queryValue (key : ℕ) (name : List UInt16)
  | deleteKey (parent key : ℕ)

/-- The handles that a call is made with. -/
def RegCall.handles : RegCall → List ℕ
  | findRoot => []
  | findKey parent _ => [parent]
  | enumKeys key _ _ => [key]
  | enumValues key _ _ => [key]
  | queryValue key _ => [key]
  | deleteKey parent key => [parent, key]

/-- The image that a call leaves and the handles that it returns. -/
def RegCall.run (m : Mem) : RegCall → Traced RegErr (Mem × List ℕ)
  | findRoot => do
      let key ← Access.findRoot m
      return (m, [key])
  | findKey parent path => do
      let key ← Access.findKey m parent path
      return (m, [key])
  | enumKeys key index nameLength => do
      let _ ← Access.enumKeys m key index nameLength
      return (m, [])
  | enumValues key index nameLength => do
      let _ ← Access.enumValues m key index nameLength
      return (m, [])
  | queryValue key name => do
      let _ ← Access.queryValue m key name
      return (m, [])
  | deleteKey parent key => do
      let m ← Access.deleteKey m parent key
      return (m, [])

/-- An open hive: the image and the handles that calls have returned. -/
structure OpenHive where
  image : Mem
  handles : List ℕ

/-- The hive after a call. A call that fails leaves it as it is. -/
def OpenHive.call (s : OpenHive) (c : RegCall) : OpenHive :=
  match (c.run s.image).value with
  | .error _ => s
  | .ok (m, handles) => ⟨m, s.handles ++ handles⟩

/-- A hive that has been opened, after calls each of which met a condition on the image in front of
it, with all accesses so far. -/
inductive Session (cond : Mem → RegCall → Prop) (m : Mem) : OpenHive → Accesses → Prop
  | opened {fuel : ℕ} {m₁ : Mem} (h : regOpenHive fuel m = some (.ok m₁)) :
      Session cond m ⟨m₁, []⟩ (Access.regOpenHive fuel m).accesses
  | call {s : OpenHive} {acc : Accesses} (before : Session cond m s acc) (c : RegCall)
      (hhandles : c.handles ⊆ s.handles) (hcond : cond s.image c) :
      Session cond m (s.call c) (acc ++ (c.run s.image).accesses)

/-- What a call comes to lies in the image. -/
def RegCall.In (size : ℕ) (m : Mem) : RegCall → Prop
  | findRoot => 40 ≤ size
  | findKey parent path => PathIn size m [] parent path
  | enumKeys key index _ => EnumKeysIn size m key index
  | enumValues key index _ => EnumValuesIn size m key index
  | queryValue key name => QueryValueIn size m key name
  | deleteKey parent _ => ParentIn size m parent

/-- **A call of a session stays inside**, if what it comes to lies inside. -/
theorem RegCall.run_within {size : ℕ} {m : Mem} {c : RegCall} (h : c.In size m) :
    Within size (c.run m) := by
  cases c with
  | findRoot => exact within_bind (findRoot_within h) fun _ _ => within_pure _
  | findKey parent path => exact within_bind (findKey_within h) fun _ _ => within_pure _
  | enumKeys key index nameLength => exact within_bind (enumKeys_within h) fun _ _ => within_pure _
  | enumValues key index nameLength =>
      exact within_bind (enumValues_within h) fun _ _ => within_pure _
  | queryValue key name => exact within_bind (queryValue_within h) fun _ _ => within_pure _
  | deleteKey parent key => exact within_bind (deleteKey_within h) fun _ _ => within_pure _

/-- **Accesses stay in the image** in every session whose opening and whose calls come to cells of the
image only. -/
theorem session_within {size : ℕ} {m : Mem} {s : OpenHive} {acc : Accesses} (hopen : OpenIn size m)
    (h : Session (fun m c => c.In size m) m s acc) : acc.Within size := by
  induction h with
  | opened hr => exact regOpenHive_within hopen hr
  | call before c hhandles hcond ih => exact Accesses.within_append.mpr ⟨ih, c.run_within hcond⟩

/-- The hive after a call that succeeds. -/
theorem Session.call_ok {cond : Mem → RegCall → Prop} {m m' : Mem} {s : OpenHive} {acc : Accesses}
    {handles : List ℕ} (before : Session cond m s acc) (c : RegCall) (hhandles : c.handles ⊆ s.handles)
    (hcond : cond s.image c) (h : (c.run s.image).value = .ok (m', handles)) :
    Session cond m ⟨m', s.handles ++ handles⟩ (acc ++ (c.run s.image).accesses) := by
  have hcall := before.call c hhandles hcond
  rwa [OpenHive.call, h] at hcall

/-- A call that reads names and values only. -/
def RegCall.Reads : RegCall → Prop
  | enumKeys _ _ _ => True
  | enumValues _ _ _ => True
  | queryValue _ _ => True
  | _ => False

/-- Such a call leaves the image as it is and returns no handle. -/
theorem RegCall.Reads.run_eq {m : Mem} {c : RegCall} (hc : c.Reads) {r : Mem × List ℕ}
    (h : (c.run m).value = .ok r) : r = (m, []) := by
  cases c with
  | enumKeys key index nameLength =>
      rw [RegCall.run, value_bind] at h
      obtain ⟨_, -, heq⟩ := bind_eq_ok_iff.mp h
      exact (Except.ok.inj heq).symm
  | enumValues key index nameLength =>
      rw [RegCall.run, value_bind] at h
      obtain ⟨_, -, heq⟩ := bind_eq_ok_iff.mp h
      exact (Except.ok.inj heq).symm
  | queryValue key name =>
      rw [RegCall.run, value_bind] at h
      obtain ⟨_, -, heq⟩ := bind_eq_ok_iff.mp h
      exact (Except.ok.inj heq).symm
  | findRoot => cases hc
  | findKey => cases hc
  | deleteKey => cases hc

/-- So it leaves the hive as it is, whether it succeeds or not. -/
theorem Session.call_read {cond : Mem → RegCall → Prop} {m : Mem} {s : OpenHive} {acc : Accesses}
    (before : Session cond m s acc) (c : RegCall) (hhandles : c.handles ⊆ s.handles)
    (hcond : cond s.image c) (hc : c.Reads) : Session cond m s (acc ++ (c.run s.image).accesses) := by
  have hcall := before.call c hhandles hcond
  rcases h : (c.run s.image).value with e | r
  · rwa [OpenHive.call, h] at hcall
  · rw [OpenHive.call, h, hc.run_eq h] at hcall
    dsimp only at hcall
    rwa [List.append_nil] at hcall

/-! ### A session -/

/-- A test that what an opening comes to lies in the image: the header and the bins, and the cells of
the listed keys with their indexes and the entries. -/
def OpenInCheck (size : ℕ) (ks : List ℕ) (m : Mem) : Prop :=
  512 ≤ size ∧ 0x1000 + headerLength m ≤ size ∧ (∀ k ∈ ks, CellIn size m k (keyBody k)) ∧
    (∀ k ∈ ks, IsKeyCell m k → IsClear m k ∧ cellAddr (subKeyList m (keyBody k)) + 4 ≤ size ∧
      cellBody (subKeyList m (keyBody k)) + 4 ≤ size) ∧
    ∀ k ∈ ks, ∀ list ∈ (clearKey m k).2.toList, ∀ i < indexCount m list.1,
      list.1 + 4 + list.2 * i + 4 ≤ size

instance (size : ℕ) (ks : List ℕ) (m : Mem) : Decidable (OpenInCheck size ks m) :=
  inferInstanceAs (Decidable (_ ∧ _))

/-- What a call of the walk comes to lies in an image that passes the test. -/
theorem OpenInCheck.walkIn {size k : ℕ} {ks : List ℕ} {m : Mem} (h : OpenInCheck size ks m)
    (hstill : Still {k | k ∈ ks} m) (hk : k ∈ ks) : WalkIn size (m, k) := by
  obtain ⟨-, -, hnode, hindex, hentries⟩ := h
  refine ⟨hnode k hk, ?_, ?_⟩
  · rintro hcell m' list rfl rfl - -
    obtain ⟨hclear, hin⟩ := hindex k hk hcell
    rw [clearNode_of_isClear hclear]
    exact hin
  · intro m' list i m'' hkey hreach hi
    have hclear := hstill.clear k hk
    have hlist : (clearKey m k).2 = some list := by rw [hkey]
    rw [hkey] at hclear
    obtain rfl : m' = m := hclear
    rw [hstill.loopReaches hk hlist hreach] at hi
    exact hentries k hk list (Option.mem_toList.mpr hlist) i hi

/-- **The test is sound.** -/
theorem OpenInCheck.openIn {size fuel : ℕ} {ks : List ℕ} {m : Mem} (h : OpenInCheck size ks m)
    (hopens : OpensCheck ks m fuel) : OpenIn size m := by
  have hrepair : m = repairHeader m := (checkHeader_eq_some_iff.mp hopens.checkHeader_eq).2
  refine ⟨h.1, fun _ => ?_, ?_⟩
  · rw [← hrepair]
    exact h.2.1
  · rw [← hrepair]
    rintro ⟨m', k⟩ ht
    have hroot := hopens.root
    obtain ⟨rfl, hk⟩ := hopens.still.reached (s := (m, rootKey m)) ⟨rfl, hroot⟩ ht
    exact h.walkIn hopens.still hk

/-- Opening `indexedHive` comes to the root key, to `A` and to the two leaves. -/
theorem indexedHive_opens : OpensCheck [0x1020, 0x1080, 0x10e8, 0x10f8] indexedHive 4 ∧
    OpenInCheck 0x2000 [0x1020, 0x1080, 0x10e8, 0x10f8] indexedHive := by
  decide +kernel

/-- What the calls come to in `indexedHive`: the lists of the root key and of `A`, the leaf with `A` and the
one with `C`, and the value of `A`. The root key is found, and `A` below it. -/
theorem indexedHive_words :
    subKeyList indexedHive (keyBody 0x1020) = 0x70 ∧ subKeyList indexedHive (keyBody 0x1080) = 0xd8 ∧
    valuesList indexedHive (keyBody 0x1080) = 0x1b8 ∧
    (parentLeaf indexedHive 0x1020 = .ok 0x1074 ∧ indexCount indexedHive 0x1074 = 1 ∧
      leafCell indexedHive 0x1074 0 = 0x80) ∧
    (indexCount indexedHive 0x10dc = 2 ∧ findLeaf indexedHive 0x10dc 1 = .ok (0x10fc, 0) ∧
      leafCell indexedHive 0x10fc 0 = 0x160) ∧
    (valueList indexedHive (keyBody 0x1080) = .ok 0x11bc ∧
      valuesCount indexedHive (keyBody 0x1080) = 1 ∧ valueCell indexedHive 0x11bc 0 = 0x1c0) ∧
    (Access.findRoot indexedHive).value = .ok 0x1020 ∧
    findKey indexedHive 0x1020 [97] = .ok 0x1080 := by
  decide +kernel

/-- The cells of the keys lie in the image, and so do those of their indexes and of their lists, the walk
to the leaf of `C`, and the value of `A` and its data. -/
theorem indexedHive_cells :
    (∀ k ∈ [0x1020, 0x1080], CellIn 0x2000 indexedHive k (keyBody k)) ∧
    (∀ cell ∈ [0x70, 0xd8, 0x1b8, 0x80, 0x160, 0x1c0],
      CellIn 0x2000 indexedHive (cellAddr cell) (cellBody cell)) ∧
    RootWalkIn 0x2000 indexedHive 0x10dc 2 0 1 ∧
    cellAddr (valueDataCell indexedHive (cellBody 0x1c0)) + 4 ≤ 0x2000 := by
  decide +kernel

/-- The cells of its keys lie in the image, with their indexes and their lists. -/
theorem keyIn_indexedHive {k list : ℕ} {wanted : Prop} (hk : k ∈ [0x1020, 0x1080])
    (hlist : list ∈ [0x70, 0xd8, 0x1b8]) : KeyIn 0x2000 indexedHive k list wanted where
  node := indexedHive_cells.1 k hk
  list _ := indexedHive_cells.2.1 list (List.mem_append_left [0x80, 0x160, 0x1c0] hlist)

/-- The subkey `C` of `A` stands in the second leaf. -/
theorem enumKeysIn_indexedHive : EnumKeysIn 0x2000 indexedHive 0x1080 1 := by
  obtain ⟨-, hlist, -, -, ⟨hcount, hleaf, hcell⟩, -⟩ := indexedHive_words
  refine ⟨?_, ?_, ?_⟩
  · rw [hlist]
    exact keyIn_indexedHive (by simp) (by simp)
  · intro _ _
    rw [hlist, show cellBody 0xd8 = 0x10dc from rfl, hcount]
    exact indexedHive_cells.2.2.1
  · intro _ p hp
    rw [hlist, show cellBody 0xd8 = 0x10dc from rfl, hleaf] at hp
    cases hp
    refine ⟨by norm_num, fun _ _ => ⟨by norm_num, ?_⟩⟩
    rw [hcell]
    exact indexedHive_cells.2.1 0x160 (by simp)

/-- The cell of the root key lies in the image, with its leaf. -/
theorem parentIn_indexedHive : ParentIn 0x2000 indexedHive 0x1020 := by
  rw [ParentIn, indexedHive_words.1]
  exact keyIn_indexedHive (by simp) (by simp)

/-- The key `A` is found below the root key. -/
theorem pathIn_indexedHive : PathIn 0x2000 indexedHive [] 0x1020 [97] := by
  obtain ⟨-, -, -, ⟨hleaf, hcount, hcell⟩, -⟩ := indexedHive_words
  rw [PathIn, if_neg (by decide)]
  refine ⟨parentIn_indexedHive, fun lh hlh i hi _ => ?_⟩
  rw [hleaf] at hlh
  cases hlh
  rw [hcount] at hi
  obtain rfl : i = 0 := by omega
  rw [hcell]
  exact indexedHive_cells.2.1 0x80 (by simp)

/-- The value of `A` lies in the image, and so do its data. -/
theorem queryValueIn_indexedHive : QueryValueIn 0x2000 indexedHive 0x1080 [] := by
  obtain ⟨-, -, hlist, -, -, ⟨hvalues, hcount, hcell⟩, -⟩ := indexedHive_words
  refine ⟨?_, ?_⟩
  · rw [hlist]
    exact keyIn_indexedHive (by simp) (by simp)
  · intro _ list hl i hi _
    rw [hvalues] at hl
    cases hl
    rw [hcount] at hi
    obtain rfl : i = 0 := by omega
    rw [hcell]
    exact ⟨indexedHive_cells.2.1 0x1c0 (by simp), fun _ _ => indexedHive_cells.2.2.2⟩

/-- Opening the hive, finding `A` from the root key, asking for its second subkey and for its value, and
deleting it stays in the image. -/
theorem session_within_indexedHive : Accesses.Within 0x2000
    ((Access.regOpenHive 4 indexedHive).accesses ++ (RegCall.findRoot.run indexedHive).accesses ++
      ((RegCall.findKey 0x1020 [97]).run indexedHive).accesses ++
      ((RegCall.enumKeys 0x1080 1 8).run indexedHive).accesses ++
      ((RegCall.queryValue 0x1080 []).run indexedHive).accesses ++
      ((RegCall.deleteKey 0x1020 0x1080).run indexedHive).accesses) := by
  obtain ⟨-, -, -, -, -, -, hrootKey, hA⟩ := indexedHive_words
  have hroot : (RegCall.findRoot.run indexedHive).value = .ok (indexedHive, [0x1020]) := by
    rw [RegCall.run, value_bind, hrootKey]
    rfl
  have hfind : ((RegCall.findKey 0x1020 [97]).run indexedHive).value = .ok (indexedHive, [0x1080]) := by
    rw [RegCall.run, value_bind, Access.findKey_value, hA]
    rfl
  have hopened : Session (fun m c => c.In 0x2000 m) indexedHive ⟨indexedHive, []⟩ _ :=
    .opened indexedHive_opens.1.regOpenHive_eq
  have hroot : Session (fun m c => c.In 0x2000 m) indexedHive ⟨indexedHive, [0x1020]⟩ _ :=
    hopened.call_ok .findRoot (List.nil_subset _) (by norm_num [RegCall.In]) hroot
  have hfound : Session (fun m c => c.In 0x2000 m) indexedHive ⟨indexedHive, [0x1020, 0x1080]⟩ _ :=
    hroot.call_ok (.findKey 0x1020 [97]) (by simp [RegCall.handles]) pathIn_indexedHive hfind
  have hsubkey := hfound.call_read (.enumKeys 0x1080 1 8) (by simp [RegCall.handles])
    enumKeysIn_indexedHive trivial
  have hvalue := hsubkey.call_read (.queryValue 0x1080 []) (by simp [RegCall.handles])
    queryValueIn_indexedHive trivial
  exact session_within (indexedHive_opens.2.openIn indexedHive_opens.1)
    (hvalue.call (.deleteKey 0x1020 0x1080) (by simp [RegCall.handles]) parentIn_indexedHive)

/-- A hive of one bin whose header gives a root key behind the bin. -/
def strayHive : Mem :=
  image [(0, 4, 0x66676572), (4, 4, 1), (8, 4, 1), (20, 4, 1), (24, 4, 3), (32, 4, 1), (36, 4, 0x5000),
    (40, 4, 0x1000), (44, 4, 1), (508, 4, 0x66672570), (0x1000, 4, 0x6e696268), (0x1008, 4, 0x1000)]

/-- It is opened, and left as it is: its root key counts as free. -/
theorem strayHive_opens : OpensCheck [0x6000] strayHive 2 := by decide +kernel

/-- A hive is accepted although its root key stands behind the header and the bins, which are all of
the image. Opening it reads there. -/
theorem not_session_within : ¬∀ (m : Mem) (s : OpenHive) (acc : Accesses) (size : ℕ),
    size = 0x1000 + headerLength m → Session (fun _ _ => True) m s acc → acc.Within size := by
  intro h
  have hopened : Session (fun _ _ => True) (strayHive) ⟨strayHive, []⟩ _ :=
    Session.opened strayHive_opens.regOpenHive_eq
  have hin := h _ _ _ _ rfl hopened (0x6000, 4) (by decide +kernel) 0 (by norm_num)
  revert hin
  decide +kernel

end Ntloader.Reg
