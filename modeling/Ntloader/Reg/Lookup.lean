import Ntloader.Reg.Cells

/-!
# Enumeration and lookup of keys

The subkeys of a key are enumerated by their number and looked up by their name. The two walks of the
subkey index are written separately.

* `enumKeys` — libnt/reg.c, reg_enum_keys.
* `findChildKey`, `findKey` — find_child_key and reg_find_key.
* `subKeyCells` — the keys that an index lists, whatever its kind.
* `findChildKey_ok_iff` — what a successful lookup says.
* `findKey_composition` — a path of two parts is looked up part by part.
* `found_enumKeys_iff` — an enumerated name is found exactly if the index is not a root of indexes.
-/

namespace Ntloader.Reg

open Ntloader.Lib

/-! ## Enumeration -/

/-- What `reg_enum_keys` writes to `Name`, and whether the name did not fit (the call then returns
REG_ERR_OUT_OF_MEMORY, else REG_ERR_NONE). -/
structure EnumName where
  units : List UInt16
  overflow : Bool
  deriving DecidableEq

/-- Source: libnt/reg.c, reg_enum_keys and reg_enum_values, the loop over i -/
def enumName (name : List UInt16) (nameLength : ℕ) : EnumName :=
  ⟨name.take nameLength ++ [0], decide (nameLength < name.length)⟩

/-- The leaf with the key of a number, and the number in it; the root itself if the leaves end before.
Source: libnt/reg.c, reg_enum_keys, the loop over `ri->List` -/
def rootWalk (m : Mem) (ri : ℕ) : ℕ → ℕ → ℕ → Except RegErr (ℕ × ℕ)
  | 0, _, index => .ok (ri, index)
  | n + 1, i, index =>
      let lh2 := cellBody (rootCell m ri i)
      -- no recursion into a nested root
      if indexSignature m lh2 = keyIndexRoot then .error .badArgument
      else if ¬isLeaf m lh2 then .error .badArgument
      else if index < indexCount m lh2 then .ok (lh2, index)
      else rootWalk m ri n (i + 1) (index - indexCount m lh2)

/-- The leaf with the key of a number, for an index of either kind.
Source: libnt/reg.c, reg_enum_keys, `if (lh->Signature == CM_KEY_INDEX_ROOT)` -/
def findLeaf (m : Mem) (lh index : ℕ) : Except RegErr (ℕ × ℕ) :=
  if indexSignature m lh = keyIndexRoot then rootWalk m lh (indexCount m lh) 0 index
  else if ¬isLeaf m lh then .error .badArgument
  else .ok (lh, index)

/-- Source: libnt/reg.c, reg_enum_keys -/
def enumKeys (m : Mem) (key index nameLength : ℕ) : Except RegErr EnumName := do
  let nk := keyBody key
  checkNode m key nk
  refuse (subKeyCount m nk ≤ index ∨ subKeyList m nk = noCell) .fileNotFound
  let off := cellAddr (subKeyList m nk)
  checkSize m off 4
  let (lh, index) ← findLeaf m (cellBody (subKeyList m nk)) index
  -- the size is that of the index, also if the leaf is another cell
  refuse (getInt32Size m off < 8 + 8 * indexCount m lh) .badArgument
  refuse (indexCount m lh ≤ index) .badArgument
  let cell := leafCell m lh index
  checkNode m (cellAddr cell) (cellBody cell)
  return enumName (nodeName m (cellBody cell)) nameLength

/-! ## Lookup -/

/-- The entry of a leaf is a key of the given name.
Source: libnt/reg.c, find_child_key, the body of the loop over i, where a key that does not pass its
tests is left out -/
def isChildNamed (m : Mem) (name : List UInt16) (cell : ℕ) : Prop :=
  checkNode m (cellAddr cell) (cellBody cell) = .ok () ∧
    sameName (nodeName m (cellBody cell)) name

instance (m : Mem) (name : List UInt16) (cell : ℕ) : Decidable (isChildNamed m name cell) :=
  inferInstanceAs (Decidable (_ ∧ _))

/-- The cells that a leaf lists. -/
def leafCells (m : Mem) (lh : ℕ) : List ℕ := (List.range (indexCount m lh)).map (leafCell m lh)

/-- The leaf of a parent key.
Source: libnt/reg.c, find_child_key and reg_delete_key, in front of the loop -/
def parentLeaf (m : Mem) (parent : ℕ) : Except RegErr ℕ := do
  let nk := keyBody parent
  checkNode m parent nk
  refuse (subKeyCount m nk = 0 ∨ subKeyList m nk = noCell) .fileNotFound
  let lh := cellBody (subKeyList m nk)
  checkLeaf m (cellAddr (subKeyList m nk)) lh
  return lh

/-- Source: libnt/reg.c, find_child_key -/
def findChildKey (m : Mem) (parent : ℕ) (name : List UInt16) : Except RegErr ℕ := do
  let lh ← parentLeaf m parent
  match (leafCells m lh).find? (isChildNamed m name ·) with
  | some cell => return cellAddr cell
  | none => throw .fileNotFound

/-- The path separator. -/
def backslash : UInt16 := 0x5c

/-- The rest of a lookup, behind the units `name` of the current component.
Source: libnt/reg.c, reg_find_key, the loop -/
def findKeyFrom (m : Mem) (name : List UInt16) (parent : ℕ) : List UInt16 → Except RegErr ℕ
  | [] => findChildKey m parent name
  | c :: path =>
      if c = backslash then
        match findChildKey m parent name with
        | .error e => .error e
        | .ok k => if path = [] then .ok k else findKeyFrom m [] k path
      else findKeyFrom m (name ++ [c]) parent path

/-- Look up a path, which is given without its terminating zero.
Source: libnt/reg.c, reg_find_key -/
def findKey (m : Mem) (parent : ℕ) (path : List UInt16) : Except RegErr ℕ :=
  findKeyFrom m [] parent path

/-- A path without a separator is one component. -/
theorem findKeyFrom_component (m : Mem) (parent : ℕ) (name path : List UInt16)
    (h : backslash ∉ path) : findKeyFrom m name parent path = findChildKey m parent (name ++ path) := by
  induction path generalizing name with
  | nil => rw [findKeyFrom, List.append_nil]
  | cons c path ih =>
      have hc : c ≠ backslash := fun e => h (e ▸ List.mem_cons_self)
      rw [findKeyFrom, if_neg hc, ih _ fun hmem => h (List.mem_cons_of_mem _ hmem)]
      simp

/-- A path of one component is a search below one key. -/
theorem findKey_component (m : Mem) (parent : ℕ) {path : List UInt16} (h : backslash ∉ path) :
    findKey m parent path = findChildKey m parent path := by
  rw [findKey, findKeyFrom_component _ _ _ _ h, List.nil_append]

/-! ## Paths -/

/-- The rest of a path ends as the path does. -/
theorem getLast?_ne_of_cons {c : UInt16} {a : List UInt16}
    (h : (c :: a).getLast? ≠ some backslash) : a.getLast? ≠ some backslash := by
  rcases a with _ | ⟨d, a⟩
  · simp
  · rwa [List.getLast?_cons_of_ne_nil (List.cons_ne_nil d a)] at h

/-- A path that does not end with a separator goes on behind one. -/
theorem ne_nil_of_getLast?_ne {a : List UInt16} (h : (backslash :: a).getLast? ≠ some backslash) :
    a ≠ [] := by
  rintro rfl
  exact h List.getLast?_singleton

/-- The lookup of a path that goes on behind a separator. The first part does not end with a separator,
at which its own lookup would stop. -/
theorem findKeyFrom_append (m : Mem) (name : List UInt16) (parent : ℕ) {a b : List UInt16}
    (ha : a.getLast? ≠ some backslash) (hb : b ≠ []) :
    findKeyFrom m name parent (a ++ backslash :: b) =
      (findKeyFrom m name parent a >>= fun k => findKey m k b) := by
  induction a generalizing name parent with
  | nil =>
      rw [List.nil_append, findKeyFrom, findKeyFrom, if_pos rfl]
      rcases findChildKey m parent name with e | k
      · rfl
      · exact if_neg hb
  | cons c a ih =>
      rw [List.cons_append, findKeyFrom, findKeyFrom]
      by_cases hc : c = backslash
      · subst hc
        have hne := ne_nil_of_getLast?_ne ha
        rw [if_pos rfl, if_pos rfl]
        rcases findChildKey m parent name with e | k
        · rfl
        · simp only [List.append_eq_nil_iff, hne, false_and, if_false]
          exact ih [] k (getLast?_ne_of_cons ha)
      · rw [if_neg hc, if_neg hc]
        exact ih (name ++ [c]) parent (getLast?_ne_of_cons ha)

/-- One separator at the end of a path is not looked at. -/
theorem findKeyFrom_trailing (m : Mem) (name : List UInt16) (parent : ℕ) {a : List UInt16}
    (ha : a.getLast? ≠ some backslash) :
    findKeyFrom m name parent (a ++ [backslash]) = findKeyFrom m name parent a := by
  induction a generalizing name parent with
  | nil =>
      rw [List.nil_append, findKeyFrom, findKeyFrom, if_pos rfl]
      rcases findChildKey m parent name with e | k
      · rfl
      · rfl
  | cons c a ih =>
      rw [List.cons_append, findKeyFrom, findKeyFrom]
      by_cases hc : c = backslash
      · subst hc
        have hne := ne_nil_of_getLast?_ne ha
        rw [if_pos rfl, if_pos rfl]
        rcases findChildKey m parent name with e | k
        · rfl
        · simp only [List.append_eq_nil_iff, hne, false_and, if_false]
          exact ih [] k (getLast?_ne_of_cons ha)
      · rw [if_neg hc, if_neg hc]
        exact ih (name ++ [c]) parent (getLast?_ne_of_cons ha)

/-- **Path lookup is composition**: a path of two parts is looked up as its first part and, below the
key that this gives, its second; a single separator at the end makes no difference. -/
theorem findKey_composition (m : Mem) (parent : ℕ) {a b : List UInt16}
    (ha : a.getLast? ≠ some backslash) (hb : b ≠ []) :
    findKey m parent (a ++ backslash :: b) = (findKey m parent a >>= fun k => findKey m k b) ∧
      findKey m parent (a ++ [backslash]) = findKey m parent a :=
  ⟨findKeyFrom_append m [] parent ha hb, findKeyFrom_trailing m [] parent ha⟩

/-! ## What a successful call says -/

/-- A parent key with a leaf: the tests it passes. -/
theorem parentLeaf_ok_iff {m : Mem} {parent lh : ℕ} :
    parentLeaf m parent = .ok lh ↔
      checkNode m parent (keyBody parent) = .ok () ∧ subKeyCount m (keyBody parent) ≠ 0 ∧
        subKeyList m (keyBody parent) ≠ noCell ∧
        checkLeaf m (cellAddr (subKeyList m (keyBody parent))) lh = .ok () ∧
        lh = cellBody (subKeyList m (keyBody parent)) := by
  simp only [parentLeaf, bind_eq_ok_iff, refuse_ok_iff, not_or]
  constructor
  · rintro ⟨⟨⟩, hnode, ⟨⟩, ⟨hcount, hlist⟩, ⟨⟩, hleaf, heq⟩
    cases heq
    exact ⟨hnode, hcount, hlist, hleaf, rfl⟩
  · rintro ⟨hnode, hcount, hlist, hleaf, rfl⟩
    exact ⟨(), hnode, (), ⟨hcount, hlist⟩, (), hleaf, rfl⟩

/-- A lookup gives the first key of the leaf with the name. -/
theorem findChildKey_ok_iff {m : Mem} {parent k : ℕ} {name : List UInt16} :
    findChildKey m parent name = .ok k ↔
      ∃ lh, parentLeaf m parent = .ok lh ∧
        ∃ cell, (leafCells m lh).find? (isChildNamed m name ·) = some cell ∧ k = cellAddr cell := by
  simp only [findChildKey, bind_eq_ok_iff]
  constructor
  · rintro ⟨lh, hlh, hfind⟩
    rcases h : (leafCells m lh).find? (isChildNamed m name ·) with _ | cell
    · rw [h] at hfind
      cases hfind
    · rw [h] at hfind
      cases hfind
      exact ⟨lh, hlh, cell, h, rfl⟩
  · rintro ⟨lh, hlh, cell, hcell, rfl⟩
    refine ⟨lh, hlh, ?_⟩
    rw [hcell]
    rfl

/-- What a call of `reg_enum_keys` that reaches a name has checked. -/
theorem enumKeys_ok_iff {m : Mem} {key index nameLength : ℕ} {out : EnumName} :
    enumKeys m key index nameLength = .ok out ↔
      checkNode m key (keyBody key) = .ok () ∧
      index < subKeyCount m (keyBody key) ∧ subKeyList m (keyBody key) ≠ noCell ∧
      checkSize m (cellAddr (subKeyList m (keyBody key))) 4 = .ok () ∧
      ∃ lh i, findLeaf m (cellBody (subKeyList m (keyBody key))) index = .ok (lh, i) ∧
        8 + 8 * indexCount m lh ≤ getInt32Size m (cellAddr (subKeyList m (keyBody key))) ∧
        i < indexCount m lh ∧
        checkNode m (cellAddr (leafCell m lh i)) (cellBody (leafCell m lh i)) = .ok () ∧
        out = enumName (nodeName m (cellBody (leafCell m lh i))) nameLength := by
  simp only [enumKeys, bind_eq_ok_iff, refuse_ok_iff, not_or, not_le, not_lt]
  constructor
  · rintro ⟨⟨⟩, hnode, ⟨⟩, ⟨hindex, hlist⟩, ⟨⟩, hsize, ⟨lh, i⟩, hleaf, ⟨⟩, hroom, ⟨⟩, hi, ⟨⟩, hchild,
      hout⟩
    cases hout
    exact ⟨hnode, hindex, hlist, hsize, lh, i, hleaf, hroom, hi, hchild, rfl⟩
  · rintro ⟨hnode, hindex, hlist, hsize, lh, i, hleaf, hroom, hi, hchild, rfl⟩
    exact ⟨(), hnode, (), ⟨hindex, hlist⟩, (), hsize, (lh, i), hleaf, (), hroom, (), hi, (), hchild,
      rfl⟩

/-! ## Agreement -/

/-- The cells of the keys that an index lists, also through a root of leaves. -/
def subKeyCells (m : Mem) (lh : ℕ) : List ℕ :=
  if indexSignature m lh = keyIndexRoot then
    (List.range (indexCount m lh)).flatMap fun i => leafCells m (cellBody (rootCell m lh i))
  else leafCells m lh

/-- The string that a buffer holds. -/
def cstring (buf : List UInt16) : List UInt16 := buf.takeWhile (· ≠ 0)

/-- A name is found, and what is found is a subkey with this name. -/
def Found (m : Mem) (parent : ℕ) (name : List UInt16) : Prop :=
  ∃ k, findKey m parent name = .ok k ∧
    ∃ cell ∈ subKeyCells m (cellBody (subKeyList m (keyBody parent))),
      k = cellAddr cell ∧ sameName (nodeName m (cellBody cell)) name

/-- A name that fits is written as a whole. -/
theorem cstring_enumName {name : List UInt16} {nameLength : ℕ}
    (hfit : (enumName name nameLength).overflow = false)
    (hnul : 0 ∉ (enumName name nameLength).units.dropLast) :
    cstring (enumName name nameLength).units = name := by
  have hlen : name.length ≤ nameLength := by simpa [enumName] using hfit
  rw [enumName] at hnul ⊢
  rw [List.dropLast_concat, List.take_of_length_le hlen] at hnul
  rw [cstring, List.take_of_length_le hlen, List.takeWhile_append_of_pos]
  · simp
  · intro c hc
    simp only [decide_eq_true_eq]
    rintro rfl
    exact hnul hc

/-- A leaf is not a root. -/
theorem indexSignature_ne_of_isLeaf {m : Mem} {lh : ℕ} (h : isLeaf m lh) :
    indexSignature m lh ≠ keyIndexRoot := by
  rcases h with h | h <;> rw [h] <;> decide

/-- The walk of an index that is not a root stays in it. -/
theorem findLeaf_ok_of_ne {m : Mem} {lh index : ℕ} (hne : indexSignature m lh ≠ keyIndexRoot)
    {p : ℕ × ℕ} (h : findLeaf m lh index = .ok p) : isLeaf m lh ∧ p = (lh, index) := by
  rw [findLeaf, if_neg hne] at h
  by_cases hleaf : isLeaf m lh
  · rw [if_neg (not_not_intro hleaf)] at h
    cases h
    exact ⟨hleaf, rfl⟩
  · rw [if_pos hleaf] at h
    cases h

/-- An entry below the count is a cell of the leaf. -/
theorem leafCell_mem {m : Mem} {lh i : ℕ} (h : i < indexCount m lh) :
    leafCell m lh i ∈ leafCells m lh :=
  List.mem_map.mpr ⟨i, List.mem_range.mpr h, rfl⟩

/-- A key that passes its tests is found under its name, perhaps behind a key of the same name. -/
theorem exists_findChildKey {m : Mem} {parent lh cell : ℕ} {name : List UInt16}
    (hleaf : parentLeaf m parent = .ok lh) (hcell : cell ∈ leafCells m lh)
    (hnamed : isChildNamed m name cell) :
    ∃ c ∈ leafCells m lh, findChildKey m parent name = .ok (cellAddr c) ∧
      isChildNamed m name c := by
  have hsome : ((leafCells m lh).find? (isChildNamed m name ·)).isSome := by
    rw [List.find?_isSome]
    exact ⟨cell, hcell, decide_eq_true hnamed⟩
  obtain ⟨c, hc⟩ := Option.isSome_iff_exists.mp hsome
  have hname : isChildNamed m name c := by simpa using List.find?_some hc
  exact ⟨c, List.mem_of_find?_eq_some hc, findChildKey_ok_iff.mpr ⟨lh, hleaf, c, hc, rfl⟩, hname⟩

/-- **Lookup against enumeration**: the name that `reg_enum_keys` gives for a subkey is found by
`reg_find_key`, as a subkey of this name, exactly if the subkey index is not a root of indexes. -/
theorem found_enumKeys_iff {m : Mem} {parent index nameLength : ℕ} {out : EnumName}
    (h : enumKeys m parent index nameLength = .ok out) (hfit : out.overflow = false)
    (hnul : 0 ∉ out.units.dropLast) (hsep : backslash ∉ cstring out.units) :
    Found m parent (cstring out.units) ↔
      indexSignature m (cellBody (subKeyList m (keyBody parent))) ≠ keyIndexRoot := by
  obtain ⟨hnode, hindex, hlist, hsize, lh, i, hfind, hroom, hi, hchild, rfl⟩ :=
    enumKeys_ok_iff.mp h
  rw [Found, findKey_component m parent hsep, cstring_enumName hfit hnul]
  constructor
  · rintro ⟨k, hk, -⟩
    obtain ⟨lh', hlh', -⟩ := findChildKey_ok_iff.mp hk
    obtain ⟨-, -, -, hleaf, rfl⟩ := parentLeaf_ok_iff.mp hlh'
    exact indexSignature_ne_of_isLeaf (checkLeaf_ok_iff.mp hleaf).2.2
  · intro hne
    obtain ⟨hleaf, heq⟩ := findLeaf_ok_of_ne hne hfind
    cases heq
    have hparent : parentLeaf m parent = .ok (cellBody (subKeyList m (keyBody parent))) :=
      parentLeaf_ok_iff.mpr ⟨hnode, by omega, hlist,
        checkLeaf_ok_iff.mpr ⟨(checkSize_ok_iff.mp hsize).1, hroom, hleaf⟩, rfl⟩
    obtain ⟨c, hc, hfound, -, hname⟩ :=
      exists_findChildKey hparent (leafCell_mem hi) ⟨hchild, sameName_refl _⟩
    refine ⟨cellAddr c, hfound, c, ?_, rfl, hname⟩
    rw [subKeyCells, if_neg hne]
    exact hc

/-- A key at 0x1020 and its subkey `A` at 0x10a0, without the index. -/
def oneSubKey : List (ℕ × ℕ × ℕ) :=
  [(0x1020, 4, 2 ^ 32 - 96), (0x1024, 2, keyNodeSignature), (0x1026, 2, 0x20), (0x1038, 4, 1),
    (0x1040, 4, 0x80), (0x10a0, 4, 2 ^ 32 - 96), (0x10a4, 2, keyNodeSignature), (0x10a6, 2, 0x20),
    (0x10ec, 2, 1), (0x10f0, 1, 0x41)]

/-- The subkey stands in a leaf. -/
def leafImage : Mem :=
  image (oneSubKey ++ [(0x1080, 4, 2 ^ 32 - 16), (0x1084, 2, keyFastLeaf), (0x1086, 2, 1),
    (0x1088, 4, 0xa0)])

/-- The subkey stands in a leaf behind a root. -/
def rootImage : Mem :=
  image (oneSubKey ++ [(0x1080, 4, 2 ^ 32 - 16), (0x1084, 2, keyIndexRoot), (0x1086, 2, 1),
    (0x1088, 4, 0x110), (0x1110, 4, 2 ^ 32 - 16), (0x1114, 2, keyFastLeaf), (0x1116, 2, 1),
    (0x1118, 4, 0xa0)])

/-- The path `A\\A`, and the path `A\\`. -/
theorem findKey_composition_leaf :
    findKey leafImage 0x1020 [0x41, 0x5c, 0x41] =
        (findKey leafImage 0x1020 [0x41] >>= fun k => findKey leafImage k [0x41]) ∧
      findKey leafImage 0x1020 [0x41, 0x5c] = findKey leafImage 0x1020 [0x41] :=
  findKey_composition leafImage 0x1020 (a := [0x41]) (b := [0x41]) (by decide) (by decide)

/-- A key in a leaf is enumerated and found. -/
theorem found_enumKeys_iff_leaf :
    enumKeys leafImage 0x1020 0 8 = .ok (enumName [0x41] 8) ∧
      (Found leafImage 0x1020 (cstring (enumName [0x41] 8).units) ↔
        indexSignature leafImage (cellBody (subKeyList leafImage (keyBody 0x1020))) ≠
          keyIndexRoot) := by
  have h : enumKeys leafImage 0x1020 0 8 = .ok (enumName [0x41] 8) := by
    decide +kernel
  exact ⟨h, found_enumKeys_iff h (by decide) (by decide) (by decide)⟩

/-- A key in a leaf behind a root is enumerated and not found. -/
theorem not_found_enumKeys_root :
    ¬∀ (m : Mem) (parent index nameLength : ℕ) (out : EnumName),
      enumKeys m parent index nameLength = .ok out → out.overflow = false →
      cstring out.units ≠ [] → 0 ∉ out.units.dropLast → backslash ∉ cstring out.units →
      Found m parent (cstring out.units) := by
  intro h
  obtain ⟨k, hk, -⟩ := h rootImage 0x1020 0 8 (enumName [0x41] 8) (by decide +kernel) (by decide)
    (by decide) (by decide) (by decide)
  have herr : findKey rootImage 0x1020 (cstring (enumName [0x41] 8).units) = .error .badArgument := by
    decide +kernel
  rw [herr] at hk
  cases hk

end Ntloader.Reg
