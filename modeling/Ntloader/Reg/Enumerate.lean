import Ntloader.Reg.Values

/-!
# What enumeration writes and lists

The subkeys and the values of a key are given one by one, each with its name in a buffer of the caller.

* `enumeratedKey`, `enumeratedValue` — the cell that a call comes to.
* `KeepsTo` — a call writes to its buffer only and reports a name that does not fit.
* `enum_keepsTo_iff` — it does so exactly if the name is shorter than the buffer.
* `EnumeratesAll` — the calls for a key list its subkeys in order.
* `enumeratesAll_iff` — they do so exactly if a root of indexes is as large as its leaves.
-/

namespace Ntloader.Reg

open Ntloader.Lib

/-! ## The cell that a call comes to -/

/-- The subkey that `reg_enum_keys` copies the name of.
Source: libnt/reg.c, reg_enum_keys, in front of the two loops over i -/
def enumeratedKey (m : Mem) (key index : ℕ) : Except RegErr ℕ := do
  let nk := keyBody key
  checkNode m key nk
  refuse (subKeyCount m nk ≤ index ∨ subKeyList m nk = noCell) .fileNotFound
  let off := cellAddr (subKeyList m nk)
  checkSize m off 4
  let (lh, index) ← findLeaf m (cellBody (subKeyList m nk)) index
  refuse (getInt32Size m off < 8 + 8 * indexCount m lh) .badArgument
  refuse (indexCount m lh ≤ index) .badArgument
  let cell := leafCell m lh index
  checkNode m (cellAddr cell) (cellBody cell)
  return cell

/-- The value that `reg_enum_values` copies the name of.
Source: libnt/reg.c, reg_enum_values, in front of the two loops over i -/
def enumeratedValue (m : Mem) (key index : ℕ) : Except RegErr ℕ := do
  let nk := keyBody key
  checkNode m key nk
  refuse (valuesCount m nk ≤ index ∨ valuesList m nk = noCell) .fileNotFound
  let list ← valueList m nk
  let cell := valueCell m list index
  checkValue m (cellAddr cell) (cellBody cell)
  return cell

/-- An enumeration of keys finds the cell, and gives the name in it. -/
theorem enumKeys_eq (m : Mem) (key index nameLength : ℕ) :
    enumKeys m key index nameLength =
      (enumeratedKey m key index >>= fun cell =>
        .ok (enumName (nodeName m (cellBody cell)) nameLength)) := by
  rw [enumKeys, enumeratedKey]
  simp only [bind_assoc, pure_bind]
  rfl

/-- An enumeration of values finds the cell, and gives the name in it and the type. -/
theorem enumValues_eq (m : Mem) (key index nameLength : ℕ) :
    enumValues m key index nameLength =
      (enumeratedValue m key index >>= fun cell =>
        .ok (enumName (valueName m (cellBody cell)) nameLength, valueType m (cellBody cell))) := by
  rw [enumValues, enumeratedValue]
  simp only [bind_assoc, pure_bind]
  rfl

/-! ## The buffer -/

/-- What a call has written to the buffer. -/
def written (x : Except RegErr EnumName) : List UInt16 :=
  match x with
  | .error _ => []
  | .ok out => out.units

/-- A call returns REG_ERR_OUT_OF_MEMORY. -/
def outOfMemory (x : Except RegErr EnumName) : Prop :=
  match x with
  | .error e => e = .outOfMemory
  | .ok out => out.overflow = true

/-- A call writes elements of a buffer of the given length only, ends what it writes with a zero in the
buffer, and reports exactly a stored name that does not fit with its zero. -/
structure KeepsTo (nameLength : ℕ) (name : Except RegErr (List UInt16))
    (x : Except RegErr EnumName) : Prop where
  inside : (written x).length ≤ nameLength
  terminated : written x ≠ [] → 0 ∈ (written x).take nameLength
  reported : outOfMemory x ↔ ∃ s, name = .ok s ∧ nameLength < s.length + 1

/-- Every refusal is one for another reason than the buffer. -/
def NeverOutOfMemory {α : Type} (x : Except RegErr α) : Prop := x ≠ .error .outOfMemory

section NeverOutOfMemory

variable {α β : Type}

/-- A result is not "out of memory", -/
theorem neverOutOfMemory_ok (a : α) : NeverOutOfMemory (.ok a : Except RegErr α) := by
  simp [NeverOutOfMemory]

/-- nor is any other error. -/
theorem neverOutOfMemory_refuse {c : Prop} [Decidable c] {e : RegErr} (he : e ≠ .outOfMemory) :
    NeverOutOfMemory (refuse c e) := by
  rw [NeverOutOfMemory, refuse]
  by_cases h : c
  · rw [if_pos h]
    simpa using he
  · rw [if_neg h]
    exact neverOutOfMemory_ok ()

/-- A sequence is not, if neither of its parts is. -/
theorem NeverOutOfMemory.bind {x : Except RegErr α} {f : α → Except RegErr β}
    (hx : NeverOutOfMemory x) (hf : ∀ a, NeverOutOfMemory (f a)) : NeverOutOfMemory (x >>= f) := by
  cases x with
  | error e => simpa [NeverOutOfMemory, Bind.bind, Except.bind] using hx
  | ok a => exact hf a

/-- The check of a size is never "out of memory", -/
theorem neverOutOfMemory_checkSize (m : Mem) (off header : ℕ) :
    NeverOutOfMemory (checkSize m off header) := by
  rw [NeverOutOfMemory, checkSize]
  split_ifs <;> simp

/-- nor is the check of a cell, -/
theorem neverOutOfMemory_checkCell (m : Mem) (off body header : ℕ) (signatures : List ℕ)
    (length : ℕ) : NeverOutOfMemory (checkCell m off body header signatures length) :=
  (neverOutOfMemory_checkSize m off header).bind fun _ =>
    (neverOutOfMemory_refuse (by decide)).bind fun _ => neverOutOfMemory_refuse (by decide)

/-- the walk over the leaves, -/
theorem neverOutOfMemory_rootWalk (m : Mem) (ri n i index : ℕ) :
    NeverOutOfMemory (rootWalk m ri n i index) := by
  induction n generalizing i index with
  | zero => exact neverOutOfMemory_ok _
  | succ n ih =>
      rw [rootWalk]
      split_ifs
      · simp [NeverOutOfMemory]
      · exact neverOutOfMemory_ok _
      · exact ih _ _
      · simp [NeverOutOfMemory]

/-- the search for a leaf, -/
theorem neverOutOfMemory_findLeaf (m : Mem) (lh index : ℕ) :
    NeverOutOfMemory (findLeaf m lh index) := by
  rw [findLeaf]
  split_ifs
  · exact neverOutOfMemory_rootWalk _ _ _ _ _
  · exact neverOutOfMemory_ok _
  · simp [NeverOutOfMemory]

/-- the search for a key by its index -/
theorem neverOutOfMemory_enumeratedKey (m : Mem) (key index : ℕ) :
    NeverOutOfMemory (enumeratedKey m key index) := by
  refine (neverOutOfMemory_checkCell _ _ _ _ _ _).bind fun _ => ?_
  refine (neverOutOfMemory_refuse (by decide)).bind fun _ => ?_
  refine (neverOutOfMemory_checkSize _ _ _).bind fun _ => ?_
  refine (neverOutOfMemory_findLeaf _ _ _).bind fun r => ?_
  refine (neverOutOfMemory_refuse (by decide)).bind fun _ => ?_
  refine (neverOutOfMemory_refuse (by decide)).bind fun _ => ?_
  exact (neverOutOfMemory_checkCell _ _ _ _ _ _).bind fun _ => neverOutOfMemory_ok _

/-- and that for a value. -/
theorem neverOutOfMemory_enumeratedValue (m : Mem) (key index : ℕ) :
    NeverOutOfMemory (enumeratedValue m key index) := by
  refine (neverOutOfMemory_checkCell _ _ _ _ _ _).bind fun _ => ?_
  refine (neverOutOfMemory_refuse (by decide)).bind fun _ => ?_
  refine ((neverOutOfMemory_checkSize _ _ _).bind fun _ => neverOutOfMemory_ok _).bind fun _ => ?_
  exact (neverOutOfMemory_checkCell _ _ _ _ _ _).bind fun _ => neverOutOfMemory_ok _

end NeverOutOfMemory

/-- A copy of a name keeps to the buffer exactly if the name is shorter. -/
theorem keepsTo_enumName_iff (name : List UInt16) (nameLength : ℕ) :
    KeepsTo nameLength (.ok name) (.ok (enumName name nameLength)) ↔ name.length < nameLength := by
  constructor
  · rintro ⟨hinside, -, hreported⟩
    -- the terminator is behind the characters that are copied
    by_contra hlong
    rw [written, enumName, List.length_append, List.length_take, List.length_singleton] at hinside
    omega
  · intro hlt
    have htake : name.take nameLength = name := List.take_of_length_le hlt.le
    refine ⟨?_, fun _ => ?_, ?_⟩
    · rw [written, enumName, htake, List.length_append, List.length_singleton]
      exact hlt
    · rw [written, enumName, htake, List.take_of_length_le]
      · simp
      · rw [List.length_append, List.length_singleton]
        exact hlt
    · simp only [outOfMemory, enumName, decide_eq_true_eq, Except.ok.injEq, exists_eq_left']
      omega

/-- The same for a call that comes to a name, or to none. -/
theorem keepsTo_iff {cell : Except RegErr ℕ} (hcell : NeverOutOfMemory cell)
    (name : ℕ → List UInt16) (nameLength : ℕ) :
    KeepsTo nameLength (cell.map name) (cell >>= fun c => .ok (enumName (name c) nameLength)) ↔
      ∀ c, cell = .ok c → (name c).length < nameLength := by
  cases cell with
  | error e =>
      refine iff_of_true ⟨Nat.zero_le _, fun h => absurd rfl h, ?_⟩ nofun
      refine iff_of_false (fun he => hcell (congrArg _ he)) ?_
      rintro ⟨s, hs, -⟩
      cases hs
  | ok c =>
      simp only [ok_bind, Except.ok.injEq, forall_eq']
      exact keepsTo_enumName_iff (name c) nameLength

/-- **Enumeration keeps to the buffer of the caller** exactly if the name that it copies, if it comes
to one, is shorter than the buffer. -/
theorem enum_keepsTo_iff (m : Mem) (key index nameLength : ℕ) :
    (KeepsTo nameLength ((enumeratedKey m key index).map fun c => nodeName m (cellBody c))
        (enumKeys m key index nameLength) ↔
      ∀ c, enumeratedKey m key index = .ok c → (nodeName m (cellBody c)).length < nameLength) ∧
    (KeepsTo nameLength ((enumeratedValue m key index).map fun c => valueName m (cellBody c))
        ((enumValues m key index nameLength).map Prod.fst) ↔
      ∀ c, enumeratedValue m key index = .ok c →
        (valueName m (cellBody c)).length < nameLength) := by
  refine ⟨?_, ?_⟩
  · rw [enumKeys_eq]
    exact keepsTo_iff (neverOutOfMemory_enumeratedKey m key index) _ nameLength
  · have hmap : (enumValues m key index nameLength).map Prod.fst =
        (enumeratedValue m key index >>= fun c =>
          .ok (enumName (valueName m (cellBody c)) nameLength)) := by
      rw [enumValues_eq]
      rcases enumeratedValue m key index with e | c
      · rfl
      · rfl
    rw [hmap]
    exact keepsTo_iff (neverOutOfMemory_enumeratedValue m key index) _ nameLength

/-- A name of one character for a buffer of one element: the zero is written behind the buffer, and
the call reports no error. -/
theorem not_keepsTo_leafImage :
    ¬∀ (m : Mem) (key index nameLength : ℕ), 1 ≤ nameLength →
      KeepsTo nameLength ((enumeratedKey m key index).map fun c => nodeName m (cellBody c))
        (enumKeys m key index nameLength) := by
  intro h
  have hinside := (h leafImage 0x1020 0 1 le_rfl).inside
  rw [show enumKeys leafImage 0x1020 0 1 = .ok (enumName [0x41] 1) by decide +kernel] at hinside
  exact absurd hinside (by decide)

/-! ## The order of the subkeys -/

/-- The leaves of a root. -/
def rootLeaves (m : Mem) (ri : ℕ) : List ℕ := (List.range (indexCount m ri)).map (rootCell m ri)

/-- A key with a sound index: a leaf, or a root of leaves, with as many subkeys as the key counts.
Every cell has room for what it lists. -/
structure Enumerable (m : Mem) (key : ℕ) : Prop where
  node : checkNode m key (keyBody key) = .ok ()
  list : subKeyList m (keyBody key) ≠ noCell
  used : getInt32Size m (cellAddr (subKeyList m (keyBody key))) < 2 ^ 31
  index : let lh := cellBody (subKeyList m (keyBody key))
    checkLeaf m (cellAddr (subKeyList m (keyBody key))) lh = .ok () ∨
    indexSignature m lh = keyIndexRoot ∧
      8 + 4 * indexCount m lh ≤ getInt32Size m (cellAddr (subKeyList m (keyBody key))) ∧
      ∀ c ∈ rootLeaves m lh, checkLeaf m (cellAddr c) (cellBody c) = .ok ()
  count : (subKeyCells m (cellBody (subKeyList m (keyBody key)))).length = subKeyCount m (keyBody key)
  keys : ∀ c ∈ subKeyCells m (cellBody (subKeyList m (keyBody key))),
    checkNode m (cellAddr c) (cellBody c) = .ok ()

/-- The calls for a key give its subkeys in the order of the index, and then that there are no more. -/
structure EnumeratesAll (m : Mem) (key : ℕ) : Prop where
  subkey : ∀ index c nameLength,
    (subKeyCells m (cellBody (subKeyList m (keyBody key))))[index]? = some c →
    (nodeName m (cellBody c)).length < nameLength →
    enumKeys m key index nameLength = .ok ⟨nodeName m (cellBody c) ++ [0], false⟩
  stop : ∀ index nameLength, subKeyCount m (keyBody key) ≤ index →
    enumKeys m key index nameLength = .error .fileNotFound

/-- A name that is shorter than the buffer is given with its NUL. -/
theorem enumName_of_lt {name : List UInt16} {nameLength : ℕ} (h : name.length < nameLength) :
    enumName name nameLength = ⟨name ++ [0], false⟩ := by
  rw [enumName, List.take_of_length_le h.le, decide_eq_false (by omega)]

/-- A leaf has as many cells as it counts. -/
theorem leafCells_length (m : Mem) (lh : ℕ) : (leafCells m lh).length = indexCount m lh := by
  rw [leafCells, List.length_map, List.length_range]

/-- They are its entries. -/
theorem leafCells_getElem? {m : Mem} {lh i : ℕ} (h : i < indexCount m lh) :
    (leafCells m lh)[i]? = some (leafCell m lh i) := by
  rw [leafCells, List.getElem?_map, List.getElem?_range h, Option.map_some]

section Root

variable {m : Mem} {ri n i index : ℕ}

/-- The subkeys of `n` leaves of a root, from leaf `i` on. -/
def rootKeys (m : Mem) (ri n i : ℕ) : List ℕ :=
  (List.range' i n).flatMap fun j => leafCells m (cellBody (rootCell m ri j))

/-- The keys of the first leaf stand in front of those of the others. -/
theorem rootKeys_succ (m : Mem) (ri n i : ℕ) : rootKeys m ri (n + 1) i =
    leafCells m (cellBody (rootCell m ri i)) ++ rootKeys m ri n (i + 1) := by
  rw [rootKeys, List.range'_succ, List.flatMap_cons, rootKeys]

/-- A round of the walk over a leaf. -/
theorem rootWalk_of_isLeaf (hleaf : isLeaf m (cellBody (rootCell m ri i))) :
    rootWalk m ri (n + 1) i index =
      if index < indexCount m (cellBody (rootCell m ri i)) then
        .ok (cellBody (rootCell m ri i), index)
      else rootWalk m ri n (i + 1) (index - indexCount m (cellBody (rootCell m ri i))) := by
  rw [rootWalk, if_neg (indexSignature_ne_of_isLeaf hleaf), if_neg (not_not_intro hleaf)]

/-- The walk comes to the leaf that holds the subkey of the number, and to its place in it. -/
theorem rootWalk_spec (hleaf : ∀ j, i ≤ j → j < i + n → isLeaf m (cellBody (rootCell m ri j)))
    {c : ℕ} (hc : (rootKeys m ri n i)[index]? = some c) :
    ∃ j k, i ≤ j ∧ j < i + n ∧ rootWalk m ri n i index = .ok (cellBody (rootCell m ri j), k) ∧
      k < indexCount m (cellBody (rootCell m ri j)) ∧
      c = leafCell m (cellBody (rootCell m ri j)) k := by
  induction n generalizing i index with
  | zero => simp [rootKeys] at hc
  | succ n ih =>
      rw [rootKeys_succ] at hc
      rw [rootWalk_of_isLeaf (hleaf i le_rfl (by omega))]
      by_cases hlt : index < indexCount m (cellBody (rootCell m ri i))
      · rw [List.getElem?_append_left (by rwa [leafCells_length]), leafCells_getElem? hlt] at hc
        cases hc
        exact ⟨i, index, le_rfl, by omega, if_pos hlt, hlt, rfl⟩
      · rw [List.getElem?_append_right (by rw [leafCells_length]; omega), leafCells_length] at hc
        obtain ⟨j, k, hij, hjn, hwalk, hk, rfl⟩ :=
          ih (fun j h₁ h₂ => hleaf j (by omega) (by omega)) hc
        exact ⟨j, k, by omega, by omega, by rw [if_neg hlt, hwalk], hk, rfl⟩

/-- Every leaf with a subkey is what the walk comes to for some number. -/
theorem exists_rootWalk (hleaf : ∀ j, i ≤ j → j < i + n → isLeaf m (cellBody (rootCell m ri j)))
    {j : ℕ} (hij : i ≤ j) (hjn : j < i + n) (hpos : indexCount m (cellBody (rootCell m ri j)) ≠ 0) :
    ∃ index, index < (rootKeys m ri n i).length ∧
      rootWalk m ri n i index = .ok (cellBody (rootCell m ri j), 0) := by
  induction n generalizing i with
  | zero => omega
  | succ n ih =>
      rcases hij.eq_or_lt with rfl | hlt
      · refine ⟨0, ?_, ?_⟩
        · rw [rootKeys_succ, List.length_append, leafCells_length]
          omega
        · rw [rootWalk_of_isLeaf (hleaf i le_rfl (by omega)), if_pos (Nat.pos_of_ne_zero hpos)]
      · obtain ⟨index, hindex, hwalk⟩ :=
          ih (i := i + 1) (fun j h₁ h₂ => hleaf j (by omega) (by omega)) hlt (by omega)
        refine ⟨index + indexCount m (cellBody (rootCell m ri i)), ?_, ?_⟩
        · rw [rootKeys_succ, List.length_append, leafCells_length]
          omega
        · rw [rootWalk_of_isLeaf (hleaf i le_rfl (by omega)), if_neg (by omega),
            Nat.add_sub_cancel, hwalk]

/-- The subkeys behind a root of indexes are those of its leaves. -/
theorem subKeyCells_of_root (h : indexSignature m ri = keyIndexRoot) :
    subKeyCells m ri = rootKeys m ri (indexCount m ri) 0 := by
  rw [subKeyCells, if_pos h, rootKeys, List.range_eq_range']

end Root

section Order

variable {m : Mem} {key : ℕ}

/-- Behind the last subkey there is nothing. -/
theorem enumKeys_of_le (hnode : checkNode m key (keyBody key) = .ok ()) {index : ℕ}
    (h : subKeyCount m (keyBody key) ≤ index) (nameLength : ℕ) :
    enumKeys m key index nameLength = .error .fileNotFound := by
  rw [enumKeys]
  simp only [hnode, ok_bind, refuse, if_pos (Or.inl h : subKeyCount m (keyBody key) ≤ index ∨
    subKeyList m (keyBody key) = noCell)]
  rfl

/-- The leaves of the root of an enumerable key. -/
theorem Enumerable.isLeaf (h : Enumerable m key)
    (hroot : indexSignature m (cellBody (subKeyList m (keyBody key))) = keyIndexRoot) {j : ℕ}
    (hj : j < indexCount m (cellBody (subKeyList m (keyBody key)))) :
    isLeaf m (cellBody (rootCell m (cellBody (subKeyList m (keyBody key))) j)) := by
  rcases h.index with hleaf | ⟨-, -, hleaves⟩
  · exact absurd hroot (indexSignature_ne_of_isLeaf (checkLeaf_ok_iff.mp hleaf).2.2)
  · have hmem : rootCell m (cellBody (subKeyList m (keyBody key))) j ∈
        rootLeaves m (cellBody (subKeyList m (keyBody key))) :=
      List.mem_map.mpr ⟨j, List.mem_range.mpr hj, rfl⟩
    exact (checkLeaf_ok_iff.mp (hleaves _ hmem)).2.2

/-- The index of an enumerable key passes the tests of its size. -/
theorem Enumerable.checkSize_eq (h : Enumerable m key) :
    checkSize m (cellAddr (subKeyList m (keyBody key))) 4 = .ok () := by
  rw [checkSize_ok_iff]
  refine ⟨h.used, ?_⟩
  rcases h.index with hleaf | ⟨-, hroom, -⟩
  · have hroom := (checkLeaf_ok_iff.mp hleaf).2.1
    omega
  · omega

/-- The walk comes to the subkey of a number, in a leaf of which the size of the index is tested. -/
theorem Enumerable.findLeaf_spec (h : Enumerable m key) {index c : ℕ}
    (hc : (subKeyCells m (cellBody (subKeyList m (keyBody key))))[index]? = some c) :
    ∃ lh i, findLeaf m (cellBody (subKeyList m (keyBody key))) index = .ok (lh, i) ∧
      i < indexCount m lh ∧ c = leafCell m lh i ∧
      (indexSignature m (cellBody (subKeyList m (keyBody key))) = keyIndexRoot →
        ∃ r ∈ rootLeaves m (cellBody (subKeyList m (keyBody key))), lh = cellBody r) ∧
      (indexSignature m (cellBody (subKeyList m (keyBody key))) ≠ keyIndexRoot →
        8 + 8 * indexCount m lh ≤ getInt32Size m (cellAddr (subKeyList m (keyBody key)))) := by
  by_cases hroot : indexSignature m (cellBody (subKeyList m (keyBody key))) = keyIndexRoot
  · rw [subKeyCells_of_root hroot] at hc
    obtain ⟨j, k, -, hj, hwalk, hk, rfl⟩ :=
      rootWalk_spec (fun j _ hj => h.isLeaf hroot (by omega)) hc
    refine ⟨_, k, ?_, hk, rfl, fun _ => ⟨_, ?_, rfl⟩, fun hne => absurd hroot hne⟩
    · rw [findLeaf, if_pos hroot, hwalk]
    · exact List.mem_map.mpr ⟨j, List.mem_range.mpr (by omega), rfl⟩
  · rcases h.index with hleaf | ⟨hroot', -⟩
    · obtain ⟨-, hroom, hleaf⟩ := checkLeaf_ok_iff.mp hleaf
      rw [subKeyCells, if_neg hroot] at hc
      obtain ⟨hindex, -⟩ := List.getElem?_eq_some_iff.mp hc
      rw [leafCells_length] at hindex
      rw [leafCells_getElem? hindex] at hc
      cases hc
      refine ⟨_, index, ?_, hindex, rfl, fun hroot' => absurd hroot' hroot, fun _ => hroom⟩
      rw [findLeaf, if_neg hroot, if_neg (not_not_intro hleaf)]
    · exact absurd hroot' hroot

/-- **Enumeration lists every subkey in order** exactly if a root of indexes is, as a cell, at least as
large as a leaf with the keys of each of its leaves. -/
theorem enumeratesAll_iff (h : Enumerable m key) :
    EnumeratesAll m key ↔
      (indexSignature m (cellBody (subKeyList m (keyBody key))) = keyIndexRoot →
        ∀ c ∈ rootLeaves m (cellBody (subKeyList m (keyBody key))), indexCount m (cellBody c) ≠ 0 →
          8 + 8 * indexCount m (cellBody c) ≤
            getInt32Size m (cellAddr (subKeyList m (keyBody key)))) := by
  constructor
  · intro hall hroot c hc hpos
    obtain ⟨j, hj, rfl⟩ := List.mem_map.mp hc
    rw [List.mem_range] at hj
    obtain ⟨index, hindex, hwalk⟩ :=
      exists_rootWalk (i := 0) (n := indexCount m (cellBody (subKeyList m (keyBody key))))
        (fun j _ hj => h.isLeaf hroot (by omega)) (Nat.zero_le j) (by omega) hpos
    rw [← subKeyCells_of_root hroot] at hindex
    have hout := hall.subkey index _ _ (List.getElem?_eq_getElem hindex) (Nat.lt_succ_self _)
    obtain ⟨-, -, -, -, lh, i, hfind, hroom, -⟩ := enumKeys_ok_iff.mp hout
    rw [findLeaf, if_pos hroot, hwalk] at hfind
    cases hfind
    exact hroom
  · intro hroom
    refine ⟨fun index c nameLength hc hlen => ?_, fun index nameLength hle => ?_⟩
    · obtain ⟨lh, i, hfind, hi, rfl, hroot, hleaf⟩ := h.findLeaf_spec hc
      obtain ⟨hindex, -⟩ := List.getElem?_eq_some_iff.mp hc
      refine enumKeys_ok_iff.mpr ⟨h.node, h.count ▸ hindex, h.list, h.checkSize_eq, lh, i, hfind, ?_,
        hi, h.keys _ (List.mem_of_getElem? hc), (enumName_of_lt hlen).symm⟩
      by_cases hr : indexSignature m (cellBody (subKeyList m (keyBody key))) = keyIndexRoot
      · obtain ⟨r, hr', rfl⟩ := hroot hr
        exact hroom hr r hr' (by omega)
      · exact hleaf hr
    · exact enumKeys_of_le h.node hle nameLength

end Order

/-- A hive whose root key has a key `A`. Its two subkeys `B` and `C` are in two leaves behind a root of
indexes, and it has a value without name, of eight bytes. -/
def indexedHive : Mem :=
  ofImage (packed [(0, 0x66676572), (4, 1), (8, 1), (20, 1), (24, 3), (32, 1), (36, 0x20),
    (40, 0x1000), (44, 1), (508, 0x66677550), (0x1000, 0x6e696268), (0x1008, 0x1000),
    -- the root key and its leaf
    (0x1020, 2 ^ 32 - 80), (0x1024, keyNodeSignature), (0x1038, 1), (0x1040, 0x70),
    (0x1044, 0xbaadf00d), (0x1070, 2 ^ 32 - 16), (0x1074, keyFastLeaf), (0x1076, 1),
    (0x1078, 0x80),
    -- the key A, its root of indexes and the leaves
    (0x1080, 2 ^ 32 - 88), (0x1084, keyNodeSignature), (0x1098, 2), (0x10a0, 0xd8),
    (0x10a4, 0xbaadf00d), (0x10a8, 1), (0x10ac, 0x1b8), (0x10cc, 2), (0x10d0, 65),
    (0x10d8, 2 ^ 32 - 16), (0x10dc, keyIndexRoot), (0x10de, 2), (0x10e0, 0xe8),
    (0x10e4, 0xf8), (0x10e8, 2 ^ 32 - 16), (0x10ec, keyFastLeaf), (0x10ee, 1),
    (0x10f0, 0x108), (0x10f8, 2 ^ 32 - 16), (0x10fc, keyFastLeaf), (0x10fe, 1),
    (0x1100, 0x160),
    -- the keys B and C
    (0x1108, 2 ^ 32 - 88), (0x110c, keyNodeSignature), (0x1154, 2), (0x1158, 66),
    (0x1160, 2 ^ 32 - 88), (0x1164, keyNodeSignature), (0x11ac, 2), (0x11b0, 67),
    -- the list of values, the value and its data
    (0x11b8, 2 ^ 32 - 8), (0x11bc, 0x1c0), (0x11c0, 2 ^ 32 - 24),
    (0x11c4, keyValueSignature), (0x11c8, 8), (0x11cc, 0x1d8), (0x11d8, 2 ^ 32 - 16)])

/-- The subkeys of `A` can be enumerated, but for the sizes. -/
theorem enumerable_indexedHive : Enumerable indexedHive 0x1080 where
  node := by decide +kernel
  list := by decide +kernel
  used := by decide +kernel
  index := Or.inr (by decide +kernel)
  count := by decide +kernel
  keys := by decide +kernel

/-- The root of indexes of `A` has two leaves. -/
theorem enumeratesAll_iff_indexedHive :
    EnumeratesAll indexedHive 0x1080 ↔
      (indexSignature indexedHive (cellBody (subKeyList indexedHive (keyBody 0x1080))) = keyIndexRoot →
        ∀ c ∈ rootLeaves indexedHive (cellBody (subKeyList indexedHive (keyBody 0x1080))),
          indexCount indexedHive (cellBody c) ≠ 0 → 8 + 8 * indexCount indexedHive (cellBody c) ≤
            getInt32Size indexedHive (cellAddr (subKeyList indexedHive (keyBody 0x1080)))) :=
  enumeratesAll_iff enumerable_indexedHive

/-- A key at 0x1020 and a root of 16 bytes with one leaf, which holds two subkeys in 24 bytes. -/
def wideLeafImage : Mem :=
  image [(0x1020, 4, 2 ^ 32 - 96), (0x1024, 2, keyNodeSignature), (0x1038, 4, 2), (0x1040, 4, 0x80),
    (0x1080, 4, 2 ^ 32 - 16), (0x1084, 2, keyIndexRoot), (0x1086, 2, 1), (0x1088, 4, 0x110),
    (0x10a0, 4, 2 ^ 32 - 96), (0x10a4, 2, keyNodeSignature), (0x10a6, 2, 0x20), (0x10ec, 2, 1),
    (0x10f0, 1, 0x41), (0x1110, 4, 2 ^ 32 - 24), (0x1114, 2, keyFastLeaf), (0x1116, 2, 2),
    (0x1118, 4, 0xa0), (0x1120, 4, 0x130), (0x1130, 4, 2 ^ 32 - 96), (0x1134, 2, keyNodeSignature),
    (0x1136, 2, 0x20), (0x117c, 2, 1), (0x1180, 1, 0x42)]

/-- The subkeys of `wideLeafImage` can be enumerated, but for the sizes. -/
theorem enumerable_wideLeafImage : Enumerable wideLeafImage 0x1020 where
  node := by decide +kernel
  list := by decide +kernel
  used := by decide +kernel
  index := Or.inr (by decide +kernel)
  count := by decide +kernel
  keys := by decide +kernel

/-- The leaf is refused, because the root is smaller. -/
theorem not_enumeratesAll_wideLeafImage :
    ¬∀ (m : Mem) (key : ℕ), Enumerable m key → EnumeratesAll m key := by
  intro h
  have hout := (h wideLeafImage 0x1020 enumerable_wideLeafImage).subkey 0 0xa0 2 (by decide +kernel)
    (by decide +kernel)
  rw [show enumKeys wideLeafImage 0x1020 0 2 = .error .badArgument by decide +kernel] at hout
  cases hout

end Ntloader.Reg
