import Ntloader.Reg.Delete
import Ntloader.Reg.Values
import Ntloader.Reg.Volatile

/-!
# Keys with their values

A hive is a tree of keys, and every key has values whose data stand in cells of their own or in the
value. If no two of these cells overlap, what is written to one of them is not read from another.

* `Part`, `Part.span` — the cells that belong to a key: its node, its index, its list of values, and
  for each value the value and its data.
* `Hive` — a set of keys whose cells are sound and lie apart.
* `AllocatedHive` — the same for cells of the sizes that they state, and without a condition on counts;
  `AllocatedHive.hive` — what makes a hive of it.
* `Framed` — two images differ in counts, volatile fields, indexes and data only.
* `Framed.queryValue_eq` — then every query returns the same place.
* `Hive.of_framed` — and the image is a hive, if its indexes are sound.
* `AllocatedCheck.allocatedHive` — a test for the keys of a list.
-/

namespace Ntloader.Reg

open Ntloader.Lib

/-! ## Places -/

section Places

variable (m : Mem) (key i : ℕ)

/-- The place of the list of the values of a key. -/
def listAddr : ℕ := cellAddr (valuesList m (keyBody key))

/-- The cell of a value of a key. -/
def valueAt : ℕ := valueCell m (cellBody (valuesList m (keyBody key))) i

/-- The place of a value of a key. -/
def valueAddr : ℕ := cellAddr (valueAt m key i)

/-- The place of the contents of a value of a key. -/
def valueBody : ℕ := cellBody (valueAt m key i)

/-- The place of the cell of the data of a value. -/
def dataAddr : ℕ := cellAddr (valueDataCell m (valueBody m key i))

end Places

/-- The cells that belong to a key. -/
inductive Part where
  | node (key : ℕ)
  | index (key : ℕ)
  | list (key : ℕ)
  | value (key i : ℕ)
  | data (key i : ℕ)
  deriving DecidableEq

/-- The bytes of a cell. Of a cell of data these are its size and the data. -/
def Part.span (m : Mem) : Part → ℕ × ℕ
  | .node key => nodeSpan m key
  | .index key => indexSpan m key
  | .list key => (listAddr m key, getInt32Size m (listAddr m key))
  | .value key i => (valueAddr m key i, getInt32Size m (valueAddr m key i))
  | .data key i => (dataAddr m key i, 4 + valueDataLength m (valueBody m key i))

/-- The cells that the keys of a set have. -/
def Part.Of (keys : Set ℕ) (m : Mem) : Part → Prop
  | .node key => key ∈ keys
  | .index key => key ∈ keys ∧ subKeyCount m (keyBody key) ≠ 0
  | .list key => key ∈ keys ∧ valuesCount m (keyBody key) ≠ 0
  | .value key i => key ∈ keys ∧ i < valuesCount m (keyBody key)
  | .data key i => key ∈ keys ∧ i < valuesCount m (keyBody key) ∧
      isSpecial m (valueBody m key i) = false

/-- A set of keys, closed under subkeys, whose cells are sound, lie behind the header of the hive and do
not overlap. -/
structure Hive (keys : Set ℕ) (m : Mem) : Prop where
  node : ∀ k ∈ keys, checkNode m k (keyBody k) = .ok ()
  index : ∀ k ∈ keys, subKeyCount m (keyBody k) ≠ 0 → IndexOk m k
  closed : ∀ k ∈ keys, ∀ c ∈ childKeys m k, c ∈ keys
  distinct : ∀ k ∈ keys, Subkeys.Distinct (subkeys m k)
  list : ∀ k ∈ keys, valuesCount m (keyBody k) ≠ 0 → valuesList m (keyBody k) ≠ noCell ∧
    checkSize m (listAddr m k) (4 * valuesCount m (keyBody k)) = .ok ()
  value : ∀ k ∈ keys, ∀ i < valuesCount m (keyBody k),
    checkValue m (valueAddr m k i) (valueBody m k i) = .ok ()
  above : ∀ p : Part, p.Of keys m → 0x1000 ≤ (p.span m).1
  apart : ∀ p q : Part, p.Of keys m → q.Of keys m → p ≠ q → Apart (p.span m) (q.span m)

/-! ## Cells of the sizes that they state -/

/-- The bytes of a cell, as many as it states. -/
def Part.cell (m : Mem) : Part → ℕ × ℕ
  | .data key i => (dataAddr m key i, getInt32Size m (dataAddr m key i))
  | p => p.span m

/-- A set of keys, closed under subkeys, whose subkeys are in leaves and have names of their own, and
whose cells are allocated, in the image and apart. -/
structure AllocatedHive (keys : Set ℕ) (size : ℕ) (m : Mem) : Prop where
  node : ∀ k ∈ keys, checkNode m k (keyBody k) = .ok ()
  leaf : ∀ k ∈ keys, subKeyCount m (keyBody k) ≠ 0 → subKeyList m (keyBody k) ≠ noCell ∧
    checkLeaf m (indexAddr m k) (keyBody (indexAddr m k)) = .ok ()
  closed : ∀ k ∈ keys, ∀ c ∈ childKeys m k, c ∈ keys
  distinct : ∀ k ∈ keys, Subkeys.Distinct (subkeys m k)
  list : ∀ k ∈ keys, valuesCount m (keyBody k) ≠ 0 → valuesList m (keyBody k) ≠ noCell ∧
    checkSize m (listAddr m k) (4 * valuesCount m (keyBody k)) = .ok ()
  value : ∀ k ∈ keys, ∀ i < valuesCount m (keyBody k),
    checkValue m (valueAddr m k i) (valueBody m k i) = .ok ()
  data : ∀ k ∈ keys, ∀ i < valuesCount m (keyBody k), isSpecial m (valueBody m k i) = false →
    4 ≤ getInt32Size m (dataAddr m k i) ∧ getInt32Size m (dataAddr m k i) < 2 ^ 31
  inside : ∀ p : Part, p.Of keys m → 0x1000 ≤ (p.cell m).1 ∧ (p.cell m).1 + (p.cell m).2 ≤ size
  apart : ∀ p q : Part, p.Of keys m → q.Of keys m → p ≠ q → Apart (p.cell m) (q.cell m)

/-- A leaf has as many entries as its key counts. -/
def CountsAgree (keys : Set ℕ) (m : Mem) : Prop :=
  ∀ k ∈ keys, subKeyCount m (keyBody k) ≠ 0 →
    indexCount m (keyBody (indexAddr m k)) = subKeyCount m (keyBody k)

/-- A cell of data has room for its size and for the data. -/
def DataFits (keys : Set ℕ) (m : Mem) : Prop :=
  ∀ k ∈ keys, ∀ i < valuesCount m (keyBody k), isSpecial m (valueBody m k i) = false →
    4 + valueDataLength m (valueBody m k i) ≤ getInt32Size m (dataAddr m k i)

/-- Where counts agree and data fit, cells of the sizes that they state make a hive. -/
theorem AllocatedHive.hive {keys : Set ℕ} {size : ℕ} {m : Mem} (h : AllocatedHive keys size m)
    (hcounts : CountsAgree keys m) (hdata : DataFits keys m) : Hive keys m := by
  have hspan : ∀ p : Part, p.Of keys m →
      (p.span m).1 = (p.cell m).1 ∧ (p.span m).2 ≤ (p.cell m).2 := by
    intro p hp
    cases p with
    | data key i => exact ⟨rfl, hdata key hp.1 i hp.2.1 hp.2.2⟩
    | node key => exact ⟨rfl, le_rfl⟩
    | index key => exact ⟨rfl, le_rfl⟩
    | list key => exact ⟨rfl, le_rfl⟩
    | value key i => exact ⟨rfl, le_rfl⟩
  refine ⟨h.node, ?_, h.closed, h.distinct, h.list, h.value, ?_, ?_⟩
  · intro k hk h0
    obtain ⟨hlist, hleaf⟩ := h.leaf k hk h0
    exact ⟨hlist, (h.inside (.index k) ⟨hk, h0⟩).1, hleaf, hcounts k hk h0⟩
  · intro p hp
    rw [(hspan p hp).1]
    exact (h.inside p hp).1
  · intro p q hp hq hne
    obtain ⟨hp₁, hp₂⟩ := hspan p hp
    obtain ⟨hq₁, hq₂⟩ := hspan q hq
    have hapart := h.apart p q hp hq hne
    rw [Apart] at hapart ⊢
    omega

section Hive

variable {keys : Set ℕ} {m m' : Mem}

/-- The keys of a hive are a tree of keys. -/
theorem Hive.keyTree (hh : Hive keys m) : KeyTree keys m where
  addr k hk := hh.above (.node k) hk
  node := hh.node
  index := hh.index
  closed := hh.closed
  distinct := hh.distinct
  node_node k hk k' hk' hne := hh.apart (.node k) (.node k') hk hk' (by simpa using hne)
  node_index k hk k' hk' h0 := hh.apart (.node k) (.index k') hk ⟨hk', h0⟩ (by simp)
  index_index k hk k' hk' hne h0 h0' :=
    hh.apart (.index k) (.index k') ⟨hk, h0⟩ ⟨hk', h0'⟩ (by simpa using hne)

/-- The contents of a list and of a value stand behind their sizes. -/
theorem Hive.list_body (hh : Hive keys m) {k : ℕ} (hk : k ∈ keys)
    (h0 : valuesCount m (keyBody k) ≠ 0) :
    cellBody (valuesList m (keyBody k)) = listAddr m k + 4 :=
  cellBody_eq (word4_lt _ _) (hh.above (.list k) ⟨hk, h0⟩)

/-- A value stands behind the size of its cell, -/
theorem Hive.value_body (hh : Hive keys m) {k i : ℕ} (hk : k ∈ keys)
    (hi : i < valuesCount m (keyBody k)) : valueBody m k i = valueAddr m k i + 4 :=
  cellBody_eq (word4_lt _ _) (hh.above (.value k i) ⟨hk, hi⟩)

/-- and so do data. -/
theorem Hive.data_body (hh : Hive keys m) {k i : ℕ} (hk : k ∈ keys)
    (hi : i < valuesCount m (keyBody k)) (hspecial : isSpecial m (valueBody m k i) = false) :
    cellBody (valueDataCell m (valueBody m k i)) = dataAddr m k i + 4 :=
  cellBody_eq (word4_lt _ _) (hh.above (.data k i) ⟨hk, hi, hspecial⟩)

end Hive

/-! ## Images that differ elsewhere -/

/-- Two images differ in the header, in counts of subkeys, volatile fields, indexes and data only. -/
structure Framed (keys : Set ℕ) (m m' : Mem) : Prop where
  node : ∀ k ∈ keys, ∀ x, k ≤ x → x < k + getInt32Size m k →
    (x < k + 24 ∨ (k + 32 ≤ x ∧ x < k + 36) ∨ k + 40 ≤ x) → m' x = m x
  list : ∀ k ∈ keys, valuesCount m (keyBody k) ≠ 0 → ∀ x, listAddr m k ≤ x →
    x < listAddr m k + getInt32Size m (listAddr m k) → m' x = m x
  value : ∀ k ∈ keys, ∀ i < valuesCount m (keyBody k), ∀ x, valueAddr m k i ≤ x →
    x < valueAddr m k i + getInt32Size m (valueAddr m k i) →
    (isSpecial m (valueBody m k i) = true → x < valueAddr m k i + 12 ∨ valueAddr m k i + 16 ≤ x) →
    m' x = m x
  data : ∀ k ∈ keys, ∀ i < valuesCount m (keyBody k), isSpecial m (valueBody m k i) = false →
    ∀ x, dataAddr m k i ≤ x → x < dataAddr m k i + 4 → m' x = m x

/-- What is read of a value, apart from data in the value. -/
structure SameValue (m m' : Mem) (key i : ℕ) : Prop where
  cell : valueAt m' key i = valueAt m key i
  size : getInt32Size m' (valueAddr m key i) = getInt32Size m (valueAddr m key i)
  check : checkValue m' (valueAddr m key i) (valueBody m key i) =
    checkValue m (valueAddr m key i) (valueBody m key i)
  name : valueName m' (valueBody m key i) = valueName m (valueBody m key i)
  length : valueDataLength m' (valueBody m key i) = valueDataLength m (valueBody m key i)
  type : valueType m' (valueBody m key i) = valueType m (valueBody m key i)
  data : isSpecial m (valueBody m key i) = false →
    valueDataCell m' (valueBody m key i) = valueDataCell m (valueBody m key i) ∧
      getInt32Size m' (dataAddr m key i) = getInt32Size m (dataAddr m key i)

section Framed

variable {keys : Set ℕ} {m m' : Mem} {k i : ℕ}

/-- A key reads as before, but for its subkeys. -/
theorem Framed.sameNode (hh : Hive keys m) (hf : Framed keys m m') (hk : k ∈ keys) :
    SameNode m m' k := node_congr (hh.node k hk) (hf.node k hk)

/-- A word of a node behind the volatile fields. -/
theorem Framed.node_word (hh : Hive keys m) (hf : Framed keys m m') (hk : k ∈ keys) {o n : ℕ}
    (h₁ : 40 ≤ o) (h₂ : o + n ≤ 80) : m'.word (k + o) n = m.word (k + o) n := by
  obtain ⟨-, hsize, -⟩ := checkNode_ok_iff.mp (hh.node k hk)
  refine Mem.word_congr fun x hx => ?_
  exact hf.node k hk _ (by omega) (by omega) (by omega)

/-- Its values are counted as before, -/
theorem Framed.valuesCount_eq (hh : Hive keys m) (hf : Framed keys m m') (hk : k ∈ keys) :
    valuesCount m' (keyBody k) = valuesCount m (keyBody k) :=
  hf.node_word hh hk (o := 40) le_rfl (by norm_num)

/-- and listed where they were, -/
theorem Framed.valuesList_eq (hh : Hive keys m) (hf : Framed keys m m') (hk : k ∈ keys) :
    valuesList m' (keyBody k) = valuesList m (keyBody k) :=
  hf.node_word hh hk (o := 44) (by norm_num) (by norm_num)

/-- at the same address. -/
theorem Framed.listAddr_eq (hh : Hive keys m) (hf : Framed keys m m') (hk : k ∈ keys) :
    listAddr m' k = listAddr m k := by
  unfold listAddr
  rw [hf.valuesList_eq hh hk]

/-- A list of values has room for its entries. -/
theorem Hive.list_room (hh : Hive keys m) (hk : k ∈ keys) (h0 : valuesCount m (keyBody k) ≠ 0) :
    4 + 4 * valuesCount m (keyBody k) ≤ getInt32Size m (listAddr m k) :=
  (checkSize_ok_iff.mp (hh.list k hk h0).2).2

/-- The list is in a cell of the same size, -/
theorem Framed.list_size (hh : Hive keys m) (hf : Framed keys m m') (hk : k ∈ keys)
    (h0 : valuesCount m (keyBody k) ≠ 0) :
    getInt32Size m' (listAddr m k) = getInt32Size m (listAddr m k) := by
  have hroom := hh.list_room hk h0
  refine getInt32Size_congr (Mem.word_congr fun x hx => ?_)
  exact hf.list k hk h0 _ (by omega) (by omega)

/-- and has the same values in the same order. -/
theorem Framed.valueAt_eq (hh : Hive keys m) (hf : Framed keys m m') (hk : k ∈ keys)
    (hi : i < valuesCount m (keyBody k)) : valueAt m' k i = valueAt m k i := by
  have h0 : valuesCount m (keyBody k) ≠ 0 := by omega
  have hroom := hh.list_room hk h0
  unfold valueAt valueCell
  rw [hf.valuesList_eq hh hk, hh.list_body hk h0]
  refine Mem.word_congr fun x hx => ?_
  exact hf.list k hk h0 _ (by omega) (by omega)

/-- A value reads as before, but for its data. -/
theorem Framed.sameValue (hh : Hive keys m) (hf : Framed keys m m') (hk : k ∈ keys)
    (hi : i < valuesCount m (keyBody k)) : SameValue m m' k i := by
  obtain ⟨-, hsize, -⟩ := checkValue_ok_iff.mp (hh.value k hk i hi)
  have hbody := hh.value_body hk hi
  have hword : ∀ o n, o + n ≤ 24 → (o + n ≤ 12 ∨ 16 ≤ o) →
      m'.word (valueAddr m k i + o) n = m.word (valueAddr m k i + o) n := by
    intro o n hn ho
    refine Mem.word_congr fun x hx => ?_
    exact hf.value k hk i hi _ (by omega) (by omega) (fun _ => by omega)
  have hsize' : getInt32Size m' (valueAddr m k i) = getInt32Size m (valueAddr m k i) := by
    have hzero := hword 0 4 (by norm_num) (by norm_num)
    rw [Nat.add_zero] at hzero
    exact getInt32Size_congr hzero
  have hnamelen : valueNameLength m' (valueBody m k i) = valueNameLength m (valueBody m k i) := by
    unfold valueNameLength
    rw [hbody, Nat.add_assoc]
    exact hword 6 2 (by norm_num) (by norm_num)
  have hsig : m'.word (valueBody m k i) 2 = m.word (valueBody m k i) 2 := by
    rw [hbody]
    exact hword 4 2 (by norm_num) (by norm_num)
  have hflags : valueCompName m' (valueBody m k i) = valueCompName m (valueBody m k i) := by
    unfold valueCompName
    rw [hbody, Nat.add_assoc, hword 20 2 (by norm_num) (by norm_num)]
  refine ⟨hf.valueAt_eq hh hk hi, hsize', ?_, ?_, ?_, ?_, fun hspecial => ⟨?_, ?_⟩⟩
  · unfold checkValue checkCell checkSize
    rw [hsize', hnamelen, hsig]
  · unfold valueName
    rw [hnamelen, hflags]
    refine storedName_congr _ fun x hx => ?_
    exact hf.value k hk i hi _ (by omega) (by omega) (fun _ => by omega)
  · unfold valueDataLength
    rw [hbody, Nat.add_assoc]
    exact hword 8 4 (by norm_num) (by norm_num)
  · unfold valueType
    rw [hbody, Nat.add_assoc]
    exact hword 16 4 (by norm_num) (by norm_num)
  · unfold valueDataCell
    refine Mem.word_congr fun x hx => ?_
    refine hf.value k hk i hi _ (by omega) (by omega) fun htrue => ?_
    rw [hspecial] at htrue
    cases htrue
  · refine getInt32Size_congr (Mem.word_congr fun x hx => ?_)
    exact hf.data k hk i hi hspecial _ (by omega) (by omega)

end Framed

/-! ## Queries -/

/-- The cells of the values, by their numbers. -/
theorem valueCells_eq (m : Mem) (key : ℕ) :
    valueCells m (cellBody (valuesList m (keyBody key))) (valuesCount m (keyBody key)) =
      (List.range (valuesCount m (keyBody key))).map (valueAt m key) := rfl

/-- What a query finds is a value of the key. -/
theorem namedValue_eq_some {m : Mem} {key cell : ℕ} {name : List UInt16}
    (h : namedValue m key name = some cell) :
    ∃ i < valuesCount m (keyBody key), valueAt m key i = cell := by
  obtain ⟨i, hi, rfl⟩ := List.mem_map.mp (List.mem_of_find?_eq_some h)
  exact ⟨i, List.mem_range.mp hi, rfl⟩

section Queries

variable {keys : Set ℕ} {m m' : Mem} {k : ℕ}

/-- Its data are where they were. -/
theorem SameValue.valueData_eq {i : ℕ} (hs : SameValue m m' k i) :
    valueData m' (valueBody m k i) = valueData m (valueBody m k i) := by
  have hspecial : isSpecial m' (valueBody m k i) = isSpecial m (valueBody m k i) := by
    unfold isSpecial
    rw [hs.length]
  unfold valueData
  rw [hspecial, hs.length]
  cases hcase : isSpecial m (valueBody m k i) with
  | true => rw [if_pos rfl, if_pos rfl]
  | false =>
      obtain ⟨hcell, hsize⟩ := hs.data hcase
      unfold dataAddr at hsize
      rw [hcell, hsize]

/-- **A query returns the same place**, length and type. -/
theorem Framed.queryValue_eq (hh : Hive keys m) (hf : Framed keys m m') (hk : k ∈ keys)
    (name : List UInt16) : queryValue m' k name = queryValue m k name := by
  have hcells : valueCells m' (cellBody (valuesList m' (keyBody k))) (valuesCount m' (keyBody k)) =
      valueCells m (cellBody (valuesList m (keyBody k))) (valuesCount m (keyBody k)) := by
    rw [valueCells_eq, valueCells_eq, hf.valuesCount_eq hh hk]
    exact List.map_congr_left fun i hi => hf.valueAt_eq hh hk (List.mem_range.mp hi)
  have hsame : ∀ cell ∈ valueCells m (cellBody (valuesList m (keyBody k))) (valuesCount m (keyBody k)),
      (isValueNamed m' name cell ↔ isValueNamed m name cell) ∧
        valueData m' (cellBody cell) = valueData m (cellBody cell) ∧
        valueDataLength m' (cellBody cell) = valueDataLength m (cellBody cell) ∧
        valueType m' (cellBody cell) = valueType m (cellBody cell) := by
    intro cell hcell
    obtain ⟨i, hi, hcell⟩ := List.mem_map.mp hcell
    obtain rfl : valueAt m k i = cell := hcell
    have hs := hf.sameValue hh hk (List.mem_range.mp hi)
    refine ⟨?_, hs.valueData_eq, hs.length, hs.type⟩
    have hcheck := hs.check
    have hname := hs.name
    unfold valueBody valueAddr at hcheck
    unfold valueBody at hname
    unfold isValueNamed
    rw [hcheck, hname]
  have hfind : (valueCells m (cellBody (valuesList m (keyBody k))) (valuesCount m (keyBody k))).find?
        (fun cell => decide (isValueNamed m' name cell)) =
      (valueCells m (cellBody (valuesList m (keyBody k))) (valuesCount m (keyBody k))).find?
        (fun cell => decide (isValueNamed m name cell)) :=
    List.find?_congr fun cell hcell => decide_eq_decide.mpr (hsame cell hcell).1
  unfold queryValue valueList
  simp only [bind_assoc, pure_bind]
  rw [(hf.sameNode hh hk).check, hcells, hfind, hf.valuesCount_eq hh hk, hf.valuesList_eq hh hk]
  by_cases h0 : valuesCount m (keyBody k) = 0
  · unfold refuse
    rw [if_pos (Or.inl h0), error_bind, error_bind]
  · have hsize : checkSize m' (cellAddr (valuesList m (keyBody k))) (4 * valuesCount m (keyBody k)) =
        checkSize m (cellAddr (valuesList m (keyBody k))) (4 * valuesCount m (keyBody k)) := by
      have hlist := hf.list_size hh hk h0
      unfold listAddr at hlist
      unfold checkSize
      rw [hlist]
    rw [hsize]
    cases hcell : (valueCells m (cellBody (valuesList m (keyBody k))) (valuesCount m (keyBody k))).find?
      (fun cell => decide (isValueNamed m name cell)) with
    | none => rfl
    | some cell =>
        obtain ⟨-, hdata, hlength, htype⟩ := hsame cell (List.mem_of_find?_eq_some hcell)
        dsimp only
        rw [hdata, hlength, htype]

end Queries

/-! ## Hives that differ elsewhere -/

section Step

variable {keys : Set ℕ} {m m' : Mem} {k : ℕ}

/-- The cells of a hive are where they were, apart from indexes. -/
theorem Framed.span_eq (hh : Hive keys m) (hf : Framed keys m m')
    (hspan : ∀ k ∈ keys, subKeyCount m' (keyBody k) ≠ 0 →
      subKeyCount m (keyBody k) ≠ 0 ∧ indexSpan m' k = indexSpan m k)
    {p : Part} (hp : p.Of keys m') : p.Of keys m ∧ p.span m' = p.span m := by
  have hsame : ∀ {k i : ℕ}, k ∈ keys → i < valuesCount m' (keyBody k) →
      i < valuesCount m (keyBody k) ∧ SameValue m m' k i ∧ valueBody m' k i = valueBody m k i := by
    intro k i hk hi
    rw [hf.valuesCount_eq hh hk] at hi
    have hs := hf.sameValue hh hk hi
    refine ⟨hi, hs, ?_⟩
    unfold valueBody
    rw [hs.cell]
  cases p with
  | node k =>
      refine ⟨hp, ?_⟩
      unfold Part.span nodeSpan
      dsimp only
      rw [(hf.sameNode hh hp).size]
  | index k => exact ⟨⟨hp.1, (hspan k hp.1 hp.2).1⟩, (hspan k hp.1 hp.2).2⟩
  | list k =>
      have h0 := hp.2
      rw [hf.valuesCount_eq hh hp.1] at h0
      refine ⟨⟨hp.1, h0⟩, ?_⟩
      unfold Part.span
      dsimp only
      rw [hf.listAddr_eq hh hp.1, hf.list_size hh hp.1 h0]
  | value k i =>
      obtain ⟨hi, hs, -⟩ := hsame hp.1 hp.2
      refine ⟨⟨hp.1, hi⟩, ?_⟩
      have haddr : valueAddr m' k i = valueAddr m k i := by
        unfold valueAddr
        rw [hs.cell]
      unfold Part.span
      dsimp only
      rw [haddr, hs.size]
  | data k i =>
      obtain ⟨hi, hs, hbody⟩ := hsame hp.1 hp.2.1
      have hspecial := hp.2.2
      unfold isSpecial at hspecial
      rw [hbody, hs.length] at hspecial
      refine ⟨⟨hp.1, hi, hspecial⟩, ?_⟩
      unfold Part.span dataAddr
      dsimp only
      rw [hbody, hs.length, (hs.data hspecial).1]

/-- **The image is a hive again**, if its indexes are sound. -/
theorem Hive.of_framed (hh : Hive keys m) (hf : Framed keys m m') (ht : KeyTree keys m')
    (hspan : ∀ k ∈ keys, subKeyCount m' (keyBody k) ≠ 0 →
      subKeyCount m (keyBody k) ≠ 0 ∧ indexSpan m' k = indexSpan m k) : Hive keys m' where
  node := ht.node
  index := ht.index
  closed := ht.closed
  distinct := ht.distinct
  list k hk h0 := by
    rw [hf.valuesCount_eq hh hk] at h0 ⊢
    obtain ⟨hlist, hsize⟩ := hh.list k hk h0
    rw [hf.valuesList_eq hh hk, hf.listAddr_eq hh hk]
    refine ⟨hlist, ?_⟩
    unfold checkSize at hsize ⊢
    rw [hf.list_size hh hk h0]
    exact hsize
  value k hk i hi := by
    rw [hf.valuesCount_eq hh hk] at hi
    have hs := hf.sameValue hh hk hi
    have hcheck := hs.check
    rw [hh.value k hk i hi] at hcheck
    unfold valueAddr valueBody at hcheck ⊢
    rw [hs.cell]
    exact hcheck
  above p hp := by
    obtain ⟨hp', hspan'⟩ := hf.span_eq hh hspan hp
    rw [hspan']
    exact hh.above p hp'
  apart p q hp hq hne := by
    obtain ⟨hp', hpspan⟩ := hf.span_eq hh hspan hp
    obtain ⟨hq', hqspan⟩ := hf.span_eq hh hspan hq
    rw [hpspan, hqspan]
    exact hh.apart p q hp' hq' hne

/-- Two images have the same indexes. -/
structure SameIndexes (keys : Set ℕ) (m m' : Mem) : Prop where
  count : ∀ k ∈ keys, subKeyCount m' (keyBody k) = subKeyCount m (keyBody k)
  index : ∀ k ∈ keys, subKeyCount m (keyBody k) ≠ 0 → ∀ x, indexAddr m k ≤ x →
    x < indexAddr m k + getInt32Size m (indexAddr m k) → m' x = m x

/-- The index of a key is where it was. -/
theorem Framed.indexAddr_eq (hh : Hive keys m) (hf : Framed keys m m') (hk : k ∈ keys) :
    indexAddr m' k = indexAddr m k := by
  unfold indexAddr
  rw [(hf.sameNode hh hk).list]

/-- Keys with the same indexes have the same subkeys. -/
theorem SameIndexes.childKeys_eq (hh : Hive keys m) (hf : Framed keys m m')
    (hi : SameIndexes keys m m') (hk : k ∈ keys) : childKeys m' k = childKeys m k := by
  unfold childKeys
  rw [hi.count k hk]
  by_cases h0 : subKeyCount m (keyBody k) = 0
  · rw [if_pos h0, if_pos h0]
  · obtain ⟨-, -, -, hcells⟩ := index_congr (hh.index k hk h0).leaf (hi.index k hk h0)
    rw [if_neg h0, if_neg h0, hf.indexAddr_eq hh hk, hcells]

/-- The lists of subkeys are the same. -/
theorem SameIndexes.subkeys_eq (hh : Hive keys m) (hf : Framed keys m m')
    (hi : SameIndexes keys m m') (hk : k ∈ keys) : subkeys m' k = subkeys m k := by
  unfold subkeys
  rw [hi.childKeys_eq hh hf hk]
  refine List.map_congr_left fun c hc => ?_
  rw [(hf.sameNode hh (hh.closed k hk c hc)).name]

/-- An image that differs elsewhere and has the same indexes is a hive. -/
theorem SameIndexes.hive (hh : Hive keys m) (hf : Framed keys m m') (hi : SameIndexes keys m m') :
    Hive keys m' := by
  have hspan : ∀ k ∈ keys, subKeyCount m (keyBody k) ≠ 0 → indexSpan m' k = indexSpan m k := by
    intro k hk h0
    obtain ⟨hsize, -⟩ := index_congr (hh.index k hk h0).leaf (hi.index k hk h0)
    unfold indexSpan
    rw [hf.indexAddr_eq hh hk, hsize]
  have hnodes : ∀ k ∈ keys, nodeSpan m' k = nodeSpan m k := by
    intro k hk
    unfold nodeSpan
    rw [(hf.sameNode hh hk).size]
  have ht := hh.keyTree
  refine hh.of_framed hf ?_ ?_
  · refine ⟨ht.addr, ?_, ?_, ?_, ?_, ?_, ?_, ?_⟩
    · intro k hk
      rw [(hf.sameNode hh hk).check]
      exact hh.node k hk
    · intro k hk h0
      rw [hi.count k hk] at h0
      have hindex := hh.index k hk h0
      obtain ⟨-, hleaf, hcount, -⟩ := index_congr hindex.leaf (hi.index k hk h0)
      refine ⟨?_, ?_, ?_, ?_⟩
      · rw [(hf.sameNode hh hk).list]
        exact hindex.list
      · rw [hf.indexAddr_eq hh hk]
        exact hindex.addr
      · rw [hf.indexAddr_eq hh hk]
        exact hleaf
      · rw [hf.indexAddr_eq hh hk, hcount, hi.count k hk]
        exact hindex.count
    · intro k hk c hc
      rw [hi.childKeys_eq hh hf hk] at hc
      exact hh.closed k hk c hc
    · intro k hk
      rw [hi.subkeys_eq hh hf hk]
      exact hh.distinct k hk
    · intro k hk k' hk' hne
      rw [hnodes k hk, hnodes k' hk']
      exact ht.node_node k hk k' hk' hne
    · intro k hk k' hk' h0
      rw [hi.count k' hk'] at h0
      rw [hnodes k hk, hspan k' hk' h0]
      exact ht.node_index k hk k' hk' h0
    · intro k hk k' hk' hne h0 h0'
      rw [hi.count k hk] at h0
      rw [hi.count k' hk'] at h0'
      rw [hspan k hk h0, hspan k' hk' h0']
      exact ht.index_index k hk k' hk' hne h0 h0'
  · intro k hk h0
    rw [hi.count k hk] at h0
    exact ⟨h0, hspan k hk h0⟩

/-- Every lookup finds the same key. -/
theorem SameIndexes.findKey_eq (hh : Hive keys m) (hf : Framed keys m m')
    (hi : SameIndexes keys m m') (hk : k ∈ keys) {name : List UInt16} (hname : backslash ∉ name) :
    findKey m' k name = findKey m k name := by
  refine findKey_eq_of_find_eq hh.keyTree (hi.hive hh hf).keyTree hk hname ?_
  unfold Subkeys.find
  rw [hi.subkeys_eq hh hf hk]

end Step

/-! ## A test -/

section Check

variable (ks : List ℕ) (m : Mem)

/-- The cells of a key, in the order in which they stand in a small hive. -/
def keyParts (key : ℕ) : List Part :=
  let indexes := if subKeyCount m (keyBody key) = 0 then [] else [Part.index key]
  let lists := if valuesCount m (keyBody key) = 0 then [] else [Part.list key]
  let values := (List.range (valuesCount m (keyBody key))).flatMap fun i =>
    Part.value key i :: if isSpecial m (valueBody m key i) then [] else [Part.data key i]
  Part.node key :: (indexes ++ lists ++ values)

/-- The conditions of an allocated hive on one key. -/
def KeyCheck (k : ℕ) : Prop :=
  checkNode m k (keyBody k) = .ok () ∧
    (subKeyCount m (keyBody k) ≠ 0 → subKeyList m (keyBody k) ≠ noCell ∧
      checkLeaf m (indexAddr m k) (keyBody (indexAddr m k)) = .ok ()) ∧
    (∀ c ∈ childKeys m k, c ∈ ks) ∧ Subkeys.Distinct (subkeys m k) ∧
    (valuesCount m (keyBody k) ≠ 0 → valuesList m (keyBody k) ≠ noCell ∧
      checkSize m (listAddr m k) (4 * valuesCount m (keyBody k)) = .ok ()) ∧
    (∀ i < valuesCount m (keyBody k), checkValue m (valueAddr m k i) (valueBody m k i) = .ok ()) ∧
    ∀ i < valuesCount m (keyBody k), isSpecial m (valueBody m k i) = false →
      4 ≤ getInt32Size m (dataAddr m k i) ∧ getInt32Size m (dataAddr m k i) < 2 ^ 31

instance (k : ℕ) : Decidable (KeyCheck ks m k) := inferInstanceAs (Decidable (_ ∧ _))

/-- The conditions of an allocated hive on the keys of a list, whose cells stand one behind the
other. -/
def AllocatedCheck (size : ℕ) : Prop :=
  (∀ k ∈ ks, KeyCheck ks m k) ∧
    (∀ s ∈ (ks.flatMap (keyParts m)).map (Part.cell m), 0x1000 ≤ s.1 ∧ s.1 + s.2 ≤ size) ∧
    ((ks.flatMap (keyParts m)).map (Part.cell m)).IsChain fun s t => s.1 + s.2 ≤ t.1

instance (size : ℕ) : Decidable (AllocatedCheck ks m size) := inferInstanceAs (Decidable (_ ∧ _))

variable {ks m}

/-- The cells of the keys of a list are listed. -/
theorem Part.Of.mem_keyParts {p : Part} (hp : p.Of {k | k ∈ ks} m) :
    p ∈ ks.flatMap (keyParts m) := by
  rw [List.mem_flatMap]
  cases p with
  | node k => exact ⟨k, hp, by simp [keyParts]⟩
  | index k => exact ⟨k, hp.1, by simp [keyParts, hp.2]⟩
  | list k => exact ⟨k, hp.1, by simp [keyParts, hp.2]⟩
  | value k i => exact ⟨k, hp.1, by simp [keyParts, hp.2]⟩
  | data k i => exact ⟨k, hp.1, by simp [keyParts, hp.2.1, hp.2.2]⟩

/-- Cells that stand one behind the other do not overlap. -/
theorem apart_of_isChain {ps : List Part}
    (h : (ps.map (Part.cell m)).IsChain fun s t => s.1 + s.2 ≤ t.1) {p q : Part} (hp : p ∈ ps)
    (hq : q ∈ ps) (hne : p ≠ q) : Apart (p.cell m) (q.cell m) := by
  have htrans : IsTrans (ℕ × ℕ) fun s t => s.1 + s.2 ≤ t.1 := ⟨fun s t u h₁ h₂ => by omega⟩
  have hsymm : Std.Symm fun p q : Part => Apart (p.cell m) (q.cell m) := ⟨fun _ _ h => h.symm⟩
  rw [List.isChain_iff_pairwise, List.pairwise_map] at h
  have hpairwise : ps.Pairwise fun p q => Apart (p.cell m) (q.cell m) := h.imp fun hle => Or.inl hle
  exact hpairwise.forall hp hq hne

/-- **The test is sound.** -/
theorem AllocatedCheck.allocatedHive {size : ℕ} (h : AllocatedCheck ks m size) :
    AllocatedHive {k | k ∈ ks} size m := by
  obtain ⟨hkeys, hinside, hchain⟩ := h
  refine ⟨?_, ?_, ?_, ?_, ?_, ?_, ?_, ?_, ?_⟩
  · intro k hk
    exact (hkeys k hk).1
  · intro k hk h0
    exact (hkeys k hk).2.1 h0
  · intro k hk
    exact (hkeys k hk).2.2.1
  · intro k hk
    exact (hkeys k hk).2.2.2.1
  · intro k hk
    exact (hkeys k hk).2.2.2.2.1
  · intro k hk
    exact (hkeys k hk).2.2.2.2.2.1
  · intro k hk
    exact (hkeys k hk).2.2.2.2.2.2
  · intro p hp
    exact hinside _ (List.mem_map_of_mem hp.mem_keyParts)
  · intro p q hp hq hne
    exact apart_of_isChain hchain hp.mem_keyParts hq.mem_keyParts hne

end Check

end Ntloader.Reg
