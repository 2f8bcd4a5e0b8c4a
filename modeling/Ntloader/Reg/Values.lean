import Ntloader.Reg.Lookup

/-!
# Values of keys

A key has a list of values; a value has a name, a type and data, which stand in a cell of their own
or, up to four bytes, in the value itself.

* `enumValues` — libnt/reg.c, reg_enum_values.
* `queryValue` — reg_query_value.
* `queryValue_ok_iff` — what a successful query says.
* `DataInCell`, `queryValue_inCell_iff` — when the data that are returned stay in their cell.
-/

namespace Ntloader.Reg

open Ntloader.Lib

/-! ## Value cells -/

section KeyValue

variable (m : Mem) (vk : ℕ)

/-- Source: include/reg.h, CM_KEY_VALUE, NameLength -/
def valueNameLength : ℕ := m.word (vk + 2) 2

/-- Source: include/reg.h, CM_KEY_VALUE, DataLength -/
def valueDataLength : ℕ := m.word (vk + 4) 4

/-- Source: include/reg.h, CM_KEY_VALUE, Data -/
def valueDataCell : ℕ := m.word (vk + 8) 4

/-- Source: include/reg.h, CM_KEY_VALUE, Type -/
def valueType : ℕ := m.word (vk + 12) 4

/-- Source: include/reg.h, CM_KEY_VALUE, Flags & VALUE_COMP_NAME -/
def valueCompName : Bool := (m.word (vk + 16) 2).testBit 0

/-- The name of a value.
Source: libnt/reg.c, reg_enum_values and reg_query_value, the two branches on VALUE_COMP_NAME -/
def valueName : List UInt16 := storedName m (valueCompName m vk) (vk + 20) (valueNameLength m vk)

/-- The data stand in the value itself.
Source: libnt/reg.c, `vk->DataLength & CM_KEY_VALUE_SPECIAL_SIZE` -/
def isSpecial : Bool := (valueDataLength m vk).testBit 31

end KeyValue

/-- The tests of a value.
Source: libnt/reg.c, `find value node`, with offsetof(CM_KEY_VALUE, Name[0]) = 20 -/
def checkValue (m : Mem) (off vk : ℕ) : Except RegErr Unit :=
  checkCell m off vk 20 [keyValueSignature] (valueNameLength m vk)

/-- What a value cell that passes its check has: the sign, the room for its name, and the signature. -/
theorem checkValue_ok_iff {m : Mem} {off vk : ℕ} :
    checkValue m off vk = .ok () ↔
      getInt32Size m off < 2 ^ 31 ∧ 24 + valueNameLength m vk ≤ getInt32Size m off ∧
        m.word vk 2 = keyValueSignature := by
  rw [checkValue, checkCell_ok_iff, List.mem_singleton]

/-- An entry of a list of values.
Source: libnt/reg.c, `list[i]` -/
def valueCell (m : Mem) (list i : ℕ) : ℕ := m.word (list + 4 * i) 4

/-! ## Enumeration -/

/-- The list of the values of a key, which has to have room for all of them.
Source: libnt/reg.c, reg_enum_values and reg_query_value, `go to key index` -/
def valueList (m : Mem) (nk : ℕ) : Except RegErr ℕ := do
  checkSize m (cellAddr (valuesList m nk)) (4 * valuesCount m nk)
  return cellBody (valuesList m nk)

/-- What `reg_enum_values` writes to `Name`, whether the name did not fit, and the type.
Source: libnt/reg.c, reg_enum_values -/
def enumValues (m : Mem) (key index nameLength : ℕ) : Except RegErr (EnumName × ℕ) := do
  let nk := keyBody key
  checkNode m key nk
  refuse (valuesCount m nk ≤ index ∨ valuesList m nk = noCell) .fileNotFound
  let list ← valueList m nk
  let cell := valueCell m list index
  let vk := cellBody cell
  checkValue m (cellAddr cell) vk
  return (enumName (valueName m vk) nameLength, valueType m vk)

/-! ## Queries -/

/-- What `reg_query_value` returns: where the data are, their length and their type. -/
structure ValueData where
  data : Option ℕ
  length : ℕ
  type : ℕ
  deriving DecidableEq

/-- The entry of a list of values is a value of the given name.
Source: libnt/reg.c, reg_query_value, the body of the loop over i up to the name -/
def isValueNamed (m : Mem) (name : List UInt16) (cell : ℕ) : Prop :=
  checkValue m (cellAddr cell) (cellBody cell) = .ok () ∧
    sameName (valueName m (cellBody cell)) name

instance (m : Mem) (name : List UInt16) (cell : ℕ) : Decidable (isValueNamed m name cell) :=
  inferInstanceAs (Decidable (_ ∧ _))

/-- Where the data of a value are. The length of a cell of data is compared as an unsigned number.
Source: libnt/reg.c, reg_query_value -/
def valueData (m : Mem) (vk : ℕ) : Except RegErr (Option ℕ) :=
  if isSpecial m vk then
    let datalen := valueDataLength m vk % 2 ^ 31
    if datalen = 4 ∨ datalen = 2 ∨ datalen = 1 then .ok (some (vk + 8))
    else if datalen = 0 then .ok none
    else .error .badArgument
  else if getInt32Size m (cellAddr (valueDataCell m vk)) < valueDataLength m vk then
    .error .badArgument
  else .ok (some (cellBody (valueDataCell m vk)))

/-- The cells that a list of values lists. -/
def valueCells (m : Mem) (list count : ℕ) : List ℕ := (List.range count).map (valueCell m list)

/-- Source: libnt/reg.c, reg_query_value -/
def queryValue (m : Mem) (key : ℕ) (name : List UInt16) : Except RegErr ValueData := do
  let nk := keyBody key
  checkNode m key nk
  refuse (valuesCount m nk = 0 ∨ valuesList m nk = noCell) .fileNotFound
  let list ← valueList m nk
  match (valueCells m list (valuesCount m nk)).find? (isValueNamed m name ·) with
  | none => throw .fileNotFound
  | some cell =>
      let vk := cellBody cell
      let data ← valueData m vk
      return ⟨data, valueDataLength m vk % 2 ^ 31, valueType m vk⟩

/-- A query gives the data of the first value of the list with the name. -/
theorem queryValue_ok_iff {m : Mem} {key : ℕ} {name : List UInt16} {r : ValueData} :
    queryValue m key name = .ok r ↔
      checkNode m key (keyBody key) = .ok () ∧ valuesCount m (keyBody key) ≠ 0 ∧
        valuesList m (keyBody key) ≠ noCell ∧
        checkSize m (cellAddr (valuesList m (keyBody key))) (4 * valuesCount m (keyBody key)) = .ok () ∧
        ∃ cell data, (valueCells m (cellBody (valuesList m (keyBody key)))
            (valuesCount m (keyBody key))).find? (isValueNamed m name ·) = some cell ∧
          valueData m (cellBody cell) = .ok data ∧
          r = ⟨data, valueDataLength m (cellBody cell) % 2 ^ 31, valueType m (cellBody cell)⟩ := by
  simp only [queryValue, valueList, bind_eq_ok_iff, refuse_ok_iff, not_or]
  constructor
  · rintro ⟨⟨⟩, hnode, ⟨⟩, ⟨hcount, hlist⟩, list, ⟨⟨⟩, hsize, hreturn⟩, hmatch⟩
    cases hreturn
    rcases hfind : (valueCells m (cellBody (valuesList m (keyBody key)))
      (valuesCount m (keyBody key))).find? (isValueNamed m name ·) with _ | cell
    · rw [hfind] at hmatch
      cases hmatch
    · rw [hfind] at hmatch
      obtain ⟨data, hdata, hr⟩ := bind_eq_ok_iff.mp hmatch
      cases hr
      exact ⟨hnode, hcount, hlist, hsize, cell, data, rfl, hdata, rfl⟩
  · rintro ⟨hnode, hcount, hlist, hsize, cell, data, hfind, hdata, rfl⟩
    refine ⟨(), hnode, (), ⟨hcount, hlist⟩, _, ⟨(), hsize, rfl⟩, ?_⟩
    rw [hfind]
    exact bind_eq_ok_iff.mpr ⟨data, hdata, rfl⟩

/-! ## Data in their cells -/

/-- The value of a name, as a query finds it.
Source: libnt/reg.c, reg_query_value, the loop over i -/
def namedValue (m : Mem) (key : ℕ) (name : List UInt16) : Option ℕ :=
  (valueCells m (cellBody (valuesList m (keyBody key))) (valuesCount m (keyBody key))).find?
    (isValueNamed m name ·)

/-- A run of bytes lies in a cell in use, behind its size. -/
structure InCell (m : Mem) (c a n : ℕ) : Prop where
  used : getInt32Size m c < 2 ^ 31
  start : c + 4 ≤ a
  stop : a + n ≤ c + getInt32Size m c

/-- The cell that the data of a value stand in: the value itself, or a cell of their own. -/
def holder (m : Mem) (cell : ℕ) : ℕ :=
  if isSpecial m (cellBody cell) then cell else valueDataCell m (cellBody cell)

/-- The data that a query returns lie in their cell. -/
def DataInCell (m : Mem) (key : ℕ) (name : List UInt16) (r : ValueData) : Prop :=
  ∃ cell a, namedValue m key name = some cell ∧ r.data = some a ∧
    InCell m (cellAddr (holder m cell)) a r.length

/-- A value whose data are safe to write: the place of its data does not wrap, and a cell of data is in
use and has room for its own size in front of them. -/
structure Roomy (m : Mem) (cell : ℕ) : Prop where
  addr : holder m cell + 0x1000 < 2 ^ 32
  used : isSpecial m (cellBody cell) = false →
    getInt32Size m (cellAddr (valueDataCell m (cellBody cell))) < 2 ^ 31
  room : isSpecial m (cellBody cell) = false → 4 + valueDataLength m (cellBody cell) ≤
    getInt32Size m (cellAddr (valueDataCell m (cellBody cell)))

/-- What a query returns, in terms of the value that it finds. -/
theorem queryValue_namedValue {m : Mem} {key : ℕ} {name : List UInt16} {r : ValueData}
    (h : queryValue m key name = .ok r) :
    ∃ cell data, namedValue m key name = some cell ∧ isValueNamed m name cell ∧
      valueData m (cellBody cell) = .ok data ∧
      r = ⟨data, valueDataLength m (cellBody cell) % 2 ^ 31, valueType m (cellBody cell)⟩ := by
  obtain ⟨-, -, -, -, cell, data, hfind, hdata, hr⟩ := queryValue_ok_iff.mp h
  have hnamed : isValueNamed m name cell := by simpa using List.find?_some hfind
  exact ⟨cell, data, hfind, hnamed, hdata, hr⟩

/-- Data in the value itself. -/
theorem valueData_of_isSpecial {m : Mem} {vk : ℕ} {data : Option ℕ} (hspecial : isSpecial m vk = true)
    (hlen : valueDataLength m vk % 2 ^ 31 ≠ 0) (h : valueData m vk = .ok data) :
    data = some (vk + 8) ∧ valueDataLength m vk % 2 ^ 31 ≤ 4 := by
  rw [valueData, if_pos hspecial] at h
  dsimp only at h
  by_cases hshort : valueDataLength m vk % 2 ^ 31 = 4 ∨ valueDataLength m vk % 2 ^ 31 = 2 ∨
      valueDataLength m vk % 2 ^ 31 = 1
  · rw [if_pos hshort] at h
    cases h
    exact ⟨rfl, by omega⟩
  · rw [if_neg hshort, if_neg hlen] at h
    cases h

/-- Data in a cell of their own. -/
theorem valueData_of_not_isSpecial {m : Mem} {vk : ℕ} {data : Option ℕ}
    (hspecial : isSpecial m vk = false) (h : valueData m vk = .ok data) :
    data = some (cellBody (valueDataCell m vk)) ∧
      valueDataLength m vk ≤ getInt32Size m (cellAddr (valueDataCell m vk)) := by
  rw [valueData, hspecial, if_neg (by simp)] at h
  by_cases hshort : getInt32Size m (cellAddr (valueDataCell m vk)) < valueDataLength m vk
  · rw [if_pos hshort] at h
    cases h
  · rw [if_neg hshort] at h
    cases h
    exact ⟨rfl, not_lt.mp hshort⟩

/-- Data outside a value have a length of 31 bits. -/
theorem valueDataLength_mod {m : Mem} {vk : ℕ} (hspecial : isSpecial m vk = false) :
    valueDataLength m vk % 2 ^ 31 = valueDataLength m vk := by
  have hlt : valueDataLength m vk < 2 ^ 32 := by
    have h := Mem.word_lt m (vk + 4) 4
    rw [valueDataLength]
    omega
  have hbit := Nat.testBit_eq_decide_div_mod_eq (x := valueDataLength m vk) (i := 31)
  rw [isSpecial] at hspecial
  rw [hspecial] at hbit
  have hdiv := of_decide_eq_false hbit.symm
  omega

/-- A run of bytes behind the start of a cell's contents lies in the cell exactly if the place of the
cell does not wrap and the cell has room for it. -/
theorem inCell_cellBody_iff {m : Mem} {cell o n : ℕ} (hcell : cell < 2 ^ 32) :
    InCell m (cellAddr cell) (cellBody cell + o) n ↔
      cell + 0x1000 < 2 ^ 32 ∧ getInt32Size m (cellAddr cell) < 2 ^ 31 ∧
        4 + o + n ≤ getInt32Size m (cellAddr cell) := by
  by_cases haddr : cell + 0x1000 < 2 ^ 32
  · constructor
    · rintro ⟨hused, -, hstop⟩
      rw [cellAddr_of_lt haddr] at hstop hused ⊢
      rw [cellBody] at hstop
      exact ⟨haddr, hused, by omega⟩
    · rintro ⟨-, hused, hroom⟩
      rw [cellAddr_of_lt haddr] at hused hroom ⊢
      exact ⟨hused, by rw [cellBody]; omega, by rw [cellBody]; omega⟩
  · constructor
    · rintro ⟨hused, -, hstop⟩
      have hwrap : cellAddr cell = cell + 0x1000 - 2 ^ 32 := by
        rw [cellAddr]
        omega
      rw [cellBody] at hstop
      omega
    · rintro ⟨hlt, -, -⟩
      exact absurd hlt haddr

/-- The cell of data has 32 bits, -/
theorem valueDataCell_lt (m : Mem) (vk : ℕ) : valueDataCell m vk < 2 ^ 32 := by
  have h := Mem.word_lt m (vk + 8) 4
  rw [valueDataCell]
  omega

/-- and so has a value that is found. -/
theorem namedValue_lt {m : Mem} {key cell : ℕ} {name : List UInt16}
    (h : namedValue m key name = some cell) : cell < 2 ^ 32 := by
  obtain ⟨i, -, rfl⟩ := List.mem_map.mp (List.mem_of_find?_eq_some h)
  have hlt := Mem.word_lt m (cellBody (valuesList m (keyBody key)) + 4 * i) 4
  rw [valueCell]
  omega

/-- **Data stay in their cell** exactly if the place of the data does not wrap, and a cell of data is
in use and four bytes longer than the data. -/
theorem queryValue_inCell_iff {m : Mem} {key : ℕ} {name : List UInt16} {r : ValueData}
    (h : queryValue m key name = .ok r) (hlen : r.length ≠ 0) :
    DataInCell m key name r ↔ ∀ cell, namedValue m key name = some cell → Roomy m cell := by
  obtain ⟨cell, data, hcell, hnamed, hdata, rfl⟩ := queryValue_namedValue h
  obtain ⟨hused, hroom, -⟩ := checkValue_ok_iff.mp hnamed.1
  have hforall : (∀ c, namedValue m key name = some c → Roomy m c) ↔ Roomy m cell :=
    ⟨fun hc => hc cell hcell, fun hc c hc' => by rw [hcell] at hc'; cases hc'; exact hc⟩
  rw [hforall]
  cases hspecial : isSpecial m (cellBody cell) with
  | true =>
      obtain ⟨rfl, hfour⟩ := valueData_of_isSpecial hspecial hlen hdata
      have hholder : holder m cell = cell := by rw [holder, if_pos hspecial]
      have hin := @inCell_cellBody_iff m cell 8 (valueDataLength m (cellBody cell) % 2 ^ 31)
        (namedValue_lt hcell)
      constructor
      · rintro ⟨c, a, hc, ha, hdin⟩
        rw [hcell] at hc
        cases hc
        cases ha
        rw [hholder] at hdin
        refine ⟨?_, fun hfalse => ?_, fun hfalse => ?_⟩
        · rw [hholder]
          exact (hin.mp hdin).1
        · rw [hspecial] at hfalse
          cases hfalse
        · rw [hspecial] at hfalse
          cases hfalse
      · rintro ⟨haddr, -, -⟩
        rw [hholder] at haddr
        refine ⟨cell, _, hcell, rfl, ?_⟩
        rw [hholder]
        exact hin.mpr ⟨haddr, hused, by omega⟩
  | false =>
      obtain ⟨rfl, -⟩ := valueData_of_not_isSpecial hspecial hdata
      have hholder : holder m cell = valueDataCell m (cellBody cell) := by
        rw [holder, hspecial, if_neg (by simp)]
      have hin := @inCell_cellBody_iff m _ 0 (valueDataLength m (cellBody cell))
        (valueDataCell_lt m (cellBody cell))
      rw [Nat.add_zero, Nat.add_zero] at hin
      constructor
      · rintro ⟨c, a, hc, ha, hdin⟩
        rw [hcell] at hc
        cases hc
        cases ha
        rw [hholder, valueDataLength_mod hspecial] at hdin
        obtain ⟨haddr, hdused, hdroom⟩ := hin.mp hdin
        exact ⟨by rw [hholder]; exact haddr, fun _ => hdused, fun _ => hdroom⟩
      · rintro ⟨haddr, hdused, hdroom⟩
        rw [hholder] at haddr
        refine ⟨cell, _, hcell, rfl, ?_⟩
        rw [hholder, valueDataLength_mod hspecial]
        exact hin.mpr ⟨haddr, hdused hspecial, hdroom hspecial⟩

/-- A key at 0x1020 with one value, which has no name, eight bytes of data, and a cell of the given
size for them. -/
def valueImage (size : ℕ) : Mem :=
  image [(0x1020, 4, 2 ^ 32 - 80), (0x1024, 2, keyNodeSignature), (0x1048, 4, 1), (0x104c, 4, 0x80),
    (0x1080, 4, 2 ^ 32 - 8), (0x1084, 4, 0xa0), (0x10a0, 4, 2 ^ 32 - 24),
    (0x10a4, 2, keyValueSignature), (0x10a8, 4, 8), (0x10ac, 4, 0xd0), (0x10d0, 4, 2 ^ 32 - size)]

/-- A value of eight bytes in a cell of 16. -/
theorem queryValue_inCell_iff_valueImage :
    DataInCell (valueImage 16) 0x1020 [] ⟨some 0x10d4, 8, 0⟩ ↔
      ∀ cell, namedValue (valueImage 16) 0x1020 [] = some cell → Roomy (valueImage 16) cell :=
  queryValue_inCell_iff (by decide +kernel) (by decide)

/-- A cell of eight bytes, of which four are its size, is taken for one with room for eight bytes of
data. -/
theorem not_dataInCell_valueImage :
    ¬∀ (m : Mem) (key : ℕ) (name : List UInt16) (r : ValueData),
      queryValue m key name = .ok r → r.length ≠ 0 → DataInCell m key name r := by
  intro h
  obtain ⟨cell, a, hcell, ha, hin⟩ :=
    h (valueImage 8) 0x1020 [] ⟨some 0x10d4, 8, 0⟩ (by decide +kernel) (by decide)
  rw [show namedValue (valueImage 8) 0x1020 [] = some 0xa0 by decide +kernel] at hcell
  cases hcell
  cases ha
  have hstop := hin.stop
  revert hstop
  decide +kernel

end Ntloader.Reg
