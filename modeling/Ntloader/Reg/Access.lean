import Ntloader.Lib.Traced
import Ntloader.Reg.Delete
import Ntloader.Reg.Open
import Ntloader.Reg.Values

/-!
# The bytes that the registry routines access

The routines once more, read by read and write by write. Each gives what its counterpart without
accesses gives, and the runs of bytes that it reads or writes on the way.

* `Access.findKey`, `Access.enumKeys`, … — the routines of libnt/reg.c with their accesses.
* `Access.findKey_value`, `Access.enumKeys_value`, … — their results are those of the routines.

Scope: a byte that the source reads twice in a row is listed once.
-/

namespace Ntloader.Reg.Access

open Ntloader.Lib Ntloader.Lib.Traced

/-! ## Cells -/

/-- Source: libnt/reg.c, get_int32_size -/
def getInt32Size (m : Mem) (off : ℕ) : Traced RegErr ℕ := do
  let size ← read m off 4
  return (2 ^ 32 - size) % 2 ^ 32

/-- The first two tests of a cell; the size is kept. -/
def checkSize (m : Mem) (off header : ℕ) : Traced RegErr ℕ := do
  let size ← getInt32Size m off
  Traced.refuse (2 ^ 31 ≤ size) .fileNotFound
  Traced.refuse (size < 4 + header) .badArgument
  return size

/-- All tests of a cell. -/
def checkCell (m : Mem) (off body header : ℕ) (signatures : List ℕ) (length : Traced RegErr ℕ) :
    Traced RegErr Unit := do
  let size ← checkSize m off header
  let signature ← read m body 2
  Traced.refuse (signature ∉ signatures) .badArgument
  let length ← length
  Traced.refuse (size < 4 + header + length) .badArgument

def checkNode (m : Mem) (off nk : ℕ) : Traced RegErr Unit :=
  checkCell m off nk 76 [keyNodeSignature] (read m (nk + 72) 2)

def checkLeaf (m : Mem) (off lh : ℕ) : Traced RegErr Unit :=
  checkCell m off lh 4 [keyHashLeaf, keyFastLeaf] do
    let count ← read m (lh + 2) 2
    return 8 * count

def checkValue (m : Mem) (off vk : ℕ) : Traced RegErr Unit :=
  checkCell m off vk 20 [keyValueSignature] (read m (vk + 2) 2)

/-- Refusing is the same with and without the record. -/
theorem refuse_value (c : Prop) [Decidable c] (e : RegErr) :
    (Traced.refuse c e).value = Reg.refuse c e := by
  rw [Traced.refuse, Reg.refuse]
  by_cases h : c
  · rw [if_pos h, if_pos h]
    rfl
  · rw [if_neg h, if_neg h]
    rfl

/-- The size that is read is the one of the model. -/
theorem getInt32Size_value (m : Mem) (off : ℕ) :
    (getInt32Size m off).value = .ok (Reg.getInt32Size m off) := rfl

/-- The check of a size gives the size, if it is passed. -/
theorem checkSize_value (m : Mem) (off header : ℕ) :
    (checkSize m off header).value =
      (Reg.checkSize m off header >>= fun _ => .ok (Reg.getInt32Size m off)) := by
  simp only [checkSize, value_bind, getInt32Size_value, ok_bind, refuse_value, value_pure,
    Reg.checkSize, Reg.refuse]
  by_cases h₁ : 2 ^ 31 ≤ Reg.getInt32Size m off
  · rw [if_pos h₁, if_pos h₁]
    rfl
  · rw [if_neg h₁, if_neg h₁, ok_bind]

/-- The check of a cell is the one of the model, for the length that is read. -/
theorem checkCell_value (m : Mem) (off body header : ℕ) (signatures : List ℕ)
    {length : Traced RegErr ℕ} {n : ℕ} (hlength : length.value = .ok n) :
    (checkCell m off body header signatures length).value =
      Reg.checkCell m off body header signatures n := by
  rw [checkCell, Reg.checkCell]
  simp only [value_bind, checkSize_value, value_read, ok_bind, refuse_value, hlength]
  rcases Reg.checkSize m off header with e | u
  · rfl
  · rfl

/-- The check of a key cell is the one of the model. -/
theorem checkNode_value (m : Mem) (off nk : ℕ) :
    (checkNode m off nk).value = Reg.checkNode m off nk := checkCell_value _ _ _ _ _ rfl

/-- The check of a leaf is the one of the model. -/
theorem checkLeaf_value (m : Mem) (off lh : ℕ) :
    (checkLeaf m off lh).value = Reg.checkLeaf m off lh := checkCell_value _ _ _ _ _ rfl

/-- The check of a value cell is the one of the model. -/
theorem checkValue_value (m : Mem) (off vk : ℕ) :
    (checkValue m off vk).value = Reg.checkValue m off vk := checkCell_value _ _ _ _ _ rfl

/-! ## Names -/

/-- A character of a stored name. -/
def readUnit (m : Mem) (comp : Bool) (name j : ℕ) : Traced RegErr UInt16 :=
  if comp then do
    let c ← read m (name + j) 1
    return widen (UInt8.ofNat c)
  else do
    let c ← read m (name + 2 * j) 2
    return UInt16.ofNat c

/-- The loop that copies a name, for `n` characters from `j` on. -/
def readUnits (m : Mem) (comp : Bool) (name : ℕ) : ℕ → ℕ → Traced RegErr (List UInt16)
  | 0, _ => pure []
  | n + 1, j => do
      let c ← readUnit m comp name j
      let cs ← readUnits m comp name n (j + 1)
      return c :: cs

/-- The loop that compares a name, from character `j` on. -/
def compareUnits (m : Mem) (comp : Bool) (name : ℕ) : ℕ → List UInt16 → Traced RegErr Bool
  | _, [] => pure true
  | j, c :: cs => do
      let c' ← readUnit m comp name j
      if lower c' = lower c then compareUnits m comp name (j + 1) cs else return false

/-- The number of characters of a stored name. -/
def nameCount (comp : Bool) (length : ℕ) : ℕ := if comp then length else length / 2

/-- The name of a cell, as far as it fits. -/
def readName (m : Mem) (comp : Bool) (name length nameLength : ℕ) : Traced RegErr EnumName := do
  let cs ← readUnits m comp name (min nameLength (nameCount comp length)) 0
  return ⟨cs ++ [0], decide (nameLength < nameCount comp length)⟩

/-- Whether a stored name is a given one. -/
def compareName (m : Mem) (comp : Bool) (name length : ℕ) (query : List UInt16) :
    Traced RegErr Bool :=
  if nameCount comp length ≠ query.length then return false
  else compareUnits m comp name 0 query

/-- A character of a stored name, without its access. -/
def storedUnit (m : Mem) (comp : Bool) (name j : ℕ) : UInt16 :=
  if comp then widen (m (name + j)) else UInt16.ofNat (m.word (name + 2 * j) 2)

/-- A unit of a name is read as it is stored. -/
theorem readUnit_value (m : Mem) (comp : Bool) (name j : ℕ) :
    (readUnit m comp name j).value = .ok (storedUnit m comp name j) := by
  cases comp with
  | false => rfl
  | true =>
      have hword : m.word (name + j) 1 = (m (name + j)).toNat := by
        simp [Mem.word, Mem.bytes, leNat]
      simp only [readUnit, if_true, value_bind, value_read, ok_bind, value_pure, storedUnit, hword,
        UInt8.ofNat_toNat]

/-- A stored name, unit by unit. -/
theorem storedName_eq_map (m : Mem) (comp : Bool) (name length : ℕ) :
    storedName m comp name length =
      (List.range (nameCount comp length)).map (storedUnit m comp name) := by
  cases comp with
  | false => rfl
  | true =>
      rw [storedName, if_pos rfl, Mem.bytes, List.map_map, nameCount, if_pos rfl]
      rfl

/-- Units of a name from a place on. -/
theorem readUnits_value (m : Mem) (comp : Bool) (name n j : ℕ) :
    (readUnits m comp name n j).value =
      .ok ((List.range' j n).map (storedUnit m comp name)) := by
  induction n generalizing j with
  | zero => rfl
  | succ n ih =>
      simp only [readUnits, value_bind, readUnit_value, ok_bind, ih, value_pure, List.range'_succ,
        List.map_cons]

/-- The name that is read is the one that an enumeration gives. -/
theorem readName_value (m : Mem) (comp : Bool) (name length nameLength : ℕ) :
    (readName m comp name length nameLength).value =
      .ok (enumName (storedName m comp name length) nameLength) := by
  rw [readName, value_bind, readUnits_value, ok_bind, value_pure, enumName, storedName_eq_map,
    ← List.map_take, List.take_range, List.length_map, List.length_range, List.range_eq_range']

/-- The comparison from a unit on is that of the rest of the names. -/
theorem compareUnits_value (m : Mem) (comp : Bool) (name j : ℕ) (query : List UInt16) :
    (compareUnits m comp name j query).value =
      .ok (decide (sameName ((List.range' j query.length).map (storedUnit m comp name)) query)) := by
  induction query generalizing j with
  | nil => rfl
  | cons c cs ih =>
      rw [compareUnits, value_bind, readUnit_value, ok_bind]
      by_cases hc : lower (storedUnit m comp name j) = lower c
      · rw [if_pos hc, ih]
        simp [sameName, List.range'_succ, hc]
      · rw [if_neg hc]
        simp [sameName, List.range'_succ, hc]

/-- The comparison of a name in a cell with a query is the one of the model. -/
theorem compareName_value (m : Mem) (comp : Bool) (name length : ℕ) (query : List UInt16) :
    (compareName m comp name length query).value =
      .ok (decide (sameName (storedName m comp name length) query)) := by
  rw [compareName, storedName_eq_map]
  by_cases h : nameCount comp length = query.length
  · rw [if_neg (not_not_intro h), compareUnits_value, h, List.range_eq_range']
  · have hne : ¬sameName ((List.range (nameCount comp length)).map (storedUnit m comp name)) query := by
      intro hname
      have hlength := congrArg List.length hname
      simp only [List.length_map, List.length_range] at hlength
      exact h hlength
    rw [if_pos h, decide_eq_false hne]
    rfl

/-! ## Keys -/

/-- Source: libnt/reg.c, reg_find_root -/
def findRoot (m : Mem) : Traced RegErr ℕ := do
  let cell ← read m 36 4
  return cellAddr cell

/-- Source: libnt/reg.c, reg_enum_keys, the loop over `ri->List` -/
def rootWalk (m : Mem) (ri : ℕ) : ℕ → ℕ → ℕ → Traced RegErr (ℕ × ℕ)
  | 0, _, index => do
      touch (ri + 2) 2
      return (ri, index)
  | n + 1, i, index => do
      touch (ri + 2) 2
      let cell ← read m (ri + 4 + 4 * i) 4
      let signature ← read m (cellBody cell) 2
      Traced.refuse (signature = keyIndexRoot) .badArgument
      Traced.refuse (¬(signature = keyHashLeaf ∨ signature = keyFastLeaf)) .badArgument
      let count ← read m (cellBody cell + 2) 2
      if index < count then return (cellBody cell, index)
      else rootWalk m ri n (i + 1) (index - count)

def findLeaf (m : Mem) (lh index : ℕ) : Traced RegErr (ℕ × ℕ) := do
  let signature ← read m lh 2
  if signature = keyIndexRoot then
    rootWalk m lh (indexCount m lh) 0 index
  else
    Traced.refuse (¬(signature = keyHashLeaf ∨ signature = keyFastLeaf)) .badArgument
    return (lh, index)

/-- Source: libnt/reg.c, reg_enum_keys -/
def enumKeys (m : Mem) (key index nameLength : ℕ) : Traced RegErr EnumName := do
  checkNode m key (keyBody key)
  let count ← read m (keyBody key + 20) 4
  Traced.refuse (count ≤ index) .fileNotFound
  let list ← read m (keyBody key + 28) 4
  Traced.refuse (list = noCell) .fileNotFound
  let size ← checkSize m (cellAddr list) 4
  let (lh, index) ← findLeaf m (cellBody list) index
  let count ← read m (lh + 2) 2
  Traced.refuse (size < 8 + 8 * count) .badArgument
  Traced.refuse (count ≤ index) .badArgument
  let cell ← read m (lh + 4 + 8 * index) 4
  checkNode m (cellAddr cell) (cellBody cell)
  let flags ← read m (cellBody cell + 2) 2
  let length ← read m (cellBody cell + 72) 2
  readName m (flags.testBit 5) (cellBody cell + 76) length nameLength

/-- Whether a test passes. -/
def attempt (x : Traced RegErr Unit) : Traced RegErr Bool :=
  ⟨.ok (decide (x.value = .ok ())), x.accesses⟩

/-- Source: libnt/reg.c, find_child_key, the body of the loop over i -/
def isChildNamed (m : Mem) (name : List UInt16) (cell : ℕ) : Traced RegErr Bool := do
  let passed ← attempt (checkNode m (cellAddr cell) (cellBody cell))
  if passed then
    let flags ← read m (cellBody cell + 2) 2
    let length ← read m (cellBody cell + 72) 2
    compareName m (flags.testBit 5) (cellBody cell + 76) length name
  else return false

/-- The leaf of a parent key. -/
def parentLeaf (m : Mem) (parent : ℕ) : Traced RegErr ℕ := do
  checkNode m parent (keyBody parent)
  let count ← read m (keyBody parent + 20) 4
  Traced.refuse (count = 0) .fileNotFound
  let list ← read m (keyBody parent + 28) 4
  Traced.refuse (list = noCell) .fileNotFound
  checkLeaf m (cellAddr list) (cellBody list)
  return cellBody list

/-- A loop over entries, up to the first that passes a test: `n` entries from `i` on, at the given
distance from each other, behind a counter. -/
def findEntry (m : Mem) (counter list stride : ℕ) (test : ℕ → Traced RegErr Bool) :
    ℕ → ℕ → Traced RegErr (ℕ × ℕ)
  | 0, _ => do
      touch counter 2
      fail .fileNotFound
  | n + 1, i => do
      touch counter 2
      let cell ← read m (list + stride * i) 4
      let found ← test cell
      if found then return (i, cell) else findEntry m counter list stride test n (i + 1)

/-- Source: libnt/reg.c, find_child_key -/
def findChildKey (m : Mem) (parent : ℕ) (name : List UInt16) : Traced RegErr ℕ := do
  let lh ← parentLeaf m parent
  let (_, cell) ← findEntry m (lh + 2) (lh + 4) 8 (isChildNamed m name) (indexCount m lh) 0
  return cellAddr cell

/-- Source: libnt/reg.c, reg_find_key -/
def findKeyFrom (m : Mem) (name : List UInt16) (parent : ℕ) : List UInt16 → Traced RegErr ℕ
  | [] => findChildKey m parent name
  | c :: path =>
      if c = backslash then do
        let k ← findChildKey m parent name
        if path = [] then return k else findKeyFrom m [] k path
      else findKeyFrom m (name ++ [c]) parent path

def findKey (m : Mem) (parent : ℕ) (path : List UInt16) : Traced RegErr ℕ :=
  findKeyFrom m [] parent path

/-- The accesses of the loop that moves entries. -/
def shiftTouches (lh : ℕ) : ℕ → ℕ → Traced RegErr Unit
  | 0, _ => touch (lh + 2) 2
  | n + 1, j => do
      touch (lh + 2) 2
      touch (lh + 4 + 8 * (j + 1)) 8
      touch (lh + 4 + 8 * j) 8
      shiftTouches lh n (j + 1)

/-- Source: libnt/reg.c, reg_delete_key -/
def deleteKey (m : Mem) (parent key : ℕ) : Traced RegErr Mem := do
  let lh ← parentLeaf m parent
  let (i, _) ← findEntry m (lh + 2) (lh + 4) 8 (fun cell => pure (decide (key = cellAddr cell)))
    (indexCount m lh) 0
  touch (lh + 2) 2
  shiftTouches lh (indexCount m lh - 1 - i) i
  touch (keyBody parent + 20) 4
  return removeEntry m (keyBody parent) lh i

/-! ## Values -/

/-- The list of the values of a key. -/
def valueList (m : Mem) (nk list : ℕ) : Traced RegErr ℕ := do
  let count ← read m (nk + 36) 4
  let _ ← checkSize m (cellAddr list) (4 * count)
  return cellBody list

/-- Source: libnt/reg.c, reg_enum_values -/
def enumValues (m : Mem) (key index nameLength : ℕ) : Traced RegErr (EnumName × ℕ) := do
  checkNode m key (keyBody key)
  let count ← read m (keyBody key + 36) 4
  Traced.refuse (count ≤ index) .fileNotFound
  let values ← read m (keyBody key + 40) 4
  Traced.refuse (values = noCell) .fileNotFound
  let list ← valueList m (keyBody key) values
  let cell ← read m (list + 4 * index) 4
  checkValue m (cellAddr cell) (cellBody cell)
  let flags ← read m (cellBody cell + 16) 2
  let length ← read m (cellBody cell + 2) 2
  let name ← readName m (flags.testBit 0) (cellBody cell + 20) length nameLength
  let type ← read m (cellBody cell + 12) 4
  return (name, type)

/-- Source: libnt/reg.c, reg_query_value, the body of the loop over i up to the name -/
def isValueNamed (m : Mem) (name : List UInt16) (cell : ℕ) : Traced RegErr Bool := do
  let passed ← attempt (checkValue m (cellAddr cell) (cellBody cell))
  if passed then
    let flags ← read m (cellBody cell + 16) 2
    let length ← read m (cellBody cell + 2) 2
    compareName m (flags.testBit 0) (cellBody cell + 20) length name
  else return false

/-- Where the data of a value are. -/
def valueData (m : Mem) (vk : ℕ) : Traced RegErr (Option ℕ) := do
  let length ← read m (vk + 4) 4
  if length.testBit 31 then
    if length % 2 ^ 31 = 4 ∨ length % 2 ^ 31 = 2 ∨ length % 2 ^ 31 = 1 then return some (vk + 8)
    else if length % 2 ^ 31 = 0 then return none
    else fail .badArgument
  else
    let data ← read m (vk + 8) 4
    let size ← getInt32Size m (cellAddr data)
    Traced.refuse (size < length) .badArgument
    return some (cellBody data)

/-- Source: libnt/reg.c, reg_query_value -/
def queryValue (m : Mem) (key : ℕ) (name : List UInt16) : Traced RegErr ValueData := do
  checkNode m key (keyBody key)
  let count ← read m (keyBody key + 36) 4
  Traced.refuse (count = 0) .fileNotFound
  let values ← read m (keyBody key + 40) 4
  Traced.refuse (values = noCell) .fileNotFound
  let list ← valueList m (keyBody key) values
  let (_, cell) ← findEntry m (keyBody key + 36) list 4 (isValueNamed m name) count 0
  let data ← valueData m (cellBody cell)
  let length ← read m (cellBody cell + 4) 4
  let type ← read m (cellBody cell + 12) 4
  return ⟨data, length % 2 ^ 31, type⟩

/-! ## Results -/

/-- To refuse two things is to refuse one after the other. -/
theorem refuse_or_bind {α : Type} (c d : Prop) [Decidable c] [Decidable d] (e : RegErr)
    (f : Unit → Except RegErr α) :
    (Reg.refuse (c ∨ d) e >>= f) =
      (Reg.refuse c e >>= fun _ => Reg.refuse d e >>= f) := by
  simp only [Reg.refuse]
  by_cases hc : c
  · rw [if_pos (Or.inl hc), if_pos hc]
    rfl
  · rw [if_neg hc, ok_bind]
    by_cases hd : d
    · rw [if_pos (Or.inr hd), if_pos hd]
    · rw [if_neg (not_or.mpr ⟨hc, hd⟩), if_neg hd]

/-- A refusal in front of the rest, as a condition. -/
theorem refuse_bind_eq_ite {α : Type} (c : Prop) [Decidable c] (e : RegErr)
    (f : Unit → Except RegErr α) :
    (Reg.refuse c e >>= f) = if c then .error e else f () := by
  rw [Reg.refuse]
  by_cases hc : c
  · rw [if_pos hc, if_pos hc]
    rfl
  · rw [if_neg hc, if_neg hc, ok_bind]

/-- The walk over the leaves gives what the model gives. -/
theorem rootWalk_value (m : Mem) (ri n i index : ℕ) :
    (rootWalk m ri n i index).value = Reg.rootWalk m ri n i index := by
  induction n generalizing i index with
  | zero => rfl
  | succ n ih =>
      rw [rootWalk]
      simp only [value_bind, value_touch, value_read, ok_bind, refuse_value, refuse_bind_eq_ite,
        apply_ite Traced.value, value_pure, ih]
      rfl

/-- So does the search for a leaf. -/
theorem findLeaf_value (m : Mem) (lh index : ℕ) :
    (findLeaf m lh index).value = Reg.findLeaf m lh index := by
  rw [findLeaf]
  simp only [value_bind, value_read, ok_bind, refuse_value, refuse_bind_eq_ite,
    apply_ite Traced.value, value_pure, rootWalk_value]
  rfl

/-- **The enumeration of keys with its reads** gives what the model gives. -/
theorem enumKeys_value (m : Mem) (key index nameLength : ℕ) :
    (enumKeys m key index nameLength).value = Reg.enumKeys m key index nameLength := by
  rw [enumKeys, Reg.enumKeys]
  simp only [value_bind, checkNode_value, value_read, ok_bind, refuse_value, refuse_or_bind,
    checkSize_value, findLeaf_value, readName_value, bind_assoc]
  rfl

/-- An attempt never fails: it tells whether what it runs has passed. -/
theorem attempt_value (x : Traced RegErr Unit) :
    (attempt x).value = .ok (decide (x.value = .ok ())) := rfl

/-- The test of a subkey's name is the one of the model. -/
theorem isChildNamed_value (m : Mem) (name : List UInt16) (cell : ℕ) :
    (isChildNamed m name cell).value = .ok (decide (Reg.isChildNamed m name cell)) := by
  rw [isChildNamed, value_bind, attempt_value, checkNode_value, ok_bind]
  by_cases h : Reg.checkNode m (cellAddr cell) (cellBody cell) = .ok ()
  · rw [decide_eq_true h, if_pos rfl]
    simp only [value_bind, value_read, ok_bind, compareName_value, Reg.isChildNamed, h, true_and]
    rfl
  · have hnot : ¬Reg.isChildNamed m name cell := fun hnamed => h hnamed.1
    rw [decide_eq_false h, if_neg (by simp), decide_eq_false hnot]
    rfl

/-- The test of a value's name is the one of the model. -/
theorem isValueNamed_value (m : Mem) (name : List UInt16) (cell : ℕ) :
    (isValueNamed m name cell).value = .ok (decide (Reg.isValueNamed m name cell)) := by
  rw [isValueNamed, value_bind, attempt_value, checkValue_value, ok_bind]
  by_cases h : Reg.checkValue m (cellAddr cell) (cellBody cell) = .ok ()
  · rw [decide_eq_true h, if_pos rfl]
    simp only [value_bind, value_read, ok_bind, compareName_value, Reg.isValueNamed, h, true_and]
    rfl
  · have hnot : ¬Reg.isValueNamed m name cell := fun hnamed => h hnamed.1
    rw [decide_eq_false h, if_neg (by simp), decide_eq_false hnot]
    rfl

/-- The leaf of a parent is the one of the model. -/
theorem parentLeaf_value (m : Mem) (parent : ℕ) :
    (parentLeaf m parent).value = Reg.parentLeaf m parent := by
  rw [parentLeaf, Reg.parentLeaf]
  simp only [value_bind, checkNode_value, value_read, ok_bind, refuse_value, refuse_or_bind,
    checkLeaf_value, value_pure]
  rfl

/-- The loop over entries is a search. -/
theorem findEntry_value {m : Mem} {test : ℕ → Traced RegErr Bool} {p : ℕ → Bool}
    (htest : ∀ cell, (test cell).value = .ok (p cell)) (counter list stride n i : ℕ) :
    (findEntry m counter list stride test n i).value =
      match (List.range' i n).find? fun j => p (m.word (list + stride * j) 4) with
      | some j => .ok (j, m.word (list + stride * j) 4)
      | none => .error .fileNotFound := by
  induction n generalizing i with
  | zero => rfl
  | succ n ih =>
      rw [findEntry, List.range'_succ]
      simp only [value_bind, value_touch, value_read, ok_bind, htest, List.find?_cons]
      cases h : p (m.word (list + stride * i) 4) with
      | false => exact ih (i + 1)
      | true => rfl

/-- The search for a subkey gives what the model gives. -/
theorem findChildKey_value (m : Mem) (parent : ℕ) (name : List UInt16) :
    (findChildKey m parent name).value = Reg.findChildKey m parent name := by
  rw [findChildKey, Reg.findChildKey, value_bind, parentLeaf_value]
  congr 1
  funext lh
  rw [value_bind, findEntry_value fun cell => isChildNamed_value m name cell, ← List.range_eq_range',
    leafCells, List.find?_map]
  have hcell : (fun j => decide (Reg.isChildNamed m name (m.word (lh + 4 + 8 * j) 4))) =
      fun j => decide (Reg.isChildNamed m name (leafCell m lh j)) := rfl
  rw [hcell, Function.comp_def]
  rcases (List.range (indexCount m lh)).find?
    fun j => decide (Reg.isChildNamed m name (leafCell m lh j)) with _ | j
  · rfl
  · rfl

/-- So does the walk along a path, from a component on, -/
theorem findKeyFrom_value (m : Mem) (name : List UInt16) (parent : ℕ) (path : List UInt16) :
    (findKeyFrom m name parent path).value = Reg.findKeyFrom m name parent path := by
  induction path generalizing name parent with
  | nil => exact findChildKey_value m parent name
  | cons c path ih =>
      rw [findKeyFrom, Reg.findKeyFrom]
      by_cases hc : c = backslash
      · rw [if_pos hc, if_pos hc, value_bind, findChildKey_value]
        rcases Reg.findChildKey m parent name with e | k
        · rfl
        · by_cases hpath : path = []
          · simp only [ok_bind, if_pos hpath]
            rfl
          · simp only [ok_bind, if_neg hpath]
            exact ih [] k
      · rw [if_neg hc, if_neg hc]
        exact ih _ _

/-- and along a whole path. -/
theorem findKey_value (m : Mem) (parent : ℕ) (path : List UInt16) :
    (findKey m parent path).value = Reg.findKey m parent path := findKeyFrom_value m [] parent path

/-- The reads of the move of entries do not fail. -/
theorem shiftTouches_value (lh n j : ℕ) : (shiftTouches lh n j).value = .ok () := by
  induction n generalizing j with
  | zero => rfl
  | succ n ih =>
      rw [shiftTouches]
      simp only [value_bind, value_touch, ok_bind, ih]

/-- The status of a deletion, with the image after it if it succeeds. -/
theorem deleteKey_value (m : Mem) (parent key : ℕ) :
    (deleteKey m parent key).value =
      (Reg.deleteKey m parent key).1 >>= fun _ => .ok (Reg.deleteKey m parent key).2 := by
  rw [deleteKey, Reg.deleteKey, value_bind, parentLeaf_value]
  rcases Reg.parentLeaf m parent with e | lh
  · rfl
  · have htest : ∀ cell, (pure (decide (key = cellAddr cell)) : Traced RegErr Bool).value =
        .ok (decide (key = cellAddr cell)) := fun _ => rfl
    have hcell : (fun i => decide (key = cellAddr (m.word (lh + 4 + 8 * i) 4))) =
        fun i => decide (key = cellAddr (leafCell m lh i)) := rfl
    simp only [ok_bind, value_bind, findEntry_value htest, ← List.range_eq_range', hcell]
    rcases (List.range (indexCount m lh)).find?
      fun i => decide (key = cellAddr (leafCell m lh i)) with _ | i
    · rfl
    · simp only [ok_bind, value_touch, shiftTouches_value, value_pure]

/-- The list of values is the one of the model. -/
theorem valueList_value (m : Mem) (nk : ℕ) :
    (valueList m nk (valuesList m nk)).value = Reg.valueList m nk := by
  rw [valueList, Reg.valueList]
  simp only [value_bind, value_read, ok_bind, checkSize_value, value_pure, bind_assoc]
  rfl

/-- **The enumeration of values with its reads** gives what the model gives. -/
theorem enumValues_value (m : Mem) (key index nameLength : ℕ) :
    (enumValues m key index nameLength).value = Reg.enumValues m key index nameLength := by
  rw [enumValues, Reg.enumValues]
  simp only [value_bind, checkNode_value, value_read, ok_bind, refuse_value, refuse_or_bind,
    checkValue_value, readName_value, value_pure]
  rw [show m.word (keyBody key + 40) 4 = valuesList m (keyBody key) from rfl, valueList_value]
  rfl

/-- The data of a value are those of the model. -/
theorem valueData_value (m : Mem) (vk : ℕ) :
    (valueData m vk).value = Reg.valueData m vk := by
  rw [valueData, Reg.valueData]
  simp only [value_bind, value_read, ok_bind, apply_ite Traced.value, value_pure, value_fail,
    getInt32Size_value, refuse_value, refuse_bind_eq_ite]
  rfl

/-- **The query of a value with its reads** gives what the model gives. -/
theorem queryValue_value (m : Mem) (key : ℕ) (name : List UInt16) :
    (queryValue m key name).value = Reg.queryValue m key name := by
  rw [queryValue, Reg.queryValue]
  simp only [value_bind, checkNode_value, value_read, ok_bind, refuse_value, refuse_or_bind,
    value_pure, findEntry_value fun cell => isValueNamed_value m name cell, valueData_value,
    ← List.range_eq_range', valueCells, List.find?_map, Function.comp_def]
  rw [show m.word (keyBody key + 40) 4 = valuesList m (keyBody key) from rfl, valueList_value]
  -- the two programs differ behind the list only
  refine bind_congr fun _ => bind_congr fun _ => bind_congr fun _ => bind_congr fun list => ?_
  have hcell : (fun j => decide (Reg.isValueNamed m name (m.word (list + 4 * j) 4))) =
      fun j => decide (Reg.isValueNamed m name (valueCell m list j)) := rfl
  rw [hcell, show m.word (keyBody key + 36) 4 = valuesCount m (keyBody key) from rfl]
  rcases (List.range (valuesCount m (keyBody key))).find?
    fun j => decide (Reg.isValueNamed m name (valueCell m list j)) with _ | j
  · rfl
  · rfl

/-! ## Opening a hive -/

/-- Source: libnt/reg.c, check_header -/
def checkHeader (m : Mem) : Traced (Option RegErr) Mem := do
  let signature ← read m 0 4
  Traced.refuse (signature ≠ 0x66676572) (some .badArgument)
  let major ← read m 20 4
  Traced.refuse (major ≠ 1) (some .badArgument)
  let minor ← read m 24 4
  Traced.refuse (minor < 3) (some .badArgument)
  let type ← read m 28 4
  Traced.refuse (type ≠ 0) (some .badArgument)
  let format ← read m 32 4
  Traced.refuse (format ≠ 1) (some .badArgument)
  let cluster ← read m 44 4
  Traced.refuse (cluster ≠ 1) (some .badArgument)
  touch 4 4
  touch 8 4
  -- the words of the checksum, and the checksum
  touch 0 508
  touch 508 4
  return repairHeader m

/-- Source: libnt/reg.c, validate_bins -/
def validateBins (m : Mem) (len : ℕ) : ℕ → ℕ → Traced (Option RegErr) Unit
  | 0, _ => fail none
  | fuel + 1, off =>
      if off < len then do
        let signature ← read m (0x1000 + off) 4
        Traced.refuse (signature ≠ 0x6e696268) (some .badArgument)
        let fileOffset ← read m (0x1000 + off + 4) 4
        Traced.refuse (fileOffset ≠ off) (some .badArgument)
        let size ← read m (0x1000 + off + 8) 4
        Traced.refuse (len - off < size) (some .badArgument)
        Traced.refuse (size &&& 0xfff ≠ 0) (some .badArgument)
        validateBins m len fuel (off + size)
      else return ()

/-- A call of `clear_volatile` up to its loop.
Source: libnt/reg.c, clear_volatile -/
def clearKey (m : Mem) (key : ℕ) : Traced (Option RegErr) (Mem × Option (ℕ × ℕ)) := do
  let nk := keyBody key
  let size ← read m key 4
  if 2 ^ 31 ≤ (2 ^ 32 - size) % 2 ^ 32 then return (m, none)
  else if (2 ^ 32 - size) % 2 ^ 32 < 80 then return (m, none)
  else
    let signature ← read m nk 2
    if signature ≠ keyNodeSignature then return (m, none)
    else
      touch (nk + 32) 4
      touch (nk + 24) 4
      let m := clearNode m nk
      let count ← read m (nk + 20) 4
      let list ← read m (nk + 28) 4
      if count = 0 ∨ list = noCell then return (m, none)
      else
        touch (cellAddr list) 4
        let signature ← read m (cellBody list) 2
        if signature = keyHashLeaf ∨ signature = keyFastLeaf then
          return (m, some (cellBody list, 8))
        else if signature = keyIndexRoot then return (m, some (cellBody list, 4))
        else return (m, none)

/-- Source: libnt/reg.c, clear_volatile, the loops over `lh->List` and `ri->List` -/
def clearEntries (clear : Mem → ℕ → Traced (Option RegErr) Mem) (list : ℕ × ℕ) :
    ℕ → ℕ → Mem → Traced (Option RegErr) Mem
  | 0, _, m => pure m
  | n + 1, i, m => do
      let count ← read m (list.1 + 2) 2
      if i < count then
        let cell ← read m (list.1 + 4 + list.2 * i) 4
        let m ← clear m (cellAddr cell)
        clearEntries clear list n (i + 1) m
      else return m

/-- Source: libnt/reg.c, clear_volatile -/
def clearVolatile : ℕ → Mem → ℕ → Traced (Option RegErr) Mem
  | 0, _, _ => fail none
  | fuel + 1, m, key => do
      let r ← clearKey m key
      match r.2 with
      | none => return r.1
      | some list => clearEntries (clearVolatile fuel) list (2 ^ 16) 0 r.1

/-- Source: libnt/reg.c, reg_open_hive -/
def regOpenHive (fuel : ℕ) (m : Mem) : Traced (Option RegErr) Mem := do
  let m ← checkHeader m
  let len ← read m 40 4
  validateBins m len fuel 0
  let root ← read m 36 4
  clearVolatile fuel m (cellAddr root)

/-- A result that may need more fuel. -/
def outcome {α : Type} : Option (Except RegErr α) → Except (Option RegErr) α
  | none => .error none
  | some (.error e) => .error (some e)
  | some (.ok a) => .ok a

/-- A refusal where an error may be missing. -/
theorem refuse_option_value (c : Prop) [Decidable c] (e : Option RegErr) :
    (Traced.refuse c e).value = if c then .error e else .ok () := by
  rw [Traced.refuse, apply_ite Traced.value]
  rfl

/-- A bind behind a choice is made behind each branch. -/
theorem ite_bind {ε α β : Type} (c : Prop) [Decidable c] (x y : Except ε α) (f : α → Except ε β) :
    ((if c then x else y) >>= f) = if c then x >>= f else y >>= f := by
  by_cases h : c
  · rw [if_pos h, if_pos h]
  · rw [if_neg h, if_neg h]

/-- The check of the header gives the repaired image of the model. -/
theorem checkHeader_value (m : Mem) :
    (checkHeader m).value = match Reg.checkHeader m with
      | none => .error (some .badArgument)
      | some m => .ok m := by
  rw [checkHeader, Reg.checkHeader]
  simp only [value_bind, value_read, ok_bind, refuse_option_value, ite_bind, error_bind,
    value_touch, value_pure]
  split_ifs <;> rfl

/-- The walk over the bins gives what the model gives; without an error where it does not end. -/
theorem validateBins_value (m : Mem) (len fuel off : ℕ) :
    (validateBins m len fuel off).value = match Reg.validateBins m len fuel off with
      | none => .error none
      | some false => .error (some .badArgument)
      | some true => .ok () := by
  induction fuel generalizing off with
  | zero => rfl
  | succ fuel ih =>
      rw [validateBins, Reg.validateBins]
      simp only [apply_ite Traced.value, value_bind, value_read, ok_bind, refuse_option_value, ite_bind,
        error_bind, value_pure, ih]
      split_ifs <;> rfl

/-- A visit of a key gives the image and the list of the model. -/
theorem clearKey_value (m : Mem) (key : ℕ) :
    (clearKey m key).value = .ok (Reg.clearKey m key) := by
  rw [clearKey]
  simp only [value_bind, value_read, ok_bind, value_touch, apply_ite Traced.value, value_pure]
  simp only [← apply_ite (Except.ok)]
  rfl

/-- The image that a walk leaves, if it ends. -/
def walkOutcome (r : Option Mem) : Except (Option RegErr) Mem := outcome (r.map .ok)

/-- A visit of entries does what the model does, if the visits of the keys do. -/
theorem clearEntries_value {clear : Mem → ℕ → Traced (Option RegErr) Mem}
    {clear' : Mem → ℕ → Option Mem}
    (h : ∀ m key, (clear m key).value = walkOutcome (clear' m key)) (list : ℕ × ℕ) (n i : ℕ)
    (m : Mem) :
    (clearEntries clear list n i m).value = walkOutcome (Reg.clearEntries clear' list n i m) := by
  induction n generalizing i m with
  | zero => rfl
  | succ n ih =>
      rw [clearEntries, Reg.clearEntries]
      simp only [value_bind, value_read, ok_bind]
      by_cases hi : i < indexCount m list.1
      · rw [if_pos (show i < m.word (list.1 + 2) 2 from hi), if_pos hi]
        simp only [value_bind, value_read, ok_bind, h]
        rw [show cellAddr (m.word (list.1 + 4 + list.2 * i) 4) = entryKey m list i from rfl]
        rcases clear' m (entryKey m list i) with _ | m'
        · rfl
        · exact ih (i + 1) m'
      · rw [if_neg (show ¬i < m.word (list.1 + 2) 2 from hi), if_neg hi]
        rfl

/-- The walk that clears volatile keys gives what the model gives. -/
theorem clearVolatile_value (fuel : ℕ) (m : Mem) (key : ℕ) :
    (clearVolatile fuel m key).value = walkOutcome (Reg.clearVolatile fuel m key) := by
  induction fuel generalizing m key with
  | zero => rfl
  | succ fuel ih =>
      rw [clearVolatile, Reg.clearVolatile, value_bind, clearKey_value, ok_bind]
      rcases Reg.clearKey m key with ⟨m', _ | list⟩
      · rfl
      · exact clearEntries_value ih list _ _ m'

/-- **Opening with its reads** gives what the model gives. -/
theorem regOpenHive_value (fuel : ℕ) (m : Mem) :
    (regOpenHive fuel m).value = outcome (Reg.regOpenHive fuel m) := by
  rw [regOpenHive, Reg.regOpenHive, value_bind, checkHeader_value]
  rcases Reg.checkHeader m with _ | m₁
  · rfl
  · simp only [ok_bind, value_bind, value_read, validateBins_value, clearVolatile_value]
    rw [show m₁.word 40 4 = headerLength m₁ from rfl,
      show m₁.word 36 4 = headerRootCell m₁ from rfl]
    rcases Reg.validateBins m₁ (headerLength m₁) fuel 0 with _ | _ | _
    · rfl
    · rfl
    · rfl

end Ntloader.Reg.Access
