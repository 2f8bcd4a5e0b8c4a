import Ntloader.Lib.Memory

/-!
# Cells of a registry hive

A hive is a header of 4096 bytes and cells behind it. A cell starts with its size, which is negative
for a cell in use; key nodes, subkey indexes and values are cells.

* `checkSize`, `checkCell` — the tests in front of every use of a cell, with what a passed test says.
* `checkNode`, `checkLeaf` — the cells of a key and of a leaf.
* `nodeName` — the name of a key.

Scope: addresses are relative to the start of the image, as the 64-bit builds compute them: the place
of a cell's size is reduced to 32 bits, the place of its contents is not.
-/

namespace Ntloader.Reg

open Ntloader.Lib

/-- Source: include/reg.h, reg_err_t, without REG_ERR_NONE -/
inductive RegErr where
  | outOfMemory
  | badFileType
  | fileNotFound
  | fileReadError
  | badFilename
  | badArgument
  | badSignature
  deriving Repr, DecidableEq

/-- Source: include/reg.h, CM_KEY_FAST_LEAF, "lf" -/
def keyFastLeaf : ℕ := 0x666c

/-- Source: include/reg.h, CM_KEY_HASH_LEAF, "lh" -/
def keyHashLeaf : ℕ := 0x686c

/-- Source: include/reg.h, CM_KEY_INDEX_ROOT, "ri" -/
def keyIndexRoot : ℕ := 0x6972

/-- Source: include/reg.h, CM_KEY_NODE_SIGNATURE, "nk" -/
def keyNodeSignature : ℕ := 0x6b6e

/-- Source: include/reg.h, CM_KEY_VALUE_SIGNATURE, "vk" -/
def keyValueSignature : ℕ := 0x6b76

/-- An absent list.
Source: libnt/reg.c, `nk->SubKeyList == 0xffffffff` -/
def noCell : ℕ := 0xffffffff

/-! ## Tests in sequence -/

/-- Return an error if a condition holds. -/
def refuse (c : Prop) [Decidable c] (e : RegErr) : Except RegErr Unit :=
  if c then .error e else .ok ()

/-- Whether a test passes. -/
instance (x : Except RegErr Unit) : Decidable (x = .ok ()) :=
  match x with
  | .ok () => isTrue rfl
  | .error _ => isFalse nofun

/-- Nothing is refused exactly if the condition is false. -/
theorem refuse_ok_iff {c : Prop} [Decidable c] {e : RegErr} {u : Unit} :
    refuse c e = .ok u ↔ ¬c := by
  rw [refuse]
  by_cases h : c
  · rw [if_pos h]
    simp [h]
  · rw [if_neg h]
    simp [h]

/-- A sequence succeeds exactly if both of its parts do. -/
theorem bind_eq_ok_iff {ε α β : Type} {x : Except ε α} {f : α → Except ε β} {b : β} :
    x >>= f = .ok b ↔ ∃ a, x = .ok a ∧ f a = .ok b := by
  cases x with
  | error e => simp [bind, Except.bind]
  | ok a => simp [bind, Except.bind]

/-- Equation lemma: what follows a success. -/
theorem ok_bind {ε α β : Type} (a : α) (f : α → Except ε β) : ((.ok a : Except ε α) >>= f) = f a :=
  rfl

/-- Equation lemma: nothing follows an error. -/
theorem error_bind {ε α β : Type} (e : ε) (f : α → Except ε β) :
    ((.error e : Except ε α) >>= f) = .error e := rfl

/-! ## Places of cells -/

/-- The place of a cell's size, and the handle of a key.
Source: libnt/reg.c, `0x1000 + Cell` in 32 bits -/
def cellAddr (cell : ℕ) : ℕ := (0x1000 + cell) % 2 ^ 32

/-- The place of a cell's contents.
Source: libnt/reg.c, `(uint8_t *)h->data + 0x1000 + Cell + sizeof(int32_t)` -/
def cellBody (cell : ℕ) : ℕ := 0x1000 + cell + 4

/-- The place of the contents of a key.
Source: libnt/reg.c, `(uint8_t *)h->data + Key + sizeof(int32_t)` -/
def keyBody (key : ℕ) : ℕ := key + 4

/-- The address of a cell is an offset of 32 bits. -/
theorem cellAddr_lt (cell : ℕ) : cellAddr cell < 2 ^ 32 := Nat.mod_lt _ (by norm_num)

/-- It does not wrap around below 4 GB. -/
theorem cellAddr_of_lt {cell : ℕ} (h : cell + 0x1000 < 2 ^ 32) : cellAddr cell = 0x1000 + cell :=
  Nat.mod_eq_of_lt (by omega)

/-- A cell that does not wrap has its contents behind its size. -/
theorem keyBody_cellAddr {cell : ℕ} (h : cell + 0x1000 < 2 ^ 32) :
    keyBody (cellAddr cell) = cellBody cell := by
  rw [keyBody, cellAddr_of_lt h, cellBody]

/-! ## Sizes -/

/-- The negated size, as an unsigned number of 32 bits.
Source: libnt/reg.c, get_int32_size -/
def getInt32Size (m : Mem) (off : ℕ) : ℕ := (2 ^ 32 - m.word off 4) % 2 ^ 32

/-- The first two tests of a cell: that it is in use, and that it has room for its header.
Source: libnt/reg.c, `if (size < 0)` and `if ((uint32_t)size < sizeof(int32_t) + ..)` -/
def checkSize (m : Mem) (off header : ℕ) : Except RegErr Unit :=
  if 2 ^ 31 ≤ getInt32Size m off then .error .fileNotFound
  else if getInt32Size m off < 4 + header then .error .badArgument
  else .ok ()

/-- All tests of a cell: its size, its signature, and room for what follows the header.
Source: libnt/reg.c, the tests in front of every use of a cell -/
def checkCell (m : Mem) (off body header : ℕ) (signatures : List ℕ) (length : ℕ) :
    Except RegErr Unit := do
  checkSize m off header
  refuse (m.word body 2 ∉ signatures) .badArgument
  refuse (getInt32Size m off < 4 + header + length) .badArgument

/-- The size of a cell depends on its first word only. -/
theorem getInt32Size_congr {m m' : Mem} {off : ℕ} (h : m.word off 4 = m'.word off 4) :
    getInt32Size m off = getInt32Size m' off := by
  rw [getInt32Size, getInt32Size, h]

/-- A size passes exactly if the cell is allocated and has room for a header. -/
theorem checkSize_ok_iff {m : Mem} {off header : ℕ} :
    checkSize m off header = .ok () ↔
      getInt32Size m off < 2 ^ 31 ∧ 4 + header ≤ getInt32Size m off := by
  rw [checkSize]
  by_cases h₁ : 2 ^ 31 ≤ getInt32Size m off
  · rw [if_pos h₁]
    simp only [reduceCtorEq, false_iff]
    omega
  · rw [if_neg h₁]
    by_cases h₂ : getInt32Size m off < 4 + header
    · rw [if_pos h₂]
      simp only [reduceCtorEq, false_iff]
      omega
    · rw [if_neg h₂]
      simp only [true_iff]
      omega

/-- What the tests say of a cell that passes them. -/
theorem checkCell_ok_iff {m : Mem} {off body header length : ℕ} {signatures : List ℕ} :
    checkCell m off body header signatures length = .ok () ↔
      getInt32Size m off < 2 ^ 31 ∧ 4 + header + length ≤ getInt32Size m off ∧
        m.word body 2 ∈ signatures := by
  simp only [checkCell, bind_eq_ok_iff, refuse_ok_iff, not_not, not_lt]
  constructor
  · rintro ⟨⟨⟩, hsize, ⟨⟩, hsig, hlen⟩
    exact ⟨(checkSize_ok_iff.mp hsize).1, hlen, hsig⟩
  · rintro ⟨hneg, hlen, hsig⟩
    exact ⟨(), checkSize_ok_iff.mpr ⟨hneg, by omega⟩, (), hsig, hlen⟩

/-! ## Key nodes -/

section KeyNode

variable (m : Mem) (nk : ℕ)

/-- Source: include/reg.h, CM_KEY_NODE, Flags & KEY_COMP_NAME -/
def nodeCompName : Bool := (m.word (nk + 2) 2).testBit 5

/-- Source: include/reg.h, CM_KEY_NODE, SubKeyCount -/
def subKeyCount : ℕ := m.word (nk + 20) 4

/-- Source: include/reg.h, CM_KEY_NODE, SubKeyList -/
def subKeyList : ℕ := m.word (nk + 28) 4

/-- Source: include/reg.h, CM_KEY_NODE, ValuesCount -/
def valuesCount : ℕ := m.word (nk + 36) 4

/-- Source: include/reg.h, CM_KEY_NODE, Values -/
def valuesList : ℕ := m.word (nk + 40) 4

/-- Source: include/reg.h, CM_KEY_NODE, NameLength -/
def nodeNameLength : ℕ := m.word (nk + 72) 2

end KeyNode

/-- The tests of a key node.
Source: libnt/reg.c, `find parent key node`, with offsetof(CM_KEY_NODE, Name[0]) = 76 -/
def checkNode (m : Mem) (off nk : ℕ) : Except RegErr Unit :=
  checkCell m off nk 76 [keyNodeSignature] (nodeNameLength m nk)

/-- What a key cell that passes its check has: the sign, the room for its name, and the signature. -/
theorem checkNode_ok_iff {m : Mem} {off nk : ℕ} :
    checkNode m off nk = .ok () ↔
      getInt32Size m off < 2 ^ 31 ∧ 80 + nodeNameLength m nk ≤ getInt32Size m off ∧
        m.word nk 2 = keyNodeSignature := by
  rw [checkNode, checkCell_ok_iff, List.mem_singleton]

/-! ## Subkey indexes -/

section KeyIndex

variable (m : Mem) (lh : ℕ)

/-- Source: include/reg.h, CM_KEY_FAST_INDEX and CM_KEY_INDEX, Signature -/
def indexSignature : ℕ := m.word lh 2

/-- Source: include/reg.h, CM_KEY_FAST_INDEX and CM_KEY_INDEX, Count -/
def indexCount : ℕ := m.word (lh + 2) 2

/-- Source: include/reg.h, CM_KEY_FAST_INDEX, List[i].Cell -/
def leafCell (i : ℕ) : ℕ := m.word (lh + 4 + 8 * i) 4

/-- Source: include/reg.h, CM_KEY_INDEX, List[i] -/
def rootCell (i : ℕ) : ℕ := m.word (lh + 4 + 4 * i) 4

/-- The index is a list of keys, not of indexes. -/
def isLeaf : Prop := indexSignature m lh = keyHashLeaf ∨ indexSignature m lh = keyFastLeaf

instance : Decidable (isLeaf m lh) := inferInstanceAs (Decidable (_ ∨ _))

end KeyIndex

/-- The tests of a subkey index that has to be a leaf.
Source: libnt/reg.c, `go to key index` in find_child_key and reg_delete_key, with
offsetof(CM_KEY_FAST_INDEX, List[0]) = 4 and sizeof(CM_INDEX) = 8 -/
def checkLeaf (m : Mem) (off lh : ℕ) : Except RegErr Unit :=
  checkCell m off lh 4 [keyHashLeaf, keyFastLeaf] (8 * indexCount m lh)

/-- What a leaf that passes its check has: the sign, the room for its entries, and the signature. -/
theorem checkLeaf_ok_iff {m : Mem} {off lh : ℕ} :
    checkLeaf m off lh = .ok () ↔
      getInt32Size m off < 2 ^ 31 ∧ 8 + 8 * indexCount m lh ≤ getInt32Size m off ∧
        isLeaf m lh := by
  rw [checkLeaf, checkCell_ok_iff, List.mem_pair]
  rfl

/-! ## Names -/

/-- A character as a unit; `char` is signed.
Source: libnt/reg.c, `Name[i] = nkname[i]` -/
def widen (c : UInt8) : UInt16 := if c < 0x80 then c.toUInt16 else 0xff00 ||| c.toUInt16

/-- The units at an address. -/
def units (m : Mem) (a n : ℕ) : List UInt16 :=
  (List.range n).map fun i => UInt16.ofNat (m.word (a + 2 * i) 2)

/-- A stored name: one byte, or two, for each character. -/
def storedName (m : Mem) (comp : Bool) (name length : ℕ) : List UInt16 :=
  if comp then (m.bytes name length).map widen else units m name (length / 2)

/-- The name of a key.
Source: libnt/reg.c, reg_enum_keys and find_child_key, the two branches on KEY_COMP_NAME -/
def nodeName (m : Mem) (nk : ℕ) : List UInt16 :=
  storedName m (nodeCompName m nk) (nk + 76) (nodeNameLength m nk)

/-- A unit in lower case.
Source: libnt/reg.c, `if (c1 >= 'A' && c1 <= 'Z')` -/
def lower (c : UInt16) : UInt16 := if 0x41 ≤ c ∧ c ≤ 0x5a then c - 0x41 + 0x61 else c

/-- Two names are the same up to the case of the letters A to Z.
Source: libnt/reg.c, find_child_key, the loop over j -/
def sameName (xs ys : List UInt16) : Prop := xs.map lower = ys.map lower

instance (xs ys : List UInt16) : Decidable (sameName xs ys) := inferInstanceAs (Decidable (_ = _))

/-- Every name is the same as itself. -/
@[refl] theorem sameName_refl (xs : List UInt16) : sameName xs xs := rfl

/-- The comparison of names is symmetric, -/
theorem sameName_symm {xs ys : List UInt16} (h : sameName xs ys) : sameName ys xs := Eq.symm h

/-- and transitive. -/
theorem sameName_trans {xs ys zs : List UInt16} (h₁ : sameName xs ys) (h₂ : sameName ys zs) :
    sameName xs zs := Eq.trans h₁ h₂

/-! ## Images -/

/-- The image with numbers at addresses, of a number of bytes each, and zeros elsewhere. -/
def image (ws : List (ℕ × ℕ × ℕ)) : Mem :=
  ws.foldl (fun m w => m.putWord w.1 w.2.1 w.2.2) Mem.zero

/-- Numbers at addresses, as one number. -/
def packed (ws : List (ℕ × ℕ)) : ℕ := ws.foldr (fun w n => w.2 <<< (8 * w.1) + n) 0

/-- A number in memory. -/
def ofImage (n : ℕ) : Mem := fun x => UInt8.ofNat (n >>> (8 * x))

end Ntloader.Reg
