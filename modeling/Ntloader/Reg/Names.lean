import Ntloader.Reg.Values

/-!
# Names in their two formats

A name stands in its cell as bytes or as units of two bytes. Bytes become units as signed characters.

* `StoresKey`, `StoresValue` — a cell has a name in one of the formats.
* `names_match_iff` — the two formats are matched by the same queries exactly if the name has no
  character from 0x80 on.

Scope: the x86 builds, in which `char` is signed.
-/

namespace Ntloader.Reg

open Ntloader.Lib

/-- A name of one-byte characters stands at an address, in one of the formats and with a length in
bytes. -/
def StoresName (m : Mem) (comp : Bool) (a length : ℕ) (name : List UInt8) : Prop :=
  if comp then length = name.length ∧ m.bytes a name.length = name
  else length = 2 * name.length ∧ units m a name.length = name.map UInt8.toUInt16

/-- A key cell that passes its tests and has a name in one of the formats. -/
structure StoresKey (m : Mem) (comp : Bool) (cell : ℕ) (name : List UInt8) : Prop where
  node : checkNode m (cellAddr cell) (cellBody cell) = .ok ()
  format : nodeCompName m (cellBody cell) = comp
  name : StoresName m comp (cellBody cell + 76) (nodeNameLength m (cellBody cell)) name

/-- A value cell that passes its tests and has a name in one of the formats. -/
structure StoresValue (m : Mem) (comp : Bool) (cell : ℕ) (name : List UInt8) : Prop where
  value : checkValue m (cellAddr cell) (cellBody cell) = .ok ()
  format : valueCompName m (cellBody cell) = comp
  name : StoresName m comp (cellBody cell + 20) (valueNameLength m (cellBody cell)) name

/-- The units that a name is compared as. -/
def nameUnits (comp : Bool) (name : List UInt8) : List UInt16 :=
  name.map (if comp then widen else UInt8.toUInt16)

/-- A name is read as the units of its format. -/
theorem StoresName.storedName_eq {m : Mem} {comp : Bool} {a length : ℕ} {name : List UInt8}
    (h : StoresName m comp a length name) : storedName m comp a length = nameUnits comp name := by
  cases comp with
  | false =>
      obtain ⟨rfl, hunits⟩ := h
      rw [storedName, if_neg (by simp), Nat.mul_div_cancel_left _ (by norm_num), hunits]
      rfl
  | true =>
      obtain ⟨rfl, hbytes⟩ := h
      rw [storedName, if_pos rfl, hbytes]
      rfl

/-- A key is matched by a query exactly if its units are, -/
theorem StoresKey.isChildNamed_iff {m : Mem} {comp : Bool} {cell : ℕ} {name : List UInt8}
    (h : StoresKey m comp cell name) (query : List UInt16) :
    isChildNamed m query cell ↔ sameName (nameUnits comp name) query := by
  rw [isChildNamed, nodeName, h.format, h.name.storedName_eq]
  exact and_iff_right h.node

/-- and so is a value. -/
theorem StoresValue.isValueNamed_iff {m : Mem} {comp : Bool} {cell : ℕ} {name : List UInt8}
    (h : StoresValue m comp cell name) (query : List UInt16) :
    isValueNamed m query cell ↔ sameName (nameUnits comp name) query := by
  rw [isValueNamed, valueName, h.format, h.name.storedName_eq]
  exact and_iff_right h.value

/-- A character becomes the same unit in both formats exactly below 0x80, also in lower case. -/
theorem lower_widen_iff (c : UInt8) : lower (widen c) = lower c.toUInt16 ↔ c < 0x80 := by
  have hall : ∀ n < 256, lower (widen (UInt8.ofNat n)) = lower (UInt8.ofNat n).toUInt16 ↔
      UInt8.ofNat n < 0x80 := by
    decide +kernel
  have h := hall c.toNat c.toNat_lt
  rwa [UInt8.ofNat_toNat] at h

/-- The two formats are compared alike exactly below 0x80. -/
theorem sameName_nameUnits_iff (name : List UInt8) :
    sameName (nameUnits true name) (nameUnits false name) ↔ ∀ c ∈ name, c < 0x80 := by
  rw [sameName, nameUnits, nameUnits, List.map_map, List.map_map, List.map_inj_left]
  exact forall₂_congr fun c _ => lower_widen_iff c

/-- Both formats are matched by the same strings exactly if they are compared alike. -/
theorem forall_sameName_iff {name : List UInt8} (hnul : 0 ∉ name) :
    (∀ query : List UInt16, 0 ∉ query →
      (sameName (nameUnits true name) query ↔ sameName (nameUnits false name) query)) ↔
      ∀ c ∈ name, c < 0x80 := by
  rw [← sameName_nameUnits_iff]
  constructor
  · intro h
    refine (h (nameUnits false name) ?_).mpr (sameName_refl _)
    intro hmem
    obtain ⟨c, hc, hzero⟩ := List.mem_map.mp hmem
    have hc0 : c = 0 := by
      apply UInt8.toNat_inj.mp
      rw [← UInt8.toNat_toUInt16]
      exact congrArg UInt16.toNat hzero
    exact hnul (hc0 ▸ hc)
  · intro h query _
    exact ⟨fun hq => sameName_trans (sameName_symm h) hq, fun hq => sameName_trans h hq⟩

/-- **The format of a name does not matter** for lookups of keys and of values exactly if the name has
no character from 0x80 on. -/
theorem names_match_iff {name : List UInt8} (hnul : 0 ∉ name) {m m' w w' : Mem} {k k' v v' : ℕ}
    (hk : StoresKey m true k name) (hk' : StoresKey m' false k' name)
    (hv : StoresValue w true v name) (hv' : StoresValue w' false v' name) :
    (∀ query : List UInt16, 0 ∉ query →
      (isChildNamed m query k ↔ isChildNamed m' query k') ∧
        (isValueNamed w query v ↔ isValueNamed w' query v')) ↔
      ∀ c ∈ name, c < 0x80 := by
  rw [← forall_sameName_iff hnul]
  refine forall₂_congr fun query _ => ?_
  rw [hk.isChildNamed_iff, hk'.isChildNamed_iff, hv.isValueNamed_iff, hv'.isValueNamed_iff]
  exact and_self_iff

/-- A key and a value named by one character, in both formats. -/
def formatsImage (c : ℕ) : Mem :=
  image [(0x1020, 4, 2 ^ 32 - 88), (0x1024, 2, keyNodeSignature), (0x1026, 2, 0x20), (0x106c, 2, 1),
    (0x1070, 1, c), (0x10a0, 4, 2 ^ 32 - 88), (0x10a4, 2, keyNodeSignature), (0x10ec, 2, 2),
    (0x10f0, 2, c), (0x1120, 4, 2 ^ 32 - 32), (0x1124, 2, keyValueSignature), (0x1126, 2, 1),
    (0x1134, 2, 1), (0x1138, 1, c), (0x1140, 4, 2 ^ 32 - 32), (0x1144, 2, keyValueSignature),
    (0x1146, 2, 2), (0x1158, 2, c)]

/-- The image has the name in a key of either format, -/
theorem storesKey_formatsImage {comp : Bool} {c : UInt8} (hc : c = 0x61 ∨ c = 0xe9) :
    StoresKey (formatsImage c.toNat) comp (if comp then 0x20 else 0xa0) [c] := by
  rcases hc with rfl | rfl <;> cases comp <;>
    exact ⟨by decide +kernel, by decide +kernel, by decide +kernel, by decide +kernel⟩

/-- and in a value of either format. -/
theorem storesValue_formatsImage {comp : Bool} {c : UInt8} (hc : c = 0x61 ∨ c = 0xe9) :
    StoresValue (formatsImage c.toNat) comp (if comp then 0x120 else 0x140) [c] := by
  rcases hc with rfl | rfl <;> cases comp <;>
    exact ⟨by decide +kernel, by decide +kernel, by decide +kernel, by decide +kernel⟩

/-- The name `a`. -/
theorem names_match_iff_ascii :
    (∀ query : List UInt16, 0 ∉ query →
      (isChildNamed (formatsImage 0x61) query 0x20 ↔ isChildNamed (formatsImage 0x61) query 0xa0) ∧
        (isValueNamed (formatsImage 0x61) query 0x120 ↔
          isValueNamed (formatsImage 0x61) query 0x140)) ↔
      ∀ c ∈ ([0x61] : List UInt8), c < 0x80 :=
  names_match_iff (by decide) (storesKey_formatsImage (c := 0x61) (.inl rfl))
    (storesKey_formatsImage (c := 0x61) (.inl rfl)) (storesValue_formatsImage (c := 0x61) (.inl rfl))
    (storesValue_formatsImage (c := 0x61) (.inl rfl))

/-- The name `é` is found where it is stored as a unit, and not where it is stored as a byte. -/
theorem not_names_match_latin :
    ¬∀ (name : List UInt8) (m m' : Mem) (k k' : ℕ) (query : List UInt16), 0 ∉ name → 0x5c ∉ name →
      0 ∉ query → StoresKey m true k name → StoresKey m' false k' name →
      (isChildNamed m query k ↔ isChildNamed m' query k') := by
  intro h
  have hiff := h [0xe9] (formatsImage 0xe9) (formatsImage 0xe9) 0x20 0xa0 [0xe9] (by decide)
    (by decide) (by decide) (storesKey_formatsImage (c := 0xe9) (.inr rfl))
    (storesKey_formatsImage (c := 0xe9) (.inr rfl))
  revert hiff
  decide +kernel

end Ntloader.Reg
