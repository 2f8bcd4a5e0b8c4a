import Ntloader.Reg.Hive

/-!
# What a write to a hive leaves alone

Three things change a hive: an opening, a deletion of a key, and a caller that writes to the data of a
value. Each leaves the keys and the data of the others as they are.

* `keyData` — the data of a value, as a caller reads them; `DataAt` — where they are.
* `DataAt.framed` — writing to the data of one value.
* `Hive.deleteKey` — deleting a key.
* `Hive.opened` — opening the hive.
-/

namespace Ntloader.Reg

open Ntloader.Lib

/-! ## Data -/

/-- The data of a value, as a caller reads them. -/
def keyData (m : Mem) (key : ℕ) (name : List UInt16) : Except RegErr (List UInt8) :=
  (queryValue m key name).map fun r => m.bytes (r.data.getD 0) r.length

/-- A run of bytes is the data of a value: in the value, or in their cell behind its size. -/
def DataAt (m : Mem) (key i a n : ℕ) : Prop :=
  i < valuesCount m (keyBody key) ∧
    (isSpecial m (valueBody m key i) = true ∧ a = valueAddr m key i + 12 ∧ n ≤ 4 ∨
      isSpecial m (valueBody m key i) = false ∧ a = dataAddr m key i + 4 ∧
        n = valueDataLength m (valueBody m key i))

/-- The cell that data stand in. -/
def dataPart (m : Mem) (key i : ℕ) : Part :=
  if isSpecial m (valueBody m key i) then .value key i else .data key i

section Data

variable {keys : Set ℕ} {m m' : Mem} {k i a n : ℕ}

/-- What a query returns are the data of a value of the key. -/
theorem Hive.dataAt (hh : Hive keys m) (hk : k ∈ keys) {name : List UInt16} {r : ValueData}
    (h : queryValue m k name = .ok r) (hlen : r.length ≠ 0) :
    ∃ i a, r.data = some a ∧ DataAt m k i a r.length := by
  obtain ⟨cell, data, hcell, -, hdata, rfl⟩ := queryValue_namedValue h
  obtain ⟨i, hi, rfl⟩ := namedValue_eq_some hcell
  change valueData m (valueBody m k i) = .ok data at hdata
  change valueDataLength m (valueBody m k i) % 2 ^ 31 ≠ 0 at hlen
  have hbody := hh.value_body hk hi
  cases hspecial : isSpecial m (valueBody m k i) with
  | true =>
      obtain ⟨rfl, hfour⟩ := valueData_of_isSpecial hspecial hlen hdata
      exact ⟨i, _, rfl, hi, Or.inl ⟨hspecial, by omega, hfour⟩⟩
  | false =>
      obtain ⟨rfl, -⟩ := valueData_of_not_isSpecial hspecial hdata
      exact ⟨i, _, rfl, hi, Or.inr ⟨hspecial, hh.data_body hk hi hspecial,
        valueDataLength_mod hspecial⟩⟩

/-- Data lie in their cell. -/
theorem DataAt.part (hh : Hive keys m) (hk : k ∈ keys) (hd : DataAt m k i a n) :
    (dataPart m k i).Of keys m ∧ ((dataPart m k i).span m).1 + 4 ≤ a ∧
      a + n ≤ ((dataPart m k i).span m).1 + ((dataPart m k i).span m).2 := by
  obtain ⟨hi, ⟨hspecial, rfl, hn⟩ | ⟨hspecial, rfl, rfl⟩⟩ := hd
  · obtain ⟨-, hsize, -⟩ := checkValue_ok_iff.mp (hh.value k hk i hi)
    unfold dataPart Part.span
    rw [hspecial, if_pos rfl]
    dsimp only
    exact ⟨⟨hk, hi⟩, by omega, by omega⟩
  · unfold dataPart Part.span
    rw [hspecial, if_neg (by simp)]
    dsimp only
    exact ⟨⟨hk, hi, hspecial⟩, by omega, by omega⟩

/-- A write to the data of a value leaves every other cell as it is. -/
theorem DataAt.other (hh : Hive keys m) (hk : k ∈ keys) (hd : DataAt m k i a n)
    (hw : ∀ x, (x < a ∨ a + n ≤ x) → m' x = m x) {p : Part} (hp : p.Of keys m)
    (hne : p ≠ dataPart m k i) {x : ℕ} (h₁ : (p.span m).1 ≤ x)
    (h₂ : x < (p.span m).1 + (p.span m).2) : m' x = m x := by
  obtain ⟨hof, hstart, hstop⟩ := hd.part hh hk
  have hapart := hh.apart p _ hp hof hne
  unfold Apart at hapart
  exact hw x (by omega)

/-- The cell with the data of a value is no key, no index and no list. -/
theorem dataPart_ne {j k i : ℕ} : Part.node j ≠ dataPart m k i ∧ Part.index j ≠ dataPart m k i ∧
    Part.list j ≠ dataPart m k i := by
  unfold dataPart
  split_ifs <;> simp

/-- **Writing to the data of a value**: keys, indexes, lists and values are what they were. -/
theorem DataAt.framed (hh : Hive keys m) (hk : k ∈ keys) (hd : DataAt m k i a n)
    (hw : ∀ x, (x < a ∨ a + n ≤ x) → m' x = m x) : Framed keys m m' ∧ SameIndexes keys m m' := by
  have hother := fun p hp hne x => hd.other (p := p) (x := x) hh hk hw hp hne
  refine ⟨⟨?_, ?_, ?_, ?_⟩, ?_, ?_⟩
  · intro j hj x h₁ h₂ _
    exact hother (.node j) hj dataPart_ne.1 x h₁ h₂
  · intro j hj h0 x h₁ h₂
    exact hother (.list j) ⟨hj, h0⟩ dataPart_ne.2.2 x h₁ h₂
  · intro j hj l hl x h₁ h₂ hspecial
    by_cases heq : Part.value j l = dataPart m k i
    · obtain ⟨hi, ⟨hin, rfl, hn⟩ | ⟨hin, rfl, rfl⟩⟩ := hd
      · unfold dataPart at heq
        rw [if_pos hin] at heq
        cases heq
        exact hw x (by have := hspecial hin; omega)
      · unfold dataPart at heq
        rw [hin] at heq
        simp at heq
    · exact hother (.value j l) ⟨hj, hl⟩ heq x h₁ h₂
  · intro j hj l hl hspecial x h₁ h₂
    by_cases heq : Part.data j l = dataPart m k i
    · obtain ⟨-, hstart, -⟩ := hd.part hh hk
      rw [← heq] at hstart
      change dataAddr m j l + 4 ≤ a at hstart
      exact hw x (by omega)
    · refine hother (.data j l) ⟨hj, hl, hspecial⟩ heq x h₁ ?_
      change x < dataAddr m j l + (4 + valueDataLength m (valueBody m j l))
      omega
  · intro j hj
    obtain ⟨-, hsize, -⟩ := checkNode_ok_iff.mp (hh.node j hj)
    refine subKeyCount_congr fun x h₁ h₂ => ?_
    refine hother (.node j) hj dataPart_ne.1 x ?_ ?_
    · change j ≤ x
      omega
    · change x < j + getInt32Size m j
      omega
  · intro j hj h0 x h₁ h₂
    exact hother (.index j) ⟨hj, h0⟩ dataPart_ne.2.1 x h₁ h₂

/-- The data of a key are the same, if what they stand in is. -/
theorem Framed.keyData_eq (hh : Hive keys m) (hf : Framed keys m m') (hk : k ∈ keys)
    (h : ∀ i a n, DataAt m k i a n → ∀ x, a ≤ x → x < a + n → m' x = m x) (name : List UInt16) :
    keyData m' k name = keyData m k name := by
  unfold keyData
  rw [hf.queryValue_eq hh hk]
  rcases hq : queryValue m k name with e | r
  · rfl
  · refine congrArg Except.ok (Mem.bytes_congr fun x hx => ?_)
    obtain ⟨i, a, ha, hd⟩ := hh.dataAt hk hq (by omega)
    rw [ha]
    exact h i a _ hd _ (Nat.le_add_right _ _) (Nat.add_lt_add_left hx _)

/-- The data of the other keys are the same after a write to the data of one. -/
theorem DataAt.keyData_eq (hh : Hive keys m) (hk : k ∈ keys) (hd : DataAt m k i a n)
    (hw : ∀ x, (x < a ∨ a + n ≤ x) → m' x = m x) {j : ℕ} (hj : j ∈ keys) (hne : j ≠ k)
    (name : List UInt16) : keyData m' j name = keyData m j name := by
  refine (hd.framed hh hk hw).1.keyData_eq hh hj (fun l b o hdata x h₁ h₂ => ?_) name
  obtain ⟨hof, hstart, hstop⟩ := hdata.part hh hj
  refine hd.other hh hk hw hof ?_ (by omega) (by omega)
  unfold dataPart
  split_ifs <;> simp [hne]

end Data
/-! ## Deleting a key -/

section Delete

variable {keys : Set ℕ} {m : Mem} {p c : ℕ}

/-- A key that is listed is deleted. -/
theorem KeyTree.deleteKey_isOk (ht : KeyTree keys m) (hp : p ∈ keys) (hc : c ∈ childKeys m p) :
    (deleteKey m p c).1 = .ok () := by
  by_cases hcount : subKeyCount m (keyBody p) = 0
  · unfold childKeys at hc
    rw [if_pos hcount] at hc
    cases hc
  · rw [childKeys_of_ne hcount] at hc
    obtain ⟨cell, hcell, rfl⟩ := List.mem_map.mp hc
    obtain ⟨i, hi, rfl⟩ := mem_leafCells.mp hcell
    have hsome : ((List.range (indexCount m (keyBody (indexAddr m p)))).find? fun j =>
        cellAddr (leafCell m (keyBody (indexAddr m p)) i) =
          cellAddr (leafCell m (keyBody (indexAddr m p)) j)).isSome := by
      rw [List.find?_isSome]
      exact ⟨i, List.mem_range.mpr hi, by simp⟩
    obtain ⟨j, hj⟩ := Option.isSome_iff_exists.mp hsome
    unfold deleteKey
    rw [ht.parentLeaf_eq hp hcount]
    dsimp only
    rw [hj]

/-- A deletion writes to the count of the parent and to the contents of its index. -/
theorem KeyTree.deleteKey_frame (ht : KeyTree keys m) (hp : p ∈ keys)
    (h : (deleteKey m p c).1 = .ok ()) :
    subKeyCount m (keyBody p) ≠ 0 ∧ ∀ x, (x < p + 24 ∨ p + 28 ≤ x) →
      (x < indexAddr m p + 6 ∨ indexAddr m p + getInt32Size m (indexAddr m p) ≤ x) →
      (deleteKey m p c).2 x = m x := by
  obtain ⟨lh, i, hleaf, hi, -, heq⟩ := Reg.deleteKey_ok h
  have hcount := (parentLeaf_ok_iff.mp hleaf).2.1
  rw [ht.parentLeaf_eq hp hcount] at hleaf
  cases hleaf
  exact ⟨hcount, (ht.removed hp hcount hi heq).2⟩

/-- Every other cell is what it was. -/
theorem Hive.deleteKey_other (hh : Hive keys m) (hp : p ∈ keys)
    (h : (deleteKey m p c).1 = .ok ()) {q : Part} (hq : q.Of keys m) (hnode : q ≠ .node p)
    (hindex : q ≠ .index p) {x : ℕ} (h₁ : (q.span m).1 ≤ x)
    (h₂ : x < (q.span m).1 + (q.span m).2) : (deleteKey m p c).2 x = m x := by
  obtain ⟨hcount, hframe⟩ := hh.keyTree.deleteKey_frame hp h
  obtain ⟨-, hsize, -⟩ := checkNode_ok_iff.mp (hh.node p hp)
  have hnodes := hh.apart q (.node p) hq hp hnode
  have hindexes := hh.apart q (.index p) hq ⟨hp, hcount⟩ hindex
  have hnodespan : (Part.node p).span m = (p, getInt32Size m p) := rfl
  have hindexspan : (Part.index p).span m = (indexAddr m p, getInt32Size m (indexAddr m p)) := rfl
  unfold Apart at hnodes hindexes
  rw [hnodespan] at hnodes
  rw [hindexspan] at hindexes
  exact hframe x (by omega) (by omega)

/-- **Deleting a key**: the other cells, and all data, are what they were. -/
theorem Hive.deleteKey (hh : Hive keys m) (hp : p ∈ keys) (h : (deleteKey m p c).1 = .ok ()) :
    Framed keys m (deleteKey m p c).2 ∧ Hive keys (deleteKey m p c).2 ∧
      ∀ k ∈ keys, ∀ name, keyData (deleteKey m p c).2 k name = keyData m k name := by
  have hother := fun q hq hnode hindex x => hh.deleteKey_other (q := q) (x := x) hp h hq hnode hindex
  have hf : Framed keys m (Reg.deleteKey m p c).2 := by
    refine ⟨?_, ?_, ?_, ?_⟩
    · intro k hk x h₁ h₂ h₃
      by_cases hkp : k = p
      · obtain ⟨hcount, hframe⟩ := hh.keyTree.deleteKey_frame hp h
        have hapart := hh.apart (.node k) (.index p) hk ⟨hp, hcount⟩ (by simp)
        change Apart (k, getInt32Size m k) (indexAddr m p, getInt32Size m (indexAddr m p)) at hapart
        unfold Apart at hapart
        dsimp only at hapart
        exact hframe x (by omega) (by omega)
      · exact hother (.node k) hk (by simpa using hkp) (by simp) x h₁ h₂
    · intro k hk h0 x h₁ h₂
      exact hother (.list k) ⟨hk, h0⟩ (by simp) (by simp) x h₁ h₂
    · intro k hk i hi x h₁ h₂ _
      exact hother (.value k i) ⟨hk, hi⟩ (by simp) (by simp) x h₁ h₂
    · intro k hk i hi hspecial x h₁ h₂
      refine hother (.data k i) ⟨hk, hi, hspecial⟩ (by simp) (by simp) x h₁ ?_
      change x < dataAddr m k i + (4 + valueDataLength m (valueBody m k i))
      omega
  obtain ⟨i, -, -, hd, ht', -⟩ := hh.keyTree.deleteKey_ok hp h
  refine ⟨hf, hh.of_framed hf ht' ?_, ?_⟩
  · intro k hk h0
    exact ⟨hd.count_ne hk h0, hd.indexSpan_eq hk (hd.count_ne hk h0)⟩
  · intro k hk name
    refine hf.keyData_eq hh hk (fun j a n hdata x h₁ h₂ => ?_) name
    obtain ⟨hof, hstart, hstop⟩ := hdata.part hh hk
    exact hother _ hof dataPart_ne.1.symm dataPart_ne.2.1.symm x (by omega) (by omega)

end Delete

/-! ## Opening a hive -/

section Open

variable {keys : Set ℕ} {m m' : Mem} {fuel : ℕ}

/-- The indexes of a hive are leaves. -/
theorem Hive.hiveTree (hh : Hive keys m) : HiveTree keys m where
  addr k hk := hh.above (.node k) hk
  node := hh.node
  index k hk h0 := by
    have hindex := hh.index k hk h0
    exact ⟨hindex.list, hindex.addr, Or.inl hindex.leaf⟩
  closed k hk c hc := by
    refine hh.closed k hk c ?_
    unfold allChildKeys subKeyCells at hc
    unfold childKeys
    by_cases h0 : subKeyCount m (keyBody k) = 0
    · rwa [if_pos h0] at hc ⊢
    · have hleaf := (checkLeaf_ok_iff.mp (hh.index k hk h0).leaf).2.2
      rw [if_neg h0, if_neg (indexSignature_ne_of_isLeaf hleaf)] at hc
      rw [if_neg h0]
      exact hc
  node_node := hh.keyTree.node_node
  node_index := hh.keyTree.node_index
  node_leaf k _ k' hk' h0 hroot := by
    have hleaf := (checkLeaf_ok_iff.mp (hh.index k' hk' h0).leaf).2.2
    exact absurd hroot.signature (indexSignature_ne_of_isLeaf hleaf)

/-- A cell that is no node is the same in images that agree. -/
theorem Hive.agree_part (hh : Hive keys m) (hag : Agree keys m m') {q : Part} (hq : q.Of keys m)
    (hnode : ∀ k, q ≠ .node k) {x : ℕ} (h₁ : (q.span m).1 ≤ x)
    (h₂ : x < (q.span m).1 + (q.span m).2) : m' x = m x :=
  hh.hiveTree.agree_of_apart hag (hh.above q hq)
    (fun k hk => hh.apart (.node k) q hk hq (hnode k).symm) h₁ h₂

/-- Images that agree differ in no index and in no data. -/
theorem Hive.of_agree (hh : Hive keys m) (hag : Agree keys m m') :
    Framed keys m m' ∧ SameIndexes keys m m' ∧
      ∀ k ∈ keys, ∀ name, keyData m' k name = keyData m k name := by
  have hpart := fun q hq hnode x => hh.agree_part (q := q) (x := x) hag hq hnode
  have hnode : ∀ k ∈ keys, ∀ x, k ≤ x → x < k + getInt32Size m k → ¬InVolatile k x → m' x = m x := by
    intro k hk x h₁ h₂ h₃
    have haddr := hh.above (.node k) hk
    change 0x1000 ≤ k at haddr
    exact hag x (by omega) (hh.hiveTree.not_inVolatile hk h₁ h₂ h₃)
  have hf : Framed keys m m' := by
    refine ⟨?_, ?_, ?_, ?_⟩
    · intro k hk x h₁ h₂ h₃
      refine hnode k hk x h₁ h₂ ?_
      unfold InVolatile keyBody
      omega
    · intro k hk h0 x h₁ h₂
      exact hpart (.list k) ⟨hk, h0⟩ (by simp) x h₁ h₂
    · intro k hk i hi x h₁ h₂ _
      exact hpart (.value k i) ⟨hk, hi⟩ (by simp) x h₁ h₂
    · intro k hk i hi hspecial x h₁ h₂
      refine hpart (.data k i) ⟨hk, hi, hspecial⟩ (by simp) x h₁ ?_
      change x < dataAddr m k i + (4 + valueDataLength m (valueBody m k i))
      omega
  refine ⟨hf, ⟨?_, ?_⟩, ?_⟩
  · intro k hk
    obtain ⟨-, hsize, -⟩ := checkNode_ok_iff.mp (hh.node k hk)
    refine subKeyCount_congr fun x h₁ h₂ => hnode k hk x (by omega) (by omega) ?_
    unfold InVolatile keyBody
    omega
  · intro k hk h0 x h₁ h₂
    exact hpart (.index k) ⟨hk, h0⟩ (by simp) x h₁ h₂
  · intro k hk name
    refine hf.keyData_eq hh hk (fun j a n hdata x h₁ h₂ => ?_) name
    obtain ⟨hof, hstart, hstop⟩ := hdata.part hh hk
    refine hpart _ hof (fun j => ?_) x (by omega) (by omega)
    exact dataPart_ne.1.symm

/-- **Opening a hive**: the keys and the data are what they were. -/
theorem Hive.opened (hh : Hive keys m) (hroot : rootKey m ∈ keys)
    (h : regOpenHive fuel m = some (.ok m')) :
    rootKey m' = rootKey m ∧ Framed keys m m' ∧ SameIndexes keys m m' ∧
      ∀ k ∈ keys, ∀ name, keyData m' k name = keyData m k name := by
  have hcleared := hh.hiveTree.regOpenHive_spec hroot h
  have hsub : {c | LeafReached m (rootKey m) c} ⊆ keys :=
    fun c hc => hh.hiveTree.mem_of_reached hroot hc.reached
  refine ⟨?_, hh.of_agree ((agree_repairHeader keys m).clearedTo hsub hcleared)⟩
  refine rootKey_congr (Mem.word_congr fun i hi => ?_)
  rw [hcleared.frame, repairHeader_frame m (by omega) (by omega)]
  intro k hk hx
  have haddr := hh.above (.node k) (hsub hk)
  change 0x1000 ≤ k at haddr
  unfold InVolatile keyBody at hx
  omega

end Open

end Ntloader.Reg
