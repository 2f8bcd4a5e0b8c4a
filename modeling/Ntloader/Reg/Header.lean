import Ntloader.Reg.Open

/-!
# The header of a hive

What the check of a header says and what its repair changes: the second sequence number and the
checksum.

* `HeaderOk` — the fields that are checked; `checkHeader_eq_some_iff`.
* `Repaired` — the sequence numbers are the same and the checksum is right.
* `repaired_repairHeader`, `repairHeader_of_repaired` — repairing repairs, and only once.
* `regOpenHive_ok_iff` — the steps of a successful opening.
-/

namespace Ntloader.Reg

open Ntloader.Lib

variable {m m' : Mem}

/-! ## The check -/

/-- The fields of a header that are checked.
Source: libnt/reg.c, check_header -/
structure HeaderOk (m : Mem) : Prop where
  signature : m.word 0 4 = 0x66676572
  major : m.word 20 4 = 1
  minor : 3 ≤ m.word 24 4
  type : m.word 28 4 = 0
  format : m.word 32 4 = 1
  cluster : m.word 44 4 = 1

instance (m : Mem) : Decidable (HeaderOk m) :=
  decidable_of_iff (m.word 0 4 = 0x66676572 ∧ m.word 20 4 = 1 ∧ 3 ≤ m.word 24 4 ∧ m.word 28 4 = 0 ∧
      m.word 32 4 = 1 ∧ m.word 44 4 = 1)
    ⟨fun ⟨h₁, h₂, h₃, h₄, h₅, h₆⟩ => ⟨h₁, h₂, h₃, h₄, h₅, h₆⟩,
      fun ⟨h₁, h₂, h₃, h₄, h₅, h₆⟩ => ⟨h₁, h₂, h₃, h₄, h₅, h₆⟩⟩

/-- A header is accepted exactly if its fields pass, and it is repaired then. -/
theorem checkHeader_eq_some_iff {m₁ : Mem} :
    checkHeader m = some m₁ ↔ HeaderOk m ∧ m₁ = repairHeader m := by
  rw [checkHeader]
  constructor
  · intro h
    split_ifs at h with h₁ h₂ h₃ h₄ h₅ h₆
    exact ⟨⟨not_not.mp h₁, not_not.mp h₂, not_lt.mp h₃, not_not.mp h₄, not_not.mp h₅, not_not.mp h₆⟩,
      (Option.some.inj h).symm⟩
  · rintro ⟨⟨h₁, h₂, h₃, h₄, h₅, h₆⟩, rfl⟩
    rw [if_neg (not_not_intro h₁), if_neg (not_not_intro h₂), if_neg (not_lt.mpr h₃),
      if_neg (not_not_intro h₄), if_neg (not_not_intro h₅), if_neg (not_not_intro h₆)]

/-- The checked fields do not include the two that are repaired. -/
theorem HeaderOk.congr (h : HeaderOk m)
    (hsame : ∀ x < 508, ¬(8 ≤ x ∧ x < 12) → m' x = m x) : HeaderOk m' := by
  have hword : ∀ a, a + 4 ≤ 508 → (a + 4 ≤ 8 ∨ 12 ≤ a) → m'.word a 4 = m.word a 4 := by
    intro a ha ho
    exact Mem.word_congr fun i hi => hsame _ (by omega) (by omega)
  obtain ⟨h₁, h₂, h₃, h₄, h₅, h₆⟩ := h
  rw [← hword 0 (by norm_num) (by norm_num)] at h₁
  rw [← hword 20 (by norm_num) (by norm_num)] at h₂
  rw [← hword 24 (by norm_num) (by norm_num)] at h₃
  rw [← hword 28 (by norm_num) (by norm_num)] at h₄
  rw [← hword 32 (by norm_num) (by norm_num)] at h₅
  rw [← hword 44 (by norm_num) (by norm_num)] at h₆
  exact ⟨h₁, h₂, h₃, h₄, h₅, h₆⟩

/-! ## The repair -/

/-- The sequence numbers are the same, and the checksum is right. -/
structure Repaired (m : Mem) : Prop where
  sequence : m.word 8 4 = m.word 4 4
  checksum : m.word 508 4 = headerChecksum m

instance (m : Mem) : Decidable (Repaired m) :=
  decidable_of_iff (m.word 8 4 = m.word 4 4 ∧ m.word 508 4 = headerChecksum m)
    ⟨fun ⟨h₁, h₂⟩ => ⟨h₁, h₂⟩, fun ⟨h₁, h₂⟩ => ⟨h₁, h₂⟩⟩

/-- The checksum depends on the bytes in front of it only. -/
theorem headerChecksum_congr (h : ∀ x < 508, m' x = m x) : headerChecksum m' = headerChecksum m := by
  have hfold : (List.range 127).foldl (fun c i => c ^^^ m'.word (4 * i) 4) 0 =
      (List.range 127).foldl (fun c i => c ^^^ m.word (4 * i) 4) 0 := by
    refine List.foldl_ext _ _ _ fun c i hi => ?_
    rw [List.mem_range] at hi
    rw [Mem.word_congr fun j hj => h (4 * i + j) (by omega)]
  rw [headerChecksum, headerChecksum, hfold]

/-- It has 32 bits. -/
theorem headerChecksum_lt (m : Mem) : headerChecksum m < 2 ^ 32 := by
  have hfold : ∀ is : List ℕ, ∀ c < 2 ^ 32,
      is.foldl (fun c i => c ^^^ m.word (4 * i) 4) c < 2 ^ 32 := by
    intro is
    induction is with
    | nil => exact fun c hc => hc
    | cons i is ih =>
        intro c hc
        have hword := Mem.word_lt m (4 * i) 4
        exact ih _ (Nat.xor_lt_two_pow hc (by omega))
  have h := hfold (List.range 127) 0 (by norm_num)
  rw [headerChecksum]
  split_ifs
  · norm_num
  · norm_num
  · exact h

/-- A repaired header needs no repair: the sequence number is repaired in front of the checksum. -/
theorem repaired_repairHeader (m : Mem) : Repaired (repairHeader m) := by
  rw [repairHeader]
  generalize hm₁ : (if m.word 4 4 ≠ m.word 8 4 then m.putWord 8 4 (m.word 4 4) else m) = m₁
  have hsequence : m₁.word 8 4 = m₁.word 4 4 := by
    rw [← hm₁]
    by_cases hne : m.word 4 4 ≠ m.word 8 4
    · have hlt := Mem.word_lt m 4 4
      rw [if_pos hne, Mem.word_putWord_self, Mem.word_putWord_of_disjoint _ (Or.inl (by norm_num)),
        Nat.mod_eq_of_lt hlt]
    · rw [if_neg hne]
      exact (not_not.mp hne).symm
  by_cases hcsum : headerChecksum m₁ ≠ m₁.word 508 4
  · rw [if_pos hcsum]
    have hlt := headerChecksum_lt m₁
    refine ⟨?_, ?_⟩
    · rw [Mem.word_putWord_of_disjoint _ (Or.inl (by norm_num)),
        Mem.word_putWord_of_disjoint _ (Or.inl (by norm_num)), hsequence]
    · rw [Mem.word_putWord_self, Nat.mod_eq_of_lt (by omega)]
      exact (headerChecksum_congr fun x hx => Mem.putWord_of_not_mem _ (Or.inl hx)).symm
  · rw [if_neg hcsum]
    exact ⟨hsequence, (not_not.mp hcsum).symm⟩

/-- A repaired header stays. -/
theorem repairHeader_of_repaired (h : Repaired m) : repairHeader m = m := by
  rw [repairHeader]
  rw [if_neg (not_not_intro h.sequence.symm), if_neg (not_not_intro h.checksum.symm)]

/-- Nothing but the two fields is repaired. -/
theorem repairHeader_frame (m : Mem) {x : ℕ} (h₁ : ¬(8 ≤ x ∧ x < 12)) (h₂ : ¬(508 ≤ x ∧ x < 512)) :
    repairHeader m x = m x := by
  rw [repairHeader]
  generalize hm₁ : (if m.word 4 4 ≠ m.word 8 4 then m.putWord 8 4 (m.word 4 4) else m) = m₁
  have hsame : m₁ x = m x := by
    rw [← hm₁]
    by_cases hne : m.word 4 4 ≠ m.word 8 4
    · rw [if_pos hne, Mem.putWord_of_not_mem _ (by omega)]
    · rw [if_neg hne]
  by_cases hcsum : headerChecksum m₁ ≠ m₁.word 508 4
  · rw [if_pos hcsum, Mem.putWord_of_not_mem _ (by omega), hsame]
  · rw [if_neg hcsum, hsame]

/-- A repair leaves words apart from the sequence number and the checksum. -/
theorem repairHeader_word (m : Mem) {a : ℕ} (h : (12 ≤ a ∧ a + 4 ≤ 508) ∨ 512 ≤ a) :
    (repairHeader m).word a 4 = m.word a 4 :=
  Mem.word_congr fun i hi => repairHeader_frame m (by omega) (by omega)

/-- A header that has been repaired is accepted as it is. -/
theorem checkHeader_of_repaired (h : HeaderOk m) (hr : Repaired m) : checkHeader m = some m :=
  checkHeader_eq_some_iff.mpr ⟨h, (repairHeader_of_repaired hr).symm⟩

/-! ## Opening -/

/-- The key that the header gives.
Source: libnt/reg.c, reg_open_hive, `0x1000 + base_block->RootCell` -/
def rootKey (m : Mem) : ℕ := cellAddr (headerRootCell m)

/-- The root key depends on its field only. -/
theorem rootKey_congr (h : m'.word 36 4 = m.word 36 4) : rootKey m' = rootKey m := by
  rw [rootKey, rootKey, headerRootCell, headerRootCell, h]

/-- An opening that succeeds: the header is good, the bins are, and the walk from the root returns. -/
theorem regOpenHive_ok_iff {fuel : ℕ} :
    regOpenHive fuel m = some (.ok m') ↔
      HeaderOk m ∧ validateBins (repairHeader m) (headerLength m) fuel 0 = some true ∧
        clearVolatile fuel (repairHeader m) (rootKey m) = some m' := by
  have hlength : headerLength (repairHeader m) = headerLength m :=
    repairHeader_word m (Or.inl (by norm_num))
  have hroot : rootKey (repairHeader m) = rootKey m :=
    rootKey_congr (repairHeader_word m (Or.inl (by norm_num)))
  rw [← hlength, ← hroot, regOpenHive]
  constructor
  · intro h
    rcases hcheck : checkHeader m with _ | m₁
    · rw [hcheck] at h
      cases h
    · obtain ⟨hok, rfl⟩ := checkHeader_eq_some_iff.mp hcheck
      rw [hcheck] at h
      dsimp only at h
      rcases hvalid : validateBins (repairHeader m) (headerLength (repairHeader m)) fuel 0 with
        _ | _ | _
      · rw [hvalid] at h
        cases h
      · rw [hvalid] at h
        cases h
      · rw [hvalid] at h
        obtain ⟨r, hr, heq⟩ := Option.map_eq_some_iff.mp h
        cases heq
        exact ⟨hok, rfl, hr⟩
  · rintro ⟨hok, hvalid, hwalk⟩
    rw [checkHeader_eq_some_iff.mpr ⟨hok, rfl⟩]
    dsimp only
    rw [hvalid]
    exact Option.map_eq_some_iff.mpr ⟨m', hwalk, rfl⟩

end Ntloader.Reg
