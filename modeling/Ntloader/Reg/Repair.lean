import Ntloader.Reg.Bins
import Ntloader.Reg.Volatile

/-!
# Opening a hive twice

An opening repairs the header and clears volatile fields; what it leaves is opened as it is.

* `validateBins_congr` — the check of the bins reads the headers of bins only.
* `BinsApart` — the keys do not overlap the headers of the bins.
* `regOpenHive_again` — after an opening the header is repaired, and a second opening writes nothing.
-/

namespace Ntloader.Reg

open Ntloader.Lib

/-- The headers of the bins and the cells of the keys do not overlap. -/
def BinsApart (keys : Set ℕ) (m : Mem) : Prop :=
  ∀ k ∈ keys, ∀ off, BinReached m (headerLength m) off → off < headerLength m →
    Apart (nodeSpan m k) (0x1000 + off, 32)

section Bins

variable {m m' : Mem} {len off : ℕ}

/-- A bin is known by its first twelve bytes. -/
theorem binAt_congr (h : ∀ i < 12, m' (0x1000 + off + i) = m (0x1000 + off + i)) :
    (BinAt m' off ↔ BinAt m off) ∧ binSize m' off = binSize m off := by
  have h₁ : m'.word (0x1000 + off) 4 = m.word (0x1000 + off) 4 :=
    Mem.word_congr fun i hi => h i (by omega)
  have h₂ : m'.word (0x1000 + off + 4) 4 = m.word (0x1000 + off + 4) 4 :=
    Mem.word_congr fun i hi => by rw [Nat.add_assoc]; exact h _ (by omega)
  have h₃ : m'.word (0x1000 + off + 8) 4 = m.word (0x1000 + off + 8) 4 :=
    Mem.word_congr fun i hi => by rw [Nat.add_assoc]; exact h _ (by omega)
  refine ⟨⟨?_, ?_⟩, h₃⟩
  · rintro ⟨hsig, hoff⟩
    exact ⟨h₁ ▸ hsig, h₂ ▸ hoff⟩
  · rintro ⟨hsig, hoff⟩
    exact ⟨h₁.symm ▸ hsig, h₂.symm ▸ hoff⟩

/-- The check of the bins depends on the headers of the bins that it comes to. -/
theorem validateBins_congr
    (h : ∀ o, BinReached m len o → o < len → ∀ i < 12, m' (0x1000 + o + i) = m (0x1000 + o + i))
    (hreached : BinReached m len off) (fuel : ℕ) :
    validateBins m' len fuel off = validateBins m len fuel off := by
  induction fuel generalizing off with
  | zero => rfl
  | succ fuel ih =>
      by_cases hlt : off < len
      · obtain ⟨hiff, hsize⟩ := binAt_congr (h off hreached hlt)
        by_cases hbin : BinAt m off ∧ 0x1000 ∣ binSize m off ∧ off + binSize m off ≤ len
        · obtain ⟨header, dvd, fits⟩ := hbin
          rw [validateBins_of_bin hlt header dvd fits, validateBins_of_bin hlt (hiff.mpr header)
            (hsize ▸ dvd) (hsize ▸ fits), hsize]
          rcases Nat.eq_zero_or_pos (binSize m off) with hzero | pos
          · rw [hzero, Nat.add_zero]
            exact ih hreached
          · exact ih (hreached.bin header pos dvd fits)
        · rw [validateBins_of_not_bin hlt hbin, validateBins_of_not_bin hlt]
          rw [hiff, hsize]
          exact hbin
      · rw [validateBins_of_le (not_lt.mp hlt), validateBins_of_le (not_lt.mp hlt)]

end Bins

section Again

variable {keys : Set ℕ} {m m' : Mem} {fuel : ℕ}

/-- The check of the bins is the same for images that agree. -/
theorem HiveTree.validateBins_eq (ht : HiveTree keys m) (hbins : BinsApart keys m)
    (h : Agree keys m m') :
    validateBins m' (headerLength m) fuel 0 = validateBins m (headerLength m) fuel 0 := by
  refine validateBins_congr (fun o ho hlt i hi => h _ (by omega) fun k hk hvol => ?_)
    BinReached.start fuel
  have hapart := hbins k hk o ho hlt
  have hspan := ht.inVolatile_span hk hvol
  rw [Apart, nodeSpan] at hapart
  dsimp only at hapart
  omega

/-- An opening writes to the two fields of the header and behind the header. -/
theorem HiveTree.regOpenHive_header (ht : HiveTree keys m) (hroot : rootKey m ∈ keys)
    (h : regOpenHive fuel m = some (.ok m')) {x : ℕ} (hx : x < 0x1000) :
    m' x = repairHeader m x := by
  refine (ht.regOpenHive_spec hroot h).frame x fun k hk hvol => ?_
  have hmem := ht.mem_of_reached hroot (LeafReached.reached hk)
  have haddr := ht.addr k hmem
  have hspan := ht.inVolatile_span hmem hvol
  omega

/-- **An opening repairs the header once and for all**: the sequence numbers are the same and the
checksum is right, no other byte of the header has changed, and a second opening changes nothing. -/
theorem regOpenHive_again (ht : HiveTree keys m) (hroot : rootKey m ∈ keys)
    (hbins : BinsApart keys m) (h : regOpenHive fuel m = some (.ok m')) :
    Repaired m' ∧
      (∀ x < 0x1000, ¬(8 ≤ x ∧ x < 12) → ¬(508 ≤ x ∧ x < 512) → m' x = m x) ∧
      regOpenHive fuel m' = some (.ok m') := by
  obtain ⟨hok, hvalid, hwalk⟩ := regOpenHive_ok_iff.mp h
  have hspec := ht.regOpenHive_spec hroot h
  have hheader := fun x hx => ht.regOpenHive_header hroot h (x := x) hx
  have hword : ∀ a, a + 4 ≤ 0x1000 → m'.word a 4 = (repairHeader m).word a 4 :=
    fun a ha => Mem.word_congr fun i hi => hheader _ (by omega)
  have hrepaired : Repaired m' := by
    obtain ⟨hseq, hcsum⟩ := repaired_repairHeader m
    refine ⟨?_, ?_⟩
    · rw [hword 8 (by norm_num), hword 4 (by norm_num), hseq]
    · rw [hword 508 (by norm_num), hcsum]
      exact (headerChecksum_congr fun x hx => hheader x (by omega)).symm
  have hframe : ∀ x < 0x1000, ¬(8 ≤ x ∧ x < 12) → ¬(508 ≤ x ∧ x < 512) → m' x = m x := by
    intro x hx h₁ h₂
    rw [hheader x hx, repairHeader_frame m h₁ h₂]
  have hfield : ∀ a, 12 ≤ a → a + 4 ≤ 508 → m'.word a 4 = m.word a 4 :=
    fun a h₁ h₂ => Mem.word_congr fun i hi => hframe _ (by omega) (by omega) (by omega)
  have hkeys : {c | LeafReached m (rootKey m) c} ⊆ keys :=
    fun c hc => ht.mem_of_reached hroot hc.reached
  have hag : Agree keys m (repairHeader m) := agree_repairHeader keys m
  have hag' : Agree keys m m' := hag.clearedTo hkeys hspec
  refine ⟨hrepaired, hframe, regOpenHive_ok_iff.mpr ⟨?_, ?_, ?_⟩⟩
  · exact hok.congr fun x hx hne => hframe x (by omega) hne (by omega)
  · rw [repairHeader_of_repaired hrepaired,
      show headerLength m' = headerLength m from hfield 40 (by norm_num) (by norm_num),
      ht.validateBins_eq hbins hag', ← ht.validateBins_eq hbins hag]
    exact hvalid
  · rw [repairHeader_of_repaired hrepaired, rootKey_congr (hfield 36 (by norm_num) (by norm_num))]
    exact ht.clearVolatile_again hroot hag hwalk hag' fun c hc => hspec.clear c hc

end Again

/-- The bin of the small hives ends its header in front of the keys. -/
theorem binsApart_hives {m : Mem} (hm : m = leafHive ∨ m = rootHive) : BinsApart twoKeys m := by
  have hlength : headerLength m = 0x1000 := by rcases hm with rfl | rfl <;> decide +kernel
  have hsize : binSize m 0 = 0x1000 := by rcases hm with rfl | rfl <;> decide +kernel
  intro k hk off hoff hlt
  have hzero : off = 0 := by
    rw [hlength] at hoff hlt
    induction hoff with
    | start => rfl
    | bin _ _ _ _ fits ih =>
        rw [ih (by omega), hsize] at hlt
        omega
  rw [hzero]
  have h : ∀ k ∈ [0x1020, 0x10a0], Apart (nodeSpan m k) (0x1000 + 0, 32) := by
    rcases hm with rfl | rfl <;> decide +kernel
  exact h k hk

/-- The hive whose subkey stands behind a root of indexes. -/
theorem regOpenHive_again_rootHive :
    ∃ m', regOpenHive 3 rootHive = some (.ok m') ∧ Repaired m' ∧
      (∀ x < 0x1000, ¬(8 ≤ x ∧ x < 12) → ¬(508 ≤ x ∧ x < 512) → m' x = rootHive x) ∧
      regOpenHive 3 m' = some (.ok m') := by
  obtain ⟨m', hm'⟩ := exists_regOpenHive_hives (.inr rfl)
  have hroot : rootKey rootHive ∈ twoKeys := by
    rw [rootKey_hives (.inr rfl)]
    exact List.mem_cons_self
  exact ⟨m', hm', regOpenHive_again (hiveTree_hives (.inr rfl)) hroot (binsApart_hives (.inr rfl)) hm'⟩

end Ntloader.Reg
