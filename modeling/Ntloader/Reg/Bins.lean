import Ntloader.Reg.Open

/-!
# The bins of a hive

Behind the header a hive is a sequence of bins, each of which states its own offset and its size.

* `BinAt`, `binSize` — the header of a bin.
* `Tiled` — the bins from an offset on fill the rest of the image.
* `validateBins_tiled_iff` — the check ends, and accepts exactly the images that bins tile, unless it
  comes to a bin of size 0.
-/

namespace Ntloader.Reg

open Ntloader.Lib

/-- The size of the bin at an offset behind the header.
Source: include/reg.h, HBIN, Size -/
def binSize (m : Mem) (off : ℕ) : ℕ := m.word (0x1000 + off + 8) 4

/-- A bin starts at an offset behind the header: its signature and its own offset.
Source: include/reg.h, HBIN, Signature and FileOffset -/
structure BinAt (m : Mem) (off : ℕ) : Prop where
  signature : m.word (0x1000 + off) 4 = 0x6e696268
  fileOffset : m.word (0x1000 + off + 4) 4 = off

/-- From an offset on the image consists of bins, up to its length: each is a positive multiple of
0x1000 bytes long and fits. -/
inductive Tiled (m : Mem) (len : ℕ) : ℕ → Prop
  | done : Tiled m len len
  | bin {off : ℕ} (header : BinAt m off) (pos : 0 < binSize m off) (dvd : 0x1000 ∣ binSize m off)
      (fits : off + binSize m off ≤ len) (rest : Tiled m len (off + binSize m off)) :
      Tiled m len off

/-- The offsets that the bins from the start of the image on lead to. -/
inductive BinReached (m : Mem) (len : ℕ) : ℕ → Prop
  | start : BinReached m len 0
  | bin {off : ℕ} (before : BinReached m len off) (header : BinAt m off) (pos : 0 < binSize m off)
      (dvd : 0x1000 ∣ binSize m off) (fits : off + binSize m off ≤ len) :
      BinReached m len (off + binSize m off)

/-- A multiple of a page has no bits below. -/
theorem dvd_iff_and (n : ℕ) : 0x1000 ∣ n ↔ n &&& 0xfff = 0 := by
  rw [Nat.dvd_iff_mod_eq_zero, show 0xfff = 2 ^ 12 - 1 from rfl, Nat.and_two_pow_sub_one_eq_mod]

section Bins

variable {m : Mem} {len fuel off : ℕ}

/-- One round of the check. -/
theorem validateBins_of_bin (hlt : off < len) (header : BinAt m off) (dvd : 0x1000 ∣ binSize m off)
    (fits : off + binSize m off ≤ len) :
    validateBins m len (fuel + 1) off = validateBins m len fuel (off + binSize m off) := by
  rw [validateBins]
  simp only [if_pos hlt]
  rw [if_neg (not_not_intro header.signature), if_neg (not_not_intro header.fileOffset), if_neg,
    if_neg]
  · rfl
  · exact not_not_intro ((dvd_iff_and _).mp dvd)
  · rw [binSize] at fits
    omega

/-- What is no bin that fits is refused. -/
theorem validateBins_of_not_bin (hlt : off < len)
    (h : ¬(BinAt m off ∧ 0x1000 ∣ binSize m off ∧ off + binSize m off ≤ len)) :
    validateBins m len (fuel + 1) off = some false := by
  rw [validateBins]
  simp only [if_pos hlt]
  by_cases h₁ : m.word (0x1000 + off) 4 ≠ 0x6e696268
  · rw [if_pos h₁]
  by_cases h₂ : m.word (0x1000 + off + 4) 4 ≠ off
  · rw [if_neg h₁, if_pos h₂]
  by_cases h₃ : len - off < m.word (0x1000 + off + 8) 4
  · rw [if_neg h₁, if_neg h₂, if_pos h₃]
  rw [if_neg h₁, if_neg h₂, if_neg h₃, if_pos]
  intro hand
  refine h ⟨⟨not_not.mp h₁, not_not.mp h₂⟩, (dvd_iff_and _).mpr hand, ?_⟩
  rw [binSize]
  omega

/-- Behind the length the walk is over. -/
theorem validateBins_of_le (h : len ≤ off) : validateBins m len (fuel + 1) off = some true := by
  rw [validateBins]
  exact if_neg (Nat.not_lt.mpr h)

/-- A check that ends accepts exactly what bins tile. -/
theorem validateBins_eq_true_iff {b : Bool} (hle : off ≤ len)
    (h : validateBins m len fuel off = some b) : b = true ↔ Tiled m len off := by
  induction fuel generalizing off with
  | zero => cases h
  | succ fuel ih =>
      rcases hle.lt_or_eq with hlt | rfl
      · by_cases hbin : BinAt m off ∧ 0x1000 ∣ binSize m off ∧ off + binSize m off ≤ len
        · obtain ⟨header, dvd, fits⟩ := hbin
          rw [validateBins_of_bin hlt header dvd fits] at h
          rw [ih fits h]
          constructor
          · intro hrest
            rcases Nat.eq_zero_or_pos (binSize m off) with hzero | pos
            · rwa [hzero, Nat.add_zero] at hrest
            · exact Tiled.bin header pos dvd fits hrest
          · intro hoff
            cases hoff with
            | done => exact absurd hlt (lt_irrefl _)
            | bin _ _ _ _ rest => exact rest
        · rw [validateBins_of_not_bin hlt hbin] at h
          cases h
          simp only [Bool.false_eq_true, false_iff]
          intro hoff
          cases hoff with
          | done => exact lt_irrefl _ hlt
          | bin header _ dvd fits _ => exact hbin ⟨header, dvd, fits⟩
      · rw [validateBins_of_le le_rfl] at h
        cases h
        exact iff_of_true rfl Tiled.done

/-- At a bin of size 0 the check does not go on. -/
theorem validateBins_of_binSize_eq_zero (hlt : off < len) (header : BinAt m off)
    (hzero : binSize m off = 0) (fuel : ℕ) : validateBins m len fuel off = none := by
  induction fuel with
  | zero => rfl
  | succ fuel ih =>
      rw [validateBins_of_bin hlt header (hzero ▸ dvd_zero _) (by omega), hzero, Nat.add_zero, ih]

/-- A bin is not behind the length. -/
theorem BinReached.le (h : BinReached m len off) : off ≤ len := by
  cases h with
  | start => exact Nat.zero_le _
  | bin _ _ _ _ fits => exact fits

/-- A check that ends also ends from every offset that it comes to. -/
theorem BinReached.ends (h : BinReached m len off)
    (hends : ∃ fuel b, validateBins m len fuel 0 = some b) :
    ∃ fuel b, validateBins m len fuel off = some b := by
  induction h with
  | start => exact hends
  | @bin off _ header pos dvd fits ih =>
      obtain ⟨fuel, b, hb⟩ := ih
      cases fuel with
      | zero => cases hb
      | succ fuel =>
          rw [validateBins_of_bin (by omega) header dvd fits] at hb
          exact ⟨fuel, b, hb⟩

/-- If no bin that is reached has size 0, the check ends from every offset that is reached. -/
theorem BinReached.exists_eq_some
    (hpos : ∀ o, BinReached m len o → o < len → BinAt m o → 0 < binSize m o)
    (n : ℕ) (h : BinReached m len off) (hn : len - off ≤ n) :
    ∃ fuel b, validateBins m len fuel off = some b := by
  induction n generalizing off with
  | zero => exact ⟨1, true, validateBins_of_le (by omega)⟩
  | succ n ih =>
      by_cases hlt : off < len
      · by_cases hbin : BinAt m off ∧ 0x1000 ∣ binSize m off ∧ off + binSize m off ≤ len
        · obtain ⟨header, dvd, fits⟩ := hbin
          have pos := hpos off h hlt header
          obtain ⟨fuel, b, hb⟩ := ih (h.bin header pos dvd fits) (by omega)
          exact ⟨fuel + 1, b, by rw [validateBins_of_bin hlt header dvd fits, hb]⟩
        · exact ⟨1, false, validateBins_of_not_bin hlt hbin⟩
      · exact ⟨1, true, validateBins_of_le (by omega)⟩

end Bins

/-- **The check of the bins** ends, and accepts exactly the images that bins tile, if and only if no
bin that it comes to has size 0. -/
theorem validateBins_tiled_iff (m : Mem) (len : ℕ) :
    ((∃ fuel b, validateBins m len fuel 0 = some b) ∧
      ∀ fuel b, validateBins m len fuel 0 = some b → (b = true ↔ Tiled m len 0)) ↔
      ∀ off, BinReached m len off → off < len → BinAt m off → 0 < binSize m off := by
  constructor
  · rintro ⟨hends, -⟩ off hreached hlt header
    by_contra hzero
    obtain ⟨fuel, b, hb⟩ := hreached.ends hends
    rw [validateBins_of_binSize_eq_zero hlt header (by omega)] at hb
    cases hb
  · intro hpos
    exact ⟨BinReached.exists_eq_some hpos len BinReached.start (by omega),
      fun fuel b hb => validateBins_eq_true_iff (Nat.zero_le _) hb⟩

/-- A header with a length of 0x1000 bytes, and a bin that states the size 0. -/
def emptyBinImage : Mem :=
  image [(0, 4, 0x66676572), (20, 4, 1), (24, 4, 3), (32, 4, 1), (40, 4, 0x1000), (44, 4, 1),
    (0x1000, 4, 0x6e696268)]

/-- The check of a bin of size 0 does not end. -/
theorem not_validateBins_ends :
    ¬∀ m : Mem, (∃ fuel b, validateBins m (headerLength m) fuel 0 = some b) ∧
      ∀ fuel b, validateBins m (headerLength m) fuel 0 = some b →
        (b = true ↔ Tiled m (headerLength m) 0) := by
  intro h
  obtain ⟨⟨fuel, b, hb⟩, -⟩ := h emptyBinImage
  have header : BinAt emptyBinImage 0 := ⟨by decide +kernel, by decide +kernel⟩
  rw [validateBins_of_binSize_eq_zero (by decide +kernel) header (by decide +kernel)] at hb
  cases hb

end Ntloader.Reg
