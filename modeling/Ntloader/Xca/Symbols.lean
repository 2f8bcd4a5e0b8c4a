import Ntloader.Xca.Decompress
import Ntloader.Huffman.Complete

/-!
# The symbols that are looked up

A symbol is read through a pointer that has been moved back in front of the symbols of its length.

* `cumAt_lengthFreq` — the symbols of the shorter lengths stand in front.
* `RawInside` — the element read is one that the construction has filled in.
* `rawInside_iff` — so it is for every 16 bits, but in the alphabet of an unused table, which has
  codes and no symbols.
-/

namespace Ntloader.Xca

open Ntloader.Lib Ntloader.Huffman

/-! ## Where the symbols stand -/

/-- The number of coded symbols. -/
def codedSymbols (lengths : List ℕ) : ℕ := lengths.countP (· ≠ 0)

/-- One length more. -/
theorem countP_below_succ (lengths : List ℕ) {bits : ℕ} (hbits : 0 < bits) :
    lengths.countP (fun l => 0 < l ∧ l < bits + 1) =
      lengths.countP (fun l => 0 < l ∧ l < bits) + lengths.count bits := by
  induction lengths with
  | nil => rfl
  | cons l lengths ih =>
      rw [List.countP_cons, List.countP_cons, List.count_cons, ih]
      rcases lt_trichotomy l bits with hlt | rfl | hgt
      · have hne : ¬l = bits := hlt.ne
        simp [hlt, hne, Nat.lt_succ_of_lt hlt]
        omega
      · simp [hbits]
        omega
      · have hne : ¬l = bits := hgt.ne'
        have hge : ¬l < bits + 1 := by omega
        simp [hgt.not_gt, hne, hge]

/-- The symbols of a length stand behind those of the shorter ones. -/
theorem cumAt_lengthFreq (lengths : List ℕ) {bits : ℕ} (hbits : 0 < bits) :
    cumAt (lengthFreq lengths) bits = lengths.countP (fun l => 0 < l ∧ l < bits) := by
  induction bits with
  | zero => exact absurd hbits (Nat.lt_irrefl 0)
  | succ bits ih =>
      rcases Nat.eq_zero_or_pos bits with rfl | hpos
      · symm
        show lengths.countP (fun l => 0 < l ∧ l < 0 + 1) = 0
        rw [List.countP_eq_zero]
        intro l _
        simp only [decide_eq_true_eq]
        omega
      · rw [cumAt_succ _ hpos, ih hpos, countP_below_succ lengths hpos, lengthFreq]

/-- Behind the last length all used symbols are filed. -/
theorem cumAt_seventeen {lengths : List ℕ} (hle : ∀ l ∈ lengths, l ≤ 16) :
    cumAt (lengthFreq lengths) 17 = codedSymbols lengths := by
  rw [cumAt_lengthFreq lengths (by norm_num), codedSymbols]
  refine List.countP_congr fun l hl => ?_
  have hl16 := hle l hl
  simp only [decide_eq_true_eq]
  omega

/-- The place of a coded symbol is below the number of coded symbols. -/
theorem place_lt {lengths : List ℕ} (hle : ∀ l ∈ lengths, l ≤ 16) {s : Fin lengths.length}
    (hs : 0 < lenOf lengths s) :
    cumAt (lengthFreq lengths) (lenOf lengths s) + Canonical.rank (lenOf lengths) s <
      codedSymbols lengths := by
  have hrank := Canonical.rank_lt_freq (lenOf lengths) s
  rw [freq_lenOf] at hrank
  have hend := cumAt_add_le (lengthFreq lengths) hs (Nat.lt_succ_of_le (lenOf_le hle s))
  rw [cumAt_seventeen hle] at hend
  exact (Nat.add_lt_add_left hrank _).trans_le hend

/-! ## What is read -/

/-- The number of bits of the match offset that a symbol asks for.
Source: libnt/xca.c, xca_decompress, `match_offset_bits` -/
def matchOffsetBits (raw : ℕ) : ℕ := (raw - xcaEndMarker) >>> 4

/-- The element that is read for 16 bits is one that has been filled in: it is in the table, and it is
the symbol that has been filed there. -/
structure RawInside (lengths : List ℕ) (b : HuffmanAlphabet) (huf : ℕ) : Prop where
  index_nonneg : 0 ≤ huffmanRawIndex (huffmanSym b huf) huf
  index_lt : huffmanRawIndex (huffmanSym b huf) huf < codedSymbols lengths
  filled : ∃ s : Fin lengths.length, lenOf lengths s ≠ 0 ∧
    huffmanRaw b (huffmanSym b huf) huf = s
  raw_lt : huffmanRaw b (huffmanSym b huf) huf < xcaCodes
  offsetBits_le : matchOffsetBits (huffmanRaw b (huffmanSym b huf) huf) ≤ 15

/-- An offset has 15 bits at most. -/
theorem matchOffsetBits_le {raw : ℕ} (h : raw < xcaCodes) : matchOffsetBits raw ≤ 15 := by
  rw [xcaCodes] at h
  rw [matchOffsetBits, xcaEndMarker, Nat.shiftRight_eq_div_pow]
  omega

/-- A table in which a symbol is used. -/
theorem rawInside_of_used {a b : HuffmanAlphabet} {lengths : List ℕ} (hn : lengths.length = xcaCodes)
    (hle : ∀ l ∈ lengths, l ≤ 15) (h : huffmanAlphabet a lengths = some b) (hu : Used lengths)
    {huf : ℕ} (hh : huf < 2 ^ 16) : RawInside lengths b huf := by
  have hle16 : ∀ l ∈ lengths, l ≤ 16 := fun l hl => (hle l hl).trans (by norm_num)
  have hn16 : lengths.length < 2 ^ 16 := by
    rw [hn]
    norm_num
  have ha := isAlphabetOf_of_eq_some hn16 hle16 hu h
  obtain ⟨s, ⟨hs0, hs⟩, -⟩ :=
    Canonical.existsUnique_codeword_prefix (lenOf lengths) 16 (lenOf_le hle16) ha.complete hh
  obtain ⟨-, hindex, hraw⟩ := ha.decode hh hs0 hs
  have hlt : (s : ℕ) < xcaCodes := s.isLt.trans_eq hn
  refine ⟨?_, ?_, ⟨s, hs0.ne', hraw⟩, ?_, ?_⟩
  · rw [hindex]
    exact Int.natCast_nonneg _
  · rw [hindex]
    exact Int.ofNat_lt.mpr (place_lt hle16 hs0)
  · rw [hraw]
    exact hlt
  · rw [hraw]
    exact matchOffsetBits_le hlt

/-- In an unused table the element in front of the symbols is read. -/
theorem index_neg_of_empty (a : HuffmanAlphabet) {lengths : List ℕ} (h0 : ∀ l ∈ lengths, l = 0)
    {huf : ℕ} (hh : huf < 2 ^ 16) :
    huffmanRawIndex (huffmanSym (alphabetOf a lengths) huf) huf < 0 := by
  rw [huffmanSym_of_empty a h0 hh, huffmanRawIndex]
  dsimp only
  rw [Nat.shiftRight_eq_div_pow]
  omega

/-- The symbols that are read have been filled in exactly if a symbol is used. -/
theorem rawInside_iff {a b : HuffmanAlphabet} {lengths : List ℕ} (hn : lengths.length = xcaCodes)
    (hle : ∀ l ∈ lengths, l ≤ 15) (h : huffmanAlphabet a lengths = some b) :
    (∀ huf < 2 ^ 16, RawInside lengths b huf) ↔ ∃ l ∈ lengths, l ≠ 0 := by
  constructor
  · intro hall
    by_contra hu
    have h0 := not_used_iff.mp hu
    have hn16 : lengths.length < 2 ^ 16 := by
      rw [hn]
      norm_num
    obtain rfl := Option.some.inj ((huffmanAlphabet_of_empty a hn16 h0).symm.trans h)
    have hneg := @index_neg_of_empty a lengths h0 0 (by norm_num)
    exact absurd (hall 0 (by norm_num)).index_nonneg (Int.not_le.mpr hneg)
  · intro hu huf hh
    exact rawInside_of_used hn hle h hu hh

/-- A table of two symbols of one bit. -/
def twoSymbols : List ℕ := [1, 1] ++ List.replicate 510 0

/-- A table of two symbols. -/
theorem rawInside_iff_twoSymbols :
    (∀ huf < 2 ^ 16, RawInside twoSymbols (alphabetOf clearAlphabet twoSymbols) huf) ↔
      ∃ l ∈ twoSymbols, l ≠ 0 := by
  have hlen : twoSymbols.length = xcaCodes := by decide +kernel
  have hle : ∀ l ∈ twoSymbols, l ≤ 15 := by decide +kernel
  have hkraft : Canonical.kraft (lenOf twoSymbols) 16 = 2 ^ 16 := by
    rw [kraft_lenOf]
    decide +kernel
  refine rawInside_iff hlen hle (huffmanAlphabet_of_complete clearAlphabet ?_ ?_ ?_ hkraft)
  · rw [hlen]
    norm_num
  · exact fun l hl => (hle l hl).trans (by norm_num)
  · exact ⟨1, List.mem_cons_self, one_ne_zero⟩

/-- The table of 512 zeros is accepted, and the element -2 is read. -/
theorem not_rawInside_unused :
    ¬∀ (a b : HuffmanAlphabet) (lengths : List ℕ), lengths.length = xcaCodes →
      (∀ l ∈ lengths, l ≤ 15) → huffmanAlphabet a lengths = some b →
      ∀ huf < 2 ^ 16, RawInside lengths b huf := by
  intro hall
  have h0 : ∀ l ∈ List.replicate xcaCodes 0, l = 0 := fun l hl => List.eq_of_mem_replicate hl
  have hlen : (List.replicate xcaCodes 0).length = xcaCodes := List.length_replicate
  have hsome := huffmanAlphabet_of_empty clearAlphabet (hlen.trans_lt (by norm_num)) h0
  have hinside := hall clearAlphabet _ _ hlen (fun l hl => by rw [h0 l hl]; norm_num) hsome 0
    (by norm_num)
  have hneg := @index_neg_of_empty clearAlphabet _ h0 0 (by norm_num)
  exact absurd hinside.index_nonneg (Int.not_le.mpr hneg)

end Ntloader.Xca
