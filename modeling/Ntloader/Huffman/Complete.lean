import Ntloader.Huffman.Decode
import Mathlib.Data.Rat.Defs
import Mathlib.Algebra.Order.Field.Rat

/-!
# Which tables are accepted

* `kraftSum` — the sum of the shares of the code space that the symbols of a table take.
* `huffmanAlphabet_accepts_iff` — a table is accepted iff it is empty or takes the whole code space.
* `huffmanSym_of_empty`, `huffmanRaw_of_empty` — the two single-bit codes of an empty table. Their
  symbols are not filed: they are read from in front of `raw`.
* `huffmanSym_congr` — what an accepted table decodes to does not depend on what the memory of the
  alphabet held, but for what stands in front of `raw`.
-/

namespace Ntloader.Huffman

open Ntloader.Lib

/-! ## The Kraft sum -/

/-- The sum of `2 ^ (-l)` over the symbols with a length `l` other than zero. -/
def kraftSum (lengths : List ℕ) : ℚ :=
  ((lengths.filter (· ≠ 0)).map fun l => 1 / (2 : ℚ) ^ l).sum

/-- An unused symbol adds nothing to the Kraft sum. -/
theorem kraftSum_cons_zero (lengths : List ℕ) : kraftSum (0 :: lengths) = kraftSum lengths := rfl

/-- A used symbol adds its share. -/
theorem kraftSum_cons_of_ne {l : ℕ} (hl : l ≠ 0) (lengths : List ℕ) :
    kraftSum (l :: lengths) = 1 / (2 : ℚ) ^ l + kraftSum lengths := by
  rw [kraftSum, List.filter_cons_of_pos (by simpa using hl), List.map_cons, List.sum_cons]
  rfl

/-- The strings of 16 bits that the blocks of a table take are its share of all of them. -/
theorem kraft_eq_kraftSum {lengths : List ℕ} (hle : ∀ l ∈ lengths, l ≤ 16) :
    (Canonical.kraft (lenOf lengths) 16 : ℚ) = 2 ^ 16 * kraftSum lengths := by
  rw [kraft_lenOf]
  induction lengths with
  | nil => rw [List.map_nil, List.sum_nil, kraftSum, List.filter_nil, List.map_nil, List.sum_nil,
      mul_zero, Nat.cast_zero]
  | cons l lengths ih =>
      have hrest := ih fun l hl => hle l (List.mem_cons_of_mem _ hl)
      rw [List.map_cons, List.sum_cons, Nat.cast_add, hrest]
      rcases Nat.eq_zero_or_pos l with rfl | hpos
      · rw [if_neg (lt_irrefl 0), kraftSum_cons_zero, Nat.cast_zero, zero_add]
      · have hl : l ≤ 16 := hle l List.mem_cons_self
        have hsplit : (2 : ℚ) ^ 16 = 2 ^ (16 - l) * 2 ^ l := by
          rw [← pow_add, Nat.sub_add_cancel hl]
        have hshare : (2 : ℚ) ^ 16 * (1 / 2 ^ l) = 2 ^ (16 - l) := by
          rw [hsplit, mul_assoc, mul_one_div_cancel (pow_ne_zero _ two_ne_zero), mul_one]
        rw [if_pos hpos, kraftSum_cons_of_ne hpos.ne', mul_add, hshare, Nat.cast_pow, Nat.cast_ofNat]

/-- The sum over codes of 16 bits is full exactly if the Kraft sum is 1. -/
theorem kraft_eq_iff {lengths : List ℕ} (hle : ∀ l ∈ lengths, l ≤ 16) :
    Canonical.kraft (lenOf lengths) 16 = 2 ^ 16 ↔ kraftSum lengths = 1 := by
  have hq := kraft_eq_kraftSum hle
  constructor
  · intro h
    rw [h, Nat.cast_pow, Nat.cast_ofNat] at hq
    exact mul_left_cancel₀ (pow_ne_zero 16 two_ne_zero) (hq.symm.trans (mul_one _).symm)
  · intro h
    rw [h, mul_one] at hq
    exact_mod_cast hq

/-! ## The empty table -/

/-- An empty table is counted as two codes of one bit. -/
theorem tableFreq_of_empty {lengths : List ℕ} (h0 : ∀ l ∈ lengths, l = 0) :
    tableFreq lengths = Function.update (fun _ => 0) 1 2 := by
  rw [tableFreq, if_pos]
  simpa only [List.all_eq_true, beq_iff_eq] using h0

/-- Two codes of one bit fill every longer length. -/
theorem hufAt_trivial (bits : ℕ) :
    hufAt (Function.update (fun _ => 0) 1 2) (bits + 2) = 2 ^ (bits + 2) := by
  induction bits with
  | zero => rfl
  | succ bits ih =>
      rw [hufAt_succ _ (by omega), ih, Function.update_of_ne (by omega), Nat.add_zero, ← pow_succ']

/-- No symbol is used exactly if all lengths are zero. -/
theorem not_used_iff {lengths : List ℕ} : ¬Used lengths ↔ ∀ l ∈ lengths, l = 0 := by
  simp only [Used, not_exists, not_and, not_not]

/-- An empty table is accepted. -/
theorem huffmanAlphabet_of_empty (a : HuffmanAlphabet) {lengths : List ℕ}
    (hn : lengths.length < 2 ^ 16) (h0 : ∀ l ∈ lengths, l = 0) :
    huffmanAlphabet a lengths = some (alphabetOf a lengths) := by
  rw [huffmanAlphabet_eq_some_iff a _ hn, tableFreq_of_empty h0]
  refine ⟨fun j h₁ h₂ => ?_, hufAt_trivial 15, rfl⟩
  rcases Nat.lt_or_ge 1 j with hj | hj
  · obtain ⟨bits, rfl⟩ : ∃ bits, j = bits + 2 := ⟨j - 2, by omega⟩
    rw [hufAt_trivial, Function.update_of_ne (by omega), Nat.add_zero]
  · obtain rfl : j = 1 := by omega
    exact le_rfl

/-- **Tables are accepted exactly when complete.** `huffman_alphabet` accepts a table of code lengths
if and only if all lengths are zero or the Kraft sum of the others is one.
Source: libnt/huffman.c, huffman_alphabet -/
theorem huffmanAlphabet_accepts_iff (a : HuffmanAlphabet) (lengths : List ℕ)
    (hn : lengths.length ≤ 65535) (hle : ∀ l ∈ lengths, l ≤ 16) :
    (huffmanAlphabet a lengths).isSome ↔ (∀ l ∈ lengths, l = 0) ∨ kraftSum lengths = 1 := by
  by_cases hu : Used lengths
  · rw [huffmanAlphabet_isSome_iff a (by omega) hle hu, kraft_eq_iff hle]
    refine ⟨Or.inr, fun h => h.resolve_left ?_⟩
    rw [← not_used_iff]
    exact not_not.mpr hu
  · have h0 := not_used_iff.mp hu
    rw [huffmanAlphabet_of_empty a (by omega) h0]
    exact ⟨fun _ => Or.inl h0, fun _ => rfl⟩

/-- One symbol of one bit and two of two bits. -/
theorem huffmanAlphabet_accepts_iff_three :
    (huffmanAlphabet clearAlphabet [1, 2, 2]).isSome ↔
      (∀ l ∈ [1, 2, 2], l = 0) ∨ kraftSum [1, 2, 2] = 1 :=
  huffmanAlphabet_accepts_iff clearAlphabet [1, 2, 2] (by decide) (by decide)

/-! ## What an accepted table decodes to -/

/-- No symbol of an empty table is filed. -/
theorem foldl_fillSym_of_empty {xs : List (ℕ × ℕ)} (h0 : ∀ p ∈ xs, p.1 = 0)
    (a : HuffmanAlphabet) : xs.foldl fillSym a = a := by
  induction xs with
  | nil => rfl
  | cons p xs ih =>
      have hp : p.1 = 0 := h0 p List.mem_cons_self
      rw [List.foldl_cons, fillSym, if_neg (not_not.mpr hp)]
      exact ih fun p hp => h0 p (List.mem_cons_of_mem _ hp)

/-- Counting leaves the raw symbols, -/
theorem foldl_countSym_raw (lengths : List ℕ) (s : HuffmanAlphabet × Bool) :
    (lengths.foldl countSym s).1.raw = s.1.raw := by
  induction lengths generalizing s with
  | nil => rfl
  | cons l lengths ih =>
      rw [List.foldl_cons, ih, countSym]
      split_ifs
      · rfl
      · rfl

/-- and so does the layout. -/
theorem laidOut_raw (a : HuffmanAlphabet) (lengths : List ℕ) : (laidOut a lengths).raw = a.raw := by
  have hcount : (countSyms a lengths).1.raw = a.raw := foldl_countSym_raw _ _
  simp only [laidOut, trivialIfEmpty]
  split_ifs
  · exact hcount
  · exact hcount

/-- Symbols are filed at the raw pointers, which only grow. -/
theorem foldl_fillSym_raw_neg {xs : List (ℕ × ℕ)} (hle : ∀ p ∈ xs, p.1 ≤ 16)
    {a : HuffmanAlphabet} (ha : ∀ i < 16, 0 ≤ (a.huf i).raw) {i : ℤ} (hi : i < 0) :
    (xs.foldl fillSym a).raw i = a.raw i := by
  induction xs generalizing a with
  | nil => rfl
  | cons p xs ih =>
      have hp : p.1 ≤ 16 := hle p List.mem_cons_self
      have hrest : ∀ q ∈ xs, q.1 ≤ 16 := fun q hq => hle q (List.mem_cons_of_mem _ hq)
      rw [List.foldl_cons, fillSym]
      by_cases hp0 : p.1 ≠ 0
      · have hptr : 0 ≤ (a.huf (p.1 - 1)).raw := ha _ (by omega)
        rw [if_pos hp0, ih hrest]
        · exact Function.update_of_ne (by omega) _ _
        · intro j hj
          by_cases hjp : j = p.1 - 1
          · rw [hjp, setSym_huf_self]
            dsimp only
            omega
          · rw [setSym_huf_of_ne _ hjp]
            exact ha j hj
      · rw [if_neg hp0]
        exact ih hrest ha

/-- The adjustment leaves the raw symbols. -/
theorem foldl_adjustSym_raw (a : HuffmanAlphabet) (xs : List ℕ) :
    (xs.foldl adjustSym a).raw = a.raw := by
  induction xs generalizing a with
  | nil => rfl
  | cons bits xs ih => exact ih _

/-- Nothing is filed in front of `raw`. -/
theorem alphabetOf_raw_neg (a : HuffmanAlphabet) {lengths : List ℕ} (hle : ∀ l ∈ lengths, l ≤ 16)
    {i : ℤ} (hi : i < 0) : (alphabetOf a lengths).raw i = a.raw i := by
  rw [alphabetOf, foldl_adjustSym_raw, foldl_fillSym_raw_neg _ _ hi, laidOut_raw]
  · intro p hp
    exact hle _ (List.fst_mem_of_mem_zipIdx hp)
  · intro j hj
    rw [laidOut_huf a lengths hj]
    exact Int.natCast_nonneg _

/-- The first entry of an empty table's alphabet is the one that every lookup finds. -/
theorem alphabetOf_of_empty (a : HuffmanAlphabet) {lengths : List ℕ} (h0 : ∀ l ∈ lengths, l = 0) :
    (alphabetOf a lengths).huf 0 = ⟨1, 15, 2, 0, -2⟩ ∧
      ∀ p < 2 ^ 7, (alphabetOf a lengths).lookup p = 0 := by
  have hfill : lengths.zipIdx.foldl fillSym (laidOut a lengths) = laidOut a lengths :=
    foldl_fillSym_of_empty (fun p hp => h0 _ (List.fst_mem_of_mem_zipIdx hp)) _
  have hhuf : ∀ i < 16, (laidOut a lengths).huf i =
      entry (Function.update (fun _ => 0) 1 2) (i + 1) := by
    intro i hi
    rw [laidOut_huf a lengths hi, tableFreq_of_empty h0]
  have hstart : ((laidOut a lengths).huf 0).start = 0 := by
    rw [hhuf 0 (by omega)]
    rfl
  obtain ⟨hadj, -, hlookup⟩ := adjustSym_foldl (laidOut a lengths) hstart 15
  rw [alphabetOf, hfill]
  refine ⟨?_, fun p hp => ?_⟩
  · rw [hadj, if_pos (by omega), hhuf 0 (by omega)]
    rfl
  · obtain ⟨hle, hp', -⟩ := hlookup p hp
    by_contra hne
    obtain ⟨i, hi⟩ := Nat.exists_eq_succ_of_ne_zero hne
    -- every longer length starts past the last prefix
    rw [hi] at hle
    rw [hi, hhuf _ (by omega)] at hp'
    have hblock : hufAt (Function.update (fun _ => 0) 1 2) (i + 2) * 2 ^ (16 - (i + 2)) = 2 ^ 16 := by
      rw [hufAt_trivial, ← pow_add, Nat.add_sub_cancel' (by omega)]
    have hend : hufAt (Function.update (fun _ => 0) 1 2) (i + 2) * 2 ^ (16 - (i + 2)) / 2 ^ 9 ≤ p :=
      hp'
    rw [hblock] at hend
    omega

/-- An empty table decodes one bit to one of two symbols in front of `raw`. -/
theorem huffmanSym_of_empty (a : HuffmanAlphabet) {lengths : List ℕ} (h0 : ∀ l ∈ lengths, l = 0)
    {huf : ℕ} (hh : huf < 2 ^ 16) :
    huffmanSym (alphabetOf a lengths) huf = ⟨1, 15, 2, 0, -2⟩ := by
  obtain ⟨hfirst, hlookup⟩ := alphabetOf_of_empty a h0
  have hp : huf >>> 9 < 2 ^ 7 := by
    rw [Nat.shiftRight_eq_div_pow]
    omega
  have hl : (alphabetOf a lengths).lookup (huf >>> huffmanQlShift) = 0 := hlookup _ hp
  rw [huffmanSym, hl, huffmanSearch, hfirst]

/-- **A symbol of an empty table** is read in front of the raw symbols. -/
theorem huffmanRaw_of_empty (a : HuffmanAlphabet) {lengths : List ℕ} (h0 : ∀ l ∈ lengths, l = 0)
    {huf : ℕ} (hh : huf < 2 ^ 16) :
    huffmanRaw (alphabetOf a lengths) (huffmanSym (alphabetOf a lengths) huf) huf =
      a.raw (-2 + (huf / 2 ^ 15 : ℕ)) := by
  have hle : ∀ l ∈ lengths, l ≤ 16 := fun l hl => by rw [h0 l hl]; omega
  rw [huffmanSym_of_empty a h0 hh, huffmanRaw, huffmanRawIndex]
  dsimp only
  rw [Nat.shiftRight_eq_div_pow, alphabetOf_raw_neg a hle (by omega)]

/-- A symbol of an accepted table is coded in one bit at least, and in 16 at most. -/
theorem huffmanLen_le {a b : HuffmanAlphabet} {lengths : List ℕ} (hn : lengths.length < 2 ^ 16)
    (hle : ∀ l ∈ lengths, l ≤ 16) (h : huffmanAlphabet a lengths = some b) {huf : ℕ}
    (hh : huf < 2 ^ 16) : 1 ≤ huffmanLen (huffmanSym b huf) ∧ huffmanLen (huffmanSym b huf) ≤ 16 := by
  by_cases hu : Used lengths
  · obtain ⟨s, ⟨hs, -⟩, -, hlen, -⟩ := huffman_decode_canonical a b lengths (by omega) hle hu h huf hh
    rw [hlen]
    exact ⟨hs, lenOf_le hle s⟩
  · have h0 := not_used_iff.mp hu
    obtain rfl := Option.some.inj ((huffmanAlphabet_of_empty a hn h0).symm.trans h)
    rw [huffmanSym_of_empty a h0 hh]
    exact ⟨le_rfl, by decide⟩

/-- The symbol read is one of the table, or stands in front of `raw`. -/
theorem huffmanRaw_lt {a b : HuffmanAlphabet} {lengths : List ℕ} (hn : lengths.length < 2 ^ 16)
    (hle : ∀ l ∈ lengths, l ≤ 16) (h : huffmanAlphabet a lengths = some b)
    (hneg : ∀ i, -2 ≤ i → i < 0 → a.raw i < lengths.length) {huf : ℕ} (hh : huf < 2 ^ 16) :
    huffmanRaw b (huffmanSym b huf) huf < lengths.length := by
  by_cases hu : Used lengths
  · obtain ⟨s, -, -, -, hraw⟩ := huffman_decode_canonical a b lengths (by omega) hle hu h huf hh
    rw [hraw]
    exact s.isLt
  · have h0 := not_used_iff.mp hu
    obtain rfl := Option.some.inj ((huffmanAlphabet_of_empty a hn h0).symm.trans h)
    rw [huffmanRaw_of_empty a h0 hh]
    exact hneg _ (by omega) (by omega)

/-- What an accepted table decodes to depends on the table, and on what stands in front of `raw`. -/
theorem huffmanSym_congr {a a' b b' : HuffmanAlphabet} {lengths : List ℕ}
    (hn : lengths.length < 2 ^ 16) (hle : ∀ l ∈ lengths, l ≤ 16)
    (h : huffmanAlphabet a lengths = some b) (h' : huffmanAlphabet a' lengths = some b')
    (hneg : ∀ i, -2 ≤ i → i < 0 → a.raw i = a'.raw i) {huf : ℕ} (hh : huf < 2 ^ 16) :
    huffmanLen (huffmanSym b huf) = huffmanLen (huffmanSym b' huf) ∧
      huffmanRaw b (huffmanSym b huf) huf = huffmanRaw b' (huffmanSym b' huf) huf := by
  by_cases hu : Used lengths
  · obtain ⟨s, ⟨hs, hpre⟩, -, hlen, hraw⟩ :=
      huffman_decode_canonical a b lengths (by omega) hle hu h huf hh
    obtain ⟨s', -, huniq, hlen', hraw'⟩ :=
      huffman_decode_canonical a' b' lengths (by omega) hle hu h' huf hh
    obtain rfl := huniq s hs hpre
    exact ⟨hlen.trans hlen'.symm, hraw.trans hraw'.symm⟩
  · have h0 := not_used_iff.mp hu
    obtain rfl := Option.some.inj ((huffmanAlphabet_of_empty a hn h0).symm.trans h)
    obtain rfl := Option.some.inj ((huffmanAlphabet_of_empty a' hn h0).symm.trans h')
    constructor
    · rw [huffmanSym_of_empty a h0 hh, huffmanSym_of_empty a' h0 hh]
    · rw [huffmanRaw_of_empty a h0 hh, huffmanRaw_of_empty a' h0 hh]
      exact hneg _ (by omega) (by omega)

/-- Whether a table is accepted depends on the table. -/
theorem huffmanAlphabet_isSome_congr (a a' : HuffmanAlphabet) {lengths : List ℕ}
    (hn : lengths.length < 2 ^ 16) :
    (huffmanAlphabet a lengths).isSome = (huffmanAlphabet a' lengths).isSome := by
  have hiff : ∀ c : HuffmanAlphabet, (huffmanAlphabet c lengths).isSome = true ↔
      (∀ j, 1 ≤ j → j < 1 + 16 → hufAt (tableFreq lengths) j + tableFreq lengths j ≤ 2 ^ j) ∧
        hufAt (tableFreq lengths) 17 = 2 ^ 17 := by
    intro c
    rw [Option.isSome_iff_exists]
    constructor
    · rintro ⟨b, hb⟩
      obtain ⟨h₁, h₂, -⟩ := (huffmanAlphabet_eq_some_iff c b hn).mp hb
      exact ⟨h₁, h₂⟩
    · rintro ⟨h₁, h₂⟩
      exact ⟨_, (huffmanAlphabet_eq_some_iff c _ hn).mpr ⟨h₁, h₂, rfl⟩⟩
  rw [Bool.eq_iff_iff, hiff a, hiff a']

/-- Nothing is filed in front of `raw`. -/
theorem huffmanAlphabet_raw_neg {a b : HuffmanAlphabet} {lengths : List ℕ}
    (hn : lengths.length < 2 ^ 16) (hle : ∀ l ∈ lengths, l ≤ 16)
    (h : huffmanAlphabet a lengths = some b) {i : ℤ} (hi : i < 0) : b.raw i = a.raw i := by
  obtain ⟨-, -, rfl⟩ := (huffmanAlphabet_eq_some_iff a b hn).mp h
  exact alphabetOf_raw_neg a hle hi

end Ntloader.Huffman
