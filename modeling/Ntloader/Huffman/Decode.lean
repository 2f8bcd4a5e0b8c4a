import Ntloader.Huffman.Table

/-!
# Huffman decoding is the canonical prefix decoding

* `hufAt_mul` — the running number of the second pass, normalised to 16 bits, is the first 16-bit
  string of the canonical code's block of that length.
* `huffmanAlphabet_isSome_iff` — a table with a used symbol is accepted iff it is Kraft-complete.
* `IsAlphabetOf` — what an accepted alphabet satisfies; `isAlphabetOf_of_eq_some` proves it of the
  construction.
* `IsAlphabetOf.decode` — the symbol set and the raw symbol that the two lookups return are those
  of the codeword the 16 bits start with.
* `huffman_decode_canonical` — decoding of accepted alphabets, with the uniqueness of that codeword.
-/

namespace Ntloader.Huffman

open Ntloader.Lib

/-- The number of symbols of each length. -/
def lengthFreq (lengths : List ℕ) (bits : ℕ) : ℕ := lengths.count bits

/-- Lengths are 16 at most. -/
theorem lenOf_le {lengths : List ℕ} (hle : ∀ l ∈ lengths, l ≤ 16) (s : Fin lengths.length) :
    lenOf lengths s ≤ 16 := hle _ (List.getElem_mem _)

/-! ## The running numbers are the canonical layout -/

/-- The first code of a length, as a number of 16 bits. -/
theorem hufAt_mul (lengths : List ℕ) {bits : ℕ} (h1 : 0 < bits) (h16 : bits ≤ 16) :
    hufAt (lengthFreq lengths) bits * 2 ^ (16 - bits) =
      Canonical.first (lenOf lengths) 16 bits := by
  induction bits with
  | zero => omega
  | succ bits ih =>
      rcases Nat.eq_zero_or_pos bits with rfl | hpos
      · simp [hufAt]
      · have hpow : 2 ^ (16 - bits) = 2 * 2 ^ (16 - (bits + 1)) := by
          rw [← pow_succ']
          congr 1
          omega
        rw [hufAt_succ _ hpos, Canonical.first_succ _ _ _ hpos, ← ih hpos (by omega), freq_lenOf,
          hpow, lengthFreq]
        ring

/-- One more round: the end of a length's block. -/
theorem hufAt_add_mul (lengths : List ℕ) {bits : ℕ} (h1 : 0 < bits) (h16 : bits ≤ 16) :
    (hufAt (lengthFreq lengths) bits + lengthFreq lengths bits) * 2 ^ (16 - bits) =
      Canonical.first (lenOf lengths) 16 (bits + 1) := by
  rw [Nat.add_mul, hufAt_mul lengths h1 h16, Canonical.first_succ _ _ _ h1, freq_lenOf, lengthFreq]

/-- Behind the last length is the sum of all codes. -/
theorem hufAt_seventeen {lengths : List ℕ} (hle : ∀ l ∈ lengths, l ≤ 16) :
    hufAt (lengthFreq lengths) 17 = 2 * Canonical.kraft (lenOf lengths) 16 := by
  have hend := @hufAt_add_mul lengths 16 (by omega) le_rfl
  rw [Canonical.first_eq_kraft _ _ (fun t => Nat.lt_succ_of_le (lenOf_le hle t))] at hend
  rw [hufAt_succ _ (by omega), ← hend]
  simp

/-- No length overflows in a table that takes at most the whole code space. -/
theorem hufAt_add_le {lengths : List ℕ} (hle : ∀ l ∈ lengths, l ≤ 16)
    (hk : Canonical.kraft (lenOf lengths) 16 ≤ 2 ^ 16) {bits : ℕ} (h1 : 0 < bits)
    (h16 : bits ≤ 16) :
    hufAt (lengthFreq lengths) bits + lengthFreq lengths bits ≤ 2 ^ bits := by
  have hmono := Canonical.first_mono (lenOf lengths) 16 (show bits + 1 ≤ 17 by omega)
  rw [Canonical.first_eq_kraft _ _ (l := 17) (fun t => Nat.lt_succ_of_le (lenOf_le hle t)),
    ← hufAt_add_mul lengths h1 h16] at hmono
  have hpow : (2 : ℕ) ^ 16 = 2 ^ bits * 2 ^ (16 - bits) := by
    rw [← pow_add, Nat.add_sub_cancel' h16]
  exact Nat.le_of_mul_le_mul_right (by omega) (Nat.two_pow_pos (16 - bits))

/-! ## What is accepted, and what it looks like -/

/-- The frequencies the second pass reads: those of the lengths, or the two single-bit codes of the
trivial alphabet. -/
def tableFreq (lengths : List ℕ) : ℕ → ℕ :=
  if lengths.all (· == 0) then Function.update (fun _ => 0) 1 2 else lengthFreq lengths

/-- The symbol table before the second pass. -/
theorem trivialIfEmpty_freq (a : HuffmanAlphabet) {lengths : List ℕ} (hn : lengths.length < 2 ^ 16)
    {bits : ℕ} (h1 : 0 < bits) :
    ((trivialIfEmpty (countSyms a lengths)).huf (bits - 1)).freq = tableFreq lengths bits := by
  rw [trivialIfEmpty, countSyms_empty, tableFreq]
  by_cases he : lengths.all (· == 0) = true
  · rw [if_pos he, if_pos he]
    by_cases hb : bits = 1
    · subst hb
      simp
    · rw [setSym_huf_of_ne _ (by omega), Function.update_of_ne hb, countSyms_huf _ _ _ hn,
        Nat.sub_add_cancel h1]
      simp only [List.all_eq_true, beq_iff_eq] at he
      exact List.count_eq_zero.mpr fun hmem => absurd (he _ hmem) (by omega)
  · rw [if_neg he, if_neg he, countSyms_huf _ _ _ hn, Nat.sub_add_cancel h1]
    rfl

/-- The alphabet after the second pass, when no length has too many symbols. -/
def laidOut (a : HuffmanAlphabet) (lengths : List ℕ) : HuffmanAlphabet :=
  let b := trivialIfEmpty (countSyms a lengths)
  { b with huf := fun i =>
      if 1 ≤ i + 1 ∧ i + 1 < 1 + 16 then entry (tableFreq lengths) (i + 1) else b.huf i }

/-- The entry of a length in the layout. -/
theorem laidOut_huf (a : HuffmanAlphabet) (lengths : List ℕ) {i : ℕ} (hi : i < 16) :
    (laidOut a lengths).huf i = entry (tableFreq lengths) (i + 1) := by
  simp only [laidOut]
  rw [if_pos (by omega)]

/-- The alphabet the construction leaves. -/
def alphabetOf (a : HuffmanAlphabet) (lengths : List ℕ) : HuffmanAlphabet :=
  (List.range' 1 16).foldl adjustSym (lengths.zipIdx.foldl fillSym (laidOut a lengths))

/-- **What is accepted**: no length has too many codes, and all codes together are full. -/
theorem huffmanAlphabet_eq_some_iff (a b : HuffmanAlphabet) {lengths : List ℕ}
    (hn : lengths.length < 2 ^ 16) :
    huffmanAlphabet a lengths = some b ↔
      (∀ j, 1 ≤ j → j < 1 + 16 → hufAt (tableFreq lengths) j + tableFreq lengths j ≤ 2 ^ j) ∧
        hufAt (tableFreq lengths) 17 = 2 ^ 17 ∧ alphabetOf a lengths = b := by
  have hpop := populate_eq (tableFreq lengths) 16 1 (by omega)
    (trivialIfEmpty (countSyms a lengths)) (fun j h _ => trivialIfEmpty_freq a hn h)
  rw [show hufAt (tableFreq lengths) 1 = 0 from rfl,
    show cumAt (tableFreq lengths) 1 = 0 from rfl] at hpop
  rw [huffmanAlphabet, huffmanBits, hpop]
  by_cases hall : ∀ j, 1 ≤ j → j < 1 + 16 →
      hufAt (tableFreq lengths) j + tableFreq lengths j ≤ 2 ^ j
  · rw [if_pos hall]
    dsimp only
    by_cases hc : hufAt (tableFreq lengths) 17 = 2 ^ 17
    · rw [if_pos hc]
      exact ⟨fun h => ⟨hall, hc, Option.some.inj h⟩, fun h => congrArg some h.2.2⟩
    · rw [if_neg hc]
      exact ⟨fun h => absurd h (by simp), fun h => absurd h.2.1 hc⟩
  · rw [if_neg hall]
    exact ⟨fun h => absurd h (by simp), fun h => absurd h.1 hall⟩

/-- Some symbol is coded. -/
def Used (lengths : List ℕ) : Prop := ∃ l ∈ lengths, l ≠ 0

/-- A table with a code is counted as it is. -/
theorem tableFreq_of_used {lengths : List ℕ} (hu : Used lengths) :
    tableFreq lengths = lengthFreq lengths := by
  rw [tableFreq, if_neg]
  obtain ⟨l, hl, hl0⟩ := hu
  simp only [List.all_eq_true, beq_iff_eq, not_forall]
  exact ⟨l, hl, hl0⟩

/-- A Kraft-complete table with a used symbol is accepted. -/
theorem huffmanAlphabet_of_complete (a : HuffmanAlphabet) {lengths : List ℕ}
    (hn : lengths.length < 2 ^ 16) (hle : ∀ l ∈ lengths, l ≤ 16) (hu : Used lengths)
    (hk : Canonical.kraft (lenOf lengths) 16 = 2 ^ 16) :
    huffmanAlphabet a lengths = some (alphabetOf a lengths) := by
  have hsome := (huffmanAlphabet_eq_some_iff a (alphabetOf a lengths) hn).mpr
  rw [tableFreq_of_used hu, hufAt_seventeen hle] at hsome
  exact hsome ⟨fun j h₁ h₂ => hufAt_add_le hle hk.le h₁ (by omega), by omega, rfl⟩

/-- A table with a used symbol is accepted iff it is Kraft-complete.
Source: libnt/huffman.c, huffman_alphabet, `huf > (1U << bits)` and `complete` -/
theorem huffmanAlphabet_isSome_iff (a : HuffmanAlphabet) {lengths : List ℕ}
    (hn : lengths.length < 2 ^ 16) (hle : ∀ l ∈ lengths, l ≤ 16) (hu : Used lengths) :
    (huffmanAlphabet a lengths).isSome ↔ Canonical.kraft (lenOf lengths) 16 = 2 ^ 16 := by
  constructor
  · intro h
    obtain ⟨b, hb⟩ := Option.isSome_iff_exists.mp h
    obtain ⟨-, hc, -⟩ := (huffmanAlphabet_eq_some_iff a b hn).mp hb
    rw [tableFreq_of_used hu, hufAt_seventeen hle] at hc
    omega
  · intro hk
    rw [huffmanAlphabet_of_complete a hn hle hu hk]
    rfl

/-- What an accepted alphabet of a table satisfies. -/
structure IsAlphabetOf (lengths : List ℕ) (a : HuffmanAlphabet) : Prop where
  /-- All lengths fit the table. -/
  length_le : ∀ l ∈ lengths, l ≤ 16
  /-- The code is complete. -/
  complete : Canonical.kraft (lenOf lengths) 16 = 2 ^ 16
  /-- Every symbol set describes the canonical block of its length. -/
  huf : ∀ i < 16, a.huf i = { entry (lengthFreq lengths) (i + 1) with
    raw := (cumAt (lengthFreq lengths) (i + 1) : ℤ) - hufAt (lengthFreq lengths) (i + 1) }
  /-- The raw symbols are filed by length and rank. -/
  raw : ∀ s : Fin lengths.length, 0 < lenOf lengths s →
    a.raw (cumAt (lengthFreq lengths) (lenOf lengths s) + Canonical.rank (lenOf lengths) s : ℕ) = s
  /-- The quick lookup table names the longest length that starts at or before a prefix. -/
  lookup : ∀ p < 2 ^ 7, a.lookup p ≤ 15 ∧ (a.huf (a.lookup p)).start / 2 ^ 9 ≤ p ∧
    ∀ j, a.lookup p < j → j ≤ 15 → p < (a.huf j).start / 2 ^ 9

/-- The construction satisfies `IsAlphabetOf`. -/
theorem isAlphabetOf_of_eq_some {a b : HuffmanAlphabet} {lengths : List ℕ}
    (hn : lengths.length < 2 ^ 16) (hle : ∀ l ∈ lengths, l ≤ 16) (hu : Used lengths)
    (h : huffmanAlphabet a lengths = some b) : IsAlphabetOf lengths b := by
  have hk : Canonical.kraft (lenOf lengths) 16 = 2 ^ 16 := by
    rw [← huffmanAlphabet_isSome_iff a hn hle hu, h]
    rfl
  have hb : alphabetOf a lengths = b := ((huffmanAlphabet_eq_some_iff a b hn).mp h).2.2
  have hlaidHuf : ∀ i < 16, (laidOut a lengths).huf i = entry (lengthFreq lengths) (i + 1) := by
    intro i hi
    rw [laidOut_huf a lengths hi, tableFreq_of_used hu]
  set laid := laidOut a lengths with hlaid
  have hsep : ∀ j k, 0 < j → j < k → k ≤ 16 →
      (laid.huf (j - 1)).raw + (lengths ++ []).count j ≤ (laid.huf (k - 1)).raw := by
    intro j k h₁ h₂ h₃
    have hcum := cumAt_add_le (lengthFreq lengths) h₁ h₂
    rw [hlaidHuf _ (by omega), hlaidHuf _ (by omega), Nat.sub_add_cancel h₁,
      Nat.sub_add_cancel (by omega), List.append_nil]
    simp only [entry]
    exact_mod_cast hcum
  obtain ⟨hfillHuf, hfillRaw, -⟩ := fillSym_foldl laid lengths [] (by simpa using hn) hsep
    (by simpa using hle)
  set filled := lengths.zipIdx.foldl fillSym laid with hfilled
  have hstart0 : (filled.huf 0).start = 0 := by
    rw [hfillHuf, hlaidHuf 0 (by omega)]
    simp [entry, hufAt]
  obtain ⟨hadjHuf, hadjRaw, hadjLookup⟩ := adjustSym_foldl filled hstart0 15
  have hbfold : b = (List.range' 1 (15 + 1)).foldl adjustSym filled := by
    rw [← hb, alphabetOf]
  have hbhuf : ∀ i < 16, b.huf i = { entry (lengthFreq lengths) (i + 1) with
      raw := (cumAt (lengthFreq lengths) (i + 1) : ℤ) - hufAt (lengthFreq lengths) (i + 1) } := by
    intro i hi
    have hshift : (hufAt (lengthFreq lengths) (i + 1) * 2 ^ (16 - (i + 1))) >>> (16 - (i + 1)) =
        hufAt (lengthFreq lengths) (i + 1) := by
      rw [Nat.shiftRight_eq_div_pow, Nat.mul_div_cancel _ (Nat.two_pow_pos _)]
    rw [hbfold, hadjHuf, if_pos (by omega), biased, hfillHuf, hlaidHuf i hi]
    ext <;> simp only [entry]
    rw [hshift, lengthFreq]
    omega
  refine ⟨hle, hk, hbhuf, fun s hs => ?_, fun p hp => ?_⟩
  · have hget : lengths[s.val] ≠ 0 := Nat.pos_iff_ne_zero.mp hs
    have hs16 : lenOf lengths s ≤ 16 := lenOf_le hle s
    have hraw := hfillRaw s.val s.isLt hget
    rw [hlaidHuf _ (by unfold lenOf at hs16; simp only [Fin.getElem_fin] at hs16; omega),
      Nat.sub_add_cancel (Nat.pos_of_ne_zero hget)] at hraw
    rw [hbfold, hadjRaw, rank_lenOf, Nat.cast_add]
    exact hraw
  · obtain ⟨h₁, h₂, h₃⟩ := hadjLookup p hp
    have hstart : ∀ i < 16, (b.huf i).start = (filled.huf i).start := by
      intro i hi
      rw [hbhuf i hi, hfillHuf, hlaidHuf i hi]
    rw [← hbfold] at h₁ h₂ h₃
    refine ⟨h₁, ?_, fun j hj₁ hj₂ => ?_⟩
    · rw [hstart _ (by omega)]
      exact h₂
    · rw [hstart _ (by omega)]
      exact h₃ j hj₁ hj₂

/-! ## Decoding -/

/-- The downward search stops at the last entry, at or below where it began, that starts at or
before `huf`. -/
theorem huffmanSearch_spec (a : HuffmanAlphabet) (huf i : ℕ) (h0 : (a.huf 0).start ≤ huf) :
    huffmanSearch a huf i ≤ i ∧ (a.huf (huffmanSearch a huf i)).start ≤ huf ∧
      ∀ j, huffmanSearch a huf i < j → j ≤ i → huf < (a.huf j).start := by
  induction i with
  | zero => exact ⟨le_rfl, h0, fun j h₁ h₂ => absurd h₁ (by omega)⟩
  | succ i ih =>
      rw [huffmanSearch]
      by_cases h : huf < (a.huf (i + 1)).start
      · rw [if_pos h]
        refine ⟨by omega, ih.2.1, fun j h₁ h₂ => ?_⟩
        rcases Nat.eq_or_lt_of_le h₂ with rfl | h₂
        · exact h
        · exact ih.2.2 j h₁ (by omega)
      · rw [if_neg h]
        exact ⟨le_rfl, by omega, fun j h₁ h₂ => by omega⟩

namespace IsAlphabetOf

variable {lengths : List ℕ} {a : HuffmanAlphabet}

/-- The start of a length in the alphabet is its first code. -/
theorem start_eq (ha : IsAlphabetOf lengths a) {i : ℕ} (hi : i < 16) :
    (a.huf i).start = Canonical.first (lenOf lengths) 16 (i + 1) := by
  rw [ha.huf i hi, ← hufAt_mul lengths (Nat.succ_pos i) (by omega)]
  rfl

/-- The entry that `huffman_sym` finds is the one whose block contains the 16 bits. -/
theorem exists_huffmanSym (ha : IsAlphabetOf lengths a) {huf : ℕ} (hh : huf < 2 ^ 16) :
    ∃ i < 16, huffmanSym a huf = a.huf i ∧ Canonical.first (lenOf lengths) 16 (i + 1) ≤ huf ∧
      huf < Canonical.first (lenOf lengths) 16 (i + 2) := by
  have hp : huf / 2 ^ 9 < 2 ^ 7 := by omega
  obtain ⟨hl₁, -, hl₃⟩ := ha.lookup _ hp
  have h0 : (a.huf 0).start ≤ huf := by
    rw [ha.start_eq (by omega), Canonical.first_one]
    exact Nat.zero_le _
  obtain ⟨hs₁, hs₂, hs₃⟩ := huffmanSearch_spec a huf (a.lookup (huf / 2 ^ 9)) h0
  set i := huffmanSearch a huf (a.lookup (huf / 2 ^ 9)) with hi
  refine ⟨i, by omega, ?_, ?_, ?_⟩
  · rw [huffmanSym, Nat.shiftRight_eq_div_pow, hi]
    rfl
  · rw [← ha.start_eq (by omega)]
    exact hs₂
  · -- the next length starts past `huf`: by the search below the lookup entry, by the lookup
    -- table above it, and at the end of the table because the code space ends there
    rcases Nat.lt_or_ge i 15 with hi15 | hi15
    · rw [← ha.start_eq (i := i + 1) (by omega)]
      rcases Nat.lt_or_ge i (a.lookup (huf / 2 ^ 9)) with hlt | hge
      · exact hs₃ (i + 1) (by omega) (by omega)
      · have hnext := hl₃ (i + 1) (by omega) (by omega)
        omega
    · have hi' : i + 2 = 17 := by omega
      rw [hi', Canonical.first_eq_kraft _ _ (fun t => Nat.lt_succ_of_le (lenOf_le ha.length_le t)),
        ha.complete]
      exact hh

/-- **Decoding.** If 16 bits start with the codeword of `s`, the symbol set found for them has the
length of `s`, and the raw symbol read from it is `s`. -/
theorem decode (ha : IsAlphabetOf lengths a) {huf : ℕ} (hh : huf < 2 ^ 16)
    {s : Fin lengths.length} (hs0 : 0 < lenOf lengths s)
    (hs : Canonical.codeword (lenOf lengths) 16 s <+: natBits 16 huf) :
    huffmanLen (huffmanSym a huf) = lenOf lengths s ∧
      huffmanRawIndex (huffmanSym a huf) huf =
        (cumAt (lengthFreq lengths) (lenOf lengths s) + Canonical.rank (lenOf lengths) s : ℕ) ∧
      huffmanRaw a (huffmanSym a huf) huf = s := by
  have hs16 := lenOf_le ha.length_le s
  rw [Canonical.codeword_prefix_iff _ _ hs0 hs16 ha.complete.le hh, Canonical.block,
    Finset.mem_Ico] at hs
  obtain ⟨i, hi, hsym, hlo, hhi⟩ := ha.exists_huffmanSym hh
  have hrank := Canonical.rank_lt_freq (lenOf lengths) s
  have hbase := Canonical.base_eq_first_add (lenOf lengths) 16 s hs0
  have hfirst := Canonical.first_succ (lenOf lengths) 16 (lenOf lengths s) hs0
  -- the block of `s` lies within the blocks of its length, so the length found is that of `s`
  have hend : Canonical.base (lenOf lengths) 16 s + 2 ^ (16 - lenOf lengths s) ≤
      Canonical.first (lenOf lengths) 16 (lenOf lengths s + 1) := by
    rw [hbase, hfirst, Nat.add_assoc, ← Nat.succ_mul]
    exact Nat.add_le_add_left (Nat.mul_le_mul_right _ hrank) _
  have hlen : i + 1 = lenOf lengths s := by
    rcases lt_trichotomy (i + 1) (lenOf lengths s) with hlt | heq | hgt
    · have := Canonical.first_mono (lenOf lengths) 16 (show i + 2 ≤ lenOf lengths s by omega)
      omega
    · exact heq
    · have := Canonical.first_mono (lenOf lengths) 16
        (show lenOf lengths s + 1 ≤ i + 1 by omega)
      omega
  have hindex : huffmanRawIndex (huffmanSym a huf) huf =
      (cumAt (lengthFreq lengths) (lenOf lengths s) + Canonical.rank (lenOf lengths) s : ℕ) := by
    have hquot : huf / 2 ^ (16 - lenOf lengths s) =
        hufAt (lengthFreq lengths) (lenOf lengths s) + Canonical.rank (lenOf lengths) s := by
      rw [hbase, ← hufAt_mul lengths hs0 hs16, ← Nat.add_mul] at hs
      rw [Nat.div_eq_iff (Nat.two_pow_pos _)]
      omega
    rw [hsym, ha.huf i hi, huffmanRawIndex, hlen]
    simp only [entry, Nat.shiftRight_eq_div_pow]
    rw [hquot]
    push_cast
    ring
  refine ⟨?_, hindex, ?_⟩
  · rw [hsym, ha.huf i hi, huffmanLen, ← hlen]
    rfl
  · rw [huffmanRaw, hindex, ha.raw s hs0]

end IsAlphabetOf

/-- **Huffman decoding is the canonical prefix decoding.** For every table of code lengths with a
used symbol that `huffman_alphabet` accepts and every 16-bit value, exactly one codeword of the
canonical code is a prefix of it; the symbol set `huffman_sym` returns has that codeword's length
and `huffman_raw` returns its symbol.
Source: libnt/huffman.c, huffman_alphabet, huffman_sym; include/huffman.h, huffman_raw -/
theorem huffman_decode_canonical (a b : HuffmanAlphabet) (lengths : List ℕ)
    (hn : lengths.length ≤ 65535) (hle : ∀ l ∈ lengths, l ≤ 16) (hu : ∃ l ∈ lengths, l ≠ 0)
    (h : huffmanAlphabet a lengths = some b) (huf : ℕ) (hh : huf < 2 ^ 16) :
    ∃ s : Fin lengths.length,
      (0 < lenOf lengths s ∧ Canonical.codeword (lenOf lengths) 16 s <+: natBits 16 huf) ∧
      (∀ t, 0 < lenOf lengths t → Canonical.codeword (lenOf lengths) 16 t <+: natBits 16 huf →
        t = s) ∧
      huffmanLen (huffmanSym b huf) = lenOf lengths s ∧
      huffmanRaw b (huffmanSym b huf) huf = s := by
  have ha := isAlphabetOf_of_eq_some (by omega) hle hu h
  obtain ⟨s, ⟨hs0, hs⟩, huniq⟩ :=
    Canonical.existsUnique_codeword_prefix (lenOf lengths) 16 (lenOf_le hle) ha.complete hh
  obtain ⟨hlen, -, hraw⟩ := ha.decode hh hs0 hs
  exact ⟨s, ⟨hs0, hs⟩, fun t ht0 ht => huniq t ⟨ht0, ht⟩, hlen, hraw⟩

/-- The memory of an alphabet before construction. -/
def clearAlphabet : HuffmanAlphabet := ⟨fun _ => ⟨0, 0, 0, 0, 0⟩, fun _ => 0, fun _ => 0⟩

/-- Two symbols of one bit each: the string `1000…` starts with exactly one codeword. -/
theorem huffman_decode_canonical_two_symbols :
    ∃ s : Fin [1, 1].length,
      (0 < lenOf [1, 1] s ∧ Canonical.codeword (lenOf [1, 1]) 16 s <+: natBits 16 0x8000) ∧
      (∀ t, 0 < lenOf [1, 1] t → Canonical.codeword (lenOf [1, 1]) 16 t <+: natBits 16 0x8000 →
        t = s) ∧
      huffmanLen (huffmanSym (alphabetOf clearAlphabet [1, 1]) 0x8000) = lenOf [1, 1] s ∧
      huffmanRaw (alphabetOf clearAlphabet [1, 1])
        (huffmanSym (alphabetOf clearAlphabet [1, 1]) 0x8000) 0x8000 = s :=
  huffman_decode_canonical clearAlphabet _ [1, 1] (by decide) (by decide) ⟨1, by decide, by decide⟩
    (huffmanAlphabet_of_complete clearAlphabet (by decide) (by decide) ⟨1, by decide, by decide⟩
      (by decide))
    0x8000 (by decide)

end Ntloader.Huffman
