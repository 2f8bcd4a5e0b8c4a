import Ntloader.Xca.Decompress
import Ntloader.Huffman.Complete

/-!
# Every round of XCA decompression takes a bit

The loop looks at the input pointer, which most rounds do not move. What every round moves is the
number of bits taken from the input: those in front of the pointer, less those that are spare.

* `XcaState.Running` — the state between two rounds.
* `xcaStep_spec` — a round keeps it, and takes a bit at least.
* `xcaRounds` — the states in front of the rounds; `xcaDecompress_rounds` — how many there are.
-/

namespace Ntloader.Xca

open Ntloader.Lib Ntloader.Huffman

/-! ## The state between two rounds -/

/-- The code lengths that the table at `src` holds.
Source: libnt/xca.c, xca_decompress, `xca.lengths` -/
def xcaLengths (data : Mem) (src : ℕ) : List ℕ := (List.range xcaCodes).map (xcaHufLen data src)

/-- A table has 512 lengths, -/
@[simp] theorem xcaLengths_length (data : Mem) (src : ℕ) : (xcaLengths data src).length = 512 := by
  rw [xcaLengths, List.length_map, List.length_range, xcaCodes]

/-- each of four bits. -/
theorem xcaLengths_le (data : Mem) (src : ℕ) : ∀ l ∈ xcaLengths data src, l ≤ 16 := by
  intro l hl
  obtain ⟨symbol, -, rfl⟩ := List.mem_map.mp hl
  exact Nat.and_le_right.trans (by decide)

/-- The alphabet of some table, with `codes` in front of its raw symbols. -/
def Tabled (codes : ℤ → ℕ) (b : HuffmanAlphabet) : Prop :=
  ∃ a data src, huffmanAlphabet a (xcaLengths data src) = some b ∧ ∀ i < 0, a.raw i = codes i

/-- The accumulator and the number of spare bits are in range. -/
structure XcaState.InRange (s : XcaState) : Prop where
  /-- The accumulator has 32 bits. -/
  accum_lt : s.accum < 2 ^ 32
  /-- No bit is owed. -/
  extraBits_nonneg : 0 ≤ s.extraBits
  /-- A word is spare at most. -/
  extraBits_le : s.extraBits ≤ 16

/-- The state between two rounds: within a block there is an alphabet. -/
structure XcaState.Running (codes : ℤ → ℕ) (s : XcaState) : Prop extends s.InRange where
  /-- Nothing is filed in front of the raw symbols. -/
  raw_neg : ∀ i < 0, s.alphabet.raw i = codes i
  /-- The alphabet is that of a table. -/
  tabled : s.outLen < s.outLenThreshold → Tabled codes s.alphabet

/-- The number of bits taken from the input. -/
def bitsTaken (s : XcaState) : ℤ := 8 * s.src - s.extraBits

/-! ## What the parts of a round take -/

/-- Bits that are consumed have been taken, whether or not a word is fetched. -/
theorem consumeBits_spec (data : Mem) {n : ℕ} (hn : n ≤ 16) {s : XcaState} (hs : s.InRange) :
    (consumeBits data n s).InRange ∧ bitsTaken (consumeBits data n s) = bitsTaken s + n := by
  obtain ⟨haccum, hnonneg, hle⟩ := hs
  have hshift : s.accum <<< n % 2 ^ 32 < 2 ^ 32 := Nat.mod_lt _ (by norm_num)
  rw [consumeBits]
  by_cases hneg : s.extraBits - n < 0
  · rw [if_pos hneg]
    refine ⟨⟨Nat.or_lt_two_pow hshift (Nat.mod_lt _ (by norm_num)), ?_, ?_⟩, ?_⟩
    · dsimp only
      omega
    · dsimp only
      omega
    · simp only [bitsTaken]
      push_cast
      ring
  · rw [if_neg hneg]
    refine ⟨⟨hshift, ?_, ?_⟩, ?_⟩
    · dsimp only
      omega
    · dsimp only
      omega
    · simp only [bitsTaken]
      ring

/-- The top of the accumulator. -/
theorem XcaState.InRange.huf_lt {s : XcaState} (hs : s.InRange) : s.accum >>> (32 - 16) < 2 ^ 16 := by
  have haccum := hs.accum_lt
  rw [Nat.shiftRight_eq_div_pow]
  omega

/-- A symbol takes a bit at least, and is one of the table's. -/
theorem decodeSymbol_spec (data : Mem) {codes : ℤ → ℕ} {s : XcaState} (hs : s.InRange)
    (ht : Tabled codes s.alphabet) (hcodes : ∀ i, -2 ≤ i → i < 0 → codes i < xcaCodes) :
    (decodeSymbol data s).1 < 512 ∧ (decodeSymbol data s).2.InRange ∧
      bitsTaken s + 1 ≤ bitsTaken (decodeSymbol data s).2 := by
  obtain ⟨a, table, src, hb, hneg⟩ := ht
  have hn : (xcaLengths table src).length < 2 ^ 16 := by
    rw [xcaLengths_length]
    norm_num
  have hle := xcaLengths_le table src
  have hraw := huffmanRaw_lt hn hle hb (fun i h₁ h₂ => by
    rw [hneg i h₂, xcaLengths_length]
    exact hcodes i h₁ h₂) hs.huf_lt
  rw [xcaLengths_length] at hraw
  obtain ⟨h1, h16⟩ := huffmanLen_le hn hle hb hs.huf_lt
  obtain ⟨hin, hbits⟩ := consumeBits_spec data h16 hs
  refine ⟨hraw, hin, ?_⟩
  have htaken : bitsTaken (decodeSymbol data s).2 =
      bitsTaken s + huffmanLen (huffmanSym s.alphabet (s.accum >>> (32 - 16))) := hbits
  rw [htaken]
  omega

/-- The bytes of an extended length. -/
theorem matchLength_src (data : Mem) (nibble : ℕ) (s : XcaState) :
    s.src ≤ (matchLength data nibble s).2.src ∧
      (matchLength data nibble s).2 = { s with
        src := (matchLength data nibble s).2.src
        trace := (matchLength data nibble s).2.trace } := by
  unfold matchLength
  dsimp only
  split_ifs
  · exact ⟨Nat.le_add_right _ _, rfl⟩
  · exact ⟨Nat.le_add_right _ _, rfl⟩
  · exact ⟨le_rfl, rfl⟩

/-- A match takes no bit back. -/
theorem matchSymbol_spec (data : Mem) {raw : ℕ} (hraw : raw < 512) {s : XcaState} (hs : s.InRange) :
    (matchSymbol data raw s).InRange ∧ bitsTaken s ≤ bitsTaken (matchSymbol data raw s) ∧
      (matchSymbol data raw s).alphabet = s.alphabet := by
  obtain ⟨hsrc, hfields⟩ := matchLength_src data ((raw - xcaEndMarker) &&& 0x0f) s
  have hbits : (raw - xcaEndMarker) >>> 4 ≤ 16 := by
    rw [Nat.shiftRight_eq_div_pow, xcaEndMarker]
    omega
  generalize hm : (matchLength data ((raw - xcaEndMarker) &&& 0x0f) s).2 = m at hsrc hfields
  have hmIn : m.InRange := by
    rw [hfields]
    exact ⟨hs.accum_lt, hs.extraBits_nonneg, hs.extraBits_le⟩
  have hmTaken : bitsTaken s ≤ bitsTaken m := by
    rw [hfields]
    simp only [bitsTaken]
    omega
  obtain ⟨hin, htaken⟩ := consumeBits_spec data hbits hmIn
  have hmatch : matchSymbol data raw s = copyMatch
      (matchOffset m.accum ((raw - xcaEndMarker) >>> 4))
      (matchLength data ((raw - xcaEndMarker) &&& 0x0f) s).1
      (consumeBits data ((raw - xcaEndMarker) >>> 4) m) := by
    rw [← hm]
    rfl
  rw [hmatch]
  refine ⟨⟨hin.accum_lt, hin.extraBits_nonneg, hin.extraBits_le⟩, ?_, ?_⟩
  · have hsame : bitsTaken (copyMatch (matchOffset m.accum ((raw - xcaEndMarker) >>> 4))
        (matchLength data ((raw - xcaEndMarker) &&& 0x0f) s).1
        (consumeBits data ((raw - xcaEndMarker) >>> 4) m)) =
        bitsTaken (consumeBits data ((raw - xcaEndMarker) >>> 4) m) := rfl
    rw [hsame, htaken]
    omega
  · rw [copyMatch]
    dsimp only
    rw [consumeBits_alphabet, hfields]

/-- What a round does past the table takes a bit at least. -/
theorem processSymbol_spec (data : Mem) (len : ℕ) {codes : ℤ → ℕ} {s : XcaState} (hs : s.InRange)
    (ht : Tabled codes s.alphabet) (hcodes : ∀ i, -2 ≤ i → i < 0 → codes i < xcaCodes) :
    (processSymbol data len s).2.InRange ∧
      bitsTaken s + 1 ≤ bitsTaken (processSymbol data len s).2 ∧
      (processSymbol data len s).2.alphabet = s.alphabet := by
  obtain ⟨hraw, hin, htaken⟩ := decodeSymbol_spec data hs ht hcodes
  have halphabet : (decodeSymbol data s).2.alphabet = s.alphabet := consumeBits_alphabet _ _ _
  unfold processSymbol
  generalize decodeSymbol data s = r at hraw hin htaken halphabet
  obtain ⟨raw, u⟩ := r
  dsimp only at hraw hin htaken halphabet ⊢
  split_ifs
  · exact ⟨⟨hin.accum_lt, hin.extraBits_nonneg, hin.extraBits_le⟩, htaken, halphabet⟩
  · exact ⟨hin, htaken, halphabet⟩
  · obtain ⟨hin', htaken', halphabet'⟩ := matchSymbol_spec data hraw hin
    exact ⟨hin', htaken.trans htaken', halphabet'.trans halphabet⟩

/-- A block that begins has a table, and the words behind it in the accumulator. -/
theorem initBlock_none {data : Mem} {len : ℕ} {s t : XcaState}
    (h : initBlock data len s = (none, t)) :
    s.src + 256 ≤ len ∧ ∃ b, huffmanAlphabet s.alphabet (xcaLengths data s.src) = some b ∧
      t = { s with
        src := s.src + 256 + 4
        alphabet := b
        accum := (data.word (s.src + 256) 2 <<< 16) % 2 ^ 32 ||| data.word (s.src + 256 + 2) 2
        extraBits := 16
        outLenThreshold := s.outLen + xcaBlockSize
        trace := .read (s.src + 256 + 2) 2 :: .read (s.src + 256) 2 :: .read s.src 256 ::
          s.trace } := by
  unfold initBlock at h
  dsimp only at h
  by_cases hlen : s.src + xcaCodes / 2 > len
  · rw [if_pos hlen] at h
    cases h
  · rw [if_neg hlen] at h
    refine ⟨Nat.le_of_not_lt hlen, ?_⟩
    cases hb : huffmanAlphabet s.alphabet ((List.range xcaCodes).map (xcaHufLen data s.src)) with
    | none =>
        rw [hb] at h
        cases h
    | some b =>
        rw [hb] at h
        cases h
        exact ⟨b, hb, rfl⟩

/-- The beginning of a block takes its table and a word, and leaves a word spare. -/
theorem initBlock_running {data : Mem} {len : ℕ} {codes : ℤ → ℕ} {s t : XcaState}
    (hs : s.Running codes) (h : initBlock data len s = (none, t)) :
    t.Running codes ∧ t.outLen < t.outLenThreshold ∧ bitsTaken s ≤ bitsTaken t := by
  obtain ⟨-, b, hb, rfl⟩ := initBlock_none h
  have hn : (xcaLengths data s.src).length < 2 ^ 16 := by
    rw [xcaLengths_length]
    norm_num
  have hword := data.word_lt (s.src + 256 + 2) 2
  have hnonneg := hs.extraBits_nonneg
  have hraw : ∀ i < 0, b.raw i = codes i := fun i hi =>
    (huffmanAlphabet_raw_neg hn (xcaLengths_le data s.src) hb hi).trans (hs.raw_neg i hi)
  refine ⟨⟨⟨?_, by dsimp only; omega, le_rfl⟩, hraw, fun _ => ⟨_, _, _, hb, hs.raw_neg⟩⟩, ?_, ?_⟩
  · exact Nat.or_lt_two_pow (Nat.mod_lt _ (by norm_num)) (by omega)
  · dsimp only
    exact Nat.lt_add_of_pos_right (by decide)
  · simp only [bitsTaken]
    omega

/-! ## A round -/

/-- **A round takes a bit at least**, whether or not a block begins with it. -/
theorem xcaStep_spec {data : Mem} {len : ℕ} {codes : ℤ → ℕ} {s t : XcaState}
    (hcodes : ∀ i, -2 ≤ i → i < 0 → codes i < xcaCodes) (hs : s.Running codes)
    (h : xcaStep data len s = (none, t)) :
    t.Running codes ∧ bitsTaken s + 1 ≤ bitsTaken t := by
  have hprocess : ∀ u : XcaState, u.Running codes → u.outLen < u.outLenThreshold →
      processSymbol data len u = (none, t) → t.Running codes ∧ bitsTaken u + 1 ≤ bitsTaken t := by
    intro u hu hblock hp
    obtain ⟨hin, htaken, halphabet⟩ := processSymbol_spec data len hu.toInRange (hu.tabled hblock) hcodes
    rw [hp] at hin htaken halphabet
    exact ⟨⟨hin, fun i hi => by rw [halphabet, hu.raw_neg i hi],
      fun _ => by rw [halphabet]; exact hu.tabled hblock⟩, htaken⟩
  unfold xcaStep at h
  by_cases hblock : s.outLen ≥ s.outLenThreshold
  · rw [if_pos hblock] at h
    generalize hi : initBlock data len s = r at h
    obtain ⟨_ | rc, u⟩ := r
    · obtain ⟨hu, hlt, htaken⟩ := initBlock_running hs hi
      obtain ⟨ht, htaken'⟩ := hprocess u hu hlt h
      exact ⟨ht, by omega⟩
    · cases h
  · rw [if_neg hblock] at h
    exact hprocess s hs (by omega) h

/-! ## The rounds -/

/-- The states in front of the rounds of the loop of `xca_decompress`. -/
def loopRounds (data : Mem) (len : ℕ) : ℕ → XcaState → List XcaState
  | 0, _ => []
  | fuel + 1, s =>
      if s.src < len then
        s :: match xcaStep data len s with
          | (some _, _) => []
          | (none, t) => loopRounds data len fuel t
      else []

/-- The local variables of `xca_decompress` in front of the loop.
Source: libnt/xca.c, xca_decompress -/
def xcaStart (xca : HuffmanAlphabet) (buf : Option ℕ) (mem : Mem) : XcaState :=
  ⟨0, buf, mem, 0, 0, xca, 0, 0, []⟩

/-- The start is a running state. -/
theorem xcaStart_running (xca : HuffmanAlphabet) (buf : Option ℕ) (mem : Mem) :
    (xcaStart xca buf mem).Running xca.raw :=
  ⟨⟨by norm_num [xcaStart], le_rfl, by norm_num [xcaStart]⟩, fun _ _ => rfl, nofun⟩

/-- There is no more than one round for every bit that is left. -/
theorem loopRounds_length {data : Mem} {len : ℕ} {codes : ℤ → ℕ}
    (hcodes : ∀ i, -2 ≤ i → i < 0 → codes i < xcaCodes) (fuel : ℕ) {s : XcaState}
    (hs : s.Running codes) :
    loopRounds data len fuel s = [] ∨
      ((loopRounds data len fuel s).length : ℤ) ≤ 8 * len - bitsTaken s := by
  induction fuel generalizing s with
  | zero => exact Or.inl rfl
  | succ fuel ih =>
      have hle : bitsTaken s ≤ 8 * s.src := Int.sub_le_self _ hs.extraBits_nonneg
      rw [loopRounds]
      by_cases hsrc : s.src < len
      · rw [if_pos hsrc]
        right
        generalize hstep : xcaStep data len s = r
        obtain ⟨_ | rc, u⟩ := r
        · obtain ⟨hu, htaken⟩ := xcaStep_spec hcodes hs hstep
          dsimp only
          rw [List.length_cons]
          push_cast
          rcases ih hu with hnil | hlen
          · rw [hnil, List.length_nil]
            omega
          · omega
        · dsimp only
          rw [List.length_singleton]
          omega
      · rw [if_neg hsrc]
        exact Or.inl rfl

/-- A round for every bit that is left is enough. -/
theorem xcaLoop_isSome {data : Mem} {len : ℕ} {codes : ℤ → ℕ}
    (hcodes : ∀ i, -2 ≤ i → i < 0 → codes i < xcaCodes) (fuel : ℕ) {s : XcaState}
    (hs : s.Running codes) (hfuel : 8 * len - bitsTaken s < fuel) (hpos : 0 < fuel) :
    (xcaLoop data len fuel s).isSome := by
  induction fuel generalizing s with
  | zero => omega
  | succ fuel ih =>
      rw [xcaLoop]
      by_cases hsrc : s.src < len
      · rw [if_pos hsrc]
        generalize hstep : xcaStep data len s = r
        obtain ⟨_ | rc, u⟩ := r
        · obtain ⟨hu, htaken⟩ := xcaStep_spec hcodes hs hstep
          have hle : bitsTaken s ≤ 8 * s.src := Int.sub_le_self _ hs.extraBits_nonneg
          exact ih hu (by push_cast at hfuel; omega) (by push_cast at hfuel; omega)
        · rfl
      · rw [if_neg hsrc]
        split_ifs
        · rfl
        · rfl

/-- `xca_decompress` returns on every input. -/
theorem xcaDecompress_isSome (xca : HuffmanAlphabet) (data : Mem) (len : ℕ) (buf : Option ℕ)
    (mem : Mem) (hcodes : ∀ i, -2 ≤ i → i < 0 → xca.raw i < xcaCodes) :
    (xcaDecompress xca data len buf mem).isSome := by
  have hzero : bitsTaken (xcaStart xca buf mem) = 0 := rfl
  have hfuel : 8 * (len : ℤ) - bitsTaken (xcaStart xca buf mem) < (16 * len + 32 : ℕ) := by
    rw [hzero]
    push_cast
    omega
  exact xcaLoop_isSome hcodes _ (xcaStart_running xca buf mem) hfuel (by omega)

/-- The states in front of the rounds of `xca_decompress`.
Source: libnt/xca.c, xca_decompress -/
def xcaRounds (xca : HuffmanAlphabet) (data : Mem) (len : ℕ) (buf : Option ℕ) (mem : Mem) :
    List XcaState := loopRounds data len (16 * len + 32) (xcaStart xca buf mem)

/-- `struct xca` on the stack of a call. Nothing in it is initialised, so that each call finds an
`a` of its own there. The two symbols of an empty table are not read from `raw[]` but from in front
of it: that is the end of the quick lookup table, which `huffman_alphabet` has filled by then
(`alphabetOf_of_empty`), and is the same in every call.
Source: libnt/xca.c, xca_decompress, `xca`; include/huffman.h, struct huffman_alphabet -/
def stackXca (codes : ℤ → ℕ) (a : HuffmanAlphabet) : HuffmanAlphabet :=
  { a with raw := fun i => if i < 0 then codes i else a.raw i }

/-- In front of the raw symbols stands what the stack has there. -/
theorem stackXca_raw_of_neg (codes : ℤ → ℕ) (a : HuffmanAlphabet) {i : ℤ} (hi : i < 0) :
    (stackXca codes a).raw i = codes i := if_pos hi

/-- **XCA decompression ends.** Whatever the bytes are, past the end of the input as well, and
whatever the two symbols of an empty table are, `xca_decompress` returns, and its loop is run for
no more rounds than the input has bits.
Source: libnt/xca.c, xca_decompress -/
theorem xcaDecompress_rounds (codes : ℤ → Fin xcaCodes) (a : HuffmanAlphabet) (data : Mem)
    (len : ℕ) (buf : Option ℕ) (mem : Mem) :
    (xcaDecompress (stackXca (fun i => codes i) a) data len buf mem).isSome ∧
      (xcaRounds (stackXca (fun i => codes i) a) data len buf mem).length ≤ 8 * len := by
  have hcodes : ∀ i, -2 ≤ i → i < 0 → (stackXca (fun i => codes i) a).raw i < xcaCodes := by
    intro i _ hi
    rw [stackXca_raw_of_neg _ _ hi]
    exact (codes i).isLt
  refine ⟨xcaDecompress_isSome _ data len buf mem hcodes, ?_⟩
  have hlength := @loopRounds_length data len _ hcodes (16 * len + 32) _
    (xcaStart_running _ buf mem)
  have hzero : bitsTaken (xcaStart (stackXca (fun i => codes i) a) buf mem) = 0 := rfl
  rw [hzero] at hlength
  unfold xcaRounds
  rcases hlength with hnil | hlen
  · rw [hnil]
    exact Nat.zero_le _
  · omega

end Ntloader.Xca
