import Ntloader.Lznt1.RoundTrip
import Ntloader.Lznt1.Rounds

/-!
# The split of a block

The split is moved down with the length of the output, which one value can make longer by thousands of
bytes. It does not reach zero: the further it is down, the less output a value gives, and a block has
4096 bytes of input.

* `inputFor` — how much input an output takes at least, in thirtieths of a byte.
* `SplitKept` — the split is the one in force, and the output has been paid for; `blockRound_splitKept`
  — a round keeps it.
* `split_valid` — the split at every value of a block.
-/

namespace Ntloader.Lznt1

open Ntloader.Lib

/-! ## The input that an output takes -/

/-- Thirty times the number of bytes of input that an output takes at least. The first value can give
4098 bytes; behind it a value of two bytes gives 10 bytes at most, 6 from 8192 bytes on, and 4 from
16384 on. A value can go past these limits, so that the slope changes only behind them. -/
def inputFor (outLen : ℕ) : ℕ :=
  6 * (min outLen 8202 - 4114) + 10 * (min outLen 16390 - 8202) + 15 * (outLen - 16390)

/-- An output of a block is well below the length at which the split would reach zero. -/
theorem outLen_lt_of_inputFor {outLen : ℕ} (h : inputFor outLen ≤ 30 * 4096) : outLen < 2 ^ 15 := by
  unfold inputFor at h
  omega

/-- More output takes no less input, and no more than a byte for each byte. -/
theorem inputFor_add_le {outLen copyLen n : ℕ} (h : n = outLen + copyLen) :
    inputFor n ≤ inputFor outLen + 30 * copyLen := by
  unfold inputFor
  omega

/-- The bounds of the output at which a number of offset bits is in force. -/
theorem offsetBitsAt_bounds (outLen : ℕ) :
    outLen ≤ 2 ^ offsetBitsAt outLen ∧
      (offsetBitsAt outLen = 4 ∨ 2 ^ (offsetBitsAt outLen - 1) < outLen) := by
  have hpow : outLen ≤ 2 ^ Nat.clog 2 outLen := Nat.le_pow_clog (by norm_num) outLen
  refine ⟨hpow.trans (Nat.pow_le_pow_right (by norm_num) (le_max_right _ _)), ?_⟩
  rcases le_total (Nat.clog 2 outLen) 4 with hle | hle
  · exact Or.inl (max_eq_left hle)
  · right
    rw [offsetBitsAt, max_eq_right hle]
    exact Nat.pow_pred_clog_lt_self (by norm_num) (by
      by_contra hlt
      have hone : Nat.clog 2 outLen ≤ 0 := Nat.clog_le_of_le_pow (by omega)
      omega)

/-- A value takes two bytes, whatever its split is. -/
theorem inputFor_value {outLen copyLen : ℕ} (hout : outLen < 2 ^ 15)
    (hcopy : copyLen ≤ 2 ^ splitAt outLen + 2) :
    inputFor (outLen + copyLen) ≤ inputFor outLen + 60 := by
  obtain ⟨hhi, hlo⟩ := offsetBitsAt_bounds outLen
  have h4 : 4 ≤ offsetBitsAt outLen := le_max_left _ _
  have h15 : offsetBitsAt outLen ≤ 15 := max_le (by norm_num) (Nat.clog_le_of_le_pow hout.le)
  rw [splitAt] at hcopy
  unfold inputFor
  generalize offsetBitsAt outLen = bits at hhi hlo h4 h15 hcopy
  interval_cases bits <;> norm_num at hhi hlo hcopy <;> omega

/-! ## The rounds of a block -/

/-- The split is the one in force, and the input in front has paid for the output. -/
structure SplitKept (offset limit : ℕ) (s : BlockState) : Prop where
  split : s.split = splitAt s.outLen
  nextThreshold : s.nextThreshold = 2 ^ offsetBitsAt s.outLen
  offset_le : offset ≤ s.offset
  le_limit : s.offset ≤ limit
  paid : inputFor s.outLen ≤ 30 * (s.offset - offset)

/-- The output stays below 2 ^ 15. -/
theorem SplitKept.outLen_lt {offset limit : ℕ} (hlimit : limit ≤ offset + 4096) {s : BlockState}
    (h : SplitKept offset limit s) : s.outLen < 2 ^ 15 := by
  have hused : s.offset - offset ≤ 4096 := Nat.sub_le_iff_le_add'.mpr (h.le_limit.trans hlimit)
  exact outLen_lt_of_inputFor (h.paid.trans (Nat.mul_le_mul_left 30 hused))

/-- The split is brought up to date. -/
theorem SplitKept.nextValue {offset limit outLen : ℕ} (hlimit : limit ≤ offset + 4096)
    {u : BlockState} (hsplit : u.split = splitAt outLen)
    (hthreshold : u.nextThreshold = 2 ^ offsetBitsAt outLen) (hle : outLen ≤ u.outLen)
    (hoffset : offset ≤ u.offset) (hulimit : u.offset ≤ limit)
    (hpaid : inputFor u.outLen ≤ 30 * (u.offset - offset)) :
    SplitKept offset limit (nextValue u) := by
  have hused : u.offset - offset ≤ 4096 := Nat.sub_le_iff_le_add'.mpr (hulimit.trans hlimit)
  have hlt : u.outLen < 2 ^ 15 :=
    outLen_lt_of_inputFor (hpaid.trans (Nat.mul_le_mul_left 30 hused))
  have h15 : offsetBitsAt u.outLen ≤ 15 := max_le (by norm_num) (Nat.clog_le_of_le_pow hlt.le)
  have hupd := updateSplit_eq hlt.le 32 (offsetBitsAt outLen) (le_max_left _ _)
    (offsetBitsAt_mono hle) (by omega)
  refine ⟨?_, ?_, hoffset, hulimit, hpaid⟩
  · simp only [Lznt1.nextValue]
    rw [hsplit, hthreshold, splitAt, hupd]
  · simp only [Lznt1.nextValue]
    rw [hsplit, hthreshold, splitAt, hupd]

/-- What a value takes and gives. -/
theorem decodeValue_inputFor {data : Mem} {limit : ℕ} {t u : BlockState}
    (hsplit : t.split = splitAt t.outLen) (hlt : t.outLen < 2 ^ 15)
    (h : decodeValue data limit t = some u) :
    u.split = t.split ∧ u.nextThreshold = t.nextThreshold ∧ t.outLen ≤ u.outLen ∧
      inputFor u.outLen ≤ inputFor t.outLen + 30 * (u.offset - t.offset) := by
  unfold decodeValue copyValue at h
  split_ifs at h with htag hover
  · obtain rfl := Option.some.inj h
    refine ⟨rfl, rfl, Nat.le_add_right _ _, ?_⟩
    have hlen : lznt1ValueLen (data.word t.offset 2) t.split ≤ 2 ^ splitAt t.outLen + 2 := by
      have hmask : data.word t.offset 2 &&& ((1 <<< t.split) - 1) ≤ (1 <<< t.split) - 1 :=
        Nat.and_le_right
      have hpos := Nat.two_pow_pos t.split
      rw [Nat.one_shiftLeft] at hmask
      rw [lznt1ValueLen, Nat.one_shiftLeft, ← hsplit]
      omega
    dsimp only
    rw [Nat.add_sub_cancel_left]
    exact inputFor_value hlt hlen
  · obtain rfl := Option.some.inj h
    refine ⟨rfl, rfl, Nat.le_add_right _ _, ?_⟩
    simp only [literalValue]
    rw [Nat.add_sub_cancel_left]
    exact inputFor_add_le rfl

/-- **A round keeps the split in force**, and pays for what it gives. -/
theorem blockRound_splitKept {data : Mem} {offset limit : ℕ} (hlimit : limit ≤ offset + 4096)
    {s t : BlockState} (hs : SplitKept offset limit s) (h0 : s.offset ≠ limit)
    (h : blockRound data limit s = (none, t)) : SplitKept offset limit t := by
  have hlt := hs.outLen_lt hlimit
  unfold blockRound at h
  dsimp only at h
  by_cases h1 : s.tagBit = 0 ∧ (extractTag data s).offset = limit
  · rw [if_pos h1] at h
    cases h
  rw [if_neg h1] at h
  -- the tag is a byte that gives nothing
  have htag : (extractTag data s).split = s.split ∧
      (extractTag data s).nextThreshold = s.nextThreshold ∧
      (extractTag data s).outLen = s.outLen ∧ s.offset ≤ (extractTag data s).offset ∧
      (extractTag data s).offset < limit := by
    have hlt' := lt_of_le_of_ne hs.le_limit h0
    unfold extractTag at h1 ⊢
    split_ifs at h1 ⊢ with htag
    · refine ⟨rfl, rfl, rfl, Nat.le_succ _, ?_⟩
      dsimp only at h1 ⊢
      omega
    · exact ⟨rfl, rfl, rfl, le_rfl, hlt'⟩
  obtain ⟨hsplit, hthreshold, hout, hoffset, hin⟩ := htag
  cases hd : decodeValue data limit (extractTag data s) with
  | none =>
      rw [hd] at h
      cases h
  | some u =>
      rw [hd] at h
      cases h
      obtain ⟨hlt₁, hle₁⟩ := decodeValue_offset hin hd
      obtain ⟨hsplit', hthreshold', hle, hpaid⟩ :=
        decodeValue_inputFor (by rw [hsplit, hs.split, hout]) (by rwa [hout]) hd
      have hoff := hs.offset_le
      have hpaid₀ := hs.paid
      rw [hout] at hle hpaid
      refine SplitKept.nextValue hlimit ?_ ?_ hle (by omega) hle₁ (by omega)
      · rw [hsplit', hsplit, hs.split]
      · rw [hthreshold', hthreshold, hs.nextThreshold]

/-- What a round keeps holds in front of every round. -/
theorem mem_blockRounds_splitKept {data : Mem} {offset limit : ℕ} (hlimit : limit ≤ offset + 4096)
    (fuel : ℕ) {s r : BlockState} (hs : SplitKept offset limit s)
    (hr : r ∈ blockRounds data limit fuel s) : SplitKept offset limit r := by
  induction fuel generalizing s with
  | zero => cases hr
  | succ fuel ih =>
      rw [blockRounds] at hr
      by_cases h0 : s.offset = limit
      · rw [if_pos h0] at hr
        cases hr
      rw [if_neg h0] at hr
      rcases List.mem_cons.mp hr with rfl | hrest
      · exact hs
      · generalize hround : blockRound data limit s = q at hrest
        obtain ⟨_ | ret, t⟩ := q
        · exact ih (blockRound_splitKept hlimit hs h0 hround) hrest
        · cases hrest

/-! ## The split of a value -/

/-- The lengths of the distance field that the output asks for.
Source: none: abstract statement -/
def askedBits (outLen : ℕ) : Set ℕ := {bits | 4 ≤ bits ∧ bits ≤ 12 ∧ 2 ^ (bits - 1) < outLen}

/-- The greatest of them is in force while there is no more output than a block should have. -/
theorem isGreatest_askedBits {outLen : ℕ} (hout : outLen ≤ 4096) :
    IsGreatest (askedBits outLen) (offsetBitsAt outLen) ∨
      askedBits outLen = ∅ ∧ offsetBitsAt outLen = 4 := by
  have hle12 := offsetBitsAt_le hout
  have h4 : 4 ≤ offsetBitsAt outLen := le_max_left _ _
  obtain ⟨hhi, hlo⟩ := offsetBitsAt_bounds outLen
  -- longer fields reach further than the output
  have hupper : ∀ bits ∈ askedBits outLen, bits ≤ offsetBitsAt outLen := by
    rintro bits ⟨-, -, hlt⟩
    by_contra hgt
    have hpow : 2 ^ offsetBitsAt outLen ≤ 2 ^ (bits - 1) :=
      Nat.pow_le_pow_right (by norm_num) (by omega)
    omega
  by_cases hmem : 2 ^ (offsetBitsAt outLen - 1) < outLen
  · exact Or.inl ⟨⟨h4, hle12, hmem⟩, hupper⟩
  · have hfour := hlo.resolve_right hmem
    refine Or.inr ⟨Set.eq_empty_of_forall_notMem ?_, hfour⟩
    intro bits hbits
    have hle := hupper bits hbits
    obtain ⟨hge, -, hlt⟩ := hbits
    have heq : bits = offsetBitsAt outLen := by omega
    rw [heq] at hlt
    exact hmem hlt

/-- The split of a block of at most 4096 bytes is between 1 and 12 in front of every round, and while
at most 4096 bytes have been produced it leaves the number of bits that the output asks for. -/
theorem split_valid {data : Mem} {limit offset : ℕ} (hle : offset ≤ limit)
    (hlimit : limit ≤ offset + 4096) (block : Option ℕ) (mem : Mem) (trace : List Access) :
    ∀ s ∈ lznt1BlockRounds data limit offset block mem trace,
      (1 ≤ s.split ∧ s.split ≤ 12) ∧
      (s.outLen ≤ 4096 → ∃ bits, s.split = 16 - bits ∧
        (IsGreatest (askedBits s.outLen) bits ∨ askedBits s.outLen = ∅ ∧ bits = 4)) := by
  have hstart : SplitKept offset limit (blockStart offset block mem trace) := by
    have hbits : offsetBitsAt 0 = 4 := by simp [offsetBitsAt]
    have hzero : inputFor 0 = 0 := by
      unfold inputFor
      omega
    constructor
    · show 12 = splitAt 0
      rw [splitAt, hbits]
    · show 16 = 2 ^ offsetBitsAt 0
      rw [hbits]
      norm_num
    · exact le_rfl
    · exact hle
    · show inputFor 0 ≤ _
      rw [hzero]
      exact Nat.zero_le _
  intro s hs
  have hkept := mem_blockRounds_splitKept hlimit _ hstart hs
  have h4 : 4 ≤ offsetBitsAt s.outLen := le_max_left _ _
  have h15 : offsetBitsAt s.outLen ≤ 15 :=
    max_le (by norm_num) (Nat.clog_le_of_le_pow (hkept.outLen_lt hlimit).le)
  have hsplit : s.split = 16 - offsetBitsAt s.outLen := hkept.split
  refine ⟨⟨by omega, by omega⟩, ?_⟩
  intro hout
  exact ⟨_, hsplit, isGreatest_askedBits hout⟩

/-- A block of 17 literals, a value behind them and one more literal. -/
def movedSplitBlock : Mem :=
  Mem.ofList ([0] ++ List.replicate 8 0x61 ++ [0] ++ List.replicate 8 0x62 ++ [2, 0x63, 0x00, 0x08, 0x64])

/-- The split moves in front of the value: it is 12 in the first 17 rounds and 11 in the last two. -/
theorem split_valid_movedSplitBlock :
    (lznt1BlockRounds movedSplitBlock 23 0 (some 0) Mem.zero []).map BlockState.split =
        List.replicate 17 12 ++ [11, 11] ∧
      ∀ s ∈ lznt1BlockRounds movedSplitBlock 23 0 (some 0) Mem.zero [],
        (1 ≤ s.split ∧ s.split ≤ 12) ∧
        (s.outLen ≤ 4096 → ∃ bits, s.split = 16 - bits ∧
          (IsGreatest (askedBits s.outLen) bits ∨ askedBits s.outLen = ∅ ∧ bits = 4)) :=
  ⟨by decide +kernel, split_valid (by norm_num) (by norm_num) (some 0) Mem.zero []⟩

end Ntloader.Lznt1
