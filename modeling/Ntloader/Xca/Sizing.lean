import Ntloader.Xca.Progress
import Ntloader.Lib.WriteLog

/-!
# XCA: what the sizing pass says about the extraction pass

* `Alike` — two states that differ in the output at most, with alphabets that decode alike; every
  part of a round keeps it, so that the return value depends neither on the output buffer nor on
  what the memory of the alphabet holds.
* `symbolLog`, `roundLog`, `xcaLog` — the writes of a symbol, of a round and of the whole call.
* `xcaDecompress_ret`, `xcaDecompress_wrote` — the two passes return the same value, and the one
  with a buffer fills as much of it as that value says.
-/

namespace Ntloader.Xca

open Ntloader.Lib Ntloader.Huffman

/-! ## The return value does not depend on the output -/

/-- Alphabets that decode alike. -/
def DecodesAlike (a b : HuffmanAlphabet) : Prop :=
  ∀ huf < 2 ^ 16, huffmanLen (huffmanSym b huf) = huffmanLen (huffmanSym a huf) ∧
    huffmanRaw b (huffmanSym b huf) huf = huffmanRaw a (huffmanSym a huf) huf

/-- States that differ in the output, in the trace and in the alphabet at most. -/
structure SameControl (s t : XcaState) : Prop where
  src : t.src = s.src
  outLen : t.outLen = s.outLen
  outLenThreshold : t.outLenThreshold = s.outLenThreshold
  accum : t.accum = s.accum
  extraBits : t.extraBits = s.extraBits

/-- States that differ in the output at most: within a block the alphabets decode alike, and
`codes` stands in front of the raw symbols of both. -/
structure Alike (codes : ℤ → ℕ) (s t : XcaState) : Prop extends SameControl s t where
  /-- The accumulator has 32 bits. -/
  accum_lt : s.accum < 2 ^ 32
  raw_neg : ∀ i < 0, s.alphabet.raw i = codes i
  raw_neg' : ∀ i < 0, t.alphabet.raw i = codes i
  alphabet : s.outLen < s.outLenThreshold → DecodesAlike s.alphabet t.alphabet

/-- Consumed bits keep the control the same, -/
theorem SameControl.consumeBits {s t : XcaState} (data : Mem) (n : ℕ) (h : SameControl s t) :
    SameControl (consumeBits data n s) (consumeBits data n t) := by
  unfold Xca.consumeBits
  dsimp only
  rw [h.extraBits, h.accum, h.src]
  by_cases hneg : s.extraBits - n < 0
  · rw [if_pos hneg, if_pos hneg]
    exact ⟨rfl, h.outLen, h.outLenThreshold, rfl, rfl⟩
  · rw [if_neg hneg, if_neg hneg]
    exact ⟨rfl, h.outLen, h.outLenThreshold, rfl, rfl⟩

/-- so does the length of a match, -/
theorem SameControl.matchLength {s t : XcaState} (data : Mem) (nibble : ℕ) (h : SameControl s t) :
    (matchLength data nibble t).1 = (matchLength data nibble s).1 ∧
      SameControl (matchLength data nibble s).2 (matchLength data nibble t).2 := by
  unfold Xca.matchLength
  rw [h.src]
  dsimp only
  split_ifs
  · exact ⟨rfl, ⟨rfl, h.outLen, h.outLenThreshold, h.accum, h.extraBits⟩⟩
  · exact ⟨rfl, ⟨rfl, h.outLen, h.outLenThreshold, h.accum, h.extraBits⟩⟩
  · exact ⟨rfl, h⟩

/-- and so does its symbol. -/
theorem SameControl.matchSymbol {s t : XcaState} (data : Mem) (raw : ℕ) (h : SameControl s t) :
    SameControl (matchSymbol data raw s) (matchSymbol data raw t) := by
  obtain ⟨hlen, hlength⟩ := h.matchLength data ((raw - xcaEndMarker) &&& 0x0f)
  have hbits := hlength.consumeBits data ((raw - xcaEndMarker) >>> 4)
  unfold Xca.matchSymbol
  dsimp only
  exact ⟨hbits.src, congrArg₂ (· + ·) hbits.outLen hlen, hbits.outLenThreshold, hbits.accum,
    hbits.extraBits⟩

/-- The accumulator has 32 bits. -/
theorem consumeBits_accum_lt (data : Mem) (n : ℕ) (s : XcaState) :
    (consumeBits data n s).accum < 2 ^ 32 := by
  unfold consumeBits
  dsimp only
  have hmod : ∀ k, k % 2 ^ 32 < 2 ^ 32 := fun k => Nat.mod_lt k (by norm_num)
  split_ifs
  · exact Nat.or_lt_two_pow (hmod _) (hmod _)
  · exact hmod _

/-- The length of a match leaves the alphabet, -/
@[simp] theorem matchLength_alphabet (data : Mem) (nibble : ℕ) (s : XcaState) :
    (matchLength data nibble s).2.alphabet = s.alphabet := by
  rw [(matchLength_src data nibble s).2]

/-- and so does its symbol. -/
@[simp] theorem matchSymbol_alphabet (data : Mem) (raw : ℕ) (s : XcaState) :
    (matchSymbol data raw s).alphabet = s.alphabet := by
  unfold matchSymbol copyMatch
  dsimp only
  rw [consumeBits_alphabet, matchLength_alphabet]

/-- The accumulator keeps its 32 bits. -/
theorem matchSymbol_accum_lt (data : Mem) (raw : ℕ) (s : XcaState) :
    (matchSymbol data raw s).accum < 2 ^ 32 := consumeBits_accum_lt _ _ _

/-- Two passes do the same with a symbol. -/
theorem Alike.processSymbol {codes : ℤ → ℕ} {s t : XcaState} (data : Mem) (len : ℕ)
    (h : Alike codes s t) (hblock : s.outLen < s.outLenThreshold) :
    (processSymbol data len t).1 = (processSymbol data len s).1 ∧
      Alike codes (processSymbol data len s).2 (processSymbol data len t).2 := by
  have halike := h.alphabet hblock
  have hhuf : s.accum >>> (32 - huffmanBits) < 2 ^ 16 := by
    have haccum := h.accum_lt
    rw [Nat.shiftRight_eq_div_pow, huffmanBits]
    omega
  obtain ⟨hlen, hraw⟩ := halike _ hhuf
  unfold Xca.processSymbol decodeSymbol
  dsimp only
  rw [h.accum, hlen, hraw]
  generalize huffmanRaw s.alphabet (huffmanSym s.alphabet (s.accum >>> (32 - huffmanBits)))
    (s.accum >>> (32 - huffmanBits)) = raw
  generalize huffmanLen (huffmanSym s.alphabet (s.accum >>> (32 - huffmanBits))) = n
  have hbits := h.toSameControl.consumeBits data n
  have hlt := consumeBits_accum_lt data n s
  have hneg : ∀ i < 0, (consumeBits data n s).alphabet.raw i = codes i := by
    rw [consumeBits_alphabet]
    exact h.raw_neg
  have hneg' : ∀ i < 0, (consumeBits data n t).alphabet.raw i = codes i := by
    rw [consumeBits_alphabet]
    exact h.raw_neg'
  have halike' : DecodesAlike (consumeBits data n s).alphabet (consumeBits data n t).alphabet := by
    rw [consumeBits_alphabet, consumeBits_alphabet]
    exact halike
  rw [hbits.src]
  by_cases hlit : raw < xcaEndMarker
  · rw [if_pos hlit, if_pos hlit]
    exact ⟨rfl, ⟨⟨hbits.src, congrArg (· + 1) hbits.outLen, hbits.outLenThreshold, hbits.accum,
      hbits.extraBits⟩, hlt, hneg, hneg', fun _ => halike'⟩⟩
  rw [if_neg hlit, if_neg hlit]
  by_cases hend : raw = xcaEndMarker ∧ (consumeBits data n s).src + 1 ≥ len
  · rw [if_pos hend, if_pos hend]
    exact ⟨by rw [hbits.outLen], ⟨hbits, hlt, hneg, hneg', fun _ => halike'⟩⟩
  · rw [if_neg hend, if_neg hend]
    refine ⟨rfl, ⟨hbits.matchSymbol data raw, matchSymbol_accum_lt _ _ _, ?_, ?_, fun _ => ?_⟩⟩
    · rw [matchSymbol_alphabet]
      exact hneg
    · rw [matchSymbol_alphabet]
      exact hneg'
    · rw [matchSymbol_alphabet, matchSymbol_alphabet]
      exact halike'

/-- Two passes do the same at the beginning of a block. -/
theorem Alike.initBlock {codes : ℤ → ℕ} {s t : XcaState} (data : Mem) (len : ℕ)
    (h : Alike codes s t) :
    (∃ rc u v, initBlock data len s = (some rc, u) ∧ initBlock data len t = (some rc, v)) ∨
      ∃ u v, initBlock data len s = (none, u) ∧ initBlock data len t = (none, v) ∧
        u.outLen < u.outLenThreshold ∧ Alike codes u v := by
  have hn : (xcaLengths data s.src).length < 2 ^ 16 := by
    rw [xcaLengths_length]
    norm_num
  have hle := xcaLengths_le data s.src
  have hsome := huffmanAlphabet_isSome_congr s.alphabet t.alphabet hn
  unfold Xca.initBlock
  rw [h.src]
  dsimp only
  by_cases hshort : s.src + xcaCodes / 2 > len
  · rw [if_pos hshort, if_pos hshort]
    exact Or.inl ⟨_, _, _, rfl, rfl⟩
  rw [if_neg hshort, if_neg hshort]
  change (huffmanAlphabet s.alphabet ((List.range xcaCodes).map (xcaHufLen data s.src))).isSome =
    (huffmanAlphabet t.alphabet ((List.range xcaCodes).map (xcaHufLen data s.src))).isSome at hsome
  cases ha : huffmanAlphabet s.alphabet ((List.range xcaCodes).map (xcaHufLen data s.src)) with
  | none =>
      rw [ha] at hsome
      rw [Option.isSome_eq_false_iff.mp hsome.symm |> Option.isNone_iff_eq_none.mp]
      exact Or.inl ⟨_, _, _, rfl, rfl⟩
  | some a =>
      rw [ha] at hsome
      obtain ⟨b, hb⟩ := Option.isSome_iff_exists.mp hsome.symm
      rw [hb]
      have hlt : data.word (s.src + xcaCodes / 2) 2 <<< 16 % 2 ^ 32 |||
          data.word (s.src + xcaCodes / 2 + 2) 2 < 2 ^ 32 := by
        have hword := data.word_lt (s.src + xcaCodes / 2 + 2) 2
        exact Nat.or_lt_two_pow (Nat.mod_lt _ (by norm_num)) (by omega)
      refine Or.inr ⟨_, _, rfl, rfl, Nat.lt_add_of_pos_right (by decide), ?_⟩
      refine ⟨⟨rfl, h.outLen, by rw [h.outLen], rfl, rfl⟩, hlt, fun i hi => ?_, fun i hi => ?_,
        fun _ huf hhuf => ?_⟩
      · exact (huffmanAlphabet_raw_neg hn hle ha hi).trans (h.raw_neg i hi)
      · exact (huffmanAlphabet_raw_neg hn hle hb hi).trans (h.raw_neg' i hi)
      · exact huffmanSym_congr hn hle hb ha
          (fun i _ hi => (h.raw_neg' i hi).trans (h.raw_neg i hi).symm) hhuf

/-- Two passes do the same in a round. -/
theorem Alike.xcaStep {codes : ℤ → ℕ} {s t : XcaState} (data : Mem) (len : ℕ)
    (h : Alike codes s t) :
    (xcaStep data len t).1 = (xcaStep data len s).1 ∧
      ((xcaStep data len s).1 = none → Alike codes (xcaStep data len s).2 (xcaStep data len t).2) := by
  unfold Xca.xcaStep
  rw [h.outLen, h.outLenThreshold]
  by_cases hblock : s.outLen ≥ s.outLenThreshold
  · rw [if_pos hblock, if_pos hblock]
    obtain ⟨rc, u, v, hs, ht⟩ | ⟨u, v, hs, ht, hlt, huv⟩ := h.initBlock data len
    · rw [hs, ht]
      exact ⟨rfl, nofun⟩
    · rw [hs, ht]
      obtain ⟨hret, hnext⟩ := huv.processSymbol data len hlt
      exact ⟨hret, fun _ => hnext⟩
  · rw [if_neg hblock, if_neg hblock]
    obtain ⟨hret, hnext⟩ := h.processSymbol data len (by omega)
    exact ⟨hret, fun _ => hnext⟩

/-- Two passes over the input from some round on return the same value. -/
theorem xcaLoop_ret {data : Mem} {len : ℕ} {codes : ℤ → ℕ} (fuel : ℕ) {s t : XcaState}
    (h : Alike codes s t) :
    (xcaLoop data len fuel t).map Prod.fst = (xcaLoop data len fuel s).map Prod.fst := by
  induction fuel generalizing s t with
  | zero => rfl
  | succ fuel ih =>
      obtain ⟨hret, hnext⟩ := h.xcaStep data len
      rw [xcaLoop, xcaLoop, h.src, h.outLen]
      by_cases hsrc : s.src < len
      · rw [if_pos hsrc, if_pos hsrc]
        generalize xcaStep data len s = r at hret hnext ⊢
        generalize xcaStep data len t = q at hret hnext ⊢
        obtain ⟨_ | rc, u⟩ := r
        · obtain ⟨_ | rc, v⟩ := q
          · exact ih (hnext rfl)
          · cases hret
        · obtain ⟨_ | rc', v⟩ := q
          · cases hret
          · cases hret
            rfl
      · rw [if_neg hsrc, if_neg hsrc]
        by_cases heq : s.src = len
        · rw [if_pos heq, if_pos heq]
          rfl
        · rw [if_neg heq, if_neg heq]
          rfl

/-- The two passes return the same value, if what stands in front of the raw symbols is the same.
Source: libnt/xca.c, xca_decompress -/
theorem xcaDecompress_ret {xca xca' : HuffmanAlphabet} (hneg : ∀ i < 0, xca.raw i = xca'.raw i)
    (data : Mem) (len : ℕ) (buf buf' : Option ℕ) (mem mem' : Mem) :
    (xcaDecompress xca data len buf mem).map Prod.fst =
      (xcaDecompress xca' data len buf' mem').map Prod.fst :=
  xcaLoop_ret _ ⟨⟨rfl, rfl, rfl, rfl, rfl⟩, by norm_num, fun _ _ => rfl, hneg, nofun⟩

/-! ## The writes -/

/-- The bytes written for a symbol, and where.
Source: libnt/xca.c, xca_decompress, `*(out++)` in both branches -/
def symbolLog (data : Mem) (len : ℕ) (s : XcaState) : WriteLog :=
  let (raw, s) := decodeSymbol data s
  match s.out with
  | none => []
  | some out =>
      if raw < xcaEndMarker then [(out, UInt8.ofNat raw)]
      else if raw = xcaEndMarker ∧ s.src + 1 ≥ len then []
      else
        let (matchLen, s) := matchLength data ((raw - xcaEndMarker) &&& 0x0f) s
        copyLoopLog s.mem out (out - matchOffset s.accum ((raw - xcaEndMarker) >>> 4)) matchLen

/-- The bytes written in a round. -/
def roundLog (data : Mem) (len : ℕ) (s : XcaState) : WriteLog :=
  if s.outLen ≥ s.outLenThreshold then
    match initBlock data len s with
    | (some _, _) => []
    | (none, s) => symbolLog data len s
  else symbolLog data len s

/-- The bytes written by `xca_decompress`, in order.
Source: libnt/xca.c, xca_decompress -/
def xcaLog (xca : HuffmanAlphabet) (data : Mem) (len : ℕ) (buf : Option ℕ) (mem : Mem) : WriteLog :=
  (xcaRounds xca data len buf mem).flatMap (roundLog data len)

/-- What has been written between two states, behind the output of the first. -/
def WroteTo (out : ℕ) (s t : XcaState) (log : WriteLog) : Prop :=
  ∃ k, t.outLen = s.outLen + k ∧ t.out = some (out + k) ∧ Wrote out k s.mem t.mem log

/-- A step without output writes nothing. -/
theorem wroteTo_nil {out : ℕ} {s t : XcaState} (hout : s.out = some out) (h₁ : t.outLen = s.outLen)
    (h₂ : t.out = s.out) (h₃ : t.mem = s.mem) : WroteTo out s t [] :=
  ⟨0, h₁, h₂.trans hout, by rw [h₃]; exact wrote_nil _ _⟩

/-- A symbol is written behind the output; the end marker returns its length. -/
theorem processSymbol_wrote {data : Mem} {len out : ℕ} {s : XcaState} (hout : s.out = some out) :
    WroteTo out s (processSymbol data len s).2 (symbolLog data len s) ∧
      ∀ ret, (processSymbol data len s).1 = some ret →
        ret = ((processSymbol data len s).2.outLen : ℤ) := by
  unfold processSymbol symbolLog
  have hfields : (decodeSymbol data s).2.out = s.out ∧ (decodeSymbol data s).2.mem = s.mem ∧
      (decodeSymbol data s).2.outLen = s.outLen :=
    ⟨consumeBits_out _ _ _, consumeBits_mem _ _ _, consumeBits_outLen _ _ _⟩
  generalize decodeSymbol data s = r at hfields ⊢
  obtain ⟨raw, u⟩ := r
  obtain ⟨huout, humem, hulen⟩ := hfields
  dsimp only at huout humem hulen ⊢
  rw [huout, hout]
  dsimp only
  by_cases hlit : raw < xcaEndMarker
  · rw [if_pos hlit, if_pos hlit]
    refine ⟨⟨1, ?_, ?_, fills_singleton _ _, ?_⟩, nofun⟩
    · rw [literalSymbol, hulen]
    · rw [literalSymbol, huout, hout]
      rfl
    · rw [literalSymbol, huout, hout, humem]
      rfl
  rw [if_neg hlit, if_neg hlit]
  by_cases hend : raw = xcaEndMarker ∧ u.src + 1 ≥ len
  · rw [if_pos hend, if_pos hend]
    refine ⟨wroteTo_nil hout hulen huout humem, fun ret hret => ?_⟩
    exact (Option.some.inj hret).symm
  · rw [if_neg hend, if_neg hend]
    have hm := (matchLength_src data ((raw - xcaEndMarker) &&& 0x0f) u).2
    unfold matchSymbol
    generalize matchLength data ((raw - xcaEndMarker) &&& 0x0f) u = q at hm ⊢
    obtain ⟨matchLen, m⟩ := q
    dsimp only at hm ⊢
    have hmout : m.out = some out := by rw [hm, huout, hout]
    have hmmem : m.mem = s.mem := by rw [hm, humem]
    have hmlen : m.outLen = s.outLen := by rw [hm, hulen]
    refine ⟨⟨matchLen, ?_, ?_, fills_copyLoopLog _ _ _ _, ?_⟩, nofun⟩
    · rw [copyMatch, consumeBits_outLen, hmlen]
    · rw [copyMatch, consumeBits_out, hmout]
      rfl
    · rw [copyMatch, consumeBits_out, consumeBits_mem, hmout, hmmem, replay_copyLoopLog]

/-- A round writes behind the output, and returns its length if it returns no error. -/
theorem xcaStep_wrote {data : Mem} {len out : ℕ} {s : XcaState} (hout : s.out = some out) :
    WroteTo out s (xcaStep data len s).2 (roundLog data len s) ∧
      ∀ ret, (xcaStep data len s).1 = some ret → 0 ≤ ret →
        ret = ((xcaStep data len s).2.outLen : ℤ) := by
  unfold xcaStep roundLog
  by_cases hblock : s.outLen ≥ s.outLenThreshold
  · rw [if_pos hblock, if_pos hblock]
    have hinit : ∀ rc t, initBlock data len s = (rc, t) →
        t.outLen = s.outLen ∧ t.out = s.out ∧ t.mem = s.mem ∧ ∀ ret, rc = some ret → ret = -1 := by
      intro rc t ht
      unfold initBlock at ht
      dsimp only at ht
      split_ifs at ht
      · cases ht
        exact ⟨rfl, rfl, rfl, fun ret h => (Option.some.inj h).symm⟩
      · cases halpha : huffmanAlphabet s.alphabet
          ((List.range xcaCodes).map (xcaHufLen data s.src)) with
        | none =>
            rw [halpha] at ht
            cases ht
            exact ⟨rfl, rfl, rfl, fun ret h => (Option.some.inj h).symm⟩
        | some b =>
            rw [halpha] at ht
            cases ht
            exact ⟨rfl, rfl, rfl, nofun⟩
    generalize hi : initBlock data len s = r
    obtain ⟨rc, t⟩ := r
    obtain ⟨hlen, hout', hmem, hret⟩ := hinit rc t hi
    cases rc with
    | some rc =>
        refine ⟨wroteTo_nil hout hlen hout' hmem, fun ret h hnonneg => ?_⟩
        have hrc := hret rc rfl
        obtain rfl := Option.some.inj h
        omega
    | none =>
        obtain ⟨⟨k, h₁, h₂, h₃⟩, hmarker⟩ := @processSymbol_wrote data len out t (hout'.trans hout)
        refine ⟨⟨k, h₁.trans (by rw [hlen]), h₂, ?_⟩, fun ret h _ => hmarker ret h⟩
        rwa [hmem] at h₃
  · rw [if_neg hblock, if_neg hblock]
    obtain ⟨hwrote, hmarker⟩ := @processSymbol_wrote data len out s hout
    exact ⟨hwrote, fun ret h _ => hmarker ret h⟩

/-- The rounds write one behind the other, and the length of the output is returned. -/
theorem xcaLoop_wrote {data : Mem} {len : ℕ} (fuel : ℕ) {out n : ℕ} {s t : XcaState}
    (hout : s.out = some out) (h : xcaLoop data len fuel s = some ((n : ℤ), t)) :
    ∃ k, n = s.outLen + k ∧
      Wrote out k s.mem t.mem ((loopRounds data len fuel s).flatMap (roundLog data len)) := by
  induction fuel generalizing s out with
  | zero => cases h
  | succ fuel ih =>
      obtain ⟨⟨j, hlen, hout', hwrote⟩, hmarker⟩ := @xcaStep_wrote data len out s hout
      rw [xcaLoop] at h
      rw [loopRounds]
      by_cases hsrc : s.src < len
      · rw [if_pos hsrc] at h ⊢
        rw [List.flatMap_cons]
        generalize xcaStep data len s = r at h hlen hout' hwrote hmarker ⊢
        obtain ⟨_ | ret, u⟩ := r
        · obtain ⟨k, hk, hrest⟩ := ih hout' h
          refine ⟨j + k, ?_, hwrote.append hrest⟩
          dsimp only at hk hlen
          omega
        · cases h
          have hret := hmarker _ rfl (Int.natCast_nonneg n)
          refine ⟨j, ?_, ?_⟩
          · dsimp only at hlen hret
            omega
          · rw [List.flatMap_nil, List.append_nil]
            exact hwrote
      · rw [if_neg hsrc] at h ⊢
        by_cases heq : s.src = len
        · rw [if_pos heq] at h
          cases h
          exact ⟨0, rfl, wrote_nil _ _⟩
        · rw [if_neg heq] at h
          have hret := congrArg Prod.fst (Option.some.inj h)
          dsimp only at hret
          omega

/-- With a buffer, as much of it is filled as the value returned says.
Source: libnt/xca.c, xca_decompress -/
theorem xcaDecompress_wrote {xca : HuffmanAlphabet} {data : Mem} {len buf n : ℕ} {mem : Mem}
    {t : XcaState} (h : xcaDecompress xca data len (some buf) mem = some ((n : ℤ), t)) :
    Wrote buf n mem t.mem (xcaLog xca data len (some buf) mem) := by
  obtain ⟨k, hk, hwrote⟩ := xcaLoop_wrote _ rfl h
  dsimp only at hk
  rw [hk, Nat.zero_add]
  exact hwrote

end Ntloader.Xca
