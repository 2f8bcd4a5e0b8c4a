import Ntloader.Xca.Progress

/-!
# Where XCA decompression reads and copies from

The loop begins a round while there is input left, and a round takes what it needs: the words behind
a table, a word when the spare bits run out, the bytes of an extended length. Nothing is compared
with the end of the input before it is read, and no distance with the output.

* `Access.Fits`, `Confined` — reads in front of the end, distances within the output.
* `symbolBytes`, `symbolDistance` — what a symbol takes from the input, and how far it goes back.
* `Takes` — a part of a round takes bytes from the input, one behind the other.
* `xcaDecompress_confined_iff` — decompression is confined iff every round fits.
-/

namespace Ntloader.Xca

open Ntloader.Lib Ntloader.Huffman

/-! ## What is asked for -/

/-- A read is in front of the end of the input; if matches are copied, a distance is no more than
the number of bytes produced. -/
def Fits (len : ℕ) (copies : Bool) : Access → Prop
  | .read off n => off + n ≤ len
  | .backref dist produced => copies = true → dist ≤ produced

/-- All accesses fit. -/
def Confined (len : ℕ) (copies : Bool) (trace : List Access) : Prop :=
  ∀ a ∈ trace, Fits len copies a

/-- One more read, -/
theorem confined_read_cons {len off n : ℕ} {copies : Bool} {trace : List Access} :
    Confined len copies (.read off n :: trace) ↔ off + n ≤ len ∧ Confined len copies trace :=
  List.forall_mem_cons

/-- and one more reference. -/
theorem confined_backref_cons {len dist produced : ℕ} {copies : Bool} {trace : List Access} :
    Confined len copies (.backref dist produced :: trace) ↔
      (copies = true → dist ≤ produced) ∧ Confined len copies trace :=
  List.forall_mem_cons

/-! ## What the code depends on -/

/-- The word that a consumption of `n` bits fetches, in bytes.
Source: libnt/xca.c, xca_decompress, `if (extra_bits < 0)` -/
def refillLen (n : ℕ) (s : XcaState) : ℕ := if s.extraBits < n then 2 else 0

/-- The bytes of an extended length.
Source: libnt/xca.c, xca_decompress, `match_len` -/
def lengthBytes (data : Mem) (nibble : ℕ) (s : XcaState) : ℕ :=
  if nibble = 0x0f then if (data s.src).toNat = 0xff then 3 else 1 else 0

/-- A symbol is no match: a literal, or the end marker at the end of the input.
Source: libnt/xca.c, xca_decompress, the first two branches -/
def NoMatch (len raw : ℕ) (s : XcaState) : Prop :=
  raw < xcaEndMarker ∨ raw = xcaEndMarker ∧ s.src + 1 ≥ len

instance (len raw : ℕ) (s : XcaState) : Decidable (NoMatch len raw s) := by
  unfold NoMatch
  infer_instance

/-- The number of bytes that a symbol and what belongs to it take from the input. -/
def symbolBytes (data : Mem) (len : ℕ) (s : XcaState) : ℕ :=
  let huf := s.accum >>> (32 - huffmanBits)
  let (raw, t) := decodeSymbol data s
  refillLen (huffmanLen (huffmanSym s.alphabet huf)) s +
    if NoMatch len raw t then 0
    else
      let u := (matchLength data ((raw - xcaEndMarker) &&& 0x0f) t).2
      lengthBytes data ((raw - xcaEndMarker) &&& 0x0f) t + refillLen ((raw - xcaEndMarker) >>> 4) u

/-- How far a symbol goes back, if it is a match.
Source: libnt/xca.c, xca_decompress, `match_offset` -/
def symbolDistance (data : Mem) (len : ℕ) (s : XcaState) : Option ℕ :=
  let (raw, t) := decodeSymbol data s
  if NoMatch len raw t then none
  else
    let u := (matchLength data ((raw - xcaEndMarker) &&& 0x0f) t).2
    some (matchOffset u.accum ((raw - xcaEndMarker) >>> 4))

/-- The state in which a round decodes its symbol, if it gets there: past the table and the first
words of a block that begins. -/
def roundSymbol (data : Mem) (len : ℕ) (s : XcaState) : Option XcaState :=
  if s.outLen ≥ s.outLenThreshold then
    match initBlock data len s with
    | (some _, _) => none
    | (none, t) => some t
  else some s

/-- The input holds what a round takes, and its match stays within the output. -/
structure RoundFits (data : Mem) (len : ℕ) (copies : Bool) (s : XcaState) : Prop where
  /-- The words behind the table, and the bytes of the symbol. -/
  input : ∀ t, roundSymbol data len s = some t → t.src + symbolBytes data len t ≤ len
  /-- The distance. -/
  distance : copies = true → ∀ t dist, roundSymbol data len s = some t →
    symbolDistance data len t = some dist → dist ≤ t.outLen

/-! ## The parts of a round -/

/-- The next `n` bytes are taken from the input, and nothing else is accessed. -/
structure Takes (len : ℕ) (copies : Bool) (s t : XcaState) (n : ℕ) : Prop where
  src : t.src = s.src + n
  outLen : t.outLen = s.outLen
  trace : (Confined len copies s.trace → s.src ≤ len) →
    (Confined len copies t.trace ↔ Confined len copies s.trace ∧ t.src ≤ len)

section

variable {data : Mem} {len : ℕ} {copies : Bool}

/-- What two steps take, they take together. -/
theorem Takes.trans {s t u : XcaState} {n k : ℕ} (h₁ : Takes len copies s t n)
    (h₂ : Takes len copies t u k) : Takes len copies s u (n + k) := by
  refine ⟨by rw [h₂.src, h₁.src, Nat.add_assoc], h₂.outLen.trans h₁.outLen, fun hs => ?_⟩
  have ht := h₁.trace hs
  have hsrc := h₂.src
  rw [h₂.trace fun h => (ht.mp h).2, ht]
  constructor
  · exact fun h => ⟨h.1.1, h.2⟩
  · exact fun h => ⟨⟨h.1, by omega⟩, h.2⟩

/-- Nothing is taken. -/
theorem takes_zero {s t : XcaState} (h₁ : t.src = s.src) (h₂ : t.outLen = s.outLen)
    (h₃ : t.trace = s.trace) : Takes len copies s t 0 := by
  refine ⟨h₁, h₂, fun hs => ?_⟩
  rw [h₁, h₃]
  exact ⟨fun h => ⟨h, hs h⟩, fun h => h.1⟩

/-- One run of bytes is taken. -/
theorem takes_read {s t : XcaState} {n : ℕ} (h₁ : t.src = s.src + n) (h₂ : t.outLen = s.outLen)
    (h₃ : t.trace = .read s.src n :: s.trace) : Takes len copies s t n := by
  refine ⟨h₁, h₂, fun _ => ?_⟩
  rw [h₁, h₃, confined_read_cons]
  exact and_comm

/-- Consumed bits take the words that are fetched, -/
theorem takes_consumeBits (n : ℕ) (s : XcaState) :
    Takes len copies s (consumeBits data n s) (refillLen n s) := by
  unfold consumeBits refillLen
  dsimp only
  by_cases hneg : s.extraBits < n
  · rw [if_pos hneg, if_pos (by omega)]
    exact takes_read rfl rfl rfl
  · rw [if_neg hneg, if_neg (by omega)]
    exact takes_zero rfl rfl rfl

/-- and the length of a match its bytes. -/
theorem takes_matchLength (nibble : ℕ) (s : XcaState) :
    Takes len copies s (matchLength data nibble s).2 (lengthBytes data nibble s) := by
  unfold matchLength lengthBytes
  by_cases hn : nibble = 0x0f
  · rw [if_pos hn, if_pos hn]
    dsimp only
    by_cases hff : (data s.src).toNat = 0xff
    · rw [if_pos hff, if_pos hff]
      -- the byte, and then the word behind it
      have hbyte : Takes len copies s
          { s with src := s.src + 1, trace := .read s.src 1 :: s.trace } 1 := takes_read rfl rfl rfl
      have hword : Takes len copies { s with src := s.src + 1, trace := .read s.src 1 :: s.trace }
          { s with
            src := s.src + 3
            trace := .read (s.src + 1) 2 :: .read s.src 1 :: s.trace } 2 := takes_read rfl rfl rfl
      exact hbyte.trans hword
    · rw [if_neg hff, if_neg hff]
      exact takes_read rfl rfl rfl
  · rw [if_neg hn, if_neg hn]
    exact takes_zero rfl rfl rfl

/-- A match accesses the output behind what it takes from the input. -/
theorem matchSymbol_trace (raw : ℕ) (s : XcaState) :
    ∃ u, Takes len copies s u (lengthBytes data ((raw - xcaEndMarker) &&& 0x0f) s +
        refillLen ((raw - xcaEndMarker) >>> 4)
          (matchLength data ((raw - xcaEndMarker) &&& 0x0f) s).2) ∧
      (matchSymbol data raw s).trace = .backref
        (matchOffset (matchLength data ((raw - xcaEndMarker) &&& 0x0f) s).2.accum
          ((raw - xcaEndMarker) >>> 4)) s.outLen :: u.trace := by
  have hlength := @takes_matchLength data len copies ((raw - xcaEndMarker) &&& 0x0f) s
  have hbits := @takes_consumeBits data len copies ((raw - xcaEndMarker) >>> 4)
    (matchLength data ((raw - xcaEndMarker) &&& 0x0f) s).2
  refine ⟨_, hlength.trans hbits, ?_⟩
  rw [← (hlength.trans hbits).outLen]
  rfl

/-- What a symbol accesses. -/
theorem processSymbol_confined {s : XcaState} (hs : Confined len copies s.trace → s.src ≤ len) :
    Confined len copies (processSymbol data len s).2.trace ↔
      Confined len copies s.trace ∧ s.src + symbolBytes data len s ≤ len ∧
        (copies = true → ∀ dist, symbolDistance data len s = some dist → dist ≤ s.outLen) := by
  have hdecode : Takes len copies s (decodeSymbol data s).2
      (refillLen (huffmanLen (huffmanSym s.alphabet (s.accum >>> (32 - huffmanBits)))) s) :=
    takes_consumeBits _ s
  unfold processSymbol symbolBytes symbolDistance
  generalize decodeSymbol data s = r at hdecode ⊢
  obtain ⟨raw, t⟩ := r
  dsimp only at hdecode ⊢
  by_cases hno : NoMatch len raw t
  · have htrace : (if raw < xcaEndMarker then (none, literalSymbol raw t)
        else if raw = xcaEndMarker ∧ t.src + 1 ≥ len then (some (t.outLen : ℤ), t)
        else (none, matchSymbol data raw t)).2.trace = t.trace := by
      rcases hno with hlit | hend
      · rw [if_pos hlit]
        rfl
      · rw [if_neg (by omega), if_pos hend]
    rw [htrace, if_pos hno, if_pos hno, hdecode.trace hs, hdecode.src]
    simp only [Nat.add_zero, reduceCtorEq, false_imp_iff, implies_true, and_true]
  · obtain ⟨hlit, hend⟩ := not_or.mp hno
    rw [if_neg hlit, if_neg hend, if_neg hno, if_neg hno]
    obtain ⟨u, htakes, htrace⟩ := @matchSymbol_trace data len copies raw t
    have hboth := hdecode.trans htakes
    dsimp only
    rw [htrace, confined_backref_cons, hboth.trace hs, hboth.src, hdecode.outLen]
    simp only [Option.some.injEq, forall_eq']
    constructor
    · exact fun h => ⟨h.2.1, h.2.2, h.1⟩
    · exact fun h => ⟨h.2.2, h.1, h.2.1⟩

/-- A block that cannot begin has read its table at most. -/
theorem initBlock_some {rc : ℤ} {s t : XcaState} (h : initBlock data len s = (some rc, t)) :
    Confined len copies t.trace ↔ Confined len copies s.trace := by
  unfold initBlock at h
  dsimp only at h
  by_cases hshort : s.src + xcaCodes / 2 > len
  · rw [if_pos hshort] at h
    cases h
    exact Iff.rfl
  · rw [if_neg hshort] at h
    cases halpha : huffmanAlphabet s.alphabet
      ((List.range xcaCodes).map (xcaHufLen data s.src)) with
    | none =>
        rw [halpha] at h
        cases h
        dsimp only
        rw [confined_read_cons]
        exact and_iff_right (by omega)
    | some b =>
        rw [halpha] at h
        cases h

/-- A block that begins takes its table and two words. -/
theorem takes_initBlock {s t : XcaState} (h : initBlock data len s = (none, t)) :
    Takes len copies s t 260 := by
  obtain ⟨-, b, -, rfl⟩ := initBlock_none h
  have htable : Takes len copies s
      { s with src := s.src + 256, trace := .read s.src 256 :: s.trace } 256 :=
    takes_read rfl rfl rfl
  have hword : Takes len copies { s with src := s.src + 256, trace := .read s.src 256 :: s.trace }
      { s with
        src := s.src + 256 + 2
        trace := .read (s.src + 256) 2 :: .read s.src 256 :: s.trace } 2 := takes_read rfl rfl rfl
  have hnext : Takes len copies
      { s with
        src := s.src + 256 + 2
        trace := .read (s.src + 256) 2 :: .read s.src 256 :: s.trace }
      { s with
        src := s.src + 256 + 4
        alphabet := b
        accum := (data.word (s.src + 256) 2 <<< 16) % 2 ^ 32 ||| data.word (s.src + 256 + 2) 2
        extraBits := 16
        outLenThreshold := s.outLen + xcaBlockSize
        trace := .read (s.src + 256 + 2) 2 :: .read (s.src + 256) 2 :: .read s.src 256 ::
          s.trace } 2 := takes_read rfl rfl rfl
  exact (htable.trans hword).trans hnext

/-! ## The rounds -/

/-- What a round accesses. -/
theorem xcaStep_confined {s : XcaState} (hsrc : s.src < len) :
    Confined len copies (xcaStep data len s).2.trace ↔
      Confined len copies s.trace ∧ RoundFits data len copies s := by
  have hsymbol : ∀ t, roundSymbol data len s = some t →
      (RoundFits data len copies s ↔ t.src + symbolBytes data len t ≤ len ∧
        (copies = true → ∀ dist, symbolDistance data len t = some dist → dist ≤ t.outLen)) := by
    intro t ht
    constructor
    · exact fun h => ⟨h.input t ht, fun hc dist hd => h.distance hc t dist ht hd⟩
    · rintro ⟨hinput, hdist⟩
      refine ⟨fun u hu => ?_, fun hc u dist hu hd => ?_⟩
      · obtain rfl := Option.some.inj (ht.symm.trans hu)
        exact hinput
      · obtain rfl := Option.some.inj (ht.symm.trans hu)
        exact hdist hc dist hd
  unfold xcaStep
  by_cases hblock : s.outLen ≥ s.outLenThreshold
  · rw [if_pos hblock]
    generalize hi : initBlock data len s = r
    obtain ⟨_ | rc, t⟩ := r
    · have ht : roundSymbol data len s = some t := by rw [roundSymbol, if_pos hblock, hi]
      have htakes := (@takes_initBlock data len copies s t hi).trace fun _ => by omega
      have hprocess := @processSymbol_confined data len copies t fun h => (htakes.mp h).2
      rw [hsymbol t ht]
      dsimp only
      rw [hprocess, htakes]
      constructor
      · exact fun h => ⟨h.1.1, h.2⟩
      · exact fun h => ⟨⟨h.1, by omega⟩, h.2⟩
    · have hnone : roundSymbol data len s = none := by rw [roundSymbol, if_pos hblock, hi]
      have hfits : RoundFits data len copies s := by
        constructor
        · intro t ht
          cases hnone.symm.trans ht
        · intro _ t _ ht
          cases hnone.symm.trans ht
      dsimp only
      rw [initBlock_some hi]
      exact ⟨fun h => ⟨h, hfits⟩, fun h => h.1⟩
  · rw [if_neg hblock]
    have ht : roundSymbol data len s = some s := by rw [roundSymbol, if_neg hblock]
    rw [hsymbol s ht]
    exact processSymbol_confined fun _ => by omega

/-- What the rounds from one on access. -/
theorem xcaLoop_confined (fuel : ℕ) {s t : XcaState} {ret : ℤ}
    (h : xcaLoop data len fuel s = some (ret, t)) :
    Confined len copies t.trace ↔ Confined len copies s.trace ∧
      ∀ r ∈ loopRounds data len fuel s, RoundFits data len copies r := by
  induction fuel generalizing s with
  | zero => cases h
  | succ fuel ih =>
      rw [xcaLoop] at h
      rw [loopRounds]
      by_cases hsrc : s.src < len
      · rw [if_pos hsrc] at h ⊢
        have hstep := @xcaStep_confined data len copies s hsrc
        generalize xcaStep data len s = r at h hstep ⊢
        obtain ⟨_ | rc, u⟩ := r
        · dsimp only at h hstep ⊢
          rw [ih h, hstep, List.forall_mem_cons, and_assoc]
        · cases h
          dsimp only at hstep ⊢
          rw [hstep]
          simp only [List.mem_singleton, forall_eq]
      · rw [if_neg hsrc] at h ⊢
        have htrace : t.trace = s.trace := by
          split_ifs at h
          · cases h
            rfl
          · cases h
            rfl
        rw [htrace]
        simp only [List.not_mem_nil, false_imp_iff, implies_true, and_true]

end

/-! ## The result -/

/-- **When XCA decompression is confined.** `xca_decompress` returns; it has read the input in front
of its end only, and copied matches from the output only, iff every round that it comes to fits.
Source: libnt/xca.c, xca_decompress -/
theorem xcaDecompress_confined_iff (codes : ℤ → Fin xcaCodes) (a : HuffmanAlphabet) (data : Mem)
    (len : ℕ) (buf : Option ℕ) (mem : Mem) :
    ∃ ret t, xcaDecompress (stackXca (fun i => codes i) a) data len buf mem = some (ret, t) ∧
      (Confined len buf.isSome t.trace ↔
        ∀ s ∈ xcaRounds (stackXca (fun i => codes i) a) data len buf mem,
          RoundFits data len buf.isSome s) := by
  have hsome := xcaDecompress_isSome (stackXca (fun i => codes i) a) data len buf mem
    fun i _ hi => by
      rw [stackXca_raw_of_neg _ _ hi]
      exact (codes i).isLt
  obtain ⟨⟨ret, t⟩, h⟩ := Option.isSome_iff_exists.mp hsome
  have hnil : Confined len buf.isSome [] := fun a ha => absurd ha List.not_mem_nil
  exact ⟨ret, t, h, (xcaLoop_confined _ h).trans (and_iff_right hnil)⟩

/-- Two codes of one bit: a zero byte, and a match of three bytes at distance one. -/
def matchFirst : Mem := fun i => if i = 0 ∨ i = 128 then 1 else if i = 257 then 0x80 else 0

/-- The first symbol of 264 bytes is a match, with no output to go back over; the length 35 is
returned. Of 258 bytes the second word of the block is read behind the end. -/
theorem xcaDecompress_not_confined :
    (∃ t, xcaDecompress (stackXca (fun _ => 0) clearAlphabet) matchFirst 264 (some 0x1000)
        Mem.zero = some (35, t) ∧ ¬Confined 264 true t.trace) ∧
      ∃ ret t, xcaDecompress (stackXca (fun _ => 0) clearAlphabet) matchFirst 258 none
        Mem.zero = some (ret, t) ∧ ¬Confined 258 false t.trace := by
  constructor
  · have hrun : (xcaDecompress (stackXca (fun _ => 0) clearAlphabet) matchFirst 264 (some 0x1000)
        Mem.zero).map (fun r => (r.1, r.2.trace.contains (.backref 1 0))) = some (35, true) := by
      decide +kernel
    obtain ⟨⟨ret, t⟩, h, hval⟩ := Option.map_eq_some_iff.mp hrun
    dsimp only at hval
    obtain ⟨rfl, hmem⟩ := Prod.mk.inj hval
    refine ⟨t, h, fun hconf => ?_⟩
    have hfits : true = true → 1 ≤ 0 := hconf _ (List.contains_iff_mem.mp hmem)
    exact absurd (hfits rfl) (by omega)
  · have hrun : (xcaDecompress (stackXca (fun _ => 0) clearAlphabet) matchFirst 258 none
        Mem.zero).map (fun r => r.2.trace.contains (.read 258 2)) = some true := by
      decide +kernel
    obtain ⟨⟨ret, t⟩, h, hmem⟩ := Option.map_eq_some_iff.mp hrun
    refine ⟨ret, t, h, fun hconf => ?_⟩
    have hfits : 258 + 2 ≤ 258 := hconf _ (List.contains_iff_mem.mp hmem)
    omega

end Ntloader.Xca
