import Mathlib.Data.Nat.Log
import Ntloader.Xca.Decompress
import Ntloader.Xca.Layout

/-!
# When XCA decompression undoes XCA encoding

* `Synced` — the invariant of the accumulator: it holds the next `16 + extraAt t` bits of the block,
  left-justified; `Synced.consumeBits` carries it over a consumption.
* `processSymbol_token` — one token; `processSymbol_marker` — the end marker.
* `xcaBody_tokens` — the tokens of a block, as long as input is left; `xcaBody_tokens_short` — what
  happens when it is not: the loop stops early, and the tokens still in the accumulator are lost.
* `xcaDecompress_encode_iff` — decompression undoes encoding iff input is left at every token.
-/

namespace Ntloader.Xca

open Ntloader.Lib Ntloader.Huffman

/-! ## The accumulator -/

/-- The number of bits in the accumulator past the first 16, once `t` bits are consumed. -/
def extraAt (t : ℕ) : ℕ := 16 * wordsAt t - (t + 16)

/-- At most 16 bits are buffered behind the current word. -/
theorem extraAt_le (t : ℕ) : extraAt t ≤ 16 := by
  unfold extraAt wordsAt
  omega

/-- The bits that are read and those that are buffered are whole words. -/
theorem add_extraAt (t : ℕ) : t + (16 + extraAt t) = 16 * wordsAt t := by
  unfold extraAt wordsAt
  omega

/-- Where enough bits are buffered, no word is fetched, -/
theorem extraAt_add_of_le {t n : ℕ} (h : n ≤ extraAt t) :
    extraAt (t + n) = extraAt t - n ∧ wordsAt (t + n) = wordsAt t := by
  unfold extraAt wordsAt at *
  omega

/-- and where there are not, one is. -/
theorem extraAt_add_of_lt {t n : ℕ} (h : extraAt t < n) (hn : n ≤ 15) :
    extraAt (t + n) = extraAt t + 16 - n ∧ wordsAt (t + n) = wordsAt t + 1 := by
  unfold extraAt wordsAt at *
  omega

/-- The decompressor has consumed `t` bits of the block with table `tab` and bit stream `S`. -/
structure Synced (tab : Table) (S : ℕ → Bool) (t : ℕ) (s : XcaState) : Prop where
  /-- The alphabet is that of the table. -/
  alphabet : IsAlphabetOf tab.lens s.alphabet
  /-- The accumulator holds the bits that follow. -/
  accum : s.accum = peek S t (16 + extraAt t) * 2 ^ (16 - extraAt t)
  /-- How many there are. -/
  extraBits : s.extraBits = extraAt t

/-- **A consumption keeps the accumulator in step**, and takes from the input the word that the
layout puts there. -/
theorem Synced.consumeBits {tab : Table} {S : ℕ → Bool} {t n : ℕ} {s : XcaState} {data : Mem}
    (hs : Synced tab S t s) (hn : n ≤ 15)
    (hdata : data.bytes s.src (refillBytes S t n).length = refillBytes S t n) :
    Synced tab S (t + n) (consumeBits data n s) ∧
      (consumeBits data n s).src = s.src + (refillBytes S t n).length := by
  have hE := extraAt_le t
  rcases Nat.lt_or_ge (extraAt t) n with hlt | hge
  · -- the word fetched continues the bits in the accumulator
    obtain ⟨hextra, hwords⟩ := extraAt_add_of_lt hlt hn
    have hrefill : refillBytes S t n = wordBytes S (wordsAt t) := if_pos (by omega)
    rw [hrefill, wordBytes_length] at hdata
    have hword : data.word s.src 2 = peek S (16 * wordsAt t) 16 := by
      rw [Mem.word, hdata, wordBytes, leNat_leBytes_of_lt (peek_lt _ _ _)]
    have hpos : t + n + (16 + extraAt t - n) = 16 * wordsAt t := by
      rw [← add_extraAt]
      omega
    have hshift : s.accum <<< n % 2 ^ 32 =
        peek S (t + n) (16 + extraAt t - n) * 2 ^ (16 + (n - extraAt t)) := by
      have hpeek := peek_shiftOut S t n (16 + extraAt t - n) (16 - extraAt t)
      rw [show n + (16 + extraAt t - n) = 16 + extraAt t by omega,
        show 16 + extraAt t + (16 - extraAt t) = 32 by omega,
        show n + (16 - extraAt t) = 16 + (n - extraAt t) by omega] at hpeek
      rw [hs.accum, Nat.shiftLeft_eq, hpeek]
    have hin : data.word s.src 2 <<< (n - extraAt t) % 2 ^ 32 =
        peek S (t + n + (16 + extraAt t - n)) 16 * 2 ^ (n - extraAt t) := by
      have hmul := Nat.mul_lt_mul_of_pos_right (peek_lt S (16 * wordsAt t) 16)
        (Nat.two_pow_pos (n - extraAt t))
      rw [← pow_add] at hmul
      have hpow := Nat.pow_le_pow_right (show 0 < 2 by omega)
        (show 16 + (n - extraAt t) ≤ 32 by omega)
      rw [hword, hpos, Nat.shiftLeft_eq, Nat.mod_eq_of_lt (by omega)]
    have hneg : s.extraBits - n < 0 := by
      rw [hs.extraBits]
      omega
    have htoNat : (-(s.extraBits - n)).toNat = n - extraAt t := by
      rw [hs.extraBits]
      omega
    rw [Xca.consumeBits]
    simp only [hneg, if_true, htoNat]
    refine ⟨⟨hs.alphabet, ?_, ?_⟩, ?_⟩
    · dsimp only
      rw [hshift, hin, peek_shiftIn, hextra]
      congr 2
      · omega
      · omega
    · dsimp only
      rw [hs.extraBits, hextra]
      omega
    · rw [hrefill, wordBytes_length]
  · obtain ⟨hextra, hwords⟩ := extraAt_add_of_le hge
    have hrefill : refillBytes S t n = [] := if_neg (by omega)
    have hnonneg : ¬ s.extraBits - n < 0 := by
      rw [hs.extraBits]
      omega
    rw [Xca.consumeBits]
    simp only [hnonneg, if_false]
    refine ⟨⟨hs.alphabet, ?_, ?_⟩, ?_⟩
    · dsimp only
      have hpeek := peek_shiftOut S t n (16 + extraAt t - n) (16 - extraAt t)
      rw [show n + (16 + extraAt t - n) = 16 + extraAt t by omega,
        show 16 + extraAt t + (16 - extraAt t) = 32 by omega] at hpeek
      rw [hs.accum, Nat.shiftLeft_eq, hpeek, hextra]
      congr 2
      · omega
      · omega
    · dsimp only
      rw [hs.extraBits, hextra]
      omega
    · rw [hrefill]
      rfl

/-- The top of the accumulator is what the block holds next. -/
theorem Synced.accum_shiftRight {tab : Table} {S : ℕ → Bool} {t : ℕ} {s : XcaState}
    (hs : Synced tab S t s) {k : ℕ} (hk : k ≤ 16) : s.accum >>> (32 - k) = peek S t k := by
  have hE := extraAt_le t
  have htop := peek_top S t k (16 + extraAt t - k) (16 - extraAt t)
  rw [show k + (16 + extraAt t - k) = 16 + extraAt t by omega,
    show 16 + extraAt t - k + (16 - extraAt t) = 32 - k by omega] at htop
  rw [hs.accum, Nat.shiftRight_eq_div_pow, htop]

/-- The symbol at the top of the accumulator is decoded. -/
theorem Synced.decodeSymbol {tab : Table} {S : ℕ → Bool} {t : ℕ} {s : XcaState} {data : Mem}
    (hs : Synced tab S t s) {v : Fin 512} (hcoded : 0 < tab.len v)
    (hpeek : peek S t (tab.len v) = bitsNat (tab.code v)) :
    Xca.decodeSymbol data s = (v.val, Xca.consumeBits data (tab.len v) s) := by
  have hle := tab.len_le v
  have hhuf : s.accum >>> (32 - 16) = peek S t 16 := hs.accum_shiftRight le_rfl
  have hlt : peek S t 16 < 2 ^ 16 := peek_lt S t 16
  have hcode : Canonical.code (lenOf tab.lens) 16 (tab.sym v) < 2 ^ tab.len v :=
    Canonical.code_lt _ _ hcoded (by unfold Table.len at hle; omega) tab.complete.le
  have hprefix : Canonical.codeword (lenOf tab.lens) 16 (tab.sym v) <+: natBits 16 (peek S t 16) := by
    refine (natBits_prefix_iff (show tab.len v ≤ 16 by omega) hcode hlt).mpr ?_
    have hdiv := peek_div S t (tab.len v) (16 - tab.len v)
    rw [Nat.add_sub_cancel' (by omega)] at hdiv
    rw [Table.code, Canonical.codeword, bitsNat_natBits] at hpeek
    change _ = _ % 2 ^ tab.len v at hpeek
    rw [Nat.mod_eq_of_lt hcode] at hpeek
    exact hdiv.trans hpeek
  obtain ⟨hlen, -, hraw⟩ := hs.alphabet.decode hlt hcoded hprefix
  simp only [Xca.decodeSymbol, huffmanBits]
  rw [hhuf, hlen, hraw]
  rfl

/-! ## One symbol -/

/-- The output written so far is stored at `a`, and nothing else was written. -/
structure Written (a : ℕ) (m : Mem) (out : List UInt8) (s : XcaState) : Prop where
  /-- The next byte goes behind the output. -/
  dest : s.out = some (a + out.length)
  /-- The output is stored. -/
  mem : s.mem = m.store a out
  /-- The output length. -/
  outLen : s.outLen = out.length

/-- The length of a match is read back from its symbol and its extended length. -/
theorem matchLength_spec {data : Mem} {s : XcaState} {dist len : ℕ} (h3 : 3 ≤ len)
    (hle : len ≤ 65538)
    (hdata : data.bytes s.src (extraLength (.backref dist len)).length =
      extraLength (.backref dist len)) :
    ∃ trace, matchLength data (min (len - 3) 15) s =
      (len, { s with src := s.src + (extraLength (.backref dist len)).length, trace := trace }) := by
  rw [matchLength]
  by_cases hshort : len - 3 < 15
  · have hlen : len - 3 + 3 = len := by omega
    refine ⟨s.trace, ?_⟩
    rw [Nat.min_eq_left (by omega), if_neg (by omega), hlen]
    simp [extraLength, hshort]
  · rw [Nat.min_eq_right (by omega), if_pos rfl]
    by_cases hbyte : len - 3 < 15 + 255
    · have hextra : extraLength (.backref dist len) = [UInt8.ofNat (len - 3 - 15)] := by
        simp only [extraLength, if_neg hshort, if_pos hbyte]
      have hval : (data s.src).toNat = len - 3 - 15 := by
        rw [hextra] at hdata
        have hhead : data s.src = UInt8.ofNat (len - 3 - 15) := by simpa [Mem.bytes] using hdata
        rw [hhead, UInt8.toNat_ofNat']
        omega
      have hlen : len - 3 - 15 + 0x0f + 3 = len := by omega
      have hne : ¬ len - 3 - 15 = 0xff := by omega
      rw [hextra]
      simp only [hval, hne, if_false, hlen]
      exact ⟨_, rfl⟩
    · have hextra : extraLength (.backref dist len) = 0xff :: leBytes 2 (len - 3) := by
        simp only [extraLength, if_neg hshort, if_neg hbyte]
      rw [hextra, List.length_cons, leBytes_length, Mem.bytes_succ] at hdata
      obtain ⟨hmark, hword⟩ := List.cons.inj hdata
      have hval : data.word (s.src + 1) 2 = len - 3 := by
        rw [Mem.word, hword, leNat_leBytes_of_lt (by omega)]
      have hlen : len - 3 + 3 = len := by omega
      rw [hextra]
      simp only [hmark, hval, hlen]
      exact ⟨_, rfl⟩

/-- The distance of a match is read back from the top of the accumulator. -/
theorem matchOffset_spec {tab : Table} {S : ℕ → Bool} {t dist len : ℕ} {s : XcaState}
    (hs : Synced tab S t s) (h1 : 1 ≤ dist) (hle : dist ≤ 65535)
    (hpeek : peek S t (Nat.log 2 dist) = bitsNat (offsetCode (.backref dist len))) :
    matchOffset s.accum (Nat.log 2 dist) = dist := by
  have hlow := Nat.pow_log_le_self 2 (Nat.pos_iff_ne_zero.mp h1)
  have hhigh := Nat.lt_pow_succ_log_self (show 1 < 2 by omega) dist
  have h15 : Nat.log 2 dist ≤ 15 := Nat.lt_succ_iff.mp (Nat.log_lt_of_lt_pow' (by omega) (by omega))
  rw [matchOffset]
  by_cases h0 : Nat.log 2 dist = 0
  · rw [h0] at hhigh
    rw [if_neg (by omega)]
    omega
  · rw [if_pos h0, hs.accum_shiftRight (by omega), hpeek, offsetCode, bitsNat_natBits,
      Nat.one_shiftLeft]
    have hmod : dist % 2 ^ Nat.log 2 dist = dist - 2 ^ Nat.log 2 dist := by
      rw [Nat.mod_eq_sub_mod hlow, Nat.mod_eq_of_lt (by rw [pow_succ] at hhigh; omega)]
    rw [hmod]
    omega

/-- Only the match of three bytes at distance one has the symbol of the end marker. -/
theorem symbolOf_eq_marker {p : ℕ} {tok : Token} (hfit : TokenFits p tok) :
    (symbolOf tok).val = 256 ↔ tok = .backref 1 3 := by
  cases tok with
  | lit b =>
      have hb := b.toNat_lt
      rw [symbolOf_lit]
      constructor
      · intro h
        omega
      · exact fun h => absurd h (by simp)
  | backref dist len =>
      rw [symbolOf_backref hfit]
      obtain ⟨h1, -, -, h3, -⟩ := hfit
      constructor
      · intro h
        have hlog : dist < 2 ∨ 2 ≤ 1 := by
          have h0 : Nat.log 2 dist = 0 := by omega
          exact Nat.log_eq_zero_iff.mp h0
        have hdist : dist = 1 := by omega
        have hlen : len = 3 := by omega
        rw [hdist, hlen]
      · intro h
        obtain ⟨rfl, rfl⟩ := Token.backref.inj h
        simp

/-- **One token.** If the end marker is not seen in its place, the bytes and bits of a token are
decoded to the output continued by that token. -/
theorem processSymbol_token {tab : Table} {S : ℕ → Bool} {t a len : ℕ} {m data : Mem}
    {out : List UInt8} {s : XcaState} {tok : Token} (hs : Synced tab S t s)
    (hw : Written a m out s) (hfit : TokenFits out.length tok) (hcoded : 0 < tab.len (symbolOf tok))
    (hpeek : peek S t (tab.len (symbolOf tok)) = bitsNat (tab.code (symbolOf tok)) ∧
      peek S (t + tab.len (symbolOf tok)) (offsetBits tok) = bitsNat (offsetCode tok))
    (hdata : data.bytes s.src (tokenLayout tab S t tok).length = tokenLayout tab S t tok)
    (hleft : tok = .backref 1 3 → s.src + (tokenLayout tab S t tok).length + 2 ≤ len) :
    ∃ u, processSymbol data len s = (none, u) ∧ Synced tab S (t + tab.width tok) u ∧
      Written a m (expand out tok) u ∧ u.src = s.src + (tokenLayout tab S t tok).length ∧
      u.outLenThreshold = s.outLenThreshold := by
  rw [tokenLayout] at hdata
  obtain ⟨hdata₁, hdata₂⟩ := Mem.bytes_append_iff.mp hdata
  obtain ⟨hsync, hsrc⟩ := hs.consumeBits (tab.len_le _) hdata₁
  rw [processSymbol, hs.decodeSymbol hcoded hpeek.1]
  dsimp only
  set u := Xca.consumeBits data (tab.len (symbolOf tok)) s with hu
  have hout : u.out = some (a + out.length) := by rw [hu, consumeBits_out, hw.dest]
  have hmem : u.mem = m.store a out := by rw [hu, consumeBits_mem, hw.mem]
  have houtLen : u.outLen = out.length := by rw [hu, consumeBits_outLen, hw.outLen]
  cases tok with
  | lit b =>
      have hb := b.toNat_lt
      have hlayout : (tokenLayout tab S t (.lit b)).length =
          (refillBytes S t (tab.len (symbolOf (.lit b)))).length := by
        simp [tokenLayout, extraLength, offsetBits, refillBytes]
      rw [symbolOf_lit, if_pos (by simpa using hb)]
      refine ⟨_, rfl, ⟨hsync.alphabet, hsync.accum, hsync.extraBits⟩, ⟨?_, ?_, ?_⟩, ?_, ?_⟩
      · simp [literalSymbol, hout, expand, Nat.add_assoc]
      · simp only [literalSymbol, hout, hmem, expand, UInt8.ofNat_toNat]
        exact update_store_append m a out b
      · simp [literalSymbol, houtLen, expand]
      · rw [hlayout]
        exact hsrc
      · exact consumeBits_outLenThreshold _ _ _
  | backref dist len' =>
      obtain ⟨h1, hdist, h65535, h3, h65538⟩ := id hfit
      have hsym := symbolOf_backref hfit
      have hlog : Nat.log 2 dist ≤ 15 := offsetBits_le hfit
      have hshift : (16 * Nat.log 2 dist + min (len' - 3) 15) >>> 4 = Nat.log 2 dist := by
        rw [Nat.shiftRight_eq_div_pow]
        omega
      have hnibble : (16 * Nat.log 2 dist + min (len' - 3) 15) &&& 0x0f = min (len' - 3) 15 := by
        rw [show (0x0f : ℕ) = 2 ^ 4 - 1 from rfl, Nat.and_two_pow_sub_one_eq_mod]
        omega
      have hmarker : ¬ ((symbolOf (.backref dist len')).val = xcaEndMarker ∧ u.src + 1 ≥ len) := by
        rintro ⟨hmark, hend⟩
        have htok := (symbolOf_eq_marker hfit).mp hmark
        have hleft := hleft htok
        obtain ⟨rfl, rfl⟩ := Token.backref.inj htok
        have hlayout : (tokenLayout tab S t (.backref 1 3)).length =
            (refillBytes S t (tab.len (symbolOf (.backref 1 3)))).length := by
          simp [tokenLayout, extraLength, offsetBits, refillBytes]
        omega
      rw [if_neg (by rw [hsym]; simp only [xcaEndMarker]; omega), if_neg hmarker, matchSymbol]
      rw [← hsrc] at hdata₂
      obtain ⟨hdata₂, hdata₃⟩ := Mem.bytes_append_iff.mp hdata₂
      obtain ⟨trace, hlen⟩ := matchLength_spec h3 h65538 hdata₂
      have hraw : (symbolOf (.backref dist len')).val - xcaEndMarker =
          16 * Nat.log 2 dist + min (len' - 3) 15 := by
        rw [hsym]
        simp only [xcaEndMarker]
        omega
      rw [hraw, hshift, hnibble, hlen]
      dsimp only
      rw [matchOffset_spec hsync h1 h65535 hpeek.2]
      set v : XcaState := { u with
        src := u.src + (extraLength (.backref dist len')).length
        trace := trace } with hv
      have hvsync : Synced tab S (t + tab.len (symbolOf (.backref dist len'))) v :=
        ⟨hsync.alphabet, hsync.accum, hsync.extraBits⟩
      obtain ⟨hlast, hlastsrc⟩ := hvsync.consumeBits hlog hdata₃
      refine ⟨_, rfl, ?_, ⟨?_, ?_, ?_⟩, ?_, ?_⟩
      · rw [Table.width, ← Nat.add_assoc]
        exact ⟨hlast.alphabet, hlast.accum, hlast.extraBits⟩
      · simp only [copyMatch, consumeBits_out]
        simp [hv, hout, expand, Nat.add_assoc]
      · simp only [copyMatch, consumeBits_out, consumeBits_mem]
        simp only [hv, hout, hmem, expand]
        exact copyLoop_store m a len' out h1 hdist
      · simp only [copyMatch, consumeBits_outLen]
        simp [hv, houtLen, expand]
      · simp only [copyMatch, tokenLayout, List.length_append]
        rw [hlastsrc, hv, hsrc]
        simp only [offsetBits]
        omega
      · simp only [copyMatch, consumeBits_outLenThreshold]
        rw [hv]
        exact consumeBits_outLenThreshold _ _ _

/-- A match of three bytes at distance one is taken for the end marker when less than two bytes of
input are left. -/
theorem processSymbol_short {tab : Table} {S : ℕ → Bool} {t a len : ℕ} {m data : Mem}
    {out : List UInt8} {s : XcaState} (hs : Synced tab S t s) (hw : Written a m out s)
    (hfit : TokenFits out.length (.backref 1 3)) (hcoded : 0 < tab.len (symbolOf (.backref 1 3)))
    (hpeek : peek S t (tab.len (symbolOf (.backref 1 3))) =
      bitsNat (tab.code (symbolOf (.backref 1 3))))
    (hdata : data.bytes s.src (tokenLayout tab S t (.backref 1 3)).length =
      tokenLayout tab S t (.backref 1 3))
    (hend : len < s.src + (tokenLayout tab S t (.backref 1 3)).length + 2) :
    ∃ u, processSymbol data len s = (some (out.length : ℤ), u) := by
  have hlayout : tokenLayout tab S t (.backref 1 3) =
      refillBytes S t (tab.len (symbolOf (.backref 1 3))) := by
    simp [tokenLayout, extraLength, offsetBits, refillBytes]
  rw [hlayout] at hdata hend
  obtain ⟨-, hsrc⟩ := hs.consumeBits (tab.len_le _) hdata
  have hsym := symbolOf_backref hfit
  rw [processSymbol, hs.decodeSymbol hcoded hpeek]
  dsimp only
  rw [if_neg (by rw [hsym]; simp only [xcaEndMarker]; omega),
    if_pos ⟨by rw [hsym]; simp, by omega⟩, consumeBits_outLen, hw.outLen]
  exact ⟨_, rfl⟩

/-- **The end marker**, at the end of the input, ends decompression. -/
theorem processSymbol_marker {tab : Table} {S : ℕ → Bool} {t a len : ℕ} {m data : Mem}
    {out : List UInt8} {s : XcaState} (hs : Synced tab S t s) (hw : Written a m out s)
    (hpeek : peek S t (tab.len 256) = bitsNat (tab.code 256))
    (hdata : data.bytes s.src (refillBytes S t (tab.len 256)).length =
      refillBytes S t (tab.len 256))
    (hend : s.src + (refillBytes S t (tab.len 256)).length = len) :
    ∃ u, processSymbol data len s = (some (out.length : ℤ), u) ∧ u.mem = m.store a out := by
  obtain ⟨-, hsrc⟩ := hs.consumeBits (tab.len_le _) hdata
  rw [processSymbol, hs.decodeSymbol tab.len_marker hpeek]
  dsimp only
  rw [if_neg (by simp), if_pos ⟨rfl, by omega⟩, consumeBits_outLen, hw.outLen]
  exact ⟨_, rfl, by rw [consumeBits_mem, hw.mem]⟩

/-! ## The tokens of a block -/

/-- What a round of the loop does past the table. -/
def xcaBody (data : Mem) (len fuel : ℕ) (s : XcaState) : Option (ℤ × XcaState) :=
  match processSymbol data len s with
  | (some ret, s) => some (ret, s)
  | (none, s) => xcaLoop data len fuel s

/-- Within a block, a round of the loop goes on with the next symbol. -/
theorem xcaLoop_of_lt {data : Mem} {len fuel : ℕ} {s : XcaState} (hsrc : s.src < len)
    (hlt : s.outLen < s.outLenThreshold) :
    xcaLoop data len (fuel + 1) s = xcaBody data len fuel s := by
  rw [xcaLoop, if_pos hsrc, xcaStep, if_neg (by omega)]
  rfl

/-- The tokens of a block that `toks` is the rest of, with what they need of the state. -/
structure Pending (b : Block) (final : Bool) (a : ℕ) (m data : Mem) (len rest : ℕ)
    (out : List UInt8) (pre toks : List Token) (s : XcaState) : Prop where
  /-- They follow `pre`. -/
  split : b.toks = pre ++ toks
  /-- The bits of `pre` are consumed. -/
  synced : Synced b.table (b.stream final) (bitCount b.table pre) s
  /-- The output is written. -/
  written : Written a m out s
  /-- The tokens fit. -/
  fit : AllAt TokenFits out.length toks
  /-- They are next in the input, -/
  data : data.bytes s.src
    (tokensLayout b.table (b.stream final) (bitCount b.table pre) toks).length =
      tokensLayout b.table (b.stream final) (bitCount b.table pre) toks
  /-- with `rest` bytes behind them. -/
  len : s.src + (tokensLayout b.table (b.stream final) (bitCount b.table pre) toks).length + rest =
    len
  /-- The block is not full before its last token. -/
  lt : toks ≠ [] → out.length + sizeSum toks.dropLast < s.outLenThreshold

section Tokens

variable {b : Block} {final : Bool} {a : ℕ} {m data : Mem} {len rest : ℕ}

/-- One more token adds its width. -/
theorem bitCount_append_singleton (tab : Table) (pre : List Token) (tok : Token) :
    bitCount tab (pre ++ [tok]) = bitCount tab pre + tab.width tok := by
  simp [bitCount]

/-- One token of a block. -/
theorem Pending.step {out : List UInt8} {pre toks : List Token} {tok : Token} {s : XcaState}
    (h : Pending b final a m data len rest out pre (tok :: toks) s)
    (hleft : tok = .backref 1 3 → 2 ≤ (tokensLayout b.table (b.stream final)
      (bitCount b.table pre + b.table.width tok) toks).length + rest) :
    ∃ u, (∀ fuel, xcaBody data len fuel s = xcaLoop data len fuel u) ∧
      Pending b final a m data len rest (expand out tok) (pre ++ [tok]) toks u ∧
      u.outLenThreshold = s.outLenThreshold := by
  have hdata := h.data
  have hlen := h.len
  have hlt := h.lt (List.cons_ne_nil _ _)
  simp only [tokensLayout] at hdata hlen
  obtain ⟨hdata₁, hdata₂⟩ := Mem.bytes_append_iff.mp hdata
  rw [List.length_append] at hlen
  obtain ⟨u, hu, hsync, hw, hsrc, hthr⟩ := @processSymbol_token _ _ _ _ len _ _ _ _ _ h.synced
      h.written h.fit.1 (b.coded tok (by rw [h.split]; simp)) (b.peek_token final h.split) hdata₁
      (fun htok => by have := hleft htok; omega)
  refine ⟨u, fun fuel => by rw [xcaBody, hu], ⟨?_, ?_, hw, ?_, ?_, ?_, ?_⟩, hthr⟩
  · rw [h.split]
    simp
  · rw [bitCount_append_singleton]
    exact hsync
  · rw [expand_length]
    exact h.fit.2
  · rw [bitCount_append_singleton, hsrc]
    exact hdata₂
  · rw [bitCount_append_singleton, hsrc]
    omega
  · intro hne
    rw [List.dropLast_cons_of_ne_nil hne, sizeSum_cons] at hlt
    rw [hthr, expand_length]
    omega

/-- **The tokens of a block**, with input left at each of them. -/
theorem xcaBody_tokens (toks : List Token) {out : List UInt8} {pre : List Token} {s : XcaState}
    (fuel : ℕ) (hne : toks ≠ []) (h : Pending b final a m data len rest out pre toks s)
    (hleft : InputLeft b.table (b.stream final) rest (bitCount b.table pre) toks) :
    ∃ u, xcaBody data len (fuel + (toks.length - 1)) s = xcaLoop data len fuel u ∧
      Pending b final a m data len rest (expandFrom out toks) (pre ++ toks) [] u ∧
      u.outLenThreshold = s.outLenThreshold := by
  induction toks generalizing out pre s with
  | nil => exact absurd rfl hne
  | cons tok toks ih =>
      obtain ⟨u, hu, hpend, hthr⟩ := h.step hleft.1
      rw [hu]
      rcases eq_or_ne toks [] with rfl | hrest
      · exact ⟨u, rfl, hpend, hthr⟩
      · have hpos : 0 < toks.length := List.length_pos_iff.mpr hrest
        have hlen := hpend.len
        have hlt := hpend.lt hrest
        have hsome := hleft.2.1 hrest
        rw [bitCount_append_singleton] at hlen
        have hfuel : fuel + ((tok :: toks).length - 1) = fuel + (toks.length - 1) + 1 := by
          rw [List.length_cons]
          omega
        rw [hfuel, xcaLoop_of_lt (by omega) (by rw [hpend.written.outLen]; omega)]
        obtain ⟨v, hv, hvpend, hvthr⟩ := ih hrest hpend
          (by rw [bitCount_append_singleton]; exact hleft.2.2)
        rw [List.append_assoc, List.singleton_append] at hvpend
        exact ⟨v, hv, hvpend, hvthr.trans hthr⟩

/-- **The tokens of a block**, when the input runs out before one of them: decompression ends there,
with less output than there should be. -/
theorem xcaBody_tokens_short (toks : List Token) {out : List UInt8} {pre : List Token}
    {s : XcaState} (fuel : ℕ) (h : Pending b final a m data len rest out pre toks s)
    (hleft : ¬ InputLeft b.table (b.stream final) rest (bitCount b.table pre) toks) :
    ∃ (u : XcaState) (j : ℕ), xcaBody data len (fuel + toks.length) s = some ((j : ℤ), u) ∧
      j < out.length + sizeSum toks := by
  induction toks generalizing out pre s with
  | nil => exact absurd trivial hleft
  | cons tok toks ih =>
      have hlen := h.len
      have hdata := h.data
      have hsize := h.fit.1.size_pos
      simp only [tokensLayout] at hdata hlen
      rw [List.length_append] at hlen
      rw [sizeSum_cons]
      by_cases hmark : tok = .backref 1 3 → 2 ≤ (tokensLayout b.table (b.stream final)
          (bitCount b.table pre + b.table.width tok) toks).length + rest
      · obtain ⟨u, hu, hpend, -⟩ := h.step hmark
        have hulen := hpend.len
        rw [bitCount_append_singleton] at hulen
        rw [hu]
        by_cases hsome : toks ≠ [] → 0 < (tokensLayout b.table (b.stream final)
            (bitCount b.table pre + b.table.width tok) toks).length + rest
        · have hrest : toks ≠ [] := by
            rintro rfl
            exact hleft ⟨hmark, hsome, trivial⟩
          have hlt := hpend.lt hrest
          rw [List.length_cons, ← Nat.add_assoc,
            xcaLoop_of_lt (by have := hsome hrest; omega) (by rw [hpend.written.outLen]; omega)]
          obtain ⟨v, j, hv, hj⟩ := ih hpend
            (by
              rw [bitCount_append_singleton]
              exact fun hmore => hleft ⟨hmark, hsome, hmore⟩)
          rw [expand_length] at hj
          exact ⟨v, j, hv, by omega⟩
        · -- the loop ends at the end of the input, before the next token
          obtain ⟨hrest, hzero⟩ := Classical.not_imp.mp hsome
          obtain ⟨tok', toks', rfl⟩ := List.exists_cons_of_ne_nil hrest
          have hsize' := hpend.fit.1.size_pos
          refine ⟨u, out.length + tok.size, ?_, by rw [sizeSum_cons]; omega⟩
          rw [List.length_cons, ← Nat.add_assoc, xcaLoop, if_neg (by omega), if_pos (by omega),
            hpend.written.outLen, expand_length]
      · -- the match is taken for the end marker
        obtain ⟨rfl, htwo⟩ := Classical.not_imp.mp hmark
        obtain ⟨hdata₁, -⟩ := Mem.bytes_append_iff.mp hdata
        obtain ⟨u, hu⟩ := @processSymbol_short _ _ _ _ len _ _ _ _ h.synced h.written h.fit.1
            (b.coded _ (by rw [h.split]; simp)) (b.peek_token final h.split).1 hdata₁ (by omega)
        exact ⟨u, out.length, by rw [xcaBody, hu], by omega⟩

end Tokens

/-! ## Blocks -/

/-- The nibbles of a table are its code lengths. -/
theorem xcaHufLen_table {data : Mem} {src : ℕ} {tab : Table}
    (hdata : data.bytes src tab.bytes.length = tab.bytes) :
    (List.range xcaCodes).map (xcaHufLen data src) = tab.lens := by
  rw [Mem.bytes_eq_iff, Table.bytes_length] at hdata
  apply List.ext_getElem
  · simp [tab.length_eq]
  · intro i h₁ h₂
    have hi : i < 512 := by simpa using h₁
    have hle : ∀ j, tab.lens.getD j 0 ≤ 15 := by
      intro j
      rcases Nat.lt_or_ge j tab.lens.length with hj | hj
      · rw [List.getD_eq_getElem _ _ hj]
        exact tab.le _ (List.getElem_mem _)
      · rw [List.getD_eq_default _ _ hj]
        exact Nat.zero_le _
    have hbyte : (data (src + i / 2)).toNat =
        tab.lens.getD (2 * (i / 2)) 0 + 16 * tab.lens.getD (2 * (i / 2) + 1) 0 := by
      have hlo := hle (2 * (i / 2))
      have hhi := hle (2 * (i / 2) + 1)
      rw [hdata _ (by omega), Table.bytes, List.getD_eq_getElem _ _ (by simp; omega),
        List.getElem_map, List.getElem_range, UInt8.toNat_ofNat']
      omega
    have hi' := hle i
    rw [List.getElem_map, List.getElem_range, xcaHufLen, hbyte,
      show (0x0f : ℕ) = 2 ^ 4 - 1 from rfl, Nat.and_two_pow_sub_one_eq_mod,
      Nat.shiftRight_eq_div_pow, ← List.getD_eq_getElem tab.lens 0 h₂]
    have hlo := hle (2 * (i / 2))
    rcases Nat.mod_two_eq_zero_or_one i with hpar | hpar
    · rw [hpar, show 2 * (i / 2) = i by omega]
      omega
    · rw [hpar, show 2 * (i / 2) + 1 = i by omega]
      omega

/-- **The start of a block**: the table is read, and the accumulator is filled. -/
theorem initBlock_spec {data : Mem} {b : Block} {final : Bool} {a len : ℕ} {m : Mem}
    {out : List UInt8} {s : XcaState} (hw : Written a m out s)
    (hdata : data.bytes s.src (b.layout final).length = b.layout final)
    (hlen : s.src + (b.layout final).length ≤ len) :
    ∃ u, initBlock data len s = (none, u) ∧ Synced b.table (b.stream final) 0 u ∧
      Written a m out u ∧ u.src = s.src + 260 ∧ u.outLenThreshold = out.length + 65536 := by
  obtain ⟨htable, hdata⟩ := Mem.bytes_append_iff.mp hdata
  obtain ⟨hword₀, hdata⟩ := Mem.bytes_append_iff.mp hdata
  obtain ⟨hword₁, -⟩ := Mem.bytes_append_iff.mp hdata
  simp only [Table.bytes_length, wordBytes_length] at hword₀ hword₁
  have hle : ∀ l ∈ b.table.lens, l ≤ 16 := fun l hl => le_trans (b.table.le l hl) (by omega)
  have hn : b.table.lens.length < 2 ^ 16 := by
    rw [b.table.length_eq]
    omega
  have hsome := huffmanAlphabet_of_complete s.alphabet hn hle b.table.used b.table.complete
  have hshort : ¬ s.src + xcaCodes / 2 > len := by
    simp only [Block.layout, List.length_append, Table.bytes_length, xcaCodes] at hlen ⊢
    omega
  have h₀ : data.word (s.src + 256) 2 = peek (b.stream final) 0 16 := by
    rw [Mem.word, hword₀, wordBytes, leNat_leBytes_of_lt (peek_lt _ _ _), Nat.mul_zero]
  have h₁ : data.word (s.src + 256 + 2) 2 = peek (b.stream final) 16 16 := by
    rw [Mem.word, hword₁, wordBytes, leNat_leBytes_of_lt (peek_lt _ _ _), Nat.mul_one]
  have hlt : peek (b.stream final) 0 16 * 2 ^ 16 < 2 ^ 32 := by
    have := peek_lt (b.stream final) 0 16
    omega
  rw [initBlock]
  simp only [hshort, if_false, xcaHufLen_table htable, hsome]
  refine ⟨_, rfl, ⟨?_, ?_, ?_⟩, ⟨hw.dest, hw.mem, hw.outLen⟩, ?_, ?_⟩
  · exact isAlphabetOf_of_eq_some hn hle b.table.used hsome
  · have hin := peek_shiftIn (b.stream final) 0 16 16 0
    simp only [Nat.add_zero, Nat.zero_add, pow_zero, Nat.mul_one] at hin
    simp only [xcaCodes, Nat.reduceDiv]
    rw [h₀, h₁, Nat.shiftLeft_eq, Nat.mod_eq_of_lt hlt, hin, show extraAt 0 = 16 by decide,
      Nat.sub_self, pow_zero, Nat.mul_one]
  · rfl
  · rfl
  · simp only [hw.outLen, xcaBlockSize]

/-- At the start of a block, a round of the loop goes on with the block's first symbol. -/
theorem xcaLoop_block {data : Mem} {b : Block} {final : Bool} {a len rest : ℕ} {m : Mem}
    {out : List UInt8} {s : XcaState} (hw : Written a m out s)
    (hfull : s.outLenThreshold ≤ out.length)
    (hdata : data.bytes s.src (b.layout final).length = b.layout final)
    (hlen : s.src + (b.layout final).length + rest = len) (hfit : AllAt TokenFits out.length b.toks)
    (hlt : b.toks ≠ [] → sizeSum b.toks.dropLast < 65536) :
    ∃ u, (∀ fuel, xcaLoop data len (fuel + 1) s = xcaBody data len fuel u) ∧
      Pending b final a m data len ((b.markerLayout final).length + rest) out [] b.toks u ∧
      u.outLenThreshold = out.length + 65536 := by
  obtain ⟨u, hu, hsync, huw, husrc, huthr⟩ := initBlock_spec hw hdata (by omega : _ ≤ len)
  have hpos : s.src < len := by
    simp only [Block.layout, List.length_append, Table.bytes_length] at hlen
    omega
  obtain ⟨-, hdata⟩ := Mem.bytes_append_iff.mp hdata
  obtain ⟨-, hdata⟩ := Mem.bytes_append_iff.mp hdata
  obtain ⟨-, hdata⟩ := Mem.bytes_append_iff.mp hdata
  obtain ⟨htokens, -⟩ := Mem.bytes_append_iff.mp hdata
  rw [Table.bytes_length, wordBytes_length, wordBytes_length] at htokens
  refine ⟨u, fun fuel => ?_, ⟨rfl, hsync, huw, hfit, ?_, ?_, ?_⟩, huthr⟩
  · rw [xcaLoop, if_pos hpos, xcaStep, if_pos (by rw [hw.outLen]; exact hfull), hu]
    rfl
  · rw [husrc]
    exact htokens
  · simp only [Block.layout, List.length_append, Table.bytes_length, wordBytes_length] at hlen
    rw [husrc, bitCount_nil]
    omega
  · intro hne
    rw [huthr]
    have := hlt hne
    omega

/-- **A full block** is decoded completely: the next block's table follows it. -/
theorem xcaLoop_full {data : Mem} {b : Block} {a len rest : ℕ} {m : Mem} {out : List UInt8}
    {s : XcaState} (fuel : ℕ) (hw : Written a m out s) (hfull : s.outLenThreshold ≤ out.length)
    (hdata : data.bytes s.src (b.layout false).length = b.layout false)
    (hlen : s.src + (b.layout false).length + rest = len) (hrest : 2 ≤ rest)
    (hfit : AllAt TokenFits out.length b.toks)
    (hfills : 65536 ≤ sizeSum b.toks ∧ sizeSum b.toks.dropLast < 65536) :
    ∃ u, xcaLoop data len (fuel + b.toks.length) s = xcaLoop data len fuel u ∧
      Written a m (expandFrom out b.toks) u ∧
      u.outLenThreshold ≤ (expandFrom out b.toks).length ∧
      u.src = s.src + (b.layout false).length := by
  have hne : b.toks ≠ [] := by
    intro h
    rw [h] at hfills
    exact absurd hfills.1 (by simp)
  have hpos : 0 < b.toks.length := List.length_pos_iff.mpr hne
  obtain ⟨u, hu, hpend, huthr⟩ := xcaLoop_block hw hfull hdata hlen hfit (fun _ => hfills.2)
  obtain ⟨v, hv, hvpend, hvthr⟩ := xcaBody_tokens b.toks fuel hne hpend
    (inputLeft_of_two_le (by omega) _ _)
  have hvlen := hvpend.len
  have hfuel : fuel + b.toks.length = fuel + (b.toks.length - 1) + 1 := by omega
  refine ⟨v, by rw [hfuel, hu, hv], hvpend.written, ?_, ?_⟩
  · rw [hvthr, huthr, expandFrom_length]
    omega
  · have hnone : (b.markerLayout false).length = 0 := rfl
    simp only [tokensLayout, List.length_nil] at hvlen
    omega

/-- The end marker behind the tokens of the last block. -/
theorem Pending.marker {data : Mem} {b : Block} {a len : ℕ} {m : Mem} {out : List UInt8}
    {s : XcaState} (h : Pending b true a m data len (b.markerLayout true).length out b.toks [] s)
    (hdata : data.bytes s.src (b.markerLayout true).length = b.markerLayout true) :
    ∃ u, (∀ fuel, xcaBody data len fuel s = some ((out.length : ℤ), u)) ∧
      u.mem = m.store a out := by
  have hlen := h.len
  simp only [tokensLayout, List.length_nil, Nat.add_zero] at hlen
  obtain ⟨u, hu, hmem⟩ := processSymbol_marker h.synced h.written b.peek_marker hdata hlen
  exact ⟨u, fun fuel => by rw [xcaBody, hu], hmem⟩

section Last

variable {data : Mem} {b : Block} {a len : ℕ} {m : Mem} {out : List UInt8} {s : XcaState}

/-- **The last block**, with input left at each of its tokens: decompression ends behind the last
token, at the end marker or before it. -/
theorem xcaLoop_last (fuel : ℕ) (hw : Written a m out s) (hfull : s.outLenThreshold ≤ out.length)
    (hdata : data.bytes s.src (b.layout true).length = b.layout true)
    (hlen : s.src + (b.layout true).length = len) (hfit : AllAt TokenFits out.length b.toks)
    (hlt : sizeSum b.toks < 65536)
    (hleft : InputLeft b.table (b.stream true) (b.markerLayout true).length 0 b.toks) :
    ∃ u, xcaLoop data len (fuel + b.toks.length + 1) s =
        some (((expandFrom out b.toks).length : ℤ), u) ∧ u.mem = m.store a (expandFrom out b.toks) := by
  have hdrop : sizeSum b.toks.dropLast ≤ sizeSum b.toks :=
    ((List.dropLast_sublist b.toks).map Token.size).sum_le_sum fun _ _ => Nat.zero_le _
  obtain ⟨u, hu, hpend, huthr⟩ := @xcaLoop_block _ _ _ _ _ 0 _ _ _ hw hfull hdata (by omega) hfit
      (fun _ => by omega)
  -- the end marker's word stands at the end of the input
  have hmarker : ∀ src, src + (b.markerLayout true).length = len →
      data.bytes src (b.markerLayout true).length = b.markerLayout true := by
    intro src hsrc
    obtain ⟨-, hdata⟩ := Mem.bytes_append_iff.mp hdata
    obtain ⟨-, hdata⟩ := Mem.bytes_append_iff.mp hdata
    obtain ⟨-, hdata⟩ := Mem.bytes_append_iff.mp hdata
    obtain ⟨-, hend⟩ := Mem.bytes_append_iff.mp hdata
    simp only [Block.layout, List.length_append] at hlen
    refine Eq.trans ?_ hend
    congr 1
    omega
  rw [hu]
  rcases eq_or_ne b.toks [] with hnil | hne
  · have hpend' : Pending b true a m data len (b.markerLayout true).length out b.toks [] u := by
      have h := hpend
      rw [hnil] at h ⊢
      exact h
    have hulen := hpend'.len
    simp only [tokensLayout, List.length_nil, Nat.add_zero] at hulen
    obtain ⟨v, hv, hmem⟩ := hpend'.marker (hmarker _ hulen)
    refine ⟨v, ?_, ?_⟩
    · rw [hv, hnil]
      rfl
    · rw [hmem, hnil]
      rfl
  · have hpos : 0 < b.toks.length := List.length_pos_iff.mpr hne
    obtain ⟨v, hv, hvpend, hvthr⟩ := xcaBody_tokens b.toks (fuel + 1) hne hpend hleft
    have hvlen := hvpend.len
    simp only [tokensLayout, List.length_nil, Nat.add_zero] at hvlen
    have hfuel : fuel + b.toks.length = fuel + 1 + (b.toks.length - 1) := by omega
    rw [hfuel, hv]
    by_cases hend : v.src = len
    · refine ⟨v, ?_, hvpend.written.mem⟩
      rw [xcaLoop, if_neg (by omega), if_pos hend, hvpend.written.outLen]
    · obtain ⟨w, hw, hmem⟩ := hvpend.marker (hmarker _ hvlen)
      refine ⟨w, ?_, hmem⟩
      rw [xcaLoop_of_lt (by omega) (by rw [hvpend.written.outLen, expandFrom_length]; omega), hw]

/-- **The last block**, when the input runs out before one of its tokens. -/
theorem xcaLoop_last_short (fuel : ℕ) (hw : Written a m out s)
    (hfull : s.outLenThreshold ≤ out.length)
    (hdata : data.bytes s.src (b.layout true).length = b.layout true)
    (hlen : s.src + (b.layout true).length = len) (hfit : AllAt TokenFits out.length b.toks)
    (hlt : sizeSum b.toks < 65536)
    (hleft : ¬ InputLeft b.table (b.stream true) (b.markerLayout true).length 0 b.toks) :
    ∃ (u : XcaState) (j : ℕ), xcaLoop data len (fuel + b.toks.length + 1) s = some ((j : ℤ), u) ∧
      j < (expandFrom out b.toks).length := by
  have hdrop : sizeSum b.toks.dropLast ≤ sizeSum b.toks :=
    ((List.dropLast_sublist b.toks).map Token.size).sum_le_sum fun _ _ => Nat.zero_le _
  obtain ⟨u, hu, hpend, -⟩ := @xcaLoop_block _ _ _ _ _ 0 _ _ _ hw hfull hdata (by omega) hfit
      (fun _ => by omega)
  obtain ⟨v, j, hv, hj⟩ := xcaBody_tokens_short b.toks fuel hpend hleft
  exact ⟨v, j, by rw [hu, hv], by rwa [expandFrom_length]⟩

end Last

/-! ## The stream -/

/-- The number of tokens of a list of blocks. -/
def tokenCount (blocks : List Block) : ℕ := (blocks.flatMap Block.toks).length

/-- **The full blocks**, one after the other. -/
theorem xcaLoop_blocks {data : Mem} {a len : ℕ} {m : Mem} (blocks : List Block) {out rest : List UInt8}
    {s : XcaState} (fuel : ℕ) (hw : Written a m out s) (hfull : s.outLenThreshold ≤ out.length)
    (hdata : data.bytes s.src (blocks.flatMap (Block.layout · false) ++ rest).length =
      blocks.flatMap (Block.layout · false) ++ rest)
    (hlen : s.src + (blocks.flatMap (Block.layout · false) ++ rest).length = len)
    (hrest : 2 ≤ rest.length) (hfit : AllAt TokenFits out.length (blocks.flatMap Block.toks))
    (hfills : ∀ b ∈ blocks, 65536 ≤ sizeSum b.toks ∧ sizeSum b.toks.dropLast < 65536) :
    ∃ u, xcaLoop data len (fuel + tokenCount blocks) s = xcaLoop data len fuel u ∧
      Written a m (expandFrom out (blocks.flatMap Block.toks)) u ∧
      u.outLenThreshold ≤ (expandFrom out (blocks.flatMap Block.toks)).length ∧
      data.bytes u.src rest.length = rest ∧ u.src + rest.length = len := by
  induction blocks generalizing out s with
  | nil => exact ⟨s, rfl, hw, hfull, hdata, hlen⟩
  | cons b blocks ih =>
      rw [List.flatMap_cons, List.append_assoc] at hdata hlen
      rw [List.flatMap_cons, allAt_append] at hfit
      obtain ⟨hdata₁, hdata₂⟩ := Mem.bytes_append_iff.mp hdata
      rw [List.length_append] at hlen
      have hcount : fuel + tokenCount (b :: blocks) = fuel + tokenCount blocks + b.toks.length := by
        simp only [tokenCount, List.flatMap_cons, List.length_append]
        omega
      obtain ⟨u, hu, huw, hufull, husrc⟩ := @xcaLoop_full _ _ _ len
          ((blocks.flatMap (Block.layout · false) ++ rest).length) _ _ _ (fuel + tokenCount blocks)
          hw hfull hdata₁ (by omega) (by rw [List.length_append]; omega) hfit.1
          (hfills b List.mem_cons_self)
      obtain ⟨v, hv, hvw, hvfull, hvdata, hvlen⟩ := ih huw hufull (by rw [husrc]; exact hdata₂)
        (by rw [husrc]; omega) (by rw [expandFrom_length]; exact hfit.2)
        (fun b hb => hfills b (List.mem_cons_of_mem _ hb))
      rw [List.flatMap_cons, expandFrom_append]
      exact ⟨v, by rw [hcount, hu, hv], hvw, hvfull, hvdata, hvlen⟩

/-- A word holds 16 bits, and every token takes one at least: the input bounds the tokens. -/
theorem length_le_tokensLayout {tab : Table} {S : ℕ → Bool} (toks : List Token) {p : ℕ} (t : ℕ)
    (hcoded : ∀ tok ∈ toks, 0 < tab.len (symbolOf tok)) (hfit : AllAt TokenFits p toks) :
    t + toks.length + 16 ≤ 16 * wordsAt t + 8 * (tokensLayout tab S t toks).length := by
  have hgrow : ∀ t n, n ≤ 15 →
      16 * wordsAt (t + n) ≤ 16 * wordsAt t + 8 * (refillBytes S t n).length := by
    intro t n hn
    rw [refillBytes]
    split_ifs with h
    · rw [wordBytes_length]
      unfold wordsAt
      omega
    · simp only [List.length_nil]
      omega
  suffices hwidth : ∀ p, AllAt TokenFits p toks → toks.length ≤ bitCount tab toks ∧
      16 * wordsAt (t + bitCount tab toks) ≤
        16 * wordsAt t + 8 * (tokensLayout tab S t toks).length by
    obtain ⟨h₁, h₂⟩ := hwidth p hfit
    have := add_extraAt (t + bitCount tab toks)
    omega
  clear hfit
  intro p hfit
  induction toks generalizing t p with
  | nil => exact ⟨le_rfl, Nat.le_add_right _ _⟩
  | cons tok toks ih =>
      obtain ⟨ih₁, ih₂⟩ := ih (t + tab.width tok) (fun x hx => hcoded x (List.mem_cons_of_mem _ hx))
        _ hfit.2
      have hpos := hcoded tok List.mem_cons_self
      have h₁ := hgrow t _ (tab.len_le (symbolOf tok))
      have h₂ := hgrow (t + tab.len (symbolOf tok)) _ (offsetBits_le hfit.1)
      simp only [tokensLayout, tokenLayout, List.length_append, bitCount_cons, List.length_cons,
        Table.width, ← Nat.add_assoc] at *
      omega

/-- A block has a bit at least for each token, -/
theorem Block.length_le_layout (b : Block) (final : Bool) {p : ℕ} (hfit : AllAt TokenFits p b.toks) :
    b.toks.length ≤ 8 * (b.layout final).length := by
  have hle := length_le_tokensLayout (S := b.stream final) b.toks 0 b.coded hfit
  have hwords : wordsAt 0 = 2 := rfl
  simp only [Block.layout, List.length_append, Table.bytes_length]
  omega

/-- and so has a sequence of blocks. -/
theorem tokenCount_le (blocks : List Block) {p : ℕ}
    (hfit : AllAt TokenFits p (blocks.flatMap Block.toks)) :
    tokenCount blocks ≤ 8 * (blocks.flatMap (Block.layout · false)).length := by
  induction blocks generalizing p with
  | nil => exact Nat.zero_le _
  | cons b blocks ih =>
      rw [List.flatMap_cons, allAt_append] at hfit
      have hblock := b.length_le_layout false hfit.1
      have hrest := ih hfit.2
      simp only [tokenCount, List.flatMap_cons, List.length_append] at *
      omega

/-- Decompression undoes the encoding of a token sequence: the length of the expansion is returned,
and the buffer is filled with exactly the expansion. -/
def Undoes (xca : HuffmanAlphabet) (e : Encoding) (data : Mem) (buf : ℕ) (m : Mem) : Prop :=
  ∃ u, xcaDecompress xca data (encode e).length (some buf) m =
      some (((expandAll e.tokens).length : ℤ), u) ∧ u.mem = m.store buf (expandAll e.tokens)

section Stream

variable {xca : HuffmanAlphabet} {e : Encoding} {data : Mem} {buf : ℕ} {m : Mem}

/-- The last block is reached with the full blocks decoded, and with fuel left for its tokens. -/
theorem xcaDecompress_last (hdata : data.bytes 0 (encode e).length = encode e) :
    ∃ u fuel, xcaDecompress xca data (encode e).length (some buf) m =
        xcaLoop data (encode e).length (fuel + e.last.toks.length + 1) u ∧
      Written buf m (expandAll (e.full.flatMap Block.toks)) u ∧
      u.outLenThreshold ≤ (expandAll (e.full.flatMap Block.toks)).length ∧
      data.bytes u.src (e.last.layout true).length = e.last.layout true ∧
      u.src + (e.last.layout true).length = (encode e).length ∧
      AllAt TokenFits (expandAll (e.full.flatMap Block.toks)).length e.last.toks := by
  obtain ⟨hfull, hlast⟩ := allAt_append.mp e.fit
  have hcount := tokenCount_le e.full hfull
  have hcount' := e.last.length_le_layout true hlast
  have hsum : (encode e).length =
      (e.full.flatMap (Block.layout · false)).length + (e.last.layout true).length := by
    rw [encode, List.length_append]
  obtain ⟨u, hu, huw, hufull, hudata, hulen⟩ := @xcaLoop_blocks data buf ((encode e).length) m
      e.full [] (e.last.layout true) ⟨0, some buf, m, 0, 0, xca, 0, 0, []⟩
      (16 * (encode e).length + 32 - tokenCount e.full) ⟨rfl, by simp, rfl⟩ le_rfl hdata
      (by rw [Nat.zero_add]; rfl)
      (by simp only [Block.layout, List.length_append, Table.bytes_length]; omega) hfull e.fills
  refine ⟨u, 16 * (encode e).length + 32 - tokenCount e.full - e.last.toks.length - 1, ?_, huw,
    hufull, hudata, hulen, ?_⟩
  · rw [xcaDecompress]
    rw [Nat.sub_add_cancel (by omega)] at hu
    rw [hu]
    congr 1
    omega
  · rw [expandAll, expandFrom_length]
    exact hlast

/-- **Decoding is right where some input is left,** -/
theorem undoes_of_inputLeft (hdata : data.bytes 0 (encode e).length = encode e)
    (hleft : e.InputLeft) : Undoes xca e data buf m := by
  obtain ⟨u, fuel, hu, huw, hufull, hudata, hulen, hfit⟩ :=
    @xcaDecompress_last xca _ _ buf m hdata
  obtain ⟨v, hv, hmem⟩ := xcaLoop_last fuel huw hufull hudata hulen hfit e.last_lt hleft
  rw [Undoes, Encoding.tokens, expandAll, expandFrom_append]
  exact ⟨v, by rw [hu, hv]; rfl, hmem⟩

/-- **and wrong where none is.** -/
theorem not_undoes_of_not_inputLeft (hdata : data.bytes 0 (encode e).length = encode e)
    (hleft : ¬ e.InputLeft) : ¬ Undoes xca e data buf m := by
  obtain ⟨u, fuel, hu, huw, hufull, hudata, hulen, hfit⟩ :=
    @xcaDecompress_last xca _ _ buf m hdata
  obtain ⟨v, j, hv, hj⟩ := xcaLoop_last_short fuel huw hufull hudata hulen hfit e.last_lt hleft
  rintro ⟨w, hw, -⟩
  rw [hu, hv, Encoding.tokens, expandAll, expandFrom_append] at hw
  have hret := congrArg Prod.fst (Option.some.inj hw)
  simp only [expandAll, Nat.cast_inj] at hret hj
  omega

end Stream

/-- **When XCA decompression undoes XCA encoding.** It does iff, in the last block, some of the
input is still unread when each token after the first is reached, and two bytes at least are unread
behind the symbol of each match of three bytes at distance one. Otherwise the tokens that are left
in the accumulator when the input ends are lost.
Source: libnt/xca.c, xca_decompress, `while (src < end)` and `src >= (end - 1)` -/
theorem xcaDecompress_encode_iff (xca : HuffmanAlphabet) (e : Encoding) (data : Mem) (buf : ℕ)
    (m : Mem) (hdata : data.bytes 0 (encode e).length = encode e) :
    Undoes xca e data buf m ↔ e.InputLeft :=
  ⟨fun h => by_contra fun hleft => not_undoes_of_not_inputLeft hdata hleft h,
    undoes_of_inputLeft hdata⟩

/-- The code in which a zero byte and the end marker take one bit each. -/
def oneBitTable : Table where
  lens := ((List.replicate 512 0).set 0 1).set 256 1
  length_eq := by rw [List.length_set, List.length_set, List.length_replicate]
  le := by decide +kernel
  complete := by
    rw [kraft_lenOf]
    decide +kernel
  marker := by decide +kernel

/-- A block of zero bytes. -/
def zeroBlock (n : ℕ) : Block where
  table := oneBitTable
  toks := List.replicate n (.lit 0)
  fill := fun _ => false
  coded := by
    intro tok htok
    rw [(List.mem_replicate.mp htok).2]
    decide +kernel

/-- Two zero bytes: with the end marker they take three bits, all in the first two words. -/
def zeroEncoding : Encoding where
  full := []
  last := zeroBlock 2
  fills := by simp
  last_lt := by decide
  fit := by simp [zeroBlock, AllAt, TokenFits]

/-- The encoding of the zero has no input left. -/
theorem zeroEncoding_not_inputLeft : ¬ zeroEncoding.InputLeft := by
  rintro ⟨-, hleft, -⟩
  exact absurd (hleft (by simp)) (by decide +kernel)

/-- **The last tokens of a stream can be lost.** Of two zero bytes encoded in one bit each, only the
first is decompressed. -/
theorem xcaDecompress_zeroEncoding :
    ¬ ∀ (xca : HuffmanAlphabet) (e : Encoding) (data : Mem) (buf : ℕ) (m : Mem),
      data.bytes 0 (encode e).length = encode e → Undoes xca e data buf m := fun h =>
  not_undoes_of_not_inputLeft (Mem.ofList_bytes _) zeroEncoding_not_inputLeft
    (h clearAlphabet zeroEncoding (Mem.ofList (encode zeroEncoding)) 0 Mem.zero (Mem.ofList_bytes _))

/-- The iff at the two zero bytes. -/
theorem xcaDecompress_encode_iff_zeroEncoding :
    Undoes clearAlphabet zeroEncoding (Mem.ofList (encode zeroEncoding)) 0 Mem.zero ↔
      zeroEncoding.InputLeft :=
  xcaDecompress_encode_iff clearAlphabet zeroEncoding _ 0 Mem.zero (Mem.ofList_bytes _)

end Ntloader.Xca
