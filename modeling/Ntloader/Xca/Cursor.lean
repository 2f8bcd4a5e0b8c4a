import Ntloader.Xca.Progress
import Ntloader.Xca.Symbols
import Ntloader.Lib.Cursor

/-!
# The bit accumulator of XCA decompression is a bit cursor

The decompressor keeps the unread bits at the top of a 32-bit number, and fetches a word when fewer
than 16 of them are left. A reader that keeps the words of the block and a position within them, and
reads bit by bit, decodes the same.

* `Reader` — the variables of `xca_decompress` with a cursor in place of the accumulator, and the
  same loop over it, `readLoop`.
* `Follows` — the accumulator holds the unread bits; `Follows.consume` — a consumption keeps it,
  with or without a refill.
* `DecodePoint` — where a symbol or an offset is decoded; `xcaDecompress_eq_reader` — the decode
  points of a call are those of the reader, and so is what it returns.

Scope: as in `Xca/Decompress`; bytes past the end of the input are whatever the memory holds there,
for the reader as well.
-/

namespace Ntloader.Xca

open Ntloader.Lib Ntloader.Huffman

/-! ## The reader -/

/-- The local variables without `accum` and `extra_bits`. -/
def XcaState.noBits (s : XcaState) : XcaState := { s with accum := 0, extraBits := 0 }

/-- A bit-by-bit reader of a stream. -/
structure Reader where
  /-- The local variables, `accum` and `extraBits` among them being left at zero. -/
  vars : XcaState
  /-- The words that the block has fetched, and the bits read. -/
  cursor : Cursor

namespace Reader

/-- Fetch the word at the input pointer.
Source: include/xca.h, XCA_GET16 -/
def fetch (data : Mem) (r : Reader) : Reader where
  vars := { r.vars with src := r.vars.src + 2, trace := .read r.vars.src 2 :: r.vars.trace }
  cursor := r.cursor.push (data.word r.vars.src 2)

/-- Read `n` bits and pass over them; a word is fetched if fewer than 16 unread bits are left. -/
def consume (data : Mem) (n : ℕ) (r : Reader) : Reader :=
  let r := { r with cursor := (r.cursor.readBits 16 n).2 }
  if r.cursor.unread 16 < 16 then r.fetch data else r

/-- The beginning of a block: a table, and two words. -/
def beginBlock (data : Mem) (len : ℕ) (r : Reader) : Option ℤ × Reader :=
  let src := r.vars.src + xcaCodes / 2
  if src > len then (some (-1), { r with vars := { r.vars with src := src } })
  else
    let trace := .read r.vars.src (xcaCodes / 2) :: r.vars.trace
    match huffmanAlphabet r.vars.alphabet (xcaLengths data r.vars.src) with
    | none => (some (-1), { r with vars := { r.vars with src := src, trace := trace } })
    | some alphabet =>
        let vars := { r.vars with
          src := src
          alphabet := alphabet
          outLenThreshold := r.vars.outLen + xcaBlockSize
          trace := trace }
        (none, fetch data (fetch data ⟨vars, .empty⟩))

/-- The symbol that the next 16 bits begin with, and the number of its bits. -/
def nextSymbol (r : Reader) : ℕ × ℕ :=
  let huf := (r.cursor.readBits 16 huffmanBits).1
  let sym := huffmanSym r.vars.alphabet huf
  (huffmanRaw r.vars.alphabet sym huf, huffmanLen sym)

/-- The match offset of so many bits. -/
def nextOffset (bits : ℕ) (r : Reader) : ℕ :=
  if bits ≠ 0 then (r.cursor.readBits 16 bits).1 + (1 <<< bits) else 1

/-- Read a symbol. -/
def readSymbol (data : Mem) (r : Reader) : ℕ × Reader :=
  (r.nextSymbol.1, r.consume data r.nextSymbol.2)

/-- Read the extended length of a match symbol. -/
def readLength (data : Mem) (raw : ℕ) (r : Reader) : ℕ × Reader :=
  let (len, vars) := matchLength data ((raw - xcaEndMarker) &&& 0x0f) r.vars
  (len, { r with vars := vars })

/-- Read what follows a match symbol, and copy. -/
def readMatch (data : Mem) (raw : ℕ) (r : Reader) : Reader :=
  let (len, r) := r.readLength data raw
  let offset := r.nextOffset (matchOffsetBits raw)
  let r := r.consume data (matchOffsetBits raw)
  { r with vars := copyMatch offset len r.vars }

/-- Read and process a symbol. -/
def processSymbol (data : Mem) (len : ℕ) (r : Reader) : Option ℤ × Reader :=
  let (raw, r) := r.readSymbol data
  if raw < xcaEndMarker then (none, { r with vars := literalSymbol raw r.vars })
  else if raw = xcaEndMarker ∧ r.vars.src + 1 ≥ len then (some r.vars.outLen, r)
  else (none, r.readMatch data raw)

/-- One round. -/
def readStep (data : Mem) (len : ℕ) (r : Reader) : Option ℤ × Reader :=
  if r.vars.outLen ≥ r.vars.outLenThreshold then
    match r.beginBlock data len with
    | (some rc, r) => (some rc, r)
    | (none, r) => r.processSymbol data len
  else r.processSymbol data len

/-- The loop, and what follows it. -/
def readLoop (data : Mem) (len : ℕ) : ℕ → Reader → Option (ℤ × Reader)
  | 0, _ => none
  | fuel + 1, r =>
      if r.vars.src < len then
        match r.readStep data len with
        | (some ret, r) => some (ret, r)
        | (none, r) => readLoop data len fuel r
      else if r.vars.src = len then some (r.vars.outLen, r)
      else some (-1, r)

/-- The readers in front of the rounds of the loop. -/
def readRounds (data : Mem) (len : ℕ) : ℕ → Reader → List Reader
  | 0, _ => []
  | fuel + 1, r =>
      if r.vars.src < len then
        r :: match r.readStep data len with
          | (some _, _) => []
          | (none, r) => readRounds data len fuel r
      else []

/-- The reader in front of the loop. -/
def start (xca : HuffmanAlphabet) (buf : Option ℕ) (mem : Mem) : Reader :=
  ⟨xcaStart xca buf mem, .empty⟩

end Reader

/-- Decompress with the reader.
Source: libnt/xca.c, xca_decompress -/
def readerDecompress (xca : HuffmanAlphabet) (data : Mem) (len : ℕ) (buf : Option ℕ) (mem : Mem) :
    Option (ℤ × Reader) := Reader.readLoop data len (16 * len + 32) (.start xca buf mem)

/-! ## Where it is decoded -/

/-- What is decoded. -/
inductive Decoded where
  | symbol
  | offset
  deriving DecidableEq

/-- A point of a run where a symbol or an offset is about to be decoded. -/
structure DecodePoint (σ : Type) where
  /-- What is decoded. -/
  kind : Decoded
  /-- The state there. -/
  state : σ
  /-- The number of bits of the code, or of the offset. -/
  bits : ℕ
  /-- These bits, as a number. -/
  code : ℕ
  /-- The raw symbol, or the offset. -/
  value : ℕ

/-- The decode points from a symbol on.
Source: libnt/xca.c, xca_decompress -/
def symbolPoints (data : Mem) (len : ℕ) (s : XcaState) : List (DecodePoint XcaState) :=
  let bits := huffmanLen (huffmanSym s.alphabet (s.accum >>> (32 - huffmanBits)))
  let (raw, t) := decodeSymbol data s
  let symbol := ⟨.symbol, s, bits, s.accum >>> (32 - bits), raw⟩
  if raw < xcaEndMarker ∨ raw = xcaEndMarker ∧ t.src + 1 ≥ len then [symbol]
  else
    let (_, u) := matchLength data ((raw - xcaEndMarker) &&& 0x0f) t
    let bits := matchOffsetBits raw
    [symbol, ⟨.offset, u, bits, u.accum >>> (32 - bits), matchOffset u.accum bits⟩]

/-- The decode points of a round.
Source: libnt/xca.c, xca_decompress -/
def roundPoints (data : Mem) (len : ℕ) (s : XcaState) : List (DecodePoint XcaState) :=
  if s.outLen ≥ s.outLenThreshold then
    match initBlock data len s with
    | (some _, _) => []
    | (none, t) => symbolPoints data len t
  else symbolPoints data len s

/-- The decode points of a call.
Source: libnt/xca.c, xca_decompress -/
def xcaPoints (xca : HuffmanAlphabet) (data : Mem) (len : ℕ) (buf : Option ℕ) (mem : Mem) :
    List (DecodePoint XcaState) :=
  (xcaRounds xca data len buf mem).flatMap (roundPoints data len)

namespace Reader

/-- The decode points of the reader from a symbol on. -/
def symbolPoints (data : Mem) (len : ℕ) (r : Reader) : List (DecodePoint Reader) :=
  let bits := r.nextSymbol.2
  let (raw, t) := r.readSymbol data
  let symbol := ⟨.symbol, r, bits, (r.cursor.readBits 16 bits).1, raw⟩
  if raw < xcaEndMarker ∨ raw = xcaEndMarker ∧ t.vars.src + 1 ≥ len then [symbol]
  else
    let (_, u) := t.readLength data raw
    let bits := matchOffsetBits raw
    [symbol, ⟨.offset, u, bits, (u.cursor.readBits 16 bits).1, u.nextOffset bits⟩]

/-- The decode points of a round of the reader. -/
def roundPoints (data : Mem) (len : ℕ) (r : Reader) : List (DecodePoint Reader) :=
  if r.vars.outLen ≥ r.vars.outLenThreshold then
    match r.beginBlock data len with
    | (some _, _) => []
    | (none, r) => r.symbolPoints data len
  else r.symbolPoints data len

end Reader

/-- The decode points of the reader. -/
def readerPoints (xca : HuffmanAlphabet) (data : Mem) (len : ℕ) (buf : Option ℕ) (mem : Mem) :
    List (DecodePoint Reader) :=
  (Reader.readRounds data len (16 * len + 32) (.start xca buf mem)).flatMap
    (Reader.roundPoints data len)

/-! ## The accumulator holds the unread bits -/

/-- The top `16 + extra_bits` bits of the accumulator are the unread bits of the words fetched, and
the bits below them are zero. -/
structure Holds (c : Cursor) (s : XcaState) : Prop where
  extraBits_nonneg : 0 ≤ s.extraBits
  extraBits_le : s.extraBits ≤ 16
  justified : c.Justified 16 s.extraBits.toNat s.accum

/-- The reader is where the decompressor is. -/
structure Follows (s : XcaState) (r : Reader) : Prop extends Holds r.cursor s where
  vars_eq : r.vars = s.noBits

/-- What is taken from the top of the accumulator is what is read bit by bit. -/
theorem Holds.top {c : Cursor} {s : XcaState} (h : Holds c s) {n : ℕ} (hn : n ≤ 16) :
    s.accum >>> (32 - n) = (c.readBits 16 n).1 := by
  rw [Nat.shiftRight_eq_div_pow]
  exact h.justified.top (by omega)

/-- The accumulator holds the unread bits whatever the other variables are. -/
theorem Holds.congr {c : Cursor} {s t : XcaState} (h : Holds c s) (haccum : t.accum = s.accum)
    (hextra : t.extraBits = s.extraBits) : Holds c t := by
  refine ⟨?_, ?_, ?_⟩
  · rw [hextra]
    exact h.extraBits_nonneg
  · rw [hextra]
    exact h.extraBits_le
  · rw [hextra, haccum]
    exact h.justified

/-- **A consumption keeps the unread bits at the top**, whether or not a word is fetched. -/
theorem Follows.consume {s : XcaState} {r : Reader} (h : Follows s r) (data : Mem) {n : ℕ}
    (hn : n ≤ 16) : Follows (consumeBits data n s) (r.consume data n) := by
  have hnonneg := h.extraBits_nonneg
  have hle := h.extraBits_le
  have hunread : ((r.cursor.readBits 16 n).2).unread 16 = 16 + s.extraBits.toNat - n := by
    have heq := h.justified.unread_eq
    rw [Cursor.readBits_eq, Cursor.unread]
    dsimp only
    omega
  rw [consumeBits, Reader.consume]
  dsimp only
  rw [hunread, Nat.shiftLeft_eq]
  by_cases hneg : s.extraBits - n < 0
  · -- the word goes behind the bits that are left, as many places up as bits are owed
    have hshift : (-(s.extraBits - n)).toNat = n - s.extraBits.toNat := by omega
    have hword : data.word s.src 2 < 2 ^ 16 := data.word_lt s.src 2
    have hin : data.word s.src 2 <<< (n - s.extraBits.toNat) % 2 ^ 32 =
        data.word s.src 2 * 2 ^ (n - s.extraBits.toNat) := by
      rw [Nat.shiftLeft_eq]
      refine Nat.mod_eq_of_lt ((Nat.mul_lt_mul_of_pos_right hword (Nat.two_pow_pos _)).trans_le ?_)
      rw [← pow_add]
      exact Nat.pow_le_pow_right (by norm_num) (by omega)
    have hextra : (s.extraBits - n + 16).toNat = s.extraBits.toNat + 16 - n := by omega
    rw [if_pos hneg, if_pos (by omega), hshift, hin]
    refine ⟨⟨by dsimp only; omega, by dsimp only; omega, ?_⟩, ?_⟩
    · dsimp only [Reader.fetch]
      rw [hextra, h.vars_eq]
      exact h.justified.refill (by norm_num) (by omega) hn hword
    · dsimp only [Reader.fetch]
      rw [h.vars_eq]
      rfl
  · have hextra : (s.extraBits - n).toNat = s.extraBits.toNat - n := by omega
    rw [if_neg hneg, if_neg (by omega)]
    refine ⟨⟨by dsimp only; omega, by dsimp only; omega, ?_⟩, ?_⟩
    · dsimp only
      rw [hextra]
      exact h.justified.advance (by omega)
    · exact h.vars_eq

/-- A block begins with two words. -/
theorem beginBlock_follows {data : Mem} {len : ℕ} {s t : XcaState} {r : Reader}
    (hvars : r.vars = s.noBits) (h : initBlock data len s = (none, t)) :
    ∃ q, r.beginBlock data len = (none, q) ∧ Follows t q := by
  obtain ⟨hlen, b, hb, rfl⟩ := initBlock_none h
  have hsrc : ¬r.vars.src + xcaCodes / 2 > len := by
    rw [hvars]
    exact Nat.not_lt.mpr hlen
  have hb' : huffmanAlphabet r.vars.alphabet (xcaLengths data r.vars.src) = some b := by
    rw [hvars]
    exact hb
  have hfirst : data.word (s.src + 256) 2 < 2 ^ 16 := data.word_lt _ 2
  have hsecond : data.word (s.src + 256 + 2) 2 < 2 ^ 16 := data.word_lt _ 2
  have haccum : data.word (s.src + 256) 2 <<< 16 % 2 ^ 32 = data.word (s.src + 256) 2 * 2 ^ 16 := by
    rw [Nat.shiftLeft_eq, Nat.mod_eq_of_lt (by omega)]
  rw [Reader.beginBlock, if_neg hsrc]
  dsimp only
  rw [hb']
  refine ⟨_, rfl, ⟨⟨by dsimp only; omega, by dsimp only; omega, ?_⟩, ?_⟩⟩
  · dsimp only [Reader.fetch]
    rw [haccum, hvars]
    exact Cursor.justified_two (by norm_num) hfirst hsecond
  · dsimp only [Reader.fetch]
    rw [hvars]
    rfl

/-- A block that does not begin. -/
theorem beginBlock_some {data : Mem} {len : ℕ} {rc : ℤ} {s t : XcaState} {r : Reader}
    (hvars : r.vars = s.noBits) (h : initBlock data len s = (some rc, t)) :
    ∃ q, r.beginBlock data len = (some rc, q) ∧ q.vars = t.noBits := by
  unfold initBlock at h
  unfold Reader.beginBlock
  rw [hvars]
  dsimp only [XcaState.noBits] at h ⊢
  by_cases hlen : s.src + xcaCodes / 2 > len
  · rw [if_pos hlen] at h ⊢
    cases h
    exact ⟨_, rfl, rfl⟩
  · rw [if_neg hlen] at h ⊢
    cases hb : huffmanAlphabet s.alphabet (xcaLengths data s.src) with
    | none =>
        rw [xcaLengths] at hb
        rw [hb] at h
        cases h
        exact ⟨_, rfl, rfl⟩
    | some b =>
        rw [xcaLengths] at hb
        rw [hb] at h
        cases h

/-! ## The parts of a round -/

/-- The symbol that is read. -/
theorem Follows.nextSymbol {s : XcaState} {r : Reader} (h : Follows s r) :
    r.nextSymbol =
      (huffmanRaw s.alphabet (huffmanSym s.alphabet (s.accum >>> (32 - huffmanBits)))
          (s.accum >>> (32 - huffmanBits)),
        huffmanLen (huffmanSym s.alphabet (s.accum >>> (32 - huffmanBits)))) := by
  have htop : s.accum >>> (32 - huffmanBits) = (r.cursor.readBits 16 huffmanBits).1 :=
    h.top le_rfl
  rw [Reader.nextSymbol, htop, h.vars_eq]
  rfl

/-- The offset that is read. -/
theorem Follows.nextOffset {s : XcaState} {r : Reader} (h : Follows s r) {bits : ℕ}
    (hbits : bits ≤ 16) : r.nextOffset bits = matchOffset s.accum bits := by
  rw [Reader.nextOffset, matchOffset, h.top hbits]

/-- The reader follows over a symbol. -/
theorem Follows.readSymbol {s : XcaState} {r : Reader} (h : Follows s r) (data : Mem)
    (hlen : huffmanLen (huffmanSym s.alphabet (s.accum >>> (32 - huffmanBits))) ≤ 16) :
    (r.readSymbol data).1 = (decodeSymbol data s).1 ∧
      Follows (decodeSymbol data s).2 (r.readSymbol data).2 := by
  rw [Reader.readSymbol, h.nextSymbol]
  exact ⟨rfl, h.consume data hlen⟩

/-- An extended length is taken from the input pointer, not from the accumulator. -/
theorem matchLength_noBits (data : Mem) (nibble : ℕ) (s : XcaState) :
    matchLength data nibble s.noBits =
      ((matchLength data nibble s).1, (matchLength data nibble s).2.noBits) := by
  unfold matchLength XcaState.noBits
  dsimp only
  split_ifs
  · rfl
  · rfl
  · rfl

/-- The reader follows over an extended length. -/
theorem Follows.readLength {s : XcaState} {r : Reader} (h : Follows s r) (data : Mem) (raw : ℕ) :
    (r.readLength data raw).1 = (matchLength data ((raw - xcaEndMarker) &&& 0x0f) s).1 ∧
      Follows (matchLength data ((raw - xcaEndMarker) &&& 0x0f) s).2 (r.readLength data raw).2 := by
  obtain ⟨-, hfields⟩ := matchLength_src data ((raw - xcaEndMarker) &&& 0x0f) s
  rw [Reader.readLength, h.vars_eq, matchLength_noBits]
  refine ⟨rfl, ⟨?_, rfl⟩⟩
  rw [hfields]
  exact h.toHolds.congr rfl rfl

/-- The reader follows over a match. -/
theorem Follows.readMatch {s : XcaState} {r : Reader} (h : Follows s r) (data : Mem) {raw : ℕ}
    (hraw : raw < xcaCodes) : Follows (matchSymbol data raw s) (r.readMatch data raw) := by
  have hbits : matchOffsetBits raw ≤ 16 := (matchOffsetBits_le hraw).trans (by norm_num)
  obtain ⟨hlen, hu⟩ := h.readLength data raw
  have hconsume := hu.consume data hbits
  have hoffset := hu.nextOffset hbits
  rw [Reader.readMatch, matchSymbol]
  generalize r.readLength data raw = x at hlen hu hconsume hoffset
  generalize matchLength data ((raw - xcaEndMarker) &&& 0x0f) s = y at hlen hu hconsume hoffset
  obtain ⟨len, q⟩ := x
  obtain ⟨len', u⟩ := y
  dsimp only at hlen hconsume hoffset ⊢
  rw [hlen, hoffset, hconsume.vars_eq]
  exact ⟨hconsume.toHolds.congr rfl rfl, rfl⟩

/-! ## The decode points -/

/-- Two decode points agree: the accumulator holds the unread bits there, and what is decoded is what
the reader decodes. -/
structure Agree (p : DecodePoint XcaState) (q : DecodePoint Reader) : Prop where
  kind_eq : p.kind = q.kind
  bits_eq : p.bits = q.bits
  bits_le : p.bits ≤ 16
  offset_le : p.kind = .offset → p.bits ≤ 15
  follows : Follows p.state q.state
  code_eq : p.code = q.code
  value_eq : p.value = q.value

/-- The length and the symbol that the alphabet of a table gives for the top of the accumulator. -/
theorem tabled_bounds {codes : ℤ → ℕ} {s : XcaState} (hs : s.InRange) (ht : Tabled codes s.alphabet)
    (hcodes : ∀ i, -2 ≤ i → i < 0 → codes i < xcaCodes) :
    huffmanLen (huffmanSym s.alphabet (s.accum >>> (32 - huffmanBits))) ≤ 16 ∧
      ∀ data, (decodeSymbol data s).1 < xcaCodes := by
  refine ⟨?_, fun data => (decodeSymbol_spec data hs ht hcodes).1⟩
  obtain ⟨a, table, src, hb, -⟩ := ht
  have hn : (xcaLengths table src).length < 2 ^ 16 := by
    rw [xcaLengths_length]
    norm_num
  exact (huffmanLen_le hn (xcaLengths_le table src) hb hs.huf_lt).2

/-- The decode points of a round agree, from the symbol on. -/
theorem symbolPoints_agree {data : Mem} {len : ℕ} {codes : ℤ → ℕ} {s : XcaState} {r : Reader}
    (hs : s.InRange) (ht : Tabled codes s.alphabet)
    (hcodes : ∀ i, -2 ≤ i → i < 0 → codes i < xcaCodes) (h : Follows s r) :
    List.Forall₂ Agree (symbolPoints data len s) (r.symbolPoints data len) := by
  obtain ⟨hlen, hraw⟩ := tabled_bounds hs ht hcodes
  replace hraw := hraw data
  obtain ⟨hsymbol, ht'⟩ := h.readSymbol data hlen
  have hbits := matchOffsetBits_le hraw
  obtain ⟨-, hu⟩ := ht'.readLength data (decodeSymbol data s).1
  have hsrc : (r.readSymbol data).2.vars.src = (decodeSymbol data s).2.src := by
    rw [ht'.vars_eq]
    rfl
  have hagree : Agree
      ⟨.symbol, s, huffmanLen (huffmanSym s.alphabet (s.accum >>> (32 - huffmanBits))),
        s.accum >>> (32 - huffmanLen (huffmanSym s.alphabet (s.accum >>> (32 - huffmanBits)))),
        (decodeSymbol data s).1⟩
      ⟨.symbol, r, r.nextSymbol.2, (r.cursor.readBits 16 r.nextSymbol.2).1,
        (decodeSymbol data s).1⟩ := by
    rw [h.nextSymbol]
    exact ⟨rfl, rfl, hlen, nofun, h, h.top hlen, rfl⟩
  rw [symbolPoints, Reader.symbolPoints]
  dsimp only
  rw [hsrc, hsymbol]
  by_cases hend : (decodeSymbol data s).1 < xcaEndMarker ∨
      (decodeSymbol data s).1 = xcaEndMarker ∧ (decodeSymbol data s).2.src + 1 ≥ len
  · rw [if_pos hend, if_pos hend]
    exact .cons hagree .nil
  · rw [if_neg hend, if_neg hend]
    refine .cons hagree (.cons ?_ .nil)
    have hbits16 := hbits.trans (show 15 ≤ 16 by norm_num)
    exact ⟨rfl, rfl, hbits16, fun _ => hbits, hu, hu.top hbits16, (hu.nextOffset hbits16).symm⟩

/-- The reader ends a round as the decompressor does. -/
structure Ends (x : Option ℤ × XcaState) (y : Option ℤ × Reader) : Prop where
  ret_eq : y.1 = x.1
  vars_eq : y.2.vars = x.2.noBits
  holds : x.1 = none → Holds y.2.cursor x.2

/-- The reader follows over a symbol and what belongs to it. -/
theorem Follows.processSymbol {data : Mem} {len : ℕ} {codes : ℤ → ℕ} {s : XcaState} {r : Reader}
    (h : Follows s r) (hs : s.InRange) (ht : Tabled codes s.alphabet)
    (hcodes : ∀ i, -2 ≤ i → i < 0 → codes i < xcaCodes) :
    Ends (processSymbol data len s) (r.processSymbol data len) := by
  obtain ⟨hlen, hraw⟩ := tabled_bounds hs ht hcodes
  replace hraw := hraw data
  obtain ⟨hsymbol, ht'⟩ := h.readSymbol data hlen
  rw [Xca.processSymbol, Reader.processSymbol]
  generalize r.readSymbol data = x at hsymbol ht'
  generalize decodeSymbol data s = y at hsymbol ht' hraw
  obtain ⟨raw, q⟩ := x
  obtain ⟨raw', u⟩ := y
  dsimp only at hsymbol ht' hraw ⊢
  subst hsymbol
  have hsrc : q.vars.src = u.src := by
    rw [ht'.vars_eq]
    rfl
  rw [hsrc]
  split_ifs with hlit hend
  · rw [ht'.vars_eq]
    exact ⟨rfl, rfl, fun _ => ht'.toHolds.congr rfl rfl⟩
  · rw [ht'.vars_eq]
    exact ⟨rfl, ht'.vars_eq, nofun⟩
  · have hmatch := ht'.readMatch data hraw
    exact ⟨rfl, hmatch.vars_eq, fun _ => hmatch.toHolds⟩

/-! ## The rounds -/

/-- The reader in front of a round: within a block the accumulator holds the unread bits. -/
structure Between (codes : ℤ → ℕ) (s : XcaState) (r : Reader) : Prop where
  running : s.Running codes
  vars_eq : r.vars = s.noBits
  holds : s.outLen < s.outLenThreshold → Holds r.cursor s

section

variable {data : Mem} {len : ℕ} {codes : ℤ → ℕ} {s : XcaState} {r : Reader}

/-- The reader has read as far as the model, -/
theorem Between.src_eq (h : Between codes s r) : r.vars.src = s.src := by
  rw [h.vars_eq]
  rfl

/-- and has the same length of output. -/
theorem Between.outLen_eq (h : Between codes s r) : r.vars.outLen = s.outLen := by
  rw [h.vars_eq]
  rfl

/-- **One round**: the decode points agree, and so does how the round ends. -/
theorem Between.step (hcodes : ∀ i, -2 ≤ i → i < 0 → codes i < xcaCodes) (h : Between codes s r) :
    List.Forall₂ Agree (roundPoints data len s) (r.roundPoints data len) ∧
      Ends (xcaStep data len s) (r.readStep data len) := by
  have hthreshold : r.vars.outLenThreshold = s.outLenThreshold := by
    rw [h.vars_eq]
    rfl
  rw [roundPoints, Reader.roundPoints, xcaStep, Reader.readStep, h.outLen_eq, hthreshold]
  by_cases hblock : s.outLen ≥ s.outLenThreshold
  · rw [if_pos hblock, if_pos hblock, if_pos hblock, if_pos hblock]
    cases hinit : initBlock data len s with
    | mk ret t =>
        cases ret with
        | some rc =>
            obtain ⟨q, hq, hvars⟩ := beginBlock_some h.vars_eq hinit
            rw [hq]
            exact ⟨.nil, rfl, hvars, nofun⟩
        | none =>
            obtain ⟨q, hq, hfollows⟩ := beginBlock_follows h.vars_eq hinit
            obtain ⟨ht, hlt, -⟩ := initBlock_running h.running hinit
            rw [hq]
            exact ⟨symbolPoints_agree ht.toInRange (ht.tabled hlt) hcodes hfollows,
              hfollows.processSymbol ht.toInRange (ht.tabled hlt) hcodes⟩
  · rw [if_neg hblock, if_neg hblock, if_neg hblock, if_neg hblock]
    have hlt : s.outLen < s.outLenThreshold := Nat.lt_of_not_le hblock
    have hfollows : Follows s r := ⟨h.holds hlt, h.vars_eq⟩
    exact ⟨symbolPoints_agree h.running.toInRange (h.running.tabled hlt) hcodes hfollows,
      hfollows.processSymbol h.running.toInRange (h.running.tabled hlt) hcodes⟩

/-- The reader in front of the next round, if there is one. -/
theorem Between.next (hcodes : ∀ i, -2 ≤ i → i < 0 → codes i < xcaCodes) (h : Between codes s r)
    {ret : Option ℤ} {t : XcaState} (hstep : xcaStep data len s = (ret, t)) :
    ∃ q, r.readStep data len = (ret, q) ∧ q.vars = t.noBits ∧ (ret = none → Between codes t q) := by
  obtain ⟨-, hret, hvars, hholds⟩ := @h.step data len _ _ _ hcodes
  rw [hstep] at hret hvars hholds
  refine ⟨_, Prod.ext hret rfl, hvars, fun hnone => ?_⟩
  subst hnone
  exact ⟨(xcaStep_spec hcodes h.running hstep).1, hvars, fun _ => hholds rfl⟩

/-- The decode points of the rounds that are left agree. -/
theorem loopRounds_agree (hcodes : ∀ i, -2 ≤ i → i < 0 → codes i < xcaCodes) (fuel : ℕ)
    (h : Between codes s r) :
    List.Forall₂ Agree ((loopRounds data len fuel s).flatMap (roundPoints data len))
      ((Reader.readRounds data len fuel r).flatMap (Reader.roundPoints data len)) := by
  induction fuel generalizing s r with
  | zero => exact .nil
  | succ fuel ih =>
      rw [loopRounds, Reader.readRounds, h.src_eq]
      by_cases hlt : s.src < len
      · rw [if_pos hlt, if_pos hlt, List.flatMap_cons, List.flatMap_cons]
        refine List.rel_append (h.step hcodes).1 ?_
        cases hstep : xcaStep data len s with
        | mk ret t =>
            obtain ⟨q, hq, -, hnext⟩ := h.next hcodes hstep
            rw [hq]
            cases ret with
            | some rc => exact .nil
            | none => exact ih (hnext rfl)
      · rw [if_neg hlt, if_neg hlt]
        exact .nil

/-- What is returned is what the reader returns. -/
theorem xcaLoop_eq_readLoop (hcodes : ∀ i, -2 ≤ i → i < 0 → codes i < xcaCodes) (fuel : ℕ)
    (h : Between codes s r) :
    (xcaLoop data len fuel s).map (fun x => (x.1, x.2.noBits)) =
      (Reader.readLoop data len fuel r).map (fun x => (x.1, x.2.vars)) := by
  induction fuel generalizing s r with
  | zero => rfl
  | succ fuel ih =>
      rw [xcaLoop, Reader.readLoop, h.src_eq, h.outLen_eq]
      by_cases hlt : s.src < len
      · rw [if_pos hlt, if_pos hlt]
        cases hstep : xcaStep data len s with
        | mk ret t =>
            obtain ⟨q, hq, hvars, hnext⟩ := h.next hcodes hstep
            rw [hq]
            cases ret with
            | some rc =>
                dsimp only
                rw [Option.map_some, Option.map_some, hvars]
            | none => exact ih (hnext rfl)
      · rw [if_neg hlt, if_neg hlt]
        split_ifs
        · rw [Option.map_some, Option.map_some, h.vars_eq]
        · rw [Option.map_some, Option.map_some, h.vars_eq]

end

/-- **The bit accumulator is a bit cursor.** Whatever the input is, wherever a symbol or an offset is
decoded, the accumulator has the unread bits of the words fetched at its top and nothing below them,
and the code or the offset is what the bit-by-bit reader decodes there; the reader writes the same
output, reads the input at the same places and returns the same value.
Source: libnt/xca.c, xca_decompress -/
theorem xcaDecompress_eq_reader (codes : ℤ → Fin xcaCodes) (a : HuffmanAlphabet) (data : Mem)
    (len : ℕ) (buf : Option ℕ) (mem : Mem) :
    List.Forall₂ Agree (xcaPoints (stackXca (fun i => codes i) a) data len buf mem)
        (readerPoints (stackXca (fun i => codes i) a) data len buf mem) ∧
      (xcaDecompress (stackXca (fun i => codes i) a) data len buf mem).map
          (fun x => (x.1, x.2.noBits)) =
        (readerDecompress (stackXca (fun i => codes i) a) data len buf mem).map
          (fun x => (x.1, x.2.vars)) := by
  have hcodes : ∀ i, -2 ≤ i → i < 0 → (stackXca (fun i => codes i) a).raw i < xcaCodes := by
    intro i _ hi
    rw [stackXca_raw_of_neg _ _ hi]
    exact (codes i).isLt
  have hstart : Between (stackXca (fun i => codes i) a).raw
      (xcaStart (stackXca (fun i => codes i) a) buf mem)
      (.start (stackXca (fun i => codes i) a) buf mem) := ⟨xcaStart_running _ buf mem, rfl, nofun⟩
  exact ⟨loopRounds_agree hcodes _ hstart, xcaLoop_eq_readLoop hcodes _ hstart⟩

end Ntloader.Xca
