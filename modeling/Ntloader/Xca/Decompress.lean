import Ntloader.Huffman.Alphabet
import Ntloader.Lib.Lz77

/-!
# XCA decompression: the model of libnt/xca.c

The input is a memory with `data` at address zero, `len` is where it ends; bytes read past the end
are whatever the memory holds there. The output pointer is `none` for the sizing pass
(`buf == NULL`). Every read of the input and every match is recorded in a trace.

* `consumeBits` — shift bits out of the accumulator and refill it from the input.
* `initBlock`, `decodeSymbol`, `literalSymbol`, `matchSymbol` — the parts of the loop body;
  `xcaStep` — one round; `xcaDecompress` — the whole stream, on fuel.

Scope: `struct xca` is not initialised by the source, so that the alphabet's memory is a parameter;
its `lengths` are written and read within one round only and are a local here. Lengths and pointers
are unbounded.
-/

namespace Ntloader.Xca

open Ntloader.Lib Ntloader.Huffman

/-- Number of XCA codes.
Source: include/xca.h, XCA_CODES -/
@[simp] def xcaCodes : ℕ := 512

/-- XCA source data stream end marker.
Source: include/xca.h, XCA_END_MARKER -/
@[simp] def xcaEndMarker : ℕ := 256

/-- XCA block size.
Source: include/xca.h, XCA_BLOCK_SIZE -/
@[simp] def xcaBlockSize : ℕ := 64 * 1024

/-- Extract Huffman-coded length of a raw symbol from the table at `lengths`.
Source: include/xca.h, xca_huf_len -/
def xcaHufLen (data : Mem) (lengths symbol : ℕ) : ℕ :=
  ((data (lengths + symbol / 2)).toNat >>> (4 * (symbol % 2))) &&& 0x0f

/-- The local variables of `xca_decompress`, with the memory behind its output pointer. -/
structure XcaState where
  /-- Offset within the input. -/
  src : ℕ
  /-- Where the next byte goes, if anywhere. -/
  out : Option ℕ
  /-- The memory the output pointer points into. -/
  mem : Mem
  /-- `out_len` -/
  outLen : ℕ
  /-- `out_len_threshold` -/
  outLenThreshold : ℕ
  /-- `xca.alphabet` -/
  alphabet : HuffmanAlphabet
  /-- `accum`, a 32-bit number. -/
  accum : ℕ
  /-- `extra_bits` -/
  extraBits : ℤ
  /-- The accesses made so far, latest first. -/
  trace : List Access

/-- (Re)initialise decompressor; the return value is that of a failure.
Source: libnt/xca.c, xca_decompress, `if (out_len >= out_len_threshold)` -/
def initBlock (data : Mem) (len : ℕ) (s : XcaState) : Option ℤ × XcaState :=
  let src := s.src + xcaCodes / 2
  if src > len then (some (-1), { s with src := src })
  else
    let trace := .read s.src (xcaCodes / 2) :: s.trace
    match huffmanAlphabet s.alphabet ((List.range xcaCodes).map (xcaHufLen data s.src)) with
    | none => (some (-1), { s with src := src, trace := trace })
    | some alphabet =>
        (none, { s with
          src := src + 4
          alphabet := alphabet
          accum := (data.word src 2 <<< 16) % 2 ^ 32 ||| data.word (src + 2) 2
          extraBits := 16
          outLenThreshold := s.outLen + xcaBlockSize
          trace := .read (src + 2) 2 :: .read src 2 :: trace })

/-- Shift `n` bits out of the accumulator, and refill it if fewer than 16 are left.
Source: libnt/xca.c, xca_decompress, twice: `accum <<= n; extra_bits -= n; if (extra_bits < 0)` -/
def consumeBits (data : Mem) (n : ℕ) (s : XcaState) : XcaState :=
  let accum := (s.accum <<< n) % 2 ^ 32
  let extraBits := s.extraBits - n
  if extraBits < 0 then
    { s with
      src := s.src + 2
      accum := accum ||| (data.word s.src 2 <<< (-extraBits).toNat) % 2 ^ 32
      extraBits := extraBits + 16
      trace := .read s.src 2 :: s.trace }
  else { s with accum := accum, extraBits := extraBits }

/-- Consumed bits leave the output pointer, -/
@[simp] theorem consumeBits_out (data : Mem) (n : ℕ) (s : XcaState) :
    (consumeBits data n s).out = s.out := by
  dsimp only [consumeBits]
  split_ifs <;> rfl

/-- the memory, -/
@[simp] theorem consumeBits_mem (data : Mem) (n : ℕ) (s : XcaState) :
    (consumeBits data n s).mem = s.mem := by
  dsimp only [consumeBits]
  split_ifs <;> rfl

/-- the length of the output, -/
@[simp] theorem consumeBits_outLen (data : Mem) (n : ℕ) (s : XcaState) :
    (consumeBits data n s).outLen = s.outLen := by
  dsimp only [consumeBits]
  split_ifs <;> rfl

/-- its threshold -/
@[simp] theorem consumeBits_outLenThreshold (data : Mem) (n : ℕ) (s : XcaState) :
    (consumeBits data n s).outLenThreshold = s.outLenThreshold := by
  dsimp only [consumeBits]
  split_ifs <;> rfl

/-- and the alphabet. -/
@[simp] theorem consumeBits_alphabet (data : Mem) (n : ℕ) (s : XcaState) :
    (consumeBits data n s).alphabet = s.alphabet := by
  dsimp only [consumeBits]
  split_ifs <;> rfl

/-- Determine symbol.
Source: libnt/xca.c, xca_decompress -/
def decodeSymbol (data : Mem) (s : XcaState) : ℕ × XcaState :=
  let huf := s.accum >>> (32 - huffmanBits)
  let sym := huffmanSym s.alphabet huf
  (huffmanRaw s.alphabet sym huf, consumeBits data (huffmanLen sym) s)

/-- Literal symbol - add to output stream.
Source: libnt/xca.c, xca_decompress -/
def literalSymbol (raw : ℕ) (s : XcaState) : XcaState :=
  { s with
    mem := match s.out with
      | some out => Function.update s.mem out (UInt8.ofNat raw)
      | none => s.mem
    out := s.out.map (· + 1)
    outLen := s.outLen + 1 }

/-- The match length of a symbol, with the extended length that may follow it in the input.
Source: libnt/xca.c, xca_decompress, `match_len` -/
def matchLength (data : Mem) (nibble : ℕ) (s : XcaState) : ℕ × XcaState :=
  if nibble = 0x0f then
    let byte := (data s.src).toNat
    if byte = 0xff then
      (data.word (s.src + 1) 2 + 3,
        { s with src := s.src + 3, trace := .read (s.src + 1) 2 :: .read s.src 1 :: s.trace })
    else (byte + 0x0f + 3, { s with src := s.src + 1, trace := .read s.src 1 :: s.trace })
  else (nibble + 3, s)

/-- The match offset, its low bits at the top of the accumulator.
Source: libnt/xca.c, xca_decompress, `match_offset` -/
def matchOffset (accum offsetBits : ℕ) : ℕ :=
  if offsetBits ≠ 0 then (accum >>> (32 - offsetBits)) + (1 <<< offsetBits) else 1

/-- Copy data.
Source: libnt/xca.c, xca_decompress -/
def copyMatch (offset len : ℕ) (s : XcaState) : XcaState :=
  { s with
    mem := match s.out with
      | some out => copyLoop s.mem out (out - offset) len
      | none => s.mem
    out := s.out.map (· + len)
    outLen := s.outLen + len
    trace := .backref offset s.outLen :: s.trace }

/-- LZ77 match symbol.
Source: libnt/xca.c, xca_decompress, the last branch -/
def matchSymbol (data : Mem) (raw : ℕ) (s : XcaState) : XcaState :=
  let offsetBits := (raw - xcaEndMarker) >>> 4
  let (len, s) := matchLength data ((raw - xcaEndMarker) &&& 0x0f) s
  let offset := matchOffset s.accum offsetBits
  copyMatch offset len (consumeBits data offsetBits s)

/-- Determine and process one symbol. The end marker, unless there is input left for it to be a
match, ends decompression with the value returned.
Source: libnt/xca.c, xca_decompress -/
def processSymbol (data : Mem) (len : ℕ) (s : XcaState) : Option ℤ × XcaState :=
  let (raw, s) := decodeSymbol data s
  if raw < xcaEndMarker then (none, literalSymbol raw s)
  else if raw = xcaEndMarker ∧ s.src + 1 ≥ len then (some s.outLen, s)
  else (none, matchSymbol data raw s)

/-- One round of the loop.
Source: libnt/xca.c, xca_decompress -/
def xcaStep (data : Mem) (len : ℕ) (s : XcaState) : Option ℤ × XcaState :=
  if s.outLen ≥ s.outLenThreshold then
    match initBlock data len s with
    | (some rc, s) => (some rc, s)
    | (none, s) => processSymbol data len s
  else processSymbol data len s

/-- The loop of `xca_decompress`, and what follows it.
Source: libnt/xca.c, xca_decompress -/
def xcaLoop (data : Mem) (len : ℕ) : ℕ → XcaState → Option (ℤ × XcaState)
  | 0, _ => none
  | fuel + 1, s =>
      if s.src < len then
        match xcaStep data len s with
        | (some ret, s) => some (ret, s)
        | (none, s) => xcaLoop data len fuel s
      else if s.src = len then some (s.outLen, s)
      else some (-1, s)

/-- Decompress XCA-compressed data: the return value and the final state. Every round takes a bit
at least, and a word is fetched every 16 bits at most.
Source: libnt/xca.c, xca_decompress -/
def xcaDecompress (xca : HuffmanAlphabet) (data : Mem) (len : ℕ) (buf : Option ℕ) (mem : Mem) :
    Option (ℤ × XcaState) :=
  xcaLoop data len (16 * len + 32) ⟨0, buf, mem, 0, 0, xca, 0, 0, []⟩

end Ntloader.Xca
