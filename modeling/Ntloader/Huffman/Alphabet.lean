import Mathlib.Logic.Function.Basic
import Mathlib.Data.Int.Notation
import Mathlib.Tactic

/-!
# Huffman alphabets: the model of libnt/huffman.c

The alphabet is built in four passes over the code lengths: count the symbols of each length, lay
the lengths out one behind the other (`populate`), file every symbol under its length (`fillSym`)
and bias the raw pointers while the quick lookup table is written (`adjustSym`). The tables are
functions from their index, `raw` pointers are (possibly negative) indices into `alphabet->raw`.

Scope: the only failure of `huffman_alphabet` is `-1`, which is `none` here; the debugging dump
`huffman_dump_alphabet` and its helper `huffman_bin` are left out.
-/

namespace Ntloader.Huffman

/-- Maximum length of a Huffman symbol (in bits).
Source: include/huffman.h, HUFFMAN_BITS -/
@[simp] def huffmanBits : ℕ := 16

/-- Quick lookup length for a Huffman symbol (in bits).
Source: include/huffman.h, HUFFMAN_QL_BITS -/
@[simp] def huffmanQlBits : ℕ := 7

/-- Quick lookup shift.
Source: include/huffman.h, HUFFMAN_QL_SHIFT -/
@[simp] def huffmanQlShift : ℕ := huffmanBits - huffmanQlBits

/-- A Huffman-coded set of symbols of a given length.
Source: include/huffman.h, struct huffman_symbols -/
@[ext] structure HuffmanSymbols where
  /-- Length of Huffman-coded symbols (in bits). -/
  bits : ℕ
  /-- Shift to normalise symbols of this length to `huffmanBits` bits. -/
  shift : ℕ
  /-- Number of Huffman-coded symbols having this length. -/
  freq : ℕ
  /-- First symbol of this length (normalised to `huffmanBits` bits). -/
  start : ℕ
  /-- Raw symbols having this length, as an index into `alphabet->raw`. -/
  raw : ℤ

/-- A Huffman-coded alphabet.
Source: include/huffman.h, struct huffman_alphabet -/
structure HuffmanAlphabet where
  /-- Huffman-coded symbol set for each length. -/
  huf : ℕ → HuffmanSymbols
  /-- Quick lookup table. -/
  lookup : ℕ → ℕ
  /-- Raw symbols, ordered by Huffman-coded symbol length, then by symbol value. -/
  raw : ℤ → ℕ

/-- Write one entry of the symbol table. -/
def HuffmanAlphabet.setSym (a : HuffmanAlphabet) (i : ℕ) (sym : HuffmanSymbols) :
    HuffmanAlphabet :=
  { a with huf := Function.update a.huf i sym }

/-- The entry that is set, -/
@[simp] theorem setSym_huf_self (a : HuffmanAlphabet) (i : ℕ) (sym : HuffmanSymbols) :
    (a.setSym i sym).huf i = sym := by simp [HuffmanAlphabet.setSym]

/-- and any other. -/
theorem setSym_huf_of_ne (a : HuffmanAlphabet) {i j : ℕ} (h : j ≠ i) (sym : HuffmanSymbols) :
    (a.setSym i sym).huf j = a.huf j := by simp [HuffmanAlphabet.setSym, h]

/-- The quick lookup is left, -/
@[simp] theorem setSym_lookup (a : HuffmanAlphabet) (i : ℕ) (sym : HuffmanSymbols) :
    (a.setSym i sym).lookup = a.lookup := rfl

/-- and so are the raw symbols. -/
@[simp] theorem setSym_raw (a : HuffmanAlphabet) (i : ℕ) (sym : HuffmanSymbols) :
    (a.setSym i sym).raw = a.raw := rfl

/-- Count one symbol under its length; `true` marks an alphabet that is still empty.
Source: libnt/huffman.c, huffman_alphabet, first loop -/
def countSym (s : HuffmanAlphabet × Bool) (bits : ℕ) : HuffmanAlphabet × Bool :=
  if bits ≠ 0 then
    let sym := s.1.huf (bits - 1)
    (s.1.setSym (bits - 1) { sym with freq := (sym.freq + 1) % 2 ^ 16 }, false)
  else s

/-- Clear the symbol table and count the symbols of each length.
Source: libnt/huffman.c, huffman_alphabet, memset and first loop -/
def countSyms (a : HuffmanAlphabet) (lengths : List ℕ) : HuffmanAlphabet × Bool :=
  lengths.foldl countSym ({ a with huf := fun _ => ⟨0, 0, 0, 0, 0⟩ }, true)

/-- In the degenerate case of having no symbols, a trivial alphabet with two single-bit codes.
Source: libnt/huffman.c, huffman_alphabet, `if (empty)` -/
def trivialIfEmpty (s : HuffmanAlphabet × Bool) : HuffmanAlphabet :=
  if s.2 then s.1.setSym 0 { s.1.huf 0 with freq := 2 } else s.1

/-- Populate the symbol table for the lengths listed, carrying `huf` and `cum_freq`; `none` when
there are too many symbols. `huf` stays below `2 ^ 18`, so that no shift overflows.
Source: libnt/huffman.c, huffman_alphabet, second loop -/
def populate : List ℕ → HuffmanAlphabet → ℕ → ℕ → Option (HuffmanAlphabet × ℕ)
  | [], a, huf, _ => some (a, huf)
  | bits :: rest, a, huf, cumFreq =>
      let freq := (a.huf (bits - 1)).freq
      let shift := huffmanBits - bits
      let sym : HuffmanSymbols := ⟨bits, shift, freq, huf <<< shift, cumFreq⟩
      if huf + freq > 2 ^ bits then none
      else populate rest (a.setSym (bits - 1) sym) ((huf + freq) <<< 1) (cumFreq + freq)

/-- File one symbol under its length: `*(sym->raw++) = raw`.
Source: libnt/huffman.c, huffman_alphabet, third loop -/
def fillSym (a : HuffmanAlphabet) (p : ℕ × ℕ) : HuffmanAlphabet :=
  if p.1 ≠ 0 then
    let sym := a.huf (p.1 - 1)
    { (a.setSym (p.1 - 1) { sym with raw := sym.raw + 1 }) with
      raw := Function.update a.raw sym.raw (p.2 % 2 ^ 16) }
  else a

/-- Populate the quick lookup table from the prefix of a length's first symbol on.
Source: libnt/huffman.c, huffman_alphabet, inner loop of the fourth loop -/
def fillLookup (lookup : ℕ → ℕ) (start bits : ℕ) : ℕ → ℕ :=
  (List.range' (start >>> huffmanQlShift) (2 ^ huffmanQlBits - start >>> huffmanQlShift)).foldl
    (fun l p => Function.update l p (bits - 1)) lookup

/-- Adjust the raw pointer of one length and populate the quick lookup table.
Source: libnt/huffman.c, huffman_alphabet, fourth loop -/
def adjustSym (a : HuffmanAlphabet) (bits : ℕ) : HuffmanAlphabet :=
  let sym := a.huf (bits - 1)
  let reset : ℤ := sym.raw - sym.freq
  let adjustment : ℤ := (sym.start >>> sym.shift : ℕ)
  { (a.setSym (bits - 1) { sym with raw := reset - adjustment }) with
    lookup := fillLookup a.lookup sym.start bits }

/-- Construct the Huffman alphabet of a table of code lengths, in the memory of `a`.
Source: libnt/huffman.c, huffman_alphabet -/
def huffmanAlphabet (a : HuffmanAlphabet) (lengths : List ℕ) : Option HuffmanAlphabet :=
  match populate (List.range' 1 huffmanBits) (trivialIfEmpty (countSyms a lengths)) 0 0 with
  | none => none
  | some (a, huf) =>
      let a := lengths.zipIdx.foldl fillSym a
      let a := (List.range' 1 huffmanBits).foldl adjustSym a
      if huf = 2 ^ (huffmanBits + 1) then some a else none

/-- The downward search of `huffman_sym`: `while (huf < sym->start) sym--`. The first entry starts
at zero, so that the walk ends there at the latest.
Source: libnt/huffman.c, huffman_sym -/
def huffmanSearch (a : HuffmanAlphabet) (huf : ℕ) : ℕ → ℕ
  | 0 => 0
  | i + 1 => if huf < (a.huf (i + 1)).start then huffmanSearch a huf i else i + 1

/-- Get the Huffman symbol set for a bit stream position.
Source: libnt/huffman.c, huffman_sym -/
def huffmanSym (a : HuffmanAlphabet) (huf : ℕ) : HuffmanSymbols :=
  a.huf (huffmanSearch a huf (a.lookup (huf >>> huffmanQlShift)))

/-- Get the Huffman symbol length.
Source: include/huffman.h, huffman_len -/
def huffmanLen (sym : HuffmanSymbols) : ℕ := sym.bits

/-- The element of `alphabet->raw` that `huffman_raw` reads. -/
def huffmanRawIndex (sym : HuffmanSymbols) (huf : ℕ) : ℤ := sym.raw + (huf >>> sym.shift : ℕ)

/-- Get the Huffman symbol value.
Source: include/huffman.h, huffman_raw -/
def huffmanRaw (a : HuffmanAlphabet) (sym : HuffmanSymbols) (huf : ℕ) : ℕ :=
  a.raw (huffmanRawIndex sym huf)

end Ntloader.Huffman
