import Ntloader.Huffman.Decode
import Ntloader.Lib.Lz77

/-!
# The XCA stream format

What an XCA encoder writes, in the order in which a decoder that keeps 16 to 32 bits in its
accumulator takes it from the input.

* `symbolOf`, `offsetCode`, `extraLength` — a token is a symbol, the low bits of its distance, and
  bytes for a length that does not fit the symbol.
* `Table`, `Block`, `Encoding` — a complete code for each block of 64 KiB of output, and the tokens
  of the blocks; the structures carry what makes them valid.
* `wordsAt` — how many 16-bit words of a block have been fetched once `t` of its bits are consumed;
  `refillBytes` — the word that a consumption fetches, if any.
* `encode` — the stream.

Scope: an extended length takes the shortest form that holds it. The bits behind the last code of a
block are arbitrary.
-/

namespace Ntloader.Xca

open Ntloader.Lib Ntloader.Huffman

/-! ## Tokens -/

/-- A token that can be written behind `p` bytes of output. -/
def TokenFits (p : ℕ) : Token → Prop
  | .lit _ => True
  | .backref dist len => 1 ≤ dist ∧ dist ≤ p ∧ dist ≤ 65535 ∧ 3 ≤ len ∧ len ≤ 65538

/-- The number of distance bits that follow a token's symbol. -/
def offsetBits : Token → ℕ
  | .lit _ => 0
  | .backref dist _ => Nat.log 2 dist

/-- The symbol of a token. -/
def symbolOf : Token → Fin 512
  | .lit b => Fin.ofNat 512 b.toNat
  | .backref dist len => Fin.ofNat 512 (256 + 16 * Nat.log 2 dist + min (len - 3) 15)

/-- The distance bits that follow a token's symbol. -/
def offsetCode : Token → List Bool
  | .lit _ => []
  | .backref dist _ => natBits (Nat.log 2 dist) dist

/-- The bytes of a length that does not fit its symbol. -/
def extraLength : Token → List UInt8
  | .lit _ => []
  | .backref _ len =>
      if len - 3 < 15 then []
      else if len - 3 < 15 + 255 then [UInt8.ofNat (len - 3 - 15)]
      else 0xff :: leBytes 2 (len - 3)

/-- The code of an offset has the offset's number of bits. -/
@[simp] theorem offsetCode_length (tok : Token) : (offsetCode tok).length = offsetBits tok := by
  cases tok <;> simp [offsetCode, offsetBits]

/-- The symbol of a literal is its byte. -/
theorem symbolOf_lit (b : UInt8) : (symbolOf (.lit b)).val = b.toNat := by
  have := b.toNat_lt
  simp only [symbolOf, Fin.ofNat]
  omega

/-- A token that fits gives output. -/
theorem TokenFits.size_pos {p : ℕ} {tok : Token} (h : TokenFits p tok) : 0 < tok.size := by
  cases tok with
  | lit b => exact Nat.one_pos
  | backref dist len =>
      obtain ⟨-, -, -, h3, -⟩ := h
      exact Nat.lt_of_lt_of_le (by omega) h3

/-- An offset has 15 bits at most. -/
theorem offsetBits_le {p : ℕ} {tok : Token} (h : TokenFits p tok) : offsetBits tok ≤ 15 := by
  cases tok with
  | lit b => exact Nat.zero_le _
  | backref dist len =>
      obtain ⟨-, -, h, -⟩ := h
      exact Nat.lt_succ_iff.mp (Nat.log_lt_of_lt_pow' (by omega) (by omega))

/-- The symbol of a reference has its lengths of offset and of match. -/
theorem symbolOf_backref {p dist len : ℕ} (h : TokenFits p (.backref dist len)) :
    (symbolOf (.backref dist len)).val = 256 + 16 * Nat.log 2 dist + min (len - 3) 15 := by
  have hlog : Nat.log 2 dist ≤ 15 := offsetBits_le h
  simp only [symbolOf, Fin.ofNat]
  omega

/-! ## Tables -/

/-- A table of code lengths. -/
structure Table where
  /-- The lengths, one for each symbol. -/
  lens : List ℕ
  /-- One for each symbol. -/
  length_eq : lens.length = 512
  /-- A length is a nibble. -/
  le : ∀ l ∈ lens, l ≤ 15
  /-- The code is complete. -/
  complete : Canonical.kraft (lenOf lens) 16 = 2 ^ 16
  /-- The end marker is coded. -/
  marker : lens.getD 256 0 ≠ 0

namespace Table

/-- A symbol of the table. -/
def sym (tab : Table) (v : Fin 512) : Fin tab.lens.length := Fin.cast tab.length_eq.symm v

/-- The code length of a symbol. -/
def len (tab : Table) (v : Fin 512) : ℕ := lenOf tab.lens (tab.sym v)

/-- The codeword of a symbol. -/
def code (tab : Table) (v : Fin 512) : List Bool :=
  Canonical.codeword (lenOf tab.lens) 16 (tab.sym v)

/-- The bytes of a table: two lengths in each. -/
def bytes (tab : Table) : List UInt8 :=
  (List.range 256).map fun i =>
    UInt8.ofNat (tab.lens.getD (2 * i) 0 + 16 * tab.lens.getD (2 * i + 1) 0)

/-- A code has the length in the table. -/
@[simp] theorem code_length (tab : Table) (v : Fin 512) : (tab.code v).length = tab.len v :=
  Canonical.codeword_length _ _ _

/-- A table takes 256 bytes. -/
@[simp] theorem bytes_length (tab : Table) : tab.bytes.length = 256 := by simp [bytes]

/-- A length is 15 at most. -/
theorem len_le (tab : Table) (v : Fin 512) : tab.len v ≤ 15 := tab.le _ (List.getElem_mem _)

/-- The end marker has a code. -/
theorem len_marker (tab : Table) : 0 < tab.len 256 := by
  have hlt : 256 < tab.lens.length := by
    rw [tab.length_eq]
    omega
  have hmarker := tab.marker
  rw [List.getD_eq_getElem _ _ hlt] at hmarker
  exact Nat.pos_of_ne_zero hmarker

/-- The table has a code. -/
theorem used (tab : Table) : Used tab.lens :=
  ⟨tab.len 256, List.getElem_mem _, (Nat.pos_iff_ne_zero.mp tab.len_marker)⟩

/-- The bits of a token. -/
def tokenBits (tab : Table) (tok : Token) : List Bool := tab.code (symbolOf tok) ++ offsetCode tok

/-- The number of bits of a token. -/
def width (tab : Table) (tok : Token) : ℕ := tab.len (symbolOf tok) + offsetBits tok

/-- A token has its width in bits. -/
@[simp] theorem tokenBits_length (tab : Table) (tok : Token) :
    (tab.tokenBits tok).length = tab.width tok := by
  simp [tokenBits, width]

end Table

/-! ## Words -/

/-- The number of words fetched once `t` bits of the block are consumed: two to begin with, then as
many as it takes to have 16 bits left. -/
def wordsAt (t : ℕ) : ℕ := max 2 (1 + (t + 15) / 16)

/-- The bytes of word `i` of a bit stream. -/
def wordBytes (S : ℕ → Bool) (i : ℕ) : List UInt8 := leBytes 2 (peek S (16 * i) 16)

/-- The word fetched when `n` bits are consumed behind `t`, if there is one. -/
def refillBytes (S : ℕ → Bool) (t n : ℕ) : List UInt8 :=
  if wordsAt t < wordsAt (t + n) then wordBytes S (wordsAt t) else []

/-- A word has two bytes. -/
@[simp] theorem wordBytes_length (S : ℕ → Bool) (i : ℕ) : (wordBytes S i).length = 2 :=
  leBytes_length _ _

/-- What one token takes from the input, behind `t` bits: the word its symbol fetches, its extended
length, and the word its distance bits fetch. -/
def tokenLayout (tab : Table) (S : ℕ → Bool) (t : ℕ) (tok : Token) : List UInt8 :=
  refillBytes S t (tab.len (symbolOf tok)) ++
    (extraLength tok ++ refillBytes S (t + tab.len (symbolOf tok)) (offsetBits tok))

/-- What a token sequence takes from the input, behind `t` bits. -/
def tokensLayout (tab : Table) (S : ℕ → Bool) : ℕ → List Token → List UInt8
  | _, [] => []
  | t, tok :: toks => tokenLayout tab S t tok ++ tokensLayout tab S (t + tab.width tok) toks

/-- The number of bits of a token sequence. -/
def bitCount (tab : Table) (toks : List Token) : ℕ := (toks.map tab.width).sum

/-- Equation lemma: no tokens. -/
@[simp] theorem bitCount_nil (tab : Table) : bitCount tab [] = 0 := rfl

/-- Equation lemma: the first token and the others. -/
@[simp] theorem bitCount_cons (tab : Table) (tok : Token) (toks : List Token) :
    bitCount tab (tok :: toks) = tab.width tok + bitCount tab toks := by simp [bitCount]

/-! ## Blocks -/

/-- A block of output: its table, its tokens, and the bits behind the last of them. -/
structure Block where
  /-- The table. -/
  table : Table
  /-- The tokens. -/
  toks : List Token
  /-- Bits that nothing is encoded in. -/
  fill : ℕ → Bool
  /-- Every token's symbol is coded. -/
  coded : ∀ tok ∈ toks, 0 < table.len (symbolOf tok)

namespace Block

/-- The bits of a block, the end marker behind the tokens of the last one. -/
def bits (b : Block) (final : Bool) : List Bool :=
  b.toks.flatMap b.table.tokenBits ++ if final then b.table.code 256 else []

/-- The bit stream of a block. -/
def stream (b : Block) (final : Bool) : ℕ → Bool := bitStream (b.bits final) b.fill

/-- The word that the end marker fetches, if there is one. -/
def markerLayout (b : Block) (final : Bool) : List UInt8 :=
  if final then refillBytes (b.stream true) (bitCount b.table b.toks) (b.table.len 256) else []

/-- The bytes of a block: its table, the two words to begin with, and what is fetched later. -/
def layout (b : Block) (final : Bool) : List UInt8 :=
  b.table.bytes ++ (wordBytes (b.stream final) 0 ++ (wordBytes (b.stream final) 1 ++
    (tokensLayout b.table (b.stream final) 0 b.toks ++ b.markerLayout final)))

end Block

/-- A token sequence cut into blocks: a block ends with the token that takes its output to 64 KiB
or more. The end marker belongs to the last block, which is not full. -/
structure Encoding where
  /-- The full blocks. -/
  full : List Block
  /-- The last block. -/
  last : Block
  /-- Each full block holds 64 KiB, and does not without its last token. -/
  fills : ∀ b ∈ full, 65536 ≤ sizeSum b.toks ∧ sizeSum b.toks.dropLast < 65536
  /-- The last block holds less. -/
  last_lt : sizeSum last.toks < 65536
  /-- Every token fits where it stands. -/
  fit : AllAt TokenFits 0 (full.flatMap Block.toks ++ last.toks)

/-- The token sequence. -/
def Encoding.tokens (e : Encoding) : List Token := e.full.flatMap Block.toks ++ e.last.toks

/-- The stream. -/
def encode (e : Encoding) : List UInt8 :=
  e.full.flatMap (Block.layout · false) ++ e.last.layout true

/-- Of the tokens that follow `t` bits of a block, with `rest` more bytes behind them: when a token
is reached, the first excepted, some of the input is still unread, and two bytes at least are unread
behind the symbol of a match of three bytes at distance one. -/
def InputLeft (tab : Table) (S : ℕ → Bool) (rest : ℕ) : ℕ → List Token → Prop
  | _, [] => True
  | t, tok :: toks =>
      (tok = .backref 1 3 → 2 ≤ (tokensLayout tab S (t + tab.width tok) toks).length + rest) ∧
        (toks ≠ [] → 0 < (tokensLayout tab S (t + tab.width tok) toks).length + rest) ∧
        InputLeft tab S rest (t + tab.width tok) toks

/-- `InputLeft` of the last block. -/
def Encoding.InputLeft (e : Encoding) : Prop :=
  Xca.InputLeft e.last.table (e.last.stream true) (e.last.markerLayout true).length 0 e.last.toks

/-- Two bytes behind the tokens are enough. -/
theorem inputLeft_of_two_le {tab : Table} {S : ℕ → Bool} {rest : ℕ} (h : 2 ≤ rest) (t : ℕ)
    (toks : List Token) : InputLeft tab S rest t toks := by
  induction toks generalizing t with
  | nil => trivial
  | cons tok toks ih => exact ⟨fun _ => by omega, fun _ => by omega, ih _⟩

/-! ## The bits of a token, in the stream of its block -/

/-- Tokens have their widths in bits. -/
theorem flatMap_tokenBits_length (tab : Table) (toks : List Token) :
    (toks.flatMap tab.tokenBits).length = bitCount tab toks := by
  induction toks with
  | nil => rfl
  | cons tok toks ih => simp [ih]

/-- The symbol and the distance bits of a token stand behind the bits of the tokens before it. -/
theorem Block.peek_token (b : Block) (final : Bool) {pre toks : List Token} {tok : Token}
    (h : b.toks = pre ++ tok :: toks) :
    peek (b.stream final) (bitCount b.table pre) (b.table.len (symbolOf tok)) =
        bitsNat (b.table.code (symbolOf tok)) ∧
      peek (b.stream final) (bitCount b.table pre + b.table.len (symbolOf tok)) (offsetBits tok) =
        bitsNat (offsetCode tok) := by
  have hbits : b.bits final = pre.flatMap b.table.tokenBits ++ b.table.code (symbolOf tok) ++
      (offsetCode tok ++ (toks.flatMap b.table.tokenBits ++
        if final then b.table.code 256 else [])) := by
    simp [Block.bits, h, Table.tokenBits]
  constructor
  · have hpeek := peek_bitStream_append b.fill (pre.flatMap b.table.tokenBits)
      (b.table.code (symbolOf tok)) (offsetCode tok ++ (toks.flatMap b.table.tokenBits ++
        if final then b.table.code 256 else []))
    rwa [← hbits, flatMap_tokenBits_length, Table.code_length] at hpeek
  · rw [← List.append_assoc] at hbits
    have hpeek := peek_bitStream_append b.fill
      (pre.flatMap b.table.tokenBits ++ b.table.code (symbolOf tok)) (offsetCode tok)
      (toks.flatMap b.table.tokenBits ++ if final then b.table.code 256 else [])
    rwa [← hbits, List.length_append, flatMap_tokenBits_length, Table.code_length,
      offsetCode_length] at hpeek

/-- The end marker stands behind the bits of all tokens. -/
theorem Block.peek_marker (b : Block) :
    peek (b.stream true) (bitCount b.table b.toks) (b.table.len 256) =
      bitsNat (b.table.code 256) := by
  have hpeek := peek_bitStream_append b.fill (b.toks.flatMap b.table.tokenBits)
    (b.table.code 256) []
  rw [flatMap_tokenBits_length, Table.code_length, List.append_nil] at hpeek
  exact hpeek

end Ntloader.Xca
