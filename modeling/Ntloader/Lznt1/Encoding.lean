import Mathlib.Data.Nat.Log
import Ntloader.Lib.Lz77

/-!
# The LZNT1 stream format

What an LZNT1 encoder may write, independently of how the decoder reads it.

* `splitAt` — the number of length bits of a value at a position of its chunk; `TokenFits` — the
  tokens that can be written there.
* `Group` — a tag byte with up to eight tokens, the tag naming the back-references among them.
* `Chunk` — 1 to 4096 bytes of output, raw or compressed, in 1 to 4096 bytes of data; both
  structures carry the bounds as fields.
* `encodeStream` — chunks behind their headers, with an optional final zero byte.

Scope: the three header bits that the format reserves for a signature are arbitrary.
-/

namespace Ntloader.Lznt1

open Ntloader.Lib

/-! ## Tokens -/

/-- Number of offset bits of a value `p` bytes into its chunk: enough to go back over all of them,
and at least four. -/
def offsetBitsAt (p : ℕ) : ℕ := max 4 (Nat.clog 2 p)

/-- Number of length bits of a value `p` bytes into its chunk. -/
def splitAt (p : ℕ) : ℕ := 16 - offsetBitsAt p

/-- In a chunk of 4096 bytes no more than 12 bits are for the offset. -/
theorem offsetBitsAt_le {p : ℕ} (h : p ≤ 4096) : offsetBitsAt p ≤ 12 :=
  max_le (by omega) (Nat.clog_le_of_le_pow (by omega))

/-- The number of offset bits grows with the output. -/
theorem offsetBitsAt_mono {p q : ℕ} (h : p ≤ q) : offsetBitsAt p ≤ offsetBitsAt q :=
  max_le_max le_rfl (Nat.clog_mono_right 2 h)

/-- Whether a token is a compressed value. -/
def isBackref : Token → Bool
  | .lit _ => false
  | .backref _ _ => true

/-- A token that can be written `p` bytes into a chunk: a match stays within the chunk, and its
distance and length fit the split in force there. -/
def TokenFits (p : ℕ) : Token → Prop
  | .lit _ => True
  | .backref dist len =>
      1 ≤ dist ∧ dist ≤ p ∧ dist - 1 < 2 ^ offsetBitsAt p ∧ 3 ≤ len ∧ len - 3 < 2 ^ splitAt p

/-- Every token fits where it stands. -/
def TokensFit : ℕ → List Token → Prop := AllAt TokenFits

/-- The bytes of a token `p` bytes into its chunk. -/
def tokenBytes (p : ℕ) : Token → List UInt8
  | .lit b => [b]
  | .backref dist len => leBytes 2 ((dist - 1) * 2 ^ splitAt p + (len - 3))

/-- The bytes of a token sequence that starts `p` bytes into its chunk. -/
def encodeTokens : ℕ → List Token → List UInt8
  | _, [] => []
  | p, t :: toks => tokenBytes p t ++ encodeTokens (p + t.size) toks

/-- Every token takes a byte at least. -/
theorem tokenBytes_length_pos (p : ℕ) (t : Token) : 0 < (tokenBytes p t).length := by
  cases t <;> simp [tokenBytes]

/-! ## Groups -/

/-- A tag byte and the tokens it describes. -/
structure Group where
  /-- The tag byte; bits past the last token are arbitrary. -/
  tag : UInt8
  /-- The tokens. -/
  toks : List Token
  /-- A tag has eight bits. -/
  length_le : toks.length ≤ 8
  /-- Bit `i` marks token `i` as a compressed value. -/
  flags : ∀ i (h : i < toks.length), tag.toNat.testBit i = isBackref toks[i]

/-- The tokens of a list of groups. -/
def groupTokens (groups : List Group) : List Token := groups.flatMap Group.toks

/-- The bytes of a list of groups that starts `p` bytes into its chunk. -/
def encodeGroups : ℕ → List Group → List UInt8
  | _, [] => []
  | p, g :: groups => g.tag :: (encodeTokens p g.toks ++ encodeGroups (p + sizeSum g.toks) groups)

/-- A new tag starts after every eight tokens, and only there. -/
def Tagged (groups : List Group) : Prop := ∀ g ∈ groups.dropLast, g.toks.length = 8

/-- Equation lemma: no groups. -/
@[simp] theorem groupTokens_nil : groupTokens [] = [] := rfl

/-- Equation lemma: the tokens of the first group come first. -/
@[simp] theorem groupTokens_cons (g : Group) (groups : List Group) :
    groupTokens (g :: groups) = g.toks ++ groupTokens groups := rfl

/-- Every group but the last is full. -/
theorem Tagged.head {g : Group} {groups : List Group} (h : Tagged (g :: groups))
    (hne : groups ≠ []) : g.toks.length = 8 := by
  apply h
  rw [List.dropLast_cons_of_ne_nil hne]
  exact List.mem_cons_self

/-- The groups behind the first one are tagged. -/
theorem Tagged.tail {g : Group} {groups : List Group} (h : Tagged (g :: groups)) :
    Tagged groups := by
  intro x hx
  rcases groups.eq_nil_or_concat with rfl | ⟨_, _, rfl⟩
  · exact absurd hx (by simp)
  · apply h
    rw [List.dropLast_cons_of_ne_nil (by simp)]
    exact List.mem_cons_of_mem _ hx

/-- A sequence of tokens has as many bytes as tokens at least. -/
theorem encodeTokens_length_ge (p : ℕ) (toks : List Token) :
    toks.length ≤ (encodeTokens p toks).length := by
  induction toks generalizing p with
  | nil => exact Nat.zero_le _
  | cons t toks ih =>
      have hpos := tokenBytes_length_pos p t
      have hrest := ih (p + t.size)
      simp only [encodeTokens, List.length_cons, List.length_append]
      omega

/-- Every token takes a byte at least, so that the data of a chunk bounds its tokens. -/
theorem encodeGroups_length_ge (p : ℕ) (groups : List Group) :
    (groupTokens groups).length ≤ (encodeGroups p groups).length := by
  induction groups generalizing p with
  | nil => exact Nat.zero_le _
  | cons g groups ih =>
      have hhead := encodeTokens_length_ge p g.toks
      have hrest := ih (p + sizeSum g.toks)
      simp only [groupTokens_cons, encodeGroups, List.length_cons, List.length_append]
      omega

/-! ## Chunks -/

/-- A chunk stored as it is. -/
structure RawChunk where
  /-- The bytes. -/
  bytes : List UInt8
  /-- At least one byte. -/
  pos : 0 < bytes.length
  /-- At most 4096 bytes. -/
  le : bytes.length ≤ 4096

/-- A chunk stored as a token sequence. -/
structure CompressedChunk where
  /-- The tags with their tokens. -/
  groups : List Group
  /-- Every group but the last is full. -/
  tagged : Tagged groups
  /-- Every token can be written where it stands. -/
  fit : TokensFit 0 (groupTokens groups)
  /-- At most 4096 bytes of data. -/
  data_le : (encodeGroups 0 groups).length ≤ 4096
  /-- At least one byte of output. -/
  pos : 0 < sizeSum (groupTokens groups)
  /-- At most 4096 bytes of output. -/
  le : sizeSum (groupTokens groups) ≤ 4096

/-- A chunk of a stream. -/
inductive Chunk where
  /-- Stored as it is. -/
  | raw (c : RawChunk)
  /-- Stored as a token sequence. -/
  | compressed (c : CompressedChunk)

/-- The bytes a chunk stands for. -/
def Chunk.output : Chunk → List UInt8
  | .raw c => c.bytes
  | .compressed c => expandAll (groupTokens c.groups)

/-- The data a chunk is stored as. -/
def Chunk.data : Chunk → List UInt8
  | .raw c => c.bytes
  | .compressed c => encodeGroups 0 c.groups

/-- The flag of a chunk's header. -/
def Chunk.flag : Chunk → ℕ
  | .raw _ => 0
  | .compressed _ => 0x8000

/-- The header of a chunk: data length minus one, signature, and the compression flag. -/
def Chunk.header (sig : Fin 8) (c : Chunk) : ℕ := c.data.length - 1 + 0x1000 * sig + c.flag

/-- A chunk behind its header. -/
def encodeChunk (c : Fin 8 × Chunk) : List UInt8 :=
  leBytes 2 (c.2.header c.1) ++ c.2.data

/-- A stream of chunks, with their signatures, followed by `tail`. -/
def encodeChunks (chunks : List (Fin 8 × Chunk)) (tail : List UInt8) : List UInt8 :=
  chunks.flatMap encodeChunk ++ tail

/-- An LZNT1 stream: chunks, optionally followed by one zero byte. -/
def encodeStream (chunks : List (Fin 8 × Chunk)) (terminated : Bool) : List UInt8 :=
  encodeChunks chunks (if terminated then [0] else [])

/-- The bytes a stream stands for. -/
def streamOutput (chunks : List (Fin 8 × Chunk)) : List UInt8 :=
  chunks.flatMap fun c => c.2.output

/-- A chunk is not empty, -/
theorem Chunk.data_length_pos (c : Chunk) : 0 < c.data.length := by
  cases c with
  | raw c => exact c.pos
  | compressed c =>
      obtain ⟨groups, -, -, -, hpos, -⟩ := c
      cases groups with
      | nil => exact absurd hpos (by simp)
      | cons g groups => simp [Chunk.data, encodeGroups]

/-- and has 4096 bytes of data at most. -/
theorem Chunk.data_length_le (c : Chunk) : c.data.length ≤ 4096 := by
  cases c with
  | raw c => exact c.le
  | compressed c => exact c.data_le

end Ntloader.Lznt1
