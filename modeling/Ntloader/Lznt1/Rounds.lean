import Ntloader.Lznt1.Decompress

/-!
# The rounds of the LZNT1 loops

Both loops of libnt/lznt1.c one round at a time, so that what holds of a run is proved of a round
first.

* `blockRound`, `blockLoop_succ` — a round of `lznt1_block`; `blockRounds` — the states in front of
  the rounds of a run.
* `streamExit`, `streamRound`, `streamLoop_succ`, `streamRounds` — the same for `lznt1_decompress`.
-/

namespace Ntloader.Lznt1

open Ntloader.Lib

/-! ## A block -/

/-- A round of the loop of `lznt1_block`: the value returned, if it returns, and the state.
Source: libnt/lznt1.c, lznt1_block, loop body -/
def blockRound (data : Mem) (limit : ℕ) (s : BlockState) : Option ℤ × BlockState :=
  let t := extractTag data s
  if s.tagBit = 0 ∧ t.offset = limit then (some t.outLen, t)
  else
    match decodeValue data limit t with
    | none => (some (-1), t)
    | some u => (none, nextValue u)

/-- Equation lemma: a round of a block and the rest. -/
theorem blockLoop_succ (data : Mem) (limit fuel : ℕ) (s : BlockState) :
    blockLoop data limit (fuel + 1) s =
      if s.offset = limit then some ((s.outLen : ℤ), s)
      else
        match blockRound data limit s with
        | (some ret, t) => some (ret, t)
        | (none, t) => blockLoop data limit fuel t := by
  rw [blockLoop, blockRound]
  by_cases h0 : s.offset = limit
  · rw [if_pos h0, if_pos h0]
  rw [if_neg h0, if_neg h0]
  dsimp only
  by_cases h1 : s.tagBit = 0 ∧ (extractTag data s).offset = limit
  · rw [if_pos h1, if_pos h1]
  rw [if_neg h1, if_neg h1]
  cases decodeValue data limit (extractTag data s) with
  | none => rfl
  | some u => rfl

/-- The states in front of the rounds of the loop of `lznt1_block`. -/
def blockRounds (data : Mem) (limit : ℕ) : ℕ → BlockState → List BlockState
  | 0, _ => []
  | fuel + 1, s =>
      if s.offset = limit then []
      else
        s :: match blockRound data limit s with
          | (some _, _) => []
          | (none, t) => blockRounds data limit fuel t

/-- The local variables of `lznt1_block` in front of the loop.
Source: libnt/lznt1.c, lznt1_block -/
def blockStart (offset : ℕ) (block : Option ℕ) (mem : Mem) (trace : List Access) : BlockState :=
  ⟨offset, block, mem, 0, 12, 16, 0, 0, trace⟩

/-- The states in front of the rounds of `lznt1_block`. -/
def lznt1BlockRounds (data : Mem) (limit offset : ℕ) (block : Option ℕ) (mem : Mem)
    (trace : List Access) : List BlockState :=
  blockRounds data limit (limit - offset + 1) (blockStart offset block mem trace)

/-! ## The stream -/

/-- The loop of `lznt1_decompress` ends in front of a block: at the end of the input, at the end
marker, or where there is no room for a header.
Source: libnt/lznt1.c, lznt1_decompress -/
def streamExit (data : Mem) (len : ℕ) (s : StreamState) : Option (ℤ × StreamState) :=
  if s.offset = len then some (s.outLen, s)
  else if s.offset + 1 = len ∧ data s.offset = 0 then
    some (s.outLen, { s with trace := .read s.offset 1 :: s.trace })
  else if s.offset + 2 > len then some (-1, s)
  else none

/-- The end of the block that a header begins.
Source: libnt/lznt1.c, lznt1_decompress, `limit` -/
def blockLimit (data : Mem) (s : StreamState) : ℕ :=
  s.offset + 2 + lznt1BlockLen (data.word s.offset 2)

/-- The output pointer at a block.
Source: libnt/lznt1.c, lznt1_decompress, `block` -/
def blockDest (buf : Option ℕ) (s : StreamState) : Option ℕ := buf.map (· + s.outLen.toNat)

/-- The accesses up to a block. -/
def blockTrace (s : StreamState) : List Access := .read s.offset 2 :: s.trace

/-- A block: the value returned, if it returns, and the state behind it.
Source: libnt/lznt1.c, lznt1_decompress, loop body -/
def streamRound (data : Mem) (len : ℕ) (buf : Option ℕ) (s : StreamState) :
    Option (Option ℤ × StreamState) :=
  let offset := s.offset + 2
  let limit := blockLimit data s
  if lznt1BlockCompressed (data.word s.offset 2) then
    (lznt1Block data limit offset (blockDest buf s) s.mem (blockTrace s)).map fun r =>
      if r.1 < 0 then (some r.1, ⟨offset, s.outLen, r.2.mem, r.2.trace⟩)
      else (none, ⟨limit, s.outLen + r.1, r.2.mem, r.2.trace⟩)
  else if limit > len then some (some (-1), { s with offset := offset, trace := blockTrace s })
  else
    let blockLen := lznt1BlockLen (data.word s.offset 2)
    let mem := match blockDest buf s with
      | some dest => s.mem.copy dest data offset blockLen
      | none => s.mem
    let trace := if buf.isSome then .read offset blockLen :: blockTrace s else blockTrace s
    some (none, ⟨limit, s.outLen + blockLen, mem, trace⟩)

/-- Equation lemma: a round of a stream and the rest. -/
theorem streamLoop_succ (data : Mem) (len : ℕ) (buf : Option ℕ) (fuel : ℕ) (s : StreamState) :
    streamLoop data len buf (fuel + 1) s =
      match streamExit data len s with
      | some r => some r
      | none =>
          match streamRound data len buf s with
          | none => none
          | some (some ret, t) => some (ret, t)
          | some (none, t) => streamLoop data len buf fuel t := by
  rw [streamLoop, streamExit]
  unfold streamRound blockLimit blockDest blockTrace
  by_cases h0 : s.offset = len
  · rw [if_pos h0, if_pos h0]
  rw [if_neg h0, if_neg h0]
  by_cases h1 : s.offset + 1 = len ∧ data s.offset = 0
  · rw [if_pos h1, if_pos h1]
  rw [if_neg h1, if_neg h1]
  by_cases h2 : s.offset + 2 > len
  · rw [if_pos h2, if_pos h2]
  rw [if_neg h2, if_neg h2]
  dsimp only
  by_cases hc : lznt1BlockCompressed (data.word s.offset 2) = true
  · rw [if_pos hc, if_pos hc]
    cases lznt1Block data (s.offset + 2 + lznt1BlockLen (data.word s.offset 2)) (s.offset + 2)
      (buf.map (· + s.outLen.toNat)) s.mem (.read s.offset 2 :: s.trace) with
    | none => rfl
    | some r =>
        rw [Option.map_some]
        dsimp only
        by_cases hneg : r.1 < 0
        · rw [if_pos hneg, if_pos hneg]
        · rw [if_neg hneg, if_neg hneg]
  · rw [if_neg hc, if_neg hc]
    by_cases hover : s.offset + 2 + lznt1BlockLen (data.word s.offset 2) > len
    · rw [if_pos hover, if_pos hover]
    · cases buf with
      | none => rw [if_neg hover, if_neg hover, Option.map_none]
      | some base => rw [if_neg hover, if_neg hover, Option.map_some]

/-- The states in front of the blocks of the loop of `lznt1_decompress`. -/
def streamRounds (data : Mem) (len : ℕ) (buf : Option ℕ) : ℕ → StreamState → List StreamState
  | 0, _ => []
  | fuel + 1, s =>
      match streamExit data len s with
      | some _ => []
      | none =>
          s :: match streamRound data len buf s with
            | some (none, t) => streamRounds data len buf fuel t
            | _ => []

/-- The states in front of the blocks of `lznt1_decompress`. -/
def lznt1Blocks (data : Mem) (len : ℕ) (buf : Option ℕ) (mem : Mem) : List StreamState :=
  streamRounds data len buf (len + 2) ⟨0, 0, mem, []⟩

end Ntloader.Lznt1
