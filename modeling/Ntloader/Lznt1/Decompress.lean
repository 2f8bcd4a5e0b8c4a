import Ntloader.Lib.Lz77

/-!
# LZNT1 decompression: the model of libnt/lznt1.c

The input is a memory with `data` at address zero, `limit` and `len` bound it; the output pointer is
`none` for the sizing pass (`buf == NULL`). Every read of the input and every back-reference is
recorded in a trace.

* `lznt1Block` — one compressed block; `lznt1Decompress` — the whole stream.
* The loops run on fuel. `lznt1Block_isSome` and `lznt1Decompress_isSome`: the fuel given always
  suffices, so that `none` never occurs and every call returns.
-/

namespace Ntloader.Lznt1

open Ntloader.Lib

/-- Extract LZNT1 block length.
Source: include/lznt1.h, LZNT1_BLOCK_LEN -/
def lznt1BlockLen (header : ℕ) : ℕ := (header &&& 0x0fff) + 1

/-- Determine if LZNT1 block is compressed.
Source: include/lznt1.h, LZNT1_BLOCK_COMPRESSED -/
def lznt1BlockCompressed (header : ℕ) : Bool := (header &&& 0x8000) != 0

/-- Extract LZNT1 compressed value length.
Source: include/lznt1.h, LZNT1_VALUE_LEN -/
def lznt1ValueLen (tuple split : ℕ) : ℕ := (tuple &&& ((1 <<< split) - 1)) + 3

/-- Extract LZNT1 compressed value offset.
Source: include/lznt1.h, LZNT1_VALUE_OFFSET -/
def lznt1ValueOffset (tuple split : ℕ) : ℕ := (tuple >>> split) + 1

/-- The local variables of `lznt1_block`, with the memory behind its output pointer. -/
structure BlockState where
  /-- Offset within the input. -/
  offset : ℕ
  /-- `copy_dest`: where the next byte goes, if anywhere. -/
  dest : Option ℕ
  /-- The memory the output pointer points into. -/
  mem : Mem
  /-- `block_out_len` -/
  outLen : ℕ
  /-- Number of length bits of a compressed value. -/
  split : ℕ
  /-- Output length from which the split changes. -/
  nextThreshold : ℕ
  /-- Position within the current tag. -/
  tagBit : ℕ
  /-- The current tag, shifted down to its next bit. -/
  tag : ℕ
  /-- The accesses made so far, latest first. -/
  trace : List Access

/-- Extract tag.
Source: libnt/lznt1.c, lznt1_block -/
def extractTag (data : Mem) (s : BlockState) : BlockState :=
  if s.tagBit = 0 then
    { s with
      tag := (data s.offset).toNat
      offset := s.offset + 1
      trace := .read s.offset 1 :: s.trace }
  else s

/-- Update split, if applicable: `while (block_out_len > next_threshold)`. The threshold is a
32-bit number that doubles in every round, so that the fuel of 32 rounds never runs out.
Source: libnt/lznt1.c, lznt1_block -/
def updateSplit (outLen : ℕ) : ℕ → ℕ → ℕ → ℕ × ℕ
  | 0, split, threshold => (split, threshold)
  | fuel + 1, split, threshold =>
      if threshold < outLen then
        updateSplit outLen fuel ((split + (2 ^ 32 - 1)) % 2 ^ 32) ((threshold <<< 1) % 2 ^ 32)
      else (split, threshold)

/-- Copy one compressed value; `none` if it overruns the block.
Source: libnt/lznt1.c, lznt1_block, `if (tag & 1)` -/
def copyValue (data : Mem) (limit : ℕ) (s : BlockState) : Option BlockState :=
  if s.offset + 2 > limit then none
  else
    let tuple := data.word s.offset 2
    let copyLen := lznt1ValueLen tuple s.split
    let copyOffset := lznt1ValueOffset tuple s.split
    some { s with
      offset := s.offset + 2
      outLen := s.outLen + copyLen
      mem := match s.dest with
        | some dest => copyLoop s.mem dest (dest - copyOffset) copyLen
        | none => s.mem
      dest := s.dest.map (· + copyLen)
      trace := .backref copyOffset s.outLen :: .read s.offset 2 :: s.trace }

/-- Copy one uncompressed value. Without an output pointer it is not read.
Source: libnt/lznt1.c, lznt1_block, the other branch -/
def literalValue (data : Mem) (s : BlockState) : BlockState :=
  { s with
    offset := s.offset + 1
    outLen := s.outLen + 1
    mem := match s.dest with
      | some dest => Function.update s.mem dest (data s.offset)
      | none => s.mem
    dest := s.dest.map (· + 1)
    trace := if s.dest.isSome then .read s.offset 1 :: s.trace else s.trace }

/-- Calculate copy source and length, and copy; `none` is the overrun error.
Source: libnt/lznt1.c, lznt1_block, both branches on `tag & 1` -/
def decodeValue (data : Mem) (limit : ℕ) (s : BlockState) : Option BlockState :=
  if s.tag &&& 1 ≠ 0 then copyValue data limit s else some (literalValue data s)

/-- Move to next value.
Source: libnt/lznt1.c, lznt1_block, end of the loop body -/
def nextValue (s : BlockState) : BlockState :=
  let r := updateSplit s.outLen 32 s.split s.nextThreshold
  { s with
    split := r.1
    nextThreshold := r.2
    tag := s.tag >>> 1
    tagBit := (s.tagBit + 1) % 8 }

/-- The loop of `lznt1_block`, with its return value.
Source: libnt/lznt1.c, lznt1_block -/
def blockLoop (data : Mem) (limit : ℕ) : ℕ → BlockState → Option (ℤ × BlockState)
  | 0, _ => none
  | fuel + 1, s =>
      if s.offset = limit then some (s.outLen, s)
      else
        let t := extractTag data s
        if s.tagBit = 0 ∧ t.offset = limit then some (t.outLen, t)
        else
          match decodeValue data limit t with
          | none => some (-1, t)
          | some u => blockLoop data limit fuel (nextValue u)

/-- Decompress one LZNT1 block.
Source: libnt/lznt1.c, lznt1_block -/
def lznt1Block (data : Mem) (limit offset : ℕ) (block : Option ℕ) (mem : Mem)
    (trace : List Access) : Option (ℤ × BlockState) :=
  blockLoop data limit (limit - offset + 1) ⟨offset, block, mem, 0, 12, 16, 0, 0, trace⟩

/-- The local variables of `lznt1_decompress`, with the memory behind its output pointer. -/
structure StreamState where
  /-- Offset within the input. -/
  offset : ℕ
  /-- `out_len` -/
  outLen : ℤ
  /-- The memory the output pointer points into. -/
  mem : Mem
  /-- The accesses made so far, latest first. -/
  trace : List Access

/-- The loop of `lznt1_decompress`, with its return value. An uncompressed block is copied in one
`memcpy`.
Source: libnt/lznt1.c, lznt1_decompress -/
def streamLoop (data : Mem) (len : ℕ) (buf : Option ℕ) : ℕ → StreamState → Option (ℤ × StreamState)
  | 0, _ => none
  | fuel + 1, s =>
      if s.offset = len then some (s.outLen, s)
      else if s.offset + 1 = len ∧ data s.offset = 0 then
        some (s.outLen, { s with trace := .read s.offset 1 :: s.trace })
      else if s.offset + 2 > len then some (-1, s)
      else
        let header := data.word s.offset 2
        let offset := s.offset + 2
        let blockLen := lznt1BlockLen header
        let block := buf.map (· + s.outLen.toNat)
        let trace := .read s.offset 2 :: s.trace
        if lznt1BlockCompressed header then
          match lznt1Block data (offset + blockLen) offset block s.mem trace with
          | none => none
          | some (ret, b) =>
              if ret < 0 then some (ret, ⟨offset, s.outLen, b.mem, b.trace⟩)
              else streamLoop data len buf fuel ⟨offset + blockLen, s.outLen + ret, b.mem, b.trace⟩
        else if offset + blockLen > len then some (-1, { s with offset := offset, trace := trace })
        else
          let mem := match block with
            | some dest => s.mem.copy dest data offset blockLen
            | none => s.mem
          let trace := if buf.isSome then .read offset blockLen :: trace else trace
          streamLoop data len buf fuel ⟨offset + blockLen, s.outLen + blockLen, mem, trace⟩

/-- Decompress LZNT1-compressed data: the return value and the final state.
Source: libnt/lznt1.c, lznt1_decompress -/
def lznt1Decompress (data : Mem) (len : ℕ) (buf : Option ℕ) (mem : Mem) :
    Option (ℤ × StreamState) :=
  streamLoop data len buf (len + 2) ⟨0, 0, mem, []⟩

/-! ## Both loops end -/

/-- The step to the next value leaves the offset. -/
@[simp] theorem nextValue_offset (s : BlockState) : (nextValue s).offset = s.offset := rfl

/-- A value consumes input, and none of it past the limit. -/
theorem decodeValue_offset {data : Mem} {limit : ℕ} {s u : BlockState} (hlt : s.offset < limit)
    (h : decodeValue data limit s = some u) : s.offset < u.offset ∧ u.offset ≤ limit := by
  unfold decodeValue copyValue at h
  split_ifs at h with htag hover
  · obtain rfl := Option.some.inj h
    dsimp only
    omega
  · obtain rfl := Option.some.inj h
    simp only [literalValue]
    omega

/-- Every round of the block loop consumes input, and none consumes input past the limit. -/
theorem blockLoop_isSome (data : Mem) (limit fuel : ℕ) (s : BlockState) (hle : s.offset ≤ limit)
    (hfuel : limit - s.offset < fuel) : (blockLoop data limit fuel s).isSome := by
  induction fuel generalizing s with
  | zero => omega
  | succ fuel ih =>
      rw [blockLoop]
      by_cases h0 : s.offset = limit
      · rw [if_pos h0]
        rfl
      rw [if_neg h0]
      by_cases h1 : s.tagBit = 0 ∧ (extractTag data s).offset = limit
      · simp only [h1, and_self, if_true]
        rfl
      have ht : s.offset ≤ (extractTag data s).offset ∧ (extractTag data s).offset < limit := by
        unfold extractTag at h1 ⊢
        split_ifs at h1 ⊢ with htag
        · simp only [htag, true_and] at h1
          simp only
          omega
        · omega
      simp only [h1, if_false]
      cases hd : decodeValue data limit (extractTag data s) with
      | none => rfl
      | some u =>
          have hu := decodeValue_offset ht.2 hd
          exact ih _ (by rw [nextValue_offset]; omega) (by rw [nextValue_offset]; omega)

/-- A block ends, -/
theorem lznt1Block_isSome (data : Mem) {limit offset : ℕ} (hle : offset ≤ limit) (block : Option ℕ)
    (mem : Mem) (trace : List Access) : (lznt1Block data limit offset block mem trace).isSome :=
  blockLoop_isSome data limit _ _ hle (Nat.lt_succ_self _)

/-- and so does a stream, if it is given a round for every byte. -/
theorem streamLoop_isSome (data : Mem) (len : ℕ) (buf : Option ℕ) (fuel : ℕ) (s : StreamState)
    (hfuel : len - s.offset + 1 < fuel) : (streamLoop data len buf fuel s).isSome := by
  induction fuel generalizing s with
  | zero => omega
  | succ fuel ih =>
      rw [streamLoop]
      by_cases h0 : s.offset = len
      · rw [if_pos h0]
        rfl
      rw [if_neg h0]
      by_cases h1 : s.offset + 1 = len ∧ data s.offset = 0
      · rw [if_pos h1]
        rfl
      rw [if_neg h1]
      by_cases h2 : s.offset + 2 > len
      · rw [if_pos h2]
        rfl
      rw [if_neg h2]
      dsimp only
      by_cases hc : lznt1BlockCompressed (data.word s.offset 2) = true
      · rw [if_pos hc]
        obtain ⟨⟨ret, b⟩, hb⟩ := Option.isSome_iff_exists.mp
          (lznt1Block_isSome data (Nat.le_add_right (s.offset + 2) (lznt1BlockLen _))
            (buf.map (· + s.outLen.toNat)) s.mem (.read s.offset 2 :: s.trace))
        rw [hb]
        dsimp only
        by_cases hret : ret < 0
        · rw [if_pos hret]
          rfl
        · rw [if_neg hret]
          exact ih _ (by dsimp only; omega)
      · rw [if_neg hc]
        by_cases hover : s.offset + 2 + lznt1BlockLen (data.word s.offset 2) > len
        · rw [if_pos hover]
          rfl
        · rw [if_neg hover]
          exact ih _ (by dsimp only; omega)

/-- `lznt1_decompress` returns on every input. -/
theorem lznt1Decompress_isSome (data : Mem) (len : ℕ) (buf : Option ℕ) (mem : Mem) :
    (lznt1Decompress data len buf mem).isSome :=
  streamLoop_isSome data len buf _ _ (by dsimp only; omega)

end Ntloader.Lznt1
