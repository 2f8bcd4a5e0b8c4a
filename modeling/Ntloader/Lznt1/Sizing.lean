import Ntloader.Lznt1.Rounds
import Ntloader.Lib.WriteLog

/-!
# LZNT1: what the sizing pass says about the extraction pass

* `SameControl` — two states that differ in the output at most; every part of the loops keeps it, so
  that the return value does not depend on the output buffer.
* `valueLog`, `roundLog`, `lznt1Log` — the writes of a value, of a round and of the whole call.
* `lznt1Decompress_ret`, `lznt1Decompress_wrote` — the two passes return the same value, and the one
  with a buffer fills as much of it as that value says.
-/

namespace Ntloader.Lznt1

open Ntloader.Lib

/-! ## The return value does not depend on the output -/

/-- States of a block that differ in the output, and in the trace, at most. -/
structure SameControl (s t : BlockState) : Prop where
  offset : t.offset = s.offset
  outLen : t.outLen = s.outLen
  split : t.split = s.split
  nextThreshold : t.nextThreshold = s.nextThreshold
  tagBit : t.tagBit = s.tagBit
  tag : t.tag = s.tag

/-- A tag keeps the control the same, -/
theorem SameControl.extractTag {s t : BlockState} (data : Mem) (h : SameControl s t) :
    SameControl (extractTag data s) (extractTag data t) := by
  unfold Lznt1.extractTag
  rw [h.tagBit]
  by_cases h0 : s.tagBit = 0
  · rw [if_pos h0, if_pos h0]
    exact ⟨by rw [h.offset], h.outLen, h.split, h.nextThreshold, rfl, by rw [h.offset]⟩
  · rw [if_neg h0, if_neg h0]
    exact h

/-- so does the step to the next value, -/
theorem SameControl.nextValue {s t : BlockState} (h : SameControl s t) :
    SameControl (nextValue s) (nextValue t) := by
  unfold Lznt1.nextValue
  rw [h.outLen, h.split, h.nextThreshold, h.tag, h.tagBit]
  exact ⟨h.offset, rfl, rfl, rfl, rfl, rfl⟩

/-- and so does a round, or both fail. -/
theorem SameControl.decodeValue {s t : BlockState} (data : Mem) (limit : ℕ) (h : SameControl s t) :
    decodeValue data limit s = none ∧ decodeValue data limit t = none ∨
      ∃ u v, decodeValue data limit s = some u ∧ decodeValue data limit t = some v ∧
        SameControl u v := by
  unfold Lznt1.decodeValue copyValue
  rw [h.tag, h.offset]
  by_cases htag : s.tag &&& 1 ≠ 0
  · rw [if_pos htag, if_pos htag]
    by_cases hover : s.offset + 2 > limit
    · rw [if_pos hover, if_pos hover]
      exact Or.inl ⟨rfl, rfl⟩
    · rw [if_neg hover, if_neg hover]
      refine Or.inr ⟨_, _, rfl, rfl, ?_⟩
      exact ⟨rfl, by rw [h.outLen, h.split], h.split, h.nextThreshold, h.tagBit, rfl⟩
  · rw [if_neg htag, if_neg htag]
    refine Or.inr ⟨_, _, rfl, rfl, ?_⟩
    exact ⟨by rw [literalValue, literalValue, h.offset], by rw [literalValue, literalValue, h.outLen],
      h.split, h.nextThreshold, h.tagBit, h.tag⟩

/-- Two passes do the same in a round. -/
theorem SameControl.blockRound {s t : BlockState} (data : Mem) (limit : ℕ) (h : SameControl s t) :
    (blockRound data limit t).1 = (blockRound data limit s).1 ∧
      SameControl (blockRound data limit s).2 (blockRound data limit t).2 := by
  have htag := h.extractTag data
  unfold Lznt1.blockRound
  dsimp only
  rw [h.tagBit, htag.offset, htag.outLen]
  by_cases h1 : s.tagBit = 0 ∧ (Lznt1.extractTag data s).offset = limit
  · rw [if_pos h1, if_pos h1]
    exact ⟨rfl, htag⟩
  rw [if_neg h1, if_neg h1]
  obtain ⟨hs, ht⟩ | ⟨u, v, hs, ht, huv⟩ := htag.decodeValue data limit
  · rw [hs, ht]
    exact ⟨rfl, htag⟩
  · rw [hs, ht]
    exact ⟨rfl, huv.nextValue⟩

/-- Two passes over a block return the same value. -/
theorem blockLoop_ret {data : Mem} {limit : ℕ} (fuel : ℕ) {s t : BlockState}
    (h : SameControl s t) :
    (blockLoop data limit fuel t).map Prod.fst = (blockLoop data limit fuel s).map Prod.fst := by
  induction fuel generalizing s t with
  | zero => rfl
  | succ fuel ih =>
      obtain ⟨hret, hnext⟩ := h.blockRound data limit
      rw [blockLoop_succ, blockLoop_succ, h.offset, h.outLen]
      by_cases h0 : s.offset = limit
      · rw [if_pos h0, if_pos h0]
        rfl
      rw [if_neg h0, if_neg h0]
      generalize blockRound data limit s = r at hret hnext ⊢
      generalize blockRound data limit t = q at hret hnext ⊢
      obtain ⟨ret, u⟩ := r
      obtain ⟨ret', v⟩ := q
      obtain rfl : ret' = ret := hret
      cases ret' with
      | some ret => rfl
      | none => exact ih hnext

/-- **A block returns the same** with and without an output. -/
theorem lznt1Block_ret (data : Mem) (limit offset : ℕ) (block block' : Option ℕ) (mem mem' : Mem)
    (trace trace' : List Access) :
    (lznt1Block data limit offset block mem trace).map Prod.fst =
      (lznt1Block data limit offset block' mem' trace').map Prod.fst :=
  blockLoop_ret _ ⟨rfl, rfl, rfl, rfl, rfl, rfl⟩

/-- What the control flow of `lznt1_decompress` depends on behind a block. -/
def controlOf (r : Option ℤ × StreamState) : Option ℤ × ℕ × ℤ := (r.1, r.2.offset, r.2.outLen)

section

variable {data : Mem} {len : ℕ} {buf buf' : Option ℕ} {s t : StreamState}

/-- Two passes return the same value in front of a block, or none. -/
theorem streamExit_ret (hoffset : t.offset = s.offset) (hout : t.outLen = s.outLen) :
    (streamExit data len t).map Prod.fst = (streamExit data len s).map Prod.fst := by
  rw [streamExit, streamExit, hoffset, hout]
  split_ifs
  · rfl
  · rfl
  · rfl
  · rfl

/-- Two passes do the same with a block. -/
theorem streamRound_ret (hoffset : t.offset = s.offset) (hout : t.outLen = s.outLen) :
    (streamRound data len buf t).map controlOf = (streamRound data len buf' s).map controlOf := by
  have hlimit : blockLimit data t = blockLimit data s := by rw [blockLimit, blockLimit, hoffset]
  unfold streamRound
  dsimp only
  rw [hlimit, hoffset, hout]
  by_cases hc : lznt1BlockCompressed (data.word s.offset 2) = true
  · have hpasses := lznt1Block_ret data (blockLimit data s) (s.offset + 2) (blockDest buf t)
      (blockDest buf' s) t.mem s.mem (blockTrace t) (blockTrace s)
    rw [if_pos hc, if_pos hc]
    generalize lznt1Block data _ _ (blockDest buf t) _ _ = r at hpasses ⊢
    generalize lznt1Block data _ _ (blockDest buf' s) _ _ = r' at hpasses ⊢
    cases r with
    | none =>
        obtain rfl := Option.map_eq_none_iff.mp hpasses.symm
        rfl
    | some p =>
        obtain ⟨p', rfl, hp⟩ := Option.map_eq_some_iff.mp hpasses.symm
        simp only [Option.map_some, hp]
        split_ifs
        · rfl
        · rfl
  · rw [if_neg hc, if_neg hc]
    by_cases hover : blockLimit data s > len
    · rw [if_pos hover, if_pos hover]
      rfl
    · rw [if_neg hover, if_neg hover]
      rfl

end

/-- Two passes over the input from one block on return the same value. -/
theorem streamLoop_ret {data : Mem} {len : ℕ} {buf buf' : Option ℕ} (fuel : ℕ) {s t : StreamState}
    (hoffset : t.offset = s.offset) (hout : t.outLen = s.outLen) :
    (streamLoop data len buf fuel t).map Prod.fst =
      (streamLoop data len buf' fuel s).map Prod.fst := by
  induction fuel generalizing s t with
  | zero => rfl
  | succ fuel ih =>
      have hexit := @streamExit_ret data len s t hoffset hout
      have hround := @streamRound_ret data len buf buf' s t hoffset hout
      rw [streamLoop_succ, streamLoop_succ]
      cases hs : streamExit data len s with
      | some r =>
          rw [hs] at hexit
          obtain ⟨r', ht, hr⟩ := Option.map_eq_some_iff.mp hexit
          rw [ht]
          exact congrArg some hr
      | none =>
          rw [hs] at hexit
          rw [Option.map_eq_none_iff.mp hexit]
          dsimp only
          cases hs : streamRound data len buf' s with
          | none =>
              rw [hs] at hround
              rw [Option.map_eq_none_iff.mp hround]
          | some r =>
              rw [hs] at hround
              obtain ⟨r', ht, hr⟩ := Option.map_eq_some_iff.mp hround
              rw [ht]
              obtain ⟨ret, u⟩ := r
              obtain ⟨ret', v⟩ := r'
              obtain ⟨rfl, hpos⟩ := Prod.mk.inj hr
              obtain ⟨huv, hlen⟩ := Prod.mk.inj hpos
              cases ret' with
              | some ret => rfl
              | none => exact ih huv hlen

/-- The two passes return the same value.
Source: libnt/lznt1.c, lznt1_decompress -/
theorem lznt1Decompress_ret (data : Mem) (len : ℕ) (buf buf' : Option ℕ) (mem mem' : Mem) :
    (lznt1Decompress data len buf mem).map Prod.fst =
      (lznt1Decompress data len buf' mem').map Prod.fst :=
  streamLoop_ret _ rfl rfl

/-! ## The writes -/

/-- The bytes written for a value, and where.
Source: libnt/lznt1.c, lznt1_block, `*(copy_dest++)` in both branches -/
def valueLog (data : Mem) (limit : ℕ) (s : BlockState) : WriteLog :=
  match s.dest with
  | none => []
  | some dest =>
      if s.tag &&& 1 ≠ 0 then
        if s.offset + 2 > limit then []
        else
          let tuple := data.word s.offset 2
          copyLoopLog s.mem dest (dest - lznt1ValueOffset tuple s.split)
            (lznt1ValueLen tuple s.split)
      else [(dest, data s.offset)]

/-- The bytes written in a round of `lznt1_block`. -/
def roundLog (data : Mem) (limit : ℕ) (s : BlockState) : WriteLog :=
  let t := extractTag data s
  if s.tagBit = 0 ∧ t.offset = limit then [] else valueLog data limit t

/-- The bytes written for a block.
Source: libnt/lznt1.c, lznt1_decompress, both branches on LZNT1_BLOCK_COMPRESSED -/
def streamRoundLog (data : Mem) (len : ℕ) (buf : Option ℕ) (s : StreamState) : WriteLog :=
  match blockDest buf s with
  | none => []
  | some dest =>
      let limit := blockLimit data s
      if lznt1BlockCompressed (data.word s.offset 2) then
        (lznt1BlockRounds data limit (s.offset + 2) (some dest) s.mem (blockTrace s)).flatMap
          (roundLog data limit)
      else if limit > len then []
      else copyLog dest data (s.offset + 2) (lznt1BlockLen (data.word s.offset 2))

/-- The bytes written by `lznt1_decompress`, in order.
Source: libnt/lznt1.c, lznt1_decompress -/
def lznt1Log (data : Mem) (len : ℕ) (buf : Option ℕ) (mem : Mem) : WriteLog :=
  (lznt1Blocks data len buf mem).flatMap (streamRoundLog data len buf)

/-- A tag leaves the output pointer, -/
@[simp] theorem extractTag_dest (data : Mem) (s : BlockState) :
    (extractTag data s).dest = s.dest := by
  unfold extractTag
  split_ifs <;> rfl

/-- the memory -/
@[simp] theorem extractTag_mem (data : Mem) (s : BlockState) :
    (extractTag data s).mem = s.mem := by
  unfold extractTag
  split_ifs <;> rfl

/-- and the length of the output. -/
@[simp] theorem extractTag_outLen (data : Mem) (s : BlockState) :
    (extractTag data s).outLen = s.outLen := by
  unfold extractTag
  split_ifs <;> rfl

/-- What has been written between two states of a block, behind the output of the first. -/
def WroteTo (dest : ℕ) (s t : BlockState) (log : WriteLog) : Prop :=
  ∃ k, t.outLen = s.outLen + k ∧ t.dest = some (dest + k) ∧ Wrote dest k s.mem t.mem log

/-- A value is written behind the output, which its length is added to. -/
theorem decodeValue_wrote {data : Mem} {limit dest : ℕ} {s u : BlockState}
    (hdest : s.dest = some dest) (h : decodeValue data limit s = some u) :
    WroteTo dest s u (valueLog data limit s) := by
  unfold decodeValue copyValue at h
  unfold valueLog
  rw [hdest] at h ⊢
  dsimp only at h ⊢
  by_cases htag : s.tag &&& 1 ≠ 0
  · rw [if_pos htag] at h ⊢
    by_cases hover : s.offset + 2 > limit
    · rw [if_pos hover] at h
      cases h
    · rw [if_neg hover] at h ⊢
      obtain rfl := Option.some.inj h
      exact ⟨_, rfl, rfl, fills_copyLoopLog _ _ _ _, (replay_copyLoopLog _ _ _ _).symm⟩
  · rw [if_neg htag] at h ⊢
    obtain rfl := Option.some.inj h
    unfold literalValue
    rw [hdest]
    exact ⟨1, rfl, rfl, fills_singleton _ _, rfl⟩

/-- A value that overruns the block is not written. -/
theorem valueLog_of_decodeValue_eq_none {data : Mem} {limit : ℕ} {s : BlockState}
    (h : decodeValue data limit s = none) : valueLog data limit s = [] := by
  unfold decodeValue copyValue at h
  unfold valueLog
  cases s.dest with
  | none => rfl
  | some dest =>
      dsimp only
      by_cases htag : s.tag &&& 1 ≠ 0
      · rw [if_pos htag] at h ⊢
        by_cases hover : s.offset + 2 > limit
        · rw [if_pos hover]
        · rw [if_neg hover] at h
          cases h
      · rw [if_neg htag] at h
        cases h

/-- A round writes behind the output, and returns its length if it returns no error. -/
theorem blockRound_wrote {data : Mem} {limit dest : ℕ} {s : BlockState}
    (hdest : s.dest = some dest) :
    WroteTo dest s (blockRound data limit s).2 (roundLog data limit s) ∧
      ∀ ret, (blockRound data limit s).1 = some ret →
        ret = -1 ∨ ret = ((blockRound data limit s).2.outLen : ℤ) := by
  have htag : WroteTo dest s (extractTag data s) [] :=
    ⟨0, extractTag_outLen _ _, (extractTag_dest _ _).trans hdest, by
      rw [extractTag_mem]
      exact wrote_nil _ _⟩
  unfold blockRound roundLog
  dsimp only
  by_cases h1 : s.tagBit = 0 ∧ (extractTag data s).offset = limit
  · rw [if_pos h1, if_pos h1]
    exact ⟨htag, fun ret hret => Or.inr (Option.some.inj hret).symm⟩
  rw [if_neg h1, if_neg h1]
  cases hd : decodeValue data limit (extractTag data s) with
  | none =>
      rw [valueLog_of_decodeValue_eq_none hd]
      exact ⟨htag, fun ret hret => Or.inl (Option.some.inj hret).symm⟩
  | some u =>
      obtain ⟨k, hlen, hdest', hwrote⟩ := decodeValue_wrote ((extractTag_dest data s).trans hdest) hd
      rw [extractTag_mem] at hwrote
      rw [extractTag_outLen] at hlen
      exact ⟨⟨k, hlen, hdest', hwrote⟩, nofun⟩

/-- A block is written behind the output; its length is returned, unless it overruns. -/
theorem blockLoop_wrote {data : Mem} {limit : ℕ} (fuel : ℕ) {dest : ℕ} {s t : BlockState} {ret : ℤ}
    (hdest : s.dest = some dest) (h : blockLoop data limit fuel s = some (ret, t)) :
    ∃ k : ℕ, (ret = -1 ∨ ret = (s.outLen + k : ℕ)) ∧
      Wrote dest k s.mem t.mem ((blockRounds data limit fuel s).flatMap (roundLog data limit)) := by
  induction fuel generalizing s dest with
  | zero => cases h
  | succ fuel ih =>
      obtain ⟨⟨j, hlen, hdest', hwrote⟩, hreturn⟩ := @blockRound_wrote data limit dest s hdest
      rw [blockLoop_succ] at h
      rw [blockRounds]
      by_cases h0 : s.offset = limit
      · rw [if_pos h0] at h ⊢
        cases h
        exact ⟨0, Or.inr rfl, wrote_nil _ _⟩
      rw [if_neg h0] at h ⊢
      rw [List.flatMap_cons]
      generalize blockRound data limit s = r at h hlen hdest' hwrote hreturn ⊢
      obtain ⟨_ | ret', u⟩ := r
      · obtain ⟨k, hret, hrest⟩ := ih hdest' h
        refine ⟨j + k, ?_, hwrote.append hrest⟩
        dsimp only at hlen hret
        rw [hlen] at hret
        rwa [← Nat.add_assoc]
      · cases h
        refine ⟨j, ?_, ?_⟩
        · dsimp only at hlen hreturn
          rw [← hlen]
          exact hreturn _ rfl
        · rw [List.flatMap_nil, List.append_nil]
          exact hwrote

/-- A block of the stream is written behind the output, which its length is added to. -/
theorem streamRound_wrote {data : Mem} {len buf : ℕ} {s t : StreamState} {ret : Option ℤ}
    (h : streamRound data len (some buf) s = some (ret, t)) :
    ∃ k : ℕ, Wrote (buf + s.outLen.toNat) k s.mem t.mem (streamRoundLog data len (some buf) s) ∧
      (ret = none → t.outLen = s.outLen + k) ∧ ∀ r, ret = some r → r < 0 := by
  unfold streamRound at h
  unfold streamRoundLog
  dsimp only [blockDest, Option.map_some] at h ⊢
  by_cases hc : lznt1BlockCompressed (data.word s.offset 2) = true
  · rw [if_pos hc] at h ⊢
    obtain ⟨⟨bret, b⟩, hb, hr⟩ := Option.map_eq_some_iff.mp h
    obtain ⟨k, hbret, hwrote⟩ := blockLoop_wrote _ rfl hb
    dsimp only at hr
    by_cases hneg : bret < 0
    · rw [if_pos hneg] at hr
      cases hr
      exact ⟨k, hwrote, nofun, fun r hr => Option.some.inj hr ▸ hneg⟩
    · rw [if_neg hneg] at hr
      cases hr
      refine ⟨k, hwrote, fun _ => ?_, nofun⟩
      dsimp only at hbret ⊢
      omega
  · rw [if_neg hc] at h ⊢
    by_cases hover : blockLimit data s > len
    · rw [if_pos hover] at h ⊢
      cases h
      exact ⟨0, wrote_nil _ _, nofun, fun r hr => Option.some.inj hr ▸ by omega⟩
    · rw [if_neg hover] at h ⊢
      cases h
      exact ⟨_, ⟨fills_copyLog _ _ _ _, (replay_copyLog _ _ _ _ _).symm⟩, fun _ => rfl, nofun⟩

/-- In front of a block nothing is written. -/
theorem streamExit_mem {data : Mem} {len : ℕ} {s t : StreamState} {ret : ℤ}
    (h : streamExit data len s = some (ret, t)) :
    t.mem = s.mem ∧ (ret = -1 ∨ ret = s.outLen) := by
  unfold streamExit at h
  split_ifs at h
  · cases h
    exact ⟨rfl, Or.inr rfl⟩
  · cases h
    exact ⟨rfl, Or.inr rfl⟩
  · cases h
    exact ⟨rfl, Or.inl rfl⟩

/-- The blocks are written one behind the other. -/
theorem streamLoop_wrote {data : Mem} {len buf : ℕ} (fuel : ℕ) {s t : StreamState} {ret : ℤ}
    (hout : 0 ≤ s.outLen) (h : streamLoop data len (some buf) fuel s = some (ret, t)) :
    ∃ k : ℕ, (ret < 0 ∨ ret = s.outLen + k) ∧
      Wrote (buf + s.outLen.toNat) k s.mem t.mem
        ((streamRounds data len (some buf) fuel s).flatMap
          (streamRoundLog data len (some buf))) := by
  induction fuel generalizing s with
  | zero => cases h
  | succ fuel ih =>
      rw [streamLoop_succ] at h
      rw [streamRounds]
      cases hexit : streamExit data len s with
      | some r =>
          rw [hexit] at h
          cases h
          obtain ⟨hmem, hret⟩ := streamExit_mem hexit
          refine ⟨0, by omega, ?_⟩
          rw [hmem]
          exact wrote_nil _ _
      | none =>
          rw [hexit] at h
          dsimp only at h ⊢
          rw [List.flatMap_cons]
          cases hround : streamRound data len (some buf) s with
          | none =>
              rw [hround] at h
              cases h
          | some r =>
              obtain ⟨j, hwrote, hnone, hsome⟩ := streamRound_wrote hround
              rw [hround] at h
              obtain ⟨_ | ret', u⟩ := r
              · have hlen : u.outLen = s.outLen + j := hnone rfl
                have hdest : buf + u.outLen.toNat = buf + s.outLen.toNat + j := by omega
                obtain ⟨k, hret, hrest⟩ := ih (by omega) h
                rw [hdest] at hrest
                exact ⟨j + k, by omega, hwrote.append hrest⟩
              · cases h
                refine ⟨j, Or.inl (hsome _ rfl), ?_⟩
                dsimp only
                rw [List.flatMap_nil, List.append_nil]
                exact hwrote

/-- With a buffer, as much of it is filled as the value returned says.
Source: libnt/lznt1.c, lznt1_decompress -/
theorem lznt1Decompress_wrote {data : Mem} {len buf n : ℕ} {mem : Mem} {t : StreamState}
    (h : lznt1Decompress data len (some buf) mem = some ((n : ℤ), t)) :
    Wrote buf n mem t.mem (lznt1Log data len (some buf) mem) := by
  obtain ⟨k, hret, hwrote⟩ := streamLoop_wrote _ (by exact le_rfl) h
  have hk : n = k := by
    rcases hret with hneg | hret
    · omega
    · dsimp only at hret
      omega
  rw [hk]
  exact hwrote

end Ntloader.Lznt1
