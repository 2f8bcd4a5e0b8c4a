import Ntloader.Lib.Lz77

/-!
# Logs of writes

The bytes that a routine writes, in the order in which it does, each with its address. Replaying the
log on the memory the routine has found gives the memory that it leaves.

* `WriteLog`, `Mem.replay` — a log and its effect.
* `copyLoopLog` — the log of `copyLoop`; `copyLog` — that of a `memcpy`.
* `Fills` — a log that writes a run of addresses one after the other; `Wrote` — and what it does to
  a memory.
-/

namespace Ntloader.Lib

/-- Bytes and the addresses they are written to, first write first. -/
abbrev WriteLog := List (ℕ × UInt8)

/-- The memory behind the writes. -/
def Mem.replay (m : Mem) (log : WriteLog) : Mem :=
  log.foldl (fun m w => Function.update m w.1 w.2) m

/-- Equation lemma: no writes. -/
@[simp] theorem Mem.replay_nil (m : Mem) : m.replay [] = m := rfl

/-- Equation lemma: the first write is made first. -/
@[simp] theorem Mem.replay_cons (m : Mem) (w : ℕ × UInt8) (log : WriteLog) :
    m.replay (w :: log) = Mem.replay (Function.update m w.1 w.2) log := rfl

/-- Logs one behind the other are replayed one behind the other. -/
theorem Mem.replay_append (m : Mem) (xs ys : WriteLog) :
    m.replay (xs ++ ys) = (m.replay xs).replay ys := List.foldl_append

/-- The log of `while (n--) *(dst++) = *(src++)`. -/
def copyLoopLog (m : Mem) (dst src : ℕ) : ℕ → WriteLog
  | 0 => []
  | n + 1 => (dst, m src) :: copyLoopLog (Function.update m dst (m src)) (dst + 1) (src + 1) n

/-- The log of a copy loop replays it. -/
theorem replay_copyLoopLog (m : Mem) (dst src n : ℕ) :
    m.replay (copyLoopLog m dst src n) = copyLoop m dst src n := by
  induction n generalizing m dst src with
  | zero => rfl
  | succ n ih => rw [copyLoopLog, Mem.replay_cons, ih, copyLoop]

/-- The log of `memcpy`, taken in the order of the addresses. -/
def copyLog (dst : ℕ) (src : Mem) (off n : ℕ) : WriteLog :=
  (List.range n).map fun i => (dst + i, src (off + i))

/-- The log of a copy replays it. -/
theorem replay_copyLog (m : Mem) (dst : ℕ) (src : Mem) (off n : ℕ) :
    m.replay (copyLog dst src off n) = m.copy dst src off n := by
  induction n with
  | zero => exact (m.copy_zero dst src off).symm
  | succ n ih =>
      rw [copyLog, List.range_succ, List.map_append, Mem.replay_append]
      rw [copyLog] at ih
      rw [ih, List.map_singleton, Mem.replay_cons, Mem.replay_nil, ← Mem.copy_copy_append]
      funext x
      by_cases hx : x = dst + n
      · rw [hx, Function.update_self, Mem.copy_of_mem _ _ _ le_rfl (Nat.lt_succ_self _), Nat.sub_self]
        rfl
      · rw [Function.update_of_ne hx]
        exact (Mem.copy_of_not_mem _ _ _ (by omega)).symm

/-- The log writes the `k` addresses from `dst` on, each once, in increasing order. -/
def Fills (dst k : ℕ) (log : WriteLog) : Prop := log.map Prod.fst = List.range' dst k

/-- No write fills no bytes. -/
theorem fills_nil (dst : ℕ) : Fills dst 0 [] := rfl

/-- One write fills one byte. -/
theorem fills_singleton (dst : ℕ) (b : UInt8) : Fills dst 1 [(dst, b)] := rfl

/-- Two runs of writes, the second where the first ends, fill both ranges. -/
theorem Fills.append {dst j k : ℕ} {xs ys : WriteLog} (hx : Fills dst j xs)
    (hy : Fills (dst + j) k ys) : Fills dst (j + k) (xs ++ ys) := by
  unfold Fills at hx hy ⊢
  rw [List.map_append, hx, hy, List.range'_append_1]

/-- A copy loop writes each byte of its range once, in ascending order. -/
theorem fills_copyLoopLog (m : Mem) (dst src n : ℕ) : Fills dst n (copyLoopLog m dst src n) := by
  induction n generalizing m dst src with
  | zero => exact fills_nil dst
  | succ n ih =>
      unfold Fills at ih ⊢
      rw [copyLoopLog, List.map_cons, ih, List.range'_succ]

/-- So does a copy. -/
theorem fills_copyLog (dst : ℕ) (src : Mem) (off n : ℕ) : Fills dst n (copyLog dst src off n) := by
  unfold Fills copyLog
  rw [List.map_map, List.range'_eq_map_range]
  rfl

/-- What a routine has done to a memory: it has filled the `k` addresses from `dst` on, and the log
says with what. -/
structure Wrote (dst k : ℕ) (m m' : Mem) (log : WriteLog) : Prop where
  /-- Where it has written. -/
  fills : Fills dst k log
  /-- There is no other write. -/
  replay : m' = m.replay log

/-- Nothing written is no write. -/
theorem wrote_nil (dst : ℕ) (m : Mem) : Wrote dst 0 m m [] := ⟨fills_nil dst, rfl⟩

/-- What is written in two parts is written as a whole. -/
theorem Wrote.append {dst j k : ℕ} {m₁ m₂ m₃ : Mem} {xs ys : WriteLog} (hx : Wrote dst j m₁ m₂ xs)
    (hy : Wrote (dst + j) k m₂ m₃ ys) : Wrote dst (j + k) m₁ m₃ (xs ++ ys) := by
  refine ⟨hx.fills.append hy.fills, ?_⟩
  rw [hy.replay, hx.replay, Mem.replay_append]

end Ntloader.Lib
