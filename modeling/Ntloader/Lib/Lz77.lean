import Ntloader.Lib.Memory

/-!
# LZ77 tokens and their expansion

* `Token`, `expand`, `expandAll` — literals and back-references, and the bytes they produce. A
  back-reference may overlap its own output, so it is copied one byte at a time (`copyRun`).
* `AllAt` — a property of tokens that depends on what was produced before them.
* `copyLoop` — the C loop `while (n--) *(dst++) = *(src++)`.
* `copyLoop_store` — behind the output produced so far the loop writes exactly the expansion.
* `Access` — what a decompressor touches: a read of its input, or a back-reference together with
  the number of bytes produced when it was taken.
-/

namespace Ntloader.Lib

/-- A token of an LZ77 stream. -/
inductive Token where
  /-- One byte as it is. -/
  | lit (b : UInt8)
  /-- `len` bytes starting `dist` bytes back. -/
  | backref (dist len : ℕ)
  deriving Repr, DecidableEq

/-- An access of a decompressor. -/
inductive Access where
  /-- The `n` input bytes at `off` were read. -/
  | read (off n : ℕ)
  /-- Output was copied from `dist` bytes back, with `produced` bytes to go back over. -/
  | backref (dist produced : ℕ)
  deriving Repr, DecidableEq

/-- The number of bytes a token produces. -/
def Token.size : Token → ℕ
  | .lit _ => 1
  | .backref _ len => len

/-- Append `n` bytes, each the one `dist` back. -/
def copyRun (dist : ℕ) : ℕ → List UInt8 → List UInt8
  | 0, out => out
  | n + 1, out => copyRun dist n (out ++ [out.getD (out.length - dist) 0])

/-- The output after one more token. -/
def expand (out : List UInt8) : Token → List UInt8
  | .lit b => out ++ [b]
  | .backref dist len => copyRun dist len out

/-- The output of a token sequence, from what was produced before. -/
def expandFrom (out : List UInt8) (toks : List Token) : List UInt8 := toks.foldl expand out

/-- The output of a token sequence. -/
def expandAll (toks : List Token) : List UInt8 := expandFrom [] toks

/-- A run of `n` bytes makes the output `n` bytes longer. -/
@[simp] theorem copyRun_length (dist n : ℕ) (out : List UInt8) :
    (copyRun dist n out).length = out.length + n := by
  induction n generalizing out with
  | zero => rfl
  | succ n ih =>
      rw [copyRun, ih]
      simp only [List.length_append, List.length_singleton]
      omega

/-- A token makes it longer by its size. -/
@[simp] theorem expand_length (out : List UInt8) (t : Token) :
    (expand out t).length = out.length + t.size := by
  cases t <;> simp [expand, Token.size]

/-- Equation lemma: no tokens. -/
@[simp] theorem expandFrom_nil (out : List UInt8) : expandFrom out [] = out := rfl

/-- Equation lemma: the first token is expanded first. -/
@[simp] theorem expandFrom_cons (out : List UInt8) (t : Token) (toks : List Token) :
    expandFrom out (t :: toks) = expandFrom (expand out t) toks := rfl

/-- Sequences of tokens are expanded one behind the other. -/
theorem expandFrom_append (out : List UInt8) (xs ys : List Token) :
    expandFrom out (xs ++ ys) = expandFrom (expandFrom out xs) ys := List.foldl_append

/-- The number of bytes a token sequence produces. -/
def sizeSum (toks : List Token) : ℕ := (toks.map Token.size).sum

/-- Equation lemma: no tokens have no size. -/
@[simp] theorem sizeSum_nil : sizeSum [] = 0 := rfl

/-- Equation lemma: the first token and the others. -/
@[simp] theorem sizeSum_cons (t : Token) (toks : List Token) :
    sizeSum (t :: toks) = t.size + sizeSum toks := by simp [sizeSum]

/-- The size of two sequences. -/
@[simp] theorem sizeSum_append (xs ys : List Token) :
    sizeSum (xs ++ ys) = sizeSum xs + sizeSum ys := by simp [sizeSum]

/-- Tokens make the output longer by their sizes. -/
@[simp] theorem expandFrom_length (out : List UInt8) (toks : List Token) :
    (expandFrom out toks).length = out.length + sizeSum toks := by
  induction toks generalizing out with
  | nil => simp
  | cons t toks ih =>
      rw [expandFrom_cons, ih, expand_length, sizeSum_cons]
      omega

/-- Every token satisfies `P` of the number of bytes produced before it. -/
def AllAt (P : ℕ → Token → Prop) : ℕ → List Token → Prop
  | _, [] => True
  | p, t :: toks => P p t ∧ AllAt P (p + t.size) toks

/-- What holds at every token of two sequences holds at those of both. -/
theorem allAt_append {P : ℕ → Token → Prop} {p : ℕ} {xs ys : List Token} :
    AllAt P p (xs ++ ys) ↔ AllAt P p xs ∧ AllAt P (p + sizeSum xs) ys := by
  induction xs generalizing p with
  | nil => simp [AllAt]
  | cons t xs ih => simp only [List.cons_append, AllAt, ih, sizeSum_cons, and_assoc, add_assoc]

/-! ## The copy loop -/

/-- `while (n--) *(dst++) = *(src++)`, within one memory. -/
def copyLoop (m : Mem) (dst src : ℕ) : ℕ → Mem
  | 0 => m
  | n + 1 => copyLoop (Function.update m dst (m src)) (dst + 1) (src + 1) n

/-- One byte written behind a stored list extends it. -/
theorem update_store_append (m : Mem) (a : ℕ) (bs : List UInt8) (b : UInt8) :
    Function.update (m.store a bs) (a + bs.length) b = m.store a (bs ++ [b]) := by
  rw [Mem.store_append]
  funext x
  by_cases hx : x = a + bs.length
  · subst hx
    rw [Function.update_self, Mem.store_of_mem _ le_rfl (by simp)]
    simp
  · rw [Function.update_of_ne hx, Mem.store_of_not_mem (m.store a bs)
      (by simp only [List.length_singleton]; omega)]

/-- **The copy loop expands a back-reference.** Behind the output `out` stored at `a`, the loop
stores the output continued by the back-reference, and writes nothing else. -/
theorem copyLoop_store (m : Mem) (a : ℕ) {dist : ℕ} (n : ℕ) (out : List UInt8) (h1 : 0 < dist)
    (hle : dist ≤ out.length) :
    copyLoop (m.store a out) (a + out.length) (a + out.length - dist) n =
      m.store a (copyRun dist n out) := by
  induction n generalizing out with
  | zero => rfl
  | succ n ih =>
      have hread : m.store a out (a + out.length - dist) = out.getD (out.length - dist) 0 := by
        rw [Mem.store_of_mem _ (by omega) (by omega)]
        congr 1
        omega
      have hnext := ih (out ++ [out.getD (out.length - dist) 0])
        (by simp only [List.length_append, List.length_singleton]; omega)
      rw [List.length_append, List.length_singleton] at hnext
      rw [copyLoop, hread, update_store_append, copyRun, ← hnext]
      congr 1
      omega

end Ntloader.Lib
