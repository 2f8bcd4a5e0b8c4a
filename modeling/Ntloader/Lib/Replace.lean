import Ntloader.Lib.Memory

/-!
# Replacing a pattern in place

A scan over a memory that replaces every occurrence of a pattern by another one of the same length,
in the memory that it is scanning.

* `replaceAt`, `replaceScan` — a step of the scan, and the scan.
* `Separable` — a pattern whose first byte stands nowhere else in it, nor in its replacement.
* `replaceScan_spec` — the scan replaces the occurrences that were there, and nothing else.
* `Replaced.not_holds` — no occurrence is left among the places that were scanned.
-/

namespace Ntloader.Lib

/-- Replace a pattern if it stands at an address. -/
def replaceAt (src dst : List UInt8) (m : Mem) (a : ℕ) : Mem :=
  if m.bytes a src.length = src then m.store a dst else m

/-- Replace a pattern at `n` addresses, one behind the other. -/
def replaceScan (src dst : List UInt8) (m : Mem) (p n : ℕ) : Mem :=
  (List.range n).foldl (fun m o => replaceAt src dst m (p + o)) m

/-- A pattern and its replacement are of the same length and start with the same byte, which stands
nowhere else in them. -/
structure Separable (src dst : List UInt8) : Prop where
  length : dst.length = src.length
  pos : 0 < src.length
  ne : dst ≠ src
  head : dst.getD 0 0 = src.getD 0 0
  src_tail : ∀ j < src.length, 0 < j → src.getD j 0 ≠ src.getD 0 0
  dst_tail : ∀ j < src.length, 0 < j → dst.getD j 0 ≠ src.getD 0 0

/-- The occurrences at `n` addresses of a memory have been replaced, and no other byte has changed. -/
structure Replaced (src dst : List UInt8) (p n : ℕ) (m m' : Mem) : Prop where
  places : ∀ o < n, m.bytes (p + o) src.length = src → m'.bytes (p + o) src.length = dst
  frame : ∀ x, (∀ o < n, m.bytes (p + o) src.length = src → x < p + o ∨ p + o + src.length ≤ x) →
    m' x = m x

section Replace

variable {src dst : List UInt8} {p n : ℕ} {m m' : Mem}

/-- A byte of a pattern that stands at an address. -/
theorem apply_of_bytes {bs : List UInt8} {a k j : ℕ} (h : m.bytes a k = bs) (hj : j < k) :
    m (a + j) = bs.getD j 0 := by
  rw [← h, Mem.bytes_getD hj]

/-- No occurrence reaches into a place behind it where the pattern starts. -/
theorem Replaced.apart (hsep : Separable src dst) (h : Replaced src dst p n m m') {q : ℕ}
    (hq : m.bytes (p + q) src.length = src ∨ m'.bytes (p + q) src.length = src) {o : ℕ} (ho : o < n)
    (hoq : o < q) (hocc : m.bytes (p + o) src.length = src) : o + src.length ≤ q := by
  by_contra hlt
  have hpos := hsep.pos
  rcases hq with hq | hq
  · have h₁ := apply_of_bytes hq hpos
    have h₂ := apply_of_bytes (j := q - o) hocc (by omega)
    rw [Nat.add_zero] at h₁
    rw [show p + o + (q - o) = p + q by omega, h₁] at h₂
    exact hsep.src_tail _ (by omega) (by omega) h₂.symm
  · have h₁ := apply_of_bytes hq hpos
    have h₂ := apply_of_bytes (j := q - o) (h.places o ho hocc) (by omega)
    rw [Nat.add_zero] at h₁
    rw [show p + o + (q - o) = p + q by omega, h₁] at h₂
    exact hsep.dst_tail _ (by omega) (by omega) h₂.symm

/-- Behind the places that have been scanned an occurrence is one of the old memory. -/
theorem Replaced.holds_iff (hsep : Separable src dst) (h : Replaced src dst p n m m') {q : ℕ}
    (hq : n ≤ q) :
    m'.bytes (p + q) src.length = src ↔ m.bytes (p + q) src.length = src := by
  have hsame : (m.bytes (p + q) src.length = src ∨ m'.bytes (p + q) src.length = src) →
      m'.bytes (p + q) src.length = m.bytes (p + q) src.length := by
    intro hocc
    apply Mem.bytes_congr
    intro i hi
    refine h.frame _ fun o ho hold => Or.inr ?_
    have hapart := h.apart hsep hocc ho (by omega) hold
    omega
  constructor
  · intro hocc
    rw [← hsame (.inr hocc)]
    exact hocc
  · intro hocc
    rw [hsame (.inl hocc)]
    exact hocc

/-- A step of the scan. -/
theorem Replaced.step (hsep : Separable src dst) (h : Replaced src dst p n m m') :
    Replaced src dst p (n + 1) m (replaceAt src dst m' (p + n)) := by
  have hlength := hsep.length
  rw [replaceAt]
  by_cases hocc : m.bytes (p + n) src.length = src
  · rw [if_pos ((h.holds_iff hsep le_rfl).mpr hocc)]
    refine ⟨fun o ho hold => ?_, fun x hx => ?_⟩
    · rcases Nat.lt_succ_iff_lt_or_eq.mp ho with ho | rfl
      · have hapart := h.apart hsep (.inl hocc) ho ho hold
        rw [Mem.bytes_store_of_disjoint _ (by omega)]
        exact h.places o ho hold
      · rw [← hlength, Mem.bytes_store_self]
    · rw [Mem.store_of_not_mem]
      · exact h.frame x fun o ho hold => hx o (by omega) hold
      · rw [hlength]
        exact hx n (Nat.lt_succ_self n) hocc
  · rw [if_neg (fun h' => hocc ((h.holds_iff hsep le_rfl).mp h'))]
    refine ⟨fun o ho hold => ?_, fun x hx => ?_⟩
    · rcases Nat.lt_succ_iff_lt_or_eq.mp ho with ho | rfl
      · exact h.places o ho hold
      · exact absurd hold hocc
    · exact h.frame x fun o ho hold => hx o (by omega) hold

/-- **The scan** replaces the occurrences that were there, and nothing else. -/
theorem replaceScan_spec (hsep : Separable src dst) (m : Mem) (p n : ℕ) :
    Replaced src dst p n m (replaceScan src dst m p n) := by
  induction n with
  | zero => exact ⟨fun o ho => absurd ho (Nat.not_lt_zero o), fun x _ => rfl⟩
  | succ n ih =>
      rw [replaceScan, List.range_succ, List.foldl_append]
      exact ih.step hsep

/-- No occurrence is left among the places that have been scanned. -/
theorem Replaced.not_holds (hsep : Separable src dst) (h : Replaced src dst p n m m') {o : ℕ}
    (ho : o < n) : m'.bytes (p + o) src.length ≠ src := by
  intro hnew
  have hold : m.bytes (p + o) src.length = src := by
    refine Eq.trans (Mem.bytes_congr fun i hi => ?_) hnew
    refine (h.frame _ fun o' ho' hocc => ?_).symm
    rcases lt_trichotomy o' o with hlt | rfl | hgt
    · have hapart := h.apart hsep (.inr hnew) ho' hlt hocc
      omega
    · rw [h.places o' ho hocc] at hnew
      exact absurd hnew hsep.ne
    · -- an occurrence that starts behind this one starts behind its end
      by_contra hin
      have h₁ := apply_of_bytes (h.places o' ho' hocc) hsep.pos
      have h₂ := apply_of_bytes (j := o' - o) hnew (by omega)
      rw [Nat.add_zero] at h₁
      rw [show p + o + (o' - o) = p + o' by omega, h₁, hsep.head] at h₂
      exact hsep.src_tail _ (by omega) (by omega) h₂.symm
  rw [h.places o ho hold] at hnew
  exact hsep.ne hnew

end Replace

end Ntloader.Lib
