import Mathlib.Tactic
import Ntloader.Lib.Loop

/-!
# Division for 32-bit processors

The compiler's runtime function for the division of 64-bit numbers: the divisor is shifted until its
top bit is set, and then subtracted where it can be while it is shifted back.

* `udivmoddi4` — posix/libgcc.c, __udivmoddi4.
* `udivmoddi4_eq` — the quotient and the remainder are those of the numbers, and no round loses a bit
  that matters.
-/

namespace Ntloader.Posix

open Ntloader.Lib

/-- The variables of the division.
Source: posix/libgcc.c, __udivmoddi4 -/
structure Udivmod where
  num : ℕ
  den : ℕ
  quot : ℕ
  qbit : ℕ
  deriving DecidableEq

namespace Udivmod

/-- The top bit of the denominator is not set.
Source: posix/libgcc.c, __udivmoddi4, `(int64_t) den >= 0` -/
def unjustified (s : Udivmod) : Bool := s.den < 2 ^ 63

/-- Left-justify denominator and count shift.
Source: posix/libgcc.c, __udivmoddi4 -/
def justify (s : Udivmod) : Udivmod :=
  { s with den := s.den <<< 1 % 2 ^ 64, qbit := s.qbit <<< 1 % 2 ^ 64 }

/-- There is a bit of the quotient left.
Source: posix/libgcc.c, __udivmoddi4, `while (qbit)` -/
def unfinished (s : Udivmod) : Bool := s.qbit ≠ 0

/-- Source: posix/libgcc.c, __udivmoddi4 -/
def subtract (s : Udivmod) : Udivmod :=
  let s := if s.den ≤ s.num then
      { s with num := s.num - s.den, quot := (s.quot + s.qbit) % 2 ^ 64 }
    else s
  { s with den := s.den >>> 1, qbit := s.qbit >>> 1 }

end Udivmod

/-- The quotient and the remainder. `none` if the denominator is zero, which is divided by, or if the
loops have not ended.
Source: posix/libgcc.c, __udivmoddi4 -/
def udivmoddi4 (fuel num den : ℕ) : Option (ℕ × ℕ) :=
  if den = 0 then none
  else do
    let s ← whileLoop Udivmod.unjustified Udivmod.justify fuel ⟨num, den, 0, 1⟩
    let s ← whileLoop Udivmod.unfinished Udivmod.subtract fuel s
    return (s.quot, s.num)

/-- The rounds of the first loop. -/
def justifyRounds (fuel num den : ℕ) : List Udivmod :=
  whileRounds Udivmod.unjustified Udivmod.justify fuel ⟨num, den, 0, 1⟩

/-- The rounds of the second loop. -/
def subtractRounds (fuel num den : ℕ) : List Udivmod :=
  match whileLoop Udivmod.unjustified Udivmod.justify fuel ⟨num, den, 0, 1⟩ with
  | some s => whileRounds Udivmod.unfinished Udivmod.subtract fuel s
  | none => []

/-- The shifts of a round of the first loop lose nothing. -/
def Udivmod.JustifyKeeps (s : Udivmod) : Prop := s.den * 2 < 2 ^ 64 ∧ s.qbit * 2 < 2 ^ 64

/-- The sum of a round of the second loop loses nothing, nor do its shifts, but for the last ones. -/
def Udivmod.SubtractKeeps (s : Udivmod) : Prop :=
  (s.den ≤ s.num → s.quot + s.qbit < 2 ^ 64) ∧ (s.qbit ≠ 1 → 2 ∣ s.den ∧ 2 ∣ s.qbit)

/-! ## The first loop -/

/-- The denominator has been shifted `k` times, and can be shifted `n` times more. -/
def Justified (num den n : ℕ) (s : Udivmod) : Prop :=
  ∃ k, k + n = 63 ∧ den * 2 ^ k < 2 ^ 64 ∧ s = ⟨num, den * 2 ^ k, 0, 2 ^ k⟩

/-- A number that has been shifted `k` times has no fewer bits than that. -/
theorem lt_of_mul_two_pow_lt {den k m : ℕ} (hden : 0 < den) (h : den * 2 ^ k < 2 ^ m) : k < m := by
  have hle : 2 ^ k ≤ den * 2 ^ k := Nat.le_mul_of_pos_left _ hden
  exact (Nat.pow_lt_pow_iff_right (by norm_num)).mp (hle.trans_lt h)

/-- What a round shifts is below the top bit. -/
theorem Justified.keeps {num den n : ℕ} {s : Udivmod} (hden : 0 < den) (h : Justified num den n s)
    (hs : s.unjustified = true) : s.JustifyKeeps ∧ 0 < n := by
  obtain ⟨k, hk, hlt, rfl⟩ := h
  have htop : den * 2 ^ k < 2 ^ 63 := of_decide_eq_true hs
  have hk63 := lt_of_mul_two_pow_lt hden htop
  have hqbit : 2 ^ k < 2 ^ 63 := Nat.pow_lt_pow_right (by norm_num) hk63
  exact ⟨⟨by dsimp only; omega, by dsimp only; omega⟩, by omega⟩

/-- A round of the justification has fewer rounds left. -/
theorem Justified.justify {num den n : ℕ} {s : Udivmod} (hden : 0 < den)
    (h : Justified num den n s) (hs : s.unjustified = true) :
    ∃ m < n, Justified num den m s.justify := by
  obtain ⟨⟨hkeepd, hkeepq⟩, hn⟩ := h.keeps hden hs
  obtain ⟨k, hk, hlt, rfl⟩ := h
  refine ⟨n - 1, Nat.sub_one_lt hn.ne', k + 1, by omega, ?_, ?_⟩
  · rw [pow_succ, ← Nat.mul_assoc]
    exact hkeepd
  · unfold Udivmod.justify
    rw [Nat.shiftLeft_eq, Nat.shiftLeft_eq, pow_one, Nat.mod_eq_of_lt hkeepd,
      Nat.mod_eq_of_lt hkeepq, Nat.mul_assoc, ← pow_succ]

/-! ## The second loop -/

/-- A round that subtracts, -/
theorem Udivmod.subtract_of_le {s : Udivmod} (h : s.den ≤ s.num) :
    s.subtract =
      ⟨s.num - s.den, s.den / 2, (s.quot + s.qbit) % 2 ^ 64, s.qbit / 2⟩ := by
  rw [subtract, if_pos h]
  rfl

/-- and one that does not. -/
theorem Udivmod.subtract_of_not_le {s : Udivmod} (h : ¬s.den ≤ s.num) :
    s.subtract = ⟨s.num, s.den / 2, s.quot, s.qbit / 2⟩ := by
  rw [subtract, if_neg h]
  rfl

/-- With `k` bits of the quotient left, the multiples of the denominator with these bits in them have
been subtracted. -/
structure Subtracted (num den k : ℕ) (s : Udivmod) : Prop where
  den_eq : s.den = den * 2 ^ k / 2
  qbit_eq : s.qbit = 2 ^ k / 2
  num_eq : s.num = num % (den * 2 ^ k)
  quot_eq : s.quot = num / (den * 2 ^ k) * 2 ^ k

section Subtract

variable {num den k : ℕ} {s : Udivmod}

/-- The denominator in front of a round, -/
theorem Subtracted.den_succ (h : Subtracted num den (k + 1) s) : s.den = den * 2 ^ k := by
  rw [h.den_eq, pow_succ, ← Nat.mul_assoc, Nat.mul_div_cancel _ (by norm_num)]

/-- and the bit of the quotient. -/
theorem Subtracted.qbit_succ (h : Subtracted num den (k + 1) s) : s.qbit = 2 ^ k := by
  rw [h.qbit_eq, pow_succ, Nat.mul_div_cancel _ (by norm_num)]

/-- The part of the number that is left, by the next bit of the quotient. -/
theorem Subtracted.num_succ (h : Subtracted num den (k + 1) s) :
    s.num = num % (den * 2 ^ k) + den * 2 ^ k * (num / (den * 2 ^ k) % 2) := by
  rw [h.num_eq, pow_succ, ← Nat.mul_assoc, Nat.mod_mul]

/-- The quotient so far, by the one with the next bit. -/
theorem Subtracted.quot_succ (h : Subtracted num den (k + 1) s) :
    s.quot = num / (den * 2 ^ k) / 2 * 2 * 2 ^ k := by
  have hdiv : num / (den * 2 ^ (k + 1)) = num / (den * 2 ^ k) / 2 := by
    rw [Nat.div_div_eq_div_mul, pow_succ, Nat.mul_assoc]
  rw [h.quot_eq, hdiv, pow_succ, Nat.mul_assoc, Nat.mul_comm 2]

/-- The bit is set exactly where the denominator can be subtracted. -/
theorem Subtracted.den_le_num (hden : 0 < den) (h : Subtracted num den (k + 1) s) :
    s.den ≤ s.num ↔ num / (den * 2 ^ k) % 2 = 1 := by
  have hpos : 0 < den * 2 ^ k := Nat.mul_pos hden (Nat.two_pow_pos k)
  have hlt := Nat.mod_lt num hpos
  rw [h.den_succ, h.num_succ]
  rcases Nat.mod_two_eq_zero_or_one (num / (den * 2 ^ k)) with hbit | hbit
  · rw [hbit, Nat.mul_zero, Nat.add_zero]
    exact ⟨fun hle => absurd hle (Nat.not_le.mpr hlt), fun h01 => absurd h01 (by norm_num)⟩
  · rw [hbit, Nat.mul_one]
    exact ⟨fun _ => rfl, fun _ => Nat.le_add_left _ _⟩

/-- The quotient with its next bit. -/
theorem Subtracted.quot_add_qbit (hden : 0 < den) (h : Subtracted num den (k + 1) s)
    (hle : s.den ≤ s.num) : s.quot + s.qbit = num / (den * 2 ^ k) * 2 ^ k := by
  have hbit := (h.den_le_num hden).mp hle
  have hdiv := Nat.div_add_mod' (num / (den * 2 ^ k)) 2
  rw [hbit] at hdiv
  rw [h.quot_succ, h.qbit_succ, ← Nat.succ_mul, Nat.succ_eq_add_one, hdiv]

/-- A part of the quotient is not above the number. -/
theorem quot_le_num (hden : 0 < den) : num / (den * 2 ^ k) * 2 ^ k ≤ num := by
  have hle : num / (den * 2 ^ k) * 2 ^ k ≤ num / (den * 2 ^ k) * (den * 2 ^ k) :=
    Nat.mul_le_mul_left _ (Nat.le_mul_of_pos_left _ hden)
  exact hle.trans (Nat.div_mul_le_self num _)

/-- **No bit is lost in a round**, -/
theorem Subtracted.keeps (hden : 0 < den) (hnum : num < 2 ^ 64)
    (h : Subtracted num den (k + 1) s) : s.SubtractKeeps := by
  constructor
  · intro hle
    rw [h.quot_add_qbit hden hle]
    exact (quot_le_num hden).trans_lt hnum
  · intro hne
    rw [h.den_succ, h.qbit_succ] at *
    have hk : k ≠ 0 := fun hk => hne (by rw [hk, pow_zero])
    have hdvd : 2 ∣ 2 ^ k := dvd_pow_self 2 hk
    exact ⟨hdvd.mul_left den, hdvd⟩

/-- and one fewer is left. -/
theorem Subtracted.subtract (hden : 0 < den) (hnum : num < 2 ^ 64)
    (h : Subtracted num den (k + 1) s) : Subtracted num den k s.subtract := by
  have hkeeps := (h.keeps hden hnum).1
  have hnumk := h.num_succ
  have hquotk := h.quot_succ
  have hdiv := Nat.div_add_mod' (num / (den * 2 ^ k)) 2
  by_cases hle : s.den ≤ s.num
  · have hbit := (h.den_le_num hden).mp hle
    rw [hbit, Nat.mul_one] at hnumk
    rw [Udivmod.subtract_of_le hle]
    constructor
    · rw [h.den_succ]
    · rw [h.qbit_succ]
    · dsimp only
      rw [hnumk, h.den_succ, Nat.add_sub_cancel]
    · dsimp only
      rw [Nat.mod_eq_of_lt (hkeeps hle), h.quot_add_qbit hden hle]
  · have hbit : num / (den * 2 ^ k) % 2 = 0 :=
      (Nat.mod_two_eq_zero_or_one _).resolve_right fun h1 => hle ((h.den_le_num hden).mpr h1)
    rw [hbit, Nat.add_zero] at hdiv
    rw [hbit, Nat.mul_zero, Nat.add_zero] at hnumk
    rw [hdiv] at hquotk
    rw [Udivmod.subtract_of_not_le hle]
    constructor
    · rw [h.den_succ]
    · rw [h.qbit_succ]
    · exact hnumk
    · exact hquotk

/-- A bit of the quotient is left exactly while there are rounds left. -/
theorem Subtracted.unfinished_iff (h : Subtracted num den k s) : s.unfinished = true ↔ k ≠ 0 := by
  have hiff : s.unfinished = true ↔ s.qbit ≠ 0 := decide_eq_true_iff
  cases k with
  | zero =>
      rw [hiff, h.qbit_eq]
      exact ⟨fun h0 => absurd rfl h0, fun h0 => absurd rfl h0⟩
  | succ k =>
      rw [hiff, h.qbit_succ]
      exact ⟨fun _ => Nat.succ_ne_zero k, fun _ => (Nat.two_pow_pos k).ne'⟩

end Subtract

/-! ## The division -/

/-- The first loop ends with the denominator justified, and its rounds lose nothing. -/
theorem justifyLoop_eq {num den fuel : ℕ} (hden : 0 < den) (hden64 : den < 2 ^ 64)
    (hfuel : 64 ≤ fuel) :
    (∃ k ≤ 63, 2 ^ 63 ≤ den * 2 ^ k ∧
      whileLoop Udivmod.unjustified Udivmod.justify fuel ⟨num, den, 0, 1⟩ =
        some ⟨num, den * 2 ^ k, 0, 2 ^ k⟩) ∧
    ∀ s ∈ justifyRounds fuel num den, s.JustifyKeeps := by
  have hstart : Justified num den 63 ⟨num, den, 0, 1⟩ := by
    refine ⟨0, Nat.zero_add 63, ?_, ?_⟩
    · rwa [pow_zero, Nat.mul_one]
    · rw [pow_zero, Nat.mul_one]
  obtain ⟨⟨s, n, hloop, ⟨k, hk, -, rfl⟩, hend⟩, hrounds⟩ :=
    whileLoop_rule (fun _ _ h hs => h.justify hden hs) hstart hfuel
  refine ⟨⟨k, by omega, ?_, hloop⟩, ?_⟩
  · exact Nat.not_lt.mp (of_decide_eq_false hend)
  · intro s hs
    obtain ⟨n, hinv, hcond⟩ := hrounds s hs
    exact (hinv.keeps hden hcond).1

/-- The second loop ends with the quotient and the remainder, and its rounds lose nothing. -/
theorem subtractLoop_eq {num den k fuel : ℕ} (hden : 0 < den) (hnum : num < 2 ^ 64)
    (hk : k ≤ 63) (htop : 2 ^ 63 ≤ den * 2 ^ k) (hfuel : 65 ≤ fuel) :
    (∃ s, whileLoop Udivmod.unfinished Udivmod.subtract fuel ⟨num, den * 2 ^ k, 0, 2 ^ k⟩ = some s ∧
      s.quot = num / den ∧ s.num = num % den) ∧
    ∀ s ∈ whileRounds Udivmod.unfinished Udivmod.subtract fuel ⟨num, den * 2 ^ k, 0, 2 ^ k⟩,
      s.SubtractKeeps := by
  have hlt : num < den * 2 ^ (k + 1) := by
    rw [pow_succ, ← Nat.mul_assoc]
    omega
  have hstart : Subtracted num den (k + 1) ⟨num, den * 2 ^ k, 0, 2 ^ k⟩ := by
    constructor
    · rw [pow_succ, ← Nat.mul_assoc, Nat.mul_div_cancel _ (by norm_num)]
    · rw [pow_succ, Nat.mul_div_cancel _ (by norm_num)]
    · exact (Nat.mod_eq_of_lt hlt).symm
    · rw [Nat.div_eq_of_lt hlt, Nat.zero_mul]
  have hbody (n : ℕ) (s : Udivmod) (h : Subtracted num den n s) (hs : s.unfinished = true) :
      ∃ m < n, Subtracted num den m s.subtract := by
    obtain ⟨m, rfl⟩ := Nat.exists_eq_succ_of_ne_zero (h.unfinished_iff.mp hs)
    exact ⟨m, Nat.lt_succ_self m, h.subtract hden hnum⟩
  have hlen : k + 1 < fuel := by omega
  obtain ⟨⟨s, n, hloop, hinv, hend⟩, hrounds⟩ := whileLoop_rule hbody hstart hlen
  refine ⟨⟨s, hloop, ?_⟩, ?_⟩
  · have hn : n = 0 := by
      by_contra hn
      exact Bool.false_ne_true (hend.symm.trans (hinv.unfinished_iff.mpr hn))
    rw [hinv.quot_eq, hinv.num_eq, hn, pow_zero, Nat.mul_one, Nat.mul_one]
    exact ⟨rfl, rfl⟩
  · intro s hs
    obtain ⟨n, hinv, hcond⟩ := hrounds s hs
    obtain ⟨m, rfl⟩ := Nat.exists_eq_succ_of_ne_zero (hinv.unfinished_iff.mp hcond)
    exact hinv.keeps hden hnum

/-- The division ends with the quotient and the remainder, and no round loses a bit that matters. -/
theorem udivmoddi4_eq {num den fuel : ℕ} (hnum : num < 2 ^ 64) (hden : 0 < den)
    (hden64 : den < 2 ^ 64) (hfuel : 65 ≤ fuel) :
    udivmoddi4 fuel num den = some (num / den, num % den) ∧
      (∀ s ∈ justifyRounds fuel num den, s.JustifyKeeps) ∧
      ∀ s ∈ subtractRounds fuel num den, s.SubtractKeeps := by
  obtain ⟨⟨k, hk, htop, hloop₁⟩, hkeeps₁⟩ :=
    @justifyLoop_eq num den fuel hden hden64 ((by norm_num : 64 ≤ 65).trans hfuel)
  obtain ⟨⟨s, hloop₂, hquot, hrem⟩, hkeeps₂⟩ := subtractLoop_eq hden hnum hk htop hfuel
  refine ⟨?_, hkeeps₁, ?_⟩
  · rw [udivmoddi4, if_neg hden.ne', hloop₁]
    show (whileLoop _ _ fuel _).bind _ = _
    rw [hloop₂, ← hquot, ← hrem]
    rfl
  · rw [subtractRounds, hloop₁]
    exact hkeeps₂

end Ntloader.Posix
