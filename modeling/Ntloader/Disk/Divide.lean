import Ntloader.Disk.Biosdisk
import Ntloader.Posix.Libgcc

/-!
# The two divisions

The disk code divides numbers of 64 bits itself; in other code the compiler calls its runtime
function where the processor has 32 bits.

* `dividers_exact` — both give the quotient and the remainder, for every divisor but zero.
-/

namespace Ntloader.Disk

open Ntloader.Posix

/-- A round of the division shifts the quotient and the remainder without loss. -/
theorem divmod64Loop_keeps {n d bits : ℕ} (hn : n < 2 ^ 64) (hd : 0 < d) (hbits : bits < 64) :
    (divmod64Loop d bits n 0 0).1 * 2 + 1 < 2 ^ 64 ∧
      (divmod64Loop d bits n 0 0).2 * 2 + 1 < 2 ^ 64 := by
  have hsub : 64 - bits = 63 - bits + 1 := by omega
  obtain ⟨hq, hm⟩ := @divmod_lt n (63 - bits) hn d
  rw [divmod64Loop_start hn hd hbits.le, hsub]
  exact ⟨by dsimp only; omega, by dsimp only; omega⟩

/-- Both divisions end with the quotient and the remainder, and lose no bit that matters on the
way. -/
theorem dividers_exact {n d : ℕ} (hn : n < 2 ^ 64) (hd : 0 < d) (hd64 : d < 2 ^ 64) :
    (divmod64 n d = (n / d, n % d) ∧
      ∀ bits < 64, (divmod64Loop d bits n 0 0).1 * 2 + 1 < 2 ^ 64 ∧
        (divmod64Loop d bits n 0 0).2 * 2 + 1 < 2 ^ 64) ∧
    ∀ fuel ≥ 65, udivmoddi4 fuel n d = some (n / d, n % d) ∧
      (∀ s ∈ justifyRounds fuel n d, s.JustifyKeeps) ∧
      ∀ s ∈ subtractRounds fuel n d, s.SubtractKeeps := by
  refine ⟨⟨divmod64_eq hn hd, ?_⟩, ?_⟩
  · intro bits hbits
    exact divmod64Loop_keeps hn hd hbits
  · intro fuel hfuel
    exact udivmoddi4_eq hn hd hd64 hfuel

/-- The greatest number divided by one above the half. -/
theorem dividers_exact_top :
    (divmod64 (2 ^ 64 - 1) (2 ^ 63 + 1) = (1, 2 ^ 63 - 2) ∧
      ∀ bits < 64, (divmod64Loop (2 ^ 63 + 1) bits (2 ^ 64 - 1) 0 0).1 * 2 + 1 < 2 ^ 64 ∧
        (divmod64Loop (2 ^ 63 + 1) bits (2 ^ 64 - 1) 0 0).2 * 2 + 1 < 2 ^ 64) ∧
    ∀ fuel ≥ 65, udivmoddi4 fuel (2 ^ 64 - 1) (2 ^ 63 + 1) = some (1, 2 ^ 63 - 2) ∧
      (∀ s ∈ justifyRounds fuel (2 ^ 64 - 1) (2 ^ 63 + 1), s.JustifyKeeps) ∧
      ∀ s ∈ subtractRounds fuel (2 ^ 64 - 1) (2 ^ 63 + 1), s.SubtractKeeps := by
  have h := @dividers_exact (2 ^ 64 - 1) (2 ^ 63 + 1) (by norm_num) (by norm_num) (by norm_num)
  have hdiv : (2 ^ 64 - 1) / (2 ^ 63 + 1) = 1 := by norm_num
  have hmod : (2 ^ 64 - 1) % (2 ^ 63 + 1) = 2 ^ 63 - 2 := by norm_num
  rwa [hdiv, hmod] at h

end Ntloader.Disk
