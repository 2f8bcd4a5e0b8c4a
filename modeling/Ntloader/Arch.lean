import Mathlib.Data.Nat.Notation
import Mathlib.Tactic

/-!
# The builds

The types `unsigned long` and `size_t` have the width of the build. Code that computes in them takes
the build as a parameter where the width can matter.
-/

namespace Ntloader

/-- The builds: `unsigned long` and `size_t` of 32 or of 64 bits. -/
inductive Arch where
  /-- The BIOS build and 32-bit UEFI. -/
  | i386
  /-- 64-bit UEFI. -/
  | x86_64
  deriving Repr, DecidableEq

/-- Number of values of `unsigned long` and of `size_t`. -/
@[simp] def Arch.ulong : Arch → ℕ
  | .i386 => 2 ^ 32
  | .x86_64 => 2 ^ 64

/-- A long has 32 bits at least. -/
theorem Arch.ulong_ge (arch : Arch) : 2 ^ 32 ≤ arch.ulong := by
  cases arch <;> norm_num

end Ntloader
