import Ntloader.Lib.Memory

/-!
# Memory areas

The routines of posix/string.c on memory areas, in a 32-bit address space in which pointers wrap.

* `repMovs`, `memcpy`, `memset` — the loops.
* `memcpy_eq_copy`, `memset_eq_fill` — what they do to areas that neither wrap nor overlap.

Scope: the routines of the BIOS build.
-/

namespace Ntloader.Posix

open Ntloader.Lib

/-- A string instruction: `n` items of a size are moved.
Source: posix/string.c, memcpy, `rep movsl` and `rep movsb` -/
def repMovs (size : ℕ) : ℕ → Mem → ℕ → ℕ → Mem
  | 0, m, _, _ => m
  | n + 1, m, edi, esi =>
      repMovs size n (m.store edi (m.bytes esi size)) ((edi + size) % 2 ^ 32) ((esi + size) % 2 ^ 32)

/-- Copy memory area: dwords for bulk, then bytes for remainder.
Source: posix/string.c, memcpy -/
def memcpy (m : Mem) (dest src len : ℕ) : Mem :=
  let bulk := len / 4 * 4
  repMovs 1 (len % 4) (repMovs 4 (len / 4) m dest src) ((dest + bulk) % 2 ^ 32)
    ((src + bulk) % 2 ^ 32)

/-- Set memory area.
Source: posix/string.c, memset -/
def memset (c : UInt8) : ℕ → Mem → ℕ → Mem
  | 0, m, _ => m
  | len + 1, m, bytes => memset c len (Function.update m bytes c) ((bytes + 1) % 2 ^ 32)

/-- Items moved one behind the other are moved at once. -/
theorem repMovs_eq_copy {size n dest src : ℕ} (m : Mem) (hsize : 0 < size)
    (hdest : dest + n * size ≤ 2 ^ 32) (hsrc : src + n * size ≤ 2 ^ 32)
    (hdisj : dest + n * size ≤ src ∨ src + n * size ≤ dest) :
    repMovs size n m dest src = m.copy dest m src (n * size) := by
  induction n generalizing m dest src with
  | zero => rw [repMovs, Nat.zero_mul, Mem.copy_zero]
  | succ n ih =>
      rw [Nat.succ_mul] at hdest hsrc hdisj
      rw [repMovs, ← Mem.copy_eq_store]
      by_cases hn : n = 0
      · rw [hn, repMovs, Nat.zero_add, Nat.one_mul]
      · have hrest : 0 < n * size := Nat.mul_pos (Nat.pos_of_ne_zero hn) hsize
        rw [Nat.mod_eq_of_lt (by omega), Nat.mod_eq_of_lt (by omega),
          ih _ (by omega) (by omega) (by omega)]
        -- The source of the rest has not been written.
        rw [@Mem.copy_congr _ m _ (src + size) _ _ _ fun i hi =>
          Mem.copy_of_not_mem _ _ _ (by omega), Mem.copy_copy_append, Nat.succ_mul, Nat.add_comm size]

/-- A copy between areas apart is a copy, -/
theorem memcpy_eq_copy {dest src len : ℕ} (m : Mem) (hdest : dest + len ≤ 2 ^ 32)
    (hsrc : src + len ≤ 2 ^ 32) (hdisj : dest + len ≤ src ∨ src + len ≤ dest) :
    memcpy m dest src len = m.copy dest m src len := by
  have hlen : len / 4 * 4 + len % 4 = len := Nat.div_add_mod' len 4
  rw [memcpy, repMovs_eq_copy m (by omega) (by omega) (by omega) (by omega)]
  by_cases hbytes : len % 4 = 0
  · rw [hbytes, repMovs]
    congr 1
    omega
  · rw [Nat.mod_eq_of_lt (show dest + len / 4 * 4 < 2 ^ 32 by omega),
      Nat.mod_eq_of_lt (show src + len / 4 * 4 < 2 ^ 32 by omega),
      repMovs_eq_copy _ (by omega) (by omega) (by omega) (by omega), Nat.mul_one,
      @Mem.copy_congr _ m _ (src + len / 4 * 4) _ _ _ fun i hi =>
        Mem.copy_of_not_mem _ _ _ (by omega), Mem.copy_copy_append, hlen]

/-- and a setting is one, if nothing wraps around. -/
theorem memset_eq_fill {bytes len : ℕ} (m : Mem) (c : UInt8) (h : bytes + len ≤ 2 ^ 32) :
    memset c len m bytes = m.fill bytes c len := by
  induction len generalizing m bytes with
  | zero =>
      funext x
      rw [memset, Mem.fill_apply, if_neg (by omega)]
  | succ len ih =>
      rw [memset]
      by_cases hlen : len = 0
      · rw [hlen, memset]
        funext x
        rw [Mem.fill_apply]
        by_cases hx : x = bytes
        · rw [hx, Function.update_self, if_pos (by omega)]
        · rw [Function.update_of_ne hx, if_neg (by omega)]
      · rw [Nat.mod_eq_of_lt (by omega), ih _ (by omega)]
        funext x
        rw [Mem.fill_apply, Mem.fill_apply]
        by_cases hx : x = bytes
        · rw [hx, Function.update_self, if_neg (by omega), if_pos (by omega)]
        · rw [Function.update_of_ne hx]
          congr 1
          apply propext
          omega

end Ntloader.Posix
