import Ntloader.Lib.Moves
import Ntloader.Posix.Memory

/-!
# Moving memory areas

The other copies of posix/string.c: of areas that overlap, and those of the 64-bit ARM build. Each of
them moves an area in pieces, and is proved by the order of its pieces.

* `memcpyReverse`, `memmove` — the BIOS build, in a 32-bit address space in which pointers wrap.
* `memmove_eq_copy`, `memmove_spec` — the result is that of moving the area at once, wherever the two
  areas are.
* `memcpyAarch64` — the ARM build: single bytes, or pairs of registers with the destination aligned.
* `memcpyAarch64_eq_copy` — it copies areas of every length and alignment.
-/

namespace Ntloader.Posix

open Ntloader.Lib

/-! ## The BIOS build -/

/-- The address in front of an address. -/
def inFront (a : ℕ) : ℕ := if a = 0 then 2 ^ 32 - 1 else a - 1

/-- `rep movsb` with the direction flag set.
Source: posix/string.c, memcpy_reverse -/
def repMovsbDown : ℕ → Mem → ℕ → ℕ → Mem
  | 0, m, _, _ => m
  | n + 1, m, edi, esi =>
      repMovsbDown n (m.store edi (m.bytes esi 1)) (inFront edi) (inFront esi)

/-- Copy memory area backwards.
Source: posix/string.c, memcpy_reverse -/
def memcpyReverse (m : Mem) (dest src len : ℕ) : Mem :=
  repMovsbDown len m (inFront ((dest + len) % 2 ^ 32)) (inFront ((src + len) % 2 ^ 32))

/-- Copy (possibly overlapping) memory area.
Source: posix/string.c, memmove -/
def memmove (m : Mem) (dest src len : ℕ) : Mem :=
  if dest ≤ src then memcpy m dest src len else memcpyReverse m dest src len

section Pieces

variable {dest src : ℕ}

/-- The items of a string instruction are pieces of one size. -/
theorem repMovs_eq_moveAll {size n off : ℕ} (m : Mem) (hsize : 0 < size)
    (hdest : dest + off + n * size ≤ 2 ^ 32) (hsrc : src + off + n * size ≤ 2 ^ 32) :
    repMovs size n m (dest + off) (src + off) = Mem.moveAll dest src m (ascending size n off) := by
  induction n generalizing m off with
  | zero => rfl
  | succ n ih =>
      rw [Nat.succ_mul] at hdest hsrc
      rw [repMovs, ascending, Mem.moveAll_cons, Mem.copy_eq_store]
      by_cases hn : n = 0
      · rw [hn, repMovs, ascending, Mem.moveAll_nil]
      · have hrest : 0 < n * size := Nat.mul_pos (Nat.pos_of_ne_zero hn) hsize
        rw [Nat.mod_eq_of_lt (by omega), Nat.mod_eq_of_lt (by omega), Nat.add_assoc dest,
          Nat.add_assoc src, ih _ (by omega) (by omega)]

/-- Dwords for bulk, then bytes for remainder. -/
theorem memcpy_eq_moveAll {len : ℕ} (m : Mem) (hdest : dest + len ≤ 2 ^ 32)
    (hsrc : src + len ≤ 2 ^ 32) :
    memcpy m dest src len =
      Mem.moveAll dest src m (ascending 4 (len / 4) 0 ++ ascending 1 (len % 4) (len / 4 * 4)) := by
  have hbulk : repMovs 4 (len / 4) m dest src = Mem.moveAll dest src m (ascending 4 (len / 4) 0) :=
    @repMovs_eq_moveAll dest src 4 (len / 4) 0 m (by omega) (by omega) (by omega)
  rw [memcpy, hbulk, Mem.moveAll_append]
  by_cases hbytes : len % 4 = 0
  · rw [hbytes]
    rfl
  · rw [Nat.mod_eq_of_lt (show dest + len / 4 * 4 < 2 ^ 32 by omega),
      Nat.mod_eq_of_lt (show src + len / 4 * 4 < 2 ^ 32 by omega),
      repMovs_eq_moveAll _ Nat.one_pos (by omega) (by omega)]

/-- The pieces are in order, and cover the area. -/
theorem memcpy_pieces (len : ℕ) :
    let pieces := ascending 4 (len / 4) 0 ++ ascending 1 (len % 4) (len / 4 * 4)
    pieces.Pairwise (fun p q => p.1 + p.2 ≤ q.1) ∧ Covers pieces len := by
  constructor
  · refine List.pairwise_append.mpr ⟨ascending_pairwise _ _ _, ascending_pairwise _ _ _, ?_⟩
    intro p hp q hq
    have hbulk := mem_ascending hp
    have hbytes := mem_ascending hq
    omega
  · intro i
    constructor
    · rintro ⟨p, hp, h⟩
      rcases List.mem_append.mp hp with hp | hp
      · have := mem_ascending hp
        omega
      · have := mem_ascending hp
        omega
    · intro hi
      by_cases hbulk : i < len / 4 * 4
      · obtain ⟨p, hp, h⟩ := @exists_mem_ascending 4 (len / 4) 0 i (by omega) (by omega)
        exact ⟨p, List.mem_append_left _ hp, h⟩
      · obtain ⟨p, hp, h⟩ := @exists_mem_ascending 1 (len % 4) (len / 4 * 4) i (by omega) (by omega)
        exact ⟨p, List.mem_append_right _ hp, h⟩

/-- The address in front of another. -/
theorem inFront_add {a n : ℕ} (h : a + (n + 1) ≤ 2 ^ 32) :
    inFront ((a + (n + 1)) % 2 ^ 32) = a + n := by
  rw [inFront]
  split <;> omega

/-- The bytes from the last one on. -/
theorem repMovsbDown_eq_moveAll {n : ℕ} (m : Mem) (hdest : dest + n ≤ 2 ^ 32)
    (hsrc : src + n ≤ 2 ^ 32) :
    repMovsbDown n m (inFront ((dest + n) % 2 ^ 32)) (inFront ((src + n) % 2 ^ 32)) =
      Mem.moveAll dest src m (descending n) := by
  induction n generalizing m with
  | zero => rfl
  | succ n ih =>
      have hd : inFront (dest + n) = inFront ((dest + n) % 2 ^ 32) := by
        rw [Nat.mod_eq_of_lt (by omega)]
      have hs : inFront (src + n) = inFront ((src + n) % 2 ^ 32) := by
        rw [Nat.mod_eq_of_lt (by omega)]
      rw [repMovsbDown, inFront_add hdest, inFront_add hsrc, hd, hs, ih _ (by omega) (by omega),
        descending, Mem.moveAll_cons, Mem.copy_eq_store]

end Pieces

/-- Whichever of the two copies it is, the result is that of moving the area at once. -/
theorem memmove_eq_copy {dest src len : ℕ} (m : Mem) (hdest : dest + len ≤ 2 ^ 32)
    (hsrc : src + len ≤ 2 ^ 32) : memmove m dest src len = m.copy dest m src len := by
  rw [memmove]
  by_cases hle : dest ≤ src
  · obtain ⟨horder, hcovers⟩ := memcpy_pieces len
    rw [if_pos hle, memcpy_eq_moveAll m hdest hsrc]
    exact Mem.moveAll_eq_copy (clear_of_ascending horder hle) hcovers m
  · rw [if_neg hle, memcpyReverse, repMovsbDown_eq_moveAll m hdest hsrc]
    exact Mem.moveAll_eq_copy (clear_of_descending (descending_pairwise len) (by omega))
      (descending_covers len) m

/-- **Overlapping areas are moved as if at once**: behind the call the destination holds what the
source held in front of it, and nothing else has changed.
Source: posix/string.c, memmove -/
theorem memmove_spec {dest src len : ℕ} (m : Mem) (hdest : dest + len ≤ 2 ^ 32)
    (hsrc : src + len ≤ 2 ^ 32) (x : ℕ) :
    memmove m dest src len x =
      if dest ≤ x ∧ x < dest + len then m (src + (x - dest)) else m x := by
  rw [memmove_eq_copy m hdest hsrc, Mem.copy_apply]

/-- Ten bytes are moved by three, both ways. -/
theorem memmove_spec_ten :
    let m := Mem.ofList ((List.range 13).map UInt8.ofNat)
    memmove m 3 0 10 12 = m 9 ∧ memmove m 0 3 10 0 = m 3 :=
  ⟨memmove_spec _ (by norm_num) (by norm_num) 12, memmove_spec _ (by norm_num) (by norm_num) 0⟩

/-! ## The ARM build -/

/-- `ldrb` and `strb`, from the last byte down to the first.
Source: posix/string.c, memcpy for aarch64, `copy individual bytes` -/
def copyBytesDown : ℕ → Mem → ℕ → ℕ → Mem
  | 0, m, _, _ => m
  | off + 1, m, dest, src =>
      copyBytesDown off
        (m.store ((dest + off) % 2 ^ 64) (m.bytes ((src + off) % 2 ^ 64) 1)) dest src

/-- `ldp` and `stp`: a pair of registers is loaded, and stored.
Source: posix/string.c, memcpy for aarch64 -/
def ldpStp (m : Mem) (dest src : ℕ) : Mem := m.store dest (m.bytes src 16)

/-- The loop until the destination is at the end. `none` if it goes on.
Source: posix/string.c, memcpy for aarch64, `cmp` and `bne` -/
def ldpStpLoop : ℕ → Mem → ℕ → ℕ → ℕ → Option Mem
  | 0, _, _, _, _ => none
  | fuel + 1, m, dest, src, stop =>
      if dest = stop then some m
      else ldpStpLoop fuel (ldpStp m dest src) ((dest + 16) % 2 ^ 64) ((src + 16) % 2 ^ 64) stop

/-- Copy memory area: one initial potentially unaligned access, multiple destination-aligned accesses,
one final potentially unaligned access.
Source: posix/string.c, memcpy for aarch64 -/
def memcpyAarch64 (fuel : ℕ) (m : Mem) (dest src len : ℕ) : Option Mem :=
  if len < 16 then some (copyBytesDown len m dest src)
  else
    let m := ldpStp m dest src
    let dest' := (dest + 16) % 2 ^ 64
    let src' := (src + 16) % 2 ^ 64
    let low := dest' % 16
    let stop := (dest + len) % 2 ^ 64 / 16 * 16
    (ldpStpLoop fuel m ((dest' + 2 ^ 64 - low) % 2 ^ 64) ((src' + 2 ^ 64 - low) % 2 ^ 64) stop).map
      fun m => ldpStp m ((dest + len + (2 ^ 64 - 16)) % 2 ^ 64) ((src + len + (2 ^ 64 - 16)) % 2 ^ 64)

section Aarch64

variable {dest src len : ℕ}

/-- The loop from the end moves single bytes downwards. -/
theorem copyBytesDown_eq_moveAll {n : ℕ} (m : Mem) (hdest : dest + n ≤ 2 ^ 64)
    (hsrc : src + n ≤ 2 ^ 64) :
    copyBytesDown n m dest src = Mem.moveAll dest src m (descending n) := by
  induction n generalizing m with
  | zero => rfl
  | succ n ih =>
      rw [copyBytesDown, Nat.mod_eq_of_lt (show dest + n < 2 ^ 64 by omega),
        Nat.mod_eq_of_lt (show src + n < 2 ^ 64 by omega), ih _ (by omega) (by omega), descending,
        Mem.moveAll_cons, Mem.copy_eq_store]

/-- The loop moves pieces of sixteen bytes, and stops at an end that is a number of them away. -/
theorem ldpStpLoop_eq_moveAll {n off fuel : ℕ} (m : Mem) (hdest : dest + off + n * 16 < 2 ^ 64)
    (hsrc : src + off + n * 16 < 2 ^ 64) (hfuel : n < fuel) :
    ldpStpLoop fuel m (dest + off) (src + off) (dest + off + n * 16) =
      some (Mem.moveAll dest src m (ascending 16 n off)) := by
  induction n generalizing m off fuel with
  | zero =>
      obtain ⟨fuel, rfl⟩ : ∃ k, fuel = k + 1 := ⟨fuel - 1, by omega⟩
      rw [ldpStpLoop, if_pos (by omega)]
      rfl
  | succ n ih =>
      obtain ⟨fuel, rfl⟩ : ∃ k, fuel = k + 1 := ⟨fuel - 1, by omega⟩
      rw [ldpStpLoop, if_neg (by omega), Nat.mod_eq_of_lt (by omega), Nat.mod_eq_of_lt (by omega),
        show dest + off + (n + 1) * 16 = dest + (off + 16) + n * 16 by omega, Nat.add_assoc dest,
        Nat.add_assoc src, ih _ (by omega) (by omega) (by omega), ascending, Mem.moveAll_cons,
        Mem.copy_eq_store, ldpStp]

/-- The pieces of a copy by pairs of registers; the aligned ones begin at an offset, and there are so
many of them. -/
def pairPieces (len off n : ℕ) : List (ℕ × ℕ) :=
  (0, 16) :: (ascending 16 n off ++ [(len - 16, 16)])

/-- They cover the area. -/
theorem pairPieces_covers {off n : ℕ} (hlen : 16 ≤ len) (hlow : off ≤ 16)
    (hend : off + n * 16 ≤ len) (hrest : len ≤ off + n * 16 + 16) :
    Covers (pairPieces len off n) len := by
  intro i
  constructor
  · rintro ⟨p, hp, h⟩
    rcases List.mem_cons.mp hp with rfl | hp
    · simp only at h
      omega
    · rcases List.mem_append.mp hp with hp | hp
      · have := mem_ascending hp
        omega
      · rw [List.mem_singleton.mp hp] at h
        simp only at h
        omega
  · intro hi
    by_cases hfirst : i < 16
    · exact ⟨(0, 16), List.mem_cons_self, by simp only; omega, by simp only; omega⟩
    · by_cases hlast : len - 16 ≤ i
      · exact ⟨(len - 16, 16), by simp [pairPieces], hlast, by simp only; omega⟩
      · obtain ⟨p, hp, h⟩ := @exists_mem_ascending 16 n off i (by omega) (by omega)
        exact ⟨p, List.mem_cons_of_mem _ (List.mem_append_left _ hp), h⟩

end Aarch64

/-- **The ARM build copies as the BIOS build does.** Areas of every length and alignment that do not
overlap: the loop ends, behind the call the destination holds what the source held, and nothing else
has changed.
Source: posix/string.c, memcpy for aarch64 -/
theorem memcpyAarch64_eq_copy {dest src len : ℕ} (m : Mem) (hdest : dest + len < 2 ^ 64)
    (hsrc : src + len < 2 ^ 64) (hapart : dest + len ≤ src ∨ src + len ≤ dest) {fuel : ℕ}
    (hfuel : len / 16 < fuel) :
    memcpyAarch64 fuel m dest src len = some (m.copy dest m src len) := by
  rw [memcpyAarch64]
  by_cases hshort : len < 16
  · rw [if_pos hshort, copyBytesDown_eq_moveAll m (by omega) (by omega)]
    congr 1
    exact Mem.moveAll_eq_copy (clear_of_apart (fun p hp => by have := mem_descending hp; omega) hapart)
      (descending_covers len) m
  · rw [if_neg hshort]
    -- The aligned pieces begin where the first piece ends, or less than a piece in front of there.
    set low := (dest + 16) % 16
    set n := ((dest + len) / 16 * 16 - (dest + 16 - low)) / 16
    have hn : dest + (16 - low) + n * 16 = (dest + len) / 16 * 16 := by omega
    have hcovers : Covers (pairPieces len (16 - low) n) len :=
      pairPieces_covers (by omega) (by omega) (by omega) (by omega)
    have hclear : Clear dest src (pairPieces len (16 - low) n) := by
      apply clear_of_apart _ hapart
      intro p hp
      rcases List.mem_cons.mp hp with rfl | hp
      · simp only
        omega
      · rcases List.mem_append.mp hp with hp | hp
        · have := mem_ascending hp
          omega
        · rw [List.mem_singleton.mp hp]
          simp only
          omega
    have hmod : ∀ a, a < 2 ^ 64 → a % 2 ^ 64 = a := fun a ha => Nat.mod_eq_of_lt ha
    simp only [hmod (dest + 16) (by omega), hmod (src + 16) (by omega), hmod (dest + len) hdest]
    rw [show (dest + 16 + 2 ^ 64 - low) % 2 ^ 64 = dest + (16 - low) by omega,
      show (src + 16 + 2 ^ 64 - low) % 2 ^ 64 = src + (16 - low) by omega, ← hn,
      ldpStpLoop_eq_moveAll _ (by omega) (by omega) (by omega), Option.map_some,
      show (dest + len + (2 ^ 64 - 16)) % 2 ^ 64 = dest + (len - 16) by omega,
      show (src + len + (2 ^ 64 - 16)) % 2 ^ 64 = src + (len - 16) by omega,
      ← Mem.moveAll_eq_copy hclear hcovers m, pairPieces, Mem.moveAll_cons, Mem.moveAll_append,
      Mem.moveAll_cons, Mem.moveAll_nil, ldpStp, ldpStp, Mem.copy_eq_store, Mem.copy_eq_store]
    rfl

/-- Forty bytes to an address that is not aligned. -/
theorem memcpyAarch64_eq_copy_forty :
    let m := Mem.ofList ((List.range 140).map UInt8.ofNat)
    memcpyAarch64 3 m 5 100 40 = some (m.copy 5 m 100 40) :=
  memcpyAarch64_eq_copy _ (by norm_num) (by norm_num) (by norm_num) (by norm_num)

end Ntloader.Posix
