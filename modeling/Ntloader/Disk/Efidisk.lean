import Ntloader.Lib.Memory

/-!
# EFI disks

A disk is read in its blocks by the Block IO protocol of the firmware.

* `BlockIo`, `isUsable` — a protocol, and the ones that are taken.
* `efidiskRead` — disk/efidisk.c.
* `BlockIo.Reads` — what the firmware promises.

Scope: the pages of the buffer are left out, and so is the handle of the device.
-/

namespace Ntloader.Disk

open Ntloader.Lib

/-- Source: include/efi/Protocol/BlockIo.h, EFI_BLOCK_IO_MEDIA -/
structure BlockIoMedia where
  mediaId : ℕ
  readOnly : Bool
  blockSize : ℕ
  deriving DecidableEq

/-- A protocol with its media. `readBlocks` reads a number of bytes from a block on, for a media; it
has a result if it is successful.
Source: include/efi/Protocol/BlockIo.h, EFI_BLOCK_IO_PROTOCOL -/
structure BlockIo where
  media : BlockIoMedia
  readBlocks : ℕ → ℕ → ℕ → Option Mem

/-- Whether a device is taken: not the stub of iPXE, and with blocks of a power of two.
Source: disk/efidisk.c, make_devices -/
def isUsable (media : BlockIoMedia) : Bool :=
  ¬(media.mediaId = 0x69505845 ∧ media.blockSize = 1) ∧
    ¬(media.blockSize &&& (media.blockSize - 1) ≠ 0 ∨ media.blockSize < 512)

/-- The pages of a buffer.
Source: include/ntloader.h, BYTES_TO_PAGES -/
def bytesToPages (bytes : ℕ) : ℕ := (bytes + 0xfff) >>> 12

/-- The buffer for a number of bytes from a sector on, which is a block of the device.
Source: disk/efidisk.c, efidisk_read -/
def efidiskRead (bio : BlockIo) (sector len : ℕ) : Option Mem :=
  (bio.readBlocks bio.media.mediaId sector (bytesToPages len <<< 12)).map fun mem =>
    Mem.zero.copy 0 mem 0 len

/-- The firmware reads the bytes of a disk. -/
def BlockIo.Reads (bio : BlockIo) (disk : Mem) : Prop :=
  ∀ lba size mem, bio.readBlocks bio.media.mediaId lba size = some mem →
    ∀ k < size, mem k = disk (lba * bio.media.blockSize + k)

/-- A usable device has blocks of 512 bytes times a power of two. -/
theorem isUsable_blockSize {media : BlockIoMedia} (h : isUsable media = true) :
    ∃ e, media.blockSize = 512 * 2 ^ e := by
  simp only [isUsable, decide_eq_true_eq, not_or, not_not, not_lt] at h
  obtain ⟨-, hpow, hle⟩ := h
  obtain ⟨k, hk⟩ := (Nat.and_sub_one_eq_zero_iff_isPowerOfTwo (by omega)).mp hpow
  have hexp : 9 ≤ k := by
    refine (Nat.pow_le_pow_iff_right (Nat.lt_succ_self 1)).mp ?_
    rw [← hk]
    exact hle
  refine ⟨k - 9, ?_⟩
  rw [hk, show 512 = 2 ^ 9 from rfl, ← pow_add, Nat.add_sub_cancel' hexp]

/-- A read gives the bytes of the disk from the block on. -/
theorem BlockIo.Reads.efidiskRead {bio : BlockIo} {disk : Mem} (h : bio.Reads disk)
    {sector len : ℕ} {buf : Mem} (hread : efidiskRead bio sector len = some buf) {k : ℕ}
    (hk : k < len) : buf k = disk (sector * bio.media.blockSize + k) := by
  obtain ⟨mem, hmem, rfl⟩ := Option.map_eq_some_iff.mp hread
  have hsize : len ≤ bytesToPages len <<< 12 := by
    rw [bytesToPages, Nat.shiftLeft_eq, Nat.shiftRight_eq_div_pow]
    omega
  rw [Mem.copy_apply, if_pos ⟨Nat.zero_le _, by omega⟩, Nat.zero_add, Nat.sub_zero]
  exact h _ _ _ hmem k (hk.trans_le hsize)

end Ntloader.Disk
