import Ntloader.Vdisk.Files

/-!
# Building sectors: boot records, FAT and file data

The builders of libnt/vdisk.c, the directories apart. A builder writes to the memory `m` that the
data buffer at address `data` is in.

* `vdiskMbr`, `vdiskVbr`, `vdiskFsinfo` — one fixed sector each: cleared, then its fields are set.
* `vdiskFat` — a window of the FAT; `vdiskFile` — a window of a file.
-/

namespace Ntloader.Vdisk

open Ntloader.Lib

/-- Set the fields of a packed structure, each given by its offset, its size and its value. -/
def setFields (data : ℕ) (fields : List (ℕ × ℕ × ℕ)) (m : Mem) : Mem :=
  fields.foldl (fun m f => m.putWord (data + f.1) f.2.1 f.2.2) m

/-- The fields of the virtual Master Boot Record.
Source: libnt/vdisk.c, vdisk_mbr; include/vdisk.h, struct vdisk_mbr -/
def mbrFields : List (ℕ × ℕ × ℕ) :=
  [(446, 1, 0x80), -- partitions[0].bootable = VDISK_MBR_BOOTABLE
   (450, 1, 0x0c), -- partitions[0].type = VDISK_MBR_TYPE_FAT32
   (454, 4, vdiskPartitionLba), -- partitions[0].start
   (458, 4, vdiskPartitionCount), -- partitions[0].length
   (440, 4, 0x14530529), -- signature = VDISK_MBR_SIGNATURE
   (510, 2, 0xaa55)] -- magic = VDISK_MBR_MAGIC

/-- Read from virtual Master Boot Record.
Source: libnt/vdisk.c, vdisk_mbr -/
def vdiskMbr (data : ℕ) (m : Mem) : Mem := setFields data mbrFields (m.fill data 0 512)

/-- The fields of the virtual Volume Boot Record, its texts as little-endian numbers.
Source: libnt/vdisk.c, vdisk_vbr; include/vdisk.h, struct vdisk_vbr -/
def vbrFields : List (ℕ × ℕ × ℕ) :=
  [(0, 1, 0xe9), -- jump[0] = VDISK_VBR_JUMP_WTF_MS
   (3, 8, 0x00746f6f626d6977), -- oemid = VDISK_VBR_OEMID, "wimboot"
   (11, 2, vdiskSectorSize), -- bytes_per_sector
   (13, 1, vdiskClusterCount), -- sectors_per_cluster
   (14, 2, vdiskReservedCount), -- reserved_sectors
   (16, 1, 1), -- fats
   (21, 1, 0xf8), -- media = VDISK_VBR_MEDIA
   (24, 2, vdiskSectorsPerTrack), -- sectors_per_track
   (26, 2, vdiskHeads), -- heads
   (28, 4, vdiskVbrLba), -- hidden_sectors
   (32, 4, vdiskPartitionCount), -- sectors
   (36, 4, vdiskSectorsPerFat), -- sectors_per_fat
   (44, 4, vdiskRootCluster), -- root
   (48, 2, vdiskFsinfoSector), -- fsinfo
   (50, 2, vdiskBackupVbrSector), -- backup
   (66, 1, 0x29), -- signature = VDISK_VBR_SIGNATURE
   (67, 4, 0xdeadc0de), -- serial = VDISK_VBR_SERIAL
   (71, 11, 0x002020726564616f6c746e), -- label = VDISK_VBR_LABEL, "ntloader  "
   (82, 8, 0x2020203233544146), -- system = VDISK_VBR_SYSTEM, "FAT32   "
   (510, 2, 0xaa55)] -- magic = VDISK_VBR_MAGIC

/-- Read from virtual Volume Boot Record.
Source: libnt/vdisk.c, vdisk_vbr -/
def vdiskVbr (data : ℕ) (m : Mem) : Mem := setFields data vbrFields (m.fill data 0 512)

/-- The fields of the virtual FSInfo.
Source: libnt/vdisk.c, vdisk_fsinfo; include/vdisk.h, struct vdisk_fsinfo -/
def fsinfoFields : List (ℕ × ℕ × ℕ) :=
  [(0, 4, 0x41615252), -- magic1 = VDISK_FSINFO_MAGIC1
   (484, 4, 0x61417272), -- magic2 = VDISK_FSINFO_MAGIC2
   (492, 4, 0xffffffff), -- next_free = VDISK_FSINFO_NEXT_FREE
   (508, 4, 0xaa550000)] -- magic3 = VDISK_FSINFO_MAGIC3

/-- Read from virtual FSInfo.
Source: libnt/vdisk.c, vdisk_fsinfo -/
def vdiskFsinfo (data : ℕ) (m : Mem) : Mem := setFields data fsinfoFields (m.fill data 0 512)

/-- The last cluster of a file, as `vdisk_fat` computes it in 32 bits. The length of an empty file
wraps around in `size_t`.
Source: libnt/vdisk.c, vdisk_fat, `file_end_marker` -/
def fileEndMarker (arch : Arch) (t : VdiskFiles) (i : ℕ) : ℕ :=
  (vdiskFileCluster i + ((t.get i).xlen + arch.ulong - 1) % arch.ulong / vdiskClusterSize) % 2 ^ 32

/-- Read from virtual FAT.
Source: libnt/vdisk.c, vdisk_fat -/
def vdiskFat (arch : Arch) (t : VdiskFiles) (lba count data : ℕ) (m : Mem) : Mem :=
  -- Calculate window within FAT
  let start := ((lba - vdiskFatLba) * (vdiskSectorSize / 4)) % 2 ^ 32
  let stop := (start + count * (vdiskSectorSize / 4)) % 2 ^ 32
  -- Start by marking each cluster as chaining to the next
  let m := m.putWords data ((List.range' start (stop - start)).map (· + 1))
  -- Add first-sector special values, if applicable
  let m := if start = 0 then
      (m.putWord data 4 ((vdiskFatEndMarker &&& (0xffffffff - 0xff)) ||| 0xf8)).putWords (data + 4)
        (List.replicate (vdiskSectorSize / 4 - 1) vdiskFatEndMarker)
    else m
  -- Add end-of-file markers, if applicable
  (List.range vdiskMaxFiles).foldl (fun m i =>
    if (t.get i).read.isSome ∧ start ≤ fileEndMarker arch t i ∧ fileEndMarker arch t i < stop then
      m.putWord (data + 4 * (fileEndMarker arch t i - start)) 4 vdiskFatEndMarker
    else m) m

/-- Run an optional method. -/
def callMethod (method : Option Method) (file : VdiskFile) (data offset len : ℕ) (m : Mem) : Mem :=
  match method with
  | some f => f file.opaqueToken data offset len m
  | none => m

/-- Read from virtual file (or empty space). The offset is narrowed to a `size_t`, the length to an
`unsigned int`.
Source: libnt/vdisk.c, vdisk_file -/
def vdiskFile (arch : Arch) (t : VdiskFiles) (lba count data : ℕ) (m : Mem) : Mem :=
  -- Construct file portion
  let file := t.get (lba / vdiskFileCount - 1)
  let offset := vdiskFileOffset lba % arch.ulong
  let len := count * vdiskSectorSize % 2 ^ 32
  -- Copy any initialised-data portion
  let copyLen := min (if offset < file.len then file.len - offset else 0) len
  let m := if copyLen ≠ 0 then callMethod file.read file data offset copyLen m else m
  -- Zero any uninitialised-data portion
  let m := m.fill (data + copyLen) 0 (len - copyLen)
  -- Patch any applicable portion
  let patchLen := min (if offset < file.xlen then file.xlen - offset else 0) len
  callMethod file.patch file data offset patchLen m

end Ntloader.Vdisk
