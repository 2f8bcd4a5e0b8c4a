import Ntloader.Vdisk.Files

/-!
# Building directory sectors

The directory builders of libnt/vdisk.c. A directory entry is a union of two packed structures of
32 bytes; entries are filled in from the last of a sector backwards, and a long-name record is taken
to be fresh if its attribute byte is not `VDISK_LFN_ATTR`.

* `vdiskEmptyDir`, `vdiskDirectoryEntry` — an empty sector, and one entry with its long name.
* `vdiskSubdirs` — the sector of subdirectories of each directory; `vdiskDirFiles` — the sectors of
  files, one for each file.

Scope: `char` is signed, as it is on x86.
-/

namespace Ntloader.Vdisk

open Ntloader.Lib

/-- Number of directory entries per sector.
Source: include/vdisk.h, VDISK_DIRENT_PER_SECTOR -/
@[simp] def vdiskDirentPerSector : ℕ := vdiskSectorSize / 32

/-- Magic marker for deleted files.
Source: include/vdisk.h, VDISK_DIRENT_DELETED -/
def vdiskDirentDeleted : UInt8 := 0xe5

/-- Long filename end-of-sequence marker.
Source: include/vdisk.h, VDISK_LFN_END -/
def vdiskLfnEnd : ℕ := 0x40

/-- Long filename attributes.
Source: include/vdisk.h, VDISK_LFN_ATTR -/
def vdiskLfnAttr : UInt8 := 0x01 ||| 0x02 ||| 0x04 ||| 0x08

/-- The attribute of a file.
Source: include/vdisk.h, VDISK_READ_ONLY -/
def vdiskReadOnly : ℕ := 0x01

/-- The attribute of a directory.
Source: include/vdisk.h, VDISK_DIRECTORY -/
def vdiskDirectory : ℕ := 0x10

/-- Initialise empty directory: all entries are present and deleted. The result is the starting
(i.e. final) directory entry.
Source: libnt/vdisk.c, vdisk_empty_dir -/
def vdiskEmptyDir (dir : ℕ) (m : Mem) : ℕ × Mem :=
  (dir + 32 * (vdiskDirentPerSector - 1),
    (List.range vdiskDirentPerSector).foldl (fun m i => m.store (dir + 32 * i) [vdiskDirentDeleted])
      (m.fill dir 0 vdiskSectorSize))

/-- The 8.3 filename record of an entry (with invalid 8.3 filename); its reserved byte and its date
of access are not set.
Source: libnt/vdisk.c, vdisk_directory_entry; include/vdisk.h, struct vdisk_short_filename -/
def putDos (dos len attr cluster : ℕ) (m : Mem) : Mem :=
  let m := m.fill dos 0x20 11
  let m := m.putWord (dos + 11) 1 attr
  let m := m.putWord (dos + 28) 4 len
  let m := m.putWord (dos + 20) 2 (cluster >>> 16)
  let m := m.putWord (dos + 26) 2 (cluster &&& 0xffff)
  let m := m.putWord (dos + 16) 2 0x2821
  let m := m.putWord (dos + 14) 2 0x0000
  let m := m.putWord (dos + 13) 1 0
  let m := m.putWord (dos + 24) 2 0x2821
  m.putWord (dos + 22) 2 0x0000

/-- Calculate checksum of 8.3 filename.
Source: libnt/vdisk.c, vdisk_directory_entry -/
def dosChecksum (raw : List UInt8) : UInt8 :=
  raw.foldl (fun checksum b => (((checksum &&& 1) <<< 7) ||| (checksum >>> 1)) + b) 0

/-- The offset of a character within a long filename record: five in `name_1`, six in `name_2`, two
in `name_3`.
Source: include/vdisk.h, struct vdisk_long_filename -/
def lfnOffset (slot : ℕ) : ℕ :=
  if slot < 5 then 1 + 2 * slot else if slot < 11 then 14 + 2 * (slot - 5) else 28 + 2 * (slot - 11)

/-- The 16-bit unit a character is stored as.
Source: libnt/vdisk.c, vdisk_directory_entry, `*lfn_char = c` -/
def lfnUnit (c : UInt8) : ℕ := if c < 0x80 then c.toNat else 0xff00 + c.toNat

/-- Initialise long filename.
Source: libnt/vdisk.c, vdisk_directory_entry -/
def initLfn (lfn sequence : ℕ) (checksum : UInt8) (m : Mem) : Mem :=
  let m := m.putWord lfn 1 sequence
  let m := m.fill (lfn + 1) 0xff 10
  let m := m.store (lfn + 11) [vdiskLfnAttr]
  let m := m.store (lfn + 13) [checksum]
  let m := m.fill (lfn + 14) 0xff 12
  m.fill (lfn + 28) 0xff 4

/-- Construct long filename record: the loop over the characters of `name`, from slot `slot` of the
record at `lfn` on. The result is the last record used, and the memory.
Source: libnt/vdisk.c, vdisk_directory_entry, `while (1)` -/
def lfnLoop (checksum : UInt8) : List UInt8 → ℕ → ℕ → ℕ → Mem → ℕ × Mem
  | name, lfn, slot, sequence, m =>
      let fresh := m (lfn + 11) ≠ vdiskLfnAttr
      let m := if fresh then initLfn lfn sequence checksum m else m
      let sequence := if fresh then sequence + 1 else sequence
      match name with
      | [] => (lfn, m.putWord (lfn + lfnOffset slot) 2 0)
      | c :: name =>
          let m := m.putWord (lfn + lfnOffset slot) 2 (lfnUnit c)
          if slot = 12 then lfnLoop checksum name (lfn - 32) 0 sequence m
          else lfnLoop checksum name lfn (slot + 1) sequence m

/-- Construct directory entry. The result is the next available directory entry.
Source: libnt/vdisk.c, vdisk_directory_entry -/
def vdiskDirectoryEntry (dirent : ℕ) (name : List UInt8) (len attr cluster : ℕ) (m : Mem) :
    ℕ × Mem :=
  let m := putDos dirent len attr cluster m
  let checksum := dosChecksum (m.bytes dirent 11)
  let (lfn, m) := lfnLoop checksum name (dirent - 32) 0 1 m
  (lfn - 32, m.store lfn [m lfn ||| UInt8.ofNat vdiskLfnEnd])

/-- A subdirectory: its name and its cluster. -/
abbrev Subdir := List UInt8 × ℕ

/-- Read subdirectories from a virtual directory.
Source: libnt/vdisk.c, vdisk_root to vdisk_microsoft -/
def vdiskSubdirs (subdirs : List Subdir) (data : ℕ) (m : Mem) : Mem :=
  (subdirs.foldl (fun s d => vdiskDirectoryEntry s.1 d.1 0 vdiskDirectory d.2 s.2)
    (vdiskEmptyDir data m)).2

/-- `"BOOT"` -/
def nameBoot : List UInt8 := [0x42, 0x4f, 0x4f, 0x54]

/-- `"SOURCES"` -/
def nameSources : List UInt8 := [0x53, 0x4f, 0x55, 0x52, 0x43, 0x45, 0x53]

/-- `"EFI"` -/
def nameEfi : List UInt8 := [0x45, 0x46, 0x49]

/-- `"FONTS"` -/
def nameFonts : List UInt8 := [0x46, 0x4f, 0x4e, 0x54, 0x53]

/-- `"RESOURCES"` -/
def nameResources : List UInt8 := [0x52, 0x45, 0x53, 0x4f, 0x55, 0x52, 0x43, 0x45, 0x53]

/-- `"MICROSOFT"` -/
def nameMicrosoft : List UInt8 := [0x4d, 0x49, 0x43, 0x52, 0x4f, 0x53, 0x4f, 0x46, 0x54]

/-- Source: libnt/vdisk.c, vdisk_root -/
def rootSubdirs : List Subdir :=
  [(nameBoot, vdiskBootCluster), (nameSources, vdiskSourcesCluster), (nameEfi, vdiskEfiCluster)]

/-- Source: libnt/vdisk.c, vdisk_boot -/
def bootSubdirs : List Subdir :=
  [(nameFonts, vdiskFontsCluster), (nameResources, vdiskResourcesCluster)]

/-- Source: libnt/vdisk.c, vdisk_efi -/
def efiSubdirs : List Subdir :=
  [(nameBoot, vdiskBootCluster), (nameMicrosoft, vdiskMicrosoftCluster)]

/-- Source: libnt/vdisk.c, vdisk_microsoft -/
def microsoftSubdirs : List Subdir := [(nameBoot, vdiskBootCluster)]

/-- The virtual directories. -/
inductive Directory where
  | root | boot | sources | fonts | resources | efi | microsoft
  deriving Repr, DecidableEq

/-- The subdirectories of a directory, in the order they are constructed in.
Source: libnt/vdisk.c, vdisk_root to vdisk_microsoft -/
def Directory.subdirs : Directory → List Subdir
  | .root => rootSubdirs
  | .boot => bootSubdirs
  | .sources => []
  | .fonts => []
  | .resources => []
  | .efi => efiSubdirs
  | .microsoft => microsoftSubdirs

/-- The cluster of a directory.
Source: include/vdisk.h, VDISK_ROOT_CLUSTER to VDISK_MICROSOFT_CLUSTER -/
def Directory.cluster : Directory → ℕ
  | .root => vdiskRootCluster
  | .boot => vdiskBootCluster
  | .sources => vdiskSourcesCluster
  | .fonts => vdiskFontsCluster
  | .resources => vdiskResourcesCluster
  | .efi => vdiskEfiCluster
  | .microsoft => vdiskMicrosoftCluster

/-- One sector of files: the entry of the file of that sector, if it is registered.
Source: libnt/vdisk.c, vdisk_dir_files, loop body -/
def vdiskDirFile (t : VdiskFiles) (idx data : ℕ) (m : Mem) : Mem :=
  let (dirent, m) := vdiskEmptyDir data m
  let file := t.get idx
  if file.read.isSome then
    (vdiskDirectoryEntry dirent file.name file.xlen vdiskReadOnly (vdiskFileCluster idx) m).2
  else m

/-- Read files from virtual directory; `none` if the assertion on the index fails.
Source: libnt/vdisk.c, vdisk_dir_files -/
def vdiskDirFiles (t : VdiskFiles) : ℕ → ℕ → ℕ → Mem → Option Mem
  | _, 0, _, m => some m
  | lba, count + 1, data, m =>
      if vdiskFileDirentIdx lba < vdiskMaxFiles then
        vdiskDirFiles t (lba + 1) count (data + vdiskSectorSize)
          (vdiskDirFile t (vdiskFileDirentIdx lba) data m)
      else none

end Ntloader.Vdisk
