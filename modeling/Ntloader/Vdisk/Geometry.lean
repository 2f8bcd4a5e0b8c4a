import Ntloader.Arch

/-!
# Geometry of the virtual disk

The macros of include/vdisk.h that say where everything is. The two types `unsigned long` and
`size_t` have the width of the build; the macros that compute in them take the build as a parameter
where the width can matter.

* `vdiskFileLba`, `vdiskFileIdx`, `vdiskFileOffset` — files and LBAs.
* `vdiskFileCluster`, `vdiskClusterSector` — files, clusters and sectors of the partition.
-/

namespace Ntloader.Vdisk

/-- Sector size (in bytes).
Source: include/vdisk.h, VDISK_SECTOR_SIZE -/
@[simp] def vdiskSectorSize : ℕ := 512

/-- Number of heads.
Source: include/vdisk.h, VDISK_HEADS -/
def vdiskHeads : ℕ := 255

/-- Number of sectors per track.
Source: include/vdisk.h, VDISK_SECTORS_PER_TRACK -/
def vdiskSectorsPerTrack : ℕ := 63

/-- Partition start LBA.
Source: include/vdisk.h, VDISK_PARTITION_LBA -/
@[simp] def vdiskPartitionLba : ℕ := 128

/-- Cluster size (in sectors).
Source: include/vdisk.h, VDISK_CLUSTER_COUNT -/
@[simp] def vdiskClusterCount : ℕ := 64

/-- Cluster size (in bytes).
Source: include/vdisk.h, VDISK_CLUSTER_SIZE -/
@[simp] def vdiskClusterSize : ℕ := vdiskClusterCount * vdiskSectorSize

/-- Number of clusters.
Source: include/vdisk.h, VDISK_CLUSTERS -/
@[simp] def vdiskClusters : ℕ := 0x03ffc000

/-- Maximum number of virtual files.
Source: include/vdisk.h, VDISK_MAX_FILES -/
@[simp] def vdiskMaxFiles : ℕ := vdiskClusterCount - 1

/-- Maximum file size (in sectors).
Source: include/vdisk.h, VDISK_FILE_COUNT -/
@[simp] def vdiskFileCount : ℕ := 0x800000

/-- Maximum file size (in clusters).
Source: include/vdisk.h, VDISK_FILE_CLUSTERS -/
@[simp] def vdiskFileClusters : ℕ := vdiskFileCount / vdiskClusterCount

/-- File starting LBA, an `unsigned long`.
Source: include/vdisk.h, VDISK_FILE_LBA -/
def vdiskFileLba (arch : Arch) (idx : ℕ) : ℕ := ((idx + 1) * vdiskFileCount) % arch.ulong

/-- File index from LBA, as `vdisk_read` stores it in an `int`.
Source: include/vdisk.h, VDISK_FILE_IDX -/
def vdiskFileIdx (lba : ℕ) : ℤ := ((lba / vdiskFileCount : ℕ) - 1 : ℤ).bmod (2 ^ 32)

/-- File offset (in bytes) from LBA, a 64-bit number.
Source: include/vdisk.h, VDISK_FILE_OFFSET -/
def vdiskFileOffset (lba : ℕ) : ℕ := (lba % vdiskFileCount) * vdiskSectorSize

/-- File index from directory entry LBA.
Source: include/vdisk.h, VDISK_FILE_DIRENT_IDX -/
def vdiskFileDirentIdx (lba : ℕ) : ℕ := (lba - 1) % vdiskClusterCount

/-- Number of sectors allocated for FAT.
Source: include/vdisk.h, VDISK_SECTORS_PER_FAT -/
@[simp] def vdiskSectorsPerFat : ℕ :=
  ((vdiskClusters * 4 + vdiskClusterSize - 1) / vdiskClusterSize) * vdiskClusterCount

/-- Number of reserved sectors.
Source: include/vdisk.h, VDISK_RESERVED_COUNT -/
@[simp] def vdiskReservedCount : ℕ := vdiskClusterCount

/-- Starting cluster number for file.
Source: include/vdisk.h, VDISK_FILE_CLUSTER -/
def vdiskFileCluster (idx : ℕ) : ℕ :=
  (vdiskFileCount - vdiskPartitionLba - vdiskReservedCount - vdiskSectorsPerFat) /
    vdiskClusterCount + 2 + idx * vdiskFileClusters

/-- Total number of sectors within partition.
Source: include/vdisk.h, VDISK_PARTITION_COUNT -/
@[simp] def vdiskPartitionCount : ℕ :=
  vdiskReservedCount + vdiskSectorsPerFat + vdiskClusters * vdiskClusterCount

/-- Number of sectors.
Source: include/vdisk.h, VDISK_COUNT -/
@[simp] def vdiskCount : ℕ := vdiskPartitionLba + vdiskPartitionCount

/-- Calculate sector from cluster.
Source: include/vdisk.h, VDISK_CLUSTER_SECTOR -/
def vdiskClusterSector (cluster : ℕ) : ℕ :=
  (cluster - 2) * vdiskClusterCount + vdiskReservedCount + vdiskSectorsPerFat

/-- Volume Boot Record LBA.
Source: include/vdisk.h, VDISK_VBR_LBA -/
@[simp] def vdiskVbrLba : ℕ := vdiskPartitionLba

/-- FSInfo sector.
Source: include/vdisk.h, VDISK_FSINFO_SECTOR -/
@[simp] def vdiskFsinfoSector : ℕ := 1

/-- Backup Volume Boot Record sector.
Source: include/vdisk.h, VDISK_BACKUP_VBR_SECTOR -/
@[simp] def vdiskBackupVbrSector : ℕ := 6

/-- FAT LBA.
Source: include/vdisk.h, VDISK_FAT_LBA -/
@[simp] def vdiskFatLba : ℕ := vdiskVbrLba + vdiskReservedCount

/-- FAT end marker.
Source: include/vdisk.h, VDISK_FAT_END_MARKER -/
@[simp] def vdiskFatEndMarker : ℕ := 0x0ffffff8

/-- Root directory cluster.
Source: include/vdisk.h, VDISK_ROOT_CLUSTER -/
@[simp] def vdiskRootCluster : ℕ := 2

/-- Boot directory cluster.
Source: include/vdisk.h, VDISK_BOOT_CLUSTER -/
@[simp] def vdiskBootCluster : ℕ := 3

/-- Sources directory cluster.
Source: include/vdisk.h, VDISK_SOURCES_CLUSTER -/
@[simp] def vdiskSourcesCluster : ℕ := 4

/-- Fonts directory cluster.
Source: include/vdisk.h, VDISK_FONTS_CLUSTER -/
@[simp] def vdiskFontsCluster : ℕ := 5

/-- Resources directory cluster.
Source: include/vdisk.h, VDISK_RESOURCES_CLUSTER -/
@[simp] def vdiskResourcesCluster : ℕ := 6

/-- EFI directory cluster.
Source: include/vdisk.h, VDISK_EFI_CLUSTER -/
@[simp] def vdiskEfiCluster : ℕ := 7

/-- Microsoft directory cluster.
Source: include/vdisk.h, VDISK_MICROSOFT_CLUSTER -/
@[simp] def vdiskMicrosoftCluster : ℕ := 8

/-- LBA of a directory.
Source: include/vdisk.h, VDISK_ROOT_LBA, VDISK_BOOT_LBA, and so on for each directory -/
def vdiskDirectoryLba (cluster : ℕ) : ℕ := vdiskVbrLba + vdiskClusterSector cluster

/-! ## Files, clusters and LBAs agree -/

/-- The first cluster of a file, as a number. -/
theorem vdiskFileCluster_eq (idx : ℕ) : vdiskFileCluster idx = 122881 + idx * 131072 := by
  simp [vdiskFileCluster]

/-- An offset in a file has 32 bits. -/
theorem vdiskFileOffset_lt (lba : ℕ) : vdiskFileOffset lba < 2 ^ 32 := by
  have := Nat.mod_lt lba (show 0 < vdiskFileCount by decide)
  simp only [vdiskFileOffset, vdiskFileCount, vdiskSectorSize] at this ⊢
  omega

/-- In front of the files there is no index, -/
theorem vdiskFileIdx_of_lt {lba : ℕ} (h : lba < vdiskFileCount) : vdiskFileIdx lba = -1 := by
  rw [vdiskFileIdx, Nat.div_eq_of_lt h]
  decide

/-- and from there on a sector has that of its window. -/
theorem vdiskFileIdx_of_le {lba : ℕ} (h : vdiskFileCount ≤ lba) (hlt : lba < 2 ^ 32) :
    vdiskFileIdx lba = (lba / vdiskFileCount - 1 : ℕ) := by
  simp only [vdiskFileIdx, vdiskFileCount] at *
  rw [Int.bmod_def]
  omega

/-- The first sector of a file's window, seen as a cluster of the partition. -/
theorem vdiskPartitionLba_add_vdiskClusterSector (idx k : ℕ) :
    vdiskPartitionLba + vdiskClusterSector (vdiskFileCluster idx + k) =
      (idx + 1) * vdiskFileCount + k * vdiskClusterCount := by
  rw [vdiskFileCluster_eq]
  simp only [vdiskClusterSector, vdiskPartitionLba, vdiskClusterCount, vdiskReservedCount,
    vdiskSectorsPerFat, vdiskClusters, vdiskClusterSize, vdiskSectorSize, vdiskFileCount]
  omega

end Ntloader.Vdisk
