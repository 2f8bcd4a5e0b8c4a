import Ntloader.Vdisk.Directory
import Ntloader.Vdisk.Sectors

/-!
# Reading the virtual disk: the model of `vdisk_read`

A request is served fragment by fragment. A fragment in the files' half of the disk ends with its
file; any other is truncated to the boundaries of the regions.

* `Builder` — the function pointers of the regions; `vdiskRegions` — the table of regions.
* `scanRegions` — the loop over the regions; `fragment` — the end and the builder of one fragment.
* `vdiskRead` — the loop over the fragments, on fuel. `none` if an assertion fails or the fuel runs
  out.

Scope: the names of the regions are only printed and left out.
-/

namespace Ntloader.Vdisk

open Ntloader.Lib

/-- The builders. -/
inductive Builder where
  | mbr | vbr | fsinfo | fat
  | subdirs (d : Directory)
  | dirFiles
  | file
  deriving Repr, DecidableEq

/-- Call a builder. -/
def Builder.run (arch : Arch) (t : VdiskFiles) (b : Builder) (lba count data : ℕ) (m : Mem) :
    Option Mem :=
  match b with
  | .mbr => some (vdiskMbr data m)
  | .vbr => some (vdiskVbr data m)
  | .fsinfo => some (vdiskFsinfo data m)
  | .fat => some (vdiskFat arch t lba count data m)
  | .subdirs d => some (vdiskSubdirs d.subdirs data m)
  | .dirFiles => vdiskDirFiles t lba count data m
  | .file => some (vdiskFile arch t lba count data m)

/-- A virtual disk region.
Source: libnt/vdisk.c, struct vdisk_region -/
structure VdiskRegion where
  /-- Starting LBA. -/
  lba : ℕ
  /-- Number of blocks. -/
  count : ℕ
  /-- Build data from this region. -/
  build : Builder
  deriving DecidableEq

/-- Define a virtual disk directory region.
Source: libnt/vdisk.c, VDISK_DIRECTORY_REGION -/
def vdiskDirectoryRegion (d : Directory) : List VdiskRegion :=
  [⟨vdiskDirectoryLba d.cluster, 1, .subdirs d⟩,
   ⟨vdiskDirectoryLba d.cluster + 1, vdiskClusterCount - 1, .dirFiles⟩]

/-- Virtual disk regions.
Source: libnt/vdisk.c, vdisk_regions -/
def vdiskRegions : List VdiskRegion :=
  [⟨0, 1, .mbr⟩, ⟨vdiskVbrLba, 1, .vbr⟩, ⟨vdiskVbrLba + vdiskFsinfoSector, 1, .fsinfo⟩,
   ⟨vdiskVbrLba + vdiskBackupVbrSector, 1, .vbr⟩, ⟨vdiskFatLba, vdiskSectorsPerFat, .fat⟩] ++
    (vdiskDirectoryRegion .root ++ (vdiskDirectoryRegion .boot ++
      (vdiskDirectoryRegion .sources ++ (vdiskDirectoryRegion .fonts ++
        (vdiskDirectoryRegion .resources ++ (vdiskDirectoryRegion .efi ++
          vdiskDirectoryRegion .microsoft))))))

/-- Truncate fragment to region boundaries: the end of the fragment and its builder.
Source: libnt/vdisk.c, vdisk_read, `for` -/
def scanRegions (fragStart : ℕ) : List VdiskRegion → ℕ → ℕ × Option Builder
  | [], fragEnd => (fragEnd, none)
  | region :: regions, fragEnd =>
      let regionEnd := region.lba + region.count
      -- Avoid crossing start of any region
      let fragEnd := if fragStart < region.lba ∧ region.lba < fragEnd then region.lba else fragEnd
      -- Ignore unless we overlap with this region
      if regionEnd ≤ fragStart ∨ fragEnd ≤ region.lba then scanRegions fragStart regions fragEnd
      -- Avoid crossing end of region
      else (min fragEnd regionEnd, some region.build)

/-- The end of the fragment that starts at `fragStart`, and its builder.
Source: libnt/vdisk.c, vdisk_read, `Truncate fragment and generate data` -/
def fragment (arch : Arch) (fragStart stop : ℕ) : ℕ × Option Builder :=
  let fileIdx := vdiskFileIdx fragStart
  if fileIdx ≥ 0 then
    let fileEnd := vdiskFileLba arch (fileIdx.toNat + 1)
    (min stop fileEnd, if fileIdx < vdiskMaxFiles then some .file else none)
  else scanRegions fragStart vdiskRegions stop

/-- The number of blocks of a fragment, an `unsigned int`. -/
def fragmentCount (fragStart fragEnd : ℕ) : ℕ := ((fragEnd : ℤ) - fragStart).natMod (2 ^ 32)

/-- Generate the data of one fragment.
Source: libnt/vdisk.c, vdisk_read, `Generate data from this region` -/
def buildFragment (arch : Arch) (t : VdiskFiles) (build : Option Builder) (lba count data : ℕ)
    (m : Mem) : Option Mem :=
  match build with
  | some b => b.run arch t lba count data m
  | none => some (m.fill data 0 (count * vdiskSectorSize % 2 ^ 32))

/-- The loop over the fragments, left when a fragment ends at `stop`.
Source: libnt/vdisk.c, vdisk_read, `do` -/
def fragmentLoop (arch : Arch) (t : VdiskFiles) (stop : ℕ) : ℕ → ℕ → ℕ → Mem → Option Mem
  | 0, _, _, _ => none
  | fuel + 1, fragStart, data, m =>
      let frag := fragment arch fragStart stop
      let fragCount := fragmentCount fragStart frag.1
      match buildFragment arch t frag.2 fragStart fragCount data m with
      | none => none
      | some m =>
          let next := (fragStart + fragCount) % 2 ^ 64
          if next = stop then some m
          else fragmentLoop arch t stop fuel next (data + fragCount * vdiskSectorSize % 2 ^ 32) m

/-- Read from virtual disk.
Source: libnt/vdisk.c, vdisk_read -/
def vdiskRead (arch : Arch) (t : VdiskFiles) (lba count data : ℕ) (m : Mem) : Option Mem :=
  fragmentLoop arch t ((lba + count) % 2 ^ 64) (count + 1) lba data m

end Ntloader.Vdisk
