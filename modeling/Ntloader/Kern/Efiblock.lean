import Ntloader.Kern.Payload

/-!
# The virtual disk under UEFI

The loader installs two block devices, the disk and its partition, and starts the boot manager with a
device path that names it: the signature and the extent of the partition, and the path of the file.

* `EfiBlock`, `efiReadBlocks` — a block device; `efiVdisk`, `efiVpartition` — the two.
* `HardDrive`, `openHardDrive` — a hard drive of a device path, and how firmware finds its partition.
* `efi_fileSystem` — both devices show the same file system.
* `efi_bootPath` — the device path leads to the boot manager.

Scope: the nodes of the device path in front of the hard drive stand for the disk. The media ID of a
request is ignored, as it is by the source.
-/

namespace Ntloader.Kern

open Ntloader.Lib Ntloader.Lib.Mem Ntloader.Lib.Fat
open Ntloader.Posix Ntloader.Cpio Ntloader.Vdisk Ntloader.Bcd

/-! ## Block devices -/

/-- A block I/O device.
Source: kern/efiblock.c, struct efi_block -/
structure EfiBlock where
  /-- Starting LBA. -/
  lba : ℕ
  /-- Last block of its media. -/
  lastBlock : ℕ
  deriving DecidableEq

/-- Virtual disk device.
Source: kern/efiblock.c, efi_vdisk, efi_vdisk_media -/
def efiVdisk : EfiBlock := ⟨0, vdiskCount - 1⟩

/-- Virtual partition device.
Source: kern/efiblock.c, efi_vpartition, efi_vpartition_media -/
def efiVpartition : EfiBlock := ⟨vdiskPartitionLba, vdiskPartitionCount - 1⟩

/-- Read blocks: the EFI status code and the memory. The number of blocks is an `unsigned int`.
Source: kern/efiblock.c, efi_read_blocks -/
def efiReadBlocks (arch : Arch) (t : VdiskFiles) (block : EfiBlock) (lba len data : ℕ) (m : Mem) :
    Option (ℕ × Mem) :=
  (vdiskRead arch t ((lba + block.lba) % 2 ^ 64) (len / vdiskSectorSize % 2 ^ 32) data m).map
    fun m => (0, m)

/-- A block device, as a driver uses it: a request outside the media is not made, and one that does
not return zero has failed. -/
def efiDevice (arch : Arch) (t : VdiskFiles) (block : EfiBlock) (data : ℕ) (m : Mem) : Device :=
  fun lba count =>
    if lba + count ≤ block.lastBlock + 1 then
      (efiReadBlocks arch t block lba (512 * count) data m).bind fun r =>
        if r.1 = 0 then some (r.2.bytes data (512 * count)) else none
    else none

/-- The media of a block device is the disk from its first sector on. -/
def EfiBlock.OfDisk (block : EfiBlock) : Prop := block.lba + block.lastBlock + 1 = vdiskCount

section Block

variable {arch : Arch} {t : VdiskFiles}

/-- The disk is one of the virtual disk, -/
theorem efiVdisk_ofDisk : efiVdisk.OfDisk := rfl

/-- and so is the partition. -/
theorem efiVpartition_ofDisk : efiVpartition.OfDisk := rfl

/-- A block device serves the disk from its first sector on. -/
theorem efiDevice_serves (ht : t.InMemory) {block : EfiBlock} (hblock : block.OfDisk) (data : ℕ)
    (m : Mem) : Serves arch t block.lba (efiDevice arch t block data m) := by
  intro lba count hcount hend hcross
  have hdisk : 511 * vdiskFileCount ≤ vdiskCount := by decide
  have hlimit : block.lba + lba + count < 2 ^ 32 := hend.trans (by decide)
  have hbytes : 512 * count < 2 ^ 32 := lt_of_le_of_lt (Nat.mul_le_mul_left 512 hcount) (by decide)
  have hsectors : 512 * count / vdiskSectorSize % 2 ^ 32 = count := by
    rw [vdiskSectorSize, Nat.mul_div_cancel_left count (by decide)]
    exact Nat.mod_eq_of_lt (by omega)
  have hlba : (lba + block.lba) % 2 ^ 64 = block.lba + lba := by
    rw [Nat.add_comm lba]
    exact Nat.mod_eq_of_lt (by omega)
  have hmedia : lba + count ≤ block.lastBlock + 1 := by
    rw [EfiBlock.OfDisk] at hblock
    omega
  have hread := @vdiskRead_eq arch t (block.lba + lba) count ht hbytes hlimit (Or.inr hend) hcross
    data m
  rw [Device.Holds, imageFrom_bytes, efiDevice, if_pos hmedia, efiReadBlocks, hsectors, hlba, hread,
    Option.map_some, Option.bind_some, if_pos rfl, bytes_copy_self, Nat.mul_add]

end Block

/-- **Both devices show the same file system.** A FAT32 driver finds the volume of the disk by the
partition table, and that of the partition at its start; at every path, either of them reads and lists
what the tree of the registered files has.
Source: kern/efiblock.c, efi_read_blocks, efi_vdisk, efi_vpartition -/
theorem efi_fileSystem {files : List MemFile} {t : VdiskFiles}
    (hfiles : files.length ≤ vdiskMaxFiles) (hlen : ∀ f ∈ files, f.len < 2 ^ 32)
    (ht : addMemFiles files = some t) (arch : Arch) (data : ℕ) (m : Mem) :
    let disk := efiDevice arch t efiVdisk data m
    let partition := efiDevice arch t efiVpartition data m
    ∃ v v', mount disk = some v ∧ mountAt partition 0 = some v' ∧ ∀ path,
      (readPath v disk path = (Node.resolve files path).bind (Node.contents files) ∧
        listPath v disk path = (Node.resolve files path).bind (Node.listing files)) ∧
      (readPath v' partition path = (Node.resolve files path).bind (Node.contents files) ∧
        listPath v' partition path = (Node.resolve files path).bind (Node.listing files)) := by
  intro disk partition
  have hmem := addMemFiles_inMemory hfiles ht
  have hdisk : Serves arch t 0 disk := efiDevice_serves hmem efiVdisk_ofDisk data m
  have hpartition : Serves arch t vdiskPartitionLba partition :=
    efiDevice_serves hmem efiVpartition_ofDisk data m
  refine ⟨vdiskVolume 0, vdiskVolume vdiskPartitionLba, hdisk.mount rfl, hpartition.mountAt rfl,
    fun path => ⟨⟨?_, ?_⟩, ?_, ?_⟩⟩
  · exact hdisk.readPath hfiles hlen ht (Nat.zero_le _) path
  · exact hdisk.listPath hfiles hlen ht (Nat.zero_le _) path
  · exact hpartition.readPath hfiles hlen ht le_rfl path
  · exact hpartition.listPath hfiles hlen ht le_rfl path

/-- The devices with two files. -/
theorem efi_fileSystem_twoFiles :
    ∃ t, addMemFiles twoFiles = some t ∧
      let disk := efiDevice .x86_64 t efiVdisk 0x8000 Mem.zero
      let partition := efiDevice .x86_64 t efiVpartition 0x8000 Mem.zero
      ∃ v v', mount disk = some v ∧ mountAt partition 0 = some v' ∧ ∀ path,
        (readPath v disk path = (Node.resolve twoFiles path).bind (Node.contents twoFiles) ∧
          listPath v disk path = (Node.resolve twoFiles path).bind (Node.listing twoFiles)) ∧
        (readPath v' partition path = (Node.resolve twoFiles path).bind (Node.contents twoFiles) ∧
          listPath v' partition path = (Node.resolve twoFiles path).bind (Node.listing twoFiles)) := by
  obtain ⟨t, ht, -⟩ := @addMemFiles_eq twoFiles (by decide)
  exact ⟨t, ht, efi_fileSystem (by decide) (by decide) ht .x86_64 0x8000 Mem.zero⟩

/-! ## The boot path -/

/-- Hard drive of a device path.
Source: include/efi/Protocol/DevicePath.h, HARDDRIVE_DEVICE_PATH -/
structure HardDrive where
  /-- Number of the partition, from 1 on. -/
  partitionNumber : ℕ
  /-- Its first sector. -/
  partitionStart : ℕ
  /-- Number of its sectors. -/
  partitionSize : ℕ
  /-- The four bytes of the signature of the disk. -/
  signature : List UInt8
  deriving DecidableEq

/-- Hard disk device path, of an MBR.
Source: kern/efiblock.c, EFIBLOCK_DEVPATH_HD_INIT -/
def efiHardDrive : HardDrive where
  partitionNumber := 1
  partitionStart := vdiskPartitionLba
  partitionSize := vdiskPartitionCount
  signature := [0, 8, 16, 24].map fun i => UInt8.ofNat ((0x14530529 >>> i) &&& 0xff)

/-- The partition of a disk that a hard drive of a device path names: the disk has the signature, and
the partition of the number has the extent. -/
def openHardDrive (hd : HardDrive) (disk : Device) : Option Device :=
  (disk 0 1).bind fun mbr =>
    let entry := 446 + 16 * (hd.partitionNumber - 1)
    if (mbr.drop 440).take 4 = hd.signature ∧ num mbr (entry + 8) 4 = hd.partitionStart ∧
        num mbr (entry + 12) 4 = hd.partitionSize then
      some (disk.shift hd.partitionStart)
    else none

/-- The names of a path. -/
def pathNames (path : List UInt16) : List (List ℕ) :=
  ((path.map UInt16.toNat).splitOn 0x5c).filter (· ≠ [])

/-- The name of the boot manager, in the path. -/
def bootUnits (arch : Arch) : List ℕ := (bootmgrName arch true).map UInt8.toNat

/-- What is evaluated of the boot path: its names, those of the two directories and of the boot file, and
that the name of the boot file is neither a directory's nor that of the BCD. -/
theorem bootPath_checks (arch : Arch) :
    pathNames (efiRemovableMediaFileName arch) =
      [nameEfi.map UInt8.toNat, nameBoot.map UInt8.toNat, bootUnits arch] ∧
    ((bootmgrName arch true).length < vdiskNameLen ∧ (∀ c ∈ bootmgrName arch true, c < 0x80) ∧
      (Directory.boot.directories.find? fun s =>
        sameName (bootUnits arch) (s.1.map UInt8.toNat)) = none) ∧
    sameName (bootUnits arch) ((storedName (str "BCD")).map lfnUnit) = false ∧
    (Directory.root.directories.find? fun s =>
      sameName (nameEfi.map UInt8.toNat) (s.1.map UInt8.toNat)) = some (nameEfi, .efi) ∧
    (Directory.efi.directories.find? fun s =>
      sameName (nameBoot.map UInt8.toNat) (s.1.map UInt8.toNat)) = some (nameBoot, .boot) := by
  rw [bootUnits, bootmgrName_eq]
  cases arch <;> decide +kernel

/-- The path leads through two directories. -/
theorem pathNames_boot (arch : Arch) :
    pathNames (efiRemovableMediaFileName arch) =
      [nameEfi.map UInt8.toNat, nameBoot.map UInt8.toNat, bootUnits arch] :=
  (bootPath_checks arch).1

/-- The name of the boot file is short, it has characters of seven bits, and it is no directory's. -/
theorem bootmgrName_ascii (arch : Arch) :
    (bootmgrName arch true).length < vdiskNameLen ∧ (∀ c ∈ bootmgrName arch true, c < 0x80) ∧
      (Directory.boot.directories.find? fun s =>
        sameName (bootUnits arch) (s.1.map UInt8.toNat)) = none :=
  (bootPath_checks arch).2.1

/-- The unit of a character, in upper case. -/
theorem upcase_lfnUnit (c : UInt8) : upcase (lfnUnit c) = lfnUnit (toupper c) := by
  have hall : ∀ n : Fin 256,
      upcase (lfnUnit (UInt8.ofNat n.val)) = lfnUnit (toupper (UInt8.ofNat n.val)) := by
    decide +kernel
  have hc := hall ⟨c.toNat, c.toNat_lt⟩
  rwa [UInt8.ofNat_toNat] at hc

/-- A character is known by its unit. -/
theorem lfnUnit_injective : Function.Injective lfnUnit := by
  intro c d h
  have hc := c.toNat_lt
  have hd := d.toNat_lt
  simp only [lfnUnit, UInt8.lt_iff_toNat_lt] at h
  change (if c.toNat < 128 then c.toNat else 0xff00 + c.toNat) =
    (if d.toNat < 128 then d.toNat else 0xff00 + d.toNat) at h
  refine UInt8.toNat_inj.mp ?_
  split_ifs at h <;> omega

/-- A driver finds the files that the loader takes for the boot manager. -/
theorem sameName_bootUnits (arch : Arch) {f : InFile} (hname : (0 : UInt8) ∉ f.name) :
    sameName (bootUnits arch) (packedFile f).units =
      strcasecmp f.name (bootmgrName arch true) := by
  obtain ⟨hlen, hascii, -⟩ := bootmgrName_ascii arch
  have hstored : storedName f.name = f.name.take vdiskNameLen := by
    have hne : ∀ c ∈ f.name, decide (c ≠ 0) = true := fun c hc =>
      decide_eq_true fun hzero => hname (hzero ▸ hc)
    rw [storedName, List.takeWhile_eq_self_iff.mpr hne]
  have hunits : bootUnits arch = (bootmgrName arch true).map lfnUnit := (map_lfnUnit hascii).symm
  have hupper : ∀ s : List UInt8, (s.map lfnUnit).map upcase = (s.map toupper).map lfnUnit := by
    intro s
    rw [List.map_map, List.map_map]
    exact List.map_congr_left fun c _ => upcase_lfnUnit c
  rw [Bool.eq_iff_iff, strcasecmp_iff_map, sameName, decide_eq_true_eq, hunits, hupper,
    packedFile, MemFile.units, hupper, (List.map_injective_iff.mpr lfnUnit_injective).eq_iff, hstored]
  by_cases hfits : f.name.length ≤ vdiskNameLen
  · rw [List.take_of_length_le hfits]
    exact eq_comm
  · -- a name that is cut is longer than that of the boot manager
    refine iff_of_false (fun h => ?_) fun h => ?_
    · have hlength := congrArg List.length h
      rw [List.length_map, List.length_map, List.length_take] at hlength
      omega
    · have hlength := congrArg List.length h
      rw [List.length_map, List.length_map] at hlength
      omega

/-- The BCD is not the boot manager. -/
theorem sameName_bcdFile (arch : Arch) (bcd : Mem) (bcdLen : ℕ) :
    sameName (bootUnits arch) (bcdFile bcd bcdLen).units = false := by
  have hunits : (bcdFile bcd bcdLen).units = (storedName (str "BCD")).map lfnUnit := rfl
  rw [hunits]
  exact (bootPath_checks arch).2.2.1

/-- The path leads to the first file with the name of the boot manager. -/
theorem resolve_boot (arch : Arch) (bcd : Mem) (bcdLen : ℕ) {files : List InFile}
    (hnames : ∀ f ∈ files, (0 : UInt8) ∉ f.name) :
    let tree := bcdFile bcd bcdLen :: files.map packedFile
    (Node.resolve tree (pathNames (efiRemovableMediaFileName arch))).bind (Node.contents tree) =
      (files.find? fun f => strcasecmp f.name (bootmgrName arch true)).map InFile.contents := by
  intro tree
  have hefi : (Node.directory .root).child tree (nameEfi.map UInt8.toNat) =
      some (.directory .efi) :=
    @Node.child_of_directory tree .root _ (nameEfi, .efi) (bootPath_checks arch).2.2.2.1
  have hboot : (Node.directory .efi).child tree (nameBoot.map UInt8.toNat) =
      some (.directory .boot) :=
    @Node.child_of_directory tree .efi _ (nameBoot, .boot) (bootPath_checks arch).2.2.2.2
  have hfile := @Node.child_of_file tree .boot _ (bootmgrName_ascii arch).2.2
  have hresolve : Node.resolve tree (pathNames (efiRemovableMediaFileName arch)) =
      (Node.directory .boot).child tree (bootUnits arch) := by
    rw [pathNames_boot, Node.resolve, List.foldlM_cons, hefi, Option.bind_eq_bind, Option.bind_some,
      List.foldlM_cons, hboot, Option.bind_eq_bind, Option.bind_some, List.foldlM_cons]
    exact bind_pure _
  have hcomp : (files.find? ((fun g => sameName (bootUnits arch) g.units) ∘ packedFile)) =
      files.find? fun f => strcasecmp f.name (bootmgrName arch true) :=
    List.find?_congr fun f hf => sameName_bootUnits arch (hnames f hf)
  rw [hresolve, hfile, List.find?_cons_of_neg (by rw [sameName_bcdFile]; decide), List.find?_map,
    hcomp, Option.map_map]
  refine congrArg (Option.map · _) (funext fun f => ?_)
  exact ofList_bytes f.contents

/-- The device path names the partition. -/
theorem openHardDrive_efi {arch : Arch} {t : VdiskFiles} {disk : Device}
    (h : Serves arch t 0 disk) :
    openHardDrive efiHardDrive disk = some (disk.shift vdiskPartitionLba) := by
  have hmbr := h 0 1 (by decide) (by decide) (Or.inl (by decide))
  have hentry : ((structBytes mbrFields).drop 440).take 4 = efiHardDrive.signature ∧
      num (structBytes mbrFields) (446 + 16 * (efiHardDrive.partitionNumber - 1) + 8) 4 =
        efiHardDrive.partitionStart ∧
      num (structBytes mbrFields) (446 + 16 * (efiHardDrive.partitionNumber - 1) + 12) 4 =
        efiHardDrive.partitionSize := by
    decide +kernel
  rw [Device.Holds, imageFrom_bytes, Nat.mul_zero, Nat.zero_add, image_mbr] at hmbr
  rw [openHardDrive, hmbr, Option.bind_some]
  exact if_pos hentry

/-- **The boot path leads to the boot manager.** Under UEFI, the boot manager that the loader starts is
the last file of the initrd with its name; its device path names a partition of the virtual disk, and on
it the first file with its name, as long as the archive is in memory. So it names the file that is
started, if only one has the name.
Source: kern/payload.c, add_file; kern/efiblock.c, efi_bootmgfw_path; kern/efiboot.c, efi_boot -/
theorem efi_bootPath (arch : Arch) (args : NtArgs) (bcd : Mem) {bcdLen : ℕ}
    (hbcd : bcdLen < 2 ^ 32) {files : List InFile} {extra : List UInt8} (hfits : ∀ f ∈ files, f.Fits)
    (hcount : files.length < vdiskMaxFiles) {f : InFile}
    (hboot : bootmgrOf (bootmgrName arch true) files = some f) {ptr : ℕ} {m : Mem}
    (hpacked : Packed arch m ptr files extra) {fuel : ℕ} (hfuel : files.length < fuel) :
    ∃ p : Payload,
      (extractInitrd arch true fuel args bcd bcdLen ptr (mkinitrd files ++ extra).length m =
        (bcdPatchData fuel true args bcdLen bcd).map fun patched =>
          (patched.mapError .bcd).map fun bcd' => (p, bcd')) ∧
      m.bytes p.bootmgr p.bootmgrLength = f.contents ∧
      ∀ bcd' m', Packed arch m' ptr files extra →
        ∃ t, addMemFiles (p.memFiles bcd' m') = some t ∧ ∀ (data : ℕ) (m₁ : Mem),
          ∃ partition v, openHardDrive efiHardDrive (efiDevice arch t efiVdisk data m₁) =
              some partition ∧ mountAt partition 0 = some v ∧
            readPath v partition (pathNames (efiRemovableMediaFileName arch)) =
              (files.find? fun g => strcasecmp g.name (bootmgrName arch true)).map
                InFile.contents ∧
            ((∀ g ∈ files, strcasecmp g.name (bootmgrName arch true) = true → g = f) →
              readPath v partition (pathNames (efiRemovableMediaFileName arch)) =
                some f.contents) := by
  obtain ⟨p, hshown, hbootmgr, hresult⟩ := @extractInitrd_eq arch true args bcd bcdLen _ _ hfits _ _
    hpacked _ hfuel hcount
  rw [hboot] at hbootmgr
  refine ⟨p, hresult.trans (if_neg hbootmgr.1), hbootmgr.2, fun bcd' m' hpacked' => ?_⟩
  have hlength : (p.memFiles bcd' m').length ≤ vdiskMaxFiles :=
    (List.length_map _).trans_le p.length_le
  obtain ⟨t, ht, -⟩ := addMemFiles_eq hlength
  refine ⟨t, ht, fun data m₁ => ?_⟩
  have hdisk : Serves arch t 0 (efiDevice arch t efiVdisk data m₁) :=
    efiDevice_serves (addMemFiles_inMemory hlength ht) efiVdisk_ofDisk data m₁
  have hpartition := hdisk.shift vdiskPartitionLba
  rw [Nat.zero_add] at hpartition
  have hread := (readPath_of_shown (hshown bcd' m' hpacked') hlength
    (packedFiles_lt hbcd hfits bcd') ht hpartition le_rfl
    (pathNames (efiRemovableMediaFileName arch))).1
  rw [resolve_boot arch bcd' bcdLen fun g hg => (hfits g hg).name] at hread
  refine ⟨_, _, openHardDrive_efi hdisk, hpartition.mountAt rfl, hread, fun hunique => ?_⟩
  have hf := List.find?_some hboot
  have hmem : f ∈ files := List.mem_reverse.mp (List.mem_of_find?_eq_some hboot)
  obtain ⟨g, hg⟩ : ∃ g, (files.find? fun g => strcasecmp g.name (bootmgrName arch true)) = some g :=
    Option.isSome_iff_exists.mp (List.find?_isSome.mpr ⟨f, hmem, hf⟩)
  have hname : strcasecmp g.name (bootmgrName arch true) = true := by
    have hfound := List.find?_some hg
    exact hfound
  have heq : g = f := hunique g (List.mem_of_find?_eq_some hg) hname
  rw [hread, hg, heq, Option.map_some]

/-- An initrd with a boot manager for UEFI. -/
def efiInitrd : List InFile := [⟨str "bootx64.efi", 0o100644, [0x4d, 0x5a]⟩]

/-- The files of the archive fit. -/
theorem efiInitrd_fits : ∀ f ∈ efiInitrd, f.Fits := by
  intro f hf
  obtain rfl := List.mem_singleton.mp hf
  exact ⟨by decide +kernel, by decide +kernel, by decide +kernel, by decide⟩

/-- That boot manager is started, and named by the path. -/
theorem efi_bootPath_efiInitrd :
    let m := Mem.ofList (mkinitrd efiInitrd ++ [])
    ∃ p : Payload,
      (extractInitrd .x86_64 true 2 NtArgs.init Mem.zero 0x8000 0
          (mkinitrd efiInitrd ++ []).length m =
        (bcdPatchData 2 true NtArgs.init 0x8000 Mem.zero).map fun patched =>
          (patched.mapError .bcd).map fun bcd' => (p, bcd')) ∧
      m.bytes p.bootmgr p.bootmgrLength = [0x4d, 0x5a] ∧
      ∀ bcd' m', Packed .x86_64 m' 0 efiInitrd [] →
        ∃ t, addMemFiles (p.memFiles bcd' m') = some t ∧ ∀ (data : ℕ) (m₁ : Mem),
          ∃ partition v, openHardDrive efiHardDrive (efiDevice .x86_64 t efiVdisk data m₁) =
              some partition ∧ mountAt partition 0 = some v ∧
            readPath v partition (pathNames (efiRemovableMediaFileName .x86_64)) =
              (efiInitrd.find? fun g => strcasecmp g.name (bootmgrName .x86_64 true)).map
                InFile.contents ∧
            ((∀ g ∈ efiInitrd, strcasecmp g.name (bootmgrName .x86_64 true) = true →
                g = ⟨str "bootx64.efi", 0o100644, [0x4d, 0x5a]⟩) →
              readPath v partition (pathNames (efiRemovableMediaFileName .x86_64)) =
                some [0x4d, 0x5a]) := by
  have hboot : bootmgrOf (bootmgrName .x86_64 true) efiInitrd =
      some ⟨str "bootx64.efi", 0o100644, [0x4d, 0x5a]⟩ :=
    List.find?_singleton.trans (if_pos (by decide +kernel))
  have hlength : 0 + (mkinitrd efiInitrd ++ []).length < 2 ^ 32 := by decide +kernel
  exact efi_bootPath .x86_64 NtArgs.init Mem.zero (by decide) efiInitrd_fits (by decide) hboot
    ⟨ofList_bytes _, hlength.trans (by decide)⟩ (by decide)

end Ntloader.Kern
