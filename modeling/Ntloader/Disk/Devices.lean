import Ntloader.Disk.DevicePath
import Ntloader.Disk.Efidisk
import Ntloader.Lib.Updates
import Mathlib.Data.List.Sigma
import Mathlib.Logic.Basic

/-!
# The lists of EFI disks

The devices with a Block IO protocol are put on the lists of hard drives and of CD-ROMs. A partition
puts its parent there, and the marks of the first pass keep the two from the second.

* `makeDevices`, `findParentDevice`, `addDevice`, `nameDevices` — disk/efidisk.c.
* `HasParent`, `IsMediaNode` — the devices of which the result is known.
* `Identified`, `Named` — what the two passes keep.
* `nameDevices_classifies` — no device is lost or put on the lists twice.

Scope: the names of the devices are left out. The firmware gives the handles.
-/

namespace Ntloader.Disk

open Ntloader.Lib

/-! ## Devices -/

/-- A handle with what its protocols give: the device path, and the Block IO protocol if there is one
that has a media. -/
structure EfiHandle where
  handle : ℕ
  dp : Option (List UInt8)
  bio : Option BlockIo

/-- Source: include/efidisk.h, struct efidisk_data -/
structure EfidiskData where
  handle : ℕ
  dp : List UInt8
  ldp : Option (List UInt8)
  bio : BlockIo

/-- The device of a handle, if it is taken.
Source: disk/efidisk.c, make_devices -/
def makeDevice (handle : EfiHandle) : Option EfidiskData := do
  let dp ← handle.dp
  let ldp ← findLastDevicePath dp
  let bio ← handle.bio
  if isUsable bio.media then some ⟨handle.handle, dp, some ldp, bio⟩ else none

/-- The list of the devices. Each is put in front.
Source: disk/efidisk.c, make_devices -/
def makeDevices (handles : List EfiHandle) : List EfidiskData :=
  (handles.filterMap makeDevice).reverse

/-- A pointer to a device of the list: the device, with its place. -/
abbrev DevicePtr := EfidiskData × ℕ

/-- Find the parent device.
Source: disk/efidisk.c, find_parent_device -/
def findParentDevice (devices : List EfidiskData) (d : DevicePtr) : Option DevicePtr := do
  let dp ← parentDevicePath d.1.dp
  devices.zipIdx.find? fun parent =>
    parent.2 ≠ d.2 ∧ compareDevicePaths (some parent.1.dp) (some dp) = 0

/-- Add a device into a list of devices in an ascending order.
Source: disk/efidisk.c, add_device -/
def addDevice : List EfidiskData → EfidiskData → List EfidiskData
  | [], d => [d]
  | p :: devices, d =>
      let ret := compareDevicePaths (findLastDevicePath p.dp) (findLastDevicePath d.dp)
      let ret := if ret = 0 then compareDevicePaths (some p.dp) (some d.dp) else ret
      if ret = 0 then p :: devices
      else if ret > 0 then d :: p :: devices
      else p :: addDevice devices d

/-! ## Nodes -/

/-- Source: include/efi/Protocol/DevicePath.h, MEDIA_DEVICE_PATH -/
def mediaDevicePath : UInt8 := 0x04

/-- Source: include/efi/Protocol/DevicePath.h, MEDIA_HARDDRIVE_DP -/
def mediaHarddriveDp : UInt8 := 0x01

/-- Source: include/efi/Protocol/DevicePath.h, MEDIA_CDROM_DP -/
def mediaCdromDp : UInt8 := 0x02

/-- Source: include/efi/Protocol/DevicePath.h, MEDIA_VENDOR_DP -/
def mediaVendorDp : UInt8 := 0x03

/-- Source: include/efi/Protocol/DevicePath.h, ACPI_DEVICE_PATH -/
def acpiDevicePath : UInt8 := 0x02

/-- Source: include/efi/Protocol/DevicePath.h, ACPI_DP -/
def acpiDp : UInt8 := 0x01

/-- Source: disk/efidisk.c, EFI_VENDOR_APPLE_GUID -/
def efiVendorAppleGuid : List UInt8 :=
  [0xeb, 0x85, 0x05, 0x2b, 0xb8, 0xd8, 0xa9, 0x49, 0x8b, 0x8c, 0xe2, 0x1b, 0x01, 0xae, 0xf2, 0xb7]

/-- A ghost by Apple, if it has a parent.
Source: disk/efidisk.c, name_devices, `Ghosts proudly presented by Apple` -/
def isApple (dp : List UInt8) : Bool :=
  dpType dp = mediaDevicePath ∧ dpSubtype dp = mediaVendorDp ∧ dpLength dp = 20 ∧
    memcmp 16 (dp.drop 4) efiVendorAppleGuid = 0

/-- Source: disk/efidisk.c, name_devices, `Floppy EISA ID` -/
def isFloppy (dp : List UInt8) : Bool :=
  let hid := leNat ((dp.drop 4).take 4)
  dpType dp = acpiDevicePath ∧ dpSubtype dp = acpiDp ∧
    (hid = 0x60441d0 ∨ hid = 0x70041d0 ∨ hid = 0x70141d1)

/-! ## The two passes -/

/-- What the passes change: the field `ldp` of the devices, by their places, and the two lists. -/
structure NameState where
  ldp : ℕ → Option (List UInt8)
  efiHd : List EfidiskData
  efiCd : List EfidiskData

/-- Mark a device as used. -/
def NameState.use (st : NameState) (d : DevicePtr) : NameState :=
  { st with ldp := Function.update st.ldp d.2 none }

/-- Add a copy of a device, as it is now, to one of the lists. -/
def NameState.add (st : NameState) (isHardDrive : Bool) (d : DevicePtr) : NameState :=
  let n := { d.1 with ldp := st.ldp d.2 }
  if isHardDrive then { st with efiHd := addDevice st.efiHd n }
  else { st with efiCd := addDevice st.efiCd n }

/-- First, identify devices by media device paths.
Source: disk/efidisk.c, name_devices -/
def identifyDevice (devices : List EfidiskData) (st : NameState) (d : DevicePtr) : NameState :=
  match st.ldp d.2 with
  | none => st
  | some dp =>
      if dpType dp = mediaDevicePath ∧
          (dpSubtype dp = mediaHarddriveDp ∨ dpSubtype dp = mediaCdromDp) then
        match findParentDevice devices d with
        | none => st
        | some parent =>
            if (findParentDevice devices parent).isSome then st.use d
            else if st.ldp parent.2 = none then st.use d
            else ((st.add (dpSubtype dp = mediaHarddriveDp) parent).use parent).use d
      else st

/-- Let's see what can be added more.
Source: disk/efidisk.c, name_devices -/
def nameDevice (devices : List EfidiskData) (st : NameState) (d : DevicePtr) : NameState :=
  match st.ldp d.2 with
  | none => st
  | some dp =>
      if isApple dp ∧ (findParentDevice devices d).isSome then st
      else
        let m := d.1.bio.media
        if isFloppy dp then st.add true d
        else if m.readOnly ∧ m.blockSize > 512 then st.add false d
        else st.add true d

/-- The devices as they are made, and the lists empty. -/
def NameState.init (devices : List EfidiskData) : NameState :=
  ⟨fun i => devices[i]?.bind (·.ldp), [], []⟩

/-- Name the devices.
Source: disk/efidisk.c, name_devices -/
def nameDevices (devices : List EfidiskData) : NameState :=
  devices.zipIdx.foldl (nameDevice devices)
    (devices.zipIdx.foldl (identifyDevice devices) (.init devices))

/-! ## Parents -/

/-- A device has a parent in the list: its path is the one of the device without the last node. -/
def HasParent (devices : List EfidiskData) (d : EfidiskData) : Prop :=
  ∃ p ∈ devices, IsParentPath p.dp d.dp

/-- A hard drive or a CD-ROM by its last node. -/
def IsMediaNode (d : EfidiskData) : Prop :=
  ∃ ldp, d.ldp = some ldp ∧ dpType ldp = mediaDevicePath ∧
    (dpSubtype ldp = mediaHarddriveDp ∨ dpSubtype ldp = mediaCdromDp)

/-- Devices whose paths are well-formed and distinct. -/
structure Distinct (devices : List EfidiskData) : Prop where
  isDevicePath : ∀ d ∈ devices, IsDevicePath d.dp
  nodup : (devices.map (·.dp)).Nodup

section

variable {devices : List EfidiskData}

/-- A device has one place. -/
theorem Distinct.eq_of_dp_eq (h : Distinct devices) {d e : DevicePtr} (hd : d ∈ devices.zipIdx)
    (he : e ∈ devices.zipIdx) (heq : d.1.dp = e.1.dp) : d = e := by
  rw [List.mem_zipIdx_iff_getElem?] at hd he
  have hplace : d.2 = e.2 := by
    have hlt : d.2 < (devices.map (·.dp)).length := by
      rw [List.length_map]
      exact (List.getElem?_eq_some_iff.mp hd).1
    refine (List.getElem?_inj hlt h.nodup).mp ?_
    rw [List.getElem?_map, List.getElem?_map, hd, he, Option.map_some, Option.map_some, heq]
  rw [hplace] at hd
  exact Prod.ext (Option.some.inj (hd.symm.trans he)) hplace

/-- A device of the list has a place in it. -/
theorem exists_mem_zipIdx {d : EfidiskData} (h : d ∈ devices) : ∃ i, (d, i) ∈ devices.zipIdx := by
  obtain ⟨i, hi⟩ := List.mem_iff_getElem?.mp h
  exact ⟨i, List.mk_mem_zipIdx_iff_getElem?.mpr hi⟩

/-- A parent that is found is in the list, and its path is the parent's. -/
theorem mem_of_findParentDevice (h : Distinct devices) {d parent : DevicePtr}
    (hd : d ∈ devices.zipIdx) (hfind : findParentDevice devices d = some parent) :
    parent ∈ devices.zipIdx ∧ IsParentPath parent.1.dp d.1.dp := by
  rw [findParentDevice] at hfind
  obtain ⟨copy, hcopy, hfind⟩ := Option.bind_eq_some_iff.mp hfind
  have hmem := List.mem_of_find?_eq_some hfind
  have hcmp := List.find?_some hfind
  rw [decide_eq_true_eq] at hcmp
  refine ⟨hmem, (isParentPath_iff ?_ ?_).mpr ⟨copy, hcopy, hcmp.2⟩⟩
  · exact h.isDevicePath _ (List.fst_mem_of_mem_zipIdx hmem)
  · exact h.isDevicePath _ (List.fst_mem_of_mem_zipIdx hd)

/-- The search succeeds exactly if there is a parent. -/
theorem findParentDevice_isSome_iff (h : Distinct devices) {d : DevicePtr}
    (hd : d ∈ devices.zipIdx) : (findParentDevice devices d).isSome ↔ HasParent devices d.1 := by
  constructor
  · intro hsome
    obtain ⟨parent, hparent⟩ := Option.isSome_iff_exists.mp hsome
    obtain ⟨hmem, hpath⟩ := mem_of_findParentDevice h hd hparent
    exact ⟨parent.1, List.fst_mem_of_mem_zipIdx hmem, hpath⟩
  · rintro ⟨p, hp, hpath⟩
    obtain ⟨copy, hcopy, hcmp⟩ := (isParentPath_iff (h.isDevicePath p hp)
      (h.isDevicePath _ (List.fst_mem_of_mem_zipIdx hd))).mp hpath
    obtain ⟨i, hi⟩ := exists_mem_zipIdx hp
    have hplace : i ≠ d.2 := by
      intro heq
      have hsame : p = d.1 := by
        rw [List.mem_zipIdx_iff_getElem?] at hi hd
        dsimp only at hi
        rw [heq, hd] at hi
        exact (Option.some.inj hi).symm
      rw [hsame] at hpath
      exact not_isParentPath_self _ hpath
    rw [findParentDevice, hcopy]
    show (devices.zipIdx.find? _).isSome
    rw [List.find?_isSome]
    exact ⟨(p, i), hi, decide_eq_true ⟨hplace, hcmp⟩⟩

/-- None is found exactly if there is none. -/
theorem findParentDevice_eq_none_iff (h : Distinct devices) {d : DevicePtr}
    (hd : d ∈ devices.zipIdx) : findParentDevice devices d = none ↔ ¬HasParent devices d.1 := by
  rw [← findParentDevice_isSome_iff h hd, Option.not_isSome_iff_eq_none]

end

/-! ## Insertion -/

/-- Paths that compare equal are equal. -/
theorem eq_of_compareDevicePaths {dp1 dp2 : List UInt8} (h1 : IsDevicePath dp1)
    (h2 : IsDevicePath dp2) (h : compareDevicePaths (some dp1) (some dp2) = 0) : dp1 = dp2 := by
  obtain ⟨ns, hns, rfl⟩ := h1
  obtain ⟨ms, hms, rfl⟩ := h2
  have hcmp := compareDevicePaths_eq_zero_iff hns hms []
  rw [List.append_nil] at hcmp
  exact congrArg encodePath (hcmp.mp h)

/-- A device with a new path is added, and no other is lost. -/
theorem addDevice_perm {devices : List EfidiskData} {d : EfidiskData} (hd : IsDevicePath d.dp)
    (hdevices : ∀ p ∈ devices, IsDevicePath p.dp) (hnew : d.dp ∉ devices.map (·.dp)) :
    (addDevice devices d).Perm (d :: devices) := by
  induction devices with
  | nil => exact List.Perm.refl _
  | cons p devices ih =>
      rw [List.map_cons, List.mem_cons, not_or] at hnew
      have hp := hdevices p List.mem_cons_self
      have hne : compareDevicePaths (some p.dp) (some d.dp) ≠ 0 := fun h0 =>
        hnew.1 (eq_of_compareDevicePaths hp hd h0).symm
      have hrest := ih (fun q hq => hdevices q (List.mem_cons_of_mem _ hq)) hnew.2
      rw [addDevice]
      split_ifs
      · exact List.Perm.refl _
      · exact (hrest.cons p).trans (List.Perm.swap d p devices)
      · exact List.Perm.refl _
      · exact (hrest.cons p).trans (List.Perm.swap d p devices)

/-! ## What the passes keep -/

/-- The devices on the lists. -/
def NameState.added (st : NameState) : List EfidiskData := st.efiHd ++ st.efiCd

section

variable {devices : List EfidiskData}

/-- The lists are made of devices, without repetition. -/
structure Listed (devices : List EfidiskData) (st : NameState) : Prop where
  mem : ∀ x ∈ st.added, x ∈ devices
  nodup : (st.added.map (·.dp)).Nodup

/-- A device that is not marked is added to the lists. -/
theorem NameState.add_perm (h : Distinct devices) {st : NameState} (hst : Listed devices st)
    {d : DevicePtr} (hd : d ∈ devices.zipIdx) (hldp : st.ldp d.2 = d.1.ldp)
    (hnew : d.1 ∉ st.added) (isHardDrive : Bool) :
    (st.add isHardDrive d).added.Perm (d.1 :: st.added) := by
  have hpath : d.1.dp ∉ st.added.map (·.dp) := by
    intro hmem
    obtain ⟨x, hx, hdp⟩ := List.mem_map.mp hmem
    obtain ⟨i, hi⟩ := exists_mem_zipIdx (hst.mem x hx)
    have hsame : (x, i) = d := h.eq_of_dp_eq hi hd hdp
    rw [← hsame] at hnew
    exact hnew hx
  have hcopy : { d.1 with ldp := st.ldp d.2 } = d.1 := by rw [hldp]
  have hdpath := h.isDevicePath d.1 (List.fst_mem_of_mem_zipIdx hd)
  rw [NameState.added, List.map_append, List.mem_append, not_or] at hpath
  have hlist {l : List EfidiskData} (hl : ∀ x ∈ l, x ∈ st.added) : ∀ x ∈ l, IsDevicePath x.dp :=
    fun x hx => h.isDevicePath x (hst.mem x (hl x hx))
  cases isHardDrive with
  | true =>
      have hperm := addDevice_perm hdpath
        (hlist fun x hx => List.mem_append_left st.efiCd hx) hpath.1
      show (addDevice st.efiHd { d.1 with ldp := st.ldp d.2 } ++ st.efiCd).Perm _
      rw [hcopy]
      exact hperm.append_right st.efiCd
  | false =>
      have hperm := addDevice_perm hdpath
        (hlist fun x hx => List.mem_append_right st.efiHd hx) hpath.2
      show (st.efiHd ++ addDevice st.efiCd { d.1 with ldp := st.ldp d.2 }).Perm _
      rw [hcopy]
      exact (hperm.append_left st.efiHd).trans List.perm_middle

/-- So it is on them once, and the others stay. -/
theorem Listed.add (h : Distinct devices) {st : NameState} (hst : Listed devices st)
    {d : DevicePtr} (hd : d ∈ devices.zipIdx) (hldp : st.ldp d.2 = d.1.ldp)
    (hnew : d.1 ∉ st.added) (isHardDrive : Bool) :
    Listed devices (st.add isHardDrive d) ∧
      ∀ x, x ∈ (st.add isHardDrive d).added ↔ x = d.1 ∨ x ∈ st.added := by
  have hperm := NameState.add_perm h hst hd hldp hnew isHardDrive
  have hmem (x : EfidiskData) : x ∈ (st.add isHardDrive d).added ↔ x = d.1 ∨ x ∈ st.added := by
    rw [hperm.mem_iff, List.mem_cons]
  refine ⟨⟨fun x hx => ?_, ?_⟩, hmem⟩
  · rcases (hmem x).mp hx with rfl | hx
    · exact List.fst_mem_of_mem_zipIdx hd
    · exact hst.mem x hx
  · rw [(hperm.map (·.dp)).nodup_iff, List.map_cons, List.nodup_cons]
    refine ⟨fun hdp => ?_, hst.nodup⟩
    obtain ⟨x, hx, hdp⟩ := List.mem_map.mp hdp
    obtain ⟨i, hi⟩ := exists_mem_zipIdx (hst.mem x hx)
    have hsame : (x, i) = d := h.eq_of_dp_eq hi hd hdp
    rw [← hsame] at hnew
    exact hnew hx

/-- To use a device adds none. -/
@[simp] theorem NameState.use_added (st : NameState) (d : DevicePtr) :
    (st.use d).added = st.added := rfl

/-- A device that is used loses its last node, and no other does. -/
theorem NameState.use_ldp (st : NameState) (d : DevicePtr) (i : ℕ) :
    (st.use d).ldp i = if i = d.2 then none else st.ldp i := Function.update_apply _ _ _ _

/-- To add a device leaves the last nodes. -/
@[simp] theorem NameState.add_ldp (st : NameState) (isHardDrive : Bool) (d : DevicePtr) :
    (st.add isHardDrive d).ldp = st.ldp := by
  cases isHardDrive <;> rfl

/-! ## The first pass -/

/-- What the first pass keeps, for the devices that it has visited: the marked devices are those on the
lists, which have no parent, and devices with a parent. -/
structure Identified (devices : List EfidiskData) (pre : List DevicePtr) (st : NameState) : Prop
    extends Listed devices st where
  ldp_eq : ∀ d ∈ devices.zipIdx, st.ldp d.2 = none ∨ st.ldp d.2 = d.1.ldp
  marked : ∀ d ∈ devices.zipIdx, st.ldp d.2 = none → HasParent devices d.1 ∨ d.1 ∈ st.added
  added : ∀ d ∈ devices.zipIdx, d.1 ∈ st.added → ¬HasParent devices d.1 ∧ st.ldp d.2 = none
  media : ∀ d ∈ pre, IsMediaNode d.1 → HasParent devices d.1 → st.ldp d.2 = none

variable {pre : List DevicePtr} {st : NameState} {d : DevicePtr}

/-- A device is left as it is. -/
theorem Identified.skip (hst : Identified devices pre st)
    (hmedia : IsMediaNode d.1 → HasParent devices d.1 → st.ldp d.2 = none) :
    Identified devices (pre ++ [d]) st := by
  refine ⟨hst.toListed, hst.ldp_eq, hst.marked, hst.added, fun e he => ?_⟩
  rcases List.mem_append.mp he with he | he
  · exact hst.media e he
  · rw [List.mem_singleton.mp he]
    exact hmedia

/-- A device with a parent is marked. -/
theorem Identified.use (hst : Identified devices pre st) (hd : d ∈ devices.zipIdx)
    (hparent : HasParent devices d.1) : Identified devices (pre ++ [d]) (st.use d) := by
  have hplace {e : DevicePtr} (he : e ∈ devices.zipIdx) (heq : e.2 = d.2) : e.1 = d.1 := by
    rw [List.mem_zipIdx_iff_getElem?] at he hd
    rw [heq, hd] at he
    exact (Option.some.inj he).symm
  refine ⟨⟨hst.mem, hst.nodup⟩, fun e he => ?_, fun e he hnone => ?_, fun e he hadded => ?_,
    fun e he hmedia hp => ?_⟩
  · rw [NameState.use_ldp]
    split_ifs
    · exact Or.inl rfl
    · exact hst.ldp_eq e he
  · rw [NameState.use_ldp] at hnone
    split_ifs at hnone with heq
    · exact Or.inl (hplace he heq ▸ hparent)
    · exact hst.marked e he hnone
  · obtain ⟨hroot, hnone⟩ := hst.added e he hadded
    refine ⟨hroot, ?_⟩
    rw [NameState.use_ldp, hnone, ite_self]
  · rw [NameState.use_ldp]
    rcases List.mem_append.mp he with he | he
    · rw [hst.media e he hmedia hp, ite_self]
    · rw [if_pos (congrArg Prod.snd (List.mem_singleton.mp he))]

/-- A device without a parent is added, and marked. -/
theorem Identified.addUse (h : Distinct devices) (hst : Identified devices pre st)
    (hd : d ∈ devices.zipIdx) (hroot : ¬HasParent devices d.1) (hldp : st.ldp d.2 ≠ none)
    (isHardDrive : Bool) : Identified devices pre ((st.add isHardDrive d).use d) := by
  have hsame := (hst.ldp_eq d hd).resolve_left hldp
  have hnew : d.1 ∉ st.added := fun hadded => hldp (hst.added d hd hadded).2
  obtain ⟨hlisted, hmem⟩ := hst.toListed.add h hd hsame hnew isHardDrive
  refine ⟨⟨hlisted.mem, hlisted.nodup⟩, fun e he => ?_, fun e he hnone => ?_, fun e he hadded => ?_,
    fun e he hmedia hp => ?_⟩
  · rw [NameState.use_ldp, NameState.add_ldp]
    split_ifs
    · exact Or.inl rfl
    · exact hst.ldp_eq e he
  · rw [NameState.use_added, hmem]
    rw [NameState.use_ldp, NameState.add_ldp] at hnone
    split_ifs at hnone with heq
    · rw [List.mem_zipIdx_iff_getElem?] at he hd
      rw [heq, hd] at he
      exact Or.inr (Or.inl (Option.some.inj he).symm)
    · exact (hst.marked e he hnone).imp_right Or.inr
  · rw [NameState.use_added, hmem] at hadded
    rw [NameState.use_ldp, NameState.add_ldp]
    rcases hadded with heq | hadded
    · rw [h.eq_of_dp_eq he hd (congrArg EfidiskData.dp heq), if_pos rfl]
      exact ⟨hroot, rfl⟩
    · obtain ⟨hroot', hnone⟩ := hst.added e he hadded
      rw [hnone, ite_self]
      exact ⟨hroot', rfl⟩
  · rw [NameState.use_ldp, NameState.add_ldp, hst.media e he hmedia hp, ite_self]

/-- One step of the first pass. -/
theorem Identified.step (h : Distinct devices) (hst : Identified devices pre st)
    (hd : d ∈ devices.zipIdx) : Identified devices (pre ++ [d]) (identifyDevice devices st d) := by
  rw [identifyDevice]
  cases hldp : st.ldp d.2 with
  | none => exact hst.skip fun _ _ => hldp
  | some dp =>
      have hsame : d.1.ldp = some dp := by
        rw [← hldp]
        refine ((hst.ldp_eq d hd).resolve_left ?_).symm
        rw [hldp]
        exact Option.some_ne_none dp
      dsimp only
      split_ifs with hmedia
      · cases hfind : findParentDevice devices d with
        | none =>
            have hroot := (findParentDevice_eq_none_iff h hd).mp hfind
            exact hst.skip fun _ hparent => absurd hparent hroot
        | some parent =>
            obtain ⟨hparent, -⟩ := mem_of_findParentDevice h hd hfind
            have hhas : HasParent devices d.1 :=
              (findParentDevice_isSome_iff h hd).mp (Option.isSome_iff_exists.mpr ⟨_, hfind⟩)
            dsimp only
            split_ifs with hnested hused
            · exact hst.use hd hhas
            · exact hst.use hd hhas
            · have hroot : ¬HasParent devices parent.1 := fun hp =>
                hnested ((findParentDevice_isSome_iff h hparent).mpr hp)
              exact (hst.addUse h hparent hroot hused _).use hd hhas
      · refine hst.skip fun hnode _ => ?_
        obtain ⟨ldp, hnode, htype⟩ := hnode
        rw [hsame, Option.some.injEq] at hnode
        exact absurd (hnode ▸ htype) hmedia

/-- The first pass. -/
theorem identified_of_foldl (h : Distinct devices) (hldp : ∀ d ∈ devices, d.ldp ≠ none) :
    Identified devices devices.zipIdx
      (devices.zipIdx.foldl (identifyDevice devices) (.init devices)) := by
  have hinit : ∀ d ∈ devices.zipIdx, (NameState.init devices).ldp d.2 = d.1.ldp := by
    intro d hd
    rw [List.mem_zipIdx_iff_getElem?] at hd
    show devices[d.2]?.bind (·.ldp) = d.1.ldp
    rw [hd, Option.bind_some]
  refine @foldl_induction _ _ (Identified devices) _ _ (fun pre d post st hall hst => ?_) _ ?_
  · exact hst.step h (hall ▸ List.mem_append_right _ List.mem_cons_self)
  · refine ⟨⟨fun x hx => absurd hx List.not_mem_nil, List.nodup_nil⟩, fun d hd => Or.inr (hinit d hd),
      fun d hd hnone => ?_, fun d _ hadded => absurd hadded List.not_mem_nil,
      fun d hd => absurd hd List.not_mem_nil⟩
    rw [hinit d hd] at hnone
    exact absurd hnone (hldp d.1 (List.fst_mem_of_mem_zipIdx hd))

/-! ## The second pass -/

/-- What the second pass keeps, for the devices that it has visited and the marks of the first one: the
devices on the lists are marked and have no parent, or are visited; and those without a parent are on
the lists if they are marked or visited. -/
structure Named (devices : List EfidiskData) (ldp : ℕ → Option (List UInt8)) (pre : List DevicePtr)
    (st : NameState) : Prop extends Listed devices st where
  ldp_eq : st.ldp = ldp
  added : ∀ d ∈ devices.zipIdx, d.1 ∈ st.added →
    (ldp d.2 = none → ¬HasParent devices d.1) ∧ (ldp d.2 ≠ none → d ∈ pre)
  root : ∀ d ∈ devices.zipIdx, ¬HasParent devices d.1 → ldp d.2 = none ∨ d ∈ pre → d.1 ∈ st.added

variable {ldp : ℕ → Option (List UInt8)}

/-- A device is left out that is marked or has a parent. -/
theorem Named.skip (hst : Named devices ldp pre st)
    (hd : ldp d.2 = none ∨ HasParent devices d.1) : Named devices ldp (pre ++ [d]) st := by
  refine ⟨hst.toListed, hst.ldp_eq, fun e he hadded => ?_, fun e he hroot hdone => ?_⟩
  · obtain ⟨hroot, hpre⟩ := hst.added e he hadded
    exact ⟨hroot, fun hldp => List.mem_append_left _ (hpre hldp)⟩
  · refine hst.root e he hroot ?_
    rcases hdone with hnone | hmem
    · exact Or.inl hnone
    · rcases List.mem_append.mp hmem with hmem | hmem
      · exact Or.inr hmem
      · rw [List.mem_singleton.mp hmem] at hroot ⊢
        exact Or.inl (hd.resolve_right hroot)

/-- A device that is not marked is added. -/
theorem Named.add (h : Distinct devices) (hst : Named devices ldp pre st) (hd : d ∈ devices.zipIdx)
    (hpre : d ∉ pre) (hldp : ldp d.2 ≠ none) (hsame : ldp d.2 = d.1.ldp) (isHardDrive : Bool) :
    Named devices ldp (pre ++ [d]) (st.add isHardDrive d) := by
  have hnew : d.1 ∉ st.added := fun hadded => hpre ((hst.added d hd hadded).2 hldp)
  have hstldp : st.ldp d.2 = d.1.ldp := by rw [hst.ldp_eq, hsame]
  obtain ⟨hlisted, hmem⟩ := hst.toListed.add h hd hstldp hnew isHardDrive
  refine ⟨hlisted, ?_, fun e he hadded => ?_, fun e he hroot hdone => ?_⟩
  · rw [NameState.add_ldp, hst.ldp_eq]
  · rcases (hmem e.1).mp hadded with heq | hadded
    · rw [h.eq_of_dp_eq he hd (congrArg EfidiskData.dp heq)]
      exact ⟨fun hnone => absurd hnone hldp, fun _ => List.mem_append_right _ List.mem_cons_self⟩
    · obtain ⟨hroot, hdone⟩ := hst.added e he hadded
      exact ⟨hroot, fun hne => List.mem_append_left _ (hdone hne)⟩
  · rw [hmem]
    rcases hdone with hnone | hdone
    · exact Or.inr (hst.root e he hroot (Or.inl hnone))
    · rcases List.mem_append.mp hdone with hdone | hdone
      · exact Or.inr (hst.root e he hroot (Or.inr hdone))
      · exact Or.inl (congrArg Prod.fst (List.mem_singleton.mp hdone))

/-- One step of the second pass. -/
theorem Named.step (h : Distinct devices) (hst : Named devices ldp pre st) (hd : d ∈ devices.zipIdx)
    (hpre : d ∉ pre) (hsame : ldp d.2 = none ∨ ldp d.2 = d.1.ldp) :
    Named devices ldp (pre ++ [d]) (nameDevice devices st d) := by
  rw [nameDevice, hst.ldp_eq]
  cases hldp : ldp d.2 with
  | none => exact hst.skip (Or.inl hldp)
  | some dp =>
      have hne : ldp d.2 ≠ none := by
        rw [hldp]
        exact Option.some_ne_none dp
      have hadd := hst.add h hd hpre hne (hsame.resolve_left hne)
      dsimp only
      split_ifs with happle
      · exact hst.skip (Or.inr ((findParentDevice_isSome_iff h hd).mp happle.2))
      · exact hadd true
      · exact hadd false
      · exact hadd true

/-- The second pass, behind the first. -/
theorem named_of_foldl (h : Distinct devices) (hst : Identified devices devices.zipIdx st) :
    Named devices st.ldp devices.zipIdx (devices.zipIdx.foldl (nameDevice devices) st) := by
  have hnodup : devices.zipIdx.Nodup := (List.nodup_zipIdx_map_snd devices).of_map _
  refine @foldl_induction _ _ (Named devices st.ldp) _ _ (fun pre d post st' hall hst' => ?_) _ ?_
  · have hd : d ∈ devices.zipIdx := hall ▸ List.mem_append_right _ List.mem_cons_self
    refine hst'.step h hd ?_ (hst.ldp_eq d hd)
    intro hpre
    rw [hall] at hnodup
    exact (List.disjoint_of_nodup_append hnodup) hpre List.mem_cons_self
  · refine ⟨hst.toListed, rfl, fun d hd hadded => ?_, fun d hd hroot hdone => ?_⟩
    · obtain ⟨hroot, hnone⟩ := hst.added d hd hadded
      exact ⟨fun _ => hroot, fun hne => absurd hnone hne⟩
    · have hnone := hdone.resolve_right List.not_mem_nil
      exact (hst.marked d hd hnone).resolve_left hroot

end

/-! ## The lists -/

/-- The devices that are made have a last node. -/
theorem mem_makeDevices {handles : List EfiHandle} {d : EfidiskData} (h : d ∈ makeDevices handles) :
    d.ldp ≠ none := by
  rw [makeDevices, List.mem_reverse] at h
  obtain ⟨handle, -, hd⟩ := List.mem_filterMap.mp h
  rw [makeDevice] at hd
  obtain ⟨dp, -, hd⟩ := Option.bind_eq_some_iff.mp hd
  obtain ⟨ldp, -, hd⟩ := Option.bind_eq_some_iff.mp hd
  obtain ⟨bio, -, hd⟩ := Option.bind_eq_some_iff.mp hd
  split_ifs at hd
  rw [← Option.some.inj hd]
  exact Option.some_ne_none ldp

/-- **No device is lost or duplicated.** If the paths of the devices are well-formed and distinct, no
device is twice on the lists of hard drives and CD-ROMs, a device without a parent is on exactly one of
them, and a hard drive or CD-ROM node with a parent is on none. -/
theorem nameDevices_classifies {handles : List EfiHandle}
    (hpath : ∀ d ∈ makeDevices handles, IsDevicePath d.dp)
    (hdistinct : ((makeDevices handles).map (·.dp)).Nodup) :
    let st := nameDevices (makeDevices handles)
    (∀ d ∈ st.efiHd ++ st.efiCd, d ∈ makeDevices handles) ∧
      ((st.efiHd ++ st.efiCd).map (·.dp)).Nodup ∧
      (∀ d ∈ makeDevices handles, ¬HasParent (makeDevices handles) d →
        Xor (d ∈ st.efiHd) (d ∈ st.efiCd)) ∧
      ∀ d ∈ makeDevices handles, IsMediaNode d → HasParent (makeDevices handles) d →
        d ∉ st.efiHd ∧ d ∉ st.efiCd := by
  have h : Distinct (makeDevices handles) := ⟨hpath, hdistinct⟩
  have hfirst := identified_of_foldl h fun d hd => mem_makeDevices hd
  have hst := named_of_foldl h hfirst
  dsimp only
  refine ⟨hst.mem, hst.nodup, fun d hd hroot => ?_, fun d hd hmedia hparent => ?_⟩
  · obtain ⟨i, hi⟩ := exists_mem_zipIdx hd
    have hadded := hst.root _ hi hroot (Or.inr hi)
    have hnodup := hst.nodup.of_map
    rcases List.mem_append.mp hadded with hhd | hcd
    · exact Or.inl ⟨hhd, fun hcd => (List.disjoint_of_nodup_append hnodup) hhd hcd⟩
    · exact Or.inr ⟨hcd, fun hhd => (List.disjoint_of_nodup_append hnodup) hhd hcd⟩
  · obtain ⟨i, hi⟩ := exists_mem_zipIdx hd
    have hnot : d ∉ (nameDevices (makeDevices handles)).added := fun hadded =>
      (hst.added _ hi hadded).1 (hfirst.media _ hi hmedia hparent) hparent
    exact ⟨fun hhd => hnot (List.mem_append_left _ hhd), fun hcd => hnot (List.mem_append_right _ hcd)⟩

/-- The protocol of a drive with blocks of 512 bytes. -/
def driveBio : BlockIo := ⟨⟨1, false, 512⟩, fun _ _ _ => none⟩

/-- The node of a drive. -/
def driveNode : List UInt8 := [1, 1, 6, 0, 0, 0]

/-- The node of a partition. -/
def partitionNode : List UInt8 := [4, 1, 4, 0]

/-- A drive. -/
def drive : EfidiskData :=
  ⟨1, encodePath [driveNode], some (driveNode ++ endNode), driveBio⟩

/-- A partition on the drive. -/
def drivePartition : EfidiskData :=
  ⟨2, encodePath [driveNode, partitionNode], some (partitionNode ++ endNode), driveBio⟩

/-- The handles of the drive and of the partition. -/
def driveHandles : List EfiHandle :=
  [⟨drive.handle, some drive.dp, some driveBio⟩,
    ⟨drivePartition.handle, some drivePartition.dp, some driveBio⟩]

/-- The drive is on one list, and the partition is not. -/
theorem nameDevices_classifies_drive :
    Xor (drive ∈ (nameDevices (makeDevices driveHandles)).efiHd)
        (drive ∈ (nameDevices (makeDevices driveHandles)).efiCd) ∧
      drivePartition ∉ (nameDevices (makeDevices driveHandles)).efiHd ∧
      drivePartition ∉ (nameDevices (makeDevices driveHandles)).efiCd := by
  have hmake {d : EfidiskData} {ldp : List UInt8} (hlast : findLastDevicePath d.dp = some ldp)
      (hbio : d.bio = driveBio) (hldp : d.ldp = some ldp) :
      makeDevice ⟨d.handle, some d.dp, some driveBio⟩ = some d := by
    have husable : isUsable driveBio.media = true := by decide
    show (findLastDevicePath d.dp).bind (fun ldp => if isUsable driveBio.media then
      some ⟨d.handle, d.dp, some ldp, driveBio⟩ else none) = some d
    rw [hlast, Option.bind_some, if_pos husable, ← hldp, ← hbio]
  have hlast : findLastDevicePath drive.dp = some (driveNode ++ endNode) := by decide
  have hlast' : findLastDevicePath drivePartition.dp = some (partitionNode ++ endNode) := by decide
  have hdevices : makeDevices driveHandles = [drivePartition, drive] := by
    rw [makeDevices, driveHandles, List.filterMap_cons_some (hmake (d := drive) hlast rfl rfl),
      List.filterMap_cons_some (hmake (d := drivePartition) hlast' rfl rfl)]
    rfl
  have hdrive : IsNode driveNode := ⟨⟨by decide, by decide⟩, by decide⟩
  have hpartition : IsNode partitionNode := ⟨⟨by decide, by decide⟩, by decide⟩
  have hpath : ∀ d ∈ makeDevices driveHandles, IsDevicePath d.dp := by
    rw [hdevices]
    rintro d hd
    rcases List.mem_cons.mp hd with rfl | hd
    · exact ⟨[driveNode, partitionNode], by simp [hdrive, hpartition], rfl⟩
    · rw [List.mem_singleton.mp hd]
      exact ⟨[driveNode], by simp [hdrive], rfl⟩
  have hdistinct : ((makeDevices driveHandles).map (·.dp)).Nodup := by
    rw [hdevices]
    decide
  have hmem : drive ∈ makeDevices driveHandles := by
    rw [hdevices]
    exact List.mem_cons_of_mem _ List.mem_cons_self
  have hmem' : drivePartition ∈ makeDevices driveHandles := by
    rw [hdevices]
    exact List.mem_cons_self
  have hroot : ¬HasParent (makeDevices driveHandles) drive := by
    rintro ⟨p, hp, hparent⟩
    obtain ⟨copy, hcopy, hcmp⟩ := (isParentPath_iff (hpath p hp) (hpath drive hmem)).mp hparent
    have hcopy' : parentDevicePath drive.dp = some (endNode ++ [0, 0] ++ endNode) := by decide
    rw [hcopy', Option.some.injEq] at hcopy
    rw [← hcopy] at hcmp
    rw [hdevices] at hp
    rcases List.mem_cons.mp hp with rfl | hp
    · exact absurd hcmp (by decide)
    · rw [List.mem_singleton.mp hp] at hcmp
      exact absurd hcmp (by decide)
  have hparent : HasParent (makeDevices driveHandles) drivePartition :=
    ⟨drive, hmem, [driveNode], partitionNode, List.forall_mem_singleton.mpr hdrive, hpartition, rfl,
      rfl⟩
  obtain ⟨-, -, hone, hnone⟩ := nameDevices_classifies hpath hdistinct
  exact ⟨hone drive hmem hroot, hnone drivePartition hmem'
    ⟨partitionNode ++ endNode, rfl, by decide, by decide⟩ hparent⟩

end Ntloader.Disk
