import Ntloader.Bcd.Patch
import Ntloader.Lib.Fields

/-!
# The data of patched elements

A patch that finds its element, with room for its value, stores the value there: a byte, a number, a
string with zeros behind it, or the description of a device.

* `diskInfo`, `deviceBytes` — include/bcd.h, struct bcd_disk_info, and a device element around it.
* `Change.encoding`, `Change.Fits` — the data of an element after its patch, and the length they need.
* `Patch.run_eq` — what every patch stores.
-/

namespace Ntloader.Bcd

open Ntloader.Lib Ntloader.Posix Ntloader.Charset Ntloader.Kern Ntloader.Reg

/-! ## Values -/

/-- A string in UCS-2, up to its NUL. -/
def ucs2 (s : List UInt8) : List UInt16 := utf8ToUcs2 s.length s

/-- A disk.
Source: include/bcd.h, struct bcd_disk_info -/
def diskInfo (args : NtArgs) : List UInt8 :=
  leBytes 4 (if args.fsuuid.bytes.headD 0 ≠ 0 then 6 else 5) ++ -- infotype
    leBytes 4 0 ++ -- pad1
    leBytes 4 0x48 ++ -- infolen
    leBytes 4 0 ++ -- pad2
    args.partid.bytes ++
    leBytes 4 0 ++ -- pad3
    leBytes 4 args.partmap.toNat ++
    args.diskid.bytes ++
    List.replicate 16 0 -- pad4

/-- What stands in front of the disk in a device element: the lengths of the element and of its parts,
counted from their starts. -/
def deviceHeader : BootType → List UInt8
  | .ntbootWim | .ntbootRam =>
      guidBinRamdisk ++ leBytes 4 0 ++ leBytes 4 1 ++ leBytes 8 (0x28a - 0x10) ++ leBytes 8 3 ++
        List.replicate 16 0 ++ leBytes 4 1 ++ leBytes 4 (0x28a - 0x38) ++ leBytes 4 5
  | .ntbootVhd =>
      List.replicate 16 0 ++ leBytes 8 8 ++ leBytes 8 (0x2bc - 0x10) ++ leBytes 4 0 ++
        [0x02, 0, 0, 0x12, 0x1e] ++ List.replicate 13 0 ++ leBytes 8 (0x2bc - 0x2e) ++ leBytes 8 6 ++
        List.replicate 24 0 ++ leBytes 8 (0x2bc - 0x56) ++ leBytes 4 5 ++ leBytes 4 1 ++
        leBytes 4 (0x2bc - 0x6a) ++ leBytes 4 5
  | .ntbootWos | .ntbootRec => List.replicate 16 0

/-- A device: its disk and, for an image, the path on the disk. -/
def deviceBytes (args : NtArgs) (boottype : BootType) : List UInt8 :=
  deviceHeader boottype ++ (diskInfo args ++
    if boottype = .ntbootWim ∨ boottype = .ntbootVhd ∨ boottype = .ntbootRam then
      unitBytes (utf8ToUcs2 maxPath args.filepath.bytes)
    else [])

/-- The data of an element of a length, after its patch. -/
def Change.encoding (args : NtArgs) (len : ℕ) : Change → List UInt8
  | .delete => []
  | .bool val => [val]
  | .u64 val => leBytes 8 val
  | .sz s => padded len (unitBytes (ucs2 s))
  | .szw s => padded len (unitBytes s)
  | .dp boottype => padded len (deviceBytes args boottype)

/-- An element of a length can hold the value; a string needs a zero behind it. -/
def Change.Fits (len : ℕ) : Change → Prop
  | .delete => True
  | .bool _ => len = 1
  | .u64 _ => len = 8
  | .sz s => 2 * ((ucs2 s).length + 1) ≤ len
  | .szw s => 2 * (s.length + 1) ≤ len
  | .dp boottype => dpLength boottype ≤ len

/-! ## Strings -/

/-- A bound on the units cuts the string. -/
theorem utf8ToUcs2_take (n : ℕ) {k : ℕ} {s : List UInt8} (hk : s.length ≤ k) :
    utf8ToUcs2 n s = (utf8ToUcs2 k s).take n := by
  induction n generalizing s k with
  | zero => rw [utf8ToUcs2, List.take_zero]
  | succ n ih =>
      rcases s with _ | ⟨c, s⟩
      · cases k with
        | zero => rw [utf8ToUcs2, utf8ToUcs2, List.take_nil]
        | succ k => rw [utf8ToUcs2, utf8ToUcs2, List.take_nil]
      · rw [List.length_cons] at hk
        obtain ⟨k, rfl⟩ := Nat.exists_eq_succ_of_ne_zero (show k ≠ 0 by omega)
        have htail : s.tail.length ≤ k := by
          rw [List.length_tail]
          omega
        have htails : s.tail.tail.length ≤ k := by
          rw [List.length_tail]
          omega
        rw [utf8ToUcs2, utf8ToUcs2]
        split_ifs
        · rfl
        · rw [List.take_succ_cons, ← ih (by omega)]
        · rw [List.take_succ_cons, ← ih htail]
        · rw [List.take_succ_cons, ← ih htails]
        · rw [List.take_succ_cons, List.take_nil]

/-- A string with enough room is converted as a whole. -/
theorem utf8ToUcs2_eq_ucs2 {n : ℕ} {s : List UInt8} (h : (ucs2 s).length ≤ n) :
    utf8ToUcs2 n s = ucs2 s := by
  unfold ucs2 at h ⊢
  rw [utf8ToUcs2_take n le_rfl, List.take_of_length_le h]

/-! ## Devices -/

/-- A byte as a number of four bytes. -/
theorem leBytes_toNat (b : UInt8) : leBytes 4 b.toNat = [b, 0, 0, 0] := by
  have hb := b.toNat_lt
  have hzero : b.toNat / 256 = 0 := Nat.div_eq_of_lt hb
  simp only [leBytes, hzero, UInt8.ofNat_toNat, Nat.zero_div]
  rfl

/-- What is written in front of a device is its header, -/
theorem deviceHeader_eq (boottype : BootType) :
    padded (dpOfs boottype) (laid [] (dpHeader boottype)) = deviceHeader boottype := by
  cases boottype <;> decide +kernel

/-- which ends where the device starts. -/
theorem deviceHeader_length (boottype : BootType) : (deviceHeader boottype).length = dpOfs boottype := by
  cases boottype <;> rfl

/-- The header ends in front of the disk, and its fields are in order. -/
theorem dpHeader_inOrder (boottype : BootType) :
    (laid [] (dpHeader boottype)).length ≤ dpOfs boottype ∧ InOrder 0 (dpHeader boottype) := by
  cases boottype <;> refine ⟨by decide +kernel, ?_⟩ <;> simp [dpHeader, InOrder, guidBinRamdisk]

/-- The information on the disk is as long as its fields. -/
theorem laid_dpDisk (args : NtArgs) :
    (laid [] (dpDisk args)).length = 0x38 ∧
      diskInfo args = laid [] (dpDisk args) ++ List.replicate 16 0 := by
  have hpart := args.partid.length_eq
  have hdisk := args.diskid.length_eq
  unfold dpDisk diskInfo
  rw [leBytes_toNat]
  constructor
  · simp [laid, padded, hpart, hdisk]
  · split_ifs <;> simp [laid, padded, hpart, leBytes]

/-- The fields of the disk and the path, behind the header. -/
theorem laid_device (args : NtArgs) (boottype : BootType) {len : ℕ} (h : dpLength boottype ≤ len) :
    padded len (laid (laid [] (dpHeader boottype))
        ((dpDisk args ++ dpPath args boottype).map fun w => (dpOfs boottype + w.1, w.2))) =
      padded len (deviceBytes args boottype) := by
  have hofs : dpOfs boottype + 0x48 ≤ dpLength boottype := by cases boottype <;> decide
  have hheader := deviceHeader_length boottype
  obtain ⟨hdisk, hinfo⟩ := laid_dpDisk args
  have hfirst : laid (laid [] (dpHeader boottype))
        ((dpDisk args ++ dpPath args boottype).map fun w => (dpOfs boottype + w.1, w.2)) =
      deviceHeader boottype ++ laid (laid [] (dpDisk args)) (dpPath args boottype) := by
    have hpadded := laid_map_add (deviceHeader boottype) [] (dpDisk args ++ dpPath args boottype)
    rw [List.append_nil, hheader, ← deviceHeader_eq, laid_append] at hpadded
    rw [← deviceHeader_eq, ← hpadded]
    exact (laid_padded (dpHeader_inOrder boottype).1 _).symm
  rw [hfirst]
  unfold deviceBytes dpPath
  rw [hinfo]
  by_cases hpath : boottype = .ntbootWim ∨ boottype = .ntbootVhd ∨ boottype = .ntbootRam
  · rw [if_pos hpath, if_pos hpath, laid, laid, padded.eq_1 0x48, hdisk]
  · rw [if_neg hpath, if_neg hpath, laid, List.append_nil, ← List.append_assoc,
      padded_append_replicate]
    rw [List.length_append, hheader, hdisk]
    omega

/-- The fields of the disk and the path are in order. -/
theorem inOrder_device (args : NtArgs) (boottype : BootType) :
    InOrder (laid [] (dpHeader boottype)).length
      ((dpDisk args ++ dpPath args boottype).map fun w => (dpOfs boottype + w.1, w.2)) := by
  have hpart := args.partid.length_eq
  have hdisk := args.diskid.length_eq
  have hheader := (dpHeader_inOrder boottype).1
  unfold dpDisk dpPath
  split_ifs <;> simp [InOrder, hpart, hdisk] <;> omega

/-- **A device element**: the header, the disk and the path, with zeros behind them. -/
theorem bcdPatchDp_encoding (args : NtArgs) {boottype : BootType} (m : Mem) (data : ℕ) {len : ℕ}
    (h : dpLength boottype ≤ len) :
    bcdPatchDp args boottype m data len =
      .ok (m.store data (padded len (deviceBytes args boottype))) := by
  have hinside := dpWrites_inside args h
  unfold dpWrites at hinside
  have hheader := @store_fields len [] m data (dpHeader boottype) (dpHeader_inOrder boottype).2
    fun w hw => hinside w (List.mem_cons_of_mem _ (List.mem_append_left _ hw))
  have hdevice := store_fields m data (inOrder_device args boottype)
    fun w hw => hinside w (List.mem_cons_of_mem _ (List.mem_append_right _ hw))
  rw [laid_device args boottype h] at hdevice
  rw [bcdPatchDp_eq m data h]
  unfold dpWrites pokes
  rw [List.cons_append, List.foldl_cons, List.foldl_append, Nat.add_zero, ← padded_nil, hheader,
    hdevice]

/-- A device fits the length that is checked. -/
theorem deviceBytes_length (args : NtArgs) (boottype : BootType) :
    (deviceBytes args boottype).length ≤ dpLength boottype := by
  have hinfo : (diskInfo args).length = 0x48 := by
    have hpart := args.partid.length_eq
    have hdisk := args.diskid.length_eq
    simp [diskInfo, hpart, hdisk]
  have hunits := utf8ToUcs2_length_le maxPath args.filepath.bytes
  have hbytes := unitBytes_length (utf8ToUcs2 maxPath args.filepath.bytes)
  unfold deviceBytes
  rw [List.length_append, List.length_append, deviceHeader_length, hinfo]
  by_cases hpath : boottype = .ntbootWim ∨ boottype = .ntbootVhd ∨ boottype = .ntbootRam
  · have hend := dpOfs_add hpath
    rw [if_pos hpath]
    omega
  · have hofs : dpOfs boottype + 0x48 ≤ dpLength boottype := by cases boottype <;> decide
    rw [if_neg hpath, List.length_nil]
    omega

/-! ## Patches -/

/-- The data of a patched element are as long as they were. -/
theorem Change.encoding_length (args : NtArgs) {len : ℕ} {c : Change} (hc : c ≠ .delete)
    (h : c.Fits len) : (c.encoding args len).length = len := by
  cases c with
  | delete => exact absurd rfl hc
  | bool val => exact Eq.symm h
  | u64 val => exact Eq.symm h
  | sz s =>
      change 2 * ((ucs2 s).length + 1) ≤ len at h
      refine padded_length ?_
      rw [unitBytes_length]
      omega
  | szw s =>
      change 2 * (s.length + 1) ≤ len at h
      refine padded_length ?_
      rw [unitBytes_length]
      omega
  | dp boottype => exact padded_length ((deviceBytes_length args boottype).trans h)

/-- **A patch stores the value**, if it finds the element and the value fits. -/
theorem Patch.run_eq (args : NtArgs) {objects : ℕ} {m : Mem} {p : Patch} {r : ValueData}
    (hp : p.change ≠ .delete) (hfind : bcdFindHive m objects p.guid.units p.keyname.units = .ok r)
    (hfits : p.change.Fits r.length) :
    p.run args objects m = .ok (m.store (dataOf r) (p.change.encoding args r.length)) := by
  obtain ⟨guid, keyname, change⟩ := p
  dsimp only at hp hfind hfits ⊢
  unfold Patch.run
  cases change with
  | delete => exact absurd rfl hp
  | bool val =>
      change r.length = 1 at hfits
      unfold bcdPatchBool
      dsimp only
      rw [hfind, ok_bind, if_neg (not_not_intro hfits)]
      rfl
  | u64 val =>
      change r.length = 8 at hfits
      unfold bcdPatchU64
      dsimp only
      rw [hfind, ok_bind, if_neg (not_not_intro hfits)]
      rfl
  | sz s =>
      change 2 * ((ucs2 s).length + 1) ≤ r.length at hfits
      unfold bcdPatchSz
      dsimp only
      rw [hfind, ok_bind, utf8ToUcs2_eq_ucs2 (by omega), store_fill _ _ (by rw [unitBytes_length]; omega)]
      rfl
  | szw s =>
      change 2 * (s.length + 1) ≤ r.length at hfits
      unfold bcdPatchSzw
      dsimp only
      rw [hfind, ok_bind, if_neg (by omega), store_fill _ _ (by rw [unitBytes_length]; omega)]
      rfl
  | dp boottype =>
      unfold bcdPatchDevice
      dsimp only
      rw [hfind, ok_bind, bcdPatchDp_encoding args m (dataOf r) hfits]
      rfl

end Ntloader.Bcd
