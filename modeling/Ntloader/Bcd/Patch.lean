import Ntloader.Bcd.LoadOptions
import Ntloader.Bcd.Suffix
import Ntloader.Reg.Delete
import Ntloader.Reg.Header
import Ntloader.Reg.Values

/-!
# Patching the BCD

The BCD is a registry hive. Below the key `Objects` it has a key for every object, and below the key
`Elements` of an object a key for every element, whose value holds the data. The loader patches the data
in place, and deletes elements that are not to be there.

* `bcdFindHive`, `bcdDeleteKey`, `bcdPatchBool`, … — libnt/bcd.c.
* `Patch`, `patches` — a call of one of them, and all calls of bcd_patch_data in their order.
* `bcdPatchData` — libnt/bcd.c, bcd_patch_data.
* `patches_pairwise` — no two calls are for the same element.

Scope: `die` gives the message, and the image is left out. An array of characters without a NUL, which
the command line does not leave, is taken to end with its last byte.
-/

namespace Ntloader.Bcd

open Ntloader.Lib Ntloader.Posix Ntloader.Charset Ntloader.Kern Ntloader.Reg

/-! ## Names -/

/-- Objects.
Source: include/bcd.h, GUID_WIMB, .. -/
inductive Guid where
  | wimb
  | vhdb
  | wosb
  | hibr
  | optn
  | bootmgr
  | ramdisk
  deriving Repr, DecidableEq

/-- Source: include/bcd.h, GUID_WIMB, .. -/
def Guid.units : Guid → List UInt16
  | .wimb => Bcd.units "{19260817-6666-8888-abcd-000000000000}"
  | .vhdb => Bcd.units "{19260817-6666-8888-abcd-000000000001}"
  | .wosb => Bcd.units "{19260817-6666-8888-abcd-000000000002}"
  | .hibr => Bcd.units "{19260817-6666-8888-abcd-000000000003}"
  | .optn => Bcd.units "{19260817-6666-8888-abcd-100000000000}"
  | .bootmgr => Bcd.units "{9dea862c-5cdd-4e70-acc1-f32b344d4795}"
  | .ramdisk => Bcd.units "{ae5534e0-a924-466c-b836-758539a3ee3a}"

/-- Elements.
Source: include/bcd.h, BCDOPT_APPDEV, .. -/
inductive BcdOpt where
  | appdev
  | winload
  | cmdline
  | gfxmode
  | advopt
  | optedit
  | text
  | testmode
  | highres
  | osddev
  | sysroot
  | object
  | order
  | timeout
  | nx
  | pae
  | safemode
  | dethal
  | winpe
  | novesa
  | novga
  | altshell
  | sdidev
  | sdipath
  | imgofs
  | exportcd
  deriving Repr, DecidableEq

/-- Source: include/bcd.h, BCDOPT_APPDEV, .. -/
def BcdOpt.units : BcdOpt → List UInt16
  | .appdev => Bcd.units "11000001" -- application device
  | .winload => Bcd.units "12000002" -- winload & winresume
  | .cmdline => Bcd.units "12000030"
  | .gfxmode => Bcd.units "15000052" -- graphicsresolution
  | .advopt => Bcd.units "16000040" -- advanced options
  | .optedit => Bcd.units "16000041" -- options edit
  | .text => Bcd.units "16000046" -- graphicsmodedisabled
  | .testmode => Bcd.units "16000049" -- testsigning
  | .highres => Bcd.units "16000054" -- highest resolution
  | .osddev => Bcd.units "21000001" -- os device
  | .sysroot => Bcd.units "22000002" -- os root & hiberfil
  | .object => Bcd.units "23000003" -- resume / default object
  | .order => Bcd.units "24000001" -- menu display order
  | .timeout => Bcd.units "25000004" -- menu timeout
  | .nx => Bcd.units "25000020"
  | .pae => Bcd.units "25000021"
  | .safemode => Bcd.units "25000080" -- safeboot
  | .dethal => Bcd.units "26000010" -- detect hal
  | .winpe => Bcd.units "26000022" -- minint winpe mode
  | .novesa => Bcd.units "26000042"
  | .novga => Bcd.units "26000043"
  | .altshell => Bcd.units "26000081" -- safeboot alternate shell
  | .sdidev => Bcd.units "31000003" -- sdi ramdisk device
  | .sdipath => Bcd.units "32000004" -- sdi ramdisk path
  | .imgofs => Bcd.units "35000001" -- ramdisk image offset
  | .exportcd => Bcd.units "36000006" -- ramdisk export as cd

/-- Source: include/bcd.h, BCD_REG_ROOT -/
def bcdRegRoot : List UInt16 := units "Objects"

/-- Source: include/bcd.h, BCD_REG_HKEY -/
def bcdRegHkey : List UInt16 := units "Elements"

/-- Source: include/bcd.h, BCD_REG_HVAL -/
def bcdRegHval : List UInt16 := units "Element"

/-! ## Patches of elements -/

/-- The messages of `die`. -/
inductive BcdError where
  /-- `BCD hive load error.` -/
  | loadError
  /-- `Can't find HKEY %ls` -/
  | findHkey (name : List UInt16)
  /-- `Can't find HVAL %ls` -/
  | findHval (name : List UInt16)
  /-- `Can't delete HKEY %ls` -/
  | deleteHkey (name : List UInt16)
  /-- `Invalid bool size %x` -/
  | boolSize (len : ℕ)
  /-- `Invalid u64 size %x` -/
  | u64Size (len : ℕ)
  /-- `Invalid wchar size %zu` -/
  | wcharSize (wlen : ℕ)
  /-- The message for a device element that is too short. -/
  | dpLength (guid keyname : List UInt16) (e : DpError)
  deriving DecidableEq

/-- The result of a call of the registry, or `die`. -/
def orDie {α : Type} (x : Except RegErr α) (e : BcdError) : Except BcdError α := x.mapError fun _ => e

/-- Equation lemma: a result is kept. -/
theorem orDie_ok {α : Type} (a : α) (e : BcdError) : orDie (.ok a) e = .ok a := rfl

/-- Equation lemma: any error is the given one. -/
theorem orDie_error {α : Type} (e' : RegErr) (e : BcdError) :
    orDie (.error e' : Except RegErr α) e = .error e := rfl

/-- It succeeds exactly if the call did. -/
theorem orDie_eq_ok_iff {α : Type} {x : Except RegErr α} {e : BcdError} {a : α} :
    orDie x e = .ok a ↔ x = .ok a := by
  cases x with
  | error _ => simp [orDie_error]
  | ok b => simp [orDie_ok]

/-- Where data are. A null pointer comes with length zero, so that nothing is written there. -/
def dataOf (r : ValueData) : ℕ := r.data.getD 0

section Calls

variable (m : Mem) (objects : ℕ) (guid keyname : List UInt16)

/-- The data of an element.
Source: libnt/bcd.c, bcd_find_hive -/
def bcdFindHive : Except BcdError ValueData := do
  let entry ← orDie (findKey m objects guid) (.findHkey guid)
  let elements ← orDie (findKey m entry bcdRegHkey) (.findHkey bcdRegHkey)
  let key ← orDie (findKey m elements keyname) (.findHkey keyname)
  orDie (queryValue m key bcdRegHval) (.findHval bcdRegHval)

/-- Source: libnt/bcd.c, bcd_delete_key -/
def bcdDeleteKey : Except BcdError Mem := do
  let entry ← orDie (findKey m objects guid) (.findHkey guid)
  let elements ← orDie (findKey m entry bcdRegHkey) (.findHkey bcdRegHkey)
  let key ← orDie (findKey m elements keyname) (.findHkey keyname)
  let (status, m) := deleteKey m elements key
  orDie status (.deleteHkey keyname)
  return m

/-- Source: libnt/bcd.c, bcd_patch_bool -/
def bcdPatchBool (val : UInt8) : Except BcdError Mem := do
  let r ← bcdFindHive m objects guid keyname
  if r.length ≠ 1 then .error (.boolSize r.length)
  else .ok (m.store (dataOf r) [val])

/-- Source: libnt/bcd.c, bcd_patch_u64 -/
def bcdPatchU64 (val : ℕ) : Except BcdError Mem := do
  let r ← bcdFindHive m objects guid keyname
  if r.length ≠ 8 then .error (.u64Size r.length)
  else .ok (m.putWord (dataOf r) 8 val)

/-- Source: libnt/bcd.c, bcd_patch_sz -/
def bcdPatchSz (s : List UInt8) : Except BcdError Mem := do
  let r ← bcdFindHive m objects guid keyname
  let m := m.fill (dataOf r) 0 r.length
  .ok (m.store (dataOf r) (unitBytes (utf8ToUcs2 (r.length / 2) s)))

/-- Source: libnt/bcd.c, bcd_patch_szw -/
def bcdPatchSzw (s : List UInt16) : Except BcdError Mem := do
  let wlen := s.length * 2
  let r ← bcdFindHive m objects guid keyname
  if r.length < wlen then .error (.wcharSize wlen)
  else
    let m := m.fill (dataOf r) 0 r.length
    .ok (m.store (dataOf r) (unitBytes s))

/-- Source: libnt/bcd.c, bcd_patch_dp, with bcd_find_hive -/
def bcdPatchDevice (args : NtArgs) (boottype : BootType) : Except BcdError Mem := do
  let r ← bcdFindHive m objects guid keyname
  (bcdPatchDp args boottype m (dataOf r) r.length).mapError (.dpLength guid keyname)

end Calls

/-! ## All patches -/

/-- What a patch does with its element: delete it, or give it a value. -/
inductive Change where
  | delete
  | bool (val : UInt8)
  | u64 (val : ℕ)
  | sz (s : List UInt8)
  | szw (s : List UInt16)
  | dp (boottype : BootType)
  deriving DecidableEq

/-- A call of one of the functions that patch or delete an element. -/
structure Patch where
  guid : Guid
  keyname : BcdOpt
  change : Change
  deriving DecidableEq

/-- The call. -/
def Patch.run (args : NtArgs) (objects : ℕ) (m : Mem) (p : Patch) : Except BcdError Mem :=
  match p.change with
  | .delete => bcdDeleteKey m objects p.guid.units p.keyname.units
  | .bool val => bcdPatchBool m objects p.guid.units p.keyname.units val
  | .u64 val => bcdPatchU64 m objects p.guid.units p.keyname.units val
  | .sz s => bcdPatchSz m objects p.guid.units p.keyname.units s
  | .szw s => bcdPatchSzw m objects p.guid.units p.keyname.units s
  | .dp boottype => bcdPatchDevice m objects p.guid.units p.keyname.units args boottype

/-- Source: libnt/bcd.c, bcd_patch_data, entry_guid -/
def entryGuid : BootType → Guid
  | .ntbootVhd => .vhdb
  | .ntbootWos => .wosb
  | .ntbootWim | .ntbootRam | .ntbootRec => .wimb

section Patches

variable (args : NtArgs)

/-- Patch Objects->{BootMgr}
Source: libnt/bcd.c, bcd_patch_data -/
def bootmgrPatches : List Patch :=
  [⟨.bootmgr, .object, .szw (entryGuid args.boottype).units⟩, -- default object
    ⟨.bootmgr, .order, .szw (entryGuid args.boottype).units⟩, -- menu display order
    ⟨.bootmgr, .timeout, .u64 args.timeout⟩] -- timeout

/-- Patch Objects->{Resume}
Source: libnt/bcd.c, bcd_patch_data -/
def resumePatches : List Patch :=
  [⟨.hibr, .appdev, .dp .ntbootRec⟩, -- app device
    ⟨.hibr, .osddev, .dp .ntbootRec⟩, -- os device
    ⟨.hibr, .winload, .sz (str "\\Windows\\System32\\winresume.efi")⟩, -- resume
    ⟨.hibr, .sysroot, .sz (str "\\hiberfil.sys")⟩] -- hiberfil

/-- Patch Objects->{Ramdisk}
Source: libnt/bcd.c, bcd_patch_data -/
def ramdiskPatches : List Patch :=
  if args.boottype = .ntbootRam then
    [⟨.ramdisk, .sdidev, .delete⟩, ⟨.ramdisk, .sdipath, .delete⟩,
      ⟨.ramdisk, .exportcd, .bool args.exportcd⟩, ⟨.ramdisk, .imgofs, .u64 args.imgofs⟩]
  else [⟨.ramdisk, .exportcd, .delete⟩, ⟨.ramdisk, .imgofs, .delete⟩]

/-- Patch Objects->{Options}
Source: libnt/bcd.c, bcd_patch_data -/
def optionsPatches : List Patch :=
  [⟨.optn, .cmdline, .sz args.loadopt.bytes⟩, ⟨.optn, .testmode, .bool args.testmode⟩,
    ⟨.optn, .dethal, .bool args.hal⟩, ⟨.optn, .winpe, .bool args.minint⟩,
    ⟨.optn, .novga, .bool args.novga⟩, ⟨.optn, .novesa, .bool args.novesa⟩,
    ⟨.optn, .advopt, .bool args.advmenu⟩, ⟨.optn, .optedit, .bool args.optedit⟩,
    ⟨.optn, .text, .bool args.textmode⟩, ⟨.optn, .nx, .u64 args.nx⟩, ⟨.optn, .pae, .u64 args.pae⟩]

/-- Patch Objects->{Resolution}
Source: libnt/bcd.c, bcd_patch_data -/
def resolutionPatches : List Patch :=
  if args.hires = ntargBoolNa then
    [⟨.optn, .highres, .delete⟩, ⟨.optn, .gfxmode, .u64 args.gfxmode⟩]
  else [⟨.optn, .gfxmode, .delete⟩, ⟨.optn, .highres, .bool args.hires⟩]

/-- Source: libnt/bcd.c, bcd_patch_data, `if (nt_cmdline->safemode)` -/
def safemodePatches : List Patch :=
  if args.safemode ≠ 0 then
    [⟨.optn, .safemode, .u64 args.safeboot⟩, ⟨.optn, .altshell, .bool args.altshell⟩]
  else [⟨.optn, .safemode, .delete⟩, ⟨.optn, .altshell, .delete⟩]

/-- Patch Objects->{Entry}
Source: libnt/bcd.c, bcd_patch_data -/
def entryPatches : List Patch :=
  [⟨entryGuid args.boottype, .appdev, .dp args.boottype⟩, -- app device
    ⟨entryGuid args.boottype, .osddev, .dp args.boottype⟩, -- os device
    ⟨entryGuid args.boottype, .winload, .sz args.winload.bytes⟩,
    ⟨entryGuid args.boottype, .sysroot, .sz args.sysroot.bytes⟩]

/-- All calls, in their order.
Source: libnt/bcd.c, bcd_patch_data -/
def patches : List Patch :=
  bootmgrPatches args ++ resumePatches ++ ramdiskPatches args ++ optionsPatches args ++
    resolutionPatches args ++ safemodePatches args ++ entryPatches args

end Patches

/-- The calls for a hive that is open.
Source: libnt/bcd.c, bcd_patch_data, from reg_find_root on -/
def patchHive (args : NtArgs) (m : Mem) : Except BcdError Mem := do
  let objects ← orDie (findKey m (rootKey m) bcdRegRoot) (.findHkey bcdRegRoot)
  (patches args).foldlM (Patch.run args objects) m

/-- The image in front of the rewriting of suffixes.
Source: libnt/bcd.c, bcd_patch_data, up to `if (efi_systab)` -/
def patchElements (fuel : ℕ) (args : NtArgs) (m : Mem) : Option (Except BcdError Mem) :=
  (regOpenHive fuel m).map fun opened => orDie opened .loadError >>= patchHive args

/-- Source: libnt/bcd.c, bcd_patch_data -/
def bcdPatchData (fuel : ℕ) (efi : Bool) (args : NtArgs) (length : ℕ) (m : Mem) :
    Option (Except BcdError Mem) :=
  (patchElements fuel args m).map fun r => r.map fun m => patchSuffix efi m 0 length

/-! ## Targets -/

/-- The names of an object and of an element. A name is one component of a path. -/
structure Target where
  guid : List UInt16
  keyname : List UInt16
  guid_component : backslash ∉ guid
  keyname_component : backslash ∉ keyname

/-- The same names. -/
def sameTarget (s t : Target) : Prop := sameName s.guid t.guid ∧ sameName s.keyname t.keyname

/-- Targets are the same as each other. -/
theorem sameTarget_symm {s t : Target} (h : sameTarget s t) : sameTarget t s :=
  ⟨sameName_symm h.1, sameName_symm h.2⟩

/-- All objects. -/
def Guid.all : List Guid := [.wimb, .vhdb, .wosb, .hibr, .optn, .bootmgr, .ramdisk]

/-- Every object is listed. -/
theorem Guid.mem_all (g : Guid) : g ∈ Guid.all := by cases g <;> decide

/-- All elements. -/
def BcdOpt.all : List BcdOpt :=
  [.appdev, .winload, .cmdline, .gfxmode, .advopt, .optedit, .text, .testmode, .highres, .osddev,
    .sysroot, .object, .order, .timeout, .nx, .pae, .safemode, .dethal, .winpe, .novesa, .novga,
    .altshell, .sdidev, .sdipath, .imgofs, .exportcd]

/-- Every element is listed. -/
theorem BcdOpt.mem_all (e : BcdOpt) : e ∈ BcdOpt.all := by cases e <;> decide

/-- What is evaluated of the names: those of the objects differ, and so do those of the elements, none of
them has a separator, and none of the elements has the name of one of the keys above it. -/
theorem names_checks :
    (∀ g ∈ Guid.all, (∀ h ∈ Guid.all, sameName g.units h.units → g = h) ∧ backslash ∉ g.units) ∧
    ∀ e ∈ BcdOpt.all, (∀ f ∈ BcdOpt.all, sameName e.units f.units → e = f) ∧ backslash ∉ e.units ∧
      ¬sameName bcdRegRoot e.units ∧ ¬sameName bcdRegHkey e.units := by
  decide +kernel

/-- Objects have names of their own. -/
theorem Guid.eq_of_sameName {g h : Guid} (hname : sameName g.units h.units) : g = h :=
  (names_checks.1 g g.mem_all).1 h h.mem_all hname

/-- Elements have names of their own. -/
theorem BcdOpt.eq_of_sameName {e f : BcdOpt} (hname : sameName e.units f.units) : e = f :=
  (names_checks.2 e e.mem_all).1 f f.mem_all hname

/-- Names have no separator. -/
theorem Guid.backslash_notMem (g : Guid) : backslash ∉ g.units := (names_checks.1 g g.mem_all).2

/-- Elements are one component of a path as well. -/
theorem BcdOpt.backslash_notMem (e : BcdOpt) : backslash ∉ e.units := (names_checks.2 e e.mem_all).2.1

/-- The target of a patch. -/
def Patch.target (p : Patch) : Target where
  guid := p.guid.units
  keyname := p.keyname.units
  guid_component := p.guid.backslash_notMem
  keyname_component := p.keyname.backslash_notMem

/-- No element has the name of one of the keys above it. -/
theorem BcdOpt.not_sameName (e : BcdOpt) :
    ¬sameName bcdRegRoot e.units ∧ ¬sameName bcdRegHkey e.units :=
  (names_checks.2 e e.mem_all).2.2

/-- The targets of all patches are distinct, whatever the arguments. -/
theorem patches_nodup (args : NtArgs) : ((patches args).map fun p => (p.guid, p.keyname)).Nodup := by
  unfold patches bootmgrPatches resumePatches ramdiskPatches optionsPatches resolutionPatches
    safemodePatches entryPatches entryGuid
  simp only [List.map_append]
  cases args.boottype <;> split_ifs <;> simp only [List.map_cons, List.map_nil] <;> decide +kernel

/-- **No two patches are for the same element.** -/
theorem patches_pairwise (args : NtArgs) : (patches args).Pairwise fun p q =>
    ¬sameTarget p.target q.target ∧ ¬sameTarget q.target p.target := by
  have hnodup := patches_nodup args
  unfold List.Nodup at hnodup
  rw [List.pairwise_map] at hnodup
  refine hnodup.imp fun {p q} hne => ?_
  have hpq : ¬sameTarget p.target q.target := by
    rintro ⟨hguid, hkeyname⟩
    exact hne (Prod.ext (Guid.eq_of_sameName hguid) (BcdOpt.eq_of_sameName hkeyname))
  exact ⟨hpq, fun h => hpq (sameTarget_symm h)⟩

end Ntloader.Bcd
