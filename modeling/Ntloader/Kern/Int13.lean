import Ntloader.Vdisk.Mount

/-!
# The INT 13 hook

The loaded program calls the BIOS through a table of callbacks. The callback for interrupts hands them
on, but for those of the emulated drive, which it serves from the virtual disk.

* `BootappCallbackParams` — the registers of a call; `realPtr` — the address of a real-mode pointer.
* `emulateInt13`, `callInterruptWrapper` — the hook.
* `GuestStep`, `runGuest` — what the loaded program does: it writes to memory and calls interrupts.
* `int13Device_serves` — extended reads of the emulated drive serve the virtual disk.
* `runGuest_congr`, `runGuest_eq` — the BIOS is not asked for the emulated drive, and answers every
  other call.

Scope: `call_interrupt` is a parameter; the flags that `pushf` saves may be others in every call. The
contents of the files are not in the memory that the loaded program writes to. Placeholders in the
structure of the parameters are left out, as are `enable_paging` and `disable_paging`.
-/

namespace Ntloader.Kern

open Ntloader.Lib Ntloader.Lib.Mem
open Ntloader.Vdisk

/-! ## The parameters of a call -/

/-- A 32-bit register, with the bytes and the upper half that the unions of the structure name. -/
structure Reg where
  /-- Low byte. -/
  l : UInt8
  /-- High byte. -/
  h : UInt8
  /-- Upper half. -/
  upper : UInt16
  deriving DecidableEq

/-- The lower half. -/
def Reg.x (r : Reg) : ℕ := r.l.toNat + 256 * r.h.toNat

/-- Set the lower half. -/
def Reg.setX (r : Reg) (v : ℕ) : Reg :=
  { r with l := UInt8.ofNat v, h := UInt8.ofNat (v / 256) }

/-- Real-mode callback parameters.
Source: include/bootapp.h, struct bootapp_callback_params -/
structure BootappCallbackParams where
  /-- Interrupt number. -/
  interrupt : UInt32
  /-- `%eax` value. -/
  eax : Reg
  /-- `%ebx` value. -/
  ebx : Reg
  /-- `%ecx` value. -/
  ecx : Reg
  /-- `%edx` value. -/
  edx : Reg
  /-- `%esi` value. -/
  esi : Reg
  /-- `%edi` value. -/
  edi : Reg
  /-- `%ds` value. -/
  ds : UInt32
  /-- `%es` value. -/
  es : UInt32
  /-- `%fs` value. -/
  fs : UInt32
  /-- `%gs` value. -/
  gs : UInt32
  /-- eflags value. -/
  eflags : UInt32
  deriving DecidableEq

/-- Construct a pointer from a real-mode segment:offset address, in 32 bits.
Source: include/int13.h, REAL_PTR -/
def realPtr (segment offset : ℕ) : ℕ := (segment * 16 + offset) % 2 ^ 32

/-- The carry flag.
Source: include/bootapp.h, CF -/
def CF : UInt32 := 1

/-- `call_interrupt`: the registers after a call, and the memory. -/
abbrev Bios := BootappCallbackParams → Mem → BootappCallbackParams × Mem

/-! ## Emulation -/

/-- Number of cylinders, the maximum possible.
Source: include/vdisk.h, VDISK_CYLINDERS -/
def vdiskCylinders : ℕ := 1024

/-- Get drive parameters.
Source: include/int13.h, INT13_GET_PARAMETERS -/
def int13GetParametersCommand : UInt8 := 0x08

/-- Get disk type.
Source: include/int13.h, INT13_GET_DISK_TYPE -/
def int13GetDiskTypeCommand : UInt8 := 0x15

/-- Extensions installation check.
Source: include/int13.h, INT13_EXTENSION_CHECK -/
def int13ExtensionCheckCommand : UInt8 := 0x41

/-- Extended read.
Source: include/int13.h, INT13_EXTENDED_READ -/
def int13ExtendedReadCommand : UInt8 := 0x42

/-- Get extended drive parameters.
Source: include/int13.h, INT13_GET_EXTENDED_PARAMETERS -/
def int13GetExtendedParametersCommand : UInt8 := 0x48

/-- Where the BIOS drive counter is.
Source: include/int13.h, INT13_DRIVE_COUNT -/
def int13DriveCount : ℕ := realPtr 0x40 0x75

/-- Initialise emulation: the number of the emulated drive, and the memory.
Source: kern/int13.c, initialise_int13 -/
def initialiseInt13 (m : Mem) : ℕ × Mem :=
  (0x80 ||| (m int13DriveCount).toNat, m.store int13DriveCount [m int13DriveCount + 1])

/-- The least number of drives to report.
Source: kern/int13.c, min_num_drives -/
def minNumDrives (vdiskDrive : ℕ) : ℕ := (vdiskDrive &&& 0x7f) + 1

/-- INT 13, 08 - Get drive parameters.
Source: kern/int13.c, int13_get_parameters -/
def int13GetParameters (vdiskDrive : ℕ) (params : BootappCallbackParams) (m : Mem) :
    BootappCallbackParams :=
  let maxCylinder := vdiskCylinders - 1
  let maxHead := vdiskHeads - 1
  let maxSector := vdiskSectorsPerTrack - 0
  let numDrives := max (m int13DriveCount).toNat (minNumDrives vdiskDrive)
  { params with
    ecx := { params.ecx with
      h := UInt8.ofNat (maxCylinder &&& 0xff)
      l := UInt8.ofNat (((maxCylinder >>> 8) <<< 6) ||| maxSector) }
    edx := { params.edx with h := UInt8.ofNat maxHead, l := UInt8.ofNat numDrives }
    eax := { params.eax with h := 0 } }

/-- INT 13, 15 - Get disk type.
Source: kern/int13.c, int13_get_disk_type -/
def int13GetDiskType (params : BootappCallbackParams) : BootappCallbackParams :=
  { params with
    ecx := params.ecx.setX (vdiskCount >>> 16)
    edx := params.edx.setX (vdiskCount &&& 0xffff)
    eax := { params.eax with h := 0x03 } } -- INT13_DISK_TYPE_HDD

/-- INT 13, 41 - Extensions installation check.
Source: kern/int13.c, int13_extension_check -/
def int13ExtensionCheck (params : BootappCallbackParams) : BootappCallbackParams :=
  { params with
    ebx := params.ebx.setX 0xaa55
    ecx := params.ecx.setX 0x01 -- INT13_EXTENSION_LINEAR
    eax := { params.eax with h := 0x01 } } -- INT13_EXTENSION_VER_1_X

/-- Size of the parameters.
Source: include/int13.h, struct int13_disk_parameters -/
def diskParametersSize : ℕ := 26

/-- The fields of the parameters.
Source: kern/int13.c, int13_get_extended_parameters; include/int13.h, struct int13_disk_parameters -/
def diskParametersFields : List (ℕ × ℕ × ℕ) :=
  [(0, 2, diskParametersSize), -- bufsize
   (2, 2, 0x01), -- flags = INT13_FL_DMA_TRANSPARENT
   (4, 4, vdiskCylinders), -- cylinders
   (8, 4, vdiskHeads), -- heads
   (12, 4, vdiskSectorsPerTrack), -- sectors_per_track
   (16, 8, vdiskCount), -- sectors
   (24, 2, vdiskSectorSize)] -- sector_size

/-- INT 13, 48 - Get extended parameters.
Source: kern/int13.c, int13_get_extended_parameters -/
def int13GetExtendedParameters (params : BootappCallbackParams) (m : Mem) :
    BootappCallbackParams × Mem :=
  let diskParams := realPtr params.ds.toNat params.esi.x
  ({ params with eax := { params.eax with h := 0 } },
    setFields diskParams diskParametersFields (m.fill diskParams 0 diskParametersSize))

/-- INT 13, 42 - Extended read. `none` if `vdisk_read` does not return.
Source: kern/int13.c, int13_extended_read; include/int13.h, struct int13_disk_address -/
def int13ExtendedRead (arch : Arch) (t : VdiskFiles) (params : BootappCallbackParams) (m : Mem) :
    Option (BootappCallbackParams × Mem) :=
  let diskAddress := realPtr params.ds.toNat params.esi.x
  let count := (m (diskAddress + 2)).toNat
  let data := realPtr (m.word (diskAddress + 6) 2) (m.word (diskAddress + 4) 2)
  let lba := m.word (diskAddress + 8) 8
  (vdiskRead arch t lba count data m).map fun m =>
    ({ params with eax := { params.eax with h := 0 } }, m)

section Hook

variable (arch : Arch) (t : VdiskFiles) (vdiskDrive : ℕ) (eflags : UInt32) (callInterrupt : Bios)

/-- Emulate INT 13 drive; `eflags` are the flags that `pushf` saves.
Source: kern/int13.c, emulate_int13 -/
def emulateInt13 (params : BootappCallbackParams) (m : Mem) :
    Option (BootappCallbackParams × Mem) :=
  let command := params.eax.h
  if params.edx.l.toNat = vdiskDrive then
    -- Emulated drive - handle internally
    let params := { params with eflags := eflags &&& ~~~CF }
    if command = int13GetParametersCommand then some (int13GetParameters vdiskDrive params m, m)
    else if command = int13GetDiskTypeCommand then some (int13GetDiskType params, m)
    else if command = int13ExtensionCheckCommand then some (int13ExtensionCheck params, m)
    else if command = int13GetExtendedParametersCommand then
      some (int13GetExtendedParameters params m)
    else if command = int13ExtendedReadCommand then int13ExtendedRead arch t params m
    else some ({ params with eflags := params.eflags ||| CF }, m)
  else
    -- Pass through command to underlying INT 13
    let (params, m) := callInterrupt params m
    -- Modify drive count, if applicable
    if command = int13GetParametersCommand ∧ params.edx.l.toNat < minNumDrives vdiskDrive then
      some ({ params with edx := { params.edx with l := UInt8.ofNat (minNumDrives vdiskDrive) } }, m)
    else some (params, m)

/-- Wrap interrupt callback.
Source: kern/main.c, call_interrupt_wrapper -/
def callInterruptWrapper (textmode : Bool) (params : BootappCallbackParams) (m : Mem) :
    Option (BootappCallbackParams × Mem) :=
  if params.interrupt = 0x13 then
    -- Intercept INT 13 calls for the emulated drive
    emulateInt13 arch t vdiskDrive eflags callInterrupt params m
  else if params.interrupt = 0x10 ∧ params.eax.x = 0x4f01 ∧ textmode then
    -- Mark all VESA video modes as unsupported
    let attributes := realPtr params.es.toNat params.edi.x
    let (params, m) := callInterrupt params m
    some (params, m.putWord attributes 2 (m.word attributes 2 &&& (0xffff - 0x0001)))
  else
    -- Pass through interrupt
    some (callInterrupt params m)

end Hook

/-! ## Reading the emulated drive -/

/-- A disk address packet.
Source: include/int13.h, struct int13_disk_address -/
def diskAddressPacket (lba count segment offset : ℕ) : List UInt8 :=
  [0x10, 0, UInt8.ofNat count, 0] ++ (leBytes 2 offset ++ (leBytes 2 segment ++ leBytes 8 lba))

/-- How the loaded program asks for sectors: by the registers of the call, apart from those that say
what it asks for, and a buffer in real mode. -/
structure Int13Reader where
  /-- The flags that `pushf` saves in the call for a sector. -/
  eflags : ℕ → UInt32
  /-- The registers. -/
  params : BootappCallbackParams
  /-- Segment of the buffer. -/
  segment : UInt16
  /-- Offset of the buffer. -/
  offset : UInt16

/-- The registers of an extended read of a drive. -/
def Int13Reader.request (r : Int13Reader) (drive : ℕ) : BootappCallbackParams :=
  { r.params with
    interrupt := 0x13
    eax := { r.params.eax with h := int13ExtendedReadCommand }
    edx := { r.params.edx with l := UInt8.ofNat drive } }

/-- The address of the buffer. -/
def Int13Reader.data (r : Int13Reader) : ℕ := realPtr r.segment.toNat r.offset.toNat

/-- The address of the packet. -/
def Int13Reader.packet (r : Int13Reader) : ℕ := realPtr r.params.ds.toNat r.params.esi.x

/-- A drive of the BIOS as a device: a request fails if the carry flag is set or the status is not
zero. -/
def int13Device
    (call : UInt32 → BootappCallbackParams → Mem → Option (BootappCallbackParams × Mem))
    (r : Int13Reader) (drive : ℕ) (m : Mem) : Device := fun lba count =>
  (call (r.eflags lba) (r.request drive)
      (m.store r.packet (diskAddressPacket lba count r.segment.toNat r.offset.toNat))).bind fun s =>
    if s.1.eflags &&& CF = 0 ∧ s.1.eax.h = 0 then some (s.2.bytes r.data (512 * count)) else none

/-- A number within bytes that are stored. -/
theorem word_store (m : Mem) (a : ℕ) {bs : List UInt8} {o n : ℕ} (h : o + n ≤ bs.length) :
    (m.store a bs).word (a + o) n = Fat.num bs o n := by
  rw [← Fat.num_bytes (m.store a bs) a h, bytes_store_self]

/-- A number between other bytes. -/
theorem num_leBytes (xs ys : List UInt8) {n v : ℕ} (hv : v < 256 ^ n) :
    Fat.num (xs ++ (leBytes n v ++ ys)) xs.length n = v := by
  rw [Fat.num, List.drop_left, List.take_left' (leBytes_length n v), leNat_leBytes_of_lt hv]

/-- The packet is read back. -/
theorem diskAddressPacket_read (m : Mem) (a : ℕ) {lba count segment offset : ℕ}
    (hlba : lba < 256 ^ 8) (hcount : count < 256) (hsegment : segment < 256 ^ 2)
    (hoffset : offset < 256 ^ 2) :
    let m' := m.store a (diskAddressPacket lba count segment offset)
    (m' (a + 2)).toNat = count ∧ m'.word (a + 4) 2 = offset ∧ m'.word (a + 6) 2 = segment ∧
      m'.word (a + 8) 8 = lba := by
  have hlength : (diskAddressPacket lba count segment offset).length = 16 := by
    simp [diskAddressPacket]
  refine ⟨?_, ?_, ?_, ?_⟩
  · rw [store_of_mem m (by omega) (by omega), Nat.add_sub_cancel_left]
    exact Nat.mod_eq_of_lt hcount
  · rw [word_store m a (by omega)]
    exact num_leBytes [0x10, 0, UInt8.ofNat count, 0] _ hoffset
  · have hpacket : diskAddressPacket lba count segment offset =
        ([0x10, 0, UInt8.ofNat count, 0] ++ leBytes 2 offset) ++
          (leBytes 2 segment ++ leBytes 8 lba) := by
      rw [diskAddressPacket, List.append_assoc]
    rw [word_store m a (by omega), hpacket]
    exact num_leBytes ([0x10, 0, UInt8.ofNat count, 0] ++ leBytes 2 offset) _ hsegment
  · have hpacket : diskAddressPacket lba count segment offset =
        ([0x10, 0, UInt8.ofNat count, 0] ++ leBytes 2 offset ++ leBytes 2 segment) ++
          (leBytes 8 lba ++ []) := by
      rw [diskAddressPacket, List.append_nil, List.append_assoc, List.append_assoc]
    rw [word_store m a (by omega), hpacket]
    exact num_leBytes ([0x10, 0, UInt8.ofNat count, 0] ++ leBytes 2 offset ++ leBytes 2 segment)
      [] hlba

/-- The carry flag that has been cleared. -/
theorem clear_CF (eflags : UInt32) : eflags &&& ~~~CF &&& CF = 0 := by
  rw [UInt32.and_assoc]
  have hCF : ~~~CF &&& CF = 0 := by decide
  rw [hCF, UInt32.and_zero]

/-- The carry flag that has been set. -/
theorem set_CF (eflags : UInt32) : (eflags ||| CF) &&& CF = CF := by
  rw [UInt32.and_comm, UInt32.or_comm]
  apply UInt32.toBitVec_inj.mp
  rw [UInt32.toBitVec_and, UInt32.toBitVec_or]
  ext i hi
  rw [BitVec.getElem_and, BitVec.getElem_or]
  cases CF.toBitVec[i] <;> simp

section Read

variable {arch : Arch} {t : VdiskFiles} {vdiskDrive : ℕ} {eflags : UInt32} {callInterrupt : Bios}
  {textmode : Bool}

/-- An extended read of the emulated drive is served. -/
theorem callInterruptWrapper_read {params : BootappCallbackParams}
    (hint : params.interrupt = 0x13) (hcommand : params.eax.h = int13ExtendedReadCommand)
    (hdrive : params.edx.l.toNat = vdiskDrive) (m : Mem) :
    callInterruptWrapper arch t vdiskDrive eflags callInterrupt textmode params m =
      int13ExtendedRead arch t { params with eflags := eflags &&& ~~~CF } m := by
  rw [callInterruptWrapper, if_pos hint, emulateInt13, hcommand, if_pos hdrive, if_neg (by decide),
    if_neg (by decide), if_neg (by decide), if_neg (by decide), if_pos rfl]

/-- The packet of a reader asks for sectors, to be read to its buffer. -/
def Int13Reader.Requests (r : Int13Reader) (lba count : ℕ) (m : Mem) : Prop :=
  (m (r.packet + 2)).toNat = count ∧ m.word (r.packet + 4) 2 = r.offset.toNat ∧
    m.word (r.packet + 6) 2 = r.segment.toNat ∧ m.word (r.packet + 8) 8 = lba

/-- The packet that is stored asks for the sectors. -/
theorem Int13Reader.requests_store (r : Int13Reader) (m : Mem) {lba count : ℕ} (hlba : lba < 256 ^ 8)
    (hcount : count < 256) :
    r.Requests lba count
      (m.store r.packet (diskAddressPacket lba count r.segment.toNat r.offset.toNat)) :=
  diskAddressPacket_read m r.packet hlba hcount r.segment.toNat_lt r.offset.toNat_lt

/-- The answer to a request, if the sectors can be read. -/
theorem callInterruptWrapper_request (hdrive : vdiskDrive < 256) {r : Int13Reader} {lba count : ℕ}
    {m m' : Mem} (hrequests : r.Requests lba count m)
    (hread : vdiskRead arch t lba count r.data m = some m') :
    callInterruptWrapper arch t vdiskDrive eflags callInterrupt textmode (r.request vdiskDrive) m =
      some ({ r.request vdiskDrive with
        eflags := eflags &&& ~~~CF
        eax := { (r.request vdiskDrive).eax with h := 0 } }, m') := by
  obtain ⟨hc, ho, hs, hl⟩ := hrequests
  have hserved : int13ExtendedRead arch t
      { r.request vdiskDrive with eflags := eflags &&& ~~~CF } m =
        (vdiskRead arch t (m.word (r.packet + 8) 8) (m (r.packet + 2)).toNat
          (realPtr (m.word (r.packet + 6) 2) (m.word (r.packet + 4) 2)) m).map fun m' =>
          ({ r.request vdiskDrive with
            eflags := eflags &&& ~~~CF
            eax := { (r.request vdiskDrive).eax with h := 0 } }, m') := rfl
  have hptr : realPtr r.segment.toNat r.offset.toNat = r.data := rfl
  rw [hc, ho, hs, hl, hptr, hread, Option.map_some] at hserved
  have hdriveEq : (r.request vdiskDrive).edx.l.toNat = vdiskDrive := Nat.mod_eq_of_lt hdrive
  rw [callInterruptWrapper_read rfl rfl hdriveEq]
  exact hserved

/-- **The emulated drive serves the virtual disk**, whatever the BIOS does and wherever the packet and
the buffer are. -/
theorem int13Device_serves (ht : t.InMemory) (hdrive : vdiskDrive < 256) (r : Int13Reader) (m : Mem) :
    Serves arch t 0 (int13Device
      (fun eflags => callInterruptWrapper arch t vdiskDrive eflags callInterrupt textmode) r vdiskDrive
      m) := by
  intro lba count hcount hend hcross
  rw [Nat.zero_add] at hend hcross
  have hbytes : 512 * count < 2 ^ 32 := lt_of_le_of_lt (Nat.mul_le_mul_left 512 hcount) (by decide)
  have hlba : lba < 256 ^ 8 := by
    simp only [vdiskFileCount] at hend
    omega
  have hrequests := r.requests_store m hlba (lt_of_le_of_lt hcount (by decide))
  have hread := @vdiskRead_eq arch t lba count ht hbytes (hend.trans (by decide)) (Or.inr hend)
    hcross r.data
    (m.store r.packet (diskAddressPacket lba count r.segment.toNat r.offset.toNat))
  rw [Device.Holds, imageFrom_bytes, int13Device, callInterruptWrapper_request hdrive hrequests hread,
    Option.bind_some, if_pos ⟨clear_CF _, rfl⟩, bytes_copy_self, Nat.mul_zero, Nat.zero_add]

end Read

/-! ## Runs of the loaded program -/

/-- What the loaded program does. -/
inductive GuestStep where
  /-- It changes the memory. -/
  | write (f : Mem → Mem)
  /-- It calls an interrupt; `eflags` are the flags that `pushf` saves in this call. -/
  | interrupt (eflags : UInt32) (params : BootappCallbackParams)

/-- A run of the loaded program: the calls with their answers, and the memory. -/
def runGuest (call : UInt32 → BootappCallbackParams → Mem → Option (BootappCallbackParams × Mem)) :
    List GuestStep → Mem → Option (List (BootappCallbackParams × BootappCallbackParams) × Mem)
  | [], m => some ([], m)
  | .write f :: steps, m => runGuest call steps (f m)
  | .interrupt eflags params :: steps, m =>
      (call eflags params m).bind fun s =>
        (runGuest call steps s.2).map fun run => ((params, s.1) :: run.1, run.2)

section Run

variable {call call' : UInt32 → BootappCallbackParams → Mem → Option (BootappCallbackParams × Mem)}

/-- Two callbacks that serve the calls of a run alike. -/
theorem runGuest_eq_of {steps : List GuestStep}
    (h : ∀ eflags params, .interrupt eflags params ∈ steps → ∀ m,
      call eflags params m = call' eflags params m) (m : Mem) :
    runGuest call steps m = runGuest call' steps m := by
  induction steps generalizing m with
  | nil => rfl
  | cons step steps ih =>
      have hrest := ih fun eflags params hmem => h eflags params (List.mem_cons_of_mem step hmem)
      cases step with
      | write f => exact hrest (f m)
      | interrupt eflags params =>
          rw [runGuest, runGuest, h eflags params List.mem_cons_self]
          exact congrArg _ (funext fun s => by rw [hrest])

/-- What holds of every answer holds along a run. -/
theorem runGuest_forall {P : BootappCallbackParams → BootappCallbackParams → Prop}
    (h : ∀ eflags params m s, call eflags params m = some s → P params s.1) {steps : List GuestStep}
    {m m' : Mem} {trace : List (BootappCallbackParams × BootappCallbackParams)}
    (hrun : runGuest call steps m = some (trace, m')) : ∀ c ∈ trace, P c.1 c.2 := by
  induction steps generalizing m trace with
  | nil =>
      cases hrun
      exact fun c hc => absurd hc List.not_mem_nil
  | cons step steps ih =>
      cases step with
      | write f => exact ih hrun
      | interrupt eflags params =>
          obtain ⟨s, hs, hrest⟩ := Option.bind_eq_some_iff.mp hrun
          obtain ⟨run, hsteps, heq⟩ := Option.map_eq_some_iff.mp hrest
          cases heq
          intro c hc
          rcases List.mem_cons.mp hc with rfl | hc
          · exact h eflags params m s hs
          · exact ih hsteps c hc

end Run

/-- A call for the emulated drive. -/
def Emulated (vdiskDrive : ℕ) (params : BootappCallbackParams) : Prop :=
  params.interrupt = 0x13 ∧ params.edx.l.toNat = vdiskDrive

/-- A call for the parameters of a drive. -/
def AsksParameters (params : BootappCallbackParams) : Prop :=
  params.interrupt = 0x13 ∧ params.eax.h = int13GetParametersCommand

/-- A call for the information on a VESA video mode. -/
def AsksVideoMode (params : BootappCallbackParams) : Prop :=
  params.interrupt = 0x10 ∧ params.eax.x = 0x4f01

/-- The commands of an emulated drive. -/
def emulatedCommands : List UInt8 :=
  [int13GetParametersCommand, int13GetDiskTypeCommand, int13ExtensionCheckCommand,
    int13GetExtendedParametersCommand, int13ExtendedReadCommand]

/-- The emulated drive has the number of a hard disk. -/
theorem initialiseInt13_bounds (m : Mem) :
    0x80 ≤ (initialiseInt13 m).1 ∧ (initialiseInt13 m).1 < 256 :=
  ⟨Nat.left_le_or, @Nat.or_lt_two_pow 0x80 _ 8 (by decide) (m int13DriveCount).toNat_lt⟩

/-- The least number of drives is the one that counts the emulated drive. -/
theorem minNumDrives_eq {d : ℕ} (hlow : 0x80 ≤ d) (hhigh : d < 256) :
    minNumDrives d + 0x80 = d + 1 ∧ minNumDrives d < 256 := by
  have hmod : d &&& 0x7f = d % 2 ^ 7 := Nat.and_two_pow_sub_one_eq_mod d 7
  rw [minNumDrives, hmod]
  omega

section Hook

variable {arch : Arch} {t : VdiskFiles} {vdiskDrive : ℕ} {eflags : UInt32} {callInterrupt : Bios}
  {textmode : Bool} {params : BootappCallbackParams} {m : Mem}

/-- The BIOS is not asked for the emulated drive. -/
theorem callInterruptWrapper_congr {other : Bios}
    (h : ∀ params m, ¬Emulated vdiskDrive params → other params m = callInterrupt params m)
    (params : BootappCallbackParams) (m : Mem) :
    callInterruptWrapper arch t vdiskDrive eflags other textmode params m =
      callInterruptWrapper arch t vdiskDrive eflags callInterrupt textmode params m := by
  by_cases hemulated : Emulated vdiskDrive params
  · rw [callInterruptWrapper, callInterruptWrapper, if_pos hemulated.1, if_pos hemulated.1,
      emulateInt13, emulateInt13, if_pos hemulated.2, if_pos hemulated.2]
  · rw [callInterruptWrapper, callInterruptWrapper, emulateInt13, emulateInt13,
      h params m hemulated]

/-- Other calls are those of the BIOS, but for the two answers that are modified. -/
theorem callInterruptWrapper_of_not (hemulated : ¬Emulated vdiskDrive params)
    (hparameters : ¬AsksParameters params) (hvideo : ¬(AsksVideoMode params ∧ textmode = true)) :
    callInterruptWrapper arch t vdiskDrive eflags callInterrupt textmode params m =
      some (callInterrupt params m) := by
  rw [callInterruptWrapper]
  by_cases hint : params.interrupt = 0x13
  · have hdrive : params.edx.l.toNat ≠ vdiskDrive := fun h => hemulated ⟨hint, h⟩
    have hcommand : params.eax.h ≠ int13GetParametersCommand := fun h => hparameters ⟨hint, h⟩
    rw [if_pos hint, emulateInt13, if_neg hdrive]
    exact if_neg fun h => hcommand h.1
  · rw [if_neg hint, if_neg]
    exact fun h => hvideo ⟨⟨h.1, h.2.1⟩, h.2.2⟩

/-- The number of drives that is reported counts the emulated drive. -/
theorem callInterruptWrapper_drives (hlow : 0x80 ≤ vdiskDrive) (hhigh : vdiskDrive < 256)
    (h : AsksParameters params) {s : BootappCallbackParams × Mem}
    (hs : callInterruptWrapper arch t vdiskDrive eflags callInterrupt textmode params m = some s) :
    vdiskDrive < 0x80 + s.1.edx.l.toNat := by
  obtain ⟨hmin, hbyte⟩ := minNumDrives_eq hlow hhigh
  have hmod : (UInt8.ofNat (minNumDrives vdiskDrive)).toNat = minNumDrives vdiskDrive :=
    Nat.mod_eq_of_lt hbyte
  rw [callInterruptWrapper, if_pos h.1, emulateInt13, h.2] at hs
  by_cases hdrive : params.edx.l.toNat = vdiskDrive
  · rw [if_pos hdrive, if_pos rfl] at hs
    obtain rfl := Option.some.inj hs
    have hcount := (m int13DriveCount).toNat_lt
    have hmax : (UInt8.ofNat (max (m int13DriveCount).toNat (minNumDrives vdiskDrive))).toNat =
        max (m int13DriveCount).toNat (minNumDrives vdiskDrive) :=
      Nat.mod_eq_of_lt (max_lt hcount hbyte)
    change vdiskDrive < 0x80 +
      (UInt8.ofNat (max (m int13DriveCount).toNat (minNumDrives vdiskDrive))).toNat
    rw [hmax]
    omega
  · rw [if_neg hdrive] at hs
    dsimp only at hs
    split_ifs at hs with hless
    · obtain rfl := Option.some.inj hs
      change vdiskDrive < 0x80 + (UInt8.ofNat (minNumDrives vdiskDrive)).toNat
      omega
    · obtain rfl := Option.some.inj hs
      have hge := not_and.mp hless rfl
      change vdiskDrive < 0x80 + (callInterrupt params m).1.edx.l.toNat
      omega

/-- The emulated drive sets the carry flag for the commands that it does not have. -/
theorem callInterruptWrapper_carry (h : Emulated vdiskDrive params)
    {s : BootappCallbackParams × Mem}
    (hs : callInterruptWrapper arch t vdiskDrive eflags callInterrupt textmode params m = some s) :
    s.1.eflags &&& CF = 0 ↔ params.eax.h ∈ emulatedCommands := by
  have hclear := clear_CF eflags
  rw [callInterruptWrapper, if_pos h.1, emulateInt13, if_pos h.2] at hs
  split_ifs at hs with h₁ h₂ h₃ h₄ h₅
  · obtain rfl := Option.some.inj hs
    exact iff_of_true hclear (by simp [emulatedCommands, h₁])
  · obtain rfl := Option.some.inj hs
    exact iff_of_true hclear (by simp [emulatedCommands, h₂])
  · obtain rfl := Option.some.inj hs
    exact iff_of_true hclear (by simp [emulatedCommands, h₃])
  · obtain rfl := Option.some.inj hs
    exact iff_of_true hclear (by simp [emulatedCommands, h₄])
  · obtain ⟨m', -, rfl⟩ := Option.map_eq_some_iff.mp hs
    exact iff_of_true hclear (by simp [emulatedCommands, h₅])
  · obtain rfl := Option.some.inj hs
    refine iff_of_false (fun hzero => ?_) (by simp [emulatedCommands, h₁, h₂, h₃, h₄, h₅])
    change (eflags &&& ~~~CF ||| CF) &&& CF = 0 at hzero
    rw [set_CF] at hzero
    exact absurd hzero (by decide)

end Hook

/-- **The emulated drive is a disk with a file system.** A FAT32 driver that reads it by extended reads
finds the tree of the registered files at every path: in every state of the memory, so after every
run, and wherever it puts its packets and its buffer.
Source: kern/int13.c, emulate_int13 -/
theorem int13_fileSystem {files : List MemFile} {t : VdiskFiles}
    (hfiles : files.length ≤ vdiskMaxFiles) (hlen : ∀ f ∈ files, f.len < 2 ^ 32)
    (ht : addMemFiles files = some t) (arch : Arch) (callInterrupt : Bios) (textmode : Bool)
    (r : Int13Reader) (m₀ m : Mem) :
    let drive := (initialiseInt13 m₀).1
    let dev := int13Device
      (fun eflags => callInterruptWrapper arch t drive eflags callInterrupt textmode) r drive m
    ∃ v, Fat.mount dev = some v ∧ ∀ path,
      readPath v dev path = (Node.resolve files path).bind (Node.contents files) ∧
        listPath v dev path = (Node.resolve files path).bind (Node.listing files) := by
  intro drive dev
  have hserves : Serves arch t 0 dev :=
    int13Device_serves (addMemFiles_inMemory hfiles ht) (initialiseInt13_bounds m₀).2 r m
  refine ⟨vdiskVolume 0, hserves.mount rfl, fun path => ⟨?_, ?_⟩⟩
  · exact hserves.readPath hfiles hlen ht (Nat.zero_le _) path
  · exact hserves.listPath hfiles hlen ht (Nat.zero_le _) path

/-- A reader whose registers are zero, with its buffer at 32 KB. The carry flag is set when it asks for a
sector with an odd number. -/
def zeroReader : Int13Reader :=
  ⟨fun lba => if lba % 2 = 0 then 2 else 3,
    ⟨0, ⟨0, 0, 0⟩, ⟨0, 0, 0⟩, ⟨0, 0, 0⟩, ⟨0, 0, 0⟩, ⟨0, 0, 0⟩, ⟨0, 0, 0⟩, 0, 0, 0, 0, 0⟩, 0, 0x8000⟩

/-- Two files, and a BIOS that does nothing. -/
theorem int13_fileSystem_twoFiles :
    ∃ t, addMemFiles twoFiles = some t ∧
      let drive := (initialiseInt13 Mem.zero).1
      let dev := int13Device
        (fun eflags => callInterruptWrapper .i386 t drive eflags (fun params m => (params, m)) false)
        zeroReader drive Mem.zero
      ∃ v, Fat.mount dev = some v ∧ ∀ path,
        readPath v dev path = (Node.resolve twoFiles path).bind (Node.contents twoFiles) ∧
          listPath v dev path = (Node.resolve twoFiles path).bind (Node.listing twoFiles) := by
  obtain ⟨t, ht, -⟩ := @addMemFiles_eq twoFiles (by decide)
  exact ⟨t, ht, int13_fileSystem (by decide) (by decide) ht .i386 _ false zeroReader Mem.zero Mem.zero⟩

/-- **The hook over a run of the loaded program.** What the BIOS would do if it were asked for the
emulated drive has no part in it; a run without calls that are emulated or modified is one of the BIOS
alone; and in every run, each answer to a request for drive parameters, of whatever drive, counts the
emulated drive, and the emulated drive clears the carry flag for the commands that it has only.
Source: kern/int13.c, emulate_int13; kern/main.c, call_interrupt_wrapper -/
theorem runGuest_hook (arch : Arch) (t : VdiskFiles) (callInterrupt : Bios)
    (textmode : Bool) (steps : List GuestStep) (m₀ m : Mem) :
    let drive := (initialiseInt13 m₀).1
    let hook := fun bios eflags => callInterruptWrapper arch t drive eflags bios textmode
    (∀ other : Bios,
      (∀ params m, ¬Emulated drive params → other params m = callInterrupt params m) →
        runGuest (hook other) steps m = runGuest (hook callInterrupt) steps m) ∧
    ((∀ eflags params, .interrupt eflags params ∈ steps → ¬Emulated drive params ∧
        ¬AsksParameters params ∧ ¬(AsksVideoMode params ∧ textmode = true)) →
      runGuest (hook callInterrupt) steps m =
        runGuest (fun _ params m => some (callInterrupt params m)) steps m) ∧
    ∀ trace m', runGuest (hook callInterrupt) steps m = some (trace, m') → ∀ c ∈ trace,
      (AsksParameters c.1 → drive < 0x80 + c.2.edx.l.toNat) ∧
        (Emulated drive c.1 → (c.2.eflags &&& CF = 0 ↔ c.1.eax.h ∈ emulatedCommands)) := by
  intro drive hook
  obtain ⟨hlow, hhigh⟩ := initialiseInt13_bounds m₀
  refine ⟨?_, ?_, ?_⟩
  · intro other h
    exact runGuest_eq_of (fun _ params _ => callInterruptWrapper_congr h params) m
  · intro h
    refine runGuest_eq_of (fun eflags params hmem m => ?_) m
    obtain ⟨hemulated, hparameters, hvideo⟩ := h eflags params hmem
    exact callInterruptWrapper_of_not hemulated hparameters hvideo
  · intro trace m' hrun
    refine runGuest_forall (P := fun params answer =>
      (AsksParameters params → drive < 0x80 + answer.edx.l.toNat) ∧
        (Emulated drive params → (answer.eflags &&& CF = 0 ↔ params.eax.h ∈ emulatedCommands)))
      (fun eflags params m s hs => ?_) hrun
    exact ⟨fun h => callInterruptWrapper_drives hlow hhigh h hs,
      fun h => callInterruptWrapper_carry h hs⟩

end Ntloader.Kern
