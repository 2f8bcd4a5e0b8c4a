import Ntloader.Bcd.Patch
import Ntloader.Cpio.RoundTrip
import Ntloader.Posix.Vsprintf
import Ntloader.Vdisk.Mount

/-!
# The files of the initrd

The BCD and the members of the initrd are registered as virtual files, and the member with the name of
the boot manager is kept apart. Then the BCD is patched, in place.

* `Payload` — what is registered: pointers, so that a file shows what its memory holds when it is read.
* `addFile`, `extractInitrd` — kern/payload.c.
* `bootmgrOf` — which of some files is the boot manager.
* `extractInitrd_mkinitrd` — what comes of an archive that `mkinitrd` writes.
* `initrd_fileSystem` — the virtual disk holds the BCD and the files that were packed.

Scope: the BCD is an array of its own, generated by the build. A file is known by the first characters
of its name, as many as are looked at.
-/

namespace Ntloader.Kern

open Ntloader.Lib Ntloader.Lib.Mem Ntloader.Posix
open Ntloader.Cpio Ntloader.Vdisk Ntloader.Bcd

/-! ## Registered files -/

/-- What the opaque token of a file points to. -/
inductive Token where
  /-- The BCD. -/
  | bcd
  /-- An address of the initrd. -/
  | initrd (addr : ℕ)
  deriving Repr, DecidableEq

/-- The memory from a token on. -/
def Token.mem (bcd m : Mem) : Token → Mem
  | .bcd => bcd
  | .initrd addr => fun x => m (addr + x)

/-- A file with in-memory contents. -/
structure PayloadFile where
  /-- The first characters of its name. -/
  name : List UInt8
  /-- Where its contents are. -/
  token : Token
  /-- Their length. -/
  len : ℕ
  deriving DecidableEq

/-- The file, as the memory is. -/
def PayloadFile.memFile (bcd m : Mem) (f : PayloadFile) : MemFile :=
  ⟨f.name, f.token.mem bcd m, f.len⟩

/-- The virtual files, and the boot manager.
Source: libnt/vdisk.c, vdisk_files; include/cmdline.h, struct nt_args -/
structure Payload where
  /-- The registered files. -/
  files : List PayloadFile
  /-- There is room for them. -/
  length_le : files.length ≤ vdiskMaxFiles
  /-- Address of the boot manager, or NULL. -/
  bootmgr : ℕ
  /-- Its length. -/
  bootmgrLength : ℕ

/-- Before the first registration. -/
def Payload.start : Payload := ⟨[], Nat.zero_le _, 0, 0⟩

/-- The files, as the memory is. -/
def Payload.memFiles (p : Payload) (bcd m : Mem) : List MemFile :=
  p.files.map (PayloadFile.memFile bcd m)

/-- Add file to virtual disk; `none` is `die`.
Source: libnt/vdisk.c, vdisk_add_file -/
def Payload.add (p : Payload) (f : PayloadFile) : Option Payload :=
  if h : p.files.length < vdiskMaxFiles then
    some { p with files := p.files ++ [f], length_le := by simpa using h }
  else none

/-! ## Extraction -/

/-- The file that removable media boot, of the build.
Source: include/efi/Uefi/UefiSpec.h, EFI_REMOVABLE_MEDIA_FILE_NAME -/
def efiRemovableMediaFileName : Arch → List UInt16
  | .i386 => units "\\EFI\\BOOT\\BOOTIA32.EFI"
  | .x86_64 => units "\\EFI\\BOOT\\BOOTX64.EFI"

/-- The loop over the characters of a path: what follows the last backslash.
Source: kern/payload.c, efi_bootarch, `for` -/
def bootarchLoop : List UInt16 → List UInt16 → List UInt16
  | [], bootarch => bootarch
  | c :: tmp, bootarch => bootarchLoop tmp (if c = 0x5c then tmp else bootarch)

/-- Get architecture-specific boot filename.
Source: kern/payload.c, efi_bootarch -/
def efiBootarch (arch : Arch) : List UInt16 :=
  bootarchLoop (efiRemovableMediaFileName arch) (efiRemovableMediaFileName arch)

/-- The name of the boot manager.
Source: kern/payload.c, add_file -/
def bootmgrName (arch : Arch) (efi : Bool) : List UInt8 :=
  if efi then
    ((vcprintf arch (str "%ls") [.wstr (some (efiBootarch arch))]).getD []).take 31
  else str "bootmgr.exe"

/-- The first characters of the name at an address, one more than are stored. -/
def nameAt (m : Mem) (name : ℕ) : List UInt8 :=
  (m.bytes name (vdiskNameLen + 1)).takeWhile (· ≠ 0)

/-- File handler. The payload is absent once the loader has died.
Source: kern/payload.c, add_file -/
def addFile (bootName : List UInt8) : Handler (Option Payload) := fun name data len m s =>
  match s.bind fun p => p.add ⟨nameAt m name, .initrd data, len⟩ with
  | none => (-1, m, none)
  | some p =>
      -- Check for special-case files
      if strcasecmp (nameAt m name) bootName then
        (0, m, some { p with bootmgr := data, bootmgrLength := len })
      else (0, m, some p)

/-- The ways to die. -/
inductive PayloadError where
  /-- `Too many files` -/
  | tooManyFiles
  /-- `FATAL: could not extract initrd files` -/
  | extract
  /-- `FATAL: no bootmgr` -/
  | noBootmgr
  /-- Patching the BCD. -/
  | bcd (e : BcdError)
  deriving DecidableEq

/-- Extract cpio initrd: the payload, and the patched BCD.
Source: kern/payload.c, extract_initrd -/
def extractInitrd (arch : Arch) (efi : Bool) (fuel : ℕ) (args : NtArgs) (bcd : Mem) (bcdLen : ℕ)
    (ptr len : ℕ) (m : Mem) : Option (Except PayloadError (Payload × Mem)) :=
  (cpioExtract arch (addFile (bootmgrName arch efi)) fuel ptr len m
      (Payload.start.add ⟨str "BCD", .bcd, bcdLen⟩)).bind fun r =>
    match r.2.2 with
    | none => some (.error .tooManyFiles)
    | some p =>
        if r.1 ≠ 0 then some (.error .extract)
        else if p.bootmgr = 0 then some (.error .noBootmgr)
        else (bcdPatchData fuel efi args bcdLen bcd).map fun patched =>
          (patched.mapError .bcd).map fun bcd => (p, bcd)

/-! ## Names -/

/-- Comparison is equality of the upper-case characters. -/
theorem strcasecmp_iff_map (s t : List UInt8) :
    strcasecmp s t = true ↔ s.map toupper = t.map toupper := by
  induction s generalizing t with
  | nil =>
      cases t with
      | nil => exact iff_of_true rfl rfl
      | cons d t => exact iff_of_false Bool.false_ne_true fun h => by cases h
  | cons c s ih =>
      cases t with
      | nil => exact iff_of_false Bool.false_ne_true fun h => by cases h
      | cons d t =>
          rw [strcasecmp, Bool.and_eq_true, decide_eq_true_eq, ih, List.map_cons, List.map_cons,
            List.cons.injEq]

/-- The first characters of a name that is in memory. -/
theorem nameAt_eq {m : Mem} {a : ℕ} {name : List UInt8} (hname : (0 : UInt8) ∉ name)
    (h : m.bytes a (name.length + 1) = name ++ [0]) :
    nameAt m a = name.take (vdiskNameLen + 1) := by
  have hne : ∀ c ∈ name.take (vdiskNameLen + 1), decide (c ≠ 0) = true := fun c hc =>
    decide_eq_true fun hzero => hname (hzero ▸ List.mem_of_mem_take hc)
  rw [nameAt]
  by_cases hlen : vdiskNameLen + 1 ≤ name.length + 1
  · obtain ⟨k, hk⟩ := Nat.exists_eq_add_of_le hlen
    rw [hk, bytes_add] at h
    have htake := congrArg (List.take (vdiskNameLen + 1)) h
    rw [List.take_left' (bytes_length _ _ _)] at htake
    rw [htake]
    by_cases hfull : vdiskNameLen + 1 ≤ name.length
    · rw [List.take_append_of_le_length hfull]
      exact List.takeWhile_eq_self_iff.mpr hne
    · have hexact : vdiskNameLen = name.length := by omega
      rw [hexact] at hne ⊢
      rw [List.take_of_length_le (Nat.le_succ _)] at hne ⊢
      rw [List.take_of_length_le (by rw [List.length_append, List.length_singleton]),
        List.takeWhile_append_of_pos hne]
      simp
  · obtain ⟨k, hk⟩ := Nat.exists_eq_add_of_le (not_le.mp hlen).le
    rw [List.take_of_length_le (by omega)] at hne ⊢
    rw [hk, bytes_add, h, List.append_assoc, List.takeWhile_append_of_pos hne]
    simp

/-- The stored name does not depend on the characters behind the first. -/
theorem storedName_take {name : List UInt8} (hname : (0 : UInt8) ∉ name) :
    storedName (name.take (vdiskNameLen + 1)) = storedName name := by
  have hne : ∀ c ∈ name, decide (c ≠ 0) = true := fun c hc =>
    decide_eq_true fun hzero => hname (hzero ▸ hc)
  rw [storedName, storedName, List.takeWhile_eq_self_iff.mpr hne,
    List.takeWhile_eq_self_iff.mpr fun c hc => hne c (List.mem_of_mem_take hc), List.take_take,
    min_eq_left (Nat.le_succ _)]

/-- Nor does a comparison with a name that can be stored. -/
theorem strcasecmp_take {name bootName : List UInt8} (hboot : bootName.length ≤ vdiskNameLen) :
    strcasecmp (name.take (vdiskNameLen + 1)) bootName = strcasecmp name bootName := by
  by_cases hlen : name.length ≤ vdiskNameLen + 1
  · rw [List.take_of_length_le hlen]
  · have hne : ∀ s : List UInt8, vdiskNameLen + 1 ≤ s.length → strcasecmp s bootName = false := by
      intro s hs
      refine Bool.eq_false_iff.mpr fun h => ?_
      have hlength := congrArg List.length ((strcasecmp_iff_map s bootName).mp h)
      rw [List.length_map, List.length_map] at hlength
      omega
    rw [hne _ (by rw [List.length_take]; omega), hne _ (by omega)]

/-! ## The calls -/

/-- The boot manager among the files of an archive: the last one with its name, whatever its case. -/
def bootmgrOf (bootName : List UInt8) (files : List InFile) : Option InFile :=
  files.reverse.find? fun f => strcasecmp f.name bootName

/-- A file of an archive, as it is registered. -/
def registeredFile (m : Mem) (call : ℕ × ℕ × ℕ) : PayloadFile :=
  ⟨nameAt m call.1, .initrd call.2.1, call.2.2⟩

/-- The boot manager that has been found, or else the one there was. -/
def HasBootmgr (m : Mem) (p q : Payload) : Option InFile → Prop
  | none => q.bootmgr = p.bootmgr ∧ q.bootmgrLength = p.bootmgrLength
  | some f => q.bootmgr ≠ 0 ∧ q.bootmgrLength = f.contents.length ∧
      m.bytes q.bootmgr q.bootmgrLength = f.contents

section Calls

variable {bootName : List UInt8} {m : Mem}

/-- One file. -/
theorem addFile_some {f : InFile} {call : ℕ × ℕ × ℕ} (hcall : IsCall m f call)
    (hname : (0 : UInt8) ∉ f.name) (hnull : call.2.1 ≠ 0) (hboot : bootName.length ≤ vdiskNameLen)
    {p : Payload} (hroom : p.files.length < vdiskMaxFiles) :
    ∃ q, addFile bootName call.1 call.2.1 call.2.2 m (some p) = (0, m, some q) ∧
      q.files = p.files ++ [registeredFile m call] ∧
      HasBootmgr m p q (if strcasecmp f.name bootName then some f else none) := by
  have hmatch : strcasecmp (nameAt m call.1) bootName = strcasecmp f.name bootName := by
    rw [nameAt_eq hname hcall.name, strcasecmp_take hboot]
  rw [addFile, Option.bind_some, Payload.add, dif_pos hroom, hmatch]
  dsimp only
  cases strcasecmp f.name bootName with
  | true =>
      refine ⟨_, rfl, rfl, hnull, hcall.len, ?_⟩
      exact hcall.data
  | false => exact ⟨_, rfl, rfl, rfl, rfl⟩

/-- The boot manager of the files behind is the one that counts. -/
theorem HasBootmgr.trans {p q r : Payload} {f g : Option InFile} (hpq : HasBootmgr m p q f)
    (hqr : HasBootmgr m q r g) : HasBootmgr m p r (g.or f) := by
  cases g with
  | some g => exact hqr
  | none =>
      obtain ⟨haddr, hlen⟩ := hqr
      cases f with
      | none => exact ⟨haddr.trans hpq.1, hlen.trans hpq.2⟩
      | some f =>
          obtain ⟨hnull, hlength, hbytes⟩ := hpq
          rw [← haddr, ← hlen] at hbytes
          exact ⟨haddr ▸ hnull, hlen ▸ hlength, hbytes⟩

/-- **The files of an archive are registered one behind the other**, as long as there is room. -/
theorem runCalls_addFile (hboot : bootName.length ≤ vdiskNameLen) {files : List InFile}
    {calls : List (ℕ × ℕ × ℕ)} (h : List.Forall₂ (IsCall m) files calls)
    (hnames : ∀ f ∈ files, (0 : UInt8) ∉ f.name) (hnull : ∀ call ∈ calls, call.2.1 ≠ 0)
    {p : Payload} (hroom : p.files.length + files.length ≤ vdiskMaxFiles) :
    ∃ q, runCalls (addFile bootName) calls m (some p) = (0, m, some q) ∧
      q.files = p.files ++ calls.map (registeredFile m) ∧
      HasBootmgr m p q (bootmgrOf bootName files) := by
  induction h generalizing p with
  | nil => exact ⟨p, rfl, (List.append_nil _).symm, rfl, rfl⟩
  | @cons f call files calls hcall hcalls ih =>
      rw [List.length_cons] at hroom
      obtain ⟨q, hq, hfiles, hbootmgr⟩ := addFile_some hcall (hnames f List.mem_cons_self)
        (hnull call List.mem_cons_self) hboot (show p.files.length < vdiskMaxFiles by omega)
      have hlength : q.files.length = p.files.length + 1 := by
        rw [hfiles, List.length_append, List.length_singleton]
      obtain ⟨r, hr, hrest, hlast⟩ := ih (fun g hg => hnames g (List.mem_cons_of_mem f hg))
        (fun c hc => hnull c (List.mem_cons_of_mem call hc)) (p := q) (by omega)
      refine ⟨r, ?_, ?_, ?_⟩
      · rw [runCalls, hq]
        exact hr
      · rw [hrest, hfiles, List.append_assoc, List.map_cons, List.singleton_append]
      · have hor : bootmgrOf bootName (f :: files) = (bootmgrOf bootName files).or
            (if strcasecmp f.name bootName then some f else none) := by
          rw [bootmgrOf, bootmgrOf, List.reverse_cons, List.find?_append, List.find?_singleton]
        rw [hor]
        exact hbootmgr.trans hlast

/-- The loader dies when there is no room. -/
theorem runCalls_addFile_none (hboot : bootName.length ≤ vdiskNameLen) {files : List InFile}
    {calls : List (ℕ × ℕ × ℕ)} (h : List.Forall₂ (IsCall m) files calls)
    (hnames : ∀ f ∈ files, (0 : UInt8) ∉ f.name) (hnull : ∀ call ∈ calls, call.2.1 ≠ 0)
    {p : Payload} (hroom : vdiskMaxFiles < p.files.length + files.length) :
    (runCalls (addFile bootName) calls m (some p)).2.2 = none := by
  induction h generalizing p with
  | nil => exact absurd hroom (not_lt.mpr p.length_le)
  | @cons f call files calls hcall hcalls ih =>
      rw [List.length_cons] at hroom
      by_cases hfull : p.files.length < vdiskMaxFiles
      · obtain ⟨q, hq, hfiles, -⟩ := addFile_some hcall (hnames f List.mem_cons_self)
          (hnull call List.mem_cons_self) hboot hfull
        have hlength : q.files.length = p.files.length + 1 := by
          rw [hfiles, List.length_append, List.length_singleton]
        rw [runCalls, hq]
        exact ih (fun g hg => hnames g (List.mem_cons_of_mem f hg))
          (fun c hc => hnull c (List.mem_cons_of_mem call hc)) (by omega)
      · rw [runCalls, addFile, Option.bind_some, Payload.add, dif_neg hfull]
        rfl

end Calls

/-! ## Archives -/

/-- A file of an archive, as it is to be seen on the virtual disk. -/
def packedFile (f : InFile) : MemFile := ⟨f.name, Mem.ofList f.contents, f.contents.length⟩

/-- The BCD, as it is to be seen. -/
def bcdFile (bcd : Mem) (bcdLen : ℕ) : MemFile := ⟨str "BCD", bcd, bcdLen⟩

/-- An archive of some files, with anything behind it, is in memory. -/
def Packed (arch : Arch) (m : Mem) (ptr : ℕ) (files : List InFile) (extra : List UInt8) : Prop :=
  m.bytes ptr (mkinitrd files ++ extra).length = mkinitrd files ++ extra ∧
    ptr + (mkinitrd files ++ extra).length < arch.ulong

/-- The data of the members is behind their headers. -/
theorem memberCalls_ne_zero (ptr : ℕ) (files : List InFile) :
    ∀ call ∈ memberCalls ptr files, call.2.1 ≠ 0 := by
  induction files generalizing ptr with
  | nil => exact fun call hcall => absurd hcall List.not_mem_nil
  | cons f files ih =>
      intro call hcall
      rw [memberCalls] at hcall
      rcases List.mem_cons.mp hcall with rfl | hcall
      · simp only [cpioHeaderSize]
        omega
      · exact ih _ call hcall

section Archive

variable {arch : Arch} {m : Mem} {ptr : ℕ} {files : List InFile} {extra : List UInt8}

/-- The calls for the members of the archive give the names and contents of its files. -/
theorem Packed.isCall (hpacked : Packed arch m ptr files extra) (hfits : ∀ f ∈ files, f.Fits) :
    List.Forall₂ (IsCall m) files (memberCalls ptr files) := by
  have hbytes := hpacked.1
  rw [mkinitrd, List.append_assoc] at hbytes
  exact forall₂_isCall hfits hbytes

/-- The names of the build can be stored. -/
theorem bootmgrName_eq (arch : Arch) (efi : Bool) :
    bootmgrName arch efi = if efi then
      (match arch with
        | .i386 => str "BOOTIA32.EFI"
        | .x86_64 => str "BOOTX64.EFI")
    else str "bootmgr.exe" := by
  cases arch <;> cases efi <;> decide +kernel

/-- The name of the boot manager fits its field. -/
theorem bootmgrName_length (arch : Arch) (efi : Bool) :
    (bootmgrName arch efi).length ≤ vdiskNameLen := by
  rw [bootmgrName_eq]
  cases arch <;> cases efi <;> decide +kernel

/-- Registered files show what was packed, as long as the archive is in memory. -/
theorem registeredFile_shown {m' : Mem} {calls : List (ℕ × ℕ × ℕ)}
    (h : List.Forall₂ (IsCall m) files calls) (h' : List.Forall₂ (IsCall m') files calls)
    (hnames : ∀ f ∈ files, (0 : UInt8) ∉ f.name) (bcd : Mem) :
    (calls.map fun call => (registeredFile m call).memFile bcd m').map MemFile.shown =
      (files.map packedFile).map MemFile.shown := by
  induction h with
  | nil => rfl
  | @cons f call files calls hcall hcalls ih =>
      obtain ⟨hcall', hcalls'⟩ := List.forall₂_cons.mp h'
      have hrest := ih hcalls' fun g hg => hnames g (List.mem_cons_of_mem f hg)
      have hname := hnames f List.mem_cons_self
      have hshown : ((registeredFile m call).memFile bcd m').shown = (packedFile f).shown := by
        have hbytes : Mem.bytes (fun x => m' (call.2.1 + x)) 0 call.2.2 = f.contents := by
          rw [← hcall'.data]
          exact bytes_congr fun i _ => by rw [Nat.zero_add]
        change ((storedName (nameAt m call.1)).map lfnUnit, call.2.2,
          Mem.bytes (fun x => m' (call.2.1 + x)) 0 call.2.2) =
            ((storedName f.name).map lfnUnit, f.contents.length,
              (Mem.ofList f.contents).bytes 0 f.contents.length)
        rw [nameAt_eq hname hcall.name, storedName_take hname, hbytes, ofList_bytes, hcall.len]
      rw [List.map_cons, List.map_cons, List.map_cons, List.map_cons, hshown, hrest]

/-- Extraction that has ended does not need more fuel. -/
theorem cpioExtract_of_le {σ : Type} {file : Handler σ} {fuel fuel' data len : ℕ} {m : Mem} {s : σ}
    {r : ℤ × Mem × σ} (h : cpioExtract arch file fuel data len m s = some r) (hle : fuel ≤ fuel') :
    cpioExtract arch file fuel' data len m s = some r := by
  induction fuel generalizing fuel' data len m s with
  | zero => cases h
  | succ fuel ih =>
      obtain ⟨k, rfl⟩ := Nat.exists_eq_add_of_le hle
      rw [Nat.add_right_comm fuel 1 k]
      rw [cpioExtract] at h ⊢
      cases hpass : (extractPass arch m data len).2 with
      | stop rc =>
          rw [hpass] at h
          exact h
      | member mb =>
          rw [hpass] at h
          dsimp only at h ⊢
          split_ifs at h ⊢ with hrc
          · exact h
          · exact ih h (Nat.le_add_right fuel k)

/-- The payload with the BCD only. -/
theorem start_add (f : PayloadFile) : ∃ p, Payload.start.add f = some p ∧ p.files = [f] ∧
    p.bootmgr = 0 := by
  have hroom : Payload.start.files.length < vdiskMaxFiles := by decide
  exact ⟨_, dif_pos hroom, rfl, rfl⟩

/-- Extraction of an archive is the calls for its files. -/
theorem Packed.cpioExtract (hpacked : Packed arch m ptr files extra) (hfits : ∀ f ∈ files, f.Fits)
    (bootName : List UInt8) (s : Option Payload) {fuel : ℕ} (hfuel : files.length < fuel) :
    cpioExtract arch (addFile bootName) fuel ptr (mkinitrd files ++ extra).length m s =
      some (runCalls (addFile bootName) (memberCalls ptr files) m s) := by
  have hkeeps : Keeps (addFile bootName) ptr (mkinitrd files ++ extra).length := by
    intro name d l m s x _ _
    rw [addFile]
    split
    · rfl
    · split_ifs <;> rfl
  exact cpioExtract_of_le (cpioExtract_members hfits extra s hpacked.1 hpacked.2 hkeeps) hfuel

end Archive

section Result

variable {arch : Arch} {efi : Bool} {args : NtArgs} {bcd : Mem} {bcdLen : ℕ} {files : List InFile}
  {extra : List UInt8} (hfits : ∀ f ∈ files, f.Fits) {ptr : ℕ} {m : Mem}
  (hpacked : Packed arch m ptr files extra) {fuel : ℕ} (hfuel : files.length < fuel)
include hfits hpacked hfuel

/-- Too many files. -/
theorem extractInitrd_tooMany (hroom : vdiskMaxFiles < files.length + 1) :
    extractInitrd arch efi fuel args bcd bcdLen ptr (mkinitrd files ++ extra).length m =
      some (.error .tooManyFiles) := by
  obtain ⟨p, hp, hpfiles, -⟩ := start_add ⟨str "BCD", .bcd, bcdLen⟩
  have hplength : p.files.length = 1 := by rw [hpfiles, List.length_singleton]
  have hextract := hpacked.cpioExtract hfits (bootmgrName arch efi) (some p) hfuel
  have hnone := @runCalls_addFile_none _ m (bootmgrName_length arch efi) _ _ (hpacked.isCall hfits)
    (fun f hf => (hfits f hf).name) (memberCalls_ne_zero ptr files) p (by omega)
  rw [extractInitrd, hp, hextract, Option.bind_some, hnone]

/-- The payload of files for which there is room. -/
theorem extractInitrd_eq (hroom : files.length < vdiskMaxFiles) :
    ∃ p : Payload,
      (∀ bcd' m', Packed arch m' ptr files extra →
        (p.memFiles bcd' m').map MemFile.shown =
          (bcdFile bcd' bcdLen :: files.map packedFile).map MemFile.shown) ∧
      (match bootmgrOf (bootmgrName arch efi) files with
        | none => p.bootmgr = 0
        | some f => p.bootmgr ≠ 0 ∧ m.bytes p.bootmgr p.bootmgrLength = f.contents) ∧
      extractInitrd arch efi fuel args bcd bcdLen ptr (mkinitrd files ++ extra).length m =
        if p.bootmgr = 0 then some (.error .noBootmgr)
        else (bcdPatchData fuel efi args bcdLen bcd).map fun patched =>
          (patched.mapError .bcd).map fun bcd' => (p, bcd') := by
  obtain ⟨p, hp, hpfiles, hpnull⟩ := start_add ⟨str "BCD", .bcd, bcdLen⟩
  have hplength : p.files.length = 1 := by rw [hpfiles, List.length_singleton]
  have hcalls := hpacked.isCall hfits
  have hnames : ∀ f ∈ files, (0 : UInt8) ∉ f.name := fun f hf => (hfits f hf).name
  have hextract := hpacked.cpioExtract hfits (bootmgrName arch efi) (some p) hfuel
  obtain ⟨q, hq, hqfiles, hbootmgr⟩ := @runCalls_addFile _ m (bootmgrName_length arch efi) _ _ hcalls
    hnames (memberCalls_ne_zero ptr files) p (by omega)
  refine ⟨q, fun bcd' m' hpacked' => ?_, ?_, ?_⟩
  · have hshown := registeredFile_shown hcalls (hpacked'.isCall hfits) hnames bcd'
    have hbcd : PayloadFile.memFile bcd' m' ⟨str "BCD", .bcd, bcdLen⟩ = bcdFile bcd' bcdLen := rfl
    rw [Payload.memFiles, hqfiles, hpfiles, List.singleton_append, List.map_cons, List.map_cons,
      List.map_cons, hbcd, List.map_map (l := memberCalls ptr files)]
    exact congrArg _ hshown
  · revert hbootmgr
    cases bootmgrOf (bootmgrName arch efi) files with
    | none => exact fun hbootmgr => hbootmgr.1.trans hpnull
    | some f => exact fun hbootmgr => ⟨hbootmgr.1, hbootmgr.2.2⟩
  · rw [extractInitrd, hp, hextract, Option.bind_some, hq]
    rfl

end Result

/-- **What comes of an archive.** Of the files that `mkinitrd` packs, in this order behind the BCD: the
loader dies if they are too many, or else if there is no boot manager among them; otherwise the payload
shows the BCD and the files, as long as the archive is in memory, and the boot manager is the last file
with its name. What is left is to patch the BCD.
Source: kern/payload.c, extract_initrd -/
theorem extractInitrd_mkinitrd (arch : Arch) (efi : Bool) (args : NtArgs) (bcd : Mem) (bcdLen : ℕ)
    {files : List InFile} {extra : List UInt8} (hfits : ∀ f ∈ files, f.Fits) {ptr : ℕ} {m : Mem}
    (hpacked : Packed arch m ptr files extra) {fuel : ℕ} (hfuel : files.length < fuel) :
    let result := extractInitrd arch efi fuel args bcd bcdLen ptr (mkinitrd files ++ extra).length m
    if vdiskMaxFiles < files.length + 1 then result = some (.error .tooManyFiles)
    else match bootmgrOf (bootmgrName arch efi) files with
      | none => result = some (.error .noBootmgr)
      | some f => ∃ p : Payload,
          (∀ bcd' m', Packed arch m' ptr files extra →
            (p.memFiles bcd' m').map MemFile.shown =
              (bcdFile bcd' bcdLen :: files.map packedFile).map MemFile.shown) ∧
          m.bytes p.bootmgr p.bootmgrLength = f.contents ∧
          result = (bcdPatchData fuel efi args bcdLen bcd).map fun patched =>
            (patched.mapError .bcd).map fun bcd' => (p, bcd') := by
  intro result
  by_cases hroom : vdiskMaxFiles < files.length + 1
  · rw [if_pos hroom]
    exact extractInitrd_tooMany hfits hpacked hfuel hroom
  · obtain ⟨p, hshown, hbootmgr, hresult⟩ := @extractInitrd_eq arch efi args bcd bcdLen _ _ hfits _ _
      hpacked _ hfuel (by omega)
    rw [if_neg hroom]
    revert hbootmgr
    cases bootmgrOf (bootmgrName arch efi) files with
    | none =>
        intro hnull
        exact hresult.trans (if_pos hnull)
    | some f =>
        rintro ⟨hne, hbytes⟩
        exact ⟨p, hshown, hbytes, hresult.trans (if_neg hne)⟩

/-- An initrd with a boot manager only. -/
def bootmgrInitrd : List InFile := [⟨str "BOOTMGR.exe", 0o100644, [0x4d, 0x5a]⟩]

/-- The file of the archive fits. -/
theorem bootmgrInitrd_fits : ∀ f ∈ bootmgrInitrd, f.Fits := by
  intro f hf
  obtain rfl := List.mem_singleton.mp hf
  exact ⟨by decide +kernel, by decide +kernel, by decide +kernel, by decide⟩

/-- The archive at address zero. -/
theorem bootmgrInitrd_packed (arch : Arch) :
    Packed arch (Mem.ofList (mkinitrd bootmgrInitrd ++ [])) 0 bootmgrInitrd [] := by
  refine ⟨ofList_bytes _, ?_⟩
  have hlength : 0 + (mkinitrd bootmgrInitrd ++ []).length < 2 ^ 32 := by decide +kernel
  exact lt_of_lt_of_le hlength arch.ulong_ge

/-- The loader finds that boot manager on the BIOS build. -/
theorem extractInitrd_mkinitrd_bootmgr :
    let m := Mem.ofList (mkinitrd bootmgrInitrd ++ [])
    let result := extractInitrd .i386 false 2 NtArgs.init Mem.zero 0 0
      (mkinitrd bootmgrInitrd ++ []).length m
    if vdiskMaxFiles < bootmgrInitrd.length + 1 then result = some (.error .tooManyFiles)
    else match bootmgrOf (bootmgrName .i386 false) bootmgrInitrd with
      | none => result = some (.error .noBootmgr)
      | some f => ∃ p : Payload,
          (∀ bcd' m', Packed .i386 m' 0 bootmgrInitrd [] →
            (p.memFiles bcd' m').map MemFile.shown =
              (bcdFile bcd' 0 :: bootmgrInitrd.map packedFile).map MemFile.shown) ∧
          m.bytes p.bootmgr p.bootmgrLength = f.contents ∧
          result = (bcdPatchData 2 false NtArgs.init 0 Mem.zero).map fun patched =>
            (patched.mapError .bcd).map fun bcd' => (p, bcd') :=
  extractInitrd_mkinitrd .i386 false NtArgs.init Mem.zero 0 bootmgrInitrd_fits
    (bootmgrInitrd_packed .i386) (by decide)

/-! ## The virtual disk -/

/-- Files that are shown as others are have their lengths. -/
theorem len_lt_of_shown {fs gs : List MemFile} (h : fs.map MemFile.shown = gs.map MemFile.shown)
    {n : ℕ} (hgs : ∀ g ∈ gs, g.len < n) : ∀ f ∈ fs, f.len < n := by
  intro f hf
  have hmem : f.shown ∈ gs.map MemFile.shown := h ▸ List.mem_map_of_mem hf
  obtain ⟨g, hg, hshown⟩ := List.mem_map.mp hmem
  have hlen : g.len = f.len := congrArg (fun s => s.2.1) hshown
  exact hlen ▸ hgs g hg

/-- The lengths of the BCD and of the files of an archive fit. -/
theorem packedFiles_lt {bcdLen : ℕ} (hbcd : bcdLen < 2 ^ 32) {files : List InFile}
    (hfits : ∀ f ∈ files, f.Fits) (bcd : Mem) :
    ∀ g ∈ bcdFile bcd bcdLen :: files.map packedFile, g.len < 2 ^ 32 := by
  intro g hg
  rcases List.mem_cons.mp hg with rfl | hg
  · exact hbcd
  · obtain ⟨f, hf, rfl⟩ := List.mem_map.mp hg
    exact (hfits f hf).size_lt

/-- A disk with files that are shown as others are is a file system of the others. -/
theorem readPath_of_shown {arch : Arch} {fs gs : List MemFile} {t : VdiskFiles}
    (h : fs.map MemFile.shown = gs.map MemFile.shown) (hfs : fs.length ≤ vdiskMaxFiles)
    (hgs : ∀ g ∈ gs, g.len < 2 ^ 32) (ht : addMemFiles fs = some t) {base : ℕ} {dev : Device}
    (hserves : Serves arch t base dev) (hbase : base ≤ vdiskPartitionLba) (path : List (List ℕ)) :
    readPath (vdiskVolume base) dev path = (Node.resolve gs path).bind (Node.contents gs) ∧
      listPath (vdiskVolume base) dev path = (Node.resolve gs path).bind (Node.listing gs) := by
  have hlen := len_lt_of_shown h hgs
  rw [hserves.readPath hfs hlen ht hbase, hserves.listPath hfs hlen ht hbase,
    Node.resolve_congr h path]
  exact ⟨congrArg _ (funext fun n => n.contents_congr h),
    congrArg _ (funext fun n => n.listing_congr h)⟩

/-- The disk depends on the bytes of the files only. -/
theorem Payload.image_congr {p : Payload} {bcd m m' : Mem} {t t' : VdiskFiles}
    (ht : addMemFiles (p.memFiles bcd m) = some t) (ht' : addMemFiles (p.memFiles bcd m') = some t')
    (hsame : (p.memFiles bcd m).map MemFile.shown = (p.memFiles bcd m').map MemFile.shown)
    (arch : Arch) : image arch t = image arch t' := by
  have hlength (m : Mem) : (p.memFiles bcd m).length ≤ vdiskMaxFiles :=
    (List.length_map _).trans_le p.length_le
  apply Vdisk.image_congr
  intro i
  have hi := shown_getElem? hsame i
  rw [addMemFiles_get (hlength m) ht, addMemFiles_get (hlength m') ht']
  simp only [Payload.memFiles, List.getElem?_map] at hi ⊢
  cases hf : p.files[i]? with
  | none => rfl
  | some f =>
      rw [hf] at hi
      have hbytes : (f.token.mem bcd m).bytes 0 f.len = (f.token.mem bcd m').bytes 0 f.len :=
        congrArg (·.2.2) (Option.some.inj hi)
      have hcontents : (f.memFile bcd m).entry.contents = (f.memFile bcd m').entry.contents := by
        funext x
        change (if x < f.len then f.token.mem bcd m x else 0) =
          if x < f.len then f.token.mem bcd m' x else 0
        by_cases hx : x < f.len
        · have hget := congrArg (fun bs => bs.getD x 0) hbytes
          simp only [bytes_getD hx, Nat.zero_add] at hget
          rw [if_pos hx, if_pos hx, hget]
        · rw [if_neg hx, if_neg hx]
      exact congrArg (fun c => (storedName f.name, f.len, true, c)) hcontents

/-- **The initrd becomes a file system.** If there is a boot manager among the files that `mkinitrd`
packs, and they are not too many, the loader gets to patching the BCD; and from then on, as long as the
archive is in memory, a FAT32 driver that mounts the virtual disk finds at every path what the tree of
the BCD and the files that were packed has there.
Source: kern/payload.c, extract_initrd; libnt/vdisk.c, vdisk_read; utils/mkinitrd.c, main -/
theorem initrd_fileSystem (arch : Arch) (efi : Bool) (args : NtArgs) (bcd : Mem) {bcdLen : ℕ}
    (hbcd : bcdLen < 2 ^ 32) {files : List InFile} {extra : List UInt8} (hfits : ∀ f ∈ files, f.Fits)
    (hcount : files.length < vdiskMaxFiles)
    (hboot : ∃ f ∈ files, strcasecmp f.name (bootmgrName arch efi) = true) {ptr : ℕ} {m : Mem}
    (hpacked : Packed arch m ptr files extra) {fuel : ℕ} (hfuel : files.length < fuel) :
    ∃ p : Payload,
      (extractInitrd arch efi fuel args bcd bcdLen ptr (mkinitrd files ++ extra).length m =
        (bcdPatchData fuel efi args bcdLen bcd).map fun patched =>
          (patched.mapError .bcd).map fun bcd' => (p, bcd')) ∧
      ∀ bcd' m', Packed arch m' ptr files extra →
        ∃ t, addMemFiles (p.memFiles bcd' m') = some t ∧ ∀ (data : ℕ) (m₁ : Mem),
          ∃ v, Fat.mount (vdiskDevice arch t data m₁) = some v ∧ ∀ path,
            let tree := bcdFile bcd' bcdLen :: files.map packedFile
            readPath v (vdiskDevice arch t data m₁) path =
                (Node.resolve tree path).bind (Node.contents tree) ∧
              listPath v (vdiskDevice arch t data m₁) path =
                (Node.resolve tree path).bind (Node.listing tree) := by
  obtain ⟨f, hf⟩ : ∃ f, bootmgrOf (bootmgrName arch efi) files = some f := by
    obtain ⟨f, hf, hname⟩ := hboot
    rw [← Option.isSome_iff_exists, bootmgrOf, List.find?_isSome]
    exact ⟨f, List.mem_reverse.mpr hf, hname⟩
  obtain ⟨p, hshown, hbootmgr, hresult⟩ := @extractInitrd_eq arch efi args bcd bcdLen _ _ hfits _ _
    hpacked _ hfuel hcount
  rw [hf] at hbootmgr
  refine ⟨p, hresult.trans (if_neg hbootmgr.1), fun bcd' m' hpacked' => ?_⟩
  have hfiles := hshown bcd' m' hpacked'
  have hlength : (p.memFiles bcd' m').length ≤ vdiskMaxFiles :=
    (List.length_map _).trans_le p.length_le
  obtain ⟨t, ht, -⟩ := addMemFiles_eq hlength
  refine ⟨t, ht, fun data m₁ => ?_⟩
  have hserves := vdiskDevice_serves arch (addMemFiles_inMemory hlength ht) data m₁
  exact ⟨vdiskVolume 0, hserves.mount rfl,
    readPath_of_shown hfiles hlength (packedFiles_lt hbcd hfits bcd') ht hserves (Nat.zero_le _)⟩

/-- The boot manager on the virtual disk of the BIOS build. -/
theorem initrd_fileSystem_bootmgr :
    let m := Mem.ofList (mkinitrd bootmgrInitrd ++ [])
    ∃ p : Payload,
      (extractInitrd .i386 false 2 NtArgs.init Mem.zero 0x8000 0
          (mkinitrd bootmgrInitrd ++ []).length m =
        (bcdPatchData 2 false NtArgs.init 0x8000 Mem.zero).map fun patched =>
          (patched.mapError .bcd).map fun bcd' => (p, bcd')) ∧
      ∀ bcd' m', Packed .i386 m' 0 bootmgrInitrd [] →
        ∃ t, addMemFiles (p.memFiles bcd' m') = some t ∧ ∀ (data : ℕ) (m₁ : Mem),
          ∃ v, Fat.mount (vdiskDevice .i386 t data m₁) = some v ∧ ∀ path,
            let tree := bcdFile bcd' 0x8000 :: bootmgrInitrd.map packedFile
            readPath v (vdiskDevice .i386 t data m₁) path =
                (Node.resolve tree path).bind (Node.contents tree) ∧
              listPath v (vdiskDevice .i386 t data m₁) path =
                (Node.resolve tree path).bind (Node.listing tree) :=
  initrd_fileSystem .i386 false NtArgs.init Mem.zero (by decide) bootmgrInitrd_fits (by decide)
    ⟨_, List.mem_singleton.mpr rfl, by decide +kernel⟩ (bootmgrInitrd_packed .i386) (by decide)

end Ntloader.Kern
