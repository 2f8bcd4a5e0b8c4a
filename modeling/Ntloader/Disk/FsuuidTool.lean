import Ntloader.Disk.Fsuuid
import Ntloader.Kern.Effects
import Ntloader.Posix.Vsprintf

/-!
# The fsuuid tool

A program for the host prints the identifier that the argument `uuid` of the loader takes.

* `fsuuidGet` — utils/fsuuid.c, with the `snprintf` of the host.
* `printUuid`, `checkFsuuidPrinted` — disk/fsuuid.c, with the `snprintf` of the loader;
  `checkFsuuidPrinted_eq`.
* `fileSystem`, `numSerial` — what a volume boot record is taken for.
* `checkFsuuid_iff_fsuuidGet` — the two agree.

Scope: the list of the volumes, the drive letters and the loop over the arguments are left out.
-/

namespace Ntloader.Disk

open Ntloader.Lib Ntloader.Posix Ntloader.Kern

/-! ## The loader -/

/-- Write a formatted string to a buffer.
Source: posix/vsprintf.c, snprintf -/
def snprintf {n : ℕ} (arch : Arch) (buf : CharArray n) (fmt : String) (args : List VaArg) :
    Option (CharArray n) :=
  (vcprintf arch (str fmt) args).map buf.snprintf

/-- The identifier in two halves. -/
def printSerial {n : ℕ} (arch : Arch) (uuid : CharArray n) (serial : ℕ) : Option (CharArray n) :=
  snprintf arch uuid "%04x-%04x" [.num (serial / 2 ^ 16 % 2 ^ 16), .num (serial % 2 ^ 16)]

/-- The identifier as it is printed.
Source: disk/fsuuid.c, check_fsuuid; include/fsuuid.h, union volume_boot_record -/
def printUuid (arch : Arch) (vbr : Mem) : Option (CharArray 17) :=
  let uuid := CharArray.ofString 17 (str " ")
  if vbr.bytes 3 5 = str "EXFAT" then printSerial arch uuid (vbr.word 100 4)
  else if vbr.bytes 3 4 = str "NTFS" then snprintf arch uuid "%016llx" [.num (vbr.word 72 8)]
  else if vbr.bytes 54 5 = str "FAT12" then printSerial arch uuid (vbr.word 39 4)
  else if vbr.bytes 54 5 = str "FAT16" then printSerial arch uuid (vbr.word 39 4)
  else if vbr.bytes 82 5 = str "FAT32" then printSerial arch uuid (vbr.word 67 4)
  else some uuid

/-- The check, with the identifier as it is printed; `none` if the format is not defined.
Source: disk/fsuuid.c, check_fsuuid -/
def checkFsuuidPrinted (arch : Arch) (disk : DiskRead) (args : NtArgs) (lba : ℕ) : Option Bool :=
  match disk lba with
  | none => some false
  | some vbr =>
      (printUuid arch vbr).map fun uuid => strcasecmp uuid.toString args.fsuuid.toString

/-! ## The tool -/

/-- A number in lower-case digits, with zeros in front up to a width.
Source: none: the standard's `%0*llx` -/
def hostHex (width num : ℕ) : List UInt8 := (hexDigits num).leftpad width 0x30

/-- The identifier in two halves, on the host. -/
def hostSerial {n : ℕ} (uuid : CharArray n) (serial : ℕ) : CharArray n :=
  uuid.snprintf (hostHex 4 (serial / 2 ^ 16 % 2 ^ 16) ++ 0x2d :: hostHex 4 (serial % 2 ^ 16))

/-- The identifier that is printed for a volume boot record; empty if its file system is not known.
Source: utils/fsuuid.c, fsuuid_get; include/fsuuid.h, union volume_boot_record -/
def fsuuidUuid (vbr : Mem) : CharArray 17 :=
  let uuid := CharArray.ofString 17 []
  if vbr.bytes 3 5 = str "EXFAT" then hostSerial uuid (vbr.word 100 4)
  else if vbr.bytes 3 4 = str "NTFS" then uuid.snprintf (hostHex 16 (vbr.word 72 8))
  else if vbr.bytes 54 5 = str "FAT12" then hostSerial uuid (vbr.word 39 4)
  else if vbr.bytes 54 5 = str "FAT16" then hostSerial uuid (vbr.word 39 4)
  else if vbr.bytes 82 5 = str "FAT32" then hostSerial uuid (vbr.word 67 4)
  else uuid

/-- What is written to the output, or to the error output. -/
inductive Printed where
  | stdout (s : List UInt8)
  | stderr (s : List UInt8)
  deriving DecidableEq

/-- The tool on a volume: its name, and its bytes if it can be opened.
Source: utils/fsuuid.c, fsuuid_get -/
def fsuuidGet (volume : List UInt8) : Option (List UInt8) → Printed
  | none => .stderr (str "Could not open " ++ volume ++ str ".\n")
  | some fd =>
      if fd.length < 512 then .stderr (str "Could not read " ++ volume ++ str ".\n")
      else
        let uuid := (fsuuidUuid (Mem.ofList fd)).toString
        if uuid ≠ [] then .stdout (uuid ++ str "\n")
        else .stderr (str "Unsupported filesystem.\n")

/-! ## File systems -/

/-- The file systems that are known. -/
inductive FileSystem where
  | exfat
  | ntfs
  | fat12
  | fat16
  | fat32
  deriving Repr, DecidableEq

/-- The file system of a volume boot record. -/
def fileSystem (vbr : Mem) : Option FileSystem :=
  if vbr.bytes 3 5 = str "EXFAT" then some .exfat
  else if vbr.bytes 3 4 = str "NTFS" then some .ntfs
  else if vbr.bytes 54 5 = str "FAT12" then some .fat12
  else if vbr.bytes 54 5 = str "FAT16" then some .fat16
  else if vbr.bytes 82 5 = str "FAT32" then some .fat32
  else none

/-- The serial number in a volume boot record of a file system.
Source: include/fsuuid.h, num_serial -/
def numSerial (vbr : Mem) : FileSystem → ℕ
  | .exfat => vbr.word 100 4
  | .ntfs => vbr.word 72 8
  | .fat12 => vbr.word 39 4
  | .fat16 => vbr.word 39 4
  | .fat32 => vbr.word 67 4

/-- The identifier of a serial number. -/
def uuidOf (fs : FileSystem) (serial : ℕ) : List UInt8 :=
  if fs = .ntfs then hex 16 serial else uuid32 serial

/-- A choice by the name of the file system. -/
theorem ite_fileSystem {α : Type} (vbr : Mem) (f : FileSystem → α) (d : α) :
    (if vbr.bytes 3 5 = str "EXFAT" then f .exfat
      else if vbr.bytes 3 4 = str "NTFS" then f .ntfs
      else if vbr.bytes 54 5 = str "FAT12" then f .fat12
      else if vbr.bytes 54 5 = str "FAT16" then f .fat16
      else if vbr.bytes 82 5 = str "FAT32" then f .fat32
      else d) = (fileSystem vbr).elim d f := by
  rw [fileSystem]
  split_ifs <;> rfl

/-! ## Fields of zeros -/

/-- Padding on the left keeps the last character. -/
theorem leftpad_append_singleton {α : Type} (n : ℕ) (a x : α) (l : List α) :
    (l ++ [x]).leftpad (n + 1) a = l.leftpad n a ++ [x] := by
  simp [List.leftpad]

/-- Zero is written as zeros. -/
theorem hex_zero (width : ℕ) : hex width 0 = List.replicate width 0x30 := by
  induction width with
  | zero => rfl
  | succ width ih =>
      rw [hex, Nat.zero_div, ih, List.replicate_succ']
      rfl

/-- A number has as many digits as are asked for. -/
@[simp] theorem hex_length (width num : ℕ) : (hex width num).length = width := by
  induction width generalizing num with
  | zero => rfl
  | succ width ih => rw [hex, List.length_append, ih, List.length_singleton]

/-- A field of the host has as many digits as its width, if the number fits. -/
theorem hostHex_eq {width num : ℕ} (hwidth : 0 < width) (hnum : num < 16 ^ width) :
    hostHex width num = hex width num := by
  have hdigit : ∀ i < 16, UInt8.ofNat (Nat.digitChar i).toNat =
      (str "0123456789abcdef").getD i 0 := by decide
  induction width generalizing num with
  | zero => exact absurd hwidth (Nat.lt_irrefl 0)
  | succ width ih =>
      rw [hostHex, hexDigits, Nat.toDigits_eq_if (by norm_num), hex]
      by_cases hlt : num < 16
      · rw [if_pos hlt, Nat.div_eq_of_lt hlt, Nat.mod_eq_of_lt hlt, hex_zero, ← hdigit num hlt]
        rfl
      · have hdiv : num / 16 < 16 ^ width :=
          Nat.div_lt_of_lt_mul (by rwa [Nat.mul_comm, ← pow_succ])
        have hpos : 0 < width := by
          rcases Nat.eq_zero_or_pos width with rfl | hpos
          · exact absurd hdiv (by rw [pow_zero]; omega)
          · exact hpos
        rw [if_neg hlt, List.map_append, List.map_singleton, leftpad_append_singleton,
          hdigit _ (Nat.mod_lt _ (by norm_num)), ← ih hpos hdiv]
        rfl

/-- The digits of a number are its low bits. -/
theorem hex_injective {width num num' : ℕ} (h : hex width num = hex width num') :
    num % 16 ^ width = num' % 16 ^ width := by
  have hdigit : ∀ i < 16, ∀ j < 16, (str "0123456789abcdef").getD i 0 =
      (str "0123456789abcdef").getD j 0 → i = j := by decide
  induction width generalizing num num' with
  | zero => rw [pow_zero, Nat.mod_one, Nat.mod_one]
  | succ width ih =>
      rw [hex, hex] at h
      obtain ⟨hdiv, hmod⟩ := List.append_inj' h rfl
      have hlow : num % 16 = num' % 16 :=
        hdigit _ (Nat.mod_lt _ (by norm_num)) _ (Nat.mod_lt _ (by norm_num)) (List.cons.inj hmod).1
      rw [pow_succ', Nat.mod_mul, Nat.mod_mul, hlow, ih hdiv]

/-! ## What is printed -/

/-- The serial numbers of 32 bits. -/
theorem vcprintf_serial (arch : Arch) (serial : ℕ) :
    vcprintf arch (str "%04x-%04x") [.num (serial / 2 ^ 16 % 2 ^ 16), .num (serial % 2 ^ 16)] =
      some (uuid32 serial) := by
  have hhex {num : ℕ} (hnum : num < 2 ^ 16) (args : List VaArg) :
      convert arch zpad 4 intLen 0x78 (.num num :: args) = some (hex 4 num, args) := by
    have hbits : 2 ^ 16 ≤ 2 ^ vaBits arch 4 := by
      cases arch <;> exact Nat.pow_le_pow_right (by norm_num) (by decide)
    rw [← hostHex_eq (by norm_num) (hnum.trans_le (by norm_num))]
    exact convert_hex (by norm_num) (by norm_num) rfl (hnum.trans_le hbits)
      (hnum.trans_le (by norm_num)) (hnum.trans_le (by norm_num)) args
  have hlength : (str "%04x-%04x").length = 8 + 1 := by decide
  have hfmt : str "%04x-%04x" = 0x25 :: (str "04x" ++ 0x2d :: 0x25 :: (str "04x" ++ [])) := by decide
  have hflags (rest : List UInt8) : parseFlags 0 (str "04x" ++ rest) = (zpad, str "4x" ++ rest) := rfl
  have hwidth (rest : List UInt8) : parseWidth 0 (str "4x" ++ rest) = (4, str "x" ++ rest) := rfl
  have hlen (rest : List UInt8) : parseLength intLen (str "x" ++ rest) = (intLen, 0x78 :: rest) := rfl
  have hhigh := hhex (Nat.mod_lt (serial / 2 ^ 16) (by norm_num)) [.num (serial % 2 ^ 16)]
  have hlow := hhex (Nat.mod_lt serial (by norm_num)) []
  rw [vcprintf, hlength, hfmt, vcprintfLoop_convert (hflags _) (hwidth _) (hlen _) hhigh,
    vcprintfLoop_pass (by decide), vcprintfLoop_convert (hflags _) (hwidth _) (hlen _) hlow,
    vcprintfLoop, Option.map_some, Option.map_some, Option.map_some, List.append_nil, uuid32]

/-- The serial numbers of 64 bits. -/
theorem vcprintf_serial64 (arch : Arch) {serial : ℕ} (h : serial < 2 ^ 64) :
    vcprintf arch (str "%016llx") [.num serial] = some (hex 16 serial) := by
  have hnum : serial < 16 ^ 16 := h.trans_le (by norm_num)
  have hhex : convert arch zpad 16 4 0x78 [.num serial] = some (hex 16 serial, []) := by
    rw [← hostHex_eq (by norm_num) hnum]
    exact @convert_hex arch 16 8 serial 4 (by norm_num) (by norm_num) rfl h hnum h []
  have hlength : (str "%016llx").length = 6 + 1 := by decide
  have hfmt : str "%016llx" = 0x25 :: str "016llx" := by decide
  have hflags : parseFlags 0 (str "016llx") = (zpad, str "16llx") := by decide
  have hwidth : parseWidth 0 (str "16llx") = (16, str "llx") := by decide
  have hlen : parseLength intLen (str "llx") = (4, [0x78]) := by decide
  rw [vcprintf, hlength, hfmt, vcprintfLoop_convert hflags hwidth hlen hhex, vcprintfLoop,
    Option.map_some, List.append_nil]

/-! ## Identifiers -/

/-- The characters of identifiers. -/
def uuidChars : List UInt8 := str "-0123456789abcdef"

/-- Its digits are characters of a UUID, -/
theorem mem_hex {width num : ℕ} {c : UInt8} (hc : c ∈ hex width num) : c ∈ uuidChars := by
  have hdigit : ∀ i < 16, (str "0123456789abcdef").getD i 0 ∈ uuidChars := by decide
  induction width generalizing num with
  | zero => cases hc
  | succ width ih =>
      rw [hex, List.mem_append, List.mem_singleton] at hc
      rcases hc with hc | rfl
      · exact ih hc
      · exact hdigit _ (Nat.mod_lt _ (by norm_num))

/-- and so are those of 32 bits with a dash. -/
theorem mem_uuid32 {serial : ℕ} {c : UInt8} (hc : c ∈ uuid32 serial) : c ∈ uuidChars := by
  rw [uuid32, List.mem_append, List.mem_cons] at hc
  rcases hc with hc | rfl | hc
  · exact mem_hex hc
  · decide
  · exact mem_hex hc

/-- They are nine. -/
@[simp] theorem uuid32_length (serial : ℕ) : (uuid32 serial).length = 9 := by
  rw [uuid32, List.length_append, List.length_cons, hex_length, hex_length]

/-- The UUID of a file system has characters of a UUID only: -/
theorem mem_uuidOf {fs : FileSystem} {serial : ℕ} {c : UInt8} (hc : c ∈ uuidOf fs serial) :
    c ∈ uuidChars := by
  rw [uuidOf] at hc
  split_ifs at hc
  · exact mem_hex hc
  · exact mem_uuid32 hc

/-- 16 of them for NTFS and nine for the others. -/
theorem uuidOf_length (fs : FileSystem) (serial : ℕ) :
    (uuidOf fs serial).length = if fs = .ntfs then 16 else 9 := by
  rw [uuidOf]
  split_ifs
  · exact hex_length 16 serial
  · exact uuid32_length serial

/-- The serial numbers of a file system have as many bits as it prints. -/
theorem numSerial_lt (vbr : Mem) (fs : FileSystem) :
    numSerial vbr fs < if fs = .ntfs then 2 ^ 64 else 2 ^ 32 := by
  cases fs with
  | ntfs => exact Mem.word_lt vbr 72 8
  | exfat => exact Mem.word_lt vbr 100 4
  | fat12 => exact Mem.word_lt vbr 39 4
  | fat16 => exact Mem.word_lt vbr 39 4
  | fat32 => exact Mem.word_lt vbr 67 4

/-- A serial number of 32 bits is known by its UUID. -/
theorem uuid32_injective {serial serial' : ℕ} (hserial : serial < 2 ^ 32)
    (hserial' : serial' < 2 ^ 32) (h : uuid32 serial = uuid32 serial') : serial = serial' := by
  rw [uuid32, uuid32] at h
  obtain ⟨hhigh, hrest⟩ := List.append_inj h (by rw [hex_length, hex_length])
  have hh := hex_injective hhigh
  have hl := hex_injective (List.cons.inj hrest).2
  norm_num at hh hl
  omega

/-- An identifier stands for one serial number, and tells whether it is one of NTFS. -/
theorem uuidOf_injective {vbr vbr' : Mem} {fs fs' : FileSystem}
    (h : uuidOf fs (numSerial vbr fs) = uuidOf fs' (numSerial vbr' fs')) :
    numSerial vbr fs = numSerial vbr' fs' ∧ (fs = .ntfs ↔ fs' = .ntfs) := by
  have hlength := congrArg List.length h
  rw [uuidOf_length, uuidOf_length] at hlength
  have hserial := numSerial_lt vbr fs
  have hserial' := numSerial_lt vbr' fs'
  by_cases hntfs : fs = .ntfs
  · by_cases hntfs' : fs' = .ntfs
    · rw [if_pos hntfs] at hserial
      rw [if_pos hntfs'] at hserial'
      rw [uuidOf, uuidOf, if_pos hntfs, if_pos hntfs'] at h
      have hmod := hex_injective h
      norm_num at hmod hserial hserial'
      exact ⟨by omega, iff_of_true hntfs hntfs'⟩
    · rw [if_pos hntfs, if_neg hntfs'] at hlength
      exact absurd hlength (by norm_num)
  · by_cases hntfs' : fs' = .ntfs
    · rw [if_neg hntfs, if_pos hntfs'] at hlength
      exact absurd hlength (by norm_num)
    · rw [if_neg hntfs] at hserial
      rw [if_neg hntfs'] at hserial'
      rw [uuidOf, uuidOf, if_neg hntfs, if_neg hntfs'] at h
      exact ⟨uuid32_injective hserial hserial' h, iff_of_false hntfs hntfs'⟩

/-! ## The two programs -/

/-- What the loader compares: a space for an unknown file system. -/
theorem volumeUuid_eq (vbr : Mem) :
    volumeUuid vbr = (fileSystem vbr).elim (str " ") fun fs => uuidOf fs (numSerial vbr fs) :=
  ite_fileSystem vbr (fun fs => uuidOf fs (numSerial vbr fs)) (str " ")

/-- An identifier fits the buffer. -/
theorem snprintf_uuidOf (uuid : CharArray 17) (fs : FileSystem) (serial : ℕ) :
    (uuid.snprintf (uuidOf fs serial)).toString = uuidOf fs serial := by
  refine snprintf_toString uuid ?_ fun h0 => absurd (mem_uuidOf h0) (by decide)
  rw [uuidOf_length]
  split_ifs <;> norm_num

/-- The format of the loader gives the identifier. -/
theorem printUuid_eq (arch : Arch) (vbr : Mem) :
    ∃ uuid, printUuid arch vbr = some uuid ∧ uuid.toString = volumeUuid vbr := by
  have hserial (uuid : CharArray 17) (serial : ℕ) :
      printSerial arch uuid serial = some (uuid.snprintf (uuid32 serial)) := by
    rw [printSerial, snprintf, vcprintf_serial, Option.map_some]
  have hserial64 (uuid : CharArray 17) : snprintf arch uuid "%016llx" [.num (vbr.word 72 8)] =
      some (uuid.snprintf (hex 16 (vbr.word 72 8))) := by
    rw [snprintf, vcprintf_serial64 arch (Mem.word_lt vbr 72 8), Option.map_some]
  have hprint := ite_fileSystem vbr
    (fun fs => some ((CharArray.ofString 17 (str " ")).snprintf (uuidOf fs (numSerial vbr fs))))
    (some (CharArray.ofString 17 (str " ")))
  rw [printUuid, hserial64]
  simp only [hserial]
  rw [volumeUuid_eq]
  cases hfs : fileSystem vbr with
  | none =>
      rw [hfs] at hprint
      have hspace : (CharArray.ofString 17 (str " ")).toString = str " " := by decide
      exact ⟨_, hprint, hspace⟩
  | some fs =>
      rw [hfs] at hprint
      exact ⟨_, hprint, snprintf_uuidOf _ fs _⟩

/-- The check that is printed is the check. -/
theorem checkFsuuidPrinted_eq (arch : Arch) (disk : DiskRead) (args : NtArgs) (lba : ℕ) :
    checkFsuuidPrinted arch disk args lba = some (checkFsuuid disk args lba) := by
  rw [checkFsuuidPrinted, checkFsuuid]
  cases disk lba with
  | none => rfl
  | some vbr =>
      obtain ⟨uuid, huuid, hstring⟩ := printUuid_eq arch vbr
      show (printUuid arch vbr).map _ = some (strcasecmp (volumeUuid vbr) args.fsuuid.toString)
      rw [huuid, Option.map_some, hstring]

/-- The identifier of the tool: nothing for an unknown file system. -/
theorem fsuuidUuid_eq (vbr : Mem) : (fsuuidUuid vbr).toString =
    (fileSystem vbr).elim [] fun fs => uuidOf fs (numSerial vbr fs) := by
  have hhex (num : ℕ) : hostHex 4 (num % 2 ^ 16) = hex 4 (num % 2 ^ 16) :=
    hostHex_eq (by norm_num) (Nat.mod_lt num (by norm_num))
  have hserial (uuid : CharArray 17) (serial : ℕ) :
      hostSerial uuid serial = uuid.snprintf (uuid32 serial) := by
    rw [hostSerial, hhex, hhex, uuid32]
  have hserial64 : hostHex 16 (vbr.word 72 8) = hex 16 (vbr.word 72 8) :=
    hostHex_eq (by norm_num) ((Mem.word_lt vbr 72 8).trans_le (by norm_num))
  have hprint := ite_fileSystem vbr
    (fun fs => (CharArray.ofString 17 []).snprintf (uuidOf fs (numSerial vbr fs)))
    (CharArray.ofString 17 [])
  rw [fsuuidUuid, hserial64]
  simp only [hserial]
  refine (congrArg CharArray.toString hprint).trans ?_
  cases fileSystem vbr with
  | none =>
      have hempty : (CharArray.ofString 17 []).toString = [] := by decide
      exact hempty
  | some fs => exact snprintf_uuidOf _ fs _

/-! ## Upper and lower case -/

/-- The lower-case letter of an upper-case letter of ASCII. -/
def asciiLower (c : UInt8) : UInt8 := if 0x41 ≤ c ∧ c ≤ 0x5a then c + 0x20 else c

/-- Equality up to the case of ASCII letters. -/
def SameUpToCase (s t : List UInt8) : Prop := s.map asciiLower = t.map asciiLower

/-- Letters that are the same in upper case are so in lower case. -/
theorem toupper_eq_iff (c d : UInt8) : toupper c = toupper d ↔ asciiLower c = asciiLower d := by
  have hall : ∀ n : Fin 256,
      toupper (asciiLower (UInt8.ofNat n.val)) = toupper (UInt8.ofNat n.val) ∧
      asciiLower (toupper (UInt8.ofNat n.val)) = asciiLower (UInt8.ofNat n.val) := by
    decide +kernel
  have hc := hall ⟨c.toNat, c.toNat_lt⟩
  have hd := hall ⟨d.toNat, d.toNat_lt⟩
  rw [UInt8.ofNat_toNat] at hc hd
  constructor
  · intro h
    rw [← hc.2, h, hd.2]
  · intro h
    rw [← hc.1, h, hd.1]

/-- The comparison is equality up to case. -/
theorem strcasecmp_iff (s t : List UInt8) : strcasecmp s t = true ↔ SameUpToCase s t := by
  induction s generalizing t with
  | nil =>
      cases t with
      | nil => exact iff_of_true rfl rfl
      | cons d t => exact iff_of_false Bool.false_ne_true fun h => by cases h
  | cons c s ih =>
      cases t with
      | nil => exact iff_of_false Bool.false_ne_true fun h => by cases h
      | cons d t =>
          rw [strcasecmp, Bool.and_eq_true, decide_eq_true_eq, ih, toupper_eq_iff]
          exact List.cons_eq_cons.symm

/-- The comparison is symmetric. -/
theorem SameUpToCase.symm {s t : List UInt8} (h : SameUpToCase s t) : SameUpToCase t s := Eq.symm h

/-- Identifiers are in lower case. -/
theorem map_uuidOf (fs : FileSystem) (serial : ℕ) :
    (uuidOf fs serial).map asciiLower = uuidOf fs serial := by
  have hchars : ∀ c ∈ uuidChars, asciiLower c = c := by decide +kernel
  exact (List.map_congr_left fun c hc => hchars c (mem_uuidOf hc)).trans (List.map_id _)

/-- No word is a space in another case. -/
theorem not_sameUpToCase_space {s : List UInt8} (hs : ∀ c ∈ s, isspace c = false) :
    ¬SameUpToCase s (str " ") := by
  have hall : ∀ n : Fin 256, asciiLower (UInt8.ofNat n.val) = 0x20 →
      UInt8.ofNat n.val = 0x20 := by
    decide +kernel
  intro h
  cases s with
  | nil => cases h
  | cons c s =>
      have hc : asciiLower c = 0x20 := (List.cons.inj h).1
      have h20 := hall ⟨c.toNat, c.toNat_lt⟩
      rw [UInt8.ofNat_toNat] at h20
      have hspace := hs c List.mem_cons_self
      rw [h20 hc] at hspace
      exact absurd hspace (by decide)

/-! ## The record on the volume -/

/-- The bytes of a boot record, with others behind it. -/
theorem bytes_ofList_append {vbr : Mem} {n : ℕ} (rest : List UInt8) {a k : ℕ} (h : a + k ≤ n) :
    (Mem.ofList (vbr.bytes 0 n ++ rest)).bytes a k = vbr.bytes a k := by
  refine Mem.bytes_congr fun i hi => ?_
  have hlt : a + i < (vbr.bytes 0 n).length := by
    rw [Mem.bytes_length]
    omega
  rw [Mem.ofList, List.getD_append _ _ _ _ hlt, Mem.bytes_getD (by omega), Nat.zero_add]

/-- What the tool prints for a volume depends on its first sector. -/
theorem fsuuidUuid_ofList (vbr : Mem) (rest : List UInt8) :
    fsuuidUuid (Mem.ofList (vbr.bytes 0 512 ++ rest)) = fsuuidUuid vbr := by
  have hbytes {a k : ℕ} (h : a + k ≤ 512) := @bytes_ofList_append vbr 512 rest a k h
  have hword {a k : ℕ} (h : a + k ≤ 512) :
      (Mem.ofList (vbr.bytes 0 512 ++ rest)).word a k = vbr.word a k :=
    congrArg leNat (hbytes h)
  unfold fsuuidUuid
  simp only [hbytes (show 3 + 5 ≤ 512 by norm_num), hbytes (show 3 + 4 ≤ 512 by norm_num),
    hbytes (show 54 + 5 ≤ 512 by norm_num), hbytes (show 82 + 5 ≤ 512 by norm_num),
    hword (show 100 + 4 ≤ 512 by norm_num), hword (show 72 + 8 ≤ 512 by norm_num),
    hword (show 39 + 4 ≤ 512 by norm_num), hword (show 67 + 4 ≤ 512 by norm_num)]

/-- What the tool prints: the identifier, or that the file system is not known. -/
theorem fsuuidGet_eq (vbr : Mem) (volume rest : List UInt8) :
    fsuuidGet volume (some (vbr.bytes 0 512 ++ rest)) =
      match fileSystem vbr with
      | none => .stderr (str "Unsupported filesystem.\n")
      | some fs => .stdout (uuidOf fs (numSerial vbr fs) ++ str "\n") := by
  have hlen : ¬(vbr.bytes 0 512 ++ rest).length < 512 := by
    rw [List.length_append, Mem.bytes_length]
    omega
  rw [fsuuidGet, if_neg hlen]
  dsimp only
  rw [fsuuidUuid_ofList, fsuuidUuid_eq]
  cases fileSystem vbr with
  | none => rfl
  | some fs =>
      have hne : uuidOf fs (numSerial vbr fs) ≠ [] := by
        intro h
        have hlength := uuidOf_length fs (numSerial vbr fs)
        rw [h] at hlength
        split_ifs at hlength
      exact if_pos hne

/-! ## The argument -/

/-- No other argument changes the UUID. -/
theorem run_fsuuid (e : Effect) (args : NtArgs) :
    (e.run args).fsuuid = args.fsuuid ∨ e.keys = ["uuid"] := by
  cases e with
  | fsuuid value => exact Or.inr rfl
  | _ => exact Or.inl rfl

/-- The argument `uuid=` has this effect. -/
theorem effect_uuid (arch : Arch) (value : List UInt8) :
    effect arch (splitWord (str "uuid=" ++ value)).1 (splitWord (str "uuid=" ++ value)).2 =
      (needValue "uuid" (some value)).map .fsuuid := by
  have hsplit : splitWord (str "uuid=" ++ value) = (str "uuid", some value) :=
    splitWord_value (k := str "uuid") (by decide) value
  rw [hsplit]
  cases value <;> rfl

/-- The value of the last argument `uuid` is stored. -/
theorem fsuuid_of_processCmdline {arch : Arch} {m m' : Mem} {cmdline fuel : ℕ} {s value : List UInt8}
    {pre post : List (List UInt8)} {args : NtArgs} (hline : m.bytes cmdline (s.length + 1) = s ++ [0])
    (hnul : (0 : UInt8) ∉ s) (hfuel : s.length + 1 < fuel)
    (hwords : words s = pre ++ (str "uuid=" ++ value) :: post)
    (hlast : ∀ w ∈ post, (splitWord w).1 ≠ str "uuid") (hlen : value.length ≤ 16)
    (hrun : processCmdline arch fuel m .init (some cmdline) = some (.ok (args, m'))) :
    args.fsuuid.toString = value := by
  have hvalue : (0 : UInt8) ∉ value := fun h0 => hnul (mem_of_words hwords h0).1
  obtain ⟨args₁, hfold, hargs, -⟩ := (processCmdline_ok_iff hline hnul hfuel).mp hrun
  rw [if_neg (ne_nil_of_words hwords)] at hargs
  rw [hwords] at hfold
  obtain ⟨e, args₀, he, hfield⟩ := foldlM_last hfold run_fsuuid
    fun w hw hkey => hlast w hw (List.mem_singleton.mp hkey)
  have hfsuuid : args.fsuuid = (e.run args₀).fsuuid := by
    rw [← hargs, ← hfield]
    rfl
  rw [effect_uuid] at he
  cases value with
  | nil => cases he
  | cons c value =>
      cases he
      rw [hfsuuid]
      exact snprintf_toString args₀.fsuuid (Nat.lt_succ_of_le hlen) hvalue

/-- **The loader and the tool agree.** On every volume, the loader finds the value of the last argument
`uuid` if and only if the tool prints it, in upper or lower case. So a value is the one of volumes
with one serial number only, all of them NTFS or none. -/
theorem checkFsuuid_iff_fsuuidGet {arch : Arch} {m m' : Mem} {cmdline fuel : ℕ}
    {s value : List UInt8} {pre post : List (List UInt8)} {args : NtArgs}
    (hline : m.bytes cmdline (s.length + 1) = s ++ [0]) (hnul : (0 : UInt8) ∉ s)
    (hfuel : s.length + 1 < fuel) (hwords : words s = pre ++ (str "uuid=" ++ value) :: post)
    (hlast : ∀ w ∈ post, (splitWord w).1 ≠ str "uuid") (hlen : value.length ≤ 16)
    (hrun : processCmdline arch fuel m .init (some cmdline) = some (.ok (args, m'))) :
    (∀ (disk : DiskRead) (lba : ℕ) (vbr : Mem) (volume rest : List UInt8), disk lba = some vbr →
      ∃ found, checkFsuuidPrinted arch disk args lba = some found ∧
        (found = true ↔ ∃ uuid,
          fsuuidGet volume (some (vbr.bytes 0 512 ++ rest)) = .stdout (uuid ++ str "\n") ∧
          SameUpToCase value uuid)) ∧
    ∀ (disk disk' : DiskRead) (lba lba' : ℕ) (vbr vbr' : Mem), disk lba = some vbr →
      disk' lba' = some vbr' → checkFsuuidPrinted arch disk args lba = some true →
      checkFsuuidPrinted arch disk' args lba' = some true →
      ∃ fs fs', fileSystem vbr = some fs ∧ fileSystem vbr' = some fs' ∧
        numSerial vbr fs = numSerial vbr' fs' ∧ (fs = .ntfs ↔ fs' = .ntfs) := by
  have hstored := fsuuid_of_processCmdline hline hnul hfuel hwords hlast hlen hrun
  have hspace : ∀ c ∈ value, isspace c = false := fun c hc => (mem_of_words hwords hc).2
  -- the check succeeds on a known file system with the identifier of the argument
  have hcheck {disk : DiskRead} {lba : ℕ} {vbr : Mem} (hdisk : disk lba = some vbr) :
      checkFsuuid disk args lba = true ↔
        ∃ fs, fileSystem vbr = some fs ∧ SameUpToCase value (uuidOf fs (numSerial vbr fs)) := by
    have heq : checkFsuuid disk args lba = strcasecmp (volumeUuid vbr) value := by
      rw [checkFsuuid, hdisk, ← hstored]
    rw [heq, strcasecmp_iff, volumeUuid_eq]
    cases fileSystem vbr with
    | none =>
        refine iff_of_false (fun h => not_sameUpToCase_space hspace h.symm) ?_
        rintro ⟨fs, hfs, -⟩
        cases hfs
    | some fs =>
        constructor
        · exact fun h => ⟨fs, rfl, h.symm⟩
        · rintro ⟨fs', hfs, h⟩
          cases hfs
          exact h.symm
  constructor
  · intro disk lba vbr volume rest hdisk
    refine ⟨_, checkFsuuidPrinted_eq arch disk args lba, ?_⟩
    rw [hcheck hdisk, fsuuidGet_eq]
    cases fileSystem vbr with
    | none =>
        refine iff_of_false ?_ ?_
        · rintro ⟨fs, hfs, -⟩
          cases hfs
        · rintro ⟨uuid, huuid, -⟩
          cases huuid
    | some fs =>
        constructor
        · rintro ⟨fs', hfs, h⟩
          cases hfs
          exact ⟨_, rfl, h⟩
        · rintro ⟨uuid, huuid, h⟩
          refine ⟨fs, rfl, ?_⟩
          rw [List.append_cancel_right (Printed.stdout.inj huuid)]
          exact h
  · intro disk disk' lba lba' vbr vbr' hdisk hdisk' hfound hfound'
    rw [checkFsuuidPrinted_eq, Option.some.injEq] at hfound hfound'
    obtain ⟨fs, hfs, hsame⟩ := (hcheck hdisk).mp hfound
    obtain ⟨fs', hfs', hsame'⟩ := (hcheck hdisk').mp hfound'
    refine ⟨fs, fs', hfs, hfs', uuidOf_injective ?_⟩
    rw [← map_uuidOf fs, ← map_uuidOf fs']
    exact hsame.symm.trans hsame'

/-- The command line `uuid=1234-abCD`. -/
theorem checkFsuuid_iff_fsuuidGet_fat :
    ∃ args m', processCmdline .i386 20 (Mem.ofList (str "uuid=1234-abCD" ++ [0])) .init (some 0) =
        some (.ok (args, m')) ∧
      ∀ (disk : DiskRead) (lba : ℕ) (vbr : Mem) (volume rest : List UInt8), disk lba = some vbr →
        ∃ found, checkFsuuidPrinted .i386 disk args lba = some found ∧
          (found = true ↔ ∃ uuid,
            fsuuidGet volume (some (vbr.bytes 0 512 ++ rest)) = .stdout (uuid ++ str "\n") ∧
            SameUpToCase (str "1234-abCD") uuid) := by
  have hline : (Mem.ofList (str "uuid=1234-abCD" ++ [0])).bytes 0 ((str "uuid=1234-abCD").length + 1) =
      str "uuid=1234-abCD" ++ [0] := by decide
  have hwords : words (str "uuid=1234-abCD") = [str "uuid=" ++ str "1234-abCD"] := by decide +kernel
  have hrun := @processCmdline_eq .i386 _ _ 20 _ hline (by decide) (by decide) .init
  rw [hwords] at hrun
  exact ⟨_, _, hrun, (@checkFsuuid_iff_fsuuidGet _ _ _ _ _ _ _ [] [] _ hline (by decide) (by decide)
    hwords (List.forall_mem_nil _) (by decide) hrun).1⟩

end Ntloader.Disk
