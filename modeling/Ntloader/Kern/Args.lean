import Ntloader.Posix.String

/-!
# Command-line arguments

What one argument of the command line does to the arguments of the loader.

* `CharArray` — a `char [n]` of a record, with its size.
* `NtArgs`, `NtArgs.init` — include/cmdline.h, struct nt_args, and its static values.
* `convertPath`, `convertBool`, `processArgument` — kern/cmdline.c; `convertPath_length`.

Scope: the pointers to the BCD and to the boot manager, which no argument sets, are left out.
-/

namespace Ntloader.Kern

open Ntloader.Posix

/-! ## The record -/

/-- A `char [n]`: all its bytes. -/
structure CharArray (n : ℕ) where
  /-- The bytes. -/
  bytes : List UInt8
  length_eq : bytes.length = n
  deriving DecidableEq

/-- The bytes in front of the first NUL. -/
def CharArray.toString {n : ℕ} (a : CharArray n) : List UInt8 := a.bytes.takeWhile (· ≠ 0)

/-- An array that is initialised with a string: the rest is zero. -/
def CharArray.ofString (n : ℕ) (s : List UInt8) : CharArray n :=
  ⟨(s ++ List.replicate n 0).take n, by simp⟩

/-- Boot type.
Source: include/cmdline.h, NTBOOT_WIM, NTBOOT_VHD, NTBOOT_WOS, NTBOOT_REC, NTBOOT_RAM -/
inductive BootType where
  | ntbootWim
  | ntbootVhd
  | ntbootWos
  | ntbootRec
  | ntbootRam
  deriving Repr, DecidableEq

/-- Source: include/cmdline.h, NTARG_BOOL_TRUE -/
def ntargBoolTrue : UInt8 := 1

/-- Source: include/cmdline.h, NTARG_BOOL_FALSE -/
def ntargBoolFalse : UInt8 := 0

/-- Source: include/cmdline.h, NTARG_BOOL_UNSET -/
def ntargBoolUnset : UInt8 := 0xff

/-- Source: include/cmdline.h, NTARG_BOOL_NA -/
def ntargBoolNa : UInt8 := 0x0f

/-- Source: include/cmdline.h, MAX_PATH -/
def maxPath : ℕ := 255

/-- Source: include/cmdline.h, struct nt_args -/
structure NtArgs where
  textmode : UInt8
  testmode : UInt8
  hires : UInt8
  hal : UInt8
  minint : UInt8
  novga : UInt8
  novesa : UInt8
  safemode : UInt8
  altshell : UInt8
  exportcd : UInt8
  advmenu : UInt8
  optedit : UInt8
  nx : ℕ
  pae : ℕ
  timeout : ℕ
  safeboot : ℕ
  gfxmode : ℕ
  imgofs : ℕ
  loadopt : CharArray 128
  winload : CharArray 64
  sysroot : CharArray 32
  boottype : BootType
  fsuuid : CharArray 17
  partid : CharArray 16
  diskid : CharArray 16
  partmap : UInt8
  filepath : CharArray (maxPath + 1)
  initrdPath : CharArray (maxPath + 1)
  deriving DecidableEq

/-- The static values.
Source: kern/cmdline.c, args -/
def NtArgs.init : NtArgs where
  textmode := ntargBoolFalse
  testmode := ntargBoolFalse
  hires := ntargBoolUnset
  hal := ntargBoolTrue
  minint := ntargBoolUnset
  novga := ntargBoolFalse
  novesa := ntargBoolFalse
  safemode := ntargBoolFalse
  altshell := ntargBoolFalse
  exportcd := ntargBoolFalse
  advmenu := ntargBoolFalse
  optedit := ntargBoolFalse
  nx := 0 -- NX_OPTIN
  pae := 0 -- PAE_DEFAULT
  timeout := 0
  safeboot := 0 -- SAFE_MINIMAL
  gfxmode := 0 -- GFXMODE_1024X768
  imgofs := 65536
  loadopt := .ofString _ (str "/DISABLE_INTEGRITY_CHECKS")
  winload := .ofString _ []
  sysroot := .ofString _ (str "\\Windows")
  boottype := .ntbootWos
  fsuuid := .ofString _ []
  partid := .ofString _ []
  diskid := .ofString _ []
  partmap := 0x01
  filepath := .ofString _ []
  initrdPath := .ofString _ (str "\\initrd.cpio")

/-! ## Values -/

/-- Write a string to an array: at most `n - 1` characters, and a NUL.
Source: posix/vsprintf.c, vsnprintf, with the format `%s` -/
def CharArray.snprintf {n : ℕ} (a : CharArray n) (s : List UInt8) : CharArray n :=
  ⟨(s.take (n - 1) ++ 0 :: a.bytes.drop (s.length + 1)).take n, by
    have := a.length_eq
    simp only [List.length_take, List.length_append, List.length_cons, List.length_drop]
    omega⟩

/-- A string that fits is kept whole, with its NUL. -/
theorem snprintf_bytes {n : ℕ} (a : CharArray n) {s : List UInt8} (h : s.length < n) :
    ∃ t, (a.snprintf s).bytes = s ++ 0 :: t := by
  have htake : s.take (n - 1) = s := List.take_of_length_le (by omega)
  refine ⟨(a.bytes.drop (s.length + 1)).take (n - s.length - 1), ?_⟩
  show (s.take (n - 1) ++ 0 :: a.bytes.drop (s.length + 1)).take n = _
  rw [htake, List.take_append, List.take_of_length_le (Nat.le_of_lt h),
    show n - s.length = n - s.length - 1 + 1 by omega, List.take_succ_cons, Nat.add_sub_cancel]

/-- A string that fits is the string of the array. -/
theorem snprintf_toString {n : ℕ} (a : CharArray n) {s : List UInt8} (h : s.length < n)
    (hnul : (0 : UInt8) ∉ s) : (a.snprintf s).toString = s := by
  obtain ⟨t, ht⟩ := snprintf_bytes a h
  have hs : ∀ c ∈ s, decide (c ≠ 0) = true := fun c hc => by
    simpa using fun h0 : c = 0 => hnul (h0 ▸ hc)
  rw [CharArray.toString, ht, List.takeWhile_append_of_pos hs, List.takeWhile_cons,
    if_neg (by decide), List.append_nil]

/-- The characters of a path. A character that has become a NUL does not stop the loop, which goes
on behind it.
Source: kern/cmdline.c, convert_path -/
def convertPath (backslash : Bool) : List UInt8 → List UInt8
  | [] => []
  | 0 :: s => 0 :: s
  | c :: s =>
      let c := if c = 0x2f ∧ backslash then 0x5c else c
      let c := if c = 0x3a then 0x20 else c
      let c := if c = 0x0d ∨ c = 0x0a then 0 else c
      c :: convertPath backslash s

/-- A converted path keeps its length. -/
@[simp] theorem convertPath_length (backslash : Bool) (s : List UInt8) :
    (convertPath backslash s).length = s.length := by
  fun_induction convertPath backslash s with
  | case1 => rfl
  | case2 s => rfl
  | case3 c s hc c₁ c₂ c₃ ih => rw [List.length_cons, ih, List.length_cons]

/-- The conversion in place. -/
def CharArray.convertPath {n : ℕ} (a : CharArray n) (backslash : Bool) : CharArray n :=
  ⟨Kern.convertPath backslash a.bytes, by rw [convertPath_length, a.length_eq]⟩

/-- Source: kern/cmdline.c, convert_bool -/
def convertBool : Option (List UInt8) → UInt8
  | none => ntargBoolTrue
  | some s =>
      if strcasecmp s (str "yes") ∨ strcasecmp s (str "on") ∨ strcasecmp s (str "true") ∨
        strcasecmp s (str "1") then ntargBoolTrue
      else ntargBoolFalse

/-- The messages of `die`. -/
inductive Die where
  /-- `Argument "%s" needs a value` -/
  | needsValue (key : String)
  /-- `Invalid imgofs "%s"` -/
  | invalidImgofs (value : List UInt8)
  deriving DecidableEq

/-- The value of an argument that needs one. -/
def needValue (key : String) : Option (List UInt8) → Except Die (List UInt8)
  | none => .error (.needsValue key)
  | some [] => .error (.needsValue key)
  | some value => .ok value

/-- No value, or one of a name. -/
def valueIs (value : Option (List UInt8)) (s : String) : Bool :=
  value.any (strcasecmp · (str s))

/-- The path of an argument that names the file to boot. -/
def setFilepath (args : NtArgs) (value : List UInt8) (boottype : BootType) : NtArgs :=
  { args with filepath := (args.filepath.snprintf value).convertPath true, boottype := boottype }

/-- The boot type that the extension of a file stands for.
Source: kern/cmdline.c, process_cmdline, `file` -/
def fileBoottype (value : List UInt8) : BootType :=
  if (strrchr 0x2e value).any (strcasecmp · (str ".wim")) then .ntbootWim else .ntbootVhd

/-- Process this argument.
Source: kern/cmdline.c, process_cmdline -/
def processArgument (arch : Arch) (args : NtArgs) (key : List UInt8)
    (value : Option (List UInt8)) : Except Die NtArgs :=
  if key = str "uuid" then do
    return { args with fsuuid := args.fsuuid.snprintf (← needValue "uuid" value) }
  else if key = str "wim" then do
    return setFilepath args (← needValue "wim" value) .ntbootWim
  else if key = str "vhd" then do
    return setFilepath args (← needValue "vhd" value) .ntbootVhd
  else if key = str "ram" then do
    return setFilepath args (← needValue "ram" value) .ntbootRam
  else if key = str "file" then do
    let value ← needValue "file" value
    return setFilepath args value (fileBoottype value)
  else if key = str "text" then
    .ok { args with textmode := ntargBoolTrue }
  else if key = str "testmode" then
    .ok { args with testmode := convertBool value }
  else if key = str "hires" then
    .ok { args with hires := convertBool value }
  else if key = str "detecthal" then
    .ok { args with hal := convertBool value }
  else if key = str "minint" then
    .ok { args with minint := convertBool value }
  else if key = str "novga" then
    .ok { args with novga := convertBool value }
  else if key = str "novesa" then
    .ok { args with novesa := convertBool value }
  else if key = str "altshell" then
    .ok { args with altshell := convertBool value, safemode := ntargBoolTrue }
  else if key = str "exportascd" then
    .ok { args with exportcd := convertBool value }
  else if key = str "f8" then
    .ok { args with advmenu := ntargBoolTrue, textmode := ntargBoolTrue }
  else if key = str "edit" then
    .ok { args with optedit := ntargBoolTrue, textmode := ntargBoolTrue }
  else if key = str "nx" then
    .ok { args with nx :=
      if value.isNone ∨ valueIs value "OptIn" then 0x00
      else if valueIs value "OptOut" then 0x01
      else if valueIs value "AlwaysOff" then 0x02
      else if valueIs value "AlwaysOn" then 0x03
      else args.nx }
  else if key = str "pae" then
    .ok { args with pae :=
      if value.isNone ∨ valueIs value "Default" then 0x00
      else if valueIs value "Enable" then 0x01
      else if valueIs value "Disable" then 0x02
      else args.pae }
  else if key = str "safemode" then
    .ok { args with
      safemode := ntargBoolTrue
      safeboot :=
        if value.isNone ∨ valueIs value "Minimal" then 0x00
        else if valueIs value "Network" then 0x01
        else if valueIs value "DsRepair" then 0x02
        else args.safeboot }
  else if key = str "gfxmode" then
    .ok { args with
      hires := ntargBoolNa
      gfxmode :=
        if value.isNone ∨ valueIs value "1024x768" then 0x00
        else if valueIs value "800x600" then 0x01
        else if valueIs value "1024x600" then 0x02
        else args.gfxmode }
  else if key = str "imgofs" then do
    let value ← needValue "imgofs" value
    let (imgofs, endp) := strtoul arch value 0
    if endp = [] then return { args with imgofs := imgofs }
    else .error (.invalidImgofs value)
  else if key = str "loadopt" then do
    let value ← needValue "loadopt" value
    return { args with loadopt := (args.loadopt.snprintf value).convertPath false }
  else if key = str "winload" then do
    let value ← needValue "winload" value
    return { args with winload := (args.winload.snprintf value).convertPath true }
  else if key = str "sysroot" then do
    let value ← needValue "sysroot" value
    return { args with sysroot := (args.sysroot.snprintf value).convertPath true }
  else if key = str "initrdfile" ∨ key = str "initrd" then do
    let value ← needValue "initrd" value
    return { args with initrdPath := (args.initrdPath.snprintf value).convertPath true }
  else
    .ok args -- ignore unknown arguments

/-- An empty argument has an unknown key. -/
theorem processArgument_nil (arch : Arch) (args : NtArgs) (value : Option (List UInt8)) :
    processArgument arch args [] value = .ok args := by
  unfold processArgument
  repeat rw [if_neg (by decide)]

/-! ## Defaults -/

/-- The values that are left to the boot type.
Source: kern/cmdline.c, process_cmdline, behind the loop -/
def fillDefaults (args : NtArgs) : NtArgs :=
  { args with
    hires :=
      if args.hires = ntargBoolUnset then
        if args.boottype = .ntbootWim then ntargBoolTrue else ntargBoolFalse
      else args.hires
    minint :=
      if args.minint = ntargBoolUnset then
        if args.boottype = .ntbootWim then ntargBoolTrue else ntargBoolFalse
      else args.minint
    winload :=
      if args.winload.bytes.headD 0 = 0 then
        if args.boottype = .ntbootWim then
          args.winload.snprintf (str "\\Windows\\System32\\boot\\winload.efi")
        else args.winload.snprintf (str "\\Windows\\System32\\winload.efi")
      else args.winload }

end Ntloader.Kern
