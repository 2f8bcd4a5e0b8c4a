import Ntloader.Posix.String

/-!
# Formatted output

The characters that a format and its arguments give.

* `formatHex`, `formatDecimal`, `vcprintf` — posix/vsprintf.c.
* `formatHex_eq`, `convert_hex` — a hexadecimal field is the one of the standard.

Scope: what the language leaves undefined gives no characters: an argument that is missing or of
another type, a length modifier outside the table, and a field that does not fit the buffer for
numbers.
-/

namespace Ntloader.Posix

/-! ## Numbers -/

/-- Use lower-case for hexadecimal digits.
Source: posix/vsprintf.c, LCASE -/
def lcase : UInt8 := 0x20

/-- Use "alternate form".
Source: posix/vsprintf.c, ALT_FORM -/
def altForm : UInt8 := 0x02

/-- Use zero padding.
Source: posix/vsprintf.c, ZPAD -/
def zpad : UInt8 := 0x10

/-- Generate the number, in front of what is there. A number of 64 bits has at most 20 digits.
Source: posix/vsprintf.c, format_hex and format_decimal, `Generate the number` -/
def generateNumber (base : ℕ) (digit : ℕ → UInt8) : ℕ → ℕ → List UInt8 → List UInt8
  | 0, _, ptr => ptr
  | fuel + 1, num, ptr =>
      let ptr := digit (num % base) :: ptr
      if num / base = 0 then ptr else generateNumber base digit fuel (num / base) ptr

/-- Source: posix/vsprintf.c, format_hex -/
def formatHex (num width : ℕ) (flags : UInt8) : List UInt8 :=
  let caseMod := flags &&& lcase
  let pad := (flags &&& zpad) ||| 0x20
  let digit i := (str "0123456789ABCDEF").getD i 0 ||| caseMod
  let ptr := (generateNumber 16 digit 64 num []).leftpad width pad
  if flags &&& altForm ≠ 0 then 0x30 :: (0x58 ||| caseMod) :: ptr else ptr

/-- The sign of a number that is padded with zeros takes the place of its first character.
Source: posix/vsprintf.c, format_decimal -/
def formatDecimal (num width : ℕ) (flags : UInt8) : List UInt8 :=
  let negative : Bool := flags &&& altForm ≠ 0 ∧ num ≥ 2 ^ 63
  let num := if negative then 2 ^ 64 - num else num
  let pad := (flags &&& zpad) ||| 0x20
  let ptr := generateNumber 10 (fun i => 0x30 + UInt8.ofNat i) 64 num []
  let ptr := if negative ∧ flags &&& zpad = 0 then 0x2d :: ptr else ptr
  let ptr := ptr.leftpad width pad
  if negative ∧ flags &&& zpad ≠ 0 then 0x2d :: ptr.tail else ptr

/-! ## Arguments -/

/-- An argument of a format. -/
inductive VaArg where
  /-- An integer or a pointer, by its bits. -/
  | num (n : ℕ)
  /-- A string, or NULL. -/
  | str (s : Option (List UInt8))
  /-- A wide string, or NULL. -/
  | wstr (s : Option (List UInt16))

/-- Source: posix/vsprintf.c, INT_LEN -/
def intLen : ℤ := 2

/-- Source: posix/vsprintf.c, LONG_LEN -/
def longLen : ℤ := 3

/-- Source: posix/vsprintf.c, SIZE_T_LEN -/
def sizeTLen : ℤ := 5

/-- `sizeof (long)`, which is `sizeof (size_t)`. -/
def sizeofLong : Arch → ℕ
  | .i386 => 4
  | .x86_64 => 8

/-- The size at a place of the table.
Source: posix/vsprintf.c, type_sizes -/
def typeSize (arch : Arch) (length : ℤ) : Option ℕ :=
  if length < 0 then none
  else [1, 2, 4, sizeofLong arch, 8, sizeofLong arch][length.toNat]?

/-- The bits of the type in which a number is taken: `long long`, `long` or `int`.
Source: posix/vsprintf.c, vcprintf, `hex.u`, `decimal.d` and `decimal.u` -/
def vaBits (arch : Arch) (size : ℕ) : ℕ :=
  if size ≥ 8 then 64 else if size ≥ sizeofLong arch then 8 * sizeofLong arch else 32

/-- A number as `long long`. -/
def signExtend (bits num : ℕ) : ℕ :=
  if num < 2 ^ (bits - 1) then num else num + (2 ^ 64 - 2 ^ bits)

/-- The next argument, a number. -/
def vaNum : List VaArg → Option (ℕ × List VaArg)
  | .num n :: args => some (n, args)
  | _ => none

/-- The next argument, a string. -/
def vaStr : List VaArg → Option (Option (List UInt8) × List VaArg)
  | .str s :: args => some (s, args)
  | _ => none

/-- The next argument, a wide string. -/
def vaWstr : List VaArg → Option (Option (List UInt16) × List VaArg)
  | .wstr s :: args => some (s, args)
  | _ => none

/-! ## Conversions -/

/-- The characters of a number, if they fit.
Source: posix/vsprintf.c, vcprintf, `tmp_buf` -/
def tmpBuf (ptr : List UInt8) : Option (List UInt8) := if ptr.length < 32 then some ptr else none

/-- Process conversion specifier: what is written, and the arguments behind. The function `wcrtomb`
stores the low byte of a wide character.
Source: posix/vsprintf.c, vcprintf -/
def convert (arch : Arch) (flags : UInt8) (width : ℕ) (length : ℤ) (fmt : UInt8)
    (args : List VaArg) : Option (List UInt8 × List VaArg) :=
  if fmt = 0x63 then do
    let (n, args) ← vaNum args
    if length < longLen then return ([UInt8.ofNat n], args)
    else return ([UInt8.ofNat n].takeWhile (· ≠ 0), args)
  else if fmt = 0x73 then
    if length < longLen then do
      let (s, args) ← vaStr args
      return (s.getD (str "<NULL>"), args)
    else do
      let (s, args) ← vaWstr args
      return ((s.getD []).map fun c => UInt8.ofNat c.toNat, args) -- `ptr` is not NULL
  else if fmt = 0x70 then do
    let (n, args) ← vaNum args
    return (← tmpBuf (formatHex (n % arch.ulong) width (altForm ||| lcase)), args)
  else if fmt &&& ~~~0x20 = 0x58 then do
    let (n, args) ← vaNum args
    let bits := vaBits arch (← typeSize arch length)
    return (← tmpBuf (formatHex (n % 2 ^ bits) width (flags ||| (fmt &&& 0x20))), args)
  else if fmt = 0x64 ∨ fmt = 0x69 then do
    let (n, args) ← vaNum args
    let bits := vaBits arch (← typeSize arch length)
    let decimal := signExtend bits (n % 2 ^ bits)
    return (← tmpBuf (formatDecimal decimal width (flags ||| altForm)), args)
  else if fmt = 0x75 then do
    let (n, args) ← vaNum args
    let bits := vaBits arch (← typeSize arch length)
    return (← tmpBuf (formatDecimal (n % 2 ^ bits) width (flags &&& ~~~altForm)), args)
  else some ([fmt], args)

/-- Process flag characters. -/
def parseFlags (flags : UInt8) : List UInt8 → UInt8 × List UInt8
  | 0x23 :: fmt => parseFlags (flags ||| altForm) fmt
  | 0x30 :: fmt => parseFlags (flags ||| zpad) fmt
  | fmt => (flags, fmt)

/-- Process field width. -/
def parseWidth (width : ℕ) : List UInt8 → ℕ × List UInt8
  | [] => (width, [])
  | c :: fmt =>
      if (c - 0x30).toNat < 10 then parseWidth (width * 10 + (c - 0x30).toNat) fmt
      else (width, c :: fmt)

/-- Process length modifier. -/
def parseLength (length : ℤ) : List UInt8 → ℤ × List UInt8
  | 0x68 :: fmt => parseLength (length - 1) fmt
  | 0x6c :: fmt => parseLength (length + 1) fmt
  | 0x7a :: fmt => parseLength sizeTLen fmt
  | fmt => (length, fmt)

/-- The loop over the format. A conversion that ends with the format is undefined.
Source: posix/vsprintf.c, vcprintf -/
def vcprintfLoop (arch : Arch) : ℕ → List UInt8 → List VaArg → Option (List UInt8)
  | _, [], _ => some []
  | 0, _ :: _, _ => none
  | fuel + 1, c :: fmt, args =>
      if c ≠ 0x25 then (vcprintfLoop arch fuel fmt args).map (c :: ·)
      else
        let (flags, fmt) := parseFlags 0 fmt
        let (width, fmt) := parseWidth 0 fmt
        let (length, fmt) := parseLength intLen fmt
        match fmt with
        | [] => none
        | c :: fmt => do
            let (s, args) ← convert arch flags width length c args
            return s ++ (← vcprintfLoop arch fuel fmt args)

/-- Write a formatted string: its characters.
Source: posix/vsprintf.c, vcprintf -/
def vcprintf (arch : Arch) (fmt : List UInt8) (args : List VaArg) : Option (List UInt8) :=
  vcprintfLoop arch fmt.length fmt args

/-! ## Hexadecimal numbers -/

/-- The digits of a number, in lower case.
Source: none: the standard's `%x` -/
def hexDigits (num : ℕ) : List UInt8 :=
  (Nat.toDigits 16 num).map fun c => UInt8.ofNat c.toNat

/-- The loop puts the digits of the number in front. -/
theorem generateNumber_eq {digit : ℕ → UInt8}
    (hdigit : ∀ i < 16, digit i = UInt8.ofNat (Nat.digitChar i).toNat) {fuel num : ℕ}
    (hfuel : 0 < fuel) (hnum : num < 16 ^ fuel) (ptr : List UInt8) :
    generateNumber 16 digit fuel num ptr = hexDigits num ++ ptr := by
  induction fuel generalizing num ptr with
  | zero => exact absurd hfuel (Nat.lt_irrefl 0)
  | succ fuel ih =>
      have hmod : digit (num % 16) = UInt8.ofNat (Nat.digitChar (num % 16)).toNat :=
        hdigit _ (Nat.mod_lt _ (by norm_num))
      rw [generateNumber, hmod, hexDigits, Nat.toDigits_eq_if (by norm_num)]
      by_cases hlt : num < 16
      · rw [if_pos (Nat.div_eq_of_lt hlt), if_pos hlt, Nat.mod_eq_of_lt hlt]
        rfl
      · have hdiv : num / 16 < 16 ^ fuel :=
          Nat.div_lt_of_lt_mul (by rwa [Nat.mul_comm, ← pow_succ])
        have hpos : 0 < fuel := by
          rcases Nat.eq_zero_or_pos fuel with rfl | hpos
          · exact absurd hdiv (by rw [pow_zero]; omega)
          · exact hpos
        rw [if_neg (by omega), if_neg hlt, ih hpos hdiv, List.map_append, List.append_assoc]
        rfl

/-- A field of lower-case digits with zeros in front is the one of the standard. -/
theorem formatHex_eq {num : ℕ} (hnum : num < 2 ^ 64) (width : ℕ) :
    formatHex num width (zpad ||| lcase) = (hexDigits num).leftpad width 0x30 := by
  have hdigits := @generateNumber_eq
    (fun i => (str "0123456789ABCDEF").getD i 0 ||| ((zpad ||| lcase) &&& lcase)) (by decide) 64 num
    (by norm_num) (hnum.trans (by norm_num)) []
  rw [formatHex, hdigits, List.append_nil, if_neg (by decide)]
  rfl

/-- A number that fits its width has no more digits. -/
theorem hexDigits_length_le {num width : ℕ} (hwidth : 0 < width) (hnum : num < 16 ^ width) :
    (hexDigits num).length ≤ width := by
  rw [hexDigits, List.length_map]
  exact (Nat.length_toDigits_le_iff (by norm_num) hwidth).mpr hnum

/-- The conversion of a number that fits its type and its field. -/
theorem convert_hex {arch : Arch} {width size num : ℕ} {length : ℤ} (hwidth : 0 < width)
    (hwidth32 : width < 32) (hsize : typeSize arch length = some size)
    (hbits : num < 2 ^ vaBits arch size) (hnum : num < 16 ^ width) (hnum64 : num < 2 ^ 64)
    (args : List VaArg) :
    convert arch zpad width length 0x78 (.num num :: args) =
      some ((hexDigits num).leftpad width 0x30, args) := by
  have hflags : zpad ||| (0x78 &&& 0x20) = zpad ||| lcase := rfl
  have hlen : ((hexDigits num).leftpad width 0x30).length < 32 := by
    rw [List.length_leftpad, Nat.max_eq_left (hexDigits_length_le hwidth hnum)]
    exact hwidth32
  have hbuf : tmpBuf ((hexDigits num).leftpad width 0x30) =
      some ((hexDigits num).leftpad width 0x30) := if_pos hlen
  unfold convert
  iterate 3 rw [if_neg (by decide)]
  rw [if_pos (by decide), hsize, hflags]
  show (tmpBuf (formatHex (num % 2 ^ vaBits arch size) width (zpad ||| lcase))).bind
    (fun s => some (s, args)) = _
  rw [Nat.mod_eq_of_lt hbits, formatHex_eq hnum64, hbuf]
  rfl

/-! ## Formats -/

/-- A conversion writes its characters in front of the rest. -/
theorem vcprintfLoop_convert {arch : Arch} {fuel width : ℕ} {flags c : UInt8} {length : ℤ}
    {fmt fmt₁ fmt₂ fmt₃ s : List UInt8} {args args' : List VaArg}
    (hflags : parseFlags 0 fmt = (flags, fmt₁)) (hwidth : parseWidth 0 fmt₁ = (width, fmt₂))
    (hlength : parseLength intLen fmt₂ = (length, c :: fmt₃))
    (h : convert arch flags width length c args = some (s, args')) :
    vcprintfLoop arch (fuel + 1) (0x25 :: fmt) args =
      (vcprintfLoop arch fuel fmt₃ args').map (s ++ ·) := by
  rw [vcprintfLoop, if_neg (by decide), hflags]
  dsimp only
  rw [hwidth]
  dsimp only
  rw [hlength]
  dsimp only
  rw [h]
  show (vcprintfLoop arch fuel fmt₃ args').bind (fun rest => some (s ++ rest)) = _
  exact Option.map_eq_bind.symm

/-- Ordinary characters are passed through. -/
theorem vcprintfLoop_pass {c : UInt8} (hc : c ≠ 0x25) (arch : Arch) (fuel : ℕ) (fmt : List UInt8)
    (args : List VaArg) :
    vcprintfLoop arch (fuel + 1) (c :: fmt) args =
      (vcprintfLoop arch fuel fmt args).map (c :: ·) := by
  rw [vcprintfLoop, if_pos hc]

end Ntloader.Posix
