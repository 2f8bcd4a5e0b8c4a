import Mathlib.Data.List.TakeWhile
import Ntloader.Cpio.Extract

/-!
# Writing a CPIO archive: the model of `mkinitrd`

* `setField`, `writeHeader`, `copyData` — the parts of a member.
* `mkinitrd` — the archive of a list of files, with its trailer.

Scope: a file is its name, its mode and its contents; that writing and reading succeed is assumed, as
every failure ends the program.
-/

namespace Ntloader.Cpio

open Ntloader.Lib Ntloader.Lib.Mem Ntloader.Posix

/-- A regular file of the directory. -/
structure InFile where
  /-- The name, without its NUL. -/
  name : List UInt8
  /-- `st_mode` -/
  mode : ℕ
  /-- The contents. -/
  contents : List UInt8

/-- Source: utils/mkinitrd.c, ALIGN_UP_OVERHEAD -/
def alignUpOverhead (addr align : ℕ) : ℕ := ((-(addr : ℤ)) % (align : ℤ)).toNat

/-- Source: utils/mkinitrd.c, hex -/
def hex (val : ℕ) : UInt8 := if val < 10 then UInt8.ofNat (0x30 + val) else UInt8.ofNat (0x61 + val - 10)

/-- The eight digits of a field.
Source: utils/mkinitrd.c, set_field -/
def setField (val : ℕ) : List UInt8 :=
  [28, 24, 20, 16, 12, 8, 4, 0].map fun i => hex ((val >>> i) &&& 0xf)

/-- Header, name and padding.
Source: utils/mkinitrd.c, write_header -/
def writeHeader (name : List UInt8) (mode fsize : ℕ) : List UInt8 :=
  let len := (name.length + 1) % 2 ^ 32
  cpioMagic ++ (setField 0 ++ (setField mode ++ (setField 0 ++ (setField 0 ++ (setField 1 ++
    (setField 0 ++ (setField fsize ++ (setField 0 ++ (setField 0 ++ (setField 0 ++ (setField 0 ++
      (setField len ++ (setField 0 ++ ((name ++ [0]).take len ++
        List.replicate (alignUpOverhead (cpioHeaderSize + len) 4) 0))))))))))))))

/-- The loop over the blocks of a file.
Source: utils/mkinitrd.c, copy_data, `while` -/
def copyDataLoop : ℕ → List UInt8 → ℕ → List UInt8
  | 0, _, _ => []
  | fuel + 1, input, remaining =>
      if remaining = 0 then []
      else
        let block := input.take (min remaining 4096)
        if block.length = 0 then []
        else block ++ copyDataLoop fuel (input.drop block.length) (remaining - block.length)

/-- Data and padding.
Source: utils/mkinitrd.c, copy_data -/
def copyData (input : List UInt8) (fsize : ℕ) : List UInt8 :=
  copyDataLoop fsize input fsize ++ List.replicate (alignUpOverhead fsize 4) 0

/-- Source: utils/mkinitrd.c, process_file -/
def processFile (f : InFile) : List UInt8 :=
  let fsize := f.contents.length % 2 ^ 32
  writeHeader f.name f.mode fsize ++ copyData f.contents fsize

/-- The archive.
Source: utils/mkinitrd.c, main -/
def mkinitrd (files : List InFile) : List UInt8 :=
  files.flatMap processFile ++ writeHeader cpioTrailer 0 0

/-- A file of one byte, and one of five bytes in a directory. -/
def twoInFiles : List InFile :=
  [⟨str "a", 0o100644, [0x62]⟩, ⟨str "boot/bcd", 0o100600, [1, 2, 3, 4, 5]⟩]

/-! ## Fields -/

/-- A field has eight characters. -/
@[simp] theorem setField_length (val : ℕ) : (setField val).length = 8 := rfl

/-- A hexadecimal digit is no NUL, -/
theorem hex_ne_zero {d : ℕ} (h : d < 16) : hex d ≠ 0 := by
  interval_cases d <;> decide

/-- it has its value, -/
theorem digit_hex {d : ℕ} (h : d < 16) : digit (hex d) = d := by
  interval_cases d <;> decide

/-- it is no space, -/
theorem not_isspace_hex {d : ℕ} (h : d < 16) : isspace (hex d) = false := by
  interval_cases d <;> decide

/-- and no sign. -/
theorem strtoulSign_hex {d : ℕ} (h : d < 16) (s : List UInt8) :
    strtoulSign (hex d :: s) = (false, hex d :: s) := by
  interval_cases d <;> rfl

/-- Four bits are below 16. -/
theorem shiftRight_and_lt (val i : ℕ) : (val >>> i) &&& 0xf < 16 :=
  lt_of_le_of_lt Nat.and_le_right (by norm_num)

/-- They are a digit in base 16, -/
theorem shiftRight_and (val i : ℕ) : (val >>> i) &&& 0xf = val / 2 ^ i % 16 := by
  rw [Nat.shiftRight_eq_div_pow]
  exact Nat.and_two_pow_sub_one_eq_mod (val / 2 ^ i) 4

/-- also as a character. -/
theorem digit_hex_shiftRight (val i : ℕ) : digit (hex ((val >>> i) &&& 0xf)) = val / 2 ^ i % 16 := by
  rw [digit_hex (shiftRight_and_lt val i), shiftRight_and]

/-- The digits of a number from the first one on. -/
theorem foldl_digits (val n v : ℕ) :
    (List.range n).reverse.foldl (fun v i => v * 16 + val / 16 ^ i % 16) v =
      v * 16 ^ n + val % 16 ^ n := by
  induction n generalizing v with
  | zero =>
      rw [pow_zero, Nat.mod_one, Nat.mul_one, Nat.add_zero]
      rfl
  | succ n ih =>
      rw [List.range_succ, List.reverse_append, List.reverse_singleton, List.singleton_append,
        List.foldl_cons, ih, Nat.mod_pow_succ]
      ring

/-- **The loader reads back a field.** -/
theorem strtoul_setField (arch : Arch) {val : ℕ} (h : val < 2 ^ 32) :
    strtoul arch ((setField val).takeWhile (· ≠ 0)) 16 = (val, []) := by
  have hdigits : ∀ c ∈ setField val, ∃ d < 16, c = hex d := by
    intro c hc
    obtain ⟨i, -, rfl⟩ := List.mem_map.mp hc
    exact ⟨_, shiftRight_and_lt val i, rfl⟩
  have hall : (setField val).takeWhile (· ≠ 0) = setField val := by
    rw [List.takeWhile_eq_self_iff]
    intro c hc
    obtain ⟨d, hd, rfl⟩ := hdigits c hc
    simpa using hex_ne_zero hd
  have hcons : setField val = hex ((val >>> 28) &&& 0xf) ::
      [24, 20, 16, 12, 8, 4, 0].map fun i => hex ((val >>> i) &&& 0xf) := rfl
  have hspace : (setField val).dropWhile isspace = setField val := by
    rw [hcons, List.dropWhile_cons, not_isspace_hex (shiftRight_and_lt val 28)]
    rfl
  have hsign : strtoulSign (setField val) = (false, setField val) := by
    rw [hcons, strtoulSign_hex (shiftRight_and_lt val 28)]
  have hbase : strtoulBase 16 (setField val) = (16, setField val) := rfl
  have hloop := @strtoulLoop_digits arch 16 (setField val) 0 (fun c hc => by
      obtain ⟨d, hd, rfl⟩ := hdigits c hc
      rw [digit_hex hd]
      exact hd) (by norm_num) (le_trans (by rw [setField_length]; norm_num) arch.ulong_ge)
  have hvalue : (setField val).foldl (fun v c => v * 16 + digit c) 0 = val := by
    have hfold := foldl_digits val 8 0
    rw [Nat.zero_mul, Nat.zero_add, Nat.mod_eq_of_lt (show val < 16 ^ 8 from h)] at hfold
    rw [setField, List.foldl_map]
    simp only [digit_hex_shiftRight]
    exact hfold
  rw [strtoul, hall, hspace, hsign]
  dsimp only
  rw [hbase]
  dsimp only
  rw [hloop, hvalue]
  rfl

/-- A field is read back. -/
theorem cpioValue_setField (arch : Arch) {m : Mem} {field val : ℕ}
    (h : m.bytes field 8 = setField val) (hval : val < 2 ^ 32) : cpioValue arch m field = val := by
  rw [cpioValue, h, strtoul_setField arch hval]

/-! ## Padding -/

/-- The writer's padding is the reader's rounding. -/
theorem add_alignUpOverhead (n : ℕ) : n + alignUpOverhead n 4 = (n + 3) / 4 * 4 := by
  rw [alignUpOverhead]
  omega

/-! ## Data -/

/-- The loop copies what it is to copy. -/
theorem copyDataLoop_eq (fuel : ℕ) (input : List UInt8) {remaining : ℕ} (h : remaining ≤ fuel) :
    copyDataLoop fuel input remaining = input.take remaining := by
  induction fuel generalizing input remaining with
  | zero =>
      obtain rfl : remaining = 0 := by omega
      rfl
  | succ fuel ih =>
      rw [copyDataLoop]
      by_cases h₀ : remaining = 0
      · rw [if_pos h₀, h₀, List.take_zero]
      · rw [if_neg h₀]
        dsimp only
        by_cases h₁ : (input.take (min remaining 4096)).length = 0
        · rw [if_pos h₁]
          rw [List.length_take] at h₁
          obtain rfl : input = [] := List.length_eq_zero_iff.mp (by omega)
          rw [List.take_nil]
        · rw [if_neg h₁, List.length_take]
          rw [List.length_take] at h₁
          rw [ih _ (by omega)]
          rcases Nat.lt_or_ge input.length (min remaining 4096) with hlt | hge
          · rw [min_eq_right hlt.le, List.take_of_length_le hlt.le, List.drop_length,
              List.take_nil, List.append_nil, List.take_of_length_le (by omega)]
          · rw [min_eq_left hge, ← List.take_add, Nat.add_sub_cancel' (min_le_left _ _)]

/-- The data of a file that fits the size field. -/
theorem copyData_length (input : List UInt8) :
    copyData input input.length =
      input ++ List.replicate (alignUpOverhead input.length 4) 0 := by
  rw [copyData, copyDataLoop_eq _ _ le_rfl, List.take_length]

end Ntloader.Cpio
