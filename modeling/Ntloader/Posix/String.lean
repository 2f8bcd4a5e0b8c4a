import Ntloader.Arch
import Ntloader.Lib.Memory

/-!
# String functions

A C string is the list of its characters in front of the NUL. A `char` is signed, so a character
from 0x80 on is a negative number, where that matters.

* `isspace`, `strtoul`, `strcmp`, `strcasecmp`, `strrchr` — posix/string.c.
* `strtoulLoop_digits` — the value of a run of digits.
* `cstr` — the string that starts at an address (`cstr_eq`).
-/

namespace Ntloader.Posix

open Ntloader.Lib

/-- Check to see if character is a space.
Source: posix/string.c, isspace -/
def isspace (c : UInt8) : Bool :=
  c = 0x20 || c = 0x0c || c = 0x0a || c = 0x0d || c = 0x09 || c = 0x0b

/-- The value of a character as a digit, an `unsigned int`. A negative character is extended to its
width first.
Source: posix/string.c, strtoul, `Parse digits` -/
def digit (c : UInt8) : ℕ :=
  let digit := if c < 0x80 then c.toNat else 2 ^ 32 - 256 + c.toNat
  if digit ≥ 0x61 then digit - 0x61 + 10
  else if digit ≥ 0x41 then digit - 0x41 + 10
  else if digit ≤ 0x39 then (digit + 2 ^ 32 - 0x30) % 2 ^ 32
  else digit

/-- The loop over the digits; the NUL is no digit in any base.
Source: posix/string.c, strtoul, `Parse digits` -/
def strtoulLoop (arch : Arch) (base : ℕ) : List UInt8 → ℕ → ℕ × List UInt8
  | [], val => (val, [])
  | c :: s, val =>
      if digit c ≥ base then (val, c :: s)
      else strtoulLoop arch base s ((val * base + digit c) % arch.ulong)

/-- Parse sign, if present. -/
def strtoulSign : List UInt8 → Bool × List UInt8
  | 0x2b :: s => (false, s)
  | 0x2d :: s => (true, s)
  | s => (false, s)

/-- Parse base: with base 0, a leading `0` marks an octal and `0x` a hexadecimal number. -/
def strtoulBase : ℕ → List UInt8 → ℕ × List UInt8
  | 0, 0x30 :: c :: s => if c ||| 0x20 = 0x78 then (16, s) else (8, c :: s)
  | 0, [0x30] => (8, [])
  | 0, s => (10, s)
  | base, s => (base, s)

/-- Convert a string to an unsigned integer: its value and what is behind the end marker.
Source: posix/string.c, strtoul -/
def strtoul (arch : Arch) (s : List UInt8) (base : ℕ) : ℕ × List UInt8 :=
  let (negate, s) := strtoulSign (s.dropWhile isspace)
  let (base, s) := strtoulBase base s
  let (val, s) := strtoulLoop arch base s 0
  (if negate then (arch.ulong - val) % arch.ulong else val, s)

/-- Compare the string at an address with one that is given: whether they are equal, and how many
bytes of memory were read.
Source: posix/string.c, strcmp -/
def strcmp (m : Mem) : ℕ → List UInt8 → Bool × ℕ
  | a, [] => (m a = 0, 1)
  | a, c :: s => if m a = c then ((strcmp m (a + 1) s).1, (strcmp m (a + 1) s).2 + 1) else (false, 1)

/-- The characters of a string of the source.
Source: none: a literal -/
def str (s : String) : List UInt8 := s.toUTF8.data.toList

/-- Source: include/ctype.h, toupper -/
def toupper (c : UInt8) : UInt8 := if 0x61 ≤ c ∧ c ≤ 0x7a then c - 0x20 else c

/-- Compare two strings, case-insensitively: whether they are equal. The loop ends at the NUL of
the first one or at a difference.
Source: posix/string.c, strcasecmp -/
def strcasecmp : List UInt8 → List UInt8 → Bool
  | [], [] => true
  | [], _ :: _ => false
  | _ :: _, [] => false
  | c₁ :: str1, c₂ :: str2 => toupper c₁ = toupper c₂ && strcasecmp str1 str2

/-- Find character in string reversely: the string from its last occurrence on.
Source: posix/string.c, strrchr -/
def strrchr (c : UInt8) : List UInt8 → Option (List UInt8)
  | [] => none
  | d :: s => (strrchr c s).or (if d = c then some (d :: s) else none)

/-- The string at an address; `none` if no NUL comes within the given number of bytes.
Source: none: what a `char *` stands for -/
def cstr (m : Mem) : ℕ → ℕ → Option (List UInt8)
  | 0, _ => none
  | fuel + 1, a => if m a = 0 then some [] else (cstr m fuel (a + 1)).map (m a :: ·)

/-- Whitespace is ASCII. -/
theorem isspace_lt {c : UInt8} (h : isspace c = true) : c.toNat < 0x80 := by
  simp only [isspace, Bool.or_eq_true, decide_eq_true_eq] at h
  rcases h with ((((rfl | rfl) | rfl) | rfl) | rfl) | rfl <;> decide

/-! ## Numbers -/

/-- A run of digits that fits is its value in the base. -/
theorem strtoulLoop_digits (arch : Arch) {base : ℕ} (s : List UInt8) {val : ℕ}
    (hs : ∀ c ∈ s, digit c < base) (hbase : 0 < base)
    (hlt : (val + 1) * base ^ s.length ≤ arch.ulong) :
    strtoulLoop arch base s val = (s.foldl (fun v c => v * base + digit c) val, []) := by
  induction s generalizing val with
  | nil => rfl
  | cons c s ih =>
      have hc := hs c List.mem_cons_self
      have hstep : (val * base + digit c + 1) * base ^ s.length ≤ arch.ulong := by
        refine le_trans ?_ hlt
        rw [List.length_cons, pow_succ']
        calc (val * base + digit c + 1) * base ^ s.length
            ≤ ((val + 1) * base) * base ^ s.length := Nat.mul_le_mul_right _ (by nlinarith)
          _ = (val + 1) * (base * base ^ s.length) := Nat.mul_assoc _ _ _
      have hmod : val * base + digit c < arch.ulong := by
        have hpow := Nat.pow_pos hbase (n := s.length)
        nlinarith
      rw [strtoulLoop, if_neg (by omega), Nat.mod_eq_of_lt hmod,
        ih (fun d hd => hs d (List.mem_cons_of_mem _ hd)) hstep, List.foldl_cons]

/-! ## Strings in memory -/

/-- The bytes up to a NUL are the string at their address. -/
theorem cstr_eq {m : Mem} {a fuel : ℕ} {s : List UInt8} (h : m.bytes a (s.length + 1) = s ++ [0])
    (hs : (0 : UInt8) ∉ s) (hfuel : s.length < fuel) : cstr m fuel a = some s := by
  induction s generalizing a fuel with
  | nil =>
      obtain ⟨fuel, rfl⟩ : ∃ k, fuel = k + 1 := ⟨fuel - 1, by simp only [List.length_nil] at hfuel; omega⟩
      rw [List.length_nil, Mem.bytes_succ, List.nil_append, List.cons.injEq] at h
      rw [cstr, if_pos h.1]
  | cons c s ih =>
      obtain ⟨fuel, rfl⟩ : ∃ k, fuel = k + 1 := ⟨fuel - 1, by omega⟩
      rw [List.length_cons, Mem.bytes_succ, List.cons_append, List.cons.injEq] at h
      rw [List.mem_cons, not_or] at hs
      rw [List.length_cons] at hfuel
      rw [cstr, h.1, if_neg (Ne.symm hs.1), ih h.2 hs.2 (by omega), Option.map_some]

/-- Strings are equal if the memory holds the one, and its NUL, where the other is. -/
theorem strcmp_fst (m : Mem) (a : ℕ) (s : List UInt8) :
    (strcmp m a s).1 = true ↔ m.bytes a (s.length + 1) = s ++ [0] := by
  induction s generalizing a with
  | nil => simp [strcmp, Mem.bytes]
  | cons c s ih =>
      rw [strcmp, List.length_cons, Mem.bytes_succ, List.cons_append, List.cons.injEq, ← ih]
      by_cases hc : m a = c
      · rw [if_pos hc, and_iff_right hc]
      · rw [if_neg hc]
        simp [hc]

/-- The comparison does not read past a NUL. -/
theorem strcmp_snd_le (m : Mem) {a k : ℕ} (s : List UInt8) (hs : (0 : UInt8) ∉ s)
    (hk : m (a + k) = 0) : (strcmp m a s).2 ≤ k + 1 := by
  induction s generalizing a k with
  | nil => exact Nat.succ_le_succ (Nat.zero_le k)
  | cons c s ih =>
      rw [List.mem_cons, not_or] at hs
      rw [strcmp]
      split_ifs with hc
      · cases k with
        | zero =>
            rw [Nat.add_zero] at hk
            exact absurd (hk.symm.trans hc) hs.1
        | succ k =>
            have := ih hs.2 (a := a + 1) (k := k) (by rw [Nat.add_right_comm]; exact hk)
            exact Nat.succ_le_succ this
      · exact Nat.succ_le_succ (Nat.zero_le k)

end Ntloader.Posix
