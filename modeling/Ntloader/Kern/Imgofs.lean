import Ntloader.Kern.Effects

/-!
# Numerals

The value of `imgofs` is read by `strtoul`, which also takes a sign, and a prefix without digits, and
keeps the low bits of a number that is too large.

* `Denotes` — the numerals, with their numbers.
* `strtoul_unsigned` — how a string without a sign is read.
* `storesImgofs_iff` — the values for which exactly the numerals are taken, and stored.
-/

namespace Ntloader.Kern

open Ntloader.Lib Ntloader.Posix

/-! ## The numerals -/

/-- The value of a digit: a decimal digit, or a letter of either case. -/
def digitValue (c : UInt8) : Option ℕ :=
  if 0x30 ≤ c ∧ c ≤ 0x39 then some (c.toNat - 0x30)
  else if 0x41 ≤ c ∧ c ≤ 0x46 then some (c.toNat - 0x41 + 10)
  else if 0x61 ≤ c ∧ c ≤ 0x66 then some (c.toNat - 0x61 + 10)
  else none

/-- The number that digits of a base stand for, behind those of a number. -/
def digitsValue (base : ℕ) : List UInt8 → ℕ → Option ℕ
  | [], n => some n
  | c :: s, n =>
      match digitValue c with
      | none => none
      | some d => if d < base then digitsValue base s (n * base + d) else none

/-- The number of a numeral: decimal, octal with a zero in front, or hexadecimal with a prefix and at
least one digit. -/
inductive Denotes : List UInt8 → ℕ → Prop
  | decimal {c : UInt8} {s : List UInt8} {n : ℕ} : c ≠ 0x30 → digitsValue 10 (c :: s) 0 = some n →
      Denotes (c :: s) n
  | octal {s : List UInt8} {n : ℕ} : digitsValue 8 s 0 = some n → Denotes (0x30 :: s) n
  | hex {x : UInt8} {s : List UInt8} {n : ℕ} : x = 0x78 ∨ x = 0x58 → s ≠ [] →
      digitsValue 16 s 0 = some n → Denotes (0x30 :: x :: s) n

/-- A prefix without a digit. -/
def BarePrefix (s : List UInt8) : Prop := s = str "0x" ∨ s = str "0X"

/-! ## How digits are read -/

/-- A digit is one for base 16 exactly if its value is below 16. -/
theorem digitValue_eq (c : UInt8) :
    digitValue c = if digit c < 16 then some (digit c) else none := by
  have hall : ∀ n : Fin 256, digitValue (UInt8.ofNat n.val) =
      if digit (UInt8.ofNat n.val) < 16 then some (digit (UInt8.ofNat n.val)) else none := by
    decide +kernel
  have h := hall ⟨c.toNat, c.toNat_lt⟩
  rw [UInt8.ofNat_toNat] at h
  exact h

/-- A run of digits is read as its number, in the width of the build. -/
theorem strtoulLoop_of_some (arch : Arch) {base : ℕ} {s : List UInt8} {val n : ℕ}
    (h : digitsValue base s val = some n) :
    strtoulLoop arch base s (val % arch.ulong) = (n % arch.ulong, []) := by
  induction s generalizing val with
  | nil =>
      cases h
      rfl
  | cons c s ih =>
      rw [digitsValue, digitValue_eq] at h
      by_cases hc : digit c < 16
      · rw [if_pos hc] at h
        dsimp only at h
        split_ifs at h with hd
        rw [strtoulLoop, if_neg (by omega), ← ih h]
        congr 1
        rw [Nat.add_mod, Nat.mod_mul_mod, ← Nat.add_mod]
      · rw [if_neg hc] at h
        cases h

/-- A character that is no digit ends the number. -/
theorem strtoulLoop_of_none (arch : Arch) {base : ℕ} (hbase : base ≤ 16) {s : List UInt8} {val : ℕ}
    (h : digitsValue base s val = none) (v : ℕ) : (strtoulLoop arch base s v).2 ≠ [] := by
  induction s generalizing val v with
  | nil => cases h
  | cons c s ih =>
      rw [digitsValue, digitValue_eq] at h
      rw [strtoulLoop]
      by_cases hc : digit c < base
      · rw [if_pos (by omega)] at h
        dsimp only at h
        rw [if_pos hc] at h
        rw [if_neg (by omega)]
        exact ih h _
      · rw [if_pos (by omega)]
        exact List.cons_ne_nil _ _

/-! ## How numbers are read -/

/-- A number without a sign. -/
def readUnsigned (arch : Arch) (s : List UInt8) : ℕ × List UInt8 :=
  strtoulLoop arch (strtoulBase 0 s).1 (strtoulBase 0 s).2 0

/-- What is read to its end: a numeral, a prefix without a digit, or nothing. -/
def Readable (s : List UInt8) : Prop := s = [] ∨ BarePrefix s ∨ ∃ n, Denotes s n

/-- The prefix is found in either case. -/
theorem or_eq_x_iff (x : UInt8) : x ||| 0x20 = 0x78 ↔ x = 0x78 ∨ x = 0x58 := by
  have hall : ∀ n : Fin 256, UInt8.ofNat n.val ||| 0x20 = 0x78 ↔
      UInt8.ofNat n.val = 0x78 ∨ UInt8.ofNat n.val = 0x58 := by
    decide +kernel
  have h := hall ⟨x.toNat, x.toNat_lt⟩
  rw [UInt8.ofNat_toNat] at h
  exact h

/-- Without a zero in front the base is 10. -/
theorem strtoulBase_of_ne {c : UInt8} (h : c ≠ 0x30) (s : List UInt8) :
    strtoulBase 0 (c :: s) = (10, c :: s) := by
  unfold strtoulBase
  split
  · rename_i heq
    exact absurd (List.cons.inj heq).1 h
  · rename_i heq
    exact absurd (List.cons.inj heq).1 h
  · rfl
  · rename_i h₀ _ _
    exact absurd rfl h₀

/-- With one it is 16 or 8. -/
theorem strtoulBase_zero (x : UInt8) (s : List UInt8) :
    strtoulBase 0 (0x30 :: x :: s) = if x = 0x78 ∨ x = 0x58 then (16, s) else (8, x :: s) := by
  show (if x ||| 0x20 = 0x78 then (16, s) else (8, x :: s)) = _
  simp only [or_eq_x_iff]

/-- A numeral is read to its end, as the number it denotes modulo the size of a long. -/
theorem readUnsigned_of_denotes (arch : Arch) {s : List UInt8} {n : ℕ} (h : Denotes s n) :
    readUnsigned arch s = (n % arch.ulong, []) := by
  have hloop {base : ℕ} {s : List UInt8} (hdigits : digitsValue base s 0 = some n) :
      strtoulLoop arch base s 0 = (n % arch.ulong, []) := by
    rw [← strtoulLoop_of_some arch hdigits, Nat.zero_mod]
  rw [readUnsigned]
  cases h with
  | decimal hc hdigits =>
      rw [strtoulBase_of_ne hc]
      exact hloop hdigits
  | @octal s n hdigits =>
      cases s with
      | nil => exact hloop hdigits
      | cons x s =>
          -- a digit is no letter
          have hx : ¬(x = 0x78 ∨ x = 0x58) := by
            rintro (rfl | rfl)
            · cases hdigits
            · cases hdigits
          rw [strtoulBase_zero, if_neg hx]
          exact hloop hdigits
  | hex hx hs hdigits =>
      rw [strtoulBase_zero, if_pos hx]
      exact hloop hdigits

/-- What is read to its end has digits only. -/
theorem exists_digitsValue {arch : Arch} {base : ℕ} (hbase : base ≤ 16) {s : List UInt8}
    (h : (strtoulLoop arch base s 0).2 = []) : ∃ n, digitsValue base s 0 = some n := by
  cases hdigits : digitsValue base s 0 with
  | none => exact absurd h (strtoulLoop_of_none arch hbase hdigits 0)
  | some n => exact ⟨n, rfl⟩

/-- A text is readable exactly if it is read to its end. -/
theorem readable_iff (arch : Arch) (s : List UInt8) :
    Readable s ↔ (readUnsigned arch s).2 = [] := by
  constructor
  · rintro (rfl | (rfl | rfl) | ⟨n, hn⟩)
    · rfl
    · rfl
    · rfl
    · rw [readUnsigned_of_denotes arch hn]
  · intro h
    rw [readUnsigned] at h
    cases s with
    | nil => exact Or.inl rfl
    | cons c s =>
        by_cases hc : c = 0x30
        · subst hc
          cases s with
          | nil => exact Or.inr (Or.inr ⟨0, .octal rfl⟩)
          | cons x s =>
              rw [strtoulBase_zero] at h
              split_ifs at h with hx
              · obtain ⟨n, hn⟩ := exists_digitsValue (by norm_num) h
                by_cases hs : s = []
                · subst hs
                  exact Or.inr (Or.inl (hx.imp (fun hx => by rw [hx]; rfl) fun hx => by
                    rw [hx]
                    rfl))
                · exact Or.inr (Or.inr ⟨n, .hex hx hs hn⟩)
              · obtain ⟨n, hn⟩ := exists_digitsValue (by norm_num) h
                exact Or.inr (Or.inr ⟨n, .octal hn⟩)
        · rw [strtoulBase_of_ne hc] at h
          obtain ⟨n, hn⟩ := exists_digitsValue (by norm_num) h
          exact Or.inr (Or.inr ⟨n, .decimal hc hn⟩)

/-- A sign in front of a number. -/
def IsSign (c : UInt8) : Prop := c = 0x2b ∨ c = 0x2d

/-- No spaces are skipped where there are none. -/
theorem dropWhile_isspace {s : List UInt8} (hs : ∀ c ∈ s, isspace c = false) :
    s.dropWhile isspace = s := by
  cases s with
  | nil => rfl
  | cons c s =>
      rw [List.dropWhile_cons, hs c List.mem_cons_self]
      rfl

/-- A sign is taken off, and any number is read behind it. -/
theorem strtoul_sign (arch : Arch) {c : UInt8} {w : List UInt8}
    (hs : ∀ d ∈ c :: w, isspace d = false) (hc : IsSign c) :
    (strtoul arch (c :: w) 0).2 = [] ↔ Readable w := by
  rw [readable_iff arch, strtoul, dropWhile_isspace hs]
  rcases hc with rfl | rfl
  · rfl
  · rfl

/-- Without a sign, the number is all there is. -/
theorem strtoul_unsigned (arch : Arch) {s : List UInt8} (hs : ∀ d ∈ s, isspace d = false)
    (hsign : ∀ c w, s = c :: w → ¬IsSign c) : strtoul arch s 0 = readUnsigned arch s := by
  have h : strtoulSign s = (false, s) := by
    unfold strtoulSign
    split
    · exact absurd (Or.inl rfl) (hsign _ _ rfl)
    · exact absurd (Or.inr rfl) (hsign _ _ rfl)
    · rfl
  rw [strtoul, dropWhile_isspace hs, h]
  rfl

/-- A sign is no digit. -/
theorem not_denotes_sign {c : UInt8} {w : List UInt8} {n : ℕ} (hc : IsSign c) :
    ¬Denotes (c :: w) n := by
  intro h
  rcases hc with rfl | rfl
  · cases h with
    | decimal _ hdigits => cases hdigits
  · cases h with
    | decimal _ hdigits => cases hdigits

/-- Nothing is no numeral, -/
theorem not_denotes_nil (n : ℕ) : ¬Denotes [] n := by
  intro h
  cases h

/-- nor is a bare prefix. -/
theorem not_denotes_barePrefix {s : List UInt8} {n : ℕ} (hs : BarePrefix s) : ¬Denotes s n := by
  intro h
  rcases hs with rfl | rfl
  · change Denotes [0x30, 0x78] n at h
    cases h with
    | decimal hc _ => exact hc rfl
    | octal hdigits => cases hdigits
    | hex _ hne _ => exact hne rfl
  · change Denotes [0x30, 0x58] n at h
    cases h with
    | decimal hc _ => exact hc rfl
    | octal hdigits => cases hdigits
    | hex _ hne _ => exact hne rfl

/-- A numeral denotes one number. -/
theorem Denotes.unique {s : List UInt8} {n n' : ℕ} (h : Denotes s n) (h' : Denotes s n') :
    n = n' := by
  have hletter {x : UInt8} {s : List UInt8} {n : ℕ} (hx : x = 0x78 ∨ x = 0x58) :
      digitsValue 8 (x :: s) 0 ≠ some n := by
    intro hdigits
    rcases hx with rfl | rfl
    · cases hdigits
    · cases hdigits
  cases h with
  | decimal hc hdigits =>
      cases h' with
      | decimal _ hdigits' => exact Option.some.inj (hdigits.symm.trans hdigits')
      | octal _ => exact absurd rfl hc
      | hex _ _ _ => exact absurd rfl hc
  | octal hdigits =>
      cases h' with
      | decimal hc _ => exact absurd rfl hc
      | octal hdigits' => exact Option.some.inj (hdigits.symm.trans hdigits')
      | hex hx _ _ => exact absurd hdigits (hletter hx)
  | hex hx _ hdigits =>
      cases h' with
      | decimal hc _ => exact absurd rfl hc
      | octal hdigits' => exact absurd hdigits' (hletter hx)
      | hex _ _ hdigits' => exact Option.some.inj (hdigits.symm.trans hdigits')

/-! ## The argument -/

/-- What is taken of a value: a numeral is stored with its number, and all else ends the program. -/
def TakesNumerals (x : Except Die ℕ) (value : List UInt8) : Prop :=
  (∀ n, x = .ok n → Denotes value n) ∧ ∀ n < 2 ^ 64, Denotes value n → ∃ n', x = .ok n'

/-- A value that is a numeral of the width of the build, or is refused. -/
def Regular (arch : Arch) (value : List UInt8) : Prop :=
  (∀ c w, value = c :: w → IsSign c → ¬Readable w) ∧ ¬BarePrefix value ∧
    ∀ n, Denotes value n → n < arch.ulong

section

variable {arch : Arch} {value : List UInt8}

/-- What is not read to its end is refused, as it should be if it is no numeral. -/
theorem takesNumerals_of_end_ne (hend : (strtoul arch value 0).2 ≠ [])
    (hno : ∀ n, ¬Denotes value n) : TakesNumerals (imgofsValue arch value) value := by
  rw [imgofsValue]
  dsimp only
  rw [if_neg hend]
  refine ⟨fun n hn => ?_, fun n _ hn => absurd hn (hno n)⟩
  cases hn

/-- What is read to its end is accepted, which is wrong if it does not denote the result. -/
theorem not_takesNumerals_of_end (hend : (strtoul arch value 0).2 = [])
    (hno : ¬Denotes value (strtoul arch value 0).1) :
    ¬TakesNumerals (imgofsValue arch value) value := by
  rw [imgofsValue]
  dsimp only
  rw [if_pos hend]
  exact fun h => hno (h.1 _ rfl)

/-- No numeral has a sign. -/
theorem takesNumerals_sign {c : UInt8} {w : List UInt8} (hc : IsSign c)
    (hspace : ∀ d ∈ c :: w, isspace d = false) :
    TakesNumerals (imgofsValue arch (c :: w)) (c :: w) ↔ Regular arch (c :: w) := by
  have hbare : ¬BarePrefix (c :: w) := by
    rcases hc with rfl | rfl
    all_goals rintro (h | h) <;> exact absurd (List.cons.inj h).1 (by decide)
  have hend := strtoul_sign arch hspace hc
  by_cases hread : Readable w
  · refine iff_of_false ?_ fun h => h.1 c w rfl hc hread
    exact not_takesNumerals_of_end (hend.mpr hread) (not_denotes_sign hc)
  · refine iff_of_true (takesNumerals_of_end_ne (fun h => hread (hend.mp h)) fun n =>
      not_denotes_sign hc) ⟨fun d v heq _ hv => ?_, hbare, fun n hn => absurd hn
      (not_denotes_sign hc)⟩
    rw [← (List.cons.inj heq).2] at hv
    exact hread hv

/-- A numeral is stored with its number exactly if it fits. -/
theorem takesNumerals_denotes {n : ℕ} (h : Denotes value n)
    (hvalue : strtoul arch value 0 = (n % arch.ulong, [])) :
    TakesNumerals (imgofsValue arch value) value ↔ n < arch.ulong := by
  rw [imgofsValue, hvalue]
  dsimp only
  rw [if_pos rfl]
  constructor
  · intro htakes
    rw [h.unique (htakes.1 _ rfl)]
    exact Nat.mod_lt _ (lt_of_lt_of_le (by norm_num) arch.ulong_ge)
  · intro hlt
    rw [Nat.mod_eq_of_lt hlt]
    refine ⟨fun k hk => ?_, fun k _ _ => ⟨n, rfl⟩⟩
    cases hk
    exact h

/-- **Which texts are taken as numerals**: exactly the regular ones. -/
theorem takesNumerals_iff (hspace : ∀ c ∈ value, isspace c = false) (hne : value ≠ []) :
    TakesNumerals (imgofsValue arch value) value ↔ Regular arch value := by
  by_cases hsign : ∃ c w, value = c :: w ∧ IsSign c
  · obtain ⟨c, w, rfl, hc⟩ := hsign
    exact takesNumerals_sign hc hspace
  · have hno : ∀ c w, value = c :: w → ¬IsSign c := fun c w heq hc => hsign ⟨c, w, heq, hc⟩
    have hvalue := strtoul_unsigned arch hspace hno
    have hreg : Regular arch value ↔ ¬BarePrefix value ∧ ∀ n, Denotes value n → n < arch.ulong :=
      and_iff_right fun c w heq hc => absurd hc (hno c w heq)
    rw [hreg]
    by_cases hread : Readable value
    · have hend := (readable_iff arch value).mp hread
      rw [← hvalue] at hend
      rcases hread with hnil | hbare | ⟨n, hn⟩
      · exact absurd hnil hne
      · exact iff_of_false (not_takesNumerals_of_end hend (not_denotes_barePrefix hbare)) fun h =>
          h.1 hbare
      · rw [readUnsigned_of_denotes arch hn] at hvalue
        rw [takesNumerals_denotes hn hvalue]
        refine ⟨fun hlt => ⟨fun hb => not_denotes_barePrefix hb hn, fun k hk => ?_⟩, fun h => h.2 n hn⟩
        rw [hk.unique hn]
        exact hlt
    · have hend : (strtoul arch value 0).2 ≠ [] := fun h =>
        hread ((readable_iff arch value).mpr (hvalue ▸ h))
      have hnone : ∀ n, ¬Denotes value n := fun n hn => hread (Or.inr (Or.inr ⟨n, hn⟩))
      exact iff_of_true (takesNumerals_of_end_ne hend hnone)
        ⟨fun hb => hread (Or.inr (Or.inl hb)), fun n hn => absurd hn (hnone n)⟩

end

/-! ## The command line -/

/-- The property of the argument `imgofs=value` of a command line: the program ends, or `imgofs` is the
number of the value; and it does not end for a numeral of 64 bits. -/
def StoresImgofs (arch : Arch) (fuel : ℕ) (m : Mem) (cmdline : ℕ) (value : List UInt8) : Prop :=
  (∀ args m', processCmdline arch fuel m .init (some cmdline) = some (.ok (args, m')) →
      Denotes value args.imgofs) ∧
    ∀ n < 2 ^ 64, Denotes value n →
      ∃ args m', processCmdline arch fuel m .init (some cmdline) = some (.ok (args, m'))

/-- What the argument stores, if it has a value. -/
def imgofsArgument (arch : Arch) (value : List UInt8) : Except Die ℕ :=
  (needValue "imgofs" (some value)).bind (imgofsValue arch)

/-- The argument `imgofs=` has this effect. -/
theorem effect_imgofs (arch : Arch) (value : List UInt8) :
    effect arch (splitWord (str "imgofs=" ++ value)).1 (splitWord (str "imgofs=" ++ value)).2 =
      (imgofsArgument arch value).map .imgofs := by
  have hsplit : splitWord (str "imgofs=" ++ value) = (str "imgofs", some value) :=
    splitWord_value (k := str "imgofs") (by decide) value
  rw [hsplit]
  dsimp only
  unfold effect
  iterate 20 rw [if_neg (by decide)]
  rw [if_pos rfl, imgofsArgument]
  cases (needValue "imgofs" (some value)).bind (imgofsValue arch) <;> rfl

/-- So it takes exactly the regular texts. -/
theorem takesNumerals_argument {arch : Arch} {value : List UInt8}
    (hspace : ∀ c ∈ value, isspace c = false) :
    TakesNumerals (imgofsArgument arch value) value ↔ Regular arch value := by
  by_cases hne : value = []
  · subst hne
    refine iff_of_true ⟨fun n hn => ?_, fun n _ hn => absurd hn (not_denotes_nil n)⟩
      ⟨fun c w h => ?_, ?_, fun n hn => absurd hn (not_denotes_nil n)⟩
    · cases hn
    · cases h
    · rintro (h | h)
      · cases h
      · cases h
  · rw [← takesNumerals_iff hspace hne]
    cases value with
    | nil => exact absurd rfl hne
    | cons c s => rfl

/-- No other argument changes the offset. -/
theorem Effect.run_imgofs (e : Effect) (args : NtArgs) :
    (e.run args).imgofs = args.imgofs ∨ e.keys = ["imgofs"] := by
  cases e with
  | imgofs value => exact Or.inr rfl
  | _ => exact Or.inl rfl

/-- The last argument `imgofs` decides what is stored. -/
theorem imgofs_of_foldlM {arch : Arch} {value : List UInt8} {pre post : List (List UInt8)}
    {args args' : NtArgs}
    (h : (pre ++ (str "imgofs=" ++ value) :: post).foldlM (processWord arch) args = .ok args')
    (hlast : ∀ w ∈ post, (splitWord w).1 ≠ str "imgofs") :
    .ok args'.imgofs = imgofsArgument arch value := by
  obtain ⟨e, args₁, he, hfield⟩ := foldlM_last h Effect.run_imgofs
    fun w hw hkey => hlast w hw (List.mem_singleton.mp hkey)
  rw [effect_imgofs] at he
  rw [hfield]
  cases hvalue : imgofsArgument arch value with
  | error d =>
      rw [hvalue] at he
      cases he
  | ok n =>
      rw [hvalue] at he
      cases he
      rfl

/-- **The value of `imgofs` is a numeral and its number is stored**, or the program ends, exactly for
the values that have no sign in front of a number, are no prefix without a digit, and do not exceed
the width of the build. -/
theorem storesImgofs_iff {arch : Arch} {m : Mem} {cmdline fuel : ℕ} {s value : List UInt8}
    {pre post : List (List UInt8)} (hline : m.bytes cmdline (s.length + 1) = s ++ [0])
    (hnul : (0 : UInt8) ∉ s) (hfuel : s.length + 1 < fuel)
    (hwords : words s = pre ++ (str "imgofs=" ++ value) :: post)
    (hothers : ∃ args, (pre ++ post).foldlM (processWord arch) .init = .ok args)
    (hlast : ∀ w ∈ post, (splitWord w).1 ≠ str "imgofs") :
    StoresImgofs arch fuel m cmdline value ↔ Regular arch value := by
  have hspace : ∀ c ∈ value, isspace c = false := fun c hc => (mem_of_words hwords hc).2
  -- what is stored is what the argument gives
  have hstored {args : NtArgs} {m' : Mem}
      (h : processCmdline arch fuel m .init (some cmdline) = some (.ok (args, m'))) :
      imgofsArgument arch value = .ok args.imgofs := by
    obtain ⟨args₁, hfold, hargs, -⟩ := (processCmdline_ok_iff hline hnul hfuel).mp h
    rw [if_neg (ne_nil_of_words hwords)] at hargs
    rw [hwords] at hfold
    rw [← imgofs_of_foldlM hfold hlast, ← hargs]
    rfl
  have hok {n : ℕ} (h : imgofsArgument arch value = .ok n) :
      ∃ args m', processCmdline arch fuel m .init (some cmdline) = some (.ok (args, m')) := by
    have heffect : ∀ w ∈ pre ++ (str "imgofs=" ++ value) :: post,
        ∃ e, effect arch (splitWord w).1 (splitWord w).2 = .ok e := by
      have hall := (foldlM_ok_iff arch (pre ++ post) .init).mp hothers
      intro w hw
      rcases List.mem_append.mp hw with hw | hw
      · exact hall w (List.mem_append_left _ hw)
      · rcases List.mem_cons.mp hw with rfl | hw
        · rw [effect_imgofs, h]
          exact ⟨.imgofs n, rfl⟩
        · exact hall w (List.mem_append_right _ hw)
    obtain ⟨args, hfold⟩ := (foldlM_ok_iff arch _ .init).mpr heffect
    rw [← hwords] at hfold
    exact ⟨_, _, (processCmdline_ok_iff hline hnul hfuel).mpr ⟨args, hfold, rfl, rfl⟩⟩
  rw [← takesNumerals_argument hspace]
  constructor
  · rintro ⟨hden, hlive⟩
    refine ⟨fun n hn => ?_, fun n hlt hn => ?_⟩
    · obtain ⟨args, m', h⟩ := hok hn
      cases hn.symm.trans (hstored h)
      exact hden args m' h
    · obtain ⟨args, m', h⟩ := hlive n hlt hn
      exact ⟨_, hstored h⟩
  · rintro ⟨hden, hlive⟩
    refine ⟨fun args m' h => hden _ (hstored h), fun n hlt hn => ?_⟩
    obtain ⟨n', hn'⟩ := hlive n hlt hn
    exact hok hn'

/-- The command line `imgofs=0x10`. -/
theorem storesImgofs_iff_hex :
    StoresImgofs .i386 20 (Mem.ofList (str "imgofs=0x10" ++ [0])) 0 (str "0x10") ↔
      Regular .i386 (str "0x10") := by
  have hline : (Mem.ofList (str "imgofs=0x10" ++ [0])).bytes 0 ((str "imgofs=0x10").length + 1) =
      str "imgofs=0x10" ++ [0] := by decide
  exact @storesImgofs_iff _ _ _ _ _ _ [] [] hline (by decide) (by decide) (by decide +kernel)
    ⟨.init, rfl⟩ (List.forall_mem_nil _)

/-- A prefix without a digit is taken as zero. -/
theorem not_storesImgofs_prefix :
    ¬∀ (arch : Arch) (m : Mem) (cmdline fuel : ℕ) (s value : List UInt8),
      m.bytes cmdline (s.length + 1) = s ++ [0] → (0 : UInt8) ∉ s → s.length + 1 < fuel →
      words s = [str "imgofs=" ++ value] → StoresImgofs arch fuel m cmdline value := by
  intro h
  have hline : (Mem.ofList (str "imgofs=0x" ++ [0])).bytes 0 ((str "imgofs=0x").length + 1) =
      str "imgofs=0x" ++ [0] := by decide
  have hwords : words (str "imgofs=0x") = [str "imgofs=" ++ str "0x"] := by decide +kernel
  have hrun := @processCmdline_eq .i386 _ _ 20 _ hline (by decide) (by decide) .init
  rw [hwords] at hrun
  have hstores := h .i386 _ 0 20 _ (str "0x") hline (by decide) (by decide) hwords
  exact not_denotes_barePrefix (Or.inl rfl) (hstores.1 _ _ hrun)

end Ntloader.Kern
