import Ntloader.Posix.Vsprintf

/-!
# Numbers read back

A reader of the fields that `formatHex` and `formatDecimal` write: it passes over the padding, the
sign and the prefix of a hexadecimal number, and evaluates the digits.

* `readHex`, `readDecimal` — the reader.
* `generateNumber_msDigits` — the loop writes the digits of the number.
* `readHex_formatHex` — a hexadecimal field denotes its number.
* `Faithful` — the fields of a number denote it, and the decimal one is as long as it should be.
* `faithful_iff` — this fails for a negative number that fills a field with zeros.
-/

namespace Ntloader.Posix

/-! ## Digits -/

/-- The digits of a number, the most significant one first; zero has one digit.
Source: none: abstract statement -/
def msDigits (base num : ℕ) : List ℕ := if num = 0 then [0] else (Nat.digits base num).reverse

/-- A number below the base is one digit. -/
theorem msDigits_of_lt {base num : ℕ} (h : num < base) : msDigits base num = [num] := by
  unfold msDigits
  by_cases h0 : num = 0
  · rw [if_pos h0, h0]
  · rw [if_neg h0, Nat.digits_of_lt base num h0 h]
    rfl

/-- Any other has its last digit behind those of the rest. -/
theorem msDigits_of_le {base num : ℕ} (hbase : 1 < base) (h : base ≤ num) :
    msDigits base num = msDigits base (num / base) ++ [num % base] := by
  have hpos : 0 < num := (Nat.zero_lt_of_lt hbase).trans_le h
  have hdiv : num / base ≠ 0 := (Nat.div_pos h (Nat.zero_lt_of_lt hbase)).ne'
  unfold msDigits
  rw [if_neg hpos.ne', if_neg hdiv, Nat.digits_def' hbase hpos, List.reverse_cons]

/-- Digits are below the base. -/
theorem lt_of_mem_msDigits {base num d : ℕ} (hbase : 1 < base) (h : d ∈ msDigits base num) :
    d < base := by
  unfold msDigits at h
  split_ifs at h with h0
  · rw [List.mem_singleton.mp h]
    exact Nat.zero_lt_of_lt hbase
  · exact Nat.digits_lt_base hbase (List.mem_reverse.mp h)

/-- Every number has a digit. -/
theorem msDigits_ne_nil (base num : ℕ) : msDigits base num ≠ [] := by
  unfold msDigits
  split_ifs with h0
  · exact List.cons_ne_nil _ _
  · rw [Ne, List.reverse_eq_nil_iff]
    exact Nat.digits_ne_nil_iff_ne_zero.mpr h0

/-- The loop puts the digits of the number in front. -/
theorem generateNumber_msDigits {base : ℕ} (hbase : 1 < base) (digit : ℕ → UInt8) {fuel num : ℕ}
    (hfuel : 0 < fuel) (hnum : num < base ^ fuel) (ptr : List UInt8) :
    generateNumber base digit fuel num ptr = (msDigits base num).map digit ++ ptr := by
  induction fuel generalizing num ptr with
  | zero => exact absurd hfuel (Nat.lt_irrefl 0)
  | succ fuel ih =>
      rw [generateNumber]
      rcases Nat.lt_or_ge num base with hlt | hle
      · rw [if_pos (Nat.div_eq_of_lt hlt), msDigits_of_lt hlt, Nat.mod_eq_of_lt hlt]
        rfl
      · have hdiv : num / base < base ^ fuel :=
          Nat.div_lt_of_lt_mul (by rwa [Nat.mul_comm, ← pow_succ])
        have hquot : 0 < num / base := Nat.div_pos hle (Nat.zero_lt_of_lt hbase)
        have hpos : 0 < fuel := by
          rcases Nat.eq_zero_or_pos fuel with rfl | hpos
          · rw [pow_zero] at hdiv
            exact absurd hdiv (Nat.not_lt.mpr hquot)
          · exact hpos
        rw [if_neg hquot.ne', ih hpos hdiv, msDigits_of_le hbase hle, List.map_append,
          List.append_assoc]
        rfl

/-! ## The reader -/

/-- The value of a digit. -/
def readDigit (c : UInt8) : Option ℕ :=
  if 0x30 ≤ c ∧ c ≤ 0x39 then some (c - 0x30).toNat
  else if 0x61 ≤ c ||| 0x20 ∧ c ||| 0x20 ≤ 0x66 then some ((c ||| 0x20) - 0x57).toNat
  else none

/-- The digits behind a number that has been read. -/
def readDigits (base : ℕ) : ℕ → List UInt8 → Option ℕ
  | acc, [] => some acc
  | acc, c :: s => do
      let d ← readDigit c
      if d < base then readDigits base (acc * base + d) s else none

/-- A number, with at least one digit. -/
def readNumber (base : ℕ) (s : List UInt8) : Option ℕ :=
  if s = [] then none else readDigits base 0 s

/-- A text without the spaces in front. -/
def stripSpaces (s : List UInt8) : List UInt8 := s.dropWhile (· = 0x20)

/-- A text without "0x" or "0X" in front. -/
def stripHex : List UInt8 → List UInt8
  | 0x30 :: x :: s => if x ||| 0x20 = 0x78 then s else 0x30 :: x :: s
  | s => s

/-- The number that a hexadecimal field denotes. -/
def readHex (s : List UInt8) : Option ℕ := readNumber 16 (stripSpaces (stripHex s))

/-- The number that a decimal field denotes. -/
def readDecimal (s : List UInt8) : Option ℤ :=
  match stripSpaces s with
  | 0x2d :: s => (readNumber 10 s).map fun n : ℕ => -(n : ℤ)
  | s => (readNumber 10 s).map fun n : ℕ => (n : ℤ)

/-- Digits of which the characters are read back. -/
theorem readDigits_map {base : ℕ} {digit : ℕ → UInt8}
    (hdigit : ∀ d < base, readDigit (digit d) = some d) {ds : List ℕ} (hds : ∀ d ∈ ds, d < base)
    (acc : ℕ) (s : List UInt8) :
    readDigits base acc (ds.map digit ++ s) =
      readDigits base (ds.foldl (fun acc d => acc * base + d) acc) s := by
  induction ds generalizing acc with
  | nil => rfl
  | cons d ds ih =>
      have hd : d < base := hds d List.mem_cons_self
      show readDigits base acc (digit d :: (ds.map digit ++ s)) = _
      rw [readDigits, hdigit d hd]
      show (if d < base then _ else _) = _
      rw [if_pos hd, ih fun d hd => hds d (List.mem_cons_of_mem _ hd)]
      rfl

/-- The digits of a number evaluate to it. -/
theorem foldl_msDigits {base : ℕ} (hbase : 1 < base) (num : ℕ) :
    (msDigits base num).foldl (fun acc d => acc * base + d) 0 = num := by
  induction num using Nat.strong_induction_on with
  | _ num ih =>
      rcases Nat.lt_or_ge num base with hlt | hle
      · rw [msDigits_of_lt hlt]
        show 0 * base + num = num
        rw [Nat.zero_mul, Nat.zero_add]
      · have hpos : 0 < num := (Nat.zero_lt_of_lt hbase).trans_le hle
        rw [msDigits_of_le hbase hle, List.foldl_append, ih _ (Nat.div_lt_self hpos hbase)]
        exact Nat.div_add_mod' num base

/-- Zeros in front of the digits add nothing. -/
theorem readDigits_zeros {base : ℕ} (hbase : 1 < base) (k : ℕ) (s : List UInt8) :
    readDigits base 0 (List.replicate k 0x30 ++ s) = readDigits base 0 s := by
  have hzero : readDigit 0x30 = some 0 := rfl
  induction k with
  | zero => rfl
  | succ k ih =>
      show readDigits base 0 (0x30 :: (List.replicate k 0x30 ++ s)) = _
      rw [readDigits, hzero]
      show (if 0 < base then readDigits base (0 * base + 0) _ else _) = _
      rw [if_pos (Nat.zero_lt_of_lt hbase), Nat.zero_mul]
      exact ih

/-! ## Fields -/

/-- The characters of digits are no space, no sign and no "x". -/
theorem special_of_readDigit {c : UInt8} {d : ℕ} (h : readDigit c = some d) :
    c ≠ 0x20 ∧ c ≠ 0x2d ∧ c ||| 0x20 ≠ 0x78 := by
  have hall : ∀ n < 256, (readDigit (UInt8.ofNat n)).isSome = true → UInt8.ofNat n ≠ 0x20 ∧
      UInt8.ofNat n ≠ 0x2d ∧ UInt8.ofNat n ||| 0x20 ≠ 0x78 := by decide +kernel
  have hc := hall c.toNat c.toNat_lt
  rw [UInt8.ofNat_toNat, h] at hc
  exact hc rfl

/-- A text without spaces is left, -/
theorem stripSpaces_of_ne {s : List UInt8} (h : ∀ c ∈ s, c ≠ 0x20) : stripSpaces s = s := by
  cases s with
  | nil => rfl
  | cons c s => exact List.dropWhile_cons_of_neg (by simpa using h c List.mem_cons_self)

/-- and spaces in front of it go. -/
theorem stripSpaces_replicate (k : ℕ) (s : List UInt8) :
    stripSpaces (List.replicate k 0x20 ++ s) = stripSpaces s := by
  induction k with
  | zero => rfl
  | succ k ih => exact ih

/-- A text without a prefix is left. -/
theorem stripHex_of_ne {s : List UInt8} (h : ∀ c ∈ s, c ||| 0x20 ≠ 0x78) : stripHex s = s := by
  unfold stripHex
  split
  · next x s =>
      exact if_neg (h x (List.mem_cons_of_mem _ List.mem_cons_self))
  · rfl

section Digits

variable {base : ℕ} {digit : ℕ → UInt8} (hbase : 1 < base)
  (hdigit : ∀ d < base, readDigit (digit d) = some d)

include hbase hdigit

/-- The characters of a number are characters of digits. -/
theorem readDigit_of_mem {num : ℕ} {c : UInt8} (h : c ∈ (msDigits base num).map digit) :
    ∃ d, readDigit c = some d := by
  obtain ⟨d, hd, rfl⟩ := List.mem_map.mp h
  exact ⟨d, hdigit d (lt_of_mem_msDigits hbase hd)⟩

/-- A number behind zeros. -/
theorem readNumber_zeros (num k : ℕ) :
    readNumber base (List.replicate k 0x30 ++ (msDigits base num).map digit) = some num := by
  have hne : List.replicate k 0x30 ++ (msDigits base num).map digit ≠ [] := by
    rw [Ne, List.append_eq_nil_iff, List.map_eq_nil_iff]
    exact fun h => msDigits_ne_nil base num h.2
  have hlt : ∀ d ∈ msDigits base num, d < base := fun d hd => lt_of_mem_msDigits hbase hd
  have hread := readDigits_map hdigit hlt 0 []
  rw [List.append_nil, foldl_msDigits hbase] at hread
  rw [readNumber, if_neg hne, readDigits_zeros hbase, hread]
  rfl

/-- What is behind the spaces of a field: digits, with zeros in front if it is padded with zeros. -/
theorem stripSpaces_leftpad (num width : ℕ) {pad : UInt8} (hpad : pad = 0x20 ∨ pad = 0x30) :
    ∃ k, stripSpaces (((msDigits base num).map digit).leftpad width pad) =
      List.replicate k 0x30 ++ (msDigits base num).map digit := by
  have hne : ∀ c ∈ (msDigits base num).map digit, c ≠ 0x20 := by
    intro c hc
    obtain ⟨d, hd⟩ := readDigit_of_mem hbase hdigit hc
    exact (special_of_readDigit hd).1
  rcases hpad with rfl | rfl
  · refine ⟨0, ?_⟩
    rw [List.leftpad, stripSpaces_replicate]
    exact stripSpaces_of_ne hne
  · refine ⟨_, stripSpaces_of_ne ?_⟩
    intro c hc
    rcases List.mem_append.mp hc with hc | hc
    · rw [List.eq_of_mem_replicate hc]
      exact by decide
    · exact hne c hc

end Digits

/-- The bits of a flag: it is set or not. -/
theorem flag_cases (flags : UInt8) {flag : UInt8} (hflag : flag ∈ [lcase, altForm, zpad]) :
    flags &&& flag = 0 ∨ flags &&& flag = flag := by
  have hall : ∀ flag ∈ [lcase, altForm, zpad], ∀ n < 256,
      UInt8.ofNat n &&& flag = 0 ∨ UInt8.ofNat n &&& flag = flag := by decide +kernel
  have h := hall flag hflag flags.toNat flags.toNat_lt
  rwa [UInt8.ofNat_toNat] at h

/-- The padding is by spaces or by zeros. -/
theorem pad_cases (flags : UInt8) :
    (flags &&& zpad) ||| 0x20 = 0x20 ∨ (flags &&& zpad) ||| 0x20 = 0x30 := by
  have hmem : zpad ∈ [lcase, altForm, zpad] := by simp
  rcases flag_cases flags hmem with h | h
  · exact Or.inl (by rw [h]; rfl)
  · exact Or.inr (by rw [h]; rfl)

/-! ## Hexadecimal fields -/

/-- A hexadecimal field denotes its number. -/
theorem readHex_formatHex {num : ℕ} (hnum : num < 2 ^ 64) (width : ℕ) (flags : UInt8) :
    readHex (formatHex num width flags) = some num := by
  have hdigit : ∀ d < 16,
      readDigit ((str "0123456789ABCDEF").getD d 0 ||| (flags &&& lcase)) = some d := by
    have hmem : lcase ∈ [lcase, altForm, zpad] := by simp
    rcases flag_cases flags hmem with h | h
    · rw [h]
      decide
    · rw [h]
      decide
  have hx : (0x58 ||| (flags &&& lcase)) ||| 0x20 = 0x78 := by
    have hmem : lcase ∈ [lcase, altForm, zpad] := by simp
    rcases flag_cases flags hmem with h | h
    · rw [h]
      rfl
    · rw [h]
      rfl
  have hgen := generateNumber_msDigits (by norm_num)
    (fun i => (str "0123456789ABCDEF").getD i 0 ||| (flags &&& lcase)) (by norm_num : 0 < 64)
    (hnum.trans (by norm_num : 2 ^ 64 < 16 ^ 64)) []
  rw [List.append_nil] at hgen
  obtain ⟨k, hstrip⟩ := stripSpaces_leftpad (by norm_num) hdigit num width (pad_cases flags)
  unfold readHex formatHex
  dsimp only
  rw [hgen]
  by_cases halt : flags &&& altForm ≠ 0
  · rw [if_pos halt, stripHex, if_pos hx, hstrip]
    exact readNumber_zeros (by norm_num) hdigit num k
  · rw [if_neg halt, stripHex_of_ne, hstrip]
    · exact readNumber_zeros (by norm_num) hdigit num k
    · intro c hc
      rcases List.mem_append.mp hc with hc | hc
      · rw [List.eq_of_mem_replicate hc]
        rcases pad_cases flags with h | h
        · rw [h]
          decide
        · rw [h]
          decide
      · obtain ⟨d, hd⟩ := readDigit_of_mem (by norm_num) hdigit hc
        exact (special_of_readDigit hd).2.2

/-! ## Decimal fields -/

/-- The number that is formatted: signed in the alternate form.
Source: posix/vsprintf.c, ALT_FORM -/
def decimalValue (num : ℕ) (flags : UInt8) : ℤ :=
  if flags &&& altForm ≠ 0 ∧ num ≥ 2 ^ 63 then (num : ℤ) - 2 ^ 64 else num

/-- The least length of the text of a number, with its sign. -/
def minLength (value : ℤ) : ℕ := (msDigits 10 value.natAbs).length + if value < 0 then 1 else 0

/-- The fields of a number denote it, and the decimal one has the length of the wider of the field and
the number. -/
structure Faithful (num width : ℕ) (flags : UInt8) : Prop where
  hex : readHex (formatHex num width flags) = some num
  decimal : readDecimal (formatDecimal num width flags) = some (decimalValue num flags)
  length : (formatDecimal num width flags).length = max width (minLength (decimalValue num flags))

/-- The characters of a decimal number. -/
def decimalText (num : ℕ) : List UInt8 :=
  (msDigits 10 num).map fun i => 0x30 + UInt8.ofNat i

/-- A decimal digit is read back. -/
theorem readDigit_decimal : ∀ d < 10, readDigit (0x30 + UInt8.ofNat d) = some d := by decide

/-- A decimal text has as many characters as the number has digits. -/
theorem length_decimalText (num : ℕ) : (decimalText num).length = (msDigits 10 num).length :=
  List.length_map _

/-- A number without a sign is padded. -/
theorem formatDecimal_of_nonneg {num : ℕ} (hnum : num < 2 ^ 64) (width : ℕ) {flags : UInt8}
    (h : ¬(flags &&& altForm ≠ 0 ∧ num ≥ 2 ^ 63)) :
    formatDecimal num width flags =
      (decimalText num).leftpad width ((flags &&& zpad) ||| 0x20) := by
  have hgen := generateNumber_msDigits (by norm_num) (fun i => 0x30 + UInt8.ofNat i)
    (by norm_num : 0 < 64) (hnum.trans (by norm_num : 2 ^ 64 < 10 ^ 64)) []
  rw [List.append_nil] at hgen
  have hsign {p : Prop} : ¬(false = true ∧ p) := fun h => Bool.false_ne_true h.1
  unfold formatDecimal decimalText
  dsimp only
  rw [decide_eq_false h, if_neg Bool.false_ne_true, hgen, if_neg hsign, if_neg hsign]

/-- A negative number has its sign in front, or in the place of the first character. -/
theorem formatDecimal_of_neg {num : ℕ} (width : ℕ) {flags : UInt8}
    (h : flags &&& altForm ≠ 0 ∧ num ≥ 2 ^ 63) :
    formatDecimal num width flags =
      if flags &&& zpad = 0 then (0x2d :: decimalText (2 ^ 64 - num)).leftpad width 0x20
      else 0x2d :: ((decimalText (2 ^ 64 - num)).leftpad width 0x30).tail := by
  have hlt : 2 ^ 64 - num < 10 ^ 64 := (Nat.sub_le _ _).trans_lt (by norm_num)
  have hgen := generateNumber_msDigits (by norm_num) (fun i => 0x30 + UInt8.ofNat i)
    (by norm_num : 0 < 64) hlt []
  rw [List.append_nil] at hgen
  have hmem : zpad ∈ [lcase, altForm, zpad] := by simp
  unfold formatDecimal decimalText
  dsimp only
  rw [decide_eq_true h, if_pos rfl, hgen]
  rcases flag_cases flags hmem with hz | hz
  · have hsign : ¬(true = true ∧ (0 : UInt8) ≠ 0) := fun h => h.2 rfl
    rw [hz, if_neg hsign, if_pos ⟨rfl, rfl⟩, if_pos rfl]
    rfl
  · have hne : zpad ≠ 0 := by decide
    rw [hz, if_pos ⟨rfl, hne⟩, if_neg fun h => hne h.2, if_neg hne]
    rfl

/-- A number without a sign is read back. -/
theorem readDecimal_digits {s : List UInt8} {num k : ℕ}
    (h : stripSpaces s = List.replicate k 0x30 ++ decimalText num) :
    readDecimal s = some (num : ℤ) := by
  have hread := readNumber_zeros (by norm_num) readDigit_decimal num k
  have hnotin : ∀ t, List.replicate k 0x30 ++ decimalText num ≠ 0x2d :: t := by
    intro t heq
    have hc : 0x2d ∈ List.replicate k 0x30 ++ decimalText num := by
      rw [heq]
      exact List.mem_cons_self
    rcases List.mem_append.mp hc with hc | hc
    · exact absurd (List.eq_of_mem_replicate hc) (by decide)
    · obtain ⟨d, hd⟩ := readDigit_of_mem (by norm_num) readDigit_decimal hc
      exact (special_of_readDigit hd).2.1 rfl
  unfold readDecimal
  rw [h]
  split
  · next t heq => exact absurd heq (hnotin t)
  · show (readNumber 10 (List.replicate k 0x30 ++ decimalText num)).map _ = _
    rw [decimalText, hread]
    rfl

/-- A number behind its sign is read back. -/
theorem readDecimal_sign {s : List UInt8} {num k : ℕ}
    (h : stripSpaces s = 0x2d :: (List.replicate k 0x30 ++ decimalText num)) :
    readDecimal s = some (-(num : ℤ)) := by
  have hread := readNumber_zeros (by norm_num) readDigit_decimal num k
  unfold readDecimal
  rw [h]
  show (readNumber 10 (List.replicate k 0x30 ++ decimalText num)).map _ = _
  rw [decimalText, hread]
  rfl

/-! ## Faithful fields -/

section Value

variable {num : ℕ} {flags : UInt8}

/-- A number that is not negative stands for itself, -/
theorem decimalValue_of_nonneg (h : ¬(flags &&& altForm ≠ 0 ∧ num ≥ 2 ^ 63)) :
    decimalValue num flags = (num : ℤ) := if_neg h

/-- and needs its digits. -/
theorem minLength_of_nonneg (h : ¬(flags &&& altForm ≠ 0 ∧ num ≥ 2 ^ 63)) :
    minLength (decimalValue num flags) = (decimalText num).length := by
  have hnonneg : ¬(num : ℤ) < 0 := Int.not_lt.mpr (Int.natCast_nonneg num)
  rw [decimalValue_of_nonneg h, minLength, if_neg hnonneg, Int.natAbs_natCast, length_decimalText]
  rfl

/-- A negative one stands for its distance from 2 ^ 64, -/
theorem decimalValue_of_neg (hnum : num < 2 ^ 64) (h : flags &&& altForm ≠ 0 ∧ num ≥ 2 ^ 63) :
    decimalValue num flags = -((2 ^ 64 - num : ℕ) : ℤ) := by
  rw [decimalValue, if_pos h, Nat.cast_sub hnum.le]
  push_cast
  ring

/-- and needs a sign as well. -/
theorem minLength_of_neg (hnum : num < 2 ^ 64) (h : flags &&& altForm ≠ 0 ∧ num ≥ 2 ^ 63) :
    minLength (decimalValue num flags) = (decimalText (2 ^ 64 - num)).length + 1 := by
  have hpos : 0 < 2 ^ 64 - num := Nat.sub_pos_of_lt hnum
  have hneg : -((2 ^ 64 - num : ℕ) : ℤ) < 0 := Int.neg_neg_of_pos (Int.natCast_pos.mpr hpos)
  rw [decimalValue_of_neg hnum h, minLength, if_pos hneg, Int.natAbs_neg, Int.natAbs_natCast,
    length_decimalText]

end Value

/-- A number without a sign. -/
theorem faithful_of_nonneg {num : ℕ} (hnum : num < 2 ^ 64) (width : ℕ) {flags : UInt8}
    (h : ¬(flags &&& altForm ≠ 0 ∧ num ≥ 2 ^ 63)) : Faithful num width flags where
  hex := readHex_formatHex hnum width flags
  decimal := by
    obtain ⟨k, hstrip⟩ :=
      stripSpaces_leftpad (by norm_num) readDigit_decimal num width (pad_cases flags)
    rw [formatDecimal_of_nonneg hnum width h, decimalValue_of_nonneg h]
    exact readDecimal_digits hstrip
  length := by
    rw [formatDecimal_of_nonneg hnum width h, minLength_of_nonneg h, List.length_leftpad]

/-- A negative number behind spaces. -/
theorem faithful_of_spaces {num : ℕ} (hnum : num < 2 ^ 64) (width : ℕ) {flags : UInt8}
    (h : flags &&& altForm ≠ 0 ∧ num ≥ 2 ^ 63) (hz : flags &&& zpad = 0) :
    Faithful num width flags where
  hex := readHex_formatHex hnum width flags
  decimal := by
    have hstrip : stripSpaces ((0x2d :: decimalText (2 ^ 64 - num)).leftpad width 0x20) =
        0x2d :: (List.replicate 0 0x30 ++ decimalText (2 ^ 64 - num)) :=
      stripSpaces_replicate _ _
    rw [formatDecimal_of_neg width h, if_pos hz, decimalValue_of_neg hnum h]
    exact readDecimal_sign hstrip
  length := by
    rw [formatDecimal_of_neg width h, if_pos hz, minLength_of_neg hnum h, List.length_leftpad]
    rfl

/-- A negative number with a zero in front, which its sign takes the place of. -/
theorem faithful_of_zeros {num width : ℕ} (hnum : num < 2 ^ 64) {flags : UInt8}
    (h : flags &&& altForm ≠ 0 ∧ num ≥ 2 ^ 63) (hz : flags &&& zpad ≠ 0)
    (hwidth : (decimalText (2 ^ 64 - num)).length < width) : Faithful num width flags := by
  obtain ⟨k, rfl⟩ := Nat.exists_eq_add_of_lt hwidth
  have hpad : (decimalText (2 ^ 64 - num)).leftpad
      ((decimalText (2 ^ 64 - num)).length + k + 1) 0x30 =
        0x30 :: (List.replicate k 0x30 ++ decimalText (2 ^ 64 - num)) := by
    rw [List.leftpad, Nat.add_assoc, Nat.add_sub_cancel_left]
    rfl
  have htext : formatDecimal num ((decimalText (2 ^ 64 - num)).length + k + 1) flags =
      0x2d :: (List.replicate k 0x30 ++ decimalText (2 ^ 64 - num)) := by
    rw [formatDecimal_of_neg _ h, if_neg hz, hpad]
    rfl
  refine ⟨readHex_formatHex hnum _ flags, ?_, ?_⟩
  · rw [htext, decimalValue_of_neg hnum h]
    exact readDecimal_sign rfl
  · rw [htext, minLength_of_neg hnum h, List.length_cons, List.length_append, List.length_replicate]
    omega

/-- A negative number that fills its field with zeros loses its first digit: its text is too short. -/
theorem length_of_full {num width : ℕ} {flags : UInt8} (h : flags &&& altForm ≠ 0 ∧ num ≥ 2 ^ 63)
    (hz : flags &&& zpad ≠ 0) (hwidth : width ≤ (decimalText (2 ^ 64 - num)).length) :
    (formatDecimal num width flags).length = (decimalText (2 ^ 64 - num)).length := by
  have hne : decimalText (2 ^ 64 - num) ≠ [] := by
    rw [decimalText, Ne, List.map_eq_nil_iff]
    exact msDigits_ne_nil _ _
  rw [formatDecimal_of_neg _ h, if_neg hz, List.leftpad, Nat.sub_eq_zero_of_le hwidth]
  show (decimalText (2 ^ 64 - num)).tail.length + 1 = _
  rw [List.length_tail, Nat.sub_add_cancel (List.length_pos_iff.mpr hne)]

/-- The fields are faithful but for a negative number that is padded with zeros and whose digits fill
the field. -/
theorem faithful_iff {num : ℕ} (hnum : num < 2 ^ 64) (width : ℕ) (flags : UInt8) :
    Faithful num width flags ↔
      ¬((flags &&& altForm ≠ 0 ∧ num ≥ 2 ^ 63) ∧ flags &&& zpad ≠ 0 ∧
        width ≤ (msDigits 10 (2 ^ 64 - num)).length) := by
  rw [← length_decimalText]
  constructor
  · rintro hfaithful ⟨h, hz, hwidth⟩
    have hlen := hfaithful.length
    rw [length_of_full h hz hwidth, minLength_of_neg hnum h] at hlen
    omega
  · intro hcond
    by_cases h : flags &&& altForm ≠ 0 ∧ num ≥ 2 ^ 63
    · by_cases hz : flags &&& zpad = 0
      · exact faithful_of_spaces hnum width h hz
      · exact faithful_of_zeros hnum h hz (Nat.not_le.mp fun hwidth => hcond ⟨h, hz, hwidth⟩)
    · exact faithful_of_nonneg hnum width h

/-- The number -5 in two characters, padded by zeros. -/
theorem faithful_iff_five :
    Faithful (2 ^ 64 - 5) 2 (altForm ||| zpad) ↔
      ¬((((altForm ||| zpad) &&& altForm ≠ 0 ∧ 2 ^ 64 - 5 ≥ 2 ^ 63) ∧
        (altForm ||| zpad) &&& zpad ≠ 0 ∧ 2 ≤ (msDigits 10 (2 ^ 64 - (2 ^ 64 - 5))).length)) :=
  faithful_iff (by norm_num) 2 (altForm ||| zpad)

/-- The number -15 in two columns with zeros is written as -5. -/
theorem not_faithful_fifteen :
    ¬∀ num < 2 ^ 64, ∀ width ≤ 24, ∀ flags, Faithful num width flags := by
  intro h
  have hdecimal := (h (2 ^ 64 - 15) (by norm_num) 2 (by norm_num) (altForm ||| zpad)).decimal
  have htext : formatDecimal (2 ^ 64 - 15) 2 (altForm ||| zpad) = [0x2d, 0x35] := by decide +kernel
  rw [htext] at hdecimal
  exact absurd hdecimal (by decide)

end Ntloader.Posix
