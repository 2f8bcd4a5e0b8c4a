import Mathlib.Tactic

/-!
# Character sets

UCS-2 is a sequence of 16-bit units; its UTF-8 form has one to three bytes for each of them.

* `utf8ToUcs2`, `ucs2ToUtf8` — libnt/charset.c.
* `utf8` — the UTF-8 form of units.
* `utf8ToUcs2_utf8` — the conversions are inverse to each other on units that are no surrogates.
-/

namespace Ntloader.Charset

/-! ## The conversions -/

/-- Source: libnt/charset.c, is_utf8_trailing_octet -/
def isUtf8TrailingOctet (c : UInt8) : Bool := c ≥ 0x80 ∧ c ≤ 0xbf

/-- Convert UTF-8 to UCS-2: the units that are written. The source ends at a NUL.
Source: libnt/charset.c, utf8_to_ucs2 -/
def utf8ToUcs2 : ℕ → List UInt8 → List UInt16
  | 0, _ => []
  | _ + 1, [] => []
  | destsize + 1, c :: src =>
      let c₁ := src.headD 0
      let c₂ := src.tail.headD 0
      if c = 0 then []
      else if c ≤ 0x7f then (0x7f &&& c.toUInt16) :: utf8ToUcs2 destsize src
      else if c ≤ 0xdf ∧ isUtf8TrailingOctet c₁ then
        (((0x1f &&& c.toUInt16) <<< 6) ||| (0x3f &&& c₁.toUInt16)) ::
          utf8ToUcs2 destsize src.tail
      else if c ≤ 0xef ∧ isUtf8TrailingOctet c₁ ∧ isUtf8TrailingOctet c₂ then
        (((0x0f &&& c.toUInt16) <<< 12) ||| ((0x3f &&& c₁.toUInt16) <<< 6) |||
          (0x3f &&& c₂.toUInt16)) :: utf8ToUcs2 destsize src.tail.tail
      else [0]

/-- Convert UCS-2 to UTF-8: the bytes that are written. A surrogate ends the conversion with a NUL.
Source: libnt/charset.c, ucs2_to_utf8 -/
def ucs2ToUtf8 : List UInt16 → List UInt8
  | [] => []
  | u :: src =>
      if u ≤ 0x007f then u.toUInt8 :: ucs2ToUtf8 src
      else if u ≤ 0x07ff then
        ((u >>> 6) ||| 0xc0).toUInt8 :: ((u &&& 0x3f) ||| 0x80).toUInt8 :: ucs2ToUtf8 src
      else if u ≥ 0xd800 ∧ u ≤ 0xdfff then [0]
      else
        ((u >>> 12) ||| 0xe0).toUInt8 :: (((u >>> 6) &&& 0x3f) ||| 0x80).toUInt8 ::
          ((u &&& 0x3f) ||| 0x80).toUInt8 :: ucs2ToUtf8 src

/-! ## The UTF-8 form -/

/-- A unit that stands for no character. -/
def isSurrogate (u : UInt16) : Bool := 0xd800 ≤ u ∧ u ≤ 0xdfff

/-- The bytes of a unit: seven bits, five and six, or four, six and six. -/
def utf8Unit (u : UInt16) : List UInt8 :=
  if u.toNat < 0x80 then [UInt8.ofNat u.toNat]
  else if u.toNat < 0x800 then
    [UInt8.ofNat (0xc0 + u.toNat / 64), UInt8.ofNat (0x80 + u.toNat % 64)]
  else
    [UInt8.ofNat (0xe0 + u.toNat / 4096), UInt8.ofNat (0x80 + u.toNat / 64 % 64),
      UInt8.ofNat (0x80 + u.toNat % 64)]

/-- The UTF-8 form. -/
def utf8 (us : List UInt16) : List UInt8 := us.flatMap utf8Unit

/-- Equation lemma: no units. -/
@[simp] theorem utf8_nil : utf8 [] = [] := rfl

/-- Equation lemma: the first unit and the others. -/
@[simp] theorem utf8_cons (u : UInt16) (us : List UInt16) :
    utf8 (u :: us) = utf8Unit u ++ utf8 us := rfl

/-- Texts one behind the other. -/
@[simp] theorem utf8_append (us vs : List UInt16) : utf8 (us ++ vs) = utf8 us ++ utf8 vs :=
  List.flatMap_append

/-- Bits below others are added to them. -/
theorem or_of_lt {k a : ℕ} (b : ℕ) (h : a < 2 ^ k) : a ||| 2 ^ k * b = 2 ^ k * b + a := by
  rw [Nat.or_comm, Nat.two_pow_add_eq_or_of_lt h]

/-- The mark of a first byte of two, in arithmetic. -/
theorem or_c0 {a : ℕ} (h : a < 64) : a ||| 0xc0 = 0xc0 + a := or_of_lt (k := 6) 3 h

/-- The mark of a first byte of three. -/
theorem or_e0 {a : ℕ} (h : a < 32) : a ||| 0xe0 = 0xe0 + a := or_of_lt (k := 5) 7 h

/-- The mark of a byte that follows. -/
theorem or_80 {a : ℕ} (h : a < 128) : a ||| 0x80 = 0x80 + a := or_of_lt (k := 7) 1 h

/-- The low six bits, as a remainder. -/
theorem and_3f (a : ℕ) : a &&& 0x3f = a % 64 := Nat.and_two_pow_sub_one_eq_mod a 6

/-- The first byte of two. -/
theorem toUInt8_lead2 {u : UInt16} (h : u.toNat < 0x800) :
    ((u >>> 6) ||| 0xc0).toUInt8 = UInt8.ofNat (0xc0 + u.toNat / 64) := by
  apply UInt8.toNat_inj.mp
  have hshift : (u >>> 6).toNat = u.toNat / 64 := by
    rw [UInt16.toNat_shiftRight, Nat.shiftRight_eq_div_pow]
    rfl
  rw [UInt16.toNat_toUInt8, UInt16.toNat_or, hshift, UInt8.toNat_ofNat']
  rw [show (0xc0 : UInt16).toNat = 0xc0 from rfl, or_c0 (by omega)]

/-- The first byte of three. -/
theorem toUInt8_lead3 (u : UInt16) :
    ((u >>> 12) ||| 0xe0).toUInt8 = UInt8.ofNat (0xe0 + u.toNat / 4096) := by
  apply UInt8.toNat_inj.mp
  have hshift : (u >>> 12).toNat = u.toNat / 4096 := by
    rw [UInt16.toNat_shiftRight, Nat.shiftRight_eq_div_pow]
    rfl
  have hu := u.toNat_lt
  rw [UInt16.toNat_toUInt8, UInt16.toNat_or, hshift, UInt8.toNat_ofNat']
  rw [show (0xe0 : UInt16).toNat = 0xe0 from rfl, or_e0 (by omega)]

/-- A byte that follows. -/
theorem toUInt8_trail (u : UInt16) :
    ((u &&& 0x3f) ||| 0x80).toUInt8 = UInt8.ofNat (0x80 + u.toNat % 64) := by
  apply UInt8.toNat_inj.mp
  rw [UInt16.toNat_toUInt8, UInt16.toNat_or, UInt16.toNat_and, UInt8.toNat_ofNat']
  rw [show (0x3f : UInt16).toNat = 0x3f from rfl, show (0x80 : UInt16).toNat = 0x80 from rfl, and_3f,
    or_80 (by omega)]

/-- What is written of a unit that is no surrogate is its UTF-8 form. -/
theorem ucs2ToUtf8_cons {u : UInt16} (h : isSurrogate u = false) (src : List UInt16) :
    ucs2ToUtf8 (u :: src) = utf8Unit u ++ ucs2ToUtf8 src := by
  have hsur : ¬(u ≥ 0xd800 ∧ u ≤ 0xdfff) := by
    simpa only [isSurrogate, decide_eq_false_iff_not] using h
  have h7f : u ≤ 0x007f ↔ u.toNat < 0x80 := by
    rw [UInt16.le_iff_toNat_le]
    exact Nat.lt_succ_iff.symm
  have h7ff : u ≤ 0x07ff ↔ u.toNat < 0x800 := by
    rw [UInt16.le_iff_toNat_le]
    exact Nat.lt_succ_iff.symm
  rw [ucs2ToUtf8, utf8Unit]
  simp only [h7f, h7ff, if_neg hsur]
  split_ifs with h₁ h₂
  · rw [List.cons_append, List.nil_append, ← UInt16.toUInt8_ofNat', UInt16.ofNat_toNat]
  · rw [toUInt8_lead2 h₂, toUInt8_trail]
    rfl
  · have hshift : (u >>> 6).toNat = u.toNat / 64 := by
      rw [UInt16.toNat_shiftRight, Nat.shiftRight_eq_div_pow]
      rfl
    rw [toUInt8_lead3, toUInt8_trail, toUInt8_trail, hshift]
    rfl

/-- The bytes that are written are the UTF-8 form of the units. -/
theorem ucs2ToUtf8_append {us : List UInt16} (h : ∀ u ∈ us, isSurrogate u = false)
    (src : List UInt16) : ucs2ToUtf8 (us ++ src) = utf8 us ++ ucs2ToUtf8 src := by
  induction us with
  | nil => rfl
  | cons u us ih =>
      rw [List.cons_append, ucs2ToUtf8_cons (h u List.mem_cons_self), utf8_cons, List.append_assoc,
        ih fun v hv => h v (List.mem_cons_of_mem _ hv)]

/-! ## Back to units -/

/-- A number of one byte is read back, -/
theorem toNat_ofNat {n : ℕ} (h : n < 256) : (UInt8.ofNat n).toNat = n := by
  rw [UInt8.toNat_ofNat', Nat.mod_eq_of_lt h]

/-- and compared as a number. -/
theorem ofNat_le {n : ℕ} (h : n < 256) (c : UInt8) : UInt8.ofNat n ≤ c ↔ n ≤ c.toNat := by
  rw [UInt8.le_iff_toNat_le, toNat_ofNat h]

/-- Six bits make a trailing octet. -/
theorem isUtf8TrailingOctet_ofNat {a : ℕ} (h : a < 64) :
    isUtf8TrailingOctet (UInt8.ofNat (0x80 + a)) = true := by
  have hge : UInt8.ofNat (0x80 + a) ≥ 0x80 := by
    rw [ge_iff_le, UInt8.le_iff_toNat_le, toNat_ofNat (by omega)]
    exact Nat.le_add_right _ _
  have hle : UInt8.ofNat (0x80 + a) ≤ 0xbf := by
    rw [ofNat_le (by omega), show (0xbf : UInt8).toNat = 0xbf from rfl]
    omega
  simp only [isUtf8TrailingOctet, hge, hle, and_self, decide_true]

/-- The low bits of a byte that are kept by a mask. -/
theorem mask_toNat (k : ℕ) {n : ℕ} {mask : UInt16} (hn : n < 256) (hm : mask.toNat = 2 ^ k - 1) :
    (mask &&& (UInt8.ofNat n).toUInt16).toNat = n % 2 ^ k := by
  rw [UInt16.toNat_and, UInt8.toNat_toUInt16, toNat_ofNat hn, hm, Nat.and_comm,
    Nat.and_two_pow_sub_one_eq_mod]

/-- Bits that are joined behind others. -/
theorem shiftLeft_or {k q r : ℕ} (hr : r < 2 ^ k) (hq : 2 ^ k * q < 2 ^ 16) :
    q <<< k % 2 ^ 16 ||| r = 2 ^ k * q + r := by
  rw [Nat.shiftLeft_eq, Nat.mul_comm, Nat.mod_eq_of_lt hq, Nat.two_pow_add_eq_or_of_lt hr]

/-- The UTF-8 form of a unit that is not NUL is read back as the unit. -/
theorem utf8ToUcs2_cons {u : UInt16} (h : u ≠ 0) (destsize : ℕ) (s : List UInt8) :
    utf8ToUcs2 (destsize + 1) (utf8Unit u ++ s) = u :: utf8ToUcs2 destsize s := by
  have hlt := u.toNat_lt
  have hu0 : u.toNat ≠ 0 := fun h0 => h (UInt16.toNat_inj.mp h0)
  have hne : ∀ n, n < 256 → n ≠ 0 → UInt8.ofNat n ≠ 0 := fun n hn h0 hz => by
    rw [← UInt8.toNat_inj, toNat_ofNat hn] at hz
    exact h0 hz
  rw [utf8Unit]
  split_ifs with h₁ h₂
  · rw [List.cons_append, List.nil_append, utf8ToUcs2, if_neg (hne _ (by omega) hu0), if_pos]
    · congr 1
      apply UInt16.toNat_inj.mp
      rw [mask_toNat 7 (by omega) rfl]
      omega
    · rw [ofNat_le (by omega), show (0x7f : UInt8).toNat = 0x7f from rfl]
      omega
  · rw [List.cons_append, List.cons_append, List.nil_append, utf8ToUcs2, if_neg (hne _ (by omega) (by omega)),
      if_neg, List.headD_cons, if_pos, List.tail_cons]
    · congr 1
      apply UInt16.toNat_inj.mp
      rw [UInt16.toNat_or, UInt16.toNat_shiftLeft, mask_toNat 5 (by omega) rfl,
        mask_toNat 6 (by omega) rfl]
      have hr : (0x80 + u.toNat % 64) % 2 ^ 6 < 2 ^ 6 := Nat.mod_lt _ (by norm_num)
      have hq : (0xc0 + u.toNat / 64) % 2 ^ 5 < 2 ^ 5 := Nat.mod_lt _ (by norm_num)
      exact (shiftLeft_or hr (by omega)).trans (by omega)
    · refine ⟨?_, isUtf8TrailingOctet_ofNat (by omega)⟩
      rw [ofNat_le (by omega), show (0xdf : UInt8).toNat = 0xdf from rfl]
      omega
    · rw [ofNat_le (by omega), show (0x7f : UInt8).toNat = 0x7f from rfl]
      omega
  · rw [List.cons_append, List.cons_append, List.cons_append, List.nil_append, utf8ToUcs2,
      if_neg (hne _ (by omega) (by omega)), if_neg, List.headD_cons, List.tail_cons, if_neg,
      List.headD_cons, if_pos, List.tail_cons]
    · congr 1
      apply UInt16.toNat_inj.mp
      rw [UInt16.toNat_or, UInt16.toNat_or, UInt16.toNat_shiftLeft, UInt16.toNat_shiftLeft,
        mask_toNat 4 (by omega) rfl, mask_toNat 6 (by omega) rfl, mask_toNat 6 (by omega) rfl]
      have hr : (0x80 + u.toNat % 64) % 2 ^ 6 < 2 ^ 6 := Nat.mod_lt _ (by norm_num)
      have hm : (0x80 + u.toNat / 64 % 64) % 2 ^ 6 < 2 ^ 6 := Nat.mod_lt _ (by norm_num)
      have hq : (0xe0 + u.toNat / 4096) % 2 ^ 4 < 2 ^ 4 := Nat.mod_lt _ (by norm_num)
      -- The middle bits and the low ones are below bit 12.
      have hlow := (shiftLeft_or hr (by omega)).trans (by omega :
        2 ^ 6 * ((0x80 + u.toNat / 64 % 64) % 2 ^ 6) + (0x80 + u.toNat % 64) % 2 ^ 6 =
          u.toNat % 4096)
      rw [Nat.or_assoc]
      refine (congrArg _ hlow).trans ((shiftLeft_or (k := 12) (by omega) (by omega)).trans ?_)
      omega
    · refine ⟨?_, isUtf8TrailingOctet_ofNat (by omega), isUtf8TrailingOctet_ofNat (by omega)⟩
      rw [ofNat_le (by omega), show (0xef : UInt8).toNat = 0xef from rfl]
      omega
    · rw [ofNat_le (by omega), show (0xdf : UInt8).toNat = 0xdf from rfl]
      omega
    · rw [ofNat_le (by omega), show (0x7f : UInt8).toNat = 0x7f from rfl]
      omega

/-- The UTF-8 form of units with no NUL is read back as the units, up to a NUL. -/
theorem utf8ToUcs2_utf8 {us : List UInt16} (h : (0 : UInt16) ∉ us) {destsize : ℕ}
    (hsize : us.length ≤ destsize) (s : List UInt8) :
    utf8ToUcs2 destsize (utf8 us ++ 0 :: s) = us := by
  induction us generalizing destsize with
  | nil =>
      cases destsize with
      | zero => rfl
      | succ destsize => rw [utf8_nil, List.nil_append, utf8ToUcs2, if_pos rfl]
  | cons u us ih =>
      obtain ⟨destsize, rfl⟩ : ∃ k, destsize = k + 1 := ⟨destsize - 1, by
        rw [List.length_cons] at hsize
        omega⟩
      rw [List.mem_cons, not_or] at h
      rw [List.length_cons] at hsize
      rw [utf8_cons, List.append_assoc, utf8ToUcs2_cons (Ne.symm h.1), ih h.2 (by omega)]

/-! ## Single characters -/

/-- A unit of seven bits is one octet. -/
theorem utf8Unit_ascii {u : UInt16} (h : u.toNat < 0x80) : utf8Unit u = [UInt8.ofNat u.toNat] :=
  if_pos h

/-- The bytes of a unit that is no ASCII character are no ASCII characters. -/
theorem utf8Unit_ge {u : UInt16} (h : 0x80 ≤ u.toNat) : ∀ c ∈ utf8Unit u, 0x80 ≤ c.toNat := by
  have hlt := u.toNat_lt
  rw [utf8Unit, if_neg (by omega)]
  split_ifs
  · simp only [List.forall_mem_cons, List.not_mem_nil, false_implies, implies_true, and_true]
    rw [toNat_ofNat (by omega), toNat_ofNat (by omega)]
    omega
  · simp only [List.forall_mem_cons, List.not_mem_nil, false_implies, implies_true, and_true]
    rw [toNat_ofNat (by omega), toNat_ofNat (by omega), toNat_ofNat (by omega)]
    omega

/-- A unit has at least one byte. -/
theorem utf8Unit_length_pos (u : UInt16) : 0 < (utf8Unit u).length := by
  rw [utf8Unit]
  split_ifs
  · exact Nat.one_pos
  · exact Nat.two_pos
  · exact Nat.succ_pos 2

/-- A text has as many octets as units at least. -/
theorem length_le_utf8 (us : List UInt16) : us.length ≤ (utf8 us).length := by
  induction us with
  | nil => exact Nat.le_refl 0
  | cons u us ih =>
      have := utf8Unit_length_pos u
      rw [utf8_cons, List.length_append, List.length_cons]
      omega

/-- An ASCII character of the UTF-8 form is one of the units. -/
theorem mem_of_mem_utf8 {us : List UInt16} {c : UInt8} (hc : c.toNat < 0x80) (h : c ∈ utf8 us) :
    c.toUInt16 ∈ us := by
  rw [utf8, List.mem_flatMap] at h
  obtain ⟨u, hu, hmem⟩ := h
  have hu80 : u.toNat < 0x80 := by
    by_contra hge
    have := utf8Unit_ge (Nat.le_of_not_lt hge) c hmem
    omega
  rw [utf8Unit_ascii hu80, List.mem_singleton] at hmem
  have heq : c.toUInt16 = u := by
    apply UInt16.toNat_inj.mp
    rw [UInt8.toNat_toUInt16, hmem, toNat_ofNat (by omega)]
  rw [heq]
  exact hu

end Ntloader.Charset
