import Ntloader.Charset

/-!
# Strings that are given back

The decoder checks the first byte of a sequence against upper bounds, and the bytes that follow it
against both bounds. What the encoder writes has lower bounds as well.

* `utf8Accepts` — the strings that the decoder reads to the end.
* `Shortest` — the strings that the encoder can write: `shortest_ucs2ToUtf8`, `Shortest.exists_utf8`.
* `utf8ToUcs2_givesBack_iff` — a string that is read to the end is given back if and only if it is one
  of these.
-/

namespace Ntloader.Charset

/-! ## Strings that are read to the end -/

/-- The source is read up to its NUL, without the branch for a sequence that is not known.
Source: libnt/charset.c, utf8_to_ucs2, the conditions of the loop and of its branches -/
def utf8Accepts : ℕ → List UInt8 → Bool
  | 0, src => src.headD 0 = 0
  | _ + 1, [] => true
  | destsize + 1, c :: src =>
      let c₁ := src.headD 0
      let c₂ := src.tail.headD 0
      if c = 0 then true
      else if c ≤ 0x7f then utf8Accepts destsize src
      else if c ≤ 0xdf ∧ isUtf8TrailingOctet c₁ then utf8Accepts destsize src.tail
      else if c ≤ 0xef ∧ isUtf8TrailingOctet c₁ ∧ isUtf8TrailingOctet c₂ then
        utf8Accepts destsize src.tail.tail
      else false

/-! ## Strings of the encoder -/

/-- Sequences of one to three bytes, each the shortest one for its unit, and none for a surrogate. -/
inductive Shortest : List UInt8 → Prop
  | nil : Shortest []
  | one {c : UInt8} {s : List UInt8} : c.toNat ≤ 0x7f → Shortest s → Shortest (c :: s)
  | two {c c₁ : UInt8} {s : List UInt8} : 0xc2 ≤ c.toNat → c.toNat ≤ 0xdf →
      isUtf8TrailingOctet c₁ = true → Shortest s → Shortest (c :: c₁ :: s)
  | three {c c₁ c₂ : UInt8} {s : List UInt8} : 0xe0 ≤ c.toNat → c.toNat ≤ 0xef →
      isUtf8TrailingOctet c₁ = true → isUtf8TrailingOctet c₂ = true →
      (c.toNat = 0xe0 → 0xa0 ≤ c₁.toNat) → (c.toNat = 0xed → c₁.toNat ≤ 0x9f) → Shortest s →
      Shortest (c :: c₁ :: c₂ :: s)

/-- A trailing octet, by its range. -/
theorem isUtf8TrailingOctet_iff (c : UInt8) :
    isUtf8TrailingOctet c = true ↔ 0x80 ≤ c.toNat ∧ c.toNat ≤ 0xbf := by
  simp only [isUtf8TrailingOctet, decide_eq_true_eq, ge_iff_le, UInt8.le_iff_toNat_le]
  rfl

/-- A unit that is no surrogate, by the range of those. -/
theorem isSurrogate_eq_false_iff (u : UInt16) :
    isSurrogate u = false ↔ ¬(0xd800 ≤ u.toNat ∧ u.toNat ≤ 0xdfff) := by
  simp only [isSurrogate, decide_eq_false_iff_not, UInt16.le_iff_toNat_le]
  rfl

/-- The bytes of a unit that is no surrogate. -/
theorem Shortest.utf8Unit_append {u : UInt16} {s : List UInt8} (h : isSurrogate u = false)
    (hs : Shortest s) : Shortest (utf8Unit u ++ s) := by
  have hlt := u.toNat_lt
  rw [isSurrogate_eq_false_iff] at h
  rw [utf8Unit]
  split_ifs with h₁ h₂
  · refine .one ?_ hs
    rw [toNat_ofNat (by omega)]
    omega
  · refine .two ?_ ?_ (isUtf8TrailingOctet_ofNat (by omega)) hs
    all_goals rw [toNat_ofNat (by omega)]; omega
  · refine .three ?_ ?_ (isUtf8TrailingOctet_ofNat (by omega))
      (isUtf8TrailingOctet_ofNat (by omega)) ?_ ?_ hs
    all_goals simp only [toNat_ofNat (show 0xe0 + u.toNat / 4096 < 256 by omega),
      toNat_ofNat (show 0x80 + u.toNat / 64 % 64 < 256 by omega)]
    all_goals omega

/-- What the encoder writes without a NUL is such a string. -/
theorem shortest_ucs2ToUtf8 {us : List UInt16} (h : (0 : UInt8) ∉ ucs2ToUtf8 us) :
    Shortest (ucs2ToUtf8 us) := by
  induction us with
  | nil => exact .nil
  | cons u us ih =>
      cases hsur : isSurrogate u with
      | true =>
          -- a surrogate is written as a NUL
          have hu : 0xd800 ≤ u ∧ u ≤ 0xdfff := by simpa only [isSurrogate, decide_eq_true_eq] using hsur
          have hlow : 0xd800 ≤ u.toNat := UInt16.le_iff_toNat_le.mp hu.1
          refine absurd ?_ h
          rw [ucs2ToUtf8, if_neg, if_neg, if_pos hu]
          · exact List.mem_cons_self
          all_goals
            rw [UInt16.le_iff_toNat_le]
            intro hle
            exact absurd (hlow.trans hle) (by decide)
      | false =>
          rw [ucs2ToUtf8_cons hsur] at h ⊢
          exact (ih fun h0 => h (List.mem_append_right _ h0)).utf8Unit_append hsur

/-- A number of 16 bits is a unit. -/
theorem exists_unit {n : ℕ} (h : n < 2 ^ 16) : ∃ u : UInt16, u.toNat = n :=
  ⟨UInt16.ofNat n, UInt16.toNat_ofNat_of_lt h⟩

/-- An octet of the number of an octet. -/
theorem ofNat_eq {n : ℕ} {c : UInt8} (h : n = c.toNat) : UInt8.ofNat n = c := by
  rw [h, UInt8.ofNat_toNat]

/-- One more unit, which is no NUL and no surrogate. -/
theorem cons_noSurrogate {u : UInt16} {us : List UInt16} (hu0 : u.toNat ≠ 0)
    (hsur : ¬(0xd800 ≤ u.toNat ∧ u.toNat ≤ 0xdfff)) (h0 : (0 : UInt16) ∉ us)
    (hus : ∀ u ∈ us, isSurrogate u = false) :
    (0 : UInt16) ∉ u :: us ∧ ∀ v ∈ u :: us, isSurrogate v = false := by
  refine ⟨?_, List.forall_mem_cons.mpr ⟨(isSurrogate_eq_false_iff u).mpr hsur, hus⟩⟩
  rw [List.mem_cons, not_or]
  exact ⟨fun hz => hu0 (congrArg UInt16.toNat hz.symm), h0⟩

/-- Such a string with no NUL is the UTF-8 form of units that are no surrogates. -/
theorem Shortest.exists_utf8 {s : List UInt8} (hs : Shortest s) (hnul : (0 : UInt8) ∉ s) :
    ∃ us, s = utf8 us ∧ (0 : UInt16) ∉ us ∧ ∀ u ∈ us, isSurrogate u = false := by
  induction hs with
  | nil => exact ⟨[], rfl, List.not_mem_nil, List.forall_mem_nil _⟩
  | @one c s hc hs ih =>
      rw [List.mem_cons, not_or] at hnul
      obtain ⟨us, rfl, h0, hus⟩ := ih hnul.2
      have hc0 : c.toNat ≠ 0 := fun h => hnul.1 (UInt8.toNat_inj.mp h.symm)
      obtain ⟨u, hu⟩ := exists_unit (n := c.toNat) (by omega)
      refine ⟨u :: us, ?_, cons_noSurrogate (by omega) (by omega) h0 hus⟩
      rw [utf8_cons, utf8Unit, if_pos (by omega), ofNat_eq hu]
      rfl
  | @two c c₁ s hlow hhigh h₁ hs ih =>
      rw [List.mem_cons, List.mem_cons, not_or, not_or] at hnul
      rw [isUtf8TrailingOctet_iff] at h₁
      obtain ⟨us, rfl, h0, hus⟩ := ih hnul.2.2
      obtain ⟨u, hu⟩ := exists_unit (n := (c.toNat - 0xc0) * 64 + (c₁.toNat - 0x80)) (by omega)
      refine ⟨u :: us, ?_, cons_noSurrogate (by omega) (by omega) h0 hus⟩
      rw [utf8_cons, utf8Unit, if_neg (by omega), if_pos (by omega), @ofNat_eq _ c (by omega),
        @ofNat_eq _ c₁ (by omega)]
      rfl
  | @three c c₁ c₂ s hlow hhigh h₁ h₂ he0 hed hs ih =>
      rw [List.mem_cons, List.mem_cons, List.mem_cons, not_or, not_or, not_or] at hnul
      rw [isUtf8TrailingOctet_iff] at h₁ h₂
      obtain ⟨us, rfl, h0, hus⟩ := ih hnul.2.2.2
      obtain ⟨u, hu⟩ := exists_unit
        (n := (c.toNat - 0xe0) * 4096 + ((c₁.toNat - 0x80) * 64 + (c₂.toNat - 0x80))) (by omega)
      refine ⟨u :: us, ?_, cons_noSurrogate (by omega) (by omega) h0 hus⟩
      rw [utf8_cons, utf8Unit, if_neg (by omega), if_neg (by omega), @ofNat_eq _ c (by omega),
        @ofNat_eq _ c₁ (by omega), @ofNat_eq _ c₂ (by omega)]
      rfl

/-! ## Strings that are given back -/

/-- The string that is decoded is what the encoder writes for its units. -/
def GivesBack (destsize : ℕ) (s : List UInt8) : Prop := ucs2ToUtf8 (utf8ToUcs2 destsize s) = s

instance (destsize : ℕ) (s : List UInt8) : Decidable (GivesBack destsize s) :=
  inferInstanceAs (Decidable (_ = _))

/-- The UTF-8 form of units with no NUL is read back as the units, also at its end. -/
theorem utf8ToUcs2_utf8_end {us : List UInt16} (h : (0 : UInt16) ∉ us) {destsize : ℕ}
    (hsize : us.length ≤ destsize) : utf8ToUcs2 destsize (utf8 us) = us := by
  induction us generalizing destsize with
  | nil => cases destsize <;> rfl
  | cons u us ih =>
      obtain ⟨destsize, rfl⟩ : ∃ k, destsize = k + 1 := ⟨destsize - 1, by
        rw [List.length_cons] at hsize
        omega⟩
      rw [List.mem_cons, not_or] at h
      rw [List.length_cons] at hsize
      rw [utf8_cons, utf8ToUcs2_cons (Ne.symm h.1), ih h.2 (by omega)]

/-- **A text is given back exactly if it is in shortest form.** -/
theorem givesBack_iff {s : List UInt8} {destsize : ℕ} (hnul : (0 : UInt8) ∉ s)
    (hsize : s.length ≤ destsize) : GivesBack destsize s ↔ Shortest s := by
  constructor
  · intro h
    rw [GivesBack] at h
    rw [← h] at hnul ⊢
    exact shortest_ucs2ToUtf8 hnul
  · intro h
    obtain ⟨us, rfl, h0, hus⟩ := h.exists_utf8 hnul
    have hlen : us.length ≤ destsize := (length_le_utf8 us).trans hsize
    rw [GivesBack, utf8ToUcs2_utf8_end h0 hlen]
    have hbytes := ucs2ToUtf8_append hus []
    rw [List.append_nil] at hbytes
    exact hbytes.trans (List.append_nil _)

/-- **A string that is read to the end is given back** exactly if its sequences are the shortest ones
of their units and none stands for a surrogate. -/
theorem utf8ToUcs2_givesBack_iff {s : List UInt8} {destsize : ℕ} (hnul : (0 : UInt8) ∉ s)
    (hsize : s.length ≤ destsize) :
    (utf8Accepts destsize s = true → GivesBack destsize s) ↔
      (utf8Accepts destsize s = true → Shortest s) :=
  imp_congr_right fun _ => givesBack_iff hnul hsize

/-- `0xC3 0xA9`, the shortest form of a unit. -/
theorem utf8ToUcs2_givesBack_iff_latin :
    (utf8Accepts 2 [0xc3, 0xa9] = true → GivesBack 2 [0xc3, 0xa9]) ↔
      (utf8Accepts 2 [0xc3, 0xa9] = true → Shortest [0xc3, 0xa9]) :=
  utf8ToUcs2_givesBack_iff (by decide) (by decide)

/-- `0x81 0x80`, which starts with a byte that follows others, is read as `@`. -/
theorem not_givesBack_stray :
    ¬∀ (s : List UInt8) (destsize : ℕ), (0 : UInt8) ∉ s → s.length ≤ destsize →
      utf8Accepts destsize s = true → GivesBack destsize s := by
  intro h
  exact absurd (h [0x81, 0x80] 2 (by decide) (by decide) (by decide)) (by decide)

end Ntloader.Charset
