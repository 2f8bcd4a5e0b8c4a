import Ntloader.Lib.Bits

/-!
# A cursor over the bits of words

A reader fetches words of `w` bits and reads their bits one at a time, most significant first.
A register of `2 * w` bits that has the unread bits at its top is a faster way of doing the same.

* `wordStream` — the bits of a list of words.
* `Cursor` — the words that have been fetched and how many of their bits have been read;
  `Cursor.readBits` — reading bit by bit (`Cursor.readBits_eq`).
* `Cursor.Justified` — a register holds the unread bits of a cursor; what its top is
  (`Justified.top`), and how bits are shifted out and a word in (`Justified.advance`,
  `Justified.refill`).
-/

namespace Ntloader.Lib

/-! ## The bits of words -/

/-- The bits of words of `w` bits, most significant first, zeros behind them. -/
def wordStream (w : ℕ) (ws : List ℕ) : ℕ → Bool :=
  fun i => (ws.getD (i / w) 0).testBit (w - 1 - i % w)

/-- A window sees its own bits only. -/
theorem peek_congr {s t : ℕ → Bool} {n k : ℕ} (h : ∀ i < k, s (n + i) = t (n + i)) :
    peek s n k = peek t n k := by
  induction k with
  | zero => rfl
  | succ k ih => rw [peek, peek, ih fun i hi => h i (Nat.lt_succ_of_lt hi), h k (Nat.lt_succ_self k)]

/-- One word more does not change the bits in front of it. -/
theorem peek_wordStream_append {w : ℕ} (hw : 0 < w) (ws : List ℕ) (v : ℕ) {n k : ℕ}
    (h : n + k ≤ w * ws.length) :
    peek (wordStream w (ws ++ [v])) n k = peek (wordStream w ws) n k := by
  refine peek_congr fun i hi => ?_
  have hdiv : (n + i) / w < ws.length := by
    rw [Nat.div_lt_iff_lt_mul hw, Nat.mul_comm]
    omega
  rw [wordStream, wordStream, List.getD_append _ _ _ _ hdiv]

/-- The first bits of a word are its quotient. -/
theorem peek_wordStream_last_div {w : ℕ} (ws : List ℕ) {v : ℕ} (hv : v < 2 ^ w) {k : ℕ}
    (hk : k ≤ w) :
    peek (wordStream w (ws ++ [v])) (w * ws.length) k = v / 2 ^ (w - k) := by
  induction k with
  | zero => rw [peek, Nat.sub_zero, Nat.div_eq_of_lt hv]
  | succ k ih =>
      have hw : 0 < w := Nat.zero_lt_of_lt hk
      have hword : (w * ws.length + k) / w = ws.length := by
        rw [Nat.mul_add_div hw, Nat.div_eq_of_lt hk, Nat.add_zero]
      have hbit : (w * ws.length + k) % w = k := by
        rw [Nat.mul_add_mod, Nat.mod_eq_of_lt hk]
      have hlast : (ws ++ [v]).getD ws.length 0 = v := by
        rw [List.getD_append_right _ _ _ _ le_rfl, Nat.sub_self]
        rfl
      have hsplit : v / 2 ^ (w - k) = v / 2 ^ (w - (k + 1)) / 2 := by
        rw [Nat.div_div_eq_div_mul, ← pow_succ, show w - (k + 1) + 1 = w - k by omega]
      rw [peek, ih (Nat.le_of_succ_le hk), wordStream, hword, hbit, hlast, Nat.toNat_testBit,
        show w - 1 - k = w - (k + 1) by omega, hsplit]
      omega

/-- The bits of the last word. -/
theorem peek_wordStream_last {w : ℕ} (ws : List ℕ) {v : ℕ} (hv : v < 2 ^ w) :
    peek (wordStream w (ws ++ [v])) (w * ws.length) w = v := by
  rw [peek_wordStream_last_div ws hv le_rfl, Nat.sub_self, pow_zero, Nat.div_one]

/-! ## The cursor -/

/-- The words fetched, in the order in which they were, and the number of their bits that have been
read. -/
structure Cursor where
  /-- The words. -/
  words : List ℕ
  /-- The number of bits read. -/
  pos : ℕ

namespace Cursor

/-- Nothing has been fetched. -/
def empty : Cursor := ⟨[], 0⟩

/-- Fetch a word. -/
def push (c : Cursor) (v : ℕ) : Cursor := { c with words := c.words ++ [v] }

/-- Read one bit. -/
def readBit (w : ℕ) (c : Cursor) : Bool × Cursor :=
  (wordStream w c.words c.pos, { c with pos := c.pos + 1 })

/-- Read `n` bits one after the other, as a number whose most significant bit is the first. -/
def readBits (w : ℕ) : ℕ → Cursor → ℕ × Cursor
  | 0, c => (0, c)
  | n + 1, c =>
      let (v, c) := readBits w n c
      let (b, c) := readBit w c
      (2 * v + b.toNat, c)

/-- The number of bits fetched and not read. -/
def unread (w : ℕ) (c : Cursor) : ℕ := w * c.words.length - c.pos

/-- What has been read bit by bit. -/
theorem readBits_eq (w n : ℕ) (c : Cursor) :
    readBits w n c = (peek (wordStream w c.words) c.pos n, { c with pos := c.pos + n }) := by
  induction n with
  | zero => rfl
  | succ n ih =>
      rw [readBits, ih]
      rfl

/-! ## A register that holds the unread bits -/

/-- A register of `2 * w` bits has the unread bits of the cursor at its top, a word and `spare` more,
and zeros below them. -/
structure Justified (w : ℕ) (c : Cursor) (spare reg : ℕ) : Prop where
  /-- A word is spare at most. -/
  spare_le : spare ≤ w
  /-- The bits read and those unread are those of the words. -/
  unread_eq : c.pos + (w + spare) = w * c.words.length
  /-- What the register holds. -/
  reg_eq : reg = peek (wordStream w c.words) c.pos (w + spare) * 2 ^ (w - spare)

variable {w spare reg : ℕ} {c : Cursor}

/-- Two words fill the register. -/
theorem justified_two {v v' : ℕ} (hw : 0 < w) (hv : v < 2 ^ w) (hv' : v' < 2 ^ w) :
    Justified w ((empty.push v).push v') w (v * 2 ^ w ||| v') := by
  have hfirst : peek (wordStream w ([v] ++ [v'])) 0 w = v := by
    rw [peek_wordStream_append hw [v] v' (by simp)]
    exact peek_wordStream_last [] hv
  have hsecond : peek (wordStream w ([v] ++ [v'])) (0 + w) w = v' := by
    have hlast := peek_wordStream_last [v] hv'
    rw [List.length_singleton, Nat.mul_one] at hlast
    rwa [Nat.zero_add]
  refine ⟨le_rfl, ?_, ?_⟩
  · show 0 + (w + w) = w * 2
    omega
  · show v * 2 ^ w ||| v' = peek (wordStream w ([v] ++ [v'])) 0 (w + w) * 2 ^ (w - w)
    rw [peek_add, hfirst, hsecond, Nat.sub_self, pow_zero, Nat.mul_one, Nat.mul_comm,
      ← Nat.two_pow_add_eq_or_of_lt hv']

/-- **The top of the register** is what would be read bit by bit. -/
theorem Justified.top (h : Justified w c spare reg) {n : ℕ} (hn : n ≤ w + spare) :
    reg / 2 ^ (w + w - n) = (readBits w n c).1 := by
  have hle := h.spare_le
  have htop := peek_top (wordStream w c.words) c.pos n (w + spare - n) (w - spare)
  rw [Nat.add_sub_cancel' hn, show w + spare - n + (w - spare) = w + w - n by omega] at htop
  rw [h.reg_eq, htop, readBits_eq]

/-- The register with bits shifted out of it. -/
theorem Justified.shiftOut (h : Justified w c spare reg) {n : ℕ} (hn : n ≤ w + spare) :
    reg * 2 ^ n % 2 ^ (w + w) =
      peek (wordStream w c.words) (c.pos + n) (w + spare - n) * 2 ^ (n + (w - spare)) := by
  have hle := h.spare_le
  have hout := peek_shiftOut (wordStream w c.words) c.pos n (w + spare - n) (w - spare)
  rw [Nat.add_sub_cancel' hn, show w + spare + (w - spare) = w + w by omega] at hout
  rw [h.reg_eq, hout]

/-- Bits that are spare are shifted out. -/
theorem Justified.advance (h : Justified w c spare reg) {n : ℕ} (hn : n ≤ spare) :
    Justified w (readBits w n c).2 (spare - n) (reg * 2 ^ n % 2 ^ (w + w)) := by
  have hle := h.spare_le
  have heq := h.unread_eq
  rw [h.shiftOut (by omega), readBits_eq]
  refine ⟨by omega, ?_, ?_⟩
  · dsimp only
    omega
  · dsimp only
    rw [show w + spare - n = w + (spare - n) by omega,
      show n + (w - spare) = w - (spare - n) by omega]

/-- More bits than are spare are shifted out, and a word in behind those that are left. -/
theorem Justified.refill (hw : 0 < w) (h : Justified w c spare reg) {n : ℕ} (hn : spare < n)
    (hnw : n ≤ w) {v : ℕ} (hv : v < 2 ^ w) :
    Justified w ((readBits w n c).2.push v) (spare + w - n)
      (reg * 2 ^ n % 2 ^ (w + w) ||| v * 2 ^ (n - spare)) := by
  have heq := h.unread_eq
  have hfront := @peek_wordStream_append w hw c.words v (c.pos + n) (w + spare - n) (by omega)
  have hlast := peek_wordStream_last c.words hv
  rw [← heq, show c.pos + (w + spare) = c.pos + n + (w + spare - n) by omega] at hlast
  have hin := peek_shiftIn (wordStream w (c.words ++ [v])) (c.pos + n) (w + spare - n) w (n - spare)
  rw [hfront, hlast] at hin
  rw [h.shiftOut (by omega), readBits_eq, show n + (w - spare) = w + (n - spare) by omega, hin]
  refine ⟨by omega, ?_, ?_⟩
  · show c.pos + n + (w + (spare + w - n)) = w * (c.words ++ [v]).length
    rw [List.length_append, List.length_singleton, Nat.mul_add, ← heq]
    omega
  · show _ = peek (wordStream w (c.words ++ [v])) (c.pos + n) (w + (spare + w - n)) *
      2 ^ (w - (spare + w - n))
    rw [show w + (spare + w - n) = w + spare - n + w by omega,
      show w - (spare + w - n) = n - spare by omega]

end Cursor

end Ntloader.Lib
