import Ntloader.Lib.Memory

/-!
# Fields of a cleared buffer

A buffer is cleared, and fields are written to it, each behind the one before. What it holds then is the
fields one after the other, with zeros between them and behind the last.

* `padded` — bytes, filled up with zeros.
* `laid` — bytes with fields behind them; `InOrder` — no field starts in front of the end of another.
* `store_fields` — writing fields to a buffer that is zero behind the bytes it starts with.
-/

namespace Ntloader.Lib

/-! ## Padding -/

/-- Bytes, filled up with zeros. -/
def padded (len : ℕ) (bs : List UInt8) : List UInt8 := bs ++ List.replicate (len - bs.length) 0

variable {len n o : ℕ} {bs vs : List UInt8}

/-- Padding makes the length. -/
theorem padded_length (h : bs.length ≤ len) : (padded len bs).length = len := by
  unfold padded
  rw [List.length_append, List.length_replicate]
  omega

/-- Nothing is padded to zeros. -/
theorem padded_nil (len : ℕ) : padded len [] = List.replicate len 0 := by
  unfold padded
  rw [List.nil_append, List.length_nil, Nat.sub_zero]

/-- Zeros at the end are filled up as well. -/
theorem padded_append_replicate (h : bs.length + n ≤ len) :
    padded len (bs ++ List.replicate n 0) = padded len bs := by
  unfold padded
  rw [List.append_assoc, ← List.replicate_add, List.length_append, List.length_replicate]
  congr 2
  omega

/-- The second part is padded. -/
theorem padded_append (xs ys : List UInt8) (n : ℕ) :
    padded (xs.length + n) (xs ++ ys) = xs ++ padded n ys := by
  unfold padded
  rw [List.append_assoc, List.length_append, Nat.add_sub_add_left]

/-- A field is written to zeros. -/
theorem overwrite_padded (h : bs.length ≤ o) (ho : o + vs.length ≤ len) :
    Mem.overwrite (padded len bs) o vs = padded len (padded o bs ++ vs) := by
  have htake : (padded len bs).take o = padded o bs := by
    unfold padded
    rw [List.take_append, List.take_of_length_le h, List.take_replicate]
    congr 2
    omega
  have hdrop : (padded len bs).drop (o + vs.length) = List.replicate (len - (o + vs.length)) 0 := by
    unfold padded
    rw [List.drop_append, List.drop_of_length_le (by omega), List.nil_append, List.drop_replicate]
    congr 1
    omega
  unfold Mem.overwrite
  rw [htake, hdrop, padded.eq_1 len, List.length_append, padded_length h]

/-! ## Fields -/

/-- Bytes with fields behind them, each given by its offset and its bytes. -/
def laid (bs : List UInt8) : List (ℕ × List UInt8) → List UInt8
  | [] => bs
  | w :: ws => laid (padded w.1 bs ++ w.2) ws

/-- Every field starts behind the one before it, the first one at an offset or behind it. -/
def InOrder : ℕ → List (ℕ × List UInt8) → Prop
  | _, [] => True
  | n, w :: ws => n ≤ w.1 ∧ InOrder (w.1 + w.2.length) ws

/-- Fields are laid one list behind the other. -/
theorem laid_append (bs : List UInt8) (ws vs : List (ℕ × List UInt8)) :
    laid bs (ws ++ vs) = laid (laid bs ws) vs := by
  induction ws generalizing bs with
  | nil => rfl
  | cons w ws ih => exact ih _

/-- Fields at offsets from the end of other bytes. -/
theorem laid_map_add (xs bs : List UInt8) (ws : List (ℕ × List UInt8)) :
    laid (xs ++ bs) (ws.map fun w => (xs.length + w.1, w.2)) = xs ++ laid bs ws := by
  induction ws generalizing bs with
  | nil => rfl
  | cons w ws ih =>
      rw [List.map_cons, laid, laid, padded_append, List.append_assoc]
      exact ih _

/-- **Fields that are written to a cleared buffer.** -/
theorem store_fields (m : Mem) (a : ℕ) {ws : List (ℕ × List UInt8)}
    (horder : InOrder bs.length ws) (hinside : ∀ w ∈ ws, w.1 + w.2.length ≤ len) :
    ws.foldl (fun m w => m.store (a + w.1) w.2) (m.store a (padded len bs)) =
      m.store a (padded len (laid bs ws)) := by
  induction ws generalizing bs with
  | nil => rfl
  | cons w ws ih =>
      obtain ⟨hle, horder⟩ := horder
      have hw := hinside w List.mem_cons_self
      have hlength : (padded w.1 bs ++ w.2).length = w.1 + w.2.length := by
        rw [List.length_append, padded_length hle]
      rw [List.foldl_cons, Mem.store_overwrite m a (by rw [padded_length (by omega)]; exact hw),
        overwrite_padded hle hw, laid]
      refine ih ?_ fun v hv => hinside v (List.mem_cons_of_mem _ hv)
      rw [hlength]
      exact horder
/-- Bytes that are written to the start of a cleared buffer. -/
theorem store_fill (m : Mem) (a : ℕ) (h : vs.length ≤ len) :
    (m.fill a 0 len).store a vs = m.store a (padded len vs) := by
  have hstore := @Mem.store_overwrite m a (padded len []) vs 0
    (by rw [padded_length (Nat.zero_le _)]; omega)
  rw [overwrite_padded (Nat.zero_le _) (by omega), Nat.add_zero, padded_nil, padded_nil,
    List.replicate_zero, List.nil_append] at hstore
  rw [Mem.fill_eq_store]
  exact hstore

/-- The first field, if there is one, may as well follow zeros. -/
theorem laid_padded (h : bs.length ≤ o) (ws : List (ℕ × List UInt8)) :
    laid (padded o bs) ((o, vs) :: ws) = laid bs ((o, vs) :: ws) := by
  have hpadded : padded o (padded o bs) = padded o bs := by
    rw [padded.eq_1 o (padded o bs), padded_length h, Nat.sub_self, List.replicate_zero,
      List.append_nil]
  rw [laid, laid, hpadded]

end Ntloader.Lib
