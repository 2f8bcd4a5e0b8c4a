import Ntloader.Lib.Memory

/-!
# Moving an area in pieces

An area of memory is moved to another one piece by piece, in some order; a piece is read when it is
moved, so that what has been written before counts.

* `Mem.moveAll` — the moves, each the offset of a piece and its length.
* `Clear` — no piece is written over before it is read.
* `Mem.moveAll_eq_copy` — clear moves that cover the area move what there was, in whatever order and
  however often.
* `clear_of_ascending`, `clear_of_descending`, `clear_of_apart` — three ways to be clear.
-/

namespace Ntloader.Lib

/-- Move pieces, each an offset and a length. -/
def Mem.moveAll (dest src : ℕ) (m : Mem) (pieces : List (ℕ × ℕ)) : Mem :=
  pieces.foldl (fun m p => m.store (dest + p.1) (m.bytes (src + p.1) p.2)) m

/-- What is written for a piece is apart from the pieces that are read behind it. -/
def Clear (dest src : ℕ) : List (ℕ × ℕ) → Prop :=
  List.Pairwise fun p q => dest + (p.1 + p.2) ≤ src + q.1 ∨ src + (q.1 + q.2) ≤ dest + p.1

/-- The pieces are those of an area: each byte of it is in one of them, and no other. -/
def Covers (pieces : List (ℕ × ℕ)) (len : ℕ) : Prop :=
  ∀ i, (∃ p ∈ pieces, p.1 ≤ i ∧ i < p.1 + p.2) ↔ i < len

section Moves

variable {dest src len : ℕ} {pieces : List (ℕ × ℕ)}

/-- Equation lemma: no pieces. -/
@[simp] theorem Mem.moveAll_nil (m : Mem) : Mem.moveAll dest src m [] = m := rfl

/-- Pieces are moved one list behind the other. -/
theorem Mem.moveAll_append (m : Mem) (ps qs : List (ℕ × ℕ)) :
    Mem.moveAll dest src m (ps ++ qs) = Mem.moveAll dest src (Mem.moveAll dest src m ps) qs := by
  rw [moveAll, List.foldl_append, ← moveAll, ← moveAll]

/-- Equation lemma: the first piece is moved first. -/
theorem Mem.moveAll_cons (m : Mem) (p : ℕ × ℕ) (ps : List (ℕ × ℕ)) :
    Mem.moveAll dest src m (p :: ps) =
      Mem.moveAll dest src (m.copy (dest + p.1) m (src + p.1) p.2) ps := by
  rw [moveAll, List.foldl_cons, ← Mem.copy_eq_store, ← moveAll]

/-- A byte of a piece is the one that was at its source, and another is left. -/
theorem Mem.moveAll_apply (hclear : Clear dest src pieces) (m : Mem) (x : ℕ) :
    ((∃ p ∈ pieces, dest + p.1 ≤ x ∧ x < dest + (p.1 + p.2)) →
      Mem.moveAll dest src m pieces x = m (src + (x - dest))) ∧
    ((∀ p ∈ pieces, x < dest + p.1 ∨ dest + (p.1 + p.2) ≤ x) →
      Mem.moveAll dest src m pieces x = m x) := by
  induction pieces generalizing m with
  | nil => simp
  | cons p ps ih =>
      obtain ⟨hp, hps⟩ := List.pairwise_cons.mp hclear
      obtain ⟨ihin, ihout⟩ := ih hps (m.copy (dest + p.1) m (src + p.1) p.2)
      rw [moveAll_cons]
      constructor
      · rintro ⟨q, hq, hlow, hhigh⟩
        by_cases hrest : ∃ q ∈ ps, dest + q.1 ≤ x ∧ x < dest + (q.1 + q.2)
        · -- It is moved once more; its source has not been written.
          obtain ⟨r, hr, hrlow, hrhigh⟩ := hrest
          have hapart := hp r hr
          rw [ihin ⟨r, hr, hrlow, hrhigh⟩, copy_of_not_mem _ _ _ (by omega)]
        · have hqp : q = p := by
            rcases List.mem_cons.mp hq with rfl | hq
            · rfl
            · exact absurd ⟨q, hq, hlow, hhigh⟩ hrest
          subst hqp
          rw [ihout fun r hr => by
              by_contra hmem
              exact hrest ⟨r, hr, by omega, by omega⟩,
            copy_of_mem _ _ _ hlow (by omega)]
          congr 1
          omega
      · intro hout
        have hx := hout p List.mem_cons_self
        rw [ihout fun q hq => hout q (List.mem_cons_of_mem p hq), copy_of_not_mem _ _ _ (by omega)]

/-- **Clear moves of the pieces of an area move what there was.** -/
theorem Mem.moveAll_eq_copy (hclear : Clear dest src pieces) (hcovers : Covers pieces len) (m : Mem) :
    Mem.moveAll dest src m pieces = m.copy dest m src len := by
  funext x
  obtain ⟨hin, hout⟩ := moveAll_apply hclear m x
  by_cases hx : dest ≤ x ∧ x < dest + len
  · obtain ⟨p, hp, hlow, hhigh⟩ := (hcovers (x - dest)).mpr (by omega)
    rw [hin ⟨p, hp, by omega, by omega⟩, copy_of_mem _ _ _ hx.1 hx.2]
  · rw [copy_of_not_mem _ _ _ (by omega)]
    apply hout
    intro p hp
    by_contra hmem
    have hi := (hcovers (x - dest)).mp ⟨p, hp, by omega, by omega⟩
    omega

/-- Ascending pieces that are moved to lower addresses. -/
theorem clear_of_ascending (h : pieces.Pairwise fun p q => p.1 + p.2 ≤ q.1) (hle : dest ≤ src) :
    Clear dest src pieces :=
  h.imp fun hpq => Or.inl (by omega)

/-- Descending pieces that are moved to higher addresses. -/
theorem clear_of_descending (h : pieces.Pairwise fun p q => q.1 + q.2 ≤ p.1) (hle : src ≤ dest) :
    Clear dest src pieces :=
  h.imp fun hpq => Or.inr (by omega)

/-- Pieces of an area that is moved to another one. -/
theorem clear_of_apart (hlen : ∀ p ∈ pieces, p.1 + p.2 ≤ len)
    (hapart : dest + len ≤ src ∨ src + len ≤ dest) : Clear dest src pieces := by
  apply List.pairwise_of_forall_mem_list
  intro p hp q hq
  have hplen := hlen p hp
  have hqlen := hlen q hq
  omega

end Moves

/-! ## Pieces of one size -/

/-- `n` pieces of a size, from an offset on. -/
def ascending (size : ℕ) : ℕ → ℕ → List (ℕ × ℕ)
  | 0, _ => []
  | n + 1, off => (off, size) :: ascending size n (off + size)

/-- The bytes of an area, the last one first. -/
def descending : ℕ → List (ℕ × ℕ)
  | 0 => []
  | n + 1 => (n, 1) :: descending n

/-- What the pieces cover. -/
theorem mem_ascending {size n off : ℕ} {p : ℕ × ℕ} (h : p ∈ ascending size n off) :
    off ≤ p.1 ∧ p.1 + p.2 ≤ off + n * size := by
  induction n generalizing off with
  | zero => simp [ascending] at h
  | succ n ih =>
      rw [Nat.succ_mul]
      rcases List.mem_cons.mp h with rfl | h
      · exact ⟨le_rfl, by omega⟩
      · have := ih h
        omega

/-- Each piece ends in front of the next one. -/
theorem ascending_pairwise (size n off : ℕ) :
    (ascending size n off).Pairwise fun p q => p.1 + p.2 ≤ q.1 := by
  induction n generalizing off with
  | zero => exact List.Pairwise.nil
  | succ n ih => exact List.pairwise_cons.mpr ⟨fun q hq => (mem_ascending hq).1, ih _⟩

/-- Every offset is in a piece. -/
theorem exists_mem_ascending {size n off i : ℕ} (hlow : off ≤ i) (hhigh : i < off + n * size) :
    ∃ p ∈ ascending size n off, p.1 ≤ i ∧ i < p.1 + p.2 := by
  induction n generalizing off with
  | zero => omega
  | succ n ih =>
      rw [Nat.succ_mul] at hhigh
      by_cases hi : i < off + size
      · exact ⟨(off, size), List.mem_cons_self, hlow, hi⟩
      · obtain ⟨p, hp, h⟩ := @ih (off + size) (by omega) (by omega)
        exact ⟨p, List.mem_cons_of_mem _ hp, h⟩

/-- The descending pieces are single bytes, -/
theorem mem_descending {n : ℕ} {p : ℕ × ℕ} (h : p ∈ descending n) : p.1 < n ∧ p.2 = 1 := by
  induction n with
  | zero => simp [descending] at h
  | succ n ih =>
      rcases List.mem_cons.mp h with rfl | h
      · exact ⟨Nat.lt_succ_self n, rfl⟩
      · have := ih h
        omega

/-- each behind the next one, -/
theorem descending_pairwise (n : ℕ) :
    (descending n).Pairwise fun p q => q.1 + q.2 ≤ p.1 := by
  induction n with
  | zero => exact List.Pairwise.nil
  | succ n ih =>
      refine List.pairwise_cons.mpr ⟨fun q hq => ?_, ih⟩
      have := mem_descending hq
      simp only
      omega

/-- and cover the area. -/
theorem descending_covers (n : ℕ) : Covers (descending n) n := by
  intro i
  constructor
  · rintro ⟨p, hp, h⟩
    have := mem_descending hp
    omega
  · intro hi
    induction n with
    | zero => omega
    | succ n ih =>
        by_cases hin : i = n
        · exact ⟨(n, 1), List.mem_cons_self, by simp only; omega, by simp only; omega⟩
        · obtain ⟨p, hp, h⟩ := ih (by omega)
          exact ⟨p, List.mem_cons_of_mem _ hp, h⟩

end Ntloader.Lib
