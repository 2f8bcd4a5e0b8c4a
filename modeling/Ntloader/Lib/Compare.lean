import Mathlib.Data.Prod.Lex
import Mathlib.Data.List.Induction
import Mathlib.Data.List.Lex
import Mathlib.Data.List.Sort
import Mathlib.Data.Int.Order.Basic
import Mathlib.Tactic.Linarith

/-!
# Comparison by sign

A comparison that gives a negative number, zero or a positive number, and the list that is kept sorted
with it.

* `Compares` — the number has the sign of the order of two keys; how this passes through pairs and
  lists in lexicographic order.
* `insertUnique` — insertion into a sorted list, unless an equal element is there.
* `mem_foldl_insertUnique`, `foldl_insertUnique_perm` — what a sequence of insertions gives.
-/

namespace Ntloader.Lib

variable {α β κ : Type} [LinearOrder α] [LinearOrder β] [LinearOrder κ]

/-! ## Signs -/

/-- A number has the sign of the order of `a` and `b`. -/
structure Compares (r : ℤ) (a b : κ) : Prop where
  neg : a < b → r < 0
  zero : a = b → r = 0
  pos : b < a → 0 < r

section

variable {r : ℤ} {a b : κ}

/-- A negative result says less, -/
theorem Compares.neg_iff (h : Compares r a b) : r < 0 ↔ a < b := by
  refine ⟨fun hr => ?_, h.neg⟩
  rcases lt_trichotomy a b with hab | hab | hab
  · exact hab
  · exact absurd (h.zero hab) hr.ne
  · exact absurd (h.pos hab) hr.not_gt

/-- zero says equal, -/
theorem Compares.zero_iff (h : Compares r a b) : r = 0 ↔ a = b := by
  refine ⟨fun hr => ?_, h.zero⟩
  rcases lt_trichotomy a b with hab | hab | hab
  · exact absurd hr (h.neg hab).ne
  · exact hab
  · exact absurd hr (h.pos hab).ne'

/-- and a positive one greater. -/
theorem Compares.pos_iff (h : Compares r a b) : 0 < r ↔ b < a := by
  refine ⟨fun hr => ?_, h.pos⟩
  rcases lt_trichotomy a b with hab | hab | hab
  · exact absurd (h.neg hab) hr.not_gt
  · exact absurd (h.zero hab) hr.ne'
  · exact hab

/-- Zero compares a key with itself. -/
theorem Compares.refl (a : κ) : Compares 0 a a :=
  ⟨fun h => absurd h (lt_irrefl a), fun _ => rfl, fun h => absurd h (lt_irrefl a)⟩

end

/-- The difference of two numbers. -/
theorem compares_sub (m n : ℕ) : Compares ((m : ℤ) - n) m n :=
  ⟨fun h => by omega, fun h => by omega, fun h => by omega⟩

section

variable {r : ℤ} {a b : α} {c d : β}

/-- Pairs that differ in the first place. -/
theorem Compares.lex_of_ne (h : Compares r a b) (hne : a ≠ b) :
    Compares r (toLex (a, c)) (toLex (b, d)) := by
  constructor
  · intro hlt
    rcases Prod.Lex.toLex_lt_toLex.mp hlt with hab | ⟨hab, -⟩
    · exact h.neg hab
    · exact absurd hab hne
  · intro heq
    exact absurd (congrArg (fun p => (ofLex p).1) heq) hne
  · intro hlt
    rcases Prod.Lex.toLex_lt_toLex.mp hlt with hab | ⟨hab, -⟩
    · exact h.pos hab
    · exact absurd hab.symm hne

/-- Pairs that are equal in the first place. -/
theorem Compares.lex_of_eq (h : Compares r c d) (heq : a = b) :
    Compares r (toLex (a, c)) (toLex (b, d)) := by
  subst heq
  constructor
  · intro hlt
    rcases Prod.Lex.toLex_lt_toLex.mp hlt with hab | ⟨-, hcd⟩
    · exact absurd hab (lt_irrefl a)
    · exact h.neg hcd
  · intro heq
    exact h.zero (congrArg (fun p => (ofLex p).2) heq)
  · intro hlt
    rcases Prod.Lex.toLex_lt_toLex.mp hlt with hab | ⟨-, hcd⟩
    · exact absurd hab (lt_irrefl a)
    · exact h.pos hcd

end

section

variable {r : ℤ} {a b : α} {l m : List α}

/-- Lists that differ in the first place. -/
theorem Compares.cons_of_ne (h : Compares r a b) (hne : a ≠ b) : Compares r (a :: l) (b :: m) := by
  constructor
  · intro hlt
    rcases List.cons_lt_cons_iff.mp hlt with hab | ⟨hab, -⟩
    · exact h.neg hab
    · exact absurd hab hne
  · intro heq
    exact absurd (List.cons_eq_cons.mp heq).1 hne
  · intro hlt
    rcases List.cons_lt_cons_iff.mp hlt with hab | ⟨hab, -⟩
    · exact h.pos hab
    · exact absurd hab.symm hne

/-- Lists that are equal in the first place. -/
theorem Compares.cons_of_eq (h : Compares r l m) (heq : a = b) : Compares r (a :: l) (b :: m) := by
  subst heq
  constructor
  · intro hlt
    rcases List.cons_lt_cons_iff.mp hlt with hab | ⟨-, hlm⟩
    · exact absurd hab (lt_irrefl a)
    · exact h.neg hlm
  · intro heq
    exact h.zero (List.cons_eq_cons.mp heq).2
  · intro hlt
    rcases List.cons_lt_cons_iff.mp hlt with hab | ⟨-, hlm⟩
    · exact absurd hab (lt_irrefl a)
    · exact h.pos hlm

end

/-! ## Sorted lists -/

/-- An element of a list has a first one with its key. -/
theorem exists_find_key {γ : Type} (key : γ → κ) {ds : List γ} {x : γ} (hx : x ∈ ds) :
    ∃ y ∈ ds, ds.find? (fun d => key d = key x) = some y ∧ key y = key x := by
  have hsome : (ds.find? fun d => key d = key x).isSome = true :=
    List.find?_isSome.mpr ⟨x, hx, decide_eq_true rfl⟩
  obtain ⟨y, hy⟩ := Option.isSome_iff_exists.mp hsome
  have hkey := List.find?_some hy
  rw [decide_eq_true_eq] at hkey
  exact ⟨y, List.mem_of_find?_eq_some hy, hy, hkey⟩

/-- Two sorted lists with the same elements are equal. -/
theorem eq_of_pairwise_lt {γ : Type} {key : γ → κ} {l l' : List γ}
    (h : l.Pairwise fun p q => key p < key q) (h' : l'.Pairwise fun p q => key p < key q)
    (hmem : ∀ x, x ∈ l ↔ x ∈ l') : l = l' := by
  have hirrefl : Std.Irrefl fun p q : γ => key p < key q := ⟨fun p => lt_irrefl (key p)⟩
  have hantisymm : Std.Antisymm fun p q : γ => key p < key q :=
    ⟨fun p q hpq hqp => absurd hqp hpq.not_gt⟩
  exact h.eq_of_mem_iff h' hmem

section

variable {γ : Type} (cmp : γ → γ → ℤ)

/-- Insertion in front of the first element that is above, unless an equal one comes first. -/
def insertUnique : List γ → γ → List γ
  | [], d => [d]
  | p :: l, d =>
      if cmp p d = 0 then p :: l
      else if cmp p d > 0 then d :: p :: l
      else p :: insertUnique l d

variable {cmp} {key : γ → κ} {P : γ → Prop}
  (hcmp : ∀ a b, P a → P b → Compares (cmp a b) (key a) (key b))

include hcmp

/-- An insertion adds what is inserted, unless its key is there. -/
theorem mem_insertUnique {l : List γ} {d : γ} (hl : ∀ p ∈ l, P p) (hd : P d)
    (hsorted : l.Pairwise fun p q => key p < key q) (x : γ) :
    x ∈ insertUnique cmp l d ↔ x ∈ l ∨ x = d ∧ key d ∉ l.map key := by
  induction l with
  | nil => simp [insertUnique]
  | cons p l ih =>
      have hpd := hcmp p d (hl p List.mem_cons_self) hd
      obtain ⟨hp, hrest⟩ := List.pairwise_cons.mp hsorted
      rw [insertUnique, List.map_cons]
      by_cases h0 : cmp p d = 0
      · have hkey : key d ∈ key p :: l.map key := by
          rw [hpd.zero_iff.mp h0]
          exact List.mem_cons_self
        rw [if_pos h0]
        exact (or_iff_left fun h => h.2 hkey).symm
      rw [if_neg h0]
      have hne : key d ≠ key p := fun h => h0 (hpd.zero h.symm)
      by_cases hpos : cmp p d > 0
      · -- the elements behind are above as well
        have hlt := hpd.pos_iff.mp hpos
        have hkey : key d ∉ key p :: l.map key := by
          rw [List.mem_cons, not_or]
          refine ⟨hne, fun hmem => ?_⟩
          obtain ⟨q, hq, hqd⟩ := List.mem_map.mp hmem
          exact absurd (hlt.trans (hp q hq)) (by rw [hqd]; exact lt_irrefl _)
        rw [if_pos hpos, List.mem_cons, and_iff_left hkey]
        exact or_comm
      · have hmem : key d ∈ key p :: l.map key ↔ key d ∈ l.map key := by
          rw [List.mem_cons, or_iff_right hne]
        rw [if_neg hpos, List.mem_cons, List.mem_cons, hmem,
          ih (fun q hq => hl q (List.mem_cons_of_mem _ hq)) hrest, or_assoc]

/-- It keeps the keys ascending. -/
theorem pairwise_insertUnique {l : List γ} {d : γ} (hl : ∀ p ∈ l, P p) (hd : P d)
    (hsorted : l.Pairwise fun p q => key p < key q) :
    (insertUnique cmp l d).Pairwise fun p q => key p < key q := by
  induction l with
  | nil => exact List.pairwise_singleton _ _
  | cons p l ih =>
      have hpd := hcmp p d (hl p List.mem_cons_self) hd
      have htail : ∀ q ∈ l, P q := fun q hq => hl q (List.mem_cons_of_mem _ hq)
      obtain ⟨hp, hrest⟩ := List.pairwise_cons.mp hsorted
      rw [insertUnique]
      by_cases h0 : cmp p d = 0
      · rw [if_pos h0]
        exact hsorted
      rw [if_neg h0]
      by_cases hpos : cmp p d > 0
      · rw [if_pos hpos, List.pairwise_cons]
        refine ⟨fun q hq => ?_, hsorted⟩
        have hlt := hpd.pos_iff.mp hpos
        rcases List.mem_cons.mp hq with rfl | hq
        · exact hlt
        · exact hlt.trans (hp q hq)
      · have hlt : key p < key d :=
          hpd.neg_iff.mp (lt_of_le_of_ne (not_lt.mp hpos) h0)
        rw [if_neg hpos, List.pairwise_cons]
        refine ⟨fun q hq => ?_, ih htail hrest⟩
        rcases (mem_insertUnique hcmp htail hd hrest q).mp hq with hq | ⟨rfl, -⟩
        · exact hp q hq
        · exact hlt

/-- A sequence of insertions gives a sorted list, of each key the element that came first. -/
theorem mem_foldl_insertUnique {ds : List γ} (hds : ∀ d ∈ ds, P d) :
    (ds.foldl (insertUnique cmp) []).Pairwise (fun p q => key p < key q) ∧
      ∀ x, x ∈ ds.foldl (insertUnique cmp) [] ↔ ds.find? (fun d => key d = key x) = some x := by
  induction ds using List.reverseRecOn with
  | nil => exact ⟨List.Pairwise.nil, fun x => by simp⟩
  | append_singleton ds d ih =>
      obtain ⟨hbefore, hlast⟩ := List.forall_mem_append.mp hds
      have hd : P d := hlast d List.mem_cons_self
      obtain ⟨hsorted, hmem⟩ := ih hbefore
      have hP : ∀ p ∈ ds.foldl (insertUnique cmp) [], P p := fun p hp =>
        hbefore p (List.mem_of_find?_eq_some ((hmem p).mp hp))
      rw [List.foldl_append]
      refine ⟨pairwise_insertUnique hcmp hP hd hsorted, fun x => ?_⟩
      rw [List.find?_append]
      show x ∈ insertUnique cmp (ds.foldl (insertUnique cmp) []) d ↔ _
      rw [mem_insertUnique hcmp hP hd hsorted, hmem]
      rcases hfind : ds.find? (fun d => key d = key x) with _ | y
      · -- no element with this key yet
        rw [Option.none_or]
        have hnone : ∀ e ∈ ds, key e ≠ key x := by
          intro e he heq
          exact List.find?_eq_none.mp hfind e he (decide_eq_true heq)
        constructor
        · rintro (h | ⟨rfl, -⟩)
          · cases h
          · simp
        · intro h
          have hxd : d = x := List.mem_singleton.mp (List.mem_of_find?_eq_some h) ▸ rfl
          subst hxd
          refine Or.inr ⟨rfl, fun hkey => ?_⟩
          obtain ⟨e, he, hek⟩ := List.mem_map.mp hkey
          exact hnone e (List.mem_of_find?_eq_some ((hmem e).mp he)) hek
      · rw [Option.some_or]
        refine or_iff_left ?_
        rintro ⟨rfl, hkey⟩
        have hy := List.find?_some hfind
        rw [decide_eq_true_eq] at hy
        refine hkey (List.mem_map.mpr ⟨y, (hmem y).mpr ?_, hy⟩)
        rw [hy]
        exact hfind

/-- The keys of the list are those of the elements that are inserted. -/
theorem mem_keys_foldl_insertUnique {ds : List γ} (hds : ∀ d ∈ ds, P d) (k : κ) :
    k ∈ (ds.foldl (insertUnique cmp) []).map key ↔ k ∈ ds.map key := by
  have hmem := (mem_foldl_insertUnique hcmp hds).2
  constructor
  · intro h
    obtain ⟨x, hx, rfl⟩ := List.mem_map.mp h
    exact List.mem_map_of_mem (List.mem_of_find?_eq_some ((hmem x).mp hx))
  · intro h
    obtain ⟨x, hx, rfl⟩ := List.mem_map.mp h
    obtain ⟨y, -, hy, hkey⟩ := exists_find_key key hx
    refine List.mem_map.mpr ⟨y, (hmem y).mpr ?_, hkey⟩
    rw [hkey]
    exact hy

/-- The order of the insertions makes no difference, if the elements with one key are the same. -/
theorem foldl_insertUnique_perm {ds ds' : List γ} (hds : ∀ d ∈ ds, P d) (hperm : ds.Perm ds')
    (hinj : ∀ p ∈ ds, ∀ q ∈ ds, key p = key q → p = q) :
    ds'.foldl (insertUnique cmp) [] = ds.foldl (insertUnique cmp) [] := by
  have hds' : ∀ d ∈ ds', P d := fun d hd => hds d (hperm.mem_iff.mpr hd)
  have hinj' : ∀ p ∈ ds', ∀ q ∈ ds', key p = key q → p = q := fun p hp q hq =>
    hinj p (hperm.mem_iff.mpr hp) q (hperm.mem_iff.mpr hq)
  have hmem {es : List γ} (hes : ∀ d ∈ es, P d)
      (hinj : ∀ p ∈ es, ∀ q ∈ es, key p = key q → p = q) (x : γ) :
      x ∈ es.foldl (insertUnique cmp) [] ↔ x ∈ es := by
    rw [(mem_foldl_insertUnique hcmp hes).2]
    refine ⟨List.mem_of_find?_eq_some, fun hx => ?_⟩
    obtain ⟨y, hmem, hy, hkey⟩ := exists_find_key key hx
    rw [hy, hinj y hmem x hx hkey]
  refine eq_of_pairwise_lt (mem_foldl_insertUnique hcmp hds').1 (mem_foldl_insertUnique hcmp hds).1 ?_
  intro x
  rw [hmem hds hinj, hmem hds' hinj']
  exact hperm.mem_iff.symm

end

end Ntloader.Lib
