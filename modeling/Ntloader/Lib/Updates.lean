import Mathlib.Tactic

/-!
# Sequences of updates

A state has entries that are read under names. An update changes the entry of its target, to what it
makes of the entry before, and leaves the entries of all other names as they are. If no two updates of
a sequence have the same target, each of them meets the entry that was there before the sequence.

* `Updates` — what every update does.
* `Updates.run` — what a sequence does.
* `foldlM_invariant`, `foldl_induction` — what a sequence keeps.
* `foldlM_swap` — the exchange of updates that commute.
-/

namespace Ntloader.Lib

variable {σ α τ β ε : Type}

/-- Every update that is ready succeeds, keeps an invariant of the states, and changes its target only.
Names may be the same as others in a sense of their own. -/
structure Updates (inv : σ → Prop) (view : σ → τ → β) (same : τ → τ → Prop) (target : α → τ)
    (ready : α → β → Prop) (result : α → β → β) (step : σ → α → Except ε σ) : Prop where
  step : ∀ s a, inv s → ready a (view s (target a)) → ∃ s', step s a = .ok s' ∧ inv s' ∧
    view s' (target a) = result a (view s (target a)) ∧
    ∀ t, ¬same t (target a) → view s' t = view s t

/-- **A sequence of updates** changes every target as if it were alone, and nothing else. -/
theorem Updates.run {inv : σ → Prop} {view : σ → τ → β} {same : τ → τ → Prop} {target : α → τ}
    {ready : α → β → Prop} {result : α → β → β} {step : σ → α → Except ε σ}
    (hu : Updates inv view same target ready result step) {as : List α}
    (hpairwise : as.Pairwise fun a b => ¬same (target a) (target b) ∧ ¬same (target b) (target a))
    {s : σ} (hinv : inv s) (hready : ∀ a ∈ as, ready a (view s (target a))) :
    ∃ s', as.foldlM step s = .ok s' ∧ inv s' ∧
      (∀ a ∈ as, view s' (target a) = result a (view s (target a))) ∧
      ∀ t, (∀ a ∈ as, ¬same t (target a)) → view s' t = view s t := by
  induction as generalizing s with
  | nil => exact ⟨s, rfl, hinv, fun a ha => absurd ha List.not_mem_nil, fun _ _ => rfl⟩
  | cons a as ih =>
      rw [List.pairwise_cons] at hpairwise
      obtain ⟨hfirst, hrest⟩ := hpairwise
      obtain ⟨s₁, hs₁, hinv₁, htarget, hother⟩ := hu.step s a hinv (hready a List.mem_cons_self)
      -- the targets to come are not changed by the first update
      have hsame : ∀ b ∈ as, view s₁ (target b) = view s (target b) :=
        fun b hb => hother _ (hfirst b hb).2
      have hready₁ : ∀ b ∈ as, ready b (view s₁ (target b)) := by
        intro b hb
        rw [hsame b hb]
        exact hready b (List.mem_cons_of_mem _ hb)
      obtain ⟨s', hs', hinv', htargets, hothers⟩ := ih hrest hinv₁ hready₁
      refine ⟨s', ?_, hinv', ?_, ?_⟩
      · rw [List.foldlM_cons, hs₁]
        exact hs'
      · intro b hb
        rcases List.mem_cons.mp hb with rfl | hb
        · rw [hothers _ fun c hc => (hfirst c hc).1, htarget]
        · rw [htargets b hb, hsame b hb]
      · intro t ht
        rw [hothers t fun b hb => ht b (List.mem_cons_of_mem _ hb),
          hother t (ht a List.mem_cons_self)]

/-! ## Single steps and sequences -/

/-- What every step keeps is kept by a sequence. -/
theorem foldlM_invariant {P : σ → Prop} {step : σ → α → Except ε σ} {as : List α}
    (h : ∀ a ∈ as, ∀ s s', P s → step s a = .ok s' → P s') {s s' : σ} (hs : P s)
    (hrun : as.foldlM step s = .ok s') : P s' := by
  induction as generalizing s with
  | nil =>
      cases hrun
      exact hs
  | cons a as ih =>
      rw [List.foldlM_cons] at hrun
      cases hstep : step s a with
      | error e =>
          rw [hstep] at hrun
          cases hrun
      | ok s₁ =>
          rw [hstep] at hrun
          exact ih (fun b hb => h b (List.mem_cons_of_mem _ hb))
            (h a List.mem_cons_self s s₁ hs hstep) hrun

/-- What every step keeps, of the part that is done, holds of the whole. -/
theorem foldl_induction {P : List α → σ → Prop} {step : σ → α → σ} {as : List α}
    (h : ∀ pre a post s, as = pre ++ a :: post → P pre s → P (pre ++ [a]) (step s a)) {s : σ}
    (hs : P [] s) : P as (as.foldl step s) := by
  have hrest : ∀ post pre s, as = pre ++ post → P pre s → P as (post.foldl step s) := by
    intro post
    induction post with
    | nil =>
        intro pre s has hP
        rw [has, List.append_nil]
        exact hP
    | cons a post ih =>
        intro pre s has hP
        refine ih (pre ++ [a]) _ ?_ (h pre a post s has hP)
        rw [has, List.append_assoc]
        rfl
  exact hrest as [] s rfl hs

/-- Two steps next to each other that commute can be exchanged. -/
theorem foldlM_swap {step : σ → α → Except ε σ} {a b : α}
    (hcomm : ∀ s s', (step s a >>= (step · b)) = .ok s' → (step s b >>= (step · a)) = .ok s')
    {pre post : List α} {s s' : σ} (h : (pre ++ a :: b :: post).foldlM step s = .ok s') :
    (pre ++ b :: a :: post).foldlM step s = .ok s' := by
  rw [List.foldlM_append] at h ⊢
  cases hpre : pre.foldlM step s with
  | error e =>
      rw [hpre] at h
      cases h
  | ok s₁ =>
      rw [hpre] at h
      simp only [List.foldlM_cons] at h ⊢
      have hassoc : ∀ x y : α, (step s₁ x >>= fun t => step t y >>= fun t => post.foldlM step t) =
          ((step s₁ x >>= (step · y)) >>= fun t => post.foldlM step t) :=
        fun x y => (bind_assoc _ _ _).symm
      change (step s₁ a >>= fun t => step t b >>= fun t => post.foldlM step t) = .ok s' at h
      change (step s₁ b >>= fun t => step t a >>= fun t => post.foldlM step t) = .ok s'
      rw [hassoc] at h ⊢
      cases hab : step s₁ a >>= (step · b) with
      | error e =>
          rw [hab] at h
          cases h
      | ok s₂ =>
          rw [hab] at h
          rw [hcomm s₁ s₂ hab]
          exact h

end Ntloader.Lib
