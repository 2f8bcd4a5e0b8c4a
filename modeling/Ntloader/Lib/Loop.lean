import Mathlib.Data.List.Basic

/-!
# Loops

A loop with a condition and a body, run for a number of rounds.

* `whileLoop` — the state in which the loop ends, or `none` if it has not ended by then.
* `whileRounds` — the states in front of its rounds.
* `whileLoop_rule` — an invariant that counts the rounds left: the loop ends, and the invariant holds
  in front of each round and at the end.
-/

namespace Ntloader.Lib

variable {σ : Type}

/-- The state in which a loop ends. -/
def whileLoop (cond : σ → Bool) (body : σ → σ) : ℕ → σ → Option σ
  | 0, _ => none
  | fuel + 1, s => if cond s then whileLoop cond body fuel (body s) else some s

/-- The states in front of the rounds of a loop. -/
def whileRounds (cond : σ → Bool) (body : σ → σ) : ℕ → σ → List σ
  | 0, _ => []
  | fuel + 1, s => if cond s then s :: whileRounds cond body fuel (body s) else []

/-- A loop whose invariant says how many rounds are left at most. -/
theorem whileLoop_rule {cond : σ → Bool} {body : σ → σ} {inv : ℕ → σ → Prop}
    (hbody : ∀ n s, inv n s → cond s = true → ∃ m < n, inv m (body s)) {n fuel : ℕ} {s : σ}
    (h : inv n s) (hfuel : n < fuel) :
    (∃ s' m, whileLoop cond body fuel s = some s' ∧ inv m s' ∧ cond s' = false) ∧
      ∀ t ∈ whileRounds cond body fuel s, ∃ m, inv m t ∧ cond t = true := by
  induction fuel generalizing n s with
  | zero => exact absurd hfuel (Nat.not_lt_zero n)
  | succ fuel ih =>
      rw [whileLoop, whileRounds]
      by_cases hs : cond s = true
      · rw [if_pos hs, if_pos hs]
        obtain ⟨m, hm, hinv⟩ := hbody n s h hs
        obtain ⟨hend, hrounds⟩ := ih hinv (Nat.lt_of_lt_of_le hm (Nat.le_of_lt_succ hfuel))
        refine ⟨hend, ?_⟩
        intro t ht
        rcases List.mem_cons.mp ht with rfl | ht
        · exact ⟨n, h, hs⟩
        · exact hrounds t ht
      · rw [if_neg hs, if_neg hs]
        exact ⟨⟨s, n, rfl, h, Bool.eq_false_iff.mpr hs⟩, fun t ht => absurd ht List.not_mem_nil⟩

end Ntloader.Lib
