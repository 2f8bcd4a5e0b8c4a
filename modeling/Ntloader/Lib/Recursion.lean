import Mathlib.Data.Set.Finite.Basic
import Mathlib.Data.Fintype.Card
import Mathlib.Logic.Relation
import Mathlib.Order.WellFounded
import Mathlib.Order.Preorder.Finite
import Mathlib.Data.Finite.Prod

/-!
# Recursion over a finite graph

A recursive function with a relation `calls` between the arguments of a call and those of the calls
it makes. Its calls end exactly below the accessible arguments.

* `acc_iff_noCycle` — if a call can lead to finitely many arguments only, then all that it makes end
  exactly if none of them leads to itself.
-/

namespace Ntloader.Lib

open Relation

variable {α : Type} {calls : α → α → Prop}

/-- What an accessible argument leads to is accessible. -/
theorem acc_of_reflTransGen {a b : α} (h : Acc (fun x y => calls y x) a)
    (hab : ReflTransGen calls a b) : Acc (fun x y => calls y x) b := by
  induction hab with
  | refl => exact h
  | tail _ hbc ih => exact ih.inv hbc

/-- An accessible argument does not lead to itself. -/
theorem not_transGen_of_acc {a : α} (h : Acc (fun x y => calls y x) a) : ¬TransGen calls a a := by
  induction h with
  | intro a _ ih =>
      intro hcycle
      obtain ⟨b, hab, hba⟩ := TransGen.head'_iff.mp hcycle
      exact ih b hab (TransGen.tail' hba hab)

/-- Over finitely many calls, recursion is well founded exactly without a cycle. -/
theorem acc_iff_noCycle {a : α} (hfin : {b | ReflTransGen calls a b}.Finite) :
    Acc (fun x y => calls y x) a ↔ ∀ b, ReflTransGen calls a b → ¬TransGen calls b b := by
  constructor
  · intro h b hab
    exact not_transGen_of_acc (acc_of_reflTransGen h hab)
  · intro h
    have hfinite : Finite {b // ReflTransGen calls a b} := hfin
    let below : {b // ReflTransGen calls a b} → {b // ReflTransGen calls a b} → Prop :=
      fun x y => TransGen calls y.1 x.1
    have htrans : IsTrans _ below := ⟨fun _ _ _ hxy hyz => hyz.trans hxy⟩
    have hirrefl : Std.Irrefl below := ⟨fun x hx => h x.1 x.2 hx⟩
    have hwf : WellFounded below := Finite.wellFounded_of_trans_of_irrefl below
    have hall : ∀ x : {b // ReflTransGen calls a b}, Acc (fun x y => calls y x) x.1 := by
      intro x
      induction x using hwf.induction with
      | _ x ih =>
          refine Acc.intro _ fun y hxy => ?_
          exact ih ⟨y, x.2.tail hxy⟩ (TransGen.single hxy)
    exact hall ⟨a, ReflTransGen.refl⟩

end Ntloader.Lib
