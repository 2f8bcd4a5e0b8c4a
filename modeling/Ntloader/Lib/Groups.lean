import Mathlib.Tactic
import Mathlib.Data.List.Count
import Mathlib.Data.List.Perm.Basic

/-!
# Pairs collected by key

A list of groups holds the values collected under each key. A value goes to the end of its key's
group, and a key that has no group yet gets one in front of the others.

* `addTo` — collecting one pair; `collect` — collecting a list of them.
* `collect_pairs` — nothing is lost or made up; `collect_keys_nodup` — no key has two groups.
-/

namespace Ntloader.Lib

variable {κ β : Type*}

/-- The keys, a group each. -/
def groupKeys (gs : List (κ × List β)) : List κ := gs.map Prod.fst

/-- The pairs that have been collected. -/
def groupPairs (gs : List (κ × List β)) : List (κ × β) := gs.flatMap fun g => g.2.map (g.1, ·)

/-- Equation lemma: the pairs of the first group come first. -/
theorem groupPairs_cons (g : κ × List β) (gs : List (κ × List β)) :
    groupPairs (g :: gs) = g.2.map (g.1, ·) ++ groupPairs gs := List.flatMap_cons

/-- A member of a group makes a pair with its key. -/
theorem mem_groupPairs {gs : List (κ × List β)} {g : κ × List β} {b : β} (hg : g ∈ gs)
    (hb : b ∈ g.2) : (g.1, b) ∈ groupPairs gs :=
  List.mem_flatMap.mpr ⟨g, hg, List.mem_map.mpr ⟨b, hb, rfl⟩⟩

variable [DecidableEq κ]

/-- A value at the end of the group of its key, if there is one. -/
def addWithin (k : κ) (b : β) : List (κ × List β) → Option (List (κ × List β))
  | [] => none
  | g :: gs => if g.1 = k then some ((g.1, g.2 ++ [b]) :: gs) else (addWithin k b gs).map (g :: ·)

/-- A value at the end of the group of its key, which is a new one in front if there is none. -/
def addTo (k : κ) (b : β) (gs : List (κ × List β)) : List (κ × List β) :=
  (addWithin k b gs).getD ((k, [b]) :: gs)

/-- Collect pairs, one after the other. -/
def collect (calls : List (κ × β)) (gs : List (κ × List β)) : List (κ × List β) :=
  calls.foldl (fun gs c => addTo c.1 c.2 gs) gs

/-! ## One pair -/

/-- The key has no group. -/
theorem addWithin_eq_none {k : κ} {b : β} {gs : List (κ × List β)} :
    addWithin k b gs = none ↔ k ∉ groupKeys gs := by
  induction gs with
  | nil => exact ⟨fun _ => List.not_mem_nil, fun _ => rfl⟩
  | cons g gs ih =>
      rw [addWithin, groupKeys, List.map_cons, List.mem_cons, not_or, ← groupKeys]
      by_cases hk : g.1 = k
      · rw [if_pos hk]
        exact ⟨nofun, fun h => absurd hk.symm h.1⟩
      · rw [if_neg hk, Option.map_eq_none_iff, ih]
        exact ⟨fun h => ⟨Ne.symm hk, h⟩, And.right⟩

/-- What becomes of the groups if the key has one. -/
theorem addWithin_some {k : κ} {b : β} {gs gs' : List (κ × List β)}
    (h : addWithin k b gs = some gs') :
    groupKeys gs' = groupKeys gs ∧ (groupPairs gs').Perm ((k, b) :: groupPairs gs) := by
  induction gs generalizing gs' with
  | nil => cases h
  | cons g gs ih =>
      rw [addWithin] at h
      by_cases hk : g.1 = k
      · rw [if_pos hk] at h
        obtain rfl := Option.some.inj h
        refine ⟨rfl, ?_⟩
        rw [groupPairs_cons, groupPairs_cons, List.map_append, List.map_singleton, hk,
          List.append_assoc, List.singleton_append]
        exact List.perm_middle
      · rw [if_neg hk] at h
        obtain ⟨gs'', hgs, rfl⟩ := Option.map_eq_some_iff.mp h
        obtain ⟨hkeys, hpairs⟩ := ih hgs
        refine ⟨?_, ?_⟩
        · rw [groupKeys, List.map_cons, ← groupKeys, hkeys]
          rfl
        · rw [groupPairs_cons, groupPairs_cons]
          exact (hpairs.append_left _).trans List.perm_middle

/-- **Nothing is lost or made up.** -/
theorem addTo_pairs (k : κ) (b : β) (gs : List (κ × List β)) :
    (groupPairs (addTo k b gs)).Perm ((k, b) :: groupPairs gs) := by
  rw [addTo]
  cases h : addWithin k b gs with
  | none => exact List.Perm.refl _
  | some gs' => exact (addWithin_some h).2

/-- No key gets a second group. -/
theorem addTo_keys_nodup {k : κ} {b : β} {gs : List (κ × List β)} (hgs : (groupKeys gs).Nodup) :
    (groupKeys (addTo k b gs)).Nodup := by
  rw [addTo]
  cases h : addWithin k b gs with
  | none => exact List.nodup_cons.mpr ⟨addWithin_eq_none.mp h, hgs⟩
  | some gs' =>
      rw [Option.getD_some, (addWithin_some h).1]
      exact hgs

/-- No key comes from nowhere. -/
theorem mem_addTo_keys {k k' : κ} {b : β} {gs : List (κ × List β)}
    (h : k' ∈ groupKeys (addTo k b gs)) : k' = k ∨ k' ∈ groupKeys gs := by
  rw [addTo] at h
  cases hwithin : addWithin k b gs with
  | none =>
      rw [hwithin] at h
      exact List.mem_cons.mp h
  | some gs' =>
      rw [hwithin, Option.getD_some, (addWithin_some hwithin).1] at h
      exact Or.inr h

/-! ## A list of pairs -/

/-- **What is collected** is what there was and the pairs of the list. -/
theorem collect_pairs (calls : List (κ × β)) (gs : List (κ × List β)) :
    (groupPairs (collect calls gs)).Perm (calls ++ groupPairs gs) := by
  induction calls generalizing gs with
  | nil => exact List.Perm.refl _
  | cons c calls ih =>
      refine (ih (addTo c.1 c.2 gs)).trans ?_
      rw [List.cons_append]
      exact ((addTo_pairs c.1 c.2 gs).append_left calls).trans List.perm_middle

/-- What is collected from nothing on. -/
theorem collect_nil_pairs (calls : List (κ × β)) : (groupPairs (collect calls [])).Perm calls := by
  have hpairs := collect_pairs calls []
  rwa [show groupPairs ([] : List (κ × List β)) = [] from rfl, List.append_nil] at hpairs

/-- **No key has two groups.** -/
theorem collect_keys_nodup (calls : List (κ × β)) {gs : List (κ × List β)}
    (hgs : (groupKeys gs).Nodup) : (groupKeys (collect calls gs)).Nodup := by
  induction calls generalizing gs with
  | nil => exact hgs
  | cons c calls ih => exact ih (addTo_keys_nodup hgs)

/-- The keys of the groups are those of the calls, and those before. -/
theorem mem_collect_keys {k : κ} {calls : List (κ × β)} {gs : List (κ × List β)}
    (h : k ∈ groupKeys (collect calls gs)) : (∃ c ∈ calls, c.1 = k) ∨ k ∈ groupKeys gs := by
  induction calls generalizing gs with
  | nil => exact Or.inr h
  | cons c calls ih =>
      rcases ih h with ⟨c', hc', hk⟩ | hmem
      · exact Or.inl ⟨c', List.mem_cons_of_mem _ hc', hk⟩
      · rcases mem_addTo_keys hmem with rfl | hgs
        · exact Or.inl ⟨c, List.mem_cons_self, rfl⟩
        · exact Or.inr hgs

/-- A group has no more values than its key has been collected. -/
theorem length_le_of_mem {g : κ × List β} {gs : List (κ × List β)} (hg : g ∈ gs) :
    g.2.length ≤ (groupPairs gs).countP (fun c => c.1 = g.1) := by
  induction gs with
  | nil => cases hg
  | cons g' gs ih =>
      rw [groupPairs_cons, List.countP_append]
      rcases List.mem_cons.mp hg with rfl | hg'
      · have hall : (g.2.map (g.1, ·)).countP (fun c => c.1 = g.1) = (g.2.map (g.1, ·)).length := by
          rw [List.countP_eq_length]
          intro c hc
          obtain ⟨b, -, rfl⟩ := List.mem_map.mp hc
          exact decide_eq_true rfl
        rw [hall, List.length_map]
        exact Nat.le_add_right _ _
      · exact (ih hg').trans (Nat.le_add_left _ _)

end Ntloader.Lib
