import Ntloader.Lib.Memory

/-!
# Computations with their accesses

A computation on a memory that may fail, together with the runs of bytes that it accesses. The
accesses of a sequence are those of its first part and, if that succeeds, those of the rest.

* `Traced` — a result and the accesses; a monad.
* `Traced.value_bind` — results are composed as if there were no accesses.
* `Traced.allOf` — tests joined by "and".
* `Traced.Within`, `Traced.within_bind`, `Traced.within_bind_iff` — all bytes accessed lie in front
  of a bound.
-/

namespace Ntloader.Lib

/-- Runs of bytes, each given by its address and its length. -/
abbrev Accesses := List (ℕ × ℕ)

/-- All bytes of the runs lie in front of a bound. -/
def Accesses.Within (size : ℕ) (acc : Accesses) : Prop := ∀ s ∈ acc, ∀ i < s.2, s.1 + i < size

/-- Accesses one behind the other lie inside exactly if both lists do. -/
theorem Accesses.within_append {size : ℕ} {xs ys : Accesses} :
    Accesses.Within size (xs ++ ys) ↔ Accesses.Within size xs ∧ Accesses.Within size ys := by
  simp only [Within, List.mem_append, or_imp, forall_and]

/-- No accesses lie inside. -/
theorem Accesses.within_nil (size : ℕ) : Accesses.Within size [] := nofun

/-- Accesses lie inside exactly if the first and the others do. -/
theorem Accesses.within_cons {size a n : ℕ} {acc : Accesses} :
    Accesses.Within size ((a, n) :: acc) ↔ (∀ i < n, a + i < size) ∧ Accesses.Within size acc := by
  simp only [Within, List.mem_cons, or_imp, forall_and, forall_eq]

/-- The result of a computation and what it has accessed. -/
structure Traced (ε α : Type) where
  value : Except ε α
  accesses : Accesses

namespace Traced

variable {ε α β : Type}

/-- The rest of a sequence, if there is one. -/
def bind (x : Traced ε α) (f : α → Traced ε β) : Traced ε β :=
  match x.value with
  | .error e => ⟨.error e, x.accesses⟩
  | .ok a => ⟨(f a).value, x.accesses ++ (f a).accesses⟩

instance : Monad (Traced ε) where
  pure a := ⟨.ok a, []⟩
  bind := bind

/-- Fail without an access. -/
def fail (e : ε) : Traced ε α := ⟨.error e, []⟩

/-- Fail if a condition holds. -/
def refuse (c : Prop) [Decidable c] (e : ε) : Traced ε Unit := if c then fail e else pure ()

/-- Read a number. -/
def read (m : Mem) (a n : ℕ) : Traced ε ℕ := ⟨.ok (m.word a n), [(a, n)]⟩

/-- Access bytes whose value is not used. -/
def touch (a n : ℕ) : Traced ε Unit := ⟨.ok (), [(a, n)]⟩

/-- Tests joined by "and": none is made behind one that fails. -/
def allOf : List (Traced ε Bool) → Traced ε Bool
  | [] => pure true
  | t :: ts => do
      if ← t then allOf ts else return false

/-- Equation lemma: the value of a result, -/
@[simp] theorem value_pure (a : α) : (pure a : Traced ε α).value = .ok a := rfl

/-- of an error, -/
@[simp] theorem value_fail (e : ε) : (fail e : Traced ε α).value = .error e := rfl

/-- of a read, -/
@[simp] theorem value_read (m : Mem) (a n : ℕ) : (read m a n : Traced ε ℕ).value = .ok (m.word a n) :=
  rfl

/-- of an access without a value, -/
@[simp] theorem value_touch (a n : ℕ) : (touch a n : Traced ε Unit).value = .ok () := rfl

/-- of a sequence, -/
@[simp] theorem value_bind (x : Traced ε α) (f : α → Traced ε β) :
    (x >>= f).value = x.value >>= fun a => (f a).value := by
  rcases x with ⟨_ | a, acc⟩
  · rfl
  · rfl

/-- of a read and the rest, -/
@[simp] theorem value_read_bind (m : Mem) (a n : ℕ) (f : ℕ → Traced ε β) :
    (read m a n >>= f).value = (f (m.word a n)).value := rfl

/-- of an access and the rest, -/
@[simp] theorem value_touch_bind (a n : ℕ) (f : Unit → Traced ε β) :
    (touch a n >>= f).value = (f ()).value := rfl

/-- and of a refusal and the rest. -/
theorem value_refuse_bind (c : Prop) [Decidable c] (e : ε) (f : Unit → Traced ε β) :
    (refuse c e >>= f).value = if c then .error e else (f ()).value := by
  rw [refuse]
  by_cases h : c
  · rw [if_pos h, if_pos h]
    rfl
  · rw [if_neg h, if_neg h]
    rfl

/-- A sequence whose first part gives a value. -/
theorem value_bind_of_ok {x : Traced ε α} {a : α} (h : x.value = .ok a) (f : α → Traced ε β) :
    (x >>= f).value = (f a).value := by
  rw [value_bind, h]
  rfl

/-! ## Accesses in front of a bound -/

/-- All bytes that a computation accesses lie in front of a bound. -/
def Within (size : ℕ) (x : Traced ε α) : Prop := Accesses.Within size x.accesses

variable {size : ℕ}

/-- A result accesses nothing, -/
theorem within_pure (a : α) : Within size (pure a : Traced ε α) := Accesses.within_nil _

/-- nor does an error, -/
theorem within_fail (e : ε) : Within size (fail e : Traced ε α) := Accesses.within_nil _

/-- nor a refusal. -/
theorem within_refuse (c : Prop) [Decidable c] (e : ε) : Within size (refuse c e) := by
  rw [refuse]
  by_cases h : c
  · rw [if_pos h]
    exact within_fail e
  · rw [if_neg h]
    exact within_pure ()

/-- A read inside, -/
theorem within_read {m : Mem} {a n : ℕ} (h : a + n ≤ size) :
    Within size (read m a n : Traced ε ℕ) := by
  refine Accesses.within_cons.mpr ⟨fun i hi => ?_, Accesses.within_nil _⟩
  omega

/-- and an access inside. -/
theorem within_touch {a n : ℕ} (h : n ≠ 0 → a + n ≤ size) :
    Within size (touch a n : Traced ε Unit) := by
  refine Accesses.within_cons.mpr ⟨fun i hi => ?_, Accesses.within_nil _⟩
  have hn := h (by omega)
  omega

/-- The rest of a sequence need only be looked at for a value that its first part can give. -/
theorem within_bind {x : Traced ε α} {f : α → Traced ε β} (hx : Within size x)
    (hf : ∀ a, x.value = .ok a → Within size (f a)) : Within size (x >>= f) := by
  rcases x with ⟨e | a, acc⟩
  · exact hx
  · exact Accesses.within_append.mpr ⟨hx, hf a rfl⟩

/-- The first part of a sequence is run in any case. -/
theorem within_of_within_bind {x : Traced ε α} {f : α → Traced ε β} (h : Within size (x >>= f)) :
    Within size x := by
  rcases x with ⟨e | a, acc⟩
  · exact h
  · exact (Accesses.within_append.mp h).1

/-- A sequence after a read. -/
theorem within_read_bind {m : Mem} {a n : ℕ} {f : ℕ → Traced ε β} (h : a + n ≤ size)
    (hf : Within size (f (m.word a n))) : Within size (read m a n >>= f) := by
  refine within_bind (within_read h) fun v hv => ?_
  cases hv
  exact hf

/-- A sequence after a refusal that does not happen. -/
theorem within_refuse_bind {c : Prop} [Decidable c] {e : ε} {f : Unit → Traced ε β}
    (hf : ¬c → Within size (f ())) : Within size (refuse c e >>= f) := by
  refine within_bind (within_refuse c e) fun u hu => hf fun hc => ?_
  rw [refuse, if_pos hc] at hu
  cases hu

/-- The accesses of a sequence are those of its parts. -/
theorem within_bind_iff {x : Traced ε α} {a : α} (h : x.value = .ok a) {f : α → Traced ε β} :
    Within size (x >>= f) ↔ Within size x ∧ Within size (f a) := by
  rcases x with ⟨e | b, acc⟩
  · cases h
  · cases h
    exact Accesses.within_append

/-- An access lies inside exactly if it is empty or ends inside. -/
theorem within_touch_iff {a n : ℕ} :
    Within size (touch a n : Traced ε Unit) ↔ (n ≠ 0 → a + n ≤ size) := by
  refine ⟨fun h hn => ?_, within_touch⟩
  have hlast := h (a, n) List.mem_cons_self (n - 1) (by omega)
  dsimp only at hlast
  omega

/-- An access and the rest lie inside exactly if both do. -/
theorem within_touch_bind_iff {a n : ℕ} {f : Unit → Traced ε β} :
    Within size (touch a n >>= f) ↔ (n ≠ 0 → a + n ≤ size) ∧ Within size (f ()) :=
  (within_bind_iff rfl).trans (and_congr_left' within_touch_iff)

/-- A read and the rest lie inside exactly if the read does, and the rest for the word that is read. -/
theorem within_read_bind_iff {m : Mem} {a n : ℕ} {f : ℕ → Traced ε β} (hn : n ≠ 0) :
    Within size (read m a n >>= f) ↔ a + n ≤ size ∧ Within size (f (m.word a n)) := by
  have htouch : Within size (read m a n : Traced ε ℕ) ↔ a + n ≤ size :=
    (@within_touch_iff ε size a n).trans (forall_prop_of_true hn)
  exact (within_bind_iff rfl).trans (and_congr_left' htouch)

/-- What is not refused lies inside exactly if the rest does. -/
theorem within_refuse_bind_iff {c : Prop} [Decidable c] (hc : ¬c) {e : ε} {f : Unit → Traced ε β} :
    Within size (refuse c e >>= f) ↔ Within size (f ()) := by
  rw [refuse, if_neg hc, within_bind_iff rfl]
  exact and_iff_right (within_pure ())

/-- What the tests joined access is what each of them accesses. -/
theorem within_allOf {ts : List (Traced ε Bool)} (h : ∀ t ∈ ts, Within size t) :
    Within size (allOf ts) := by
  induction ts with
  | nil => exact within_pure true
  | cons t ts ih =>
      refine within_bind (h t List.mem_cons_self) fun b _ => ?_
      cases b with
      | false => exact within_pure false
      | true => exact ih fun u hu => h u (List.mem_cons_of_mem t hu)

/-- The first of the tests joined is made in any case. -/
theorem within_of_within_allOf_cons {t : Traced ε Bool} {ts : List (Traced ε Bool)}
    (h : Within size (allOf (t :: ts))) : Within size t := within_of_within_bind h

end Traced

end Ntloader.Lib
