import Ntloader.Lib.Memory

/-!
# Images in memory

An image is made of runs of bytes, each at its address. It is linked at one address and loaded at
another: words of it that are addresses have the difference added to them.

* `Mem.storeAll` — runs of bytes, stored one after the other; `storeAll_of_last` — a run is kept if no
  later one overlaps it.
* `structBytes` — the fields of a structure; `Mem.word_structBytes`, `Mem.bytes_flatMap` — a field,
  and one of several structures, are read back.
* `Mem.adjust` — one word; `Mem.adjustAll` — a list of words, each an address and a number of bytes.
* `Apart`, `Within` — words that do not overlap; the bytes of a word.
* `adjustAll_of_mem`, `adjustAll_of_not_mem` — what is at an address behind that, whatever the order
  of the words.
* `adjustAll_moved` — an image and its copy elsewhere, with the same words in another order, are
  still the same behind that.
-/

namespace Ntloader.Lib

/-! ## Runs of bytes -/

namespace Mem

/-- Store runs of bytes, one after the other. -/
def storeAll (runs : List (ℕ × List UInt8)) (m : Mem) : Mem :=
  runs.foldl (fun m r => m.store r.1 r.2) m

variable {m : Mem} {runs : List (ℕ × List UInt8)} {x : ℕ}

/-- The first bytes of more. -/
theorem take_bytes {a k n : ℕ} (h : k ≤ n) : (m.bytes a n).take k = m.bytes a k := by
  obtain ⟨j, rfl⟩ := Nat.exists_eq_add_of_le h
  rw [bytes_add, List.take_left' (bytes_length m a k)]

/-- Runs are stored one list behind the other. -/
theorem storeAll_append (runs runs' : List (ℕ × List UInt8)) (m : Mem) :
    m.storeAll (runs ++ runs') = (m.storeAll runs).storeAll runs' :=
  List.foldl_append

/-- What is outside of all runs is left. -/
theorem storeAll_of_not_mem (h : ∀ r ∈ runs, x < r.1 ∨ r.1 + r.2.length ≤ x) :
    m.storeAll runs x = m x := by
  induction runs generalizing m with
  | nil => rfl
  | cons r runs ih =>
      have hrest := ih (m := m.store r.1 r.2) fun t ht => h t (List.mem_cons_of_mem r ht)
      exact hrest.trans (store_of_not_mem m (h r List.mem_cons_self))

/-- **A run is kept** where none of those behind it in the list is stored. -/
theorem storeAll_of_last {r : ℕ × List UInt8} {later : List (ℕ × List UInt8)} (hle : r.1 ≤ x)
    (hlt : x < r.1 + r.2.length) (h : ∀ t ∈ later, x < t.1 ∨ t.1 + t.2.length ≤ x) :
    m.storeAll (runs ++ r :: later) x = r.2.getD (x - r.1) 0 := by
  rw [storeAll_append]
  have hlater := storeAll_of_not_mem (m := (m.storeAll runs).store r.1 r.2) h
  exact hlater.trans (store_of_mem _ hle hlt)

/-- A run is kept if the runs do not overlap. -/
theorem storeAll_of_mem {r : ℕ × List UInt8}
    (hapart : runs.Pairwise fun s t => s.1 + s.2.length ≤ t.1 ∨ t.1 + t.2.length ≤ s.1)
    (hr : r ∈ runs) (hle : r.1 ≤ x) (hlt : x < r.1 + r.2.length) :
    m.storeAll runs x = r.2.getD (x - r.1) 0 := by
  obtain ⟨front, later, rfl⟩ := List.append_of_mem hr
  refine storeAll_of_last hle hlt fun t ht => ?_
  have hdisjoint := List.rel_of_pairwise_cons (List.pairwise_append.mp hapart).2.1 ht
  omega

end Mem

/-! ## Structures -/

/-- The fields of a structure, each given by its length and its value. -/
def structBytes (fields : List (ℕ × ℕ)) : List UInt8 := fields.flatMap fun f => leBytes f.1 f.2

/-- Structures one behind the other. -/
theorem structBytes_append (fields fields' : List (ℕ × ℕ)) :
    structBytes (fields ++ fields') = structBytes fields ++ structBytes fields' :=
  List.flatMap_append

/-- The length of a structure is the sum of its fields'. -/
@[simp] theorem structBytes_length (fields : List (ℕ × ℕ)) :
    (structBytes fields).length = (fields.map Prod.fst).sum := by
  simp [structBytes, List.length_flatMap]

/-- **A field is read back**, at the sum of the lengths in front of it. -/
theorem Mem.word_structBytes {m : Mem} {a o i n v : ℕ} {fields : List (ℕ × ℕ)}
    (h : m.bytes a (structBytes fields).length = structBytes fields)
    (hi : fields[i]? = some (n, v)) (ho : ((fields.take i).map Prod.fst).sum = o) :
    m.word (a + o) n = v % 256 ^ n := by
  obtain ⟨hlt, hfield⟩ := List.getElem?_eq_some_iff.mp hi
  have hsplit : structBytes fields = structBytes (fields.take i) ++
      (leBytes n v ++ structBytes (fields.drop (i + 1))) := by
    conv_lhs => rw [← List.take_append_drop i fields, structBytes_append,
      List.drop_eq_getElem_cons hlt, hfield]
    rfl
  rw [hsplit] at h
  have hvalue := (bytes_append_iff.mp (bytes_append_iff.mp h).2).1
  rw [structBytes_length, leBytes_length, ho] at hvalue
  rw [word, hvalue, leNat_leBytes]

/-- One of several structures of one length. -/
theorem Mem.bytes_flatMap {α : Type} {m : Mem} {a w : ℕ} {f : α → List UInt8} {l : List α}
    (hw : ∀ x ∈ l, (f x).length = w) (h : m.bytes a (l.flatMap f).length = l.flatMap f) {i : ℕ}
    (hi : i < l.length) : m.bytes (a + w * i) w = f l[i] := by
  induction l generalizing a i with
  | nil => exact absurd hi (Nat.not_lt_zero i)
  | cons x l ih =>
      rw [List.flatMap_cons] at h
      obtain ⟨hx, hl⟩ := bytes_append_iff.mp h
      have hwx := hw x List.mem_cons_self
      rw [hwx] at hx hl
      cases i with
      | zero => exact hx
      | succ i =>
          have hrest := ih (fun y hy => hw y (List.mem_cons_of_mem x hy)) hl
            (Nat.lt_of_succ_lt_succ hi)
          rw [List.getElem_cons_succ, ← hrest]
          congr 1
          ring

/-! ## Words that move -/

/-- Two words do not overlap. -/
def Apart (s t : ℕ × ℕ) : Prop := s.1 + s.2 ≤ t.1 ∨ t.1 + t.2 ≤ s.1

/-- An address is that of a byte of a word. -/
def Within (x : ℕ) (s : ℕ × ℕ) : Prop := s.1 ≤ x ∧ x < s.1 + s.2

/-- Ranges are apart from each other. -/
theorem Apart.symm {s t : ℕ × ℕ} (h : Apart s t) : Apart t s := Or.symm h

instance (s t : ℕ × ℕ) : Decidable (Apart s t) := inferInstanceAs (Decidable (_ ∨ _))

instance (x : ℕ) (s : ℕ × ℕ) : Decidable (Within x s) := inferInstanceAs (Decidable (_ ∧ _))

/-- A byte is that of one word only. -/
theorem Apart.not_within {s t : ℕ × ℕ} (h : Apart s t) {x : ℕ} (hx : Within x s) : ¬Within x t := by
  rintro ⟨hle, hlt⟩
  obtain ⟨hle', hlt'⟩ := hx
  rcases h with h | h <;> omega

namespace Mem

/-- Add to a word. -/
def adjust (delta : ℕ) (m : Mem) (s : ℕ × ℕ) : Mem := m.putWord s.1 s.2 (m.word s.1 s.2 + delta)

/-- Add to words, one after the other. -/
def adjustAll (delta : ℕ) (sites : List (ℕ × ℕ)) (m : Mem) : Mem := sites.foldl (adjust delta) m

variable {delta : ℕ} {m m' : Mem} {s : ℕ × ℕ} {sites sites' : List (ℕ × ℕ)} {x : ℕ}

/-- A byte of the word is one of the sum, -/
theorem adjust_of_within (h : Within x s) :
    m.adjust delta s x = (leBytes s.2 (m.word s.1 s.2 + delta)).getD (x - s.1) 0 := by
  obtain ⟨hle, hlt⟩ := h
  rw [adjust, putWord, store_of_mem m hle (by rwa [leBytes_length])]

/-- and any other is left. -/
theorem adjust_of_not_within (h : ¬Within x s) : m.adjust delta s x = m x := by
  rw [Within, not_and_or, not_le, not_lt] at h
  rw [adjust, putWord_of_not_mem m h]

/-- A word is left by what is added to another one. -/
theorem word_adjust_of_apart {t : ℕ × ℕ} (h : Apart s t) :
    (m.adjust delta s).word t.1 t.2 = m.word t.1 t.2 := by
  refine word_congr fun i hi => adjust_of_not_within fun hx => ?_
  exact h.not_within hx ⟨Nat.le_add_right _ _, Nat.add_lt_add_left hi _⟩

/-- A byte in none of the words is left. -/
theorem adjustAll_of_not_mem (h : ∀ s ∈ sites, ¬Within x s) : m.adjustAll delta sites x = m x := by
  induction sites generalizing m with
  | nil => rfl
  | cons s sites ih =>
      have hrest := ih (m := m.adjust delta s) fun t ht => h t (List.mem_cons_of_mem s ht)
      exact hrest.trans (adjust_of_not_within (h s List.mem_cons_self))

/-- **A byte of one of the words** is that of the sum. -/
theorem adjustAll_of_mem (hapart : sites.Pairwise Apart) (hs : s ∈ sites) (hx : Within x s) :
    m.adjustAll delta sites x =
      (leBytes s.2 (m.word s.1 s.2 + delta)).getD (x - s.1) 0 := by
  induction sites generalizing m with
  | nil => exact absurd hs List.not_mem_nil
  | cons t sites ih =>
      obtain ⟨ht, hapart⟩ := List.pairwise_cons.mp hapart
      rcases List.mem_cons.mp hs with rfl | hs
      · -- the words behind it are elsewhere
        have hrest : (m.adjust delta s).adjustAll delta sites x = m.adjust delta s x :=
          adjustAll_of_not_mem fun t' ht' => (ht t' ht').not_within hx
        exact hrest.trans (adjust_of_within hx)
      · have hrest := ih (m := m.adjust delta t) hapart hs
        rw [word_adjust_of_apart (ht s hs)] at hrest
        exact hrest

/-- **An image and its copy.** Where two memories agree on a set of offsets, from one address and from
another, they agree on it behind the adjustment of the same words, in whatever order. -/
theorem adjustAll_moved {a b : ℕ} {inside : ℕ → Prop} {offsets : List (ℕ × ℕ)}
    (hagree : ∀ o, inside o → m (a + o) = m' (b + o))
    (hapart : offsets.Pairwise Apart) (hinside : ∀ s ∈ offsets, ∀ i < s.2, inside (s.1 + i))
    (hsites : sites = offsets.map fun s => (a + s.1, s.2))
    (hperm : sites'.Perm (offsets.map fun s => (b + s.1, s.2))) {o : ℕ} (ho : inside o) :
    m.adjustAll delta sites (a + o) = m'.adjustAll delta sites' (b + o) := by
  have hmoved : ∀ c, (offsets.map fun s => (c + s.1, s.2)).Pairwise Apart := by
    intro c
    refine List.pairwise_map.mpr (hapart.imp fun {s t} h => ?_)
    rcases h with h | h
    · exact .inl (by omega)
    · exact .inr (by omega)
  have hapart' : sites'.Pairwise Apart := hperm.symm.pairwise (hmoved b) Apart.symm
  subst hsites
  by_cases hex : ∃ s ∈ offsets, Within o s
  · obtain ⟨s, hs, hle, hlt⟩ := hex
    have hword : m.word (a + s.1) s.2 = m'.word (b + s.1) s.2 := by
      refine word_congr fun i hi => ?_
      rw [Nat.add_assoc, Nat.add_assoc]
      exact hagree _ (hinside s hs i hi)
    have ha : (a + s.1, s.2) ∈ offsets.map fun s => (a + s.1, s.2) := List.mem_map_of_mem hs
    have hb : (b + s.1, s.2) ∈ sites' := hperm.mem_iff.mpr (List.mem_map_of_mem hs)
    rw [adjustAll_of_mem (hmoved a) ha ⟨Nat.add_le_add_left hle a, by dsimp only; omega⟩,
      adjustAll_of_mem hapart' hb ⟨Nat.add_le_add_left hle b, by dsimp only; omega⟩]
    dsimp only
    rw [hword, Nat.add_sub_add_left, Nat.add_sub_add_left]
  · push Not at hex
    have hout : ∀ c, ∀ t ∈ offsets.map fun s => (c + s.1, s.2), ¬Within (c + o) t := by
      intro c t ht
      obtain ⟨s, hs, rfl⟩ := List.mem_map.mp ht
      rintro ⟨hle, hlt⟩
      exact hex s hs ⟨by dsimp only at hle; omega, by dsimp only at hlt; omega⟩
    rw [adjustAll_of_not_mem (hout a),
      adjustAll_of_not_mem fun t ht => hout b t (hperm.mem_iff.mp ht)]
    exact hagree o ho

end Mem

end Ntloader.Lib
