import Mathlib.Data.Fintype.BigOperators
import Mathlib.Data.Fin.Basic
import Mathlib.Data.Finset.Card
import Mathlib.Order.Interval.Finset.Fin
import Mathlib.Data.List.GetD
import Ntloader.Huffman.Alphabet
import Ntloader.Lib.Canonical

/-!
# The table `huffman_alphabet` leaves behind

The four passes of the construction, each by one lemma that says what it leaves in the table:

* `countSyms_huf` — the frequency of every length is the number of its symbols;
* `populate_eq` — the lengths start where the canonical code starts them, unless there are too many
  symbols (`hufAt`, `cumAt` are the two running numbers of the loop);
* `fillSym_foldl` — the symbol of rank `r` among those of length `l` stands at `cumAt l + r`;
* `adjustSym_foldl` — the raw pointers are biased, and the quick lookup table names, for each
  prefix, the longest length that starts at or before it.
-/

namespace Ntloader.Huffman

open Ntloader.Lib Finset

/-! ## Code lengths as a function on symbols -/

/-- The code length of a symbol, as the canonical-code library reads it. -/
def lenOf (lengths : List ℕ) (s : Fin lengths.length) : ℕ := lengths[s]

/-- Counting the symbols below `k` that have length `l`. -/
theorem card_filter_lenOf_lt (lengths : List ℕ) (l : ℕ) {k : ℕ} (hk : k ≤ lengths.length) :
    (univ.filter fun s : Fin lengths.length => lenOf lengths s = l ∧ s.val < k).card =
      (lengths.take k).count l := by
  induction k with
  | zero => simp
  | succ k ih =>
      have hlt : k < lengths.length := by omega
      have hstep : (univ.filter fun s : Fin lengths.length => lenOf lengths s = l ∧ s.val < k + 1) =
          (univ.filter fun s : Fin lengths.length => lenOf lengths s = l ∧ s.val < k) ∪
            (univ.filter fun s : Fin lengths.length => lenOf lengths s = l ∧ s.val = k) := by
        ext s
        simp only [mem_filter, mem_univ, true_and, mem_union]
        omega
      have hdisj : Disjoint
          (univ.filter fun s : Fin lengths.length => lenOf lengths s = l ∧ s.val < k)
          (univ.filter fun s : Fin lengths.length => lenOf lengths s = l ∧ s.val = k) := by
        rw [disjoint_filter]
        intro s _ _
        omega
      rw [hstep, card_union_of_disjoint hdisj, ih (by omega), List.take_succ_eq_append_getElem hlt,
        List.count_append]
      congr 1
      by_cases hl : lengths[k] = l
      · have hone : (univ.filter fun s : Fin lengths.length => lenOf lengths s = l ∧ s.val = k) =
            {⟨k, hlt⟩} := by
          ext s
          simp only [mem_filter, mem_univ, true_and, mem_singleton, Fin.ext_iff]
          constructor
          · exact fun h => h.2
          · intro h
            have hs : s = ⟨k, hlt⟩ := Fin.ext h
            subst hs
            exact ⟨hl, rfl⟩
        rw [hone, card_singleton, hl]
        simp
      · have hnone : (univ.filter fun s : Fin lengths.length =>
            lenOf lengths s = l ∧ s.val = k) = ∅ := by
          rw [filter_eq_empty_iff]
          rintro s - ⟨h₁, h₂⟩
          have hs : s = ⟨k, hlt⟩ := Fin.ext h₂
          subst hs
          exact hl h₁
        rw [hnone, card_empty]
        simp [hl]

/-- The number of codes of a length. -/
theorem freq_lenOf (lengths : List ℕ) (l : ℕ) :
    Canonical.freq (lenOf lengths) l = lengths.count l := by
  have h := card_filter_lenOf_lt lengths l le_rfl
  rw [List.take_length] at h
  rw [← h, Canonical.freq]
  congr 1
  ext s
  simp

/-- The rank of a symbol among those of its length. -/
theorem rank_lenOf (lengths : List ℕ) (s : Fin lengths.length) :
    Canonical.rank (lenOf lengths) s = (lengths.take s).count (lenOf lengths s) := by
  rw [← card_filter_lenOf_lt lengths (lenOf lengths s) s.isLt.le, Canonical.rank]
  congr 1

/-- The Kraft sum of a table, taken along the list. -/
theorem kraft_lenOf (lengths : List ℕ) (W : ℕ) :
    Canonical.kraft (lenOf lengths) W =
      (lengths.map fun l => if 0 < l then 2 ^ (W - l) else 0).sum := by
  rw [Canonical.kraft, sum_filter, ← Fin.sum_univ_fun_getElem]
  rfl

/-! ## First pass: counting -/

/-- The loop counts the lengths, -/
theorem countSym_foldl (lengths : List ℕ) (s : HuffmanAlphabet × Bool) (i : ℕ)
    (hs : (s.1.huf i).freq + lengths.length < 2 ^ 16) :
    ((lengths.foldl countSym s).1.huf i) =
      { s.1.huf i with freq := (s.1.huf i).freq + lengths.count (i + 1) } := by
  induction lengths generalizing s with
  | nil => simp
  | cons l lengths ih =>
      rw [List.length_cons] at hs
      rw [List.foldl_cons]
      by_cases hl : l = i + 1
      · subst hl
        have hstep : (countSym s (i + 1)).1.huf i =
            { s.1.huf i with freq := (s.1.huf i).freq + 1 } := by
          simp [countSym, Nat.mod_eq_of_lt (show (s.1.huf i).freq + 1 < 65536 by omega)]
        rw [ih _ (by rw [hstep]; simp only; omega), hstep]
        simp only [List.count_cons_self]
        ext <;> simp
        omega
      · have hstep : (countSym s l).1.huf i = s.1.huf i := by
          by_cases hl0 : l = 0
          · simp [countSym, hl0]
          · simp only [countSym, ne_eq, hl0, not_false_eq_true, if_true]
            exact setSym_huf_of_ne _ (by omega) _
        rw [ih _ (by rw [hstep]; omega), hstep, List.count_cons_of_ne hl]

/-- and tells whether all are zero. -/
theorem countSym_foldl_empty (lengths : List ℕ) (s : HuffmanAlphabet × Bool) :
    (lengths.foldl countSym s).2 = (s.2 && lengths.all (· == 0)) := by
  induction lengths generalizing s with
  | nil => simp
  | cons l lengths ih =>
      rw [List.foldl_cons, ih]
      by_cases hl : l = 0 <;> simp [countSym, hl]

/-- After the first pass every length has the number of its symbols. -/
theorem countSyms_huf (a : HuffmanAlphabet) (lengths : List ℕ) (i : ℕ)
    (hn : lengths.length < 2 ^ 16) :
    (countSyms a lengths).1.huf i = ⟨0, 0, lengths.count (i + 1), 0, 0⟩ := by
  rw [countSyms, countSym_foldl _ _ _ (by simpa using hn)]
  simp

/-- So does the first pass. -/
theorem countSyms_empty (a : HuffmanAlphabet) (lengths : List ℕ) :
    (countSyms a lengths).2 = lengths.all (· == 0) := by
  rw [countSyms, countSym_foldl_empty]
  simp

/-! ## Second pass: laying the lengths out -/

/-- `huf` at the start of the round for length `bits`, for given frequencies. -/
def hufAt (freq : ℕ → ℕ) : ℕ → ℕ
  | 0 => 0
  | 1 => 0
  | bits + 2 => 2 * (hufAt freq (bits + 1) + freq (bits + 1))

/-- `cum_freq` at the start of the round for length `bits`. -/
def cumAt (freq : ℕ → ℕ) : ℕ → ℕ
  | 0 => 0
  | 1 => 0
  | bits + 2 => cumAt freq (bits + 1) + freq (bits + 1)

/-- The first code of the next length, -/
theorem hufAt_succ (freq : ℕ → ℕ) {bits : ℕ} (h : 0 < bits) :
    hufAt freq (bits + 1) = 2 * (hufAt freq bits + freq bits) := by
  obtain ⟨n, rfl⟩ : ∃ n, bits = n + 1 := ⟨bits - 1, by omega⟩
  rfl

/-- and the number of codes up to it. -/
theorem cumAt_succ (freq : ℕ → ℕ) {bits : ℕ} (h : 0 < bits) :
    cumAt freq (bits + 1) = cumAt freq bits + freq bits := by
  obtain ⟨n, rfl⟩ : ∃ n, bits = n + 1 := ⟨bits - 1, by omega⟩
  rfl

/-- The codes of a length come in front of those of greater ones. -/
theorem cumAt_add_le (freq : ℕ → ℕ) {j k : ℕ} (hj : 0 < j) (hjk : j < k) :
    cumAt freq j + freq j ≤ cumAt freq k := by
  induction k with
  | zero => omega
  | succ k ih =>
      rw [cumAt_succ freq (by omega)]
      rcases Nat.lt_succ_iff_lt_or_eq.mp hjk with hlt | rfl
      · exact (ih hlt).trans (Nat.le_add_right _ _)
      · exact le_rfl

/-- The entry of the symbol table for a length, as the second pass leaves it. -/
def entry (freq : ℕ → ℕ) (bits : ℕ) : HuffmanSymbols :=
  ⟨bits, 16 - bits, freq bits, hufAt freq bits * 2 ^ (16 - bits), cumAt freq bits⟩

/-- The second pass, from any length on: it fails iff some length has too many symbols, and
otherwise leaves `entry` for every length it visits. -/
theorem populate_eq (freq : ℕ → ℕ) (k b : ℕ) (hb : 0 < b) (a : HuffmanAlphabet)
    (hfreq : ∀ j, b ≤ j → j < b + k → (a.huf (j - 1)).freq = freq j) :
    populate (List.range' b k) a (hufAt freq b) (cumAt freq b) =
      if ∀ j, b ≤ j → j < b + k → hufAt freq j + freq j ≤ 2 ^ j then
        some ({ a with huf := fun i =>
            if b ≤ i + 1 ∧ i + 1 < b + k then entry freq (i + 1) else a.huf i },
          hufAt freq (b + k))
      else none := by
  induction k generalizing b a with
  | zero =>
      rw [if_pos (by omega)]
      have htab : (fun i => if b ≤ i + 1 ∧ i + 1 < b + 0 then entry freq (i + 1) else a.huf i) =
          a.huf := by
        funext i
        rw [if_neg (by omega)]
      rw [htab]
      rfl
  | succ k ih =>
      rw [List.range'_succ, populate]
      simp only [hfreq b le_rfl (by omega)]
      by_cases hover : hufAt freq b + freq b > 2 ^ b
      · rw [if_pos hover, if_neg]
        intro hall
        exact absurd (hall b le_rfl (by omega)) (by omega)
      · rw [if_neg hover]
        have hentry : (⟨b, huffmanBits - b, freq b, hufAt freq b <<< (huffmanBits - b),
            (cumAt freq b : ℤ)⟩ : HuffmanSymbols) = entry freq b := by
          simp [entry, Nat.shiftLeft_eq]
        have hhuf : (hufAt freq b + freq b) <<< 1 = hufAt freq (b + 1) := by
          rw [hufAt_succ freq hb, Nat.shiftLeft_eq, pow_one, Nat.mul_comm]
        rw [hentry, hhuf, ← cumAt_succ freq hb, ih (b + 1) (by omega)]
        · have hcond : (∀ j, b + 1 ≤ j → j < b + 1 + k → hufAt freq j + freq j ≤ 2 ^ j) ↔
              ∀ j, b ≤ j → j < b + (k + 1) → hufAt freq j + freq j ≤ 2 ^ j := by
            constructor
            · intro h j h₁ h₂
              rcases Nat.eq_or_lt_of_le h₁ with rfl | h₁
              · omega
              · exact h j h₁ (by omega)
            · intro h j h₁ h₂
              exact h j (by omega) (by omega)
          simp only [hcond]
          have htab : (fun i => if b + 1 ≤ i + 1 ∧ i + 1 < b + 1 + k then entry freq (i + 1)
                else (a.setSym (b - 1) (entry freq b)).huf i) =
              fun i => if b ≤ i + 1 ∧ i + 1 < b + (k + 1) then entry freq (i + 1)
                else a.huf i := by
            funext i
            by_cases hi : i + 1 = b
            · rw [if_neg (by omega), if_pos (by omega), show b - 1 = i by omega, setSym_huf_self, hi]
            · rw [setSym_huf_of_ne _ (by omega)]
              by_cases h : b + 1 ≤ i + 1 ∧ i + 1 < b + 1 + k
              · rw [if_pos h, if_pos (by omega)]
              · rw [if_neg h, if_neg (by omega)]
          rw [htab, show b + 1 + k = b + (k + 1) by omega]
          rfl
        · intro j h₁ h₂
          rw [setSym_huf_of_ne _ (by omega)]
          exact hfreq j (by omega) (by omega)

/-! ## Third pass: filing the symbols -/

/-- The third pass over a prefix `xs` of the lengths: every raw pointer has moved past the symbols
filed under its length, and each symbol stands behind the earlier symbols of its length. The
lengths' areas must not overlap, so that no later symbol is written over an earlier one. -/
theorem fillSym_foldl (a : HuffmanAlphabet) (xs ys : List ℕ) (hn : (xs ++ ys).length < 2 ^ 16)
    (hsep : ∀ j k, 0 < j → j < k → k ≤ 16 →
      (a.huf (j - 1)).raw + (xs ++ ys).count j ≤ (a.huf (k - 1)).raw)
    (hle : ∀ l ∈ xs ++ ys, l ≤ 16) :
    (∀ i, (xs.zipIdx.foldl fillSym a).huf i =
      { a.huf i with raw := (a.huf i).raw + xs.count (i + 1) }) ∧
    (∀ s, ∀ h : s < xs.length, xs[s] ≠ 0 →
      (xs.zipIdx.foldl fillSym a).raw ((a.huf (xs[s] - 1)).raw + (xs.take s).count xs[s]) = s) ∧
    (xs.zipIdx.foldl fillSym a).lookup = a.lookup := by
  induction xs using List.reverseRecOn generalizing ys with
  | nil => simp
  | append_singleton xs x ih =>
      have hassoc : xs ++ [x] ++ ys = xs ++ ([x] ++ ys) := List.append_assoc _ _ _
      rw [hassoc] at hn hsep hle
      obtain ⟨ihHuf, ihRaw, ihLookup⟩ := ih ([x] ++ ys) hn hsep hle
      have hxn : xs.length < 65536 := by
        simp only [List.length_append] at hn
        omega
      rw [List.zipIdx_append, List.foldl_append]
      simp only [Nat.zero_add, List.zipIdx_singleton, List.foldl_cons, List.foldl_nil]
      set b := xs.zipIdx.foldl fillSym a with hb
      by_cases hx : x = 0
      · have hstep : fillSym b (x, xs.length) = b := by simp [fillSym, hx]
        rw [hstep]
        refine ⟨fun i => ?_, fun s h hs => ?_, ihLookup⟩
        · rw [ihHuf i, List.count_append, hx]
          simp
        · have hslt : s < xs.length := by
            by_contra hge
            have hseq : s = xs.length := by simp at h; omega
            subst hseq
            simp [hx] at hs
          rw [List.getElem_append_left hslt] at hs ⊢
          rw [List.take_append_of_le_length hslt.le]
          exact ihRaw s hslt hs
      · have hpos : 0 < x := Nat.pos_of_ne_zero hx
        have hx16 : x ≤ 16 := hle x (by simp)
        have hptr : (b.huf (x - 1)).raw = (a.huf (x - 1)).raw + xs.count x := by
          rw [ihHuf (x - 1), Nat.sub_add_cancel hpos]
        have hhuf : ∀ i, (fillSym b (x, xs.length)).huf i = if i = x - 1 then
            { b.huf i with raw := (b.huf i).raw + 1 } else b.huf i := by
          intro i
          by_cases hi : i = x - 1
          · subst hi
            simp [fillSym, hx]
          · simp only [fillSym, ne_eq, hx, not_false_eq_true, if_true, hi, if_false]
            exact setSym_huf_of_ne _ hi _
        have hraw : (fillSym b (x, xs.length)).raw =
            Function.update b.raw ((a.huf (x - 1)).raw + xs.count x) xs.length := by
          simp [fillSym, hx, hptr, Nat.mod_eq_of_lt hxn]
        refine ⟨fun i => ?_, fun s h hs => ?_, ?_⟩
        · rw [hhuf i, ihHuf i, List.count_append]
          by_cases hi : i = x - 1
          · rw [if_pos hi]
            have hxi : x = i + 1 := by omega
            simp [hxi, add_assoc]
          · rw [if_neg hi]
            have hne : x ≠ i + 1 := by omega
            simp [hne]
        · rw [hraw]
          by_cases hslt : s < xs.length
          · rw [List.getElem_append_left hslt] at hs ⊢
            rw [List.take_append_of_le_length hslt.le, Function.update_of_ne, ihRaw s hslt hs]
            -- an earlier symbol stands strictly before the next free place of its own length, and
            -- in another area than `x` if its length is different
            have hrank : (xs.take s).count xs[s] < xs.count xs[s] := by
              have hsplit := congrArg (List.count xs[s]) (List.take_append_drop s xs)
              rw [List.count_append, List.drop_eq_getElem_cons hslt, List.count_cons_self] at hsplit
              omega
            have hmem : xs[s] ∈ xs ++ ([x] ++ ys) := by simp
            have hs16 := hle _ hmem
            have hcount : ∀ l, xs.count l ≤ (xs ++ ([x] ++ ys)).count l := by
              intro l
              rw [List.count_append]
              omega
            rcases lt_trichotomy xs[s] x with hlt | heq | hgt
            · have hs' := hsep _ _ (Nat.pos_of_ne_zero hs) hlt hx16
              have hc := hcount xs[s]
              omega
            · rw [heq] at hrank ⊢
              omega
            · have hs' := hsep _ _ hpos hgt hs16
              have hc : xs.count x + 1 ≤ (xs ++ ([x] ++ ys)).count x := by
                simp only [List.count_append, List.count_singleton_self]
                omega
              omega
          · have hseq : s = xs.length := by simp at h; omega
            subst hseq
            simp
        · simp [fillSym, hx, ihLookup]

/-! ## Fourth pass: the bias and the quick lookup table -/

/-- The quick lookup after a length has been filed. -/
theorem fillLookup_apply (lookup : ℕ → ℕ) (start bits p : ℕ) :
    fillLookup lookup start bits p =
      if start / 2 ^ 9 ≤ p ∧ p < 2 ^ 7 then bits - 1 else lookup p := by
  have hgen : ∀ (n lo : ℕ) (l : ℕ → ℕ),
      (List.range' lo n).foldl (fun l p => Function.update l p (bits - 1)) l p =
        if lo ≤ p ∧ p < lo + n then bits - 1 else l p := by
    intro n
    induction n with
    | zero =>
        intro lo l
        rw [if_neg (by omega)]
        rfl
    | succ n ih =>
        intro lo l
        rw [List.range'_succ, List.foldl_cons, ih]
        by_cases hp : p = lo
        · subst hp
          rw [if_neg (by omega), if_pos (by omega), Function.update_self]
        · rw [Function.update_of_ne hp]
          by_cases h : lo + 1 ≤ p ∧ p < lo + 1 + n
          · rw [if_pos h, if_pos (by omega)]
          · rw [if_neg h, if_neg (by omega)]
  rw [fillLookup, hgen]
  simp only [huffmanBits, huffmanQlBits, huffmanQlShift, Nat.shiftRight_eq_div_pow]
  by_cases h : start / 2 ^ 9 ≤ p ∧ p < 2 ^ 7
  · rw [if_pos h, if_pos (by omega)]
  · rw [if_neg h, if_neg (by omega)]

/-- The bias of one entry. -/
def biased (sym : HuffmanSymbols) : HuffmanSymbols :=
  { sym with raw := sym.raw - sym.freq - (sym.start >>> sym.shift : ℕ) }

/-- An adjustment is for one length only. -/
theorem adjustSym_huf (a : HuffmanAlphabet) (bits i : ℕ) :
    (adjustSym a bits).huf i = if i = bits - 1 then biased (a.huf i) else a.huf i := by
  by_cases hi : i = bits - 1
  · subst hi
    simp [adjustSym, biased]
  · simp only [adjustSym, hi, if_false]
    exact setSym_huf_of_ne _ hi _

/-- The fourth pass up to a length: the entries seen are biased, and the quick lookup table names
the longest length seen that starts at or before the prefix. -/
theorem adjustSym_foldl (a : HuffmanAlphabet) (h1 : (a.huf 0).start = 0) (k : ℕ) :
    (∀ i, ((List.range' 1 (k + 1)).foldl adjustSym a).huf i =
      if i < k + 1 then biased (a.huf i) else a.huf i) ∧
    ((List.range' 1 (k + 1)).foldl adjustSym a).raw = a.raw ∧
    (∀ p < 2 ^ 7, ((List.range' 1 (k + 1)).foldl adjustSym a).lookup p ≤ k ∧
      (a.huf (((List.range' 1 (k + 1)).foldl adjustSym a).lookup p)).start / 2 ^ 9 ≤ p ∧
      ∀ j, ((List.range' 1 (k + 1)).foldl adjustSym a).lookup p < j → j ≤ k →
        p < (a.huf j).start / 2 ^ 9) := by
  induction k with
  | zero =>
      refine ⟨fun i => ?_, rfl, fun p hp => ?_⟩
      · rw [show List.range' 1 1 = [1] from rfl, List.foldl_cons, List.foldl_nil, adjustSym_huf]
        by_cases hi : i = 0
        · rw [if_pos hi, if_pos (by omega)]
        · rw [if_neg hi, if_neg (by omega)]
      · have hl : ((List.range' 1 1).foldl adjustSym a).lookup p = 0 := by
          rw [show List.range' 1 1 = [1] from rfl, List.foldl_cons, List.foldl_nil]
          have hstart : (a.huf 0).start / 2 ^ 9 = 0 := by rw [h1]; rfl
          simp only [adjustSym, fillLookup_apply]
          rw [if_pos ⟨by rw [hstart]; exact Nat.zero_le _, hp⟩]
        rw [hl, h1]
        refine ⟨le_rfl, by omega, fun j h₁ h₂ => by omega⟩
  | succ k ih =>
      obtain ⟨ihHuf, ihRaw, ihLookup⟩ := ih
      rw [List.range'_concat, List.foldl_append, List.foldl_cons, List.foldl_nil, one_mul]
      set b := (List.range' 1 (k + 1)).foldl adjustSym a with hb
      have hsame : b.huf (1 + (k + 1) - 1) = a.huf (k + 1) := by
        rw [ihHuf, if_neg (by omega)]
        congr 1
        omega
      refine ⟨fun i => ?_, ?_, fun p hp => ?_⟩
      · rw [adjustSym_huf, ihHuf]
        by_cases hi : i = k + 1
        · rw [if_pos (by omega), if_neg (by omega), if_pos (by omega)]
        · rw [if_neg (by omega)]
          by_cases hlt : i < k + 1
          · rw [if_pos hlt, if_pos (by omega)]
          · rw [if_neg hlt, if_neg (by omega)]
      · rw [← ihRaw]
        rfl
      · have hl : (adjustSym b (1 + (k + 1))).lookup p =
            if (a.huf (k + 1)).start / 2 ^ 9 ≤ p then k + 1 else b.lookup p := by
          simp only [adjustSym, hsame, fillLookup_apply]
          by_cases h : (a.huf (k + 1)).start / 2 ^ 9 ≤ p
          · rw [if_pos ⟨h, hp⟩, if_pos h]
            omega
          · rw [if_neg (fun h' => h h'.1), if_neg h]
        rw [hl]
        obtain ⟨h₁, h₂, h₃⟩ := ihLookup p hp
        by_cases h : (a.huf (k + 1)).start / 2 ^ 9 ≤ p
        · rw [if_pos h]
          exact ⟨le_rfl, h, fun j hj₁ hj₂ => by omega⟩
        · rw [if_neg h]
          refine ⟨by omega, h₂, fun j hj₁ hj₂ => ?_⟩
          rcases Nat.eq_or_lt_of_le hj₂ with rfl | hj₂
          · omega
          · exact h₃ j hj₁ (by omega)

end Ntloader.Huffman
