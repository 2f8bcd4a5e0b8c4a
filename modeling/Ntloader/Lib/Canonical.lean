import Mathlib.Algebra.BigOperators.Group.Finset.Basic
import Mathlib.Algebra.Order.BigOperators.Group.Finset
import Mathlib.Data.Fintype.BigOperators
import Ntloader.Lib.Bits

/-!
# Canonical prefix codes

Symbols of a finite linear order, each with a code length (zero: not coded). The canonical code
lays the symbols out in the order of (length, symbol), each symbol `s` taking `2 ^ (W - len s)` of
the `2 ^ W` strings of `W` bits; its codeword is the first `len s` bits of its first string.

* `base` — the first `W`-bit string of a symbol; `first` — that of a whole length;
  `base_eq_first_add` relates the two through the rank of a symbol among those of its length.
* `eq_of_mem_block` — the blocks of two symbols do not meet (prefix-freeness).
* `exists_mem_block` — if the lengths are Kraft-complete the blocks cover everything.
* `existsUnique_codeword_prefix` — with a Kraft-complete table every `W`-bit string starts with
  exactly one codeword.
-/

set_option linter.unusedSectionVars false

namespace Ntloader.Lib.Canonical

open Finset

variable {ι : Type*} [Fintype ι] [LinearOrder ι] (len : ι → ℕ) (W : ℕ)

/-- `t` is coded and comes before `s` in the order of (length, symbol). -/
def Precedes (t s : ι) : Prop := 0 < len t ∧ (len t < len s ∨ len t = len s ∧ t < s)

instance (t s : ι) : Decidable (Precedes len t s) := by
  unfold Precedes
  infer_instance

/-- No symbol precedes itself. -/
theorem not_precedes_self (s : ι) : ¬ Precedes len s s := by
  rintro ⟨-, hlt | ⟨-, hlt⟩⟩
  · exact lt_irrefl _ hlt
  · exact lt_irrefl _ hlt

/-- The first `W`-bit string of the block of `s`. -/
def base (s : ι) : ℕ := ∑ t with Precedes len t s, 2 ^ (W - len t)

/-- The number of `W`-bit strings all blocks take together. -/
def kraft : ℕ := ∑ t with 0 < len t, 2 ^ (W - len t)

/-- The number of symbols of length `l`. -/
def freq (l : ℕ) : ℕ := (univ.filter fun t => len t = l).card

/-- The number of symbols of the length of `s` that come before it. -/
def rank (s : ι) : ℕ := (univ.filter fun t => len t = len s ∧ t < s).card

/-- The first `W`-bit string of the blocks of length `l`. -/
def first (l : ℕ) : ℕ := ∑ t with 0 < len t ∧ len t < l, 2 ^ (W - len t)

/-- The codeword of `s`, as a number of `len s` bits. -/
def code (s : ι) : ℕ := base len W s / 2 ^ (W - len s)

/-- The codeword of `s`. -/
def codeword (s : ι) : List Bool := natBits (len s) (code len W s)

/-- A codeword has the length of its symbol. -/
@[simp] theorem codeword_length (s : ι) : (codeword len W s).length = len s := by simp [codeword]

/-! ## The layout of the blocks -/

/-- The block of a symbol starts at its length's start, behind the earlier symbols of its length. -/
theorem base_eq_first_add (s : ι) (hs : 0 < len s) :
    base len W s = first len W (len s) + rank len s * 2 ^ (W - len s) := by
  have hsplit : (univ.filter fun t => Precedes len t s) =
      (univ.filter fun t => 0 < len t ∧ len t < len s) ∪
        (univ.filter fun t => len t = len s ∧ t < s) := by
    ext t
    rw [mem_union, mem_filter_univ, mem_filter_univ, mem_filter_univ]
    constructor
    · rintro ⟨hpos, hlt | heq⟩
      · exact Or.inl ⟨hpos, hlt⟩
      · exact Or.inr heq
    · rintro (⟨hpos, hlt⟩ | ⟨heq, hlt⟩)
      · exact ⟨hpos, Or.inl hlt⟩
      · exact ⟨by omega, Or.inr ⟨heq, hlt⟩⟩
  have hdisj : Disjoint (univ.filter fun t => 0 < len t ∧ len t < len s)
      (univ.filter fun t => len t = len s ∧ t < s) := by
    rw [disjoint_filter]
    rintro t - ⟨-, hlt⟩ ⟨heq, -⟩
    omega
  rw [base, hsplit, sum_union hdisj, first, rank, card_eq_sum_ones, sum_mul]
  congr 1
  apply sum_congr rfl
  intro t ht
  rw [one_mul, (mem_filter.mp ht).2.1]

/-- The first codeword of length one is zero. -/
@[simp] theorem first_one : first len W 1 = 0 := by
  rw [first, filter_false_of_mem (by intro t _; omega), sum_empty]

/-- The blocks of length `l + 1` start behind those of length `l`. -/
theorem first_succ (l : ℕ) (hl : 0 < l) :
    first len W (l + 1) = first len W l + freq len l * 2 ^ (W - l) := by
  have hsplit : (univ.filter fun t => 0 < len t ∧ len t < l + 1) =
      (univ.filter fun t => 0 < len t ∧ len t < l) ∪ (univ.filter fun t => len t = l) := by
    ext t
    simp only [mem_filter, mem_univ, true_and, mem_union]
    omega
  have hdisj : Disjoint (univ.filter fun t => 0 < len t ∧ len t < l)
      (univ.filter fun t => len t = l) := by
    rw [disjoint_filter]
    intro t _ _
    omega
  rw [first, hsplit, sum_union hdisj, ← first, freq, card_eq_sum_ones, sum_mul]
  congr 1
  apply sum_congr rfl
  intro t ht
  rw [one_mul, (mem_filter.mp ht).2]

/-- Longer codewords come later. -/
theorem first_mono {l k : ℕ} (h : l ≤ k) : first len W l ≤ first len W k := by
  apply sum_le_sum_of_subset
  intro t ht
  simp only [mem_filter, mem_univ, true_and] at ht ⊢
  omega

/-- Past the longest length the blocks are all behind. -/
theorem first_eq_kraft {l : ℕ} (h : ∀ t, len t < l) : first len W l = kraft len W := by
  rw [first, kraft]
  congr 1
  ext t
  simp [h t]

/-- The rank of a symbol is below the number of those of its length. -/
theorem rank_lt_freq (s : ι) : rank len s < freq len (len s) := by
  apply card_lt_card
  refine ⟨fun t ht => ?_, fun hsub => ?_⟩
  · simp only [mem_filter, mem_univ, true_and] at ht ⊢
    exact ht.1
  · have hs : s ∈ univ.filter fun t => len t = len s ∧ t < s := hsub (by simp)
    simp at hs

/-- The block of an earlier symbol ends at or before the start of a later one. -/
theorem base_add_le_of_precedes {t s : ι} (h : Precedes len t s) :
    base len W t + 2 ^ (W - len t) ≤ base len W s := by
  have hnot : t ∉ univ.filter fun u => Precedes len u t := by
    rw [mem_filter_univ]
    exact not_precedes_self len t
  rw [base, base, Nat.add_comm, ← sum_insert (f := fun u => 2 ^ (W - len u)) hnot]
  apply sum_le_sum_of_subset
  intro u hu
  obtain ⟨ht, hts⟩ := h
  rcases mem_insert.mp hu with rfl | hu
  · exact mem_filter.mpr ⟨mem_univ _, ht, hts⟩
  · obtain ⟨hu0, hut⟩ := (mem_filter.mp hu).2
    refine mem_filter.mpr ⟨mem_univ _, hu0, ?_⟩
    rcases hut with hut | ⟨hut, hut'⟩ <;> rcases hts with hts | ⟨hts, hts'⟩
    · exact Or.inl (by omega)
    · exact Or.inl (by omega)
    · exact Or.inl (by omega)
    · exact Or.inr ⟨hut.trans hts, hut'.trans hts'⟩

/-- Every block ends within the total. -/
theorem base_add_le_kraft {s : ι} (hs : 0 < len s) :
    base len W s + 2 ^ (W - len s) ≤ kraft len W := by
  have hnot : s ∉ univ.filter fun u => Precedes len u s := by
    rw [mem_filter_univ]
    exact not_precedes_self len s
  rw [base, kraft, Nat.add_comm, ← sum_insert (f := fun u => 2 ^ (W - len u)) hnot]
  apply sum_le_sum_of_subset
  intro u hu
  rcases mem_insert.mp hu with rfl | hu
  · exact mem_filter.mpr ⟨mem_univ _, hs⟩
  · exact mem_filter.mpr ⟨mem_univ _, (mem_filter.mp hu).2.1⟩

/-- Blocks are aligned to their own size. -/
theorem two_pow_dvd_base (s : ι) : 2 ^ (W - len s) ∣ base len W s := by
  apply dvd_sum
  intro t ht
  apply pow_dvd_pow
  obtain ⟨-, hlt | ⟨heq, -⟩⟩ := (mem_filter.mp ht).2 <;> omega

/-! ## Blocks do not meet and, when complete, cover everything -/

/-- The `W`-bit strings of the block of `s`. -/
def block (s : ι) : Finset ℕ := Finset.Ico (base len W s) (base len W s + 2 ^ (W - len s))

/-- Two blocks that meet belong to one symbol. -/
theorem eq_of_mem_block {s t : ι} {h : ℕ} (hs0 : 0 < len s) (ht0 : 0 < len t)
    (hs : h ∈ block len W s) (ht : h ∈ block len W t) : s = t := by
  rw [block, Finset.mem_Ico] at hs ht
  by_contra hne
  have htri : Precedes len s t ∨ Precedes len t s := by
    rcases lt_trichotomy (len s) (len t) with hl | hl | hl
    · exact Or.inl ⟨hs0, Or.inl hl⟩
    · rcases lt_or_gt_of_ne hne with hlt | hlt
      · exact Or.inl ⟨hs0, Or.inr ⟨hl, hlt⟩⟩
      · exact Or.inr ⟨ht0, Or.inr ⟨hl.symm, hlt⟩⟩
    · exact Or.inr ⟨ht0, Or.inl hl⟩
  rcases htri with hp | hp
  · have := base_add_le_of_precedes len W hp
    omega
  · have := base_add_le_of_precedes len W hp
    omega

/-- The blocks of a Kraft-complete table cover all `W`-bit strings: they are disjoint, lie within
`2 ^ W` and have `2 ^ W` strings together. -/
theorem exists_mem_block (hk : kraft len W = 2 ^ W) {h : ℕ} (hh : h < 2 ^ W) :
    ∃ s, 0 < len s ∧ h ∈ block len W s := by
  have hdisj : ((univ.filter fun t => 0 < len t : Finset ι) : Set ι).PairwiseDisjoint
      (block len W) := by
    intro s hs t ht hne
    rw [Function.onFun, disjoint_left]
    intro x hxs hxt
    have hs0 : 0 < len s := by simpa using hs
    have ht0 : 0 < len t := by simpa using ht
    exact hne (eq_of_mem_block len W hs0 ht0 hxs hxt)
  have hsub : (univ.filter fun t => 0 < len t).biUnion (block len W) ⊆ range (2 ^ W) := by
    intro x hx
    obtain ⟨s, hs, hxs⟩ := mem_biUnion.mp hx
    have hs0 : 0 < len s := by simpa using hs
    have hend := base_add_le_kraft len W hs0
    rw [block, Finset.mem_Ico] at hxs
    rw [mem_range]
    omega
  have hcard : ((univ.filter fun t => 0 < len t).biUnion (block len W)).card = 2 ^ W := by
    rw [card_biUnion hdisj, ← hk, kraft]
    apply sum_congr rfl
    intro t _
    simp [block]
  have heq := eq_of_subset_of_card_le hsub (by rw [hcard, card_range])
  have hmem : h ∈ (univ.filter fun t => 0 < len t).biUnion (block len W) := by
    rw [heq]
    exact mem_range.mpr hh
  obtain ⟨s, hs, hxs⟩ := mem_biUnion.mp hmem
  exact ⟨s, by simpa using hs, hxs⟩

/-! ## Codewords -/

/-- A code has as many bits as its length. -/
theorem code_lt {s : ι} (hs0 : 0 < len s) (hsW : len s ≤ W) (hk : kraft len W ≤ 2 ^ W) :
    code len W s < 2 ^ len s := by
  have hend := base_add_le_kraft len W hs0
  have hpos : 0 < 2 ^ (W - len s) := Nat.two_pow_pos _
  rw [code, Nat.div_lt_iff_lt_mul hpos, ← pow_add, Nat.add_sub_cancel' hsW]
  omega

/-- The strings that start with the codeword of `s` are those of its block. -/
theorem codeword_prefix_iff {s : ι} {h : ℕ} (hs0 : 0 < len s) (hsW : len s ≤ W)
    (hk : kraft len W ≤ 2 ^ W) (hh : h < 2 ^ W) :
    codeword len W s <+: natBits W h ↔ h ∈ block len W s := by
  rw [codeword, natBits_prefix_iff hsW (code_lt len W hs0 hsW hk) hh, code, block, Finset.mem_Ico]
  obtain ⟨q, hq⟩ := two_pow_dvd_base len W s
  have hpos : 0 < 2 ^ (W - len s) := Nat.two_pow_pos _
  rw [hq, Nat.mul_div_cancel_left _ hpos, Nat.div_eq_iff hpos]
  constructor
  · rintro ⟨h₁, h₂⟩
    rw [Nat.mul_comm] at h₁ h₂
    omega
  · rintro ⟨h₁, h₂⟩
    rw [Nat.mul_comm] at h₁ h₂
    omega

/-- **Decoding is well defined.** With a Kraft-complete table every `W`-bit string starts with the
codeword of exactly one symbol. -/
theorem existsUnique_codeword_prefix (hW : ∀ t, len t ≤ W) (hk : kraft len W = 2 ^ W) {h : ℕ}
    (hh : h < 2 ^ W) : ∃! s, 0 < len s ∧ codeword len W s <+: natBits W h := by
  obtain ⟨s, hs0, hs⟩ := exists_mem_block len W hk hh
  refine ⟨s, ⟨hs0, (codeword_prefix_iff len W hs0 (hW s) hk.le hh).mpr hs⟩, ?_⟩
  rintro t ⟨ht0, ht⟩
  rw [codeword_prefix_iff len W ht0 (hW t) hk.le hh] at ht
  exact eq_of_mem_block len W ht0 hs0 ht hs

end Ntloader.Lib.Canonical
