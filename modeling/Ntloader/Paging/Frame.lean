import Ntloader.Paging.Relocate

/-!
# What else a relocation changes

The page directory has pages of 2MB, and the data may begin and end anywhere in a page. A page is
mapped to its copy as a whole, but only the data in it are copied.

* `Moved`, `Moved.read_outside` — what an address outside the data reads as behind a move.
* `relocateMemoryHigh_frame_iff` — the rest of the 32-bit addresses read as before iff the bytes
  around the copy are those around the data.
* `undisturbed_of_aligned` — there are none if the data begin and end with a page.
-/

namespace Ntloader.Paging

open Ntloader.Lib

/-- The bytes around the copy are those around the data: in the pages that are mapped to copies, in
front of the data and behind them. -/
def Undisturbed (m : Mem) (start data len : ℕ) : Prop :=
  ∀ v < 2 ^ 32, v / pageSize2mb ≠ copyWindow / pageSize2mb → HoldsData data len (v / pageSize2mb) →
    v < data ∨ data + len ≤ v → m (start + v - data) = m v

/-- The data have been copied to an address, and their pages are mapped to the copies. -/
structure Moved (st st' : PagingState) (start data len : ℕ) : Prop where
  start_ge : 2 ^ 32 ≤ start
  /-- The copy is at the same offset in a page as the data. -/
  start_mod : start % pageSize2mb = data % pageSize2mb
  /-- Nothing outside the copy is written. -/
  mem_eq : ∀ x, x < start ∨ start + len ≤ x → st'.mem x = st.mem x
  /-- A page with data is mapped to its copy. -/
  pd_copy : ∀ p < 2048, p ≠ 1 → HoldsData data len p →
    st'.pd p = pageEntry (pageSize2mb * (start / pageSize2mb + (p - data / pageSize2mb)))
  /-- Another page, and the window, is mapped to itself. -/
  pd_self : ∀ p < 2048, p = 1 ∨ ¬HoldsData data len p → st'.pd p = pageEntry (pageSize2mb * p)

/-- The data are left where they are, or moved to their destination. -/
theorem relocateMemoryHigh_moved {paging : Bool} {st : PagingState} {replies : List Int15Reply}
    {data len : ℕ} {r : Option (ℕ × PagingState)} (hpd : Identity st.pd)
    (hdata : data + len ≤ 2 ^ 32) (h : relocateMemoryHigh paging st replies data len = some r) :
    (destination paging replies data len = none ∧ r = some (data, st)) ∨
      ∃ start st', destination paging replies data len = some start ∧ r = some (start, st') ∧
        Moved st st' start data len := by
  rcases relocateMemoryHigh_cases hdata h with hstay | ⟨start, st', hdest, hr, hcopied⟩
  · exact Or.inl hstay
  obtain ⟨hge, hmod, -⟩ := destination_spec hdata hdest
  refine Or.inr ⟨start, _, hdest, hr, hge, hmod, fun x => hcopied.mem_of_not_mem hmod,
    fun p _ h₁ hp => ?_, fun p hp h₁ => ?_⟩
  · dsimp only
    rw [Function.update_of_ne h₁]
    exact hcopied.pd_of_holdsData hmod h₁ hp
  · dsimp only
    by_cases hwindow : p = 1
    · rw [hwindow, Function.update_self]
    · rw [Function.update_of_ne hwindow,
        hcopied.pd_of_not_holdsData hwindow (h₁.resolve_left hwindow), hpd p hp, Nat.mul_comm]

/-- What an address outside the data reads as behind the move. -/
theorem Moved.read_outside {st st' : PagingState} {start data len v : ℕ} (hpd : Identity st.pd)
    (hdata : data + len ≤ 2 ^ 32) (h : Moved st st' start data len) (hv : v < 2 ^ 32)
    (hout : v < data ∨ data + len ≤ v) :
    st'.read v = st.read v ↔
      (v / pageSize2mb ≠ copyWindow / pageSize2mb → HoldsData data len (v / pageSize2mb) →
        st.mem (start + v - data) = st.mem v) := by
  have hstart := h.start_ge
  have hpage : v / pageSize2mb < 2048 := by
    simp only [pageSize2mb]
    omega
  have hread : st.read v = st.mem v := by
    rw [PagingState.read, translate_identity ((hpd _ hpage).trans (by rw [Nat.mul_comm]))]
  have hwindow : copyWindow / pageSize2mb = 1 := by decide
  rw [hread, hwindow]
  by_cases hcopy : v / pageSize2mb ≠ 1 ∧ HoldsData data len (v / pageSize2mb)
  · have hread' : st'.read v = st.mem (start + v - data) := by
      rw [PagingState.read, translate_copy (by omega) h.start_mod hcopy.2
        (h.pd_copy _ hpage hcopy.1 hcopy.2)]
      exact h.mem_eq _ (by omega)
    rw [hread']
    exact ⟨fun heq _ _ => heq, fun himp => himp hcopy.1 hcopy.2⟩
  · have hself : v / pageSize2mb = 1 ∨ ¬HoldsData data len (v / pageSize2mb) := by
      by_cases h₁ : v / pageSize2mb = 1
      · exact Or.inl h₁
      · exact Or.inr fun h₂ => hcopy ⟨h₁, h₂⟩
    have hread' : st'.read v = st.mem v := by
      rw [PagingState.read, translate_identity (h.pd_self _ hpage hself)]
      exact h.mem_eq _ (by omega)
    exact iff_of_true hread' fun h₁ h₂ => absurd ⟨h₁, h₂⟩ hcopy

/-- **The rest of the address space** reads as before the call iff the data are not moved, or the
bytes around the copy are those around the data.
Source: kern/paging.c, relocate_memory_high -/
theorem relocateMemoryHigh_frame_iff {paging : Bool} {st : PagingState} {replies : List Int15Reply}
    {data len : ℕ} {r : Option (ℕ × PagingState)} (hpd : Identity st.pd)
    (hdata : data + len ≤ 2 ^ 32) (h : relocateMemoryHigh paging st replies data len = some r) :
    ∃ start st', r = some (start, st') ∧
      ((∀ v < 2 ^ 32, v < data ∨ data + len ≤ v → st'.read v = st.read v) ↔
        ∀ start ∈ destination paging replies data len, Undisturbed st.mem start data len) := by
  rcases relocateMemoryHigh_moved hpd hdata h with ⟨hdest, hr⟩ | ⟨start, st', hdest, hr, hmoved⟩
  · refine ⟨data, st, hr, iff_of_true (fun _ _ _ => rfl) fun start hstart => ?_⟩
    rw [hdest] at hstart
    cases hstart
  · refine ⟨start, st', hr, ?_⟩
    rw [hdest]
    simp only [Option.mem_some_iff, forall_eq']
    constructor
    · intro hframe v hv h₁ h₂ hout
      exact (hmoved.read_outside hpd hdata hv hout).mp (hframe v hv hout) h₁ h₂
    · intro hsame v hv hout
      exact (hmoved.read_outside hpd hdata hv hout).mpr fun h₁ h₂ => hsame v hv h₁ h₂ hout

/-- Each page is mapped to itself, and a byte is set. -/
def markedState : PagingState :=
  ⟨fun p => pageEntry (p * pageSize2mb), fun x => if x = 0x400003 then 1 else 0⟩

/-- A page of data is moved as a whole. -/
theorem relocateMemoryHigh_frame_page :
    ∃ r start st', relocateMemoryHigh true markedState [highReply] 0x400000 0x200000 = some r ∧
      r = some (start, st') ∧
      ((∀ v < 2 ^ 32, v < 0x400000 ∨ 0x400000 + 0x200000 ≤ v → st'.read v = markedState.read v) ↔
        ∀ start ∈ destination true [highReply] 0x400000 0x200000,
          Undisturbed markedState.mem start 0x400000 0x200000) := by
  have hsome : (relocateMemoryHigh true markedState [highReply] 0x400000 0x200000).isSome := by
    rw [relocateMemoryHigh, if_neg (by decide)]
    exact Option.isSome_map.trans (by decide)
  obtain ⟨r, hr⟩ := Option.isSome_iff_exists.mp hsome
  obtain ⟨start, st', hst', hiff⟩ := relocateMemoryHigh_frame_iff (fun _ _ => rfl) (by decide) hr
  exact ⟨r, start, st', hr, hst', hiff⟩

/-- Three bytes at 4 MB are moved, and the byte behind them is lost. -/
theorem relocateMemoryHigh_disturbs :
    ∃ start st', relocateMemoryHigh true markedState [highReply] 0x400000 3 =
        some (some (start, st')) ∧ 2 ^ 32 ≤ start ∧
      ¬∀ v < 2 ^ 32, v < 0x400000 ∨ 0x400000 + 3 ≤ v → st'.read v = markedState.read v := by
  have hrun : ((relocateMemoryHigh true markedState [highReply] 0x400000 3).bind fun r =>
      r.map fun r => (r.1, r.2.read 0x400003)) = some (0x100600000, 0) := by
    decide +kernel
  obtain ⟨r, hr, hval⟩ := Option.bind_eq_some_iff.mp hrun
  obtain ⟨⟨start, st'⟩, rfl, hread⟩ := Option.map_eq_some_iff.mp hval
  obtain ⟨hstart, hzero⟩ := Prod.mk.inj hread
  refine ⟨start, st', hr, by omega, fun hframe => ?_⟩
  have hsame : (0 : UInt8) = 1 := by
    rw [← hzero, hframe 0x400003 (by decide) (by decide)]
    decide
  exact absurd hsame (by decide)

/-- Data that begin and end with a page have nothing around them. -/
theorem undisturbed_of_aligned (m : Mem) (start : ℕ) {data len : ℕ}
    (hlow : data % pageSize2mb = 0) (hhigh : (data + len) % pageSize2mb = 0) :
    Undisturbed m start data len := by
  rintro v - - ⟨w, hdata, hend, hpage⟩ hout
  simp only [pageSize2mb] at hlow hhigh hpage
  omega

end Ntloader.Paging
