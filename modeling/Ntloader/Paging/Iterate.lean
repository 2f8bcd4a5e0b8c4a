import Ntloader.Paging.Memmap

/-!
# Iterating over the memory map

The state of an iteration is the buffer and the continuation value, and the BIOS answers a
continuation value with a region and the next one.

* `memmapLoop`, `memmapNextFrom` — kern/e820.c, memmap_next, with its state.
* `memmapLoop_memmapCall` — they are the calls of `memmapCall` on the replies the BIOS gives.
* `Serves` — what a BIOS with a finite map does.
* `memmapEntries_usable` — an iteration gives the usable regions of the map.

Scope: the BIOS is a parameter, a function of the continuation value and the buffer.
-/

namespace Ntloader.Paging

/-- The state between two calls.
Source: kern/e820.c, e820_buf and e820_ebx -/
structure MemmapState where
  /-- Buffer for INT 15,e820 calls. -/
  e820Buf : E820Entry
  /-- Continuation value for next INT 15,e820 call. -/
  e820Ebx : ℕ

/-- A buffer of zeros, and no continuation value.
Source: kern/e820.c, memmap_next, `Reset buffer and continuation value if restarting` -/
def MemmapState.reset : MemmapState := ⟨⟨0, 0, 0, 0⟩, 0⟩

/-- The loop over the calls; what is returned is the buffer, or NULL. `none` if it goes on.
Source: kern/e820.c, memmap_next, `Read system memory map` -/
def memmapLoop (int15 : ℕ → E820Entry → Int15Reply) :
    ℕ → MemmapState → Option (Option E820Entry × MemmapState)
  | 0, _ => none
  | fuel + 1, s =>
      let r := int15 s.e820Ebx s.e820Buf
      let s : MemmapState := ⟨r.buf, r.ebx⟩
      if r.cf then some (none, s)
      else if r.eax ≠ e820Smap then some (none, s)
      else if r.isRam then some (some s.e820Buf, s)
      -- `continue` goes on to the condition of the loop
      else if s.e820Ebx ≠ 0 then memmapLoop int15 fuel s
      else some (none, s)

/-- Get system memory map entry; `prev` says whether there is a previous one.
Source: kern/e820.c, memmap_next -/
def memmapNextFrom (int15 : ℕ → E820Entry → Int15Reply) (fuel : ℕ) (prev : Bool)
    (s : MemmapState) : Option (Option E820Entry × MemmapState) :=
  if !prev then memmapLoop int15 fuel .reset
  else if s.e820Ebx = 0 then some (none, s)
  else memmapLoop int15 fuel s

/-- What a loop over the memory map sees in the buffer, up to NULL.
Source: kern/main.c and kern/paging.c, `while ((e820 = memmap_next (e820)) != NULL)` -/
def memmapEntries (int15 : ℕ → E820Entry → Int15Reply) (fuel : ℕ) :
    ℕ → Bool → MemmapState → Option (List E820Entry × MemmapState)
  | 0, _, _ => none
  | rounds + 1, prev, s =>
      match memmapNextFrom int15 fuel prev s with
      | none => none
      | some (none, s) => some ([], s)
      | some (some e, s) => (memmapEntries int15 fuel rounds true s).map fun p => (e :: p.1, p.2)

/-! ## The replies -/

/-- The replies to calls that follow the continuation values. -/
def int15Replies (int15 : ℕ → E820Entry → Int15Reply) : ℕ → MemmapState → List Int15Reply
  | 0, _ => []
  | fuel + 1, s =>
      let r := int15 s.e820Ebx s.e820Buf
      r :: int15Replies int15 fuel ⟨r.buf, r.ebx⟩

/-- The loop is the one over the replies. -/
theorem memmapLoop_memmapCall (int15 : ℕ → E820Entry → Int15Reply) (fuel : ℕ) (s : MemmapState) :
    (memmapLoop int15 fuel s).map (fun p => (p.1, p.2.e820Ebx)) =
      (memmapCall (int15Replies int15 fuel s)).map fun p => (p.1, p.2.1) := by
  induction fuel generalizing s with
  | zero => rfl
  | succ fuel ih =>
      rw [memmapLoop, int15Replies, memmapCall]
      dsimp only
      by_cases hcf : (int15 s.e820Ebx s.e820Buf).cf = true
      · rw [if_pos hcf, if_pos hcf]
        rfl
      rw [if_neg hcf, if_neg hcf]
      by_cases hsmap : (int15 s.e820Ebx s.e820Buf).eax ≠ e820Smap
      · rw [if_pos hsmap, if_pos hsmap]
        rfl
      rw [if_neg hsmap, if_neg hsmap]
      by_cases hram : (int15 s.e820Ebx s.e820Buf).isRam = true
      · rw [if_pos hram, if_pos hram]
        rfl
      rw [if_neg hram, if_neg hram]
      by_cases hebx : (int15 s.e820Ebx s.e820Buf).ebx ≠ 0
      · rw [if_pos hebx, if_pos hebx]
        exact ih _
      · rw [if_neg hebx, if_neg hebx]
        rfl

/-! ## A finite map -/

/-- A region of a map; the BIOS gives it with 24 bytes if it has attributes, and else with 20. -/
structure BiosRegion where
  start : ℕ
  len : ℕ
  type : ℕ
  attrs : Option ℕ
  deriving DecidableEq

/-- The region is RAM, and if it has attributes it is enabled and not non-volatile. -/
def BiosRegion.usable (r : BiosRegion) : Bool :=
  r.type = e820TypeRam ∧ ∀ a ∈ r.attrs, a.testBit 0 = true ∧ a.testBit 1 = false

/-- The buffer with the region written over it. -/
def BiosRegion.written (r : BiosRegion) (buf : E820Entry) : E820Entry :=
  ⟨r.start, r.len, r.type, r.attrs.getD buf.attrs⟩

/-- The reply that gives the region and a continuation value. -/
def BiosRegion.reply (r : BiosRegion) (ebx : ℕ) (buf : E820Entry) : Int15Reply :=
  ⟨e820Smap, ebx, if r.attrs.isSome then 24 else 20, false, r.written buf⟩

/-- The buffer shows the region: all of what the BIOS gives of it. -/
def BiosRegion.Shows (r : BiosRegion) (e : E820Entry) : Prop :=
  e.start = r.start ∧ e.len = r.len ∧ e.type = r.type ∧ ∀ a ∈ r.attrs, e.attrs = a

/-- A BIOS serves the regions from a continuation value on: each with the value of the next, the last
with 0 or with a value that it answers with carry. -/
def Serves (int15 : ℕ → E820Entry → Int15Reply) : ℕ → List BiosRegion → Prop
  | ebx, [] => ∀ buf, (int15 ebx buf).cf = true
  | ebx, r :: rs => ∃ next, (∀ buf, int15 ebx buf = r.reply next buf) ∧
      (next = 0 ∧ rs = [] ∨ next ≠ 0 ∧ Serves int15 next rs)

/-- What is in the buffer each time that a region is given. -/
def buffers : E820Entry → List BiosRegion → List E820Entry
  | _, [] => []
  | buf, r :: rs =>
      if r.usable then r.written buf :: buffers (r.written buf) rs else buffers (r.written buf) rs

/-- A reply is for memory exactly if its region is usable. -/
theorem BiosRegion.isRam_reply (r : BiosRegion) (ebx : ℕ) (buf : E820Entry) :
    (r.reply ebx buf).isRam = r.usable := by
  unfold Int15Reply.isRam usable reply written
  cases r.attrs with
  | none => simp
  | some a => simp

/-- The entry shows the region that is written to it. -/
theorem BiosRegion.shows_written (r : BiosRegion) (buf : E820Entry) : r.Shows (r.written buf) := by
  refine ⟨rfl, rfl, rfl, ?_⟩
  intro a ha
  show r.attrs.getD buf.attrs = a
  rw [Option.mem_def.mp ha]
  rfl

/-- The buffers show the usable regions, in order. -/
theorem shows_buffers (buf : E820Entry) (rs : List BiosRegion) :
    List.Forall₂ BiosRegion.Shows (rs.filter BiosRegion.usable) (buffers buf rs) := by
  induction rs generalizing buf with
  | nil => exact .nil
  | cons r rs ih =>
      rw [buffers]
      by_cases hr : r.usable = true
      · rw [if_pos hr, List.filter_cons_of_pos hr]
        exact .cons (r.shows_written buf) (ih _)
      · rw [if_neg hr, List.filter_cons_of_neg hr]
        exact ih _

/-! ## An iteration -/

/-- What a call leaves of the map: nothing behind the value 0. -/
def Left (int15 : ℕ → E820Entry → Int15Reply) (ebx : ℕ) (rs : List BiosRegion) : Prop :=
  ebx = 0 ∧ rs = [] ∨ ebx ≠ 0 ∧ Serves int15 ebx rs

/-- A run of the loop gives the next usable region, and what is behind it is left. -/
theorem memmapLoop_eq {int15 : ℕ → E820Entry → Int15Reply} {fuel : ℕ} {rs : List BiosRegion}
    {s : MemmapState} (h : Serves int15 s.e820Ebx rs) (hfuel : rs.length < fuel) :
    (∃ s', memmapLoop int15 fuel s = some (none, s') ∧ buffers s.e820Buf rs = []) ∨
    ∃ s' rs', memmapLoop int15 fuel s = some (some s'.e820Buf, s') ∧
      buffers s.e820Buf rs = s'.e820Buf :: buffers s'.e820Buf rs' ∧
      Left int15 s'.e820Ebx rs' ∧ rs'.length < rs.length := by
  induction rs generalizing s fuel with
  | nil =>
      left
      obtain ⟨fuel, rfl⟩ := Nat.exists_eq_succ_of_ne_zero (Nat.ne_of_gt hfuel)
      refine ⟨⟨(int15 s.e820Ebx s.e820Buf).buf, (int15 s.e820Ebx s.e820Buf).ebx⟩, ?_, rfl⟩
      rw [memmapLoop]
      exact if_pos (h s.e820Buf)
  | cons r rs ih =>
      obtain ⟨fuel, rfl⟩ := Nat.exists_eq_succ_of_ne_zero (Nat.ne_of_gt (Nat.zero_lt_of_lt hfuel))
      obtain ⟨next, hreply, hnext⟩ := h
      rw [memmapLoop, hreply, buffers]
      dsimp only
      rw [r.isRam_reply]
      have hcf : ¬(r.reply next s.e820Buf).cf = true := Bool.false_ne_true
      have hsmap : ¬(r.reply next s.e820Buf).eax ≠ e820Smap := not_not.mpr rfl
      rw [if_neg hcf, if_neg hsmap]
      by_cases hr : r.usable = true
      · right
        rw [if_pos hr, if_pos hr]
        exact ⟨⟨r.written s.e820Buf, next⟩, rs, rfl, rfl, hnext, Nat.lt_succ_self _⟩
      rw [if_neg hr, if_neg hr]
      show (∃ s', (if next ≠ 0 then _ else _) = _ ∧ _) ∨ ∃ s' rs', (if next ≠ 0 then _ else _) = _ ∧ _
      rcases hnext with ⟨h0, rfl⟩ | ⟨h0, hserves⟩
      · left
        rw [if_neg (not_not.mpr h0)]
        exact ⟨_, rfl, rfl⟩
      · rw [if_pos h0]
        have hlt : rs.length < fuel := Nat.lt_of_succ_lt_succ hfuel
        rcases @ih fuel ⟨r.written s.e820Buf, next⟩ hserves hlt with h | ⟨s', rs', h, hbuf, hleft, hlen⟩
        · exact Or.inl h
        · exact Or.inr ⟨s', rs', h, hbuf, hleft, Nat.lt_succ_of_lt hlen⟩

/-- The rounds of an iteration, from a call that makes a run of the loop. -/
theorem memmapEntries_eq {int15 : ℕ → E820Entry → Int15Reply} {fuel rounds : ℕ}
    {rs : List BiosRegion} {prev : Bool} {s s₀ : MemmapState}
    (hnext : memmapNextFrom int15 fuel prev s = memmapLoop int15 fuel s₀)
    (h : Serves int15 s₀.e820Ebx rs) (hfuel : rs.length < fuel) (hrounds : rs.length < rounds) :
    ∃ s', memmapEntries int15 fuel rounds prev s = some (buffers s₀.e820Buf rs, s') := by
  induction rounds generalizing rs prev s s₀ with
  | zero => exact absurd hrounds (Nat.not_lt_zero _)
  | succ rounds ih =>
      rw [memmapEntries, hnext]
      rcases memmapLoop_eq h hfuel with ⟨s', hloop, hbuf⟩ | ⟨s', rs', hloop, hbuf, hleft, hlen⟩
      · rw [hloop, hbuf]
        exact ⟨s', rfl⟩
      rw [hloop, hbuf]
      dsimp only
      have hlt : rs'.length < rounds := hlen.trans_le (Nat.le_of_lt_succ hrounds)
      rcases hleft with ⟨h0, rfl⟩ | ⟨h0, hserves⟩
      · -- the last region has been given with the value 0
        obtain ⟨rounds, rfl⟩ := Nat.exists_eq_succ_of_ne_zero (Nat.ne_of_gt hlt)
        have hend : memmapNextFrom int15 fuel true s' = some (none, s') := if_pos h0
        rw [memmapEntries, hend]
        exact ⟨s', rfl⟩
      · have hgo : memmapNextFrom int15 fuel true s' = memmapLoop int15 fuel s' := if_neg h0
        obtain ⟨s'', hrest⟩ := ih hgo hserves (hlen.trans hfuel) hlt
        rw [hrest]
        exact ⟨s'', rfl⟩

/-- An iteration gives the usable regions of a finite map, in order and each once, and then NULL; in
whatever state it starts. -/
theorem memmapEntries_usable {int15 : ℕ → E820Entry → Int15Reply} {rs : List BiosRegion}
    (h : Serves int15 0 rs) :
    ∃ es, List.Forall₂ BiosRegion.Shows (rs.filter BiosRegion.usable) es ∧
      ∀ (s : MemmapState) (fuel rounds : ℕ), rs.length < fuel → rs.length < rounds →
        ∃ s', memmapEntries int15 fuel rounds false s = some (es, s') := by
  refine ⟨buffers MemmapState.reset.e820Buf rs, shows_buffers _ rs, ?_⟩
  intro s fuel rounds hfuel hrounds
  exact memmapEntries_eq rfl h hfuel hrounds

/-- A map of two regions, the second of them usable and served with attributes, that ends with the
value 0. -/
def twoRegions (ebx : ℕ) (buf : E820Entry) : Int15Reply :=
  if ebx = 0 then (⟨0, 0x1000, 2, none⟩ : BiosRegion).reply 7 buf
  else (⟨0x1000, 0x2000, 1, some 1⟩ : BiosRegion).reply 0 buf

/-- A map of two regions, one of them usable. -/
theorem memmapEntries_usable_twoRegions :
    ∃ es, List.Forall₂ BiosRegion.Shows [⟨0x1000, 0x2000, 1, some 1⟩] es ∧
      ∀ (s : MemmapState) (fuel rounds : ℕ), 2 < fuel → 2 < rounds →
        ∃ s', memmapEntries twoRegions fuel rounds false s = some (es, s') := by
  have hserves : Serves twoRegions 0 [⟨0, 0x1000, 2, none⟩, ⟨0x1000, 0x2000, 1, some 1⟩] := by
    refine ⟨7, fun _ => rfl, Or.inr ⟨by norm_num, 0, fun _ => rfl, Or.inl ⟨rfl, rfl⟩⟩⟩
  exact memmapEntries_usable hserves

end Ntloader.Paging
