import Mathlib.Tactic

/-!
# Memory map

The regions of RAM are enumerated with calls of INT 15,e820, each of which gives one region and a
value to go on with.

* `memmapNext` — kern/e820.c, memmap_next.
* `memmapNext_mem` — a region that is given has been reported as RAM.

Scope: a reply of the BIOS is a parameter, with the parts of it that are looked at.
-/

namespace Ntloader.Paging

/-- An INT 15,e820 memory map entry.
Source: include/e820.h, struct e820_entry -/
structure E820Entry where
  /-- Start of region. -/
  start : ℕ
  /-- Length of region. -/
  len : ℕ
  /-- Type of region. -/
  type : ℕ
  /-- Extended attributes (optional). -/
  attrs : ℕ
  deriving DecidableEq

/-- What a call of INT 15,e820 leaves in the registers and in the buffer. -/
structure Int15Reply where
  eax : ℕ
  ebx : ℕ
  ecx : ℕ
  /-- The carry flag: the call has failed. -/
  cf : Bool
  /-- The buffer behind the call. -/
  buf : E820Entry
  deriving DecidableEq

/-- Source: include/e820.h, E820_SMAP -/
def e820Smap : ℕ := 0x534d4150

/-- Source: include/e820.h, E820_TYPE_RAM -/
def e820TypeRam : ℕ := 1

/-- The region of a reply is RAM; its attributes count if the reply is long enough to have them.
Source: kern/e820.c, memmap_next, `Skip non-RAM regions` -/
def Int15Reply.isRam (r : Int15Reply) : Bool :=
  r.buf.type = e820TypeRam ∧ (r.ecx > 20 → r.buf.attrs.testBit 0 ∧ ¬r.buf.attrs.testBit 1)

/-- The calls up to the next region: the region if there is one, the continuation value, and the
replies that are left. `none` if the BIOS does not reply.
Source: kern/e820.c, memmap_next, `Read system memory map` -/
def memmapCall : List Int15Reply → Option (Option E820Entry × ℕ × List Int15Reply)
  | [] => none
  | r :: replies =>
      if r.cf then some (none, r.ebx, replies)
      else if r.eax ≠ e820Smap then some (none, r.ebx, replies)
      else if r.isRam then some (some r.buf, r.ebx, replies)
      else if r.ebx ≠ 0 then memmapCall replies
      else some (none, r.ebx, replies)

/-- Get system memory map entry; `prev` says whether there is a previous one.
Source: kern/e820.c, memmap_next -/
def memmapNext (prev : Bool) (ebx : ℕ) (replies : List Int15Reply) :
    Option (Option E820Entry × ℕ × List Int15Reply) :=
  if prev ∧ ebx = 0 then some (none, ebx, replies) else memmapCall replies

/-- A region that has been reported as RAM. -/
def Reported (replies : List Int15Reply) (e : E820Entry) : Prop :=
  ∃ r ∈ replies, r.isRam = true ∧ r.buf = e

/-- An entry is one that was reported, and the rest is left. -/
theorem memmapCall_mem {replies rest : List Int15Reply} {e : Option E820Entry} {ebx : ℕ}
    (h : memmapCall replies = some (e, ebx, rest)) :
    (∀ e', e = some e' → Reported replies e') ∧ ∀ r ∈ rest, r ∈ replies := by
  induction replies with
  | nil => cases h
  | cons r replies ih =>
      have hdone {x : Option E820Entry} (h : some (x, r.ebx, replies) = some (e, ebx, rest)) :
          x = e ∧ replies = rest := by
        cases h
        exact ⟨rfl, rfl⟩
      rw [memmapCall] at h
      split_ifs at h with hcf hsmap hram hebx
      · obtain ⟨rfl, rfl⟩ := hdone h
        exact ⟨nofun, fun r hr => List.mem_cons_of_mem _ hr⟩
      · obtain ⟨rfl, rfl⟩ := hdone h
        exact ⟨nofun, fun r hr => List.mem_cons_of_mem _ hr⟩
      · obtain ⟨rfl, rfl⟩ := hdone h
        refine ⟨fun e' he => ?_, fun r hr => List.mem_cons_of_mem _ hr⟩
        exact ⟨r, List.mem_cons_self, hram, Option.some.inj he⟩
      · obtain ⟨hrep, hrest⟩ := ih h
        refine ⟨fun e' he => ?_, fun q hq => List.mem_cons_of_mem _ (hrest q hq)⟩
        obtain ⟨q, hq, hqe⟩ := hrep e' he
        exact ⟨q, List.mem_cons_of_mem _ hq, hqe⟩
      · obtain ⟨rfl, rfl⟩ := hdone h
        exact ⟨nofun, fun r hr => List.mem_cons_of_mem _ hr⟩

/-- A region that is given has been reported as RAM; the replies that are left have not been used. -/
theorem memmapNext_mem {prev : Bool} {ebx ebx' : ℕ} {replies rest : List Int15Reply}
    {e : Option E820Entry} (h : memmapNext prev ebx replies = some (e, ebx', rest)) :
    (∀ e', e = some e' → Reported replies e') ∧ ∀ r ∈ rest, r ∈ replies := by
  rw [memmapNext] at h
  split_ifs at h
  · cases h
    exact ⟨nofun, fun _ hr => hr⟩
  · exact memmapCall_mem h

end Ntloader.Paging
