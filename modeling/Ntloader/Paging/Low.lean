import Ntloader.Paging.Relocate
import Ntloader.Posix.Move

/-!
# Relocation below 2 GB, and memory under paging

Before the initrd is looked at, it is moved to where the loaded program does not collide with it; from
then on the loader enables paging whenever it looks at it, and the loaded program runs without.

* `lowPlacement`, `relocateMemoryLow` — kern/main.c, relocate_memory_low.
* `relocateMemoryLow_spec` — the data are where they were, or in a region of RAM between 1 MB and 2 GB.
* `view`, `unview` — the memory as it is seen with paging enabled, and what a change of it is to the
  physical memory.
* `unview_eq` — a change below 2 MB, if the first page is mapped to itself.

Scope: `relocate_memory_low` is called with each page mapped to itself.
-/

namespace Ntloader.Paging

open Ntloader.Lib Ntloader.Posix

/-! ## The relocation -/

/-- 1MB memory threshold.
Source: kern/main.c, ADDR_1MB -/
def addr1mb : ℕ := 0x00100000

/-- 2GB memory threshold.
Source: kern/main.c, ADDR_2GB -/
def addr2gb : ℕ := 0x80000000

/-- Source: include/ntloader.h, PAGE_SIZE -/
def pageSize : ℕ := 4096

/-- Find highest compatible placement within a region.
Source: kern/main.c, relocate_memory_low -/
def lowPlacement (len : ℕ) (e : E820Entry) : Option ℕ :=
  let endAddr := (e.start + e.len) % 2 ^ 64
  let start := if endAddr > addr2gb then addr2gb else endAddr
  if start < len then none
  else
    let start := (start - len) / pageSize * pageSize
    if start < e.start then none
    else if start < addr1mb then none
    else some start

/-- The loop over the memory map: what the first region with room gives. `none` if the BIOS does not
reply, or if the fuel is used up.
Source: kern/main.c, relocate_memory_low, `Read system memory map` -/
def firstPlacement (place : E820Entry → Option ℕ) :
    ℕ → Bool → ℕ → List Int15Reply → Option (Option ℕ)
  | 0, _, _, _ => none
  | fuel + 1, prev, ebx, replies =>
      (memmapNext prev ebx replies).bind fun r =>
        match r with
        | (none, _, _) => some none
        | (some e, ebx, replies) =>
            match place e with
            | some start => some (some start)
            | none => firstPlacement place fuel true ebx replies

/-- Relocate data between 1MB and 2GB if possible: the address, and the memory behind it.
Source: kern/main.c, relocate_memory_low -/
def relocateMemoryLow (replies : List Int15Reply) (data len : ℕ) (m : Mem) : Option (ℕ × Mem) :=
  (firstPlacement (lowPlacement len) (replies.length + 1) false 0 replies).map fun r =>
    match r with
    -- Leave at original location
    | none => (data, m)
    | some start => (start, memmove m start data len)

/-- The end of a region, or 2 GB if that is lower. -/
def lowEnd (e : E820Entry) : ℕ := min addr2gb ((e.start + e.len) % 2 ^ 64)

/-- A placement is the last page from which there is room, and what is checked of it. -/
theorem lowPlacement_some {len start : ℕ} {e : E820Entry} (h : lowPlacement len e = some start) :
    len ≤ lowEnd e ∧ start = (lowEnd e - len) / pageSize * pageSize ∧ e.start ≤ start ∧
      addr1mb ≤ start := by
  have hend : (if (e.start + e.len) % 2 ^ 64 > addr2gb then addr2gb else (e.start + e.len) % 2 ^ 64) =
      lowEnd e := by
    rw [lowEnd]
    split <;> omega
  simp only [lowPlacement, hend] at h
  split at h
  · cases h
  · split at h
    · cases h
    · split at h
      · cases h
      · obtain rfl := Option.some.inj h
        exact ⟨by omega, rfl, by omega, by omega⟩

/-- A placement is at a page, between 1 MB and 2 GB, and in the region. -/
theorem lowPlacement_spec {len start : ℕ} {e : E820Entry} (h : lowPlacement len e = some start) :
    addr1mb ≤ start ∧ start + len ≤ addr2gb ∧ start % pageSize = 0 ∧
      e.start ≤ start ∧ start + len ≤ (e.start + e.len) % 2 ^ 64 := by
  obtain ⟨hlen, hstart, hlow, h1mb⟩ := lowPlacement_some h
  have hle : start + len ≤ lowEnd e := by
    rw [hstart, pageSize]
    omega
  exact ⟨h1mb, hle.trans (min_le_left _ _), by rw [hstart, pageSize, Nat.mul_mod_left], hlow,
    hle.trans (min_le_right _ _)⟩

/-- It is the highest one. -/
theorem le_lowPlacement {len start other : ℕ} {e : E820Entry} (h : lowPlacement len e = some start)
    (hmod : other % pageSize = 0) (h2gb : other + len ≤ addr2gb)
    (hend : other + len ≤ (e.start + e.len) % 2 ^ 64) : other ≤ start := by
  obtain ⟨-, hstart, -, -⟩ := lowPlacement_some h
  have hle : other + len ≤ lowEnd e := le_min h2gb hend
  rw [hstart]
  rw [pageSize] at hmod ⊢
  omega

/-- A placement that is found is one in a region that has been reported. -/
theorem firstPlacement_spec {place : E820Entry → Option ℕ} {fuel ebx start : ℕ} {prev : Bool}
    {replies : List Int15Reply}
    (h : firstPlacement place fuel prev ebx replies = some (some start)) :
    ∃ e, Reported replies e ∧ place e = some start := by
  induction fuel generalizing prev ebx replies with
  | zero => cases h
  | succ fuel ih =>
      rw [firstPlacement] at h
      obtain ⟨⟨e, ebx', rest⟩, hnext, h⟩ := Option.bind_eq_some_iff.mp h
      obtain ⟨hreported, hrest⟩ := memmapNext_mem hnext
      cases e with
      | none => cases h
      | some e =>
          cases hplace : place e with
          | some found =>
              simp only [hplace, Option.some.injEq] at h
              exact ⟨e, hreported e rfl, h ▸ hplace⟩
          | none =>
              simp only [hplace] at h
              obtain ⟨e', ⟨r, hr, hram, hbuf⟩, hfound⟩ := ih h
              exact ⟨e', ⟨r, hrest r hr, hram, hbuf⟩, hfound⟩

/-- The data are left where they are, or moved to a placement in a region that has been reported. -/
theorem relocateMemoryLow_some {replies : List Int15Reply} {data len start : ℕ} {m m' : Mem}
    (h : relocateMemoryLow replies data len m = some (start, m')) :
    (start = data ∧ m' = m) ∨
      ∃ e, Reported replies e ∧ lowPlacement len e = some start ∧ m' = memmove m start data len := by
  rw [relocateMemoryLow] at h
  obtain ⟨r, hr, h⟩ := Option.map_eq_some_iff.mp h
  cases r with
  | none =>
      obtain ⟨rfl, rfl⟩ := Prod.mk.inj h
      exact Or.inl ⟨rfl, rfl⟩
  | some s =>
      obtain ⟨rfl, rfl⟩ := Prod.mk.inj h
      obtain ⟨e, hreported, hplace⟩ := firstPlacement_spec hr
      exact Or.inr ⟨e, hreported, hplace, rfl⟩

/-- The data are behind the call what they were, and end below 2 GB or where they did. -/
theorem relocateMemoryLow_bytes {replies : List Int15Reply} {data len start : ℕ} {m m' : Mem}
    (hdata : data + len ≤ 2 ^ 32) (h : relocateMemoryLow replies data len m = some (start, m')) :
    m'.bytes start len = m.bytes data len ∧ (start = data ∨ start + len ≤ addr2gb) := by
  rcases relocateMemoryLow_some h with ⟨rfl, rfl⟩ | ⟨e, -, hplace, rfl⟩
  · exact ⟨rfl, Or.inl rfl⟩
  · obtain ⟨-, h2gb, -, -, -⟩ := lowPlacement_spec hplace
    rw [memmove_eq_copy m (h2gb.trans (by decide)) hdata]
    exact ⟨Mem.bytes_copy_self m start m data len, Or.inr h2gb⟩

/-- **The data are kept**: they are left where they are and nothing is changed, or moved to the highest
page of a region of RAM between 1 MB and 2 GB, whatever they overlap there, and nothing else is
written.
Source: kern/main.c, relocate_memory_low -/
theorem relocateMemoryLow_spec {replies : List Int15Reply} {data len start : ℕ} {m m' : Mem}
    (hdata : data + len ≤ 2 ^ 32) (h : relocateMemoryLow replies data len m = some (start, m')) :
    (start = data ∧ m' = m) ∨
      (addr1mb ≤ start ∧ start + len ≤ addr2gb ∧ start % pageSize = 0) ∧
        (∃ e, Reported replies e ∧ e.start ≤ start ∧ start + len ≤ (e.start + e.len) % 2 ^ 64 ∧
          ∀ other, other % pageSize = 0 → other + len ≤ addr2gb →
            other + len ≤ (e.start + e.len) % 2 ^ 64 → other ≤ start) ∧
        m' = m.copy start m data len := by
  rcases relocateMemoryLow_some h with hstay | ⟨e, hreported, hplace, rfl⟩
  · exact Or.inl hstay
  · obtain ⟨h1mb, h2gb, hmod, hstart, hend⟩ := lowPlacement_spec hplace
    exact Or.inr ⟨⟨h1mb, h2gb, hmod⟩,
      ⟨e, hreported, hstart, hend, fun _ h₁ h₂ h₃ => le_lowPlacement hplace h₁ h₂ h₃⟩,
      memmove_eq_copy m (h2gb.trans (by decide)) hdata⟩

/-- Two gigabytes of RAM, as one region. -/
def lowRam : Int15Reply := ⟨e820Smap, 0, 20, false, ⟨0, addr2gb, e820TypeRam, 0⟩⟩

/-- Three bytes at 4 MB are moved to the last page. -/
theorem relocateMemoryLow_spec_lowRam :
    (0x7ffff000 = 0x400000 ∧ memmove Mem.zero 0x7ffff000 0x400000 3 = Mem.zero) ∨
      (addr1mb ≤ 0x7ffff000 ∧ 0x7ffff000 + 3 ≤ addr2gb ∧ 0x7ffff000 % pageSize = 0) ∧
        (∃ e, Reported [lowRam] e ∧ e.start ≤ 0x7ffff000 ∧
          0x7ffff000 + 3 ≤ (e.start + e.len) % 2 ^ 64 ∧
          ∀ other, other % pageSize = 0 → other + 3 ≤ addr2gb →
            other + 3 ≤ (e.start + e.len) % 2 ^ 64 → other ≤ 0x7ffff000) ∧
        memmove Mem.zero 0x7ffff000 0x400000 3 = Mem.zero.copy 0x7ffff000 Mem.zero 0x400000 3 := by
  have hplace : firstPlacement (lowPlacement 3) 2 false 0 [lowRam] = some (some 0x7ffff000) := by
    decide
  have hmoved : relocateMemoryLow [lowRam] 0x400000 3 Mem.zero =
      some (0x7ffff000, memmove Mem.zero 0x7ffff000 0x400000 3) := by
    rw [relocateMemoryLow, List.length_singleton, hplace]
    rfl
  exact relocateMemoryLow_spec (by decide) hmoved

/-! ## Memory under paging -/

/-- The memory as it is seen with paging enabled. -/
def view (pd : ℕ → ℕ) (m : Mem) : Mem := fun v => m (translate pd v)

/-- A page that shows a physical address and has been changed there, if what is seen has become
another memory. -/
def changedPage (pd : ℕ → ℕ) (m seen : Mem) (x : ℕ) : Option ℕ :=
  (List.range 2048).find? fun p =>
    pd p / pageSize2mb = x / pageSize2mb ∧ seen (p * pageSize2mb + x % pageSize2mb) ≠ m x

/-- The physical memory, if what is seen of it has become another memory. -/
def unview (pd : ℕ → ℕ) (m seen : Mem) : Mem := fun x =>
  (changedPage pd m seen x).elim (m x) fun p => seen (p * pageSize2mb + x % pageSize2mb)

section View

variable {pd : ℕ → ℕ} {m seen : Mem}

/-- Below 2 MB the physical memory is seen, if the first page is mapped to itself. -/
theorem view_low (hpd : pd 0 / pageSize2mb = 0) {v : ℕ} (hv : v < pageSize2mb) :
    view pd m v = m v := by
  rw [view, translate, Nat.div_eq_of_lt hv, hpd, Nat.zero_mul, Nat.zero_add, Nat.mod_eq_of_lt hv]

/-- No page but the first has been changed by a change below 2 MB. -/
theorem changedPage_eq_zero (hkept : ∀ v, pageSize2mb ≤ v → v < 2 ^ 32 → seen v = view pd m v)
    {x p : ℕ} (h : changedPage pd m seen x = some p) : p = 0 := by
  rw [changedPage] at h
  have hp := List.find?_some h
  have hmem := List.mem_range.mp (List.mem_of_find?_eq_some h)
  rw [decide_eq_true_eq] at hp
  by_contra hne
  have hpos : 0 < p := Nat.pos_of_ne_zero hne
  have hdiv : (p * pageSize2mb + x % pageSize2mb) / pageSize2mb = p := by
    rw [pageSize2mb]
    omega
  have hmod : (p * pageSize2mb + x % pageSize2mb) % pageSize2mb = x % pageSize2mb := by
    rw [pageSize2mb]
    omega
  have hseen := hkept (p * pageSize2mb + x % pageSize2mb)
    (by rw [pageSize2mb]; omega) (by rw [pageSize2mb]; omega)
  rw [view, translate, hdiv, hmod, hp.1, Nat.div_add_mod'] at hseen
  exact hp.2 hseen

/-- The first page has been changed at an address below 2 MB, or has not. -/
theorem changedPage_low (hpd : pd 0 / pageSize2mb = 0)
    (hkept : ∀ v, pageSize2mb ≤ v → v < 2 ^ 32 → seen v = view pd m v) {x : ℕ}
    (hx : x < pageSize2mb) :
    changedPage pd m seen x = some 0 ∨ changedPage pd m seen x = none ∧ seen x = m x := by
  cases h : changedPage pd m seen x with
  | some p => exact Or.inl (congrArg some (changedPage_eq_zero hkept h))
  | none =>
      refine Or.inr ⟨rfl, ?_⟩
      rw [changedPage, List.find?_eq_none] at h
      have hnone := h 0 (List.mem_range.mpr Nat.ofNat_pos)
      rw [decide_eq_true_eq, hpd, Nat.div_eq_of_lt hx, Nat.zero_mul, Nat.zero_add,
        Nat.mod_eq_of_lt hx] at hnone
      exact not_not.mp fun hne => hnone ⟨rfl, hne⟩

/-- Above, no page has. -/
theorem changedPage_high (hpd : pd 0 / pageSize2mb = 0)
    (hkept : ∀ v, pageSize2mb ≤ v → v < 2 ^ 32 → seen v = view pd m v) {x : ℕ}
    (hx : pageSize2mb ≤ x) : changedPage pd m seen x = none := by
  cases h : changedPage pd m seen x with
  | none => rfl
  | some p =>
      obtain rfl := changedPage_eq_zero hkept h
      rw [changedPage] at h
      have hp := List.find?_some h
      rw [decide_eq_true_eq, hpd] at hp
      have hpos : 0 < x / pageSize2mb := Nat.div_pos hx (by decide)
      omega

/-- **A change below 2 MB** changes the physical memory there. -/
theorem unview_eq (hpd : pd 0 / pageSize2mb = 0)
    (hkept : ∀ v, pageSize2mb ≤ v → v < 2 ^ 32 → seen v = view pd m v) (x : ℕ) :
    unview pd m seen x = if x < pageSize2mb then seen x else m x := by
  rw [unview]
  by_cases hx : x < pageSize2mb
  · rw [if_pos hx]
    rcases changedPage_low hpd hkept hx with h | ⟨h, hseen⟩
    · rw [h, Option.elim_some, Nat.zero_mul, Nat.zero_add, Nat.mod_eq_of_lt hx]
    · rw [h, Option.elim_none, hseen]
  · rw [if_neg hx, changedPage_high hpd hkept (not_lt.mp hx), Option.elim_none]

end View

end Ntloader.Paging
