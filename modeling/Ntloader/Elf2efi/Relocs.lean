import Ntloader.Arch
import Ntloader.Lib.Bits
import Ntloader.Lib.Groups
import Ntloader.Lib.Memory

/-!
# The relocation table of elf2efi: its model in utils/elf2efi.c

Fix-ups are collected in a list of pages, each with an array of entries that grows by doubling. A
page is written with a number of entries that is even, so that one beyond the last may be written.

* `generatePeReloc` — one fix-up; `generateAll` — a list of them.
* `outputPeReltab` — the size of the table, and the table in memory if there is a buffer.
* `PeRelocs.Holds` — the array holds a list of entries, and zeros behind them;
  `generateAll_collect` — the pages hold what is collected under their addresses.

Scope: `unsigned long` is that of the build of the tool; the counters of a page are those of 32 bits,
sizes of memory are unbounded. An array of 2^31 entries, whose doubled length is zero, is not
followed further. Failures to allocate memory are left out.
-/

namespace Ntloader.Elf2efi

open Ntloader.Lib

/-! ## Fix-ups -/

/-- The fix-ups of one page, without the pointer to the next page.
Source: utils/elf2efi.c, struct pe_relocs -/
structure PeRelocs where
  /-- `start_rva`, an `unsigned long`. -/
  startRva : ℕ
  /-- `used_relocs` -/
  usedRelocs : ℕ
  /-- `total_relocs` -/
  totalRelocs : ℕ
  /-- The array that `relocs` points to. -/
  relocs : List ℕ
  deriving DecidableEq

/-- The entry for a fix-up: its offset within the page, under the type for its size. Other sizes end
the tool.
Source: utils/elf2efi.c, generate_pe_reloc, `reloc` -/
def relocEntry (rva size : ℕ) : Option ℕ :=
  let reloc := rva &&& 0xfff
  if size = 8 then some (reloc ||| 0xa000)
  else if size = 4 then some (reloc ||| 0x3000)
  else if size = 2 then some (reloc ||| 0x2000)
  else none

/-- The address of the page, `rva & ~0xfff`.
Source: utils/elf2efi.c, generate_pe_reloc, `start_rva` -/
def pageStart (arch : Arch) (rva : ℕ) : ℕ := rva &&& (arch.ulong - 1 - 0xfff)

namespace PeRelocs

/-- Expand relocation list if necessary.
Source: utils/elf2efi.c, generate_pe_reloc -/
def expand (p : PeRelocs) : PeRelocs :=
  if p.usedRelocs < p.totalRelocs then p
  else
    let total := if p.totalRelocs ≠ 0 then p.totalRelocs * 2 % 2 ^ 32 else 256
    { p with
      totalRelocs := total
      relocs := p.relocs.take p.usedRelocs ++ List.replicate (total - p.usedRelocs) 0 }

/-- Store relocation.
Source: utils/elf2efi.c, generate_pe_reloc -/
def push (reloc : ℕ) (p : PeRelocs) : PeRelocs :=
  let p := p.expand
  { p with
    relocs := p.relocs.set p.usedRelocs reloc
    usedRelocs := (p.usedRelocs + 1) % 2 ^ 32 }

end PeRelocs

/-- Store a relocation in its page, if there is one.
Source: utils/elf2efi.c, generate_pe_reloc, `for ( pe_rel = *pe_reltab ; ... )` -/
def pushWithin (startRva reloc : ℕ) : List PeRelocs → Option (List PeRelocs)
  | [] => none
  | p :: ps =>
      if p.startRva = startRva then some (p.push reloc :: ps)
      else (pushWithin startRva reloc ps).map (p :: ·)

/-- Generate entry in PE relocation table.
Source: utils/elf2efi.c, generate_pe_reloc -/
def generatePeReloc (arch : Arch) (rva size : ℕ) (reltab : List PeRelocs) :
    Option (List PeRelocs) :=
  let startRva := pageStart arch rva
  (relocEntry rva size).map fun reloc =>
    (pushWithin startRva reloc reltab).getD (PeRelocs.push reloc ⟨startRva, 0, 0, []⟩ :: reltab)

/-- Generate entries for a list of addresses and sizes.
Source: utils/elf2efi.c, process_relocs -/
def generateAll (arch : Arch) : List (ℕ × ℕ) → List PeRelocs → Option (List PeRelocs)
  | [], reltab => some reltab
  | c :: calls, reltab => (generatePeReloc arch c.1 c.2 reltab).bind (generateAll arch calls)

/-! ## The table in memory -/

/-- The number of entries that are written.
Source: utils/elf2efi.c, output_pe_reltab, `num_relocs` -/
def PeRelocs.numRelocs (p : PeRelocs) : ℕ := ((p.usedRelocs + 1) % 2 ^ 32) &&& (2 ^ 32 - 1 - 1)

/-- The size of a page's block.
Source: utils/elf2efi.c, output_pe_reltab, `size` -/
def PeRelocs.blockSize (p : PeRelocs) : ℕ := 4 + 4 + p.numRelocs * 2

/-- 16-bit entries, one after the other. -/
def entryBytes (entries : List ℕ) : List UInt8 := entries.flatMap (leBytes 2)

/-- The loop of `output_pe_reltab`, `total` being `total_size`.
Source: utils/elf2efi.c, output_pe_reltab -/
def outputLoop (buffer : Option ℕ) : List PeRelocs → ℕ → Mem → ℕ × Mem
  | [], total, m => (total, m)
  | p :: ps, total, m =>
      let m := match buffer with
        | some buf =>
            ((m.putWord (buf + total) 4 p.startRva).putWord (buf + total + 4) 4 p.blockSize).store
              (buf + total + 8) (entryBytes (p.relocs.take p.numRelocs))
        | none => m
      outputLoop buffer ps (total + p.blockSize) m

/-- Calculate size of binary PE relocation table, and write the table if there is a buffer.
Source: utils/elf2efi.c, output_pe_reltab -/
def outputPeReltab (reltab : List PeRelocs) (buffer : Option ℕ) (m : Mem) : ℕ × Mem :=
  outputLoop buffer reltab 0 m

/-- Adjust RVAs to match ImageBase.
Source: utils/elf2efi.c, update_image_base, `pe_rel->start_rva -= base` -/
def PeRelocs.rebase (arch : Arch) (base : ℕ) (p : PeRelocs) : PeRelocs :=
  { p with startRva := (p.startRva + (arch.ulong - base)) % arch.ulong }

/-! ## What the array of a page holds -/

/-- The array holds the entries, and zeros behind them. -/
structure PeRelocs.Holds (p : PeRelocs) (entries : List ℕ) : Prop where
  used_eq : p.usedRelocs = entries.length
  length_le : entries.length ≤ p.totalRelocs
  even : 2 ∣ p.totalRelocs
  relocs_eq : p.relocs = entries ++ List.replicate (p.totalRelocs - entries.length) 0

namespace PeRelocs

variable {p : PeRelocs} {entries : List ℕ}

/-- An empty table holds nothing. -/
theorem holds_nil (startRva : ℕ) : Holds ⟨startRva, 0, 0, []⟩ [] := ⟨rfl, le_rfl, dvd_zero 2, rfl⟩

/-- More room leaves the start of the page. -/
@[simp] theorem expand_startRva (p : PeRelocs) : p.expand.startRva = p.startRva := by
  rw [expand]
  split_ifs
  · rfl
  · rfl
  · rfl

/-- An array that has been expanded has room for an entry. -/
theorem Holds.expand (h : p.Holds entries) (hlt : entries.length < 2 ^ 31) :
    p.expand.Holds entries ∧ entries.length < p.expand.totalRelocs := by
  have hle := h.length_le
  have heven := h.even
  rw [PeRelocs.expand, h.used_eq]
  by_cases hroom : entries.length < p.totalRelocs
  · rw [if_pos hroom]
    exact ⟨h, hroom⟩
  · rw [if_neg hroom]
    have hfull : p.totalRelocs = entries.length := by omega
    have htake : p.relocs.take entries.length = entries := by rw [h.relocs_eq, List.take_left]
    dsimp only
    rw [htake]
    by_cases hzero : p.totalRelocs = 0
    · rw [if_neg (not_not.mpr hzero)]
      exact ⟨⟨rfl, by dsimp only; omega, by norm_num, rfl⟩, by omega⟩
    · rw [if_pos hzero, Nat.mod_eq_of_lt (by omega)]
      exact ⟨⟨rfl, by dsimp only; omega, by dsimp only; omega, rfl⟩, by omega⟩

/-- **A relocation goes behind the others.** -/
theorem Holds.push (h : p.Holds entries) (hlt : entries.length < 2 ^ 31) (reloc : ℕ) :
    (p.push reloc).Holds (entries ++ [reloc]) := by
  obtain ⟨hexpand, hroom⟩ := h.expand hlt
  have hset : (entries ++ List.replicate (p.expand.totalRelocs - entries.length) 0).set
      entries.length reloc =
        entries ++ [reloc] ++
          List.replicate (p.expand.totalRelocs - (entries ++ [reloc]).length) 0 := by
    obtain ⟨k, hk⟩ := Nat.exists_eq_add_of_lt hroom
    rw [List.set_append_right _ _ le_rfl, Nat.sub_self, List.length_append, List.length_singleton,
      show p.expand.totalRelocs - entries.length = k + 1 by omega,
      show p.expand.totalRelocs - (entries.length + 1) = k by omega, List.replicate_succ,
      List.set_cons_zero, List.append_assoc, List.singleton_append]
  rw [PeRelocs.push]
  refine ⟨?_, ?_, hexpand.even, ?_⟩
  · dsimp only
    rw [hexpand.used_eq, List.length_append, List.length_singleton, Nat.mod_eq_of_lt (by omega)]
  · dsimp only
    rw [List.length_append, List.length_singleton]
    omega
  · dsimp only
    rw [hexpand.relocs_eq, hexpand.used_eq, hset]

/-- One more entry leaves the start of the page. -/
@[simp] theorem push_startRva (p : PeRelocs) (reloc : ℕ) :
    (p.push reloc).startRva = p.startRva := expand_startRva p

/-- The entries that are written: those of the page, and a zero if their number is odd. -/
theorem Holds.take_numRelocs (h : p.Holds entries) (hlt : entries.length < 2 ^ 31) :
    p.numRelocs = entries.length + entries.length % 2 ∧
      p.relocs.take p.numRelocs = entries ++ List.replicate (entries.length % 2) 0 := by
  have hle := h.length_le
  have heven := h.even
  have hnum : p.numRelocs = entries.length + entries.length % 2 := by
    rw [numRelocs, h.used_eq, Nat.mod_eq_of_lt (by omega),
      show 2 ^ 32 - 1 - 1 = (2 ^ 31 - 1) <<< 1 from rfl, land_mask, Nat.shiftLeft_eq]
    omega
  refine ⟨hnum, ?_⟩
  rw [hnum, h.relocs_eq, List.take_length_add_append, List.take_replicate]
  congr 2
  omega

end PeRelocs

/-! ## The pages hold what is collected -/

/-- A page holds a group. -/
structure PeRelocs.Represents (p : PeRelocs) (g : ℕ × List ℕ) : Prop extends p.Holds g.2 where
  startRva_eq : p.startRva = g.1

/-- A relocation goes into the page of its group. -/
theorem pushWithin_addWithin {startRva : ℕ} (reloc : ℕ) {reltab : List PeRelocs}
    {gs : List (ℕ × List ℕ)} (h : List.Forall₂ PeRelocs.Represents reltab gs)
    (hlt : ∀ g ∈ gs, g.1 = startRva → g.2.length < 2 ^ 31) :
    Option.Rel (List.Forall₂ PeRelocs.Represents) (pushWithin startRva reloc reltab)
      (addWithin startRva reloc gs) := by
  induction h with
  | nil => exact .none
  | @cons p g ps gs hp hps ih =>
      rw [pushWithin, addWithin, hp.startRva_eq]
      by_cases hk : g.1 = startRva
      · rw [if_pos hk, if_pos hk]
        have hpush := hp.toHolds.push (hlt g List.mem_cons_self hk) reloc
        exact .some (.cons ⟨hpush, (PeRelocs.push_startRva p reloc).trans hp.startRva_eq⟩ hps)
      · rw [if_neg hk, if_neg hk]
        have hrel := ih fun g' hg' => hlt g' (List.mem_cons_of_mem _ hg')
        generalize pushWithin startRva reloc ps = x at hrel
        generalize addWithin startRva reloc gs = y at hrel
        cases hrel with
        | none => exact .none
        | some hxy => exact .some (.cons hp hxy)

/-- **One fix-up** is collected under the address of its page. -/
theorem generatePeReloc_addTo {arch : Arch} {rva size reloc : ℕ} {reltab : List PeRelocs}
    {gs : List (ℕ × List ℕ)} (h : List.Forall₂ PeRelocs.Represents reltab gs)
    (hreloc : relocEntry rva size = some reloc)
    (hlt : ∀ g ∈ gs, g.1 = pageStart arch rva → g.2.length < 2 ^ 31) :
    ∃ reltab', generatePeReloc arch rva size reltab = some reltab' ∧
      List.Forall₂ PeRelocs.Represents reltab' (addTo (pageStart arch rva) reloc gs) := by
  rw [generatePeReloc, hreloc, Option.map_some]
  refine ⟨_, rfl, ?_⟩
  have hrel := pushWithin_addWithin reloc h hlt
  rw [addTo]
  generalize pushWithin (pageStart arch rva) reloc reltab = x at hrel
  generalize addWithin (pageStart arch rva) reloc gs = y at hrel
  cases hrel with
  | none =>
      have hnew := (PeRelocs.holds_nil (pageStart arch rva)).push (by norm_num) reloc
      exact .cons ⟨hnew, PeRelocs.push_startRva _ reloc⟩ h
  | some hxy => exact hxy

/-- The number of fix-ups collected under an address. -/
def countAt (k : ℕ) (calls : List (ℕ × ℕ)) : ℕ := calls.countP (fun c => c.1 = k)

/-- **A list of fix-ups** is collected under the addresses of their pages. -/
theorem generateAll_collect {arch : Arch} {calls entries : List (ℕ × ℕ)}
    (hentries : List.Forall₂
      (fun c e => e.1 = pageStart arch c.1 ∧ relocEntry c.1 c.2 = some e.2) calls entries)
    {reltab : List PeRelocs} {gs : List (ℕ × List ℕ)}
    (h : List.Forall₂ PeRelocs.Represents reltab gs)
    (hcount : ∀ k, countAt k (groupPairs gs) + countAt k entries ≤ 2 ^ 31) :
    ∃ reltab', generateAll arch calls reltab = some reltab' ∧
      List.Forall₂ PeRelocs.Represents reltab' (collect entries gs) := by
  induction hentries generalizing reltab gs with
  | nil => exact ⟨reltab, rfl, h⟩
  | @cons c e calls entries hce _ ih =>
      obtain ⟨hpage, hentry⟩ := hce
      have hcons : ∀ k, countAt k (e :: entries) = countAt k entries + if e.1 = k then 1 else 0 := by
        intro k
        rw [countAt, List.countP_cons, countAt]
        simp only [decide_eq_true_eq]
      have hlt : ∀ g ∈ gs, g.1 = pageStart arch c.1 → g.2.length < 2 ^ 31 := by
        intro g hg hk
        have hlength := length_le_of_mem hg
        have hbound := hcount g.1
        rw [hcons, if_pos (hpage.trans hk.symm), countAt] at hbound
        omega
      obtain ⟨reltab', hgen, hrep⟩ := generatePeReloc_addTo h hentry hlt
      have hcount' : ∀ k,
          countAt k (groupPairs (addTo e.1 e.2 gs)) + countAt k entries ≤ 2 ^ 31 := by
        intro k
        have hbound := hcount k
        have hperm : countAt k (groupPairs (addTo e.1 e.2 gs)) =
            countAt k (groupPairs gs) + if e.1 = k then 1 else 0 := by
          rw [countAt, (addTo_pairs e.1 e.2 gs).countP_eq, List.countP_cons, countAt]
          simp only [decide_eq_true_eq]
        rw [hcons] at hbound
        rw [hperm]
        omega
      rw [← hpage] at hrep
      obtain ⟨reltab'', hgen', hrep'⟩ := ih hrep hcount'
      refine ⟨reltab'', ?_, hrep'⟩
      rw [generateAll, hgen]
      exact hgen'

end Ntloader.Elf2efi
