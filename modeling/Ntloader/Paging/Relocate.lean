import Ntloader.Paging.Memmap
import Ntloader.Lib.Memory

/-!
# Relocation above 4 GB

With paging, data at 32-bit addresses can be moved to physical memory above 4 GB: it is copied page
by page through a window, and each page is mapped to its copy.

* `mapPage`, `initPaging`, `relocateMemoryHigh` — kern/paging.c.
* `placement_spec` — where a region has room.
* `FragmentsCopied`, `copyFragments_run` — a run of the loop over the pages: the data are copied, and
  their pages are mapped to the copies.
* `relocateMemoryHigh_cases` — the data are left where they are, or moved to their `destination`.

Scope: the page directory is a state of its own; that the loader itself is not in the pages that are
moved is not modelled. The code is run by the BIOS build, where a pointer has 32 bits.
-/

namespace Ntloader.Paging

open Ntloader.Lib

/-! ## Pages -/

/-- Source: include/paging.h, PAGE_SIZE_2MB -/
def pageSize2mb : ℕ := 0x200000

/-- Source: include/paging.h, ADDR_4GB -/
def addr4gb : ℕ := 0x100000000

/-- Source: kern/paging.c, COPY_WINDOW -/
def copyWindow : ℕ := 0x200000

/-- An entry that maps a page: PG_P, PG_RW, PG_US and PG_PS.
Source: kern/paging.c, map_page -/
def pageEntry (paddr : ℕ) : ℕ := paddr ||| 0x87

/-- The page directories, and the physical memory. -/
structure PagingState where
  pd : ℕ → ℕ
  mem : Mem

/-- The physical address of a virtual one: a directory entry gives the page. -/
def translate (pd : ℕ → ℕ) (vaddr : ℕ) : ℕ :=
  pd (vaddr / pageSize2mb) / pageSize2mb * pageSize2mb + vaddr % pageSize2mb

/-- The byte at a virtual address. -/
def PagingState.read (st : PagingState) (vaddr : ℕ) : UInt8 := st.mem (translate st.pd vaddr)

/-- Write a byte at a virtual address. -/
def PagingState.write (st : PagingState) (vaddr : ℕ) (c : UInt8) : PagingState :=
  { st with mem := Function.update st.mem (translate st.pd vaddr) c }

/-- Map 2MB page directory entry containing address; `none` if a sanity check fails.
Source: kern/paging.c, map_page -/
def mapPage (st : PagingState) (vaddr paddr : ℕ) : Option PagingState :=
  if vaddr % pageSize2mb ≠ 0 then none
  else if paddr % pageSize2mb ≠ 0 then none
  else some { st with pd := Function.update st.pd (vaddr / pageSize2mb) (pageEntry paddr) }

/-- The page directory entries of the 32-bit address space map each page to itself. -/
def Identity (pd : ℕ → ℕ) : Prop := ∀ p < 2048, pd p = pageEntry (p * pageSize2mb)

/-- Initialise page directory entries.
Source: kern/paging.c, init_paging -/
def initPaging (st : PagingState) : Option PagingState :=
  (List.range 2048).foldlM (fun st i => mapPage st (i * pageSize2mb) (i * pageSize2mb)) st

/-! ## The relocation -/

/-- Find highest compatible placement within a region, in 64 bits.
Source: kern/paging.c, relocate_memory_high -/
def placement (e : E820Entry) (endAddr len : ℕ) : Option ℕ :=
  let start := (e.start + e.len) % 2 ^ 64
  if start < addr4gb then none
  else
    let start := ((start + 2 ^ 64 - endAddr) % 2 ^ 64 / pageSize2mb * pageSize2mb + endAddr) % 2 ^ 64
    let start := (start + 2 ^ 64 - len) % 2 ^ 64
    if start < e.start then none
    else if start < addr4gb then none
    else some start

/-- The loop over the memory map: a placement in the first region with room. The outer option is
`none` if the BIOS does not reply, or if the fuel is used up.
Source: kern/paging.c, relocate_memory_high -/
def findPlacement (endAddr len : ℕ) : ℕ → Bool → ℕ → List Int15Reply → Option (Option ℕ)
  | 0, _, _, _ => none
  | fuel + 1, prev, ebx, replies =>
      (memmapNext prev ebx replies).bind fun r =>
        match r with
        | (none, _, _) => some none
        | (some e, ebx, replies) =>
            match placement e endAddr len with
            | some start => some (some start)
            | none => findPlacement endAddr len fuel true ebx replies

/-- Copy bytes at virtual addresses. The source moves most of them four at a time, which is the same
where source and destination do not overlap.
Source: posix/string.c, memcpy -/
def copyBytes : ℕ → PagingState → ℕ → ℕ → PagingState
  | 0, st, _, _ => st
  | n + 1, st, dst, src => copyBytes n (st.write dst (st.read src)) (dst + 1) (src + 1)

/-- The loop over the 2MB pages of the data.
Source: kern/paging.c, relocate_memory_high, `Relocate to this region` -/
def copyFragments : ℕ → PagingState → ℕ → ℕ → ℕ → Option PagingState
  | 0, st, _, _, _ => some st
  | fuel + 1, st, dest, data, len =>
      if len = 0 then some st
      else
        let offset := data % pageSize2mb
        let fragLen := pageSize2mb - offset
        let fragLen := if fragLen > len then len else fragLen
        (mapPage st copyWindow (dest / pageSize2mb * pageSize2mb)).bind fun st =>
          let st := copyBytes fragLen st (copyWindow + offset) data
          (mapPage st (data - offset) (dest / pageSize2mb * pageSize2mb)).bind fun st =>
            copyFragments fuel st ((dest + fragLen) % 2 ^ 64) ((data + fragLen) % 2 ^ 32)
              (len - fragLen)

/-- Relocate data out of 32-bit address space, if possible: the address, and the state behind it.
The inner option is `none` if a sanity check fails.
Source: kern/paging.c, relocate_memory_high -/
def relocateMemoryHigh (paging : Bool) (st : PagingState) (replies : List Int15Reply)
    (data len : ℕ) : Option (Option (ℕ × PagingState)) :=
  if paging = false then some (some (data, st))
  else
    (findPlacement ((data + len) % 2 ^ 32) len (replies.length + 1) false 0 replies).map fun r =>
      match r with
      | none => some (data, st)
      | some start =>
          (copyFragments len st start data len).bind fun st =>
            (mapPage st copyWindow copyWindow).map fun st => (start, st)

/-! ## Entries -/

/-- An entry keeps the page in front of its flags. -/
theorem pageEntry_div (q : ℕ) : pageEntry (pageSize2mb * q) / pageSize2mb = q := by
  have h : pageEntry (pageSize2mb * q) = pageSize2mb * q + 0x87 :=
    (Nat.two_pow_add_eq_or_of_lt (i := 21) (by norm_num) q).symm
  rw [h, pageSize2mb]
  omega

/-- An address is translated to its page. -/
theorem translate_eq {pd : ℕ → ℕ} {vaddr q : ℕ}
    (h : pd (vaddr / pageSize2mb) = pageEntry (pageSize2mb * q)) :
    translate pd vaddr = pageSize2mb * q + vaddr % pageSize2mb := by
  rw [translate, h, pageEntry_div, Nat.mul_comm]

/-- A page that is mapped to itself is seen where it is. -/
theorem translate_identity {pd : ℕ → ℕ} {v : ℕ}
    (h : pd (v / pageSize2mb) = pageEntry (pageSize2mb * (v / pageSize2mb))) :
    translate pd v = v := by
  rw [translate_eq h, Nat.div_add_mod]

/-- A page is mapped by its entry. -/
theorem mapPage_eq (st : PagingState) (p q : ℕ) :
    mapPage st (pageSize2mb * p) (pageSize2mb * q) =
      some { st with pd := Function.update st.pd p (pageEntry (pageSize2mb * q)) } := by
  rw [mapPage, if_neg (not_not.mpr (Nat.mul_mod_right _ _)),
    if_neg (not_not.mpr (Nat.mul_mod_right _ _)), Nat.mul_div_cancel_left _ (by norm_num [pageSize2mb])]

/-- The page directory behind `init_paging` maps every page to itself. -/
theorem initPaging_identity (st : PagingState) :
    ∃ st', initPaging st = some st' ∧ Identity st'.pd ∧ st'.mem = st.mem := by
  have hfold : ∀ n, ∃ st', (List.range n).foldlM (fun st i => mapPage st (i * pageSize2mb)
      (i * pageSize2mb)) st = some st' ∧ (∀ p < n, st'.pd p = pageEntry (p * pageSize2mb)) ∧
      st'.mem = st.mem := by
    intro n
    induction n with
    | zero => exact ⟨st, rfl, fun p hp => absurd hp (Nat.not_lt_zero p), rfl⟩
    | succ n ih =>
        obtain ⟨st', hst', hpd, hmem⟩ := ih
        refine ⟨{ st' with pd := Function.update st'.pd n (pageEntry (pageSize2mb * n)) }, ?_,
          fun p hp => ?_, hmem⟩
        · rw [List.range_succ, List.foldlM_append, hst', Option.bind_eq_bind, Option.bind_some,
            List.foldlM_cons, Nat.mul_comm n, mapPage_eq]
          rfl
        · dsimp only
          by_cases hpn : p = n
          · rw [hpn, Function.update_self, Nat.mul_comm]
          · rw [Function.update_of_ne hpn, hpd p (by omega)]
  exact hfold 2048

/-! ## Placement -/

/-- A placement is in the region, above 4 GB, and at the same offset in a page as the data. There is
none in a region that wraps. -/
theorem placement_spec {e : E820Entry} {data len start : ℕ} (hdata : data + len ≤ 2 ^ 32)
    (h : placement e ((data + len) % 2 ^ 32) len = some start) :
    2 ^ 32 ≤ start ∧ e.start ≤ start ∧ start + len ≤ (e.start + e.len) % 2 ^ 64 ∧
      start % pageSize2mb = data % pageSize2mb := by
  have h2mb : pageSize2mb = 0x200000 := rfl
  have h4gb : addr4gb = 0x100000000 := rfl
  rw [placement] at h
  dsimp only at h
  rw [h2mb, h4gb] at h
  rw [h2mb]
  generalize hend : (data + len) % 2 ^ 32 = endAddr at h
  -- The end of the data is 2^32 at most, and is 0 then.
  have hendAddr : endAddr = data + len ∨ endAddr = 0 ∧ data + len = 2 ^ 32 := by omega
  generalize htop : (e.start + e.len) % 2 ^ 64 = top at h
  by_cases h₁ : top < 0x100000000
  · rw [if_pos h₁] at h
    cases h
  · rw [if_neg h₁] at h
    have htop' : top < 2 ^ 64 := by omega
    have hsub : (top + 2 ^ 64 - endAddr) % 2 ^ 64 = top - endAddr := by omega
    have hround : ((top - endAddr) / 0x200000 * 0x200000 + endAddr) % 2 ^ 64 =
        (top - endAddr) / 0x200000 * 0x200000 + endAddr := by omega
    -- The end of the data is added again, so that its length does not reach below 0.
    have hplace : ((top - endAddr) / 0x200000 * 0x200000 + endAddr + 2 ^ 64 - len) % 2 ^ 64 =
        (top - endAddr) / 0x200000 * 0x200000 + endAddr - len := by omega
    rw [hsub, hround, hplace] at h
    by_cases h₂ : (top - endAddr) / 0x200000 * 0x200000 + endAddr - len < e.start
    · rw [if_pos h₂] at h
      cases h
    · by_cases h₃ : (top - endAddr) / 0x200000 * 0x200000 + endAddr - len < 0x100000000
      · rw [if_neg h₂, if_pos h₃] at h
        cases h
      · rw [if_neg h₂, if_neg h₃] at h
        have hstart := Option.some.inj h
        omega

/-- A placement that is found is one in a region that has been reported. -/
theorem findPlacement_spec {endAddr len fuel ebx start : ℕ} {prev : Bool}
    {replies : List Int15Reply}
    (h : findPlacement endAddr len fuel prev ebx replies = some (some start)) :
    ∃ e, Reported replies e ∧ placement e endAddr len = some start := by
  induction fuel generalizing prev ebx replies with
  | zero => cases h
  | succ fuel ih =>
      rw [findPlacement] at h
      obtain ⟨⟨e, ebx', rest⟩, hnext, hr⟩ := Option.bind_eq_some_iff.mp h
      obtain ⟨hrep, hrest⟩ := memmapNext_mem hnext
      cases e with
      | none => cases hr
      | some e =>
          cases hplace : placement e endAddr len with
          | some start' =>
              simp only [hplace, Option.some.injEq] at hr
              exact ⟨e, hrep e rfl, hr ▸ hplace⟩
          | none =>
              simp only [hplace] at hr
              obtain ⟨e', ⟨r, hr', hram⟩, hp⟩ := ih hr
              exact ⟨e', ⟨r, hrest r hr', hram⟩, hp⟩

/-! ## Copying -/

/-- Bytes are copied from one run of physical memory to another that is above it. -/
theorem copyBytes_eq {n dst src pdst psrc : ℕ} {st : PagingState}
    (hdst : ∀ i < n, translate st.pd (dst + i) = pdst + i)
    (hsrc : ∀ i < n, translate st.pd (src + i) = psrc + i) (hle : psrc + n ≤ pdst) :
    copyBytes n st dst src = { st with mem := st.mem.copy pdst st.mem psrc n } := by
  induction n generalizing st dst src pdst psrc with
  | zero => rw [copyBytes, Mem.copy_zero]
  | succ n ih =>
      have hwrite : st.write dst (st.read src) =
          { st with mem := Function.update st.mem pdst (st.mem psrc) } := by
        rw [PagingState.write, PagingState.read, show translate st.pd dst = pdst from hdst 0 (by omega),
          show translate st.pd src = psrc from hsrc 0 (by omega)]
      rw [copyBytes, hwrite, @ih _ _ (pdst + 1) (psrc + 1) _ ?_ ?_ (by omega)]
      · have hfirst : Function.update st.mem pdst (st.mem psrc) = st.mem.copy pdst st.mem psrc 1 := by
          funext x
          rw [Mem.copy_apply]
          by_cases hx : x = pdst
          · rw [hx, Function.update_self, if_pos (by omega), Nat.sub_self, Nat.add_zero]
          · rw [Function.update_of_ne hx, if_neg (by omega)]
        dsimp only
        rw [hfirst, @Mem.copy_congr _ st.mem _ (psrc + 1) _ _ _ fun i hi =>
          Mem.copy_of_not_mem _ _ _ (by omega), Mem.copy_copy_append, Nat.add_comm 1]
      · intro i hi
        rw [Nat.add_assoc, Nat.add_comm 1, hdst (i + 1) (by omega), Nat.add_assoc, Nat.add_comm 1]
      · intro i hi
        rw [Nat.add_assoc, Nat.add_comm 1, hsrc (i + 1) (by omega), Nat.add_assoc, Nat.add_comm 1]

/-- To copy bytes leaves the pages. -/
@[simp] theorem copyBytes_pd (n : ℕ) (st : PagingState) (dst src : ℕ) :
    (copyBytes n st dst src).pd = st.pd := by
  induction n generalizing st dst src with
  | zero => rfl
  | succ n ih =>
      rw [copyBytes, ih]
      rfl

/-- Bytes are written at the destination only, wherever they are read. -/
theorem copyBytes_mem_of_not_mem {n dst src pdst x : ℕ} {st : PagingState}
    (hdst : ∀ i < n, translate st.pd (dst + i) = pdst + i) (hx : x < pdst ∨ pdst + n ≤ x) :
    (copyBytes n st dst src).mem x = st.mem x := by
  induction n generalizing st dst src pdst with
  | zero => rfl
  | succ n ih =>
      have hfirst : translate st.pd dst = pdst := hdst 0 (Nat.succ_pos n)
      rw [copyBytes, @ih _ _ (pdst + 1)]
      · rw [PagingState.write, hfirst]
        exact Function.update_of_ne (by omega) _ _
      · intro i hi
        rw [Nat.add_assoc, Nat.add_comm 1, Nat.add_assoc, Nat.add_comm 1]
        exact hdst (i + 1) (by omega)
      · omega

/-! ## The loop body -/

/-- The window is mapped to the destination of a page. -/
theorem translate_window {pd : ℕ → ℕ} {dest data fragLen : ℕ}
    (hmod : dest % pageSize2mb = data % pageSize2mb)
    (hfrag : data % pageSize2mb + fragLen ≤ pageSize2mb) :
    ∀ i < fragLen, translate (Function.update pd 1 (pageEntry (pageSize2mb * (dest / pageSize2mb))))
      (pageSize2mb * 1 + data % pageSize2mb + i) = dest + i := by
  intro i hi
  have hdiv : (pageSize2mb * 1 + data % pageSize2mb + i) / pageSize2mb = 1 := by
    simp only [pageSize2mb] at hfrag ⊢
    omega
  have hmapped : Function.update pd 1 (pageEntry (pageSize2mb * (dest / pageSize2mb)))
      ((pageSize2mb * 1 + data % pageSize2mb + i) / pageSize2mb) =
      pageEntry (pageSize2mb * (dest / pageSize2mb)) := by
    rw [hdiv, Function.update_self]
  rw [translate_eq hmapped]
  simp only [pageSize2mb] at hfrag hmod ⊢
  omega

/-- The state behind the loop body: the window is mapped, the data of a page are copied, and the
page is mapped. -/
def fragmentCopied (st : PagingState) (dest data fragLen : ℕ) : PagingState :=
  let e := pageEntry (pageSize2mb * (dest / pageSize2mb))
  let copied := copyBytes fragLen { st with pd := Function.update st.pd 1 e }
    (pageSize2mb * 1 + data % pageSize2mb) data
  { copied with pd := Function.update copied.pd (data / pageSize2mb) e }

/-- A round of the loop: the window is mapped, the fragment copied and its page mapped. -/
theorem fragmentCopied_eq (st : PagingState) (dest data fragLen : ℕ)
    (k : PagingState → Option PagingState) :
    ((mapPage st copyWindow (dest / pageSize2mb * pageSize2mb)).bind fun st =>
      let st := copyBytes fragLen st (copyWindow + data % pageSize2mb) data
      (mapPage st (data - data % pageSize2mb) (dest / pageSize2mb * pageSize2mb)).bind k) =
      k (fragmentCopied st dest data fragLen) := by
  have hwindow : copyWindow = pageSize2mb * 1 := rfl
  have hoffset : data - data % pageSize2mb = pageSize2mb * (data / pageSize2mb) := by
    have := Nat.div_add_mod data pageSize2mb
    omega
  rw [Nat.mul_comm (dest / pageSize2mb), hwindow, mapPage_eq, Option.bind_some]
  dsimp only
  rw [hoffset, mapPage_eq, Option.bind_some, fragmentCopied]

variable {st st' : PagingState} {dest data len fragLen p : ℕ}

/-- The page of the fragment is mapped to its destination, -/
@[simp] theorem fragmentCopied_pd_self :
    (fragmentCopied st dest data fragLen).pd (data / pageSize2mb) =
      pageEntry (pageSize2mb * (dest / pageSize2mb)) := by
  rw [fragmentCopied]
  exact Function.update_self _ _ _

/-- and no other is, but the window. -/
theorem fragmentCopied_pd_of_ne (h₁ : p ≠ 1) (h₂ : p ≠ data / pageSize2mb) :
    (fragmentCopied st dest data fragLen).pd p = st.pd p := by
  rw [fragmentCopied]
  dsimp only
  rw [Function.update_of_ne h₂, copyBytes_pd]
  exact Function.update_of_ne h₁ _ _

/-- The memory outside the copy is unchanged. -/
theorem fragmentCopied_mem_of_not_mem (hmod : dest % pageSize2mb = data % pageSize2mb)
    (hfrag : data % pageSize2mb + fragLen ≤ pageSize2mb) {x : ℕ}
    (hx : x < dest ∨ dest + fragLen ≤ x) :
    (fragmentCopied st dest data fragLen).mem x = st.mem x :=
  copyBytes_mem_of_not_mem (translate_window hmod hfrag) hx

/-- Data that are mapped to themselves are copied. -/
theorem fragmentCopied_mem (hdest : data + fragLen ≤ dest)
    (hmod : dest % pageSize2mb = data % pageSize2mb)
    (hfrag : data % pageSize2mb + fragLen ≤ pageSize2mb) (hpage : data / pageSize2mb ≠ 1)
    (hpd : st.pd (data / pageSize2mb) = pageEntry (pageSize2mb * (data / pageSize2mb))) :
    (fragmentCopied st dest data fragLen).mem = st.mem.copy dest st.mem data fragLen := by
  rw [fragmentCopied, @copyBytes_eq _ _ _ dest data _]
  · exact translate_window hmod hfrag
  · intro i hi
    have hdiv : (data + i) / pageSize2mb = data / pageSize2mb := by
      simp only [pageSize2mb] at hfrag ⊢
      omega
    apply translate_identity
    dsimp only
    rw [hdiv, Function.update_of_ne hpage, hpd]
  · exact hdest

/-! ## The loop over the pages -/

/-- How much of the data is in their first page. -/
def fragmentLen (data len : ℕ) : ℕ := min len (pageSize2mb - data % pageSize2mb)

/-- A fragment is not longer than what is left, -/
theorem fragmentLen_le (data len : ℕ) : fragmentLen data len ≤ len := Nat.min_le_left _ _

/-- it does not cross the end of its page, -/
theorem mod_add_fragmentLen_le (data len : ℕ) :
    data % pageSize2mb + fragmentLen data len ≤ pageSize2mb := by
  have hoffset : data % pageSize2mb < pageSize2mb := Nat.mod_lt _ (by norm_num [pageSize2mb])
  rw [fragmentLen]
  omega

/-- and it is not empty. -/
theorem fragmentLen_pos (hlen : 0 < len) : 0 < fragmentLen data len := by
  have hoffset : data % pageSize2mb < pageSize2mb := Nat.mod_lt _ (by norm_num [pageSize2mb])
  rw [fragmentLen]
  omega

/-- What is behind the first page begins with the next. -/
theorem div_add_fragmentLen (h : fragmentLen data len < len)
    (hmod : dest % pageSize2mb = data % pageSize2mb) :
    (dest + fragmentLen data len) / pageSize2mb = dest / pageSize2mb + 1 := by
  simp only [fragmentLen, pageSize2mb] at h hmod ⊢
  omega

/-- A page holds a part of the data. -/
def HoldsData (data len p : ℕ) : Prop := ∃ v, data ≤ v ∧ v < data + len ∧ v / pageSize2mb = p

/-- No page holds nothing. -/
theorem not_holdsData_zero (data p : ℕ) : ¬HoldsData data 0 p := by
  rintro ⟨v, hlow, hhigh, -⟩
  omega

/-- The pages of the data start at its own. -/
theorem HoldsData.le (h : HoldsData data len p) : data / pageSize2mb ≤ p := by
  obtain ⟨v, hlow, -, rfl⟩ := h
  exact Nat.div_le_div_right hlow

/-- The pages behind the first are those of the rest of the data. -/
theorem holdsData_fragment (hlen : 0 < len) :
    HoldsData data len p ↔ p = data / pageSize2mb ∨
      HoldsData (data + fragmentLen data len) (len - fragmentLen data len) p := by
  constructor
  · rintro ⟨v, hlow, hhigh, rfl⟩
    by_cases hv : v < data + fragmentLen data len
    · left
      simp only [fragmentLen, pageSize2mb] at hv ⊢
      omega
    · exact Or.inr ⟨v, by omega, by omega, rfl⟩
  · rintro (rfl | ⟨v, hlow, hhigh, rfl⟩)
    · exact ⟨data, le_rfl, by omega, rfl⟩
    · exact ⟨v, by omega, by omega, rfl⟩

/-- The rest of the data is in the pages behind the first. -/
theorem HoldsData.lt_of_rest
    (h : HoldsData (data + fragmentLen data len) (len - fragmentLen data len) p) :
    data / pageSize2mb < p := by
  have hlt : fragmentLen data len < len := by
    obtain ⟨v, hlow, hhigh, -⟩ := h
    omega
  have hle := h.le
  rw [div_add_fragmentLen hlt rfl] at hle
  omega

/-- A run of the loop: from the state in front of it to the one behind it. -/
inductive FragmentsCopied : ℕ → ℕ → ℕ → PagingState → PagingState → Prop
  | done (dest data : ℕ) (st : PagingState) : FragmentsCopied dest data 0 st st
  | fragment {dest data len : ℕ} {st st' : PagingState} (hlen : 0 < len)
      (hrest : FragmentsCopied (dest + fragmentLen data len) (data + fragmentLen data len)
        (len - fragmentLen data len) (fragmentCopied st dest data (fragmentLen data len)) st') :
      FragmentsCopied dest data len st st'

/-- The loop runs to its end. The addresses do not wrap in front of the last page. -/
theorem copyFragments_run {fuel : ℕ} (hfuel : len ≤ fuel) (hdest : dest + len ≤ 2 ^ 64)
    (hdata : data + len ≤ 2 ^ 32) :
    ∃ st', copyFragments fuel st dest data len = some st' ∧
      FragmentsCopied dest data len st st' := by
  induction fuel generalizing dest data len st with
  | zero =>
      obtain rfl : len = 0 := by omega
      exact ⟨st, rfl, .done dest data st⟩
  | succ fuel ih =>
      rw [copyFragments]
      by_cases hlen : len = 0
      · rw [if_pos hlen, hlen]
        exact ⟨st, rfl, .done dest data st⟩
      have hpos : 0 < len := Nat.pos_of_ne_zero hlen
      have hfrag : (if pageSize2mb - data % pageSize2mb > len then len
          else pageSize2mb - data % pageSize2mb) = fragmentLen data len := by
        rw [fragmentLen]
        split_ifs <;> omega
      have hle := fragmentLen_le data len
      have hmove := @fragmentLen_pos data len hpos
      rw [if_neg hlen]
      dsimp only
      rw [hfrag, fragmentCopied_eq]
      by_cases hlast : fragmentLen data len = len
      · have hdone := FragmentsCopied.done (dest + fragmentLen data len) (data + fragmentLen data len)
          (fragmentCopied st dest data (fragmentLen data len))
        rw [← Nat.sub_eq_zero_of_le hlast.ge] at hdone
        refine ⟨_, ?_, .fragment hpos hdone⟩
        rw [hlast, Nat.sub_self]
        cases fuel <;> rfl
      · rw [Nat.mod_eq_of_lt (show dest + fragmentLen data len < 2 ^ 64 by omega),
          Nat.mod_eq_of_lt (show data + fragmentLen data len < 2 ^ 32 by omega)]
        obtain ⟨st', hst', hrest⟩ := @ih
          (fragmentCopied st dest data (fragmentLen data len)) (dest + fragmentLen data len)
          (data + fragmentLen data len) (len - fragmentLen data len) (by omega) (by omega) (by omega)
        exact ⟨st', hst', .fragment hpos hrest⟩

/-- The physical memory outside the copy is unchanged. -/
theorem FragmentsCopied.mem_of_not_mem (h : FragmentsCopied dest data len st st')
    (hmod : dest % pageSize2mb = data % pageSize2mb) {x : ℕ} (hx : x < dest ∨ dest + len ≤ x) :
    st'.mem x = st.mem x := by
  induction h with
  | done => rfl
  | @fragment dest data len st st' hlen hrest ih =>
      have hle := fragmentLen_le data len
      rw [ih (Nat.ModEq.add_right _ hmod) (by omega)]
      exact fragmentCopied_mem_of_not_mem hmod (mod_add_fragmentLen_le data len) (by omega)

/-- A page without data is left as it is, but for the window. -/
theorem FragmentsCopied.pd_of_not_holdsData (h : FragmentsCopied dest data len st st')
    (h₁ : p ≠ 1) (hp : ¬HoldsData data len p) : st'.pd p = st.pd p := by
  induction h with
  | done => rfl
  | fragment hlen hrest ih =>
      rw [holdsData_fragment hlen, not_or] at hp
      rw [ih hp.2, fragmentCopied_pd_of_ne h₁ hp.1]

/-- A page with data is mapped to its copy. -/
theorem FragmentsCopied.pd_of_holdsData (h : FragmentsCopied dest data len st st')
    (hmod : dest % pageSize2mb = data % pageSize2mb) (h₁ : p ≠ 1) (hp : HoldsData data len p) :
    st'.pd p = pageEntry (pageSize2mb * (dest / pageSize2mb + (p - data / pageSize2mb))) := by
  induction h with
  | done dest data st => exact absurd hp (not_holdsData_zero data p)
  | @fragment dest data len st st' hlen hrest ih =>
      by_cases hbehind : HoldsData (data + fragmentLen data len) (len - fragmentLen data len) p
      · have hlt := hbehind.lt_of_rest
        have hmore : fragmentLen data len < len := by
          obtain ⟨v, hlow, hhigh, -⟩ := hbehind
          omega
        rw [ih (Nat.ModEq.add_right _ hmod) hbehind, div_add_fragmentLen hmore hmod,
          div_add_fragmentLen hmore rfl]
        congr 2
        omega
      · obtain rfl := ((holdsData_fragment hlen).mp hp).resolve_right hbehind
        rw [hrest.pd_of_not_holdsData h₁ hbehind, fragmentCopied_pd_self, Nat.sub_self,
          Nat.add_zero]

/-- Data that are mapped to themselves, outside the window, are copied. -/
theorem FragmentsCopied.mem_eq (h : FragmentsCopied dest data len st st')
    (hdest : data + len ≤ dest) (hmod : dest % pageSize2mb = data % pageSize2mb)
    (hpages : ∀ p, HoldsData data len p → p ≠ 1 ∧ st.pd p = pageEntry (pageSize2mb * p)) :
    st'.mem = st.mem.copy dest st.mem data len := by
  induction h with
  | done dest data st => exact (Mem.copy_zero _ _ _ _).symm
  | @fragment dest data len st st' hlen hrest ih =>
      have hle := fragmentLen_le data len
      obtain ⟨hpage, hpd⟩ := hpages _ ((holdsData_fragment hlen).mpr (Or.inl rfl))
      have hmem := @fragmentCopied_mem st dest data (fragmentLen data len) (by omega) hmod
        (mod_add_fragmentLen_le data len) hpage hpd
      rw [ih (by omega) (Nat.ModEq.add_right _ hmod) fun p hp => ?_, hmem]
      · have hsrc : ∀ i < len - fragmentLen data len,
            st.mem.copy dest st.mem data (fragmentLen data len) (data + fragmentLen data len + i) =
              st.mem (data + fragmentLen data len + i) := fun i hi =>
          Mem.copy_of_not_mem _ _ _ (by omega)
        rw [Mem.copy_congr _ _ hsrc, Mem.copy_copy_append, Nat.add_sub_cancel' hle]
      · obtain ⟨h₁, hpp⟩ := hpages p ((holdsData_fragment hlen).mpr (Or.inr hp))
        have hne : p ≠ data / pageSize2mb := hp.lt_of_rest.ne'
        exact ⟨h₁, (fragmentCopied_pd_of_ne h₁ hne).trans hpp⟩

/-! ## The result -/

/-- Where the data are moved, if there is paging and room.
Source: kern/paging.c, relocate_memory_high -/
def destination (paging : Bool) (replies : List Int15Reply) (data len : ℕ) : Option ℕ :=
  if paging = false then none
  else (findPlacement ((data + len) % 2 ^ 32) len (replies.length + 1) false 0 replies).join

/-- The destination is above 4 GB in a region that has been reported. -/
theorem destination_spec {paging : Bool} {replies : List Int15Reply} {start : ℕ}
    (hdata : data + len ≤ 2 ^ 32) (h : destination paging replies data len = some start) :
    2 ^ 32 ≤ start ∧ start % pageSize2mb = data % pageSize2mb ∧
      ∃ e, Reported replies e ∧ e.start ≤ start ∧ start + len ≤ (e.start + e.len) % 2 ^ 64 := by
  rw [destination] at h
  split_ifs at h
  obtain ⟨e, hrep, hplace⟩ := findPlacement_spec (Option.join_eq_some_iff.mp h)
  obtain ⟨hge, hstart, hend, hmod⟩ := placement_spec hdata hplace
  exact ⟨hge, hmod, e, hrep, hstart, hend⟩

/-- The data are left where they are, or copied to their destination. The window is mapped to itself
again. -/
theorem relocateMemoryHigh_cases {paging : Bool} {replies : List Int15Reply}
    {r : Option (ℕ × PagingState)} (hdata : data + len ≤ 2 ^ 32)
    (h : relocateMemoryHigh paging st replies data len = some r) :
    (destination paging replies data len = none ∧ r = some (data, st)) ∨
      ∃ start st', destination paging replies data len = some start ∧
        r = some (start, { st' with pd := Function.update st'.pd 1 (pageEntry (pageSize2mb * 1)) }) ∧
        FragmentsCopied start data len st st' := by
  have hspec := fun start => @destination_spec data len paging replies start hdata
  rw [relocateMemoryHigh] at h
  rw [destination] at hspec ⊢
  by_cases hpaging : paging = false
  · rw [if_pos hpaging] at h ⊢
    exact Or.inl ⟨rfl, (Option.some.inj h).symm⟩
  rw [if_neg hpaging] at h hspec ⊢
  obtain ⟨found, hfound, hr⟩ := Option.map_eq_some_iff.mp h
  rw [hfound] at hspec ⊢
  cases found with
  | none => exact Or.inl ⟨rfl, hr.symm⟩
  | some start =>
      obtain ⟨-, -, e, -, -, hend⟩ := hspec start rfl
      have htop : (e.start + e.len) % 2 ^ 64 < 2 ^ 64 := Nat.mod_lt _ (by norm_num)
      obtain ⟨st', hst', hcopied⟩ := @copyFragments_run st start data len len le_rfl (by omega) hdata
      have hmap : mapPage st' copyWindow copyWindow =
          some { st' with pd := Function.update st'.pd 1 (pageEntry (pageSize2mb * 1)) } :=
        mapPage_eq st' 1 1
      dsimp only at hr
      rw [hst', Option.bind_some, hmap, Option.map_some] at hr
      exact Or.inr ⟨start, st', rfl, hr.symm, hcopied⟩

/-- Where the pages of the data are mapped to copies, an address is translated to its distance from
the copy. -/
theorem translate_copy {pd : ℕ → ℕ} {start v : ℕ} (hstart : data ≤ start)
    (hmod : start % pageSize2mb = data % pageSize2mb) (hv : HoldsData data len (v / pageSize2mb))
    (h : pd (v / pageSize2mb) =
      pageEntry (pageSize2mb * (start / pageSize2mb + (v / pageSize2mb - data / pageSize2mb)))) :
    translate pd v = start + v - data := by
  have hpage := hv.le
  rw [translate_eq h]
  simp only [pageSize2mb] at hmod hpage ⊢
  omega

/-- Moving the data keeps it: it is in a region of RAM above 4 GB, every address of it is translated
to where it is and reads as before, and the window is mapped to itself. Otherwise nothing is
changed. -/
theorem relocateMemoryHigh_spec {paging : Bool} {st : PagingState} {replies : List Int15Reply}
    {data len : ℕ} {r : Option (ℕ × PagingState)} (hpd : Identity st.pd) (hlen : 0 < len)
    (hdata : data + len ≤ 2 ^ 32)
    (hwindow : data + len ≤ copyWindow ∨ copyWindow + pageSize2mb ≤ data)
    (hwrap : ∀ e, Reported replies e → e.start + e.len ≤ 2 ^ 64)
    (h : relocateMemoryHigh paging st replies data len = some r) :
    ∃ start st', r = some (start, st') ∧
      (2 ^ 32 ≤ start →
        (∃ e, Reported replies e ∧ e.start ≤ start ∧ start + len ≤ e.start + e.len) ∧
        start % pageSize2mb = data % pageSize2mb ∧
        (∀ v, data ≤ v → v < data + len →
          translate st'.pd v = start + (v - data) ∧ st'.read v = st.read v) ∧
        ∀ v, copyWindow ≤ v → v < copyWindow + pageSize2mb → translate st'.pd v = v) ∧
      (start < 2 ^ 32 → start = data ∧ st' = st) := by
  rcases relocateMemoryHigh_cases hdata h with ⟨-, hr⟩ | ⟨start, st', hdest, hr, hcopied⟩
  · refine ⟨data, st, hr, fun hge => ?_, fun _ => ⟨rfl, rfl⟩⟩
    omega
  obtain ⟨hge, hmod, e, hrep, hstart, hend⟩ := destination_spec hdata hdest
  have htop := hwrap e hrep
  have hmod64 := Nat.mod_le (e.start + e.len) (2 ^ 64)
  have hpages : ∀ p, HoldsData data len p → p ≠ 1 ∧ st.pd p = pageEntry (pageSize2mb * p) := by
    rintro p ⟨v, hlow, hhigh, rfl⟩
    have hp : v / pageSize2mb < 2048 ∧ v / pageSize2mb ≠ 1 := by
      simp only [pageSize2mb, copyWindow] at hwindow ⊢
      omega
    exact ⟨hp.2, by rw [hpd _ hp.1, Nat.mul_comm]⟩
  refine ⟨start, _, hr, fun _ => ⟨⟨e, hrep, hstart, hend.trans hmod64⟩, hmod, fun v h₁ h₂ => ?_,
    fun v h₁ h₂ => ?_⟩, fun hlt => by omega⟩
  · have hholds : HoldsData data len (v / pageSize2mb) := ⟨v, h₁, h₂, rfl⟩
    obtain ⟨hne, hid⟩ := hpages _ hholds
    have hv : translate (Function.update st'.pd 1 (pageEntry (pageSize2mb * 1))) v =
        start + (v - data) := by
      rw [← Nat.add_sub_assoc h₁]
      apply translate_copy (by omega) hmod hholds
      rw [Function.update_of_ne hne, hcopied.pd_of_holdsData hmod hne hholds]
    refine ⟨hv, ?_⟩
    rw [PagingState.read, PagingState.read, hv, translate_identity hid]
    dsimp only
    rw [hcopied.mem_eq (by omega) hmod hpages, Mem.copy_of_mem _ _ _ (by omega) (by omega)]
    congr 1
    omega
  · apply translate_identity
    have hpage : v / pageSize2mb = 1 := by
      simp only [copyWindow, pageSize2mb] at h₁ h₂ ⊢
      omega
    rw [hpage]
    dsimp only
    rw [Function.update_self]

/-- Eight megabytes of RAM at 4 GB. -/
def highReply : Int15Reply :=
  ⟨e820Smap, 0, 20, false, ⟨addr4gb, 0x800000, e820TypeRam, 0⟩⟩

/-- Three bytes at 4 MB are moved. -/
theorem relocateMemoryHigh_three :
    ∃ start st', relocateMemoryHigh true ⟨fun p => pageEntry (p * pageSize2mb), Mem.zero⟩
        [highReply] 0x400000 3 = some (some (start, st')) ∧ 2 ^ 32 ≤ start ∧
      translate st'.pd 0x400001 = start + 1 := by
  have hrun : ((relocateMemoryHigh true ⟨fun p => pageEntry (p * pageSize2mb), Mem.zero⟩
      [highReply] 0x400000 3).bind fun r => r.map Prod.fst) = some 0x100600000 := by
    decide +kernel
  obtain ⟨r, hr, hval⟩ := Option.bind_eq_some_iff.mp hrun
  have hwrap : ∀ e, Reported [highReply] e → e.start + e.len ≤ 2 ^ 64 := by
    rintro e ⟨r, hr, -, rfl⟩
    rw [List.mem_singleton] at hr
    rw [hr]
    decide
  obtain ⟨start, st', rfl, hmoved, -⟩ := relocateMemoryHigh_spec (fun _ _ => rfl) (by decide)
    (by decide) (Or.inr (by decide)) hwrap hr
  have hstart : start = 0x100600000 := Option.some.inj hval
  have hge : 2 ^ 32 ≤ start := by omega
  exact ⟨start, st', hr, hge, ((hmoved hge).2.2.1 0x400001 (by decide) (by decide)).1⟩

end Ntloader.Paging
