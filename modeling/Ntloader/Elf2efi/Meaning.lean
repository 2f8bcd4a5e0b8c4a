import Ntloader.Elf2efi.Loaded

/-!
# The image of the ELF file is what is loaded

* `Made`, `Converted.Built` — what is made of the sections; `convert_built` — of all of them.
* `Described`, `Written` — the sections of the PE file, with their contents; `Converts.written` — those
  of a file that has been converted.
* `Kept` — raw data that nothing is written on; `Kept.contents` — it is in the file.
* `elfImage`, `movedImage` — the sections at the addresses they are linked to, and with the words
  adjusted that move; `Linked` — what a linker is relied on for.
* `Converts.place`, `Converts.encoded` — what is put in memory, and the base relocations.
* `elf2peFile_loaded` — a loader makes the moved image of what is written.
-/

namespace Ntloader.Elf2efi

open Ntloader.Lib

/-! ## What is made of a section -/

/-- A section that has a section header.
Source: utils/elf2efi.c, process_section, `hidden` -/
def Shown (target : Target) (hybrid : Bool) (segments : List Phdr) (shdr : Shdr) : Prop :=
  (placement target hybrid segments shdr).map Prod.snd = some false

instance (target : Target) (hybrid : Bool) (segments : List Phdr) (shdr : Shdr) :
    Decidable (Shown target hybrid segments shdr) := inferInstanceAs (Decidable (_ = _))

/-- The end of a section in memory.
Source: utils/elf2efi.c, process_section, `end` -/
def lastOf (arch : Arch) (shdr : Shdr) : ℕ :=
  efiImageAlign arch (shdr.addr % 2 ^ 32 + shdr.size % arch.ulong) % 2 ^ 32

/-- The length of the raw data of a section.
Source: utils/elf2efi.c, process_section, `section_filesz` -/
def fileszOf (arch : Arch) (shdr : Shdr) : ℕ :=
  if shdr.type = .progbits then efiFileAlign arch (shdr.size % arch.ulong) else 0

/-- A section as it has been made. -/
structure Made (arch : Arch) (target : Target) (hybrid : Bool) (segments : List Phdr) (shdr : Shdr)
    (s : PeSection) : Prop where
  address : s.virtualAddress = shdr.addr % 2 ^ 32
  size : s.virtualSize = shdr.size % arch.ulong % 2 ^ 32
  raw : s.sizeOfRawData = fileszOf arch shdr % 2 ^ 32
  hidden : (placement target hybrid segments shdr).map Prod.snd = some s.hidden
  type : shdr.type = .progbits ∨ shdr.type = .nobits

/-- A section is visible where it is shown. -/
theorem Made.shown_iff {arch : Arch} {target : Target} {hybrid : Bool} {segments : List Phdr}
    {shdr : Shdr} {s : PeSection} (h : Made arch target hybrid segments shdr s) :
    Shown target hybrid segments shdr ↔ s.hidden = false := by
  rw [Shown, h.hidden, Option.some_inj]

/-- The limits of code and data leave the size of the image, -/
@[simp] theorem extend_sizeOfImage (target : Target) (limits : Limits) (start memsz : ℕ)
    (hdr : PeHeader) : (hdr.extend target limits start memsz).sizeOfImage = hdr.sizeOfImage := by
  cases limits <;> rfl

/-- and the entry point. -/
@[simp] theorem extend_addressOfEntryPoint (target : Target) (limits : Limits) (start memsz : ℕ)
    (hdr : PeHeader) :
    (hdr.extend target limits start memsz).addressOfEntryPoint = hdr.addressOfEntryPoint := by
  cases limits <;> rfl

/-- The image reaches to the farthest end of a section. -/
theorem cover_sizeOfImage (last : ℕ) (hdr : PeHeader) :
    (hdr.cover last).sizeOfImage = max hdr.sizeOfImage last := by
  rw [PeHeader.cover]
  split_ifs with h
  · exact (max_eq_right (Nat.le_of_lt h)).symm
  · exact (max_eq_left (Nat.le_of_not_lt h)).symm

/-- The entry point is left. -/
@[simp] theorem cover_addressOfEntryPoint (last : ℕ) (hdr : PeHeader) :
    (hdr.cover last).addressOfEntryPoint = hdr.addressOfEntryPoint := by
  rw [PeHeader.cover]
  split_ifs <;> rfl

/-- What a section is made to, and what it does to the header. -/
theorem processSection_made {arch : Arch} {target : Target} {hybrid : Bool} {segments : List Phdr}
    {shdr : Shdr} {hdr hdr' : PeHeader} {new : PeSection}
    (h : processSection arch target hybrid segments shdr hdr = some (new, hdr')) :
    Made arch target hybrid segments shdr new ∧
      hdr'.sizeOfImage = max hdr.sizeOfImage (lastOf arch shdr) ∧
      hdr'.addressOfEntryPoint = hdr.addressOfEntryPoint := by
  rw [processSection] at h
  obtain ⟨⟨pointer, hidden⟩, hplace, h⟩ := Option.bind_eq_some_iff.mp h
  obtain ⟨limits, hlimits, heq⟩ := Option.map_eq_some_iff.mp h
  obtain ⟨rfl, rfl⟩ := Prod.mk.inj heq
  have htype : shdr.type = .progbits ∨ shdr.type = .nobits := by
    rw [applicable] at hlimits
    cases htype : shdr.type <;> simp [htype] at hlimits ⊢
  refine ⟨⟨rfl, rfl, rfl, ?_, htype⟩, ?_, ?_⟩
  · rw [hplace]
    rfl
  · rw [cover_sizeOfImage]
    cases hidden <;> simp [PeHeader.addSection, lastOf]
  · rw [cover_addressOfEntryPoint]
    cases hidden <;> simp [PeHeader.addSection]

/-- What has been made of the sections done. -/
structure Converted.Built (arch : Arch) (target : Target) (hybrid : Bool) (segments : List Phdr)
    (entry : ℕ) (done : List Shdr) (st : Converted) : Prop where
  made : List.Forall₂ (Made arch target hybrid segments) (done.filter (·.alloc)) st.sections
  entry_eq : st.hdr.addressOfEntryPoint = entry % 2 ^ 32
  size_eq : st.hdr.sizeOfImage =
    ((done.filter (·.alloc)).map (lastOf arch)).foldl max imageAlign

section
variable {arch : Arch} {target : Target} {hybrid : Bool} {segments : List Phdr} {entry : ℕ}

/-- **One input section.** -/
theorem Converted.Built.step {shdr : Shdr} {done : List Shdr} {st st' : Converted}
    (h : st.Built arch target hybrid segments entry done)
    (hstep : convertSection arch target hybrid segments st shdr = some st') :
    st'.Built arch target hybrid segments entry (done ++ [shdr]) := by
  rw [convertSection] at hstep
  by_cases halloc : shdr.alloc = true
  · rw [if_pos halloc] at hstep
    obtain ⟨⟨new, hdr⟩, hnew, rfl⟩ := Option.map_eq_some_iff.mp hstep
    obtain ⟨hmade, hsize, hentry⟩ := processSection_made hnew
    have hfilter : (done ++ [shdr]).filter (·.alloc) = done.filter (·.alloc) ++ [shdr] := by
      rw [List.filter_append, List.filter_cons_of_pos halloc, List.filter_nil]
    refine ⟨?_, hentry.trans h.entry_eq, ?_⟩
    · rw [hfilter]
      exact List.rel_append h.made (.cons hmade .nil)
    · rw [hfilter, List.map_append, List.foldl_append, ← h.size_eq]
      exact hsize
  · rw [if_neg halloc] at hstep
    have hfilter : (done ++ [shdr]).filter (·.alloc) = done.filter (·.alloc) := by
      rw [List.filter_append, List.filter_cons_of_neg halloc, List.filter_nil, List.append_nil]
    split_ifs at hstep
    · obtain ⟨reltab, _, rfl⟩ := Option.map_eq_some_iff.mp hstep
      exact ⟨by rw [hfilter]; exact h.made, h.entry_eq, by rw [hfilter]; exact h.size_eq⟩
    · obtain rfl := Option.some.inj hstep
      exact ⟨by rw [hfilter]; exact h.made, h.entry_eq, by rw [hfilter]; exact h.size_eq⟩

/-- **All input sections.** -/
theorem foldlM_built (todo : List Shdr) {done : List Shdr} {st st' : Converted}
    (h : st.Built arch target hybrid segments entry done)
    (hrun : todo.foldlM (convertSection arch target hybrid segments) st = some st') :
    st'.Built arch target hybrid segments entry (done ++ todo) := by
  induction todo generalizing done st with
  | nil =>
      obtain rfl := Option.some.inj hrun
      rwa [List.append_nil]
  | cons shdr todo ih =>
      rw [List.foldlM_cons] at hrun
      obtain ⟨st₁, hstep, hrest⟩ := Option.bind_eq_some_iff.mp hrun
      have hall := ih (h.step hstep) hrest
      rwa [List.append_assoc, List.singleton_append] at hall

end

/-- **What is converted is built from the sections of the file.** -/
theorem convert_built {arch : Arch} {target : Target} {hybrid : Bool} {elf : ElfFile}
    {st : Converted} (h : convert arch target hybrid elf = some st) :
    st.Built arch target hybrid elf.segments elf.entry elf.sections := by
  have hstart : Converted.Built arch target hybrid elf.segments elf.entry []
      ⟨efiPeHeader target elf.entry, [], []⟩ := ⟨.nil, rfl, rfl⟩
  exact foldlM_built elf.sections hstart h

/-! ## Places in memory -/

/-- The alignment of the image, as a division. -/
theorem efiImageAlign_eq (arch : Arch) (offset : ℕ) :
    efiImageAlign arch offset = (offset + 4095) % arch.ulong / 4096 * 4096 := by
  rw [efiImageAlign, alignLong, imageAlign]
  cases arch with
  | i386 =>
      rw [show Arch.i386.ulong - 1 - (0x1000 - 1) = (2 ^ 20 - 1) <<< 12 by decide, land_mask]
      rw [Nat.shiftLeft_eq]
      norm_num
      omega
  | x86_64 =>
      rw [show Arch.x86_64.ulong - 1 - (0x1000 - 1) = (2 ^ 52 - 1) <<< 12 by decide, land_mask]
      rw [Nat.shiftLeft_eq]
      norm_num
      omega

/-- A section that ends in front of the last page of 4 GB. -/
theorem lastOf_eq {arch : Arch} {shdr : Shdr} (h : shdr.addr + shdr.size + 4096 ≤ 2 ^ 32) :
    lastOf arch shdr = (shdr.addr + shdr.size + 4095) / 4096 * 4096 := by
  have hulong := arch.ulong_ge
  rw [lastOf, efiImageAlign_eq, Nat.mod_eq_of_lt (show shdr.addr < 2 ^ 32 by omega),
    Nat.mod_eq_of_lt (show shdr.size < arch.ulong by omega),
    Nat.mod_eq_of_lt (show shdr.addr + shdr.size + 4095 < arch.ulong by omega),
    Nat.mod_eq_of_lt (by omega)]

/-- A maximum is above its start and all numbers, -/
theorem le_foldl_max (ns : List ℕ) (n : ℕ) : n ≤ ns.foldl max n ∧ ∀ k ∈ ns, k ≤ ns.foldl max n := by
  induction ns generalizing n with
  | nil => exact ⟨le_rfl, nofun⟩
  | cons k ns ih =>
      obtain ⟨hle, hall⟩ := ih (max n k)
      refine ⟨(le_max_left n k).trans hle, fun k' hk' => ?_⟩
      rcases List.mem_cons.mp hk' with rfl | hk'
      · exact (le_max_right n k').trans hle
      · exact hall k' hk'

/-- and below a bound for them all. -/
theorem foldl_max_lt {ns : List ℕ} {n bound : ℕ} (hn : n < bound) (h : ∀ k ∈ ns, k < bound) :
    ns.foldl max n < bound := by
  induction ns generalizing n with
  | nil => exact hn
  | cons k ns ih =>
      exact ih (max_lt hn (h k List.mem_cons_self)) fun k' hk' => h k' (List.mem_cons_of_mem k hk')

/-- The lower of a base and the address of a section, if the section is visible.
Source: utils/elf2efi.c, update_image_base -/
def lower (base : ℕ) (s : PeSection) : ℕ :=
  if ¬s.hidden ∧ base > s.virtualAddress then s.virtualAddress else base

/-- The base comes down to a section that is not hidden. -/
theorem lower_le (base : ℕ) (s : PeSection) :
    lower base s ≤ base ∧ (s.hidden = false → lower base s ≤ s.virtualAddress) := by
  rw [lower]
  split_ifs with h
  · exact ⟨Nat.le_of_lt h.2, fun _ => le_rfl⟩
  · exact ⟨le_rfl, fun hs => Nat.le_of_not_lt fun hlt => h ⟨by simp [hs], hlt⟩⟩

/-- The base of an image is not above any section that is not hidden, -/
theorem foldl_lower_le (sections : List PeSection) (base : ℕ) :
    sections.foldl lower base ≤ base ∧
      ∀ s ∈ sections, s.hidden = false → sections.foldl lower base ≤ s.virtualAddress := by
  induction sections generalizing base with
  | nil => exact ⟨le_rfl, nofun⟩
  | cons t sections ih =>
      obtain ⟨hbase, hall⟩ := ih (lower base t)
      obtain ⟨hle, ht⟩ := lower_le base t
      refine ⟨hbase.trans hle, fun s hs hvisible => ?_⟩
      rcases List.mem_cons.mp hs with rfl | hs
      · exact hbase.trans (ht hvisible)
      · exact hall s hs hvisible

/-- and not below a bound for them all. -/
theorem le_foldl_lower {sections : List PeSection} {base a : ℕ} (hbase : a ≤ base)
    (h : ∀ s ∈ sections, s.hidden = false → a ≤ s.virtualAddress) :
    a ≤ sections.foldl lower base := by
  induction sections generalizing base with
  | nil => exact hbase
  | cons t sections ih =>
      refine ih ?_ fun s hs => h s (List.mem_cons_of_mem t hs)
      rw [lower]
      split_ifs with ht
      · exact h t List.mem_cons_self (Bool.eq_false_iff.mpr ht.1)
      · exact hbase

/-- **The image base** is a page in front of the lowest visible section. -/
theorem imageBase_eq {arch : Arch} {sections : List PeSection} {s₀ : PeSection}
    (h₀ : s₀ ∈ sections) (hvisible : s₀.hidden = false) (hpage : 4096 ≤ s₀.virtualAddress)
    (hlt : s₀.virtualAddress < arch.ulong)
    (hle : ∀ s ∈ sections, s.hidden = false → s₀.virtualAddress ≤ s.virtualAddress) :
    imageBase arch sections = s₀.virtualAddress - 4096 := by
  have hulong := arch.ulong_ge
  have hlowest : sections.foldl lower (arch.ulong - 1) = s₀.virtualAddress :=
    Nat.le_antisymm ((foldl_lower_le sections _).2 s₀ h₀ hvisible)
      (le_foldl_lower (Nat.le_sub_one_of_lt hlt) hle)
  have hbase : imageBase arch sections =
      (sections.foldl lower (arch.ulong - 1) + (arch.ulong - 0x1000)) % arch.ulong := rfl
  rw [hbase, hlowest, show s₀.virtualAddress + (arch.ulong - 0x1000) =
    s₀.virtualAddress - 4096 + arch.ulong by omega, Nat.add_mod_right, Nat.mod_eq_of_lt (by omega)]

/-- An address behind the base, less the base. -/
theorem lessBase_eq {arch : Arch} {base field : ℕ} (hle : base ≤ field) (hlt : field < 2 ^ 32) :
    lessBase arch base field = field - base := by
  have hulong : 2 ^ 32 ∣ arch.ulong := by
    cases arch with
    | i386 => exact dvd_rfl
    | x86_64 => exact ⟨2 ^ 32, by norm_num⟩
  obtain ⟨k, hk⟩ := hulong
  have hge := arch.ulong_ge
  rw [lessBase, show field + (arch.ulong - base) = field - base + 2 ^ 32 * k by omega,
    Nat.add_mul_mod_self_left, Nat.mod_eq_of_lt (by omega)]

/-! ## The sections of the file -/

/-- A section that has been given its place in the file. -/
structure Placed (s t : PeSection) : Prop where
  eq : t = { s with pointerToRawData := t.pointerToRawData }
  pointer_lt : t.pointerToRawData < 2 ^ 32

/-- Every section is placed; but for its place in the file it is what it was. -/
theorem assignPointers_placed (arch : Arch) (sections : List PeSection) (start : ℕ) :
    List.Forall₂ Placed sections (assignPointers arch sections start) := by
  induction sections generalizing start with
  | nil => exact .nil
  | cons s sections ih => exact .cons ⟨rfl, Nat.mod_lt _ (by norm_num)⟩ (ih _)

/-- A section of the PE file, with its contents, for an allocated section of the ELF file. -/
structure Described (arch : Arch) (target : Target) (hybrid : Bool) (segments : List Phdr)
    (base : ℕ) (file : List UInt8) (e : SectionHeader × Shdr) (o : PeSection × Contents) :
    Prop where
  address : o.1.virtualAddress = lessBase arch base (e.2.addr % 2 ^ 32)
  size : o.1.virtualSize = e.2.size % arch.ulong % 2 ^ 32
  raw : o.1.sizeOfRawData = fileszOf arch e.2 % 2 ^ 32
  pointer_lt : o.1.pointerToRawData < 2 ^ 32
  shown_iff : Shown target hybrid segments e.2 ↔ o.1.hidden = false
  type : e.2.type = .progbits ∨ e.2.type = .nobits
  contents : o.2 = sectionContents arch file e.1 e.2

section
variable {arch : Arch} {target : Target} {hybrid : Bool} {segments : List Phdr}

/-- Sections that are made and placed, with their contents, are described by those of the file. -/
theorem described_zip {base : ℕ} {file : List UInt8} {done : List (SectionHeader × Shdr)}
    {made placed : List PeSection}
    (hmade : List.Forall₂ (Made arch target hybrid segments) (done.map Prod.snd) made)
    (hplaced : List.Forall₂ Placed (made.map (PeSection.rebase arch base)) placed) :
    List.Forall₂ (Described arch target hybrid segments base file) done
      (placed.zip (done.map fun e => sectionContents arch file e.1 e.2)) := by
  induction done generalizing made placed with
  | nil =>
      cases hmade
      cases hplaced
      exact .nil
  | cons e done ih =>
      cases hmade with
      | cons hs hmade =>
          cases hplaced with
          | cons ht hplaced =>
              refine .cons ⟨?_, ?_, ?_, ht.pointer_lt, ?_, hs.type, rfl⟩ (ih hmade hplaced)
              · rw [ht.eq, ← hs.address]
                rfl
              · rw [ht.eq, ← hs.size]
                rfl
              · rw [ht.eq, ← hs.raw]
                rfl
              · rw [ht.eq]
                exact hs.shown_iff

end

/-- Lists that correspond to two lists one behind the other are split as they are. -/
theorem forall₂_append_split {α β : Type} {R : α → β → Prop} {xs xs' : List α} {ys : List β}
    (h : List.Forall₂ R (xs ++ xs') ys) :
    ∃ zs zs', ys = zs ++ zs' ∧ List.Forall₂ R xs zs ∧ List.Forall₂ R xs' zs' := by
  induction xs generalizing ys with
  | nil => exact ⟨[], ys, rfl, .nil, h⟩
  | cons x xs ih =>
      obtain ⟨y, ys, hxy, hrest, rfl⟩ := List.forall₂_cons_left_iff.mp h
      obtain ⟨zs, zs', rfl, hzs, hzs'⟩ := ih hrest
      exact ⟨y :: zs, zs', rfl, .cons hxy hzs, hzs'⟩

/-- A list of two that is related to another one. -/
theorem forall₂_singleton_left {α β : Type} {R : α → β → Prop} {x : α} {ys : List β}
    (h : List.Forall₂ R [x] ys) : ∃ y, ys = [y] ∧ R x y := by
  obtain ⟨y, ys, hxy, hnil, rfl⟩ := List.forall₂_cons_left_iff.mp h
  exact ⟨y, by rw [List.forall₂_nil_left_iff.mp hnil], hxy⟩

/-- The places in the file are all that is assigned. -/
theorem assignRawData_eq_some {arch : Arch} {hdr hdr' : PeHeader} {sections sections' : List PeSection}
    (h : assignRawData arch hdr sections = some (hdr', sections')) :
    ∃ fpos, hdr' = { hdr with sizeOfHeaders := fpos } ∧
      sections' = assignPointers arch sections fpos := by
  obtain ⟨_, h⟩ := Option.ite_none_left_eq_some.mp h
  obtain ⟨rfl, rfl⟩ := Prod.mk.inj (Option.some.inj h)
  exact ⟨_, rfl, rfl⟩

/-- What is written: the sections of the ELF file, that of the base relocations, and that of the debug
information. -/
structure Written (arch : Arch) (target : Target) (hybrid : Bool) (segments : List Phdr)
    (file : List UInt8) (entry : ℕ) (st : Progress) (hdr : PeHeader)
    (out : List (PeSection × Contents)) : Prop where
  imageBase_eq : hdr.imageBase = imageBase arch st.converted.sections % target.word
  entry_eq : hdr.addressOfEntryPoint =
    lessBase arch (imageBase arch st.converted.sections) (entry % 2 ^ 32)
  basereloc_eq : hdr.basereloc =
    ⟨lessBase arch (imageBase arch st.converted.sections) st.converted.hdr.sizeOfImage,
      (outputPeReltab st.converted.reltab none .zero).1 % 2 ^ 32⟩
  number_lt : hdr.numberOfSections < 2 ^ 16
  sections : ∃ inputs reloc debug, out = inputs ++ [reloc] ++ [debug] ∧
    List.Forall₂ (Described arch target hybrid segments (imageBase arch st.converted.sections) file)
      (st.done.filter (·.2.alloc)) inputs ∧
    (reloc.1.hidden = false ∧ reloc.1.pointerToRawData < 2 ^ 32 ∧
      reloc.1.virtualAddress = hdr.basereloc.virtualAddress ∧
      reloc.1.virtualSize = hdr.basereloc.size ∧
      reloc.1.sizeOfRawData =
        efiFileAlign arch (outputPeReltab st.converted.reltab none .zero).1 % 2 ^ 32 ∧
      reloc.2 = relocContents arch
        (st.converted.reltab.map (PeRelocs.rebase arch (imageBase arch st.converted.sections)))) ∧
    debug.1.hidden = true ∧ debug.2.name.length = 8

/-- **What is written of a file that has been converted.** -/
theorem Converts.written {arch : Arch} {target : Target} {hybrid : Bool} {file : List UInt8}
    {ehdr : Ehdr} {machine : ℕ} {st : Progress} {elf : ElfFile} {hdr : PeHeader}
    {sections : List PeSection} (h : Converts arch target hybrid file ehdr machine st elf)
    (filename : List UInt8) (hassign : assignRawData arch (finish arch target st.converted).1
      (finish arch target st.converted).2 = some (hdr, sections)) :
    Written arch target hybrid elf.segments file ehdr.entry st hdr
        (sections.zip (allContents arch target file filename st)) ∧
      (sections.zip (allContents arch target file filename st)).map Prod.fst = sections := by
  have hbuilt := convert_built h.convert_eq
  have hmade := hbuilt.made
  have hentry := hbuilt.entry_eq
  rw [h.sections_eq, List.filter_map] at hmade
  rw [h.entry_eq] at hentry
  have htable := congrArg Prod.fst (outputPeReltab_rebase arch (imageBase arch st.converted.sections)
    st.converted.reltab Mem.zero)
  obtain ⟨fpos, rfl, rfl⟩ := assignRawData_eq_some hassign
  have hplaced := assignPointers_placed arch (finish arch target st.converted).2 fpos
  generalize assignPointers arch (finish arch target st.converted).2 fpos = sections at hplaced ⊢
  rw [finish_eq] at hplaced
  obtain ⟨front, debugs, rfl, hplaced, hdebugs⟩ := forall₂_append_split hplaced
  obtain ⟨inputs, relocs, rfl, hinputs, hrelocs⟩ := forall₂_append_split hplaced
  obtain ⟨reloc, rfl, hreloc⟩ := forall₂_singleton_left hrelocs
  obtain ⟨debug, rfl, hdebug⟩ := forall₂_singleton_left hdebugs
  have hlength : inputs.length = (st.done.filter (·.2.alloc)).length := by
    have hlength₁ := hmade.length_eq
    have hlength₂ := hinputs.length_eq
    rw [List.length_map] at hlength₁ hlength₂
    exact hlength₂.symm.trans hlength₁.symm
  have hzip : (inputs ++ [reloc] ++ [debug]).zip (allContents arch target file filename st) =
      inputs.zip ((st.done.filter (·.2.alloc)).map fun e => sectionContents arch file e.1 e.2) ++
        [(reloc, relocContents arch
          (st.converted.reltab.map (PeRelocs.rebase arch (imageBase arch st.converted.sections))))] ++
        [(debug, debugContents (finish arch target st.converted).1.debug.virtualAddress filename)] := by
    rw [allContents, List.zip_append (by simp [hlength]), List.zip_append (by simp [hlength])]
    rfl
  rw [hzip]
  refine ⟨⟨?_, ?_, ?_, ?_, _, _, _, rfl, ?_, ⟨?_, hreloc.pointer_lt, ?_, ?_, ?_, rfl⟩, ?_, rfl⟩, ?_⟩
  · rw [finish_eq]
    rfl
  · rw [finish_eq, ← hentry]
    rfl
  · rw [finish_eq, ← htable]
    rfl
  · rw [finish_eq]
    exact Nat.mod_lt _ (by norm_num)
  · exact described_zip hmade hinputs
  · rw [hreloc.eq]
    rfl
  · rw [hreloc.eq, finish_eq]
    rfl
  · rw [hreloc.eq, finish_eq]
    rfl
  · rw [hreloc.eq, ← htable]
    rfl
  · rw [hdebug.eq]
    rfl
  · rw [List.map_append, List.map_append, List.map_fst_zip (by simp [hlength])]
    rfl

/-! ## The contents in the file -/

/-- The raw data of a visible section is behind the headers, and no later section is written on it. -/
structure Kept (target : Target) (sections : List PeSection) : Prop where
  headers : ∀ s ∈ sections, s.hidden = false → s.sizeOfRawData ≠ 0 →
    target.headerLen + sections.countP (!·.hidden) * sectionHeaderLen ≤ s.pointerToRawData
  apart : sections.Pairwise fun s t => s.hidden = false → s.sizeOfRawData ≠ 0 →
    t.sizeOfRawData ≠ 0 → s.rawEnd ≤ t.pointerToRawData ∨ t.rawEnd ≤ s.pointerToRawData

/-- A layout without overlaps keeps the raw data. -/
theorem LaidOut.kept {target : Target} {hdr : PeHeader} {sections : List PeSection}
    (h : LaidOut target hdr sections) : Kept target sections := by
  refine ⟨fun s hs hvisible hraw => ?_, h.apart.imp fun hst _ hs ht => hst hs ht⟩
  have hbehind := h.behind s hs hvisible hraw
  obtain ⟨front, debug, _, _, hsize, hwrites, hend⟩ := h.debug
  rw [PeSection.rawEnd] at hend
  have htable : target.headerLen + sections.countP (!·.hidden) * sectionHeaderLen ≤
      debug.pointerToRawData := by
    cases hcount : sections.countP (!·.hidden) with
    | zero => simpa using hwrites (0, target.headerLen) List.mem_cons_self
    | succ k =>
        have hlast := hwrites (target.headerLen + k * sectionHeaderLen, sectionHeaderLen)
          (List.mem_cons_of_mem _ (List.mem_map.mpr
            ⟨k, List.mem_range.mpr (by omega), rfl⟩))
        dsimp only at hlast
        rw [Nat.succ_mul]
        omega
  omega

/-- The length of the headers. -/
theorem headersBytes_length {target : Target} {machine subsystem : ℕ} {hdr : PeHeader}
    {out : List (PeSection × Contents)} (hnames : ∀ s ∈ out, s.2.name.length = 8) :
    (headersBytes target machine subsystem hdr out).length =
      target.headerLen + (out.map Prod.fst).countP (!·.hidden) * sectionHeaderLen := by
  have hall : ∀ l : List (PeSection × Contents), (∀ s ∈ l, s.2.name.length = 8) →
      (l.flatMap sectionHeaderBytes).length = l.length * sectionHeaderLen := by
    intro l hl
    induction l with
    | nil => rfl
    | cons s l ih =>
        rw [List.flatMap_cons, List.length_append, List.length_cons,
          sectionHeaderBytes_length (hl s List.mem_cons_self),
          ih fun t ht => hl t (List.mem_cons_of_mem s ht), sectionHeaderLen]
        ring
  rw [headersBytes, List.length_append, peHeaderBytes_length,
    hall _ fun s hs => hnames s (List.mem_filter.mp hs).1, ← List.countP_eq_length_filter,
    List.countP_map]
  rfl

/-- **The contents of a visible section are in the file.** -/
theorem Kept.contents {target : Target} {machine subsystem : ℕ} {hdr : PeHeader}
    {out : List (PeSection × Contents)} (h : Kept target (out.map Prod.fst))
    (hnames : ∀ s ∈ out, s.2.name.length = 8) {o : PeSection × Contents} (ho : o ∈ out)
    (hvisible : o.1.hidden = false) (hlen : o.2.contents.length = o.1.sizeOfRawData) {n : ℕ}
    (hn : n ≤ o.1.sizeOfRawData) :
    (Mem.ofList (outputFile target machine subsystem hdr out)).bytes o.1.pointerToRawData n =
      o.2.contents.take n := by
  by_cases hraw : o.1.sizeOfRawData = 0
  · obtain rfl : n = 0 := by omega
    rw [Mem.bytes_zero, List.take_zero]
  have hheaders := h.headers o.1 (List.mem_map_of_mem ho) hvisible hraw
  obtain ⟨front, later, rfl⟩ := List.append_of_mem ho
  rw [← @headersBytes_length target machine subsystem hdr _ hnames] at hheaders
  have hapart := h.apart
  rw [List.map_append, List.map_cons, List.pairwise_append, List.pairwise_cons] at hapart
  have hrun := outputFile_run hheaders fun t ht htraw =>
    hapart.2.1.1 t.1 (List.mem_map_of_mem ht) hvisible hraw htraw
  rw [List.length_take, hlen, Nat.min_self, ← hlen, List.take_length] at hrun
  rw [← hrun, Mem.take_bytes (hn.trans hlen.ge)]

/-! ## The image of the ELF file -/

/-- The bytes of a section in memory. -/
def elfBytes (file : List UInt8) (e : SectionHeader × Shdr) : List UInt8 :=
  if e.2.type = .progbits then (file.drop e.1.offset).take e.1.size
  else List.replicate e.2.size 0

/-- The sections of an image: those that are allocated and shown. -/
def imageSections (target : Target) (hybrid : Bool) (segments : List Phdr)
    (done : List (SectionHeader × Shdr)) : List (SectionHeader × Shdr) :=
  (done.filter (·.2.alloc)).filter fun e => Shown target hybrid segments e.2

/-- The sections at the addresses they are linked to. -/
def elfImage (file : List UInt8) (sections : List (SectionHeader × Shdr)) : Mem :=
  Mem.zero.storeAll (sections.map fun e => (e.2.addr, elfBytes file e))

/-- The image at its addresses, as it is to be where they are moved: the words that the relocation
records are about have what they are moved by added to them. -/
def movedImage (file : List UInt8) (sections : List (SectionHeader × Shdr)) (fixups : List (ℕ × ℕ))
    (delta : ℕ) : Mem :=
  (elfImage file sections).adjustAll delta fixups

/-- What a linker is relied on for: the lowest section begins a page that is not the first one, no two
overlap, the image and its base relocations are below 4 GB, and what is relocated, as well as the entry
point, is in a section. -/
structure Linked (entry : ℕ) (allocated sections : List (SectionHeader × Shdr))
    (fixups : List (ℕ × ℕ)) (tableLen : ℕ) : Prop where
  lowest : ∃ e₀ ∈ sections, 4096 ∣ e₀.2.addr ∧ 4096 ≤ e₀.2.addr ∧
    ∀ e ∈ sections, e₀.2.addr ≤ e.2.addr
  apart : sections.Pairwise fun e f => Apart (e.2.addr, e.2.size) (f.2.addr, f.2.size)
  end_le : ∀ e ∈ allocated, e.2.addr + e.2.size + tableLen + 8192 ≤ 2 ^ 32
  entry_inside : ∃ e ∈ sections, Within entry (e.2.addr, e.2.size)
  fixups_inside : ∀ c ∈ fixups, ∃ e ∈ sections, ∀ i < c.2, Within (c.1 + i) (e.2.addr, e.2.size)
  fixups_apart : fixups.Pairwise Apart

/-! ## What is put in memory -/

/-- The contents of a section of less than 4 GB fill its raw data. -/
theorem fileszOf_eq {arch : Arch} {shdr : Shdr} (h : shdr.size + 512 ≤ 2 ^ 32) :
    fileszOf arch shdr % 2 ^ 32 = if shdr.type = .progbits then alignedUp shdr.size else 0 := by
  have hulong := arch.ulong_ge
  rw [fileszOf, Nat.mod_eq_of_lt (show shdr.size < arch.ulong by omega),
    efiFileAlign_of_lt (show shdr.size + 511 < arch.ulong by omega)]
  split_ifs
  · refine Nat.mod_eq_of_lt ?_
    rw [alignedUp]
    omega
  · rfl

section
variable {arch : Arch} {target : Target} {hybrid : Bool} {segments : List Phdr} {base : ℕ}
  {file : List UInt8} {e : SectionHeader × Shdr} {o : PeSection × Contents}

/-- A section that has been read: its length, and where its contents are. -/
structure Inputted (file : List UInt8) (e : SectionHeader × Shdr) : Prop where
  size_eq : e.2.size = e.1.size
  contents : e.2.type = .progbits → e.1.offset + e.1.size ≤ file.length

/-- A section has as many bytes in the file as it states. -/
theorem elfBytes_length (h : Inputted file e) : (elfBytes file e).length = e.2.size := by
  rw [elfBytes]
  split_ifs with htype
  · have hin := h.contents htype
    rw [List.length_take, List.length_drop, h.size_eq]
    omega
  · exact List.length_replicate

/-- The contents that are written have the length that the header states. -/
theorem Described.contents_length (h : Described arch target hybrid segments base file e o)
    (hin : Inputted file e) (hsize : e.2.size + 512 ≤ 2 ^ 32) :
    o.2.contents.length = o.1.sizeOfRawData := by
  have hulong := arch.ulong_ge
  rw [h.raw, fileszOf_eq hsize, h.contents, sectionContents]
  dsimp only
  split_ifs with htype
  · have hbytes := elfBytes_length hin
    rw [elfBytes, if_pos htype] at hbytes
    rw [Nat.mod_eq_of_lt (show e.2.size < arch.ulong by omega),
      efiFileAlign_of_lt (show e.2.size + 511 < arch.ulong by omega), padded_length]
    rw [hbytes]
    exact le_alignedUp _
  · rfl

/-- **A section in memory** is that of the ELF file, as far behind the start of the image as it is
behind the base. -/
theorem Described.run (h : Described arch target hybrid segments base file e o)
    (hin : Inputted file e) (hbase : base ≤ e.2.addr) (hend : e.2.addr + e.2.size + 8192 ≤ 2 ^ 32)
    {out : Mem} (hout : ∀ n ≤ o.1.sizeOfRawData,
      out.bytes o.1.pointerToRawData n = o.2.contents.take n) (start : ℕ) :
    ImageSection.run out start (.ofPe o.1) = (start + (e.2.addr - base), elfBytes file e) := by
  have hulong := arch.ulong_ge
  have hraw := h.raw
  rw [fileszOf_eq (by omega)] at hraw
  have hbytes := elfBytes_length hin
  have hvirtual : o.1.virtualSize = e.2.size := by
    rw [h.size, Nat.mod_eq_of_lt (show e.2.size < arch.ulong by omega), Nat.mod_eq_of_lt (by omega)]
  have haddress : o.1.virtualAddress = e.2.addr - base := by
    rw [h.address, Nat.mod_eq_of_lt (show e.2.addr < 2 ^ 32 by omega),
      lessBase_eq hbase (by omega)]
  have hrawlt : o.1.sizeOfRawData < 2 ^ 32 := by
    rw [h.raw]
    exact Nat.mod_lt _ (by norm_num)
  rw [ImageSection.run, ImageSection.ofPe]
  dsimp only
  rw [haddress, hvirtual, Nat.mod_eq_of_lt (show e.2.addr - base < 2 ^ 32 by omega),
    Nat.mod_eq_of_lt (show e.2.size < 2 ^ 32 by omega), Nat.mod_eq_of_lt hrawlt,
    Nat.mod_eq_of_lt h.pointer_lt]
  congr 1
  rw [hout _ (min_le_right _ _), h.contents, sectionContents]
  by_cases htype : e.2.type = .progbits
  · have hle := le_alignedUp e.2.size
    rw [elfBytes, if_pos htype] at hbytes ⊢
    rw [if_pos htype] at hraw
    rw [hraw, min_eq_left hle]
    dsimp only
    rw [if_pos htype, padded, padded, List.take_append_of_le_length hbytes.ge, ← hbytes,
      List.take_length, Nat.sub_self, List.replicate_zero, List.append_nil]
  · rw [elfBytes, if_neg htype]
    dsimp only
    rw [if_neg htype, List.take_nil, padded_nil]

end

/-- **The base relocations in memory.** -/
theorem relocRun {arch : Arch} {reltab : List PeRelocs} {o : PeSection × Contents}
    {bytes : List UInt8} (hvsize : o.1.virtualSize = bytes.length % 2 ^ 32)
    (hraw : o.1.sizeOfRawData = efiFileAlign arch bytes.length % 2 ^ 32)
    (haddress : o.1.virtualAddress < 2 ^ 32) (hpointer : o.1.pointerToRawData < 2 ^ 32)
    (hcontents : o.2 = relocContents arch reltab)
    (htable : ∀ m, outputPeReltab reltab (some 0) m = (bytes.length, m.store 0 bytes))
    (hsize : (outputPeReltab reltab none .zero).1 = bytes.length)
    (hlt : bytes.length + 512 ≤ 2 ^ 32) {out : Mem}
    (hout : o.2.contents.length = o.1.sizeOfRawData → ∀ n ≤ o.1.sizeOfRawData,
      out.bytes o.1.pointerToRawData n = o.2.contents.take n) (start : ℕ) :
    ImageSection.run out start (.ofPe o.1) = (start + o.1.virtualAddress, bytes) := by
  have hulong := arch.ulong_ge
  have hle := le_alignedUp bytes.length
  have hraw : o.1.sizeOfRawData = alignedUp bytes.length := by
    rw [hraw, efiFileAlign_of_lt (show bytes.length + 511 < arch.ulong by omega),
      Nat.mod_eq_of_lt (by rw [alignedUp]; omega)]
  have hrawlt : o.1.sizeOfRawData < 2 ^ 32 := by
    rw [hraw, alignedUp]
    omega
  have hvsize : o.1.virtualSize = bytes.length := by
    rw [hvsize, Nat.mod_eq_of_lt (by omega)]
  have hbytes : o.2.contents = (Mem.zero.store 0 bytes).bytes 0 o.1.sizeOfRawData := by
    rw [hcontents, relocContents, htable, hsize, hraw,
      efiFileAlign_of_lt (show bytes.length + 511 < arch.ulong by omega)]
  have hlength : o.2.contents.length = o.1.sizeOfRawData := by rw [hbytes, Mem.bytes_length]
  rw [ImageSection.run, ImageSection.ofPe]
  dsimp only
  rw [Nat.mod_eq_of_lt haddress, hvsize, Nat.mod_eq_of_lt (show bytes.length < 2 ^ 32 by omega),
    Nat.mod_eq_of_lt hrawlt, Nat.mod_eq_of_lt hpointer]
  have hmin : min bytes.length o.1.sizeOfRawData = bytes.length := min_eq_left (by omega)
  rw [hmin, hout hlength _ (by omega), hbytes, Mem.take_bytes (by omega), Mem.bytes_store_self,
    padded, Nat.sub_self, List.replicate_zero, List.append_nil]

/-- What has been read of a section of a file. -/
theorem Converts.inputted {arch : Arch} {target : Target} {hybrid : Bool} {file : List UInt8}
    {ehdr : Ehdr} {machine : ℕ} {st : Progress} {elf : ElfFile}
    (h : Converts arch target hybrid file ehdr machine st elf) {e : SectionHeader × Shdr}
    (he : e ∈ st.done) : Inputted file e := by
  obtain ⟨hsize, htypes⟩ := readSection_eq_ok (h.read e he)
  refine ⟨hsize, fun htype => (h.checked e he).contents (shType_eq_progbits ?_)⟩
  rw [← htypes, htype]

/-! ## The sections of the image -/

section
variable {α β γ : Type} {R : α → β → Prop} {xs : List α} {ys : List β}

/-- A member of the one list has a partner in the other, -/
theorem forall₂_exists_left (h : List.Forall₂ R xs ys) {x : α} (hx : x ∈ xs) :
    ∃ y ∈ ys, R x y := by
  induction h with
  | nil => exact absurd hx List.not_mem_nil
  | cons hxy _ ih =>
      rcases List.mem_cons.mp hx with rfl | hx
      · exact ⟨_, List.mem_cons_self, hxy⟩
      · obtain ⟨y, hy, hr⟩ := ih hx
        exact ⟨y, List.mem_cons_of_mem _ hy, hr⟩

/-- and the other way round. -/
theorem forall₂_exists_right (h : List.Forall₂ R xs ys) {y : β} (hy : y ∈ ys) :
    ∃ x ∈ xs, R x y :=
  forall₂_exists_left h.flip hy

/-- What partners have in common, both lists have. -/
theorem forall₂_map_eq {f : α → γ} {g : β → γ} (h : List.Forall₂ R xs ys)
    (hfg : ∀ x ∈ xs, ∀ y ∈ ys, R x y → f x = g y) : xs.map f = ys.map g := by
  induction h with
  | nil => rfl
  | cons hxy _ ih =>
      rw [List.map_cons, List.map_cons, hfg _ List.mem_cons_self _ List.mem_cons_self hxy]
      rw [ih fun x hx y hy => hfg x (List.mem_cons_of_mem _ hx) y (List.mem_cons_of_mem _ hy)]

end

section
variable {arch : Arch} {target : Target} {hybrid : Bool} {file : List UInt8} {ehdr : Ehdr}
  {machine : ℕ} {st : Progress} {elf : ElfFile}

/-- The sections of the image are among those that have been done. -/
theorem mem_imageSections {segments : List Phdr} {done : List (SectionHeader × Shdr)}
    {e : SectionHeader × Shdr} :
    e ∈ imageSections target hybrid segments done ↔
      e ∈ done ∧ e.2.alloc = true ∧ Shown target hybrid segments e.2 := by
  rw [imageSections, List.mem_filter, List.mem_filter, decide_eq_true_eq, and_assoc]

/-- Where the image begins. -/
structure Based (base : ℕ) (sections : List (SectionHeader × Shdr)) : Prop where
  base_lt : base < 2 ^ 32
  page : 4096 ∣ base
  le_addr : ∀ e ∈ sections, base + 4096 ≤ e.2.addr

/-- **The image base** is a page in front of the lowest section of the image. -/
theorem Converts.based (h : Converts arch target hybrid file ehdr machine st elf)
    {fixups : List (ℕ × ℕ)} {tableLen : ℕ}
    (hlinked : Linked ehdr.entry (st.done.filter (·.2.alloc))
      (imageSections target hybrid elf.segments st.done) fixups tableLen) :
    Based (imageBase arch st.converted.sections)
      (imageSections target hybrid elf.segments st.done) := by
  have hulong := arch.ulong_ge
  have hmade := (convert_built h.convert_eq).made
  rw [h.sections_eq, List.filter_map] at hmade
  obtain ⟨e₀, he₀, hpage, hfirst, hlowest⟩ := hlinked.lowest
  obtain ⟨hdone₀, halloc₀, hshown₀⟩ := mem_imageSections.mp he₀
  have haddr : ∀ e ∈ st.done.filter (·.2.alloc), e.2.addr < 2 ^ 32 := by
    intro e he
    have hend := hlinked.end_le e he
    omega
  have hmem₀ : e₀ ∈ st.done.filter (·.2.alloc) := List.mem_filter.mpr ⟨hdone₀, halloc₀⟩
  obtain ⟨s₀, hs₀, hmade₀⟩ := forall₂_exists_left hmade (List.mem_map_of_mem hmem₀)
  have hvirtual₀ : s₀.virtualAddress = e₀.2.addr := by
    rw [hmade₀.address, Nat.mod_eq_of_lt (haddr e₀ hmem₀)]
  have hbase : imageBase arch st.converted.sections = e₀.2.addr - 4096 := by
    rw [← hvirtual₀]
    refine imageBase_eq hs₀ (hmade₀.shown_iff.mp hshown₀) (by omega)
      (by have := haddr e₀ hmem₀; omega) fun s hs hvisible => ?_
    obtain ⟨shdr, hshdr, hmades⟩ := forall₂_exists_right hmade hs
    obtain ⟨e, he, rfl⟩ := List.mem_map.mp hshdr
    have hdone := List.mem_filter.mp he
    have hle := hlowest e (mem_imageSections.mpr ⟨hdone.1, hdone.2, hmades.shown_iff.mpr hvisible⟩)
    rw [hvirtual₀, hmades.address, Nat.mod_eq_of_lt (haddr e he)]
    exact hle
  have hlt := haddr e₀ hmem₀
  rw [hbase]
  refine ⟨by omega, Nat.dvd_sub hpage dvd_rfl, fun e he => ?_⟩
  have hle := hlowest e he
  omega

/-- The image goes on up to the base relocations, which end below 4 GB. -/
theorem Converts.sizeOfImage (h : Converts arch target hybrid file ehdr machine st elf)
    {fixups : List (ℕ × ℕ)} {tableLen : ℕ}
    (hlinked : Linked ehdr.entry (st.done.filter (·.2.alloc))
      (imageSections target hybrid elf.segments st.done) fixups tableLen) :
    st.converted.hdr.sizeOfImage + tableLen < 2 ^ 32 ∧
      ∀ e ∈ st.done.filter (·.2.alloc), e.2.addr + e.2.size ≤ st.converted.hdr.sizeOfImage := by
  have hsize := (convert_built h.convert_eq).size_eq
  rw [h.sections_eq, List.filter_map] at hsize
  have hlast : ∀ e ∈ st.done.filter (·.2.alloc), e.2.addr + e.2.size ≤ lastOf arch e.2 ∧
      lastOf arch e.2 + tableLen < 2 ^ 32 := by
    intro e he
    have hend := hlinked.end_le e he
    rw [lastOf_eq (by omega)]
    omega
  rw [hsize]
  constructor
  · obtain ⟨e₀, he₀, _⟩ := hlinked.lowest
    have hend := hlinked.end_le e₀ (List.mem_filter.mp he₀).1
    have hbound : (((st.done.filter (·.2.alloc)).map Prod.snd).map (lastOf arch)).foldl max
        imageAlign < 2 ^ 32 - tableLen := by
      refine foldl_max_lt (by rw [imageAlign]; omega) fun k hk => ?_
      obtain ⟨shdr, hshdr, rfl⟩ := List.mem_map.mp hk
      obtain ⟨e, he, rfl⟩ := List.mem_map.mp hshdr
      have hle := hlast e he
      omega
    exact Nat.add_lt_of_lt_sub hbound
  · intro e he
    refine (hlast e he).1.trans ((le_foldl_max _ _).2 _ ?_)
    exact List.mem_map_of_mem (List.mem_map_of_mem he)

/-- Names in section headers have eight bytes. -/
theorem Written.names {segments : List Phdr} {entry : ℕ} {hdr : PeHeader}
    {out : List (PeSection × Contents)}
    (hw : Written arch target hybrid segments file entry st hdr out) :
    ∀ o ∈ out, o.2.name.length = 8 := by
  obtain ⟨inputs, reloc, debug, rfl, hinputs, ⟨_, _, _, _, _, hreloc⟩, _, hdebug⟩ := hw.sections
  intro o ho
  rcases List.mem_append.mp ho with ho | ho
  · rcases List.mem_append.mp ho with ho | ho
    · obtain ⟨e, _, he⟩ := forall₂_exists_right hinputs ho
      rw [he.contents, sectionContents]
      exact padded_length (List.length_take_le _ _)
    · rw [List.mem_singleton.mp ho, hreloc]
      rfl
  · rw [List.mem_singleton.mp ho]
    exact hdebug

/-- **What is put in memory**: the sections of the ELF file, and the base relocations behind them. -/
theorem Converts.runs (h : Converts arch target hybrid file ehdr machine st elf)
    {fixups : List (ℕ × ℕ)} (subsystem : ℕ) {hdr : PeHeader} {out : List (PeSection × Contents)}
    {bytes : List UInt8}
    (hlinked : Linked ehdr.entry (st.done.filter (·.2.alloc))
      (imageSections target hybrid elf.segments st.done) fixups bytes.length)
    (hw : Written arch target hybrid elf.segments file ehdr.entry st hdr out)
    (hkept : Kept target (out.map Prod.fst))
    (htable : ∀ m, outputPeReltab
      (st.converted.reltab.map (PeRelocs.rebase arch (imageBase arch st.converted.sections)))
      (some 0) m = (bytes.length, m.store 0 bytes))
    (hsize : (outputPeReltab st.converted.reltab none .zero).1 = bytes.length) (start : ℕ) :
    (ImageHeader.ofPe target hdr out).sections.map (ImageSection.run
        (Mem.ofList (outputFile target machine subsystem hdr out)) start) =
      (imageSections target hybrid elf.segments st.done).map (fun e =>
        (start + (e.2.addr - imageBase arch st.converted.sections), elfBytes file e)) ++
        [(start + hdr.basereloc.virtualAddress, bytes)] := by
  have hulong := arch.ulong_ge
  have hbased := h.based hlinked
  obtain ⟨himage, -⟩ := h.sizeOfImage hlinked
  have hnames := hw.names
  obtain ⟨inputs, reloc, debug, rfl, hinputs, ⟨hvisible, hpointer, hvirtual, hvsize, hraw, hreloc⟩,
    hhidden, _⟩ := hw.sections
  have hall : visible (inputs ++ [reloc] ++ [debug]) = inputs.filter (!·.1.hidden) ++ [reloc] := by
    rw [visible, List.filter_append, List.filter_append, List.filter_cons_of_pos (by simp [hvisible]),
      List.filter_cons_of_neg (by simp [hhidden]), List.filter_nil, List.append_nil]
  have hfilter : List.Forall₂ (Described arch target hybrid elf.segments
      (imageBase arch st.converted.sections) file)
      (imageSections target hybrid elf.segments st.done) (inputs.filter (!·.1.hidden)) := by
    refine List.rel_filter (fun e o hdescribed => ?_) hinputs
    exact decide_eq_true_iff.trans (hdescribed.shown_iff.trans (Iff.of_eq (Bool.not_eq_true' _).symm))
  have hsections : (imageSections target hybrid elf.segments st.done).map (fun e =>
      (start + (e.2.addr - imageBase arch st.converted.sections), elfBytes file e)) =
        (inputs.filter (!·.1.hidden)).map fun o => ImageSection.run
          (Mem.ofList (outputFile target machine subsystem hdr (inputs ++ [reloc] ++ [debug]))) start
          (.ofPe o.1) := by
    refine forall₂_map_eq hfilter fun e he o ho hdescribed => ?_
    have hdone := mem_imageSections.mp he
    have hend := hlinked.end_le e (List.mem_filter.mp he).1
    have hbase := hbased.le_addr e he
    have hin := h.inputted hdone.1
    obtain ⟨hinput, hovisible⟩ := List.mem_filter.mp ho
    refine (hdescribed.run hin (by omega) (by omega) (fun n hn => ?_) start).symm
    exact hkept.contents hnames
      (List.mem_append_left _ (List.mem_append_left _ hinput)) (by simpa using hovisible)
      (hdescribed.contents_length hin (by omega)) hn
  rw [ImageHeader.ofPe]
  dsimp only
  rw [hall, List.map_map, List.map_append, hsections]
  congr 1
  obtain ⟨e₀, he₀, _⟩ := hlinked.lowest
  have hend := hlinked.end_le e₀ (List.mem_filter.mp he₀).1
  rw [hw.basereloc_eq] at hvsize
  rw [hsize] at hvsize hraw
  have haddress : reloc.1.virtualAddress < 2 ^ 32 := by
    rw [hvirtual, hw.basereloc_eq]
    exact Nat.mod_lt _ (by norm_num)
  have hlen := congrArg Prod.fst (outputPeReltab_rebase arch
    (imageBase arch st.converted.sections) st.converted.reltab Mem.zero)
  rw [← hvirtual]
  refine congrArg (· :: []) (relocRun hvsize hraw haddress hpointer hreloc htable
    (hlen.trans hsize) (by omega) (fun hlength n hn => ?_) start)
  exact hkept.contents hnames (by simp) hvisible hlength hn

/-- **What is in memory** behind that: the sections of the ELF file, each as far behind the start as it
is behind the base, and the base relocations where the headers say. -/
theorem Converts.place (h : Converts arch target hybrid file ehdr machine st elf)
    {fixups : List (ℕ × ℕ)} (subsystem : ℕ) {hdr : PeHeader} {out : List (PeSection × Contents)}
    {bytes : List UInt8}
    (hlinked : Linked ehdr.entry (st.done.filter (·.2.alloc))
      (imageSections target hybrid elf.segments st.done) fixups bytes.length)
    (hw : Written arch target hybrid elf.segments file ehdr.entry st hdr out)
    (hkept : Kept target (out.map Prod.fst))
    (htable : ∀ m, outputPeReltab
      (st.converted.reltab.map (PeRelocs.rebase arch (imageBase arch st.converted.sections)))
      (some 0) m = (bytes.length, m.store 0 bytes))
    (hsize : (outputPeReltab st.converted.reltab none .zero).1 = bytes.length) (start : ℕ) :
    (∀ e ∈ imageSections target hybrid elf.segments st.done, ∀ i < e.2.size,
      (ImageHeader.ofPe target hdr out).place
          (Mem.ofList (outputFile target machine subsystem hdr out)) start
          (start + (e.2.addr - imageBase arch st.converted.sections + i)) =
        elfImage file (imageSections target hybrid elf.segments st.done) (e.2.addr + i)) ∧
      ((ImageHeader.ofPe target hdr out).place
          (Mem.ofList (outputFile target machine subsystem hdr out)) start).bytes
        (start + hdr.basereloc.virtualAddress) bytes.length = bytes := by
  have hbased := h.based hlinked
  obtain ⟨himage, hreach⟩ := h.sizeOfImage hlinked
  have hruns := h.runs subsystem hlinked hw hkept htable hsize start
  have hlength : ∀ e ∈ imageSections target hybrid elf.segments st.done,
      (elfBytes file e).length = e.2.size :=
    fun e he => elfBytes_length (h.inputted (mem_imageSections.mp he).1)
  have haddress : hdr.basereloc.virtualAddress =
      st.converted.hdr.sizeOfImage - imageBase arch st.converted.sections := by
    obtain ⟨e₀, he₀, _⟩ := hlinked.lowest
    have hreach₀ := hreach e₀ (List.mem_filter.mp he₀).1
    have hbase₀ := hbased.le_addr e₀ he₀
    rw [hw.basereloc_eq]
    exact lessBase_eq (by omega) (by omega)
  have hlinkedApart := hlinked.apart
  rw [ImageHeader.place, hruns]
  -- the runs do not overlap, neither at the addresses of the ELF file nor in the image
  have hapart : ((imageSections target hybrid elf.segments st.done).map (fun e =>
      (start + (e.2.addr - imageBase arch st.converted.sections), elfBytes file e)) ++
        [(start + hdr.basereloc.virtualAddress, bytes)]).Pairwise
          fun s t => s.1 + s.2.length ≤ t.1 ∨ t.1 + t.2.length ≤ s.1 := by
    rw [List.pairwise_append, List.pairwise_map]
    refine ⟨hlinkedApart.imp_of_mem fun {e f} he hf hef => ?_, List.pairwise_singleton _ _, ?_⟩
    · have hbe := hbased.le_addr e he
      have hbf := hbased.le_addr f hf
      rw [Apart] at hef
      dsimp only at hef ⊢
      rw [hlength e he, hlength f hf]
      omega
    · intro r hr t ht
      obtain ⟨e, he, rfl⟩ := List.mem_map.mp hr
      rw [List.mem_singleton.mp ht, haddress]
      have hbe := hbased.le_addr e he
      have hle := hreach e (List.mem_filter.mp he).1
      dsimp only
      rw [hlength e he]
      omega
  refine ⟨fun e he i hi => ?_, Mem.bytes_eq_iff.mpr fun i hi => ?_⟩
  · have helf : ((imageSections target hybrid elf.segments st.done).map fun e =>
        (e.2.addr, elfBytes file e)).Pairwise
          fun s t => s.1 + s.2.length ≤ t.1 ∨ t.1 + t.2.length ≤ s.1 := by
      rw [List.pairwise_map]
      refine hlinkedApart.imp_of_mem fun {e f} he hf hef => ?_
      rw [Apart] at hef
      dsimp only at hef ⊢
      rwa [hlength e he, hlength f hf]
    have hmem : (start + (e.2.addr - imageBase arch st.converted.sections), elfBytes file e) ∈
        (imageSections target hybrid elf.segments st.done).map (fun e =>
          (start + (e.2.addr - imageBase arch st.converted.sections), elfBytes file e)) ++
          [(start + hdr.basereloc.virtualAddress, bytes)] :=
      List.mem_append_left _ (List.mem_map_of_mem he)
    have hmem' : (e.2.addr, elfBytes file e) ∈
        (imageSections target hybrid elf.segments st.done).map fun e =>
          (e.2.addr, elfBytes file e) := List.mem_map_of_mem he
    have hi' : i < (elfBytes file e).length := by rwa [hlength e he]
    rw [← Nat.add_assoc, Mem.storeAll_of_mem hapart hmem (Nat.le_add_right _ _)
      (Nat.add_lt_add_left hi' _), elfImage, Mem.storeAll_of_mem helf hmem' (Nat.le_add_right _ _)
      (Nat.add_lt_add_left hi' _), Nat.add_sub_cancel_left, Nat.add_sub_cancel_left]
  · rw [Mem.storeAll_of_mem hapart (List.mem_append_right _ (List.mem_singleton_self _))
      (Nat.le_add_right _ _) (Nat.add_lt_add_left hi _), Nat.add_sub_cancel_left]

/-! ## The base relocations -/

/-- A relocation is for a word of two, four or eight bytes, where it is accepted. -/
theorem generateAll_size {calls : List (ℕ × ℕ)} {reltab reltab' : List PeRelocs}
    (h : generateAll arch calls reltab = some reltab') :
    ∀ c ∈ calls, c.2 = 2 ∨ c.2 = 4 ∨ c.2 = 8 := by
  induction calls generalizing reltab with
  | nil => exact nofun
  | cons c calls ih =>
      obtain ⟨reltab₁, hc, hcalls⟩ := Option.bind_eq_some_iff.mp h
      rw [generatePeReloc, relocEntry] at hc
      intro c' hc'
      rcases List.mem_cons.mp hc' with rfl | hc'
      · split_ifs at hc <;> simp_all
      · exact ih hcalls c' hc'

/-- Words that do not overlap are no more than the bytes of a page. -/
theorem countP_page_le {calls : List (ℕ × ℕ)} (hapart : calls.Pairwise Apart)
    (hpos : ∀ c ∈ calls, 0 < c.2) (page : ℕ) :
    calls.countP (fun c => c.1 / 4096 = page) ≤ 4096 := by
  have hnodup : ((calls.filter fun c => c.1 / 4096 = page).map Prod.fst).Nodup := by
    rw [List.nodup_iff_pairwise_ne, List.pairwise_map]
    refine (hapart.sublist List.filter_sublist).imp_of_mem fun {c d} hc hd hcd heq => ?_
    have hcpos := hpos c (List.mem_filter.mp hc).1
    have hdpos := hpos d (List.mem_filter.mp hd).1
    rw [Apart] at hcd
    omega
  have hsubset : ((calls.filter fun c => c.1 / 4096 = page).map Prod.fst).toFinset ⊆
      Finset.Ico (page * 4096) (page * 4096 + 4096) := by
    intro x hx
    obtain ⟨c, hc, rfl⟩ := List.mem_map.mp (List.mem_toFinset.mp hx)
    have hpage := of_decide_eq_true (List.mem_filter.mp hc).2
    rw [Finset.mem_Ico]
    omega
  have hcard := Finset.card_le_card hsubset
  rw [List.toFinset_card_of_nodup hnodup, List.length_map, Nat.card_Ico] at hcard
  rw [List.countP_eq_length_filter]
  omega

/-- **The base relocations of a file** are its fix-ups, less the base. -/
theorem Converts.encoded (h : Converts arch target hybrid file ehdr machine st elf) {tableLen : ℕ}
    (hlinked : Linked ehdr.entry (st.done.filter (·.2.alloc))
      (imageSections target hybrid elf.segments st.done) (elfFixups elf.sections) tableLen) :
    ∃ bytes blocks, Encoded (relative (imageBase arch st.converted.sections))
      (elfFixups elf.sections)
      (st.converted.reltab.map (PeRelocs.rebase arch (imageBase arch st.converted.sections)))
      bytes blocks := by
  have hulong := arch.ulong_ge
  have hgen := convert_generateAll h.convert_eq
  have hsize := generateAll_size hgen
  have hpage := (h.based hlinked).page
  have hcount := countP_page_le hlinked.fixups_apart fun c hc => by
    have hc := hsize c hc
    omega
  have hcalls : ∀ c ∈ elfFixups elf.sections, c.1 < arch.ulong ∧ (c.2 = 2 ∨ c.2 = 4 ∨ c.2 = 8) := by
    intro c hc
    obtain ⟨e, he, hin⟩ := hlinked.fixups_inside c hc
    have hend := hlinked.end_le e (List.mem_filter.mp he).1
    have hwithin := (hin 0 (by have hc := hsize c hc; omega)).2
    dsimp only at hwithin
    exact ⟨by omega, hsize c hc⟩
  obtain ⟨reltab, hgen', hrep⟩ :=
    generateAll_represents hcalls fun page => (hcount page).trans (by norm_num)
  rw [hgen] at hgen'
  obtain rfl := Option.some.inj hgen'
  have hdvd : 4096 ∣ arch.ulong ∧ 2 ^ 32 ∣ arch.ulong := by
    cases arch with
    | i386 => exact ⟨by norm_num, by norm_num⟩
    | x86_64 => exact ⟨by norm_num, by norm_num⟩
  obtain ⟨bytes, blocks, hencoded, _⟩ := encoded_of_represents (Nat.dvd_sub hdvd.1 hpage)
    (fun k => Nat.mod_mod_of_dvd _ hdvd.2) (relative_eq (imageBase_lt arch _))
    (fun page => (hcount page).trans (by norm_num)) (represents_rebase hrep)
  exact ⟨bytes, blocks, hencoded⟩

/-! ## The image that is loaded -/

/-- **The image of a file that has been converted.** -/
theorem Converts.load (h : Converts arch target hybrid file ehdr machine st elf) (subsystem : ℕ)
    {hdr : PeHeader} {out : List (PeSection × Contents)}
    (hlinked : Linked ehdr.entry (st.done.filter (·.2.alloc))
      (imageSections target hybrid elf.segments st.done) (elfFixups elf.sections)
      (outputPeReltab st.converted.reltab none .zero).1)
    (hw : Written arch target hybrid elf.segments file ehdr.entry st hdr out)
    (hkept : Kept target (out.map Prod.fst)) (start : ℕ) :
    ∃ image, (ImageHeader.ofPe target hdr out).load
        (Mem.ofList (outputFile target machine subsystem hdr out)) start = some image ∧
      ∀ e ∈ imageSections target hybrid elf.segments st.done, ∀ i < e.2.size,
        image (start + (e.2.addr - imageBase arch st.converted.sections + i)) =
          movedImage file (imageSections target hybrid elf.segments st.done)
            (elfFixups elf.sections) ((ImageHeader.ofPe target hdr out).delta start)
            (e.2.addr + i) := by
  obtain ⟨bytes, blocks, hencoded⟩ := h.encoded hlinked
  have hsize : (outputPeReltab st.converted.reltab none .zero).1 = bytes.length := by
    have hlen := hencoded.size_eq .zero
    rw [outputPeReltab_rebase] at hlen
    rw [hlen]
  rw [hsize] at hlinked
  have hbased := h.based hlinked
  have hsizes := generateAll_size (convert_generateAll h.convert_eq)
  obtain ⟨hplace, hbytes⟩ := h.place subsystem hlinked hw hkept (hencoded.written 0) hsize start
  have hdirectory : (ImageHeader.ofPe target hdr out).basereloc =
      ⟨hdr.basereloc.virtualAddress, bytes.length⟩ := by
    obtain ⟨e₀, he₀, _⟩ := hlinked.lowest
    have hend := hlinked.end_le e₀ (List.mem_filter.mp he₀).1
    rw [ImageHeader.ofPe, hw.basereloc_eq, hsize]
    dsimp only
    rw [lessBase, Nat.mod_mod, Nat.mod_mod, Nat.mod_eq_of_lt (show bytes.length < 2 ^ 32 by omega)]
  rw [ImageHeader.load, hdirectory, hbytes, hencoded.parsed, Option.map_some]
  refine ⟨_, rfl, fun e he i hi => ?_⟩
  have haddr : ∀ c ∈ elfFixups elf.sections,
      imageBase arch st.converted.sections ≤ c.1 ∧ c.1 < 2 ^ 32 := by
    intro c hc
    obtain ⟨e, he, hin⟩ := hlinked.fixups_inside c hc
    have hwithin := hin 0 (by have hc := hsizes c hc; omega)
    have hbase := hbased.le_addr e he
    have hend := hlinked.end_le e (List.mem_filter.mp he).1
    obtain ⟨hle, hlt⟩ := hwithin
    dsimp only at hle hlt
    omega
  generalize imageBase arch st.converted.sections = base at *
  -- the words, as far behind the base, or the start, as they are
  have hsites : elfFixups elf.sections =
      ((elfFixups elf.sections).map fun c => (c.1 - base, c.2)).map fun s => (base + s.1, s.2) := by
    rw [List.map_map]
    refine (List.map_id _).symm.trans (List.map_congr_left fun c hc => ?_)
    have hle := (haddr c hc).1
    rw [Function.comp_apply, id, Nat.add_sub_cancel' hle]
  have hperm : ((blocks.flatMap RelocBlock.fixups).map (relocSite start)).Perm
      (((elfFixups elf.sections).map fun c => (c.1 - base, c.2)).map
        fun s => (start + s.1, s.2)) := by
    refine (hencoded.fixups.map _).trans (List.Perm.of_eq ?_)
    rw [List.map_map, List.map_map]
    refine List.map_congr_left fun c hc => ?_
    obtain ⟨hle, hlt⟩ := haddr c hc
    have hrelative : relative base c.1 = c.1 - base := by
      rw [relative]
      omega
    rw [Function.comp_apply, Function.comp_apply, relocSite, hrelative]
    rcases hsizes c hc with hc | hc | hc <;> rw [hc] <;> rfl
  have hapart : ((elfFixups elf.sections).map fun c => (c.1 - base, c.2)).Pairwise Apart := by
    rw [List.pairwise_map]
    refine hlinked.fixups_apart.imp_of_mem fun {c d} hc hd hcd => ?_
    have hcle := (haddr c hc).1
    have hdle := (haddr d hd).1
    rw [Apart] at hcd ⊢
    dsimp only
    omega
  have hagree : ∀ o, (∃ f ∈ imageSections target hybrid elf.segments st.done,
      Within (base + o) (f.2.addr, f.2.size)) →
      elfImage file (imageSections target hybrid elf.segments st.done) (base + o) =
        (ImageHeader.ofPe target hdr out).place
          (Mem.ofList (outputFile target machine subsystem hdr out)) start (start + o) := by
    rintro o ⟨f, hf, hlo, hhi⟩
    have hle := hbased.le_addr f hf
    dsimp only at hlo hhi
    have hvalue := hplace f hf (base + o - f.2.addr) (by omega)
    rw [show f.2.addr - base + (base + o - f.2.addr) = o by omega,
      show f.2.addr + (base + o - f.2.addr) = base + o by omega] at hvalue
    exact hvalue.symm
  have hinside : ∀ s ∈ (elfFixups elf.sections).map fun c => (c.1 - base, c.2), ∀ i < s.2,
      ∃ f ∈ imageSections target hybrid elf.segments st.done,
        Within (base + (s.1 + i)) (f.2.addr, f.2.size) := by
    intro s hs i hi
    obtain ⟨c, hc, rfl⟩ := List.mem_map.mp hs
    obtain ⟨f, hf, hin⟩ := hlinked.fixups_inside c hc
    have hle := (haddr c hc).1
    have hwithin := hin i hi
    refine ⟨f, hf, ?_⟩
    rwa [show base + (c.1 - base + i) = c.1 + i by omega]
  have hin : ∃ f ∈ imageSections target hybrid elf.segments st.done,
      Within (base + (e.2.addr - base + i)) (f.2.addr, f.2.size) := by
    have hle := hbased.le_addr e he
    exact ⟨e, he, by dsimp only; omega, by dsimp only; omega⟩
  have hmoved := @Mem.adjustAll_moved ((ImageHeader.ofPe target hdr out).delta start) _ _ _ _ base
    start _ _ hagree hapart hinside hsites hperm _ hin
  have hle := hbased.le_addr e he
  rw [movedImage, ← hmoved, show base + (e.2.addr - base + i) = e.2.addr + i by omega]

end

/-- What is read of the headers: the base of the image, and the entry point behind it. -/
theorem Converts.header {arch : Arch} {target : Target} {hybrid : Bool} {file : List UInt8}
    {ehdr : Ehdr} {machine : ℕ} {st : Progress} {elf : ElfFile}
    (h : Converts arch target hybrid file ehdr machine st elf) {fixups : List (ℕ × ℕ)} {tableLen : ℕ}
    {hdr : PeHeader} {out : List (PeSection × Contents)}
    (hlinked : Linked ehdr.entry (st.done.filter (·.2.alloc))
      (imageSections target hybrid elf.segments st.done) fixups tableLen)
    (hw : Written arch target hybrid elf.segments file ehdr.entry st hdr out) :
    (ImageHeader.ofPe target hdr out).imageBase = imageBase arch st.converted.sections ∧
      imageBase arch st.converted.sections + (ImageHeader.ofPe target hdr out).entry = ehdr.entry := by
  have hbased := h.based hlinked
  obtain ⟨e, he, hle, hlt⟩ := hlinked.entry_inside
  have hbase := hbased.le_addr e he
  have hend := hlinked.end_le e (List.mem_filter.mp he).1
  have hbaselt := hbased.base_lt
  have hword : 2 ^ 32 ≤ target.word := by cases target <;> norm_num [Target.word]
  dsimp only at hle hlt
  rw [ImageHeader.ofPe, hw.imageBase_eq, hw.entry_eq]
  dsimp only
  rw [Nat.mod_mod, Nat.mod_eq_of_lt (hbaselt.trans_le hword),
    Nat.mod_eq_of_lt (show ehdr.entry < 2 ^ 32 by omega), lessBase_eq (by omega) (by omega),
    Nat.mod_eq_of_lt (by omega)]
  omega

/-- The sections of the image of a file: those that are allocated and not hidden. -/
def fileSections (arch : Arch) (target : Target) (hybrid : Bool) (file : List UInt8) (ehdr : Ehdr)
    (st : Progress) : List (SectionHeader × Shdr) :=
  imageSections target hybrid (segmentsFrom arch target file ehdr ehdr.phnum 0) st.done

/-- The words that the relocation records of a file are about. -/
def fileFixups (st : Progress) : List (ℕ × ℕ) := elfFixups (st.done.map Prod.snd)

/-- **What is loaded is the image of the ELF file, moved.** If the input is as a linker makes it, and
the raw data is kept in the file, as it is in a layout without overlaps, then the file that is written
is read by a loader. Loaded at any address, it has at every byte of every allocated section that is not
hidden what the ELF file has there, with what it is moved by added to every word that a relocation record
is about; and the entry point is that of the ELF file.
Source: utils/elf2efi.c, elf2pe -/
theorem elf2peFile_loaded {arch : Arch} {target : Target} {hybrid : Bool} {subsystem : ℕ}
    {file filename out : List UInt8} {ehdr : Ehdr} {machine : ℕ} {st : Progress}
    (hfile : convertFile arch target hybrid file = .ok (ehdr, machine, st))
    (hout : elf2peFile arch target hybrid subsystem file filename = .ok out)
    (hlinked : Linked ehdr.entry (st.done.filter (·.2.alloc))
      (fileSections arch target hybrid file ehdr st) (fileFixups st)
      (outputPeReltab st.converted.reltab none .zero).1)
    (hkept : ∀ hdr sections, assignRawData arch (finish arch target st.converted).1
      (finish arch target st.converted).2 = some (hdr, sections) → Kept target sections)
    (start : ℕ) :
    ∃ pe image, readImage (Mem.ofList out) = some pe ∧
      pe.load (Mem.ofList out) start = some image ∧ pe.imageBase + pe.entry = ehdr.entry ∧
      ∀ e ∈ fileSections arch target hybrid file ehdr st, ∀ i < e.2.size,
        image (start + (e.2.addr - pe.imageBase + i)) =
          movedImage file (fileSections arch target hybrid file ehdr st) (fileFixups st)
            (pe.delta start) (e.2.addr + i) := by
  obtain ⟨elf, h⟩ := convertFile_convert hfile
  rw [elf2peFile, hfile] at hout
  obtain ⟨_, hok, hout⟩ := bind_eq_ok.mp hout
  cases hok
  obtain ⟨⟨hdr, sections, writes⟩, hwrite, hout⟩ := bind_eq_ok.mp hout
  obtain rfl := Except.ok.inj hout
  rw [orExit_eq_ok, writePeFile] at hwrite
  obtain ⟨⟨hdr', sections'⟩, hassign, hwrite⟩ := Option.bind_eq_some_iff.mp hwrite
  dsimp only at hwrite
  split_ifs at hwrite with hmisaligned hcount
  obtain ⟨rfl, heq⟩ := Prod.mk.inj (Option.some.inj hwrite)
  obtain ⟨rfl, -⟩ := Prod.mk.inj heq
  obtain ⟨hw, hfst⟩ := h.written filename hassign
  have hkept' := hkept _ _ hassign
  rw [fileSections, fileFixups, ← h.segments_eq, ← h.sections_eq] at hlinked ⊢
  have hnumber : (visible (sections'.zip (allContents arch target file filename st))).length =
      hdr'.numberOfSections := by
    rw [visible, ← List.countP_eq_length_filter, ← not_not.mp hcount]
    conv_rhs => rw [← hfst, List.countP_map]
    rfl
  obtain ⟨hbase, hentry⟩ := h.header hlinked hw
  obtain ⟨image, hload, himage⟩ := h.load subsystem hlinked hw (by rwa [hfst]) start
  refine ⟨_, image, readImage_outputFile hnumber hw.number_lt hw.names, hload, ?_, ?_⟩
  · rw [hbase]
    exact hentry
  · rw [hbase]
    exact himage

/-! ## A file that is loaded -/

/-- A result that is there, with its value, -/
theorem eq_ok_get {ε α : Type} (x : Except ε α) (h : x.toOption.isSome) :
    x = .ok (x.toOption.get h) := by
  cases x with
  | error e => exact absurd h Bool.false_ne_true
  | ok a => rfl

/-- and one of three parts. -/
theorem eq_ok_of_isSome {ε α β γ : Type} {x : Except ε (α × β × γ)} (h : x.toOption.isSome) :
    x = .ok ((x.toOption.get h).1, (x.toOption.get h).2.1, (x.toOption.get h).2.2) :=
  eq_ok_get x h

/-- What is read of the file with a relocation, for a hybrid binary. -/
def sampleResult : Ehdr × ℕ × Progress :=
  (convertFile .x86_64 .efi64 true sampleElf).toOption.get (by decide +kernel)

/-- The sample file is converted, -/
theorem sampleElf_converted : convertFile .x86_64 .efi64 true sampleElf =
    .ok (sampleResult.1, sampleResult.2.1, sampleResult.2.2) := by
  unfold sampleResult
  exact eq_ok_of_isSome _

/-- and it is as a linker makes it. -/
theorem sampleElf_linked : Linked sampleResult.1.entry
    (sampleResult.2.2.done.filter (·.2.alloc))
    (fileSections .x86_64 .efi64 true sampleElf sampleResult.1 sampleResult.2.2)
    (fileFixups sampleResult.2.2)
    (outputPeReltab sampleResult.2.2.converted.reltab none .zero).1 :=
  ⟨by decide +kernel, by decide +kernel, by decide +kernel, by decide +kernel, by decide +kernel,
    by decide +kernel⟩

/-- What is laid out of it. -/
def sampleLayout : PeHeader × List PeSection :=
  (assignRawData .x86_64 (finish .x86_64 .efi64 sampleResult.2.2.converted).1
    (finish .x86_64 .efi64 sampleResult.2.2.converted).2).get (by decide +kernel)

/-- Its raw data is kept. -/
theorem sampleElf_kept : Kept .efi64 sampleLayout.2 := ⟨by decide +kernel, by decide +kernel⟩

/-- The word of the file is the address of the ninth byte of the code, wherever it is loaded. -/
theorem elf2peFile_loaded_sample :
    ∃ out, elf2peFile .x86_64 .efi64 true 10 sampleElf [0x61] = .ok out ∧
      ∀ start, ∃ pe image, readImage (Mem.ofList out) = some pe ∧
        pe.load (Mem.ofList out) start = some image ∧
        pe.imageBase + pe.entry = sampleResult.1.entry ∧
        ∀ e ∈ fileSections .x86_64 .efi64 true sampleElf sampleResult.1 sampleResult.2.2,
          ∀ i < e.2.size, image (start + (e.2.addr - pe.imageBase + i)) =
            movedImage sampleElf
              (fileSections .x86_64 .efi64 true sampleElf sampleResult.1 sampleResult.2.2)
              (fileFixups sampleResult.2.2) (pe.delta start) (e.2.addr + i) := by
  have hout : (elf2peFile .x86_64 .efi64 true 10 sampleElf [0x61]).toOption.isSome := by
    decide +kernel
  refine ⟨_, eq_ok_get _ hout, fun start => ?_⟩
  refine elf2peFile_loaded sampleElf_converted (eq_ok_get _ hout) sampleElf_linked
    (fun hdr sections hassign => ?_) start
  have hlayout : sampleLayout = (hdr, sections) := Option.get_of_eq_some _ hassign
  have hkept := sampleElf_kept
  rwa [hlayout] at hkept

end Ntloader.Elf2efi
