import Ntloader.Elf2efi.Sections

/-!
# The file layout of elf2efi

Without `--hybrid` the raw data of the visible sections goes one behind the other, behind headers
that end with the contents of the debug section.

* `Placeable` — a section that the tool places itself, or that has no raw data.
* `Converted.Tracks` — what has been converted has counted its section headers;
  `convert_tracks` — by the end of the input, for all of it.
* `Assigned` — the places that `assignPointers` gives; `assignPointers_assigned` — one loop, whatever
  the order of the sections.
* `LaidOut` — the layout has no overlaps; `finish_laidOut` — it has none in a file of 4 GB at most.
* `elf2pe_eq_some` — what is written is what has been laid out.
-/

namespace Ntloader.Elf2efi

/-! ## Alignment -/

/-- The next multiple of the file alignment. -/
def alignedUp (n : ℕ) : ℕ := (n + 511) / 512 * 512

/-- Alignment does not go down. -/
theorem le_alignedUp (n : ℕ) : n ≤ alignedUp n := by
  rw [alignedUp]
  omega

/-- What is aligned is a multiple of 512. -/
theorem dvd_alignedUp (n : ℕ) : 512 ∣ alignedUp n := Nat.dvd_mul_left _ _

/-- The alignment of the file, as a division. -/
theorem efiFileAlign_eq (arch : Arch) (offset : ℕ) :
    efiFileAlign arch offset = (offset + 511) % arch.ulong / 512 * 512 := by
  cases arch with
  | i386 =>
      rw [efiFileAlign, alignLong, fileAlign, Arch.ulong,
        show 2 ^ 32 - 1 - (0x200 - 1) = (2 ^ 23 - 1) <<< 9 from rfl, Lib.land_mask, Nat.shiftLeft_eq,
        Nat.add_sub_assoc (by norm_num)]
      omega
  | x86_64 =>
      rw [efiFileAlign, alignLong, fileAlign, Arch.ulong,
        show 2 ^ 64 - 1 - (0x200 - 1) = (2 ^ 55 - 1) <<< 9 from rfl, Lib.land_mask, Nat.shiftLeft_eq,
        Nat.add_sub_assoc (by norm_num)]
      omega

/-- It gives a multiple of 512, -/
theorem dvd_efiFileAlign (arch : Arch) (offset : ℕ) : 512 ∣ efiFileAlign arch offset := by
  rw [efiFileAlign_eq]
  exact Nat.dvd_mul_left _ _

/-- not above the next one, -/
theorem efiFileAlign_le (arch : Arch) (offset : ℕ) :
    efiFileAlign arch offset ≤ alignedUp offset := by
  rw [efiFileAlign_eq, alignedUp]
  exact Nat.mul_le_mul_right _ (Nat.div_le_div_right (Nat.mod_le _ _))

/-- and the next one, if nothing wraps around. -/
theorem efiFileAlign_of_lt {arch : Arch} {offset : ℕ} (h : offset + 511 < arch.ulong) :
    efiFileAlign arch offset = alignedUp offset := by
  rw [efiFileAlign_eq, Nat.mod_eq_of_lt h, alignedUp]

/-- What is aligned stays. -/
theorem efiFileAlign_of_dvd {arch : Arch} {offset : ℕ} (hdvd : 512 ∣ offset)
    (hlt : offset < arch.ulong) : efiFileAlign arch offset = offset := by
  obtain ⟨k, rfl⟩ := hdvd
  have hroom : 512 * k + 511 < arch.ulong := by
    cases arch with
    | i386 =>
        rw [Arch.ulong] at hlt ⊢
        omega
    | x86_64 =>
        rw [Arch.ulong] at hlt ⊢
        omega
  rw [efiFileAlign_of_lt hroom, alignedUp]
  omega

/-! ## The sections -/

/-- A section that is visible, and either has no raw data or is to be placed automatically. -/
structure Placeable (s : PeSection) : Prop where
  visible : s.hidden = false
  size_dvd : 512 ∣ s.sizeOfRawData
  place : s.pointerToRawData = ptrdAuto ∨ s.sizeOfRawData = 0 ∧ s.pointerToRawData = 0

/-- The number of bytes of a section in the file, were there no bound to it. -/
def rawSize (shdr : Shdr) : ℕ :=
  if shdr.alloc ∧ shdr.type = .progbits then alignedUp shdr.size else 0

/-- The total of the raw sizes. -/
def rawTotal (sections : List PeSection) : ℕ := (sections.map (·.sizeOfRawData)).sum

/-- One more section adds its raw data. -/
theorem rawTotal_append (sections : List PeSection) (s : PeSection) :
    rawTotal (sections ++ [s]) = rawTotal sections + s.sizeOfRawData := by
  rw [rawTotal, rawTotal, List.map_append, List.sum_append, List.map_singleton, List.sum_singleton]

/-- The limits of code and data leave the size of the headers, -/
@[simp] theorem extend_sizeOfHeaders (target : Target) (limits : Limits) (start memsz : ℕ)
    (hdr : PeHeader) : (hdr.extend target limits start memsz).sizeOfHeaders = hdr.sizeOfHeaders := by
  cases limits with
  | code => rfl
  | data => rfl
  | bss => rfl

/-- and so does the size of the image. -/
@[simp] theorem cover_sizeOfHeaders (last : ℕ) (hdr : PeHeader) :
    (hdr.cover last).sizeOfHeaders = hdr.sizeOfHeaders := by
  rw [PeHeader.cover]
  split_ifs
  · rfl
  · rfl

/-- What `process_section` makes of a section, and of the length of the headers. -/
theorem processSection_spec {arch : Arch} {target : Target} {segments : List Phdr} {shdr : Shdr}
    {hdr hdr' : PeHeader} {new : PeSection} (halloc : shdr.alloc)
    (h : processSection arch target false segments shdr hdr = some (new, hdr')) :
    Placeable new ∧ new.sizeOfRawData ≤ rawSize shdr ∧
      hdr'.sizeOfHeaders = (hdr.sizeOfHeaders + sectionHeaderLen) % 2 ^ 32 := by
  have hplace : placement target false segments shdr =
      some (if shdr.type = .progbits then ptrdAuto else 0, false) := by
    rw [placement]
    by_cases htype : shdr.type = .progbits
    · rw [if_pos htype, if_pos htype]
      rfl
    · rw [if_neg htype, if_neg htype]
      rfl
  rw [processSection, hplace, Option.bind_some] at h
  obtain ⟨limits, -, heq⟩ := Option.map_eq_some_iff.mp h
  obtain ⟨rfl, rfl⟩ := Prod.mk.inj heq
  refine ⟨⟨rfl, ?_, ?_⟩, ?_, ?_⟩
  · dsimp only
    split_ifs
    · exact (Nat.dvd_mod_iff (by norm_num)).mpr (dvd_efiFileAlign _ _)
    · exact dvd_zero 512
  · dsimp only
    by_cases htype : shdr.type = .progbits
    · exact Or.inl (if_pos htype)
    · rw [if_neg htype, if_neg htype]
      exact Or.inr ⟨rfl, rfl⟩
  · dsimp only
    rw [rawSize]
    by_cases htype : shdr.type = .progbits
    · rw [if_pos htype, if_pos ⟨halloc, htype⟩]
      refine (Nat.mod_le _ _).trans ((efiFileAlign_le _ _).trans ?_)
      exact Nat.mul_le_mul_right _ (Nat.div_le_div_right (Nat.add_le_add_right (Nat.mod_le _ _) _))
    · rw [if_neg htype]
      exact Nat.zero_le _
  · rw [cover_sizeOfHeaders, if_neg Bool.false_ne_true, extend_sizeOfHeaders]
    rfl

/-- What has been converted of the sections done: one section header for each that is allocated, and
no more raw data than they have. -/
structure Converted.Tracks (target : Target) (done : List Shdr) (st : Converted) : Prop where
  placeable : ∀ s ∈ st.sections, Placeable s
  total_le : rawTotal st.sections ≤ (done.map rawSize).sum
  length_eq : st.sections.length = done.countP (·.alloc)
  headers_eq : st.hdr.sizeOfHeaders = target.headerLen + st.sections.length * sectionHeaderLen

/-- The headers in front of the section headers are short. -/
theorem Target.headerLen_le (target : Target) : target.headerLen ≤ 264 := by
  cases target with
  | efi32 => decide
  | efi64 => decide

/-- **One input section.** -/
theorem Converted.Tracks.step {arch : Arch} {target : Target} {segments : List Phdr} {shdr : Shdr}
    {done : List Shdr} {st st' : Converted} (h : st.Tracks target done)
    (hlt : done.length < 2 ^ 16)
    (hstep : convertSection arch target false segments st shdr = some st') :
    st'.Tracks target (done ++ [shdr]) := by
  have hsum : ((done ++ [shdr]).map rawSize).sum = (done.map rawSize).sum + rawSize shdr := by
    rw [List.map_append, List.sum_append, List.map_singleton, List.sum_singleton]
  have hcount : (done ++ [shdr]).countP (·.alloc) =
      done.countP (·.alloc) + if shdr.alloc then 1 else 0 := by
    rw [List.countP_append, List.countP_singleton]
  rw [convertSection] at hstep
  by_cases halloc : shdr.alloc
  · rw [if_pos halloc] at hstep
    obtain ⟨⟨new, hdr⟩, hprocess, rfl⟩ := Option.map_eq_some_iff.mp hstep
    obtain ⟨hnew, hsize, hheaders⟩ := processSection_spec halloc hprocess
    have hlength : st.sections.length ≤ done.length := by
      rw [h.length_eq]
      exact List.countP_le_length
    have hheader := target.headerLen_le
    refine ⟨?_, ?_, ?_, ?_⟩
    · intro s hs
      rcases List.mem_append.mp hs with hold | hlast
      · exact h.placeable s hold
      · rw [List.mem_singleton.mp hlast]
        exact hnew
    · have htotal := h.total_le
      dsimp only
      rw [hsum, rawTotal_append]
      omega
    · dsimp only
      rw [hcount, if_pos halloc, List.length_append, List.length_singleton, h.length_eq]
    · dsimp only
      rw [hheaders, h.headers_eq, List.length_append, List.length_singleton, sectionHeaderLen]
      omega
  · rw [if_neg halloc] at hstep
    have hsame : st'.hdr = st.hdr ∧ st'.sections = st.sections := by
      split_ifs at hstep
      · obtain ⟨reltab, -, rfl⟩ := Option.map_eq_some_iff.mp hstep
        exact ⟨rfl, rfl⟩
      · obtain rfl := Option.some.inj hstep
        exact ⟨rfl, rfl⟩
    refine ⟨?_, ?_, ?_, ?_⟩
    · rw [hsame.2]
      exact h.placeable
    · rw [hsame.2, hsum]
      exact h.total_le.trans (Nat.le_add_right _ _)
    · rw [hsame.2, hcount, if_neg halloc]
      exact h.length_eq
    · rw [hsame.1, hsame.2]
      exact h.headers_eq

/-- **All input sections.** -/
theorem foldlM_tracks {arch : Arch} {target : Target} {segments : List Phdr} (todo : List Shdr)
    {done : List Shdr} {st st' : Converted} (h : st.Tracks target done)
    (hlt : done.length + todo.length < 2 ^ 16)
    (hrun : todo.foldlM (convertSection arch target false segments) st = some st') :
    st'.Tracks target (done ++ todo) := by
  induction todo generalizing done st with
  | nil =>
      obtain rfl := Option.some.inj hrun
      rw [List.append_nil]
      exact h
  | cons shdr todo ih =>
      rw [List.foldlM_cons] at hrun
      obtain ⟨st₁, hstep, hrest⟩ := Option.bind_eq_some_iff.mp hrun
      rw [List.length_cons] at hlt
      have hnext := h.step (by omega) hstep
      rw [show done ++ shdr :: todo = done ++ [shdr] ++ todo by simp]
      exact ih hnext (by rw [List.length_append, List.length_singleton]; omega) hrest

/-- **The conversion counts what it makes.** -/
theorem convert_tracks {arch : Arch} {target : Target} {elf : ElfFile} {st : Converted}
    (h : convert arch target false elf = some st) : st.Tracks target elf.sections := by
  have hstart : Converted.Tracks target []
      ⟨efiPeHeader target elf.entry, [], []⟩ := ⟨nofun, le_rfl, rfl, rfl⟩
  have hlt := elf.shnum_lt
  exact foldlM_tracks elf.sections hstart (by rw [List.length_nil]; omega) h

/-! ## The places -/

/-- The end of the raw data of a section. -/
def PeSection.rawEnd (s : PeSection) : ℕ := s.pointerToRawData + s.sizeOfRawData

/-- Sections that follow each other in the file, if both have raw data. -/
def Follows (s t : PeSection) : Prop :=
  s.sizeOfRawData ≠ 0 → t.sizeOfRawData ≠ 0 → s.rawEnd ≤ t.pointerToRawData

/-- Places for the sections, none in front of `start`. -/
structure Assigned (start : ℕ) (sections placed : List PeSection) : Prop where
  sizes_eq : placed.map (·.sizeOfRawData) = sections.map (·.sizeOfRawData)
  visible : ∀ s ∈ placed, s.hidden = false
  aligned : ∀ s ∈ placed, s.sizeOfRawData ≠ 0 → 512 ∣ s.pointerToRawData
  start_le : ∀ s ∈ placed, s.sizeOfRawData ≠ 0 → start ≤ s.pointerToRawData
  follows : placed.Pairwise Follows

/-- A section in front of those that have been given their places. -/
theorem Assigned.cons {start next : ℕ} {s new : PeSection} {sections placed : List PeSection}
    (h : Assigned next sections placed) (hsize : new.sizeOfRawData = s.sizeOfRawData)
    (hvisible : new.hidden = false) (hle : start ≤ next)
    (hnew : new.sizeOfRawData ≠ 0 → 512 ∣ new.pointerToRawData ∧ start ≤ new.pointerToRawData)
    (hrest : ∀ t ∈ placed, Follows new t) : Assigned start (s :: sections) (new :: placed) := by
  refine ⟨?_, ?_, ?_, ?_, List.pairwise_cons.mpr ⟨hrest, h.follows⟩⟩
  · rw [List.map_cons, List.map_cons, hsize, h.sizes_eq]
  · intro t ht
    rcases List.mem_cons.mp ht with rfl | hmem
    · exact hvisible
    · exact h.visible t hmem
  · intro t ht hne
    rcases List.mem_cons.mp ht with rfl | hmem
    · exact (hnew hne).1
    · exact h.aligned t hmem hne
  · intro t ht hne
    rcases List.mem_cons.mp ht with rfl | hmem
    · exact (hnew hne).2
    · exact hle.trans (h.start_le t hmem hne)

/-- Nothing is left to be placed where the rest has no raw data. -/
theorem Assigned.size_eq_zero {start : ℕ} {sections placed : List PeSection}
    (h : Assigned start sections placed) (hzero : rawTotal sections = 0) :
    ∀ s ∈ placed, s.sizeOfRawData = 0 := by
  intro s hs
  rw [rawTotal, ← h.sizes_eq, List.sum_eq_zero_iff] at hzero
  exact hzero _ (List.mem_map.mpr ⟨s, hs, rfl⟩)

/-- **The places do not overlap**, whatever the order of the sections. The last one may end where an
`unsigned long` of 32 bits wraps; then the others have no raw data. -/
theorem assignPointers_assigned {arch : Arch} {sections : List PeSection}
    (hplace : ∀ s ∈ sections, Placeable s) {start : ℕ} (hdvd : 512 ∣ start)
    (hlt : start < arch.ulong) (hend : start + rawTotal sections ≤ 2 ^ 32) :
    Assigned start sections (assignPointers arch sections start) := by
  have hge := arch.ulong_ge
  induction sections generalizing start with
  | nil => exact ⟨rfl, nofun, nofun, nofun, .nil⟩
  | cons s sections ih =>
      have hs := hplace s List.mem_cons_self
      have htail : ∀ t ∈ sections, Placeable t := fun t ht => hplace t (List.mem_cons_of_mem _ ht)
      have htotal : rawTotal (s :: sections) = s.sizeOfRawData + rawTotal sections := by
        rw [rawTotal, List.map_cons, List.sum_cons, rawTotal]
      rw [htotal] at hend
      rw [assignPointers]
      rcases hs.place with hauto | ⟨hempty, hzero⟩
      · rw [if_pos hauto]
        have hnew : s.sizeOfRawData ≠ 0 → start % 2 ^ 32 = start := fun hne =>
          Nat.mod_eq_of_lt (by omega)
        rcases Nat.lt_or_ge (start + s.sizeOfRawData) arch.ulong with hroom | hwrap
        · have hnext : efiFileAlign arch ((start + s.sizeOfRawData) % arch.ulong) =
              start + s.sizeOfRawData := by
            rw [Nat.mod_eq_of_lt hroom]
            exact efiFileAlign_of_dvd (Nat.dvd_add hdvd hs.size_dvd) hroom
          have hmax : (if start + s.sizeOfRawData > start then start + s.sizeOfRawData else start) =
              start + s.sizeOfRawData := by
            split_ifs
            · rfl
            · omega
          rw [hnext, hmax]
          have hrest := ih htail (Nat.dvd_add hdvd hs.size_dvd) hroom (by omega)
          refine hrest.cons rfl hs.visible (Nat.le_add_right _ _) (fun hne => ?_) ?_
          · dsimp only at hne ⊢
            rw [hnew hne]
            exact ⟨hdvd, le_rfl⟩
          · intro t ht hne hne'
            dsimp only [PeSection.rawEnd] at hne ⊢
            rw [hnew hne]
            exact hrest.start_le t ht hne'
        · have hfull : start + s.sizeOfRawData = arch.ulong := by omega
          have hnext : efiFileAlign arch ((start + s.sizeOfRawData) % arch.ulong) = 0 := by
            rw [hfull, Nat.mod_self]
            exact efiFileAlign_of_dvd (dvd_zero 512) (by omega)
          have hmax : (if 0 > start then 0 else start) = start := if_neg (Nat.not_lt_zero _)
          rw [hnext, hmax]
          have hrest := ih htail hdvd hlt (by omega)
          refine hrest.cons rfl hs.visible le_rfl (fun hne => ?_) ?_
          · dsimp only at hne ⊢
            rw [hnew hne]
            exact ⟨hdvd, le_rfl⟩
          · intro t ht _ hne'
            exact absurd (hrest.size_eq_zero (by omega) t ht) hne'
      · have hplace0 : s.pointerToRawData ≠ ptrdAuto := by
          rw [hzero]
          decide
        have hnext :
            efiFileAlign arch ((s.pointerToRawData + s.sizeOfRawData) % arch.ulong) = 0 := by
          rw [hzero, hempty, Nat.zero_mod]
          exact efiFileAlign_of_dvd (dvd_zero 512) (by omega)
        have hmax : (if 0 > start then 0 else start) = start := if_neg (Nat.not_lt_zero _)
        rw [if_neg hplace0, hnext, hmax]
        have hrest := ih htail hdvd hlt (by omega)
        exact hrest.cons rfl hs.visible le_rfl (fun hne => absurd hempty hne)
          fun t _ hne => absurd hempty hne

/-- A last section that is explicitly placed. -/
theorem assignPointers_append {arch : Arch} {debug : PeSection}
    (hplace : debug.pointerToRawData ≠ ptrdAuto) (hlt : debug.pointerToRawData < 2 ^ 32)
    (sections : List PeSection) (start : ℕ) :
    assignPointers arch (sections ++ [debug]) start =
      assignPointers arch sections start ++ [debug] := by
  induction sections generalizing start with
  | nil =>
      show assignPointers arch [debug] start = [debug]
      rw [assignPointers, assignPointers, if_neg hplace, Nat.mod_eq_of_lt hlt]
  | cons s sections ih =>
      rw [List.cons_append, assignPointers, assignPointers, List.cons_append, ih]

/-- Nothing is explicitly placed. -/
theorem headerMax_eq {arch : Arch} {sections : List PeSection}
    (h : ∀ s ∈ sections, Placeable s ∨ s.hidden) : headerMax arch sections = arch.ulong - 1 := by
  induction sections with
  | nil => rfl
  | cons s sections ih =>
      rw [headerMax, List.foldl_cons, if_neg]
      · exact ih fun t ht => h t (List.mem_cons_of_mem _ ht)
      · rintro ⟨hexplicit, hsize, hvisible, -⟩
        rcases h s List.mem_cons_self with hplace | hhidden
        · rcases hplace.place with hauto | ⟨hempty, -⟩
          · exact hexplicit hauto
          · omega
        · exact hvisible hhidden

/-! ## The layout -/

/-- The file layout has no overlaps. -/
structure LaidOut (target : Target) (hdr : PeHeader) (sections : List PeSection) : Prop where
  /-- The raw data of two sections does not overlap. -/
  apart : sections.Pairwise fun s t => s.sizeOfRawData ≠ 0 → t.sizeOfRawData ≠ 0 →
    s.rawEnd ≤ t.pointerToRawData ∨ t.rawEnd ≤ s.pointerToRawData
  /-- Visible raw data is aligned. -/
  aligned : ∀ s ∈ sections, s.hidden = false → s.sizeOfRawData ≠ 0 → fileAlign ∣ s.pointerToRawData
  /-- Visible raw data is behind the headers. -/
  behind : ∀ s ∈ sections, s.hidden = false → s.sizeOfRawData ≠ 0 →
    hdr.sizeOfHeaders ≤ s.pointerToRawData
  /-- The last section is that of the debug information: the headers end in front of it, and it ends
  with them. -/
  debug : ∃ front debug, sections = front ++ [debug] ∧ debug.hidden = true ∧
    debug.sizeOfRawData = debugLen ∧
    (∀ w ∈ headerWrites target sections, w.1 + w.2 ≤ debug.pointerToRawData) ∧
    debug.rawEnd = hdr.sizeOfHeaders

/-- The end of the file, were there no bound to it.
Source: utils/elf2efi.c, elf2pe -/
def fileEnd (target : Target) (elf : ElfFile) (reltab : List PeRelocs) : ℕ :=
  alignedUp (target.headerLen + (elf.sections.countP (·.alloc) + 1) * sectionHeaderLen + debugLen) +
    (elf.sections.map rawSize).sum + alignedUp (outputPeReltab reltab none Lib.Mem.zero).1

/-- What `create_reloc_section` makes. -/
theorem createRelocSection_spec (arch : Arch) (hdr : PeHeader) (reltab : List PeRelocs) :
    Placeable (createRelocSection arch hdr reltab).1 ∧
      (createRelocSection arch hdr reltab).1.sizeOfRawData ≤
        alignedUp (outputPeReltab reltab none Lib.Mem.zero).1 ∧
      (createRelocSection arch hdr reltab).2.sizeOfHeaders =
        (hdr.sizeOfHeaders + sectionHeaderLen) % 2 ^ 32 := by
  refine ⟨⟨rfl, ?_, Or.inl rfl⟩, ?_, rfl⟩
  · exact (Nat.dvd_mod_iff (by norm_num)).mpr (dvd_efiFileAlign _ _)
  · exact (Nat.mod_le _ _).trans (efiFileAlign_le _ _)

/-- What `create_debug_section` makes: a section that ends with the headers. -/
theorem createDebugSection_spec {arch : Arch} {hdr : PeHeader}
    (h : hdr.sizeOfHeaders + debugLen + 511 < 2 ^ 32) :
    (createDebugSection arch hdr).1.pointerToRawData + debugLen =
        alignedUp (hdr.sizeOfHeaders + debugLen) ∧
      (createDebugSection arch hdr).1.sizeOfRawData = debugLen ∧
      (createDebugSection arch hdr).1.hidden = true ∧
      (createDebugSection arch hdr).2.sizeOfHeaders =
        alignedUp (hdr.sizeOfHeaders + debugLen) := by
  have hge := arch.ulong_ge
  have hle := le_alignedUp (hdr.sizeOfHeaders + debugLen)
  have hlt : alignedUp (hdr.sizeOfHeaders + debugLen) < 2 ^ 32 := by
    rw [alignedUp]
    omega
  have halign : efiFileAlign arch ((hdr.sizeOfHeaders + debugLen) % 2 ^ 32) % 2 ^ 32 =
      alignedUp (hdr.sizeOfHeaders + debugLen) := by
    have hmod : (hdr.sizeOfHeaders + debugLen) % 2 ^ 32 = hdr.sizeOfHeaders + debugLen :=
      Nat.mod_eq_of_lt (by omega)
    rw [hmod, efiFileAlign_of_lt (by omega), Nat.mod_eq_of_lt hlt]
  have hstart : (alignedUp (hdr.sizeOfHeaders + debugLen) + (2 ^ 32 - debugLen)) % 2 ^ 32 =
      alignedUp (hdr.sizeOfHeaders + debugLen) - debugLen := by
    rw [debugLen] at hle hlt ⊢
    omega
  refine ⟨?_, rfl, rfl, ?_⟩
  · rw [createDebugSection, halign, hstart]
    dsimp only
    omega
  · rw [createDebugSection, halign, hstart]
    dsimp only
    rw [Nat.sub_add_cancel (by omega), Nat.mod_eq_of_lt hlt]

/-- The size of the table does not depend on the image base. -/
theorem outputPeReltab_rebase (arch : Arch) (base : ℕ) (reltab : List PeRelocs) (m : Lib.Mem) :
    outputPeReltab (reltab.map (PeRelocs.rebase arch base)) none m =
      outputPeReltab reltab none m := by
  have hloop : ∀ total, outputLoop none (reltab.map (PeRelocs.rebase arch base)) total m =
      outputLoop none reltab total m := by
    induction reltab with
    | nil => exact fun _ => rfl
    | cons p reltab ih => exact fun total => ih (total + p.blockSize)
  exact hloop 0

/-- **Placeable sections**, and a hidden one at the end of the headers, are laid out without
overlaps. -/
theorem assignRawData_laidOut {arch : Arch} {target : Target} {hdr : PeHeader}
    {front : List PeSection} {debug : PeSection} (hfront : ∀ s ∈ front, Placeable s)
    (hhidden : debug.hidden = true) (hsize : debug.sizeOfRawData = debugLen)
    (hdebug : debug.rawEnd = hdr.sizeOfHeaders) (hdvd : 512 ∣ hdr.sizeOfHeaders)
    (hlt : hdr.sizeOfHeaders < 2 ^ 32)
    (hroom : target.headerLen + front.length * sectionHeaderLen ≤ debug.pointerToRawData)
    (hend : hdr.sizeOfHeaders + rawTotal front ≤ 2 ^ 32) :
    ∃ hdr' sections, assignRawData arch hdr (front ++ [debug]) = some (hdr', sections) ∧
      LaidOut target hdr' sections := by
  have hge := arch.ulong_ge
  have hplace : debug.pointerToRawData ≠ ptrdAuto := by
    rw [PeSection.rawEnd, hsize, debugLen] at hdebug
    rw [ptrdAuto]
    omega
  have hmax : headerMax arch (front ++ [debug]) = arch.ulong - 1 := headerMax_eq fun s hs => by
    rcases List.mem_append.mp hs with hmem | hlast
    · exact Or.inl (hfront s hmem)
    · rw [List.mem_singleton.mp hlast]
      exact Or.inr hhidden
  have halign : efiFileAlign arch hdr.sizeOfHeaders % 2 ^ 32 = hdr.sizeOfHeaders := by
    rw [efiFileAlign_of_dvd hdvd (by omega), Nat.mod_eq_of_lt hlt]
  have hplaced := assignPointers_assigned hfront hdvd (hlt.trans_le hge) hend
  have hdebugLt : debug.pointerToRawData < 2 ^ 32 := by
    rw [PeSection.rawEnd] at hdebug
    omega
  have hassign : assignRawData arch hdr (front ++ [debug]) =
      some (hdr, assignPointers arch front hdr.sizeOfHeaders ++ [debug]) := by
    have hkeep : (if arch.ulong - 1 ≠ arch.ulong - 1 ∧ hdr.sizeOfHeaders < arch.ulong - 1
        then (arch.ulong - 1) % 2 ^ 32 else hdr.sizeOfHeaders) = hdr.sizeOfHeaders :=
      if_neg fun h => h.1 rfl
    rw [assignRawData, hmax, hkeep, halign, if_neg (by omega),
      assignPointers_append hplace hdebugLt]
  refine ⟨_, _, hassign, ?_⟩
  generalize assignPointers arch front hdr.sizeOfHeaders = placed at hplaced
  have hlength : placed.length = front.length := by
    rw [← List.length_map (f := (·.sizeOfRawData)), hplaced.sizes_eq, List.length_map]
  have hcount : (placed ++ [debug]).countP (!·.hidden) = front.length := by
    have hall : placed.countP (!·.hidden) = placed.length :=
      List.countP_eq_length.mpr fun s hs => by rw [hplaced.visible s hs]; rfl
    rw [List.countP_append, hall, List.countP_singleton, hhidden, hlength]
    rfl
  refine ⟨?_, ?_, ?_, ⟨placed, debug, rfl, hhidden, hsize, ?_, hdebug⟩⟩
  · refine List.pairwise_append.mpr ⟨hplaced.follows.imp fun h hs ht => Or.inl (h hs ht),
      List.pairwise_singleton _ _, fun s hs t ht hne _ => Or.inr ?_⟩
    rw [List.mem_singleton.mp ht, hdebug]
    exact hplaced.start_le s hs hne
  · intro s hs hvisible hne
    rcases List.mem_append.mp hs with hmem | hlast
    · exact hplaced.aligned s hmem hne
    · rw [List.mem_singleton.mp hlast, hhidden] at hvisible
      cases hvisible
  · intro s hs hvisible hne
    rcases List.mem_append.mp hs with hmem | hlast
    · exact hplaced.start_le s hmem hne
    · rw [List.mem_singleton.mp hlast, hhidden] at hvisible
      cases hvisible
  · intro w hw
    rw [headerWrites, hcount] at hw
    rw [sectionHeaderLen] at hroom hw
    rcases List.mem_cons.mp hw with rfl | hmem
    · dsimp only
      omega
    · obtain ⟨i, hi, rfl⟩ := List.mem_map.mp hmem
      have hi' := List.mem_range.mp hi
      dsimp only
      omega

/-- A change of the base leaves the size of the headers. -/
theorem rebase_sizeOfHeaders (arch : Arch) (target : Target) (base : ℕ) (hdr : PeHeader) :
    (hdr.rebase arch target base).sizeOfHeaders = hdr.sizeOfHeaders := rfl

/-- A section at another address is placed as it was. -/
theorem Placeable.rebase {s : PeSection} (h : Placeable s) (arch : Arch) (base : ℕ) :
    Placeable (s.rebase arch base) := ⟨h.visible, h.size_dvd, h.place⟩

/-- A change of the base leaves the raw data. -/
theorem rawTotal_rebase (arch : Arch) (base : ℕ) (sections : List PeSection) :
    rawTotal (sections.map (PeSection.rebase arch base)) = rawTotal sections := by
  rw [rawTotal, rawTotal, List.map_map]
  rfl

/-- The sections that are added, one after the other. -/
theorem finish_eq (arch : Arch) (target : Target) (st : Converted) :
    finish arch target st =
      ((createDebugSection arch (createRelocSection arch
          (st.hdr.rebase arch target (imageBase arch st.sections))
          (st.reltab.map (PeRelocs.rebase arch (imageBase arch st.sections)))).2).2,
        st.sections.map (PeSection.rebase arch (imageBase arch st.sections)) ++
          [(createRelocSection arch (st.hdr.rebase arch target (imageBase arch st.sections))
            (st.reltab.map (PeRelocs.rebase arch (imageBase arch st.sections)))).1] ++
          [(createDebugSection arch (createRelocSection arch
            (st.hdr.rebase arch target (imageBase arch st.sections))
            (st.reltab.map (PeRelocs.rebase arch (imageBase arch st.sections)))).2).1]) := rfl

/-- **The file layout has no overlaps** in a file of 4 GB at most, whatever the sections of the ELF
file are and in whatever order they come.
Source: utils/elf2efi.c, process_section, create_reloc_section, create_debug_section,
write_pe_file -/
theorem finish_laidOut {arch : Arch} {target : Target} {elf : ElfFile} {st : Converted}
    (h : convert arch target false elf = some st) (hend : fileEnd target elf st.reltab ≤ 2 ^ 32) :
    ∃ hdr sections, assignRawData arch (finish arch target st).1 (finish arch target st).2 =
      some (hdr, sections) ∧ LaidOut target hdr sections := by
  have htracks := convert_tracks h
  have hshnum := elf.shnum_lt
  have hheader := target.headerLen_le
  have hcount : elf.sections.countP (·.alloc) ≤ elf.sections.length := List.countP_le_length
  have hlength := htracks.length_eq
  have htotal := htracks.total_le
  have hheaders := htracks.headers_eq
  have htable := congrArg Prod.fst
    (outputPeReltab_rebase arch (imageBase arch st.sections) st.reltab Lib.Mem.zero)
  obtain ⟨hrelocPlace, hrelocSize, hrelocHeaders⟩ := createRelocSection_spec arch
    (st.hdr.rebase arch target (imageBase arch st.sections))
    (st.reltab.map (PeRelocs.rebase arch (imageBase arch st.sections)))
  rw [htable] at hrelocSize
  rw [rebase_sizeOfHeaders, hheaders, hlength, sectionHeaderLen] at hrelocHeaders
  rw [finish_eq]
  generalize imageBase arch st.sections = base at *
  generalize createRelocSection arch (st.hdr.rebase arch target base)
    (st.reltab.map (PeRelocs.rebase arch base)) = reloc at *
  have hsum : reloc.2.sizeOfHeaders =
      target.headerLen + (elf.sections.countP (·.alloc) + 1) * sectionHeaderLen := by
    rw [hrelocHeaders, sectionHeaderLen]
    omega
  have hroom : reloc.2.sizeOfHeaders + debugLen + 511 < 2 ^ 32 := by
    rw [hsum, sectionHeaderLen, debugLen]
    omega
  obtain ⟨hdebugEnd, hdebugSize, hdebugHidden, hdebugHeaders⟩ :=
    @createDebugSection_spec arch _ hroom
  generalize createDebugSection arch reloc.2 = debug at *
  have htotal' : rawTotal (st.sections.map (PeSection.rebase arch base) ++ [reloc.1]) =
      rawTotal st.sections + reloc.1.sizeOfRawData := by
    rw [rawTotal_append, rawTotal_rebase]
  have hlength' : (st.sections.map (PeSection.rebase arch base) ++ [reloc.1]).length =
      elf.sections.countP (·.alloc) + 1 := by
    rw [List.length_append, List.length_singleton, List.length_map, hlength]
  have hle := le_alignedUp (reloc.2.sizeOfHeaders + debugLen)
  rw [fileEnd, ← hsum] at hend
  have hlt : debug.2.sizeOfHeaders < 2 ^ 32 := by
    rw [hdebugHeaders, alignedUp]
    omega
  refine assignRawData_laidOut (fun s hs => ?_) hdebugHidden hdebugSize ?_ ?_ hlt ?_ ?_
  · rcases List.mem_append.mp hs with hmem | hlast
    · obtain ⟨s', hs', rfl⟩ := List.mem_map.mp hmem
      exact (htracks.placeable s' hs').rebase arch base
    · rw [List.mem_singleton.mp hlast]
      exact hrelocPlace
  · rw [PeSection.rawEnd, hdebugSize, hdebugEnd, hdebugHeaders]
  · rw [hdebugHeaders]
    exact dvd_alignedUp _
  · rw [hlength', ← hsum]
    omega
  · rw [htotal', hdebugHeaders]
    omega

/-- A section of the given type and size. -/
def plainSection (type : ShType) (addr size : ℕ) : Shdr :=
  ⟨[], type, true, false, false, addr, size, []⟩

/-- Code, zeroed memory, and data behind it. -/
def mixedElf : ElfFile where
  entry := 0x1000
  sections := [plainSection .progbits 0x1000 0x345, plainSection .nobits 0x2000 0x800,
    plainSection .progbits 0x3000 0x20]
  segments := []
  shnum_lt := by decide

/-- A file with code, data and relocations. -/
theorem finish_laidOut_mixedElf :
    ∃ st, convert .x86_64 .efi64 false mixedElf = some st ∧
      ∃ hdr sections, assignRawData .x86_64 (finish .x86_64 .efi64 st).1
        (finish .x86_64 .efi64 st).2 = some (hdr, sections) ∧ LaidOut .efi64 hdr sections := by
  have hsmall : (convert .x86_64 .efi64 false mixedElf).map
      (fun st => decide (fileEnd .efi64 mixedElf st.reltab ≤ 2 ^ 32)) = some true := by
    decide +kernel
  obtain ⟨st, hst, hend⟩ := Option.map_eq_some_iff.mp hsmall
  exact ⟨st, hst, finish_laidOut hst (of_decide_eq_true hend)⟩

/-- Sections whose raw data goes on past 4 GB. -/
def wideElf : ElfFile where
  entry := 0x1000
  sections := [plainSection .progbits 0x1000 (2 ^ 31), plainSection .progbits 0x1000 (2 ^ 31),
    plainSection .progbits 0x1000 0x200]
  segments := []
  shnum_lt := by decide

/-- In a file of more than 4 GB the third section is placed on the first. -/
theorem not_laidOut_wideElf :
    ¬∀ (arch : Arch) (target : Target) (elf : ElfFile) (st : Converted),
      convert arch target false elf = some st →
        ∃ hdr sections, assignRawData arch (finish arch target st).1 (finish arch target st).2 =
          some (hdr, sections) ∧ LaidOut target hdr sections := by
  intro hall
  have hplaces : (convert .x86_64 .efi64 false wideElf).bind (fun st =>
      (assignRawData .x86_64 (finish .x86_64 .efi64 st).1 (finish .x86_64 .efi64 st).2).map fun r =>
        r.2.map fun s => (s.pointerToRawData, s.sizeOfRawData)) =
      some [(512, 2 ^ 31), (2 ^ 31 + 512, 2 ^ 31), (512, 512), (1024, 0), (428, 84)] := by
    decide +kernel
  obtain ⟨st, hst, hassign⟩ := Option.bind_eq_some_iff.mp hplaces
  obtain ⟨hdr, sections, hsome, hlaid⟩ := hall .x86_64 .efi64 wideElf st hst
  rw [hsome, Option.map_some] at hassign
  have hapart : (sections.map fun s => (s.pointerToRawData, s.sizeOfRawData)).Pairwise
      fun p q => p.2 ≠ 0 → q.2 ≠ 0 → p.1 + p.2 ≤ q.1 ∨ q.1 + q.2 ≤ p.1 :=
    List.pairwise_map.mpr hlaid.apart
  rw [Option.some.inj hassign] at hapart
  exact absurd hapart (by decide)

/-- A file that has been written is one whose raw data has been given its places, with no visible
section misaligned. -/
theorem elf2pe_eq_some {arch : Arch} {target : Target} {hybrid : Bool} {elf : ElfFile}
    {hdr : PeHeader} {sections : List PeSection} {writes : List (ℕ × ℕ)}
    (h : elf2pe arch target hybrid elf = some (hdr, sections, writes)) :
    ∃ st, convert arch target hybrid elf = some st ∧
      assignRawData arch (finish arch target st).1 (finish arch target st).2 =
        some (hdr, sections) ∧
      ∀ s ∈ sections, s.hidden = false → s.pointerToRawData &&& (fileAlign - 1) = 0 := by
  obtain ⟨st, hst, hwrite⟩ := Option.bind_eq_some_iff.mp h
  refine ⟨st, hst, ?_⟩
  obtain ⟨⟨hdr', sections'⟩, hassign, hrest⟩ := Option.bind_eq_some_iff.mp hwrite
  dsimp only at hrest
  by_cases hany : sections'.any fun s => s.pointerToRawData &&& (fileAlign - 1) ≠ 0 && !s.hidden
  · rw [if_pos hany] at hrest
    cases hrest
  · rw [if_neg hany] at hrest
    split_ifs at hrest
    obtain ⟨rfl, hrest'⟩ := Prod.mk.inj (Option.some.inj hrest)
    obtain ⟨rfl, -⟩ := Prod.mk.inj hrest'
    refine ⟨hassign, fun s hs hvisible => ?_⟩
    by_contra hne
    exact hany (List.any_eq_true.mpr ⟨s, hs, by simp [hne, hvisible]⟩)

end Ntloader.Elf2efi
