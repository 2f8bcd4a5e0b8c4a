import Ntloader.Elf2efi.Encode
import Ntloader.Elf2efi.Layout
import Ntloader.Elf2efi.Output

/-!
# What a loader makes of the PE file

* `readImage` — the headers of a PE file; `ImageHeader.load` — its image at an address: the sections at
  their places, with zeros behind their raw data, and the base relocations applied.
* `readImage_outputFile` — the headers that elf2efi writes are read back.
-/

namespace Ntloader.Elf2efi

open Ntloader.Lib

/-! ## A loader of PE files -/

/-- What is read of a section header.
Source: include/efi/IndustryStandard/PeImage.h, EFI_IMAGE_SECTION_HEADER -/
structure ImageSection where
  virtualSize : ℕ
  virtualAddress : ℕ
  sizeOfRawData : ℕ
  pointerToRawData : ℕ

/-- What is read of the headers.
Source: include/efi/IndustryStandard/PeImage.h, EFI_IMAGE_NT_HEADERS32, EFI_IMAGE_NT_HEADERS64 -/
structure ImageHeader where
  imageBase : ℕ
  entry : ℕ
  sizeOfHeaders : ℕ
  basereloc : DataDirectory
  sections : List ImageSection

/-- Read a section header. -/
def readImageSection (file : Mem) (place : ℕ) : ImageSection where
  virtualSize := file.word (place + 8) 4
  virtualAddress := file.word (place + 12) 4
  sizeOfRawData := file.word (place + 16) 4
  pointerToRawData := file.word (place + 20) 4

/-- Read the headers of a PE file, given the place and length of the base of the image and the place of
the data directory. -/
def readImageAs (file : Mem) (opt base baseLen directory : ℕ) : ImageHeader where
  imageBase := file.word (opt + base) baseLen
  entry := file.word (opt + 16) 4
  sizeOfHeaders := file.word (opt + 60) 4
  basereloc := ⟨file.word (opt + directory + 40) 4, file.word (opt + directory + 44) 4⟩
  sections := (List.range (file.word (opt - 18) 2)).map fun i =>
    readImageSection file (opt + file.word (opt - 4) 2 + 40 * i)

/-- Read the headers of a PE file, PE32 or PE32+. -/
def readImage (file : Mem) : Option ImageHeader :=
  let nt := file.word 60 4
  if file.word 0 2 = 0x5a4d ∧ file.word nt 4 = 0x4550 then
    if file.word (nt + 24) 2 = 0x10b then some (readImageAs file (nt + 24) 28 4 96)
    else if file.word (nt + 24) 2 = 0x20b then some (readImageAs file (nt + 24) 24 8 112)
    else none
  else none

/-- What is put in memory of a section: its raw data, and zeros behind them. -/
def ImageSection.run (file : Mem) (start : ℕ) (s : ImageSection) : ℕ × List UInt8 :=
  (start + s.virtualAddress,
    padded s.virtualSize (file.bytes s.pointerToRawData (min s.virtualSize s.sizeOfRawData)))

/-- The headers and the sections in memory. -/
def ImageHeader.place (file : Mem) (start : ℕ) (hdr : ImageHeader) : Mem :=
  (Mem.zero.store start (file.bytes 0 hdr.sizeOfHeaders)).storeAll
    (hdr.sections.map (ImageSection.run file start))

/-- The word that a base relocation is about.
Source: include/efi/IndustryStandard/PeImage.h, EFI_IMAGE_REL_BASED_DIR64,
EFI_IMAGE_REL_BASED_HIGHLOW, EFI_IMAGE_REL_BASED_LOW -/
def relocSite (start : ℕ) (f : ℕ × ℕ) : ℕ × ℕ :=
  (start + f.1, if f.2 = 10 then 8 else if f.2 = 3 then 4 else 2)

/-- What is added to the addresses of an image at another place than its base. -/
def ImageHeader.delta (start : ℕ) (hdr : ImageHeader) : ℕ := start + (2 ^ 64 - hdr.imageBase)

/-- Load an image at an address. -/
def ImageHeader.load (file : Mem) (start : ℕ) (hdr : ImageHeader) : Option Mem :=
  let m := hdr.place file start
  (parseRelocs (m.bytes (start + hdr.basereloc.virtualAddress) hdr.basereloc.size)).map fun blocks =>
    m.adjustAll (hdr.delta start) ((blocks.flatMap RelocBlock.fixups).map (relocSite start))

/-! ## The headers are read back -/

section
variable {target : Target} {machine subsystem : ℕ} {hdr : PeHeader}
  {sections : List (PeSection × Contents)}

/-- The length of the headers in front of the section headers. -/
theorem peHeaderBytes_length (target : Target) (machine subsystem : ℕ) (hdr : PeHeader) :
    (peHeaderBytes target machine subsystem hdr).length = target.headerLen := by
  rw [peHeaderBytes, structBytes_length, peHeaderFields, frontFields, backFields, directoryFields]
  cases target <;> simp [baseFields, Target.pick, Target.headerLen]

/-- The sections that have a section header. -/
def visible (sections : List (PeSection × Contents)) : List (PeSection × Contents) :=
  sections.filter (!·.1.hidden)

/-- What is read of a section header that has been written. -/
def ImageSection.ofPe (s : PeSection) : ImageSection where
  virtualSize := s.virtualSize % 2 ^ 32
  virtualAddress := s.virtualAddress % 2 ^ 32
  sizeOfRawData := s.sizeOfRawData % 2 ^ 32
  pointerToRawData := s.pointerToRawData % 2 ^ 32

/-- A section header has 40 bytes. -/
theorem sectionHeaderBytes_length {s : PeSection × Contents} (h : s.2.name.length = 8) :
    (sectionHeaderBytes s).length = 40 := by
  rw [sectionHeaderBytes, List.length_append, h, structBytes_length]
  rfl

/-- **A section header is read back.** -/
theorem readImageSection_eq {file : Mem} {place : ℕ} {s : PeSection × Contents}
    (hname : s.2.name.length = 8) (h : file.bytes place 40 = sectionHeaderBytes s) :
    readImageSection file place = .ofPe s.1 := by
  rw [← sectionHeaderBytes_length hname] at h
  have hfields := (Mem.bytes_append_iff.mp h).2
  rw [hname] at hfields
  have hsize := @Mem.word_structBytes _ _ 0 0 _ _ _ hfields rfl rfl
  have haddress := @Mem.word_structBytes _ _ 4 1 _ _ _ hfields rfl rfl
  have hraw := @Mem.word_structBytes _ _ 8 2 _ _ _ hfields rfl rfl
  have hpointer := @Mem.word_structBytes _ _ 12 3 _ _ _ hfields rfl rfl
  rw [readImageSection, ImageSection.ofPe]
  congr 1

/-- The section headers are read back. -/
theorem readSections_eq {file : Mem} {table : ℕ}
    (hnames : ∀ s ∈ sections, s.2.name.length = 8)
    (h : file.bytes table ((visible sections).flatMap sectionHeaderBytes).length =
      (visible sections).flatMap sectionHeaderBytes) :
    ((List.range (visible sections).length).map fun i =>
      readImageSection file (table + 40 * i)) =
      (visible sections).map fun s => ImageSection.ofPe s.1 := by
  have hnames' : ∀ s ∈ visible sections, s.2.name.length = 8 :=
    fun s hs => hnames s (List.mem_filter.mp hs).1
  refine List.ext_getElem (by simp) fun i hi hi' => ?_
  rw [List.length_map] at hi'
  rw [List.getElem_map, List.getElem_range, List.getElem_map]
  refine readImageSection_eq (hnames' _ (List.getElem_mem hi')) ?_
  exact Mem.bytes_flatMap (fun s hs => sectionHeaderBytes_length (hnames' s hs)) h hi'

/-- What is read of the headers that have been written. -/
def ImageHeader.ofPe (target : Target) (hdr : PeHeader) (sections : List (PeSection × Contents)) :
    ImageHeader where
  imageBase := hdr.imageBase % target.word
  entry := hdr.addressOfEntryPoint % 2 ^ 32
  sizeOfHeaders := hdr.sizeOfHeaders % 2 ^ 32
  basereloc := ⟨hdr.basereloc.virtualAddress % 2 ^ 32, hdr.basereloc.size % 2 ^ 32⟩
  sections := (visible sections).map fun s => .ofPe s.1

/-- A field of the file header is read back. -/
theorem word_peHeader {file : Mem} (i : ℕ) {o n v : ℕ}
    (h : file.bytes 0 (peHeaderBytes target machine subsystem hdr).length =
      peHeaderBytes target machine subsystem hdr)
    (hi : (peHeaderFields target machine subsystem hdr)[i]? = some (n, v))
    (ho : (((peHeaderFields target machine subsystem hdr).take i).map Prod.fst).sum = o) :
    file.word o n = v % 256 ^ n := by
  have hword := Mem.word_structBytes h hi ho
  rwa [Nat.zero_add] at hword

/-- What is read of a file header of 64 + 24 bytes and the optional header of a build. -/
def Target.readAs (target : Target) (file : Mem) : ImageHeader :=
  match target with
  | .efi32 => readImageAs file 88 28 4 96
  | .efi64 => readImageAs file 88 24 8 112

/-- The optional header is taken for that of the build. -/
theorem readImage_eq {file : Mem}
    (h : file.bytes 0 (peHeaderBytes target machine subsystem hdr).length =
      peHeaderBytes target machine subsystem hdr) :
    readImage file = some (target.readAs file) := by
  have hmz := word_peHeader 0 h rfl (o := 0) (by simp)
  have hnt := word_peHeader 2 h rfl (o := 60) (by simp [peHeaderFields, frontFields])
  have hsignature := word_peHeader 3 h rfl (o := 64) (by simp [peHeaderFields, frontFields])
  have hmagic := word_peHeader 11 h rfl (o := 88) (by simp [peHeaderFields, frontFields])
  norm_num at hmz hnt hsignature
  rw [readImage, hnt, if_pos ⟨hmz, hsignature⟩, hmagic]
  cases target with
  | efi32 =>
      rw [if_pos (by decide)]
      norm_num [Target.readAs]
  | efi64 =>
      rw [if_neg (by decide), if_pos (by decide)]
      norm_num [Target.readAs]

/-- **The headers are read back.** -/
theorem readImage_outputFile (hcount : (visible sections).length = hdr.numberOfSections)
    (hlt : hdr.numberOfSections < 2 ^ 16) (hnames : ∀ s ∈ sections, s.2.name.length = 8) :
    readImage (Mem.ofList (outputFile target machine subsystem hdr sections)) =
      some (.ofPe target hdr sections) := by
  have hheaders := outputFile_headers target machine subsystem hdr sections
  generalize Mem.ofList (outputFile target machine subsystem hdr sections) = file at hheaders
  rw [headersBytes] at hheaders
  obtain ⟨hfields, htable⟩ := Mem.bytes_append_iff.mp hheaders
  rw [peHeaderBytes_length, Nat.zero_add] at htable
  have hread := readSections_eq hnames htable
  have hpow : (256 : ℕ) ^ 4 = 2 ^ 32 := by norm_num
  have hnumber := word_peHeader 5 hfields rfl (o := 70) (by simp [peHeaderFields, frontFields])
  have hentry := word_peHeader 17 hfields rfl (o := 104) (by simp [peHeaderFields, frontFields])
  have hoptional := word_peHeader 9 hfields rfl (o := 84) (by simp [peHeaderFields, frontFields])
  rw [hcount, ← Nat.mod_eq_of_lt hlt, ← show 256 ^ 2 = 2 ^ 16 from rfl, ← hnumber] at hread
  rw [readImage_eq hfields, Option.some_inj]
  cases target with
  | efi32 =>
      have hbase := word_peHeader 20 hfields rfl (o := 116)
        (by simp [peHeaderFields, frontFields, baseFields])
      have hlen := word_peHeader 31 hfields rfl (o := 148)
        (by simp [peHeaderFields, frontFields, baseFields, backFields])
      have haddress := word_peHeader 42 hfields rfl (o := 224)
        (by simp [peHeaderFields, frontFields, baseFields, backFields, directoryFields, Target.pick])
      have hsize := word_peHeader 43 hfields rfl (o := 228)
        (by simp [peHeaderFields, frontFields, baseFields, backFields, directoryFields, Target.pick])
      rw [Target.readAs, readImageAs, ImageHeader.ofPe, ← hread, hoptional]
      congr 1
      exact congrArg₂ DataDirectory.mk haddress hsize
  | efi64 =>
      have hbase := word_peHeader 19 hfields rfl (o := 112)
        (by simp [peHeaderFields, frontFields, baseFields])
      have hlen := word_peHeader 30 hfields rfl (o := 148)
        (by simp [peHeaderFields, frontFields, baseFields, backFields])
      have haddress := word_peHeader 41 hfields rfl (o := 240)
        (by simp [peHeaderFields, frontFields, baseFields, backFields, directoryFields, Target.pick])
      have hsize := word_peHeader 42 hfields rfl (o := 244)
        (by simp [peHeaderFields, frontFields, baseFields, backFields, directoryFields, Target.pick])
      rw [hpow] at *
      rw [Target.readAs, readImageAs, ImageHeader.ofPe, ← hread, hoptional, ImageHeader.mk.injEq,
        DataDirectory.mk.injEq]
      exact ⟨hbase, hentry, hlen, ⟨haddress, hsize⟩, rfl⟩

end

end Ntloader.Elf2efi
