import Ntloader.Elf2efi.Relocs

/-!
# From ELF sections to PE sections: the model of utils/elf2efi.c

* `processSection`, `createRelocSection`, `createDebugSection` — one PE section each, and what it
  adds to the file header.
* `updateImageBase` — the addresses become relative to the image base.
* `convert` — the sections of an ELF file; `finish` — what `elf2pe` adds to them.
* `assignRawData` — where the sections go in the file; `writePeFile` — what is written where.

Scope: the contents of the sections and their characteristics are left out, and of the file header
everything that is constant. The relocation records of a section are taken as the list of fix-ups
that `process_reloc` makes of them. Names are those that `elf_string` finds; files are opened, sought
and written without failure.
-/

namespace Ntloader.Elf2efi

/-! ## The data -/

/-- The builds of the tool.
Source: utils/elf2efi.c, EFI_TARGET32, EFI_TARGET64 -/
inductive Target where
  | efi32
  | efi64
  deriving DecidableEq

/-- Number of values of an address of the ELF file.
Source: utils/elf2efi.c, Elf_Addr -/
def Target.word : Target → ℕ
  | .efi32 => 2 ^ 32
  | .efi64 => 2 ^ 64

/-- Length of the file header as it is written, `NUMBER_OF_DIRECTORY_ENTRIES` being 8.
Source: utils/elf2efi.c, efi_pe_header, `SizeOfHeaders`;
include/efi/IndustryStandard/PeImage.h, EFI_IMAGE_DOS_HEADER, EFI_IMAGE_NT_HEADERS32,
EFI_IMAGE_NT_HEADERS64 -/
def Target.headerLen : Target → ℕ
  | .efi32 => 64 + 24 + 160
  | .efi64 => 64 + 24 + 176

/-- Alignment of raw data of sections in the image file.
Source: utils/elf2efi.c, EFI_FILE_ALIGN -/
def fileAlign : ℕ := 0x200

/-- Alignment of sections when loaded into memory.
Source: utils/elf2efi.c, EFI_IMAGE_ALIGN -/
def imageAlign : ℕ := 0x1000

/-- Set PointerToRawData automatically.
Source: utils/elf2efi.c, PTRD_AUTO -/
def ptrdAuto : ℕ := 0xffffffff

/-- Length of a section header.
Source: include/efi/IndustryStandard/PeImage.h, EFI_IMAGE_SECTION_HEADER -/
def sectionHeaderLen : ℕ := 40

/-- Length of the contents of the debug section: a directory entry, a CodeView entry and a name.
Source: utils/elf2efi.c, create_debug_section, `contents` -/
def debugLen : ℕ := 28 + 24 + 32

/-- Align an `unsigned long` to a power of two.
Source: utils/elf2efi.c, efi_file_align, efi_image_align -/
def alignLong (arch : Arch) (align offset : ℕ) : ℕ :=
  ((offset + align - 1) % arch.ulong) &&& (arch.ulong - 1 - (align - 1))

/-- Align section within PE file.
Source: utils/elf2efi.c, efi_file_align -/
def efiFileAlign (arch : Arch) (offset : ℕ) : ℕ := alignLong arch fileAlign offset

/-- Align section within PE image.
Source: utils/elf2efi.c, efi_image_align -/
def efiImageAlign (arch : Arch) (offset : ℕ) : ℕ := alignLong arch imageAlign offset

/-- The types of an ELF section that are told apart.
Source: utils/elf2efi.c, process_section, elf2pe, `sh_type` -/
inductive ShType where
  | progbits
  | nobits
  | rel
  | rela
  | other
  deriving DecidableEq

/-- An ELF section.
Source: utils/elf2efi.c, Elf_Shdr -/
structure Shdr where
  name : List UInt8
  type : ShType
  /-- `SHF_ALLOC` -/
  alloc : Bool
  /-- `SHF_WRITE` -/
  write : Bool
  /-- `SHF_EXECINSTR` -/
  execinstr : Bool
  addr : ℕ
  size : ℕ
  /-- The addresses and sizes that the relocation records of the section ask for. -/
  fixups : List (ℕ × ℕ)

/-- An ELF segment.
Source: utils/elf2efi.c, Elf_Phdr -/
structure Phdr where
  /-- `p_type == PT_LOAD` -/
  load : Bool
  vaddr : ℕ
  paddr : ℕ
  memsz : ℕ

/-- An ELF file. The number of its sections has 16 bits.
Source: utils/elf2efi.c, struct elf_file, Elf_Ehdr -/
structure ElfFile where
  entry : ℕ
  sections : List Shdr
  segments : List Phdr
  shnum_lt : sections.length < 2 ^ 16

/-- An entry of the data directory.
Source: include/efi/IndustryStandard/PeImage.h, EFI_IMAGE_DATA_DIRECTORY -/
structure DataDirectory where
  virtualAddress : ℕ
  size : ℕ
  deriving DecidableEq

/-- What the tool fills in of the file header.
Source: utils/elf2efi.c, struct pe_header -/
structure PeHeader where
  /-- A number of 16 bits; those below have 32, but for the image base of PE32+. -/
  numberOfSections : ℕ
  sizeOfCode : ℕ
  sizeOfInitializedData : ℕ
  sizeOfUninitializedData : ℕ
  addressOfEntryPoint : ℕ
  baseOfCode : ℕ
  /-- A field of PE32 only. -/
  baseOfData : ℕ
  imageBase : ℕ
  sizeOfImage : ℕ
  sizeOfHeaders : ℕ
  basereloc : DataDirectory
  debug : DataDirectory
  deriving DecidableEq

/-- What the tool fills in of a section header, and whether there is to be one.
Source: utils/elf2efi.c, struct pe_section -/
structure PeSection where
  virtualSize : ℕ
  virtualAddress : ℕ
  sizeOfRawData : ℕ
  pointerToRawData : ℕ
  hidden : Bool
  deriving DecidableEq

/-- The file header to begin with.
Source: utils/elf2efi.c, efi_pe_header; elf2pe -/
def efiPeHeader (target : Target) (entry : ℕ) : PeHeader where
  numberOfSections := 0
  sizeOfCode := 0
  sizeOfInitializedData := 0
  sizeOfUninitializedData := 0
  addressOfEntryPoint := entry % 2 ^ 32
  baseOfCode := 0
  baseOfData := 0
  imageBase := 0
  sizeOfImage := imageAlign
  sizeOfHeaders := target.headerLen
  basereloc := ⟨0, 0⟩
  debug := ⟨0, 0⟩

/-! ## Sections -/

/-- Get section load memory address.
Source: utils/elf2efi.c, elf_lma -/
def elfLma (target : Target) (segments : List Phdr) (shdr : Shdr) : Option ℕ :=
  (segments.find? fun phdr => phdr.load && phdr.vaddr ≤ shdr.addr &&
    (shdr.addr - phdr.vaddr + shdr.size) % target.word ≤ phdr.memsz).map fun phdr =>
      (phdr.paddr + (shdr.addr - phdr.vaddr)) % target.word

/-- The limits in the file header that a section counts towards.
Source: utils/elf2efi.c, process_section, `applicable_start`, `applicable_size` -/
inductive Limits where
  | code
  | data
  | bss

/-- Identify applicable limits.
Source: utils/elf2efi.c, process_section -/
def applicable (shdr : Shdr) : Option Limits :=
  match shdr.type with
  | .progbits =>
      if shdr.write then some .data
      else if shdr.execinstr then some .code
      else some .data
  | .nobits => some .bss
  | _ => none

/-- The lower of two starts, of which the one in the header may not have been set.
Source: utils/elf2efi.c, process_section, `*applicable_start` -/
def lowerStart (start base : ℕ) : ℕ := if base = 0 ∨ start < base then start else base

/-- Update the limits in the file header.
Source: utils/elf2efi.c, process_section, `if ( ! new->hidden )` -/
def PeHeader.extend (target : Target) (limits : Limits) (start memsz : ℕ) (hdr : PeHeader) :
    PeHeader :=
  let baseOfData := match target with
    | .efi32 => lowerStart start hdr.baseOfData
    | .efi64 => hdr.baseOfData
  match limits with
  | .code =>
      { hdr with
        baseOfCode := lowerStart start hdr.baseOfCode
        sizeOfCode := (hdr.sizeOfCode + memsz) % 2 ^ 32 }
  | .data =>
      { hdr with
        baseOfData := baseOfData
        sizeOfInitializedData := (hdr.sizeOfInitializedData + memsz) % 2 ^ 32 }
  | .bss =>
      { hdr with
        baseOfData := baseOfData
        sizeOfUninitializedData := (hdr.sizeOfUninitializedData + memsz) % 2 ^ 32 }

/-- One section header more.
Source: utils/elf2efi.c, process_section, create_reloc_section -/
def PeHeader.addSection (hdr : PeHeader) : PeHeader :=
  { hdr with
    numberOfSections := (hdr.numberOfSections + 1) % 2 ^ 16
    sizeOfHeaders := (hdr.sizeOfHeaders + sectionHeaderLen) % 2 ^ 32 }

/-- Where the raw data of a section goes, and whether the section is hidden. In a hybrid binary the
data goes to its load address, and 16-bit sections are hidden.
Source: utils/elf2efi.c, process_section -/
def placement (target : Target) (hybrid : Bool) (segments : List Phdr) (shdr : Shdr) :
    Option (ℕ × Bool) :=
  let hidden := hybrid && 2 < shdr.name.length &&
    shdr.name.drop (shdr.name.length - 2) = [0x31, 0x36]
  if shdr.type = .progbits then
    if hybrid then
      (elfLma target segments shdr).map fun lma =>
        (lma % 2 ^ 32, hidden || lma % 2 ^ 32 = 0)
    else some (ptrdAuto, hidden)
  else some (0, hidden)

/-- The image reaches up to the end of a section.
Source: utils/elf2efi.c, process_section, `SizeOfImage` -/
def PeHeader.cover (last : ℕ) (hdr : PeHeader) : PeHeader :=
  if last > hdr.sizeOfImage then { hdr with sizeOfImage := last } else hdr

/-- Process section.
Source: utils/elf2efi.c, process_section -/
def processSection (arch : Arch) (target : Target) (hybrid : Bool) (segments : List Phdr)
    (shdr : Shdr) (hdr : PeHeader) : Option (PeSection × PeHeader) :=
  let memsz := shdr.size % arch.ulong
  let filesz := if shdr.type = .progbits then efiFileAlign arch memsz else 0
  (placement target hybrid segments shdr).bind fun (pointer, hidden) =>
    (applicable shdr).map fun limits =>
      let new : PeSection :=
        { virtualSize := memsz % 2 ^ 32
          virtualAddress := shdr.addr % 2 ^ 32
          sizeOfRawData := filesz % 2 ^ 32
          pointerToRawData := pointer
          hidden := hidden }
      let start := new.virtualAddress
      let hdr := if hidden then hdr else hdr.addSection.extend target limits start memsz
      (new, hdr.cover (efiImageAlign arch (start + memsz) % 2 ^ 32))

/-- The image base: the lowest address of a visible section, less a page for the headers.
Source: utils/elf2efi.c, update_image_base, `base` -/
def imageBase (arch : Arch) (sections : List PeSection) : ℕ :=
  let base := sections.foldl (fun base s =>
    if ¬s.hidden ∧ base > s.virtualAddress then s.virtualAddress else base) (arch.ulong - 1)
  (base + (arch.ulong - imageAlign)) % arch.ulong

/-- A 32-bit field less the base. -/
def lessBase (arch : Arch) (base field : ℕ) : ℕ := (field + (arch.ulong - base)) % 2 ^ 32

/-- Adjust RVAs to match ImageBase.
Source: utils/elf2efi.c, update_image_base -/
def PeHeader.rebase (arch : Arch) (target : Target) (base : ℕ) (hdr : PeHeader) : PeHeader :=
  { hdr with
    imageBase := base % target.word
    addressOfEntryPoint := lessBase arch base hdr.addressOfEntryPoint
    baseOfCode := lessBase arch base hdr.baseOfCode
    baseOfData := match target with
      | .efi32 => lessBase arch base hdr.baseOfData
      | .efi64 => hdr.baseOfData
    sizeOfImage := lessBase arch base hdr.sizeOfImage }

/-- Adjust RVAs to match ImageBase.
Source: utils/elf2efi.c, update_image_base, `section->hdr.VirtualAddress -= base` -/
def PeSection.rebase (arch : Arch) (base : ℕ) (s : PeSection) : PeSection :=
  { s with virtualAddress := lessBase arch base s.virtualAddress }

/-- Update image base address.
Source: utils/elf2efi.c, update_image_base -/
def updateImageBase (arch : Arch) (target : Target) (hdr : PeHeader) (sections : List PeSection)
    (reltab : List PeRelocs) : PeHeader × List PeSection × List PeRelocs :=
  let base := imageBase arch sections
  (hdr.rebase arch target base, sections.map (PeSection.rebase arch base),
    reltab.map (PeRelocs.rebase arch base))

/-- Create relocations section.
Source: utils/elf2efi.c, create_reloc_section -/
def createRelocSection (arch : Arch) (hdr : PeHeader) (reltab : List PeRelocs) :
    PeSection × PeHeader :=
  let memsz := (outputPeReltab reltab none .zero).1
  let reloc : PeSection :=
    { virtualSize := memsz % 2 ^ 32
      virtualAddress := hdr.sizeOfImage
      sizeOfRawData := efiFileAlign arch memsz % 2 ^ 32
      pointerToRawData := ptrdAuto
      hidden := false }
  (reloc,
    { hdr.addSection with
      sizeOfImage := (hdr.sizeOfImage + efiImageAlign arch memsz) % 2 ^ 32
      basereloc := ⟨reloc.virtualAddress, memsz % 2 ^ 32⟩ })

/-- Create debug section, at the end of the headers: room for the contents is added, the sum aligned,
and the room taken away again for their start.
Source: utils/elf2efi.c, create_debug_section -/
def createDebugSection (arch : Arch) (hdr : PeHeader) : PeSection × PeHeader :=
  let aligned := efiFileAlign arch ((hdr.sizeOfHeaders + debugLen) % 2 ^ 32) % 2 ^ 32
  let start := (aligned + (2 ^ 32 - debugLen)) % 2 ^ 32
  ({ virtualSize := debugLen
     virtualAddress := start
     sizeOfRawData := debugLen
     pointerToRawData := start
     hidden := true },
    { hdr with
      sizeOfHeaders := (start + debugLen) % 2 ^ 32
      debug := ⟨start, 28⟩ })

/-! ## Conversion -/

/-- What has been converted so far.
Source: utils/elf2efi.c, elf2pe, `pe_header`, `pe_sections`, `pe_reltab` -/
structure Converted where
  hdr : PeHeader
  sections : List PeSection
  reltab : List PeRelocs

/-- Process an input section.
Source: utils/elf2efi.c, elf2pe, `for ( i = 0 ; i < elf.ehdr->e_shnum ; i++ )` -/
def convertSection (arch : Arch) (target : Target) (hybrid : Bool) (segments : List Phdr)
    (st : Converted) (shdr : Shdr) : Option Converted :=
  if shdr.alloc then
    (processSection arch target hybrid segments shdr st.hdr).map fun (new, hdr) =>
      { st with hdr := hdr, sections := st.sections ++ [new] }
  else if shdr.type = .rel ∨ shdr.type = .rela then
    (generateAll arch shdr.fixups st.reltab).map fun reltab => { st with reltab := reltab }
  else some st

/-- Process input sections.
Source: utils/elf2efi.c, elf2pe -/
def convert (arch : Arch) (target : Target) (hybrid : Bool) (elf : ElfFile) : Option Converted :=
  elf.sections.foldlM (convertSection arch target hybrid elf.segments)
    ⟨efiPeHeader target elf.entry, [], []⟩

/-- Update image base address, and create the .reloc and the .debug section.
Source: utils/elf2efi.c, elf2pe -/
def finish (arch : Arch) (target : Target) (st : Converted) : PeHeader × List PeSection :=
  let (hdr, sections, reltab) := updateImageBase arch target st.hdr st.sections st.reltab
  let (reloc, hdr) := createRelocSection arch hdr reltab
  let (debug, hdr) := createDebugSection arch hdr
  (hdr, sections ++ [reloc] ++ [debug])

/-! ## The file -/

/-- The lowest explicit place of raw data, if there is one, else the highest number.
Source: utils/elf2efi.c, write_pe_file, `hdrmax` -/
def headerMax (arch : Arch) (sections : List PeSection) : ℕ :=
  sections.foldl (fun hdrmax s =>
    if s.pointerToRawData ≠ ptrdAuto ∧ s.sizeOfRawData > 0 ∧ ¬s.hidden ∧ hdrmax > s.pointerToRawData
    then s.pointerToRawData else hdrmax) (arch.ulong - 1)

/-- Assign raw data pointers.
Source: utils/elf2efi.c, write_pe_file, `fposmax` -/
def assignPointers (arch : Arch) : List PeSection → ℕ → List PeSection
  | [], _ => []
  | s :: sections, fposmax =>
      let fpos := if s.pointerToRawData = ptrdAuto then fposmax else s.pointerToRawData
      let new := { s with pointerToRawData := fpos % 2 ^ 32 }
      let fpos := efiFileAlign arch ((fpos + s.sizeOfRawData) % arch.ulong)
      new :: assignPointers arch sections (if fpos > fposmax then fpos else fposmax)

/-- Find the length of the headers, and assign raw data pointers; the tool ends if the headers do not
fit.
Source: utils/elf2efi.c, write_pe_file -/
def assignRawData (arch : Arch) (hdr : PeHeader) (sections : List PeSection) :
    Option (PeHeader × List PeSection) :=
  let hdrmax := headerMax arch sections
  let size := if hdrmax ≠ arch.ulong - 1 ∧ hdr.sizeOfHeaders < hdrmax then hdrmax % 2 ^ 32
    else hdr.sizeOfHeaders
  let fpos := efiFileAlign arch size % 2 ^ 32
  if fpos > hdrmax then none
  else some ({ hdr with sizeOfHeaders := fpos }, assignPointers arch sections fpos)

/-- The places and lengths of the headers in the file: the file header, and a section header for
every visible section behind it.
Source: utils/elf2efi.c, write_pe_file -/
def headerWrites (target : Target) (sections : List PeSection) : List (ℕ × ℕ) :=
  (0, target.headerLen) :: (List.range (sections.countP (!·.hidden))).map fun i =>
    (target.headerLen + i * sectionHeaderLen, sectionHeaderLen)

/-- Write out PE file: the file header, the sections, and the places and lengths of what is written.
The tool ends if a visible section is misaligned, or if the number of section headers is not that of
the file header.
Source: utils/elf2efi.c, write_pe_file -/
def writePeFile (arch : Arch) (target : Target) (hdr : PeHeader) (sections : List PeSection) :
    Option (PeHeader × List PeSection × List (ℕ × ℕ)) := do
  let (hdr, sections) ← assignRawData arch hdr sections
  if sections.any fun s => s.pointerToRawData &&& (fileAlign - 1) ≠ 0 && !s.hidden then none
  else if sections.countP (!·.hidden) ≠ hdr.numberOfSections then none
  else
    some (hdr, sections,
      (sections.filter (·.sizeOfRawData ≠ 0)).map (fun s => (s.pointerToRawData, s.sizeOfRawData)) ++
        headerWrites target sections)

/-- Convert ELF to PE.
Source: utils/elf2efi.c, elf2pe -/
def elf2pe (arch : Arch) (target : Target) (hybrid : Bool) (elf : ElfFile) :
    Option (PeHeader × List PeSection × List (ℕ × ℕ)) :=
  (convert arch target hybrid elf).bind fun st =>
    let (hdr, sections) := finish arch target st
    writePeFile arch target hdr sections

end Ntloader.Elf2efi
