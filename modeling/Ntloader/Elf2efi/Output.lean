import Ntloader.Elf2efi.Object
import Ntloader.Lib.Fields
import Ntloader.Lib.Rebase

/-!
# The PE file that elf2efi writes

* `sectionContents`, `relocContents`, `debugContents` — the name, the characteristics and the contents
  of a section.
* `peHeaderBytes`, `sectionHeaderBytes` — the headers.
* `outputFile` — the file; `elf2peFile` — the whole of `elf2pe`, from one file to the other.
* `outputFile_run`, `outputFile_headers` — what is written is in the file, but for what is written on it
  later.
-/

namespace Ntloader.Elf2efi

open Ntloader.Lib

/-! ## Contents of the sections -/

/-- What is written of a section besides its place and length.
Source: utils/elf2efi.c, struct pe_section -/
structure Contents where
  name : List UInt8
  characteristics : ℕ
  contents : List UInt8

/-- Source: include/efi/IndustryStandard/PeImage.h, EFI_IMAGE_SCN_CNT_CODE, … -/
def scnCntCode : ℕ := 0x00000020
def scnCntInitializedData : ℕ := 0x00000040
def scnCntUninitializedData : ℕ := 0x00000080
def scnMemDiscardable : ℕ := 0x02000000
def scnMemNotPaged : ℕ := 0x08000000
def scnMemExecute : ℕ := 0x20000000
def scnMemRead : ℕ := 0x40000000
def scnMemWrite : ℕ := 0x80000000

/-- Fill in section characteristics.
Source: utils/elf2efi.c, process_section -/
def characteristics (shdr : Shdr) : ℕ :=
  match shdr.type with
  | .progbits =>
      if shdr.write then scnCntInitializedData ||| scnMemNotPaged ||| scnMemRead ||| scnMemWrite
      else if shdr.execinstr then scnCntCode ||| scnMemNotPaged ||| scnMemExecute ||| scnMemRead
      else scnCntInitializedData ||| scnMemNotPaged ||| scnMemRead
  | .nobits => scnCntUninitializedData ||| scnMemNotPaged ||| scnMemRead ||| scnMemWrite
  | _ => 0

/-- Copy in section contents, which `readContents` reads, to a buffer as long as the raw data.
Source: utils/elf2efi.c, process_section -/
def sectionContents (arch : Arch) (file : List UInt8) (header : SectionHeader) (shdr : Shdr) :
    Contents where
  name := padded 8 (shdr.name.take 8)
  characteristics := characteristics shdr
  contents :=
    if shdr.type = .progbits then
      padded (efiFileAlign arch (shdr.size % arch.ulong)) ((file.drop header.offset).take header.size)
    else []

/-- Source: utils/elf2efi.c, create_reloc_section -/
def relocContents (arch : Arch) (reltab : List PeRelocs) : Contents where
  name := padded 8 [0x2e, 0x72, 0x65, 0x6c, 0x6f, 0x63]
  characteristics :=
    scnCntInitializedData ||| scnMemDiscardable ||| scnMemNotPaged ||| scnMemRead
  contents :=
    (outputPeReltab reltab (some 0) .zero).2.bytes 0
      (efiFileAlign arch (outputPeReltab reltab none .zero).1)

/-- The contents of the debug section: a directory entry, a CodeView entry, and the name of the file.
Source: utils/elf2efi.c, create_debug_section, `contents` -/
def debugContents (address : ℕ) (filename : List UInt8) : Contents where
  name := padded 8 [0x2e, 0x64, 0x65, 0x62, 0x75, 0x67]
  characteristics := 0
  contents :=
    structBytes [(4, 0), (4, 0x10d1a884), (2, 0), (2, 0), (4, 2), (4, debugLen - 28),
        (4, address + 28), (4, address + 28), (4, 0x53445352), (20, 0)] ++
      padded 32 (filename.take 31)

/-- The contents of all sections.
Source: utils/elf2efi.c, elf2pe -/
def allContents (arch : Arch) (target : Target) (file filename : List UInt8) (st : Progress) :
    List Contents :=
  let reltab :=
    (updateImageBase arch target st.converted.hdr st.converted.sections st.converted.reltab).2.2
  (st.done.filter (·.2.alloc)).map (fun e => sectionContents arch file e.1 e.2) ++
    [relocContents arch reltab] ++
    [debugContents (finish arch target st.converted).1.debug.virtualAddress filename]

/-! ## Headers -/

/-- Source: include/efi/IndustryStandard/PeImage.h, EFI_IMAGE_NT_OPTIONAL_HDR32_MAGIC,
EFI_IMAGE_NT_OPTIONAL_HDR64_MAGIC -/
def Target.magic : Target → ℕ
  | .efi32 => 0x10b
  | .efi64 => 0x20b

/-- `EFI_IMAGE_FILE_DLL`, `EFI_IMAGE_FILE_LARGE_ADDRESS_AWARE`, `EFI_IMAGE_FILE_EXECUTABLE_IMAGE`, and
`EFI_IMAGE_FILE_32BIT_MACHINE` for the 32-bit tool.
Source: utils/elf2efi.c, efi_pe_header, `.Characteristics` -/
def Target.fileCharacteristics : Target → ℕ
  | .efi32 => 0x2000 ||| 0x0100 ||| 0x0020 ||| 0x0002
  | .efi64 => 0x2000 ||| 0x0020 ||| 0x0002

/-- The base of the image, which follows the base of the data in PE32 only.
Source: include/efi/IndustryStandard/PeImage.h, EFI_IMAGE_OPTIONAL_HEADER32,
EFI_IMAGE_OPTIONAL_HEADER64 -/
def baseFields (target : Target) (hdr : PeHeader) : List (ℕ × ℕ) :=
  match target with
  | .efi32 => [(4, hdr.baseOfData), (4, hdr.imageBase)]
  | .efi64 => [(8, hdr.imageBase)]

/-- The fields in front of the base of the image.
Source: utils/elf2efi.c, efi_pe_header; include/efi/IndustryStandard/PeImage.h,
EFI_IMAGE_DOS_HEADER, EFI_IMAGE_FILE_HEADER -/
def frontFields (target : Target) (machine : ℕ) (hdr : PeHeader) : List (ℕ × ℕ) :=
  [(2, 0x5a4d), (58, 0), (4, 64),
    (4, 0x00004550), (2, machine), (2, hdr.numberOfSections), (4, 0x10d1a884), (4, 0), (4, 0),
    (2, target.headerLen - 88), (2, target.fileCharacteristics),
    (2, target.magic), (1, 42), (1, 42), (4, hdr.sizeOfCode), (4, hdr.sizeOfInitializedData),
    (4, hdr.sizeOfUninitializedData), (4, hdr.addressOfEntryPoint), (4, hdr.baseOfCode)]

/-- The fields behind the base of the image, up to the data directory.
Source: utils/elf2efi.c, efi_pe_header -/
def backFields (target : Target) (subsystem : ℕ) (hdr : PeHeader) : List (ℕ × ℕ) :=
  let word := target.pick 4 8
  [(4, imageAlign), (4, fileAlign), (2, 0), (2, 0), (2, 1), (2, 0), (2, 0), (2, 0), (4, 0),
    (4, hdr.sizeOfImage), (4, hdr.sizeOfHeaders), (4, 0), (2, subsystem), (2, 0x0100),
    (word, 0), (word, 0), (word, 0), (word, 0), (4, 0), (4, 8)]

/-- The data directory.
Source: utils/elf2efi.c, create_reloc_section, create_debug_section -/
def directoryFields (hdr : PeHeader) : List (ℕ × ℕ) :=
  [(40, 0), (4, hdr.basereloc.virtualAddress), (4, hdr.basereloc.size),
    (4, hdr.debug.virtualAddress), (4, hdr.debug.size), (8, 0)]

/-- All fields of the file header.
Source: utils/elf2efi.c, struct pe_header -/
def peHeaderFields (target : Target) (machine subsystem : ℕ) (hdr : PeHeader) : List (ℕ × ℕ) :=
  frontFields target machine hdr ++ baseFields target hdr ++ backFields target subsystem hdr ++
    directoryFields hdr

/-- The file header, as it is written.
Source: utils/elf2efi.c, write_pe_file, `Write file header` -/
def peHeaderBytes (target : Target) (machine subsystem : ℕ) (hdr : PeHeader) : List UInt8 :=
  structBytes (peHeaderFields target machine subsystem hdr)

/-- A section header, as it is written.
Source: utils/elf2efi.c, write_pe_file, `Write section headers` -/
def sectionHeaderBytes (s : PeSection × Contents) : List UInt8 :=
  s.2.name ++ structBytes [(4, s.1.virtualSize), (4, s.1.virtualAddress), (4, s.1.sizeOfRawData),
    (4, s.1.pointerToRawData), (12, 0), (4, s.2.characteristics)]

/-! ## The file -/

/-- Write bytes at a place in a file, which grows with zeros where it has to.
Source: utils/elf2efi.c, write_pe_file, `fseek`, `fwrite` -/
def writeAt (file : List UInt8) (pos : ℕ) (bs : List UInt8) : List UInt8 :=
  if bs = [] then file else Mem.overwrite (padded (pos + bs.length) file) pos bs

/-- Write the contents of a section.
Source: utils/elf2efi.c, write_pe_file, `Write sections` -/
def writeSection (file : List UInt8) (s : PeSection × Contents) : List UInt8 :=
  writeAt file s.1.pointerToRawData (s.2.contents.take s.1.sizeOfRawData)

/-- The headers, one behind the other.
Source: utils/elf2efi.c, write_pe_file -/
def headersBytes (target : Target) (machine subsystem : ℕ) (hdr : PeHeader)
    (sections : List (PeSection × Contents)) : List UInt8 :=
  peHeaderBytes target machine subsystem hdr ++
    (sections.filter (!·.1.hidden)).flatMap sectionHeaderBytes

/-- Write the sections, and the headers behind that.
Source: utils/elf2efi.c, write_pe_file -/
def outputFile (target : Target) (machine subsystem : ℕ) (hdr : PeHeader)
    (sections : List (PeSection × Contents)) : List UInt8 :=
  writeAt (sections.foldl writeSection []) 0 (headersBytes target machine subsystem hdr sections)

/-- Convert ELF to PE: the file that is written for an ELF file and the name of the PE file.
Source: utils/elf2efi.c, elf2pe -/
def elf2peFile (arch : Arch) (target : Target) (hybrid : Bool) (subsystem : ℕ)
    (file filename : List UInt8) : Except Stop (List UInt8) := do
  let (_, machine, st) ← convertFile arch target hybrid file
  let out := finish arch target st.converted
  let (hdr, sections, _) ← orExit (writePeFile arch target out.1 out.2)
  return outputFile target machine subsystem hdr
    (sections.zip (allContents arch target file filename st))

/-! ## What is in the file -/

/-- The bytes of a file are those of a memory that has been written to. -/
theorem ofList_writeAt (file : List UInt8) (pos : ℕ) (bs : List UInt8) :
    Mem.ofList (writeAt file pos bs) = (Mem.ofList file).store pos bs := by
  rw [writeAt]
  split_ifs with hbs
  · rw [hbs, Mem.store_nil]
  have hlen : pos + bs.length ≤ (padded (pos + bs.length) file).length := by
    rw [padded, List.length_append, List.length_replicate]
    omega
  funext x
  rw [Mem.store_apply, Mem.ofList, Mem.overwrite_getD hlen]
  split_ifs
  · rfl
  · rw [padded, Mem.ofList]
    by_cases hx : x < file.length
    · rw [List.getD_append _ _ _ _ hx]
    · have hle := Nat.le_of_not_lt hx
      rw [List.getD_append_right _ _ _ _ hle, List.getD_eq_default file _ hle]
      rw [List.getD_eq_getElem?_getD, List.getElem?_replicate]
      split_ifs <;> rfl

/-- What is written of the sections. -/
def sectionRuns (sections : List (PeSection × Contents)) : List (ℕ × List UInt8) :=
  sections.map fun s => (s.1.pointerToRawData, s.2.contents.take s.1.sizeOfRawData)

/-- The file in memory: the raw data, and the headers over it. -/
theorem ofList_outputFile (target : Target) (machine subsystem : ℕ) (hdr : PeHeader)
    (sections : List (PeSection × Contents)) :
    Mem.ofList (outputFile target machine subsystem hdr sections) =
      (Mem.zero.storeAll (sectionRuns sections)).store 0
        (headersBytes target machine subsystem hdr sections) := by
  have hfold : ∀ file, Mem.ofList (sections.foldl writeSection file) =
      (Mem.ofList file).storeAll (sectionRuns sections) := by
    induction sections with
    | nil => exact fun _ => rfl
    | cons s sections ih =>
        intro file
        rw [List.foldl_cons, ih, writeSection, ofList_writeAt]
        rfl
  rw [outputFile, ofList_writeAt, hfold]
  rfl

/-- **The headers are in the file.** -/
theorem outputFile_headers (target : Target) (machine subsystem : ℕ) (hdr : PeHeader)
    (sections : List (PeSection × Contents)) :
    (Mem.ofList (outputFile target machine subsystem hdr sections)).bytes 0
        (headersBytes target machine subsystem hdr sections).length =
      headersBytes target machine subsystem hdr sections := by
  rw [ofList_outputFile]
  exact Mem.bytes_store_self _ _ _

/-- **The contents of a section are in the file**, if they are behind the headers and no later section
is written on them. -/
theorem outputFile_run {target : Target} {machine subsystem : ℕ} {hdr : PeHeader}
    {front later : List (PeSection × Contents)} {s : PeSection × Contents}
    (hheaders : (headersBytes target machine subsystem hdr (front ++ s :: later)).length ≤
      s.1.pointerToRawData)
    (hlater : ∀ t ∈ later, t.1.sizeOfRawData ≠ 0 →
      s.1.pointerToRawData + s.1.sizeOfRawData ≤ t.1.pointerToRawData ∨
        t.1.pointerToRawData + t.1.sizeOfRawData ≤ s.1.pointerToRawData) :
    (Mem.ofList (outputFile target machine subsystem hdr (front ++ s :: later))).bytes
        s.1.pointerToRawData (s.2.contents.take s.1.sizeOfRawData).length =
      s.2.contents.take s.1.sizeOfRawData := by
  have hlength : ∀ t : PeSection × Contents,
      (t.2.contents.take t.1.sizeOfRawData).length ≤ t.1.sizeOfRawData :=
    fun t => List.length_take_le _ _
  refine Mem.bytes_eq_iff.mpr fun i hi => ?_
  rw [ofList_outputFile, Mem.store_of_not_mem _ (.inr (by omega)), sectionRuns, List.map_append,
    List.map_cons]
  rw [Mem.storeAll_of_last (Nat.le_add_right _ _) (Nat.add_lt_add_left hi _),
    Nat.add_sub_cancel_left]
  intro r hr
  obtain ⟨t, ht, rfl⟩ := List.mem_map.mp hr
  dsimp only
  have hs := hlength s
  have htl := hlength t
  by_cases hzero : t.1.sizeOfRawData = 0
  · omega
  · rcases hlater t ht hzero with h | h
    · exact .inl (by omega)
    · exact .inr (by omega)

end Ntloader.Elf2efi
