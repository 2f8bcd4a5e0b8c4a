import Ntloader.Elf2efi.Sections
import Ntloader.Lib.Rebase

/-!
# What elf2efi reads of an ELF file

* `Ehdr`, `SectionHeader`, `Symbol`, `Rel` — the headers and records, from their bytes.
* `readElfFile` — what is checked of a file; `elfString`, `processRelocs`, `readContents` — what is read
  of it then.
* `convertFile` — the input sections of a file, one after the other.
* `convertFile_convert` — it is `convert` of the sections that have been read.
* `convertFile_inside` — nothing outside the file is read.

Scope: the file is a list of bytes, shorter than the address space. A read outside of it ends the tool,
as `exit` does, and is told apart from it. Messages are left out.
-/

namespace Ntloader.Elf2efi

open Ntloader.Lib

/-! ## Reads -/

/-- How the tool ends without a result. -/
inductive Stop where
  /-- With a message, by `exit ( 1 )`. -/
  | exit
  /-- With a read outside the file. -/
  | fault
  deriving DecidableEq

variable {α : Type}

/-- The tool ends where there is no result. -/
def orExit : Option α → Except Stop α
  | some a => .ok a
  | none => .error .exit

/-- The tool ends unless a condition holds. -/
def require (p : Prop) [Decidable p] : Except Stop Unit := if p then .ok () else .error .exit

/-- Bytes of the mapped file, by their offset from its start. -/
def readBytes (file : List UInt8) (offset n : ℕ) : Except Stop (List UInt8) :=
  if offset + n ≤ file.length then .ok ((file.drop offset).take n) else .error .fault

/-- A field of a structure, given by its offset and length in the 32-bit and in the 64-bit one. -/
def Target.field (target : Target) (bytes : List UInt8) (f32 f64 : ℕ × ℕ) : ℕ :=
  match target with
  | .efi32 => leNat ((bytes.drop f32.1).take f32.2)
  | .efi64 => leNat ((bytes.drop f64.1).take f64.2)

/-- A length of the 32-bit or of the 64-bit structures. -/
def Target.pick (target : Target) (len32 len64 : ℕ) : ℕ :=
  match target with
  | .efi32 => len32
  | .efi64 => len64

/-! ## Headers and records -/

/-- The ELF header.
Source: utils/elf2efi.c, Elf_Ehdr -/
structure Ehdr where
  machine : ℕ
  entry : ℕ
  phoff : ℕ
  shoff : ℕ
  phentsize : ℕ
  phnum : ℕ
  shentsize : ℕ
  shnum : ℕ
  shstrndx : ℕ

/-- Source: utils/elf2efi.c, Elf_Ehdr -/
def Target.ehdr (target : Target) (bytes : List UInt8) : Ehdr where
  machine := target.field bytes (18, 2) (18, 2)
  entry := target.field bytes (24, 4) (24, 8)
  phoff := target.field bytes (28, 4) (32, 8)
  shoff := target.field bytes (32, 4) (40, 8)
  phentsize := target.field bytes (42, 2) (54, 2)
  phnum := target.field bytes (44, 2) (56, 2)
  shentsize := target.field bytes (46, 2) (58, 2)
  shnum := target.field bytes (48, 2) (60, 2)
  shstrndx := target.field bytes (50, 2) (62, 2)

/-- Length of the ELF header.
Source: utils/elf2efi.c, Elf_Ehdr -/
def Target.ehdrLen (target : Target) : ℕ := target.pick 52 64

/-- An ELF section header.
Source: utils/elf2efi.c, Elf_Shdr -/
structure SectionHeader where
  name : ℕ
  type : ℕ
  flags : ℕ
  addr : ℕ
  offset : ℕ
  size : ℕ
  link : ℕ

/-- Source: utils/elf2efi.c, Elf_Shdr -/
def Target.sectionHeader (target : Target) (bytes : List UInt8) : SectionHeader where
  name := target.field bytes (0, 4) (0, 4)
  type := target.field bytes (4, 4) (4, 4)
  flags := target.field bytes (8, 4) (8, 8)
  addr := target.field bytes (12, 4) (16, 8)
  offset := target.field bytes (16, 4) (24, 8)
  size := target.field bytes (20, 4) (32, 8)
  link := target.field bytes (24, 4) (40, 4)

/-- Length of an ELF section header.
Source: utils/elf2efi.c, Elf_Shdr -/
def Target.shdrLen (target : Target) : ℕ := target.pick 40 64

/-- Source: utils/elf2efi.c, Elf_Phdr, PT_LOAD -/
def Target.phdr (target : Target) (bytes : List UInt8) : Phdr where
  load := target.field bytes (0, 4) (0, 4) = 1
  vaddr := target.field bytes (8, 4) (16, 8)
  paddr := target.field bytes (12, 4) (24, 8)
  memsz := target.field bytes (20, 4) (40, 8)

/-- Length of an ELF program header.
Source: utils/elf2efi.c, Elf_Phdr -/
def Target.phdrLen (target : Target) : ℕ := target.pick 32 56

/-- Length of a symbol.
Source: utils/elf2efi.c, Elf_Sym -/
def Target.symLen (target : Target) : ℕ := target.pick 16 24

/-- Where a symbol says what section it is in.
Source: utils/elf2efi.c, Elf_Sym, `st_shndx` -/
def Target.shndxOffset (target : Target) : ℕ := target.pick 14 6

/-- Length of a relocation record without an addend.
Source: utils/elf2efi.c, Elf_Rel -/
def Target.relLen (target : Target) : ℕ := target.pick 8 16

/-- Length of a relocation record with an addend.
Source: utils/elf2efi.c, Elf_Rela -/
def Target.relaLen (target : Target) : ℕ := target.pick 12 24

/-- A relocation record.
Source: utils/elf2efi.c, Elf_Rel -/
structure Rel where
  offset : ℕ
  sym : ℕ
  type : ℕ

/-- Source: utils/elf2efi.c, Elf_Rel, ELF_R_SYM, ELF_R_TYPE -/
def Target.rel (target : Target) (bytes : List UInt8) : Rel :=
  let info := target.field bytes (4, 4) (8, 8)
  { offset := target.field bytes (0, 4) (0, 8)
    sym := info / target.pick (2 ^ 8) (2 ^ 32)
    type := info % target.pick (2 ^ 8) (2 ^ 32) }

/-- Source: elf.h, SHT_PROGBITS, SHT_STRTAB, SHT_RELA, SHT_NOBITS, SHT_REL -/
def shtProgbits : ℕ := 1
def shtStrtab : ℕ := 3
def shtRela : ℕ := 4
def shtNobits : ℕ := 8
def shtRel : ℕ := 9

/-- Source: elf.h, SHN_ABS -/
def shnAbs : ℕ := 0xfff1

/-! ## The file -/

/-- Offset of a section header, computed in the type of an offset of the file.
Source: utils/elf2efi.c, read_elf_file, elf2pe, `offset` -/
def Ehdr.shdrOffset (arch : Arch) (target : Target) (ehdr : Ehdr) (i : ℕ) : ℕ :=
  (ehdr.shoff + i * ehdr.shentsize) % target.word % arch.ulong

/-- Place of a section header, computed as a pointer.
Source: utils/elf2efi.c, elf_string, `shdr`; process_relocs, `symtab` -/
def Ehdr.shdrPointer (arch : Arch) (ehdr : Ehdr) (i : ℕ) : ℕ :=
  (ehdr.shoff + i * ehdr.shentsize) % arch.ulong

/-- Read a section header. -/
def readShdr (target : Target) (file : List UInt8) (offset : ℕ) : Except Stop SectionHeader :=
  target.sectionHeader <$> readBytes file offset target.shdrLen

/-- Check a section header.
Source: utils/elf2efi.c, read_elf_file, `Check section headers` -/
def checkShdr (arch : Arch) (target : Target) (file : List UInt8) (ehdr : Ehdr) (i : ℕ) :
    Except Stop Unit := do
  let offset := ehdr.shdrOffset arch target i
  require ((offset + target.shdrLen) % arch.ulong ≤ file.length)
  let shdr ← readShdr target file offset
  require (shdr.type = shtNobits ∨ shdr.offset ≤ file.length ∧ shdr.size ≤ file.length - shdr.offset)
  require (shdr.link < ehdr.shnum)

/-- Source: utils/elf2efi.c, read_elf_file, `ident` -/
def Target.ident (target : Target) : List UInt8 :=
  [0x7f, 0x45, 0x4c, 0x46, UInt8.ofNat (target.pick 1 2), 1]

/-- Read input ELF file.
Source: utils/elf2efi.c, read_elf_file -/
def readElfFile (arch : Arch) (target : Target) (file : List UInt8) : Except Stop Ehdr := do
  require (target.ehdrLen ≤ file.length)
  require (file.take 6 = target.ident)
  let ehdr := target.ehdr file
  require (ehdr.phoff ≤ file.length ∧ ehdr.phnum * ehdr.phentsize ≤ file.length - ehdr.phoff)
  (List.range ehdr.shnum).forM (checkShdr arch target file ehdr)
  return ehdr

/-- Get ELF string.
Source: utils/elf2efi.c, elf_string -/
def elfString (arch : Arch) (target : Target) (file : List UInt8) (ehdr : Ehdr)
    (section_ offset : ℕ) : Except Stop (List UInt8) := do
  require (section_ < ehdr.shnum)
  let shdr ← readShdr target file (ehdr.shdrPointer arch section_)
  require (shdr.type = shtStrtab)
  let last ← readBytes file ((shdr.offset + shdr.size + (arch.ulong - 1)) % arch.ulong) 1
  require (last = [0])
  require (offset < shdr.size)
  let rest := file.drop (shdr.offset + offset)
  if 0 ∈ rest then return rest.takeWhile (· ≠ 0) else .error .fault

/-- Set machine architecture.
Source: utils/elf2efi.c, set_machine -/
def setMachine : ℕ → Option ℕ
  | 3 => some 0x014c
  | 62 => some 0x8664
  | 40 => some 0x01c2
  | 183 => some 0xaa64
  | 258 => some 0x6264
  | _ => none

/-! ## Relocation records -/

/-- Source: utils/elf2efi.c, ELF_MREL -/
def elfMrel (mach type : ℕ) : ℕ := (mach ||| type <<< 16) % 2 ^ 32

/-- Dummy relocations.
Source: utils/elf2efi.c, process_reloc -/
def dummyRelocs : List (ℕ × ℕ) := [(3, 0), (40, 0), (62, 0), (183, 0), (183, 256), (258, 0)]

/-- Relocations of 4 bytes.
Source: utils/elf2efi.c, process_reloc -/
def relocs4 : List (ℕ × ℕ) := [(3, 1), (40, 2)]

/-- Relocations of 8 bytes.
Source: utils/elf2efi.c, process_reloc -/
def relocs8 : List (ℕ × ℕ) := [(62, 1), (183, 257), (258, 2)]

/-- PC-relative relocations, and one that may be relaxed.
Source: utils/elf2efi.c, process_reloc -/
def relativeRelocs : List (ℕ × ℕ) :=
  [(3, 2), (40, 28), (40, 3), (40, 10), (40, 30), (40, 40),
    (62, 2), (62, 4), (62, 41), (62, 42),
    (183, 283), (183, 282), (183, 274), (183, 275), (183, 277), (183, 278), (183, 284), (183, 285),
    (183, 286), (183, 299),
    (258, 64), (258, 65), (258, 66), (258, 71), (258, 72), (258, 75), (258, 76), (258, 103),
    (258, 100)]

/-- A relocation is one of a list of machines and types. -/
def IsMrel (mrel : ℕ) (relocs : List (ℕ × ℕ)) : Prop := mrel ∈ relocs.map fun r => elfMrel r.1 r.2

instance (mrel : ℕ) (relocs : List (ℕ × ℕ)) : Decidable (IsMrel mrel relocs) :=
  inferInstanceAs (Decidable (_ ∈ _))

/-- The fix-up of a relocation: an address and a size, or none. 32-bit relocations are ignored in a
hybrid binary; other types end the tool.
Source: utils/elf2efi.c, process_reloc, `switch ( mrel )` -/
def mrelFixups (hybrid : Bool) (mrel offset : ℕ) : Option (List (ℕ × ℕ)) :=
  if IsMrel mrel dummyRelocs then some []
  else if IsMrel mrel relocs4 then some [(offset, 4)]
  else if IsMrel mrel relocs8 then some [(offset, 8)]
  else if IsMrel mrel relativeRelocs then some []
  else if IsMrel mrel [(62, 10)] ∧ hybrid then some []
  else none

/-- Process relocation record.
Source: utils/elf2efi.c, process_reloc -/
def processReloc (arch : Arch) (target : Target) (hybrid : Bool) (file : List UInt8) (ehdr : Ehdr)
    (shdr symtab : SectionHeader) (stride i : ℕ) : Except Stop (List (ℕ × ℕ)) := do
  let rel ← target.rel <$>
    readBytes file ((shdr.offset + i * stride) % arch.ulong) target.relLen
  require (rel.sym < symtab.size / target.symLen % 2 ^ 32)
  let shndx ← readBytes file
    ((symtab.offset + rel.sym * target.symLen + target.shndxOffset) % arch.ulong) 2
  if leNat shndx = shnAbs then return []
  else orExit (mrelFixups hybrid (elfMrel ehdr.machine rel.type)
    ((shdr.addr + rel.offset) % target.word % arch.ulong))

/-- Process relocation records.
Source: utils/elf2efi.c, process_relocs -/
def processRelocs (arch : Arch) (target : Target) (hybrid : Bool) (file : List UInt8) (ehdr : Ehdr)
    (shdr : SectionHeader) (stride : ℕ) : Except Stop (List (ℕ × ℕ)) := do
  let symtab ← readShdr target file (ehdr.shdrPointer arch shdr.link)
  let fixups ← (List.range (shdr.size / stride % 2 ^ 32)).mapM
    (processReloc arch target hybrid file ehdr shdr symtab stride)
  return fixups.flatten

/-! ## Sections -/

/-- Source: utils/elf2efi.c, process_section, elf2pe, `sh_type` -/
def shType (type : ℕ) : ShType :=
  if type = shtProgbits then .progbits
  else if type = shtNobits then .nobits
  else if type = shtRel then .rel
  else if type = shtRela then .rela
  else .other

/-- `SHF_ALLOC`
Source: utils/elf2efi.c, elf2pe -/
def SectionHeader.alloc (shdr : SectionHeader) : Bool := shdr.flags.testBit 1

/-- The name of a section, which is read if the section is allocated.
Source: utils/elf2efi.c, elf2pe; process_section, `name` -/
def readName (arch : Arch) (target : Target) (file : List UInt8) (ehdr : Ehdr)
    (shdr : SectionHeader) : Except Stop (List UInt8) :=
  if shdr.alloc then elfString arch target file ehdr ehdr.shstrndx shdr.name else .ok []

/-- The fix-ups of a section, which has some if it holds relocation records and is not allocated.
Source: utils/elf2efi.c, elf2pe -/
def readFixups (arch : Arch) (target : Target) (hybrid : Bool) (file : List UInt8) (ehdr : Ehdr)
    (shdr : SectionHeader) : Except Stop (List (ℕ × ℕ)) :=
  if shdr.alloc then .ok []
  else if shdr.type = shtRel then processRelocs arch target hybrid file ehdr shdr target.relLen
  else if shdr.type = shtRela then processRelocs arch target hybrid file ehdr shdr target.relaLen
  else .ok []

/-- What is read of a section.
Source: utils/elf2efi.c, elf2pe; process_section -/
def readSection (arch : Arch) (target : Target) (hybrid : Bool) (file : List UInt8) (ehdr : Ehdr)
    (shdr : SectionHeader) : Except Stop Shdr := do
  let name ← readName arch target file ehdr shdr
  let fixups ← readFixups arch target hybrid file ehdr shdr
  return {
    name := name
    type := shType shdr.type
    alloc := shdr.alloc
    write := shdr.flags.testBit 0
    execinstr := shdr.flags.testBit 2
    addr := shdr.addr
    size := shdr.size
    fixups := fixups }

/-- The program headers from the `i`-th on, up to the first that is outside the file.
Source: utils/elf2efi.c, elf_lma, `for ( i = 0 ; i < ehdr->e_phnum ; i++ )` -/
def segmentsFrom (arch : Arch) (target : Target) (file : List UInt8) (ehdr : Ehdr) :
    ℕ → ℕ → List Phdr
  | 0, _ => []
  | n + 1, i =>
      match readBytes file ((ehdr.phoff + i * ehdr.phentsize) % target.word % arch.ulong)
        target.phdrLen with
      | .ok bytes => target.phdr bytes :: segmentsFrom arch target file ehdr n (i + 1)
      | .error _ => []

/-- The search for a load address ends within the program headers that are in the file.
Source: utils/elf2efi.c, elf_lma -/
def lmaInside (target : Target) (hybrid : Bool) (ehdr : Ehdr) (segments : List Phdr) (shdr : Shdr) :
    Prop :=
  hybrid ∧ shdr.alloc ∧ shdr.type = .progbits →
    segments.length = ehdr.phnum ∨ (elfLma target segments shdr).isSome

instance (target : Target) (hybrid : Bool) (ehdr : Ehdr) (segments : List Phdr) (shdr : Shdr) :
    Decidable (lmaInside target hybrid ehdr segments shdr) := inferInstanceAs (Decidable (_ → _))

/-- Read the raw data of a section, if it is allocated and has some.
Source: utils/elf2efi.c, process_section, `Copy in section contents` -/
def readContents (file : List UInt8) (header : SectionHeader) (shdr : Shdr) :
    Except Stop (List UInt8) :=
  if shdr.alloc ∧ shdr.type = .progbits then readBytes file header.offset header.size else .ok []

/-- The sections that have been processed, and what has been made of them.
Source: utils/elf2efi.c, elf2pe -/
structure Progress where
  done : List (SectionHeader × Shdr)
  converted : Converted

/-- Process an input section.
Source: utils/elf2efi.c, elf2pe, `Process section` -/
def processInput (arch : Arch) (target : Target) (hybrid : Bool) (file : List UInt8) (ehdr : Ehdr)
    (segments : List Phdr) (st : Progress) (i : ℕ) : Except Stop Progress := do
  let header ← readShdr target file (ehdr.shdrOffset arch target i)
  let shdr ← readSection arch target hybrid file ehdr header
  if ¬lmaInside target hybrid ehdr segments shdr then .error .fault
  else do
    let converted ← orExit (convertSection arch target hybrid segments st.converted shdr)
    let _ ← readContents file header shdr
    return ⟨st.done ++ [(header, shdr)], converted⟩

/-- Process the input sections of a file: its header, the machine, and what has been made.
Source: utils/elf2efi.c, elf2pe -/
def convertFile (arch : Arch) (target : Target) (hybrid : Bool) (file : List UInt8) :
    Except Stop (Ehdr × ℕ × Progress) := do
  let ehdr ← readElfFile arch target file
  let machine ← orExit (setMachine ehdr.machine)
  let st ← (List.range ehdr.shnum).foldlM
    (processInput arch target hybrid file ehdr (segmentsFrom arch target file ehdr ehdr.phnum 0))
    ⟨[], efiPeHeader target ehdr.entry, [], []⟩
  return (ehdr, machine, st)

/-! ## The end of the tool -/

section
variable {β : Type} {x : Except Stop α} {f : α → Except Stop β}

/-- A sequence succeeds exactly if both of its parts do. -/
theorem bind_eq_ok {b : β} : x >>= f = .ok b ↔ ∃ a, x = .ok a ∧ f a = .ok b := by
  cases x with
  | error e => simp [bind, Except.bind]
  | ok a => simp [bind, Except.bind]

/-- A requirement succeeds exactly if it holds. -/
theorem require_eq_ok {p : Prop} [Decidable p] {u : Unit} : require p = .ok u ↔ p := by
  by_cases hp : p <;> simp [require, hp]

/-- A value that may be missing is there. -/
theorem orExit_eq_ok {o : Option α} {a : α} : orExit o = .ok a ↔ o = some a := by
  cases o <;> simp [orExit]

/-- The tool does not read outside the file. -/
def Inside (x : Except Stop α) : Prop := x ≠ .error .fault

/-- A result is no read outside, -/
theorem inside_ok (a : α) : Inside (.ok a) := nofun

/-- whatever it is. -/
theorem inside_pure (a : α) : Inside (pure a) := inside_ok a

/-- A requirement reads nothing, -/
theorem inside_require (p : Prop) [Decidable p] : Inside (require p) := by
  by_cases hp : p <;> simp [Inside, require, hp]

/-- nor does an exit. -/
theorem inside_orExit (o : Option α) : Inside (orExit o) := by
  cases o <;> simp [Inside, orExit]

/-- A sequence reads inside, if both of its parts do. -/
theorem Inside.bind (hx : Inside x) (hf : ∀ a, x = .ok a → Inside (f a)) : Inside (x >>= f) := by
  cases x with
  | error e => exact fun h => hx (by simpa [Bind.bind, Except.bind] using h)
  | ok a => exact hf a rfl

/-- What is done to a result reads nothing. -/
theorem Inside.map (hx : Inside x) (g : α → β) : Inside (g <$> x) := by
  cases x with
  | error e => exact fun h => hx (by simpa [Functor.map, Except.map] using h)
  | ok a => exact inside_ok _

/-- A condition, and what follows where it holds. -/
theorem inside_require_bind {p : Prop} [Decidable p] {k : Unit → Except Stop β}
    (h : p → Inside (k ())) : Inside (require p >>= k) :=
  (inside_require p).bind fun _ hp => h (require_eq_ok.mp hp)

/-- Bytes inside the file are read inside. -/
theorem inside_readBytes {file : List UInt8} {offset n : ℕ} (h : offset + n ≤ file.length) :
    Inside (readBytes file offset n) := by
  rw [readBytes, if_pos h]
  exact inside_ok _

end

/-- A loop reads inside the file if each of its rounds does. -/
theorem inside_forM {f : α → Except Stop Unit} {l : List α} (h : ∀ a ∈ l, Inside (f a)) :
    Inside (l.forM f) := by
  induction l with
  | nil => exact inside_ok ()
  | cons a l ih =>
      rw [List.forM]
      exact (h a List.mem_cons_self).bind fun _ _ => ih fun b hb => h b (List.mem_cons_of_mem a hb)

/-- A list of steps that read inside reads inside, -/
theorem inside_mapM {β : Type} {f : α → Except Stop β} {l : List α} (h : ∀ a ∈ l, Inside (f a)) :
    Inside (l.mapM f) := by
  induction l with
  | nil => exact inside_ok []
  | cons a l ih =>
      rw [List.mapM_cons]
      refine (h a List.mem_cons_self).bind fun b _ => ?_
      exact (ih fun b hb => h b (List.mem_cons_of_mem a hb)).bind fun bs _ => inside_ok _

/-- and so does a loop, whatever its state is. -/
theorem inside_foldlM {β : Type} {f : β → α → Except Stop β} {l : List α} (st : β)
    (h : ∀ a ∈ l, ∀ st, Inside (f st a)) : Inside (l.foldlM f st) := by
  induction l generalizing st with
  | nil => exact inside_ok st
  | cons a l ih =>
      rw [List.foldlM_cons]
      exact (h a List.mem_cons_self st).bind fun st _ =>
        ih st fun b hb => h b (List.mem_cons_of_mem a hb)

/-- A loop that has ended well has done so in each of its rounds. -/
theorem forM_eq_ok {f : α → Except Stop Unit} {l : List α} {u : Unit} (h : l.forM f = .ok u) :
    ∀ a ∈ l, f a = .ok () := by
  induction l with
  | nil => exact fun a ha => absurd ha List.not_mem_nil
  | cons b l ih =>
      rw [List.forM] at h
      obtain ⟨⟨⟩, hb, hl⟩ := bind_eq_ok.mp h
      intro a ha
      rcases List.mem_cons.mp ha with rfl | ha
      · exact hb
      · exact ih hl a ha

/-! ## What has been checked -/

/-- A field is below the bound of its bytes. -/
theorem field_lt (target : Target) (bytes : List UInt8) (f32 f64 : ℕ × ℕ) :
    target.field bytes f32 f64 < 256 ^ max f32.2 f64.2 := by
  have htake : ∀ f : ℕ × ℕ, f.2 ≤ max f32.2 f64.2 →
      leNat ((bytes.drop f.1).take f.2) < 256 ^ max f32.2 f64.2 := by
    intro f hf
    refine (leNat_lt _).trans_le (Nat.pow_le_pow_right (by norm_num) ?_)
    exact (List.length_take_le _ _).trans hf
  cases target with
  | efi32 => exact htake f32 (le_max_left _ _)
  | efi64 => exact htake f64 (le_max_right _ _)

/-- There are fewer than 2 ^ 16 sections. -/
theorem ehdr_shnum_lt (target : Target) (file : List UInt8) : (target.ehdr file).shnum < 2 ^ 16 :=
  field_lt target file (48, 2) (60, 2)

/-- A section header that has been read and checked. -/
structure Checked (file : List UInt8) (ehdr : Ehdr) (shdr : SectionHeader) : Prop where
  /-- The contents are in the file. -/
  contents : shdr.type ≠ shtNobits → shdr.offset + shdr.size ≤ file.length
  link_lt : shdr.link < ehdr.shnum

/-- What a section header that passes its check has. -/
theorem checked_of_ok {arch : Arch} {target : Target} {file : List UInt8} {ehdr : Ehdr} {i : ℕ}
    {shdr : SectionHeader} (h : checkShdr arch target file ehdr i = .ok ())
    (hread : readShdr target file (ehdr.shdrOffset arch target i) = .ok shdr) :
    Checked file ehdr shdr := by
  rw [checkShdr] at h
  obtain ⟨_, _, h⟩ := bind_eq_ok.mp h
  obtain ⟨shdr', hread', h⟩ := bind_eq_ok.mp h
  obtain ⟨_, hcontents, hlink⟩ := bind_eq_ok.mp h
  rw [hread] at hread'
  cases hread'
  refine ⟨fun hbits => ?_, require_eq_ok.mp hlink⟩
  obtain ⟨hoffset, hsize⟩ := (require_eq_ok.mp hcontents).resolve_left hbits
  omega

/-- What has been checked of a file. -/
theorem readElfFile_eq_ok {arch : Arch} {target : Target} {file : List UInt8} {ehdr : Ehdr}
    (h : readElfFile arch target file = .ok ehdr) :
    ehdr = target.ehdr file ∧
      (ehdr.phoff ≤ file.length ∧ ehdr.phnum * ehdr.phentsize ≤ file.length - ehdr.phoff) ∧
      ∀ i < ehdr.shnum, checkShdr arch target file ehdr i = .ok () := by
  rw [readElfFile] at h
  obtain ⟨_, _, h⟩ := bind_eq_ok.mp h
  obtain ⟨_, _, h⟩ := bind_eq_ok.mp h
  obtain ⟨_, hph, h⟩ := bind_eq_ok.mp h
  obtain ⟨_, hsh, h⟩ := bind_eq_ok.mp h
  cases h
  exact ⟨rfl, require_eq_ok.mp hph, fun i hi => forM_eq_ok hsh i (List.mem_range.mpr hi)⟩

/-- What the header says of a section that has been read. -/
theorem readSection_eq_ok {arch : Arch} {target : Target} {hybrid : Bool} {file : List UInt8}
    {ehdr : Ehdr} {header : SectionHeader} {shdr : Shdr}
    (h : readSection arch target hybrid file ehdr header = .ok shdr) :
    shdr.size = header.size ∧ shdr.type = shType header.type := by
  rw [readSection] at h
  obtain ⟨name, _, h⟩ := bind_eq_ok.mp h
  obtain ⟨fixups, _, h⟩ := bind_eq_ok.mp h
  cases h
  exact ⟨rfl, rfl⟩

/-- A section with data is none that takes no room in the file. -/
theorem shType_eq_progbits {type : ℕ} (h : shType type = .progbits) : type ≠ shtNobits := by
  rintro rfl
  exact absurd h (by decide)

/-! ## The conversion -/

/-- The sections that have been done are those of the indices, and what has been made is made of
them. -/
structure Progress.Follows (arch : Arch) (target : Target) (hybrid : Bool) (file : List UInt8)
    (ehdr : Ehdr) (segments : List Phdr) (start : Converted) (indices : List ℕ) (st : Progress) :
    Prop where
  read : List.Forall₂
    (fun i e => readShdr target file (ehdr.shdrOffset arch target i) = .ok e.1 ∧
      readSection arch target hybrid file ehdr e.1 = .ok e.2) indices st.done
  converted : (st.done.map Prod.snd).foldlM (convertSection arch target hybrid segments) start =
    some st.converted

section
variable {arch : Arch} {target : Target} {hybrid : Bool} {file : List UInt8} {ehdr : Ehdr}
  {segments : List Phdr} {start : Converted}

/-- **One input section.** -/
theorem Progress.Follows.step {indices : List ℕ} {i : ℕ} {st st' : Progress}
    (h : st.Follows arch target hybrid file ehdr segments start indices)
    (hstep : processInput arch target hybrid file ehdr segments st i = .ok st') :
    st'.Follows arch target hybrid file ehdr segments start (indices ++ [i]) := by
  rw [processInput] at hstep
  obtain ⟨header, hheader, hstep⟩ := bind_eq_ok.mp hstep
  obtain ⟨shdr, hshdr, hstep⟩ := bind_eq_ok.mp hstep
  split_ifs at hstep
  obtain ⟨converted, hconverted, hstep⟩ := bind_eq_ok.mp hstep
  obtain ⟨_, _, hst'⟩ := bind_eq_ok.mp hstep
  cases hst'
  refine ⟨List.rel_append h.read (.cons ⟨hheader, hshdr⟩ .nil), ?_⟩
  rw [List.map_append, List.foldlM_append, h.converted]
  simpa using orExit_eq_ok.mp hconverted

/-- **All input sections.** -/
theorem foldlM_follows (todo : List ℕ) {indices : List ℕ} {st st' : Progress}
    (h : st.Follows arch target hybrid file ehdr segments start indices)
    (hrun : todo.foldlM (processInput arch target hybrid file ehdr segments) st = .ok st') :
    st'.Follows arch target hybrid file ehdr segments start (indices ++ todo) := by
  induction todo generalizing indices st with
  | nil =>
      cases hrun
      rwa [List.append_nil]
  | cons i todo ih =>
      rw [List.foldlM_cons] at hrun
      obtain ⟨st₁, hstep, hrun⟩ := bind_eq_ok.mp hrun
      have hall := ih (h.step hstep) hrun
      rwa [List.append_assoc, List.singleton_append] at hall

end

/-- A file that has been converted: what has been read of its sections, and that `convert` makes of
them what has been made. -/
structure Converts (arch : Arch) (target : Target) (hybrid : Bool) (file : List UInt8) (ehdr : Ehdr)
    (machine : ℕ) (st : Progress) (elf : ElfFile) : Prop where
  ehdr_eq : ehdr = target.ehdr file
  machine_eq : setMachine ehdr.machine = some machine
  entry_eq : elf.entry = ehdr.entry
  segments_eq : elf.segments = segmentsFrom arch target file ehdr ehdr.phnum 0
  sections_eq : elf.sections = st.done.map Prod.snd
  checked : ∀ e ∈ st.done, Checked file ehdr e.1
  read : ∀ e ∈ st.done, readSection arch target hybrid file ehdr e.1 = .ok e.2
  convert_eq : convert arch target hybrid elf = some st.converted

/-- **The conversion of a file is that of the sections it has.** -/
theorem convertFile_convert {arch : Arch} {target : Target} {hybrid : Bool} {file : List UInt8}
    {ehdr : Ehdr} {machine : ℕ} {st : Progress}
    (h : convertFile arch target hybrid file = .ok (ehdr, machine, st)) :
    ∃ elf, Converts arch target hybrid file ehdr machine st elf := by
  rw [convertFile] at h
  obtain ⟨ehdr', hehdr, h⟩ := bind_eq_ok.mp h
  obtain ⟨machine', hmachine, h⟩ := bind_eq_ok.mp h
  obtain ⟨st', hst, h⟩ := bind_eq_ok.mp h
  cases h
  obtain ⟨hehdr_eq, _, hchecked⟩ := readElfFile_eq_ok hehdr
  have hfollows := foldlM_follows _ ⟨List.Forall₂.nil, rfl⟩ hst
  rw [List.nil_append] at hfollows
  have hlength := hfollows.read.length_eq
  rw [List.length_range] at hlength
  have hread : ∀ e ∈ st.done, ∃ i < ehdr.shnum,
      readShdr target file (ehdr.shdrOffset arch target i) = .ok e.1 ∧
        readSection arch target hybrid file ehdr e.1 = .ok e.2 := by
    intro e he
    obtain ⟨k, hk, rfl⟩ := List.mem_iff_getElem.mp he
    have hrange : k < (List.range ehdr.shnum).length := by rw [List.length_range]; omega
    have hrel := (List.forall₂_iff_get.mp hfollows.read).2 k hrange hk
    rw [List.get_eq_getElem, List.getElem_range] at hrel
    exact ⟨k, by omega, hrel⟩
  refine ⟨⟨ehdr.entry, st.done.map Prod.snd, _, ?_⟩, hehdr_eq, orExit_eq_ok.mp hmachine, rfl, rfl,
    rfl, ?_, ?_, hfollows.converted⟩
  · rw [List.length_map, ← hlength, hehdr_eq]
    exact ehdr_shnum_lt target file
  · intro e he
    obtain ⟨i, hi, hheader, _⟩ := hread e he
    exact checked_of_ok (hchecked i hi) hheader
  · intro e he
    obtain ⟨i, hi, _, hshdr⟩ := hread e he
    exact hshdr

/-! ## Nothing outside the file is read -/

/-- A section header of a file, where the table is. -/
def headerAt (target : Target) (file : List UInt8) (i : ℕ) : SectionHeader :=
  target.sectionHeader ((file.drop ((target.ehdr file).shoff + i * (target.ehdr file).shentsize)).take
    target.shdrLen)

/-- What is not checked of a file: the section headers are where an offset can be, the table of the
names of the sections is not empty, a symbol table has contents, and for a hybrid binary the entries
of the program header table are as long as program headers. -/
structure Sound (arch : Arch) (target : Target) (hybrid : Bool) (file : List UInt8) : Prop where
  file_lt : file.length < arch.ulong
  table_lt : ∀ i < (target.ehdr file).shnum,
    (target.ehdr file).shoff + i * (target.ehdr file).shentsize + target.shdrLen <
      min target.word arch.ulong
  strings : (headerAt target file (target.ehdr file).shstrndx).size ≠ 0
  symbols : ∀ i < (target.ehdr file).shnum, (headerAt target file i).alloc = false →
    (headerAt target file i).type = shtRel ∨ (headerAt target file i).type = shtRela →
      (headerAt target file (headerAt target file i).link).type ≠ shtNobits
  segments : hybrid → target.phdrLen ≤ (target.ehdr file).phentsize

section
variable {arch : Arch} {target : Target} {hybrid : Bool} {file : List UInt8}

/-- A place in the file is in the file, also where its number wraps. -/
theorem inside_readBytes_mod {offset n : ℕ} (h : offset + n ≤ file.length) (k : ℕ) :
    Inside (readBytes file (offset % k) n) :=
  inside_readBytes ((Nat.add_le_add_right (Nat.mod_le offset k) n).trans h)

/-- A section header inside the file is read as it stands there. -/
theorem readShdr_eq {offset : ℕ} (h : offset + target.shdrLen ≤ file.length) :
    readShdr target file offset =
      .ok (target.sectionHeader ((file.drop offset).take target.shdrLen)) := by
  rw [readShdr, readBytes, if_pos h]
  rfl

/-- The section headers of a sound file are where they are looked for, both times. -/
theorem Sound.shdrOffset_eq (h : Sound arch target hybrid file) {i : ℕ}
    (hi : i < (target.ehdr file).shnum) :
    (target.ehdr file).shdrOffset arch target i =
        (target.ehdr file).shoff + i * (target.ehdr file).shentsize ∧
      (target.ehdr file).shdrPointer arch i =
        (target.ehdr file).shoff + i * (target.ehdr file).shentsize := by
  obtain ⟨hword, hulong⟩ := lt_min_iff.mp (h.table_lt i hi)
  have hpointer := Nat.mod_eq_of_lt ((Nat.le_add_right _ _).trans_lt hulong)
  rw [Ehdr.shdrOffset, Ehdr.shdrPointer,
    Nat.mod_eq_of_lt ((Nat.le_add_right _ _).trans_lt hword)]
  exact ⟨hpointer, hpointer⟩

/-- Checking a section header reads inside the file. -/
theorem Sound.inside_checkShdr (h : Sound arch target hybrid file) {i : ℕ}
    (hi : i < (target.ehdr file).shnum) :
    Inside (checkShdr arch target file (target.ehdr file) i) := by
  have hlt := h.table_lt i hi
  rw [lt_min_iff] at hlt
  rw [checkShdr, (h.shdrOffset_eq hi).1, Nat.mod_eq_of_lt hlt.2]
  refine inside_require_bind fun hle => ?_
  rw [readShdr_eq hle]
  refine (inside_ok _).bind fun shdr _ => ?_
  exact inside_require_bind fun _ => inside_require _

/-- A section header that has been checked is read, and is in the file. -/
theorem Sound.header (h : Sound arch target hybrid file) {i : ℕ} (hi : i < (target.ehdr file).shnum)
    (hchecked : checkShdr arch target file (target.ehdr file) i = .ok ()) :
    readShdr target file ((target.ehdr file).shdrOffset arch target i) =
        .ok (headerAt target file i) ∧
      readShdr target file ((target.ehdr file).shdrPointer arch i) = .ok (headerAt target file i) ∧
      Checked file (target.ehdr file) (headerAt target file i) := by
  have hlt := h.table_lt i hi
  rw [lt_min_iff] at hlt
  obtain ⟨hoffset, hpointer⟩ := h.shdrOffset_eq hi
  have hle : (target.ehdr file).shoff + i * (target.ehdr file).shentsize + target.shdrLen ≤
      file.length := by
    rw [checkShdr, hoffset] at hchecked
    obtain ⟨_, hle, _⟩ := bind_eq_ok.mp hchecked
    have hle := require_eq_ok.mp hle
    rwa [Nat.mod_eq_of_lt hlt.2] at hle
  have hread := readShdr_eq hle
  rw [hoffset, hpointer]
  refine ⟨hread, hread, checked_of_ok hchecked ?_⟩
  rw [hoffset]
  exact hread

/-- What has been checked of the headers of a file. -/
def HeadersChecked (arch : Arch) (target : Target) (file : List UInt8) : Prop :=
  ∀ i < (target.ehdr file).shnum, checkShdr arch target file (target.ehdr file) i = .ok ()

/-- The names of the sections are in the file. -/
theorem Sound.inside_elfString (h : Sound arch target hybrid file)
    (hchecked : HeadersChecked arch target file) (offset : ℕ) :
    Inside (elfString arch target file (target.ehdr file) (target.ehdr file).shstrndx offset) := by
  rw [elfString]
  refine inside_require_bind fun hi => ?_
  obtain ⟨_, hread, hin⟩ := h.header hi (hchecked _ hi)
  have hfile := h.file_lt
  have hsize := h.strings
  rw [hread]
  generalize headerAt target file (target.ehdr file).shstrndx = shdr at hin hsize
  refine (inside_ok _).bind fun shdr' hshdr' => ?_
  cases hshdr'
  refine inside_require_bind fun htype => ?_
  have hend := hin.contents (by rw [htype]; decide)
  have hlast : (shdr.offset + shdr.size + (arch.ulong - 1)) % arch.ulong =
      shdr.offset + (shdr.size - 1) := by
    rw [show shdr.offset + shdr.size + (arch.ulong - 1) =
      shdr.offset + (shdr.size - 1) + arch.ulong by omega, Nat.add_mod_right,
      Nat.mod_eq_of_lt (by omega)]
  have hlt : shdr.offset + (shdr.size - 1) + 1 ≤ file.length := by omega
  rw [hlast, readBytes, if_pos hlt]
  refine (inside_ok _).bind fun last hlast => ?_
  cases hlast
  refine inside_require_bind fun hnul => ?_
  refine inside_require_bind fun hoffset => ?_
  -- the last byte of the table ends the string at the latest
  have hmem : (0 : UInt8) ∈ file.drop (shdr.offset + offset) := by
    have hget : file[shdr.offset + (shdr.size - 1)] = 0 := by
      rw [List.drop_eq_getElem_cons (by omega)] at hnul
      exact (List.cons.inj hnul).1
    refine List.mem_drop_iff_getElem.mpr ⟨shdr.size - 1 - offset, by omega, ?_⟩
    rw [← hget]
    congr 1
    omega
  dsimp only
  rw [if_pos hmem]
  exact inside_ok _

/-- A record without an addend is not longer than one with. -/
theorem Target.relLen_le (target : Target) : target.relLen ≤ target.relaLen ∧ 0 < target.relLen := by
  cases target <;> decide

/-- The index of a symbol's section lies in the symbol. -/
theorem Target.shndxOffset_le (target : Target) : target.shndxOffset + 2 ≤ target.symLen := by
  cases target <;> decide

/-- The relocation records of a section, and their symbols, are in the file. -/
theorem Sound.inside_processRelocs (h : Sound arch target hybrid file)
    (hchecked : HeadersChecked arch target file) {shdr : SectionHeader}
    (hshdr : Checked file (target.ehdr file) shdr) (hbits : shdr.type ≠ shtNobits)
    (hsymbols : (headerAt target file shdr.link).type ≠ shtNobits) {stride : ℕ}
    (hstride : target.relLen ≤ stride) :
    Inside (processRelocs arch target hybrid file (target.ehdr file) shdr stride) := by
  obtain ⟨_, hread, hsymtab⟩ := h.header hshdr.link_lt (hchecked _ hshdr.link_lt)
  have hend := hshdr.contents hbits
  have hsymend := hsymtab.contents hsymbols
  rw [processRelocs, hread]
  generalize headerAt target file shdr.link = symtab at hsymend
  refine (inside_ok _).bind fun symtab' hsymtab' => ?_
  cases hsymtab'
  refine (inside_mapM fun i hi => ?_).bind fun fixups _ => inside_pure _
  have hi : (i + 1) * stride ≤ shdr.size :=
    (Nat.le_div_iff_mul_le (target.relLen_le.2.trans_le hstride)).mp
      ((Nat.succ_le_of_lt (List.mem_range.mp hi)).trans (Nat.mod_le _ _))
  rw [processReloc]
  refine ((inside_readBytes_mod ?_ _).map _).bind fun rel _ => ?_
  · rw [Nat.succ_mul] at hi
    omega
  refine inside_require_bind fun hsym => ?_
  have hsym : (rel.sym + 1) * target.symLen ≤ symtab.size :=
    (Nat.le_div_iff_mul_le (Nat.lt_of_lt_of_le (Nat.succ_pos _) target.shndxOffset_le)).mp
      ((Nat.succ_le_of_lt hsym).trans (Nat.mod_le _ _))
  refine (inside_readBytes_mod ?_ _).bind fun shndx _ => ?_
  · have hle := target.shndxOffset_le
    rw [Nat.succ_mul] at hsym
    omega
  split_ifs
  · exact inside_pure _
  · exact inside_orExit _

/-- What is read of a section is in the file. -/
theorem Sound.inside_readSection (h : Sound arch target hybrid file)
    (hchecked : HeadersChecked arch target file) {i : ℕ} (hi : i < (target.ehdr file).shnum) :
    Inside (readSection arch target hybrid file (target.ehdr file) (headerAt target file i)) := by
  obtain ⟨_, _, hin⟩ := h.header hi (hchecked i hi)
  have hsymbols := h.symbols i hi
  generalize headerAt target file i = shdr at hin hsymbols
  rw [readSection]
  refine Inside.bind ?_ fun name _ => Inside.bind ?_ fun fixups _ => inside_pure _
  · rw [readName]
    split_ifs
    · exact h.inside_elfString hchecked _
    · exact inside_ok _
  · rw [readFixups]
    split_ifs with halloc hrel hrela
    · exact inside_ok _
    · exact h.inside_processRelocs hchecked hin (by rw [hrel]; decide)
        (hsymbols (Bool.eq_false_iff.mpr halloc) (.inl hrel)) le_rfl
    · exact h.inside_processRelocs hchecked hin (by rw [hrela]; decide)
        (hsymbols (Bool.eq_false_iff.mpr halloc) (.inr hrela)) target.relLen_le.1
    · exact inside_ok _

/-- The raw data of a section are in the file: where they are has been checked. -/
theorem inside_readContents {ehdr : Ehdr} {header : SectionHeader} {shdr : Shdr}
    (hchecked : Checked file ehdr header)
    (hread : readSection arch target hybrid file ehdr header = .ok shdr) :
    Inside (readContents file header shdr) := by
  rw [readContents]
  split_ifs with hraw
  · have htype := hraw.2
    rw [(readSection_eq_ok hread).2] at htype
    exact inside_readBytes (hchecked.contents (shType_eq_progbits htype))
  · exact inside_ok _

/-- All program headers are in the file. -/
theorem segmentsFrom_length {ehdr : Ehdr} (hlen : target.phdrLen ≤ ehdr.phentsize) {n i : ℕ}
    (hend : ehdr.phoff + (i + n) * ehdr.phentsize ≤ file.length) :
    (segmentsFrom arch target file ehdr n i).length = n := by
  induction n generalizing i with
  | zero => rfl
  | succ n ih =>
      have hnext : ehdr.phoff + i * ehdr.phentsize + target.phdrLen ≤ file.length := by
        rw [Nat.add_mul, Nat.succ_mul] at hend
        omega
      have hin : (ehdr.phoff + i * ehdr.phentsize) % target.word % arch.ulong + target.phdrLen ≤
          file.length :=
        (Nat.add_le_add_right ((Nat.mod_le _ _).trans (Nat.mod_le _ _)) _).trans hnext
      rw [segmentsFrom, readBytes, if_pos hin]
      dsimp only
      rw [List.length_cons, ih]
      rwa [Nat.add_assoc, Nat.add_comm 1 n]

/-- **Nothing outside the file is read**, whatever is in it, if the file is sound in what is not
checked.
Source: utils/elf2efi.c, read_elf_file, elf_string, elf_lma, process_section, process_relocs, elf2pe -/
theorem convertFile_inside (h : Sound arch target hybrid file) :
    convertFile arch target hybrid file ≠ .error .fault := by
  rw [convertFile]
  refine Inside.bind ?_ fun ehdr hehdr => ?_
  · rw [readElfFile]
    refine inside_require_bind fun _ => inside_require_bind fun _ => inside_require_bind fun _ => ?_
    exact (inside_forM fun i hi => h.inside_checkShdr (List.mem_range.mp hi)).bind
      fun _ _ => inside_pure _
  obtain ⟨rfl, ⟨hphoff, hphnum⟩, hchecked⟩ := readElfFile_eq_ok hehdr
  refine (inside_orExit _).bind fun machine _ => ?_
  refine (inside_foldlM _ fun i hi st => ?_).bind fun st _ => inside_pure _
  have hi := List.mem_range.mp hi
  rw [processInput, (h.header hi (hchecked i hi)).1]
  refine (inside_ok _).bind fun header hheader => ?_
  cases hheader
  refine (h.inside_readSection hchecked hi).bind fun shdr hshdr => ?_
  have hlma : lmaInside target hybrid (target.ehdr file)
      (segmentsFrom arch target file (target.ehdr file) (target.ehdr file).phnum 0) shdr := by
    rintro ⟨hhybrid, _⟩
    exact .inl (segmentsFrom_length (h.segments hhybrid) (by rw [Nat.zero_add]; omega))
  rw [if_neg (not_not.mpr hlma)]
  refine (inside_orExit _).bind fun _ _ => ?_
  exact (inside_readContents (h.header hi (hchecked i hi)).2.2 hshdr).bind fun _ _ => inside_pure _

end

/-! ## A file with a relocation -/

/-- A section header of a 64-bit file. -/
def sampleShdr (name type flags addr offset size link : ℕ) : List UInt8 :=
  structBytes [(4, name), (4, type), (8, flags), (8, addr), (8, offset), (8, size), (4, link), (20, 0)]

/-- A 64-bit file, linked to 0x20000 and to be put at 0x1000 of the output: 16 bytes of code, a word
with the address of the ninth of them, 32 bytes of zeros, and the relocation record of the word. -/
def sampleElf : List UInt8 :=
  structBytes [(4, 0x464c457f), (1, 2), (1, 1), (10, 0), (2, 2), (2, 62), (4, 1), (8, 0x20004), (8, 64),
    (8, 240), (4, 0), (2, 64), (2, 56), (2, 1), (2, 64), (2, 7), (2, 6)] ++
  structBytes [(4, 1), (4, 7), (8, 0), (8, 0x20000), (8, 0x1000), (8, 0x3000), (8, 0x3000),
    (8, 0x1000)] ++
  List.replicate 16 0x90 ++ structBytes [(8, 0x20008)] ++
  structBytes [(8, 0x21000), (4, 1), (4, 1), (8, 0x20008)] ++
  structBytes [(24, 0), (4, 0), (1, 3), (1, 0), (2, 1), (8, 0x20000), (8, 0)] ++
  [0, 0x2e, 0x74, 0x65, 0x78, 0x74, 0, 0x2e, 0x64, 0x61, 0x74, 0x61, 0, 0x2e, 0x62, 0x73, 0x73, 0,
    0, 0, 0, 0, 0, 0] ++
  sampleShdr 0 0 0 0 0 0 0 ++ sampleShdr 1 1 6 0x20000 120 16 0 ++
  sampleShdr 7 1 3 0x21000 136 8 0 ++ sampleShdr 13 8 3 0x22000 144 32 0 ++
  sampleShdr 0 4 0 0 144 24 5 ++ sampleShdr 0 2 0 0 168 48 6 ++ sampleShdr 0 3 0 0 216 24 0

/-- The sample file, for the hybrid target of 64 bits. -/
theorem convertFile_inside_sample :
    convertFile .x86_64 .efi64 true sampleElf ≠ .error .fault :=
  convertFile_inside ⟨by decide +kernel, by decide +kernel, by decide +kernel, by decide +kernel,
    by decide +kernel⟩

end Ntloader.Elf2efi
