import Ntloader.Lib.Memory
import Ntloader.Vdisk.Geometry

/-!
# The table of virtual files

* `VdiskFile`, `VdiskFiles` — `vdisk_files[]`: at most `VDISK_MAX_FILES` entries are registered, the
  others are all zero.
* `vdiskAddFile` — registration; `none` is `die`.
* `MemFile`, `addMemFiles` — a list of files with in-memory contents, registered in order.

Scope: `opaque` is the memory the pointer points to, apart from the memory the data buffer is in.
Nothing in the repository calls `vdisk_patch_file`; a patch method is kept as a field.
-/

namespace Ntloader.Vdisk

open Ntloader.Lib

/-- A method of a virtual file: it is given the file's opaque token, the address of the data buffer,
an offset and a length, and it writes to the memory the buffer is in. -/
abbrev Method := Mem → ℕ → ℕ → ℕ → Mem → Mem

/-- Maximum virtual filename length (excluding NUL).
Source: include/vdisk.h, VDISK_NAME_LEN -/
@[simp] def vdiskNameLen : ℕ := 31

/-- A virtual file.
Source: include/vdisk.h, struct vdisk_file -/
structure VdiskFile where
  /-- Filename, up to its NUL. -/
  name : List UInt8
  /-- Opaque token. -/
  opaqueToken : Mem
  /-- Length (excluding any zero-padding). -/
  len : ℕ
  /-- Length (including any zero-padding). -/
  xlen : ℕ
  /-- Read data; absent if the file is not registered. -/
  read : Option Method
  /-- Patch data (optional). -/
  patch : Option Method

/-- An entry of the table that no file is registered in. -/
def VdiskFile.unused : VdiskFile := ⟨[], Mem.zero, 0, 0, none, none⟩

/-- Virtual files.
Source: libnt/vdisk.c, vdisk_files -/
structure VdiskFiles where
  /-- The registered files. -/
  files : List VdiskFile
  /-- There is room for them. -/
  length_le : files.length ≤ vdiskMaxFiles

/-- An entry of the table. -/
def VdiskFiles.get (t : VdiskFiles) (i : ℕ) : VdiskFile := t.files.getD i VdiskFile.unused

/-- The table before the first registration. -/
def VdiskFiles.empty : VdiskFiles := ⟨[], Nat.zero_le _⟩

/-- The characters of a C string that `snprintf (buf, VDISK_NAME_LEN + 1, "%s", name)` stores. -/
def storedName (name : List UInt8) : List UInt8 := (name.takeWhile (· ≠ 0)).take vdiskNameLen

/-- Add file to virtual disk.
Source: libnt/vdisk.c, vdisk_add_file -/
def vdiskAddFile (t : VdiskFiles) (name : List UInt8) (opaqueToken : Mem) (len : ℕ)
    (read : Method) : Option VdiskFiles :=
  if h : t.files.length < vdiskMaxFiles then
    some ⟨t.files ++ [⟨storedName name, opaqueToken, len, len, some read, none⟩], by simpa using h⟩
  else none

/-- Read virtual file from memory.
Source: kern/payload.c, read_mem_file -/
def readMemFile : Method := fun opaqueToken data offset len m => m.copy data opaqueToken offset len

/-- A file with in-memory contents. -/
structure MemFile where
  /-- The name it is registered under. -/
  name : List UInt8
  /-- The memory that starts with its contents. -/
  contents : Mem
  /-- Their length. -/
  len : ℕ

/-- A file of one byte. -/
def oneByteFile : MemFile := ⟨[0x61], fun _ => 1, 1⟩

/-- A file of one byte, and one of three clusters whose name takes three records. -/
def twoFiles : List MemFile :=
  [oneByteFile, ⟨(List.range 30).map fun i => 0x61 + UInt8.ofNat (i % 26), UInt8.ofNat, 0x10001⟩]

/-- Register files with in-memory contents, in order. -/
def addMemFiles (fs : List MemFile) : Option VdiskFiles :=
  fs.foldlM (fun t f => vdiskAddFile t f.name f.contents f.len readMemFile) VdiskFiles.empty

/-- The entry of a file with in-memory contents. -/
def MemFile.entry (f : MemFile) : VdiskFile :=
  ⟨storedName f.name, f.contents, f.len, f.len, some readMemFile, none⟩

/-- The arguments of a registration. -/
structure Registration where
  /-- The name. -/
  name : List UInt8
  /-- The opaque token. -/
  opaqueToken : Mem
  /-- The length. -/
  len : ℕ
  /-- The read method. -/
  read : Method

/-- Register files, in order. -/
def addFiles (rs : List Registration) : Option VdiskFiles :=
  rs.foldlM (fun t r => vdiskAddFile t r.name r.opaqueToken r.len r.read) VdiskFiles.empty

/-- The entry of a registered file. -/
def Registration.entry (r : Registration) : VdiskFile :=
  ⟨storedName r.name, r.opaqueToken, r.len, r.len, some r.read, none⟩

/-- The registration of a file with in-memory contents. -/
def MemFile.registration (f : MemFile) : Registration := ⟨f.name, f.contents, f.len, readMemFile⟩

/-- Files in memory are registered as any others. -/
theorem addMemFiles_eq_addFiles (fs : List MemFile) :
    addMemFiles fs = addFiles (fs.map MemFile.registration) := by
  unfold addMemFiles addFiles
  rw [List.foldlM_map]
  rfl

/-- Registrations go behind what is there, if there is room for them. -/
theorem foldlM_vdiskAddFile (rs : List Registration) (t : VdiskFiles)
    (h : t.files.length + rs.length ≤ vdiskMaxFiles) :
    ∃ t', rs.foldlM (fun t r => vdiskAddFile t r.name r.opaqueToken r.len r.read) t = some t' ∧
      t'.files = t.files ++ rs.map Registration.entry := by
  induction rs generalizing t with
  | nil => exact ⟨t, rfl, by simp⟩
  | cons r rs ih =>
      rw [List.length_cons] at h
      have hlt : t.files.length < vdiskMaxFiles := by omega
      obtain ⟨t', ht', hfiles⟩ := ih
        ⟨t.files ++ [r.entry], by simpa using hlt⟩
        (by simp only [List.length_append, List.length_singleton]; omega)
      refine ⟨t', ?_, ?_⟩
      · rw [List.foldlM_cons, vdiskAddFile, dif_pos hlt]
        exact ht'
      · rw [hfiles]
        simp

/-- Up to `VDISK_MAX_FILES` files are registered, each in its place. -/
theorem addFiles_eq {rs : List Registration} (h : rs.length ≤ vdiskMaxFiles) :
    ∃ t, addFiles rs = some t ∧ t.files = rs.map Registration.entry := by
  obtain ⟨t, ht, hfiles⟩ := foldlM_vdiskAddFile rs VdiskFiles.empty (by simpa [VdiskFiles.empty] using h)
  exact ⟨t, ht, by simpa [VdiskFiles.empty] using hfiles⟩

/-- Up to the maximum, files are registered in their order. -/
theorem addMemFiles_eq {fs : List MemFile} (h : fs.length ≤ vdiskMaxFiles) :
    ∃ t, addMemFiles fs = some t ∧ t.files = fs.map MemFile.entry := by
  obtain ⟨t, ht, hfiles⟩ := @addFiles_eq (fs.map MemFile.registration) (by simpa using h)
  rw [addMemFiles_eq_addFiles]
  refine ⟨t, ht, ?_⟩
  rw [hfiles, List.map_map]
  rfl

/-- An entry with in-memory contents, or one that no file is registered in. -/
structure VdiskFile.InMemory (f : VdiskFile) : Prop where
  /-- The contents are read from memory, unless there are none. -/
  read : f.read = some readMemFile ∨ f.read = none ∧ f.len = 0
  /-- There is no padding. -/
  xlen : f.xlen = f.len
  /-- There is no patch method. -/
  patch : f.patch = none
  /-- The name fits its buffer. -/
  name_le : f.name.length ≤ vdiskNameLen

/-- A table whose files all have in-memory contents. -/
def VdiskFiles.InMemory (t : VdiskFiles) : Prop := ∀ i, (t.get i).InMemory

/-- Every name fits its buffer. -/
def VdiskFiles.NamesFit (t : VdiskFiles) : Prop := ∀ i, (t.get i).name.length ≤ vdiskNameLen

/-- Names in the table fit their fields. -/
theorem VdiskFiles.InMemory.namesFit {t : VdiskFiles} (h : t.InMemory) : t.NamesFit :=
  fun i => (h i).name_le

/-- A name is cut to its field. -/
theorem storedName_length_le (name : List UInt8) : (storedName name).length ≤ vdiskNameLen :=
  List.length_take_le _ _

/-- The entry of a file in memory is one of such a table, -/
theorem MemFile.entry_inMemory (f : MemFile) : f.entry.InMemory :=
  ⟨Or.inl rfl, rfl, rfl, storedName_length_le _⟩

/-- and so is an unused one. -/
theorem VdiskFile.unused_inMemory : VdiskFile.unused.InMemory :=
  ⟨Or.inr ⟨rfl, rfl⟩, rfl, rfl, Nat.zero_le _⟩

/-- The entry of a registered file, and of no file. -/
theorem addFiles_get {rs : List Registration} {t : VdiskFiles} (h : rs.length ≤ vdiskMaxFiles)
    (ht : addFiles rs = some t) (i : ℕ) :
    t.get i = (rs[i]?.map Registration.entry).getD VdiskFile.unused := by
  obtain ⟨t', ht', hfiles⟩ := addFiles_eq h
  obtain rfl : t' = t := Option.some.inj (ht'.symm.trans ht)
  rw [VdiskFiles.get, hfiles, List.getD_eq_getElem?_getD, List.getElem?_map]

/-- The names of files that are registered fit their fields. -/
theorem addFiles_namesFit {rs : List Registration} {t : VdiskFiles}
    (h : rs.length ≤ vdiskMaxFiles) (ht : addFiles rs = some t) : t.NamesFit := by
  intro i
  rw [addFiles_get h ht]
  cases rs[i]? with
  | none => exact Nat.zero_le _
  | some r => exact storedName_length_le _

/-- An entry of the table is that of its file, or unused. -/
theorem addMemFiles_get {fs : List MemFile} {t : VdiskFiles} (h : fs.length ≤ vdiskMaxFiles)
    (ht : addMemFiles fs = some t) (i : ℕ) :
    t.get i = (fs[i]?.map MemFile.entry).getD VdiskFile.unused := by
  rw [addMemFiles_eq_addFiles] at ht
  rw [addFiles_get (by simpa using h) ht, List.getElem?_map, Option.map_map]
  rfl

/-- Files in memory make a table of such files. -/
theorem addMemFiles_inMemory {fs : List MemFile} {t : VdiskFiles} (h : fs.length ≤ vdiskMaxFiles)
    (ht : addMemFiles fs = some t) : t.InMemory := by
  intro i
  rw [addMemFiles_get h ht]
  cases fs[i]? with
  | none => exact VdiskFile.unused_inMemory
  | some f => exact f.entry_inMemory

end Ntloader.Vdisk
