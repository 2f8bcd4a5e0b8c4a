import Ntloader.Lib.Traced
import Ntloader.Posix.Memory

/-!
# PE images

`load_pe` copies the headers and the sections of a PE image to where they are linked, and the whole
file behind them.

* `fileAt` — a file in memory.
* `loadSection`, `loadSections`, `loadPe` — libnt/peloader.c, with the bytes of the file that are
  read.
* `imageBase`, `sectionAt`, … — the fields that are read, by their names.
* `loadPe_ok_iff` — what is checked.

Scope: the code is run by the BIOS build, where a pointer and `size_t` have 32 bits. File and image
are in one memory, so that the image may be written over the file. Messages are left out, and so is
the name of a section, but for its read.
-/

namespace Ntloader.Pe

open Ntloader.Lib Ntloader.Lib.Traced Ntloader.Posix

/-- Source: include/peloader.h, MZ_HEADER_MAGIC -/
def mzHeaderMagic : ℕ := 0x5a4d

/-- Source: include/peloader.h, PE_HEADER_MAGIC -/
def peHeaderMagic : ℕ := 0x00004550

/-- The bytes of a file, by their offsets. -/
def fileAt (m : Mem) (data : ℕ) : Mem := fun offset => m ((data + offset) % 2 ^ 32)

/-- A loaded PE image.
Source: include/peloader.h, struct loaded_pe -/
structure LoadedPe where
  base : ℕ
  len : ℕ
  entry : ℕ
  deriving Repr, DecidableEq

/-! ## The loader -/

/-- Load a section: the memory behind it, and its end.
Source: libnt/peloader.c, load_pe, `Load each section into memory` -/
def loadSection (data base section_ : ℕ) (m : Mem) : Traced Unit (Mem × ℕ) := do
  touch section_ 8
  let virtual ← read (fileAt m data) (section_ + 12) 4
  let filesz ← read (fileAt m data) (section_ + 16) 4
  let memsz ← read (fileAt m data) (section_ + 8) 4
  let sectionBase := (base + virtual) % 2 ^ 32
  let m := memset 0 memsz m sectionBase
  let raw ← read (fileAt m data) (section_ + 20) 4
  touch raw filesz
  let m := memcpy m sectionBase ((data + raw) % 2 ^ 32) filesz
  return (m, (sectionBase + memsz) % 2 ^ 32)

/-- The loop over the sections, from the `i`-th on: the memory, and the end of the image so far. The
number of sections has 16 bits, so that the loop ends within `2 ^ 16` rounds.
Source: libnt/peloader.c, load_pe, `Load each section into memory` -/
def loadSections (data base pehdr : ℕ) : ℕ → ℕ → ℕ → Mem → ℕ → Traced Unit (Mem × ℕ)
  | 0, _, _, m, fin => pure (m, fin)
  | fuel + 1, i, section_, m, fin => do
      let numSections ← read (fileAt m data) (pehdr + 6) 2
      if i < numSections then do
        let (m, sectionEnd) ← loadSection data base section_ m
        loadSections data base pehdr fuel (i + 1) (section_ + 40) m
          (if fin < sectionEnd then sectionEnd else fin)
      else return (m, fin)

/-- The length of an image, up to a multiple of the alignment.
Source: libnt/peloader.c, load_pe -/
def alignedLen (len align : ℕ) : ℕ :=
  (len + align + 2 ^ 32 - 1) % 2 ^ 32 &&& (2 ^ 32 - 1 - (align + 2 ^ 32 - 1) % 2 ^ 32)

/-- Load the copy of the file behind an image that ends at `fin`.
Source: libnt/peloader.c, load_pe, `Load copy of raw image into memory` -/
def loadCopy (data len opthdr base fin : ℕ) (m : Mem) : Traced Unit (Mem × LoadedPe) := do
  let align ← read (fileAt m data) (opthdr + 32) 4
  let imageLen := alignedLen ((fin + 2 ^ 32 - base) % 2 ^ 32) align
  touch 0 len
  let m := memcpy m ((base + imageLen) % 2 ^ 32) data len
  let entry ← read (fileAt m data) (opthdr + 16) 4
  return (m, ⟨base, (imageLen + len) % 2 ^ 32, (base + entry) % 2 ^ 32⟩)

/-- Load the headers, the sections and the copy of the file, for a PE header at an offset.
Source: libnt/peloader.c, load_pe -/
def loadImage (m : Mem) (data len pehdr : ℕ) : Traced Unit (Mem × LoadedPe) := do
  let opthdr := (pehdr + 24) % 2 ^ 32
  let base ← read (fileAt m data) (opthdr + 28) 4
  let opthdrLen ← read (fileAt m data) (pehdr + 20) 2
  let section_ := (opthdr + opthdrLen) % 2 ^ 32
  let headerLen ← read (fileAt m data) (opthdr + 60) 4
  touch 0 headerLen
  let m := memcpy m base data headerLen
  let headerLen ← read (fileAt m data) (opthdr + 60) 4
  let (m, fin) ← loadSections data base pehdr (2 ^ 16) 0 section_ m ((base + headerLen) % 2 ^ 32)
  loadCopy data len opthdr base fin m

/-- Load PE image into memory; it fails where -1 is returned.
Source: libnt/peloader.c, load_pe -/
def loadPe (m : Mem) (data len : ℕ) : Traced Unit (Mem × LoadedPe) := do
  let magic ← read (fileAt m data) 0 2
  Traced.refuse (magic ≠ mzHeaderMagic) ()
  let pehdr ← read (fileAt m data) 0x3c 4
  Traced.refuse (pehdr > len) ()
  let magic ← read (fileAt m data) pehdr 4
  Traced.refuse (magic ≠ peHeaderMagic) ()
  loadImage m data len pehdr

/-! ## The fields -/

section fields

variable (file : Mem)

/-- Source: include/peloader.h, struct mz_header, lfanew -/
def pehdrOffset : ℕ := file.word 0x3c 4

/-- Source: libnt/peloader.c, load_pe, opthdr_offset -/
def opthdrOffset : ℕ := (pehdrOffset file + 24) % 2 ^ 32

/-- Source: include/peloader.h, struct coff_header, num_sections -/
def numSections : ℕ := file.word (pehdrOffset file + 6) 2

/-- Source: include/peloader.h, struct coff_header, opthdr_len -/
def opthdrLen : ℕ := file.word (pehdrOffset file + 20) 2

/-- Source: include/peloader.h, struct pe_optional_header, entry -/
def entryPoint : ℕ := file.word (opthdrOffset file + 16) 4

/-- Source: include/peloader.h, struct pe_optional_header, base -/
def imageBase : ℕ := file.word (opthdrOffset file + 28) 4

/-- Source: include/peloader.h, struct pe_optional_header, section_align -/
def sectionAlign : ℕ := file.word (opthdrOffset file + 32) 4

/-- Source: include/peloader.h, struct pe_optional_header, header_len -/
def headerLen : ℕ := file.word (opthdrOffset file + 60) 4

/-- Source: libnt/peloader.c, load_pe, section_offset -/
def sectionTable : ℕ := (opthdrOffset file + opthdrLen file) % 2 ^ 32

/-- A section, as far as it is looked at.
Source: include/peloader.h, struct coff_section -/
structure CoffSection where
  virtualLen : ℕ
  virtual : ℕ
  rawLen : ℕ
  raw : ℕ
  deriving Repr, DecidableEq

/-- The section header at an offset. -/
def sectionAt (section_ : ℕ) : CoffSection where
  virtualLen := file.word (section_ + 8) 4
  virtual := file.word (section_ + 12) 4
  rawLen := file.word (section_ + 16) 4
  raw := file.word (section_ + 20) 4

/-- The magic numbers are right, and the PE header begins in the file.
Source: libnt/peloader.c, load_pe -/
def Accepted (len : ℕ) : Prop :=
  file.word 0 2 = mzHeaderMagic ∧ pehdrOffset file ≤ len ∧
    file.word (pehdrOffset file) 4 = peHeaderMagic

end fields

/-! ## What is loaded -/

/-- The memory of a section is cleared. -/
def sectionCleared (data base section_ : ℕ) (m : Mem) : Mem :=
  let s := sectionAt (fileAt m data) section_
  memset 0 s.virtualLen m ((base + s.virtual) % 2 ^ 32)

/-- Where the raw data of a section are, once its memory has been cleared. -/
def sectionRaw (data base section_ : ℕ) (m : Mem) : ℕ :=
  (sectionAt (fileAt (sectionCleared data base section_ m) data) section_).raw

/-- A section without the reads. -/
def sectionLoaded (data base section_ : ℕ) (m : Mem) : Mem × ℕ :=
  let s := sectionAt (fileAt m data) section_
  let sectionBase := (base + s.virtual) % 2 ^ 32
  (memcpy (sectionCleared data base section_ m) sectionBase
      ((data + sectionRaw data base section_ m) % 2 ^ 32) s.rawLen,
    (sectionBase + s.virtualLen) % 2 ^ 32)

/-- The loading of a section always succeeds. -/
theorem loadSection_value (data base section_ : ℕ) (m : Mem) :
    (loadSection data base section_ m).value = .ok (sectionLoaded data base section_ m) := rfl

/-- A round of the loop over the sections. -/
theorem loadSections_succ_value (data base pehdr fuel i section_ : ℕ) (m : Mem) (fin : ℕ) :
    (loadSections data base pehdr (fuel + 1) i section_ m fin).value =
      if i < (fileAt m data).word (pehdr + 6) 2 then
        (loadSections data base pehdr fuel (i + 1) (section_ + 40) (sectionLoaded data base section_ m).1
          (if fin < (sectionLoaded data base section_ m).2 then (sectionLoaded data base section_ m).2
            else fin)).value
      else .ok (m, fin) := by
  rw [loadSections, value_read_bind]
  by_cases hi : i < (fileAt m data).word (pehdr + 6) 2
  · rw [if_pos hi, if_pos hi, value_bind_of_ok (loadSection_value data base section_ m)]
  · rw [if_neg hi, if_neg hi]
    rfl

/-- The loading of all sections succeeds. -/
theorem loadSections_ok (data base pehdr fuel i section_ : ℕ) (m : Mem) (fin : ℕ) :
    ∃ r, (loadSections data base pehdr fuel i section_ m fin).value = .ok r := by
  induction fuel generalizing i section_ m fin with
  | zero => exact ⟨_, rfl⟩
  | succ fuel ih =>
      rw [loadSections_succ_value]
      by_cases hi : i < (fileAt m data).word (pehdr + 6) 2
      · rw [if_pos hi]
        exact ih _ _ _ _
      · rw [if_neg hi]
        exact ⟨_, rfl⟩

/-- The memory behind the headers. -/
def headersLoaded (m : Mem) (data : ℕ) : Mem :=
  memcpy m (imageBase (fileAt m data)) data (headerLen (fileAt m data))

/-- The loading of an image by the names of the fields. -/
theorem loadImage_value (m : Mem) (data len : ℕ) :
    (loadImage m data len (pehdrOffset (fileAt m data))).value =
      (loadSections data (imageBase (fileAt m data)) (pehdrOffset (fileAt m data)) (2 ^ 16) 0
          (sectionTable (fileAt m data)) (headersLoaded m data)
          ((imageBase (fileAt m data) +
            (fileAt (headersLoaded m data) data).word (opthdrOffset (fileAt m data) + 60) 4) % 2 ^ 32) >>=
        fun (m', fin) => loadCopy data len (opthdrOffset (fileAt m data)) (imageBase (fileAt m data))
          fin m').value := by
  rw [loadImage]
  dsimp only
  rw [value_read_bind, value_read_bind, value_read_bind, value_touch_bind, value_read_bind]
  congr 1

/-- The loading itself does not fail. -/
theorem loadImage_ok (m : Mem) (data len : ℕ) :
    ∃ r, (loadImage m data len (pehdrOffset (fileAt m data))).value = .ok r := by
  obtain ⟨r, hr⟩ := loadSections_ok data (imageBase (fileAt m data)) (pehdrOffset (fileAt m data))
    (2 ^ 16) 0 (sectionTable (fileAt m data)) _ _
  rw [loadImage_value, value_bind_of_ok hr]
  exact ⟨_, rfl⟩

/-- The checks in front of the loading. -/
theorem loadPe_value (m : Mem) (data len : ℕ) :
    (loadPe m data len).value =
      if (fileAt m data).word 0 2 ≠ mzHeaderMagic then .error ()
      else if pehdrOffset (fileAt m data) > len then .error ()
      else if (fileAt m data).word (pehdrOffset (fileAt m data)) 4 ≠ peHeaderMagic then .error ()
      else (loadImage m data len (pehdrOffset (fileAt m data))).value := by
  rw [loadPe, value_read_bind, value_refuse_bind, value_read_bind, value_refuse_bind, value_read_bind,
    value_refuse_bind]
  rfl

/-- A file that is accepted is loaded. -/
theorem loadPe_of_accepted {m : Mem} {data len : ℕ} (h : Accepted (fileAt m data) len) :
    (loadPe m data len).value = (loadImage m data len (pehdrOffset (fileAt m data))).value := by
  obtain ⟨hmz, hpehdr, hpe⟩ := h
  rw [loadPe_value, if_neg (not_not_intro hmz), if_neg (not_lt.mpr hpehdr),
    if_neg (not_not_intro hpe)]

/-- Zero is returned iff the file is accepted. -/
theorem loadPe_ok_iff {m : Mem} {data len : ℕ} :
    (∃ r, (loadPe m data len).value = .ok r) ↔ Accepted (fileAt m data) len := by
  constructor
  · rintro ⟨r, hr⟩
    rw [loadPe_value] at hr
    split_ifs at hr with hmz hpehdr hpe
    exact ⟨not_not.mp hmz, not_lt.mp hpehdr, not_not.mp hpe⟩
  · intro h
    rw [loadPe_of_accepted h]
    exact loadImage_ok _ _ _

end Ntloader.Pe
