import Ntloader.Pe.Image

/-!
# The bytes that the PE loader reads

Of the offsets and lengths in a file, only that of the PE header is compared with the length of the
file.

* `sectionRounds` — the rounds of the loop over the sections.
* `ReadsFit` — what is read ends in front of the end of the file.
* `loadPe_within_iff` — a file that is accepted is read within its bounds iff that is so.
* `Destination.readsFit` — it is so for the files whose image `loadPe_image` describes.
-/

namespace Ntloader.Pe

open Ntloader.Lib Ntloader.Lib.Traced Ntloader.Posix

/-- The rounds of the loop over the sections: the offset of the section header, and the memory in
front of the round. -/
def sectionRounds (data base pehdr : ℕ) : ℕ → ℕ → ℕ → Mem → List (ℕ × Mem)
  | 0, _, _, _ => []
  | fuel + 1, i, section_, m =>
      if i < (fileAt m data).word (pehdr + 6) 2 then
        (section_, m) :: sectionRounds data base pehdr fuel (i + 1) (section_ + 40)
          (sectionLoaded data base section_ m).1
      else []

/-- What a round reads is in the file: the fields of the section header and, if there are any, the
raw data. -/
def SectionFits (data base len : ℕ) (r : ℕ × Mem) : Prop :=
  r.1 + 24 ≤ len ∧
    ((sectionAt (fileAt r.2 data) r.1).rawLen ≠ 0 →
      sectionRaw data base r.1 r.2 + (sectionAt (fileAt r.2 data) r.1).rawLen ≤ len)

/-- What is read is in the file. -/
structure ReadsFit (m : Mem) (data len : ℕ) : Prop where
  /-- The MZ header. -/
  mzHeader : 64 ≤ len
  /-- The PE header, without the last field. -/
  peHeader : pehdrOffset (fileAt m data) + 22 ≤ len
  /-- The optional header, up to the length of the headers. -/
  optionalHeader : opthdrOffset (fileAt m data) + 64 ≤ len
  /-- The headers that are copied. -/
  headers : headerLen (fileAt m data) ≤ len
  sections : ∀ r ∈ sectionRounds data (imageBase (fileAt m data)) (pehdrOffset (fileAt m data))
    (2 ^ 16) 0 (sectionTable (fileAt m data)) (headersLoaded m data),
    SectionFits data (imageBase (fileAt m data)) len r

variable {m : Mem} {data len base pehdr : ℕ}

/-- A section is read inside exactly if its header and its raw data are inside. -/
theorem loadSection_within_iff {section_ : ℕ} :
    Within len (loadSection data base section_ m) ↔ SectionFits data base len (section_, m) := by
  have hread : (4 : ℕ) ≠ 0 := by decide
  rw [loadSection, within_touch_bind_iff, within_read_bind_iff hread, within_read_bind_iff hread,
    within_read_bind_iff hread]
  dsimp only
  rw [within_read_bind_iff hread, within_touch_bind_iff]
  constructor
  · rintro ⟨-, -, -, -, hheader, hraw, -⟩
    exact ⟨hheader, hraw⟩
  · rintro ⟨hheader, hraw⟩
    dsimp only at hheader
    exact ⟨fun _ => by omega, by omega, by omega, by omega, hheader, hraw, within_pure _⟩

/-- The rounds of the loop read within bounds, and so does the test in front of each. -/
theorem loadSections_within_iff {fuel i section_ fin : ℕ} (hnum : pehdr + 8 ≤ len) :
    Within len (loadSections data base pehdr fuel i section_ m fin) ↔
      ∀ r ∈ sectionRounds data base pehdr fuel i section_ m, SectionFits data base len r := by
  induction fuel generalizing i section_ m fin with
  | zero => exact iff_of_true (within_pure _) (List.forall_mem_nil _)
  | succ fuel ih =>
      rw [loadSections, sectionRounds, within_read_bind_iff (by decide), and_iff_right (by omega)]
      by_cases hi : i < (fileAt m data).word (pehdr + 6) 2
      · rw [if_pos hi, if_pos hi, within_bind_iff (loadSection_value data base section_ m),
          loadSection_within_iff, List.forall_mem_cons]
        exact and_congr_right fun _ => ih
      · rw [if_neg hi, if_neg hi]
        exact iff_of_true (within_pure _) (List.forall_mem_nil _)

/-- The copy to the image reads the entry point in the optional header. -/
theorem loadCopy_within_iff {opthdr fin : ℕ} :
    Within len (loadCopy data len opthdr base fin m) ↔ opthdr + 36 ≤ len := by
  have hread : (4 : ℕ) ≠ 0 := by decide
  rw [loadCopy, within_read_bind_iff hread]
  dsimp only
  rw [within_touch_bind_iff, within_read_bind_iff hread]
  constructor
  · rintro ⟨halign, -⟩
    exact halign
  · intro halign
    exact ⟨halign, fun _ => by omega, by omega, within_pure _⟩

/-- The loading of an image reads within bounds. -/
theorem loadImage_within_iff (hmz : 64 ≤ len) :
    Within len (loadImage m data len (pehdrOffset (fileAt m data))) ↔ ReadsFit m data len := by
  have hread : (4 : ℕ) ≠ 0 := by decide
  obtain ⟨r, hr⟩ := loadSections_ok data (imageBase (fileAt m data)) (pehdrOffset (fileAt m data))
    (2 ^ 16) 0 (sectionTable (fileAt m data)) (headersLoaded m data)
    ((imageBase (fileAt m data) +
      (fileAt (headersLoaded m data) data).word (opthdrOffset (fileAt m data) + 60) 4) % 2 ^ 32)
  rw [loadImage]
  dsimp only
  rw [within_read_bind_iff hread, within_read_bind_iff (by decide), within_read_bind_iff hread,
    within_touch_bind_iff, within_read_bind_iff hread]
  rw [← opthdrOffset, ← imageBase, ← opthdrLen, ← headerLen, ← sectionTable, ← headersLoaded,
    within_bind_iff hr]
  constructor
  · rintro ⟨-, hlen, hopthdr, hheaders, -, hsections, -⟩
    rw [loadSections_within_iff (by omega)] at hsections
    refine ⟨hmz, hlen, hopthdr, ?_, hsections⟩
    omega
  · rintro ⟨-, hlen, hopthdr, hheaders, hsections⟩
    rw [loadSections_within_iff (by omega), loadCopy_within_iff]
    exact ⟨by omega, hlen, hopthdr, fun _ => by omega, hopthdr, hsections, by omega⟩

/-- A file that is accepted is read within its bounds iff what is read fits. -/
theorem loadPe_within_of_accepted (h : Accepted (fileAt m data) len) :
    Within len (loadPe m data len) ↔ ReadsFit m data len := by
  obtain ⟨hmagic, hpehdr, hpe⟩ := h
  rw [loadPe, within_read_bind_iff (by decide), within_refuse_bind_iff (not_not_intro hmagic),
    within_read_bind_iff (by decide), ← pehdrOffset,
    within_refuse_bind_iff (show ¬pehdrOffset (fileAt m data) > len from not_lt.mpr hpehdr),
    within_read_bind_iff (by decide), within_refuse_bind_iff (not_not_intro hpe)]
  constructor
  · rintro ⟨-, hmz, -, himage⟩
    exact (loadImage_within_iff hmz).mp himage
  · intro hfit
    have hmz := hfit.mzHeader
    have hpeHeader := hfit.peHeader
    exact ⟨by omega, hmz, by omega, (loadImage_within_iff hmz).mpr hfit⟩

/-- **The loader reads the file only**, when it returns 0, iff what it reads of a file that is
accepted ends in front of its end.
Source: libnt/peloader.c, load_pe -/
theorem loadPe_within_iff (m : Mem) (data len : ℕ) :
    ((∃ r, (loadPe m data len).value = .ok r) → Within len (loadPe m data len)) ↔
      (Accepted (fileAt m data) len → ReadsFit m data len) := by
  rw [loadPe_ok_iff]
  exact forall_congr' fun hacc => loadPe_within_of_accepted hacc

/-- The first 68 bytes of a file at 1 MB, up to the magic number of the PE header. -/
def truncatedFile : Mem :=
  ((Mem.zero.putWord 0x100000 2 mzHeaderMagic).putWord 0x10003c 4 0x40).putWord 0x100040 4
    peHeaderMagic

/-- The file is loaded, with an optional header that is read behind its end. -/
theorem loadPe_not_within :
    (∃ r, (loadPe truncatedFile 0x100000 0x44).value = .ok r) ∧
      ¬Within 0x44 (loadPe truncatedFile 0x100000 0x44) := by
  have hpehdr : pehdrOffset (fileAt truncatedFile 0x100000) = 0x40 := by decide +kernel
  have hacc : Accepted (fileAt truncatedFile 0x100000) 0x44 := by
    refine ⟨by decide +kernel, by omega, ?_⟩
    rw [hpehdr]
    decide +kernel
  refine ⟨loadPe_ok_iff.mpr hacc, fun hwithin => ?_⟩
  have hfit := ((loadPe_within_of_accepted hacc).mp hwithin).peHeader
  omega

/-! ## Well-formed files -/

/-- The rounds for a well-formed file read its section headers and raw data. -/
theorem sectionRounds_fit {m₀ : Mem} (h : Destination m₀ data len) {fuel i : ℕ}
    (hm : Loading m₀ data i m) :
    ∀ r ∈ sectionRounds data (imageBase (fileAt m₀ data)) (pehdrOffset (fileAt m₀ data)) fuel i
      (sectionTable (fileAt m₀ data) + 40 * i) m,
      SectionFits data (imageBase (fileAt m₀ data)) len r := by
  induction fuel generalizing i m with
  | zero => exact List.forall_mem_nil _
  | succ fuel ih =>
      have hheaders := h.wellFormed.headers_le
      have hnum : (fileAt m data).word (pehdrOffset (fileAt m₀ data) + 6) 2 =
          numSections (fileAt m₀ data) := h.word_eq hm.outside (by omega)
      rw [sectionRounds, hnum]
      by_cases hi : i < numSections (fileAt m₀ data)
      · rw [if_pos hi, List.forall_mem_cons]
        constructor
        · have htable := h.sectionTable_add_le hi
          rw [SectionFits, h.sectionAt_eq hm.outside hi, sectionRaw_eq h hm.outside hi]
          exact ⟨by omega, h.wellFormed.raw_le i hi⟩
        · rw [sectionLoaded_eq h hm.outside hi,
            show sectionTable (fileAt m₀ data) + 40 * i + 40 =
              sectionTable (fileAt m₀ data) + 40 * (i + 1) by omega]
          exact ih (hm.putSection h.wellFormed hi)
      · rw [if_neg hi]
        exact List.forall_mem_nil _

/-- A well-formed file that is loaded where there is room is read within its bounds. -/
theorem Destination.readsFit {m₀ : Mem} (h : Destination m₀ data len) : ReadsFit m₀ data len := by
  have hheaders := h.wellFormed.headers_le
  have hopthdr := h.opthdrOffset_eq
  refine ⟨by omega, by omega, by omega, h.wellFormed.headerLen_le, ?_⟩
  have hrounds := @sectionRounds_fit _ data len m₀ h (2 ^ 16) 0 (loading_headers h)
  rwa [Nat.mul_zero, Nat.add_zero] at hrounds

end Ntloader.Pe
