import Ntloader.Lib.Bits
import Ntloader.Pe.Loader

/-!
# The image of a PE file

In a well-formed file the sections lie one behind the other, each up to the next multiple of the
alignment. Nothing that is written then hits what has been written before.

* `roundUp`, `alignedLen_eq` — multiples of the alignment.
* `WellFormed` — what a file has to be like.
* `imageEnd` — where the sections end.
* `Loading`, `Loading.putSection` — what is in memory behind some of the sections.
* `loadPe_image` — what is in memory behind the call.
-/

namespace Ntloader.Pe

open Ntloader.Lib Ntloader.Lib.Traced Ntloader.Posix

/-! ## Multiples of the alignment -/

/-- The next multiple. -/
def roundUp (n align : ℕ) : ℕ := (n + align - 1) / align * align

/-- Rounding does not go down. -/
theorem le_roundUp {align : ℕ} (h : 0 < align) (n : ℕ) : n ≤ roundUp n align := by
  have hlt := Nat.lt_div_mul_add (a := n + align - 1) h
  rw [roundUp]
  omega

/-- Rounding behind a multiple of the alignment. -/
theorem roundUp_add_of_dvd {n k align : ℕ} (h : 0 < align) (hdvd : align ∣ k) :
    roundUp (k + n) align = k + roundUp n align := by
  obtain ⟨q, rfl⟩ := hdvd
  rw [roundUp, roundUp, show align * q + n + align - 1 = n + align - 1 + align * q by omega,
    Nat.add_mul_div_left _ _ h, Nat.add_mul, Nat.mul_comm q, Nat.add_comm]

/-- The mask gives the next multiple of a power of two. -/
theorem alignedLen_eq {n k : ℕ} (hk : k < 32) (h : roundUp n (2 ^ k) < 2 ^ 32) :
    alignedLen n (2 ^ k) = roundUp n (2 ^ k) := by
  have hpos : 0 < 2 ^ k := Nat.two_pow_pos k
  have hsplit : 2 ^ (32 - k) * 2 ^ k = 2 ^ 32 := by rw [← pow_add, Nat.sub_add_cancel hk.le]
  have hroom : roundUp n (2 ^ k) + 2 ^ k ≤ 2 ^ 32 := by
    rw [roundUp, ← Nat.succ_mul, ← hsplit]
    exact Nat.mul_le_mul_right _ (Nat.lt_of_mul_lt_mul_right (hsplit ▸ h))
  have hle := le_roundUp hpos n
  have hadd : (n + 2 ^ k + 2 ^ 32 - 1) % 2 ^ 32 = n + 2 ^ k - 1 := by
    rw [show n + 2 ^ k + 2 ^ 32 - 1 = n + 2 ^ k - 1 + 2 ^ 32 by omega, Nat.add_mod_right,
      Nat.mod_eq_of_lt (by omega)]
  have hmask : 2 ^ 32 - 1 - (2 ^ k + 2 ^ 32 - 1) % 2 ^ 32 = (2 ^ (32 - k) - 1) <<< k := by
    rw [show 2 ^ k + 2 ^ 32 - 1 = 2 ^ k - 1 + 2 ^ 32 by omega, Nat.add_mod_right,
      Nat.mod_eq_of_lt (by omega), Nat.shiftLeft_eq, Nat.sub_mul, hsplit]
    omega
  have hquot : (n + 2 ^ k - 1) / 2 ^ k < 2 ^ (32 - k) := by
    rw [Nat.div_lt_iff_lt_mul hpos, hsplit]
    omega
  rw [alignedLen, hadd, hmask, land_mask, Nat.mod_eq_of_lt hquot, Nat.shiftLeft_eq, roundUp]

/-! ## Well-formed files -/

/-- The `i`-th section header. -/
def section_ (file : Mem) (i : ℕ) : CoffSection := sectionAt file (sectionTable file + 40 * i)

/-- A file whose headers, section table and raw data are in the file, and whose sections lie one
behind the other, at multiples of a power of two. -/
structure WellFormed (file : Mem) (len : ℕ) : Prop where
  headers_le : pehdrOffset file + 24 + 64 ≤ len
  headerLen_le : headerLen file ≤ len
  table_le : ∀ i < numSections file, pehdrOffset file + 24 + opthdrLen file + 40 * (i + 1) ≤ len
  raw_le : ∀ i < numSections file, (section_ file i).rawLen ≠ 0 →
    (section_ file i).raw + (section_ file i).rawLen ≤ len
  align_pow : ∃ k, sectionAlign file = 2 ^ k
  /-- The sections are behind the headers. -/
  headerLen_le_virtual : ∀ i < numSections file, headerLen file ≤ (section_ file i).virtual
  align_dvd : ∀ i < numSections file, sectionAlign file ∣ (section_ file i).virtual
  /-- A section is behind the one in front of it. -/
  virtual_le : ∀ i, i + 1 < numSections file →
    (section_ file i).virtual + roundUp (section_ file i).virtualLen (sectionAlign file) ≤
      (section_ file (i + 1)).virtual
  /-- There is room for the raw data in front of the next section. -/
  rawLen_le : ∀ i < numSections file,
    (section_ file i).rawLen ≤ roundUp (section_ file i).virtualLen (sectionAlign file)

/-- Where the first sections end in the image, or the headers if there are none. -/
def memoryEnd (file : Mem) : ℕ → ℕ
  | 0 => headerLen file
  | i + 1 => (section_ file i).virtual + (section_ file i).virtualLen

/-- The section-aligned end of the last section. -/
def imageEnd (file : Mem) : ℕ := roundUp (memoryEnd file (numSections file)) (sectionAlign file)

namespace WellFormed

variable {file : Mem} {len : ℕ} (h : WellFormed file len)

include h

/-- The alignment of a well-formed file is positive. -/
theorem align_pos : 0 < sectionAlign file := by
  obtain ⟨k, hk⟩ := h.align_pow
  rw [hk]
  exact Nat.two_pow_pos k

/-- A section is behind all those in front of it. -/
theorem virtual_le_of_lt {k i : ℕ} (hki : k < i) (hi : i < numSections file) :
    (section_ file k).virtual + roundUp (section_ file k).virtualLen (sectionAlign file) ≤
      (section_ file i).virtual := by
  induction i with
  | zero => exact absurd hki (Nat.not_lt_zero k)
  | succ i ih =>
      have hlast := h.virtual_le i hi
      by_cases hk : k = i
      · rw [hk]
        exact hlast
      · have hprev := ih (by omega) (by omega)
        omega

/-- The end of the sections grows. -/
theorem memoryEnd_le_virtual {i : ℕ} (hi : i < numSections file) :
    memoryEnd file i ≤ (section_ file i).virtual := by
  cases i with
  | zero => exact h.headerLen_le_virtual 0 hi
  | succ i =>
      have hround := le_roundUp h.align_pos (section_ file i).virtualLen
      have hnext := h.virtual_le i hi
      rw [memoryEnd]
      omega

/-- The image has room for the headers. -/
theorem headerLen_le_imageEnd : headerLen file ≤ imageEnd file := by
  have hround := le_roundUp h.align_pos (memoryEnd file (numSections file))
  refine le_trans ?_ hround
  generalize hn : numSections file = n
  cases n with
  | zero => exact le_rfl
  | succ n =>
      have hlast := h.headerLen_le_virtual n (by omega)
      rw [memoryEnd]
      omega

/-- A section ends in the image, with its padding. -/
theorem section_le_imageEnd {i : ℕ} (hi : i < numSections file) :
    (section_ file i).virtual + roundUp (section_ file i).virtualLen (sectionAlign file) ≤
      imageEnd file := by
  rw [imageEnd]
  generalize hn : numSections file = n
  rw [hn] at hi
  cases n with
  | zero => exact absurd hi (Nat.not_lt_zero i)
  | succ n =>
      rw [memoryEnd, roundUp_add_of_dvd h.align_pos (h.align_dvd n (by omega))]
      by_cases hin : i = n
      · rw [hin]
      · have hlast := h.virtual_le_of_lt (show i < n by omega) (by omega)
        omega

end WellFormed

/-! ## A section -/

/-- A well-formed file in memory, and its image and the copy behind that are not where it is. -/
structure Loadable (m : Mem) (data len : ℕ) : Prop where
  file_le : data + len ≤ 2 ^ 32
  wellFormed : WellFormed (fileAt m data) len
  disjoint : ∀ j < imageEnd (fileAt m data) + len,
    (imageBase (fileAt m data) + j) % 2 ^ 32 < data ∨
      data + len ≤ (imageBase (fileAt m data) + j) % 2 ^ 32

/-- The image and the copy end at 4 GB at most. -/
structure Destination (m : Mem) (data len : ℕ) : Prop extends Loadable m data len where
  end_le : imageBase (fileAt m data) + imageEnd (fileAt m data) + len ≤ 2 ^ 32

/-- A section is in memory: its raw data, and zeros behind them. -/
structure SectionAt (m file : Mem) (address : ℕ) (s : CoffSection) : Prop where
  raw_eq : ∀ j < s.rawLen, m (address + j) = file (s.raw + j)
  zero_eq : ∀ j, s.rawLen ≤ j → j < s.virtualLen → m (address + j) = 0

/-- An address is outside the image. -/
def OutsideImage (file : Mem) (x : ℕ) : Prop :=
  x < imageBase file ∨ imageBase file + imageEnd file ≤ x

/-- What is in memory behind the headers and the first `i` sections. -/
structure Loading (m₀ : Mem) (data : ℕ) (i : ℕ) (m : Mem) : Prop where
  /-- Nothing outside the image is written. -/
  outside : ∀ x, OutsideImage (fileAt m₀ data) x → m x = m₀ x
  headers : ∀ j < headerLen (fileAt m₀ data), m (imageBase (fileAt m₀ data) + j) = fileAt m₀ data j
  sections : ∀ k < i, SectionAt m (fileAt m₀ data)
    (imageBase (fileAt m₀ data) + (section_ (fileAt m₀ data) k).virtual) (section_ (fileAt m₀ data) k)

variable {m₀ m : Mem} {data len i : ℕ}

namespace Destination

variable (h : Destination m₀ data len)

include h

/-- Image and file are one behind the other. -/
theorem disjoint_runs :
    imageBase (fileAt m₀ data) + imageEnd (fileAt m₀ data) + len ≤ data ∨
      data + len ≤ imageBase (fileAt m₀ data) := by
  have hend := h.end_le
  have hfile := h.file_le
  have hlen := h.wellFormed.headers_le
  by_contra hover
  rw [not_or, not_le, not_le] at hover
  -- The higher of the two starts is in both.
  have hmeet := h.disjoint (max (imageBase (fileAt m₀ data)) data - imageBase (fileAt m₀ data))
    (by omega)
  rw [Nat.mod_eq_of_lt (by omega)] at hmeet
  omega

/-- The file is outside the image. -/
theorem outsideImage_file {offset : ℕ} (hoffset : offset < len) :
    OutsideImage (fileAt m₀ data) (data + offset) := by
  have hdisj := h.disjoint_runs
  unfold OutsideImage
  omega

/-- A byte of the file is one of the memory. -/
theorem fileAt_of_lt (m : Mem) {offset : ℕ} (hoffset : offset < len) :
    fileAt m data offset = m (data + offset) := by
  have hfile := h.file_le
  rw [fileAt, Nat.mod_eq_of_lt (by omega)]

/-- Writes to the image leave the file. -/
theorem fileAt_eq (hout : ∀ x, OutsideImage (fileAt m₀ data) x → m x = m₀ x) {offset : ℕ}
    (hoffset : offset < len) : fileAt m data offset = fileAt m₀ data offset := by
  rw [h.fileAt_of_lt m hoffset, h.fileAt_of_lt m₀ hoffset]
  exact hout _ (h.outsideImage_file hoffset)

/-- What is outside the image keeps the words of the file. -/
theorem word_eq (hout : ∀ x, OutsideImage (fileAt m₀ data) x → m x = m₀ x) {offset n : ℕ}
    (hoffset : offset + n ≤ len) : (fileAt m data).word offset n = (fileAt m₀ data).word offset n :=
  Mem.word_congr fun _ hi => h.fileAt_eq hout (by omega)

/-- Bytes of the file are copied to the image. -/
theorem memcpy_eq (hout : ∀ x, OutsideImage (fileAt m₀ data) x → m x = m₀ x) {dest raw n : ℕ}
    (hdest : imageBase (fileAt m₀ data) ≤ dest)
    (hdest' : dest + n ≤ imageBase (fileAt m₀ data) + imageEnd (fileAt m₀ data) + len)
    (hraw : n ≠ 0 → raw + n ≤ len) :
    memcpy m dest ((data + raw) % 2 ^ 32) n = m.copy dest (fileAt m₀ data) raw n := by
  have hfile := h.file_le
  have hend := h.end_le
  have hdisj := h.disjoint_runs
  by_cases hn : n = 0
  · rw [hn, Mem.copy_zero]
    rfl
  · have hraw' := hraw hn
    rw [Nat.mod_eq_of_lt (by omega), memcpy_eq_copy m (by omega) (by omega) (by omega)]
    refine Mem.copy_congr _ _ fun i hi => ?_
    rw [h.fileAt_of_lt m₀ (show raw + i < len by omega), Nat.add_assoc]
    exact hout _ (h.outsideImage_file (by omega))

/-- The optional header stands behind the header of the file. -/
theorem opthdrOffset_eq : opthdrOffset (fileAt m₀ data) = pehdrOffset (fileAt m₀ data) + 24 := by
  have hfile := h.file_le
  have hheaders := h.wellFormed.headers_le
  exact Nat.mod_eq_of_lt (by omega)

/-- A section header is in the file. -/
theorem sectionTable_add_le (hi : i < numSections (fileAt m₀ data)) :
    sectionTable (fileAt m₀ data) + 40 * (i + 1) ≤ len := by
  have hfile := h.file_le
  have htable := h.wellFormed.table_le i hi
  rw [sectionTable, h.opthdrOffset_eq, Nat.mod_eq_of_lt (by omega)]
  exact htable

/-- A section header is read as it is in the file. -/
theorem sectionAt_eq (hout : ∀ x, OutsideImage (fileAt m₀ data) x → m x = m₀ x)
    (hi : i < numSections (fileAt m₀ data)) :
    sectionAt (fileAt m data) (sectionTable (fileAt m₀ data) + 40 * i) =
      section_ (fileAt m₀ data) i := by
  have htable := h.sectionTable_add_le hi
  rw [section_, sectionAt, sectionAt, h.word_eq hout (by omega), h.word_eq hout (by omega),
    h.word_eq hout (by omega), h.word_eq hout (by omega)]

end Destination

/-! ## The loop over the sections -/

/-- Where a section goes. -/
def sectionBase (file : Mem) (i : ℕ) : ℕ := imageBase file + (section_ file i).virtual

/-- What is written for a section. -/
def putSection (m file : Mem) (i : ℕ) : Mem :=
  (m.fill (sectionBase file i) 0 (section_ file i).virtualLen).copy (sectionBase file i) file
    (section_ file i).raw (section_ file i).rawLen

/-- A section is in the image. -/
theorem sectionBase_add_le (h : WellFormed (fileAt m₀ data) len) (hi : i < numSections (fileAt m₀ data)) :
    sectionBase (fileAt m₀ data) i + (section_ (fileAt m₀ data) i).virtualLen ≤
        imageBase (fileAt m₀ data) + imageEnd (fileAt m₀ data) ∧
      sectionBase (fileAt m₀ data) i + (section_ (fileAt m₀ data) i).rawLen ≤
        imageBase (fileAt m₀ data) + imageEnd (fileAt m₀ data) := by
  have hround := le_roundUp h.align_pos (section_ (fileAt m₀ data) i).virtualLen
  have hraw := h.rawLen_le i hi
  have hend := h.section_le_imageEnd hi
  rw [sectionBase]
  omega

/-- Nothing outside the image is written for a section. -/
theorem putSection_outside (h : WellFormed (fileAt m₀ data) len)
    (hi : i < numSections (fileAt m₀ data)) {x : ℕ} (hx : OutsideImage (fileAt m₀ data) x) :
    putSection m (fileAt m₀ data) i x = m x := by
  obtain ⟨hvirtual, hraw⟩ := sectionBase_add_le h hi
  have hbase : imageBase (fileAt m₀ data) ≤ sectionBase (fileAt m₀ data) i := Nat.le_add_right _ _
  unfold OutsideImage at hx
  rw [putSection, Mem.copy_of_not_mem _ _ _ (by omega), Mem.fill_apply, if_neg (by omega)]

/-- Nothing outside the image is cleared for a section. -/
theorem fill_outside (h : WellFormed (fileAt m₀ data) len)
    (hout : ∀ x, OutsideImage (fileAt m₀ data) x → m x = m₀ x)
    (hi : i < numSections (fileAt m₀ data)) {x : ℕ} (hx : OutsideImage (fileAt m₀ data) x) :
    m.fill (sectionBase (fileAt m₀ data) i) 0 (section_ (fileAt m₀ data) i).virtualLen x = m₀ x := by
  have hvirtual := (sectionBase_add_le h hi).1
  have hbase : imageBase (fileAt m₀ data) ≤ sectionBase (fileAt m₀ data) i := Nat.le_add_right _ _
  rw [← hout x hx, Mem.fill_apply]
  unfold OutsideImage at hx
  exact if_neg (by omega)

/-- A section is cleared where it belongs, -/
theorem sectionCleared_eq (h : Destination m₀ data len)
    (hout : ∀ x, OutsideImage (fileAt m₀ data) x → m x = m₀ x)
    (hi : i < numSections (fileAt m₀ data)) :
    sectionCleared data (imageBase (fileAt m₀ data)) (sectionTable (fileAt m₀ data) + 40 * i) m =
      m.fill (sectionBase (fileAt m₀ data) i) 0 (section_ (fileAt m₀ data) i).virtualLen := by
  have hvirtual := (sectionBase_add_le h.wellFormed hi).1
  have hend := h.end_le
  have hlen := h.wellFormed.headers_le
  rw [sectionCleared, h.sectionAt_eq hout hi, ← sectionBase, Nat.mod_eq_of_lt (by omega),
    memset_eq_fill m 0 (by omega)]

/-- its raw data is found in the file, -/
theorem sectionRaw_eq (h : Destination m₀ data len)
    (hout : ∀ x, OutsideImage (fileAt m₀ data) x → m x = m₀ x)
    (hi : i < numSections (fileAt m₀ data)) :
    sectionRaw data (imageBase (fileAt m₀ data)) (sectionTable (fileAt m₀ data) + 40 * i) m =
      (section_ (fileAt m₀ data) i).raw := by
  rw [sectionRaw, sectionCleared_eq h hout hi,
    h.sectionAt_eq (fun _ hx => fill_outside h.wellFormed hout hi hx) hi]

/-- and it is loaded as the file states. -/
theorem sectionLoaded_eq (h : Destination m₀ data len)
    (hout : ∀ x, OutsideImage (fileAt m₀ data) x → m x = m₀ x)
    (hi : i < numSections (fileAt m₀ data)) :
    sectionLoaded data (imageBase (fileAt m₀ data)) (sectionTable (fileAt m₀ data) + 40 * i) m =
      (putSection m (fileAt m₀ data) i,
        imageBase (fileAt m₀ data) + memoryEnd (fileAt m₀ data) (i + 1)) := by
  obtain ⟨hvirtual, hraw⟩ := sectionBase_add_le h.wellFormed hi
  have hend := h.end_le
  have hlen := h.wellFormed.headers_le
  have hbase : imageBase (fileAt m₀ data) ≤ sectionBase (fileAt m₀ data) i := Nat.le_add_right _ _
  rw [sectionLoaded, sectionCleared_eq h hout hi, sectionRaw_eq h hout hi, h.sectionAt_eq hout hi,
    ← sectionBase, Nat.mod_eq_of_lt (show sectionBase (fileAt m₀ data) i < 2 ^ 32 by omega),
    h.memcpy_eq (fun _ hx => fill_outside h.wellFormed hout hi hx) hbase (by omega)
      (h.wellFormed.raw_le i hi),
    Nat.mod_eq_of_lt (by omega), putSection, memoryEnd, sectionBase, Nat.add_assoc]

/-- A section is put in memory, and what is in front of it is kept. -/
theorem Loading.putSection (h : WellFormed (fileAt m₀ data) len) (hm : Loading m₀ data i m)
    (hi : i < numSections (fileAt m₀ data)) :
    Loading m₀ data (i + 1) (putSection m (fileAt m₀ data) i) := by
  have hround := le_roundUp h.align_pos (section_ (fileAt m₀ data) i).virtualLen
  have hkeep : ∀ x < sectionBase (fileAt m₀ data) i, Pe.putSection m (fileAt m₀ data) i x = m x := by
    intro x hx
    rw [Pe.putSection, Mem.copy_of_not_mem _ _ _ (Or.inl hx), Mem.fill_apply, if_neg (by omega)]
  refine ⟨fun x hx => ?_, fun j hj => ?_, fun k hk => ?_⟩
  · rw [putSection_outside h hi hx, hm.outside x hx]
  · have hbehind := h.headerLen_le_virtual i hi
    rw [hkeep _ (by rw [sectionBase]; omega), hm.headers j hj]
  · by_cases hki : k = i
    · rw [hki]
      refine ⟨fun j hj => ?_, fun j hlow hhigh => ?_⟩
      · rw [Pe.putSection, ← sectionBase, Mem.copy_of_mem _ _ _ (by omega) (by omega)]
        congr 1
        omega
      · rw [Pe.putSection, ← sectionBase, Mem.copy_of_not_mem _ _ _ (by omega), Mem.fill_apply,
          if_pos (by omega)]
    · have hprev := h.virtual_le_of_lt (show k < i by omega) hi
      have hraw := h.rawLen_le k (by omega)
      have hvirtual := le_roundUp h.align_pos (section_ (fileAt m₀ data) k).virtualLen
      obtain ⟨hrawEq, hzero⟩ := hm.sections k (by omega)
      refine ⟨fun j hj => ?_, fun j hlow hhigh => ?_⟩
      · rw [hkeep _ (by rw [sectionBase]; omega), hrawEq j hj]
      · rw [hkeep _ (by rw [sectionBase]; omega), hzero j hlow hhigh]

/-- The loop over the sections puts all of them in memory. -/
theorem loadSections_value (h : Destination m₀ data len) (hm : Loading m₀ data i m) {fuel : ℕ}
    (hfuel : numSections (fileAt m₀ data) - i < fuel) (hi : i ≤ numSections (fileAt m₀ data)) :
    ∃ m', (loadSections data (imageBase (fileAt m₀ data)) (pehdrOffset (fileAt m₀ data)) fuel i
        (sectionTable (fileAt m₀ data) + 40 * i) m
        (imageBase (fileAt m₀ data) + memoryEnd (fileAt m₀ data) i)).value =
        .ok (m', imageBase (fileAt m₀ data) +
          memoryEnd (fileAt m₀ data) (numSections (fileAt m₀ data))) ∧
      Loading m₀ data (numSections (fileAt m₀ data)) m' := by
  induction fuel generalizing i m with
  | zero => exact absurd hfuel (Nat.not_lt_zero _)
  | succ fuel ih =>
      have hheaders := h.wellFormed.headers_le
      have hnum : (fileAt m data).word (pehdrOffset (fileAt m₀ data) + 6) 2 =
          numSections (fileAt m₀ data) := h.word_eq hm.outside (by omega)
      rw [loadSections_succ_value, hnum]
      by_cases hlast : i < numSections (fileAt m₀ data)
      · rw [if_pos hlast, sectionLoaded_eq h hm.outside hlast]
        have hgrow := h.wellFormed.memoryEnd_le_virtual hlast
        have hfin : (if imageBase (fileAt m₀ data) + memoryEnd (fileAt m₀ data) i <
            imageBase (fileAt m₀ data) + memoryEnd (fileAt m₀ data) (i + 1) then
            imageBase (fileAt m₀ data) + memoryEnd (fileAt m₀ data) (i + 1)
            else imageBase (fileAt m₀ data) + memoryEnd (fileAt m₀ data) i) =
            imageBase (fileAt m₀ data) + memoryEnd (fileAt m₀ data) (i + 1) := by
          rw [memoryEnd]
          split_ifs <;> omega
        dsimp only
        rw [hfin, show sectionTable (fileAt m₀ data) + 40 * i + 40 =
          sectionTable (fileAt m₀ data) + 40 * (i + 1) by omega]
        exact ih (hm.putSection h.wellFormed hlast) (by omega) hlast
      · have hdone : i = numSections (fileAt m₀ data) := by omega
        rw [if_neg hlast, ← hdone]
        exact ⟨m, rfl, hm⟩

/-! ## The whole image -/

/-- What is in memory behind the call, and what is said of it. -/
structure IsImage (file : Mem) (len : ℕ) (m : Mem) (pe : LoadedPe) : Prop where
  headers : ∀ j < headerLen file, m (imageBase file + j) = file j
  sections : ∀ i < numSections file, SectionAt m file (sectionBase file i) (section_ file i)
  /-- The copy of the file. -/
  copy : ∀ j < len, m (imageBase file + imageEnd file + j) = file j
  base_eq : pe.base = imageBase file
  len_eq : pe.len = imageEnd file + len
  entry_eq : pe.entry = (imageBase file + entryPoint file) % 2 ^ 32

/-- The headers are put in memory. -/
theorem loading_headers (h : Destination m₀ data len) : Loading m₀ data 0 (headersLoaded m₀ data) := by
  have hheaders := h.wellFormed.headers_le
  have hfile := h.file_le
  have hend := h.wellFormed.headerLen_le_imageEnd
  have hdata : (data + 0) % 2 ^ 32 = data := Nat.mod_eq_of_lt (by omega)
  have hcopy := h.memcpy_eq (fun _ _ => rfl) (le_refl (imageBase (fileAt m₀ data)))
    (show imageBase (fileAt m₀ data) + headerLen (fileAt m₀ data) ≤ _ by omega)
    fun _ => (Nat.zero_add _).trans_le h.wellFormed.headerLen_le
  rw [hdata] at hcopy
  rw [headersLoaded, hcopy]
  refine ⟨fun x hx => ?_, fun j hj => ?_, nofun⟩
  · unfold OutsideImage at hx
    exact Mem.copy_of_not_mem _ _ _ (by omega)
  · rw [Mem.copy_of_mem _ _ _ (by omega) (by omega)]
    congr 1
    omega

/-- The copy of the file is put behind the sections. -/
theorem loadCopy_value (h : Destination m₀ data len) (hm : Loading m₀ data i m) :
    (loadCopy data len (opthdrOffset (fileAt m₀ data)) (imageBase (fileAt m₀ data))
        (imageBase (fileAt m₀ data) + memoryEnd (fileAt m₀ data) (numSections (fileAt m₀ data))) m).value =
      .ok (m.copy (imageBase (fileAt m₀ data) + imageEnd (fileAt m₀ data)) (fileAt m₀ data) 0 len,
        ⟨imageBase (fileAt m₀ data), imageEnd (fileAt m₀ data) + len,
          (imageBase (fileAt m₀ data) + entryPoint (fileAt m₀ data)) % 2 ^ 32⟩) := by
  have hheaders := h.wellFormed.headers_le
  have hfile := h.file_le
  have hend := h.end_le
  have hopthdr := h.opthdrOffset_eq
  have hmemory : memoryEnd (fileAt m₀ data) (numSections (fileAt m₀ data)) ≤
      imageEnd (fileAt m₀ data) := le_roundUp h.wellFormed.align_pos _
  have hdisj := h.disjoint_runs
  have hdata : (data + 0) % 2 ^ 32 = data := Nat.mod_eq_of_lt (by omega)
  -- The length from the base is that from 0, and is aligned.
  have hlen : (imageBase (fileAt m₀ data) +
      memoryEnd (fileAt m₀ data) (numSections (fileAt m₀ data)) + 2 ^ 32 -
      imageBase (fileAt m₀ data)) % 2 ^ 32 =
      memoryEnd (fileAt m₀ data) (numSections (fileAt m₀ data)) := by omega
  have halign : alignedLen (memoryEnd (fileAt m₀ data) (numSections (fileAt m₀ data)))
      ((fileAt m data).word (opthdrOffset (fileAt m₀ data) + 32) 4) = imageEnd (fileAt m₀ data) := by
    obtain ⟨k, hk⟩ := h.wellFormed.align_pow
    have hlt : sectionAlign (fileAt m₀ data) < 2 ^ 32 := Mem.word_lt _ _ 4
    rw [hk] at hlt
    have hlt' : roundUp (memoryEnd (fileAt m₀ data) (numSections (fileAt m₀ data))) (2 ^ k) < 2 ^ 32 := by
      rw [← hk, ← imageEnd]
      omega
    rw [h.word_eq hm.outside (by omega), ← sectionAlign, hk,
      alignedLen_eq ((Nat.pow_lt_pow_iff_right (by norm_num)).mp hlt) hlt', imageEnd, hk]
  have hcopy := h.memcpy_eq hm.outside
    (show imageBase (fileAt m₀ data) ≤ imageBase (fileAt m₀ data) + imageEnd (fileAt m₀ data) by omega)
    le_rfl fun _ => (Nat.zero_add len).le
  rw [hdata] at hcopy
  rw [loadCopy, value_read_bind]
  dsimp only
  rw [value_touch_bind, value_read_bind, hlen, halign,
    Nat.mod_eq_of_lt (show imageBase (fileAt m₀ data) + imageEnd (fileAt m₀ data) < 2 ^ 32 by omega),
    hcopy, Nat.mod_eq_of_lt (show imageEnd (fileAt m₀ data) + len < 2 ^ 32 by omega)]
  have hentry : (fileAt (m.copy (imageBase (fileAt m₀ data) + imageEnd (fileAt m₀ data))
      (fileAt m₀ data) 0 len) data).word (opthdrOffset (fileAt m₀ data) + 16) 4 =
      entryPoint (fileAt m₀ data) := by
    refine Mem.word_congr fun j hj => ?_
    have hoffset : opthdrOffset (fileAt m₀ data) + 16 + j < len := by omega
    rw [h.fileAt_of_lt _ hoffset, Mem.copy_of_not_mem _ _ _ (by omega),
      ← h.fileAt_of_lt m hoffset, h.fileAt_eq hm.outside hoffset]
  rw [hentry]
  rfl

/-- **The image of a PE file.** If there is room below 4 GB, the headers, the sections and a copy of
the file are in memory.
Source: libnt/peloader.c, load_pe -/
theorem loadPe_image {m₀ m : Mem} {data len : ℕ} {pe : LoadedPe} (hloadable : Loadable m₀ data len)
    (hroom : imageBase (fileAt m₀ data) + imageEnd (fileAt m₀ data) + len ≤ 2 ^ 32)
    (hload : (loadPe m₀ data len).value = .ok (m, pe)) : IsImage (fileAt m₀ data) len m pe := by
  have h : Destination m₀ data len := ⟨hloadable, hroom⟩
  have hheaders := h.wellFormed.headers_le
  have hend := h.end_le
  have hheaderEnd := h.wellFormed.headerLen_le_imageEnd
  have hstart := loading_headers h
  have hheaderLen : (fileAt (headersLoaded m₀ data) data).word (opthdrOffset (fileAt m₀ data) + 60) 4 =
      headerLen (fileAt m₀ data) := by
    have hopthdr := h.opthdrOffset_eq
    exact h.word_eq hstart.outside (by omega)
  have hnum : numSections (fileAt m₀ data) - 0 < 2 ^ 16 := Mem.word_lt _ _ 2
  obtain ⟨m', hsections, hm'⟩ := loadSections_value h hstart hnum (Nat.zero_le _)
  rw [loadPe_of_accepted (loadPe_ok_iff.mp ⟨_, hload⟩), loadImage_value, hheaderLen,
    Nat.mod_eq_of_lt (by omega)] at hload
  rw [memoryEnd, Nat.mul_zero, Nat.add_zero] at hsections
  rw [value_bind_of_ok hsections] at hload
  dsimp only at hload
  rw [loadCopy_value h hm'] at hload
  obtain ⟨rfl, rfl⟩ := Prod.mk.inj (Except.ok.inj hload)
  have hkeep : ∀ x < imageBase (fileAt m₀ data) + imageEnd (fileAt m₀ data),
      m'.copy (imageBase (fileAt m₀ data) + imageEnd (fileAt m₀ data)) (fileAt m₀ data) 0 len x =
        m' x := fun x hx => Mem.copy_of_not_mem _ _ _ (Or.inl hx)
  refine ⟨fun j hj => ?_, fun i hi => ?_, fun j hj => ?_, rfl, rfl, rfl⟩
  · rw [hkeep _ (by omega), hm'.headers j hj]
  · obtain ⟨hvirtual, hraw⟩ := sectionBase_add_le h.wellFormed hi
    obtain ⟨hrawEq, hzero⟩ := hm'.sections i hi
    refine ⟨fun j hj => ?_, fun j hlow hhigh => ?_⟩
    · rw [hkeep _ (by omega)]
      exact hrawEq j hj
    · rw [hkeep _ (by omega)]
      exact hzero j hlow hhigh
  · rw [Mem.copy_of_mem _ _ _ (by omega) (by omega), Nat.zero_add, Nat.add_sub_cancel_left]

/-! ## A file with a section -/

/-- A file at 1 MB: headers of two bytes, and a section of one byte at the first multiple of 4096. -/
def sampleFile (base : ℕ) : Mem :=
  ((((((((((Mem.zero.putWord 0x100000 2 mzHeaderMagic).putWord 0x10003c 4 0x40).putWord 0x100040 4
    peHeaderMagic).putWord 0x100046 2 1).putWord 0x100054 2 64).putWord 0x100074 4 base).putWord
    0x100078 4 0x1000).putWord 0x100094 4 2).putWord 0x1000a0 4 1).putWord 0x1000a4 4 0x1000).putWord
    0x1000a8 4 1

/-- The file is in memory with an image base in the middle of the address space, or near its end. -/
theorem sampleFile_fields : ∀ base ∈ [0x400000, 0xfffff000],
    Accepted (fileAt (sampleFile base) 0x100000) 0xc0 ∧
    pehdrOffset (fileAt (sampleFile base) 0x100000) = 0x40 ∧
    opthdrLen (fileAt (sampleFile base) 0x100000) = 64 ∧
    numSections (fileAt (sampleFile base) 0x100000) = 1 ∧
    imageBase (fileAt (sampleFile base) 0x100000) = base ∧
    sectionAlign (fileAt (sampleFile base) 0x100000) = 2 ^ 12 ∧
    headerLen (fileAt (sampleFile base) 0x100000) = 2 ∧
    section_ (fileAt (sampleFile base) 0x100000) 0 = ⟨1, 0x1000, 1, 0⟩ := by
  unfold Accepted
  decide +kernel

/-- The image of a file with one section, at the first multiple of 4096. -/
theorem imageEnd_of_oneSection {file : Mem} (hnum : numSections file = 1)
    (halign : sectionAlign file = 2 ^ 12) (hsection : section_ file 0 = ⟨1, 0x1000, 1, 0⟩) :
    imageEnd file = 0x2000 := by
  rw [imageEnd, hnum, halign, memoryEnd, hsection]
  decide

/-- A small file of one section is well formed. -/
theorem wellFormed_of_oneSection {file : Mem} (hpehdr : pehdrOffset file = 0x40)
    (hopthdr : opthdrLen file = 64) (hnum : numSections file = 1)
    (halign : sectionAlign file = 2 ^ 12) (hheader : headerLen file = 2)
    (hsection : section_ file 0 = ⟨1, 0x1000, 1, 0⟩) : WellFormed file 0xc0 := by
  have hfirst {i : ℕ} (hi : i < numSections file) : i = 0 := by
    rw [hnum] at hi
    exact Nat.lt_one_iff.mp hi
  refine ⟨by omega, by omega, fun i hi => by omega, fun i hi _ => ?_, ⟨12, halign⟩, fun i hi => ?_,
    fun i hi => ?_, fun i hi => by omega, fun i hi => ?_⟩
  · rw [hfirst hi, hsection]
    decide
  · rw [hfirst hi, hsection, hheader]
    decide
  · rw [hfirst hi, hsection, halign]
    decide
  · rw [hfirst hi, hsection, halign]
    decide

/-- The image of the sample file ends behind its section. -/
theorem sampleFile_imageEnd {base : ℕ} (hbase : base ∈ [0x400000, 0xfffff000]) :
    imageEnd (fileAt (sampleFile base) 0x100000) = 0x2000 := by
  obtain ⟨-, -, -, hnum, -, halign, -, hsection⟩ := sampleFile_fields base hbase
  exact imageEnd_of_oneSection hnum halign hsection

/-- The sample file is well formed, wherever its base is, -/
theorem sampleFile_wellFormed {base : ℕ} (hbase : base ∈ [0x400000, 0xfffff000]) :
    WellFormed (fileAt (sampleFile base) 0x100000) 0xc0 := by
  obtain ⟨-, hpehdr, hopthdr, hnum, -, halign, hheader, hsection⟩ := sampleFile_fields base hbase
  exact wellFormed_of_oneSection hpehdr hopthdr hnum halign hheader hsection

/-- and it can be loaded. -/
theorem sampleFile_loadable {base : ℕ} (hbase : base ∈ [0x400000, 0xfffff000]) :
    Loadable (sampleFile base) 0x100000 0xc0 := by
  have himage := (sampleFile_fields base hbase).2.2.2.2.1
  refine ⟨by decide, sampleFile_wellFormed hbase, fun j hj => ?_⟩
  rw [sampleFile_imageEnd hbase] at hj
  rw [himage]
  simp only [List.mem_cons, List.not_mem_nil, or_false] at hbase
  omega

/-- The file is loaded at 4 MB. -/
theorem loadPe_image_sample :
    ∃ m pe, (loadPe (sampleFile 0x400000) 0x100000 0xc0).value = .ok (m, pe) ∧
      IsImage (fileAt (sampleFile 0x400000) 0x100000) 0xc0 m pe := by
  have hbase : 0x400000 ∈ [0x400000, 0xfffff000] := List.mem_cons_self
  obtain ⟨hacc, -, -, -, himage, -⟩ := sampleFile_fields 0x400000 hbase
  obtain ⟨⟨m, pe⟩, hload⟩ := loadPe_ok_iff.mpr hacc
  refine ⟨m, pe, hload, loadPe_image (sampleFile_loadable hbase) ?_ hload⟩
  rw [himage, sampleFile_imageEnd hbase]
  decide

/-- An image that begins 4096 bytes below 4 GB wraps: the end of its section is below the end of the
headers, and the length that is given ends with the headers. -/
theorem loadPe_not_image :
    Loadable (sampleFile 0xfffff000) 0x100000 0xc0 ∧
      ∃ m pe, (loadPe (sampleFile 0xfffff000) 0x100000 0xc0).value = .ok (m, pe) ∧
        ¬IsImage (fileAt (sampleFile 0xfffff000) 0x100000) 0xc0 m pe := by
  have hbase : 0xfffff000 ∈ [0x400000, 0xfffff000] := List.mem_cons_of_mem _ List.mem_cons_self
  have hrun : (loadPe (sampleFile 0xfffff000) 0x100000 0xc0).value.toOption.map (fun r => r.2.len) =
      some 0x10c0 := by
    decide +kernel
  refine ⟨sampleFile_loadable hbase, ?_⟩
  obtain ⟨⟨m, pe⟩, hload⟩ := loadPe_ok_iff.mpr (sampleFile_fields 0xfffff000 hbase).1
  refine ⟨m, pe, hload, fun himage => ?_⟩
  have hlen := himage.len_eq
  rw [hload] at hrun
  have hshort : pe.len = 0x10c0 := Option.some.inj hrun
  rw [sampleFile_imageEnd hbase, hshort] at hlen
  exact absurd hlen (by decide)

end Ntloader.Pe
