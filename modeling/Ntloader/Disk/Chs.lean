import Ntloader.Disk.Biosdisk
import Ntloader.Lib.Bits

/-!
# Cylinders, heads and sectors

A sector that is read without the extensions is given to the BIOS as a cylinder, a head and a sector.
The registers have 10 bits for the cylinder.

* `StandsFor` — the sector that registers stand for.
* `rwStdTries_calls` — the calls of a read.
* `chs_iff` — when the calls stand for the sector that is read.
-/

namespace Ntloader.Disk

open Ntloader.Lib

variable {σ : Type}

/-! ## The registers -/

/-- The function of a call, in %ah. -/
def biosFunction (regs : Params) : ℕ := (regs.eax >>> 8) &&& 0xff

/-- The cylinder that the BIOS takes from %ch and %cl. -/
def biosCylinder (regs : Params) : ℕ :=
  ((regs.ecx >>> 8) &&& 0xff) ||| (((regs.ecx >>> 6) &&& 0x3) <<< 8)

/-- The head that the BIOS takes from %dh. -/
def biosHead (regs : Params) : ℕ := (regs.edx >>> 8) &&& 0xff

/-- The sector of the track that the BIOS takes from %cl; the first one is 1. -/
def biosSector (regs : Params) : ℕ := regs.ecx &&& 0x3f

/-- On a disk of a geometry, the registers stand for a sector. -/
def StandsFor (data : BiosdiskData) (regs : Params) (sector : ℕ) : Prop :=
  (biosCylinder regs * data.heads + biosHead regs) * data.sectors + biosSector regs = sector + 1

section registers

variable (ah drive coff hoff soff nsec segment : ℕ)

/-- The register with the cylinder and the sector. -/
theorem rwStdParams_ecx :
    (rwStdParams ah drive coff hoff soff nsec segment).ecx =
      coff % 256 * 256 + (coff / 256 % 4 * 64 + soff % 64) := by
  have hch : (coff <<< 8) &&& 0xff00 = (coff % 256) <<< 8 := by
    have h := land_mask (coff <<< 8) 8 8
    rw [Nat.shiftLeft_eq, Nat.mul_div_cancel _ (by norm_num)] at h
    rw [Nat.shiftLeft_eq]
    exact h
  have hcl : (coff >>> 2) &&& 0xc0 = (coff / 256 % 4) <<< 6 := by
    have h := land_mask (coff >>> 2) 2 6
    rw [Nat.shiftRight_eq_div_pow, Nat.div_div_eq_div_mul] at h
    rw [Nat.shiftRight_eq_div_pow]
    exact h
  have hs : soff &&& 0x3f = soff % 64 := Nat.and_two_pow_sub_one_eq_mod soff 6
  have hlt : soff % 64 < 2 ^ 6 := Nat.mod_lt _ (by norm_num)
  have hlow : (coff / 256 % 4) <<< 6 + soff % 64 < 2 ^ 8 := by
    rw [Nat.shiftLeft_eq]
    omega
  change ((coff <<< 8) &&& 0xff00) ||| ((coff >>> 2) &&& 0xc0) ||| (soff &&& 0x3f) = _
  rw [hch, hcl, hs, Nat.or_assoc, ← Nat.shiftLeft_add_eq_or_of_lt hlt,
    ← Nat.shiftLeft_add_eq_or_of_lt hlow, Nat.shiftLeft_eq, Nat.shiftLeft_eq]

/-- Two bytes in a register. -/
theorem two_bytes (hi lo : ℕ) :
    ((hi <<< 8) &&& 0xff00) ||| (lo &&& 0xff) = hi % 256 * 256 + lo % 256 := by
  have hhi : (hi <<< 8) &&& 0xff00 = (hi % 256) <<< 8 := by
    have h := land_mask (hi <<< 8) 8 8
    rw [Nat.shiftLeft_eq, Nat.mul_div_cancel _ (by norm_num)] at h
    rw [Nat.shiftLeft_eq]
    exact h
  have hlo : lo &&& 0xff = lo % 256 := Nat.and_two_pow_sub_one_eq_mod lo 8
  have hlt : lo % 256 < 2 ^ 8 := Nat.mod_lt _ (by norm_num)
  rw [hhi, hlo, ← Nat.shiftLeft_add_eq_or_of_lt hlt, Nat.shiftLeft_eq]

/-- The BIOS gets the function, -/
theorem biosFunction_rwStdParams :
    biosFunction (rwStdParams ah drive coff hoff soff nsec segment) = ah % 256 := by
  have hmask (x : ℕ) : x &&& 0xff = x % 256 := Nat.and_two_pow_sub_one_eq_mod x 8
  have heax : (rwStdParams ah drive coff hoff soff nsec segment).eax =
      ah % 256 * 256 + nsec % 256 := two_bytes ah nsec
  rw [biosFunction, hmask, heax, Nat.shiftRight_eq_div_pow]
  omega

/-- and the head. -/
theorem biosHead_rwStdParams :
    biosHead (rwStdParams ah drive coff hoff soff nsec segment) = hoff % 256 := by
  have hmask (x : ℕ) : x &&& 0xff = x % 256 := Nat.and_two_pow_sub_one_eq_mod x 8
  have hedx : (rwStdParams ah drive coff hoff soff nsec segment).edx =
      hoff % 256 * 256 + drive % 256 := (Nat.or_comm _ _).trans (two_bytes hoff drive)
  rw [biosHead, hmask, hedx, Nat.shiftRight_eq_div_pow]
  omega

/-- The BIOS takes the cylinder from 10 bits. -/
theorem biosCylinder_rwStdParams :
    biosCylinder (rwStdParams ah drive coff hoff soff nsec segment) = coff % 1024 := by
  have hmask (x : ℕ) : x &&& 0xff = x % 256 := Nat.and_two_pow_sub_one_eq_mod x 8
  have hmask₂ (x : ℕ) : x &&& 0x3 = x % 4 := Nat.and_two_pow_sub_one_eq_mod x 2
  have hlt (x : ℕ) : x % 256 < 2 ^ 8 := Nat.mod_lt _ (by norm_num)
  have hlow : coff / 256 % 4 * 64 + soff % 64 < 256 := by omega
  have hch : (coff % 256 * 256 + (coff / 256 % 4 * 64 + soff % 64)) / 2 ^ 8 = coff % 256 := by omega
  have hcl : (coff % 256 * 256 + (coff / 256 % 4 * 64 + soff % 64)) / 2 ^ 6 =
      coff % 256 * 4 + coff / 256 % 4 := by omega
  have hhigh : (coff % 256 * 4 + coff / 256 % 4) % 4 = coff / 256 % 4 := by omega
  have hsplit : coff % (256 * 4) = coff % 256 + 256 * (coff / 256 % 4) := Nat.mod_mul
  rw [biosCylinder, hmask, hmask₂, Nat.or_comm, ← Nat.shiftLeft_add_eq_or_of_lt (hlt _),
    rwStdParams_ecx, Nat.shiftLeft_eq, Nat.shiftRight_eq_div_pow, Nat.shiftRight_eq_div_pow, hch,
    hcl, hhigh, Nat.mod_mod, show 1024 = 256 * 4 from rfl, hsplit]
  ring

/-- The sector is taken from six bits. -/
theorem biosSector_rwStdParams :
    biosSector (rwStdParams ah drive coff hoff soff nsec segment) = soff % 64 := by
  have hmask (x : ℕ) : x &&& 0x3f = x % 64 := Nat.and_two_pow_sub_one_eq_mod x 6
  rw [biosSector, hmask, rwStdParams_ecx]
  omega

/-- What the registers of a read stand for. -/
theorem standsFor_rwStdParams (data : BiosdiskData) (eflags sector : ℕ) :
    StandsFor data { rwStdParams ah drive coff hoff soff nsec segment with
        eflags, interrupt := 0x13 } sector ↔
      (coff % 1024 * data.heads + hoff % 256) * data.sectors + soff % 64 = sector + 1 := by
  rw [← biosCylinder_rwStdParams ah drive coff hoff soff nsec segment,
    ← biosHead_rwStdParams ah drive coff hoff soff nsec segment,
    ← biosSector_rwStdParams ah drive coff hoff soff nsec segment]
  rfl

end registers

/-! ## The calls of a read -/

/-- A call leaves its registers, which only the flags and the interrupt are added to. -/
theorem callInt13h_calls (bios : Bios σ) (params : Params) (s : Machine σ) :
    ∃ eflags, (callInt13h bios params s).2.calls =
      s.calls ++ [{ params with eflags, interrupt := 0x13 }] :=
  ⟨_, rfl⟩

/-- The calls for a read: the registers are those of the read, or those of a reset. -/
theorem rwStdTries_calls (bios : Bios σ) (params : Params) (drive tries ret : ℕ) (s : Machine σ) :
    ∃ calls, (rwStdTries bios params drive tries ret s).2.calls = s.calls ++ calls ∧
      (∀ regs ∈ calls, regs.eax = 0 ∨
        ∃ eflags, regs = { params with eflags, interrupt := 0x13 }) ∧
      (0 < tries → ∃ eflags, { params with eflags, interrupt := 0x13 } ∈ calls) := by
  induction tries generalizing ret s with
  | zero => exact ⟨[], (List.append_nil _).symm, List.forall_mem_nil _, fun h => absurd h (by simp)⟩
  | succ tries ih =>
      obtain ⟨eflags, hread⟩ := callInt13h_calls bios params s
      rw [rwStdTries]
      rcases hr : callInt13h bios params s with ⟨regs, s₁⟩
      rw [hr] at hread
      dsimp only at hread ⊢
      split_ifs with hok
      · refine ⟨_, hread, ?_, fun _ => ⟨eflags, List.mem_singleton_self _⟩⟩
        intro r hr
        exact Or.inr ⟨eflags, List.mem_singleton.mp hr⟩
      · obtain ⟨eflags', hreset⟩ :=
          callInt13h_calls bios { regs with eax := 0, edx := drive &&& 0xff } s₁
        rcases hr₂ : callInt13h bios { regs with eax := 0, edx := drive &&& 0xff } s₁ with ⟨_, s₂⟩
        rw [hr₂] at hreset
        dsimp only at hreset ⊢
        obtain ⟨calls, hcalls, hall, -⟩ := ih (regs.eax >>> 8) s₂
        let reset : Params :=
          { regs with eax := 0, edx := drive &&& 0xff, eflags := eflags', interrupt := 0x13 }
        refine ⟨_ :: reset :: calls, ?_, ?_, fun _ => ⟨eflags, List.mem_cons_self⟩⟩
        · rw [hcalls, hreset, hread]
          simp only [List.append_assoc, List.singleton_append]
          rfl
        · rintro r (_ | ⟨_, _ | ⟨_, hr⟩⟩)
          · exact Or.inr ⟨eflags, rfl⟩
          · exact Or.inl rfl
          · exact hall r hr

/-- The condition under which a read by cylinder, head and sector is right: its cylinder has 10 bits, or
it is refused. -/
def InReach (data : BiosdiskData) (sector : ℕ) : Prop :=
  sector < 1024 * data.heads * data.sectors ∨ 1024 * 256 * 63 < sector ∨
    data.cylinders * data.heads * data.sectors ≤ sector

/-- The registers of a read stand for its sector exactly if the cylinder has 10 bits. -/
theorem standsFor_iff {arch : Arch} {data : BiosdiskData} (hgeometry : Geometry arch data)
    (sector size segment eflags : ℕ) :
    StandsFor data { rwStdParams 0x02 data.drive (sector / data.sectors / data.heads)
        (sector / data.sectors % data.heads) (sector % data.sectors + 1) size segment with
      eflags, interrupt := 0x13 } sector ↔ sector < 1024 * data.heads * data.sectors := by
  obtain ⟨hheads, hheads', hsectors, hsectors'⟩ := hgeometry.heads_sectors
  have hhead := Nat.mod_lt (sector / data.sectors) hheads
  have hsec := Nat.mod_lt sector hsectors
  generalize hq : sector / data.sectors = q at hhead ⊢
  have hsplit : q * data.sectors + sector % data.sectors = sector := by
    rw [← hq, Nat.mul_comm]
    exact Nat.div_add_mod _ _
  have hcyl : q / data.heads < 1024 ↔ sector < 1024 * data.heads * data.sectors := by
    rw [Nat.div_lt_iff_lt_mul hheads, ← hq, Nat.div_lt_iff_lt_mul hsectors]
  rw [standsFor_rwStdParams, Nat.mod_eq_of_lt (hhead.trans_le hheads'),
    Nat.mod_eq_of_lt (by omega : sector % data.sectors + 1 < 64), ← hcyl]
  have hdiv := Nat.div_add_mod q data.heads
  constructor
  · intro h
    have hmul : (q / data.heads % 1024 * data.heads + q % data.heads) * data.sectors =
        q * data.sectors := by omega
    have hhead' := Nat.eq_of_mul_eq_mul_right hsectors hmul
    have hmul' : q / data.heads % 1024 * data.heads = q / data.heads * data.heads := by
      rw [Nat.mul_comm (q / data.heads)]
      omega
    rw [← Nat.eq_of_mul_eq_mul_right hheads hmul']
    exact Nat.mod_lt _ (by norm_num)
  · intro h
    rw [Nat.mod_eq_of_lt h, Nat.mul_comm (q / data.heads), hdiv]
    omega

/-- **A read by cylinder, head and sector** gives the BIOS the registers of its sector exactly if the
cylinder of the sector is below 1024 or the read is refused. -/
theorem chs_iff {arch : Arch} {bios : Bios σ} {drive : ℕ} {s s' : Machine σ} {data : BiosdiskData}
    (hfill : biosdiskFillData arch bios drive s = (some data, s')) (bios' : Bios σ)
    (sector size segment : ℕ) (t : Machine σ) :
    ∃ calls, (readChs bios' data sector size segment t).2.calls = t.calls ++ calls ∧
      ((∀ regs ∈ calls, biosFunction regs = 0x02 → StandsFor data regs sector) ↔
        InReach data sector) := by
  have hgeometry := fillData_geometry hfill
  obtain ⟨hheads, -, hsectors, -⟩ := hgeometry.heads_sectors
  rw [readChs]
  by_cases hlimit : sector > 1024 * 256 * 63
  · rw [if_pos hlimit]
    exact ⟨[], (List.append_nil _).symm, iff_of_true (by simp) (Or.inr (Or.inl hlimit))⟩
  rw [if_neg hlimit, Nat.mod_eq_of_lt (by omega : sector < 2 ^ 32)]
  have hcyl : sector / data.sectors / data.heads ≥ data.cylinders ↔
      data.cylinders * data.heads * data.sectors ≤ sector := by
    rw [ge_iff_le, Nat.le_div_iff_mul_le hheads, Nat.le_div_iff_mul_le hsectors]
  dsimp only
  by_cases hout : sector / data.sectors / data.heads ≥ data.cylinders
  · rw [if_pos hout]
    exact ⟨[], (List.append_nil _).symm, iff_of_true (by simp) (Or.inr (Or.inr (hcyl.mp hout)))⟩
  rw [if_neg hout]
  obtain ⟨calls, hcalls, hall, hread⟩ := rwStdTries_calls bios'
    (rwStdParams 0x02 data.drive (sector / data.sectors / data.heads)
      (sector / data.sectors % data.heads) (sector % data.sectors + 1) size segment) data.drive 3 0 t
  refine ⟨calls, ?_, ?_⟩
  · rw [← hcalls]
    split_ifs <;> rfl
  have hreach : InReach data sector ↔ sector < 1024 * data.heads * data.sectors := by
    unfold InReach
    rw [← hcyl, or_iff_left (not_or.mpr ⟨hlimit, hout⟩)]
  rw [hreach]
  constructor
  · intro h
    obtain ⟨eflags, hmem⟩ := hread (by norm_num)
    exact (standsFor_iff hgeometry sector size segment eflags).mp
      (h _ hmem (biosFunction_rwStdParams 0x02 data.drive 0 0 0 size segment))
  · intro h regs hregs hfun
    rcases hall regs hregs with hreset | ⟨eflags, rfl⟩
    · rw [biosFunction, hreset] at hfun
      cases hfun
    · exact (standsFor_iff hgeometry sector size segment eflags).mpr h

/-- A disk with at most 1024 cylinders is in reach. -/
theorem inReach_of_cylinders_le {data : BiosdiskData} (h : data.cylinders ≤ 1024) (sector : ℕ) :
    InReach data sector := by
  have hle : data.cylinders * data.heads * data.sectors ≤ 1024 * data.heads * data.sectors :=
    Nat.mul_le_mul_right _ (Nat.mul_le_mul_right _ h)
  unfold InReach
  omega

/-- A read is one with the extensions, or it is one by cylinder, head and sector on the same
geometry. -/
theorem biosdiskReadReal_cases (arch : Arch) (bios : Bios σ) (data : BiosdiskData)
    (sector size segment : ℕ) (s : Machine σ) :
    (∃ s₁, data.flags &&& biosdiskFlagLba ≠ 0 ∧
      biosdiskReadReal arch bios data sector size segment s = (true, data, s₁)) ∨
    ∃ data₁ s₁, biosdiskReadReal arch bios data sector size segment s =
      ((readChs bios data sector size segment s₁).1, data₁,
        (readChs bios data sector size segment s₁).2) := by
  rw [biosdiskReadReal]
  split_ifs with hlba
  · dsimp only
    split_ifs with herr
    · exact Or.inr ⟨_, _, rfl⟩
    · exact Or.inl ⟨_, hlba, rfl⟩
  · exact Or.inr ⟨_, _, rfl⟩

/-! ## A disk of 1245 cylinders -/

/-- A BIOS that knows the extensions and gives a disk 20000000 sectors, but no geometry. -/
def extBios : Bios Unit where
  eflags _ := 0
  callInterrupt params mem _ :=
    if biosFunction params = 0x41 then
      ({ params with eax := 0x2100, ebx := 0xaa55, ecx := 1 }, mem, ())
    else if biosFunction params = 0x48 then
      ({ params with eax := 0 }, mem.putWord (scratchAddr + 16) 8 20000000, ())
    else if biosFunction params = 0x02 then ({ params with eax := 0 }, mem, ())
    else ({ params with eax := 0x0100, eflags := flagCf }, mem, ())

/-- The geometry that stands in for the one of the disk. -/
def extData₁ : BiosdiskData where
  drive := 0x80
  cylinders := 1245
  heads := 255
  sectors := 63
  flags := biosdiskFlagLba
  totalSectors := 20000000
  logSectorSize := 9

/-- The drive data of a BIOS with extensions. -/
theorem extBios_fillData :
    ∃ s', biosdiskFillData .i386 extBios 0x80 ⟨Mem.zero, (), []⟩ = (some extData₁, s') := by
  have hdata : (biosdiskFillData .i386 extBios 0x80 ⟨Mem.zero, (), []⟩).1 = some extData₁ := by
    decide +kernel
  exact ⟨_, Prod.ext hdata rfl⟩

/-- The read of the first sector of cylinder 1024 asks for cylinder 0. -/
theorem not_standsFor_band :
    ¬∀ (arch : Arch) (bios : Bios Unit) (drive : ℕ) (s s' : Machine Unit) (data : BiosdiskData),
      biosdiskFillData arch bios drive s = (some data, s') →
      ∀ (bios' : Bios Unit) (sector size segment : ℕ) (t : Machine Unit) (calls : List Params),
        (readChs bios' data sector size segment t).2.calls = t.calls ++ calls →
        ∀ regs ∈ calls, biosFunction regs = 0x02 → StandsFor data regs sector := by
  intro h
  obtain ⟨s', hfill⟩ := extBios_fillData
  have hcalls : (readChs extBios extData₁ 16450560 1 scratchSeg ⟨Mem.zero, (), []⟩).2.calls =
      [{ rwStdParams 0x02 0x80 1024 0 1 1 scratchSeg with eflags := flagIf, interrupt := 0x13 }] := by
    decide +kernel
  have hband := h .i386 extBios 0x80 _ s' extData₁ hfill extBios 16450560 1 scratchSeg _ _ hcalls _
    (List.mem_singleton_self _) (by decide)
  rw [standsFor_rwStdParams] at hband
  exact absurd hband (by decide)

/-- The disk with the extensions, for the theorem. -/
theorem chs_iff_ext :
    ∃ calls, (readChs extBios extData₁ 16450559 1 scratchSeg ⟨Mem.zero, (), []⟩).2.calls =
        [] ++ calls ∧
      ((∀ regs ∈ calls, biosFunction regs = 0x02 → StandsFor extData₁ regs 16450559) ↔
        InReach extData₁ 16450559) := by
  obtain ⟨s', hfill⟩ := extBios_fillData
  exact chs_iff hfill extBios 16450559 1 scratchSeg ⟨Mem.zero, (), []⟩

end Ntloader.Disk
