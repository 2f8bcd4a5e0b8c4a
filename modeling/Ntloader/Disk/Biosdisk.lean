import Ntloader.Arch
import Ntloader.Lib.Memory

/-!
# BIOS disks

A disk is read by INT 13h, with the sector as a number if the BIOS takes one, and else as cylinder,
head and sector.

* `Bios`, `callInt13h` — what the BIOS does with registers and memory, and a call.
* `biosdiskRwStd`, `biosdiskReadReal`, `biosdiskFillData` — disk/biosdisk.c.
* `divmod64_eq` — the division of the cylinders.
* `fillData_geometry` — the geometries of a disk.

Scope: the messages and the loop over the drives are left out. What the code leaves uninitialised in a
record of registers is 0; the BIOS is a parameter, and can put anything there.
-/

namespace Ntloader.Disk

open Ntloader.Lib

/-! ## The BIOS -/

/-- The registers of a call.
Source: include/bootapp.h, struct bootapp_callback_params -/
structure Params where
  interrupt : ℕ := 0
  eax : ℕ := 0
  ebx : ℕ := 0
  ecx : ℕ := 0
  edx : ℕ := 0
  esi : ℕ := 0
  ds : ℕ := 0
  es : ℕ := 0
  eflags : ℕ := 0
  deriving DecidableEq

/-- Source: include/bootapp.h, enum eflags, CF -/
def flagCf : ℕ := 1 <<< 0

/-- Source: include/bootapp.h, enum eflags, IF -/
def flagIf : ℕ := 1 <<< 9

/-- A BIOS with states of its own: the flags of the processor, and what an interrupt leaves in the
registers and in memory. -/
structure Bios (σ : Type) where
  eflags : σ → ℕ
  callInterrupt : Params → Mem → σ → Params × Mem × σ

/-- The memory, the state of the BIOS and the calls that have been made. -/
structure Machine (σ : Type) where
  mem : Mem
  bios : σ
  calls : List Params

variable {σ : Type}

/-- The bits of a flag register without one of them. -/
def clearFlag (eflags flag : ℕ) : ℕ := eflags ^^^ (eflags &&& flag)

/-- Source: disk/biosdisk.c, call_int13h -/
def callInt13h (bios : Bios σ) (params : Params) (s : Machine σ) : Params × Machine σ :=
  let params :=
    { params with eflags := clearFlag (bios.eflags s.bios) flagCf ||| flagIf, interrupt := 0x13 }
  let (regs, mem, state) := bios.callInterrupt params s.mem s.bios
  (regs, ⟨mem, state, s.calls ++ [params]⟩)

/-! ## Calls -/

/-- Source: disk/biosdisk.c, SCRATCH_ADDR -/
def scratchAddr : ℕ := 0x30000

/-- Source: disk/biosdisk.c, SCRATCH_SEG -/
def scratchSeg : ℕ := scratchAddr >>> 4

/-- Call the extensions, with the address of a packet; not zero is an error.
Source: disk/biosdisk.c, biosdisk_rw_int13_ext -/
def biosdiskRwInt13Ext (bios : Bios σ) (ah drive dap : ℕ) (s : Machine σ) : ℕ × Machine σ :=
  let (regs, s) := callInt13h bios
    { eax := ah <<< 8, ds := (dap &&& 0xffff0000) >>> 4, esi := dap &&& 0xffff, edx := drive } s
  ((regs.eax >>> 8) &&& 0xff, s)

/-- The registers of a read or write by cylinder, head and sector.
Source: disk/biosdisk.c, biosdisk_rw_std -/
def rwStdParams (ah drive coff hoff soff nsec segment : ℕ) : Params where
  -- low eight bits of the cylinder in %ch, its high two bits and the sector in %cl
  ecx := ((coff <<< 8) &&& 0xff00) ||| ((coff >>> 2) &&& 0xc0) ||| (soff &&& 0x3f)
  edx := (drive &&& 0xff) ||| ((hoff <<< 8) &&& 0xff00)
  eax := ((ah <<< 8) &&& 0xff00) ||| (nsec &&& 0xff)
  ebx := 0
  es := segment

/-- A number of tries; the disk is reset behind each that fails.
Source: disk/biosdisk.c, biosdisk_rw_std -/
def rwStdTries (bios : Bios σ) (params : Params) (drive : ℕ) : ℕ → ℕ → Machine σ → ℕ × Machine σ
  | 0, ret, s => (ret, s)
  | tries + 1, _, s =>
      let (regs, s) := callInt13h bios params s
      if regs.eflags &&& flagCf = 0 then (0, s)
      else
        let ret := regs.eax >>> 8
        let (_, s) := callInt13h bios { regs with eax := 0, edx := drive &&& 0xff } s
        rwStdTries bios params drive tries ret s

/-- Source: disk/biosdisk.c, biosdisk_rw_std -/
def biosdiskRwStd (bios : Bios σ) (ah drive coff hoff soff nsec segment : ℕ) (s : Machine σ) :
    ℕ × Machine σ :=
  rwStdTries bios (rwStdParams ah drive coff hoff soff nsec segment) drive 3 0 s

/-- The major version of the extensions, or zero.
Source: disk/biosdisk.c, biosdisk_check_int13_ext -/
def biosdiskCheckInt13Ext (bios : Bios σ) (drive : ℕ) (s : Machine σ) : ℕ × Machine σ :=
  let (regs, s) := callInt13h bios { edx := drive &&& 0xff, eax := 0x4100, ebx := 0x55aa } s
  if regs.eflags &&& flagCf ≠ 0 then (0, s)
  else if regs.ebx &&& 0xffff ≠ 0xaa55 then (0, s)
  else if regs.ecx &&& 1 = 0 then (0, s)
  else ((regs.eax >>> 8) &&& 0xff, s)

/-- The cylinders, heads and sectors of a drive, or an error.
Source: disk/biosdisk.c, biosdisk_get_diskinfo_std -/
def biosdiskGetDiskinfoStd (bios : Bios σ) (drive : ℕ) (s : Machine σ) :
    Except ℕ (ℕ × ℕ × ℕ) × Machine σ :=
  let (regs, s) := callInt13h bios { eax := 0x0800, ecx := 0, edx := drive &&& 0xff } s
  if regs.eflags &&& flagCf ≠ 0 ∧ regs.eax &&& 0xff00 ≠ 0 then
    (.error ((regs.eax &&& 0xff00) >>> 8), s)
  else if regs.ecx &&& 0x3f = 0 then (.error 0x60, s) -- 0 sectors means no disk
  else
    -- the number of heads is counted from zero
    let heads := ((regs.edx >>> 8) &&& 0xff) + 1
    let cylinders := (((regs.ecx >>> 8) &&& 0xff) ||| ((regs.ecx <<< 2) &&& 0x0300)) + 1
    let sectors := regs.ecx &&& 0x3f
    (.ok (cylinders, heads, sectors), s)

/-- Source: disk/biosdisk.c, biosdisk_get_diskinfo_real -/
def biosdiskGetDiskinfoReal (bios : Bios σ) (drive drp ax : ℕ) (s : Machine σ) : ℕ × Machine σ :=
  let (regs, s) := callInt13h bios
    { eax := ax, esi := drp &&& 0xf, ds := drp >>> 4, edx := drive &&& 0xff } s
  if regs.eflags &&& flagCf ≠ 0 ∧ regs.eax &&& 0xff00 ≠ 0 then ((regs.eax &&& 0xff00) >>> 8, s)
  else (0, s)

/-! ## The geometry -/

/-- Source: include/biosdisk.h, BIOSDISK_FLAG_LBA -/
def biosdiskFlagLba : ℕ := 1

/-- Source: include/biosdisk.h, struct biosdisk_data -/
structure BiosdiskData where
  drive : ℕ := 0
  cylinders : ℕ := 0
  heads : ℕ := 0
  sectors : ℕ := 0
  flags : ℕ := 0
  totalSectors : ℕ := 0
  logSectorSize : ℕ := 0
  deriving DecidableEq

/-- One bit of the number after the other: the quotient and the remainder of the bits so far.
Source: disk/biosdisk.c, divmod64 -/
def divmod64Loop (d : ℕ) : ℕ → ℕ → ℕ → ℕ → ℕ × ℕ
  | 0, _, q, m => (q, m)
  | bits + 1, n, q, m =>
      let m := (m <<< 1) % 2 ^ 64
      let m := if n.testBit 63 then m ||| 1 else m
      let q := (q <<< 1) % 2 ^ 64
      let n := (n <<< 1) % 2 ^ 64
      if m ≥ d then divmod64Loop d bits n (q ||| 1) (m - d) else divmod64Loop d bits n q m

/-- Source: disk/biosdisk.c, divmod64 -/
def divmod64 (n d : ℕ) : ℕ × ℕ := divmod64Loop d 64 n 0 0

/-- The least `n` from a number on with `2^n` not below `s`.
Source: include/ntloader.h, SECTOR_LOG2ULL -/
def sectorLog2 (s : ℕ) : ℕ → ℕ → ℕ
  | 0, n => n
  | fuel + 1, n => if 1 <<< n < s then sectorLog2 s fuel (n + 1) else n

/-- Size of the drive parameters.
Source: include/biosdisk.h, struct biosdisk_drp -/
def drpSize : ℕ := 90

/-- What the extensions say about a drive: the flags, the total of sectors and the logarithm of the
sector size.
Source: disk/biosdisk.c, biosdisk_get_diskinfo_int13_ext, biosdisk_fill_data -/
def extData (bios : Bios σ) (drive : ℕ) (s : Machine σ) : (ℕ × ℕ × ℕ) × Machine σ :=
  let (version, s) := biosdiskCheckInt13Ext bios drive s
  let mem := (s.mem.fill scratchAddr 0 drpSize).putWord scratchAddr 2 drpSize
  let (err, s) :=
    if version = 0 then (1, s)
    else biosdiskGetDiskinfoReal bios drive scratchAddr 0x4800 { s with mem }
  if err ≠ 0 then ((0, 0, 9), s)
  else
    let total := s.mem.word (scratchAddr + 16) 8
    let bytesPerSector := s.mem.word (scratchAddr + 24) 2
    let totalSectors :=
      if total ≠ 0 then total
      else s.mem.word (scratchAddr + 4) 4 * s.mem.word (scratchAddr + 8) 4 *
        s.mem.word (scratchAddr + 12) 4 % 2 ^ 64
    let logSectorSize :=
      if bytesPerSector ≠ 0 ∧ bytesPerSector &&& (bytesPerSector - 1) = 0 ∧ 512 ≤ bytesPerSector ∧
          bytesPerSector ≤ 16384 then sectorLog2 bytesPerSector 16 0
      else 9
    ((biosdiskFlagLba, totalSectors, logSectorSize), s)

/-- Source: disk/biosdisk.c, biosdisk_fill_data -/
def biosdiskFillData (arch : Arch) (bios : Bios σ) (drive : ℕ) (s : Machine σ) :
    Option BiosdiskData × Machine σ :=
  let ((flags, totalSectors, logSectorSize), s) := extData bios drive s
  let (info, s) := biosdiskGetDiskinfoStd bios drive s
  let data := { drive, flags, logSectorSize : BiosdiskData }
  let geometry :=
    match info with
    | .ok (cylinders, heads, sectors) => some { data with cylinders, heads, sectors }
    | .error _ =>
        if totalSectors ≠ 0 ∧ flags &&& biosdiskFlagLba ≠ 0 then
          let cylinders := (divmod64 ((totalSectors + 255 * 63 - 1) % 2 ^ 64) (255 * 63)).1
          some { data with sectors := 63, heads := 255, cylinders := cylinders % arch.ulong }
        else none
  match geometry with
  | none => (none, s)
  | some data =>
      let sectors := if data.sectors = 0 then 63 else data.sectors
      let heads := if data.heads = 0 then 255 else data.heads
      let totalSectors :=
        if totalSectors = 0 then data.cylinders * heads * sectors % 2 ^ 64 else totalSectors
      (some { data with sectors, heads, totalSectors }, s)

/-! ## Reading -/

/-- Read by cylinder, head and sector.
Source: disk/biosdisk.c, biosdisk_read_real -/
def readChs (bios : Bios σ) (data : BiosdiskData) (sector size segment : ℕ) (s : Machine σ) :
    Bool × Machine σ :=
  if sector > 1024 * 256 * 63 then (false, s)
  else
    let soff := sector % 2 ^ 32 % data.sectors + 1
    let head := sector % 2 ^ 32 / data.sectors
    let hoff := head % data.heads
    let coff := head / data.heads
    if coff ≥ data.cylinders then (false, s)
    else
      let (err, s) := biosdiskRwStd bios 0x02 data.drive coff hoff soff size segment s
      if err ≠ 0 then (false, s) else (true, s)

/-- Read sectors to a segment. A disk that fails with the extensions is read without them from then
on.
Source: disk/biosdisk.c, biosdisk_read_real -/
def biosdiskReadReal (arch : Arch) (bios : Bios σ) (data : BiosdiskData)
    (sector size segment : ℕ) (s : Machine σ) : Bool × BiosdiskData × Machine σ :=
  if data.flags &&& biosdiskFlagLba ≠ 0 then
    let dap := (scratchAddr + (data.sectors <<< data.logSectorSize)) % arch.ulong
    let mem := ((((s.mem.putWord dap 1 16).putWord (dap + 1) 1 0).putWord (dap + 2) 2 size).putWord
      (dap + 4) 4 (segment <<< 16)).putWord (dap + 8) 8 sector
    let (err, s) := biosdiskRwInt13Ext bios 0x42 data.drive dap { s with mem }
    if err ≠ 0 then
      let data := { data with
        flags := clearFlag data.flags biosdiskFlagLba
        totalSectors := data.cylinders * data.heads * data.sectors % arch.ulong }
      let (read, s) := readChs bios data sector size segment s
      (read, data, s)
    else (true, data, s)
  else
    let (read, s) := readChs bios data sector size segment s
    (read, data, s)

/-- Read bytes from a sector on.
Source: disk/biosdisk.c, biosdisk_read -/
def biosdiskRead (arch : Arch) (bios : Bios σ) (data : BiosdiskData) (sector len : ℕ)
    (s : Machine σ) : Option (List UInt8) × BiosdiskData × Machine σ :=
  let lenLba := (len + 511) >>> 9
  let (read, data, s) := biosdiskReadReal arch bios data sector lenLba scratchSeg s
  (if read then some (s.mem.bytes scratchAddr len) else none, data, s)

/-! ## Division -/

/-- One more bit of a number. -/
theorem div_mod_bit {d : ℕ} (hd : 0 < d) (n b : ℕ) (hb : b ≤ 1) :
    (2 * n + b) / d = (if 2 * (n % d) + b ≥ d then 2 * (n / d) + 1 else 2 * (n / d)) ∧
      (2 * n + b) % d =
        if 2 * (n % d) + b ≥ d then 2 * (n % d) + b - d else 2 * (n % d) + b := by
  have hn := Nat.mod_add_div n d
  have hlt := Nat.mod_lt n hd
  split_ifs with h
  · refine (Nat.div_mod_unique hd).mpr ⟨?_, by omega⟩
    have hmul : d * (2 * (n / d) + 1) = 2 * (d * (n / d)) + d := by ring
    omega
  · refine (Nat.div_mod_unique hd).mpr ⟨?_, by omega⟩
    have hmul : d * (2 * (n / d)) = 2 * (d * (n / d)) := by ring
    omega

/-- The bit that is shifted out of the part of the number that is left. -/
theorem testBit_left {n k : ℕ} (hk : k < 64) :
    (n % 2 ^ (k + 1) * 2 ^ (64 - (k + 1))).testBit 63 = n.testBit k := by
  have hsub : 63 - (64 - (k + 1)) = k := by omega
  rw [Nat.testBit_mul_two_pow, Nat.testBit_mod_two_pow, hsub,
    decide_eq_true (by omega : 64 - (k + 1) ≤ 63), decide_eq_true (Nat.lt_succ_self k),
    Bool.true_and, Bool.true_and]

/-- The part of the number that is left, shifted. -/
theorem shiftLeft_left {n k : ℕ} (hk : k < 64) :
    (n % 2 ^ (k + 1) * 2 ^ (64 - (k + 1))) <<< 1 % 2 ^ 64 = n % 2 ^ k * 2 ^ (64 - k) := by
  have hpow : 2 ^ 64 = 2 ^ k * 2 ^ (64 - k) := by rw [← pow_add, Nat.add_sub_cancel' hk.le]
  have hsub : 64 - k = 64 - (k + 1) + 1 := by omega
  rw [Nat.shiftLeft_eq, Nat.mul_assoc, ← pow_add, ← hsub, hpow, Nat.mul_mod_mul_right,
    Nat.mod_mod_of_dvd _ (pow_dvd_pow 2 (Nat.le_succ k))]

/-- One more bit of the part of the number in front. -/
theorem div_two_pow_bit (n k : ℕ) :
    n / 2 ^ k = 2 * (n / 2 ^ (k + 1)) + (n.testBit k).toNat := by
  have h := Nat.div_add_mod (n / 2 ^ k) 2
  rw [Nat.div_div_eq_div_mul, ← pow_succ] at h
  rw [Nat.toNat_testBit]
  exact h.symm

/-- A bit behind an even number is added to it. -/
theorem mul_two_or_one (x : ℕ) : x * 2 ||| 1 = x * 2 + 1 := by
  have h := Nat.two_pow_add_eq_or_of_lt (i := 1) (b := 1) (by norm_num) x
  rw [pow_one, Nat.mul_comm] at h
  exact h.symm

/-- With a bit left, the quotient and the remainder are below 2^63, whatever they are divided by. -/
theorem divmod_lt {n k : ℕ} (hn : n < 2 ^ 64) (d : ℕ) :
    n / 2 ^ (k + 1) / d < 2 ^ 63 ∧ n / 2 ^ (k + 1) % d < 2 ^ 63 := by
  have hle : n / 2 ^ (k + 1) ≤ n / 2 ^ 1 :=
    Nat.div_le_div_left (Nat.pow_le_pow_right (by norm_num) (by omega)) (by norm_num)
  have hlt : n / 2 ^ (k + 1) < 2 ^ 63 := by omega
  exact ⟨(Nat.div_le_self _ d).trans_lt hlt, (Nat.mod_le _ d).trans_lt hlt⟩

/-- A round takes one more bit of the number. -/
theorem divmod64Loop_succ {n d k : ℕ} (hn : n < 2 ^ 64) (hd : 0 < d) (hk : k < 64) (bits : ℕ) :
    divmod64Loop d (bits + 1) (n % 2 ^ (k + 1) * 2 ^ (64 - (k + 1))) (n / 2 ^ (k + 1) / d)
        (n / 2 ^ (k + 1) % d) =
      divmod64Loop d bits (n % 2 ^ k * 2 ^ (64 - k)) (n / 2 ^ k / d) (n / 2 ^ k % d) := by
  obtain ⟨hq, hm⟩ := @divmod_lt n k hn d
  have hmbit : (if n.testBit k then (n / 2 ^ (k + 1) % d) * 2 ||| 1
      else (n / 2 ^ (k + 1) % d) * 2) =
      2 * (n / 2 ^ (k + 1) % d) + (n.testBit k).toNat := by
    rw [mul_two_or_one]
    cases n.testBit k
    · exact Nat.mul_comm _ _
    · rw [if_pos rfl, Nat.mul_comm]
      rfl
  have hm₂ : (n / 2 ^ (k + 1) % d) <<< 1 % 2 ^ 64 = n / 2 ^ (k + 1) % d * 2 := by
    rw [Nat.shiftLeft_eq]
    exact Nat.mod_eq_of_lt (by omega)
  have hq₂ : (n / 2 ^ (k + 1) / d) <<< 1 % 2 ^ 64 = n / 2 ^ (k + 1) / d * 2 := by
    rw [Nat.shiftLeft_eq]
    exact Nat.mod_eq_of_lt (by omega)
  obtain ⟨hdiv, hmod⟩ := div_mod_bit hd (n / 2 ^ (k + 1)) _ (Bool.toNat_le (n.testBit k))
  rw [divmod64Loop, testBit_left hk, shiftLeft_left hk, hm₂, hq₂, hmbit, mul_two_or_one,
    div_two_pow_bit n k, hdiv, hmod]
  split_ifs with h
  · rw [Nat.mul_comm (n / 2 ^ (k + 1) / d)]
  · rw [Nat.mul_comm (n / 2 ^ (k + 1) / d)]

/-- Behind `bits` rounds, the loop holds the quotient and the remainder of the first `bits` bits. -/
theorem divmod64Loop_eq {n d : ℕ} (hn : n < 2 ^ 64) (hd : 0 < d) {bits k : ℕ} (hbits : bits ≤ k)
    (hk : k ≤ 64) :
    divmod64Loop d bits (n % 2 ^ k * 2 ^ (64 - k)) (n / 2 ^ k / d) (n / 2 ^ k % d) =
      (n / 2 ^ (k - bits) / d, n / 2 ^ (k - bits) % d) := by
  induction bits generalizing k with
  | zero => rw [divmod64Loop, Nat.sub_zero]
  | succ bits ih =>
      obtain ⟨k, rfl⟩ := Nat.exists_eq_succ_of_ne_zero (Nat.ne_of_gt (Nat.zero_lt_of_lt hbits))
      rw [divmod64Loop_succ hn hd hk, ih (Nat.le_of_succ_le_succ hbits) (Nat.le_of_lt hk),
        Nat.succ_sub_succ]

/-- The loop has divided the bits it has seen. -/
theorem divmod64Loop_start {n d : ℕ} (hn : n < 2 ^ 64) (hd : 0 < d) {bits : ℕ} (hbits : bits ≤ 64) :
    divmod64Loop d bits n 0 0 = (n / 2 ^ (64 - bits) / d, n / 2 ^ (64 - bits) % d) := by
  have h := divmod64Loop_eq hn hd hbits (Nat.le_refl 64)
  rwa [Nat.sub_self, Nat.pow_zero, Nat.mul_one, Nat.mod_eq_of_lt hn, Nat.div_eq_of_lt hn,
    Nat.zero_div, Nat.zero_mod] at h

/-- The division is the one of the numbers. -/
theorem divmod64_eq {n d : ℕ} (hn : n < 2 ^ 64) (hd : 0 < d) : divmod64 n d = (n / d, n % d) := by
  rw [divmod64, divmod64Loop_start hn hd (Nat.le_refl 64), Nat.sub_self, Nat.pow_zero, Nat.div_one]

/-! ## Geometries -/

/-- What the standard call reports is in the range of its registers. -/
theorem getDiskinfoStd_bounds {bios : Bios σ} {drive cylinders heads sectors : ℕ}
    {s s' : Machine σ}
    (h : biosdiskGetDiskinfoStd bios drive s = (.ok (cylinders, heads, sectors), s')) :
    0 < cylinders ∧ cylinders ≤ 1024 ∧ 0 < heads ∧ heads ≤ 256 ∧ 0 < sectors ∧ sectors ≤ 63 := by
  rw [biosdiskGetDiskinfoStd] at h
  dsimp only at h
  split_ifs at h with herr hnone
  · cases h
  · cases h
  · rw [Prod.mk.injEq, Except.ok.injEq, Prod.mk.injEq, Prod.mk.injEq] at h
    obtain ⟨⟨rfl, rfl, rfl⟩, -⟩ := h
    refine ⟨Nat.succ_pos _, ?_, Nat.succ_pos _, ?_, Nat.pos_of_ne_zero hnone, Nat.and_le_right⟩
    · exact Nat.succ_le_of_lt (Nat.or_lt_two_pow (n := 10)
        (Nat.and_le_right.trans_lt (by norm_num)) (Nat.and_le_right.trans_lt (by norm_num)))
    · exact Nat.succ_le_succ Nat.and_le_right

/-- A geometry that the BIOS reports, or the one that stands in for it. -/
def Geometry (arch : Arch) (data : BiosdiskData) : Prop :=
  (0 < data.cylinders ∧ data.cylinders ≤ 1024 ∧ 0 < data.heads ∧ data.heads ≤ 256 ∧
      0 < data.sectors ∧ data.sectors ≤ 63) ∨
    data.heads = 255 ∧ data.sectors = 63 ∧
      data.cylinders = (data.totalSectors + 255 * 63 - 1) % 2 ^ 64 / (255 * 63) % arch.ulong

/-- A geometry has up to 256 heads and 63 sectors. -/
theorem Geometry.heads_sectors {arch : Arch} {data : BiosdiskData} (h : Geometry arch data) :
    0 < data.heads ∧ data.heads ≤ 256 ∧ 0 < data.sectors ∧ data.sectors ≤ 63 := by
  rcases h with ⟨-, -, h⟩ | ⟨hheads, hsectors, -⟩
  · exact h
  · rw [hheads, hsectors]
    norm_num

/-- The geometries of the disks that are searched. -/
theorem fillData_geometry {arch : Arch} {bios : Bios σ} {drive : ℕ} {s s' : Machine σ}
    {data : BiosdiskData} (h : biosdiskFillData arch bios drive s = (some data, s')) :
    Geometry arch data := by
  rw [biosdiskFillData] at h
  rcases hext : extData bios drive s with ⟨⟨flags, total, log⟩, s₁⟩
  rw [hext] at h
  dsimp only at h
  rcases hinfo : biosdiskGetDiskinfoStd bios drive s₁ with ⟨_ | ⟨cylinders, heads, sectors⟩, s₂⟩
  · rw [hinfo] at h
    dsimp only at h
    by_cases hlba : total ≠ 0 ∧ flags &&& biosdiskFlagLba ≠ 0
    · rw [if_pos hlba] at h
      dsimp only at h
      rw [if_neg hlba.1, Prod.mk.injEq, Option.some.injEq] at h
      obtain ⟨rfl, -⟩ := h
      refine Or.inr ⟨rfl, rfl, ?_⟩
      dsimp only
      rw [divmod64_eq (Nat.mod_lt _ (by norm_num)) (by norm_num)]
    · rw [if_neg hlba] at h
      cases h
  · obtain ⟨-, -, hheads, -, hsectors, -⟩ := getDiskinfoStd_bounds hinfo
    rw [hinfo] at h
    dsimp only at h
    rw [if_neg hsectors.ne', if_neg hheads.ne', Prod.mk.injEq, Option.some.injEq] at h
    obtain ⟨rfl, -⟩ := h
    exact Or.inl (getDiskinfoStd_bounds hinfo)

end Ntloader.Disk
