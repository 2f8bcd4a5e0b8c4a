import Ntloader.Arch
import Ntloader.Lib.Traced
import Ntloader.Lznt1.Decompress
import Ntloader.Xca.Progress

/-!
# The scan for an embedded bootmgr.exe

`decompress_bootmgr` looks at every eighth offset of the file for the start of compressed data, runs
the decompressor that the signature names for the length of the output, and once more for the output
itself.

* `loadBootmgr` — the file lengths that the scan is called with.
* `isEmptyPgh`, `checkLznt1`, `checkXca` — the signatures, with the bytes they are read from.
* `Candidate`, `scanRound`, `scanLoop`, `decompressBootmgr` — the scan.
* `decompressBootmgr_inFile_iff` — the scan stays inside the file iff the file is no shorter than
  the minimal length that is subtracted from its length.
* `decompressBootmgr_ends` — the scan of such a file ends.

Scope: offsets are relative to the file, and the memory behind the file is arbitrary. Messages are
left out, and so is the file written.
-/

namespace Ntloader.Bmtool

open Ntloader.Lib Ntloader.Lib.Traced Ntloader.Huffman Ntloader.Lznt1 Ntloader.Xca

/-- Source: utils/bmtool.c, BOOTMGR_MIN_LEN -/
def bootmgrMinLen : ℕ := 16384

/-- The length of a file of the given size, as `long`, if it is loaded.
Source: utils/bmtool.c, load_bootmgr -/
def loadBootmgr (arch : Arch) (fsize : ℤ) : Option ℕ :=
  if fsize ≤ 0 ∨ (arch.ulong / 2 : ℕ) ≤ fsize then none else some fsize.toNat

/-! ## The signatures -/

/-- A test of the byte at an offset. -/
def testByte (data : Mem) (offset : ℕ) (test : ℕ → Bool) : Traced Unit Bool := do
  let byte ← read data offset 1
  return test byte

/-- Whether a paragraph is empty.
Source: utils/bmtool.c, is_empty_pgh -/
def isEmptyPgh (data : Mem) (pgh : ℕ) : Traced Unit Bool := do
  let d₀ ← read data pgh 4
  let d₁ ← read data (pgh + 4) 4
  let d₂ ← read data (pgh + 8) 4
  let d₃ ← read data (pgh + 12) 4
  return d₀ ||| d₁ ||| d₂ ||| d₃ == 0

def isNonEmptyPgh (data : Mem) (pgh : ℕ) : Traced Unit Bool := do
  let empty ← isEmptyPgh data pgh
  return !empty

/-- Check for an embedded LZNT1-compressed bootmgr.exe.
Source: utils/bmtool.c, decompress_bootmgr -/
def checkLznt1 (data : Mem) (offset : ℕ) : Traced Unit Bool :=
  if offset &&& 0x0f = 0x00 then
    allOf
      [testByte data (offset + 0x02) fun byte => byte &&& 0x03 == 0x00,
        testByte data (offset + 0x03) fun byte => byte == 'M'.toNat,
        testByte data (offset + 0x04) fun byte => byte == 'Z'.toNat]
  else return false

/-- Check for an embedded XCA-compressed bootmgr.exe.
Source: utils/bmtool.c, decompress_bootmgr -/
def checkXca (data : Mem) (offset : ℕ) : Traced Unit Bool :=
  allOf
    [testByte data (offset + 0x00) fun byte => byte &&& 0x0f != 0x00,
      testByte data (offset + 0x26) fun byte => byte &&& 0xf0 != 0x00,
      testByte data (offset + 0x2d) fun byte => byte &&& 0x0f != 0x00,
      isEmptyPgh data (offset - 0x10),
      isNonEmptyPgh data (offset + 0x400),
      isNonEmptyPgh data (offset + 0x800),
      isNonEmptyPgh data (offset + 0xc00)]

/-- The values of `decompress`. -/
inductive Decompressor where
  | lznt1
  | xca
  deriving Repr, DecidableEq

/-- The decompressor for the data at an offset, if they have a signature. An XCA signature wins.
Source: utils/bmtool.c, decompress_bootmgr -/
def findDecompressor (data : Mem) (offset : ℕ) : Traced Unit (Option Decompressor) := do
  let lznt1 ← checkLznt1 data offset
  let xca ← checkXca data offset
  return if xca then some .xca else if lznt1 then some .lznt1 else none

/-! ## The scan -/

/-- What a scan depends on besides the file. -/
structure Host where
  /-- What lies in front of the raw symbols of `struct xca`. -/
  codes : ℤ → Fin xcaCodes
  /-- What a call finds in its `struct xca`, by the offset and the buffer it is given. -/
  stack : ℕ → Option ℕ → HuffmanAlphabet
  /-- Where a buffer of a length is, if there is memory for it. -/
  malloc : ℕ → Option ℕ
  /-- The memory in which the buffers are. -/
  mem : Mem

/-- Data passed to a decompressor. -/
structure Candidate where
  offset : ℕ
  /-- `cdata_len` -/
  len : ℕ
  decompress : Decompressor
  deriving Repr, DecidableEq

/-- A call of the decompressor of a candidate: the value returned and the memory.
Source: utils/bmtool.c, decompress_bootmgr -/
def Candidate.run (host : Host) (data : Mem) (c : Candidate) (udata : Option ℕ) :
    Option (ℤ × Mem) :=
  let cdata : Mem := fun i => data (c.offset + i)
  match c.decompress with
  | .lznt1 => (lznt1Decompress cdata c.len udata host.mem).map fun r => (r.1, r.2.mem)
  | .xca =>
      (xcaDecompress (stackXca (fun i => host.codes i) (host.stack c.offset udata)) cdata c.len
        udata host.mem).map fun r => (r.1, r.2.mem)

/-- How a round of the scan ends. -/
inductive RoundEnd where
  /-- The next offset. -/
  | next
  /-- A decompressed image. -/
  | extracted (image : List UInt8)
  /-- No memory for the image. -/
  | outOfMemory
  deriving Repr, DecidableEq

/-- The two calls for a candidate, and what comes of them if they return.
Source: utils/bmtool.c, decompress_bootmgr -/
def Candidate.extract (host : Host) (data : Mem) (c : Candidate) : Option RoundEnd := do
  let (len, _) ← c.run host data none
  if len < 0 then return .next
  else
    match host.malloc len.toNat with
    | none => return .outOfMemory
    | some udata =>
        let (_, mem) ← c.run host data (some udata)
        return .extracted (mem.bytes udata len.toNat)

/-- What a round of the scan reads in search of a signature, and what it passes on. -/
structure Round where
  accesses : Accesses
  candidate : Option Candidate
  deriving Repr, DecidableEq

/-- The round at an offset, up to the calls.
Source: utils/bmtool.c, decompress_bootmgr -/
def scanRound (arch : Arch) (data : Mem) (len offset : ℕ) : Round where
  accesses := (findDecompressor data offset).accesses
  candidate := (findDecompressor data offset).value.toOption.join.map fun decompress =>
    ⟨offset, (len + arch.ulong - offset) % arch.ulong, decompress⟩

/-- How a round ends, if the calls in it return.
Source: utils/bmtool.c, decompress_bootmgr -/
def Round.ending (host : Host) (data : Mem) (r : Round) : Option RoundEnd :=
  match r.candidate with
  | none => some .next
  | some c => c.extract host data

/-- The rounds of a scan, and the image that it gives, if any, once it has ended. -/
structure Scan where
  rounds : List Round
  image : Option (Option (List UInt8))

/-- The end of the offsets.
Source: utils/bmtool.c, decompress_bootmgr -/
def scanEnd (arch : Arch) (len : ℕ) : ℕ := (len + arch.ulong - bootmgrMinLen) % arch.ulong

/-- A number of rounds of the scan, from an offset on.
Source: utils/bmtool.c, decompress_bootmgr -/
def scanLoop (arch : Arch) (host : Host) (data : Mem) (len : ℕ) : ℕ → ℕ → Scan
  | 0, _ => ⟨[], none⟩
  | n + 1, offset =>
      if offset < scanEnd arch len then
        let round := scanRound arch data len offset
        match round.ending host data with
        | none => ⟨[round], none⟩
        | some .next =>
            let rest := scanLoop arch host data len n ((offset + 0x08) % arch.ulong)
            ⟨round :: rest.rounds, rest.image⟩
        | some (.extracted image) => ⟨[round], some (some image)⟩
        | some .outOfMemory => ⟨[round], some none⟩
      else ⟨[], some none⟩

/-- A number of rounds of the scan.
Source: utils/bmtool.c, decompress_bootmgr -/
def decompressBootmgr (arch : Arch) (host : Host) (data : Mem) (len n : ℕ) : Scan :=
  scanLoop arch host data len n bootmgrMinLen

/-! ## What a round reads -/

variable {arch : Arch} {host : Host} {data : Mem} {len offset : ℕ}

/-- The test of a byte inside reads inside, -/
theorem testByte_within {test : ℕ → Bool} (h : offset < len) :
    Within len (testByte data offset test) :=
  within_read_bind h (within_pure _)

/-- that of an empty paragraph, -/
theorem isEmptyPgh_within {pgh : ℕ} (h : pgh + 0x10 ≤ len) : Within len (isEmptyPgh data pgh) := by
  refine within_read_bind (by omega) ?_
  refine within_read_bind (by omega) ?_
  refine within_read_bind (by omega) ?_
  exact within_read_bind (by omega) (within_pure _)

/-- and of one that is not empty. -/
theorem isNonEmptyPgh_within {pgh : ℕ} (h : pgh + 0x10 ≤ len) :
    Within len (isNonEmptyPgh data pgh) :=
  within_bind (isEmptyPgh_within h) fun _ _ => within_pure _

/-- The test for LZNT1 reads five bytes, -/
theorem checkLznt1_within (h : offset + 0x05 ≤ len) : Within len (checkLznt1 data offset) := by
  unfold checkLznt1
  by_cases hpgh : offset &&& 0x0f = 0x00
  · rw [if_pos hpgh]
    refine within_allOf ?_
    simp only [List.forall_mem_cons]
    refine ⟨testByte_within ?_, testByte_within ?_, testByte_within ?_, nofun⟩
    all_goals omega
  · rw [if_neg hpgh]
    exact within_pure false

/-- that for XCA the paragraph in front and the tables, -/
theorem checkXca_within (hlow : 0x10 ≤ offset) (h : offset + 0xc10 ≤ len) :
    Within len (checkXca data offset) := by
  refine within_allOf ?_
  simp only [List.forall_mem_cons]
  refine ⟨testByte_within ?_, testByte_within ?_, testByte_within ?_, isEmptyPgh_within ?_,
    isNonEmptyPgh_within ?_, isNonEmptyPgh_within ?_, isNonEmptyPgh_within ?_, nofun⟩
  all_goals omega

/-- and so does the choice between them. -/
theorem findDecompressor_within (hlow : 0x10 ≤ offset) (h : offset + 0xc10 ≤ len) :
    Within len (findDecompressor data offset) := by
  refine within_bind (checkLznt1_within (by omega)) fun _ _ => ?_
  exact within_bind (checkXca_within hlow h) fun _ _ => within_pure _

/-- At a paragraph boundary the tag byte of an LZNT1 block is read in any case. -/
theorem lt_of_findDecompressor_within (hpgh : offset &&& 0x0f = 0x00)
    (h : Within len (findDecompressor data offset)) : offset + 0x02 < len := by
  have hcheck : Within len (checkLznt1 data offset) := within_of_within_bind h
  rw [checkLznt1, if_pos hpgh] at hcheck
  have htest := within_of_within_allOf_cons hcheck
  exact htest (offset + 0x02, 1) List.mem_cons_self 0 one_pos

/-! ## What a round passes on -/

/-- A round reads bytes of the file only, and passes on the rest of the file behind its offset only
if that is longer than the minimal length. -/
def Round.InFile (len : ℕ) (r : Round) : Prop :=
  r.accesses.Within len ∧ ∀ c ∈ r.candidate, c.offset + c.len = len ∧ bootmgrMinLen < c.len

/-- A candidate is at the offset of its round, with what is left of the file. -/
theorem scanRound_candidate {c : Candidate} (h : c ∈ (scanRound arch data len offset).candidate) :
    c.offset = offset ∧ c.len = (len + arch.ulong - offset) % arch.ulong := by
  obtain ⟨decompress, _, rfl⟩ := Option.mem_map.mp h
  exact ⟨rfl, rfl⟩

/-- A file that is read has a length of a long. -/
theorem loadBootmgr_lt {fsize : ℤ} (h : loadBootmgr arch fsize = some len) : len < arch.ulong := by
  have hulong := arch.ulong_ge
  unfold loadBootmgr at h
  split_ifs at h with hrefused
  cases h
  omega

/-- **A round stays inside the file.** -/
theorem scanRound_inFile (data : Mem) (hlen : len < arch.ulong) (hlow : bootmgrMinLen ≤ offset)
    (hend : offset + bootmgrMinLen < len) : (scanRound arch data len offset).InFile len := by
  rw [bootmgrMinLen] at hlow hend
  refine ⟨findDecompressor_within (by omega) (by omega), fun c hc => ?_⟩
  obtain ⟨hoffset, hrest⟩ := scanRound_candidate hc
  have hmod : (len + arch.ulong - offset) % arch.ulong = len - offset := by
    rw [show len + arch.ulong - offset = len - offset + arch.ulong by omega, Nat.add_mod_right,
      Nat.mod_eq_of_lt (by omega)]
  rw [hoffset, hrest, hmod, bootmgrMinLen]
  omega

/-! ## The scan stays inside the file -/

/-- The scan ends in front of the least length, if the file is not shorter. -/
theorem scanEnd_of_le (hlen : len < arch.ulong) (h : bootmgrMinLen ≤ len) :
    scanEnd arch len = len - bootmgrMinLen := by
  rw [scanEnd, show len + arch.ulong - bootmgrMinLen = len - bootmgrMinLen + arch.ulong by omega,
    Nat.add_mod_right, Nat.mod_eq_of_lt (by omega)]

/-- Below the minimal length the end wraps, and every offset at the start of the address space is in
front of it. -/
theorem scanEnd_of_lt (h : len < bootmgrMinLen) :
    scanEnd arch len = arch.ulong - (bootmgrMinLen - len) := by
  have hulong := arch.ulong_ge
  rw [bootmgrMinLen] at h ⊢
  rw [scanEnd, bootmgrMinLen, Nat.mod_eq_of_lt (by omega)]
  omega

/-- The rounds of a scan are rounds at offsets in front of its end. -/
theorem scanLoop_inFile (hlen : len < arch.ulong) (h : bootmgrMinLen ≤ len) (n : ℕ)
    (hlow : bootmgrMinLen ≤ offset) :
    ∀ r ∈ (scanLoop arch host data len n offset).rounds, r.InFile len := by
  induction n generalizing offset with
  | zero => nofun
  | succ n ih =>
      rw [scanLoop]
      by_cases hend : offset < scanEnd arch len
      · rw [if_pos hend]
        rw [scanEnd_of_le hlen h] at hend
        have hround := scanRound_inFile data hlen hlow (by omega)
        have hnext : (offset + 0x08) % arch.ulong = offset + 0x08 := by
          rw [bootmgrMinLen] at hend
          exact Nat.mod_eq_of_lt (by omega)
        have hrest := @ih (offset + 0x08) (by omega)
        rw [hnext]
        dsimp only
        rcases (scanRound arch data len offset).ending host data with _ | _ | image | _
        · exact List.forall_mem_singleton.mpr hround
        · exact List.forall_mem_cons.mpr ⟨hround, hrest⟩
        · exact List.forall_mem_singleton.mpr hround
        · exact List.forall_mem_singleton.mpr hround
      · rw [if_neg hend]
        nofun

/-- The first round is made if the end is behind the first offset. -/
theorem scanRound_mem_decompressBootmgr (h : bootmgrMinLen < scanEnd arch len) :
    scanRound arch data len bootmgrMinLen ∈ (decompressBootmgr arch host data len 1).rounds := by
  rw [decompressBootmgr, scanLoop, if_pos h]
  dsimp only
  rcases (scanRound arch data len bootmgrMinLen).ending host data with _ | _ | image | _
  all_goals exact List.mem_cons_self

/-- The first round of a shorter file reads behind it. -/
theorem exists_not_inFile (arch : Arch) (host : Host) (data : Mem) (h : len < bootmgrMinLen) :
    ∃ r ∈ (decompressBootmgr arch host data len 1).rounds, ¬r.InFile len := by
  have hfirst : bootmgrMinLen < scanEnd arch len := by
    have hulong := arch.ulong_ge
    rw [scanEnd_of_lt h, bootmgrMinLen]
    omega
  refine ⟨_, scanRound_mem_decompressBootmgr hfirst, fun hround => ?_⟩
  have hread := lt_of_findDecompressor_within (by decide) hround.1
  omega

/-- **The scan stays inside the file** iff the file is no shorter than the minimal length. For a
shorter file the end of the offsets wraps, and the first round reads behind the file.
Source: utils/bmtool.c, decompress_bootmgr -/
theorem decompressBootmgr_inFile_iff (arch : Arch) (host : Host) (data : Mem) {fsize : ℤ} {len : ℕ}
    (hload : loadBootmgr arch fsize = some len) :
    (∀ n, ∀ r ∈ (decompressBootmgr arch host data len n).rounds, r.InFile len) ↔
      bootmgrMinLen ≤ len := by
  constructor
  · intro hall
    by_contra hshort
    obtain ⟨r, hr, hout⟩ := exists_not_inFile arch host data (not_le.mp hshort)
    exact hout (hall 1 r hr)
  · intro h n
    exact scanLoop_inFile (loadBootmgr_lt hload) h n le_rfl

/-- A host without memory for an image. -/
def bareHost : Host := ⟨fun _ => ⟨0, by decide⟩, fun _ _ => clearAlphabet, fun _ => none, Mem.zero⟩

/-- A file of 64 kiB. -/
theorem decompressBootmgr_inFile_iff_64k :
    (∀ n, ∀ r ∈ (decompressBootmgr .x86_64 bareHost Mem.zero 0x10000 n).rounds, r.InFile 0x10000) ↔
      bootmgrMinLen ≤ 0x10000 :=
  decompressBootmgr_inFile_iff .x86_64 bareHost Mem.zero
    (show loadBootmgr .x86_64 0x10000 = some 0x10000 by decide)

/-- A file of one byte is loaded, and the scan of it reads behind the file. -/
theorem decompressBootmgr_not_inFile :
    loadBootmgr .x86_64 1 = some 1 ∧
      ¬∀ n, ∀ r ∈ (decompressBootmgr .x86_64 bareHost Mem.zero 1 n).rounds, r.InFile 1 := by
  refine ⟨by decide, fun hall => ?_⟩
  obtain ⟨r, hr, hout⟩ := exists_not_inFile .x86_64 bareHost Mem.zero (show 1 < 16384 by decide)
  exact hout (hall 1 r hr)

/-! ## The scan ends -/

/-- The decompression of a candidate returns, -/
theorem Candidate.run_isSome (host : Host) (data : Mem) (c : Candidate) (udata : Option ℕ) :
    (c.run host data udata).isSome := by
  unfold Candidate.run
  cases c.decompress with
  | lznt1 => exact Option.isSome_map.trans (lznt1Decompress_isSome _ _ _ _)
  | xca =>
      refine Option.isSome_map.trans (xcaDecompress_isSome _ _ _ _ _ fun i _ hi => ?_)
      rw [stackXca_raw_of_neg _ _ hi]
      exact (host.codes i).isLt

/-- and so does a round. -/
theorem Round.ending_isSome (host : Host) (data : Mem) (r : Round) :
    (r.ending host data).isSome := by
  unfold Round.ending
  rcases r.candidate with _ | c
  · rfl
  · dsimp only
    unfold Candidate.extract
    obtain ⟨⟨len, mem⟩, hsize⟩ := Option.isSome_iff_exists.mp (c.run_isSome host data none)
    rw [hsize]
    dsimp only [Option.bind_eq_bind, Option.bind_some]
    by_cases hneg : len < 0
    · rw [if_pos hneg]
      rfl
    · rw [if_neg hneg]
      rcases host.malloc len.toNat with _ | udata
      · rfl
      · obtain ⟨r, hr⟩ := Option.isSome_iff_exists.mp (c.run_isSome host data (some udata))
        dsimp only
        rw [hr]
        rfl

/-- From the minimal length on the scan ends. -/
theorem scanLoop_ends (hlen : len < arch.ulong) (h : bootmgrMinLen ≤ len) (n : ℕ)
    (hn : scanEnd arch len - offset < n) :
    (scanLoop arch host data len n offset).image.isSome := by
  induction n generalizing offset with
  | zero => exact absurd hn (Nat.not_lt_zero _)
  | succ n ih =>
      rw [scanLoop]
      by_cases hend : offset < scanEnd arch len
      · have hnext : (offset + 0x08) % arch.ulong = offset + 0x08 := by
          rw [scanEnd_of_le hlen h, bootmgrMinLen] at hend
          exact Nat.mod_eq_of_lt (by omega)
        have hrest := @ih (offset + 0x08) (by omega)
        obtain ⟨ending, hending⟩ := Option.isSome_iff_exists.mp
          ((scanRound arch data len offset).ending_isSome host data)
        rw [if_pos hend, hnext]
        dsimp only
        rw [hending]
        rcases ending with _ | image | _
        · exact hrest
        · rfl
        · rfl
      · rw [if_neg hend]
        rfl

/-- No more rounds are made than the file has bytes. -/
theorem decompressBootmgr_ends (host : Host) (data : Mem) {fsize : ℤ}
    (hload : loadBootmgr arch fsize = some len) (h : bootmgrMinLen ≤ len) :
    (decompressBootmgr arch host data len len).image.isSome := by
  have hlen := loadBootmgr_lt hload
  refine scanLoop_ends hlen h len ?_
  rw [scanEnd_of_le hlen h]
  rw [bootmgrMinLen] at h ⊢
  omega

end Ntloader.Bmtool
