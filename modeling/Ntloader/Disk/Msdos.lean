import Ntloader.Disk.Fsuuid

/-!
# MBR partitions

The partitions of a disk are looked up in the table of sector 0, and in the tables that extended
entries refer to.

* `checkMbr`, `checkMsdosPartmap` — disk/msdos.c.
* `walk` — the partitions in the order of the tables, each with the table it comes from.
* `probeAll` — what the search does with partitions, one after the other.
* `checkMbr_eq`, `checkMsdosPartmap_eq` — the search goes through the walk.

Scope: the CHS fields of an entry and the messages are left out. The count of partitions is taken
inside a debugging message: it is a count in a DEBUG build only.
-/

namespace Ntloader.Disk

open Ntloader.Lib Ntloader.Kern

/-! ## Tables -/

/-- Source: include/msdos.h, MSDOS_PART_SIGNATURE -/
def msdosPartSignature : ℕ := 0xaa55

/-- Source: include/msdos.h, MSDOS_MAX_PARTITIONS -/
def msdosMaxPartitions : ℕ := 4

/-- Source: include/msdos.h, MSDOS_PART_TYPE_GPT_DISK -/
def msdosPartTypeGptDisk : ℕ := 0xee

/-- Source: include/msdos.h, struct msdos_part_entry -/
structure MsdosPartEntry where
  /-- The partition type. -/
  type : ℕ
  /-- The start sector. -/
  start : ℕ
  /-- The length in sector units. -/
  length : ℕ
  deriving DecidableEq

/-- Source: include/msdos.h, struct msdos_part_mbr, signature -/
def signature (mbr : Mem) : ℕ := mbr.word 510 2

/-- Source: include/msdos.h, struct msdos_part_mbr, unique_signature -/
def uniqueSignature (mbr : Mem) : ℕ := mbr.word 440 4

/-- Source: include/msdos.h, struct msdos_part_mbr, entries -/
def entry (mbr : Mem) (i : ℕ) : MsdosPartEntry where
  type := mbr.word (446 + 16 * i + 4) 1
  start := mbr.word (446 + 16 * i + 8) 4
  length := mbr.word (446 + 16 * i + 12) 4

/-- Source: include/msdos.h, msdos_part_is_empty -/
def msdosPartIsEmpty (type : ℕ) : Bool := type = 0

/-- Source: include/msdos.h, msdos_part_is_extended -/
def msdosPartIsExtended (type : ℕ) : Bool := type = 0x05 ∨ type = 0x0f ∨ type = 0x85

/-! ## The search -/

/-- A partition that is examined: the LBA of its table, the number of its entry, the start that the
entry gives and the signature of the sector of the table. -/
structure Probe where
  table : ℕ
  index : ℕ
  start : ℕ
  uniqueSignature : ℕ
  deriving DecidableEq

/-- The sector of a partition, which is computed in 32 bits. -/
def Probe.lba (p : Probe) : ℕ := (p.table + p.start) % 2 ^ 32

/-- The partition of an entry. -/
def probe (mbr : Mem) (startLba i : ℕ) : Probe :=
  ⟨startLba, i, (entry mbr i).start, uniqueSignature mbr⟩

/-- State of a search: the count of partitions, the arguments of the loader, and the partitions for
which `check_fsuuid` has been called. -/
structure ScanState where
  partCount : ℕ
  args : NtArgs
  log : List Probe

/-- Write bytes to the start of an array. -/
def memcpy {n : ℕ} (a : CharArray n) (bs : List UInt8) : CharArray n :=
  ⟨(bs ++ a.bytes.drop bs.length).take n, by
    have := a.length_eq
    simp only [List.length_take, List.length_append, List.length_drop]
    omega⟩

/-- Record a partition that matches; its address is computed in 64 bits.
Source: disk/msdos.c, check_mbr -/
def record (args : NtArgs) (p : Probe) : NtArgs :=
  let startAddr := (p.start + p.table) * 2 ^ 9 % 2 ^ 64
  { args with
    partid := memcpy args.partid (leBytes 8 startAddr)
    partmap := 0x01
    diskid := memcpy args.diskid (leBytes 4 p.uniqueSignature) }

/-- The state when `check_fsuuid` is called for a partition. -/
def ScanState.call (st : ScanState) (debug : Bool) (p : Probe) : ScanState :=
  { st with
    partCount := if debug then st.partCount + 1 else st.partCount
    log := st.log ++ [p] }

/-- The loop over the entries; `rec` is the call for an extended one.
Source: disk/msdos.c, check_mbr -/
def checkEntries (debug : Bool) (disk : DiskRead)
    (rec : ℕ → ScanState → Option (Bool × ScanState)) (startLba : ℕ) (mbr : Mem) :
    List ℕ → ScanState → Option (Bool × ScanState)
  | [], st => some (false, st)
  | i :: is, st =>
      let e := entry mbr i
      if st.partCount ≥ 32 then some (false, st) -- too many partitions
      else if e.type = msdosPartTypeGptDisk then some (false, st) -- found dummy mbr
      else if e.length = 0 ∨ msdosPartIsEmpty e.type then
        checkEntries debug disk rec startLba mbr is st
      else if msdosPartIsExtended e.type then
        (rec ((startLba + e.start) % 2 ^ 32) st).bind fun (found, st) =>
          if found then some (true, st) else checkEntries debug disk rec startLba mbr is st
      else
        let p := probe mbr startLba i
        let st := st.call debug p
        if checkFsuuid disk st.args p.lba then some (true, { st with args := record st.args p })
        else checkEntries debug disk rec startLba mbr is st

/-- Source: disk/msdos.c, check_mbr -/
def checkMbr (debug : Bool) (disk : DiskRead) : ℕ → ℕ → ScanState → Option (Bool × ScanState)
  | 0, _, _ => none
  | fuel + 1, startLba, st =>
      match disk startLba with
      | none => some (false, st)
      | some mbr =>
          if signature mbr ≠ msdosPartSignature then some (false, st)
          else
            checkEntries debug disk (checkMbr debug disk fuel) startLba mbr
              (List.range msdosMaxPartitions) st

/-- Source: disk/msdos.c, check_msdos_partmap -/
def checkMsdosPartmap (debug : Bool) (disk : DiskRead) (fuel : ℕ) (args : NtArgs) :
    Option (Bool × ScanState) :=
  checkMbr debug disk fuel 0 ⟨0, args, []⟩

/-! ## The walk -/

/-- The partitions of the entries of a table; `rec` are those of an extended entry. A dummy entry
ends the table. -/
def walkEntries (rec : ℕ → List Probe) (startLba : ℕ) (mbr : Mem) : List ℕ → List Probe
  | [] => []
  | i :: is =>
      let e := entry mbr i
      if e.type = msdosPartTypeGptDisk then []
      else if e.length = 0 ∨ msdosPartIsEmpty e.type then walkEntries rec startLba mbr is
      else if msdosPartIsExtended e.type then
        rec ((startLba + e.start) % 2 ^ 32) ++ walkEntries rec startLba mbr is
      else probe mbr startLba i :: walkEntries rec startLba mbr is

/-- The partitions of the table at an LBA, down to a depth of tables. -/
def walk (disk : DiskRead) : ℕ → ℕ → List Probe
  | 0, _ => []
  | depth + 1, startLba =>
      match disk startLba with
      | none => []
      | some mbr =>
          if signature mbr ≠ msdosPartSignature then []
          else walkEntries (walk disk depth) startLba mbr (List.range msdosMaxPartitions)

/-- Examine partitions one after the other, up to the first one that matches or to the limit of
their count. -/
def probeAll (debug : Bool) (disk : DiskRead) : List Probe → ScanState → Bool × ScanState
  | [], st => (false, st)
  | p :: ps, st =>
      if st.partCount ≥ 32 then (false, st)
      else
        let st := st.call debug p
        if checkFsuuid disk st.args p.lba then (true, { st with args := record st.args p })
        else probeAll debug disk ps st

/-- Beyond the limit nothing is examined. -/
theorem probeAll_full {debug : Bool} {disk : DiskRead} {st : ScanState} (h : st.partCount ≥ 32)
    (ps : List Probe) : probeAll debug disk ps st = (false, st) := by
  cases ps with
  | nil => rfl
  | cons p ps => rw [probeAll, if_pos h]

/-- Partitions are examined behind others if none of those matches. -/
theorem probeAll_append (debug : Bool) (disk : DiskRead) (ps qs : List Probe) (st : ScanState) :
    probeAll debug disk (ps ++ qs) st =
      if (probeAll debug disk ps st).1 then probeAll debug disk ps st
      else probeAll debug disk qs (probeAll debug disk ps st).2 := by
  induction ps generalizing st with
  | nil => rfl
  | cons p ps ih =>
      rw [List.cons_append, probeAll, probeAll]
      by_cases hfull : st.partCount ≥ 32
      · rw [if_pos hfull, if_pos hfull, if_neg Bool.false_ne_true, probeAll_full hfull]
      · rw [if_neg hfull, if_neg hfull]
        dsimp only
        by_cases hmatch : checkFsuuid disk (st.call debug p).args p.lba = true
        · rw [if_pos hmatch, if_pos hmatch, if_pos rfl]
        · rw [if_neg hmatch, if_neg hmatch]
          exact ih _

/-- The loop examines the partitions of the entries, if the calls for the extended ones do. -/
theorem checkEntries_eq {debug : Bool} {disk : DiskRead}
    {rec : ℕ → ScanState → Option (Bool × ScanState)} {recWalk : ℕ → List Probe}
    (hrec : ∀ lba st r, rec lba st = some r → r = probeAll debug disk (recWalk lba) st)
    {startLba : ℕ} {mbr : Mem} {is : List ℕ} {st : ScanState} {r : Bool × ScanState}
    (h : checkEntries debug disk rec startLba mbr is st = some r) :
    r = probeAll debug disk (walkEntries recWalk startLba mbr is) st := by
  induction is generalizing st with
  | nil => exact (Option.some.inj h).symm
  | cons i is ih =>
      rw [checkEntries] at h
      rw [walkEntries]
      by_cases hfull : st.partCount ≥ 32
      · rw [probeAll_full hfull]
        rw [if_pos hfull] at h
        exact (Option.some.inj h).symm
      · rw [if_neg hfull] at h
        split_ifs at h ⊢ with hgpt hempty hext
        · exact (Option.some.inj h).symm
        · exact ih h
        · obtain ⟨⟨found, st'⟩, hcall, hrest⟩ := Option.bind_eq_some_iff.mp h
          have hst := hrec _ _ _ hcall
          rw [probeAll_append, ← hst]
          cases found with
          | true => exact (Option.some.inj hrest).symm
          | false => exact ih hrest
        · rw [probeAll, if_neg hfull]
          dsimp only at h ⊢
          by_cases hmatch : checkFsuuid disk (st.call debug (probe mbr startLba i)).args
              (probe mbr startLba i).lba = true
          · rw [if_pos hmatch] at h ⊢
            exact (Option.some.inj h).symm
          · rw [if_neg hmatch] at h ⊢
            exact ih h

/-- The search from a table examines the partitions of the walk from it. -/
theorem checkMbr_eq {debug : Bool} {disk : DiskRead} {fuel startLba : ℕ} {st : ScanState}
    {r : Bool × ScanState} (h : checkMbr debug disk fuel startLba st = some r) :
    r = probeAll debug disk (walk disk fuel startLba) st := by
  induction fuel generalizing startLba st r with
  | zero => cases h
  | succ fuel ih =>
      rw [checkMbr] at h
      rw [walk]
      split at h
      · exact (Option.some.inj h).symm
      · split_ifs at h ⊢ with hsig
        · exact (Option.some.inj h).symm
        · exact @checkEntries_eq _ _ _ (walk disk fuel) (fun _ _ _ => ih) _ _ _ _ _ h

/-- **A search that ends** makes the probes of the walk. -/
theorem checkMsdosPartmap_eq {debug : Bool} {disk : DiskRead} {fuel : ℕ} {args : NtArgs}
    {r : Bool × ScanState} (h : checkMsdosPartmap debug disk fuel args = some r) :
    r = probeAll debug disk (walk disk fuel 0) ⟨0, args, []⟩ :=
  checkMbr_eq h

end Ntloader.Disk
