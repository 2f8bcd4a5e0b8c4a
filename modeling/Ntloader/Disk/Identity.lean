import Ntloader.Disk.Msdos

/-!
# The identity of the boot partition

The search leaves in the arguments where the partition that matches starts and which disk it is on.

* `exists_of_probeAll` — the partition that matches is the first one of the walk that does.
* `mem_walk` — a partition of the walk is an entry of a table on the disk.
* `identity_iff` — the disk is identified by sector 0 only if the table of the partition has the
  same signature.
-/

namespace Ntloader.Disk

open Ntloader.Lib Ntloader.Posix Ntloader.Kern

/-! ## The match -/

/-- A search that succeeds ends at the first partition that matches. -/
theorem exists_of_probeAll {debug : Bool} {disk : DiskRead} {ps : List Probe} {st st' : ScanState}
    (h : probeAll debug disk ps st = (true, st')) :
    ∃ p, ps.find? (fun p => checkFsuuid disk st.args p.lba) = some p ∧
      st'.args = record st.args p := by
  induction ps generalizing st with
  | nil => cases h
  | cons p ps ih =>
      rw [probeAll] at h
      by_cases hfull : st.partCount ≥ 32
      · rw [if_pos hfull] at h
        cases h
      · rw [if_neg hfull] at h
        dsimp only at h
        have hargs : (st.call debug p).args = st.args := rfl
        by_cases hmatch : checkFsuuid disk st.args p.lba = true
        · rw [hargs, if_pos hmatch, Prod.mk.injEq] at h
          refine ⟨p, List.find?_cons_of_pos hmatch, ?_⟩
          rw [← h.2]
        · rw [hargs, if_neg hmatch] at h
          obtain ⟨q, hfind, hq⟩ := ih h
          refine ⟨q, ?_, hq⟩
          rw [List.find?_cons_of_neg (by simp [hmatch])]
          exact hfind

/-! ## Partitions of the walk -/

/-- A partition of the entries is an entry of this table, or one of a table below. -/
theorem mem_walkEntries {rec : ℕ → List Probe} {startLba : ℕ} {mbr : Mem} {is : List ℕ} {p : Probe}
    (h : p ∈ walkEntries rec startLba mbr is) :
    (∃ i ∈ is, p = probe mbr startLba i) ∨ ∃ lba < 2 ^ 32, p ∈ rec lba := by
  induction is with
  | nil => cases h
  | cons i is ih =>
      rw [walkEntries] at h
      have hrest (h : p ∈ walkEntries rec startLba mbr is) :
          (∃ j ∈ i :: is, p = probe mbr startLba j) ∨ ∃ lba < 2 ^ 32, p ∈ rec lba := by
        rcases ih h with ⟨j, hj, hp⟩ | hrec
        · exact Or.inl ⟨j, List.mem_cons_of_mem _ hj, hp⟩
        · exact Or.inr hrec
      split_ifs at h with hgpt hempty hext
      · cases h
      · exact hrest h
      · rcases List.mem_append.mp h with h | h
        · exact Or.inr ⟨_, Nat.mod_lt _ (by norm_num), h⟩
        · exact hrest h
      · rcases List.mem_cons.mp h with h | h
        · exact Or.inl ⟨i, List.mem_cons_self, h⟩
        · exact hrest h

/-- A partition of the walk is an entry of a table that is read from the disk. -/
theorem mem_walk {disk : DiskRead} {fuel startLba : ℕ} {p : Probe} (hlba : startLba < 2 ^ 32)
    (h : p ∈ walk disk fuel startLba) :
    p.table < 2 ^ 32 ∧ p.index < msdosMaxPartitions ∧
      ∃ mbr, disk p.table = some mbr ∧ p = probe mbr p.table p.index := by
  induction fuel generalizing startLba with
  | zero => cases h
  | succ fuel ih =>
      rw [walk] at h
      split at h
      · cases h
      · rename_i mbr hmbr
        split_ifs at h with hsig
        · cases h
        · rcases mem_walkEntries h with ⟨i, hi, rfl⟩ | ⟨lba, hlt, hmem⟩
          · exact ⟨hlba, List.mem_range.mp hi, mbr, hmbr, rfl⟩
          · exact ih hlt hmem

/-! ## What is recorded -/

/-- What is copied into an array is read back. -/
theorem memcpy_take {n : ℕ} (a : CharArray n) {bs : List UInt8} (h : bs.length ≤ n) :
    (memcpy a bs).bytes.take bs.length = bs := by
  show ((bs ++ a.bytes.drop bs.length).take n).take bs.length = bs
  rw [List.take_take, Nat.min_eq_left h, List.take_left']
  rfl

/-- The start of the partition is recorded, in bytes, -/
theorem record_partid (args : NtArgs) (p : Probe) :
    leNat ((record args p).partid.bytes.take 8) = (p.start + p.table) * 2 ^ 9 % 2 ^ 64 := by
  have h := @memcpy_take _ args.partid (leBytes 8 ((p.start + p.table) * 2 ^ 9 % 2 ^ 64))
      (by rw [leBytes_length]; norm_num)
  rw [leBytes_length] at h
  exact (congrArg leNat h).trans (leNat_leBytes_of_lt (Nat.mod_lt _ (by norm_num)))

/-- and so is the signature of the disk. -/
theorem record_diskid (args : NtArgs) {p : Probe} (h : p.uniqueSignature < 2 ^ 32) :
    leNat ((record args p).diskid.bytes.take 4) = p.uniqueSignature := by
  have hcopy := @memcpy_take _ args.diskid (leBytes 4 p.uniqueSignature)
      (by rw [leBytes_length]; norm_num)
  rw [leBytes_length] at hcopy
  exact (congrArg leNat hcopy).trans (leNat_leBytes_of_lt h)

/-- The identity of the partition that matches is the one of the disk if and only if the sector of
its table has the signature of sector 0 and its sector is below 2^32. -/
theorem identity_iff {debug : Bool} {disk : DiskRead} {fuel : ℕ} {args : NtArgs} {st : ScanState}
    (h : checkMsdosPartmap debug disk fuel args = some (true, st)) :
    ∃ p mbr mbr₀, (walk disk fuel 0).find? (fun p => checkFsuuid disk args p.lba) = some p ∧
      disk 0 = some mbr₀ ∧ disk p.table = some mbr ∧ p = probe mbr p.table p.index ∧
      ((leNat (st.args.partid.bytes.take 8) = p.lba * 512 ∧ st.args.partmap = 1 ∧
          leNat (st.args.diskid.bytes.take 4) = uniqueSignature mbr₀) ↔
        uniqueSignature mbr = uniqueSignature mbr₀ ∧
          p.table + (entry mbr p.index).start < 2 ^ 32) := by
  obtain ⟨p, hfind, hargs⟩ := exists_of_probeAll (checkMsdosPartmap_eq h).symm
  have hmem := List.mem_of_find?_eq_some hfind
  obtain ⟨htable, -, mbr, hmbr, hp⟩ := mem_walk (by norm_num) hmem
  obtain ⟨mbr₀, hmbr₀⟩ : ∃ mbr₀, disk 0 = some mbr₀ := by
    cases fuel with
    | zero => cases hmem
    | succ fuel =>
        rw [walk] at hmem
        split at hmem
        · cases hmem
        · rename_i mbr₀ hmbr₀
          exact ⟨mbr₀, hmbr₀⟩
  have hstart : p.start = (entry mbr p.index).start := congrArg Probe.start hp
  have hsig : p.uniqueSignature = uniqueSignature mbr := congrArg Probe.uniqueSignature hp
  have hstartlt : (entry mbr p.index).start < 2 ^ 32 := Mem.word_lt mbr _ 4
  have hsiglt : p.uniqueSignature < 2 ^ 32 := by
    rw [hsig]
    exact Mem.word_lt mbr 440 4
  refine ⟨p, mbr, mbr₀, hfind, hmbr₀, hmbr, hp, ?_⟩
  rw [hargs, record_partid, record_diskid args hsiglt, hsig, Probe.lba, hstart]
  constructor
  · rintro ⟨hpartid, -, hdisk⟩
    exact ⟨hdisk, by omega⟩
  · rintro ⟨hdisk, hlt⟩
    exact ⟨by omega, rfl, hdisk⟩

/-! ## A logical partition -/

/-- A sector with a table of one entry, at the first place: its type, start and length. -/
def tableSector (uniqueSignature type start length : ℕ) : Mem :=
  ((((Mem.zero.putWord 440 4 uniqueSignature).putWord 450 1 type).putWord 454 4 start).putWord
    458 4 length).putWord 510 2 msdosPartSignature

/-- An NTFS volume with a serial number. -/
def ntfsSector (serial : ℕ) : Mem := (Mem.zero.store 3 (str "NTFS")).putWord 72 8 serial

/-- A disk with the signature `0x11223344` and an extended partition at sector 1, in which there is
an NTFS volume at sector 2. -/
def logicalDisk : DiskRead
  | 0 => some (tableSector 0x11223344 0x05 1 2)
  | 1 => some (tableSector 0 0x07 1 1)
  | 2 => some (ntfsSector 1)
  | _ => none

/-- The command line `uuid=0000000000000001`. -/
def logicalArgs : NtArgs :=
  { NtArgs.init with fsuuid := NtArgs.init.fsuuid.snprintf (str "0000000000000001") }

/-- The signature that is recorded for the logical partition is not the one of sector 0. -/
theorem identity_logical :
    ¬∀ (debug : Bool) (disk : DiskRead) (fuel : ℕ) (args : NtArgs) (st : ScanState) (mbr₀ : Mem),
      checkMsdosPartmap debug disk fuel args = some (true, st) → disk 0 = some mbr₀ →
      leNat (st.args.diskid.bytes.take 4) = uniqueSignature mbr₀ := by
  intro h
  have hrun : (checkMsdosPartmap false logicalDisk 3 logicalArgs).map
      (fun r => (r.1, leNat (r.2.args.diskid.bytes.take 4))) = some (true, 0) := by
    decide +kernel
  obtain ⟨⟨found, st⟩, hr, hval⟩ := Option.map_eq_some_iff.mp hrun
  rw [Prod.mk.injEq] at hval
  dsimp only at hval
  rw [hval.1] at hr
  have hdisk := h false logicalDisk 3 logicalArgs st _ hr rfl
  rw [hval.2] at hdisk
  exact absurd hdisk (by decide +kernel)

/-- The same disk, for the theorem. -/
theorem identity_iff_logical :
    ∃ st, checkMsdosPartmap false logicalDisk 3 logicalArgs = some (true, st) ∧
      ∃ p mbr mbr₀, (walk logicalDisk 3 0).find? (fun p => checkFsuuid logicalDisk logicalArgs p.lba) =
          some p ∧ logicalDisk 0 = some mbr₀ ∧ logicalDisk p.table = some mbr ∧
        p = probe mbr p.table p.index ∧
        ((leNat (st.args.partid.bytes.take 8) = p.lba * 512 ∧ st.args.partmap = 1 ∧
            leNat (st.args.diskid.bytes.take 4) = uniqueSignature mbr₀) ↔
          uniqueSignature mbr = uniqueSignature mbr₀ ∧
            p.table + (entry mbr p.index).start < 2 ^ 32) := by
  have hrun : (checkMsdosPartmap false logicalDisk 3 logicalArgs).map Prod.fst = some true := by
    decide +kernel
  obtain ⟨⟨found, st⟩, hr, hfound⟩ := Option.map_eq_some_iff.mp hrun
  have hfound' : found = true := hfound
  rw [hfound'] at hr
  exact ⟨st, hr, identity_iff hr⟩

end Ntloader.Disk
