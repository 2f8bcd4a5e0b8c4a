import Ntloader.Vdisk.Refine

/-!
# Listing a virtual directory

What a FAT driver that lists a directory of the virtual disk finds in it.

* `parseRecords` — the records of a directory: deleted records are skipped, and a short entry follows
  the records of its long name, the last of the name first. `none` if they are out of order.
* `parseRecords_direntRun` — a run that the builders write is one entry, under its name.
* `listDirectory_eq` — the cluster of every directory lists its subdirectories and all registered
  files.
-/

namespace Ntloader.Vdisk

open Ntloader.Lib Ntloader.Lib.Mem

/-! ## A driver -/

/-- A number in a record. -/
def field (record : List UInt8) (o n : ℕ) : ℕ := leNat ((record.drop o).take n)

/-- The attribute of a record. -/
def recordAttr (record : List UInt8) : ℕ := field record 11 1

/-- The units of a long-name record. -/
def recordUnits (record : List UInt8) : List ℕ :=
  [1, 3, 5, 7, 9, 14, 16, 18, 20, 22, 24, 28, 30].map fun o => field record o 2

/-- The long name that has been read up to a record. -/
structure LongName where
  /-- The sequence number of the record. -/
  sequence : ℕ
  /-- The checksum of the short name. -/
  checksum : UInt8
  /-- The units from the record on. -/
  units : List ℕ
  deriving Repr, DecidableEq

/-- An entry of a directory. -/
structure DirEntry where
  /-- The units of its name. -/
  name : List ℕ
  /-- Its attribute. -/
  attr : ℕ
  /-- Its size, 32 bits. -/
  size : ℕ
  /-- Its first cluster. -/
  cluster : ℕ
  deriving Repr, DecidableEq

/-- A long-name record, behind the ones that have been read. The first on the disk has the flag, and
the sequence numbers descend. -/
def readLongName (record : List UInt8) (pending : Option LongName) : Option LongName :=
  let sequence := field record 0 1
  let checksum := record.getD 13 0
  match pending with
  | none =>
      if vdiskLfnEnd < sequence ∧ sequence < 2 * vdiskLfnEnd then
        some ⟨sequence - vdiskLfnEnd, checksum, recordUnits record⟩
      else none
  | some p =>
      if 0 < sequence ∧ sequence + 1 = p.sequence ∧ checksum = p.checksum then
        some ⟨sequence, checksum, recordUnits record ++ p.units⟩
      else none

/-- A short entry, behind all records of its long name. -/
def readShortEntry (record : List UInt8) (pending : Option LongName) : Option DirEntry :=
  pending.bind fun p =>
    if p.sequence = 1 ∧ p.checksum = dosChecksum (record.take 11) then
      some ⟨p.units.takeWhile (· ≠ 0), recordAttr record, field record 28 4,
        field record 20 2 * 2 ^ 16 + field record 26 2⟩
    else none

/-- The entries of a directory, from its records. A record that starts with zero ends it. -/
def parseRecords : List (List UInt8) → Option LongName → Option (List DirEntry)
  | [], pending => if pending.isNone then some [] else none
  | record :: records, pending =>
      if record.getD 0 0 = 0 ∨ record.getD 0 0 = vdiskDirentDeleted then
        if pending.isSome then none
        else if record.getD 0 0 = 0 then some []
        else parseRecords records none
      else if recordAttr record = vdiskLfnAttr.toNat then
        (readLongName record pending).bind fun p => parseRecords records (some p)
      else (readShortEntry record pending).bind fun entry =>
        (parseRecords records none).map (entry :: ·)

/-- The 32-byte records in memory. -/
def recordsAt (m : Mem) : ℕ → ℕ → List (List UInt8)
  | _, 0 => []
  | a, n + 1 => m.bytes a 32 :: recordsAt m (a + 32) n

/-- List a directory: the entries in its cluster, read as `VDISK_CLUSTER_COUNT` sectors. -/
def listDirectory (arch : Arch) (t : VdiskFiles) (d : Directory) (data : ℕ) (m : Mem) :
    Option (List DirEntry) :=
  (vdiskRead arch t (vdiskDirectoryLba d.cluster) vdiskClusterCount data m).bind fun m' =>
    parseRecords (recordsAt m' data (vdiskClusterCount * vdiskDirentPerSector)) none

/-- A subdirectory, as it is listed. -/
def Subdir.listed (d : Subdir) : DirEntry :=
  ⟨d.1.map UInt8.toNat, vdiskDirectory, 0, d.2⟩

/-- A file, as it is listed: its stored name, the low 32 bits of its length, and the cluster of its
place in the table. -/
def Registration.listed (r : Registration) (idx : ℕ) : DirEntry :=
  ⟨(storedName r.name).map UInt8.toNat, vdiskReadOnly, r.len % 2 ^ 32, vdiskFileCluster idx⟩

/-! ## The records of an entry -/

/-- A deleted record is skipped. -/
theorem parseRecords_deletedRecord (records : List (List UInt8)) :
    parseRecords (deletedRecord :: records) none = parseRecords records none := by
  have hfirst : deletedRecord.getD 0 0 = vdiskDirentDeleted := rfl
  rw [parseRecords, hfirst, if_pos (Or.inr rfl), if_neg (by simp), if_neg (by decide)]

/-- Deleted records in front are passed over. -/
theorem parseRecords_fillSector (runs records : List (List UInt8)) :
    parseRecords (fillSector runs ++ records) none = parseRecords (runs ++ records) none := by
  unfold fillSector
  rw [List.append_assoc]
  induction 16 - runs.length with
  | zero => rfl
  | succ n ih => rw [List.replicate_succ, List.cons_append, parseRecords_deletedRecord, ih]

section LongName

variable {checksum : UInt8} {units : List ℕ}

/-- The fields of a long-name record, whatever its first byte. -/
theorem lfnRecord_fields (h : units.length = 13) (hlt : ∀ u ∈ units, u < 256 ^ 2) (sequence : ℕ)
    (b : UInt8) (checksum : UInt8) :
    let record := b :: (lfnRecord sequence checksum units).drop 1
    field record 0 1 = b.toNat ∧ recordAttr record = vdiskLfnAttr.toNat ∧
      record.getD 13 0 = checksum ∧ recordUnits record = units := by
  match units, h with
  | [u₀, u₁, u₂, u₃, u₄, u₅, u₆, u₇, u₈, u₉, u₁₀, u₁₁, u₁₂], _ =>
      have hfirst : field (b :: (lfnRecord sequence checksum
          [u₀, u₁, u₂, u₃, u₄, u₅, u₆, u₇, u₈, u₉, u₁₀, u₁₁, u₁₂]).drop 1) 0 1 = leNat [b] := rfl
      have hattr : recordAttr (b :: (lfnRecord sequence checksum
          [u₀, u₁, u₂, u₃, u₄, u₅, u₆, u₇, u₈, u₉, u₁₀, u₁₁, u₁₂]).drop 1) = leNat [vdiskLfnAttr] := rfl
      refine ⟨hfirst, hattr, rfl, ?_⟩
      change [u₀, u₁, u₂, u₃, u₄, u₅, u₆, u₇, u₈, u₉, u₁₀, u₁₁, u₁₂].map
        (fun u => leNat (leBytes 2 u)) = _
      refine (List.map_congr_left fun u hu => ?_).trans (List.map_id _)
      exact leNat_leBytes_of_lt (hlt u hu)

/-- A record is its sequence number and the rest. -/
theorem lfnRecord_cons (sequence : ℕ) (checksum : UInt8) (units : List ℕ) :
    UInt8.ofNat sequence :: (lfnRecord sequence checksum units).drop 1 =
      lfnRecord sequence checksum units := rfl

/-- A long-name record is read, if its sequence number is one that can be. -/
theorem parseRecords_lfnRecord (h : units.length = 13) (hlt : ∀ u ∈ units, u < 256 ^ 2)
    (sequence : ℕ) (checksum : UInt8) {b : UInt8} (hpos : 0 < b.toNat) (hb : b.toNat < 2 * vdiskLfnEnd)
    (records : List (List UInt8)) (pending : Option LongName) :
    parseRecords ((b :: (lfnRecord sequence checksum units).drop 1) :: records) pending =
      (readLongName (b :: (lfnRecord sequence checksum units).drop 1) pending).bind fun p =>
        parseRecords records (some p) := by
  obtain ⟨-, hattr, -, -⟩ := lfnRecord_fields h hlt sequence b checksum
  have hzero : b ≠ 0 := by
    rintro rfl
    exact absurd hpos (by decide)
  have hdeleted : b ≠ vdiskDirentDeleted := by
    rintro rfl
    exact absurd hb (by decide)
  rw [parseRecords, List.getD_cons_zero, if_neg (not_or.mpr ⟨hzero, hdeleted⟩), if_pos hattr]

/-- **The records of a long name** are read to its units. -/
theorem parseRecords_lfnRun {chunks : List (List ℕ)} (hne : chunks ≠ [])
    (h : ∀ chunk ∈ chunks, chunk.length = 13) (hlt : ∀ chunk ∈ chunks, ∀ u ∈ chunk, u < 256 ^ 2)
    {sequence : ℕ} (hpos : 0 < sequence) (hle : sequence + chunks.length ≤ vdiskLfnEnd)
    (records : List (List UInt8)) :
    parseRecords (lfnRun checksum (UInt8.ofNat vdiskLfnEnd) sequence chunks ++ records) none =
      parseRecords records (some ⟨sequence, checksum, chunks.flatten⟩) := by
  induction chunks generalizing sequence records with
  | nil => exact absurd rfl hne
  | cons units chunks ih =>
      rw [List.length_cons] at hle
      unfold vdiskLfnEnd at hle
      have hunits := h units List.mem_cons_self
      have hword := hlt units List.mem_cons_self
      have hsequence : (UInt8.ofNat sequence).toNat = sequence := by
        rw [UInt8.toNat_ofNat']
        omega
      rcases eq_or_ne chunks [] with rfl | hchunks
      · -- the first record on the disk, with the flag
        have hflag : (UInt8.ofNat sequence ||| UInt8.ofNat vdiskLfnEnd).toNat =
            vdiskLfnEnd + sequence := by
          rw [UInt8.toNat_or, hsequence]
          exact (Nat.or_comm _ _).trans
            (Nat.two_pow_add_eq_or_of_lt (i := 6) (show sequence < 2 ^ 6 by omega) 1).symm
        obtain ⟨hfirst, -, hchecksum, hnames⟩ := lfnRecord_fields hunits hword sequence
          (UInt8.ofNat sequence ||| UInt8.ofNat vdiskLfnEnd) checksum
        have hread : readLongName ((UInt8.ofNat sequence ||| UInt8.ofNat vdiskLfnEnd) ::
            (lfnRecord sequence checksum units).drop 1) none =
            some ⟨sequence, checksum, units⟩ := by
          unfold readLongName
          dsimp only
          rw [hfirst, hchecksum, hnames, hflag, if_pos (by unfold vdiskLfnEnd; omega),
            Nat.add_sub_cancel_left]
        rw [lfnRun, List.singleton_append,
          parseRecords_lfnRecord hunits hword sequence checksum (by omega)
            (by unfold vdiskLfnEnd at *; omega),
          hread, Option.bind_some, List.flatten_cons, List.flatten_nil, List.append_nil]
      · -- a record behind the ones of the rest of the name
        obtain ⟨hfirst, -, hchecksum, hnames⟩ := lfnRecord_fields hunits hword sequence
          (UInt8.ofNat sequence) checksum
        have hparse := parseRecords_lfnRecord hunits hword sequence checksum
          (b := UInt8.ofNat sequence) (by omega) (by unfold vdiskLfnEnd; omega) records
          (some ⟨sequence + 1, checksum, chunks.flatten⟩)
        rw [lfnRecord_cons] at hfirst hchecksum hnames hparse
        have hread : readLongName (lfnRecord sequence checksum units)
            (some ⟨sequence + 1, checksum, chunks.flatten⟩) =
            some ⟨sequence, checksum, units ++ chunks.flatten⟩ := by
          unfold readLongName
          dsimp only
          rw [hfirst, hsequence, hchecksum, hnames, if_pos ⟨hpos, rfl, rfl⟩]
        rw [lfnRun_cons _ _ _ _ hchunks, List.append_assoc, List.singleton_append,
          ih hchunks (fun c hc => h c (List.mem_cons_of_mem _ hc))
            (fun c hc => hlt c (List.mem_cons_of_mem _ hc)) (Nat.succ_pos _)
            (by unfold vdiskLfnEnd; omega),
          hparse, hread, Option.bind_some, List.flatten_cons]

end LongName

/-- The units of a name of 16-bit units. -/
theorem lt_of_mem_lfnChunks (name : List UInt8) : ∀ chunk ∈ lfnChunks name [], ∀ u ∈ chunk,
    u < 256 ^ 2 := by
  intro chunk hchunk u hu
  obtain ⟨n, hflatten⟩ := flatten_lfnChunks name []
  have hmem : u ∈ (lfnChunks name []).flatten := List.mem_flatten.mpr ⟨chunk, hchunk, hu⟩
  rw [hflatten, List.nil_append] at hmem
  rcases List.mem_append.mp hmem with hmem | hmem
  · obtain ⟨c, -, rfl⟩ := List.mem_map.mp hmem
    have := c.toNat_lt
    unfold lfnUnit
    split_ifs <;> omega
  · rcases List.mem_cons.mp hmem with rfl | hmem
    · decide
    · rw [List.eq_of_mem_replicate hmem]
      decide

/-- The units in front of the first zero are the name. -/
theorem takeWhile_lfnChunks {name : List UInt8} (h : 0 ∉ name) :
    (lfnChunks name []).flatten.takeWhile (· ≠ 0) = name.map lfnUnit := by
  obtain ⟨n, hflatten⟩ := flatten_lfnChunks name []
  have hall : ∀ u ∈ name.map lfnUnit, decide (u ≠ 0) = true := by
    intro u hu
    obtain ⟨c, hc, rfl⟩ := List.mem_map.mp hu
    have hne : c.toNat ≠ 0 := by
      intro hzero
      obtain rfl : c = 0 := UInt8.toNat_inj.mp hzero
      exact h hc
    rw [decide_eq_true_eq]
    unfold lfnUnit
    split_ifs <;> omega
  rw [hflatten, List.nil_append, List.takeWhile_append_of_pos hall, List.takeWhile_cons_of_neg (by simp),
    List.append_nil]

/-- The fields of a short entry. -/
theorem dosRecord_fields (len : ℕ) {attr cluster : ℕ} (hattr : attr < 256) (hcluster : cluster < 2 ^ 32) :
    let record := dosRecord len attr cluster
    record.getD 0 0 = 0x20 ∧ record.take 11 = List.replicate 11 0x20 ∧ recordAttr record = attr ∧
      field record 28 4 = len % 2 ^ 32 ∧
      field record 20 2 * 2 ^ 16 + field record 26 2 = cluster := by
  have hattr' : recordAttr (dosRecord len attr cluster) = leNat (leBytes 1 attr) := rfl
  have hsize : field (dosRecord len attr cluster) 28 4 = leNat (leBytes 4 len) := rfl
  have hhigh : field (dosRecord len attr cluster) 20 2 = leNat (leBytes 2 (cluster >>> 16)) := rfl
  have hlow : field (dosRecord len attr cluster) 26 2 = leNat (leBytes 2 (cluster &&& 0xffff)) := rfl
  have hmask : cluster &&& 0xffff = cluster % 2 ^ 16 := Nat.and_two_pow_sub_one_eq_mod cluster 16
  refine ⟨rfl, rfl, ?_, ?_, ?_⟩
  · rw [hattr', leNat_leBytes_of_lt hattr]
  · rw [hsize]
    exact leNat_leBytes 4 len
  · rw [hhigh, hlow, leNat_leBytes, leNat_leBytes, hmask, Nat.shiftRight_eq_div_pow]
    omega

/-- **A directory entry** is read under its name. -/
theorem parseRecords_direntRun {name : List UInt8} (h : 0 ∉ name) (hlen : name.length ≤ vdiskNameLen)
    (len : ℕ) {attr cluster : ℕ} (hattr : attr < 256) (hlfn : attr ≠ vdiskLfnAttr.toNat)
    (hcluster : cluster < 2 ^ 32) (records : List (List UInt8)) :
    parseRecords (direntRun name len attr cluster ++ records) none =
      (parseRecords records none).map
        (⟨name.map lfnUnit, attr, len % 2 ^ 32, cluster⟩ :: ·) := by
  obtain ⟨hfirst, hraw, hfield, hsize, hcl⟩ := dosRecord_fields len hattr hcluster
  have hchunks := @lfnChunks_length name [] (by simp)
  have hread : readShortEntry (dosRecord len attr cluster)
      (some ⟨1, shortChecksum, (lfnChunks name []).flatten⟩) =
      some ⟨name.map lfnUnit, attr, len % 2 ^ 32, cluster⟩ := by
    unfold readShortEntry
    rw [Option.bind_some, hraw, if_pos ⟨rfl, rfl⟩, takeWhile_lfnChunks h, hfield, hsize, hcl]
  unfold direntRun
  rw [List.append_assoc, parseRecords_lfnRun (lfnChunks_ne_nil name []) (length_of_mem_lfnChunks (by simp))
    (lt_of_mem_lfnChunks name) Nat.one_pos, List.singleton_append, parseRecords, hfirst,
    if_neg (by decide), hfield, if_neg hlfn, hread, Option.bind_some]
  rw [hchunks]
  unfold vdiskLfnEnd
  rw [vdiskNameLen] at hlen
  simp only [List.length_nil]
  omega

/-! ## The records of a directory -/

/-- The units of a name of 7-bit characters. -/
theorem map_lfnUnit {name : List UInt8} (h : ∀ c ∈ name, c < 0x80) :
    name.map lfnUnit = name.map UInt8.toNat :=
  List.map_congr_left fun c hc => if_pos (h c hc)

/-- Subdirectories are read in the order they stand in, the last one constructed first. -/
theorem parseRecords_subdirRuns {subdirs : List Subdir}
    (h : ∀ d ∈ subdirs, d.1.length ≤ vdiskNameLen ∧ 0 ∉ d.1 ∧ (∀ c ∈ d.1, c < 0x80) ∧ d.2 < 2 ^ 32)
    (records : List (List UInt8)) :
    parseRecords (subdirRuns subdirs ++ records) none =
      (parseRecords records none).map (subdirs.reverse.map Subdir.listed ++ ·) := by
  induction subdirs generalizing records with
  | nil => simp [subdirRuns]
  | cons d subdirs ih =>
      obtain ⟨hlen, hnul, hascii, hcluster⟩ := h d List.mem_cons_self
      have hattr : vdiskDirectory < 256 := by decide
      have hrun := parseRecords_direntRun hnul hlen 0 hattr (by decide) hcluster records
      unfold subdirRuns
      rw [List.append_assoc, ih (fun d' hd' => h d' (List.mem_cons_of_mem _ hd')), hrun,
        Option.map_map, map_lfnUnit hascii]
      refine congrArg (Option.map · _) (funext fun entries => ?_)
      simp [Subdir.listed]

/-- The stored name of a registered file. -/
theorem zero_not_mem_storedName (name : List UInt8) : 0 ∉ storedName name := by
  intro h
  have hmem := List.all_eq_true.mp List.all_takeWhile 0 (List.mem_of_mem_take h)
  exact absurd hmem (by decide)

/-- The stored name has characters of the name only. -/
theorem mem_of_mem_storedName {name : List UInt8} {c : UInt8} (h : c ∈ storedName name) :
    c ∈ name :=
  (List.takeWhile_sublist _).subset (List.mem_of_mem_take h)

section Files

variable {rs : List Registration} {t : VdiskFiles} (hrs : rs.length ≤ vdiskMaxFiles)
  (ht : addFiles rs = some t) (hascii : ∀ r ∈ rs, ∀ c ∈ r.name, c < 0x80)

include hrs ht hascii

/-- The sector of one place in the table has the entry of its file, if there is one. -/
theorem parseRecords_fileRecords {i : ℕ} (hi : i < vdiskMaxFiles) (records : List (List UInt8)) :
    parseRecords (fileRecords t i ++ records) none =
      (parseRecords records none).map ((rs[i]?.map fun r => r.listed i).toList ++ ·) := by
  have hget := addFiles_get hrs ht i
  unfold fileRecords
  rw [parseRecords_fillSector]
  cases hr : rs[i]? with
  | none =>
      rw [hr] at hget
      rw [hget, if_neg (by decide)]
      simp
  | some r =>
      rw [hr, Option.map_some, Option.getD_some] at hget
      have hname := fun c hc => hascii r (List.mem_of_getElem? hr) c (mem_of_mem_storedName hc)
      have hcluster : vdiskFileCluster i < 2 ^ 32 := by
        rw [vdiskFileCluster_eq]
        simp only [vdiskMaxFiles, vdiskClusterCount] at hi
        omega
      have hattr : vdiskReadOnly < 256 := by decide
      have hrun := parseRecords_direntRun (zero_not_mem_storedName r.name)
        (storedName_length_le r.name) r.len hattr (by decide) hcluster records
      rw [map_lfnUnit hname] at hrun
      have hread : r.entry.read.isSome = true := rfl
      rw [hget, if_pos hread]
      exact hrun

/-- The sectors of files are read in the order of the table. -/
theorem parseRecords_flatMap_fileRecords {idxs : List ℕ} (h : ∀ i ∈ idxs, i < vdiskMaxFiles) :
    parseRecords (idxs.flatMap (fileRecords t)) none =
      some (idxs.filterMap fun i => rs[i]?.map fun r => r.listed i) := by
  induction idxs with
  | nil => rfl
  | cons i idxs ih =>
      rw [List.flatMap_cons, parseRecords_fileRecords hrs ht hascii (h i List.mem_cons_self),
        ih fun j hj => h j (List.mem_cons_of_mem _ hj), Option.map_some, List.filterMap_cons]
      cases rs[i]? <;> rfl

end Files

/-- The files in the order of the table are the registrations in their order. -/
theorem filterMap_range_listed (rs : List Registration) (n : ℕ) :
    ((List.range n).filterMap fun i => rs[i]?.map fun r => r.listed i) =
      (rs.take n).mapIdx fun i r => r.listed i := by
  induction n with
  | zero => rfl
  | succ n ih =>
      rw [List.range_succ, List.filterMap_append, ih, List.take_add_one, List.mapIdx_append]
      cases h : rs[n]? with
      | none => simp [h]
      | some r =>
          have hlen : (rs.take n).length = n := by
            have := (List.getElem?_eq_some_iff.mp h).1
            rw [List.length_take]
            omega
          simp [h, hlen]

/-! ## The records in memory -/

/-- Records are read in two parts. -/
theorem recordsAt_add (m : Mem) (a j k : ℕ) :
    recordsAt m a (j + k) = recordsAt m a j ++ recordsAt m (a + 32 * j) k := by
  induction j generalizing a with
  | zero => simp [recordsAt]
  | succ j ih =>
      rw [Nat.succ_add, recordsAt, recordsAt, ih, List.cons_append]
      congr 3
      omega

/-- They depend on their bytes only. -/
theorem recordsAt_congr {m m' : Mem} {a a' n : ℕ} (h : ∀ i < 32 * n, m (a + i) = m' (a' + i)) :
    recordsAt m a n = recordsAt m' a' n := by
  induction n generalizing a a' with
  | zero => rfl
  | succ n ih =>
      rw [recordsAt, recordsAt, bytes_congr fun i hi => h i (by omega)]
      congr 1
      refine ih fun i hi => ?_
      rw [Nat.add_assoc, Nat.add_assoc]
      exact h (32 + i) (by omega)

/-- The records of which the memory holds the bytes. -/
theorem recordsAt_eq {m : Mem} {a : ℕ} {records : List (List UInt8)}
    (hlen : ∀ r ∈ records, r.length = 32)
    (h : ∀ i < 32 * records.length, m (a + i) = records.flatten.getD i 0) :
    recordsAt m a records.length = records := by
  induction records generalizing a with
  | nil => rfl
  | cons r records ih =>
      have hr := hlen r List.mem_cons_self
      rw [List.length_cons] at h
      have hbytes : m.bytes a 32 = r := by
        rw [← hr]
        refine bytes_eq_iff.mpr fun i hi => ?_
        rw [h i (by omega), List.flatten_cons, List.getD_append _ _ _ _ hi]
      rw [List.length_cons, recordsAt, hbytes]
      congr 1
      refine ih (fun r' hr' => hlen r' (List.mem_cons_of_mem _ hr')) fun i hi => ?_
      rw [Nat.add_assoc, h (32 + i) (by omega), List.flatten_cons,
        List.getD_append_right _ _ _ _ (by omega), hr, Nat.add_sub_cancel_left]

/-- A sector has 16 records, -/
theorem fillSector_count {runs : List (List UInt8)} (h : runs.length ≤ 16) :
    (fillSector runs).length = 16 := by
  unfold fillSector
  rw [List.length_append, List.length_replicate]
  omega

/-- each of 32 bytes. -/
theorem length_of_mem_fillSector {runs : List (List UInt8)} (h : ∀ l ∈ runs, l.length = 32) :
    ∀ l ∈ fillSector runs, l.length = 32 := by
  intro l hl
  rcases List.mem_append.mp hl with hl | hl
  · exact length_of_mem_replicate l hl
  · exact h l hl

/-- The records of a sector of the disk. -/
theorem recordsAt_sector {arch : Arch} {t : VdiskFiles} {r : VdiskRegion} (hr : r ∈ vdiskRegions)
    {lba : ℕ} (h₁ : r.lba ≤ lba) (h₂ : lba < r.lba + r.count) {runs : List (List UInt8)}
    (hle : runs.length ≤ 16) (hlen : ∀ l ∈ runs, l.length = 32)
    (h : ∀ x, x / 512 = lba → r.build.byte arch t x = (fillSector runs).flatten.getD (x % 512) 0) :
    recordsAt (image arch t) (512 * lba) 16 = fillSector runs := by
  have hcount := fillSector_count hle
  rw [← hcount]
  refine recordsAt_eq (length_of_mem_fillSector hlen) fun i hi => ?_
  have hdiv : (512 * lba + i) / 512 = lba := by omega
  have hmod : (512 * lba + i) % 512 = i := by omega
  rw [image_of_mem hr (by omega) (by omega), h _ hdiv, hmod]

/-- The regions of a directory. -/
theorem subdirsRegion_mem (d : Directory) :
    (⟨vdiskDirectoryLba d.cluster, 1, .subdirs d⟩ : VdiskRegion) ∈ vdiskRegions := by
  cases d <;> decide +kernel

/-- The files of a directory have a region of the disk. -/
theorem dirFilesRegion_mem (d : Directory) :
    (⟨vdiskDirectoryLba d.cluster + 1, vdiskClusterCount - 1, .dirFiles⟩ : VdiskRegion) ∈
      vdiskRegions := by
  cases d <;> decide +kernel

/-- **The cluster of a directory** holds its subdirectories and then the files. -/
theorem recordsAt_directory (arch : Arch) {t : VdiskFiles} (hfit : t.NamesFit) (d : Directory) :
    recordsAt (image arch t) (512 * vdiskDirectoryLba d.cluster)
        (vdiskClusterCount * vdiskDirentPerSector) =
      d.records ++ (List.range vdiskMaxFiles).flatMap (fileRecords t) := by
  have hsub : recordsAt (image arch t) (512 * vdiskDirectoryLba d.cluster) 16 = d.records :=
    recordsAt_sector (subdirsRegion_mem d) le_rfl (Nat.lt_succ_self _) (by cases d <;> decide)
      length_of_mem_subdirRuns fun x _ => rfl
  have hfile : ∀ k < vdiskMaxFiles, recordsAt (image arch t)
      (512 * (vdiskDirectoryLba d.cluster + 1 + k)) 16 = fileRecords t k := by
    intro k hk
    obtain ⟨j, hj⟩ := vdiskDirectoryLba_cluster d
    simp only [vdiskMaxFiles, vdiskClusterCount] at hk
    have hidx : vdiskFileDirentIdx (vdiskDirectoryLba d.cluster + 1 + k) = k := by
      unfold vdiskFileDirentIdx vdiskClusterCount
      omega
    have hname := hfit k
    unfold vdiskNameLen at hname
    refine recordsAt_sector (dirFilesRegion_mem d) (Nat.le_add_right _ _) ?_ ?_ ?_ fun x hx => ?_
    · dsimp only
      unfold vdiskClusterCount
      omega
    · split_ifs
      · rw [direntRun_length]
        omega
      · exact Nat.zero_le _
    · split_ifs
      · exact length_of_mem_direntRun
      · exact fun l hl => absurd hl (by simp)
    · change (fileRecords t (vdiskFileDirentIdx (x / 512))).flatten.getD _ _ = _
      rw [hx, hidx]
      rfl
  have hfiles : ∀ n ≤ vdiskMaxFiles, recordsAt (image arch t)
      (512 * (vdiskDirectoryLba d.cluster + 1)) (16 * n) =
        (List.range n).flatMap (fileRecords t) := by
    intro n hn
    induction n with
    | zero => rfl
    | succ n ih =>
        have hlast := hfile n (by omega)
        have hmul : 16 * (n + 1) = 16 * n + 16 := Nat.mul_succ 16 n
        have haddr : 512 * (vdiskDirectoryLba d.cluster + 1) + 32 * (16 * n) =
            512 * (vdiskDirectoryLba d.cluster + 1 + n) := by omega
        rw [hmul, recordsAt_add, ih (by omega), haddr, hlast, List.range_succ, List.flatMap_append,
          List.flatMap_singleton]
  have hcount : vdiskClusterCount * vdiskDirentPerSector = 16 + 16 * vdiskMaxFiles := rfl
  have haddr : 512 * vdiskDirectoryLba d.cluster + 32 * 16 =
      512 * (vdiskDirectoryLba d.cluster + 1) := (Nat.mul_succ 512 _).symm
  rw [hcount, recordsAt_add, hsub, haddr, hfiles _ le_rfl]

/-! ## The listing -/

/-- The fixed subdirectories can be listed. -/
theorem subdirs_listable (d : Directory) : ∀ s ∈ d.subdirs, s.1.length ≤ vdiskNameLen ∧ 0 ∉ s.1 ∧
    (∀ c ∈ s.1, c < 0x80) ∧ s.2 < 2 ^ 32 := by
  have hall : (d.subdirs.all fun s => decide (s.1.length ≤ vdiskNameLen) && !s.1.contains 0 &&
      s.1.all (· < 0x80) && decide (s.2 < 2 ^ 32)) = true := by
    cases d <;> decide
  intro s hs
  have h := List.all_eq_true.mp hall s hs
  simp only [Bool.and_eq_true, decide_eq_true_eq, Bool.not_eq_true', List.contains_eq_mem,
    decide_eq_false_iff_not, List.all_eq_true] at h
  obtain ⟨⟨⟨hlen, hnul⟩, hascii⟩, hcluster⟩ := h
  exact ⟨hlen, hnul, hascii, hcluster⟩

/-- What a builder of one sector leaves of the memory. -/
def InSector (build : ℕ → Mem → Mem) : Prop :=
  ∀ data m x, (x < data ∨ data + vdiskSectorSize ≤ x) → build data m x = m x

/-- **Directory listings are faithful.** Up to 63 files with 7-bit names, however they are read, are
listed behind the subdirectories of every directory, in their order; on both builds, for any buffer
and any memory before the read. No entry is written outside its sector. -/
theorem listDirectory_eq {rs : List Registration} {t : VdiskFiles}
    (hrs : rs.length ≤ vdiskMaxFiles) (ht : addFiles rs = some t)
    (hascii : ∀ r ∈ rs, ∀ c ∈ r.name, c < 0x80) (arch : Arch) (d : Directory) :
    (∀ data m, listDirectory arch t d data m =
      some (d.subdirs.reverse.map Subdir.listed ++ rs.mapIdx fun i r => r.listed i)) ∧
      InSector (vdiskSubdirs d.subdirs) ∧ ∀ idx, InSector (vdiskDirFile t idx) := by
  have hfit := addFiles_namesFit hrs ht
  refine ⟨fun data m => ?_, fun data m x hx => ?_, fun idx data m x hx => ?_⟩
  · have hlow : vdiskDirectoryLba d.cluster + vdiskClusterCount ≤ vdiskFileCount := by
      cases d <;> decide
    have hread := @vdiskRead_low arch _ (vdiskDirectoryLba d.cluster) vdiskClusterCount hfit
      (by cases d <;> decide) (by decide) data m
    have hrecords : recordsAt (m.copy data (lowImage arch t) (512 * vdiskDirectoryLba d.cluster)
        (512 * vdiskClusterCount)) data (vdiskClusterCount * vdiskDirentPerSector) =
        recordsAt (image arch t) (512 * vdiskDirectoryLba d.cluster)
          (vdiskClusterCount * vdiskDirentPerSector) := by
      refine recordsAt_congr fun i hi => ?_
      have hcount : 32 * (vdiskClusterCount * vdiskDirentPerSector) = 512 * vdiskClusterCount := rfl
      rw [hcount] at hi
      rw [copy_of_mem _ _ _ (by omega) (by omega), lowImage, if_pos (by omega)]
      congr 1
      omega
    unfold listDirectory
    rw [hread, Option.bind_some, hrecords, recordsAt_directory arch hfit]
    unfold Directory.records
    rw [parseRecords_fillSector, parseRecords_subdirRuns (subdirs_listable d),
      parseRecords_flatMap_fileRecords hrs ht hascii fun i hi => List.mem_range.mp hi,
      filterMap_range_listed, List.take_of_length_le hrs, Option.map_some]
  · have hlen := d.records_length
    rw [vdiskSubdirs_eq, store_of_not_mem]
    rwa [hlen]
  · have hlen := fileRecords_length (hfit idx)
    rw [vdiskDirFile_eq _ _ _ _ (hfit idx), store_of_not_mem]
    rwa [hlen]

/-- The listing of the boot directory with two files, the second with a long name in three records. -/
theorem listDirectory_eq_twoFiles :
    ∃ t, addFiles (twoFiles.map MemFile.registration) = some t ∧
      (∀ data m, listDirectory .i386 t .boot data m =
        some (Directory.boot.subdirs.reverse.map Subdir.listed ++
          (twoFiles.map MemFile.registration).mapIdx fun i r => r.listed i)) ∧
      InSector (vdiskSubdirs Directory.boot.subdirs) ∧ ∀ idx, InSector (vdiskDirFile t idx) := by
  obtain ⟨t, ht, -⟩ := @addFiles_eq (twoFiles.map MemFile.registration) (by decide)
  exact ⟨t, ht, listDirectory_eq (by decide) ht (by decide +kernel) .i386 .boot⟩

end Ntloader.Vdisk
