import Ntloader.Vdisk.Directory

/-!
# The records of a directory sector

What the directory builders leave in a sector, as a list of 32-byte records.

* `deletedRecord`, `dosRecord`, `lfnRecord` — the three kinds of records.
* `lfnChunks`, `lfnRun` — a name cut into 13 units for each record, and the records in the order
  they have on the disk, the last of the name first.
* `vdiskDirectoryEntry_eq` — one entry: its run is written in front of the records that are there,
  in place of deleted ones.
* `vdiskSubdirs_eq`, `vdiskDirFile_eq` — the two kinds of sectors.
-/

namespace Ntloader.Vdisk

open Ntloader.Lib Ntloader.Lib.Mem

/-! ## Records -/

/-- A deleted entry. -/
def deletedRecord : List UInt8 := vdiskDirentDeleted :: List.replicate 31 0

/-- The short entry of a file. -/
def dosRecord (len attr cluster : ℕ) : List UInt8 :=
  [List.replicate 11 0x20, leBytes 1 attr, [0, 0], leBytes 2 0, leBytes 2 0x2821, [0, 0],
    leBytes 2 (cluster >>> 16), leBytes 2 0, leBytes 2 0x2821, leBytes 2 (cluster &&& 0xffff),
    leBytes 4 len].flatten

/-- A long-name entry with 13 units of a name. -/
def lfnRecord (sequence : ℕ) (checksum : UInt8) (units : List ℕ) : List UInt8 :=
  [[UInt8.ofNat sequence], (units.take 5).flatMap (leBytes 2), [vdiskLfnAttr, 0, checksum],
    ((units.drop 5).take 6).flatMap (leBytes 2), [0, 0], (units.drop 11).flatMap (leBytes 2)].flatten

/-- Fill up the units of a record. -/
def padUnits (units : List ℕ) : List ℕ := units ++ List.replicate (13 - units.length) 0xffff

/-- A deleted record has 32 bytes, -/
@[simp] theorem deletedRecord_length : deletedRecord.length = 32 := rfl

/-- and so has a short name's record. -/
@[simp] theorem dosRecord_length (len attr cluster : ℕ) : (dosRecord len attr cluster).length = 32 := rfl

/-- A record for a long name takes 13 units, -/
theorem padUnits_length {units : List ℕ} (h : units.length ≤ 13) : (padUnits units).length = 13 := by
  rw [padUnits, List.length_append, List.length_replicate]
  omega

/-- and has 32 bytes. -/
theorem lfnRecord_length {units : List ℕ} (h : units.length = 13) (sequence : ℕ)
    (checksum : UInt8) : (lfnRecord sequence checksum units).length = 32 := by
  match units, h with
  | [_, _, _, _, _, _, _, _, _, _, _, _, _], _ => rfl

/-- One unit of a long-name entry is replaced. -/
theorem overwrite_lfnRecord {units : List ℕ} (h : units.length = 13) (sequence : ℕ)
    (checksum : UInt8) {slot : ℕ} (hslot : slot < 13) (unit : ℕ) :
    overwrite (lfnRecord sequence checksum units) (lfnOffset slot) (leBytes 2 unit) =
      lfnRecord sequence checksum (units.set slot unit) := by
  match units, h with
  | [_, _, _, _, _, _, _, _, _, _, _, _, _], _ => interval_cases slot <;> rfl

/-- The next unit of a record that is being filled. -/
theorem padUnits_set {units : List ℕ} (h : units.length < 13) (unit : ℕ) :
    (padUnits units).set units.length unit = padUnits (units ++ [unit]) := by
  have hsucc : 13 - units.length = 13 - (units.length + 1) + 1 := by omega
  rw [padUnits, List.set_append_right _ _ le_rfl, Nat.sub_self, hsucc, List.replicate_succ,
    List.set_cons_zero, padUnits, List.length_append, List.length_singleton, List.append_assoc]
  rfl

/-! ## The run of a name -/

/-- The units of a name and its NUL, cut into records; `units` are already in the first record. -/
def lfnChunks : List UInt8 → List ℕ → List (List ℕ)
  | [], units => [padUnits (units ++ [0])]
  | c :: name, units =>
      if units.length = 12 then (units ++ [lfnUnit c]) :: lfnChunks name []
      else lfnChunks name (units ++ [lfnUnit c])

/-- The records of a name from sequence number `sequence` on, in the order they have on the disk.
The one that comes first has `flag` set in its sequence number. -/
def lfnRun (checksum flag : UInt8) : ℕ → List (List ℕ) → List (List UInt8)
  | _, [] => []
  | sequence, [units] =>
      [(UInt8.ofNat sequence ||| flag) :: (lfnRecord sequence checksum units).drop 1]
  | sequence, units :: chunks =>
      lfnRun checksum flag (sequence + 1) chunks ++ [lfnRecord sequence checksum units]

/-- Every name takes a record at least. -/
theorem lfnChunks_ne_nil (name : List UInt8) (units : List ℕ) : lfnChunks name units ≠ [] := by
  induction name generalizing units with
  | nil => exact List.cons_ne_nil _ _
  | cons c name ih =>
      rw [lfnChunks]
      split_ifs
      · exact List.cons_ne_nil _ _
      · exact ih _

/-- Every record holds 13 units. -/
theorem length_of_mem_lfnChunks {name : List UInt8} {units : List ℕ} (h : units.length ≤ 12) :
    ∀ chunk ∈ lfnChunks name units, chunk.length = 13 := by
  induction name generalizing units with
  | nil =>
      intro chunk hchunk
      rw [List.mem_singleton.mp hchunk]
      exact padUnits_length (by simp only [List.length_append, List.length_singleton]; omega)
  | cons c name ih =>
      rw [lfnChunks]
      split_ifs with h12
      · intro chunk hchunk
        rcases List.mem_cons.mp hchunk with rfl | hchunk
        · simp [h12]
        · exact ih (by simp) chunk hchunk
      · exact ih (by simp; omega)

/-- A name of `n` characters takes `n / 13 + 1` records. -/
theorem lfnChunks_length {name : List UInt8} {units : List ℕ} (h : units.length ≤ 12) :
    (lfnChunks name units).length = (name.length + units.length) / 13 + 1 := by
  induction name generalizing units with
  | nil =>
      simp only [lfnChunks, List.length_singleton, List.length_nil]
      omega
  | cons c name ih =>
      rw [lfnChunks]
      split_ifs with h12
      · rw [List.length_cons, ih (by simp)]
        simp only [List.length_nil, List.length_cons]
        omega
      · rw [ih (by simp; omega)]
        simp only [List.length_append, List.length_cons, List.length_nil]
        congr 2
        omega

/-- The units of all records are the name, its NUL, and what fills the last record up. -/
theorem flatten_lfnChunks (name : List UInt8) (units : List ℕ) :
    ∃ n, (lfnChunks name units).flatten =
      units ++ name.map lfnUnit ++ 0 :: List.replicate n 0xffff := by
  induction name generalizing units with
  | nil => exact ⟨13 - (units ++ [0]).length, by simp [lfnChunks, padUnits]⟩
  | cons c name ih =>
      rw [lfnChunks]
      split_ifs
      · obtain ⟨n, hn⟩ := ih []
        exact ⟨n, by simp [hn]⟩
      · obtain ⟨n, hn⟩ := ih (units ++ [lfnUnit c])
        exact ⟨n, by simp [hn]⟩

/-- The record of the first units stands last. -/
theorem lfnRun_cons (checksum flag : UInt8) (sequence : ℕ) (units : List ℕ)
    {chunks : List (List ℕ)} (h : chunks ≠ []) :
    lfnRun checksum flag sequence (units :: chunks) =
      lfnRun checksum flag (sequence + 1) chunks ++ [lfnRecord sequence checksum units] := by
  cases chunks with
  | nil => exact absurd rfl h
  | cons chunk chunks => rfl

/-- A run has as many records as chunks, -/
@[simp] theorem lfnRun_length (checksum flag : UInt8) (sequence : ℕ) (chunks : List (List ℕ)) :
    (lfnRun checksum flag sequence chunks).length = chunks.length := by
  induction chunks generalizing sequence with
  | nil => rfl
  | cons units chunks ih =>
      rcases eq_or_ne chunks [] with rfl | hne
      · rfl
      · rw [lfnRun_cons _ _ _ _ hne, List.length_append, ih]
        rfl

/-- each of 32 bytes. -/
theorem length_of_mem_lfnRun {checksum flag : UInt8} {sequence : ℕ} {chunks : List (List ℕ)}
    (h : ∀ chunk ∈ chunks, chunk.length = 13) :
    ∀ record ∈ lfnRun checksum flag sequence chunks, record.length = 32 := by
  induction chunks generalizing sequence with
  | nil => exact fun record hrecord => absurd hrecord (by simp [lfnRun])
  | cons units chunks ih =>
      have hunits := lfnRecord_length (h units List.mem_cons_self) sequence checksum
      rcases eq_or_ne chunks [] with rfl | hne
      · intro record hrecord
        rw [List.mem_singleton.mp hrecord, List.length_cons, List.length_drop, hunits]
      · intro record hrecord
        rw [lfnRun_cons _ _ _ _ hne] at hrecord
        rcases List.mem_append.mp hrecord with hrecord | hrecord
        · exact ih (fun c hc => h c (List.mem_cons_of_mem _ hc)) record hrecord
        · rw [List.mem_singleton.mp hrecord, hunits]

/-- Only the first record on the disk depends on the flag. -/
theorem exists_lfnRun (checksum : UInt8) (sequence : ℕ) {chunks : List (List ℕ)} (h : chunks ≠ []) :
    ∃ b record rest, ∀ flag,
      lfnRun checksum flag sequence chunks = ((b ||| flag) :: record) :: rest := by
  induction chunks generalizing sequence with
  | nil => exact absurd rfl h
  | cons units chunks ih =>
      rcases eq_or_ne chunks [] with rfl | hne
      · exact ⟨_, _, [], fun flag => rfl⟩
      · obtain ⟨b, record, rest, hrun⟩ := ih (sequence + 1) hne
        refine ⟨b, record, rest ++ [lfnRecord sequence checksum units], fun flag => ?_⟩
        rw [lfnRun_cons _ _ _ _ hne, hrun flag]
        rfl

/-- The checksum of the short name that every entry has. -/
def shortChecksum : UInt8 := dosChecksum (List.replicate 11 0x20)

/-- The run of an entry: the records of its name, then its short entry. -/
def direntRun (name : List UInt8) (len attr cluster : ℕ) : List (List UInt8) :=
  lfnRun shortChecksum (UInt8.ofNat vdiskLfnEnd) 1 (lfnChunks name []) ++
    [dosRecord len attr cluster]

/-- An entry takes a record for every 13 units of its name, and two more. -/
theorem direntRun_length (name : List UInt8) (len attr cluster : ℕ) :
    (direntRun name len attr cluster).length = name.length / 13 + 2 := by
  rw [direntRun, List.length_append, lfnRun_length, lfnChunks_length (by simp)]
  rfl

/-- Each of them has 32 bytes. -/
theorem length_of_mem_direntRun {name : List UInt8} {len attr cluster : ℕ} :
    ∀ record ∈ direntRun name len attr cluster, record.length = 32 := by
  intro record hrecord
  rcases List.mem_append.mp hrecord with h | h
  · exact length_of_mem_lfnRun (length_of_mem_lfnChunks (by simp)) record h
  · rw [List.mem_singleton.mp h, dosRecord_length]

/-! ## The builders, on records -/

/-- An empty directory is 16 deleted records. -/
theorem vdiskEmptyDir_eq (data : ℕ) (m : Mem) :
    vdiskEmptyDir data m =
      (data + 32 * 15, m.store data (List.replicate 16 deletedRecord).flatten) := by
  have hfold : ∀ k ≤ 16, (List.range k).foldl
      (fun m i => m.store (data + 32 * i) [vdiskDirentDeleted])
      (m.store data (List.replicate 16 (List.replicate 32 0)).flatten) =
      m.store data (List.replicate k deletedRecord ++
        List.replicate (16 - k) (List.replicate 32 0)).flatten := by
    intro k
    induction k with
    | zero => simp
    | succ k ih =>
        intro hk
        have hsucc : 16 - k = 16 - (k + 1) + 1 := by omega
        have hstore := @store_flatten_start m data 32 (List.replicate k deletedRecord)
            (List.replicate (16 - (k + 1)) (List.replicate 32 0)) (List.replicate 32 0)
            [vdiskDirentDeleted] (fun l hl => by rw [List.eq_of_mem_replicate hl]; rfl) (by simp)
        rw [List.length_replicate] at hstore
        rw [List.range_succ, List.foldl_append, ih (by omega), List.foldl_cons, List.foldl_nil,
          hsucc, List.replicate_succ, hstore,
          show List.replicate (k + 1) deletedRecord = List.replicate k deletedRecord ++
            [deletedRecord] from List.replicate_succ', List.append_assoc]
        rfl
  have hzero : (List.replicate 512 (0 : UInt8)) =
      (List.replicate 16 (List.replicate 32 0)).flatten := by simp
  have h16 := hfold 16 le_rfl
  simp only [Nat.sub_self, List.replicate_zero, List.append_nil] at h16
  rw [vdiskEmptyDir, fill_eq_store, vdiskSectorSize, hzero, ← h16]
  rfl

/-- One more deleted record is the last of them. -/
theorem replicate_deletedRecord_succ (n : ℕ) (ys : List (List UInt8)) :
    List.replicate (n + 1) deletedRecord ++ ys =
      List.replicate n deletedRecord ++ deletedRecord :: ys := by
  rw [List.replicate_succ', List.append_assoc]
  rfl

/-- They have 32 bytes each. -/
theorem length_of_mem_replicate {n : ℕ} :
    ∀ l ∈ List.replicate n deletedRecord, l.length = 32 := fun l hl => by
  rw [List.eq_of_mem_replicate hl, deletedRecord_length]

section Entry

variable {m : Mem} {data : ℕ} {xs ys : List (List UInt8)}

/-- A write within one record. -/
theorem store_record (hxs : ∀ l ∈ xs, l.length = 32) {x vs : List UInt8} {o : ℕ}
    (hx : x.length = 32) (h : o + vs.length ≤ 32) :
    (m.store data (xs ++ x :: ys).flatten).store (data + 32 * xs.length + o) vs =
        m.store data (xs ++ overwrite x o vs :: ys).flatten ∧
      (overwrite x o vs).length = 32 := by
  rw [← hx] at h
  exact ⟨store_flatten m data 32 hxs h, (overwrite_length h).trans hx⟩

/-- The short name's record is put in place of a deleted one. -/
theorem putDos_eq (hxs : ∀ l ∈ xs, l.length = 32) (len attr cluster : ℕ) :
    putDos (data + 32 * xs.length) len attr cluster
        (m.store data (xs ++ deletedRecord :: ys).flatten) =
      m.store data (xs ++ dosRecord len attr cluster :: ys).flatten := by
  have step := fun x o vs => @store_record m data _ ys hxs x vs o
  obtain ⟨h₁, l₁⟩ := step deletedRecord 0 (List.replicate 11 0x20) rfl (by simp)
  obtain ⟨h₂, l₂⟩ := step _ 11 (leBytes 1 attr) l₁ (by simp)
  obtain ⟨h₃, l₃⟩ := step _ 28 (leBytes 4 len) l₂ (by simp)
  obtain ⟨h₄, l₄⟩ := step _ 20 (leBytes 2 (cluster >>> 16)) l₃ (by simp)
  obtain ⟨h₅, l₅⟩ := step _ 26 (leBytes 2 (cluster &&& 0xffff)) l₄ (by simp)
  obtain ⟨h₆, l₆⟩ := step _ 16 (leBytes 2 0x2821) l₅ (by simp)
  obtain ⟨h₇, l₇⟩ := step _ 14 (leBytes 2 0x0000) l₆ (by simp)
  obtain ⟨h₈, l₈⟩ := step _ 13 (leBytes 1 0) l₇ (by simp)
  obtain ⟨h₉, l₉⟩ := step _ 24 (leBytes 2 0x2821) l₈ (by simp)
  obtain ⟨h₁₀, -⟩ := step _ 22 (leBytes 2 0x0000) l₉ (by simp)
  simp only [putDos, fill_eq_store, putWord]
  rw [Nat.add_zero] at h₁
  rw [h₁, h₂, h₃, h₄, h₅, h₆, h₇, h₈, h₉, h₁₀]
  simp [overwrite, leBytes, deletedRecord, dosRecord, List.replicate_succ]

/-- Reading within one record. -/
theorem store_record_apply (hxs : ∀ l ∈ xs, l.length = 32) {x : List UInt8} {o : ℕ}
    (h : o < x.length) :
    m.store data (xs ++ x :: ys).flatten (data + 32 * xs.length + o) = x.getD o 0 := by
  have hlen : xs.flatten.length = 32 * xs.length := by
    rw [List.length_flatten, List.map_congr_left hxs, List.map_const', List.sum_replicate,
      smul_eq_mul, Nat.mul_comm]
  rw [store_of_mem _ (by omega) (by
      rw [List.flatten_append, List.length_append, hlen, List.flatten_cons, List.length_append]
      omega),
    List.flatten_append, List.getD_append_right _ _ _ _ (by omega), hlen, List.flatten_cons,
    List.getD_append _ _ _ _ (by omega)]
  congr 1
  omega

/-- An empty record for a long name is put in place of a deleted one. -/
theorem initLfn_eq (hxs : ∀ l ∈ xs, l.length = 32) (sequence : ℕ) (checksum : UInt8) :
    initLfn (data + 32 * xs.length) sequence checksum
        (m.store data (xs ++ deletedRecord :: ys).flatten) =
      m.store data (xs ++ lfnRecord sequence checksum (padUnits []) :: ys).flatten := by
  have step := fun x o vs => @store_record m data _ ys hxs x vs o
  obtain ⟨h₁, l₁⟩ := step deletedRecord 0 (leBytes 1 sequence) rfl (by simp)
  obtain ⟨h₂, l₂⟩ := step _ 1 (List.replicate 10 0xff) l₁ (by simp)
  obtain ⟨h₃, l₃⟩ := step _ 11 [vdiskLfnAttr] l₂ (by simp)
  obtain ⟨h₄, l₄⟩ := step _ 13 [checksum] l₃ (by simp)
  obtain ⟨h₅, l₅⟩ := step _ 14 (List.replicate 12 0xff) l₄ (by simp)
  obtain ⟨h₆, -⟩ := step _ 28 (List.replicate 4 0xff) l₅ (by simp)
  simp only [initLfn, fill_eq_store, putWord]
  rw [Nat.add_zero] at h₁
  rw [h₁, h₂, h₃, h₄, h₅, h₆]
  rfl

/-- The record at hand, fresh or partly filled. -/
def currentRecord (sequence : ℕ) (checksum : UInt8) (units : List ℕ) : List UInt8 :=
  if units = [] then deletedRecord else lfnRecord sequence checksum (padUnits units)

/-- A fresh record is initialised, and a partly filled one is left as it is. -/
theorem initLfn_of_fresh (hxs : ∀ l ∈ xs, l.length = 32) (sequence : ℕ) (checksum : UInt8)
    {units : List ℕ} (h : units.length ≤ 12) :
    let mem := m.store data (xs ++ currentRecord sequence checksum units :: ys).flatten
    let next := if units = [] then sequence else sequence + 1
    let fresh := mem (data + 32 * xs.length + 11) ≠ vdiskLfnAttr
    (if fresh then initLfn (data + 32 * xs.length) next checksum mem else mem) =
        m.store data (xs ++ lfnRecord sequence checksum (padUnits units) :: ys).flatten ∧
      (if fresh then next + 1 else next) = sequence + 1 := by
  intro mem next fresh
  rcases eq_or_ne units [] with rfl | hne
  · have hfresh : fresh := by
      simp only [fresh, mem, currentRecord, if_true]
      rw [store_record_apply hxs (by simp)]
      decide
    rw [if_pos hfresh, if_pos hfresh]
    exact ⟨initLfn_eq hxs sequence checksum, rfl⟩
  · have hlen := padUnits_length (show units.length ≤ 13 by omega)
    have hattr : (lfnRecord sequence checksum (padUnits units)).getD 11 0 = vdiskLfnAttr := by
      match padUnits units, hlen with
      | [_, _, _, _, _, _, _, _, _, _, _, _, _], _ => rfl
    have hnot : ¬ fresh := by
      simp only [fresh, mem, currentRecord, if_neg hne]
      rw [store_record_apply hxs (by rw [lfnRecord_length hlen]; omega), hattr]
      exact fun hne => hne rfl
    rw [if_neg hnot, if_neg hnot]
    exact ⟨by simp only [mem, currentRecord, if_neg hne], by simp only [next, if_neg hne]⟩

/-- One unit of a name is written to the record at hand. -/
theorem putWord_lfnRecord (hxs : ∀ l ∈ xs, l.length = 32) (sequence : ℕ) (checksum : UInt8)
    {units : List ℕ} (h : units.length ≤ 12) (unit : ℕ) :
    (m.store data (xs ++ lfnRecord sequence checksum (padUnits units) :: ys).flatten).putWord
        (data + 32 * xs.length + lfnOffset units.length) 2 unit =
      m.store data (xs ++ lfnRecord sequence checksum (padUnits (units ++ [unit])) :: ys).flatten := by
  have hlen := padUnits_length (show units.length ≤ 13 by omega)
  have hoffset : lfnOffset units.length + 2 ≤ 32 := by
    unfold lfnOffset
    split_ifs <;> omega
  obtain ⟨hstore, -⟩ := @store_record m data _ ys hxs _ (leBytes 2 unit) (lfnOffset units.length)
      (lfnRecord_length hlen sequence checksum) (by simpa using hoffset)
  rw [putWord, hstore, overwrite_lfnRecord hlen _ _ (by omega), padUnits_set (by omega)]

/-- A run of one record. -/
theorem lfnRun_singleton (checksum : UInt8) (sequence : ℕ) (units : List ℕ) :
    lfnRun checksum 0 sequence [units] = [lfnRecord sequence checksum units] := by
  rw [lfnRun, UInt8.or_zero]
  rfl

/-- **The long-name loop** leaves the records of the name, each in front of the one before. -/
theorem lfnLoop_eq (checksum : UInt8) (name : List UInt8) {units : List ℕ} (h : units.length ≤ 12)
    (sequence e : ℕ) (ys : List (List UInt8)) (he : (lfnChunks name units).length ≤ e + 1) :
    lfnLoop checksum name (data + 32 * e) units.length
        (if units = [] then sequence else sequence + 1)
        (m.store data (List.replicate e deletedRecord ++
          currentRecord sequence checksum units :: ys).flatten) =
      (data + 32 * (e + 1 - (lfnChunks name units).length),
        m.store data (List.replicate (e + 1 - (lfnChunks name units).length) deletedRecord ++
          (lfnRun checksum 0 sequence (lfnChunks name units) ++ ys)).flatten) := by
  induction name generalizing units sequence e ys with
  | nil =>
      have hxs := length_of_mem_replicate (n := e)
      obtain ⟨hinit, -⟩ := @initLfn_of_fresh m data _ ys hxs sequence checksum _ h
      have hput := @putWord_lfnRecord m data _ ys hxs sequence checksum _ h 0
      rw [List.length_replicate] at hinit hput
      have hone : e + 1 - (lfnChunks [] units).length = e := rfl
      rw [lfnLoop]
      rw [hinit, hput, hone, lfnChunks, lfnRun_singleton]
      rfl
  | cons c name ih =>
      have hxs := length_of_mem_replicate (n := e)
      obtain ⟨hinit, hnext⟩ :=
        @initLfn_of_fresh m data _ ys hxs sequence checksum _ h
      have hput := @putWord_lfnRecord m data _ ys hxs sequence checksum _ h (lfnUnit c)
      rw [List.length_replicate] at hinit hnext hput
      rw [lfnLoop]
      rw [hinit, hnext, hput]
      by_cases h12 : units.length = 12
      · -- the record is full, and the next one is the deleted one in front of it
        have hchunks : lfnChunks (c :: name) units =
            (units ++ [lfnUnit c]) :: lfnChunks name [] := by rw [lfnChunks, if_pos h12]
        have hne := lfnChunks_ne_nil name []
        rw [hchunks, List.length_cons] at he
        have hpos : 0 < (lfnChunks name []).length := List.length_pos_iff.mpr hne
        obtain ⟨e, rfl⟩ : ∃ e', e = e' + 1 := ⟨e - 1, by omega⟩
        have hpad : padUnits (units ++ [lfnUnit c]) = units ++ [lfnUnit c] := by
          simp [padUnits, h12]
        have hstep := @ih [] (by simp) (sequence + 1) e
          (lfnRecord sequence checksum (units ++ [lfnUnit c]) :: ys) (by omega)
        simp only [currentRecord, if_true, List.length_nil] at hstep
        rw [if_pos h12, hchunks, hpad, replicate_deletedRecord_succ,
          show data + 32 * (e + 1) - 32 = data + 32 * e by omega, hstep,
          lfnRun_cons _ _ _ _ hne, List.length_cons,
          show e + 1 + 1 - ((lfnChunks name []).length + 1) = e + 1 - (lfnChunks name []).length by
            omega, List.append_assoc, List.singleton_append]
      · have hchunks : lfnChunks (c :: name) units = lfnChunks name (units ++ [lfnUnit c]) := by
          rw [lfnChunks, if_neg h12]
        have hlen : (units ++ [lfnUnit c]).length = units.length + 1 := by simp
        have hne : units ++ [lfnUnit c] ≠ [] := by simp
        rw [hchunks] at he
        have hstep := @ih (units ++ [lfnUnit c]) (by omega) sequence e ys he
        rw [currentRecord, if_neg hne, if_neg hne, hlen] at hstep
        rw [if_neg h12, hchunks, hstep]

/-- **One directory entry** takes the place of the last deleted records of a sector. -/
theorem vdiskDirectoryEntry_eq (name : List UInt8) (len attr cluster e : ℕ)
    (he : name.length / 13 + 1 ≤ e) :
    vdiskDirectoryEntry (data + 32 * e) name len attr cluster
        (m.store data (List.replicate (e + 1) deletedRecord ++ ys).flatten) =
      (data + 32 * (e - (name.length / 13 + 1)) - 32,
        m.store data (List.replicate (e - (name.length / 13 + 1)) deletedRecord ++
          (direntRun name len attr cluster ++ ys)).flatten) := by
  have hlen := @lfnChunks_length name [] (by simp)
  simp only [List.length_nil, Nat.add_zero] at hlen
  obtain ⟨e, rfl⟩ : ∃ e', e = e' + 1 := ⟨e - 1, by omega⟩
  have hdos := @putDos_eq m data _ ys (length_of_mem_replicate (n := e + 1)) len attr cluster
  rw [List.length_replicate] at hdos
  have hsum : (m.store data (List.replicate (e + 1) deletedRecord ++
      dosRecord len attr cluster :: ys).flatten).bytes (data + 32 * (e + 1)) 11 =
      List.replicate 11 0x20 := by
    refine (@bytes_eq_iff _ _ (List.replicate 11 0x20)).mpr fun i hi => ?_
    rw [List.length_replicate] at hi
    have happly := @store_record_apply m data _ ys (length_of_mem_replicate (n := e + 1))
        (dosRecord len attr cluster) i (by rw [dosRecord_length]; omega)
    rw [List.length_replicate] at happly
    rw [happly]
    interval_cases i <;> rfl
  have hloop := @lfnLoop_eq m data shortChecksum name [] (by simp) 1 e
      (dosRecord len attr cluster :: ys) (by omega)
  simp only [currentRecord, if_true, List.length_nil] at hloop
  obtain ⟨b, record, rest, hrun⟩ := exists_lfnRun shortChecksum 1 (lfnChunks_ne_nil name [])
  -- the mark goes to the first record of the run
  have hmark := @store_flatten_start m data 32 _ (rest ++ dosRecord len attr cluster :: ys)
      ((b ||| 0) :: record) [b ||| UInt8.ofNat vdiskLfnEnd]
      (length_of_mem_replicate (n := e + 1 - (lfnChunks name []).length)) (by simp)
  have hread := @store_record_apply m data _ (rest ++ dosRecord len attr cluster :: ys)
      (length_of_mem_replicate (n := e + 1 - (lfnChunks name []).length)) ((b ||| 0) :: record) 0
      (by simp)
  rw [List.length_replicate] at hmark hread
  rw [vdiskDirectoryEntry, replicate_deletedRecord_succ, hdos]
  dsimp only
  rw [hsum, ← shortChecksum, show data + 32 * (e + 1) - 32 = data + 32 * e by omega,
    replicate_deletedRecord_succ, hloop, hrun 0]
  dsimp only [List.cons_append]
  simp only [Nat.add_zero] at hread
  rw [hread, List.getD_cons_zero, UInt8.or_zero]
  rw [UInt8.or_zero] at hmark
  rw [hmark, hlen, direntRun, hrun]
  simp [overwrite]

/-- The entries of subdirectories, one in front of the other. -/
def subdirRuns : List Subdir → List (List UInt8)
  | [] => []
  | d :: ds => subdirRuns ds ++ direntRun d.1 0 vdiskDirectory d.2

/-- Entries are put one in front of the other. -/
theorem foldl_vdiskDirectoryEntry (subdirs : List Subdir) (e : ℕ)
    (he : (subdirRuns subdirs).length ≤ e) :
    (subdirs.foldl (fun s d => vdiskDirectoryEntry s.1 d.1 0 vdiskDirectory d.2 s.2)
        (data + 32 * (e + 1) - 32,
          m.store data (List.replicate (e + 1) deletedRecord ++ ys).flatten)).2 =
      m.store data (List.replicate (e + 1 - (subdirRuns subdirs).length) deletedRecord ++
        (subdirRuns subdirs ++ ys)).flatten := by
  induction subdirs generalizing e ys with
  | nil => rfl
  | cons d subdirs ih =>
      have hlen := direntRun_length d.1 0 vdiskDirectory d.2
      simp only [subdirRuns, List.length_append] at he ⊢
      have hentry := @vdiskDirectoryEntry_eq m data ys d.1 0 vdiskDirectory d.2 e (by omega)
      obtain ⟨f, hf⟩ : ∃ f, e - (d.1.length / 13 + 1) = f + 1 :=
        ⟨e - (d.1.length / 13 + 1) - 1, by omega⟩
      rw [List.foldl_cons]
      dsimp only
      rw [show data + 32 * (e + 1) - 32 = data + 32 * e by omega, hentry, hf, ih f (by omega)]
      have hcount : f + 1 - (subdirRuns subdirs).length = e + 1 - ((subdirRuns subdirs).length +
          (direntRun d.1 0 vdiskDirectory d.2).length) := by omega
      rw [hcount, List.append_assoc]

end Entry

/-! ## Sectors -/

/-- The records of a sector with the given entries at its end. -/
def fillSector (runs : List (List UInt8)) : List (List UInt8) :=
  List.replicate (16 - runs.length) deletedRecord ++ runs

/-- The records of a directory's sector of subdirectories. -/
def Directory.records (d : Directory) : List (List UInt8) := fillSector (subdirRuns d.subdirs)

/-- The records of the sector of file `idx`. -/
def fileRecords (t : VdiskFiles) (idx : ℕ) : List (List UInt8) :=
  fillSector (if (t.get idx).read.isSome then
    direntRun (t.get idx).name (t.get idx).xlen vdiskReadOnly (vdiskFileCluster idx) else [])

/-- **A sector of subdirectories is its records,** -/
theorem vdiskSubdirs_eq (d : Directory) (data : ℕ) (m : Mem) :
    vdiskSubdirs d.subdirs data m = m.store data d.records.flatten := by
  have hlen : (subdirRuns d.subdirs).length ≤ 15 := by cases d <;> decide
  have hfold := @foldl_vdiskDirectoryEntry m data [] d.subdirs 15 hlen
  simp only [List.append_nil] at hfold
  rw [vdiskSubdirs, vdiskEmptyDir_eq]
  exact hfold

/-- **and so is the sector of a file.** -/
theorem vdiskDirFile_eq (t : VdiskFiles) (idx data : ℕ) (m : Mem)
    (hname : (t.get idx).name.length ≤ vdiskNameLen) :
    vdiskDirFile t idx data m = m.store data (fileRecords t idx).flatten := by
  rw [vdiskDirFile, vdiskEmptyDir_eq, fileRecords]
  rw [vdiskNameLen] at hname
  dsimp only
  by_cases h : (t.get idx).read.isSome = true
  · have hentry := @vdiskDirectoryEntry_eq m data [] (t.get idx).name
      (t.get idx).xlen vdiskReadOnly (vdiskFileCluster idx) 15 (by omega)
    have hlen := direntRun_length (t.get idx).name (t.get idx).xlen vdiskReadOnly
      (vdiskFileCluster idx)
    have hcount : 16 - (direntRun (t.get idx).name (t.get idx).xlen vdiskReadOnly
        (vdiskFileCluster idx)).length = 15 - ((t.get idx).name.length / 13 + 1) := by omega
    rw [List.append_nil, List.append_nil] at hentry
    rw [if_pos h, if_pos h, hentry, fillSector, hcount]
  · rw [if_neg h, if_neg h, fillSector]
    simp

end Ntloader.Vdisk
