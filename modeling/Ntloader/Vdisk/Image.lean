import Ntloader.Vdisk.Read
import Ntloader.Vdisk.Records

/-!
# The image of the virtual disk

What the virtual disk holds, as one memory addressed by byte, and that every builder copies a part
of it.

* `Builder.byte` — the byte at a disk address that a builder is in charge of; `fatEntry` — an entry
  of the FAT.
* `Builder.run_eq` — a builder asked for a window copies that window.
* `sectorBuilder`, `image` — who is in charge of a sector, and the disk.
-/

namespace Ntloader.Vdisk

open Ntloader.Lib Ntloader.Lib.Mem

/-! ## What each builder holds -/

/-- The sector of a packed structure. -/
def structBytes (fields : List (ℕ × ℕ × ℕ)) : List UInt8 :=
  fields.foldl (fun bs f => overwrite bs f.1 (leBytes f.2.1 f.2.2)) (List.replicate 512 0)

/-- A registered file ends with this cluster. -/
def isEndMarker (arch : Arch) (t : VdiskFiles) (cluster : ℕ) : Bool :=
  (List.range vdiskMaxFiles).any fun i =>
    (t.get i).read.isSome && fileEndMarker arch t i == cluster

/-- An entry of the FAT: a cluster chains to the next, unless a file ends there or it is one of the
first sector. -/
def fatEntry (arch : Arch) (t : VdiskFiles) (cluster : ℕ) : ℕ :=
  if isEndMarker arch t cluster ∨ cluster < 128 then vdiskFatEndMarker else cluster + 1

/-- The contents of a file, followed by zeros. -/
def VdiskFile.contents (file : VdiskFile) : Mem := fun x =>
  if x < file.len then file.opaqueToken x else 0

/-- The byte of a file's window at a disk address. -/
def fileByte (t : VdiskFiles) (x : ℕ) : UInt8 :=
  (t.get (x / 512 / vdiskFileCount - 1)).contents (x / 512 % vdiskFileCount * 512 + x % 512)

/-- The byte at a disk address, of the builder in charge. -/
def Builder.byte (arch : Arch) (t : VdiskFiles) : Builder → Mem
  | .mbr, x => (structBytes mbrFields).getD (x % 512) 0
  | .vbr, x => (structBytes vbrFields).getD (x % 512) 0
  | .fsinfo, x => (structBytes fsinfoFields).getD (x % 512) 0
  | .fat, x =>
      (leBytes 4 (fatEntry arch t ((x / 512 - vdiskFatLba) * 128 + x % 512 / 4))).getD (x % 4) 0
  | .subdirs d, x => d.records.flatten.getD (x % 512) 0
  | .dirFiles, x => (fileRecords t (vdiskFileDirentIdx (x / 512))).flatten.getD (x % 512) 0
  | .file, x => fileByte t x

/-! ## The builders copy what they hold -/

/-- Fields that are set in a structure overwrite its bytes. -/
theorem setFields_store (m : Mem) (data : ℕ) (fields : List (ℕ × ℕ × ℕ)) (bs : List UInt8)
    (h : ∀ f ∈ fields, f.1 + f.2.1 ≤ bs.length) :
    setFields data fields (m.store data bs) =
        m.store data (fields.foldl (fun bs f => overwrite bs f.1 (leBytes f.2.1 f.2.2)) bs) ∧
      (fields.foldl (fun bs f => overwrite bs f.1 (leBytes f.2.1 f.2.2)) bs).length = bs.length := by
  induction fields generalizing bs with
  | nil => exact ⟨rfl, rfl⟩
  | cons f fields ih =>
      have hf : f.1 + (leBytes f.2.1 f.2.2).length ≤ bs.length := by
        rw [leBytes_length]
        exact h f List.mem_cons_self
      have hlen := overwrite_length hf
      obtain ⟨ih₁, ih₂⟩ := ih (overwrite bs f.1 (leBytes f.2.1 f.2.2))
        (fun g hg => by rw [hlen]; exact h g (List.mem_cons_of_mem _ hg))
      rw [setFields, List.foldl_cons, List.foldl_cons, putWord, store_overwrite m data hf]
      exact ⟨ih₁, ih₂.trans hlen⟩

/-- A builder of one fixed sector. -/
theorem setFields_eq (data : ℕ) {fields : List (ℕ × ℕ × ℕ)} (m : Mem)
    (h : ∀ f ∈ fields, f.1 + f.2.1 ≤ 512) :
    setFields data fields (m.fill data 0 512) = m.store data (structBytes fields) ∧
      (structBytes fields).length = 512 := by
  rw [fill_eq_store]
  obtain ⟨h₁, h₂⟩ := setFields_store m data fields (List.replicate 512 0)
    (by rw [List.length_replicate]; exact h)
  exact ⟨h₁, by rw [structBytes, h₂, List.length_replicate]⟩

/-- A sector that is stored whole is copied. -/
theorem store_sector_eq_copy (m : Mem) (data lba : ℕ) {bs : List UInt8} {src : Mem}
    (hlen : bs.length = 512) (h : ∀ i < 512, src (512 * lba + i) = bs.getD i 0) :
    m.store data bs = m.copy data src (512 * lba) (512 * 1) := by
  rw [← hlen] at h
  rw [store_eq_copy m data h, hlen]

/-- Up to 16 records fill a sector. -/
theorem fillSector_length {runs : List (List UInt8)} (h : runs.length ≤ 16)
    (h32 : ∀ l ∈ runs, l.length = 32) : (fillSector runs).flatten.length = 512 := by
  have hall : ∀ l ∈ fillSector runs, l.length = 32 := by
    intro l hl
    rcases List.mem_append.mp hl with hl | hl
    · exact length_of_mem_replicate l hl
    · exact h32 l hl
  rw [List.length_flatten, List.map_congr_left hall, List.map_const', List.sum_replicate, fillSector,
    List.length_append, List.length_replicate, smul_eq_mul]
  omega

/-- The records of subdirectories have 32 bytes each. -/
theorem length_of_mem_subdirRuns {subdirs : List Subdir} :
    ∀ l ∈ subdirRuns subdirs, l.length = 32 := by
  induction subdirs with
  | nil => exact fun l hl => absurd hl (by simp [subdirRuns])
  | cons d subdirs ih =>
      intro l hl
      rcases List.mem_append.mp hl with hl | hl
      · exact ih l hl
      · exact length_of_mem_direntRun l hl

/-- The records of a directory are a sector, -/
theorem Directory.records_length (d : Directory) : d.records.flatten.length = 512 :=
  fillSector_length (by cases d <;> decide) length_of_mem_subdirRuns

/-- and so are those of a file. -/
theorem fileRecords_length {t : VdiskFiles} {idx : ℕ}
    (h : (t.get idx).name.length ≤ vdiskNameLen) : (fileRecords t idx).flatten.length = 512 := by
  rw [vdiskNameLen] at h
  refine fillSector_length ?_ ?_
  · split_ifs
    · rw [direntRun_length]
      omega
    · exact Nat.zero_le _
  · split_ifs
    · exact length_of_mem_direntRun
    · exact fun l hl => absurd hl (by simp)

/-- **Sectors of files in a directory** are copied from the image. -/
theorem vdiskDirFiles_eq {t : VdiskFiles} (arch : Arch) (hfit : t.NamesFit) (lba count data : ℕ)
    (m : Mem) (h : ∀ k < count, vdiskFileDirentIdx (lba + k) < vdiskMaxFiles) :
    vdiskDirFiles t lba count data m =
      some (m.copy data (Builder.dirFiles.byte arch t) (512 * lba) (512 * count)) := by
  induction count generalizing lba data m with
  | zero => simp [vdiskDirFiles]
  | succ count ih =>
      have hname := hfit (vdiskFileDirentIdx lba)
      have hsector : ∀ i < 512, Builder.dirFiles.byte arch t (512 * lba + i) =
          (fileRecords t (vdiskFileDirentIdx lba)).flatten.getD i 0 := by
        intro i hi
        have hdiv : (512 * lba + i) / 512 = lba := by omega
        have hmod : (512 * lba + i) % 512 = i := by omega
        simp only [Builder.byte, hdiv, hmod]
      rw [vdiskDirFiles, if_pos (by simpa using h 0 (Nat.succ_pos _)),
        ih (lba + 1) _ _ (fun k hk => by
          have := h (k + 1) (by omega)
          rwa [show lba + (k + 1) = lba + 1 + k by omega] at this),
        vdiskDirFile_eq _ _ _ _ hname,
        store_sector_eq_copy m data lba (fileRecords_length hname) hsector,
        show 512 * (lba + 1) = 512 * lba + 512 * 1 by omega, vdiskSectorSize]
      exact congrArg some ((copy_copy_append m data _ (512 * lba) (512 * 1) (512 * count)).trans
        (by congr 1; omega))

/-- A window of a file: its contents, followed by zeros. -/
theorem readFile_eq {file : VdiskFile} (h : file.InMemory) (data offset len patchLen : ℕ) (m : Mem) :
    let copyLen := min (if offset < file.len then file.len - offset else 0) len
    callMethod file.patch file data offset patchLen
        ((if copyLen ≠ 0 then callMethod file.read file data offset copyLen m else m).fill
          (data + copyLen) 0 (len - copyLen)) =
      m.copy data file.contents offset len := by
  intro n
  have hn : n = min (if offset < file.len then file.len - offset else 0) len := rfl
  have hcopy : (if n ≠ 0 then callMethod file.read file data offset n m else m) =
      m.copy data file.opaqueToken offset n := by
    by_cases h0 : n = 0
    · rw [if_neg (by simpa using h0), h0, copy_zero]
    · rw [if_pos h0]
      rcases h.read with hread | ⟨-, hzero⟩
      · rw [hread]
        rfl
      · rw [hzero, if_neg (by omega)] at hn
        omega
  clear_value n
  rw [hcopy, h.patch]
  funext x
  simp only [callMethod, copy_apply, fill_apply, VdiskFile.contents]
  by_cases hx : data ≤ x ∧ x < data + len
  · rw [if_pos hx]
    by_cases hin : offset + (x - data) < file.len
    · rw [if_pos (show offset < file.len by omega)] at hn
      rw [if_pos hin, if_neg (by omega), if_pos (by omega)]
    · rw [if_neg hin]
      split_ifs at hn <;> rw [if_pos (by omega)]
  · rw [if_neg hx, if_neg (by omega), if_neg (by omega)]

/-- **Sectors of a file** are copied from the image, within its window. -/
theorem vdiskFile_eq {t : VdiskFiles} (arch : Arch) (ht : t.InMemory) {lba count : ℕ} (data : ℕ)
    (m : Mem) (hcount : count * 512 < 2 ^ 32)
    (hwindow : lba % vdiskFileCount + count ≤ vdiskFileCount) :
    vdiskFile arch t lba count data m =
      m.copy data (Builder.file.byte arch t) (512 * lba) (512 * count) := by
  have hoffset : vdiskFileOffset lba % arch.ulong = lba % vdiskFileCount * 512 :=
    Nat.mod_eq_of_lt (lt_of_lt_of_le (vdiskFileOffset_lt lba) arch.ulong_ge)
  have hlen : count * vdiskSectorSize % 2 ^ 32 = 512 * count := by
    rw [vdiskSectorSize, Nat.mod_eq_of_lt hcount, Nat.mul_comm]
  rw [vdiskFile]
  simp only [hoffset, hlen]
  rw [readFile_eq (ht _)]
  apply copy_congr
  intro i hi
  -- within the window, disk addresses are file offsets
  have hidx : (512 * lba + i) / 512 / vdiskFileCount = lba / vdiskFileCount := by
    simp only [vdiskFileCount] at *
    omega
  have hoff : (512 * lba + i) / 512 % vdiskFileCount * 512 + (512 * lba + i) % 512 =
      lba % vdiskFileCount * 512 + i := by
    simp only [vdiskFileCount] at *
    omega
  simp only [Builder.byte, fileByte, hidx, hoff]

/-! ### The FAT -/

/-- The bytes of the FAT entries from `start` on, given by a function from the cluster. -/
def fatBytes (start n : ℕ) (entry : ℕ → ℕ) : List UInt8 :=
  ((List.range' start n).map entry).flatMap (leBytes 4)

/-- The bytes of a FAT depend on its entries only. -/
theorem fatBytes_congr {start n : ℕ} {entry entry' : ℕ → ℕ}
    (h : ∀ c, start ≤ c → c < start + n → entry c = entry' c) :
    fatBytes start n entry = fatBytes start n entry' := by
  rw [fatBytes, fatBytes, List.map_congr_left]
  intro c hc
  rw [List.mem_range'_1] at hc
  exact h c hc.1 hc.2

/-- One entry of a window is replaced. -/
theorem putWord_fatBytes (m : Mem) (data : ℕ) {start n c : ℕ} (h₁ : start ≤ c) (h₂ : c < start + n)
    (entry : ℕ → ℕ) (v : ℕ) :
    (m.store data (fatBytes start n entry)).putWord (data + 4 * (c - start)) 4 v =
      m.store data (fatBytes start n (Function.update entry c v)) := by
  rw [fatBytes, putWord_words _ _ _ (by simp; omega), fatBytes]
  congr 2
  apply List.ext_getElem
  · simp
  · intro i hi₁ hi₂
    rw [List.getElem_set]
    simp only [List.getElem_map, List.getElem_range', Nat.one_mul, Function.update_apply]
    by_cases hc : c - start = i
    · rw [if_pos hc, if_pos (by omega)]
    · rw [if_neg hc, if_neg (by omega)]

/-- The entries that `vdisk_fat` starts with. -/
def chainEntry (c : ℕ) : ℕ := if c < 128 then vdiskFatEndMarker else c + 1

/-- The first-sector special values. -/
theorem putWords_fatBytes (m : Mem) (data : ℕ) {n : ℕ} (h : 128 ≤ n) :
    (m.store data (fatBytes 0 n (· + 1))).putWords data (List.replicate 128 vdiskFatEndMarker) =
      m.store data (fatBytes 0 n chainEntry) := by
  obtain ⟨k, rfl⟩ : ∃ k, n = 128 + k := ⟨n - 128, by omega⟩
  have hsplit : ∀ entry, fatBytes 0 (128 + k) entry =
      fatBytes 0 128 entry ++ fatBytes 128 k entry := by
    intro entry
    simp only [fatBytes, ← List.flatMap_append, ← List.map_append]
    rw [← List.range'_append_1]
  have hlen : ∀ entry, (fatBytes 0 128 entry).length = 512 := by
    intro entry
    rw [fatBytes, flatMap_leBytes_length]
    simp
  have hfirst : (List.replicate 128 vdiskFatEndMarker).flatMap (leBytes 4) =
      fatBytes 0 128 chainEntry := by
    have hmap : (List.range' 0 128).map chainEntry = List.replicate 128 vdiskFatEndMarker := by
      rw [List.eq_replicate_iff]
      refine ⟨by simp, fun v hv => ?_⟩
      obtain ⟨c, hc, rfl⟩ := List.mem_map.mp hv
      rw [List.mem_range'_1] at hc
      exact if_pos (by omega)
    rw [fatBytes, hmap]
  have hover := @store_overwrite m data (fatBytes 0 (128 + k) (· + 1)) (fatBytes 0 128 chainEntry) 0
      (by rw [hlen, hsplit, List.length_append, hlen]; omega)
  rw [putWords_eq_store, hfirst]
  refine hover.trans (congrArg (m.store data) ?_)
  rw [overwrite, hsplit, hsplit, hlen, List.take_zero, List.nil_append, Nat.zero_add,
    List.drop_left' (hlen _)]
  congr 1
  exact fatBytes_congr fun c hc _ => (if_neg (by omega)).symm

/-- The end-of-file markers. -/
theorem foldl_putWord_fatBytes (arch : Arch) (t : VdiskFiles) (m : Mem) (data start n k : ℕ) :
    (List.range k).foldl (fun m i =>
        if (t.get i).read.isSome ∧ start ≤ fileEndMarker arch t i ∧
            fileEndMarker arch t i < start + n then
          m.putWord (data + 4 * (fileEndMarker arch t i - start)) 4 vdiskFatEndMarker
        else m) (m.store data (fatBytes start n chainEntry)) =
      m.store data (fatBytes start n fun c =>
        if (List.range k).any fun i => (t.get i).read.isSome && fileEndMarker arch t i == c then
          vdiskFatEndMarker
        else chainEntry c) := by
  induction k with
  | zero => simp
  | succ k ih =>
      rw [List.range_succ, List.foldl_append, ih, List.foldl_cons, List.foldl_nil]
      by_cases hread : (t.get k).read.isSome = true
      · by_cases hin : start ≤ fileEndMarker arch t k ∧ fileEndMarker arch t k < start + n
        · rw [if_pos ⟨hread, hin⟩, putWord_fatBytes m data hin.1 hin.2]
          refine congrArg (m.store data) (fatBytes_congr fun c _ _ => ?_)
          rw [Function.update_apply, List.any_append]
          by_cases hc : c = fileEndMarker arch t k
          · simp [hc, hread]
          · rw [if_neg hc]
            simp [Ne.symm hc]
        · rw [if_neg (by tauto)]
          refine congrArg (m.store data) (fatBytes_congr fun c h₁ h₂ => ?_)
          have hc : fileEndMarker arch t k ≠ c := by
            rintro rfl
            exact hin ⟨h₁, h₂⟩
          simp [List.any_append, hc]
      · rw [if_neg (by tauto)]
        refine congrArg (m.store data) (fatBytes_congr fun c _ _ => ?_)
        simp [List.any_append, hread]

/-- The entries with the end markers of the files. -/
theorem fatBytes_fatEntry (arch : Arch) (t : VdiskFiles) (start n : ℕ) :
    (fatBytes start n fun c =>
      if (List.range vdiskMaxFiles).any fun i =>
        (t.get i).read.isSome && fileEndMarker arch t i == c then vdiskFatEndMarker
      else chainEntry c) = fatBytes start n (fatEntry arch t) := by
  refine fatBytes_congr fun c _ _ => ?_
  rw [fatEntry, ← isEndMarker, chainEntry]
  by_cases hm : isEndMarker arch t c = true
  · rw [if_pos hm, if_pos (Or.inl hm)]
  · rw [if_neg hm]
    by_cases hc : c < 128
    · rw [if_pos hc, if_pos (Or.inr hc)]
    · rw [if_neg hc, if_neg (not_or.mpr ⟨hm, hc⟩)]

/-- The first-sector special values are all end markers, the media type included. -/
theorem putWord_putWords_fatEndMarker (m : Mem) (data : ℕ) :
    (m.putWord data 4 ((vdiskFatEndMarker &&& (0xffffffff - 0xff)) ||| 0xf8)).putWords (data + 4)
        (List.replicate (vdiskSectorSize / 4 - 1) vdiskFatEndMarker) =
      m.putWords data (List.replicate 128 vdiskFatEndMarker) := by
  have hmedia : (vdiskFatEndMarker &&& (0xffffffff - 0xff)) ||| 0xf8 = vdiskFatEndMarker := by
    decide
  rw [hmedia, show List.replicate 128 vdiskFatEndMarker =
    vdiskFatEndMarker :: List.replicate (vdiskSectorSize / 4 - 1) vdiskFatEndMarker from rfl,
    putWords]

/-- **Sectors of the FAT** are copied from the image. -/
theorem vdiskFat_eq (arch : Arch) (t : VdiskFiles) {lba count : ℕ} (data : ℕ) (m : Mem)
    (hlo : vdiskFatLba ≤ lba) (hhi : lba + count ≤ vdiskFatLba + vdiskSectorsPerFat)
    (hfirst : lba = vdiskFatLba → 0 < count) :
    vdiskFat arch t lba count data m =
      m.copy data (Builder.fat.byte arch t) (512 * lba) (512 * count) := by
  simp only [vdiskFatLba, vdiskVbrLba, vdiskPartitionLba, vdiskReservedCount, vdiskClusterCount,
    vdiskSectorsPerFat, vdiskClusters, vdiskClusterSize, vdiskSectorSize] at hlo hhi hfirst
  have hstart : (lba - vdiskFatLba) * (vdiskSectorSize / 4) % 2 ^ 32 = (lba - 192) * 128 := by
    simp only [vdiskFatLba, vdiskVbrLba, vdiskPartitionLba, vdiskReservedCount, vdiskClusterCount,
      vdiskSectorSize]
    omega
  have hstop : ((lba - 192) * 128 + count * (vdiskSectorSize / 4)) % 2 ^ 32 =
      (lba - 192) * 128 + count * 128 := by
    simp only [vdiskSectorSize]
    omega
  have hchain : (if (lba - 192) * 128 = 0 then
      ((m.store data (fatBytes ((lba - 192) * 128) (count * 128) (· + 1))).putWord data 4
        ((vdiskFatEndMarker &&& (0xffffffff - 0xff)) ||| 0xf8)).putWords (data + 4)
        (List.replicate (vdiskSectorSize / 4 - 1) vdiskFatEndMarker)
      else m.store data (fatBytes ((lba - 192) * 128) (count * 128) (· + 1))) =
      m.store data (fatBytes ((lba - 192) * 128) (count * 128) chainEntry) := by
    by_cases h0 : (lba - 192) * 128 = 0
    · rw [if_pos h0, h0, putWord_putWords_fatEndMarker, putWords_fatBytes m data (by omega)]
    · rw [if_neg h0]
      exact congrArg (m.store data) (fatBytes_congr fun c hc _ => (if_neg (by omega)).symm)
  have hput : m.putWords data ((List.range' ((lba - 192) * 128) (count * 128)).map (· + 1)) =
      m.store data (fatBytes ((lba - 192) * 128) (count * 128) (· + 1)) := putWords_eq_store _ _ _
  rw [vdiskFat]
  simp only [hstart, hstop, Nat.add_sub_cancel_left, hput, hchain, foldl_putWord_fatBytes]
  have hlen : (fatBytes ((lba - 192) * 128) (count * 128) (fatEntry arch t)).length =
      512 * count := by
    rw [fatBytes, flatMap_leBytes_length, List.length_map, List.length_range']
    omega
  rw [fatBytes_fatEntry, @store_eq_copy m data (Builder.fat.byte arch t) (512 * lba) _, hlen]
  intro i hi
  rw [hlen] at hi
  have hword : ((List.range' ((lba - 192) * 128) (count * 128)).map (fatEntry arch t)).getD
      (i / (3 + 1)) 0 =
      fatEntry arch t (((512 * lba + i) / 512 - vdiskFatLba) * 128 + (512 * lba + i) % 512 / 4) := by
    rw [List.getD_eq_getElem _ _ (by simp; omega), List.getElem_map, List.getElem_range']
    refine congrArg (fatEntry arch t) ?_
    simp only [vdiskFatLba, vdiskVbrLba, vdiskPartitionLba, vdiskReservedCount, vdiskClusterCount]
    omega
  have hmod : (512 * lba + i) % 4 = i % (3 + 1) := by omega
  rw [fatBytes, flatMap_leBytes_getD 3 _ (by simp; omega), hword]
  simp only [Builder.byte, hmod]

/-! ### All builders -/

/-- What `vdisk_read` asks a builder for. -/
def Builder.Serves : Builder → ℕ → ℕ → Prop
  | .fat, lba, count => vdiskFatLba ≤ lba ∧ lba + count ≤ vdiskFatLba + vdiskSectorsPerFat ∧
      (lba = vdiskFatLba → 0 < count)
  | .dirFiles, lba, count => ∀ k < count, vdiskFileDirentIdx (lba + k) < vdiskMaxFiles
  | .file, lba, count => lba % vdiskFileCount + count ≤ vdiskFileCount
  | _, _, count => count = 1

/-- **Every builder copies a window of what it holds.** Only the files' own contents ask for files in
memory. -/
theorem Builder.run_eq {t : VdiskFiles} (arch : Arch) (hfit : t.NamesFit) {b : Builder}
    (ht : b = .file → t.InMemory) {lba count : ℕ} (data : ℕ) (m : Mem) (hcount : count * 512 < 2 ^ 32)
    (h : b.Serves lba count) :
    b.run arch t lba count data m =
      some (m.copy data (b.byte arch t) (512 * lba) (512 * count)) := by
  have hmod : ∀ i < 512, (512 * lba + i) % 512 = i := fun i hi => by omega
  have hfixed : ∀ fields : List (ℕ × ℕ × ℕ), (∀ f ∈ fields, f.1 + f.2.1 ≤ 512) →
      setFields data fields (m.fill data 0 512) =
        m.copy data (fun x => (structBytes fields).getD (x % 512) 0) (512 * lba) (512 * 1) := by
    intro fields hfields
    obtain ⟨heq, hlen⟩ := setFields_eq data m hfields
    rw [heq]
    exact store_sector_eq_copy m data lba hlen fun i hi => by rw [hmod i hi]
  cases b with
  | mbr =>
      obtain rfl : count = 1 := h
      exact congrArg some (hfixed mbrFields (by decide))
  | vbr =>
      obtain rfl : count = 1 := h
      exact congrArg some (hfixed vbrFields (by decide))
  | fsinfo =>
      obtain rfl : count = 1 := h
      exact congrArg some (hfixed fsinfoFields (by decide))
  | fat => exact congrArg some (vdiskFat_eq arch t data m h.1 h.2.1 h.2.2)
  | subdirs d =>
      obtain rfl : count = 1 := h
      refine congrArg some ((vdiskSubdirs_eq d data m).trans ?_)
      exact store_sector_eq_copy m data lba d.records_length fun i hi => by
        simp only [Builder.byte, hmod i hi]
  | dirFiles => exact vdiskDirFiles_eq arch hfit lba count data m h
  | file => exact congrArg some (vdiskFile_eq arch (ht rfl) data m hcount h)

end Ntloader.Vdisk
