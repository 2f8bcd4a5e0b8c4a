import Ntloader.Vdisk.Refine

/-!
# The data path of the virtual FAT

What a FAT driver that reads the virtual disk finds of a file: its chain of clusters and, along it,
its contents.

* `FatReader` — how a driver asks for the FAT: for every entry, any request within the FAT that
  covers the entry's sector.
* `followChain`, `readClusters` — the chain from a cluster up to the end marker, and the bytes of a
  list of clusters.
* `fatEntry_of_link`, `fatEntry_of_last` — the entries in the window of a file.
* `vdiskRead_dataPath` — the chain of a file is as long as its length asks for and lies within the
  file's window, and the clusters hold the contents and zeros behind them.
-/

namespace Ntloader.Vdisk

open Ntloader.Lib Ntloader.Lib.Mem

/-! ## A driver -/

/-- The number of entries of the FAT. -/
def fatEntries : ℕ := vdiskSectorsPerFat * 128

/-- The requests a driver reads the entries of the FAT by. -/
structure FatReader where
  /-- First sector of the request for an entry. -/
  lba : ℕ → ℕ
  /-- Its number of sectors. -/
  count : ℕ → ℕ
  /-- The buffer. -/
  data : ℕ → ℕ
  /-- The request stays within the FAT. -/
  within : ∀ c < fatEntries, vdiskFatLba ≤ lba c ∧ lba c + count c ≤ vdiskFatLba + vdiskSectorsPerFat
  /-- It covers the sector of the entry. -/
  covers : ∀ c < fatEntries, lba c ≤ vdiskFatLba + c / 128 ∧ vdiskFatLba + c / 128 < lba c + count c

/-- The 32-bit FAT entry of a cluster, as a driver reads it. -/
def FatReader.entry (r : FatReader) (arch : Arch) (t : VdiskFiles) (m : Mem) (c : ℕ) : Option ℕ :=
  (vdiskRead arch t (r.lba c) (r.count c) (r.data c) m).map fun m' =>
    m'.word (r.data c + (512 * (vdiskFatLba + c / 128 - r.lba c) + 4 * (c % 128))) 4

/-- The clusters visited from a cluster on, before the end marker is met, on fuel. -/
def followChain (entry : ℕ → Option ℕ) : ℕ → ℕ → Option (List ℕ)
  | 0, _ => none
  | fuel + 1, c =>
      match entry c with
      | none => none
      | some next =>
          if next = vdiskFatEndMarker then some [c]
          else (followChain entry fuel next).map (c :: ·)

/-- The bytes of clusters, one after the other, each read as `VDISK_CLUSTER_COUNT` sectors. -/
def readClusters (arch : Arch) (t : VdiskFiles) (data : ℕ) : List ℕ → Mem → Option (List UInt8)
  | [], _ => some []
  | c :: cs, m =>
      (vdiskRead arch t (vdiskPartitionLba + vdiskClusterSector c) vdiskClusterCount data m).bind
        fun m' => (readClusters arch t data cs m').map (m'.bytes data vdiskClusterSize ++ ·)

/-! ## The FAT -/

/-- The FAT has a region of the disk. -/
theorem fatRegion_mem : (⟨vdiskFatLba, vdiskSectorsPerFat, .fat⟩ : VdiskRegion) ∈ vdiskRegions := by
  decide

/-- An entry has 32 bits. -/
theorem fatEntry_lt (arch : Arch) (t : VdiskFiles) {c : ℕ} (hc : c < fatEntries) :
    fatEntry arch t c < 256 ^ 4 := by
  simp only [fatEntries, vdiskSectorsPerFat, vdiskClusters, vdiskClusterSize, vdiskClusterCount,
    vdiskSectorSize] at hc
  rw [fatEntry]
  split_ifs
  · decide
  · omega

/-- The bytes of the FAT are those of its entries. -/
theorem fatByte_word (arch : Arch) (t : VdiskFiles) {c : ℕ} (hc : c < fatEntries) :
    (Builder.fat.byte arch t).word (512 * (vdiskFatLba + c / 128) + 4 * (c % 128)) 4 =
      fatEntry arch t c := by
  have hbytes : (Builder.fat.byte arch t).bytes (512 * (vdiskFatLba + c / 128) + 4 * (c % 128)) 4 =
      leBytes 4 (fatEntry arch t c) := by
    have hiff := @bytes_eq_iff (Builder.fat.byte arch t)
      (512 * (vdiskFatLba + c / 128) + 4 * (c % 128)) (leBytes 4 (fatEntry arch t c))
    rw [leBytes_length] at hiff
    refine hiff.mpr fun i hi => ?_
    have hdiv : (512 * (vdiskFatLba + c / 128) + 4 * (c % 128) + i) / 512 =
        vdiskFatLba + c / 128 := by omega
    have hcluster : (vdiskFatLba + c / 128 - vdiskFatLba) * 128 +
        (512 * (vdiskFatLba + c / 128) + 4 * (c % 128) + i) % 512 / 4 = c := by omega
    have hbyte : (512 * (vdiskFatLba + c / 128) + 4 * (c % 128) + i) % 4 = i := by omega
    simp only [Builder.byte]
    rw [hdiv, hcluster, hbyte]
  rw [word, hbytes, leNat_leBytes_of_lt (fatEntry_lt arch t hc)]

/-- The FAT of the image. -/
theorem image_fatEntry (arch : Arch) (t : VdiskFiles) {c : ℕ} (hc : c < fatEntries) :
    (image arch t).word (512 * (vdiskFatLba + c / 128) + 4 * (c % 128)) 4 = fatEntry arch t c := by
  have hlt : c / 128 < vdiskSectorsPerFat := by
    rw [fatEntries] at hc
    omega
  rw [← fatByte_word arch t hc]
  refine word_congr fun i hi => ?_
  have hdiv : (512 * (vdiskFatLba + c / 128) + 4 * (c % 128) + i) / 512 =
      vdiskFatLba + c / 128 := by omega
  exact image_of_mem fatRegion_mem (by rw [hdiv]; exact Nat.le_add_right _ _)
    (by rw [hdiv]; exact Nat.add_lt_add_left hlt _) arch t

/-- **The entries a driver reads are those of the FAT**, whatever its requests are. -/
theorem FatReader.entry_eq (r : FatReader) (arch : Arch) {t : VdiskFiles} (ht : t.InMemory)
    (m : Mem) {c : ℕ} (hc : c < fatEntries) : r.entry arch t m c = some (fatEntry arch t c) := by
  obtain ⟨hlo, hhi⟩ := r.within c hc
  obtain ⟨h₁, h₂⟩ := r.covers c hc
  have hend : r.lba c + r.count c ≤ vdiskFileCount := hhi.trans (by decide)
  have hbound : vdiskFatLba + vdiskSectorsPerFat < 2 ^ 22 := by decide
  have hread := @vdiskRead_eq arch _ (r.lba c) (r.count c) ht (by omega) (by omega)
      (Or.inr (lt_of_le_of_lt hend (by decide))) (Or.inl hend) (r.data c) m
  have hoff : 512 * r.lba c + (512 * (vdiskFatLba + c / 128 - r.lba c) + 4 * (c % 128)) =
      512 * (vdiskFatLba + c / 128) + 4 * (c % 128) := by omega
  rw [FatReader.entry, hread, Option.map_some, word, bytes_copy _ _ _ _ _ (by omega), hoff, ← word,
    image_fatEntry arch t hc]

/-! ## The window of a file -/

section Window

variable {files : List MemFile} {t : VdiskFiles}

/-- Number of clusters of a file. -/
def MemFile.clusters (f : MemFile) : ℕ := (f.len + 32767) / 32768

/-- A file that is not empty ends in its window, at the cluster of its last byte. -/
theorem fileEndMarker_of_pos {t : VdiskFiles} (arch : Arch) {i : ℕ} (hi : i < vdiskMaxFiles)
    (hpos : (t.get i).xlen ≠ 0) (hlen : (t.get i).xlen < 2 ^ 32) :
    fileEndMarker arch t i = vdiskFileCluster i + ((t.get i).xlen - 1) / 32768 := by
  have hulong := arch.ulong_ge
  have hwrap : ((t.get i).xlen + arch.ulong - 1) % arch.ulong = (t.get i).xlen - 1 := by
    rw [show (t.get i).xlen + arch.ulong - 1 = (t.get i).xlen - 1 + arch.ulong by omega,
      Nat.add_mod_right, Nat.mod_eq_of_lt (by omega)]
  simp only [vdiskMaxFiles, vdiskClusterCount] at hi
  rw [fileEndMarker, hwrap, vdiskFileCluster_eq]
  simp only [vdiskClusterSize, vdiskClusterCount, vdiskSectorSize]
  omega

/-- The end markers, for files that are neither empty nor too long. -/
theorem fileEndMarker_eq (hfiles : files.length ≤ vdiskMaxFiles) (ht : addMemFiles files = some t)
    (hlen : ∀ f ∈ files, 1 ≤ f.len ∧ f.len < 2 ^ 32) (arch : Arch) {i : ℕ} (hi : i < files.length) :
    fileEndMarker arch t i = vdiskFileCluster i + (files[i].clusters - 1) := by
  obtain ⟨hpos, hlt⟩ := hlen files[i] (List.getElem_mem hi)
  have hget : (t.get i).xlen = files[i].len := by
    rw [addMemFiles_get hfiles ht, List.getElem?_eq_getElem hi]
    rfl
  rw [fileEndMarker_of_pos arch (hi.trans_le hfiles) (by omega) (by omega), hget,
    MemFile.clusters]
  omega

/-- The end markers in the window of a file: its last cluster only. -/
theorem isEndMarker_iff (hfiles : files.length ≤ vdiskMaxFiles) (ht : addMemFiles files = some t)
    (hlen : ∀ f ∈ files, 1 ≤ f.len ∧ f.len < 2 ^ 32) (arch : Arch) {i k : ℕ} (hi : i < files.length)
    (hk : k < vdiskFileClusters) :
    isEndMarker arch t (vdiskFileCluster i + k) = true ↔ k = files[i].clusters - 1 := by
  have hread : ∀ j, (t.get j).read.isSome = true ↔ j < files.length := by
    intro j
    rw [addMemFiles_get hfiles ht]
    by_cases hj : j < files.length
    · rw [List.getElem?_eq_getElem hj]
      exact iff_of_true rfl hj
    · rw [List.getElem?_eq_none (by omega)]
      exact iff_of_false (by decide) hj
  have hclusters : ∀ {j} (hj : j < files.length), files[j].clusters - 1 < vdiskFileClusters := by
    intro j hj
    have := (hlen files[j] (List.getElem_mem hj)).2
    rw [MemFile.clusters]
    simp only [vdiskFileClusters, vdiskFileCount, vdiskClusterCount]
    omega
  simp only [isEndMarker, List.any_eq_true, List.mem_range, Bool.and_eq_true, beq_iff_eq]
  constructor
  · rintro ⟨j, -, hj, heq⟩
    rw [hread] at hj
    have hlt := hclusters hj
    rw [fileEndMarker_eq hfiles ht hlen arch hj, vdiskFileCluster_eq, vdiskFileCluster_eq] at heq
    simp only [vdiskFileClusters, vdiskFileCount, vdiskClusterCount] at hk hlt
    -- windows do not overlap
    obtain rfl : j = i := by omega
    omega
  · rintro rfl
    exact ⟨i, hi.trans_le hfiles, (hread i).mpr hi, fileEndMarker_eq hfiles ht hlen arch hi⟩

/-- The clusters of files have entries in the FAT. -/
theorem vdiskFileCluster_add_lt {i k : ℕ} (hi : i < vdiskMaxFiles) (hk : k < vdiskFileClusters) :
    vdiskFileCluster i + k < fatEntries := by
  rw [vdiskFileCluster_eq]
  simp only [fatEntries, vdiskMaxFiles, vdiskFileClusters, vdiskFileCount, vdiskSectorsPerFat,
    vdiskClusters, vdiskClusterSize, vdiskClusterCount, vdiskSectorSize] at *
  omega

/-- A cluster of a file that is not its last chains to the next. -/
theorem fatEntry_of_link (hfiles : files.length ≤ vdiskMaxFiles) (ht : addMemFiles files = some t)
    (hlen : ∀ f ∈ files, 1 ≤ f.len ∧ f.len < 2 ^ 32) (arch : Arch) {i k : ℕ} (hi : i < files.length)
    (hk : k < vdiskFileClusters) (hne : k ≠ files[i].clusters - 1) :
    fatEntry arch t (vdiskFileCluster i + k) = vdiskFileCluster i + k + 1 := by
  refine if_neg ?_
  rw [isEndMarker_iff hfiles ht hlen arch hi hk]
  rintro (h | h)
  · exact hne h
  · rw [vdiskFileCluster_eq] at h
    omega

/-- The last cluster of a file is marked. -/
theorem fatEntry_of_last (hfiles : files.length ≤ vdiskMaxFiles) (ht : addMemFiles files = some t)
    (hlen : ∀ f ∈ files, 1 ≤ f.len ∧ f.len < 2 ^ 32) (arch : Arch) {i : ℕ} (hi : i < files.length)
    (hk : files[i].clusters - 1 < vdiskFileClusters) :
    fatEntry arch t (vdiskFileCluster i + (files[i].clusters - 1)) = vdiskFatEndMarker :=
  if_pos (Or.inl ((isEndMarker_iff hfiles ht hlen arch hi hk).mpr rfl))

/-- A chain of neighbouring clusters. -/
theorem followChain_range' {entry : ℕ → Option ℕ} {start n : ℕ} (fuel : ℕ) (hfuel : n < fuel)
    (hlink : ∀ k < n, entry (start + k) = some (start + k + 1))
    (hne : ∀ k < n, start + k + 1 ≠ vdiskFatEndMarker)
    (hlast : entry (start + n) = some vdiskFatEndMarker) :
    followChain entry fuel start = some (List.range' start (n + 1)) := by
  induction n generalizing start fuel with
  | zero =>
      obtain ⟨fuel, rfl⟩ : ∃ fuel', fuel = fuel' + 1 := ⟨fuel - 1, by omega⟩
      simp only [Nat.add_zero] at hlast
      rw [followChain, hlast]
      exact if_pos rfl
  | succ n ih =>
      obtain ⟨fuel, rfl⟩ : ∃ fuel', fuel = fuel' + 1 := ⟨fuel - 1, by omega⟩
      have hshift : ∀ k, start + (k + 1) = start + 1 + k := fun k => by omega
      have hnext : entry start = some (start + 1) := hlink 0 (Nat.succ_pos _)
      have hrec := @ih (start + 1) fuel (by omega)
        (fun k hk => by rw [← hshift]; exact hlink (k + 1) (by omega))
        (fun k hk => by rw [← hshift]; exact hne (k + 1) (by omega))
        (by rw [← hshift]; exact hlast)
      rw [followChain, hnext]
      dsimp only
      rw [if_neg (hne 0 (Nat.succ_pos _)), hrec, Option.map_some, ← List.range'_succ]

/-- **The clusters of a file's window hold its contents.** -/
theorem readClusters_range' (ht : t.InMemory) (arch : Arch) {i : ℕ} (hi : i < vdiskMaxFiles)
    {k n : ℕ} (h : k + n ≤ vdiskFileClusters) (data : ℕ) (m : Mem) :
    readClusters arch t data (List.range' (vdiskFileCluster i + k) n) m =
      some ((t.get i).contents.bytes (vdiskClusterSize * k) (vdiskClusterSize * n)) := by
  induction n generalizing k m with
  | zero =>
      rw [List.range'_zero, readClusters, Nat.mul_zero, bytes_zero]
  | succ n ih =>
      have hrest : k + 1 + n ≤ vdiskFileClusters := by omega
      have hlba := vdiskPartitionLba_add_vdiskClusterSector i k
      have hend : (i + 1) * vdiskFileCount + k * vdiskClusterCount + vdiskClusterCount <
          511 * vdiskFileCount := by
        simp only [vdiskMaxFiles, vdiskFileClusters, vdiskFileCount, vdiskClusterCount] at *
        omega
      have hstart : vdiskFileCount ≤ (i + 1) * vdiskFileCount + k * vdiskClusterCount := by
        simp only [vdiskFileCount, vdiskClusterCount]
        omega
      have hread := @vdiskRead_eq arch _ _ _ ht (by decide) (hend.trans (by decide)) (Or.inr hend)
          (Or.inr hstart) data m
      have hcluster : 512 * vdiskClusterCount = vdiskClusterSize := rfl
      have hoff : 512 * ((i + 1) * vdiskFileCount + k * vdiskClusterCount) =
          512 * ((i + 1) * vdiskFileCount) + vdiskClusterSize * k := by
        simp only [vdiskClusterSize, vdiskClusterCount, vdiskSectorSize]
        omega
      have hbytes : (image arch t).bytes (512 * ((i + 1) * vdiskFileCount) + vdiskClusterSize * k)
          vdiskClusterSize = (t.get i).contents.bytes (vdiskClusterSize * k) vdiskClusterSize := by
        apply bytes_congr
        intro j hj
        rw [Nat.add_assoc]
        refine image_file hi ?_ arch t
        simp only [vdiskFileClusters, vdiskFileCount, vdiskClusterSize, vdiskClusterCount,
          vdiskSectorSize] at *
        omega
      rw [List.range'_succ, readClusters, hlba, hread, Option.bind_some, hcluster, bytes_copy_self,
        hoff, hbytes, Nat.add_assoc _ k 1, ih hrest, Option.map_some, Nat.mul_succ, Nat.mul_succ,
        Nat.add_comm (vdiskClusterSize * n), bytes_add]

/-- The contents of a file and the zeros behind them. -/
theorem contents_bytes (hfiles : files.length ≤ vdiskMaxFiles) (ht : addMemFiles files = some t)
    {i n : ℕ} (hi : i < files.length) (hn : files[i].len ≤ n) :
    (t.get i).contents.bytes 0 n =
      files[i].contents.bytes 0 files[i].len ++ List.replicate (n - files[i].len) 0 := by
  have hget : t.get i = files[i].entry := by
    rw [addMemFiles_get hfiles ht, List.getElem?_eq_getElem hi]
    rfl
  obtain ⟨k, rfl⟩ : ∃ k, n = files[i].len + k := ⟨n - files[i].len, by omega⟩
  rw [bytes_add, hget, Nat.add_sub_cancel_left]
  congr 1
  · apply bytes_congr
    intro j hj
    exact if_pos (by rwa [Nat.zero_add])
  · rw [List.eq_replicate_iff]
    refine ⟨bytes_length _ _ _, fun b hb => ?_⟩
    obtain ⟨j, -, rfl⟩ := List.mem_map.mp hb
    exact if_neg (by simp [MemFile.entry])

end Window

/-! ## The data path -/

/-- **The data path of a file.** Its chain visits one cluster for each 32768 bytes begun, in its
window, and the clusters hold the contents and nothing but zeros behind them; on both builds, for
any driver, any buffer and any memory before the reads. -/
theorem vdiskRead_dataPath {files : List MemFile} {t : VdiskFiles}
    (hfiles : files.length ≤ vdiskMaxFiles) (hlen : ∀ f ∈ files, 1 ≤ f.len ∧ f.len < 2 ^ 32)
    (ht : addMemFiles files = some t) (arch : Arch) (i : ℕ) (hi : i < files.length) :
    ∃ chain : List ℕ, chain.length = (files[i].len + 32767) / 32768 ∧
      (∀ (r : FatReader) (m : Mem) (fuel : ℕ), chain.length ≤ fuel →
        followChain (r.entry arch t m) fuel (vdiskFileCluster i) = some chain) ∧
      (∀ c ∈ chain, vdiskFileCluster i ≤ c ∧ c < vdiskFileCluster i + vdiskFileClusters) ∧
      ∀ (data : ℕ) (m : Mem), readClusters arch t data chain m =
        some (files[i].contents.bytes 0 files[i].len ++
          List.replicate (32768 * chain.length - files[i].len) 0) := by
  obtain ⟨hpos, hlt⟩ := hlen files[i] (List.getElem_mem hi)
  have hmem := addMemFiles_inMemory hfiles ht
  have hmax : i < vdiskMaxFiles := hi.trans_le hfiles
  have hclusters : files[i].clusters = (files[i].len + 32767) / 32768 := rfl
  have hone : 1 ≤ files[i].clusters := by omega
  have hwindow : files[i].clusters ≤ vdiskFileClusters := by
    simp only [vdiskFileClusters, vdiskFileCount, vdiskClusterCount]
    omega
  have hentry : ∀ (r : FatReader) (m : Mem) (k : ℕ), k < vdiskFileClusters →
      r.entry arch t m (vdiskFileCluster i + k) =
        some (fatEntry arch t (vdiskFileCluster i + k)) := fun r m k hk =>
    r.entry_eq arch hmem m (vdiskFileCluster_add_lt hmax hk)
  refine ⟨List.range' (vdiskFileCluster i) files[i].clusters, ?_, ?_, ?_, ?_⟩
  · rw [List.length_range', hclusters]
  · intro r m fuel hfuel
    rw [List.length_range'] at hfuel
    have hchain := @followChain_range' (r.entry arch t m) (vdiskFileCluster i)
        (files[i].clusters - 1) fuel (by omega) (fun k hk => ?_) (fun k hk => ?_) ?_
    · rwa [Nat.sub_add_cancel hone] at hchain
    · rw [hentry r m k (by omega),
        fatEntry_of_link hfiles ht hlen arch hi (by omega) (by omega)]
    · have := vdiskFileCluster_add_lt hmax (k := k) (by omega)
      simp only [fatEntries, vdiskSectorsPerFat, vdiskClusters, vdiskClusterSize, vdiskClusterCount,
        vdiskSectorSize, vdiskFatEndMarker] at *
      omega
    · rw [hentry r m _ (by omega), fatEntry_of_last hfiles ht hlen arch hi (by omega)]
  · intro c hc
    rw [List.mem_range'_1] at hc
    exact ⟨hc.1, by omega⟩
  · intro data m
    have hread := readClusters_range' hmem arch hmax (k := 0) (n := files[i].clusters) (by omega)
      data m
    have hsize : vdiskClusterSize = 32768 := rfl
    rw [Nat.add_zero, Nat.mul_zero, hsize] at hread
    rw [List.length_range', ← contents_bytes hfiles ht hi (by omega)]
    exact hread

/-- The data path of the second of two files, of three clusters, on the 32-bit build. -/
theorem vdiskRead_dataPath_twoFiles :
    ∃ t, addMemFiles twoFiles = some t ∧
      ∃ chain : List ℕ, chain.length = (twoFiles[1].len + 32767) / 32768 ∧
        (∀ (r : FatReader) (m : Mem) (fuel : ℕ), chain.length ≤ fuel →
          followChain (r.entry .i386 t m) fuel (vdiskFileCluster 1) = some chain) ∧
        (∀ c ∈ chain, vdiskFileCluster 1 ≤ c ∧ c < vdiskFileCluster 1 + vdiskFileClusters) ∧
        ∀ (data : ℕ) (m : Mem), readClusters .i386 t data chain m =
          some (twoFiles[1].contents.bytes 0 twoFiles[1].len ++
            List.replicate (32768 * chain.length - twoFiles[1].len) 0) := by
  obtain ⟨t, ht, -⟩ := @addMemFiles_eq twoFiles (by decide)
  exact ⟨t, ht, vdiskRead_dataPath (by decide) (by decide) ht .i386 1 (by decide)⟩

end Ntloader.Vdisk
