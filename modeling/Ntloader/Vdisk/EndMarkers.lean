import Ntloader.Vdisk.DataPath

/-!
# The end markers of the files

Each file has a window of clusters, and the FAT marks the last of its clusters. The number of
clusters is computed from the length less one, which wraps for an empty file.

* `VdiskFiles.without` — the table without a file; `InWindow` — the clusters of a file's window.
* `fatEntry_ne_iff` — registering a file changes the entry of its last cluster only.
* `fileEndMarker_inWindow_iff` — which files end in their window.
* `vdiskFat_frame_iff` — registering a file changes entries of its window only, iff it is not empty,
  or the build has 32 bits, or the file in front of it ends with its own window.
-/

namespace Ntloader.Vdisk

open Ntloader.Lib Ntloader.Lib.Mem

/-- The table with an entry cleared. -/
def VdiskFiles.without (t : VdiskFiles) (i : ℕ) : VdiskFiles where
  files := t.files.set i VdiskFile.unused
  length_le := List.length_set.trans_le t.length_le

/-- A table without a file has an unused entry in its place. -/
theorem VdiskFiles.without_get (t : VdiskFiles) (i j : ℕ) :
    (t.without i).get j = if j = i then VdiskFile.unused else t.get j := by
  rw [VdiskFiles.get, VdiskFiles.get, VdiskFiles.without, List.getD_eq_getElem?_getD,
    List.getElem?_set]
  by_cases hji : j = i
  · rw [if_pos hji, if_pos hji.symm]
    by_cases hlt : i < t.files.length
    · rw [if_pos hlt]
      rfl
    · rw [if_neg hlt]
      rfl
  · rw [if_neg hji, if_neg (Ne.symm hji), List.getD_eq_getElem?_getD]

/-- A registered file is in the table. -/
theorem lt_of_read_isSome {t : VdiskFiles} {i : ℕ} (h : (t.get i).read.isSome) :
    i < vdiskMaxFiles := by
  by_contra hle
  rw [VdiskFiles.get, List.getD_eq_default _ _ (t.length_le.trans (not_lt.mp hle))] at h
  exact absurd h (by decide)

/-! ## What a file changes -/

/-- An end marker belongs to a file. -/
theorem isEndMarker_iff_exists {arch : Arch} {t : VdiskFiles} {c : ℕ} :
    isEndMarker arch t c = true ↔
      ∃ j, (t.get j).read.isSome = true ∧ fileEndMarker arch t j = c := by
  simp only [isEndMarker, List.any_eq_true, List.mem_range, Bool.and_eq_true, beq_iff_eq]
  constructor
  · rintro ⟨j, -, hread, hc⟩
    exact ⟨j, hread, hc⟩
  · rintro ⟨j, hread, hc⟩
    exact ⟨j, lt_of_read_isSome hread, hread, hc⟩

/-- The end markers of the table without a file are those of the others. -/
theorem isEndMarker_without {arch : Arch} {t : VdiskFiles} {i c : ℕ} :
    isEndMarker arch (t.without i) c = true ↔
      ∃ j, j ≠ i ∧ (t.get j).read.isSome = true ∧ fileEndMarker arch t j = c := by
  rw [isEndMarker_iff_exists]
  refine exists_congr fun j => ?_
  rw [fileEndMarker, fileEndMarker, t.without_get]
  by_cases hj : j = i
  · rw [if_pos hj]
    exact iff_of_false (fun h => absurd h.1 (by decide)) fun h => h.1 hj
  · rw [if_neg hj, and_iff_right hj]

/-- The end markers are those of the other files, and that of the file. -/
theorem isEndMarker_iff_without {arch : Arch} {t : VdiskFiles} {i c : ℕ}
    (hi : (t.get i).read.isSome = true) :
    isEndMarker arch t c = true ↔
      fileEndMarker arch t i = c ∨ isEndMarker arch (t.without i) c = true := by
  rw [isEndMarker_iff_exists, isEndMarker_without]
  constructor
  · rintro ⟨j, hread, hc⟩
    by_cases hj : j = i
    · exact Or.inl (hj ▸ hc)
    · exact Or.inr ⟨j, hj, hread, hc⟩
  · rintro (hc | ⟨j, -, hread, hc⟩)
    · exact ⟨i, hi, hc⟩
    · exact ⟨j, hread, hc⟩

/-- A file changes the entry of its last cluster, if no other file ends there, and no other entry. -/
theorem fatEntry_ne_iff {arch : Arch} {t : VdiskFiles} {i c : ℕ}
    (hi : (t.get i).read.isSome = true) (hc : c < fatEntries) :
    fatEntry arch t c ≠ fatEntry arch (t.without i) c ↔
      fileEndMarker arch t i = c ∧ ¬isEndMarker arch (t.without i) c = true ∧ 128 ≤ c := by
  simp only [fatEntries, vdiskSectorsPerFat, vdiskClusters, vdiskClusterSize, vdiskClusterCount,
    vdiskSectorSize] at hc
  have hlast : vdiskFatEndMarker ≠ c + 1 := by
    rw [vdiskFatEndMarker]
    omega
  have hmarker := @isEndMarker_iff_without arch t i c hi
  rw [fatEntry, fatEntry]
  by_cases hfirst : c < 128
  · rw [if_pos (Or.inr hfirst), if_pos (Or.inr hfirst)]
    exact iff_of_false (fun h => h rfl) fun h => absurd h.2.2 (not_le.mpr hfirst)
  · by_cases hother : isEndMarker arch (t.without i) c = true
    · rw [if_pos (Or.inl (hmarker.mpr (Or.inr hother))), if_pos (Or.inl hother)]
      exact iff_of_false (fun h => h rfl) fun h => h.2.1 hother
    · by_cases hfile : fileEndMarker arch t i = c
      · rw [if_pos (Or.inl (hmarker.mpr (Or.inl hfile))), if_neg (not_or.mpr ⟨hother, hfirst⟩)]
        exact iff_of_true hlast ⟨hfile, hother, not_lt.mp hfirst⟩
      · have hnone : ¬isEndMarker arch t c = true := fun h => (hmarker.mp h).elim hfile hother
        rw [if_neg (not_or.mpr ⟨hnone, hfirst⟩), if_neg (not_or.mpr ⟨hother, hfirst⟩)]
        exact iff_of_false (fun h => h rfl) fun h => hfile h.1

/-! ## Where a file ends -/

/-- The clusters of a file's window. -/
def InWindow (i c : ℕ) : Prop :=
  vdiskFileCluster i ≤ c ∧ c ≤ vdiskFileCluster i + vdiskFileClusters - 1

/-- An empty file ends with its window in 32 bits, and in front of it in 64 bits. -/
theorem fileEndMarker_of_zero {t : VdiskFiles} {i : ℕ} (hi : i < vdiskMaxFiles)
    (hzero : (t.get i).xlen = 0) :
    fileEndMarker .i386 t i = vdiskFileCluster i + vdiskFileClusters - 1 ∧
      fileEndMarker .x86_64 t i = vdiskFileCluster i - 1 := by
  simp only [vdiskMaxFiles, vdiskClusterCount] at hi
  rw [fileEndMarker, fileEndMarker, hzero, vdiskFileCluster_eq]
  simp only [Arch.ulong, vdiskClusterSize, vdiskClusterCount, vdiskSectorSize, vdiskFileClusters,
    vdiskFileCount]
  omega

/-- Which files end in their window. -/
theorem fileEndMarker_inWindow_iff {t : VdiskFiles} {arch : Arch} {i : ℕ} (hi : i < vdiskMaxFiles)
    (hlen : (t.get i).xlen < 2 ^ 32) :
    InWindow i (fileEndMarker arch t i) ↔ arch = .i386 ∨ (t.get i).xlen ≠ 0 := by
  have hfirst := vdiskFileCluster_eq i
  rw [InWindow]
  by_cases hzero : (t.get i).xlen = 0
  · obtain ⟨hnarrow, hwide⟩ := fileEndMarker_of_zero hi hzero
    cases arch with
    | i386 =>
        rw [hnarrow]
        refine iff_of_true ⟨?_, le_rfl⟩ (Or.inl rfl)
        simp only [vdiskFileClusters, vdiskFileCount, vdiskClusterCount]
        omega
    | x86_64 =>
        rw [hwide]
        refine iff_of_false (fun h => ?_) (by simp [hzero])
        omega
  · rw [fileEndMarker_of_pos arch hi hzero hlen]
    refine iff_of_true ⟨Nat.le_add_right _ _, ?_⟩ (Or.inr hzero)
    simp only [vdiskFileClusters, vdiskFileCount, vdiskClusterCount]
    omega

/-- Which other file ends right in front of a window: the one whose window that is, if its last
cluster is used. -/
theorem isEndMarker_without_front {t : VdiskFiles} {i : ℕ} (hlen : ∀ j, (t.get j).xlen < 2 ^ 32) :
    isEndMarker .x86_64 (t.without i) (vdiskFileCluster i - 1) = true ↔
      ∃ j, j + 1 = i ∧ (t.get j).read.isSome = true ∧ 2 ^ 32 - 2 ^ 15 < (t.get j).xlen := by
  rw [isEndMarker_without]
  constructor
  · rintro ⟨j, hji, hread, hmarker⟩
    have hj := lt_of_read_isSome hread
    have hlt := hlen j
    by_cases hzero : (t.get j).xlen = 0
    · rw [(fileEndMarker_of_zero hj hzero).2, vdiskFileCluster_eq, vdiskFileCluster_eq] at hmarker
      omega
    · rw [fileEndMarker_of_pos _ hj hzero hlt, vdiskFileCluster_eq, vdiskFileCluster_eq] at hmarker
      exact ⟨j, by omega, hread, by omega⟩
  · rintro ⟨j, rfl, hread, hfull⟩
    have hlt := hlen j
    refine ⟨j, by omega, hread, ?_⟩
    rw [fileEndMarker_of_pos _ (lt_of_read_isSome hread) (by omega) hlt, vdiskFileCluster_eq,
      vdiskFileCluster_eq]
    omega

/-! ## The windows of the FAT -/

/-- The entry of a cluster in a window of the FAT that is at an address. -/
def windowEntry (m : Mem) (lba data c : ℕ) : ℕ :=
  m.word (data + 4 * (c - (lba - vdiskFatLba) * 128)) 4

/-- A window of the FAT holds the entries of its clusters. -/
theorem vdiskFat_entry (arch : Arch) (t : VdiskFiles) {lba count c : ℕ} (data : ℕ) (m : Mem)
    (hserves : Builder.fat.Serves lba count) (hlow : (lba - vdiskFatLba) * 128 ≤ c)
    (hhigh : c < (lba - vdiskFatLba + count) * 128) :
    c < fatEntries ∧
      windowEntry (vdiskFat arch t lba count data m) lba data c = fatEntry arch t c := by
  obtain ⟨hlba, hend, hfirst⟩ := hserves
  have hc : c < fatEntries := by
    rw [fatEntries]
    omega
  have hplace : 512 * lba + 4 * (c - (lba - vdiskFatLba) * 128) =
      512 * (vdiskFatLba + c / 128) + 4 * (c % 128) := by omega
  refine ⟨hc, ?_⟩
  rw [windowEntry, vdiskFat_eq arch t data m hlba hend hfirst, word,
    bytes_copy _ _ _ _ _ (by omega), hplace, ← word, fatByte_word arch t hc]

/-- Registering a file changes entries of its window only, in every window of the FAT. -/
def ChangesOwnWindow (arch : Arch) (t : VdiskFiles) (i : ℕ) : Prop :=
  ∀ lba count data m, Builder.fat.Serves lba count →
    ∀ c, (lba - vdiskFatLba) * 128 ≤ c → c < (lba - vdiskFatLba + count) * 128 →
      windowEntry (vdiskFat arch t lba count data m) lba data c ≠
        windowEntry (vdiskFat arch (t.without i) lba count data m) lba data c → InWindow i c

/-- The windows of the FAT show what the entries show. -/
theorem changesOwnWindow_iff {arch : Arch} {t : VdiskFiles} {i : ℕ} :
    ChangesOwnWindow arch t i ↔
      ∀ c < fatEntries, fatEntry arch t c ≠ fatEntry arch (t.without i) c → InWindow i c := by
  constructor
  · intro h c hc hne
    -- the sector with the entry
    have hserves : Builder.fat.Serves (vdiskFatLba + c / 128) 1 := by
      rw [fatEntries] at hc
      exact ⟨Nat.le_add_right _ _, by omega, fun _ => one_pos⟩
    have hlow : (vdiskFatLba + c / 128 - vdiskFatLba) * 128 ≤ c := by omega
    have hhigh : c < (vdiskFatLba + c / 128 - vdiskFatLba + 1) * 128 := by omega
    refine h _ 1 0 Mem.zero hserves c hlow hhigh ?_
    rw [(vdiskFat_entry arch t 0 Mem.zero hserves hlow hhigh).2,
      (vdiskFat_entry arch (t.without i) 0 Mem.zero hserves hlow hhigh).2]
    exact hne
  · intro h lba count data m hserves c hlow hhigh hne
    obtain ⟨hc, hentry⟩ := vdiskFat_entry arch t data m hserves hlow hhigh
    rw [hentry, (vdiskFat_entry arch (t.without i) data m hserves hlow hhigh).2] at hne
    exact h c hc hne

/-- A file ends at a cluster with an entry, behind the first sector of the FAT. -/
theorem fileEndMarker_bounds {t : VdiskFiles} {arch : Arch} {i : ℕ} (hi : i < vdiskMaxFiles)
    (hlen : (t.get i).xlen < 2 ^ 32) :
    128 ≤ fileEndMarker arch t i ∧ fileEndMarker arch t i < fatEntries := by
  have hfirst := vdiskFileCluster_eq i
  have hfat : fatEntries = 67092480 := by decide
  rw [hfat]
  simp only [vdiskMaxFiles, vdiskClusterCount] at hi
  by_cases hzero : (t.get i).xlen = 0
  · obtain ⟨hnarrow, hwide⟩ := fileEndMarker_of_zero hi hzero
    cases arch with
    | i386 =>
        rw [hnarrow]
        simp only [vdiskFileClusters, vdiskFileCount, vdiskClusterCount]
        omega
    | x86_64 =>
        rw [hwide]
        omega
  · rw [fileEndMarker_of_pos arch hi hzero hlen]
    omega

/-- The entry that a file changes is in its window. -/
theorem changesOwnWindow_iff_inWindow {arch : Arch} {t : VdiskFiles} {i : ℕ}
    (hi : (t.get i).read.isSome = true) (hlen : (t.get i).xlen < 2 ^ 32) :
    ChangesOwnWindow arch t i ↔
      (¬isEndMarker arch (t.without i) (fileEndMarker arch t i) = true →
        InWindow i (fileEndMarker arch t i)) := by
  obtain ⟨hlow, hhigh⟩ := @fileEndMarker_bounds t arch i (lt_of_read_isSome hi) hlen
  rw [changesOwnWindow_iff]
  constructor
  · intro h hfree
    exact h _ hhigh ((fatEntry_ne_iff hi hhigh).mpr ⟨rfl, hfree, hlow⟩)
  · intro h c hc hne
    obtain ⟨rfl, hfree, -⟩ := (fatEntry_ne_iff hi hc).mp hne
    exact h hfree

/-- **End markers stay in their file's window**: registering a file changes entries of its window
only, iff the build has 32 bits, the file is not empty, or the file in front of it uses the last
cluster of its own window.
Source: libnt/vdisk.c, vdisk_fat -/
theorem vdiskFat_frame_iff {arch : Arch} {t : VdiskFiles} {i : ℕ}
    (hi : (t.get i).read.isSome = true) (hlen : ∀ j, (t.get j).xlen < 2 ^ 32) :
    ChangesOwnWindow arch t i ↔
      arch = .i386 ∨ (t.get i).xlen ≠ 0 ∨
        ∃ j, j + 1 = i ∧ (t.get j).read.isSome = true ∧ 2 ^ 32 - 2 ^ 15 < (t.get j).xlen := by
  have hmax := lt_of_read_isSome hi
  rw [changesOwnWindow_iff_inWindow hi (hlen i), fileEndMarker_inWindow_iff hmax (hlen i), ← or_assoc]
  by_cases hown : arch = .i386 ∨ (t.get i).xlen ≠ 0
  · exact iff_of_true (fun _ => hown) (Or.inl hown)
  · rw [or_iff_right hown]
    obtain ⟨harch, hzero⟩ := not_or.mp hown
    obtain rfl : arch = .x86_64 := by
      cases arch with
      | i386 => exact absurd rfl harch
      | x86_64 => rfl
    rw [(fileEndMarker_of_zero hmax (not_not.mp hzero)).2, ← isEndMarker_without_front hlen]
    exact ⟨fun h => not_not.mp fun hfree => hown (h hfree), fun h hfree => absurd h hfree⟩

/-- The table of one file, with nothing in it. -/
def emptyFileTable : VdiskFiles where
  files := [Registration.entry ⟨[0x61], Mem.zero, 0, readMemFile⟩]
  length_le := by decide

/-- Files of this table are empty. -/
theorem emptyFileTable_xlen (j : ℕ) : (emptyFileTable.get j).xlen = 0 := by
  rcases j with _ | j
  · rfl
  · rfl

/-- An empty file on the 32-bit build. -/
theorem vdiskFat_frame_iff_empty :
    ChangesOwnWindow .i386 emptyFileTable 0 ↔
      Arch.i386 = .i386 ∨ (emptyFileTable.get 0).xlen ≠ 0 ∨
        ∃ j, j + 1 = 0 ∧ (emptyFileTable.get j).read.isSome = true ∧
          2 ^ 32 - 2 ^ 15 < (emptyFileTable.get j).xlen :=
  vdiskFat_frame_iff rfl fun j => (emptyFileTable_xlen j).trans_lt (by decide)

/-- On the 64-bit build an empty file marks the cluster in front of its window. -/
theorem vdiskFat_not_frame :
    addFiles [⟨[0x61], Mem.zero, 0, readMemFile⟩] = some emptyFileTable ∧
      ¬ChangesOwnWindow .x86_64 emptyFileTable 0 := by
  refine ⟨rfl, fun h => ?_⟩
  have hzero := emptyFileTable_xlen 0
  have hmax : 0 < vdiskMaxFiles := by decide
  have hmarker := (fileEndMarker_of_zero hmax hzero).2
  have hlt : ∀ j, (emptyFileTable.get j).xlen < 2 ^ 32 := fun j =>
    (emptyFileTable_xlen j).trans_lt (by decide)
  rw [changesOwnWindow_iff_inWindow rfl (hlt 0), fileEndMarker_inWindow_iff hmax (hlt 0), hmarker,
    isEndMarker_without_front hlt] at h
  have hown := h fun ⟨j, hj, _⟩ => absurd hj (Nat.succ_ne_zero j)
  exact hown.elim (by decide) fun hne => hne hzero

end Ntloader.Vdisk
