import Ntloader.Vdisk.Refine

/-!
# Cutting a request into sectors

A request of several sectors against the requests for each of them alone.

* `ReadsSectorwise` — the request returns, writes the sectors asked for and nothing else, and each
  of them is what a request for that sector alone returns.
* `vdiskRead_readsSectorwise_iff` — this holds exactly if the request does not reach from before the
  first file into a byte of it that is not zero.
* `not_readsSectorwise_crossing` — a request that does.
-/

namespace Ntloader.Vdisk

open Ntloader.Lib Ntloader.Lib.Mem

/-- A request does not depend on how it is cut. -/
def ReadsSectorwise (arch : Arch) (t : VdiskFiles) (lba count : ℕ) : Prop :=
  ∀ data m, ∃ m', vdiskRead arch t lba count data m = some m' ∧
    (∀ x, x < data ∨ data + 512 * count ≤ x → m' x = m x) ∧
    ∀ k < count, ∀ data₁ m₁, ∃ m₁', vdiskRead arch t (lba + k) 1 data₁ m₁ = some m₁' ∧
      ∀ i < 512, m' (data + 512 * k + i) = m₁' (data₁ + i)

/-- The last sector of the disk has a 32-bit number. -/
theorem vdiskCount_lt : vdiskCount < 2 ^ 32 := by decide

section Split

variable {t : VdiskFiles} {lba count : ℕ}

/-- A request for one sector copies it. -/
theorem vdiskRead_one (ht : t.InMemory) (hlba : lba + 1 < 2 ^ 32) (data : ℕ) (m : Mem) :
    vdiskRead .x86_64 t lba 1 data m =
      some (m.copy data (image .x86_64 t) (512 * lba) 512) := by
  have hcross : lba + 1 ≤ vdiskFileCount ∨ vdiskFileCount ≤ lba := by
    rw [vdiskFileCount]
    omega
  exact vdiskRead_eq ht (by norm_num) hlba (Or.inl rfl) hcross data m

/-- A request that copies a window of some image is cut exactly if this image holds in the window
what the disk holds. -/
theorem readsSectorwise_iff_of_copy (ht : t.InMemory) (hend : lba + count < 2 ^ 32) {img : Mem}
    (h : ∀ data m, vdiskRead .x86_64 t lba count data m =
      some (m.copy data img (512 * lba) (512 * count))) :
    ReadsSectorwise .x86_64 t lba count ↔
      ∀ i < 512 * count, img (512 * lba + i) = image .x86_64 t (512 * lba + i) := by
  have hone : ∀ k < count, ∀ data m, vdiskRead .x86_64 t (lba + k) 1 data m =
      some (m.copy data (image .x86_64 t) (512 * (lba + k)) 512) := fun k hk data m =>
    vdiskRead_one ht (by omega) data m
  constructor
  · intro hsplit i hi
    obtain ⟨m', hm', -, hsectors⟩ := hsplit 0 Mem.zero
    obtain rfl := Option.some.inj ((h 0 Mem.zero).symm.trans hm')
    obtain ⟨m₁', hm₁', heq⟩ := hsectors (i / 512) (by omega) 0 Mem.zero
    obtain rfl := Option.some.inj ((hone (i / 512) (by omega) 0 Mem.zero).symm.trans hm₁')
    have hbyte := heq (i % 512) (by omega)
    simp only [copy_apply] at hbyte
    rw [if_pos (by omega), if_pos (by omega)] at hbyte
    have hi₁ : 512 * lba + (0 + 512 * (i / 512) + i % 512 - 0) = 512 * lba + i := by omega
    have hi₂ : 512 * (lba + i / 512) + (0 + i % 512 - 0) = 512 * lba + i := by omega
    rwa [hi₁, hi₂] at hbyte
  · intro himg data m
    refine ⟨_, h data m, fun x hx => ?_, fun k hk data₁ m₁ => ⟨_, hone k hk data₁ m₁, ?_⟩⟩
    · rw [copy_apply, if_neg (by omega)]
    · intro i hi
      rw [copy_apply, if_pos (by omega), copy_apply, if_pos (by omega)]
      have hi₁ : 512 * lba + (data + 512 * k + i - data) = 512 * lba + (512 * k + i) := by omega
      have hi₂ : 512 * (lba + k) + (data₁ + i - data₁) = 512 * lba + (512 * k + i) := by omega
      rw [hi₁, hi₂]
      exact himg _ (by omega)

/-- The disk behind the start of the first file, within the first file's window. -/
theorem image_first_file {off : ℕ} (hoff : off < 512 * vdiskFileCount) (arch : Arch) :
    image arch t (512 * vdiskFileCount + off) = (t.get 0).contents off := by
  rw [← image_file (by decide) hoff arch t, Nat.zero_add, Nat.one_mul]

/-- **A request cut into sectors**, for files in memory. -/
theorem readsSectorwise_iff (ht : t.InMemory) (hend : lba + count ≤ vdiskCount)
    (hcount : 512 * count < 2 ^ 32) :
    ReadsSectorwise .x86_64 t lba count ↔
      (lba < vdiskFileCount →
        ∀ off < 512 * (lba + count - vdiskFileCount), (t.get 0).contents off = 0) := by
  have hend' : lba + count < 2 ^ 32 := lt_of_le_of_lt hend vdiskCount_lt
  rcases Nat.lt_or_ge lba vdiskFileCount with hlba | hlba
  · rw [readsSectorwise_iff_of_copy ht hend' (vdiskRead_low ht.namesFit hlba hcount),
      forall_prop_of_true hlba]
    constructor
    · intro himg off hoff
      have hwindow : off < 512 * vdiskFileCount := by
        simp only [vdiskFileCount] at *
        omega
      have hsector : ¬ (512 * vdiskFileCount + off) / 512 < vdiskFileCount := by
        simp only [vdiskFileCount] at *
        omega
      have hbyte := himg (512 * (vdiskFileCount - lba) + off) (by
        simp only [vdiskFileCount] at *
        omega)
      have hx : 512 * lba + (512 * (vdiskFileCount - lba) + off) = 512 * vdiskFileCount + off := by
        simp only [vdiskFileCount] at *
        omega
      rw [hx, lowImage, if_neg hsector, image_first_file hwindow] at hbyte
      exact hbyte.symm
    · intro hzero i hi
      rw [lowImage]
      split_ifs with hlow
      · rfl
      · have hx : 512 * lba + i = 512 * vdiskFileCount + (512 * lba + i - 512 * vdiskFileCount) := by
          simp only [vdiskFileCount] at *
          omega
        rw [hx, image_first_file, hzero]
        · simp only [vdiskFileCount] at *
          omega
        · simp only [vdiskFileCount] at *
          omega
  · have hread := @vdiskRead_high .x86_64 _ _ _ ht hlba hcount hend' (Or.inl rfl)
    rw [readsSectorwise_iff_of_copy ht hend' hread]
    exact ⟨fun _ h => absurd h (not_lt.mpr hlba), fun _ _ _ => rfl⟩

end Split

/-- **Cutting a request into sectors.** On the 64-bit build a request within the disk is served as
the requests for its sectors are, exactly if it starts in the files' half, ends before it, or covers
only zeros of the first file. -/
theorem vdiskRead_readsSectorwise_iff {files : List MemFile} {t : VdiskFiles}
    (hfiles : files.length ≤ vdiskMaxFiles) (ht : addMemFiles files = some t) {lba count : ℕ}
    (hend : lba + count ≤ vdiskCount) (hcount : count * 512 < 2 ^ 32) :
    ReadsSectorwise .x86_64 t lba count ↔
      (lba < vdiskFileCount →
        ∀ off < 512 * (lba + count - vdiskFileCount), (t.get 0).contents off = 0) :=
  readsSectorwise_iff (addMemFiles_inMemory hfiles ht) hend (by rwa [Nat.mul_comm])

/-- The last sector before the first file and the file's first sector, asked for together. -/
theorem vdiskRead_readsSectorwise_iff_crossing :
    ∃ t, addMemFiles [oneByteFile] = some t ∧
      (ReadsSectorwise .x86_64 t (vdiskFileCount - 1) 2 ↔
        (vdiskFileCount - 1 < vdiskFileCount →
          ∀ off < 512 * (vdiskFileCount - 1 + 2 - vdiskFileCount),
            (t.get 0).contents off = 0)) := by
  obtain ⟨t, ht, -⟩ := @addMemFiles_eq [oneByteFile] (by decide)
  exact ⟨t, ht, vdiskRead_readsSectorwise_iff (by decide) ht (by decide) (by decide)⟩

/-- The file's first byte is lost. -/
theorem not_readsSectorwise_crossing :
    ∃ t, addMemFiles [oneByteFile] = some t ∧ vdiskFileCount - 1 + 2 ≤ vdiskCount ∧
      2 * 512 < 2 ^ 32 ∧ ¬ ReadsSectorwise .x86_64 t (vdiskFileCount - 1) 2 := by
  obtain ⟨t, ht, -⟩ := @addMemFiles_eq [oneByteFile] (by decide)
  refine ⟨t, ht, by decide, by decide, fun hsplit => ?_⟩
  have hzero := (readsSectorwise_iff (addMemFiles_inMemory (by decide) ht) (by decide)
    (by decide)).mp hsplit (by decide) 0 (by decide)
  rw [addMemFiles_get (by decide) ht] at hzero
  exact absurd hzero (by decide)

end Ntloader.Vdisk
