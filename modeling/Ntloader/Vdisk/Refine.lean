import Ntloader.Vdisk.Image

/-!
# Reading the virtual disk is copying its image

* `sectorBuilder`, `image` — the builder in charge of a sector, and the byte it holds.
* `scanRegions_spec` — the loop over the regions finds the region a fragment lies in, or none.
* `vdiskRead_eq` — a request that does not cross the start of the first file copies a window of the
  image; `vdiskRead_low` — any request that starts before the first file copies a window of the
  image with the files cleared.
-/

namespace Ntloader.Vdisk

open Ntloader.Lib Ntloader.Lib.Mem

/-! ## The image -/

/-- The builder in charge of a sector. -/
def sectorBuilder (lba : ℕ) : Option Builder :=
  if vdiskFileCount ≤ lba then
    if lba / vdiskFileCount - 1 < vdiskMaxFiles then some .file else none
  else (vdiskRegions.find? fun r => r.lba ≤ lba ∧ lba < r.lba + r.count).map VdiskRegion.build

/-- The virtual disk. -/
def image (arch : Arch) (t : VdiskFiles) : Mem := fun x =>
  match sectorBuilder (x / 512) with
  | some b => b.byte arch t x
  | none => 0

/-- The virtual disk with the files cleared. -/
def lowImage (arch : Arch) (t : VdiskFiles) : Mem := fun x =>
  if x / 512 < vdiskFileCount then image arch t x else 0

/-! ## The regions -/

/-- The regions end in front of sector 524800. -/
theorem vdiskRegions_le : ∀ r ∈ vdiskRegions, r.lba + r.count ≤ 524800 := by decide +kernel

/-- Regions do not overlap. -/
theorem vdiskRegions_disjoint : ∀ r ∈ vdiskRegions, ∀ r' ∈ vdiskRegions,
    r.lba < r'.lba + r'.count → r'.lba < r.lba + r.count → r = r' := by decide +kernel

/-- No region is one of a file. -/
theorem vdiskRegions_ne_file : ∀ r ∈ vdiskRegions, r.build ≠ .file := by decide +kernel

/-- The sectors of a region belong to its builder. -/
theorem sectorBuilder_of_mem {r : VdiskRegion} (hr : r ∈ vdiskRegions) {lba : ℕ}
    (h₁ : r.lba ≤ lba) (h₂ : lba < r.lba + r.count) : sectorBuilder lba = some r.build := by
  have hbound := vdiskRegions_le r hr
  have hlow : ¬ vdiskFileCount ≤ lba := by
    rw [vdiskFileCount]
    omega
  obtain ⟨r', hr'⟩ : ∃ r', (vdiskRegions.find? fun r => r.lba ≤ lba ∧ lba < r.lba + r.count) =
      some r' := by
    rw [← Option.isSome_iff_exists, List.find?_isSome]
    exact ⟨r, hr, by simpa using ⟨h₁, h₂⟩⟩
  have hmem := List.mem_of_find?_eq_some hr'
  have hin := List.find?_some hr'
  simp only [decide_eq_true_eq] at hin
  have heq := vdiskRegions_disjoint r hr r' hmem (by omega) (by omega)
  rw [sectorBuilder, if_neg hlow, hr', ← heq]
  rfl

/-- A byte of a region is the one that its builder makes. -/
theorem image_of_mem {r : VdiskRegion} (hr : r ∈ vdiskRegions) {x : ℕ} (h₁ : r.lba ≤ x / 512)
    (h₂ : x / 512 < r.lba + r.count) (arch : Arch) (t : VdiskFiles) :
    image arch t x = r.build.byte arch t x := by
  rw [image, sectorBuilder_of_mem hr h₁ h₂]

/-- The window of a file holds its contents. -/
theorem image_file {i off : ℕ} (hi : i < vdiskMaxFiles) (hoff : off < 512 * vdiskFileCount)
    (arch : Arch) (t : VdiskFiles) :
    image arch t (512 * ((i + 1) * vdiskFileCount) + off) = (t.get i).contents off := by
  have hle : vdiskFileCount ≤ (512 * ((i + 1) * vdiskFileCount) + off) / 512 := by
    simp only [vdiskFileCount] at *
    omega
  have hdiv : (512 * ((i + 1) * vdiskFileCount) + off) / 512 / vdiskFileCount - 1 = i := by
    simp only [vdiskFileCount] at *
    omega
  have hmod : (512 * ((i + 1) * vdiskFileCount) + off) / 512 % vdiskFileCount * 512 +
      (512 * ((i + 1) * vdiskFileCount) + off) % 512 = off := by
    simp only [vdiskFileCount] at *
    omega
  rw [image, sectorBuilder, if_pos hle, hdiv, if_pos hi]
  change fileByte t _ = _
  rw [fileByte, hdiv, hmod]

/-- The sector of subdirectories is one cluster's first, and the sectors of files are the others. -/
theorem vdiskDirectoryLba_cluster (d : Directory) :
    ∃ k, vdiskDirectoryLba d.cluster = 64 * k := by
  refine ⟨8193 + (d.cluster - 2), ?_⟩
  simp only [vdiskDirectoryLba, vdiskClusterSector, vdiskVbrLba, vdiskPartitionLba,
    vdiskClusterCount, vdiskReservedCount, vdiskSectorsPerFat, vdiskClusters, vdiskClusterSize,
    vdiskSectorSize]
  omega

/-- A fragment within a region is one the region's builder serves. -/
theorem serves_of_mem {r : VdiskRegion} (hr : r ∈ vdiskRegions) {lba count : ℕ} (h₁ : r.lba ≤ lba)
    (h₂ : lba < r.lba + r.count) (h₃ : r.lba < lba + count)
    (h₄ : lba + count ≤ r.lba + r.count) : r.build.Serves lba count := by
  have hdir : ∀ d : Directory, r ∈ vdiskDirectoryRegion d → r.build.Serves lba count := by
    intro d hd
    simp only [vdiskDirectoryRegion, List.mem_cons, List.not_mem_nil, or_false] at hd
    obtain ⟨k, hk⟩ := vdiskDirectoryLba_cluster d
    rcases hd with rfl | rfl
    · simp only [Builder.Serves] at *
      omega
    · intro i hi
      simp only [vdiskFileDirentIdx, vdiskMaxFiles, vdiskClusterCount] at *
      omega
  simp only [vdiskRegions, List.mem_append, List.mem_cons, List.not_mem_nil, or_false] at hr
  rcases hr with (rfl | rfl | rfl | rfl | rfl) | h | h | h | h | h | h | h
  · simp only [Builder.Serves] at *
    omega
  · simp only [Builder.Serves] at *
    omega
  · simp only [Builder.Serves] at *
    omega
  · simp only [Builder.Serves] at *
    omega
  · refine ⟨h₁, h₄, fun _ => ?_⟩
    dsimp only at h₃
    omega
  all_goals exact hdir _ h

/-- The loop over the regions, from a fragment that ends at `stop`: where it ends the fragment, and
the region it finds the fragment in, if any. -/
structure Scanned (regions : List VdiskRegion) (s stop : ℕ) (f : ℕ × Option Builder) : Prop where
  /-- The fragment is not empty, unless there is nothing left to read. -/
  lt : s < stop → s < f.1
  /-- It does not end before its start, -/
  ge : s ≤ f.1
  /-- nor past `stop`. -/
  le : f.1 ≤ stop
  /-- It ends at `stop` or at the boundary of a region. -/
  boundary : f.1 = stop ∨ ∃ r ∈ regions, f.1 ≤ r.lba + r.count
  /-- A region found contains the fragment. -/
  found : ∀ b, f.2 = some b → ∃ r ∈ regions, r.build = b ∧ r.lba ≤ s ∧ s < r.lba + r.count ∧
    r.lba < f.1 ∧ f.1 ≤ r.lba + r.count
  /-- If none is found, no region meets the fragment. -/
  empty : f.2 = none → ∀ r ∈ regions, ∀ lba, s ≤ lba → lba < f.1 →
    ¬ (r.lba ≤ lba ∧ lba < r.lba + r.count)

/-- What the scan over the regions finds. -/
theorem scanRegions_spec (s : ℕ) (regions : List VdiskRegion) {stop : ℕ} (h : s ≤ stop) :
    Scanned regions s stop (scanRegions s regions stop) := by
  induction regions generalizing stop with
  | nil =>
      exact ⟨id, h, le_rfl, Or.inl rfl, fun b hb => absurd hb (by simp [scanRegions]),
        fun _ r hr => absurd hr (by simp)⟩
  | cons r regions ih =>
      rw [scanRegions]
      set stop' := if s < r.lba ∧ r.lba < stop then r.lba else stop with hstop'
      have hle : stop' ≤ stop := by
        rw [hstop']
        split_ifs <;> omega
      have hge : s ≤ stop' := by
        rw [hstop']
        split_ifs <;> omega
      have hlt : s < stop → s < stop' := by
        rw [hstop']
        split_ifs <;> omega
      have hcut : stop' = stop ∨ stop' = r.lba := by
        rw [hstop']
        split_ifs
        · exact Or.inr rfl
        · exact Or.inl rfl
      by_cases hskip : r.lba + r.count ≤ s ∨ stop' ≤ r.lba
      · rw [if_pos hskip]
        have hrec := ih hge
        refine ⟨fun hs => hrec.lt (hlt hs), hrec.ge, hrec.le.trans hle, ?_, ?_, ?_⟩
        · rcases hrec.boundary with heq | ⟨r', hr', hr'le⟩
          · rcases hcut with hcut | hcut
            · exact Or.inl (heq.trans hcut)
            · exact Or.inr ⟨r, List.mem_cons_self, by omega⟩
          · exact Or.inr ⟨r', List.mem_cons_of_mem _ hr', hr'le⟩
        · intro b hb
          obtain ⟨r', hr', hrest⟩ := hrec.found b hb
          exact ⟨r', List.mem_cons_of_mem _ hr', hrest⟩
        · intro hnone r' hr' lba h₁ h₂
          rcases List.mem_cons.mp hr' with rfl | hr'
          · have := hrec.le
            omega
          · exact hrec.empty hnone r' hr' lba h₁ h₂
      · rw [if_neg hskip]
        -- a region that is not skipped does not start past the fragment's start
        have hstart : r.lba ≤ s := by
          rw [hstop'] at hskip
          split_ifs at hskip <;> omega
        refine ⟨fun hs => ?_, ?_, ?_, ?_, ?_, fun hnone => absurd hnone (by simp)⟩
        · have := hlt hs
          exact lt_min this (by omega)
        · exact le_min hge (by omega)
        · exact (min_le_left _ _).trans hle
        · exact Or.inr ⟨r, List.mem_cons_self, min_le_right _ _⟩
        · intro b hb
          exact ⟨r, List.mem_cons_self, Option.some.inj hb, hstart, by omega,
            lt_min (by omega) (by omega), min_le_right _ _⟩

/-! ## Fragments -/

/-- A fragment has as many sectors as lie between its bounds. -/
theorem fragmentCount_eq {s f : ℕ} (h : s ≤ f) (hlt : f - s < 2 ^ 32) :
    fragmentCount s f = f - s := by
  rw [fragmentCount, Int.natMod]
  omega

/-- A fragment of a request that ends at `stop`: where it ends, and its builder. -/
structure Cut (arch : Arch) (s stop f : ℕ) (b : Option Builder) : Prop where
  /-- It is what the code computes. -/
  eq : fragment arch s stop = (f, b)
  /-- It is not empty, unless there is nothing left to read. -/
  lt : s < stop → s < f
  /-- It does not end before its start, -/
  ge : s ≤ f
  /-- nor past the end of the request. -/
  le : f ≤ stop
  /-- The builder can serve it. -/
  serves : ∀ b', b = some b' → b'.Serves s (f - s)

/-- A fragment of a request that ends at `stop`, that copies a window of `img`. -/
structure Fragment (arch : Arch) (t : VdiskFiles) (img : Mem) (s stop f : ℕ) : Prop where
  /-- It is not empty, unless there is nothing left to read. -/
  lt : s < stop → s < f
  /-- It does not end before its start, -/
  ge : s ≤ f
  /-- nor past the end of the request. -/
  le : f ≤ stop
  /-- It ends where the code ends it. -/
  fst : (fragment arch s stop).1 = f
  /-- Its builder copies the window. -/
  build : ∀ data m, buildFragment arch t (fragment arch s stop).2 s (f - s) data m =
    some (m.copy data img (512 * s) (512 * (f - s)))

/-- Cleared space is a window of an image that is clear there. -/
theorem fill_eq_copy (m : Mem) (data : ℕ) {img : Mem} {s n : ℕ} (hn : 512 * n < 2 ^ 32)
    (h : ∀ i < 512 * n, img (512 * s + i) = 0) :
    m.fill data 0 (n * vdiskSectorSize % 2 ^ 32) = m.copy data img (512 * s) (512 * n) := by
  rw [vdiskSectorSize, Nat.mul_comm n, Nat.mod_eq_of_lt hn]
  funext x
  simp only [fill_apply, copy_apply]
  by_cases hx : data ≤ x ∧ x < data + 512 * n
  · rw [if_pos hx, if_pos hx, h _ (by omega)]
  · rw [if_neg hx, if_neg hx]

section Fragments

variable {arch : Arch} {t : VdiskFiles}

/-- What a fragment without a builder holds is zero. -/
def heldByte (arch : Arch) (t : VdiskFiles) : Option Builder → Mem
  | some b => b.byte arch t
  | none => Mem.zero

/-- A fragment copies what its builder holds. -/
theorem Cut.toFragment (hfit : t.NamesFit) {s stop f : ℕ} {b : Option Builder}
    (ht : b = some .file → t.InMemory)
    (hcut : Cut arch s stop f b) (hlen : 512 * (stop - s) < 2 ^ 32) {img : Mem}
    (himg : ∀ x, s ≤ x / 512 → x / 512 < f → img x = heldByte arch t b x) :
    Fragment arch t img s stop f := by
  have hle := hcut.le
  have hflen : 512 * (f - s) < 2 ^ 32 := by omega
  have himg' : ∀ i < 512 * (f - s), img (512 * s + i) = heldByte arch t b (512 * s + i) :=
    fun i hi => himg _ (by omega) (by omega)
  refine ⟨hcut.lt, hcut.ge, hcut.le, by rw [hcut.eq], fun data m => ?_⟩
  rw [hcut.eq]
  cases b with
  | none => exact congrArg some (fill_eq_copy m data hflen himg')
  | some b =>
      refine (Builder.run_eq arch hfit (fun hb => ht (congrArg some hb)) data m
        (by rwa [Nat.mul_comm]) (hcut.serves b rfl)).trans ?_
      exact congrArg some (copy_congr m data fun i hi => (himg' i hi).symm)

/-- A fragment that starts before the files. -/
theorem exists_cut_low (arch : Arch) {s stop : ℕ} (hs : s < vdiskFileCount) (hle : s ≤ stop) :
    ∃ f b, Cut arch s stop f b ∧ b ≠ some .file ∧
      (∀ l, s ≤ l → l < f → l < vdiskFileCount → sectorBuilder l = b) ∧
      (f = stop ∨ f < vdiskFileCount) ∧ (f < vdiskFileCount ∨ b = none) := by
  have hfrag : fragment arch s stop = scanRegions s vdiskRegions stop := by
    rw [fragment, vdiskFileIdx_of_lt hs]
    exact if_neg (by decide)
  have hscan := scanRegions_spec s vdiskRegions hle
  generalize scanRegions s vdiskRegions stop = frag at hfrag hscan
  obtain ⟨f, b⟩ := frag
  have hge : s ≤ f := hscan.ge
  refine ⟨f, b, ⟨hfrag, hscan.lt, hge, hscan.le, ?_⟩, ?_, ?_, ?_, ?_⟩
  · rintro b' rfl
    obtain ⟨r, hr, rfl, h₁, h₂, h₃, h₄⟩ := hscan.found b' rfl
    exact serves_of_mem hr h₁ h₂ (by omega) (by omega)
  · rintro rfl
    obtain ⟨r, hr, hfile, -⟩ := hscan.found _ rfl
    exact vdiskRegions_ne_file r hr hfile
  · intro l hl hlf hlow
    cases b with
    | none =>
        have hnone : (vdiskRegions.find? fun r => r.lba ≤ l ∧ l < r.lba + r.count) = none := by
          rw [List.find?_eq_none]
          intro r hr
          rw [decide_eq_true_eq]
          exact hscan.empty rfl r hr l hl hlf
        rw [sectorBuilder, if_neg (not_le.mpr hlow), hnone]
        rfl
    | some b =>
        obtain ⟨r, hr, rfl, h₁, -, -, h₄⟩ := hscan.found b rfl
        exact sectorBuilder_of_mem hr (h₁.trans hl) (lt_of_lt_of_le hlf h₄)
  · rcases hscan.boundary with heq | ⟨r, hr, hr'⟩
    · exact Or.inl heq
    · exact Or.inr (lt_of_le_of_lt (hr'.trans (vdiskRegions_le r hr)) (by decide))
  · cases b with
    | none => exact Or.inr rfl
    | some b =>
        obtain ⟨r, hr, -, -, -, -, h₄⟩ := hscan.found b rfl
        exact Or.inl (lt_of_le_of_lt (h₄.trans (vdiskRegions_le r hr)) (by decide))

/-- It copies a window of the disk without the files. -/
theorem exists_fragment_low (hfit : t.NamesFit) {s stop : ℕ} (hs : s < vdiskFileCount)
    (hle : s ≤ stop) (hlen : 512 * (stop - s) < 2 ^ 32) :
    ∃ f, Fragment arch t (lowImage arch t) s stop f ∧ (f = stop ∨ f < vdiskFileCount) := by
  obtain ⟨f, b, hcut, hfile, hbuilder, hnext, hnone⟩ := exists_cut_low arch hs hle
  refine ⟨f, hcut.toFragment hfit (fun hb => absurd hb hfile) hlen fun x h₁ h₂ => ?_, hnext⟩
  rw [lowImage]
  split_ifs with hlow
  · rw [image, hbuilder _ h₁ h₂ hlow]
    cases b <;> rfl
  · obtain rfl : b = none := hnone.resolve_left fun hf => hlow (h₂.trans hf)
    rfl

/-- The next file's first sector, while it does not wrap around. -/
theorem vdiskFileLba_succ {s : ℕ} (hs : vdiskFileCount ≤ s) (hlt : s < 2 ^ 32)
    (hwrap : arch = .x86_64 ∨ s < 511 * vdiskFileCount) :
    vdiskFileLba arch (s / vdiskFileCount - 1 + 1) =
      (s / vdiskFileCount + 1) * vdiskFileCount := by
  simp only [vdiskFileLba, vdiskFileCount] at *
  have hdiv : s / 8388608 - 1 + 1 = s / 8388608 := by omega
  rw [hdiv]
  apply Nat.mod_eq_of_lt
  rcases hwrap with rfl | hwrap
  · simp only [Arch.ulong]
    omega
  · have := arch.ulong_ge
    omega

/-- A fragment that starts in the files' half of the disk. -/
theorem fragment_high (arch : Arch) {s : ℕ} (hs : vdiskFileCount ≤ s) (hlt : s < 2 ^ 32)
    (stop : ℕ) :
    fragment arch s stop = (min stop (vdiskFileLba arch (s / vdiskFileCount - 1 + 1)),
      if s / vdiskFileCount - 1 < vdiskMaxFiles then some .file else none) := by
  have hidx := vdiskFileIdx_of_le hs hlt
  have hnonneg : vdiskFileIdx s ≥ 0 := by
    rw [hidx]
    exact Int.natCast_nonneg _
  rw [fragment]
  dsimp only
  rw [if_pos hnonneg, hidx, Int.toNat_natCast]
  simp only [Nat.cast_lt]

/-- It ends with its file, short of where `VDISK_FILE_LBA` wraps around on the 32-bit build. -/
theorem exists_cut_high {s stop : ℕ} (hs : vdiskFileCount ≤ s) (hle : s ≤ stop) (hlt : s < 2 ^ 32)
    (hwrap : arch = .x86_64 ∨ s < 511 * vdiskFileCount) :
    ∃ f b, Cut arch s stop f b ∧ (∀ l, s ≤ l → l < f → sectorBuilder l = b) ∧
      f = min stop ((s / vdiskFileCount + 1) * vdiskFileCount) := by
  have hfrag := fragment_high arch hs hlt stop
  rw [vdiskFileLba_succ hs hlt hwrap] at hfrag
  have hmul : s < (s / vdiskFileCount + 1) * vdiskFileCount := by
    simp only [vdiskFileCount]
    omega
  refine ⟨_, _, ⟨hfrag, fun h => lt_min h hmul, le_min hle hmul.le, min_le_left _ _, ?_⟩, ?_, rfl⟩
  · intro b' hb'
    obtain rfl : Builder.file = b' := by
      split_ifs at hb'
      exact Option.some.inj hb'
    have := min_le_right stop ((s / vdiskFileCount + 1) * vdiskFileCount)
    simp only [Builder.Serves, vdiskFileCount] at *
    omega
  · intro l hl hlf
    have hdiv : l / vdiskFileCount = s / vdiskFileCount := by
      have := min_le_right stop ((s / vdiskFileCount + 1) * vdiskFileCount)
      simp only [vdiskFileCount] at *
      omega
    rw [sectorBuilder, if_pos (hs.trans hl), hdiv]

/-- It copies a window of the disk. -/
theorem exists_fragment_high (ht : t.InMemory) {s stop : ℕ} (hs : vdiskFileCount ≤ s)
    (hle : s ≤ stop) (hlen : 512 * (stop - s) < 2 ^ 32) (hlt : s < 2 ^ 32)
    (hwrap : arch = .x86_64 ∨ s < 511 * vdiskFileCount) :
    ∃ f, Fragment arch t (image arch t) s stop f ∧ vdiskFileCount ≤ f := by
  obtain ⟨f, b, hcut, hbuilder, -⟩ := exists_cut_high hs hle hlt hwrap
  refine ⟨f, hcut.toFragment ht.namesFit (fun _ => ht) hlen fun x h₁ h₂ => ?_, hs.trans hcut.ge⟩
  rw [image, hbuilder _ h₁ h₂]
  cases b <;> rfl

/-! ## The loop -/

/-- The loop over the fragments copies a window of `img`, if every fragment it comes to does. -/
theorem fragmentLoop_eq {img : Mem} {stop : ℕ} (P : ℕ → Prop) (hstop : stop < 2 ^ 64)
    (hfrag : ∀ s, P s → s < stop → 512 * (stop - s) < 2 ^ 32 →
      ∃ f, Fragment arch t img s stop f ∧ (f = stop ∨ P f)) (fuel : ℕ) {s : ℕ} (hP : P s)
    (hlt : s < stop) (hfuel : stop - s ≤ fuel) (hlen : 512 * (stop - s) < 2 ^ 32) (data : ℕ)
    (m : Mem) :
    fragmentLoop arch t stop fuel s data m =
      some (m.copy data img (512 * s) (512 * (stop - s))) := by
  induction fuel generalizing s data m with
  | zero => omega
  | succ fuel ih =>
      obtain ⟨f, hf, hnext⟩ := hfrag s hP hlt hlen
      have hsf := hf.lt hlt
      have hfle := hf.le
      have hcount : fragmentCount s f = f - s := fragmentCount_eq hf.ge (by omega)
      have hmod : (s + (f - s)) % 2 ^ 64 = f := by omega
      have hdata : (f - s) * vdiskSectorSize % 2 ^ 32 = 512 * (f - s) := by
        rw [vdiskSectorSize, Nat.mul_comm, Nat.mod_eq_of_lt (by omega)]
      rw [fragmentLoop]
      simp only [hf.fst, hcount, hf.build, hmod, hdata]
      by_cases heq : f = stop
      · rw [if_pos heq, heq]
      · rw [if_neg heq, ih (hnext.resolve_left heq) (by omega) (by omega) (by omega),
          show 512 * f = 512 * s + 512 * (f - s) by omega, copy_copy_append,
          show 512 * (f - s) + 512 * (stop - f) = 512 * (stop - s) by omega]

/-- An empty request copies nothing. -/
theorem fragmentLoop_self {img : Mem} {s f : ℕ} (hlt : s < 2 ^ 64) (hf : Fragment arch t img s s f)
    (fuel data : ℕ) (m : Mem) : fragmentLoop arch t s (fuel + 1) s data m = some m := by
  obtain rfl : f = s := le_antisymm hf.le hf.ge
  have hcount : fragmentCount f f = f - f := fragmentCount_eq le_rfl (by omega)
  have hmod : (f + (f - f)) % 2 ^ 64 = f := by omega
  rw [fragmentLoop]
  simp only [hf.fst, hcount, hf.build, hmod, if_true]
  rw [Nat.sub_self, Nat.mul_zero, copy_zero]

variable {lba count : ℕ}

/-- **A request that starts before the files** copies a window of the disk without the files. -/
theorem vdiskRead_low (hfit : t.NamesFit) (hlba : lba < vdiskFileCount)
    (hcount : 512 * count < 2 ^ 32) (data : ℕ) (m : Mem) :
    vdiskRead arch t lba count data m =
      some (m.copy data (lowImage arch t) (512 * lba) (512 * count)) := by
  have hlba' : lba < 2 ^ 32 := by
    rw [vdiskFileCount] at hlba
    omega
  have hmod : (lba + count) % 2 ^ 64 = lba + count := Nat.mod_eq_of_lt (by omega)
  rw [vdiskRead, hmod]
  rcases Nat.eq_zero_or_pos count with rfl | hpos
  · obtain ⟨f, hf, -⟩ := @exists_fragment_low arch _ hfit _ _ hlba le_rfl (by omega)
    rw [Nat.add_zero, fragmentLoop_self (by omega) hf]
    simp
  · have hsub : lba + count - lba = count := by omega
    rw [@fragmentLoop_eq _ _ (lowImage arch t) _ (· < vdiskFileCount) (by omega)
        (fun s hs hlt hlen => exists_fragment_low hfit hs hlt.le hlen) (count + 1) _ hlba (by omega)
        (by omega) (by omega), hsub]

/-- **A request for sectors of files** copies a window of the disk. -/
theorem vdiskRead_high (ht : t.InMemory) (hlba : vdiskFileCount ≤ lba)
    (hcount : 512 * count < 2 ^ 32) (hend : lba + count < 2 ^ 32)
    (hwrap : arch = .x86_64 ∨ lba + count < 511 * vdiskFileCount) (data : ℕ) (m : Mem) :
    vdiskRead arch t lba count data m =
      some (m.copy data (image arch t) (512 * lba) (512 * count)) := by
  have hmod : (lba + count) % 2 ^ 64 = lba + count := Nat.mod_eq_of_lt (by omega)
  have hwrap' : ∀ s ≤ lba + count, arch = .x86_64 ∨ s < 511 * vdiskFileCount := fun s hs =>
    hwrap.imp_right (lt_of_le_of_lt hs)
  rw [vdiskRead, hmod]
  rcases Nat.eq_zero_or_pos count with rfl | hpos
  · obtain ⟨f, hf, -⟩ := @exists_fragment_high arch _ ht _ _ hlba le_rfl (by omega)
      (by omega) (hwrap' lba (by omega))
    rw [Nat.add_zero, fragmentLoop_self (by omega) hf]
    simp
  · have hsub : lba + count - lba = count := by omega
    rw [@fragmentLoop_eq _ _ (image arch t) _ (vdiskFileCount ≤ ·) (by omega)
        (fun s hs hlt hlen => by
        obtain ⟨f, hf, hf'⟩ := @exists_fragment_high arch _ ht _ _ hs hlt.le hlen (by omega)
            (hwrap' s hlt.le)
        exact ⟨f, hf, Or.inr hf'⟩) (count + 1) _ hlba (by omega) (by omega) (by omega), hsub]

/-- **A request that does not cross the start of the first file** copies a window of the disk. -/
theorem vdiskRead_eq (ht : t.InMemory) (hcount : 512 * count < 2 ^ 32)
    (hend : lba + count < 2 ^ 32) (hwrap : arch = .x86_64 ∨ lba + count < 511 * vdiskFileCount)
    (hcross : lba + count ≤ vdiskFileCount ∨ vdiskFileCount ≤ lba) (data : ℕ) (m : Mem) :
    vdiskRead arch t lba count data m =
      some (m.copy data (image arch t) (512 * lba) (512 * count)) := by
  rcases Nat.lt_or_ge lba vdiskFileCount with hlba | hlba
  · rw [vdiskRead_low ht.namesFit hlba hcount]
    refine congrArg some (copy_congr m data fun i hi => ?_)
    rw [lowImage, if_pos]
    rcases hcross with hcross | hcross
    · rw [vdiskFileCount] at *
      omega
    · omega
  · exact vdiskRead_high ht hlba hcount hend hwrap data m

end Fragments

end Ntloader.Vdisk
