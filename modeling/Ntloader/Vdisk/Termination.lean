import Ntloader.Vdisk.Refine

/-!
# The fragment loop ends

The loop of `vdisk_read` is left when the start of the next fragment equals the end of the request.

* `passes` — the fragments the loop comes to, each with its start and its number of sectors.
* `Finishes` — no pass is empty or runs past the end, they add up to the request, and the call
  returns.
* `vdiskRead_finishes_iff` — this holds on the 64-bit build for every request within the disk, and
  on the 32-bit build exactly below the last file window, whose end does not fit `unsigned long`.
* `not_finishes_last_window` — the first request of the 32-bit build that goes wrong.
-/

namespace Ntloader.Vdisk

open Ntloader.Lib

/-- The passes of the fragment loop from a start on, each with its start and its number of sectors,
on fuel.
Source: libnt/vdisk.c, vdisk_read, `do` -/
def passes (arch : Arch) (stop : ℕ) : ℕ → ℕ → Option (List (ℕ × ℕ))
  | 0, _ => none
  | fuel + 1, fragStart =>
      let fragCount := fragmentCount fragStart (fragment arch fragStart stop).1
      let next := (fragStart + fragCount) % 2 ^ 64
      if next = stop then some [(fragStart, fragCount)]
      else (passes arch stop fuel next).map ((fragStart, fragCount) :: ·)

/-- A request is served in finitely many passes. -/
structure Finishes (arch : Arch) (lba count : ℕ) : Prop where
  /-- Every pass moves forward and not past the end, and together they are as long as the request. -/
  passes : ∃ fuel ps, passes arch ((lba + count) % 2 ^ 64) fuel lba = some ps ∧
    (∀ p ∈ ps, (0 < count → 0 < p.2) ∧ p.1 + p.2 ≤ lba + count) ∧ (ps.map Prod.snd).sum = count
  /-- The call returns. -/
  returns : ∀ t data m, (vdiskRead arch t lba count data m).isSome

/-! ## Below the last window -/

section Forward

variable {arch : Arch}

/-- A fragment is cut wherever the file's end does not wrap around. -/
theorem exists_cut {s stop : ℕ} (hle : s ≤ stop) (hlt : s < 2 ^ 32)
    (hwrap : arch = .x86_64 ∨ s < 511 * vdiskFileCount) : ∃ f b, Cut arch s stop f b := by
  rcases Nat.lt_or_ge s vdiskFileCount with hs | hs
  · obtain ⟨f, b, hcut, -⟩ := exists_cut_low arch hs hle
    exact ⟨f, b, hcut⟩
  · obtain ⟨f, b, hcut, -⟩ := exists_cut_high hs hle hlt hwrap
    exact ⟨f, b, hcut⟩

/-- The number of sectors of a fragment. -/
theorem Cut.fragmentCount_eq {s stop f : ℕ} {b : Option Builder} (hcut : Cut arch s stop f b)
    (hstop : stop < 2 ^ 32) : fragmentCount s (fragment arch s stop).1 = f - s := by
  have hle := hcut.le
  rw [hcut.eq]
  exact Vdisk.fragmentCount_eq hcut.ge (by omega)

/-- No builder fails a request it serves, whatever files are registered. -/
theorem Builder.run_isSome {b : Builder} {lba count : ℕ} (h : b.Serves lba count) (arch : Arch)
    (t : VdiskFiles) (data : ℕ) (m : Mem) : (b.run arch t lba count data m).isSome = true := by
  cases b with
  | dirFiles =>
      simp only [Builder.run]
      induction count generalizing lba data m with
      | zero => rfl
      | succ count ih =>
          rw [vdiskDirFiles, if_pos (by simpa using h 0 (Nat.succ_pos _))]
          refine ih _ _ (fun k hk => ?_)
          rw [Nat.add_right_comm]
          exact h (k + 1) (Nat.succ_lt_succ hk)
  | mbr => rfl
  | vbr => rfl
  | fsinfo => rfl
  | fat => rfl
  | subdirs d => rfl
  | file => rfl

/-- A fragment is built in one step. -/
theorem Cut.buildFragment_isSome {s stop f : ℕ} {b : Option Builder} (hcut : Cut arch s stop f b)
    (t : VdiskFiles) (data : ℕ) (m : Mem) :
    (buildFragment arch t b s (f - s) data m).isSome = true := by
  cases b with
  | none => rfl
  | some b => exact Builder.run_isSome (hcut.serves b rfl) arch t data m

/-- The passes of a request that is not empty. -/
theorem passes_of_lt {stop : ℕ} (hstop : stop < 2 ^ 32)
    (hwrap : arch = .x86_64 ∨ stop ≤ 511 * vdiskFileCount) (fuel : ℕ) {s : ℕ} (hlt : s < stop)
    (hfuel : stop - s ≤ fuel) :
    ∃ ps, passes arch stop fuel s = some ps ∧ (∀ p ∈ ps, 0 < p.2 ∧ p.1 + p.2 ≤ stop) ∧
      (ps.map Prod.snd).sum = stop - s := by
  induction fuel generalizing s with
  | zero => omega
  | succ fuel ih =>
      obtain ⟨f, b, hcut⟩ := @exists_cut arch _ _ hlt.le (by omega)
          (hwrap.imp_right (lt_of_lt_of_le hlt))
      have hsf := hcut.lt hlt
      have hle := hcut.le
      have hnext : (s + (f - s)) % 2 ^ 64 = f := by omega
      rw [passes]
      simp only [hcut.fragmentCount_eq hstop, hnext]
      by_cases heq : f = stop
      · refine ⟨_, if_pos heq, fun p hp => ?_, ?_⟩
        · obtain rfl := List.mem_singleton.mp hp
          dsimp only
          omega
        · simp only [List.map_cons, List.map_nil, List.sum_cons, List.sum_nil]
          omega
      · obtain ⟨ps, hps, hall, hsum⟩ := ih (s := f) (by omega) (by omega)
        rw [if_neg heq, hps]
        refine ⟨_, rfl, fun p hp => ?_, ?_⟩
        · rcases List.mem_cons.mp hp with rfl | hp
          · dsimp only
            omega
          · exact hall p hp
        · rw [List.map_cons, List.sum_cons, hsum]
          omega

/-- The loop ends, if it is given a round for every sector. -/
theorem fragmentLoop_isSome {stop : ℕ} (hstop : stop < 2 ^ 32)
    (hwrap : arch = .x86_64 ∨ stop ≤ 511 * vdiskFileCount) (t : VdiskFiles) (fuel : ℕ) {s : ℕ}
    (hlt : s < stop) (hfuel : stop - s ≤ fuel) (data : ℕ) (m : Mem) :
    (fragmentLoop arch t stop fuel s data m).isSome = true := by
  induction fuel generalizing s data m with
  | zero => omega
  | succ fuel ih =>
      obtain ⟨f, b, hcut⟩ := @exists_cut arch _ _ hlt.le (by omega)
          (hwrap.imp_right (lt_of_lt_of_le hlt))
      have hsf := hcut.lt hlt
      have hle := hcut.le
      have hnext : (s + (f - s)) % 2 ^ 64 = f := by omega
      obtain ⟨m', hm'⟩ := Option.isSome_iff_exists.mp (hcut.buildFragment_isSome t data m)
      have hcount := hcut.fragmentCount_eq hstop
      rw [hcut.eq] at hcount
      rw [fragmentLoop]
      simp only [hcut.eq, hcount, hm', hnext]
      by_cases heq : f = stop
      · rw [if_pos heq]
        rfl
      · rw [if_neg heq]
        exact ih (by omega) (by omega) _ _

/-- An empty request takes one pass. -/
theorem finishes_zero {lba : ℕ} (hlba : lba < 2 ^ 32)
    (hwrap : arch = .x86_64 ∨ lba < 511 * vdiskFileCount) : Finishes arch lba 0 := by
  obtain ⟨f, b, hcut⟩ := @exists_cut arch _ _ (le_refl lba) hlba hwrap
  obtain rfl : f = lba := le_antisymm hcut.le hcut.ge
  have hstop : (f + 0) % 2 ^ 64 = f := by omega
  have hcount := hcut.fragmentCount_eq hlba
  have hnext : (f + (f - f)) % 2 ^ 64 = f := by omega
  constructor
  · refine ⟨1, [(f, f - f)], ?_, ?_, ?_⟩
    · rw [passes, hstop]
      simp only [hcount, hnext, if_true]
    · intro p hp
      obtain rfl := List.mem_singleton.mp hp
      dsimp only
      omega
    · simp
  · intro t data m
    obtain ⟨m', hm'⟩ := Option.isSome_iff_exists.mp (hcut.buildFragment_isSome t data m)
    rw [hcut.eq] at hcount
    rw [vdiskRead, hstop, fragmentLoop]
    simp only [hcut.eq, hcount, hm', hnext, if_true]
    rfl

/-- So a request finishes, if no sector number wraps around. -/
theorem finishes_of_le {lba count : ℕ} (hend : lba + count < 2 ^ 32)
    (hwrap : arch = .x86_64 ∨ lba + max count 1 ≤ 511 * vdiskFileCount) :
    Finishes arch lba count := by
  rcases Nat.eq_zero_or_pos count with rfl | hpos
  · exact finishes_zero (by omega) (hwrap.imp_right fun h => h)
  · have hstop : (lba + count) % 2 ^ 64 = lba + count := by omega
    have hwrap' : arch = .x86_64 ∨ lba + count ≤ 511 * vdiskFileCount :=
      hwrap.imp_right fun h => le_trans (Nat.add_le_add_left (le_max_left count 1) lba) h
    constructor
    · obtain ⟨ps, hps, hall, hsum⟩ := passes_of_lt hend hwrap' count (s := lba) (by omega)
        (by omega)
      refine ⟨count, ps, by rwa [hstop], fun p hp => ?_, by omega⟩
      exact ⟨fun _ => (hall p hp).1, (hall p hp).2⟩
    · intro t data m
      rw [vdiskRead, hstop]
      exact fragmentLoop_isSome hend hwrap' t (count + 1) (by omega) (by omega) data m

end Forward

/-! ## The last window -/

/-- In the last window the end of the file wraps around to zero, and the fragment's number of
sectors to the distance to 2^32. -/
theorem fragmentCount_last_window {s stop : ℕ} (hs : 511 * vdiskFileCount ≤ s) (hlt : s < 2 ^ 32) :
    fragmentCount s (fragment .i386 s stop).1 = 2 ^ 32 - s := by
  have hdiv : s / vdiskFileCount - 1 + 1 = 511 := by
    simp only [vdiskFileCount] at *
    omega
  have hend : vdiskFileLba .i386 511 = 0 := by decide
  rw [fragment_high .i386 (le_trans (by decide) hs) hlt, hdiv, hend]
  dsimp only
  rw [Nat.min_zero, fragmentCount, Int.natMod]
  simp only [vdiskFileCount] at hs
  omega

/-- A pass that starts in the last window ends at 2^32. -/
theorem exists_pass_of_last_window {s stop fuel : ℕ} {ps : List (ℕ × ℕ)}
    (hs : 511 * vdiskFileCount ≤ s) (hlt : s < 2 ^ 32) (h : passes .i386 stop fuel s = some ps) :
    ∃ p ∈ ps, p.1 + p.2 = 2 ^ 32 := by
  cases fuel with
  | zero => exact absurd h (by simp [passes])
  | succ fuel =>
      rw [passes] at h
      simp only [fragmentCount_last_window hs hlt] at h
      split_ifs at h
      · obtain rfl := Option.some.inj h
        refine ⟨_, List.mem_singleton_self _, ?_⟩
        dsimp only
        omega
      · obtain ⟨ps', -, rfl⟩ := Option.map_eq_some_iff.mp h
        refine ⟨_, List.mem_cons_self, ?_⟩
        dsimp only
        omega

/-- A request that ends in the last window comes to a pass that starts there. -/
theorem exists_pass_of_lt {stop : ℕ} (hstop : 511 * vdiskFileCount < stop) (hlt : stop < 2 ^ 32)
    (fuel : ℕ) {s : ℕ} {ps : List (ℕ × ℕ)} (hs : vdiskFileCount ≤ s) (hle : s < stop)
    (h : passes .i386 stop fuel s = some ps) : ∃ p ∈ ps, p.1 + p.2 = 2 ^ 32 := by
  induction fuel generalizing s ps with
  | zero => exact absurd h (by simp [passes])
  | succ fuel ih =>
      rcases Nat.lt_or_ge s (511 * vdiskFileCount) with hlow | hhigh
      · obtain ⟨f, b, hcut, -, hf⟩ := @exists_cut_high .i386 _ _ hs hle.le (by omega)
          (Or.inr hlow)
        have hsf := hcut.lt hle
        have hnext : (s + (f - s)) % 2 ^ 64 = f := by
          have := hcut.le
          omega
        -- the fragment ends with its file, before the request does
        have hfend : f ≤ 511 * vdiskFileCount := by
          rw [hf]
          refine (min_le_right _ _).trans ?_
          simp only [vdiskFileCount] at *
          omega
        rw [passes] at h
        simp only [hcut.fragmentCount_eq hlt, hnext] at h
        rw [if_neg (lt_of_le_of_lt hfend hstop).ne] at h
        obtain ⟨ps', hps', rfl⟩ := Option.map_eq_some_iff.mp h
        obtain ⟨p, hp, hp'⟩ := ih (hs.trans hsf.le) (lt_of_le_of_lt hfend hstop) hps'
        exact ⟨p, List.mem_cons_of_mem _ hp, hp'⟩
      · exact exists_pass_of_last_window hhigh (hle.trans hlt) h

/-- It does not finish, if one does in a 32-bit build. -/
theorem not_finishes {lba count : ℕ} (hend : lba + count < 2 ^ 32) (hcount : 512 * count < 2 ^ 32)
    (h : 511 * vdiskFileCount < lba + max count 1) : ¬ Finishes .i386 lba count := by
  intro hfin
  obtain ⟨fuel, ps, hps, hall, -⟩ := hfin.passes
  have hstop : (lba + count) % 2 ^ 64 = lba + count := by omega
  rw [hstop] at hps
  have hpass : ∃ p ∈ ps, p.1 + p.2 = 2 ^ 32 := by
    rcases Nat.lt_or_ge lba (511 * vdiskFileCount) with hlba | hlba
    · have hpos : 1 ≤ count := by
        by_contra hzero
        obtain rfl : count = 0 := by omega
        exact absurd (lt_of_lt_of_le h (Nat.succ_le_of_lt hlba)) (lt_irrefl _)
      rw [max_eq_left hpos] at h
      refine exists_pass_of_lt h hend fuel ?_ (by omega) hps
      simp only [vdiskFileCount] at *
      omega
    · exact exists_pass_of_last_window hlba (by omega) hps
  obtain ⟨p, hp, hp'⟩ := hpass
  have := (hall p hp).2
  omega

/-! ## The exact condition -/

/-- **A request within the disk is served in finitely many passes** exactly if the build has 64-bit
`unsigned long` or the request ends before the last file window; an empty request counts as its one
sector. -/
theorem vdiskRead_finishes_iff (arch : Arch) (lba count : ℕ) (hend : lba + count ≤ vdiskCount)
    (hcount : count * 512 < 2 ^ 32) :
    Finishes arch lba count ↔ arch = .x86_64 ∨ lba + max count 1 ≤ 511 * vdiskFileCount := by
  have hend' : lba + count < 2 ^ 32 := lt_of_le_of_lt hend (by decide)
  constructor
  · intro hfin
    cases arch with
    | x86_64 => exact Or.inl rfl
    | i386 =>
        refine Or.inr (not_lt.mp fun h => ?_)
        exact not_finishes hend' (by rw [Nat.mul_comm]; exact hcount) h hfin
  · exact finishes_of_le hend'

/-- A request for the first sector of the first file. -/
theorem vdiskRead_finishes_iff_first_file :
    Finishes .i386 vdiskFileCount 1 ↔
      Arch.i386 = .x86_64 ∨ vdiskFileCount + max 1 1 ≤ 511 * vdiskFileCount :=
  vdiskRead_finishes_iff .i386 vdiskFileCount 1 (by decide) (by decide)

/-- On the 32-bit build the first sector of the last window is not served. -/
theorem not_finishes_last_window : 511 * vdiskFileCount + 1 ≤ vdiskCount ∧ 1 * 512 < 2 ^ 32 ∧
    ¬ Finishes .i386 (511 * vdiskFileCount) 1 := by
  refine ⟨by decide, by decide, not_finishes ?_ (by decide) (Nat.lt_add_of_pos_right (by decide))⟩
  norm_num

end Ntloader.Vdisk
