import Ntloader.Disk.Tables
import Ntloader.Lib.Recursion

/-!
# Endless searches

Links can lead back to a table that has been searched before. The search then goes round, up to the
limit of the partitions: but it counts those in a DEBUG build only, and tables without a partition
never.

* `Endless` — the disks on which the search goes round without end.
* `Calls` — the calls that a search makes, with the count of the partitions.
* `exists_isSome_of_acc` — a search ends if its calls are well founded.
* `checkMsdosPartmap_returns_iff` — the search ends exactly on the disks that are not endless.
-/

namespace Ntloader.Disk

open Ntloader.Lib Ntloader.Posix Ntloader.Kern Relation

/-- From sector 0, the links lead to a table that leads to itself, and no partition on the way
matches. Where partitions are counted, the table is behind less than 32 of them, and there are none on
the way from the table to itself. -/
def Endless (debug : Bool) (disk : DiskRead) (args : NtArgs) : Prop :=
  ∃ ps lba qs, Path disk 0 ps lba ∧ Cycle disk lba qs ∧ NoMatch disk args (ps ++ qs) ∧
    (debug = true → ps.length < 32 ∧ qs = [])

variable {debug : Bool} {disk : DiskRead} {args : NtArgs} {fuel depth lba lba' i : ℕ} {mbr : Mem}
  {ps qs : List Probe} {st st' : ScanState}

/-! ## Along the links -/

/-- A call that returns has returned from the call for a link. -/
theorem Link.isSome (h : Link disk lba ps lba')
    (hsome : (checkMbr debug disk (fuel + 1) lba st).isSome) (hno : NoMatch disk st.args ps)
    (hroom : Room debug st ps) :
    (checkMbr debug disk fuel lba' (st.callAll debug ps)).isSome := by
  obtain ⟨depth, mbr, i, hahead, ⟨hi, -, hlink⟩, rfl⟩ := h
  rw [checkMbr_ahead hahead hno hroom (Or.inl hsome), range'_cons hi,
    checkEntries_link hroom hlink] at hsome
  obtain ⟨r, hr⟩ := Option.isSome_iff_exists.mp hsome
  obtain ⟨r', hr', -⟩ := Option.bind_eq_some_iff.mp hr
  rw [hr']
  rfl

/-- A search that ends has ended at every table on its way. -/
theorem Path.isSome (h : Path disk lba ps lba')
    (hsome : (checkMbr debug disk fuel lba st).isSome) (hno : NoMatch disk st.args ps)
    (hroom : Room debug st ps) :
    ∃ fuel' ≤ fuel, (checkMbr debug disk fuel' lba' (st.callAll debug ps)).isSome := by
  induction h with
  | refl =>
      rw [ScanState.callAll_nil]
      exact ⟨fuel, Nat.le_refl _, hsome⟩
  | tail _ hlink ih =>
      obtain ⟨hps, hqs⟩ := noMatch_append.mp hno
      obtain ⟨fuel', hle, hcall⟩ := ih hps hroom.left
      cases fuel' with
      | zero => cases hcall
      | succ n =>
          rw [ScanState.callAll_append]
          exact ⟨n, Nat.le_of_succ_le hle, hlink.isSome hcall hqs (room_append.mp hroom)⟩

/-- What is not counted leaves room. -/
theorem room_of_not_counted (hcount : st.partCount < 32) (h : debug = true → qs = []) :
    Room debug st qs := by
  unfold Room ScanState.callAll
  cases debug with
  | false => exact hcount
  | true =>
      rw [h rfl]
      exact hcount

/-- A search that comes to a table that leads to itself does not return: it would return from the
same call before. -/
theorem Cycle.not_isSome (h : Cycle disk lba qs) (hno : NoMatch disk st.args qs)
    (hcount : st.partCount < 32) (hqs : debug = true → qs = []) :
    ¬(checkMbr debug disk fuel lba st).isSome := by
  induction fuel using Nat.strong_induction_on generalizing st with
  | _ fuel ih =>
      intro hsome
      have hroom := room_of_not_counted hcount hqs
      obtain ⟨ps, lba', rs, hpath, hlink, rfl⟩ := h
      obtain ⟨hps, hrs⟩ := noMatch_append.mp hno
      obtain ⟨fuel', hle, hcall⟩ := hpath.isSome hsome hps hroom.left
      cases fuel' with
      | zero => cases hcall
      | succ n =>
          have hagain := hlink.isSome hcall hrs (room_append.mp hroom)
          rw [← ScanState.callAll_append] at hagain
          exact @ih n hle (st.callAll debug (ps ++ rs)) hno hroom hagain

/-- An endless search does not end. -/
theorem Endless.not_isSome (h : Endless debug disk args) :
    ¬(checkMsdosPartmap debug disk fuel args).isSome := by
  obtain ⟨ps, lba, qs, hpath, hcycle, hno, hcount⟩ := h
  obtain ⟨hps, hqs⟩ := noMatch_append.mp hno
  intro hsome
  have hroom : Room debug ⟨0, args, []⟩ ps := by
    unfold Room ScanState.callAll
    cases debug with
    | false => exact Nat.succ_pos 31
    | true => exact (Nat.zero_add _).trans_lt (hcount rfl).1
  obtain ⟨fuel', -, hcall⟩ := hpath.isSome hsome hps hroom
  exact hcycle.not_isSome hqs hroom (fun h => (hcount h).2) hcall

/-! ## The end of a call -/

/-- A search counts upwards. -/
theorem partCount_le_checkEntries {is : List ℕ} {r : Bool × ScanState}
    (h : checkEntries debug disk (checkMbr debug disk fuel) lba mbr is st = some r) :
    st.partCount ≤ r.2.partCount := by
  rw [@checkEntries_eq _ _ _ (walk disk fuel) (fun _ _ _ => checkMbr_eq) _ _ _ _ _ h]
  exact partCount_le_probeAll _ _ _ _

/-- A search that fails below the limit has been to the end of all tables. -/
theorem ends_of_checkMbr (h : checkMbr debug disk fuel lba st = some (false, st'))
    (hcount : st'.partCount < 32) : Ends disk fuel lba := by
  induction fuel generalizing lba st st' with
  | zero => cases h
  | succ fuel ih =>
      intro mbr hmbr
      have hloop : ∀ n i st, i + n = msdosMaxPartitions →
          checkEntries debug disk (checkMbr debug disk fuel) lba mbr (List.range' i n) st =
            some (false, st') →
          ∀ j, i ≤ j → LinkAt mbr j → Ends disk fuel (target lba mbr j) := by
        intro n
        induction n with
        | zero => exact fun i _ hi _ j hij hj => absurd hj.1 (by omega)
        | succ n ihn =>
            intro i st hi hrun j hij hj
            rw [List.range'_succ] at hrun
            have hle : st.partCount < 32 := (partCount_le_checkEntries hrun).trans_lt hcount
            have hlive : (entry mbr i).type ≠ msdosPartTypeGptDisk := by
              rcases Nat.lt_or_eq_of_le hij with hlt | rfl
              · exact hj.2.1 i hlt
              · have hlink := hj.2.2
                simp only [isLink, decide_eq_true_eq] at hlink
                exact hlink.1
            -- the entries behind entry `i`
            have hrest {st₁ : ScanState}
                (hrun₁ : checkEntries debug disk (checkMbr debug disk fuel) lba mbr
                  (List.range' (i + 1) n) st₁ = some (false, st'))
                (hne : i ≠ j) : Ends disk fuel (target lba mbr j) :=
              ihn (i + 1) st₁ (by omega) hrun₁ j (by omega) hj
            rcases (entry_cases (entry mbr i)).resolve_left hlive with hu | hl | hp
            · rw [checkEntries_unused hu] at hrun
              refine hrest hrun ?_
              rintro rfl
              cases (isLink_of_isUnused hu).symm.trans hj.2.2
            · rw [checkEntries_link hle hl] at hrun
              obtain ⟨⟨found, st₁⟩, hcall, hnext⟩ := Option.bind_eq_some_iff.mp hrun
              cases found with
              | true => cases hnext
              | false =>
                  by_cases hne : i = j
                  · rw [← hne]
                    exact ih hcall ((partCount_le_checkEntries hnext).trans_lt hcount)
                  · exact hrest hnext hne
            · rw [checkEntries_partition hle hp] at hrun
              split_ifs at hrun with hmatch
              · cases hrun
              · refine hrest hrun ?_
                rintro rfl
                cases (isLink_of_isPartition hp).symm.trans hj.2.2
      rw [hmbr.checkMbr_eq, List.range_eq_range'] at h
      exact fun i hi => hloop _ 0 st (Nat.zero_add _) h i (Nat.zero_le _) hi

/-- What is ahead within a depth is ahead within a greater one. -/
theorem Ahead.mono {depth' : ℕ} (h : Ahead disk depth lba mbr i ps) (hle : depth ≤ depth') :
    Ahead disk depth' lba mbr i ps where
  table := h.table
  le := h.le
  live := h.live
  ends j hj hlink := (h.ends j hj hlink).mono hle
  eq := by
    have hlive j (hj : j ∈ List.range i) := h.live j (List.mem_range.mp hj)
    rw [h.eq, walkEntries_eq_flatMap hlive, walkEntries_eq_flatMap hlive]
    refine List.flatMap_congr fun j hj => ?_
    unfold entryWalk
    split_ifs with hlink
    · exact (walk_of_ends (h.ends j (List.mem_range.mp hj) hlink) hle).symm
    · rfl
    · rfl

/-- An unused entry is passed. -/
theorem Ahead.succ_of_isUnused (h : Ahead disk depth lba mbr i ps) (hi : i < msdosMaxPartitions)
    (hu : isUnused (entry mbr i) = true) : Ahead disk depth lba mbr (i + 1) ps := by
  have hlive : (entry mbr i).type ≠ msdosPartTypeGptDisk := by
    simp only [isUnused, decide_eq_true_eq] at hu
    exact hu.1
  have hnext := h.succ hi hlive fun hl => by cases (isLink_of_isUnused hu).symm.trans hl
  rw [entryWalk_of_isUnused hu, List.append_nil] at hnext
  exact hnext

/-- A partition is passed. -/
theorem Ahead.succ_of_isPartition (h : Ahead disk depth lba mbr i ps) (hi : i < msdosMaxPartitions)
    (hp : isPartition (entry mbr i) = true) :
    Ahead disk depth lba mbr (i + 1) (ps ++ [probe mbr lba i]) := by
  have hlive : (entry mbr i).type ≠ msdosPartTypeGptDisk := by
    simp only [isPartition, decide_eq_true_eq] at hp
    exact hp.1
  have hnext := h.succ hi hlive fun hl => by cases (isLink_of_isPartition hp).symm.trans hl
  rw [entryWalk_of_isPartition hp] at hnext
  exact hnext

/-- A link is passed when the call for it has failed, below the limit: the tables below it have been
searched to the end. -/
theorem Ahead.succ_of_checkMbr (h : Ahead disk depth lba mbr i ps) (hi : i < msdosMaxPartitions)
    (hl : isLink (entry mbr i) = true)
    (hcall : checkMbr debug disk fuel (target lba mbr i) (st.callAll debug ps) = some (false, st'))
    (hcount : st'.partCount < 32) (hno : NoMatch disk st.args ps) :
    ∃ depth' qs, Ahead disk depth' lba mbr (i + 1) qs ∧ NoMatch disk st.args qs ∧
      Room debug st qs ∧ st' = st.callAll debug qs := by
  have hlive : (entry mbr i).type ≠ msdosPartTypeGptDisk := by
    simp only [isLink, decide_eq_true_eq] at hl
    exact hl.1
  have hends := ends_of_checkMbr hcall hcount
  obtain ⟨hwalk, hst⟩ := noMatch_of_probeAll (checkMbr_eq hcall).symm hcount
  rw [← ScanState.callAll_append] at hst
  refine ⟨max depth fuel, _, (h.mono (Nat.le_max_left depth fuel)).succ hi hlive fun _ =>
    hends.mono (Nat.le_max_right depth fuel), ?_⟩
  rw [entryWalk_of_isLink hl, walk_of_ends hends (Nat.le_max_right depth fuel)]
  refine ⟨noMatch_append.mpr ⟨hno, hwalk⟩, ?_, hst⟩
  unfold Room
  rw [← hst]
  exact hcount

/-- A partition that does not match is counted. -/
theorem checkEntries_miss {rec : ℕ → ScanState → Option (Bool × ScanState)} {is : List ℕ}
    (hroom : Room debug st ps) (hp : isPartition (entry mbr i) = true)
    (hmatch : ¬checkFsuuid disk st.args (probe mbr lba i).lba = true) :
    checkEntries debug disk rec lba mbr (i :: is) (st.callAll debug ps) =
      checkEntries debug disk rec lba mbr is (st.callAll debug (ps ++ [probe mbr lba i])) := by
  rw [checkEntries_partition hroom hp, ScanState.callAll_args, if_neg hmatch,
    ScanState.callAll_append]
  rfl

/-- One more probe that does not match. -/
theorem noMatch_concat {p : Probe} (hno : NoMatch disk args ps)
    (hp : ¬checkFsuuid disk args p.lba = true) : NoMatch disk args (ps ++ [p]) := by
  refine noMatch_append.mpr ⟨hno, fun q hq => ?_⟩
  rw [List.mem_singleton.mp hq]
  exact Bool.eq_false_iff.mpr hp

/-! ## The calls -/

/-- A call makes another one, for a link in front of which nothing matches; the calls are given by the
sector and the count of partitions. -/
def Calls (debug : Bool) (disk : DiskRead) (args : NtArgs) (s t : ℕ × ℕ) : Prop :=
  ∃ ps, Link disk s.1 ps t.1 ∧ NoMatch disk args ps ∧
    t.2 = (if debug then s.2 + ps.length else s.2) ∧ t.2 < 32

/-- The loop ends if the calls for the links that it comes to do. -/
theorem exists_checkEntries_isSome
    (hcalls : ∀ ps lba', Link disk lba ps lba' → NoMatch disk st.args ps → Room debug st ps →
      ∃ fuel, (checkMbr debug disk fuel lba' (st.callAll debug ps)).isSome)
    (n : ℕ) (hn : i + n = msdosMaxPartitions) (h : Ahead disk depth lba mbr i ps)
    (hno : NoMatch disk st.args ps) (hroom : Room debug st ps) :
    ∃ fuel, (checkEntries debug disk (checkMbr debug disk fuel) lba mbr (List.range' i n)
      (st.callAll debug ps)).isSome := by
  induction n generalizing i depth ps with
  | zero => exact ⟨0, rfl⟩
  | succ n ih =>
      have hi : i < msdosMaxPartitions := by omega
      rw [List.range'_succ]
      by_cases hd : (entry mbr i).type = msdosPartTypeGptDisk
      · refine ⟨0, ?_⟩
        rw [checkEntries_dummy hd]
        rfl
      rcases (entry_cases (entry mbr i)).resolve_left hd with hu | hl | hp
      · obtain ⟨fuel, hfuel⟩ := ih (by omega) (h.succ_of_isUnused hi hu) hno hroom
        refine ⟨fuel, ?_⟩
        rw [checkEntries_unused hu]
        exact hfuel
      · obtain ⟨fuel₁, hcall⟩ := hcalls ps _ ⟨depth, mbr, i, h, ⟨hi, h.live, hl⟩, rfl⟩ hno hroom
        obtain ⟨⟨found, st₂⟩, hcall⟩ := Option.isSome_iff_exists.mp hcall
        cases found with
        | true =>
            refine ⟨fuel₁, ?_⟩
            rw [checkEntries_link hroom hl, hcall]
            rfl
        | false =>
            by_cases hcount : st₂.partCount < 32
            · obtain ⟨depth', qs, hnext, hqs, hroom', rfl⟩ :=
                h.succ_of_checkMbr hi hl hcall hcount hno
              obtain ⟨fuel₂, hfuel₂⟩ := ih (by omega) hnext hqs hroom'
              obtain ⟨r, hr⟩ := Option.isSome_iff_exists.mp hfuel₂
              refine ⟨max fuel₁ fuel₂, ?_⟩
              rw [checkEntries_link hroom hl, checkMbr_mono (Nat.le_max_left _ _) hcall,
                Option.bind_some]
              dsimp only
              rw [if_neg Bool.false_ne_true, checkEntries_mono
                (fun _ _ _ => checkMbr_mono (Nat.le_max_right fuel₁ fuel₂)) hr]
              rfl
            · refine ⟨fuel₁, ?_⟩
              rw [checkEntries_link hroom hl, hcall, Option.bind_some]
              dsimp only
              rw [if_neg Bool.false_ne_true, checkEntries_full (Nat.not_lt.mp hcount)]
              rfl
      · by_cases hmatch : checkFsuuid disk st.args (probe mbr lba i).lba = true
        · refine ⟨0, ?_⟩
          rw [checkEntries_partition hroom hp, ScanState.callAll_args, if_pos hmatch]
          rfl
        · simp only [checkEntries_miss hroom hp hmatch]
          by_cases hcount : (st.callAll debug (ps ++ [probe mbr lba i])).partCount < 32
          · exact ih (by omega) (h.succ_of_isPartition hi hp) (noMatch_concat hno hmatch) hcount
          · refine ⟨0, ?_⟩
            rw [checkEntries_full (Nat.not_lt.mp hcount)]
            rfl

/-- A search ends if its calls are well founded. -/
theorem exists_isSome_of_acc {s : ℕ × ℕ} (h : Acc (fun t s => Calls debug disk args s t) s)
    (hlt : s.2 < 32) (hargs : st.args = args) (hcount : st.partCount = s.2) :
    ∃ fuel, (checkMbr debug disk fuel s.1 st).isSome := by
  induction h generalizing st with
  | intro s _ ih =>
      by_cases htable : ∃ mbr, IsTable disk s.1 mbr
      · obtain ⟨mbr, hmbr⟩ := htable
        have hroom : Room debug st [] := by
          unfold Room
          rw [ScanState.callAll_nil, hcount]
          exact hlt
        have hloop := exists_checkEntries_isSome (fun ps lba' hlink hno hroom => ?_)
          msdosMaxPartitions (Nat.zero_add _) (hmbr.ahead_zero 0) (List.forall_mem_nil _) hroom
        · obtain ⟨fuel, hfuel⟩ := hloop
          refine ⟨fuel + 1, ?_⟩
          rw [hmbr.checkMbr_eq, List.range_eq_range']
          rw [ScanState.callAll_nil] at hfuel
          exact hfuel
        · have hnext : (st.callAll debug ps).partCount =
              if debug then s.2 + ps.length else s.2 := by
            rw [← hcount]
            rfl
          have hcall : Calls debug disk args s (lba', (st.callAll debug ps).partCount) :=
            ⟨ps, hlink, hargs ▸ hno, hnext, hroom⟩
          exact ih _ hcall hroom hargs rfl
      · refine ⟨1, ?_⟩
        rw [checkMbr_of_not_isTable (not_exists.mp htable)]
        rfl

/-- A search leads to finitely many calls. -/
theorem finite_calls {s : ℕ × ℕ} (hlba : s.1 < 2 ^ 32) (hcount : s.2 < 32) :
    {t | ReflTransGen (Calls debug disk args) s t}.Finite := by
  refine ((Set.finite_lt_nat (2 ^ 32)).prod (Set.finite_lt_nat 32)).subset fun t ht => ?_
  induction ht with
  | refl => exact ⟨hlba, hcount⟩
  | tail _ hcall _ =>
      obtain ⟨ps, ⟨depth, mbr, i, -, -, heq⟩, -, -, hlt⟩ := hcall
      exact ⟨heq ▸ Nat.mod_lt _ (by norm_num), hlt⟩

/-- Calls follow the links. -/
theorem path_of_calls {s t : ℕ × ℕ} (h : ReflTransGen (Calls debug disk args) s t) :
    ∃ ps, Path disk s.1 ps t.1 ∧ NoMatch disk args ps ∧
      t.2 = if debug then s.2 + ps.length else s.2 := by
  induction h with
  | refl => exact ⟨[], .refl, List.forall_mem_nil _, (ite_self _).symm⟩
  | tail _ hcall ih =>
      obtain ⟨ps, hpath, hps, hcount⟩ := ih
      obtain ⟨qs, hlink, hqs, hcount', -⟩ := hcall
      refine ⟨ps ++ qs, hpath.tail hlink, noMatch_append.mpr ⟨hps, hqs⟩, ?_⟩
      rw [hcount', hcount, List.length_append]
      split_ifs <;> omega

/-- A call that leads to itself is in a cycle of links. -/
theorem cycle_of_calls {s : ℕ × ℕ} (h : TransGen (Calls debug disk args) s s) :
    ∃ qs, Cycle disk s.1 qs ∧ NoMatch disk args qs ∧ (debug = true → qs = []) := by
  obtain ⟨t, hpath, hcall⟩ := TransGen.tail'_iff.mp h
  obtain ⟨ps, hpath, hps, hcount⟩ := path_of_calls hpath
  obtain ⟨rs, hlink, hrs, hcount', -⟩ := hcall
  refine ⟨ps ++ rs, ⟨ps, t.1, rs, hpath, hlink, rfl⟩, noMatch_append.mpr ⟨hps, hrs⟩, ?_⟩
  intro hdebug
  rw [if_pos hdebug] at hcount hcount'
  refine List.eq_nil_of_length_eq_zero ?_
  rw [List.length_append]
  omega

/-- **A search that is not endless ends.** -/
theorem exists_isSome_of_not_endless (h : ¬Endless debug disk args) :
    ∃ fuel, (checkMsdosPartmap debug disk fuel args).isSome := by
  have hacc : Acc (fun t s => Calls debug disk args s t) (0, 0) := by
    refine (acc_iff_noCycle (finite_calls (by norm_num) (by norm_num))).mpr fun t ht hcycle => h ?_
    obtain ⟨ps, hpath, hps, hcount⟩ := path_of_calls ht
    obtain ⟨qs, hqs, hno, hnil⟩ := cycle_of_calls hcycle
    refine ⟨ps, t.1, qs, hpath, hqs, noMatch_append.mpr ⟨hps, hno⟩, fun hdebug => ⟨?_, hnil hdebug⟩⟩
    obtain ⟨t', -, hcall⟩ := TransGen.tail'_iff.mp hcycle
    obtain ⟨-, -, -, -, hlt⟩ := hcall
    rw [if_pos hdebug] at hcount
    omega
  exact exists_isSome_of_acc hacc (by norm_num) rfl rfl

/-- **The search ends** exactly on the disks on which no way along the links, past partitions that do
not match, comes to a table that leads to itself, within the limit of the partitions where these are
counted. -/
theorem checkMsdosPartmap_returns_iff (debug : Bool) (disk : DiskRead) (args : NtArgs) :
    (∃ fuel r, checkMsdosPartmap debug disk fuel args = some r) ↔ ¬Endless debug disk args := by
  simp only [← Option.isSome_iff_exists]
  exact ⟨fun ⟨_, hfuel⟩ h => h.not_isSome hfuel, exists_isSome_of_not_endless⟩

/-! ## A link to the own sector -/

/-- A disk with an extended partition at sector 0. -/
def loopDisk : DiskRead
  | 0 => some (tableSector 0 0x05 0 1)
  | _ => none

/-- The table of the disk links to itself, -/
theorem loopDisk_link : Link loopDisk 0 [] 0 := by
  have htable : IsTable loopDisk 0 (tableSector 0 0x05 0 1) := ⟨rfl, by decide +kernel⟩
  have hlink : LinkAt (tableSector 0 0x05 0 1) 0 :=
    ⟨by decide, fun j hj => absurd hj (Nat.not_lt_zero j), by decide +kernel⟩
  exact ⟨0, _, 0, htable.ahead_zero 0, hlink, by decide +kernel⟩

/-- so its search is endless. -/
theorem loopDisk_endless (debug : Bool) (args : NtArgs) : Endless debug loopDisk args :=
  ⟨[], 0, [], .refl, ⟨[], 0, [], .refl, loopDisk_link, rfl⟩, List.forall_mem_nil _,
    fun _ => ⟨by decide, rfl⟩⟩

/-- The search of the disk does not end, in any build. -/
theorem not_returns_loop :
    ¬∃ debug, ∀ (disk : DiskRead) (args : NtArgs),
      ∃ fuel r, checkMsdosPartmap debug disk fuel args = some r := by
  rintro ⟨debug, h⟩
  obtain ⟨fuel, r, hr⟩ := h loopDisk .init
  have hnot : ¬(checkMsdosPartmap debug loopDisk fuel .init).isSome :=
    (loopDisk_endless debug .init).not_isSome
  rw [hr] at hnot
  exact hnot rfl

end Ntloader.Disk
