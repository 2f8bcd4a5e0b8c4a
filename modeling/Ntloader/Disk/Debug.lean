import Ntloader.Disk.Ends

/-!
# The search in builds with and without messages

The partitions are counted in a message: a DEBUG build gives up behind 32 of them, the other build
does not.

* `Reached` — a partition with those that the search examines in front of it.
* `checkMbr_found_iff` — a search is successful exactly if it comes to a partition that matches.
* `outcome_iff` — when both builds have the same outcome.
-/

namespace Ntloader.Disk

open Ntloader.Lib Ntloader.Posix Ntloader.Kern

/-- From a sector, the links lead to a partition, with partitions in front of it. -/
def Reached (disk : DiskRead) (lba : ℕ) (ps : List Probe) (p : Probe) : Prop :=
  ∃ qs lba' rs depth mbr i, Path disk lba qs lba' ∧ Ahead disk depth lba' mbr i rs ∧
    i < msdosMaxPartitions ∧ isPartition (entry mbr i) = true ∧ ps = qs ++ rs ∧
    p = probe mbr lba' i

/-- The first partition that matches is behind 32 others. -/
def LateMatch (disk : DiskRead) (args : NtArgs) : Prop :=
  ∃ ps p, Reached disk 0 ps p ∧ NoMatch disk args ps ∧ checkFsuuid disk args p.lba = true ∧
    32 ≤ ps.length

/-- The search returns, with a result and the arguments of the loader. -/
def Outcome (debug : Bool) (disk : DiskRead) (args : NtArgs) (found : Bool) (args' : NtArgs) :
    Prop :=
  ∃ fuel st, checkMsdosPartmap debug disk fuel args = some (found, st) ∧ st.args = args'

/-- The state when a partition has been recorded. -/
def ScanState.hit (st : ScanState) (debug : Bool) (ps : List Probe) (p : Probe) : ScanState :=
  { (st.callAll debug ps).call debug p with args := record st.args p }

variable {debug : Bool} {disk : DiskRead} {args args' : NtArgs} {fuel depth lba lba' i : ℕ}
  {mbr : Mem} {ps qs : List Probe} {p : Probe} {st st' : ScanState}

/-! ## From a partition back to the search -/

/-- A search that is successful behind a link is successful. -/
theorem Link.exists_found (h : Link disk lba ps lba')
    (hcall : checkMbr debug disk fuel lba' (st.callAll debug ps) = some (true, st'))
    (hno : NoMatch disk st.args ps) (hroom : Room debug st ps) :
    ∃ fuel, checkMbr debug disk fuel lba st = some (true, st') := by
  obtain ⟨depth, mbr, i, hahead, ⟨hi, -, hlink⟩, rfl⟩ := h
  refine ⟨max fuel depth + 1, ?_⟩
  rw [checkMbr_ahead hahead hno hroom (Or.inr (Nat.le_max_right _ _)), range'_cons hi,
    checkEntries_link hroom hlink, checkMbr_mono (Nat.le_max_left _ _) hcall]
  rfl

/-- A match at the end of a path is found from its start. -/
theorem Path.exists_found (h : Path disk lba ps lba')
    (hcall : checkMbr debug disk fuel lba' (st.callAll debug ps) = some (true, st'))
    (hno : NoMatch disk st.args ps) (hroom : Room debug st ps) :
    ∃ fuel, checkMbr debug disk fuel lba st = some (true, st') := by
  induction h generalizing fuel with
  | refl =>
      rw [ScanState.callAll_nil] at hcall
      exact ⟨fuel, hcall⟩
  | tail _ hlink ih =>
      obtain ⟨hps, hqs⟩ := noMatch_append.mp hno
      rw [ScanState.callAll_append] at hcall
      obtain ⟨fuel', hcall'⟩ := hlink.exists_found hcall hqs (room_append.mp hroom)
      exact ih hcall' hps hroom.left

/-- A partition that matches is found, if none in front of it does and the limit is not reached. -/
theorem Reached.exists_found (h : Reached disk lba ps p) (hno : NoMatch disk st.args ps)
    (hroom : Room debug st ps) (hmatch : checkFsuuid disk st.args p.lba = true) :
    ∃ fuel, checkMbr debug disk fuel lba st = some (true, st.hit debug ps p) := by
  obtain ⟨qs, lba', rs, depth, mbr, i, hpath, hahead, hi, hp, rfl, rfl⟩ := h
  obtain ⟨hqs, hrs⟩ := noMatch_append.mp hno
  have hroom' := room_append.mp hroom
  have hno' : NoMatch disk (st.callAll debug qs).args rs := hrs
  refine @Path.exists_found _ _ (depth + 1) _ _ _ _ _ hpath ?_ hqs hroom.left
  rw [checkMbr_ahead hahead hno' hroom' (Or.inr (Nat.le_refl _)), range'_cons hi,
    checkEntries_partition hroom' hp, ScanState.callAll_args, ScanState.callAll_args, if_pos hmatch,
    ScanState.hit, ScanState.callAll_append]

/-! ## From a successful search to the partition -/

/-- A path has one more table in front, -/
theorem Path.head (hlink : Link disk lba ps lba') {lba'' : ℕ} (h : Path disk lba' qs lba'') :
    Path disk lba (ps ++ qs) lba'' := by
  induction h with
  | refl =>
      rw [List.append_nil]
      exact Path.refl.tail hlink
  | tail _ hnext ih =>
      rw [← List.append_assoc]
      exact ih.tail hnext

/-- and so has the way to a probe. -/
theorem Reached.head (hlink : Link disk lba ps lba') (h : Reached disk lba' qs p) :
    Reached disk lba (ps ++ qs) p := by
  obtain ⟨qs, lba'', rs, depth, mbr, i, hpath, hahead, hi, hp, rfl, rfl⟩ := h
  exact ⟨ps ++ qs, lba'', rs, depth, mbr, i, hpath.head hlink, hahead, hi, hp,
    (List.append_assoc _ _ _).symm, rfl⟩

/-- The partition that is found. -/
def Found (debug : Bool) (disk : DiskRead) (lba : ℕ) (st st' : ScanState) : Prop :=
  ∃ ps p, Reached disk lba ps p ∧ NoMatch disk st.args ps ∧ Room debug st ps ∧
    checkFsuuid disk st.args p.lba = true ∧ st' = st.hit debug ps p

/-- The loop finds a partition, if the calls that are successful do. -/
theorem found_of_checkEntries
    (hrec : ∀ lba st, checkMbr debug disk fuel lba st = some (true, st') →
      Found debug disk lba st st')
    (n : ℕ) (hn : i + n = msdosMaxPartitions) (h : Ahead disk depth lba mbr i ps)
    (hno : NoMatch disk st.args ps) (hroom : Room debug st ps)
    (hrun : checkEntries debug disk (checkMbr debug disk fuel) lba mbr (List.range' i n)
      (st.callAll debug ps) = some (true, st')) : Found debug disk lba st st' := by
  induction n generalizing i depth ps with
  | zero => cases hrun
  | succ n ih =>
      have hi : i < msdosMaxPartitions := by omega
      rw [List.range'_succ] at hrun
      rcases entry_cases (entry mbr i) with hd | hu | hl | hp
      · rw [checkEntries_dummy hd] at hrun
        cases hrun
      · rw [checkEntries_unused hu] at hrun
        exact ih (by omega) (h.succ_of_isUnused hi hu) hno hroom hrun
      · rw [checkEntries_link hroom hl] at hrun
        obtain ⟨⟨found, st₂⟩, hcall, hnext⟩ := Option.bind_eq_some_iff.mp hrun
        cases found with
        | true =>
            cases hnext
            have hlink : Link disk lba ps (target lba mbr i) :=
              ⟨depth, mbr, i, h, ⟨hi, h.live, hl⟩, rfl⟩
            obtain ⟨qs, p, hp, hqs, hroom', hmatch, rfl⟩ := hrec _ _ hcall
            refine ⟨ps ++ qs, p, hp.head hlink, noMatch_append.mpr ⟨hno, hqs⟩,
              room_append.mpr hroom', hmatch, ?_⟩
            unfold ScanState.hit
            rw [st.callAll_append]
            rfl
        | false =>
            dsimp only at hnext
            rw [if_neg Bool.false_ne_true] at hnext
            by_cases hcount : st₂.partCount < 32
            · obtain ⟨depth', qs, hahead, hqs, hroom', rfl⟩ :=
                h.succ_of_checkMbr hi hl hcall hcount hno
              exact ih (by omega) hahead hqs hroom' hnext
            · rw [checkEntries_full (Nat.not_lt.mp hcount)] at hnext
              cases hnext
      · by_cases hmatch : checkFsuuid disk st.args (probe mbr lba i).lba = true
        · rw [checkEntries_partition hroom hp, ScanState.callAll_args, if_pos hmatch] at hrun
          cases hrun
          exact ⟨ps, probe mbr lba i, ⟨[], lba, ps, depth, mbr, i, .refl, h, hi, hp, rfl, rfl⟩, hno,
            hroom, hmatch, rfl⟩
        · rw [checkEntries_miss hroom hp hmatch] at hrun
          by_cases hcount : (st.callAll debug (ps ++ [probe mbr lba i])).partCount < 32
          · exact ih (by omega) (h.succ_of_isPartition hi hp) (noMatch_concat hno hmatch) hcount
              hrun
          · rw [checkEntries_full (Nat.not_lt.mp hcount)] at hrun
            cases hrun

/-- **What is found is reached by a path.** -/
theorem found_of_checkMbr (h : checkMbr debug disk fuel lba st = some (true, st')) :
    Found debug disk lba st st' := by
  induction fuel generalizing lba st with
  | zero => cases h
  | succ fuel ih =>
      by_cases htable : ∃ mbr, IsTable disk lba mbr
      · obtain ⟨mbr, hmbr⟩ := htable
        rw [hmbr.checkMbr_eq, List.range_eq_range'] at h
        by_cases hcount : st.partCount < 32
        · have hroom : Room debug st [] := by
            unfold Room
            rw [ScanState.callAll_nil]
            exact hcount
          refine found_of_checkEntries (fun _ _ => ih) _ (Nat.zero_add _) (hmbr.ahead_zero 0)
            (List.forall_mem_nil _) hroom ?_
          rw [ScanState.callAll_nil]
          exact h
        · rw [checkEntries_full (Nat.not_lt.mp hcount)] at h
          cases h
      · rw [checkMbr_of_not_isTable (not_exists.mp htable)] at h
        cases h

/-- A search is successful exactly if it comes to a partition that matches. -/
theorem checkMbr_found_iff :
    (∃ fuel, checkMbr debug disk fuel lba st = some (true, st')) ↔ Found debug disk lba st st' := by
  constructor
  · rintro ⟨fuel, h⟩
    exact found_of_checkMbr h
  · rintro ⟨ps, p, hp, hno, hroom, hmatch, rfl⟩
    exact hp.exists_found hno hroom hmatch

/-! ## Outcomes -/

/-- At the start there is room for 31 probes where they are counted, and for any number where not. -/
theorem room_init {ps : List Probe} :
    Room debug ⟨0, args, []⟩ ps ↔ (debug = true → ps.length < 32) := by
  unfold Room ScanState.callAll
  cases debug <;> simp

/-- The result does not depend on the fuel. -/
theorem Outcome.unique {found found' : Bool} {args₁ args₂ : NtArgs}
    (h : Outcome debug disk args found args₁) (h' : Outcome debug disk args found' args₂) :
    found = found' ∧ args₁ = args₂ := by
  obtain ⟨fuel, st, hrun, rfl⟩ := h
  obtain ⟨fuel', st', hrun', rfl⟩ := h'
  have hmax := checkMbr_mono (Nat.le_max_left fuel fuel') hrun
  rw [checkMbr_mono (Nat.le_max_right fuel fuel') hrun'] at hmax
  cases hmax
  exact ⟨rfl, rfl⟩

/-- The outcome of a match: a probe that is reached behind others that do not match. -/
theorem outcome_true_iff :
    Outcome debug disk args true args' ↔
      ∃ ps p, Reached disk 0 ps p ∧ NoMatch disk args ps ∧ (debug = true → ps.length < 32) ∧
        checkFsuuid disk args p.lba = true ∧ args' = record args p := by
  constructor
  · rintro ⟨fuel, st, hrun, rfl⟩
    obtain ⟨ps, p, hp, hno, hroom, hmatch, rfl⟩ := found_of_checkMbr hrun
    exact ⟨ps, p, hp, hno, room_init.mp hroom, hmatch, rfl⟩
  · rintro ⟨ps, p, hp, hno, hlt, hmatch, rfl⟩
    obtain ⟨fuel, hrun⟩ := @Reached.exists_found debug _ _ _ _ ⟨0, args, []⟩ hp hno
      (room_init.mpr hlt) hmatch
    exact ⟨fuel, _, hrun, rfl⟩

/-- A search that fails leaves the arguments alone. -/
theorem probeAll_args (h : probeAll debug disk ps st = (false, st')) : st'.args = st.args := by
  induction ps generalizing st with
  | nil =>
      cases h
      rfl
  | cons p ps ih =>
      rw [probeAll] at h
      dsimp only at h
      split_ifs at h with hfull hmatch
      · cases h
        rfl
      · cases h
      · exact (ih h).trans rfl

/-- Without a match the arguments are left. -/
theorem Outcome.args_eq (h : Outcome debug disk args false args') : args' = args := by
  obtain ⟨fuel, st, hrun, rfl⟩ := h
  exact probeAll_args (checkMbr_eq hrun).symm

/-- A search with an outcome is not endless, -/
theorem Outcome.not_endless {found : Bool} (h : Outcome debug disk args found args') :
    ¬Endless debug disk args := by
  obtain ⟨fuel, st, hrun, -⟩ := h
  intro hendless
  have hnot : ¬(checkMsdosPartmap debug disk fuel args).isSome := hendless.not_isSome
  rw [hrun] at hnot
  exact hnot rfl

/-- and one that is not endless has an outcome. -/
theorem exists_outcome (h : ¬Endless debug disk args) :
    ∃ found args', Outcome debug disk args found args' := by
  obtain ⟨fuel, hsome⟩ := exists_isSome_of_not_endless h
  obtain ⟨⟨found, st⟩, hrun⟩ := Option.isSome_iff_exists.mp hsome
  exact ⟨found, st.args, fuel, st, hrun, rfl⟩

/-- A search that goes round in a DEBUG build goes round in the other one. -/
theorem Endless.without_debug (h : Endless true disk args) : Endless false disk args := by
  obtain ⟨ps, lba, qs, hpath, hcycle, hno, -⟩ := h
  exact ⟨ps, lba, qs, hpath, hcycle, hno, fun h => absurd h Bool.false_ne_true⟩

/-- There is one partition that matches first. -/
theorem Reached.unique {q : Probe} (h : Reached disk 0 ps p) (hno : NoMatch disk args ps)
    (hmatch : checkFsuuid disk args p.lba = true) (h' : Reached disk 0 qs q)
    (hno' : NoMatch disk args qs) (hmatch' : checkFsuuid disk args q.lba = true) : ps = qs := by
  have hroom (ps : List Probe) : Room false ⟨0, args, []⟩ ps :=
    room_init.mpr fun h => absurd h Bool.false_ne_true
  obtain ⟨fuel, hrun⟩ := h.exists_found hno (hroom ps) hmatch
  obtain ⟨fuel', hrun'⟩ := h'.exists_found hno' (hroom qs) hmatch'
  have hmax := checkMbr_mono (Nat.le_max_left fuel fuel') hrun
  rw [checkMbr_mono (Nat.le_max_right fuel fuel') hrun'] at hmax
  have hlog : [] ++ qs ++ [q] = [] ++ ps ++ [p] :=
    congrArg (fun r => r.2.log) (Option.some.inj hmax)
  exact (List.append_inj_left' hlog rfl).symm

/-- **Both builds have the same outcome** exactly if the first partition that matches is among the
first 32, and the search goes round without end in the DEBUG build too when it does in the other. -/
theorem outcome_iff (disk : DiskRead) (args : NtArgs) :
    (∀ found args', Outcome true disk args found args' ↔ Outcome false disk args found args') ↔
      ¬LateMatch disk args ∧ (Endless false disk args → Endless true disk args) := by
  constructor
  · intro h
    refine ⟨?_, fun hendless => by_contra fun hnot => ?_⟩
    · rintro ⟨ps, p, hp, hno, hmatch, hlen⟩
      have hfalse : Outcome false disk args true (record args p) :=
        outcome_true_iff.mpr ⟨ps, p, hp, hno, fun h => absurd h Bool.false_ne_true, hmatch, rfl⟩
      obtain ⟨qs, q, hq, hqs, hlt, hmatch', -⟩ := outcome_true_iff.mp ((h _ _).mpr hfalse)
      have hps := hp.unique hno hmatch hq hqs hmatch'
      rw [hps] at hlen
      exact absurd (hlt rfl) (Nat.not_lt.mpr hlen)
    · obtain ⟨found, args', hout⟩ := exists_outcome hnot
      exact ((h _ _).mp hout).not_endless hendless
  · rintro ⟨hlate, hendless⟩
    -- a match is in front of the limit
    have htrue (args' : NtArgs) :
        Outcome true disk args true args' ↔ Outcome false disk args true args' := by
      rw [outcome_true_iff, outcome_true_iff]
      constructor
      · rintro ⟨ps, p, hp, hno, -, hmatch, hargs⟩
        exact ⟨ps, p, hp, hno, fun h => absurd h Bool.false_ne_true, hmatch, hargs⟩
      · rintro ⟨ps, p, hp, hno, -, hmatch, hargs⟩
        refine ⟨ps, p, hp, hno, fun _ => ?_, hmatch, hargs⟩
        by_contra hlen
        exact hlate ⟨ps, p, hp, hno, hmatch, Nat.not_lt.mp hlen⟩
    intro found args'
    cases found with
    | true => exact htrue args'
    | false =>
        constructor
        · intro hout
          obtain ⟨found, args₁, hout'⟩ :=
            exists_outcome fun h => hout.not_endless (hendless h)
          cases found with
          | true => cases (hout.unique ((htrue _).mpr hout')).1
          | false =>
              rw [hout.args_eq]
              rw [hout'.args_eq] at hout'
              exact hout'
        · intro hout
          obtain ⟨found, args₁, hout'⟩ :=
            exists_outcome fun h => hout.not_endless h.without_debug
          cases found with
          | true => cases (hout.unique ((htrue _).mp hout')).1
          | false =>
              rw [hout.args_eq]
              rw [hout'.args_eq] at hout'
              exact hout'

/-! ## A partition behind 33 others -/

/-- A sector with a table of three partitions at start 100 and a link to the next sector. -/
def denseSector : Mem :=
  [0, 1, 2, 3].foldl (fun mbr i =>
    ((mbr.putWord (446 + 16 * i + 4) 1 (if i = 3 then 0x05 else 0x07)).putWord (446 + 16 * i + 8) 4
      (if i = 3 then 1 else 100)).putWord (446 + 16 * i + 12) 4 1)
    (Mem.zero.putWord 510 2 msdosPartSignature)

/-- A disk with 11 tables of three partitions that cannot be read, and an NTFS volume behind them. -/
def denseDisk (lba : ℕ) : Option Mem :=
  if lba < 11 then some denseSector
  else if lba = 11 then some (tableSector 0 0x07 1 1)
  else if lba = 12 then some (ntfsSector 1)
  else none

/-- The volume is found in one build only. -/
theorem outcome_dense :
    ¬∀ (disk : DiskRead) (args : NtArgs) (found : Bool) (args' : NtArgs),
      Outcome true disk args found args' ↔ Outcome false disk args found args' := by
  intro h
  have hfalse : (checkMsdosPartmap false denseDisk 13 logicalArgs).map Prod.fst = some true := by
    decide +kernel
  have htrue : (checkMsdosPartmap true denseDisk 13 logicalArgs).map Prod.fst = some false := by
    decide +kernel
  obtain ⟨⟨found, st⟩, hrun, hfound⟩ := Option.map_eq_some_iff.mp hfalse
  obtain ⟨⟨found', st'⟩, hrun', hfound'⟩ := Option.map_eq_some_iff.mp htrue
  have hout : Outcome false denseDisk logicalArgs true st.args := ⟨13, st, hfound ▸ hrun, rfl⟩
  have hout' : Outcome true denseDisk logicalArgs false st'.args := ⟨13, st', hfound' ▸ hrun', rfl⟩
  exact Bool.false_ne_true (hout'.unique ((h _ _ _ _).mpr hout)).1

end Ntloader.Disk
