import Ntloader.Disk.Chain

/-!
# Tables and their links

The links of a disk make a graph of tables. The search takes a link when the tables below the links
in front of it have been searched to the end.

* `Ends`, `Ahead`, `Path` — tables of finite depth, what is in front of an entry, and the way that the
  search takes to a table.
* `checkMbr_mono` — the result does not depend on the fuel.
* `walk_of_ends` — the walk of a table of finite depth.
* `checkMbr_ahead` — a search in which nothing in front of an entry matches comes to the entry.
-/

namespace Ntloader.Disk

open Ntloader.Lib Ntloader.Posix Ntloader.Kern

/-! ## The graph of tables -/

/-- The sector of the table that an entry refers to. -/
def target (lba : ℕ) (mbr : Mem) (i : ℕ) : ℕ := (lba + (entry mbr i).start) % 2 ^ 32

/-- No entry below a number is a dummy one, which would end the table. -/
def Live (mbr : Mem) (i : ℕ) : Prop := ∀ j < i, (entry mbr j).type ≠ msdosPartTypeGptDisk

/-- An entry of a table is a link. -/
def LinkAt (mbr : Mem) (i : ℕ) : Prop :=
  i < msdosMaxPartitions ∧ Live mbr i ∧ isLink (entry mbr i) = true

/-- The tables from a sector on are less than `depth` deep. -/
def Ends (disk : DiskRead) : ℕ → ℕ → Prop
  | 0, _ => False
  | depth + 1, lba =>
      ∀ mbr, IsTable disk lba mbr → ∀ i, LinkAt mbr i → Ends disk depth (target lba mbr i)

/-- The partitions `ps` are in front of entry `i` of the table at a sector: the tables below the links
in front of it are less than `depth` deep. -/
structure Ahead (disk : DiskRead) (depth lba : ℕ) (mbr : Mem) (i : ℕ) (ps : List Probe) : Prop where
  table : IsTable disk lba mbr
  le : i ≤ msdosMaxPartitions
  live : Live mbr i
  ends : ∀ j < i, isLink (entry mbr j) = true → Ends disk depth (target lba mbr j)
  eq : ps = walkEntries (walk disk depth) lba mbr (List.range i)

/-- A link from a table to another, with the partitions in front of it. -/
def Link (disk : DiskRead) (lba : ℕ) (ps : List Probe) (lba' : ℕ) : Prop :=
  ∃ depth mbr i, Ahead disk depth lba mbr i ps ∧ LinkAt mbr i ∧ lba' = target lba mbr i

/-- The links from a table to another, with the partitions on the way. -/
inductive Path (disk : DiskRead) (lba : ℕ) : List Probe → ℕ → Prop
  | refl : Path disk lba [] lba
  | tail {ps qs : List Probe} {lba' lba'' : ℕ} : Path disk lba ps lba' → Link disk lba' qs lba'' →
      Path disk lba (ps ++ qs) lba''

/-- A table leads to itself, with the partitions on the way. -/
def Cycle (disk : DiskRead) (lba : ℕ) (qs : List Probe) : Prop :=
  ∃ ps lba' rs, Path disk lba ps lba' ∧ Link disk lba' rs lba ∧ qs = ps ++ rs

/-! ## Entries -/

/-- An entry is a dummy one, unused, a link or a partition. -/
theorem entry_cases (e : MsdosPartEntry) :
    e.type = msdosPartTypeGptDisk ∨ isUnused e = true ∨ isLink e = true ∨ isPartition e = true := by
  simp only [isUnused, isLink, isPartition, decide_eq_true_eq]
  tauto

section entries

variable {debug : Bool} {disk : DiskRead} {rec : ℕ → ScanState → Option (Bool × ScanState)}
  {recWalk : ℕ → List Probe} {lba i : ℕ} {mbr : Mem} {is : List ℕ} {st : ScanState}

/-- With 32 partitions the search is over. -/
theorem checkEntries_full (h : st.partCount ≥ 32) :
    checkEntries debug disk rec lba mbr is st = some (false, st) := by
  cases is with
  | nil => rfl
  | cons i is => rw [checkEntries, if_pos h]

/-- A protective entry ends the search. -/
theorem checkEntries_dummy (h : (entry mbr i).type = msdosPartTypeGptDisk) :
    checkEntries debug disk rec lba mbr (i :: is) st = some (false, st) := by
  rw [checkEntries]
  dsimp only
  rw [if_pos h, ite_self]

/-- An unused entry is passed over. -/
theorem checkEntries_unused (h : isUnused (entry mbr i) = true) :
    checkEntries debug disk rec lba mbr (i :: is) st =
      checkEntries debug disk rec lba mbr is st := by
  simp only [isUnused, decide_eq_true_eq] at h
  by_cases hfull : st.partCount ≥ 32
  · rw [checkEntries_full hfull, checkEntries_full hfull]
  · rw [checkEntries, if_neg hfull]
    dsimp only
    rw [if_neg h.1, if_pos h.2]

/-- Behind an entry for a table, its table is searched first, and the rest if it has no match. -/
theorem checkEntries_link (hcount : st.partCount < 32) (h : isLink (entry mbr i) = true) :
    checkEntries debug disk rec lba mbr (i :: is) st =
      (rec (target lba mbr i) st).bind fun (found, st) =>
        if found then some (true, st) else checkEntries debug disk rec lba mbr is st := by
  simp only [isLink, decide_eq_true_eq] at h
  rw [checkEntries, if_neg (Nat.not_le.mpr hcount)]
  dsimp only
  rw [if_neg h.1, if_neg h.2.1, if_pos h.2.2]
  rfl

/-- A partition is a probe: it ends the search, or it is counted and the rest is searched. -/
theorem checkEntries_partition (hcount : st.partCount < 32)
    (h : isPartition (entry mbr i) = true) :
    checkEntries debug disk rec lba mbr (i :: is) st =
      if checkFsuuid disk st.args (probe mbr lba i).lba then
        some (true, { st.call debug (probe mbr lba i) with args := record st.args (probe mbr lba i) })
      else checkEntries debug disk rec lba mbr is (st.call debug (probe mbr lba i)) := by
  simp only [isPartition, decide_eq_true_eq] at h
  rw [checkEntries, if_neg (Nat.not_le.mpr hcount)]
  dsimp only
  rw [if_neg h.1, if_neg h.2.1, if_neg h.2.2]
  rfl

/-- The partitions of one entry. -/
def entryWalk (rec : ℕ → List Probe) (lba : ℕ) (mbr : Mem) (i : ℕ) : List Probe :=
  if isLink (entry mbr i) then rec (target lba mbr i)
  else if isPartition (entry mbr i) then [probe mbr lba i] else []

/-- An unused entry is not for a table, -/
theorem isLink_of_isUnused {e : MsdosPartEntry} (h : isUnused e = true) : isLink e = false := by
  simp only [isUnused, decide_eq_true_eq] at h
  simp only [isLink, decide_eq_false_iff_not]
  exact fun hl => hl.2.1 h.2

/-- nor a partition. -/
theorem isPartition_of_isUnused {e : MsdosPartEntry} (h : isUnused e = true) :
    isPartition e = false := by
  simp only [isUnused, decide_eq_true_eq] at h
  simp only [isPartition, decide_eq_false_iff_not]
  exact fun hp => hp.2.1 h.2

/-- An unused entry gives no probe, -/
theorem entryWalk_of_isUnused (h : isUnused (entry mbr i) = true) :
    entryWalk recWalk lba mbr i = [] := by
  rw [entryWalk, isLink_of_isUnused h, isPartition_of_isUnused h]
  rfl

/-- an entry for a table those of the table, -/
theorem entryWalk_of_isLink (h : isLink (entry mbr i) = true) :
    entryWalk recWalk lba mbr i = recWalk (target lba mbr i) :=
  if_pos h

/-- and a partition its own. -/
theorem entryWalk_of_isPartition (h : isPartition (entry mbr i) = true) :
    entryWalk recWalk lba mbr i = [probe mbr lba i] := by
  rw [entryWalk, isLink_of_isPartition h, h]
  rfl

/-- The walk of a table without a dummy entry goes from entry to entry. -/
theorem walkEntries_eq_flatMap (h : ∀ j ∈ is, (entry mbr j).type ≠ msdosPartTypeGptDisk) :
    walkEntries recWalk lba mbr is = is.flatMap (entryWalk recWalk lba mbr) := by
  induction is with
  | nil => rfl
  | cons i is ih =>
      have hlive := h i List.mem_cons_self
      rw [List.flatMap_cons, ← ih fun j hj => h j (List.mem_cons_of_mem _ hj), walkEntries]
      rw [if_neg hlive]
      rcases entry_cases (entry mbr i) with hd | hu | hl | hp
      · exact absurd hd hlive
      · rw [entryWalk_of_isUnused hu, List.nil_append]
        simp only [isUnused, decide_eq_true_eq] at hu
        rw [if_pos hu.2]
      · rw [entryWalk_of_isLink hl]
        simp only [isLink, decide_eq_true_eq] at hl
        rw [if_neg hl.2.1, if_pos hl.2.2]
        rfl
      · rw [entryWalk_of_isPartition hp]
        simp only [isPartition, decide_eq_true_eq] at hp
        rw [if_neg hp.2.1, if_neg hp.2.2]
        rfl

end entries

/-! ## States -/

section states

variable {debug : Bool} {disk : DiskRead} {ps qs : List Probe} {st st' : ScanState}

/-- Probes that do not match leave the arguments. -/
@[simp] theorem ScanState.callAll_args (st : ScanState) (debug : Bool) (ps : List Probe) :
    (st.callAll debug ps).args = st.args := rfl

/-- Equation lemma: no probes. -/
theorem ScanState.callAll_nil (st : ScanState) (debug : Bool) : st.callAll debug [] = st := by
  rw [callAll, List.append_nil, List.length_nil, Nat.add_zero, ite_self]

/-- Equation lemma: one probe. -/
theorem ScanState.callAll_singleton (st : ScanState) (debug : Bool) (p : Probe) :
    st.callAll debug [p] = st.call debug p := rfl

/-- Probes one behind the other. -/
theorem ScanState.callAll_append (st : ScanState) (debug : Bool) (ps qs : List Probe) :
    st.callAll debug (ps ++ qs) = (st.callAll debug ps).callAll debug qs := by
  cases debug <;> simp [callAll, Nat.add_assoc]

/-- Probes are counted, if at all, upwards. -/
theorem ScanState.partCount_le_callAll (st : ScanState) (debug : Bool) (ps : List Probe) :
    st.partCount ≤ (st.callAll debug ps).partCount := by
  unfold callAll
  dsimp only
  split_ifs <;> omega

/-- The limit is not reached behind partitions. -/
def Room (debug : Bool) (st : ScanState) (ps : List Probe) : Prop :=
  (st.callAll debug ps).partCount < 32

/-- Room for probes is room for the first of them. -/
theorem Room.left (h : Room debug st (ps ++ qs)) : Room debug st ps := by
  unfold Room at h ⊢
  rw [ScanState.callAll_append] at h
  exact Nat.lt_of_le_of_lt (ScanState.partCount_le_callAll _ debug qs) h

/-- Where there is room, fewer than 32 are counted. -/
theorem Room.lt (h : Room debug st ps) : st.partCount < 32 :=
  Nat.lt_of_le_of_lt (st.partCount_le_callAll debug ps) h

/-- Room for probes is room for those behind the first ones. -/
theorem room_append : Room debug st (ps ++ qs) ↔ Room debug (st.callAll debug ps) qs := by
  unfold Room
  rw [ScanState.callAll_append]

/-- No probe matches exactly if none of the first and none of the others does. -/
theorem noMatch_append {args : NtArgs} :
    NoMatch disk args (ps ++ qs) ↔ NoMatch disk args ps ∧ NoMatch disk args qs :=
  List.forall_mem_append

/-- Partitions that do not match are all examined, below the limit. -/
theorem probeAll_of_room (hno : NoMatch disk st.args ps) (hroom : Room debug st ps) :
    probeAll debug disk ps st = (false, st.callAll debug ps) := by
  induction ps generalizing st with
  | nil => rw [ScanState.callAll_nil, probeAll]
  | cons p ps ih =>
      have hcall : st.callAll debug (p :: ps) = (st.call debug p).callAll debug ps :=
        st.callAll_append debug [p] ps
      rw [probeAll, if_neg (Nat.not_le.mpr hroom.lt)]
      dsimp only
      rw [if_neg (by
        rw [show (st.call debug p).args = st.args from rfl, hno p List.mem_cons_self]
        exact Bool.false_ne_true), hcall]
      refine ih (fun q hq => hno q (List.mem_cons_of_mem _ hq)) ?_
      unfold Room at hroom ⊢
      rw [← hcall]
      exact hroom

/-- A search that fails below the limit has examined all partitions. -/
theorem noMatch_of_probeAll (h : probeAll debug disk ps st = (false, st'))
    (hcount : st'.partCount < 32) : NoMatch disk st.args ps ∧ st' = st.callAll debug ps := by
  induction ps generalizing st with
  | nil =>
      cases h
      exact ⟨List.forall_mem_nil _, (ScanState.callAll_nil _ debug).symm⟩
  | cons p ps ih =>
      rw [probeAll] at h
      by_cases hfull : st.partCount ≥ 32
      · rw [if_pos hfull, Prod.mk.injEq] at h
        rw [← h.2] at hcount
        omega
      rw [if_neg hfull] at h
      dsimp only at h
      by_cases hmatch : checkFsuuid disk (st.call debug p).args p.lba = true
      · rw [if_pos hmatch] at h
        cases h
      · rw [if_neg hmatch] at h
        obtain ⟨hno, rfl⟩ := ih h
        refine ⟨?_, (st.callAll_append debug [p] ps).symm⟩
        rintro q (_ | ⟨_, hq⟩)
        · exact Bool.eq_false_iff.mpr hmatch
        · exact hno q hq

/-- The count of partitions never falls. -/
theorem partCount_le_probeAll (debug : Bool) (disk : DiskRead) (ps : List Probe) (st : ScanState) :
    st.partCount ≤ (probeAll debug disk ps st).2.partCount := by
  induction ps generalizing st with
  | nil => exact Nat.le_refl _
  | cons p ps ih =>
      have hcall := st.partCount_le_callAll debug [p]
      rw [ScanState.callAll_singleton] at hcall
      rw [probeAll]
      dsimp only
      split_ifs
      · exact Nat.le_refl _
      · exact hcall
      · exact hcall.trans (ih _)

end states

/-! ## Tables of finite depth -/

section tables

variable {debug : Bool} {disk : DiskRead} {fuel depth lba i : ℕ} {mbr : Mem} {ps : List Probe}
  {st : ScanState} {r : Bool × ScanState}

/-- The search of a table is that of its entries. -/
theorem IsTable.checkMbr_eq (h : IsTable disk lba mbr) :
    checkMbr debug disk (fuel + 1) lba st =
      checkEntries debug disk (checkMbr debug disk fuel) lba mbr (List.range msdosMaxPartitions) st := by
  rw [checkMbr, h.read]
  dsimp only
  rw [if_neg (not_not.mpr h.signature_eq)]

/-- The probes of a table are those of its entries. -/
theorem IsTable.walk_eq (h : IsTable disk lba mbr) :
    walk disk (depth + 1) lba =
      walkEntries (walk disk depth) lba mbr (List.range msdosMaxPartitions) := by
  rw [walk, h.read]
  dsimp only
  rw [if_neg (not_not.mpr h.signature_eq)]

/-- A sector without a table is not searched. -/
theorem checkMbr_of_not_isTable (h : ∀ mbr, ¬IsTable disk lba mbr) :
    checkMbr debug disk (fuel + 1) lba st = some (false, st) := by
  rw [checkMbr]
  split
  · rfl
  · rename_i mbr hread
    rw [if_pos fun hsig => h mbr ⟨hread, hsig⟩]

/-- Without a table there are no probes. -/
theorem walk_of_not_isTable (h : ∀ mbr, ¬IsTable disk lba mbr) : walk disk (depth + 1) lba = [] := by
  rw [walk]
  split
  · rfl
  · rename_i mbr hread
    rw [if_pos fun hsig => h mbr ⟨hread, hsig⟩]

/-- A search that ends is the same with more fuel for the tables, -/
theorem checkEntries_mono {rec rec' : ℕ → ScanState → Option (Bool × ScanState)} {is : List ℕ}
    (hrec : ∀ lba st r, rec lba st = some r → rec' lba st = some r)
    (h : checkEntries debug disk rec lba mbr is st = some r) :
    checkEntries debug disk rec' lba mbr is st = some r := by
  induction is generalizing st with
  | nil => exact h
  | cons i is ih =>
      by_cases hcount : st.partCount < 32
      · rcases entry_cases (entry mbr i) with hd | hu | hl | hp
        · rw [checkEntries_dummy hd] at h ⊢
          exact h
        · rw [checkEntries_unused hu] at h ⊢
          exact ih h
        · rw [checkEntries_link hcount hl] at h ⊢
          obtain ⟨⟨found, st'⟩, hcall, hrest⟩ := Option.bind_eq_some_iff.mp h
          rw [hrec _ _ _ hcall, Option.bind_some]
          cases found with
          | true => exact hrest
          | false => exact ih hrest
        · rw [checkEntries_partition hcount hp] at h ⊢
          split_ifs at h ⊢ with hmatch
          · exact h
          · exact ih h
      · rw [checkEntries_full (Nat.not_lt.mp hcount)] at h ⊢
        exact h

/-- with one round more, -/
theorem checkMbr_succ (h : checkMbr debug disk fuel lba st = some r) :
    checkMbr debug disk (fuel + 1) lba st = some r := by
  induction fuel generalizing lba st r with
  | zero => cases h
  | succ fuel ih =>
      by_cases htable : ∃ mbr, IsTable disk lba mbr
      · obtain ⟨mbr, hmbr⟩ := htable
        rw [hmbr.checkMbr_eq] at h ⊢
        exact checkEntries_mono (fun _ _ _ => ih) h
      · rw [checkMbr_of_not_isTable (not_exists.mp htable)] at h ⊢
        exact h

/-- and with any more. -/
theorem checkMbr_mono {fuel' : ℕ} (hle : fuel ≤ fuel')
    (h : checkMbr debug disk fuel lba st = some r) : checkMbr debug disk fuel' lba st = some r := by
  induction hle with
  | refl => exact h
  | step _ ih => exact checkMbr_succ ih

/-- What ends within a depth ends within the next one, -/
theorem Ends.succ (h : Ends disk depth lba) : Ends disk (depth + 1) lba := by
  induction depth generalizing lba with
  | zero => cases h
  | succ depth ih => exact fun mbr hmbr i hi => ih (h mbr hmbr i hi)

/-- and within any greater one. -/
theorem Ends.mono {depth' : ℕ} (hle : depth ≤ depth') (h : Ends disk depth lba) :
    Ends disk depth' lba := by
  induction hle with
  | refl => exact h
  | step _ ih => exact ih.succ

/-- An entry is reached exactly if the one before it is, and is not protective. -/
theorem live_succ : Live mbr (i + 1) ↔ Live mbr i ∧ (entry mbr i).type ≠ msdosPartTypeGptDisk := by
  unfold Live
  rw [Nat.forall_lt_succ_right]

/-- The entries from one on are that one and those behind it. -/
theorem range'_cons (h : i < msdosMaxPartitions) :
    List.range' i (msdosMaxPartitions - i) =
      i :: List.range' (i + 1) (msdosMaxPartitions - (i + 1)) := by
  rw [show msdosMaxPartitions - i = msdosMaxPartitions - (i + 1) + 1 by omega, List.range'_succ]

/-- The walk of a table depends on what the links in front of a dummy entry refer to. -/
theorem walkEntries_congr {rec rec' : ℕ → List Probe}
    (h : ∀ i, LinkAt mbr i → rec (target lba mbr i) = rec' (target lba mbr i)) :
    walkEntries rec lba mbr (List.range msdosMaxPartitions) =
      walkEntries rec' lba mbr (List.range msdosMaxPartitions) := by
  have hall : ∀ n i, i + n = msdosMaxPartitions → Live mbr i →
      walkEntries rec lba mbr (List.range' i n) = walkEntries rec' lba mbr (List.range' i n) := by
    intro n
    induction n with
    | zero => exact fun _ _ _ => rfl
    | succ n ih =>
        intro i hi hlive
        rw [List.range'_succ, walkEntries, walkEntries]
        split_ifs with hdummy hempty hext
        · rfl
        · exact ih (i + 1) (by omega) (live_succ.mpr ⟨hlive, hdummy⟩)
        · rw [ih (i + 1) (by omega) (live_succ.mpr ⟨hlive, hdummy⟩)]
          refine congrArg (· ++ _) (h i ⟨by omega, hlive, ?_⟩)
          simp only [isLink, decide_eq_true_eq]
          exact ⟨hdummy, hempty, hext⟩
        · rw [ih (i + 1) (by omega) (live_succ.mpr ⟨hlive, hdummy⟩)]
  rw [List.range_eq_range']
  exact hall _ 0 (Nat.zero_add _) fun j hj => absurd hj (Nat.not_lt_zero j)

/-- The walk does not go deeper than the tables. -/
theorem walk_of_ends {depth' : ℕ} (h : Ends disk depth lba) (hle : depth ≤ depth') :
    walk disk depth' lba = walk disk depth lba := by
  have hsucc : ∀ depth lba, Ends disk depth lba → walk disk (depth + 1) lba = walk disk depth lba := by
    intro depth
    induction depth with
    | zero => exact fun _ h => h.elim
    | succ depth ih =>
        intro lba h
        by_cases htable : ∃ mbr, IsTable disk lba mbr
        · obtain ⟨mbr, hmbr⟩ := htable
          rw [hmbr.walk_eq, hmbr.walk_eq]
          exact walkEntries_congr fun i hi => ih _ (h mbr hmbr i hi)
        · rw [walk_of_not_isTable (not_exists.mp htable), walk_of_not_isTable (not_exists.mp htable)]
  induction hle with
  | refl => rfl
  | step hle ih => rw [hsucc _ _ (h.mono hle), ih]

/-- The loop ends if the calls for the links do. -/
theorem checkEntries_isSome_of_linkAt {rec : ℕ → ScanState → Option (Bool × ScanState)}
    (h : ∀ i, LinkAt mbr i → ∀ st, (rec (target lba mbr i) st).isSome) (st : ScanState) :
    (checkEntries debug disk rec lba mbr (List.range msdosMaxPartitions) st).isSome := by
  have hall : ∀ n i st, i + n = msdosMaxPartitions → Live mbr i →
      (checkEntries debug disk rec lba mbr (List.range' i n) st).isSome := by
    intro n
    induction n with
    | zero => exact fun _ _ _ _ => rfl
    | succ n ih =>
        intro i st hi hlive
        rw [List.range'_succ]
        by_cases hcount : st.partCount < 32
        · by_cases hdummy : (entry mbr i).type = msdosPartTypeGptDisk
          · rw [checkEntries_dummy hdummy]
            rfl
          · have hrest st := ih (i + 1) st (by omega) (live_succ.mpr ⟨hlive, hdummy⟩)
            rcases (entry_cases (entry mbr i)).resolve_left hdummy with hu | hl | hp
            · rw [checkEntries_unused hu]
              exact hrest st
            · obtain ⟨⟨found, st'⟩, hcall⟩ :=
                Option.isSome_iff_exists.mp (h i ⟨by omega, hlive, hl⟩ st)
              rw [checkEntries_link hcount hl, hcall, Option.bind_some]
              cases found with
              | true => rfl
              | false => exact hrest st'
            · rw [checkEntries_partition hcount hp]
              split_ifs
              · rfl
              · exact hrest _
        · rw [checkEntries_full (Nat.not_lt.mp hcount)]
          rfl
  rw [List.range_eq_range']
  exact hall _ 0 st (Nat.zero_add _) fun j hj => absurd hj (Nat.not_lt_zero j)

/-- The search of a table of finite depth examines the partitions of its walk. -/
theorem Ends.eq_probeAll (hends : Ends disk depth lba)
    (h : checkMbr debug disk fuel lba st = some r) :
    r = probeAll debug disk (walk disk depth lba) st := by
  have hmax := checkMbr_eq (checkMbr_mono (Nat.le_max_left fuel depth) h)
  rw [hmax, walk_of_ends hends (Nat.le_max_right fuel depth)]

/-- The search of a table of finite depth ends. -/
theorem Ends.isSome (h : Ends disk depth lba) (hle : depth ≤ fuel) :
    (checkMbr debug disk fuel lba st).isSome := by
  have hall : ∀ depth lba st, Ends disk depth lba → (checkMbr debug disk depth lba st).isSome := by
    intro depth
    induction depth with
    | zero => exact fun _ _ h => h.elim
    | succ depth ih =>
        intro lba st h
        by_cases htable : ∃ mbr, IsTable disk lba mbr
        · obtain ⟨mbr, hmbr⟩ := htable
          rw [hmbr.checkMbr_eq]
          exact checkEntries_isSome_of_linkAt (fun i hi st => ih _ st (h mbr hmbr i hi)) st
        · rw [checkMbr_of_not_isTable (not_exists.mp htable)]
          rfl
  obtain ⟨r, hr⟩ := Option.isSome_iff_exists.mp (hall depth lba st h)
  rw [checkMbr_mono hle hr]
  rfl

/-! ## The way to an entry -/

/-- In front of the first entry no probe has been made. -/
theorem IsTable.ahead_zero (h : IsTable disk lba mbr) (depth : ℕ) : Ahead disk depth lba mbr 0 [] where
  table := h
  le := Nat.zero_le _
  live j hj := absurd hj (Nat.not_lt_zero j)
  ends j hj := absurd hj (Nat.not_lt_zero j)
  eq := rfl

/-- One more entry is behind. -/
theorem Ahead.succ (h : Ahead disk depth lba mbr i ps) (hi : i < msdosMaxPartitions)
    (hlive : (entry mbr i).type ≠ msdosPartTypeGptDisk)
    (hends : isLink (entry mbr i) = true → Ends disk depth (target lba mbr i)) :
    Ahead disk depth lba mbr (i + 1) (ps ++ entryWalk (walk disk depth) lba mbr i) where
  table := h.table
  le := hi
  live := live_succ.mpr ⟨h.live, hlive⟩
  ends j hj := by
    rcases Nat.lt_succ_iff_lt_or_eq.mp hj with hj | rfl
    · exact h.ends j hj
    · exact hends
  eq := by
    have hsucc := live_succ.mpr ⟨h.live, hlive⟩
    rw [h.eq, walkEntries_eq_flatMap fun j hj => hsucc j (List.mem_range.mp hj),
      walkEntries_eq_flatMap fun j hj => h.live j (List.mem_range.mp hj), List.range_succ,
      List.flatMap_append, List.flatMap_singleton]

/-- The entry in front of an entry. -/
theorem Ahead.pred (h : Ahead disk depth lba mbr (i + 1) ps) :
    ∃ qs, Ahead disk depth lba mbr i qs ∧ ps = qs ++ entryWalk (walk disk depth) lba mbr i := by
  have hlive := live_succ.mp h.live
  refine ⟨_, ⟨h.table, Nat.le_of_succ_le h.le, hlive.1, fun j hj => h.ends j (Nat.lt_succ_of_lt hj),
    rfl⟩, ?_⟩
  rw [h.eq, walkEntries_eq_flatMap fun j hj => h.live j (List.mem_range.mp hj),
    walkEntries_eq_flatMap fun j hj => hlive.1 j (List.mem_range.mp hj), List.range_succ,
    List.flatMap_append, List.flatMap_singleton]

/-- A search in which nothing in front of an entry matches comes to the entry, if the search returns
or has fuel for the tables in front of it. -/
theorem checkMbr_ahead (h : Ahead disk depth lba mbr i ps) (hno : NoMatch disk st.args ps)
    (hroom : Room debug st ps)
    (hfuel : (checkMbr debug disk (fuel + 1) lba st).isSome ∨ depth ≤ fuel) :
    checkMbr debug disk (fuel + 1) lba st =
      checkEntries debug disk (checkMbr debug disk fuel) lba mbr
        (List.range' i (msdosMaxPartitions - i)) (st.callAll debug ps) := by
  induction i generalizing ps with
  | zero =>
      rw [h.table.checkMbr_eq, List.range_eq_range', h.eq]
      exact congrArg (checkEntries _ _ _ _ _ _) (st.callAll_nil debug).symm
  | succ i ih =>
      obtain ⟨qs, hqs, rfl⟩ := h.pred
      have hi : i < msdosMaxPartitions := h.le
      have hcount : (st.callAll debug qs).partCount < 32 := hroom.left
      have hih := ih hqs (noMatch_append.mp hno).1 hroom.left
      rw [hih, range'_cons hi]
      rcases entry_cases (entry mbr i) with hd | hu | hl | hp
      · exact absurd hd (h.live i (Nat.lt_succ_self i))
      · rw [checkEntries_unused hu, entryWalk_of_isUnused hu, List.append_nil]
      · -- the tables below the link are searched to the end
        have hends := h.ends i (Nat.lt_succ_self i) hl
        have hsome : (checkMbr debug disk fuel (target lba mbr i) (st.callAll debug qs)).isSome := by
          rcases hfuel with hsome | hle
          · rw [hih, range'_cons hi, checkEntries_link hcount hl] at hsome
            obtain ⟨r, hr⟩ := Option.isSome_iff_exists.mp hsome
            obtain ⟨r', hr', -⟩ := Option.bind_eq_some_iff.mp hr
            rw [hr']
            rfl
          · exact hends.isSome hle
        obtain ⟨r, hr⟩ := Option.isSome_iff_exists.mp hsome
        rw [entryWalk_of_isLink hl] at hno hroom ⊢
        have hno' : NoMatch disk (st.callAll debug qs).args _ := (noMatch_append.mp hno).2
        have hval := hends.eq_probeAll hr
        rw [probeAll_of_room hno' (room_append.mp hroom)] at hval
        rw [checkEntries_link hcount hl, hr, Option.bind_some, hval, st.callAll_append]
        rfl
      · rw [entryWalk_of_isPartition hp] at hno hroom ⊢
        have hmatch := (noMatch_append.mp hno).2 _ List.mem_cons_self
        rw [checkEntries_partition hcount hp, if_neg (by
          rw [ScanState.callAll_args, hmatch]
          exact Bool.false_ne_true), st.callAll_append]
        rfl

end tables

end Ntloader.Disk
