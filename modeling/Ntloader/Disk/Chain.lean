import Ntloader.Disk.Identity

/-!
# Logical partitions

The logical partitions of a disk are in a chain of EBRs. The start of a logical partition is relative
to its EBR, the link to the next EBR is relative to the extended partition. The search adds every
start to the table it is in.

* `MbrDisk`, `EbrChain` — a disk with an extended partition, and the chain in it.
* `probeAll_of_not_match` — partitions that do not match are all examined.
* `EbrChain.table_ne` — the EBRs of a chain are different sectors.
* `allCalled_iff` — when all logical partitions are examined.
* `MbrDisk.isSome` — the search of a disk with at most two EBRs ends.
-/

namespace Ntloader.Disk

open Ntloader.Lib Ntloader.Posix Ntloader.Kern

/-! ## The format -/

/-- An entry that holds nothing. -/
def isUnused (e : MsdosPartEntry) : Bool :=
  e.type ≠ msdosPartTypeGptDisk ∧ (e.length = 0 ∨ msdosPartIsEmpty e.type)

/-- An entry of an extended partition, or of a link. -/
def isLink (e : MsdosPartEntry) : Bool :=
  e.type ≠ msdosPartTypeGptDisk ∧ ¬(e.length = 0 ∨ msdosPartIsEmpty e.type) ∧
    msdosPartIsExtended e.type

/-- An entry of a partition. -/
def isPartition (e : MsdosPartEntry) : Bool :=
  e.type ≠ msdosPartTypeGptDisk ∧ ¬(e.length = 0 ∨ msdosPartIsEmpty e.type) ∧
    ¬msdosPartIsExtended e.type

/-- The numbers of the entries that are used. -/
def usedEntries (mbr : Mem) : List ℕ :=
  (List.range msdosMaxPartitions).filter fun i => !isUnused (entry mbr i)

/-- A sector with a table. -/
structure IsTable (disk : DiskRead) (lba : ℕ) (mbr : Mem) : Prop where
  read : disk lba = some mbr
  signature_eq : signature mbr = msdosPartSignature

/-- A disk with an extended partition at sector `ext`, and with primary partitions in the entries
before and after it. -/
structure MbrDisk (disk : DiskRead) (mbr : Mem) (ext : ℕ) (before after : List ℕ) : Prop where
  table : IsTable disk 0 mbr
  used : ∃ i, usedEntries mbr = before ++ i :: after ∧ isLink (entry mbr i) = true ∧
    (entry mbr i).start = ext
  primary : ∀ i ∈ before ++ after, isPartition (entry mbr i) = true
  pos : 0 < ext

/-- A chain of EBRs from a sector on, in an extended partition at sector `ext`: the logical
partitions. -/
inductive EbrChain (disk : DiskRead) (ext : ℕ) : ℕ → List Probe → Prop
  | last {lba i : ℕ} {mbr : Mem} : IsTable disk lba mbr → usedEntries mbr = [i] →
      isPartition (entry mbr i) = true → EbrChain disk ext lba [probe mbr lba i]
  | link {lba i j : ℕ} {mbr : Mem} {ps : List Probe} : IsTable disk lba mbr →
      usedEntries mbr = [i, j] → isPartition (entry mbr i) = true → isLink (entry mbr j) = true →
      EbrChain disk ext (ext + (entry mbr j).start) ps →
      EbrChain disk ext lba (probe mbr lba i :: ps)

/-- A partition is no link. -/
theorem isLink_of_isPartition {e : MsdosPartEntry} (h : isPartition e = true) : isLink e = false := by
  simp only [isPartition, decide_eq_true_eq] at h
  simp only [isLink, decide_eq_false_iff_not]
  exact fun hl => h.2.2 hl.2.2

/-! ## Partitions that do not match -/

/-- The state when `check_fsuuid` has been called for partitions. -/
def ScanState.callAll (st : ScanState) (debug : Bool) (ps : List Probe) : ScanState :=
  ⟨if debug then st.partCount + ps.length else st.partCount, st.args, st.log ++ ps⟩

/-- Partitions that do not match are all examined, and the search goes on behind them. -/
theorem probeAll_of_not_match {debug : Bool} {disk : DiskRead} {ps : List Probe} {st : ScanState}
    (hcount : st.partCount + ps.length ≤ 32)
    (h : ∀ p ∈ ps, checkFsuuid disk st.args p.lba = false) (qs : List Probe) :
    probeAll debug disk (ps ++ qs) st = probeAll debug disk qs (st.callAll debug ps) := by
  induction ps generalizing st with
  | nil =>
      have hst : st.callAll debug [] = st := by
        rw [ScanState.callAll, List.append_nil, List.length_nil, Nat.add_zero, ite_self]
      rw [List.nil_append, hst]
  | cons p ps ih =>
      rw [List.length_cons] at hcount
      have hp := h p List.mem_cons_self
      have hst : (st.call debug p).callAll debug ps = st.callAll debug (p :: ps) := by
        cases debug
        · simp [ScanState.callAll, ScanState.call]
        · simp [ScanState.callAll, ScanState.call, Nat.add_assoc, Nat.add_comm 1]
      have hargs : (st.call debug p).args = st.args := rfl
      have hnext : (st.call debug p).partCount ≤ st.partCount + 1 := by
        rw [ScanState.call]
        dsimp only
        split_ifs <;> omega
      rw [List.cons_append, probeAll, if_neg (by omega)]
      dsimp only
      rw [hargs, hp, if_neg Bool.false_ne_true, ← hst]
      exact ih (by omega) fun q hq => h q (List.mem_cons_of_mem _ hq)

/-- What has been examined before stays in front. -/
theorem probeAll_log (debug : Bool) (disk : DiskRead) (ps : List Probe) (st : ScanState) :
    (probeAll debug disk ps st).2.log =
      st.log ++ (probeAll debug disk ps ⟨st.partCount, st.args, []⟩).2.log := by
  induction ps generalizing st with
  | nil => rw [probeAll, probeAll, List.append_nil]
  | cons p ps ih =>
      rw [probeAll, probeAll]
      by_cases hfull : st.partCount ≥ 32
      · rw [if_pos hfull, if_pos hfull, List.append_nil]
      · rw [if_neg hfull, if_neg hfull]
        dsimp only [ScanState.call]
        by_cases hmatch : checkFsuuid disk st.args p.lba = true
        · rw [if_pos hmatch, if_pos hmatch, List.nil_append]
        · rw [if_neg hmatch, if_neg hmatch, ih, ih ⟨_, _, [] ++ [p]⟩, List.nil_append,
            List.append_assoc]

/-- A partition is examined if no partition in front of it matches. -/
theorem mem_probeAll {debug : Bool} {disk : DiskRead} {ps : List Probe} {p : Probe}
    {st : ScanState} (hcount : st.partCount + ps.length < 32)
    (h : ∀ p ∈ ps, checkFsuuid disk st.args p.lba = false) (qs : List Probe) :
    p ∈ (probeAll debug disk (ps ++ p :: qs) st).2.log := by
  have hle : (st.callAll debug ps).partCount ≤ st.partCount + ps.length := by
    rw [ScanState.callAll]
    dsimp only
    split_ifs <;> omega
  have hp : p ∈ ((st.callAll debug ps).call debug p).log :=
    List.mem_append_right _ List.mem_cons_self
  rw [probeAll_of_not_match (Nat.le_of_lt hcount) h, probeAll, if_neg (by omega)]
  dsimp only
  split_ifs with hmatch
  · exact hp
  · rw [probeAll_log]
    exact List.mem_append_left _ hp

/-- What is examined is one of the partitions. -/
theorem probeAll_log_subset (debug : Bool) (disk : DiskRead) (ps : List Probe) (st : ScanState) :
    ∀ p ∈ (probeAll debug disk ps st).2.log, p ∈ st.log ∨ p ∈ ps := by
  intro p hp
  induction ps generalizing st with
  | nil => exact Or.inl hp
  | cons q ps ih =>
      rw [probeAll] at hp
      have hcall : p ∈ (st.call debug q).log → p ∈ st.log ∨ p ∈ q :: ps := fun h => by
        rcases List.mem_append.mp h with h | h
        · exact Or.inl h
        · exact Or.inr (List.mem_cons.mpr (Or.inl (List.mem_singleton.mp h)))
      dsimp only at hp
      split_ifs at hp with hfull hmatch
      · exact Or.inl hp
      · exact hcall hp
      · rcases ih _ hp with h | h
        · exact hcall h
        · exact Or.inr (List.mem_cons_of_mem _ h)

/-! ## The walk through the chain -/

/-- The entries of a table that are used decide its partitions. -/
theorem walkEntries_eq {rec : ℕ → List Probe} {startLba : ℕ} {mbr : Mem} {is : List ℕ}
    (h : ∀ i ∈ is.filter fun i => !isUnused (entry mbr i),
      isPartition (entry mbr i) = true ∨ isLink (entry mbr i) = true) :
    walkEntries rec startLba mbr is =
      (is.filter fun i => !isUnused (entry mbr i)).flatMap fun i =>
        if isLink (entry mbr i) then rec ((startLba + (entry mbr i).start) % 2 ^ 32)
        else [probe mbr startLba i] := by
  induction is with
  | nil => rfl
  | cons i is ih =>
      rw [walkEntries]
      by_cases hunused : isUnused (entry mbr i) = true
      · have hfilter : (i :: is).filter (fun i => !isUnused (entry mbr i)) =
            is.filter fun i => !isUnused (entry mbr i) :=
          List.filter_cons_of_neg (by simp [hunused])
        rw [hfilter] at h ⊢
        simp only [isUnused, decide_eq_true_eq] at hunused
        rw [if_neg hunused.1, if_pos hunused.2]
        exact ih h
      · have hfilter : (i :: is).filter (fun i => !isUnused (entry mbr i)) =
            i :: is.filter fun i => !isUnused (entry mbr i) :=
          List.filter_cons_of_pos (by simp [hunused])
        rw [hfilter] at h ⊢
        have hrest := ih fun j hj => h j (List.mem_cons_of_mem _ hj)
        rw [List.flatMap_cons, ← hrest]
        rcases h i List.mem_cons_self with hi | hi
        · rw [isLink_of_isPartition hi, if_neg Bool.false_ne_true]
          simp only [isPartition, decide_eq_true_eq] at hi
          rw [if_neg hi.1, if_neg hi.2.1, if_neg hi.2.2]
          rfl
        · rw [if_pos hi]
          simp only [isLink, decide_eq_true_eq] at hi
          rw [if_neg hi.1, if_neg hi.2.1, if_pos hi.2.2]

/-- The probes of a table without a dummy entry are those of its used entries. -/
theorem walk_table {disk : DiskRead} {lba : ℕ} {mbr : Mem} (h : IsTable disk lba mbr)
    (hused : ∀ i ∈ usedEntries mbr, isPartition (entry mbr i) = true ∨ isLink (entry mbr i) = true)
    (depth : ℕ) :
    walk disk (depth + 1) lba =
      (usedEntries mbr).flatMap fun i =>
        if isLink (entry mbr i) then walk disk depth ((lba + (entry mbr i).start) % 2 ^ 32)
        else [probe mbr lba i] := by
  rw [walk, h.read]
  dsimp only
  rw [if_neg (not_not.mpr h.signature_eq)]
  exact walkEntries_eq hused

/-- The walk of a disk with an extended partition. -/
theorem MbrDisk.walk_eq {disk : DiskRead} {mbr : Mem} {ext : ℕ} {before after : List ℕ}
    (h : MbrDisk disk mbr ext before after) (depth : ℕ) :
    walk disk (depth + 1) 0 =
      before.map (probe mbr 0) ++ (walk disk depth ext ++ after.map (probe mbr 0)) := by
  obtain ⟨i, hused, hlink, hstart⟩ := h.used
  have hext : ext < 2 ^ 32 := hstart ▸ Mem.word_lt mbr _ 4
  have hprimary : ∀ is : List ℕ, (∀ j ∈ is, isPartition (entry mbr j) = true) →
      (is.flatMap fun j => if isLink (entry mbr j) then
        walk disk depth ((0 + (entry mbr j).start) % 2 ^ 32) else [probe mbr 0 j]) =
      is.map (probe mbr 0) := by
    intro is his
    induction is with
    | nil => rfl
    | cons j is ih =>
        rw [List.flatMap_cons, List.map_cons, isLink_of_isPartition (his j List.mem_cons_self),
          if_neg Bool.false_ne_true, ih fun k hk => his k (List.mem_cons_of_mem _ hk)]
        rfl
  rw [walk_table h.table, hused, List.flatMap_append, List.flatMap_cons, hlink, if_pos rfl, hstart,
    Nat.zero_add, Nat.mod_eq_of_lt hext,
    hprimary before fun j hj => h.primary j (List.mem_append_left _ hj),
    hprimary after fun j hj => h.primary j (List.mem_append_right _ hj)]
  intro j hj
  rw [hused, List.mem_append, List.mem_cons] at hj
  rcases hj with hj | rfl | hj
  · exact Or.inl (h.primary j (List.mem_append_left _ hj))
  · exact Or.inr hlink
  · exact Or.inl (h.primary j (List.mem_append_right _ hj))

/-- The first partition of a chain is in the first EBR. -/
theorem EbrChain.table_eq {disk : DiskRead} {ext lba : ℕ} {p : Probe} {ps : List Probe}
    (h : EbrChain disk ext lba (p :: ps)) : p.table = lba := by
  cases h <;> rfl

/-- The last EBR. -/
theorem EbrChain.walk_last {disk : DiskRead} {ext lba : ℕ} {p : Probe}
    (h : EbrChain disk ext lba [p]) (depth : ℕ) : walk disk (depth + 1) lba = [p] := by
  cases h with
  | last htable hused hpart =>
      rw [walk_table htable, hused, List.flatMap_singleton, isLink_of_isPartition hpart,
        if_neg Bool.false_ne_true]
      intro i hi
      rw [hused, List.mem_singleton] at hi
      exact Or.inl (hi ▸ hpart)
  | link _ _ _ _ hnext => cases hnext

/-- An EBR with a link: the search adds the link to the EBR. -/
theorem EbrChain.walk_link {disk : DiskRead} {ext lba : ℕ} {p q : Probe} {ps : List Probe}
    (h : EbrChain disk ext lba (p :: q :: ps)) (depth : ℕ) :
    walk disk (depth + 1) lba = p :: walk disk depth ((lba + (q.table - ext)) % 2 ^ 32) := by
  cases h with
  | link htable hused hpart hlink hnext =>
      rw [walk_table htable, hused, List.flatMap_cons, List.flatMap_singleton,
        isLink_of_isPartition hpart, if_neg Bool.false_ne_true, hlink, if_pos rfl,
        hnext.table_eq, Nat.add_sub_cancel_left]
      · rfl
      · intro i hi
        rw [hused, List.mem_cons, List.mem_singleton] at hi
        rcases hi with rfl | rfl
        · exact Or.inl hpart
        · exact Or.inr hlink

/-- The chain behind an EBR is a chain. -/
theorem EbrChain.tail {disk : DiskRead} {ext lba : ℕ} {p q : Probe} {ps : List Probe}
    (h : EbrChain disk ext lba (p :: q :: ps)) :
    EbrChain disk ext q.table (q :: ps) ∧ ext ≤ q.table := by
  cases h with
  | link _ _ _ _ hnext =>
      rw [hnext.table_eq]
      exact ⟨hnext, Nat.le_add_right _ _⟩

/-- A sector begins one chain only. -/
theorem EbrChain.unique {disk : DiskRead} {ext lba : ℕ} {ps qs : List Probe}
    (h : EbrChain disk ext lba ps) (h' : EbrChain disk ext lba qs) : ps = qs := by
  induction h generalizing qs with
  | last htable hused hpart =>
      cases h' with
      | last htable' hused' hpart' =>
          cases htable.read.symm.trans htable'.read
          rw [hused, List.cons.injEq] at hused'
          rw [hused'.1]
      | link htable' hused' _ _ _ =>
          cases htable.read.symm.trans htable'.read
          rw [hused] at hused'
          cases hused'
  | link htable hused _ _ _ ih =>
      cases h' with
      | last htable' hused' _ =>
          cases htable.read.symm.trans htable'.read
          rw [hused] at hused'
          cases hused'
      | link htable' hused' _ _ hnext' =>
          cases htable.read.symm.trans htable'.read
          rw [hused, List.cons.injEq, List.cons.injEq] at hused'
          obtain ⟨rfl, rfl, -⟩ := hused'
          rw [ih hnext']

/-- A partition of a chain begins the rest of the chain. -/
theorem EbrChain.suffix {disk : DiskRead} {ext lba : ℕ} {pre post : List Probe} {p : Probe}
    (h : EbrChain disk ext lba (pre ++ p :: post)) : EbrChain disk ext p.table (p :: post) := by
  induction pre generalizing lba with
  | nil =>
      rw [List.nil_append] at h
      rw [h.table_eq]
      exact h
  | cons q pre ih =>
      cases pre with
      | nil => exact h.tail.1
      | cons r pre => exact ih h.tail.1

/-- The EBRs of a chain are different sectors. -/
theorem EbrChain.table_ne {disk : DiskRead} {ext lba : ℕ} {pre mid post : List Probe} {p q : Probe}
    (h : EbrChain disk ext lba (pre ++ q :: (mid ++ p :: post))) : p.table ≠ q.table := by
  intro heq
  have hq := h.suffix
  have hp : EbrChain disk ext p.table (p :: post) := by
    have hassoc : pre ++ q :: (mid ++ p :: post) = (pre ++ q :: mid) ++ p :: post := by simp
    rw [hassoc] at h
    exact h.suffix
  rw [heq] at hp
  have hlen := congrArg List.length (hp.unique hq)
  simp only [List.length_cons, List.length_append] at hlen
  omega

/-- The EBRs are in the extended partition. -/
theorem EbrChain.le_table {disk : DiskRead} {ext : ℕ} {pre post : List Probe} {p : Probe}
    (h : EbrChain disk ext ext (pre ++ p :: post)) : ext ≤ p.table := by
  cases hpre : pre.reverse with
  | nil =>
      rw [List.reverse_eq_nil_iff.mp hpre] at h
      exact Nat.le_of_eq h.table_eq.symm
  | cons q qs =>
      have hq : pre = qs.reverse ++ [q] := by
        rw [← List.reverse_reverse pre, hpre, List.reverse_cons]
      rw [hq, List.append_assoc, List.singleton_append] at h
      exact h.suffix.tail.2

/-! ## Where the search goes -/

/-- No partition of a list matches. -/
def NoMatch (disk : DiskRead) (args : NtArgs) (ps : List Probe) : Prop :=
  ∀ p ∈ ps, checkFsuuid disk args p.lba = false

/-- The sector the search goes to for the third EBR: its link is added to the second EBR. -/
def thirdTable (ext : ℕ) : List Probe → ℕ
  | _ :: q :: r :: _ => (q.table + (r.table - ext)) % 2 ^ 32
  | _ => 0

/-- The partitions that a search from a sector examines, when a number of them has been counted. -/
def calledFrom (debug : Bool) (disk : DiskRead) (args : NtArgs) (fuel count lba : ℕ) : List Probe :=
  (probeAll debug disk (walk disk fuel lba) ⟨if debug then count else 0, args, []⟩).2.log

/-- Every logical partition with no match in front of it is examined, at the sector where it starts.
`primary` are the primary partitions in front of the extended one. -/
def AllCalled (disk : DiskRead) (args : NtArgs) (primary ps log : List Probe) : Prop :=
  ∀ pre p post, ps = pre ++ p :: post → NoMatch disk args (primary ++ pre) →
    p ∈ log ∧ p.lba = p.table + p.start

/-- Every logical partition with no match in front of it starts below 2^32; and from the third one
on, what lies at the sector that the search goes to instead of the third EBR leads to it. -/
def AllReached (debug : Bool) (disk : DiskRead) (args : NtArgs) (primary ps : List Probe)
    (ext fuel : ℕ) : Prop :=
  ∀ pre p post, ps = pre ++ p :: post → NoMatch disk args (primary ++ pre) →
    p.table + p.start < 2 ^ 32 ∧
      (pre.length < 2 ∨
        p ∈ calledFrom debug disk args fuel (primary.length + 2) (thirdTable ext ps))

/-- Partitions that are not among others are not examined with them. -/
theorem mem_log_append_iff {debug : Bool} {disk : DiskRead} {ps qs : List Probe} {p : Probe}
    (hp : p ∉ qs) (st : ScanState) :
    p ∈ (probeAll debug disk (ps ++ qs) st).2.log ↔ p ∈ (probeAll debug disk ps st).2.log := by
  rw [probeAll_append]
  split_ifs with hfound
  · rfl
  · constructor
    · intro h
      exact (probeAll_log_subset _ _ _ _ p h).resolve_right hp
    · intro h
      rw [probeAll_log]
      exact List.mem_append_left _ h

/-- Behind the second EBR, a partition is examined if it is found from the wrong sector. -/
theorem mem_log_iff_calledFrom {debug : Bool} {disk : DiskRead} {mbr : Mem} {ext depth : ℕ}
    {before after : List ℕ} {args : NtArgs} {p q r : Probe} {ps : List Probe}
    (hdisk : MbrDisk disk mbr ext before after) (hchain : EbrChain disk ext ext (p :: q :: r :: ps))
    (hcount : before.length + 2 ≤ 32) (hq : q.table < 2 ^ 32)
    (hno : NoMatch disk args (before.map (probe mbr 0) ++ [p, q])) {t : Probe}
    (ht : t ∉ before.map (probe mbr 0) ++ [p, q]) (ht' : t ∉ after.map (probe mbr 0)) :
    t ∈ (probeAll debug disk (walk disk (depth + 3) 0) ⟨0, args, []⟩).2.log ↔
      t ∈ calledFrom debug disk args depth (before.length + 2)
        (thirdTable ext (p :: q :: r :: ps)) := by
  have hwalk : walk disk (depth + 3) 0 = (before.map (probe mbr 0) ++ [p, q]) ++
      (walk disk depth (thirdTable ext (p :: q :: r :: ps)) ++ after.map (probe mbr 0)) := by
    have hnext := hchain.tail.2
    rw [hdisk.walk_eq, hchain.walk_link, Nat.add_sub_cancel' hnext, Nat.mod_eq_of_lt hq,
      hchain.tail.1.walk_link, thirdTable]
    simp
  have hlen : (before.map (probe mbr 0) ++ [p, q]).length = before.length + 2 := by simp
  have hcall : (⟨0, args, []⟩ : ScanState).callAll debug (before.map (probe mbr 0) ++ [p, q]) =
      ⟨if debug then before.length + 2 else 0, args, before.map (probe mbr 0) ++ [p, q]⟩ := by
    rw [ScanState.callAll, hlen]
    simp
  rw [hwalk, @probeAll_of_not_match _ _ _ ⟨0, args, []⟩ (by rw [hlen, Nat.zero_add]; exact hcount)
      hno, hcall,
    mem_log_append_iff ht', probeAll_log, List.mem_append, or_iff_right ht, calledFrom]

/-- The first logical partition is examined if no partition in front of it matches. -/
theorem mem_log_first {debug : Bool} {disk : DiskRead} {mbr : Mem} {ext depth : ℕ}
    {before after : List ℕ} {args : NtArgs} {p : Probe} {ps : List Probe}
    (hdisk : MbrDisk disk mbr ext before after) (hchain : EbrChain disk ext ext (p :: ps))
    (hcount : before.length < 32) (hno : NoMatch disk args (before.map (probe mbr 0))) :
    p ∈ (probeAll debug disk (walk disk (depth + 2) 0) ⟨0, args, []⟩).2.log := by
  obtain ⟨rest, hrest⟩ : ∃ rest, walk disk (depth + 1) ext = p :: rest := by
    cases ps with
    | nil => exact ⟨[], hchain.walk_last depth⟩
    | cons q ps => exact ⟨_, hchain.walk_link depth⟩
  rw [hdisk.walk_eq, hrest, List.cons_append]
  refine @mem_probeAll _ _ _ _ ⟨0, args, []⟩ ?_ hno _
  rw [List.length_map, Nat.zero_add]
  exact hcount

/-- The second one is, too: its EBR is linked to the first one. -/
theorem mem_log_second {debug : Bool} {disk : DiskRead} {mbr : Mem} {ext depth : ℕ}
    {before after : List ℕ} {args : NtArgs} {p q : Probe} {ps : List Probe}
    (hdisk : MbrDisk disk mbr ext before after) (hchain : EbrChain disk ext ext (p :: q :: ps))
    (hcount : before.length + 1 < 32) (hq : q.table < 2 ^ 32)
    (hno : NoMatch disk args (before.map (probe mbr 0) ++ [p])) :
    q ∈ (probeAll debug disk (walk disk (depth + 3) 0) ⟨0, args, []⟩).2.log := by
  obtain ⟨rest, hrest⟩ : ∃ rest, walk disk (depth + 1) q.table = q :: rest := by
    cases ps with
    | nil => exact ⟨[], hchain.tail.1.walk_last depth⟩
    | cons r ps => exact ⟨_, hchain.tail.1.walk_link depth⟩
  have hwalk : walk disk (depth + 3) 0 =
      (before.map (probe mbr 0) ++ [p]) ++ q :: (rest ++ after.map (probe mbr 0)) := by
    rw [hdisk.walk_eq, hchain.walk_link, Nat.add_sub_cancel' hchain.tail.2, Nat.mod_eq_of_lt hq,
      hrest]
    simp
  rw [hwalk]
  refine @mem_probeAll _ _ _ _ ⟨0, args, []⟩ ?_ hno _
  rw [List.length_append, List.length_map, List.length_singleton, Nat.zero_add]
  exact hcount

/-- A logical partition is no primary one. -/
theorem not_mem_primary {mbr : Mem} {p : Probe} (h : p.table ≠ 0) (is : List ℕ) :
    p ∉ is.map (probe mbr 0) := by
  intro hp
  obtain ⟨i, -, rfl⟩ := List.mem_map.mp hp
  exact h rfl

/-- In a search that ends, the logical partitions are examined if they are reached. -/
theorem allCalled_iff {debug : Bool} {disk : DiskRead} {mbr : Mem} {ext fuel : ℕ}
    {before after : List ℕ} {args : NtArgs} {ps : List Probe} {found : Bool} {st : ScanState}
    (hdisk : MbrDisk disk mbr ext before after) (hchain : EbrChain disk ext ext ps)
    (hcount : before.length + ps.length + after.length ≤ 31) (hfuel : 3 ≤ fuel)
    (hrun : checkMsdosPartmap debug disk fuel args = some (found, st)) :
    AllCalled disk args (before.map (probe mbr 0)) ps st.log ↔
      AllReached debug disk args (before.map (probe mbr 0)) ps ext (fuel - 3) := by
  obtain ⟨depth, rfl⟩ : ∃ k, fuel = k + 3 := ⟨fuel - 3, by omega⟩
  have hlog : st.log = (probeAll debug disk (walk disk (depth + 3) 0) ⟨0, args, []⟩).2.log := by
    rw [← checkMsdosPartmap_eq hrun]
  rw [AllCalled, AllReached, hlog, Nat.add_sub_cancel, List.length_map]
  have hmod {p : Probe} (h : p.table + p.start < 2 ^ 32) : p.lba = p.table + p.start :=
    Nat.mod_eq_of_lt h
  have hlt {p : Probe} (h : p.lba = p.table + p.start) : p.table + p.start < 2 ^ 32 := by
    rw [← h]
    exact Nat.mod_lt _ (by norm_num)
  -- From the third EBR on: the search examines what it finds from the wrong sector.
  have hthird : ∀ pre p post, ps = pre ++ p :: post → 2 ≤ pre.length →
      (∀ q ∈ pre, q.table + q.start < 2 ^ 32) →
      NoMatch disk args (before.map (probe mbr 0) ++ pre) →
      (p ∈ (probeAll debug disk (walk disk (depth + 3) 0) ⟨0, args, []⟩).2.log ↔
        p ∈ calledFrom debug disk args depth (before.length + 2) (thirdTable ext ps)) := by
    rintro pre p post rfl hpre hbelow hno
    obtain ⟨a, b, mid, rfl⟩ : ∃ a b mid, pre = a :: b :: mid := by
      match pre, hpre with
      | a :: b :: mid, _ => exact ⟨a, b, mid, rfl⟩
    obtain ⟨r, rest, hr⟩ : ∃ r rest, mid ++ p :: post = r :: rest :=
      List.exists_cons_of_ne_nil (by simp)
    have htable : p.table ≠ 0 := by
      have h₁ := hchain.le_table
      have h₂ := hdisk.pos
      omega
    have hpa : p.table ≠ a.table :=
      @EbrChain.table_ne _ _ _ [] (b :: mid) _ _ _ (by simpa using hchain)
    have hpb : p.table ≠ b.table :=
      @EbrChain.table_ne _ _ _ [a] mid _ _ _ (by simpa using hchain)
    rw [List.cons_append, List.cons_append, hr] at hchain hcount ⊢
    have hb := hbelow b (by simp)
    refine mem_log_iff_calledFrom hdisk hchain ?_ (by omega) ?_ ?_ (not_mem_primary htable after)
    · simp only [List.length_cons] at hcount
      omega
    · intro q hq
      apply hno
      simp only [List.mem_append, List.mem_cons, List.not_mem_nil, or_false] at hq ⊢
      exact hq.imp_right fun h => h.imp_right Or.inl
    · simp only [List.mem_append, List.mem_cons, List.not_mem_nil, or_false, not_or]
      exact ⟨not_mem_primary htable before, fun h => hpa (congrArg Probe.table h),
        fun h => hpb (congrArg Probe.table h)⟩
  constructor
  · intro h pre p post hps hno
    have hp := h pre p post hps hno
    refine ⟨hlt hp.2, ?_⟩
    by_cases hpre : pre.length < 2
    · exact Or.inl hpre
    · refine Or.inr ((hthird pre p post hps (by omega) ?_ hno).mp hp.1)
      intro q hq
      obtain ⟨pre', mid, rfl⟩ := List.append_of_mem hq
      exact hlt (h pre' q (mid ++ p :: post) (by simp [hps]) fun r hr => hno r (by
        simp only [List.mem_append, List.mem_cons] at hr ⊢
        exact hr.imp_right Or.inl)).2
  · intro h pre p post hps hno
    obtain ⟨hp, hor⟩ := h pre p post hps hno
    refine ⟨?_, hmod hp⟩
    match pre, hor with
    | [], _ =>
        rw [List.append_nil] at hno
        rw [hps, List.nil_append] at hchain
        rw [hps] at hcount
        simp only [List.length_append, List.length_nil, List.length_cons] at hcount
        exact @mem_log_first _ _ _ _ (depth + 1) _ _ _ _ _ hdisk hchain (by omega) hno
    | [a], _ =>
        rw [hps] at hchain hcount
        simp only [List.length_append, List.length_nil, List.length_cons] at hcount
        exact mem_log_second hdisk hchain (by omega) (by omega) hno
    | a :: b :: mid, hor =>
        have hcalled := hor.resolve_left (by simp)
        refine (hthird _ p post hps (by simp) ?_ hno).mpr hcalled
        intro q hq
        obtain ⟨pre', mid', hmid⟩ := List.append_of_mem hq
        refine (h pre' q (mid' ++ p :: post) (by rw [hps, hmid]; simp) fun r hr => hno r ?_).1
        rw [hmid]
        simp only [List.mem_append, List.mem_cons] at hr ⊢
        exact hr.imp_right Or.inl

/-! ## Two EBRs -/

/-- The loop ends if the calls for the links do. -/
theorem checkEntries_isSome {debug : Bool} {disk : DiskRead}
    {rec : ℕ → ScanState → Option (Bool × ScanState)} {startLba : ℕ} {mbr : Mem} {is : List ℕ}
    (h : ∀ i ∈ is.filter (fun i => !isUnused (entry mbr i)), isLink (entry mbr i) = true →
      ∀ st, (rec ((startLba + (entry mbr i).start) % 2 ^ 32) st).isSome) (st : ScanState) :
    (checkEntries debug disk rec startLba mbr is st).isSome := by
  induction is generalizing st with
  | nil => rfl
  | cons i is ih =>
      have hrest := ih fun j hj => h j (by
        rw [List.mem_filter] at hj ⊢
        exact ⟨List.mem_cons_of_mem _ hj.1, hj.2⟩)
      rw [checkEntries]
      dsimp only
      split_ifs with hfull hgpt hempty hext hmatch
      · rfl
      · rfl
      · exact hrest st
      · have hlink : isLink (entry mbr i) = true := by
          simp only [isLink, decide_eq_true_eq]
          exact ⟨hgpt, hempty, hext⟩
        have hused : i ∈ (i :: is).filter (fun i => !isUnused (entry mbr i)) := by
          rw [List.mem_filter]
          refine ⟨List.mem_cons_self, ?_⟩
          simp only [isUnused, Bool.not_eq_true', decide_eq_false_iff_not]
          exact fun hu => hempty hu.2
        obtain ⟨⟨found, st'⟩, hcall⟩ := Option.isSome_iff_exists.mp (h i hused hlink st)
        rw [hcall, Option.bind_some]
        cases found with
        | true => rfl
        | false => exact hrest st'
      · rfl
      · exact hrest _

/-- The search of a table ends, if those of its links do. -/
theorem checkMbr_isSome {debug : Bool} {disk : DiskRead} {lba fuel : ℕ} {mbr : Mem}
    (hread : disk lba = some mbr)
    (h : ∀ i ∈ usedEntries mbr, isLink (entry mbr i) = true →
      ∀ st, (checkMbr debug disk fuel ((lba + (entry mbr i).start) % 2 ^ 32) st).isSome)
    (st : ScanState) : (checkMbr debug disk (fuel + 1) lba st).isSome := by
  rw [checkMbr, hread]
  dsimp only
  split_ifs
  · rfl
  · exact checkEntries_isSome h st

/-- The search from a chain of one EBR, or of two, ends. -/
theorem EbrChain.isSome {debug : Bool} {disk : DiskRead} {ext fuel : ℕ} {ps : List Probe}
    (h : EbrChain disk ext ext ps) (hlen : ps.length ≤ 2)
    (hlt : ∀ p ∈ ps, p.table < 2 ^ 32) (st : ScanState) :
    (checkMbr debug disk (fuel + 2) ext st).isSome := by
  have hlast : ∀ {lba p}, EbrChain disk ext lba [p] → ∀ n st,
      (checkMbr debug disk (n + 1) lba st).isSome := by
    intro lba p hp n st
    cases hp with
    | last htable hused hpart =>
        refine checkMbr_isSome htable.read (fun i hi hlink => ?_) st
        rw [hused, List.mem_singleton] at hi
        rw [hi, isLink_of_isPartition hpart] at hlink
        cases hlink
    | link _ _ _ _ hnext => cases hnext
  match ps, h, hlen with
  | [p], h, _ => exact hlast h (fuel + 1) st
  | [p, q], h, _ =>
      have hq := hlt q (by simp)
      cases h with
      | link htable hused hpart _ hnext =>
          refine checkMbr_isSome htable.read (fun i hi hlink => ?_) st
          rw [hused, List.mem_cons, List.mem_singleton] at hi
          rcases hi with rfl | rfl
          · rw [isLink_of_isPartition hpart] at hlink
            cases hlink
          · rw [hnext.table_eq] at hq
            rw [Nat.mod_eq_of_lt hq]
            exact hlast hnext fuel

/-- The search of a disk with at most two EBRs ends. -/
theorem MbrDisk.isSome {debug : Bool} {disk : DiskRead} {mbr : Mem} {ext fuel : ℕ}
    {before after : List ℕ} {ps : List Probe} (hdisk : MbrDisk disk mbr ext before after)
    (hchain : EbrChain disk ext ext ps) (hlen : ps.length ≤ 2) (hlt : ∀ p ∈ ps, p.table < 2 ^ 32)
    (args : NtArgs) : (checkMsdosPartmap debug disk (fuel + 3) args).isSome := by
  refine checkMbr_isSome hdisk.table.read (fun i hi hlink st => ?_) _
  obtain ⟨j, hused, -, hstart⟩ := hdisk.used
  have hext : ext < 2 ^ 32 := hstart ▸ Mem.word_lt mbr _ 4
  have hij : i = j := by
    rw [hused, List.mem_append, List.mem_cons] at hi
    rcases hi with hi | rfl | hi
    · rw [isLink_of_isPartition (hdisk.primary i (List.mem_append_left _ hi))] at hlink
      cases hlink
    · rfl
    · rw [isLink_of_isPartition (hdisk.primary i (List.mem_append_right _ hi))] at hlink
      cases hlink
  rw [hij, hstart, Nat.zero_add, Nat.mod_eq_of_lt hext]
  exact hchain.isSome hlen hlt st

/-- The logical partitions of a chain are examined, in front of a match, if and only if they are
below 2^32 and those from the third EBR on are found from the sector that the search goes to for
it; the search of a disk with at most two EBRs ends. -/
theorem chain_iff (debug : Bool) {disk : DiskRead} {mbr : Mem} {ext fuel : ℕ}
    {before after : List ℕ} (args : NtArgs) {ps : List Probe}
    (hdisk : MbrDisk disk mbr ext before after) (hchain : EbrChain disk ext ext ps)
    (hcount : before.length + ps.length + after.length ≤ 31) (hfuel : 3 ≤ fuel) :
    (∀ found st, checkMsdosPartmap debug disk fuel args = some (found, st) →
      (AllCalled disk args (before.map (probe mbr 0)) ps st.log ↔
        AllReached debug disk args (before.map (probe mbr 0)) ps ext (fuel - 3))) ∧
      (ps.length ≤ 2 → (∀ p ∈ ps, p.table + p.start < 2 ^ 32) →
        ∃ found st, checkMsdosPartmap debug disk fuel args = some (found, st) ∧
          AllCalled disk args (before.map (probe mbr 0)) ps st.log) := by
  refine ⟨fun found st hrun => allCalled_iff hdisk hchain hcount hfuel hrun, fun hlen hlt => ?_⟩
  obtain ⟨depth, rfl⟩ : ∃ k, fuel = k + 3 := ⟨fuel - 3, by omega⟩
  obtain ⟨⟨found, st⟩, hrun⟩ := Option.isSome_iff_exists.mp
    (@MbrDisk.isSome debug _ _ _ depth _ _ _ hdisk hchain hlen
      (fun p hp => by have := hlt p hp; omega) args)
  refine ⟨found, st, hrun, (allCalled_iff hdisk hchain hcount hfuel hrun).mpr ?_⟩
  rintro pre p post rfl -
  refine ⟨hlt p (by simp), Or.inl ?_⟩
  rw [List.length_append, List.length_cons] at hlen
  omega

/-! ## Three logical partitions -/

/-- A sector with a table of two entries, a partition and a link, of lengths 8 and 16. -/
def linkSector (start link : ℕ) : Mem :=
  (((tableSector 0 0x07 start 8).putWord 466 1 0x05).putWord 470 4 link).putWord 474 4 16

/-- A disk with an extended partition at sector 10 and EBRs at sectors 10, 30 and 50. -/
def chainDisk : DiskRead
  | 0 => some (tableSector 0 0x05 10 100)
  | 10 => some (linkSector 1 20)
  | 30 => some (linkSector 1 40)
  | 50 => some (tableSector 0 0x07 1 8)
  | _ => none

/-- The disk has an extended entry at sector 10, -/
theorem chainDisk_mbrDisk : MbrDisk chainDisk (tableSector 0 0x05 10 100) 10 [] [] where
  table := ⟨rfl, by decide +kernel⟩
  used := ⟨0, by decide +kernel, by decide +kernel, by decide +kernel⟩
  primary := by simp
  pos := by norm_num

/-- and a chain of three EBRs there. -/
theorem chainDisk_ebrChain :
    EbrChain chainDisk 10 10 [⟨10, 0, 1, 0⟩, ⟨30, 0, 1, 0⟩, ⟨50, 0, 1, 0⟩] := by
  have h₀ : IsTable chainDisk 10 (linkSector 1 20) := ⟨rfl, by decide +kernel⟩
  have h₁ : IsTable chainDisk 30 (linkSector 1 40) := ⟨rfl, by decide +kernel⟩
  have h₂ : IsTable chainDisk 50 (tableSector 0 0x07 1 8) := ⟨rfl, by decide +kernel⟩
  have p₀ : probe (linkSector 1 20) 10 0 = ⟨10, 0, 1, 0⟩ := by decide +kernel
  have p₁ : probe (linkSector 1 40) 30 0 = ⟨30, 0, 1, 0⟩ := by decide +kernel
  have p₂ : probe (tableSector 0 0x07 1 8) 50 0 = ⟨50, 0, 1, 0⟩ := by decide +kernel
  have l₀ : 10 + (entry (linkSector 1 20) 1).start = 30 := by decide +kernel
  have l₁ : 10 + (entry (linkSector 1 40) 1).start = 50 := by decide +kernel
  rw [← p₀, ← p₁, ← p₂]
  refine .link (i := 0) (j := 1) h₀ (by decide +kernel) (by decide +kernel) (by decide +kernel) ?_
  rw [l₀]
  refine .link (i := 0) (j := 1) h₁ (by decide +kernel) (by decide +kernel) (by decide +kernel) ?_
  rw [l₁]
  exact .last (i := 0) h₂ (by decide +kernel) (by decide +kernel)

/-- The search on the disk ends without a match and has examined two partitions. -/
theorem chainDisk_run : ∃ st, checkMsdosPartmap false chainDisk 4 .init = some (false, st) ∧
    st.log = [⟨10, 0, 1, 0⟩, ⟨30, 0, 1, 0⟩] := by
  have hrun : (checkMsdosPartmap false chainDisk 4 .init).map (fun r => (r.1, r.2.log)) =
      some (false, [⟨10, 0, 1, 0⟩, ⟨30, 0, 1, 0⟩]) := by
    decide +kernel
  obtain ⟨⟨found, st⟩, hr, hval⟩ := Option.map_eq_some_iff.mp hrun
  rw [Prod.mk.injEq] at hval
  have hfound : found = false := hval.1
  exact ⟨st, by rw [hr, hfound], hval.2⟩

/-- The third logical partition is not examined. -/
theorem chain_three :
    ¬∀ (debug : Bool) (disk : DiskRead) (mbr : Mem) (ext fuel : ℕ) (before after : List ℕ)
      (args : NtArgs) (ps : List Probe) (found : Bool) (st : ScanState),
      MbrDisk disk mbr ext before after → EbrChain disk ext ext ps →
      before.length + ps.length + after.length ≤ 31 →
      checkMsdosPartmap debug disk fuel args = some (found, st) →
      AllCalled disk args (before.map (probe mbr 0)) ps st.log := by
  intro h
  obtain ⟨st, hrun, hlog⟩ := chainDisk_run
  have hcalled := h false chainDisk _ 10 4 [] [] .init _ false st chainDisk_mbrDisk
    chainDisk_ebrChain (by decide) hrun [⟨10, 0, 1, 0⟩, ⟨30, 0, 1, 0⟩] ⟨50, 0, 1, 0⟩ [] rfl (by
      rw [NoMatch]
      decide +kernel)
  rw [hlog] at hcalled
  exact absurd hcalled.1 (by decide)

/-- The disk meets the conditions of the theorem. -/
theorem chain_iff_three : ∃ st, checkMsdosPartmap false chainDisk 4 .init = some (false, st) ∧
    (AllCalled chainDisk .init [] [⟨10, 0, 1, 0⟩, ⟨30, 0, 1, 0⟩, ⟨50, 0, 1, 0⟩] st.log ↔
      AllReached false chainDisk .init [] [⟨10, 0, 1, 0⟩, ⟨30, 0, 1, 0⟩, ⟨50, 0, 1, 0⟩] 10 1) := by
  obtain ⟨st, hrun, -⟩ := chainDisk_run
  exact ⟨st, hrun, (chain_iff false .init chainDisk_mbrDisk chainDisk_ebrChain (by decide)
    (by decide)).1 false st hrun⟩

end Ntloader.Disk
