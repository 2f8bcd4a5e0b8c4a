import Ntloader.Lznt1.Sizing

/-!
# Where LZNT1 decompression reads and copies from

A compressed block is decoded up to the limit that its header gives. The limit is not compared with
the end of the input, and the distance of a compressed value is not compared with anything.

* `ReadsWithin`, `CopiesWithin` — the input is read in front of its end, and back-references start
  in the output.
* `BlockReads` — a block ends with the input; in the sizing pass its tags and compressed values do.
* `BlockFits` — and its distances stay within the output.
* `lznt1Decompress_confined_iff` — decompression is confined iff every compressed block fits.
-/

namespace Ntloader.Lznt1

open Ntloader.Lib

/-! ## What is asked for -/

/-- All bytes read from the input are in front of its end. -/
def ReadsWithin (len : ℕ) (trace : List Access) : Prop :=
  ∀ off n, .read off n ∈ trace → off + n ≤ len

/-- A trace with one more read stays inside exactly if the read and the rest do. -/
theorem readsWithin_read_cons {len off n : ℕ} {trace : List Access} :
    ReadsWithin len (.read off n :: trace) ↔ off + n ≤ len ∧ ReadsWithin len trace := by
  simp only [ReadsWithin, List.mem_cons, or_imp, forall_and, Access.read.injEq, and_imp]
  constructor
  · exact fun h => ⟨h.1 off n rfl rfl, h.2⟩
  · rintro ⟨h, hrest⟩
    refine ⟨?_, hrest⟩
    rintro _ _ rfl rfl
    exact h

/-- A reference reads no input. -/
theorem readsWithin_backref_cons {len dist produced : ℕ} {trace : List Access} :
    ReadsWithin len (.backref dist produced :: trace) ↔ ReadsWithin len trace := by
  simp only [ReadsWithin, List.mem_cons, reduceCtorEq, false_or]

/-- The distance of the compressed value that a round copies, if it copies one.
Source: libnt/lznt1.c, lznt1_block, LZNT1_VALUE_OFFSET -/
def roundDistance (data : Mem) (limit : ℕ) (s : BlockState) : Option ℕ :=
  let t := extractTag data s
  if t.tag &&& 1 ≠ 0 ∧ t.offset + 2 ≤ limit then
    some (lznt1ValueOffset (data.word t.offset 2) t.split)
  else none

/-- The states in front of the rounds of a compressed block. -/
def roundsOf (data : Mem) (buf : Option ℕ) (s : StreamState) : List BlockState :=
  lznt1BlockRounds data (blockLimit data s) (s.offset + 2) (blockDest buf s) s.mem (blockTrace s)

/-- A block is compressed. -/
def Compressed (data : Mem) (s : StreamState) : Prop :=
  lznt1BlockCompressed (data.word s.offset 2) = true

/-- Every back-reference that is copied starts at or behind the beginning of the buffer. -/
def CopiesWithin (data : Mem) (len : ℕ) (buf : Option ℕ) (mem : Mem) : Prop :=
  ∀ out, buf = some out → ∀ s ∈ lznt1Blocks data len buf mem, Compressed data s →
    ∀ r ∈ roundsOf data buf s, ∀ dest dist, r.dest = some dest →
      roundDistance data (blockLimit data s) r = some dist → out + dist ≤ dest

/-! ## What the code depends on -/

/-- A compressed value begins at the last byte of a block, so that it overruns the block. -/
def Truncated (data : Mem) (limit : ℕ) (s : BlockState) : Prop :=
  (extractTag data s).tag &&& 1 ≠ 0 ∧ (extractTag data s).offset + 1 = limit

/-- The tag and the compressed value of a round, as far as it has them, are in front of the end of the
input. An uncompressed value may be behind it. -/
structure RoundFits (data : Mem) (len limit : ℕ) (r : BlockState) : Prop where
  tag : r.tagBit = 0 → r.offset + 1 ≤ len
  value : ∀ dist, roundDistance data limit r = some dist → (extractTag data r).offset + 2 ≤ len

/-- What a compressed block is asked for. With an output pointer it ends with the input at the latest,
or else one byte past it where that byte would begin a compressed value. Without one, the tags and the
compressed values of its rounds are in the input. -/
structure BlockReads (data : Mem) (len : ℕ) (buf : Option ℕ) (s : StreamState) : Prop where
  limit : buf.isSome → blockLimit data s ≤ len ∨
    blockLimit data s = len + 1 ∧ ∃ r ∈ roundsOf data buf s, Truncated data (blockLimit data s) r
  sizing : buf = none → ∀ r ∈ roundsOf data buf s, RoundFits data len (blockLimit data s) r

/-- A block is read within the input, and with an output pointer no distance goes back over more than the
output so far. -/
structure BlockFits (data : Mem) (len : ℕ) (buf : Option ℕ) (s : StreamState) : Prop
    extends BlockReads data len buf s where
  /-- The distances stay within the output. -/
  distance : buf.isSome → ∀ r ∈ roundsOf data buf s, ∀ dist,
    roundDistance data (blockLimit data s) r = some dist → dist ≤ s.outLen.toNat + r.outLen

/-! ## The reads of a block -/

/-- A tag is one byte of input, where it is due. -/
theorem extractTag_reads {data : Mem} {len : ℕ} (s : BlockState) :
    (extractTag data s).offset = s.offset + (if s.tagBit = 0 then 1 else 0) ∧
      (ReadsWithin len (extractTag data s).trace ↔
        (s.tagBit = 0 → s.offset + 1 ≤ len) ∧ ReadsWithin len s.trace) := by
  unfold extractTag
  by_cases h0 : s.tagBit = 0
  · rw [if_pos h0, if_pos h0, readsWithin_read_cons]
    exact ⟨rfl, and_congr_left' (by simp only [h0, forall_const])⟩
  · rw [if_neg h0, if_neg h0]
    exact ⟨rfl, by simp only [h0, false_imp_iff, true_and]⟩

/-- A value is read up to the next one. -/
theorem decodeValue_reads {data : Mem} {limit len : ℕ} {s u : BlockState} (hdest : s.dest.isSome)
    (h : decodeValue data limit s = some u) :
    u.dest.isSome ∧ (ReadsWithin len u.trace ↔ u.offset ≤ len ∧ ReadsWithin len s.trace) := by
  unfold decodeValue copyValue at h
  split_ifs at h
  · obtain rfl := Option.some.inj h
    dsimp only
    rw [readsWithin_backref_cons, readsWithin_read_cons, Option.isSome_map]
    exact ⟨hdest, Iff.rfl⟩
  · obtain rfl := Option.some.inj h
    unfold literalValue
    dsimp only
    rw [if_pos hdest, readsWithin_read_cons, Option.isSome_map]
    exact ⟨hdest, Iff.rfl⟩

/-- Without an output pointer only a compressed value is read. -/
theorem decodeValue_reads_sizing {data : Mem} {limit len : ℕ} {s u : BlockState} (hdest : s.dest = none)
    (h : decodeValue data limit s = some u) :
    u.dest = none ∧ (ReadsWithin len u.trace ↔
      (s.tag &&& 1 ≠ 0 → s.offset + 2 ≤ len) ∧ ReadsWithin len s.trace) := by
  unfold decodeValue copyValue at h
  split_ifs at h with htag
  · obtain rfl := Option.some.inj h
    dsimp only
    rw [readsWithin_backref_cons, readsWithin_read_cons, hdest]
    exact ⟨rfl, and_congr_left' ⟨fun h _ => h, fun h => h htag⟩⟩
  · obtain rfl := Option.some.inj h
    unfold literalValue
    dsimp only
    rw [if_neg (by simp [hdest]), hdest]
    exact ⟨rfl, (and_iff_right fun h => absurd h htag).symm⟩

/-- A round fails exactly if a value does not end in front of the limit. -/
theorem decodeValue_eq_none_iff {data : Mem} {limit : ℕ} {s : BlockState} :
    decodeValue data limit s = none ↔ s.tag &&& 1 ≠ 0 ∧ s.offset + 2 > limit := by
  unfold decodeValue copyValue
  split_ifs with htag hover
  · simp only [htag, hover, ne_eq, not_false_eq_true, and_self]
  · simp only [hover, and_false]
  · simp only [htag, false_and]

/-- What a round reads, in the three ways it can end: it goes on behind the value read, it returns
at the limit, or it returns at a truncated value without reading it. -/
theorem blockRound_reads {data : Mem} {limit len : ℕ} {s : BlockState} (hdest : s.dest.isSome)
    (hlt : s.offset < limit) :
    (∃ u, blockRound data limit s = (none, u) ∧ u.dest.isSome ∧ ¬Truncated data limit s ∧
      s.offset < u.offset ∧ u.offset ≤ limit ∧
      (ReadsWithin len u.trace ↔ u.offset ≤ len ∧ ReadsWithin len s.trace)) ∨
    (∃ ret u, blockRound data limit s = (some ret, u) ∧ ¬Truncated data limit s ∧
      (ReadsWithin len u.trace ↔ limit ≤ len ∧ ReadsWithin len s.trace)) ∨
    ∃ ret u, blockRound data limit s = (some ret, u) ∧ Truncated data limit s ∧
      (ReadsWithin len u.trace ↔ (s.tagBit = 0 → limit ≤ len + 1) ∧ ReadsWithin len s.trace) ∧
      (s.tagBit ≠ 0 → limit = s.offset + 1) := by
  obtain ⟨hoffset, htrace⟩ := @extractTag_reads data len s
  unfold blockRound
  dsimp only
  by_cases h1 : s.tagBit = 0 ∧ (extractTag data s).offset = limit
  · rw [if_pos h1]
    rw [if_pos h1.1] at hoffset
    refine Or.inr (Or.inl ⟨_, _, rfl, fun ht => ?_, ?_⟩)
    · have hend := ht.2
      omega
    · rw [htrace, ← h1.2, hoffset]
      simp only [h1.1, forall_const]
  rw [if_neg h1]
  have htlt : (extractTag data s).offset < limit := by
    split_ifs at hoffset with h0
    · have hne : (extractTag data s).offset ≠ limit := fun h => h1 ⟨h0, h⟩
      omega
    · omega
  cases hd : decodeValue data limit (extractTag data s) with
  | none =>
      obtain ⟨htag, hover⟩ := decodeValue_eq_none_iff.mp hd
      refine Or.inr (Or.inr ⟨_, _, rfl, ⟨htag, by omega⟩, ?_, fun h0 => ?_⟩)
      · rw [htrace]
        refine and_congr_left' ⟨fun h h0 => ?_, fun h h0 => ?_⟩
        · have hle := h h0
          rw [if_pos h0] at hoffset
          omega
        · have hle := h h0
          rw [if_pos h0] at hoffset
          omega
      · rw [if_neg h0] at hoffset
        omega
  | some u =>
      obtain ⟨hlt', hle⟩ := decodeValue_offset htlt hd
      obtain ⟨hdest', hreads⟩ := @decodeValue_reads data limit len _ _
        (by rwa [extractTag_dest]) hd
      refine Or.inl ⟨_, rfl, hdest', fun ht => ?_, ?_, ?_, ?_⟩
      · rw [decodeValue_eq_none_iff.mpr ⟨ht.1, by have := ht.2; omega⟩] at hd
        cases hd
      · rw [nextValue_offset]
        omega
      · exact hle
      · have hnext : (nextValue u).trace = u.trace := rfl
        rw [hnext, hreads, htrace, nextValue_offset]
        split_ifs at hoffset with h0
        · constructor
          · exact fun h => ⟨h.1, h.2.2⟩
          · exact fun h => ⟨h.1, fun _ => by omega, h.2⟩
        · simp only [h0, false_imp_iff, true_and]

/-- At the limit no round is left. -/
theorem blockRounds_of_offset_eq {data : Mem} {limit fuel : ℕ} {s : BlockState}
    (h : s.offset = limit) : blockRounds data limit fuel s = [] := by
  cases fuel with
  | zero => rfl
  | succ fuel => rw [blockRounds, if_pos h]

/-- The reads of a block stay in the input iff the block does, or all of it does but the beginning
of a truncated value. A round that finds its tag in the state has read up to its offset before. -/
theorem blockLoop_reads {data : Mem} {limit len : ℕ} (fuel : ℕ) {s t : BlockState} {ret : ℤ}
    (hdest : s.dest.isSome) (hle : s.offset ≤ limit)
    (hread : s.tagBit ≠ 0 → ReadsWithin len s.trace → s.offset ≤ len)
    (h : blockLoop data limit fuel s = some (ret, t)) :
    ReadsWithin len t.trace ↔ ReadsWithin len s.trace ∧ (s.offset = limit ∨ limit ≤ len ∨
      limit = len + 1 ∧ ∃ r ∈ blockRounds data limit fuel s, Truncated data limit r) := by
  induction fuel generalizing s with
  | zero => cases h
  | succ fuel ih =>
      rw [blockLoop_succ] at h
      by_cases h0 : s.offset = limit
      · rw [if_pos h0] at h
        cases h
        exact ⟨fun h => ⟨h, Or.inl h0⟩, fun h => h.1⟩
      rw [if_neg h0] at h
      rw [blockRounds, if_neg h0]
      have hlt : s.offset < limit := by omega
      obtain ⟨u, hround, hdest', htr, hmove, hule, hreads⟩ | ⟨ret', u, hround, htr, hreads⟩ |
        ⟨ret', u, hround, htr, hreads, hlast⟩ := @blockRound_reads data limit len s hdest hlt
      · rw [hround] at h ⊢
        dsimp only at h ⊢
        rw [ih hdest' hule (fun _ hu => (hreads.mp hu).1) h, hreads]
        simp only [List.mem_cons, exists_eq_or_imp, htr, false_or, h0]
        constructor
        · rintro ⟨⟨hlen, hs⟩, hend | hrest⟩
          · exact ⟨hs, Or.inl (by omega)⟩
          · exact ⟨hs, hrest⟩
        · rintro ⟨hs, hlen | ⟨hlen, r, hr, hrt⟩⟩
          · exact ⟨⟨by omega, hs⟩, Or.inr (Or.inl hlen)⟩
          · have hne : u.offset ≠ limit := fun heq => by
              rw [blockRounds_of_offset_eq heq] at hr
              cases hr
            exact ⟨⟨by omega, hs⟩, Or.inr (Or.inr ⟨hlen, r, hr, hrt⟩)⟩
      · rw [hround] at h ⊢
        cases h
        simp only [List.mem_singleton, exists_eq_left, htr, and_false, or_false, h0, false_or]
        exact hreads.trans and_comm
      · rw [hround] at h ⊢
        cases h
        simp only [List.mem_singleton, exists_eq_left, htr, and_true, h0, false_or]
        rw [hreads]
        constructor
        · rintro ⟨htag, hs⟩
          by_cases ht0 : s.tagBit = 0
          · have := htag ht0
            exact ⟨hs, by omega⟩
          · have := hlast ht0
            have := hread ht0 hs
            exact ⟨hs, by omega⟩
        · rintro ⟨hs, hlen⟩
          exact ⟨fun _ => by omega, hs⟩

/-- What a round reads without an output pointer: its tag and its compressed value. -/
theorem blockRound_reads_sizing {data : Mem} {limit len : ℕ} {s u : BlockState} {ret : Option ℤ}
    (hdest : s.dest = none) (h : blockRound data limit s = (ret, u)) :
    u.dest = none ∧
      (ReadsWithin len u.trace ↔ RoundFits data len limit s ∧ ReadsWithin len s.trace) := by
  obtain ⟨-, htrace⟩ := @extractTag_reads data len s
  have htdest : (extractTag data s).dest = none := (extractTag_dest data s).trans hdest
  have hfits : ∀ p : Prop, ((∀ dist, roundDistance data limit s = some dist →
      (extractTag data s).offset + 2 ≤ len) ↔ p) →
      (RoundFits data len limit s ↔ (s.tagBit = 0 → s.offset + 1 ≤ len) ∧ p) :=
    fun p hp => ⟨fun h => ⟨h.tag, hp.mp h.value⟩, fun h => ⟨h.1, hp.mpr h.2⟩⟩
  unfold roundDistance at hfits
  dsimp only at hfits
  unfold blockRound at h
  dsimp only at h
  by_cases h1 : s.tagBit = 0 ∧ (extractTag data s).offset = limit
  · rw [if_pos h1] at h
    cases h
    refine ⟨htdest, ?_⟩
    rw [htrace, hfits True, and_true]
    rw [if_neg fun hover => by omega]
    simp only [reduceCtorEq, false_imp_iff, implies_true]
  rw [if_neg h1] at h
  cases hd : decodeValue data limit (extractTag data s) with
  | none =>
      rw [hd] at h
      cases h
      have hover := (decodeValue_eq_none_iff.mp hd).2
      refine ⟨htdest, ?_⟩
      rw [htrace, hfits True, and_true]
      rw [if_neg fun hroom => by omega]
      simp only [reduceCtorEq, false_imp_iff, implies_true]
  | some v =>
      rw [hd] at h
      cases h
      obtain ⟨hdest', hreads⟩ := @decodeValue_reads_sizing data limit len _ _ htdest hd
      refine ⟨hdest', ?_⟩
      have hnext : (nextValue v).trace = v.trace := rfl
      rw [hnext, hreads, htrace,
        hfits ((extractTag data s).tag &&& 1 ≠ 0 → (extractTag data s).offset + 2 ≤ len), and_assoc,
        and_left_comm]
      -- the value does not overrun the block
      by_cases htag : (extractTag data s).tag &&& 1 ≠ 0
      · have hroom : ¬(extractTag data s).offset + 2 > limit := fun hover => by
          rw [decodeValue_eq_none_iff.mpr ⟨htag, hover⟩] at hd
          cases hd
        rw [if_pos ⟨htag, not_lt.mp hroom⟩]
        simp only [Option.some.injEq, forall_eq', htag, forall_const, ne_eq, not_false_eq_true]
      · rw [if_neg fun hboth => htag hboth.1]
        simp only [reduceCtorEq, false_imp_iff, implies_true, htag]

/-- The reads of a block without an output pointer stay in the input iff those of its rounds do. -/
theorem blockLoop_reads_sizing {data : Mem} {limit len : ℕ} (fuel : ℕ) {s t : BlockState} {ret : ℤ}
    (hdest : s.dest = none) (h : blockLoop data limit fuel s = some (ret, t)) :
    ReadsWithin len t.trace ↔ ReadsWithin len s.trace ∧
      ∀ r ∈ blockRounds data limit fuel s, RoundFits data len limit r := by
  induction fuel generalizing s with
  | zero => cases h
  | succ fuel ih =>
      rw [blockLoop_succ] at h
      rw [blockRounds]
      by_cases h0 : s.offset = limit
      · rw [if_pos h0] at h ⊢
        cases h
        simp only [List.not_mem_nil, false_imp_iff, implies_true, and_true]
      rw [if_neg h0] at h ⊢
      rcases hround : blockRound data limit s with ⟨_ | ret', u⟩
      · obtain ⟨hdest', hreads⟩ := @blockRound_reads_sizing data limit len s u none hdest hround
        rw [hround] at h
        dsimp only at h ⊢
        rw [ih hdest' h, hreads, List.forall_mem_cons, and_right_comm, and_comm, ← and_assoc,
          and_assoc]
      · obtain ⟨-, hreads⟩ := @blockRound_reads_sizing data limit len s u (some ret') hdest hround
        rw [hround] at h
        cases h
        rw [hreads, List.forall_mem_singleton, and_comm]

/-! ## The reads of the stream -/

/-- A chunk has a byte behind its header at least. -/
theorem blockLimit_gt (data : Mem) (s : StreamState) : s.offset + 2 < blockLimit data s := by
  unfold blockLimit lznt1BlockLen
  omega

/-- The reads of a compressed block. -/
theorem lznt1Block_reads {data : Mem} {len : ℕ} {buf : Option ℕ} {s : StreamState} {b : BlockState}
    {ret : ℤ} (h : lznt1Block data (blockLimit data s) (s.offset + 2) (blockDest buf s) s.mem
      (blockTrace s) = some (ret, b)) :
    ReadsWithin len b.trace ↔ ReadsWithin len (blockTrace s) ∧ BlockReads data len buf s := by
  have hgt := blockLimit_gt data s
  cases buf with
  | none =>
      have hreads := @blockLoop_reads_sizing data (blockLimit data s) len _ _ b ret rfl h
      rw [hreads]
      refine and_congr_right fun _ => ⟨fun hr => ⟨nofun, fun _ => hr⟩, fun hr => hr.sizing rfl⟩
  | some out =>
      have hreads := @blockLoop_reads data (blockLimit data s) len _ _ b ret rfl
        (show s.offset + 2 ≤ _ by omega) (fun h0 => absurd rfl h0) h
      have hstart : s.offset + 2 ≠ blockLimit data s := by omega
      rw [hreads]
      simp only [hstart, false_or]
      exact and_congr_right fun _ => ⟨fun hr => ⟨fun _ => hr, nofun⟩, fun hr => hr.limit rfl⟩

/-- The reads of a block of the stream. -/
theorem streamRound_reads {data : Mem} {len : ℕ} {buf : Option ℕ} {s t : StreamState}
    {ret : Option ℤ} (hroom : s.offset + 2 ≤ len)
    (h : streamRound data len buf s = some (ret, t)) :
    ReadsWithin len t.trace ↔
      ReadsWithin len s.trace ∧ (Compressed data s → BlockReads data len buf s) := by
  have hheader : ReadsWithin len (blockTrace s) ↔ ReadsWithin len s.trace := by
    unfold blockTrace
    rw [readsWithin_read_cons]
    exact and_iff_right hroom
  unfold streamRound at h
  dsimp only at h
  unfold Compressed
  by_cases hc : lznt1BlockCompressed (data.word s.offset 2) = true
  · rw [if_pos hc] at h
    obtain ⟨⟨bret, b⟩, hb, hr⟩ := Option.map_eq_some_iff.mp h
    have htrace : t.trace = b.trace := by
      dsimp only at hr
      split_ifs at hr
      · cases hr
        rfl
      · cases hr
        rfl
    rw [htrace, lznt1Block_reads hb]
    simp only [hc, forall_const]
    exact and_congr_left' hheader
  · rw [if_neg hc] at h
    simp only [hc, Bool.false_eq_true, false_imp_iff, and_true]
    by_cases hover : blockLimit data s > len
    · rw [if_pos hover] at h
      cases h
      exact hheader
    · rw [if_neg hover] at h
      cases h
      dsimp only
      cases buf with
      | none => exact hheader
      | some out =>
          rw [Option.isSome_some, if_pos rfl, readsWithin_read_cons]
          refine (and_iff_right ?_).trans hheader
          unfold blockLimit at hover
          omega

/-- Where the stream goes on, there is a header. -/
theorem streamExit_none {data : Mem} {len : ℕ} {s : StreamState}
    (h : streamExit data len s = none) : s.offset + 2 ≤ len := by
  unfold streamExit at h
  split_ifs at h
  omega

/-- An exit reads no input. -/
theorem streamExit_reads {data : Mem} {len : ℕ} {s t : StreamState} {ret : ℤ}
    (h : streamExit data len s = some (ret, t)) :
    ReadsWithin len t.trace ↔ ReadsWithin len s.trace := by
  unfold streamExit at h
  split_ifs at h with h0 h1
  · cases h
    exact Iff.rfl
  · cases h
    dsimp only
    rw [readsWithin_read_cons]
    exact and_iff_right (by omega)
  · cases h
    exact Iff.rfl

/-- The reads of the blocks from one on. -/
theorem streamLoop_reads {data : Mem} {len : ℕ} {buf : Option ℕ} (fuel : ℕ) {s t : StreamState}
    {ret : ℤ} (h : streamLoop data len buf fuel s = some (ret, t)) :
    ReadsWithin len t.trace ↔ ReadsWithin len s.trace ∧
      ∀ b ∈ streamRounds data len buf fuel s, Compressed data b → BlockReads data len buf b := by
  induction fuel generalizing s with
  | zero => cases h
  | succ fuel ih =>
      rw [streamLoop_succ] at h
      rw [streamRounds]
      cases hexit : streamExit data len s with
      | some r =>
          rw [hexit] at h
          cases h
          rw [streamExit_reads hexit]
          simp only [List.not_mem_nil, false_imp_iff, implies_true, and_true]
      | none =>
          rw [hexit] at h
          dsimp only at h ⊢
          cases hround : streamRound data len buf s with
          | none =>
              rw [hround] at h
              cases h
          | some r =>
              obtain ⟨ret', u⟩ := r
              have hreads := streamRound_reads (streamExit_none hexit) hround
              rw [hround] at h
              cases ret' with
              | some ret' =>
                  cases h
                  simp only [List.mem_singleton, forall_eq]
                  exact hreads
              | none =>
                  dsimp only at h ⊢
                  rw [ih h, hreads, List.forall_mem_cons, and_assoc]

/-! ## The back-references -/

/-- Within a block the output pointer and the output length move together. -/
theorem mem_blockRounds_dest {data : Mem} {limit dest : ℕ} (fuel : ℕ) {s r : BlockState}
    (hdest : s.dest = some dest) (hr : r ∈ blockRounds data limit fuel s) :
    ∃ k, r.outLen = s.outLen + k ∧ r.dest = some (dest + k) := by
  induction fuel generalizing s dest with
  | zero => cases hr
  | succ fuel ih =>
      rw [blockRounds] at hr
      split_ifs at hr with h0
      · cases hr
      · rcases List.mem_cons.mp hr with rfl | hrest
        · exact ⟨0, rfl, hdest⟩
        · obtain ⟨⟨j, hlen, hdest', -⟩, -⟩ := @blockRound_wrote data limit dest s hdest
          generalize blockRound data limit s = q at hrest hlen hdest'
          obtain ⟨_ | ret, u⟩ := q
          · obtain ⟨k, hlen', hdest''⟩ := ih hdest' hrest
            refine ⟨j + k, ?_, ?_⟩
            · rw [hlen', hlen, Nat.add_assoc]
            · rw [hdest'', Nat.add_assoc]
          · cases hrest

/-- The output pointer is behind the output of the blocks before, and of this one. -/
theorem mem_roundsOf_dest {data : Mem} {buf : ℕ} {s : StreamState} {r : BlockState}
    (hr : r ∈ roundsOf data (some buf) s) :
    r.dest = some (buf + s.outLen.toNat + r.outLen) := by
  obtain ⟨k, hlen, hdest⟩ := mem_blockRounds_dest _ rfl hr
  rw [hdest, hlen]
  dsimp only [blockStart]
  rw [Nat.zero_add]

/-- A back-reference starts in the output iff its distance is no more than the output so far. -/
theorem copiesWithin_iff {data : Mem} {len : ℕ} {buf : Option ℕ} {mem : Mem} :
    CopiesWithin data len buf mem ↔
      ∀ s ∈ lznt1Blocks data len buf mem, Compressed data s → buf.isSome →
        ∀ r ∈ roundsOf data buf s, ∀ dist,
          roundDistance data (blockLimit data s) r = some dist → dist ≤ s.outLen.toNat + r.outLen := by
  unfold CopiesWithin
  cases buf with
  | none => simp only [reduceCtorEq, false_imp_iff, implies_true, Option.isSome_none,
      Bool.false_eq_true]
  | some out =>
      constructor
      · intro h s hs hc _ r hr dist hdist
        have hle := h out rfl s hs hc r hr _ dist (mem_roundsOf_dest hr) hdist
        omega
      · intro h out' hout s hs hc r hr dest dist hdest hdist
        obtain rfl := Option.some.inj hout
        have hle := h s hs hc rfl r hr dist hdist
        have heq := Option.some.inj ((mem_roundsOf_dest hr).symm.trans hdest)
        omega

/-! ## The result -/

/-- **When LZNT1 decompression is confined.** `lznt1_decompress` returns; it has read the input in
front of its end only, and copied back-references from the output only, iff every compressed block
that it comes to fits.
Source: libnt/lznt1.c, lznt1_decompress, lznt1_block -/
theorem lznt1Decompress_confined_iff (data : Mem) (len : ℕ) (buf : Option ℕ) (mem : Mem) :
    ∃ ret t, lznt1Decompress data len buf mem = some (ret, t) ∧
      (ReadsWithin len t.trace ∧ CopiesWithin data len buf mem ↔
        ∀ s ∈ lznt1Blocks data len buf mem, Compressed data s → BlockFits data len buf s) := by
  obtain ⟨⟨ret, t⟩, h⟩ := Option.isSome_iff_exists.mp (lznt1Decompress_isSome data len buf mem)
  have hreads := streamLoop_reads _ h
  have hnil : ReadsWithin len [] := fun _ _ hmem => absurd hmem List.not_mem_nil
  refine ⟨ret, t, h, ?_⟩
  rw [hreads, copiesWithin_iff]
  constructor
  · rintro ⟨⟨-, hlimit⟩, hdist⟩ s hs hc
    exact ⟨hlimit s hs hc, hdist s hs hc⟩
  · intro hfits
    exact ⟨⟨hnil, fun s hs hc => (hfits s hs hc).toBlockReads⟩, fun s hs hc => (hfits s hs hc).distance⟩

/-- The sizing pass does not read the literals of a block, also if they are behind the input. -/
example : (lznt1Decompress (Mem.ofList [0x08, 0x80, 0x00]) 3 none Mem.zero).map
    (fun r => (r.1, r.2.trace)) = some (-1, [.read 2 1, .read 0 2]) := by decide +kernel

/-- A block of three bytes: a compressed value of distance one, with no output in front of it. -/
def backrefInput : Mem := Mem.ofList [0x02, 0x80, 0x01, 0x00, 0x00]

/-- A header whose block is not there. -/
def headerInput : Mem := Mem.ofList [0x00, 0x80]

/-- Of five bytes three are copied from in front of the buffer, and the length three is returned;
behind a header of two bytes a third one is read. -/
theorem lznt1Decompress_not_confined :
    (lznt1Decompress backrefInput 5 (some 0x1000) Mem.zero).map Prod.fst = some 3 ∧
      ¬CopiesWithin backrefInput 5 (some 0x1000) Mem.zero ∧
      ∀ ret t, lznt1Decompress headerInput 2 none Mem.zero = some (ret, t) →
        ¬ReadsWithin 2 t.trace := by
  refine ⟨by decide +kernel, fun h => ?_, fun ret t h => ?_⟩
  · have hblock := h 0x1000 rfl ⟨0, 0, Mem.zero, []⟩ List.mem_cons_self
      (show lznt1BlockCompressed (backrefInput.word 0 2) = true by decide +kernel)
      (blockStart 2 (some 0x1000) Mem.zero [.read 0 2]) List.mem_cons_self 0x1000 1 rfl
      (by decide +kernel)
    omega
  · have htrace : (lznt1Decompress headerInput 2 none Mem.zero).map (fun r => r.2.trace) =
        some [.read 2 1, .read 0 2] := by decide +kernel
    rw [h] at htrace
    intro hreads
    have hlist : t.trace = [.read 2 1, .read 0 2] := Option.some.inj htrace
    have hlast := hreads 2 1 (by rw [hlist]; exact List.mem_cons_self)
    omega

end Ntloader.Lznt1
