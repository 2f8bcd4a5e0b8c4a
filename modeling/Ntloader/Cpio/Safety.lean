import Ntloader.Cpio.Mkinitrd

/-!
# Extraction of any archive

Whether the loop of `cpio_extract` ends, and what it reads and hands out, for archives that nothing is
known of.

* `LoopState`, `LoopStep` — the loop as a transition system, with a handler that may write to memory.
* `Ends`, `cpioExtract_ends_iff` — the loop ends and gets shorter with every member, exactly if no
  member's lengths add up to nothing.
* `PassSafe`, `cpioExtract_safe` — what is read and handed out stays within the archive in every run
  over members whose lengths do not wrap around and whose names end.
* `endlessArchive`, `unterminatedArchive` — archives that break the two.
-/

namespace Ntloader.Cpio

open Ntloader.Lib Ntloader.Lib.Mem Ntloader.Posix

/-! ## The loop as a transition system -/

/-- The state at the start of a pass. -/
structure LoopState (σ : Type) where
  /-- Address of the rest of the archive. -/
  data : ℕ
  /-- Its length. -/
  len : ℕ
  /-- The memory. -/
  mem : Mem
  /-- The handler's state. -/
  state : σ

variable {σ : Type}

/-- A pass that hands out a member which the handler accepts. -/
def LoopStep (arch : Arch) (file : Handler σ) (a b : LoopState σ) : Prop :=
  ∃ mb, (extractPass arch a.mem a.data a.len).2 = .member mb ∧
    (file mb.fileName (mb.fileData arch) mb.fileLen a.mem a.state).1 = 0 ∧
    b = ⟨mb.data + mb.cpioLen arch, mb.len - mb.cpioLen arch,
      (file mb.fileName (mb.fileData arch) mb.fileLen a.mem a.state).2.1,
      (file mb.fileName (mb.fileData arch) mb.fileLen a.mem a.state).2.2⟩

/-- The states a run comes to. -/
abbrev Reaches (arch : Arch) (file : Handler σ) : LoopState σ → LoopState σ → Prop :=
  Relation.ReflTransGen (LoopStep arch file)

/-- The end of the archive stays where it is, and its start moves forward. -/
theorem LoopStep.bounds {arch : Arch} {file : Handler σ} {a b : LoopState σ}
    (h : LoopStep arch file a b) : a.data ≤ b.data ∧ b.data + b.len = a.data + a.len := by
  obtain ⟨mb, hmb, -, rfl⟩ := h
  have hfound := Member.found hmb
  have hle := hfound.le
  have hstop := hfound.stop
  have hlen := hfound.cpioLen_le
  dsimp only
  omega

/-- So it is along a run. -/
theorem Reaches.bounds {arch : Arch} {file : Handler σ} {a b : LoopState σ}
    (h : Reaches arch file a b) : a.data ≤ b.data ∧ b.data + b.len = a.data + a.len := by
  induction h with
  | refl => exact ⟨le_refl _, rfl⟩
  | tail _ hstep ih =>
      obtain ⟨h₁, h₂⟩ := hstep.bounds
      exact ⟨ih.1.trans h₁, h₂.trans ih.2⟩

/-! ## The end of the loop -/

/-- The loop ends, and every member handed out makes the rest of the archive shorter. -/
structure Ends (arch : Arch) (file : Handler σ) (a : LoopState σ) : Prop where
  /-- The call returns. -/
  returns : ∃ fuel r, cpioExtract arch file fuel a.data a.len a.mem a.state = some r
  /-- Every member makes the rest shorter. -/
  shrinks : ∀ b, Reaches arch file a b → ∀ mb, (extractPass arch b.mem b.data b.len).2 = .member mb →
    mb.len - mb.cpioLen arch < mb.len

/-- The length of a member without its last padding, as the lengths in its header add up. -/
def Member.extent (arch : Arch) (mb : Member) : ℕ :=
  (cpioAlign arch ((cpioHeaderSize + mb.nameLen) % arch.ulong) + mb.fileLen) % arch.ulong

/-- A member takes no room exactly if its lengths add up to zero, or to so much that rounding wraps
around. -/
theorem Member.cpioLen_eq_zero_iff (arch : Arch) {mb : Member} (hlen : 0 < mb.len) :
    mb.cpioLen arch = 0 ↔
      mb.extent arch = 0 ∨ mb.extent arch < mb.len ∧ arch.ulong - 3 ≤ mb.extent arch := by
  have hge := arch.ulong_ge
  have hlt : mb.extent arch < arch.ulong := Nat.mod_lt _ (by omega)
  have hdef : mb.cpioLen arch =
      if mb.extent arch < mb.len then cpioAlign arch (mb.extent arch) else mb.extent arch := rfl
  rw [hdef]
  split_ifs with h
  · rw [cpioAlign]
    rcases Nat.lt_or_ge (mb.extent arch + 3) arch.ulong with hwrap | hwrap
    · rw [Nat.mod_eq_of_lt hwrap]
      omega
    · rw [Nat.mod_eq_sub_mod hwrap, Nat.mod_eq_of_lt (by omega)]
      omega
  · omega

/-- Without empty members, as many passes as the archive has bytes are enough. -/
theorem cpioExtract_returns {arch : Arch} {file : Handler σ} (n : ℕ) (a : LoopState σ)
    (hn : a.len ≤ n)
    (h : ∀ b, Reaches arch file a b → ∀ mb, (extractPass arch b.mem b.data b.len).2 = .member mb →
      mb.len - mb.cpioLen arch < mb.len) :
    ∃ r, cpioExtract arch file (n + 1) a.data a.len a.mem a.state = some r := by
  induction n generalizing a with
  | zero =>
      rw [cpioExtract]
      cases hpass : (extractPass arch a.mem a.data a.len).2 with
      | stop rc => exact ⟨_, rfl⟩
      | member mb =>
          have hstop := (Member.found hpass).stop
          have hle := (Member.found hpass).le
          have := h a Relation.ReflTransGen.refl mb hpass
          omega
  | succ n ih =>
      rw [cpioExtract]
      cases hpass : (extractPass arch a.mem a.data a.len).2 with
      | stop rc => exact ⟨_, rfl⟩
      | member mb =>
          have hstop := (Member.found hpass).stop
          have hle := (Member.found hpass).le
          have hlt := h a Relation.ReflTransGen.refl mb hpass
          dsimp only
          by_cases hrc : (file mb.fileName (mb.fileData arch) mb.fileLen a.mem a.state).1 = 0
          · rw [if_neg (not_not.mpr hrc)]
            have hstep : LoopStep arch file a _ := ⟨mb, hpass, hrc, rfl⟩
            refine ih _ ?_ fun b hb => h b (Relation.ReflTransGen.head hstep hb)
            dsimp only
            omega
          · rw [if_pos hrc]
            exact ⟨_, rfl⟩

/-- **When extraction ends.** The loop ends and every member makes the rest shorter, exactly if in no
header the run comes to the lengths add up to zero modulo `size_t`, or to one of its last three
values while the archive is longer still. -/
theorem cpioExtract_ends_iff (arch : Arch) (file : Handler σ) (data len : ℕ) (m : Mem) (s : σ) :
    Ends arch file ⟨data, len, m, s⟩ ↔
      ∀ b, Reaches arch file ⟨data, len, m, s⟩ b →
        ∀ mb, (extractPass arch b.mem b.data b.len).2 = .member mb →
          mb.extent arch ≠ 0 ∧ ¬ (mb.extent arch < mb.len ∧ arch.ulong - 3 ≤ mb.extent arch) := by
  have hiff : ∀ b : LoopState σ, ∀ mb, (extractPass arch b.mem b.data b.len).2 = .member mb →
      (mb.len - mb.cpioLen arch < mb.len ↔
        mb.extent arch ≠ 0 ∧ ¬ (mb.extent arch < mb.len ∧ arch.ulong - 3 ≤ mb.extent arch)) := by
    intro b mb hmb
    have hfound := Member.found hmb
    have hheader := hfound.header
    have hcpio := hfound.cpioLen_le
    rw [cpioHeaderSize] at hheader
    have hzero := @Member.cpioLen_eq_zero_iff arch mb (by omega)
    rw [← not_or, ← hzero]
    omega
  constructor
  · intro hends b hb mb hmb
    exact (hiff b mb hmb).mp (hends.shrinks b hb mb hmb)
  · intro h
    have hshrinks : ∀ b, Reaches arch file ⟨data, len, m, s⟩ b → ∀ mb,
        (extractPass arch b.mem b.data b.len).2 = .member mb →
        mb.len - mb.cpioLen arch < mb.len := fun b hb mb hmb =>
      (hiff b mb hmb).mpr (h b hb mb hmb)
    exact ⟨⟨len + 1, cpioExtract_returns len _ (le_refl _) hshrinks⟩, hshrinks⟩

/-- A member without room keeps the loop going for ever, if the handler accepts it and leaves the
memory alone. -/
theorem cpioExtract_eq_none {arch : Arch} {file : Handler σ} {m : Mem} {mb : Member}
    (hfile : ∀ name data len s, ∃ s', file name data len m s = (0, m, s'))
    (hmb : (extractPass arch m mb.data mb.len).2 = .member mb) (hzero : mb.cpioLen arch = 0)
    (fuel : ℕ) (s : σ) : cpioExtract arch file fuel mb.data mb.len m s = none := by
  induction fuel generalizing s with
  | zero => rfl
  | succ fuel ih =>
      obtain ⟨s', hs'⟩ := hfile mb.fileName (mb.fileData arch) mb.fileLen s
      rw [cpioExtract, hmb]
      simp only [hs', hzero, Nat.add_zero, Nat.sub_zero]
      exact ih s'

/-- An archive of one header, whose `c_namesize` is `"-000006e"`. -/
def endlessArchive : List UInt8 :=
  cpioMagic ++ List.replicate 88 0x30 ++ [0x2d, 0x30, 0x30, 0x30, 0x30, 0x30, 0x36, 0x65] ++
    List.replicate 8 0x30 ++ [0x00, 0x00]

/-- The member of the archive. -/
def endlessMember (arch : Arch) : Member := ⟨0, 112, arch.ulong - 110, 0⟩

/-- The pass over this archive hands out the member. -/
theorem extractPass_endlessArchive (arch : Arch) :
    (extractPass arch (Mem.ofList endlessArchive) 0 112).2 = .member (endlessMember arch) := by
  cases arch <;> decide +kernel

/-- The loop does not end on it, on either build. -/
theorem not_ends_endlessArchive :
    let file : Handler Unit := fun _ _ _ m s => (0, m, s)
    (∀ name data len m s, (file name data len m s).1 = 0) ∧
      ∀ arch, (∀ fuel, cpioExtract arch file fuel 0 endlessArchive.length
          (Mem.ofList endlessArchive) () = none) ∧
        ¬ Ends arch file ⟨0, endlessArchive.length, Mem.ofList endlessArchive, ()⟩ := by
  intro file
  refine ⟨fun _ _ _ _ _ => rfl, fun arch => ?_⟩
  have hnone : ∀ fuel, cpioExtract arch file fuel 0 112 (Mem.ofList endlessArchive) () = none :=
    fun fuel => @cpioExtract_eq_none _ _ _ _ (endlessMember arch) (fun _ _ _ s => ⟨s, rfl⟩)
        (extractPass_endlessArchive arch) (by cases arch <;> decide +kernel) fuel ()
  refine ⟨hnone, fun hends => ?_⟩
  obtain ⟨fuel, r, hr⟩ := hends.returns
  exact Option.some_ne_none r (hr.symm.trans (hnone fuel))

/-! ## What is handed out -/

/-- A pass of the loop over the archive at `data₀` of `len₀` bytes reads nothing outside of it, and
hands out a name that ends within its record and data within the archive. -/
structure PassSafe (arch : Arch) (data₀ len₀ : ℕ) (b : LoopState σ) : Prop where
  /-- Every byte read lies in the archive. -/
  reads : ∀ r ∈ (extractPass arch b.mem b.data b.len).1, data₀ ≤ r.1 ∧ r.1 + r.2 ≤ data₀ + len₀
  /-- The name handed out ends within the record. -/
  name : ∀ mb, (extractPass arch b.mem b.data b.len).2 = .member mb →
    ∃ k, mb.fileName ≤ k ∧ k < mb.data + mb.cpioLen arch ∧ b.mem k = 0
  /-- The data handed out lies in the archive. -/
  data : ∀ mb, (extractPass arch b.mem b.data b.len).2 = .member mb →
    data₀ ≤ mb.fileData arch ∧ mb.fileData arch + mb.fileLen ≤ data₀ + len₀

/-- A header whose lengths do not wrap around, with a NUL between the header and the end of the
record. -/
structure Member.Sane (arch : Arch) (m : Mem) (mb : Member) : Prop where
  /-- The offset of the data and the length of the data add up, with their padding. -/
  noWrap : cpioAlign arch ((cpioHeaderSize + mb.nameLen) % arch.ulong) + mb.fileLen + 3 < arch.ulong
  /-- There is a NUL in the dwords of the record, or of what there is of it. -/
  terminated : ∃ k, cpioHeaderSize ≤ k ∧ k < mb.len ∧
    k / 4 * 4 < cpioAlign arch ((cpioHeaderSize + mb.nameLen) % arch.ulong) + mb.fileLen ∧
    m (mb.data + k) = 0

/-- A member that is found and sane ends at its last dword or at the end of the archive. -/
theorem Member.Sane.cpioLen {arch : Arch} {m : Mem} {mb : Member} (h : mb.Sane arch m) :
    mb.cpioLen arch = if mb.offset arch + mb.fileLen < mb.len then
      (mb.offset arch + mb.fileLen + 3) / 4 * 4 else mb.offset arch + mb.fileLen := by
  have hwrap : mb.offset arch + mb.fileLen + 3 < arch.ulong := h.noWrap
  have hmod : (mb.offset arch + mb.fileLen) % arch.ulong = mb.offset arch + mb.fileLen :=
    Nat.mod_eq_of_lt (by omega)
  rw [Member.cpioLen, hmod, cpioAlign_of_lt hwrap]

/-- **A pass over a sane header is safe.** -/
theorem passSafe_of_sane {arch : Arch} {data₀ len₀ : ℕ} {b : LoopState σ}
    (hfit : data₀ + len₀ < arch.ulong) (hb : data₀ ≤ b.data ∧ b.data + b.len = data₀ + len₀)
    (h : ∀ mb : Member, mb.Found arch b.mem b.data b.len → mb.Sane arch b.mem) :
    PassSafe arch data₀ len₀ b := by
  rcases extractPass_cases arch b.mem b.data b.len with ⟨reads, rc, heq, hreads⟩ | ⟨mb, hfound, h₁, h₂⟩
  · refine ⟨fun r hr => ?_, fun mb hmb => ?_, fun mb hmb => ?_⟩
    · rw [heq] at hr
      have := hreads r hr
      omega
    · rw [heq] at hmb
      cases hmb
    · rw [heq] at hmb
      cases hmb
  · have hsane := h mb hfound
    have hle := hfound.le
    have hstop := hfound.stop
    have hheader := hfound.header
    have hcpio := hfound.cpioLen_le
    rw [hsane.cpioLen] at hcpio
    obtain ⟨k, hk₁, hk₂, hk₃, hk₄⟩ := hsane.terminated
    change k / 4 * 4 < mb.offset arch + mb.fileLen at hk₃
    simp only [cpioHeaderSize] at hheader hk₁
    -- the handed out member is the one found
    have hmember : ∀ mb', (extractPass arch b.mem b.data b.len).2 = .member mb' → mb' = mb := by
      intro mb' hmb'
      rw [h₂] at hmb'
      split_ifs at hmb'
      cases hmb'
      rfl
    refine ⟨?_, ?_, ?_⟩
    · have hname : mb.fileName = mb.data + 110 := rfl
      have hnul : b.mem (mb.fileName + (k - 110)) = 0 := by
        rw [hname, ← hk₄]
        congr 1
        omega
      have hcmp := strcmp_snd_le b.mem cpioTrailer (by decide) hnul
      rw [h₁]
      simp only [List.forall_mem_cons, cNamesize, cFilesize]
      refine ⟨⟨hb.1, ?_⟩, by omega, by omega, by omega, by omega, fun r hr =>
        absurd hr List.not_mem_nil⟩
      split_ifs <;> omega
    · intro mb' hmb'
      obtain rfl := hmember mb' hmb'
      refine ⟨mb'.data + k, ?_, ?_, hk₄⟩
      · simp only [Member.fileName, cpioHeaderSize]
        omega
      · rw [hsane.cpioLen]
        split_ifs <;> omega
    · intro mb' hmb'
      obtain rfl := hmember mb' hmb'
      have hend : mb'.offset arch + mb'.fileLen ≤ mb'.len := by
        split_ifs at hcpio <;> omega
      have haddr : mb'.fileData arch = mb'.data + mb'.offset arch :=
        Nat.mod_eq_of_lt (by omega)
      rw [haddr]
      omega

/-- **Extraction is safe over sane headers.** In every run in which each header that passes the
checks is sane, no pass reads outside the archive, and what is handed out lies in it. -/
theorem cpioExtract_safe {arch : Arch} {file : Handler σ} {a : LoopState σ}
    (hfit : a.data + a.len < arch.ulong)
    (h : ∀ b, Reaches arch file a b → ∀ mb : Member, mb.Found arch b.mem b.data b.len →
      mb.Sane arch b.mem) :
    ∀ b, Reaches arch file a b → PassSafe arch a.data a.len b := fun b hb =>
  passSafe_of_sane hfit hb.bounds (h b hb)

/-- The member that a pass comes to. -/
def memberAt (arch : Arch) (m : Mem) (data len : ℕ) : Member :=
  let rest := skipPadding m data len
  ⟨rest.1, rest.2, cpioValue arch m (rest.1 + cNamesize), cpioValue arch m (rest.1 + cFilesize)⟩

/-- It is the one that is found. -/
theorem Member.Found.eq_memberAt {arch : Arch} {m : Mem} {data len : ℕ} {mb : Member}
    (h : mb.Found arch m data len) : mb = memberAt arch m data len := by
  obtain ⟨hpad, -, -, hname, hfile, -⟩ := h
  rw [memberAt, hpad]
  dsimp only
  rw [← hname, ← hfile]

/-- The run over the archive of two files, with a handler that counts them: three passes, each over a
sane header. -/
theorem cpioExtract_safe_twoInFiles :
    let file : Handler ℕ := fun _ _ _ m s => (0, m, s + 1)
    let a : LoopState ℕ := ⟨0, (mkinitrd twoInFiles).length, Mem.ofList (mkinitrd twoInFiles), 0⟩
    ∀ b, Reaches .i386 file a b → PassSafe .i386 a.data a.len b := by
  intro file a
  have hpass : (extractPass .i386 a.mem 0 368).2 = .member ⟨0, 368, 2, 1⟩ := by decide +kernel
  have hpass₁ : (extractPass .i386 a.mem 116 252).2 = .member ⟨116, 252, 9, 5⟩ := by decide +kernel
  have hpass₂ : (extractPass .i386 a.mem 244 124).2 = .stop 0 := by decide +kernel
  have hlen : (mkinitrd twoInFiles).length = 368 := by decide +kernel
  have hstates : ∀ b, Reaches .i386 file a b →
      b = ⟨0, 368, a.mem, 0⟩ ∨ b = ⟨116, 252, a.mem, 1⟩ ∨ b = ⟨244, 124, a.mem, 2⟩ := by
    intro b hb
    induction hb with
    | refl => exact Or.inl (by rw [← hlen])
    | tail _ hstep ih =>
        obtain ⟨mb, hmb, -, rfl⟩ := hstep
        rcases ih with rfl | rfl | rfl
        · obtain rfl := Outcome.member.inj (hpass.symm.trans hmb)
          exact Or.inr (Or.inl rfl)
        · obtain rfl := Outcome.member.inj (hpass₁.symm.trans hmb)
          exact Or.inr (Or.inr rfl)
        · cases hpass₂.symm.trans hmb
  refine cpioExtract_safe (by decide +kernel) fun b hb mb hfound => ?_
  have hmb := hfound.eq_memberAt
  rcases hstates b hb with rfl | rfl | rfl
  · obtain rfl : mb = ⟨0, 368, 2, 1⟩ := hmb.trans (by decide +kernel)
    exact ⟨by decide, 111, by decide +kernel⟩
  · obtain rfl : mb = ⟨116, 252, 9, 5⟩ := hmb.trans (by decide +kernel)
    exact ⟨by decide, 118, by decide +kernel⟩
  · obtain rfl : mb = ⟨244, 124, 11, 0⟩ := hmb.trans (by decide +kernel)
    exact ⟨by decide, 120, by decide +kernel⟩

/-- An archive of one header, whose name `"TR"` has no NUL. -/
def unterminatedArchive : List UInt8 :=
  cpioMagic ++ List.replicate 95 0x30 ++ [0x32] ++ List.replicate 8 0x30 ++ [0x54, 0x52]

/-- The comparison with the trailer reads the byte behind the archive, and the handler is given a name
that does not end within its record; on either build. -/
theorem not_passSafe_unterminatedArchive :
    let a : LoopState Unit :=
      ⟨0, unterminatedArchive.length, Mem.ofList unterminatedArchive, ()⟩
    a.data + a.len < 2 ^ 32 ∧ ∀ arch,
      (∃ r ∈ (extractPass arch a.mem a.data a.len).1, a.data + a.len < r.1 + r.2) ∧
      (∃ mb, (extractPass arch a.mem a.data a.len).2 = .member mb ∧
        ∀ k, mb.fileName ≤ k → k < mb.data + mb.cpioLen arch → a.mem k ≠ 0) ∧
      ¬ PassSafe arch a.data a.len a := by
  intro a
  refine ⟨by decide, fun arch => ?_⟩
  have hreads : (110, 3) ∈ (extractPass arch a.mem a.data a.len).1 := by
    cases arch <;> decide +kernel
  have hpass : (extractPass arch a.mem a.data a.len).2 = .member ⟨0, 112, 2, 0⟩ := by
    cases arch <;> decide +kernel
  have hlen : Member.cpioLen arch ⟨0, 112, 2, 0⟩ = 112 := by
    cases arch <;> decide +kernel
  have hname : ∀ k, 110 ≤ k → k < 112 → a.mem k ≠ 0 := by
    intro k h₁ h₂
    obtain rfl | rfl : k = 110 ∨ k = 111 := by omega
    · decide +kernel
    · decide +kernel
  refine ⟨⟨_, hreads, by decide⟩, ⟨_, hpass, fun k h₁ h₂ => ?_⟩, fun hsafe => ?_⟩
  · rw [hlen] at h₂
    exact hname k h₁ (by simpa using h₂)
  · obtain ⟨k, h₁, h₂, hk⟩ := hsafe.name _ hpass
    rw [hlen] at h₂
    exact hname k h₁ (by simpa using h₂) hk

end Ntloader.Cpio
