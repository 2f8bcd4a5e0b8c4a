import Ntloader.Posix.String

/-!
# Extracting a CPIO archive: the model of `cpio_extract`

* `cpioAlign`, `cpioValue` — the rounding and the header fields, in the width of `size_t`.
* `extractPass` — one pass of the loop up to the call of the handler: what it reads, and either the
  return code it ends the loop with or the member it hands out.
* `cpioExtract` — the loop, on fuel.

The handler is given the pointers, and may write to memory. Addresses are natural numbers; the
address of a member's data is computed modulo the width of a pointer, as it can be made to wrap.
-/

namespace Ntloader.Cpio

open Ntloader.Lib Ntloader.Lib.Mem Ntloader.Posix

/-- A file handler: it is given the addresses of the name and of the data and the length of the data,
and returns a status code. -/
abbrev Handler (σ : Type) := ℕ → ℕ → ℕ → Mem → σ → ℤ × Mem × σ

/-- `sizeof (struct cpio_header)`, of fourteen fields.
Source: include/cpio.h, struct cpio_header -/
@[simp] def cpioHeaderSize : ℕ := 110

/-- `offsetof (struct cpio_header, c_filesize)` -/
@[simp] def cFilesize : ℕ := 54

/-- `offsetof (struct cpio_header, c_namesize)` -/
@[simp] def cNamesize : ℕ := 94

/-- CPIO magic, `"070701"`.
Source: include/cpio.h, CPIO_MAGIC -/
def cpioMagic : List UInt8 := [0x30, 0x37, 0x30, 0x37, 0x30, 0x31]

/-- CPIO trailer, `"TRAILER!!!"`.
Source: include/cpio.h, CPIO_TRAILER -/
def cpioTrailer : List UInt8 := [0x54, 0x52, 0x41, 0x49, 0x4c, 0x45, 0x52, 0x21, 0x21, 0x21]

/-- Align CPIO length to nearest dword.
Source: libnt/cpio.c, cpio_align -/
def cpioAlign (arch : Arch) (len : ℕ) : ℕ := (len + 3) % arch.ulong / 4 * 4

/-- Parse CPIO field value: the eight characters of the field, up to the first NUL.
Source: libnt/cpio.c, cpio_value -/
def cpioValue (arch : Arch) (m : Mem) (field : ℕ) : ℕ :=
  (strtoul arch ((m.bytes field 8).takeWhile (· ≠ 0)) 16).1

/-- Skip over any padding: the address and the length behind the zero dwords.
Source: libnt/cpio.c, cpio_extract, `Skip over any padding` -/
def skipPadding (m : Mem) : ℕ → ℕ → ℕ × ℕ
  | data, len + 4 => if m.word data 4 = 0 then skipPadding m (data + 4) len else (data, len + 4)
  | data, len => (data, len)

/-- The parameters of a member, as they are in its header. -/
structure Member where
  /-- Address of the header. -/
  data : ℕ
  /-- Length of the archive from the header on. -/
  len : ℕ
  /-- Length of the name, from `c_namesize`. -/
  nameLen : ℕ
  /-- Length of the data, from `c_filesize`. -/
  fileLen : ℕ
  deriving Repr, DecidableEq

/-- Offset of the data from the header. -/
def Member.offset (arch : Arch) (mb : Member) : ℕ :=
  cpioAlign arch ((cpioHeaderSize + mb.nameLen) % arch.ulong)

/-- `file_name` -/
def Member.fileName (mb : Member) : ℕ := mb.data + cpioHeaderSize

/-- `file_data` -/
def Member.fileData (arch : Arch) (mb : Member) : ℕ := (mb.data + mb.offset arch) % arch.ulong

/-- `cpio_len`: the distance of the end of the data from the header, aligned unless it reaches the
end of the archive. -/
def Member.cpioLen (arch : Arch) (mb : Member) : ℕ :=
  let cpioLen := (mb.offset arch + mb.fileLen) % arch.ulong
  if cpioLen < mb.len then cpioAlign arch cpioLen else cpioLen

/-- What a pass of the loop comes to. -/
inductive Outcome where
  /-- The loop is left with a return code. -/
  | stop (rc : ℤ)
  /-- A member is handed out. -/
  | member (mb : Member)
  deriving Repr, DecidableEq

/-- One pass of the loop up to the call of the handler: the bytes it reads, as addresses and lengths,
and what it comes to.
Source: libnt/cpio.c, cpio_extract, `while` -/
def extractPass (arch : Arch) (m : Mem) (data₀ len₀ : ℕ) : List (ℕ × ℕ) × Outcome :=
  let (data, len) := skipPadding m data₀ len₀
  -- the dwords skipped, and the one that is not zero
  let reads := [(data₀, data - data₀ + if len ≥ 4 then 4 else 0)]
  -- Stop if we have reached the end of the archive
  if len = 0 then (reads, .stop 0)
  -- Truncated CPIO header
  else if len < cpioHeaderSize then (reads, .stop (-1))
  else
    let reads := reads ++ [(data, 6)]
    -- Bad CPIO magic
    if m.bytes data 6 ≠ cpioMagic then (reads, .stop (-1))
    else
      let mb : Member :=
        ⟨data, len, cpioValue arch m (data + cNamesize), cpioValue arch m (data + cFilesize)⟩
      let reads := reads ++ [(data + cNamesize, 8), (data + cFilesize, 8)]
      -- Truncated CPIO file
      if mb.cpioLen arch > len then (reads, .stop (-1))
      else
        let cmp := strcmp m mb.fileName cpioTrailer
        let reads := reads ++ [(mb.fileName, cmp.2)]
        -- If we reach the trailer, we're done
        if cmp.1 then (reads, .stop 0) else (reads, .member mb)

/-- Extract files from CPIO archive; `none` is out of fuel.
Source: libnt/cpio.c, cpio_extract -/
def cpioExtract {σ : Type} (arch : Arch) (file : Handler σ) :
    ℕ → ℕ → ℕ → Mem → σ → Option (ℤ × Mem × σ)
  | 0, _, _, _, _ => none
  | fuel + 1, data, len, m, s =>
      match (extractPass arch m data len).2 with
      | .stop rc => some (rc, m, s)
      | .member mb =>
          -- Process file
          let (rc, m, s) := file mb.fileName (mb.fileData arch) mb.fileLen m s
          if rc ≠ 0 then some (rc, m, s)
          -- Move to next file
          else cpioExtract arch file fuel (mb.data + mb.cpioLen arch) (mb.len - mb.cpioLen arch) m s

/-! ## The fields -/

/-- While it does not wrap around, the length is rounded up. -/
theorem cpioAlign_of_lt {arch : Arch} {len : ℕ} (h : len + 3 < arch.ulong) :
    cpioAlign arch len = (len + 3) / 4 * 4 := by
  rw [cpioAlign, Nat.mod_eq_of_lt h]

/-! ## The passes -/

/-- Padding is skipped in dwords. -/
theorem skipPadding_spec (m : Mem) (data len : ℕ) :
    data ≤ (skipPadding m data len).1 ∧
      (skipPadding m data len).1 + (skipPadding m data len).2 = data + len := by
  induction len using Nat.strong_induction_on generalizing data with
  | _ len ih =>
      match len with
      | 0 => exact ⟨le_refl _, rfl⟩
      | 1 => exact ⟨le_refl _, rfl⟩
      | 2 => exact ⟨le_refl _, rfl⟩
      | 3 => exact ⟨le_refl _, rfl⟩
      | len + 4 =>
          rw [skipPadding]
          split_ifs
          · have := ih len (by omega) (data + 4)
            omega
          · exact ⟨le_refl _, rfl⟩

/-- A dword that is not zero is not skipped. -/
theorem skipPadding_of_ne {m : Mem} {data len : ℕ} (h : m.word data 4 ≠ 0) :
    skipPadding m data len = (data, len) := by
  match len with
  | 0 => rfl
  | 1 => rfl
  | 2 => rfl
  | 3 => rfl
  | len + 4 => rw [skipPadding, if_neg h]

/-- A member that passes the checks of the loop: it is the trailer or it is handed out. -/
structure Member.Found (arch : Arch) (m : Mem) (data len : ℕ) (mb : Member) : Prop where
  /-- It lies behind the padding. -/
  padding : skipPadding m data len = (mb.data, mb.len)
  /-- There is room for its header, -/
  header : cpioHeaderSize ≤ mb.len
  /-- which starts with the magic. -/
  magic : m.bytes mb.data 6 = cpioMagic
  /-- Its header says how long its name is, -/
  nameLen : mb.nameLen = cpioValue arch m (mb.data + cNamesize)
  /-- and how long its data. -/
  fileLen : mb.fileLen = cpioValue arch m (mb.data + cFilesize)
  /-- It does not reach past the end of the archive. -/
  cpioLen_le : mb.cpioLen arch ≤ mb.len

/-- A member that is found lies behind the start of the pass, -/
theorem Member.Found.le {arch : Arch} {m : Mem} {data len : ℕ} {mb : Member}
    (h : mb.Found arch m data len) : data ≤ mb.data := by
  simpa [h.padding] using (skipPadding_spec m data len).1

/-- and ends where the archive ends. -/
theorem Member.Found.stop {arch : Arch} {m : Mem} {data len : ℕ} {mb : Member}
    (h : mb.Found arch m data len) : mb.data + mb.len = data + len := by
  simpa [h.padding] using (skipPadding_spec m data len).2

/-- A pass either stops before it has found a member, or it has found one, compared its name, and
stops or hands it out. -/
theorem extractPass_cases (arch : Arch) (m : Mem) (data len : ℕ) :
    (∃ reads rc, extractPass arch m data len = (reads, .stop rc) ∧
        ∀ r ∈ reads, data ≤ r.1 ∧ r.1 + r.2 ≤ data + len) ∨
      ∃ mb : Member, mb.Found arch m data len ∧
        (extractPass arch m data len).1 =
          [(data, mb.data - data + if mb.len ≥ 4 then 4 else 0), (mb.data, 6),
            (mb.data + cNamesize, 8), (mb.data + cFilesize, 8),
            (mb.fileName, (strcmp m mb.fileName cpioTrailer).2)] ∧
        (extractPass arch m data len).2 =
          if (strcmp m mb.fileName cpioTrailer).1 then .stop 0 else .member mb := by
  set data' := (skipPadding m data len).1 with hdata'
  set len' := (skipPadding m data len).2 with hlen'
  obtain ⟨hle, hstop⟩ : data ≤ data' ∧ data' + len' = data + len := skipPadding_spec m data len
  have hpad : data ≤ data ∧ data + (data' - data + if len' ≥ 4 then 4 else 0) ≤ data + len := by
    refine ⟨le_refl _, ?_⟩
    split_ifs <;> omega
  have hdef : extractPass arch m data len = extractPass arch m data len := rfl
  conv at hdef => rhs; rw [extractPass]
  change _ = ite (len' = 0) _ _ at hdef
  by_cases h₀ : len' = 0
  · rw [if_pos h₀] at hdef
    exact Or.inl ⟨_, _, hdef, by simpa using hpad⟩
  rw [if_neg h₀] at hdef
  by_cases h₁ : len' < cpioHeaderSize
  · rw [if_pos h₁] at hdef
    exact Or.inl ⟨_, _, hdef, by simpa using hpad⟩
  rw [if_neg h₁] at hdef
  have hheader : cpioHeaderSize ≤ len' := not_lt.mp h₁
  have hmagic : data ≤ data' ∧ data' + 6 ≤ data + len := by
    simp only [cpioHeaderSize] at hheader
    omega
  by_cases h₂ : m.bytes data' 6 ≠ cpioMagic
  · rw [if_pos h₂] at hdef
    refine Or.inl ⟨_, _, hdef, ?_⟩
    simp only [List.cons_append, List.nil_append, List.forall_mem_cons]
    exact ⟨hpad, hmagic, fun r hr => absurd hr List.not_mem_nil⟩
  rw [if_neg h₂] at hdef
  set mb : Member :=
    ⟨data', len', cpioValue arch m (data' + cNamesize), cpioValue arch m (data' + cFilesize)⟩
  by_cases h₃ : mb.cpioLen arch > len'
  · rw [if_pos h₃] at hdef
    refine Or.inl ⟨_, _, hdef, ?_⟩
    simp only [cpioHeaderSize] at hheader
    simp only [List.cons_append, List.nil_append, List.forall_mem_cons, cNamesize, cFilesize]
    exact ⟨hpad, hmagic, by omega, by omega, fun r hr => absurd hr List.not_mem_nil⟩
  rw [if_neg h₃] at hdef
  refine Or.inr ⟨mb, ⟨rfl, hheader, not_not.mp h₂, rfl, rfl, not_lt.mp h₃⟩, ?_, ?_⟩
  · rw [hdef]
    dsimp only
    rw [apply_ite Prod.fst, ite_self]
    rfl
  · rw [hdef]
    exact apply_ite Prod.snd _ _ _

/-- A member that is handed out was found. -/
theorem Member.found {arch : Arch} {m : Mem} {data len : ℕ} {mb : Member}
    (h : (extractPass arch m data len).2 = .member mb) : mb.Found arch m data len := by
  rcases extractPass_cases arch m data len with ⟨_, _, heq, -⟩ | ⟨mb', hfound, -, heq⟩
  · rw [heq] at h
    cases h
  · rw [heq] at h
    split_ifs at h
    cases h
    exact hfound

end Ntloader.Cpio
