import Ntloader.Cpio.Mkinitrd

/-!
# The loader reads back what `mkinitrd` writes

* `runCalls` — the handler is called for each of a list of members, until it fails.
* `IsCall` — a call hands out the name and the contents of a file.
* `ReadsBack` — extraction of the archive of a list of files is calling the handler for each file.
* `cpioExtract_mkinitrd` — this holds for names that fit the name size field;
  `not_readsBack_of_long_name` — and not beyond.
-/

namespace Ntloader.Cpio

open Ntloader.Lib Ntloader.Lib.Mem Ntloader.Posix

/-- Call the handler for members, given by the addresses of the name and the data and the length of
the data, until it returns a code that is not zero. -/
def runCalls {σ : Type} (file : Handler σ) : List (ℕ × ℕ × ℕ) → Mem → σ → ℤ × Mem × σ
  | [], m, s => (0, m, s)
  | (name, data, len) :: calls, m, s =>
      let (rc, m, s) := file name data len m s
      if rc ≠ 0 then (rc, m, s) else runCalls file calls m s

/-- A call that hands out a file. -/
structure IsCall (m : Mem) (f : InFile) (call : ℕ × ℕ × ℕ) : Prop where
  /-- The name, with its NUL. -/
  name : m.bytes call.1 (f.name.length + 1) = f.name ++ [0]
  /-- The length of the data. -/
  len : call.2.2 = f.contents.length
  /-- The data. -/
  data : m.bytes call.2.1 call.2.2 = f.contents

/-- The handler leaves the archive alone. -/
def Keeps {σ : Type} (file : Handler σ) (data len : ℕ) : Prop :=
  ∀ name d l m s x, data ≤ x → x < data + len → (file name d l m s).2.1 x = m x

/-- Extraction of the archive of some files, with anything behind it, is calling the handler once for
each file, in order, with its name and its contents; it returns zero if the handler always does. -/
def ReadsBack (arch : Arch) (files : List InFile) : Prop :=
  ∀ (extra : List UInt8) (data : ℕ) (m : Mem),
    m.bytes data (mkinitrd files ++ extra).length = mkinitrd files ++ extra →
    data + (mkinitrd files ++ extra).length < arch.ulong →
    ∃ calls, List.Forall₂ (IsCall m) files calls ∧
      ∀ (σ : Type) (file : Handler σ) (s : σ), Keeps file data (mkinitrd files ++ extra).length →
        (∃ fuel, cpioExtract arch file fuel data (mkinitrd files ++ extra).length m s =
          some (runCalls file calls m s)) ∧
        ((∀ name d l m s, (file name d l m s).1 = 0) → (runCalls file calls m s).1 = 0)

/-- If the handler returns zero throughout, so does extraction. -/
theorem runCalls_fst_eq_zero {σ : Type} {file : Handler σ}
    (h : ∀ name data len m s, (file name data len m s).1 = 0) (calls : List (ℕ × ℕ × ℕ)) (m : Mem)
    (s : σ) : (runCalls file calls m s).1 = 0 := by
  induction calls generalizing m s with
  | nil => rfl
  | cons call calls ih =>
      rw [runCalls]
      dsimp only
      rw [if_neg (not_not.mpr (h _ _ _ _ _))]
      exact ih _ _

/-! ## One member -/

section Member

variable {arch : Arch} {m : Mem} {data len : ℕ}

/-- Memory that holds a C string does not hold another one. -/
theorem cstring_unique {a : ℕ} {xs ys : List UInt8} (hx : (0 : UInt8) ∉ xs) (hy : (0 : UInt8) ∉ ys)
    (hmx : m.bytes a (xs.length + 1) = xs ++ [0]) (hmy : m.bytes a (ys.length + 1) = ys ++ [0]) :
    xs = ys := by
  induction xs generalizing a ys with
  | nil =>
      cases ys with
      | nil => rfl
      | cons y ys =>
          rw [List.length_nil, bytes_succ] at hmx
          rw [bytes_succ, List.cons_append, List.cons.injEq] at hmy
          have h₀ : m a = 0 := (List.cons.inj hmx).1
          exact absurd (by rw [← hmy.1, h₀]; exact List.mem_cons_self) hy
  | cons x xs ih =>
      rw [bytes_succ, List.cons_append, List.cons.injEq] at hmx
      cases ys with
      | nil =>
          rw [List.length_nil, bytes_succ] at hmy
          have h₀ : m a = 0 := (List.cons.inj hmy).1
          exact absurd (by rw [← hmx.1, h₀]; exact List.mem_cons_self) hx
      | cons y ys =>
          rw [bytes_succ, List.cons_append, List.cons.injEq] at hmy
          rw [List.mem_cons, not_or] at hx hy
          rw [← hmx.1, ← hmy.1, ih hx.2 hy.2 hmx.2 hmy.2]

/-- A header in memory. -/
structure HasHeader (m : Mem) (data : ℕ) (name : List UInt8) (fsize : ℕ) : Prop where
  /-- It starts with the magic. -/
  magic : m.bytes data 6 = cpioMagic
  /-- The size of the data. -/
  fsize : m.bytes (data + cFilesize) 8 = setField fsize
  /-- The size of the name. -/
  nameSize : m.bytes (data + cNamesize) 8 = setField (name.length + 1)
  /-- The name, with its NUL. -/
  name : m.bytes (data + cpioHeaderSize) (name.length + 1) = name ++ [0]

/-- A header takes its name with the NUL, and its padding. -/
theorem writeHeader_length {name : List UInt8} (hname : name.length + 1 < 2 ^ 32) (mode fsize : ℕ) :
    (writeHeader name mode fsize).length = (cpioHeaderSize + (name.length + 1) + 3) / 4 * 4 := by
  have hlen : (name.length + 1) % 2 ^ 32 = name.length + 1 := Nat.mod_eq_of_lt hname
  rw [← add_alignUpOverhead, writeHeader]
  simp only [hlen, List.length_append, setField_length, List.length_take, List.length_replicate,
    List.length_singleton, min_self, cpioHeaderSize]
  have hmagic : cpioMagic.length = 6 := rfl
  omega

/-- The fields are where the loader looks for them. -/
theorem hasHeader_of_bytes {name : List UInt8} {mode fsize : ℕ} (hname : name.length + 1 < 2 ^ 32)
    (h : m.bytes data (writeHeader name mode fsize).length = writeHeader name mode fsize) :
    HasHeader m data name fsize := by
  have hlen : (name.length + 1) % 2 ^ 32 = name.length + 1 := Nat.mod_eq_of_lt hname
  have htake : (name ++ [0]).take (name.length + 1) = name ++ [0] :=
    List.take_of_length_le (by simp)
  have hcname : (name ++ [0]).length = name.length + 1 := by simp
  rw [writeHeader] at h
  obtain ⟨cname, hcn⟩ : ∃ cname, cname = name ++ [0] := ⟨_, rfl⟩
  simp only [hlen, htake] at h
  rw [← hcn] at h hcname
  simp only [bytes_append_iff, setField_length, hcname, Nat.add_assoc] at h
  obtain ⟨hmagic, -, -, -, -, -, -, hfsize, -, -, -, -, hsize, -, hnm, -⟩ := h
  exact ⟨hmagic, hfsize, hsize, hnm.trans hcn⟩

/-- A dword of digits is not padding. -/
theorem skipPadding_of_magic (h : m.bytes data 6 = cpioMagic) (len : ℕ) :
    skipPadding m data len = (data, len) := by
  apply skipPadding_of_ne
  have hsplit : m.bytes data 4 ++ m.bytes (data + 4) 2 = cpioMagic := (bytes_add m data 4 2).symm.trans h
  have hword : m.bytes data 4 = [0x30, 0x37, 0x30, 0x37] := by
    have := congrArg (List.take 4) hsplit
    rwa [List.take_left' (by simp)] at this
  rw [word, hword]
  decide

/-- **The loader's view of a member.** Its lengths are those of the header, and it ends where the next
dword starts. -/
theorem extractPass_of_hasHeader {name : List UInt8} {fsize : ℕ} (h : HasHeader m data name fsize)
    (hname : name.length + 1 < 2 ^ 32) (hfsize : fsize < 2 ^ 32)
    (hroom : (cpioHeaderSize + (name.length + 1) + 3) / 4 * 4 + (fsize + 3) / 4 * 4 ≤ len)
    (hfit : data + len < arch.ulong) :
    let mb : Member := ⟨data, len, name.length + 1, fsize⟩
    (extractPass arch m data len).2 =
        (if (strcmp m mb.fileName cpioTrailer).1 then .stop 0 else .member mb) ∧
      mb.fileData arch = data + (cpioHeaderSize + (name.length + 1) + 3) / 4 * 4 ∧
      mb.cpioLen arch =
        (cpioHeaderSize + (name.length + 1) + 3) / 4 * 4 + (fsize + 3) / 4 * 4 := by
  intro mb
  simp only [cpioHeaderSize] at *
  -- rounding up to dwords does not reach the width of `size_t`
  have hdword : arch.ulong % 4 = 0 := by cases arch <;> rfl
  have hoffset : mb.offset arch = (110 + (name.length + 1) + 3) / 4 * 4 := by
    have hmod : (110 + (name.length + 1)) % arch.ulong = 110 + (name.length + 1) :=
      Nat.mod_eq_of_lt (by omega)
    change cpioAlign arch ((110 + (name.length + 1)) % arch.ulong) = _
    rw [hmod]
    exact @cpioAlign_of_lt _ (110 + (name.length + 1)) (by omega)
  have hextent : (mb.offset arch + fsize) % arch.ulong =
      (110 + (name.length + 1) + 3) / 4 * 4 + fsize := by
    rw [hoffset]
    exact Nat.mod_eq_of_lt (by omega)
  have hlen : mb.cpioLen arch = (110 + (name.length + 1) + 3) / 4 * 4 + (fsize + 3) / 4 * 4 := by
    change (if (mb.offset arch + fsize) % arch.ulong < len then
      cpioAlign arch ((mb.offset arch + fsize) % arch.ulong) else
        (mb.offset arch + fsize) % arch.ulong) = _
    rw [hextent]
    split_ifs with hlt
    · have halign := @cpioAlign_of_lt arch
        ((110 + (name.length + 1) + 3) / 4 * 4 + fsize) (by omega)
      omega
    · omega
  refine ⟨?_, ?_, hlen⟩
  · have hn : cpioValue arch m (data + cNamesize) = name.length + 1 :=
      cpioValue_setField arch h.nameSize hname
    have hf : cpioValue arch m (data + cFilesize) = fsize :=
      cpioValue_setField arch h.fsize hfsize
    rw [extractPass, skipPadding_of_magic h.magic]
    dsimp only
    rw [if_neg (by omega), if_neg (by rw [cpioHeaderSize]; omega), if_neg (not_not.mpr h.magic), hn,
      hf]
    change (if mb.cpioLen arch > len then _ else _ : List (ℕ × ℕ) × Outcome).2 = _
    rw [if_neg (by omega)]
    exact apply_ite Prod.snd _ _ _
  · rw [Member.fileData, hoffset]
    exact Nat.mod_eq_of_lt (by change data + _ < _; omega)

end Member

/-! ## The archive -/

/-- The lengths of a file as its member has them. -/
theorem processFile_length {f : InFile} (hname : f.name.length + 1 < 2 ^ 32)
    (hsize : f.contents.length < 2 ^ 32) :
    (processFile f).length =
      (cpioHeaderSize + (f.name.length + 1) + 3) / 4 * 4 + (f.contents.length + 3) / 4 * 4 := by
  rw [processFile]
  simp only [Nat.mod_eq_of_lt hsize]
  rw [List.length_append, writeHeader_length hname, copyData_length, List.length_append,
    List.length_replicate, add_alignUpOverhead]

/-- The calls for files whose members follow one another. -/
def memberCalls : ℕ → List InFile → List (ℕ × ℕ × ℕ)
  | _, [] => []
  | data, f :: files =>
      (data + cpioHeaderSize, data + (cpioHeaderSize + (f.name.length + 1) + 3) / 4 * 4,
        f.contents.length) :: memberCalls (data + (processFile f).length) files

/-- A file that the archive can hold. -/
structure InFile.Fits (f : InFile) : Prop where
  /-- The name is a C string, -/
  name : (0 : UInt8) ∉ f.name
  /-- not the trailer's, -/
  ne_trailer : f.name ≠ cpioTrailer
  /-- and it fits the name size field with its NUL. -/
  name_lt : f.name.length + 1 < 2 ^ 32
  /-- The contents fit the file size field. -/
  size_lt : f.contents.length < 2 ^ 32

/-- The calls for the members give the names and contents of the files. -/
theorem forall₂_isCall {files : List InFile} (hfiles : ∀ f ∈ files, f.Fits) {data : ℕ} {m : Mem}
    {rest : List UInt8} (h : m.bytes data (files.flatMap processFile ++ rest).length =
      files.flatMap processFile ++ rest) :
    List.Forall₂ (IsCall m) files (memberCalls data files) := by
  induction files generalizing data with
  | nil => exact List.Forall₂.nil
  | cons f files ih =>
      have hf := hfiles f List.mem_cons_self
      rw [List.flatMap_cons, List.append_assoc, bytes_append_iff] at h
      obtain ⟨hmember, hrest⟩ := h
      refine List.Forall₂.cons ?_ (ih (fun g hg => hfiles g (List.mem_cons_of_mem _ hg)) hrest)
      rw [processFile] at hmember
      simp only [Nat.mod_eq_of_lt hf.size_lt] at hmember
      rw [bytes_append_iff, writeHeader_length hf.name_lt, copyData_length, bytes_append_iff] at hmember
      obtain ⟨hheader, hdata, -⟩ := hmember
      rw [← writeHeader_length hf.name_lt f.mode f.contents.length] at hheader
      exact ⟨(hasHeader_of_bytes hf.name_lt hheader).name, rfl, hdata⟩

/-- **Extraction walks over the members**, from any address on. -/
theorem cpioExtract_members {arch : Arch} {σ : Type} {file : Handler σ} {files : List InFile}
    (hfiles : ∀ f ∈ files, f.Fits) (extra : List UInt8) {data : ℕ} {m : Mem} (s : σ)
    (h : m.bytes data (mkinitrd files ++ extra).length = mkinitrd files ++ extra)
    (hfit : data + (mkinitrd files ++ extra).length < arch.ulong)
    (hkeep : Keeps file data (mkinitrd files ++ extra).length) :
    cpioExtract arch file (files.length + 1) data (mkinitrd files ++ extra).length m s =
      some (runCalls file (memberCalls data files) m s) := by
  induction files generalizing data m s with
  | nil =>
      have hlen : (mkinitrd [] ++ extra).length = 124 + extra.length := by
        rw [mkinitrd, List.flatMap_nil, List.nil_append, List.length_append,
          writeHeader_length (by decide)]
        rfl
      rw [mkinitrd, List.flatMap_nil, List.nil_append, bytes_append_iff] at h
      have hheader := hasHeader_of_bytes (by decide) h.1
      obtain ⟨hpass, -, -⟩ := @extractPass_of_hasHeader arch _ _ ((mkinitrd [] ++ extra).length) _ _
          hheader (by decide) (by norm_num) (by rw [hlen]; simp [cpioTrailer]) hfit
      have htrailer : (strcmp m (data + cpioHeaderSize) cpioTrailer).1 = true :=
        (strcmp_fst _ _ _).mpr hheader.name
      rw [List.length_nil, cpioExtract, hpass, Member.fileName, if_pos htrailer]
      rfl
  | cons f files ih =>
      have hf := hfiles f List.mem_cons_self
      have hfile := processFile_length hf.name_lt hf.size_lt
      have hcons : mkinitrd (f :: files) ++ extra =
          processFile f ++ (mkinitrd files ++ extra) := by
        simp only [mkinitrd, List.flatMap_cons, List.append_assoc]
      rw [hcons] at h hfit hkeep ⊢
      rw [bytes_append_iff] at h
      obtain ⟨hmember, hrest⟩ := h
      have hheader : HasHeader m data f.name f.contents.length := by
        rw [processFile] at hmember
        simp only [Nat.mod_eq_of_lt hf.size_lt] at hmember
        rw [bytes_append_iff] at hmember
        exact hasHeader_of_bytes hf.name_lt hmember.1
      have hroom : (cpioHeaderSize + (f.name.length + 1) + 3) / 4 * 4 +
          (f.contents.length + 3) / 4 * 4 ≤ (processFile f ++ (mkinitrd files ++ extra)).length := by
        rw [List.length_append, ← hfile]
        exact Nat.le_add_right _ _
      obtain ⟨hpass, hdata, hlen⟩ := extractPass_of_hasHeader hheader hf.name_lt hf.size_lt hroom hfit
      have hcmp : ¬ (strcmp m (data + cpioHeaderSize) cpioTrailer).1 = true := by
        intro htrue
        exact hf.ne_trailer (cstring_unique hf.name (by decide) hheader.name
          ((strcmp_fst _ _ _).mp htrue))
      rw [Member.fileName, if_neg hcmp] at hpass
      rw [List.length_cons, cpioExtract, hpass, memberCalls, runCalls]
      simp only [Member.fileName, hdata, hlen]
      by_cases hrc : (file (data + cpioHeaderSize)
          (data + (cpioHeaderSize + (f.name.length + 1) + 3) / 4 * 4) f.contents.length m s).1 = 0
      · have hsub : (processFile f ++ (mkinitrd files ++ extra)).length - (processFile f).length =
            (mkinitrd files ++ extra).length := by
          rw [List.length_append, Nat.add_sub_cancel_left]
        rw [List.length_append] at hfit hkeep
        rw [if_neg (not_not.mpr hrc), if_neg (not_not.mpr hrc), ← hfile, hsub]
        -- the handler has not touched the rest of the archive
        refine ih (fun g hg => hfiles g (List.mem_cons_of_mem _ hg)) _ ?_ (by omega)
          fun name d l m s x h₁ h₂ => hkeep name d l m s x (by omega) (by omega)
        refine (bytes_congr fun i hi => ?_).trans hrest
        exact hkeep _ _ _ _ _ _ (by omega) (by omega)
      · rw [if_pos hrc, if_pos hrc]

/-- **The loader reads back what `mkinitrd` writes**, on either build, whatever follows the archive. -/
theorem cpioExtract_mkinitrd (arch : Arch) {files : List InFile} (hfiles : ∀ f ∈ files, f.Fits) :
    ReadsBack arch files := fun extra data m h hfit =>
  ⟨memberCalls data files,
    forall₂_isCall hfiles (by rwa [mkinitrd, List.append_assoc] at h),
    fun _ _ s hkeep => ⟨⟨files.length + 1, cpioExtract_members hfiles extra s h hfit hkeep⟩,
      fun hzero => runCalls_fst_eq_zero hzero _ _ _⟩⟩

/-- Two files, with contents that need padding. -/
theorem cpioExtract_mkinitrd_twoInFiles : ReadsBack .i386 twoInFiles := by
  apply cpioExtract_mkinitrd
  intro f hf
  rw [twoInFiles, List.mem_cons, List.mem_singleton] at hf
  rcases hf with rfl | rfl
  · exact ⟨by decide, by decide, by decide, by decide⟩
  · exact ⟨by decide, by decide, by decide, by decide⟩

/-! ## Names that do not fit -/

/-- An archive of an empty file whose name size field holds zero and whose name is not written. -/
def longNameArchive : List UInt8 :=
  cpioMagic ++ (setField 0 ++ (setField 0 ++ (setField 0 ++ (setField 0 ++ (setField 1 ++
    (setField 0 ++ (setField 0 ++ (setField 0 ++ (setField 0 ++ (setField 0 ++ (setField 0 ++
      (setField 0 ++ (setField 0 ++ [0, 0]))))))))))))) ++ writeHeader cpioTrailer 0 0

/-- It is the archive of a file whose name takes 2^32 bytes with its NUL. -/
theorem mkinitrd_of_long_name {f : InFile} (hname : f.name.length + 1 = 2 ^ 32) (hmode : f.mode = 0)
    (hcontents : f.contents = []) : mkinitrd [f] = longNameArchive := by
  have hlen : (f.name.length + 1) % 2 ^ 32 = 0 := by rw [hname, Nat.mod_self]
  have hpad : List.replicate (alignUpOverhead (cpioHeaderSize + 0) 4) (0 : UInt8) = [0, 0] := by
    decide
  have hsize : f.contents.length % 2 ^ 32 = 0 := by
    rw [hcontents]
    rfl
  have hdata : copyData f.contents 0 = [] := rfl
  rw [mkinitrd, List.flatMap_cons, List.flatMap_nil, List.append_nil, processFile, writeHeader,
    longNameArchive]
  simp only [hlen, hdata, hsize, hmode, hpad, List.take_zero, List.nil_append, List.append_nil]

/-- The pass over this archive hands out a member without a name. -/
theorem extractPass_longNameArchive :
    (extractPass .x86_64 (Mem.ofList (longNameArchive ++ [])) 0 236).2 = .member ⟨0, 236, 0, 0⟩ := by
  decide +kernel

/-- Such a file is not read back: the loader hands out an empty name. -/
theorem not_readsBack_of_long_name {f : InFile} (hname : f.name.length + 1 = 2 ^ 32)
    (hnul : (0 : UInt8) ∉ f.name) (hmode : f.mode = 0) (hcontents : f.contents = []) :
    ¬ ReadsBack .x86_64 [f] := by
  intro hreads
  rw [ReadsBack, mkinitrd_of_long_name hname hmode hcontents] at hreads
  have hlen : (longNameArchive ++ []).length = 236 := by decide +kernel
  obtain ⟨calls, hcalls, hrun⟩ := hreads [] 0 (Mem.ofList (longNameArchive ++ [])) (ofList_bytes _)
    (by rw [hlen]; decide)
  obtain ⟨call, rest, hcall, hrest, rfl⟩ := List.forall₂_cons_left_iff.mp hcalls
  obtain rfl := List.forall₂_nil_left_iff.mp hrest
  obtain ⟨⟨fuel, hfuel⟩, -⟩ := hrun (List ℕ) (fun n _ _ m s => (1, m, n :: s)) []
    fun _ _ _ _ _ _ _ _ => rfl
  obtain ⟨name, data, len⟩ := call
  have hone : (1 : ℤ) ≠ 0 := by decide
  -- the first call has the address behind the header
  have hfirst : name = 110 := by
    cases fuel with
    | zero => exact absurd hfuel (by simp [cpioExtract])
    | succ fuel =>
        rw [hlen, cpioExtract, extractPass_longNameArchive, runCalls] at hfuel
        dsimp only at hfuel
        rw [if_pos hone, if_pos hone] at hfuel
        have hstate := congrArg (fun r => r.2.2) (Option.some.inj hfuel)
        exact (List.cons.inj hstate).1.symm
  have hbytes := hcall.name
  rw [hfirst, bytes_succ] at hbytes
  cases hf : f.name with
  | nil =>
      rw [hf] at hname
      exact absurd hname (by decide)
  | cons c cs =>
      rw [hf, List.cons_append] at hbytes
      have hc : c = 0 := (List.cons.inj hbytes).1.symm.trans
        (show Mem.ofList (longNameArchive ++ []) 110 = 0 by decide +kernel)
      exact hnul (by rw [hf, hc]; exact List.mem_cons_self)

/-- An empty file whose name and its NUL take 2^32 bytes. -/
def longNameFile : InFile := ⟨List.replicate (2 ^ 32 - 1) 0x61, 0, []⟩

/-- The loader does not find that name, on the 64-bit build. -/
theorem not_readsBack_longNameFile :
    longNameFile.name ≠ [] ∧ (0 : UInt8) ∉ longNameFile.name ∧ longNameFile.name ≠ cpioTrailer ∧
      longNameFile.contents.length < 2 ^ 32 ∧ ¬ ReadsBack .x86_64 [longNameFile] := by
  have hlen : longNameFile.name.length = 2 ^ 32 - 1 := List.length_replicate
  have hnul : (0 : UInt8) ∉ longNameFile.name := fun h =>
    absurd (List.eq_of_mem_replicate h) (by decide)
  refine ⟨fun h => ?_, hnul, fun h => ?_, Nat.two_pow_pos 32, ?_⟩
  · rw [h] at hlen
    exact absurd hlen (by decide)
  · rw [h] at hlen
    exact absurd hlen (by decide)
  · refine not_readsBack_of_long_name ?_ hnul rfl rfl
    rw [hlen]
    norm_num

end Ntloader.Cpio
