import Ntloader.Bcd.Device
import Ntloader.Kern.Cmdline

/-!
# Paths of the UEFI command line

The load options of a UEFI image are UCS-2; they are processed as UTF-8, and the path of the image
to boot is written to the BCD as UCS-2 again.

* `efiCmdline` — kern/efimain.c, efi_cmdline.
* `convertPath_utf8` — a path is converted byte by byte as it would be unit by unit.
* `efiCmdline_path` — what the command line of a path leaves in the arguments.
* `loadOptions_path` — the path field of the element holds the path of the load options.
-/

namespace Ntloader.Bcd

open Ntloader.Lib Ntloader.Posix Ntloader.Charset Ntloader.Kern

/-- Process command line: the arguments behind it. The buffer is at `buf`, and the load options are
as many units as their size has room for.
Source: kern/efimain.c, efi_cmdline -/
def efiCmdline (arch : Arch) (fuel : ℕ) (m : Mem) (buf : ℕ) (loadOptions : List UInt16) :
    Option (Except Die NtArgs) :=
  let cmdline := m.store buf (ucs2ToUtf8 loadOptions ++ [0])
  (processCmdline arch fuel cmdline .init (some buf)).map (·.map Prod.fst)

/-- The units of a string of ASCII characters. -/
def units (s : String) : List UInt16 := (str s).map UInt8.toUInt16

/-! ## Paths -/

/-- What happens to a character of a path. -/
def convertUnit (u : UInt16) : UInt16 :=
  if u = 0x2f then 0x5c else if u = 0x3a then 0x20 else u

/-- A character that a path keeps, or gets another one for. -/
theorem convertPath_cons {c : UInt8} (h0 : c ≠ 0) (hcr : c ≠ 0x0d) (hlf : c ≠ 0x0a)
    (s : List UInt8) :
    convertPath true (c :: s) =
      (if c = 0x2f then 0x5c else if c = 0x3a then 0x20 else c) :: convertPath true s := by
  rw [convertPath.eq_3 true c s h0]
  by_cases h1 : c = 0x2f
  · rw [h1]
    rfl
  · by_cases h2 : c = 0x3a
    · rw [h2]
      rfl
    · simp [h1, h2, hcr, hlf]

/-- Bytes that are no ASCII characters are kept. -/
theorem convertPath_append_of_ge {w : List UInt8} (hw : ∀ c ∈ w, 0x80 ≤ c.toNat)
    (s : List UInt8) : convertPath true (w ++ s) = w ++ convertPath true s := by
  induction w with
  | nil => rfl
  | cons c w ih =>
      have hc := hw c List.mem_cons_self
      have hne : ∀ d : UInt8, d.toNat < 0x80 → c ≠ d := fun d hd h => by
        rw [h] at hc
        omega
      rw [List.cons_append, convertPath_cons (hne _ (by decide)) (hne _ (by decide))
        (hne _ (by decide)), if_neg (hne _ (by decide)), if_neg (hne _ (by decide)),
        ih fun d hd => hw d (List.mem_cons_of_mem _ hd), List.cons_append]

/-- The units of a path: no NUL, and no end of a line. -/
def IsPathUnit (u : UInt16) : Prop := u ≠ 0 ∧ u ≠ 0x0d ∧ u ≠ 0x0a

/-- The bytes of a unit are converted to the bytes of what the unit is converted to. -/
theorem convertPath_utf8Unit {u : UInt16} (h : IsPathUnit u) (s : List UInt8) :
    convertPath true (utf8Unit u ++ s) = utf8Unit (convertUnit u) ++ convertPath true s := by
  rcases Nat.lt_or_ge u.toNat 0x80 with hlt | hge
  · have hne : ∀ d : UInt16, d.toNat < 0x80 → u ≠ d → UInt8.ofNat u.toNat ≠ UInt8.ofNat d.toNat := by
      intro d hd hud heq
      rw [← UInt8.toNat_inj, toNat_ofNat (by omega), toNat_ofNat (by omega), UInt16.toNat_inj] at heq
      exact hud heq
    rw [utf8Unit_ascii hlt, List.cons_append, List.nil_append,
      convertPath_cons (hne 0 (by decide) h.1) (hne 0x0d (by decide) h.2.1)
        (hne 0x0a (by decide) h.2.2), convertUnit]
    by_cases h1 : u = 0x2f
    · rw [h1]
      rfl
    · by_cases h2 : u = 0x3a
      · rw [h2]
        rfl
      · have hslash : UInt8.ofNat u.toNat ≠ 0x2f := hne 0x2f (by decide) h1
        have hcolon : UInt8.ofNat u.toNat ≠ 0x3a := hne 0x3a (by decide) h2
        rw [if_neg hslash, if_neg hcolon, if_neg h1, if_neg h2, utf8Unit_ascii hlt]
        rfl
  · have hne : ∀ d : UInt16, d.toNat < 0x80 → u ≠ d := fun d hd heq => by
      rw [heq] at hge
      omega
    rw [convertPath_append_of_ge (utf8Unit_ge hge), convertUnit, if_neg (hne _ (by decide)),
      if_neg (hne _ (by decide))]

/-- A path is converted as its units are, up to the NUL. -/
theorem convertPath_utf8 {us : List UInt16} (h : ∀ u ∈ us, IsPathUnit u) (s : List UInt8) :
    convertPath true (utf8 us ++ 0 :: s) = utf8 (us.map convertUnit) ++ 0 :: s := by
  induction us with
  | nil => rfl
  | cons u us ih =>
      rw [utf8_cons, List.append_assoc, convertPath_utf8Unit (h u List.mem_cons_self),
        ih fun v hv => h v (List.mem_cons_of_mem _ hv), List.map_cons, utf8_cons, List.append_assoc]

/-- A unit that is not NUL stays so. -/
theorem convertUnit_ne_zero {u : UInt16} (h : u ≠ 0) : convertUnit u ≠ 0 := by
  rw [convertUnit]
  split_ifs
  · decide
  · decide
  · exact h

/-- The file path that is set has the units of the path. -/
theorem setFilepath_units {args : NtArgs} {boottype : BootType} {p : List UInt16}
    (h : ∀ u ∈ p, IsPathUnit u) (hlen : (utf8 p).length ≤ maxPath) :
    utf8ToUcs2 maxPath (setFilepath args (utf8 p) boottype).filepath.bytes = p.map convertUnit := by
  obtain ⟨t, ht⟩ := snprintf_bytes args.filepath (s := utf8 p) (Nat.lt_succ_of_le hlen)
  have hbytes : (setFilepath args (utf8 p) boottype).filepath.bytes =
      utf8 (p.map convertUnit) ++ 0 :: t := by
    rw [← convertPath_utf8 h, ← ht]
    rfl
  rw [hbytes]
  apply utf8ToUcs2_utf8
  · intro h0
    obtain ⟨u, hu, hz⟩ := List.mem_map.mp h0
    exact convertUnit_ne_zero (h u hu).1 hz
  · rw [List.length_map]
    exact le_trans (length_le_utf8 p) hlen

/-! ## Load options -/

/-- The arguments that name an image, and their boot types. -/
def pathOptions : List (String × BootType) :=
  [("wim=", .ntbootWim), ("vhd=", .ntbootVhd), ("ram=", .ntbootRam)]

/-- What such an argument is: a key, and a value that is the path. -/
structure IsPathOption (k : String) (key : List UInt8) (boottype : BootType) : Prop where
  key_eq : str k = key ++ [0x3d]
  units_eq : utf8 (units k) = str k
  no_surrogate : ∀ u ∈ units k, isSurrogate u = false
  no_nul : (0 : UInt8) ∉ str k
  no_space : ∀ c ∈ str k, isspace c = false
  no_sign : 0x3d ∉ key
  path : hasPath boottype
  processed : ∀ arch args (c : UInt8) v,
    processArgument arch args key (some (c :: v)) = .ok (setFilepath args (c :: v) boottype)

/-- A text that passes the test has no surrogates. -/
theorem noSurrogate_of_all {us : List UInt16} (h : us.all (fun u => !isSurrogate u) = true) :
    ∀ u ∈ us, isSurrogate u = false :=
  fun u hu => by simpa using List.all_eq_true.mp h u hu

/-- The listed options are for paths. -/
theorem isPathOption {k : String} {boottype : BootType} (h : (k, boottype) ∈ pathOptions) :
    ∃ key, IsPathOption k key boottype := by
  simp only [pathOptions, List.mem_cons, Prod.mk.injEq, List.not_mem_nil, or_false] at h
  rcases h with ⟨rfl, rfl⟩ | ⟨rfl, rfl⟩ | ⟨rfl, rfl⟩
  · refine ⟨str "wim", by decide, by decide, noSurrogate_of_all rfl, by decide, by decide +kernel, by decide,
      Or.inl rfl, fun arch args c v => ?_⟩
    rw [processArgument, if_neg (by decide), if_pos rfl]
    rfl
  · refine ⟨str "vhd", by decide, by decide, noSurrogate_of_all rfl, by decide, by decide +kernel, by decide,
      Or.inr (Or.inl rfl), fun arch args c v => ?_⟩
    rw [processArgument, if_neg (by decide), if_neg (by decide), if_pos rfl]
    rfl
  · refine ⟨str "ram", by decide, by decide, noSurrogate_of_all rfl, by decide, by decide +kernel, by decide,
      Or.inr (Or.inr rfl), fun arch args c v => ?_⟩
    rw [processArgument, if_neg (by decide), if_neg (by decide), if_neg (by decide), if_pos rfl]
    rfl

/-- The characters that a path on the command line is made of. -/
def IsArgumentUnit (u : UInt16) : Prop :=
  u ≠ 0 ∧ isSurrogate u = false ∧ ∀ c, isspace c = true → u ≠ c.toUInt16

/-- A unit of an argument is one of a path. -/
theorem IsArgumentUnit.isPathUnit {u : UInt16} (h : IsArgumentUnit u) : IsPathUnit u :=
  ⟨h.1, h.2.2 0x0d (by decide), h.2.2 0x0a (by decide)⟩

/-- Load options behind a NUL, if there is one, do not count. -/
theorem ucs2ToUtf8_tail {z : List UInt16} (hz : ∀ u ∈ z.head?, u = 0) :
    ∃ t, ucs2ToUtf8 z ++ [0] = 0 :: t := by
  cases z with
  | nil => exact ⟨[], rfl⟩
  | cons u z =>
      have hu : u = 0 := hz u rfl
      refine ⟨ucs2ToUtf8 z ++ [0], ?_⟩
      rw [hu, ucs2ToUtf8, if_pos (by decide)]
      rfl

/-- The command line of a path sets the path and its boot type. -/
theorem efiCmdline_path (arch : Arch) (m : Mem) (buf : ℕ) {fuel : ℕ} {k : String}
    {boottype : BootType} {p z : List UInt16} (hk : (k, boottype) ∈ pathOptions) (hp : p ≠ [])
    (hunit : ∀ u ∈ p, IsArgumentUnit u) (hz : ∀ u ∈ z.head?, u = 0)
    (hfuel : (str k ++ utf8 p).length + 1 < fuel) :
    efiCmdline arch fuel m buf (units k ++ p ++ z) =
      some (.ok (fillDefaults (setFilepath .init (utf8 p) boottype))) := by
  obtain ⟨key, hkey⟩ := isPathOption hk
  obtain ⟨t, ht⟩ := ucs2ToUtf8_tail hz
  have hspace : ∀ c ∈ str k ++ utf8 p, isspace c = false := by
    intro c hc
    rcases List.mem_append.mp hc with hc | hc
    · exact hkey.no_space c hc
    · by_contra hsp
      rw [Bool.not_eq_false] at hsp
      exact (hunit _ (mem_of_mem_utf8 (isspace_lt hsp) hc)).2.2 c hsp rfl
  have hnul : (0 : UInt8) ∉ str k ++ utf8 p := by
    rw [List.mem_append, not_or]
    exact ⟨hkey.no_nul, fun h0 => (hunit _ (mem_of_mem_utf8 (by decide) h0)).1 rfl⟩
  obtain ⟨c, v, hv⟩ : ∃ c v, utf8 p = c :: v :=
    List.exists_cons_of_length_pos
      (lt_of_lt_of_le (List.length_pos_of_ne_nil hp) (length_le_utf8 p))
  have hbytes : ucs2ToUtf8 (units k ++ p ++ z) ++ [0] = str k ++ utf8 p ++ [0] ++ t := by
    rw [List.append_assoc, ucs2ToUtf8_append hkey.no_surrogate,
      ucs2ToUtf8_append fun u hu => (hunit u hu).2.1, List.append_assoc, List.append_assoc, ht,
      hkey.units_eq]
    simp
  have hcmd : (m.store buf (ucs2ToUtf8 (units k ++ p ++ z) ++ [0])).bytes buf
      ((str k ++ utf8 p).length + 1) = str k ++ utf8 p ++ [0] := by
    have hst := Mem.bytes_store_self m buf (str k ++ utf8 p ++ [0] ++ t)
    rw [hbytes]
    have := (Mem.bytes_append_iff.mp hst).1
    rw [List.length_append, List.length_singleton] at this
    exact this
  have hne : str k ++ utf8 p ≠ [] := by
    rw [hv]
    simp
  have hword : processWord arch .init (str k ++ utf8 p) =
      .ok (setFilepath .init (utf8 p) boottype) := by
    rw [processWord, hkey.key_eq, List.append_assoc, List.singleton_append,
      splitWord_value hkey.no_sign, hv, hkey.processed]
  rw [efiCmdline]
  rw [processCmdline_eq arch hcmd hnul hfuel, words_run hspace hne, List.foldlM_cons, hword]
  simp [hne]
  rfl

/-- The path field of the element of a path that the load options name holds the path, with
backslashes for slashes and spaces for colons, and zeros behind it. -/
theorem loadOptions_path (arch : Arch) (m : Mem) (buf : ℕ) {fuel : ℕ} {k : String}
    {boottype : BootType} {p z : List UInt16} (hk : (k, boottype) ∈ pathOptions) (hp : p ≠ [])
    (hunit : ∀ u ∈ p, u ≠ 0 ∧ isSurrogate u = false ∧ ∀ c, isspace c = true → u ≠ c.toUInt16)
    (hlen : (utf8 p).length ≤ 255) (hz : ∀ u ∈ z.head?, u = 0)
    (hfuel : (str k ++ utf8 p).length + 1 < fuel) :
    ∃ args, efiCmdline arch fuel m buf (units k ++ p ++ z) = some (.ok args) ∧
      args.boottype = boottype ∧
      utf8ToUcs2 maxPath args.filepath.bytes = p.map convertUnit ∧
      ∀ (hive : Mem) (data len : ℕ), dpLength boottype ≤ len →
        ∃ hive', bcdPatchDp args args.boottype hive data len = .ok hive' ∧
          hive'.bytes (data + dpOfs boottype + 0x48) (2 * maxPath) =
            unitBytes (p.map convertUnit) ++ List.replicate (2 * (maxPath - p.length)) 0 := by
  obtain ⟨key, hkey⟩ := isPathOption hk
  have hus := @setFilepath_units .init boottype _
      (fun u hu => IsArgumentUnit.isPathUnit (hunit u hu)) hlen
  refine ⟨_, efiCmdline_path arch m buf hk hp hunit hz hfuel, rfl, hus, ?_⟩
  intro hive data len hdata
  have h := @bcdPatchDp_path (fillDefaults (setFilepath .init (utf8 p) boottype)) _ _ hkey.path hus
      (by rw [List.length_map]; exact le_trans (length_le_utf8 p) hlen) hive data _ hdata
  rw [List.length_map] at h
  exact h

/-- `ram=/é:` as load options. -/
theorem loadOptions_path_ram :
    ∃ args, efiCmdline .x86_64 20 Mem.zero 0 (units "ram=" ++ [0x2f, 0xe9, 0x3a] ++ []) =
        some (.ok args) ∧ args.boottype = .ntbootRam ∧
      utf8ToUcs2 maxPath args.filepath.bytes = [0x5c, 0xe9, 0x20] := by
  obtain ⟨args, h₁, h₂, h₃, -⟩ := @loadOptions_path .x86_64 Mem.zero 0 20 ("ram=") .ntbootRam
      [0x2f, 0xe9, 0x3a] [] (by decide) (by decide) (by
      intro u hu
      refine ⟨?_, ?_, fun c hc => ?_⟩
      · rintro rfl
        simp at hu
      · fin_cases hu <;> rfl
      · simp only [isspace, Bool.or_eq_true, decide_eq_true_eq] at hc
        rcases hc with ((((rfl | rfl) | rfl) | rfl) | rfl) | rfl <;> fin_cases hu <;> decide)
      (by decide) (by simp) (by decide)
  exact ⟨args, h₁, h₂, h₃⟩

end Ntloader.Bcd
