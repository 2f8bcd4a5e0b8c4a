import Ntloader.Charset
import Ntloader.Kern.Args
import Ntloader.Lib.Memory

/-!
# Device elements

The device element of a BCD object says where its file is: the disk, and for an image the path on
it.

* `bcdPatchDp` — libnt/bcd.c, bcd_patch_dp.
* `dpLength`, `dpOfs` — the least length of an element and the offset of its disk.
* `bcdPatchDp_path` — the path field holds the units of the path, and zeros behind them.
* `DpSafe` — all writes are in the element, which ends the path with a zero.
* `dpSafe_iff` — so it is exactly if a path of the greatest length has an element with room for it.

Scope: the element is the data that `bcd_find_hive` has found, at an address and with a length.
-/

namespace Ntloader.Bcd

open Ntloader.Lib Ntloader.Charset Ntloader.Kern

/-! ## The patch -/

/-- Source: include/bcd.h, GUID_BIN_RAMDISK -/
def guidBinRamdisk : List UInt8 :=
  [0xe0, 0x34, 0x55, 0xae, 0x24, 0xa9, 0x6c, 0x46, 0xb8, 0x36, 0x75, 0x85, 0x39, 0xa3, 0xee, 0x3a]

/-- Write bytes at offsets from an address. -/
def pokes (m : Mem) (data : ℕ) (ws : List (ℕ × List UInt8)) : Mem :=
  ws.foldl (fun m w => m.store (data + w.1) w.2) m

/-- The least length of a device element.
Source: libnt/bcd.c, bcd_patch_dp -/
def dpLength : BootType → ℕ
  | .ntbootWim | .ntbootRam => 0x028a
  | .ntbootVhd => 0x02bc
  | .ntbootWos | .ntbootRec => 0x0058

/-- The offset of the disk in a device element.
Source: libnt/bcd.c, bcd_patch_dp, ofs -/
def dpOfs : BootType → ℕ
  | .ntbootWim | .ntbootRam => 0x0044
  | .ntbootVhd => 0x0076
  | .ntbootWos | .ntbootRec => 0x0010

/-- What is in front of the disk.
Source: libnt/bcd.c, bcd_patch_dp -/
def dpHeader : BootType → List (ℕ × List UInt8)
  | .ntbootWim | .ntbootRam =>
      [(0x0000, guidBinRamdisk), (0x0014, [0x01]),
        (0x0018, [0x7a]), (0x0019, [0x02]), -- len - 0x10
        (0x0020, [0x03]), (0x0038, [0x01]),
        (0x003c, [0x52]), (0x003d, [0x02]), -- len - 0x38
        (0x0040, [0x05])]
  | .ntbootVhd =>
      [(0x0010, [0x08]),
        (0x0018, [0xac]), (0x0019, [0x02]), -- len - 0x10
        (0x0024, [0x02]), (0x0027, [0x12]), (0x0028, [0x1e]),
        (0x0036, [0x8e]), (0x0037, [0x02]), -- len - 0x2e
        (0x003e, [0x06]),
        (0x005e, [0x66]), (0x005f, [0x02]), -- len - 0x56
        (0x0066, [0x05]), (0x006a, [0x01]),
        (0x006e, [0x52]), (0x006f, [0x02]), -- len - 0x6a
        (0x0072, [0x05])]
  | .ntbootWos | .ntbootRec => []

/-- The disk.
Source: libnt/bcd.c, bcd_patch_dp, `os device` -/
def dpDisk (args : NtArgs) : List (ℕ × List UInt8) :=
  [(0x00, [if args.fsuuid.bytes.headD 0 ≠ 0 then 0x06 else 0x05]), -- 05=boot, 06=disk
    (0x08, [0x48]), (0x10, args.partid.bytes), (0x24, [args.partmap]), (0x28, args.diskid.bytes)]

/-- The bytes of units, as they lie in memory. -/
def unitBytes (us : List UInt16) : List UInt8 := us.flatMap fun u => leBytes 2 u.toNat

/-- The path, if the boot type has one.
Source: libnt/bcd.c, bcd_patch_dp -/
def dpPath (args : NtArgs) (boottype : BootType) : List (ℕ × List UInt8) :=
  if boottype = .ntbootWim ∨ boottype = .ntbootVhd ∨ boottype = .ntbootRam then
    [(0x48, unitBytes (utf8ToUcs2 maxPath args.filepath.bytes))]
  else []

/-- The message of `die` for an element that is too short: its kind and its length. -/
inductive DpError where
  /-- `WIM device path (%ls->%ls) length error (%x)` -/
  | wimLength (len : ℕ)
  /-- `VHD device path (%ls->%ls) length error (%x)` -/
  | vhdLength (len : ℕ)
  /-- `OS device path (%ls->%ls) length error (%x)` -/
  | osLength (len : ℕ)
  deriving DecidableEq

/-- The message for a boot type. -/
def dpError (boottype : BootType) (len : ℕ) : DpError :=
  match boottype with
  | .ntbootWim | .ntbootRam => .wimLength len
  | .ntbootVhd => .vhdLength len
  | .ntbootWos | .ntbootRec => .osLength len

/-- Patch the device element at `data`.
Source: libnt/bcd.c, bcd_patch_dp, behind bcd_find_hive -/
def bcdPatchDp (args : NtArgs) (boottype : BootType) (m : Mem) (data len : ℕ) :
    Except DpError Mem :=
  if len < dpLength boottype then .error (dpError boottype len)
  else
    let m := m.fill data 0 len
    let m := pokes m data (dpHeader boottype)
    .ok (pokes m (data + dpOfs boottype) (dpDisk args ++ dpPath args boottype))

/-! ## The path field -/

/-- The boot types with a path. -/
def hasPath (boottype : BootType) : Prop :=
  boottype = .ntbootWim ∨ boottype = .ntbootVhd ∨ boottype = .ntbootRam

/-- A unit has two bytes. -/
theorem unitBytes_length (us : List UInt16) : (unitBytes us).length = 2 * us.length := by
  induction us with
  | nil => rfl
  | cons u us ih =>
      rw [unitBytes, List.flatMap_cons, List.length_append, leBytes_length, List.length_cons]
      rw [unitBytes] at ih
      omega

/-- Equation lemma: the first write is made first. -/
theorem pokes_cons (m : Mem) (data : ℕ) (w : ℕ × List UInt8) (ws : List (ℕ × List UInt8)) :
    pokes m data (w :: ws) = pokes (m.store (data + w.1) w.2) data ws := rfl

/-- Writes one list behind the other. -/
theorem pokes_append (m : Mem) (data : ℕ) (ws vs : List (ℕ × List UInt8)) :
    pokes m data (ws ++ vs) = pokes (pokes m data ws) data vs := List.foldl_append

/-- Bytes behind all that is written are left as they are. -/
theorem pokes_of_ge {data x : ℕ} {ws : List (ℕ × List UInt8)}
    (h : ∀ w ∈ ws, data + w.1 + w.2.length ≤ x) (m : Mem) : pokes m data ws x = m x := by
  induction ws generalizing m with
  | nil => rfl
  | cons w ws ih =>
      rw [pokes_cons, ih (fun v hv => h v (List.mem_cons_of_mem _ hv)),
        Mem.store_of_not_mem _ (Or.inr (h w List.mem_cons_self))]

/-- The header ends in front of the disk. -/
theorem dpHeader_le (boottype : BootType) :
    ∀ w ∈ dpHeader boottype, w.1 + w.2.length ≤ dpOfs boottype := by
  cases boottype <;> decide

/-- The disk ends in front of the path. -/
theorem dpDisk_le (args : NtArgs) : ∀ w ∈ dpDisk args, w.1 + w.2.length ≤ 0x48 := by
  intro w hw
  simp only [dpDisk, List.mem_cons, List.not_mem_nil, or_false] at hw
  rcases hw with rfl | rfl | rfl | rfl | rfl
  · simp
  · simp
  · simp [args.partid.length_eq]
  · simp
  · simp [args.diskid.length_eq]

/-- The path field ends where the element has to. -/
theorem dpOfs_add {boottype : BootType} (h : hasPath boottype) :
    dpOfs boottype + 0x48 + 2 * maxPath = dpLength boottype := by
  rcases h with rfl | rfl | rfl <;> rfl

/-- The path field starts with the units of the path, and the rest of the element is zero. -/
theorem bcdPatchDp_field {args : NtArgs} {boottype : BootType} {us : List UInt16}
    (h : hasPath boottype) (hus : utf8ToUcs2 maxPath args.filepath.bytes = us) (m : Mem) (data : ℕ)
    {len : ℕ} (hdata : dpLength boottype ≤ len) :
    ∃ m', bcdPatchDp args boottype m data len = .ok m' ∧
      m'.bytes (data + dpOfs boottype + 0x48) (2 * us.length) = unitBytes us ∧
      ∀ x, data + dpOfs boottype + 0x48 + 2 * us.length ≤ x → x < data + len → m' x = 0 := by
  have hlenu := unitBytes_length us
  have hpath : dpPath args boottype = [(0x48, unitBytes us)] := by
    rw [dpPath, hus]
    exact if_pos h
  refine ⟨_, if_neg (Nat.not_lt.mpr hdata), ?_⟩
  rw [pokes_append, hpath, pokes_cons, pokes, List.foldl_nil, ← hlenu]
  refine ⟨Mem.bytes_store_self _ _ _, fun x hx hx' => ?_⟩
  -- what is behind the units has been cleared, and no write touches it
  rw [Mem.store_of_not_mem _ (Or.inr hx), pokes_of_ge, pokes_of_ge, Mem.fill_apply,
    if_pos (by omega)]
  · intro w hw
    have := dpHeader_le boottype w hw
    omega
  · intro w hw
    have := dpDisk_le args w hw
    omega

/-- An element that is long enough is patched; its path field holds the units of the path, and
zeros behind them. -/
theorem bcdPatchDp_path {args : NtArgs} {boottype : BootType} {us : List UInt16}
    (h : hasPath boottype) (hus : utf8ToUcs2 maxPath args.filepath.bytes = us)
    (hlen : us.length ≤ maxPath) (m : Mem) (data : ℕ) {len : ℕ} (hdata : dpLength boottype ≤ len) :
    ∃ m', bcdPatchDp args boottype m data len = .ok m' ∧
      m'.bytes (data + dpOfs boottype + 0x48) (2 * maxPath) =
        unitBytes us ++ List.replicate (2 * (maxPath - us.length)) 0 := by
  have hend := dpOfs_add h
  obtain ⟨m', hm', hunits, hzero⟩ := bcdPatchDp_field h hus m data hdata
  refine ⟨m', hm', ?_⟩
  rw [show 2 * maxPath = 2 * us.length + 2 * (maxPath - us.length) by omega, Mem.bytes_add, hunits]
  congr 1
  apply List.ext_getElem (by simp)
  intro i h₁ h₂
  rw [Mem.bytes_length] at h₁
  rw [Mem.bytes_getElem, List.getElem_replicate]
  exact hzero _ (by omega) (by omega)

/-! ## Bounds -/

/-- All that is written, in the order of the source, at offsets from the element. -/
def dpWrites (args : NtArgs) (boottype : BootType) (len : ℕ) : List (ℕ × List UInt8) :=
  (0, List.replicate len 0) :: dpHeader boottype ++
    (dpDisk args ++ dpPath args boottype).map fun w => (dpOfs boottype + w.1, w.2)

/-- The path that is read back from the path field: the units in front of the first zero. -/
def pathString (args : NtArgs) : List UInt16 :=
  (utf8ToUcs2 maxPath args.filepath.bytes).takeWhile (· ≠ 0)

/-- The offset of the unit behind the path. -/
def pathEnd (args : NtArgs) (boottype : BootType) : ℕ :=
  dpOfs boottype + 0x48 + 2 * (pathString args).length

/-- A patch writes in the element only, and ends the path with a zero in it. -/
structure DpSafe (args : NtArgs) (boottype : BootType) (m : Mem) (data len : ℕ) : Prop where
  writes : bcdPatchDp args boottype m data len = .ok (pokes m data (dpWrites args boottype len))
  inside : ∀ w ∈ dpWrites args boottype len, w.1 + w.2.length ≤ len
  terminated : hasPath boottype → pathEnd args boottype + 2 ≤ len ∧
    (pokes m data (dpWrites args boottype len)).bytes (data + pathEnd args boottype) 2 = [0, 0]

/-- Writes at moved places are those at a moved address. -/
theorem pokes_map_add (m : Mem) (data ofs : ℕ) (ws : List (ℕ × List UInt8)) :
    pokes m data (ws.map fun w => (ofs + w.1, w.2)) = pokes m (data + ofs) ws := by
  induction ws generalizing m with
  | nil => rfl
  | cons w ws ih => rw [List.map_cons, pokes_cons, pokes_cons, ih, Nat.add_assoc]

/-- **A device element is written** by these writes, if there is room for it. -/
theorem bcdPatchDp_eq {args : NtArgs} {boottype : BootType} (m : Mem) (data : ℕ) {len : ℕ}
    (h : dpLength boottype ≤ len) :
    bcdPatchDp args boottype m data len = .ok (pokes m data (dpWrites args boottype len)) := by
  rw [bcdPatchDp, if_neg (Nat.not_lt.mpr h), dpWrites, List.cons_append, pokes_cons, pokes_append,
    pokes_map_add, Mem.fill_eq_store]
  rfl

/-- No more units are written than there is room for. -/
theorem utf8ToUcs2_length_le (destsize : ℕ) (src : List UInt8) :
    (utf8ToUcs2 destsize src).length ≤ destsize := by
  induction destsize generalizing src with
  | zero => rw [utf8ToUcs2, List.length_nil]
  | succ destsize ih =>
      rcases src with _ | ⟨c, src⟩
      · rw [utf8ToUcs2]
        exact Nat.zero_le _
      · rw [utf8ToUcs2]
        split_ifs
        · exact Nat.zero_le _
        · exact Nat.succ_le_succ (ih _)
        · exact Nat.succ_le_succ (ih _)
        · exact Nat.succ_le_succ (ih _)
        · exact Nat.succ_le_succ (Nat.zero_le _)

/-- A path is cut to its field. -/
theorem pathString_length_le (args : NtArgs) : (pathString args).length ≤ maxPath :=
  (List.takeWhile_prefix _).length_le.trans (utf8ToUcs2_length_le _ _)

/-- All writes are in the element. -/
theorem dpWrites_inside (args : NtArgs) {boottype : BootType} {len : ℕ} (h : dpLength boottype ≤ len) :
    ∀ w ∈ dpWrites args boottype len, w.1 + w.2.length ≤ len := by
  have hdisk : dpOfs boottype + 0x48 ≤ dpLength boottype := by cases boottype <;> decide
  intro w hw
  rw [dpWrites, List.cons_append, List.mem_cons, List.mem_append, List.map_append,
    List.mem_append] at hw
  rcases hw with rfl | hw | hw | hw
  · rw [List.length_replicate, Nat.zero_add]
  · have := dpHeader_le boottype w hw
    omega
  · obtain ⟨v, hv, rfl⟩ := List.mem_map.mp hw
    have := dpDisk_le args v hv
    dsimp only
    omega
  · obtain ⟨v, hv, rfl⟩ := List.mem_map.mp hw
    rw [dpPath] at hv
    by_cases hpath : boottype = .ntbootWim ∨ boottype = .ntbootVhd ∨ boottype = .ntbootRam
    · rw [if_pos hpath, List.mem_singleton] at hv
      have hend := dpOfs_add hpath
      have hunits := utf8ToUcs2_length_le maxPath args.filepath.bytes
      have hbytes := unitBytes_length (utf8ToUcs2 maxPath args.filepath.bytes)
      rw [hv]
      dsimp only
      omega
    · rw [if_neg hpath] at hv
      exact absurd hv List.not_mem_nil

/-- Units one behind the other. -/
theorem unitBytes_append (us vs : List UInt16) :
    unitBytes (us ++ vs) = unitBytes us ++ unitBytes vs := List.flatMap_append

/-- The units of a path are all in front of a zero, or one of them is the zero. -/
theorem pathString_append (args : NtArgs) :
    utf8ToUcs2 maxPath args.filepath.bytes = pathString args ∨
      ∃ rest, utf8ToUcs2 maxPath args.filepath.bytes = pathString args ++ 0 :: rest := by
  have hsplit := List.takeWhile_append_dropWhile (p := fun u : UInt16 => decide (u ≠ 0))
    (l := utf8ToUcs2 maxPath args.filepath.bytes)
  have hhead := List.head?_dropWhile_not (fun u : UInt16 => decide (u ≠ 0))
    (utf8ToUcs2 maxPath args.filepath.bytes)
  rcases hdrop : (utf8ToUcs2 maxPath args.filepath.bytes).dropWhile
    (fun u => decide (u ≠ 0)) with _ | ⟨u, rest⟩
  · rw [hdrop, List.append_nil] at hsplit
    exact Or.inl hsplit.symm
  · rw [hdrop] at hsplit hhead
    have hu : u = 0 := by simpa using hhead
    exact Or.inr ⟨rest, by rw [← hu]; exact hsplit.symm⟩

/-- The unit behind the path is zero, if it is in the element. -/
theorem bytes_pathEnd {args : NtArgs} {boottype : BootType} (hpath : hasPath boottype) (m : Mem)
    (data : ℕ) {len : ℕ} (hdata : dpLength boottype ≤ len) (hend : pathEnd args boottype + 2 ≤ len) :
    (pokes m data (dpWrites args boottype len)).bytes (data + pathEnd args boottype) 2 = [0, 0] := by
  obtain ⟨m', hm', hunits, hzero⟩ := bcdPatchDp_field hpath rfl m data hdata
  rw [bcdPatchDp_eq m data hdata] at hm'
  cases hm'
  rcases pathString_append args with heq | ⟨rest, heq⟩
  · -- there are no units behind the path, which are cleared
    have hbyte : ∀ i < 2, pokes m data (dpWrites args boottype len)
        (data + pathEnd args boottype + i) = 0 := by
      intro i hi
      refine hzero _ ?_ (by omega)
      rw [heq, pathEnd]
      omega
    rw [Mem.bytes_succ, Mem.bytes_succ, Mem.bytes_zero, hbyte 1 (by omega)]
    congr 1
    exact hbyte 0 (by omega)
  · -- the unit behind the path is a zero that is written
    rw [heq, unitBytes_append, List.length_append, List.length_cons,
      show 2 * ((pathString args).length + (rest.length + 1)) =
        2 * (pathString args).length + (2 + 2 * rest.length) by omega,
      Mem.bytes_add, Mem.bytes_add] at hunits
    obtain ⟨-, hrest⟩ := List.append_inj hunits (by rw [Mem.bytes_length, unitBytes_length])
    have hzeros : unitBytes (0 :: rest) = [0, 0] ++ unitBytes rest := rfl
    rw [hzeros] at hrest
    obtain ⟨htwo, -⟩ := List.append_inj hrest (by rw [Mem.bytes_length]; rfl)
    rw [← htwo, pathEnd]
    congr 1
    omega

/-- **Writes in the element, path terminated**: a patch of an element that is long enough is safe
exactly if a path of the greatest length has an element with two bytes more. -/
theorem dpSafe_iff {args : NtArgs} {boottype : BootType} (m : Mem) (data : ℕ) {len : ℕ}
    (h : dpLength boottype ≤ len) :
    DpSafe args boottype m data len ↔
      (hasPath boottype → (pathString args).length = maxPath → dpLength boottype + 2 ≤ len) := by
  constructor
  · intro hsafe hpath hfull
    have hend := dpOfs_add hpath
    obtain ⟨hroom, -⟩ := hsafe.terminated hpath
    rw [pathEnd, hfull] at hroom
    omega
  · intro hroom
    refine ⟨bcdPatchDp_eq m data h, dpWrites_inside args h, fun hpath => ?_⟩
    have hend := dpOfs_add hpath
    have hle := pathString_length_le args
    have hin : pathEnd args boottype + 2 ≤ len := by
      rw [pathEnd]
      by_cases hfull : (pathString args).length = maxPath
      · have := hroom hpath hfull
        omega
      · omega
    exact ⟨hin, bytes_pathEnd hpath m data h hin⟩

/-- The arguments for an image whose path has the given number of letters. -/
def longPath (n : ℕ) : NtArgs := setFilepath .init (List.replicate n 0x41) .ntbootWim

/-- A path of 254 letters. -/
theorem dpSafe_iff_longPath :
    DpSafe (longPath 254) .ntbootWim Mem.zero 0 0x28a ↔
      (hasPath .ntbootWim → (pathString (longPath 254)).length = maxPath →
        dpLength .ntbootWim + 2 ≤ 0x28a) :=
  dpSafe_iff Mem.zero 0 (by decide)

/-- A path of 255 letters fills the path field of an element of the least length. -/
theorem not_dpSafe_longPath :
    ¬∀ (args : NtArgs) (boottype : BootType) (m : Mem) (data len : ℕ), dpLength boottype ≤ len →
      DpSafe args boottype m data len := by
  intro h
  obtain ⟨hroom, -⟩ :=
    (h (longPath 255) .ntbootWim Mem.zero 0 0x28a (by decide)).terminated (Or.inl rfl)
  revert hroom
  decide +kernel

end Ntloader.Bcd
