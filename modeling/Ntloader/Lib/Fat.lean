import Ntloader.Lib.Memory

/-!
# Reading a FAT32 disk

A driver of disks with 512-byte sectors, over any block device. It knows nothing of the disk but what
is written on it: the partition table says where the volume is, its boot record where the FAT and the
clusters are, and the FAT how the clusters are chained.

* `Device` — a block device; `Device.Holds` — it answers a request with the bytes of an image.
* `Volume`, `mount`, `mountAt` — a volume, found by the partition table or known to start at a sector.
* `Volume.chain`, `Volume.readChain` — the chain of a cluster, and the bytes along it.
* `Volume.chain_range'`, `Volume.readChain_range'` — a chain of neighbouring clusters.
* `walk_related` — two walks along a path that correspond to each other.
-/

namespace Ntloader.Lib

/-- A block device: the bytes of a request for some sectors, given by the first and their number. -/
abbrev Device := ℕ → ℕ → Option (List UInt8)

namespace Device

/-- The device whose first sector is a sector of another. -/
def shift (dev : Device) (start : ℕ) : Device := fun lba count => dev (start + lba) count

/-- A request is answered with the bytes of an image. -/
def Holds (dev : Device) (img : Mem) (lba count : ℕ) : Prop :=
  dev lba count = some (img.bytes (512 * lba) (512 * count))

end Device

namespace Fat

/-! ## Volumes -/

/-- A little-endian number of `n` bytes. -/
def num (bs : List UInt8) (o n : ℕ) : ℕ := leNat ((bs.drop o).take n)

/-- Where the parts of a volume are. -/
structure Volume where
  /-- First sector of the FAT. -/
  fat : ℕ
  /-- First sector of the clusters. -/
  data : ℕ
  /-- Number of sectors of a cluster. -/
  clusterSectors : ℕ
  /-- Number of clusters; the first has number 2. -/
  clusters : ℕ
  /-- First cluster of the root directory. -/
  root : ℕ
  deriving Repr, DecidableEq

/-- The volume that a boot record describes, if it is one of FAT32: 16-bit fields that FAT32 does not
use are zero, and there are enough clusters. -/
def Volume.ofBoot (start : ℕ) (vbr : List UInt8) : Option Volume :=
  let overhead := num vbr 14 2 + num vbr 16 1 * num vbr 36 4
  let clusters := (num vbr 32 4 - overhead) / num vbr 13 1
  if num vbr 510 2 = 0xaa55 ∧ num vbr 11 2 = 512 ∧ num vbr 17 2 = 0 ∧ num vbr 19 2 = 0 ∧
      num vbr 22 2 = 0 ∧ 65525 ≤ clusters then
    some { fat := start + num vbr 14 2
           data := start + overhead
           clusterSectors := num vbr 13 1
           clusters := clusters
           root := num vbr 44 4 }
  else none

/-- Where the first FAT32 partition of a disk starts. -/
def partitionStart (mbr : List UInt8) : Option ℕ :=
  if num mbr 510 2 = 0xaa55 then
    ((List.range 4).find? fun i =>
      num mbr (450 + 16 * i) 1 = 0x0b ∨ num mbr (450 + 16 * i) 1 = 0x0c).map fun i =>
        num mbr (454 + 16 * i) 4
  else none

/-- The volume that starts at a sector. -/
def mountAt (dev : Device) (start : ℕ) : Option Volume := (dev start 1).bind (Volume.ofBoot start)

/-- The volume of a partitioned disk. -/
def mount (dev : Device) : Option Volume :=
  (dev 0 1).bind fun mbr => (partitionStart mbr).bind (mountAt dev)

/-! ## Chains of clusters -/

namespace Volume

variable (v : Volume) (dev : Device)

/-- The first sector of a cluster. -/
def clusterLba (c : ℕ) : ℕ := v.data + (c - 2) * v.clusterSectors

/-- The FAT entry of a cluster, 28 bits. -/
def entry (c : ℕ) : Option ℕ :=
  (dev (v.fat + c / 128) 1).map fun bs => num bs (4 * (c % 128)) 4 % 2 ^ 28

/-- The clusters from a cluster on, up to the one with an end marker, on fuel. A chain that leaves
the volume is refused. -/
def chain : ℕ → ℕ → Option (List ℕ)
  | 0, _ => none
  | fuel + 1, c =>
      if 2 ≤ c ∧ c < v.clusters + 2 then
        (v.entry dev c).bind fun next =>
          if 0x0ffffff8 ≤ next then some [c] else (chain fuel next).map (c :: ·)
      else none

/-- The bytes of a list of clusters. -/
def readClusters : List ℕ → Option (List UInt8)
  | [] => some []
  | c :: cs => (dev (v.clusterLba c) v.clusterSectors).bind fun bs => (readClusters cs).map (bs ++ ·)

/-- The bytes along the chain of a cluster. A chain without a loop has no more clusters than the
volume. -/
def readChain (c : ℕ) : Option (List UInt8) := (v.chain dev v.clusters c).bind (v.readClusters dev)

end Volume

/-! ## What a device holds -/

/-- A number within a run of memory. -/
theorem num_bytes (m : Mem) (a : ℕ) {k o n : ℕ} (h : o + n ≤ k) :
    num (m.bytes a k) o n = m.word (a + o) n := by
  obtain ⟨j, rfl⟩ : ∃ j, k = o + (n + j) := ⟨k - (o + n), by omega⟩
  rw [num, Mem.bytes_add, List.drop_left' (Mem.bytes_length m a o), Mem.bytes_add,
    List.take_left' (Mem.bytes_length m (a + o) n), Mem.word]

section Chain

variable {v : Volume} {dev : Device}

/-- The entry of a cluster, if the device holds an image. -/
theorem Volume.entry_eq {img : Mem} {c : ℕ} (h : dev.Holds img (v.fat + c / 128) 1) :
    v.entry dev c = some (img.word (512 * (v.fat + c / 128) + 4 * (c % 128)) 4 % 2 ^ 28) := by
  have hmod := Nat.mod_lt c (show 0 < 128 by norm_num)
  rw [Volume.entry, h, Option.map_some, num_bytes img _ (by omega)]

/-- **A chain of neighbouring clusters.** -/
theorem Volume.chain_range' {start n fuel : ℕ} (hfuel : n < fuel) (hlow : 2 ≤ start)
    (hhigh : start + n < v.clusters + 2)
    (hlink : ∀ k < n, v.entry dev (start + k) = some (start + k + 1))
    (hmarker : start + n < 0x0ffffff8)
    (hlast : ∃ e, v.entry dev (start + n) = some e ∧ 0x0ffffff8 ≤ e) :
    v.chain dev fuel start = some (List.range' start (n + 1)) := by
  induction n generalizing start fuel with
  | zero =>
      obtain ⟨fuel, rfl⟩ := Nat.exists_eq_succ_of_ne_zero (Nat.ne_of_gt hfuel)
      obtain ⟨e, he, hle⟩ := hlast
      rw [Nat.add_zero] at he
      rw [Volume.chain, if_pos ⟨hlow, hhigh⟩, he, Option.bind_some, if_pos hle]
      rfl
  | succ n ih =>
      obtain ⟨fuel, rfl⟩ := Nat.exists_eq_succ_of_ne_zero (Nat.ne_of_gt (Nat.zero_lt_of_lt hfuel))
      have hshift : ∀ k, start + (k + 1) = start + 1 + k := fun k => by omega
      have hrest : v.chain dev fuel (start + 1) = some (List.range' (start + 1) (n + 1)) := by
        refine ih (Nat.lt_of_succ_lt_succ hfuel) (by omega) (by omega) ?_ (by omega) ?_
        · intro k hk
          rw [← hshift]
          exact hlink (k + 1) (by omega)
        · rw [← hshift]
          exact hlast
      have hnext := hlink 0 (Nat.succ_pos n)
      rw [Nat.add_zero] at hnext
      rw [Volume.chain, if_pos ⟨hlow, by omega⟩, hnext, Option.bind_some, if_neg (by omega), hrest,
        Option.map_some, ← List.range'_succ]

/-- The bytes of neighbouring clusters follow each other. -/
theorem Volume.readClusters_range' {img : Mem} {start n : ℕ} (hlow : 2 ≤ start)
    (h : ∀ k < n, dev.Holds img (v.clusterLba (start + k)) v.clusterSectors) :
    v.readClusters dev (List.range' start n) =
      some (img.bytes (512 * v.clusterLba start) (512 * (n * v.clusterSectors))) := by
  induction n generalizing start with
  | zero => rw [List.range'_zero, Volume.readClusters, Nat.zero_mul, Nat.mul_zero, Mem.bytes_zero]
  | succ n ih =>
      have hshift : ∀ k, start + (k + 1) = start + 1 + k := fun k => by omega
      have hfirst := h 0 (Nat.succ_pos n)
      have hrest := @ih (start + 1) (by omega) fun k hk => by
        rw [← hshift]
        exact h (k + 1) (by omega)
      have hnext : v.clusterLba (start + 1) = v.clusterLba start + v.clusterSectors := by
        rw [Volume.clusterLba, Volume.clusterLba, show start + 1 - 2 = start - 2 + 1 by omega,
          Nat.succ_mul, Nat.add_assoc]
      have hsize : 512 * ((n + 1) * v.clusterSectors) =
          512 * v.clusterSectors + 512 * (n * v.clusterSectors) := by
        ring
      rw [Nat.add_zero, Device.Holds] at hfirst
      rw [List.range'_succ, Volume.readClusters, hfirst, Option.bind_some, hrest, Option.map_some,
        hnext, hsize, Mem.bytes_add, Nat.mul_add]

/-- **The bytes along a chain of neighbouring clusters.** -/
theorem Volume.readChain_range' {img : Mem} {start n : ℕ} (hlow : 2 ≤ start)
    (hhigh : start + n < v.clusters + 2) (hsize : v.clusters + 2 ≤ 0x0ffffff8)
    (hlink : ∀ k < n, v.entry dev (start + k) = some (start + k + 1))
    (hlast : ∃ e, v.entry dev (start + n) = some e ∧ 0x0ffffff8 ≤ e)
    (h : ∀ k < n + 1, dev.Holds img (v.clusterLba (start + k)) v.clusterSectors) :
    v.readChain dev start =
      some (img.bytes (512 * v.clusterLba start) (512 * ((n + 1) * v.clusterSectors))) := by
  have hchain := @Volume.chain_range' v dev start n v.clusters (by omega) hlow hhigh hlink
    (hhigh.trans_le hsize) hlast
  rw [Volume.readChain, hchain, Option.bind_some, Volume.readClusters_range' hlow h]

end Chain

/-! ## Paths -/

section Paths

variable {α β κ : Type} {R : α → β → Prop}

/-- **Two walks along a path** that correspond to each other step by step. -/
theorem walk_related {f : α → κ → Option α} {g : β → κ → Option β}
    (h : ∀ a b k, R a b → Option.Rel R (f a k) (g b k)) (path : List κ) {a : α} {b : β}
    (hab : R a b) : Option.Rel R (path.foldlM f a) (path.foldlM g b) := by
  induction path generalizing a b with
  | nil => exact Option.Rel.some hab
  | cons k path ih =>
      rw [List.foldlM_cons, List.foldlM_cons]
      have hstep := h a b k hab
      revert hstep
      cases f a k <;> cases g b k <;> intro hstep
      · exact Option.Rel.none
      · cases hstep
      · cases hstep
      · cases hstep with
        | some hrel => exact ih hrel

end Paths

end Fat

end Ntloader.Lib
