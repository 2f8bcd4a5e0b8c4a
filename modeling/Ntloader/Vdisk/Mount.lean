import Ntloader.Lib.Fat
import Ntloader.Vdisk.EndMarkers
import Ntloader.Vdisk.Listing

/-!
# Mounting the virtual disk

The virtual disk as a file system: what a FAT32 driver that knows nothing of it finds under a path.

* `readDir`, `readPath`, `listPath` — the driver: names are compared without regard to case, and the
  bytes of a file are those along its chain, cut to its size.
* `Node`, `Node.child` — the tree that the disk is to show: fixed directories, and in each of them every
  file.
* `Serves` — a device that answers requests with the bytes of the disk.
* `readPath_eq`, `listPath_eq` — the driver finds the tree.
-/

namespace Ntloader.Vdisk

open Ntloader.Lib Ntloader.Lib.Mem
open Ntloader.Lib.Fat

/-! ## A driver -/

/-- A unit of a name, an ASCII letter in upper case. -/
def upcase (u : ℕ) : ℕ := if 0x61 ≤ u ∧ u ≤ 0x7a then u - 0x20 else u

/-- Names are the same up to the case of ASCII letters. -/
def sameName (a b : List ℕ) : Bool := a.map upcase = b.map upcase

/-- An entry of a directory is one of a directory itself. -/
def DirEntry.isDirectory (e : DirEntry) : Bool := e.attr &&& vdiskDirectory ≠ 0

section Driver

variable (v : Volume) (dev : Device)

/-- The entries of the directory that starts at a cluster. -/
def readDir (c : ℕ) : Option (List DirEntry) :=
  (v.readChain dev c).bind fun bs =>
    parseRecords (recordsAt (Mem.ofList bs) 0 (bs.length / 32)) none

/-- The entry of a name in a directory. -/
def openEntry (e : DirEntry) (name : List ℕ) : Option DirEntry :=
  if e.isDirectory then
    (readDir v dev e.cluster).bind fun es => es.find? fun e => sameName name e.name
  else none

/-- The entry of a path, from the root directory on. -/
def openPath (path : List (List ℕ)) : Option DirEntry :=
  path.foldlM (openEntry v dev) ⟨[], vdiskDirectory, 0, v.root⟩

/-- The contents of a file. -/
def readFile (e : DirEntry) : Option (List UInt8) :=
  if e.isDirectory then none
  else if e.size = 0 then some []
  else (v.readChain dev e.cluster).map (·.take e.size)

/-- The contents of the file at a path. -/
def readPath (path : List (List ℕ)) : Option (List UInt8) :=
  (openPath v dev path).bind (readFile v dev)

/-- The directory at a path: the name of each entry, whether it is a directory, and its size. -/
def listPath (path : List (List ℕ)) : Option (List (List ℕ × Bool × ℕ)) :=
  (openPath v dev path).bind fun e =>
    if e.isDirectory then
      (readDir v dev e.cluster).map fun es => es.map fun e => (e.name, e.isDirectory, e.size)
    else none

end Driver

/-! ## The tree -/

/-- What is at a path: a directory, or the file of a place in the table. -/
inductive Node where
  | directory (d : Directory)
  | file (i : ℕ)
  deriving Repr, DecidableEq

/-- The directories within a directory, in the order they are listed in. -/
def Directory.directories : Directory → List (List UInt8 × Directory)
  | .root => [(nameEfi, .efi), (nameSources, .sources), (nameBoot, .boot)]
  | .boot => [(nameResources, .resources), (nameFonts, .fonts)]
  | .sources => []
  | .fonts => []
  | .resources => []
  | .efi => [(nameMicrosoft, .microsoft), (nameBoot, .boot)]
  | .microsoft => [(nameBoot, .boot)]

/-- The units of the name of a file. -/
def MemFile.units (f : MemFile) : List ℕ := (storedName f.name).map lfnUnit

section Tree

variable (files : List MemFile)

/-- What is in a directory: its directories, then all the files. -/
def Directory.children (d : Directory) : List (List ℕ × Node) :=
  d.directories.map (fun s => (s.1.map UInt8.toNat, .directory s.2)) ++
    files.mapIdx fun i f => (f.units, .file i)

/-- What has a name in a node. -/
def Node.child : Node → List ℕ → Option Node
  | .directory d, name => ((d.children files).find? fun c => sameName name c.1).map Prod.snd
  | .file _, _ => none

/-- What is at a path. -/
def Node.resolve (path : List (List ℕ)) : Option Node :=
  path.foldlM (Node.child files) (.directory .root)

/-- The size of a node. -/
def Node.size : Node → ℕ
  | .directory _ => 0
  | .file i => (files[i]?.map MemFile.len).getD 0

/-- The node is a directory. -/
def Node.isDirectory : Node → Bool
  | .directory _ => true
  | .file _ => false

/-- The contents of a file of the tree. -/
def Node.contents : Node → Option (List UInt8)
  | .directory _ => none
  | .file i => files[i]?.map fun f => f.contents.bytes 0 f.len

/-- The listing of a directory of the tree. -/
def Node.listing : Node → Option (List (List ℕ × Bool × ℕ))
  | .directory d => some ((d.children files).map fun c => (c.1, c.2.isDirectory, c.2.size files))
  | .file _ => none

/-- The directory entry of a node. -/
def Node.entry (name : List ℕ) : Node → DirEntry
  | .directory d => ⟨name, vdiskDirectory, 0, d.cluster⟩
  | .file i => ⟨name, vdiskReadOnly, (files[i]?.map MemFile.len).getD 0, vdiskFileCluster i⟩

/-- The node is in the tree. -/
def Node.Exists : Node → Prop
  | .directory _ => True
  | .file i => i < files.length

/-- A directory entry is one of a node of the tree. -/
def Shows (e : DirEntry) (n : Node) : Prop := e = n.entry files e.name ∧ n.Exists files

end Tree

/-- An entry is a directory's exactly if its node is one, -/
theorem Node.entry_isDirectory (files : List MemFile) (name : List ℕ) (n : Node) :
    (n.entry files name).isDirectory = n.isDirectory := by
  cases n with
  | directory d => exact (by decide : decide (vdiskDirectory &&& vdiskDirectory ≠ 0) = true)
  | file i => exact (by decide : decide (vdiskReadOnly &&& vdiskDirectory ≠ 0) = false)

/-- it has the size of its node, -/
theorem Node.entry_size (files : List MemFile) (name : List ℕ) (n : Node) :
    (n.entry files name).size = n.size files := by
  cases n <;> rfl

/-- and the name it is given. -/
theorem Node.entry_name (files : List MemFile) (name : List ℕ) (n : Node) :
    (n.entry files name).name = name := by
  cases n <;> rfl

/-- The children of a directory are in the tree. -/
theorem Directory.children_exist (files : List MemFile) (d : Directory) :
    ∀ c ∈ d.children files, c.2.Exists files := by
  intro c hc
  rcases List.mem_append.mp hc with hc | hc
  · obtain ⟨s, -, rfl⟩ := List.mem_map.mp hc
    exact trivial
  · obtain ⟨i, hi, rfl⟩ := List.mem_mapIdx.mp hc
    exact hi

/-- The entry of a child is found under its name. -/
theorem Directory.find_children (files : List MemFile) (d : Directory) (name : List ℕ) :
    Option.Rel (Shows files)
      (((d.children files).map fun c => c.2.entry files c.1).find? fun e => sameName name e.name)
      ((Node.directory d).child files name) := by
  have hshows : ∀ c ∈ d.children files, Shows files (c.2.entry files c.1) c.2 := by
    intro c hc
    exact ⟨by rw [Node.entry_name], d.children_exist files c hc⟩
  rw [List.find?_map, Node.child]
  have hname : ((fun e : DirEntry => sameName name e.name) ∘ fun c : List ℕ × Node =>
      c.2.entry files c.1) = fun c => sameName name c.1 := by
    funext c
    rw [Function.comp_apply, Node.entry_name]
  rw [hname]
  cases hfind : (d.children files).find? fun c => sameName name c.1 with
  | none => exact Option.Rel.none
  | some c => exact Option.Rel.some (hshows c (List.mem_of_find?_eq_some hfind))

/-- What the tree shows of a file. -/
def MemFile.shown (f : MemFile) : List ℕ × ℕ × List UInt8 :=
  (f.units, f.len, f.contents.bytes 0 f.len)

section Congr

variable {fs gs : List MemFile} (h : fs.map MemFile.shown = gs.map MemFile.shown)
include h

/-- The tree depends on what it shows of the files only. -/
theorem shown_getElem? (i : ℕ) : fs[i]?.map MemFile.shown = gs[i]?.map MemFile.shown := by
  rw [← List.getElem?_map, h, List.getElem?_map]

/-- Files with the same names and lengths are the children of a directory in the same way. -/
theorem Directory.children_congr (d : Directory) : d.children fs = d.children gs := by
  rw [Directory.children, Directory.children]
  congr 1
  rw [List.mapIdx_eq_iff]
  intro i
  have hi := shown_getElem? h i
  rw [List.getElem?_mapIdx]
  revert hi
  cases fs[i]? <;> cases gs[i]? <;> intro hi
  · rfl
  · cases hi
  · cases hi
  · rename_i f g
    have hunits : f.units = g.units := congrArg Prod.fst (Option.some.inj hi)
    rw [Option.map_some, Option.map_some, hunits]

/-- A path leads to the same node, -/
theorem Node.resolve_congr (path : List (List ℕ)) :
    Node.resolve fs path = Node.resolve gs path := by
  have hchild : Node.child fs = Node.child gs := by
    funext n name
    cases n with
    | file i => rfl
    | directory d => rw [Node.child, Node.child, d.children_congr h]
  rw [Node.resolve, Node.resolve, hchild]

/-- with the same contents, -/
theorem Node.contents_congr (n : Node) : n.contents fs = n.contents gs := by
  cases n with
  | directory d => rfl
  | file i =>
      have hi := shown_getElem? h i
      have hcontents := congrArg (Option.map fun s : List ℕ × ℕ × List UInt8 => s.2.2) hi
      rw [Option.map_map, Option.map_map] at hcontents
      exact hcontents

/-- and the same listing. -/
theorem Node.listing_congr (n : Node) : n.listing fs = n.listing gs := by
  have hsize : ∀ n : Node, n.size fs = n.size gs := by
    intro n
    cases n with
    | directory d => rfl
    | file i =>
        have hi := shown_getElem? h i
        have hlen := congrArg (Option.map fun s : List ℕ × ℕ × List UInt8 => s.2.1) hi
        rw [Option.map_map, Option.map_map] at hlen
        exact congrArg (Option.getD · 0) hlen
  cases n with
  | file i => rfl
  | directory d =>
      rw [Node.listing, Node.listing, d.children_congr h]
      exact congrArg some (List.map_congr_left fun c _ => by rw [hsize])

end Congr

/-- What the disk shows of an entry: its name, its length, whether it is registered, and what it
holds. -/
def VdiskFile.visible (f : VdiskFile) : List UInt8 × ℕ × Bool × Mem :=
  (f.name, f.xlen, f.read.isSome, f.contents)

/-- The disk depends on what it shows of the entries only. -/
theorem image_congr {t t' : VdiskFiles} (h : ∀ i, (t.get i).visible = (t'.get i).visible)
    (arch : Arch) : image arch t = image arch t' := by
  have hname (i : ℕ) : (t.get i).name = (t'.get i).name := congrArg (·.1) (h i)
  have hxlen (i : ℕ) : (t.get i).xlen = (t'.get i).xlen := congrArg (·.2.1) (h i)
  have hread (i : ℕ) : (t.get i).read.isSome = (t'.get i).read.isSome := congrArg (·.2.2.1) (h i)
  have hcontents (i : ℕ) : (t.get i).contents = (t'.get i).contents := congrArg (·.2.2.2) (h i)
  have hmarker : isEndMarker arch t = isEndMarker arch t' := by
    funext cluster
    simp only [isEndMarker, fileEndMarker, hread, hxlen]
  have hbyte (b : Builder) : b.byte arch t = b.byte arch t' := by
    funext x
    cases b with
    | mbr => rfl
    | vbr => rfl
    | fsinfo => rfl
    | subdirs d => rfl
    | fat => simp only [Builder.byte, fatEntry, hmarker]
    | dirFiles => simp only [Builder.byte, fileRecords, hread, hname, hxlen]
    | file => simp only [Builder.byte, fileByte, hcontents]
  funext x
  simp only [image, hbyte]

section Find

variable {files : List MemFile} {d : Directory} {name : List ℕ}

/-- A directory hides the files with its name. -/
theorem Node.child_of_directory {s : List UInt8 × Directory}
    (h : (d.directories.find? fun s => sameName name (s.1.map UInt8.toNat)) = some s) :
    (Node.directory d).child files name = some (.directory s.2) := by
  have hcomp : (fun c : List ℕ × Node => sameName name c.1) ∘
      (fun s : List UInt8 × Directory => (s.1.map UInt8.toNat, Node.directory s.2)) =
        fun s => sameName name (s.1.map UInt8.toNat) := rfl
  rw [Node.child, Directory.children, List.find?_append, List.find?_map, hcomp, h]
  rfl

/-- Where no directory has the name, it is that of the first file that has it. -/
theorem Node.child_of_file
    (h : (d.directories.find? fun s => sameName name (s.1.map UInt8.toNat)) = none) :
    ((Node.directory d).child files name).bind (Node.contents files) =
      (files.find? fun f => sameName name f.units).map fun f => f.contents.bytes 0 f.len := by
  have hcomp : (fun c : List ℕ × Node => sameName name c.1) ∘
      (fun s : List UInt8 × Directory => (s.1.map UInt8.toNat, Node.directory s.2)) =
        fun s => sameName name (s.1.map UInt8.toNat) := rfl
  -- the files behind the first ones
  have hfind : ∀ front back : List MemFile,
      (((back.mapIdx fun i f => (f.units, Node.file (front.length + i))).find? fun c =>
          sameName name c.1).map Prod.snd).bind (Node.contents (front ++ back)) =
        (back.find? fun f => sameName name f.units).map fun f => f.contents.bytes 0 f.len := by
    intro front back
    induction back generalizing front with
    | nil => rfl
    | cons f back ih =>
        rw [List.mapIdx_cons, List.find?_cons, List.find?_cons]
        cases hname : sameName name f.units with
        | true =>
            have hget : (front ++ f :: back)[front.length]? = some f := by simp
            dsimp only
            rw [Option.map_some, Option.bind_some, Node.contents, Nat.add_zero, hget]
        | false =>
            have hrest := ih (front ++ [f])
            have hindex : ∀ i, (front ++ [f]).length + i = front.length + (i + 1) := by
              intro i
              rw [List.length_append, List.length_singleton]
              omega
            simp only [hindex, List.append_assoc, List.singleton_append] at hrest
            exact hrest
  have hall := hfind [] files
  simp only [List.length_nil, Nat.zero_add, List.nil_append] at hall
  rw [Node.child, Directory.children, List.find?_append, List.find?_map, hcomp, h, Option.map_none,
    Option.none_or]
  exact hall

end Find

/-! ## Directories -/

/-- What is in a list at the places up to a number. -/
theorem filterMap_range_getElem {α β : Type} (xs : List α) (f : ℕ → α → β) (n : ℕ) :
    ((List.range n).filterMap fun i => xs[i]?.map (f i)) = (xs.take n).mapIdx f := by
  induction n with
  | zero => rfl
  | succ n ih =>
      rw [List.range_succ, List.filterMap_append, ih, List.take_add_one, List.mapIdx_append]
      cases h : xs[n]? with
      | none => simp [h]
      | some x =>
          have hlt := (List.getElem?_eq_some_iff.mp h).1
          have hlen : (xs.take n).length = n := List.length_take_of_le hlt.le
          simp [h, hlen]

section Listing

variable {files : List MemFile} {t : VdiskFiles}

/-- The sector of one place in the table, whatever the characters of the name are. -/
theorem parseRecords_memFile (hfiles : files.length ≤ vdiskMaxFiles)
    (hlen : ∀ f ∈ files, f.len < 2 ^ 32) (ht : addMemFiles files = some t) {i : ℕ}
    (hi : i < vdiskMaxFiles) (records : List (List UInt8)) :
    parseRecords (fileRecords t i ++ records) none =
      (parseRecords records none).map
        ((files[i]?.map fun f => (Node.file i).entry files f.units).toList ++ ·) := by
  have hcluster : vdiskFileCluster i < 2 ^ 32 := by
    rw [vdiskFileCluster_eq]
    simp only [vdiskMaxFiles, vdiskClusterCount] at hi
    omega
  unfold fileRecords
  rw [parseRecords_fillSector, addMemFiles_get hfiles ht]
  cases h : files[i]? with
  | none =>
      rw [if_neg (by simp [VdiskFile.unused])]
      simp
  | some f =>
      have hmod := Nat.mod_eq_of_lt (hlen f (List.mem_of_getElem? h))
      have hentry : (Node.file i).entry files f.units =
          ⟨f.units, vdiskReadOnly, f.len, vdiskFileCluster i⟩ := by
        rw [Node.entry, h]
        rfl
      rw [if_pos (by simp [MemFile.entry]), Option.map_some, Option.getD_some, MemFile.entry,
        parseRecords_direntRun (zero_not_mem_storedName f.name) (storedName_length_le f.name) _
          (by decide) (by decide) hcluster, hmod, Option.map_some, hentry]
      rfl

/-- The sectors of files are read in the order of the table. -/
theorem parseRecords_memFiles (hfiles : files.length ≤ vdiskMaxFiles)
    (hlen : ∀ f ∈ files, f.len < 2 ^ 32) (ht : addMemFiles files = some t) :
    parseRecords ((List.range vdiskMaxFiles).flatMap (fileRecords t)) none =
      some (files.mapIdx fun i f => (Node.file i).entry files f.units) := by
  have hall : ∀ idxs : List ℕ, (∀ i ∈ idxs, i < vdiskMaxFiles) →
      parseRecords (idxs.flatMap (fileRecords t)) none =
        some (idxs.filterMap fun i =>
          files[i]?.map fun f => (Node.file i).entry files f.units) := by
    intro idxs
    induction idxs with
    | nil => intro _; rfl
    | cons i idxs ih =>
        intro h
        have hi := h i List.mem_cons_self
        rw [List.flatMap_cons, parseRecords_memFile hfiles hlen ht hi,
          ih fun j hj => h j (List.mem_cons_of_mem i hj), Option.map_some, List.filterMap_cons]
        cases files[i]? <;> rfl
  have hrange := filterMap_range_getElem files
    (fun i f => (Node.file i).entry files f.units) vdiskMaxFiles
  rw [hall _ fun i hi => List.mem_range.mp hi, hrange, List.take_of_length_le hfiles]

/-- The fixed directories are listed as the directories of the tree. -/
theorem Directory.directories_listed (files : List MemFile) (d : Directory) :
    d.subdirs.reverse.map Subdir.listed =
      d.directories.map fun s => (Node.directory s.2).entry files (s.1.map UInt8.toNat) := by
  cases d <;> rfl

/-- **The records of a directory** are its children. -/
theorem parseRecords_directory (hfiles : files.length ≤ vdiskMaxFiles)
    (hlen : ∀ f ∈ files, f.len < 2 ^ 32) (ht : addMemFiles files = some t) (arch : Arch)
    (d : Directory) :
    parseRecords (recordsAt (image arch t) (512 * vdiskDirectoryLba d.cluster)
        (vdiskClusterCount * vdiskDirentPerSector)) none =
      some ((d.children files).map fun c => c.2.entry files c.1) := by
  have hfit := (addMemFiles_inMemory hfiles ht).namesFit
  have hfile : (files.mapIdx fun i f => (f.units, Node.file i)).map (fun c => c.2.entry files c.1) =
      files.mapIdx fun i f => (Node.file i).entry files f.units :=
    List.ext_getElem (by simp) (by simp)
  rw [recordsAt_directory arch hfit, Directory.records, parseRecords_fillSector,
    parseRecords_subdirRuns (subdirs_listable d), parseRecords_memFiles hfiles hlen ht,
    Option.map_some, Directory.directories_listed files d, Directory.children, List.map_append,
    List.map_map, hfile]
  rfl

end Listing

/-! ## A device that serves the disk -/

/-- The disk from a sector on. -/
def imageFrom (arch : Arch) (t : VdiskFiles) (base : ℕ) : Mem := fun x =>
  image arch t (512 * base + x)

/-- A device answers a request with the bytes of the disk from a sector on, if the request is for a
cluster at most, ends before the last window that a sector number of 32 bits can have, and does not
cross the start of the first file. -/
def Serves (arch : Arch) (t : VdiskFiles) (base : ℕ) (dev : Device) : Prop :=
  ∀ lba count, count ≤ vdiskClusterCount → base + lba + count < 511 * vdiskFileCount →
    (base + lba + count ≤ vdiskFileCount ∨ vdiskFileCount ≤ base + lba) →
    dev.Holds (imageFrom arch t base) lba count

/-- `vdisk_read` with a buffer, as a device. -/
def vdiskDevice (arch : Arch) (t : VdiskFiles) (data : ℕ) (m : Mem) : Device := fun lba count =>
  (vdiskRead arch t lba count data m).map fun m' => m'.bytes data (512 * count)

/-- The image from a sector on. -/
theorem imageFrom_bytes (arch : Arch) (t : VdiskFiles) (base a n : ℕ) :
    (imageFrom arch t base).bytes a n = (image arch t).bytes (512 * base + a) n :=
  bytes_congr fun i _ => congrArg (image arch t) (Nat.add_assoc (512 * base) a i).symm

/-- The disk is served, whatever the buffer. -/
theorem vdiskDevice_serves {t : VdiskFiles} (arch : Arch) (ht : t.InMemory) (data : ℕ) (m : Mem) :
    Serves arch t 0 (vdiskDevice arch t data m) := by
  intro lba count hcount hend hcross
  rw [Nat.zero_add] at hend hcross
  have hbytes : 512 * count < 2 ^ 32 := lt_of_le_of_lt (Nat.mul_le_mul_left 512 hcount) (by decide)
  have hread := @vdiskRead_eq arch t lba count ht hbytes (hend.trans (by decide)) (Or.inr hend)
    hcross data m
  rw [Device.Holds, imageFrom_bytes, vdiskDevice, hread, Option.map_some, bytes_copy_self,
    Nat.mul_zero, Nat.zero_add]

/-- The device from a sector on serves the rest of the disk. -/
theorem Serves.shift {arch : Arch} {t : VdiskFiles} {base : ℕ} {dev : Device}
    (h : Serves arch t base dev) (start : ℕ) : Serves arch t (base + start) (dev.shift start) := by
  intro lba count hcount hend hcross
  rw [Nat.add_assoc base start lba] at hend hcross
  have hholds := h (start + lba) count hcount hend hcross
  rw [Device.Holds, imageFrom_bytes] at *
  rw [Device.shift, hholds, Nat.mul_add, Nat.mul_add, Nat.add_assoc]

/-! ## The volume -/

/-- The volume of the virtual disk, on a device whose first sector is a sector of the disk. -/
def vdiskVolume (base : ℕ) : Volume where
  fat := vdiskFatLba - base
  data := vdiskDirectoryLba vdiskRootCluster - base
  clusterSectors := vdiskClusterCount
  clusters := vdiskClusters
  root := vdiskRootCluster

/-- The sector of a cluster, on the disk. -/
theorem base_add_clusterLba {base : ℕ} (hbase : base ≤ vdiskPartitionLba) (c : ℕ) :
    base + (vdiskVolume base).clusterLba c = vdiskPartitionLba + vdiskClusterSector c := by
  simp only [vdiskVolume, Volume.clusterLba, vdiskDirectoryLba, vdiskClusterSector, vdiskVbrLba,
    vdiskPartitionLba, vdiskClusterCount, vdiskReservedCount, vdiskSectorsPerFat, vdiskClusters,
    vdiskClusterSize, vdiskSectorSize, vdiskRootCluster] at *
  omega

/-- A sector that is one structure. -/
theorem image_structBytes {r : VdiskRegion} (hr : r ∈ vdiskRegions) {bs : List UInt8}
    (hlen : bs.length = 512) (hcount : r.count = 1) (arch : Arch) (t : VdiskFiles)
    (h : ∀ x, r.build.byte arch t x = bs.getD (x % 512) 0) :
    (image arch t).bytes (512 * r.lba) (512 * 1) = bs := by
  rw [Nat.mul_one, ← hlen]
  refine bytes_eq_iff.mpr fun i hi => ?_
  rw [hlen] at *
  have hdiv : (512 * r.lba + i) / 512 = r.lba := by omega
  have hmod : (512 * r.lba + i) % 512 = i := by omega
  rw [image_of_mem hr (by omega) (by omega), h, hmod]

/-- The first sector is the master boot record, -/
theorem image_mbr (arch : Arch) (t : VdiskFiles) :
    (image arch t).bytes (512 * 0) (512 * 1) = structBytes mbrFields :=
  @image_structBytes ⟨0, 1, .mbr⟩ (by decide) _ (by decide +kernel) rfl arch t fun _ => rfl

/-- and the first one of the partition its boot record. -/
theorem image_vbr (arch : Arch) (t : VdiskFiles) :
    (image arch t).bytes (512 * vdiskVbrLba) (512 * 1) = structBytes vbrFields :=
  @image_structBytes ⟨vdiskVbrLba, 1, .vbr⟩ (by decide) _ (by decide +kernel) rfl arch t fun _ => rfl

section Volume

variable {arch : Arch} {t : VdiskFiles} {base : ℕ} {dev : Device} (h : Serves arch t base dev)
include h

/-- The volume is found by the partition table. -/
theorem Serves.mount (hbase : base = 0) : mount dev = some (vdiskVolume 0) := by
  subst hbase
  have hmbr := h 0 1 (by decide) (by decide) (Or.inl (by decide))
  have hvbr := h vdiskVbrLba 1 (by decide) (by decide) (Or.inl (by decide))
  have hstart : partitionStart (structBytes mbrFields) = some vdiskVbrLba := by decide +kernel
  have hboot : Volume.ofBoot vdiskVbrLba (structBytes vbrFields) = some (vdiskVolume 0) := by
    decide +kernel
  rw [Device.Holds, imageFrom_bytes, Nat.mul_zero, Nat.zero_add] at hmbr hvbr
  rw [image_mbr] at hmbr
  rw [image_vbr] at hvbr
  rw [Fat.mount, hmbr, Option.bind_some, hstart, Option.bind_some, mountAt, hvbr, Option.bind_some,
    hboot]

/-- The volume starts at the first sector of its partition. -/
theorem Serves.mountAt (hbase : base = vdiskPartitionLba) :
    mountAt dev 0 = some (vdiskVolume vdiskPartitionLba) := by
  subst hbase
  have hvbr := h 0 1 (by decide) (by decide) (Or.inl (by decide))
  have hboot : Volume.ofBoot 0 (structBytes vbrFields) = some (vdiskVolume vdiskPartitionLba) := by
    decide +kernel
  have himage := image_vbr arch t
  rw [vdiskVbrLba] at himage
  rw [Device.Holds, imageFrom_bytes, Nat.mul_zero, Nat.add_zero, himage] at hvbr
  rw [Fat.mountAt, hvbr, Option.bind_some, hboot]

variable (hbase : base ≤ vdiskPartitionLba)
include hbase

/-- The FAT that the driver reads. -/
theorem Serves.entry {c : ℕ} (hc : c < fatEntries) :
    (vdiskVolume base).entry dev c = some (fatEntry arch t c) := by
  have hlt : c / 128 < vdiskSectorsPerFat := by
    rw [fatEntries] at hc
    omega
  have hsum : base + ((vdiskVolume base).fat + c / 128) = vdiskFatLba + c / 128 := by
    simp only [vdiskVolume, vdiskFatLba, vdiskVbrLba, vdiskPartitionLba] at *
    omega
  have hholds := h ((vdiskVolume base).fat + c / 128) 1 (by decide)
    (by rw [hsum]; exact lt_of_lt_of_le (Nat.succ_lt_succ (Nat.add_lt_add_left hlt _)) (by decide))
    (Or.inl (by rw [hsum]; exact le_trans (Nat.succ_le_succ (Nat.add_le_add_left hlt.le _)) (by decide)))
  have haddr : 512 * base + (512 * ((vdiskVolume base).fat + c / 128) + 4 * (c % 128)) =
      512 * (vdiskFatLba + c / 128) + 4 * (c % 128) := by
    rw [← hsum]
    ring
  have hword : (imageFrom arch t base).word
      (512 * ((vdiskVolume base).fat + c / 128) + 4 * (c % 128)) 4 = fatEntry arch t c := by
    rw [word, imageFrom_bytes, haddr, ← word, image_fatEntry arch t hc]
  have hmod : fatEntry arch t c % 2 ^ 28 = fatEntry arch t c := by
    refine Nat.mod_eq_of_lt ?_
    simp only [fatEntries, vdiskSectorsPerFat, vdiskClusters, vdiskClusterSize, vdiskClusterCount,
      vdiskSectorSize] at hc
    rw [fatEntry]
    split_ifs
    · decide
    · omega
  rw [Volume.entry_eq hholds, hword, hmod]

/-- The cluster of a directory is a chain of its own. -/
theorem Serves.readChain_directory (d : Directory) :
    (vdiskVolume base).readChain dev d.cluster =
      some ((image arch t).bytes (512 * vdiskDirectoryLba d.cluster) vdiskClusterSize) := by
  have hcluster : 2 ≤ d.cluster ∧ d.cluster < 128 := by cases d <;> decide
  have hlba : base + (vdiskVolume base).clusterLba d.cluster = vdiskDirectoryLba d.cluster :=
    base_add_clusterLba hbase d.cluster
  have hlow : vdiskDirectoryLba d.cluster + vdiskClusterCount ≤ vdiskFileCount := by
    cases d <;> decide
  have hmarked : fatEntry arch t d.cluster = vdiskFatEndMarker := if_pos (Or.inr hcluster.2)
  have hentry := h.entry hbase (hcluster.2.trans (by decide) : d.cluster < fatEntries)
  have hread := @Volume.readChain_range' (vdiskVolume base) dev (imageFrom arch t base) d.cluster 0
    hcluster.1 (hcluster.2.trans (show 128 < vdiskClusters + 2 by decide))
    (show vdiskClusters + 2 ≤ 0x0ffffff8 by decide) (fun k hk => absurd hk (Nat.not_lt_zero k))
    ⟨vdiskFatEndMarker, by rw [Nat.add_zero, hentry, hmarked], by decide⟩ (fun k hk => by
      obtain rfl : k = 0 := Nat.lt_one_iff.mp hk
      rw [Nat.add_zero]
      exact h _ vdiskClusterCount (by decide) (by rw [hlba]; exact lt_of_le_of_lt hlow (by decide))
        (Or.inl (by rw [hlba]; exact hlow)))
  rw [imageFrom_bytes, ← Nat.mul_add, hlba] at hread
  exact hread

end Volume

/-! ## Files -/

/-- The lengths in the table. -/
theorem addMemFiles_xlen {files : List MemFile} {t : VdiskFiles}
    (hfiles : files.length ≤ vdiskMaxFiles) (ht : addMemFiles files = some t) {i : ℕ}
    (hi : i < files.length) : (t.get i).xlen = files[i].len := by
  rw [addMemFiles_get hfiles ht, List.getElem?_eq_getElem hi]
  rfl

section Files

variable {files : List MemFile} {t : VdiskFiles} (hfiles : files.length ≤ vdiskMaxFiles)
  (hlen : ∀ f ∈ files, f.len < 2 ^ 32) (ht : addMemFiles files = some t)
include hfiles hlen ht

/-- Where the end markers are: in the window of a file the one of its last byte, and at the last
cluster of a window possibly that of an empty file. -/
theorem isEndMarker_cases (arch : Arch) {i k : ℕ} (hi : i < files.length)
    (hk : k < vdiskFileClusters)
    (h : isEndMarker arch t (vdiskFileCluster i + k) = true) :
    k = (files[i].len - 1) / 32768 ∨ k + 1 = vdiskFileClusters := by
  obtain ⟨j, hread, hmarker⟩ := isEndMarker_iff_exists.mp h
  have hj : j < files.length := by
    by_contra hge
    rw [addMemFiles_get hfiles ht, List.getElem?_eq_none (not_lt.mp hge)] at hread
    exact absurd hread (by decide)
  have hxlen := addMemFiles_xlen hfiles ht hj
  have hlt := hlen files[j] (List.getElem_mem hj)
  have hmax := hj.trans_le hfiles
  have hi₀ := vdiskFileCluster_eq i
  have hj₀ := vdiskFileCluster_eq j
  simp only [vdiskFileClusters, vdiskFileCount, vdiskClusterCount] at hk ⊢
  by_cases hzero : files[j].len = 0
  · obtain ⟨hnarrow, hwide⟩ := fileEndMarker_of_zero hmax (hxlen.trans hzero)
    right
    cases arch with
    | i386 =>
        rw [hnarrow] at hmarker
        simp only [vdiskFileClusters, vdiskFileCount, vdiskClusterCount] at hmarker
        omega
    | x86_64 =>
        rw [hwide] at hmarker
        omega
  · rw [fileEndMarker_of_pos arch hmax (by omega) (by omega), hxlen] at hmarker
    left
    -- windows do not overlap
    obtain rfl : j = i := by omega
    omega

/-- **The chain of a file that is not empty** has its contents, whatever other files there are. -/
theorem Serves.readChain_file {arch : Arch} {base : ℕ} {dev : Device} (h : Serves arch t base dev)
    (hbase : base ≤ vdiskPartitionLba) {i : ℕ} (hi : i < files.length) (hpos : files[i].len ≠ 0) :
    ∃ n, files[i].len ≤ n ∧ (vdiskVolume base).readChain dev (vdiskFileCluster i) =
      some ((t.get i).contents.bytes 0 n) := by
  have hlt := hlen files[i] (List.getElem_mem hi)
  have hmax := hi.trans_le hfiles
  have hxlen := addMemFiles_xlen hfiles ht hi
  have hi₀ := vdiskFileCluster_eq i
  obtain ⟨n, hn⟩ : ∃ n, n = (files[i].len - 1) / 32768 := ⟨_, rfl⟩
  have hwindow : n < vdiskFileClusters := by
    simp only [vdiskFileClusters, vdiskFileCount, vdiskClusterCount]
    omega
  have hentry : ∀ k < vdiskFileClusters, (vdiskVolume base).entry dev (vdiskFileCluster i + k) =
      some (fatEntry arch t (vdiskFileCluster i + k)) := fun k hk =>
    h.entry hbase (vdiskFileCluster_add_lt hmax hk)
  have hlink : ∀ k < n, (vdiskVolume base).entry dev (vdiskFileCluster i + k) =
      some (vdiskFileCluster i + k + 1) := by
    intro k hk
    rw [hentry k (hk.trans hwindow), fatEntry, if_neg]
    rintro (hmarker | hfirst)
    · rcases isEndMarker_cases hfiles hlen ht arch hi (hk.trans hwindow) hmarker with heq | heq
      · omega
      · omega
    · omega
  have hlast : (vdiskVolume base).entry dev (vdiskFileCluster i + n) = some vdiskFatEndMarker := by
    have hread : (t.get i).read.isSome = true := by
      rw [addMemFiles_get hfiles ht, List.getElem?_eq_getElem hi]
      rfl
    rw [hentry n hwindow, fatEntry, if_pos]
    refine Or.inl (isEndMarker_iff_exists.mpr ⟨i, hread, ?_⟩)
    rw [fileEndMarker_of_pos arch hmax (by omega) (by omega), hxlen, hn]
  have hhigh : vdiskFileCluster i + n < vdiskClusters + 2 := by
    have := vdiskFileCluster_add_lt hmax hwindow
    simp only [vdiskMaxFiles, vdiskClusterCount, vdiskFileClusters, vdiskFileCount,
      vdiskClusters] at *
    omega
  have hholds : ∀ k < n + 1, dev.Holds (imageFrom arch t base)
      ((vdiskVolume base).clusterLba (vdiskFileCluster i + k)) vdiskClusterCount := by
    intro k hk
    have hlba := (base_add_clusterLba hbase (vdiskFileCluster i + k)).trans
      (vdiskPartitionLba_add_vdiskClusterSector i k)
    simp only [vdiskMaxFiles, vdiskFileClusters, vdiskFileCount, vdiskClusterCount] at *
    refine h _ _ (by decide) ?_ (Or.inr ?_)
    · rw [hlba]
      simp only [vdiskFileCount]
      omega
    · rw [hlba]
      simp only [vdiskFileCount]
      omega
  have hread := @Volume.readChain_range' (vdiskVolume base) dev (imageFrom arch t base)
    (vdiskFileCluster i) n (by omega) hhigh (show vdiskClusters + 2 ≤ 0x0ffffff8 by decide) hlink
    ⟨vdiskFatEndMarker, hlast, by decide⟩ hholds
  have hlba := (base_add_clusterLba hbase (vdiskFileCluster i + 0)).trans
    (vdiskPartitionLba_add_vdiskClusterSector i 0)
  rw [Nat.add_zero (vdiskFileCluster i)] at hlba
  refine ⟨512 * ((n + 1) * vdiskClusterCount), ?_, hread.trans ?_⟩
  · simp only [vdiskClusterCount]
    omega
  · rw [imageFrom_bytes, ← Nat.mul_add, hlba, Nat.zero_mul, Nat.add_zero]
    refine congrArg some (bytes_congr fun k hk => ?_)
    rw [Nat.zero_add]
    refine image_file hmax ?_ arch t
    simp only [vdiskFileClusters, vdiskFileCount, vdiskClusterCount] at *
    change k < 512 * ((n + 1) * 64) at hk
    omega

/-! ## The driver finds the tree -/

section Refine

variable {arch : Arch} {base : ℕ} {dev : Device} (h : Serves arch t base dev)
  (hbase : base ≤ vdiskPartitionLba)
include h hbase

/-- A directory is read as its children. -/
theorem Serves.readDir (d : Directory) :
    readDir (vdiskVolume base) dev d.cluster =
      some ((d.children files).map fun c => c.2.entry files c.1) := by
  have hrecords : recordsAt (Mem.ofList ((image arch t).bytes
        (512 * vdiskDirectoryLba d.cluster) vdiskClusterSize)) 0
          (vdiskClusterCount * vdiskDirentPerSector) =
      recordsAt (image arch t) (512 * vdiskDirectoryLba d.cluster)
        (vdiskClusterCount * vdiskDirentPerSector) := by
    refine recordsAt_congr fun k hk => ?_
    rw [Nat.zero_add]
    exact bytes_getD (lt_of_lt_of_le hk (by decide)) _ _
  have hcount : vdiskClusterSize / 32 = vdiskClusterCount * vdiskDirentPerSector := by decide
  rw [Vdisk.readDir, h.readChain_directory hbase, Option.bind_some, bytes_length, hcount, hrecords,
    parseRecords_directory hfiles hlen ht]

/-- One step along a path. -/
theorem Serves.openEntry {e : DirEntry} {n : Node} (hshows : Shows files e n) (name : List ℕ) :
    Option.Rel (Shows files) (openEntry (vdiskVolume base) dev e name) (n.child files name) := by
  obtain ⟨he, -⟩ := hshows
  have hdir := n.entry_isDirectory files e.name
  rw [← he] at hdir
  rw [Vdisk.openEntry, hdir]
  cases n with
  | file i => exact Option.Rel.none
  | directory d =>
      have hcluster : e.cluster = d.cluster := by
        rw [he]
        rfl
      rw [hcluster, h.readDir hfiles hlen ht hbase, Option.bind_some, Node.isDirectory, if_pos rfl]
      exact d.find_children files name

/-- A path leads to the entry of what is there. -/
theorem Serves.openPath (path : List (List ℕ)) :
    Option.Rel (Shows files) (openPath (vdiskVolume base) dev path) (Node.resolve files path) :=
  walk_related (fun _ _ name hshows => h.openEntry hfiles hlen ht hbase hshows name) path
    ⟨rfl, trivial⟩

/-- A file is read. -/
theorem Serves.readFile {e : DirEntry} {n : Node} (hshows : Shows files e n) :
    readFile (vdiskVolume base) dev e = n.contents files := by
  obtain ⟨he, hexists⟩ := hshows
  have hdir := n.entry_isDirectory files e.name
  rw [← he] at hdir
  rw [Vdisk.readFile, hdir]
  cases n with
  | directory d => rfl
  | file i =>
      have hi : i < files.length := hexists
      have hget : files[i]? = some files[i] := List.getElem?_eq_getElem hi
      have hsize : e.size = files[i].len := by
        rw [he, Node.entry, hget]
        rfl
      have hcluster : e.cluster = vdiskFileCluster i := by
        rw [he]
        rfl
      rw [Node.isDirectory, if_neg Bool.false_ne_true, hsize, hcluster, Node.contents, hget,
        Option.map_some]
      by_cases hpos : files[i].len = 0
      · rw [if_pos hpos, hpos, bytes_zero]
      · obtain ⟨n, hn, hread⟩ := h.readChain_file hfiles hlen ht hbase hi hpos
        have hentry : t.get i = files[i].entry := by
          rw [addMemFiles_get hfiles ht, hget]
          rfl
        obtain ⟨k, rfl⟩ := Nat.exists_eq_add_of_le hn
        rw [if_neg hpos, hread, Option.map_some, bytes_add, List.take_left' (bytes_length _ _ _),
          hentry]
        refine congrArg some (bytes_congr fun j hj => ?_)
        rw [Nat.zero_add]
        exact if_pos hj

/-- **The files of the disk.** -/
theorem Serves.readPath (path : List (List ℕ)) :
    readPath (vdiskVolume base) dev path =
      (Node.resolve files path).bind (Node.contents files) := by
  have hopen := h.openPath hfiles hlen ht hbase path
  rw [Vdisk.readPath]
  revert hopen
  cases Vdisk.openPath (vdiskVolume base) dev path <;> cases Node.resolve files path <;>
    intro hopen
  · rfl
  · cases hopen
  · cases hopen
  · cases hopen with
    | some hshows => exact h.readFile hfiles hlen ht hbase hshows

/-- **The directories of the disk.** -/
theorem Serves.listPath (path : List (List ℕ)) :
    listPath (vdiskVolume base) dev path =
      (Node.resolve files path).bind (Node.listing files) := by
  have hopen := h.openPath hfiles hlen ht hbase path
  rw [Vdisk.listPath]
  revert hopen
  cases Vdisk.openPath (vdiskVolume base) dev path with
  | none =>
      cases Node.resolve files path <;> intro hopen
      · rfl
      · cases hopen
  | some e =>
      cases Node.resolve files path with
      | none => intro hopen; cases hopen
      | some n =>
          intro hopen
          cases hopen with
          | some hshows =>
              obtain ⟨he, -⟩ := hshows
              have hdir := n.entry_isDirectory files e.name
              rw [← he] at hdir
              rw [Option.bind_some, Option.bind_some, hdir]
              cases n with
              | file i => rfl
              | directory d =>
                  have hcluster : e.cluster = d.cluster := by
                    rw [he]
                    rfl
                  rw [Node.isDirectory, if_pos rfl, hcluster, h.readDir hfiles hlen ht hbase,
                    Option.map_some, Node.listing, List.map_map]
                  refine congrArg some (List.map_congr_left fun c _ => ?_)
                  rw [Function.comp_apply, Node.entry_name, Node.entry_isDirectory,
                    Node.entry_size]

end Refine

end Files

/-- **The virtual disk is a file system.** A FAT32 driver that finds the volume by the partition table
reads and lists what the tree of the registered files has, at every path; on both builds, for any
buffer, whatever characters the names have and whichever of the files are empty.
Source: libnt/vdisk.c, vdisk_read, vdisk_add_file -/
theorem vdisk_fileSystem {files : List MemFile} {t : VdiskFiles}
    (hfiles : files.length ≤ vdiskMaxFiles) (hlen : ∀ f ∈ files, f.len < 2 ^ 32)
    (ht : addMemFiles files = some t) (arch : Arch) (data : ℕ) (m : Mem) :
    ∃ v, mount (vdiskDevice arch t data m) = some v ∧ ∀ path,
      readPath v (vdiskDevice arch t data m) path =
          (Node.resolve files path).bind (Node.contents files) ∧
        listPath v (vdiskDevice arch t data m) path =
          (Node.resolve files path).bind (Node.listing files) := by
  have hserves := vdiskDevice_serves arch (addMemFiles_inMemory hfiles ht) data m
  refine ⟨vdiskVolume 0, hserves.mount rfl, fun path => ⟨?_, ?_⟩⟩
  · exact hserves.readPath hfiles hlen ht (Nat.zero_le _) path
  · exact hserves.listPath hfiles hlen ht (Nat.zero_le _) path

/-- An empty file in front of one of one byte, on the 64-bit build. -/
theorem vdisk_fileSystem_empty :
    ∃ t, addMemFiles [⟨[0x62], Mem.zero, 0⟩, oneByteFile] = some t ∧ ∀ (data : ℕ) (m : Mem),
      ∃ v, mount (vdiskDevice .x86_64 t data m) = some v ∧ ∀ path,
        readPath v (vdiskDevice .x86_64 t data m) path =
            (Node.resolve [⟨[0x62], Mem.zero, 0⟩, oneByteFile] path).bind
              (Node.contents [⟨[0x62], Mem.zero, 0⟩, oneByteFile]) ∧
          listPath v (vdiskDevice .x86_64 t data m) path =
            (Node.resolve [⟨[0x62], Mem.zero, 0⟩, oneByteFile] path).bind
              (Node.listing [⟨[0x62], Mem.zero, 0⟩, oneByteFile]) := by
  obtain ⟨t, ht, -⟩ := @addMemFiles_eq [⟨[0x62], Mem.zero, 0⟩, oneByteFile] (by decide)
  exact ⟨t, ht, vdisk_fileSystem (by decide) (by decide) ht .x86_64⟩

/-- Directories and files are found whatever the case of a name. -/
example : Node.resolve [oneByteFile] [[0x65, 0x66, 0x69], [0x42, 0x6f, 0x6f, 0x74], [0x41]] =
    some (.file 0) := by decide

end Ntloader.Vdisk
