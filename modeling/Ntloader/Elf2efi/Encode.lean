import Ntloader.Elf2efi.Sections

/-!
# The base relocations that elf2efi writes

* `parseRelocs` — a reader of base relocations: blocks of a page address, a block size and 16-bit
  entries.
* `outputPeReltab_eq` — the table is written as one block a group; `parseRelocs_eq` — and is read
  back so.
* `Encoded` — the blocks of a table are its fix-ups; `generateAll_encoded` — those that have been
  generated, and those less the image base.
* `convert_generateAll` — which fix-ups these are in the conversion of a file.
-/

namespace Ntloader.Elf2efi

open Ntloader.Lib

/-! ## A reader of base relocations -/

/-- A block of base relocations.
Source: include/efi/IndustryStandard/PeImage.h, EFI_IMAGE_BASE_RELOCATION -/
structure RelocBlock where
  /-- The address of the page. -/
  page : ℕ
  /-- The size of the block. -/
  size : ℕ
  entries : List ℕ

/-- The 16-bit entries of a block. -/
def parseEntries : List UInt8 → List ℕ
  | a :: b :: bytes => leNat [a, b] :: parseEntries bytes
  | _ => []

/-- The blocks one after the other; a block that is shorter than its header, or longer than what is
left, is refused. -/
def parseBlocks : ℕ → List UInt8 → Option (List RelocBlock)
  | _, [] => some []
  | 0, _ :: _ => none
  | fuel + 1, b :: bs =>
      let bytes := b :: bs
      let size := leNat ((bytes.drop 4).take 4)
      if size < 8 ∨ bytes.length < size then none
      else
        (parseBlocks fuel (bytes.drop size)).map
          (⟨leNat (bytes.take 4), size, parseEntries ((bytes.take size).drop 8)⟩ :: ·)

/-- Read base relocations. -/
def parseRelocs (bytes : List UInt8) : Option (List RelocBlock) := parseBlocks bytes.length bytes

/-- The addresses and types of the fix-ups of a block, entries of type 0 being padding. -/
def RelocBlock.fixups (b : RelocBlock) : List (ℕ × ℕ) :=
  (b.entries.filter fun e => e / 4096 ≠ 0).map fun e => (b.page + e % 4096, e / 4096)

/-- The type of a fix-up of so many bytes.
Source: include/efi/IndustryStandard/PeImage.h, EFI_IMAGE_REL_BASED_DIR64,
EFI_IMAGE_REL_BASED_HIGHLOW, EFI_IMAGE_REL_BASED_LOW -/
def relocType (size : ℕ) : ℕ := if size = 8 then 10 else if size = 4 then 3 else 2

/-! ## One fix-up -/

/-- The entry of a fix-up. -/
def entryOf (c : ℕ × ℕ) : ℕ := relocType c.2 * 4096 + c.1 % 4096

/-- An entry has the offset in its page, -/
theorem entryOf_mod (c : ℕ × ℕ) : entryOf c % 4096 = c.1 % 4096 := by
  rw [entryOf]
  omega

/-- and the type above it. -/
theorem entryOf_div (c : ℕ × ℕ) : entryOf c / 4096 = relocType c.2 := by
  rw [entryOf]
  omega

/-- The type has four bits. -/
theorem relocType_bounds (size : ℕ) : 2 ≤ relocType size ∧ relocType size ≤ 10 := by
  rw [relocType]
  split_ifs
  · norm_num
  · norm_num
  · norm_num

/-- A relocation of a word of two, four or eight bytes has an entry. -/
theorem relocEntry_eq {c : ℕ × ℕ} (h : c.2 = 2 ∨ c.2 = 4 ∨ c.2 = 8) :
    relocEntry c.1 c.2 = some (entryOf c) := by
  have hlow : c.1 &&& 0xfff = c.1 % 4096 := Nat.and_two_pow_sub_one_eq_mod c.1 12
  have hor : ∀ t, (c.1 % 4096) ||| 4096 * t = t * 4096 + c.1 % 4096 := by
    intro t
    have hlt : c.1 % 4096 < 2 ^ 12 := Nat.mod_lt _ (by norm_num)
    exact (Nat.or_comm _ _).trans ((Nat.two_pow_add_eq_or_of_lt hlt t).symm.trans (by ring))
  rw [relocEntry, hlow, entryOf, relocType]
  rcases h with h | h | h
  · rw [h]
    exact congrArg some (hor 2)
  · rw [h]
    exact congrArg some (hor 3)
  · rw [h]
    exact congrArg some (hor 10)

/-- The start of a page, as a division. -/
theorem pageStart_eq {arch : Arch} {rva : ℕ} (h : rva < arch.ulong) :
    pageStart arch rva = rva / 4096 * 4096 := by
  cases arch with
  | i386 =>
      have hlt : rva < 2 ^ 32 := h
      rw [pageStart, Arch.ulong, show 2 ^ 32 - 1 - 0xfff = (2 ^ 20 - 1) <<< 12 from rfl, land_mask,
        Nat.shiftLeft_eq]
      omega
  | x86_64 =>
      have hlt : rva < 2 ^ 64 := h
      rw [pageStart, Arch.ulong, show 2 ^ 64 - 1 - 0xfff = (2 ^ 52 - 1) <<< 12 from rfl, land_mask,
        Nat.shiftLeft_eq]
      omega

/-! ## One block -/

/-- The entries of a group, padded to an even number. -/
def paddedEntries (entries : List ℕ) : List ℕ :=
  entries ++ List.replicate (entries.length % 2) 0

/-- The block of a group. -/
def blockOf (g : ℕ × List ℕ) : RelocBlock :=
  ⟨g.1 % 2 ^ 32, 8 + (paddedEntries g.2).length * 2, paddedEntries g.2⟩

/-- The bytes of the block of a group. -/
def blockBytes (g : ℕ × List ℕ) : List UInt8 :=
  leBytes 4 g.1 ++ leBytes 4 (8 + (paddedEntries g.2).length * 2) ++ entryBytes (paddedEntries g.2)

/-- An odd number of entries gets one more. -/
@[simp] theorem paddedEntries_length (entries : List ℕ) :
    (paddedEntries entries).length = entries.length + entries.length % 2 := by
  rw [paddedEntries, List.length_append, List.length_replicate]

/-- An entry has two bytes. -/
@[simp] theorem entryBytes_length (entries : List ℕ) :
    (entryBytes entries).length = entries.length * 2 := by
  rw [entryBytes, List.length_flatMap]
  simp

/-- A block has its header and its entries. -/
theorem blockBytes_length (g : ℕ × List ℕ) :
    (blockBytes g).length = 8 + (paddedEntries g.2).length * 2 := by
  rw [blockBytes, List.length_append, List.length_append, leBytes_length, leBytes_length,
    entryBytes_length]

/-- Entries are read back. -/
theorem parseEntries_entryBytes {entries : List ℕ} (h : ∀ e ∈ entries, e < 2 ^ 16) :
    parseEntries (entryBytes entries) = entries := by
  induction entries with
  | nil => rfl
  | cons e entries ih =>
      have hword : leNat (leBytes 2 e) = e := leNat_leBytes_of_lt (h e List.mem_cons_self)
      have hrest := ih fun e' he' => h e' (List.mem_cons_of_mem _ he')
      rw [entryBytes, List.flatMap_cons]
      show leNat (leBytes 2 e) :: parseEntries (entryBytes entries) = e :: entries
      rw [hword, hrest]

/-- What is needed of a group for its block to be read back. -/
structure Readable (g : ℕ × List ℕ) : Prop where
  /-- The size of the block fits its field. -/
  length_le : g.2.length ≤ 2 ^ 31 - 6
  /-- The entries have 16 bits. -/
  entry_lt : ∀ e ∈ g.2, e < 2 ^ 16
  /-- None is padding. -/
  type_ne : ∀ e ∈ g.2, e / 4096 ≠ 0

/-- A readable block has fewer than 2 ^ 31 entries, -/
theorem Readable.length_lt {g : ℕ × List ℕ} (h : Readable g) : g.2.length < 2 ^ 31 :=
  h.length_le.trans_lt (by norm_num)

/-- and a size of 32 bits. -/
theorem Readable.size_lt {g : ℕ × List ℕ} (h : Readable g) :
    8 + (paddedEntries g.2).length * 2 < 2 ^ 32 := by
  have hle := h.length_le
  rw [paddedEntries_length]
  omega

/-- A block is read back, and what follows it is read on. -/
theorem parseBlocks_cons {g : ℕ × List ℕ} (h : Readable g) (fuel : ℕ) (bytes : List UInt8) :
    parseBlocks (fuel + 1) (blockBytes g ++ bytes) =
      (parseBlocks fuel bytes).map (blockOf g :: ·) := by
  have hlength := blockBytes_length g
  have hpage : leNat ((blockBytes g ++ bytes).take 4) = g.1 % 2 ^ 32 := by
    rw [blockBytes, List.append_assoc, List.append_assoc, List.take_left' (leBytes_length 4 _),
      leNat_leBytes]
    norm_num
  have hsize : leNat (((blockBytes g ++ bytes).drop 4).take 4) =
      8 + (paddedEntries g.2).length * 2 := by
    rw [blockBytes, List.append_assoc, List.append_assoc, List.drop_left' (leBytes_length 4 _),
      List.take_left' (leBytes_length 4 _), leNat_leBytes_of_lt h.size_lt]
  have hentries : ((blockBytes g).drop 8) = entryBytes (paddedEntries g.2) := by
    rw [blockBytes, List.drop_left']
    rw [List.length_append, leBytes_length, leBytes_length]
  have hlt : ∀ e ∈ paddedEntries g.2, e < 2 ^ 16 := by
    intro e he
    rcases List.mem_append.mp he with hmem | hzero
    · exact h.entry_lt e hmem
    · rw [List.eq_of_mem_replicate hzero]
      norm_num
  generalize hbytes : blockBytes g ++ bytes = all at hpage hsize
  have hall : all.length = 8 + (paddedEntries g.2).length * 2 + bytes.length := by
    rw [← hbytes, List.length_append, hlength]
  cases all with
  | nil =>
      rw [List.length_nil] at hall
      omega
  | cons b bs =>
      rw [parseBlocks, hsize, hpage, if_neg (by omega), ← hbytes, List.take_left' hlength,
        List.drop_left' hlength, hentries, parseEntries_entryBytes hlt]
      rfl

/-- **The blocks of the groups are read back.** -/
theorem parseRelocs_eq {gs : List (ℕ × List ℕ)} (h : ∀ g ∈ gs, Readable g) :
    parseRelocs (gs.flatMap blockBytes) = some (gs.map blockOf) := by
  have hfuel : ∀ fuel, (gs.flatMap blockBytes).length ≤ fuel →
      parseBlocks fuel (gs.flatMap blockBytes) = some (gs.map blockOf) := by
    induction gs with
    | nil =>
        intro fuel _
        cases fuel with
        | zero => rfl
        | succ fuel => rfl
    | cons g gs ih =>
        intro fuel hle
        rw [List.flatMap_cons, List.length_append, blockBytes_length] at hle
        obtain ⟨fuel, rfl⟩ := Nat.exists_eq_add_of_le' (show 1 ≤ fuel by omega)
        rw [List.flatMap_cons, parseBlocks_cons (h g List.mem_cons_self),
          ih (fun g' hg' => h g' (List.mem_cons_of_mem _ hg')) fuel (by omega)]
        rfl
  exact hfuel _ le_rfl

/-- The fix-ups of the block of a group. -/
theorem blockOf_fixups {g : ℕ × List ℕ} (h : Readable g) :
    (blockOf g).fixups = g.2.map fun e => (g.1 % 2 ^ 32 + e % 4096, e / 4096) := by
  have hkeep : g.2.filter (fun e => e / 4096 ≠ 0) = g.2 :=
    List.filter_eq_self.mpr fun e he => decide_eq_true (h.type_ne e he)
  have hpad : (List.replicate (g.2.length % 2) 0).filter (fun e => e / 4096 ≠ 0) = [] := by
    rw [List.filter_eq_nil_iff]
    intro e he
    rw [List.eq_of_mem_replicate he]
    simp
  rw [RelocBlock.fixups, blockOf, paddedEntries, List.filter_append, hkeep, hpad, List.append_nil]

/-! ## The table in memory -/

/-- What is written of a page. -/
theorem PeRelocs.Represents.written {p : PeRelocs} {g : ℕ × List ℕ} (hp : p.Represents g)
    (hlt : g.2.length < 2 ^ 31) (m : Mem) (a : ℕ) :
    p.blockSize = (blockBytes g).length ∧
      ((m.putWord a 4 p.startRva).putWord (a + 4) 4 p.blockSize).store (a + 8)
        (entryBytes (p.relocs.take p.numRelocs)) = m.store a (blockBytes g) := by
  obtain ⟨hnum, htake⟩ := hp.toHolds.take_numRelocs hlt
  have hsize : p.blockSize = 8 + (paddedEntries g.2).length * 2 := by
    rw [PeRelocs.blockSize, hnum, paddedEntries_length]
  refine ⟨hsize.trans (blockBytes_length g).symm, ?_⟩
  rw [htake, hsize, hp.startRva_eq, blockBytes, Mem.store_append, Mem.store_append, Mem.putWord,
    Mem.putWord, List.length_append, leBytes_length, leBytes_length]
  rfl

/-- **The table is one block a group**, whether or not it is written. -/
theorem outputLoop_eq {reltab : List PeRelocs} {gs : List (ℕ × List ℕ)}
    (h : List.Forall₂ PeRelocs.Represents reltab gs) (hgs : ∀ g ∈ gs, g.2.length < 2 ^ 31)
    (total : ℕ) (m : Mem) :
    outputLoop none reltab total m = (total + (gs.flatMap blockBytes).length, m) ∧
      ∀ buf, outputLoop (some buf) reltab total m =
        (total + (gs.flatMap blockBytes).length, m.store (buf + total) (gs.flatMap blockBytes)) := by
  induction h generalizing total m with
  | nil => exact ⟨rfl, fun buf => by rw [List.flatMap_nil, Mem.store_nil]; rfl⟩
  | @cons p g ps gs hp _ ih =>
      have hg := hgs g List.mem_cons_self
      have hrest : ∀ g' ∈ gs, g'.2.length < 2 ^ 31 :=
        fun g' hg' => hgs g' (List.mem_cons_of_mem _ hg')
      have hsize := (hp.written hg m 0).1
      have hlength : total + ((g :: gs).flatMap blockBytes).length =
          total + p.blockSize + (gs.flatMap blockBytes).length := by
        rw [List.flatMap_cons, List.length_append, hsize, Nat.add_assoc]
      rw [hlength]
      refine ⟨?_, fun buf => ?_⟩
      · rw [outputLoop]
        exact (ih hrest (total + p.blockSize) m).1
      · rw [outputLoop, (hp.written hg m (buf + total)).2, (ih hrest _ _).2 buf, List.flatMap_cons,
          Mem.store_append, hsize, Nat.add_assoc buf]

/-! ## What has been generated -/

/-- The table, written as these bytes, is read back as these blocks, whose fix-ups are those of the
calls at other addresses. -/
structure Encoded (address : ℕ → ℕ) (calls : List (ℕ × ℕ)) (reltab : List PeRelocs)
    (bytes : List UInt8) (blocks : List RelocBlock) : Prop where
  /-- Without a buffer the length is returned, and nothing is written. -/
  size_eq : ∀ m, outputPeReltab reltab none m = (bytes.length, m)
  /-- With a buffer the length is the same, and the bytes are what is written. -/
  written : ∀ buf m, outputPeReltab reltab (some buf) m = (bytes.length, m.store buf bytes)
  parsed : parseRelocs bytes = some blocks
  size_dvd : ∀ b ∈ blocks, 4 ∣ b.size
  fixups : (blocks.flatMap RelocBlock.fixups).Perm
    (calls.map fun c => (address c.1, relocType c.2))

/-- The address less the base, as a number of 32 bits. -/
def relative (base rva : ℕ) : ℕ := (((rva : ℤ) - base) % 2 ^ 32).toNat

/-- No two pages differ by a multiple of 2^32. -/
def PagesApart (calls : List (ℕ × ℕ)) : Prop :=
  ∀ c ∈ calls, ∀ c' ∈ calls, c.1 / 4096 % 2 ^ 20 = c'.1 / 4096 % 2 ^ 20 → c.1 / 4096 = c'.1 / 4096

/-- The calls, each as the address of its page and its entry. -/
def pageEntries (calls : List (ℕ × ℕ)) : List (ℕ × ℕ) :=
  calls.map fun c => (c.1 / 4096 * 4096, entryOf c)

section

variable {arch : Arch} {calls : List (ℕ × ℕ)}

/-- The groups of the calls. -/
theorem readable_collect (hcount : ∀ page, calls.countP (fun c => c.1 / 4096 = page) ≤ 2 ^ 31 - 6) :
    ∀ g ∈ collect (pageEntries calls) [], Readable g := by
  intro g hg
  have hperm := collect_nil_pairs (pageEntries calls)
  have hentry : ∀ e ∈ g.2, ∃ c, e = entryOf c := by
    intro e he
    obtain ⟨c, -, hc⟩ := List.mem_map.mp (hperm.mem_iff.mp (mem_groupPairs hg he))
    exact ⟨c, (congrArg Prod.snd hc).symm⟩
  refine ⟨?_, ?_, ?_⟩
  · have hlength := length_le_of_mem hg
    rw [hperm.countP_eq, pageEntries, List.countP_map] at hlength
    refine hlength.trans ((List.countP_mono_left ?_).trans (hcount (g.1 / 4096)))
    intro c _ hc
    have heq : c.1 / 4096 * 4096 = g.1 := of_decide_eq_true hc
    exact decide_eq_true (by omega)
  · intro e he
    obtain ⟨c, rfl⟩ := hentry e he
    have hbounds := relocType_bounds c.2
    rw [entryOf]
    omega
  · intro e he
    obtain ⟨c, rfl⟩ := hentry e he
    have hbounds := relocType_bounds c.2
    rw [entryOf_div]
    omega

/-- **A table that holds the calls**, with its pages moved by a multiple of their size, is written as
the fix-ups of the calls. -/
theorem encoded_of_represents {d : ℕ} (hd : 4096 ∣ d) {shift : ℕ → ℕ}
    (hshift : ∀ k, shift k % 2 ^ 32 = (k + d) % 2 ^ 32) {address : ℕ → ℕ}
    (haddress : ∀ rva, address rva = (rva + d) % 2 ^ 32) {reltab : List PeRelocs}
    (hcount : ∀ page, calls.countP (fun c => c.1 / 4096 = page) ≤ 2 ^ 31 - 6)
    (hrep : List.Forall₂ PeRelocs.Represents reltab
      ((collect (pageEntries calls) []).map fun g => (shift g.1, g.2))) :
    ∃ bytes blocks, Encoded address calls reltab bytes blocks ∧
      (PagesApart calls → (blocks.map RelocBlock.page).Nodup) := by
  have hread : ∀ g ∈ (collect (pageEntries calls) []).map fun g => (shift g.1, g.2), Readable g := by
    intro g hg
    obtain ⟨g', hg', rfl⟩ := List.mem_map.mp hg
    have hg'' := readable_collect hcount g' hg'
    exact ⟨hg''.length_le, hg''.entry_lt, hg''.type_ne⟩
  have hperm := collect_nil_pairs (pageEntries calls)
  have hout := outputLoop_eq hrep (fun g hg => (hread g hg).length_lt) 0
  refine ⟨_, _, ⟨fun m => ?_, fun buf m => ?_, parseRelocs_eq hread, ?_, ?_⟩, ?_⟩
  · rw [outputPeReltab, (hout m).1, Nat.zero_add]
  · rw [outputPeReltab, (hout m).2 buf, Nat.zero_add, Nat.add_zero]
  · intro b hb
    obtain ⟨g, -, rfl⟩ := List.mem_map.mp hb
    rw [blockOf]
    dsimp only
    rw [paddedEntries_length]
    omega
  · have hfixups : (((collect (pageEntries calls) []).map fun g => (shift g.1, g.2)).map
        blockOf).flatMap RelocBlock.fixups =
          (groupPairs (collect (pageEntries calls) [])).map fun p =>
            (shift p.1 % 2 ^ 32 + p.2 % 4096, p.2 / 4096) := by
      rw [groupPairs, List.map_flatMap, List.flatMap_map, List.flatMap_map]
      refine List.flatMap_congr fun g hg => ?_
      rw [blockOf_fixups (hread _ (List.mem_map_of_mem hg)), List.map_map]
      rfl
    rw [hfixups]
    refine (hperm.map _).trans (List.Perm.of_eq ?_)
    rw [pageEntries, List.map_map]
    refine List.map_congr_left fun c _ => ?_
    have hpage := hshift (c.1 / 4096 * 4096)
    have haddr := haddress c.1
    obtain ⟨k, rfl⟩ := hd
    dsimp only [Function.comp]
    rw [entryOf_mod, entryOf_div, hpage, haddr]
    congr 1
    omega
  · intro hapart
    have hpages : (((collect (pageEntries calls) []).map fun g => (shift g.1, g.2)).map blockOf).map
        RelocBlock.page = (groupKeys (collect (pageEntries calls) [])).map
          fun k => shift k % 2 ^ 32 := by
      rw [groupKeys, List.map_map, List.map_map, List.map_map]
      rfl
    have hnodup : (groupKeys (collect (pageEntries calls) [])).Nodup :=
      collect_keys_nodup _ List.nodup_nil
    rw [hpages]
    refine hnodup.map_on fun k hk k' hk' heq => ?_
    have hcall : ∀ k ∈ groupKeys (collect (pageEntries calls) []),
        ∃ c ∈ calls, k = c.1 / 4096 * 4096 := by
      intro k hk
      rcases mem_collect_keys hk with ⟨e, he, rfl⟩ | hnil
      · obtain ⟨c, hc, rfl⟩ := List.mem_map.mp he
        exact ⟨c, hc, rfl⟩
      · cases hnil
    obtain ⟨c, hc, rfl⟩ := hcall k hk
    obtain ⟨c', hc', rfl⟩ := hcall k' hk'
    have hsame := hapart c hc c' hc'
    rw [hshift, hshift] at heq
    omega

/-- The table of the calls. -/
theorem generateAll_represents
    (hcalls : ∀ c ∈ calls, c.1 < arch.ulong ∧ (c.2 = 2 ∨ c.2 = 4 ∨ c.2 = 8))
    (hcount : ∀ page, calls.countP (fun c => c.1 / 4096 = page) ≤ 2 ^ 31) :
    ∃ reltab, generateAll arch calls [] = some reltab ∧
      List.Forall₂ PeRelocs.Represents reltab (collect (pageEntries calls) []) := by
  refine generateAll_collect ?_ .nil fun k => ?_
  · rw [pageEntries, List.forall₂_map_right_iff, List.forall₂_same]
    intro c hc
    obtain ⟨hlt, hsize⟩ := hcalls c hc
    exact ⟨(pageStart_eq hlt).symm, relocEntry_eq hsize⟩
  · have hle : countAt k (pageEntries calls) ≤ 2 ^ 31 := by
      rw [countAt, pageEntries, List.countP_map]
      refine (List.countP_mono_left ?_).trans (hcount (k / 4096))
      intro c _ hc
      have heq : c.1 / 4096 * 4096 = k := of_decide_eq_true hc
      exact decide_eq_true (by omega)
    have hnil : countAt k (groupPairs ([] : List (ℕ × List ℕ))) = 0 := rfl
    omega

end

/-- The address without a base. -/
theorem relative_zero (rva : ℕ) : relative 0 rva = (rva + 0) % 2 ^ 32 := by
  rw [relative]
  omega

/-- The address less the base, the way the tool subtracts. -/
theorem relative_eq {arch : Arch} {base : ℕ} (hbase : base < arch.ulong) (rva : ℕ) :
    relative base rva = (rva + (arch.ulong - base)) % 2 ^ 32 := by
  rw [relative]
  cases arch with
  | i386 =>
      rw [Arch.ulong] at hbase ⊢
      omega
  | x86_64 =>
      rw [Arch.ulong] at hbase ⊢
      omega

/-- A table as it has been generated. -/
theorem encoded_of_represents_self {calls : List (ℕ × ℕ)} {reltab : List PeRelocs}
    (hcount : ∀ page, calls.countP (fun c => c.1 / 4096 = page) ≤ 2 ^ 31 - 6)
    (hrep : List.Forall₂ PeRelocs.Represents reltab (collect (pageEntries calls) [])) :
    ∃ bytes blocks, Encoded (relative 0) calls reltab bytes blocks ∧
      (PagesApart calls → (blocks.map RelocBlock.page).Nodup) := by
  have hrep' : List.Forall₂ PeRelocs.Represents reltab
      ((collect (pageEntries calls) []).map fun g => (id g.1, g.2)) := by
    rw [show (fun g : ℕ × List ℕ => (id g.1, g.2)) = id from rfl, List.map_id]
    exact hrep
  exact @encoded_of_represents calls 0 (dvd_zero 4096) id (fun _ => rfl) _ relative_zero reltab
    hcount hrep'

/-- The base of an image is a long. -/
theorem imageBase_lt (arch : Arch) (sections : List PeSection) :
    imageBase arch sections < arch.ulong := by
  have hge := arch.ulong_ge
  exact Nat.mod_lt _ (by omega)

/-- The pages of a table less the image base. -/
theorem represents_rebase {arch : Arch} {base : ℕ} {reltab : List PeRelocs}
    {gs : List (ℕ × List ℕ)} (h : List.Forall₂ PeRelocs.Represents reltab gs) :
    List.Forall₂ PeRelocs.Represents (reltab.map (PeRelocs.rebase arch base))
      (gs.map fun g => ((g.1 + (arch.ulong - base)) % arch.ulong, g.2)) := by
  rw [List.forall₂_map_left_iff, List.forall₂_map_right_iff]
  refine h.imp fun p g hp => ⟨⟨hp.used_eq, hp.length_le, hp.even, hp.relocs_eq⟩, ?_⟩
  rw [PeRelocs.rebase, hp.startRva_eq]

/-- **Base relocations are the fix-ups generated.** For all calls with valid sizes, of which no more
than fit a block fall on one page, the table is written with the length that was returned for it, as
blocks whose fix-ups are those of the calls, at addresses of 32 bits; no page has two blocks if the
pages differ in these 32 bits. The same holds of the table less an image base that is a multiple of
the page size.
Source: utils/elf2efi.c, generate_pe_reloc, output_pe_reltab, update_image_base -/
theorem generateAll_encoded (arch : Arch) (calls : List (ℕ × ℕ))
    (hcalls : ∀ c ∈ calls, c.1 < arch.ulong ∧ (c.2 = 2 ∨ c.2 = 4 ∨ c.2 = 8))
    (hcount : ∀ page, calls.countP (fun c => c.1 / 4096 = page) ≤ 2 ^ 31 - 6) :
    ∃ reltab, generateAll arch calls [] = some reltab ∧
      (∃ bytes blocks, Encoded (relative 0) calls reltab bytes blocks ∧
        (PagesApart calls → (blocks.map RelocBlock.page).Nodup)) ∧
      ∀ target hdr sections, 4096 ∣ imageBase arch sections →
        ∃ bytes blocks, Encoded (relative (imageBase arch sections)) calls
          (updateImageBase arch target hdr sections reltab).2.2 bytes blocks ∧
            (PagesApart calls → (blocks.map RelocBlock.page).Nodup) := by
  obtain ⟨reltab, hgen, hrep⟩ :=
    generateAll_represents hcalls fun page => (hcount page).trans (by norm_num)
  refine ⟨reltab, hgen, ?_, fun target hdr sections hdvd => ?_⟩
  · exact encoded_of_represents_self hcount hrep
  · have hlt := imageBase_lt arch sections
    have hulong : 4096 ∣ arch.ulong ∧ 2 ^ 32 ∣ arch.ulong := by
      cases arch with
      | i386 => exact ⟨by norm_num, by norm_num⟩
      | x86_64 => exact ⟨by norm_num, by norm_num⟩
    exact encoded_of_represents (Nat.dvd_sub hulong.1 hdvd)
      (fun k => Nat.mod_mod_of_dvd _ hulong.2) (relative_eq hlt) hcount (represents_rebase hrep)

/-- Fix-ups of every size, two of them on one page. -/
def threeFixups : List (ℕ × ℕ) := [(0x1ff8, 8), (0x3010, 4), (0x1004, 2)]

/-- Three relocations in two pages. -/
theorem generateAll_encoded_threeFixups :
    ∃ reltab, generateAll .x86_64 threeFixups [] = some reltab ∧
      (∃ bytes blocks, Encoded (relative 0) threeFixups reltab bytes blocks ∧
        (PagesApart threeFixups → (blocks.map RelocBlock.page).Nodup)) ∧
      ∀ target hdr sections, 4096 ∣ imageBase .x86_64 sections →
        ∃ bytes blocks, Encoded (relative (imageBase .x86_64 sections)) threeFixups
          (updateImageBase .x86_64 target hdr sections reltab).2.2 bytes blocks ∧
            (PagesApart threeFixups → (blocks.map RelocBlock.page).Nodup) := by
  have hcalls : ∀ c ∈ threeFixups, c.1 < Arch.x86_64.ulong ∧ (c.2 = 2 ∨ c.2 = 4 ∨ c.2 = 8) := by
    decide
  exact generateAll_encoded .x86_64 threeFixups hcalls
    fun page => List.countP_le_length.trans (by norm_num [threeFixups])

/-- A table is written and read back in one way. -/
theorem Encoded.blocks_eq {address address' : ℕ → ℕ} {calls : List (ℕ × ℕ)}
    {reltab : List PeRelocs} {bytes bytes' : List UInt8} {blocks blocks' : List RelocBlock}
    (h : Encoded address calls reltab bytes blocks)
    (h' : Encoded address' calls reltab bytes' blocks') : blocks = blocks' := by
  have hout := (h.written 0 Mem.zero).symm.trans (h'.written 0 Mem.zero)
  obtain ⟨hlength, hstore⟩ := Prod.mk.inj hout
  have hbytes : bytes = bytes' := by
    rw [← Mem.bytes_store_self Mem.zero 0 bytes, ← Mem.bytes_store_self Mem.zero 0 bytes', hstore,
      hlength]
  have hparsed := h.parsed
  rw [hbytes] at hparsed
  exact Option.some.inj (hparsed.symm.trans h'.parsed)

/-- Fix-ups on one page are collected in one group. -/
theorem collect_replicate (k e n : ℕ) (es : List ℕ) :
    collect (List.replicate n (k, e)) [(k, es)] = [(k, es ++ List.replicate n e)] := by
  induction n generalizing es with
  | zero => rw [List.replicate_zero, List.replicate_zero, List.append_nil]; rfl
  | succ n ih =>
      have hadd : addTo k e [(k, es)] = [(k, es ++ [e])] := by
        rw [addTo, addWithin, if_pos rfl, Option.getD_some]
      rw [List.replicate_succ, collect, List.foldl_cons, ← collect, hadd, ih, List.append_assoc,
        List.singleton_append, List.replicate_succ]

/-- One fix-up more than fits a block: the size of the block is written as zero. -/
theorem parseRelocs_overfull {g : ℕ × List ℕ} (h : g.2.length + 5 = 2 ^ 31) :
    parseRelocs (blockBytes g) = none := by
  have hsize : leNat (((blockBytes g).drop 4).take 4) = 0 := by
    rw [blockBytes, List.append_assoc, List.drop_left' (leBytes_length 4 _),
      List.take_left' (leBytes_length 4 _), leNat_leBytes, paddedEntries_length]
    omega
  have hlength := blockBytes_length g
  rw [parseRelocs]
  generalize blockBytes g = bytes at hsize hlength
  cases bytes with
  | nil =>
      rw [List.length_nil] at hlength
      omega
  | cons b bs =>
      rw [List.length_cons, parseBlocks, hsize]
      exact if_pos (Or.inl (by norm_num))

/-- The table of one fix-up more than fits a block is not read back. -/
theorem not_encoded_overfull {n : ℕ} (hn : n + 5 = 2 ^ 31) {address : ℕ → ℕ}
    {reltab : List PeRelocs} {bytes : List UInt8} {blocks : List RelocBlock}
    (hgen : generateAll .x86_64 (List.replicate n (0, 2)) [] = some reltab) :
    ¬Encoded address (List.replicate n (0, 2)) reltab bytes blocks := by
  intro hencoded
  obtain ⟨k, rfl⟩ := Nat.exists_eq_add_of_le' (show 1 ≤ n by omega)
  have hcalls : ∀ c ∈ List.replicate (k + 1) (0, 2),
      c.1 < Arch.x86_64.ulong ∧ (c.2 = 2 ∨ c.2 = 4 ∨ c.2 = 8) := by
    intro c hc
    rw [List.eq_of_mem_replicate hc]
    exact ⟨by norm_num, Or.inl rfl⟩
  obtain ⟨reltab', hgen', hrep⟩ := generateAll_represents hcalls fun page => by
    have hle := List.countP_le_length (p := fun c : ℕ × ℕ => c.1 / 4096 = page)
      (l := List.replicate (k + 1) (0, 2))
    rw [List.length_replicate] at hle
    omega
  obtain rfl := Option.some.inj (hgen.symm.trans hgen')
  have hcollect : collect (pageEntries (List.replicate (k + 1) (0, 2))) [] =
      [(0, List.replicate (k + 1) 0x2000)] := by
    rw [pageEntries, List.map_replicate]
    exact collect_replicate 0 0x2000 k [0x2000]
  rw [hcollect] at hrep
  have hout := (outputLoop_eq hrep (fun g hg => by
    rw [List.mem_singleton.mp hg, List.length_replicate]
    omega) 0 Mem.zero).2 0
  obtain ⟨hlength, hstore⟩ := Prod.mk.inj ((hencoded.written 0 Mem.zero).symm.trans hout)
  rw [List.flatMap_singleton, Nat.zero_add] at hlength hstore
  have hbytes : bytes = blockBytes (0, List.replicate (k + 1) 0x2000) := by
    rw [← Mem.bytes_store_self Mem.zero 0 bytes, hstore, hlength]
    exact Mem.bytes_store_self Mem.zero 0 _
  have hparsed := hencoded.parsed
  rw [hbytes, parseRelocs_overfull] at hparsed
  · cases hparsed
  · rw [List.length_replicate]
    exact hn

/-- A fix-up at 2^32 is written as one at zero. -/
theorem not_encoded_far {reltab : List PeRelocs} {bytes : List UInt8} {blocks : List RelocBlock}
    (hgen : generateAll .x86_64 [(2 ^ 32, 4)] [] = some reltab) :
    ¬Encoded id [(2 ^ 32, 4)] reltab bytes blocks := by
  intro hencoded
  have hcalls : ∀ c ∈ [(2 ^ 32, 4)], c.1 < Arch.x86_64.ulong ∧ (c.2 = 2 ∨ c.2 = 4 ∨ c.2 = 8) := by
    decide
  have hcount : ∀ page, [(2 ^ 32, 4)].countP (fun c => c.1 / 4096 = page) ≤ 2 ^ 31 - 6 :=
    fun page => List.countP_le_length.trans (by norm_num)
  obtain ⟨reltab', hgen', hrep⟩ :=
    generateAll_represents hcalls fun page => (hcount page).trans (by norm_num)
  obtain rfl := Option.some.inj (hgen.symm.trans hgen')
  obtain ⟨bytes', blocks', hencoded', -⟩ := encoded_of_represents_self hcount hrep
  have hperm := hencoded.fixups.symm.trans
    (hencoded.blocks_eq hencoded' ▸ hencoded'.fixups)
  have hmem : (2 ^ 32, 3) ∈ [(2 ^ 32, 4)].map fun c => (relative 0 c.1, relocType c.2) :=
    hperm.mem_iff.mp (List.mem_singleton.mpr rfl)
  exact absurd hmem (by decide)

/-- The fix-ups are not what is read back if one is at 2^32, nor if one page has 2^31 - 5. -/
theorem not_encoded_far_overfull :
    (∀ reltab bytes blocks, generateAll .x86_64 [(2 ^ 32, 4)] [] = some reltab →
        ¬Encoded id [(2 ^ 32, 4)] reltab bytes blocks) ∧
      ∀ reltab bytes blocks,
        generateAll .x86_64 (List.replicate (2 ^ 31 - 5) (0, 2)) [] = some reltab →
          ¬Encoded id (List.replicate (2 ^ 31 - 5) (0, 2)) reltab bytes blocks :=
  ⟨fun _ _ _ hgen => not_encoded_far hgen,
    fun _ _ _ hgen => not_encoded_overfull (by norm_num) hgen⟩

/-! ## The fix-ups of a file -/

/-- The fix-ups that the relocation sections of a file ask for.
Source: utils/elf2efi.c, elf2pe -/
def elfFixups (sections : List Shdr) : List (ℕ × ℕ) :=
  (sections.filter fun s => ¬s.alloc ∧ (s.type = .rel ∨ s.type = .rela)).flatMap (·.fixups)

/-- Relocations one behind the other. -/
theorem generateAll_append (arch : Arch) (calls calls' : List (ℕ × ℕ)) (reltab : List PeRelocs) :
    generateAll arch (calls ++ calls') reltab =
      (generateAll arch calls reltab).bind (generateAll arch calls') := by
  induction calls generalizing reltab with
  | nil => rfl
  | cons c calls ih =>
      rw [List.cons_append, generateAll, generateAll, Option.bind_assoc]
      exact congrArg _ (funext ih)

/-- The table grows by the fix-ups of the relocation sections, wherever they stand among the others. -/
theorem foldlM_generateAll {arch : Arch} {target : Target} {hybrid : Bool} {segments : List Phdr}
    {sections : List Shdr} {st st' : Converted}
    (h : sections.foldlM (convertSection arch target hybrid segments) st = some st') :
    generateAll arch (elfFixups sections) st.reltab = some st'.reltab := by
  induction sections generalizing st with
  | nil =>
      obtain rfl := Option.some.inj h
      rfl
  | cons s sections ih =>
      rw [List.foldlM_cons] at h
      obtain ⟨st₁, hstep, hrest⟩ := Option.bind_eq_some_iff.mp h
      have hnext := ih hrest
      rw [convertSection] at hstep
      by_cases halloc : s.alloc
      · rw [if_pos halloc] at hstep
        obtain ⟨r, -, rfl⟩ := Option.map_eq_some_iff.mp hstep
        rw [elfFixups, List.filter_cons_of_neg (by simp [halloc])]
        exact hnext
      · rw [if_neg halloc] at hstep
        by_cases htype : s.type = .rel ∨ s.type = .rela
        · rw [if_pos htype] at hstep
          obtain ⟨reltab, hgen, rfl⟩ := Option.map_eq_some_iff.mp hstep
          rw [elfFixups, List.filter_cons_of_pos (by simp [halloc, htype]), List.flatMap_cons,
            generateAll_append, hgen]
          exact hnext
        · rw [if_neg htype] at hstep
          obtain rfl := Option.some.inj hstep
          rw [elfFixups, List.filter_cons_of_neg (by simp [htype])]
          exact hnext

/-- **The table of a file** is that of the fix-ups of its relocation sections. -/
theorem convert_generateAll {arch : Arch} {target : Target} {hybrid : Bool} {elf : ElfFile}
    {st : Converted} (h : convert arch target hybrid elf = some st) :
    generateAll arch (elfFixups elf.sections) [] = some st.reltab := foldlM_generateAll h

end Ntloader.Elf2efi
