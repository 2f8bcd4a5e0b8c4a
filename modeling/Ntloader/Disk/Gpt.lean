import Ntloader.Disk.Efidisk
import Ntloader.Disk.Msdos

/-!
# GPT partitions

The header is in sector 1 and says in which sector the entries begin, and how far they are apart. The
place of an entry is computed for sectors of 512 bytes, and in 32 bits.

* `checkGptPartmap` — disk/gpt.c.
* `entryAddrs` — the addresses on the disk that an entry is read from.
* `mem_log_entries` — the entries that are examined, with their bytes.
* `entryAddrs_iff` — when an entry is read from where the header puts it.
-/

namespace Ntloader.Disk

open Ntloader.Lib Ntloader.Posix Ntloader.Kern

/-! ## The header and the entries -/

/-- Source: include/gpt.h, GPT_HEADER_MAGIC -/
def gptHeaderMagic : List UInt8 := [0x45, 0x46, 0x49, 0x20, 0x50, 0x41, 0x52, 0x54]

/-- Source: include/gpt.h, struct gpt_header, guid -/
def gptGuid (gpt : Mem) : List UInt8 := gpt.bytes 56 16

/-- Source: include/gpt.h, struct gpt_header, partitions -/
def partitions (gpt : Mem) : ℕ := gpt.word 72 8

/-- Source: include/gpt.h, struct gpt_header, maxpart -/
def maxpart (gpt : Mem) : ℕ := gpt.word 80 4

/-- Source: include/gpt.h, struct gpt_header, entry_size -/
def entrySize (gpt : Mem) : ℕ := gpt.word 84 4

/-- An entry as it is copied: its number, its place in the buffer of two sectors and its bytes. -/
structure GptEntry where
  index : ℕ
  pos : ℕ
  bytes : List UInt8
  deriving DecidableEq

/-- Source: include/gpt.h, struct gpt_part_entry, type -/
def GptEntry.type (entry : GptEntry) : List UInt8 := entry.bytes.take 16

/-- Source: include/gpt.h, struct gpt_part_entry, guid -/
def GptEntry.guid (entry : GptEntry) : List UInt8 := (entry.bytes.drop 16).take 16

/-- Source: include/gpt.h, struct gpt_part_entry, start -/
def GptEntry.start (entry : GptEntry) : ℕ := leNat ((entry.bytes.drop 32).take 8)

/-- Source: include/gpt.h, GPT_PART_TYPE_EMPTY -/
def gptPartTypeEmpty : List UInt8 := List.replicate 16 0

/-! ## The search -/

/-- The arguments of the loader and the entries that have been copied. -/
structure GptState where
  args : NtArgs
  log : List GptEntry

/-- Record a partition that matches.
Source: disk/gpt.c, check_gpt_partmap -/
def recordGpt (args : NtArgs) (gpt : Mem) (entry : GptEntry) : NtArgs :=
  { args with
    partid := memcpy args.partid entry.guid
    partmap := 0x00
    diskid := memcpy args.diskid (gptGuid gpt) }

/-- The loop over a number of entries from one on.
Source: disk/gpt.c, check_gpt_partmap -/
def checkGptEntries (diskRead : ℕ → ℕ → Option Mem) (gpt : Mem) :
    ℕ → ℕ → GptState → Bool × GptState
  | 0, _, st => (false, st)
  | n + 1, i, st =>
      let ofs := i * entrySize gpt % 2 ^ 32
      let lba := ofs >>> 9
      let ofs := ofs - (lba <<< 9)
      let lba := (lba + partitions gpt) % 2 ^ 64
      match diskRead lba 512, diskRead ((lba + 1) % 2 ^ 64) 512 with
      | some sector, some next =>
          let buf := (Mem.zero.copy 0 sector 0 512).copy 512 next 0 512
          let entry : GptEntry := ⟨i, ofs, buf.bytes ofs 128⟩
          let st := { st with log := st.log ++ [entry] }
          if entry.type = gptPartTypeEmpty then checkGptEntries diskRead gpt n (i + 1) st
          else if checkFsuuid (diskRead · 512) st.args entry.start then
            (true, { st with args := recordGpt st.args gpt entry })
          else checkGptEntries diskRead gpt n (i + 1) st
      | _, _ => (false, st)

/-- Source: disk/gpt.c, check_gpt_partmap -/
def checkGptPartmap (diskRead : ℕ → ℕ → Option Mem) (args : NtArgs) : Bool × GptState :=
  match diskRead 1 92 with
  | none => (false, ⟨args, []⟩)
  | some gpt =>
      if gpt.bytes 0 8 ≠ gptHeaderMagic then (false, ⟨args, []⟩)
      else checkGptEntries diskRead gpt (maxpart gpt) 0 ⟨args, []⟩

/-! ## Where an entry is read from -/

/-- The addresses that an entry is read from, on a disk with blocks of a size. -/
def entryAddrs (blockSize partitions entrySize i : ℕ) : List ℕ :=
  let ofs := i * entrySize % 2 ^ 32
  let lba := (ofs / 512 + partitions) % 2 ^ 64
  (List.range 128).map fun j =>
    if ofs % 512 + j < 512 then lba * blockSize + (ofs % 512 + j)
    else (lba + 1) % 2 ^ 64 * blockSize + (ofs % 512 + j - 512)

/-- The addresses at which the header puts an entry. -/
def headerAddrs (blockSize partitions entrySize i : ℕ) : List ℕ :=
  (List.range 128).map fun j => partitions * blockSize + i * entrySize + j

/-- An entry that is copied has been read from its addresses. -/
def ReadAt (disk : Mem) (blockSize : ℕ) (gpt : Mem) (entry : GptEntry) : Prop :=
  entry.index < maxpart gpt ∧ entry.pos + 128 ≤ 1024 ∧
    entry.bytes = (entryAddrs blockSize (partitions gpt) (entrySize gpt) entry.index).map disk

/-- One entry. -/
theorem readAt_entry {bio : BlockIo} {disk : Mem} (hreads : bio.Reads disk) {gpt sector next : Mem}
    {i ofs lba : ℕ} (hi : i < maxpart gpt) (hofs : ofs = i * entrySize gpt % 2 ^ 32)
    (hlba : lba = (ofs >>> 9 + partitions gpt) % 2 ^ 64)
    (hsector : efidiskRead bio lba 512 = some sector)
    (hnext : efidiskRead bio ((lba + 1) % 2 ^ 64) 512 = some next) :
    ReadAt disk bio.media.blockSize gpt ⟨i, ofs - ((ofs >>> 9) <<< 9),
      ((Mem.zero.copy 0 sector 0 512).copy 512 next 0 512).bytes (ofs - ((ofs >>> 9) <<< 9)) 128⟩ := by
  have hpos : ofs - ((ofs >>> 9) <<< 9) = ofs % 512 := by
    rw [Nat.shiftLeft_eq, Nat.shiftRight_eq_div_pow]
    omega
  have hlt : ofs % 512 < 512 := Nat.mod_lt _ (by norm_num)
  rw [hpos]
  refine ⟨hi, by dsimp only; omega, ?_⟩
  dsimp only
  rw [entryAddrs, ← hofs, List.map_map, Mem.bytes]
  refine List.map_congr_left fun j hj => ?_
  have hj' := List.mem_range.mp hj
  rw [Nat.shiftRight_eq_div_pow] at hlba
  dsimp only [Function.comp]
  rw [← hlba]
  by_cases hin : ofs % 512 + j < 512
  · rw [if_pos hin, Mem.copy_apply, if_neg (by omega), Mem.copy_apply, if_pos (by omega),
      Nat.zero_add, Nat.sub_zero]
    exact hreads.efidiskRead hsector hin
  · rw [if_neg hin, Mem.copy_apply, if_pos (by omega), Nat.zero_add]
    exact hreads.efidiskRead hnext (by omega)

/-- What the loop copies has been read from the disk. -/
theorem mem_log_entries {bio : BlockIo} {disk : Mem} (hreads : bio.Reads disk) {gpt : Mem} {n i : ℕ}
    (hn : i + n ≤ maxpart gpt) {st : GptState} {entry : GptEntry}
    (h : entry ∈ (checkGptEntries (efidiskRead bio) gpt n i st).2.log) :
    entry ∈ st.log ∨ ReadAt disk bio.media.blockSize gpt entry := by
  induction n generalizing i st with
  | zero => exact Or.inl h
  | succ n ih =>
      rw [checkGptEntries] at h
      dsimp only at h
      split at h
      · rename_i sector next hsector hnext
        have hread := readAt_entry hreads (by omega : i < maxpart gpt) rfl rfl hsector hnext
        -- the entry that has just been copied
        have hlog {e : GptEntry} (he : ReadAt disk bio.media.blockSize gpt e)
            (hmem : entry ∈ st.log ++ [e]) :
            entry ∈ st.log ∨ ReadAt disk bio.media.blockSize gpt entry := by
          rcases List.mem_append.mp hmem with hmem | hmem
          · exact Or.inl hmem
          · rw [List.mem_singleton.mp hmem]
            exact Or.inr he
        split_ifs at h
        · rcases ih (by omega) h with he | he
          · exact hlog hread he
          · exact Or.inr he
        · exact hlog hread h
        · rcases ih (by omega) h with he | he
          · exact hlog hread he
          · exact Or.inr he
      · exact Or.inl h

/-! ## The address of an entry -/

/-- The place of an entry does not exceed 32 bits; and the blocks have 512 bytes, with numbers of 64
bits, or the entry is in the first 512 bytes. -/
def EntryFits (blockSize partitions entrySize i : ℕ) : Prop :=
  i * entrySize < 2 ^ 32 ∧
    (blockSize = 512 ∧ partitions + (i * entrySize + 127) / 512 < 2 ^ 64 ∨
      i * entrySize + 128 ≤ 512)

/-- The bytes of an entry are where the header says exactly if no product wraps around and no sector is
taken for a block. -/
theorem entryAddrs_eq_headerAddrs_iff (blockSize partitions entrySize i : ℕ) :
    entryAddrs blockSize partitions entrySize i = headerAddrs blockSize partitions entrySize i ↔
      ∀ j < 128,
        (if i * entrySize % 2 ^ 32 % 512 + j < 512 then
          (i * entrySize % 2 ^ 32 / 512 + partitions) % 2 ^ 64 * blockSize +
            (i * entrySize % 2 ^ 32 % 512 + j)
        else ((i * entrySize % 2 ^ 32 / 512 + partitions) % 2 ^ 64 + 1) % 2 ^ 64 * blockSize +
          (i * entrySize % 2 ^ 32 % 512 + j - 512)) = partitions * blockSize + i * entrySize + j := by
  rw [entryAddrs, headerAddrs, List.map_inj_left]
  simp only [List.mem_range]

/-- An entry that fits is read from where the header puts it. -/
theorem entryAddrs_of_fits {blockSize partitions entrySize i : ℕ} (hp : partitions < 2 ^ 64)
    (h : EntryFits blockSize partitions entrySize i) :
    entryAddrs blockSize partitions entrySize i = headerAddrs blockSize partitions entrySize i := by
  rw [entryAddrs_eq_headerAddrs_iff]
  obtain ⟨hlt, hfits⟩ := h
  generalize i * entrySize = n at hlt hfits ⊢
  rw [Nat.mod_eq_of_lt hlt]
  intro j hj
  rcases hfits with ⟨rfl, hlba⟩ | hfirst
  · split_ifs with hin
    · omega
    · omega
  · rw [if_pos (by omega), Nat.div_eq_of_lt (by omega), Nat.zero_add, Nat.mod_eq_of_lt hp,
      Nat.mod_eq_of_lt (by omega)]
    omega

/-- The first byte of an entry is read from where the header puts it only if the place of the entry is
in 32 bits, the number of its block in 64, and the blocks have 512 bytes or it is the first one. -/
theorem first_addr {e n p : ℕ} (hp : p < 2 ^ 64)
    (h : (n % 2 ^ 32 / 512 + p) % 2 ^ 64 * (512 * 2 ^ e) + n % 2 ^ 32 % 512 =
      p * (512 * 2 ^ e) + n) :
    n < 2 ^ 32 ∧ n / 512 + p < 2 ^ 64 ∧ (e = 0 ∨ n < 512) := by
  have hn := Nat.div_add_mod n (2 ^ 32)
  have hofs := Nat.div_add_mod (n % 2 ^ 32) 512
  have hk : n % 2 ^ 32 / 512 < 2 ^ 23 := by omega
  generalize n % 2 ^ 32 / 512 = k at h hofs hk
  generalize n / 2 ^ 32 = c at hn
  have hB : 0 < 512 * 2 ^ e := by positivity
  have hnowrap : k + p < 2 ^ 64 := by
    by_contra hwrap
    have hlba : (k + p) % 2 ^ 64 < p := by omega
    have hmul := Nat.mul_lt_mul_of_pos_right hlba hB
    omega
  rw [Nat.mod_eq_of_lt hnowrap, Nat.add_mul] at h
  have hsplit : k * (512 * 2 ^ e) = 512 * (k * 2 ^ e) := by ring
  have hblocks : k * 2 ^ e = c * 2 ^ 23 + k := by omega
  cases e with
  | zero =>
      rw [Nat.pow_zero, Nat.mul_one] at hblocks
      exact ⟨by omega, by omega, Or.inl rfl⟩
  | succ e =>
      -- an odd multiple of the sector is a multiple of 2^23
      have hodd : Odd (2 ^ (e + 1) - 1) :=
        Nat.Even.sub_odd Nat.one_le_two_pow (even_two.pow_of_ne_zero e.succ_ne_zero) odd_one
      have hcoprime : Nat.Coprime (2 ^ 23) (2 ^ (e + 1) - 1) :=
        Nat.Coprime.pow_left 23 (Nat.coprime_two_left.mpr hodd)
      have hmul : k * (2 ^ (e + 1) - 1) = c * 2 ^ 23 := by
        rw [Nat.mul_sub, Nat.mul_one]
        omega
      have hdvd : 2 ^ 23 ∣ k :=
        hcoprime.dvd_of_dvd_mul_right (Dvd.intro_left c hmul.symm)
      have hk0 : k = 0 := Nat.eq_zero_of_dvd_of_lt hdvd hk
      rw [hk0] at hblocks hofs
      exact ⟨by omega, by omega, Or.inr (by omega)⟩

/-- An entry is read from where the header puts it exactly if it fits. -/
theorem entryAddrs_iff {e p entrySize i : ℕ} (hp : p < 2 ^ 64) :
    entryAddrs (512 * 2 ^ e) p entrySize i = headerAddrs (512 * 2 ^ e) p entrySize i ↔
      EntryFits (512 * 2 ^ e) p entrySize i := by
  refine ⟨fun h => ?_, entryAddrs_of_fits hp⟩
  rw [entryAddrs_eq_headerAddrs_iff] at h
  unfold EntryFits
  generalize i * entrySize = n at h ⊢
  have hrem : n % 2 ^ 32 % 512 < 512 := Nat.mod_lt _ (by norm_num)
  have hfirst := h 0 (by norm_num)
  rw [if_pos (by omega), Nat.add_zero, Nat.add_zero] at hfirst
  obtain ⟨hlt, hlba, hblock⟩ := first_addr hp hfirst
  have hlast := h 127 (by norm_num)
  rw [Nat.mod_eq_of_lt hlt, Nat.mod_eq_of_lt hlba] at hlast
  refine ⟨hlt, ?_⟩
  rcases hblock with rfl | hblock
  · refine Or.inl ⟨rfl, ?_⟩
    by_cases hin : n % 512 + 127 < 512
    · omega
    · rw [if_neg hin] at hlast
      omega
  · by_cases hin : n + 128 ≤ 512
    · exact Or.inr hin
    · rw [if_neg (by omega), Nat.div_eq_of_lt hblock, Nat.zero_add, Nat.mod_eq_of_lt hblock] at hlast
      by_cases hnext : p + 1 < 2 ^ 64
      · rw [Nat.mod_eq_of_lt hnext, Nat.succ_mul] at hlast
        exact Or.inl ⟨by omega, by omega⟩
      · rw [show p + 1 = 2 ^ 64 by omega, Nat.mod_self, Nat.zero_mul] at hlast
        omega

/-- **An entry that is examined** is 128 bytes of the buffer of two sectors; they are read from where
the header puts the entry exactly if the entry fits. -/
theorem gptEntry_iff {bio : BlockIo} {disk : Mem} (husable : isUsable bio.media = true)
    (hreads : bio.Reads disk) {gpt : Mem} (hgpt : efidiskRead bio 1 92 = some gpt) {args : NtArgs}
    {entry : GptEntry} (h : entry ∈ (checkGptPartmap (efidiskRead bio) args).2.log) :
    entry.pos + 128 ≤ 1024 ∧
      entry.bytes = (entryAddrs bio.media.blockSize (partitions gpt) (entrySize gpt)
        entry.index).map disk ∧
      (entryAddrs bio.media.blockSize (partitions gpt) (entrySize gpt) entry.index =
          headerAddrs bio.media.blockSize (partitions gpt) (entrySize gpt) entry.index ↔
        EntryFits bio.media.blockSize (partitions gpt) (entrySize gpt) entry.index) := by
  rw [checkGptPartmap, hgpt] at h
  dsimp only at h
  split_ifs at h with hmagic
  · cases h
  rcases mem_log_entries hreads (Nat.zero_add (maxpart gpt)).le h with h | ⟨-, hpos, hbytes⟩
  · cases h
  obtain ⟨e, he⟩ := isUsable_blockSize husable
  refine ⟨hpos, hbytes, ?_⟩
  rw [he]
  exact entryAddrs_iff (Mem.word_lt gpt 72 8)

/-! ## A disk with blocks of 4096 bytes -/

/-- A disk with blocks of 4096 bytes: five entries of 128 bytes from block 2 on, the last one with a
type. -/
def largeBlocks : Mem :=
  ((((Mem.zero.store 4096 gptHeaderMagic).putWord (4096 + 72) 8 2).putWord (4096 + 80) 4 5).putWord
    (4096 + 84) 4 128).store (2 * 4096 + 4 * 128) [1]

/-- The protocol of the disk. -/
def largeBlockIo : BlockIo where
  media := ⟨0, false, 4096⟩
  readBlocks _ lba _ := some fun k => largeBlocks (lba * 4096 + k)

/-- The device reads its blocks. -/
theorem largeBlockIo_reads : largeBlockIo.Reads largeBlocks := by
  intro lba size mem h k _
  cases h
  rfl

/-- The header of the disk. -/
def largeHeader : Mem := Mem.zero.copy 0 (fun k => largeBlocks (1 * 4096 + k)) 0 92

/-- An empty entry is taken for one of the table. -/
theorem largeBlockIo_log :
    (⟨4, 0, List.replicate 128 0⟩ : GptEntry) ∈
      (checkGptPartmap (efidiskRead largeBlockIo) .init).2.log := by
  have hlog : (checkGptPartmap (efidiskRead largeBlockIo) .init).2.log.getLast? =
      some ⟨4, 0, List.replicate 128 0⟩ := by
    decide +kernel
  exact List.mem_of_getLast? hlog

/-- The last entry is read from block 3. -/
theorem not_headerAddrs_large :
    ¬∀ (bio : BlockIo) (disk : Mem) (gpt : Mem) (args : NtArgs) (entry : GptEntry),
      isUsable bio.media = true → bio.Reads disk → efidiskRead bio 1 92 = some gpt →
      entry ∈ (checkGptPartmap (efidiskRead bio) args).2.log →
      entry.bytes = (headerAddrs bio.media.blockSize (partitions gpt) (entrySize gpt)
        entry.index).map disk := by
  intro h
  have hbytes := h largeBlockIo largeBlocks largeHeader .init _ (by decide) largeBlockIo_reads rfl
    largeBlockIo_log
  exact absurd hbytes (by decide +kernel)

/-- The disk, for the theorem. -/
theorem gptEntry_iff_large :
    (0 + 128 ≤ 1024) ∧
      List.replicate 128 0 =
        (entryAddrs 4096 (partitions largeHeader) (entrySize largeHeader) 4).map largeBlocks ∧
      (entryAddrs 4096 (partitions largeHeader) (entrySize largeHeader) 4 =
          headerAddrs 4096 (partitions largeHeader) (entrySize largeHeader) 4 ↔
        EntryFits 4096 (partitions largeHeader) (entrySize largeHeader) 4) :=
  @gptEntry_iff largeBlockIo _ (by decide) largeBlockIo_reads largeHeader rfl .init
    ⟨4, 0, List.replicate 128 0⟩ largeBlockIo_log

end Ntloader.Disk
