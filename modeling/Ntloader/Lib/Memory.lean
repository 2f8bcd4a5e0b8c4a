import Mathlib.Tactic
import Mathlib.Data.List.GetD

/-!
# Byte-addressed memory

A memory is a total function from addresses to bytes. What a C routine does to it is one of two
things: it stores a list of bytes (`Mem.store`), or it copies a run of bytes out of another memory
(`Mem.copy`). Both are described by their value at an address, so that a proof about a sequence of
writes is a proof about one address at a time.

* `leNat`, `leBytes` — little-endian numbers and their bytes, with the two round trips.
* `Mem.bytes`, `Mem.word` — the bytes and the little-endian number stored at an address.
* `Mem.store`, `Mem.putWord`, `Mem.copy` — writes, with their values inside and outside the run.
-/

namespace Ntloader.Lib

/-! ## Little-endian numbers -/

/-- The number a list of bytes denotes, least significant byte first. -/
def leNat : List UInt8 → ℕ
  | [] => 0
  | b :: bs => b.toNat + 256 * leNat bs

/-- The `n` low bytes of `v`, least significant byte first. -/
def leBytes : ℕ → ℕ → List UInt8
  | 0, _ => []
  | n + 1, v => UInt8.ofNat v :: leBytes n (v / 256)

/-- A number of `n` bytes has `n` bytes. -/
@[simp] theorem leBytes_length (n v : ℕ) : (leBytes n v).length = n := by
  induction n generalizing v with
  | zero => rfl
  | succ n ih => simp [leBytes, ih]

/-- A number is below the bound of its bytes. -/
theorem leNat_lt (bs : List UInt8) : leNat bs < 256 ^ bs.length := by
  induction bs with
  | nil => simp [leNat]
  | cons b bs ih =>
      have hb : b.toNat < 256 := b.toNat_lt
      simp only [leNat, List.length_cons, pow_succ]
      omega

/-- Reading back what was encoded gives the value modulo the width. -/
@[simp] theorem leNat_leBytes (n v : ℕ) : leNat (leBytes n v) = v % 256 ^ n := by
  induction n generalizing v with
  | zero => simp [leBytes, leNat, Nat.mod_one]
  | succ n ih =>
      have hb : (UInt8.ofNat v).toNat = v % 256 := UInt8.toNat_ofNat'
      rw [leBytes, leNat, ih, hb, pow_succ', Nat.mod_mul]

/-- A number that fits is read back. -/
theorem leNat_leBytes_of_lt {n v : ℕ} (h : v < 256 ^ n) : leNat (leBytes n v) = v := by
  rw [leNat_leBytes, Nat.mod_eq_of_lt h]

/-- Encoding what was read gives the bytes back. -/
theorem leBytes_leNat (bs : List UInt8) : leBytes bs.length (leNat bs) = bs := by
  induction bs with
  | nil => rfl
  | cons b bs ih =>
      have hb : b.toNat < 256 := b.toNat_lt
      have hlo : UInt8.ofNat (b.toNat + 256 * leNat bs) = b := by
        apply UInt8.toNat_inj.mp
        simp only [UInt8.toNat_ofNat']
        omega
      have hhi : (b.toNat + 256 * leNat bs) / 256 = leNat bs := by omega
      simp only [List.length_cons, leNat, leBytes, hlo, hhi, ih]

/-! ## Memory -/

/-- Byte-addressed memory. -/
abbrev Mem := ℕ → UInt8

namespace Mem

/-- The memory that holds zero everywhere. -/
def zero : Mem := fun _ => 0

/-- The memory that starts with the given bytes and holds zero behind them. -/
def ofList (bs : List UInt8) : Mem := fun x => bs.getD x 0

/-- The `n` bytes at `a`. -/
def bytes (m : Mem) (a n : ℕ) : List UInt8 := (List.range n).map fun i => m (a + i)

/-- The `n`-byte little-endian number at `a`. -/
def word (m : Mem) (a n : ℕ) : ℕ := leNat (m.bytes a n)

/-- Store the bytes `bs` at `a`. -/
def store (m : Mem) (a : ℕ) (bs : List UInt8) : Mem := fun x =>
  if a ≤ x ∧ x < a + bs.length then bs.getD (x - a) 0 else m x

/-- Store the `n`-byte little-endian number `v` at `a`. -/
def putWord (m : Mem) (a n v : ℕ) : Mem := m.store a (leBytes n v)

/-- Copy the `n` bytes of `src` at `off` to `dst`. -/
def copy (m : Mem) (dst : ℕ) (src : Mem) (off n : ℕ) : Mem := fun x =>
  if dst ≤ x ∧ x < dst + n then src (off + (x - dst)) else m x

/-- Set the `n` bytes at `dst` to `c`. -/
def fill (m : Mem) (dst : ℕ) (c : UInt8) (n : ℕ) : Mem := fun x =>
  if dst ≤ x ∧ x < dst + n then c else m x

/-! ### Reading -/

/-- As many bytes are read as are asked for. -/
@[simp] theorem bytes_length (m : Mem) (a n : ℕ) : (m.bytes a n).length = n := by simp [bytes]

/-- The bytes that are read, one by one, -/
@[simp] theorem bytes_getElem (m : Mem) (a n i : ℕ) (h : i < (m.bytes a n).length) :
    (m.bytes a n)[i] = m (a + i) := by simp [bytes]

/-- also with a default. -/
theorem bytes_getD {n i : ℕ} (h : i < n) (m : Mem) (a : ℕ) : (m.bytes a n).getD i 0 = m (a + i) := by
  simp [bytes, h]

/-- Equation lemma: no bytes. -/
@[simp] theorem bytes_zero (m : Mem) (a : ℕ) : m.bytes a 0 = [] := rfl

/-- Equation lemma: the first byte and the rest. -/
theorem bytes_succ (m : Mem) (a n : ℕ) : m.bytes a (n + 1) = m a :: m.bytes (a + 1) n := by
  simp only [bytes, List.range_succ_eq_map, List.map_cons, List.map_map, Nat.add_zero]
  congr 1
  apply List.map_congr_left
  intro i _
  simp only [Function.comp, Nat.succ_eq_add_one]
  congr 1
  omega

/-- Bytes are read in two parts. -/
theorem bytes_add (m : Mem) (a j k : ℕ) : m.bytes a (j + k) = m.bytes a j ++ m.bytes (a + j) k := by
  simp only [bytes, List.range_add, List.map_append, List.map_map]
  congr 1
  apply List.map_congr_left
  intro i _
  simp [Function.comp, Nat.add_assoc]

/-- Two memories that agree on a run hold the same bytes there. -/
theorem bytes_congr {m m' : Mem} {a a' n : ℕ} (h : ∀ i < n, m (a + i) = m' (a' + i)) :
    m.bytes a n = m'.bytes a' n :=
  List.map_congr_left fun i hi => h i (List.mem_range.mp hi)

/-- A word depends on its bytes only. -/
theorem word_congr {m m' : Mem} {a a' n : ℕ} (h : ∀ i < n, m (a + i) = m' (a' + i)) :
    m.word a n = m'.word a' n := by
  rw [word, word, bytes_congr h]

/-- A word of `n` bytes is below 256 ^ n. -/
theorem word_lt (m : Mem) (a n : ℕ) : m.word a n < 256 ^ n := by
  simpa [word] using leNat_lt (m.bytes a n)

/-- A memory that holds `bs` at `a`, byte by byte. -/
theorem bytes_eq_iff {m : Mem} {a : ℕ} {bs : List UInt8} :
    m.bytes a bs.length = bs ↔ ∀ i < bs.length, m (a + i) = bs.getD i 0 := by
  constructor
  · intro h i hi
    rw [← bytes_getD hi m a, h]
  · intro h
    apply List.ext_getElem (by simp)
    intro i h₁ h₂
    rw [bytes_getElem, h i h₂, List.getD_eq_getElem _ _ h₂]

/-- The bytes of a concatenation are the two lists, one after the other. -/
theorem bytes_append_iff {m : Mem} {a : ℕ} {xs ys : List UInt8} :
    m.bytes a (xs ++ ys).length = xs ++ ys ↔
      m.bytes a xs.length = xs ∧ m.bytes (a + xs.length) ys.length = ys := by
  rw [List.length_append, bytes_add]
  constructor
  · intro h
    exact List.append_inj h (by simp)
  · rintro ⟨hx, hy⟩
    rw [hx, hy]

/-- The bytes of a list in memory are read back. -/
theorem ofList_bytes (bs : List UInt8) : (ofList bs).bytes 0 bs.length = bs := by
  rw [bytes_eq_iff]
  intro i _
  simp [ofList]

/-! ### Writing -/

/-- Equation lemma: a byte after bytes have been stored, -/
theorem store_apply (m : Mem) (a : ℕ) (bs : List UInt8) (x : ℕ) :
    m.store a bs x = if a ≤ x ∧ x < a + bs.length then bs.getD (x - a) 0 else m x := rfl

/-- copied, -/
theorem copy_apply (m : Mem) (dst : ℕ) (src : Mem) (off n x : ℕ) :
    m.copy dst src off n x = if dst ≤ x ∧ x < dst + n then src (off + (x - dst)) else m x := rfl

/-- or set. -/
theorem fill_apply (m : Mem) (dst : ℕ) (c : UInt8) (n x : ℕ) :
    m.fill dst c n x = if dst ≤ x ∧ x < dst + n then c else m x := rfl

/-- Nothing is stored. -/
@[simp] theorem store_nil (m : Mem) (a : ℕ) : m.store a [] = m := by
  funext x
  rw [store_apply, if_neg (by simp)]

/-- A byte of what is stored, -/
theorem store_of_mem {a x : ℕ} {bs : List UInt8} (m : Mem) (h₁ : a ≤ x) (h₂ : x < a + bs.length) :
    m.store a bs x = bs.getD (x - a) 0 := by
  rw [store_apply, if_pos ⟨h₁, h₂⟩]

/-- and one outside of it. -/
theorem store_of_not_mem {a x : ℕ} {bs : List UInt8} (m : Mem)
    (h : x < a ∨ a + bs.length ≤ x) : m.store a bs x = m x := by
  rw [store_apply, if_neg (by omega)]

/-- A byte of what is copied, -/
theorem copy_of_mem {dst x n : ℕ} (m src : Mem) (off : ℕ) (h₁ : dst ≤ x) (h₂ : x < dst + n) :
    m.copy dst src off n x = src (off + (x - dst)) := by
  rw [copy_apply, if_pos ⟨h₁, h₂⟩]

/-- and one outside of it. -/
theorem copy_of_not_mem {dst x n : ℕ} (m src : Mem) (off : ℕ) (h : x < dst ∨ dst + n ≤ x) :
    m.copy dst src off n x = m x := by
  rw [copy_apply, if_neg (by omega)]

/-- Nothing is copied. -/
@[simp] theorem copy_zero (m : Mem) (dst : ℕ) (src : Mem) (off : ℕ) : m.copy dst src off 0 = m := by
  funext x
  rw [copy_of_not_mem _ _ _ (by omega)]

/-- Copying two neighbouring runs one after the other is copying both at once. -/
theorem copy_copy_append (m : Mem) (dst : ℕ) (src : Mem) (off j k : ℕ) :
    (m.copy dst src off j).copy (dst + j) src (off + j) k = m.copy dst src off (j + k) := by
  funext x
  simp only [copy_apply]
  by_cases h₁ : dst + j ≤ x ∧ x < dst + j + k
  · rw [if_pos h₁, if_pos (by omega)]
    congr 1
    omega
  · rw [if_neg h₁]
    by_cases h₂ : dst ≤ x ∧ x < dst + j
    · rw [if_pos h₂, if_pos (by omega)]
    · rw [if_neg h₂, if_neg (by omega)]

/-- Two sources that agree on the run copied give the same result. -/
theorem copy_congr {src src' : Mem} {off off' n : ℕ} (m : Mem) (dst : ℕ)
    (h : ∀ i < n, src (off + i) = src' (off' + i)) :
    m.copy dst src off n = m.copy dst src' off' n := by
  funext x
  simp only [copy_apply]
  by_cases hx : dst ≤ x ∧ x < dst + n
  · rw [if_pos hx, if_pos hx, h _ (by omega)]
  · rw [if_neg hx, if_neg hx]

/-- Copying a run is storing its bytes. -/
theorem copy_eq_store (m : Mem) (dst : ℕ) (src : Mem) (off n : ℕ) :
    m.copy dst src off n = m.store dst (src.bytes off n) := by
  funext x
  by_cases hx : dst ≤ x ∧ x < dst + n
  · rw [copy_of_mem _ _ _ hx.1 hx.2, store_of_mem _ hx.1 (by simpa using hx.2),
      bytes_getD (by omega)]
  · rw [copy_of_not_mem _ _ _ (by omega), store_of_not_mem _ (by rw [bytes_length]; omega)]

/-- Storing a list is copying a memory that holds it. -/
theorem store_eq_copy (m : Mem) (dst : ℕ) {src : Mem} {off : ℕ} {bs : List UInt8}
    (h : ∀ i < bs.length, src (off + i) = bs.getD i 0) :
    m.store dst bs = m.copy dst src off bs.length := by
  rw [copy_eq_store, bytes_eq_iff.mpr h]

/-- The bytes of a copied run are the bytes of its source. -/
theorem bytes_copy (m : Mem) (dst : ℕ) (src : Mem) (off n : ℕ) {j k : ℕ} (h : j + k ≤ n) :
    (m.copy dst src off n).bytes (dst + j) k = src.bytes (off + j) k := by
  apply bytes_congr
  intro i hi
  rw [copy_of_mem _ _ _ (by omega) (by omega)]
  congr 1
  omega

/-- What is copied is read back. -/
theorem bytes_copy_self (m : Mem) (dst : ℕ) (src : Mem) (off n : ℕ) :
    (m.copy dst src off n).bytes dst n = src.bytes off n := by
  simpa using bytes_copy m dst src off n (j := 0) (k := n) (by omega)

/-- A stored list is what is read back. -/
theorem bytes_store_self (m : Mem) (a : ℕ) (bs : List UInt8) :
    (m.store a bs).bytes a bs.length = bs := by
  rw [bytes_eq_iff]
  intro i hi
  rw [store_of_mem _ (by omega) (by omega)]
  congr 1
  omega

/-- A run disjoint from the stored one is unchanged. -/
theorem bytes_store_of_disjoint (m : Mem) {a b n : ℕ} {bs : List UInt8}
    (h : b + n ≤ a ∨ a + bs.length ≤ b) : (m.store a bs).bytes b n = m.bytes b n := by
  apply bytes_congr
  intro i hi
  rw [store_of_not_mem _ (by omega)]

/-- A word that is put is read back, cut to its size. -/
@[simp] theorem word_putWord_self (m : Mem) (a n v : ℕ) :
    (m.putWord a n v).word a n = v % 256 ^ n := by
  have h := bytes_store_self m a (leBytes n v)
  rw [leBytes_length] at h
  rw [word, putWord, h, leNat_leBytes]

/-- A word elsewhere is kept, -/
theorem word_putWord_of_disjoint (m : Mem) {a b n k v : ℕ} (h : b + k ≤ a ∨ a + n ≤ b) :
    (m.putWord a n v).word b k = m.word b k := by
  rw [word, word, putWord, bytes_store_of_disjoint _ (by simpa using h)]

/-- and so is a byte. -/
theorem putWord_of_not_mem (m : Mem) {a n v x : ℕ} (h : x < a ∨ a + n ≤ x) :
    m.putWord a n v x = m x := by
  rw [putWord, store_of_not_mem _ (by simpa using h)]

/-- Writing back what was read changes nothing. -/
theorem putWord_word_self (m : Mem) (a n : ℕ) : m.putWord a n (m.word a n) = m := by
  have hbytes : leBytes n (m.word a n) = m.bytes a n := by
    have h := leBytes_leNat (m.bytes a n)
    rwa [bytes_length] at h
  funext x
  rw [putWord, hbytes]
  by_cases hx : a ≤ x ∧ x < a + n
  · rw [store_of_mem _ hx.1 (by simpa using hx.2), bytes_getD (by omega)]
    congr 1
    omega
  · rw [store_of_not_mem _ (by rw [bytes_length]; omega)]

/-- A word that is there already changes nothing. -/
theorem putWord_eq_self {m : Mem} {a n v : ℕ} (h : m.word a n = v) : m.putWord a n v = m := by
  rw [← h, putWord_word_self]

/-- A store of a concatenation is the two stores, one after the other. -/
theorem store_append (m : Mem) (a : ℕ) (xs ys : List UInt8) :
    m.store a (xs ++ ys) = (m.store a xs).store (a + xs.length) ys := by
  funext x
  simp only [store_apply, List.length_append]
  by_cases h₁ : a + xs.length ≤ x ∧ x < a + xs.length + ys.length
  · rw [if_pos h₁, if_pos (by omega), List.getD_append_right _ _ _ _ (by omega)]
    congr 1
    omega
  · rw [if_neg h₁]
    by_cases h₂ : a ≤ x ∧ x < a + xs.length
    · rw [if_pos h₂, if_pos (by omega), List.getD_append _ _ _ _ (by omega)]
    · rw [if_neg h₂, if_neg (by omega)]

/-! ### Writes within a stored list -/

/-- A list with the bytes from `o` on replaced. -/
def overwrite (bs : List UInt8) (o : ℕ) (vs : List UInt8) : List UInt8 :=
  bs.take o ++ vs ++ bs.drop (o + vs.length)

/-- Bytes within a list are overwritten without a change of its length. -/
theorem overwrite_length {bs vs : List UInt8} {o : ℕ} (h : o + vs.length ≤ bs.length) :
    (overwrite bs o vs).length = bs.length := by
  simp only [overwrite, List.length_append, List.length_take, List.length_drop]
  omega

/-- The bytes of an overwritten list. -/
theorem overwrite_getD {bs vs : List UInt8} {o : ℕ} (h : o + vs.length ≤ bs.length) (i : ℕ) :
    (overwrite bs o vs).getD i 0 =
      if o ≤ i ∧ i < o + vs.length then vs.getD (i - o) 0 else bs.getD i 0 := by
  have htake : (bs.take o).length = o := by
    rw [List.length_take]
    omega
  rw [overwrite]
  by_cases h₁ : i < o
  · rw [if_neg (by omega), List.append_assoc, List.getD_append _ _ _ _ (by omega)]
    simp [List.getD, h₁]
  · by_cases h₂ : i < o + vs.length
    · rw [if_pos (by omega), List.getD_append _ _ _ _ (by rw [List.length_append]; omega),
        List.getD_append_right _ _ _ _ (by omega), htake]
    · rw [if_neg (by omega), List.getD_append_right _ _ _ _ (by rw [List.length_append]; omega),
        List.length_append, htake]
      simp only [List.getD, List.getElem?_drop]
      congr 2
      omega

/-- A write within a stored list is a store of the list overwritten. -/
theorem store_overwrite (m : Mem) (a : ℕ) {bs vs : List UInt8} {o : ℕ}
    (h : o + vs.length ≤ bs.length) :
    (m.store a bs).store (a + o) vs = m.store a (overwrite bs o vs) := by
  funext x
  simp only [store_apply, overwrite_length h]
  by_cases h₁ : a ≤ x ∧ x < a + bs.length
  · rw [if_pos h₁, if_pos h₁, overwrite_getD h]
    by_cases h₂ : a + o ≤ x ∧ x < a + o + vs.length
    · rw [if_pos h₂, if_pos (by omega)]
      congr 1
      omega
    · rw [if_neg h₂, if_neg (by omega)]
  · rw [if_neg h₁, if_neg h₁, if_neg (by omega)]

/-- A write within one of the lists a stored list is made of. -/
theorem store_flatten (m : Mem) (a w : ℕ) {xs ys : List (List UInt8)} {x vs : List UInt8} {o : ℕ}
    (hxs : ∀ l ∈ xs, l.length = w) (h : o + vs.length ≤ x.length) :
    (m.store a (xs ++ x :: ys).flatten).store (a + w * xs.length + o) vs =
      m.store a (xs ++ overwrite x o vs :: ys).flatten := by
  have hlen : xs.flatten.length = w * xs.length := by
    rw [List.length_flatten, List.map_congr_left hxs, List.map_const', List.sum_replicate,
      smul_eq_mul, Nat.mul_comm]
  have hover : overwrite (xs ++ x :: ys).flatten (w * xs.length + o) vs =
      (xs ++ overwrite x o vs :: ys).flatten := by
    simp only [overwrite, List.flatten_append, List.flatten_cons]
    rw [← hlen, List.take_length_add_append, Nat.add_assoc, List.drop_length_add_append,
      List.take_append_of_le_length (by omega), List.drop_append_of_le_length (by omega)]
    simp only [List.append_assoc]
  rw [← hover, Nat.add_assoc, store_overwrite]
  rw [List.flatten_append, List.length_append, hlen, List.flatten_cons, List.length_append]
  omega

/-- What is stored at the start of a part of equal parts overwrites its start. -/
theorem store_flatten_start (m : Mem) (a w : ℕ) {xs ys : List (List UInt8)} {x vs : List UInt8}
    (hxs : ∀ l ∈ xs, l.length = w) (h : vs.length ≤ x.length) :
    (m.store a (xs ++ x :: ys).flatten).store (a + w * xs.length) vs =
      m.store a (xs ++ overwrite x 0 vs :: ys).flatten :=
  store_flatten m a w (o := 0) hxs (by simpa using h)

/-- To set bytes is to store as many equal ones. -/
theorem fill_eq_store (m : Mem) (a : ℕ) (c : UInt8) (n : ℕ) :
    m.fill a c n = m.store a (List.replicate n c) := by
  funext x
  simp only [fill_apply, store_apply, List.length_replicate]
  by_cases h : a ≤ x ∧ x < a + n
  · rw [if_pos h, if_pos h, List.getD_replicate _ (by omega)]
  · rw [if_neg h, if_neg h]

/-! ### Runs of words -/

/-- Write 32-bit words one after the other. -/
def putWords (m : Mem) (a : ℕ) : List ℕ → Mem
  | [] => m
  | w :: ws => putWords (m.putWord a 4 w) (a + 4) ws

/-- Byte `i` of a run of words. -/
theorem flatMap_leBytes_getD (n : ℕ) (ws : List ℕ) {i : ℕ} (h : i < (n + 1) * ws.length) :
    (ws.flatMap (leBytes (n + 1))).getD i 0 =
      (leBytes (n + 1) (ws.getD (i / (n + 1)) 0)).getD (i % (n + 1)) 0 := by
  induction ws generalizing i with
  | nil => simp at h
  | cons w ws ih =>
      rw [List.flatMap_cons]
      rcases Nat.lt_or_ge i (n + 1) with hi | hi
      · rw [List.getD_append _ _ _ _ (by simpa using hi), Nat.div_eq_of_lt hi, Nat.mod_eq_of_lt hi,
          List.getD_cons_zero]
      · obtain ⟨j, rfl⟩ : ∃ j, i = j + (n + 1) := ⟨i - (n + 1), by omega⟩
        rw [List.length_cons, Nat.mul_succ] at h
        rw [List.getD_append_right _ _ _ _ (by simp), leBytes_length, Nat.add_sub_cancel,
          ih (by omega), Nat.add_div_right _ (Nat.succ_pos n), Nat.add_mod_right,
          List.getD_cons_succ]

/-- The bytes of numbers one after the other. -/
theorem flatMap_leBytes_length (n : ℕ) (ws : List ℕ) :
    (ws.flatMap (leBytes n)).length = n * ws.length := by
  induction ws with
  | nil => rfl
  | cons w ws ih =>
      rw [List.flatMap_cons, List.length_append, ih, leBytes_length, List.length_cons]
      ring

/-- A word within a run of words is replaced. -/
theorem putWord_words (m : Mem) (a : ℕ) (ws : List ℕ) {i : ℕ} (h : i < ws.length) (v : ℕ) :
    (m.store a (ws.flatMap (leBytes 4))).putWord (a + 4 * i) 4 v =
      m.store a ((ws.set i v).flatMap (leBytes 4)) := by
  have hmap : ∀ l ∈ (ws.take i).map (leBytes 4), l.length = 4 := by
    intro l hl
    obtain ⟨w, -, rfl⟩ := List.mem_map.mp hl
    exact leBytes_length _ _
  have hstore := @store_flatten_start m a 4 _ ((ws.drop (i + 1)).map (leBytes 4)) (leBytes 4 ws[i])
      (leBytes 4 v) hmap (by simp)
  have hover : overwrite (leBytes 4 ws[i]) 0 (leBytes 4 v) = leBytes 4 v := by
    simp [overwrite]
  rw [List.length_map, List.length_take, Nat.min_eq_left h.le, hover] at hstore
  rw [List.set_eq_take_append_cons_drop, if_pos h]
  conv_lhs => rw [← List.take_append_drop i ws, List.drop_eq_getElem_cons h]
  simp only [List.flatMap_append, List.flatMap_cons]
  simp only [List.flatten_append, List.flatten_cons, ← List.flatMap_def] at hstore
  exact hstore

/-- Words that are put one after the other are stored as their bytes. -/
theorem putWords_eq_store (m : Mem) (a : ℕ) (ws : List ℕ) :
    m.putWords a ws = m.store a (ws.flatMap (leBytes 4)) := by
  induction ws generalizing m a with
  | nil => simp [putWords]
  | cons w ws ih =>
      rw [putWords, ih, List.flatMap_cons, store_append, leBytes_length]
      rfl

end Mem

end Ntloader.Lib
