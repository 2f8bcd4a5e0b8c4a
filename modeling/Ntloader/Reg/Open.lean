import Ntloader.Lib.Recursion
import Ntloader.Reg.Lookup

/-!
# Opening a hive

The header is checked and repaired, the bins are checked, and the volatile fields of every key are
cleared, by a recursion along the subkey indexes.

* `checkHeader`, `validateBins`, `clearVolatile`, `regOpenHive` — libnt/reg.c.
* `NestedCall` — the calls that a call of clear_volatile makes, with the image as it then is.
* `clearVolatile_returns_iff` — a call returns exactly if the nested calls are well founded.
* `Still` — a walk that writes nothing; opening then leaves the image as it is.
* `regOpenHive_returns_iff` — opening ends exactly if no call leads to a call for the same key and the
  same image.

Scope: the loop over the bins and the recursion take the number of rounds or of nested calls as fuel,
and give `none` when it is used up.
-/

namespace Ntloader.Reg

open Ntloader.Lib

/-! ## The header -/

/-- Source: include/reg.h, HBASE_BLOCK, RootCell -/
def headerRootCell (m : Mem) : ℕ := m.word 36 4

/-- Source: include/reg.h, HBASE_BLOCK, Length -/
def headerLength (m : Mem) : ℕ := m.word 40 4

/-- Source: libnt/reg.c, check_header, csum -/
def headerChecksum (m : Mem) : ℕ :=
  let csum := (List.range 127).foldl (fun c i => c ^^^ m.word (4 * i) 4) 0
  if csum = 0xffffffff then 0xfffffffe else if csum = 0 then 1 else csum

/-- Source: libnt/reg.c, check_header, the assignments to Sequence2 and CheckSum -/
def repairHeader (m : Mem) : Mem :=
  let m := if m.word 4 4 ≠ m.word 8 4 then m.putWord 8 4 (m.word 4 4) else m
  let csum := headerChecksum m
  if csum ≠ m.word 508 4 then m.putWord 508 4 csum else m

/-- The image with its header repaired, if the header is that of a hive.
Source: libnt/reg.c, check_header -/
def checkHeader (m : Mem) : Option Mem :=
  if m.word 0 4 ≠ 0x66676572 then none
  else if m.word 20 4 ≠ 1 then none
  else if m.word 24 4 < 3 then none
  else if m.word 28 4 ≠ 0 then none
  else if m.word 32 4 ≠ 1 then none
  else if m.word 44 4 ≠ 1 then none
  else some (repairHeader m)

/-! ## The bins -/

/-- The check of the bins from offset `off` on.
Source: libnt/reg.c, validate_bins -/
def validateBins (m : Mem) (len : ℕ) : ℕ → ℕ → Option Bool
  | 0, _ => none
  | fuel + 1, off =>
      let hb := 0x1000 + off
      if off < len then
        if m.word hb 4 ≠ 0x6e696268 then some false
        else if m.word (hb + 4) 4 ≠ off then some false
        else if len - off < m.word (hb + 8) 4 then some false
        else if m.word (hb + 8) 4 &&& 0xfff ≠ 0 then some false
        else validateBins m len fuel (off + m.word (hb + 8) 4)
      else some true

/-! ## Volatile keys -/

/-- Source: libnt/reg.c, clear_volatile, the two assignments -/
def clearNode (m : Mem) (nk : ℕ) : Mem :=
  (m.putWord (nk + 32) 4 0xbaadf00d).putWord (nk + 24) 4 0

/-- A call up to its loop: the image, and the index with the distance of its entries, if the call
comes to a loop.
Source: libnt/reg.c, clear_volatile -/
def clearKey (m : Mem) (key : ℕ) : Mem × Option (ℕ × ℕ) :=
  let nk := keyBody key
  if 2 ^ 31 ≤ getInt32Size m key then (m, none)
  else if getInt32Size m key < 80 then (m, none)
  else if m.word nk 2 ≠ keyNodeSignature then (m, none)
  else
    let m := clearNode m nk
    let lh := cellBody (subKeyList m nk)
    if subKeyCount m nk = 0 ∨ subKeyList m nk = noCell then (m, none)
    else if isLeaf m lh then (m, some (lh, 8))
    else if indexSignature m lh = keyIndexRoot then (m, some (lh, 4))
    else (m, none)

/-- The key of an entry. -/
def entryKey (m : Mem) (list : ℕ × ℕ) (i : ℕ) : ℕ :=
  cellAddr (m.word (list.1 + 4 + list.2 * i) 4)

/-- The loop over the entries from `i` on. The count and the entry are read in every round.
Source: libnt/reg.c, clear_volatile, the loops over `lh->List` and `ri->List` -/
def clearEntries (clear : Mem → ℕ → Option Mem) (list : ℕ × ℕ) : ℕ → ℕ → Mem → Option Mem
  | 0, _, m => some m
  | n + 1, i, m =>
      if i < indexCount m list.1 then
        (clear m (entryKey m list i)).bind (clearEntries clear list n (i + 1))
      else some m

/-- The count has 16 bits, so that the loop ends after 2^16 rounds.
Source: libnt/reg.c, clear_volatile -/
def clearVolatile : ℕ → Mem → ℕ → Option Mem
  | 0, _, _ => none
  | fuel + 1, m, key =>
      match clearKey m key with
      | (m, none) => some m
      | (m, some list) => clearEntries (clearVolatile fuel) list (2 ^ 16) 0 m

/-- Source: libnt/reg.c, reg_open_hive -/
def regOpenHive (fuel : ℕ) (m : Mem) : Option (Except RegErr Mem) :=
  match checkHeader m with
  | none => some (.error .badArgument)
  | some m =>
      match validateBins m (headerLength m) fuel 0 with
      | none => none
      | some false => some (.error .badArgument)
      | some true => (clearVolatile fuel m (cellAddr (headerRootCell m))).map .ok

/-! ## Fuel -/

/-- The loop gives the same if its calls do. -/
theorem clearEntries_mono {c c' : Mem → ℕ → Option Mem}
    (h : ∀ m key r, c m key = some r → c' m key = some r) {list : ℕ × ℕ} {n i : ℕ} {m r : Mem}
    (hr : clearEntries c list n i m = some r) : clearEntries c' list n i m = some r := by
  induction n generalizing i m with
  | zero => exact hr
  | succ n ih =>
      rw [clearEntries] at hr ⊢
      by_cases hi : i < indexCount m list.1
      · rw [if_pos hi] at hr ⊢
        obtain ⟨m', hm', hrest⟩ := Option.bind_eq_some_iff.mp hr
        exact Option.bind_eq_some_iff.mpr ⟨m', h _ _ _ hm', ih hrest⟩
      · rw [if_neg hi] at hr ⊢
        exact hr

/-- A walk that returns does the same with one round more, -/
theorem clearVolatile_succ {fuel key : ℕ} {m r : Mem} (h : clearVolatile fuel m key = some r) :
    clearVolatile (fuel + 1) m key = some r := by
  induction fuel generalizing m key r with
  | zero => cases h
  | succ fuel ih =>
      rw [clearVolatile] at h ⊢
      rcases hkey : clearKey m key with ⟨m', _ | list⟩
      · rw [hkey] at h
        exact h
      · rw [hkey] at h
        exact clearEntries_mono (fun _ _ _ hc => ih hc) h

/-- and with any more. -/
theorem clearVolatile_mono {fuel fuel' key : ℕ} {m r : Mem} (hle : fuel ≤ fuel')
    (h : clearVolatile fuel m key = some r) : clearVolatile fuel' m key = some r := by
  induction hle with
  | refl => exact h
  | step _ ih => exact clearVolatile_succ ih

/-- The result does not depend on the fuel. -/
theorem clearVolatile_unique {fuel fuel' key : ℕ} {m r r' : Mem}
    (h : clearVolatile fuel m key = some r) (h' : clearVolatile fuel' m key = some r') : r = r' := by
  have h₁ := clearVolatile_mono (Nat.le_max_left fuel fuel') h
  have h₂ := clearVolatile_mono (Nat.le_max_right fuel fuel') h'
  exact Option.some.inj (h₁.symm.trans h₂)

/-! ## Nested calls -/

/-- A call, given by its image and its key, returns. -/
def Returns (s : Mem × ℕ) : Prop := ∃ fuel r, clearVolatile fuel s.1 s.2 = some r

/-- The loop that starts with the image `m` comes to round `i` with another image. -/
inductive LoopReaches (list : ℕ × ℕ) (m : Mem) : ℕ → Mem → Prop
  | start : LoopReaches list m 0 m
  | round {i fuel : ℕ} {m₁ m₂ : Mem} (before : LoopReaches list m i m₁)
      (hi : i < indexCount m₁ list.1)
      (call : clearVolatile fuel m₁ (entryKey m₁ list i) = some m₂) : LoopReaches list m (i + 1) m₂

/-- A call makes another one, which starts with the image that the calls in front of it have left. -/
def NestedCall (s t : Mem × ℕ) : Prop :=
  ∃ m list i, clearKey s.1 s.2 = (m, some list) ∧ LoopReaches list m i t.1 ∧
    i < indexCount t.1 list.1 ∧ t.2 = entryKey t.1 list i

/-- A count has 16 bits. -/
theorem indexCount_lt (m : Mem) (lh : ℕ) : indexCount m lh < 2 ^ 16 := by
  have h := Mem.word_lt m (lh + 2) 2
  rw [indexCount]
  omega

/-- A loop that ends goes on from every round that it comes to. -/
theorem LoopReaches.rest {list : ℕ × ℕ} {fuel i : ℕ} {m m' r : Mem}
    (h : LoopReaches list m i m')
    (hr : clearEntries (clearVolatile fuel) list (2 ^ 16) 0 m = some r) :
    clearEntries (clearVolatile fuel) list (2 ^ 16 - i) i m' = some r := by
  induction h with
  | start => exact hr
  | @round i _ m₁ m₂ _ hi call ih =>
      have hcount := indexCount_lt m₁ list.1
      rw [show 2 ^ 16 - i = 2 ^ 16 - (i + 1) + 1 by omega, clearEntries, if_pos hi] at ih
      obtain ⟨m', hm', hrest⟩ := Option.bind_eq_some_iff.mp ih
      rw [clearVolatile_unique call hm']
      exact hrest

/-- Nested calls use less fuel. -/
theorem NestedCall.returns {s t : Mem × ℕ} {fuel : ℕ} {r : Mem} (h : NestedCall s t)
    (hr : clearVolatile (fuel + 1) s.1 s.2 = some r) :
    ∃ r', clearVolatile fuel t.1 t.2 = some r' := by
  obtain ⟨m, list, i, hkey, hreach, hi, hentry⟩ := h
  rw [clearVolatile, hkey] at hr
  have hrest := hreach.rest hr
  have hcount := indexCount_lt t.1 list.1
  rw [show 2 ^ 16 - i = 2 ^ 16 - (i + 1) + 1 by omega, clearEntries, if_pos hi] at hrest
  obtain ⟨m', hm', -⟩ := Option.bind_eq_some_iff.mp hrest
  exact ⟨m', hentry ▸ hm'⟩

/-- A loop ends if all calls from it return. -/
theorem exists_clearEntries {s : Mem × ℕ} {m : Mem} {list : ℕ × ℕ}
    (hkey : clearKey s.1 s.2 = (m, some list)) (h : ∀ t, NestedCall s t → Returns t)
    (n : ℕ) {i : ℕ} {m' : Mem} (hreach : LoopReaches list m i m') :
    ∃ fuel r, clearEntries (clearVolatile fuel) list n i m' = some r := by
  induction n generalizing i m' with
  | zero => exact ⟨0, m', rfl⟩
  | succ n ih =>
      by_cases hi : i < indexCount m' list.1
      · obtain ⟨fuel₁, m₂, hcall⟩ := h (m', entryKey m' list i) ⟨m, list, i, hkey, hreach, hi, rfl⟩
        obtain ⟨fuel₂, r, hrest⟩ := ih (hreach.round hi hcall)
        refine ⟨max fuel₁ fuel₂, r, ?_⟩
        rw [clearEntries, if_pos hi, clearVolatile_mono (Nat.le_max_left _ _) hcall]
        exact clearEntries_mono
          (fun _ _ _ hc => clearVolatile_mono (Nat.le_max_right fuel₁ fuel₂) hc) hrest
      · exact ⟨0, m', by rw [clearEntries, if_neg hi]⟩

/-- A call returns, if the calls in it do. -/
theorem returns_of_nested {s : Mem × ℕ} (h : ∀ t, NestedCall s t → Returns t) : Returns s := by
  rcases hkey : clearKey s.1 s.2 with ⟨m, _ | list⟩
  · exact ⟨1, m, by rw [clearVolatile, hkey]⟩
  · obtain ⟨fuel, r, hr⟩ := exists_clearEntries hkey h (2 ^ 16) LoopReaches.start
    exact ⟨fuel + 1, r, by rw [clearVolatile, hkey]; exact hr⟩

/-- A call returns exactly if its nested calls are well founded. -/
theorem clearVolatile_returns_iff (s : Mem × ℕ) :
    Returns s ↔ Acc (fun t s => NestedCall s t) s := by
  constructor
  · rintro ⟨fuel, r, hr⟩
    induction fuel generalizing s r with
    | zero => cases hr
    | succ fuel ih =>
        refine Acc.intro _ fun t ht => ?_
        obtain ⟨r', hr'⟩ := NestedCall.returns ht hr
        exact ih t r' hr'
  · intro h
    induction h with
    | intro s _ ih => exact returns_of_nested ih

/-! ## The images of a walk -/

/-- Nothing is written behind the keys. -/
theorem clearKey_frame (m : Mem) {key x : ℕ} (hkey : key < 2 ^ 32) (hx : 2 ^ 33 ≤ x) :
    (clearKey m key).1 x = m x := by
  have hclear : clearNode m (keyBody key) x = m x := by
    rw [clearNode, keyBody, Mem.putWord_of_not_mem _ (by omega), Mem.putWord_of_not_mem _ (by omega)]
  rw [clearKey]
  dsimp only
  by_cases h₁ : 2 ^ 31 ≤ getInt32Size m key
  · rw [if_pos h₁]
  rw [if_neg h₁]
  by_cases h₂ : getInt32Size m key < 80
  · rw [if_pos h₂]
  rw [if_neg h₂]
  by_cases h₃ : m.word (keyBody key) 2 ≠ keyNodeSignature
  · rw [if_pos h₃]
  rw [if_neg h₃]
  split_ifs <;> exact hclear

/-- Keys are at offsets of 32 bits. -/
theorem entryKey_lt (m : Mem) (list : ℕ × ℕ) (i : ℕ) : entryKey m list i < 2 ^ 32 := cellAddr_lt _

/-- The visit of entries leaves a byte that the visits of keys leave. -/
theorem clearEntries_frame {c : Mem → ℕ → Option Mem} {list : ℕ × ℕ} {n i x : ℕ} {m r : Mem}
    (hc : ∀ m key r, key < 2 ^ 32 → c m key = some r → r x = m x)
    (hr : clearEntries c list n i m = some r) : r x = m x := by
  induction n generalizing i m with
  | zero =>
      cases hr
      rfl
  | succ n ih =>
      rw [clearEntries] at hr
      by_cases hi : i < indexCount m list.1
      · rw [if_pos hi] at hr
        obtain ⟨m', hm', hrest⟩ := Option.bind_eq_some_iff.mp hr
        rw [ih hrest, hc _ _ _ (entryKey_lt _ _ _) hm']
      · rw [if_neg hi] at hr
        cases hr
        rfl

/-- **The walk writes below 2 ^ 33 only.** -/
theorem clearVolatile_frame {fuel key x : ℕ} {m r : Mem} (hkey : key < 2 ^ 32) (hx : 2 ^ 33 ≤ x)
    (hr : clearVolatile fuel m key = some r) : r x = m x := by
  induction fuel generalizing m key r with
  | zero => cases hr
  | succ fuel ih =>
      have hframe := clearKey_frame m hkey hx
      rw [clearVolatile] at hr
      rcases hclear : clearKey m key with ⟨m', _ | list⟩
      · rw [hclear] at hr hframe
        cases hr
        exact hframe
      · rw [hclear] at hr hframe
        exact (clearEntries_frame (fun _ _ _ hk hc => ih hk hc) hr).trans hframe

/-- So does a loop in it, -/
theorem LoopReaches.frame {list : ℕ × ℕ} {i x : ℕ} {m m' : Mem} (h : LoopReaches list m i m')
    (hx : 2 ^ 33 ≤ x) : m' x = m x := by
  induction h with
  | start => rfl
  | round _ _ call ih => rw [clearVolatile_frame (entryKey_lt _ _ _) hx call, ih]

/-- and a call in it, which is for a key below 2 ^ 32. -/
theorem NestedCall.frame {s t : Mem × ℕ} (h : NestedCall s t) (hs : s.2 < 2 ^ 32) :
    t.2 < 2 ^ 32 ∧ ∀ x, 2 ^ 33 ≤ x → t.1 x = s.1 x := by
  obtain ⟨m, list, i, hkey, hreach, -, hentry⟩ := h
  refine ⟨hentry ▸ entryKey_lt _ _ _, fun x hx => ?_⟩
  have hframe := clearKey_frame s.1 hs hx
  rw [hkey] at hframe
  exact (hreach.frame hx).trans hframe

/-- The keys of 32 bits and the images that differ from a given one in the first 2^33 bytes only are
finitely many. -/
theorem finite_images (m : Mem) :
    {t : Mem × ℕ | t.2 < 2 ^ 32 ∧ ∀ x, 2 ^ 33 ≤ x → t.1 x = m x}.Finite := by
  let code : {t : Mem × ℕ // t.2 < 2 ^ 32 ∧ ∀ x, 2 ^ 33 ≤ x → t.1 x = m x} →
      (Fin (2 ^ 33) → Fin 256) × Fin (2 ^ 32) :=
    fun t => (fun x => ⟨(t.1.1 x).toNat, (t.1.1 x).toNat_lt⟩, ⟨t.1.2, t.2.1⟩)
  have hinj : Function.Injective code := by
    rintro ⟨⟨m₁, k₁⟩, hk₁, hm₁⟩ ⟨⟨m₂, k₂⟩, hk₂, hm₂⟩ heq
    obtain ⟨hbytes, hkeys⟩ := Prod.mk.inj heq
    have hk : k₁ = k₂ := Fin.mk.inj hkeys
    have hm : m₁ = m₂ := by
      funext x
      by_cases hx : x < 2 ^ 33
      · exact UInt8.toNat_inj.mp (Fin.mk.inj (congrFun hbytes ⟨x, hx⟩))
      · exact (hm₁ x (by omega)).trans (hm₂ x (by omega)).symm
    subst hk hm
    rfl
  exact Finite.of_injective code hinj

/-- Only finitely many calls are ever come to. -/
theorem finite_nestedCalls {s : Mem × ℕ} (hs : s.2 < 2 ^ 32) :
    {t | Relation.ReflTransGen NestedCall s t}.Finite := by
  refine (finite_images s.1).subset fun t ht => ?_
  induction ht with
  | refl => exact ⟨hs, fun _ _ => rfl⟩
  | tail _ hbc ih =>
      obtain ⟨hkey, hframe⟩ := hbc.frame ih.1
      exact ⟨hkey, fun x hx => (hframe x hx).trans (ih.2 x hx)⟩

/-! ## Walks that write nothing -/

/-- The calls of a walk for the keys of a set write nothing, and lead to keys of the set only. -/
structure Still (keys : Set ℕ) (m : Mem) : Prop where
  clear : ∀ k ∈ keys, (clearKey m k).1 = m
  entries : ∀ k ∈ keys, ∀ list, (clearKey m k).2 = some list → ∀ i < indexCount m list.1,
    entryKey m list i ∈ keys

section Still

variable {keys : Set ℕ} {m : Mem}

/-- A loop whose calls write nothing leaves the image that it starts with. -/
theorem clearEntries_still {call : Mem → ℕ → Option Mem} {list : ℕ × ℕ}
    (hcall : ∀ i < indexCount m list.1, ∀ r, call m (entryKey m list i) = some r → r = m)
    {n i : ℕ} {r : Mem} (hr : clearEntries call list n i m = some r) : r = m := by
  induction n generalizing i with
  | zero =>
      cases hr
      rfl
  | succ n ih =>
      rw [clearEntries] at hr
      by_cases hi : i < indexCount m list.1
      · rw [if_pos hi] at hr
        obtain ⟨m', hm', hrest⟩ := Option.bind_eq_some_iff.mp hr
        rw [hcall i hi m' hm'] at hrest
        exact ih hrest
      · rw [if_neg hi] at hr
        cases hr
        rfl

/-- A still walk leaves the image that it starts with. -/
theorem Still.clearVolatile_eq (h : Still keys m) {fuel k : ℕ} (hk : k ∈ keys) {r : Mem}
    (hr : clearVolatile fuel m k = some r) : r = m := by
  induction fuel generalizing k r with
  | zero => cases hr
  | succ fuel ih =>
      have hclear := h.clear k hk
      have hentries := h.entries k hk
      rw [clearVolatile] at hr
      rcases hkey : clearKey m k with ⟨m', _ | list⟩
      · rw [hkey] at hr hclear
        cases hr
        exact hclear
      · rw [hkey] at hr hclear hentries
        obtain rfl : m' = m := hclear
        exact clearEntries_still (fun i hi r hr => ih (hentries list rfl i hi) hr) hr

/-- A walk that writes nothing ends within some nested calls. -/
def walkEnds (m : Mem) : ℕ → ℕ → Bool
  | 0, _ => false
  | fuel + 1, key =>
      match (clearKey m key).2 with
      | none => true
      | some list => (List.range (indexCount m list.1)).all fun i => walkEnds m fuel (entryKey m list i)

/-- A loop whose calls return the image that it starts with returns it. -/
theorem clearEntries_of_still {call : Mem → ℕ → Option Mem} {list : ℕ × ℕ}
    (hcall : ∀ i < indexCount m list.1, call m (entryKey m list i) = some m) (n i : ℕ) :
    clearEntries call list n i m = some m := by
  induction n generalizing i with
  | zero => rfl
  | succ n ih =>
      rw [clearEntries]
      by_cases hi : i < indexCount m list.1
      · rw [if_pos hi, hcall i hi]
        exact ih (i + 1)
      · rw [if_neg hi]

/-- A still walk that ends returns the image that it starts with. -/
theorem Still.clearVolatile_of_ends (h : Still keys m) {fuel k : ℕ} (hk : k ∈ keys)
    (hends : walkEnds m fuel k = true) : clearVolatile fuel m k = some m := by
  induction fuel generalizing k with
  | zero => cases hends
  | succ fuel ih =>
      have hclear := h.clear k hk
      have hentries := h.entries k hk
      rw [walkEnds] at hends
      rw [clearVolatile]
      rcases hkey : clearKey m k with ⟨m', _ | list⟩
      · rw [hkey] at hclear
        obtain rfl : m' = m := hclear
        rfl
      · rw [hkey] at hends hclear hentries
        obtain rfl : m' = m := hclear
        refine clearEntries_of_still (fun i hi => ih (hentries list rfl i hi) ?_) _ _
        exact List.all_eq_true.mp hends i (List.mem_range.mpr hi)

/-- The loop of a still walk goes on with the image that it starts with. -/
theorem Still.loopReaches (h : Still keys m) {k i : ℕ} {list : ℕ × ℕ} {m' : Mem} (hk : k ∈ keys)
    (hlist : (clearKey m k).2 = some list) (hreach : LoopReaches list m i m') : m' = m := by
  induction hreach with
  | start => rfl
  | round _ hi call ih =>
      subst ih
      exact h.clearVolatile_eq (h.entries k hk list hlist _ hi) call

/-- A still walk makes its calls with the image that it starts with, for keys of the set. -/
theorem Still.nestedCall (h : Still keys m) {s t : Mem × ℕ} (hs : s.1 = m ∧ s.2 ∈ keys)
    (ht : NestedCall s t) : t.1 = m ∧ t.2 ∈ keys := by
  obtain ⟨m', list, i, hkey, hreach, hi, hentry⟩ := ht
  rw [hs.1] at hkey
  have hclear := h.clear s.2 hs.2
  have hlist : (clearKey m s.2).2 = some list := by rw [hkey]
  rw [hkey] at hclear
  obtain rfl : m' = m := hclear
  have heq := h.loopReaches hs.2 hlist hreach
  rw [heq] at hi hentry
  exact ⟨heq, hentry ▸ h.entries s.2 hs.2 list hlist i hi⟩

/-- So do all calls that it leads to. -/
theorem Still.reached (h : Still keys m) {s t : Mem × ℕ} (hs : s.1 = m ∧ s.2 ∈ keys)
    (ht : Relation.ReflTransGen NestedCall s t) : t.1 = m ∧ t.2 ∈ keys := by
  induction ht with
  | refl => exact hs
  | tail _ hcall ih => exact h.nestedCall ih hcall

/-- Opening a hive with a good header and good bins by a still walk leaves the image as it is. -/
theorem Still.regOpenHive_eq (h : Still keys m) {fuel : ℕ} (hheader : checkHeader m = some m)
    (hbins : validateBins m (headerLength m) fuel 0 = some true)
    (hroot : cellAddr (headerRootCell m) ∈ keys)
    (hends : walkEnds m fuel (cellAddr (headerRootCell m)) = true) :
    regOpenHive fuel m = some (.ok m) := by
  simp only [regOpenHive, hheader, hbins, h.clearVolatile_of_ends hroot hends, Option.map_some]

end Still

/-! ## Termination -/

/-- A call returns exactly if no call that it leads to leads to itself: a call for the same key, made
with the same image. -/
theorem clearVolatile_returns_iff_noCycle {s : Mem × ℕ} (hs : s.2 < 2 ^ 32) :
    Returns s ↔ ∀ t, Relation.ReflTransGen NestedCall s t → ¬Relation.TransGen NestedCall t t := by
  rw [clearVolatile_returns_iff, acc_iff_noCycle (finite_nestedCalls hs)]

/-- A walk over the bins that ends does the same with one round more, -/
theorem validateBins_succ {m : Mem} {len fuel off : ℕ} {b : Bool}
    (h : validateBins m len fuel off = some b) : validateBins m len (fuel + 1) off = some b := by
  induction fuel generalizing off with
  | zero => cases h
  | succ fuel ih =>
      rw [validateBins] at h ⊢
      split_ifs at h ⊢ <;> first | exact h | exact ih h

/-- and with any more. -/
theorem validateBins_mono {m : Mem} {len fuel fuel' off : ℕ} {b : Bool} (hle : fuel ≤ fuel')
    (h : validateBins m len fuel off = some b) : validateBins m len fuel' off = some b := by
  induction hle with
  | refl => exact h
  | step _ ih => exact validateBins_succ ih

/-- **Opening a hive ends** exactly if no call of the walk leads to a call for the same key and the
same image. -/
theorem regOpenHive_returns_iff {m m₁ : Mem} (hheader : checkHeader m = some m₁)
    (hbins : ∃ fuel, validateBins m₁ (headerLength m₁) fuel 0 = some true) :
    (∃ fuel r, regOpenHive fuel m = some r) ↔
      ∀ t, Relation.ReflTransGen NestedCall (m₁, cellAddr (headerRootCell m₁)) t →
        ¬Relation.TransGen NestedCall t t := by
  rw [← clearVolatile_returns_iff_noCycle (cellAddr_lt _)]
  obtain ⟨fuel₁, hbins⟩ := hbins
  constructor
  · rintro ⟨fuel, r, hr⟩
    simp only [regOpenHive, hheader] at hr
    rcases hvalid : validateBins m₁ (headerLength m₁) fuel 0 with _ | valid
    · rw [hvalid] at hr
      cases hr
    · have h₁ := validateBins_mono (Nat.le_max_left fuel₁ fuel) hbins
      rw [validateBins_mono (Nat.le_max_right fuel₁ fuel) hvalid] at h₁
      cases h₁
      rw [hvalid] at hr
      obtain ⟨r', hr', -⟩ := Option.map_eq_some_iff.mp hr
      exact ⟨fuel, r', hr'⟩
  · rintro ⟨fuel₂, r, hr⟩
    refine ⟨max fuel₁ fuel₂, .ok r, ?_⟩
    simp only [regOpenHive, hheader, validateBins_mono (Nat.le_max_left fuel₁ fuel₂) hbins,
      clearVolatile_mono (Nat.le_max_right fuel₁ fuel₂) hr, Option.map_some]

/-- A hive with one bin whose root key, at 0x1020, is its own subkey. -/
def loopImage : Mem :=
  image [(0, 4, 0x66676572), (4, 4, 1), (8, 4, 1), (20, 4, 1), (24, 4, 3), (32, 4, 1), (36, 4, 0x20),
    (40, 4, 0x1000), (44, 4, 1), (508, 4, 0x66677550), (0x1000, 4, 0x6e696268), (0x1008, 4, 0x1000),
    (0x1020, 4, 2 ^ 32 - 96), (0x1024, 2, keyNodeSignature), (0x1038, 4, 1), (0x1040, 4, 0x80),
    (0x1044, 4, 0xbaadf00d), (0x1080, 4, 2 ^ 32 - 16), (0x1084, 2, keyFastLeaf), (0x1086, 2, 1),
    (0x1088, 4, 0x20)]

/-- The header of the image is accepted as it is, -/
theorem checkHeader_loopImage : checkHeader loopImage = some loopImage := by
  rw [checkHeader, if_neg (by decide +kernel), if_neg (by decide +kernel),
    if_neg (by decide +kernel), if_neg (by decide +kernel), if_neg (by decide +kernel),
    if_neg (by decide +kernel), repairHeader, if_neg (by decide +kernel), if_neg (by decide +kernel)]

/-- and so is its bin. -/
theorem validateBins_loopImage :
    validateBins loopImage (headerLength loopImage) 2 0 = some true := by
  decide +kernel

/-- The call for the root key makes a call for the root key, with the same image. -/
theorem nestedCall_loopImage : NestedCall (loopImage, 0x1020) (loopImage, 0x1020) := by
  have hclear : clearNode loopImage 0x1024 = loopImage := by
    have hlist : loopImage.word (0x1024 + 32) 4 = 0xbaadf00d := by decide +kernel
    have hcount : loopImage.word (0x1024 + 24) 4 = 0 := by decide +kernel
    rw [clearNode, Mem.putWord_eq_self hlist, Mem.putWord_eq_self hcount]
  refine ⟨loopImage, (0x1084, 8), 0, ?_, .start, by decide +kernel, by decide +kernel⟩
  rw [clearKey, if_neg (by decide +kernel), if_neg (by decide +kernel), if_neg (by decide +kernel)]
  dsimp only
  rw [show keyBody 0x1020 = 0x1024 from rfl, hclear, if_neg (by decide +kernel),
    if_pos (by decide +kernel), show cellBody (subKeyList loopImage 0x1024) = 0x1084 by decide +kernel]

/-- An image with a loop. -/
theorem regOpenHive_returns_iff_loopImage :
    (∃ fuel r, regOpenHive fuel loopImage = some r) ↔
      ∀ t, Relation.ReflTransGen NestedCall (loopImage, cellAddr (headerRootCell loopImage)) t →
        ¬Relation.TransGen NestedCall t t :=
  regOpenHive_returns_iff checkHeader_loopImage ⟨2, validateBins_loopImage⟩

/-- Opening this hive does not end. -/
theorem not_returns_loopImage :
    ¬∀ m m₁ : Mem, checkHeader m = some m₁ →
      (∃ fuel, validateBins m₁ (headerLength m₁) fuel 0 = some true) →
      ∃ fuel r, clearVolatile fuel m₁ (cellAddr (headerRootCell m₁)) = some r := by
  intro h
  obtain ⟨fuel, r, hr⟩ := h loopImage loopImage checkHeader_loopImage ⟨2, validateBins_loopImage⟩
  rw [show cellAddr (headerRootCell loopImage) = 0x1020 by decide +kernel] at hr
  have hreturns : Returns (loopImage, 0x1020) := ⟨fuel, r, hr⟩
  exact (clearVolatile_returns_iff_noCycle (by norm_num)).mp hreturns _ Relation.ReflTransGen.refl
    (Relation.TransGen.single nestedCall_loopImage)

end Ntloader.Reg
