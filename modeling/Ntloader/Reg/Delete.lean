import Ntloader.Reg.Tree

/-!
# Deleting keys

A key is deleted by taking its entry out of its parent's index and by lowering two counters, one in
the index and one in the parent.

* `deleteKey` — libnt/reg.c, reg_delete_key.
* `removeEntry_spec` — what the three writes do: the entries, the counters, and nothing else.
* `KeyTree.deleteKey` — deletion keeps the tree of keys, and is deletion in the lists of subkeys.
* `deleteRun_exact` — what every call of a sequence of deletions does.
-/

namespace Ntloader.Reg

open Ntloader.Lib

/-! ## The operation -/

/-- Move the entries from `j` on one place to the front. The count is read in every round.
Source: libnt/reg.c, reg_delete_key, the loop over j -/
def shiftEntries (lh : ℕ) : ℕ → ℕ → Mem → Mem
  | 0, _, m => m
  | n + 1, j, m =>
      if j < indexCount m lh then
        shiftEntries lh n (j + 1) (m.copy (lh + 4 + 8 * j) m (lh + 4 + 8 * (j + 1)) 8)
      else m

/-- Source: libnt/reg.c, reg_delete_key, `lh->Count--` to `nk->SubKeyCount--` -/
def removeEntry (m : Mem) (nk lh i : ℕ) : Mem :=
  let m := m.putWord (lh + 2) 2 (indexCount m lh - 1)
  let m := shiftEntries lh (2 ^ 16) i m
  m.putWord (nk + 20) 4 (subKeyCount m nk + 0xffffffff)

/-- The status, and the image after the call.
Source: libnt/reg.c, reg_delete_key -/
def deleteKey (m : Mem) (parent key : ℕ) : Except RegErr Unit × Mem :=
  match parentLeaf m parent with
  | .error e => (.error e, m)
  | .ok lh =>
      match (List.range (indexCount m lh)).find? fun i => key = cellAddr (leafCell m lh i) with
      | some i => (.ok (), removeEntry m (keyBody parent) lh i)
      | none => (.error .fileNotFound, m)

/-! ## The writes -/

/-- An entry of an index: the cell and its hash.
Source: include/reg.h, CM_INDEX -/
def leafEntry (m : Mem) (lh i : ℕ) : ℕ × ℕ := (leafCell m lh i, m.word (lh + 4 + 8 * i + 4) 4)

/-- The entries of an index. -/
def leafEntries (m : Mem) (lh : ℕ) : List (ℕ × ℕ) := (List.range (indexCount m lh)).map (leafEntry m lh)

/-- A leaf has as many entries as it counts. -/
theorem leafEntries_length (m : Mem) (lh : ℕ) : (leafEntries m lh).length = indexCount m lh := by
  rw [leafEntries, List.length_map, List.length_range]

/-- They are its cells, with a hash each. -/
theorem leafEntries_map_fst (m : Mem) (lh : ℕ) :
    (leafEntries m lh).map Prod.fst = leafCells m lh := by
  rw [leafEntries, leafCells, List.map_map]
  rfl

/-- The loop is one move. -/
theorem shiftEntries_eq (lh n j : ℕ) (m : Mem) (hn : indexCount m lh - j ≤ n) :
    shiftEntries lh n j m =
      m.copy (lh + 4 + 8 * j) m (lh + 4 + 8 * (j + 1)) (8 * (indexCount m lh - j)) := by
  induction n generalizing j m with
  | zero => rw [shiftEntries, show indexCount m lh - j = 0 by omega, Nat.mul_zero, Mem.copy_zero]
  | succ n ih =>
      rw [shiftEntries]
      by_cases hj : j < indexCount m lh
      · have hcount : indexCount (m.copy (lh + 4 + 8 * j) m (lh + 4 + 8 * (j + 1)) 8) lh =
            indexCount m lh := by
          apply Mem.word_congr
          intro i hi
          rw [Mem.copy_of_not_mem _ _ _ (by omega)]
        -- the rounds to come read behind what this round has written
        have hrest : ∀ m₁ : Mem, m₁.copy (lh + 4 + 8 * (j + 1))
              (m.copy (lh + 4 + 8 * j) m (lh + 4 + 8 * (j + 1)) 8) (lh + 4 + 8 * (j + 1 + 1))
              (8 * (indexCount m lh - (j + 1))) =
            m₁.copy (lh + 4 + 8 * j + 8) m (lh + 4 + 8 * (j + 1) + 8)
              (8 * (indexCount m lh - (j + 1))) := by
          intro m₁
          rw [show lh + 4 + 8 * (j + 1) = lh + 4 + 8 * j + 8 by omega]
          apply Mem.copy_congr
          intro i _
          rw [Mem.copy_of_not_mem _ _ _ (by omega)]
          congr 1
        rw [if_pos hj, ih _ _ (by rw [hcount]; omega), hcount, hrest, Mem.copy_copy_append]
        congr 1
        omega
      · rw [if_neg hj, show indexCount m lh - j = 0 by omega, Nat.mul_zero, Mem.copy_zero]

/-- What `removeEntry` does to an index that lies apart from the parent's count of subkeys. -/
structure Removed (m m' : Mem) (nk lh i : ℕ) : Prop where
  entries : leafEntries m' lh = (leafEntries m lh).eraseIdx i
  count : subKeyCount m' nk = (subKeyCount m nk + 0xffffffff) % 2 ^ 32
  frame : ∀ x, (x < nk + 20 ∨ nk + 24 ≤ x) → (x < lh + 2 ∨ lh + 4 + 8 * indexCount m lh ≤ x) →
    m' x = m x

/-- **The removal of an entry**, if the leaf and the counter of the key are apart. -/
theorem removeEntry_spec {m : Mem} {nk lh i : ℕ} (hi : i < indexCount m lh)
    (hapart : nk + 24 ≤ lh ∨ lh + 4 + 8 * indexCount m lh ≤ nk + 20) :
    Removed m (removeEntry m nk lh i) nk lh i := by
  have hlt : indexCount m lh < 2 ^ 16 := by
    have h := Mem.word_lt m (lh + 2) 2
    rw [indexCount]
    omega
  obtain ⟨m₁, hm₁⟩ : ∃ m₁, m₁ = m.putWord (lh + 2) 2 (indexCount m lh - 1) := ⟨_, rfl⟩
  obtain ⟨m₂, hm₂⟩ : ∃ m₂, m₂ = m₁.copy (lh + 4 + 8 * i) m₁ (lh + 4 + 8 * (i + 1))
    (8 * (indexCount m lh - 1 - i)) := ⟨_, rfl⟩
  have hcount₁ : indexCount m₁ lh = indexCount m lh - 1 := by
    rw [hm₁, indexCount, Mem.word_putWord_self]
    omega
  have heq : removeEntry m nk lh i = m₂.putWord (nk + 20) 4 (subKeyCount m₂ nk + 0xffffffff) := by
    have h := shiftEntries_eq lh (2 ^ 16) i m₁ (by omega)
    rw [hcount₁, ← hm₂] at h
    rw [removeEntry, ← hm₁, h]
  -- each write, byte by byte
  have hout₁ : ∀ x, (x < lh + 2 ∨ lh + 4 ≤ x) → m₁ x = m x := by
    intro x hx
    rw [hm₁, Mem.putWord_of_not_mem _ (by omega)]
  have hout₂ : ∀ x, (x < lh + 4 + 8 * i ∨ lh + 4 + 8 * (indexCount m lh - 1) ≤ x) →
      m₂ x = m₁ x := by
    intro x hx
    rw [hm₂, Mem.copy_of_not_mem _ _ _ (by omega)]
  have hin₂ : ∀ x, lh + 4 + 8 * i ≤ x → x < lh + 4 + 8 * (indexCount m lh - 1) →
      m₂ x = m₁ (x + 8) := by
    intro x h₁ h₂
    rw [hm₂, Mem.copy_of_mem _ _ _ h₁ (by omega)]
    congr 1
    omega
  have hout : ∀ x, (x < nk + 20 ∨ nk + 24 ≤ x) → removeEntry m nk lh i x = m₂ x := by
    intro x hx
    rw [heq, Mem.putWord_of_not_mem _ (by omega)]
  have hframe : ∀ x, (x < nk + 20 ∨ nk + 24 ≤ x) →
      (x < lh + 2 ∨ lh + 4 + 8 * indexCount m lh ≤ x) → removeEntry m nk lh i x = m x := by
    intro x hx hx'
    rw [hout x hx, hout₂ x (by omega), hout₁ x (by omega)]
  have hindex : indexCount (removeEntry m nk lh i) lh = indexCount m lh - 1 := by
    rw [← hcount₁]
    apply Mem.word_congr
    intro j hj
    rw [hout _ (by omega), hout₂ _ (by omega)]
  have hentry : ∀ j < indexCount m lh - 1, ∀ o < 8,
      removeEntry m nk lh i (lh + 4 + 8 * j + o) =
        m (lh + 4 + 8 * (if j < i then j else j + 1) + o) := by
    intro j hj o ho
    rw [hout _ (by omega)]
    by_cases hji : j < i
    · rw [if_pos hji, hout₂ _ (by omega), hout₁ _ (by omega)]
    · rw [if_neg hji, hin₂ _ (by omega) (by omega), hout₁ _ (by omega)]
      congr 1
      omega
  refine ⟨?_, ?_, hframe⟩
  · apply List.ext_getElem
    · rw [List.length_eraseIdx_of_lt (by rw [leafEntries_length]; exact hi), leafEntries_length,
        leafEntries_length, hindex]
    · intro j h₁ h₂
      rw [leafEntries_length, hindex] at h₁
      have hword : ∀ o n, o + n ≤ 8 → (removeEntry m nk lh i).word (lh + 4 + 8 * j + o) n =
          m.word (lh + 4 + 8 * (if j < i then j else j + 1) + o) n := by
        intro o n hn
        apply Mem.word_congr
        intro x hx
        rw [Nat.add_assoc _ o x, Nat.add_assoc _ o x, hentry j h₁ _ (by omega)]
      have hleaf : leafEntry (removeEntry m nk lh i) lh j =
          leafEntry m lh (if j < i then j else j + 1) := by
        have hcell := hword 0 4 (by omega)
        simp only [Nat.add_zero] at hcell
        rw [leafEntry, leafEntry, leafCell, leafCell, hword 4 4 (by omega), hcell]
      rw [List.getElem_eraseIdx]
      simp only [leafEntries, List.getElem_map, List.getElem_range, hleaf]
      by_cases hji : j < i
      · rw [if_pos hji, dif_pos hji]
      · rw [if_neg hji, dif_neg hji]
  · have hcount₂ : subKeyCount m₂ nk = subKeyCount m nk := by
      apply Mem.word_congr
      intro j hj
      rw [hout₂ _ (by omega), hout₁ _ (by omega)]
    rw [heq, subKeyCount, Mem.word_putWord_self, hcount₂]
    norm_num

/-! ## Deletion in a tree -/

/-- A call that fails changes nothing. -/
theorem deleteKey_error {m : Mem} {parent key : ℕ} {e : RegErr}
    (h : (deleteKey m parent key).1 = .error e) : (deleteKey m parent key).2 = m := by
  rw [deleteKey] at h ⊢
  rcases hleaf : parentLeaf m parent with e' | lh
  · rfl
  · rw [hleaf] at h
    dsimp only at h ⊢
    rcases hfind : (List.range (indexCount m lh)).find? fun i => key = cellAddr (leafCell m lh i)
      with _ | i
    · rfl
    · rw [hfind] at h
      cases h

/-- A call that succeeds removes the first entry with the key. -/
theorem deleteKey_ok {m : Mem} {parent key : ℕ} (h : (deleteKey m parent key).1 = .ok ()) :
    ∃ lh i, parentLeaf m parent = .ok lh ∧ i < indexCount m lh ∧
      cellAddr (leafCell m lh i) = key ∧
      (deleteKey m parent key).2 = removeEntry m (keyBody parent) lh i := by
  rw [deleteKey] at h ⊢
  rcases hleaf : parentLeaf m parent with e | lh
  · rw [hleaf] at h
    cases h
  · rw [hleaf] at h
    dsimp only at h ⊢
    rcases hfind : (List.range (indexCount m lh)).find? fun i => key = cellAddr (leafCell m lh i)
      with _ | i
    · rw [hfind] at h
      cases h
    · have hi := List.mem_range.mp (List.mem_of_find?_eq_some hfind)
      have hkey := List.find?_some hfind
      exact ⟨lh, i, rfl, hi, (of_decide_eq_true hkey).symm, rfl⟩

section Step

variable {keys : Set ℕ} {m m' : Mem} {p i : ℕ}

/-- What a successful deletion in a tree does: the entry `i` of the index of the key `p` goes. -/
structure Deleted (keys : Set ℕ) (m m' : Mem) (p i : ℕ) : Prop where
  node : ∀ k ∈ keys, SameNode m m' k
  count : subKeyCount m' (keyBody p) = subKeyCount m (keyBody p) - 1
  count_of_ne : ∀ k ∈ keys, k ≠ p → subKeyCount m' (keyBody k) = subKeyCount m (keyBody k)
  entries : leafEntries m' (keyBody (indexAddr m p)) =
    (leafEntries m (keyBody (indexAddr m p))).eraseIdx i
  leaf : checkLeaf m' (indexAddr m p) (keyBody (indexAddr m p)) = .ok ()
  indexSize : getInt32Size m' (indexAddr m p) = getInt32Size m (indexAddr m p)
  index_of_ne : ∀ k ∈ keys, k ≠ p → subKeyCount m (keyBody k) ≠ 0 →
    getInt32Size m' (indexAddr m k) = getInt32Size m (indexAddr m k) ∧
      checkLeaf m' (indexAddr m k) (keyBody (indexAddr m k)) = .ok () ∧
      indexCount m' (keyBody (indexAddr m k)) = indexCount m (keyBody (indexAddr m k)) ∧
      leafCells m' (keyBody (indexAddr m k)) = leafCells m (keyBody (indexAddr m k))

/-- The entry that goes, and the bytes that are written: the count of the key, and the contents of its
index. -/
theorem KeyTree.removed (ht : KeyTree keys m) (hp : p ∈ keys)
    (hcount : subKeyCount m (keyBody p) ≠ 0) (hi : i < indexCount m (keyBody (indexAddr m p)))
    (hm' : m' = removeEntry m (keyBody p) (keyBody (indexAddr m p)) i) :
    Removed m m' (keyBody p) (keyBody (indexAddr m p)) i ∧
      ∀ x, (x < p + 24 ∨ p + 28 ≤ x) →
        (x < indexAddr m p + 6 ∨ indexAddr m p + getInt32Size m (indexAddr m p) ≤ x) →
        m' x = m x := by
  have hindex := ht.index p hp hcount
  obtain ⟨-, hroom, -⟩ := checkLeaf_ok_iff.mp hindex.leaf
  obtain ⟨-, hnodesize, -⟩ := checkNode_ok_iff.mp (ht.node p hp)
  have hself := ht.node_index p hp p hp hcount
  simp only [Apart, nodeSpan, indexSpan] at hself
  have hnk : keyBody p = p + 4 := rfl
  have hlh : keyBody (indexAddr m p) = indexAddr m p + 4 := rfl
  have hremoved := @removeEntry_spec _ (keyBody p) _ _ hi (by omega)
  rw [← hm'] at hremoved
  exact ⟨hremoved, fun x hx hx' => hremoved.frame x (by omega) (by omega)⟩

/-- The writes of a deletion in a tree. -/
theorem KeyTree.deleted (ht : KeyTree keys m) (hp : p ∈ keys)
    (hcount : subKeyCount m (keyBody p) ≠ 0)
    (hi : i < indexCount m (keyBody (indexAddr m p))) :
    Deleted keys m (removeEntry m (keyBody p) (keyBody (indexAddr m p)) i) p i := by
  have hindex := ht.index p hp hcount
  obtain ⟨hneg, hroom, hsig⟩ := checkLeaf_ok_iff.mp hindex.leaf
  obtain ⟨-, hnodesize, -⟩ := checkNode_ok_iff.mp (ht.node p hp)
  have hself := ht.node_index p hp p hp hcount
  simp only [Apart, nodeSpan, indexSpan] at hself
  obtain ⟨m', hm'⟩ : ∃ m', m' = removeEntry m (keyBody p) (keyBody (indexAddr m p)) i := ⟨_, rfl⟩
  obtain ⟨hremoved, hframe⟩ := ht.removed hp hcount hi hm'
  rw [← hm']
  have hword : ∀ o n, o + n ≤ 6 →
      m'.word (indexAddr m p + o) n = m.word (indexAddr m p + o) n := by
    intro o n ho
    apply Mem.word_congr
    intro x hx
    exact hframe _ (by omega) (by omega)
  have hsize : getInt32Size m' (indexAddr m p) = getInt32Size m (indexAddr m p) := by
    have hzero := hword 0 4 (by omega)
    rw [Nat.add_zero] at hzero
    exact getInt32Size_congr hzero
  have hsignature : indexSignature m' (keyBody (indexAddr m p)) =
      indexSignature m (keyBody (indexAddr m p)) := hword 4 2 (by omega)
  have hother : ∀ k ∈ keys, k ≠ p → ∀ x, k ≤ x → x < k + getInt32Size m k → m' x = m x := by
    intro k hk hne x h₁ h₂
    have hnodes := ht.node_node k hk p hp hne
    have hnode := ht.node_index k hk p hp hcount
    simp only [Apart, nodeSpan, indexSpan] at hnodes hnode
    exact hframe x (by omega) (by omega)
  refine ⟨?_, ?_, ?_, hremoved.entries, ?_, hsize, ?_⟩
  · intro k hk
    apply node_congr (ht.node k hk)
    intro x h₁ h₂ h₃
    rcases eq_or_ne k p with rfl | hne
    · exact hframe x (by omega) (by omega)
    · exact hother k hk hne x h₁ h₂
  · have hlt := word4_lt m (keyBody p + 20)
    have hcount' : subKeyCount m (keyBody p) < 2 ^ 32 := hlt
    rw [hremoved.count]
    omega
  · intro k hk hne
    obtain ⟨-, hk80, -⟩ := checkNode_ok_iff.mp (ht.node k hk)
    apply subKeyCount_congr
    intro x h₁ h₂
    exact hother k hk hne x (by omega) (by omega)
  · have hlength := leafEntries_length m' (keyBody (indexAddr m p))
    rw [hremoved.entries, List.length_eraseIdx_of_lt (by rw [leafEntries_length]; exact hi),
      leafEntries_length] at hlength
    rw [checkLeaf_ok_iff, hsize, isLeaf, hsignature]
    exact ⟨hneg, by omega, hsig⟩
  · intro k hk hne hk0
    apply index_congr (ht.index k hk hk0).leaf
    intro x h₁ h₂
    have hnode := ht.node_index p hp k hk hk0
    have hindexes := ht.index_index k hk p hp hne hk0 hcount
    simp only [Apart, nodeSpan, indexSpan] at hnode hindexes
    exact hframe x (by omega) (by omega)

/-! ### The lists after a deletion -/

/-- The subkeys of a key are the entries of its leaf. -/
theorem childKeys_map (m : Mem) (k : ℕ) (h : subKeyCount m (keyBody k) ≠ 0) :
    childKeys m k = (leafEntries m (keyBody (indexAddr m k))).map fun e => cellAddr e.1 := by
  rw [childKeys_of_ne h, ← leafEntries_map_fst, List.map_map]
  rfl

/-- The leaf of every key is where it was. -/
theorem Deleted.indexAddr_eq (hd : Deleted keys m m' p i) {k : ℕ} (hk : k ∈ keys) :
    indexAddr m' k = indexAddr m k := by
  rw [indexAddr, indexAddr, (hd.node k hk).list]

/-- Other keys keep their subkeys. -/
theorem Deleted.childKeys_of_ne (hd : Deleted keys m m' p i) {k : ℕ} (hk : k ∈ keys)
    (hne : k ≠ p) : childKeys m' k = childKeys m k := by
  by_cases hk0 : subKeyCount m (keyBody k) = 0
  · rw [childKeys, childKeys, if_pos hk0, if_pos (by rw [hd.count_of_ne k hk hne, hk0])]
  · rw [childKeys, childKeys, if_neg hk0, if_neg (by rw [hd.count_of_ne k hk hne]; exact hk0),
      hd.indexAddr_eq hk, (hd.index_of_ne k hk hne hk0).2.2.2]

/-- The entry goes, and the order of the others is kept. -/
theorem Deleted.childKeys_self (ht : KeyTree keys m) (hd : Deleted keys m m' p i) (hp : p ∈ keys)
    (hcount : subKeyCount m (keyBody p) ≠ 0) (hi : i < indexCount m (keyBody (indexAddr m p))) :
    childKeys m' p = (childKeys m p).eraseIdx i := by
  have hindex := (ht.index p hp hcount).count
  have hcount' := hd.count
  by_cases hlast : subKeyCount m' (keyBody p) = 0
  · have hnil : (childKeys m p).eraseIdx i = [] := by
      rw [List.eraseIdx_eq_nil_iff, childKeys_map m p hcount, List.length_map, leafEntries_length]
      omega
    rw [childKeys, if_pos hlast, hnil]
  · rw [childKeys_map m' p hlast, childKeys_map m p hcount, hd.indexAddr_eq hp, hd.entries,
      List.eraseIdx_map]

/-- Names are kept. -/
theorem Deleted.map_name (hd : Deleted keys m m' p i) {cs : List ℕ} (hcs : ∀ c ∈ cs, c ∈ keys) :
    (cs.map fun c => (c, nodeName m' (keyBody c))) =
      cs.map fun c => (c, nodeName m (keyBody c)) := by
  apply List.map_congr_left
  intro c hc
  rw [(hd.node c (hcs c hc)).name]

/-- The subkeys of every key after a deletion. -/
theorem Deleted.subkeys_of_ne (ht : KeyTree keys m) (hd : Deleted keys m m' p i) {k : ℕ}
    (hk : k ∈ keys) (hne : k ≠ p) : subkeys m' k = subkeys m k := by
  rw [subkeys, subkeys, hd.childKeys_of_ne hk hne, hd.map_name (ht.closed k hk)]

/-- The parent loses one. -/
theorem Deleted.subkeys_self (ht : KeyTree keys m) (hd : Deleted keys m m' p i) (hp : p ∈ keys)
    (hcount : subKeyCount m (keyBody p) ≠ 0) (hi : i < indexCount m (keyBody (indexAddr m p))) :
    subkeys m' p = (subkeys m p).eraseIdx i := by
  rw [subkeys, subkeys, hd.childKeys_self ht hp hcount hi,
    hd.map_name fun c hc => ht.closed p hp c (List.mem_of_mem_eraseIdx hc), List.eraseIdx_map]

/-- A key that has subkeys had some before. -/
theorem Deleted.count_ne (hd : Deleted keys m m' p i) {k : ℕ} (hk : k ∈ keys)
    (h : subKeyCount m' (keyBody k) ≠ 0) : subKeyCount m (keyBody k) ≠ 0 := by
  rcases eq_or_ne k p with rfl | hne
  · have hcount := hd.count
    omega
  · rwa [← hd.count_of_ne k hk hne]

/-- Keys keep their cells, -/
theorem Deleted.nodeSpan_eq (hd : Deleted keys m m' p i) {k : ℕ} (hk : k ∈ keys) :
    nodeSpan m' k = nodeSpan m k := by
  rw [nodeSpan, nodeSpan, (hd.node k hk).size]

/-- and so do leaves. -/
theorem Deleted.indexSpan_eq (hd : Deleted keys m m' p i) {k : ℕ} (hk : k ∈ keys)
    (hk0 : subKeyCount m (keyBody k) ≠ 0) : indexSpan m' k = indexSpan m k := by
  rw [indexSpan, indexSpan, hd.indexAddr_eq hk]
  rcases eq_or_ne k p with rfl | hne
  · rw [hd.indexSize]
  · rw [(hd.index_of_ne k hk hne hk0).1]

/-- The tree after a deletion. -/
theorem Deleted.keyTree (ht : KeyTree keys m) (hd : Deleted keys m m' p i) (hp : p ∈ keys)
    (hcount : subKeyCount m (keyBody p) ≠ 0) (hi : i < indexCount m (keyBody (indexAddr m p))) :
    KeyTree keys m' where
  addr := ht.addr
  node k hk := by rw [(hd.node k hk).check, ht.node k hk]
  index k hk hk0 := by
    have hindex := ht.index k hk (hd.count_ne hk hk0)
    rcases eq_or_ne k p with rfl | hne
    · have hlength := leafEntries_length m' (keyBody (indexAddr m k))
      rw [hd.entries, List.length_eraseIdx_of_lt (by rw [leafEntries_length]; exact hi),
        leafEntries_length] at hlength
      refine ⟨?_, ?_, ?_, ?_⟩
      · rw [(hd.node k hk).list]
        exact hindex.list
      · rw [hd.indexAddr_eq hk]
        exact hindex.addr
      · rw [hd.indexAddr_eq hk]
        exact hd.leaf
      · rw [hd.indexAddr_eq hk, ← hlength, hd.count, hindex.count]
    · obtain ⟨-, hleaf, hentries, -⟩ := hd.index_of_ne k hk hne (hd.count_ne hk hk0)
      refine ⟨?_, ?_, ?_, ?_⟩
      · rw [(hd.node k hk).list]
        exact hindex.list
      · rw [hd.indexAddr_eq hk]
        exact hindex.addr
      · rw [hd.indexAddr_eq hk]
        exact hleaf
      · rw [hd.indexAddr_eq hk, hentries, hd.count_of_ne k hk hne, hindex.count]
  closed k hk c hc := by
    rcases eq_or_ne k p with rfl | hne
    · rw [hd.childKeys_self ht hp hcount hi] at hc
      exact ht.closed k hk c (List.mem_of_mem_eraseIdx hc)
    · rw [hd.childKeys_of_ne hk hne] at hc
      exact ht.closed k hk c hc
  distinct k hk := by
    rcases eq_or_ne k p with rfl | hne
    · rw [hd.subkeys_self ht hp hcount hi]
      exact (ht.distinct k hk).sublist (List.eraseIdx_sublist _ _)
    · rw [hd.subkeys_of_ne ht hk hne]
      exact ht.distinct k hk
  node_node k hk k' hk' hne := by
    rw [hd.nodeSpan_eq hk, hd.nodeSpan_eq hk']
    exact ht.node_node k hk k' hk' hne
  node_index k hk k' hk' hk0 := by
    rw [hd.nodeSpan_eq hk, hd.indexSpan_eq hk' (hd.count_ne hk' hk0)]
    exact ht.node_index k hk k' hk' (hd.count_ne hk' hk0)
  index_index k hk k' hk' hne hk0 hk0' := by
    rw [hd.indexSpan_eq hk (hd.count_ne hk hk0), hd.indexSpan_eq hk' (hd.count_ne hk' hk0')]
    exact ht.index_index k hk k' hk' hne (hd.count_ne hk hk0) (hd.count_ne hk' hk0')

/-! ### Lookups after a deletion -/

/-- The subkeys of a key of the tree are listed once. -/
theorem KeyTree.eq_of_fst_eq {k : ℕ} {c d : ℕ × List UInt16} (hc : c ∈ subkeys m k)
    (hd : d ∈ subkeys m k) (h : d.1 = c.1) : d = c := by
  obtain ⟨c', -, rfl⟩ := List.mem_map.mp hc
  obtain ⟨d', -, rfl⟩ := List.mem_map.mp hd
  dsimp only at h
  rw [h]

/-- Taking out the entry of a number is taking out the entries of its key. -/
theorem eraseIdx_eq_filter {cs : List (ℕ × List UInt16)} (hnodup : (cs.map Prod.fst).Nodup) {i : ℕ}
    (hi : i < cs.length) : cs.eraseIdx i = cs.filter fun c => c.1 ≠ cs[i].1 := by
  induction cs generalizing i with
  | nil => cases hi
  | cons c cs ih =>
      rw [List.map_cons, List.nodup_cons] at hnodup
      cases i with
      | zero =>
          rw [List.eraseIdx_cons_zero, List.getElem_cons_zero, List.filter_cons_of_neg (by simp),
            List.filter_eq_self.mpr]
          intro d hd
          simp only [ne_eq, decide_eq_true_eq]
          intro heq
          exact hnodup.1 (List.mem_map.mpr ⟨d, hd, heq⟩)
      | succ i =>
          have hi' : i < cs.length := by simpa using hi
          have hne : c.1 ≠ cs[i].1 := fun heq =>
            hnodup.1 (List.mem_map.mpr ⟨cs[i], List.getElem_mem hi', heq.symm⟩)
          rw [List.eraseIdx_cons_succ, List.getElem_cons_succ, List.filter_cons_of_pos (by simpa using hne),
            ih hnodup.2 hi']

/-- No subkey is listed twice. -/
theorem KeyTree.nodup_subkeys (ht : KeyTree keys m) {k : ℕ} (hk : k ∈ keys) :
    ((subkeys m k).map Prod.fst).Nodup := by
  have hdistinct := ht.distinct k hk
  rw [List.Nodup, List.pairwise_map]
  rw [Subkeys.Distinct, subkeys, List.pairwise_map] at hdistinct
  rw [subkeys, List.pairwise_map]
  refine hdistinct.imp fun hname heq => ?_
  dsimp only at heq
  exact hname (by rw [heq])

end Step

/-- **Deletion in an image is deletion in the lists**: it keeps the tree, and takes the subkey out of
its parent's list. -/
theorem KeyTree.deleteKey_ok {keys : Set ℕ} {m : Mem} {parent key : ℕ} (ht : KeyTree keys m)
    (hp : parent ∈ keys) (h : (deleteKey m parent key).1 = .ok ()) :
    ∃ i, i < (subkeys m parent).length ∧
      ((subkeys m parent)[i]?).map Prod.fst = some key ∧
      Deleted keys m (deleteKey m parent key).2 parent i ∧
      KeyTree keys (deleteKey m parent key).2 ∧
      ∀ k ∈ keys, subkeys (deleteKey m parent key).2 k = (subkeys m).delete parent key k := by
  obtain ⟨lh, i, hleaf, hi, hkey, heq⟩ := Reg.deleteKey_ok h
  have hcount := (parentLeaf_ok_iff.mp hleaf).2.1
  rw [ht.parentLeaf_eq hp hcount] at hleaf
  cases hleaf
  have hd := ht.deleted hp hcount hi
  rw [← heq] at hd
  have hlength : (subkeys m parent).length = indexCount m (keyBody (indexAddr m parent)) := by
    rw [subkeys, List.length_map, childKeys_map m parent hcount, List.length_map, leafEntries_length]
  have hi' : i < (subkeys m parent).length := by omega
  have hget : (subkeys m parent)[i].1 = key := by
    simp only [subkeys, childKeys_of_ne hcount, leafCells, List.getElem_map, List.getElem_range]
    exact hkey
  refine ⟨i, hi', ?_, hd, hd.keyTree ht hp hcount hi, fun k hk => ?_⟩
  · rw [List.getElem?_eq_getElem hi', Option.map_some, hget]
  · rcases eq_or_ne k parent with rfl | hne
    · rw [hd.subkeys_self ht hp hcount hi, Subkeys.delete, Function.update_self,
        eraseIdx_eq_filter (ht.nodup_subkeys hp) hi', hget]
    · rw [hd.subkeys_of_ne ht hk hne, Subkeys.delete, Function.update_of_ne hne]

/-- The entries of a parent key. -/
def parentEntries (m : Mem) (parent : ℕ) : List (ℕ × ℕ) := leafEntries m (keyBody (indexAddr m parent))

/-- What one call of `reg_delete_key` does to the image `m`. -/
structure DeleteExact (keys : Set ℕ) (m m' : Mem) (parent key : ℕ) (status : Except RegErr Unit) :
    Prop where
  /-- A call that fails changes nothing. -/
  failed : ∀ e, status = .error e → m' = m
  /-- One entry, that of the key, goes, and both counters are the length of the list. -/
  removed : status = .ok () → ∃ i,
    ((parentEntries m parent)[i]?).map (fun e => cellAddr e.1) = some key ∧
      parentEntries m' parent = (parentEntries m parent).eraseIdx i ∧
      indexCount m' (keyBody (indexAddr m' parent)) = ((parentEntries m parent).eraseIdx i).length ∧
      subKeyCount m' (keyBody parent) = ((parentEntries m parent).eraseIdx i).length
  /-- The name is not found any more. -/
  gone : status = .ok () → ∀ name, backslash ∉ name → sameName name (nodeName m (keyBody key)) →
    findKey m' parent name = .error .fileNotFound
  /-- Every other name is found as before, under every parent. -/
  kept : status = .ok () → ∀ q ∈ keys, ∀ name, backslash ∉ name →
    ¬(q = parent ∧ sameName name (nodeName m (keyBody key))) → findKey m' q name = findKey m q name

/-- Lookups depend on the lists only. -/
theorem findKey_eq_of_find_eq {keys : Set ℕ} {m m' : Mem} (ht : KeyTree keys m)
    (ht' : KeyTree keys m') {q : ℕ} (hq : q ∈ keys) {name : List UInt16} (hname : backslash ∉ name)
    (h : (subkeys m').find q name = (subkeys m).find q name) : findKey m' q name = findKey m q name := by
  rw [findKey_component m' q hname, findKey_component m q hname, ht'.findChildKey_eq hq,
    ht.findChildKey_eq hq, h]

/-- The keys of the listed subkeys. -/
theorem subkeys_map_fst (m : Mem) (k : ℕ) : (subkeys m k).map Prod.fst = childKeys m k := by
  rw [subkeys, List.map_map]
  exact List.map_id _

/-- A subkey is listed with its name. -/
theorem mem_subkeys {m : Mem} {k c : ℕ} (h : c ∈ childKeys m k) :
    (c, nodeName m (keyBody c)) ∈ subkeys m k := List.mem_map_of_mem h

/-- **A deletion in a tree of keys is exact.** -/
theorem KeyTree.deleteExact {keys : Set ℕ} {m : Mem} {parent key : ℕ} (ht : KeyTree keys m)
    (hp : parent ∈ keys) :
    DeleteExact keys m (deleteKey m parent key).2 parent key (deleteKey m parent key).1 := by
  refine ⟨fun e => deleteKey_error, fun hok => ?_, fun hok name hsep hname => ?_,
    fun hok q hq name hsep hother => ?_⟩
  all_goals
    obtain ⟨i, hi, hkey, hd, ht', hsubkeys⟩ := ht.deleteKey_ok hp hok
    rw [← List.getElem?_map, subkeys_map_fst] at hkey
    have hmem : key ∈ childKeys m parent := List.mem_of_getElem? hkey
  · have hcount : subKeyCount m (keyBody parent) ≠ 0 := by
      intro h0
      rw [childKeys, if_pos h0] at hmem
      cases hmem
    have hentries : parentEntries (deleteKey m parent key).2 parent =
        (parentEntries m parent).eraseIdx i := by
      rw [parentEntries, hd.indexAddr_eq hp, hd.entries, parentEntries]
    have hlength : (parentEntries m parent).length = subKeyCount m (keyBody parent) := by
      rw [parentEntries, leafEntries_length, (ht.index parent hp hcount).count]
    have hi' : i < (parentEntries m parent).length := by
      rwa [subkeys, List.length_map, childKeys_map m parent hcount, List.length_map] at hi
    refine ⟨i, ?_, hentries, ?_, ?_⟩
    · rw [← List.getElem?_map, parentEntries, ← childKeys_map m parent hcount]
      exact hkey
    · rw [← hentries, parentEntries, leafEntries_length]
    · rw [List.length_eraseIdx_of_lt hi', hlength, hd.count]
  · have hfind := Subkeys.find_delete_self (ht.distinct parent hp) (mem_subkeys hmem) hname
    rw [findKey_component _ parent hsep, ht'.findChildKey_eq hp, Subkeys.find, hsubkeys parent hp,
      ← Subkeys.find, hfind]
  · apply findKey_eq_of_find_eq ht ht' hq hsep
    rw [Subkeys.find, hsubkeys q hq, ← Subkeys.find]
    rcases eq_or_ne q parent with rfl | hne
    · exact Subkeys.find_delete_of_not_sameName (ht.distinct q hp)
        (c := (key, nodeName m (keyBody key))) (fun d hd' h => KeyTree.eq_of_fst_eq (mem_subkeys hmem) hd' h)
        fun hname => hother ⟨rfl, hname⟩
    · exact Subkeys.find_delete_of_ne _ hne name

/-! ## Sequences of calls -/

/-- The images and the handles after a sequence of lookups and deletions: a parent is the root key or
what a lookup before has found, the key to delete is any. -/
inductive DeleteRun (m₀ : Mem) (root : ℕ) : Mem → Set ℕ → Prop
  | start : DeleteRun m₀ root m₀ {root}
  | find {m : Mem} {handles : Set ℕ} {parent key : ℕ} {path : List UInt16}
      (run : DeleteRun m₀ root m handles) (hparent : parent ∈ handles)
      (found : findKey m parent path = .ok key) : DeleteRun m₀ root m (insert key handles)
  | delete {m : Mem} {handles : Set ℕ} {parent : ℕ} (key : ℕ)
      (run : DeleteRun m₀ root m handles) (hparent : parent ∈ handles) :
      DeleteRun m₀ root (deleteKey m parent key).2 handles

/-- A sequence of calls keeps the tree, and finds keys of the tree only. -/
theorem DeleteRun.keyTree {keys handles : Set ℕ} {m₀ m : Mem} {root : ℕ} (ht : KeyTree keys m₀)
    (hroot : root ∈ keys) (hrun : DeleteRun m₀ root m handles) :
    KeyTree keys m ∧ handles ⊆ keys := by
  induction hrun with
  | start => exact ⟨ht, Set.singleton_subset_iff.mpr hroot⟩
  | find _ hparent found ih =>
      exact ⟨ih.1, Set.insert_subset (ih.1.findKey_mem (ih.2 hparent) found) ih.2⟩
  | @delete m handles parent key _ hparent ih =>
      refine ⟨?_, ih.2⟩
      rcases hstatus : (deleteKey m parent key).1 with e | u
      · rw [deleteKey_error hstatus]
        exact ih.1
      · obtain ⟨-, -, -, -, ht', -⟩ := ih.1.deleteKey_ok (ih.2 hparent) hstatus
        exact ht'

/-- **Deletion is exact over any sequence**: every call of a sequence of lookups and deletions takes
out the entry of its key and nothing else. -/
theorem deleteRun_exact {keys handles : Set ℕ} {m₀ m : Mem} {root parent : ℕ}
    (ht : KeyTree keys m₀) (hroot : root ∈ keys) (hrun : DeleteRun m₀ root m handles)
    (hparent : parent ∈ handles) (key : ℕ) :
    DeleteExact keys m (deleteKey m parent key).2 parent key (deleteKey m parent key).1 := by
  obtain ⟨htree, hhandles⟩ := hrun.keyTree ht hroot
  exact htree.deleteExact (hhandles hparent)

/-- A key at 0x1020 with the subkeys `A` to `D` in a leaf, and a subkey `E` of `A` in another. -/
def branchImage : Mem :=
  image [(0x1020, 4, 2 ^ 32 - 96), (0x1024, 2, keyNodeSignature), (0x1038, 4, 4), (0x1040, 4, 0x80),
    (0x1080, 4, 2 ^ 32 - 40), (0x1084, 2, keyFastLeaf), (0x1086, 2, 4), (0x1088, 4, 0xc0),
    (0x1090, 4, 0x120), (0x1098, 4, 0x180), (0x10a0, 4, 0x1e0),
    -- the keys A to D
    (0x10c0, 4, 2 ^ 32 - 96), (0x10c4, 2, keyNodeSignature), (0x10c6, 2, 0x20), (0x10d8, 4, 1),
    (0x10e0, 4, 0x2a0), (0x110c, 2, 1), (0x1110, 1, 0x41),
    (0x1120, 4, 2 ^ 32 - 96), (0x1124, 2, keyNodeSignature), (0x1126, 2, 0x20), (0x116c, 2, 1),
    (0x1170, 1, 0x42),
    (0x1180, 4, 2 ^ 32 - 96), (0x1184, 2, keyNodeSignature), (0x1186, 2, 0x20), (0x11cc, 2, 1),
    (0x11d0, 1, 0x43),
    (0x11e0, 4, 2 ^ 32 - 96), (0x11e4, 2, keyNodeSignature), (0x11e6, 2, 0x20), (0x122c, 2, 1),
    (0x1230, 1, 0x44),
    -- the key E and the leaf of A
    (0x1240, 4, 2 ^ 32 - 96), (0x1244, 2, keyNodeSignature), (0x1246, 2, 0x20), (0x128c, 2, 1),
    (0x1290, 1, 0x45), (0x12a0, 4, 2 ^ 32 - 16), (0x12a4, 2, keyFastLeaf), (0x12a6, 2, 1),
    (0x12a8, 4, 0x240)]

/-- Its keys. -/
def branchKeys : List ℕ := [0x1020, 0x10c0, 0x1120, 0x1180, 0x11e0, 0x1240]

/-- The keys of `branchImage` are a tree of keys. -/
theorem keyTree_branchImage : KeyTree {k | k ∈ branchKeys} branchImage where
  addr := by
    have h : ∀ k ∈ branchKeys, 0x1000 ≤ k := by decide
    exact h
  node := by
    have h : ∀ k ∈ branchKeys, checkNode branchImage k (keyBody k) = .ok () := by decide +kernel
    exact h
  index := by
    have h : ∀ k ∈ branchKeys, subKeyCount branchImage (keyBody k) ≠ 0 →
        subKeyList branchImage (keyBody k) ≠ noCell ∧ 0x1000 ≤ indexAddr branchImage k ∧
          checkLeaf branchImage (indexAddr branchImage k) (keyBody (indexAddr branchImage k)) = .ok () ∧
          indexCount branchImage (keyBody (indexAddr branchImage k)) =
            subKeyCount branchImage (keyBody k) := by
      decide +kernel
    intro k hk hcount
    obtain ⟨h₁, h₂, h₃, h₄⟩ := h k hk hcount
    exact ⟨h₁, h₂, h₃, h₄⟩
  closed := by
    have h : ∀ k ∈ branchKeys, ∀ c ∈ childKeys branchImage k, c ∈ branchKeys := by decide +kernel
    exact h
  distinct := by
    have h : ∀ k ∈ branchKeys, Subkeys.Distinct (subkeys branchImage k) := by decide +kernel
    exact h
  node_node := by
    have h : ∀ k ∈ branchKeys, ∀ k' ∈ branchKeys, k ≠ k' →
        Apart (nodeSpan branchImage k) (nodeSpan branchImage k') := by
      decide +kernel
    exact h
  node_index := by
    have h : ∀ k ∈ branchKeys, ∀ k' ∈ branchKeys, subKeyCount branchImage (keyBody k') ≠ 0 →
        Apart (nodeSpan branchImage k) (indexSpan branchImage k') := by
      decide +kernel
    exact h
  index_index := by
    have h : ∀ k ∈ branchKeys, ∀ k' ∈ branchKeys, k ≠ k' →
        subKeyCount branchImage (keyBody k) ≠ 0 → subKeyCount branchImage (keyBody k') ≠ 0 →
        Apart (indexSpan branchImage k) (indexSpan branchImage k') := by
      decide +kernel
    exact h

/-- `A` is found, `E` is deleted below it and `B` below the root key; then `D` is deleted. -/
theorem deleteRun_exact_branch :
    let m₁ := (deleteKey branchImage 0x10c0 0x1240).2
    let m₂ := (deleteKey m₁ 0x1020 0x1120).2
    (deleteKey branchImage 0x10c0 0x1240).1 = .ok () ∧ (deleteKey m₁ 0x1020 0x1120).1 = .ok () ∧
      (deleteKey m₂ 0x1020 0x11e0).1 = .ok () ∧
      DeleteExact {k | k ∈ branchKeys} m₂ (deleteKey m₂ 0x1020 0x11e0).2 0x1020 0x11e0
        (deleteKey m₂ 0x1020 0x11e0).1 := by
  intro m₁ m₂
  have hfound : findKey branchImage 0x1020 [0x61] = .ok 0x10c0 := by decide +kernel
  have hroot : 0x1020 ∈ insert 0x10c0 {0x1020} := Set.mem_insert_of_mem 0x10c0 rfl
  have hrun : DeleteRun branchImage 0x1020 m₂ (insert 0x10c0 {0x1020}) :=
    ((DeleteRun.start.find rfl hfound).delete 0x1240 (Set.mem_insert _ _)).delete 0x1120 hroot
  exact ⟨by decide +kernel, by decide +kernel, by decide +kernel,
    deleteRun_exact keyTree_branchImage (by decide) hrun hroot 0x11e0⟩

end Ntloader.Reg
