import Ntloader.Reg.Lookup

/-!
# Trees of keys

What a hive is for: every key has a list of named subkeys. In a hive whose cells do not overlap the
lookups of the image are the lookups in these lists.

* `Subkeys`, `Subkeys.find`, `Subkeys.delete` — the lists of subkeys, without an image.
* `KeyTree` — a set of keys whose nodes and indexes are sound and lie apart.
* `subkeys` — the lists of an image; `KeyTree.findChildKey_eq` — its lookups are theirs.
* `node_congr`, `index_congr` — what is read of a cell depends on the bytes of the cell.

Scope: the cells of keys and of their indexes. A hive has other cells too, which lookups do not read.
-/

namespace Ntloader.Reg

open Ntloader.Lib

/-! ## Lists of subkeys -/

/-- The subkeys of every key, in the order of the index: the key and its name. -/
abbrev Subkeys := ℕ → List (ℕ × List UInt16)

namespace Subkeys

/-- The subkey of a name. -/
def find (t : Subkeys) (parent : ℕ) (name : List UInt16) : Option ℕ :=
  ((t parent).find? fun c => sameName c.2 name).map Prod.fst

/-- The lists without a subkey of a parent. -/
def delete (t : Subkeys) (parent key : ℕ) : Subkeys :=
  Function.update t parent ((t parent).filter fun c => c.1 ≠ key)

/-- No two of the subkeys have the same name. -/
def Distinct (cs : List (ℕ × List UInt16)) : Prop := cs.Pairwise fun c d => ¬sameName c.2 d.2

instance (cs : List (ℕ × List UInt16)) : Decidable (Distinct cs) :=
  inferInstanceAs (Decidable (List.Pairwise _ _))

/-- Of subkeys with distinct names, two with the same name are one. -/
theorem Distinct.eq_of_sameName {cs : List (ℕ × List UInt16)} (h : Distinct cs)
    {c d : ℕ × List UInt16} (hc : c ∈ cs) (hd : d ∈ cs) (hname : sameName c.2 d.2) : c = d := by
  have hsymm : Std.Symm fun c d : ℕ × List UInt16 => ¬sameName c.2 d.2 :=
    ⟨fun _ _ hcd hdc => hcd (sameName_symm hdc)⟩
  by_contra hne
  exact h.forall hc hd hne hname

/-- In a list of distinct names, what is found is what has the name. -/
theorem Distinct.find?_eq_some_iff {cs : List (ℕ × List UInt16)} (h : Distinct cs)
    {name : List UInt16} {c : ℕ × List UInt16} :
    cs.find? (fun c => sameName c.2 name) = some c ↔ c ∈ cs ∧ sameName c.2 name := by
  constructor
  · intro hc
    exact ⟨List.mem_of_find?_eq_some hc, by simpa using List.find?_some hc⟩
  · rintro ⟨hc, hname⟩
    have hsome : (cs.find? fun c => sameName c.2 name).isSome := by
      rw [List.find?_isSome]
      exact ⟨c, hc, decide_eq_true hname⟩
    obtain ⟨d, hd⟩ := Option.isSome_iff_exists.mp hsome
    have hdname : sameName d.2 name := by simpa using List.find?_some hd
    rw [hd, h.eq_of_sameName (List.mem_of_find?_eq_some hd) hc
      (sameName_trans hdname (sameName_symm hname))]

/-- A deletion below one key leaves what is found below another. -/
theorem find_delete_of_ne (t : Subkeys) {parent key q : ℕ} (hq : q ≠ parent) (name : List UInt16) :
    (t.delete parent key).find q name = t.find q name := by
  rw [find, find, delete, Function.update_of_ne hq]

/-- The deleted name is not found any more. -/
theorem find_delete_self {t : Subkeys} {parent : ℕ} {c : ℕ × List UInt16}
    (hdistinct : Distinct (t parent)) (hc : c ∈ t parent) {name : List UInt16}
    (hname : sameName name c.2) : (t.delete parent c.1).find parent name = none := by
  rw [find, delete, Function.update_self, Option.map_eq_none_iff, List.find?_eq_none]
  intro d hd
  obtain ⟨hd, hne⟩ := List.mem_filter.mp hd
  simp only [decide_eq_true_eq]
  intro hdname
  rw [hdistinct.eq_of_sameName hd hc (sameName_trans hdname hname)] at hne
  simp at hne

/-- The other names are found as before. -/
theorem find_delete_of_not_sameName {t : Subkeys} {parent : ℕ} {c : ℕ × List UInt16}
    (hdistinct : Distinct (t parent)) (hkeys : ∀ d ∈ t parent, d.1 = c.1 → d = c)
    {name : List UInt16} (hname : ¬sameName name c.2) :
    (t.delete parent c.1).find parent name = t.find parent name := by
  have hfilter : Distinct ((t parent).filter fun d => d.1 ≠ c.1) := hdistinct.filter _
  rw [find, find, delete, Function.update_self]
  congr 1
  apply Option.ext
  intro d
  rw [hfilter.find?_eq_some_iff, hdistinct.find?_eq_some_iff, List.mem_filter]
  constructor
  · rintro ⟨⟨hd, -⟩, hdname⟩
    exact ⟨hd, hdname⟩
  · rintro ⟨hd, hdname⟩
    refine ⟨⟨hd, ?_⟩, hdname⟩
    simp only [ne_eq, decide_eq_true_eq]
    intro heq
    rw [hkeys d hd heq] at hdname
    exact hname (sameName_symm hdname)

end Subkeys

/-! ## Spans -/

/-- Two runs of bytes, each given by its start and its length, do not overlap. -/
def Apart (s t : ℕ × ℕ) : Prop := s.1 + s.2 ≤ t.1 ∨ t.1 + t.2 ≤ s.1

instance (s t : ℕ × ℕ) : Decidable (Apart s t) := inferInstanceAs (Decidable (_ ∨ _))

/-- Ranges are apart from each other. -/
theorem Apart.symm {s t : ℕ × ℕ} (h : Apart s t) : Apart t s := Or.symm h

/-- The cell of a key. -/
def nodeSpan (m : Mem) (key : ℕ) : ℕ × ℕ := (key, getInt32Size m key)

/-- The place of the index of a key. -/
def indexAddr (m : Mem) (key : ℕ) : ℕ := cellAddr (subKeyList m (keyBody key))

/-- The cell of the index of a key. -/
def indexSpan (m : Mem) (key : ℕ) : ℕ × ℕ := (indexAddr m key, getInt32Size m (indexAddr m key))

/-! ## The lists of an image -/

/-- The keys that the index of a key lists. -/
def childKeys (m : Mem) (key : ℕ) : List ℕ :=
  if subKeyCount m (keyBody key) = 0 then []
  else (leafCells m (keyBody (indexAddr m key))).map cellAddr

/-- The subkeys of every key of an image. -/
def subkeys (m : Mem) : Subkeys :=
  fun key => (childKeys m key).map fun c => (c, nodeName m (keyBody c))

/-- The index of a key is a leaf behind the header of the hive, with as many entries as the key
counts. -/
structure IndexOk (m : Mem) (key : ℕ) : Prop where
  list : subKeyList m (keyBody key) ≠ noCell
  addr : 0x1000 ≤ indexAddr m key
  leaf : checkLeaf m (indexAddr m key) (keyBody (indexAddr m key)) = .ok ()
  count : indexCount m (keyBody (indexAddr m key)) = subKeyCount m (keyBody key)

/-- A set of keys, closed under subkeys, whose cells and indexes are sound, lie behind the header of
the hive and do not overlap. No key is listed twice, as no two subkeys have the same name. -/
structure KeyTree (keys : Set ℕ) (m : Mem) : Prop where
  addr : ∀ k ∈ keys, 0x1000 ≤ k
  node : ∀ k ∈ keys, checkNode m k (keyBody k) = .ok ()
  index : ∀ k ∈ keys, subKeyCount m (keyBody k) ≠ 0 → IndexOk m k
  closed : ∀ k ∈ keys, ∀ c ∈ childKeys m k, c ∈ keys
  distinct : ∀ k ∈ keys, Subkeys.Distinct (subkeys m k)
  node_node : ∀ k ∈ keys, ∀ k' ∈ keys, k ≠ k' → Apart (nodeSpan m k) (nodeSpan m k')
  node_index : ∀ k ∈ keys, ∀ k' ∈ keys, subKeyCount m (keyBody k') ≠ 0 →
    Apart (nodeSpan m k) (indexSpan m k')
  index_index : ∀ k ∈ keys, ∀ k' ∈ keys, k ≠ k' → subKeyCount m (keyBody k) ≠ 0 →
    subKeyCount m (keyBody k') ≠ 0 → Apart (indexSpan m k) (indexSpan m k')

/-! ## Lookups -/

/-- A word of four bytes is below 2 ^ 32. -/
theorem word4_lt (m : Mem) (a : ℕ) : m.word a 4 < 2 ^ 32 := by
  have h := Mem.word_lt m a 4
  omega

/-- A cell behind the header has its contents behind its size. -/
theorem cellBody_eq {cell : ℕ} (hcell : cell < 2 ^ 32) (h : 0x1000 ≤ cellAddr cell) :
    cellBody cell = keyBody (cellAddr cell) := by
  rw [keyBody_cellAddr]
  rw [cellAddr] at h
  omega

/-- The contents of an index stand behind its size. -/
theorem IndexOk.cellBody_eq {m : Mem} {key : ℕ} (h : IndexOk m key) :
    cellBody (subKeyList m (keyBody key)) = keyBody (indexAddr m key) :=
  Reg.cellBody_eq (word4_lt _ _) h.addr

/-- An entry has 32 bits. -/
theorem leafCell_lt (m : Mem) (lh i : ℕ) : leafCell m lh i < 2 ^ 32 := word4_lt _ _

/-- The cells of a leaf are its entries. -/
theorem mem_leafCells {m : Mem} {lh c : ℕ} : c ∈ leafCells m lh ↔
    ∃ i < indexCount m lh, leafCell m lh i = c := by
  simp [leafCells]

/-- The subkeys of a key that counts some are those in its leaf. -/
theorem childKeys_of_ne {m : Mem} {key : ℕ} (h : subKeyCount m (keyBody key) ≠ 0) :
    childKeys m key = (leafCells m (keyBody (indexAddr m key))).map cellAddr := by
  rw [childKeys, if_neg h]

section KeyTree

variable {keys : Set ℕ} {m : Mem} {k : ℕ}

/-- A key with subkeys passes the tests in front of the loops. -/
theorem KeyTree.parentLeaf_eq (ht : KeyTree keys m) (hk : k ∈ keys)
    (hcount : subKeyCount m (keyBody k) ≠ 0) :
    parentLeaf m k = .ok (keyBody (indexAddr m k)) := by
  have hindex := ht.index k hk hcount
  exact parentLeaf_ok_iff.mpr
    ⟨ht.node k hk, hcount, hindex.list, hindex.leaf, hindex.cellBody_eq.symm⟩

/-- A key without subkeys is refused. -/
theorem parentLeaf_of_count_eq_zero (hnode : checkNode m k (keyBody k) = .ok ())
    (hcount : subKeyCount m (keyBody k) = 0) : parentLeaf m k = .error .fileNotFound := by
  rw [parentLeaf, hnode, refuse, if_pos (Or.inl hcount)]
  rfl

/-- An entry of an index is a key of the tree. -/
theorem KeyTree.cellAddr_mem (ht : KeyTree keys m) (hk : k ∈ keys)
    (hcount : subKeyCount m (keyBody k) ≠ 0) {cell : ℕ}
    (hcell : cell ∈ leafCells m (keyBody (indexAddr m k))) :
    cellAddr cell ∈ keys ∧ cellBody cell = keyBody (cellAddr cell) := by
  have hmem : cellAddr cell ∈ keys := by
    apply ht.closed k hk
    rw [childKeys_of_ne hcount]
    exact List.mem_map_of_mem hcell
  obtain ⟨i, -, rfl⟩ := mem_leafCells.mp hcell
  exact ⟨hmem, cellBody_eq (leafCell_lt _ _ _) (ht.addr _ hmem)⟩

/-- **Lookups are lookups in the lists**. -/
theorem KeyTree.findChildKey_eq (ht : KeyTree keys m) (hk : k ∈ keys) (name : List UInt16) :
    findChildKey m k name = match (subkeys m).find k name with
      | some c => .ok c
      | none => .error .fileNotFound := by
  by_cases hcount : subKeyCount m (keyBody k) = 0
  · rw [findChildKey, parentLeaf_of_count_eq_zero (ht.node k hk) hcount, Subkeys.find, subkeys,
      childKeys, if_pos hcount]
    rfl
  · have hnamed : ∀ c ∈ leafCells m (keyBody (indexAddr m k)),
        decide (isChildNamed m name c) =
          decide (sameName (nodeName m (keyBody (cellAddr c))) name) := by
      intro c hc
      obtain ⟨hmem, hbody⟩ := ht.cellAddr_mem hk hcount hc
      rw [decide_eq_decide, isChildNamed, hbody]
      exact and_iff_right (ht.node _ hmem)
    rw [findChildKey, ht.parentLeaf_eq hk hcount, ok_bind, Subkeys.find, subkeys,
      childKeys_of_ne hcount, List.find?_congr hnamed, List.map_map, List.find?_map]
    simp only [Function.comp_def]
    rcases (leafCells m (keyBody (indexAddr m k))).find?
      (fun c => decide (sameName (nodeName m (keyBody (cellAddr c))) name)) with _ | c
    · rfl
    · rfl

/-- The same names find the same key. -/
theorem KeyTree.findChildKey_sameName (ht : KeyTree keys m) (hk : k ∈ keys)
    {name name' : List UInt16} (h : sameName name' name) :
    findChildKey m k name' = findChildKey m k name := by
  have hfind : (subkeys m).find k name' = (subkeys m).find k name := by
    unfold Subkeys.find
    refine congrArg _ (List.find?_congr fun c _ => decide_eq_decide.mpr ?_)
    exact ⟨fun hc => sameName_trans hc h, fun hc => sameName_trans hc (sameName_symm h)⟩
  rw [ht.findChildKey_eq hk, ht.findChildKey_eq hk, hfind]

/-- What is found below a key of the tree is a subkey with the name. -/
theorem KeyTree.findChildKey_child (ht : KeyTree keys m) (hk : k ∈ keys) {name : List UInt16} {c : ℕ}
    (h : findChildKey m k name = .ok c) :
    c ∈ childKeys m k ∧ sameName (nodeName m (keyBody c)) name := by
  rw [ht.findChildKey_eq hk] at h
  rcases hfind : (subkeys m).find k name with _ | c'
  · rw [hfind] at h
    cases h
  · rw [hfind] at h
    cases h
    obtain ⟨e, he, rfl⟩ := Option.map_eq_some_iff.mp hfind
    have hname := List.find?_some he
    obtain ⟨c, hc, rfl⟩ := List.mem_map.mp (List.mem_of_find?_eq_some he)
    exact ⟨hc, of_decide_eq_true hname⟩

/-- What is found below a key of the tree is a key of the tree. -/
theorem KeyTree.findChildKey_mem (ht : KeyTree keys m) (hk : k ∈ keys) {name : List UInt16} {c : ℕ}
    (h : findChildKey m k name = .ok c) : c ∈ keys :=
  ht.closed k hk c (ht.findChildKey_child hk h).1

/-- What is found from a key of the tree on is in the tree, -/
theorem KeyTree.findKeyFrom_mem (ht : KeyTree keys m) (hk : k ∈ keys) {name path : List UInt16}
    {c : ℕ} (h : findKeyFrom m name k path = .ok c) : c ∈ keys := by
  induction path generalizing name k with
  | nil => exact ht.findChildKey_mem hk h
  | cons u path ih =>
      rw [findKeyFrom] at h
      by_cases hu : u = backslash
      · rw [if_pos hu] at h
        rcases hfind : findChildKey m k name with e | k'
        · rw [hfind] at h
          cases h
        · rw [hfind] at h
          have hk' := ht.findChildKey_mem hk hfind
          by_cases hpath : path = []
          · simp only [if_pos hpath] at h
            cases h
            exact hk'
          · simp only [if_neg hpath] at h
            exact ih hk' h
      · rw [if_neg hu] at h
        exact ih hk h

/-- along any path. -/
theorem KeyTree.findKey_mem (ht : KeyTree keys m) (hk : k ∈ keys) {path : List UInt16} {c : ℕ}
    (h : findKey m k path = .ok c) : c ∈ keys := ht.findKeyFrom_mem hk h

end KeyTree

/-! ## Frames -/

/-- Units depend on their bytes only, -/
theorem units_congr {m m' : Mem} {a n : ℕ} (h : ∀ i < 2 * n, m' (a + i) = m (a + i)) :
    units m' a n = units m a n := by
  apply List.map_congr_left
  intro i hi
  rw [List.mem_range] at hi
  congr 1
  apply Mem.word_congr
  intro j hj
  rw [Nat.add_assoc]
  exact h _ (by omega)

/-- and so do names. -/
theorem storedName_congr {m m' : Mem} {a n : ℕ} (comp : Bool)
    (h : ∀ i < n, m' (a + i) = m (a + i)) : storedName m' comp a n = storedName m comp a n := by
  rw [storedName, storedName, Mem.bytes_congr h, units_congr fun i hi => h i (by omega)]

/-- What is read of a key, apart from its count of subkeys. -/
structure SameNode (m m' : Mem) (key : ℕ) : Prop where
  size : getInt32Size m' key = getInt32Size m key
  check : checkNode m' key (keyBody key) = checkNode m key (keyBody key)
  name : nodeName m' (keyBody key) = nodeName m (keyBody key)
  list : subKeyList m' (keyBody key) = subKeyList m (keyBody key)

/-- A key is the same if its cell is, apart from its count of subkeys and its volatile fields. -/
theorem node_congr {m m' : Mem} {key : ℕ} (hnode : checkNode m key (keyBody key) = .ok ())
    (h : ∀ x, key ≤ x → x < key + getInt32Size m key →
      (x < key + 24 ∨ (key + 32 ≤ x ∧ x < key + 36) ∨ key + 40 ≤ x) → m' x = m x) :
    SameNode m m' key := by
  obtain ⟨-, hsize, -⟩ := checkNode_ok_iff.mp hnode
  have hword : ∀ o n, o + n ≤ 80 + nodeNameLength m (keyBody key) →
      (o + n ≤ 24 ∨ (32 ≤ o ∧ o + n ≤ 36) ∨ 40 ≤ o) → m'.word (key + o) n = m.word (key + o) n := by
    intro o n hn ho
    apply Mem.word_congr
    intro i hi
    exact h _ (by omega) (by omega) (by omega)
  have hsize' : getInt32Size m' key = getInt32Size m key :=
    getInt32Size_congr (hword 0 4 (by omega) (by omega))
  have hlength : nodeNameLength m' (keyBody key) = nodeNameLength m (keyBody key) :=
    hword 76 2 (by omega) (by omega)
  have hsig : m'.word (keyBody key) 2 = m.word (keyBody key) 2 := hword 4 2 (by omega) (by omega)
  have hflags : m'.word (keyBody key + 2) 2 = m.word (keyBody key + 2) 2 :=
    hword 6 2 (by omega) (by omega)
  refine ⟨hsize', ?_, ?_, hword 32 4 (by omega) (by omega)⟩
  · rw [checkNode, checkNode, checkCell, checkCell, checkSize, checkSize, hsize', hlength, hsig]
  · rw [nodeName, nodeName, nodeCompName, nodeCompName, hflags, hlength]
    apply storedName_congr
    intro i hi
    rw [keyBody]
    exact h _ (by omega) (by omega) (by omega)

/-- The count of subkeys depends on its field only. -/
theorem subKeyCount_congr {m m' : Mem} {key : ℕ}
    (h : ∀ x, key + 24 ≤ x → x < key + 28 → m' x = m x) :
    subKeyCount m' (keyBody key) = subKeyCount m (keyBody key) := by
  apply Mem.word_congr
  intro i hi
  rw [keyBody]
  exact h _ (by omega) (by omega)

/-- An index is the same if its cell is. -/
theorem index_congr {m m' : Mem} {a : ℕ} (hleaf : checkLeaf m a (keyBody a) = .ok ())
    (h : ∀ x, a ≤ x → x < a + getInt32Size m a → m' x = m x) :
    getInt32Size m' a = getInt32Size m a ∧ checkLeaf m' a (keyBody a) = .ok () ∧
      indexCount m' (keyBody a) = indexCount m (keyBody a) ∧
      leafCells m' (keyBody a) = leafCells m (keyBody a) := by
  obtain ⟨hneg, hsize, hsig⟩ := checkLeaf_ok_iff.mp hleaf
  have hword : ∀ o n, o + n ≤ 8 + 8 * indexCount m (keyBody a) →
      m'.word (a + o) n = m.word (a + o) n := by
    intro o n hn
    apply Mem.word_congr
    intro i hi
    exact h _ (by omega) (by omega)
  have hsize' : getInt32Size m' a = getInt32Size m a :=
    getInt32Size_congr (hword 0 4 (by omega))
  have hcount : indexCount m' (keyBody a) = indexCount m (keyBody a) := hword 6 2 (by omega)
  have hsig' : indexSignature m' (keyBody a) = indexSignature m (keyBody a) := hword 4 2 (by omega)
  refine ⟨hsize', ?_, hcount, ?_⟩
  · rw [checkLeaf_ok_iff, hsize', hcount, isLeaf, hsig']
    exact ⟨hneg, hsize, hsig⟩
  · rw [leafCells, leafCells, hcount]
    apply List.map_congr_left
    intro i hi
    rw [List.mem_range] at hi
    have h₁ := hword (8 + 8 * i) 4 (by omega)
    rw [leafCell, leafCell, keyBody, show a + 4 + 4 + 8 * i = a + (8 + 8 * i) by omega, h₁]

end Ntloader.Reg
