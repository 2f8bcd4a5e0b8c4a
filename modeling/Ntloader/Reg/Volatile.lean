import Ntloader.Reg.Enumerate
import Ntloader.Reg.Header
import Ntloader.Reg.Tree

/-!
# The volatile fields of keys

Opening a hive walks its keys and clears the two fields of each that describe volatile subkeys. The
walk goes through leaves; at a root of indexes it takes the leaves for keys and turns back.

* `HiveTree` — the keys of a hive with indexes of either kind, whose cells do not overlap.
* `Agree` — two images differ in the header and in volatile fields only.
* `clearVolatile_spec` — the walk clears the keys that leaves lead to, and writes nothing else.
* `clearVolatile_again` — a second walk writes nothing.
* `regOpenHive_clears_iff` — opening a hive clears every key exactly if the keys behind roots of
  indexes are clear before.
* `OpensCheck` — a test that a hive is opened and left as it is.
-/

namespace Ntloader.Reg

open Ntloader.Lib

/-! ## Keys with indexes of either kind -/

/-- The subkeys of a key, also behind a root of indexes. -/
def allChildKeys (m : Mem) (key : ℕ) : List ℕ :=
  if subKeyCount m (keyBody key) = 0 then []
  else (subKeyCells m (keyBody (indexAddr m key))).map cellAddr

/-- The subkeys of a key that has a leaf. -/
def leafChildKeys (m : Mem) (key : ℕ) : List ℕ :=
  if isLeaf m (keyBody (indexAddr m key)) then childKeys m key else []

/-- The places of the leaves of a key with a root. -/
def leafAddrs (m : Mem) (key : ℕ) : List ℕ :=
  (rootLeaves m (keyBody (indexAddr m key))).map cellAddr

/-- A key is reached from another one. -/
def Reached (m : Mem) : ℕ → ℕ → Prop := Relation.ReflTransGen fun k c => c ∈ allChildKeys m k

/-- A key is reached from another one through leaves only. -/
def LeafReached (m : Mem) : ℕ → ℕ → Prop := Relation.ReflTransGen fun k c => c ∈ leafChildKeys m k

/-- The index of a key is a root of indexes with room for its entries. -/
structure RootOk (m : Mem) (key : ℕ) : Prop where
  used : getInt32Size m (indexAddr m key) < 2 ^ 31
  room : 8 + 4 * indexCount m (keyBody (indexAddr m key)) ≤ getInt32Size m (indexAddr m key)
  signature : indexSignature m (keyBody (indexAddr m key)) = keyIndexRoot
  leaf : ∀ a ∈ leafAddrs m key, 0x1000 ≤ a ∧ checkLeaf m a (keyBody a) = .ok ()

/-- The index of a key is a leaf or a root of leaves, behind the header of the hive. -/
structure AnyIndexOk (m : Mem) (key : ℕ) : Prop where
  list : subKeyList m (keyBody key) ≠ noCell
  addr : 0x1000 ≤ indexAddr m key
  index : checkLeaf m (indexAddr m key) (keyBody (indexAddr m key)) = .ok () ∨ RootOk m key

/-- A set of keys, closed under subkeys, whose cells and indexes are sound, lie behind the header of
the hive and do not overlap. -/
structure HiveTree (keys : Set ℕ) (m : Mem) : Prop where
  addr : ∀ k ∈ keys, 0x1000 ≤ k
  node : ∀ k ∈ keys, checkNode m k (keyBody k) = .ok ()
  index : ∀ k ∈ keys, subKeyCount m (keyBody k) ≠ 0 → AnyIndexOk m k
  closed : ∀ k ∈ keys, ∀ c ∈ allChildKeys m k, c ∈ keys
  node_node : ∀ k ∈ keys, ∀ k' ∈ keys, k ≠ k' → Apart (nodeSpan m k) (nodeSpan m k')
  node_index : ∀ k ∈ keys, ∀ k' ∈ keys, subKeyCount m (keyBody k') ≠ 0 →
    Apart (nodeSpan m k) (indexSpan m k')
  node_leaf : ∀ k ∈ keys, ∀ k' ∈ keys, subKeyCount m (keyBody k') ≠ 0 → RootOk m k' →
    ∀ a ∈ leafAddrs m k', Apart (nodeSpan m k) (a, getInt32Size m a)

/-! ## Volatile fields -/

/-- The bytes of the two fields of a key.
Source: include/reg.h, CM_KEY_NODE, VolatileSubKeyCount and VolatileSubKeyList -/
def InVolatile (key x : ℕ) : Prop :=
  (keyBody key + 24 ≤ x ∧ x < keyBody key + 28) ∨ (keyBody key + 32 ≤ x ∧ x < keyBody key + 36)

/-- The two fields are clear. -/
def IsClear (m : Mem) (key : ℕ) : Prop :=
  m.word (keyBody key + 24) 4 = 0 ∧ m.word (keyBody key + 32) 4 = 0xbaadf00d

instance (m : Mem) (key : ℕ) : Decidable (IsClear m key) := inferInstanceAs (Decidable (_ ∧ _))

/-- Two images differ in the header and in volatile fields only. -/
def Agree (keys : Set ℕ) (m m' : Mem) : Prop :=
  ∀ x, 0x1000 ≤ x → (∀ k ∈ keys, ¬InVolatile k x) → m' x = m x

/-- The keys of a set have been cleared, and nothing else has been written. -/
structure ClearedTo (keys : Set ℕ) (m m' : Mem) : Prop where
  clear : ∀ k ∈ keys, IsClear m' k
  frame : ∀ x, (∀ k ∈ keys, ¬InVolatile k x) → m' x = m x

/-- Whether a key is clear depends on its volatile fields only. -/
theorem isClear_congr {m m' : Mem} {key : ℕ} (h : ∀ x, InVolatile key x → m' x = m x) :
    IsClear m' key ↔ IsClear m key := by
  have h₁ : m'.word (keyBody key + 24) 4 = m.word (keyBody key + 24) 4 :=
    Mem.word_congr fun i hi => h _ (Or.inl ⟨by omega, by omega⟩)
  have h₂ : m'.word (keyBody key + 32) 4 = m.word (keyBody key + 32) 4 :=
    Mem.word_congr fun i hi => h _ (Or.inr ⟨by omega, by omega⟩)
  rw [IsClear, IsClear, h₁, h₂]

/-- A key is clear after a visit. -/
theorem isClear_clearNode (m : Mem) (key : ℕ) : IsClear (clearNode m (keyBody key)) key := by
  rw [IsClear, clearNode, Mem.word_putWord_self, Mem.word_putWord_of_disjoint _ (by omega),
    Mem.word_putWord_self]
  exact ⟨rfl, rfl⟩

/-- A visit writes volatile fields only. -/
theorem clearNode_of_not_inVolatile (m : Mem) {key x : ℕ} (h : ¬InVolatile key x) :
    clearNode m (keyBody key) x = m x := by
  rw [InVolatile, not_or] at h
  rw [clearNode, Mem.putWord_of_not_mem _ (by omega), Mem.putWord_of_not_mem _ (by omega)]

/-- A clear key is not changed. -/
theorem clearNode_of_isClear {m : Mem} {key : ℕ} (h : IsClear m key) :
    clearNode m (keyBody key) = m := by
  rw [clearNode, Mem.putWord_eq_self h.2, Mem.putWord_eq_self h.1]

/-- A call for a clear key, or for no key, writes nothing. -/
theorem clearKey_of_isClear {m : Mem} {key : ℕ}
    (h : m.word (keyBody key) 2 = keyNodeSignature → IsClear m key) : (clearKey m key).1 = m := by
  rw [clearKey]
  dsimp only
  by_cases hkey : m.word (keyBody key) 2 = keyNodeSignature
  · rw [clearNode_of_isClear (h hkey)]
    split_ifs <;> rfl
  · rw [if_pos hkey]
    split_ifs <;> rfl

/-- The conditions of a still walk on the keys of a list. -/
def StillCheck (ks : List ℕ) (m : Mem) : Prop :=
  ∀ k ∈ ks, (m.word (keyBody k) 2 = keyNodeSignature → IsClear m k) ∧
    ∀ list ∈ (clearKey m k).2.toList, ∀ i < indexCount m list.1, entryKey m list i ∈ ks

instance (ks : List ℕ) (m : Mem) : Decidable (StillCheck ks m) :=
  inferInstanceAs (Decidable (∀ k ∈ ks, _ ∧ _))

/-- What passes the test is still. -/
theorem StillCheck.still {ks : List ℕ} {m : Mem} (h : StillCheck ks m) : Still {k | k ∈ ks} m where
  clear k hk := clearKey_of_isClear (h k hk).1
  entries k hk list hlist := (h k hk).2 list (Option.mem_toList.mpr hlist)

/-- A test that a hive is accepted and left as it is, with the keys that its opening comes to. -/
def OpensCheck (ks : List ℕ) (m : Mem) (fuel : ℕ) : Prop :=
  HeaderOk m ∧ Repaired m ∧ validateBins m (headerLength m) fuel 0 = some true ∧ StillCheck ks m ∧
    rootKey m ∈ ks ∧ walkEnds m fuel (rootKey m) = true

instance (ks : List ℕ) (m : Mem) (fuel : ℕ) : Decidable (OpensCheck ks m fuel) :=
  inferInstanceAs (Decidable (_ ∧ _))

section OpensCheck

variable {ks : List ℕ} {m : Mem} {fuel : ℕ}

/-- The header of what passes the test is accepted as it is. -/
theorem OpensCheck.checkHeader_eq (h : OpensCheck ks m fuel) : checkHeader m = some m :=
  checkHeader_of_repaired h.1 h.2.1

/-- Its opening comes to the listed keys only, and writes nothing. -/
theorem OpensCheck.still (h : OpensCheck ks m fuel) : Still {k | k ∈ ks} m := h.2.2.2.1.still

/-- The root key is one of them. -/
theorem OpensCheck.root (h : OpensCheck ks m fuel) : rootKey m ∈ ks := h.2.2.2.2.1

/-- **What passes the test is opened**, and left as it is. -/
theorem OpensCheck.regOpenHive_eq (h : OpensCheck ks m fuel) : regOpenHive fuel m = some (.ok m) :=
  h.still.regOpenHive_eq h.checkHeader_eq h.2.2.1 h.root h.2.2.2.2.2

end OpensCheck

/-- Keys are cleared one set after the other, if the first stay clear. -/
theorem ClearedTo.trans {s t : Set ℕ} {m₁ m₂ m₃ : Mem} (h₁ : ClearedTo s m₁ m₂)
    (h₂ : ClearedTo t m₂ m₃) (hkeep : ∀ k ∈ s, IsClear m₂ k → IsClear m₃ k) :
    ClearedTo (s ∪ t) m₁ m₃ where
  clear k hk := by
    rcases hk with hk | hk
    · exact hkeep k hk (h₁.clear k hk)
    · exact h₂.clear k hk
  frame x hx := by
    rw [h₂.frame x fun k hk => hx k (Or.inr hk), h₁.frame x fun k hk => hx k (Or.inl hk)]

/-- An image agrees with itself. -/
theorem Agree.refl (keys : Set ℕ) (m : Mem) : Agree keys m m := fun _ _ _ => rfl

/-- It agrees still when keys of the set have been cleared. -/
theorem Agree.clearedTo {keys s : Set ℕ} {m m₁ m₂ : Mem} (h : Agree keys m m₁) (hs : s ⊆ keys)
    (hc : ClearedTo s m₁ m₂) : Agree keys m m₂ :=
  fun x hx hk => (hc.frame x fun k hks => hk k (hs hks)).trans (h x hx hk)

/-! ## What the walk reads -/

section Reads

variable {keys : Set ℕ} {m m' : Mem} {k : ℕ}

/-- The volatile fields of a key lie in its cell. -/
theorem HiveTree.inVolatile_span (ht : HiveTree keys m) (hk : k ∈ keys) {x : ℕ}
    (hx : InVolatile k x) : k ≤ x ∧ x < k + getInt32Size m k := by
  obtain ⟨-, hsize, -⟩ := checkNode_ok_iff.mp (ht.node k hk)
  rw [InVolatile, keyBody] at hx
  omega

/-- A byte of a key that is no volatile field of it is none of another key. -/
theorem HiveTree.not_inVolatile (ht : HiveTree keys m) (hk : k ∈ keys) {x : ℕ} (hlo : k ≤ x)
    (hhi : x < k + getInt32Size m k) (hx : ¬InVolatile k x) : ∀ k' ∈ keys, ¬InVolatile k' x := by
  intro k' hk' hx'
  by_cases heq : k = k'
  · exact hx (heq ▸ hx')
  · have hapart := ht.node_node k hk k' hk' heq
    have hspan := ht.inVolatile_span hk' hx'
    rw [Apart, nodeSpan, nodeSpan] at hapart
    dsimp only at hapart
    omega

/-- A cell apart from all keys is the same in images that agree. -/
theorem HiveTree.agree_of_apart (ht : HiveTree keys m) (h : Agree keys m m') {s : ℕ × ℕ}
    (hs : 0x1000 ≤ s.1) (hapart : ∀ k ∈ keys, Apart (nodeSpan m k) s) {x : ℕ} (hlo : s.1 ≤ x)
    (hhi : x < s.1 + s.2) : m' x = m x := by
  refine h x (by omega) fun k hk hx => ?_
  have hspan := ht.inVolatile_span hk hx
  have := hapart k hk
  rw [Apart, nodeSpan] at this
  dsimp only at this
  omega

/-- A field of a key in front of, between or behind its volatile fields. -/
theorem HiveTree.word_node (ht : HiveTree keys m) (h : Agree keys m m') (hk : k ∈ keys) {o n : ℕ}
    (hn : o + n ≤ 80) (ho : o + n ≤ 28 ∨ (32 ≤ o ∧ o + n ≤ 36)) :
    m'.word (k + o) n = m.word (k + o) n := by
  obtain ⟨-, hsize, -⟩ := checkNode_ok_iff.mp (ht.node k hk)
  have haddr := ht.addr k hk
  apply Mem.word_congr
  intro i hi
  refine h _ (by omega) (ht.not_inVolatile hk (by omega) (by omega) ?_)
  rw [InVolatile, keyBody]
  omega

/-- The tests of the walk pass at a key, and its fields are read as they were. -/
theorem HiveTree.clearKey_tests (ht : HiveTree keys m) (h : Agree keys m m') (hk : k ∈ keys) :
    getInt32Size m' k < 2 ^ 31 ∧ 80 ≤ getInt32Size m' k ∧ m'.word (keyBody k) 2 = keyNodeSignature ∧
      subKeyCount m' (keyBody k) = subKeyCount m (keyBody k) ∧
      subKeyList m' (keyBody k) = subKeyList m (keyBody k) := by
  obtain ⟨hused, hsize, hsig⟩ := checkNode_ok_iff.mp (ht.node k hk)
  have hsame : getInt32Size m' k = getInt32Size m k :=
    getInt32Size_congr (ht.word_node h hk (o := 0) (by norm_num) (Or.inl (by norm_num)))
  refine ⟨by omega, by omega, ?_, ?_, ?_⟩
  · rw [← hsig]
    exact ht.word_node h hk (o := 4) (by norm_num) (Or.inl (by norm_num))
  · exact ht.word_node h hk (o := 24) (by norm_num) (Or.inl (by norm_num))
  · exact ht.word_node h hk (o := 32) (by norm_num) (Or.inr (by norm_num))

/-- The size of the index of a key: its signature and its count are in it. -/
theorem AnyIndexOk.size (h : AnyIndexOk m k) : 8 ≤ getInt32Size m (indexAddr m k) := by
  rcases h.index with hleaf | hroot
  · have := (checkLeaf_ok_iff.mp hleaf).2.1
    omega
  · have := hroot.room
    omega

/-- Images that agree have the same words in the indexes. -/
theorem HiveTree.word_index (ht : HiveTree keys m) (h : Agree keys m m') (hk : k ∈ keys)
    (hcount : subKeyCount m (keyBody k) ≠ 0) {o n : ℕ} (hn : o + n ≤ getInt32Size m (indexAddr m k)) :
    m'.word (indexAddr m k + o) n = m.word (indexAddr m k + o) n := by
  apply Mem.word_congr
  intro i hi
  refine ht.agree_of_apart (s := indexSpan m k) h (ht.index k hk hcount).addr
    (fun k' hk' => ht.node_index k' hk' k hk hcount) ?_ ?_
  · rw [indexSpan]
    omega
  · rw [indexSpan]
    omega

/-- The signature and the count of an index are read as they were. -/
theorem HiveTree.index_header (ht : HiveTree keys m) (h : Agree keys m m') (hk : k ∈ keys)
    (hcount : subKeyCount m (keyBody k) ≠ 0) :
    indexSignature m' (keyBody (indexAddr m k)) = indexSignature m (keyBody (indexAddr m k)) ∧
      indexCount m' (keyBody (indexAddr m k)) = indexCount m (keyBody (indexAddr m k)) := by
  have hsize := (ht.index k hk hcount).size
  exact ⟨ht.word_index h hk hcount (o := 4) (by omega), ht.word_index h hk hcount (o := 6) (by omega)⟩

/-- The loop of the walk at a key: its index, and the distance of its entries. -/
def walkList (m : Mem) (k : ℕ) : Option (ℕ × ℕ) :=
  if subKeyCount m (keyBody k) = 0 then none
  else if isLeaf m (keyBody (indexAddr m k)) then some (keyBody (indexAddr m k), 8)
  else some (keyBody (indexAddr m k), 4)

/-- A call for a key clears it and comes to its index. -/
theorem HiveTree.clearKey_eq (ht : HiveTree keys m) (h : Agree keys m m') (hk : k ∈ keys) :
    clearKey m' k = (clearNode m' (keyBody k), walkList m k) := by
  obtain ⟨hused, hsize, hsig, -, -⟩ := ht.clearKey_tests h hk
  have hclear : Agree keys m (clearNode m' (keyBody k)) := fun x hx hvol => by
    rw [clearNode_of_not_inVolatile _ (hvol k hk), h x hx hvol]
  obtain ⟨-, -, -, hcount, hlist⟩ := ht.clearKey_tests hclear hk
  rw [clearKey, if_neg (by omega), if_neg (by omega), if_neg (not_not_intro hsig)]
  dsimp only
  rw [hcount, hlist, walkList]
  by_cases hzero : subKeyCount m (keyBody k) = 0
  · rw [if_pos (Or.inl hzero), if_pos hzero]
  · have hindex := ht.index k hk hzero
    have hbody : cellBody (subKeyList m (keyBody k)) = keyBody (indexAddr m k) :=
      cellBody_eq (word4_lt _ _) hindex.addr
    have hsigs := (ht.index_header hclear hk hzero).1
    have hiff : isLeaf (clearNode m' (keyBody k)) (keyBody (indexAddr m k)) ↔
        isLeaf m (keyBody (indexAddr m k)) := by
      simp only [isLeaf, hsigs]
    rw [if_neg (not_or.mpr ⟨hzero, hindex.list⟩), if_neg hzero, hbody]
    by_cases hleaf : isLeaf m (keyBody (indexAddr m k))
    · rw [if_pos (hiff.mpr hleaf), if_pos hleaf]
    · have hroot : indexSignature m (keyBody (indexAddr m k)) = keyIndexRoot := by
        rcases hindex.index with hcheck | hroot
        · exact absurd (checkLeaf_ok_iff.mp hcheck).2.2 hleaf
        · exact hroot.signature
      rw [if_neg (fun h => hleaf (hiff.mp h)), if_neg hleaf, if_pos (hsigs.trans hroot)]

/-- A leaf is no key: a call for it does nothing. -/
theorem HiveTree.clearKey_leafAddr (ht : HiveTree keys m) (h : Agree keys m m') (hk : k ∈ keys)
    (hcount : subKeyCount m (keyBody k) ≠ 0) (hroot : RootOk m k) {a : ℕ}
    (ha : a ∈ leafAddrs m k) : clearKey m' a = (m', none) := by
  obtain ⟨haddr, hcheck⟩ := hroot.leaf a ha
  obtain ⟨hused, hsize, hleaf⟩ := checkLeaf_ok_iff.mp hcheck
  have hword : ∀ o n, o + n ≤ 8 → m'.word (a + o) n = m.word (a + o) n := by
    intro o n hn
    apply Mem.word_congr
    intro i hi
    exact ht.agree_of_apart (s := (a, getInt32Size m a)) h haddr
      (fun k' hk' => ht.node_leaf k' hk' k hk hcount hroot a ha) (by dsimp only; omega)
      (by dsimp only; omega)
  have hsame : getInt32Size m' a = getInt32Size m a := getInt32Size_congr (hword 0 4 (by norm_num))
  have hsig : m'.word (keyBody a) 2 ≠ keyNodeSignature := by
    rw [keyBody, hword 4 2 (by norm_num)]
    rcases hleaf with hleaf | hleaf <;> rw [indexSignature, keyBody] at hleaf <;> rw [hleaf] <;> decide
  rw [clearKey, if_neg (by omega)]
  by_cases hshort : getInt32Size m' a < 80
  · rw [if_pos hshort]
  · rw [if_neg hshort, if_pos hsig]

end Reads

/-! ## The walk -/

section Walk

variable {keys : Set ℕ} {m : Mem}

/-- The subkeys in leaves are among all subkeys. -/
theorem leafChildKeys_subset (m : Mem) (k : ℕ) : leafChildKeys m k ⊆ allChildKeys m k := by
  intro c hc
  rw [leafChildKeys] at hc
  by_cases hleaf : isLeaf m (keyBody (indexAddr m k))
  · rw [if_pos hleaf, childKeys] at hc
    rw [allChildKeys, subKeyCells, if_neg (indexSignature_ne_of_isLeaf hleaf)]
    exact hc
  · rw [if_neg hleaf] at hc
    exact absurd hc List.not_mem_nil

/-- What is reached by leaves is reached. -/
theorem LeafReached.reached {k c : ℕ} (h : LeafReached m k c) : Reached m k c :=
  Relation.ReflTransGen.mono
    (fun a b (hc : b ∈ leafChildKeys m a) => leafChildKeys_subset m a hc) k c h

/-- What is reached is in the tree. -/
theorem HiveTree.mem_of_reached (ht : HiveTree keys m) {k c : ℕ} (hk : k ∈ keys)
    (h : Reached m k c) : c ∈ keys := by
  induction h with
  | refl => exact hk
  | tail _ hc ih => exact ht.closed _ ih _ hc

/-- A key stays clear when others are cleared. -/
theorem HiveTree.keep (ht : HiveTree keys m) {s : Set ℕ} (hs : s ⊆ keys) {m₁ m₂ : Mem}
    (hc : ClearedTo s m₁ m₂) {k : ℕ} (hk : k ∈ keys) (hclear : IsClear m₁ k) : IsClear m₂ k := by
  by_cases hks : k ∈ s
  · exact hc.clear k hks
  · refine (isClear_congr fun x hx => ?_).mpr hclear
    refine hc.frame x fun k' hk' hx' => ?_
    have hapart := ht.node_node k hk k' (hs hk') fun heq => hks (heq ▸ hk')
    have h₁ := ht.inVolatile_span hk hx
    have h₂ := ht.inVolatile_span (hs hk') hx'
    rw [Apart, nodeSpan, nodeSpan] at hapart
    dsimp only at hapart
    omega

/-- A loop of the walk, in images that agree with a given one: what its count and its entries are. -/
structure LoopOver (keys : Set ℕ) (m : Mem) (list : ℕ × ℕ) (count : ℕ) (entry : ℕ → ℕ) : Prop where
  count_eq : ∀ m', Agree keys m m' → indexCount m' list.1 = count
  entry_eq : ∀ m' i, Agree keys m m' → i < count → entryKey m' list i = entry i

/-- A loop clears what its calls clear. -/
theorem LoopOver.clearedTo (ht : HiveTree keys m) {list : ℕ × ℕ} {count : ℕ} {entry : ℕ → ℕ}
    (hl : LoopOver keys m list count entry) {call : Mem → ℕ → Option Mem} {s : ℕ → Set ℕ}
    (hs : ∀ i < count, s i ⊆ keys)
    (hcall : ∀ m₁ m₂ i, Agree keys m m₁ → i < count → call m₁ (entry i) = some m₂ →
      ClearedTo (s i) m₁ m₂)
    {n i : ℕ} (hn : count ≤ i + n) {m₁ m₂ : Mem} (hag : Agree keys m m₁)
    (h : clearEntries call list n i m₁ = some m₂) :
    ClearedTo {c | ∃ j, i ≤ j ∧ j < count ∧ c ∈ s j} m₁ m₂ := by
  induction n generalizing i m₁ with
  | zero =>
      cases h
      refine ⟨?_, fun x _ => rfl⟩
      rintro k ⟨j, hij, hj, -⟩
      omega
  | succ n ih =>
      rw [clearEntries, hl.count_eq m₁ hag] at h
      by_cases hi : i < count
      · rw [if_pos hi, hl.entry_eq m₁ i hag hi] at h
        obtain ⟨m', hm', hrest⟩ := Option.bind_eq_some_iff.mp h
        have hfirst := hcall m₁ m' i hag hi hm'
        have hsub : {c | ∃ j, i + 1 ≤ j ∧ j < count ∧ c ∈ s j} ⊆ keys := by
          rintro c ⟨j, -, hj, hc⟩
          exact hs j hj hc
        have hlast := ih (by omega) (hag.clearedTo (hs i hi) hfirst) hrest
        have hboth := hfirst.trans hlast fun k hk hclear =>
          ht.keep hsub hlast (hs i hi hk) hclear
        have heq : s i ∪ {c | ∃ j, i + 1 ≤ j ∧ j < count ∧ c ∈ s j} =
            {c | ∃ j, i ≤ j ∧ j < count ∧ c ∈ s j} := by
          ext c
          constructor
          · rintro (hc | ⟨j, hij, hj, hc⟩)
            · exact ⟨i, le_rfl, hi, hc⟩
            · exact ⟨j, by omega, hj, hc⟩
          · rintro ⟨j, hij, hj, hc⟩
            rcases hij.eq_or_lt with rfl | hlt
            · exact Or.inl hc
            · exact Or.inr ⟨j, hlt, hj, hc⟩
        rw [← heq]
        exact hboth
      · rw [if_neg hi] at h
        cases h
        refine ⟨?_, fun x _ => rfl⟩
        rintro k ⟨j, hij, hj, -⟩
        omega

/-- A loop whose calls write nothing writes nothing. -/
theorem LoopOver.again {list : ℕ × ℕ} {count : ℕ} {entry : ℕ → ℕ}
    (hl : LoopOver keys m list count entry) {call : Mem → ℕ → Option Mem} {m' : Mem}
    (hag' : Agree keys m m')
    (hcall : ∀ m₁ m₂ i, Agree keys m m₁ → i < count → call m₁ (entry i) = some m₂ →
      Agree keys m m₂ ∧ call m' (entry i) = some m')
    {n i : ℕ} {m₁ m₂ : Mem} (hag : Agree keys m m₁)
    (h : clearEntries call list n i m₁ = some m₂) :
    clearEntries call list n i m' = some m' := by
  induction n generalizing i m₁ with
  | zero => rfl
  | succ n ih =>
      rw [clearEntries, hl.count_eq m₁ hag] at h
      rw [clearEntries, hl.count_eq m' hag']
      by_cases hi : i < count
      · rw [if_pos hi, hl.entry_eq m₁ i hag hi] at h
        obtain ⟨m₃, hm₃, hrest⟩ := Option.bind_eq_some_iff.mp h
        obtain ⟨hag₃, hsame⟩ := hcall m₁ m₃ i hag hi hm₃
        rw [if_pos hi, hl.entry_eq m' i hag' hi, hsame]
        exact ih hag₃ hrest
      · rw [if_neg hi]

/-- The loop over a leaf. -/
theorem HiveTree.loopOver_leaf (ht : HiveTree keys m) {k : ℕ} (hk : k ∈ keys)
    (hcount : subKeyCount m (keyBody k) ≠ 0) (hleaf : isLeaf m (keyBody (indexAddr m k))) :
    LoopOver keys m (keyBody (indexAddr m k), 8) (indexCount m (keyBody (indexAddr m k)))
      fun i => cellAddr (leafCell m (keyBody (indexAddr m k)) i) := by
  have hroom : 8 + 8 * indexCount m (keyBody (indexAddr m k)) ≤ getInt32Size m (indexAddr m k) := by
    rcases (ht.index k hk hcount).index with hcheck | hroot
    · exact (checkLeaf_ok_iff.mp hcheck).2.1
    · exact absurd hroot.signature (indexSignature_ne_of_isLeaf hleaf)
  refine ⟨fun m' h => (ht.index_header h hk hcount).2, fun m' i h hi => ?_⟩
  have hword := ht.word_index (o := 8 + 8 * i) (n := 4) h hk hcount (by omega)
  rw [entryKey, leafCell, keyBody]
  dsimp only
  rw [show indexAddr m k + 4 + 4 + 8 * i = indexAddr m k + (8 + 8 * i) by omega, hword]

/-- The loop over a root of indexes. -/
theorem HiveTree.loopOver_root (ht : HiveTree keys m) {k : ℕ} (hk : k ∈ keys)
    (hcount : subKeyCount m (keyBody k) ≠ 0) (hroot : RootOk m k) :
    LoopOver keys m (keyBody (indexAddr m k), 4) (indexCount m (keyBody (indexAddr m k)))
      fun i => cellAddr (rootCell m (keyBody (indexAddr m k)) i) := by
  have hroom := hroot.room
  refine ⟨fun m' h => (ht.index_header h hk hcount).2, fun m' i h hi => ?_⟩
  have hword := ht.word_index (o := 8 + 4 * i) (n := 4) h hk hcount (by omega)
  rw [entryKey, rootCell, keyBody]
  dsimp only
  rw [show indexAddr m k + 4 + 4 + 4 * i = indexAddr m k + (8 + 4 * i) by omega, hword]

/-- What a call comes to behind its key: nothing, a leaf, or a root of indexes. -/
theorem HiveTree.walkList_cases (ht : HiveTree keys m) {k : ℕ} (hk : k ∈ keys) :
    (walkList m k = none ∧ subKeyCount m (keyBody k) = 0) ∨
      (walkList m k = some (keyBody (indexAddr m k), 8) ∧ subKeyCount m (keyBody k) ≠ 0 ∧
        isLeaf m (keyBody (indexAddr m k))) ∨
      (walkList m k = some (keyBody (indexAddr m k), 4) ∧ subKeyCount m (keyBody k) ≠ 0 ∧
        ¬isLeaf m (keyBody (indexAddr m k)) ∧ RootOk m k) := by
  rw [walkList]
  by_cases hcount : subKeyCount m (keyBody k) = 0
  · exact Or.inl ⟨if_pos hcount, hcount⟩
  · rw [if_neg hcount]
    by_cases hleaf : isLeaf m (keyBody (indexAddr m k))
    · exact Or.inr (Or.inl ⟨if_pos hleaf, hcount, hleaf⟩)
    · rcases (ht.index k hk hcount).index with hcheck | hroot
      · exact absurd (checkLeaf_ok_iff.mp hcheck).2.2 hleaf
      · exact Or.inr (Or.inr ⟨if_neg hleaf, hcount, hleaf, hroot⟩)

/-- The leaves of a root are no keys: calls for them do nothing. -/
theorem HiveTree.clearVolatile_leafAddr (ht : HiveTree keys m) {k : ℕ} (hk : k ∈ keys)
    (hcount : subKeyCount m (keyBody k) ≠ 0) (hroot : RootOk m k) {fuel i : ℕ} {m₁ m₂ : Mem}
    (hag : Agree keys m m₁) (hi : i < indexCount m (keyBody (indexAddr m k)))
    (h : clearVolatile fuel m₁ (cellAddr (rootCell m (keyBody (indexAddr m k)) i)) = some m₂) :
    m₂ = m₁ ∧ fuel ≠ 0 := by
  have hmem : cellAddr (rootCell m (keyBody (indexAddr m k)) i) ∈ leafAddrs m k :=
    List.mem_map_of_mem (List.mem_map.mpr ⟨i, List.mem_range.mpr hi, rfl⟩)
  cases fuel with
  | zero => cases h
  | succ fuel =>
      rw [clearVolatile, ht.clearKey_leafAddr hag hk hcount hroot hmem] at h
      cases h
      exact ⟨rfl, Nat.succ_ne_zero fuel⟩

/-- A subkey in a leaf is a key of the tree. -/
theorem HiveTree.leafCell_mem (ht : HiveTree keys m) {k : ℕ} (hk : k ∈ keys)
    (hcount : subKeyCount m (keyBody k) ≠ 0) (hleaf : isLeaf m (keyBody (indexAddr m k))) {i : ℕ}
    (hi : i < indexCount m (keyBody (indexAddr m k))) :
    cellAddr (leafCell m (keyBody (indexAddr m k)) i) ∈ leafChildKeys m k ∧
      cellAddr (leafCell m (keyBody (indexAddr m k)) i) ∈ keys := by
  have hmem : cellAddr (leafCell m (keyBody (indexAddr m k)) i) ∈ leafChildKeys m k := by
    rw [leafChildKeys, if_pos hleaf, childKeys_of_ne hcount]
    exact List.mem_map_of_mem (Reg.leafCell_mem hi)
  exact ⟨hmem, ht.closed k hk _ (leafChildKeys_subset m k hmem)⟩

/-- The keys that leaves lead to: the key itself, and those of its subkeys. -/
theorem leafReached_of_isLeaf {k : ℕ} (hcount : subKeyCount m (keyBody k) ≠ 0)
    (hleaf : isLeaf m (keyBody (indexAddr m k))) :
    {c | LeafReached m k c} = {k} ∪ {c | ∃ j, 0 ≤ j ∧ j < indexCount m (keyBody (indexAddr m k)) ∧
      c ∈ {c | LeafReached m (cellAddr (leafCell m (keyBody (indexAddr m k)) j)) c}} := by
  ext c
  constructor
  · intro hc
    rcases Relation.ReflTransGen.cases_head hc with rfl | ⟨d, hd, hdc⟩
    · exact Or.inl rfl
    · rw [leafChildKeys, if_pos hleaf, childKeys_of_ne hcount] at hd
      obtain ⟨cell, hcell, rfl⟩ := List.mem_map.mp hd
      obtain ⟨j, hj, rfl⟩ := mem_leafCells.mp hcell
      exact Or.inr ⟨j, Nat.zero_le j, hj, hdc⟩
  · rintro (rfl | ⟨j, -, hj, hdc⟩)
    · exact Relation.ReflTransGen.refl
    · refine Relation.ReflTransGen.head ?_ hdc
      rw [leafChildKeys, if_pos hleaf, childKeys_of_ne hcount]
      exact List.mem_map_of_mem (Reg.leafCell_mem hj)

/-- From a key without a leaf, leaves lead to the key only. -/
theorem leafReached_of_nil {k : ℕ} (h : leafChildKeys m k = []) : {c | LeafReached m k c} = {k} := by
  ext c
  constructor
  · intro hc
    rcases Relation.ReflTransGen.cases_head hc with rfl | ⟨d, hd, -⟩
    · rfl
    · rw [h] at hd
      exact absurd hd List.not_mem_nil
  · rintro rfl
    exact Relation.ReflTransGen.refl

/-- A visit clears its key. -/
theorem clearedTo_clearNode (m : Mem) (k : ℕ) : ClearedTo {k} m (clearNode m (keyBody k)) where
  clear := by
    rintro c rfl
    exact isClear_clearNode m c
  frame x hx := clearNode_of_not_inVolatile m (hx k rfl)

/-- **The walk** clears the keys that leaves lead to, and writes nothing else. -/
theorem HiveTree.clearVolatile_spec (ht : HiveTree keys m) {fuel k : ℕ} (hk : k ∈ keys)
    {m₁ m₂ : Mem} (hag : Agree keys m m₁) (h : clearVolatile fuel m₁ k = some m₂) :
    ClearedTo {c | LeafReached m k c} m₁ m₂ := by
  induction fuel generalizing k m₁ m₂ with
  | zero => cases h
  | succ fuel ih =>
      have hnode := clearedTo_clearNode m₁ k
      have hag' := hag.clearedTo (Set.singleton_subset_iff.mpr hk) hnode
      rw [clearVolatile, ht.clearKey_eq hag hk] at h
      rcases ht.walkList_cases hk with ⟨hlist, hcount⟩ | ⟨hlist, hcount, hleaf⟩ |
        ⟨hlist, hcount, hleaf, hroot⟩
      · have hnil : leafChildKeys m k = [] := by
          rw [leafChildKeys, childKeys, if_pos hcount, ite_self]
        rw [hlist] at h
        cases h
        rw [leafReached_of_nil hnil]
        exact hnode
      · rw [hlist] at h
        have hs : ∀ j < indexCount m (keyBody (indexAddr m k)),
            {c | LeafReached m (cellAddr (leafCell m (keyBody (indexAddr m k)) j)) c} ⊆ keys :=
          fun j hj c hc => ht.mem_of_reached (ht.leafCell_mem hk hcount hleaf hj).2 hc.reached
        have hloop := (ht.loopOver_leaf hk hcount hleaf).clearedTo ht hs
          (fun m₃ m₄ j hag₃ hj hcall => ih (ht.leafCell_mem hk hcount hleaf hj).2 hag₃ hcall)
          (by have := indexCount_lt m (keyBody (indexAddr m k)); omega) hag' h
        rw [leafReached_of_isLeaf hcount hleaf]
        refine hnode.trans hloop fun c hc hclear => ?_
        refine ht.keep ?_ hloop (Set.singleton_subset_iff.mpr hk hc) hclear
        rintro c ⟨j, -, hj, hc⟩
        exact hs j hj hc
      · have hnil : leafChildKeys m k = [] := by rw [leafChildKeys, if_neg hleaf]
        rw [hlist] at h
        have hloop := (ht.loopOver_root hk hcount hroot).clearedTo ht (s := fun _ => ∅)
          (fun _ _ => Set.empty_subset _)
          (fun m₃ m₄ j hag₃ hj hcall => by
            rw [(ht.clearVolatile_leafAddr hk hcount hroot hag₃ hj hcall).1]
            exact ⟨fun _ hc => absurd hc (Set.notMem_empty _), fun _ _ => rfl⟩)
          (by have := indexCount_lt m (keyBody (indexAddr m k)); omega) hag' h
        rw [leafReached_of_nil hnil]
        have hboth := hnode.trans hloop fun c hc hclear => by
          refine ht.keep ?_ hloop (Set.singleton_subset_iff.mpr hk hc) hclear
          rintro c ⟨j, -, -, hc⟩
          exact absurd hc (Set.notMem_empty _)
        refine ⟨fun c hc => hboth.clear c (Or.inl hc), fun x hx => hboth.frame x ?_⟩
        rintro c (hc | ⟨j, -, -, hc⟩)
        · exact hx c hc
        · exact absurd hc (Set.notMem_empty _)

/-- **A second walk** over keys that are clear writes nothing. -/
theorem HiveTree.clearVolatile_again (ht : HiveTree keys m) {fuel k : ℕ} (hk : k ∈ keys)
    {m₁ m₂ m' : Mem} (hag : Agree keys m m₁) (h : clearVolatile fuel m₁ k = some m₂)
    (hag' : Agree keys m m') (hclear : ∀ c, LeafReached m k c → IsClear m' c) :
    clearVolatile fuel m' k = some m' := by
  induction fuel generalizing k m₁ m₂ with
  | zero => cases h
  | succ fuel ih =>
      have hag₁ := hag.clearedTo (Set.singleton_subset_iff.mpr hk) (clearedTo_clearNode m₁ k)
      have hsame : clearNode m' (keyBody k) = m' :=
        clearNode_of_isClear (hclear k Relation.ReflTransGen.refl)
      rw [clearVolatile, ht.clearKey_eq hag hk] at h
      rw [clearVolatile, ht.clearKey_eq hag' hk, hsame]
      rcases ht.walkList_cases hk with ⟨hlist, -⟩ | ⟨hlist, hcount, hleaf⟩ |
        ⟨hlist, hcount, hleaf, hroot⟩
      · rw [hlist]
      · rw [hlist] at h ⊢
        refine (ht.loopOver_leaf hk hcount hleaf).again hag' (fun m₃ m₄ j hag₃ hj hcall => ?_) hag₁ h
        obtain ⟨hchild, hmem⟩ := ht.leafCell_mem hk hcount hleaf hj
        refine ⟨hag₃.clearedTo (fun c hc => ht.mem_of_reached hmem hc.reached)
          (ht.clearVolatile_spec hmem hag₃ hcall), ih hmem hag₃ hcall fun c hc => ?_⟩
        exact hclear c (Relation.ReflTransGen.head hchild hc)
      · rw [hlist] at h ⊢
        refine (ht.loopOver_root hk hcount hroot).again hag' (fun m₃ m₄ j hag₃ hj hcall => ?_) hag₁ h
        obtain ⟨rfl, hfuel⟩ := ht.clearVolatile_leafAddr hk hcount hroot hag₃ hj hcall
        obtain ⟨fuel, rfl⟩ := Nat.exists_eq_succ_of_ne_zero hfuel
        have hleafAddr : cellAddr (rootCell m (keyBody (indexAddr m k)) j) ∈ leafAddrs m k :=
          List.mem_map_of_mem (List.mem_map.mpr ⟨j, List.mem_range.mpr hj, rfl⟩)
        refine ⟨hag₃, ?_⟩
        rw [clearVolatile, ht.clearKey_leafAddr hag' hk hcount hroot hleafAddr]

end Walk

/-! ## Opening -/

/-- All keys are clear after an opening, which has written nothing else behind the header. -/
structure OpenClears (m m' : Mem) : Prop where
  clear : ∀ c, Reached m (rootKey m) c → IsClear m' c
  frame : ∀ x, 0x1000 ≤ x → (∀ c, Reached m (rootKey m) c → ¬InVolatile c x) → m' x = m x

/-- The header is not a part of the keys. -/
theorem agree_repairHeader (keys : Set ℕ) (m : Mem) : Agree keys m (repairHeader m) :=
  fun _ hx _ => repairHeader_frame m (by omega) (by omega)

/-- An opening clears the keys that leaves lead to, and writes nothing else behind the header. -/
theorem HiveTree.regOpenHive_spec {keys : Set ℕ} {m m' : Mem} {fuel : ℕ} (ht : HiveTree keys m)
    (hroot : rootKey m ∈ keys) (h : regOpenHive fuel m = some (.ok m')) :
    ClearedTo {c | LeafReached m (rootKey m) c} (repairHeader m) m' :=
  ht.clearVolatile_spec hroot (agree_repairHeader keys m) (regOpenHive_ok_iff.mp h).2.2

/-- **Opening a hive clears the volatile fields of every key** exactly if those of the keys that only
roots of indexes lead to are clear before. -/
theorem regOpenHive_clears_iff {keys : Set ℕ} {m m' : Mem} {fuel : ℕ} (ht : HiveTree keys m)
    (hroot : rootKey m ∈ keys) (h : regOpenHive fuel m = some (.ok m')) :
    OpenClears m m' ↔
      ∀ c, Reached m (rootKey m) c → ¬LeafReached m (rootKey m) c → IsClear m c := by
  have hspec := ht.regOpenHive_spec hroot h
  have hkeys : {c | LeafReached m (rootKey m) c} ⊆ keys :=
    fun c hc => ht.mem_of_reached hroot hc.reached
  -- a key that the walk does not come to is the same after it
  have hsame : ∀ c, Reached m (rootKey m) c → ¬LeafReached m (rootKey m) c →
      (IsClear m' c ↔ IsClear m c) := by
    intro c hc hleaf
    have hmem := ht.mem_of_reached hroot hc
    have haddr := ht.addr c hmem
    apply isClear_congr
    intro x hx
    have hspan := ht.inVolatile_span hmem hx
    rw [hspec.frame x, repairHeader_frame m (by omega) (by omega)]
    intro d hd hxd
    have hapart := ht.node_node c hmem d (hkeys hd) fun heq => hleaf (heq ▸ hd)
    have hspan' := ht.inVolatile_span (hkeys hd) hxd
    rw [Apart, nodeSpan, nodeSpan] at hapart
    dsimp only at hapart
    omega
  constructor
  · intro hclears c hc hleaf
    exact (hsame c hc hleaf).mp (hclears.clear c hc)
  · intro hclear
    refine ⟨fun c hc => ?_, fun x hx hvol => ?_⟩
    · by_cases hleaf : LeafReached m (rootKey m) c
      · exact hspec.clear c hleaf
      · exact (hsame c hc hleaf).mpr (hclear c hc hleaf)
    · rw [hspec.frame x fun c hc => hvol c hc.reached, repairHeader_frame m (by omega) (by omega)]

/-- The header and the bin of a hive of 0x2000 bytes with a root key at 0x1020. -/
def smallHive : List (ℕ × ℕ × ℕ) :=
  [(0, 4, 0x66676572), (20, 4, 1), (24, 4, 3), (32, 4, 1), (36, 4, 0x20), (40, 4, 0x1000),
    (44, 4, 1), (0x1000, 4, 0x6e696268), (0x1008, 4, 0x1000)]

/-- The subkey of the root key stands in a leaf. -/
def leafHive : Mem :=
  image (smallHive ++ oneSubKey ++ [(0x1080, 4, 2 ^ 32 - 16), (0x1084, 2, keyFastLeaf),
    (0x1086, 2, 1), (0x1088, 4, 0xa0)])

/-- The subkey of the root key stands in a leaf behind a root. -/
def rootHive : Mem :=
  image (smallHive ++ oneSubKey ++ [(0x1080, 4, 2 ^ 32 - 16), (0x1084, 2, keyIndexRoot),
    (0x1086, 2, 1), (0x1088, 4, 0x110), (0x1110, 4, 2 ^ 32 - 16), (0x1114, 2, keyFastLeaf),
    (0x1116, 2, 1), (0x1118, 4, 0xa0)])

/-- The two keys of the hives. -/
def twoKeys : Set ℕ := {k | k ∈ [0x1020, 0x10a0]}

/-- The index of the root key of the hives is a leaf or a root, and the subkey has none. -/
theorem anyIndexOk_hives {m : Mem} (hm : m = leafHive ∨ m = rootHive) :
    ∀ k ∈ twoKeys, subKeyCount m (keyBody k) ≠ 0 → AnyIndexOk m k := by
  rcases hm with rfl | rfl
  · have h : ∀ k ∈ [0x1020, 0x10a0], subKeyCount leafHive (keyBody k) ≠ 0 →
        subKeyList leafHive (keyBody k) ≠ noCell ∧ 0x1000 ≤ indexAddr leafHive k ∧
          checkLeaf leafHive (indexAddr leafHive k) (keyBody (indexAddr leafHive k)) = .ok () := by
      decide +kernel
    intro k hk hcount
    obtain ⟨h₁, h₂, h₃⟩ := h k hk hcount
    exact ⟨h₁, h₂, Or.inl h₃⟩
  · have h : ∀ k ∈ [0x1020, 0x10a0], subKeyCount rootHive (keyBody k) ≠ 0 →
        subKeyList rootHive (keyBody k) ≠ noCell ∧ 0x1000 ≤ indexAddr rootHive k ∧
          getInt32Size rootHive (indexAddr rootHive k) < 2 ^ 31 ∧
          8 + 4 * indexCount rootHive (keyBody (indexAddr rootHive k)) ≤
            getInt32Size rootHive (indexAddr rootHive k) ∧
          indexSignature rootHive (keyBody (indexAddr rootHive k)) = keyIndexRoot ∧
          ∀ a ∈ leafAddrs rootHive k, 0x1000 ≤ a ∧ checkLeaf rootHive a (keyBody a) = .ok () := by
      decide +kernel
    intro k hk hcount
    obtain ⟨h₁, h₂, h₃, h₄, h₅, h₆⟩ := h k hk hcount
    exact ⟨h₁, h₂, Or.inr ⟨h₃, h₄, h₅, h₆⟩⟩

/-- Both hives have a tree of two keys. -/
theorem hiveTree_hives {m : Mem} (hm : m = leafHive ∨ m = rootHive) : HiveTree twoKeys m where
  addr := by
    have h : ∀ k ∈ [0x1020, 0x10a0], 0x1000 ≤ k := by decide
    exact h
  node := by
    have h : ∀ k ∈ [0x1020, 0x10a0], checkNode m k (keyBody k) = .ok () := by
      rcases hm with rfl | rfl <;> decide +kernel
    exact h
  index := anyIndexOk_hives hm
  closed := by
    have h : ∀ k ∈ [0x1020, 0x10a0], ∀ c ∈ allChildKeys m k, c ∈ [0x1020, 0x10a0] := by
      rcases hm with rfl | rfl <;> decide +kernel
    exact h
  node_node := by
    have h : ∀ k ∈ [0x1020, 0x10a0], ∀ k' ∈ [0x1020, 0x10a0], k ≠ k' →
        Apart (nodeSpan m k) (nodeSpan m k') := by
      rcases hm with rfl | rfl <;> decide +kernel
    exact h
  node_index := by
    have h : ∀ k ∈ [0x1020, 0x10a0], ∀ k' ∈ [0x1020, 0x10a0], subKeyCount m (keyBody k') ≠ 0 →
        Apart (nodeSpan m k) (indexSpan m k') := by
      rcases hm with rfl | rfl <;> decide +kernel
    exact h
  node_leaf := by
    have h : ∀ k ∈ [0x1020, 0x10a0], ∀ k' ∈ [0x1020, 0x10a0], subKeyCount m (keyBody k') ≠ 0 →
        indexSignature m (keyBody (indexAddr m k')) = keyIndexRoot →
          ∀ a ∈ leafAddrs m k', Apart (nodeSpan m k) (a, getInt32Size m a) := by
      rcases hm with rfl | rfl <;> decide +kernel
    exact fun k hk k' hk' hcount hroot => h k hk k' hk' hcount hroot.signature

/-- Opening the hives succeeds. -/
theorem exists_regOpenHive_hives {m : Mem} (hm : m = leafHive ∨ m = rootHive) :
    ∃ m', regOpenHive 3 m = some (.ok m') := by
  have h : (regOpenHive 3 m).map Except.isOk = some true := by
    rcases hm with rfl | rfl <;> decide +kernel
  obtain ⟨r, hr, hok⟩ := Option.map_eq_some_iff.mp h
  cases r with
  | error e => cases hok
  | ok m' => exact ⟨m', hr⟩

/-- Their root key is the first. -/
theorem rootKey_hives {m : Mem} (hm : m = leafHive ∨ m = rootHive) : rootKey m = 0x1020 := by
  rcases hm with rfl | rfl <;> decide +kernel

/-- The hive whose subkey stands in a leaf. -/
theorem regOpenHive_clears_iff_leafHive :
    ∃ m', regOpenHive 3 leafHive = some (.ok m') ∧ (OpenClears leafHive m' ↔
      ∀ c, Reached leafHive (rootKey leafHive) c → ¬LeafReached leafHive (rootKey leafHive) c →
        IsClear leafHive c) := by
  obtain ⟨m', hm'⟩ := exists_regOpenHive_hives (.inl rfl)
  have hroot : rootKey leafHive ∈ twoKeys := by
    rw [rootKey_hives (.inl rfl)]
    exact List.mem_cons_self
  exact ⟨m', hm', regOpenHive_clears_iff (hiveTree_hives (.inl rfl)) hroot hm'⟩

/-- The key behind a root keeps its volatile fields. -/
theorem not_openClears_rootHive :
    ¬∀ (keys : Set ℕ) (m m' : Mem) (fuel : ℕ), HiveTree keys m → rootKey m ∈ keys →
      regOpenHive fuel m = some (.ok m') → OpenClears m m' := by
  intro h
  have ht := hiveTree_hives (.inr rfl)
  have hroot : rootKey rootHive ∈ twoKeys := by
    rw [rootKey_hives (.inr rfl)]
    exact List.mem_cons_self
  obtain ⟨m', hm'⟩ := exists_regOpenHive_hives (.inr rfl)
  have hspec := ht.regOpenHive_spec hroot hm'
  have hnil : leafChildKeys rootHive (rootKey rootHive) = [] := by decide +kernel
  have hchild : Reached rootHive (rootKey rootHive) 0x10a0 :=
    Relation.ReflTransGen.single (by decide +kernel)
  have hclear := (h twoKeys rootHive m' 3 ht hroot hm').clear 0x10a0 hchild
  -- the walk has written to the root key only
  have hbefore : IsClear rootHive 0x10a0 := by
    refine (isClear_congr fun x hx => ?_).mp hclear
    rw [leafReached_of_nil hnil, rootKey_hives (.inr rfl)] at hspec
    rw [InVolatile, keyBody] at hx
    rw [hspec.frame x, repairHeader_frame _ (by omega) (by omega)]
    rintro k rfl hk
    rw [InVolatile, keyBody] at hk
    omega
  revert hbefore
  decide +kernel

end Ntloader.Reg
