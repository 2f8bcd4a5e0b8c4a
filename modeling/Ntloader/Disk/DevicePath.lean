import Ntloader.Lib.Memory

/-!
# Device paths

A device path is a sequence of nodes with their lengths in front, and a node that ends it. A pointer to
a node is the list of the bytes from there on, with zeros behind the last.

* `findLastDevicePath`, `compareDevicePaths`, `duplicateDevicePath` — disk/efidisk.c.
* `parentDevicePath` — the path that `find_parent_device` looks for.
* `IsNode`, `encodePath` — well-formed device paths.
* `compareDevicePaths_eq_zero_iff`, `isParentPath_iff` — what the functions find on them.
-/

namespace Ntloader.Disk

open Ntloader.Lib

/-! ## The functions -/

/-- Source: include/efi/Protocol/DevicePath.h, END_DEVICE_PATH_TYPE -/
def endDevicePathType : UInt8 := 0x7f

/-- Source: include/efi/Protocol/DevicePath.h, END_ENTIRE_DEVICE_PATH_SUBTYPE -/
def endEntireDevicePathSubtype : UInt8 := 0xff

/-- Source: disk/efidisk.c, DP_TYPE -/
def dpType (dp : List UInt8) : UInt8 := dp.getD 0 0 &&& 0x7f

/-- Source: disk/efidisk.c, DP_SUBTYPE -/
def dpSubtype (dp : List UInt8) : UInt8 := dp.getD 1 0

/-- Source: disk/efidisk.c, DP_LENGTH -/
def dpLength (dp : List UInt8) : ℕ := (dp.getD 3 0).toNat * 2 ^ 8 + (dp.getD 2 0).toNat

/-- Source: disk/efidisk.c, DP_VALID -/
def dpValid (dp : List UInt8) : Bool := dpLength dp ≥ 4

/-- Source: disk/efidisk.c, END_ENTIRE_DP -/
def endEntireDp (dp : List UInt8) : Bool :=
  ¬dpValid dp ∨ dpType dp = endDevicePathType ∧ dpSubtype dp = endEntireDevicePathSubtype

/-- The node behind a valid one.
Source: disk/efidisk.c, NEXT_DP -/
def nextDp (dp : List UInt8) : List UInt8 := dp.drop (dpLength dp)

/-- The loop to the last node. It stops at a node that is not valid, of which there is one at the end
of the bytes.
Source: disk/efidisk.c, find_last_device_path -/
def findLastLoop : ℕ → List UInt8 → List UInt8
  | 0, p => p
  | fuel + 1, p =>
      if ¬dpValid p ∨ endEntireDp (nextDp p) then p else findLastLoop fuel (nextDp p)

/-- Return the device path node right before the end node.
Source: disk/efidisk.c, find_last_device_path -/
def findLastDevicePath (dp : List UInt8) : Option (List UInt8) :=
  if endEntireDp dp then none else some (findLastLoop dp.length dp)

/-- Source: posix/string.c, memcmp -/
def memcmp : ℕ → List UInt8 → List UInt8 → ℤ
  | 0, _, _ => 0
  | len + 1, bytes1, bytes2 =>
      let diff : ℤ := (bytes1.headD 0).toNat - (bytes2.headD 0).toNat
      if diff ≠ 0 then diff else memcmp len bytes1.tail bytes2.tail

/-- The end of the comparison.
Source: disk/efidisk.c, compare_device_paths, behind the loop -/
def compareEnd (dp1 dp2 : List UInt8) : ℤ :=
  if dpValid dp1 ∧ ¬dpValid dp2 then 1
  else if ¬dpValid dp1 ∧ dpValid dp2 then -1
  else 0

/-- The loop over the nodes.
Source: disk/efidisk.c, compare_device_paths -/
def compareLoop : ℕ → List UInt8 → List UInt8 → ℤ
  | 0, dp1, dp2 => compareEnd dp1 dp2
  | fuel + 1, dp1, dp2 =>
      if dpValid dp1 ∧ dpValid dp2 then
        if dpType dp1 ≠ dpType dp2 then (dpType dp2).toNat - (dpType dp1).toNat
        else if dpSubtype dp1 ≠ dpSubtype dp2 then (dpSubtype dp1).toNat - (dpSubtype dp2).toNat
        else if dpLength dp1 ≠ dpLength dp2 then (dpLength dp1 : ℤ) - dpLength dp2
        else if memcmp (dpLength dp1) dp1 dp2 ≠ 0 then memcmp (dpLength dp1) dp1 dp2
        else if endEntireDp dp1 then compareEnd dp1 dp2
        else compareLoop fuel (nextDp dp1) (nextDp dp2)
      else compareEnd dp1 dp2

/-- Compare device paths. That a pointer is equal to itself makes no difference.
Source: disk/efidisk.c, compare_device_paths -/
def compareDevicePaths : Option (List UInt8) → Option (List UInt8) → ℤ
  | some dp1, some dp2 => compareLoop (dp1.length + 1) dp1 dp2
  | _, _ => 1

/-- The size of a device path, if no node is malformed.
Source: disk/efidisk.c, duplicate_device_path -/
def devicePathSize : ℕ → List UInt8 → ℕ → Option ℕ
  | 0, _, _ => none
  | fuel + 1, p, totalSize =>
      if dpLength p < 4 then none
      else if endEntireDp p then some (totalSize + dpLength p)
      else devicePathSize fuel (nextDp p) (totalSize + dpLength p)

/-- Duplicate a device path.
Source: disk/efidisk.c, duplicate_device_path -/
def duplicateDevicePath (dp : List UInt8) : Option (List UInt8) :=
  (devicePathSize (dp.length + 1) dp 0).map dp.take

/-- The node that ends a device path. -/
def endNode : List UInt8 := [endDevicePathType, endEntireDevicePathSubtype, 4, 0]

/-- A copy of the path with its last node made the end. The bytes of the node behind its header stay.
Source: disk/efidisk.c, find_parent_device -/
def parentDevicePath (dp : List UInt8) : Option (List UInt8) := do
  let dp ← duplicateDevicePath dp
  let ldp ← findLastDevicePath dp
  return dp.take (dp.length - ldp.length) ++ endNode ++ ldp.drop 4

/-! ## Well-formed paths -/

/-- Bytes with their number in the header. -/
structure IsBlock (node : List UInt8) : Prop where
  le_length : 4 ≤ node.length
  length_eq : dpLength node = node.length

/-- A node in front of the end. -/
structure IsNode (node : List UInt8) : Prop extends IsBlock node where
  not_end : endEntireDp node = false

/-- The device path of a sequence of nodes. -/
def encodePath (nodes : List (List UInt8)) : List UInt8 := nodes.flatten ++ endNode

/-- A well-formed device path. -/
def IsDevicePath (dp : List UInt8) : Prop :=
  ∃ nodes, (∀ node ∈ nodes, IsNode node) ∧ dp = encodePath nodes

/-- A device path without its last node. -/
def IsParentPath (parent dp : List UInt8) : Prop :=
  ∃ nodes node, (∀ n ∈ nodes, IsNode n) ∧ IsNode node ∧ dp = encodePath (nodes ++ [node]) ∧
    parent = encodePath nodes

/-- The end node is a block, -/
theorem isBlock_endNode : IsBlock endNode := ⟨by decide, by decide⟩

/-- and ends the path. -/
theorem endEntireDp_endNode : endEntireDp endNode = true := by decide

section

variable {node rest : List UInt8}

/-- The header of a node is in its first bytes. -/
theorem getD_node (h : 4 ≤ node.length) {i : ℕ} (hi : i < 4) :
    (node ++ rest).getD i 0 = node.getD i 0 :=
  List.getD_append _ _ _ _ (by omega)

/-- The type of a node is its own, whatever follows, -/
theorem dpType_node (h : 4 ≤ node.length) : dpType (node ++ rest) = dpType node := by
  rw [dpType, getD_node h (by norm_num), dpType]

/-- so is its subtype, -/
theorem dpSubtype_node (h : 4 ≤ node.length) : dpSubtype (node ++ rest) = dpSubtype node :=
  getD_node h (by norm_num)

/-- and its length. -/
theorem dpLength_node (h : 4 ≤ node.length) : dpLength (node ++ rest) = dpLength node := by
  rw [dpLength, getD_node h (by norm_num), getD_node h (by norm_num), dpLength]

/-- A block states its length, -/
theorem IsBlock.dpLength_append (h : IsBlock node) : dpLength (node ++ rest) = node.length :=
  (dpLength_node h.le_length).trans h.length_eq

/-- is valid, -/
theorem IsBlock.dpValid_append (h : IsBlock node) : dpValid (node ++ rest) = true := by
  rw [dpValid, h.dpLength_append]
  exact decide_eq_true h.le_length

/-- ends where the next one starts, -/
theorem IsBlock.nextDp_append (h : IsBlock node) : nextDp (node ++ rest) = rest := by
  rw [nextDp, h.dpLength_append, List.drop_left]

/-- and ends the path or not, whatever follows. -/
theorem IsBlock.endEntireDp_append (h : IsBlock node) :
    endEntireDp (node ++ rest) = endEntireDp node := by
  have hvalid : dpValid node = true := by
    have hnil := @IsBlock.dpValid_append node [] h
    rwa [List.append_nil] at hnil
  rw [endEntireDp, endEntireDp, h.dpValid_append, hvalid, dpType_node h.le_length,
    dpSubtype_node h.le_length]

end

/-- Equation lemma: the first node comes first. -/
theorem encodePath_cons (node : List UInt8) (nodes : List (List UInt8)) :
    encodePath (node :: nodes) = node ++ encodePath nodes := by
  rw [encodePath, List.flatten_cons, List.append_assoc, encodePath]

/-- A path has more bytes than nodes. -/
theorem length_le_encodePath {nodes : List (List UInt8)} (h : ∀ n ∈ nodes, IsNode n) :
    nodes.length ≤ (encodePath nodes).length := by
  induction nodes with
  | nil => exact Nat.zero_le _
  | cons n nodes ih =>
      have hle := (h n List.mem_cons_self).le_length
      have := ih fun m hm => h m (List.mem_cons_of_mem _ hm)
      rw [encodePath_cons, List.length_cons, List.length_append]
      omega

/-- A node behind nodes. -/
theorem append_isNode {nodes : List (List UInt8)} {node : List UInt8}
    (hnodes : ∀ n ∈ nodes, IsNode n) (hnode : IsNode node) : ∀ n ∈ nodes ++ [node], IsNode n :=
  List.forall_mem_append.mpr ⟨hnodes, List.forall_mem_singleton.mpr hnode⟩

/-! ## The last node -/

/-- The loop for the last node ends at it. -/
theorem findLastLoop_encodePath {nodes : List (List UInt8)} {node : List UInt8}
    (hnodes : ∀ n ∈ nodes, IsNode n) (hnode : IsNode node) {fuel : ℕ} (hfuel : nodes.length ≤ fuel)
    (rest : List UInt8) : findLastLoop fuel (encodePath (nodes ++ [node]) ++ rest) =
      node ++ (endNode ++ rest) := by
  induction nodes generalizing fuel with
  | nil =>
      have hpath : encodePath ([] ++ [node]) ++ rest = node ++ (endNode ++ rest) := by
        rw [List.nil_append, encodePath_cons, List.append_assoc]
        rfl
      rw [hpath]
      cases fuel with
      | zero => rfl
      | succ fuel =>
          rw [findLastLoop, hnode.nextDp_append, isBlock_endNode.endEntireDp_append]
          exact if_pos (Or.inr endEntireDp_endNode)
  | cons n nodes ih =>
      rw [List.length_cons] at hfuel
      obtain ⟨fuel, rfl⟩ : ∃ k, fuel = k + 1 := ⟨fuel - 1, by omega⟩
      have hn := hnodes n List.mem_cons_self
      have hnext : endEntireDp (encodePath (nodes ++ [node]) ++ rest) = false := by
        cases nodes with
        | nil =>
            rw [List.nil_append, encodePath_cons, List.append_assoc, hnode.endEntireDp_append]
            exact hnode.not_end
        | cons n' nodes =>
            have hn' := hnodes n' (List.mem_cons_of_mem _ List.mem_cons_self)
            rw [List.cons_append, encodePath_cons, List.append_assoc, hn'.endEntireDp_append]
            exact hn'.not_end
      rw [List.cons_append, encodePath_cons, List.append_assoc, findLastLoop, hn.nextDp_append,
        hn.dpValid_append, hnext, if_neg (by decide)]
      exact ih (fun m hm => hnodes m (List.mem_cons_of_mem _ hm)) (by omega)

/-- The last node of a path, with the end behind it. -/
theorem findLastDevicePath_encodePath {nodes : List (List UInt8)} {node : List UInt8}
    (hnodes : ∀ n ∈ nodes, IsNode n) (hnode : IsNode node) :
    findLastDevicePath (encodePath (nodes ++ [node])) = some (node ++ endNode) := by
  have hend : endEntireDp (encodePath (nodes ++ [node])) = false := by
    cases nodes with
    | nil =>
        rw [List.nil_append, encodePath_cons, hnode.endEntireDp_append]
        exact hnode.not_end
    | cons n nodes =>
        have hn := hnodes n List.mem_cons_self
        rw [List.cons_append, encodePath_cons, hn.endEntireDp_append]
        exact hn.not_end
  have hlen : nodes.length ≤ (encodePath (nodes ++ [node])).length := by
    refine le_trans ?_ (length_le_encodePath (append_isNode hnodes hnode))
    rw [List.length_append]
    exact Nat.le_add_right _ _
  have hloop := findLastLoop_encodePath hnodes hnode hlen []
  rw [List.append_nil, List.append_nil] at hloop
  rw [findLastDevicePath, hend, if_neg Bool.false_ne_true, hloop]

/-! ## Comparison -/

/-- Blocks of one length compare equal exactly if they are. -/
theorem memcmp_eq_zero_iff {s t : List UInt8} (h : s.length = t.length) (x y : List UInt8) :
    memcmp s.length (s ++ x) (t ++ y) = 0 ↔ s = t := by
  induction s generalizing t with
  | nil =>
      rw [List.length_nil, eq_comm, List.length_eq_zero_iff] at h
      exact iff_of_true rfl h.symm
  | cons c s ih =>
      cases t with
      | nil => cases h
      | cons d t =>
          rw [List.length_cons, List.length_cons, Nat.add_right_cancel_iff] at h
          have hdiff : ((c.toNat : ℤ) - d.toNat = 0) ↔ c = d := by
            rw [sub_eq_zero, Nat.cast_inj, UInt8.toNat_inj]
          show (if (c.toNat : ℤ) - d.toNat ≠ 0 then (c.toNat : ℤ) - d.toNat
            else memcmp s.length (s ++ x) (t ++ y)) = 0 ↔ c :: s = d :: t
          rw [List.cons_eq_cons, ← ih h]
          by_cases hcd : c = d
          · rw [if_neg (not_not.mpr (hdiff.mpr hcd)), and_iff_right hcd]
          · have hne := fun h0 => hcd (hdiff.mp h0)
            rw [if_pos hne]
            exact iff_of_false hne fun h => hcd h.1

/-- One step: the nodes are equal, and so are the paths behind them if there are any. -/
theorem compareLoop_block {b c : List UInt8} (hb : IsBlock b) (hc : IsBlock c) (fuel : ℕ)
    (x y : List UInt8) : compareLoop (fuel + 1) (b ++ x) (c ++ y) = 0 ↔
      b = c ∧ (endEntireDp b = true ∨ compareLoop fuel x y = 0) := by
  have hcmp : compareEnd (b ++ x) (c ++ y) = 0 := by
    rw [compareEnd, hb.dpValid_append, hc.dpValid_append]
    rfl
  rw [compareLoop, hb.dpValid_append, hc.dpValid_append, if_pos ⟨rfl, rfl⟩,
    dpType_node hb.le_length, dpType_node hc.le_length, dpSubtype_node hb.le_length,
    dpSubtype_node hc.le_length, hb.dpLength_append, hc.dpLength_append, hb.nextDp_append,
    hc.nextDp_append, hb.endEntireDp_append, hcmp]
  have hbyte {v w : UInt8} (h : v ≠ w) : ((v.toNat : ℤ) - w.toNat) ≠ 0 := fun h0 =>
    h (UInt8.toNat_inj.mp (Nat.cast_inj.mp (sub_eq_zero.mp h0)))
  by_cases hbc : b = c
  · subst hbc
    rw [if_neg (not_not.mpr rfl), if_neg (not_not.mpr rfl), if_neg (not_not.mpr rfl),
      if_neg (not_not.mpr ((memcmp_eq_zero_iff rfl x y).mpr rfl)), and_iff_right rfl]
    split_ifs with hend
    · exact iff_of_true rfl (Or.inl hend)
    · exact (or_iff_right hend).symm
  · refine iff_of_false ?_ fun h => hbc h.1
    split_ifs with htype hsubtype hlength hmem hend
    · exact hbyte (Ne.symm htype)
    · exact hbyte hsubtype
    · exact fun h0 => hlength (Nat.cast_inj.mp (sub_eq_zero.mp h0))
    · exact hmem
    · exact fun _ => hbc ((memcmp_eq_zero_iff (not_not.mp hlength) x y).mp (not_not.mp hmem))
    · exact fun _ => hbc ((memcmp_eq_zero_iff (not_not.mp hlength) x y).mp (not_not.mp hmem))

/-- The loop of the comparison finds equal paths only equal. -/
theorem compareLoop_encodePath {ns ms : List (List UInt8)} (hns : ∀ n ∈ ns, IsNode n)
    (hms : ∀ m ∈ ms, IsNode m) {fuel : ℕ} (hfuel : ns.length < fuel) (x y : List UInt8) :
    compareLoop fuel (encodePath ns ++ x) (encodePath ms ++ y) = 0 ↔ ns = ms := by
  have hnil (z : List UInt8) : encodePath [] ++ z = endNode ++ z := rfl
  have hne {n : List UInt8} (hn : IsNode n) : n ≠ endNode := by
    rintro rfl
    exact absurd hn.not_end (by decide)
  induction ns generalizing ms fuel with
  | nil =>
      obtain ⟨fuel, rfl⟩ : ∃ k, fuel = k + 1 := ⟨fuel - 1, by omega⟩
      cases ms with
      | nil =>
          rw [hnil, hnil, compareLoop_block isBlock_endNode isBlock_endNode]
          exact iff_of_true ⟨rfl, Or.inl endEntireDp_endNode⟩ rfl
      | cons m ms =>
          have hm := hms m List.mem_cons_self
          rw [hnil, encodePath_cons, List.append_assoc,
            compareLoop_block isBlock_endNode hm.toIsBlock]
          exact iff_of_false (fun h => hne hm h.1.symm) (List.cons_ne_nil m ms).symm
  | cons n ns ih =>
      obtain ⟨fuel, rfl⟩ : ∃ k, fuel = k + 1 := ⟨fuel - 1, by omega⟩
      rw [List.length_cons] at hfuel
      have hn := hns n List.mem_cons_self
      cases ms with
      | nil =>
          rw [hnil, encodePath_cons, List.append_assoc,
            compareLoop_block hn.toIsBlock isBlock_endNode]
          exact iff_of_false (fun h => hne hn h.1) (List.cons_ne_nil n ns)
      | cons m ms =>
          have hm := hms m List.mem_cons_self
          have hrest := ih (fun k hk => hns k (List.mem_cons_of_mem _ hk))
            (fun k hk => hms k (List.mem_cons_of_mem _ hk)) (Nat.lt_of_succ_lt_succ hfuel)
          rw [encodePath_cons, encodePath_cons, List.append_assoc, List.append_assoc,
            compareLoop_block hn.toIsBlock hm.toIsBlock, hn.not_end, List.cons_eq_cons]
          exact and_congr_right fun _ => (or_iff_right Bool.false_ne_true).trans hrest

/-- Well-formed paths are equal if their nodes are. Bytes behind the end of one do not count. -/
theorem compareDevicePaths_eq_zero_iff {ns ms : List (List UInt8)} (hns : ∀ n ∈ ns, IsNode n)
    (hms : ∀ m ∈ ms, IsNode m) (y : List UInt8) :
    compareDevicePaths (some (encodePath ns)) (some (encodePath ms ++ y)) = 0 ↔ ns = ms := by
  have hloop := compareLoop_encodePath hns hms (Nat.lt_succ_of_le (length_le_encodePath hns)) [] y
  rw [List.append_nil] at hloop
  exact hloop

/-- A path is known by its bytes. -/
theorem encodePath_injective {ns ms : List (List UInt8)} (hns : ∀ n ∈ ns, IsNode n)
    (hms : ∀ m ∈ ms, IsNode m) (h : encodePath ns = encodePath ms) : ns = ms := by
  have hrefl := (compareDevicePaths_eq_zero_iff hns hns []).mpr rfl
  rw [← compareDevicePaths_eq_zero_iff hns hms [], ← h]
  exact hrefl

/-! ## Duplicates -/

/-- The size of a path is that of its bytes. -/
theorem devicePathSize_encodePath {nodes : List (List UInt8)} (hnodes : ∀ n ∈ nodes, IsNode n)
    {fuel : ℕ} (hfuel : nodes.length < fuel) (totalSize : ℕ) :
    devicePathSize fuel (encodePath nodes) totalSize =
      some (totalSize + (encodePath nodes).length) := by
  induction nodes generalizing fuel totalSize with
  | nil =>
      obtain ⟨fuel, rfl⟩ : ∃ k, fuel = k + 1 := ⟨fuel - 1, by omega⟩
      have hlen : dpLength (encodePath []) = (encodePath []).length := isBlock_endNode.length_eq
      have hend : endEntireDp (encodePath []) = true := endEntireDp_endNode
      rw [devicePathSize, hlen, if_neg (by decide), if_pos hend]
  | cons n nodes ih =>
      obtain ⟨fuel, rfl⟩ : ∃ k, fuel = k + 1 := ⟨fuel - 1, by omega⟩
      rw [List.length_cons] at hfuel
      have hn := hnodes n List.mem_cons_self
      have hle := hn.le_length
      have hrest := ih (fun m hm => hnodes m (List.mem_cons_of_mem _ hm))
        (Nat.lt_of_succ_lt_succ hfuel) (totalSize + n.length)
      rw [encodePath_cons, devicePathSize, hn.dpLength_append, if_neg (by omega),
        hn.endEntireDp_append, hn.not_end, if_neg Bool.false_ne_true, hn.nextDp_append, hrest,
        List.length_append, Nat.add_assoc]

/-- A well-formed path is copied as a whole. -/
theorem duplicateDevicePath_encodePath {nodes : List (List UInt8)}
    (hnodes : ∀ n ∈ nodes, IsNode n) :
    duplicateDevicePath (encodePath nodes) = some (encodePath nodes) := by
  rw [duplicateDevicePath,
    devicePathSize_encodePath hnodes (Nat.lt_succ_of_le (length_le_encodePath hnodes)),
    Nat.zero_add, Option.map_some, List.take_length]

/-- The copy whose last node is made the end is the path without its last node. -/
theorem parentDevicePath_eq {nodes : List (List UInt8)} {node : List UInt8}
    (hnodes : ∀ n ∈ nodes, IsNode n) (hnode : IsNode node) :
    ∃ rest, parentDevicePath (encodePath (nodes ++ [node])) = some (encodePath nodes ++ rest) := by
  have hpath : encodePath (nodes ++ [node]) = nodes.flatten ++ (node ++ endNode) := by
    rw [encodePath, List.flatten_append, List.append_assoc, List.flatten_singleton]
  have htake : (encodePath (nodes ++ [node])).take
      ((encodePath (nodes ++ [node])).length - (node ++ endNode).length) = nodes.flatten := by
    rw [hpath, @List.length_append _ nodes.flatten, Nat.add_sub_cancel, List.take_left]
  refine ⟨(node ++ endNode).drop 4, ?_⟩
  rw [parentDevicePath, duplicateDevicePath_encodePath (append_isNode hnodes hnode)]
  show (findLastDevicePath (encodePath (nodes ++ [node]))).bind _ = _
  rw [findLastDevicePath_encodePath hnodes hnode]
  show some ((encodePath (nodes ++ [node])).take
    ((encodePath (nodes ++ [node])).length - (node ++ endNode).length) ++ endNode ++ _) = _
  rw [htake]
  rfl

/-- A path is found as the parent exactly if it is the path without the last node. -/
theorem isParentPath_iff {parent dp : List UInt8} (hparent : IsDevicePath parent)
    (hdp : IsDevicePath dp) : IsParentPath parent dp ↔
      ∃ copy, parentDevicePath dp = some copy ∧ compareDevicePaths (some parent) (some copy) = 0 := by
  obtain ⟨ms, hms, rfl⟩ := hparent
  obtain ⟨ns, hns, rfl⟩ := hdp
  rcases List.eq_nil_or_concat' ns with rfl | ⟨nodes, node, rfl⟩
  · refine iff_of_false ?_ ?_
    · rintro ⟨nodes, node, hnodes, hnode, hpath, -⟩
      have := encodePath_injective hns (append_isNode hnodes hnode) hpath
      exact absurd this.symm (by simp)
    · rintro ⟨copy, hcopy, -⟩
      have hnone : parentDevicePath (encodePath []) = none := by decide
      rw [hnone] at hcopy
      cases hcopy
  · obtain ⟨hnodes, hlast⟩ := List.forall_mem_append.mp hns
    have hnode := List.forall_mem_singleton.mp hlast
    obtain ⟨rest, hcopy⟩ := parentDevicePath_eq hnodes hnode
    have hcmp := compareDevicePaths_eq_zero_iff hms hnodes rest
    constructor
    · rintro ⟨nodes', node', hnodes', hnode', hpath, hparent⟩
      have heq := encodePath_injective hns (append_isNode hnodes' hnode') hpath
      rw [(List.append_inj' heq rfl).1]
      rw [(List.append_inj' heq rfl).1] at hcopy
      rw [encodePath_injective hms hnodes' hparent]
      exact ⟨_, hcopy, (compareDevicePaths_eq_zero_iff hnodes' hnodes' rest).mpr rfl⟩
    · rintro ⟨copy, hcopy', hzero⟩
      rw [hcopy] at hcopy'
      cases hcopy'
      exact ⟨nodes, node, hnodes, hnode, rfl, congrArg encodePath (hcmp.mp hzero)⟩

/-- A path is not its own parent. -/
theorem not_isParentPath_self (dp : List UInt8) : ¬IsParentPath dp dp := by
  rintro ⟨nodes, node, hnodes, hnode, hdp, hparent⟩
  have heq := encodePath_injective (append_isNode hnodes hnode) hnodes (hdp.symm.trans hparent)
  simpa using congrArg List.length heq

end Ntloader.Disk
