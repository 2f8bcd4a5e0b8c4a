import Ntloader.Disk.Devices
import Ntloader.Lib.Compare

/-!
# The order of the devices

A list of devices is kept sorted by the last nodes of their paths first and by the whole paths second.

* `nodeKey`, `pathKey`, `deviceKey` — what `compare_device_paths` and `add_device` compare.
* `compares_compareLoop` — the comparison has the sign of the lexicographic order of the nodes.
* `addDevices_sorted` — devices with well-formed paths that are added one after another make a sorted
  set.
-/

namespace Ntloader.Disk

open Ntloader.Lib

/-! ## Nodes -/

/-- What a node is compared by: the type, in descending order, the subtype, the length and the bytes.
Source: none: abstract statement -/
def nodeKey (node : List UInt8) : ℕ ×ₗ ℕ ×ₗ ℕ ×ₗ List ℕ :=
  toLex (0x7f - (dpType node).toNat, toLex ((dpSubtype node).toNat,
    toLex (node.length, node.map UInt8.toNat)))

/-- A node is known by its key. -/
theorem nodeKey_injective : Function.Injective nodeKey := by
  intro b c h
  have hbytes : b.map UInt8.toNat = c.map UInt8.toNat :=
    congrArg (fun k => (ofLex (ofLex (ofLex k).2).2).2) h
  exact List.map_injective_iff.mpr (fun _ _ => UInt8.toNat_inj.mp) hbytes

/-- The bytes of two runs of one length. -/
theorem compares_memcmp {s t : List UInt8} (h : s.length = t.length) (x y : List UInt8) :
    Compares (memcmp s.length (s ++ x) (t ++ y)) (s.map UInt8.toNat) (t.map UInt8.toNat) := by
  induction s generalizing t with
  | nil =>
      rw [List.length_nil, eq_comm, List.length_eq_zero_iff] at h
      subst h
      exact Compares.refl _
  | cons c s ih =>
      cases t with
      | nil => cases h
      | cons d t =>
          rw [List.length_cons, List.length_cons, Nat.add_right_cancel_iff] at h
          have hdiff := compares_sub c.toNat d.toNat
          show Compares (if (c.toNat : ℤ) - d.toNat ≠ 0 then (c.toNat : ℤ) - d.toNat
            else memcmp s.length (s ++ x) (t ++ y)) (c.toNat :: s.map _) (d.toNat :: t.map _)
          by_cases hcd : (c.toNat : ℤ) - d.toNat = 0
          · rw [if_neg (not_not.mpr hcd)]
            exact (ih h).cons_of_eq (hdiff.zero_iff.mp hcd)
          · rw [if_pos hcd]
            exact hdiff.cons_of_ne fun heq => hcd (hdiff.zero heq)

/-- A type has seven bits. -/
theorem dpType_le (dp : List UInt8) : (dpType dp).toNat ≤ 0x7f := by
  rw [dpType, UInt8.toNat_and]
  exact Nat.and_le_right

/-- The types of two nodes, in descending order. -/
theorem compares_dpType (b c : List UInt8) :
    Compares ((dpType c).toNat - (dpType b).toNat : ℤ) (0x7f - (dpType b).toNat)
      (0x7f - (dpType c).toNat) := by
  have hb := dpType_le b
  have hc := dpType_le c
  have hsub := compares_sub (0x7f - (dpType b).toNat) (0x7f - (dpType c).toNat)
  have heq : ((0x7f - (dpType b).toNat : ℕ) : ℤ) - (0x7f - (dpType c).toNat : ℕ) =
      (dpType c).toNat - (dpType b).toNat := by omega
  rwa [heq] at hsub

/-- Two nodes that differ decide the comparison. -/
theorem compares_block {b c : List UInt8} (hb : IsBlock b) (hc : IsBlock c) (hbc : b ≠ c) (fuel : ℕ)
    (x y : List UInt8) :
    Compares (compareLoop (fuel + 1) (b ++ x) (c ++ y)) (nodeKey b) (nodeKey c) := by
  rw [compareLoop, hb.dpValid_append, hc.dpValid_append, if_pos ⟨rfl, rfl⟩,
    dpType_node hb.le_length, dpType_node hc.le_length, dpSubtype_node hb.le_length,
    dpSubtype_node hc.le_length, hb.dpLength_append, hc.dpLength_append]
  unfold nodeKey
  have htypes := compares_dpType b c
  have hsubtypes := compares_sub (dpSubtype b).toNat (dpSubtype c).toNat
  have hlengths := compares_sub b.length c.length
  by_cases htype : dpType b = dpType c
  · rw [if_neg (not_not.mpr htype)]
    refine Compares.lex_of_eq ?_ (by rw [htype])
    by_cases hsubtype : dpSubtype b = dpSubtype c
    · rw [if_neg (not_not.mpr hsubtype)]
      refine Compares.lex_of_eq ?_ (by rw [hsubtype])
      by_cases hlength : b.length = c.length
      · have hne : memcmp b.length (b ++ x) (c ++ y) ≠ 0 := fun h0 =>
          hbc ((memcmp_eq_zero_iff hlength x y).mp h0)
        rw [if_neg (not_not.mpr hlength), if_pos hne]
        exact (compares_memcmp hlength x y).lex_of_eq hlength
      · rw [if_pos hlength]
        exact hlengths.lex_of_ne hlength
    · rw [if_pos hsubtype]
      exact hsubtypes.lex_of_ne fun h => hsubtype (UInt8.toNat_inj.mp h)
  · rw [if_pos htype]
    refine htypes.lex_of_ne fun h => htype (UInt8.toNat_inj.mp ?_)
    have hb := dpType_le b
    have hc := dpType_le c
    omega

/-! ## Paths -/

/-- What a path is compared by: its nodes one after the other, and the end.
Source: none: abstract statement -/
def pathKey (nodes : List (List UInt8)) : List (ℕ ×ₗ ℕ ×ₗ ℕ ×ₗ List ℕ) :=
  nodes.map nodeKey ++ [nodeKey endNode]

/-- Equation lemma: the key of the first node comes first. -/
theorem pathKey_cons (n : List UInt8) (ns : List (List UInt8)) :
    pathKey (n :: ns) = nodeKey n :: pathKey ns := rfl

/-- Equation lemma: the end node only. -/
theorem pathKey_nil : pathKey [] = [nodeKey endNode] := rfl

/-- A path is known by its key. -/
theorem pathKey_injective : Function.Injective pathKey := by
  intro ns ms h
  exact List.map_injective_iff.mpr nodeKey_injective (List.append_inj_left' h rfl)

/-- A node is not the end of its path. -/
theorem IsNode.ne_endNode {n : List UInt8} (h : IsNode n) : n ≠ endNode := by
  rintro rfl
  exact absurd (h.not_end.symm.trans endEntireDp_endNode) Bool.false_ne_true

/-- Behind equal nodes the comparison goes on. -/
theorem compareLoop_same {n : List UInt8} (hn : IsNode n) (fuel : ℕ) (x y : List UInt8) :
    compareLoop (fuel + 1) (n ++ x) (n ++ y) = compareLoop fuel x y := by
  have hzero : memcmp n.length (n ++ x) (n ++ y) = 0 := (memcmp_eq_zero_iff rfl x y).mpr rfl
  rw [compareLoop, hn.dpValid_append, hn.dpValid_append, if_pos ⟨rfl, rfl⟩,
    dpType_node hn.le_length, dpType_node hn.le_length, dpSubtype_node hn.le_length,
    dpSubtype_node hn.le_length, hn.dpLength_append, hn.dpLength_append, hn.nextDp_append,
    hn.nextDp_append, hn.endEntireDp_append, hn.not_end, hzero, if_neg (not_not.mpr rfl),
    if_neg (not_not.mpr rfl), if_neg (not_not.mpr rfl), if_neg (not_not.mpr rfl),
    if_neg Bool.false_ne_true]

/-- The comparison has the sign of the order of the keys. -/
theorem compares_compareLoop {ns ms : List (List UInt8)} (hns : ∀ n ∈ ns, IsNode n)
    (hms : ∀ m ∈ ms, IsNode m) {fuel : ℕ} (hfuel : ns.length < fuel) (x y : List UInt8) :
    Compares (compareLoop fuel (encodePath ns ++ x) (encodePath ms ++ y)) (pathKey ns)
      (pathKey ms) := by
  have hnil (z : List UInt8) : encodePath [] ++ z = endNode ++ z := rfl
  have hdiffer {b c : List UInt8} (hbc : b ≠ c) : nodeKey b ≠ nodeKey c := fun h =>
    hbc (nodeKey_injective h)
  induction ns generalizing ms fuel with
  | nil =>
      obtain ⟨fuel, rfl⟩ := Nat.exists_eq_succ_of_ne_zero (Nat.ne_of_gt hfuel)
      cases ms with
      | nil =>
          have hzero := (compareLoop_encodePath hns hms hfuel x y).mpr rfl
          rw [hzero]
          exact Compares.refl _
      | cons m ms =>
          have hm := hms m List.mem_cons_self
          rw [hnil, encodePath_cons, List.append_assoc, pathKey_nil, pathKey_cons]
          exact (compares_block isBlock_endNode hm.toIsBlock hm.ne_endNode.symm _ _ _).cons_of_ne
            (hdiffer hm.ne_endNode.symm)
  | cons n ns ih =>
      obtain ⟨fuel, rfl⟩ := Nat.exists_eq_succ_of_ne_zero (Nat.ne_of_gt (Nat.zero_lt_of_lt hfuel))
      have hn := hns n List.mem_cons_self
      cases ms with
      | nil =>
          rw [hnil, encodePath_cons, List.append_assoc, pathKey_nil, pathKey_cons]
          exact (compares_block hn.toIsBlock isBlock_endNode hn.ne_endNode _ _ _).cons_of_ne
            (hdiffer hn.ne_endNode)
      | cons m ms =>
          have hm := hms m List.mem_cons_self
          rw [encodePath_cons, encodePath_cons, List.append_assoc, List.append_assoc, pathKey_cons,
            pathKey_cons]
          by_cases hnm : n = m
          · subst hnm
            have hrest := ih (fun k hk => hns k (List.mem_cons_of_mem _ hk))
              (fun k hk => hms k (List.mem_cons_of_mem _ hk)) (Nat.lt_of_succ_lt_succ hfuel)
            rw [compareLoop_same hn]
            exact hrest.cons_of_eq rfl
          · exact (compares_block hn.toIsBlock hm.toIsBlock hnm _ _ _).cons_of_ne (hdiffer hnm)

/-- **Two device paths are compared by their keys.** -/
theorem compares_compareDevicePaths {ns ms : List (List UInt8)} (hns : ∀ n ∈ ns, IsNode n)
    (hms : ∀ m ∈ ms, IsNode m) :
    Compares (compareDevicePaths (some (encodePath ns)) (some (encodePath ms))) (pathKey ns)
      (pathKey ms) := by
  have h := compares_compareLoop hns hms (Nat.lt_succ_of_le (length_le_encodePath hns)) [] []
  rwa [List.append_nil, List.append_nil] at h

/-! ## Devices -/

/-- A well-formed device path with at least one node in front of the end. -/
def IsNonemptyPath (dp : List UInt8) : Prop :=
  ∃ nodes node, (∀ n ∈ nodes, IsNode n) ∧ IsNode node ∧ dp = encodePath (nodes ++ [node])

/-- The result of the two comparisons.
Source: disk/efidisk.c, add_device, `ret` -/
def compareDevices (p d : EfidiskData) : ℤ :=
  let ret := compareDevicePaths (findLastDevicePath p.dp) (findLastDevicePath d.dp)
  if ret = 0 then compareDevicePaths (some p.dp) (some d.dp) else ret

/-- A device is inserted in the order of the comparison. -/
theorem addDevice_eq_insertUnique (devices : List EfidiskData) (d : EfidiskData) :
    addDevice devices d = insertUnique compareDevices devices d := by
  induction devices with
  | nil => rfl
  | cons p devices ih =>
      rw [addDevice, insertUnique, ih]
      rfl

open Classical in
/-- The nodes of a well-formed path. -/
noncomputable def pathNodes (dp : List UInt8) : List (List UInt8) :=
  if h : IsDevicePath dp then h.choose else []

/-- The nodes of an encoded path. -/
theorem pathNodes_encodePath {ns : List (List UInt8)} (hns : ∀ n ∈ ns, IsNode n) :
    pathNodes (encodePath ns) = ns := by
  have hpath : IsDevicePath (encodePath ns) := ⟨ns, hns, rfl⟩
  rw [pathNodes, dif_pos hpath]
  exact (encodePath_injective hns hpath.choose_spec.1 hpath.choose_spec.2).symm

/-- What a device is compared by: the last node of its path first, and the whole path second.
Source: none: abstract statement -/
noncomputable def deviceKey (dp : List UInt8) :
    List (ℕ ×ₗ ℕ ×ₗ ℕ ×ₗ List ℕ) ×ₗ List (ℕ ×ₗ ℕ ×ₗ ℕ ×ₗ List ℕ) :=
  toLex (pathKey ((pathNodes dp).getLast?.toList), pathKey (pathNodes dp))

/-- The key of a device: its last node first, then the whole path. -/
theorem deviceKey_eq {nodes : List (List UInt8)} {node : List UInt8}
    (hnodes : ∀ n ∈ nodes, IsNode n) (hnode : IsNode node) :
    deviceKey (encodePath (nodes ++ [node])) =
      toLex (pathKey [node], pathKey (nodes ++ [node])) := by
  rw [deviceKey, pathNodes_encodePath (append_isNode hnodes hnode), List.getLast?_concat]
  rfl

/-- The last nodes are compared as paths of one node. -/
theorem compares_compareDevices (p d : EfidiskData) (hp : IsNonemptyPath p.dp)
    (hd : IsNonemptyPath d.dp) : Compares (compareDevices p d) (deviceKey p.dp) (deviceKey d.dp) := by
  obtain ⟨ns, n, hns, hn, hpdp⟩ := hp
  obtain ⟨ms, m, hms, hm, hddp⟩ := hd
  have hlast : Compares (compareDevicePaths (findLastDevicePath p.dp) (findLastDevicePath d.dp))
      (pathKey [n]) (pathKey [m]) := by
    rw [hpdp, hddp, findLastDevicePath_encodePath hns hn, findLastDevicePath_encodePath hms hm]
    have h := compares_compareDevicePaths (List.forall_mem_singleton.mpr hn)
      (List.forall_mem_singleton.mpr hm)
    rwa [encodePath_cons, encodePath_cons] at h
  have hwhole := compares_compareDevicePaths (append_isNode hns hn) (append_isNode hms hm)
  rw [← hpdp, ← hddp] at hwhole
  have hkeys : deviceKey p.dp = toLex (pathKey [n], pathKey (ns ++ [n])) ∧
      deviceKey d.dp = toLex (pathKey [m], pathKey (ms ++ [m])) := by
    rw [hpdp, hddp]
    exact ⟨deviceKey_eq hns hn, deviceKey_eq hms hm⟩
  rw [hkeys.1, hkeys.2, compareDevices]
  by_cases h0 : compareDevicePaths (findLastDevicePath p.dp) (findLastDevicePath d.dp) = 0
  · rw [if_pos h0]
    exact hwhole.lex_of_eq (hlast.zero_iff.mp h0)
  · rw [if_neg h0]
    exact hlast.lex_of_ne fun h => h0 (hlast.zero h)

/-- Devices with the same key have the same path. -/
theorem deviceKey_eq_iff {dp dp' : List UInt8} (h : IsNonemptyPath dp) (h' : IsNonemptyPath dp') :
    deviceKey dp = deviceKey dp' ↔ dp = dp' := by
  refine ⟨fun heq => ?_, congrArg deviceKey⟩
  obtain ⟨ns, n, hns, hn, rfl⟩ := h
  obtain ⟨ms, m, hms, hm, rfl⟩ := h'
  rw [deviceKey_eq hns hn, deviceKey_eq hms hm] at heq
  exact congrArg encodePath (pathKey_injective (congrArg (fun k => (ofLex k).2) heq))

/-! ## Lists of devices -/

/-- So devices are inserted one by one. -/
theorem foldl_addDevice (ds : List EfidiskData) :
    ds.foldl addDevice [] = ds.foldl (insertUnique compareDevices) [] := by
  have haddDevice : addDevice = insertUnique compareDevices := by
    funext devices d
    exact addDevice_eq_insertUnique devices d
  rw [haddDevice]

section

variable {ds : List EfidiskData} (hds : ∀ d ∈ ds, IsNonemptyPath d.dp)

include hds

/-- The list has of each path the device that was added first. -/
theorem mem_foldl_addDevice (x : EfidiskData) :
    x ∈ ds.foldl addDevice [] ↔ ds.find? (fun d => d.dp = x.dp) = some x := by
  rw [foldl_addDevice, (mem_foldl_insertUnique compares_compareDevices hds).2]
  by_cases hx : x ∈ ds
  · refine Iff.of_eq (congrArg (· = some x) (List.find?_congr ?_))
    intro d hd
    exact decide_eq_decide.mpr (deviceKey_eq_iff (hds d hd) (hds x hx))
  · refine iff_of_false ?_ ?_
    · exact fun h => hx (List.mem_of_find?_eq_some h)
    · exact fun h => hx (List.mem_of_find?_eq_some h)

/-- The paths of the list are paths of devices that were added. -/
theorem isNonemptyPath_foldl : ∀ x ∈ ds.foldl addDevice [], IsNonemptyPath x.dp := by
  intro x hx
  exact hds x (List.mem_of_find?_eq_some ((mem_foldl_addDevice hds x).mp hx))

/-- The keys ascend strictly. -/
theorem pairwise_deviceKey :
    (ds.foldl addDevice []).Pairwise fun p d => deviceKey p.dp < deviceKey d.dp := by
  rw [foldl_addDevice]
  exact (mem_foldl_insertUnique compares_compareDevices hds).1

/-- Each device of the list is below those behind it. -/
theorem pairwise_foldl_addDevice :
    (ds.foldl addDevice []).Pairwise fun p d => compareDevices p d < 0 := by
  have hpaths := isNonemptyPath_foldl hds
  refine (pairwise_deviceKey hds).imp_of_mem ?_
  intro p d hp hd hlt
  exact (compares_compareDevices p d (hpaths p hp) (hpaths d hd)).neg hlt

/-- The paths are those of the devices that were added, -/
theorem mem_dp_foldl_addDevice (dp : List UInt8) :
    dp ∈ (ds.foldl addDevice []).map (·.dp) ↔ dp ∈ ds.map (·.dp) := by
  constructor
  · intro h
    obtain ⟨x, hx, rfl⟩ := List.mem_map.mp h
    exact List.mem_map_of_mem (List.mem_of_find?_eq_some ((mem_foldl_addDevice hds x).mp hx))
  · intro h
    obtain ⟨x, hx, rfl⟩ := List.mem_map.mp h
    have hkey := (mem_keys_foldl_insertUnique compares_compareDevices hds (deviceKey x.dp)).mpr
      (List.mem_map_of_mem hx)
    rw [← foldl_addDevice] at hkey
    obtain ⟨y, hy, hyx⟩ := List.mem_map.mp hkey
    have hdp := (deviceKey_eq_iff (isNonemptyPath_foldl hds y hy) (hds x hx)).mp hyx
    exact List.mem_map.mpr ⟨y, hy, hdp⟩

/-- each once. -/
theorem nodup_dp_foldl_addDevice : ((ds.foldl addDevice []).map (·.dp)).Nodup := by
  refine List.pairwise_map.mpr ((pairwise_deviceKey hds).imp ?_)
  intro p d hlt heq
  rw [heq] at hlt
  exact absurd hlt (lt_irrefl _)

end

/-- The paths do not depend on the order of the calls. -/
theorem map_dp_foldl_perm {ds ds' : List EfidiskData} (hds : ∀ d ∈ ds, IsNonemptyPath d.dp)
    (hperm : ds.Perm ds') :
    (ds'.foldl addDevice []).map (·.dp) = (ds.foldl addDevice []).map (·.dp) := by
  have hds' : ∀ d ∈ ds', IsNonemptyPath d.dp := fun d hd => hds d (hperm.mem_iff.mpr hd)
  refine eq_of_pairwise_lt (List.pairwise_map.mpr (pairwise_deviceKey hds'))
    (List.pairwise_map.mpr (pairwise_deviceKey hds)) ?_
  intro dp
  rw [mem_dp_foldl_addDevice hds, mem_dp_foldl_addDevice hds']
  exact (hperm.map (·.dp)).mem_iff.symm

/-- Devices with well-formed paths that are added to an empty list make a sorted set: the list is
strictly increasing, has each path that was added once, with the device that came first, and does not
depend on the order of the calls, but for which of several devices with one path came first. -/
theorem addDevices_sorted {ds : List EfidiskData} (hds : ∀ d ∈ ds, IsNonemptyPath d.dp) :
    (ds.foldl addDevice []).Pairwise (fun p d => compareDevices p d < 0) ∧
      (∀ dp, ((ds.foldl addDevice []).map (·.dp)).count dp =
        if dp ∈ ds.map (·.dp) then 1 else 0) ∧
      (∀ x, x ∈ ds.foldl addDevice [] ↔ ds.find? (fun d => d.dp = x.dp) = some x) ∧
      ∀ ds', ds.Perm ds' →
        (ds'.foldl addDevice []).map (·.dp) = (ds.foldl addDevice []).map (·.dp) ∧
        ((∀ p ∈ ds, ∀ q ∈ ds, p.dp = q.dp → p = q) →
          ds'.foldl addDevice [] = ds.foldl addDevice []) := by
  refine ⟨pairwise_foldl_addDevice hds, ?_, mem_foldl_addDevice hds, ?_⟩
  · intro dp
    split_ifs with h
    · exact List.count_eq_one_of_mem (nodup_dp_foldl_addDevice hds)
        ((mem_dp_foldl_addDevice hds dp).mpr h)
    · exact List.count_eq_zero_of_not_mem fun hmem => h ((mem_dp_foldl_addDevice hds dp).mp hmem)
  · intro ds' hperm
    refine ⟨map_dp_foldl_perm hds hperm, ?_⟩
    intro hinj
    rw [foldl_addDevice, foldl_addDevice]
    refine foldl_insertUnique_perm compares_compareDevices hds hperm ?_
    intro p hp q hq heq
    exact hinj p hp q hq ((deviceKey_eq_iff (hds p hp) (hds q hq)).mp heq)

/-- A device whose path has one node of four bytes. -/
def nodeDevice (handle : ℕ) (subtype : UInt8) : EfidiskData where
  handle := handle
  dp := encodePath ([] ++ [[2, subtype, 4, 0]])
  ldp := some ([2, subtype, 4, 0] ++ endNode)
  bio := ⟨⟨0, false, 512⟩, fun _ _ _ => none⟩

/-- A device with one node has a path. -/
theorem isNonemptyPath_nodeDevice (handle : ℕ) (subtype : UInt8) :
    IsNonemptyPath (nodeDevice handle subtype).dp := by
  have hnode : IsNode [2, subtype, 4, 0] := by
    have hlen : dpLength [2, subtype, 4, 0] = 4 := by simp [dpLength]
    refine ⟨⟨Nat.le_refl 4, hlen⟩, decide_eq_false ?_⟩
    rintro (hvalid | ⟨htype, -⟩)
    · refine hvalid ?_
      rw [dpValid, hlen]
      exact decide_eq_true (Nat.le_refl 4)
    · have htwo : (2 : UInt8) &&& 0x7f ≠ 0x7f := by decide
      exact htwo htype
  exact ⟨[], [2, subtype, 4, 0], List.forall_mem_nil _, hnode, rfl⟩

/-- Two devices, in either order. -/
theorem addDevices_sorted_two :
    ([nodeDevice 0 3, nodeDevice 1 1].foldl addDevice []).Pairwise
        (fun p d => compareDevices p d < 0) ∧
      ([nodeDevice 1 1, nodeDevice 0 3].foldl addDevice []).map (·.dp) =
        ([nodeDevice 0 3, nodeDevice 1 1].foldl addDevice []).map (·.dp) := by
  have hds : ∀ d ∈ [nodeDevice 0 3, nodeDevice 1 1], IsNonemptyPath d.dp :=
    List.forall_mem_cons.mpr ⟨isNonemptyPath_nodeDevice 0 3,
      List.forall_mem_singleton.mpr (isNonemptyPath_nodeDevice 1 1)⟩
  have h := addDevices_sorted hds
  exact ⟨h.1, (h.2.2.2 _ (List.Perm.swap _ _ [])).1⟩

end Ntloader.Disk
