import LiteDB.PlacementDriver
import LiteDB.RoundRobin

namespace LiteDB.PlacementBalance

open List PlacementDriver RoundRobin

variable {Node : Type}

/-- `compute_placement`: the replicas of each shard, in the order of `SHARDS`. A factor
that is missing or `0` stands for the configured one. -/
def computePlacement (c : Topology Node) (nodes : List Node) (rf : Option Nat) :
    List (List Node) :=
  let factor := match rf with
    | none | some 0 => c.replicationFactor
    | some rf => rf
  (List.range c.shards).map ({ c with replicationFactor := factor }.placement nodes)

def leaders [DecidableEq Node] (placement : List (List Node)) (node : Node) : Nat :=
  placement.countP (·.head? = some node)

def replicas [DecidableEq Node] (placement : List (List Node)) (node : Node) : Nat :=
  placement.countP (node ∈ ·)

section Placement

variable {c : Topology Node} {nodes : List Node} {shard p : Nat} {node : Node}

theorem placement_eq (hshard : shard < c.shards) : c.placement nodes shard =
    (List.range (min c.replicationFactor nodes.length)).filterMap
      fun j => nodes[(shard + j) % nodes.length]? := by
  simp only [Topology.placement, if_pos hshard]

theorem length_placement (hshard : shard < c.shards) :
    (c.placement nodes shard).length = min c.replicationFactor nodes.length := by
  rw [placement_eq hshard, filterMap_length_eq_length.mpr, length_range]
  intro j hj
  have hpos : 0 < nodes.length := by
    have := mem_range.mp hj
    omega
  rw [getElem?_eq_getElem (Nat.mod_lt _ hpos)]
  rfl

theorem placement_subset : c.placement nodes shard ⊆ nodes := by
  intro x hx
  unfold Topology.placement at hx
  split at hx
  · obtain ⟨j, -, hj⟩ := mem_filterMap.mp hx
    exact mem_of_getElem? hj
  · exact absurd hx not_mem_nil

theorem nodup_placement (hnodup : nodes.Nodup) : (c.placement nodes shard).Nodup := by
  unfold Topology.placement
  split
  · refine pairwise_filterMap.mpr ?_
    refine pairwise_lt_range.imp_of_mem fun {j k} hj hk hlt x hx y hy hxy => ?_
    have hk := mem_range.mp hk
    have hpos : 0 < nodes.length := by omega
    have hmod : (shard + j) ≡ (shard + k) [MOD nodes.length] :=
      (getElem?_inj (Nat.mod_lt _ hpos) hnodup).mp (hx.trans (hxy ▸ hy.symm))
    have hjk := (hmod.add_left_cancel' shard).eq_of_lt_of_lt (by omega) (by omega)
    omega
  · exact nodup_nil

theorem mem_placement (hnodup : nodes.Nodup) (hp : nodes[p]? = some node)
    (hshard : shard < c.shards) : node ∈ c.placement nodes shard ↔
      Dealt nodes.length (min c.replicationFactor nodes.length) p shard := by
  obtain ⟨hlt, -⟩ := List.getElem?_eq_some_iff.mp hp
  have hat : ∀ k, nodes[k]? = some node ↔ k = p := by
    intro k
    rw [← hp]
    exact ⟨fun h => ((getElem?_inj hlt hnodup).mp h.symm).symm, fun h => h ▸ rfl⟩
  rw [placement_eq hshard]
  simp only [mem_filterMap, mem_range, hat, Dealt]

theorem head_placement (hnodup : nodes.Nodup) (hp : nodes[p]? = some node)
    (hshard : shard < c.shards) (hrf : 1 ≤ c.replicationFactor) :
    (c.placement nodes shard).head? = some node ↔ Dealt nodes.length 1 p shard := by
  obtain ⟨hlt, -⟩ := List.getElem?_eq_some_iff.mp hp
  obtain ⟨r, hr⟩ : ∃ r, min c.replicationFactor nodes.length = r + 1 :=
    Nat.exists_eq_succ_of_ne_zero (by omega)
  have hmod : shard % nodes.length < nodes.length := Nat.mod_lt _ (by omega)
  have hfirst : (c.placement nodes shard).head? = nodes[shard % nodes.length]? := by
    rw [placement_eq hshard, hr, range_succ_eq_map]
    simp only [filterMap_cons, Nat.add_zero, getElem?_eq_getElem hmod, head?_cons]
  rw [hfirst, ← hp, getElem?_inj hmod hnodup]
  simp only [Dealt, Nat.lt_one_iff, exists_eq_left, Nat.add_zero]

end Placement

section Balance

variable {c : Topology Node} {nodes : List Node} {rf p : Nat} {x : Node}

theorem computePlacement_some (hrf : 1 ≤ rf) : computePlacement c nodes (some rf) =
    (List.range c.shards).map ({ c with replicationFactor := rf }.placement nodes) := by
  obtain ⟨k, rfl⟩ := Nat.exists_eq_succ_of_ne_zero (Nat.one_le_iff_ne_zero.mp hrf)
  rfl

theorem countP_computePlacement (hrf : 1 ≤ rf) (P : List Node → Bool) {Q : Nat → Prop}
    [DecidablePred Q]
    (h : ∀ shard < c.shards,
      P ({ c with replicationFactor := rf }.placement nodes shard) = true ↔ Q shard) :
    (computePlacement c nodes (some rf)).countP P = Nat.count Q c.shards := by
  rw [computePlacement_some hrf, countP_map, Nat.count]
  refine countP_congr fun shard hshard => ?_
  rw [Function.comp_apply, h shard (mem_range.mp hshard), decide_eq_true_iff]

variable [DecidableEq Node]

theorem leaders_eq (hnodup : nodes.Nodup) (hp : nodes[p]? = some x) (hrf : 1 ≤ rf) :
    leaders (computePlacement c nodes (some rf)) x =
      Nat.count (Dealt nodes.length 1 p) c.shards := by
  refine countP_computePlacement hrf _ fun shard hshard => ?_
  rw [decide_eq_true_iff]
  exact head_placement hnodup hp hshard hrf

theorem replicas_eq (hnodup : nodes.Nodup) (hp : nodes[p]? = some x) (hrf : 1 ≤ rf) :
    replicas (computePlacement c nodes (some rf)) x =
      Nat.count (Dealt nodes.length (min rf nodes.length) p) c.shards := by
  refine countP_computePlacement hrf _ fun shard hshard => ?_
  rw [decide_eq_true_iff]
  exact mem_placement hnodup hp hshard

/-- Every shard gets as many distinct nodes as the factor asks for and the list has,
and no node leads or holds much more than another. -/
theorem computePlacement_balanced (c : Topology Node) (hnodes : nodes ≠ [])
    (hnodup : nodes.Nodup) (hrf : 1 ≤ rf) :
    let placed := computePlacement c nodes (some rf)
    let r := min rf nodes.length
    placed.length = c.shards ∧
      (∀ hosts ∈ placed, hosts.length = r ∧ hosts.Nodup ∧ hosts ⊆ nodes) ∧
      (∀ x ∈ nodes, ∀ y ∈ nodes, leaders placed x ≤ leaders placed y + 1) ∧
      ∀ x ∈ nodes, ∀ y ∈ nodes,
        replicas placed x ≤ replicas placed y + min r (nodes.length - r) := by
  have hpos : 0 < nodes.length := length_pos_iff.mpr hnodes
  refine ⟨?_, ?_, ?_, ?_⟩
  · rw [computePlacement_some hrf, length_map, length_range]
  · intro hosts hhosts
    rw [computePlacement_some hrf] at hhosts
    obtain ⟨shard, hshard, rfl⟩ := mem_map.mp hhosts
    exact ⟨length_placement (mem_range.mp hshard), nodup_placement hnodup, placement_subset⟩
  · intro x hx y hy
    obtain ⟨p, hp⟩ := mem_iff_getElem?.mp hx
    obtain ⟨q, hq⟩ := mem_iff_getElem?.mp hy
    rw [leaders_eq hnodup hp hrf, leaders_eq hnodup hq hrf]
    have hle := count_dealt_le (List.getElem?_eq_some_iff.mp hp).1
      (List.getElem?_eq_some_iff.mp hq).1 (Nat.one_le_iff_ne_zero.mpr hpos.ne') c.shards
    omega
  · intro x hx y hy
    obtain ⟨p, hp⟩ := mem_iff_getElem?.mp hx
    obtain ⟨q, hq⟩ := mem_iff_getElem?.mp hy
    rw [replicas_eq hnodup hp hrf, replicas_eq hnodup hq hrf]
    exact count_dealt_le (List.getElem?_eq_some_iff.mp hp).1
      (List.getElem?_eq_some_iff.mp hq).1 (min_le_right _ _) c.shards

end Balance

/-- Five nodes, seven shards and three replicas reach the bound: node `1` holds five
replicas, node `4` three. -/
def fiveNodes : Topology Nat := ⟨[0, 1, 2, 3, 4], [0, 1, 2], 7, 3⟩

theorem computePlacement_balanced_of_five :
    replicas (computePlacement fiveNodes [0, 1, 2, 3, 4] (some 3)) 1 = 5 ∧
      replicas (computePlacement fiveNodes [0, 1, 2, 3, 4] (some 3)) 1 ≤
        replicas (computePlacement fiveNodes [0, 1, 2, 3, 4] (some 3)) 4 + min 3 (5 - 3) :=
  ⟨by decide, (computePlacement_balanced fiveNodes (by decide) (by decide) (by decide)).2.2.2
    1 (by decide) 4 (by decide)⟩

end LiteDB.PlacementBalance
