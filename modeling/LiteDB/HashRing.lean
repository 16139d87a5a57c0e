import LiteDB.CyclicSuccessors
import LiteDB.Runs
import LiteDB.SortedMaps
import LiteDB.VersionKeys
import Mathlib.Data.Nat.Digits.Defs

namespace LiteDB.HashRing

open Bisection CyclicSuccessors List Runs SortedMaps
open VersionKeys (Text)
open scoped VersionKeys

/-- A virtual node (`sharding.py`). -/
structure VNode where
  position : Nat
  nodeId : Text
  vnodeId : Nat
deriving DecidableEq

/-- The ring: sorted positions, and the virtual node of each. -/
structure ConsistentHashRing where
  ring : List Nat
  vnodes : Dict Nat VNode
  nodes : List Text

def vnodeName (nodeId : Text) (i : Nat) : Text :=
  nodeId ++ ":vnode:".toList ++ Nat.toDigits 10 i

section Ring

variable (hash : Text → Nat) (vnodesPerNode : Nat)

def positions (nodeId : Text) : List Nat :=
  (List.range vnodesPerNode).map fun i => hash (vnodeName nodeId i)

namespace ConsistentHashRing

def init : ConsistentHashRing := ⟨[], Dict.empty, []⟩

/-- One turn of the loop of `add_node`. -/
def addVNode (nodeId : Text) (r : ConsistentHashRing) (i : Nat) : ConsistentHashRing :=
  let pos := hash (vnodeName nodeId i)
  { r with vnodes := r.vnodes.set pos ⟨pos, nodeId, i⟩, ring := insort r.ring pos }

/-- `none` stands for `ValueError`. -/
def addNode (r : ConsistentHashRing) (nodeId : Text) : Option (ConsistentHashRing × List Nat) :=
  if nodeId ∈ r.nodes then none
  else
    let r := (List.range vnodesPerNode).foldl (addVNode hash nodeId) r
    some ({ r with nodes := nodeId :: r.nodes }, positions hash vnodesPerNode nodeId)

/-- One turn of the loop of `remove_node`. -/
def removeVNode (r : ConsistentHashRing) (pos : Nat) : ConsistentHashRing :=
  { r with vnodes := r.vnodes.erase pos, ring := bisectErase r.ring pos }

def removeNode (r : ConsistentHashRing) (nodeId : Text) : Option (ConsistentHashRing × Nat) :=
  if nodeId ∈ r.nodes then
    let positionsToRemove :=
      (r.vnodes.entries.filter fun e => e.2.nodeId = nodeId).map Prod.fst
    let r := positionsToRemove.foldl removeVNode r
    some ({ r with nodes := r.nodes.filter fun n => n ≠ nodeId }, positionsToRemove.length)
  else none

/-- The node at an index of the list of positions; `none` stands for an exception. -/
def nodeAt (r : ConsistentHashRing) (idx : Nat) : Option Text :=
  (r.ring[idx]?).bind fun pos => (r.vnodes.get? pos).map VNode.nodeId

/-- `none` stands for `KeyError`, and `some none` for the `None` of an empty ring. -/
def getNode (r : ConsistentHashRing) (key : Text) : Option (Option Text) :=
  if r.ring = [] then some none
  else (r.nodeAt (bisectRight r.ring (hash key) % r.ring.length)).map some

/-- The loop of `get_nodes`. -/
def walk (r : ConsistentHashRing) (n : Nat) : Nat → Nat → List Text → Option (List Text)
  | 0, _, nodes => some nodes
  | fuel + 1, idx, nodes =>
      (r.nodeAt idx).bind fun node =>
        if node ∈ nodes then walk r n fuel ((idx + 1) % r.ring.length) nodes
        else if (nodes ++ [node]).length = n then some (nodes ++ [node])
        else walk r n fuel ((idx + 1) % r.ring.length) (nodes ++ [node])

def getNodes (r : ConsistentHashRing) (key : Text) (n : Nat) : Option (List Text) :=
  if r.ring = [] then some []
  else
    walk r (min n r.nodes.length) r.ring.length
      (bisectRight r.ring (hash key) % r.ring.length) []

end ConsistentHashRing

inductive Event where
  | add (nodeId : Text)
  | remove (nodeId : Text)

def step (r : ConsistentHashRing) : Event → Option ConsistentHashRing
  | .add nodeId => (r.addNode hash vnodesPerNode nodeId).map Prod.fst
  | .remove nodeId => (r.removeNode nodeId).map Prod.fst

/-- The positions of a new node are different from each other and from those of the ring. -/
def Distinct (r : ConsistentHashRing) : Event → Prop
  | .add nodeId => (positions hash vnodesPerNode nodeId).Nodup ∧
      ∀ pos ∈ positions hash vnodesPerNode nodeId, pos ∉ r.ring
  | .remove _ => True

instance (r : ConsistentHashRing) (a : Event) : Decidable (Distinct hash vnodesPerNode r a) := by
  unfold Distinct
  split <;> infer_instance

end Ring

open ConsistentHashRing

variable {hash : Text → Nat} {vnodesPerNode : Nat} {r t u : ConsistentHashRing}
  {node n : Text} {key : Text}

/-- The positions are those of the dictionary. -/
structure Agrees (r : ConsistentHashRing) : Prop where
  sorted : r.ring.Pairwise (· < ·)
  mem : ∀ p, p ∈ r.ring ↔ (r.vnodes.get? p).isSome

/-- Every virtual node has a member behind it, and every member has one. -/
structure Sound (r : ConsistentHashRing) : Prop extends Agrees r where
  member : ∀ p v, r.vnodes.get? p = some v → v.nodeId ∈ r.nodes
  present : ∀ n ∈ r.nodes, ∃ p v, r.vnodes.get? p = some v ∧ v.nodeId = n

theorem sound_init : Sound init := by
  refine ⟨⟨List.Pairwise.nil, fun p => ?_⟩, fun p v hv => ?_, by simp [init]⟩
  · exact iff_of_false not_mem_nil Bool.false_ne_true
  · contradiction

theorem Sound.ring_ne_nil (h : Sound r) (hnodes : r.nodes ≠ []) : r.ring ≠ [] := by
  obtain ⟨n, hn⟩ := exists_mem_of_ne_nil _ hnodes
  obtain ⟨p, v, hv, -⟩ := h.present n hn
  exact ne_nil_of_mem ((h.mem p).mpr (Option.isSome_of_eq_some hv))

section Owners

def Owner (hash : Text → Nat) (r : ConsistentHashRing) (key n : Text) : Prop :=
  ∃ p v, Successor {q | q ∈ r.ring} (hash key) p ∧ r.vnodes.get? p = some v ∧ v.nodeId = n

theorem Owner.unique {n' : Text} (h : Owner hash r key n) (h' : Owner hash r key n') : n = n' := by
  obtain ⟨p, v, hp, hv, rfl⟩ := h
  obtain ⟨p', v', hp', hv', rfl⟩ := h'
  obtain rfl := hp.unique hp'
  rw [Option.some.inj (hv.symm.trans hv')]

variable (hash) in
theorem Agrees.exists_owner (h : Agrees r) (hne : r.ring ≠ []) (key : Text) :
    ∃ n, r.nodeAt (bisectRight r.ring (hash key) % r.ring.length) = some n ∧
      Owner hash r key n := by
  obtain ⟨p, hp, hsucc⟩ := exists_successor (h.sorted.imp le_of_lt) hne (hash key)
  obtain ⟨v, hv⟩ := Option.isSome_iff_exists.mp ((h.mem p).mp hsucc.1)
  exact ⟨v.nodeId, by simp [nodeAt, hp, hv], p, v, hsucc, hv, rfl⟩

theorem Agrees.getNode_eq_some_iff (h : Agrees r) :
    r.getNode hash key = some (some n) ↔ Owner hash r key n := by
  unfold getNode
  split
  · rename_i hnil
    refine iff_of_false (by simp) ?_
    rintro ⟨p, -, hp, -⟩
    have hmem : p ∈ r.ring := hp.1
    rw [hnil] at hmem
    exact absurd hmem not_mem_nil
  · rename_i hne
    obtain ⟨n', hn', howner⟩ := h.exists_owner hash hne key
    rw [hn', Option.map_some, Option.some.injEq, Option.some.injEq]
    exact ⟨fun heq => heq ▸ howner, fun hn => howner.unique hn⟩

theorem getNode_of_ring_eq_nil (h : r.ring = []) : r.getNode hash key = some none := if_pos h

theorem Agrees.ring_eq_nil_or (h : Agrees r) (key : Text) :
    r.ring = [] ∨ ∃ n, Owner hash r key n := by
  by_cases hnil : r.ring = []
  · exact .inl hnil
  · obtain ⟨n, -, howner⟩ := h.exists_owner hash hnil key
    exact .inr ⟨n, howner⟩

theorem Sound.owner_mem (h : Sound r) (howner : Owner hash r key n) : n ∈ r.nodes := by
  obtain ⟨p, v, -, hv, rfl⟩ := howner
  exact h.member p v hv

variable {idx : Nat}

theorem Sound.exists_nodeAt (h : Sound r) (hidx : idx < r.ring.length) :
    ∃ n ∈ r.nodes, r.nodeAt idx = some n := by
  obtain ⟨v, hv⟩ := Option.isSome_iff_exists.mp ((h.mem _).mp (getElem_mem hidx))
  exact ⟨v.nodeId, h.member _ v hv, by simp [nodeAt, getElem?_eq_getElem hidx, hv]⟩

theorem Sound.exists_walk (h : Sound r) (count : Nat) {fuel : Nat} (hidx : idx < r.ring.length)
    (found : List Text) :
    ∃ rest, walk r count fuel idx found = some (found ++ rest) ∧ ∀ n ∈ rest, n ∈ r.nodes := by
  induction fuel generalizing idx found with
  | zero => exact ⟨[], by simp [walk], by simp⟩
  | succ fuel ih =>
    obtain ⟨n, hn, hat⟩ := h.exists_nodeAt hidx
    have hnext : (idx + 1) % r.ring.length < r.ring.length :=
      Nat.mod_lt _ (Nat.zero_lt_of_lt hidx)
    rw [walk, hat, Option.bind_some]
    split
    · exact ih hnext found
    · split
      · exact ⟨[n], rfl, forall_mem_singleton.mpr hn⟩
      · obtain ⟨rest, hrest, hmem⟩ := ih hnext (found ++ [n])
        refine ⟨n :: rest, ?_, forall_mem_cons.mpr ⟨hn, hmem⟩⟩
        rw [hrest, append_assoc, singleton_append]

theorem Sound.exists_getNodes (h : Sound r) (hnodes : r.nodes ≠ []) (count : Nat) (key : Text) :
    ∃ n rest, r.getNodes hash key count = some (n :: rest) ∧ Owner hash r key n ∧
      (∀ n' ∈ rest, n' ∈ r.nodes) ∧ (count = 1 → rest = []) := by
  have hne := h.ring_ne_nil hnodes
  have hlength := length_pos_iff.mpr hne
  obtain ⟨n, hat, howner⟩ := h.exists_owner hash hne key
  obtain ⟨fuel, hfuel⟩ := Nat.exists_eq_add_one_of_ne_zero hlength.ne'
  refine ⟨n, ?_⟩
  simp only [getNodes, if_neg hne]
  nth_rewrite 1 [hfuel]
  rw [walk, hat, Option.bind_some, if_neg not_mem_nil, nil_append]
  have hmembers := length_pos_iff.mpr hnodes
  split
  · exact ⟨[], rfl, howner, by simp, fun _ => rfl⟩
  · rename_i hmore
    obtain ⟨rest, hrest, hmem⟩ :=
      h.exists_walk (min count r.nodes.length) (Nat.mod_lt _ hlength) [n]
    refine ⟨rest, hrest, howner, hmem, fun hone => absurd ?_ hmore⟩
    rw [length_singleton]
    omega

end Owners

section Changes

variable {ps : List Nat}

/-- `t` has in addition to `r` the positions `ps` of a node. -/
structure Grows (r t : ConsistentHashRing) (node : Text) (ps : List Nat) : Prop where
  agrees : Agrees t
  old : ∀ p, p ∉ ps → t.vnodes.get? p = r.vnodes.get? p
  new : ∀ p ∈ ps, ∃ v, t.vnodes.get? p = some v ∧ v.nodeId = node

theorem grows_addVNode (h : Agrees r) {i : Nat} (hfresh : hash (vnodeName node i) ∉ r.ring) :
    Grows r (addVNode hash node r i) node [hash (vnodeName node i)] := by
  refine ⟨⟨pairwise_insort h.sorted hfresh, fun p => ?_⟩, fun p hp => ?_, ?_⟩
  · change p ∈ insort r.ring _ ↔ _
    rw [mem_insort, h.mem, addVNode, Dict.get?_set]
    by_cases hp : p = hash (vnodeName node i) <;> simp [hp]
  · rw [addVNode, Dict.get?_set, if_neg (by simpa using hp)]
  · refine forall_mem_singleton.mpr ⟨⟨hash (vnodeName node i), node, i⟩, ?_, rfl⟩
    rw [addVNode, Dict.get?_set, if_pos rfl]

theorem Grows.trans {qs : List Nat} (h : Grows r t node ps) (h' : Grows t u node qs) :
    Grows r u node (ps ++ qs) := by
  refine ⟨h'.agrees, fun p hp => ?_, fun p hp => ?_⟩
  · rw [mem_append, not_or] at hp
    rw [h'.old p hp.2, h.old p hp.1]
  · by_cases hq : p ∈ qs
    · exact h'.new p hq
    · rw [h'.old p hq]
      exact h.new p ((mem_append.mp hp).resolve_right hq)

theorem grows_foldl (h : Agrees r) {is : List Nat}
    (hnodup : (is.map fun i => hash (vnodeName node i)).Nodup)
    (hfresh : ∀ p ∈ is.map fun i => hash (vnodeName node i), p ∉ r.ring) :
    Grows r (is.foldl (addVNode hash node) r) node (is.map fun i => hash (vnodeName node i)) := by
  induction is generalizing r with
  | nil => exact ⟨h, fun _ _ => rfl, by simp⟩
  | cons i is ih =>
    rw [map_cons, nodup_cons] at hnodup
    rw [map_cons, forall_mem_cons] at hfresh
    have hfirst := grows_addVNode h hfresh.1
    refine hfirst.trans (ih hfirst.agrees hnodup.2 fun p hp => ?_)
    change p ∉ insort r.ring _
    rw [mem_insort, not_or]
    exact ⟨fun heq => hnodup.1 (heq ▸ hp), hfresh.2 p hp⟩

theorem nodes_foldl_addVNode (is : List Nat) :
    (is.foldl (addVNode hash node) r).nodes = r.nodes := by
  induction is generalizing r with
  | nil => rfl
  | cons i is ih => exact ih

theorem addNode_spec (h : Agrees r) (hok : Distinct hash vnodesPerNode r (.add node))
    (hadd : r.addNode hash vnodesPerNode node = some (t, ps)) :
    node ∉ r.nodes ∧ t.nodes = node :: r.nodes ∧
      Grows r t node (positions hash vnodesPerNode node) := by
  simp only [addNode] at hadd
  split at hadd
  · contradiction
  · rename_i habsent
    obtain ⟨rfl, -⟩ := Prod.mk.inj (Option.some.inj hadd)
    have hgrows := grows_foldl h hok.1 hok.2
    refine ⟨habsent, ?_, ⟨hgrows.agrees.sorted, hgrows.agrees.mem⟩, hgrows.old, hgrows.new⟩
    rw [nodes_foldl_addVNode]

/-- The ring without the virtual nodes of one node. -/
structure Shrinks (r t : ConsistentHashRing) (node : Text) : Prop where
  agrees : Agrees t
  kept : ∀ p v, t.vnodes.get? p = some v ↔ r.vnodes.get? p = some v ∧ v.nodeId ≠ node

theorem Agrees.foldl_removeVNode (h : Agrees r) (ps : List Nat) :
    Agrees (ps.foldl removeVNode r) ∧
      ∀ p, (ps.foldl removeVNode r).vnodes.get? p = if p ∈ ps then none else r.vnodes.get? p := by
  induction ps generalizing r with
  | nil => exact ⟨h, by simp⟩
  | cons q ps ih =>
    have hremoved : Agrees (removeVNode r q) := by
      refine ⟨h.sorted.sublist bisectErase_sublist, fun p => ?_⟩
      change p ∈ bisectErase r.ring q ↔ _
      rw [mem_bisectErase h.sorted, h.mem, removeVNode, Dict.get?_erase]
      by_cases hp : p = q <;> simp [hp]
    obtain ⟨hagrees, hget⟩ := ih hremoved
    refine ⟨hagrees, fun p => (hget p).trans ?_⟩
    rw [removeVNode, Dict.get?_erase]
    by_cases hp : p = q <;> simp [hp]

theorem nodes_foldl_removeVNode : (ps.foldl removeVNode r).nodes = r.nodes := by
  induction ps generalizing r with
  | nil => rfl
  | cons p ps ih => exact ih

variable {count : Nat}

theorem removeNode_spec (h : Agrees r) (hremove : r.removeNode node = some (t, count)) :
    node ∈ r.nodes ∧ t.nodes = r.nodes.filter (fun n => n ≠ node) ∧ Shrinks r t node := by
  simp only [removeNode] at hremove
  split at hremove
  · rename_i hpresent
    obtain ⟨rfl, -⟩ := Prod.mk.inj (Option.some.inj hremove)
    obtain ⟨hagrees, hget⟩ := h.foldl_removeVNode
      ((r.vnodes.entries.filter fun e => e.2.nodeId = node).map Prod.fst)
    refine ⟨hpresent, by rw [nodes_foldl_removeVNode], ⟨hagrees.sorted, hagrees.mem⟩, ?_⟩
    intro p v
    rw [hget]
    have hmem : p ∈ (r.vnodes.entries.filter fun e => e.2.nodeId = node).map Prod.fst ↔
        ∃ w, r.vnodes.get? p = some w ∧ w.nodeId = node := by
      simp only [mem_map, mem_filter, decide_eq_true_eq, Dict.get?_eq_some_iff]
      constructor
      · rintro ⟨e, ⟨he, hnode⟩, rfl⟩
        exact ⟨e.2, he, hnode⟩
      · rintro ⟨w, hw, hnode⟩
        exact ⟨(p, w), ⟨hw, hnode⟩, rfl⟩
    split
    · rename_i hp
      obtain ⟨w, hw, hnode⟩ := hmem.mp hp
      refine iff_of_false (by simp) ?_
      rintro ⟨hv, hne⟩
      cases hw.symm.trans hv
      exact hne hnode
    · rename_i hp
      exact ⟨fun hv => ⟨hv, fun hnode => hp (hmem.mpr ⟨v, hv, hnode⟩)⟩, And.left⟩
  · contradiction

theorem exists_addNode (hash : Text → Nat) (vnodesPerNode : Nat) (h : node ∉ r.nodes) :
    ∃ t ps, r.addNode hash vnodesPerNode node = some (t, ps) := by
  simp only [addNode]
  rw [if_neg h]
  exact ⟨_, _, rfl⟩

theorem exists_removeNode (h : node ∈ r.nodes) :
    ∃ t count, r.removeNode node = some (t, count) := by
  simp only [removeNode]
  rw [if_pos h]
  exact ⟨_, _, rfl⟩

theorem step_add (h : step hash vnodesPerNode r (.add node) = some t) :
    ∃ ps, r.addNode hash vnodesPerNode node = some (t, ps) := by
  obtain ⟨⟨_, ps⟩, hadd, rfl⟩ := Option.map_eq_some_iff.mp h
  exact ⟨ps, hadd⟩

theorem step_remove (h : step hash vnodesPerNode r (.remove node) = some t) :
    ∃ count, r.removeNode node = some (t, count) := by
  obtain ⟨⟨_, count⟩, hremove, rfl⟩ := Option.map_eq_some_iff.mp h
  exact ⟨count, hremove⟩

theorem Sound.add (h : Sound r) (hpos : 0 < vnodesPerNode)
    (hok : Distinct hash vnodesPerNode r (.add node))
    (hadd : r.addNode hash vnodesPerNode node = some (t, ps)) : Sound t := by
  obtain ⟨-, hnodes, hgrows⟩ := addNode_spec h.toAgrees hok hadd
  refine ⟨hgrows.agrees, fun p v hv => ?_, fun n hn => ?_⟩
  · rw [hnodes, mem_cons]
    by_cases hp : p ∈ positions hash vnodesPerNode node
    · obtain ⟨w, hw, hnode⟩ := hgrows.new p hp
      cases hw.symm.trans hv
      exact .inl hnode
    · rw [hgrows.old p hp] at hv
      exact .inr (h.member p v hv)
  · rw [hnodes, mem_cons] at hn
    rcases hn with rfl | hn
    · have hfirst : hash (vnodeName n 0) ∈ positions hash vnodesPerNode n :=
        mem_map.mpr ⟨0, mem_range.mpr hpos, rfl⟩
      obtain ⟨v, hv⟩ := hgrows.new _ hfirst
      exact ⟨_, v, hv⟩
    · obtain ⟨p, v, hv, hnode⟩ := h.present n hn
      have hold : p ∉ positions hash vnodesPerNode node := fun hp =>
        hok.2 p hp ((h.mem p).mpr (Option.isSome_of_eq_some hv))
      exact ⟨p, v, (hgrows.old p hold).trans hv, hnode⟩

theorem Sound.remove (h : Sound r) (hremove : r.removeNode node = some (t, count)) : Sound t := by
  obtain ⟨-, hnodes, hshrinks⟩ := removeNode_spec h.toAgrees hremove
  refine ⟨hshrinks.agrees, fun p v hv => ?_, fun n hn => ?_⟩
  · obtain ⟨hv, hne⟩ := (hshrinks.kept p v).mp hv
    rw [hnodes, mem_filter]
    exact ⟨h.member p v hv, decide_eq_true hne⟩
  · rw [hnodes, mem_filter, decide_eq_true_eq] at hn
    obtain ⟨p, v, hv, rfl⟩ := h.present n hn.1
    exact ⟨p, v, (hshrinks.kept p v).mpr ⟨hv, hn.2⟩, rfl⟩

theorem Grows.owner (h : Grows r t node ps) (hr : Agrees r) (hfresh : ∀ p ∈ ps, p ∉ r.ring)
    (howner : Owner hash t key n) : n = node ∨ Owner hash r key n := by
  obtain ⟨p, v, hsucc, hv, rfl⟩ := howner
  by_cases hp : p ∈ ps
  · obtain ⟨w, hw, hnode⟩ := h.new p hp
    cases hw.symm.trans hv
    exact .inl hnode
  · rw [h.old p hp] at hv
    refine .inr ⟨p, v, hsucc.mono (fun q hq => ?_) ?_, hv, rfl⟩
    · have hq' : q ∉ ps := fun hmem => hfresh q hmem hq
      refine (h.agrees.mem q).mpr ?_
      rw [h.old q hq', ← hr.mem]
      exact hq
    · exact (hr.mem p).mpr (Option.isSome_of_eq_some hv)

theorem Shrinks.owner (h : Shrinks r t node) (hr : Agrees r) (howner : Owner hash r key n)
    (hne : n ≠ node) : Owner hash t key n := by
  obtain ⟨p, v, hsucc, hv, rfl⟩ := howner
  have hkept := (h.kept p v).mpr ⟨hv, hne⟩
  refine ⟨p, v, hsucc.mono (fun q hq => ?_) ?_, hkept, rfl⟩
  · obtain ⟨w, hw⟩ := Option.isSome_iff_exists.mp ((h.agrees.mem q).mp hq)
    exact (hr.mem q).mpr (Option.isSome_of_eq_some ((h.kept q w).mp hw).1)
  · exact (h.agrees.mem p).mpr (Option.isSome_of_eq_some hkept)

theorem Grows.get?_of_shrinks (h : Grows r t node ps) (h' : Shrinks t u node) (hr : Sound r)
    (hfresh : ∀ p ∈ ps, p ∉ r.ring) (habsent : node ∉ r.nodes) (p : Nat) :
    u.vnodes.get? p = r.vnodes.get? p := by
  refine Option.ext fun v => ?_
  rw [h'.kept]
  by_cases hp : p ∈ ps
  · obtain ⟨w, hw, hnode⟩ := h.new p hp
    refine iff_of_false ?_ fun hv => hfresh p hp ((hr.mem p).mpr (Option.isSome_of_eq_some hv))
    rintro ⟨hv, hne⟩
    cases hw.symm.trans hv
    exact hne hnode
  · rw [h.old p hp]
    refine ⟨And.left, fun hv => ⟨hv, ?_⟩⟩
    rintro rfl
    exact habsent (hr.member p v hv)

theorem getNode_congr (hr : Agrees r) (ht : Agrees t) (h : ∀ p, t.vnodes.get? p = r.vnodes.get? p) :
    t.getNode hash key = r.getNode hash key := by
  have hring : t.ring = r.ring := by
    refine ht.sorted.eq_of_mem_iff hr.sorted fun p => ?_
    rw [ht.mem, hr.mem, h]
  simp only [getNode, nodeAt, hring, h]

end Changes

/-- The ring moves only what it must. -/
structure MovesLittle (hash : Text → Nat) (vnodesPerNode : Nat) (r : ConsistentHashRing) :
    Prop where
  total : ∀ key, r.getNode hash key ≠ none
  member : r.nodes ≠ [] → ∀ key, ∃ n ∈ r.nodes, r.getNode hash key = some (some n)
  add : ∀ node t, Distinct hash vnodesPerNode r (.add node) →
    step hash vnodesPerNode r (.add node) = some t →
    ∀ key, t.getNode hash key = r.getNode hash key ∨ t.getNode hash key = some (some node)
  remove : ∀ node t, step hash vnodesPerNode r (.remove node) = some t →
    ∀ key, r.getNode hash key ≠ some (some node) → t.getNode hash key = r.getNode hash key
  restore : ∀ node t, Distinct hash vnodesPerNode r (.add node) →
    step hash vnodesPerNode r (.add node) = some t →
    ∃ u, step hash vnodesPerNode t (.remove node) = some u ∧
      ∀ key, u.getNode hash key = r.getNode hash key

theorem Sound.movesLittle (h : Sound r) (hpos : 0 < vnodesPerNode) :
    MovesLittle hash vnodesPerNode r := by
  refine ⟨fun key => ?_, fun hnodes key => ?_, fun node t hok hadd key => ?_,
    fun node t hremove key hother => ?_, fun node t hok hadd => ?_⟩
  · rcases h.ring_eq_nil_or key with hnil | ⟨n, howner⟩
    · rw [getNode_of_ring_eq_nil hnil]
      exact Option.some_ne_none none
    · rw [h.getNode_eq_some_iff.mpr howner]
      exact Option.some_ne_none (some n)
  · obtain ⟨n, -, howner⟩ := h.exists_owner hash (h.ring_ne_nil hnodes) key
    have hget := h.getNode_eq_some_iff.mpr howner
    exact ⟨n, h.owner_mem howner, hget⟩
  · obtain ⟨ps, hadd⟩ := step_add hadd
    have hsound := h.add hpos hok hadd
    obtain ⟨-, hnodes, hgrows⟩ := addNode_spec h.toAgrees hok hadd
    obtain ⟨n, -, howner⟩ :=
      hsound.exists_owner hash (hsound.ring_ne_nil (by simp [hnodes])) key
    rw [hsound.getNode_eq_some_iff.mpr howner]
    rcases hgrows.owner h.toAgrees hok.2 howner with rfl | hold
    · exact .inr rfl
    · exact .inl (h.getNode_eq_some_iff.mpr hold).symm
  · obtain ⟨count, hremove⟩ := step_remove hremove
    obtain ⟨hpresent, -, hshrinks⟩ := removeNode_spec h.toAgrees hremove
    obtain ⟨n, -, howner⟩ := h.exists_owner hash (h.ring_ne_nil (ne_nil_of_mem hpresent)) key
    have hget := h.getNode_eq_some_iff.mpr howner
    rw [hget] at hother ⊢
    refine hshrinks.agrees.getNode_eq_some_iff.mpr (hshrinks.owner h.toAgrees howner ?_)
    rintro rfl
    exact hother rfl
  · obtain ⟨ps, hadd⟩ := step_add hadd
    obtain ⟨habsent, hnodes, hgrows⟩ := addNode_spec h.toAgrees hok hadd
    obtain ⟨u, count, hremove⟩ := exists_removeNode (hnodes ▸ mem_cons_self)
    obtain ⟨-, -, hshrinks⟩ := removeNode_spec hgrows.agrees hremove
    refine ⟨u, by rw [step, hremove, Option.map_some], fun key => ?_⟩
    exact getNode_congr h.toAgrees hshrinks.agrees (hgrows.get?_of_shrinks hshrinks h hok.2 habsent)

/-- With distinct positions, every change of the membership moves only the keys of the node
that it is about. -/
theorem movesLittle_of_distinct (hash : Text → Nat) (vnodesPerNode : Nat) (hpos : 0 < vnodesPerNode)
    (h : Reaches (step hash vnodesPerNode) (Distinct hash vnodesPerNode) init r) :
    MovesLittle hash vnodesPerNode r := by
  have hsound : Sound r := by
    refine h.invariant Sound sound_init fun u a w hu hok hstep => ?_
    cases a with
    | add node =>
      obtain ⟨ps, hadd⟩ := step_add hstep
      exact hu.add hpos hok hadd
    | remove node =>
      obtain ⟨count, hremove⟩ := step_remove hstep
      exact hu.remove hremove
  exact hsound.movesLittle hpos

/-- The sum of the characters, so that the positions of the nodes can be seen. -/
def sampleHash (text : Text) : Nat := (text.map Char.toNat).sum % 2 ^ 32

theorem movesLittle_of_sampleHash : ∃ r, r.nodes.length = 2 ∧ MovesLittle sampleHash 2 r := by
  obtain ⟨r, hr, htest⟩ := exists_reaches (step sampleHash 2) (Distinct sampleHash 2) init
    [.add "a".toList, .add "x".toList, .add "ab".toList, .remove "a".toList]
    (fun r => r.nodes.length = 2) (by decide +kernel)
  exact ⟨r, htest, movesLittle_of_distinct sampleHash 2 (by decide) hr⟩

/-- Two virtual nodes with one position leave it in the list without a node. -/
theorem getNode_raises_of_collision : ¬∀ (hash : Text → Nat) (vnodesPerNode : Nat),
    (∀ text, hash text < 2 ^ 32) → 0 < vnodesPerNode →
      ∀ r, Reaches (step hash vnodesPerNode) (fun _ _ => True) init r →
        r.nodes ≠ [] → ∀ key, ∃ n ∈ r.nodes, r.getNode hash key = some (some n) := by
  intro hall
  obtain ⟨r, hr, hnodes, hraises⟩ := exists_reaches (step (fun _ => 0) 1) (fun _ _ => True) init
    [.add "a".toList, .add "b".toList, .remove "b".toList]
    (fun r => r.nodes ≠ [] ∧ r.getNode (fun _ => 0) [] = none) (by decide +kernel)
  obtain ⟨n, -, hget⟩ := hall (fun _ => 0) 1 (fun _ => by decide) (by decide) r hr hnodes []
  rw [hraises] at hget
  contradiction

end LiteDB.HashRing
