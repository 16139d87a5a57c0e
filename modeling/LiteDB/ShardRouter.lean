import LiteDB.Attempts
import LiteDB.HashRing

namespace LiteDB.ShardRouter

open Attempts Function HashRing List Runs SortedMaps
open VersionKeys (Text)
open scoped VersionKeys

/-- The ring and a dictionary for each of its nodes (`sharding.py`). -/
structure ShardedStore where
  ring : ConsistentHashRing
  shards : Dict Text (Dict Text Text)

abbrev Call := Attempt ShardedStore

section Calls

variable (hash : Text → Nat) (vnodesPerNode replicationFactor : Nat)

namespace ShardedStore

def init : ShardedStore := ⟨ConsistentHashRing.init, Dict.empty⟩

def shardOf (node : Text) : Call (Dict Text Text) := do
  orRaise ((← get).shards.get? node)

def put (node key value : Text) : Call Unit := do
  let shard ← shardOf node
  modify fun s => { s with shards := s.shards.set node (shard.set key value) }

def pop (node key : Text) : Call Text := do
  let shard ← shardOf node
  let value ← orRaise (shard.get? key)
  modify fun s => { s with shards := s.shards.set node (shard.erase key) }
  return value

def getNode (key : Text) : Call (Option Text) := do
  orRaise ((← get).ring.getNode hash key)

def getNodes (key : Text) : Call (List Text) := do
  orRaise ((← get).ring.getNodes hash key replicationFactor)

/-- The test of a name: neither `None` nor the empty text passes it. -/
def truthy (node : Option Text) : Option Text := node.filter fun n => n ≠ []

def collect (nodeId : Text) (keysToMove : List Text) (key : Text) : Call (List Text) := do
  let newPrimary ← getNode hash key
  return if newPrimary = some nodeId then keysToMove ++ [key] else keysToMove

def move (source target : Text) (moved : Nat) (key : Text) : Call Nat := do
  let value ← pop source key
  put target key value
  return moved + 1

/-- The turn of the loop of `add_node` for one shard. -/
def rebalance (nodeId : Text) (moved : Nat) (existingNode : Text) : Call Nat := do
  if existingNode = nodeId then
    return moved
  else
    let shard ← shardOf existingNode
    let keysToMove ← (shard.entries.map Prod.fst).foldlM (collect hash nodeId) []
    keysToMove.foldlM (move existingNode nodeId) moved

def addNode (nodeId : Text) : Call (Text × Nat) := do
  modify fun s => { s with shards := s.shards.set nodeId Dict.empty }
  let (ring, _) ← orRaise ((← get).ring.addNode hash vnodesPerNode nodeId)
  modify fun s => { s with ring := ring }
  let moved ← ((← get).shards.entries.map Prod.fst).foldlM (rebalance hash nodeId) 0
  return (nodeId, moved)

/-- The turn of the loop of `remove_node` for one key. -/
def rehome (moved : Nat) (entry : Text × Text) : Call Nat := do
  match truthy (← getNode hash entry.1) with
  | some newNode =>
      put newNode entry.1 entry.2
      return moved + 1
  | none => return moved

def removeNode (nodeId : Text) : Call (Text × Nat) := do
  let keysToMove ← shardOf nodeId
  let (ring, _) ← orRaise ((← get).ring.removeNode nodeId)
  modify fun s => ⟨ring, s.shards.erase nodeId⟩
  let moved ← keysToMove.entries.foldlM (rehome hash) 0
  return (nodeId, moved)

def set (key value : Text) : Call Text := do
  match ← getNodes hash replicationFactor key with
  | [] => throw ()
  | primary :: replicas =>
      (primary :: replicas).foldlM (fun _ node => put node key value) ()
      return primary

def get (key : Text) : Call (Option Text) := do
  match truthy (← getNode hash key) with
  | some node => return (← shardOf node).get? key
  | none => return none

/-- The turn of the loop of `delete` for one node. -/
def deleteAt (key : Text) (found : Bool) (node : Text) : Call Bool := do
  if ((← shardOf node).get? key).isSome then
    let _ ← pop node key
    return true
  else
    return found

def delete (key : Text) : Call Bool := do
  (← getNodes hash replicationFactor key).foldlM (deleteAt key) false

def copyAt (s : ShardedStore) (node key : Text) : Option Text :=
  (s.shards.get? node).bind fun shard => shard.get? key

end ShardedStore

open ShardedStore

/-- The calls of a client. -/
inductive Event where
  | set (key value : Text)
  | delete (key : Text)
  | addNode (nodeId : Text)
  | removeNode (nodeId : Text)

def perform : Event → Call Unit
  | .set key value => discard (set hash replicationFactor key value)
  | .delete key => discard (delete hash replicationFactor key)
  | .addNode nodeId => discard (addNode hash vnodesPerNode nodeId)
  | .removeNode nodeId => discard (removeNode hash nodeId)

/-- A store and the calls that have been made to it, the last one first. -/
structure History where
  store : ShardedStore
  calls : List Event

def History.init : History := ⟨ShardedStore.init, []⟩

/-- A call, whether it raises or not. -/
def step (h : History) (a : Event) : Option History :=
  some ⟨(attempt (perform hash vnodesPerNode replicationFactor a) h.store).2, a :: h.calls⟩

/-- The value of the last `set` of a key that no `delete` of it follows. -/
def current (key : Text) : List Event → Option Text
  | [] => none
  | .set k value :: calls => if key = k then some value else current key calls
  | .delete k :: calls => if key = k then none else current key calls
  | .addNode _ :: calls => current key calls
  | .removeNode _ :: calls => current key calls

/-- New nodes have distinct positions, and a node remains. -/
def Possible (s : ShardedStore) : Event → Prop
  | .set _ _ => s.ring.nodes ≠ []
  | .delete _ => s.ring.nodes ≠ []
  | .addNode nodeId => nodeId ∈ s.ring.nodes ∨ Distinct hash vnodesPerNode s.ring (.add nodeId)
  | .removeNode nodeId => ∃ n ∈ s.ring.nodes, n ≠ nodeId

/-- Every copy of the key is at a node that a call for the key goes to. -/
def Reachable (s : ShardedStore) (key : Text) : Prop :=
  ∀ n ∈ s.ring.nodes, (copyAt s n key).isSome →
    n ∈ (s.ring.getNodes hash key replicationFactor).getD []

/-- No call leaves copies behind, and only new nodes with a name are added. -/
def Covered (s : ShardedStore) : Event → Prop
  | .set key _ => replicationFactor = 1 ∨ Reachable hash replicationFactor s key
  | .delete key => replicationFactor = 1 ∨ Reachable hash replicationFactor s key
  | .addNode nodeId => nodeId ≠ [] ∧ nodeId ∉ s.ring.nodes
  | .removeNode _ => True

instance (s : ShardedStore) (a : Event) : Decidable (Possible hash vnodesPerNode s a) := by
  induction a using Event.casesOn <;> unfold Possible <;> infer_instance

instance (s : ShardedStore) (key : Text) :
    Decidable (Reachable hash replicationFactor s key) :=
  inferInstanceAs (Decidable (∀ n ∈ _, _))

instance (s : ShardedStore) (a : Event) : Decidable (Covered hash replicationFactor s a) := by
  induction a using Event.casesOn <;> unfold Covered <;> infer_instance

end Calls

open ShardedStore

variable {hash : Text → Nat} {vnodesPerNode replicationFactor : Nat} {s t u : ShardedStore}
  {node key value : Text}

variable {E : ShardedStore → Prop} {shard : Dict Text Text}

section Rewriting

/-- `t` is `s` with other copies at some places. -/
structure Rewrites (s t : ShardedStore) (places : Text → Text → Prop)
    (values : Text → Option Text) : Prop where
  ring : t.ring = s.ring
  shards : ∀ n, (t.shards.get? n).isSome = (s.shards.get? n).isSome
  at_places : ∀ n k, places n k → copyAt t n k = values k
  elsewhere : ∀ n k, ¬places n k → copyAt t n k = copyAt s n k

variable {places places' : Text → Text → Prop} {values : Text → Option Text}

theorem Rewrites.refl (s : ShardedStore) (values : Text → Option Text) :
    Rewrites s s (fun _ _ => False) values :=
  ⟨rfl, fun _ => rfl, fun _ _ => False.elim, fun _ _ _ => rfl⟩

theorem Rewrites.trans (h : Rewrites s t places values) (h' : Rewrites t u places' values) :
    Rewrites s u (fun n k => places n k ∨ places' n k) values := by
  refine ⟨h'.ring.trans h.ring, fun n => (h'.shards n).trans (h.shards n), fun n k hat => ?_,
    fun n k hnot => ?_⟩
  · by_cases hlast : places' n k
    · exact h'.at_places n k hlast
    · rw [h'.elsewhere n k hlast]
      exact h.at_places n k (hat.resolve_right hlast)
  · rw [not_or] at hnot
    rw [h'.elsewhere n k hnot.2, h.elsewhere n k hnot.1]

theorem Rewrites.congr (h : Rewrites s t places values)
    (hiff : ∀ n k, places n k ↔ places' n k) : Rewrites s t places' values :=
  ⟨h.ring, h.shards, fun n k hat => h.at_places n k ((hiff n k).mpr hat),
    fun n k hnot => h.elsewhere n k (mt (hiff n k).mp hnot)⟩

/-- A loop whose turns write the same values at places of their own. -/
theorem yields_foldlM_rewrites {A B : Type} {f : B → A → Call B} {xs : List A} {b : B}
    (place : A → Text → Text → Prop)
    (hturn : ∀ x ∈ xs, ∀ b t, t.ring = s.ring →
      (∀ n, (t.shards.get? n).isSome = (s.shards.get? n).isSome) →
      Yields (f b x) t (fun _ u => Rewrites t u (place x) values) E) :
    Yields (xs.foldlM f b) s
      (fun _ t => Rewrites s t (fun n k => ∃ x ∈ xs, place x n k) values) E := by
  induction xs generalizing s b with
  | nil => exact yields_pure ((Rewrites.refl s values).congr (by simp))
  | cons x xs ih =>
    rw [foldlM_cons]
    refine Yields.bind ((hturn x mem_cons_self b s rfl fun _ => rfl).mono fun b t ht => ?_)
    refine (ih fun y hy b u hring hshards => ?_).mono fun _ u hu =>
      (ht.trans hu).congr (by simp)
    exact hturn y (mem_cons_of_mem x hy) b u (hring.trans ht.ring)
      fun n => (hshards n).trans (ht.shards n)

theorem rewrites_set (hshard : s.shards.get? node = some shard) (key : Text)
    (shard' : Dict Text Text) (hother : ∀ k, k ≠ key → shard'.get? k = shard.get? k) :
    Rewrites s { s with shards := s.shards.set node shard' } (fun n k => n = node ∧ k = key)
      fun _ => shard'.get? key := by
  refine ⟨rfl, fun n => ?_, ?_, fun n k hnot => ?_⟩
  · rw [Dict.get?_set]
    split
    · rename_i hn
      rw [hn, hshard, Option.isSome_some, Option.isSome_some]
    · rfl
  · rintro n k ⟨rfl, rfl⟩
    simp [copyAt, Dict.get?_set]
  · simp only [copyAt, Dict.get?_set]
    split
    · rename_i hn
      rw [hn, hshard]
      exact hother k fun hk => hnot ⟨hn, hk⟩
    · rfl

theorem yields_shardOf {Q : Dict Text Text → ShardedStore → Prop}
    (hshard : s.shards.get? node = some shard) (h : Q shard s) : Yields (shardOf node) s Q E :=
  Yields.bind (yields_get (yields_orRaise hshard h))

theorem yields_put (h : (s.shards.get? node).isSome) :
    Yields (put node key value) s
      (fun _ t => Rewrites s t (fun n k => n = node ∧ k = key) fun _ => some value) E := by
  obtain ⟨shard, hshard⟩ := Option.isSome_iff_exists.mp h
  refine Yields.bind (yields_shardOf hshard (yields_modify ?_))
  have hrewrites := rewrites_set hshard key (shard.set key value)
    fun k hk => by rw [Dict.get?_set, if_neg hk]
  rwa [Dict.get?_set, if_pos rfl] at hrewrites

theorem yields_pop (h : copyAt s node key = some value) :
    Yields (pop node key) s
      (fun v t => v = value ∧ Rewrites s t (fun n k => n = node ∧ k = key) fun _ => none) E := by
  obtain ⟨shard, hshard, hvalue⟩ := Option.bind_eq_some_iff.mp h
  refine Yields.bind (yields_shardOf hshard (Yields.bind (yields_orRaise hvalue ?_)))
  refine Yields.bind (yields_modify (yields_pure ⟨rfl, ?_⟩))
  have hrewrites := rewrites_set hshard key (shard.erase key)
    fun k hk => by rw [Dict.get?_erase, if_neg hk]
  rwa [Dict.get?_erase, if_pos rfl] at hrewrites

end Rewriting

/-- The copies in a store have the values of a map, and the owner of every key has one.
The places in `rest` are still to be visited by a loop that moves keys. -/
structure Holds (hash : Text → Nat) (replicationFactor : Nat) (m : Text → Option Text)
    (rest : Text → Text → Prop) (s : ShardedStore) : Prop where
  sound : Sound s.ring
  shards : ∀ n, (s.shards.get? n).isSome ↔ n ∈ s.ring.nodes
  named : [] ∉ s.ring.nodes
  copies : ∀ n k v, copyAt s n k = some v → m k = some v
  held : ∀ k v, m k = some v → ∃ n, copyAt s n k = some v ∧ (Owner hash s.ring k n ∨ rest n k)
  single : replicationFactor = 1 → ∀ n k, (copyAt s n k).isSome →
    Owner hash s.ring k n ∨ rest n k

abbrev Settled (hash : Text → Nat) (replicationFactor : Nat) (m : Text → Option Text) :
    ShardedStore → Prop :=
  Holds hash replicationFactor m fun _ _ => False

variable {m : Text → Option Text} {rest rest' : Text → Text → Prop}

theorem settled_init : Settled hash replicationFactor (fun _ => none) ShardedStore.init := by
  refine ⟨sound_init, fun n => ?_, not_mem_nil, fun n k v hv => ?_, by simp, fun _ n k hv =>
    ?_⟩
  · exact iff_of_false Bool.false_ne_true not_mem_nil
  · contradiction
  · contradiction

theorem isSome_shards_of_copyAt (h : (copyAt s node key).isSome) : (s.shards.get? node).isSome := by
  obtain ⟨v, hv⟩ := Option.isSome_iff_exists.mp h
  obtain ⟨shard, hshard, -⟩ := Option.bind_eq_some_iff.mp hv
  exact Option.isSome_of_eq_some hshard

theorem Holds.imp (h : Holds hash replicationFactor m rest s)
    (himp : ∀ n k, (copyAt s n k).isSome → rest n k → rest' n k) :
    Holds hash replicationFactor m rest' s := by
  refine { h with held := fun k v hv => ?_, single := fun hone n k hcopy => ?_ }
  · obtain ⟨n, hcopy, hplace⟩ := h.held k v hv
    exact ⟨n, hcopy, hplace.imp_right (himp n k (Option.isSome_of_eq_some hcopy))⟩
  · exact (h.single hone n k hcopy).imp_right (himp n k hcopy)

theorem truthy_some (h : node ≠ []) : truthy (some node) = some node := by
  simp [truthy, h]

theorem Holds.shard_of_owner (h : Holds hash replicationFactor m rest s)
    (howner : Owner hash s.ring key node) : (s.shards.get? node).isSome :=
  (h.shards node).mpr (h.sound.owner_mem howner)

theorem Holds.truthy_owner (h : Holds hash replicationFactor m rest s)
    (howner : Owner hash s.ring key node) : truthy (some node) = some node :=
  truthy_some fun heq => h.named (heq ▸ h.sound.owner_mem howner)

theorem Settled.copyAt_owner (h : Settled hash replicationFactor m s)
    (howner : Owner hash s.ring key node) : copyAt s node key = m key := by
  cases hm : m key with
  | none =>
    refine Option.eq_none_iff_forall_ne_some.mpr fun v hv => ?_
    have := h.copies node key v hv
    rw [hm] at this
    contradiction
  | some v =>
    obtain ⟨n, hcopy, howner' | hfalse⟩ := h.held key v hm
    · rwa [howner.unique howner']
    · exact hfalse.elim

theorem Settled.eq_none_of_ring_eq_nil (h : Settled hash replicationFactor m s)
    (hnil : s.ring.ring = []) : m key = none := by
  refine Option.eq_none_iff_forall_ne_some.mpr fun v hv => ?_
  obtain ⟨n, -, howner | hfalse⟩ := h.held key v hv
  · have hget := h.sound.getNode_eq_some_iff.mpr howner
    rw [getNode_of_ring_eq_nil hnil] at hget
    exact Option.some_ne_none n (Option.some.inj hget).symm
  · exact hfalse

theorem yields_getNode {Q : Option Text → ShardedStore → Prop} {o : Option Text}
    (hget : s.ring.getNode hash key = some o) (h : Q o s) : Yields (getNode hash key) s Q E :=
  Yields.bind (yields_get (yields_orRaise hget h))

theorem Settled.returns_get (h : Settled hash replicationFactor m s) (key : Text) :
    Yields (get hash key) s (fun v _ => v = m key) fun _ => False := by
  rcases h.sound.ring_eq_nil_or key with hnil | ⟨n, howner⟩
  · exact Yields.bind (yields_getNode (getNode_of_ring_eq_nil hnil)
      (yields_pure (h.eq_none_of_ring_eq_nil hnil).symm))
  · refine Yields.bind (yields_getNode (h.sound.getNode_eq_some_iff.mpr howner) ?_)
    rw [h.truthy_owner howner]
    obtain ⟨shard, hshard⟩ := Option.isSome_iff_exists.mp (h.shard_of_owner howner)
    refine Yields.bind (yields_shardOf hshard (yields_pure ?_))
    rw [← h.copyAt_owner howner, copyAt, hshard, Option.bind_some]

section Writes

variable {nodes : List Text}

theorem Settled.write {written : Option Text} (h : Settled hash replicationFactor m s)
    (howner : Owner hash s.ring key node) (hnode : node ∈ nodes)
    (hcover : ∀ n, (copyAt s n key).isSome → n ∈ nodes)
    (hsingle : replicationFactor = 1 → ∀ n ∈ nodes, n = node)
    (hw : Rewrites s t (fun n k => n ∈ nodes ∧ k = key) fun _ => written) :
    Settled hash replicationFactor (Function.update m key written) t := by
  refine ⟨hw.ring ▸ h.sound, fun n => ?_, hw.ring ▸ h.named, fun n k v hcopy => ?_,
    fun k v hv => ?_, fun hone n k hcopy => ?_⟩
  · rw [hw.shards, hw.ring]
    exact h.shards n
  · by_cases hk : k = key
    · subst hk
      rw [update_self]
      by_cases hn : n ∈ nodes
      · rwa [hw.at_places n k ⟨hn, rfl⟩] at hcopy
      · rw [hw.elsewhere n k fun hat => hn hat.1] at hcopy
        exact absurd (hcover n (Option.isSome_of_eq_some hcopy)) hn
    · rw [hw.elsewhere n k fun hat => hk hat.2] at hcopy
      rw [update_of_ne hk]
      exact h.copies n k v hcopy
  · by_cases hk : k = key
    · subst hk
      rw [update_self] at hv
      exact ⟨node, (hw.at_places node k ⟨hnode, rfl⟩).trans hv, .inl (hw.ring ▸ howner)⟩
    · rw [update_of_ne hk] at hv
      obtain ⟨n, hcopy, hplace⟩ := h.held k v hv
      rw [hw.ring]
      exact ⟨n, (hw.elsewhere n k fun hat => hk hat.2).trans hcopy, hplace⟩
  · rw [hw.ring]
    by_cases hat : n ∈ nodes ∧ k = key
    · obtain ⟨hn, rfl⟩ := hat
      exact .inl ((hsingle hone n hn).symm ▸ howner)
    · rw [hw.elsewhere n k hat] at hcopy
      exact h.single hone n k hcopy

theorem Settled.exists_getNodes (h : Settled hash replicationFactor m s)
    (hnodes : s.ring.nodes ≠ [])
    (hok : replicationFactor = 1 ∨ Reachable hash replicationFactor s key) :
    ∃ n replicas, s.ring.getNodes hash key replicationFactor = some (n :: replicas) ∧
      Owner hash s.ring key n ∧ (∀ n' ∈ n :: replicas, (s.shards.get? n').isSome) ∧
      (∀ n', (copyAt s n' key).isSome → n' ∈ n :: replicas) ∧
      (replicationFactor = 1 → ∀ n' ∈ n :: replicas, n' = n) := by
  obtain ⟨n, replicas, hget, howner, hmem, hone⟩ :=
    h.sound.exists_getNodes hnodes replicationFactor key
  refine ⟨n, replicas, hget, howner, ?_, fun n' hcopy => ?_, fun hsingle => ?_⟩
  · refine forall_mem_cons.mpr ⟨h.shard_of_owner howner, fun n' hn' => ?_⟩
    exact (h.shards n').mpr (hmem n' hn')
  · rcases hok with hsingle | hreachable
    · rcases h.single hsingle n' key hcopy with howner' | hfalse
      · rw [howner'.unique howner]
        exact mem_cons_self
      · exact hfalse.elim
    · have := hreachable n' ((h.shards n').mp (isSome_shards_of_copyAt hcopy)) hcopy
      rwa [hget] at this
  · rw [hone hsingle]
    simp

theorem yields_foldlM_nodes {B : Type} {f : B → Text → Call B} {b : B} {written : Option Text}
    (hshards : ∀ n ∈ nodes, (s.shards.get? n).isSome)
    (hturn : ∀ n b t, (t.shards.get? n).isSome → Yields (f b n) t
      (fun _ u => Rewrites t u (fun n' k => n' = n ∧ k = key) fun _ => written) E) :
    Yields (nodes.foldlM f b) s
      (fun _ t => Rewrites s t (fun n k => n ∈ nodes ∧ k = key) fun _ => written) E := by
  refine (yields_foldlM_rewrites (fun n n' k => n' = n ∧ k = key)
    fun n hn b t _ hsame => hturn n b t ?_).mono fun _ t ht => ht.congr fun n k => ?_
  · rw [hsame]
    exact hshards n hn
  · constructor
    · rintro ⟨n, hn, rfl, rfl⟩
      exact ⟨hn, rfl⟩
    · exact fun ⟨hn, hk⟩ => ⟨n, hn, rfl, hk⟩

theorem yields_getNodes {Q : List Text → ShardedStore → Prop}
    (hget : s.ring.getNodes hash key replicationFactor = some nodes) (h : Q nodes s) :
    Yields (getNodes hash replicationFactor key) s Q E :=
  Yields.bind (yields_get (yields_orRaise hget h))

theorem Settled.yields_set (h : Settled hash replicationFactor m s) (hnodes : s.ring.nodes ≠ [])
    (hok : replicationFactor = 1 ∨ Reachable hash replicationFactor s key) (value : Text) :
    Yields (set hash replicationFactor key value) s
      (fun _ => Settled hash replicationFactor (Function.update m key (some value))) E := by
  obtain ⟨n, replicas, hget, howner, hshards, hcover, hsingle⟩ := h.exists_getNodes hnodes hok
  refine Yields.bind (yields_getNodes hget (Yields.bind ?_))
  refine (yields_foldlM_nodes hshards fun n _ t hn => yields_put hn).mono fun _ t ht => ?_
  exact yields_pure (h.write howner mem_cons_self hcover hsingle ht)

theorem yields_deleteAt (h : (s.shards.get? node).isSome) (found : Bool) :
    Yields (deleteAt key found node) s
      (fun _ t => Rewrites s t (fun n k => n = node ∧ k = key) fun _ => none) E := by
  obtain ⟨shard, hshard⟩ := Option.isSome_iff_exists.mp h
  have hcopy : copyAt s node key = shard.get? key := by rw [copyAt, hshard, Option.bind_some]
  refine Yields.bind (yields_shardOf hshard (yields_ite (fun hsome => ?_) fun hnone => ?_))
  · obtain ⟨value, hvalue⟩ := Option.isSome_iff_exists.mp hsome
    exact Yields.bind ((yields_pop (hcopy.trans hvalue)).mono fun _ t ht => yields_pure ht.2)
  · refine yields_pure ⟨rfl, fun _ => rfl, ?_, fun _ _ _ => rfl⟩
    rintro n k ⟨rfl, rfl⟩
    rw [hcopy]
    exact Option.not_isSome_iff_eq_none.mp hnone

theorem Settled.yields_delete (h : Settled hash replicationFactor m s) (hnodes : s.ring.nodes ≠ [])
    (hok : replicationFactor = 1 ∨ Reachable hash replicationFactor s key) :
    Yields (delete hash replicationFactor key) s
      (fun _ => Settled hash replicationFactor (Function.update m key none)) E := by
  obtain ⟨n, replicas, hget, howner, hshards, hcover, hsingle⟩ := h.exists_getNodes hnodes hok
  refine Yields.bind (yields_getNodes hget ?_)
  refine (yields_foldlM_nodes hshards fun n found t hn => yields_deleteAt hn found).mono ?_
  exact fun _ t ht => h.write howner mem_cons_self hcover hsingle ht

end Writes

variable {r : ConsistentHashRing}

section Additions

variable {source target : Text}

theorem Holds.move (h : Holds hash replicationFactor m rest s)
    (howner : Owner hash s.ring key target) (hvalue : copyAt s source key = some value)
    (hpop : Rewrites s t (fun n k => n = source ∧ k = key) fun _ => none)
    (hput : Rewrites t u (fun n k => n = target ∧ k = key) fun _ => some value) :
    Holds hash replicationFactor m (fun n k => rest n k ∧ ¬(n = source ∧ k = key)) u := by
  have hring := hput.ring.trans hpop.ring
  have htarget := hput.at_places target key ⟨rfl, rfl⟩
  have helsewhere : ∀ n k, ¬(n = target ∧ k = key) → ¬(n = source ∧ k = key) →
      copyAt u n k = copyAt s n k := by
    intro n k hput' hpop'
    rw [hput.elsewhere n k hput', hpop.elsewhere n k hpop']
  -- what is in the store after the move was there before it, or is the moved copy
  have hcases : ∀ n k v, copyAt u n k = some v → (n = target ∧ k = key ∧ v = value) ∨
        (¬(n = source ∧ k = key) ∧ copyAt s n k = some v) := by
    intro n k v hv
    by_cases hat : n = target ∧ k = key
    · obtain ⟨rfl, rfl⟩ := hat
      exact .inl ⟨rfl, rfl, Option.some.inj (hv.symm.trans htarget)⟩
    · by_cases hfrom : n = source ∧ k = key
      · rw [hput.elsewhere n k hat, hpop.at_places n k hfrom] at hv
        contradiction
      · exact .inr ⟨hfrom, (helsewhere n k hat hfrom).symm.trans hv⟩
  refine ⟨hring ▸ h.sound, fun n => ?_, hring ▸ h.named, fun n k v hv => ?_, fun k v hv => ?_,
    fun hone n k hcopy => ?_⟩
  · rw [hput.shards, hpop.shards, hring]
    exact h.shards n
  · rcases hcases n k v hv with ⟨-, rfl, rfl⟩ | ⟨-, hold⟩
    · exact h.copies source k v hvalue
    · exact h.copies n k v hold
  · rw [hring]
    by_cases hk : k = key
    · subst hk
      have hsame := Option.some.inj ((h.copies source k value hvalue).symm.trans hv)
      exact ⟨target, htarget.trans (congrArg some hsame), .inl howner⟩
    · obtain ⟨n, hcopy, hplace⟩ := h.held k v hv
      refine ⟨n, (helsewhere n k (fun hat => hk hat.2) fun hat => hk hat.2).trans hcopy, ?_⟩
      exact hplace.imp_right fun hrest => ⟨hrest, fun hat => hk hat.2⟩
  · rw [hring]
    obtain ⟨v, hv⟩ := Option.isSome_iff_exists.mp hcopy
    rcases hcases n k v hv with ⟨rfl, rfl, -⟩ | ⟨hnot, hold⟩
    · exact .inl howner
    · exact (h.single hone n k (Option.isSome_of_eq_some hold)).imp_right fun hr => ⟨hr, hnot⟩

theorem Holds.yields_move (h : Holds hash replicationFactor m rest s)
    (howner : Owner hash s.ring key target) (hcopy : (copyAt s source key).isSome) (moved : Nat) :
    Yields (ShardedStore.move source target moved key) s
      (fun _ t => Holds hash replicationFactor m
        (fun n k => rest n k ∧ ¬(n = source ∧ k = key)) t ∧ t.ring = s.ring ∧
        ∀ k, k ≠ key → copyAt t source k = copyAt s source k) E := by
  obtain ⟨value, hvalue⟩ := Option.isSome_iff_exists.mp hcopy
  refine Yields.bind ((yields_pop hvalue).mono ?_)
  rintro _ t ⟨rfl, hpop⟩
  have htarget : (t.shards.get? target).isSome := by
    rw [hpop.shards]
    exact h.shard_of_owner howner
  refine Yields.bind ((yields_put htarget).mono fun _ u hput => yields_pure ?_)
  refine ⟨h.move howner hvalue hpop hput, hput.ring.trans hpop.ring, fun k hk => ?_⟩
  rw [hput.elsewhere source k fun hat => hk hat.2, hpop.elsewhere source k fun hat => hk hat.2]

theorem yields_collect {keys found : List Text} (h : Sound s.ring) (hnodes : s.ring.nodes ≠ []) :
    Yields (keys.foldlM (collect hash node) found) s
      (fun keysToMove t => s = t ∧ keysToMove =
        found ++ keys.filter fun k => s.ring.getNode hash k = some (some node)) E := by
  induction keys generalizing found with
  | nil => exact yields_pure ⟨rfl, by simp⟩
  | cons k keys ih =>
    rw [foldlM_cons]
    obtain ⟨n, -, howner⟩ := h.exists_owner hash (h.ring_ne_nil hnodes) k
    have hget := h.getNode_eq_some_iff.mpr howner
    refine Yields.bind (Yields.bind (yields_getNode hget (yields_pure (ih.mono ?_))))
    rintro keysToMove t ⟨rfl, rfl⟩
    refine ⟨rfl, ?_⟩
    rw [filter_cons, hget]
    by_cases hn : n = node <;> simp [hn]

/-- The places from which `add_node` has still to move keys. -/
def Pending (hash : Text → Nat) (r : ConsistentHashRing) (node : Text)
    (ahead : Text → Text → Prop) (n k : Text) : Prop :=
  Owner hash r k node ∧ n ≠ node ∧ ahead n k

variable {names keys : List Text}

theorem Holds.yields_foldlM_move
    (h : Holds hash replicationFactor m
      (Pending hash r node fun n k => n ∈ names ∨ n = source ∧ k ∈ keys) s)
    (hring : s.ring = r) (hnodup : keys.Nodup)
    (hkeys : ∀ k ∈ keys, Owner hash r k node ∧ (copyAt s source k).isSome) (moved : Nat) :
    Yields (keys.foldlM (ShardedStore.move source node) moved) s
      (fun _ t => Holds hash replicationFactor m (Pending hash r node fun n _ => n ∈ names) t ∧
        t.ring = r) E := by
  induction keys generalizing s moved with
  | nil =>
    refine yields_pure ⟨h.imp fun n k _ => ?_, hring⟩
    rintro ⟨howner, hn, hmem | ⟨-, hk⟩⟩
    · exact ⟨howner, hn, hmem⟩
    · exact absurd hk not_mem_nil
  | cons key keys ih =>
    rw [nodup_cons] at hnodup
    obtain ⟨⟨howner, hcopy⟩, hkeys⟩ := forall_mem_cons.mp hkeys
    rw [foldlM_cons]
    refine Yields.bind ((h.yields_move (hring ▸ howner) hcopy moved).mono ?_)
    rintro moved t ⟨ht, hsame, hothers⟩
    refine ih (ht.imp fun n k _ => ?_) (hsame.trans hring) hnodup.2 (fun k hk => ?_) moved
    · rintro ⟨⟨howner, hn, hmem⟩, hnot⟩
      refine ⟨howner, hn, hmem.imp_right fun ⟨hsource, hk⟩ => ⟨hsource, ?_⟩⟩
      exact (mem_cons.mp hk).resolve_left fun heq => hnot ⟨hsource, heq⟩
    · rw [hothers k fun heq => hnodup.1 (heq ▸ hk)]
      exact hkeys k hk

theorem Holds.yields_rebalance {existing : Text}
    (h : Holds hash replicationFactor m (Pending hash r node fun n _ => n ∈ existing :: names) s)
    (hring : s.ring = r) (hexisting : existing ∈ r.nodes) (moved : Nat) :
    Yields (rebalance hash node moved existing) s
      (fun _ t => Holds hash replicationFactor m (Pending hash r node fun n _ => n ∈ names) t ∧
        t.ring = r) E := by
  refine yields_ite (fun heq => yields_pure ⟨h.imp fun n k _ => ?_, hring⟩) fun hne => ?_
  · rintro ⟨howner, hn, hmem⟩
    exact ⟨howner, hn, (mem_cons.mp hmem).resolve_left fun h => hn (h.trans heq)⟩
  have hmem : existing ∈ s.ring.nodes := hring ▸ hexisting
  obtain ⟨shard, hshard⟩ := Option.isSome_iff_exists.mp ((h.shards existing).mpr hmem)
  have hcopyAt : ∀ k, copyAt s existing k = shard.get? k := fun k => by
    rw [copyAt, hshard, Option.bind_some]
  refine Yields.bind (yields_shardOf hshard (Yields.bind ?_))
  refine (yields_collect h.sound (ne_nil_of_mem hmem)).mono ?_
  rintro keysToMove _ ⟨rfl, rfl⟩
  have hmove : ∀ k, k ∈ (shard.entries.map Prod.fst).filter
        (fun k => s.ring.getNode hash k = some (some node)) ↔
      Owner hash r k node ∧ (copyAt s existing k).isSome := by
    intro k
    rw [mem_filter, decide_eq_true_eq, h.sound.getNode_eq_some_iff, hring, hcopyAt,
      Dict.mem_map_fst, and_comm]
  refine Holds.yields_foldlM_move (h.imp fun n k hcopy => ?_) hring
    (shard.nodup.filter _) (fun k hk => (hmove k).mp hk) moved
  rintro ⟨howner, hn, hmem⟩
  refine ⟨howner, hn, (mem_cons.mp hmem).symm.imp_right fun hsource => ⟨hsource, ?_⟩⟩
  subst hsource
  exact (hmove k).mpr ⟨howner, hcopy⟩

theorem Settled.add (h : Settled hash replicationFactor m s) (hsound : Sound r)
    (hnodes : r.nodes = node :: s.ring.nodes) (habsent : node ∉ s.ring.nodes) (hnode : node ≠ [])
    (howners : ∀ k n, Owner hash r k n → n = node ∨ Owner hash s.ring k n) :
    Holds hash replicationFactor m
      (Pending hash r node fun n _ =>
        n ∈ (s.shards.set node Dict.empty).entries.map Prod.fst)
      ⟨r, s.shards.set node Dict.empty⟩ := by
  have hother : ∀ n k, (copyAt s n k).isSome → n ≠ node := by
    rintro n k hcopy rfl
    exact habsent ((h.shards n).mp (isSome_shards_of_copyAt hcopy))
  have hcopyAt : ∀ n k, copyAt ⟨r, s.shards.set node Dict.empty⟩ n k = copyAt s n k := by
    intro n k
    by_cases hn : n = node
    · have hnone : copyAt s n k = none := by
        rw [← Option.not_isSome_iff_eq_none]
        exact fun hcopy => hother n k hcopy hn
      rw [hnone]
      simp only [copyAt, Dict.get?_set, if_pos hn, Option.bind_some]
      rfl
    · simp only [copyAt, Dict.get?_set, if_neg hn]
  have hplace : ∀ n k, (copyAt s n k).isSome → Owner hash s.ring k n →
      Owner hash r k n ∨ Pending hash r node (fun n _ =>
        n ∈ (s.shards.set node Dict.empty).entries.map Prod.fst) n k := by
    intro n k hcopy howner
    obtain ⟨n', -, howner'⟩ := hsound.exists_owner hash (hsound.ring_ne_nil (by simp [hnodes])) k
    rcases howners k n' howner' with rfl | hold
    · refine .inr ⟨howner', hother n k hcopy, ?_⟩
      change n ∈ _
      rw [Dict.mem_map_fst, Dict.get?_set, if_neg (hother n k hcopy)]
      exact isSome_shards_of_copyAt hcopy
    · rw [howner.unique hold]
      exact .inl howner'
  refine ⟨hsound, fun n => ?_, ?_, fun n k v hcopy => ?_, fun k v hv => ?_, fun hone n k hcopy =>
    ?_⟩
  · simp only [Dict.get?_set, hnodes, mem_cons]
    split
    · rename_i hn
      exact iff_of_true rfl (.inl hn)
    · rename_i hn
      rw [h.shards, or_iff_right hn]
  · rw [hnodes, mem_cons, not_or]
    exact ⟨hnode.symm, h.named⟩
  · rw [hcopyAt] at hcopy
    exact h.copies n k v hcopy
  · obtain ⟨n, hcopy, howner | hfalse⟩ := h.held k v hv
    · exact ⟨n, (hcopyAt n k).trans hcopy, hplace n k (Option.isSome_of_eq_some hcopy) howner⟩
    · exact hfalse.elim
  · rw [hcopyAt] at hcopy
    rcases h.single hone n k hcopy with howner | hfalse
    · exact hplace n k hcopy howner
    · exact hfalse.elim

theorem Settled.yields_addNode (h : Settled hash replicationFactor m s) (hpos : 0 < vnodesPerNode)
    (hdistinct : Distinct hash vnodesPerNode s.ring (.add node)) (hnode : node ≠ [])
    (habsent : node ∉ s.ring.nodes) :
    Yields (addNode hash vnodesPerNode node) s (fun _ => Settled hash replicationFactor m) E := by
  obtain ⟨r, ps, hadd⟩ := exists_addNode hash vnodesPerNode habsent
  have hsound := h.sound.add hpos hdistinct hadd
  obtain ⟨-, hnodes, hgrows⟩ := addNode_spec h.sound.toAgrees hdistinct hadd
  have hstart := h.add hsound hnodes habsent hnode
    fun k n howner => hgrows.owner h.sound.toAgrees hdistinct.2 howner
  refine Yields.bind (yields_modify (Yields.bind (yields_get (Yields.bind ?_))))
  refine yields_orRaise hadd (Yields.bind (yields_modify (Yields.bind (yields_get ?_))))
  refine Yields.bind (Yields.mono (yields_foldlM (fun names _ t => (∀ n ∈ names, n ∈ r.nodes) ∧
    Holds hash replicationFactor m (Pending hash r node fun n _ => n ∈ names) t ∧ t.ring = r)
    (fun n names moved t => ?_) ⟨fun n hn => ?_, hstart, rfl⟩) fun _ t ht => yields_pure ?_)
  · rintro ⟨hnames, ht, hring⟩
    obtain ⟨hn, hnames⟩ := forall_mem_cons.mp hnames
    exact (ht.yields_rebalance hring hn moved).mono fun _ u hu => ⟨hnames, hu⟩
  · exact (hstart.shards n).mp (Dict.mem_map_fst.mp hn)
  · exact ht.2.1.imp fun n k _ hpending => absurd hpending.2.2 not_mem_nil

end Additions

theorem yields_rehome {entry : Text × Text} (howner : Owner hash s.ring entry.1 node)
    (hagrees : Agrees s.ring) (hnode : node ≠ []) (hshard : (s.shards.get? node).isSome)
    (hentry : shard.get? entry.1 = some entry.2) (moved : Nat) :
    Yields (rehome hash moved entry) s
      (fun _ t => Rewrites s t (fun n k => k = entry.1 ∧ Owner hash s.ring k n) shard.get?) E := by
  refine Yields.bind (yields_getNode (hagrees.getNode_eq_some_iff.mpr howner) ?_)
  rw [truthy_some hnode]
  refine Yields.bind ((yields_put hshard).mono fun _ t ht => yields_pure ?_)
  refine ⟨ht.ring, ht.shards, ?_, fun n k hnot => ht.elsewhere n k ?_⟩
  · rintro n k ⟨rfl, howner'⟩
    rw [hentry]
    exact ht.at_places n _ ⟨howner'.unique howner, rfl⟩
  · rintro ⟨rfl, rfl⟩
    exact hnot ⟨rfl, howner⟩

theorem yields_foldlM_rehome (hsound : Sound s.ring) (hnodes : s.ring.nodes ≠ [])
    (hnamed : [] ∉ s.ring.nodes) (hshards : ∀ n ∈ s.ring.nodes, (s.shards.get? n).isSome)
    (moved : Nat) :
    Yields (shard.entries.foldlM (rehome hash) moved) s
      (fun _ t => Rewrites s t (fun n k => (shard.get? k).isSome ∧ Owner hash s.ring k n)
        shard.get?) E := by
  have hloop : Yields (shard.entries.foldlM (rehome hash) moved) s (fun _ t => Rewrites s t
      (fun n k => ∃ e ∈ shard.entries, k = e.1 ∧ Owner hash s.ring k n) shard.get?) E := by
    refine yields_foldlM_rewrites (fun (e : Text × Text) n k => k = e.1 ∧ Owner hash s.ring k n)
      fun e he moved t hring hsame => ?_
    obtain ⟨n, -, howner⟩ := hsound.exists_owner hash (hsound.ring_ne_nil hnodes) e.1
    have hmem := hsound.owner_mem howner
    rw [← hring] at howner hsound ⊢
    refine yields_rehome howner hsound.toAgrees (fun hn => hnamed (hn ▸ hmem)) ?_
      (Dict.get?_eq_some_iff.mpr he) moved
    rw [hsame]
    exact hshards n hmem
  refine hloop.mono fun _ t ht => ht.congr fun n k => ?_
  rw [← Dict.mem_map_fst, mem_map]
  constructor
  · rintro ⟨e, he, rfl, howner⟩
    exact ⟨⟨e, he, rfl⟩, howner⟩
  · rintro ⟨⟨e, he, rfl⟩, howner⟩
    exact ⟨e, he, rfl, howner⟩

theorem Settled.remove (h : Settled hash replicationFactor m s)
    (hshard : s.shards.get? node = some shard) (hsound : Sound r)
    (hnodes : r.nodes = s.ring.nodes.filter fun n => n ≠ node) (hleft : r.nodes ≠ [])
    (howners : ∀ k n, Owner hash s.ring k n → n ≠ node → Owner hash r k n)
    (hw : Rewrites ⟨r, s.shards.erase node⟩ t
      (fun n k => (shard.get? k).isSome ∧ Owner hash r k n) shard.get?) :
    Settled hash replicationFactor m t := by
  have hring : t.ring = r := hw.ring
  have hcopyAt : ∀ k, copyAt s node k = shard.get? k := fun k => by
    rw [copyAt, hshard, Option.bind_some]
  have herased : ∀ n k, copyAt ⟨r, s.shards.erase node⟩ n k =
      if n = node then none else copyAt s n k := by
    intro n k
    simp only [copyAt, Dict.get?_erase]
    split <;> rfl
  have hcases : ∀ n k v, copyAt t n k = some v →
      (copyAt s node k = some v ∧ Owner hash r k n) ∨ (n ≠ node ∧ copyAt s n k = some v) := by
    intro n k v hv
    by_cases hat : (shard.get? k).isSome ∧ Owner hash r k n
    · rw [hw.at_places n k hat, ← hcopyAt] at hv
      exact .inl ⟨hv, hat.2⟩
    · rw [hw.elsewhere n k hat, herased] at hv
      split at hv
      · contradiction
      · exact .inr ⟨‹_›, hv⟩
  refine ⟨hring ▸ hsound, fun n => ?_, ?_, fun n k v hcopy => ?_, fun k v hv => ?_,
    fun hone n k hcopy => ?_⟩
  · rw [hw.shards, hring, hnodes, Dict.get?_erase, mem_filter, decide_eq_true_eq, ← h.shards]
    split <;> simp [*]
  · rw [hring, hnodes, mem_filter]
    exact fun hmem => h.named hmem.1
  · rcases hcases n k v hcopy with ⟨hold, -⟩ | ⟨-, hold⟩
    · exact h.copies node k v hold
    · exact h.copies n k v hold
  · rw [hring]
    obtain ⟨n, -, howner⟩ := hsound.exists_owner hash (hsound.ring_ne_nil hleft) k
    refine ⟨n, ?_, .inl howner⟩
    by_cases hmoved : (shard.get? k).isSome
    · obtain ⟨w, hw'⟩ := Option.isSome_iff_exists.mp hmoved
      rw [hw.at_places n k ⟨hmoved, howner⟩, hw', ← hv]
      exact (h.copies node k w ((hcopyAt k).trans hw')).symm
    · obtain ⟨n', hcopy, howner' | hfalse⟩ := h.held k v hv
      · have hn' : n' ≠ node := by
          rintro rfl
          rw [hcopyAt] at hcopy
          exact hmoved (Option.isSome_of_eq_some hcopy)
        obtain rfl := howner.unique (howners k n' howner' hn')
        rw [hw.elsewhere n k fun hat => hmoved hat.1, herased, if_neg hn']
        exact hcopy
      · exact hfalse.elim
  · rw [hring]
    obtain ⟨v, hv⟩ := Option.isSome_iff_exists.mp hcopy
    rcases hcases n k v hv with ⟨-, howner⟩ | ⟨hn, hold⟩
    · exact .inl howner
    · rcases h.single hone n k (Option.isSome_of_eq_some hold) with howner | hfalse
      · exact .inl (howners k n howner hn)
      · exact hfalse.elim

theorem Settled.yields_removeNode (h : Settled hash replicationFactor m s)
    (hleft : ∃ n ∈ s.ring.nodes, n ≠ node) :
    Yields (removeNode hash node) s (fun _ => Settled hash replicationFactor m)
      (Settled hash replicationFactor m) := by
  by_cases hmem : node ∈ s.ring.nodes
  · obtain ⟨r, count, hremove⟩ := exists_removeNode hmem
    obtain ⟨-, hnodes, hshrinks⟩ := removeNode_spec h.sound.toAgrees hremove
    have hsound := h.sound.remove hremove
    have hr : r.nodes ≠ [] := by
      obtain ⟨n, hn, hne⟩ := hleft
      exact ne_nil_of_mem (hnodes ▸ mem_filter.mpr ⟨hn, decide_eq_true hne⟩)
    obtain ⟨shard, hshard⟩ := Option.isSome_iff_exists.mp ((h.shards node).mpr hmem)
    refine Yields.bind (yields_shardOf hshard (Yields.bind (yields_get (Yields.bind ?_))))
    refine yields_orRaise hremove (Yields.bind (yields_modify (Yields.bind ?_)))
    refine (yields_foldlM_rehome hsound hr ?_ (fun n hn => ?_) 0).mono fun _ t ht =>
      yields_pure ?_
    · rw [hnodes, mem_filter]
      exact fun hmem => h.named hmem.1
    · rw [hnodes, mem_filter, decide_eq_true_eq] at hn
      rw [Dict.get?_erase, if_neg hn.2]
      exact (h.shards n).mpr hn.1
    · exact h.remove hshard hsound hnodes hr
        (fun k n howner hne => hshrinks.owner h.sound.toAgrees howner hne) ht
  · have hnone : s.shards.get? node = none := by
      rw [← Option.not_isSome_iff_eq_none, h.shards]
      exact hmem
    refine Yields.bind (Yields.bind (yields_get ?_))
    rw [hnone]
    exact yields_throw h

theorem Settled.step {calls : List Event} {a : Event} (hpos : 0 < vnodesPerNode)
    (h : Settled hash replicationFactor (fun key => current key calls) s)
    (hpossible : Possible hash vnodesPerNode s a) (hcovered : Covered hash replicationFactor s a) :
    Settled hash replicationFactor (fun key => current key (a :: calls))
      (attempt (perform hash vnodesPerNode replicationFactor a) s).2 := by
  cases a with
  | set key value =>
    have hmap : (fun k => current k (.set key value :: calls)) =
        Function.update (fun k => current k calls) key (some value) := by
      funext k
      rw [current, update_apply]
    rw [perform, attempt_discard, hmap]
    exact (h.yields_set hpossible hcovered value).snd
  | delete key =>
    have hmap : (fun k => current k (.delete key :: calls)) =
        Function.update (fun k => current k calls) key none := by
      funext k
      rw [current, update_apply]
    rw [perform, attempt_discard, hmap]
    exact (h.yields_delete hpossible hcovered).snd
  | addNode nodeId =>
    rw [perform, attempt_discard]
    have hdistinct := hpossible.resolve_left hcovered.2
    exact (h.yields_addNode hpos hdistinct hcovered.1 hcovered.2).snd
  | removeNode nodeId =>
    rw [perform, attempt_discard]
    exact (h.yields_removeNode hpossible).snd

/-- With calls that leave no copy behind, the store is a map. -/
theorem get_returns_current (hash : Text → Nat) (vnodesPerNode replicationFactor : Nat)
    (hpos : 0 < vnodesPerNode) {t : History}
    (h : Reaches (step hash vnodesPerNode replicationFactor)
      (fun t a => Possible hash vnodesPerNode t.store a ∧
        Covered hash replicationFactor t.store a) History.init t) (key : Text) :
    (attempt (get hash key) t.store).1 = .ok (current key t.calls) := by
  have hsettled : Settled hash replicationFactor (fun key => current key t.calls) t.store := by
    refine h.invariant (fun t => Settled hash replicationFactor (fun key => current key t.calls)
      t.store) settled_init fun t a u ht hok hstep => ?_
    cases hstep
    exact ht.step hpos hok.1 hok.2
  exact (hsettled.returns_get key).returns

theorem get_returns_current_of_moved : ∃ t : History, t.calls.length = 7 ∧
    (attempt (get sampleHash "k".toList) t.store).1 = .ok (current "k".toList t.calls) := by
  obtain ⟨t, ht, htest⟩ := exists_reaches (step sampleHash 2 2)
    (fun t a => Possible sampleHash 2 t.store a ∧ Covered sampleHash 2 t.store a) History.init
    [.addNode "a".toList, .addNode "x".toList, .set "k".toList "v".toList,
      .removeNode "a".toList, .addNode "ab".toList, .set "k".toList "w".toList,
      .removeNode "x".toList]
    (fun t => t.calls.length = 7) (by decide +kernel)
  exact ⟨t, htest, get_returns_current sampleHash 2 2 (by decide) ht _⟩

/-- A copy on a node that is no longer one of the nodes of its key survives `delete`. -/
theorem deleted_key_returns : ¬∀ (hash : Text → Nat) (vnodesPerNode replicationFactor : Nat),
    0 < vnodesPerNode → 0 < replicationFactor →
      ∀ t, Reaches (step hash vnodesPerNode replicationFactor)
          (fun t a => Possible hash vnodesPerNode t.store a) History.init t →
        ∀ key, (attempt (get hash key) t.store).1 = .ok (current key t.calls) := by
  intro hall
  obtain ⟨t, ht, hget, hcurrent⟩ := exists_reaches (step sampleHash 1 2)
    (fun t a => Possible sampleHash 1 t.store a) History.init
    [.addNode "a".toList, .addNode "c".toList, .set "k".toList "v".toList, .addNode "b".toList,
      .delete "k".toList, .removeNode "a".toList, .removeNode "b".toList]
    (fun t => (attempt (get sampleHash "k".toList) t.store).1.toOption = some (some "v".toList) ∧
      current "k".toList t.calls = none) (by decide +kernel)
  have hclaimed := hall sampleHash 1 2 (by decide) (by decide) t ht "k".toList
  rw [hclaimed, hcurrent] at hget
  exact absurd hget (by decide)

end LiteDB.ShardRouter
