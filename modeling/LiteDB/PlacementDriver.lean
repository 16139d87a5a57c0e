import LiteDB.RaftNode
import Mathlib.Data.List.Basic
import Mathlib.Logic.Function.Basic

/-!
The placement of shard replicas: the placement driver (`pd.py`), the handlers and
the fence loop of a node (`node.py`), and the target placement
(`cluster_config.py`). A Raft group is taken as correct and is seen through the
configurations in the logs of its leaders. A call may be executed at any time
after it was sent, or never.
-/

namespace LiteDB.PlacementDriver

open RaftNode (sorted)

/-- The static topology; shards are numbered. -/
structure Topology (Node : Type) where
  initialNodes : List Node
  pdNodes : List Node
  shards : Nat
  replicationFactor : Nat

/-- The decisions in the log of the driver (`pd.py`). -/
inductive Decision (Node : Type) where
  | addNode (node : Node)
  | removeNode (node : Node)
deriving DecidableEq

/-- The configurations of a group: those in the log of its leader after the initial
one, how many of them are committed, and the logs of earlier leaders. -/
structure ShardGroup (Node : Type) where
  initial : Finset Node
  log : List (Finset Node)
  past : List (List (Finset Node))
  committed : Nat

/-- The calls that the driver sends to nodes. -/
inductive Call (Node : Type) where
  | hostShard (node : Node) (shard : Nat)
  | reconfigure (shard : Nat) (voters : Finset Node)
  | dropShard (node : Node) (shard : Nat)
deriving DecidableEq

/-- A run of `_reconcile`: the nodes it takes as active, the shards that are left and
the calls that it is about to make. -/
structure Pass (Node : Type) where
  active : List Node
  todo : List Nat
  outbox : List (Call Node)

/-- A run of `_fence_orphans`: the nodes that the answer of a placement driver takes
as active, the time, and the replicas that are left. -/
structure Fence (Node : Type) where
  active : List Node
  now : Int
  todo : List Nat

/-- `decisions` is the committed log of the placement drivers, of which each replica
has applied a part. `wipes` are the deletions of replica files, with the committed
configuration of that moment. -/
structure Control (Node : Type) where
  decisions : List (Decision Node)
  applied : Node → Nat
  groups : Nat → ShardGroup Node
  hosted : Node → List Nat
  passes : List (Pass Node)
  calls : List (Call Node)
  fences : Node → Option (Fence Node)
  orphanSince : Node → Nat → Option Int
  wipes : List (Node × Nat × Finset Node)

/-- The steps of the drivers, of the nodes and of the Raft groups, which are taken as correct. -/
inductive Event (Node : Type) where
  | decide (decision : Decision Node)
  | apply (pd : Node)
  | restart (node : Node)
  | reconcile (pd : Node)
  | inspect (k : Nat) (voters : Finset Node)
  | skip (k : Nat)
  | send (k : Nat)
  | cancel (k : Nat)
  | accept (i : Nat)
  | stray (i : Nat) (old : List (Finset Node))
  | execute (i : Nat)
  | lose (i : Nat)
  | commit (shard : Nat)
  | elect (shard : Nat) (log : List (Finset Node))
  | ask (node pd : Node) (now : Int)
  | fence (node : Node)

variable {Node : Type} [LinearOrder Node]

def Topology.placement (c : Topology Node) (nodes : List Node) (shard : Nat) : List Node :=
  if shard < c.shards then
    (List.range (min c.replicationFactor nodes.length)).filterMap fun j =>
      nodes[(shard + j) % nodes.length]?
  else []

def Topology.startShards (c : Topology Node) (node : Node) : List Nat :=
  (List.range c.shards).filter fun shard => node ∈ c.placement c.initialNodes shard

def applyDecision (active : List Node) : Decision Node → List Node
  | .addNode node => if node ∈ active then active else active ++ [node]
  | .removeNode node => active.erase node

namespace ShardGroup

/-- The configuration of a replica with the given log. -/
def latest (g : ShardGroup Node) (log : List (Finset Node)) : Finset Node :=
  log.getLast?.getD g.initial

def voters (g : ShardGroup Node) : Finset Node := g.latest g.log

def committedVoters (g : ShardGroup Node) : Finset Node := g.latest (g.log.take g.committed)

/-- The configurations that a node which takes itself for the leader may report. -/
def configs (g : ShardGroup Node) : List (Finset Node) := g.initial :: (g.log :: g.past).flatten

/-- A new leader has every committed entry and some of the others. -/
def CanElect (g : ShardGroup Node) (log : List (Finset Node)) : Prop :=
  g.log.take g.committed <+: log ∧ ∃ old ∈ g.log :: g.past, log <+: old

instance (g : ShardGroup Node) (log : List (Finset Node)) : Decidable (g.CanElect log) :=
  inferInstanceAs (Decidable (_ ∧ _))

/-- The test in `reconfigure`. -/
def OneChange (old new : Finset Node) : Prop := (symmDiff old new).card = 1

instance (old new : Finset Node) : Decidable (OneChange old new) :=
  inferInstanceAs (Decidable (_ = _))

end ShardGroup

/-- The calls that `_reconcile` makes for a shard: at most one change of its
configuration. -/
def changes (want : List Node) (shard : Nat) (voters : Finset Node) : List (Call Node) :=
  match want.filter (· ∉ voters), (sorted voters).filter (· ∉ want) with
  | node :: _, _ => [.hostShard node shard, .reconfigure shard (insert node voters)]
  | [], node :: _ =>
      if voters.erase node = ∅ then []
      else [.reconfigure shard (voters.erase node), .dropShard node shard]
  | [], [] => []

def fenceAfter : Int := 4

def init (c : Topology Node) : Control Node where
  decisions := []
  applied := fun _ => 0
  groups := fun shard => ⟨(c.placement c.initialNodes shard).toFinset, [], [], 0⟩
  hosted := c.startShards
  passes := []
  calls := []
  fences := fun _ => none
  orphanSince := fun _ _ => none
  wipes := []

namespace Control

/-- The membership that a replica of the placement driver has applied. -/
def active (c : Topology Node) (s : Control Node) (pd : Node) : List Node :=
  (s.decisions.take (s.applied pd)).foldl applyDecision c.initialNodes

def setPass (s : Control Node) (k : Nat) (pass : Pass Node) : Control Node :=
  { s with passes := s.passes.set k pass }

def setGroup (s : Control Node) (shard : Nat) (g : ShardGroup Node) : Control Node :=
  { s with groups := Function.update s.groups shard g }

def setFence (s : Control Node) (node : Node) (fence : Option (Fence Node)) : Control Node :=
  { s with fences := Function.update s.fences node fence }

def setOrphan (s : Control Node) (node : Node) (shard : Nat) (since : Option Int) :
    Control Node :=
  { s with
    orphanSince := Function.update s.orphanSince node
      (Function.update (s.orphanSince node) shard since) }

def removeCall (s : Control Node) (i : Nat) : Control Node :=
  { s with calls := s.calls.eraseIdx i }

def host (s : Control Node) (node : Node) (shard : Nat) : Control Node :=
  { s with
    hosted := Function.update s.hosted node
      (if shard ∈ s.hosted node then s.hosted node else s.hosted node ++ [shard]) }

/-- `_wipe_shard_files` of a replica that is no longer hosted. -/
def wipe (s : Control Node) (node : Node) (shard : Nat) : Control Node :=
  { s with
    hosted := Function.update s.hosted node ((s.hosted node).erase shard)
    wipes := s.wipes ++ [(node, shard, (s.groups shard).committedVoters)] }

/-- The fence loop looks at one replica. -/
def fenceShard (c : Topology Node) (s : Control Node) (node : Node) (active : List Node)
    (now : Int) (shard : Nat) : Control Node :=
  if node ∈ c.placement active shard then s.setOrphan node shard none
  else
    match s.orphanSince node shard with
    | none => s.setOrphan node shard (some now)
    | some first =>
        if fenceAfter ≤ now - first then (s.setOrphan node shard none).wipe node shard else s

end Control

def step (c : Topology Node) (s : Control Node) : Event Node → Option (Control Node)
  | .decide decision => some { s with decisions := s.decisions ++ [decision] }
  | .apply pd =>
      if s.applied pd < s.decisions.length then
        some { s with applied := Function.update s.applied pd (s.applied pd + 1) }
      else none
  | .restart node =>
      some
        { s with
          applied := Function.update s.applied node 0
          hosted := Function.update s.hosted node (c.startShards node)
          fences := Function.update s.fences node none
          orphanSince := Function.update s.orphanSince node fun _ => none }
  | .reconcile pd =>
      if pd ∈ c.pdNodes then
        some { s with passes := s.passes ++ [⟨s.active c pd, List.range c.shards, []⟩] }
      else none
  | .inspect k voters =>
      match s.passes[k]? with
      | some ⟨active, shard :: todo, []⟩ =>
          if voters ∈ (s.groups shard).configs then
            some (s.setPass k ⟨active, todo, changes (c.placement active shard) shard voters⟩)
          else none
      | _ => none
  | .skip k =>
      match s.passes[k]? with
      | some ⟨active, _ :: todo, []⟩ => some (s.setPass k ⟨active, todo, []⟩)
      | _ => none
  | .send k =>
      match s.passes[k]? with
      | some ⟨active, todo, call :: outbox⟩ =>
          some { s.setPass k ⟨active, todo, outbox⟩ with calls := s.calls ++ [call] }
      | _ => none
  | .cancel k =>
      match s.passes[k]? with
      | some ⟨active, todo, _ :: outbox⟩ => some (s.setPass k ⟨active, todo, outbox⟩)
      | _ => none
  | .accept i =>
      match s.calls[i]? with
      | some (.reconfigure shard voters) =>
          let g := s.groups shard
          if ShardGroup.OneChange g.voters voters then
            some ((s.removeCall i).setGroup shard { g with log := g.log ++ [voters] })
          else none
      | _ => none
  | .stray i old =>
      match s.calls[i]? with
      | some (.reconfigure shard voters) =>
          let g := s.groups shard
          if old ∈ g.past ∧ ShardGroup.OneChange (g.latest old) voters then
            some ((s.removeCall i).setGroup shard { g with past := (old ++ [voters]) :: g.past })
          else none
      | _ => none
  | .execute i =>
      match s.calls[i]? with
      | some (.hostShard node shard) => some ((s.removeCall i).host node shard)
      | some (.dropShard node shard) =>
          if shard ∈ s.hosted node then some ((s.removeCall i).wipe node shard)
          else some (s.removeCall i)
      | _ => none
  | .lose i => (s.calls[i]?).map fun _ => s.removeCall i
  | .commit shard =>
      let g := s.groups shard
      if g.committed < g.log.length then
        some (s.setGroup shard { g with committed := g.committed + 1 })
      else none
  | .elect shard log =>
      let g := s.groups shard
      if g.CanElect log then
        some (s.setGroup shard { g with log := log, past := g.log :: g.past })
      else none
  | .ask node pd now =>
      if pd ∈ c.pdNodes ∧ s.fences node = none then
        some (s.setFence node (some ⟨s.active c pd, now, s.hosted node⟩))
      else none
  | .fence node =>
      match s.fences node with
      | some ⟨active, now, shard :: todo⟩ =>
          some ((s.setFence node (some ⟨active, now, todo⟩)).fenceShard c node active now shard)
      | some ⟨_, _, []⟩ => some (s.setFence node none)
      | none => none

end LiteDB.PlacementDriver
