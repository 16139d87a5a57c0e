import LiteDB.ShardReplica
import Mathlib.Logic.Function.Basic

/-!
The transactions of a cluster (`node.py`, `txn_log.py`): two-phase commit with its
recovery sweep, writes of a single shard and snapshots. The Raft group of a shard
is taken as correct, so that a shard is a store that executes calls in some order.
Whether the conflict check of a call passes is left open: a call may be executed
at any later time, or never. A call may also be sent again while its answer is
outstanding, as `RPCClient.call` does after a failed attempt.
-/

namespace LiteDB.ClusterTransactions

open SortedMaps ShardReplica ShardStore VersionKeys

/-- The states of a record of the transaction log. -/
inductive Status where
  | preparing
  | committing
  | aborted
deriving DecidableEq

/-- A record of the transaction log of its node. A participant is named by its shard
alone, since its leader is looked up again for every call. -/
structure TxnRecord (Shard : Type) where
  node : Text
  txnId : Text
  status : Status
  participants : List Shard
  commitTs : Int
deriving DecidableEq

/-- The command that `_drive_txn` sends to the participants. -/
def TxnRecord.decision {Shard : Type} (record : TxnRecord Shard) : Command :=
  if record.status = .committing then .commit record.txnId else .abort record.txnId

/-- A run of `_coordinate_2pc` before its decision; `called` when the prepare of the
next participant has been sent. -/
structure Coordinator (Shard : Type) where
  record : TxnRecord Shard
  rest : List (Shard × Dict Text (Option Text))
  called : Bool

/-- A thread in `_drive_txn`: the shards that are left, whether the next one has been called,
and whether all answers were `ok`. -/
structure Drive (Shard : Type) where
  record : TxnRecord Shard
  rest : List Shard
  called : Bool
  allOk : Bool
deriving DecidableEq

/-- `wall` is the last reading of a wall clock. `calls` have been sent and not been
executed, `executed` ones have. `outcomes` says where the intent of a transaction
was removed and whether its writes were committed. The transaction logs of all
nodes are one map, since a transaction id names its node. `sweeps` are the records
that recovery has read and not yet handled. -/
structure Cluster (Shard : Type) where
  wall : Int
  clocks : Text → HLC
  snapshots : List Int
  stores : Shard → Store
  calls : List (Shard × Command)
  executed : List (Shard × Command)
  outcomes : List (Shard × Text × Bool)
  txnlog : Text → Option (TxnRecord Shard)
  coordinators : Text → Option (Coordinator Shard)
  drives : List (Drive Shard)
  sweeps : List (TxnRecord Shard)
  ids : List Text

/-- The steps of coordinators, of the recovery sweep and of shards, and what happens to calls. -/
inductive Event (Shard : Type) where
  | begin (node : Text) (wall : Int)
  | write (node : Text) (shard : Shard) (writes : Dict Text (Option Text))
      (readTs : Option Int) (wall : Int)
  | start (node : Text) (groups : Dict Shard (Dict Text (Option Text))) (wall wall' : Int)
  | prepare (txnId : Text)
  | vote (txnId : Text) (ok : Bool)
  | decide (txnId : Text)
  | send (i : Nat)
  | ack (i : Nat) (ok : Bool)
  | finish (i : Nat)
  | sweep (txnId : Text)
  | recover (i : Nat) (expired : Bool)
  | execute (i : Nat)
  | drop (i : Nat)
  | crash (node : Text)

def txnName (node : Text) (ts : Int) : Text :=
  "txn-".toList ++ node ++ '-' :: (toString ts).toList

variable {Shard : Type}

def init : Cluster Shard where
  wall := 0
  clocks := fun _ => ⟨0⟩
  snapshots := []
  stores := fun _ => create
  calls := []
  executed := []
  outcomes := []
  txnlog := fun _ => none
  coordinators := fun _ => none
  drives := []
  sweeps := []
  ids := []

def removes (store : Store) : Command → Option (Text × Bool)
  | .commit txnId => if store.intents.get? txnId = none then none else some (txnId, true)
  | .abort txnId => if store.intents.get? txnId = none then none else some (txnId, false)
  | _ => none

namespace Cluster

def tick (s : Cluster Shard) (node : Text) (clock : HLC) (wall : Int) : Cluster Shard :=
  { s with wall := wall, clocks := Function.update s.clocks node clock }

def call (s : Cluster Shard) (shard : Shard) (command : Command) : Cluster Shard :=
  { s with calls := s.calls ++ [(shard, command)] }

def txnWrite (s : Cluster Shard) (record : TxnRecord Shard) : Cluster Shard :=
  { s with txnlog := Function.update s.txnlog record.txnId (some record) }

def driveTxn (s : Cluster Shard) (record : TxnRecord Shard) : Cluster Shard :=
  { s with drives := s.drives ++ [⟨record, record.participants, false, true⟩] }

def resolve (s : Cluster Shard) (record : TxnRecord Shard) (status : Status) : Cluster Shard :=
  (s.txnWrite { record with status := status }).driveTxn { record with status := status }

def setCoordinator (s : Cluster Shard) (txnId : Text) (c : Option (Coordinator Shard)) :
    Cluster Shard :=
  { s with coordinators := Function.update s.coordinators txnId c }

def setDrive (s : Cluster Shard) (i : Nat) (d : Drive Shard) : Cluster Shard :=
  { s with drives := s.drives.set i d }

end Cluster

variable [DecidableEq Shard]

/-- A shard applies the command of a call. -/
def Cluster.execute (s : Cluster Shard) (shard : Shard) (command : Command) : Cluster Shard :=
  { s with
    stores := Function.update s.stores shard ((s.stores shard).apply command)
    executed := s.executed ++ [(shard, command)]
    outcomes := s.outcomes ++ (removes (s.stores shard) command).toList.map (Prod.mk shard) }

def step (s : Cluster Shard) : Event Shard → Option (Cluster Shard)
  | .begin node wall =>
      some { s.tick node ((s.clocks node).now wall).1 wall with
              snapshots := ((s.clocks node).now wall).2 :: s.snapshots }
  | .write node shard writes readTs wall =>
      let job := Job.write writes readTs
      let stamped := job.stamp (s.clocks node) (job.snapshot (s.stores shard)) wall
      some ((s.tick node stamped.1 wall).call shard (job.command stamped.2))
  | .start node groups wall wall' =>
      let named := (s.clocks node).now wall
      let stamped := named.1.now wall'
      let record : TxnRecord Shard :=
        ⟨node, txnName node named.2, .preparing, groups.entries.map Prod.fst, stamped.2⟩
      some
        { ((s.tick node stamped.1 wall').txnWrite record).setCoordinator record.txnId
            (some ⟨record, groups.entries, false⟩) with
          ids := record.txnId :: s.ids }
  | .prepare txnId =>
      match s.coordinators txnId with
      | some ⟨record, (shard, writes) :: rest, _⟩ =>
          some ((s.call shard (.prepare txnId record.commitTs writes.entries)).setCoordinator txnId
            (some ⟨record, (shard, writes) :: rest, true⟩))
      | _ => none
  | .vote txnId ok =>
      match s.coordinators txnId with
      | some ⟨record, (shard, writes) :: rest, true⟩ =>
          if ok = false then some ((s.resolve record .aborted).setCoordinator txnId none)
          else if (shard, .prepare txnId record.commitTs writes.entries) ∈ s.executed then
            some (s.setCoordinator txnId (some ⟨record, rest, false⟩))
          else none
      | _ => none
  | .decide txnId =>
      match s.coordinators txnId with
      | some ⟨record, [], false⟩ =>
          some ((s.resolve record .committing).setCoordinator txnId none)
      | _ => none
  | .send i =>
      match s.drives[i]? with
      | some ⟨record, shard :: rest, _, allOk⟩ =>
          some ((s.call shard record.decision).setDrive i ⟨record, shard :: rest, true, allOk⟩)
      | _ => none
  | .ack i ok =>
      match s.drives[i]? with
      | some ⟨record, shard :: rest, true, allOk⟩ =>
          if ok = false ∨ (shard, record.decision) ∈ s.executed then
            some (s.setDrive i ⟨record, rest, false, allOk && ok⟩)
          else none
      | _ => none
  | .finish i =>
      match s.drives[i]? with
      | some ⟨record, [], _, allOk⟩ =>
          some
            { s with
              drives := s.drives.eraseIdx i
              txnlog := if allOk then Function.update s.txnlog record.txnId none else s.txnlog }
      | _ => none
  | .sweep txnId =>
      (s.txnlog txnId).map fun record => { s with sweeps := s.sweeps ++ [record] }
  | .recover i expired =>
      (s.sweeps[i]?).map fun record =>
        let rest := { s with sweeps := s.sweeps.eraseIdx i }
        if record.status = .preparing then
          if expired then rest.resolve record .aborted else rest
        else rest.driveTxn record
  | .execute i =>
      (s.calls[i]?).map fun call =>
        { s.execute call.1 call.2 with calls := s.calls.eraseIdx i }
  | .drop i => (s.calls[i]?).map fun _ => { s with calls := s.calls.eraseIdx i }
  | .crash node =>
      some
        { s with
          clocks := Function.update s.clocks node ⟨0⟩
          coordinators := fun txnId =>
            (s.coordinators txnId).filter fun c => c.record.node ≠ node
          drives := s.drives.filter fun d => d.record.node ≠ node
          sweeps := s.sweeps.filter fun record => record.node ≠ node }

end LiteDB.ClusterTransactions
