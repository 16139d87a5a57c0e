import LiteDB.Runs
import LiteDB.ShardLedger

/-!
The leader of one shard (`shard_replica.py`) with its hybrid clock (`hlc.py`). One
request at a time holds the replica's lock, but its conflict check runs next to
the thread that applies committed entries, and a request may give up waiting
while its entry still commits. The Raft group is taken as correct: a new leader
has every applied entry in its log and some of the others that were ever proposed,
but its store may be behind them.
-/

namespace LiteDB.ShardReplica

open SortedMaps ShardLedger ShardStore VersionKeys

/-- The hybrid clock of a node (`hlc.py`). -/
structure HLC where
  last : Int

namespace HLC

def now (h : HLC) (wall : Int) : HLC × Int :=
  let last := if h.last < wall then wall else h.last + 1
  (⟨last⟩, last)

def update (h : HLC) (remoteTs wall : Int) : HLC × Int :=
  let last := max (max (h.last + 1) (remoteTs + 1)) wall
  (⟨last⟩, last)

variable {h : HLC} {wall : Int}

theorem now_of_lt (hlast : h.last < wall) : h.now wall = (⟨wall⟩, wall) := by
  simp [now, hlast]

theorem update_of_lt {remoteTs : Int} (hlast : h.last < wall) (hremote : remoteTs < wall) :
    h.update remoteTs wall = (⟨wall⟩, wall) := by
  have hmax : max (max (h.last + 1) (remoteTs + 1)) wall = wall := by omega
  simp only [update, hmax]

/-- `now`, or `update` with a timestamp to merge. -/
def tick (h : HLC) : Int × Option Int → HLC × Int
  | (wall, none) => h.now wall
  | (wall, some remoteTs) => h.update remoteTs wall

theorem tick_eq (c : Int × Option Int) :
    ∃ ts, h.tick c = (⟨ts⟩, ts) ∧ h.last < ts ∧ c.1 ≤ ts ∧ ∀ r ∈ c.2, r < ts := by
  obtain ⟨_, _ | _⟩ := c <;> exact ⟨_, rfl, by grind⟩

def stamps (h : HLC) : List (Int × Option Int) → List Int
  | [] => []
  | c :: calls => (h.tick c).2 :: stamps (h.tick c).1 calls

/-- Whatever the wall clock reads, a timestamp exceeds all before it and the one merged. -/
theorem stamps_increase (calls : List (Int × Option Int)) :
    (h.last :: h.stamps calls).Pairwise (· < ·) ∧
      List.Forall₂ (fun c ts => c.1 ≤ ts ∧ ∀ r ∈ c.2, r < ts) calls (h.stamps calls) := by
  induction calls generalizing h with
  | nil => simp [stamps]
  | cons c calls ih =>
    obtain ⟨ts, heq, hlast, hcall⟩ := h.tick_eq c
    obtain ⟨hlater, hcalls⟩ := ih (h := ⟨ts⟩)
    rw [stamps, heq]
    exact ⟨List.isChain_iff_pairwise.mp (.cons_cons hlast hlater.isChain), .cons hcall hcalls⟩

end HLC

/-- The arguments of `commit_write` and of `prepare`. -/
inductive Job where
  | write (writes : Dict Text (Option Text)) (readTs : Option Int)
  | prepare (txnId : Text) (writes : Dict Text (Option Text)) (readTs commitTs : Int)

namespace Job

def writes : Job → Writes
  | .write writes _ => writes.entries
  | .prepare _ writes _ _ => writes.entries

def keys (job : Job) : List Text := job.writes.map Prod.fst

def txnId : Job → Text
  | .write _ _ => []
  | .prepare txnId _ _ _ => txnId

def snapshot (s : Store) : Job → Int
  | .write _ none => s.snapshotTs
  | .write _ (some readTs) => readTs
  | .prepare _ _ readTs _ => readTs

/-- The commit timestamp; the coordinator has chosen that of a prepare. -/
def stamp (clock : HLC) (readTs wall : Int) : Job → HLC × Int
  | .write _ none => clock.now wall
  | .write _ (some _) => clock.update readTs wall
  | .prepare _ _ _ commitTs => (clock, commitTs)

def command (commitTs : Int) : Job → Command
  | .write writes _ => .write commitTs writes.entries
  | .prepare txnId writes _ _ => .prepare txnId commitTs writes.entries

end Job

/-- How far the request that holds the lock has come: `newest_committed_ts` of the
next key, `intent_locking` of a key, `propose`, `wait_commit`. -/
inductive Request where
  | check (job : Job) (readTs : Int) (rest : List Text)
  | locks (job : Job) (readTs : Int) (key : Text) (rest : List Text)
  | propose (job : Job) (readTs commitTs : Int)
  | wait (index : Nat)

/-- The shard as its leader sees it, which has applied `applied` entries of its log; `pending`
is the rest of the next one. It is ready when it has applied the `inherited` ones. `decided`
counts the entries that some leader has begun to apply, and `past` keeps the logs of earlier
leaders. -/
structure Shard (Node : Type) where
  node : Node
  clocks : Node → HLC
  log : List Entry
  past : List (List Entry)
  inherited : Nat
  decided : Nat
  applied : Nat
  pending : Option Pending
  store : Store
  request : Option Request

/-- The steps of a request under the lock of the replica, of the thread that applies entries,
and of the Raft group, which is taken as correct. -/
inductive Event (Node : Type) where
  | acquire (job : Job)
  | checkNewest
  | checkLocks
  | stamp (wall : Int)
  | propose
  | release
  | resolve (txnId : Text) (commit : Bool)
  | control
  | begin
  | resume
  | raise (stored : Bool)
  | now (node : Node) (wall : Int)
  | update (node : Node) (remoteTs wall : Int)
  | elect (node : Node) (log : List Entry) (done : Nat) (left : Option Request)

variable {Node : Type}

def start (node : Node) : Shard Node where
  node := node
  clocks := fun _ => ⟨0⟩
  log := []
  past := []
  inherited := 0
  decided := 0
  applied := 0
  pending := none
  store := create
  request := none

namespace Shard

def started (s : Shard Node) : Nat := if s.pending = none then s.applied else s.applied + 1

def ledger (s : Shard Node) : Ledger := Ledger.replay (s.log.take s.applied)

def release (s : Shard Node) : Shard Node := { s with request := none }

/-- `propose` takes the Raft lock, which the thread that applies entries holds. -/
def append (s : Shard Node) (e : Entry) : Option (Shard Node) :=
  if s.pending = none then some { s with log := s.log ++ [e] } else none

/-- `is_ready`: the no-op of the leader's term is applied. -/
def Ready (s : Shard Node) : Prop := s.inherited ≤ s.applied

instance (s : Shard Node) : Decidable s.Ready := inferInstanceAs (Decidable (_ ≤ _))

/-- A section of `apply` has run; an entry without a rest has been applied. -/
def advance (s : Shard Node) (next : Store × Option Pending) : Shard Node :=
  { s with
    store := next.1
    pending := next.2
    decided := max s.decided (s.applied + 1)
    applied := if next.2 = none then s.applied + 1 else s.applied }

/-- A new leader may have entries that an earlier leader proposed and later ones
did not see. -/
def CanElect (s : Shard Node) (log : List Entry) : Prop :=
  s.log.take s.decided <+: log ∧ ∃ old ∈ s.log :: s.past, log <+: old

instance (s : Shard Node) (log : List Entry) : Decidable (s.CanElect log) :=
  inferInstanceAs (Decidable (_ ∧ _))

end Shard

def replay (log : List Entry) : Store := log.foldl (fun s e => s.apply e.command) create

variable [DecidableEq Node]

def setClock (s : Shard Node) (node : Node) (clock : HLC) : Shard Node :=
  { s with clocks := fun n => if n = node then clock else s.clocks n }

def step (s : Shard Node) : Event Node → Option (Shard Node)
  | .acquire job =>
      match s.request with
      | none =>
          if s.Ready then
            some { s with request := some (.check job (job.snapshot s.store) job.keys) }
          else none
      | some _ => none
  | .checkNewest =>
      match s.request with
      | some (.check job readTs (key :: rest)) =>
          match s.store.newestCommittedTs key with
          | none => some s.release
          | some ts =>
              if readTs < ts then some s.release
              else some { s with request := some (.locks job readTs key rest) }
      | _ => none
  | .checkLocks =>
      match s.request with
      | some (.locks job readTs key rest) =>
          match s.store.intentLocking key job.txnId with
          | none => some { s with request := some (.check job readTs rest) }
          | some _ => some s.release
      | _ => none
  | .stamp wall =>
      match s.request with
      | some (.check job readTs []) =>
          some
            { setClock s s.node (job.stamp (s.clocks s.node) readTs wall).1 with
              request := some (.propose job readTs
                (job.stamp (s.clocks s.node) readTs wall).2) }
      | _ => none
  | .propose =>
      match s.request with
      | some (.propose job readTs commitTs) =>
          (s.append ⟨job.command commitTs, readTs⟩).map fun s' =>
            { s' with request := some (.wait (s.log.length + 1)) }
      | _ => none
  | .release =>
      match s.request with
      | some (.wait _) => some s.release
      | _ => none
  | .resolve txnId commit => s.append ⟨if commit then .commit txnId else .abort txnId, 0⟩
  | .control => s.append ⟨.control, 0⟩
  | .begin =>
      if s.pending = none then
        (s.log[s.applied]?).map fun e => s.advance (s.store.begin e.command)
      else none
  | .resume => s.pending.map fun p => s.advance (s.store.resume p)
  -- an engine call of `apply` raises, with or without an effect, and the entry is not tried again
  | .raise stored =>
      match s.pending with
      | none => (s.log[s.applied]?).map fun e =>
          s.advance (if stored then (s.store.begin e.command).1 else s.store, none)
      | some p => some (s.advance (if stored then (s.store.resume p).1 else s.store, none))
  | .now node wall => some (setClock s node ((s.clocks node).now wall).1)
  | .update node remoteTs wall =>
      some (setClock s node ((s.clocks node).update remoteTs wall).1)
  -- the new leader has applied `done` entries; its node may still be in the request `left`
  | .elect node log done left =>
      if s.CanElect log ∧ done ≤ log.length then
        some
          { node := node
            clocks := s.clocks
            log := log ++ [⟨.control, 0⟩]
            past := s.log :: s.past
            inherited := log.length + 1
            decided := max s.decided done
            applied := done
            pending := none
            store := replay (log.take done)
            request := left }
      else none

end LiteDB.ShardReplica
