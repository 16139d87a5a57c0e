import LiteDB.StorageEngines

namespace LiteDB.Mvcc

open LsmEngine (WriteOp)
open SortedMaps StorageEngines VersionKeys

/-- The transactional layer over an engine (`mvcc.py`). -/
structure MvccEngine (E : Backend) where
  engine : E.State
  oracle : Int
  lastCommitTs : Int

variable {E : Backend}

/-- What a stored or buffered value shows to a reader. -/
def visible (value : Text) : Option Text := if value = tombstone then none else some value

def userKeyFromVersionKey (vkey : Text) : Text := vkey.take (vkey.length - 17)

namespace MvccEngine

section Reads

variable (m : MvccEngine E)

/-- The first item of the scan is the newest version up to `readTs`. -/
def read (userKey : Text) (readTs : Int) : Option Text :=
  (E.scan m.engine (versionKey userKey readTs) (userKey ++ sep :: hi16)).head?.bind fun e =>
    visible e.2

/-- The loop of `_scan`. -/
structure Scanning where
  out : List (Text × Text)
  cur : Option Text
  resolved : Bool

def Scanning.next (readTs : Int) (st : Scanning) (e : Text × Text) : Option Scanning :=
  (tsFromVersionKey e.1).map fun ts =>
    let uk := userKeyFromVersionKey e.1
    let resolved := st.resolved && st.cur == some uk
    if resolved ∨ readTs < ts then ⟨st.out, some uk, resolved⟩
    else ⟨st.out ++ ((visible e.2).map (Prod.mk uk)).toList, some uk, true⟩

/-- `none` stands for an exception. -/
def scan (loUser hiUser : Text) (readTs : Int) : Option (List (Text × Text)) :=
  ((E.scan m.engine loUser (hiUser ++ [hiChar])).foldlM (Scanning.next readTs)
    ⟨[], none, false⟩).map Scanning.out

def newestCommittedTs (userKey : Text) : Option Int :=
  match (E.scan m.engine (userKey ++ [sep]) (userKey ++ sep :: hi16)).head? with
  | some e => tsFromVersionKey e.1
  | none => some 0

end Reads

def recoverMaxTs (engine : E.State) : Option Int :=
  (E.scan engine [] [hiChar]).foldlM
    (fun mx e => (tsFromVersionKey e.1).map fun ts => if mx < ts then ts else mx) 0

def init (engine : E.State) : Option (MvccEngine E) :=
  (recoverMaxTs engine).map fun maxTs => ⟨engine, maxTs, maxTs⟩

end MvccEngine

/-- The operations that `_commit` hands to the engine. -/
def commitOps (writes : Dict Text Text) (commitTs : Int) : List WriteOp :=
  writes.entries.map fun e => .put (versionKey e.1 commitTs) e.2

/-- Where a transaction is. From `checking` to `written` it holds the commit lock, and
`rest` has the keys that are still to be checked. -/
inductive Phase where
  | active
  | waiting
  | checking (rest : List Text)
  | stamped (commitTs : Int)
  | written (commitTs : Int)
  | committed (commitTs : Int)
  | conflicted
  | raised
  | rolledBack
deriving DecidableEq

def Phase.ended : Phase → Bool
  | .committed _ | .conflicted | .raised | .rolledBack => true
  | _ => false

/-- `buffered` has the calls of `put` and `delete` in their order, and `base` says how
many transactions had committed when this one began. -/
structure Transaction where
  readTs : Int
  writes : Dict Text Text
  phase : Phase
  buffered : List (Text × Option Text)
  base : Nat

namespace Transaction

def put (t : Transaction) (key value : Text) : Transaction :=
  { t with writes := t.writes.set key value, buffered := t.buffered ++ [(key, some value)] }

def delete (t : Transaction) (key : Text) : Transaction :=
  { t with writes := t.writes.set key tombstone, buffered := t.buffered ++ [(key, none)] }

def get (m : MvccEngine E) (t : Transaction) (key : Text) : Option Text :=
  match t.writes.get? key with
  | some value => visible value
  | none => m.read key t.readTs

/-- One turn of the loop of `scan` over the own writes. -/
def overlay (loKey hiKey : Text) (merged : SortedMap Text Text) (e : Text × Text) :
    SortedMap Text Text :=
  if e.1 < loKey ∨ hiKey < e.1 then merged
  else if e.2 = tombstone then merged.erase e.1
  else merged.insert e.1 e.2

/-- The dictionary is sorted at the end. -/
def scan (m : MvccEngine E) (t : Transaction) (loKey hiKey : Text) :
    Option (List (Text × Text)) :=
  (m.scan loKey hiKey t.readTs).map fun out =>
    (t.writes.entries.foldl (overlay loKey hiKey) (SortedMap.empty.insertAll out)).entries

end Transaction

/-- A transaction that has been written, with what it had buffered and seen. -/
structure Record where
  txn : Nat
  base : Nat
  commitTs : Int
  writes : Dict Text Text
  buffered : List (Text × Option Text)

/-- `log` has the written transactions in their order, of which the first `published`
ones have committed. -/
structure State (E : Backend) where
  mvcc : MvccEngine E
  commitLock : Option Nat
  txns : List Transaction
  log : List Record
  published : Nat

/-- The calls of transactions. A commit takes several steps under its lock, and the calls of
others may come between them. -/
inductive Event (E : Backend) where
  | begin
  | put (i : Nat) (key value : Text)
  | delete (i : Nat) (key : Text)
  | rollback (i : Nat)
  | commit (i : Nat)
  | acquire (i : Nat)
  | check (i : Nat)
  | stamp (i : Nat)
  | write (i : Nat)
  | publish (i : Nat)
  | maintain (m : E.Maintenance)

/-- The last call of `put` or `delete` for a key; a deletion has no value. -/
def lastCall (calls : List (Text × Option Text)) (key : Text) : Option (Option Text) :=
  lookup calls.reverse key

namespace State

def setTxn (s : State E) (i : Nat) (t : Transaction) : State E :=
  { s with txns := s.txns.set i t }

def setPhase (s : State E) (i : Nat) (t : Transaction) (phase : Phase) : State E :=
  s.setTxn i { t with phase := phase }

end State

/-- The end of a commit with an exception. -/
def abort (s : State E) (i : Nat) (t : Transaction) (phase : Phase) : State E :=
  { s.setPhase i t phase with commitLock := none }

def check (s : State E) (i : Nat) (t : Transaction) (key : Text) (rest : List Text) : State E :=
  match s.mvcc.newestCommittedTs key with
  | none => abort s i t .raised
  | some newest =>
      if t.readTs < newest then abort s i t .conflicted else s.setPhase i t (.checking rest)

def rollback (s : State E) (i : Nat) (t : Transaction) : Option (State E) :=
  if t.phase = .active then some (s.setTxn i { t with writes := Dict.empty, phase := .rolledBack })
  else if t.phase.ended then some (s.setTxn i { t with writes := Dict.empty })
  else none

def stepTxn (s : State E) (i : Nat) (t : Transaction) : Event E → Option (State E)
  | .put _ key value => if t.phase = .active then some (s.setTxn i (t.put key value)) else none
  | .delete _ key => if t.phase = .active then some (s.setTxn i (t.delete key)) else none
  | .rollback _ => rollback s i t
  | .commit _ => if t.phase = .active then some (s.setPhase i t .waiting) else none
  | .acquire _ =>
      if t.phase = .waiting ∧ s.commitLock = none then
        some { s.setPhase i t (.checking (t.writes.entries.map Prod.fst)) with
          commitLock := some i }
      else none
  | .check _ =>
      match t.phase with
      | .checking (key :: rest) => some (check s i t key rest)
      | _ => none
  | .stamp _ =>
      if t.phase = .checking [] then
        some { s.setPhase i t (.stamped (s.mvcc.oracle + 1)) with
          mvcc := { s.mvcc with oracle := s.mvcc.oracle + 1 } }
      else none
  | .write _ =>
      match t.phase with
      | .stamped commitTs =>
          some { s.setPhase i t (.written commitTs) with
            mvcc := { s.mvcc with
              engine := E.writeBatch s.mvcc.engine (commitOps t.writes commitTs) }
            log := s.log ++ [⟨i, t.base, commitTs, t.writes, t.buffered⟩] }
      | _ => none
  | .publish _ =>
      match t.phase with
      | .written commitTs =>
          some { s.setPhase i t (.committed commitTs) with
            mvcc := { s.mvcc with lastCommitTs := commitTs }
            commitLock := none
            published := s.log.length }
      | _ => none
  | _ => none

def Event.txn : Event E → Option Nat
  | .put i _ _ | .delete i _ | .rollback i | .commit i | .acquire i | .check i | .stamp i
  | .write i | .publish i => some i
  | _ => none

def step (s : State E) (a : Event E) : Option (State E) :=
  match a with
  | .begin =>
      some { s with
        txns := s.txns ++ [⟨s.mvcc.lastCommitTs, Dict.empty, .active, [], s.published⟩] }
  | .maintain m => some { s with mvcc := { s.mvcc with engine := E.maintain s.mvcc.engine m } }
  | a => do
      let i ← a.txn
      let t ← s.txns[i]?
      stepTxn s i t a

end LiteDB.Mvcc
