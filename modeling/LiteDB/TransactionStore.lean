import LiteDB.NewestItems
import LiteDB.SortedMaps
import LiteDB.VersionKeys
import Mathlib.Data.List.Sort

namespace LiteDB.TransactionStore

open NewestItems SortedMaps
open VersionKeys (Text)
open scoped VersionKeys

def tombstone : Text := "__DELETED__".toList

/-- A version carries the id that its transaction got when it began. -/
structure Version where
  txid : Nat
  value : Text
  committed : Bool
deriving DecidableEq

/-- The versioned store in memory (`transactions.py`). -/
structure MVCCStore where
  versions : Dict Text (List Version)
  nextTxid : Nat
  committedTxids : List Nat

inductive Status where
  | active
  | committed
  | aborted
deriving DecidableEq

/-- `calls` has the last call of `set` or `delete` for each key, and `base` says how many
transactions had committed when this one began. -/
structure Transaction where
  txid : Nat
  snapshotTxid : Nat
  writeSet : List Text
  status : Status
  calls : Dict Text (Option Text)
  base : Nat

namespace MVCCStore

def init : MVCCStore := ⟨Dict.empty, 1, [0]⟩

def versionsAt (m : MVCCStore) (key : Text) : List Version := (m.versions.get? key).getD []

def visible (snapshotTxid ownTxid : Nat) (v : Version) : Bool :=
  v.committed && v.txid ≤ snapshotTxid || v.txid == ownTxid

def read (m : MVCCStore) (key : Text) (snapshotTxid ownTxid : Nat) : Option Text :=
  let best := (m.versionsAt key).foldl
    (fun best v => if visible snapshotTxid ownTxid v then adopt Version.txid best v else best) none
  best.bind fun v => if v.value = tombstone then none else some v.value

def write (m : MVCCStore) (key value : Text) (txid : Nat) : MVCCStore :=
  let vs : List Version :=
    (m.versionsAt key).filter (fun v => v.txid ≠ txid) ++ [⟨txid, value, false⟩]
  { m with versions := m.versions.set key (vs.insertionSort fun a b => a.txid ≤ b.txid) }

/-- Replaces the versions of the keys that have some. -/
def revise (f : List Version → List Version) (versions : Dict Text (List Version))
    (key : Text) : Dict Text (List Version) :=
  match versions.get? key with
  | none => versions
  | some vs => if (f vs).isEmpty then versions.erase key else versions.set key (f vs)

def abort (m : MVCCStore) (x : Transaction) : MVCCStore :=
  { m with
    versions := x.writeSet.foldl (revise (List.filter fun v => v.txid ≠ x.txid)) m.versions }

/-- Another transaction has committed a key of the write set behind the snapshot. -/
def conflicts (m : MVCCStore) (x : Transaction) : Bool :=
  x.writeSet.any fun key => (m.versionsAt key).any fun v =>
    v.txid ≠ x.txid && v.committed && x.snapshotTxid < v.txid

def mark (txid : Nat) (v : Version) : Version :=
  if v.txid = txid then { v with committed := true } else v

/-- `_commit` without a conflict. -/
def install (m : MVCCStore) (x : Transaction) : MVCCStore :=
  { m with
    versions := x.writeSet.foldl (revise (List.map (mark x.txid))) m.versions
    committedTxids := x.txid :: m.committedTxids }

end MVCCStore

/-- A transaction whose commit has returned `True`. -/
structure Commit where
  txid : Nat
  base : Nat
  calls : Dict Text (Option Text)

/-- `log` has the committed transactions in their order. -/
structure State where
  store : MVCCStore
  txns : List Transaction
  log : List Commit

/-- The calls of optimistic transactions. -/
inductive Event where
  | begin
  | set (i : Nat) (key value : Text)
  | delete (i : Nat) (key : Text)
  | commit (i : Nat)
  | abort (i : Nat)

def init : State := ⟨MVCCStore.init, [], []⟩

namespace Transaction

def get (m : MVCCStore) (x : Transaction) (key : Text) : Option Text :=
  m.read key x.snapshotTxid x.txid

/-- `set`, or `delete` when there is no value. -/
def call (x : Transaction) (key : Text) (value : Option Text) : Transaction :=
  { x with
    writeSet := if key ∈ x.writeSet then x.writeSet else key :: x.writeSet
    calls := x.calls.set key value }

end Transaction

def stepTxn (s : State) (i : Nat) (x : Transaction) : Event → State
  | .set _ key value =>
      { s with
        store := s.store.write key value x.txid
        txns := s.txns.set i (x.call key (some value)) }
  | .delete _ key =>
      { s with
        store := s.store.write key tombstone x.txid
        txns := s.txns.set i (x.call key none) }
  | .commit _ =>
      if s.store.conflicts x then
        { s with store := s.store.abort x, txns := s.txns.set i { x with status := .aborted } }
      else
        { store := s.store.install x
          txns := s.txns.set i { x with status := .committed }
          log := s.log ++ [⟨x.txid, x.base, x.calls⟩] }
  | .abort _ =>
      { s with store := s.store.abort x, txns := s.txns.set i { x with status := .aborted } }
  | .begin => s

def Event.txn : Event → Option Nat
  | .begin => none
  | .set i _ _ | .delete i _ | .commit i | .abort i => some i

/-- A call of a transaction that is over raises, or it does nothing. -/
def step (s : State) (a : Event) : Option State :=
  match a.txn with
  | none =>
      let snapshotTxid := s.store.committedTxids.foldl max 0
      some { s with
        store := { s.store with nextTxid := s.store.nextTxid + 1 }
        txns := s.txns ++
          [⟨s.store.nextTxid, snapshotTxid, [], .active, Dict.empty, s.log.length⟩] }
  | some i => do
      let x ← s.txns[i]?
      if x.status = .active then some (stepTxn s i x a) else none

section Versions

open MVCCStore

variable {m : MVCCStore} {key k : Text} {v : Version} {f : List Version → List Version}

theorem getD_revise (hnil : f [] = []) (versions : Dict Text (List Version)) (key k : Text) :
    ((revise f versions key).get? k).getD [] =
      if k = key then f ((versions.get? key).getD []) else (versions.get? k).getD [] := by
  unfold revise
  cases hget : versions.get? key with
  | none =>
    by_cases hk : k = key
    · simp [hk, hget, hnil]
    · simp [hk]
  | some vs =>
    simp only [Option.getD_some]
    split
    · rename_i hempty
      rw [Dict.get?_erase]
      by_cases hk : k = key
      · simp [hk, List.isEmpty_iff.mp hempty]
      · simp [hk]
    · rw [Dict.get?_set]
      by_cases hk : k = key
      · simp [hk]
      · simp [hk]

theorem getD_foldl_revise (hnil : f [] = []) (hidem : ∀ vs, f (f vs) = f vs) (keys : List Text)
    (versions : Dict Text (List Version)) :
    ((keys.foldl (revise f) versions).get? k).getD [] =
      if k ∈ keys then f ((versions.get? k).getD []) else (versions.get? k).getD [] := by
  induction keys generalizing versions with
  | nil => simp
  | cons key keys ih =>
    rw [List.foldl_cons, ih, getD_revise hnil]
    by_cases hk : k = key
    · subst hk
      simp [hidem]
    · simp [hk]

theorem mem_versionsAt_write {value : Text} {txid : Nat} :
    v ∈ (m.write key value txid).versionsAt k ↔
      if k = key then v ∈ m.versionsAt key ∧ v.txid ≠ txid ∨ v = ⟨txid, value, false⟩
      else v ∈ m.versionsAt k := by
  rw [versionsAt, write, Dict.get?_set]
  by_cases hk : k = key
  · simp [hk, (List.perm_insertionSort _ _).mem_iff]
  · simp [hk, versionsAt]

theorem versionsAt_abort (x : Transaction) : (m.abort x).versionsAt k =
    if k ∈ x.writeSet then (m.versionsAt k).filter (fun v => v.txid ≠ x.txid)
    else m.versionsAt k :=
  getD_foldl_revise rfl (fun vs => by simp) _ _

theorem versionsAt_install (x : Transaction) : (m.install x).versionsAt k =
    if k ∈ x.writeSet then (m.versionsAt k).map (mark x.txid) else m.versionsAt k := by
  refine getD_foldl_revise rfl (fun vs => ?_) _ _
  rw [List.map_map]
  refine List.map_congr_left fun v _ => ?_
  simp only [Function.comp_apply, mark]
  split <;> simp_all

theorem exists_best (m : MVCCStore) (key : Text) (snapshotTxid ownTxid : Nat) : ∃ best,
    Newest Version.txid ((m.versionsAt key).filter (visible snapshotTxid ownTxid)) best ∧
      m.read key snapshotTxid ownTxid =
        best.bind fun v => if v.value = tombstone then none else some v.value := by
  have hnewest : Newest Version.txid [] none := rfl
  refine ⟨_, newest_foldl _ hnewest, ?_⟩
  unfold MVCCStore.read
  rw [List.foldl_filter]

end Versions

end LiteDB.TransactionStore
