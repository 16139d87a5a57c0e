import LiteDB.SortedMaps
import LiteDB.Wal
import Mathlib.Data.Nat.Digits.Defs

/-!
The LSM engine (`lsm_engine.py`, `memtable.py`): a table in memory with its log, and
two levels of sorted tables in files. The files of the tables are taken as correct
sorted maps.
-/

namespace LiteDB.LsmEngine

open Lexicographic SortedMaps
open VersionKeys (Text)
open Wal

def tombstone : Text := "__DELETED__".toList

def memtableSizeLimit : Nat := 1024 * 1024

def l0CompactionThreshold : Nat := 4

/-- The order of the keys is all that `scan` and `items_sorted` show of the
dictionary. -/
structure MemTable where
  data : SortedMap Text Text
  sizeBytes : Int
  sizeLimit : Int

namespace MemTable

def create : MemTable := ⟨SortedMap.empty, 0, memtableSizeLimit⟩

def entrySize (key value : Text) : Int := key.length + value.length

def set (m : MemTable) (key value : Text) : MemTable :=
  { m with
    data := m.data.insert key value
    sizeBytes :=
      (match m.data.get? key with
        | some old => m.sizeBytes - entrySize key old
        | none => m.sizeBytes) + entrySize key value }

def delete (m : MemTable) (key : Text) : MemTable := m.set key tombstone

def get (m : MemTable) (key : Text) : Option Text := m.data.get? key

def scan (m : MemTable) (startKey endKey : Text) : List (Text × Text) :=
  m.data.scan startKey endKey

def itemsSorted (m : MemTable) : SortedMap Text Text := m.data

def shouldFlush (m : MemTable) : Bool := m.sizeLimit ≤ m.sizeBytes

def entryCount (m : MemTable) : Nat := m.data.entries.length

def clear (m : MemTable) : MemTable := { m with data := SortedMap.empty, sizeBytes := 0 }

end MemTable

/-- A file of a level, taken as a correct sorted map. -/
structure SSTable where
  sequence : Nat
  items : SortedMap Text Text

def SSTable.get (t : SSTable) (key : Text) : Option Text := t.items.get? key

/-- The number in a file name, `06d`. It orders the names of the files of a level. -/
def SSTable.name (t : SSTable) : Text :=
  fixedDigits Nat.digitChar 10 (max 6 (Nat.toDigits 10 t.sequence).length) t.sequence

/-- An operation of a batch (`storage_engine.py`). -/
inductive WriteOp where
  | put (key value : Text)
  | delete (key : Text)
deriving DecidableEq

def WriteOp.key : WriteOp → Text
  | .put key _ => key
  | .delete key => key

def WriteOp.stored : WriteOp → Text
  | .put _ value => value
  | .delete _ => tombstone

def WriteOp.request : WriteOp → Request
  | .put key value => ⟨.set, key, some value⟩
  | .delete key => ⟨.delete, key, none⟩

def WriteOp.apply (m : MemTable) : WriteOp → MemTable
  | .put key value => m.set key value
  | .delete key => m.delete key

/-- `level0` and `level1` are in the order in which `_levels` has them. -/
structure Engine where
  memtable : MemTable
  wal : Log
  level0 : List SSTable
  level1 : List SSTable
  sstSequence : Nat

/-- What a crash leaves: the entries of the log and the files of the levels. -/
structure Disk where
  wal : List WalEntry
  level0 : List SSTable
  level1 : List SSTable

def applyWalEntry (m : MemTable) (e : WalEntry) : MemTable :=
  match e.operation with
  | .set => m.set e.key (e.value.getD [])
  | .delete => m.delete e.key
  | _ => m

/-- The loop of `_recover`, with the batch that is open. -/
structure Replay where
  memtable : MemTable
  inBatch : Bool
  batch : List WalEntry

def Replay.next (r : Replay) (e : WalEntry) : Replay :=
  match e.operation with
  | .begin => { r with inBatch := true, batch := [] }
  | .commit => ⟨r.batch.foldl applyWalEntry r.memtable, false, []⟩
  | _ =>
      if r.inBatch then { r with batch := r.batch ++ [e] }
      else { r with memtable := applyWalEntry r.memtable e }

def replay (entries : List WalEntry) : Replay :=
  entries.foldl Replay.next ⟨MemTable.create, false, []⟩

def sortedByName (tables : List SSTable) : List SSTable :=
  tables.insertionSort fun a b => a.name ≤ b.name

def nextSstSequence (tables : List SSTable) : Nat :=
  tables.foldl (fun n t => if n ≤ t.sequence then t.sequence + 1 else n) 0

/-- The constructor and `_recover`. -/
def recover (d : Disk) : Engine where
  memtable := (replay d.wal).memtable
  wal := Log.init d.wal
  level0 := sortedByName d.level0
  level1 := sortedByName d.level1
  sstSequence := nextSstSequence (sortedByName d.level0 ++ sortedByName d.level1)

namespace Engine

def create : Engine := recover ⟨[], [], []⟩

/-- The files when no flush or compaction is in progress. -/
def disk (s : Engine) : Disk := ⟨s.wal.entries, s.level0, s.level1⟩

/-- The section of `set` or `delete` under the lock. -/
def write (s : Engine) (op : WriteOp) : Engine :=
  { s with wal := s.wal.append op.request, memtable := op.apply s.memtable }

def set (s : Engine) (key value : Text) : Engine := s.write (.put key value)

def delete (s : Engine) (key : Text) : Engine := s.write (.delete key)

def batchRequests (ops : List WriteOp) : List Request :=
  ⟨.begin, [], none⟩ :: ops.map WriteOp.request ++ [⟨.commit, [], none⟩]

def writeBatch (s : Engine) (ops : List WriteOp) : Engine :=
  { s with
    wal := s.wal.appendAll (batchRequests ops)
    memtable := ops.foldl WriteOp.apply s.memtable }

/-- The first table that has the key, the last one of the list first. -/
def newest (tables : List SSTable) (key : Text) : Option Text :=
  tables.reverse.findSome? fun t => t.get key

def live (value : Text) : Option Text := if value = tombstone then none else some value

def get (s : Engine) (key : Text) : Option Text :=
  match s.memtable.get key with
  | some value => live value
  | none =>
      match newest s.level0 key with
      | some value => live value
      | none =>
          match newest s.level1 key with
          | some value => live value
          | none => none

/-- The entries of a list of tables in a range with their priorities. -/
def prioritized (startKey endKey : Text) : Nat → List SSTable → List (Text × Text × Nat)
  | _, [] => []
  | priority, t :: tables =>
      (t.items.scan startKey endKey).map (fun e => (e.1, e.2, priority)) ++
        prioritized startKey endKey (priority + 1) tables

/-- One turn of the loop that keeps the most recent value of each key. -/
def keepNewest (seen : SortedMap Text (Text × Nat)) (item : Text × Text × Nat) :
    SortedMap Text (Text × Nat) :=
  match seen.get? item.1 with
  | none => seen.insert item.1 item.2
  | some old => if item.2.2 < old.2 then seen.insert item.1 item.2 else seen

/-- The items of all sources in a range, the most recent source first. -/
def allItems (s : Engine) (startKey endKey : Text) : List (Text × Text × Nat) :=
  (s.memtable.scan startKey endKey).map (fun e => (e.1, e.2, 0)) ++
    prioritized startKey endKey 1 (s.level0.reverse ++ s.level1.reverse)

def scan (s : Engine) (startKey endKey : Text) : List (Text × Text) :=
  ((s.allItems startKey endKey).foldl keepNewest SortedMap.empty).entries.filterMap fun e =>
    (live e.2.1).map (Prod.mk e.1)

/-- `flush` lowers the limit first. -/
def force (s : Engine) : Engine :=
  if 0 < s.memtable.entryCount then { s with memtable := { s.memtable with sizeLimit := 0 } }
  else s

/-- The items that `_flush_memtable` takes under the lock. -/
def snapshot (s : Engine) : Option (SortedMap Text Text) :=
  if s.memtable.shouldFlush ∧ s.memtable.itemsSorted.entries ≠ [] then some s.memtable.itemsSorted
  else none

/-- `_new_sst_path` and the table that is written under it. -/
def newTable (s : Engine) (items : SortedMap Text Text) : Engine × SSTable :=
  ({ s with sstSequence := s.sstSequence + 1 }, ⟨s.sstSequence, items⟩)

/-- The last section of `_flush_memtable`. -/
def install (s : Engine) (t : SSTable) : Engine :=
  { s with
    level0 := s.level0 ++ [t]
    memtable := s.memtable.clear
    wal := s.wal.truncate }

/-- `_flush_memtable` without a compaction. -/
def flushMemtable (s : Engine) : Engine :=
  match s.snapshot with
  | none => s
  | some items => (s.newTable items).1.install (s.newTable items).2

/-- `all_entries`: the older tables first, so that the newest value stays. -/
def allEntries (s : Engine) : SortedMap Text Text :=
  (s.level1 ++ s.level0).foldl (fun m t => m.insertAll t.items.entries) SortedMap.empty

def merged (s : Engine) : SortedMap Text Text := s.allEntries.filter fun v => v ≠ tombstone

/-- The new table of the first level, unless nothing is left. -/
def compacted (s : Engine) : List SSTable :=
  if s.merged.entries = [] then [] else [⟨s.sstSequence, s.merged⟩]

/-- The files after the new table was written and `n` old files were removed, in the
order of `old_paths`. -/
def removed (s : Engine) (n : Nat) : Disk where
  wal := s.wal.entries
  level0 := s.level0.drop n
  level1 := s.level1.drop (n - s.level0.length) ++ s.compacted

/-- `_compact_l0_to_l1`. -/
def compact (s : Engine) : Engine :=
  if s.level0 = [] then s
  else
    { s with
      level0 := []
      level1 := s.compacted
      sstSequence := s.sstSequence + s.compacted.length }

end Engine

end LiteDB.LsmEngine
