import LiteDB.FlushInterleavings
import LiteDB.LsmLocks
import LiteDB.StorageEngines

namespace LiteDB.LsmMap

open FlushInterleavings (lastValue samplePut view_foldl_apply)
open LsmEngine LsmEngine.Engine LsmEngineSpec Runs SortedMaps StorageEngines
open VersionKeys (Text)
open SortedMap

def contents (s : Engine) : SortedMap Text Text :=
  (s.allEntries.insertAll s.memtable.data.entries).filter fun v => v ≠ tombstone

section Contents

variable (s : Engine)

theorem get?_contents (key : Text) : (contents s).get? key = s.get key := by
  rw [contents, get?_filter, get?_insertAll, get?_allEntries, get_eq, view]
  cases (s.memtable.data.get? key).or ((newest s.level0 key).or (newest s.level1 key)) with
  | none => rfl
  | some value => by_cases hvalue : value = tombstone <;> simp [live, hvalue]

/-- The merge by priorities and the search from the newest source show the same map. -/
theorem scan_eq_contents (lo hi : Text) : s.scan lo hi = (contents s).scan lo hi := by
  refine eq_of_mem_iff (sorted_scan s lo hi) ((contents s).sorted.filter _) ?_
  intro key value
  rw [mem_scan, SortedMap.mem_scan, ← SortedMap.get?_eq_some_iff, get?_contents]
  tauto

theorem contents_congr {s t : Engine}
    (h : ∀ key, (view s key).bind live = (view t key).bind live) : contents s = contents t :=
  ext_get? fun key => by rw [get?_contents, get?_contents, get_eq, get_eq, h]

def reserved (value : Text) : Bool := value = tombstone

theorem live_stored (op : WriteOp) : live op.stored = (effect reserved op).2 := by
  cases op with
  | put key value => by_cases hvalue : value = tombstone <;> simp [live, WriteOp.stored, effect,
      reserved, hvalue]
  | delete key => simp [live, WriteOp.stored, effect]

theorem contents_apply (op : WriteOp) :
    contents { s with memtable := op.apply s.memtable } =
      (contents s).edit [effect reserved op] := by
  refine ext_get? fun key => ?_
  have hkey : (effect reserved op).1 = op.key := by cases op <;> rfl
  rw [get?_contents, get_eq, view_memtable, get?_edit, edited_singleton, get?_contents, hkey]
  split
  · exact live_stored op
  · exact (get_eq s key).symm

theorem contents_foldl_apply (ops : List WriteOp) :
    contents { s with memtable := ops.foldl WriteOp.apply s.memtable } =
      (contents s).edit (ops.map (effect reserved)) := by
  induction ops generalizing s with
  | nil => rfl
  | cons op ops ih =>
    have hrest := ih { s with memtable := op.apply s.memtable }
    rw [contents_apply, ← edit_append] at hrest
    exact hrest

theorem contents_write (op : WriteOp) :
    contents (s.write op) = (contents s).edit [effect reserved op] :=
  contents_foldl_apply s [op]

theorem contents_writeBatch (ops : List WriteOp) :
    contents (s.writeBatch ops) = (contents s).edit (ops.map (effect reserved)) :=
  contents_foldl_apply s ops

theorem contents_force : contents s.force = contents s := by
  obtain ⟨limit, hforce⟩ := force_eq s
  rw [hforce]
  rfl

theorem contents_flushMemtable : contents s.flushMemtable = contents s := by
  unfold flushMemtable
  cases hsnapshot : s.snapshot with
  | none => rfl
  | some items =>
    refine contents_congr fun key => ?_
    rw [view_install (snapshot_eq_some hsnapshot)]
    rfl

/-- A compaction drops tombstones, which hide nothing below Level 1. -/
theorem contents_compact : contents s.compact = contents s := by
  unfold Engine.compact
  split
  · rfl
  · refine contents_congr fun key => ?_
    simp only [view, newest_nil, Option.none_or, newest_compacted, get?_merged]
    cases s.memtable.data.get? key with
    | some value => rfl
    | none =>
      rw [Option.none_or, Option.none_or]
      cases (newest s.level0 key).or (newest s.level1 key) with
      | none => rfl
      | some value =>
        by_cases hvalue : value = tombstone <;> simp [live, hvalue, Option.filter_some]

end Contents

/-- The flushes of a table that cannot be written take a number only. -/
inductive Maintenance where
  | force
  | flush
  | failedFlush
  | compact
deriving DecidableEq

def maintain (s : Engine) : Maintenance → Engine
  | .force => s.force
  | .flush => s.flushMemtable
  | .failedFlush => { s with sstSequence := s.sstSequence + 1 }
  | .compact => s.compact

theorem contents_maintain (s : Engine) (m : Maintenance) :
    contents (maintain s m) = contents s := by
  cases m with
  | force => exact contents_force s
  | flush => exact contents_flushMemtable s
  | failedFlush => rfl
  | compact => exact contents_compact s

/-- The LSM engine under the transactional layer. -/
def lsmEngine : StorageEngine where
  State := Engine
  scan := Engine.scan
  writeBatch := Engine.writeBatch
  Maintenance := Maintenance
  maintain := maintain
  reserved := reserved
  contents := contents
  scan_eq := scan_eq_contents
  contents_writeBatch := contents_writeBatch
  contents_maintain := contents_maintain

/-- The writes of a call. -/
def written : LsmLocks.Call → List WriteOp
  | .set key value => [.put key value]
  | .delete key => [.delete key]
  | .writeBatch ops => ops
  | .flush | .close => []

/-- The engine in its thread and the writes that it has taken. -/
structure State where
  locks : LsmLocks.State
  history : List WriteOp

def init : State := ⟨LsmLocks.init, []⟩

def step (s : State) (c : LsmLocks.Call) : Option State :=
  (LsmLocks.step s.locks ⟨c, []⟩).map fun locks => ⟨locks, s.history ++ written c⟩

/-- The values are not the tombstone, and the engine stays open. -/
def Unreserved (_ : State) (c : LsmLocks.Call) : Prop :=
  (∀ op ∈ written c, op ≠ .put op.key tombstone) ∧ c ≠ .close

instance (s : State) (c : LsmLocks.Call) : Decidable (Unreserved s c) :=
  inferInstanceAs (Decidable (_ ∧ _))

/-- Besides, no flush fills Level 0. -/
def Roomy (s : State) (c : LsmLocks.Call) : Prop :=
  Unreserved s c ∧ LsmLocks.Roomy s.locks ⟨c, []⟩

instance (s : State) (c : LsmLocks.Call) : Decidable (Roomy s c) :=
  inferInstanceAs (Decidable (_ ∧ _))

theorem get_prepared {e : Engine} {history : List WriteOp}
    (h : ∀ key, e.get key = lastValue history key) {c : LsmLocks.Call}
    (hc : ∀ op ∈ written c, op ≠ .put op.key tombstone) (key : Text) :
    (c.prepared e).get key = lastValue (history ++ written c) key := by
  simp only [get_eq] at h ⊢
  cases c with
  | set key' value => exact view_foldl_apply h hc key
  | delete key' => exact view_foldl_apply h hc key
  | writeBatch ops => exact view_foldl_apply h hc key
  | flush | close =>
    rw [written, List.append_nil, ← h key, ← get_eq, ← get_eq, ← get?_contents, ← get?_contents]
    exact congrArg (get? · key) (contents_force e)

/-- The engine is free and shows the last values. -/
structure Shows (s : State) : Prop where
  free : LsmLocks.Free s.locks
  opened : s.locks.closed = false
  get : ∀ key, s.locks.engine.get key = lastValue s.history key

theorem Shows.step {s t : State} {c : LsmLocks.Call} (h : Shows s) (hc : Roomy s c)
    (hstep : step s c = some t) : Shows t := by
  obtain ⟨locks, hlocks, rfl⟩ := Option.map_eq_some_iff.mp hstep
  obtain ⟨locks', hstep', hfree, hopen, hengine⟩ :=
    LsmLocks.exists_step_of_free h.free h.opened hc.2 hc.1.2
  cases hlocks.symm.trans hstep'
  refine ⟨hfree, hopen, fun key => ?_⟩
  rw [hengine, ← get?_contents, contents_flushMemtable, get?_contents]
  exact get_prepared h.get hc.1.1 key

/-- The tables of three flushes: one behind a call of `flush`, and two behind the writes that
come after it. -/
def threeFlushes : List LsmLocks.Call :=
  [.set "a".toList "1".toList, .writeBatch [samplePut "b" "2", samplePut "c" "3"], .flush,
    .delete "a".toList, .set "b".toList "4".toList]

end LiteDB.LsmMap
