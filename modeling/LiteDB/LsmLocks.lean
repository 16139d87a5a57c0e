import LiteDB.Attempts
import LiteDB.LsmEngine
import LiteDB.Runs

/-!
The operations of the LSM engine in one thread with the locks that they take
(`lsm_engine.py`). The holder of `_lock` may take it again; the holder of
`_flush_lock` waits for itself.
-/

namespace LiteDB.LsmLocks

open Attempts LsmEngine LsmEngine.Engine Runs SortedMaps
open VersionKeys (Text)
open Wal

/-- `lock` counts how often the thread holds `_lock`, and `closed` says that the file
of the log is closed. A `blocked` thread waits for a lock that it holds itself.
`faults` says which of the next calls to files raise. -/
structure State where
  engine : Engine
  closed : Bool
  lock : Nat
  flushLock : Bool
  blocked : Bool
  faults : List Bool

def init : State := ⟨Engine.create, false, 0, false, false, []⟩

section Locks

variable {A : Type}

def acquireLock (s : State) : State := { s with lock := s.lock + 1 }

/-- A thread that waits does not come to the end of its `with` statements. -/
def releaseLock (s : State) : State := if s.blocked then s else { s with lock := s.lock - 1 }

def withLock (body : Attempt State A) : Attempt State A := do
  modify acquireLock
  tryFinally body (modify releaseLock)

def acquireFlushLock (s : State) : State := { s with flushLock := true }

def releaseFlushLock (s : State) : State :=
  if s.blocked then s else { s with flushLock := false }

def withFlushLock (body : Attempt State A) : Attempt State A := do
  if (← getThe State).flushLock then
    modify fun s => { s with blocked := true }
    throw ()
  else
    modify acquireFlushLock
    tryFinally body (modify releaseFlushLock)

end Locks

def engine : Attempt State Engine := do
  return (← getThe State).engine

def onEngine (f : Engine → Engine) : Attempt State Unit :=
  modify fun s => { s with engine := f s.engine }

def takeFault : Attempt State Bool := do
  let s ← getThe State
  modify fun s => { s with faults := s.faults.tail }
  return s.faults.headD false

/-- An entry that cannot be written takes a sequence number. -/
def append (r : Request) : Attempt State Unit := do
  let fault ← takeFault
  if fault ∨ (← getThe State).closed then
    onEngine fun e => { e with wal := { e.wal with sequence := e.wal.sequence + 1 } }
    throw ()
  else onEngine fun e => { e with wal := e.wal.append r }

/-- The file is closed before it is removed and opened again. -/
def truncate : Attempt State Unit := do
  modify fun s => { s with closed := true }
  if ← takeFault then throw ()
  else
    onEngine fun e => { e with wal := e.wal.truncate }
    modify fun s => { s with closed := false }

def closeWal : Attempt State Unit := do
  let fault ← takeFault
  if fault ∨ (← getThe State).closed then throw ()
  else modify fun s => { s with closed := true }

/-- `_new_sst_path` and `SSTableWriter.write`. -/
def writeTable (items : SortedMap Text Text) : Attempt State SSTable := do
  let t := ((← engine).newTable items).2
  onEngine fun e => (e.newTable items).1
  if ← takeFault then throw () else return t

def get (key : Text) : Attempt State (Option Text) := withLock do
  return (← engine).get key

/-- The files of the old tables are removed outside of what the engine has in memory. -/
def compactL0ToL1 : Attempt State Unit := withFlushLock do
  let e ← withLock engine
  if e.level0 = [] then return
  else if e.merged.entries = [] then
    withLock (onEngine fun e => { e with level0 := [], level1 := [] })
  else
    let t ← writeTable e.merged
    withLock (onEngine fun e => { e with level0 := [], level1 := [t] })

/-- The part of `_flush_memtable` behind its snapshot. -/
def flushItems (items : SortedMap Text Text) : Attempt State Unit := do
  let t ← writeTable items
  withLock do
    onEngine fun e => { e with level0 := e.level0 ++ [t], memtable := e.memtable.clear }
    truncate
  if l0CompactionThreshold ≤ (← engine).level0.length then compactL0ToL1

def flushMemtable : Attempt State Unit := withFlushLock do
  match ← withLock (return (← engine).snapshot) with
  | none => return
  | some items => flushItems items

/-- The end of every write, outside of the lock. -/
def flushIfNeeded : Attempt State Unit := do
  if (← engine).memtable.shouldFlush then flushMemtable

def write (op : WriteOp) : Attempt State Unit := do
  discard (get op.key)
  withLock do
    append op.request
    onEngine fun e => { e with memtable := op.apply e.memtable }
  flushIfNeeded

def set (key value : Text) : Attempt State Unit := write (.put key value)

def delete (key : Text) : Attempt State Unit := write (.delete key)

def appendAll : List Request → Attempt State Unit
  | [] => return
  | r :: rs => do
      append r
      appendAll rs

/-- The second loop of `write_batch`, which takes the lock again in `get`. -/
def applyAll : List WriteOp → Attempt State Unit
  | [] => return
  | op :: ops => do
      discard (get op.key)
      onEngine fun e => { e with memtable := op.apply e.memtable }
      applyAll ops

def writeBatch (ops : List WriteOp) : Attempt State Unit := do
  withLock do
    appendAll (batchRequests ops)
    applyAll ops
  flushIfNeeded

def flush : Attempt State Unit := do
  withLock (onEngine Engine.force)
  flushMemtable

def close : Attempt State Unit := do
  flush
  closeWal

/-- The calls of the one client. -/
inductive Call where
  | set (key value : Text)
  | delete (key : Text)
  | writeBatch (ops : List WriteOp)
  | flush
  | close
deriving DecidableEq

def Call.run : Call → Attempt State Unit
  | .set key value => LsmLocks.set key value
  | .delete key => LsmLocks.delete key
  | .writeBatch ops => LsmLocks.writeBatch ops
  | .flush => LsmLocks.flush
  | .close => LsmLocks.close

/-- A call, and which of its file operations raise. -/
structure Event where
  call : Call
  faults : List Bool

def step (s : State) (a : Event) : Option State :=
  if s.blocked then none else some (attempt a.call.run { s with faults := a.faults }).2

/-- What a call has done to the engine when it comes to its flush. -/
def Call.prepared : Call → Engine → Engine
  | .set key value, e => e.set key value
  | .delete key, e => e.delete key
  | .writeBatch ops, e => e.writeBatch ops
  | .flush, e => e.force
  | .close, e => e.force

/-- The call does not store the table that would fill Level 0. -/
def Roomy (s : State) (a : Event) : Prop :=
  (a.call.prepared s.engine).snapshot = none ∨
    s.engine.level0.length + 1 < l0CompactionThreshold

instance (s : State) (a : Event) : Decidable (Roomy s a) :=
  decidable_of_iff ((a.call.prepared s.engine).snapshot.isNone ∨
    s.engine.level0.length + 1 < l0CompactionThreshold) (by simp [Roomy])

section Specifications

variable {A B : Type} {s t u : State} {e : Engine}

/-- No call to a file raises. -/
def State.Clean (s : State) : Prop := s.faults = [] ∧ s.closed = false

/-- The thread holds the locks that it held before and is not blocked. -/
structure Kept (s t : State) : Prop where
  lock : t.lock = s.lock
  flushLock : t.flushLock = s.flushLock
  running : t.blocked = false

/-- An operation has returned with the engine `e`. -/
structure Done (s t : State) (e : Engine) : Prop extends Kept s t where
  clean : s.Clean → t.Clean
  engine : t.engine = e

structure Failed (s t : State) : Prop extends Kept s t where
  faulty : ¬s.Clean

/-- From every state of a running thread the operation ends with the locks as they
were. When it returns, it has done `f` to the engine, and it raises with a file only. -/
def Does (x : Attempt State A) (f : Engine → Engine) : Prop :=
  ∀ s, s.blocked = false → Yields x s (fun _ t => Done s t (f s.engine)) (Failed s)

theorem Kept.refl (h : s.blocked = false) : Kept s s := ⟨rfl, rfl, h⟩

theorem Kept.trans (h : Kept s t) (h' : Kept t u) : Kept s u :=
  ⟨h'.lock.trans h.lock, h'.flushLock.trans h.flushLock, h'.running⟩

theorem Done.trans {e' : Engine} (h : Done s t e) (h' : Done t u e') : Done s u e' :=
  ⟨h.toKept.trans h'.toKept, fun hs => h'.clean (h.clean hs), h'.engine⟩

theorem Done.failed (h : Done s t e) (h' : Failed t u) : Failed s u :=
  ⟨h.toKept.trans h'.toKept, fun hs => h'.faulty (h.clean hs)⟩

variable {x : Attempt State A} {f g : Engine → Engine} {k : A → Attempt State B}

theorem Does.bind (hx : Does x f) (hk : ∀ a, Does (k a) g) : Does (x >>= k) fun e => g (f e) := by
  intro s hs
  refine Yields.bind ((hx s hs).mono fun a t ht => ?_)
  refine (hk a t ht.running).imp (fun b u hu => ?_) fun u hu => ht.failed hu
  rw [ht.engine] at hu
  exact ht.trans hu

theorem Does.read (hx : Does x id) (hk : ∀ a, Does (k a) f) : Does (x >>= k) f :=
  hx.bind hk

theorem does_pure (a : A) : Does (pure a) id := fun _ hs => ⟨Kept.refl hs, id, rfl⟩

theorem does_onEngine (f : Engine → Engine) : Does (onEngine f) f :=
  fun _ hs => ⟨⟨rfl, rfl, hs⟩, id, rfl⟩

theorem does_engine : Does engine id := fun _ hs => ⟨Kept.refl hs, id, rfl⟩

theorem releaseLock_eq (h : s.blocked = false) : releaseLock s = { s with lock := s.lock - 1 } :=
  if_neg (by simp [h])

theorem releaseFlushLock_eq (h : s.blocked = false) :
    releaseFlushLock s = { s with flushLock := false } :=
  if_neg (by simp [h])

theorem Kept.releaseLock (h : Kept (acquireLock s) t) : Kept s (releaseLock t) := by
  rw [releaseLock_eq h.running]
  exact ⟨congrArg (· - 1) h.lock, h.flushLock, h.running⟩

theorem Kept.releaseFlushLock (hs : s.flushLock = false) (h : Kept (acquireFlushLock s) t) :
    Kept s (releaseFlushLock t) := by
  rw [releaseFlushLock_eq h.running]
  exact ⟨h.lock, hs.symm, h.running⟩

theorem Done.releaseLock (h : Done (acquireLock s) t e) : Done s (releaseLock t) e := by
  refine ⟨h.toKept.releaseLock, ?_, ?_⟩ <;> rw [releaseLock_eq h.running]
  · exact h.clean
  · exact h.engine

theorem Does.withLock (hx : Does x f) : Does (withLock x) f := by
  intro s hs
  exact Yields.bind (yields_modify (Yields.tryFinally ((hx (acquireLock s) hs).imp
    (fun _ _ h => h.releaseLock) fun _ h => ⟨h.toKept.releaseLock, h.faulty⟩)))

theorem State.Clean.not_fault (h : s.Clean) : ¬(s.faults.headD false = true ∨ s.closed = true) := by
  simp [h.1, h.2]

theorem clean_tail (h : s.Clean) : s.faults.tail = [] ∧ s.closed = false := by
  simp [h.1, h.2]

theorem does_append (r : Request) : Does (append r) fun e => { e with wal := e.wal.append r } := by
  intro s hs
  change Yields (if s.faults.headD false = true ∨ s.closed = true then _ else _)
    { s with faults := s.faults.tail } _ _
  exact yields_ite (fun h => ⟨⟨rfl, rfl, hs⟩, fun hclean => hclean.not_fault h⟩)
    fun _ => ⟨⟨rfl, rfl, hs⟩, clean_tail, rfl⟩

theorem does_truncate : Does truncate fun e => { e with wal := e.wal.truncate } := by
  intro s hs
  change Yields (if s.faults.headD false = true then _ else _)
    { s with closed := true, faults := s.faults.tail } _ _
  exact yields_ite (fun h => ⟨⟨rfl, rfl, hs⟩, fun hclean => hclean.not_fault (.inl h)⟩)
    fun _ => ⟨⟨rfl, rfl, hs⟩, fun hclean => ⟨(clean_tail hclean).1, rfl⟩, rfl⟩

theorem yields_closeWal (hs : s.blocked = false) :
    Yields closeWal s (fun _ t => Kept s t) (Kept s) := by
  change Yields (if s.faults.headD false = true ∨ s.closed = true then _ else _)
    { s with faults := s.faults.tail } _ _
  exact yields_ite (fun _ => ⟨rfl, rfl, hs⟩) fun _ => ⟨rfl, rfl, hs⟩

theorem yields_writeTable (hs : s.blocked = false) (items : SortedMap Text Text) :
    Yields (writeTable items) s
      (fun table t => table = (s.engine.newTable items).2 ∧ Done s t (s.engine.newTable items).1)
      (Failed s) := by
  change Yields (if s.faults.headD false = true then _ else _)
    { s with engine := (s.engine.newTable items).1, faults := s.faults.tail } _ _
  exact yields_ite (fun h => ⟨⟨rfl, rfl, hs⟩, fun hclean => hclean.not_fault (.inl h)⟩)
    fun _ => ⟨rfl, ⟨rfl, rfl, hs⟩, clean_tail, rfl⟩

theorem does_get (key : Text) : Does (get key) id :=
  (does_engine.read fun _ => does_pure _).withLock

theorem does_appendAll (rs : List Request) :
    Does (appendAll rs) fun e => { e with wal := e.wal.appendAll rs } := by
  induction rs with
  | nil => exact does_pure ()
  | cons r rs ih => exact (does_append r).bind fun _ => ih

theorem does_applyAll (ops : List WriteOp) :
    Does (applyAll ops) fun e => { e with memtable := ops.foldl WriteOp.apply e.memtable } := by
  induction ops with
  | nil => exact does_pure ()
  | cons op ops ih =>
    have hget : Does (discard (get op.key)) id := (does_get op.key).read fun _ => does_pure ()
    exact hget.read fun _ => (does_onEngine _).bind fun _ => ih

theorem yields_snapshot (hs : s.blocked = false) :
    Yields (withLock (return (← engine).snapshot)) s
      (fun items t => Done s t s.engine ∧ items = s.engine.snapshot) (Failed s) := by
  refine Yields.bind (yields_modify (Yields.tryFinally ?_))
  exact ⟨Done.releaseLock ⟨Kept.refl (s := acquireLock s) hs, id, rfl⟩, rfl⟩

theorem yields_withFlushLock (hfree : s.flushLock = false)
    (hx : Yields x (acquireFlushLock s) (fun _ t => Done (acquireFlushLock s) t e)
      (Failed (acquireFlushLock s))) :
    Yields (withFlushLock x) s (fun _ t => Done s t e) (Failed s) := by
  refine Yields.bind (yields_get (yields_ite (fun h => ?_) fun _ => ?_))
  · simp [hfree] at h
  · refine Yields.bind (yields_modify (Yields.tryFinally (hx.imp (fun _ t h => ?_) fun t h => ?_)))
    · refine ⟨h.toKept.releaseFlushLock hfree, ?_, ?_⟩ <;> rw [releaseFlushLock_eq h.running]
      · exact h.clean
      · exact h.engine
    · exact ⟨h.toKept.releaseFlushLock hfree, h.faulty⟩

theorem yields_withFlushLock_of_held (hheld : s.flushLock = true) :
    Yields (withFlushLock x) s (fun _ _ => False)
      fun t => t.blocked = true ∧ t.engine = s.engine := by
  refine Yields.bind (yields_get (yields_ite (fun _ => ?_) fun h => ?_))
  · exact Yields.bind (yields_modify (yields_throw ⟨rfl, rfl⟩))
  · exact absurd hheld h

theorem yields_flushItems (hs : s.blocked = false)
    (hroom : s.engine.level0.length + 1 < l0CompactionThreshold) (items : SortedMap Text Text) :
    Yields (flushItems items) s (fun _ t => Done s t
      ((s.engine.newTable items).1.install (s.engine.newTable items).2)) (Failed s) := by
  refine Yields.bind ((yields_writeTable hs items).mono ?_)
  rintro _ t ⟨rfl, ht⟩
  have hinstall := ((does_onEngine fun e => { e with
    level0 := e.level0 ++ [(s.engine.newTable items).2]
    memtable := e.memtable.clear }).bind fun _ => does_truncate).withLock
  refine Yields.bind ((hinstall t ht.running).imp (fun _ u hu => ?_) fun _ => ht.failed)
  rw [ht.engine] at hu
  refine yields_ite (fun hle => ?_) fun _ => ht.trans hu
  -- one table was added to those that were there
  rw [hu.engine] at hle
  simp only [newTable, List.length_append, List.length_singleton] at hle
  omega

/-- Without a fault, the flush that fills Level 0 waits for its own lock when its table is in
place. -/
theorem yields_flushItems_of_full (hs : s.blocked = false) (hheld : s.flushLock = true)
    (hfaults : s.faults = [])
    (hfull : l0CompactionThreshold ≤ s.engine.level0.length + 1) (items : SortedMap Text Text) :
    Yields (flushItems items) s (fun _ _ => False) fun t => t.blocked = true ∧
      t.engine = (s.engine.newTable items).1.install (s.engine.newTable items).2 := by
  obtain ⟨e, closed, lock, flushLock, blocked, faults⟩ := s
  simp only at hs hheld hfaults
  subst hs hheld hfaults
  change Yields (if l0CompactionThreshold ≤ (e.level0 ++ [(e.newTable items).2]).length then
    compactL0ToL1 else pure ()) _ _ _
  refine yields_ite (fun _ => yields_withFlushLock_of_held rfl) fun hlt => ?_
  exact absurd (by simpa using hfull) hlt

theorem yields_flushMemtable (hs : s.blocked = false) (hfree : s.flushLock = false)
    (hroom : s.engine.snapshot = none ∨ s.engine.level0.length + 1 < l0CompactionThreshold) :
    Yields flushMemtable s (fun _ t => Done s t s.engine.flushMemtable) (Failed s) := by
  refine yields_withFlushLock hfree ?_
  refine Yields.bind ((yields_snapshot (s := acquireFlushLock s) hs).mono ?_)
  rintro _ t ⟨ht, rfl⟩
  change Yields (match s.engine.snapshot with
    | none => pure ()
    | some items => flushItems items) t _ _
  unfold Engine.flushMemtable
  cases hsnapshot : s.engine.snapshot with
  | none => exact ht
  | some items =>
    have hengine : t.engine = s.engine := ht.engine
    have hlt := hroom.resolve_left (by simp [hsnapshot])
    rw [← hengine] at hlt ⊢
    exact (yields_flushItems ht.running hlt items).imp (fun _ _ => ht.trans) fun _ => ht.failed

/-- A flush that takes items and does not come to its end. -/
theorem yields_flushMemtable_of_items {items : SortedMap Text Text} {E : State → Prop}
    (hs : s.blocked = false) (hfree : s.flushLock = false)
    (hsnapshot : s.engine.snapshot = some items)
    (hitems : Yields (flushItems items) (acquireFlushLock s) (fun _ _ => False)
      fun t => E (releaseFlushLock t)) :
    Yields flushMemtable s (fun _ _ => False) E := by
  obtain ⟨e, closed, lock, flushLock, blocked, faults⟩ := s
  simp only at hs hfree hsnapshot
  subst hs hfree
  refine Yields.bind (yields_get (yields_ite (fun h => ?_) fun _ => ?_))
  · simp at h
  · refine Yields.bind (yields_modify (Yields.tryFinally ?_))
    change Yields (match e.snapshot with
      | none => pure ()
      | some items => flushItems items) ⟨e, closed, lock, true, false, faults⟩ _ _
    rw [hsnapshot]
    exact hitems.mono fun _ _ => False.elim

theorem yields_flushMemtable_of_full {items : SortedMap Text Text} (hs : s.blocked = false)
    (hfree : s.flushLock = false) (hfaults : s.faults = [])
    (hsnapshot : s.engine.snapshot = some items)
    (hfull : l0CompactionThreshold ≤ s.engine.level0.length + 1) :
    Yields flushMemtable s (fun _ _ => False)
      fun t => t.blocked = true ∧ t.engine = s.engine.flushMemtable := by
  refine yields_flushMemtable_of_items hs hfree hsnapshot
    ((yields_flushItems_of_full (s := acquireFlushLock s) hs rfl hfaults hfull items).imp
      (fun _ _ => id) ?_)
  rintro t ⟨ht, hengine⟩
  simp [releaseFlushLock, acquireFlushLock, ht, hengine, Engine.flushMemtable, hsnapshot]

/-- When the table cannot be written, only its number is lost. -/
theorem yields_flushMemtable_of_fault {items : SortedMap Text Text} {faults : List Bool}
    (hs : s.blocked = false) (hfree : s.flushLock = false) (hfaults : s.faults = true :: faults)
    (hsnapshot : s.engine.snapshot = some items) :
    Yields flushMemtable s (fun _ _ => False)
      fun t => t.blocked = false ∧ t.engine = (s.engine.newTable items).1 := by
  refine yields_flushMemtable_of_items hs hfree hsnapshot ?_
  obtain ⟨e, closed, lock, flushLock, blocked, faults⟩ := s
  simp only at hs hfaults
  subst hs hfaults
  exact ⟨rfl, rfl⟩

end Specifications

section Calls

variable {s t : State}

theorem yields_flushIfNeeded (hs : s.blocked = false) (hfree : s.flushLock = false)
    (hroom : s.engine.snapshot = none ∨ s.engine.level0.length + 1 < l0CompactionThreshold) :
    Yields flushIfNeeded s (fun _ t => Done s t s.engine.flushMemtable) (Failed s) := by
  change Yields (if s.engine.memtable.shouldFlush then flushMemtable else pure ()) s _ _
  refine yields_ite (fun _ => yields_flushMemtable hs hfree hroom) fun hfull => ?_
  refine ⟨Kept.refl hs, id, ?_⟩
  simp [Engine.flushMemtable, Engine.snapshot, hfull]

theorem yields_of_flushes {x y : Attempt State Unit} {f : Engine → Engine} (hx : Does x f)
    (hy : ∀ t, t.blocked = false → t.flushLock = false →
      (t.engine.snapshot = none ∨ t.engine.level0.length + 1 < l0CompactionThreshold) →
      Yields y t (fun _ u => Done t u t.engine.flushMemtable) (Failed t))
    (hs : s.blocked = false) (hfree : s.flushLock = false)
    (hroom : (f s.engine).snapshot = none ∨
      (f s.engine).level0.length + 1 < l0CompactionThreshold) :
    Yields (x >>= fun _ => y) s (fun _ t => Done s t (f s.engine).flushMemtable) (Failed s) := by
  refine Yields.bind ((hx s hs).mono fun _ t ht => ?_)
  rw [← ht.engine] at hroom ⊢
  exact (hy t ht.running (ht.flushLock.trans hfree) hroom).imp (fun _ _ => ht.trans)
    fun _ => ht.failed

theorem yields_write (hs : s.blocked = false) (hfree : s.flushLock = false) (op : WriteOp)
    (hroom : (s.engine.write op).snapshot = none ∨
      s.engine.level0.length + 1 < l0CompactionThreshold) :
    Yields (write op) s (fun _ t => Done s t (s.engine.write op).flushMemtable) (Failed s) := by
  have hget : Does (discard (get op.key)) id := (does_get op.key).read fun _ => does_pure ()
  have hwrite : Does (do
      discard (get op.key)
      withLock do
        append op.request
        onEngine fun e => { e with memtable := op.apply e.memtable }) fun e => e.write op :=
    hget.read fun _ => ((does_append _).bind fun _ => does_onEngine _).withLock
  rw [write, ← bind_assoc]
  exact yields_of_flushes hwrite (fun _ => yields_flushIfNeeded) hs hfree hroom

theorem yields_writeBatch (hs : s.blocked = false) (hfree : s.flushLock = false)
    (ops : List WriteOp)
    (hroom : (s.engine.writeBatch ops).snapshot = none ∨
      s.engine.level0.length + 1 < l0CompactionThreshold) :
    Yields (writeBatch ops) s
      (fun _ t => Done s t (s.engine.writeBatch ops).flushMemtable) (Failed s) := by
  have hwrite := ((does_appendAll (batchRequests ops)).bind fun _ => does_applyAll ops).withLock
  exact yields_of_flushes hwrite (fun _ => yields_flushIfNeeded) hs hfree hroom

theorem level0_force (e : Engine) : e.force.level0 = e.level0 := by
  unfold Engine.force
  split <;> rfl

theorem yields_flush (hs : s.blocked = false) (hfree : s.flushLock = false)
    (hroom : s.engine.force.snapshot = none ∨ s.engine.level0.length + 1 < l0CompactionThreshold) :
    Yields flush s (fun _ t => Done s t s.engine.force.flushMemtable) (Failed s) := by
  rw [← level0_force] at hroom
  exact yields_of_flushes (does_onEngine Engine.force).withLock (fun _ => yields_flushMemtable) hs
    hfree hroom

/-- A call that leaves room in Level 0 ends with the locks as they were, and what it has done
to the engine is its write and a flush. -/
theorem yields_run {a : Event} (hs : s.blocked = false) (hfree : s.flushLock = false)
    (hroom : Roomy s a) (hcall : a.call ≠ .close) :
    Yields a.call.run s (fun _ t => Done s t (a.call.prepared s.engine).flushMemtable)
      (Failed s) := by
  obtain ⟨call, faults⟩ := a
  cases call with
  | set key value => exact yields_write hs hfree (.put key value) hroom
  | delete key => exact yields_write hs hfree (.delete key) hroom
  | writeBatch ops => exact yields_writeBatch hs hfree ops hroom
  | flush => exact yields_flush hs hfree hroom
  | close => exact absurd rfl hcall

theorem kept_run {a : Event} (hs : s.blocked = false) (hfree : s.flushLock = false)
    (hroom : Roomy s a) : Kept s (attempt a.call.run s).2 := by
  refine Yields.snd ?_
  obtain ⟨call, faults⟩ := a
  by_cases hcall : call = .close
  · subst hcall
    refine Yields.bind ((yields_flush hs hfree hroom).imp (fun _ t ht => ?_) fun _ ht => ht.toKept)
    exact (yields_closeWal ht.running).imp (fun _ _ => ht.toKept.trans) fun _ => ht.toKept.trans
  · exact (yields_run hs hfree hroom hcall).imp (fun _ _ ht => ht.toKept) fun _ ht => ht.toKept

end Calls

/-- No lock is held and nothing waits. -/
structure Free (s : State) : Prop where
  lock : s.lock = 0
  flushLock : s.flushLock = false
  running : s.blocked = false

theorem Free.step {s t : State} {a : Event} (h : Free s) (ha : Roomy s a)
    (hstep : step s a = some t) : Free t := by
  rw [LsmLocks.step, if_neg (by simp [h.running])] at hstep
  cases hstep
  have hkept := kept_run (s := { s with faults := a.faults }) (a := a) h.running h.flushLock ha
  exact ⟨hkept.lock.trans h.lock, hkept.flushLock.trans h.flushLock, hkept.running⟩

/-- Without a fault, a call that leaves room in Level 0 returns. -/
theorem exists_step_of_free {s : State} (h : Free s) (hopen : s.closed = false) {c : Call}
    (hroom : Roomy s ⟨c, []⟩) (hcall : c ≠ .close) :
    ∃ t, step s ⟨c, []⟩ = some t ∧ Free t ∧ t.closed = false ∧
      t.engine = (c.prepared s.engine).flushMemtable := by
  have hstep : step s ⟨c, []⟩ = some (attempt c.run { s with faults := [] }).2 :=
    if_neg (by simp [h.running])
  have hrun := yields_run (s := { s with faults := [] }) (a := ⟨c, []⟩) h.running h.flushLock
    hroom hcall
  have hdone : Done { s with faults := [] } (attempt c.run { s with faults := [] }).2
      (c.prepared s.engine).flushMemtable :=
    Yields.snd (hrun.imp (fun _ _ => id) fun _ ht => absurd ⟨rfl, hopen⟩ ht.faulty)
  exact ⟨_, hstep, h.step hroom hstep, (hdone.clean ⟨rfl, hopen⟩).2, hdone.engine⟩

/-- No call waits for a lock of its own thread, as long as no flush fills Level 0. -/
theorem not_blocked_of_roomy {s : State} (h : Reaches step Roomy init s) : s.blocked = false := by
  have hfree : Free s :=
    h.invariant Free ⟨rfl, rfl, rfl⟩ fun _ _ _ hu ha hstep => hu.step ha hstep
  exact hfree.running

/-- A flush lowers the limit for good, so that the writes behind it flush too. -/
def threeTables : List Event :=
  [⟨.set "a".toList "1".toList, []⟩, ⟨.flush, []⟩, ⟨.delete "a".toList, []⟩,
    ⟨.set "a".toList "2".toList, []⟩]

theorem not_blocked_of_threeTables : ∃ s, Reaches step Roomy init s ∧
    s.engine.level0.length = 3 ∧ s.blocked = false := by
  obtain ⟨s, hs, htest⟩ := exists_reaches step Roomy init threeTables
    (fun s => s.engine.level0.length = 3) (by decide +kernel)
  exact ⟨s, hs, htest, not_blocked_of_roomy hs⟩

theorem not_forall_not_blocked :
    ¬∀ s, Reaches step (fun _ a => a.faults = []) init s → s.blocked = false := by
  intro hall
  obtain ⟨s, hs, htest⟩ := exists_reaches step (fun _ a => a.faults = []) init
    (threeTables ++ [⟨.set "a".toList "3".toList, []⟩]) (·.blocked) (by decide +kernel)
  simp [hall s hs] at htest

end LiteDB.LsmLocks
