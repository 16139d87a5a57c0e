import LiteDB.LsmEngineSpec
import LiteDB.Runs

namespace LiteDB.FlushInterleavings

open LsmEngine LsmEngine.Engine LsmEngineSpec Runs SortedMaps
open VersionKeys (Text)

/-- The thread that holds the flush lock. It is `stuck` when it starts a compaction,
which takes the same lock again. -/
inductive Flusher where
  | idle
  | taken (items : SortedMap Text Text)
  | stored (t : SSTable)
  | stuck

/-- `history` has the writes in the order of their sections under the lock. -/
structure State where
  engine : Engine
  flusher : Flusher
  history : List WriteOp

/-- The calls of clients, and the sections of a flush next to them. -/
inductive Event where
  | write (op : WriteOp)
  | batch (ops : List WriteOp)
  | force
  | snapshot
  | store
  | fail
  | install
  | crash

def init : State := ⟨Engine.create, .idle, []⟩

def pending : Flusher → List SSTable
  | .stored t => [t]
  | _ => []

def disk (s : State) : Disk :=
  { s.engine.disk with level0 := s.engine.level0 ++ pending s.flusher }

def step (s : State) : Event → Option State
  | .write op => some { s with engine := s.engine.write op, history := s.history ++ [op] }
  | .batch ops => some { s with engine := s.engine.writeBatch ops, history := s.history ++ ops }
  | .force => some { s with engine := s.engine.force }
  | .snapshot =>
      match s.flusher, s.engine.snapshot with
      | .idle, some items => some { s with flusher := .taken items }
      | _, _ => none
  | .store =>
      match s.flusher with
      | .taken items =>
          some { s with
            engine := (s.engine.newTable items).1
            flusher := .stored (s.engine.newTable items).2 }
      | _ => none
  | .fail =>
      match s.flusher with
      | .taken items => some { s with engine := (s.engine.newTable items).1, flusher := .idle }
      | _ => none
  | .install =>
      match s.flusher with
      | .stored t =>
          some { s with
            engine := s.engine.install t
            flusher := if l0CompactionThreshold ≤ (s.engine.install t).level0.length then .stuck
              else .idle }
      | _ => none
  | .crash => some { s with engine := recover (disk s), flusher := .idle }

def lastValue (history : List WriteOp) (key : Text) : Option Text :=
  match history.reverse.find? fun op => op.key = key with
  | some (.put _ value) => some value
  | _ => none

def Flusher.quiet : Flusher → Prop
  | .taken _ => False
  | .stored _ => False
  | _ => True

instance (f : Flusher) : Decidable f.quiet := by
  unfold Flusher.quiet
  split <;> infer_instance

/-- Writes stay apart from flushes and do not store the tombstone as a value, and the
numbers of the files have six digits. -/
def Apart (s : State) : Event → Prop
  | .write op => s.flusher.quiet ∧ op ≠ .put op.key tombstone
  | .batch ops => s.flusher.quiet ∧ ∀ op ∈ ops, op ≠ .put op.key tombstone
  | .store => s.engine.sstSequence < 10 ^ 6
  | _ => True

instance (s : State) (a : Event) : Decidable (Apart s a) := by
  unfold Apart
  split <;> infer_instance

/-- What a flush in progress has taken is still all that is in memory. -/
def Current (s : Engine) : Flusher → Prop
  | .taken items => items = s.memtable.data
  | .stored t => t.items = s.memtable.data ∧ t.sequence < 10 ^ 6 ∧
      t.sequence < s.sstSequence ∧ ∀ x ∈ s.level0, x.sequence < t.sequence
  | _ => True

/-- What the engine shows is what was last written, and what the flusher has taken is current. -/
structure Inv (s : State) : Prop where
  shown : ∀ key, (view s.engine key).bind live = lastValue s.history key
  sound : Sound s.engine
  closed : (replay s.engine.wal.entries).inBatch = false
  current : Current s.engine s.flusher

variable {s t : State}

theorem inv_init : Inv init :=
  ⟨fun _ => rfl, sound_recover ⟨List.Pairwise.nil, by simp⟩ ⟨List.Pairwise.nil, by simp⟩, rfl,
    trivial⟩

theorem lastValue_concat (history : List WriteOp) (op : WriteOp) (key : Text) :
    lastValue (history ++ [op]) key =
      if key = op.key then lastValue [op] key else lastValue history key := by
  by_cases hkey : op.key = key
  · simp [lastValue, hkey]
  · simp [lastValue, hkey, Ne.symm hkey]

theorem live_stored {op : WriteOp} (h : op ≠ .put op.key tombstone) :
    live op.stored = lastValue [op] op.key := by
  cases op with
  | put key value =>
    have hvalue : value ≠ tombstone := by
      rintro rfl
      exact h rfl
    simp [WriteOp.stored, live, hvalue, lastValue, WriteOp.key]
  | delete key => simp [WriteOp.stored, live, lastValue, WriteOp.key]

theorem view_foldl_apply {engine : Engine} {history ops : List WriteOp}
    (hshown : ∀ key, (view engine key).bind live = lastValue history key)
    (hops : ∀ op ∈ ops, op ≠ .put op.key tombstone) (key : Text) :
    (view { engine with memtable := ops.foldl WriteOp.apply engine.memtable } key).bind live =
      lastValue (history ++ ops) key := by
  induction ops generalizing engine history with
  | nil => simpa using hshown key
  | cons op ops ih =>
    have hnext : ∀ key, (view { engine with memtable := op.apply engine.memtable } key).bind live =
          lastValue (history ++ [op]) key := by
      intro key
      rw [view_memtable, lastValue_concat]
      split
      · rename_i hkey
        rw [hkey]
        exact live_stored (hops op List.mem_cons_self)
      · exact hshown key
    have hrest := ih hnext fun x hx => hops x (List.mem_cons_of_mem _ hx)
    rw [List.append_assoc] at hrest
    exact hrest

theorem Inv.disk (h : Inv s) : Ordered (disk s).level0 ∧ Ordered (disk s).level1 ∧
    ∀ key, view (recover (FlushInterleavings.disk s)) key = view s.engine key := by
  have hcurrent := h.current
  unfold FlushInterleavings.disk
  cases hflusher : s.flusher with
  | stored t =>
    rw [hflusher] at hcurrent
    obtain ⟨hitems, hten, -, hlast⟩ := hcurrent
    exact ⟨h.sound.level0.concat hlast hten, h.sound.level1,
      view_recover_of_stored h.sound hitems hten hlast⟩
  | idle | taken | stuck =>
    simp only [pending, List.append_nil]
    exact ⟨h.sound.level0, h.sound.level1, view_recover_disk h.sound⟩

theorem Inv.step {a : Event} (h : Inv s) (ha : Apart s a) (hstep : step s a = some t) : Inv t := by
  -- a flush that is not in progress has taken nothing
  have hquiet : ∀ engine, s.flusher.quiet → Current engine s.flusher := by
    intro engine hq
    cases hflusher : s.flusher <;> simp_all [Flusher.quiet, Current]
  cases a with
  | write op =>
    cases hstep
    have hshown := view_foldl_apply h.shown (List.forall_mem_singleton.mpr ha.2)
    refine ⟨hshown, h.sound.write h.closed op, ?_, hquiet _ ha.1⟩
    rw [replay_write h.closed]
    exact h.closed
  | batch ops =>
    cases hstep
    refine ⟨view_foldl_apply h.shown ha.2, h.sound.writeBatch ops, ?_, hquiet _ ha.1⟩
    rw [replay_writeBatch]
  | force =>
    cases hstep
    have hsound := h.sound.force
    obtain ⟨limit, hforce⟩ := force_eq s.engine
    rw [hforce] at hsound
    simp only [hforce]
    refine ⟨h.shown, hsound, h.closed, ?_⟩
    have hcurrent := h.current
    cases hflusher : s.flusher with
    | idle | stuck => trivial
    | taken | stored =>
      rw [hflusher] at hcurrent
      exact hcurrent
  | snapshot =>
    simp only [FlushInterleavings.step] at hstep
    split at hstep <;> cases hstep
    rename_i items hflusher hsnapshot
    exact { h with current := snapshot_eq_some hsnapshot }
  | store =>
    simp only [FlushInterleavings.step] at hstep
    split at hstep <;> cases hstep
    rename_i items hflusher
    have hcurrent := h.current
    rw [hflusher] at hcurrent
    exact ⟨h.shown, h.sound.newTable items, h.closed, hcurrent, ha, Nat.lt_succ_self _,
      h.sound.fresh0⟩
  | fail =>
    simp only [FlushInterleavings.step] at hstep
    split at hstep <;> cases hstep
    rename_i items hflusher
    exact ⟨h.shown, h.sound.newTable items, h.closed, trivial⟩
  | install =>
    simp only [FlushInterleavings.step] at hstep
    split at hstep <;> cases hstep
    rename_i x hflusher
    have hcurrent := h.current
    rw [hflusher] at hcurrent
    obtain ⟨hitems, hten, hfresh, hlast⟩ := hcurrent
    refine ⟨fun key => ?_, h.sound.install hten hfresh hlast, rfl, ?_⟩
    · simp only [view_install hitems]
      exact h.shown key
    · simp only
      split <;> trivial
  | crash =>
    cases hstep
    obtain ⟨h0, h1, hview⟩ := h.disk
    refine ⟨fun key => ?_, sound_recover h0 h1, h.closed, trivial⟩
    simp only
    rw [hview]
    exact h.shown key

/-- A key has the value of its last write, also after a crash. -/
theorem get_eq_lastValue (h : Reaches step Apart init s) (key : Text) :
    s.engine.get key = lastValue s.history key ∧
      (recover (disk s)).get key = lastValue s.history key := by
  have hinv : Inv s := h.invariant Inv inv_init fun _ _ _ hu ha hstep => hu.step ha hstep
  obtain ⟨-, -, hview⟩ := hinv.disk
  exact ⟨by rw [get_eq, hinv.shown], by rw [get_eq, hview, hinv.shown]⟩

def samplePut (key value : String) : WriteOp := .put key.toList value.toList

/-- Two flushes, each between writes, and a crash with a table that is not installed. -/
def writesAndFlushes : List Event :=
  [.write (samplePut "a" "1"), .batch [samplePut "b" "2", .delete "a".toList], .force, .snapshot,
    .store, .install, .write (samplePut "a" "3"), .snapshot, .store, .crash]

theorem get_eq_lastValue_of_writesAndFlushes : ∃ s, Reaches step Apart init s ∧
    lastValue s.history "a".toList = some "3".toList ∧
    s.engine.get "a".toList = some "3".toList := by
  obtain ⟨s, hs, hlast⟩ := exists_reaches step Apart init writesAndFlushes
    (fun s => lastValue s.history "a".toList = some "3".toList) (by decide +kernel)
  exact ⟨s, hs, hlast, (get_eq_lastValue hs _).1.trans hlast⟩

/-- A write while the table of a flush is being written. -/
def writeDuringFlush : List Event :=
  [.write (samplePut "a" "1"), .force, .snapshot, .write (samplePut "b" "2"), .store, .install]

theorem not_get_eq_lastValue_of_writeDuringFlush :
    ¬∀ s, Reaches step (fun _ _ => True) init s → ∀ key,
      s.engine.get key = lastValue s.history key ∧
        (recover (disk s)).get key = lastValue s.history key := by
  intro hall
  obtain ⟨s, hs, htest⟩ := exists_reaches step (fun _ _ => True) init writeDuringFlush
    (fun s => s.engine.get "b".toList ≠ lastValue s.history "b".toList) (by decide +kernel)
  exact htest (hall s hs _).1

end LiteDB.FlushInterleavings
