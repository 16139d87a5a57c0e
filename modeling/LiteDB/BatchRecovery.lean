import LiteDB.LsmEngineSpec
import LiteDB.Runs

namespace LiteDB.BatchRecovery

open List LsmEngine LsmEngine.Engine LsmEngineSpec Runs Wal

/-- A single write or a batch. -/
inductive Call where
  | write (op : WriteOp)
  | batch (ops : List WriteOp)
deriving DecidableEq

namespace Call

def requests : Call → List Request
  | .write op => [op.request]
  | .batch ops => batchRequests ops

def run (s : Engine) : Call → Engine
  | .write op => s.write op
  | .batch ops => s.writeBatch ops

def apply (m : MemTable) : Call → MemTable
  | .write op => op.apply m
  | .batch ops => ops.foldl WriteOp.apply m

end Call

/-- The engine and the calls that have returned. -/
structure State where
  engine : Engine
  written : List Call

/-- What the written calls make of an empty table. -/
def effect (calls : List Call) : MemTable := calls.foldl Call.apply MemTable.create

/-- A call is acknowledged, or a crash leaves the first `n` entries of it. -/
inductive Event where
  | run (call : Call)
  | crash (call : Call) (n : Nat)

def interrupted (s : Engine) (call : Call) (n : Nat) : Disk :=
  { s.disk with wal := (s.wal.appendAll (call.requests.take n)).entries }

def step (s : State) : Event → Option State
  | .run call => some ⟨call.run s.engine, s.written ++ [call]⟩
  | .crash call n =>
      some ⟨recover (interrupted s.engine call n),
        if call.requests.length ≤ n then s.written ++ [call] else s.written⟩

def init : State := ⟨Engine.create, []⟩

/-- The log does not end inside of an interrupted batch when a single write is
appended to it. -/
def ClosedLog (s : State) : Event → Prop
  | .run (.write _) => (replay s.engine.wal.entries).inBatch = false
  | .crash (.write _) n => n = 0 ∨ (replay s.engine.wal.entries).inBatch = false
  | _ => True

instance (s : State) (a : Event) : Decidable (ClosedLog s a) := by
  unfold ClosedLog
  split <;> infer_instance

/-- The table in memory and the log agree with the written calls. -/
structure Recoverable (s : State) : Prop where
  memtable : s.engine.memtable = effect s.written
  log : (replay s.engine.wal.entries).memtable = effect s.written

variable {s t : State}

theorem effect_concat (calls : List Call) (call : Call) :
    effect (calls ++ [call]) = call.apply (effect calls) := by
  simp [effect]

theorem replay_appendAll_take (l : Log) (call : Call) (n : Nat)
    (hclosed : ∀ op, call = .write op → n = 0 ∨ (replay l.entries).inBatch = false) :
    (replay (l.appendAll (call.requests.take n)).entries).memtable =
      if call.requests.length ≤ n then call.apply (replay l.entries).memtable
      else (replay l.entries).memtable := by
  rw [appendAll_entries, replay, foldl_append]
  change ((stamped l.sequence (call.requests.take n)).foldl Replay.next
    (replay l.entries)).memtable = _
  split
  · rename_i hle
    rw [take_of_length_le hle]
    cases call with
    | write op =>
      have hpos : n ≠ 0 := by
        rintro rfl
        simp [Call.requests] at hle
      have hopen := (hclosed op rfl).resolve_left hpos
      simp only [Call.requests, stamped, foldl_cons, foldl_nil,
        next_request_of_not_inBatch _ _ _ hopen]
      rfl
    | batch ops =>
      rw [Call.requests, foldl_next_batch]
      rfl
  · rename_i hlt
    cases call with
    | write op =>
      obtain rfl : n = 0 := by
        simp only [Call.requests, length_singleton] at hlt
        omega
      rfl
    | batch ops =>
      refine foldl_next_take_batch _ _ _ ?_
      simp only [Call.requests, batchRequests, length_append, length_cons,
        length_map, length_nil] at hlt
      omega

theorem run_eq (s : Engine) (call : Call) :
    call.run s =
      { s with
        wal := s.wal.appendAll (call.requests.take call.requests.length)
        memtable := call.apply s.memtable } := by
  rw [take_length]
  cases call <;> rfl

theorem Recoverable.step {a : Event} (h : Recoverable s) (ha : ClosedLog s a)
    (hstep : step s a = some t) : Recoverable t := by
  cases a with
  | run call =>
    cases hstep
    have hlog := replay_appendAll_take s.engine.wal call call.requests.length
      fun op hop => .inr (by subst hop; exact ha)
    rw [if_pos le_rfl, h.log] at hlog
    simp only [run_eq]
    exact ⟨by rw [effect_concat, h.memtable], by rw [effect_concat]; exact hlog⟩
  | crash call n =>
    cases hstep
    have hlog := replay_appendAll_take s.engine.wal call n fun op hop => by subst hop; exact ha
    rw [h.log] at hlog
    have heffect : (replay (s.engine.wal.appendAll (call.requests.take n)).entries).memtable =
        effect (if call.requests.length ≤ n then s.written ++ [call] else s.written) := by
      rw [hlog]
      split
      · rw [effect_concat]
      · rfl
    exact ⟨heffect, heffect⟩

/-- Every reopening recovers the effect of exactly the calls whose last entry was
written. -/
theorem recover_memtable (h : Reaches step ClosedLog init s) :
    (recover s.engine.disk).memtable = effect s.written := by
  have hinit : Recoverable init := ⟨rfl, rfl⟩
  exact (h.invariant Recoverable hinit fun _ _ _ hu ha hstep => hu.step ha hstep).log

def samplePut (key value : String) : WriteOp := .put key.toList value.toList

/-- A batch is interrupted, and a second one follows it. -/
def interruptedTwice : List Event :=
  [.run (.write (samplePut "a" "1")), .crash (.batch [samplePut "b" "2", samplePut "c" "3"]) 2,
    .run (.batch [.delete "a".toList]), .run (.write (samplePut "d" "4")),
    .crash (.write (samplePut "e" "5")) 1]

theorem recover_memtable_of_interruptedTwice : ∃ s, Reaches step ClosedLog init s ∧
    s.written.length = 4 ∧ (recover s.engine.disk).memtable = effect s.written := by
  obtain ⟨s, hs, htest⟩ := exists_reaches step ClosedLog init interruptedTwice
    (fun s => s.written.length = 4) (by decide +kernel)
  exact ⟨s, hs, htest, recover_memtable hs⟩

/-- A batch is interrupted behind its first marker, and a write is acknowledged after
the recovery. -/
def writeAfterInterrupted : List Event :=
  [.crash (.batch [samplePut "a" "1"]) 1, .run (.write (samplePut "b" "2"))]

theorem not_recover_memtable_of_writeAfterInterrupted :
    ¬∀ s, Reaches step (fun _ _ => True) init s →
      (recover s.engine.disk).memtable = effect s.written := by
  intro hall
  obtain ⟨s, hs, htest⟩ := exists_reaches step (fun _ _ => True) init writeAfterInterrupted
    (fun s => (recover s.engine.disk).memtable.data.get? "b".toList ≠
      (effect s.written).data.get? "b".toList) (by decide +kernel)
  exact htest (congrArg (fun m => m.data.get? "b".toList) (hall s hs))

end LiteDB.BatchRecovery
