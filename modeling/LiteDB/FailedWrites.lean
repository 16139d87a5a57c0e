import LiteDB.BatchRecovery
import LiteDB.LsmLocks
import LiteDB.SSTable

namespace LiteDB.FailedWrites

open Attempts
open BatchRecovery (Call replay_appendAll_take)
open ByteFields (encodeText)
open LsmEngine LsmEngine.Engine LsmEngineSpec Runs
open SSTable (IndexCodec structPack)
open SortedMaps
open VersionKeys (Text)
open Wal

/-- Which call to a file raises: that of an entry of the log, with nothing of it in the file,
or that of the table. -/
inductive Fault where
  | none
  | log (n : Nat)
  | table
deriving DecidableEq

/-- How a call ends; a blocked one does not. -/
inductive Outcome where
  | returned
  | raised
  | blocked
deriving DecidableEq

section Calls

variable (codec : IndexCodec)

/-- The flush behind a write. The table is written outside of the section that takes the
items, and a compaction inside of a flush waits for a lock that the flush holds. -/
def flushIfNeeded (s : Engine) (fault : Fault) : Outcome × Engine :=
  match s.snapshot with
  | none => (.returned, s)
  | some items =>
      if fault = .table ∨ (SSTable.write codec items.entries).isNone then
        (.raised, (s.newTable items).1)
      else if l0CompactionThreshold ≤ s.level0.length + 1 then (.blocked, s.flushMemtable)
      else (.returned, s.flushMemtable)

/-- An entry that cannot be written takes a sequence number. -/
def failLog (s : Engine) (written : List Request) : Engine :=
  { s with wal := ⟨(s.wal.appendAll written).entries, (s.wal.appendAll written).sequence + 1⟩ }

/-- `set`, `delete` or `write_batch`. -/
def call (s : Engine) (c : Call) (fault : Fault) : Outcome × Engine :=
  match fault with
  | .log n =>
      if n < c.requests.length then (.raised, failLog s (c.requests.take n))
      else flushIfNeeded codec (c.run s) fault
  | _ => flushIfNeeded codec (c.run s) fault

end Calls

variable {codec : IndexCodec} {s : Engine} {c : Call} {fault : Fault}

theorem run_eq (s : Engine) (c : Call) : ∃ wal, c.run s =
    { s with wal := wal, memtable := c.apply s.memtable } := by
  cases c with
  | write op => exact ⟨_, rfl⟩
  | batch ops => exact ⟨_, rfl⟩

section Thread

variable (codec s fault)

def tableRaises : Bool :=
  s.snapshot.any fun items => fault = .table ∨ (SSTable.write codec items.entries).isNone

/-- The engine in a thread, where the first call to a file is the one that writes the table. -/
def thread : LsmLocks.State :=
  { LsmLocks.init with engine := s, faults := if tableRaises codec s fault then [true] else [] }

/-- The flush ends as the one of the thread with its locks does. -/
theorem yields_flushIfNeeded : Yields LsmLocks.flushIfNeeded (thread codec s fault)
    (fun _ t => flushIfNeeded codec s fault = (.returned, t.engine))
    fun t => flushIfNeeded codec s fault = (if t.blocked then .blocked else .raised, t.engine) := by
  have hclean : tableRaises codec s fault = false → (thread codec s fault).Clean :=
    fun hraises => ⟨by simp [thread, hraises], rfl⟩
  cases hsnapshot : s.snapshot with
  | none =>
    have hdone := LsmLocks.yields_flushIfNeeded (s := thread codec s fault) rfl rfl (.inl hsnapshot)
    refine hdone.imp (fun _ t ht => ?_) fun _ ht => absurd (hclean ?_) ht.faulty
    · rw [ht.engine]
      simp [flushIfNeeded, thread, Engine.flushMemtable, hsnapshot]
    · simp [tableRaises, hsnapshot]
  | some items =>
    have hfull : s.memtable.shouldFlush = true := (Option.ite_none_right_eq_some.mp hsnapshot).1.1
    have hraises : tableRaises codec s fault = true ↔
        fault = .table ∨ (SSTable.write codec items.entries).isNone := by
      simp [tableRaises, hsnapshot]
    change Yields (if s.memtable.shouldFlush then LsmLocks.flushMemtable else pure ()) _ _ _
    refine yields_ite (fun _ => ?_) fun hnot => absurd hfull hnot
    unfold flushIfNeeded
    simp only [hsnapshot, ← hraises]
    split_ifs with htable hlevel
    · refine (LsmLocks.yields_flushMemtable_of_fault rfl rfl (if_pos htable) hsnapshot).imp
        (fun _ _ => False.elim) ?_
      rintro t ⟨hrunning, hengine⟩
      simp [hrunning, hengine, thread]
    · refine (LsmLocks.yields_flushMemtable_of_full rfl rfl (if_neg htable) hsnapshot hlevel).imp
        (fun _ _ => False.elim) ?_
      rintro t ⟨hblocked, hengine⟩
      simp [hblocked, hengine, thread]
    · refine (LsmLocks.yields_flushMemtable rfl rfl (.inr (not_le.mp hlevel))).imp
        (fun _ t ht => ?_) fun _ ht => absurd (hclean (by simpa using htable)) ht.faulty
      rw [ht.engine]
      rfl

end Thread

/-- The flush behind a write is not reached, or it can store the table that it takes. -/
def Flushable (codec : IndexCodec) (s : Engine) (fault : Fault) : Prop :=
  ∀ items ∈ s.snapshot, fault ≠ .table ∧ (SSTable.write codec items.entries).isSome

theorem flushIfNeeded_ne_raised (h : Flushable codec s fault) :
    (flushIfNeeded codec s fault).1 ≠ .raised := by
  unfold flushIfNeeded
  cases hsnapshot : s.snapshot with
  | none => simp
  | some items =>
    obtain ⟨hfault, htable⟩ := h items hsnapshot
    obtain ⟨r, hr⟩ := Option.isSome_iff_exists.mp htable
    simp only [hfault, hr, Option.isNone_some, Bool.false_eq_true, or_self, if_false]
    split_ifs <;> simp

theorem flushIfNeeded_wal (wal : Log) : ∃ wal', flushIfNeeded codec { s with wal := wal } fault =
    ((flushIfNeeded codec s fault).1, { (flushIfNeeded codec s fault).2 with wal := wal' }) := by
  have hsame : ({ s with wal := wal } : Engine).snapshot = s.snapshot := rfl
  unfold flushIfNeeded Engine.flushMemtable
  rw [hsame]
  cases s.snapshot with
  | none => exact ⟨wal, rfl⟩
  | some items =>
    dsimp only
    split_ifs
    · exact ⟨wal, rfl⟩
    · exact ⟨wal.truncate, rfl⟩
    · exact ⟨wal.truncate, rfl⟩

theorem call_wal (codec : IndexCodec) (s : Engine) (c : Call) (fault : Fault) (wal : Log) :
    ∃ wal', call codec { s with wal := wal } c fault =
    ((call codec s c fault).1, { (call codec s c fault).2 with wal := wal' }) := by
  obtain ⟨log, hrun⟩ := run_eq s c
  obtain ⟨log', hrun'⟩ := run_eq { s with wal := wal } c
  have hflush : ∃ wal', flushIfNeeded codec (c.run { s with wal := wal }) fault =
      ((flushIfNeeded codec (c.run s) fault).1,
        { (flushIfNeeded codec (c.run s) fault).2 with wal := wal' }) := by
    rw [hrun', hrun]
    exact flushIfNeeded_wal (s := { s with wal := log, memtable := c.apply s.memtable }) log'
  unfold call
  split
  · split_ifs
    · exact ⟨_, rfl⟩
    · exact hflush
  · exact hflush

def outcomes (codec : IndexCodec) (s : Engine) : List (Call × Fault) → List Outcome
  | [] => []
  | (c, fault) :: rest =>
      (call codec s c fault).1 :: outcomes codec (call codec s c fault).2 rest

theorem outcomes_wal (wal : Log) (calls : List (Call × Fault)) :
    outcomes codec { s with wal := wal } calls = outcomes codec s calls := by
  induction calls generalizing s wal with
  | nil => rfl
  | cons a rest ih =>
    obtain ⟨wal', hcall⟩ := call_wal codec s a.1 a.2 wal
    simp only [outcomes, hcall, ih]

/-- The call in the log that raises is one of those that the call makes. -/
def Interrupts (fault : Fault) (c : Call) : Prop := ∃ n < c.requests.length, fault = .log n

theorem call_of_interrupts (codec : IndexCodec) (s : Engine) (h : Interrupts fault c) :
    ∃ n < c.requests.length,
      call codec s c fault = (.raised, failLog s (c.requests.take n)) := by
  obtain ⟨n, hn, rfl⟩ := h
  exact ⟨n, hn, if_pos hn⟩

theorem call_of_not_interrupts (s : Engine) (h : ¬Interrupts fault c) :
    call codec s c fault = flushIfNeeded codec (c.run s) fault := by
  unfold call
  split
  · rename_i n
    exact if_neg fun hn => h ⟨n, hn, rfl⟩
  · rfl

/-- A client calls the engine, or the process is started again. A blocked one can only be
started again. -/
structure State where
  engine : Engine
  blocked : Bool

inductive Event where
  | call (c : Call) (fault : Fault)
  | flush (fault : Fault)
  | reopen

def init : State := ⟨Engine.create, false⟩

def finished (r : Outcome × Engine) : State := ⟨r.2, r.1 = .blocked⟩

def step (codec : IndexCodec) (s : State) : Event → Option State
  | .call c fault => if s.blocked then none else some (finished (call codec s.engine c fault))
  | .flush fault =>
      if s.blocked then none else some (finished (flushIfNeeded codec s.engine.force fault))
  | .reopen => some ⟨recover s.engine.disk, false⟩

/-- No flush raises, and no single write comes behind a batch without an end in the log. The
numbers of the tables have six digits. -/
def Careful (codec : IndexCodec) (s : State) : Event → Prop
  | .call c fault => Interrupts fault c ∨
      (Flushable codec (c.run s.engine) fault ∧ s.engine.sstSequence < 10 ^ 6 ∧
        ∀ op, c = .write op → (replay s.engine.wal.entries).inBatch = false)
  | .flush fault => Flushable codec s.engine.force fault ∧ s.engine.sstSequence < 10 ^ 6
  | .reopen => True

theorem replay_failLog (s : Engine) (c : Call) {n : Nat} (hn : n < c.requests.length) :
    (replay (failLog s (c.requests.take n)).wal.entries).memtable =
      (replay s.wal.entries).memtable := by
  refine (replay_appendAll_take s.wal c n ?_).trans (if_neg hn.not_ge)
  rintro op rfl
  exact .inl (Nat.lt_one_iff.mp hn)

theorem sound_failLog (h : Sound s) (c : Call) {n : Nat} (hn : n < c.requests.length) :
    Sound (failLog s (c.requests.take n)) :=
  { h with log := (congrArg MemTable.data (replay_failLog s c hn)).trans h.log }

theorem sound_flushIfNeeded (h : Sound s) (hflush : Flushable codec s fault)
    (hten : s.sstSequence < 10 ^ 6) : Sound (flushIfNeeded codec s fault).2 := by
  have hne := flushIfNeeded_ne_raised hflush
  unfold flushIfNeeded Engine.flushMemtable at hne ⊢
  cases hsnapshot : s.snapshot with
  | none => exact h
  | some items =>
    have hinstalled : Sound ((s.newTable items).1.install (s.newTable items).2) :=
      (h.newTable items).install hten (Nat.lt_succ_self _) h.fresh0
    simp only [hsnapshot] at hne ⊢
    split_ifs at hne ⊢
    · exact absurd rfl hne
    · exact hinstalled
    · exact hinstalled

theorem sound_run (h : Sound s)
    (hclosed : ∀ op, c = .write op → (replay s.wal.entries).inBatch = false) :
    Sound (c.run s) := by
  cases c with
  | write op => exact h.write (hclosed op rfl) op
  | batch ops => exact h.writeBatch ops

theorem sound_step {s t : State} {a : Event} (h : Sound s.engine) (ha : Careful codec s a)
    (hstep : step codec s a = some t) : Sound t.engine := by
  cases a with
  | call c fault =>
    obtain ⟨-, ht⟩ := Option.ite_none_left_eq_some.mp hstep
    cases ht
    change Sound (call codec s.engine c fault).2
    by_cases hfault : Interrupts fault c
    · obtain ⟨n, hn, hcall⟩ := call_of_interrupts codec s.engine hfault
      rw [hcall]
      exact sound_failLog h c hn
    · obtain ⟨hflush, hten, hclosed⟩ := ha.resolve_left hfault
      rw [call_of_not_interrupts _ hfault]
      refine sound_flushIfNeeded (sound_run h hclosed) hflush ?_
      obtain ⟨log, hrun⟩ := run_eq s.engine c
      rw [hrun]
      exact hten
  | flush fault =>
    obtain ⟨-, ht⟩ := Option.ite_none_left_eq_some.mp hstep
    cases ht
    refine sound_flushIfNeeded h.force ha.1 ?_
    obtain ⟨limit, hforce⟩ := force_eq s.engine
    rw [hforce]
    exact ha.2
  | reopen =>
    cases hstep
    exact sound_recover h.level0 h.level1

section LongKeys

variable (n : Nat)

theorem length_encodeText_replicate : (encodeText (List.replicate n 'k')).length = n := by
  induction n with
  | zero => rfl
  | succ n ih =>
    rw [List.replicate_succ, encodeText, List.flatMap_cons, List.length_append]
    exact (congrArg _ ih).trans (Nat.add_comm 1 n)

theorem write_eq_none {key value : Text} (hkey : 256 ^ 2 ≤ (encodeText key).length) :
    SSTable.write codec [(key, value)] = none := by
  have hpack : structPack 2 (encodeText key).length = none := if_neg hkey.not_gt
  have hentry : ∀ w : SSTable.SSTableWriter, w.writeEntry (key, value) = none := by
    intro w
    simp [SSTable.SSTableWriter.writeEntry, hpack]
  simp [SSTable.write, SSTable.writeFile, hentry]

theorem raised_of_longKey {key value : Text} (hkey : 256 ^ 2 ≤ (encodeText key).length)
    (hvalue : memtableSizeLimit ≤ value.length) :
    call codec Engine.create (.write (.put key value)) .none =
      (.raised, ((Engine.create.set key value).newTable (SortedMap.empty.insert key value)).1) := by
  have hitems : (SortedMap.empty.insert key value).entries = [(key, value)] := rfl
  have hsnapshot : (Engine.create.set key value).snapshot =
      some (SortedMap.empty.insert key value) := by
    refine if_pos ⟨decide_eq_true ?_, fun hnil => by cases hitems.symm.trans hnil⟩
    change (memtableSizeLimit : Int) ≤ 0 + (key.length + value.length)
    omega
  change flushIfNeeded codec (Engine.create.set key value) .none = _
  rw [flushIfNeeded, hsnapshot]
  simp [hitems, write_eq_none hkey]

end LongKeys

end LiteDB.FailedWrites
