import LiteDB.BatchRecovery

namespace LiteDB.RecencyOrder

open BatchRecovery (Call samplePut)
open List LsmEngine LsmEngine.Engine LsmEngineSpec Runs SortedMaps
open VersionKeys (Text)

def flushed (s : Engine) (t : SSTable) (logRemoved : Bool) : Disk where
  wal := if logRemoved then [] else s.wal.entries
  level0 := s.level0 ++ [t]
  level1 := s.level1

section Compaction

variable {s : Engine} {tables : List SSTable}

theorem ordered_compacted (h : Sound s) (hten : s.sstSequence < 10 ^ 6)
    (htables : tables.Sublist s.level1) : Ordered (tables ++ s.compacted) := by
  have hold : Ordered tables :=
    ⟨h.level1.1.sublist htables, fun x hx => h.level1.2 x (htables.subset hx)⟩
  unfold compacted
  split
  · rwa [append_nil]
  · exact hold.concat (fun x hx => h.fresh x (mem_append_right _ (htables.subset hx))) hten

theorem ordered_removed (h : Sound s) (hten : s.sstSequence < 10 ^ 6) (n : Nat) :
    Ordered (s.removed n).level0 ∧ Ordered (s.removed n).level1 := by
  refine ⟨⟨h.level0.1.sublist (drop_sublist _ _), ?_⟩, ordered_compacted h hten (drop_sublist _ _)⟩
  exact fun x hx => h.level0.2 x (mem_of_mem_drop hx)

theorem sound_compact (h : Sound s) (hten : s.sstSequence < 10 ^ 6) : Sound s.compact := by
  unfold Engine.compact
  split
  · exact h
  · have hordered := ordered_compacted h hten (nil_sublist _)
    refine ⟨h.log, ⟨List.Pairwise.nil, by simp⟩, hordered, ?_⟩
    intro x hx
    simp only [nil_append, compacted] at hx
    split at hx
    · simp at hx
    · rename_i hmerged
      simp [mem_singleton.mp hx, compacted, hmerged]

end Compaction

/-- An engine, and the files of Level 0 that exist, in the order of their creation. -/
structure Store where
  engine : Engine
  files : List SSTable

/-- `set`, `delete` and `write_batch` are a call with a flush behind it. A compaction may
follow a flush, and the process may end between two calls, inside of a flush or inside of
a compaction. -/
inductive Event where
  | run (call : Call)
  | force
  | flush
  | failedFlush
  | compact
  | reopen
  | crashInFlush (logRemoved : Bool)
  | crashInCompaction (n : Nat)

/-- The files that are still there when those of `tables` are. -/
def Store.kept (s : Store) (tables : List SSTable) : List SSTable :=
  s.files.filter fun file => tables.any fun t => t.sequence = file.sequence

def init : Store := ⟨Engine.create, []⟩

def step (s : Store) : Event → Option Store
  | .run call => some { s with engine := call.run s.engine }
  | .force => some { s with engine := s.engine.force }
  | .flush =>
      s.engine.snapshot.map fun items =>
        let next := s.engine.newTable items
        ⟨next.1.install next.2, s.files ++ [next.2]⟩
  | .failedFlush =>
      some { s with engine := { s.engine with sstSequence := s.engine.sstSequence + 1 } }
  | .compact => some ⟨s.engine.compact, if s.engine.level0 = [] then s.files else []⟩
  | .reopen => some { s with engine := recover s.engine.disk }
  | .crashInFlush logRemoved =>
      s.engine.snapshot.map fun items =>
        let table := (s.engine.newTable items).2
        ⟨recover (flushed s.engine table logRemoved), s.files ++ [table]⟩
  | .crashInCompaction n =>
      if s.engine.level0 = [] then none
      else some ⟨recover (s.engine.removed n), s.kept (s.engine.level0.drop n)⟩

/-- A new table gets a number of at most six digits. -/
def SixDigits (s : Store) : Event → Prop
  | .flush | .crashInFlush _ | .compact | .crashInCompaction _ => s.engine.sstSequence < 10 ^ 6
  | _ => True

instance (s : Store) (a : Event) : Decidable (SixDigits s a) := by
  unfold SixDigits
  split <;> infer_instance

/-- What a reopening finds: the files of Level 0 in the order of their creation, a number
for the next table that is above all others, and the values of before. -/
structure Recovers (s : Store) : Prop where
  loaded : (recover s.engine.disk).level0 = s.files
  fresh : ∀ t ∈ (recover s.engine.disk).level0 ++ (recover s.engine.disk).level1,
    t.sequence < (recover s.engine.disk).sstSequence
  values : ∀ key, (recover s.engine.disk).get key = s.engine.get key

/-- The engine has the tables in the order of their creation, and its log is complete. -/
structure Tracks (s : Store) : Prop where
  sound : Sound s.engine
  closed : (replay s.engine.wal.entries).inBatch = false
  files : s.engine.level0 = s.files

section Steps

variable {s t : Store}

theorem kept_drop (h : Ordered s.files) (n : Nat) : s.kept (s.files.drop n) = s.files.drop n := by
  have hpairs := h.1
  rw [← take_append_drop n s.files] at hpairs
  obtain ⟨-, -, hbelow⟩ := pairwise_append.mp hpairs
  unfold Store.kept
  nth_rewrite 2 [← take_append_drop n s.files]
  rw [filter_append, filter_eq_nil_iff.mpr, nil_append, filter_eq_self.mpr]
  · intro file hfile
    exact any_eq_true.mpr ⟨file, hfile, decide_eq_true rfl⟩
  · intro file hfile hany
    obtain ⟨t, ht, heq⟩ := any_eq_true.mp hany
    exact absurd (of_decide_eq_true heq) (hbelow file hfile t ht).ne'

theorem Tracks.run (h : Tracks s) (call : Call) : Tracks { s with engine := call.run s.engine } :=
    by
  cases call with
  | write op =>
    refine ⟨h.sound.write h.closed op, ?_, h.files⟩
    change (replay (s.engine.write op).wal.entries).inBatch = false
    rw [replay_write h.closed]
    exact h.closed
  | batch ops =>
    refine ⟨h.sound.writeBatch ops, ?_, h.files⟩
    change (replay (s.engine.writeBatch ops).wal.entries).inBatch = false
    rw [replay_writeBatch]

theorem Tracks.compact (h : Tracks s) (hten : s.engine.sstSequence < 10 ^ 6) :
    Tracks ⟨s.engine.compact, if s.engine.level0 = [] then s.files else []⟩ := by
  refine ⟨sound_compact h.sound hten, ?_, ?_⟩
  · unfold Engine.compact
    split
    · exact h.closed
    · exact h.closed
  · unfold Engine.compact
    split
    · exact h.files
    · rfl

theorem tracks_recover {d : Disk} {files : List SSTable} (h0 : Ordered d.level0)
    (h1 : Ordered d.level1) (hclosed : (replay d.wal).inBatch = false)
    (hfiles : d.level0 = files) : Tracks ⟨recover d, files⟩ :=
  ⟨sound_recover h0 h1, hclosed, (sortedByName_of_ordered h0).trans hfiles⟩

theorem Tracks.step {a : Event} (h : Tracks s) (ha : SixDigits s a)
    (hstep : step s a = some t) : Tracks t := by
  cases a with
  | run call => exact Option.some.inj hstep ▸ h.run call
  | force =>
    cases hstep
    obtain ⟨limit, hforce⟩ := force_eq s.engine
    refine ⟨h.sound.force, ?_, ?_⟩
    · rw [hforce]
      exact h.closed
    · rw [hforce]
      exact h.files
  | flush =>
    obtain ⟨items, -, rfl⟩ := Option.map_eq_some_iff.mp hstep
    refine ⟨(h.sound.newTable items).install ha (Nat.lt_succ_self _) h.sound.fresh0, rfl, ?_⟩
    exact congrArg (· ++ [_]) h.files
  | failedFlush =>
    cases hstep
    exact ⟨h.sound.newTable SortedMap.empty, h.closed, h.files⟩
  | compact => exact Option.some.inj hstep ▸ h.compact ha
  | reopen =>
    cases hstep
    exact tracks_recover h.sound.level0 h.sound.level1 h.closed h.files
  | crashInFlush logRemoved =>
    obtain ⟨items, -, rfl⟩ := Option.map_eq_some_iff.mp hstep
    refine tracks_recover (h.sound.level0.concat h.sound.fresh0 ha) h.sound.level1 ?_
      (congrArg (· ++ [_]) h.files)
    cases logRemoved with
    | false => exact h.closed
    | true => rfl
  | crashInCompaction n =>
    obtain ⟨-, ⟨⟩⟩ := Option.ite_none_left_eq_some.mp hstep
    obtain ⟨h0, h1⟩ := ordered_removed h.sound ha n
    refine tracks_recover h0 h1 h.closed ?_
    rw [h.files, kept_drop (h.files ▸ h.sound.level0)]
    exact congrArg (List.drop n) h.files

theorem Tracks.recovers (h : Tracks s) : Recovers s where
  loaded := (sortedByName_of_ordered h.sound.level0).trans h.files
  fresh := fun _ ht => lt_nextSstSequence ht
  values := fun key => by rw [get_eq, get_eq, view_recover_disk h.sound]

end Steps

/-- Two versions of a key in two tables, a compaction of them, a crash inside of the flush
of a third version, and a reopening. -/
def threeVersions : List Event :=
  [.run (.write (samplePut "a" "1")), .force, .flush, .run (.write (samplePut "a" "2")), .flush,
    .compact, .run (.write (samplePut "a" "3")), .crashInFlush true,
    .run (.write (samplePut "a" "4")), .force, .flush]

section Millionth

def versioned (sequence : Nat) (value : String) : SSTable :=
  ⟨sequence, SortedMap.empty.insert "a".toList value.toList⟩

def oldTables (n : Nat) : List SSTable := (List.range n).map fun i => versioned i "1"

def stacked (n : Nat) : Store := ⟨⟨MemTable.create, ⟨[], 0⟩, oldTables n, [], n⟩, oldTables n⟩

def filled (n : Nat) (value : String) : Store where
  engine :=
    { memtable :=
        { data := SortedMap.empty.insert "a".toList value.toList
          sizeBytes := 0 + MemTable.entrySize "a".toList value.toList
          sizeLimit := 0 }
      wal := ⟨[(samplePut "a" value).request.entry 0], 1⟩
      level0 := oldTables n
      level1 := []
      sstSequence := n }
  files := oldTables n

def flushedWith (n : Nat) (value : String) : Store where
  engine :=
    { memtable := ⟨SortedMap.empty, 0, 0⟩
      wal := ⟨[], 1⟩
      level0 := oldTables n ++ [versioned n value]
      level1 := []
      sstSequence := n + 1 }
  files := oldTables n ++ [versioned n value]

variable {n : Nat}

theorem ordered_oldTables (hn : n ≤ 10 ^ 6) : Ordered (oldTables n) := by
  refine ⟨pairwise_map.mpr pairwise_lt_range, fun t ht => ?_⟩
  obtain ⟨i, hi, rfl⟩ := mem_map.mp ht
  exact (mem_range.mp hi).trans_le hn

theorem oldTables_succ (n : Nat) : oldTables (n + 1) = oldTables n ++ [versioned n "1"] := by
  rw [oldTables, range_succ, map_append]
  rfl

theorem nextSstSequence_oldTables (n : Nat) : nextSstSequence (oldTables n) = n := by
  induction n with
  | zero => rfl
  | succ n ih =>
    rw [nextSstSequence, oldTables_succ, foldl_append]
    change (if nextSstSequence (oldTables n) ≤ n then n + 1 else _) = n + 1
    rw [ih, if_pos le_rfl]

theorem reaches_flushedWith (n : Nat) (value : String) :
    Reaches step (fun _ _ => True) (stacked n) (flushedWith n value) := by
  have hfilled : Reaches step (fun _ _ => True) (stacked n) (filled n value) :=
    (Reaches.single (a := .run (.write (samplePut "a" value))) trivial rfl).tail
      (a := .force) trivial rfl
  have hfull : (filled n value).engine.memtable.shouldFlush = true := by
    refine decide_eq_true ?_
    change (0 : Int) ≤ 0 + ("a".toList.length + value.toList.length)
    omega
  have hsnapshot : (filled n value).engine.snapshot =
      some (SortedMap.empty.insert "a".toList value.toList) :=
    if_pos ⟨hfull, cons_ne_nil _ _⟩
  refine hfilled.tail (a := .flush) trivial ?_
  simp only [step, hsnapshot, Option.map_some]
  rfl

theorem reaches_stacked (hn : n ≤ 10 ^ 6) : Reaches step (fun _ _ => True) init (stacked n) := by
  induction n with
  | zero => exact Reaches.refl _
  | succ n ih =>
    refine ((ih (by omega)).trans (reaches_flushedWith n "1")).tail (a := .reopen) trivial ?_
    have hsorted := sortedByName_of_ordered (ordered_oldTables hn)
    have hnext := nextSstSequence_oldTables (n + 1)
    simp only [step, recover, Engine.disk, flushedWith, ← oldTables_succ, hsorted]
    change some (Store.mk ⟨_, _, _, _, nextSstSequence (oldTables (n + 1) ++ [])⟩ _) = _
    rw [append_nil, hnext]
    rfl

theorem name_million_lt : (versioned (10 ^ 6) "2").name < (versioned (10 ^ 6 - 1) "1").name := by
  decide +kernel

theorem newest_sortedByName (hpos : 0 < n)
    (hname : (versioned n "2").name < (versioned (n - 1) "1").name) :
    newest (sortedByName (oldTables n ++ [versioned n "2"])) "a".toList = some "1".toList := by
  have hmem : ∀ t, t ∈ sortedByName (oldTables n ++ [versioned n "2"]) ↔
      t ∈ oldTables n ++ [versioned n "2"] := fun t => mem_insertionSort _
  have hpairs : (sortedByName (oldTables n ++ [versioned n "2"])).Pairwise
      fun a b => a.name ≤ b.name := pairwise_insertionSort _ _
  have hlate : versioned (n - 1) "1" ∈ oldTables n :=
    mem_map.mpr ⟨n - 1, mem_range.mpr (by omega), rfl⟩
  rcases eq_nil_or_concat' (sortedByName (oldTables n ++ [versioned n "2"])) with
    hnil | ⟨front, last, heq⟩
  · have := (hmem _).mpr (mem_append_left _ hlate)
    rw [hnil] at this
    exact absurd this not_mem_nil
  · rw [heq] at hmem hpairs ⊢
    rw [newest_append, newest_singleton]
    rcases mem_append.mp ((hmem last).mp (by simp)) with hold | hnew
    · obtain ⟨i, -, rfl⟩ := mem_map.mp hold
      rfl
    · -- the new table cannot be the last one, as the name before it is greater
      obtain rfl := mem_singleton.mp hnew
      rcases mem_append.mp ((hmem _).mpr (mem_append_left _ hlate)) with hfront | hlast
      · have hle := (pairwise_append.mp hpairs).2.2 _ hfront _ (mem_singleton_self _)
        exact absurd hname (not_lt.mpr hle)
      · rw [mem_singleton.mp hlast] at hname
        exact absurd hname (lt_irrefl _)

theorem get_flushedWith (n : Nat) :
    (flushedWith n "2").engine.get "a".toList = some "2".toList := by
  have hview : view (flushedWith n "2").engine "a".toList = some "2".toList := by
    change (newest (oldTables n ++ [versioned n "2"]) "a".toList).or _ = _
    rw [newest_append, newest_singleton]
    rfl
  rw [get_eq, hview]
  rfl

theorem get_recover_flushedWith (hpos : 0 < n)
    (hname : (versioned n "2").name < (versioned (n - 1) "1").name) :
    (recover (flushedWith n "2").engine.disk).get "a".toList = some "1".toList := by
  have hview : view (recover (flushedWith n "2").engine.disk) "a".toList = some "1".toList := by
    change (newest (sortedByName (oldTables n ++ [versioned n "2"])) "a".toList).or _ = _
    rw [newest_sortedByName hpos hname]
    rfl
  rw [get_eq, hview]
  rfl

end Millionth

end LiteDB.RecencyOrder
