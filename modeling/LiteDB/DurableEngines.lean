import LiteDB.BatchRecovery
import LiteDB.LsmMap

namespace LiteDB.DurableEngines

open BatchRecovery (Call interrupted replay_appendAll_take)
open List LsmEngine LsmEngine.Engine LsmEngineSpec LsmMap SortedMaps StorageEngines
open VersionKeys (Text)

def putAll (c : SortedMap Text Text) (ops : List WriteOp) : SortedMap Text Text :=
  c.edit (ops.map (effect fun _ => false))

/-- The operations put different keys that the map does not have. -/
structure Fresh (stores : Text → Prop) (c : SortedMap Text Text) (ops : List WriteOp) : Prop where
  nodup : (ops.map WriteOp.key).Nodup
  puts : ∀ op ∈ ops, ∃ key value, op = .put key value ∧ c.get? key = none ∧ stores value

/-- `reopen` is what a crash behind `n` log entries of a batch and the next start make of
an engine, `stores` says which values it can hold, and `Shows` which map it stands for. -/
structure DurableEngine extends Backend where
  reopen : State → List WriteOp → Nat → State
  stores : Text → Prop
  atomic : Prop
  Shows : State → SortedMap Text Text → Prop
  scan_eq : ∀ {s c}, Shows s c → ∀ lo hi, scan s lo hi = c.scan lo hi
  shows_writeBatch : ∀ {s c ops}, Shows s c → Fresh stores c ops →
    Shows (writeBatch s ops) (putAll c ops)
  shows_maintain : ∀ {s c}, Shows s c → ∀ m, Shows (maintain s m) c
  shows_reopen : ∀ {s c ops}, Shows s c → Fresh stores c ops → ∀ n,
    ∃ k, (atomic → k = 0 ∨ ops.length ≤ k) ∧ Shows (reopen s ops n) (putAll c (ops.take k))

instance : Coe DurableEngine Backend := ⟨DurableEngine.toBackend⟩

section Lsm

def Source (s : Engine) (key value : Text) : Prop :=
  s.memtable.data.get? key = some value ∨ ∃ t ∈ s.level0 ++ s.level1, t.get key = some value

/-- No key has two values, so that the order of the tables does not matter. -/
structure Steady (s : Engine) : Prop where
  log : (replay s.wal.entries).memtable.data = s.memtable.data
  agree : ∀ key v w, Source s key v → Source s key w → v = w
  live : ∀ key v, Source s key v → v ≠ tombstone

variable {s s' : Engine} {key value : Text} {tables : List SSTable}

theorem exists_of_newest (h : newest tables key = some value) :
    ∃ t ∈ tables, t.get key = some value := by
  obtain ⟨t, ht, hget⟩ := exists_of_findSome?_eq_some h
  exact ⟨t, mem_reverse.mp ht, hget⟩

theorem isSome_newest {t : SSTable} (ht : t ∈ tables) (h : t.get key = some value) :
    (newest tables key).isSome := by
  rw [newest, findSome?_isSome_iff]
  exact ⟨t, mem_reverse.mpr ht, by simp [h]⟩

theorem source_of_view (h : view s key = some value) : Source s key value := by
  rw [view, Option.or_eq_some_iff] at h
  rcases h with h | ⟨-, h⟩
  · exact .inl h
  · rw [Option.or_eq_some_iff] at h
    rcases h with h | ⟨-, h⟩ <;> obtain ⟨t, ht, hget⟩ := exists_of_newest h
    · exact .inr ⟨t, mem_append_left _ ht, hget⟩
    · exact .inr ⟨t, mem_append_right _ ht, hget⟩

theorem isSome_view (h : Source s key value) : (view s key).isSome := by
  simp only [view, Option.isSome_or, Bool.or_eq_true]
  rcases h with h | ⟨t, ht, hget⟩
  · exact .inl (by rw [h]; rfl)
  · rcases mem_append.mp ht with ht | ht
    · exact .inr (.inl (isSome_newest ht hget))
    · exact .inr (.inr (isSome_newest ht hget))

theorem Steady.get_eq_some_iff (h : Steady s) : s.get key = some value ↔ Source s key value := by
  rw [get_eq]
  constructor
  · intro hget
    obtain ⟨v, hview, hlive⟩ := Option.bind_eq_some_iff.mp hget
    rw [Engine.live] at hlive
    split at hlive <;> cases hlive
    exact source_of_view hview
  · intro hsource
    obtain ⟨v, hview⟩ := Option.isSome_iff_exists.mp (isSome_view hsource)
    obtain rfl := h.agree key v value (source_of_view hview) hsource
    rw [hview, Option.bind_some, Engine.live, if_neg (h.live key v hsource)]

theorem contents_of_source (h : Steady s) (h' : Steady s')
    (hiff : ∀ key value, Source s' key value ↔ Source s key value) : contents s' = contents s := by
  refine SortedMap.ext_get? fun key => Option.ext fun value => ?_
  rw [get?_contents, get?_contents, h.get_eq_some_iff, h'.get_eq_some_iff, hiff]

theorem Steady.congr (h : Steady s)
    (hlog : (replay s'.wal.entries).memtable.data = s'.memtable.data)
    (hiff : ∀ key value, Source s' key value ↔ Source s key value) : Steady s' where
  log := hlog
  agree key v w hv hw := h.agree key v w ((hiff key v).mp hv) ((hiff key w).mp hw)
  live key v hv := h.live key v ((hiff key v).mp hv)

theorem steady_create : Steady Engine.create := by
  have hnone : ∀ key v, ¬ Source Engine.create key v := by
    rintro key v (hmem | ⟨t, ht, -⟩)
    · cases hmem
    · cases ht
  exact ⟨rfl, fun key v _ hv => absurd hv (hnone key v), fun key v hv => absurd hv (hnone key v)⟩

section Batches

variable {ops : List WriteOp} (h : Steady s) (hfresh : Fresh (· ≠ tombstone) (contents s) ops)

include h hfresh in
theorem not_source_of_fresh (hput : .put key value ∈ ops) (v : Text) : ¬ Source s key v := by
  obtain ⟨k, w, heq, hnone, -⟩ := hfresh.puts _ hput
  obtain ⟨rfl, rfl⟩ := WriteOp.put.inj heq
  rw [get?_contents] at hnone
  rw [← h.get_eq_some_iff, hnone]
  simp

theorem data_foldl_eq_edit (m : MemTable) (ops : List WriteOp) :
    (ops.foldl WriteOp.apply m).data =
      m.data.edit (ops.map fun op => (op.key, some op.stored)) := by
  induction ops generalizing m with
  | nil => rfl
  | cons op ops ih =>
    rw [foldl_cons, ih, data_apply]
    rfl

include hfresh in
theorem mem_edits_iff : (key, some value) ∈ ops.map (fun op => (op.key, some op.stored)) ↔
    .put key value ∈ ops := by
  rw [mem_map]
  constructor
  · rintro ⟨op, hop, heq⟩
    obtain ⟨k, w, rfl, -⟩ := hfresh.puts op hop
    obtain ⟨rfl, ⟨⟩⟩ := Prod.mk.inj heq
    exact hop
  · exact fun hop => ⟨_, hop, rfl⟩

include h hfresh in
theorem source_of_batch (hdata : s'.memtable.data = (ops.foldl WriteOp.apply s.memtable).data)
    (htables : ∀ t, t ∈ s'.level0 ++ s'.level1 ↔ t ∈ s.level0 ++ s.level1) :
    Source s' key value ↔ Source s key value ∨ .put key value ∈ ops := by
  have hnodup : ((ops.map fun op => (op.key, some op.stored)).map Prod.fst).Nodup := by
    rw [map_map]
    exact hfresh.nodup
  simp only [Source, hdata, htables, data_foldl_eq_edit, SortedMap.get?_edit,
    edited_eq_some_iff hnodup, mem_edits_iff hfresh]
  constructor
  · rintro ((hput | ⟨-, hmem⟩) | htable)
    · exact .inr hput
    · exact .inl (.inl hmem)
    · exact .inl (.inr htable)
  · rintro ((hmem | htable) | hput)
    · refine .inl (.inr ⟨fun hkey => ?_, hmem⟩)
      obtain ⟨⟨k, w⟩, he, rfl⟩ := mem_map.mp hkey
      obtain ⟨op, hop, heq⟩ := mem_map.mp he
      obtain ⟨k', w', rfl, -⟩ := hfresh.puts op hop
      obtain ⟨rfl, -⟩ := Prod.mk.inj heq
      exact not_source_of_fresh h hfresh hop value (.inl hmem)
    · exact .inr htable
    · exact .inl (.inl hput)

include h hfresh in
theorem Steady.batch (hlog : (replay s'.wal.entries).memtable.data = s'.memtable.data)
    (hiff : ∀ key value, Source s' key value ↔ Source s key value ∨ .put key value ∈ ops) :
    Steady s' where
  log := hlog
  agree key v w hv hw := by
    rcases (hiff key v).mp hv with hv | hv <;> rcases (hiff key w).mp hw with hw | hw
    · exact h.agree key v w hv hw
    · exact absurd hv (not_source_of_fresh h hfresh hw v)
    · exact absurd hw (not_source_of_fresh h hfresh hv w)
    · have hsame := inj_on_of_nodup_map hfresh.nodup hv hw rfl
      exact (WriteOp.put.inj hsame).2
  live key v hv := by
    rcases (hiff key v).mp hv with hv | hv
    · exact h.live key v hv
    · obtain ⟨k, w, heq, -, hvalue⟩ := hfresh.puts _ hv
      obtain ⟨rfl, rfl⟩ := WriteOp.put.inj heq
      exact hvalue

include hfresh in
theorem contents_writeBatch_eq_putAll : contents (s.writeBatch ops) = putAll (contents s) ops := by
  rw [LsmMap.contents_writeBatch, putAll]
  congr 1
  refine map_congr_left fun op hop => ?_
  obtain ⟨k, w, rfl, -, hvalue⟩ := hfresh.puts op hop
  simp [effect, reserved, hvalue]

include h hfresh in
theorem Steady.writeBatch : Steady (s.writeBatch ops) := by
  refine h.batch hfresh ?_ fun key value => source_of_batch h hfresh rfl fun t => Iff.rfl
  rw [replay_writeBatch]
  exact data_foldl_apply h.log ops

end Batches

theorem Steady.flushMemtable (h : Steady s) : Steady s.flushMemtable := by
  unfold Engine.flushMemtable
  cases hsnapshot : s.snapshot with
  | none => exact h
  | some items =>
    have hitems : items = s.memtable.data := snapshot_eq_some hsnapshot
    refine h.congr rfl fun key value => ?_
    simp only [Source, install, newTable, MemTable.clear, SortedMap.get?_empty, mem_append,
      mem_singleton, hitems, reduceCtorEq, false_or]
    constructor
    · rintro ⟨t, (ht | rfl) | ht, hget⟩
      · exact .inr ⟨t, .inl ht, hget⟩
      · exact .inl hget
      · exact .inr ⟨t, .inr ht, hget⟩
    · rintro (hmem | ⟨t, ht | ht, hget⟩)
      · exact ⟨_, .inl (.inr rfl), hmem⟩
      · exact ⟨t, .inl (.inl ht), hget⟩
      · exact ⟨t, .inr ht, hget⟩

theorem Steady.get?_merged_iff (h : Steady s) :
    s.merged.get? key = some value ↔ ∃ t ∈ s.level0 ++ s.level1, t.get key = some value := by
  rw [get?_merged, Option.filter_eq_some_iff, Option.or_eq_some_iff]
  constructor
  · rintro ⟨hnewest | ⟨-, hnewest⟩, -⟩ <;> obtain ⟨t, ht, hget⟩ := exists_of_newest hnewest
    · exact ⟨t, mem_append_left _ ht, hget⟩
    · exact ⟨t, mem_append_right _ ht, hget⟩
  · rintro ⟨t, ht, hget⟩
    have hsource : Source s key value := .inr ⟨t, ht, hget⟩
    refine ⟨?_, by simpa using h.live key value hsource⟩
    have hsame : ∀ {tables : List SSTable} {v : Text}, (∀ t ∈ tables, t ∈ s.level0 ++ s.level1) →
        newest tables key = some v → v = value := fun hsub hnewest => by
      obtain ⟨u, hu, hv⟩ := exists_of_newest hnewest
      exact h.agree key _ _ (.inr ⟨u, hsub u hu, hv⟩) hsource
    cases h0 : newest s.level0 key with
    | some v => exact .inl (by rw [hsame (fun u hu => mem_append_left _ hu) h0])
    | none =>
      refine .inr ⟨rfl, ?_⟩
      rcases mem_append.mp ht with ht | ht
      · have hsome := isSome_newest ht hget
        rw [h0] at hsome
        cases hsome
      · obtain ⟨v, h1⟩ := Option.isSome_iff_exists.mp (isSome_newest ht hget)
        rw [h1, hsame (fun u hu => mem_append_right _ hu) h1]

theorem mem_compacted_iff : (∃ t ∈ s.compacted, t.get key = some value) ↔
    s.merged.get? key = some value := by
  rw [← newest_compacted]
  constructor
  · rintro ⟨t, ht, hget⟩
    unfold compacted at ht ⊢
    split at ht
    · cases ht
    · obtain rfl := mem_singleton.mp ht
      rw [if_neg ‹_›, newest_singleton]
      exact hget
  · exact exists_of_newest

theorem Steady.compact (h : Steady s) : Steady s.compact := by
  unfold Engine.compact
  split
  · exact h
  · refine h.congr h.log fun key value => ?_
    simp only [Source, nil_append, mem_compacted_iff, h.get?_merged_iff]

theorem Steady.maintain (h : Steady s) (m : Maintenance) : Steady (maintain s m) := by
  cases m with
  | force =>
    obtain ⟨limit, hforce⟩ := force_eq s
    change Steady s.force
    rw [hforce]
    exact h.congr h.log fun _ _ => Iff.rfl
  | flush => exact h.flushMemtable
  | failedFlush => exact h.congr h.log fun _ _ => Iff.rfl
  | compact => exact h.compact

section Reopening

variable {ops : List WriteOp} {n : Nat}

theorem data_reopen (h : Steady s) :
    (recover (interrupted s (.batch ops) n)).memtable.data =
      if ops.length + 2 ≤ n then (ops.foldl WriteOp.apply s.memtable).data
      else s.memtable.data := by
  have hreplay := replay_appendAll_take s.wal (.batch ops) n fun op hop => by cases hop
  have hlen : (Call.batch ops).requests.length = ops.length + 2 := by
    simp [Call.requests, batchRequests]
  rw [hlen] at hreplay
  have hmemtable : (recover (interrupted s (.batch ops) n)).memtable =
      (replay (s.wal.appendAll ((Call.batch ops).requests.take n)).entries).memtable := rfl
  rw [hmemtable, hreplay]
  split
  · exact data_foldl_apply h.log ops
  · exact h.log

theorem mem_tables_reopen (t : SSTable) :
    t ∈ (recover (interrupted s (.batch ops) n)).level0 ++
        (recover (interrupted s (.batch ops) n)).level1 ↔ t ∈ s.level0 ++ s.level1 := by
  rw [mem_append, mem_append]
  exact or_congr (perm_insertionSort _ _).mem_iff (perm_insertionSort _ _).mem_iff

theorem Steady.reopen (h : Steady s) (hfresh : Fresh (· ≠ tombstone) (contents s) ops) (n : Nat) :
    Steady (recover (interrupted s (.batch ops) n)) ∧
      contents (recover (interrupted s (.batch ops) n)) =
        putAll (contents s) (ops.take (if ops.length + 2 ≤ n then ops.length else 0)) := by
  have hdata : (recover (interrupted s (.batch ops) n)).memtable.data = _ := data_reopen h
  split at hdata
  · rename_i hfull
    have hiff : ∀ key value, Source (recover (interrupted s (.batch ops) n)) key value ↔
        Source s key value ∨ .put key value ∈ ops := fun key value =>
      source_of_batch h hfresh hdata mem_tables_reopen
    have hsteady := h.batch hfresh rfl hiff
    refine ⟨hsteady, ?_⟩
    rw [if_pos hfull, take_length, ← contents_writeBatch_eq_putAll hfresh]
    refine contents_of_source (h.writeBatch hfresh) hsteady fun key value => ?_
    have hbatch : Source (s.writeBatch ops) key value ↔ _ :=
      source_of_batch h hfresh rfl fun t => Iff.rfl
    exact (hiff key value).trans hbatch.symm
  · rename_i hpart
    have hiff : ∀ key value, Source (recover (interrupted s (.batch ops) n)) key value ↔
        Source s key value := fun key value => by
      simp only [Source, hdata, mem_tables_reopen]
    have hsteady := h.congr rfl hiff
    refine ⟨hsteady, ?_⟩
    rw [if_neg hpart, contents_of_source h hsteady hiff]
    rfl

end Reopening

/-- The LSM engine, whose marker for deletions cannot be stored as a value. -/
def durableLsm : DurableEngine where
  toBackend := lsmEngine
  reopen s ops n := recover (interrupted s (.batch ops) n)
  stores := (· ≠ tombstone)
  atomic := True
  Shows s c := Steady s ∧ c = contents s
  scan_eq h lo hi := by
    obtain ⟨-, rfl⟩ := h
    exact scan_eq_contents _ lo hi
  shows_writeBatch h hfresh := by
    obtain ⟨hs, rfl⟩ := h
    exact ⟨hs.writeBatch hfresh, (contents_writeBatch_eq_putAll hfresh).symm⟩
  shows_maintain h m := by
    obtain ⟨hs, rfl⟩ := h
    exact ⟨hs.maintain m, (LsmMap.contents_maintain _ m).symm⟩
  shows_reopen h hfresh n := by
    obtain ⟨hs, rfl⟩ := h
    obtain ⟨hsteady, hcontents⟩ := hs.reopen hfresh n
    refine ⟨_, fun _ => ?_, hsteady, hcontents.symm⟩
    split
    · exact .inr le_rfl
    · exact .inl rfl

end Lsm

end LiteDB.DurableEngines
