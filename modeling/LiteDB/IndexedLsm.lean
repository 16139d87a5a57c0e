import LiteDB.DurableEngines
import LiteDB.ValueIndex

namespace LiteDB.IndexedLsm

open DurableEngines (Source source_of_view)
open List LsmEngine LsmEngine.Engine LsmEngineSpec LsmMap Runs SortedMaps StorageEngines
open ValueIndex
open VersionKeys (Text hiChar sep)
open Wal SortedMap

/-- The engine with its value index. Each write changes the index by the value that the key
had before, and a restart builds the index from a scan. -/
structure IndexedEngine where
  engine : Engine
  index : SecondaryIndex

def change (ix : SecondaryIndex) (old : Option Text) : WriteOp → SecondaryIndex
  | .put key value => ix.update key old value
  | .delete key =>
      match old with
      | some value => ix.remove key value
      | none => ix

namespace IndexedEngine

def write (s : IndexedEngine) (op : WriteOp) : IndexedEngine :=
  ⟨s.engine.write op, change s.index (s.engine.get op.key) op⟩

def applyOp (s : IndexedEngine) (op : WriteOp) : IndexedEngine :=
  ⟨{ s.engine with memtable := op.apply s.engine.memtable },
    change s.index (s.engine.get op.key) op⟩

def writeBatch (s : IndexedEngine) (ops : List WriteOp) : IndexedEngine :=
  ops.foldl applyOp
    { s with engine := { s.engine with wal := s.engine.wal.appendAll (batchRequests ops) } }

def rebuildIndex (engine : Engine) : SecondaryIndex :=
  (engine.scan [] [hiChar]).foldl (fun ix e => ix.add e.1 e.2) SecondaryIndex.create

def findByValueRange (s : IndexedEngine) (lowValue highValue : Text) : List Text :=
  s.index.keysInValueRange lowValue highValue

end IndexedEngine

/-- The engine in its thread, with its index. -/
structure State where
  locks : LsmLocks.State
  index : SecondaryIndex

def State.indexed (s : State) : IndexedEngine := ⟨s.locks.engine, s.index⟩

def started (d : Disk) : State :=
  ⟨{ LsmLocks.init with engine := recover d }, IndexedEngine.rebuildIndex (recover d)⟩

/-- The call of a client without the flush behind it. -/
def IndexedEngine.call (s : IndexedEngine) : LsmLocks.Call → IndexedEngine
  | .set key value => s.write (.put key value)
  | .delete key => s.write (.delete key)
  | .writeBatch ops => s.writeBatch ops
  | .flush | .close => { s with engine := s.engine.force }

inductive Event where
  | call (c : LsmLocks.Call)
  | reopen

def init : State := started ⟨[], [], []⟩

def step (s : State) : Event → Option State
  | .call c => (LsmLocks.step s.locks ⟨c, []⟩).map (⟨·, (s.indexed.call c).index⟩)
  | .reopen => some (started s.locks.engine.disk)

/-- The keys are below the last character, and the values have no separator and are not the
tombstone. -/
def Admitted : WriteOp → Prop
  | .put key value => key < [hiChar] ∧ sep ∉ value ∧ value ≠ tombstone
  | .delete key => key < [hiChar]

instance (op : WriteOp) : Decidable (Admitted op) := by
  induction op using WriteOp.casesOn <;> unfold Admitted <;> infer_instance

def AdmittedCall (_ : State) : Event → Prop
  | .call c => (∀ op ∈ written c, Admitted op) ∧ c ≠ .close
  | .reopen => True

instance (s : State) (a : Event) : Decidable (AdmittedCall s a) := by
  unfold AdmittedCall
  split <;> infer_instance

/-- Besides, no flush fills Level 0. -/
def Roomy (s : State) : Event → Prop
  | .call c => AdmittedCall s (.call c) ∧ LsmLocks.Roomy s.locks ⟨c, []⟩
  | .reopen => True

instance (s : State) (a : Event) : Decidable (Roomy s a) := by
  unfold Roomy
  split <;> infer_instance

section Stored

variable {s : Engine} {m : MemTable} {key value : Text} {op : WriteOp}

theorem sep_notMem_tombstone : sep ∉ tombstone := by decide

def Fit (key value : Text) : Prop := key < [hiChar] ∧ sep ∉ value

theorem fit_stored (h : Admitted op) : Fit op.key op.stored := by
  cases op with
  | put key value => exact ⟨h.1, h.2.1⟩
  | delete key => exact ⟨h, sep_notMem_tombstone⟩

/-- All that is stored or logged can be indexed. -/
structure Fits (s : Engine) : Prop where
  source : ∀ key value, Source s key value → Fit key value
  wal : ∀ e ∈ s.wal.entries, Fit e.key (e.value.getD [])

theorem fits_request (h : Admitted op) (n : Nat) :
    Fit (op.request.entry n).key ((op.request.entry n).value.getD []) := by
  cases op with
  | put key value => exact ⟨h.1, h.2.1⟩
  | delete key => exact ⟨h, not_mem_nil⟩

theorem Fits.applyOp (h : Fits s) (hop : Admitted op) :
    Fits { s with memtable := op.apply s.memtable } := by
  refine ⟨fun key value hsource => ?_, h.wal⟩
  rcases hsource with hmem | htable
  · rw [get?_apply] at hmem
    split at hmem
    · rename_i hkey
      cases hmem
      exact hkey ▸ fit_stored hop
    · exact h.source key value (.inl hmem)
  · exact h.source key value (.inr htable)

theorem Fits.appendAll (h : Fits s) {rs : List Request}
    (hrs : ∀ r ∈ rs, ∀ n, Fit (r.entry n).key ((r.entry n).value.getD [])) :
    Fits { s with wal := s.wal.appendAll rs } := by
  refine ⟨h.source, ?_⟩
  rw [appendAll_entries]
  refine forall_mem_append.mpr ⟨h.wal, ?_⟩
  generalize s.wal.sequence = n
  induction rs generalizing n with
  | nil => simp [stamped]
  | cons r rs ih =>
    rw [forall_mem_cons] at hrs
    exact forall_mem_cons.mpr ⟨hrs.1 n, ih hrs.2 (n + 1)⟩

theorem Fits.flushMemtable (h : Fits s) : Fits s.flushMemtable := by
  unfold Engine.flushMemtable
  cases hsnapshot : s.snapshot with
  | none => exact h
  | some items =>
    refine ⟨fun key value hsource => ?_, by simp [install, Log.truncate]⟩
    rcases hsource with hmem | ⟨t, ht, hget⟩
    · contradiction
    · simp only [install, newTable, mem_append, mem_singleton] at ht
      rcases ht with (ht | rfl) | ht
      · exact h.source key value (.inr ⟨t, mem_append_left _ ht, hget⟩)
      · rw [snapshot_eq_some hsnapshot] at hget
        exact h.source key value (.inl hget)
      · exact h.source key value (.inr ⟨t, mem_append_right _ ht, hget⟩)

theorem Fits.force (h : Fits s) : Fits s.force := by
  obtain ⟨limit, hforce⟩ := force_eq s
  rw [hforce]
  exact ⟨h.source, h.wal⟩

def FitsTable (m : MemTable) : Prop := ∀ key value, m.data.get? key = some value → Fit key value

theorem FitsTable.applyWalEntry (h : FitsTable m) {e : WalEntry}
    (he : Fit e.key (e.value.getD [])) : FitsTable (applyWalEntry m e) := by
  have hset : ∀ value, Fit e.key value → FitsTable (m.set e.key value) := by
    intro value hfit k v hv
    rw [MemTable.set, get?_insert] at hv
    split at hv
    · rename_i hkey
      cases hv
      exact hkey ▸ hfit
    · exact h k v hv
  unfold LsmEngine.applyWalEntry
  split
  · exact hset _ he
  · exact hset tombstone ⟨he.1, sep_notMem_tombstone⟩
  · exact h

theorem fitsTable_foldl {entries : List WalEntry} (h : FitsTable m)
    (hentries : ∀ e ∈ entries, Fit e.key (e.value.getD [])) :
    FitsTable (entries.foldl applyWalEntry m) := by
  induction entries generalizing m with
  | nil => exact h
  | cons e entries ih =>
    rw [forall_mem_cons] at hentries
    exact ih (h.applyWalEntry hentries.1) hentries.2

theorem fitsTable_replay {entries : List WalEntry}
    (hentries : ∀ e ∈ entries, Fit e.key (e.value.getD [])) :
    FitsTable (replay entries).memtable := by
  have hloop : ∀ r : Replay, FitsTable r.memtable ∧ (∀ e ∈ r.batch, Fit e.key (e.value.getD [])) →
      FitsTable (entries.foldl Replay.next r).memtable := by
    induction entries with
    | nil => exact fun r hr => hr.1
    | cons e entries ih =>
      rw [forall_mem_cons] at hentries
      intro r hr
      refine ih hentries.2 (r.next e) ?_
      unfold Replay.next
      split
      · exact ⟨hr.1, by simp⟩
      · exact ⟨fitsTable_foldl hr.1 hr.2, by simp⟩
      · split
        · exact ⟨hr.1, forall_mem_append.mpr ⟨hr.2, forall_mem_singleton.mpr hentries.1⟩⟩
        · exact ⟨hr.1.applyWalEntry hentries.1, hr.2⟩
  exact hloop _ ⟨by simp [FitsTable, MemTable.create], by simp⟩

theorem Fits.reopen (h : Fits s) : Fits (recover s.disk) := by
  refine ⟨fun key value hsource => ?_, h.wal⟩
  rcases hsource with hmem | ⟨t, ht, hget⟩
  · exact fitsTable_replay h.wal key value hmem
  · refine h.source key value (.inr ⟨t, ?_, hget⟩)
    rw [mem_append] at ht ⊢
    exact ht.imp (perm_insertionSort _ _).mem_iff.mp (perm_insertionSort _ _).mem_iff.mp

theorem Fits.of_get (h : Fits s) (hget : s.get key = some value) : Fit key value := by
  rw [get_eq] at hget
  obtain ⟨v, hview, hlive⟩ := Option.bind_eq_some_iff.mp hget
  rw [live] at hlive
  split at hlive
  · contradiction
  · obtain rfl := Option.some.inj hlive
    exact h.source key v (source_of_view hview)

theorem Fits.plain (h : Fits s) : Plain (contents s) := by
  intro key value hget
  rw [get?_contents] at hget
  exact (h.of_get hget).2

end Stored

section Index

variable {c : SortedMap Text Text} {ix : SecondaryIndex} {op : WriteOp} {s : IndexedEngine}

theorem indexes_change (h : Indexes ix c) (hplain : Plain c) (hop : Admitted op) :
    Indexes (change ix (c.get? op.key) op) (c.edit [effect reserved op]) := by
  cases op with
  | put key value =>
    have hedit : c.edit [effect reserved (.put key value)] = c.insert key value := by
      simp [SortedMap.edit, effect, reserved, hop.2.2]
    rw [hedit]
    exact h.update hplain hop.2.1
  | delete key =>
    have hedit : c.edit [effect reserved (.delete key)] = c.erase key := rfl
    rw [hedit, WriteOp.key]
    cases hold : c.get? key with
    | some old => exact h.remove hplain hold
    | none =>
      have herase : c.erase key = c := by
        refine ext_get? fun k => ?_
        rw [get?_erase]
        split
        · rename_i hk
          rw [hk, hold]
        · rfl
      rwa [herase]

/-- The index is that of the contents. -/
structure Inv (s : IndexedEngine) : Prop where
  fits : Fits s.engine
  indexes : Indexes s.index (contents s.engine)

theorem Inv.applyOp (h : Inv s) (hop : Admitted op) : Inv (s.applyOp op) := by
  refine ⟨h.fits.applyOp hop, ?_⟩
  have hchange := indexes_change h.indexes h.fits.plain hop
  rw [get?_contents, ← contents_apply] at hchange
  exact hchange

theorem Inv.appendAll (h : Inv s) {rs : List Request}
    (hrs : ∀ r ∈ rs, ∀ n, Fit (r.entry n).key ((r.entry n).value.getD [])) :
    Inv { s with engine := { s.engine with wal := s.engine.wal.appendAll rs } } :=
  ⟨h.fits.appendAll hrs, h.indexes⟩

variable {ops : List WriteOp}

theorem Inv.foldl_applyOp (h : Inv s) (hops : ∀ op ∈ ops, Admitted op) :
    Inv (ops.foldl IndexedEngine.applyOp s) := by
  induction ops generalizing s with
  | nil => exact h
  | cons op ops ih =>
    rw [forall_mem_cons] at hops
    exact ih (h.applyOp hops.1) hops.2

theorem Inv.write (h : Inv s) (hop : Admitted op) : Inv (s.write op) :=
  (h.appendAll (forall_mem_singleton.mpr (fits_request hop))).applyOp hop

theorem Inv.writeBatch (h : Inv s) (hops : ∀ op ∈ ops, Admitted op) : Inv (s.writeBatch ops) := by
  refine (h.appendAll ?_).foldl_applyOp hops
  have hmark : ∀ operation n, Fit ((Request.mk operation [] none).entry n).key
      (((Request.mk operation [] none).entry n).value.getD []) :=
    fun _ _ => ⟨nil_lt_cons _ _, not_mem_nil⟩
  refine forall_mem_append.mpr ⟨forall_mem_cons.mpr ⟨hmark _, ?_⟩,
    forall_mem_singleton.mpr (hmark _)⟩
  intro r hr
  obtain ⟨op, hop, rfl⟩ := mem_map.mp hr
  exact fits_request (hops op hop)

theorem indexes_foldl_add {l : List (Text × Text)} (h : Indexes ix c) (hplain : Plain c)
    (hvalues : ∀ e ∈ l, sep ∉ e.2) (hnew : ∀ e ∈ l, c.get? e.1 = none)
    (hnodup : (l.map Prod.fst).Nodup) :
    Indexes (l.foldl (fun ix e => ix.add e.1 e.2) ix) (c.insertAll l) := by
  induction l generalizing ix c with
  | nil => exact h
  | cons e l ih =>
    rw [forall_mem_cons] at hvalues hnew
    rw [map_cons, nodup_cons] at hnodup
    refine ih (h.add hplain hvalues.1 hnew.1) (hplain.insert hvalues.1) hvalues.2
      (fun x hx => ?_) hnodup.2
    rw [get?_insert]
    split
    · rename_i heq
      exact absurd (heq ▸ mem_map_of_mem hx) hnodup.1
    · exact hnew.2 x hx

theorem indexes_rebuildIndex {engine : Engine} (h : Fits engine) :
    Indexes (IndexedEngine.rebuildIndex engine) (contents engine) := by
  have hget : ∀ e ∈ (contents engine).entries, Fit e.1 e.2 := by
    intro e he
    have hcontents := get?_eq_some_iff.mpr he
    rw [get?_contents] at hcontents
    exact h.of_get hcontents
  have hall : engine.scan [] [hiChar] = (contents engine).entries := by
    rw [scan_eq_contents, SortedMap.scan, filter_eq_self]
    exact fun e he => by simpa using ⟨not_lt.mp (not_lt_nil _), (hget e he).1.le⟩
  have hfold := indexes_foldl_add indexes_create (fun _ _ => by simp)
    (fun e he => (hget e he).2) (fun _ _ => rfl) (contents engine).nodup_keys
  have hinsert : SortedMap.empty.insertAll (contents engine).entries = contents engine :=
    ext_get? fun key => by simp [get?_insertAll]
  rw [hinsert] at hfold
  rw [IndexedEngine.rebuildIndex, hall]
  exact hfold

theorem foldl_applyOp_engine (s : IndexedEngine) (ops : List WriteOp) :
    (ops.foldl IndexedEngine.applyOp s).engine =
      { s.engine with memtable := ops.foldl WriteOp.apply s.engine.memtable } := by
  induction ops generalizing s with
  | nil => rfl
  | cons op ops ih => exact ih (s.applyOp op)

theorem call_engine (s : IndexedEngine) (c : LsmLocks.Call) :
    (s.call c).engine = c.prepared s.engine := by
  cases c with
  | writeBatch ops => exact foldl_applyOp_engine _ ops
  | set | delete | flush | close => rfl

theorem Inv.call (h : Inv s) {c : LsmLocks.Call} (hc : ∀ op ∈ written c, Admitted op) :
    Inv (s.call c) := by
  cases c with
  | set key value => exact h.write (forall_mem_singleton.mp hc)
  | delete key => exact h.write (forall_mem_singleton.mp hc)
  | writeBatch ops => exact h.writeBatch hc
  | flush | close => exact ⟨h.fits.force, (contents_force s.engine).symm ▸ h.indexes⟩

end Index

/-- The engine is free and its index is that of its contents. -/
structure Indexed (s : State) : Prop where
  free : LsmLocks.Free s.locks
  opened : s.locks.closed = false
  inv : Inv s.indexed

theorem indexed_started {d : Disk} (h : Fits (recover d)) : Indexed (started d) :=
  ⟨⟨rfl, rfl, rfl⟩, rfl, h, indexes_rebuildIndex h⟩

theorem indexed_init : Indexed init := by
  refine indexed_started ⟨fun key value hsource => ?_, by simp [recover, Log.init]⟩
  rcases hsource with hmem | ⟨t, ht, -⟩
  · contradiction
  · contradiction

theorem Indexed.step {s t : State} {a : Event} (h : Indexed s) (ha : Roomy s a)
    (hstep : step s a = some t) : Indexed t := by
  cases a with
  | call c =>
    obtain ⟨locks, hlocks, rfl⟩ := Option.map_eq_some_iff.mp hstep
    obtain ⟨_, hstep', hfree, hopen, hengine⟩ :=
      LsmLocks.exists_step_of_free h.free h.opened ha.2 ha.1.2
    cases hlocks.symm.trans hstep'
    have hcall := h.inv.call ha.1.1
    have hcallEngine : (s.indexed.call c).engine = c.prepared s.locks.engine := call_engine _ c
    rw [← hcallEngine] at hengine
    refine ⟨hfree, hopen, ?_, ?_⟩
    · change Fits locks.engine
      exact hengine ▸ hcall.fits.flushMemtable
    · change Indexes _ (contents locks.engine)
      rw [hengine, contents_flushMemtable]
      exact hcall.indexes
  | reopen =>
    cases hstep
    exact indexed_started h.inv.fits.reopen

/-- No call is left waiting, the index finds the keys whose present value is in a range, each
of them once, and it has one entry for each key with a value. -/
theorem finds_live_keys {s : State} (h : Reaches step Roomy init s) :
    s.locks.blocked = false ∧
    (∀ low high, sep ∉ high → (s.indexed.findByValueRange low high).Nodup ∧
      ∀ key, key ∈ s.indexed.findByValueRange low high ↔
        ∃ value, s.locks.engine.get key = some value ∧ low ≤ value ∧ value ≤ high) ∧
    ∃ live : List Text, live.Nodup ∧ (∀ key, key ∈ live ↔ (s.locks.engine.get key).isSome) ∧
      s.index.size = live.length := by
  have hindexed : Indexed s :=
    h.invariant Indexed indexed_init fun _ _ _ hs ha hstep => hs.step ha hstep
  have hinv := hindexed.inv
  refine ⟨hindexed.free.running,
    fun low high hhigh => ⟨hinv.indexes.nodup_keysInValueRange low high, fun key => ?_⟩,
    (contents s.locks.engine).entries.map Prod.fst, (contents s.locks.engine).nodup_keys,
    fun key => ?_, ?_⟩
  · simp only [← get?_contents]
    exact hinv.indexes.mem_keysInValueRange hinv.fits.plain hhigh
  · rw [← get?_contents, mem_map_fst]
  · rw [length_map]
    exact hinv.indexes.entries

/-- Several writes to one key inside and outside of a batch, a key with a separator in it,
three flushes and a restart. -/
def rewritten : List Event :=
  [.call (.set ['a'] ['x']),
    .call (.writeBatch [.put ['a'] ['y'], .put ['b', sep] ['x'], .put ['a'] ['x']]),
    .call (.set ['c'] ['z']), .call .flush, .call (.delete ['c']), .call (.set ['d'] ['w']),
    .reopen]

theorem finds_live_keys_of_rewritten : ∃ s, Reaches step Roomy init s ∧
    s.locks.engine.level0.length = 3 ∧ ['b', sep] ∈ s.indexed.findByValueRange ['x'] ['x'] ∧
    ['c'] ∉ s.indexed.findByValueRange ['x'] ['z'] := by
  obtain ⟨s, hs, htables, hb, hc⟩ := exists_reaches step Roomy init rewritten
    (fun s => s.locks.engine.level0.length = 3 ∧
      s.locks.engine.get ['b', sep] = some ['x'] ∧ s.locks.engine.get ['c'] = none)
    (by decide +kernel)
  have hfind := (finds_live_keys hs).2.1
  refine ⟨s, hs, htables, ((hfind ['x'] ['x'] (by decide)).2 _).mpr ⟨['x'], hb, le_rfl, le_rfl⟩, ?_⟩
  intro hmem
  obtain ⟨value, hvalue, -⟩ := ((hfind ['x'] ['z'] (by decide)).2 _).mp hmem
  rw [hc] at hvalue
  contradiction

/-- The limit is back to its default behind a restart, and a fourth flush is one that a client
asks for: it waits for its own lock, and the index is never asked again. -/
theorem not_finds_of_fourthFlush :
    ¬∀ s, Reaches step AdmittedCall init s → s.locks.blocked = false := by
  intro hall
  obtain ⟨s, hs, htest⟩ := exists_reaches step AdmittedCall init
    (rewritten ++ [.call (.set ['a'] ['z']), .call .flush]) (·.locks.blocked) (by decide +kernel)
  simp [hall s hs] at htest

end LiteDB.IndexedLsm
