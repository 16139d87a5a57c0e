import LiteDB.LsmEngine

namespace LiteDB.LsmEngineSpec

open List hiding lookup lookup_append
open LsmEngine LsmEngine.Engine Option SortedMaps
open VersionKeys (Text)
open Wal

section Tables

variable {key : Text}

@[simp] theorem newest_nil : newest [] key = none := rfl

theorem newest_append (l l' : List SSTable) :
    newest (l ++ l') key = (newest l' key).or (newest l key) := by
  simp [newest, findSome?_append]

theorem newest_singleton (t : SSTable) : newest [t] key = t.get key := by
  simp [newest]

theorem get?_allEntries (s : Engine) :
    s.allEntries.get? key = (newest s.level0 key).or (newest s.level1 key) := by
  have hfold : ∀ (tables : List SSTable) (m : SortedMap Text Text),
      (tables.foldl (fun m t => m.insertAll t.items.entries) m).get? key =
        (newest tables key).or (m.get? key) := by
    intro tables
    induction tables with
    | nil => exact fun _ => rfl
    | cons t tables ih =>
      intro m
      have hcons : newest (t :: tables) key = (newest tables key).or (t.get key) := by
        rw [← newest_singleton t, ← newest_append, singleton_append]
      rw [foldl_cons, ih, SortedMap.get?_insertAll, hcons, Option.or_assoc]
      rfl
  rw [allEntries, hfold, newest_append, SortedMap.get?_empty, or_none]

theorem get?_merged (s : Engine) :
    s.merged.get? key =
      ((newest s.level0 key).or (newest s.level1 key)).filter (· ≠ tombstone) := by
  rw [merged, SortedMap.get?_filter, get?_allEntries]

theorem newest_compacted (s : Engine) : newest s.compacted key = s.merged.get? key := by
  unfold compacted
  split
  · rename_i hempty
    symm
    simp [SortedMap.get?_eq_none_iff, hempty]
  · exact newest_singleton _

end Tables

section Reads

def view (s : Engine) (key : Text) : Option Text :=
  (s.memtable.data.get? key).or ((newest s.level0 key).or (newest s.level1 key))

theorem get_eq (s : Engine) (key : Text) : s.get key = (view s key).bind live := by
  unfold Engine.get view MemTable.get
  cases s.memtable.data.get? key with
  | some value => rfl
  | none =>
    cases newest s.level0 key with
    | some value => rfl
    | none => cases newest s.level1 key <;> rfl

theorem data_apply (m : MemTable) (op : WriteOp) :
    (op.apply m).data = m.data.insert op.key op.stored := by
  cases op <;> rfl

theorem data_foldl_apply {m m' : MemTable} (h : m.data = m'.data) (ops : List WriteOp) :
    (ops.foldl WriteOp.apply m).data = (ops.foldl WriteOp.apply m').data := by
  induction ops generalizing m m' with
  | nil => exact h
  | cons op ops ih => exact ih (by rw [data_apply, data_apply, h])

theorem get?_apply (m : MemTable) (op : WriteOp) (key : Text) :
    (op.apply m).data.get? key = if key = op.key then some op.stored else m.data.get? key := by
  rw [data_apply, SortedMap.get?_insert]
  congr

theorem view_memtable (s : Engine) (op : WriteOp) (key : Text) :
    view { s with memtable := op.apply s.memtable } key =
      if key = op.key then some op.stored else view s key := by
  simp only [view, get?_apply]
  split <;> rfl

/-- The loop over the items keeps the first one for each key, because the priorities
do not decrease. -/
theorem get?_foldl_keepNewest (items : List (Text × Text × Nat))
    (seen : SortedMap Text (Text × Nat)) (key : Text)
    (hitems : items.Pairwise fun a b => a.2.2 ≤ b.2.2)
    (hseen : ∀ k old, seen.get? k = some old → ∀ x ∈ items, old.2 ≤ x.2.2) :
    (items.foldl keepNewest seen).get? key = (seen.get? key).or (lookup items key) := by
  induction items generalizing seen with
  | nil => simp [lookup]
  | cons x items ih =>
    rw [pairwise_cons] at hitems
    have hkeep : keepNewest seen x =
        if seen.get? x.1 = none then seen.insert x.1 x.2 else seen := by
      unfold keepNewest
      cases hx : seen.get? x.1 with
      | none => rfl
      | some old =>
        have hle := hseen x.1 old hx x mem_cons_self
        simp [Nat.not_lt.mpr hle]
    rw [foldl_cons, hkeep]
    have hlookup : lookup (x :: items) key =
        if x.1 = key then some x.2 else lookup items key := by
      by_cases hx : x.1 = key <;> simp [lookup, hx]
    split
    · rename_i hnone
      rw [ih _ hitems.2 ?_, SortedMap.get?_insert, hlookup]
      · by_cases hx : key = x.1
        · subst hx
          simp [hnone]
        · simp [hx, Ne.symm hx]
      · intro k old hk y hy
        rw [SortedMap.get?_insert] at hk
        split at hk
        · cases hk
          exact hitems.1 y hy
        · exact hseen k old hk y (mem_cons_of_mem _ hy)
    · rename_i hsome
      rw [ih _ hitems.2 fun k old hk y hy => hseen k old hk y (mem_cons_of_mem _ hy), hlookup]
      by_cases hx : x.1 = key
      · subst hx
        obtain ⟨old, hold⟩ := ne_none_iff_exists'.mp hsome
        simp [hold]
      · simp [hx]

variable {lo hi : Text} {s : Engine}

theorem le_of_mem_prioritized {p : Nat} {tables : List SSTable} {x : Text × Text × Nat}
    (h : x ∈ prioritized lo hi p tables) : p ≤ x.2.2 := by
  induction tables generalizing p with
  | nil => simp [prioritized] at h
  | cons t tables ih =>
    rcases mem_append.mp h with h | h
    · obtain ⟨e, -, rfl⟩ := mem_map.mp h
      exact le_rfl
    · exact (Nat.le_succ p).trans (ih h)

theorem pairwise_prioritized (lo hi : Text) (p : Nat) (tables : List SSTable) :
    (prioritized lo hi p tables).Pairwise fun a b => a.2.2 ≤ b.2.2 := by
  induction tables generalizing p with
  | nil => exact List.Pairwise.nil
  | cons t tables ih =>
    rw [prioritized, pairwise_append]
    refine ⟨?_, ih (p + 1), ?_⟩
    · rw [pairwise_map]
      exact pairwise_of_forall fun _ _ => le_rfl
    · intro a ha b hb
      obtain ⟨e, -, rfl⟩ := mem_map.mp ha
      exact (Nat.le_succ p).trans (le_of_mem_prioritized hb)

theorem lookup_prioritized (lo hi : Text) (p : Nat) (tables : List SSTable) (key : Text) :
    (lookup (prioritized lo hi p tables) key).map Prod.fst =
      if lo ≤ key ∧ key ≤ hi then tables.findSome? (fun t => t.get key) else none := by
  induction tables generalizing p with
  | nil => simp [prioritized, lookup]
  | cons t tables ih =>
    rw [prioritized, lookup_append, lookup_map (fun v => (v, p)), SortedMap.lookup_scan]
    by_cases hrange : lo ≤ key ∧ key ≤ hi
    · simp only [hrange, and_self, if_true, findSome?_cons]
      have htail := ih (p + 1)
      simp only [hrange, and_self, if_true] at htail
      cases hget : t.items.get? key with
      | none => simpa [SSTable.get, hget] using htail
      | some v => simp [SSTable.get, hget]
    · have htail := ih (p + 1)
      simp only [hrange, if_false, map_eq_none_iff] at htail
      simp [hrange, htail]

theorem pairwise_allItems (s : Engine) (lo hi : Text) :
    (s.allItems lo hi).Pairwise fun a b => a.2.2 ≤ b.2.2 := by
  rw [allItems, pairwise_append]
  refine ⟨?_, pairwise_prioritized _ _ _ _, ?_⟩
  · rw [pairwise_map]
    exact pairwise_of_forall fun _ _ => le_rfl
  · intro a ha b _
    obtain ⟨e, -, rfl⟩ := mem_map.mp ha
    exact Nat.zero_le _

theorem lookup_allItems (s : Engine) (lo hi key : Text) :
    (lookup (s.allItems lo hi) key).map Prod.fst =
      if lo ≤ key ∧ key ≤ hi then view s key else none := by
  have htables := lookup_prioritized lo hi 1 (s.level0.reverse ++ s.level1.reverse) key
  rw [allItems, lookup_append, lookup_map (fun v => (v, 0)), MemTable.scan, SortedMap.lookup_scan]
  by_cases hrange : lo ≤ key ∧ key ≤ hi
  · simp only [hrange, and_self, if_true] at htables ⊢
    unfold view newest
    rw [← findSome?_append, ← htables]
    cases s.memtable.data.get? key <;> rfl
  · simp only [hrange, if_false] at htables ⊢
    simpa using htables

theorem mem_scan {key value : Text} :
    (key, value) ∈ s.scan lo hi ↔ lo ≤ key ∧ key ≤ hi ∧ s.get key = some value := by
  have hseen := get?_foldl_keepNewest (s.allItems lo hi) SortedMap.empty key
    (pairwise_allItems s lo hi) (by simp)
  rw [SortedMap.get?_empty, none_or] at hseen
  have hview := lookup_allItems s lo hi key
  rw [← hseen] at hview
  have hmem : (key, value) ∈ s.scan lo hi ↔
      ((((s.allItems lo hi).foldl keepNewest SortedMap.empty).get? key).map Prod.fst).bind live =
        some value := by
    simp only [scan, mem_filterMap, map_eq_some_iff, Prod.mk.injEq, bind_eq_some_iff]
    constructor
    · rintro ⟨⟨k, x⟩, hx, v, hlive, rfl, rfl⟩
      exact ⟨x.1, ⟨x, SortedMap.get?_eq_some_iff.mpr hx, rfl⟩, hlive⟩
    · rintro ⟨-, ⟨x, hx, rfl⟩, hlive⟩
      exact ⟨(key, x), SortedMap.get?_eq_some_iff.mp hx, value, hlive, rfl, rfl⟩
  rw [hmem, hview, get_eq]
  split
  · rename_i hrange
    simp [hrange]
  · rename_i hrange
    simp only [bind_none, reduceCtorEq, false_iff]
    exact fun h => hrange ⟨h.1, h.2.1⟩

theorem sorted_scan (s : Engine) (lo hi : Text) : (s.scan lo hi).Pairwise fun a b => a.1 < b.1 := by
  rw [scan, pairwise_filterMap]
  refine (SortedMap.sorted _).imp fun {a b} hab x hx y hy => ?_
  obtain ⟨_, -, rfl⟩ := map_eq_some_iff.mp hx
  obtain ⟨_, -, rfl⟩ := map_eq_some_iff.mp hy
  exact hab

end Reads

section Replaying

variable (r : Replay)

theorem applyWalEntry_request (m : MemTable) (op : WriteOp) (n : Nat) :
    applyWalEntry m (op.request.entry n) = op.apply m := by
  cases op <;> rfl

theorem foldl_applyWalEntry (m : MemTable) (ops : List WriteOp) (n : Nat) :
    (stamped n (ops.map WriteOp.request)).foldl applyWalEntry m = ops.foldl WriteOp.apply m := by
  induction ops generalizing m n with
  | nil => rfl
  | cons op ops ih =>
    rw [map_cons, stamped, foldl_cons, applyWalEntry_request, ih, foldl_cons]

theorem next_request_of_not_inBatch (op : WriteOp) (n : Nat) (h : r.inBatch = false) :
    r.next (op.request.entry n) = { r with memtable := op.apply r.memtable } := by
  cases op <;> simp [Replay.next, WriteOp.request, Request.entry, h] <;> rfl

theorem foldl_next_of_inBatch (ops : List WriteOp) (n : Nat) (h : r.inBatch = true) :
    (stamped n (ops.map WriteOp.request)).foldl Replay.next r =
      { r with batch := r.batch ++ stamped n (ops.map WriteOp.request) } := by
  induction ops generalizing r n with
  | nil => simp [stamped]
  | cons op ops ih =>
    have hnext : r.next (op.request.entry n) =
        { r with batch := r.batch ++ [op.request.entry n] } := by
      cases op <;> simp [Replay.next, WriteOp.request, Request.entry, h]
    rw [map_cons, stamped, foldl_cons, hnext]
    refine (ih { r with batch := r.batch ++ [op.request.entry n] } (n + 1) h).trans ?_
    simp

theorem stamped_append (n : Nat) (rs rs' : List Request) :
    stamped n (rs ++ rs') = stamped n rs ++ stamped (n + rs.length) rs' := by
  induction rs generalizing n with
  | nil => rfl
  | cons q rs ih =>
    rw [cons_append, stamped, ih, stamped, cons_append, length_cons, Nat.add_assoc, Nat.add_comm 1]

theorem foldl_next_batch (ops : List WriteOp) (n : Nat) :
    (stamped n (batchRequests ops)).foldl Replay.next r =
      ⟨ops.foldl WriteOp.apply r.memtable, false, []⟩ := by
  rw [batchRequests, cons_append, stamped, foldl_cons, stamped_append, foldl_append,
    foldl_next_of_inBatch _ _ _ rfl]
  simp [stamped, Replay.next, Request.entry, foldl_applyWalEntry]

theorem replay_append (entries entries' : List WalEntry) :
    replay (entries ++ entries') = entries'.foldl Replay.next (replay entries) :=
  foldl_append

theorem replay_write {s : Engine} (h : (replay s.wal.entries).inBatch = false) (op : WriteOp) :
    replay (s.write op).wal.entries =
      { replay s.wal.entries with memtable := op.apply (replay s.wal.entries).memtable } :=
  (replay_append _ _).trans (next_request_of_not_inBatch _ _ _ h)

theorem replay_writeBatch (s : Engine) (ops : List WriteOp) :
    replay (s.writeBatch ops).wal.entries =
      ⟨ops.foldl WriteOp.apply (replay s.wal.entries).memtable, false, []⟩ := by
  rw [writeBatch, appendAll_entries, replay_append, foldl_next_batch]

theorem foldl_next_take_batch (ops : List WriteOp) (n : Nat) {k : Nat} (hk : k < ops.length + 2) :
    ((stamped n ((batchRequests ops).take k)).foldl Replay.next r).memtable = r.memtable := by
  cases k with
  | zero => rfl
  | succ k =>
    have htake : (batchRequests ops).take (k + 1) =
        ⟨.begin, [], none⟩ :: (ops.take k).map WriteOp.request := by
      rw [batchRequests, cons_append, take_succ_cons, take_append_of_le_length, map_take]
      rw [length_map]
      omega
    rw [htake, stamped, foldl_cons, foldl_next_of_inBatch _ _ _ rfl]
    rfl

end Replaying

section Recovery

/-- The tables are in the order of their numbers, which have six digits. -/
def Ordered (tables : List SSTable) : Prop :=
  tables.Pairwise (fun a b => a.sequence < b.sequence) ∧ ∀ t ∈ tables, t.sequence < 10 ^ 6

theorem name_lt_iff {a b : SSTable} (ha : a.sequence < 10 ^ 6) (hb : b.sequence < 10 ^ 6) :
    a.name < b.name ↔ a.sequence < b.sequence := by
  have hname : ∀ {t : SSTable}, t.sequence < 10 ^ 6 →
      t.name = Lexicographic.fixedDigits Nat.digitChar 10 6 t.sequence := by
    intro t ht
    rw [SSTable.name, max_eq_left (Nat.toDigits_length 10 t.sequence 6 (by decide) ht)]
  rw [hname ha, hname hb]
  exact Lexicographic.fixedDigits_lt_iff
    (fun x hx y hy => VersionKeys.digitChar_strictMono (Set.Iio_subset_Iio (by decide) hx)
      (Set.Iio_subset_Iio (by decide) hy)) ha hb

variable {tables : List SSTable} {t : SSTable} {d : Disk} {s : Engine}

theorem sortedByName_of_ordered (h : Ordered tables) : sortedByName tables = tables := by
  refine List.Pairwise.insertionSort_eq ?_
  refine h.1.imp_of_mem fun {a b} ha hb hab => ?_
  exact ((name_lt_iff (h.2 a ha) (h.2 b hb)).mpr hab).le

theorem lt_nextSstSequence (h : t ∈ tables) : t.sequence < nextSstSequence tables := by
  have hfold : ∀ (tables : List SSTable) (n : Nat),
      n ≤ tables.foldl (fun n t => if n ≤ t.sequence then t.sequence + 1 else n) n ∧
        ∀ t ∈ tables, t.sequence <
          tables.foldl (fun n t => if n ≤ t.sequence then t.sequence + 1 else n) n := by
    intro tables
    induction tables with
    | nil => simp
    | cons x tables ih =>
      intro n
      obtain ⟨hle, hall⟩ := ih (if n ≤ x.sequence then x.sequence + 1 else n)
      have hx : n ≤ (if n ≤ x.sequence then x.sequence + 1 else n) ∧
          x.sequence < (if n ≤ x.sequence then x.sequence + 1 else n) := by
        split <;> omega
      refine ⟨hx.1.trans hle, fun t ht => ?_⟩
      rcases mem_cons.mp ht with rfl | ht
      · exact hx.2.trans_le hle
      · exact hall t ht
  exact (hfold tables 0).2 t h

theorem Ordered.concat (h : Ordered tables) (hlast : ∀ x ∈ tables, x.sequence < t.sequence)
    (ht : t.sequence < 10 ^ 6) : Ordered (tables ++ [t]) := by
  refine ⟨pairwise_append.mpr ⟨h.1, pairwise_singleton _ _, ?_⟩, ?_⟩
  · intro x hx y hy
    rw [mem_singleton.mp hy]
    exact hlast x hx
  · intro x hx
    rcases mem_append.mp hx with hx | hx
    · exact h.2 x hx
    · rw [mem_singleton.mp hx]
      exact ht

theorem view_recover (h0 : Ordered d.level0) (h1 : Ordered d.level1) (key : Text) :
    view (recover d) key =
      ((replay d.wal).memtable.data.get? key).or
        ((newest d.level0 key).or (newest d.level1 key)) := by
  simp only [view, recover, sortedByName_of_ordered h0, sortedByName_of_ordered h1]

/-- The log and the files of an engine agree with what it has in memory. -/
structure Sound (s : Engine) : Prop where
  log : (replay s.wal.entries).memtable.data = s.memtable.data
  level0 : Ordered s.level0
  level1 : Ordered s.level1
  fresh : ∀ t ∈ s.level0 ++ s.level1, t.sequence < s.sstSequence

theorem Sound.write (h : Sound s) (hclosed : (replay s.wal.entries).inBatch = false)
    (op : WriteOp) : Sound (s.write op) := by
  refine { h with log := ?_ }
  rw [replay_write hclosed]
  exact data_foldl_apply h.log [op]

theorem Sound.writeBatch (h : Sound s) (ops : List WriteOp) : Sound (s.writeBatch ops) := by
  refine { h with log := ?_ }
  rw [replay_writeBatch]
  exact data_foldl_apply h.log ops

theorem force_eq (s : Engine) :
    ∃ limit, s.force = { s with memtable := { s.memtable with sizeLimit := limit } } := by
  unfold Engine.force
  split
  · exact ⟨0, rfl⟩
  · exact ⟨s.memtable.sizeLimit, rfl⟩

theorem Sound.force (h : Sound s) : Sound s.force := by
  obtain ⟨limit, hforce⟩ := force_eq s
  rw [hforce]
  exact { h with }

theorem snapshot_eq_some {items : SortedMap Text Text} (h : s.snapshot = some items) :
    items = s.memtable.data := by
  unfold Engine.snapshot at h
  split at h
  · exact (Option.some.inj h).symm
  · simp at h

theorem Sound.newTable (h : Sound s) (items : SortedMap Text Text) : Sound (s.newTable items).1 :=
  { h with fresh := fun x hx => (h.fresh x hx).trans (Nat.lt_succ_self _) }

theorem Sound.fresh0 (h : Sound s) : ∀ x ∈ s.level0, x.sequence < s.sstSequence :=
  fun x hx => h.fresh x (mem_append_left _ hx)

theorem Sound.install (h : Sound s) (ht : t.sequence < 10 ^ 6) (hfresh : t.sequence < s.sstSequence)
    (hlast : ∀ x ∈ s.level0, x.sequence < t.sequence) : Sound (s.install t) := by
  refine ⟨rfl, h.level0.concat hlast ht, h.level1, ?_⟩
  intro x hx
  simp only [Engine.install, mem_append, mem_singleton] at hx
  rcases hx with (hx | rfl) | hx
  · exact h.fresh x (mem_append_left _ hx)
  · exact hfresh
  · exact h.fresh x (mem_append_right _ hx)

theorem view_install (ht : t.items = s.memtable.data) (key : Text) :
    view (s.install t) key = view s key := by
  simp only [view, Engine.install, MemTable.clear, SortedMap.get?_empty, none_or,
    newest_append, newest_singleton, SSTable.get, ht, Option.or_assoc]

theorem view_recover_of_stored (h : Sound s) (ht : t.items = s.memtable.data)
    (hten : t.sequence < 10 ^ 6) (hlast : ∀ x ∈ s.level0, x.sequence < t.sequence) (key : Text) :
    view (recover { s.disk with level0 := s.level0 ++ [t] }) key = view s key := by
  refine (view_recover (h.level0.concat hlast hten) h.level1 key).trans ?_
  simp only [disk, h.log, newest_append, newest_singleton, SSTable.get, ht, view]
  cases s.memtable.data.get? key <;> simp

theorem view_recover_disk (h : Sound s) (key : Text) : view (recover s.disk) key = view s key := by
  refine (view_recover h.level0 h.level1 key).trans ?_
  rw [disk, h.log]
  rfl

theorem sound_recover (h0 : Ordered d.level0) (h1 : Ordered d.level1) : Sound (recover d) := by
  refine ⟨rfl, ?_, ?_, fun t ht => lt_nextSstSequence ht⟩
  · simpa only [recover, sortedByName_of_ordered h0] using h0
  · simpa only [recover, sortedByName_of_ordered h1] using h1

end Recovery

section Files

/-- An engine and the file of its log, after writes, installed tables and restarts. -/
inductive Logged (codec : Codec) : Engine → WriteAheadLog → Prop
  | create : Logged codec Engine.create ⟨[], 0⟩
  | write {s w} (h : Logged codec s w) (op : WriteOp)
      (hfits : Fits codec (op.request.entry s.wal.sequence)) :
      Logged codec (s.write op) (w.append codec op.request).1
  | writeBatch {s w} (h : Logged codec s w) (ops : List WriteOp)
      (hfits : ∀ e ∈ stamped s.wal.sequence (batchRequests ops), Fits codec e) :
      Logged codec (s.writeBatch ops) (w.appendAll codec (batchRequests ops)).1
  | install {s w} (h : Logged codec s w) (t : SSTable) : Logged codec (s.install t) w.truncate
  | reopen {s w w'} (h : Logged codec s w) (hinit : WriteAheadLog.init codec w.file = some w') :
      Logged codec (recover s.disk) w'

variable {codec : Codec} {w : WriteAheadLog} {s : Engine}

theorem Logged.holds (h : Logged codec s w) : Holds codec w s.wal := by
  induction h with
  | create => exact ⟨rfl, rfl, by simp [Engine.create, recover, Log.init]⟩
  | write _ op hfits ih => exact ih.append hfits
  | writeBatch _ ops hfits ih => exact ih.appendAll hfits
  | install _ t ih => exact ih.truncate
  | reopen _ hinit ih =>
    obtain ⟨w', hw', hholds⟩ := ih.init
    obtain rfl := Option.some.inj (hinit.symm.trans hw')
    exact hholds

/-- What is read from the bytes of the log and from the tables is the map of the engine. -/
theorem Logged.view_recover (h : Logged codec s w) (hsound : Sound s) (key : Text) :
    (readAll codec w.file).map (fun entries => view (recover { s.disk with wal := entries }) key) =
      some (view s key) := by
  rw [h.holds.file, readAll_records h.holds.fits]
  exact congrArg some (view_recover_disk hsound key)

end Files

end LiteDB.LsmEngineSpec
