import LiteDB.ClusterTransactions
import LiteDB.CommitOrder

namespace LiteDB.SnapshotReads

open ClusterTransactions CommitOrder List Option Runs SortedMaps ShardLedger
open ShardReplica (HLC Job)
open ShardStore VersionKeys

variable {Shard : Type}

def readTsOf (s : Cluster Shard) (node : Text) (wall : Int) : Int := ((s.clocks node).now wall).2

/-- All nodes read one strictly increasing clock, user keys are plain, no value is the engine's
marker, and the read timestamps of writes come from `begin`. -/
def Synchronized (s : Cluster Shard) : Event Shard → Prop
  | .begin _ wall => s.wall < wall ∧ wall ≤ maxTs
  | .write _ _ writes readTs wall => s.wall < wall ∧ wall ≤ maxTs ∧
      (∀ w ∈ writes.entries, Plain w.1 ∧ w.2 ≠ some LsmEngine.tombstone) ∧
      ∀ r ∈ readTs, r ∈ s.snapshots
  | .start _ groups wall wall' => s.wall < wall ∧ wall < wall' ∧ wall' ≤ maxTs ∧
      ∀ g ∈ groups.entries, ∀ w ∈ g.2.entries, Plain w.1 ∧ w.2 ≠ some LsmEngine.tombstone
  | _ => True

instance (s : Cluster Shard) (a : Event Shard) : Decidable (Synchronized s a) := by
  unfold Synchronized
  split <;> infer_instance

/-- A write of `key` with an assigned commit timestamp that the shard has not applied:
called for, prepared, or about to be prepared. -/
def OnItsWay (s : Cluster Shard) (shard : Shard) (key : Text) (ts : Int) : Prop :=
  (∃ c, (shard, c) ∈ s.calls ∧ WritesAt c ts key) ∨
  (∃ t staged, (t, staged) ∈ (s.stores shard).intents.entries ∧ staged.1 = ts ∧
    key ∈ staged.2.map Prod.fst) ∨
  ∃ t c, s.coordinators t = some c ∧ c.record.commitTs = ts ∧
    ∃ g ∈ c.rest, g.1 = shard ∧ key ∈ g.2.entries.map Prod.fst

/-- Clocks and timestamps do not run ahead of the shared clock, and everything that
will be stored can be. -/
structure Clocked (s : Cluster Shard) : Prop where
  nonneg : 0 ≤ s.wall
  clocks : ∀ node, (s.clocks node).last ≤ s.wall
  snapshots : ∀ r ∈ s.snapshots, r ≤ s.wall
  calls : ∀ call ∈ s.calls, Command.Storable call.2
  coordinators : ∀ t c, s.coordinators t = some c →
    ∀ g ∈ c.rest, Storable c.record.commitTs g.2.entries
  stores : ∀ shard, ∃ l : Ledger, Represents (s.stores shard) l ∧ l.Sound

variable {s : Cluster Shard}

theorem clocked_init : Clocked (init : Cluster Shard) where
  nonneg := le_refl _
  clocks := fun _ => le_refl _
  snapshots := by simp [init]
  calls := by simp [init]
  coordinators := by simp [init]
  stores := fun _ => ⟨Ledger.empty, represents_create, ordered_empty.sound⟩

section Stores

variable {store : Store} {l : Ledger} {command : Command} {key : Text} {readTs : Int}

theorem read_apply (hr : Represents store l) (hl : l.Sound) (hc : Command.Storable command)
    (hkey : Plain key) (hrange : InRange readTs)
    (hwrite : ∀ ts, WritesAt command ts key → readTs < ts)
    (hintents : ∀ t staged, (t, staged) ∈ store.intents.entries →
      key ∈ staged.2.map Prod.fst → readTs < staged.1) :
    (store.apply command).read key readTs = store.read key readTs := by
  have hnext := hr.apply (e := ⟨command, 0⟩) hl hc
  have hl' : (l.apply ⟨command, 0⟩).Sound := hl.apply hc
  rw [read_eq_snapshot hnext.engine hl'.versions hkey hrange,
    read_eq_snapshot hr.engine hl.versions hkey hrange, Ledger.versions_apply,
    snapshot_append_of_hidden]
  intro v hv hvkey
  obtain ⟨r, hmem, hv⟩ := mem_flatMap.mp hv
  obtain ⟨w, hw, rfl⟩ := mem_map.mp hv
  have htouch : key ∈ r.writes.map Prod.fst := mem_map.mpr ⟨w, hw, hvkey⟩
  cases command with
  | write ts writes =>
    obtain rfl : r = _ := by simpa [Ledger.commits] using hmem
    exact hwrite ts ⟨rfl, htouch⟩
  | commit txnId =>
    have hget : l.intents.get? txnId = some r := by simpa [Ledger.commits] using hmem
    refine hintents txnId r.staged ?_ htouch
    rw [← Dict.get?_eq_some_iff, hr.intents, Dict.get?_mapValues, hget]
    rfl
  | control | prepare | abort => simp [Ledger.commits] at hmem

end Stores

section Steps

variable {t : Cluster Shard}

/-- What a step does to the snapshots of the states before it. -/
structure Advances (s t : Cluster Shard) : Prop where
  wall_le : s.wall ≤ t.wall
  executed : (t.executed = s.executed ∧ t.stores = s.stores) ∨
    ∃ shard command, t.executed = s.executed ++ [(shard, command)] ∧
      t.stores shard = (s.stores shard).apply command ∧
      ∀ other, other ≠ shard → t.stores other = s.stores other
  onItsWay : ∀ shard key ts, OnItsWay t shard key ts → OnItsWay s shard key ts ∨ s.wall < ts
  read : ∀ shard key readTs, Plain key → InRange readTs →
    (∀ ts, OnItsWay s shard key ts → readTs < ts) →
    (t.stores shard).read key readTs = (s.stores shard).read key readTs

/-- A call that the state before it announces: a decision, or a prepare that its
coordinator is about to send. -/
def Announced (s : Cluster Shard) (call : Shard × Command) : Prop :=
  (Command.Storable call.2 ∧ ∀ ts key, ¬WritesAt call.2 ts key) ∨
  ∃ id c g, s.coordinators id = some c ∧ g ∈ c.rest ∧
    call = (g.1, .prepare id c.record.commitTs g.2.entries)

/-- No timestamp is assigned and nothing is executed. -/
structure Settles (s t : Cluster Shard) : Prop where
  wall : t.wall = s.wall
  snapshots : t.snapshots = s.snapshots
  stores : t.stores = s.stores
  executed : t.executed = s.executed
  clocks : ∀ node, t.clocks node = s.clocks node ∨ t.clocks node = ⟨0⟩
  calls : ∀ call ∈ t.calls, call ∈ s.calls ∨ Announced s call
  coordinators : ∀ id c, t.coordinators id = some c → ∃ c', s.coordinators id = some c' ∧
    c.record = c'.record ∧ ∀ g ∈ c.rest, g ∈ c'.rest

variable {shard : Shard} {ts wall : Int} {u : Cluster Shard} {c : Coordinator Shard}

theorem Settles.onItsWay (h : Settles s t) {key : Text} (hway : OnItsWay t shard key ts) :
    OnItsWay s shard key ts := by
  rcases hway with ⟨c, hc, hwrites⟩ | hstaged | ⟨id, c, hc, hts, g, hg, hkey⟩
  · rcases h.calls _ hc with hc | ⟨-, hnone⟩ | ⟨id, c', g, hc', hg, heq⟩
    · exact .inl ⟨c, hc, hwrites⟩
    · exact absurd hwrites (hnone ts key)
    · obtain ⟨rfl, rfl⟩ := Prod.mk.inj heq
      exact .inr (.inr ⟨id, c', hc', hwrites.1, g, hg, rfl, hwrites.2⟩)
  · rw [h.stores] at hstaged
    exact .inr (.inl hstaged)
  · obtain ⟨c', hc', hrecord, hrest⟩ := h.coordinators id c hc
    exact .inr (.inr ⟨id, c', hc', hrecord ▸ hts, g, hrest g hg, hkey⟩)

theorem Settles.trans (h : Settles s t) (h' : Settles t u) :
    Settles s u where
  wall := h'.wall.trans h.wall
  snapshots := h'.snapshots.trans h.snapshots
  stores := h'.stores.trans h.stores
  executed := h'.executed.trans h.executed
  clocks := by
    intro node
    rcases h'.clocks node with heq | heq
    · rw [heq]
      exact h.clocks node
    · exact .inr heq
  calls := by
    intro call hcall
    rcases h'.calls call hcall with hold | hquiet | ⟨id, c, g, hc, hg, heq⟩
    · exact h.calls call hold
    · exact .inr (.inl hquiet)
    · obtain ⟨c', hc', hrecord, hrest⟩ := h.coordinators id c hc
      exact .inr (.inr ⟨id, c', g, hc', hrest g hg, hrecord ▸ heq⟩)
  coordinators := by
    intro id c hc
    obtain ⟨c', hc', hrecord', hrest'⟩ := h'.coordinators id c hc
    obtain ⟨c'', hc'', hrecord, hrest⟩ := h.coordinators id c' hc'
    exact ⟨c'', hc'', hrecord'.trans hrecord, fun g hg => hrest g (hrest' g hg)⟩

theorem Settles.advances (h : Settles s t) : Advances s t where
  wall_le := h.wall.ge
  executed := .inl ⟨h.executed, h.stores⟩
  onItsWay := fun _ _ _ hway => .inl (h.onItsWay hway)
  read := fun _ _ _ _ _ _ => by rw [h.stores]

section

variable (h : Clocked s)

include h

theorem Clocked.settles (hst : Settles s t) : Clocked t where
  nonneg := hst.wall ▸ h.nonneg
  clocks := by
    intro node
    rw [hst.wall]
    rcases hst.clocks node with heq | heq
    · rw [heq]
      exact h.clocks node
    · rw [heq]
      exact h.nonneg
  snapshots := by
    rw [hst.snapshots, hst.wall]
    exact h.snapshots
  calls := by
    intro call hcall
    rcases hst.calls call hcall with hold | ⟨hstorable, -⟩ | ⟨id, c, g, hc, hg, rfl⟩
    · exact h.calls call hold
    · exact hstorable
    · exact h.coordinators id c hc g hg
  coordinators := by
    intro id c hc g hg
    obtain ⟨c', hc', hrecord, hrest⟩ := hst.coordinators id c hc
    rw [hrecord]
    exact h.coordinators id c' hc' g (hrest g hg)
  stores := hst.stores ▸ h.stores

theorem Clocked.tick (hwall : s.wall < wall) (node : Text) : Clocked (s.tick node ⟨wall⟩ wall) := by
  refine ⟨h.nonneg.trans hwall.le, fun n => ?_, fun r hr => (h.snapshots r hr).trans hwall.le,
    h.calls, h.coordinators, h.stores⟩
  by_cases hn : n = node
  · simp [Cluster.tick, hn]
  · simpa [Cluster.tick, hn] using (h.clocks n).trans hwall.le

theorem Clocked.begin (hwall : s.wall < wall) (node : Text) :
    Clocked { s.tick node ⟨wall⟩ wall with snapshots := wall :: s.snapshots } := by
  refine { h.tick hwall node with snapshots := fun r hr => ?_ }
  rcases mem_cons.mp hr with rfl | hr
  · exact le_refl _
  · exact (h.snapshots r hr).trans hwall.le

theorem Clocked.call {command : Command} (hc : Command.Storable command)
    (shard : Shard) : Clocked (s.call shard command) := by
  refine { h with calls := fun call hcall => ?_ }
  rcases mem_append.mp hcall with hcall | hcall
  · exact h.calls call hcall
  · rw [mem_singleton.mp hcall]
    exact hc

theorem Clocked.stamp (hwall : s.wall < wall) (node : Text)
    (store : Store) {writes : Dict Text (Option Text)} {readTs : Option Int}
    (hread : ∀ r ∈ readTs, r ∈ s.snapshots) :
    (Job.write writes readTs).stamp (s.clocks node) ((Job.write writes readTs).snapshot store)
      wall = (⟨wall⟩, wall) := by
  have hlast := (h.clocks node).trans_lt hwall
  cases readTs with
  | none => exact HLC.now_of_lt hlast
  | some r => exact HLC.update_of_lt hlast ((h.snapshots r (hread r rfl)).trans_lt hwall)

theorem Clocked.setCoordinator (hc : ∀ g ∈ c.rest, Storable c.record.commitTs g.2.entries)
    (id : Text) : Clocked (s.setCoordinator id (some c)) := by
  refine { h with coordinators := fun id' c' hc' => ?_ }
  by_cases hid : id' = id
  · obtain rfl : c = c' := by simpa [Cluster.setCoordinator, hid] using hc'
    exact hc
  · exact h.coordinators id' c' (by simpa [Cluster.setCoordinator, hid] using hc')

end

/-- What is added to the state has been stamped after the states before it. -/
theorem advances_of_stamped (hwall : s.wall ≤ t.wall) (hts : s.wall < ts)
    (hstores : t.stores = s.stores) (hexecuted : t.executed = s.executed)
    (hcalls : ∀ call ∈ t.calls, call ∈ s.calls ∨ ∀ ts' key, WritesAt call.2 ts' key → ts' = ts)
    (hcoordinators : ∀ id c, t.coordinators id = some c → s.coordinators id = some c ∨
      c.record.commitTs = ts) : Advances s t := by
  refine ⟨hwall, .inl ⟨hexecuted, hstores⟩, fun shard key ts' hway => ?_,
    fun _ _ _ _ _ _ => by rw [hstores]⟩
  rcases hway with ⟨c, hc, hwrites⟩ | hstaged | ⟨id, c, hc, rfl, hkey⟩
  · rcases hcalls _ hc with hold | hnew
    · exact .inl (.inl ⟨c, hold, hwrites⟩)
    · exact .inr (hnew ts' key hwrites ▸ hts)
  · rw [hstores] at hstaged
    exact .inl (.inr (.inl hstaged))
  · rcases hcoordinators id c hc with hold | hnew
    · exact .inl (.inr (.inr ⟨id, c, hold, rfl, hkey⟩))
    · exact .inr (hnew ▸ hts)

theorem Advances.trans_settles (h : Advances s t) (h' : Settles t u) :
    Advances s u where
  wall_le := h.wall_le.trans h'.wall.ge
  executed := by
    rw [h'.executed, h'.stores]
    exact h.executed
  onItsWay := fun shard key ts hway => h.onItsWay shard key ts (h'.onItsWay hway)
  read := fun shard key readTs => by
    rw [h'.stores]
    exact h.read shard key readTs

theorem settles_of_eq (hwall : t.wall = s.wall) (hsnapshots : t.snapshots = s.snapshots)
    (hstores : t.stores = s.stores) (hexecuted : t.executed = s.executed)
    (hclocks : t.clocks = s.clocks) (hcalls : t.calls = s.calls)
    (hcoordinators : t.coordinators = s.coordinators) : Settles s t :=
  ⟨hwall, hsnapshots, hstores, hexecuted, fun _ => .inl (by rw [hclocks]),
    fun _ hc => .inl (hcalls ▸ hc), fun _ c hc => ⟨c, hcoordinators ▸ hc, rfl, fun _ hg => hg⟩⟩

theorem settles_setCoordinator {id : Text} {c' : Coordinator Shard}
    (hc : s.coordinators id = some c) (hrecord : c'.record = c.record)
    (hrest : ∀ g ∈ c'.rest, g ∈ c.rest) : Settles s (s.setCoordinator id (some c')) := by
  refine ⟨rfl, rfl, rfl, rfl, fun _ => .inl rfl, fun _ hcall => .inl hcall, fun id' c'' hc'' => ?_⟩
  by_cases hid : id' = id
  · subst hid
    obtain rfl : c' = c'' := by simpa [Cluster.setCoordinator] using hc''
    exact ⟨c, hc, hrecord, hrest⟩
  · exact ⟨c'', by simpa [Cluster.setCoordinator, hid] using hc'', rfl, fun _ hg => hg⟩

theorem settles_endCoordinator (s : Cluster Shard) (id : Text) :
    Settles s (s.setCoordinator id none) := by
  refine ⟨rfl, rfl, rfl, rfl, fun _ => .inl rfl, fun _ hcall => .inl hcall, fun id' c hc => ?_⟩
  have hid : id' ≠ id := by
    rintro rfl
    simp [Cluster.setCoordinator] at hc
  exact ⟨c, by simpa [Cluster.setCoordinator, hid] using hc, rfl, fun _ hg => hg⟩

theorem settles_call {command : Command} (h : Announced s (shard, command)) :
    Settles s (s.call shard command) := by
  refine ⟨rfl, rfl, rfl, rfl, fun _ => .inl rfl, fun call hcall => ?_,
    fun _ c hc => ⟨c, hc, rfl, fun _ hg => hg⟩⟩
  rcases mem_append.mp hcall with hcall | hcall
  · exact .inl hcall
  · rw [mem_singleton.mp hcall]
    exact .inr h

variable [DecidableEq Shard]

theorem Clocked.execute (h : Clocked s) {command : Command} (hcall : (shard, command) ∈ s.calls) :
    Clocked (s.execute shard command) ∧ Advances s (s.execute shard command) := by
  have hstorable : Command.Storable command := h.calls _ hcall
  refine ⟨{ h with stores := fun shard' => ?_ }, le_refl _, .inr ⟨shard, command, rfl, ?_, ?_⟩,
    ?_, ?_⟩
  · by_cases hs : shard' = shard
    · subst hs
      obtain ⟨l, hr, hl⟩ := h.stores shard'
      refine ⟨l.apply ⟨command, 0⟩, ?_, hl.apply hstorable⟩
      simpa [Cluster.execute] using hr.apply (e := ⟨command, 0⟩) hl hstorable
    · simpa [Cluster.execute, hs] using h.stores shard'
  · simp [Cluster.execute]
  · exact fun other hne => Function.update_of_ne hne _ _
  · intro shard' key ts hway
    rcases hway with hcalls | ⟨id, staged, hstaged, rfl, hkey⟩ | hcoordinator
    · exact .inl (.inl hcalls)
    · by_cases hs : shard' = shard
      · subst hs
        replace hstaged : (id, staged) ∈ ((s.stores shard').apply command).intents.entries := by
          simpa [Cluster.execute] using hstaged
        rcases Store.mem_intents_apply hstaged with hold | rfl
        · exact .inl (.inr (.inl ⟨id, staged, hold, rfl, hkey⟩))
        · exact .inl (.inl ⟨_, hcall, rfl, hkey⟩)
      · refine .inl (.inr (.inl ⟨id, staged, ?_, rfl, hkey⟩))
        simpa [Cluster.execute, hs] using hstaged
    · exact .inl (.inr (.inr hcoordinator))
  · intro shard' key readTs hkey hrange hlater
    by_cases hs : shard' = shard
    · subst hs
      obtain ⟨l, hr, hl⟩ := h.stores shard'
      have hread := read_apply hr hl hstorable hkey hrange
        (fun ts hts => hlater ts (.inl ⟨command, hcall, hts⟩))
        fun id staged hmem hkey' =>
          hlater staged.1 (.inr (.inl ⟨id, staged, hmem, rfl, hkey'⟩))
      simpa [Cluster.execute] using hread
    · simp [Cluster.execute, hs]

def Quiet : Event Shard → Prop
  | .begin _ _ | .write _ _ _ _ _ | .start _ _ _ _ | .execute _ => False
  | _ => True

omit [DecidableEq Shard] in
theorem settles_resolve (s : Cluster Shard) (record : TxnRecord Shard) (status : Status)
    (id : Text) : Settles s ((s.resolve record status).setCoordinator id none) := by
  have hresolve : Settles s (s.resolve record status) := settles_of_eq rfl rfl rfl rfl rfl rfl rfl
  exact hresolve.trans (settles_endCoordinator _ id)

variable {a : Event Shard}

/-- What the steps do that assign no timestamp and execute nothing. -/
theorem settles_of_quiet (hstep : step s a = some t) (ha : Quiet a) : Settles s t := by
  cases a with
  | begin | write | start | execute => exact ha.elim
  | drop i =>
    obtain ⟨call, -, rfl⟩ := map_eq_some_iff.mp hstep
    exact ⟨rfl, rfl, rfl, rfl, fun _ => .inl rfl, fun _ hc => .inl (mem_of_mem_eraseIdx hc),
      fun _ c hc => ⟨c, hc, rfl, fun _ hg => hg⟩⟩
  | prepare txnId =>
    simp only [ClusterTransactions.step] at hstep
    split at hstep <;> cases hstep
    rename_i record shard writes rest called hc
    have hcall : Settles s (s.call shard (.prepare txnId record.commitTs writes.entries)) :=
      settles_call (.inr ⟨txnId, _, (shard, writes), hc, by simp, rfl⟩)
    exact hcall.trans (settles_setCoordinator hc rfl fun _ hg => hg)
  | vote txnId ok =>
    simp only [ClusterTransactions.step] at hstep
    split at hstep
    · rename_i record shard writes rest hc
      split at hstep
      · cases hstep
        exact settles_resolve s record .aborted txnId
      · split at hstep <;> cases hstep
        exact settles_setCoordinator hc rfl fun _ hg => mem_cons_of_mem _ hg
    · simp at hstep
  | decide txnId =>
    simp only [ClusterTransactions.step] at hstep
    split at hstep <;> cases hstep
    rename_i record hc
    exact settles_resolve s record .committing txnId
  | send i =>
    simp only [ClusterTransactions.step] at hstep
    split at hstep <;> cases hstep
    rename_i record shard rest called allOk hd
    have hcall : Settles s (s.call shard record.decision) := settles_call (.inl (by
      simp only [TxnRecord.decision]
      split <;> exact ⟨trivial, fun _ _ => id⟩))
    exact hcall.trans (settles_of_eq rfl rfl rfl rfl rfl rfl rfl)
  | ack i ok =>
    simp only [ClusterTransactions.step] at hstep
    split at hstep
    · split at hstep <;> cases hstep
      exact settles_of_eq rfl rfl rfl rfl rfl rfl rfl
    · simp at hstep
  | finish i =>
    simp only [ClusterTransactions.step] at hstep
    split at hstep <;> cases hstep
    exact settles_of_eq rfl rfl rfl rfl rfl rfl rfl
  | sweep txnId =>
    obtain ⟨record, -, rfl⟩ := map_eq_some_iff.mp hstep
    exact settles_of_eq rfl rfl rfl rfl rfl rfl rfl
  | recover i expired =>
    obtain ⟨record, -, rfl⟩ := map_eq_some_iff.mp hstep
    simp only
    split
    · split <;> exact settles_of_eq rfl rfl rfl rfl rfl rfl rfl
    · exact settles_of_eq rfl rfl rfl rfl rfl rfl rfl
  | crash node =>
    cases hstep
    refine ⟨rfl, rfl, rfl, rfl, fun n => ?_, fun _ hc => .inl hc, fun _ c hc => ?_⟩
    · by_cases hn : n = node
      · exact .inr (by simp [hn])
      · exact .inl (by simp [hn])
    · exact ⟨c, (filter_eq_some_iff.mp hc).1, rfl, fun _ hg => hg⟩

theorem settles_eraseCall (s : Cluster Shard) (shard : Shard) (command : Command) (i : Nat) :
    Settles (s.execute shard command)
      { s.execute shard command with calls := s.calls.eraseIdx i } :=
  ⟨rfl, rfl, rfl, rfl, fun _ => .inl rfl, fun _ hc => .inl (mem_of_mem_eraseIdx hc),
    fun _ c hc => ⟨c, hc, rfl, fun _ hg => hg⟩⟩

theorem Clocked.step (h : Clocked s) (ha : Synchronized s a) (hstep : step s a = some t) :
    Clocked t ∧ Advances s t := by
  cases a with
  | begin node wall =>
    obtain ⟨hwall, -⟩ := ha
    cases hstep
    rw [HLC.now_of_lt ((h.clocks node).trans_lt hwall)]
    exact ⟨h.begin hwall node, advances_of_stamped hwall.le hwall rfl rfl
      (fun _ hcall => .inl hcall) fun _ _ hc => .inl hc⟩
  | write node shard writes readTs wall =>
    obtain ⟨hwall, hmax, hplain, hread⟩ := ha
    cases hstep
    simp only [h.stamp hwall node _ hread]
    have hstorable : Command.Storable (.write wall writes.entries) :=
      ⟨hplain, h.nonneg.trans hwall.le, hmax⟩
    refine ⟨(h.tick hwall node).call hstorable shard,
      advances_of_stamped hwall.le hwall rfl rfl (fun call hcall => ?_) fun _ _ hc => .inl hc⟩
    rcases mem_append.mp hcall with hcall | hcall
    · exact .inl hcall
    · rw [mem_singleton.mp hcall]
      exact .inr fun ts' key hwrites => hwrites.1.symm
  | start node groups wall wall' =>
    obtain ⟨hwall, hwall', hmax, hplain⟩ := ha
    cases hstep
    have hlast : (HLC.mk wall).last < wall' := hwall'
    simp only [HLC.now_of_lt ((h.clocks node).trans_lt hwall), HLC.now_of_lt hlast]
    have hlt := hwall.trans hwall'
    have htick := h.tick hlt node
    refine ⟨?_, advances_of_stamped hlt.le hlt rfl rfl (fun _ hcall => .inl hcall)
      fun id c hc => ?_⟩
    · have hwritten : Clocked ((s.tick node ⟨wall'⟩ wall').txnWrite
          ⟨node, txnName node wall, .preparing, groups.entries.map Prod.fst, wall'⟩) :=
        { htick with }
      exact { hwritten.setCoordinator (fun g hg =>
        ⟨hplain g hg, h.nonneg.trans hlt.le, hmax⟩) (txnName node wall) with }
    · by_cases hid : id = txnName node wall
      · obtain rfl : _ = c := by simpa [Cluster.setCoordinator, hid] using hc
        exact .inr rfl
      · exact .inl (by
          simpa [Cluster.setCoordinator, Cluster.txnWrite, Cluster.tick, hid] using hc)
  | execute i =>
    obtain ⟨⟨shard, command⟩, hcall, rfl⟩ := map_eq_some_iff.mp hstep
    obtain ⟨hclocked, hadvances⟩ := h.execute (mem_of_getElem? hcall)
    have hst := settles_eraseCall s shard command i
    exact ⟨hclocked.settles hst, hadvances.trans_settles hst⟩
  | prepare | vote | decide | send | ack | finish | sweep | recover | drop | crash =>
    have hst := settles_of_quiet hstep trivial
    exact ⟨h.settles hst, hst.advances⟩

end Steps

section Runs

variable [DecidableEq Shard]

/-- A snapshot that no earlier transaction is on its way to does not change. -/
theorem read_eq_of_reaches {t : Cluster Shard} (h : Clocked s) {shard : Shard} {key : Text}
    {readTs : Int} (hkey : Plain key) (hrange : InRange readTs) (hle : readTs ≤ s.wall)
    (hlater : ∀ ts, OnItsWay s shard key ts → readTs < ts) (hrun : Reaches step Synchronized s t) :
    (t.stores shard).read key readTs = (s.stores shard).read key readTs := by
  have hinv : Clocked t ∧ readTs ≤ t.wall ∧ (∀ ts, OnItsWay t shard key ts → readTs < ts) ∧
      (t.stores shard).read key readTs = (s.stores shard).read key readTs := by
    refine hrun.invariant (fun t => Clocked t ∧ readTs ≤ t.wall ∧
      (∀ ts, OnItsWay t shard key ts → readTs < ts) ∧
      (t.stores shard).read key readTs = (s.stores shard).read key readTs)
      ⟨h, hle, hlater, rfl⟩ ?_
    rintro u a w ⟨hu, hule, hulater, hread⟩ ha hstep
    obtain ⟨hw, hadvances⟩ := hu.step ha hstep
    refine ⟨hw, hule.trans hadvances.wall_le, fun ts hway => ?_, ?_⟩
    · exact (hadvances.onItsWay shard key ts hway).elim (hulater ts) hule.trans_lt
    · exact (hadvances.read shard key readTs hkey hrange hulater).trans hread
  exact hinv.2.2.2

def executedOn (s : Cluster Shard) (shard : Shard) : List Command :=
  (s.executed.filter fun call => call.1 = shard).map Prod.snd

/-- The store that a read meets on a leader which has applied `done` of the commands that the
shard has executed. A new leader may be behind the one before it, and reads do not wait. -/
def leaderStore (s : Cluster Shard) (shard : Shard) (done : Nat) : Store :=
  ((executedOn s shard).take done).foldl Store.apply create

def Replayed (s : Cluster Shard) : Prop :=
  ∀ shard, s.stores shard = (executedOn s shard).foldl Store.apply create

variable {t : Cluster Shard}

theorem Advances.executedOn (h : Advances s t) (hs : Replayed s) (shard : Shard) :
    t.stores shard = (executedOn t shard).foldl Store.apply create ∧
      (executedOn t shard = executedOn s shard ∨
        ∃ command, executedOn t shard = executedOn s shard ++ [command]) := by
  simp only [SnapshotReads.executedOn]
  rcases h.executed with ⟨hexecuted, hstores⟩ | ⟨place, command, hexecuted, hstore, hothers⟩
  · rw [hexecuted, hstores]
    exact ⟨hs shard, .inl rfl⟩
  · rw [hexecuted, filter_append, map_append]
    by_cases hshard : shard = place
    · subst hshard
      rw [hstore, hs shard, SnapshotReads.executedOn]
      simp
    · rw [hothers shard hshard, hs shard, SnapshotReads.executedOn]
      simp [Ne.symm hshard]

/-- A leader that has applied what was executed in `s` serves a store that the shard has had
since then. -/
theorem exists_leaderStore_eq (h : Clocked s) (hs : Replayed s) {shard : Shard} {done : Nat}
    (hdone : (executedOn s shard).length ≤ done) (hrun : Reaches step Synchronized s t) :
    ∃ u, Reaches step Synchronized s u ∧ leaderStore t shard done = u.stores shard := by
  have hall : (Clocked t ∧ Replayed t) ∧
      ∃ u, Reaches step Synchronized s u ∧ leaderStore t shard done = u.stores shard := by
    induction hrun with
    | refl =>
      refine ⟨⟨h, hs⟩, s, .refl s, ?_⟩
      rw [leaderStore, take_of_length_le hdone, hs shard]
    | @tail v w hrun hlast ih =>
      obtain ⟨⟨hv, hreplayed⟩, u, hu, hserved⟩ := ih
      obtain ⟨a, ha, hstep⟩ := hlast
      obtain ⟨hw, hadvances⟩ := hv.step ha hstep
      have hnext := hadvances.executedOn hreplayed
      refine ⟨⟨hw, fun shard' => (hnext shard').1⟩, ?_⟩
      rcases Nat.lt_or_ge done (executedOn w shard).length with hbehind | hahead
      · -- what the leader has applied was executed before the last step
        refine ⟨u, hu, ?_⟩
        rw [← hserved, leaderStore, leaderStore]
        rcases (hnext shard).2 with heq | ⟨command, heq⟩
        · rw [heq]
        · rw [heq, length_append] at hbehind
          rw [heq, take_append_of_le_length (Nat.le_of_lt_succ hbehind)]
      · refine ⟨w, Reaches.tail hrun ha hstep, ?_⟩
        rw [leaderStore, take_of_length_le hahead, (hnext shard).1]
  exact hall.2

/-- Two reads of a key at one snapshot, each by a leader that has applied what was executed at
`begin`, give the same value when no transaction up to the snapshot was on its way to the key. -/
theorem snapshot_stable {s₀ s₁ s₂ s₃ : Cluster Shard} {node : Text} {wall : Int} {shard : Shard}
    {key : Text} (h₀ : Reaches step Synchronized init s₀)
    (hok : Synchronized s₀ (.begin node wall)) (hbegin : step s₀ (.begin node wall) = some s₁)
    (hkey : Plain key) (hlater : ∀ ts, OnItsWay s₀ shard key ts → readTsOf s₀ node wall < ts)
    (h₂ : Reaches step Synchronized s₁ s₂) (h₃ : Reaches step Synchronized s₁ s₃) {d₂ d₃ : Nat}
    (hd₂ : (executedOn s₀ shard).length ≤ d₂) (hd₃ : (executedOn s₀ shard).length ≤ d₃) :
    (leaderStore s₂ shard d₂).read key (readTsOf s₀ node wall) =
      (leaderStore s₃ shard d₃).read key (readTsOf s₀ node wall) := by
  obtain ⟨hclocked₀, hreplayed₀⟩ : Clocked s₀ ∧ Replayed s₀ :=
    h₀.invariant (fun s => Clocked s ∧ Replayed s) ⟨clocked_init, fun _ => rfl⟩
      fun _ _ _ hu ha hstep => by
        obtain ⟨hw, hadvances⟩ := hu.1.step ha hstep
        exact ⟨hw, fun shard' => (hadvances.executedOn hu.2 shard').1⟩
  have hclocked := (hclocked₀.step hok hbegin).1
  obtain ⟨hwall, hmax⟩ := hok
  have hts : readTsOf s₀ node wall = wall := by
    rw [readTsOf, HLC.now_of_lt ((hclocked₀.clocks node).trans_lt hwall)]
  have hrange : InRange wall := ⟨hclocked₀.nonneg.trans hwall.le, hmax⟩
  cases hbegin
  rw [hts] at hlater ⊢
  obtain ⟨u₂, hu₂, heq₂⟩ := exists_leaderStore_eq hclocked hreplayed₀ hd₂ h₂
  obtain ⟨u₃, hu₃, heq₃⟩ := exists_leaderStore_eq hclocked hreplayed₀ hd₃ h₃
  rw [heq₂, heq₃, read_eq_of_reaches hclocked hkey hrange (le_refl wall) hlater hu₂,
    read_eq_of_reaches hclocked hkey hrange (le_refl wall) hlater hu₃]

def sampleKey : Text := "k".toList

def sampleWrite (wall : Int) : Event Bool :=
  .write "n1".toList false (Dict.empty.set sampleKey (some "v".toList)) none wall

/-- A write after the snapshot is read at a later timestamp only, and a leader without it gives
the same value at the snapshot. -/
theorem snapshot_stable_of_later : ∃ s₁ s₃ : Cluster Bool,
    step init (.begin "n2".toList 1) = some s₁ ∧ Reaches step Synchronized s₁ s₃ ∧
      (leaderStore s₃ false 0).read sampleKey 2 ≠ (leaderStore s₃ false 1).read sampleKey 2 ∧
      (leaderStore s₃ false 0).read sampleKey (readTsOf (init : Cluster Bool) "n2".toList 1) =
        (leaderStore s₃ false 1).read sampleKey
          (readTsOf (init : Cluster Bool) "n2".toList 1) := by
  obtain ⟨s₁, hbegin⟩ : ∃ s₁, step (init : Cluster Bool) (.begin "n2".toList 1) = some s₁ :=
    ⟨_, rfl⟩
  obtain ⟨s₃, hrun, htest⟩ := exists_reaches step Synchronized s₁ [sampleWrite 2, .execute 0]
    (fun s => (leaderStore s false 0).read sampleKey 2 ≠ (leaderStore s false 1).read sampleKey 2)
    (by
      cases hbegin
      decide +kernel)
  refine ⟨s₁, s₃, hbegin, hrun, htest, ?_⟩
  exact snapshot_stable (Reaches.refl _) (by decide) hbegin (by decide)
    (by simp [OnItsWay, init, create, Dict.empty]) hrun hrun le_rfl (Nat.zero_le 1)

/-- The write has its timestamp before the snapshot and is applied between two reads. -/
theorem not_snapshot_stable_of_slowWrite :
    ¬∀ (s₀ s₁ s₂ s₃ : Cluster Bool) (node : Text) (wall : Int) (shard : Bool) (key : Text),
      Reaches step Synchronized init s₀ → Synchronized s₀ (.begin node wall) →
      step s₀ (.begin node wall) = some s₁ → Plain key → Reaches step Synchronized s₁ s₂ →
      Reaches step Synchronized s₁ s₃ →
      (s₂.stores shard).read key (readTsOf s₀ node wall) =
        (s₃.stores shard).read key (readTsOf s₀ node wall) := by
  intro hall
  obtain ⟨s₀, h₀, hok, htest⟩ := exists_reaches step Synchronized init [sampleWrite 1]
    (fun s => Synchronized s (.begin "n2".toList 2) ∧
      ((step s (.begin "n2".toList 2)).any fun s₁ => (step s₁ (.execute 0)).any fun s₃ =>
        (s₁.stores false).read sampleKey (readTsOf s "n2".toList 2) ≠
          (s₃.stores false).read sampleKey (readTsOf s "n2".toList 2)) = true) (by decide +kernel)
  obtain ⟨s₁, hbegin, htest⟩ := (any_eq_true _ _).mp htest
  obtain ⟨s₃, hexecute, htest⟩ := (any_eq_true _ _).mp htest
  exact of_decide_eq_true htest (hall s₀ s₁ s₁ s₃ _ _ false sampleKey h₀ hok hbegin (by decide)
    (Reaches.refl _) (Reaches.single (a := .execute 0) trivial hexecute))

end Runs

end LiteDB.SnapshotReads
