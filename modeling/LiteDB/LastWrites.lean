import LiteDB.ConflictChecks

namespace LiteDB.LastWrites

open CommitOrder ConflictChecks List Runs ShardLedger ShardReplica ShardStore VersionKeys

variable {Node : Type} [DecidableEq Node] {s : Shard Node} {t : Shard Node} {a : Event Node}

/-- What a step does to the logs and to how far they are applied. -/
inductive Change (s : Shard Node) : Event Node → Shard Node → Prop
  | request (a : Event Node) (clocks : Node → HLC) (request : Option Request) :
      Change s a { s with clocks := clocks, request := request }
  | append (a : Event Node) (e : Entry) (request : Option Request)
      (he : (∀ log, Fresh log e) ∨ a = .propose ∧ ∃ job readTs commitTs,
        s.request = some (.propose job readTs commitTs) ∧ e = ⟨job.command commitTs, readTs⟩) :
      Change s a { s with log := s.log ++ [e], request := request }
  | advance (a : Event Node) (next : Store × Option Pending) : Change s a (s.advance next)
  | elect (node : Node) (log : List Entry) (done : Nat) (left : Option Request)
      (hlog : s.CanElect log) (hdone : done ≤ log.length) :
      Change s (.elect node log done left)
        ⟨node, s.clocks, log ++ [⟨.control, 0⟩], s.log :: s.past, log.length + 1,
          max s.decided done, done, none, replay (log.take done), left⟩

omit [DecidableEq Node] in
theorem change_of_append {e : Entry} (hfresh : ∀ log, Fresh log e) (h : s.append e = some t) :
    Change s a t := by
  simp only [Shard.append] at h
  split at h <;> cases h
  exact .append a e s.request (.inl hfresh)

theorem change_of_step (hstep : step s a = some t) : Change s a t := by
  cases a with
  | acquire job =>
    simp only [step] at hstep
    split at hstep
    · split at hstep <;> cases hstep
      exact .request _ s.clocks _
    · cases hstep
  | checkNewest =>
    simp only [step] at hstep
    split at hstep
    · split at hstep
      · cases hstep
        exact .request _ s.clocks none
      · split at hstep <;> cases hstep
        · exact .request _ s.clocks none
        · exact .request _ s.clocks _
    · cases hstep
  | checkLocks =>
    simp only [step] at hstep
    split at hstep
    · split at hstep <;> cases hstep
      · exact .request _ s.clocks _
      · exact .request _ s.clocks none
    · cases hstep
  | stamp wall =>
    simp only [step] at hstep
    split at hstep <;> cases hstep
    exact .request _ _ _
  | propose =>
    simp only [step, Shard.append] at hstep
    split at hstep
    · rename_i job readTs commitTs hrequest
      split at hstep <;> cases hstep
      exact .append _ _ _ (.inr ⟨rfl, job, readTs, commitTs, hrequest, rfl⟩)
    · cases hstep
  | release =>
    simp only [step] at hstep
    split at hstep <;> cases hstep
    exact .request _ s.clocks none
  | resolve txnId commit =>
    exact change_of_append (fun log => by cases commit <;> trivial) hstep
  | control => exact change_of_append (e := ⟨.control, 0⟩) (fun log => trivial) hstep
  | begin =>
    simp only [step] at hstep
    split at hstep
    · obtain ⟨e, -, rfl⟩ := Option.map_eq_some_iff.mp hstep
      exact .advance _ _
    · cases hstep
  | resume =>
    obtain ⟨p, -, rfl⟩ := Option.map_eq_some_iff.mp hstep
    exact .advance _ _
  | raise stored =>
    simp only [step] at hstep
    split at hstep
    · obtain ⟨e, -, rfl⟩ := Option.map_eq_some_iff.mp hstep
      exact .advance _ _
    · cases hstep
      exact .advance _ _
  | now node wall | update node remoteTs wall =>
    cases hstep
    exact .request _ _ s.request
  | elect node log done left =>
    simp only [step] at hstep
    split at hstep <;> cases hstep
    rename_i hlog
    exact .elect node log done left hlog.1 hlog.2

/-- In addition to a check that can be trusted, the commit timestamp is above the
snapshot or at least new for its keys, and no committed transaction is prepared
again. -/
def Timely (s : Shard Node) (a : Event Node) : Prop :=
  Careful s a ∧
    match a, s.request with
    | .propose, some (.propose job readTs commitTs) =>
        Fresh s.log ⟨job.command commitTs, readTs⟩
    | _, _ => True

instance (s : Shard Node) (a : Event Node) : Decidable (Timely s a) := by
  unfold Timely
  refine @instDecidableAnd _ _ _ ?_
  induction a using Event.casesOn with
  | propose =>
    generalize s.request = request
    induction request using Option.casesOn with
    | none => exact .isTrue trivial
    | some request => induction request using Request.casesOn <;> infer_instance
  | _ => exact .isTrue trivial

def FreshLogs (s : Shard Node) : Prop := ∀ log ∈ s.log :: s.past, Admitted Fresh log

omit [DecidableEq Node] in
theorem FreshLogs.step (h : FreshLogs s) (ha : Timely s a) (hchange : Change s a t) :
    FreshLogs t := by
  cases hchange with
  | request | advance => exact h
  | append _ e _ he =>
    intro log hlog
    rcases mem_cons.mp hlog with rfl | hlog
    · refine .concat (h s.log (by simp)) ?_
      rcases he with he | ⟨rfl, job, readTs, commitTs, hrequest, rfl⟩
      · exact he s.log
      · have hfresh := ha.2
        rwa [hrequest] at hfresh
    · exact h log (by simp [hlog])
  | elect node log done left hlog =>
    obtain ⟨-, old, hold, hp⟩ := hlog
    intro log' hlog'
    rcases mem_cons.mp hlog' with rfl | hlog'
    · exact .concat ((h old hold).initial hp) trivial
    · exact h log' hlog'

omit [DecidableEq Node] in
theorem freshLogs_start (node : Node) : FreshLogs (start node) := by
  intro log hlog
  obtain rfl : log = [] := by simpa [start] using hlog
  exact .nil

/-- The leader has begun no entry that is not counted, and the others that are counted are among
those it has inherited. -/
structure Counted (s : Shard Node) : Prop where
  started_le : s.started ≤ s.decided
  decided_le : s.decided ≤ s.log.length
  decided_le_max : s.decided ≤ max s.inherited s.started

omit [DecidableEq Node] in
theorem Counted.step (h : Counted s) (ht : t.started ≤ t.log.length) (hchange : Change s a t) :
    Counted t := by
  obtain ⟨hstarted, hdecided, hmax⟩ := h
  cases hchange with
  | request => exact ⟨hstarted, hdecided, hmax⟩
  | append => exact ⟨hstarted, hdecided.trans (by simp), hmax⟩
  | advance _ next =>
    rw [started_advance] at ht
    refine ⟨?_, max_le hdecided ht, ?_⟩ <;> rw [started_advance]
    · exact le_max_right _ _
    · have happlied : s.started ≤ s.applied + 1 := by
        unfold Shard.started
        split <;> omega
      simp only [Shard.advance]
      omega
  | elect node log done left hlog hdone =>
    have hlen := hlog.1.length_le
    rw [length_take, min_eq_left hdecided] at hlen
    simp only [Shard.started, if_true] at ht ⊢
    refine ⟨le_max_right _ _, ?_, ?_⟩ <;> simp only [length_append, length_singleton] <;> omega

/-- What has been applied on the shard, by this leader or an earlier one. -/
def decidedLedger (s : Shard Node) : Ledger := Ledger.replay (s.log.take s.decided)

def upcoming (s : Shard Node) : List Record :=
  if s.pending = none then [] else (s.log[s.applied]?).toList.flatMap s.ledger.commits

omit [DecidableEq Node] in
/-- What the engine and the clock of the store show of a key that no entry in
progress writes. -/
theorem read_snapshotTs_eq (h : Inv s) {key : Text} (hplain : Plain key)
    (hkey : ∀ r ∈ upcoming s, ¬r.Touches key) :
    s.store.read key s.store.snapshotTs =
      visible (snapshot s.ledger.versions key s.ledger.lastTs) := by
  have hsound : s.ledger.Sound := (h.ordered s.applied).sound
  have hrange := hsound.inRange_lastTs
  cases hp : s.pending with
  | none =>
    have hr := h.represents hp
    rw [Store.snapshotTs, hr.lastTs]
    exact read_eq_snapshot hr.engine hsound.versions hplain hrange
  | some p =>
    obtain ⟨e, he, -, hmid⟩ := h.midway hp
    rw [Store.snapshotTs, hmid.lastTs]
    obtain ⟨intents, hnew | ⟨hold, -⟩⟩ := hmid.engine
    · rw [read_eq_snapshot hnew (hsound.apply (h.admits he).storable).versions hplain hrange,
        Ledger.versions_apply, snapshot_append_of_hidden]
      intro v hv hvkey
      obtain ⟨r, hr, hv⟩ := mem_flatMap.mp hv
      obtain ⟨w, hw, rfl⟩ := mem_map.mp hv
      refine absurd (mem_map.mpr ⟨w, hw, hvkey⟩) (hkey r ?_)
      simpa [upcoming, hp, he] using hr
    · exact read_eq_snapshot hold hsound.versions hplain hrange

omit [DecidableEq Node] in
theorem lastVersion_decidedLedger (h : Inv s) (hcounted : Counted s) (hready : s.Ready) {key : Text}
    (hkey : ∀ r ∈ upcoming s, ¬r.Touches key) :
    lastVersion (decidedLedger s).versions key = lastVersion s.ledger.versions key := by
  have hstarted : s.decided = s.started := by
    have happlied : s.applied ≤ s.started := by
      unfold Shard.started
      split <;> omega
    have hmax := hcounted.decided_le_max
    rw [max_eq_right (hready.trans happlied)] at hmax
    exact le_antisymm hmax hcounted.started_le
  have hledger : decidedLedger s = begun s := by rw [decidedLedger, hstarted, begun]
  cases hp : s.pending with
  | none => rw [hledger, begun_of_none hp]
  | some p =>
    obtain ⟨e, he, hbegun, -⟩ := h.midway hp
    have hnone : (((s.ledger.commits e).flatMap Record.versions).filter
        fun v => decide (v.key = key)) = [] := by
      refine filter_eq_nil_iff.mpr fun v hv => ?_
      obtain ⟨r, hr, hv⟩ := mem_flatMap.mp hv
      obtain ⟨w, hw, rfl⟩ := mem_map.mp hv
      have hother := hkey r (by simpa [upcoming, hp, he] using hr)
      simpa using fun hvkey => hother (mem_map.mpr ⟨w, hw, hvkey⟩)
    rw [hledger, hbegun, Ledger.versions_apply, lastVersion, filter_append, hnone, append_nil,
      lastVersion]

/-- Every version is above the versions of its key that were applied before it, and a
read without a timestamp by a ready leader returns the last one. -/
theorem last_write_on_top {node : Node} (h : Reaches step Timely (start node) s) :
    ((decidedLedger s).committed.Pairwise fun r r' =>
      ∀ key, r.Touches key → r'.Touches key → r.commitTs < r'.commitTs) ∧
    (s.Ready → ∀ key, Plain key → (∀ r ∈ upcoming s, ¬r.Touches key) →
      s.store.read key s.store.snapshotTs =
        visible (lastVersion (decidedLedger s).versions key)) := by
  obtain ⟨hinv, hfresh, hcounted⟩ : Inv s ∧ FreshLogs s ∧ Counted s :=
    Reaches.invariant (fun s => Inv s ∧ FreshLogs s ∧ Counted s) h
      ⟨inv_start node, freshLogs_start node, by simp [start, Shard.started], by simp [start],
        by simp [start]⟩
      fun u a w hu ha hstep => by
        have hw := hu.1.step ha.1 hstep
        have hchange := change_of_step hstep
        exact ⟨hw, hu.2.1.step ha hchange, hu.2.2.step hw.started_le hchange⟩
  have hincreasing : ∀ n, Increasing (Ledger.replay (s.log.take n)) := fun n =>
    Valid.increasing (hinv.valid_log.initial (List.take_prefix _ _))
      ((hfresh s.log (by simp)).initial (List.take_prefix _ _))
  refine ⟨(hincreasing s.decided).order, fun hready key hplain hkey => ?_⟩
  have hversions : s.ledger.versions.Pairwise fun v w => v.key = w.key → v.ts ≤ w.ts :=
    (hincreasing s.applied).versions
  rw [lastVersion_decidedLedger hinv hcounted hready hkey, read_snapshotTs_eq hinv hplain hkey,
    snapshot_eq_lastVersion hversions fun v hv _ => ?_]
  obtain ⟨r, hr, hv⟩ := mem_flatMap.mp hv
  obtain ⟨w, -, rfl⟩ := mem_map.mp hv
  exact s.ledger.lastTs_spec.1 r hr

/-- A write, a transaction of several shards whose coordinator has used its commit
timestamp as the snapshot, and a write of the next leader, which applies the commit and its
own no-op first. -/
def writesInOrder : List (Event Bool) :=
  request (.write (sampleWrites "a") none) 10 ++ [Event.begin, .resume, .release] ++
    request (.prepare "t".toList (sampleWrites "b") 20 20) 0 ++
    [Event.begin, .resume, .release, .resolve "t".toList true, .begin, .resume, .resume,
      .elect true
        [⟨.write 10 (sampleWrites "a").entries, 0⟩,
          ⟨.prepare "t".toList 20 (sampleWrites "b").entries, 20⟩, ⟨.commit "t".toList, 0⟩] 2 none,
      .begin, .resume, .resume, .begin] ++
    request (.write (sampleWrites "c") none) 30 ++ [Event.begin, .resume, .release]

theorem last_write_on_top_of_three : ∃ s : Shard Bool, Reaches step Timely (start false) s ∧
    (decidedLedger s).committed.map Record.commitTs = [10, 20, 30] ∧
    s.store.read sampleKey s.store.snapshotTs =
      visible (lastVersion (decidedLedger s).versions sampleKey) := by
  obtain ⟨s, hs, hts, hp, hready⟩ := exists_reaches step Timely (start false) writesInOrder
    (fun s => (decidedLedger s).committed.map Record.commitTs = [10, 20, 30] ∧
      s.pending = none ∧ s.Ready) (by decide +kernel)
  exact ⟨s, hs, hts,
    (last_write_on_top hs).2 hready sampleKey (by decide) (by simp [upcoming, hp])⟩

/-- The wall clock of the second leader is behind that of the first one. -/
def slowClock : List (Event Bool) :=
  request (.write (sampleWrites "a") none) 100 ++
    [Event.begin, .resume, .release,
      .elect true [⟨.write 100 (sampleWrites "a").entries, 0⟩] 1 none, .begin] ++
    request (.write (sampleWrites "b") none) 50 ++ [Event.begin, .resume, .release]

theorem not_last_write_on_top_of_slowClock :
    ∃ s : Shard Bool, Reaches step (fun _ _ => True) (start false) s ∧
      ¬((decidedLedger s).committed.Pairwise fun r r' =>
        ∀ key, r.Touches key → r'.Touches key → r.commitTs < r'.commitTs) ∧
      ¬(s.Ready → ∀ key, Plain key → (∀ r ∈ upcoming s, ¬r.Touches key) →
        s.store.read key s.store.snapshotTs =
          visible (lastVersion (decidedLedger s).versions key)) := by
  obtain ⟨s, hs, horder, hp, hready, hread⟩ :=
    exists_reaches step (fun _ _ => True) (start false) slowClock
    (fun s => (¬(decidedLedger s).committed.Pairwise fun r r' =>
        r.Touches sampleKey → r'.Touches sampleKey → r.commitTs < r'.commitTs) ∧
      s.pending = none ∧ s.Ready ∧ s.store.read sampleKey s.store.snapshotTs ≠
        visible (lastVersion (decidedLedger s).versions sampleKey)) (by decide +kernel)
  refine ⟨s, hs, fun hall => horder (hall.imp fun h => h sampleKey), fun hall => hread ?_⟩
  exact hall hready sampleKey (by decide) (by simp [upcoming, hp])

end LiteDB.LastWrites
