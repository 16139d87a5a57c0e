import LiteDB.ClusterTransactions

namespace LiteDB.TwoPhaseCommit

open ClusterTransactions Function List Option Runs SortedMaps
open ShardReplica (HLC Job)
open ShardStore VersionKeys

variable {Shard : Type}

def decided : Status → Option Bool
  | .preparing => none
  | .committing => some true
  | .aborted => some false

def decides : Command → Option (Text × Bool)
  | .commit txnId => some (txnId, true)
  | .abort txnId => some (txnId, false)
  | _ => none

/-- Every trace of a decision in the state agrees with `outcome`, and transactions
that are still coordinated or in preparation have none. -/
structure Agrees (s : Cluster Shard) (outcome : Text → Option Bool) : Prop where
  txnlog : ∀ t r, s.txnlog t = some r → r.txnId = t ∧ decided r.status = outcome t
  coordinators : ∀ t c, s.coordinators t = some c → c.record.txnId = t ∧ outcome t = none
  drives : ∀ d ∈ s.drives, d.record.status ≠ .preparing ∧
    decided d.record.status = outcome d.record.txnId
  sweeps : ∀ r ∈ s.sweeps, r.status ≠ .preparing → decided r.status = outcome r.txnId
  calls : ∀ shard c t b, (shard, c) ∈ s.calls → decides c = some (t, b) → outcome t = some b
  outcomes : ∀ shard t b, (shard, t, b) ∈ s.outcomes → outcome t = some b
  fresh : ∀ t, t ∉ s.ids → s.txnlog t = none ∧ s.coordinators t = none ∧ outcome t = none

variable {s : Cluster Shard} {outcome : Text → Option Bool}

theorem agrees_init : Agrees (init : Cluster Shard) fun _ => none := by
  constructor <;> simp [init]

variable {t : Text} {b : Bool} {status : Status} {c : Coordinator Shard}

theorem decides_decision {record : TxnRecord Shard} (h : record.status ≠ .preparing)
    (hd : decides record.decision = some (t, b)) :
    record.txnId = t ∧ decided record.status = some b := by
  cases hstatus : record.status with
  | preparing => exact absurd hstatus h
  | committing => simpa [TxnRecord.decision, hstatus, decides, decided] using hd
  | aborted => simpa [TxnRecord.decision, hstatus, decides, decided] using hd

theorem decided_ne_none (h : status ≠ .preparing) : decided status ≠ none := by
  cases status <;> simp_all [decided]

section

variable (h : Agrees s outcome)

include h

theorem Agrees.resolve {record : TxnRecord Shard}
    (hstatus : status ≠ .preparing) (hnone : outcome record.txnId = none)
    (hid : record.txnId ∈ s.ids) (coordinators : Text → Option (Coordinator Shard))
    (hcoordinators : coordinators = Function.update s.coordinators record.txnId none) :
    Agrees { s.resolve record status with coordinators := coordinators }
      (Function.update outcome record.txnId (decided status)) := by
  -- whatever carries a decision belongs to another transaction
  have hother : ∀ {t : Text} {b : Option Bool}, b ≠ none → b = outcome t →
      b = Function.update outcome record.txnId (decided status) t := by
    intro t b hb heq
    rw [update_of_ne]
    · exact heq
    · rintro rfl
      exact hb (heq.trans hnone)
  subst hcoordinators
  refine ⟨?_, ?_, ?_, ?_, ?_, ?_, ?_⟩
  · intro t r hr
    by_cases ht : t = record.txnId
    · subst ht
      obtain rfl : _ = r := by
        simpa [Cluster.resolve, Cluster.txnWrite, Cluster.driveTxn] using hr
      simp
    · have hold : s.txnlog t = some r := by
        simpa [Cluster.resolve, Cluster.txnWrite, Cluster.driveTxn, ht] using hr
      rw [update_of_ne ht]
      exact h.txnlog t r hold
  · intro t c hc
    have ht : t ≠ record.txnId := by
      rintro rfl
      simp at hc
    rw [update_of_ne ht]
    exact h.coordinators t c (by simpa [ht] using hc)
  · intro d hd
    rcases mem_append.mp hd with hd | hd
    · obtain ⟨hne, heq⟩ := h.drives d hd
      exact ⟨hne, hother (decided_ne_none hne) heq⟩
    · rw [mem_singleton.mp hd]
      exact ⟨hstatus, by simp⟩
  · intro r hr hne
    exact hother (decided_ne_none hne) (h.sweeps r hr hne)
  · intro shard c t b hc hd
    exact (hother (by simp) (h.calls shard c t b hc hd).symm).symm
  · intro shard t b hb
    exact (hother (by simp) (h.outcomes shard t b hb).symm).symm
  · intro t ht
    have hne : t ≠ record.txnId := fun heq => ht (heq ▸ hid)
    obtain ⟨hlog, hcoordinator, hold⟩ := h.fresh t ht
    refine ⟨?_, by simpa [hne] using hcoordinator, by simpa [hne] using hold⟩
    simpa [Cluster.resolve, Cluster.txnWrite, Cluster.driveTxn, hne] using hlog

theorem Agrees.setCoordinator {c' : Coordinator Shard} (hc : s.coordinators t = some c)
    (hrecord : c'.record = c.record) : Agrees (s.setCoordinator t (some c')) outcome := by
  obtain ⟨hid, hnone⟩ := h.coordinators t c hc
  refine { h with coordinators := ?_, fresh := ?_ }
  · intro t' c'' hc''
    by_cases ht : t' = t
    · subst ht
      obtain rfl : c' = c'' := by simpa [Cluster.setCoordinator] using hc''
      exact ⟨by rw [hrecord, hid], hnone⟩
    · exact h.coordinators t' c'' (by simpa [Cluster.setCoordinator, ht] using hc'')
  · intro t' ht'
    obtain ⟨hlog, hcoordinator, hold⟩ := h.fresh t' ht'
    have hne : t' ≠ t := by
      rintro rfl
      simp [hcoordinator] at hc
    exact ⟨hlog, by simpa [Cluster.setCoordinator, hne] using hcoordinator, hold⟩

theorem Agrees.call (shard : Shard) {command : Command}
    (hc : ∀ t b, decides command = some (t, b) → outcome t = some b) :
    Agrees (s.call shard command) outcome := by
  refine { h with calls := ?_ }
  intro shard' c t b hmem hd
  rcases mem_append.mp hmem with hmem | hmem
  · exact h.calls shard' c t b hmem hd
  · obtain ⟨rfl, rfl⟩ : shard' = shard ∧ c = command := by simpa using hmem
    exact hc t b hd

theorem Agrees.setDrive {i : Nat} {d d' : Drive Shard} (hd : s.drives[i]? = some d)
    (hrecord : d'.record = d.record) : Agrees (s.setDrive i d') outcome := by
  refine { h with drives := ?_ }
  intro x hx
  rcases mem_or_eq_of_mem_set hx with hx | rfl
  · exact h.drives x hx
  · rw [hrecord]
    exact h.drives d (mem_of_getElem? hd)

theorem Agrees.driveTxn {record : TxnRecord Shard} (hstatus : record.status ≠ .preparing)
    (hrecord : decided record.status = outcome record.txnId) :
    Agrees (s.driveTxn record) outcome := by
  refine { h with drives := ?_ }
  intro x hx
  rcases mem_append.mp hx with hx | hx
  · exact h.drives x hx
  · rw [mem_singleton.mp hx]
    exact ⟨hstatus, hrecord⟩

theorem Agrees.forget {t : Cluster Shard}
    (htxnlog : ∀ id r, t.txnlog id = some r → s.txnlog id = some r)
    (hcoordinators : ∀ id c, t.coordinators id = some c → s.coordinators id = some c)
    (hdrives : ∀ d ∈ t.drives, d ∈ s.drives) (hsweeps : ∀ r ∈ t.sweeps, r ∈ s.sweeps)
    (hcalls : ∀ c ∈ t.calls, c ∈ s.calls) (houtcomes : t.outcomes = s.outcomes)
    (hids : t.ids = s.ids) : Agrees t outcome := by
  refine ⟨fun id r hr => h.txnlog id r (htxnlog id r hr),
    fun id c hc => h.coordinators id c (hcoordinators id c hc),
    fun d hd => h.drives d (hdrives d hd), fun r hr => h.sweeps r (hsweeps r hr),
    fun shard c id b hc => h.calls shard c id b (hcalls _ hc), houtcomes ▸ h.outcomes, ?_⟩
  intro id hid
  obtain ⟨hlog, hcoordinator, hnone⟩ := h.fresh id (hids ▸ hid)
  refine ⟨?_, ?_, hnone⟩
  · cases hr : t.txnlog id with
    | none => rfl
    | some r => simp [htxnlog id r hr] at hlog
  · cases hc : t.coordinators id with
    | none => rfl
    | some c => simp [hcoordinators id c hc] at hcoordinator

end

/-- Recovery decides only about transactions whose coordinator is gone and whose
record is still in preparation, and transaction ids do not repeat. -/
def CarefulRecovery (s : Cluster Shard) : Event Shard → Prop
  | .start node _ wall _ => txnName node ((s.clocks node).now wall).2 ∉ s.ids
  | .recover i true => ∀ r ∈ s.sweeps[i]?, r.status = .preparing →
      s.coordinators r.txnId = none ∧ (s.txnlog r.txnId).map TxnRecord.status = some .preparing
  | _ => True

instance (s : Cluster Shard) (a : Event Shard) : Decidable (CarefulRecovery s a) := by
  induction a using Event.casesOn with
  | recover _ expired => cases expired <;> unfold CarefulRecovery <;> infer_instance
  | _ => unfold CarefulRecovery; infer_instance

theorem removes_eq_some {store : Store} {command : Command}
    (h : removes store command = some (t, b)) : decides command = some (t, b) := by
  cases command with
  | commit | abort =>
    simp only [removes] at h
    split at h
    · simp at h
    · exact h
  | control | write | prepare => simp [removes] at h

theorem Agrees.start (h : Agrees s outcome) {record : TxnRecord Shard}
    (hstatus : record.status = .preparing) (hid : record.txnId ∉ s.ids) (node : Text)
    (clock : HLC) (wall : Int) (rest : List (Shard × Dict Text (Option Text))) :
    Agrees { ((s.tick node clock wall).txnWrite record).setCoordinator record.txnId
        (some ⟨record, rest, false⟩) with ids := record.txnId :: s.ids } outcome := by
  obtain ⟨hlog, hcoordinator, hnone⟩ := h.fresh _ hid
  refine ⟨?_, ?_, h.drives, h.sweeps, h.calls, h.outcomes, ?_⟩
  · intro t r hr
    by_cases ht : t = record.txnId
    · subst ht
      obtain rfl : record = r := by
        simpa [Cluster.setCoordinator, Cluster.txnWrite] using hr
      exact ⟨rfl, by rw [hstatus, hnone]; rfl⟩
    · exact h.txnlog t r (by
        simpa [Cluster.setCoordinator, Cluster.txnWrite, Cluster.tick, ht] using hr)
  · intro t c hc
    by_cases ht : t = record.txnId
    · subst ht
      obtain rfl : _ = c := by simpa [Cluster.setCoordinator] using hc
      exact ⟨rfl, hnone⟩
    · exact h.coordinators t c (by
        simpa [Cluster.setCoordinator, Cluster.txnWrite, Cluster.tick, ht] using hc)
  · intro t ht
    obtain ⟨hne, ht⟩ : t ≠ record.txnId ∧ t ∉ s.ids := by simpa using ht
    simpa [Cluster.setCoordinator, Cluster.txnWrite, Cluster.tick, hne] using h.fresh t ht

theorem Agrees.mem_ids (h : Agrees s outcome) (ht : s.coordinators t ≠ none ∨ s.txnlog t ≠ none) :
    t ∈ s.ids := by
  by_contra hid
  obtain ⟨hlog, hcoordinator, -⟩ := h.fresh t hid
  exact ht.elim (fun hne => hne hcoordinator) fun hne => hne hlog

theorem Agrees.decide (h : Agrees s outcome) (hc : s.coordinators t = some c)
    (hstatus : status ≠ .preparing) :
    Agrees ((s.resolve c.record status).setCoordinator t none)
      (Function.update outcome t (decided status)) := by
  obtain ⟨rfl, hnone⟩ := h.coordinators t c hc
  exact h.resolve hstatus hnone (h.mem_ids (.inl (by simp [hc]))) _ rfl

theorem Agrees.recover (h : Agrees s outcome) {record : TxnRecord Shard}
    (hcoordinator : s.coordinators record.txnId = none)
    (hlog : (s.txnlog record.txnId).map TxnRecord.status = some .preparing) :
    Agrees (s.resolve record .aborted) (Function.update outcome record.txnId (some false)) := by
  obtain ⟨r, hr, hstatus⟩ := map_eq_some_iff.mp hlog
  have hnone : outcome record.txnId = none := by
    rw [← (h.txnlog _ r hr).2, hstatus]
    rfl
  refine h.resolve (by simp) hnone (h.mem_ids (.inr (by simp [hr]))) s.coordinators ?_
  rw [← hcoordinator, update_eq_self]

variable [DecidableEq Shard]

theorem Agrees.execute (h : Agrees s outcome) {shard : Shard} {command : Command}
    (hc : (shard, command) ∈ s.calls) : Agrees (s.execute shard command) outcome := by
  refine { h with outcomes := ?_ }
  intro shard' t b hmem
  rcases mem_append.mp hmem with hmem | hmem
  · exact h.outcomes shard' t b hmem
  · obtain ⟨x, hx, heq⟩ := mem_map.mp hmem
    obtain ⟨rfl, rfl⟩ := Prod.mk.inj heq
    exact h.calls shard command t b hc (removes_eq_some (by simpa using hx))

variable {u : Cluster Shard}

theorem Agrees.step_write (h : Agrees s outcome) {node : Text} {shard : Shard}
    {writes : Dict Text (Option Text)} {readTs : Option Int} {wall : Int}
    (hstep : step s (.write node shard writes readTs wall) = some u) :
    ∃ outcome', Agrees u outcome' := by
  cases hstep
  have htick : Agrees (s.tick node ((Job.write writes readTs).stamp (s.clocks node)
      ((Job.write writes readTs).snapshot (s.stores shard)) wall).1 wall) outcome :=
    h.forget (fun _ _ h => h) (fun _ _ h => h) (fun _ h => h) (fun _ h => h)
      (fun _ h => h) rfl rfl
  exact ⟨outcome, htick.call shard fun t b hd => by simp [Job.command, decides] at hd⟩

theorem Agrees.step_prepare (h : Agrees s outcome) {txnId : Text}
    (hstep : step s (.prepare txnId) = some u) : ∃ outcome', Agrees u outcome' := by
  simp only [ClusterTransactions.step] at hstep
  split at hstep <;> cases hstep
  rename_i record shard writes rest called hc
  have hcall : Agrees (s.call shard (.prepare txnId record.commitTs writes.entries)) outcome :=
    h.call shard (by simp [decides])
  exact ⟨outcome, hcall.setCoordinator hc rfl⟩

theorem Agrees.step_vote (h : Agrees s outcome) {txnId : Text} {ok : Bool}
    (hstep : step s (.vote txnId ok) = some u) : ∃ outcome', Agrees u outcome' := by
  simp only [ClusterTransactions.step] at hstep
  split at hstep
  · rename_i record shard writes rest hc
    split at hstep
    · cases hstep
      exact ⟨_, h.decide hc (by simp)⟩
    · split at hstep <;> cases hstep
      exact ⟨outcome, h.setCoordinator hc rfl⟩
  · simp at hstep

theorem Agrees.step_send (h : Agrees s outcome) {i : Nat} (hstep : step s (.send i) = some u) :
    ∃ outcome', Agrees u outcome' := by
  simp only [ClusterTransactions.step] at hstep
  split at hstep <;> cases hstep
  rename_i record shard rest called allOk hd
  obtain ⟨hne, heq⟩ := h.drives _ (mem_of_getElem? hd)
  have hcall : Agrees (s.call shard record.decision) outcome := by
    refine h.call shard fun t b hb => ?_
    obtain ⟨rfl, hstatus⟩ := decides_decision hne hb
    exact heq.symm.trans hstatus
  exact ⟨outcome, hcall.setDrive hd rfl⟩

theorem Agrees.step_ack (h : Agrees s outcome) {i : Nat} {ok : Bool}
    (hstep : step s (.ack i ok) = some u) : ∃ outcome', Agrees u outcome' := by
  simp only [ClusterTransactions.step] at hstep
  split at hstep
  · rename_i record shard rest allOk hd
    split at hstep <;> cases hstep
    exact ⟨outcome, h.setDrive hd rfl⟩
  · simp at hstep

theorem Agrees.step_finish (h : Agrees s outcome) {i : Nat} (hstep : step s (.finish i) = some u) :
    ∃ outcome', Agrees u outcome' := by
  simp only [ClusterTransactions.step] at hstep
  split at hstep <;> cases hstep
  rename_i record called allOk hd
  refine ⟨outcome, h.forget ?_ (fun _ _ h => h) (fun _ => mem_of_mem_eraseIdx)
    (fun _ h => h) (fun _ h => h) rfl rfl⟩
  intro id r hr
  cases allOk with
  | false => exact hr
  | true =>
    have hne : id ≠ record.txnId := by
      rintro rfl
      simp at hr
    simpa [hne] using hr

theorem Agrees.step_sweep (h : Agrees s outcome) {txnId : Text}
    (hstep : step s (.sweep txnId) = some u) : ∃ outcome', Agrees u outcome' := by
  obtain ⟨record, hr, rfl⟩ := map_eq_some_iff.mp hstep
  refine ⟨outcome, h.txnlog, h.coordinators, h.drives, ?_, h.calls, h.outcomes, h.fresh⟩
  intro r hmem hne
  rcases mem_append.mp hmem with hmem | hmem
  · exact h.sweeps r hmem hne
  · obtain rfl := mem_singleton.mp hmem
    obtain ⟨rfl, heq⟩ := h.txnlog txnId r hr
    exact heq

theorem Agrees.step_recover (h : Agrees s outcome) {i : Nat} {expired : Bool}
    (ha : CarefulRecovery s (.recover i expired)) (hstep : step s (.recover i expired) = some u) :
    ∃ outcome', Agrees u outcome' := by
  obtain ⟨record, hr, rfl⟩ := map_eq_some_iff.mp hstep
  have hrest : Agrees { s with sweeps := s.sweeps.eraseIdx i } outcome :=
    h.forget (fun _ _ h => h) (fun _ _ h => h) (fun _ h => h)
      (fun _ => mem_of_mem_eraseIdx) (fun _ h => h) rfl rfl
  simp only
  split
  · rename_i hstatus
    split
    · rename_i hexpired
      subst hexpired
      obtain ⟨hcoordinator, hlog⟩ := ha record hr hstatus
      exact ⟨_, hrest.recover hcoordinator hlog⟩
    · exact ⟨outcome, hrest⟩
  · rename_i hstatus
    exact ⟨outcome, hrest.driveTxn hstatus (h.sweeps record (mem_of_getElem? hr) hstatus)⟩

theorem Agrees.step {t : Cluster Shard} {a : Event Shard} (h : Agrees s outcome)
    (ha : CarefulRecovery s a) (hstep : step s a = some t) : ∃ outcome', Agrees t outcome' := by
  cases a with
  | begin node wall =>
    cases hstep
    exact ⟨outcome, h.forget (fun _ _ h => h) (fun _ _ h => h) (fun _ h => h) (fun _ h => h)
      (fun _ h => h) rfl rfl⟩
  | write node shard writes readTs wall => exact h.step_write hstep
  | start node groups wall wall' =>
    cases hstep
    refine ⟨outcome, h.start rfl ?_ node _ wall' groups.entries⟩
    exact ha
  | prepare txnId => exact h.step_prepare hstep
  | vote txnId ok => exact h.step_vote hstep
  | decide txnId =>
    simp only [ClusterTransactions.step] at hstep
    split at hstep <;> cases hstep
    rename_i record hc
    exact ⟨_, h.decide hc (by simp)⟩
  | send i => exact h.step_send hstep
  | ack i ok => exact h.step_ack hstep
  | finish i => exact h.step_finish hstep
  | sweep txnId => exact h.step_sweep hstep
  | recover i expired => exact h.step_recover ha hstep
  | execute i =>
    obtain ⟨⟨shard, command⟩, hc, rfl⟩ := map_eq_some_iff.mp hstep
    exact ⟨outcome, (h.execute (mem_of_getElem? hc)).forget (fun _ _ h => h)
      (fun _ _ h => h) (fun _ h => h) (fun _ h => h) (fun _ => mem_of_mem_eraseIdx) rfl rfl⟩
  | drop i =>
    obtain ⟨call, -, rfl⟩ := map_eq_some_iff.mp hstep
    exact ⟨outcome, h.forget (fun _ _ h => h) (fun _ _ h => h) (fun _ h => h) (fun _ h => h)
      (fun _ => mem_of_mem_eraseIdx) rfl rfl⟩
  | crash node =>
    cases hstep
    refine ⟨outcome, h.forget (fun _ _ h => h) ?_ (fun _ hd => (mem_filter.mp hd).1)
      (fun _ hr => (mem_filter.mp hr).1) (fun _ h => h) rfl rfl⟩
    intro id c hc
    exact (filter_eq_some_iff.mp hc).1

/-- No transaction is committed on one shard and aborted on another. -/
theorem committed_of_committed {t : Text} {shard shard' : Shard}
    (h : Reaches step CarefulRecovery init s) (hc : (shard, t, true) ∈ s.outcomes) :
    (shard', t, false) ∉ s.outcomes := by
  obtain ⟨outcome, hagrees⟩ : ∃ outcome, Agrees s outcome :=
    h.invariant (fun s => ∃ outcome, Agrees s outcome) ⟨_, agrees_init⟩
      fun _ _ _ ⟨_, hu⟩ ha hstep => hu.step ha hstep
  intro ha
  have htrue := hagrees.outcomes shard t true hc
  rw [hagrees.outcomes shard' t false ha] at htrue
  simp at htrue

def sampleTxn : Text := txnName "n1".toList 1

def sampleGroups : Dict Bool (Dict Text (Option Text)) :=
  (Dict.empty.set false (Dict.empty.set "a".toList (some "1".toList))).set true
    (Dict.empty.set "b".toList (some "2".toList))

def prepareFirst : List (Event Bool) :=
  [.start "n1".toList sampleGroups 1 2, .prepare sampleTxn, .execute 0, .vote sampleTxn true,
    .prepare sampleTxn]

/-- The coordinator crashes between its two commits and recovery sends them again. -/
def crashAndRecover : List (Event Bool) :=
  prepareFirst ++
    [Event.execute 0, .vote sampleTxn true, .decide sampleTxn, .send 0, .execute 0, .ack 0 true,
      .crash "n1".toList, .sweep sampleTxn, .recover 0 true, .send 0, .execute 0, .ack 0 true,
      .send 0, .execute 0, .ack 0 true, .finish 0]

theorem committed_of_committed_of_crash : ∃ s : Cluster Bool,
    Reaches step CarefulRecovery init s ∧ (false, sampleTxn, true) ∈ s.outcomes ∧
      (true, sampleTxn, false) ∉ s.outcomes := by
  obtain ⟨s, hs, hc⟩ := exists_reaches step CarefulRecovery init crashAndRecover
    (fun s => (false, sampleTxn, true) ∈ s.outcomes) (by decide +kernel)
  exact ⟨s, hs, hc, committed_of_committed hs hc⟩

/-- Recovery takes the coordinator for dead while it waits for the second shard, whose
prepare is executed after the abort. -/
def slowPrepare : List (Event Bool) :=
  prepareFirst ++
    [Event.sweep sampleTxn, .recover 0 true, .send 0, .execute 1, .ack 0 true, .send 0, .execute 1,
      .ack 0 true, .finish 0, .execute 0, .vote sampleTxn true, .decide sampleTxn, .send 0,
      .execute 0, .ack 0 true, .send 0, .execute 0]

theorem not_committed_of_committed_of_slowPrepare :
    ¬∀ s : Cluster Bool, Reaches step (fun _ _ => True) init s → ∀ t shard shard',
      (shard, t, true) ∈ s.outcomes → (shard', t, false) ∉ s.outcomes := by
  intro hall
  obtain ⟨s, hs, hc, ha⟩ := exists_reaches step (fun _ _ => True) init slowPrepare
    (fun s => (true, sampleTxn, true) ∈ s.outcomes ∧ (false, sampleTxn, false) ∈ s.outcomes)
    (by decide +kernel)
  exact hall s hs sampleTxn true false hc ha

end LiteDB.TwoPhaseCommit
