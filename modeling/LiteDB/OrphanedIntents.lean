import LiteDB.TwoPhaseCommit

namespace LiteDB.OrphanedIntents

open ClusterTransactions List Option Runs ShardStore SortedMaps TwoPhaseCommit VersionKeys

variable {Shard : Type}

def Decided (s : Cluster Shard) (shard : Shard) (t : Text) : Prop :=
  (shard, .commit t) ∈ s.executed ∨ (shard, .abort t) ∈ s.executed

variable [DecidableEq Shard]

instance (s : Cluster Shard) (shard : Shard) (t : Text) : Decidable (Decided s shard t) :=
  inferInstanceAs (Decidable (_ ∨ _))

def prepares : Command → Option Text
  | .prepare txnId _ _ => some txnId
  | _ => none

/-- A shard executes no prepare of a transaction after a decision of it. -/
def InOrder (s : Cluster Shard) : Event Shard → Prop
  | .execute i => ∀ call ∈ s.calls[i]?, ∀ t ∈ prepares call.2, ¬Decided s call.1 t
  | _ => True

instance (s : Cluster Shard) (a : Event Shard) : Decidable (InOrder s a) := by
  induction a using Event.casesOn <;> unfold InOrder <;> infer_instance

/-- A drive without a failed call has been answered by every participant that is not
waiting for its turn, and a shard with a decision holds no intent. -/
structure Settled (s : Cluster Shard) : Prop where
  drives : ∀ d ∈ s.drives, d.allOk = true →
    ∀ shard ∈ d.record.participants, shard ∈ d.rest ∨ Decided s shard d.record.txnId
  stores : ∀ shard t, Decided s shard t → (s.stores shard).intents.get? t = none

omit [DecidableEq Shard] in
theorem settled_init : Settled (init : Cluster Shard) := by
  constructor <;> simp [init, Decided]

variable {s t : Cluster Shard} {shard : Shard} {id : Text} {a : Event Shard} {d : Drive Shard}

omit [DecidableEq Shard] in
theorem decided_of_decision {record : TxnRecord Shard} (h : (shard, record.decision) ∈ s.executed) :
    Decided s shard record.txnId := by
  unfold TxnRecord.decision at h
  split at h
  · exact .inl h
  · exact .inr h

theorem intents_apply_decision (store : Store) {command : Command}
    (h : command = .commit id ∨ command = .abort id) :
    (store.apply command).intents.get? id = none := by
  rcases h with rfl | rfl
  · rw [Store.intents_apply_commit, Dict.get?_erase, if_pos rfl]
  · rw [Store.apply_abort, Dict.get?_erase, if_pos rfl]

theorem intents_apply_of_none {store : Store} {command : Command}
    (hnone : store.intents.get? id = none) (hprepares : id ∉ prepares command) :
    (store.apply command).intents.get? id = none := by
  rw [eq_none_iff_forall_ne_some]
  intro staged hstaged
  rcases Store.mem_intents_apply (Dict.get?_eq_some_iff.mp hstaged) with hold | rfl
  · rw [Dict.get?_eq_some_iff.mpr hold] at hnone
    simp at hnone
  · exact hprepares rfl

theorem intents_execute {target : Shard} {command : Command}
    (h : ∀ shard id, Decided s shard id → (s.stores shard).intents.get? id = none)
    (horder : ∀ id ∈ prepares command, ¬Decided s target id) (shard : Shard) (id : Text)
    (hid : Decided (s.execute target command) shard id) :
    ((s.execute target command).stores shard).intents.get? id = none := by
  by_cases hsame : shard = target
  · subst hsame
    simp only [Cluster.execute, Function.update_self]
    by_cases hold : Decided s shard id
    · exact intents_apply_of_none (h _ id hold) fun hmem => horder id hmem hold
    · refine intents_apply_decision _ ?_
      unfold Decided at hid hold
      simp only [Cluster.execute, mem_append, mem_singleton, Prod.mk.injEq, true_and]
        at hid
      tauto
  · have hold : Decided s shard id := by
      simpa [Decided, Cluster.execute, hsame] using hid
    simpa [Cluster.execute, hsame] using h shard id hold

theorem step_stores (hstep : step s a = some t) :
    (∃ i call, a = .execute i ∧ s.calls[i]? = some call ∧
      t = { s.execute call.1 call.2 with calls := s.calls.eraseIdx i }) ∨
      (t.stores = s.stores ∧ t.executed = s.executed) := by
  cases a with
  | execute i =>
    obtain ⟨call, hc, rfl⟩ := map_eq_some_iff.mp hstep
    exact .inl ⟨i, call, rfl, hc, rfl⟩
  | sweep | drop =>
    obtain ⟨_, -, rfl⟩ := map_eq_some_iff.mp hstep
    exact .inr ⟨rfl, rfl⟩
  | recover i expired =>
    obtain ⟨_, -, rfl⟩ := map_eq_some_iff.mp hstep
    simp only
    split
    · split <;> exact .inr ⟨rfl, rfl⟩
    · exact .inr ⟨rfl, rfl⟩
  | begin | write | start | crash =>
    cases hstep
    exact .inr ⟨rfl, rfl⟩
  | prepare | decide | send | finish =>
    simp only [ClusterTransactions.step] at hstep
    split at hstep <;> cases hstep
    exact .inr ⟨rfl, rfl⟩
  | vote txnId ok =>
    simp only [ClusterTransactions.step] at hstep
    split at hstep
    · split at hstep
      · cases hstep
        exact .inr ⟨rfl, rfl⟩
      · split at hstep <;> cases hstep
        exact .inr ⟨rfl, rfl⟩
    · simp at hstep
  | ack i ok =>
    simp only [ClusterTransactions.step] at hstep
    split at hstep
    · split at hstep <;> cases hstep
      exact .inr ⟨rfl, rfl⟩
    · simp at hstep

/-- A drive is new, or as it was, or one more participant has answered it. -/
def Continues (s : Cluster Shard) (d : Drive Shard) : Prop :=
  d.rest = d.record.participants ∨
    ∃ d' ∈ s.drives, d.record = d'.record ∧ (d.allOk = true → d'.allOk = true) ∧
      (d.rest = d'.rest ∨ ∃ shard, d'.rest = shard :: d.rest ∧
        (d.allOk = true → (shard, d.record.decision) ∈ s.executed))

omit [DecidableEq Shard] in
theorem continues_of_mem (h : d ∈ s.drives) : Continues s d :=
  .inr ⟨d, h, rfl, id, .inl rfl⟩

omit [DecidableEq Shard] in
theorem continues_driveTxn {record : TxnRecord Shard}
    (h : d ∈ s.drives ++ [⟨record, record.participants, false, true⟩]) : Continues s d := by
  rcases mem_append.mp h with hold | hnew
  · exact continues_of_mem hold
  · rw [mem_singleton.mp hnew]
    exact .inl rfl

theorem step_drives (hstep : step s a = some t) (hd : d ∈ t.drives) : Continues s d := by
  cases a with
  | vote txnId ok =>
    simp only [ClusterTransactions.step] at hstep
    split at hstep
    · split at hstep
      · cases hstep
        exact continues_driveTxn hd
      · split at hstep <;> cases hstep
        exact continues_of_mem hd
    · simp at hstep
  | decide txnId =>
    simp only [ClusterTransactions.step] at hstep
    split at hstep <;> cases hstep
    exact continues_driveTxn hd
  | recover i expired =>
    obtain ⟨record, -, rfl⟩ := map_eq_some_iff.mp hstep
    simp only at hd
    split at hd
    · split at hd
      · exact continues_driveTxn hd
      · exact continues_of_mem hd
    · exact continues_driveTxn hd
  | send i =>
    simp only [ClusterTransactions.step] at hstep
    split at hstep <;> cases hstep
    rename_i record shard rest called allOk hold
    rcases mem_or_eq_of_mem_set hd with hd | rfl
    · exact continues_of_mem hd
    · exact .inr ⟨_, mem_of_getElem? hold, rfl, id, .inl rfl⟩
  | ack i ok =>
    simp only [ClusterTransactions.step] at hstep
    split at hstep
    · rename_i record shard rest allOk hold
      split at hstep <;> cases hstep
      rename_i hguard
      rcases mem_or_eq_of_mem_set hd with hd | rfl
      · exact continues_of_mem hd
      · refine .inr ⟨_, mem_of_getElem? hold, rfl, ?_, .inr ⟨shard, rfl, ?_⟩⟩
        · simp +contextual
        · simp +contextual [hguard.resolve_left]
    · simp at hstep
  | finish i =>
    simp only [ClusterTransactions.step] at hstep
    split at hstep <;> cases hstep
    exact continues_of_mem (mem_of_mem_eraseIdx hd)
  | prepare txnId =>
    simp only [ClusterTransactions.step] at hstep
    split at hstep <;> cases hstep
    exact continues_of_mem hd
  | sweep | drop | execute =>
    obtain ⟨_, -, rfl⟩ := map_eq_some_iff.mp hstep
    exact continues_of_mem hd
  | begin | write | start =>
    cases hstep
    exact continues_of_mem hd
  | crash node =>
    cases hstep
    exact continues_of_mem (mem_filter.mp hd).1

theorem executed_subset (hstep : step s a = some t) : s.executed ⊆ t.executed := by
  rcases step_stores hstep with ⟨_, _, -, -, rfl⟩ | ⟨-, hexecuted⟩
  · exact subset_append_left _ _
  · exact hexecuted ▸ List.Subset.refl _

theorem Decided.step (h : Decided s shard id) (hstep : step s a = some t) : Decided t shard id :=
  h.imp (fun hc => executed_subset hstep hc) fun hc => executed_subset hstep hc

theorem Settled.step (h : Settled s) (ha : InOrder s a) (hstep : step s a = some t) :
    Settled t := by
  refine ⟨?_, ?_⟩
  · intro d hd hok shard hshard
    rcases step_drives hstep hd with hnew | ⟨d', hd', hrecord, hall, hrest⟩
    · exact .inl (hnew ▸ hshard)
    · rw [hrecord] at hshard ⊢
      have hold := (h.drives d' hd' (hall hok) shard hshard).imp id fun hc => hc.step hstep
      rcases hrest with hrest | ⟨shard', hrest, hexecuted⟩
      · rwa [hrest]
      -- the participant that has answered executed the decision
      · rw [hrest, mem_cons] at hold
        rcases hold with (rfl | hold) | hold
        · have hdecided := decided_of_decision (hexecuted hok)
          exact .inr ((hrecord ▸ hdecided).step hstep)
        · exact .inl hold
        · exact .inr hold
  · rcases step_stores hstep with ⟨i, call, rfl, hc, rfl⟩ | ⟨hstores, hexecuted⟩
    · exact intents_execute h.stores (ha call hc)
    · simp only [Decided, hstores, hexecuted]
      exact h.stores

/-- Once the record of a transaction is removed because every participant has answered,
no participant holds an intent of it, and no key is locked by it. -/
theorem no_intent_of_finish {u v : Cluster Shard} {i : Nat} {record : TxnRecord Shard}
    {called : Bool} (h : Reaches step InOrder init s)
    (hd : s.drives[i]? = some ⟨record, [], called, true⟩)
    (hfinish : step s (.finish i) = some u) (hrun : Reaches step InOrder u v) :
    u.txnlog record.txnId = none ∧ ∀ shard ∈ record.participants,
      (v.stores shard).intents.get? record.txnId = none ∧
      ∀ key exclude, (v.stores shard).intentLocking key exclude ≠ some record.txnId := by
  have hu : Reaches step InOrder init u := h.tail (by trivial) hfinish
  have hsettled : ∀ {w : Cluster Shard}, Reaches step InOrder init w → Settled w := fun hw =>
    hw.invariant Settled settled_init fun _ _ _ hx ha hstep => hx.step ha hstep
  refine ⟨?_, fun shard hshard => ?_⟩
  · simp only [step, hd, Option.some.injEq] at hfinish
    simp [← hfinish]
  · have hdecided : Decided s shard record.txnId := by
      simpa using (hsettled h).drives _ (mem_of_getElem? hd) rfl shard hshard
    have hlater : Decided v shard record.txnId :=
      hrun.invariant (fun w => Decided w shard record.txnId) (hdecided.step hfinish)
        fun _ _ _ hw _ hstep => hw.step hstep
    have hnone := (hsettled (hu.trans hrun)).stores shard _ hlater
    exact ⟨hnone, fun key exclude hlock => Store.get?_ne_none_of_intentLocking hlock hnone⟩

/-- The second prepare is sent twice, and the transaction commits on both shards. -/
def commitBoth : List (Event Bool) :=
  prepareFirst ++
    [Event.prepare sampleTxn, .execute 0, .execute 0, .vote sampleTxn true, .decide sampleTxn,
      .send 0, .execute 0, .ack 0 true, .send 0, .execute 0, .ack 0 true]

def sampleRecord (status : Status) : TxnRecord Bool :=
  ⟨"n1".toList, sampleTxn, status, [false, true], 2⟩

def sampleDrive (status : Status) : Drive Bool :=
  ⟨sampleRecord status, [], false, true⟩

theorem no_intent_of_finish_of_commitBoth : ∃ s u : Cluster Bool,
    Reaches step InOrder init s ∧ step s (.finish 0) = some u ∧
      (u.stores true).intents.get? sampleTxn = none := by
  obtain ⟨s, hs, hd⟩ := exists_reaches step InOrder init commitBoth
    (fun s => s.drives[0]? = some (sampleDrive .committing)) (by decide +kernel)
  obtain ⟨u, hu⟩ : ∃ u, step s (.finish 0) = some u := by simp [step, hd, sampleDrive]
  exact ⟨s, u, hs, hu, ((no_intent_of_finish hs hd hu (Reaches.refl u)).2 true (by decide)).1⟩

/-- The prepare of the second shard takes so long that the transaction is aborted,
and is executed when the abort has been acknowledged by both shards. -/
def latePrepare : List (Event Bool) :=
  prepareFirst ++
    [Event.vote sampleTxn false, .send 0, .execute 1, .ack 0 true, .send 0, .execute 1, .ack 0 true]

theorem not_no_intent_of_finish_of_latePrepare :
    ¬∀ (s u v : Cluster Bool) (i : Nat) (record : TxnRecord Bool) (called : Bool),
      Reaches step (fun _ _ => True) init s →
      s.drives[i]? = some ⟨record, [], called, true⟩ → step s (.finish i) = some u →
      Reaches step (fun _ _ => True) u v → ∀ shard ∈ record.participants,
        (v.stores shard).intents.get? record.txnId = none := by
  intro hall
  obtain ⟨s, hs, hd, hrest⟩ := exists_reaches step (fun _ _ => True) init latePrepare
    (fun s => s.drives[0]? = some (sampleDrive .aborted) ∧ (step s (.finish 0)).any fun u =>
      ([.execute 0].foldlM (guarded step fun _ _ => True) u).any fun v =>
        (v.stores true).intents.get? sampleTxn ≠ none) (by decide +kernel)
  obtain ⟨u, hu, hlast⟩ := (any_eq_true _ _).mp hrest
  obtain ⟨v, hv, hsome⟩ := exists_reaches step (fun _ _ => True) u [.execute 0] _ hlast
  exact hsome (hall s u v 0 _ _ hs hd hu hv true (by decide))

end LiteDB.OrphanedIntents
