import LiteDB.CommitHistory

namespace LiteDB.ReplicaSafety

open CommitHistory Finset LeaderHistory List LogMatching Majorities RaftNode RaftNodeSpec
open RaftGroup

variable {Node α : Type} {V : Finset Node} {h h' : Record Node α} {P log : List (Entry Node α)}
  {req : AppendRequest Node α}

section Committed

variable {Q : List (Entry Node α)} {t t' : Nat}

/-- The entries were committed by the leader of a term up to `t`. -/
def Committed (h : Record Node α) (t : Nat) (P : List (Entry Node α)) : Prop :=
  P = [] ∨ ∃ T i m, h.commits T i m ∧ T ≤ t ∧ P <+: (h.full T).take i

theorem Committed.of_le (hP : Committed h t P) (hle : Q <+: P) : Committed h t Q := by
  rcases hP with rfl | ⟨T, i, m, hc, hT, hP⟩
  · exact .inl (prefix_nil.mp hle)
  · exact .inr ⟨T, i, m, hc, hT, hle.trans hP⟩

theorem Committed.later (hP : Committed h t P) (hle : t ≤ t') : Committed h t' P := by
  rcases hP with rfl | ⟨T, i, m, hc, hT, hP⟩
  · exact .inl rfl
  · exact .inr ⟨T, i, m, hc, hT.trans hle, hP⟩

def Comparable (P Q : List (Entry Node α)) : Prop := P <+: Q ∨ Q <+: P

theorem base_le_of_sent (hw : Wellformed Entry.term h.toHistory) (hs : Sent h.toHistory req P)
    {b : List (Entry Node α)} (hb : h.base req.term = some b) : b <+: P := by
  obtain ⟨A, e, rfl, he⟩ := hs.last
  exact (hw.base_le_of_term hb hs.le_full he).trans (prefix_append _ _)

theorem atLeast_refl (log : List (Entry Node α)) : AtLeast Entry.term log log :=
  .inr ⟨rfl, le_rfl⟩

variable [DecidableEq Node]

theorem Committed.mono (hP : Committed h t P) (hr : RecordSafe V h)
    (hext : Extends h.toHistory h'.toHistory)
    (hcommits : ∀ T i m, h.commits T i m → h'.commits T i m) : Committed h' t P := by
  rcases hP with rfl | ⟨T, i, m, hc, hT, hP⟩
  · exact .inl rfl
  · have hlen := hr.commit_le hc
    refine .inr ⟨T, i, m, hcommits T i m hc, hT, ?_⟩
    rw [hext.take_full (hr.commit_term hc).1 (hlen.1.trans hlen.2)]
    exact hP

/-- What was committed up to the term of a request fits the log that the request
carries. -/
theorem Committed.comparable (hP : Committed h t P) (hr : RecordSafe V h)
    (hw : Wellformed Entry.term h.toHistory) (hs : Sent h.toHistory req Q) (ht : t ≤ req.term) :
    Comparable P Q := by
  rcases hP with rfl | ⟨T, i, m, hc, hT, hP⟩
  · exact .inl nil_prefix
  · rcases Nat.lt_or_ge T req.term with hlt | hge
    · obtain ⟨b, hb⟩ := Option.ne_none_iff_exists'.mp hs.base
      have hcomplete := (hr.valid hw).complete req.term b hb T hlt m i hc
      exact .inl ((hP.trans hcomplete).trans (base_le_of_sent hw hs hb))
    · have hsame : T = req.term := by omega
      subst hsame
      exact prefix_or_prefix_of_prefix (hP.trans (List.take_prefix i _)) hs.le_full

theorem Committed.comparable_committed (hP : Committed h t P) (hQ : Committed h t' Q)
    (hr : RecordSafe V h) (hw : Wellformed Entry.term h.toHistory) : Comparable P Q := by
  rcases hP with rfl | ⟨T, i, m, hc, -, hP⟩
  · exact .inl nil_prefix
  · rcases hQ with rfl | ⟨T', i', m', hc', -, hQ⟩
    · exact .inr nil_prefix
    · have hv := hr.valid hw
      have hi : (h.full T).take i <+: h.full T := take_prefix i _
      have hi' : (h.full T').take i' <+: h.full T' := take_prefix i' _
      rcases Nat.lt_trichotomy T T' with hlt | rfl | hgt
      · obtain ⟨b, hb⟩ := Option.ne_none_iff_exists'.mp (hr.commit_term hc').1
        have hin := (hv.complete T' b hb T hlt m i hc).trans (hv.base_le hb)
        exact prefix_or_prefix_of_prefix (hP.trans hin) (hQ.trans hi')
      · exact prefix_or_prefix_of_prefix (hP.trans hi) (hQ.trans hi')
      · obtain ⟨b, hb⟩ := Option.ne_none_iff_exists'.mp (hr.commit_term hc).1
        have hin := (hv.complete T b hb T' hgt m' i' hc').trans (hv.base_le hb)
        exact prefix_or_prefix_of_prefix (hP.trans hi) (hQ.trans hin)

end Committed

variable {n : Node} {g : RaftGroup Node α}

section Replicas

/-- What is true of a replica when commits are accounted for. -/
structure NodeSafe (V : Finset Node) (h : Record Node α) (n : Node) (g : RaftGroup Node α) :
    Prop where
  voters : g.voters = latestConfig V g.log
  commit_le : g.commitIndex ≤ g.log.length
  lastApplied : g.lastApplied = g.commitIndex
  appliedTerm : g.lastAppliedTerm = termAt g.log g.lastApplied
  committed : Committed h g.currentTerm (g.log.take g.commitIndex)
  applied : ∀ e ∈ g.applied, ∃ A, Committed h g.currentTerm (A ++ [e])
  acked_eq_zero : ∀ T, g.currentTerm < T → h.acked n T = 0
  retains : Retains h.toHistory n (g.currentTerm + 1) g.log
  votes_le : ∀ {t c log}, h.votes n t c log → t ≤ g.currentTerm
  campaigns_le : ∀ {t log}, h.campaigns n t log → t ≤ g.currentTerm
  candidate : g.role = .candidate →
    (∀ log, h.campaigns n g.currentTerm log → log = g.log) ∧
      ∀ v ∈ g.votesReceived, h.base g.currentTerm ≠ none ∨
        ∃ log, h.votes v g.currentTerm n log ∧ AtLeast Entry.term g.log log
  leader : g.role = .leader → h.acked n g.currentTerm = g.log.length ∧
    ∀ p, (g.nextIndex p).getD 1 ≤ g.log.length + 1 ∧
      (g.matchIndex p).getD 0 ≤ h.acked p g.currentTerm

variable {g' : RaftGroup Node α}

theorem nodeSafe_create [LinearOrder Node] (hacked : ∀ v T, h.acked v T = 0)
    (hvotes : ∀ v t c log, ¬h.votes v t c log) (hcampaigns : ∀ n t log, ¬h.campaigns n t log) :
    NodeSafe V h n (create n V) where
  voters := rfl
  commit_le := Nat.zero_le _
  lastApplied := rfl
  appliedTerm := rfl
  committed := .inl rfl
  applied e he := by simp [create] at he
  acked_eq_zero T _ := hacked n T
  retains T i _ hi _ := by
    rw [hacked] at hi
    simp [Nat.le_zero.mp hi]
  votes_le hvote := absurd hvote (hvotes _ _ _ _)
  campaigns_le hc := absurd hc (hcampaigns _ _ _)
  candidate hrole := by simp [create] at hrole
  leader hrole := by simp [create] at hrole

variable (hg : NodeSafe V h n g)

include hg

theorem NodeSafe.follow (hlog : g'.log = g.log)
    (hvoters : g'.voters = g.voters) (hcommit : g'.commitIndex = g.commitIndex)
    (hlast : g'.lastApplied = g.lastApplied)
    (happliedTerm : g'.lastAppliedTerm = g.lastAppliedTerm) (happlied : g'.applied = g.applied)
    (hterm : g.currentTerm ≤ g'.currentTerm) (hrole : g'.role = .follower) :
    NodeSafe V h n g' where
  voters := by rw [hvoters, hlog, hg.voters]
  commit_le := by rw [hcommit, hlog]; exact hg.commit_le
  lastApplied := by rw [hlast, hcommit, hg.lastApplied]
  appliedTerm := by rw [happliedTerm, hlog, hlast, hg.appliedTerm]
  committed := by
    rw [hlog, hcommit]
    exact hg.committed.later hterm
  applied e he := by
    obtain ⟨A, hA⟩ := hg.applied e (happlied ▸ he)
    exact ⟨A, hA.later hterm⟩
  acked_eq_zero T hT := hg.acked_eq_zero T (hterm.trans_lt hT)
  retains := by
    rw [hlog]
    exact hg.retains.later (by omega) fun T hT => hg.acked_eq_zero T (by omega)
  votes_le hvote := (hg.votes_le hvote).trans hterm
  campaigns_le hc := (hg.campaigns_le hc).trans hterm
  candidate h := by simp [hrole] at h
  leader h := by simp [hrole] at h

theorem NodeSafe.openPreVote : NodeSafe V h n g.openPreVote :=
  { hg with }

theorem NodeSafe.grantVote (c : Node) : NodeSafe V h n (g.grantVote c) :=
  { hg with }

theorem NodeSafe.vote {c : Node} : NodeSafe V (h.vote n g.currentTerm c log) n g := by
  refine { hg with votes_le := fun hvote => ?_, candidate := fun hrole => ?_ }
  · rcases hvote with hvote | ⟨-, rfl, -⟩
    · exact hg.votes_le hvote
    · exact le_rfl
  · obtain ⟨hlog, hreceived⟩ := hg.candidate hrole
    refine ⟨hlog, fun v hv => (hreceived v hv).imp_right ?_⟩
    rintro ⟨l, hvote, hge⟩
    exact ⟨l, .inl hvote, hge⟩

theorem NodeSafe.setPositions (next matched : Node → Option Nat)
    (hpeers : g.role = .leader → ∀ p, (next p).getD 1 ≤ g.log.length + 1 ∧
      (matched p).getD 0 ≤ h.acked p g.currentTerm) :
    NodeSafe V h n { g with matchIndex := matched, nextIndex := next } :=
  { hg with leader := fun hrole => ⟨(hg.leader hrole).1, hpeers hrole⟩ }

variable [LinearOrder Node]

theorem NodeSafe.mono (hr : RecordSafe V h) (hext : Extends h.toHistory h'.toHistory)
    (hcommits : ∀ T i m, h.commits T i m → h'.commits T i m)
    (hvotes : ∀ v t c log, h.votes v t c log → h'.votes v t c log)
    (hacked : ∀ v T, h.acked v T ≤ h'.acked v T) (hself : ∀ T, h'.acked n T = h.acked n T)
    (hvotesSelf : ∀ {t c log}, h'.votes n t c log → t ≤ g.currentTerm)
    (hcampaigns : ∀ {t log}, h'.campaigns n t log → h.campaigns n t log) : NodeSafe V h' n g :=
  { hg with
    committed := hg.committed.mono hr hext hcommits
    applied e he := by
      obtain ⟨A, hA⟩ := hg.applied e he
      exact ⟨A, hA.mono hr hext hcommits⟩
    acked_eq_zero T hT := (hself T).trans (hg.acked_eq_zero T hT)
    retains := hg.retains.mono hext (fun T _ => hself T) (hr.acked_base n) (hr.acked_le n)
    votes_le := hvotesSelf
    campaigns_le hc := hg.campaigns_le (hcampaigns hc)
    candidate hrole := by
      obtain ⟨hlog, hreceived⟩ := hg.candidate hrole
      refine ⟨fun log hc => hlog log (hcampaigns hc), fun v hv => ?_⟩
      rcases hreceived v hv with hbase | ⟨log, hvote, hge⟩
      · exact .inl (hext.base_ne hbase)
      · exact .inr ⟨log, hvotes _ _ _ _ hvote, hge⟩
    leader hrole := by
      obtain ⟨hown, hpeers⟩ := hg.leader hrole
      exact ⟨(hself _).trans hown, fun p => ⟨(hpeers p).1, (hpeers p).2.trans (hacked p _)⟩⟩ }

theorem NodeSafe.becomeFollower (hcons : Consistent n V g) {t : Nat}
    (hle : g.currentTerm ≤ t) : NodeSafe V h n (g.becomeFollower t) := by
  rw [becomeFollower_eq hcons]
  exact hg.follow rfl rfl rfl rfl rfl rfl hle rfl

theorem NodeSafe.adoptTerm (hcons : Consistent n V g) (t : Nat) :
    NodeSafe V h n (g.adoptTerm t) := by
  unfold RaftGroup.adoptTerm
  split
  · rename_i hlt
    exact hg.becomeFollower hcons hlt.le
  · exact hg

theorem NodeSafe.restart_withLog (hcons : Consistent n V g) (hle : g.log <+: log) :
    NodeSafe V h n (withLog g log).restart := by
  obtain ⟨next, matched, heq, -⟩ := restart_eq (hcons.withLog log)
  rw [heq]
  exact { hg with
      voters := rfl
      commit_le := Nat.zero_le _
      lastApplied := rfl
      appliedTerm := rfl
      committed := .inl rfl
      retains := fun T i hT hi hsafe => (hg.retains T i hT hi hsafe).trans hle
      candidate := fun h => by simp [create] at h
      leader := fun h => by simp [create] at h }

theorem NodeSafe.restart (hcons : Consistent n V g) : NodeSafe V h n g.restart := by
  have hrestart := hg.restart_withLog hcons prefix_rfl
  rwa [withLog_self hcons] at hrestart

theorem NodeSafe.recordPreVote (v : Node) : NodeSafe V h n (g.recordPreVote v) :=
  { hg with }

theorem NodeSafe.recordVote {v : Node}
    (hv : g.role = .candidate → h.base g.currentTerm ≠ none ∨
      ∃ log, h.votes v g.currentTerm n log ∧ AtLeast Entry.term g.log log) :
    NodeSafe V h n (g.recordVote v) := by
  refine { hg with candidate := fun hrole => ?_ }
  obtain ⟨hlog, hreceived⟩ := hg.candidate hrole
  refine ⟨hlog, fun w hw => ?_⟩
  rcases mem_insert.mp hw with rfl | hw
  · exact hv hrole
  · exact hreceived w hw

theorem NodeSafe.becomeCandidate (hcons : Consistent n V g) :
    NodeSafe V ((h.campaign n (g.currentTerm + 1) g.log).vote n (g.currentTerm + 1) n g.log) n
      g.becomeCandidate :=
  { hg with
    committed := hg.committed.later (Nat.le_succ _)
    applied e he := by
      obtain ⟨A, hA⟩ := hg.applied e he
      exact ⟨A, hA.later (Nat.le_succ _)⟩
    acked_eq_zero T hT := hg.acked_eq_zero T ((Nat.lt_succ_self _).trans hT)
    retains := hg.retains.later (Nat.le_succ _) fun T hT => hg.acked_eq_zero T hT
    votes_le hvote := by
      rcases hvote with hvote | ⟨-, rfl, -⟩
      · exact (hg.votes_le hvote).trans (Nat.le_succ _)
      · exact le_rfl
    campaigns_le hc := by
      rcases hc with hc | ⟨-, rfl, -⟩
      · exact (hg.campaigns_le hc).trans (Nat.le_succ _)
      · exact le_rfl
    candidate _ := by
      refine ⟨fun log hc => ?_, fun v hv => ?_⟩
      · rcases hc with hc | ⟨-, -, rfl⟩
        · exact absurd (hg.campaigns_le hc) (Nat.not_succ_le_self _)
        · rfl
      · right
        have hvn : v = n := (Finset.mem_singleton.mp hv).trans hcons.nodeId
        exact ⟨g.log, .inr ⟨hvn, rfl, rfl, rfl⟩, atLeast_refl g.log⟩
    leader h := by simp [RaftGroup.becomeCandidate, RaftGroup.persistMeta] at h }

theorem NodeSafe.lead (hr : RecordSafe V h) {b : List (Entry Node α)} {e : Entry Node α}
    (hext : Extends h.toHistory (h.toHistory.lead g.currentTerm b g'.log))
    (hlog : g'.log = g.log ++ [e]) (hterm : g'.currentTerm = g.currentTerm)
    (hcommit : g'.commitIndex = g.commitIndex) (hlast : g'.lastApplied = g.lastApplied)
    (happliedTerm : g'.lastAppliedTerm = g.lastAppliedTerm) (happlied : g'.applied = g.applied)
    (hvoters : g'.voters = latestConfig V g'.log) (hrole : g'.role = .leader)
    (hacked : h.acked n g.currentTerm ≤ g.log.length)
    (hpeers : ∀ p, (g'.nextIndex p).getD 1 ≤ g.log.length + 2 ∧
      (g'.matchIndex p).getD 0 ≤ h.acked p g.currentTerm) :
    NodeSafe V ((h.extend g.currentTerm b g'.log).ack n g.currentTerm g'.log.length) n g' := by
  have hle : g.log <+: g'.log := hlog ▸ prefix_append _ _
  have hlen : g'.log.length = g.log.length + 1 := by simp [hlog]
  have htake : g'.log.take g.commitIndex = g.log.take g.commitIndex := by
    rw [hlog, take_append_of_le_length hg.commit_le]
  refine ⟨hvoters, ?_, ?_, ?_, ?_, ?_, ?_, ?_, ?_, ?_, fun h => by simp [hrole] at h, fun _ => ?_⟩
  · rw [hcommit]
    exact hg.commit_le.trans hle.length_le
  · rw [hlast, hcommit, hg.lastApplied]
  · rw [happliedTerm, hlast, termAt_of_le hle (hg.lastApplied ▸ hg.commit_le)]
    exact hg.appliedTerm
  · rw [hcommit, htake, hterm]
    exact hg.committed.mono hr hext fun _ _ _ hc => hc
  · intro x hx
    obtain ⟨A, hA⟩ := hg.applied x (happlied ▸ hx)
    rw [hterm]
    exact ⟨A, hA.mono hr hext fun _ _ _ hc => hc⟩
  · intro T hT
    rw [ack_ne _ _ (.inr (by omega))]
    exact hg.acked_eq_zero T (hterm ▸ hT)
  · intro T i hT hi hsafe
    by_cases hTt : T = g.currentTerm
    · subst hTt
      have hfull : ((h.extend g.currentTerm b g'.log).ack n g.currentTerm g'.log.length).full
          g.currentTerm = g'.log := by
        simp [Record.extend, Record.ack, History.lead]
      rw [hfull]
      exact take_prefix i _
    · rw [ack_ne _ _ (.inr hTt)] at hi
      have hold := hg.retains.mono hext (fun _ _ => rfl) (hr.acked_base n) (hr.acked_le n)
      exact (hold T i (hterm ▸ hT) hi (hterm ▸ hsafe)).trans hle
  · intro t c log hvote
    rw [hterm]
    exact hg.votes_le hvote
  · intro t log hc
    rw [hterm]
    exact hg.campaigns_le hc
  · rw [hterm, ack_self]
    refine ⟨Nat.max_eq_right ?_, fun p => ?_⟩
    · exact hacked.trans hle.length_le
    · rw [hlen]
      exact ⟨(hpeers p).1, (hpeers p).2.trans (le_ack _ _ _ _ _ _)⟩

theorem NodeSafe.applyCommitted {k : Nat} (hle : g.commitIndex ≤ k)
    (hlen : k ≤ g.log.length) (hk : Committed h g.currentTerm (g.log.take k)) :
    NodeSafe V h n (applyCommitted { g with commitIndex := k }) := by
  obtain ⟨role, leader, heq, hrole⟩ := applyCommitted_eq (g := { g with commitIndex := k })
    (hg.lastApplied.le.trans hle) hlen
  rw [heq]
  have hback : ∀ r, role = r → r ≠ .follower → g.role = r := by
    rintro r rfl hr
    rcases hrole with hrole | ⟨-, hrole⟩
    · exact hrole.symm
    · exact absurd hrole hr
  refine { hg with
      commit_le := hlen
      lastApplied := rfl
      appliedTerm := ?_
      committed := hk
      applied := fun e he => ?_
      candidate := fun h => hg.candidate (hback _ h (by simp))
      leader := fun h => hg.leader (hback _ h (by simp)) }
  · dsimp only
    split
    · rfl
    · rw [hg.appliedTerm]
      congr 1
      have := hg.lastApplied
      omega
  · rcases mem_append.mp he with he | he
    · exact hg.applied e he
    · obtain ⟨A, hA⟩ := concat_le_of_mem (mem_of_mem_drop he)
      exact ⟨A, hk.of_le hA⟩

/-- A follower exchanges its log for one that keeps everything that fits the log
of the leader of its term. -/
theorem NodeSafe.replaceLog (hr : RecordSafe V h) (hw : Wellformed Entry.term h.toHistory)
    (hs : Sent h.toHistory req P)
    (ht : g.currentTerm = req.term) (hkeep : ∀ Q, Q <+: g.log → Comparable Q P → Q <+: g'.log)
    (hvoters : g'.voters = latestConfig V g'.log) (hterm : g'.currentTerm = g.currentTerm)
    (hcommit : g'.commitIndex = g.commitIndex) (hlast : g'.lastApplied = g.lastApplied)
    (happliedTerm : g'.lastAppliedTerm = g.lastAppliedTerm) (happlied : g'.applied = g.applied)
    (hrole : g'.role = .follower) : NodeSafe V h n g' := by
  have hcommitted : g.log.take g.commitIndex <+: g'.log :=
    hkeep _ (List.take_prefix _ _) (hg.committed.comparable hr hw hs ht.le)
  have hlen : (g.log.take g.commitIndex).length = g.commitIndex := by
    simpa using hg.commit_le
  have htake : g'.log.take g.commitIndex = g.log.take g.commitIndex := by
    conv_rhs => rw [prefix_iff_eq_take.mp hcommitted, hlen]
  refine ⟨hvoters, ?_, ?_, ?_, ?_, ?_, ?_, ?_, ?_, ?_, fun h => by simp [hrole] at h,
    fun h => by simp [hrole] at h⟩
  · rw [hcommit]
    exact hlen.ge.trans hcommitted.length_le
  · rw [hlast, hcommit, hg.lastApplied]
  · have hle : g.lastApplied ≤ (g.log.take g.commitIndex).length := by
      rw [hlen, hg.lastApplied]
    rw [happliedTerm, hlast, hg.appliedTerm, termAt_of_le hcommitted hle,
      termAt_of_le (List.take_prefix g.commitIndex g.log) hle]
  · rw [hcommit, htake, hterm]
    exact hg.committed
  · rw [happlied, hterm]
    exact hg.applied
  · rw [hterm]
    exact hg.acked_eq_zero
  · rw [hterm]
    intro T i hT hi hsafe
    refine hkeep _ (hg.retains T i hT hi hsafe) ?_
    -- the leader of the request kept what the replica acknowledged before
    obtain ⟨b, hb⟩ := Option.ne_none_iff_exists'.mp hs.base
    rcases Nat.lt_or_ge T req.term with hlt | hge
    · exact .inl ((hsafe req.term b hlt (by omega) hb).trans (base_le_of_sent hw hs hb))
    · have hsame : T = req.term := by omega
      subst hsame
      exact prefix_or_prefix_of_prefix (List.take_prefix i _) hs.le_full
  · rw [hterm]
    exact hg.votes_le
  · rw [hterm]
    exact hg.campaigns_le

/-- A replica acknowledges its whole log to the leader of its term. -/
theorem NodeSafe.ack (hrole : g.role = .follower) (hle : g.log <+: h.full g.currentTerm) :
    NodeSafe V (h.ack n g.currentTerm g.log.length) n g := by
  refine { hg with
      acked_eq_zero := fun T hT => ?_
      retains := fun T i hT hi hsafe => ?_
      candidate := fun h => by simp [hrole] at h
      leader := fun h => by simp [hrole] at h }
  · rw [ack_ne _ _ (.inr (by omega))]
    exact hg.acked_eq_zero T hT
  · by_cases hTt : T = g.currentTerm
    · subst hTt
      rw [ack_self] at hi
      rcases le_max_iff.mp hi with hi | hi
      · exact hg.retains _ i hT hi hsafe
      · refine prefix_of_prefix_length_le (List.take_prefix i _) hle ?_
        simp only [length_take]
        omega
    · rw [ack_ne _ _ (.inr hTt)] at hi
      exact hg.retains T i hT hi hsafe

end Replicas

section Appends

variable [LinearOrder Node]

/-- A request as it leaves a leader that knows no position behind its log. -/
structure SentSafe (h : Record Node α) (req : AppendRequest Node α)
    (P : List (Entry Node α)) : Prop extends Sent h.toHistory req P where
  prev_le : req.prevLogIndex ≤ P.length
  commit_le : req.leaderCommit ≤ P.length
  committed : Committed h req.term (P.take req.leaderCommit)

theorem SentSafe.mono (hs : SentSafe h req P) (hr : RecordSafe V h)
    (hext : Extends h.toHistory h'.toHistory)
    (hcommits : ∀ T i m, h.commits T i m → h'.commits T i m) : SentSafe h' req P :=
  ⟨hs.toSent.mono hext, hs.prev_le, hs.commit_le, hs.committed.mono hr hext hcommits⟩

/-- `handle_append` finds another term at the previous position and shortens the
log. -/
def Truncates (g : RaftGroup Node α) (req : AppendRequest Node α) : Prop :=
  g.currentTerm ≤ req.term ∧ 0 < req.prevLogIndex ∧ req.prevLogIndex ≤ g.log.length ∧
    termAt g.log req.prevLogIndex ≠ req.prevLogTerm

instance (g : RaftGroup Node α) (req : AppendRequest Node α) : Decidable (Truncates g req) :=
  inferInstanceAs (Decidable (_ ∧ _))

variable (hg : NodeSafe V h n g)

include hg

theorem NodeSafe.accept (hl : NodeLog V h.toHistory n g) (hle : g.currentTerm ≤ req.term)
    (hnot : g.role = .leader → g.currentTerm ≠ req.term) :
    NodeSafe V h n ((g.adoptTerm req.term).acceptLeader req) := by
  obtain ⟨-, hrole, -⟩ := hl.accept hle hnot
  obtain ⟨role, voted, heq, -⟩ := acceptLeader_adoptTerm_eq hl.consistent hle
  rw [heq] at hrole ⊢
  exact hg.follow rfl rfl rfl rfl rfl rfl hle hrole

theorem NodeSafe.truncateLog (hr : RecordSafe V h) (hw : Wellformed Entry.term h.toHistory)
    (hs : SentSafe h req P) (ht : g.currentTerm = req.term) (hrole : g.role = .follower)
    (hterm : termAt g.log req.prevLogIndex ≠ req.prevLogTerm)
    (hconfig : ∀ e ∈ g.log.drop (req.prevLogIndex - 1), e.config? = none) :
    NodeSafe V h n (g.truncateLog (req.prevLogIndex - 1)) := by
  refine hg.replaceLog hr hw hs.toSent ht (fun Q => le_truncateLog hs.toSent hs.prev_le hterm) ?_
    rfl rfl rfl rfl rfl hrole
  · change g.voters = latestConfig V (g.log.take (req.prevLogIndex - 1))
    rw [hg.voters]
    conv_lhs => rw [← take_append_drop (req.prevLogIndex - 1) g.log]
    exact configOf_append_of_none Entry.config? V hconfig

theorem NodeSafe.receiveEntries (hl : NodeLog V h.toHistory n g) (hr : RecordSafe V h)
    (hw : Wellformed Entry.term h.toHistory) (hi : Indexed h.toHistory) (hs : SentSafe h req P)
    (ht : g.currentTerm = req.term) (hrole : g.role = .follower) (hprev : Attaches req g.log) :
    NodeSafe V h n (g.receiveEntries req.entries) ∧ P <+: (g.receiveEntries req.entries).log := by
  obtain ⟨hP, hkeep⟩ := le_receiveEntries hl hw hi hs.toSent hs.prev_le hprev
  refine ⟨?_, hP⟩
  obtain ⟨voters, next, matched, heq, hvoters, -⟩ := receiveEntries_eq hl.consistent req.entries
  rw [heq] at hkeep ⊢
  refine hg.replaceLog hr hw hs.toSent ht hkeep ?_ rfl rfl rfl rfl rfl hrole
  change voters = latestConfig V (req.entries.foldl mergeEntry g.log)
  rw [hvoters]
  split
  · rename_i hnil
    rw [hnil, foldl_nil, hg.voters]
  · rfl

theorem NodeSafe.followCommit (hs : SentSafe h req P) (ht : g.currentTerm = req.term)
    (hle : P <+: g.log) : NodeSafe V h n (g.followCommit req.leaderCommit) := by
  have hlen : req.leaderCommit ≤ g.log.length := hs.commit_le.trans hle.length_le
  unfold RaftGroup.followCommit
  split
  · rename_i hlt
    rw [Nat.min_eq_left hlen]
    refine hg.applyCommitted hlt.le hlen ?_
    obtain ⟨rest, hrest⟩ := hle
    rw [← hrest, take_append_of_le_length hs.commit_le, ht]
    exact hs.committed
  · exact hg

theorem NodeSafe.handleAppend (hl : NodeLog V h.toHistory n g) (hr : RecordSafe V h)
    (hw : Wellformed Entry.term h.toHistory) (hi : Indexed h.toHistory) (hs : SentSafe h req P)
    (hnot : g.role = .leader → g.currentTerm ≠ req.term)
    (hconfig : Truncates g req → ∀ e ∈ g.log.drop (req.prevLogIndex - 1), e.config? = none) :
    NodeSafe V h n (g.handleAppend req).1 := by
  unfold RaftGroup.handleAppend
  split
  · exact hg
  · rename_i hold
    have hle := Nat.le_of_not_lt hold
    obtain ⟨hal, hrole, hterm⟩ := hl.accept hle hnot
    have ha := hg.accept hl hle hnot
    unfold Truncates at hconfig
    rw [← accept_log hl.consistent hle] at hconfig
    generalize (g.adoptTerm req.term).acceptLeader req = a at hal hrole hterm ha hconfig ⊢
    unfold appendAfter
    split_ifs with hshort hmismatch
    · exact ha
    · push Not at hshort
      exact ha.truncateLog hr hw hs hterm hrole hmismatch.2
        (hconfig ⟨hle, hmismatch.1, hshort hmismatch.1, hmismatch.2⟩)
    · obtain ⟨hreceived, hP⟩ := ha.receiveEntries hal hr hw hi hs hterm hrole
        (attaches_of_not hshort hmismatch)
      have hb := sameBallot_receiveEntries hal.consistent req.entries
      exact hreceived.followCommit hs (hb.currentTerm.trans hterm) hP

theorem NodeSafe.crashInVote (hcons : Consistent n V g)
    (req : VoteRequest Node) : NodeSafe V h n (g.crashInVote req) := by
  unfold RaftGroup.crashInVote
  split
  · exact hg.restart hcons
  · exact (hg.adoptTerm hcons _).restart (hcons.adoptTerm _)

theorem NodeSafe.crashInAppend (hl : NodeLog V h.toHistory n g)
    (hnot : g.role = .leader → g.currentTerm ≠ req.term) (count : Nat) :
    NodeSafe V h n (g.crashInAppend req count) := by
  rcases crashInAppend_cases hl.consistent req count with
    ⟨-, heq⟩ | ⟨hle, a, stored, rfl, -, -, hgrow, heq⟩
  · rw [heq]
    exact hg.restart hl.consistent
  · rw [heq]
    exact (hg.accept hl hle hnot).restart_withLog (hl.accept hle hnot).1.consistent hgrow

end Appends

section Commits

variable [LinearOrder Node]

theorem exists_majority_of_ackCount (hg : Consistent n V g) {idx : Nat}
    (hcount : g.majority ≤ g.ackCount idx) :
    ∃ q, Majority g.voters q ∧ ∀ v ∈ q, v = n ∨ idx ≤ (g.matchIndex v).getD 0 := by
  have hnodup : (g.peers.filter fun p => p ∈ g.voters ∧ idx ≤ (g.matchIndex p).getD 0).Nodup := by
    rw [hg.peers]
    exact (nodup_sorted _).filter _
  refine ⟨g.voters.filter fun v => v = n ∨ idx ≤ (g.matchIndex v).getD 0, ?_, by simp⟩
  refine hcount.trans ?_
  rw [inter_eq_left.mpr (filter_subset _ _)]
  unfold ackCount
  rw [← toFinset_card_of_nodup hnodup, hg.nodeId]
  have hnot : n ∉ (g.peers.filter fun p =>
      p ∈ g.voters ∧ idx ≤ (g.matchIndex p).getD 0).toFinset := by
    simp only [mem_toFinset, mem_filter, not_and]
    exact fun hpeer => absurd hpeer hg.not_mem_peers
  split
  · rename_i hmem
    rw [Nat.add_comm, ← card_insert_of_notMem hnot]
    refine card_le_card fun v hv => ?_
    rcases mem_insert.mp hv with rfl | hv
    · simp [hmem]
    · simp only [mem_toFinset, mem_filter, decide_eq_true_eq] at hv
      simp [hv.2.1, hv.2.2]
  · rw [Nat.zero_add]
    refine card_le_card fun v hv => ?_
    simp only [mem_toFinset, mem_filter, decide_eq_true_eq] at hv
    simp [hv.2.1, hv.2.2]

/-- A leader commits a position of its own term that a majority acknowledged. -/
theorem NodeSafe.advanceCommit (hg : NodeSafe V h n g) (hl : NodeLog V h.toHistory n g)
    (hr : RecordSafe V h) (hrole : g.role = .leader) :
    NodeSafe V h n g.advanceCommit ∨ ∃ idx,
      RecordSafe V (h.commit g.currentTerm idx g.log.length) ∧
      NodeSafe V (h.commit g.currentTerm idx g.log.length) n g.advanceCommit := by
  obtain ⟨-, hbase, hfull, -⟩ := hl.leader hrole
  obtain ⟨hown, hpeers⟩ := hg.leader hrole
  rcases advanceCommit_cases g with heq | ⟨idx, hlt, hle, hterm, hcount, heq⟩
  · rw [heq]
    exact .inl hg
  · right
    have hsafe : RecordSafe V (h.commit g.currentTerm idx g.log.length) := by
      refine hr.commit ⟨hle, by rw [hfull]⟩ ⟨hbase, ?_⟩ ?_
      · obtain ⟨A, e, hA, hlen, -⟩ := exists_concat_le g.log (i := idx - 1) (by omega)
        refine ⟨A, e, ?_, ?_⟩
        · rw [hfull, prefix_iff_eq_take.mp hA]
          congr 1
          simp
          omega
        · rw [← termAt_of_concat_le hA, hlen, Nat.sub_add_cancel (by omega)]
          exact hterm
      · rw [hfull, take_length, ← hg.voters]
        obtain ⟨q, hq, hacked⟩ := exists_majority_of_ackCount hl.consistent hcount
        refine ⟨q, hq, fun v hv => ?_⟩
        rcases hacked v hv with rfl | hmatch
        · rw [hown]
          exact hle
        · exact hmatch.trans (hpeers v).2
    refine ⟨idx, hsafe, ?_⟩
    have hg' : NodeSafe V (h.commit g.currentTerm idx g.log.length) n g :=
      hg.mono hr (fun t b hb => ⟨hb, prefix_rfl⟩) (fun _ _ _ hc => .inl hc)
        (fun _ _ _ _ hv => hv) (fun _ _ => le_rfl) (fun _ => rfl) hg.votes_le id
    rw [heq]
    refine hg'.applyCommitted hlt.le hle (.inr ⟨g.currentTerm, idx, g.log.length,
      .inr ⟨rfl, rfl, rfl⟩, le_rfl, ?_⟩)
    change g.log.take idx <+: (h.full g.currentTerm).take idx
    rw [hfull]

end Commits

end LiteDB.ReplicaSafety
