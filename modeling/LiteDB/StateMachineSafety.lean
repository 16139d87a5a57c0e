import LiteDB.ReplicaSafety
import Mathlib.Data.Fintype.Basic

namespace LiteDB.StateMachineSafety

open CommitHistory LeaderHistory List LogMatching Majorities RaftCluster RaftNode RaftNodeSpec
open ReplicaSafety Runs RaftGroup

variable {Node α : Type} {V : Finset Node} {h h' : Record Node α} {n : Node}

section Messages

/-- What a message in flight says about campaigns, votes and acknowledgements. -/
def MessageSafe (h : Record Node α) : Message Node α → Prop
  | .vote _ req =>
      req.preVote = false → ∃ log, h.campaigns req.candidateId req.term log ∧
        req.lastLogIndex = log.length ∧ req.lastLogTerm = lastLogTerm log
  | .voteReply req r =>
      req.preVote = false → r.voteGranted = true → r.term = req.term ∧
        (h.base req.term ≠ none ∨ ∃ log other, h.campaigns req.candidateId req.term log ∧
          h.votes r.voterId req.term req.candidateId other ∧ AtLeast Entry.term log other)
  | .replicate _ _ => True
  | .append _ req => ∃ P, SentSafe h req P
  | .appendReply peer req r =>
      h.base req.term ≠ none ∧ req.term ≤ r.term ∧
        (r.success = true → r.term = req.term ∧ r.matchIndex ≤ h.acked peer req.term) ∧
        (r.success = false → r.matchIndex ≤ (h.full req.term).length ∧
          (r.term ≠ req.term → r.matchIndex = 0))

/-- The memory has grown by what node `n` did. -/
structure Grows (n : Node) (h h' : Record Node α) : Prop where
  ext : Extends h.toHistory h'.toHistory
  commits : ∀ T i m, h.commits T i m → h'.commits T i m
  votes : ∀ v t c log, h.votes v t c log → h'.votes v t c log
  campaigns : ∀ m t log, h.campaigns m t log → h'.campaigns m t log
  acked : ∀ v T, h.acked v T ≤ h'.acked v T
  acked_ne : ∀ v, v ≠ n → ∀ T, h'.acked v T = h.acked v T
  votes_ne : ∀ v, v ≠ n → ∀ t c log, h'.votes v t c log → h.votes v t c log
  campaigns_ne : ∀ m, m ≠ n → ∀ t log, h'.campaigns m t log → h.campaigns m t log

variable {h'' : Record Node α}

theorem Grows.refl (n : Node) (h : Record Node α) : Grows n h h :=
  ⟨fun _ _ hb => ⟨hb, prefix_rfl⟩, fun _ _ _ hc => hc, fun _ _ _ _ hv => hv,
    fun _ _ _ hc => hc, fun _ _ => le_rfl, fun _ _ _ => rfl, fun _ _ _ _ _ hv => hv,
    fun _ _ _ _ hc => hc⟩

theorem Grows.trans (h₁ : Grows n h h') (h₂ : Grows n h' h'') : Grows n h h'' where
  ext t b hb := by
    obtain ⟨hb', hfull⟩ := h₁.ext t b hb
    obtain ⟨hb'', hfull'⟩ := h₂.ext t b hb'
    exact ⟨hb'', hfull.trans hfull'⟩
  commits T i m hc := h₂.commits T i m (h₁.commits T i m hc)
  votes v t c log hv := h₂.votes v t c log (h₁.votes v t c log hv)
  campaigns m t log hc := h₂.campaigns m t log (h₁.campaigns m t log hc)
  acked v T := (h₁.acked v T).trans (h₂.acked v T)
  acked_ne v hv T := (h₂.acked_ne v hv T).trans (h₁.acked_ne v hv T)
  votes_ne v hv t c log hvote := h₁.votes_ne v hv t c log (h₂.votes_ne v hv t c log hvote)
  campaigns_ne m hm t log hc := h₁.campaigns_ne m hm t log (h₂.campaigns_ne m hm t log hc)

theorem grows_campaign (h : Record Node α) (n : Node) (t : Nat) (log : List (Entry Node α)) :
    Grows n h (h.campaign n t log) :=
  { Grows.refl n h with
    campaigns := fun _ _ _ hc => .inl hc
    campaigns_ne := fun _ hm _ _ hc => hc.resolve_right fun hself => hm hself.1 }

theorem grows_vote (h : Record Node α) (n c : Node) (t : Nat) (log : List (Entry Node α)) :
    Grows n h (h.vote n t c log) :=
  { Grows.refl n h with
    votes := fun _ _ _ _ hv => .inl hv
    votes_ne := fun _ hm _ _ _ hv => hv.resolve_right fun hself => hm hself.1 }

theorem grows_ack [DecidableEq Node] (h : Record Node α) (n : Node) (t k : Nat) :
    Grows n h (h.ack n t k) :=
  { Grows.refl n h with
    acked := le_ack h n t k
    acked_ne := fun _ hv _ => ack_ne h k (.inl hv) }

theorem grows_extend (n : Node) {t : Nat} {b log : List (Entry Node α)}
    (hext : Extends h.toHistory (h.toHistory.lead t b log)) : Grows n h (h.extend t b log) :=
  { Grows.refl n h with ext := hext }

theorem grows_commit (h : Record Node α) (n : Node) (t i m : Nat) : Grows n h (h.commit t i m) :=
  { Grows.refl n h with commits := fun _ _ _ hc => .inl hc }

theorem MessageSafe.mono [LinearOrder Node] {m : Message Node α} (hm : MessageSafe h m)
    (hr : RecordSafe V h) (hgrow : Grows n h h') : MessageSafe h' m := by
  cases m with
  | vote dst req =>
    intro hpre
    obtain ⟨log, hc, hrest⟩ := hm hpre
    exact ⟨log, hgrow.campaigns _ _ _ hc, hrest⟩
  | voteReply req r =>
    intro hpre hyes
    obtain ⟨hterm, hcase⟩ := hm hpre hyes
    refine ⟨hterm, ?_⟩
    rcases hcase with hbase | ⟨log, other, hc, hv, hge⟩
    · exact .inl (hgrow.ext.base_ne hbase)
    · exact .inr ⟨log, other, hgrow.campaigns _ _ _ hc, hgrow.votes _ _ _ _ hv, hge⟩
  | replicate src peer => trivial
  | append dst req =>
    obtain ⟨P, hs⟩ := hm
    exact ⟨P, hs.mono hr hgrow.ext hgrow.commits⟩
  | appendReply peer req r =>
    obtain ⟨hbase, hterm, hyes, hno⟩ := hm
    refine ⟨hgrow.ext.base_ne hbase, hterm, fun hsuccess => ?_, fun hfail => ?_⟩
    · exact ⟨(hyes hsuccess).1, (hyes hsuccess).2.trans (hgrow.acked _ _)⟩
    · exact ⟨(hno hfail).1.trans (hgrow.ext.full_le hbase).length_le, (hno hfail).2⟩

end Messages

variable {c : Cluster Node α} {g : RaftGroup Node α} {out : List (Message Node α)}
  {a : Event Node α}

section Clusters

variable [LinearOrder Node]

/-- Everything that is committed, voted or acknowledged is accounted for. -/
structure ClusterSafe (V : Finset Node) (h : Record Node α) (c : Cluster Node α) : Prop where
  log : ClusterLog V h.toHistory c
  record : RecordSafe V h
  nodes : ∀ n, NodeSafe V h n (c.nodes n)
  net : ∀ m ∈ c.net, MessageSafe h m

theorem ClusterSafe.put (hc : ClusterSafe V h c) (hgrow : Grows n h h')
    (hlog : ClusterLog V h'.toHistory (c.put n g out)) (hr : RecordSafe V h')
    (hg : NodeSafe V h' n g) (hout : ∀ m ∈ out, MessageSafe h' m) :
    ClusterSafe V h' (c.put n g out) where
  log := hlog
  record := hr
  nodes := forall_put hg fun m hm => (hc.nodes m).mono hc.record hgrow.ext hgrow.commits
    hgrow.votes hgrow.acked (hgrow.acked_ne m hm)
    (fun hv => (hc.nodes m).votes_le (hgrow.votes_ne m hm _ _ _ hv)) (hgrow.campaigns_ne m hm _ _)
  net := forall_mem_append.mpr ⟨fun m hm => (hc.net m hm).mono hc.record hgrow, hout⟩

def Accounts (V : Finset Node) (h : Record Node α) (n : Node) (g : RaftGroup Node α)
    (out : List (Message Node α)) : Prop :=
  ∃ h', Grows n h h' ∧ h'.base = h.base ∧ h'.full = h.full ∧ RecordSafe V h' ∧
    NodeSafe V h' n g ∧ ∀ m ∈ out, MessageSafe h' m

theorem ClusterSafe.account (hc : ClusterSafe V h c)
    (hlog : ClusterLog V h.toHistory (c.put n g out)) (haccounts : Accounts V h n g out) :
    ∃ h', ClusterSafe V h' (c.put n g out) := by
  obtain ⟨h', hgrow, hbase, hfull, hr, hg, hout⟩ := haccounts
  exact ⟨h', hc.put hgrow (hlog.congr hbase hfull) hr hg hout⟩

theorem accounts_same (hr : RecordSafe V h) (hg : NodeSafe V h n g)
    (hout : ∀ m ∈ out, MessageSafe h m) : Accounts V h n g out :=
  ⟨h, Grows.refl n h, rfl, rfl, hr, hg, hout⟩

variable {m : Message Node α} {r : VoteReply Node} {req : VoteRequest Node} {peer : Node}

omit [LinearOrder Node] in
theorem messageSafe_voteMessages {pre : Bool} {t : Nat}
    (hc : pre = false → h.campaigns g.nodeId t g.log)
    (hm : m ∈ voteMessages (g.peers.map fun p => (p, g.voteRequest pre t))) : MessageSafe h m := by
  simp only [voteMessages, map_map, mem_map, Function.comp_apply] at hm
  obtain ⟨p, -, rfl⟩ := hm
  exact fun hpre => ⟨g.log, hc hpre, rfl, rfl⟩

theorem accounts_campaign (hr : RecordSafe V h) (hn : NodeSafe V h n g)
    (hcons : Consistent n V g) (hmatch : Matches Entry.term h.toHistory g.log) :
    Accounts V h n g.startElection.1 (voteMessages g.startElection.2) := by
  refine ⟨_, (grows_campaign h n _ _).trans (grows_vote _ n n _ _), rfl, rfl, ?_,
    hn.becomeCandidate hcons, fun m hm => ?_⟩
  · exact (hr.campaign n _ _).vote hmatch hn.retains
  · refine messageSafe_voteMessages (fun _ => ?_) hm
    rw [hcons.nodeId]
    exact .inr ⟨rfl, rfl, rfl⟩

theorem ClusterSafe.startPreElection (hc : ClusterSafe V h c) :
    Accounts V h n (c.nodes n).startPreElection.1
      (voteMessages (c.nodes n).startPreElection.2) := by
  have hl := hc.log.nodes n
  unfold RaftGroup.startPreElection
  split_ifs
  · exact accounts_campaign hc.record (hc.nodes n).openPreVote hl.consistent.openPreVote
      hl.log_matches
  · exact accounts_same hc.record (hc.nodes n).openPreVote fun m hm =>
      messageSafe_voteMessages (fun hpre => by simp at hpre) hm

theorem ClusterSafe.requestPreVote (hc : ClusterSafe V h c) :
    Accounts V h n ((c.nodes n).requestPreVote r).1
      (voteMessages ((c.nodes n).requestPreVote r).2) := by
  have hl := hc.log.nodes n
  have hn := hc.nodes n
  have hsame : ∀ {g}, NodeSafe V h n g → Accounts V h n g (voteMessages []) :=
    fun hg => accounts_same hc.record hg (by simp [voteMessages])
  unfold RaftGroup.requestPreVote
  split_ifs with hstale hlt hyes hcarried
  · exact hsame hn
  · exact hsame (hn.becomeFollower hl.consistent hlt.le)
  · exact accounts_campaign hc.record (hn.recordPreVote _) (hl.consistent.recordPreVote _)
      hl.log_matches
  · exact hsame (hn.recordPreVote _)
  · exact hsame hn

omit [LinearOrder Node] in
theorem lastTerm_eq (log : List (Entry Node α)) : lastTerm Entry.term log = lastLogTerm log := by
  rcases eq_nil_or_concat log with rfl | ⟨A, e, rfl⟩
  · rfl
  · rw [concat_eq_append, lastTerm_concat, lastLogTerm_concat]

omit [LinearOrder Node] in
theorem atLeast_of_upToDate {log : List (Entry Node α)} (hup : g.upToDate req)
    (hindex : req.lastLogIndex = log.length) (hterm : req.lastLogTerm = lastLogTerm log) :
    AtLeast Entry.term log g.log := by
  unfold AtLeast
  rw [lastTerm_eq, lastTerm_eq, ← hterm, ← hindex]
  exact hup.imp_right fun hsame => ⟨hsame.1.symm, hsame.2⟩

variable (hc : ClusterSafe V h c)

include hc

/-- A vote counts for the candidate's log only while its term has no leader. -/
theorem ClusterSafe.handleVote {recent : Bool} (hm : .vote n req ∈ c.net) :
    Accounts V h n ((c.nodes n).handleVote req recent).1
      [.voteReply req ((c.nodes n).handleVote req recent).2] := by
  have hl := hc.log.nodes n
  have hn := hc.nodes n
  unfold RaftGroup.handleVote
  split_ifs with hpre hcan
  · refine accounts_same hc.record hn (forall_mem_singleton.mpr ?_)
    exact fun hreal => absurd hpre (by simp [hreal])
  · have ha := hn.adoptTerm hl.consistent req.term
    have hsame := sameLog_adoptTerm hl.consistent req.term
    obtain ⟨log, hcampaign, hindex, hterm⟩ := hc.net _ hm (by simpa using hpre)
    have hge := atLeast_of_upToDate hcan.2.2 hindex hterm
    have hreq : ((c.nodes n).adoptTerm req.term).currentTerm = req.term := by
      refine le_antisymm hcan.1 ?_
      unfold adoptTerm
      split
      · rw [becomeFollower_eq hl.consistent]
      · omega
    have hmatch : Matches Entry.term h.toHistory ((c.nodes n).adoptTerm req.term).log := by
      rw [hsame.log]
      exact hl.log_matches
    generalize (c.nodes n).adoptTerm req.term = a at ha hge hreq hmatch ⊢
    by_cases hbase : h.base req.term = none
    · refine ⟨h.vote n a.currentTerm req.candidateId a.log, grows_vote h n _ _ _, rfl, rfl,
        hc.record.vote hmatch ?_, (ha.grantVote _).vote, forall_mem_singleton.mpr ?_⟩
      · -- nobody leads the term yet, so the vote precedes all that may follow
        intro T i hT hi hsafe
        refine ha.retains T i (by omega) hi fun s b hTs hst hb => ?_
        rcases Nat.lt_or_ge s a.currentTerm with hlt | hge
        · exact hsafe s b hTs hlt hb
        · have hs : s = req.term := by omega
          rw [hs, hbase] at hb
          simp at hb
      · intro _ _
        refine ⟨hreq, .inr ⟨log, a.log, hcampaign, .inr ⟨?_, hreq.symm, rfl, rfl⟩, hge⟩⟩
        exact hl.consistent.nodeId
    · refine accounts_same hc.record (ha.grantVote _) (forall_mem_singleton.mpr ?_)
      exact fun _ _ => ⟨hreq, .inl hbase⟩
  · refine accounts_same hc.record (hn.adoptTerm hl.consistent _) (forall_mem_singleton.mpr ?_)
    exact fun _ hyes => by simp at hyes

theorem ClusterSafe.vote_counts (hm : .voteReply req r ∈ c.net) (hpre : req.preVote = false)
    (hyes : r.voteGranted = true) (hterm : r.term = (c.nodes req.candidateId).currentTerm)
    (hrole : (c.nodes req.candidateId).role = .candidate) :
    h.base (c.nodes req.candidateId).currentTerm ≠ none ∨
      ∃ log, h.votes r.voterId (c.nodes req.candidateId).currentTerm req.candidateId log ∧
        AtLeast Entry.term (c.nodes req.candidateId).log log := by
  obtain ⟨hreq, hcase⟩ := hc.net _ hm hpre hyes
  rw [hterm] at hreq
  rw [hreq]
  refine hcase.imp_right ?_
  rintro ⟨log, other, hcampaign, hvote, hge⟩
  rw [← hreq] at hcampaign
  have hsame := ((hc.nodes req.candidateId).candidate hrole).1 log hcampaign
  exact ⟨other, hvote, hsame ▸ hge⟩

theorem ClusterSafe.requestVote (hm : .voteReply req r ∈ c.net) (hpre : req.preVote = false)
    (hwon : ((c.nodes req.candidateId).requestVote r).won = (c.nodes req.candidateId).won) :
    NodeSafe V h req.candidateId ((c.nodes req.candidateId).requestVote r) := by
  have hl := hc.log.nodes req.candidateId
  have hn := hc.nodes req.candidateId
  unfold RaftGroup.requestVote at hwon ⊢
  split_ifs at hwon ⊢ with hstale hlt hyes hcarried
  · exact hn
  · exact hn.becomeFollower hl.consistent hlt.le
  · simp [becomeLeader, appendEntry, appendLogPersist, recordVote] at hwon
  · push Not at hstale
    exact hn.recordVote (hc.vote_counts hm hpre hyes (by omega))
  · exact hn

/-- A candidate wins, provided no positions of an earlier leadership are left. -/
theorem ClusterSafe.win {v : Node}
    (huniq : UniqueLeaders (c.put n ((c.nodes n).recordVote v).becomeLeader []))
    (hrole : (c.nodes n).role = .candidate)
    (hcarried : ((c.nodes n).recordVote v).voteCarried)
    (hvote : h.base (c.nodes n).currentTerm ≠ none ∨
      ∃ log, h.votes v (c.nodes n).currentTerm n log ∧
        AtLeast Entry.term (c.nodes n).log log)
    (hleft : ∀ p, p ∉ (c.nodes n).peers →
      (c.nodes n).nextIndex p = none ∧ (c.nodes n).matchIndex p = none) :
    ∃ h', ClusterSafe V h' (c.put n ((c.nodes n).recordVote v).becomeLeader []) := by
  have hl := hc.log.nodes n
  have hn := hc.nodes n
  have hbase := hc.log.base_eq_none huniq hrole rfl
  have hext : Extends h.toHistory (h.toHistory.lead (c.nodes n).currentTerm (c.nodes n).log
      ((c.nodes n).recordVote v).becomeLeader.log) := extends_lead (.inl hbase)
  have hacked : h.acked n (c.nodes n).currentTerm = 0 := by
    by_contra hne
    exact hc.record.acked_base _ _ hne hbase
  refine ⟨_, hc.put ((grows_extend n hext).trans (grows_ack _ n (c.nodes n).currentTerm
    ((c.nodes n).recordVote v).becomeLeader.log.length))
    ((hc.log.win huniq hrole).congr rfl rfl) ?_ ?_ (by simp)⟩
  · refine (hc.record.extend (.inl ⟨hbase, rfl⟩) (fun _ => ?_) (fun h => by
      simp [Entry.config?] at h)).ack ?_ ?_ hn.votes_le
    · refine ⟨((c.nodes n).recordVote v).votesReceived, ?_, fun w hw => ?_⟩
      · rw [← hn.voters]
        exact hcarried
      · have hcounts := ((hn.recordVote fun _ => hvote).candidate hrole).2 w hw
        obtain ⟨log, hlog, hge⟩ := hcounts.resolve_left fun hne => hne hbase
        exact ⟨n, log, hlog, hge⟩
    · simp [Record.extend, History.lead]
    · simp [Record.extend, History.lead, becomeLeader, appendEntry, appendLogPersist, recordVote]
  · refine (hn.recordVote fun _ => hvote).lead hc.record hext rfl rfl rfl rfl rfl rfl ?_ rfl
      (by rw [show ((c.nodes n).recordVote v).currentTerm = (c.nodes n).currentTerm from rfl,
        hacked]; exact Nat.zero_le _) fun p => ?_
    · change (c.nodes n).voters = latestConfig V ((c.nodes n).log ++ [_])
      rw [latestConfig_concat, hn.voters]
      rfl
    · by_cases hp : p ∈ (c.nodes n).peers
      · simp [becomeLeader, appendEntry, appendLogPersist, recordVote, hp]
      · simp [becomeLeader, appendEntry, appendLogPersist, recordVote, hp, hleft p hp]

/-- A leader appends an entry; a configuration only when it has committed an entry
of its own term and every configuration before. -/
theorem ClusterSafe.extend (huniq : UniqueLeaders (c.put n g []))
    (hrole : (c.nodes n).role = .leader) (hcons : Consistent n V g)
    (hterm : g.currentTerm = (c.nodes n).currentTerm) (hrole' : g.role = .leader)
    (hwon : g.won = (c.nodes n).won) {command : Command Node α}
    (hlog : g.log = (c.nodes n).log ++
      [⟨(c.nodes n).currentTerm, (c.nodes n).log.length + 1, command⟩])
    (hcommit : g.commitIndex = (c.nodes n).commitIndex)
    (hlast : g.lastApplied = (c.nodes n).lastApplied)
    (happliedTerm : g.lastAppliedTerm = (c.nodes n).lastAppliedTerm)
    (happlied : g.applied = (c.nodes n).applied) (hvoters : g.voters = latestConfig V g.log)
    (hpeers : ∀ p, (g.nextIndex p).getD 1 ≤ (c.nodes n).log.length + 2 ∧
      (g.matchIndex p).getD 0 ≤ h.acked p (c.nodes n).currentTerm)
    (hconfig : ∀ voters, command = .config voters → ∃ j m,
      h.commits (c.nodes n).currentTerm j m ∧ m ≤ (c.nodes n).log.length ∧
      (∀ r, j ≤ r → r ≤ (c.nodes n).log.length →
        latestConfig V ((c.nodes n).log.take r) = latestConfig V (c.nodes n).log) ∧
      Adjacent (latestConfig V (c.nodes n).log) voters) :
    ∃ h', ClusterSafe V h' (c.put n g []) := by
  have hn := hc.nodes n
  obtain ⟨-, hbase, hfull, -⟩ := (hc.log.nodes n).leader hrole
  obtain ⟨b, hb⟩ := Option.ne_none_iff_exists'.mp hbase
  have hext : Extends h.toHistory (h.toHistory.lead (c.nodes n).currentTerm b g.log) := by
    refine extends_lead (.inr ⟨hb, ?_⟩)
    rw [hfull, hlog]
    exact prefix_append _ _
  have hown := (hn.leader hrole).1
  refine ⟨_, hc.put ((grows_extend n hext).trans (grows_ack _ n (c.nodes n).currentTerm
    g.log.length)) ((hc.log.extend huniq hrole hcons hterm hrole' hwon hlog hb).congr rfl rfl)
    ?_ (hn.lead hc.record hext hlog hterm hcommit hlast happliedTerm happlied hvoters hrole'
      hown.le hpeers) (by simp)⟩
  have hextended : RecordSafe V (h.extend (c.nodes n).currentTerm b g.log) := by
    rw [hlog]
    refine hc.record.extend (.inr ⟨hb, hfull⟩) (fun hnone => by simp [hb] at hnone) fun hne => ?_
    cases command with
    | noop => simp [Entry.config?] at hne
    | data payload => simp [Entry.config?] at hne
    | config voters =>
      obtain ⟨j, m, hcommits, hm, hsame, hadj⟩ := hconfig voters rfl
      refine ⟨j, m, hcommits, hm, hsame, ?_⟩
      rw [latestConfig_concat]
      exact hadj
  refine hextended.ack ?_ ?_ hn.votes_le
  · simp [Record.extend, History.lead]
  · simp [Record.extend, History.lead]

theorem ClusterSafe.propose {payload : α}
    (huniq : UniqueLeaders (c.put n ((c.nodes n).propose (.data payload)).1 []))
    (hrole : (c.nodes n).role = .leader) :
    ∃ h', ClusterSafe V h' (c.put n ((c.nodes n).propose (.data payload)).1 []) := by
  have hn := hc.nodes n
  rw [propose_eq hrole] at huniq ⊢
  refine hc.extend huniq hrole ((hc.log.nodes n).consistent.appendEntry _) rfl hrole rfl rfl rfl
    rfl rfl rfl ?_ (fun p => ?_) (fun voters heq => by simp at heq)
  · change (c.nodes n).voters = latestConfig V ((c.nodes n).log ++ [_])
    rw [latestConfig_concat, hn.voters]
    rfl
  · exact ⟨((hn.leader hrole).2 p).1.trans (Nat.le_succ _), ((hn.leader hrole).2 p).2⟩

theorem ClusterSafe.ready_last (hready : (c.nodes n).isReady = true) :
    (c.nodes n).role = .leader ∧
      ∃ A e, (c.nodes n).log.take (c.nodes n).commitIndex = A ++ [e] ∧
        e.term = (c.nodes n).currentTerm := by
  have hn := hc.nodes n
  obtain ⟨hrole, hready⟩ : (c.nodes n).role = .leader ∧
      (c.nodes n).lastAppliedTerm = (c.nodes n).currentTerm := by
    simpa [isReady] using hready
  have hpos := (hc.log.nodes n).term_pos (by simp [hrole])
  have hterm : termAt (c.nodes n).log (c.nodes n).commitIndex = (c.nodes n).currentTerm := by
    rw [← hn.lastApplied, ← hn.appliedTerm]
    exact hready
  have hci : 0 < (c.nodes n).commitIndex := by
    by_contra hzero
    have hzero' : (c.nodes n).commitIndex = 0 := by omega
    rw [hzero', termAt_zero] at hterm
    omega
  have hcle := hn.commit_le
  obtain ⟨A, e, hA, hlen, -⟩ :=
    exists_concat_le (c.nodes n).log (i := (c.nodes n).commitIndex - 1) (by omega)
  refine ⟨hrole, A, e, ?_, ?_⟩
  · rw [prefix_iff_eq_take.mp hA]
    congr 1
    simp
    omega
  · rw [← termAt_of_concat_le hA, hlen, Nat.sub_add_cancel hci]
    exact hterm

theorem ClusterSafe.ready_commit (hready : (c.nodes n).isReady = true) :
    ∃ j m, h.commits (c.nodes n).currentTerm j m ∧ m ≤ (c.nodes n).log.length ∧
      (c.nodes n).commitIndex ≤ j := by
  have hn := hc.nodes n
  obtain ⟨hrole, A, e, htake, he⟩ := hc.ready_last hready
  obtain ⟨-, hbase, hfull, -⟩ := (hc.log.nodes n).leader hrole
  rcases hn.committed with hnil | ⟨T, i, m, hcommits, hT, hle⟩
  · rw [htake] at hnil
    simp at hnil
  · have hmem : e ∈ h.full T := mem_of_mem_take (hle.subset (by simp [htake]))
    have hTe := hc.log.wellformed.term_le (hc.record.commit_term hcommits).1 hmem
    have hsame : T = (c.nodes n).currentTerm := by omega
    subst hsame
    refine ⟨i, m, hcommits, ?_, ?_⟩
    · rw [← hfull]
      exact (hc.record.commit_le hcommits).2
    · have hlen := hle.length_le
      have hcle := hn.commit_le
      simp only [length_take] at hlen
      omega

theorem ClusterSafe.reconfigure {voters : Finset Node}
    (huniq : UniqueLeaders (c.put n ((c.nodes n).reconfigure voters).1 []))
    (hrole : (c.nodes n).role = .leader) (hone : (symmDiff (c.nodes n).voters voters).card = 1)
    (hready : (c.nodes n).isReady = true)
    (hcommitted : ∀ e ∈ (c.nodes n).log.drop (c.nodes n).commitIndex, e.config? = none) :
    ∃ h', ClusterSafe V h' (c.put n ((c.nodes n).reconfigure voters).1 []) := by
  have hn := hc.nodes n
  have hcons := (hc.log.nodes n).consistent.reconfigure voters
  obtain ⟨next, matched, heq, hnext, hmatched⟩ :=
    reconfigure_eq (hc.log.nodes n).consistent hrole hone
  rw [heq] at huniq hcons ⊢
  refine hc.extend huniq hrole hcons rfl hrole rfl rfl rfl rfl rfl rfl ?_ (fun p => ?_)
    fun voters' hvoters => ?_
  · change voters = latestConfig V ((c.nodes n).log ++ [_])
    rw [latestConfig_concat]
    rfl
  · obtain ⟨hnextOld, hmatchOld⟩ := (hn.leader hrole).2 p
    constructor
    · rcases hnext p with hsame | ⟨-, -, -, hnew⟩
      · change (next p).getD 1 ≤ _
        rw [hsame]
        exact hnextOld.trans (Nat.le_succ _)
      · change (next p).getD 1 ≤ _
        rw [hnew]
        rfl
    · rcases hmatched p with hsame | ⟨-, -, -, hnew⟩
      · change (matched p).getD 0 ≤ _
        rw [hsame]
        exact hmatchOld
      · change (matched p).getD 0 ≤ _
        rw [hnew]
        exact Nat.zero_le _
  · obtain ⟨j, m, hcommits, hm, hj⟩ := hc.ready_commit hready
    refine ⟨j, m, hcommits, hm, fun r hr hrlen => ?_, ?_⟩
    · conv_rhs => rw [← take_append_drop r (c.nodes n).log]
      refine (configOf_append_of_none Entry.config? V fun e he => hcommitted e ?_).symm
      have hsplit : (c.nodes n).log.drop r =
          ((c.nodes n).log.drop (c.nodes n).commitIndex).drop (r - (c.nodes n).commitIndex) := by
        rw [drop_drop]
        congr 1
        omega
      rw [hsplit] at he
      exact mem_of_mem_drop he
    · obtain rfl : voters = voters' := by simpa using hvoters
      rw [← hn.voters]
      exact hone.le

theorem ClusterSafe.replicate
    (hm : m ∈ appendMessages peer ((c.nodes n).replicateTo peer)) : MessageSafe h m := by
  obtain ⟨req, hreq, rfl⟩ := mem_map.mp hm
  have hn := hc.nodes n
  obtain ⟨hs, -, hrole, hterm, hprev, hcommit⟩ :=
    (hc.log.nodes n).sent (Option.mem_toList.mp hreq)
  refine ⟨(c.nodes n).log, hs, ?_, ?_, ?_⟩
  · have := ((hn.leader hrole).2 peer).1
    omega
  · rw [hcommit]
    exact hn.commit_le
  · rw [hterm, hcommit]
    exact hn.committed

theorem ClusterSafe.handleAppend (huniq : UniqueLeaders c)
    {req : AppendRequest Node α} (hm : .append n req ∈ c.net)
    (hconfig : Truncates (c.nodes n) req →
      ∀ e ∈ (c.nodes n).log.drop (req.prevLogIndex - 1), e.config? = none) :
    Accounts V h n ((c.nodes n).handleAppend req).1
      [.appendReply n req ((c.nodes n).handleAppend req).2] := by
  obtain ⟨P, hs⟩ := hc.net _ hm
  have hl := hc.log.nodes n
  have hnot := hc.log.not_leading huniq hm
  have hg := (hc.nodes n).handleAppend hl hc.record hc.log.wellformed hc.log.indexed hs hnot hconfig
  obtain ⟨hle, ⟨hfail, hmatch, hzero, -⟩ | ⟨hsuccess, hterm, hmatch, hrole, hcur, hfull⟩⟩ :=
    handleAppend_reply hl hc.log.wellformed hc.log.indexed hs.toSent hs.prev_le hnot
  · refine accounts_same hc.record hg (forall_mem_singleton.mpr ?_)
    exact ⟨hs.base, hle, fun hyes => by simp [hfail] at hyes, fun _ => ⟨hmatch, hzero⟩⟩
  · rw [← hcur] at hfull
    refine ⟨_, grows_ack h n ((c.nodes n).handleAppend req).1.currentTerm
      ((c.nodes n).handleAppend req).1.log.length, rfl, rfl, ?_, hg.ack hrole hfull,
      forall_mem_singleton.mpr ?_⟩
    · exact hc.record.ack (hcur ▸ hs.base) hfull.length_le hg.votes_le
    · refine ⟨hs.base, hle, fun _ => ⟨hterm, ?_⟩, fun hno => by simp [hsuccess] at hno⟩
      rw [hmatch, hcur, ack_self]
      exact Nat.le_max_right _ _

theorem ClusterSafe.replicateReply
    {req : AppendRequest Node α} {r : AppendReply Node} (hm : .appendReply peer req r ∈ c.net)
    (hcurrent : (c.nodes req.leaderId).role = .leader →
      (c.nodes req.leaderId).currentTerm ≤ r.term ∨
        (c.nodes req.leaderId).currentTerm = req.term) :
    Accounts V h req.leaderId ((c.nodes req.leaderId).replicateReply peer r) [] := by
  have hn := hc.nodes req.leaderId
  have hl := hc.log.nodes req.leaderId
  obtain ⟨hbase, hreq, hyes, hno⟩ := hc.net _ hm
  unfold RaftGroup.replicateReply
  split_ifs with hlt hrole hsuccess
  · exact accounts_same hc.record (hn.becomeFollower hl.consistent hlt.le) (by simp)
  · exact accounts_same hc.record hn (by simp)
  all_goals
    push Not at hrole
    have hterm : r.term = (c.nodes req.leaderId).currentTerm := by
      rcases hcurrent hrole with hge | heq <;> omega
    obtain ⟨-, -, hfull, -⟩ := hl.leader hrole
    obtain ⟨hown, hpeers⟩ := hn.leader hrole
  · obtain ⟨hsame, hacked⟩ := hyes hsuccess
    rw [← hsame, hterm] at hacked
    have hlen := hc.record.acked_le peer (c.nodes req.leaderId).currentTerm
    rw [hfull] at hlen
    have hg := hn.setPositions (fun p => if p = peer then some (r.matchIndex + 1)
        else (c.nodes req.leaderId).nextIndex p)
      (fun p => if p = peer then some r.matchIndex else (c.nodes req.leaderId).matchIndex p)
      fun _ p => by
        split_ifs with hp
        · subst hp
          exact ⟨Nat.succ_le_succ (hacked.trans hlen), hacked⟩
        · exact hpeers p
    rcases hg.advanceCommit (hl.setPositions _ _) hc.record hrole with hadv | ⟨idx, hr, hadv⟩
    · exact accounts_same hc.record hadv (by simp)
    · exact ⟨_, grows_commit h _ _ _ _, rfl, rfl, hr, hadv, by simp⟩
  · have hfail := hno (by simpa using hsuccess)
    refine accounts_same hc.record (hn.setPositions _ _ fun _ p => ?_) (by simp)
    split_ifs with hp
    · refine ⟨?_, (hpeers p).2⟩
      have hbound : r.matchIndex ≤ (c.nodes req.leaderId).log.length := by
        by_cases hsame : r.term = req.term
        · rw [← hfull, ← hterm, hsame]
          exact hfail.1
        · rw [hfail.2 hsame]
          exact Nat.zero_le _
      simp only [Option.getD_some]
      omega
    · exact hpeers p

end Clusters

section Runs

variable [LinearOrder Node] [DecidableEq α]

/-- A configuration is proposed by a leader that has applied an entry of its term
and has no other uncommitted configuration. A log that `handle_append` shortens
without looking at the voters again loses no configuration, and a new leader
starts without positions of nodes that are not its peers. -/
def CarefulChanges (c : Cluster Node α) : Event Node α → Prop
  | .reconfigure n _ =>
      (c.nodes n).isReady = true ∧
        ∀ e ∈ (c.nodes n).log.drop (c.nodes n).commitIndex, e.config? = none
  | .deliver (.append n req) _ =>
      Truncates (c.nodes n) req →
        ∀ e ∈ (c.nodes n).log.drop (req.prevLogIndex - 1), e.config? = none
  | .deliver (.voteReply req r) _ =>
      (c.nodes req.candidateId).role = .candidate →
        ((c.nodes req.candidateId).requestVote r).role = .leader →
        ∀ p, p ∉ (c.nodes req.candidateId).peers →
          (c.nodes req.candidateId).nextIndex p = none ∧
            (c.nodes req.candidateId).matchIndex p = none
  | _ => True

instance [Fintype Node] (c : Cluster Node α) (a : Event Node α) :
    Decidable (CarefulChanges c a) := by
  induction a using Event.casesOn with
  | deliver m => induction m using Message.casesOn <;> unfold CarefulChanges <;> infer_instance
  | _ => unfold CarefulChanges; infer_instance

/-- A leader handles only append replies of its own term. -/
def OrderlyReplies (c : Cluster Node α) : Event Node α → Prop
  | .deliver (.appendReply _ req r) _ =>
      (c.nodes req.leaderId).role = .leader →
        (c.nodes req.leaderId).currentTerm ≤ r.term ∨
          (c.nodes req.leaderId).currentTerm = req.term
  | _ => True

instance (c : Cluster Node α) (a : Event Node α) : Decidable (OrderlyReplies c a) := by
  induction a using Event.casesOn with
  | deliver m => induction m using Message.casesOn <;> unfold OrderlyReplies <;> infer_instance
  | _ => unfold OrderlyReplies; infer_instance

def Orderly (c : Cluster Node α) (a : Event Node α) : Prop :=
  CarefulChanges c a ∧ OrderlyReplies c a

instance [Fintype Node] (c : Cluster Node α) (a : Event Node α) : Decidable (Orderly c a) :=
  inferInstanceAs (Decidable (_ ∧ _))

omit [DecidableEq α] in
theorem ClusterSafe.accounts (hc : ClusterSafe V h c) (ha : Orderly c a) (huniq : UniqueLeaders c)
    (ht : Transition c a n g out) (hwon : g.won = (c.nodes n).won)
    (hpropose : ∀ payload, a ≠ .propose n payload)
    (hreconfigure : ∀ voters, a ≠ .reconfigure n voters) : Accounts V h n g out := by
  have hl := hc.log.nodes n
  have hn := hc.nodes n
  have hsame : ∀ {g out}, _ → _ → Accounts V h n g out := accounts_same hc.record
  cases ht with
  | campaign => exact hc.startPreElection
  | heartbeat =>
    refine hsame hn fun m hm => ?_
    obtain ⟨p, -, rfl⟩ := mem_map.mp hm
    trivial
  | vote _ req recent hm => exact hc.handleVote hm
  | preVoteReply => exact hc.requestPreVote
  | voteReply req r recent hm hpre => exact hsame (hc.requestVote hm hpre hwon) (by simp)
  | replicate => exact hsame hn fun m hm => hc.replicate hm
  | append _ req recent hm => exact hc.handleAppend huniq hm ha.1
  | appendReply peer req r recent hm => exact hc.replicateReply hm ha.2
  | propose _ payload => exact absurd rfl (hpropose payload)
  | reconfigure _ voters => exact absurd rfl (hreconfigure voters)
  | restart => exact hsame (hn.restart hl.consistent) (by simp)
  | crashInVote _ req => exact hsame (hn.crashInVote hl.consistent req) (by simp)
  | crashInAppend _ req count hm =>
    exact hsame (hn.crashInAppend hl (hc.log.not_leading huniq hm) count) (by simp)

omit [DecidableEq α] in
theorem ClusterSafe.transition (hc : ClusterSafe V h c) (ha : Orderly c a)
    (huniq : UniqueLeaders (c.put n g out)) (ht : Transition c a n g out) :
    ∃ h', ClusterSafe V h' (c.put n g out) := by
  have hcons := (hc.log.nodes n).consistent
  have huniq' := huniq.of_put ht hcons
  rcases ht.won_cases hcons with hwon |
    ⟨req, r, recent, rfl, hm, hpre, rfl, rfl, hrole, hterm, hyes, hcarried, rfl⟩
  · have hquiet := fun hpropose hreconfigure =>
      hc.account (hc.log.quiet huniq' ht hwon hpropose hreconfigure)
        (hc.accounts ha huniq' ht hwon hpropose hreconfigure)
    cases ht with
    | propose _ payload hrole => exact hc.propose huniq hrole
    | reconfigure _ voters hrole hone => exact hc.reconfigure huniq hrole hone ha.1.1 ha.1.2
    | _ => exact hquiet (by simp) (by simp)
  · refine hc.win huniq hrole hcarried (hc.vote_counts hm hpre hyes hterm hrole) (ha.1 hrole ?_)
    rw [requestVote_of_carried hrole hterm hyes hcarried]
    rfl

def Record.empty : Record Node α where
  base := fun _ => none
  full := fun _ => []
  acked := fun _ _ => 0
  commits := fun _ _ _ => False
  votes := fun _ _ _ _ => False
  campaigns := fun _ _ _ => False

omit [DecidableEq α] in
theorem clusterSafe_start (V : Finset Node) :
    ClusterSafe V (Record.empty : Record Node α) (start V) where
  log := clusterLog_start fun _ => rfl
  record := ⟨False.elim, False.elim, False.elim, fun hb => by simp [Record.empty] at hb,
    fun hb => by simp [Record.empty] at hb, fun _ _ => Nat.zero_le _,
    fun _ _ hne => absurd rfl hne, False.elim, False.elim⟩
  nodes n := nodeSafe_create (fun _ _ => rfl) (fun _ _ _ _ => id) (fun _ _ _ => id)
  net := by simp [start]

theorem clusterSafe_of_reaches (hrun : Reaches step Orderly (start V) c)
    (huniq : UniqueLeaders c) : ∃ h, ClusterSafe V h c := by
  refine invariant_of_uniqueLeaders (fun c => ∃ h, ClusterSafe V h c) hrun huniq ?_ ?_ ?_
  · exact ⟨_, clusterSafe_start V⟩
  · rintro c m ⟨h, hc⟩
    exact ⟨h, hc.log.lose m, hc.record, hc.nodes, fun x hx => hc.net x (mem_of_mem_erase hx)⟩
  · rintro c a n g out ⟨h, hc⟩ ha huniq ht
    exact hc.transition ha huniq ht

variable {e : Entry Node α}

omit [DecidableEq α] in
theorem Committed.index_eq (hc : ClusterSafe V h c) {t : Nat} {A : List (Entry Node α)}
    (hA : Committed h t (A ++ [e])) : e.index = A.length + 1 := by
  rcases hA with hnil | ⟨T, i, m, hcommits, -, hle⟩
  · simp at hnil
  · exact hc.log.indexed T (hc.record.commit_term hcommits).1 A e (hle.trans (List.take_prefix i _))

omit [DecidableEq α] in
theorem ClusterSafe.applied_unique (hc : ClusterSafe V h c) {m : Node} {e' : Entry Node α}
    (he : e ∈ (c.nodes n).applied) (he' : e' ∈ (c.nodes m).applied) (hindex : e.index = e'.index) :
    e = e' := by
  obtain ⟨A, hA⟩ := (hc.nodes n).applied e he
  obtain ⟨A', hA'⟩ := (hc.nodes m).applied e' he'
  have hlen : A.length = A'.length := by
    have h₁ := Committed.index_eq hc hA
    have h₂ := Committed.index_eq hc hA'
    omega
  have heq : A ++ [e] = A' ++ [e'] := by
    rcases hA.comparable_committed hA' hc.record hc.log.wellformed with hle | hle
    · exact hle.eq_of_length (by simp [hlen])
    · exact (hle.eq_of_length (by simp [hlen])).symm
  simpa using (append_inj' heq rfl).2

end Runs

end LiteDB.StateMachineSafety
