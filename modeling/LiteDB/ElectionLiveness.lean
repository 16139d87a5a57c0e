import LiteDB.ElectionSafety
import Mathlib.Data.Finset.Max

namespace LiteDB.ElectionLiveness

open ElectionSafety List Majorities RaftCluster RaftNode RaftNodeSpec Runs RaftGroup

variable {Node α : Type}

/-- A log that voters holding `other` accept, as `handle_vote` compares them. -/
def Covers (log other : List (Entry Node α)) : Prop :=
  lastLogTerm other < lastLogTerm log ∨
    (lastLogTerm log = lastLogTerm other ∧ other.length ≤ log.length)

instance (log other : List (Entry Node α)) : Decidable (Covers log other) :=
  inferInstanceAs (Decidable (_ ∨ _))

theorem covers_refl (log : List (Entry Node α)) : Covers log log :=
  .inr ⟨rfl, le_rfl⟩

def Electing (_ : Cluster Node α) : Event Node α → Prop
  | .timeout _ => True
  | .deliver _ _ => True
  | _ => False

variable [LinearOrder Node]

def supporters (V : Finset Node) (c : Cluster Node α) (f : Node) : Finset Node :=
  V.filter fun v => Covers (c.nodes f).log (c.nodes v).log

def Leads (V : Finset Node) (c : Cluster Node α) : Prop :=
  ∃ n ∈ V, (c.nodes n).role = .leader

/-- Some voter leads, or some voter is a follower with the support of a majority. -/
def Electable (V : Finset Node) (c : Cluster Node α) : Prop :=
  Leads V c ∨ ∃ f ∈ V, (c.nodes f).role = .follower ∧ Majority V (supporters V c f)

variable [DecidableEq α]

/-- Timeouts and deliveries can lead to a state with a leader. -/
def CanElect (V : Finset Node) (c : Cluster Node α) : Prop :=
  ∃ c', Reaches step Electing c c' ∧ Leads V c'

variable {V Q : Finset Node} {c c' : Cluster Node α} {f q : Node}

theorem CanElect.of_reaches (h : Reaches step Electing c c') (hc : CanElect V c') :
    CanElect V c := by
  obtain ⟨d, hd, hleads⟩ := hc
  exact ⟨d, h.trans hd, hleads⟩

variable {g : RaftGroup Node α} {req : VoteRequest Node}

omit [DecidableEq α] in
theorem openPreVote_not_carried (hV : 2 ≤ g.voters.card) : ¬g.openPreVote.preVoteCarried := by
  have hcard : (({g.nodeId} : Finset Node) ∩ g.voters).card ≤ 1 :=
    (Finset.card_le_card Finset.inter_subset_left).trans (Finset.card_singleton _).le
  simp only [preVoteCarried, majority, openPreVote]
  omega

omit [DecidableEq α] in
theorem startPreElection_of_two (hV : 2 ≤ g.voters.card) :
    g.startPreElection = (g.openPreVote,
      g.peers.map fun p => (p, g.voteRequest true (g.currentTerm + 1))) :=
  if_neg (openPreVote_not_carried hV)

omit [LinearOrder Node] [DecidableEq α] in
theorem mem_voteMessages {peers : List Node} (hq : q ∈ peers) :
    (.vote q req : Message Node α) ∈ voteMessages (peers.map fun p => (p, req)) := by
  simp [voteMessages, hq]

theorem reaches_preVote (hpre : req.preVote = true) (hcand : req.candidateId = f)
    (hm : .vote q req ∈ c.net) :
    ∃ d, Reaches step Electing c d ∧
      d.nodes f = ((c.nodes f).requestPreVote ((c.nodes q).handleVote req false).2).1 ∧
      (∀ m, m ≠ f → d.nodes m = c.nodes m) ∧
      ∀ m, m ∈ c.net ∨ m ∈ voteMessages
        ((c.nodes f).requestPreVote ((c.nodes q).handleVote req false).2).2 → m ∈ d.net := by
  set reply := ((c.nodes q).handleVote req false).2 with hreply
  have hsame : ((c.nodes q).handleVote req false).1 = c.nodes q := by
    simp [RaftGroup.handleVote, hpre]
  have hfirst : step c (.deliver (.vote q req) false) =
      some (c.put q (c.nodes q) [.voteReply req reply]) := by
    simp [step, hm, Cluster.handle, hsame, hreply]
  have hnodes : (c.put q (c.nodes q) [.voteReply req reply]).nodes = c.nodes := by
    funext m
    by_cases hmq : m = q
    · rw [hmq, put_nodes_self]
    · rw [put_nodes_ne c _ _ hmq]
  have hsecond : step (c.put q (c.nodes q) [.voteReply req reply])
      (.deliver (.voteReply req reply) false) =
      some ((c.put q (c.nodes q) [.voteReply req reply]).put f
        ((c.nodes f).requestPreVote reply).1
        (voteMessages ((c.nodes f).requestPreVote reply).2)) := by
    simp [step, Cluster.handle, hpre, hcand, hnodes]
  refine ⟨_, (Reaches.single (a := .deliver (.vote q req) false) trivial hfirst).tail
    (a := .deliver (.voteReply req reply) false) trivial hsecond, put_nodes_self _ _ _ _, ?_, ?_⟩
  · intro m hmf
    rw [put_nodes_ne _ _ _ hmf, hnodes]
  · rintro m (hin | hout)
    · simp [hin]
    · simp [hout]

theorem reaches_vote (hpre : req.preVote = false) (hcand : req.candidateId = f) (hne : q ≠ f)
    (hm : .vote q req ∈ c.net) :
    ∃ d, Reaches step Electing c d ∧
      d.nodes f = (c.nodes f).requestVote ((c.nodes q).handleVote req false).2 ∧
      d.nodes q = ((c.nodes q).handleVote req false).1 ∧
      (∀ m, m ≠ f → m ≠ q → d.nodes m = c.nodes m) ∧ ∀ m, m ∈ c.net → m ∈ d.net := by
  set answer := (c.nodes q).handleVote req false with hanswer
  have hfirst : step c (.deliver (.vote q req) false) =
      some (c.put q answer.1 [.voteReply req answer.2]) := by
    simp [step, hm, Cluster.handle, hanswer]
  have hf : (c.put q answer.1 [.voteReply req answer.2]).nodes f = c.nodes f :=
    put_nodes_ne c _ _ (Ne.symm hne)
  have hsecond : step (c.put q answer.1 [.voteReply req answer.2])
      (.deliver (.voteReply req answer.2) false) =
      some ((c.put q answer.1 [.voteReply req answer.2]).put f
        ((c.nodes f).requestVote answer.2) []) := by
    simp [step, Cluster.handle, hpre, hcand, hf]
  refine ⟨_, (Reaches.single (a := .deliver (.vote q req) false) trivial hfirst).tail
    (a := .deliver (.voteReply req answer.2) false) trivial hsecond,
    put_nodes_self _ _ _ _, ?_, ?_, ?_⟩
  · rw [put_nodes_ne _ _ _ hne, put_nodes_self]
  · intro m hmf hmq
    rw [put_nodes_ne _ _ _ hmf, put_nodes_ne _ _ _ hmq]
  · intro m hin
    simp [hin]

section Campaign

/-- The voters in `Q` can bring `f` to power. -/
structure Supported (V Q : Finset Node) (c : Cluster Node α) (f : Node) : Prop where
  consistent : ∀ n, Consistent n V (c.nodes n)
  voters : (c.nodes f).voters = V
  mem : f ∈ V
  subset : Q ⊆ V
  majority : Majority V Q
  covers : ∀ q ∈ Q, Covers (c.nodes f).log (c.nodes q).log

omit [DecidableEq α] in
theorem Supported.congr (hs : Supported V Q c f) (hcons : ∀ n, Consistent n V (c'.nodes n))
    (hvoters : (c'.nodes f).voters = (c.nodes f).voters)
    (hlog : ∀ n, (c'.nodes n).log = (c.nodes n).log) : Supported V Q c' f where
  consistent := hcons
  voters := hvoters.trans hs.voters
  mem := hs.mem
  subset := hs.subset
  majority := hs.majority
  covers q hq := by
    rw [hlog, hlog]
    exact hs.covers q hq

omit [DecidableEq α] in
theorem Supported.move (hs : Supported V Q c f) (hother : ∀ m, m ≠ f → c'.nodes m = c.nodes m)
    (hcons : Consistent f V (c'.nodes f)) (hvoters : (c'.nodes f).voters = (c.nodes f).voters)
    (hlog : (c'.nodes f).log = (c.nodes f).log) : Supported V Q c' f := by
  refine hs.congr (fun n => ?_) hvoters fun n => ?_
  · by_cases hn : n = f
    · exact hn ▸ hcons
    · rw [hother n hn]
      exact hs.consistent n
  · by_cases hn : n = f
    · rw [hn, hlog]
    · rw [hother n hn]

omit [DecidableEq α] in
theorem Supported.mem_peers (hs : Supported V Q c f) (hq : q ∈ Q) (hne : q ≠ f) :
    q ∈ (c.nodes f).peers := by
  rw [(hs.consistent f).mem_peers, hs.voters]
  exact ⟨hne, hs.subset hq⟩

theorem reaches_timeout (hV : 2 ≤ V.card) (hs : Supported V Q c f)
    (hrole : (c.nodes f).role = .follower) :
    ∃ d, Reaches step Electing c d ∧ d.nodes f = (c.nodes f).openPreVote ∧
      (∀ m, m ≠ f → d.nodes m = c.nodes m) ∧
      ∀ q ∈ Q, q ≠ f →
        .vote q ((c.nodes f).voteRequest true ((c.nodes f).currentTerm + 1)) ∈ d.net := by
  have hstep : step c (.timeout f) = some (c.put f (c.nodes f).openPreVote
      (voteMessages ((c.nodes f).peers.map fun p =>
        (p, (c.nodes f).voteRequest true ((c.nodes f).currentTerm + 1))))) := by
    have hmem : (c.nodes f).nodeId ∈ (c.nodes f).voters := by
      rw [(hs.consistent f).nodeId, hs.voters]
      exact hs.mem
    simp [step, hrole, hmem, startPreElection_of_two (hs.voters ▸ hV : 2 ≤ (c.nodes f).voters.card)]
  refine ⟨_, Reaches.single (a := .timeout f) trivial hstep, put_nodes_self _ _ _ _,
    fun m hm => put_nodes_ne _ _ _ hm, fun q hq hqf => ?_⟩
  exact mem_append_right _ (mem_voteMessages (hs.mem_peers hq hqf))

omit [DecidableEq α] in
theorem majority_mono {P : Finset Node} (hQ : Majority V Q) (hsub : Q ⊆ P) : Majority V P :=
  hQ.trans (Finset.card_le_card (Finset.inter_subset_inter_right hsub))

variable {g' : RaftGroup Node α}

omit [DecidableEq α] in
theorem handleVote_of_covers (hg : Consistent q V g) (hterm : g.currentTerm < g'.currentTerm)
    (hcovers : Covers g'.log g.log) (recent : Bool) :
    (g.handleVote (g'.voteRequest false g'.currentTerm) recent).2 =
      ⟨g'.currentTerm, true, q, false⟩ := by
  have hadopt : g.adoptTerm g'.currentTerm = g.becomeFollower g'.currentTerm := if_pos hterm
  have hgrant : (g.becomeFollower g'.currentTerm).canGrant
      (g'.voteRequest false g'.currentTerm) := by
    rw [becomeFollower_eq hg]
    exact ⟨le_rfl, .inl rfl, hcovers⟩
  have hsame : (g.becomeFollower g'.currentTerm).currentTerm = g'.currentTerm := by
    rw [becomeFollower_eq hg]
  simp only [RaftGroup.handleVote, voteRequest] at hgrant ⊢
  simp [hadopt, hgrant, hsame, hg.nodeId]

omit [DecidableEq α] in
theorem handleVote_preVote_of_covers (hg : Consistent q V g)
    (hterm : g.currentTerm ≤ g'.currentTerm) (hcovers : Covers g'.log g.log)
    (hrole : g.role ≠ .leader) :
    (g.handleVote (g'.voteRequest true (g'.currentTerm + 1)) false).2 =
      ⟨g.currentTerm, true, q, true⟩ := by
  have hgrant : g.currentTerm ≤ g'.currentTerm + 1 ∧
      g.upToDate (g'.voteRequest true (g'.currentTerm + 1)) ∧ ¬g.leaderRecent false :=
    ⟨by omega, hcovers, by simp [leaderRecent, hrole]⟩
  simp only [RaftGroup.handleVote, voteRequest] at hgrant ⊢
  simp [hgrant, hg.nodeId]

theorem canElect_of_votes (rest : List Node) (hs : Supported V Q c f)
    (hrole : (c.nodes f).role = .candidate)
    (hrest : ∀ q ∈ rest, q ∈ Q ∧ q ≠ f ∧
      (c.nodes q).currentTerm < (c.nodes f).currentTerm ∧
      .vote q ((c.nodes f).voteRequest false (c.nodes f).currentTerm) ∈ c.net)
    (hnodup : rest.Nodup) (hvotes : Q ⊆ (c.nodes f).votesReceived ∪ rest.toFinset)
    (hnot : ¬(c.nodes f).voteCarried) : CanElect V c := by
  induction rest generalizing c with
  | nil =>
    have hcarried : Majority V (c.nodes f).votesReceived :=
      majority_mono hs.majority (by simpa using hvotes)
    rw [voteCarried, majority, hs.voters] at hnot
    exact absurd hcarried hnot
  | cons q rest ih =>
    obtain ⟨hqQ, hqf, hterm, hm⟩ := hrest q (by simp)
    obtain ⟨d, hd, hdf, hdq, hother, hnet⟩ :=
      reaches_vote rfl (hs.consistent f).nodeId hqf hm
    rw [handleVote_of_covers (hs.consistent q) hterm (hs.covers q hqQ) false] at hdf
    refine CanElect.of_reaches hd ?_
    by_cases hcarried : ((c.nodes f).recordVote q).voteCarried
    · rw [requestVote_of_carried hrole rfl rfl hcarried] at hdf
      exact ⟨d, Reaches.refl d, f, hs.mem, by rw [hdf]; rfl⟩
    · have hrecord : d.nodes f = (c.nodes f).recordVote q := by
        rw [hdf]
        simp [requestVote, hrole, hcarried]
      have hlogq : (d.nodes q).log = (c.nodes q).log := by
        rw [hdq]
        exact (sameLog_handleVote (hs.consistent q) _ _).log
      have hcons : ∀ n, Consistent n V (d.nodes n) := by
        intro n
        by_cases hnf : n = f
        · subst hnf
          rw [hrecord]
          exact (hs.consistent n).recordVote q
        · by_cases hnq : n = q
          · subst hnq
            rw [hdq]
            exact (hs.consistent n).handleVote _ _
          · rw [hother n hnf hnq]
            exact hs.consistent n
      have hlog : ∀ n, (d.nodes n).log = (c.nodes n).log := by
        intro n
        by_cases hnf : n = f
        · rw [hnf, hrecord]
          rfl
        · by_cases hnq : n = q
          · rw [hnq, hlogq]
          · rw [hother n hnf hnq]
      refine ih (hs.congr hcons (by rw [hrecord]; rfl) hlog) (by rw [hrecord]; exact hrole)
        ?_ hnodup.of_cons ?_ (by rwa [hrecord])
      · intro p hp
        obtain ⟨hpQ, hpf, hpterm, hpm⟩ := hrest p (by simp [hp])
        have hpq : p ≠ q := fun h => (nodup_cons.mp hnodup).1 (h ▸ hp)
        rw [hother p hpf hpq, hrecord]
        exact ⟨hpQ, hpf, hpterm, hnet _ hpm⟩
      · rw [hrecord]
        intro p hp
        have hmem := hvotes hp
        simp only [toFinset_cons, Finset.mem_union, Finset.mem_insert] at hmem
        simp only [recordVote, Finset.mem_union, Finset.mem_insert]
        tauto

theorem canElect_of_campaign (hV : 2 ≤ V.card) (hs : Supported V Q c f)
    (hrole : (c.nodes f).role = .candidate) (hvotes : (c.nodes f).votesReceived = {f})
    (hQ : ∀ q ∈ Q, q ≠ f → (c.nodes q).currentTerm < (c.nodes f).currentTerm ∧
      .vote q ((c.nodes f).voteRequest false (c.nodes f).currentTerm) ∈ c.net) :
    CanElect V c := by
  refine canElect_of_votes (Q.erase f).toList hs hrole ?_ (Finset.nodup_toList _) ?_ ?_
  · intro q hq
    obtain ⟨hqf, hqQ⟩ := Finset.mem_erase.mp (Finset.mem_toList.mp hq)
    exact ⟨hqQ, hqf, hQ q hqQ hqf⟩
  · rw [hvotes, Finset.toList_toFinset]
    intro q hq
    by_cases hqf : q = f
    · simp [hqf]
    · simp [hqf, hq]
  · have hcard : (({f} : Finset Node) ∩ V).card ≤ 1 :=
      (Finset.card_le_card Finset.inter_subset_left).trans (Finset.card_singleton _).le
    rw [voteCarried, majority, hvotes, hs.voters]
    omega

/-- The follower asks the nodes in `rest` one after the other for a pre-vote. -/
theorem canElect_of_preVotes (rest : List Node) (hV : 2 ≤ V.card) (hs : Supported V Q c f)
    (hrole : (c.nodes f).role = .follower)
    (hopen : (c.nodes f).preVoteTerm = (c.nodes f).currentTerm + 1)
    (hterms : ∀ q ∈ Q, (c.nodes q).currentTerm ≤ (c.nodes f).currentTerm)
    (hrest : ∀ q ∈ rest, q ∈ Q ∧ q ≠ f ∧ (c.nodes q).role ≠ .leader ∧
      .vote q ((c.nodes f).voteRequest true ((c.nodes f).currentTerm + 1)) ∈ c.net)
    (hvotes : Q ⊆ (c.nodes f).preVotes ∪ rest.toFinset)
    (hnot : ¬(c.nodes f).preVoteCarried) : CanElect V c := by
  induction rest generalizing c with
  | nil =>
    have hcarried : Majority V (c.nodes f).preVotes :=
      majority_mono hs.majority (by simpa using hvotes)
    rw [preVoteCarried, majority, hs.voters] at hnot
    exact absurd hcarried hnot
  | cons q rest ih =>
    obtain ⟨hqQ, hqf, hqrole, hm⟩ := hrest q (by simp)
    obtain ⟨d, hd, hdf, hother, hnet⟩ := reaches_preVote rfl (hs.consistent f).nodeId hm
    rw [handleVote_preVote_of_covers (hs.consistent q) (hterms q hqQ) (hs.covers q hqQ)
      hqrole] at hdf hnet
    have hold := Nat.not_lt.mpr (hterms q hqQ)
    refine CanElect.of_reaches hd ?_
    by_cases hcarried : ((c.nodes f).recordPreVote q).preVoteCarried
    · have hreply : (c.nodes f).requestPreVote ⟨(c.nodes q).currentTerm, true, q, true⟩ =
          ((c.nodes f).recordPreVote q).startElection := by
        simp [RaftGroup.requestPreVote, hrole, hopen, hold, hcarried]
      rw [hreply] at hdf hnet
      have hcandidate : d.nodes f = ((c.nodes f).recordPreVote q).becomeCandidate := hdf
      refine canElect_of_campaign hV
        (hs.move hother (hcandidate ▸ ((hs.consistent f).recordPreVote q).becomeCandidate)
          (by rw [hcandidate]; rfl) (by rw [hcandidate]; rfl))
        (by rw [hcandidate]; rfl) ?_ fun p hp hpf => ⟨?_, ?_⟩
      · have hself : ((c.nodes f).recordPreVote q).becomeCandidate.votesReceived =
            {(c.nodes f).nodeId} := rfl
        rw [hcandidate, hself, (hs.consistent f).nodeId]
      · rw [hcandidate, hother p hpf]
        exact Nat.lt_succ_of_le (hterms p hp)
      · rw [hcandidate]
        exact hnet _ (.inr (mem_voteMessages (hs.mem_peers hp hpf)))
    · have hrecord : d.nodes f = (c.nodes f).recordPreVote q := by
        rw [hdf]
        simp [RaftGroup.requestPreVote, hrole, hopen, hold, hcarried]
      refine ih (hs.move hother (hrecord ▸ (hs.consistent f).recordPreVote q)
        (by rw [hrecord]; rfl) (by rw [hrecord]; rfl)) (by rw [hrecord]; exact hrole)
        (by rw [hrecord]; exact hopen) ?_ ?_ ?_ (by rwa [hrecord])
      · intro p hp
        rw [hrecord]
        by_cases hpf : p = f
        · rw [hpf, hrecord]
        · rw [hother p hpf]
          exact hterms p hp
      · intro p hp
        obtain ⟨hpQ, hpf, hprole, hpm⟩ := hrest p (by simp [hp])
        rw [hother p hpf, hrecord]
        exact ⟨hpQ, hpf, hprole, hnet _ (.inl hpm)⟩
      · rw [hrecord]
        intro p hp
        have hmem := hvotes hp
        simp only [toFinset_cons, Finset.mem_union, Finset.mem_insert] at hmem
        simp only [recordPreVote, Finset.mem_union, Finset.mem_insert]
        tauto

/-- A follower that is not behind the terms of `Q` starts an election. -/
theorem canElect_of_terms (hV : 2 ≤ V.card) (hs : Supported V Q c f)
    (hrole : (c.nodes f).role = .follower) (hnone : ¬Leads V c)
    (hterms : ∀ q ∈ Q, (c.nodes q).currentTerm ≤ (c.nodes f).currentTerm) : CanElect V c := by
  obtain ⟨d, hd, hdf, hother, hnet⟩ := reaches_timeout hV hs hrole
  refine CanElect.of_reaches hd (canElect_of_preVotes (Q.erase f).toList hV
    (hs.move hother (hdf ▸ (hs.consistent f).openPreVote) (by rw [hdf]; rfl) (by rw [hdf]; rfl))
    (by rw [hdf]; exact hrole) (by rw [hdf]; rfl) ?_ ?_ ?_ ?_)
  · intro q hq
    rw [hdf]
    by_cases hqf : q = f
    · rw [hqf, hdf]
    · rw [hother q hqf]
      exact hterms q hq
  · intro q hq
    obtain ⟨hqf, hqQ⟩ := Finset.mem_erase.mp (Finset.mem_toList.mp hq)
    rw [hother q hqf, hdf]
    exact ⟨hqQ, hqf, fun hlead => hnone ⟨q, hs.subset hqQ, hlead⟩, hnet q hqQ hqf⟩
  · rw [hdf, Finset.toList_toFinset]
    intro q hq
    by_cases hqf : q = f
    · simp [openPreVote, hqf, (hs.consistent f).nodeId]
    · simp [hqf, hq]
  · rw [hdf]
    exact openPreVote_not_carried (hs.voters ▸ hV)

/-- A follower first learns the highest term of its supporters from a pre-vote
that fails. -/
theorem canElect_of_supported (hV : 2 ≤ V.card) (hs : Supported V Q c f)
    (hrole : (c.nodes f).role = .follower) (hnone : ¬Leads V c) : CanElect V c := by
  obtain ⟨q, hqQ, hmax⟩ := Finset.exists_max_image Q (fun q => (c.nodes q).currentTerm)
    (hs.majority.nonempty.mono Finset.inter_subset_left)
  by_cases hbehind : (c.nodes f).currentTerm < (c.nodes q).currentTerm
  · have hqf : q ≠ f := fun h => (h ▸ hbehind).ne rfl
    obtain ⟨d, hd, hdf, hother, hnet⟩ := reaches_timeout hV hs hrole
    obtain ⟨e, he, hef, hother', -⟩ := reaches_preVote (c := d) (f := f) rfl
      (hs.consistent f).nodeId (hnet q hqQ hqf)
    rw [hother q hqf, hdf] at hef
    have hadopt : e.nodes f = (c.nodes f).openPreVote.becomeFollower (c.nodes q).currentTerm := by
      rw [hef]
      simp [RaftGroup.requestPreVote, openPreVote, hrole, RaftGroup.handleVote,
        voteRequest, hbehind]
    have hothers : ∀ m, m ≠ f → e.nodes m = c.nodes m := fun m hm =>
      (hother' m hm).trans (hother m hm)
    have hcons := (hs.consistent f).openPreVote
    have hfollower := becomeFollower_eq hcons (c.nodes q).currentTerm
    refine CanElect.of_reaches (hd.trans he) (canElect_of_terms hV
      (hs.move hothers (hadopt ▸ hcons.becomeFollower _) ?_ ?_) ?_ ?_ ?_)
    · rw [hadopt, hfollower]
      rfl
    · rw [hadopt, hfollower]
      rfl
    · rw [hadopt, hfollower]
    · rintro ⟨n, hn, hlead⟩
      by_cases hnf : n = f
      · rw [hnf, hadopt, hfollower] at hlead
        simp at hlead
      · rw [hothers n hnf] at hlead
        exact hnone ⟨n, hn, hlead⟩
    · intro p hp
      have hterm : (e.nodes f).currentTerm = (c.nodes q).currentTerm := by
        rw [hadopt, hfollower]
      rw [hterm]
      by_cases hpf : p = f
      · rw [hpf, hterm]
      · rw [hothers p hpf]
        exact hmax p hp
  · exact canElect_of_terms hV hs hrole hnone fun p hp =>
      (hmax p hp).trans (Nat.le_of_not_lt hbehind)

end Campaign

section Stalled

/-- The node whose election a message belongs to. -/
def candidate? : Message Node α → Option Node
  | .vote _ req => some req.candidateId
  | .voteReply req _ => some req.candidateId
  | _ => none

/-- A message of a pre-vote round, where `log` gives the logs of all nodes. -/
def Probes (V : Finset Node) (log : Node → List (Entry Node α)) : Message Node α → Prop
  | .vote _ req =>
      req.preVote = true ∧ req.candidateId ∈ V ∧
        req.lastLogIndex = (log req.candidateId).length ∧
        req.lastLogTerm = lastLogTerm (log req.candidateId)
  | .voteReply req r =>
      req.preVote = true ∧ req.candidateId ∈ V ∧
        (r.voteGranted = true → Covers (log req.candidateId) (log r.voterId))
  | _ => False

/-- A state in which nothing but pre-vote rounds has happened since `c`. -/
structure Stalled (V : Finset Node) (c d : Cluster Node α) : Prop where
  consistent : ∀ n, Consistent n V (d.nodes n)
  voters : ∀ n, (d.nodes n).voters = V
  log : ∀ n, (d.nodes n).log = (c.nodes n).log
  role : ∀ n, (d.nodes n).role = (c.nodes n).role
  net : ∀ m ∈ d.net, Probes V (fun n => (c.nodes n).log) m
  preVotes : ∀ n, (∃ m ∈ d.net, candidate? m = some n) →
    ∀ v ∈ (d.nodes n).preVotes, Covers (c.nodes n).log (c.nodes v).log

variable {d : Cluster Node α} {n : Node} {out : List (Message Node α)}

omit [DecidableEq α] in
theorem Stalled.put (hd : Stalled V c d) (hcons : Consistent n V g) (hvoters : g.voters = V)
    (hlog : g.log = (d.nodes n).log) (hrole : g.role = (d.nodes n).role)
    (hout : ∀ m ∈ out, Probes V (fun n => (c.nodes n).log) m)
    (hothers : ∀ m ∈ out, ∀ p, candidate? m = some p → p ≠ n →
      ∃ m' ∈ d.net, candidate? m' = some p)
    (hpre : (∃ m ∈ d.net ++ out, candidate? m = some n) →
      ∀ v ∈ g.preVotes, Covers (c.nodes n).log (c.nodes v).log) :
    Stalled V c (d.put n g out) where
  consistent p := by
    by_cases hp : p = n
    · subst hp
      rwa [put_nodes_self]
    · rw [put_nodes_ne d g out hp]
      exact hd.consistent p
  voters p := by
    by_cases hp : p = n
    · rw [hp, put_nodes_self, hvoters]
    · rw [put_nodes_ne d g out hp, hd.voters]
  log p := by
    by_cases hp : p = n
    · rw [hp, put_nodes_self, hlog, hd.log]
    · rw [put_nodes_ne d g out hp, hd.log]
  role p := by
    by_cases hp : p = n
    · rw [hp, put_nodes_self, hrole, hd.role]
    · rw [put_nodes_ne d g out hp, hd.role]
  net m hm := by
    rcases mem_append.mp hm with hm | hm
    · exact hd.net m hm
    · exact hout m hm
  preVotes p hp := by
    by_cases hpn : p = n
    · subst hpn
      rw [put_nodes_self]
      exact hpre hp
    · rw [put_nodes_ne d g out hpn]
      refine hd.preVotes p ?_
      obtain ⟨m, hm, hcand⟩ := hp
      rcases mem_append.mp hm with hm | hm
      · exact ⟨m, hm, hcand⟩
      · exact hothers m hm p hcand hpn

omit [DecidableEq α] in
theorem Stalled.startPreElection (hV : 2 ≤ V.card) (hd : Stalled V c d) (hn : n ∈ V) :
    Stalled V c (d.put n (d.nodes n).startPreElection.1
      (voteMessages (d.nodes n).startPreElection.2)) := by
  rw [startPreElection_of_two (hd.voters n ▸ hV)]
  have hid := (hd.consistent n).nodeId
  refine hd.put (hd.consistent n).openPreVote (hd.voters n) rfl rfl ?_ ?_ ?_
  · intro m hm
    simp only [voteMessages, map_map, mem_map] at hm
    obtain ⟨p, -, rfl⟩ := hm
    simp only [Function.comp_apply, Probes, voteRequest, hid, hd.log, hn, and_self]
  · intro m hm p hcand hpn
    simp only [voteMessages, map_map, mem_map] at hm
    obtain ⟨q, -, rfl⟩ := hm
    exact absurd (hid.symm.trans (Option.some.inj hcand)).symm hpn
  · intro _ v hv
    have hvn : v = n := by simpa [openPreVote, hid] using hv
    rw [hvn]
    exact covers_refl _

omit [DecidableEq α] in
theorem Stalled.handleVote (hd : Stalled V c d) (hm : .vote n req ∈ d.net) (recent : Bool) :
    Stalled V c (d.put n ((d.nodes n).handleVote req recent).1
      [.voteReply req ((d.nodes n).handleVote req recent).2]) := by
  obtain ⟨hpre, hV, hindex, hterm⟩ := hd.net _ hm
  have hsame : ((d.nodes n).handleVote req recent).1 = d.nodes n := by
    simp [RaftGroup.handleVote, hpre]
  rw [hsame]
  have hknown : ∀ p, (∃ m ∈ d.net ++ [Message.voteReply req ((d.nodes n).handleVote req recent).2],
      candidate? m = some p) → ∃ m ∈ d.net, candidate? m = some p := by
    rintro p ⟨m, hin, hcand⟩
    rcases mem_append.mp hin with hin | hin
    · exact ⟨m, hin, hcand⟩
    · obtain rfl := mem_singleton.mp hin
      exact ⟨_, hm, hcand⟩
  refine hd.put (hd.consistent n) (hd.voters n) rfl rfl ?_ ?_ fun h => hd.preVotes n (hknown n h)
  · intro m hin
    obtain rfl := mem_singleton.mp hin
    refine ⟨hpre, hV, fun hgranted => ?_⟩
    simp only [RaftGroup.handleVote, hpre, if_true, decide_eq_true_eq] at hgranted
    obtain ⟨-, hup, -⟩ := hgranted
    simp only [upToDate, hindex, hterm, hd.log] at hup
    simpa [RaftGroup.handleVote, hpre, (hd.consistent n).nodeId, Covers] using hup
  · intro m hin p hcand _
    exact hknown p ⟨m, mem_append_right _ hin, hcand⟩

omit [DecidableEq α] in
/-- The round of a node without the support of a majority does not succeed. -/
theorem Stalled.requestPreVote (hd : Stalled V c d) (hnot : ¬Electable V c) {r : VoteReply Node}
    (hm : .voteReply req r ∈ d.net) :
    Stalled V c (d.put req.candidateId ((d.nodes req.candidateId).requestPreVote r).1
      (voteMessages ((d.nodes req.candidateId).requestPreVote r).2)) := by
  obtain ⟨hpre, hV, hgrant⟩ := hd.net _ hm
  set n := req.candidateId with hn
  have hvotes := hd.preVotes n ⟨_, hm, rfl⟩
  have hcons := hd.consistent n
  have hquiet : ∀ g, Consistent n V g → g.voters = V → g.log = (d.nodes n).log →
      g.role = (d.nodes n).role →
      (∀ v ∈ g.preVotes, Covers (c.nodes n).log (c.nodes v).log) →
      Stalled V c (d.put n g (voteMessages [])) := fun g hg hgv hgl hgr hpre =>
    hd.put hg hgv hgl hgr (by simp [voteMessages]) (by simp [voteMessages]) fun _ => hpre
  unfold RaftGroup.requestPreVote
  split_ifs with hstale hbehind hyes hcarried
  · exact hquiet _ hcons (hd.voters n) rfl rfl hvotes
  · push Not at hstale
    have heq := becomeFollower_eq hcons r.term
    refine hquiet _ (hcons.becomeFollower r.term) ?_ ?_ ?_ ?_
    · rw [heq]
      exact hd.voters n
    · rw [heq]
    · rw [heq, hstale.1]
    · rw [heq]
      exact hvotes
  · -- a majority of pre-votes would come from supporters
    push Not at hstale
    refine absurd (.inr ⟨n, hV, (hd.role n).symm.trans hstale.1, ?_⟩) hnot
    have hmajority : Majority V ((d.nodes n).recordPreVote r.voterId).preVotes := by
      have hcard : (d.nodes n).voters = V := hd.voters n
      simp only [preVoteCarried, majority, recordPreVote, hcard] at hcarried
      exact hcarried
    refine hmajority.trans (Finset.card_le_card fun v hv => ?_)
    obtain ⟨hv, hvV⟩ := Finset.mem_inter.mp hv
    refine Finset.mem_inter.mpr ⟨Finset.mem_filter.mpr ⟨hvV, ?_⟩, hvV⟩
    rcases Finset.mem_insert.mp hv with rfl | hv
    · exact hgrant hyes
    · exact hvotes v hv
  · refine hquiet _ (hcons.recordPreVote r.voterId) (hd.voters n) rfl rfl fun v hv => ?_
    rcases Finset.mem_insert.mp hv with rfl | hv
    · exact hgrant hyes
    · exact hvotes v hv
  · exact hquiet _ hcons (hd.voters n) rfl rfl hvotes

/-- Nothing but pre-vote rounds happens from a state that is not electable and
without messages. -/
theorem stalled_of_reaches (hV : 2 ≤ V.card) (hcons : ∀ n, Consistent n V (c.nodes n))
    (hvoters : ∀ n, (c.nodes n).voters = V) (hnet : c.net = []) (hnot : ¬Electable V c)
    (hrun : Reaches step Electing c d) : Stalled V c d := by
  refine hrun.invariant (Stalled V c) ?_ ?_
  · exact ⟨hcons, hvoters, fun _ => rfl, fun _ => rfl, by simp [hnet], by simp [hnet]⟩
  · intro d a d' hd ha hstep
    rcases step_cases hstep with ⟨m, rfl, -⟩ | ⟨n, g, out, ht, rfl⟩
    · exact ha.elim
    · cases ht with
      | campaign _ hrole hvoter =>
        rw [(hd.consistent n).nodeId, hd.voters] at hvoter
        exact hd.startPreElection hV hvoter
      | vote _ req recent hm => exact hd.handleVote hm recent
      | preVoteReply req r recent hm hpre => exact hd.requestPreVote hnot hm
      | voteReply req r recent hm hpre =>
        have hprobe := (hd.net _ hm).1
        simp [hpre] at hprobe
      | replicate _ peer recent hm => exact (hd.net _ hm).elim
      | append _ req recent hm => exact (hd.net _ hm).elim
      | appendReply peer req r recent hm => exact (hd.net _ hm).elim
      | heartbeat | propose | reconfigure | restart | crashInVote | crashInAppend =>
        exact ha.elim

end Stalled

theorem electable_of_canElect (hrun : Reaches step Fixed (start V) c) (hV : 2 ≤ V.card)
    (hnet : c.net = []) (h : CanElect V c) : Electable V c := by
  by_contra hnot
  obtain ⟨granted, hinv⟩ := clusterInv_of_reaches hrun
  obtain ⟨d, hd, n, hn, hlead⟩ := h
  have hstalled := stalled_of_reaches hV (fun n => (hinv.nodes n).consistent)
    (fun n => (hinv.nodes n).voters) hnet hnot hd
  rw [hstalled.role] at hlead
  exact hnot (.inl ⟨n, hn, hlead⟩)

/-- Whenever some voter leads or a follower has the support of a majority, a
leader can be elected. When no message is in flight there is no other way. -/
theorem canElect_iff_electable (hrun : Reaches step Fixed (start V) c) (hV : 2 ≤ V.card) :
    (Electable V c → CanElect V c) ∧ (c.net = [] → (CanElect V c ↔ Electable V c)) := by
  obtain ⟨granted, hinv⟩ := clusterInv_of_reaches hrun
  have hcan : Electable V c → CanElect V c := by
    intro helectable
    by_cases hleads : Leads V c
    · exact ⟨c, Reaches.refl c, hleads⟩
    · rcases helectable with hleads' | ⟨f, hf, hrole, hmajority⟩
      · exact absurd hleads' hleads
      · refine canElect_of_supported hV (Q := supporters V c f) ?_ hrole hleads
        exact ⟨fun n => (hinv.nodes n).consistent, (hinv.nodes f).voters, hf,
          Finset.filter_subset _ _, hmajority, fun q hq => (Finset.mem_filter.mp hq).2⟩
  exact ⟨hcan, fun hnet => ⟨electable_of_canElect hrun hV hnet, hcan⟩⟩

/-- Nodes 0 and 1 grant each other a pre-vote and both start an election. -/
def campaignBoth : List (Event Nat Nat) :=
  [.timeout 0,
    .timeout 1,
    .deliver (.vote 1 ⟨true, 1, 0, 0, 0⟩) false,
    .deliver (.vote 0 ⟨true, 1, 1, 0, 0⟩) false,
    .deliver (.voteReply ⟨true, 1, 0, 0, 0⟩ ⟨0, true, 1, true⟩) false,
    .deliver (.voteReply ⟨true, 1, 1, 0, 0⟩ ⟨0, true, 0, true⟩) false]

def loseBoth : List (Event Nat Nat) :=
  campaignBoth ++
    [Event.lose (.vote 1 ⟨true, 1, 0, 0, 0⟩),
      .lose (.vote 0 ⟨true, 1, 1, 0, 0⟩),
      .lose (.voteReply ⟨true, 1, 0, 0, 0⟩ ⟨0, true, 1, true⟩),
      .lose (.voteReply ⟨true, 1, 1, 0, 0⟩ ⟨0, true, 0, true⟩),
      .lose (.vote 1 ⟨false, 1, 0, 0, 0⟩),
      .lose (.vote 0 ⟨false, 1, 1, 0, 0⟩)]

theorem canElect_of_third : ∃ c : Cluster Nat Nat, Reaches step Fixed (start {0, 1, 2}) c ∧
    (c.nodes 0).role = .candidate ∧ (c.nodes 1).role = .candidate ∧ CanElect {0, 1, 2} c := by
  obtain ⟨c, hc, hzero, hone, htwo, hmajority⟩ := exists_reaches step Fixed
    (start {0, 1, 2} : Cluster Nat Nat) campaignBoth
    (fun c => (c.nodes 0).role = .candidate ∧ (c.nodes 1).role = .candidate ∧
      (c.nodes 2).role = .follower ∧
      ({0, 1, 2} : Finset Nat).card / 2 + 1 ≤ (supporters {0, 1, 2} c 2 ∩ {0, 1, 2}).card)
    (by decide +kernel)
  exact ⟨c, hc, hzero, hone, (canElect_iff_electable hc (by decide)).1
    (.inr ⟨2, by decide, htwo, hmajority⟩)⟩

/-- Two candidates ignore the replies of each other's pre-vote rounds for ever. -/
theorem not_canElect_of_candidates : ¬∀ c : Cluster Nat Nat,
    Reaches step Fixed (start {0, 1}) c → CanElect {0, 1} c := by
  intro hall
  obtain ⟨c, hc, hnet, hzero, hone⟩ := exists_reaches step Fixed (start {0, 1} : Cluster Nat Nat)
    loseBoth
    (fun c => c.net = [] ∧ (c.nodes 0).role = .candidate ∧
      (c.nodes 1).role = .candidate) (by decide +kernel)
  have hroles : ∀ n ∈ ({0, 1} : Finset Nat), (c.nodes n).role = .candidate := by
    simp [hzero, hone]
  rcases electable_of_canElect hc (by decide) hnet (hall c hc) with
    ⟨n, hn, hrole⟩ | ⟨n, hn, hrole, -⟩
  · rw [hroles n hn] at hrole
    cases hrole
  · rw [hroles n hn] at hrole
    cases hrole

end LiteDB.ElectionLiveness
