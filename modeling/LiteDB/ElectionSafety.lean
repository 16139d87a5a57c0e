import LiteDB.Majorities
import LiteDB.RaftCluster

namespace LiteDB.ElectionSafety

open List Majorities RaftCluster RaftNode RaftNodeSpec Runs RaftGroup

variable {Node α : Type} {V : Finset Node} {granted granted' : Node → Nat → Node → Prop} {n : Node}
  {g : RaftGroup Node α}

section Nodes

variable [LinearOrder Node]

/-- What a replica keeps about votes, where `granted v t c` remembers that `v`
has ever granted the vote of another node `c` in term `t`. A replica may give up
the vote for itself when it learns of a leader, so that vote is not remembered. -/
structure NodeInv (V : Finset Node) (granted : Node → Nat → Node → Prop) (n : Node)
    (g : RaftGroup Node α) : Prop where
  consistent : Consistent n V g
  voters : g.voters = V
  no_config : ∀ e ∈ g.log, e.config? = none
  granted_le : ∀ {t c}, granted n t c → t ≤ g.currentTerm
  granted_eq : ∀ {c}, granted n g.currentTerm c → g.votedFor = some c
  granted_ne : ∀ {t c}, granted n t c → c ≠ n
  granted_unique : ∀ {t c d}, granted n t c → granted n t d → c = d
  candidate : g.role = .candidate → g.votedFor = some n ∧ g.currentTerm ∉ g.won ∧
    ∀ v ∈ g.votesReceived, v = n ∨ granted v g.currentTerm n
  leader : g.role = .leader → g.currentTerm ∈ g.won
  won_le : ∀ {t}, t ∈ g.won → t ≤ g.currentTerm
  won_eq : g.currentTerm ∈ g.won → g.votedFor = some n
  won_not_granted : ∀ {t c}, t ∈ g.won → ¬granted n t c
  won_majority : ∀ {t}, t ∈ g.won →
    ∃ q, Majority V q ∧ ∀ v ∈ q, v = n ∨ granted v t n

variable {g' : RaftGroup Node α}

theorem nodeInv_create (n : Node) :
    NodeInv V (fun _ _ _ => False) n (create n V : RaftGroup Node α) where
  consistent := ⟨rfl, rfl, rfl, rfl, rfl, rfl⟩
  voters := rfl
  no_config := by simp [create]
  granted_le := False.elim
  granted_eq := False.elim
  granted_ne := False.elim
  granted_unique := False.elim
  candidate := by simp [create]
  leader := by simp [create]
  won_le := by simp [create]
  won_eq := by simp [create]
  won_not_granted := by simp
  won_majority := by simp [create]

def grant (granted : Node → Nat → Node → Prop) (n : Node) (t : Nat) (c : Node) :
    Node → Nat → Node → Prop :=
  fun v s d => granted v s d ∨ (v = n ∧ s = t ∧ d = c)

variable (hg : NodeInv V granted n g)

include hg

theorem NodeInv.mono (hsub : ∀ v t c, granted v t c → granted' v t c)
    (hsame : ∀ t c, granted' n t c → granted n t c) : NodeInv V granted' n g :=
  { hg with
    granted_le := fun h => hg.granted_le (hsame _ _ h)
    granted_eq := fun h => hg.granted_eq (hsame _ _ h)
    granted_ne := fun h => hg.granted_ne (hsame _ _ h)
    granted_unique := fun h h' => hg.granted_unique (hsame _ _ h) (hsame _ _ h')
    candidate := fun hrole => by
      obtain ⟨hvoted, hwon, hvotes⟩ := hg.candidate hrole
      exact ⟨hvoted, hwon, fun v hv => (hvotes v hv).imp_right (hsub _ _ _)⟩
    won_not_granted := fun ht h => hg.won_not_granted ht (hsame _ _ h)
    won_majority := fun ht => by
      obtain ⟨q, hq, hvotes⟩ := hg.won_majority ht
      exact ⟨q, hq, fun v hv => (hvotes v hv).imp_right (hsub _ _ _)⟩ }

theorem NodeInv.frame (hb : SameBallot g g') (hcons : Consistent n V g') (hvoters : g'.voters = V)
    (hlog : ∀ e ∈ g'.log, e.config? = none) : NodeInv V granted n g' where
  consistent := hcons
  voters := hvoters
  no_config := hlog
  granted_le h := by
    rw [hb.currentTerm]
    exact hg.granted_le h
  granted_eq h := by
    rw [hb.currentTerm] at h
    rw [hb.votedFor]
    exact hg.granted_eq h
  granted_ne := hg.granted_ne
  granted_unique := hg.granted_unique
  candidate hrole := by
    rw [hb.votedFor, hb.currentTerm, hb.won, hb.votesReceived]
    rcases hb.role with h | h
    · exact hg.candidate (h ▸ hrole)
    · rw [h] at hrole
      simp at hrole
  leader hrole := by
    rw [hb.currentTerm, hb.won]
    rcases hb.role with h | h
    · exact hg.leader (h ▸ hrole)
    · rw [h] at hrole
      simp at hrole
  won_le ht := by
    rw [hb.won] at ht
    rw [hb.currentTerm]
    exact hg.won_le ht
  won_eq ht := by
    rw [hb.won, hb.currentTerm] at ht
    rw [hb.votedFor]
    exact hg.won_eq ht
  won_not_granted ht := by
    rw [hb.won] at ht
    exact hg.won_not_granted ht
  won_majority ht := by
    rw [hb.won] at ht
    exact hg.won_majority ht

/-- Stepping down forgets the vote, so it must not happen in a term in which the
replica has voted for another node or has led. -/
theorem NodeInv.becomeFollower {t : Nat}
    (hle : g.currentTerm ≤ t) (hfree : g.currentTerm < t ∨ g.role = .candidate) :
    NodeInv V granted n (g.becomeFollower t) := by
  have hnotGranted : ∀ c, ¬granted n t c := by
    intro c h
    have := hg.granted_le h
    rcases hfree with hlt | hrole
    · omega
    · have hsame : t = g.currentTerm := by omega
      subst hsame
      have hself := (hg.candidate hrole).1
      rw [hg.granted_eq h] at hself
      exact hg.granted_ne h (Option.some.inj hself)
  have hnotWon : t ∉ g.won := by
    intro h
    have := hg.won_le h
    rcases hfree with hlt | hrole
    · omega
    · have hsame : t = g.currentTerm := by omega
      exact (hg.candidate hrole).2.1 (hsame ▸ h)
  have hcons := hg.consistent.becomeFollower t
  rw [becomeFollower_eq hg.consistent] at hcons ⊢
  exact { hg with
      consistent := hcons
      granted_le := fun h => (hg.granted_le h).trans hle
      granted_eq := fun h => absurd h (hnotGranted _)
      candidate := fun h => by simp at h
      leader := fun h => by simp at h
      won_le := fun h => (hg.won_le h).trans hle
      won_eq := fun h => absurd h hnotWon }

theorem NodeInv.becomeCandidate : NodeInv V granted n g.becomeCandidate :=
  { hg with
    consistent := hg.consistent.becomeCandidate
    granted_le := fun h => Nat.le_succ_of_le (hg.granted_le h)
    granted_eq := fun h => absurd (hg.granted_le h) (Nat.not_succ_le_self _)
    candidate := fun _ => by
      refine ⟨congrArg some hg.consistent.nodeId, ?_, ?_⟩
      · exact fun h => absurd (hg.won_le h) (Nat.not_succ_le_self _)
      · intro v hv
        left
        rw [← hg.consistent.nodeId]
        exact Finset.mem_singleton.mp hv
    leader := fun h => by simp [RaftGroup.becomeCandidate, RaftGroup.persistMeta] at h
    won_le := fun h => Nat.le_succ_of_le (hg.won_le h)
    won_eq := fun h => absurd (hg.won_le h) (Nat.not_succ_le_self _) }

theorem NodeInv.openPreVote : NodeInv V granted n g.openPreVote :=
  hg.frame ⟨rfl, rfl, rfl, rfl, .inl rfl⟩ hg.consistent.openPreVote hg.voters hg.no_config

theorem NodeInv.recordPreVote (v : Node) : NodeInv V granted n (g.recordPreVote v) :=
  hg.frame ⟨rfl, rfl, rfl, rfl, .inl rfl⟩ (hg.consistent.recordPreVote v) hg.voters
    hg.no_config

theorem NodeInv.recordVote {v : Node}
    (hv : granted v g.currentTerm n) : NodeInv V granted n (g.recordVote v) := by
  refine { hg with consistent := hg.consistent.recordVote v, candidate := fun hrole => ?_ }
  obtain ⟨hvoted, hwon, hvotes⟩ := hg.candidate hrole
  refine ⟨hvoted, hwon, fun w hw => ?_⟩
  rcases Finset.mem_insert.mp hw with rfl | hw
  · exact .inr hv
  · exact hvotes w hw

theorem NodeInv.becomeLeader (hrole : g.role = .candidate)
    (hcarried : g.voteCarried) : NodeInv V granted n g.becomeLeader := by
  obtain ⟨hvoted, hwon, hvotes⟩ := hg.candidate hrole
  have hmem : ∀ t, t ∈ g.becomeLeader.won → t ∈ g.won ∨ t = g.currentTerm := by
    intro t ht
    simpa [RaftGroup.becomeLeader, RaftGroup.appendEntry, RaftGroup.appendLogPersist] using ht
  exact { hg with
      consistent := hg.consistent.becomeLeader
      no_config := by
        intro e he
        rcases mem_append.mp he with he | he
        · exact hg.no_config e he
        · rw [mem_singleton.mp he]
          rfl
      candidate := fun h => by
        simp [RaftGroup.becomeLeader, RaftGroup.appendEntry, RaftGroup.appendLogPersist] at h
      leader := fun _ => mem_append_right _ (mem_singleton.mpr rfl)
      won_le := fun {t} ht => by
        rcases hmem t ht with ht | rfl
        · exact hg.won_le ht
        · exact le_rfl
      won_eq := fun _ => hvoted
      won_not_granted := fun {t c} ht hgr => by
        rcases hmem t ht with ht | rfl
        · exact hg.won_not_granted ht hgr
        · rw [hg.granted_eq hgr] at hvoted
          exact hg.granted_ne hgr (Option.some.inj hvoted)
      won_majority := fun {t} ht => by
        rcases hmem t ht with ht | rfl
        · exact hg.won_majority ht
        · refine ⟨g.votesReceived, ?_, hvotes⟩
          rw [← hg.voters]
          exact hcarried }

theorem NodeInv.grantVote {c : Node} (hne : c ≠ n)
    (hfree : g.votedFor = none ∨ g.votedFor = some c) :
    NodeInv V (grant granted n g.currentTerm c) n (g.grantVote c) := by
  have hself : g.votedFor ≠ some n := by
    rcases hfree with h | h
    · simp [h]
    · rw [h]
      exact fun h => hne (Option.some.inj h)
  have hsame : ∀ d, granted n g.currentTerm d → d = c := by
    intro d hd
    have hvoted := hg.granted_eq hd
    rcases hfree with h | h
    · simp [h] at hvoted
    · rw [h] at hvoted
      exact (Option.some.inj hvoted).symm
  exact { hg with
      consistent := hg.consistent.grantVote c
      granted_le := fun h => by
        rcases h with h | ⟨-, rfl, -⟩
        · exact hg.granted_le h
        · exact le_rfl
      granted_eq := fun h => by
        rcases h with h | ⟨-, -, rfl⟩
        · exact congrArg some (hsame _ h).symm
        · rfl
      granted_ne := fun h => by
        rcases h with h | ⟨-, -, rfl⟩
        · exact hg.granted_ne h
        · exact hne
      granted_unique := fun h h' => by
        rcases h with h | ⟨-, rfl, rfl⟩ <;> rcases h' with h' | ⟨-, ht, rfl⟩
        · exact hg.granted_unique h h'
        · subst ht
          exact hsame _ h
        · exact (hsame _ h').symm
        · rfl
      candidate := fun h => absurd (hg.candidate h).1 hself
      won_eq := fun h => absurd (hg.won_eq h) hself
      won_not_granted := fun ht h => by
        rcases h with h | ⟨-, rfl, -⟩
        · exact hg.won_not_granted ht h
        · exact hself (hg.won_eq ht)
      won_majority := fun ht => by
        obtain ⟨q, hq, hvotes⟩ := hg.won_majority ht
        exact ⟨q, hq, fun v hv => (hvotes v hv).imp_right .inl⟩ }

theorem NodeInv.adoptTerm (t : Nat) : NodeInv V granted n (g.adoptTerm t) := by
  unfold RaftGroup.adoptTerm
  split
  · rename_i hlt
    exact hg.becomeFollower (Nat.le_of_lt hlt) (.inl hlt)
  · exact hg

theorem NodeInv.startPreElection : NodeInv V granted n g.startPreElection.1 := by
  unfold RaftGroup.startPreElection
  split
  · exact hg.openPreVote.becomeCandidate
  · exact hg.openPreVote

theorem NodeInv.requestPreVote (r : VoteReply Node) :
    NodeInv V granted n (g.requestPreVote r).1 := by
  unfold RaftGroup.requestPreVote
  split_ifs with hstale hlt
  · exact hg
  · exact hg.becomeFollower (Nat.le_of_lt hlt) (.inl hlt)
  · exact (hg.recordPreVote _).becomeCandidate
  · exact hg.recordPreVote _
  · exact hg

theorem NodeInv.requestVote {r : VoteReply Node}
    (hr : r.voteGranted = true → granted r.voterId r.term n) :
    NodeInv V granted n (g.requestVote r) := by
  unfold RaftGroup.requestVote
  split_ifs with hstale hlt hyes hcarried
  · exact hg
  · exact hg.becomeFollower (Nat.le_of_lt hlt) (.inl hlt)
  all_goals push Not at hstale
  · have hterm : r.term = g.currentTerm := by omega
    exact (hg.recordVote (hterm ▸ hr hyes)).becomeLeader hstale.1 hcarried
  · have hterm : r.term = g.currentTerm := by omega
    exact hg.recordVote (hterm ▸ hr hyes)
  · exact hg

variable {req : AppendRequest Node α}

theorem NodeInv.accept (hle : g.currentTerm ≤ req.term) :
    NodeInv V granted n ((g.adoptTerm req.term).acceptLeader req) := by
  have hcons := (hg.consistent.adoptTerm req.term).acceptLeader req
  obtain ⟨role, voted, heq, hcase⟩ := acceptLeader_adoptTerm_eq hg.consistent hle
  rw [heq] at hcons ⊢
  rcases hcase with ⟨hterm, -, hrole, hvoted⟩ | ⟨hfree, hrole, hvoted⟩
  · exact hg.frame ⟨hterm.symm, hvoted, rfl, rfl, .inl hrole⟩ hcons hg.voters hg.no_config
  · have hfollower := hg.becomeFollower hle hfree
    rw [becomeFollower_eq hg.consistent] at hfollower
    exact hfollower.frame ⟨rfl, hvoted, rfl, rfl, .inl hrole⟩ hcons hg.voters hg.no_config

theorem NodeInv.truncateLog (length : Nat) : NodeInv V granted n (g.truncateLog length) :=
  hg.frame ⟨rfl, rfl, rfl, rfl, .inl rfl⟩ (hg.consistent.truncateLog length) hg.voters
    fun e he => hg.no_config e (mem_of_mem_take he)

theorem NodeInv.receiveEntries {entries : List (Entry Node α)}
    (hentries : ∀ e ∈ entries, e.config? = none) :
    NodeInv V granted n (g.receiveEntries entries) := by
  have hmerged : ∀ e ∈ entries.foldl mergeEntry g.log, e.config? = none := by
    intro e he
    rcases mem_of_mem_foldl_mergeEntry he with he | he
    · exact hg.no_config e he
    · exact hentries e he
  have hb := sameBallot_receiveEntries hg.consistent entries
  have hcons := hg.consistent.receiveEntries entries
  obtain ⟨voters, next, matched, heq, hvoters, -⟩ := receiveEntries_eq hg.consistent entries
  rw [latestConfig_of_none hmerged, hg.voters, ite_self] at hvoters
  rw [heq] at hb hcons ⊢
  exact hg.frame hb hcons hvoters hmerged

theorem NodeInv.commits (h : Commits g g') : NodeInv V granted n g' := by
  have hb := h.sameBallot
  have hcons := hg.consistent.commits h
  obtain ⟨commit, la, lt, ap, role, leader, rfl, -⟩ := h
  exact hg.frame hb hcons hg.voters hg.no_config

theorem NodeInv.handleAppend (hentries : ∀ e ∈ req.entries, e.config? = none) :
    NodeInv V granted n (g.handleAppend req).1 := by
  unfold RaftGroup.handleAppend
  split
  · exact hg
  · rename_i hterm
    have haccepted := hg.accept (Nat.le_of_not_lt hterm)
    unfold appendAfter
    split_ifs
    · exact haccepted
    · exact haccepted.truncateLog _
    · exact (haccepted.receiveEntries hentries).commits (commits_followCommit _ _)

theorem NodeInv.replicateReply (peer : Node)
    (r : AppendReply Node) : NodeInv V granted n (g.replicateReply peer r) := by
  have hcons := hg.consistent
  unfold RaftGroup.replicateReply
  split_ifs with hlt
  · exact hg.becomeFollower (Nat.le_of_lt hlt) (.inl hlt)
  · exact hg
  · refine NodeInv.commits ?_ (commits_advanceCommit _)
    exact hg.frame ⟨rfl, rfl, rfl, rfl, .inl rfl⟩ { hcons with } hg.voters hg.no_config
  · exact hg.frame ⟨rfl, rfl, rfl, rfl, .inl rfl⟩ { hcons with } hg.voters hg.no_config

theorem NodeInv.propose (payload : α) : NodeInv V granted n (g.propose (.data payload)).1 := by
  unfold RaftGroup.propose
  split
  · exact hg
  · refine hg.frame ⟨rfl, rfl, rfl, rfl, .inl rfl⟩ (hg.consistent.appendEntry _) hg.voters ?_
    intro e he
    rcases mem_append.mp he with he | he
    · exact hg.no_config e he
    · rw [mem_singleton.mp he]
      rfl

theorem NodeInv.restart : NodeInv V granted n g.restart := by
  have hcons := hg.consistent.restart
  obtain ⟨next, matched, heq, -⟩ := restart_eq hg.consistent
  rw [heq] at hcons ⊢
  exact { hg with
      consistent := hcons
      voters := latestConfig_of_none hg.no_config
      candidate := fun h => by simp [create] at h
      leader := fun h => by simp [create] at h }

theorem NodeInv.crashInVote (req : VoteRequest Node) : NodeInv V granted n (g.crashInVote req) := by
  unfold RaftGroup.crashInVote
  split
  · exact hg.restart
  · exact (hg.adoptTerm _).restart

theorem NodeInv.crashInAppend (hentries : ∀ e ∈ req.entries, e.config? = none) (count : Nat) :
    NodeInv V granted n (g.crashInAppend req count) := by
  rcases crashInAppend_cases hg.consistent req count with
    ⟨-, heq⟩ | ⟨hle, a, stored, rfl, hstored, -, -, heq⟩
  · rw [heq]
    exact hg.restart
  · rw [heq]
    have haccepted := hg.accept hle
    apply NodeInv.restart
    refine haccepted.frame ?_ (haccepted.consistent.withLog _) haccepted.voters ?_
    · exact ⟨rfl, rfl, rfl, rfl, .inl rfl⟩
    · intro e he
      rcases mem_of_mem_foldl_mergeEntry he with he | he
      · exact haccepted.no_config e he
      · exact hentries e (hstored.subset he)

end Nodes

section Clusters

variable [LinearOrder Node]

/-- What a message in flight says about votes and configurations. -/
def MessageInv (granted : Node → Nat → Node → Prop) : Message Node α → Prop
  | .vote dst req => dst ≠ req.candidateId
  | .voteReply req r =>
      req.preVote = false → r.voteGranted = true → granted r.voterId r.term req.candidateId
  | .append _ req => ∀ e ∈ req.entries, e.config? = none
  | _ => True

variable {m : Message Node α}

omit [LinearOrder Node] in
theorem MessageInv.mono (hm : MessageInv granted m)
    (hsub : ∀ v t c, granted v t c → granted' v t c) : MessageInv granted' m := by
  cases m with
  | voteReply req r => exact fun hpre hyes => hsub _ _ _ (hm hpre hyes)
  | vote dst req => exact hm
  | append dst req => exact hm
  | replicate src peer => trivial
  | appendReply peer req r => trivial

/-- Votes that are counted or in flight have been granted. -/
structure ClusterInv (V : Finset Node) (granted : Node → Nat → Node → Prop)
    (c : Cluster Node α) : Prop where
  nodes : ∀ n, NodeInv V granted n (c.nodes n)
  net : ∀ m ∈ c.net, MessageInv granted m

variable {c c' : Cluster Node α} {out : List (Message Node α)}

theorem ClusterInv.put (hc : ClusterInv V granted c)
    (hsub : ∀ v t d, granted v t d → granted' v t d)
    (hsame : ∀ v t d, v ≠ n → granted' v t d → granted v t d)
    (hg : NodeInv V granted' n g) (hout : ∀ m ∈ out, MessageInv granted' m) :
    ClusterInv V granted' (c.put n g out) where
  nodes := forall_put hg fun m hm => (hc.nodes m).mono hsub fun t d => hsame m t d hm
  net := forall_mem_append.mpr ⟨fun m hm => (hc.net m hm).mono hsub, hout⟩

theorem ClusterInv.put_same (hc : ClusterInv V granted c) (hg : NodeInv V granted n g)
    (hout : ∀ m ∈ out, MessageInv granted m) : ClusterInv V granted (c.put n g out) :=
  hc.put (fun _ _ _ h => h) (fun _ _ _ _ h => h) hg hout

variable {t : Nat}

theorem messageInv_voteMessages (hg : Consistent n V g) {pre : Bool}
    (hm : m ∈ voteMessages (g.peers.map fun p => (p, g.voteRequest pre t))) :
    MessageInv granted m := by
  simp only [voteMessages, map_map, mem_map, Function.comp_apply] at hm
  obtain ⟨p, hp, rfl⟩ := hm
  change p ≠ g.nodeId
  rw [hg.nodeId]
  exact (hg.mem_peers.mp hp).1

theorem messageInv_startPreElection (hg : Consistent n V g)
    (hm : m ∈ voteMessages g.startPreElection.2) : MessageInv granted m := by
  unfold RaftGroup.startPreElection at hm
  split at hm
  · exact messageInv_voteMessages hg.openPreVote hm
  · exact messageInv_voteMessages hg hm

theorem messageInv_requestPreVote (hg : Consistent n V g) {r : VoteReply Node}
    (hm : m ∈ voteMessages (g.requestPreVote r).2) : MessageInv granted m := by
  unfold RaftGroup.requestPreVote at hm
  split_ifs at hm
  · simp [voteMessages] at hm
  · simp [voteMessages] at hm
  · exact messageInv_voteMessages (hg.recordPreVote r.voterId) hm
  · simp [voteMessages] at hm
  · simp [voteMessages] at hm

theorem ClusterInv.handleVote (hc : ClusterInv V granted c) {req : VoteRequest Node}
    (hne : n ≠ req.candidateId) (recent : Bool) :
    ∃ granted', ClusterInv V granted' (c.put n ((c.nodes n).handleVote req recent).1
      [.voteReply req ((c.nodes n).handleVote req recent).2]) := by
  have hn := hc.nodes n
  unfold RaftGroup.handleVote
  split_ifs with hpre hcan
  · refine ⟨granted, hc.put_same hn fun m hm => ?_⟩
    rw [mem_singleton.mp hm]
    exact fun h => absurd hpre (by simp [h])
  · have hadopted := hn.adoptTerm req.term
    refine ⟨grant granted n ((c.nodes n).adoptTerm req.term).currentTerm req.candidateId,
      hc.put (fun _ _ _ => .inl) (fun v t d hv h => ?_)
        (hadopted.grantVote hne.symm hcan.2.1) fun m hm => ?_⟩
    · exact h.resolve_right fun h' => hv h'.1
    · rw [mem_singleton.mp hm]
      exact fun _ _ => .inr ⟨hn.consistent.nodeId, rfl, rfl⟩
  · refine ⟨granted, hc.put_same (hn.adoptTerm req.term) fun m hm => ?_⟩
    rw [mem_singleton.mp hm]
    exact fun _ h => by simp at h

theorem messageInv_replicateTo (hg : NodeInv V granted n g) {peer : Node}
    (hm : m ∈ appendMessages peer (g.replicateTo peer)) : MessageInv granted m := by
  unfold replicateTo at hm
  split at hm
  · simp [appendMessages] at hm
  · simp only [appendMessages, Option.toList_some, map_cons, map_nil, mem_singleton] at hm
    rw [hm]
    exact fun e he => hg.no_config e (mem_of_mem_drop he)

variable [DecidableEq α]

/-- Runs in which the membership stays as it was configured. -/
def Fixed (_ : Cluster Node α) : Event Node α → Prop
  | .reconfigure _ _ => False
  | _ => True

instance (c : Cluster Node α) (a : Event Node α) : Decidable (Fixed c a) := by
  cases a <;> unfold Fixed <;> infer_instance

omit [DecidableEq α] in
theorem ClusterInv.transition (hc : ClusterInv V granted c) {a : Event Node α} (ha : Fixed c a)
    (h : Transition c a n g out) : ∃ granted', ClusterInv V granted' (c.put n g out) := by
  have hn := hc.nodes n
  cases h with
  | campaign =>
    exact ⟨granted, hc.put_same hn.startPreElection fun m hm =>
      messageInv_startPreElection hn.consistent hm⟩
  | heartbeat =>
    refine ⟨granted, hc.put_same hn fun m hm => ?_⟩
    obtain ⟨p, -, rfl⟩ := mem_map.mp hm
    trivial
  | vote _ req recent hm => exact hc.handleVote (hc.net _ hm) recent
  | preVoteReply req r recent hm hpre =>
    exact ⟨granted, hc.put_same (hn.requestPreVote r) fun m hm =>
      messageInv_requestPreVote hn.consistent hm⟩
  | voteReply req r recent hm hpre =>
    exact ⟨granted, hc.put_same (hn.requestVote (hc.net _ hm hpre)) (by simp)⟩
  | replicate _ peer recent hm =>
    exact ⟨granted, hc.put_same hn fun m hm => messageInv_replicateTo hn hm⟩
  | append _ req recent hm =>
    refine ⟨granted, hc.put_same (hn.handleAppend (hc.net _ hm)) fun m hm => ?_⟩
    rw [mem_singleton.mp hm]
    trivial
  | appendReply peer req r recent hm =>
    exact ⟨granted, hc.put_same (hn.replicateReply peer r) (by simp)⟩
  | propose _ payload hrole => exact ⟨granted, hc.put_same (hn.propose payload) (by simp)⟩
  | reconfigure => exact ha.elim
  | restart => exact ⟨granted, hc.put_same hn.restart (by simp)⟩
  | crashInVote _ req count hm => exact ⟨granted, hc.put_same (hn.crashInVote req) (by simp)⟩
  | crashInAppend _ req count hm =>
    exact ⟨granted, hc.put_same (hn.crashInAppend (hc.net _ hm) count) (by simp)⟩

theorem clusterInv_of_reaches (h : Reaches step Fixed (start V) c) :
    ∃ granted, ClusterInv V granted c := by
  refine h.invariant (fun c => ∃ granted, ClusterInv V granted c) ?_ ?_
  · exact ⟨fun _ _ _ => False, fun n => nodeInv_create n, by simp [start]⟩
  · rintro c a c' ⟨granted, hc⟩ ha hstep
    rcases step_cases hstep with ⟨m, -, rfl⟩ | ⟨n, g, out, htrans, rfl⟩
    · exact ⟨granted, hc.nodes, fun x hx => hc.net x (mem_of_mem_erase hx)⟩
    · exact hc.transition ha htrans

omit [DecidableEq α] in
/-- Two winners of one term share a voter, who voted for one node only. -/
theorem ClusterInv.won_unique (hc : ClusterInv V granted c) {m : Node} (hn : t ∈ (c.nodes n).won)
    (hm : t ∈ (c.nodes m).won) : n = m := by
  obtain ⟨q, hq, hvotes⟩ := (hc.nodes n).won_majority hn
  obtain ⟨r, hr, hvotes'⟩ := (hc.nodes m).won_majority hm
  obtain ⟨v, hvq, hvr⟩ := hq.exists_common hr (Adjacent.refl V)
  rcases hvotes v hvq with rfl | hvn
  · rcases hvotes' v hvr with rfl | hvm
    · rfl
    · exact absurd hvm ((hc.nodes v).won_not_granted hn)
  · rcases hvotes' v hvr with rfl | hvm
    · exact absurd hvn ((hc.nodes v).won_not_granted hm)
    · exact (hc.nodes v).granted_unique hvn hvm

/-- In every run of a group with a fixed membership no two different nodes ever
become leader in the same term. -/
theorem leader_unique (h : Reaches step Fixed (start V) c) {n m : Node} {t : Nat}
    (hn : t ∈ (c.nodes n).won) (hm : t ∈ (c.nodes m).won) : n = m := by
  obtain ⟨granted, hc⟩ := clusterInv_of_reaches h
  exact hc.won_unique hn hm

theorem leader_unique_of_three : ∃ c : Cluster Nat Nat,
    Reaches step Fixed (start {0, 1, 2}) c ∧ 1 ∈ (c.nodes 0).won ∧
      ∀ m, 1 ∈ (c.nodes m).won → 0 = m := by
  obtain ⟨c, hc, hwon⟩ := exists_reaches step Fixed (start {0, 1, 2} : Cluster Nat Nat)
    (elect 0 1 0 0 [(1, 0)]) (fun c => 1 ∈ (c.nodes 0).won) (by decide +kernel)
  have hleader : 1 ∈ (c.nodes 0).won := by simpa using hwon
  exact ⟨c, hc, hleader, fun m hm => leader_unique hc hleader hm⟩

end Clusters

end LiteDB.ElectionSafety
