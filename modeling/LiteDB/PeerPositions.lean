import LiteDB.MembershipChanges

namespace LiteDB.PeerPositions

open LeaderHistory List LogMatching
open MembershipChanges (RepliesInTerm)
open RaftCluster hiding start step step_cases
open RaftNode RaftNodeSpec Runs RaftGroup

variable {Node α : Type}

section Machine

/-- The group, the nodes that host a replica of it, and the elections won so far as an
observer has noted them, which a wiped replica itself no longer knows. -/
structure Hosting (Node α : Type) where
  cluster : Cluster Node α
  hosted : Node → Bool
  elections : List (Nat × Node)

/-- A step of the group, or a node that drops or hosts its replica (`node.py`). -/
inductive Action (Node α : Type) where
  | group (a : Event Node α)
  | dropShard (n : Node)
  | hostShard (n : Node) (voters : Finset Node)
deriving DecidableEq

def receiver : Message Node α → Node
  | .vote dst _ => dst
  | .voteReply req _ => req.candidateId
  | .replicate src _ => src
  | .append dst _ => dst
  | .appendReply _ req _ => req.leaderId

def actor : Event Node α → Option Node
  | .timeout n => some n
  | .heartbeat n => some n
  | .deliver m _ => some (receiver m)
  | .lose _ => none
  | .propose n _ => some n
  | .reconfigure n _ => some n
  | .restart n => some n
  | .crash m _ => some (receiver m)

variable [LinearOrder Node]

def start (voters : Finset Node) : Hosting Node α where
  cluster := RaftCluster.start voters
  hosted := fun n => decide (n ∈ voters)
  elections := []

def Hosting.advance (s : Hosting Node α) (n : Node) (c : Cluster Node α) : Hosting Node α :=
  { s with
    cluster := c
    elections := s.elections ++
      ((c.nodes n).won.drop (s.cluster.nodes n).won.length).map fun t => (t, n) }

/-- The replica of a node is exchanged for one whose data directory is empty. -/
def Hosting.wipe (s : Hosting Node α) (n : Node) (hosted : Bool) (voters : Finset Node) :
    Hosting Node α :=
  { s with
    cluster := s.cluster.put n (create n voters) []
    hosted := Function.update s.hosted n hosted }

variable [DecidableEq α]

/-- A node without a replica answers no RPC. `_create_replica` leaves a replica that is
there as it is, and `_on_drop_shard` does nothing where there is none. -/
def step (s : Hosting Node α) : Action Node α → Option (Hosting Node α)
  | .group a =>
      match actor a with
      | none => (RaftCluster.step s.cluster a).map fun c => { s with cluster := c }
      | some n =>
          if s.hosted n then (RaftCluster.step s.cluster a).map (s.advance n) else none
  | .dropShard n => some (if s.hosted n then s.wipe n false ∅ else s)
  | .hostShard n voters => some (if s.hosted n then s else s.wipe n true voters)

omit [DecidableEq α] in
theorem actor_of_transition {c : Cluster Node α} {a : Event Node α} {n : Node}
    {g : RaftGroup Node α} {out : List (Message Node α)} (h : Transition c a n g out) :
    actor a = some n := by
  cases h <;> rfl

theorem step_cases {s s' : Hosting Node α} {a : Action Node α} (h : step s a = some s') :
    (∃ m, a = .group (.lose m) ∧
        s' = { s with cluster := { s.cluster with net := s.cluster.net.erase m } }) ∨
      (∃ b n g out, a = .group b ∧ Transition s.cluster b n g out ∧ s.hosted n = true ∧
        s' = s.advance n (s.cluster.put n g out)) ∨
      s' = s ∨
      (∃ n, a = .dropShard n ∧ s' = s.wipe n false ∅) ∨
      ∃ n voters, a = .hostShard n voters ∧ s.hosted n = false ∧ s' = s.wipe n true voters := by
  cases a with
  | group b =>
    simp only [step] at h
    split at h
    · rename_i hactor
      obtain ⟨c, hc, rfl⟩ := Option.map_eq_some_iff.mp h
      rcases RaftCluster.step_cases hc with ⟨m, rfl, rfl⟩ | ⟨n, g, out, ht, rfl⟩
      · exact .inl ⟨m, rfl, rfl⟩
      · simp [actor_of_transition ht] at hactor
    · rename_i n hactor
      split at h
      · rename_i hhosted
        obtain ⟨c, hc, rfl⟩ := Option.map_eq_some_iff.mp h
        rcases RaftCluster.step_cases hc with ⟨m, rfl, rfl⟩ | ⟨n', g, out, ht, rfl⟩
        · simp [actor] at hactor
        · obtain rfl : n' = n := Option.some.inj ((actor_of_transition ht).symm.trans hactor)
          exact .inr (.inl ⟨b, n', g, out, rfl, ht, hhosted, rfl⟩)
      · simp at h
  | dropShard n =>
    cases h
    split
    · exact .inr (.inr (.inr (.inl ⟨n, rfl, rfl⟩)))
    · exact .inr (.inr (.inl rfl))
  | hostShard n voters =>
    cases h
    split
    · exact .inr (.inr (.inl rfl))
    · rename_i hhosted
      exact .inr (.inr (.inr (.inr ⟨n, voters, rfl, by simpa using hhosted, rfl⟩)))

end Machine

section Conditions

/-- Replies are handled in the term of their request, and a replica is dropped once no
leader has its node among its peers. -/
def OrderlyHosting (s : Hosting Node α) : Action Node α → Prop
  | .group a => RepliesInTerm s.cluster a
  | .dropShard n => ∀ m, (s.cluster.nodes m).role = .leader → n ∉ (s.cluster.nodes m).peers
  | .hostShard _ _ => True

instance [Fintype Node] [LinearOrder Node] (s : Hosting Node α) (a : Action Node α) :
    Decidable (OrderlyHosting s a) := by
  induction a using Action.casesOn <;> unfold OrderlyHosting <;> infer_instance

def NextWithin (g : RaftGroup Node α) : Prop :=
  ∀ p, (g.nextIndex p).getD 1 ≤ g.log.length + 1

instance [Fintype Node] (g : RaftGroup Node α) : Decidable (NextWithin g) :=
  inferInstanceAs (Decidable (∀ _, _))

def AnswerOf (n : Node) : Message Node α → Prop
  | .appendReply p _ _ => p = n
  | _ => False

instance [DecidableEq Node] (n : Node) (m : Message Node α) : Decidable (AnswerOf n m) := by
  unfold AnswerOf
  split <;> infer_instance

variable [LinearOrder Node]

/-- Nothing is left of an earlier membership: a new leader finds no `next_index` beyond
its log, a node is added only where no `match_index` of it is left, and a replica is
dropped when none of its answers is on the way. -/
def FreshPositions (s : Hosting Node α) : Action Node α → Prop
  | .group (.deliver (.voteReply req r) _) =>
      ((s.cluster.nodes req.candidateId).requestVote r).role = .leader →
        NextWithin ((s.cluster.nodes req.candidateId).requestVote r)
  | .group (.reconfigure n voters) =>
      ∀ p ∈ voters, p ∉ (s.cluster.nodes n).voters →
        ((s.cluster.nodes n).matchIndex p).getD 0 = 0
  | .dropShard n => ∀ m ∈ s.cluster.net, ¬AnswerOf n m
  | _ => True

instance [Fintype Node] (s : Hosting Node α) (a : Action Node α) :
    Decidable (FreshPositions s a) := by
  unfold FreshPositions
  split <;> infer_instance

end Conditions

variable {V : Finset Node} {h h' : History (Entry Node α) Node} {c : Cluster Node α}
  {a : Event Node α} {n : Node} {g g' : RaftGroup Node α} {out : List (Message Node α)} {t : Nat}

section Acknowledgements

variable {i : Nat}

/-- A replica that told the leader of `t` to have its first `i` entries still has them,
unless it has moved on to a later term. -/
def Acked (h : History (Entry Node α) Node) (t : Nat) (g : RaftGroup Node α) (i : Nat) : Prop :=
  t ≤ g.currentTerm ∧ (g.currentTerm = t → g.log <+: h.full t ∧ i ≤ g.log.length)

theorem Acked.mono (hack : Acked h t g i) (hext : Extends h h') (hbase : h.base t ≠ none) :
    Acked h' t g i := by
  refine ⟨hack.1, fun hterm => ?_⟩
  obtain ⟨hlog, hlen⟩ := hack.2 hterm
  exact ⟨hlog.trans (hext.full_le hbase), hlen⟩

theorem Acked.congr (hack : Acked h t g i) (hterm : g'.currentTerm = g.currentTerm)
    (hlog : g'.log = g.log) : Acked h t g' i := by
  unfold Acked
  rw [hterm, hlog]
  exact hack

/-- The append requests on their way to a node: they carry a leader's log, and not the
node's own. -/
def Requests (h : History (Entry Node α) Node) (c : Cluster Node α) (n : Node) : Prop :=
  ∀ req, .append n req ∈ c.net →
    (∃ P, Sent h req P ∧ req.prevLogIndex ≤ P.length) ∧
      ((c.nodes n).role = .leader → (c.nodes n).currentTerm ≠ req.term)

variable [LinearOrder Node]

theorem won_le_of_transition (ht : Transition c a n g out) (hn : Consistent n V (c.nodes n)) :
    (c.nodes n).won <+: g.won := by
  rcases ht.won_cases hn with heq | ⟨-, -, -, -, -, -, -, -, -, -, -, -, rfl⟩
  · rw [heq]
  · exact prefix_append _ _

theorem currentTerm_le_of_transition (ht : Transition c a n g out)
    (hn : Consistent n V (c.nodes n)) : (c.nodes n).currentTerm ≤ g.currentTerm := by
  rcases ht.won_cases hn with heq | ⟨-, -, -, -, -, -, -, -, -, -, -, -, rfl⟩
  · exact (ht.advances hn heq).currentTerm
  · exact le_rfl

/-- A replica keeps what it acknowledged in a term that another node has won. -/
theorem Acked.transition (hack : Acked h t (c.nodes n) i) (hn : NodeLog V h n (c.nodes n))
    (hw : Wellformed Entry.term h) (hi : Indexed h) (ht : Transition c a n g out)
    (hreq : Requests h c n) (hother : t ∉ g.won) : Acked h t g i := by
  have hterms := currentTerm_le_of_transition ht hn.consistent
  refine ⟨hack.1.trans hterms, fun hterm => ?_⟩
  obtain rfl : (c.nodes n).currentTerm = t := le_antisymm (hterm ▸ hterms) hack.1
  obtain ⟨hlog, hlen⟩ := hack.2 rfl
  have hgrow : (c.nodes n).log <+: g.log ∧ g.log <+: h.full (c.nodes n).currentTerm := by
    rcases ht.log_cases hn.consistent with heq | ⟨hlead | hwon, -⟩ | ⟨req, recent, -, hm, rfl⟩ |
      ⟨req, count, -, hm, rfl⟩
    · rw [heq]
      exact ⟨prefix_rfl, hlog⟩
    · exact absurd ((won_le_of_transition ht hn.consistent).subset (hn.leader hlead).1) hother
    · rcases ht.won_cases hn.consistent with heq | ⟨_, r, -, -, -, -, -, -, -, -, -, -, rfl⟩
      · exact absurd heq hwon
      · exact absurd (mem_append_right _ (mem_singleton.mpr rfl)) hother
    · obtain ⟨⟨P, hs, hle⟩, hnot⟩ := hreq req hm
      exact handleAppend_le_full hn hw hi hs hle hnot hterm hlog
    · obtain ⟨⟨P, hs, -⟩, -⟩ := hreq req hm
      exact crashInAppend_le_full hn hw hi hs hterm hlog
  exact ⟨hgrow.2, hlen.trans hgrow.1.length_le⟩

end Acknowledgements

section Leaders

/-- The node goes on leading its term. -/
structure LeadsOn (g g' : RaftGroup Node α) : Prop where
  role : g.role = .leader
  currentTerm : g'.currentTerm = g.currentTerm
  log : g.log <+: g'.log
  voters : g'.voters = g.voters
  nextIndex : g'.nextIndex = g.nextIndex
  matchIndex : g'.matchIndex = g.matchIndex

theorem LeadsOn.of_sameLog (hsame : SameLog g g') (hadv : Advances g g')
    (hrole : g'.role = .leader) : LeadsOn g g' :=
  ⟨(hadv.leader hrole).1, (hadv.leader hrole).2, hsame.log ▸ prefix_rfl, hsame.voters,
    hsame.nextIndex, hsame.matchIndex⟩

variable [LinearOrder Node]

theorem restart_role (hg : Consistent n V g) : g.restart.role = .follower := by
  obtain ⟨next, matched, heq, -⟩ := restart_eq hg
  rw [heq]
  rfl

/-- How a node comes to lead after a step, and what may have happened to its tables. -/
theorem leader_cases (ht : Transition c a n g out) (hn : NodeLog V h n (c.nodes n))
    (hreq : Requests h c n) (hrole : g.role = .leader) :
    LeadsOn (c.nodes n) g ∨
      (∃ req r recent v, a = .deliver (.voteReply req r) recent ∧ req.candidateId = n ∧
        g = (c.nodes n).requestVote r ∧ g = ((c.nodes n).recordVote v).becomeLeader) ∨
      (∃ voters, a = .reconfigure n voters ∧ (c.nodes n).role = .leader ∧
        (symmDiff (c.nodes n).voters voters).card = 1 ∧
        g = ((c.nodes n).reconfigure voters).1) ∨
      ∃ peer req r recent, a = .deliver (.appendReply peer req r) recent ∧
        .appendReply peer req r ∈ c.net ∧ req.leaderId = n ∧
        g = (c.nodes n).replicateReply peer r := by
  have hcons := hn.consistent
  have hrefl : (c.nodes n).role = .leader → LeadsOn (c.nodes n) (c.nodes n) :=
    fun hrole => ⟨hrole, rfl, prefix_rfl, rfl, rfl, rfl⟩
  cases ht with
  | campaign =>
    exact .inl (.of_sameLog (sameLog_startPreElection _) (advances_startPreElection _) hrole)
  | heartbeat => exact .inl (hrefl hrole)
  | vote _ req recent =>
    exact .inl (.of_sameLog (sameLog_handleVote hcons req recent)
      (advances_handleVote hcons req recent) hrole)
  | preVoteReply req r =>
    exact .inl (.of_sameLog (sameLog_requestPreVote hcons r) (advances_requestPreVote hcons r)
      hrole)
  | voteReply req r recent =>
    rcases requestVote_cases hcons r with ⟨-, -, -, -, heq⟩ | hsame
    · exact .inr (.inl ⟨req, r, recent, r.voterId, rfl, rfl, rfl, heq⟩)
    · exact .inl (.of_sameLog hsame (advances_requestVote hcons r hsame.won) hrole)
  | replicate => exact .inl (hrefl hrole)
  | append _ req recent hm =>
    have hsame := handleAppend_of_leader hn (hreq req hm).2 hrole
    rw [hsame] at hrole ⊢
    exact .inl (hrefl hrole)
  | appendReply peer req r recent hm =>
    exact .inr (.inr (.inr ⟨peer, req, r, recent, rfl, hm, rfl, rfl⟩))
  | propose _ payload hlead =>
    rw [propose_eq hlead]
    exact .inl ⟨hlead, rfl, prefix_append _ _, rfl, rfl, rfl⟩
  | reconfigure _ voters hlead hone =>
    exact .inr (.inr (.inl ⟨voters, rfl, hlead, hone, rfl⟩))
  | restart => simp [restart_role hcons] at hrole
  | crashInVote _ req =>
    unfold crashInVote at hrole
    split at hrole
    · simp [restart_role hcons] at hrole
    · simp [restart_role (hcons.adoptTerm _)] at hrole
  | crashInAppend _ req count =>
    rcases crashInAppend_cases hcons req count with ⟨-, heq⟩ | ⟨hle, b, stored, rfl, -, -, -, heq⟩
    · simp [heq, restart_role hcons] at hrole
    · have hb := (((hcons.adoptTerm req.term).acceptLeader req).withLog
        (stored.foldl mergeEntry ((((c.nodes n).adoptTerm req.term).acceptLeader req)).log))
      simp [heq, restart_role hb] at hrole

theorem replicateReply_of_leader (hg : Consistent n V g) {peer : Node} {r : AppendReply Node}
    (hrole : (g.replicateReply peer r).role = .leader) :
    g.role = .leader ∧ (g.replicateReply peer r).currentTerm = g.currentTerm ∧
      (g.replicateReply peer r).log = g.log ∧ (g.replicateReply peer r).voters = g.voters ∧
      (∀ p, (g.replicateReply peer r).nextIndex p = g.nextIndex p ∨
        (g.replicateReply peer r).nextIndex p = some (r.matchIndex + 1)) ∧
      ∀ p, (g.replicateReply peer r).matchIndex p = g.matchIndex p ∨
        (p = peer ∧ r.success = true ∧
          (g.replicateReply peer r).matchIndex p = some r.matchIndex) := by
  unfold replicateReply at hrole ⊢
  split_ifs at hrole ⊢ with hlt hlead hsuccess
  · rw [becomeFollower_eq hg] at hrole
    simp at hrole
  · exact absurd hrole hlead
  · push Not at hlead
    obtain ⟨commit, la, lt, ap, role, leader, heq, -⟩ := commits_advanceCommit { g with
        matchIndex := fun p => if p = peer then some r.matchIndex else g.matchIndex p
        nextIndex := fun p => if p = peer then some (r.matchIndex + 1) else g.nextIndex p }
    rw [heq]
    refine ⟨hlead, rfl, rfl, rfl, fun p => ?_, fun p => ?_⟩
    · by_cases hp : p = peer
      · exact .inr (if_pos hp)
      · exact .inl (if_neg hp)
    · by_cases hp : p = peer
      · exact .inr ⟨hp, hsuccess, if_pos hp⟩
      · exact .inl (if_neg hp)
  · push Not at hlead
    refine ⟨hlead, rfl, rfl, rfl, fun p => ?_, fun p => .inl rfl⟩
    by_cases hp : p = peer
    · right
      simp [hp]
    · exact .inl (if_neg hp)

end Leaders

variable {s : Hosting Node α}

section Invariant

/-- What a message says about the log of a leader and about the replica that sent it. -/
def Traced (h : History (Entry Node α) Node) (elections : List (Nat × Node))
    (nodes : Node → RaftGroup Node α) : Message Node α → Prop
  | .replicate src peer => src ≠ peer
  | .append dst req =>
      dst ≠ req.leaderId ∧ (req.term, req.leaderId) ∈ elections ∧
        ∃ P, Sent h req P ∧ req.prevLogIndex ≤ P.length
  | .appendReply p req r =>
      p ≠ req.leaderId ∧ (req.term, req.leaderId) ∈ elections ∧ h.base req.term ≠ none ∧
        r.matchIndex ≤ (h.full req.term).length ∧
        (r.success = true → Acked h req.term (nodes p) r.matchIndex)
  | _ => True

variable {elections elections' : List (Nat × Node)} {nodes nodes' : Node → RaftGroup Node α}
  {m : Message Node α}

theorem Traced.mono (hm : Traced h elections nodes m) (hext : Extends h h')
    (hsub : elections ⊆ elections')
    (hacked : ∀ t l p i, (t, l) ∈ elections → p ≠ l → h.base t ≠ none →
      Acked h t (nodes p) i → Acked h' t (nodes' p) i) : Traced h' elections' nodes' m := by
  cases m with
  | replicate src peer => exact hm
  | append dst req =>
    obtain ⟨hdst, hmem, P, hs, hle⟩ := hm
    exact ⟨hdst, hsub hmem, P, hs.mono hext, hle⟩
  | appendReply p req r =>
    obtain ⟨hp, hmem, hbase, hle, hsuccess⟩ := hm
    exact ⟨hp, hsub hmem, hext.base_ne hbase, hle.trans (hext.full_le hbase).length_le,
      fun hyes => hacked _ _ _ _ hmem hp hbase (hsuccess hyes)⟩
  | vote dst req => trivial
  | voteReply req r => trivial

variable [LinearOrder Node]

/-- What a leader takes a peer to hold is in the log of the peer. -/
structure Inv (h : History (Entry Node α) Node) (s : Hosting Node α) : Prop where
  wellformed : Wellformed Entry.term h
  indexed : Indexed h
  owner : ∀ t, h.base t ≠ none → ∃ n, (t, n) ∈ s.elections
  led : ∀ n, ∀ t ∈ (s.cluster.nodes n).won, (t, n) ∈ s.elections
  nodes : ∀ n, ∃ V, NodeLog V h n (s.cluster.nodes n)
  net : ∀ m ∈ s.cluster.net, Traced h s.elections s.cluster.nodes m
  next : ∀ n, (s.cluster.nodes n).role = .leader → NextWithin (s.cluster.nodes n)
  matched : ∀ n p, (s.cluster.nodes n).role = .leader → p ∈ (s.cluster.nodes n).peers →
    0 < ((s.cluster.nodes n).matchIndex p).getD 0 →
    Acked h (s.cluster.nodes n).currentTerm (s.cluster.nodes p)
      (((s.cluster.nodes n).matchIndex p).getD 0)
  idle : ∀ n, s.hosted n = false →
    (s.cluster.nodes n).currentTerm = 0 ∧ (s.cluster.nodes n).log = []

def WonOnce (s : Hosting Node α) : Prop := (s.elections.map Prod.fst).Nodup

instance (s : Hosting Node α) : Decidable (WonOnce s) :=
  inferInstanceAs (Decidable (List.Nodup _))

variable {p : Node}

omit [LinearOrder Node] in
theorem WonOnce.eq (hs : WonOnce s) {m m' : Node} (hm : (t, m) ∈ s.elections)
    (hm' : (t, m') ∈ s.elections) : m = m' :=
  congrArg Prod.snd (inj_on_of_nodup_map hs hm hm' rfl)

omit [LinearOrder Node] in
theorem WonOnce.of_advance (hs : WonOnce (s.advance n c)) : WonOnce s := by
  unfold WonOnce Hosting.advance at hs
  rw [map_append] at hs
  exact hs.of_append_left

theorem mem_advance_elections (hinv : Inv h s) (ht : Transition s.cluster a n g out)
    (hmem : t ∈ g.won) : (t, n) ∈ (s.advance n (s.cluster.put n g out)).elections := by
  obtain ⟨V, hn⟩ := hinv.nodes n
  obtain ⟨new, hnew⟩ := won_le_of_transition ht hn.consistent
  have helections : (s.advance n (s.cluster.put n g out)).elections =
      s.elections ++ new.map fun t => (t, n) := by
    unfold Hosting.advance
    rw [put_nodes_self, ← hnew, drop_left]
  rw [helections]
  rw [← hnew] at hmem
  rcases mem_append.mp hmem with hmem | hmem
  · exact mem_append_left _ (hinv.led n t hmem)
  · exact mem_append_right _ (mem_map_of_mem hmem)

theorem Inv.requests (hinv : Inv h s) (hs : WonOnce s) (n : Node) : Requests h s.cluster n := by
  intro req hm
  obtain ⟨hdst, hmem, hsent⟩ := hinv.net _ hm
  obtain ⟨V, hn⟩ := hinv.nodes n
  refine ⟨hsent, fun hrole hterm => hdst (hs.eq ?_ hmem)⟩
  rw [← hterm]
  exact hinv.led n _ (hn.leader hrole).1

theorem advanced_extend (hg : NodeLog V h n g) (hw : Wellformed Entry.term h) (hi : Indexed h)
    (hrole : g.role = .leader) (hcons : Consistent n V g') (hterm : g'.currentTerm = g.currentTerm)
    (hrole' : g'.role = .leader) (hwon : g'.won = g.won) {command : Command Node α}
    (hlog : g'.log = g.log ++ [⟨g.currentTerm, g.log.length + 1, command⟩]) :
    ∃ h', Advanced V h h' n g' := by
  obtain ⟨hmem, hbase, hfull, -⟩ := hg.leader hrole
  obtain ⟨b, hb⟩ := Option.ne_none_iff_exists'.mp hbase
  refine ⟨_, hg.advanced_lead hw hi hcons (by simp [hrole]) hterm hrole' (fun t => ?_) hlog rfl rfl
    (.inr ⟨hb, hfull⟩)⟩
  rw [hwon]
  constructor
  · exact .inl
  · rintro (ht | rfl)
    · exact ht
    · exact hmem

section

variable (hinv : Inv h s)

include hinv

theorem exists_advanced (hn : NodeLog V h n (s.cluster.nodes n))
    (ht : Transition s.cluster a n g out)
    (hs : WonOnce (s.advance n (s.cluster.put n g out))) : ∃ h', Advanced V h h' n g := by
  have hw := hinv.wellformed
  have hi := hinv.indexed
  have hcons := ht.consistent hn.consistent
  rcases ht.won_cases hn.consistent with hwon |
    ⟨req, r, recent, rfl, hm, hpre, rfl, rfl, hrole, hterm, hyes, hcarried, rfl⟩
  · have hquiet := hn.quiet hw hi ht (fun req hm =>
      ⟨(hinv.requests hs.of_advance n req hm).1.imp fun _ h => h.1,
        (hinv.requests hs.of_advance n req hm).2⟩) hwon
    cases ht with
    | propose _ payload hrole =>
      rw [propose_eq hrole] at hcons ⊢
      exact advanced_extend hn hw hi hrole hcons rfl hrole rfl rfl
    | reconfigure _ voters hrole hone =>
      obtain ⟨next, matched, heq, -⟩ := reconfigure_eq hn.consistent hrole hone
      rw [heq] at hcons ⊢
      exact advanced_extend hn hw hi hrole hcons rfl hrole rfl rfl
    | _ =>
      exact ⟨h, fun t b hb => ⟨hb, prefix_rfl⟩, hw, hi, hquiet (by simp) (by simp),
        fun _ _ => rfl, fun _ => .inl⟩
  · -- nobody has won the term before
    have hnone : h.base (s.cluster.nodes req.candidateId).currentTerm = none := by
      by_contra hbase
      obtain ⟨m, hm⟩ := hinv.owner _ hbase
      unfold WonOnce Hosting.advance at hs
      rw [put_nodes_self, map_append, nodup_append] at hs
      refine hs.2.2 _ (mem_map_of_mem hm) (s.cluster.nodes req.candidateId).currentTerm ?_ rfl
      simp [becomeLeader, appendEntry, appendLogPersist, recordVote]
    exact ⟨_, hn.advanced_lead hw hi hcons (by simp [hrole]) rfl rfl
      (fun _ => mem_append.trans (or_congr_right mem_singleton)) rfl rfl rfl
      (.inl ⟨hnone, rfl, (hn.candidate hrole).2⟩)⟩

/-- Acknowledgements in a term outlast a step of any node but the leader of the term. -/
theorem Inv.acked_advance (hn : NodeLog V h n (s.cluster.nodes n))
    (ht : Transition s.cluster a n g out) (hs : WonOnce (s.advance n (s.cluster.put n g out)))
    (hext : Extends h h') {i : Nat} {l : Node} (hmem : (t, l) ∈ s.elections) (hp : p ≠ l)
    (hbase : h.base t ≠ none) (hack : Acked h t (s.cluster.nodes p) i) :
    Acked h' t ((s.cluster.put n g out).nodes p) i := by
  refine Acked.mono ?_ hext hbase
  by_cases hpn : p = n
  · subst hpn
    rw [put_nodes_self]
    refine hack.transition hn hinv.wellformed hinv.indexed ht (hinv.requests hs.of_advance p)
      fun hwon => hp ?_
    exact hs.eq (mem_advance_elections hinv ht hwon) (mem_append_left _ hmem)
  · rw [put_nodes_ne _ _ _ hpn]
    exact hack

theorem Inv.traced_out (hs : WonOnce s) (hn : NodeLog V h n (s.cluster.nodes n))
    (ht : Transition s.cluster a n g out) (hm : m ∈ out) :
    Traced h s.elections (s.cluster.put n g out).nodes m := by
  have hreq := hinv.requests hs n
  cases ht with
  | campaign | preVoteReply =>
    obtain ⟨req, -, rfl⟩ := mem_map.mp hm
    trivial
  | heartbeat =>
    obtain ⟨p, hp, rfl⟩ := mem_map.mp hm
    change (s.cluster.nodes n).nodeId ≠ p
    rw [hn.consistent.nodeId]
    exact (hn.consistent.mem_peers.mp hp).1.symm
  | vote =>
    rw [mem_singleton.mp hm]
    trivial
  | replicate _ peer recent hm' =>
    obtain ⟨req, hbuilt, rfl⟩ := mem_map.mp hm
    obtain ⟨hsent, hleader, hrole, hterm, hprev, -⟩ := hn.sent (Option.mem_toList.mp hbuilt)
    have hne : n ≠ peer := hinv.net _ hm'
    have hnext := hinv.next n hrole peer
    refine ⟨hleader ▸ hne.symm, ?_, _, hsent, by omega⟩
    rw [hleader, hterm]
    exact hinv.led n _ (hn.leader hrole).1
  | append _ req recent hm' =>
    rw [mem_singleton.mp hm]
    obtain ⟨hdst, hmem, -⟩ := hinv.net _ hm'
    obtain ⟨⟨P, hsent, hle⟩, hnot⟩ := hreq req hm'
    obtain ⟨-, ⟨hno, hmatch, -⟩ | ⟨-, -, hmatch, -, hterm, hlog⟩⟩ :=
      handleAppend_reply hn hinv.wellformed hinv.indexed hsent hle hnot
    · exact ⟨hdst, hmem, hsent.base, hmatch, fun hyes => by simp [hno] at hyes⟩
    · refine ⟨hdst, hmem, hsent.base, hmatch ▸ hlog.length_le, fun _ => ?_⟩
      rw [put_nodes_self]
      exact ⟨hterm.ge, fun _ => ⟨hlog, hmatch.le⟩⟩
  | voteReply | appendReply | propose | reconfigure | restart | crashInVote | crashInAppend =>
    simp at hm

theorem Inv.next_advance (hs : WonOnce s) (hn : NodeLog V h n (s.cluster.nodes n))
    (ht : Transition s.cluster a n g out) (hreplies : RepliesInTerm s.cluster a)
    (hfresh : FreshPositions s (.group a)) (hrole : g.role = .leader) : NextWithin g := by
  intro p
  rcases leader_cases ht hn (hinv.requests hs n) hrole with hlead |
    ⟨req, r, recent, v, rfl, rfl, heq, -⟩ | ⟨voters, rfl, hlead, hone, rfl⟩ |
    ⟨peer, req, r, recent, rfl, hm, rfl, rfl⟩
  · have hold := hinv.next n hlead.role p
    have hlen := hlead.log.length_le
    rw [hlead.nextIndex]
    omega
  · rw [heq] at hrole ⊢
    exact hfresh hrole p
  · have hold := hinv.next n hlead p
    obtain ⟨next, matched, heq, hnext, -⟩ := reconfigure_eq hn.consistent hlead hone
    have hlen : ((s.cluster.nodes n).reconfigure voters).1.log.length =
        (s.cluster.nodes n).log.length + 1 := by
      rw [heq]
      simp [appendEntry, appendLogPersist]
    rw [hlen, heq]
    change (next p).getD 1 ≤ _
    rcases hnext p with hsame | ⟨-, -, -, hnew⟩
    · rw [hsame]
      omega
    · simp [hnew]
  · obtain ⟨hlead, -, hlog, -, hnext, -⟩ := replicateReply_of_leader hn.consistent hrole
    rw [hlog]
    rcases hnext p with hsame | hnew
    · rw [hsame]
      exact hinv.next _ hlead p
    · obtain ⟨-, -, -, hle, -⟩ := hinv.net _ hm
      have hterm : (s.cluster.nodes req.leaderId).currentTerm = req.term := hreplies
      rw [← hterm, (hn.leader hlead).2.2.1] at hle
      rw [hnew]
      exact Nat.succ_le_succ hle

theorem Inv.matched_advance (hs : WonOnce s)
    (hn : NodeLog V h n (s.cluster.nodes n)) (ht : Transition s.cluster a n g out)
    (hreplies : RepliesInTerm s.cluster a) (hfresh : FreshPositions s (.group a))
    (hrole : g.role = .leader) (hp : p ∈ g.peers) (hpos : 0 < (g.matchIndex p).getD 0) :
    h.base g.currentTerm ≠ none ∧
      Acked h g.currentTerm (s.cluster.nodes p) ((g.matchIndex p).getD 0) := by
  obtain ⟨hne, hvoter⟩ := (ht.consistent hn.consistent).mem_peers.mp hp
  have hpeer : p ∈ (s.cluster.nodes n).voters → p ∈ (s.cluster.nodes n).peers :=
    fun h => hn.consistent.mem_peers.mpr ⟨hne, h⟩
  rcases leader_cases ht hn (hinv.requests hs n) hrole with hlead |
    ⟨req, r, recent, v, rfl, rfl, -, rfl⟩ | ⟨voters, rfl, hlead, hone, rfl⟩ |
    ⟨peer, req, r, recent, rfl, hm, rfl, rfl⟩
  · rw [hlead.currentTerm]
    rw [hlead.matchIndex] at hpos ⊢
    exact ⟨(hn.leader hlead.role).2.1, hinv.matched n p hlead.role
      (hpeer (hlead.voters ▸ hvoter)) hpos⟩
  · -- a new leader starts its peers at zero
    have hzero : (((s.cluster.nodes req.candidateId).recordVote v).becomeLeader.matchIndex p) =
        some 0 := if_pos hp
    simp [hzero] at hpos
  · obtain ⟨next, matched, heq, -, hmatched⟩ := reconfigure_eq hn.consistent hlead hone
    rw [heq] at hpos hvoter ⊢
    change 0 < (matched p).getD 0 at hpos
    change p ∈ voters at hvoter
    change h.base (s.cluster.nodes n).currentTerm ≠ none ∧
      Acked h (s.cluster.nodes n).currentTerm (s.cluster.nodes p) ((matched p).getD 0)
    rcases hmatched p with hsame | ⟨-, -, -, hnew⟩
    · rw [hsame] at hpos ⊢
      refine ⟨(hn.leader hlead).2.1, hinv.matched n p hlead (hpeer ?_) hpos⟩
      by_contra hout
      exact hpos.ne' (hfresh p hvoter hout)
    · simp [hnew] at hpos
  · obtain ⟨hlead, hterm, -, hvoters, -, hmatched⟩ :=
      replicateReply_of_leader hn.consistent hrole
    rw [hterm]
    refine ⟨(hn.leader hlead).2.1, ?_⟩
    rcases hmatched p with hsame | ⟨rfl, hyes, hnew⟩
    · rw [hsame] at hpos ⊢
      exact hinv.matched _ p hlead (hpeer (hvoters ▸ hvoter)) hpos
    · obtain ⟨-, -, -, -, hacked⟩ := hinv.net _ hm
      have hreq : (s.cluster.nodes req.leaderId).currentTerm = req.term := hreplies
      rw [hnew, hreq]
      exact hacked hyes

theorem Inv.advance (ht : Transition s.cluster a n g out) (hhosted : s.hosted n = true)
    (hreplies : RepliesInTerm s.cluster a) (hfresh : FreshPositions s (.group a))
    (hs : WonOnce (s.advance n (s.cluster.put n g out))) :
    ∃ h', Inv h' (s.advance n (s.cluster.put n g out)) := by
  obtain ⟨V, hn⟩ := hinv.nodes n
  obtain ⟨h', hadv⟩ := exists_advanced hinv hn ht hs
  have hext := hadv.extends_old
  have hleading : ∀ {m}, (s.cluster.nodes m).role = .leader →
      ((s.cluster.nodes m).currentTerm, m) ∈ s.elections ∧
        h.base (s.cluster.nodes m).currentTerm ≠ none := by
    intro m hrole
    obtain ⟨W, hm⟩ := hinv.nodes m
    exact ⟨hinv.led m _ (hm.leader hrole).1, (hm.leader hrole).2.1⟩
  refine ⟨h', hadv.wellformed, hadv.indexed, fun t hbase => ?_,
    forall_put (P := fun m g => ∀ t ∈ g.won, (t, m) ∈ _) (fun t => mem_advance_elections hinv ht)
      fun m _ t hwon => mem_append_left _ (hinv.led m t hwon),
    forall_put (P := fun m g => ∃ V, NodeLog V h' m g) ⟨V, hadv.node⟩ fun m hmn => ?_,
    fun m hm => ?_,
    forall_put (P := fun _ g => g.role = .leader → NextWithin g)
      (hinv.next_advance hs.of_advance hn ht hreplies hfresh) fun m _ => hinv.next m,
    fun m p hrole hp hpos => ?_, fun m hidle => ?_⟩
  · rcases hadv.base_cases t hbase with hbase | hwon
    · obtain ⟨m, hm⟩ := hinv.owner t hbase
      exact ⟨m, mem_append_left _ hm⟩
    · exact ⟨n, mem_advance_elections hinv ht hwon⟩
  · obtain ⟨W, hm⟩ := hinv.nodes m
    refine ⟨W, hm.mono hext fun hrole => hadv.full_eq _ fun hwon => hmn ?_⟩
    exact hs.eq (mem_append_left _ (hleading hrole).1) (mem_advance_elections hinv ht hwon)
  · rcases mem_append.mp hm with hm | hm
    · exact (hinv.net m hm).mono hext (subset_append_left _ _)
        fun t l p i => hinv.acked_advance hn ht hs hext
    · exact (hinv.traced_out hs.of_advance hn ht hm).mono hext (subset_append_left _ _)
        fun t l p i _ _ hbase hack => hack.mono hext hbase
  · by_cases hmn : m = n
    · subst hmn
      simp only [Hosting.advance, put_nodes_self] at hrole hp hpos ⊢
      have hpm : p ≠ m := (hadv.node.consistent.mem_peers.mp hp).1
      obtain ⟨hbase, hack⟩ :=
        hinv.matched_advance hs.of_advance hn ht hreplies hfresh hrole hp hpos
      rw [put_nodes_ne _ _ _ hpm]
      exact hack.mono hext hbase
    · simp only [Hosting.advance, put_nodes_ne _ _ _ hmn] at hrole hp hpos ⊢
      obtain ⟨W, hm⟩ := hinv.nodes m
      exact hinv.acked_advance hn ht hs hext (hleading hrole).1
        (hm.consistent.mem_peers.mp hp).1 (hleading hrole).2 (hinv.matched m p hrole hp hpos)
  · have hmn : m ≠ n := by
      rintro rfl
      rw [show s.hosted m = false from hidle] at hhosted
      simp at hhosted
    simp only [Hosting.advance, put_nodes_ne _ _ _ hmn]
    exact hinv.idle m hidle

theorem Inv.wipe (hosted : Bool) (voters : Finset Node)
    (hsilent : ∀ t i, Acked h t (s.cluster.nodes n) i → Acked h t (create n voters) i ∨
      (∀ m, (s.cluster.nodes m).role = .leader → n ∉ (s.cluster.nodes m).peers) ∧
        ∀ m ∈ s.cluster.net, ¬AnswerOf n m) : Inv h (s.wipe n hosted voters) := by
  have hnodes : ∀ m, (s.wipe n hosted voters).cluster.nodes m =
      if m = n then create n voters else s.cluster.nodes m := fun m => rfl
  have hleader : ∀ {m}, ((s.wipe n hosted voters).cluster.nodes m).role = .leader → m ≠ n := by
    rintro m hrole rfl
    simp [hnodes, create] at hrole
  have hempty : ∀ {m}, m = n → (s.wipe n hosted voters).cluster.nodes m =
      create n voters := fun hm => (hnodes _).trans (if_pos hm)
  have hother : ∀ {m}, m ≠ n → (s.wipe n hosted voters).cluster.nodes m = s.cluster.nodes m :=
    fun hm => (hnodes _).trans (if_neg hm)
  refine ⟨hinv.wellformed, hinv.indexed, hinv.owner,
    forall_put (P := fun m g => ∀ t ∈ g.won, (t, m) ∈ _) (by simp [create])
      fun m _ => hinv.led m,
    forall_put (P := fun m g => ∃ V, NodeLog V h m g) ⟨voters, nodeLog_create h n⟩
      fun m _ => hinv.nodes m,
    fun m hm => ?_,
    forall_put (P := fun _ g => g.role = .leader → NextWithin g) (by simp [create])
      fun m _ => hinv.next m,
    fun m p hrole hp hpos => ?_, fun m hidle => ?_⟩
  · simp only [Hosting.wipe, put_net, append_nil] at hm
    have htraced := hinv.net m hm
    cases m with
    | replicate | append => exact htraced
    | vote | voteReply => trivial
    | appendReply p req r =>
      obtain ⟨hp, hmem, hbase, hle, hacked⟩ := htraced
      refine ⟨hp, hmem, hbase, hle, fun hyes => ?_⟩
      by_cases hpn : p = n
      · rw [hempty hpn]
        rcases hsilent _ _ (hpn ▸ hacked hyes) with hack | ⟨-, hnone⟩
        · exact hack
        · exact absurd hpn (hnone _ hm)
      · rw [hother hpn]
        exact hacked hyes
  · have hmn := hleader hrole
    rw [hother hmn] at hrole hp hpos ⊢
    have hack := hinv.matched m p hrole hp hpos
    by_cases hpn : p = n
    · rw [hempty hpn]
      rw [hpn] at hack hp ⊢
      rcases hsilent _ _ hack with hack | ⟨hnone, -⟩
      · exact hack
      · exact absurd hp (hnone m hrole)
    · rw [hother hpn]
      exact hack
  · by_cases hmn : m = n
    · rw [hempty hmn]
      exact ⟨rfl, rfl⟩
    · rw [hother hmn]
      refine hinv.idle m ?_
      simpa [Hosting.wipe, Function.update_of_ne hmn] using hidle

end

theorem inv_start (V : Finset Node) :
    Inv ⟨fun _ => none, fun _ => [], fun _ _ => 0, fun _ _ _ => False⟩
      (start V : Hosting Node α) where
  wellformed := ⟨fun hb => by simp at hb, fun hb => by simp at hb, fun hb => by simp at hb,
    fun hb => by simp at hb⟩
  indexed t ht := by simp at ht
  owner t ht := by simp at ht
  led n t ht := by simp [start, RaftCluster.start, create] at ht
  nodes n := ⟨V, nodeLog_create _ n⟩
  net m hm := by simp [start, RaftCluster.start] at hm
  next n hrole := by simp [start, RaftCluster.start, create] at hrole
  matched n p hrole := by simp [start, RaftCluster.start, create] at hrole
  idle n _ := ⟨rfl, rfl⟩

end Invariant

section Runs

variable [LinearOrder Node] [DecidableEq α]

theorem inv_of_reaches
    (hrun : Reaches step (fun s a => OrderlyHosting s a ∧ FreshPositions s a) (start V) s)
    (hs : WonOnce s) : ∃ h, Inv h s := by
  have hinv : WonOnce s → ∃ h, Inv h s := by
    induction hrun with
    | refl => exact fun _ => ⟨_, inv_start V⟩
    | @tail s s' hrun hlast ih =>
      obtain ⟨a, ⟨hclaimed, hfresh⟩, hstep⟩ := hlast
      intro hs
      rcases step_cases hstep with ⟨m, rfl, rfl⟩ | ⟨b, n, g, out, rfl, ht, hhosted, rfl⟩ | rfl |
        ⟨n, rfl, rfl⟩ | ⟨n, voters, rfl, hhosted, rfl⟩
      · obtain ⟨h, hinv⟩ := ih hs hs
        exact ⟨h, { hinv with net := fun x hx => hinv.net x (mem_of_mem_erase hx) }⟩
      · obtain ⟨h, hinv⟩ := ih hs.of_advance hs.of_advance
        exact hinv.advance ht hhosted hclaimed hfresh hs
      · exact ih hs hs
      · obtain ⟨h, hinv⟩ := ih hs hs
        exact ⟨h, hinv.wipe false ∅ fun _ _ _ => .inr ⟨hclaimed, hfresh⟩⟩
      · obtain ⟨h, hinv⟩ := ih hs hs
        obtain ⟨hterm, hlog⟩ := hinv.idle n hhosted
        exact ⟨h, hinv.wipe true voters fun _ _ hack =>
          .inl (hack.congr hterm.symm hlog.symm)⟩
  exact hinv hs

/-- A leader never takes a peer to hold more of its log than the peer does. -/
theorem log_take_matchIndex
    (hrun : Reaches step (fun s a => OrderlyHosting s a ∧ FreshPositions s a) (start V) s) (hs : WonOnce s)
    {n p : Node} (hrole : (s.cluster.nodes n).role = .leader) (hp : p ∈ (s.cluster.nodes n).peers)
    (hterm : (s.cluster.nodes p).currentTerm ≤ (s.cluster.nodes n).currentTerm) :
    ((s.cluster.nodes n).matchIndex p).getD 0 ≤ (s.cluster.nodes p).log.length ∧
      (s.cluster.nodes p).log.take (((s.cluster.nodes n).matchIndex p).getD 0) =
        (s.cluster.nodes n).log.take (((s.cluster.nodes n).matchIndex p).getD 0) := by
  obtain ⟨h, hinv⟩ := inv_of_reaches hrun hs
  rcases Nat.eq_zero_or_pos (((s.cluster.nodes n).matchIndex p).getD 0) with hzero | hpos
  · simp [hzero]
  · obtain ⟨V, hn⟩ := hinv.nodes n
    obtain ⟨hle, hacked⟩ := hinv.matched n p hrole hp hpos
    obtain ⟨hlog, hlen⟩ := hacked (le_antisymm hterm hle)
    rw [(hn.leader hrole).2.2.1] at hlog
    obtain ⟨rest, hrest⟩ := hlog
    refine ⟨hlen, ?_⟩
    rw [← hrest, take_append_of_le_length hlen]

end Runs

def leadZero : List (Action (Fin 3) Nat) :=
  List.map .group (elect 0 1 0 0 [(1, 0)] ++ [.heartbeat 0])

/-- The leader removes node 2, which is wiped, and adds it again. -/
def removeAndAdd : List (Action (Fin 3) Nat) :=
  [.group (.reconfigure 0 {0, 1}),
    .dropShard 2,
    .hostShard 2 {0, 1},
    .group (.reconfigure 0 {0, 1, 2})]

def acknowledgeTwo : List (Action (Fin 3) Nat) :=
  List.map .group (exchange 2 ⟨1, 0, 0, 0, [⟨1, 1, .noop⟩], 0⟩ true 1)

/-- Node 2 is heard of for the first time after it was added again. -/
def catchUp : List (Action (Fin 3) Nat) :=
  List.map .group (exchange 2 ⟨1, 0, 0, 0,
    [⟨1, 1, .noop⟩, ⟨1, 2, .config {0, 1}⟩, ⟨1, 3, .config {0, 1, 2}⟩], 0⟩ true 3)

theorem log_take_matchIndex_of_catchUp : ∃ s : Hosting (Fin 3) Nat,
    Reaches step (fun s a => OrderlyHosting s a ∧ FreshPositions s a) (start {0, 1, 2}) s ∧
      (s.cluster.nodes 0).matchIndex 2 = some 3 ∧
      (s.cluster.nodes 2).log.take 3 = (s.cluster.nodes 0).log.take 3 := by
  obtain ⟨s, hrun, hs, hrole, hp, hterm, hmatch⟩ :=
    exists_reaches step (fun s a => OrderlyHosting s a ∧ FreshPositions s a)
    (start {0, 1, 2} : Hosting (Fin 3) Nat) (leadZero ++ removeAndAdd ++ catchUp)
    (fun s => WonOnce s ∧ (s.cluster.nodes 0).role = .leader ∧
      2 ∈ (s.cluster.nodes 0).peers ∧
      (s.cluster.nodes 2).currentTerm ≤ (s.cluster.nodes 0).currentTerm ∧
      (s.cluster.nodes 0).matchIndex 2 = some 3) (by decide +kernel)
  have htake := (log_take_matchIndex hrun hs hrole hp hterm).2
  rw [hmatch] at htake
  exact ⟨s, hrun, hmatch, htake⟩

/-- The leader counts the wiped node for an entry that it no longer has. -/
theorem matchIndex_gt_of_removeAndAdd : ¬∀ s : Hosting (Fin 3) Nat,
    Reaches step OrderlyHosting (start {0, 1, 2}) s → WonOnce s → ∀ n p,
      (s.cluster.nodes n).role = .leader → p ∈ (s.cluster.nodes n).peers →
      (s.cluster.nodes p).currentTerm ≤ (s.cluster.nodes n).currentTerm →
      ((s.cluster.nodes n).matchIndex p).getD 0 ≤ (s.cluster.nodes p).log.length ∧
        (s.cluster.nodes p).log.take (((s.cluster.nodes n).matchIndex p).getD 0) =
          (s.cluster.nodes n).log.take (((s.cluster.nodes n).matchIndex p).getD 0) := by
  intro hall
  obtain ⟨s, hrun, hs, hrole, hp, hterm, hmatch, hlog⟩ := exists_reaches step OrderlyHosting
    (start {0, 1, 2} : Hosting (Fin 3) Nat) (leadZero ++ acknowledgeTwo ++ removeAndAdd)
    (fun s => WonOnce s ∧ (s.cluster.nodes 0).role = .leader ∧
      2 ∈ (s.cluster.nodes 0).peers ∧
      (s.cluster.nodes 2).currentTerm ≤ (s.cluster.nodes 0).currentTerm ∧
      (s.cluster.nodes 0).matchIndex 2 = some 1 ∧ (s.cluster.nodes 2).log = [])
    (by decide +kernel)
  have hle := (hall s hrun hs 0 2 hrole hp hterm).1
  simp [hmatch, hlog] at hle

end LiteDB.PeerPositions
