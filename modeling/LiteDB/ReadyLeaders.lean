import LiteDB.ProposalAcknowledgement
import LiteDB.StateMachineSafety

namespace LiteDB.ReadyLeaders

open CommitHistory LeaderHistory List LogMatching ProposalAcknowledgement RaftCluster RaftNode
open RaftNodeSpec Runs StateMachineSafety RaftGroup

variable {Node α : Type} {n : Node} {V : Finset Node} {g g' : RaftGroup Node α}

section Replicas

variable [LinearOrder Node]

/-- The replica applies nothing, or more of its log, up to `bound`. -/
def AppliesUpTo (bound : Nat) (g g' : RaftGroup Node α) : Prop :=
  (g'.commitIndex = g.commitIndex ∧ g'.applied = g.applied) ∨
    (g.commitIndex < g'.commitIndex ∧ g'.commitIndex ≤ bound ∧
      g'.applied = g.applied ++ (g'.log.take g'.commitIndex).drop g.lastApplied)

theorem appliesUpTo_applyCommitted (hg : AppliedLog g) {index : Nat}
    (hle : g.commitIndex ≤ index) (hlen : index ≤ g.log.length) :
    AppliesUpTo index g (applyCommitted { g with commitIndex := index }) := by
  have hlast := hg.lastApplied
  obtain ⟨role, leader, heq, -⟩ := applyCommitted_eq (g := { g with commitIndex := index })
    (hlast.le.trans hle) hlen
  rw [heq]
  rcases hle.lt_or_eq with hlt | rfl
  · exact .inr ⟨hlt, le_rfl, rfl⟩
  · refine .inl ⟨rfl, ?_⟩
    change g.applied ++ (g.log.take g.commitIndex).drop g.lastApplied = g.applied
    rw [hlast, drop_take, Nat.sub_self, take_zero, append_nil]

omit [LinearOrder Node] in
theorem AppliesUpTo.of_le {bound bound' : Nat} (h : AppliesUpTo bound g g') (hle : bound ≤ bound') :
    AppliesUpTo bound' g g' :=
  h.imp_right fun ⟨hlt, hbound, happlied⟩ => ⟨hlt, hbound.trans hle, happlied⟩

omit [LinearOrder Node] in
theorem AppliesUpTo.congr_left {bound : Nat} {b : RaftGroup Node α} (h : AppliesUpTo bound b g')
    (hcommit : b.commitIndex = g.commitIndex) (hlast : b.lastApplied = g.lastApplied)
    (happlied : b.applied = g.applied) : AppliesUpTo bound g g' := by
  rwa [AppliesUpTo, ← hcommit, ← hlast, ← happlied]

theorem appliesUpTo_followCommit (hg : AppliedLog g) (leaderCommit : Nat) :
    AppliesUpTo leaderCommit g (g.followCommit leaderCommit) := by
  have hlen := hg.commit_le
  unfold followCommit
  split
  · rename_i hlt
    exact (appliesUpTo_applyCommitted hg (Nat.le_min.mpr ⟨hlt.le, hlen⟩)
      (Nat.min_le_right _ _)).of_le (Nat.min_le_left _ _)
  · exact .inl ⟨rfl, rfl⟩

theorem appliesUpTo_advanceCommit (hg : AppliedLog g) :
    AppliesUpTo g.log.length g g.advanceCommit := by
  rcases advanceCommit_cases g with heq | ⟨idx, hlt, hle, -, -, heq⟩
  · rw [heq]
    exact .inl ⟨rfl, rfl⟩
  · rw [heq]
    exact (appliesUpTo_applyCommitted hg hlt.le hle).of_le hle

theorem appliesUpTo_handleAppend (hg : AppliedLog g) (hcons : Consistent n V g)
    {req : AppendRequest Node α} (hkeep : g.log.take g.lastApplied <+: (g.handleAppend req).1.log) :
    AppliesUpTo req.leaderCommit g (g.handleAppend req).1 ∧
      (g.commitIndex < (g.handleAppend req).1.commitIndex →
        (g.handleAppend req).1.currentTerm = req.term) := by
  unfold handleAppend at hkeep ⊢
  split_ifs at hkeep ⊢ with hold
  · exact ⟨.inl ⟨rfl, rfl⟩, fun h => absurd h (lt_irrefl _)⟩
  · have hcons' := (hcons.adoptTerm req.term).acceptLeader req
    obtain ⟨role, voted, heq, -⟩ :=
      acceptLeader_adoptTerm_eq hcons (Nat.le_of_not_lt hold)
    unfold appendAfter at hkeep ⊢
    split_ifs at hkeep ⊢
    · rw [heq]
      exact ⟨.inl ⟨rfl, rfl⟩, fun h => absurd h (lt_irrefl _)⟩
    · rw [heq]
      exact ⟨.inl ⟨rfl, rfl⟩, fun h => absurd h (lt_irrefl _)⟩
    · obtain ⟨voters, next, matched, hreceive, -⟩ := receiveEntries_eq hcons' req.entries
      rw [(commits_followCommit _ _).log] at hkeep
      have hfields : ∃ b, b = ((g.adoptTerm req.term).acceptLeader req).receiveEntries req.entries ∧
          b.commitIndex = g.commitIndex ∧ b.lastApplied = g.lastApplied ∧
          b.applied = g.applied ∧ b.currentTerm = req.term := by
        refine ⟨_, rfl, ?_⟩
        rw [hreceive, heq]
        exact ⟨rfl, rfl, rfl, rfl⟩
      obtain ⟨b, hb, hcommit, hlast, happlied, hterm⟩ := hfields
      rw [← hb] at hkeep ⊢
      refine ⟨(appliesUpTo_followCommit (hg.frame hcommit hlast happlied hkeep) _).congr_left
        hcommit hlast happlied, fun _ => ?_⟩
      exact (commits_followCommit b _).sameBallot.currentTerm.trans hterm

theorem appliesUpTo_replicateReply (hg : AppliedLog g) (hcons : Consistent n V g) (peer : Node)
    (r : AppendReply Node) :
    AppliesUpTo g.log.length g (g.replicateReply peer r) ∧
      (g.commitIndex < (g.replicateReply peer r).commitIndex → g.role = .leader ∧
        (g.replicateReply peer r).currentTerm = g.currentTerm) := by
  unfold replicateReply
  split_ifs with hlt hrole hsuccess
  · have hsame := sameLog_becomeFollower hcons r.term
    exact ⟨.inl ⟨hsame.commitIndex, hsame.applied⟩, fun h => absurd h hsame.commitIndex.not_gt⟩
  · exact ⟨.inl ⟨rfl, rfl⟩, fun h => absurd h (lt_irrefl _)⟩
  · push Not at hrole
    refine ⟨appliesUpTo_advanceCommit (hg.frame rfl rfl rfl (List.take_prefix _ _)),
      fun _ => ⟨hrole, (commits_advanceCommit _).sameBallot.currentTerm⟩⟩
  · exact ⟨.inl ⟨rfl, rfl⟩, fun h => absurd h (lt_irrefl _)⟩

end Replicas

variable {c : Cluster Node α} {a : Event Node α} {out : List (Message Node α)}

section Transitions

variable [LinearOrder Node]

def Restarts : Event Node α → Prop
  | .restart _ | .crash _ _ => True
  | _ => False

instance (a : Event Node α) : Decidable (Restarts a) := by
  induction a using Event.casesOn <;> unfold Restarts <;> infer_instance

/-- How a step changes what the node has applied. -/
inductive Progress (c : Cluster Node α) (a : Event Node α) (n : Node) (g : RaftGroup Node α) :
    Prop
  | same (hevent : ¬Restarts a) (hcommit : g.commitIndex = (c.nodes n).commitIndex)
      (happlied : g.applied = (c.nodes n).applied)
  | restart (hevent : Restarts a) (hrole : g.role = .follower) (hcommit : g.commitIndex = 0)
      (happlied : g.applied = (c.nodes n).applied)
  | apply (hevent : ¬Restarts a) (hlt : (c.nodes n).commitIndex < g.commitIndex)
      (happlied : g.applied = (c.nodes n).applied ++
        (g.log.take g.commitIndex).drop (c.nodes n).lastApplied)
      (hsource : (∃ req recent, a = .deliver (.append n req) recent ∧ .append n req ∈ c.net ∧
          g.commitIndex ≤ req.leaderCommit ∧ g.currentTerm = req.term) ∨
        (c.nodes n).role = .leader ∧ g.currentTerm = (c.nodes n).currentTerm)

omit [LinearOrder Node] in
theorem Progress.of_sameLog (hevent : ¬Restarts a) (hsame : SameLog (c.nodes n) g) :
    Progress c a n g :=
  .same hevent hsame.commitIndex hsame.applied

theorem Progress.of_restart (hevent : Restarts a) (hcons : Consistent n V g')
    (happlied : g'.applied = (c.nodes n).applied) : Progress c a n g'.restart := by
  obtain ⟨next, matched, heq, -⟩ := restart_eq hcons
  rw [heq]
  exact .restart hevent rfl rfl happlied

omit [LinearOrder Node] in
theorem Progress.applied_subset (h : Progress c a n g) : (c.nodes n).applied ⊆ g.applied := by
  cases h with
  | same _ _ happlied => exact happlied ▸ List.Subset.refl _
  | restart _ _ _ happlied => exact happlied ▸ List.Subset.refl _
  | apply _ _ happlied =>
    rw [happlied]
    exact subset_append_left _ _

omit [LinearOrder Node] in
theorem Progress.commit_le (h : Progress c a n g) (hevent : ¬Restarts a) :
    (c.nodes n).commitIndex ≤ g.commitIndex := by
  cases h with
  | same _ hcommit => exact hcommit.ge
  | restart hrestart => exact absurd hrestart hevent
  | apply _ hlt => exact hlt.le

theorem progress_of_transition (ht : Transition c a n g out) (hn : Consistent n V (c.nodes n))
    (hal : AppliedLog (c.nodes n))
    (hkeep : (c.nodes n).log.take (c.nodes n).lastApplied <+: g.log) : Progress c a n g := by
  cases ht with
  | campaign => exact .of_sameLog id (sameLog_startPreElection _)
  | heartbeat => exact .same id rfl rfl
  | vote _ req recent => exact .of_sameLog id (sameLog_handleVote hn req recent)
  | preVoteReply req r => exact .of_sameLog id (sameLog_requestPreVote hn r)
  | voteReply req r =>
    rcases requestVote_cases hn r with ⟨-, -, -, -, heq⟩ | hsame
    · rw [heq]
      exact .same id rfl rfl
    · exact .of_sameLog id hsame
  | replicate => exact .same id rfl rfl
  | append _ req recent hm =>
    obtain ⟨⟨hcommit, happlied⟩ | ⟨hlt, hle, happlied⟩, hterm⟩ :=
      appliesUpTo_handleAppend hal hn hkeep
    · exact .same id hcommit happlied
    · exact .apply id hlt happlied (.inl ⟨req, recent, rfl, hm, hle, hterm hlt⟩)
  | appendReply peer req r =>
    obtain ⟨⟨hcommit, happlied⟩ | ⟨hlt, -, happlied⟩, hlead⟩ :=
      appliesUpTo_replicateReply hal hn peer r
    · exact .same id hcommit happlied
    · exact .apply id hlt happlied (.inr (hlead hlt))
  | propose _ payload hrole =>
    rw [propose_eq hrole]
    exact .same id rfl rfl
  | reconfigure _ voters hrole hone =>
    obtain ⟨next, matched, heq, -⟩ := reconfigure_eq hn hrole hone
    rw [heq]
    exact .same id rfl rfl
  | restart => exact .of_restart (by trivial) hn rfl
  | crashInVote _ req =>
    unfold crashInVote
    split
    · exact .of_restart (by trivial) hn rfl
    · exact .of_restart (by trivial) (hn.adoptTerm _) (sameLog_adoptTerm hn _).applied
  | crashInAppend _ req count =>
    rcases crashInAppend_cases hn req count with ⟨-, heq⟩ | ⟨hle, a, stored, rfl, -, -, -, heq⟩
    · rw [heq]
      exact .of_restart (by trivial) hn rfl
    · rw [heq]
      refine .of_restart (by trivial) (((hn.adoptTerm _).acceptLeader req).withLog _) ?_
      obtain ⟨role, voted, haccept, -⟩ := acceptLeader_adoptTerm_eq hn hle
      rw [haccept]
      rfl

end Transitions

variable {m : Node}

section Clusters

variable [LinearOrder Node] {h : Record Node α}

theorem applied_kept (hc : ClusterSafe V h c) (huniq : UniqueLeaders c)
    (ht : Transition c a n g out) : (c.nodes n).log.take (c.nodes n).lastApplied <+: g.log := by
  have hn := hc.nodes n
  have htake : (c.nodes n).log.take (c.nodes n).lastApplied <+: (c.nodes n).log :=
    (List.take_prefix _ _)
  by_cases happend : ∃ req recent, a = .deliver (.append n req) recent
  · obtain ⟨req, recent, rfl⟩ := happend
    cases ht with
    | append _ _ _ hm =>
      obtain ⟨P, hs⟩ := hc.net _ hm
      refine le_handleAppend (hc.log.nodes n) hc.log.wellformed hc.log.indexed hs.toSent
        hs.prev_le (hc.log.not_leading huniq hm) htake fun hle => ?_
      rw [hn.lastApplied]
      exact hn.committed.comparable hc.record hc.log.wellformed hs.toSent hle
  · push Not at happend
    exact htake.trans (log_le_of_transition ht (hc.log.nodes n).consistent happend)

variable {e : Entry Node α}

theorem index_le_of_mem (hc : ClusterSafe V h c) {k : Nat} (he : e ∈ (c.nodes n).log.take k) :
    e.index ≤ k := by
  obtain ⟨A, hA⟩ := concat_le_of_mem he
  rw [hc.log.indexed.index_eq (hc.log.nodes n).log_matches (hA.trans (List.take_prefix _ _))]
  have hlen := hA.length_le
  simp only [length_append, length_singleton, length_take] at hlen
  omega

def LatestTerm (c : Cluster Node α) (t : Nat) : Prop := ∀ n, ∀ T ∈ (c.nodes n).won, T ≤ t

instance [Fintype Node] (c : Cluster Node α) (t : Nat) : Decidable (LatestTerm c t) :=
  inferInstanceAs (Decidable (∀ n, ∀ T ∈ (c.nodes n).won, T ≤ t))

/-- As far as entries of its own term are applied anywhere, and as far as the requests in
flight go, the leader of the latest term has applied them. -/
structure Ahead (c : Cluster Node α) : Prop where
  applied : ∀ r, (c.nodes r).role = .leader → LatestTerm c (c.nodes r).currentTerm →
    ∀ n, ∀ e ∈ (c.nodes n).applied, e.term = (c.nodes r).currentTerm →
      e.index ≤ (c.nodes r).commitIndex
  sent : ∀ r, (c.nodes r).role = .leader → ∀ dst req, .append dst req ∈ c.net →
    req.term = (c.nodes r).currentTerm → req.leaderCommit ≤ (c.nodes r).commitIndex

theorem base_of_applied (hc : ClusterSafe V h c) (he : e ∈ (c.nodes m).applied) :
    h.base e.term ≠ none := by
  obtain ⟨A, hA⟩ := (hc.nodes m).applied e he
  rcases hA with hnil | ⟨T, i, k, hcommits, -, hle⟩
  · simp at hnil
  · exact (hc.log.wellformed.full_matches (hc.record.commit_term hcommits).1 A e
      (hle.trans (List.take_prefix i _))).1

/-- Whoever leads after a step has led before it, or has just won a term in which nothing
was proposed yet. -/
theorem led_before (hc : ClusterSafe V h c) (huniq : UniqueLeaders (c.put n g out))
    (ht : Transition c a n g out) (hprogress : Progress c a n g) {r : Node}
    (hrole : ((c.put n g out).nodes r).role = .leader) :
    ((c.nodes r).role = .leader ∧
        ((c.put n g out).nodes r).currentTerm = (c.nodes r).currentTerm ∧
        (c.nodes r).commitIndex ≤ ((c.put n g out).nodes r).commitIndex) ∨
      (h.base ((c.put n g out).nodes r).currentTerm = none ∧
        g.applied = (c.nodes n).applied ∧ out = []) := by
  by_cases hr : r = n
  · subst hr
    rw [put_nodes_self] at hrole ⊢
    have hcons := (hc.log.nodes r).consistent
    rcases ht.won_cases hcons with hwon |
      ⟨req, reply, recent, rfl, -, -, -, rfl, hcandidate, -, -, -, rfl⟩
    · obtain ⟨hled, hterm⟩ := (ht.advances hcons hwon).leader hrole
      refine .inl ⟨hled, hterm, ?_⟩
      cases hprogress with
      | same _ hcommit => exact hcommit.ge
      | restart _ hfollower => simp [hfollower] at hrole
      | apply _ hlt => exact hlt.le
    · exact .inr ⟨hc.log.base_eq_none huniq hcandidate rfl, rfl, rfl⟩
  · rw [put_nodes_ne c g out hr] at hrole ⊢
    exact .inl ⟨hrole, rfl, le_rfl⟩

/-- What a step has newly applied, a request or the count of a leader has allowed. -/
theorem applied_cases (hprogress : Progress c a n g) (he : e ∈ ((c.put n g out).nodes m).applied) :
    e ∈ (c.nodes m).applied ∨ (m = n ∧ e ∈ g.log.take g.commitIndex ∧
      ((∃ req, .append n req ∈ c.net ∧ g.commitIndex ≤ req.leaderCommit ∧
          g.currentTerm = req.term) ∨
        (c.nodes n).role = .leader ∧ g.currentTerm = (c.nodes n).currentTerm)) := by
  by_cases hm : m = n
  · subst hm
    rw [put_nodes_self] at he
    cases hprogress with
    | same _ _ happlied | restart _ _ _ happlied => exact .inl (happlied ▸ he)
    | apply _ _ happlied hsource =>
      rw [happlied] at he
      refine (mem_append.mp he).imp_right fun hnew =>
        ⟨rfl, mem_of_mem_drop hnew, hsource.imp_left ?_⟩
      rintro ⟨req, recent, -, hmem, hrest⟩
      exact ⟨req, hmem, hrest⟩
  · rw [put_nodes_ne c g out hm] at he
    exact .inl he

theorem Ahead.transition {h' : Record Node α} (hahead : Ahead c) (hc : ClusterSafe V h c)
    (hc' : ClusterSafe V h' (c.put n g out)) (hprogress : Progress c a n g)
    (huniq : UniqueLeaders (c.put n g out)) (ht : Transition c a n g out) :
    Ahead (c.put n g out) := by
  have hcons := (hc.log.nodes n).consistent
  have huniq' := huniq.of_put ht hcons
  have hleads : ∀ r, (c.nodes r).role = .leader → (c.nodes r).currentTerm ∈ (c.nodes r).won :=
    fun r hrole => ((hc.log.nodes r).leader hrole).1
  refine ⟨fun r hrole hlatest m e he hterm => ?_, fun r hrole dst req hm hterm => ?_⟩
  · rcases led_before hc huniq ht hprogress hrole with ⟨hled, hsame, hle⟩ | ⟨hbase, happlied, -⟩
    · have hlatest' : LatestTerm c (c.nodes r).currentTerm := fun k T hT =>
        hsame ▸ hlatest k T (won_subset_of_transition ht hcons k hT)
      rw [hsame] at hterm
      rcases applied_cases hprogress he with hold | ⟨rfl, hnew, hsource⟩
      · exact (hahead.applied r hled hlatest' m e hold hterm).trans hle
      have hindex : e.index ≤ g.commitIndex := by
        refine index_le_of_mem (n := m) hc' ?_
        rwa [put_nodes_self]
      have hupper : e.term ≤ g.currentTerm := by
        have hnode := hc'.log.nodes m
        rw [put_nodes_self] at hnode
        exact hnode.term_le e (mem_of_mem_take hnew)
      rcases hsource with ⟨req, hmem, hcommit, hreq⟩ | ⟨hled', hsame'⟩
      · -- the request is of the latest term, so this leader has sent it
        have hlower := hlatest' _ _ (hc.log.net _ hmem).2.1
        exact (hindex.trans hcommit).trans ((hahead.sent r hled m req hmem (by omega)).trans hle)
      · have hlower := hlatest' _ _ (hleads m hled')
        have hr : r = m := by
          refine huniq' r m (c.nodes r).currentTerm (hleads r hled) ?_
          rw [show (c.nodes r).currentTerm = (c.nodes m).currentTerm by omega]
          exact hleads m hled'
        subst hr
        rwa [put_nodes_self]
    · refine absurd hbase (hterm ▸ base_of_applied hc (m := m) ?_)
      by_cases hm : m = n
      · subst hm
        rwa [put_nodes_self, happlied] at he
      · rwa [put_nodes_ne c g out hm] at he
  · rcases mem_append.mp hm with hold | hnew
    · obtain ⟨-, -, P, hs⟩ := hc.log.net _ hold
      rcases led_before hc huniq ht hprogress hrole with ⟨hled, hsame, hle⟩ | ⟨hbase, -⟩
      · exact (hahead.sent r hled dst req hold (hterm.trans hsame)).trans hle
      · exact absurd (hterm ▸ hbase) hs.base
    · obtain ⟨hled', rfl, hreq, hcommit⟩ := ht.sends hnew
      rcases led_before hc huniq ht hprogress hrole with ⟨hled, hsame, hle⟩ | ⟨-, -, hout⟩
      · have hr : r = n := by
          refine huniq' r n req.term ?_ ?_
          · rw [hterm, hsame]
            exact hleads r hled
          · rw [hreq]
            exact hleads n hled'
        subst hr
        rw [put_nodes_self]
        exact hcommit.le
      · simp [hout] at hnew

end Clusters

section Runs

variable [LinearOrder Node]

/-- What holds of the replicas of a safe group. -/
structure GroupSafe (V : Finset Node) (c : Cluster Node α) : Prop where
  safe : ∃ h, ClusterSafe V h c
  applied : ∀ n, AppliedLog (c.nodes n)
  ahead : Ahead c

theorem groupSafe_start (V : Finset Node) : GroupSafe V (start V : Cluster Node α) where
  safe := ⟨_, clusterSafe_start V⟩
  applied n := ⟨rfl, Nat.zero_le _, [], rfl⟩
  ahead := ⟨fun r hrole => by simp [start, create] at hrole, fun r hrole => by
    simp [start, create] at hrole⟩

theorem GroupSafe.progress (hc : GroupSafe V c) (huniq : UniqueLeaders (c.put n g out))
    (ht : Transition c a n g out) :
    Progress c a n g ∧ (c.nodes n).log.take (c.nodes n).lastApplied <+: g.log ∧ AppliedLog g := by
  obtain ⟨h, hsafe⟩ := hc.safe
  have hcons := (hsafe.log.nodes n).consistent
  have hkeep := applied_kept hsafe (huniq.of_put ht hcons) ht
  exact ⟨progress_of_transition ht hcons (hc.applied n) hkeep, hkeep,
    appliedLog_transition ht hcons (hc.applied n) hkeep⟩

theorem GroupSafe.transition (hc : GroupSafe V c) (ha : Orderly c a)
    (huniq : UniqueLeaders (c.put n g out)) (ht : Transition c a n g out) :
    GroupSafe V (c.put n g out) := by
  obtain ⟨hprogress, -, happlied⟩ := hc.progress huniq ht
  obtain ⟨h, hsafe⟩ := hc.safe
  obtain ⟨h', hsafe'⟩ := hsafe.transition ha huniq ht
  refine ⟨⟨h', hsafe'⟩, fun m => ?_, hc.ahead.transition hsafe hsafe' hprogress huniq ht⟩
  by_cases hm : m = n
  · subst hm
    rwa [put_nodes_self]
  · rw [put_nodes_ne c g out hm]
    exact hc.applied m

/-- A leader of the latest term that has applied an entry of this term has applied
whatever has been applied anywhere. -/
theorem GroupSafe.applied_of_ready (hc : GroupSafe V c) {r : Node} {e : Entry Node α}
    (hready : (c.nodes r).isReady = true) (hlatest : LatestTerm c (c.nodes r).currentTerm)
    (he : e ∈ (c.nodes n).applied) : e ∈ (c.nodes r).log.take (c.nodes r).lastApplied := by
  obtain ⟨h, hsafe⟩ := hc.safe
  have hw := hsafe.log.wellformed
  obtain ⟨hrole, B, x, htake, hx⟩ := hsafe.ready_last hready
  obtain ⟨-, hbase, hfull, -⟩ := (hsafe.log.nodes r).leader hrole
  obtain ⟨b, hb⟩ := Option.ne_none_iff_exists'.mp hbase
  have hle : (c.nodes r).log.take (c.nodes r).commitIndex <+: h.full (c.nodes r).currentTerm := by
    rw [hfull]
    exact take_prefix _ _
  -- the leader has applied everything that it was elected with
  have hinherited : b <+: (c.nodes r).log.take (c.nodes r).commitIndex := by
    rw [htake] at hle ⊢
    exact (hw.base_le_of_term hb hle hx).trans (prefix_append _ _)
  rw [(hsafe.nodes r).lastApplied]
  obtain ⟨A, hnil | ⟨T, i, m, hcommits, -, hA⟩⟩ := (hsafe.nodes n).applied e he
  · simp at hnil
  obtain ⟨k, hk⟩ := hsafe.log.owner T (hsafe.record.commit_term hcommits).1
  rcases (hlatest k T hk).lt_or_eq with hlt | rfl
  · have hcomplete := (hsafe.record.valid hw).complete _ b hb T hlt m i hcommits
    exact mem_of_concat_le ((hA.trans hcomplete).trans hinherited)
  · have hA' := hA.trans (List.take_prefix i _)
    by_cases hterm : e.term = (c.nodes r).currentTerm
    · have hindex := hc.ahead.applied r hrole hlatest n e he hterm
      rw [hsafe.log.indexed _ hbase A e hA'] at hindex
      refine mem_of_concat_le (prefix_of_prefix_length_le hA' hle ?_)
      have hcle := (hsafe.nodes r).commit_le
      simp only [length_append, length_singleton, length_take]
      omega
    · refine mem_of_concat_le ((prefix_of_prefix_length_le hA' (hw.base_le hb) ?_).trans hinherited)
      by_contra hlen
      simp only [length_append, length_singleton] at hlen
      refine hterm (hw.term_new hb e ?_)
      obtain ⟨rest, hrest⟩ := hA'
      rw [← hrest, append_assoc, drop_append_of_le_length (by omega)]
      simp

theorem groupSafe_of_reaches [DecidableEq α] (hrun : Reaches step Orderly (start V) c)
    (huniq : UniqueLeaders c) : GroupSafe V c := by
  refine invariant_of_uniqueLeaders (GroupSafe V) hrun huniq (groupSafe_start V) ?_ ?_
  · rintro c m ⟨⟨h, hc⟩, happlied, hahead⟩
    exact ⟨⟨h, hc.log.lose m, hc.record, hc.nodes,
      fun x hx => hc.net x (mem_of_mem_erase hx)⟩, happlied, hahead.applied,
      fun r hrole dst req hreq => hahead.sent r hrole dst req (mem_of_mem_erase hreq)⟩
  · rintro c a n g out hc ha huniq ht
    exact hc.transition ha huniq ht

end Runs

section Prefixes

variable {P Q : List (Entry Node α)}

def AppliedFrom (g : RaftGroup Node α) (P : List (Entry Node α)) : Prop :=
  ∀ i e, P[i]? = some e → e.index = i + 1 ∧ e ∈ g.applied

theorem AppliedFrom.of_le (hQ : AppliedFrom g Q) (hle : P <+: Q) : AppliedFrom g P := by
  intro i e he
  obtain ⟨rest, rfl⟩ := hle
  refine hQ i e ?_
  rw [getElem?_append_left (List.getElem?_eq_some_iff.mp he).1]
  exact he

theorem AppliedFrom.mono (hP : AppliedFrom g P)
    (happlied : g.applied ⊆ g'.applied) : AppliedFrom g' P :=
  fun i e he => ⟨(hP i e he).1, happlied (hP i e he).2⟩

variable [LinearOrder Node]

theorem AppliedFrom.comparable (hc : GroupSafe V c) (hP : AppliedFrom (c.nodes n) P)
    (hQ : AppliedFrom (c.nodes m) Q) (hlen : P.length ≤ Q.length) : P <+: Q := by
  obtain ⟨h, hsafe⟩ := hc.safe
  rw [prefix_iff_eq_take]
  refine ext_getElem? fun i => ?_
  by_cases hi : i < P.length
  · rw [getElem?_take_of_lt hi, getElem?_eq_getElem hi, getElem?_eq_getElem (hi.trans_le hlen)]
    obtain ⟨hindex, hmem⟩ := hP i _ (getElem?_eq_getElem hi)
    obtain ⟨hindex', hmem'⟩ := hQ i _ (getElem?_eq_getElem (hi.trans_le hlen))
    rw [hsafe.applied_unique hmem hmem' (hindex.trans hindex'.symm)]
  · rw [getElem?_eq_none (by omega), getElem?_eq_none (by simp; omega)]

theorem appliedFrom_log (hc : GroupSafe V c) (n : Node) :
    AppliedFrom (c.nodes n) ((c.nodes n).log.take (c.nodes n).lastApplied) := by
  obtain ⟨h, hsafe⟩ := hc.safe
  obtain ⟨old, hold⟩ := (hc.applied n).applied
  intro i e he
  refine ⟨?_, ?_⟩
  · obtain ⟨A, e', hA, hlen, he'⟩ := exists_concat_le _ (List.getElem?_eq_some_iff.mp he).1
    cases he'.symm.trans he
    rw [← hlen]
    exact hsafe.log.indexed.index_eq (hsafe.log.nodes n).log_matches
      (hA.trans (List.take_prefix _ _))
  · rw [hold]
    exact mem_append_right _ (mem_of_getElem? he)

end Prefixes

end LiteDB.ReadyLeaders
