import LiteDB.ElectionSafety
import LiteDB.StateMachineSafety

namespace LiteDB.FixedMembership

open ElectionSafety List LogMatching RaftCluster RaftNode RaftNodeSpec Runs StateMachineSafety
open RaftGroup

variable {Node α : Type} {n : Node} {V : Finset Node} {g : RaftGroup Node α}

section Positions

variable [LinearOrder Node]

/-- A leader's positions are those it had before, or those of its peers. -/
def PositionsWithin (n : Node) (g g' : RaftGroup Node α) : Prop :=
  ∀ p, (g'.nextIndex p ≠ none → g.nextIndex p ≠ none ∨ (p ≠ n ∧ p ∈ g'.voters)) ∧
    (g'.matchIndex p ≠ none → g.matchIndex p ≠ none ∨ (p ≠ n ∧ p ∈ g'.voters))

variable {g' : RaftGroup Node α}

omit [LinearOrder Node] in
theorem positionsWithin_of_eq (hnext : g'.nextIndex = g.nextIndex)
    (hmatch : g'.matchIndex = g.matchIndex) : PositionsWithin n g g' := by
  intro p
  rw [hnext, hmatch]
  exact ⟨.inl, .inl⟩

theorem positionsWithin_becomeLeader (hg : Consistent n V g) :
    PositionsWithin n g g.becomeLeader := by
  intro p
  by_cases hp : p ∈ g.peers
  · have hvoter := hg.mem_peers.mp hp
    exact ⟨fun _ => .inr hvoter, fun _ => .inr hvoter⟩
  · have hnext : g.becomeLeader.nextIndex p = g.nextIndex p := if_neg hp
    have hmatch : g.becomeLeader.matchIndex p = g.matchIndex p := if_neg hp
    rw [hnext, hmatch]
    exact ⟨.inl, .inl⟩

theorem restart_positions (hg : Consistent n V g) (p : Node)
    (hp : g.restart.nextIndex p ≠ none ∨ g.restart.matchIndex p ≠ none) :
    p ≠ n ∧ p ∈ g.restart.voters := by
  obtain ⟨next, matched, heq, hnext, hmatched⟩ := restart_eq hg
  rw [heq] at hp ⊢
  exact hp.elim (hnext p) (hmatched p)

theorem positionsWithin_handleAppend (hg : Consistent n V g) (req : AppendRequest Node α) :
    PositionsWithin n g (g.handleAppend req).1 := by
  unfold handleAppend
  split
  · exact positionsWithin_of_eq rfl rfl
  · rename_i hold
    have hcons := (hg.adoptTerm req.term).acceptLeader req
    obtain ⟨role, voted, heq, -⟩ := acceptLeader_adoptTerm_eq hg (Nat.le_of_not_lt hold)
    have hnext : ((g.adoptTerm req.term).acceptLeader req).nextIndex = g.nextIndex := by rw [heq]
    have hmatch : ((g.adoptTerm req.term).acceptLeader req).matchIndex = g.matchIndex := by
      rw [heq]
    generalize (g.adoptTerm req.term).acceptLeader req = a at hcons hnext hmatch ⊢
    unfold appendAfter
    split_ifs
    · exact positionsWithin_of_eq hnext hmatch
    · exact positionsWithin_of_eq hnext hmatch
    · obtain ⟨voters, next, matched, hreceived, -, hnext', hmatch'⟩ :=
        receiveEntries_eq hcons req.entries
      obtain ⟨commit, la, lt, ap, role, leader, hfollow, -⟩ :=
        commits_followCommit (a.receiveEntries req.entries) req.leaderCommit
      intro p
      dsimp only
      rw [hfollow, hreceived, ← hnext, ← hmatch]
      refine ⟨fun h => ?_, fun h => ?_⟩
      · rcases hnext' p with hsame | hp
        · exact .inl (hsame ▸ h)
        · exact .inr hp
      · rcases hmatch' p with hsame | hp
        · exact .inl (hsame ▸ h)
        · exact .inr hp

end Positions

variable {c : Cluster Node α} {a : Event Node α}

section Clusters

variable [LinearOrder Node]

/-- Requests and replies of replication are exchanged with the other voters. -/
def MessagePeers (V : Finset Node) : Message Node α → Prop
  | .replicate src peer => peer ≠ src ∧ peer ∈ V
  | .append dst req => dst ≠ req.leaderId ∧ dst ∈ V
  | .appendReply peer req _ => peer ≠ req.leaderId ∧ peer ∈ V
  | _ => True

/-- Positions and messages are those of other voters. -/
structure PeerInv (V : Finset Node) (c : Cluster Node α) : Prop where
  nodes : ∀ n p, (c.nodes n).nextIndex p ≠ none ∨ (c.nodes n).matchIndex p ≠ none →
    p ≠ n ∧ p ∈ V
  net : ∀ m ∈ c.net, MessagePeers V m

variable {granted : Node → Nat → Node → Prop} {out : List (Message Node α)}

theorem PeerInv.put (hc : PeerInv V c)
    (hg : ∀ p, g.nextIndex p ≠ none ∨ g.matchIndex p ≠ none → p ≠ n ∧ p ∈ V)
    (hout : ∀ m ∈ out, MessagePeers V m) : PeerInv V (c.put n g out) where
  nodes m := by
    by_cases hm : m = n
    · subst hm
      rw [put_nodes_self]
      exact hg
    · rw [put_nodes_ne c g out hm]
      exact hc.nodes m
  net m hm := by
    rcases mem_append.mp hm with hm | hm
    · exact hc.net m hm
    · exact hout m hm

omit [LinearOrder Node] in
theorem PeerInv.within (hc : PeerInv V c) (hg : PositionsWithin n (c.nodes n) g)
    (hvoters : g.voters = V) (p : Node) (hp : g.nextIndex p ≠ none ∨ g.matchIndex p ≠ none) :
    p ≠ n ∧ p ∈ V := by
  rw [← hvoters]
  rcases hp with hp | hp
  · rcases (hg p).1 hp with hold | hnew
    · exact hvoters ▸ hc.nodes n p (.inl hold)
    · exact hnew
  · rcases (hg p).2 hp with hold | hnew
    · exact hvoters ▸ hc.nodes n p (.inr hold)
    · exact hnew

theorem PeerInv.replicateReply (hc : PeerInv V c) (hn : Consistent n V (c.nodes n))
    {peer : Node} {r : AppendReply Node} (hpeer : peer ≠ n ∧ peer ∈ V) (p : Node)
    (hp : ((c.nodes n).replicateReply peer r).nextIndex p ≠ none ∨
      ((c.nodes n).replicateReply peer r).matchIndex p ≠ none) : p ≠ n ∧ p ∈ V := by
  by_cases hsame : p = peer
  · exact hsame ▸ hpeer
  · refine hc.nodes n p ?_
    unfold RaftGroup.replicateReply at hp
    split_ifs at hp
    · rwa [(sameLog_becomeFollower hn _).nextIndex,
        (sameLog_becomeFollower hn _).matchIndex] at hp
    · exact hp
    · obtain ⟨commit, la, lt, ap, role, leader, heq, -⟩ := commits_advanceCommit { c.nodes n with
          matchIndex := fun p =>
            if p = peer then some r.matchIndex else (c.nodes n).matchIndex p
          nextIndex := fun p =>
            if p = peer then some (r.matchIndex + 1) else (c.nodes n).nextIndex p }
      rw [heq] at hp
      simpa [hsame] using hp
    · simpa [hsame] using hp

theorem PeerInv.transition (hc : PeerInv V c) (hbefore : ClusterInv V granted c)
    (hvoters : g.voters = V) (ht : Transition c a n g out) (ha : Fixed c a) :
    PeerInv V (c.put n g out) := by
  have hn := (hbefore.nodes n).consistent
  cases ht with
  | campaign =>
    have hsame := sameLog_startPreElection (c.nodes n)
    refine hc.put (hc.within (positionsWithin_of_eq hsame.nextIndex hsame.matchIndex)
      hvoters) fun m hm => ?_
    obtain ⟨req, -, rfl⟩ := mem_map.mp hm
    trivial
  | heartbeat =>
    refine hc.put (hc.nodes n) fun m hm => ?_
    obtain ⟨p, hp, rfl⟩ := mem_map.mp hm
    have hpeer := hn.mem_peers.mp hp
    rw [(hbefore.nodes n).voters] at hpeer
    change p ≠ (c.nodes n).nodeId ∧ p ∈ V
    rw [hn.nodeId]
    exact hpeer
  | vote _ req recent hm =>
    have hsame := sameLog_handleVote hn req recent
    refine hc.put (hc.within (positionsWithin_of_eq hsame.nextIndex hsame.matchIndex)
      hvoters) fun m hm => ?_
    rw [mem_singleton.mp hm]
    trivial
  | preVoteReply req r recent hm hpre =>
    have hsame := sameLog_requestPreVote hn r
    refine hc.put (hc.within (positionsWithin_of_eq hsame.nextIndex hsame.matchIndex)
      hvoters) fun m hm => ?_
    obtain ⟨req, -, rfl⟩ := mem_map.mp hm
    trivial
  | voteReply req r recent hm hpre =>
    refine hc.put (hc.within ?_ hvoters) (by simp)
    rcases requestVote_cases hn r with ⟨-, -, -, -, heq⟩ | hsame
    · rw [heq]
      exact positionsWithin_becomeLeader (hn.recordVote r.voterId)
    · exact positionsWithin_of_eq hsame.nextIndex hsame.matchIndex
  | replicate _ peer recent hm =>
    have hpeer := hc.net _ hm
    refine hc.put (hc.nodes n) fun m hm => ?_
    obtain ⟨req, hreq, rfl⟩ := mem_map.mp hm
    have hleader : req.leaderId = n := by
      have hreq' := Option.mem_toList.mp hreq
      unfold replicateTo at hreq'
      split_ifs at hreq'
      cases hreq'
      exact hn.nodeId
    exact ⟨hleader ▸ hpeer.1, hpeer.2⟩
  | append _ req recent hm =>
    have hpeer := hc.net _ hm
    refine hc.put (hc.within (positionsWithin_handleAppend hn req) hvoters) fun m hm => ?_
    rw [mem_singleton.mp hm]
    exact hpeer
  | appendReply peer req r recent hm =>
    exact hc.put (hc.replicateReply hn (hc.net _ hm)) (by simp)
  | propose _ payload hrole =>
    rw [propose_eq hrole]
    exact hc.put (hc.nodes n) (by simp)
  | reconfigure => exact ha.elim
  | restart => exact hc.put (fun p hp => hvoters ▸ restart_positions hn p hp) (by simp)
  | crashInVote _ req count hm =>
    refine hc.put (fun p hp => ?_) (by simp)
    rw [← hvoters]
    unfold crashInVote at hp ⊢
    split_ifs at hp ⊢
    · exact restart_positions hn p hp
    · exact restart_positions (hn.adoptTerm _) p hp
  | crashInAppend _ req count hm =>
    refine hc.put (fun p hp => ?_) (by simp)
    rw [← hvoters]
    rcases crashInAppend_cases hn req count with ⟨-, heq⟩ | ⟨-, a, stored, rfl, -, -, -, heq⟩
    · rw [heq] at hp ⊢
      exact restart_positions hn p hp
    · rw [heq] at hp ⊢
      exact restart_positions (((hn.adoptTerm _).acceptLeader req).withLog _) p hp

end Clusters

section Runs

variable [LinearOrder Node] [DecidableEq α]

/-- A leader handles only replies that are not behind its term. -/
def CurrentReplies (c : Cluster Node α) : Event Node α → Prop
  | .deliver (.appendReply _ req r) _ =>
      (c.nodes req.leaderId).role = .leader → (c.nodes req.leaderId).currentTerm ≤ r.term
  | _ => True

instance (c : Cluster Node α) (a : Event Node α) : Decidable (CurrentReplies c a) := by
  induction a using Event.casesOn with
  | deliver m => induction m using Message.casesOn <;> unfold CurrentReplies <;> infer_instance
  | _ => unfold CurrentReplies; infer_instance

theorem fixed_step {c' : Cluster Node α} (hc : (∃ granted, ClusterInv V granted c) ∧ PeerInv V c)
    (ha : Fixed c a) (hstep : step c a = some c') :
    (∃ granted, ClusterInv V granted c') ∧ PeerInv V c' := by
  obtain ⟨⟨granted, hinv⟩, hpeers⟩ := hc
  rcases step_cases hstep with ⟨m, -, rfl⟩ | ⟨n, g, out, ht, rfl⟩
  · have hkeep : ∀ x ∈ c.net.erase m, x ∈ c.net := fun x hx => mem_of_mem_erase hx
    exact ⟨⟨granted, hinv.nodes, fun x hx => hinv.net x (hkeep x hx)⟩, hpeers.nodes,
      fun x hx => hpeers.net x (hkeep x hx)⟩
  · obtain ⟨granted', hinv'⟩ := hinv.transition ha ht
    have hvoters := (hinv'.nodes n).voters
    rw [put_nodes_self] at hvoters
    exact ⟨⟨granted', hinv'⟩, hpeers.transition hinv hvoters ht ha⟩

omit [DecidableEq α] in
theorem carefulChanges_of_fixed (hc : (∃ granted, ClusterInv V granted c) ∧ PeerInv V c)
    (ha : Fixed c a) : CarefulChanges c a := by
  obtain ⟨⟨granted, hinv⟩, hpeers⟩ := hc
  unfold CarefulChanges
  split
  · exact ha.elim
  · exact fun _ e he => (hinv.nodes _).no_config e (mem_of_mem_drop he)
  · rename_i req r _
    intro _ _ p hp
    have hn := hinv.nodes req.candidateId
    have hnone : ¬((c.nodes req.candidateId).nextIndex p ≠ none ∨
        (c.nodes req.candidateId).matchIndex p ≠ none) := by
      intro hpos
      refine hp (hn.consistent.mem_peers.mpr ?_)
      rw [hn.voters]
      exact hpeers.nodes _ p hpos
    push Not at hnone
    exact hnone
  · trivial

omit [LinearOrder Node] [DecidableEq α] in
theorem orderlyReplies_of_current (h : CurrentReplies c a) : OrderlyReplies c a := by
  unfold OrderlyReplies
  split
  · exact fun hrole => .inl (h hrole)
  · trivial

omit [DecidableEq α] in
theorem peerInv_start (V : Finset Node) : PeerInv V (start V : Cluster Node α) :=
  ⟨fun n p hp => by simp [start, create] at hp, by simp [start]⟩

/-- With a fixed membership, and as long as no leader handles an append reply of
an earlier term than its own, replicas never apply different commands at the
same index. -/
theorem applied_command_eq
    (hrun : Reaches step (fun c a => Fixed c a ∧ CurrentReplies c a) (start V) c) {n m : Node}
    {e e' : Entry Node α} (he : e ∈ (c.nodes n).applied) (he' : e' ∈ (c.nodes m).applied)
    (hindex : e.index = e'.index) : e.command = e'.command := by
  have hstart : (∃ granted, ClusterInv V granted (start V : Cluster Node α)) ∧
      PeerInv V (start V : Cluster Node α) :=
    ⟨clusterInv_of_reaches (Reaches.refl _), peerInv_start V⟩
  have horderly : Reaches step Orderly (start V) c :=
    hrun.weaken (fun c => (∃ granted, ClusterInv V granted c) ∧ PeerInv V c) hstart
      (fun u a w hu ha hstep => fixed_step hu ha.1 hstep)
      (fun u a hu ha => ⟨carefulChanges_of_fixed hu ha.1, orderlyReplies_of_current ha.2⟩)
  obtain ⟨⟨granted, hinv⟩, -⟩ := hrun.invariant
    (fun c => (∃ granted, ClusterInv V granted c) ∧ PeerInv V c) hstart
    (fun u a w hu ha hstep => fixed_step hu ha.1 hstep)
  obtain ⟨h, hsafe⟩ := clusterSafe_of_reaches horderly fun n m t => hinv.won_unique
  rw [hsafe.applied_unique he he' hindex]

/-- Node 0 of three commits 7 with node 1, which learns of the commit later. -/
def commitFirst : List (Event Nat Nat) :=
  elect 0 1 0 0 [(1, 0)] ++ [Event.propose 0 7, .heartbeat 0] ++
    exchange 1 ⟨1, 0, 0, 0, [⟨1, 1, .noop⟩, ⟨1, 2, .data 7⟩], 0⟩ true 2 ++
    send 1 ⟨1, 0, 2, 1, [], 2⟩

theorem applied_command_eq_of_three : ∃ c : Cluster Nat Nat,
    Reaches step (fun c a => Fixed c a ∧ CurrentReplies c a) (start {0, 1, 2}) c ∧
      ⟨1, 2, .data 7⟩ ∈ (c.nodes 0).applied ∧ (∃ e ∈ (c.nodes 1).applied, e.index = 2) ∧
      ∀ e ∈ (c.nodes 1).applied, e.index = 2 → .data 7 = e.command := by
  obtain ⟨c, hc, happlied, hother⟩ := exists_reaches step
    (fun c a => Fixed c a ∧ CurrentReplies c a)
    (start {0, 1, 2} : Cluster Nat Nat) commitFirst
    (fun c => ⟨1, 2, .data 7⟩ ∈ (c.nodes 0).applied ∧
      ∃ e ∈ (c.nodes 1).applied, e.index = 2) (by decide +kernel)
  exact ⟨c, hc, happlied, hother, fun e he hindex =>
    applied_command_eq hc happlied he hindex.symm⟩

/-- Among nodes 0 to 4 the reply of node 1 to node 0 in term 1 is delayed. Node 2
leads term 2 and overwrites the log of node 0, which then leads term 3. There the
old reply counts for node 1, so that 12 is committed at position 3 with node 3
alone. Nodes 1 and 4 do not have it and elect node 2, which commits 13. -/
def lateReply : List (Event (Fin 5) Nat) :=
  let late : AppendRequest (Fin 5) Nat :=
    ⟨1, 0, 0, 0, [⟨1, 1, .noop⟩, ⟨1, 2, .data 10⟩, ⟨1, 3, .data 11⟩], 0⟩
  -- node 0 leads term 1 and node 1 acknowledges three entries
  elect 0 1 0 0 [(3, 0), (4, 0)] ++
    [Event.propose 0 10, .propose 0 11, .heartbeat 0] ++ send 1 late ++
    -- node 2 leads term 2 and overwrites the log of node 0
    .timeout 2 :: gather ⟨true, 1, 2, 0, 0⟩ [(3, 1)] ++
    elect 2 2 0 0 [(3, 1), (4, 1)] ++
    .heartbeat 2 :: send 0 ⟨2, 2, 0, 0, [⟨2, 1, .noop⟩], 0⟩ ++
    -- node 0 leads term 3; the delayed reply arrives
    elect 0 3 1 2 [(3, 2), (4, 2)] ++
    [Event.propose 0 12, .deliver (.appendReply 1 late ⟨1, true, 1, 3⟩) false,
      .heartbeat 0] ++
    exchange 3 ⟨3, 0, 1, 2, [⟨3, 2, .noop⟩, ⟨3, 3, .data 12⟩], 0⟩ false 0 ++
    exchange 3 ⟨3, 0, 0, 0, [⟨2, 1, .noop⟩, ⟨3, 2, .noop⟩, ⟨3, 3, .data 12⟩], 0⟩ true 3 ++
    -- node 2 steps down, leads term 4 with nodes 1 and 4 and commits another entry
    .deliver (.vote 2 ⟨false, 3, 0, 1, 2⟩) false :: elect 2 4 1 2 [(1, 1), (4, 3)] ++
    [Event.propose 2 13, .heartbeat 2] ++
    exchange 1 ⟨4, 2, 1, 2, [⟨4, 2, .noop⟩, ⟨4, 3, .data 13⟩], 0⟩ false 0 ++
    exchange 1 ⟨4, 2, 0, 0, [⟨2, 1, .noop⟩, ⟨4, 2, .noop⟩, ⟨4, 3, .data 13⟩], 0⟩ true 3 ++
    exchange 4 ⟨4, 2, 1, 2, [⟨4, 2, .noop⟩, ⟨4, 3, .data 13⟩], 0⟩ false 0 ++
    exchange 4 ⟨4, 2, 0, 0, [⟨2, 1, .noop⟩, ⟨4, 2, .noop⟩, ⟨4, 3, .data 13⟩], 0⟩ true 3

theorem applied_command_ne_of_lateReply : ¬∀ c : Cluster (Fin 5) Nat,
    Reaches step Fixed (start {0, 1, 2, 3, 4}) c → UniqueLeaders c → ∀ n m e e',
      e ∈ (c.nodes n).applied → e' ∈ (c.nodes m).applied → e.index = e'.index →
      e.command = e'.command := by
  intro hall
  obtain ⟨c, hc, huniq, hfirst, hsecond⟩ := exists_reaches step Fixed
    (start {0, 1, 2, 3, 4} : Cluster (Fin 5) Nat) lateReply
    (fun c => UniqueLeaders c ∧
      ⟨3, 3, .data 12⟩ ∈ (c.nodes 0).applied ∧ ⟨4, 3, .data 13⟩ ∈ (c.nodes 2).applied)
    (by decide +kernel)
  have hsame := hall c hc huniq 0 2 _ _ hfirst hsecond rfl
  simp at hsame

end Runs

end LiteDB.FixedMembership
