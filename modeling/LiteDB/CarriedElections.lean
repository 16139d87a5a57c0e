import LiteDB.ReplicaCalls

namespace LiteDB.CarriedElections

open Finset RaftNode RaftNodeSpec ReplicaCalls Runs RaftGroup

variable {Node α : Type} [LinearOrder Node] {n : Node} {V : Finset Node}
  {g g' : RaftGroup Node α}

/-- A candidate whose votes do not reach a majority of the voters, or no candidate. -/
def Undecided (g : RaftGroup Node α) : Prop := g.role = .candidate → ¬g.voteCarried

/-- No election starts at a replica that is the only voter. -/
def Contested (g : RaftGroup Node α) : Call Node α → Prop
  | .timeout | .preVoteReply _ => g.voters ≠ {g.nodeId}
  | _ => True

instance (g : RaftGroup Node α) (a : Call Node α) : Decidable (Contested g a) := by
  induction a using Call.casesOn <;> unfold Contested <;> infer_instance

theorem undecided_of_role (h : g.role ≠ .candidate) : Undecided g := fun hrole => absurd hrole h

theorem Undecided.congr (h : Undecided g) (hrole : g'.role = g.role)
    (hvoters : g'.voters = g.voters) (hvotes : g'.votesReceived = g.votesReceived) :
    Undecided g' := by
  intro hcandidate hcarried
  refine h (hrole ▸ hcandidate) ?_
  unfold voteCarried majority at hcarried ⊢
  rwa [hvoters, hvotes] at hcarried

theorem Undecided.becomeFollower (g : RaftGroup Node α) (term : Nat) :
    Undecided (g.becomeFollower term) := by
  refine undecided_of_role ?_
  unfold RaftGroup.becomeFollower
  split
  · exact Role.noConfusion
  · exact Role.noConfusion

/-- The vote of the candidate for itself is a majority only if there is no other voter. -/
theorem undecided_becomeCandidate (h : g.voters ≠ {g.nodeId}) : Undecided g.becomeCandidate := by
  intro _ hcarried
  have hcarried : g.voters.card / 2 + 1 ≤ ({g.nodeId} ∩ g.voters).card := hcarried
  by_cases hmem : g.nodeId ∈ g.voters
  · rw [singleton_inter_of_mem hmem, card_singleton] at hcarried
    have hle : g.voters.card ≤ 1 := by omega
    refine h (eq_singleton_iff_unique_mem.mpr ⟨hmem, fun x hx => ?_⟩)
    exact card_le_one.mp hle x hx g.nodeId hmem
  · rw [singleton_inter_of_notMem hmem, card_empty] at hcarried
    omega

theorem Undecided.startPreElection (h : Undecided g) (hvoters : g.voters ≠ {g.nodeId}) :
    Undecided g.startPreElection.1 := by
  unfold RaftGroup.startPreElection
  split
  · exact undecided_becomeCandidate hvoters
  · exact h.congr rfl rfl rfl

theorem Undecided.requestPreVote (h : Undecided g) (hvoters : g.voters ≠ {g.nodeId})
    (r : VoteReply Node) : Undecided (g.requestPreVote r).1 := by
  unfold RaftGroup.requestPreVote
  split_ifs
  · exact h
  · exact Undecided.becomeFollower g _
  · exact undecided_becomeCandidate hvoters
  · exact h.congr rfl rfl rfl
  · exact h

theorem Undecided.requestVote (h : Undecided g) (r : VoteReply Node) :
    Undecided (g.requestVote r) := by
  unfold RaftGroup.requestVote
  split_ifs with _ _ _ hcarried
  · exact h
  · exact Undecided.becomeFollower g _
  · exact undecided_of_role Role.noConfusion
  · exact fun _ => hcarried
  · exact h

theorem Undecided.adoptTerm (h : Undecided g) (term : Nat) : Undecided (g.adoptTerm term) := by
  unfold RaftGroup.adoptTerm
  split
  · exact Undecided.becomeFollower g _
  · exact h

theorem Undecided.handleVote (h : Undecided g) (req : VoteRequest Node) (recent : Bool) :
    Undecided (g.handleVote req recent).1 := by
  unfold RaftGroup.handleVote
  split_ifs
  · exact h
  · exact (h.adoptTerm req.term).congr rfl rfl rfl
  · exact h.adoptTerm req.term

theorem undecided_of_sameBallot (h : SameBallot g g') (hrole : g.role ≠ .candidate) :
    Undecided g' := by
  refine undecided_of_role ?_
  rcases h.role with hsame | hfollower
  · exact hsame ▸ hrole
  · exact hfollower ▸ Role.noConfusion

theorem Undecided.handleAppend (h : Undecided g) (hg : Consistent n V g)
    (req : AppendRequest Node α) : Undecided (g.handleAppend req).1 := by
  unfold RaftGroup.handleAppend
  split
  · exact h
  next hold =>
    obtain ⟨role, voted, heq, hcases⟩ := acceptLeader_adoptTerm_eq hg (Nat.le_of_not_lt hold)
    have hballot := sameBallot_appendAfter ((hg.adoptTerm req.term).acceptLeader req) req
    refine undecided_of_sameBallot hballot ?_
    rw [heq]
    -- a request of the current term or a later one ends a candidacy
    rcases hcases with ⟨-, hne, hsame, -⟩ | ⟨-, hfollower, -⟩
    · exact hsame ▸ hne
    · exact hfollower ▸ Role.noConfusion

theorem Undecided.replicateReply (h : Undecided g) (peer : Node) (r : AppendReply Node) :
    Undecided (g.replicateReply peer r) := by
  unfold RaftGroup.replicateReply
  split_ifs with _ hrole
  · exact Undecided.becomeFollower g _
  · exact h
  · refine undecided_of_sameBallot (commits_advanceCommit _).sameBallot ?_
    exact (not_not.mp hrole : g.role = .leader) ▸ Role.noConfusion
  · exact h.congr rfl rfl rfl

theorem undecided_restart (hg : Consistent n V g) : Undecided g.restart := by
  obtain ⟨next, matched, heq, -⟩ := restart_eq hg
  refine undecided_of_role ?_
  rw [heq]
  exact Role.noConfusion

theorem Undecided.call {a : Call Node α} (h : Undecided g) (hg : Consistent n V g)
    (ha : Contested g a) (hstep : ReplicaCalls.call g a = some g') : Undecided g' := by
  cases a with
  | timeout =>
    obtain ⟨-, heq⟩ := Option.ite_none_left_eq_some.mp hstep
    exact Option.some.inj heq ▸ h.startPreElection ha
  | vote req recent => exact Option.some.inj hstep ▸ h.handleVote req recent
  | preVoteReply r => exact Option.some.inj hstep ▸ h.requestPreVote ha r
  | voteReply r => exact Option.some.inj hstep ▸ h.requestVote r
  | append req => exact Option.some.inj hstep ▸ h.handleAppend hg req
  | appendReply peer r => exact Option.some.inj hstep ▸ h.replicateReply peer r
  | propose payload =>
    obtain ⟨-, rfl⟩ := role_of_propose hstep
    exact h.congr rfl rfl rfl
  | reconfigure voters =>
    obtain ⟨hrole, hone, rfl⟩ := role_of_reconfigure hstep
    obtain ⟨next, matched, heq, -⟩ := reconfigure_eq hg hrole hone
    refine undecided_of_role ?_
    rw [heq]
    exact hrole ▸ Role.noConfusion
  | restart => exact Option.some.inj hstep ▸ undecided_restart hg
  | crashInVote req =>
    cases hstep
    unfold crashInVote
    split
    · exact undecided_restart hg
    · exact undecided_restart (hg.adoptTerm _)
  | crashInAppend req count =>
    cases hstep
    rcases crashInAppend_cases hg req count with ⟨-, heq⟩ | ⟨-, a, stored, rfl, -, -, -, heq⟩
    · exact heq ▸ undecided_restart hg
    · exact heq ▸ undecided_restart (((hg.adoptTerm _).acceptLeader req).withLog _)

/-- In every run without an election at a replica that is its only voter, a majority of
votes makes a leader. -/
theorem not_carried_of_contested (h : Reaches call Contested (create n V) g) :
    ¬(g.role = .candidate ∧ g.voteCarried) := by
  have hboth : Consistent n V g ∧ Undecided g := by
    refine h.invariant (fun g => Consistent n V g ∧ Undecided g)
      ⟨consistent_create n V, undecided_of_role Role.noConfusion⟩ fun u a w hu ha hw => ?_
    exact ⟨consistent_of_call hu.1 hw, hu.2.call hu.1 ha hw⟩
  exact fun ⟨hrole, hcarried⟩ => hboth.2 hrole hcarried

def twoVotes : List (Call (Fin 5) Nat) :=
  [.timeout, .preVoteReply ⟨0, true, 1, true⟩, .preVoteReply ⟨0, true, 2, true⟩,
    .voteReply ⟨1, true, 1, false⟩]

theorem not_carried_of_two_votes : ∃ g : RaftGroup (Fin 5) Nat,
    Reaches call Contested (create 0 {0, 1, 2, 3, 4}) g ∧
      (g.role = .candidate ∧ g.votesReceived = {0, 1}) ∧
      ¬(g.role = .candidate ∧ g.voteCarried) := by
  obtain ⟨g, hg, htest⟩ := exists_reaches call Contested
    (create 0 {0, 1, 2, 3, 4} : RaftGroup (Fin 5) Nat) twoVotes
    (fun g => g.role = .candidate ∧ g.votesReceived = {0, 1}) (by decide +kernel)
  exact ⟨g, hg, htest, not_carried_of_contested hg⟩

/-- The group of one node, which the placement driver has when there are fewer than three
nodes: its first timeout leaves it a candidate with a majority. -/
theorem carried_of_single_voter :
    ¬∀ (n : Fin 3) (V : Finset (Fin 3)) (g : RaftGroup (Fin 3) Nat),
      Reaches call (fun _ _ => True) (create n V) g →
        ¬(g.role = .candidate ∧ g.voteCarried) := by
  intro hall
  obtain ⟨g, hg, htest⟩ := exists_reaches call (fun _ _ => True)
    (create 0 {0} : RaftGroup (Fin 3) Nat) [.timeout]
    (fun g => g.role = .candidate ∧ g.voteCarried) (by decide +kernel)
  exact hall 0 {0} g hg (htest)

end LiteDB.CarriedElections
