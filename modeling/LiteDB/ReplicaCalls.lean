import LiteDB.RaftCluster

namespace LiteDB.ReplicaCalls

open RaftCluster RaftNode RaftNodeSpec Runs RaftGroup

variable {Node α : Type}

/-- The calls that reach one replica, with any arguments. -/
inductive Call (Node α : Type) where
  | timeout
  | vote (req : VoteRequest Node) (recent : Bool)
  | preVoteReply (r : VoteReply Node)
  | voteReply (r : VoteReply Node)
  | append (req : AppendRequest Node α)
  | appendReply (peer : Node) (r : AppendReply Node)
  | propose (payload : α)
  | reconfigure (voters : Finset Node)
  | restart
  | crashInVote (req : VoteRequest Node)
  | crashInAppend (req : AppendRequest Node α) (count : Nat)

/-- The process ends and is started again. -/
def Call.Restarts : Call Node α → Prop
  | .restart | .crashInVote _ | .crashInAppend _ _ => True
  | _ => False

instance (a : Call Node α) : Decidable a.Restarts := by
  unfold Call.Restarts
  split <;> infer_instance

variable [LinearOrder Node]

def call (g : RaftGroup Node α) : Call Node α → Option (RaftGroup Node α)
  | .timeout =>
      if g.role = .leader ∨ g.nodeId ∉ g.voters then none else some g.startPreElection.1
  | .vote req recent => some (g.handleVote req recent).1
  | .preVoteReply r => some (g.requestPreVote r).1
  | .voteReply r => some (g.requestVote r)
  | .append req => some (g.handleAppend req).1
  | .appendReply peer r => some (g.replicateReply peer r)
  | .propose payload => (g.propose (.data payload)).2.map fun _ => (g.propose (.data payload)).1
  | .reconfigure voters => (g.reconfigure voters).2.map fun _ => (g.reconfigure voters).1
  | .restart => some g.restart
  | .crashInVote req => some (g.crashInVote req)
  | .crashInAppend req count => some (g.crashInAppend req count)

variable {n : Node} {V : Finset Node} {g g' : RaftGroup Node α}

theorem role_of_propose {payload : α} (h : call g (.propose payload) = some g') :
    g.role = .leader ∧ g' = g.appendEntry (.data payload) := by
  simp only [call, propose] at h
  split_ifs at h with hrole
  · simp at h
  · exact ⟨not_not.mp hrole, by simpa using h.symm⟩

theorem role_of_reconfigure {voters : Finset Node} (h : call g (.reconfigure voters) = some g') :
    g.role = .leader ∧ (symmDiff g.voters voters).card = 1 ∧ g' = (g.reconfigure voters).1 := by
  have hrole : g.role = .leader := by
    by_contra hrole
    simp [call, reconfigure, hrole] at h
  have hone : (symmDiff g.voters voters).card = 1 := by
    by_contra hone
    simp [call, reconfigure, hrole, hone] at h
  refine ⟨hrole, hone, ?_⟩
  simpa [call, reconfigure, propose, hrole, hone] using h.symm

theorem consistent_create (n : Node) (V : Finset Node) :
    Consistent n V (create n V : RaftGroup Node α) :=
  ⟨rfl, rfl, rfl, rfl, rfl, rfl⟩

theorem consistent_of_call {a : Call Node α} (hg : Consistent n V g) (h : call g a = some g') :
    Consistent n V g' := by
  cases a with
  | timeout =>
    obtain ⟨-, heq⟩ := Option.ite_none_left_eq_some.mp h
    exact Option.some.inj heq ▸ hg.startPreElection
  | vote req recent => exact Option.some.inj h ▸ hg.handleVote req recent
  | preVoteReply r => exact Option.some.inj h ▸ hg.requestPreVote r
  | voteReply r => exact Option.some.inj h ▸ hg.requestVote r
  | append req => exact Option.some.inj h ▸ hg.handleAppend req
  | appendReply peer r => exact Option.some.inj h ▸ hg.replicateReply peer r
  | propose payload =>
    obtain ⟨-, rfl⟩ := role_of_propose h
    exact hg.appendEntry _
  | reconfigure voters =>
    obtain ⟨-, -, rfl⟩ := role_of_reconfigure h
    exact hg.reconfigure voters
  | restart => exact Option.some.inj h ▸ hg.restart
  | crashInVote req => exact Option.some.inj h ▸ hg.crashInVote req
  | crashInAppend req count => exact Option.some.inj h ▸ hg.crashInAppend req count

theorem consistent_of_calls {ok : RaftGroup Node α → Call Node α → Prop}
    (h : Reaches call ok (create n V) g) : Consistent n V g :=
  h.invariant (Consistent n V) (consistent_create n V) fun _ _ _ hu _ => consistent_of_call hu

section Clusters

variable {c c' : Cluster Node α}

theorem exists_call_of_transition {a : Event Node α} {out : List (Message Node α)}
    (h : Transition c a n g out) : g = c.nodes n ∨ ∃ b, call (c.nodes n) b = some g := by
  cases h with
  | campaign _ hrole hvoter => exact .inr ⟨.timeout, if_neg (by simp [hrole, hvoter])⟩
  | heartbeat => exact .inl rfl
  | vote _ req recent => exact .inr ⟨.vote req recent, rfl⟩
  | preVoteReply req r => exact .inr ⟨.preVoteReply r, rfl⟩
  | voteReply req r => exact .inr ⟨.voteReply r, rfl⟩
  | replicate => exact .inl rfl
  | append _ req => exact .inr ⟨.append req, rfl⟩
  | appendReply peer req r => exact .inr ⟨.appendReply peer r, rfl⟩
  | propose _ payload hrole =>
    exact .inr ⟨.propose payload, by simp [call, propose, hrole]⟩
  | reconfigure _ voters hrole hone =>
    refine .inr ⟨.reconfigure voters, ?_⟩
    simp [call, reconfigure, propose, hrole, hone]
  | restart => exact .inr ⟨.restart, rfl⟩
  | crashInVote _ req => exact .inr ⟨.crashInVote req, rfl⟩
  | crashInAppend _ req count => exact .inr ⟨.crashInAppend req count, rfl⟩

variable [DecidableEq α]

theorem calls_of_reaches {ok : Cluster Node α → Event Node α → Prop}
    (h : Reaches step ok (start V) c) (n : Node) :
    Reaches call (fun _ _ => True) (create n V) (c.nodes n) := by
  refine h.project (fun c : Cluster Node α => c.nodes n) fun u a w _ hstep => ?_
  rcases step_cases hstep with ⟨m, -, rfl⟩ | ⟨k, g, out, htrans, rfl⟩
  · exact .inl rfl
  · by_cases hk : n = k
    · subst hk
      rw [put_nodes_self]
      rcases exists_call_of_transition htrans with hsame | ⟨b, hb⟩
      · exact .inl hsame
      · exact .inr ⟨b, trivial, hb⟩
    · exact .inl (put_nodes_ne u g out hk)

end Clusters

end LiteDB.ReplicaCalls
