import LiteDB.RaftNodeSpec
import LiteDB.Runs

/-!
A replication group as a whole: the replicas and what is in flight between them.
A message stays deliverable until it is lost, so it may arrive late, twice, out
of order or never.
-/

namespace LiteDB.RaftCluster

open RaftNode RaftNodeSpec Runs RaftGroup

/-- An RPC request names its destination. A reply goes back to the thread that
sent the request, which still knows the request. `replicate` is a thread that
`_leader_loop` has started and that has not taken the lock yet. -/
inductive Message (Node α : Type) where
  | vote (dst : Node) (req : VoteRequest Node)
  | voteReply (req : VoteRequest Node) (r : VoteReply Node)
  | replicate (src peer : Node)
  | append (dst : Node) (req : AppendRequest Node α)
  | appendReply (peer : Node) (req : AppendRequest Node α) (r : AppendReply Node)
deriving DecidableEq

/-- The replicas and what is in flight between them. -/
structure Cluster (Node α : Type) where
  nodes : Node → RaftGroup Node α
  net : List (Message Node α)

/-- What can happen next. `recent` resolves the clock test in `handle_vote`, and
`crash` stops a node in the middle of handling a message. -/
inductive Event (Node α : Type) where
  | timeout (n : Node)
  | heartbeat (n : Node)
  | deliver (m : Message Node α) (recent : Bool)
  | lose (m : Message Node α)
  | propose (n : Node) (payload : α)
  | reconfigure (n : Node) (voters : Finset Node)
  | restart (n : Node)
  | crash (m : Message Node α) (count : Nat)
deriving DecidableEq

section Scripts

variable {Node α : Type}

/-- Nodes grant a vote, each in a term of its own, and then their replies arrive. -/
def gather (req : VoteRequest Node) (grants : List (Node × Nat)) : List (Event Node α) :=
  grants.map (fun v => .deliver (.vote v.1 req) false) ++
    grants.map fun v => .deliver (.voteReply req ⟨v.2, true, v.1, req.preVote⟩) false

/-- A node times out and is elected by the nodes of `grants`, which are in earlier terms. -/
def elect (candidate : Node) (term lastIndex lastTerm : Nat) (grants : List (Node × Nat)) :
    List (Event Node α) :=
  .timeout candidate :: gather ⟨true, term, candidate, lastIndex, lastTerm⟩ grants ++
    gather ⟨false, term, candidate, lastIndex, lastTerm⟩ (grants.map fun v => (v.1, term))

def send (peer : Node) (req : AppendRequest Node α) : List (Event Node α) :=
  [.deliver (.replicate req.leaderId peer) false, .deliver (.append peer req) false]

def exchange (peer : Node) (req : AppendRequest Node α) (success : Bool) (matchIndex : Nat) :
    List (Event Node α) :=
  send peer req ++
    [.deliver (.appendReply peer req ⟨req.term, success, peer, matchIndex⟩) false]

end Scripts

variable {Node α : Type} [LinearOrder Node]

def start (voters : Finset Node) : Cluster Node α where
  nodes := fun n => create n voters
  net := []

def Cluster.put (c : Cluster Node α) (n : Node) (g : RaftGroup Node α)
    (out : List (Message Node α)) : Cluster Node α where
  nodes := fun m => if m = n then g else c.nodes m
  net := c.net ++ out

@[simp] theorem put_nodes_self (c : Cluster Node α) (n : Node) (g : RaftGroup Node α)
    (out : List (Message Node α)) : (c.put n g out).nodes n = g := by
  simp [Cluster.put]

theorem put_nodes_ne (c : Cluster Node α) {n m : Node} (g : RaftGroup Node α)
    (out : List (Message Node α)) (h : m ≠ n) : (c.put n g out).nodes m = c.nodes m := by
  simp [Cluster.put, h]

theorem forall_put {c : Cluster Node α} {n : Node} {g : RaftGroup Node α}
    {out : List (Message Node α)} {P : Node → RaftGroup Node α → Prop} (hself : P n g)
    (hrest : ∀ m, m ≠ n → P m (c.nodes m)) (m : Node) : P m ((c.put n g out).nodes m) := by
  by_cases hm : m = n
  · subst hm
    rwa [put_nodes_self]
  · rw [put_nodes_ne c g out hm]
    exact hrest m hm

@[simp] theorem put_net (c : Cluster Node α) (n : Node) (g : RaftGroup Node α)
    (out : List (Message Node α)) : (c.put n g out).net = c.net ++ out := rfl

def voteMessages (out : List (Node × VoteRequest Node)) : List (Message Node α) :=
  out.map fun p => .vote p.1 p.2

def heartbeatMessages (g : RaftGroup Node α) : List (Message Node α) :=
  g.peers.map fun p => .replicate g.nodeId p

def appendMessages (peer : Node) (req : Option (AppendRequest Node α)) :
    List (Message Node α) :=
  req.toList.map fun r => .append peer r

/-- What a message does at the node it reaches. -/
def Cluster.handle (c : Cluster Node α) (recent : Bool) : Message Node α → Cluster Node α
  | .vote dst req =>
      let (g, r) := (c.nodes dst).handleVote req recent
      c.put dst g [.voteReply req r]
  | .voteReply req r =>
      if req.preVote then
        let (g, out) := (c.nodes req.candidateId).requestPreVote r
        c.put req.candidateId g (voteMessages out)
      else c.put req.candidateId ((c.nodes req.candidateId).requestVote r) []
  | .replicate src peer =>
      c.put src (c.nodes src) (appendMessages peer ((c.nodes src).replicateTo peer))
  | .append dst req =>
      let (g, r) := (c.nodes dst).handleAppend req
      c.put dst g [.appendReply dst req r]
  | .appendReply peer req r =>
      c.put req.leaderId ((c.nodes req.leaderId).replicateReply peer r) []

/-- A crash inside the handler of a message, and the restart. The other handlers
write at most once, so a crash inside them is one before or after the step. -/
def Cluster.crash (c : Cluster Node α) (count : Nat) : Message Node α → Option (Cluster Node α)
  | .vote dst req => some (c.put dst ((c.nodes dst).crashInVote req) [])
  | .append dst req => some (c.put dst ((c.nodes dst).crashInAppend req count) [])
  | _ => none

variable [DecidableEq α]

def step (c : Cluster Node α) : Event Node α → Option (Cluster Node α)
  | .timeout n =>
      if (c.nodes n).role = .leader ∨ (c.nodes n).nodeId ∉ (c.nodes n).voters then none
      else
        let (g, out) := (c.nodes n).startPreElection
        some (c.put n g (voteMessages out))
  | .heartbeat n =>
      if (c.nodes n).role ≠ .leader then none
      else some (c.put n (c.nodes n) (heartbeatMessages (c.nodes n)))
  | .deliver m recent => if m ∈ c.net then some (c.handle recent m) else none
  | .lose m => some { c with net := c.net.erase m }
  | .propose n payload =>
      let (g, index) := (c.nodes n).propose (.data payload)
      index.map fun _ => c.put n g []
  | .reconfigure n voters =>
      let (g, index) := (c.nodes n).reconfigure voters
      index.map fun _ => c.put n g []
  | .restart n => some (c.put n (c.nodes n).restart [])
  | .crash m count => if m ∈ c.net then c.crash count m else none

section Transitions

/-- What an action does at the one node it concerns: the new state of the node
and the messages it sends. -/
inductive Transition (c : Cluster Node α) :
    Event Node α → Node → RaftGroup Node α → List (Message Node α) → Prop where
  | campaign (n : Node) (hrole : (c.nodes n).role ≠ .leader)
      (hvoter : (c.nodes n).nodeId ∈ (c.nodes n).voters) :
      Transition c (.timeout n) n (c.nodes n).startPreElection.1
        (voteMessages (c.nodes n).startPreElection.2)
  | heartbeat (n : Node) (hrole : (c.nodes n).role = .leader) :
      Transition c (.heartbeat n) n (c.nodes n) (heartbeatMessages (c.nodes n))
  | vote (n : Node) (req : VoteRequest Node) (recent : Bool) (hm : .vote n req ∈ c.net) :
      Transition c (.deliver (.vote n req) recent) n ((c.nodes n).handleVote req recent).1
        [.voteReply req ((c.nodes n).handleVote req recent).2]
  | preVoteReply (req : VoteRequest Node) (r : VoteReply Node) (recent : Bool)
      (hm : .voteReply req r ∈ c.net) (hpre : req.preVote = true) :
      Transition c (.deliver (.voteReply req r) recent) req.candidateId
        ((c.nodes req.candidateId).requestPreVote r).1
        (voteMessages ((c.nodes req.candidateId).requestPreVote r).2)
  | voteReply (req : VoteRequest Node) (r : VoteReply Node) (recent : Bool)
      (hm : .voteReply req r ∈ c.net) (hpre : req.preVote = false) :
      Transition c (.deliver (.voteReply req r) recent) req.candidateId
        ((c.nodes req.candidateId).requestVote r) []
  | replicate (n peer : Node) (recent : Bool) (hm : .replicate n peer ∈ c.net) :
      Transition c (.deliver (.replicate n peer) recent) n (c.nodes n)
        (appendMessages peer ((c.nodes n).replicateTo peer))
  | append (n : Node) (req : AppendRequest Node α) (recent : Bool)
      (hm : .append n req ∈ c.net) :
      Transition c (.deliver (.append n req) recent) n ((c.nodes n).handleAppend req).1
        [.appendReply n req ((c.nodes n).handleAppend req).2]
  | appendReply (peer : Node) (req : AppendRequest Node α) (r : AppendReply Node)
      (recent : Bool) (hm : .appendReply peer req r ∈ c.net) :
      Transition c (.deliver (.appendReply peer req r) recent) req.leaderId
        ((c.nodes req.leaderId).replicateReply peer r) []
  | propose (n : Node) (payload : α) (hrole : (c.nodes n).role = .leader) :
      Transition c (.propose n payload) n ((c.nodes n).propose (.data payload)).1 []
  | reconfigure (n : Node) (voters : Finset Node) (hrole : (c.nodes n).role = .leader)
      (hone : (symmDiff (c.nodes n).voters voters).card = 1) :
      Transition c (.reconfigure n voters) n ((c.nodes n).reconfigure voters).1 []
  | restart (n : Node) : Transition c (.restart n) n (c.nodes n).restart []
  | crashInVote (n : Node) (req : VoteRequest Node) (count : Nat) (hm : .vote n req ∈ c.net) :
      Transition c (.crash (.vote n req) count) n ((c.nodes n).crashInVote req) []
  | crashInAppend (n : Node) (req : AppendRequest Node α) (count : Nat)
      (hm : .append n req ∈ c.net) :
      Transition c (.crash (.append n req) count) n ((c.nodes n).crashInAppend req count) []

variable {c : Cluster Node α} {a : Event Node α} {n : Node} {g : RaftGroup Node α}
  {out : List (Message Node α)} {V : Finset Node}

theorem step_cases {c' : Cluster Node α} (h : step c a = some c') :
    (∃ m, a = .lose m ∧ c' = { c with net := c.net.erase m }) ∨
      ∃ n g out, Transition c a n g out ∧ c' = c.put n g out := by
  cases a with
  | timeout n =>
    simp only [step] at h
    split at h
    · simp at h
    · rename_i hguard
      push Not at hguard
      exact .inr ⟨n, _, _, .campaign n hguard.1 hguard.2, (Option.some.inj h).symm⟩
  | heartbeat n =>
    simp only [step] at h
    split at h
    · simp at h
    · rename_i hguard
      push Not at hguard
      exact .inr ⟨n, _, _, .heartbeat n hguard, (Option.some.inj h).symm⟩
  | deliver m recent =>
    simp only [step] at h
    split at h
    · rename_i hm
      right
      cases h
      cases m with
      | vote dst req => exact ⟨dst, _, _, .vote dst req recent hm, rfl⟩
      | voteReply req r =>
        simp only [Cluster.handle]
        split
        · rename_i hpre
          exact ⟨_, _, _, .preVoteReply req r recent hm hpre, rfl⟩
        · rename_i hpre
          exact ⟨_, _, _, .voteReply req r recent hm (by simpa using hpre), rfl⟩
      | replicate src peer => exact ⟨src, _, _, .replicate src peer recent hm, rfl⟩
      | append dst req => exact ⟨dst, _, _, .append dst req recent hm, rfl⟩
      | appendReply peer req r => exact ⟨_, _, _, .appendReply peer req r recent hm, rfl⟩
    · simp at h
  | lose m => exact .inl ⟨m, rfl, (Option.some.inj h).symm⟩
  | propose n payload =>
    right
    simp only [step, propose] at h
    split at h
    · simp at h
    · rename_i hrole
      push Not at hrole
      refine ⟨n, _, _, .propose n payload hrole, ?_⟩
      simpa [propose, hrole] using h.symm
  | reconfigure n voters =>
    right
    simp only [step, reconfigure] at h
    split at h
    · simp at h
    · rename_i hrole
      push Not at hrole
      split at h
      · simp at h
      · rename_i hone
        push Not at hone
        refine ⟨n, _, _, .reconfigure n voters hrole hone, ?_⟩
        simpa [reconfigure, propose, hrole, hone] using h.symm
  | restart n => exact .inr ⟨n, _, _, .restart n, (Option.some.inj h).symm⟩
  | crash m count =>
    right
    simp only [step] at h
    split at h
    · rename_i hm
      cases m with
      | vote dst req =>
        exact ⟨dst, _, _, .crashInVote dst req count hm, (Option.some.inj h).symm⟩
      | append dst req =>
        exact ⟨dst, _, _, .crashInAppend dst req count hm, (Option.some.inj h).symm⟩
      | voteReply req r => simp [Cluster.crash] at h
      | replicate src peer => simp [Cluster.crash] at h
      | appendReply peer req r => simp [Cluster.crash] at h
    · simp at h

omit [DecidableEq α] in
theorem Transition.consistent (h : Transition c a n g out) (hn : Consistent n V (c.nodes n)) :
    Consistent n V g := by
  cases h with
  | campaign => exact hn.startPreElection
  | heartbeat => exact hn
  | vote => exact hn.handleVote _ _
  | preVoteReply => exact hn.requestPreVote _
  | voteReply => exact hn.requestVote _
  | replicate => exact hn
  | append => exact hn.handleAppend _
  | appendReply => exact hn.replicateReply _ _
  | propose => exact hn.propose _
  | reconfigure => exact hn.reconfigure _
  | restart => exact hn.restart
  | crashInVote => exact hn.crashInVote _
  | crashInAppend => exact hn.crashInAppend _ _

omit [DecidableEq α] in
/-- Only a reply that completes an election makes a node announce a term. -/
theorem Transition.won_cases (h : Transition c a n g out) (hn : Consistent n V (c.nodes n)) :
    g.won = (c.nodes n).won ∨
      ∃ req r recent, a = .deliver (.voteReply req r) recent ∧ .voteReply req r ∈ c.net ∧
        req.preVote = false ∧ req.candidateId = n ∧ out = [] ∧
        (c.nodes n).role = .candidate ∧ r.term = (c.nodes n).currentTerm ∧
        r.voteGranted = true ∧ ((c.nodes n).recordVote r.voterId).voteCarried ∧
        g = ((c.nodes n).recordVote r.voterId).becomeLeader := by
  cases h with
  | campaign => exact .inl (sameLog_startPreElection _).won
  | heartbeat => exact .inl rfl
  | vote _ req recent => exact .inl (sameLog_handleVote hn req recent).won
  | preVoteReply req r => exact .inl (sameLog_requestPreVote hn r).won
  | voteReply req r recent hm hpre =>
    rcases requestVote_cases hn r with ⟨hrole, hterm, hyes, hcarried, heq⟩ | hsame
    · exact .inr ⟨req, r, recent, rfl, hm, hpre, rfl, rfl, hrole, hterm, hyes, hcarried, heq⟩
    · exact .inl hsame.won
  | replicate => exact .inl rfl
  | append _ req => exact .inl (handleAppend_won hn req)
  | appendReply peer req r => exact .inl (replicateReply_won hn peer r)
  | propose _ payload hrole =>
    rw [propose_eq hrole]
    exact .inl rfl
  | reconfigure _ voters hrole hone =>
    obtain ⟨next, matched, heq, -⟩ := reconfigure_eq hn hrole hone
    rw [heq]
    exact .inl rfl
  | restart => exact .inl (restart_won hn)
  | crashInVote _ req => exact .inl (crashInVote_won hn req)
  | crashInAppend _ req count => exact .inl (crashInAppend_won hn req count)

omit [DecidableEq α] in
theorem Transition.advances (h : Transition c a n g out) (hn : Consistent n V (c.nodes n))
    (hwon : g.won = (c.nodes n).won) : Advances (c.nodes n) g := by
  cases h with
  | campaign => exact advances_startPreElection _
  | heartbeat => exact Advances.refl _
  | vote _ req recent => exact advances_handleVote hn req recent
  | preVoteReply req r => exact advances_requestPreVote hn r
  | voteReply req r => exact advances_requestVote hn r hwon
  | replicate => exact Advances.refl _
  | append _ req => exact advances_handleAppend hn req
  | appendReply peer req r => exact advances_replicateReply hn peer r
  | propose _ payload hrole =>
    rw [propose_eq hrole]
    exact SameBallot.advances ⟨rfl, rfl, rfl, rfl, .inl rfl⟩
  | reconfigure _ voters hrole hone =>
    obtain ⟨next, matched, heq, -⟩ := reconfigure_eq hn hrole hone
    rw [heq]
    exact SameBallot.advances ⟨rfl, rfl, rfl, rfl, .inl rfl⟩
  | restart => exact advances_restart hn
  | crashInVote _ req => exact advances_crashInVote hn req
  | crashInAppend _ req count => exact advances_crashInAppend hn req count

omit [DecidableEq α] in
/-- A log stays, grows by an entry of a leader, or is changed by an append request. -/
theorem Transition.log_cases (h : Transition c a n g out) (hn : Consistent n V (c.nodes n)) :
    g.log = (c.nodes n).log ∨
      (((c.nodes n).role = .leader ∨ g.won ≠ (c.nodes n).won) ∧
        ∃ e, g.log = (c.nodes n).log ++ [e]) ∨
      (∃ req recent, a = .deliver (.append n req) recent ∧ .append n req ∈ c.net ∧
        g = ((c.nodes n).handleAppend req).1) ∨
      ∃ req count, a = .crash (.append n req) count ∧ .append n req ∈ c.net ∧
        g = (c.nodes n).crashInAppend req count := by
  cases h with
  | campaign => exact .inl (sameLog_startPreElection _).log
  | heartbeat => exact .inl rfl
  | vote _ req recent => exact .inl (sameLog_handleVote hn req recent).log
  | preVoteReply req r => exact .inl (sameLog_requestPreVote hn r).log
  | voteReply req r =>
    rcases requestVote_cases hn r with ⟨-, -, -, -, heq⟩ | hsame
    · rw [heq]
      refine .inr (.inl ⟨.inr fun hwon => ?_, _, rfl⟩)
      simp [becomeLeader, appendEntry, appendLogPersist, recordVote] at hwon
    · exact .inl hsame.log
  | replicate => exact .inl rfl
  | append _ req recent hm => exact .inr (.inr (.inl ⟨req, recent, rfl, hm, rfl⟩))
  | appendReply peer req r => exact .inl (replicateReply_log hn peer r)
  | propose _ payload hrole =>
    rw [propose_eq hrole]
    exact .inr (.inl ⟨.inl hrole, _, rfl⟩)
  | reconfigure _ voters hrole hone =>
    obtain ⟨next, matched, heq, -⟩ := reconfigure_eq hn hrole hone
    rw [heq]
    exact .inr (.inl ⟨.inl hrole, _, rfl⟩)
  | restart => exact .inl (restart_log hn)
  | crashInVote _ req =>
    left
    unfold RaftGroup.crashInVote
    split
    · rw [restart_log hn]
    · rw [restart_log (hn.adoptTerm _), (sameLog_adoptTerm hn _).log]
  | crashInAppend _ req count hm => exact .inr (.inr (.inr ⟨req, count, rfl, hm, rfl⟩))

omit [DecidableEq α] in
/-- Only a leader sends append requests, in its own term and with its commit index. -/
theorem Transition.sends (h : Transition c a n g out) {dst : Node} {req : AppendRequest Node α}
    (hm : .append dst req ∈ out) :
    (c.nodes n).role = .leader ∧ g = c.nodes n ∧ req.term = g.currentTerm ∧
      req.leaderCommit = g.commitIndex := by
  cases h with
  | campaign | preVoteReply => simp [voteMessages] at hm
  | heartbeat => simp [heartbeatMessages] at hm
  | replicate _ peer =>
    obtain ⟨r, hr, heq⟩ := List.mem_map.mp hm
    obtain ⟨rfl, rfl⟩ := Message.append.inj heq
    have hreq := Option.mem_toList.mp hr
    unfold replicateTo at hreq
    split at hreq
    · simp at hreq
    · rename_i hrole
      push Not at hrole
      cases hreq
      exact ⟨hrole, rfl, rfl, rfl⟩
  | vote | append => simp at hm
  | voteReply | appendReply | propose | reconfigure | restart | crashInVote | crashInAppend =>
    simp at hm

theorem consistent_of_reaches {ok : Cluster Node α → Event Node α → Prop}
    (h : Reaches step ok (start V) c) (n : Node) : Consistent n V (c.nodes n) := by
  refine h.invariant (fun c => ∀ n, Consistent n V (c.nodes n)) ?_ ?_ n
  · exact fun n => ⟨rfl, rfl, rfl, rfl, rfl, rfl⟩
  · intro u a w hu _ hstep m
    rcases step_cases hstep with ⟨_, -, rfl⟩ | ⟨n, g, out, htrans, rfl⟩
    · exact hu m
    · by_cases hmn : m = n
      · subst hmn
        rw [put_nodes_self]
        exact htrans.consistent (hu m)
      · rw [put_nodes_ne u g out hmn]
        exact hu m

end Transitions

end LiteDB.RaftCluster
