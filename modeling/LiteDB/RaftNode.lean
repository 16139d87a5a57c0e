import Mathlib.Algebra.GroupWithZero.Nat
import Mathlib.Data.Finset.Card
import Mathlib.Data.List.Sort

/-!
One Raft replica of one replication group (`raft_node.py`). Every section that
the source runs under `_lock` is one function on the replica's state. A test on
the monotonic clock is an argument of the function, since a clock may let it
come out either way, and the thread that waits for an RPC reply is a function
of the reply.
-/

namespace LiteDB.RaftNode

scoped instance lawfulBEq {Node : Type} [LinearOrder Node] : LawfulBEq Node := inferInstance

scoped instance three_neZero : NeZero 3 := ⟨by decide⟩

scoped instance five_neZero : NeZero 5 := ⟨by decide⟩

/-- Python's `sorted` on a set. -/
def sorted {Node : Type} [LinearOrder Node] (s : Finset Node) : List Node :=
  Quot.liftOn s.val (fun l => l.insertionSort (· ≤ ·)) fun _ _ h =>
    List.Perm.eq_of_pairwise (fun _ _ _ _ => le_antisymm)
      (List.pairwise_insertionSort _ _) (List.pairwise_insertionSort _ _)
      ((List.perm_insertionSort _ _).trans (h.trans (List.perm_insertionSort _ _).symm))

inductive Role where
  | follower
  | candidate
  | leader
deriving DecidableEq

/-- A log command: the election no-op, a configuration, or a command of the
state machine that the group drives. -/
inductive Command (Node α : Type) where
  | noop
  | config (voters : Finset Node)
  | data (payload : α)
deriving DecidableEq

/-- An entry of a log. -/
structure Entry (Node α : Type) where
  term : Nat
  index : Nat
  command : Command Node α
deriving DecidableEq

/-- The request of a vote or of a pre-vote. -/
structure VoteRequest (Node : Type) where
  preVote : Bool
  term : Nat
  candidateId : Node
  lastLogIndex : Nat
  lastLogTerm : Nat
deriving DecidableEq

structure VoteReply (Node : Type) where
  term : Nat
  voteGranted : Bool
  voterId : Node
  preVote : Bool
deriving DecidableEq

/-- The request of `_replicate_to`. -/
structure AppendRequest (Node α : Type) where
  term : Nat
  leaderId : Node
  prevLogIndex : Nat
  prevLogTerm : Nat
  entries : List (Entry Node α)
  leaderCommit : Nat
deriving DecidableEq

structure AppendReply (Node : Type) where
  term : Nat
  success : Bool
  followerId : Node
  matchIndex : Nat
deriving DecidableEq

/-- The state of a replica. `metaTerm`, `metaVotedFor` and `diskLog` are the two
files under its data directory. `won` and `applied` are what the replica has
reported so far through `on_event` (the terms it announced itself leader of) and
through `apply_fn`; they survive a restart because an observer keeps them. -/
structure RaftGroup (Node α : Type) where
  nodeId : Node
  initialVoters : Finset Node
  voters : Finset Node
  peers : List Node
  currentTerm : Nat
  votedFor : Option Node
  log : List (Entry Node α)
  metaTerm : Nat
  metaVotedFor : Option Node
  diskLog : List (Entry Node α)
  commitIndex : Nat
  lastApplied : Nat
  lastAppliedTerm : Nat
  role : Role
  leaderId : Option Node
  votesReceived : Finset Node
  preVotes : Finset Node
  preVoteTerm : Nat
  nextIndex : Node → Option Nat
  matchIndex : Node → Option Nat
  won : List Nat
  applied : List (Entry Node α)

section Log

variable {Node α : Type}

/-- The term at a one-based log position, zero outside the log. -/
def termAt (log : List (Entry Node α)) (i : Nat) : Nat :=
  if i = 0 then 0 else ((log[i - 1]?).map Entry.term).getD 0

def lastLogTerm (log : List (Entry Node α)) : Nat := termAt log log.length

def Entry.config? (e : Entry Node α) : Option (Finset Node) :=
  match e.command with
  | .config voters => some voters
  | _ => none

def latestConfig (initial : Finset Node) (log : List (Entry Node α)) : Finset Node :=
  (log.reverse.findSome? Entry.config?).getD initial

end Log

namespace RaftGroup

variable {Node α : Type} [LinearOrder Node]

def majority (g : RaftGroup Node α) : Nat := g.voters.card / 2 + 1

def persistMeta (g : RaftGroup Node α) : RaftGroup Node α :=
  { g with metaTerm := g.currentTerm, metaVotedFor := g.votedFor }

def appendLogPersist (g : RaftGroup Node α) (entry : Entry Node α) : RaftGroup Node α :=
  { g with diskLog := g.diskLog ++ [entry] }

def rewriteLog (g : RaftGroup Node α) : RaftGroup Node α :=
  { g with diskLog := g.log }

/-- `setdefault` keeps what an earlier leadership of this process left behind. -/
def setVoters (g : RaftGroup Node α) (voters : Finset Node) : RaftGroup Node α :=
  if voters = g.voters then g
  else
    { g with
      voters := voters
      peers := sorted (voters.erase g.nodeId)
      nextIndex := fun p =>
        if p ∈ sorted (voters.erase g.nodeId)
        then some ((g.nextIndex p).getD (g.log.length + 1)) else g.nextIndex p
      matchIndex := fun p =>
        if p ∈ sorted (voters.erase g.nodeId)
        then some ((g.matchIndex p).getD 0) else g.matchIndex p }

def refreshVotersFromLog (g : RaftGroup Node α) : RaftGroup Node α :=
  g.setVoters (latestConfig g.initialVoters g.log)

def create (nodeId : Node) (voters : Finset Node) : RaftGroup Node α where
  nodeId := nodeId
  initialVoters := voters
  voters := voters
  peers := sorted (voters.erase nodeId)
  currentTerm := 0
  votedFor := none
  log := []
  metaTerm := 0
  metaVotedFor := none
  diskLog := []
  commitIndex := 0
  lastApplied := 0
  lastAppliedTerm := 0
  role := .follower
  leaderId := none
  votesReceived := ∅
  preVotes := ∅
  preVoteTerm := 0
  nextIndex := fun _ => none
  matchIndex := fun _ => none
  won := []
  applied := []

/-- A crash followed by the constructor and `_recover`: only the two files
survive. -/
def restart (g : RaftGroup Node α) : RaftGroup Node α :=
  let fresh : RaftGroup Node α := create g.nodeId g.initialVoters
  refreshVotersFromLog
    { fresh with
      currentTerm := g.metaTerm
      votedFor := g.metaVotedFor
      log := g.diskLog
      metaTerm := g.metaTerm
      metaVotedFor := g.metaVotedFor
      diskLog := g.diskLog
      won := g.won
      applied := g.applied }

def becomeFollower (g : RaftGroup Node α) (term : Nat) : RaftGroup Node α :=
  if term ≠ g.currentTerm ∨ g.votedFor ≠ none then
    persistMeta { g with role := .follower, currentTerm := term, votedFor := none }
  else { g with role := .follower, currentTerm := term, votedFor := none }

def appendEntry (g : RaftGroup Node α) (command : Command Node α) : RaftGroup Node α :=
  appendLogPersist
    { g with log := g.log ++ [⟨g.currentTerm, g.log.length + 1, command⟩] }
    ⟨g.currentTerm, g.log.length + 1, command⟩

/-- A leader starts with its no-op in the log. Positions recorded for nodes
that are not peers at this moment stay as an earlier leadership left them. -/
def becomeLeader (g : RaftGroup Node α) : RaftGroup Node α :=
  appendEntry
    { g with
      role := .leader
      leaderId := some g.nodeId
      nextIndex := fun p => if p ∈ g.peers then some (g.log.length + 1) else g.nextIndex p
      matchIndex := fun p => if p ∈ g.peers then some 0 else g.matchIndex p
      won := g.won ++ [g.currentTerm] }
    .noop

def voteRequest (g : RaftGroup Node α) (preVote : Bool) (term : Nat) : VoteRequest Node :=
  ⟨preVote, term, g.nodeId, g.log.length, lastLogTerm g.log⟩

def becomeCandidate (g : RaftGroup Node α) : RaftGroup Node α :=
  persistMeta
    { g with
      role := .candidate
      currentTerm := g.currentTerm + 1
      votedFor := some g.nodeId
      votesReceived := {g.nodeId} }

/-- The second component lists the requests that the spawned threads send. -/
def startElection (g : RaftGroup Node α) : RaftGroup Node α × List (Node × VoteRequest Node) :=
  (g.becomeCandidate,
    g.peers.map fun p => (p, g.voteRequest false (g.currentTerm + 1)))

def openPreVote (g : RaftGroup Node α) : RaftGroup Node α :=
  { g with preVoteTerm := g.currentTerm + 1, preVotes := {g.nodeId} }

def recordPreVote (g : RaftGroup Node α) (voter : Node) : RaftGroup Node α :=
  { g with preVotes := insert voter g.preVotes }

def recordVote (g : RaftGroup Node α) (voter : Node) : RaftGroup Node α :=
  { g with votesReceived := insert voter g.votesReceived }

def preVoteCarried (g : RaftGroup Node α) : Prop :=
  g.majority ≤ (g.preVotes ∩ g.voters).card

instance (g : RaftGroup Node α) : Decidable g.preVoteCarried :=
  inferInstanceAs (Decidable (_ ≤ _))

def voteCarried (g : RaftGroup Node α) : Prop :=
  g.majority ≤ (g.votesReceived ∩ g.voters).card

instance (g : RaftGroup Node α) : Decidable g.voteCarried :=
  inferInstanceAs (Decidable (_ ≤ _))

def startPreElection (g : RaftGroup Node α) :
    RaftGroup Node α × List (Node × VoteRequest Node) :=
  if g.openPreVote.preVoteCarried then g.openPreVote.startElection
  else (g.openPreVote, g.peers.map fun p => (p, g.voteRequest true (g.currentTerm + 1)))

/-- What `_request_pre_vote` does with a reply. -/
def requestPreVote (g : RaftGroup Node α) (r : VoteReply Node) :
    RaftGroup Node α × List (Node × VoteRequest Node) :=
  if g.role ≠ .follower ∨ g.preVoteTerm ≠ g.currentTerm + 1 then (g, [])
  else if g.currentTerm < r.term then (g.becomeFollower r.term, [])
  else if r.voteGranted then
    if (g.recordPreVote r.voterId).preVoteCarried then
      (g.recordPreVote r.voterId).startElection
    else (g.recordPreVote r.voterId, [])
  else (g, [])

/-- What `_request_vote` does with a reply. -/
def requestVote (g : RaftGroup Node α) (r : VoteReply Node) : RaftGroup Node α :=
  if g.role ≠ .candidate ∨ r.term < g.currentTerm then g
  else if g.currentTerm < r.term then g.becomeFollower r.term
  else if r.voteGranted then
    if (g.recordVote r.voterId).voteCarried then (g.recordVote r.voterId).becomeLeader
    else g.recordVote r.voterId
  else g

/-- A request at a higher term makes the replica a follower of that term. -/
def adoptTerm (g : RaftGroup Node α) (term : Nat) : RaftGroup Node α :=
  if g.currentTerm < term then g.becomeFollower term else g

def upToDate (g : RaftGroup Node α) (req : VoteRequest Node) : Prop :=
  lastLogTerm g.log < req.lastLogTerm ∨
    (req.lastLogTerm = lastLogTerm g.log ∧ g.log.length ≤ req.lastLogIndex)

instance (g : RaftGroup Node α) (req : VoteRequest Node) : Decidable (g.upToDate req) :=
  inferInstanceAs (Decidable (_ ∨ _))

/-- `recent` is the outcome of the test that compares the last heartbeat with
the election timeout. -/
def leaderRecent (g : RaftGroup Node α) (recent : Bool) : Prop :=
  g.role = .leader ∨ (g.leaderId ≠ none ∧ recent = true)

instance (g : RaftGroup Node α) (recent : Bool) : Decidable (g.leaderRecent recent) :=
  inferInstanceAs (Decidable (_ ∨ _))

def canGrant (g : RaftGroup Node α) (req : VoteRequest Node) : Prop :=
  g.currentTerm ≤ req.term ∧ (g.votedFor = none ∨ g.votedFor = some req.candidateId) ∧
    g.upToDate req

instance (g : RaftGroup Node α) (req : VoteRequest Node) : Decidable (g.canGrant req) :=
  inferInstanceAs (Decidable (_ ∧ _))

def grantVote (g : RaftGroup Node α) (candidate : Node) : RaftGroup Node α :=
  persistMeta { g with votedFor := some candidate }

/-- Only a real vote adopts the term of the request first; a pre-vote changes
nothing. -/
def handleVote (g : RaftGroup Node α) (req : VoteRequest Node) (recent : Bool) :
    RaftGroup Node α × VoteReply Node :=
  if req.preVote then
    (g, ⟨g.currentTerm,
      decide (g.currentTerm ≤ req.term ∧ g.upToDate req ∧ ¬g.leaderRecent recent),
      g.nodeId, true⟩)
  else if (g.adoptTerm req.term).canGrant req then
    ((g.adoptTerm req.term).grantVote req.candidateId,
      ⟨(g.adoptTerm req.term).currentTerm, true, g.nodeId, false⟩)
  else
    (g.adoptTerm req.term, ⟨(g.adoptTerm req.term).currentTerm, false, g.nodeId, false⟩)

/-- The request that `_replicate_to` builds under the lock, when leading. -/
def replicateTo (g : RaftGroup Node α) (peer : Node) : Option (AppendRequest Node α) :=
  if g.role ≠ .leader then none
  else
    some
      { term := g.currentTerm
        leaderId := g.nodeId
        prevLogIndex := (g.nextIndex peer).getD 1 - 1
        prevLogTerm := termAt g.log ((g.nextIndex peer).getD 1 - 1)
        entries := g.log.drop ((g.nextIndex peer).getD 1 - 1)
        leaderCommit := g.commitIndex }

/-- One turn of the loop in `_apply_committed`. -/
def applyNext (g : RaftGroup Node α) : RaftGroup Node α :=
  match g.log[g.lastApplied]? with
  | none => g
  | some entry =>
      { g with
        lastApplied := g.lastApplied + 1
        lastAppliedTerm := entry.term
        applied := g.applied ++ [entry] }

/-- A leader outside its own configuration steps down once something commits. -/
def stepDownIfRemoved (g : RaftGroup Node α) : RaftGroup Node α :=
  if g.role = .leader ∧ g.nodeId ∉ g.voters then
    { g with role := .follower, leaderId := none }
  else g

def applyCommitted (g : RaftGroup Node α) : RaftGroup Node α :=
  (applyNext^[g.commitIndex - g.lastApplied] g).stepDownIfRemoved

/-- The voters known to hold position `idx`, counted as in `_advance_commit`. -/
def ackCount (g : RaftGroup Node α) (idx : Nat) : Nat :=
  (if g.nodeId ∈ g.voters then 1 else 0) +
    (g.peers.filter fun p => p ∈ g.voters ∧ idx ≤ (g.matchIndex p).getD 0).length

def canCommit (g : RaftGroup Node α) (idx : Nat) : Bool :=
  termAt g.log idx == g.currentTerm && g.majority ≤ g.ackCount idx

def advanceCommit (g : RaftGroup Node α) : RaftGroup Node α :=
  match (List.range' (g.commitIndex + 1) (g.log.length - g.commitIndex)).reverse.find?
      g.canCommit with
  | none => g
  | some idx => applyCommitted { g with commitIndex := idx }

/-- What `_replicate_to` does with a reply. -/
def replicateReply (g : RaftGroup Node α) (peer : Node) (r : AppendReply Node) :
    RaftGroup Node α :=
  if g.currentTerm < r.term then g.becomeFollower r.term
  else if g.role ≠ .leader then g
  else if r.success then
    advanceCommit
      { g with
        matchIndex := fun p => if p = peer then some r.matchIndex else g.matchIndex p
        nextIndex := fun p => if p = peer then some (r.matchIndex + 1) else g.nextIndex p }
  else
    { g with
      nextIndex := fun p =>
        if p = peer then some (max 1 (r.matchIndex + 1)) else g.nextIndex p }

/-- The part of `handle_append` before the log is looked at, for a request that
is not behind the replica's term. -/
def acceptLeader (g : RaftGroup Node α) (req : AppendRequest Node α) : RaftGroup Node α :=
  if g.role = .candidate then
    RaftGroup.becomeFollower { g with leaderId := some req.leaderId } req.term
  else { g with leaderId := some req.leaderId }

/-- One turn of the loop over the received entries; the flag is `rewrote`. -/
def receiveEntry (s : RaftGroup Node α × Bool) (entry : Entry Node α) :
    RaftGroup Node α × Bool :=
  if entry.index ≤ s.1.log.length then
    if termAt s.1.log entry.index ≠ entry.term then
      ({ s.1 with log := s.1.log.take (entry.index - 1) ++ [entry] }, true)
    else s
  else if s.2 then ({ s.1 with log := s.1.log ++ [entry] }, true)
  else (appendLogPersist { s.1 with log := s.1.log ++ [entry] } entry, false)

def storeEntries (g : RaftGroup Node α) (entries : List (Entry Node α)) : RaftGroup Node α :=
  if (entries.foldl receiveEntry (g, false)).2 then
    (entries.foldl receiveEntry (g, false)).1.rewriteLog
  else (entries.foldl receiveEntry (g, false)).1

def receiveEntries (g : RaftGroup Node α) (entries : List (Entry Node α)) :
    RaftGroup Node α :=
  if entries = [] then g.storeEntries entries
  else (g.storeEntries entries).refreshVotersFromLog

def followCommit (g : RaftGroup Node α) (leaderCommit : Nat) : RaftGroup Node α :=
  if g.commitIndex < leaderCommit then
    applyCommitted { g with commitIndex := min leaderCommit g.log.length }
  else g

def truncateLog (g : RaftGroup Node α) (length : Nat) : RaftGroup Node α :=
  rewriteLog { g with log := g.log.take length }

/-- The rest of `handle_append`, which compares the logs. -/
def appendAfter (g : RaftGroup Node α) (req : AppendRequest Node α) :
    RaftGroup Node α × AppendReply Node :=
  if 0 < req.prevLogIndex ∧ g.log.length < req.prevLogIndex then
    (g, ⟨g.currentTerm, false, g.nodeId, g.log.length⟩)
  else if 0 < req.prevLogIndex ∧ termAt g.log req.prevLogIndex ≠ req.prevLogTerm then
    (g.truncateLog (req.prevLogIndex - 1),
      ⟨g.currentTerm, false, g.nodeId, (g.log.take (req.prevLogIndex - 1)).length⟩)
  else
    ((g.receiveEntries req.entries).followCommit req.leaderCommit,
      ⟨g.currentTerm, true, g.nodeId,
        ((g.receiveEntries req.entries).followCommit req.leaderCommit).log.length⟩)

def handleAppend (g : RaftGroup Node α) (req : AppendRequest Node α) :
    RaftGroup Node α × AppendReply Node :=
  if req.term < g.currentTerm then (g, ⟨g.currentTerm, false, g.nodeId, 0⟩)
  else ((g.adoptTerm req.term).acceptLeader req).appendAfter req

/-- A crash inside `handle_vote` after the term of the request was stored. -/
def crashInVote (g : RaftGroup Node α) (req : VoteRequest Node) : RaftGroup Node α :=
  if req.preVote then g.restart else (g.adoptTerm req.term).restart

/-- A crash inside `handle_append` in the loop over the entries, after `count` of
them were dealt with: what `_append_log_persist` wrote is in the file, what waits
for `_rewrite_log` is not. -/
def crashInAppend (g : RaftGroup Node α) (req : AppendRequest Node α) (count : Nat) :
    RaftGroup Node α :=
  if req.term < g.currentTerm then g.restart
  else if 0 < req.prevLogIndex ∧
      ((g.adoptTerm req.term).acceptLeader req).log.length < req.prevLogIndex then
    ((g.adoptTerm req.term).acceptLeader req).restart
  else if 0 < req.prevLogIndex ∧
      termAt ((g.adoptTerm req.term).acceptLeader req).log req.prevLogIndex ≠
        req.prevLogTerm then
    ((g.adoptTerm req.term).acceptLeader req).restart
  else
    ((req.entries.take count).foldl receiveEntry
      ((g.adoptTerm req.term).acceptLeader req, false)).1.restart

def propose (g : RaftGroup Node α) (command : Command Node α) :
    RaftGroup Node α × Option Nat :=
  if g.role ≠ .leader then (g, none) else (g.appendEntry command, some (g.log.length + 1))

def reconfigure (g : RaftGroup Node α) (newVoters : Finset Node) :
    RaftGroup Node α × Option Nat :=
  if g.role ≠ .leader then (g, none)
  else if (symmDiff g.voters newVoters).card ≠ 1 then (g, none)
  else
    ((g.propose (.config newVoters)).1.refreshVotersFromLog,
      (g.propose (.config newVoters)).2)

/-- One turn of the loop in `wait_commit`; `none` goes on waiting, and `expired`
is the outcome of the test against the deadline. -/
def waitCommit (g : RaftGroup Node α) (index : Nat) (expired : Bool) : Option Bool :=
  if index ≤ g.lastApplied then some true
  else if g.role ≠ .leader then some false
  else if expired then some false
  else none

def isLeader (g : RaftGroup Node α) : Bool := g.role == .leader

def isReady (g : RaftGroup Node α) : Bool :=
  g.role == .leader && g.lastAppliedTerm == g.currentTerm

end RaftGroup

end LiteDB.RaftNode
