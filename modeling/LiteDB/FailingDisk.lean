import LiteDB.Attempts
import LiteDB.RaftNodeSpec

/-!
A replica whose persist calls may raise (`raft_node.py`). The functions of one replica
are written again in the order in which the source changes its memory and its files;
what has been changed when a call raises stays changed. Without an exception they
compute what the functions of `RaftNode` compute.
-/

namespace LiteDB.FailingDisk

open Attempts RaftNode

/-- How a persist call raises: before the file has changed, or afterwards, or with a part
of its last line written, or with that line written except for its newline. -/
inductive Fault where
  | before
  | after
  | inside
  | unended
deriving DecidableEq

/-- How the log ends. A line that is written behind one without a newline joins it, and
then `json.loads` rejects both, as it rejects a part of a line. -/
inductive Tail where
  | ended
  | unended
  | unreadable
deriving DecidableEq

/-- What `_log_fh` refers to. A stale handle belongs to a file that another one has
replaced. -/
inductive Handle where
  | unopened
  | current
  | stale
  | closed
deriving DecidableEq

/-- `start` does not take the lock: it opens the log, and then stores the handle. -/
inductive Phase where
  | constructed
  | opening (handle : Handle)
  | running
deriving DecidableEq

def Phase.Settled : Phase → Prop
  | .opening _ => False
  | _ => True

instance (phase : Phase) : Decidable phase.Settled := by
  unfold Phase.Settled
  split <;> infer_instance

/-- `faults` says how the next persist calls end, and `failed` that one of them has
raised since the replica was constructed. -/
structure Replica (Node α : Type) where
  group : RaftGroup Node α
  handle : Handle
  phase : Phase
  failed : Bool
  faults : List (Option Fault)
  tail : Tail

variable {Node α A B : Type}

def takeFault : Attempt (Replica Node α) (Option Fault) := do
  let faults := (← get).faults
  modify fun r => { r with faults := r.faults.tail }
  return faults.head?.join

def raise : Attempt (Replica Node α) A := do
  modify fun r => { r with failed := true }
  throw ()

/-- The call writes another file and then puts it in the place of the old one. -/
def persistOr (write : Replica Node α → Replica Node α) :
    Option Fault → Attempt (Replica Node α) Unit
  | none => modify write
  | some .after => do
      modify write
      raise
  | some _ => raise

def persist (write : Replica Node α → Replica Node α) : Attempt (Replica Node α) Unit := do
  persistOr write (← takeFault)

def getGroup : Attempt (Replica Node α) (RaftGroup Node α) := do
  return (← get).group

def onGroup (f : RaftGroup Node α → RaftGroup Node α) (r : Replica Node α) : Replica Node α :=
  { r with group := f r.group }

def persistMeta : Attempt (Replica Node α) Unit := persist (onGroup RaftGroup.persistMeta)

def addLine (entry : Entry Node α) (tail : Tail) (r : Replica Node α) : Replica Node α :=
  { r with
    group := r.group.appendLogPersist entry
    tail := if r.tail = .ended then tail else .unreadable }

def addLineOr (entry : Entry Node α) : Option Fault → Attempt (Replica Node α) Unit
  | none => modify (addLine entry .ended)
  | some .before => raise
  | some .after => do
      modify (addLine entry .ended)
      raise
  | some .unended => do
      modify (addLine entry .unended)
      raise
  | some .inside => do
      modify fun r => { r with tail := .unreadable }
      raise

/-- Without a handle the assertion fails, and a closed one raises `ValueError`. -/
def appendLogPersist (entry : Entry Node α) : Attempt (Replica Node α) Unit := do
  match (← get).handle with
  | .unopened | .closed => raise
  | .current => addLineOr entry (← takeFault)
  | .stale => persist id

def Phase.replaced : Phase → Phase
  | .opening _ => .opening .stale
  | phase => phase

def replaceLog (r : Replica Node α) : Replica Node α :=
  { r with group := r.group.rewriteLog, phase := r.phase.replaced, tail := .ended }

def rewriteLog : Attempt (Replica Node α) Unit := do
  modify fun r => { r with handle := if r.handle = .unopened then .unopened else .closed }
  persist replaceLog
  modify fun r => { r with handle := .current }

/-- `_recover` takes a last line without a newline as it is. -/
def recover [LinearOrder Node] (r : Replica Node α) : Option (RaftGroup Node α) :=
  if r.tail = .unreadable then none else some r.group.restart

section Elections

variable [LinearOrder Node]

def becomeFollower (term : Nat) : Attempt (Replica Node α) Unit := do
  let g ← getGroup
  modify (onGroup fun g => { g with role := .follower, currentTerm := term, votedFor := none })
  if term ≠ g.currentTerm ∨ g.votedFor ≠ none then persistMeta

def appendEntry (command : Command Node α) : Attempt (Replica Node α) Unit := do
  let g ← getGroup
  modify (onGroup fun g =>
    { g with log := g.log ++ [⟨g.currentTerm, g.log.length + 1, command⟩] })
  appendLogPersist ⟨g.currentTerm, g.log.length + 1, command⟩

/-- The leadership is announced when the no-op is in the file. -/
def becomeLeader : Attempt (Replica Node α) Unit := do
  modify (onGroup fun g =>
    { g with
      role := .leader
      leaderId := some g.nodeId
      nextIndex := fun p => if p ∈ g.peers then some (g.log.length + 1) else g.nextIndex p
      matchIndex := fun p => if p ∈ g.peers then some 0 else g.matchIndex p })
  appendEntry .noop
  modify (onGroup fun g => { g with won := g.won ++ [g.currentTerm] })

def startElection : Attempt (Replica Node α) (List (Node × VoteRequest Node)) := do
  modify (onGroup fun g =>
    { g with
      role := .candidate
      currentTerm := g.currentTerm + 1
      votedFor := some g.nodeId
      votesReceived := {g.nodeId} })
  persistMeta
  let g ← getGroup
  return g.peers.map fun p => (p, g.voteRequest false g.currentTerm)

def startPreElection : Attempt (Replica Node α) (List (Node × VoteRequest Node)) := do
  modify (onGroup RaftGroup.openPreVote)
  let g ← getGroup
  if g.preVoteCarried then startElection
  else return g.peers.map fun p => (p, g.voteRequest true g.preVoteTerm)

def requestPreVote (r : VoteReply Node) :
    Attempt (Replica Node α) (List (Node × VoteRequest Node)) := do
  let g ← getGroup
  if g.role ≠ .follower ∨ g.preVoteTerm ≠ g.currentTerm + 1 then return []
  else if g.currentTerm < r.term then
    becomeFollower r.term
    return []
  else if r.voteGranted then
    modify (onGroup fun g => g.recordPreVote r.voterId)
    if (← getGroup).preVoteCarried then startElection else return []
  else return []

def requestVote (r : VoteReply Node) : Attempt (Replica Node α) Unit := do
  let g ← getGroup
  if g.role ≠ .candidate ∨ r.term < g.currentTerm then return
  else if g.currentTerm < r.term then becomeFollower r.term
  else if r.voteGranted then
    modify (onGroup fun g => g.recordVote r.voterId)
    if (← getGroup).voteCarried then becomeLeader else return
  else return

def adoptTerm (term : Nat) : Attempt (Replica Node α) Unit := do
  if (← getGroup).currentTerm < term then becomeFollower term

def handleVote (req : VoteRequest Node) (recent : Bool) :
    Attempt (Replica Node α) (VoteReply Node) := do
  if req.preVote then
    return ((← getGroup).handleVote req recent).2
  else
    adoptTerm req.term
    let g ← getGroup
    if g.canGrant req then
      modify (onGroup fun g => { g with votedFor := some req.candidateId })
      persistMeta
      return ⟨g.currentTerm, true, g.nodeId, false⟩
    else return ⟨g.currentTerm, false, g.nodeId, false⟩

end Elections

section Replication

variable [LinearOrder Node]

def replicateReply (peer : Node) (r : AppendReply Node) : Attempt (Replica Node α) Unit := do
  if (← getGroup).currentTerm < r.term then becomeFollower r.term
  else modify (onGroup fun g => g.replicateReply peer r)

def acceptLeader (req : AppendRequest Node α) : Attempt (Replica Node α) Unit := do
  modify (onGroup fun g => { g with leaderId := some req.leaderId })
  if (← getGroup).role = .candidate then becomeFollower req.term

/-- One turn of the loop over the received entries; the flag is `rewrote`. -/
def receiveEntry (rewrote : Bool) (entry : Entry Node α) : Attempt (Replica Node α) Bool := do
  let g ← getGroup
  if entry.index ≤ g.log.length then
    if termAt g.log entry.index ≠ entry.term then
      modify (onGroup fun g => { g with log := g.log.take (entry.index - 1) ++ [entry] })
      return true
    else return rewrote
  else
    modify (onGroup fun g => { g with log := g.log ++ [entry] })
    if rewrote then return true
    else
      appendLogPersist entry
      return false

def storeEntries (entries : List (Entry Node α)) : Attempt (Replica Node α) Unit := do
  if ← entries.foldlM receiveEntry false then rewriteLog

def receiveEntries (entries : List (Entry Node α)) : Attempt (Replica Node α) Unit := do
  storeEntries entries
  if entries = [] then return
  else modify (onGroup RaftGroup.refreshVotersFromLog)

def truncateLog (length : Nat) : Attempt (Replica Node α) Unit := do
  modify (onGroup fun g => { g with log := g.log.take length })
  rewriteLog

def appendAfter (req : AppendRequest Node α) : Attempt (Replica Node α) (AppendReply Node) := do
  let g ← getGroup
  if 0 < req.prevLogIndex ∧ g.log.length < req.prevLogIndex then
    return ⟨g.currentTerm, false, g.nodeId, g.log.length⟩
  else if 0 < req.prevLogIndex ∧ termAt g.log req.prevLogIndex ≠ req.prevLogTerm then
    truncateLog (req.prevLogIndex - 1)
    return ⟨g.currentTerm, false, g.nodeId, (← getGroup).log.length⟩
  else
    receiveEntries req.entries
    modify (onGroup fun g => g.followCommit req.leaderCommit)
    return ⟨g.currentTerm, true, g.nodeId, (← getGroup).log.length⟩

def handleAppend (req : AppendRequest Node α) : Attempt (Replica Node α) (AppendReply Node) := do
  adoptTerm req.term
  let g ← getGroup
  if req.term < g.currentTerm then return ⟨g.currentTerm, false, g.nodeId, 0⟩
  else
    acceptLeader req
    appendAfter req

def propose (command : Command Node α) : Attempt (Replica Node α) (Option Nat) := do
  let g ← getGroup
  if g.role ≠ .leader then return none
  else
    appendEntry command
    return some (g.log.length + 1)

def reconfigure (newVoters : Finset Node) : Attempt (Replica Node α) (Option Nat) := do
  let g ← getGroup
  if g.role ≠ .leader then return none
  else if (symmDiff g.voters newVoters).card ≠ 1 then return none
  else
    let index ← propose (.config newVoters)
    modify (onGroup RaftGroup.refreshVotersFromLog)
    return index

end Replication

section Refinement

/-- Without a stale handle, the computation leaves the replica as the failure-free
function does, or it raises because a persist call has failed. -/
def Follows (x : Attempt (Replica Node α) A) (r : Replica Node α)
    (result : RaftGroup Node α × A) : Prop :=
  r.handle ≠ .stale → r.phase.Settled →
    Yields x r
      (fun a t => (t.group, a) = result ∧ t.handle ≠ .stale ∧ t.phase = r.phase ∧
        (r.tail = .ended → t.tail = .ended))
      fun t => t.failed = true

variable {r : Replica Node α} {result : RaftGroup Node α × A} {x : Attempt (Replica Node α) B}
  {k : B → Attempt (Replica Node α) A} {g : RaftGroup Node α}

theorem Follows.bindPair {p : RaftGroup Node α × B} (h : Follows x r p)
    (hk : ∀ t : Replica Node α, t.group = p.1 → Follows (k p.2) t result) :
    Follows (x >>= k) r result := by
  intro hhandle hphase
  refine Yields.bind ((h hhandle hphase).mono ?_)
  rintro a t ⟨rfl, hhandle', hphase', htail⟩
  refine (hk t rfl hhandle' (by rwa [hphase'])).mono ?_
  rintro c u ⟨hresult, hu, hphaseu, htailu⟩
  exact ⟨hresult, hu, hphaseu.trans hphase', htailu ∘ htail⟩

theorem Follows.bind {b : B} (h : Follows x r (g, b))
    (hk : ∀ t : Replica Node α, t.group = g → Follows (k b) t result) :
    Follows (x >>= k) r result :=
  h.bindPair hk

theorem follows_pure {a : A} : Follows (pure a) r (r.group, a) :=
  fun hhandle _ => yields_pure ⟨rfl, hhandle, rfl, id⟩

theorem Follows.get {k : Replica Node α → Attempt (Replica Node α) A}
    (h : Follows (k r) r result) : Follows (MonadState.get >>= k) r result :=
  fun hhandle hphase => Yields.bind (yields_get (h hhandle hphase))

theorem follows_raise : Follows raise r result :=
  fun _ _ => Yields.bind (yields_modify (yields_throw rfl))

/-- What a write to a file or to the memory does to a replica. -/
structure Keeps (write : Replica Node α → Replica Node α)
    (f : RaftGroup Node α → RaftGroup Node α) : Prop where
  group : ∀ r, (write r).group = f r.group
  handle : ∀ r, r.handle ≠ .stale → (write r).handle ≠ .stale
  phase : ∀ r, r.phase.Settled → (write r).phase = r.phase
  tail : ∀ r, r.tail = .ended → (write r).tail = .ended

theorem keeps_onGroup (f : RaftGroup Node α → RaftGroup Node α) : Keeps (onGroup f) f :=
  ⟨fun _ => rfl, fun _ h => h, fun _ _ => rfl, fun _ h => h⟩

theorem keeps_addLine (entry : Entry Node α) :
    Keeps (addLine entry .ended) fun g => g.appendLogPersist entry :=
  ⟨fun _ => rfl, fun _ h => h, fun _ _ => rfl, fun _ h => if_pos h⟩

theorem keeps_replaceLog :
    Keeps replaceLog (RaftGroup.rewriteLog : RaftGroup Node α → RaftGroup Node α) := by
  refine ⟨fun _ => rfl, fun _ h => h, fun r hphase => ?_, fun _ _ => rfl⟩
  show r.phase.replaced = r.phase
  cases heq : r.phase with
  | opening handle => simp [heq, Phase.Settled] at hphase
  | constructed | running => rfl

variable {write : Replica Node α → Replica Node α} {f : RaftGroup Node α → RaftGroup Node α}

theorem follows_modify (h : Keeps write f) : Follows (modify write) r (f r.group, ()) :=
  fun hhandle hphase => yields_modify
    ⟨by rw [h.group], h.handle r hhandle, h.phase r hphase, h.tail r⟩

variable {result' : RaftGroup Node α × A} {c : Prop}

theorem Follows.congr {x : Attempt (Replica Node α) A} (h : Follows x r result)
    (heq : result = result') : Follows x r result' :=
  heq ▸ h

theorem Follows.getGroup {k : RaftGroup Node α → Attempt (Replica Node α) A}
    (h : Follows (k r.group) r result) : Follows (FailingDisk.getGroup >>= k) r result :=
  fun hhandle hphase => Yields.bind (Yields.bind (yields_get (yields_pure (h hhandle hphase))))

theorem Follows.ite [Decidable c] {x y : Attempt (Replica Node α) A} (hpos : c → Follows x r result)
    (hneg : ¬c → Follows y r result') :
    Follows (if c then x else y) r (if c then result else result') := by
  split
  · exact hpos ‹c›
  · exact hneg ‹¬c›

theorem Follows.iteUnit [Decidable c] {x y : Attempt (Replica Node α) Unit} {g' : RaftGroup Node α}
    (hpos : c → Follows x r (g, ())) (hneg : ¬c → Follows y r (g', ())) :
    Follows (if c then x else y) r (if c then g else g', ()) := by
  split
  · exact hpos ‹c›
  · exact hneg ‹¬c›

theorem follows_onGroup (f : RaftGroup Node α → RaftGroup Node α) :
    Follows (modify (onGroup f)) r (f r.group, ()) :=
  follows_modify (keeps_onGroup f)

/-- How a persist call ends is not known before it is made. -/
theorem Follows.takeFault {k : Option Fault → Attempt (Replica Node α) A}
    (h : ∀ fault (t : Replica Node α), t.group = r.group → Follows (k fault) t result) :
    Follows (FailingDisk.takeFault >>= k) r result := by
  refine Follows.bind (Follows.get ?_) (h r.faults.head?.join)
  have htail : Keeps (fun r : Replica Node α => { r with faults := r.faults.tail }) fun g => g :=
    ⟨fun _ => rfl, fun _ h => h, fun _ _ => rfl, fun _ h => h⟩
  exact (follows_modify htail).bind fun t ht => ht ▸ follows_pure

theorem follows_modify_raise : Follows (modify write >>= fun _ => raise) r result :=
  fun _ _ => Yields.bind (yields_modify (Yields.bind (yields_modify (yields_throw rfl))))

theorem follows_persist (h : Keeps write f) : Follows (persist write) r (f r.group, ()) := by
  refine Follows.takeFault fun fault t ht => ?_
  rw [← ht]
  match fault with
  | none => exact follows_modify h
  | some .after => exact follows_modify_raise
  | some .before | some .inside | some .unended => exact follows_raise

theorem follows_persistMeta : Follows persistMeta r (r.group.persistMeta, ()) :=
  follows_persist (keeps_onGroup _)

theorem follows_appendLogPersist (entry : Entry Node α) :
    Follows (appendLogPersist entry) r (r.group.appendLogPersist entry, ()) := by
  refine Follows.get ?_
  intro hhandle hphase
  split
  · exact follows_raise hhandle hphase
  · exact follows_raise hhandle hphase
  · refine Follows.takeFault (fun fault t ht => ?_) hhandle hphase
    rw [← ht]
    match fault with
    | none => exact follows_modify (keeps_addLine entry)
    | some .before => exact follows_raise
    | some .after | some .unended | some .inside => exact follows_modify_raise
  · contradiction

theorem follows_rewriteLog : Follows rewriteLog r (r.group.rewriteLog, ()) := by
  have hclose : Keeps (fun r : Replica Node α =>
      { r with handle := if r.handle = .unopened then .unopened else .closed }) fun g => g := by
    refine ⟨fun _ => rfl, fun r _ => ?_, fun _ _ => rfl, fun _ h => h⟩
    show (if r.handle = .unopened then Handle.unopened else .closed) ≠ .stale
    split <;> simp
  have hopen : Keeps (fun r : Replica Node α => { r with handle := .current }) fun g => g :=
    ⟨fun _ => rfl, fun _ _ => by simp, fun _ _ => rfl, fun _ h => h⟩
  refine (follows_modify hclose).bind fun t ht => ?_
  refine Follows.bind (ht ▸ follows_persist keeps_replaceLog) fun u hu => ?_
  have hlast := follows_modify (r := u) hopen
  rwa [hu] at hlast

end Refinement

section Functions

variable {r : Replica Node α}

theorem follows_discard {x : Attempt (Replica Node α) A} {p : RaftGroup Node α × A}
    (h : Follows x r p) : Follows (discard x) r (p.1, ()) :=
  h.bindPair fun _ ht => follows_pure.congr (by rw [ht])

theorem follows_becomeFollower (term : Nat) :
    Follows (becomeFollower term) r (r.group.becomeFollower term, ()) := by
  refine Follows.getGroup ((follows_onGroup _).bind fun t ht => Follows.iteUnit ?_ ?_)
  · exact fun _ => follows_persistMeta.congr (by rw [ht])
  · exact fun _ => follows_pure.congr (by rw [ht])

theorem follows_appendEntry (command : Command Node α) :
    Follows (appendEntry command) r (r.group.appendEntry command, ()) := by
  refine Follows.getGroup ((follows_onGroup _).bind fun t ht => ?_)
  exact (follows_appendLogPersist _).congr (by rw [ht]; rfl)

theorem follows_startElection : Follows startElection r r.group.startElection := by
  refine (follows_onGroup _).bind fun t ht => follows_persistMeta.bind fun u hu => ?_
  exact Follows.getGroup (follows_pure.congr (by rw [hu, ht]; rfl))

theorem adoptTerm_nodeId (g : RaftGroup Node α) (term : Nat) :
    (g.adoptTerm term).nodeId = g.nodeId := by
  unfold RaftGroup.adoptTerm RaftGroup.becomeFollower
  split_ifs <;> rfl

theorem adoptTerm_currentTerm (g : RaftGroup Node α) (term : Nat) :
    (g.adoptTerm term).currentTerm = max g.currentTerm term := by
  unfold RaftGroup.adoptTerm RaftGroup.becomeFollower
  split_ifs with hlt
  · exact (max_eq_right hlt.le).symm
  · exact (max_eq_right hlt.le).symm
  · exact (max_eq_left (not_lt.mp hlt)).symm

theorem follows_adoptTerm (term : Nat) : Follows (adoptTerm term) r (r.group.adoptTerm term, ()) :=
  Follows.getGroup (Follows.iteUnit (fun _ => follows_becomeFollower _) fun _ => follows_pure)

theorem follows_acceptLeader (req : AppendRequest Node α) :
    Follows (acceptLeader req) r (r.group.acceptLeader req, ()) := by
  refine (follows_onGroup _).bind fun t ht => Follows.getGroup ?_
  rw [ht]
  refine Follows.iteUnit ?_ ?_
  · exact fun _ => (follows_becomeFollower _).congr (by rw [ht])
  · exact fun _ => follows_pure.congr (by rw [ht])

theorem follows_receiveEntry (rewrote : Bool) (entry : Entry Node α) :
    Follows (receiveEntry rewrote entry) r (RaftGroup.receiveEntry (r.group, rewrote) entry) := by
  refine Follows.getGroup (Follows.ite ?_ ?_)
  · refine fun _ => Follows.ite ?_ fun _ => follows_pure
    exact fun _ => (follows_onGroup _).bind fun t ht => follows_pure.congr (by rw [ht])
  · refine fun _ => (follows_onGroup _).bind fun t ht => Follows.ite ?_ ?_
    · exact fun _ => follows_pure.congr (by rw [ht])
    · refine fun _ => (follows_appendLogPersist _).bind fun u hu => ?_
      exact follows_pure.congr (by rw [hu, ht])

theorem follows_foldlM_receiveEntry (rewrote : Bool) (entries : List (Entry Node α)) :
    Follows (entries.foldlM receiveEntry rewrote) r
      (entries.foldl RaftGroup.receiveEntry (r.group, rewrote)) := by
  induction entries generalizing r rewrote with
  | nil => exact follows_pure
  | cons entry entries ih =>
    rw [List.foldlM_cons, List.foldl_cons]
    refine (follows_receiveEntry rewrote entry).bindPair fun t ht => ?_
    exact (ih _).congr (by rw [ht])

theorem follows_storeEntries (entries : List (Entry Node α)) :
    Follows (storeEntries entries) r (r.group.storeEntries entries, ()) := by
  refine (follows_foldlM_receiveEntry false entries).bindPair fun t ht => Follows.iteUnit ?_ ?_
  · exact fun _ => follows_rewriteLog.congr (by rw [ht])
  · exact fun _ => follows_pure.congr (by rw [ht])

theorem follows_truncateLog (length : Nat) :
    Follows (truncateLog length) r (r.group.truncateLog length, ()) :=
  (follows_onGroup _).bind fun _ ht => follows_rewriteLog.congr (by rw [ht]; rfl)

theorem follows_propose (command : Command Node α) :
    Follows (propose command) r (r.group.propose command) := by
  refine Follows.getGroup (Follows.ite (fun _ => follows_pure) fun _ => ?_)
  exact (follows_appendEntry command).bind fun t ht => follows_pure.congr (by rw [ht])

variable [LinearOrder Node]

theorem follows_becomeLeader : Follows becomeLeader r (r.group.becomeLeader, ()) := by
  refine (follows_onGroup _).bind fun t ht => (follows_appendEntry .noop).bind fun u hu => ?_
  exact (follows_onGroup _).congr (by rw [hu, ht]; rfl)

theorem follows_startPreElection : Follows startPreElection r r.group.startPreElection := by
  refine (follows_onGroup _).bind fun t ht => Follows.getGroup ?_
  rw [ht]
  refine Follows.ite ?_ ?_
  · exact fun _ => follows_startElection.congr (by rw [ht])
  · exact fun _ => follows_pure.congr (by rw [ht]; rfl)

theorem follows_requestPreVote (reply : VoteReply Node) :
    Follows (requestPreVote reply) r (r.group.requestPreVote reply) := by
  refine Follows.getGroup (Follows.ite (fun _ => follows_pure) fun _ => Follows.ite ?_ ?_)
  · exact fun _ => (follows_becomeFollower _).bind fun t ht => follows_pure.congr (by rw [ht])
  refine fun _ => Follows.ite ?_ fun _ => follows_pure
  refine fun _ => (follows_onGroup _).bind fun t ht => Follows.getGroup ?_
  rw [ht]
  refine Follows.ite ?_ ?_
  · exact fun _ => follows_startElection.congr (by rw [ht])
  · exact fun _ => follows_pure.congr (by rw [ht])

theorem follows_requestVote (reply : VoteReply Node) :
    Follows (requestVote reply) r (r.group.requestVote reply, ()) := by
  refine Follows.getGroup (Follows.iteUnit (fun _ => follows_pure) fun _ => Follows.iteUnit ?_ ?_)
  · exact fun _ => follows_becomeFollower _
  refine fun _ => Follows.iteUnit ?_ fun _ => follows_pure
  refine fun _ => (follows_onGroup _).bind fun t ht => Follows.getGroup ?_
  rw [ht]
  refine Follows.iteUnit ?_ ?_
  · exact fun _ => follows_becomeLeader.congr (by rw [ht])
  · exact fun _ => follows_pure.congr (by rw [ht])

theorem follows_handleVote (req : VoteRequest Node) (recent : Bool) :
    Follows (handleVote req recent) r (r.group.handleVote req recent) := by
  refine Follows.ite ?_ ?_
  · intro hpre
    refine Follows.getGroup (follows_pure.congr ?_)
    simp [RaftGroup.handleVote, hpre]
  · intro _
    refine (follows_adoptTerm _).bind fun t ht => Follows.getGroup ?_
    rw [ht]
    refine Follows.ite ?_ ?_
    · refine fun _ => (follows_onGroup _).bind fun u hu => follows_persistMeta.bind fun v hv => ?_
      exact follows_pure.congr (by rw [hv, hu, ht, ← adoptTerm_nodeId r.group req.term]; rfl)
    · exact fun _ => follows_pure.congr (by rw [ht, adoptTerm_nodeId])

theorem attempt_replicateReply {peer : Node} {reply : AppendReply Node}
    (h : reply.term ≤ r.group.currentTerm) :
    attempt (replicateReply peer reply) r =
      (.ok (), onGroup (fun g => g.replicateReply peer reply) r) := by
  have hrun : attempt (replicateReply peer reply) r =
      attempt (if r.group.currentTerm < reply.term then becomeFollower reply.term
        else modify (onGroup fun g => g.replicateReply peer reply)) r := rfl
  rw [hrun, if_neg (not_lt.mpr h)]
  rfl

theorem follows_replicateReply (peer : Node) (reply : AppendReply Node) :
    Follows (replicateReply peer reply) r (r.group.replicateReply peer reply, ()) := by
  refine Follows.getGroup (Follows.iteUnit (fun _ => follows_becomeFollower _) fun hle => ?_)
  refine (follows_onGroup _).congr ?_
  rw [RaftGroup.replicateReply, if_neg hle]

theorem follows_receiveEntries (entries : List (Entry Node α)) :
    Follows (receiveEntries entries) r (r.group.receiveEntries entries, ()) := by
  refine (follows_storeEntries entries).bind fun t ht => Follows.iteUnit ?_ ?_
  · exact fun _ => follows_pure.congr (by rw [ht])
  · exact fun _ => (follows_onGroup _).congr (by rw [ht])

theorem follows_appendAfter (req : AppendRequest Node α) :
    Follows (appendAfter req) r (r.group.appendAfter req) := by
  refine Follows.getGroup (Follows.ite (fun _ => follows_pure) fun _ => Follows.ite ?_ ?_)
  · refine fun _ => (follows_truncateLog _).bind fun t ht => Follows.getGroup ?_
    exact follows_pure.congr (by rw [ht]; rfl)
  · refine fun _ => (follows_receiveEntries _).bind fun t ht => ?_
    refine (follows_onGroup _).bind fun u hu => ?_
    exact Follows.getGroup (follows_pure.congr (by rw [hu, ht]))

theorem follows_handleAppend (req : AppendRequest Node α) :
    Follows (handleAppend req) r (r.group.handleAppend req) := by
  refine (follows_adoptTerm _).bind fun t ht => Follows.getGroup ?_
  rw [ht]
  by_cases hlt : req.term < r.group.currentTerm
  · have hadopt : r.group.adoptTerm req.term = r.group := if_neg (by omega)
    rw [hadopt] at ht ⊢
    rw [RaftGroup.handleAppend, if_pos hlt, if_pos hlt]
    exact follows_pure.congr (by rw [ht])
  · have hadopt : ¬req.term < (r.group.adoptTerm req.term).currentTerm := by
      rw [adoptTerm_currentTerm]
      omega
    rw [RaftGroup.handleAppend, if_neg hlt, if_neg hadopt]
    refine (follows_acceptLeader req).bind fun u hu => ?_
    exact (follows_appendAfter req).congr (by rw [hu, ht])

theorem follows_reconfigure (newVoters : Finset Node) :
    Follows (reconfigure newVoters) r (r.group.reconfigure newVoters) := by
  refine Follows.getGroup (Follows.ite (fun _ => follows_pure) fun _ => ?_)
  refine Follows.ite (fun _ => follows_pure) fun _ => ?_
  refine (follows_propose _).bindPair fun t ht => (follows_onGroup _).bind fun u hu => ?_
  exact follows_pure.congr (by rw [hu, ht])

end Functions

end LiteDB.FailingDisk
