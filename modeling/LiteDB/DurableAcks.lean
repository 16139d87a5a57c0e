import LiteDB.FailingDisk
import LiteDB.Runs

namespace LiteDB.DurableAcks

open Attempts FailingDisk RaftNode RaftNodeSpec Runs

section Stored

variable {Node α : Type} {g : RaftGroup Node α}

/-- The file holds what the memory holds. -/
def Stored (g : RaftGroup Node α) : Prop := g.diskLog = g.log

theorem Stored.becomeFollower (h : Stored g) (term : Nat) : Stored (g.becomeFollower term) := by
  unfold RaftGroup.becomeFollower
  split <;> exact h

theorem Stored.adoptTerm (h : Stored g) (term : Nat) : Stored (g.adoptTerm term) := by
  unfold RaftGroup.adoptTerm
  split
  · exact h.becomeFollower term
  · exact h

theorem Stored.acceptLeader (h : Stored g) (req : AppendRequest Node α) :
    Stored (g.acceptLeader req) := by
  unfold RaftGroup.acceptLeader
  split
  · exact Stored.becomeFollower (g := { g with leaderId := some req.leaderId }) h req.term
  · exact h

theorem Stored.appendEntry (h : Stored g) (command : Command Node α) :
    Stored (g.appendEntry command) := by
  change g.diskLog ++ _ = g.log ++ _
  rw [show g.diskLog = g.log from h]

theorem Stored.storeEntries (h : Stored g) (entries : List (Entry Node α)) :
    Stored (g.storeEntries entries) := by
  unfold RaftGroup.storeEntries
  split
  · rfl
  · obtain ⟨disk, rewrote, heq, hdisk⟩ := foldl_receiveEntry entries g false
    rename_i hnot
    rw [heq] at hnot ⊢
    exact (hdisk (by simpa using hnot)).2 h

variable [LinearOrder Node]

theorem setVoters_log (g : RaftGroup Node α) (voters : Finset Node) :
    (g.setVoters voters).log = g.log := by
  unfold RaftGroup.setVoters
  split <;> rfl

section

variable (h : Stored g)

include h

theorem Stored.setVoters (voters : Finset Node) : Stored (g.setVoters voters) := by
  unfold RaftGroup.setVoters
  split <;> exact h

theorem Stored.receiveEntries (entries : List (Entry Node α)) :
    Stored (g.receiveEntries entries) := by
  unfold RaftGroup.receiveEntries
  split
  · exact h.storeEntries entries
  · exact (h.storeEntries entries).setVoters _

theorem Stored.followCommit (leaderCommit : Nat) : Stored (g.followCommit leaderCommit) := by
  obtain ⟨commit, la, lt, ap, role, leader, heq, -⟩ := commits_followCommit g leaderCommit
  rw [heq]
  exact h

theorem Stored.advanceCommit : Stored g.advanceCommit := by
  obtain ⟨commit, la, lt, ap, role, leader, heq, -⟩ := commits_advanceCommit g
  rw [heq]
  exact h

theorem Stored.handleAppend (req : AppendRequest Node α) : Stored (g.handleAppend req).1 := by
  unfold RaftGroup.handleAppend
  split
  · exact h
  have haccept := (h.adoptTerm req.term).acceptLeader req
  unfold RaftGroup.appendAfter
  split_ifs
  · exact haccept
  · rfl
  · exact (haccept.receiveEntries req.entries).followCommit req.leaderCommit

theorem Stored.requestVote (r : VoteReply Node) : Stored (g.requestVote r) := by
  unfold RaftGroup.requestVote
  split_ifs
  · exact h
  · exact h.becomeFollower r.term
  · exact Stored.appendEntry h .noop
  · exact h
  · exact h

theorem Stored.replicateReply (peer : Node) (r : AppendReply Node) :
    Stored (g.replicateReply peer r) := by
  unfold RaftGroup.replicateReply
  split_ifs
  · exact h.becomeFollower r.term
  · exact h
  · exact Stored.advanceCommit h
  · exact h

end

theorem restart_log_eq (g : RaftGroup Node α) : g.restart.log = g.diskLog := setVoters_log _ _

theorem stored_restart (g : RaftGroup Node α) : Stored g.restart := by
  refine Stored.setVoters ?_ _
  rfl

/-- A position is in the file, and a restart finds it there. -/
def Durable (r : Replica Node α) (m : Nat) : Prop :=
  m ≤ r.group.log.length ∧ r.group.diskLog.take m = r.group.log.take m ∧
    (recover r).map (fun g => g.log.take m) = some (r.group.log.take m)

instance [DecidableEq α] (r : Replica Node α) (m : Nat) : Decidable (Durable r m) :=
  inferInstanceAs (Decidable (_ ∧ _))

theorem Stored.durable {r : Replica Node α} (h : Stored r.group) (htail : r.tail = .ended)
    {m : Nat} (hm : m ≤ r.group.log.length) : Durable r m := by
  have hfile : r.group.diskLog = r.group.log := h
  have hrecover : recover r = some r.group.restart := if_neg (by simp [htail])
  exact ⟨hm, by rw [hfile], by rw [hrecover, Option.map_some, restart_log_eq, hfile]⟩

theorem handleAppend_matchIndex (req : AppendRequest Node α)
    (h : (g.handleAppend req).2.success = true) :
    (g.handleAppend req).2.matchIndex = (g.handleAppend req).1.log.length := by
  unfold RaftGroup.handleAppend RaftGroup.appendAfter at *
  split_ifs at *
  rfl

theorem replicateReply_log_eq (g : RaftGroup Node α) (peer : Node) (r : AppendReply Node) :
    (g.replicateReply peer r).log = g.log := by
  unfold RaftGroup.replicateReply
  split_ifs
  · unfold RaftGroup.becomeFollower
    split <;> rfl
  · rfl
  · exact (commits_advanceCommit _).log
  · rfl

end Stored

/-- The sections of a replica that run under its lock. -/
inductive Call (Node α : Type) where
  | handleAppend (req : AppendRequest Node α)
  | handleVote (req : VoteRequest Node) (recent : Bool)
  | propose (command : Command Node α)
  | reconfigure (voters : Finset Node)
  | timeout
  | preVoteReply (r : VoteReply Node)
  | voteReply (r : VoteReply Node)
  | appendReply (peer : Node) (r : AppendReply Node)

/-- `openLog` and `storeHandle` are the two halves of `start`, and `faults` says how the
persist calls of a section end. -/
inductive Event (Node α : Type) where
  | openLog
  | storeHandle
  | call (call : Call Node α) (faults : List (Option Fault))
  | restart

variable {Node α : Type} [LinearOrder Node]

def perform : Call Node α → Attempt (Replica Node α) Unit
  | .handleAppend req => discard (handleAppend req)
  | .handleVote req recent => discard (handleVote req recent)
  | .propose command => discard (propose command)
  | .reconfigure voters => discard (reconfigure voters)
  | .timeout => discard startPreElection
  | .preVoteReply r => discard (requestPreVote r)
  | .voteReply r => requestVote r
  | .appendReply peer r => replicateReply peer r

def performed (g : RaftGroup Node α) : Call Node α → RaftGroup Node α
  | .handleAppend req => (g.handleAppend req).1
  | .handleVote req recent => (g.handleVote req recent).1
  | .propose command => (g.propose command).1
  | .reconfigure voters => (g.reconfigure voters).1
  | .timeout => g.startPreElection.1
  | .preVoteReply r => (g.requestPreVote r).1
  | .voteReply r => g.requestVote r
  | .appendReply peer r => g.replicateReply peer r

/-- The threads that campaign are started by `start`. -/
def admits (r : Replica Node α) : Call Node α → Prop
  | .timeout => r.phase = .running ∧ r.group.role ≠ .leader ∧ r.group.nodeId ∈ r.group.voters
  | _ => True

instance (r : Replica Node α) (call : Call Node α) : Decidable (admits r call) := by
  unfold admits
  split <;> infer_instance

def step (r : Replica Node α) : Event Node α → Option (Replica Node α)
  | .openLog => if r.phase = .constructed then some { r with phase := .opening .current } else none
  | .storeHandle =>
      match r.phase with
      | .opening handle => some { r with handle := handle, phase := .running }
      | _ => none
  | .call call faults =>
      if admits r call then some (attempt (perform call) { r with faults := faults }).2 else none
  | .restart => (recover r).map fun g => ⟨g, .unopened, .constructed, false, [], r.tail⟩

def init (nodeId : Node) (voters : Finset Node) : Replica Node α :=
  ⟨RaftGroup.create nodeId voters, .unopened, .constructed, false, [], .ended⟩

/-- The positions that the replica acknowledges: in a reply to the leader, or by
counting itself among those that hold an entry of its own term. -/
def acknowledged (r : Replica Node α) : Event Node α → List Nat
  | .call (.handleAppend req) faults =>
      match (attempt (handleAppend req) { r with faults := faults }).1 with
      | .ok reply => if reply.success then [reply.matchIndex] else []
      | .error _ => []
  | .call (.appendReply _ reply) _ =>
      if reply.term ≤ r.group.currentTerm ∧ r.group.role = .leader ∧ reply.success = true ∧
          r.group.nodeId ∈ r.group.voters then
        (List.range' (r.group.commitIndex + 1) (r.group.log.length - r.group.commitIndex)).filter
          fun m => termAt r.group.log m = r.group.currentTerm
      else []
  | _ => []

/-- A replica takes no step after a failed persist call until it is restarted, it is not
restarted on a log whose last line has no newline, and no section runs between the two
halves of `start`. -/
def FailStop (r : Replica Node α) : Event Node α → Prop
  | .restart => r.tail ≠ .unended
  | .storeHandle => r.failed = false
  | _ => r.failed = false ∧ r.phase.Settled

instance (r : Replica Node α) (a : Event Node α) : Decidable (FailStop r a) := by
  unfold FailStop
  split <;> infer_instance

theorem follows_perform (r : Replica Node α) (call : Call Node α) :
    Follows (perform call) r (performed r.group call, ()) := by
  cases call with
  | handleAppend req => exact follows_discard (follows_handleAppend req)
  | handleVote req recent => exact follows_discard (follows_handleVote req recent)
  | propose command => exact follows_discard (follows_propose command)
  | reconfigure voters => exact follows_discard (follows_reconfigure voters)
  | timeout => exact follows_discard follows_startPreElection
  | preVoteReply reply => exact follows_discard (follows_requestPreVote reply)
  | voteReply reply => exact follows_requestVote reply
  | appendReply peer reply => exact follows_replicateReply peer reply

theorem Stored.performed {g : RaftGroup Node α} (h : Stored g) (call : Call Node α) :
    Stored (performed g call) := by
  cases call with
  | handleAppend req => exact h.handleAppend req
  | handleVote req recent =>
    show Stored (g.handleVote req recent).1
    unfold RaftGroup.handleVote
    split_ifs
    · exact h
    · exact h.adoptTerm req.term
    · exact h.adoptTerm req.term
  | propose command =>
    show Stored (g.propose command).1
    unfold RaftGroup.propose
    split
    · exact h
    · exact h.appendEntry command
  | reconfigure voters =>
    show Stored (g.reconfigure voters).1
    unfold RaftGroup.reconfigure RaftGroup.propose
    split_ifs
    · exact h
    · exact h
    · exact (h.appendEntry _).setVoters _
  | timeout =>
    show Stored g.startPreElection.1
    unfold RaftGroup.startPreElection
    split <;> exact h
  | preVoteReply r =>
    show Stored (g.requestPreVote r).1
    unfold RaftGroup.requestPreVote
    split_ifs
    · exact h
    · exact h.becomeFollower r.term
    · exact h
    · exact h
    · exact h
  | voteReply r => exact h.requestVote r
  | appendReply peer r => exact h.replicateReply peer r

section Runs

variable {r t : Replica Node α}

/-- While no persist call has failed, the file is complete and the handle belongs to it. -/
structure Inv (r : Replica Node α) : Prop where
  stored : r.failed = false → Stored r.group
  handle : r.failed = false → r.handle ≠ .stale
  phase : r.failed = false → ∀ handle, r.phase = .opening handle → handle = .current
  tail : r.failed = false → r.tail = .ended

theorem Inv.step {a : Event Node α} (h : Inv r) (ha : FailStop r a) (hstep : step r a = some t) :
    Inv t := by
  cases a with
  | openLog =>
    simp only [DurableAcks.step, Option.ite_none_right_eq_some, Option.some.injEq] at hstep
    obtain ⟨-, rfl⟩ := hstep
    exact ⟨h.stored, h.handle, fun _ _ heq => (Phase.opening.inj heq).symm, h.tail⟩
  | storeHandle =>
    simp only [DurableAcks.step] at hstep
    split at hstep <;> cases hstep
    rename_i handle hphase
    obtain rfl := h.phase ha handle hphase
    exact ⟨h.stored, fun _ => by simp, fun _ _ heq => by simp at heq, h.tail⟩
  | call call faults =>
    simp only [DurableAcks.step, Option.ite_none_right_eq_some, Option.some.injEq] at hstep
    obtain ⟨-, rfl⟩ := hstep
    have hfollows := follows_perform { r with faults := faults } call (h.handle ha.1) ha.2
    unfold Yields at hfollows
    split at hfollows
    · rename_i u heq
      obtain ⟨hgroup, hhandle, hphase, htail⟩ := hfollows
      rw [heq]
      refine ⟨fun _ => ?_, fun _ => hhandle, fun _ handle hopening => ?_,
        fun _ => htail (h.tail ha.1)⟩
      · rw [(Prod.mk.inj hgroup).1]
        exact (h.stored ha.1).performed call
      · have hsettled : r.phase.Settled := ha.2
        rw [← hphase.trans rfl, hopening] at hsettled
        exact hsettled.elim
    · rename_i u heq
      rw [heq]
      constructor <;> simp [hfollows]
  | restart =>
    obtain ⟨g, hg, rfl⟩ := Option.map_eq_some_iff.mp hstep
    simp only [recover, Option.ite_none_left_eq_some, Option.some.injEq] at hg
    obtain ⟨hread, rfl⟩ := hg
    refine ⟨fun _ => stored_restart r.group, fun _ => by simp, fun _ _ heq => by simp at heq,
      fun _ => ?_⟩
    -- What is left of the three ends is the one at which the log has all its newlines.
    have hended : r.tail ≠ .unended := ha
    cases htail : r.tail with
    | ended => rfl
    | unended => exact absurd htail hended
    | unreadable => exact absurd htail hread

/-- What a replica acknowledges is in its file and survives a restart. -/
theorem durable_of_acknowledged {n : Node} {V : Finset Node} {a : Event Node α} {m : Nat}
    (h : Reaches step FailStop (init n V) r) (ha : FailStop r a) (hstep : step r a = some t)
    (hm : m ∈ acknowledged r a) : Durable t m := by
  have hinit : Inv (init n V : Replica Node α) :=
    ⟨fun _ => rfl, fun _ => by simp [init], fun _ _ heq => by simp [init] at heq, fun _ => rfl⟩
  have hinv : Inv r := h.invariant Inv hinit fun _ _ _ hr hb hnext => hr.step hb hnext
  unfold acknowledged at hm
  split at hm
  · rename_i req faults
    obtain rfl : (attempt (handleAppend req) { r with faults := faults }).2 = t := by
      rw [← attempt_discard]
      simpa [step, admits, perform] using hstep
    have hfollows := follows_handleAppend (r := { r with faults := faults }) req
      (hinv.handle ha.1) ha.2
    split at hm
    · rename_i reply hok
      obtain ⟨hgroup, -, -, htail⟩ := hfollows.of_ok (Prod.ext hok rfl)
      have hstored := (hinv.stored ha.1).handleAppend req
      have hmatch := handleAppend_matchIndex (g := r.group) req
      rw [← hgroup] at hstored hmatch
      split at hm
      · rename_i hsuccess
        obtain rfl := List.mem_singleton.mp hm
        exact hstored.durable (htail (hinv.tail ha.1)) (hmatch hsuccess).le
      · simp at hm
    · simp at hm
  · rename_i peer reply faults
    split at hm
    · rename_i hcounts
      obtain rfl :
          onGroup (fun g => g.replicateReply peer reply) { r with faults := faults } = t := by
        simpa [step, admits, perform, attempt_replicateReply, hcounts.1] using hstep
      have hrange := List.mem_range'_1.mp (List.mem_filter.mp hm).1
      refine Stored.durable ?_ ?_ ?_
      · exact (hinv.stored ha.1).replicateReply peer reply
      · exact hinv.tail ha.1
      · change m ≤ (r.group.replicateReply peer reply).log.length
        rw [replicateReply_log_eq]
        omega
    · simp at hm
  · simp at hm

def sampleAppend : Call (Fin 3) Nat := .handleAppend ⟨1, 1, 0, 0, [⟨1, 1, .noop⟩], 0⟩

/-- The log cannot be written, and the replica is restarted. -/
def failAndRestart : List (Event (Fin 3) Nat) :=
  [.openLog, .storeHandle, .call sampleAppend [none, some .before], .restart, .openLog,
    .storeHandle]

theorem durable_of_acknowledged_of_restart : ∃ r t : Replica (Fin 3) Nat,
    Reaches step FailStop (init 0 {0, 1, 2}) r ∧ step r (.call sampleAppend []) = some t ∧
      1 ∈ acknowledged r (.call sampleAppend []) ∧ Durable t 1 := by
  obtain ⟨r, hr, hstop, hsome, hack⟩ := exists_reaches step FailStop
    (init 0 {0, 1, 2} : Replica (Fin 3) Nat) failAndRestart
    (fun r => FailStop r (.call sampleAppend []) ∧ (step r (.call sampleAppend [])).isSome ∧
      1 ∈ acknowledged r (.call sampleAppend [])) (by decide +kernel)
  obtain ⟨t, ht⟩ := Option.isSome_iff_exists.mp hsome
  exact ⟨r, t, hr, ht, hack, durable_of_acknowledged hr hstop ht hack⟩

/-- A request arrives before the log is open, and the leader sends it again later. -/
def requestBeforeStart : List (Event (Fin 3) Nat) :=
  [.call sampleAppend [], .openLog, .storeHandle]

theorem not_durable_of_acknowledged_of_requestBeforeStart :
    ¬∀ (r t : Replica (Fin 3) Nat) (a : Event (Fin 3) Nat) (m : Nat),
      Reaches step (fun _ _ => True) (init 0 {0, 1, 2}) r → step r a = some t →
      m ∈ acknowledged r a → Durable t m := by
  intro hall
  obtain ⟨r, hr, hack, hany⟩ := exists_reaches step (fun _ _ => True)
    (init 0 {0, 1, 2} : Replica (Fin 3) Nat) requestBeforeStart
    (fun r => 1 ∈ acknowledged r (.call sampleAppend []) ∧
      (step r (.call sampleAppend [])).any fun t => ¬Durable t 1) (by decide +kernel)
  obtain ⟨t, ht, hnot⟩ := (Option.any_eq_true _ _).mp hany
  exact of_decide_eq_true hnot (hall r t _ 1 hr ht hack)

end Runs

end LiteDB.DurableAcks
