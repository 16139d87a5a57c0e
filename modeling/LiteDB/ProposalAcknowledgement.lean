import LiteDB.RaftCluster

namespace LiteDB.ProposalAcknowledgement

open List RaftCluster RaftNode RaftNodeSpec Runs RaftGroup

variable {Node α : Type} {n : Node} {V : Finset Node} {g : RaftGroup Node α}

section Replicas

variable [LinearOrder Node]

def appliedAt (g : RaftGroup Node α) (index : Nat) : Option (Entry Node α) :=
  (g.applied.drop (g.applied.length - g.lastApplied))[index - 1]?

/-- The replica has applied exactly the committed part of its log, in order. -/
structure AppliedLog (g : RaftGroup Node α) : Prop where
  lastApplied : g.lastApplied = g.commitIndex
  commit_le : g.commitIndex ≤ g.log.length
  applied : ∃ old, g.applied = old ++ g.log.take g.lastApplied

variable {g' : RaftGroup Node α}

section

variable (hg : AppliedLog g)

include hg

omit [LinearOrder Node] in
theorem AppliedLog.length_take : (g.log.take g.lastApplied).length = g.lastApplied := by
  rw [List.length_take, hg.lastApplied]
  exact min_eq_left hg.commit_le

omit [LinearOrder Node] in
theorem AppliedLog.drop_eq :
    g.applied.drop (g.applied.length - g.lastApplied) = g.log.take g.lastApplied := by
  obtain ⟨old, hold⟩ := hg.applied
  have hdrop : g.applied.length - g.lastApplied = old.length := by
    rw [hold, length_append, hg.length_take, Nat.add_sub_cancel]
  rw [hdrop, hold, drop_left]

omit [LinearOrder Node] in
theorem AppliedLog.appliedAt_eq {index : Nat} (hpos : 0 < index)
    (hle : index ≤ g.lastApplied) : appliedAt g index = g.log[index - 1]? := by
  rw [appliedAt, hg.drop_eq, getElem?_take_of_lt (by omega)]

omit [LinearOrder Node] in
theorem AppliedLog.frame (hcommit : g'.commitIndex = g.commitIndex)
    (hlast : g'.lastApplied = g.lastApplied) (happlied : g'.applied = g.applied)
    (hlog : g.log.take g.lastApplied <+: g'.log) : AppliedLog g' := by
  have hlen := hg.length_take
  have hle := hlog.length_le
  refine ⟨by rw [hlast, hcommit, hg.lastApplied], ?_, ?_⟩
  · rw [hcommit, ← hg.lastApplied]
    omega
  · obtain ⟨old, hold⟩ := hg.applied
    refine ⟨old, ?_⟩
    rw [happlied, hlast, hold, prefix_iff_eq_take.mp hlog, hlen]

theorem AppliedLog.applyCommitted {index : Nat}
    (hle : g.commitIndex ≤ index) (hlen : index ≤ g.log.length) :
    AppliedLog (applyCommitted { g with commitIndex := index }) := by
  have hlast := hg.lastApplied
  obtain ⟨role, leader, heq, -⟩ :=
    applyCommitted_eq (g := { g with commitIndex := index }) (hlast.le.trans hle) hlen
  rw [heq]
  refine ⟨rfl, hlen, ?_⟩
  obtain ⟨old, hold⟩ := hg.applied
  refine ⟨old, ?_⟩
  change g.applied ++ (g.log.take index).drop g.lastApplied = old ++ g.log.take index
  have hprefix : g.log.take g.lastApplied = (g.log.take index).take g.lastApplied := by
    rw [take_take, min_eq_left (by omega)]
  rw [hold, append_assoc, hprefix, take_append_drop]

theorem AppliedLog.followCommit (leaderCommit : Nat) :
    AppliedLog (g.followCommit leaderCommit) := by
  have hlen := hg.commit_le
  unfold RaftGroup.followCommit
  split
  · exact hg.applyCommitted (by omega) (Nat.min_le_right _ _)
  · exact hg

theorem AppliedLog.advanceCommit : AppliedLog g.advanceCommit := by
  rcases advanceCommit_cases g with heq | ⟨idx, hlt, hle, -, -, heq⟩
  · rw [heq]
    exact hg
  · rw [heq]
    exact hg.applyCommitted hlt.le hle

omit [LinearOrder Node] in
theorem AppliedLog.of_sameLog (h : SameLog g g') : AppliedLog g' := by
  refine hg.frame h.commitIndex h.lastApplied h.applied ?_
  rw [h.log]
  exact take_prefix _ _

end

theorem AppliedLog.restart (hg : Consistent n V g) : AppliedLog g.restart := by
  obtain ⟨next, matched, heq, -⟩ := restart_eq hg
  rw [heq]
  exact ⟨rfl, Nat.zero_le _, g.applied, by simp [create]⟩

omit [LinearOrder Node] in
theorem AppliedLog.appendEntry (hg : AppliedLog g) (command : Command Node α) :
    AppliedLog (g.appendEntry command) :=
  hg.frame rfl rfl rfl
    (List.IsPrefix.trans (List.take_prefix _ _) (prefix_append _ _))

theorem AppliedLog.becomeLeader (hg : AppliedLog g) : AppliedLog g.becomeLeader :=
  hg.frame rfl rfl rfl
    (List.IsPrefix.trans (List.take_prefix _ _) (prefix_append _ _))

theorem AppliedLog.replicateReply (hg : AppliedLog g) (hcons : Consistent n V g) (peer : Node)
    (r : AppendReply Node) : AppliedLog (g.replicateReply peer r) := by
  unfold RaftGroup.replicateReply
  split_ifs
  · exact hg.of_sameLog (sameLog_becomeFollower hcons _)
  · exact hg
  · apply AppliedLog.advanceCommit
    exact hg.frame rfl rfl rfl (List.take_prefix _ _)
  · exact hg.frame rfl rfl rfl (List.take_prefix _ _)

theorem AppliedLog.handleAppend (hg : AppliedLog g) (hcons : Consistent n V g)
    {req : AppendRequest Node α} (hkeep : g.log.take g.lastApplied <+: (g.handleAppend req).1.log) :
    AppliedLog (g.handleAppend req).1 := by
  unfold RaftGroup.handleAppend at hkeep ⊢
  split_ifs at hkeep ⊢ with hold
  · exact hg
  · have haccepted := (hcons.adoptTerm req.term).acceptLeader req
    obtain ⟨role, voted, heq, -⟩ :=
      acceptLeader_adoptTerm_eq hcons (Nat.le_of_not_lt hold)
    have ha : AppliedLog ((g.adoptTerm req.term).acceptLeader req) := by
      rw [heq]
      exact hg.frame rfl rfl rfl (List.take_prefix _ _)
    have hsame : g.log.take g.lastApplied = ((g.adoptTerm req.term).acceptLeader req).log.take
          ((g.adoptTerm req.term).acceptLeader req).lastApplied := by
      rw [heq]
    rw [hsame] at hkeep
    generalize (g.adoptTerm req.term).acceptLeader req = a at hkeep haccepted ha ⊢
    unfold appendAfter at hkeep ⊢
    split_ifs at hkeep ⊢
    · exact ha
    · exact ha.frame rfl rfl rfl hkeep
    · apply AppliedLog.followCommit
      rw [(commits_followCommit _ _).log] at hkeep
      obtain ⟨voters, next, matched, heq, -⟩ := receiveEntries_eq haccepted req.entries
      rw [heq] at hkeep ⊢
      exact ha.frame rfl rfl rfl hkeep

end Replicas

variable {a : Event Node α} {out : List (Message Node α)}

section Transitions

variable [LinearOrder Node] {c : Cluster Node α}

theorem log_le_of_transition (h : Transition c a n g out) (hn : Consistent n V (c.nodes n))
    (hnot : ∀ req recent, a ≠ .deliver (.append n req) recent) : (c.nodes n).log <+: g.log := by
  rcases h.log_cases hn with heq | ⟨-, e, heq⟩ | ⟨req, recent, heq, -⟩ | ⟨req, count, -, -, rfl⟩
  · rw [heq]
  · rw [heq]
    exact prefix_append _ _
  · exact absurd heq (hnot req recent)
  · rcases crashInAppend_cases hn req count with ⟨-, heq⟩ | ⟨hle, a, stored, rfl, -, -, hgrow, heq⟩
    · rw [heq, restart_log hn]
    · obtain ⟨role, voted, haccept, -⟩ := acceptLeader_adoptTerm_eq hn hle
      rw [heq, restart_log (((hn.adoptTerm _).acceptLeader req).withLog _)]
      rw [haccept] at hgrow ⊢
      exact hgrow

theorem appliedLog_transition (h : Transition c a n g out) (hn : Consistent n V (c.nodes n))
    (hg : AppliedLog (c.nodes n))
    (hkeep : (c.nodes n).log.take (c.nodes n).lastApplied <+: g.log) : AppliedLog g := by
  cases h with
  | campaign => exact hg.of_sameLog (sameLog_startPreElection _)
  | heartbeat => exact hg
  | vote _ req recent => exact hg.of_sameLog (sameLog_handleVote hn req recent)
  | preVoteReply req r => exact hg.of_sameLog (sameLog_requestPreVote hn r)
  | voteReply req r =>
    rcases requestVote_cases hn r with ⟨-, -, -, -, heq⟩ | hsame
    · rw [heq]
      exact AppliedLog.becomeLeader (hg.frame rfl rfl rfl (List.take_prefix _ _))
    · exact hg.of_sameLog hsame
  | replicate => exact hg
  | append _ req recent => exact hg.handleAppend hn hkeep
  | appendReply peer req r => exact hg.replicateReply hn peer r
  | propose _ payload hrole =>
    rw [propose_eq hrole]
    exact hg.appendEntry _
  | reconfigure _ voters hrole hone =>
    obtain ⟨next, matched, heq, -⟩ := reconfigure_eq hn hrole hone
    rw [heq]
    exact (hg.appendEntry (.config voters)).frame rfl rfl rfl (List.take_prefix _ _)
  | restart => exact AppliedLog.restart hn
  | crashInVote _ req =>
    unfold crashInVote
    split
    · exact AppliedLog.restart hn
    · exact AppliedLog.restart (hn.adoptTerm _)
  | crashInAppend _ req count =>
    rcases crashInAppend_cases hn req count with ⟨-, heq⟩ | ⟨-, a, stored, rfl, -, -, -, heq⟩
    · rw [heq]
      exact AppliedLog.restart hn
    · rw [heq]
      exact AppliedLog.restart (((hn.adoptTerm _).acceptLeader req).withLog _)

end Transitions

section Sessions

/-- A cluster and the calls that have proposed an entry at a node and have not
returned from `wait_commit` yet. -/
structure Session (Node α : Type) where
  cluster : Cluster Node α
  waiting : List (Node × Entry Node α)

/-- A step of the group, or a turn of the loop of `wait_commit`. -/
inductive Call (Node α : Type) where
  | run (a : Event Node α)
  | wake (n : Node) (entry : Entry Node α) (expired : Bool)
deriving DecidableEq

variable [LinearOrder Node] [DecidableEq α]

/-- A proposal opens a call; the calls of a node end with its process. -/
def Session.waitingAfter (s : Session Node α) : Event Node α → List (Node × Entry Node α)
  | .propose n payload =>
      s.waiting ++
        [(n, ⟨(s.cluster.nodes n).currentTerm, (s.cluster.nodes n).log.length + 1,
          .data payload⟩)]
  | .restart n => s.waiting.filter fun w => w.1 ≠ n
  | .crash (.vote n _) _ => s.waiting.filter fun w => w.1 ≠ n
  | .crash (.append n _) _ => s.waiting.filter fun w => w.1 ≠ n
  | _ => s.waiting

def begin (voters : Finset Node) : Session Node α := ⟨start voters, []⟩

def next (s : Session Node α) : Call Node α → Option (Session Node α)
  | .run a => (step s.cluster a).map fun c => ⟨c, s.waitingAfter a⟩
  | .wake n entry expired =>
      if (n, entry) ∈ s.waiting ∧
          (s.cluster.nodes n).waitCommit entry.index expired ≠ none then
        some { s with waiting := s.waiting.erase (n, entry) }
      else none

/-- No append request makes a node discard an entry that it has applied or that
a call at this node is still waiting for. -/
def Keeps (s : Session Node α) : Call Node α → Prop
  | .run (.deliver (.append n req) _) =>
      (s.cluster.nodes n).log.take (s.cluster.nodes n).lastApplied <+:
          ((s.cluster.nodes n).handleAppend req).1.log ∧
        ∀ w ∈ s.waiting, w.1 = n →
          ((s.cluster.nodes n).handleAppend req).1.log[w.2.index - 1]? = some w.2
  | _ => True

/-- Waiting clients have their entries in the logs of their nodes. -/
structure SessionInv (V : Finset Node) (s : Session Node α) : Prop where
  consistent : ∀ n, Consistent n V (s.cluster.nodes n)
  applied : ∀ n, AppliedLog (s.cluster.nodes n)
  waiting : ∀ w ∈ s.waiting, 0 < w.2.index ∧
    (s.cluster.nodes w.1).log[w.2.index - 1]? = some w.2

instance (s : Session Node α) (call : Call Node α) : Decidable (Keeps s call) := by
  unfold Keeps
  split <;> infer_instance

variable {s s' : Session Node α}

omit [DecidableEq α] in
theorem mem_waitingAfter {w : Node × Entry Node α} (hw : w ∈ s.waitingAfter a) :
    w ∈ s.waiting ∨ ∃ n payload, a = .propose n payload ∧
      w = (n, ⟨(s.cluster.nodes n).currentTerm, (s.cluster.nodes n).log.length + 1,
        .data payload⟩) := by
  unfold Session.waitingAfter at hw
  split at hw
  · rcases mem_append.mp hw with hw | hw
    · exact .inl hw
    · exact .inr ⟨_, _, rfl, mem_singleton.mp hw⟩
  · exact .inl (mem_of_mem_filter hw)
  · exact .inl (mem_of_mem_filter hw)
  · exact .inl (mem_of_mem_filter hw)
  · exact .inl hw

omit [DecidableEq α] in
theorem Keeps.log_kept (hk : Keeps s (.run a)) (hinv : SessionInv V s)
    (h : Transition s.cluster a n g out) :
    (s.cluster.nodes n).log.take (s.cluster.nodes n).lastApplied <+: g.log ∧
      ∀ w ∈ s.waiting, w.1 = n → g.log[w.2.index - 1]? = some w.2 := by
  by_cases happend : ∃ req recent, a = .deliver (.append n req) recent
  · obtain ⟨req, recent, rfl⟩ := happend
    cases h
    exact hk
  · push Not at happend
    have hle := log_le_of_transition h (hinv.consistent n) happend
    refine ⟨List.IsPrefix.trans (List.take_prefix _ _) hle, ?_⟩
    rintro w hw rfl
    have hget := (hinv.waiting w hw).2
    obtain ⟨rest, hrest⟩ := hle
    rw [← hrest, getElem?_append_left (List.getElem?_eq_some_iff.mp hget).1]
    exact hget

omit [DecidableEq α] in
theorem SessionInv.transition (hinv : SessionInv V s) (hk : Keeps s (.run a))
    (h : Transition s.cluster a n g out) :
    SessionInv V ⟨s.cluster.put n g out, s.waitingAfter a⟩ := by
  obtain ⟨happlied, hwaiting⟩ := hk.log_kept hinv h
  refine ⟨fun m => ?_, fun m => ?_, fun w hw => ?_⟩
  · by_cases hm : m = n
    · subst hm
      rw [put_nodes_self]
      exact h.consistent (hinv.consistent m)
    · rw [put_nodes_ne _ g out hm]
      exact hinv.consistent m
  · by_cases hm : m = n
    · subst hm
      rw [put_nodes_self]
      exact appliedLog_transition h (hinv.consistent m) (hinv.applied m) happlied
    · rw [put_nodes_ne _ g out hm]
      exact hinv.applied m
  · rcases mem_waitingAfter hw with hw | ⟨m, payload, rfl, rfl⟩
    · refine ⟨(hinv.waiting w hw).1, ?_⟩
      by_cases hm : w.1 = n
      · rw [hm, put_nodes_self]
        exact hwaiting w hw hm
      · rw [put_nodes_ne _ g out hm]
        exact (hinv.waiting w hw).2
    · cases h with
      | propose _ _ hrole =>
        rw [put_nodes_self, propose_eq hrole]
        exact ⟨Nat.succ_pos _, by simp [appendEntry, appendLogPersist]⟩

theorem sessionInv_of_reaches (h : Reaches next Keeps (begin V) s) : SessionInv V s := by
  refine h.invariant (SessionInv V) ?_ ?_
  · exact ⟨fun n => ⟨rfl, rfl, rfl, rfl, rfl, rfl⟩, fun n => ⟨rfl, Nat.zero_le _, [], rfl⟩,
      by simp [begin]⟩
  · intro s call s' hinv hk hnext
    cases call with
    | run a =>
      obtain ⟨c, hstep, rfl⟩ := Option.map_eq_some_iff.mp hnext
      rcases step_cases hstep with ⟨m, rfl, rfl⟩ | ⟨n, g, out, htrans, rfl⟩
      · exact { hinv with }
      · exact hinv.transition hk htrans
    | wake n entry expired =>
      simp only [next] at hnext
      split at hnext <;> cases hnext
      exact ⟨hinv.consistent, hinv.applied, fun w hw => hinv.waiting w (mem_of_mem_erase hw)⟩

/-- In every run in which append requests discard no applied entry and no entry
that a call is still waiting for, a call that returns true is right: the node
has applied exactly the proposed entry at the position of the proposal. -/
theorem waitCommit_true (h : Reaches next Keeps (begin V) s) {n : Node} {entry : Entry Node α}
    {expired : Bool} (hw : (n, entry) ∈ s.waiting)
    (htrue : (s.cluster.nodes n).waitCommit entry.index expired = some true) :
    appliedAt (s.cluster.nodes n) entry.index = some entry := by
  have hinv := sessionInv_of_reaches h
  obtain ⟨hpos, hget⟩ := hinv.waiting _ hw
  rw [(hinv.applied n).appliedAt_eq hpos (waitCommit_eq_true.mp htrue)]
  exact hget

def electFirst : List (Event Nat Nat) :=
  elect 0 1 0 0 [(1, 0)]

def replicateFirst : List (Event Nat Nat) :=
  [Event.propose 0 7, .heartbeat 0] ++
    exchange 1 ⟨1, 0, 0, 0, [⟨1, 1, .noop⟩, ⟨1, 2, .data 7⟩], 0⟩ true 2

theorem waitCommit_true_of_three : ∃ s : Session Nat Nat,
    Reaches next Keeps (begin {0, 1, 2}) s ∧ (0, ⟨1, 2, .data 7⟩) ∈ s.waiting ∧
      (s.cluster.nodes 0).waitCommit 2 false = some true ∧
      appliedAt (s.cluster.nodes 0) 2 = some ⟨1, 2, .data 7⟩ := by
  obtain ⟨s, hs, hw, htrue⟩ := exists_reaches next Keeps (begin {0, 1, 2} : Session Nat Nat)
    ((electFirst ++ replicateFirst).map Call.run)
    (fun s => (0, ⟨1, 2, .data 7⟩) ∈ s.waiting ∧
      (s.cluster.nodes 0).waitCommit 2 false = some true) (by decide +kernel)
  exact ⟨s, hs, hw, htrue, waitCommit_true hs hw htrue⟩

/-- Node 0 has proposed 7 and cannot replicate it. Nodes 1 and 2 elect node 2,
which commits 9 at the same position, and node 0 hears of that in one append
request: it steps down, overwrites its log and applies 9 before the waiting call
looks again. -/
def overwriteFirst : List (Event Nat Nat) :=
  [Event.propose 0 7, .timeout 2] ++ gather ⟨true, 1, 2, 0, 0⟩ [(1, 1)] ++
    elect 2 2 0 0 [(1, 1)] ++ [Event.propose 2 9, .heartbeat 2] ++
    exchange 1 ⟨2, 2, 0, 0, [⟨2, 1, .noop⟩, ⟨2, 2, .data 9⟩], 0⟩ true 2 ++
    send 0 ⟨2, 2, 0, 0, [⟨2, 1, .noop⟩, ⟨2, 2, .data 9⟩], 2⟩

theorem waitCommit_true_of_discarded : ¬∀ (s : Session Nat Nat) (n : Nat)
    (entry : Entry Nat Nat) (expired : Bool),
    Reaches next (fun _ _ => True) (begin {0, 1, 2}) s → (n, entry) ∈ s.waiting →
      (s.cluster.nodes n).waitCommit entry.index expired = some true →
      appliedAt (s.cluster.nodes n) entry.index = some entry := by
  intro hall
  obtain ⟨s, hs, hw, htrue, hother⟩ := exists_reaches next (fun _ _ => True)
    (begin {0, 1, 2} : Session Nat Nat) ((electFirst ++ overwriteFirst).map Call.run)
    (fun s => (0, ⟨1, 2, .data 7⟩) ∈ s.waiting ∧
      (s.cluster.nodes 0).waitCommit 2 false = some true ∧
      appliedAt (s.cluster.nodes 0) 2 ≠ some ⟨1, 2, .data 7⟩) (by decide +kernel)
  exact hother (hall s 0 _ false hs hw htrue)

end Sessions

end LiteDB.ProposalAcknowledgement
