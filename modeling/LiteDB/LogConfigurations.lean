import LiteDB.ReplicaCalls

namespace LiteDB.LogConfigurations

open RaftCluster RaftNode RaftNodeSpec ReplicaCalls Runs RaftGroup

variable {Node α : Type} [LinearOrder Node] {n : Node} {V : Finset Node} {g g' : RaftGroup Node α}

/-- The voters are those of the last configuration entry in the log, or the initial ones,
and the peers are the other voters. -/
def Configured (n : Node) (V : Finset Node) (g : RaftGroup Node α) : Prop :=
  g.voters = latestConfig V g.log ∧ g.peers = sorted (g.voters.erase n)

/-- The request makes the replica drop its log from the preceding position on. -/
def Mismatch (g : RaftGroup Node α) (req : AppendRequest Node α) : Prop :=
  g.currentTerm ≤ req.term ∧ 0 < req.prevLogIndex ∧ req.prevLogIndex ≤ g.log.length ∧
    termAt g.log req.prevLogIndex ≠ req.prevLogTerm

instance (g : RaftGroup Node α) (req : AppendRequest Node α) : Decidable (Mismatch g req) :=
  inferInstanceAs (Decidable (_ ∧ _))

/-- A mismatch drops no configuration entry. -/
def KeepsConfigs (g : RaftGroup Node α) : Call Node α → Prop
  | .append req => Mismatch g req → ∀ e ∈ g.log.drop (req.prevLogIndex - 1), e.config? = none
  | _ => True

instance (g : RaftGroup Node α) (a : Call Node α) : Decidable (KeepsConfigs g a) := by
  induction a using Call.casesOn <;> unfold KeepsConfigs <;> infer_instance

section Logs

omit [LinearOrder Node]

theorem latestConfig_append_of_none {A B : List (Entry Node α)}
    (hB : ∀ e ∈ B, e.config? = none) : latestConfig V (A ++ B) = latestConfig V A := by
  have hnone : B.reverse.findSome? Entry.config? = none :=
    List.findSome?_eq_none_iff.mpr fun e he => hB e (List.mem_reverse.mp he)
  rw [latestConfig, List.reverse_append, List.findSome?_append, hnone]
  rfl

theorem latestConfig_take_of_none {log : List (Entry Node α)} {k : Nat}
    (hlog : ∀ e ∈ log.drop k, e.config? = none) :
    latestConfig V (log.take k) = latestConfig V log := by
  rw [← latestConfig_append_of_none hlog, List.take_append_drop]

end Logs

section Functions

omit [LinearOrder Node] in
theorem SameLog.voters_eq (h : SameLog g g') (hg : g.voters = latestConfig V g.log) :
    g'.voters = latestConfig V g'.log := by
  rw [h.voters, h.log, hg]

omit [LinearOrder Node] in
theorem voters_appendEntry (hg : g.voters = latestConfig V g.log) {command : Command Node α}
    (hcommand : ∀ voters, command ≠ .config voters) :
    (g.appendEntry command).voters = latestConfig V (g.appendEntry command).log := by
  have hnone : (⟨g.currentTerm, g.log.length + 1, command⟩ : Entry Node α).config? = none := by
    cases command with
    | config voters => exact absurd rfl (hcommand voters)
    | noop => rfl
    | data payload => rfl
  change g.voters = latestConfig V (g.log ++ [_])
  rw [latestConfig_concat, hnone, hg]
  rfl

theorem voters_requestVote (hc : Consistent n V g) (hg : g.voters = latestConfig V g.log)
    (r : VoteReply Node) : (g.requestVote r).voters = latestConfig V (g.requestVote r).log := by
  rcases requestVote_cases hc r with ⟨-, -, -, -, heq⟩ | hsame
  · rw [heq, becomeLeader]
    exact voters_appendEntry hg (by simp)
  · exact SameLog.voters_eq hsame hg

theorem voters_followCommit (hg : g.voters = latestConfig V g.log) (leaderCommit : Nat) :
    (g.followCommit leaderCommit).voters = latestConfig V (g.followCommit leaderCommit).log := by
  obtain ⟨_, _, _, _, _, _, heq, -⟩ := commits_followCommit g leaderCommit
  rw [heq]
  exact hg

variable (hc : Consistent n V g)

include hc

theorem voters_receiveEntries (hg : g.voters = latestConfig V g.log)
    (entries : List (Entry Node α)) :
    (g.receiveEntries entries).voters = latestConfig V (g.receiveEntries entries).log := by
  obtain ⟨voters, next, matched, heq, hvoters, -⟩ := receiveEntries_eq hc entries
  rw [heq]
  change voters = latestConfig V (entries.foldl mergeEntry g.log)
  rw [hvoters]
  split
  · rename_i hnil
    rw [hg, hnil, List.foldl_nil]
  · rfl

theorem voters_handleAppend (hg : g.voters = latestConfig V g.log)
    {req : AppendRequest Node α} (hok : KeepsConfigs g (.append req)) :
    (g.handleAppend req).1.voters = latestConfig V (g.handleAppend req).1.log := by
  unfold handleAppend
  split
  · exact hg
  · rename_i hterm
    have hle : g.currentTerm ≤ req.term := not_lt.mp hterm
    have haccepted := (hc.adoptTerm req.term).acceptLeader req
    obtain ⟨role, voted, heq, -⟩ := acceptLeader_adoptTerm_eq hc hle
    rw [heq] at haccepted ⊢
    unfold appendAfter
    split_ifs with hshort hmismatch
    · exact hg
    · -- only here the voters stay as they were
      have hle' : req.prevLogIndex ≤ g.log.length := by
        by_contra hlt
        exact hshort ⟨hmismatch.1, not_le.mp hlt⟩
      have hdropped := hok ⟨hle, hmismatch.1, hle', hmismatch.2⟩
      exact hg.trans (latestConfig_take_of_none hdropped).symm
    · exact voters_followCommit (voters_receiveEntries haccepted hg req.entries) _

theorem voters_replicateReply (hg : g.voters = latestConfig V g.log)
    (peer : Node) (r : AppendReply Node) :
    (g.replicateReply peer r).voters = latestConfig V (g.replicateReply peer r).log := by
  unfold replicateReply
  split_ifs
  · exact SameLog.voters_eq (sameLog_becomeFollower hc _) hg
  · exact hg
  · obtain ⟨_, _, _, _, _, _, heq, -⟩ := commits_advanceCommit { g with
        matchIndex := fun p => if p = peer then some r.matchIndex else g.matchIndex p
        nextIndex := fun p => if p = peer then some (r.matchIndex + 1) else g.nextIndex p }
    rw [heq]
    exact hg
  · exact hg

theorem voters_restart : g.restart.voters = latestConfig V g.restart.log := by
  obtain ⟨next, matched, heq, -⟩ := restart_eq hc
  rw [heq]

end Functions

theorem voters_of_call {a : Call Node α} (hc : Consistent n V g)
    (hg : g.voters = latestConfig V g.log) (hok : KeepsConfigs g a) (h : call g a = some g') :
    g'.voters = latestConfig V g'.log := by
  cases a with
  | timeout =>
    obtain ⟨-, heq⟩ := Option.ite_none_left_eq_some.mp h
    exact Option.some.inj heq ▸ SameLog.voters_eq (sameLog_startPreElection g) hg
  | vote req recent =>
    exact Option.some.inj h ▸ SameLog.voters_eq (sameLog_handleVote hc req recent) hg
  | preVoteReply r => exact Option.some.inj h ▸ SameLog.voters_eq (sameLog_requestPreVote hc r) hg
  | voteReply r => exact Option.some.inj h ▸ voters_requestVote hc hg r
  | append req => exact Option.some.inj h ▸ voters_handleAppend hc hg hok
  | appendReply peer r => exact Option.some.inj h ▸ voters_replicateReply hc hg peer r
  | propose payload =>
    obtain ⟨-, rfl⟩ := role_of_propose h
    exact voters_appendEntry hg (by simp)
  | reconfigure voters =>
    obtain ⟨hrole, hone, rfl⟩ := role_of_reconfigure h
    obtain ⟨next, matched, heq, -⟩ := reconfigure_eq hc hrole hone
    rw [heq]
    change voters = latestConfig V (g.log ++ [_])
    rw [latestConfig_concat]
    rfl
  | restart => exact Option.some.inj h ▸ voters_restart hc
  | crashInVote req =>
    cases h
    unfold crashInVote
    split
    · exact voters_restart hc
    · exact voters_restart (hc.adoptTerm req.term)
  | crashInAppend req count =>
    cases h
    rcases crashInAppend_cases hc req count with ⟨-, heq⟩ | ⟨-, a, stored, rfl, -, -, -, heq⟩
    · rw [heq]
      exact voters_restart hc
    · rw [heq]
      exact voters_restart (((hc.adoptTerm _).acceptLeader req).withLog _)

theorem configured_of_calls (h : Reaches call KeepsConfigs (create n V) g) : Configured n V g := by
  have hboth : Consistent n V g ∧ g.voters = latestConfig V g.log := by
    refine h.invariant (fun g => Consistent n V g ∧ g.voters = latestConfig V g.log)
      ⟨consistent_create n V, rfl⟩ fun u a w hu ha hw => ?_
    exact ⟨consistent_of_call hu.1 hw, voters_of_call hu.1 hu.2 ha hw⟩
  exact ⟨hboth.2, hboth.1.peers⟩

/-- A mismatch behind the configuration entry, and a restart. -/
def shortened : List (Call (Fin 3) Nat) :=
  [.append ⟨1, 0, 0, 0, [⟨1, 1, .noop⟩, ⟨1, 2, .config {0, 1}⟩, ⟨1, 3, .data 7⟩], 0⟩,
    .append ⟨2, 0, 3, 2, [], 0⟩, .restart]

theorem configured_of_shortened : ∃ g : RaftGroup (Fin 3) Nat,
    Reaches call KeepsConfigs (create 1 {0, 1, 2}) g ∧
      (g.log.length = 2 ∧ g.voters = {0, 1}) ∧ Configured 1 {0, 1, 2} g := by
  obtain ⟨g, hg, htest⟩ := exists_reaches call KeepsConfigs
    (create 1 {0, 1, 2} : RaftGroup (Fin 3) Nat) shortened
    (fun g => g.log.length = 2 ∧ g.voters = {0, 1}) (by decide +kernel)
  exact ⟨g, hg, htest, configured_of_calls hg⟩

/-- Node 0 leads term 1 and removes node 2 from its configuration, which no other node
learns of. Node 1 leads terms 2 and 3, and its first request of term 3 makes node 0 drop
the configuration entry. -/
def rolledBack : List (Event (Fin 3) Nat) :=
  elect 0 1 0 0 [(1, 0)] ++ .heartbeat 0 :: send 1 ⟨1, 0, 0, 0, [⟨1, 1, .noop⟩], 0⟩ ++
    .reconfigure 0 {0, 1} :: elect 1 2 1 1 [(2, 0)] ++
    .restart 1 :: elect 1 3 2 2 [(2, 2)] ++
    .heartbeat 1 :: send 0 ⟨3, 1, 2, 2, [⟨3, 3, .noop⟩], 0⟩

theorem not_configured_of_rolledBack : ¬∀ (n : Fin 3) (V : Finset (Fin 3))
    (g : RaftGroup (Fin 3) Nat), Reaches call (fun _ _ => True) (create n V) g →
      Configured n V g := by
  intro hall
  obtain ⟨c, hc, htest⟩ := exists_reaches step (fun _ _ => True)
    (start {0, 1, 2} : Cluster (Fin 3) Nat) rolledBack
    (fun c => (c.nodes 0).voters ≠ latestConfig {0, 1, 2} (c.nodes 0).log) (by decide +kernel)
  have hconfigured := hall 0 {0, 1, 2} (c.nodes 0) (calls_of_reaches hc 0)
  exact htest hconfigured.1

end LiteDB.LogConfigurations
