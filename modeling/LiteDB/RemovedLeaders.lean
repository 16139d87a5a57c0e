import LiteDB.ReplicaCalls

namespace LiteDB.RemovedLeaders

open RaftCluster RaftNode RaftNodeSpec ReplicaCalls Runs RaftGroup

variable {Node α : Type} [LinearOrder Node] {n : Node} {V : Finset Node} {g g' : RaftGroup Node α}
  {a : Call Node α}

/-- The leader gives up its role in its own term, and the process goes on. -/
def HandsOver (g : RaftGroup Node α) (a : Call Node α) (g' : RaftGroup Node α) : Prop :=
  g.role = .leader ∧ ¬a.Restarts ∧ g'.role ≠ .leader ∧ g'.currentTerm = g.currentTerm

instance (g : RaftGroup Node α) (a : Call Node α) (g' : RaftGroup Node α) :
    Decidable (HandsOver g a g') :=
  inferInstanceAs (Decidable (_ ∧ _))

/-- The calls of one leadership. -/
def Leading (ok : RaftGroup Node α → Call Node α → Prop) (g : RaftGroup Node α)
    (a : Call Node α) : Prop :=
  ok g a ∧ g.role = .leader ∧ ¬a.Restarts

/-- A leader that appends a configuration without itself hands over only when the entry is
committed. -/
def CommitsRemoval (ok : RaftGroup Node α → Call Node α → Prop) (g : RaftGroup Node α) : Prop :=
  ∀ voters g₁, ok g (.reconfigure voters) → call g (.reconfigure voters) = some g₁ →
    g.nodeId ∉ voters → ∀ g₂ a g₃, Reaches call (Leading ok) g₁ g₂ → ok g₂ a →
      call g₂ a = some g₃ → HandsOver g₂ a g₃ → g₁.log.length ≤ g₃.commitIndex

/-- A leader removes itself only when its log is committed, and it receives no request of
another leader of its term. -/
def Settled (g : RaftGroup Node α) : Call Node α → Prop
  | .reconfigure voters => g.nodeId ∉ voters → g.commitIndex = g.log.length
  | .append req => g.role = .leader → req.term ≠ g.currentTerm
  | _ => True

instance (g : RaftGroup Node α) (a : Call Node α) : Decidable (Settled g a) := by
  induction a using Call.casesOn <;> unfold Settled <;> infer_instance

/-- What a call leaves of a leader: a follower of a later term, or a log and a commit index
that have not shrunk, where the role is lost only when something is committed. -/
def Stays (g g' : RaftGroup Node α) : Prop :=
  (g.currentTerm < g'.currentTerm ∧ g'.role ≠ .leader) ∨
    g.log.length ≤ g'.log.length ∧ g.commitIndex ≤ g'.commitIndex ∧
      (g'.role = .leader ∨ g.commitIndex < g'.commitIndex)

omit [LinearOrder Node] in
theorem Stays.refl (hrole : g.role = .leader) : Stays g g :=
  .inr ⟨le_rfl, le_rfl, .inl hrole⟩

theorem stays_becomeFollower (hc : Consistent n V g) {t : Nat} (ht : g.currentTerm < t) :
    Stays g (g.becomeFollower t) := by
  rw [becomeFollower_eq hc]
  exact .inl ⟨ht, by simp⟩

theorem stays_handleVote (hc : Consistent n V g) (hrole : g.role = .leader)
    (req : VoteRequest Node) (recent : Bool) : Stays g (g.handleVote req recent).1 := by
  have hadopt : Stays g (g.adoptTerm req.term) := by
    unfold adoptTerm
    split
    · rename_i hlt
      exact stays_becomeFollower hc hlt
    · exact Stays.refl hrole
  unfold handleVote
  split_ifs
  · exact Stays.refl hrole
  · exact hadopt
  · exact hadopt

theorem stays_followCommit (hlt : g.currentTerm < g'.currentTerm) (hrole : g'.role ≠ .leader)
    (leaderCommit : Nat) : Stays g (g'.followCommit leaderCommit) := by
  obtain ⟨_, _, _, _, role, _, heq, hcases⟩ := commits_followCommit g' leaderCommit
  rw [heq]
  rcases hcases with rfl | ⟨hleader, -⟩
  · exact .inl ⟨hlt, hrole⟩
  · exact absurd hleader hrole

theorem stays_handleAppend (hc : Consistent n V g) (hrole : g.role = .leader)
    {req : AppendRequest Node α} (hok : Settled g (.append req)) :
    Stays g (g.handleAppend req).1 := by
  unfold handleAppend
  split
  · exact Stays.refl hrole
  · rename_i hterm
    have hle : g.currentTerm ≤ req.term := not_lt.mp hterm
    have hlt : g.currentTerm < req.term := lt_of_le_of_ne hle (hok hrole).symm
    have haccepted := (hc.adoptTerm req.term).acceptLeader req
    obtain ⟨role, voted, heq, hcases⟩ := acceptLeader_adoptTerm_eq hc hle
    have hfollower : role ≠ .leader := by
      rcases hcases with ⟨hsame, -⟩ | ⟨-, rfl, -⟩
      · exact absurd hsame hlt.ne
      · simp
    rw [heq] at haccepted ⊢
    unfold appendAfter
    split_ifs
    · exact .inl ⟨hlt, hfollower⟩
    · exact .inl ⟨hlt, hfollower⟩
    · refine stays_followCommit ?_ ?_ req.leaderCommit
      all_goals
        obtain ⟨_, _, _, hreceive, -⟩ := receiveEntries_eq haccepted req.entries
        rw [hreceive]
      · exact hlt
      · exact hfollower

theorem stays_advanceCommit (hrole : g.role = .leader) : Stays g g.advanceCommit := by
  rcases advanceCommit_cases g with heq | ⟨idx, hlt, -, -, -, heq⟩
  · rw [heq]
    exact Stays.refl hrole
  · obtain ⟨_, _, _, _, _, happly, -⟩ := commitsTo_applyCommitted g idx
    rw [heq, happly]
    exact .inr ⟨le_rfl, hlt.le, .inr hlt⟩

theorem stays_replicateReply (hc : Consistent n V g) (hrole : g.role = .leader) (peer : Node)
    (r : AppendReply Node) : Stays g (g.replicateReply peer r) := by
  unfold replicateReply
  split_ifs with hterm
  · exact stays_becomeFollower hc hterm
  · exact Stays.refl hrole
  · exact stays_advanceCommit (g :=
      { g with
        matchIndex := fun p => if p = peer then some r.matchIndex else g.matchIndex p
        nextIndex := fun p => if p = peer then some (r.matchIndex + 1) else g.nextIndex p }) hrole
  · exact .inr ⟨le_rfl, le_rfl, .inl hrole⟩

omit [LinearOrder Node] in
theorem stays_appendEntry (hrole : g.role = .leader) (command : Command Node α) :
    Stays g (g.appendEntry command) := by
  refine .inr ⟨?_, le_rfl, .inl hrole⟩
  simp [appendEntry, appendLogPersist]

theorem stays_of_call (hc : Consistent n V g) (hrole : g.role = .leader) (ha : ¬a.Restarts)
    (hok : Settled g a) (h : call g a = some g') : Stays g g' := by
  cases a with
  | timeout =>
    obtain ⟨hguard, -⟩ := Option.ite_none_left_eq_some.mp h
    exact absurd (.inl hrole) hguard
  | vote req recent => exact Option.some.inj h ▸ stays_handleVote hc hrole req recent
  | preVoteReply r =>
    cases h
    rw [requestPreVote, if_pos (.inl (by simp [hrole]))]
    exact Stays.refl hrole
  | voteReply r =>
    cases h
    rw [requestVote, if_pos (.inl (by simp [hrole]))]
    exact Stays.refl hrole
  | append req => exact Option.some.inj h ▸ stays_handleAppend hc hrole hok
  | appendReply peer r => exact Option.some.inj h ▸ stays_replicateReply hc hrole peer r
  | propose payload =>
    obtain ⟨-, rfl⟩ := role_of_propose h
    exact stays_appendEntry hrole _
  | reconfigure voters =>
    obtain ⟨-, hone, rfl⟩ := role_of_reconfigure h
    obtain ⟨next, matched, heq, -⟩ := reconfigure_eq hc hrole hone
    rw [heq]
    exact stays_appendEntry hrole (.config voters)
  | restart => exact absurd trivial ha
  | crashInVote req => exact absurd trivial ha
  | crashInAppend req count => exact absurd trivial ha

def Behind (n : Node) (V : Finset Node) (i : Nat) (g : RaftGroup Node α) : Prop :=
  Consistent n V g ∧ (g.role = .leader → i ≤ g.log.length ∧ i ≤ g.commitIndex + 1)

theorem Behind.call {i : Nat} (hg : Behind n V i g) (hok : Leading Settled g a)
    (h : call g a = some g') : Behind n V i g' := by
  obtain ⟨hc, hbehind⟩ := hg
  obtain ⟨hsettled, hrole, ha⟩ := hok
  obtain ⟨hlog, hcommit⟩ := hbehind hrole
  refine ⟨consistent_of_call hc h, fun hrole' => ?_⟩
  rcases stays_of_call hc hrole ha hsettled h with ⟨-, hlost⟩ | ⟨hlogLe, hcommitLe, -⟩
  · exact absurd hrole' hlost
  · omega

theorem commitsRemoval_of_calls (h : Reaches call Settled (create n V) g) :
    CommitsRemoval Settled g := by
  intro voters g₁ hok happend hn g₂ a g₃ hlead hok₂ hstep hover
  have hc := consistent_of_calls h
  have hrole := (role_of_reconfigure happend).1
  have hremoved : Behind n V g₁.log.length g₁ := by
    refine ⟨consistent_of_call hc happend, fun _ => ⟨le_rfl, ?_⟩⟩
    obtain ⟨-, hone, rfl⟩ := role_of_reconfigure happend
    obtain ⟨next, matched, heq, -⟩ := reconfigure_eq hc hrole hone
    have hcommitted := hok hn
    rw [heq]
    simp [appendEntry, appendLogPersist, hcommitted]
  obtain ⟨hc₂, hbehind⟩ := hlead.invariant (Behind n V g₁.log.length) hremoved
    fun _ _ _ hu hok hstep => hu.call hok hstep
  obtain ⟨hrole₂, ha, hlost, hterm⟩ := hover
  obtain ⟨-, hcommit⟩ := hbehind hrole₂
  rcases stays_of_call hc₂ hrole₂ ha hok₂ hstep with ⟨hlt, -⟩ | ⟨-, -, hrole₃ | hlt⟩
  · exact absurd hterm hlt.ne'
  · exact absurd hrole₃ hlost
  · omega

def leading : List (Call (Fin 3) Nat) :=
  [.timeout, .preVoteReply ⟨0, true, 1, true⟩, .voteReply ⟨1, true, 1, false⟩,
    .appendReply 1 ⟨1, true, 1, 1⟩]

def retire (g : RaftGroup (Fin 3) Nat) : Option (RaftGroup (Fin 3) Nat) := do
  let g₁ ← call g (.reconfigure {1, 2})
  let g₂ ← call g₁ (.appendReply 1 ⟨1, true, 1, 2⟩)
  call g₂ (.appendReply 2 ⟨1, true, 2, 2⟩)

theorem commitsRemoval_of_leading : ∃ g : RaftGroup (Fin 3) Nat,
    Reaches call Settled (create 0 {0, 1, 2}) g ∧
      (g.role = .leader ∧ Settled g (.reconfigure {1, 2}) ∧
        ∃ g' ∈ retire g, g'.role = .follower ∧ g'.commitIndex = 2) ∧
      CommitsRemoval Settled g := by
  obtain ⟨g, hg, htest⟩ := exists_reaches call Settled
    (create 0 {0, 1, 2} : RaftGroup (Fin 3) Nat) leading
    (fun g => g.role = .leader ∧ Settled g (.reconfigure {1, 2}) ∧
      ∃ g' ∈ retire g, g'.role = .follower ∧ g'.commitIndex = 2) (by decide +kernel)
  exact ⟨g, hg, htest, commitsRemoval_of_calls hg⟩

/-- Node 0 leads term 1, and the replies to the requests with its no-op are on their way. -/
def replying : List (Event (Fin 3) Nat) :=
  elect 0 1 0 0 [(1, 0)] ++
    [.heartbeat 0,
      .deliver (.replicate 0 1) false,
      .deliver (.replicate 0 2) false,
      .deliver (.append 1 ⟨1, 0, 0, 0, [⟨1, 1, .noop⟩], 0⟩) false,
      .deliver (.append 2 ⟨1, 0, 0, 0, [⟨1, 1, .noop⟩], 0⟩) false]

/-- It removes itself before they arrive, so that the second one commits the no-op alone. -/
def retireEarly (g : RaftGroup (Fin 3) Nat) :
    Option (RaftGroup (Fin 3) Nat × RaftGroup (Fin 3) Nat × RaftGroup (Fin 3) Nat) := do
  let g₁ ← call g (.reconfigure {1, 2})
  let g₂ ← call g₁ (.appendReply 1 ⟨1, true, 1, 1⟩)
  let g₃ ← call g₂ (.appendReply 2 ⟨1, true, 2, 1⟩)
  return (g₁, g₂, g₃)

theorem not_commitsRemoval_of_replying : ¬∀ (n : Fin 3) (V : Finset (Fin 3))
    (g : RaftGroup (Fin 3) Nat), Reaches call (fun _ _ => True) (create n V) g →
      CommitsRemoval (fun _ _ => True) g := by
  intro hall
  obtain ⟨c, hc, htest⟩ := exists_reaches step (fun _ _ => True)
    (start {0, 1, 2} : Cluster (Fin 3) Nat) replying
    (fun c => (c.nodes 0).nodeId = 0 ∧ ∃ p ∈ retireEarly (c.nodes 0), p.1.role = .leader ∧
      HandsOver p.2.1 (.appendReply 2 ⟨1, true, 2, 1⟩) p.2.2 ∧
      p.2.2.commitIndex < p.1.log.length) (by decide +kernel)
  obtain ⟨hid, ⟨g₁, g₂, g₃⟩, hretire, hrole, hover, hlt⟩ := htest
  obtain ⟨g₁', happend, hrest⟩ := Option.bind_eq_some_iff.mp hretire
  obtain ⟨g₂', hfirst, hrest⟩ := Option.bind_eq_some_iff.mp hrest
  obtain ⟨g₃', hsecond, hrest⟩ := Option.bind_eq_some_iff.mp hrest
  obtain ⟨rfl, rfl, rfl⟩ : g₁' = g₁ ∧ g₂' = g₂ ∧ g₃' = g₃ := by simpa using hrest
  have hcommits := hall 0 {0, 1, 2} (c.nodes 0) (calls_of_reaches hc 0)
  have hlead : Reaches call (Leading fun _ _ => True) g₁' g₂' :=
    Reaches.single ⟨trivial, hrole, id⟩ hfirst
  have hle := hcommits {1, 2} g₁' trivial happend (by rw [hid]; decide) g₂' _ g₃' hlead trivial
    hsecond hover
  exact absurd hlt (not_lt.mpr hle)

end LiteDB.RemovedLeaders
