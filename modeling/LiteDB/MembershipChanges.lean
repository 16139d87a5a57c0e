import LiteDB.StateMachineSafety

namespace LiteDB.MembershipChanges

open LogMatching RaftCluster RaftNode Runs StateMachineSafety

variable {Node α : Type} [LinearOrder Node]

/-- An append reply is handled in the term in which its request was sent. -/
def RepliesInTerm (c : Cluster Node α) : Event Node α → Prop
  | .deliver (.appendReply _ req _) _ => (c.nodes req.leaderId).currentTerm = req.term
  | _ => True

instance (c : Cluster Node α) (a : Event Node α) : Decidable (RepliesInTerm c a) := by
  induction a using Event.casesOn with
  | deliver m => induction m using Message.casesOn <;> unfold RepliesInTerm <;> infer_instance
  | _ => unfold RepliesInTerm; infer_instance

variable {V : Finset Node} {c : Cluster Node α} {a : Event Node α}

omit [LinearOrder Node] in
theorem orderlyReplies_of_inTerm (h : RepliesInTerm c a) : OrderlyReplies c a := by
  unfold OrderlyReplies
  split
  · exact fun _ => .inr h
  · trivial

variable [DecidableEq α]

theorem applied_command_eq_of_careful
    (hrun : Reaches step (fun c a => RepliesInTerm c a ∧ CarefulChanges c a) (start V) c)
    (huniq : UniqueLeaders c) {n m : Node} {e e' : Entry Node α} (he : e ∈ (c.nodes n).applied)
    (he' : e' ∈ (c.nodes m).applied) (hindex : e.index = e'.index) : e.command = e'.command := by
  have horderly : Reaches step Orderly (start V) c :=
    hrun.weaken (fun _ => True) trivial (fun _ _ _ _ _ _ => trivial)
      fun _ _ _ hok => ⟨hok.2, orderlyReplies_of_inTerm hok.1⟩
  obtain ⟨h, hc⟩ := clusterSafe_of_reaches horderly huniq
  rw [hc.applied_unique he he' hindex]

/-- Leader completeness. What a replica counts as committed is in the log of every leader
of the same or a later term, and two replicas never count different entries. -/
theorem committed_prefix_of_leader (hrun : Reaches step Orderly (start V) c)
    (huniq : UniqueLeaders c) (n m : Node) :
    ReplicaSafety.Comparable ((c.nodes n).log.take (c.nodes n).commitIndex)
        ((c.nodes m).log.take (c.nodes m).commitIndex) ∧
      ((c.nodes m).role = .leader → (c.nodes n).currentTerm ≤ (c.nodes m).currentTerm →
        (c.nodes n).log.take (c.nodes n).commitIndex <+: (c.nodes m).log) := by
  obtain ⟨h, hc⟩ := clusterSafe_of_reaches hrun huniq
  have hn := (hc.nodes n).committed
  refine ⟨hn.comparable_committed (hc.nodes m).committed hc.record hc.log.wellformed, ?_⟩
  intro hrole hterm
  obtain ⟨-, hbase, hfull, -⟩ := (hc.log.nodes m).leader hrole
  obtain ⟨b, hb⟩ := Option.ne_none_iff_exists'.mp hbase
  rw [← hfull]
  rcases hn with hnil | ⟨T, i, k, hcommits, hT, hle⟩
  · exact hnil ▸ List.nil_prefix
  · have hv := hc.record.valid hc.log.wellformed
    rcases (hT.trans hterm).lt_or_eq with hlt | rfl
    · exact (hle.trans (hv.complete _ b hb T hlt k i hcommits)).trans (hv.base_le hb)
    · exact hle.trans (List.take_prefix i _)

def leadZero : List (Event (Fin 3) Nat) :=
  elect 0 1 0 0 [(1, 0)] ++ .heartbeat 0 :: send 1 ⟨1, 0, 0, 0, [⟨1, 1, .noop⟩], 0⟩

/-- Node 2 is removed once the no-op is committed, and node 1 learns of it. -/
def removeOne : List (Event (Fin 3) Nat) :=
  leadZero ++
    [Event.deliver (.appendReply 1 ⟨1, 0, 0, 0, [⟨1, 1, .noop⟩], 0⟩ ⟨1, true, 1, 1⟩) false,
      .reconfigure 0 {0, 1}] ++
    exchange 1 ⟨1, 0, 1, 1, [⟨1, 2, .config {0, 1}⟩], 1⟩ true 2 ++
    send 1 ⟨1, 0, 2, 1, [], 2⟩

/-- Two changes are proposed one on top of the other, so that node 0 alone is a
majority of the second. It commits both as soon as any reply makes it look, while
nodes 1 and 2 still vote by the first three voters. -/
def removeTwo : List (Event (Fin 3) Nat) :=
  leadZero ++
    [Event.reconfigure 0 {0, 1},
      .reconfigure 0 {0},
      .deliver (.appendReply 1 ⟨1, 0, 0, 0, [⟨1, 1, .noop⟩], 0⟩ ⟨1, true, 1, 1⟩) false] ++
    elect 1 2 1 1 [(2, 0)] ++
    .heartbeat 1 :: exchange 2 ⟨2, 1, 1, 1, [⟨2, 2, .noop⟩], 0⟩ false 0 ++
    exchange 2 ⟨2, 1, 0, 0, [⟨1, 1, .noop⟩, ⟨2, 2, .noop⟩], 0⟩ true 2

theorem applied_command_eq_of_removeOne : ∃ c : Cluster (Fin 3) Nat,
    Reaches step (fun c a => RepliesInTerm c a ∧ CarefulChanges c a) (start {0, 1, 2}) c ∧
      UniqueLeaders c ∧ ⟨1, 2, .config {0, 1}⟩ ∈ (c.nodes 0).applied ∧
      (∃ e ∈ (c.nodes 1).applied, e.index = 2) ∧
      ∀ e ∈ (c.nodes 1).applied, e.index = 2 → .config {0, 1} = e.command := by
  obtain ⟨c, hc, huniq, happlied, hother⟩ := exists_reaches step
    (fun c a => RepliesInTerm c a ∧ CarefulChanges c a)
    (start {0, 1, 2} : Cluster (Fin 3) Nat) removeOne
    (fun c => UniqueLeaders c ∧
      ⟨1, 2, .config {0, 1}⟩ ∈ (c.nodes 0).applied ∧
      ∃ e ∈ (c.nodes 1).applied, e.index = 2) (by decide +kernel)
  exact ⟨c, hc, huniq, happlied, hother, fun e he hindex =>
    applied_command_eq_of_careful hc huniq happlied he hindex.symm⟩

/-- The leader has what node 1 has committed. -/
theorem committed_prefix_of_removeOne : ∃ c : Cluster (Fin 3) Nat,
    ((c.nodes 1).log.take (c.nodes 1).commitIndex).length = 2 ∧
      (c.nodes 1).log.take (c.nodes 1).commitIndex <+: (c.nodes 0).log := by
  obtain ⟨c, hc, huniq, hlength, hrole, hterm⟩ := exists_reaches step Orderly
    (start {0, 1, 2} : Cluster (Fin 3) Nat) removeOne
    (fun c => UniqueLeaders c ∧ ((c.nodes 1).log.take (c.nodes 1).commitIndex).length = 2 ∧
      (c.nodes 0).role = .leader ∧ (c.nodes 1).currentTerm ≤ (c.nodes 0).currentTerm)
    (by decide +kernel)
  exact ⟨c, hlength, (committed_prefix_of_leader hc huniq 1 0).2 hrole hterm⟩

theorem applied_command_ne_of_removeTwo : ¬∀ c : Cluster (Fin 3) Nat,
    Reaches step RepliesInTerm (start {0, 1, 2}) c → UniqueLeaders c → ∀ n m e e',
      e ∈ (c.nodes n).applied → e' ∈ (c.nodes m).applied → e.index = e'.index →
      e.command = e'.command := by
  intro hall
  obtain ⟨c, hc, huniq, hfirst, hsecond⟩ := exists_reaches step RepliesInTerm
    (start {0, 1, 2} : Cluster (Fin 3) Nat) removeTwo
    (fun c => UniqueLeaders c ∧
      ⟨1, 2, .config {0, 1}⟩ ∈ (c.nodes 0).applied ∧ ⟨2, 2, .noop⟩ ∈ (c.nodes 1).applied)
    (by decide +kernel)
  have hsame := hall c hc huniq 0 1 _ _ hfirst hsecond rfl
  simp at hsame

end LiteDB.MembershipChanges
