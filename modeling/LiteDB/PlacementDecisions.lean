import LiteDB.PlacementDriver
import LiteDB.ReadyLeaders

namespace LiteDB.PlacementDecisions

open List
open LogMatching (UniqueLeaders)
open PlacementDriver (Decision applyDecision)
open ProposalAcknowledgement RaftCluster RaftNode RaftNodeSpec ReadyLeaders Runs
open StateMachineSafety

variable {Node : Type} {e : Entry Node (Decision Node)}

section Active

def reverse : Decision Node → Decision Node
  | .addNode node => .removeNode node
  | .removeNode node => .addNode node

/-- The active nodes are as the decision has it. -/
def Reflects (active : List Node) : Decision Node → Prop
  | .addNode node => node ∈ active
  | .removeNode node => node ∉ active

variable [LinearOrder Node]

/-- `_apply`. -/
def applyEntry (active : List Node) (e : Entry Node (Decision Node)) : List Node :=
  match e.command with
  | .data decision => applyDecision active decision
  | _ => active

def appliedSince (g : RaftGroup Node (Decision Node)) : List (Entry Node (Decision Node)) :=
  g.applied.drop (g.applied.length - g.lastApplied)

def activeOf (initialNodes : List Node) (g : RaftGroup Node (Decision Node)) : List Node :=
  (appliedSince g).foldl applyEntry initialNodes

variable {active : List Node} {decision : Decision Node}

theorem mem_applyDecision (h : active.Nodup) {node : Node} : node ∈ applyDecision active decision ↔
    decision = .addNode node ∨ (node ∈ active ∧ decision ≠ .removeNode node) := by
  cases decision with
  | addNode other =>
    simp only [applyDecision, Decision.addNode.injEq]
    split_ifs with hmem
    · aesop
    · simp [or_comm, eq_comm]
  | removeNode other => simp [applyDecision, h.mem_erase_iff, and_comm, eq_comm]

theorem nodup_applyEntry (h : active.Nodup) : (applyEntry active e).Nodup := by
  unfold applyEntry applyDecision
  split
  · split
    · split_ifs with hmem
      · exact h
      · simpa using h.concat hmem
    · exact h.erase _
  · exact h

/-- An entry of the decision itself makes it show, and it stays so under all entries but
those of the opposite one. -/
theorem reflects_applyEntry (h : active.Nodup) (hentry : e.command = .data decision ∨
      (Reflects active decision ∧ e.command ≠ .data (reverse decision))) :
    Reflects (applyEntry active e) decision := by
  unfold applyEntry
  split
  · rename_i other hother
    rw [hother, ne_eq, Command.data.injEq, Command.data.injEq] at hentry
    cases decision with
    | addNode node => exact (mem_applyDecision h).mpr hentry
    | removeNode node =>
      intro hmem
      rcases (mem_applyDecision h).mp hmem with rfl | ⟨hnode, hne⟩
      · simp [reverse] at hentry
      · exact hentry.elim hne fun hshown => hshown.1 hnode
  · rename_i hother
    exact (hentry.resolve_left (hother _)).1

theorem nodup_foldl (log : List (Entry Node (Decision Node))) (h : active.Nodup) :
    (log.foldl applyEntry active).Nodup := by
  induction log generalizing active with
  | nil => exact h
  | cons e log ih => exact ih (nodup_applyEntry h)

theorem reflects_foldl {log : List (Entry Node (Decision Node))} (h : active.Nodup)
    (hshown : Reflects active decision) (hkeep : ∀ e ∈ log, e.command ≠ .data (reverse decision)) :
    Reflects (log.foldl applyEntry active) decision := by
  induction log generalizing active with
  | nil => exact hshown
  | cons e log ih =>
    rw [forall_mem_cons] at hkeep
    exact ih (nodup_applyEntry h) (reflects_applyEntry h (.inr ⟨hshown, hkeep.1⟩)) hkeep.2

end Active

section Groups

variable [LinearOrder Node]

/-- The group with the calls of `propose` that wait, and the entries of those that have
answered `ok`. -/
structure Drivers (Node : Type) where
  group : Session Node (Decision Node)
  answered : List (Entry Node (Decision Node))

abbrev Drivers.cluster (s : Drivers Node) : Cluster Node (Decision Node) := s.group.cluster

/-- A step of the group, or the answer of `propose` when its wait is over. -/
inductive Event (Node : Type) where
  | raft (a : RaftCluster.Event Node (Decision Node))
  | answer (n : Node) (e : Entry Node (Decision Node)) (expired : Bool)

def start (voters : Finset Node) : Drivers Node := ⟨ProposalAcknowledgement.begin voters, []⟩

def step (s : Drivers Node) : Event Node → Option (Drivers Node)
  | .raft a => (next s.group (.run a)).map fun group => { s with group := group }
  | .answer n e expired =>
      (next s.group (.wake n e expired)).map fun group => ⟨group, s.answered ++ [e]⟩

def Safe (s : Drivers Node) : Event Node → Prop
  | .raft a => Orderly s.cluster a
  | .answer .. => True

instance [Fintype Node] (s : Drivers Node) (event : Event Node) : Decidable (Safe s event) := by
  unfold Safe
  split <;> infer_instance

/-- The group is safe and discards no entry that a call waits for, and the wait of a call
that answers has succeeded. -/
def Confirmed (s : Drivers Node) : Event Node → Prop
  | .raft a => Orderly s.cluster a ∧ Keeps s.group (.run a)
  | .answer n e expired => (s.cluster.nodes n).waitCommit e.index expired = some true

instance [Fintype Node] (s : Drivers Node) (event : Event Node) :
    Decidable (Confirmed s event) := by
  unfold Confirmed
  split <;> infer_instance

variable {V : Finset Node} {s s' : Drivers Node} {event : Event Node}

/-- What was answered has been applied somewhere. -/
structure Inv (V : Finset Node) (s : Drivers Node) : Prop where
  session : Reaches next Keeps (begin V) s.group
  group : Reaches RaftCluster.step Orderly (RaftCluster.start V) s.cluster
  answered : ∀ e ∈ s.answered, 0 < e.index ∧ ∃ n, e ∈ (s.cluster.nodes n).applied

theorem Inv.applied_subset (h : Inv V s) {a : RaftCluster.Event Node (Decision Node)}
    (hk : Keeps s.group (.run a)) {c : Cluster Node (Decision Node)}
    (hstep : RaftCluster.step s.cluster a = some c) (n : Node) :
    (s.cluster.nodes n).applied ⊆ (c.nodes n).applied := by
  have hinv := sessionInv_of_reaches h.session
  rcases step_cases hstep with ⟨m, rfl, rfl⟩ | ⟨m, g, out, ht, rfl⟩
  · exact List.Subset.refl _
  · by_cases hn : n = m
    · subst hn
      rw [put_nodes_self]
      exact (progress_of_transition ht (hinv.consistent n) (hinv.applied n)
        (hk.log_kept hinv ht).1).applied_subset
    · rw [put_nodes_ne _ g out hn]
      exact List.Subset.refl _

theorem Inv.step (h : Inv V s) (hok : Confirmed s event) (hstep : step s event = some s') :
    Inv V s' := by
  cases event with
  | raft a =>
    obtain ⟨group, hnext, rfl⟩ := Option.map_eq_some_iff.mp hstep
    obtain ⟨c, hc, rfl⟩ := Option.map_eq_some_iff.mp hnext
    refine ⟨h.session.tail hok.2 hnext, h.group.tail hok.1 hc, fun e he => ?_⟩
    obtain ⟨hpos, n, hn⟩ := h.answered e he
    exact ⟨hpos, n, h.applied_subset hok.2 hc n hn⟩
  | answer n e expired =>
    obtain ⟨group, hnext, rfl⟩ := Option.map_eq_some_iff.mp hstep
    have hkeeps : Keeps s.group (.wake n e expired) := trivial
    have hsession := h.session.tail hkeeps hnext
    simp only [ProposalAcknowledgement.next] at hnext
    split_ifs at hnext with hw
    cases hnext
    refine ⟨hsession, h.group, fun e' he' => ?_⟩
    rcases mem_append.mp he' with he' | he'
    · exact h.answered e' he'
    · obtain rfl := mem_singleton.mp he'
      have hinv := sessionInv_of_reaches h.session
      have hpos : 0 < e'.index := (hinv.waiting _ hw.1).1
      have hle : e'.index ≤ (s.group.cluster.nodes n).lastApplied := waitCommit_eq_true.mp hok
      obtain ⟨old, hold⟩ := (hinv.applied n).applied
      refine ⟨hpos, n, hold ▸ mem_append_right _ (mem_of_getElem? (i := e'.index - 1) ?_)⟩
      rw [getElem?_take_of_lt (by omega)]
      exact (hinv.waiting _ hw.1).2

/-- In every run in which the condition is met, a decision that was answered with `ok` has
been applied, and every replica that has come as far shows it until the opposite is decided. -/
theorem reflects_of_answered (initialNodes : List Node) (hnodup : initialNodes.Nodup)
    (h : Reaches step Confirmed (start V) s) (huniq : UniqueLeaders s.cluster)
    (he : e ∈ s.answered) {decision : Decision Node} (hdata : e.command = .data decision) :
    (∃ n, e ∈ (s.cluster.nodes n).applied) ∧ ∀ m, e.index ≤ (s.cluster.nodes m).lastApplied →
      appliedAt (s.cluster.nodes m) e.index = some e ∧
      ((∀ e' ∈ (appliedSince (s.cluster.nodes m)).drop e.index,
          e'.command ≠ .data (reverse decision)) →
        Reflects (activeOf initialNodes (s.cluster.nodes m)) decision) := by
  have hinv : Inv V s := h.invariant _ ⟨Reaches.refl _, Reaches.refl _, by simp [start]⟩
    fun _ _ _ hu hok hstep => hu.step hok hstep
  have hsafe : GroupSafe V s.cluster := groupSafe_of_reaches hinv.group huniq
  obtain ⟨hpos, n, hn⟩ := hinv.answered e he
  refine ⟨⟨n, hn⟩, fun m hm => ?_⟩
  have hlen := (hsafe.applied m).length_take
  obtain ⟨A, e', hA, hlenA, he'⟩ := exists_concat_le
    ((s.cluster.nodes m).log.take (s.cluster.nodes m).lastApplied) (i := e.index - 1) (by omega)
  obtain ⟨hindex, hmem⟩ := appliedFrom_log hsafe m _ e' he'
  obtain ⟨record, hrecord⟩ := hsafe.safe
  obtain rfl : e = e' := hrecord.applied_unique hn hmem (by omega)
  rw [getElem?_take_of_lt (by omega)] at he'
  refine ⟨((hsafe.applied m).appliedAt_eq hpos hm).trans he', fun hkeep => ?_⟩
  obtain ⟨B, hB⟩ := hA
  have happlied : appliedSince (s.cluster.nodes m) = A ++ [e] ++ B := by
    rw [appliedSince, (hsafe.applied m).drop_eq, hB]
  have hdrop : (A ++ [e] ++ B).drop e.index = B := drop_left' (by simp; omega)
  rw [happlied, hdrop] at hkeep
  rw [activeOf, happlied, foldl_append, foldl_append]
  have hbefore : (A.foldl applyEntry initialNodes).Nodup := nodup_foldl A hnodup
  exact reflects_foldl (nodup_applyEntry hbefore) (reflects_applyEntry hbefore (.inl hdata)) hkeep

/-- Driver 0 of three is elected by its own vote and that of driver 1, and is asked to add
node 2. -/
def proposeFirst : List (RaftCluster.Event (Fin 3) (Decision (Fin 3))) :=
  elect 0 1 0 0 [(1, 0)] ++ [.propose 0 (.addNode 2)]

def replicateFirst : List (RaftCluster.Event (Fin 3) (Decision (Fin 3))) :=
  .heartbeat 0 ::
    exchange 1 ⟨1, 0, 0, 0, [⟨1, 1, .noop⟩, ⟨1, 2, .data (.addNode 2)⟩], 0⟩ true 2

theorem reflects_of_replicateFirst : ∃ s : Drivers (Fin 3),
    Reaches step Confirmed (start {0, 1, 2}) s ∧ ⟨1, 2, .data (.addNode 2)⟩ ∈ s.answered ∧
      2 ∈ activeOf [0, 1] (s.cluster.nodes 0) := by
  obtain ⟨s, hs, hmem, hlast, hrest, huniq⟩ := exists_reaches step Confirmed (start {0, 1, 2})
    ((proposeFirst ++ replicateFirst).map Event.raft ++
      [.answer 0 ⟨1, 2, .data (.addNode 2)⟩ false])
    (fun s => ⟨1, 2, .data (.addNode 2)⟩ ∈ s.answered ∧ (s.cluster.nodes 0).lastApplied = 2 ∧
      (appliedSince (s.cluster.nodes 0)).drop 2 = [] ∧
      UniqueLeaders s.cluster)
    (by decide +kernel)
  have hshown := (reflects_of_answered [0, 1] (by decide) hs huniq hmem rfl).2 0 hlast.ge
  exact ⟨s, hs, hmem, hshown.2 (by simp [hrest])⟩

/-- Driver 0 replicates nothing, and its wait times out. Driver 2 is elected in term 2, and
what it is asked to do is committed at the same position. -/
def overwriteFirst : List (RaftCluster.Event (Fin 3) (Decision (Fin 3))) :=
  .timeout 2 :: gather ⟨true, 1, 2, 0, 0⟩ [(1, 1)] ++ elect 2 2 0 0 [(1, 1)] ++
    [RaftCluster.Event.propose 2 (.addNode 1), .heartbeat 2] ++
    exchange 1 ⟨2, 2, 0, 0, [⟨2, 1, .noop⟩, ⟨2, 2, .data (.addNode 1)⟩], 0⟩ true 2

theorem not_reflects_of_overwriteFirst : ¬∀ (s : Drivers (Fin 3)) (e : Entry (Fin 3) _)
    (decision : Decision (Fin 3)), Reaches step Safe (start {0, 1, 2}) s →
    UniqueLeaders s.cluster → e ∈ s.answered → e.command = .data decision →
    (∃ n, e ∈ (s.cluster.nodes n).applied) ∧ ∀ m, e.index ≤ (s.cluster.nodes m).lastApplied →
      (∀ e' ∈ (appliedSince (s.cluster.nodes m)).drop e.index,
          e'.command ≠ .data (reverse decision)) →
        Reflects (activeOf [0, 1] (s.cluster.nodes m)) decision := by
  intro hall
  obtain ⟨s, hs, hmem, hlast, hrest, huniq, hlost⟩ := exists_reaches step Safe (start {0, 1, 2})
    (proposeFirst.map Event.raft ++ .answer 0 ⟨1, 2, .data (.addNode 2)⟩ true ::
      overwriteFirst.map Event.raft)
    (fun s => ⟨1, 2, .data (.addNode 2)⟩ ∈ s.answered ∧ 2 ≤ (s.cluster.nodes 2).lastApplied ∧
      (appliedSince (s.cluster.nodes 2)).drop 2 = [] ∧
      UniqueLeaders s.cluster ∧
      2 ∉ activeOf [0, 1] (s.cluster.nodes 2)) (by decide +kernel)
  exact hlost ((hall s _ _ hs huniq hmem rfl).2 2 hlast (by simp [hrest]))

end Groups

end LiteDB.PlacementDecisions
