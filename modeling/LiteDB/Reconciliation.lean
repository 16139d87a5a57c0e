import LiteDB.PlacementBalance
import LiteDB.RaftNodeSpec

namespace LiteDB.Reconciliation

open List PlacementDriver PlacementBalance RaftNode RaftNodeSpec

variable {Node : Type} [LinearOrder Node]

def reconfigured : Call Node → Option (Finset Node)
  | .reconfigure _ voters => some voters
  | .hostShard _ _ | .dropShard _ _ => none

/-- The configuration that a pass of `_reconcile` asks the leader of the shard for. -/
def issued (want : List Node) (shard : Nat) (voters : Finset Node) : Option (Finset Node) :=
  (changes want shard voters).findSome? reconfigured

def pass (want : List Node) (shard : Nat) (voters : Finset Node) : Finset Node :=
  (issued want shard voters).getD voters

/-- One node nearer to the target; nodes are dropped only when none is missing. -/
inductive Nears (target voters : Finset Node) : Finset Node → Prop where
  | add (node : Node) (hwant : node ∈ target) (hnew : node ∉ voters) :
      Nears target voters (insert node voters)
  | drop (node : Node) (hsub : target ⊆ voters) (hold : node ∈ voters) (hnot : node ∉ target) :
      Nears target voters (voters.erase node)

def distance (target voters : Finset Node) : Nat :=
  (target \ voters).card + (voters \ target).card

variable {voters new : Finset Node}

namespace Nears

variable {target : Finset Node}

variable (h : Nears target voters new)

include h

theorem oneChange : ShardGroup.OneChange voters new := by
  cases h with
  | add node hwant hnew =>
    have : symmDiff voters (insert node voters) = {node} := by
      ext x
      simp only [Finset.mem_symmDiff, Finset.mem_insert, Finset.mem_singleton]
      grind
    rw [ShardGroup.OneChange, this, Finset.card_singleton]
  | drop node hsub hold hnot =>
    have : symmDiff voters (voters.erase node) = {node} := by
      ext x
      simp only [Finset.mem_symmDiff, Finset.mem_erase, Finset.mem_singleton]
      grind
    rw [ShardGroup.OneChange, this, Finset.card_singleton]

theorem keeps {node : Node} (hwant : node ∈ target) (hmem : node ∈ voters) : node ∈ new := by
  cases h with
  | add => exact Finset.mem_insert_of_mem hmem
  | drop other hsub hold hnot =>
    exact Finset.mem_erase_of_ne_of_mem (fun heq => hnot (heq ▸ hwant)) hmem

theorem distance_succ : distance target new + 1 = distance target voters := by
  cases h with
  | add node hwant hnew =>
    have hmissing : target \ insert node voters = (target \ voters).erase node := by
      ext x
      simp only [Finset.mem_sdiff, Finset.mem_insert, Finset.mem_erase]
      grind
    have hextra : insert node voters \ target = voters \ target :=
      Finset.insert_sdiff_of_mem _ hwant
    have hcard := Finset.card_erase_add_one (Finset.mem_sdiff.mpr ⟨hwant, hnew⟩)
    rw [distance, distance, hmissing, hextra]
    omega
  | drop node hsub hold hnot =>
    have hmissing : target \ voters.erase node = target \ voters := by
      ext x
      simp only [Finset.mem_sdiff, Finset.mem_erase]
      grind
    have hextra : voters.erase node \ target = (voters \ target).erase node :=
      Finset.erase_sdiff_comm _ _ _
    have hcard := Finset.card_erase_add_one (Finset.mem_sdiff.mpr ⟨hold, hnot⟩)
    rw [distance, distance, hmissing, hextra]
    omega

theorem min_card_le {floor : Nat}
    (hfloor : min floor target.card ≤ voters.card) : min floor target.card ≤ new.card := by
  cases h with
  | add node hwant hnew =>
    rw [Finset.card_insert_of_notMem hnew]
    omega
  | drop node hsub hold hnot =>
    have hle : target ⊆ voters.erase node := fun x hx =>
      Finset.mem_erase_of_ne_of_mem (fun heq => hnot (heq ▸ hx)) (hsub hx)
    exact (min_le_right _ _).trans (Finset.card_le_card hle)

end Nears

theorem distance_eq_zero {target : Finset Node} : distance target voters = 0 ↔ voters = target := by
  rw [distance, Nat.add_eq_zero_iff, Finset.card_eq_zero, Finset.card_eq_zero,
    Finset.sdiff_eq_empty_iff_subset, Finset.sdiff_eq_empty_iff_subset]
  exact ⟨fun ⟨h₁, h₂⟩ => h₂.antisymm h₁, fun h => ⟨h.ge, h.le⟩⟩

variable {want : List Node} {shard : Nat}

/-- A pass asks for one change while there is a difference, and for nothing when there
is none. -/
theorem issued_cases (shard : Nat) (voters : Finset Node) (hwant : want ≠ []) :
    (voters = want.toFinset ∧ changes want shard voters = []) ∨
      ∃ new, issued want shard voters = some new ∧ Nears want.toFinset voters new := by
  have hsub (hadd : want.filter (· ∉ voters) = []) : want.toFinset ⊆ voters := by
    intro x hx
    have := filter_eq_nil_iff.mp hadd x (mem_toFinset.mp hx)
    simpa using this
  unfold issued changes
  split
  next node _ hadd =>
    obtain ⟨hmem, hnew⟩ := mem_filter.mp (hadd ▸ mem_cons_self)
    exact .inr ⟨_, rfl, Nears.add node (mem_toFinset.mpr hmem) (of_decide_eq_true hnew)⟩
  next node _ hadd hdrop =>
    obtain ⟨hmem, hnot⟩ := mem_filter.mp (hdrop ▸ mem_cons_self)
    have hnot : node ∉ want.toFinset := by simpa using hnot
    have hnears := Nears.drop node (hsub hadd) (mem_sorted.mp hmem) hnot
    -- the target has a node, which the new configuration keeps
    obtain ⟨x, hx⟩ := exists_mem_of_ne_nil want hwant
    have hx := mem_toFinset.mpr hx
    have hne : voters.erase node ≠ ∅ :=
      Finset.ne_empty_of_mem (hnears.keeps hx (hsub hadd hx))
    rw [if_neg hne]
    exact .inr ⟨_, rfl, hnears⟩
  next hadd hdrop =>
    refine .inl ⟨Finset.Subset.antisymm (fun x hx => ?_) (hsub hadd), rfl⟩
    have := filter_eq_nil_iff.mp hdrop x (mem_sorted.mpr hx)
    simpa using this

theorem not_mem_of_dropShard {node : Node}
    (h : Call.dropShard node shard ∈ changes want shard voters) : node ∉ want := by
  unfold changes at h
  split at h
  next => simp at h
  next other _ _ hdrop =>
    obtain ⟨-, hnot⟩ := mem_filter.mp (hdrop ▸ mem_cons_self)
    split at h
    · exact absurd h not_mem_nil
    · obtain rfl : node = other := by simpa using h
      exact of_decide_eq_true hnot
  next => exact absurd h not_mem_nil

theorem issued_of_changes_nil (h : changes want shard voters = []) :
    issued want shard voters = none := by
  rw [issued, h]
  rfl

theorem nears_of_issued (hwant : want ≠ [])
    (h : issued want shard voters = some new) : Nears want.toFinset voters new := by
  rcases issued_cases shard voters hwant with ⟨-, hnil⟩ | ⟨v, hv, hnears⟩
  · rw [issued_of_changes_nil hnil] at h
    contradiction
  · rwa [← Option.some.inj (hv.symm.trans h)]

theorem pass_cases (shard : Nat) (voters : Finset Node) (hwant : want ≠ []) :
    (voters = want.toFinset ∧ pass want shard voters = voters) ∨
      Nears want.toFinset voters (pass want shard voters) := by
  unfold pass
  rcases issued_cases shard voters hwant with ⟨heq, hnil⟩ | ⟨v, hv, hnears⟩
  · exact .inl ⟨heq, by rw [issued_of_changes_nil hnil, Option.getD_none]⟩
  · rw [hv, Option.getD_some]
    exact .inr hnears

theorem distance_pass (hwant : want ≠ []) :
    distance want.toFinset (pass want shard voters) = distance want.toFinset voters - 1 := by
  rcases pass_cases shard voters hwant with ⟨heq, hsame⟩ | hnears
  · rw [hsame, distance_eq_zero.mpr heq]
  · have := hnears.distance_succ
    omega

theorem min_card_le_pass (hwant : want ≠ []) {floor : Nat}
    (hfloor : min floor want.toFinset.card ≤ voters.card) :
    min floor want.toFinset.card ≤ (pass want shard voters).card := by
  rcases pass_cases shard voters hwant with ⟨-, hsame⟩ | hnears
  · rwa [hsame]
  · exact hnears.min_card_le hfloor

section Passes

variable {start : Finset Node}

theorem distance_passes (hwant : want ≠ []) (k : Nat) :
    distance want.toFinset ((pass want shard)^[k] start) = distance want.toFinset start - k := by
  induction k with
  | zero => rfl
  | succ k ih =>
    rw [Function.iterate_succ_apply', distance_pass hwant, ih]
    omega

theorem min_card_le_passes (hwant : want ≠ []) (k : Nat) :
    min start.card want.toFinset.card ≤ ((pass want shard)^[k] start).card := by
  induction k with
  | zero => exact min_le_left _ _
  | succ k ih =>
    rw [Function.iterate_succ_apply']
    exact min_card_le_pass hwant ih

end Passes

section Leader

variable {α : Type} {g : RaftGroup Node α}

theorem voters_setVoters (g : RaftGroup Node α) (new : Finset Node) :
    (g.setVoters new).voters = new := by
  unfold RaftGroup.setVoters
  split
  next heq => exact heq.symm
  next => rfl

theorem reconfigure_accepts (hrole : g.role = .leader) (hone : ShardGroup.OneChange g.voters new) :
    (g.reconfigure new).2 = some (g.log.length + 1) ∧ (g.reconfigure new).1.voters = new := by
  have hone : (symmDiff g.voters new).card = 1 := hone
  simp only [RaftGroup.reconfigure, RaftGroup.propose, hrole, hone, ne_eq, not_true_eq_false,
    if_false]
  refine ⟨trivial, (voters_setVoters _ _).trans ?_⟩
  change latestConfig _ (g.log ++ [_]) = new
  rw [latestConfig_concat]
  rfl

end Leader

/-- While every call is accepted, the voters reach the target after as many passes as
there are nodes to add and to drop, one node at a time and without losing a node of the
target on the way. -/
theorem passes_reach_target {α : Type} (c : Topology Node) {active : List Node}
    (hactive : active ≠ []) (hrf : 1 ≤ c.replicationFactor) {shard : Nat}
    (hshard : shard < c.shards) (start : Finset Node) :
    let want := c.placement active shard
    let target := want.toFinset
    let voters := fun k => (pass want shard)^[k] start
    let total := (target \ start).card + (start \ target).card
    (∀ k new, issued want shard (voters k) = some new →
      ShardGroup.OneChange (voters k) new ∧
        (∀ node ∈ target, node ∈ voters k → node ∈ new) ∧
        ∀ g : RaftGroup Node α, g.role = .leader → g.voters = voters k →
          (g.reconfigure new).2 = some (g.log.length + 1) ∧
            (g.reconfigure new).1.voters = voters (k + 1)) ∧
      (∀ k node, Call.dropShard node shard ∈ changes want shard (voters k) → node ∉ target) ∧
      (∀ k, min start.card target.card ≤ (voters k).card) ∧
      (∀ k, voters k = target ↔ total ≤ k) ∧
      ∀ k, total ≤ k → changes want shard (voters k) = [] := by
  intro want target voters total
  have hwant : want ≠ [] := by
    refine ne_nil_of_length_pos ?_
    rw [length_placement hshard]
    exact lt_min hrf (length_pos_iff.mpr hactive)
  have hreached : ∀ k, voters k = target ↔ total ≤ k := by
    intro k
    rw [← distance_eq_zero, distance_passes hwant]
    exact Nat.sub_eq_zero_iff_le
  refine ⟨fun k new hnew => ?_, fun k node hdrop => ?_, min_card_le_passes hwant, hreached,
    fun k hk => ?_⟩
  · have hnears := nears_of_issued hwant hnew
    refine ⟨hnears.oneChange, fun node => hnears.keeps, fun g hrole hg => ?_⟩
    have hnext : voters (k + 1) = new := by
      change (pass want shard)^[k + 1] start = new
      rw [Function.iterate_succ_apply', pass, hnew, Option.getD_some]
    rw [hnext]
    exact reconfigure_accepts hrole (hg ▸ hnears.oneChange)
  · exact fun hmem => not_mem_of_dropShard hdrop (mem_toFinset.mp hmem)
  · rcases issued_cases shard (voters k) hwant with ⟨-, hnil⟩ | ⟨v, -, hnears⟩
    · exact hnil
    · have hzero := distance_eq_zero.mpr ((hreached k).mpr hk)
      exact absurd (hnears.distance_succ.trans hzero) (Nat.succ_ne_zero _)

/-- A shard moves from nodes `3` and `4` to nodes `0`, `1` and `2` in five passes. -/
theorem passes_reach_target_of_five :
    (pass (fiveNodes.placement [0, 1, 2, 3, 4] 0) 0)^[5] {3, 4} = {0, 1, 2} :=
  ((passes_reach_target (α := Unit) fiveNodes (by decide) (by decide) (by decide)
    {3, 4}).2.2.2.1 5).mpr (by decide)

end LiteDB.Reconciliation
