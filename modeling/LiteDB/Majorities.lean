import Mathlib.Data.Finset.Card
import Mathlib.Data.Finset.SymmDiff
import Mathlib.Order.SymmDiff

namespace LiteDB.Majorities

open Finset

variable {N : Type} [DecidableEq N]

def Majority (c q : Finset N) : Prop := c.card / 2 + 1 ≤ (q ∩ c).card

/-- Two configurations that differ by at most one voter. -/
def Adjacent (c d : Finset N) : Prop := (symmDiff c d).card ≤ 1

theorem Adjacent.refl (c : Finset N) : Adjacent c c := by
  simp [Adjacent]

variable {c d q : Finset N}

theorem Adjacent.symm (h : Adjacent c d) : Adjacent d c := by
  rwa [Adjacent, symmDiff_comm]

theorem two_mul_card_union (c d : Finset N) :
    2 * (c ∪ d).card = c.card + d.card + (symmDiff c d).card := by
  have hsymm : (symmDiff c d).card = (c \ d).card + (d \ c).card := by
    rw [symmDiff_def, sup_eq_union]
    exact card_union_of_disjoint disjoint_sdiff_sdiff
  have hc := card_sdiff_add_card c d
  have hd := card_sdiff_add_card d c
  rw [union_comm] at hd
  omega

theorem Majority.exists_common {r : Finset N} (hq : Majority c q) (hr : Majority d r)
    (h : Adjacent c d) : ∃ v, v ∈ q ∧ v ∈ r := by
  by_contra hnone
  push Not at hnone
  have hdisj : Disjoint (q ∩ c) (r ∩ d) := by
    rw [disjoint_left]
    intro v hv hv'
    exact hnone v (mem_of_mem_inter_left hv) (mem_of_mem_inter_left hv')
  have hsub : (q ∩ c) ∪ (r ∩ d) ⊆ c ∪ d :=
    union_subset_union inter_subset_right inter_subset_right
  have hcard := card_le_card hsub
  rw [card_union_of_disjoint hdisj] at hcard
  have hunion := two_mul_card_union c d
  unfold Majority at hq hr
  unfold Adjacent at h
  omega

theorem Majority.nonempty (hq : Majority c q) : (q ∩ c).Nonempty := by
  rw [← card_pos]
  unfold Majority at hq
  omega

end LiteDB.Majorities
