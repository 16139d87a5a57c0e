import LiteDB.Bisection
import Mathlib.Data.Set.Basic

namespace LiteDB.CyclicSuccessors

open Bisection List

variable {P : Type} [LinearOrder P] {ps qs : Set P} {a p q : P}

/-- The least position above the point, or the least of all when there is none above. -/
def Successor (ps : Set P) (a p : P) : Prop :=
  p ∈ ps ∧ ((a < p ∧ ∀ q ∈ ps, a < q → p ≤ q) ∨ ((∀ q ∈ ps, q ≤ a) ∧ ∀ q ∈ ps, p ≤ q))

theorem Successor.unique (hp : Successor ps a p) (hq : Successor ps a q) : p = q := by
  obtain ⟨hpMem, ⟨hap, hpLeast⟩ | ⟨hpNone, hpLeast⟩⟩ := hp
  · obtain ⟨hqMem, ⟨haq, hqLeast⟩ | ⟨hqNone, -⟩⟩ := hq
    · exact le_antisymm (hpLeast q hqMem haq) (hqLeast p hpMem hap)
    · exact absurd hap (hqNone p hpMem).not_gt
  · obtain ⟨hqMem, ⟨haq, -⟩ | ⟨-, hqLeast⟩⟩ := hq
    · exact absurd haq (hpNone q hqMem).not_gt
    · exact le_antisymm (hpLeast q hqMem) (hqLeast p hpMem)

theorem Successor.mono (h : Successor qs a p) (hsub : ps ⊆ qs) (hp : p ∈ ps) :
    Successor ps a p := by
  obtain ⟨-, ⟨hap, hleast⟩ | ⟨hnone, hleast⟩⟩ := h
  · exact ⟨hp, .inl ⟨hap, fun q hq => hleast q (hsub hq)⟩⟩
  · exact ⟨hp, .inr ⟨fun q hq => hnone q (hsub hq), fun q hq => hleast q (hsub hq)⟩⟩

theorem exists_successor {xs : List P} (hsorted : xs.Pairwise (· ≤ ·)) (hne : xs ≠ []) (a : P) :
    ∃ p, xs[bisectRight xs a % xs.length]? = some p ∧ Successor {x | x ∈ xs} a p := by
  obtain ⟨hleft, hright⟩ := bisectRight_spec a hsorted
  have hle := bisectRight_le_length a xs
  have hpos := length_pos_iff.mpr hne
  generalize bisectRight xs a = i at hleft hright hle
  rcases Nat.lt_or_ge i xs.length with hlt | hge
  · have hsplit := hsorted
    rw [← take_append_drop i xs, drop_eq_getElem_cons hlt, pairwise_append, pairwise_cons] at hsplit
    rw [drop_eq_getElem_cons hlt, forall_mem_cons] at hright
    rw [Nat.mod_eq_of_lt hlt, getElem?_eq_getElem hlt]
    refine ⟨_, rfl, getElem_mem hlt, .inl ⟨hright.1, fun q hq haq => ?_⟩⟩
    have hq' : q ∈ xs.take i ++ xs[i] :: xs.drop (i + 1) := by
      rw [← drop_eq_getElem_cons hlt, take_append_drop]
      exact hq
    rcases mem_append.mp hq' with hq' | hq'
    · exact absurd haq (hleft q hq').not_gt
    · rcases mem_cons.mp hq' with rfl | hq'
      · exact le_rfl
      · exact hsplit.2.1.1 q hq'
  · obtain rfl : i = xs.length := Nat.le_antisymm hle hge
    rw [take_length] at hleft
    cases xs with
    | nil => contradiction
    | cons x xs =>
      rw [Nat.mod_self]
      refine ⟨x, rfl, mem_cons_self, .inr ⟨hleft, ?_⟩⟩
      exact forall_mem_cons.mpr ⟨le_rfl, (pairwise_cons.mp hsorted).1⟩

end LiteDB.CyclicSuccessors
