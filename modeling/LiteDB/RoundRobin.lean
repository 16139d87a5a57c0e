import Mathlib.Data.Nat.Count
import Mathlib.Data.Nat.Periodic
import Mathlib.Tactic.Ring

/-!
Round-robin assignment. Item `i` is dealt to the `r` places of a circle of `n` that
start at `i`. The items that one place gets repeat with period `n`, and `n` items in
a row bring each place `r` of them, so any two places stay close.
-/

namespace LiteDB.RoundRobin

open Finset

/-- Place `p` is among those that item `i` is dealt to. -/
def Dealt (n r p i : Nat) : Prop := ∃ j < r, (i + j) % n = p

instance (n r p : Nat) : DecidablePred (Dealt n r p) :=
  fun i => inferInstanceAs (Decidable (∃ j < r, (i + j) % n = p))

section Periodic

variable {P : Nat → Prop} [DecidablePred P] {n : Nat}

theorem count_add_period (h : Function.Periodic P n) (s : Nat) :
    Nat.count P (n + s) = Nat.count P n + Nat.count P s := by
  rw [Nat.count_add]
  congr 2
  funext k
  rw [Nat.add_comm, h k]

theorem count_of_periodic (h : Function.Periodic P n) (s : Nat) :
    Nat.count P s = s / n * Nat.count P n + Nat.count P (s % n) := by
  have hrounds : ∀ q m, Nat.count P (n * q + m) = q * Nat.count P n + Nat.count P m := by
    intro q m
    induction q with
    | zero => simp
    | succ q ih =>
      rw [Nat.mul_succ, Nat.add_right_comm, Nat.add_comm, count_add_period h, ih]
      ring
  calc
    Nat.count P s = Nat.count P (n * (s / n) + s % n) := by rw [Nat.div_add_mod]
    _ = _ := hrounds _ _

theorem count_add_le (m k : Nat) : Nat.count P (m + k) ≤ Nat.count P m + k := by
  rw [Nat.count_add]
  exact Nat.add_le_add_left (Nat.count_le _) _

end Periodic

variable {n r p q : Nat}

theorem dealt_periodic (n r p : Nat) : Function.Periodic (Dealt n r p) n := by
  intro i
  have hturn : ∀ j, (i + n + j) % n = (i + j) % n := by
    intro j
    rw [Nat.add_right_comm, Nat.add_mod_right]
  simp only [Dealt, hturn]

theorem dealt_iff (hp : p < n) (hr : r ≤ n) {i : Nat} (hi : i < n) :
    Dealt n r p i ↔ (p + n - i) % n < r := by
  constructor
  · rintro ⟨j, hj, hij⟩
    have hoffset : (p + n - i) % n = j := by
      rcases Nat.lt_or_ge (i + j) n with hlt | hge
      · rw [Nat.mod_eq_of_lt hlt] at hij
        rw [show p + n - i = j + n by omega, Nat.add_mod_right, Nat.mod_eq_of_lt (by omega)]
      · rw [Nat.mod_eq_sub_mod hge, Nat.mod_eq_of_lt (by omega)] at hij
        rw [show p + n - i = j by omega, Nat.mod_eq_of_lt (by omega)]
    rwa [hoffset]
  · intro hlt
    refine ⟨_, hlt, ?_⟩
    rw [Nat.add_mod_mod, show i + (p + n - i) = p + n by omega, Nat.add_mod_right,
      Nat.mod_eq_of_lt hp]

theorem offset_offset (hp : p < n) {i : Nat} (hi : i < n) : (p + n - (p + n - i) % n) % n = i := by
  rcases Nat.lt_or_ge p i with hlt | hge
  · rw [Nat.mod_eq_of_lt (show p + n - i < n by omega),
      show p + n - (p + n - i) = i by omega, Nat.mod_eq_of_lt hi]
  · rw [show p + n - i = p - i + n by omega, Nat.add_mod_right,
      Nat.mod_eq_of_lt (show p - i < n by omega), show p + n - (p - i) = i + n by omega,
      Nat.add_mod_right, Nat.mod_eq_of_lt hi]

theorem count_dealt_round (hp : p < n) (hr : r ≤ n) : Nat.count (Dealt n r p) n = r := by
  have hn : 0 < n := by omega
  refine (Nat.count_eq_card_filter_range _ _).trans (Eq.trans ?_ (card_range r))
  refine card_nbij' (fun i => (p + n - i) % n) (fun j => (p + n - j) % n) ?_ ?_ ?_ ?_
  · intro i hi
    obtain ⟨hin, hdealt⟩ := mem_filter.mp hi
    exact mem_coe.mpr (mem_range.mpr ((dealt_iff hp hr (mem_range.mp hin)).mp hdealt))
  · intro j hj
    have hjr : j < r := mem_range.mp hj
    have hoff := Nat.mod_lt (p + n - j) hn
    refine mem_coe.mpr (mem_filter.mpr ⟨mem_range.mpr hoff, ?_⟩)
    refine (dealt_iff hp hr hoff).mpr ?_
    rwa [offset_offset hp (by omega)]
  · intro i hi
    exact offset_offset hp (mem_range.mp (mem_filter.mp hi).1)
  · intro j hj
    have hjr : j < r := mem_range.mp hj
    exact offset_offset hp (by omega)

/-- In a round that is cut off, a place has at most its share of a round and at least
what the missing items cannot have brought. -/
theorem count_dealt_rest (hp : p < n) (hr : r ≤ n) {m : Nat} (hm : m ≤ n) :
    Nat.count (Dealt n r p) m ≤ min r m ∧ r + m ≤ Nat.count (Dealt n r p) m + n := by
  have hround := count_dealt_round hp hr
  refine ⟨le_min ?_ (Nat.count_le _), ?_⟩
  · exact (Nat.count_monotone _ hm).trans_eq hround
  · have hle := count_add_le (P := Dealt n r p) m (n - m)
    rw [Nat.add_sub_cancel' hm, hround] at hle
    omega

theorem count_dealt_le (hp : p < n) (hq : q < n) (hr : r ≤ n) (s : Nat) :
    Nat.count (Dealt n r p) s ≤ Nat.count (Dealt n r q) s + min r (n - r) := by
  have hm : s % n ≤ n := (Nat.mod_lt s (by omega)).le
  obtain ⟨hpr, -⟩ := count_dealt_rest hp hr hm
  obtain ⟨-, hqm⟩ := count_dealt_rest hq hr hm
  rw [count_of_periodic (dealt_periodic n r p), count_of_periodic (dealt_periodic n r q),
    count_dealt_round hp hr, count_dealt_round hq hr]
  omega

end LiteDB.RoundRobin
