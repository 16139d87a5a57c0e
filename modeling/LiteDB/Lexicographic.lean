import Mathlib.Algebra.Group.Int.Defs
import Mathlib.Algebra.Group.Nat.Defs
import Mathlib.Data.List.Lex
import Mathlib.Order.Interval.Set.Defs
import Mathlib.Order.Lattice
import Mathlib.Order.Monotone.Basic

namespace LiteDB.Lexicographic

open List

variable {C : Type} [LinearOrder C]

section Fields

variable {s : C} {k k' h h' : List C}

/-- A least symbol separates fields, none of which goes on with the separator where
the other one ends: the first fields decide the order, and the rest decides only
between equal first fields. -/
theorem append_sep_lt_iff (hs : ∀ c, s ≤ c) (hk : ∀ r, k' ≠ k ++ s :: r)
    (hk' : ∀ r, k ≠ k' ++ s :: r) : k ++ s :: h < k' ++ s :: h' ↔ k < k' ∨ (k = k' ∧ h < h') := by
  induction k generalizing k' with
  | nil =>
    cases k' with
    | nil => simp
    | cons c k' =>
      have hc : s < c := lt_of_le_of_ne (hs c) fun heq => hk k' (by simp [heq])
      simp [cons_lt_cons_iff, hc]
  | cons c k ih =>
    cases k' with
    | nil =>
      have hc : s < c := lt_of_le_of_ne (hs c) fun heq => hk' k (by simp [heq])
      simp [cons_lt_cons_iff, hc.not_gt, hc.ne']
    | cons d k' =>
      simp only [cons_append, cons_lt_cons_iff, List.cons.injEq]
      by_cases hcd : c = d
      · subst hcd
        have htail : k ++ s :: h < k' ++ s :: h' ↔ k < k' ∨ (k = k' ∧ h < h') :=
          ih (fun r hr => hk r (by simp [hr])) fun r hr => hk' r (by simp [hr])
        simp [htail]
      · simp [hcd]

theorem append_sep_le_iff (hs : ∀ c, s ≤ c) (hk : ∀ r, k' ≠ k ++ s :: r)
    (hk' : ∀ r, k ≠ k' ++ s :: r) : k ++ s :: h ≤ k' ++ s :: h' ↔ k < k' ∨ (k = k' ∧ h ≤ h') := by
  rw [← not_lt, append_sep_lt_iff hs hk' hk, not_or, not_and, not_lt, le_iff_lt_or_eq]
  constructor
  · rintro ⟨hlt | heq, hrest⟩
    · exact .inl hlt
    · exact .inr ⟨heq, not_lt.mp (hrest heq.symm)⟩
  · rintro (hlt | ⟨heq, hle⟩)
    · exact ⟨.inl hlt, fun heq => absurd heq hlt.ne'⟩
    · exact ⟨.inr heq, fun _ => not_lt.mpr hle⟩

theorem append_lt_append_iff (p : List C) : p ++ k < p ++ k' ↔ k < k' := by
  induction p with
  | nil => rfl
  | cons c p ih => simp [ih]

theorem append_le_append_iff (p : List C) : p ++ k ≤ p ++ k' ↔ k ≤ k' := by
  rw [← not_lt, append_lt_append_iff, not_lt]

theorem le_append (k r : List C) : k ≤ k ++ r := by
  have hle : k ++ [] ≤ k ++ r := (append_le_append_iff k).mpr (not_lt.mp (not_lt_nil r))
  rwa [append_nil] at hle

theorem prefix_of_between {p a b : List C} (hlo : p ++ a ≤ k) (hhi : k ≤ p ++ b) : p <+: k := by
  induction p generalizing k with
  | nil => exact nil_prefix
  | cons d p ih =>
    cases k with
    | nil => exact absurd hlo (by simp)
    | cons e k =>
      rw [cons_append, ← not_lt, cons_lt_cons_iff, not_or, not_lt] at hlo hhi
      obtain rfl : d = e := le_antisymm hlo.1 hhi.1
      have hlo' : p ++ a ≤ k := not_lt.mp fun h => hlo.2 ⟨rfl, h⟩
      have hhi' : k ≤ p ++ b := not_lt.mp fun h => hhi.2 ⟨rfl, h⟩
      exact cons_prefix_cons.mpr ⟨rfl, ih hlo' hhi'⟩

end Fields

section Digits

/-- The `width` lowest digits of `n` to the base `b`, the highest first, where
`f` writes a digit. -/
def fixedDigits {C : Type} (f : Nat → C) (b : Nat) : Nat → Nat → List C
  | 0, _ => []
  | width + 1, n => f (n / b ^ width) :: fixedDigits f b width (n % b ^ width)

variable {f : Nat → C} {b width n m : Nat}

omit [LinearOrder C] in
@[simp] theorem length_fixedDigits : (fixedDigits f b width n).length = width := by
  induction width generalizing n with
  | zero => rfl
  | succ width ih => simp [fixedDigits, ih]

omit [LinearOrder C] in
theorem mem_fixedDigits {c : C} (h : c ∈ fixedDigits f b width n) : ∃ d, c = f d := by
  induction width generalizing n with
  | zero => simp [fixedDigits] at h
  | succ width ih =>
    rcases mem_cons.mp h with rfl | h
    · exact ⟨_, rfl⟩
    · exact ih h

theorem digit_lt (hn : n < b ^ (width + 1)) : n / b ^ width < b :=
  Nat.div_lt_of_lt_mul (by rwa [← Nat.pow_succ])

theorem lt_iff_div_mod (n m q : Nat) : n < m ↔ n / q < m / q ∨ (n / q = m / q ∧ n % q < m % q) := by
  have hn := Nat.div_add_mod n q
  have hm := Nat.div_add_mod m q
  rcases Nat.lt_trichotomy (n / q) (m / q) with hlt | heq | hgt
  · have := Nat.lt_of_div_lt_div hlt
    simp [hlt, this]
  · rw [heq] at hn
    simp only [heq, lt_irrefl, false_or, true_and]
    omega
  · have hmn := Nat.lt_of_div_lt_div hgt
    simp [hgt.not_gt, hgt.ne', hmn.not_gt]

/-- With digits in increasing order, longer numbers of one width sort by value. -/
theorem fixedDigits_lt_iff (hf : StrictMonoOn f (Set.Iio b)) (hn : n < b ^ width)
    (hm : m < b ^ width) : fixedDigits f b width n < fixedDigits f b width m ↔ n < m := by
  induction width generalizing n m with
  | zero =>
    simp only [Nat.pow_zero, Nat.lt_one_iff] at hn hm
    simp [fixedDigits, hn, hm]
  | succ width ih =>
    have hpos : 0 < b ^ width := by
      rw [Nat.pow_succ] at hn
      exact Nat.pos_of_ne_zero fun h => by simp [h] at hn
    rw [fixedDigits, fixedDigits, cons_lt_cons_iff,
      ih (Nat.mod_lt n hpos) (Nat.mod_lt m hpos), hf.lt_iff_lt (digit_lt hn) (digit_lt hm),
      hf.eq_iff_eq (digit_lt hn) (digit_lt hm), ← lt_iff_div_mod]

/-- The digits of a shorter number are compared with the leading ones of a longer number. -/
theorem fixedDigits_lt_iff_le (hf : StrictMonoOn f (Set.Iio b)) {k : Nat} (hn : n < b ^ width)
    (hm : m < b ^ (width + k)) (hk : 0 < k) :
    fixedDigits f b width n < fixedDigits f b (width + k) m ↔ n ≤ m / b ^ k := by
  induction width generalizing n m with
  | zero =>
    obtain ⟨k, rfl⟩ := Nat.exists_eq_add_one.mpr hk
    obtain rfl : n = 0 := by simpa using hn
    simp [fixedDigits]
  | succ width ih =>
    rw [Nat.succ_add] at hm ⊢
    have hpos : ∀ {n q}, n < b ^ (q + 1) → 0 < b ^ q := fun {n q} h =>
      Nat.pos_of_ne_zero fun hzero => by simp [Nat.pow_succ, hzero] at h
    have hdiv : m / b ^ (width + k) = m / b ^ k / b ^ width := by
      rw [Nat.div_div_eq_div_mul, ← Nat.pow_add, Nat.add_comm]
    have hmod : m % b ^ (width + k) / b ^ k = m / b ^ k % b ^ width := by
      rw [Nat.add_comm, Nat.pow_add, Nat.mod_mul_right_div_self]
    rw [fixedDigits, fixedDigits, cons_lt_cons_iff,
      ih (Nat.mod_lt n (hpos hn)) (Nat.mod_lt m (hpos hm)),
      hf.lt_iff_lt (digit_lt hn) (digit_lt hm),
      hf.eq_iff_eq (digit_lt hn) (digit_lt hm), hdiv, hmod, ← not_lt (a := m / b ^ k),
      lt_iff_div_mod (m / b ^ k) n (b ^ width)]
    omega

omit [LinearOrder C] in
theorem drop_fixedDigits {k : Nat} (hn : n < b ^ (k + width)) :
    (fixedDigits f b (k + width) n).drop k = fixedDigits f b width (n % b ^ width) := by
  induction k generalizing n with
  | zero =>
    rw [Nat.zero_add] at hn ⊢
    rw [drop_zero, Nat.mod_eq_of_lt hn]
  | succ k ih =>
    have hpos : 0 < b ^ (k + width) := by
      refine Nat.pos_of_ne_zero fun hzero => ?_
      rw [Nat.succ_add, Nat.pow_succ, hzero, Nat.zero_mul] at hn
      exact Nat.not_lt_zero _ hn
    rw [Nat.succ_add, fixedDigits, drop_succ_cons, ih (Nat.mod_lt n hpos),
      Nat.mod_mod_of_dvd n (Nat.pow_dvd_pow b (Nat.le_add_left width k))]

end Digits

end LiteDB.Lexicographic
