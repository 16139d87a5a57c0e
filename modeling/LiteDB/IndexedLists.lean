import Mathlib.Data.List.Basic
import Mathlib.Data.List.Count

namespace LiteDB.IndexedLists

open List

variable {T : Type} {l : List T} {x y : T} {i j : Nat}

theorem lt_length_of_getElem? (h : l[i]? = some x) : i < l.length :=
  (List.getElem?_eq_some_iff.mp h).1

theorem getElem?_concat_cases (h : (l ++ [y])[j]? = some x) :
    l[j]? = some x ∨ j = l.length ∧ x = y := by
  rw [getElem?_append] at h
  split at h
  · exact .inl h
  · obtain ⟨hlt, hx⟩ := List.getElem?_eq_some_iff.mp h
    simp only [length_singleton] at hlt
    refine .inr ⟨by omega, ?_⟩
    simpa using hx.symm

theorem getElem?_set_cases (h : (l.set i y)[j]? = some x) :
    i ≠ j ∧ l[j]? = some x ∨ i = j ∧ x = y := by
  rw [getElem?_set] at h
  split at h
  · rename_i hij
    split at h
    · exact .inr ⟨hij, (Option.some.inj h).symm⟩
    · contradiction
  · rename_i hij
    exact .inl ⟨hij, h⟩

theorem forall_mem_concat {p : T → Prop} (h : ∀ z ∈ l, p z) (hy : p y) : ∀ z ∈ l ++ [y], p z :=
  forall_mem_append.mpr ⟨h, forall_mem_singleton.mpr hy⟩

theorem pairwise_concat {R : T → T → Prop} (h : l.Pairwise R) (hy : ∀ z ∈ l, R z y) :
    (l ++ [y]).Pairwise R :=
  pairwise_append.mpr ⟨h, pairwise_singleton _ _,
    fun z hz => forall_mem_singleton.mpr (hy z hz)⟩

theorem forall_mem_set {p : T → Prop} (h : ∀ z ∈ l, p z) (hy : p y) : ∀ z ∈ l.set i y, p z := by
  intro z hz
  rcases mem_or_eq_of_mem_set hz with hz | rfl
  · exact h z hz
  · exact hy

theorem countP_set_of_eq {p : T → Bool} (h : l[i]? = some x) (hp : p y = p x) :
    (l.set i y).countP p = l.countP p := by
  obtain ⟨hi, rfl⟩ := List.getElem?_eq_some_iff.mp h
  rw [countP_set hi, hp]
  split
  · rename_i hpx
    have hpos : 0 < l.countP p := countP_pos_iff.mpr ⟨_, getElem_mem hi, hpx⟩
    omega
  · rfl

theorem exists_middle (h : i < l.length) : ∃ A x B, l = A ++ x :: B ∧ i = A.length := by
  refine ⟨l.take i, l[i], l.drop (i + 1), ?_, ?_⟩
  · rw [← drop_eq_getElem_cons h, take_append_drop]
  · rw [length_take, Nat.min_eq_left (Nat.le_of_lt h)]

theorem findSome?_reverse_eq_some_iff {U : Type} {f : T → Option U} {b : U} :
    l.reverse.findSome? f = some b ↔ ∃ before z after, l = before ++ z :: after ∧
      f z = some b ∧ ∀ w ∈ after, f w = none := by
  rw [findSome?_eq_some_iff]
  constructor
  · rintro ⟨after, z, before, hl, hz, hafter⟩
    refine ⟨before.reverse, z, after.reverse, ?_, hz, fun w hw => hafter w (by simpa using hw)⟩
    rw [← reverse_reverse l, hl]
    simp
  · rintro ⟨before, z, after, rfl, hz, hafter⟩
    exact ⟨after.reverse, z, before.reverse, by simp, hz, fun w hw => hafter w (by simpa using hw)⟩

section Middle

variable {r : List T} (h : i = l.length)

include h

theorem getElem?_middle : (l ++ x :: r)[i]? = some x := by
  subst h
  simp

theorem set_middle : (l ++ x :: r).set i y = l ++ y :: r := by
  subst h
  simp

theorem insertIdx_middle : (l ++ r).insertIdx i y = l ++ y :: r := by
  subst h
  induction l with
  | nil => rfl
  | cons z l ih => simp [ih]

theorem eraseIdx_middle : (l ++ x :: r).eraseIdx i = l ++ r := by
  subst h
  simp [eraseIdx_append]

end Middle

end LiteDB.IndexedLists
