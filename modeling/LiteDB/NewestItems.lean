import Mathlib.Order.Lattice

namespace LiteDB.NewestItems

open List

variable {A R : Type} [LinearOrder R] {rank : A → R}

def adopt (rank : A → R) (cur : Option A) (x : A) : Option A :=
  match cur with
  | none => some x
  | some c => if rank c < rank x then some x else some c

/-- The kept item is one of the seen ones, and none of them has a greater rank. -/
def Newest (rank : A → R) (seen : List A) : Option A → Prop
  | none => seen = []
  | some c => c ∈ seen ∧ ∀ x ∈ seen, rank x ≤ rank c

/-- No item becomes older. -/
def NoOlder (rank : A → R) (a b : Option A) : Prop :=
  ∀ x, a = some x → ∃ y, b = some y ∧ rank x ≤ rank y

variable {seen : List A} {cur : Option A}

theorem newest_adopt (h : Newest rank seen cur) (x : A) :
    Newest rank (seen ++ [x]) (adopt rank cur x) := by
  cases cur with
  | none =>
    obtain rfl : seen = [] := h
    simp [adopt, Newest]
  | some c =>
    obtain ⟨hmem, hmax⟩ := h
    simp only [adopt]
    split
    · rename_i hlt
      refine ⟨by simp, fun y hy => ?_⟩
      rcases mem_append.mp hy with hy | hy
      · exact (hmax y hy).trans hlt.le
      · rw [mem_singleton.mp hy]
    · rename_i hlt
      refine ⟨by simp [hmem], fun y hy => ?_⟩
      rcases mem_append.mp hy with hy | hy
      · exact hmax y hy
      · rw [mem_singleton.mp hy]
        exact not_lt.mp hlt

theorem newest_foldl (xs : List A) (h : Newest rank seen cur) :
    Newest rank (seen ++ xs) (xs.foldl (adopt rank) cur) := by
  induction xs generalizing seen cur with
  | nil => simpa using h
  | cons x xs ih =>
    have hrest := ih (newest_adopt h x)
    rwa [append_assoc, singleton_append] at hrest

theorem noOlder_adopt (cur : Option A) (x : A) : NoOlder rank cur (adopt rank cur x) := by
  rintro c rfl
  simp only [adopt]
  split
  · rename_i hlt
    exact ⟨x, rfl, hlt.le⟩
  · exact ⟨c, rfl, le_rfl⟩

theorem NoOlder.refl (a : Option A) : NoOlder rank a a := fun x hx => ⟨x, hx, le_rfl⟩

theorem NoOlder.trans {a b c : Option A} (hab : NoOlder rank a b) (hbc : NoOlder rank b c) :
    NoOlder rank a c := by
  intro x hx
  obtain ⟨y, hy, hxy⟩ := hab x hx
  obtain ⟨z, hz, hyz⟩ := hbc y hy
  exact ⟨z, hz, hxy.trans hyz⟩

theorem Newest.rank_eq {seen' : List A} {cur' : Option A} (h : Newest rank seen cur)
    (h' : Newest rank seen' cur') (hsame : ∀ x, x ∈ seen ↔ x ∈ seen') :
    cur.map rank = cur'.map rank := by
  cases cur with
  | none =>
    obtain rfl : seen = [] := h
    cases cur' with
    | none => rfl
    | some c' => exact absurd ((hsame c').mpr h'.1) not_mem_nil
  | some c =>
    cases cur' with
    | none =>
      obtain rfl : seen' = [] := h'
      exact absurd ((hsame c).mp h.1) not_mem_nil
    | some c' =>
      have hle := h'.2 c ((hsame c).mp h.1)
      have hge := h.2 c' ((hsame c').mpr h'.1)
      exact congrArg some (le_antisymm hle hge)

section First

variable {xs ys : List A} {c : A}

theorem foldl_adopt_middle (hxs : ∀ x ∈ xs, rank x < rank c) (hys : ∀ y ∈ ys, rank y ≤ rank c) :
    (xs ++ c :: ys).foldl (adopt rank) none = some c := by
  have hnil : Newest rank [] none := rfl
  have hnewest := newest_foldl xs hnil
  have hadopt : adopt rank (xs.foldl (adopt rank) none) c = some c := by
    cases hkept : xs.foldl (adopt rank) none with
    | none => rfl
    | some d =>
      rw [hkept] at hnewest
      rw [adopt, if_pos (hxs d hnewest.1)]
  rw [foldl_append, foldl_cons, hadopt]
  clear hadopt hnewest
  induction ys with
  | nil => rfl
  | cons y ys ih =>
    rw [forall_mem_cons] at hys
    rw [foldl_cons, adopt, if_neg (not_lt.mpr hys.1)]
    exact ih hys.2

variable (rank) in
theorem exists_first (x : A) (xs : List A) : ∃ before c after, x :: xs = before ++ c :: after ∧
    (∀ y ∈ before, rank y < rank c) ∧ ∀ y ∈ after, rank y ≤ rank c := by
  induction xs generalizing x with
  | nil => exact ⟨[], x, [], rfl, by simp, by simp⟩
  | cons y xs ih =>
    obtain ⟨before, c, after, heq, hbefore, hafter⟩ := ih y
    rcases lt_or_ge (rank x) (rank c) with hlt | hge
    · exact ⟨x :: before, c, after, by rw [heq, cons_append],
        forall_mem_cons.mpr ⟨hlt, hbefore⟩, hafter⟩
    · refine ⟨[], x, y :: xs, rfl, by simp, fun z hz => ?_⟩
      rw [heq, mem_append, mem_cons] at hz
      rcases hz with hz | rfl | hz
      · exact (hbefore z hz).le.trans hge
      · exact hge
      · exact (hafter z hz).trans hge

theorem foldl_adopt_filter {p : A → Bool} (h : ∀ x ∈ xs, p x = false → ∃ y ∈ xs, rank x < rank y) :
    (xs.filter p).foldl (adopt rank) none = xs.foldl (adopt rank) none := by
  cases xs with
  | nil => rfl
  | cons x xs =>
    obtain ⟨before, c, after, heq, hbefore, hafter⟩ := exists_first rank x xs
    rw [heq] at h ⊢
    have hc : p c = true := by
      by_contra hdropped
      obtain ⟨y, hy, hlt⟩ := h c (by simp) (Bool.eq_false_iff.mpr hdropped)
      rw [mem_append, mem_cons] at hy
      rcases hy with hy | rfl | hy
      · exact absurd (hbefore y hy) hlt.not_gt
      · exact absurd hlt (lt_irrefl _)
      · exact absurd (hafter y hy) hlt.not_ge
    rw [filter_append, filter_cons_of_pos hc, foldl_adopt_middle hbefore hafter]
    exact foldl_adopt_middle (fun y hy => hbefore y ((mem_filter.mp hy).1))
      fun y hy => hafter y ((mem_filter.mp hy).1)

end First

end LiteDB.NewestItems
