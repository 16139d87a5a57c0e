import LiteDB.IndexedLists
import Mathlib.Order.Lattice

namespace LiteDB.Bisection

open IndexedLists List

variable {T : Type}

/-- The common loop; `goRight` decides at the middle of the interval. -/
def bisectLoop (goRight : T → Bool) (xs : List T) : Nat → Nat → Nat → Nat
  | 0, lo, _ => lo
  | fuel + 1, lo, hi =>
      if lo < hi then
        let mid := (lo + hi) / 2
        if (xs[mid]?).any goRight then bisectLoop goRight xs fuel (mid + 1) hi
        else bisectLoop goRight xs fuel lo mid
      else lo

section Loop

variable {goRight : T → Bool} {xs : List T} {fuel lo hi : Nat}

theorem bisectLoop_le (h : lo ≤ hi) : bisectLoop goRight xs fuel lo hi ≤ hi := by
  induction fuel generalizing lo hi with
  | zero => exact h
  | succ fuel ih =>
    rw [bisectLoop]
    split
    · dsimp only
      split
      · exact ih (by omega)
      · exact Nat.le_trans (ih (by omega)) (by omega)
    · exact h

/-- The result separates the members that send the search to the right. -/
theorem bisectLoop_spec (goRight : T → Bool)
    (hsorted : xs.Pairwise fun x y => goRight y → goRight x)
    (hfuel : hi ≤ lo + fuel) (hle : lo ≤ hi) (hhi : hi ≤ xs.length)
    (hleft : ∀ x ∈ xs.take lo, goRight x) (hright : ∀ x ∈ xs.drop hi, ¬ goRight x) :
    (∀ x ∈ xs.take (bisectLoop goRight xs fuel lo hi), goRight x) ∧
      ∀ x ∈ xs.drop (bisectLoop goRight xs fuel lo hi), ¬ goRight x := by
  induction fuel generalizing lo hi with
  | zero =>
    obtain rfl : lo = hi := by omega
    exact ⟨hleft, hright⟩
  | succ fuel ih =>
    rw [bisectLoop]
    split
    · rename_i hlt
      dsimp only
      have hmid : (lo + hi) / 2 < xs.length := by omega
      generalize hm : (lo + hi) / 2 = mid at hmid
      have hsplit := hsorted
      rw [← take_append_drop mid xs, drop_eq_getElem_cons hmid, pairwise_append,
        pairwise_cons] at hsplit
      obtain ⟨-, ⟨hafter, -⟩, hbefore⟩ := hsplit
      rw [getElem?_eq_getElem hmid, Option.any_some]
      split
      · rename_i hgo
        refine ih (by omega) (by omega) hhi ?_ hright
        rw [take_succ_eq_append_getElem hmid, forall_mem_append]
        exact ⟨fun x hx => hbefore x hx _ (mem_cons_self ..) hgo, by simpa using hgo⟩
      · rename_i hgo
        refine ih (by omega) (by omega) (by omega) hleft ?_
        rw [drop_eq_getElem_cons hmid, forall_mem_cons]
        exact ⟨hgo, fun x hx hgo' => hgo (hafter x hx hgo')⟩
    · obtain rfl : lo = hi := by omega
      exact ⟨hleft, hright⟩

end Loop

section Sorted

variable [LinearOrder T]

def bisectLeft (xs : List T) (x : T) : Nat := bisectLoop (· < x) xs xs.length 0 xs.length

def bisectRight (xs : List T) (x : T) : Nat := bisectLoop (· ≤ x) xs xs.length 0 xs.length

variable {xs : List T} (x : T)

theorem bisectLeft_le_length (xs : List T) : bisectLeft xs x ≤ xs.length :=
  bisectLoop_le (Nat.zero_le _)

theorem bisectRight_le_length (xs : List T) : bisectRight xs x ≤ xs.length :=
  bisectLoop_le (Nat.zero_le _)

theorem bisectLeft_spec (h : xs.Pairwise (· ≤ ·)) :
    (∀ y ∈ xs.take (bisectLeft xs x), y < x) ∧ ∀ y ∈ xs.drop (bisectLeft xs x), x ≤ y := by
  simpa [bisectLeft] using bisectLoop_spec (fun y => decide (y < x))
    (h.imp fun hle => by simpa using lt_of_le_of_lt hle) (by omega) (Nat.zero_le _) (Nat.le_refl _)
    (by simp) (by simp)

theorem bisectRight_spec (h : xs.Pairwise (· ≤ ·)) :
    (∀ y ∈ xs.take (bisectRight xs x), y ≤ x) ∧ ∀ y ∈ xs.drop (bisectRight xs x), x < y := by
  simpa [bisectRight] using bisectLoop_spec (fun y => decide (y ≤ x))
    (h.imp fun hle => by simpa using le_trans hle) (by omega) (Nat.zero_le _) (Nat.le_refl _)
    (by simp) (by simp)

def insort (xs : List T) (x : T) : List T := xs.insertIdx (bisectRight xs x) x

/-- `pop` of the first member that equals `x`, if the search finds one. -/
def bisectErase (xs : List T) (x : T) : List T :=
  if xs[bisectLeft xs x]? = some x then xs.eraseIdx (bisectLeft xs x) else xs

variable {x : T} {y : T}

theorem mem_insort : y ∈ insort xs x ↔ y = x ∨ y ∈ xs :=
  mem_insertIdx (bisectRight_le_length x xs)

theorem insort_eq (xs : List T) (x : T) :
    insort xs x = xs.take (bisectRight xs x) ++ x :: xs.drop (bisectRight xs x) := by
  have hlength := length_take_of_le (bisectRight_le_length x xs)
  have hmiddle := insertIdx_middle (r := xs.drop (bisectRight xs x)) (y := x) hlength.symm
  rwa [take_append_drop] at hmiddle

theorem pairwise_insort (h : xs.Pairwise (· < ·)) (hx : x ∉ xs) :
    (insort xs x).Pairwise (· < ·) := by
  obtain ⟨hleft, hright⟩ := bisectRight_spec x (h.imp le_of_lt)
  have hsplit := h
  rw [← take_append_drop (bisectRight xs x) xs, pairwise_append] at hsplit
  rw [insort_eq, pairwise_append, pairwise_cons]
  refine ⟨hsplit.1, ⟨hright, hsplit.2.1⟩, fun y hy z hz => ?_⟩
  have hyx : y < x := lt_of_le_of_ne (hleft y hy) fun heq => hx (heq ▸ mem_of_mem_take hy)
  rcases mem_cons.mp hz with rfl | hz
  · exact hyx
  · exact hyx.trans (hright z hz)

theorem getElem?_bisectLeft (h : xs.Pairwise (· ≤ ·)) (hx : x ∈ xs) :
    xs[bisectLeft xs x]? = some x := by
  obtain ⟨hleft, hright⟩ := bisectLeft_spec x h
  have hdrop : x ∈ xs.drop (bisectLeft xs x) := by
    rw [← take_append_drop (bisectLeft xs x) xs, mem_append] at hx
    exact hx.resolve_left fun hmem => lt_irrefl x (hleft x hmem)
  have hlt : bisectLeft xs x < xs.length := by
    have hpos := length_pos_of_mem hdrop
    rw [length_drop] at hpos
    omega
  have hsorted := h.sublist (drop_sublist (bisectLeft xs x) xs)
  rw [drop_eq_getElem_cons hlt] at hdrop hright hsorted
  rw [getElem?_eq_getElem hlt, Option.some.injEq]
  refine le_antisymm ?_ (hright _ mem_cons_self)
  rcases mem_cons.mp hdrop with heq | hmem
  · exact heq.ge
  · exact (pairwise_cons.mp hsorted).1 x hmem

theorem bisectErase_sublist : (bisectErase xs x).Sublist xs := by
  unfold bisectErase
  split
  · exact eraseIdx_sublist _ _
  · exact List.Sublist.refl _

theorem mem_bisectErase (h : xs.Pairwise (· < ·)) : y ∈ bisectErase xs x ↔ y ∈ xs ∧ y ≠ x := by
  unfold bisectErase
  split
  · rename_i hfound
    obtain ⟨hlt, hx⟩ := List.getElem?_eq_some_iff.mp hfound
    have hsplit : xs = xs.take (bisectLeft xs x) ++ x :: xs.drop (bisectLeft xs x + 1) := by
      conv_lhs => rw [← take_append_drop (bisectLeft xs x) xs, drop_eq_getElem_cons hlt,
        hx]
    rw [eraseIdx_eq_take_drop_succ]
    generalize xs.take (bisectLeft xs x) = l at hsplit
    generalize xs.drop (bisectLeft xs x + 1) = r at hsplit
    subst hsplit
    rw [pairwise_append, pairwise_cons] at h
    simp only [mem_append, mem_cons]
    constructor
    · rintro (hy | hy)
      · exact ⟨.inl hy, (h.2.2 y hy x mem_cons_self).ne⟩
      · exact ⟨.inr (.inr hy), (h.2.1.1 y hy).ne'⟩
    · rintro ⟨hy | rfl | hy, hne⟩
      · exact .inl hy
      · exact absurd rfl hne
      · exact .inr hy
  · rename_i hmissing
    refine ⟨fun hy => ⟨hy, ?_⟩, And.left⟩
    rintro rfl
    exact hmissing (getElem?_bisectLeft (h.imp le_of_lt) hy)

end Sorted

end LiteDB.Bisection
