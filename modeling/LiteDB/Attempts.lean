import Mathlib.Logic.Basic

/-!
Computations on a state that may raise. Raising does not undo what has been done to
the state.
-/

namespace LiteDB.Attempts

abbrev Attempt (S A : Type) := ExceptT Unit (StateM S) A

variable {S A B : Type}

def attempt (x : Attempt S A) (s : S) : Except Unit A × S := StateT.run (ExceptT.run x) s

/-- From `s`, the computation returns with `Q`, or it raises with `E`. -/
def Yields (x : Attempt S A) (s : S) (Q : A → S → Prop) (E : S → Prop) : Prop :=
  match attempt x s with
  | (.ok a, t) => Q a t
  | (.error _, t) => E t

variable {s : S} {Q Q' : A → S → Prop} {E E' : S → Prop} {x : Attempt S A} {a : A} {f : S → S}

theorem Yields.of_ok {t : S} (h : Yields x s Q E) (hrun : attempt x s = (.ok a, t)) : Q a t := by
  unfold Yields at h
  rwa [hrun] at h

theorem Yields.returns (h : Yields x s (fun b _ => b = a) fun _ => False) :
    (attempt x s).1 = .ok a := by
  unfold Yields at h
  revert h
  rcases attempt x s with ⟨_ | b, t⟩
  · exact False.elim
  · exact congrArg Except.ok

theorem Yields.snd (h : Yields x s (fun _ => E) E) : E (attempt x s).2 := by
  unfold Yields at h
  revert h
  rcases attempt x s with ⟨_ | a, t⟩ <;> exact id

theorem Yields.imp (h : Yields x s Q E) (hQ : ∀ a t, Q a t → Q' a t) (hE : ∀ t, E t → E' t) :
    Yields x s Q' E' := by
  unfold Yields at h ⊢
  split at h
  · exact hQ _ _ h
  · exact hE _ h

theorem Yields.mono (h : Yields x s Q E) (hQ : ∀ a t, Q a t → Q' a t) : Yields x s Q' E :=
  h.imp hQ fun _ => id

theorem attempt_bind (x : Attempt S A) (k : A → Attempt S B) (s : S) :
    attempt (x >>= k) s =
      match attempt x s with
      | (.ok a, t) => attempt (k a) t
      | (.error e, t) => (.error e, t) := by
  simp only [attempt, ExceptT.run_bind, StateT.run_bind]
  rcases StateT.run x.run s with ⟨_ | a, t⟩ <;> rfl

theorem attempt_discard (x : Attempt S A) (s : S) :
    (attempt (discard x) s).2 = (attempt x s).2 := by
  change (attempt (x >>= fun _ => pure ()) s).2 = _
  rw [attempt_bind]
  rcases attempt x s with ⟨_ | a, t⟩ <;> rfl

theorem Yields.bind {k : A → Attempt S B} {R : B → S → Prop}
    (h : Yields x s (fun a t => Yields (k a) t R E) E) : Yields (x >>= k) s R E := by
  unfold Yields at h ⊢
  rw [attempt_bind]
  split at h
  · exact h
  · exact h

theorem yields_pure (h : Q a s) : Yields (pure a) s Q E := h

theorem yields_throw (h : E s) : Yields (throw () : Attempt S A) s Q E := h

theorem yields_get {R : S → S → Prop} (h : R s s) : Yields (get : Attempt S S) s R E := h

theorem yields_modify {R : Unit → S → Prop} (h : R () (f s)) :
    Yields (modify f : Attempt S Unit) s R E := h

theorem yields_ite {c : Prop} [Decidable c] {y : Attempt S A} (hx : c → Yields x s Q E)
    (hy : ¬c → Yields y s Q E) : Yields (if c then x else y) s Q E := by
  split
  · exact hx ‹_›
  · exact hy ‹_›

/-- The value of an expression that may raise. -/
def orRaise : Option A → Attempt S A
  | some a => pure a
  | none => throw ()

theorem yields_orRaise {o : Option A} (ho : o = some a) (h : Q a s) : Yields (orRaise o) s Q E := by
  subst ho
  exact h

theorem yields_foldlM {f : B → A → Attempt S B} (inv : List A → B → S → Prop) {xs : List A}
    {b : B} (hturn : ∀ x rest b t, inv (x :: rest) b t → Yields (f b x) t (inv rest) E)
    (h : inv xs b s) : Yields (xs.foldlM f b) s (inv []) E := by
  induction xs generalizing b s with
  | nil => exact yields_pure h
  | cons x xs ih =>
    rw [List.foldlM_cons]
    exact Yields.bind ((hturn x xs b s h).mono fun b t ht => ih ht)

theorem attempt_tryFinally (x : Attempt S A) (f : S → S) (s : S) :
    attempt (tryFinally x (modify f : Attempt S Unit)) s =
      ((attempt x s).1, f (attempt x s).2) := by
  simp only [attempt, tryFinally, tryFinally', Functor.map, ExceptT.map, ExceptT.mk, ExceptT.run,
    StateT.run, bind, StateT.bind, pure]
  rcases x s with ⟨_ | a, t⟩ <;> rfl

theorem Yields.tryFinally (h : Yields x s (fun a t => Q a (f t)) fun t => E (f t)) :
    Yields (tryFinally x (modify f : Attempt S Unit)) s Q E := by
  unfold Yields at h ⊢
  rw [attempt_tryFinally]
  revert h
  rcases attempt x s with ⟨_ | a, t⟩ <;> exact id

end LiteDB.Attempts
