import Mathlib.Logic.Relation

/-!
Runs of a deterministic machine `step : S → A → Option S`, where an action that
is not enabled gives `none` and `ok` restricts which actions may be taken.
-/

namespace LiteDB.Runs

variable {S A : Type}

/-- One step whose action meets `ok` in the state before it. -/
def Step (step : S → A → Option S) (ok : S → A → Prop) (s t : S) : Prop :=
  ∃ a, ok s a ∧ step s a = some t

/-- The states on the runs from `s` all of whose steps meet `ok`. -/
def Reaches (step : S → A → Option S) (ok : S → A → Prop) : S → S → Prop :=
  Relation.ReflTransGen (Step step ok)

variable {step : S → A → Option S} {ok : S → A → Prop}

theorem Reaches.refl (s : S) : Reaches step ok s s :=
  Relation.ReflTransGen.refl

variable {s t u : S} {a : A}

theorem Reaches.tail (h : Reaches step ok s t) (ha : ok t a) (hstep : step t a = some u) :
    Reaches step ok s u :=
  Relation.ReflTransGen.tail h ⟨a, ha, hstep⟩

theorem Reaches.trans (h : Reaches step ok s t) (h' : Reaches step ok t u) : Reaches step ok s u :=
  Relation.ReflTransGen.trans h h'

theorem Reaches.single (ha : ok s a) (hstep : step s a = some t) : Reaches step ok s t :=
  (Reaches.refl s).tail ha hstep

theorem Reaches.invariant (inv : S → Prop) (h : Reaches step ok s t) (hinit : inv s)
    (hpres : ∀ u a w, inv u → ok u a → step u a = some w → inv w) : inv t := by
  induction h with
  | refl => exact hinit
  | tail _ hlast ih =>
    obtain ⟨a, ha, hstep⟩ := hlast
    exact hpres _ a _ ih ha hstep

/-- A run that meets `ok` also meets every `ok'` that `ok` implies in the states
which satisfy an invariant of the run. -/
theorem Reaches.weaken {ok' : S → A → Prop} (inv : S → Prop) (h : Reaches step ok s t)
    (hinit : inv s) (hpres : ∀ u a w, inv u → ok u a → step u a = some w → inv w)
    (hok : ∀ u a, inv u → ok u a → ok' u a) : Reaches step ok' s t := by
  have hboth : Reaches step ok' s t ∧ inv t := by
    induction h with
    | refl => exact ⟨Reaches.refl s, hinit⟩
    | tail _ hlast ih =>
      obtain ⟨a, ha, hstep⟩ := hlast
      exact ⟨ih.1.tail (hok _ a ih.2 ha) hstep, hpres _ a _ ih.2 ha hstep⟩
  exact hboth.1

theorem Reaches.project {T B : Type} {part : T → B → Option T} {ok' : T → B → Prop} (f : S → T)
    (h : Reaches step ok s t)
    (hstep : ∀ u a w, ok u a → step u a = some w →
      f w = f u ∨ ∃ b, ok' (f u) b ∧ part (f u) b = some (f w)) :
    Reaches part ok' (f s) (f t) := by
  induction h with
  | refl => exact Reaches.refl _
  | tail _ hlast ih =>
    obtain ⟨a, ha, hw⟩ := hlast
    rcases hstep _ a _ ha hw with hsame | ⟨b, hb, hpart⟩
    · rwa [hsame]
    · exact ih.tail hb hpart

/-- The machine that refuses an action that does not meet `ok`. -/
def guarded (step : S → A → Option S) (ok : S → A → Prop) [∀ s a, Decidable (ok s a)]
    (s : S) (a : A) : Option S :=
  if ok s a then step s a else none

theorem reaches_of_foldlM [∀ s a, Decidable (ok s a)] (script : List A)
    (h : script.foldlM (guarded step ok) s = some t) : Reaches step ok s t := by
  induction script generalizing s with
  | nil =>
    have hst : s = t := by simpa using h
    exact hst ▸ Reaches.refl s
  | cons a script ih =>
    simp only [List.foldlM_cons, guarded] at h
    split at h
    · rename_i ha
      obtain ⟨u, hu, htail⟩ := Option.bind_eq_some_iff.mp h
      exact (Reaches.single ha hu).trans (ih htail)
    · simp at h

variable (step ok) in
theorem exists_reaches [∀ s a, Decidable (ok s a)] (s : S) (script : List A) (test : S → Prop)
    [DecidablePred test] (h : (script.foldlM (guarded step ok) s).any (test ·) = true) :
    ∃ t, Reaches step ok s t ∧ test t := by
  cases hrun : script.foldlM (guarded step ok) s with
  | none => simp [hrun] at h
  | some t => exact ⟨t, reaches_of_foldlM script hrun, by simpa [hrun] using h⟩

end LiteDB.Runs
