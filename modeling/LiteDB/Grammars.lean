import Mathlib.Data.List.Basic

/-!
Grammars in extended Backus-Naur form, and parsers that read a list of tokens from the
front. A token has a kind, and a grammar is about kinds.
-/

namespace LiteDB.Grammars

open List

/-- The right side of a rule in extended Backus-Naur form, over kinds of tokens. -/
inductive Phrase (K N : Type) where
  | nothing
  | token (k : K)
  | rule (n : N)
  | seq (first second : Phrase K N)
  | choice (left right : Phrase K N)
  | optional (p : Phrase K N)
  | many (p : Phrase K N)

variable {K N : Type}

namespace Phrase

def all (ps : List (Phrase K N)) : Phrase K N := ps.foldr seq nothing

end Phrase

open Phrase

/-- The phrase stands for the list of kinds. -/
inductive Derives {K N : Type} (rules : N → Phrase K N) : Phrase K N → List K → Prop where
  | nothing : Derives rules nothing []
  | token (k : K) : Derives rules (token k) [k]
  | rule {n : N} {ks : List K} (h : Derives rules (rules n) ks) : Derives rules (rule n) ks
  | seq {a b : Phrase K N} {ks ls : List K} (h : Derives rules a ks) (h' : Derives rules b ls) :
      Derives rules (seq a b) (ks ++ ls)
  | left {a b : Phrase K N} {ks : List K} (h : Derives rules a ks) :
      Derives rules (choice a b) ks
  | right {a b : Phrase K N} {ks : List K} (h : Derives rules b ks) :
      Derives rules (choice a b) ks
  | absent {a : Phrase K N} : Derives rules (optional a) []
  | present {a : Phrase K N} {ks : List K} (h : Derives rules a ks) :
      Derives rules (optional a) ks
  | stop {a : Phrase K N} : Derives rules (many a) []
  | more {a : Phrase K N} {ks ls : List K} (h : Derives rules a ks)
      (h' : Derives rules (many a) ls) : Derives rules (many a) (ks ++ ls)

variable {a b : Phrase K N} {n : N} {k : K}

section Inversion

variable {rules : N → Phrase K N} {ks : List K}

theorem derives_nothing_iff : Derives rules nothing ks ↔ ks = [] := by
  constructor
  · rintro ⟨⟩
    rfl
  · rintro rfl
    exact .nothing

theorem derives_seq_iff : Derives rules (seq a b) ks ↔
    ∃ ls ls', ks = ls ++ ls' ∧ Derives rules a ls ∧ Derives rules b ls' := by
  constructor
  · rintro (_ | _ | _ | ⟨h, h'⟩)
    exact ⟨_, _, rfl, h, h'⟩
  · rintro ⟨ls, ls', rfl, h, h'⟩
    exact .seq h h'

theorem derives_token_seq_iff :
    Derives rules (seq (token k) b) ks ↔ ∃ ls, ks = k :: ls ∧ Derives rules b ls := by
  rw [derives_seq_iff]
  constructor
  · rintro ⟨_, ls, rfl, ⟨⟩, h⟩
    exact ⟨ls, rfl, h⟩
  · rintro ⟨ls, rfl, h⟩
    exact ⟨[k], ls, rfl, .token k, h⟩

end Inversion

/-- A parser takes tokens from the front of the list that is its state. -/
abbrev Parser (T E A : Type) := StateT (List T) (Except E) A

variable {T E A B : Type}

/-- The next token; `atEnd` is raised where there is none. -/
def peek (atEnd : E) : Parser T E T := do
  match ← get with
  | t :: _ => return t
  | [] => throw atEnd

def next (atEnd : E) : Parser T E T := do
  match ← get with
  | t :: ts =>
      set ts
      return t
  | [] => throw atEnd

/-- `while` the next token has a kind, take it and do the body. -/
def whileNext [DecidableEq K] (kind : T → K) (atEnd stuck : E) (k : K) (body : A → Parser T E A) :
    Nat → A → Parser T E A
  | 0, _ => throw stuck
  | fuel + 1, a => do
      if kind (← peek atEnd) = k then
        let _ ← next atEnd
        let a ← body a
        whileNext kind atEnd stuck k body fuel a
      else
        return a

/-- The grammar of a parser, and the error of a loop that is cut off. -/
structure Setting (T E K N : Type) where
  rules : N → Phrase K N
  kind : T → K
  stuck : E

/-- On these tokens the parser takes tokens from the front or raises an error other than
`stuck`. Under the condition, what it takes is derived from the phrase. -/
def Recognizes (S : Setting T E K N) (C : Prop) (p : Parser T E A) (a : Phrase K N)
    (ts : List T) : Prop :=
  match p.run ts with
  | .ok (_, rest) => ∃ used, ts = used ++ rest ∧ (C → Derives S.rules a (used.map S.kind))
  | .error e => e ≠ S.stuck

section Recognizing

variable {S : Setting T E K N} {C : Prop} {p : Parser T E A} {cont : A → Parser T E B}
  {atEnd : E} {t : T} {ts : List T} {x : A}

theorem Recognizes.imp (h : Recognizes S C p a ts)
    (himp : ∀ ks, C → Derives S.rules a ks → Derives S.rules b ks) : Recognizes S C p b ts := by
  unfold Recognizes at h ⊢
  split at h
  · obtain ⟨used, heq, hderives⟩ := h
    exact ⟨used, heq, fun hc => himp _ hc (hderives hc)⟩
  · exact h

theorem Recognizes.mono (h : Recognizes S C p a ts)
    (himp : ∀ ks, Derives S.rules a ks → Derives S.rules b ks) : Recognizes S C p b ts :=
  h.imp fun ks _ => himp ks

theorem recognizes_pure : Recognizes S C (pure x) nothing ts :=
  ⟨[], rfl, fun _ => .nothing⟩

theorem recognizes_throw {e : E} (h : e ≠ S.stuck) :
    Recognizes S C (throw e : Parser T E A) a ts :=
  h

theorem Recognizes.rule (h : Recognizes S C p (S.rules n) ts) : Recognizes S C p (.rule n) ts :=
  h.mono fun _ => .rule

theorem Recognizes.last (h : Recognizes S C p a ts) : Recognizes S C p (seq a nothing) ts :=
  h.mono fun ks hks => append_nil ks ▸ .seq hks .nothing

theorem Recognizes.of_last (h : Recognizes S C p (seq a nothing) ts) : Recognizes S C p a ts := by
  refine h.mono fun ks hks => ?_
  obtain ⟨ls, ls', rfl, hls, hls'⟩ := derives_seq_iff.mp hks
  rwa [derives_nothing_iff.mp hls', append_nil]

theorem Recognizes.bind (h : Recognizes S C p a ts)
    (hcont : ∀ x used rest, ts = used ++ rest → Recognizes S C (cont x) b rest) :
    Recognizes S C (p >>= cont) (seq a b) ts := by
  unfold Recognizes at h ⊢
  rw [StateT.run_bind]
  cases hrun : p.run ts with
  | error e =>
    rw [hrun] at h
    exact h
  | ok result =>
    rw [hrun] at h
    obtain ⟨used, heq, hderives⟩ := h
    have hrest := hcont result.1 used result.2 heq
    unfold Recognizes at hrest
    change match (cont result.1).run result.2 with
      | .ok (_, rest) => _
      | .error e => _
    split at hrest
    · obtain ⟨used', hrest, hderives'⟩ := hrest
      refine ⟨used ++ used', by rw [heq, hrest, append_assoc], fun hc => ?_⟩
      rw [map_append]
      exact .seq (hderives hc) (hderives' hc)
    · exact hrest

theorem recognizes_peek {cont : T → Parser T E B} (hend : atEnd ≠ S.stuck)
    (h : ∀ t rest, ts = t :: rest → Recognizes S C (cont t) b ts) :
    Recognizes S C (peek atEnd >>= cont) b ts := by
  cases ts with
  | nil => exact hend
  | cons t rest => exact h t rest rfl

theorem recognizes_next_bind {cont : T → Parser T E B} (h : Recognizes S C (cont t) b ts) :
    Recognizes S C (next atEnd >>= cont) (seq (token (S.kind t)) b) (t :: ts) := by
  unfold Recognizes at h
  change match (cont t).run ts with
    | .ok (_, rest) => _
    | .error e => _
  split at h
  · obtain ⟨used, rfl, hderives⟩ := h
    exact ⟨t :: used, rfl, fun hc => .seq (.token (S.kind t)) (hderives hc)⟩
  · exact h

theorem recognizes_get {cont : List T → Parser T E B} (h : Recognizes S C (cont ts) b ts) :
    Recognizes S C (get >>= cont) b ts := h

theorem recognizes_lift {y : Except E A} (herror : y ≠ .error S.stuck)
    (h : ∀ x, Recognizes S C (cont x) b ts) :
    Recognizes S C ((liftM y : Parser T E A) >>= cont) b ts := by
  cases y with
  | error e => exact fun heq => herror (congrArg _ heq)
  | ok x => exact h x

theorem recognizes_ite {c : Prop} [Decidable c] {q : Parser T E A}
    (hp : c → Recognizes S C p a ts) (hq : ¬c → Recognizes S C q a ts) :
    Recognizes S C (if c then p else q) a ts := by
  split
  · exact hp ‹_›
  · exact hq ‹_›

/-- The loop takes as many bodies as there are, where what it asks of the tokens holds of
every rest of them. -/
theorem recognizes_whileNext [DecidableEq K] {body : A → Parser T E A} {H : List T → Prop}
    (hend : atEnd ≠ S.stuck) (hH : ∀ used rest, H (used ++ rest) → H rest)
    (hbody : ∀ x ts, H ts → Recognizes S C (body x) b ts) {fuel : Nat} (hfuel : ts.length < fuel)
    (h : H ts) :
    Recognizes S C (whileNext S.kind atEnd S.stuck k body fuel x) (many (seq (token k) b)) ts := by
  induction fuel generalizing x ts with
  | zero => exact absurd hfuel (Nat.not_lt_zero _)
  | succ fuel ih =>
    refine recognizes_peek hend fun t rest heq => recognizes_ite (fun hk => ?_) fun _ => ?_
    · subst heq hk
      have hrest : H rest := hH [t] rest h
      refine (recognizes_next_bind ((hbody x rest hrest).bind
        fun y used rest' heq => ih ?_ (hH used rest' (heq ▸ hrest)))).mono fun ks hks => ?_
      · rw [heq, length_cons, length_append] at hfuel
        omega
      · obtain ⟨ls, rfl, hls⟩ := derives_token_seq_iff.mp hks
        obtain ⟨us, vs, rfl, hus, hvs⟩ := derives_seq_iff.mp hls
        rw [← cons_append]
        exact .more (.seq (.token _) hus) hvs
    · exact recognizes_pure.mono fun ks hks => derives_nothing_iff.mp hks ▸ .stop

end Recognizing

end LiteDB.Grammars
