import LiteDB.Majorities
import Mathlib.Data.List.Infix

/-!
Leader completeness for replicated logs whose configuration may change, stated
on what an observer of a whole run remembers of its leaders. Nothing here knows
how votes, acknowledgements or commits come about.
-/

namespace LiteDB.LeaderHistory

open List Majorities Option

section Configurations

variable {E N : Type} (cfg : E → Option (Finset N)) (first : Finset N)

def configOf (log : List E) : Finset N := (log.reverse.findSome? cfg).getD first

variable {A B : List E} {e : E}

theorem configOf_append_of_none (h : ∀ e ∈ B, cfg e = none) :
    configOf cfg first (A ++ B) = configOf cfg first A := by
  have hB : B.reverse.findSome? cfg = none := by
    rw [findSome?_eq_none_iff]
    intro e he
    exact h e (mem_reverse.mp he)
  simp [configOf, findSome?_append, hB]

theorem configOf_split (h : ∀ b ∈ B, cfg b = none) :
    configOf cfg first (A ++ e :: B) = configOf cfg first (A ++ [e]) := by
  have hsplit : A ++ e :: B = (A ++ [e]) ++ B := by simp
  rw [hsplit, configOf_append_of_none cfg first h]

/-- A log that ends between the last configuration entry and the end of another
log has the same configuration. -/
theorem configOf_of_between {log : List E} (hB : ∀ b ∈ B, cfg b = none) (hlow : A ++ [e] <+: log)
    (hhigh : log <+: A ++ e :: B) : configOf cfg first log = configOf cfg first (A ++ [e]) := by
  obtain ⟨rest, rfl⟩ := hlow
  have hrest : rest <+: B := by
    rw [show A ++ e :: B = A ++ [e] ++ B by simp] at hhigh
    exact (prefix_append_right_inj _).mp hhigh
  exact configOf_append_of_none cfg first fun x hx => hB x (hrest.subset hx)

theorem exists_last_config (log : List E) :
    (∀ e ∈ log, cfg e = none) ∨
      ∃ A e B, log = A ++ e :: B ∧ cfg e ≠ none ∧ ∀ b ∈ B, cfg b = none := by
  induction log using List.reverseRecOn with
  | nil => exact .inl (by simp)
  | append_singleton log e ih =>
    by_cases he : cfg e = none
    · rcases ih with hnone | ⟨A, a, B, rfl, ha, hB⟩
      · left
        intro x hx
        rcases mem_append.mp hx with hx | hx
        · exact hnone x hx
        · exact mem_singleton.mp hx ▸ he
      · refine .inr ⟨A, a, B ++ [e], by simp, ha, ?_⟩
        intro b hb
        rcases mem_append.mp hb with hb | hb
        · exact hB b hb
        · exact mem_singleton.mp hb ▸ he
    · exact .inr ⟨log, e, [], rfl, he, by simp⟩

end Configurations

variable {E N : Type}

/-- What is remembered of a run. For a term that had a leader, `base` is the log
the leader was elected with and `full` its log as far as it ever grew. `acked`
says how far a node acknowledged the leader of a term, and `commits T i m` that
the leader of `T` committed position `i` while its log had length `m`. -/
structure History (E N : Type) where
  base : Nat → Option (List E)
  full : Nat → List E
  acked : N → Nat → Nat
  commits : Nat → Nat → Nat → Prop

section Validity

variable (term : E → Nat)

/-- Every entry of the log stands behind the same entries as in the log of the
leader of its term. -/
def Matches (h : History E N) (log : List E) : Prop :=
  ∀ A e, A ++ [e] <+: log → h.base (term e) ≠ none ∧ A ++ [e] <+: h.full (term e)

def lastTerm (log : List E) : Nat := (log.getLast?.map term).getD 0

/-- The voting order: a later last term, or the same one and no shorter. -/
def AtLeast (log other : List E) : Prop :=
  lastTerm term other < lastTerm term log ∨
    (lastTerm term other = lastTerm term log ∧ other.length ≤ log.length)

/-- The first `i` entries of the leader of `T` are in the log of every leader
elected after `T` and before `t`. -/
def SafeBefore (h : History E N) (T i t : Nat) : Prop :=
  ∀ s b, T < s → s < t → h.base s = some b → (h.full T).take i <+: b

/-- The log still has whatever the node acknowledged before term `t`, as long as
no leader in between lacked it. -/
def Retains (h : History E N) (v : N) (t : Nat) (log : List E) : Prop :=
  ∀ T i, T < t → i ≤ h.acked v T → SafeBefore h T i t → (h.full T).take i <+: log

/-- Leaders extend the logs they were elected with by entries of their own
terms, and all their logs match. -/
structure Wellformed (h : History E N) : Prop where
  base_le : ∀ {t b}, h.base t = some b → b <+: h.full t
  term_base : ∀ {t b}, h.base t = some b → ∀ e ∈ b, term e < t
  term_new : ∀ {t b}, h.base t = some b → ∀ e ∈ (h.full t).drop b.length, term e = t
  full_matches : ∀ {t}, h.base t ≠ none → Matches term h (h.full t)

variable [DecidableEq N] (cfg : E → Option (Finset N)) (first : Finset N)

/-- What is asked of the remembered commits, acknowledgements and votes. -/
structure Valid (h : History E N) : Prop extends Wellformed term h where
  commit_le : ∀ {T i m}, h.commits T i m → i ≤ m ∧ m ≤ (h.full T).length
  commit_term : ∀ {T i m}, h.commits T i m →
    h.base T ≠ none ∧ ∃ A e, (h.full T).take i = A ++ [e] ∧ term e = T
  commit_acked : ∀ {T i m}, h.commits T i m →
    ∃ q, Majority (configOf cfg first ((h.full T).take m)) q ∧ ∀ v ∈ q, i ≤ h.acked v T
  voted : ∀ {t b}, h.base t = some b →
    ∃ q, Majority (configOf cfg first b) q ∧ ∀ v ∈ q, ∃ log,
      Matches term h log ∧ AtLeast term b log ∧ Retains h v t log
  /-- A leader adds a configuration only after it committed an entry of its own
  term with no configuration between that entry and the new one. -/
  reconfigured : ∀ {t b A e}, h.base t = some b → A ++ [e] <+: h.full t →
    b.length ≤ A.length → cfg e ≠ none → ∃ j m, h.commits t j m ∧ m ≤ A.length ∧
      (∀ r, j ≤ r → r ≤ A.length →
        configOf cfg first (A.take r) = configOf cfg first A) ∧
      Adjacent (configOf cfg first A) (configOf cfg first (A ++ [e]))

end Validity

section Logs

variable {term : E → Nat} {h : History E N} {log : List E} {e : E}

theorem mem_of_concat_le {A : List E} (hlog : A ++ [e] <+: log) : e ∈ log :=
  hlog.subset (by simp)

theorem concat_le_of_mem (he : e ∈ log) : ∃ A, A ++ [e] <+: log := by
  obtain ⟨A, B, rfl⟩ := append_of_mem he
  exact ⟨A, B, by simp⟩

theorem lastTerm_concat (A : List E) (e : E) : lastTerm term (A ++ [e]) = term e := by
  simp [lastTerm]

theorem lastTerm_mem (term : E → Nat) (hne : log ≠ []) : ∃ e ∈ log, term e = lastTerm term log := by
  rcases eq_nil_or_concat log with rfl | ⟨A, e, rfl⟩
  · exact absurd rfl hne
  · rw [concat_eq_append]
    exact ⟨e, by simp, (lastTerm_concat A e).symm⟩

theorem Matches.of_le {log' : List E} (hlog : Matches term h log) (hle : log' <+: log) :
    Matches term h log' :=
  fun A e hA => hlog A e (hA.trans hle)

/-- A log whose last entry is of term `T` is part of the leader's log. -/
theorem Matches.le_full (hlog : Matches term h log) {T : Nat} (hT : lastTerm term log = T)
    (hne : log ≠ []) : log <+: h.full T := by
  rcases eq_nil_or_concat log with rfl | ⟨A, e, rfl⟩
  · exact absurd rfl hne
  · rw [concat_eq_append] at hlog hT ⊢
    rw [lastTerm_concat] at hT
    exact hT ▸ (hlog A e prefix_rfl).2

end Logs

section Wellformedness

variable {term : E → Nat} {h : History E N} {t : Nat} {e : E} {b log A : List E}

variable (hw : Wellformed term h)

include hw

theorem Wellformed.term_le (ht : h.base t ≠ none) (he : e ∈ h.full t) : term e ≤ t := by
  obtain ⟨b, hb⟩ := ne_none_iff_exists'.mp ht
  obtain ⟨rest, hrest⟩ := hw.base_le hb
  have hdrop : (h.full t).drop b.length = rest := by rw [← hrest]; simp
  rw [← hrest] at he
  rcases mem_append.mp he with he | he
  · exact Nat.le_of_lt (hw.term_base hb e he)
  · exact Nat.le_of_eq (hw.term_new hb e (hdrop ▸ he))

theorem Wellformed.base_matches (hb : h.base t = some b) : Matches term h b :=
  (hw.full_matches (by simp [hb])).of_le (hw.base_le hb)

theorem Wellformed.term_mono {x : E} (hlog : Matches term h log)
    (he : A ++ [e] <+: log) (hx : x ∈ A) : term x ≤ term e := by
  obtain ⟨hbase, hfull⟩ := hlog A e he
  exact hw.term_le hbase (hfull.subset (by simp [hx]))

theorem Wellformed.pairwise_term (hlog : Matches term h log) :
    log.Pairwise fun e e' => term e ≤ term e' := by
  induction log using List.reverseRecOn with
  | nil => exact List.Pairwise.nil
  | append_singleton log e ih =>
    rw [pairwise_append]
    refine ⟨ih (hlog.of_le (prefix_append log [e])), pairwise_singleton _ _, ?_⟩
    intro x hx y hy
    rw [mem_singleton.mp hy]
    exact hw.term_mono hlog (prefix_refl _) hx

/-- The entries that a leader adds to its log lie behind the log it was elected
with. -/
theorem Wellformed.base_le_of_term (hb : h.base t = some b)
    (he : A ++ [e] <+: h.full t) (hterm : term e = t) : b <+: A := by
  have hlen : b.length ≤ A.length := by
    by_contra hlt
    have hin : A ++ [e] <+: b :=
      prefix_of_prefix_length_le he (hw.base_le hb) (by simp; omega)
    have := hw.term_base hb e (mem_of_concat_le hin)
    omega
  exact prefix_of_prefix_length_le (hw.base_le hb) ((prefix_append A [e]).trans he) hlen

/-- A log with an entry of a leader holds all that leader was elected with. -/
theorem Wellformed.base_le_of_mem (hlog : Matches term h log)
    (he : e ∈ log) (hb : h.base t = some b) (ht : term e = t) : b <+: log := by
  obtain ⟨A, hA⟩ := concat_le_of_mem he
  have hfull := (hlog A e hA).2
  rw [ht] at hfull
  exact (hw.base_le_of_term hb hfull ht).trans ((prefix_append A [e]).trans hA)

end Wellformedness

section Growth

variable {term : E → Nat} {h h' : History E N}

/-- A later memory of the same run: elections stay, and the log of a leader may
have grown. -/
def Extends (h h' : History E N) : Prop :=
  ∀ t b, h.base t = some b → h'.base t = some b ∧ h.full t <+: h'.full t

variable {t : Nat} {log b : List E} {v : N}

theorem Extends.base_ne (hext : Extends h h') (ht : h.base t ≠ none) : h'.base t ≠ none := by
  obtain ⟨b, hb⟩ := ne_none_iff_exists'.mp ht
  simp [(hext t b hb).1]

theorem Extends.full_le (hext : Extends h h') (ht : h.base t ≠ none) : h.full t <+: h'.full t := by
  obtain ⟨b, hb⟩ := ne_none_iff_exists'.mp ht
  exact (hext t b hb).2

theorem Extends.take_full (hext : Extends h h') {i : Nat} (ht : h.base t ≠ none)
    (hi : i ≤ (h.full t).length) : (h'.full t).take i = (h.full t).take i := by
  obtain ⟨rest, hrest⟩ := hext.full_le ht
  rw [← hrest, take_append_of_le_length hi]

theorem Matches.mono (hlog : Matches term h log) (hext : Extends h h') : Matches term h' log := by
  intro A e hA
  obtain ⟨hbase, hfull⟩ := hlog A e hA
  exact ⟨hext.base_ne hbase, hfull.trans (hext.full_le hbase)⟩

/-- What a log retains is not affected by what happens in later terms. -/
theorem Retains.mono (hlog : Retains h v t log) (hext : Extends h h')
    (hacked : ∀ T, T < t → h'.acked v T = h.acked v T)
    (hbase : ∀ T, h.acked v T ≠ 0 → h.base T ≠ none) (hlen : ∀ T, h.acked v T ≤ (h.full T).length) :
    Retains h' v t log := by
  intro T i hT hi hsafe
  rw [hacked T hT] at hi
  rcases Nat.eq_zero_or_pos i with rfl | hpos
  · exact nil_prefix
  · have hT' := hbase T (by omega)
    have htake := hext.take_full hT' (hi.trans (hlen T))
    rw [htake]
    refine hlog T i hT hi fun s b hTs hst hb => ?_
    rw [← htake]
    exact hsafe s b hTs hst (hext s b hb).1

/-- A node that has acknowledged nothing since term `t` still retains the same. -/
theorem Retains.later {t' : Nat} (hlog : Retains h v t log) (hle : t ≤ t')
    (hzero : ∀ T, t ≤ T → h.acked v T = 0) : Retains h v t' log := by
  intro T i hT hi hsafe
  rcases Nat.lt_or_ge T t with hlt | hge
  · exact hlog T i hlt hi fun s b hTs hst hb => hsafe s b hTs (by omega) hb
  · rw [hzero T hge] at hi
    simp [Nat.le_zero.mp hi]

/-- The memory after the leader of `t`, elected with `b`, has the log `log`. -/
def History.lead (h : History E N) (t : Nat) (b log : List E) : History E N :=
  { h with
    base := Function.update h.base t (some b)
    full := Function.update h.full t log }

theorem extends_lead (hb : h.base t = none ∨ (h.base t = some b ∧ h.full t <+: log)) :
    Extends h (h.lead t b log) := by
  intro s b' hb'
  by_cases hst : s = t
  · subst hst
    rcases hb with hb | ⟨hb, hle⟩
    · simp [hb] at hb'
    · rw [hb] at hb'
      simp [History.lead, hle, Option.some.inj hb']
  · simp [History.lead, Function.update_of_ne hst, hb']

/-- A leader appends an entry of its term, the first time when it is elected. -/
theorem Wellformed.lead (hw : Wellformed term h) {e : E}
    (hb : (h.base t = none ∧ b = log ∧ ∀ x ∈ log, term x < t) ∨
      (h.base t = some b ∧ h.full t = log))
    (hlog : Matches term h log) (he : term e = t) : Wellformed term (h.lead t b (log ++ [e])) := by
  have hble : b <+: log := by
    rcases hb with ⟨-, rfl, -⟩ | ⟨hb, rfl⟩
    · exact prefix_rfl
    · exact hw.base_le hb
  have hterm : ∀ x ∈ b, term x < t := by
    rcases hb with ⟨-, rfl, hlt⟩ | ⟨hb, -⟩
    · exact hlt
    · exact hw.term_base hb
  have hdrop : ∀ x ∈ log.drop b.length, term x = t := by
    rcases hb with ⟨-, rfl, -⟩ | ⟨hb, rfl⟩
    · simp
    · exact hw.term_new hb
  have hext : Extends h (h.lead t b (log ++ [e])) := by
    refine extends_lead ?_
    rcases hb with ⟨hb, -⟩ | ⟨hb, rfl⟩
    · exact .inl hb
    · exact .inr ⟨hb, prefix_append _ _⟩
  have hbase_self : (h.lead t b (log ++ [e])).base t = some b := by simp [History.lead]
  have hfull_self : (h.lead t b (log ++ [e])).full t = log ++ [e] := by simp [History.lead]
  have hbase_ne : ∀ {s}, s ≠ t → (h.lead t b (log ++ [e])).base s = h.base s := fun hs => by
    simp [History.lead, Function.update_of_ne hs]
  have hfull_ne : ∀ {s}, s ≠ t → (h.lead t b (log ++ [e])).full s = h.full s := fun hs => by
    simp [History.lead, Function.update_of_ne hs]
  refine ⟨?_, ?_, ?_, ?_⟩
  · intro s b' hb'
    by_cases hs : s = t
    · subst hs
      rw [hbase_self] at hb'
      cases hb'
      rw [hfull_self]
      exact hble.trans (prefix_append _ _)
    · rw [hbase_ne hs] at hb'
      rw [hfull_ne hs]
      exact hw.base_le hb'
  · intro s b' hb'
    by_cases hs : s = t
    · subst hs
      rw [hbase_self] at hb'
      cases hb'
      exact hterm
    · rw [hbase_ne hs] at hb'
      exact hw.term_base hb'
  · intro s b' hb'
    by_cases hs : s = t
    · subst hs
      rw [hbase_self] at hb'
      cases hb'
      rw [hfull_self, drop_append_of_le_length hble.length_le]
      intro x hx
      rcases mem_append.mp hx with hx | hx
      · exact hdrop x hx
      · rw [mem_singleton.mp hx, he]
    · rw [hbase_ne hs] at hb'
      rw [hfull_ne hs]
      exact hw.term_new hb'
  · intro s hs
    by_cases hst : s = t
    · subst hst
      rw [hfull_self]
      intro A x hA
      rcases prefix_concat_iff.mp hA with heq | hA
      · obtain ⟨rfl, hx⟩ := append_inj' heq rfl
        rw [singleton_inj.mp hx, he, hbase_self, hfull_self]
        exact ⟨by simp, prefix_rfl⟩
      · exact hlog.mono hext A x hA
    · rw [hbase_ne hst] at hs
      rw [hfull_ne hst]
      exact (hw.full_matches hs).mono hext

end Growth

section Completeness

variable [DecidableEq N] {term : E → Nat} {cfg : E → Option (Finset N)} {first : Finset N}
  {h : History E N} {A B other log : List E} {e : E} {T i t m : Nat}

variable (hv : Valid term cfg first h)

include hv

/-- The configurations of two logs are adjacent when the second log holds what
the leader of the first log's last configuration had committed, and has no later
configuration. -/
theorem Valid.adjacent_of_last
    (hlog : Matches term h (A ++ e :: B)) (he : cfg e ≠ none) (hB : ∀ b ∈ B, cfg b = none)
    (hother : Matches term h other)
    (hin : ∀ j m, h.commits (term e) j m → (h.full (term e)).take j <+: other)
    (hlast : ∀ A' e', A' ++ [e'] <+: other → cfg e' ≠ none →
      term e' < term e ∨ (term e' = term e ∧ A'.length ≤ A.length)) :
    Adjacent (configOf cfg first (A ++ e :: B)) (configOf cfg first other) := by
  obtain ⟨hbase, hfull⟩ := hlog A e ⟨B, by simp⟩
  obtain ⟨b, hb⟩ := ne_none_iff_exists'.mp hbase
  have hbA := hv.base_le_of_term hb hfull rfl
  obtain ⟨j, m, hc, hm, hconst, hadj⟩ := hv.reconfigured hb hfull hbA.length_le he
  obtain ⟨hjm, _⟩ := hv.commit_le hc
  have hAj : (h.full (term e)).take j = A.take j := by
    obtain ⟨rest, hrest⟩ := hfull
    rw [← hrest, append_assoc, take_append_of_le_length (by omega)]
  have hjother : A.take j <+: other := hAj ▸ hin j m hc
  have hconstj : configOf cfg first (A.take j) = configOf cfg first A :=
    hconst j le_rfl (by omega)
  rw [configOf_split cfg first hB]
  -- it is enough that the other log has the configuration before `e`
  suffices hsame : configOf cfg first other = configOf cfg first A ∨
      configOf cfg first other = configOf cfg first (A ++ [e]) by
    rcases hsame with hsame | hsame
    · exact hsame ▸ hadj.symm
    · exact hsame ▸ Adjacent.refl _
  rcases exists_last_config cfg other with hnone | ⟨A', e', B', rfl, he', hB'⟩
  · left
    obtain ⟨rest, hrest⟩ := hjother
    rw [← hconstj, ← hrest]
    refine configOf_append_of_none cfg first fun x hx => hnone x ?_
    rw [← hrest]
    exact mem_append_right _ hx
  · have he'le : A' ++ [e'] <+: A' ++ e' :: B' := ⟨B', by simp⟩
    by_cases hlt : A'.length < j
    · left
      have hA'j : A' ++ [e'] <+: A.take j :=
        prefix_of_prefix_length_le he'le hjother (by simp; omega)
      rw [configOf_split cfg first hB', ← hconstj]
      exact (configOf_of_between cfg first hB' hA'j hjother).symm
    · -- the last configuration of the other log lies behind the committed entry
      have hjA' : A.take j <+: A' :=
        prefix_of_prefix_length_le hjother (prefix_append _ _) (by simp; omega)
      obtain ⟨_, A₀, e₀, htake, hterm₀⟩ := hv.commit_term hc
      have he₀ : e₀ ∈ A' := hjA'.subset (by rw [← hAj, htake]; simp)
      have hmono := hv.term_mono hother he'le he₀
      rcases hlast A' e' he'le he' with hlt' | ⟨heq, hlen⟩
      · omega
      · have hfull' := (hother A' e' he'le).2
        rw [heq] at hfull'
        rw [configOf_split cfg first hB']
        rcases Nat.lt_or_ge A'.length A.length with hshort | hlong
        · left
          have hpre : A' ++ [e'] <+: A :=
            prefix_of_prefix_length_le hfull' ((prefix_append A [e]).trans hfull)
              (by simp; omega)
          have hr := hconst (A' ++ [e']).length (by simp; omega) hpre.length_le
          rwa [← prefix_iff_eq_take.mp hpre] at hr
        · right
          have hpre : A' ++ [e'] <+: A ++ [e] :=
            prefix_of_prefix_length_le hfull' hfull (by simp; omega)
          rw [hpre.eq_of_length (by simp; omega)]

/-- The last configuration of a log bounds all its configurations. -/
theorem Valid.config_le_last {A' : List E} {e' : E} (hlog : Matches term h (A ++ e :: B))
    (hB : ∀ b ∈ B, cfg b = none) (he' : A' ++ [e'] <+: A ++ e :: B) (hcfg : cfg e' ≠ none) :
    term e' ≤ term e ∧ A'.length ≤ A.length := by
  have hele : A ++ [e] <+: A ++ e :: B := ⟨B, by simp⟩
  have hlen : A'.length ≤ A.length := by
    by_contra hgt
    have hpre : A ++ [e] <+: A' :=
      prefix_of_prefix_length_le hele ((prefix_append A' [e']).trans he')
        (by simp; omega)
    obtain ⟨mid, rfl⟩ := hpre
    obtain ⟨rest, hrest⟩ := he'
    have hBeq : mid ++ [e'] ++ rest = B := by simpa using hrest
    exact hcfg (hB e' (by rw [← hBeq]; simp))
  refine ⟨?_, hlen⟩
  have hpre : A' ++ [e'] <+: A ++ [e] :=
    prefix_of_prefix_length_le he' hele (by simp; omega)
  obtain ⟨hbase, hfull⟩ := hlog A e hele
  exact hv.term_le hbase (hfull.subset (hpre.subset (by simp)))

/-- Two logs have adjacent configurations when each holds what the leader of the
other log's last configuration had committed. -/
theorem Valid.adjacent_of_mutual (hlog : Matches term h log) (hother : Matches term h other)
    (hin : ∀ e ∈ log, ∀ j m, h.commits (term e) j m → (h.full (term e)).take j <+: other)
    (hin' : ∀ e ∈ other, ∀ j m, h.commits (term e) j m → (h.full (term e)).take j <+: log) :
    Adjacent (configOf cfg first log) (configOf cfg first other) := by
  rcases exists_last_config cfg log with hnone | ⟨A, e, B, rfl, he, hB⟩
  · rcases exists_last_config cfg other with hnone' | ⟨A', e', B', rfl, he', hB'⟩
    · have hfirst : ∀ l : List E, (∀ x ∈ l, cfg x = none) → configOf cfg first l = first := by
        intro l hl
        simpa [configOf] using configOf_append_of_none cfg first (A := []) hl
      rw [hfirst log hnone, hfirst other hnone']
      exact Adjacent.refl _
    · refine (hv.adjacent_of_last hother he' hB' hlog (hin' e' (by simp)) ?_).symm
      intro A e hle he
      exact absurd (hnone e (mem_of_concat_le hle)) he
  · rcases exists_last_config cfg other with hnone' | ⟨A', e', B', rfl, he', hB'⟩
    · refine hv.adjacent_of_last hlog he hB hother (hin e (by simp)) ?_
      intro A' e' hle he'
      exact absurd (hnone' e' (mem_of_concat_le hle)) he'
    · by_cases hle : term e' < term e ∨ (term e' = term e ∧ A'.length ≤ A.length)
      · refine hv.adjacent_of_last hlog he hB hother (hin e (by simp)) ?_
        intro A'' e'' hle'' he''
        have := hv.config_le_last hother hB' hle'' he''
        omega
      · refine (hv.adjacent_of_last hother he' hB' hlog (hin' e' (by simp)) ?_).symm
        intro A'' e'' hle'' he''
        have := hv.config_le_last hlog hB hle'' he''
        omega

/-- What a leader committed is in the log of a later leader that holds an entry
of some leader in between that had it. -/
theorem Valid.commit_le_of_later (hsafe : SafeBefore h T i t) (hlog : Matches term h log)
    (he : e ∈ log) (hT : T < term e) (ht : term e < t) : (h.full T).take i <+: log := by
  obtain ⟨A, hA⟩ := concat_le_of_mem he
  obtain ⟨b, hb⟩ := ne_none_iff_exists'.mp (hlog A e hA).1
  exact (hsafe _ b hT ht hb).trans (hv.base_le_of_mem hlog he hb rfl)

theorem Valid.term_le_lastTerm (hlog : Matches term h log)
    (he : e ∈ log) : term e ≤ lastTerm term log := by
  rcases eq_nil_or_concat log with rfl | ⟨A, x, rfl⟩
  · simp at he
  · rw [concat_eq_append] at hlog he ⊢
    rw [lastTerm_concat]
    rcases mem_append.mp he with he | he
    · exact hv.term_mono hlog prefix_rfl he
    · exact Nat.le_of_eq (congrArg term (mem_singleton.mp he))

/-- The voting order carries a committed part of a log over to the candidate. -/
theorem Valid.commit_le_of_atLeast (hc : h.commits T i m)
    (hsafe : SafeBefore h T i t) (hlog : Matches term h log) (hother : Matches term h other)
    (hbound : ∀ e ∈ log, term e < t) (hge : AtLeast term log other)
    (hhas : (h.full T).take i <+: other) : (h.full T).take i <+: log := by
  obtain ⟨_, A, e, htake, hterm⟩ := hv.commit_term hc
  have he : e ∈ other := hhas.subset (by rw [htake]; simp)
  have hlast : T ≤ lastTerm term other := hterm ▸ hv.term_le_lastTerm hother he
  have hlogLast : T ≤ lastTerm term log := by
    rcases hge with hge | ⟨hge, _⟩ <;> omega
  have hpos : log ≠ [] := by
    rintro rfl
    rcases hge with hge | ⟨_, hge⟩
    · simp [lastTerm] at hge
    · have hnil : other = [] := by simpa using hge
      simp [hnil] at he
  obtain ⟨x, hx, hxterm⟩ := lastTerm_mem term hpos
  rcases Nat.lt_or_ge T (lastTerm term log) with hgt | hle
  · exact hv.commit_le_of_later hsafe hlog hx (by omega) (hbound x hx)
  · -- both logs end in the leader's own term, so both are part of its log
    have hT : lastTerm term log = T := by omega
    have hT' : lastTerm term other = T := by
      rcases hge with hge | ⟨hge, _⟩ <;> omega
    have hne' : other ≠ [] := by
      rintro rfl
      simp at he
    rcases hge with hge | ⟨_, hlen⟩
    · omega
    · have hshort := hhas.length_le
      exact prefix_of_prefix_length_le (List.take_prefix i (h.full T)) (hlog.le_full hT hpos)
        (by omega)

/-- A leader elected by a configuration adjacent to the committing one holds
what was committed. -/
theorem Valid.commit_le_of_adjacent {b : List E}
    (hc : h.commits T i m) (hb : h.base t = some b) (hTt : T < t) (hsafe : SafeBefore h T i t)
    (hadj : Adjacent (configOf cfg first ((h.full T).take m)) (configOf cfg first b)) :
    (h.full T).take i <+: b := by
  obtain ⟨q, hq, hacked⟩ := hv.commit_acked hc
  obtain ⟨r, hr, hvotes⟩ := hv.voted hb
  obtain ⟨v, hvq, hvr⟩ := hq.exists_common hr hadj
  obtain ⟨log, hmatch, hge, hretain⟩ := hvotes v hvr
  exact hv.commit_le_of_atLeast hc hsafe (hv.base_matches hb) hmatch (hv.term_base hb) hge
    (hretain T i hTt (hacked v hvq) hsafe)

theorem Valid.length_take_commit (hc : h.commits T i m) : ((h.full T).take i).length = i := by
  have := hv.commit_le hc
  simp
  omega

/-- A log inside the committing leader's log either reaches the committed
position or ends under a configuration adjacent to the committing one. -/
theorem Valid.adjacent_inside (hc : h.commits T i m)
    (hlog : log <+: h.full T) (hown : ∃ e ∈ log, term e = T) (hshort : log.length < i)
    (hearlier : ∀ m', m' < m → ∀ j, h.commits T j m' → (h.full T).take j <+: log) :
    Adjacent (configOf cfg first ((h.full T).take m)) (configOf cfg first log) := by
  obtain ⟨bT, hbT⟩ := ne_none_iff_exists'.mp (hv.commit_term hc).1
  obtain ⟨him, hmlen⟩ := hv.commit_le hc
  have hm : (h.full T).take m <+: h.full T := take_prefix m _
  have hlogm : log <+: (h.full T).take m :=
    prefix_of_prefix_length_le hlog hm (by simp; omega)
  rcases exists_last_config cfg ((h.full T).take m) with hnone | ⟨A, e, B, hsplit, he, hB⟩
  · obtain ⟨rest, hrest⟩ := hlogm
    rw [← hrest, configOf_append_of_none cfg first fun x hx => hnone x (by rw [← hrest]; simp [hx])]
    exact Adjacent.refl _
  · have hAe : A ++ [e] <+: (h.full T).take m := ⟨B, by rw [hsplit]; simp⟩
    have hAm : A.length + 1 ≤ m := by
      have := hAe.length_le
      simp at this
      omega
    rw [hsplit, configOf_split cfg first hB]
    rcases Nat.lt_or_ge A.length log.length with hin | hout
    · have hpre : A ++ [e] <+: log :=
        prefix_of_prefix_length_le hAe hlogm (by simp; omega)
      rw [configOf_of_between cfg first hB hpre (hsplit ▸ hlogm)]
      exact Adjacent.refl _
    · -- the leader changed the configuration behind the end of the log
      obtain ⟨x, hx, hxT⟩ := hown
      have hbase : bT <+: log := by
        refine hv.base_le_of_mem ?_ hx hbT hxT
        intro A' e' hA'
        exact hv.full_matches (by simp [hbT]) A' e' (hA'.trans hlog)
      have := hbase.length_le
      obtain ⟨j, m', hc', hm', hconst, hadj⟩ :=
        hv.reconfigured hbT (hAe.trans hm) (by omega) he
      have hj := (hearlier m' (by omega) j hc').length_le
      rw [hv.length_take_commit hc'] at hj
      have hlogA : A.take log.length = log := by
        refine (prefix_iff_eq_take.mp ?_).symm
        exact prefix_of_prefix_length_le hlogm ((prefix_append A [e]).trans hAe) hout
      have hsame := hconst log.length hj hout
      rw [hlogA] at hsame
      rw [hsame]
      exact hadj.symm

/-- If no commit of the leader's own term is in `log`, the leader still commits
under the configuration it was elected with. -/
theorem Valid.configOf_take_commit {bT : List E}
    (hbT : h.base T = some bT) (hc : h.commits T i m) (hnone : ∀ e ∈ log, term e ≠ T)
    (hearlier : ∀ m', m' < m → ∀ j, h.commits T j m' → (h.full T).take j <+: log) :
    configOf cfg first ((h.full T).take m) = configOf cfg first bT := by
  obtain ⟨him, hmlen⟩ := hv.commit_le hc
  obtain ⟨_, A₀, e₀, htake₀, hterm₀⟩ := hv.commit_term hc
  have hm : (h.full T).take m <+: h.full T := take_prefix m _
  have hA₀ : A₀ ++ [e₀] <+: h.full T := htake₀ ▸ (List.take_prefix i _)
  have hbA₀ := (hv.base_le_of_term hbT hA₀ hterm₀).length_le
  have hi := hv.length_take_commit hc
  rw [htake₀] at hi
  have hbm : bT <+: (h.full T).take m :=
    prefix_of_prefix_length_le (hv.base_le hbT) hm (by simp at hi ⊢; omega)
  rcases exists_last_config cfg ((h.full T).take m) with hno | ⟨A, e, B, hsplit, he, hB⟩
  · obtain ⟨rest, hrest⟩ := hbm
    rw [← hrest, configOf_append_of_none cfg first fun x hx => hno x (by rw [← hrest]; simp [hx])]
  · have hAe : A ++ [e] <+: (h.full T).take m := ⟨B, by rw [hsplit]; simp⟩
    have hAm : A.length + 1 ≤ m := by
      have := hAe.length_le
      simp at this
      omega
    rcases Nat.lt_or_ge A.length bT.length with hin | hout
    · have hpre : A ++ [e] <+: bT :=
        prefix_of_prefix_length_le hAe hbm (by simp; omega)
      rw [hsplit, configOf_split cfg first hB, configOf_of_between cfg first hB hpre (hsplit ▸ hbm)]
    · obtain ⟨j, m', hc', hm', _, _⟩ := hv.reconfigured hbT (hAe.trans hm) hout he
      obtain ⟨_, A₁, e₁, htake₁, hterm₁⟩ := hv.commit_term hc'
      have hmem : e₁ ∈ log :=
        (hearlier m' (by omega) j hc').subset (by rw [htake₁]; simp)
      exact absurd hterm₁ (hnone e₁ hmem)

/-- Leader completeness: whatever the leader of `T` committed is in the log with
which any later leader was elected. The induction is on the later term, then on
the committing term, then on how far the committing leader's log had grown. -/
theorem Valid.complete :
    ∀ t b, h.base t = some b → ∀ T, T < t → ∀ m i, h.commits T i m → (h.full T).take i <+: b := by
  intro t
  induction t using Nat.strong_induction_on with
  | _ t ihLater =>
  intro b hb T
  induction T using Nat.strong_induction_on with
  | _ T ihTerm =>
  intro hTt m
  induction m using Nat.strong_induction_on with
  | _ m ihLength =>
  intro i hc
  have hbmatch := hv.base_matches hb
  have hsafe : SafeBefore h T i t := fun s b' hTs hst hb' => ihLater s hst b' hb' T hTs m i hc
  by_cases hlater : ∃ e ∈ b, T < term e
  · obtain ⟨e, he, hTe⟩ := hlater
    exact hv.commit_le_of_later hsafe hbmatch he hTe (hv.term_base hb e he)
  · push Not at hlater
    by_cases hown : ∃ e ∈ b, term e = T
    · have hlast : lastTerm term b = T := by
        obtain ⟨e, he, heT⟩ := hown
        obtain ⟨x, hx, hxterm⟩ := lastTerm_mem term (ne_nil_of_mem he)
        have h₁ := hv.term_le_lastTerm hbmatch he
        have h₂ := hlater x hx
        omega
      have hne : b ≠ [] := by
        obtain ⟨e, he, _⟩ := hown
        exact ne_nil_of_mem he
      have hbT := hbmatch.le_full hlast hne
      rcases Nat.lt_or_ge b.length i with hshort | hlong
      · exact hv.commit_le_of_adjacent hc hb hTt hsafe
          (hv.adjacent_inside hc hbT hown hshort fun m' hm' j hc' => ihLength m' hm' j hc')
      · exact prefix_of_prefix_length_le (List.take_prefix i _) hbT
          (by rw [hv.length_take_commit hc]; exact hlong)
    · push Not at hown
      obtain ⟨bT, hbT⟩ := ne_none_iff_exists'.mp (hv.commit_term hc).1
      refine hv.commit_le_of_adjacent hc hb hTt hsafe ?_
      rw [hv.configOf_take_commit hbT hc hown fun m' hm' j hc' => ihLength m' hm' j hc']
      -- both elected logs only have entries of terms before `T`
      refine hv.adjacent_of_mutual (hv.base_matches hbT) hbmatch ?_ ?_
      · intro e he j m' hc'
        exact ihTerm (term e) (hv.term_base hbT e he)
          (Nat.lt_trans (hv.term_base hbT e he) hTt) m' j hc'
      · intro e he j m' hc'
        have := hlater e he
        have := hown e he
        exact ihLater T hTt bT hbT (term e) (by omega) m' j hc'

end Completeness

end LiteDB.LeaderHistory
