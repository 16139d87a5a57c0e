import LiteDB.LogMatching

namespace LiteDB.CommitHistory

open Function LeaderHistory Majorities RaftNode

/-- `votes v t c log` says that `v` voted for `c` in term `t` while it had `log`,
and `campaigns n t log` that `n` stood for election in term `t` with `log`. -/
structure Record (Node α : Type) extends History (Entry Node α) Node where
  votes : Node → Nat → Node → List (Entry Node α) → Prop
  campaigns : Node → Nat → List (Entry Node α) → Prop

section Records

variable {Node α : Type} [DecidableEq Node]

def Record.campaign (h : Record Node α) (n : Node) (t : Nat) (log : List (Entry Node α)) :
    Record Node α :=
  { h with campaigns := fun m s l => h.campaigns m s l ∨ (m = n ∧ s = t ∧ l = log) }

def Record.vote (h : Record Node α) (v : Node) (t : Nat) (c : Node)
    (log : List (Entry Node α)) : Record Node α :=
  { h with votes := fun w s d l => h.votes w s d l ∨ (w = v ∧ s = t ∧ d = c ∧ l = log) }

def Record.ack (h : Record Node α) (n : Node) (t k : Nat) : Record Node α :=
  { h with
    acked := fun v s => if v = n ∧ s = t then max (h.acked v s) k else h.acked v s }

def Record.extend (h : Record Node α) (t : Nat) (b log : List (Entry Node α)) :
    Record Node α :=
  { h with toHistory := h.toHistory.lead t b log }

def Record.commit (h : Record Node α) (t i m : Nat) : Record Node α :=
  { h with commits := fun T j k => h.commits T j k ∨ (T = t ∧ j = i ∧ k = m) }

/-- What the memory of a run says about votes, acknowledgements and commits. -/
structure RecordSafe (V : Finset Node) (h : Record Node α) : Prop where
  commit_le : ∀ {T i m}, h.commits T i m → i ≤ m ∧ m ≤ (h.full T).length
  commit_term : ∀ {T i m}, h.commits T i m →
    h.base T ≠ none ∧ ∃ A e, (h.full T).take i = A ++ [e] ∧ e.term = T
  commit_acked : ∀ {T i m}, h.commits T i m →
    ∃ q, Majority (latestConfig V ((h.full T).take m)) q ∧ ∀ v ∈ q, i ≤ h.acked v T
  voted : ∀ {t b}, h.base t = some b →
    ∃ q, Majority (latestConfig V b) q ∧ ∀ v ∈ q, ∃ c log,
      h.votes v t c log ∧ AtLeast Entry.term b log
  reconfigured : ∀ {t b A e}, h.base t = some b → A ++ [e] <+: h.full t →
    b.length ≤ A.length → e.config? ≠ none → ∃ j m, h.commits t j m ∧ m ≤ A.length ∧
      (∀ r, j ≤ r → r ≤ A.length → latestConfig V (A.take r) = latestConfig V A) ∧
      Adjacent (latestConfig V A) (latestConfig V (A ++ [e]))
  acked_le : ∀ v T, h.acked v T ≤ (h.full T).length
  acked_base : ∀ v T, h.acked v T ≠ 0 → h.base T ≠ none
  vote_matches : ∀ {v t c log}, h.votes v t c log → Matches Entry.term h.toHistory log
  vote_retains : ∀ {v t c log}, h.votes v t c log → Retains h.toHistory v t log

variable {V : Finset Node} {h h' : Record Node α}

theorem RecordSafe.valid (hr : RecordSafe V h) (hw : Wellformed Entry.term h.toHistory) :
    Valid Entry.term Entry.config? V h.toHistory where
  toWellformed := hw
  commit_le := hr.commit_le
  commit_term := hr.commit_term
  commit_acked := hr.commit_acked
  voted hb := by
    obtain ⟨q, hq, hvotes⟩ := hr.voted hb
    refine ⟨q, hq, fun v hv => ?_⟩
    obtain ⟨c, log, hvote, hge⟩ := hvotes v hv
    exact ⟨log, hr.vote_matches hvote, hge, hr.vote_retains hvote⟩
  reconfigured := hr.reconfigured

theorem RecordSafe.campaign (hr : RecordSafe V h) (n : Node) (t : Nat)
    (log : List (Entry Node α)) : RecordSafe V (h.campaign n t log) :=
  { hr with }

variable {v n : Node} {t : Nat} {log : List (Entry Node α)}

theorem RecordSafe.vote (hr : RecordSafe V h) {c : Node}
    (hmatch : Matches Entry.term h.toHistory log) (hretain : Retains h.toHistory v t log) :
    RecordSafe V (h.vote v t c log) :=
  { hr with
    voted hb := by
      obtain ⟨q, hq, hvotes⟩ := hr.voted hb
      refine ⟨q, hq, fun w hw => ?_⟩
      obtain ⟨d, l, hvote, hge⟩ := hvotes w hw
      exact ⟨d, l, .inl hvote, hge⟩
    vote_matches hvote := by
      rcases hvote with hvote | ⟨-, -, -, rfl⟩
      · exact hr.vote_matches hvote
      · exact hmatch
    vote_retains hvote := by
      rcases hvote with hvote | ⟨rfl, rfl, -, rfl⟩
      · exact hr.vote_retains hvote
      · exact hretain }

theorem ack_self (h : Record Node α) (n : Node) (t k : Nat) :
    (h.ack n t k).acked n t = max (h.acked n t) k := by
  simp [Record.ack]

theorem ack_ne (h : Record Node α) {s : Nat} (k : Nat) (hne : v ≠ n ∨ s ≠ t) :
    (h.ack n t k).acked v s = h.acked v s := by
  have : ¬(v = n ∧ s = t) := by tauto
  simp [Record.ack, this]

theorem le_ack (h : Record Node α) (n : Node) (t k : Nat) (v : Node) (s : Nat) :
    h.acked v s ≤ (h.ack n t k).acked v s := by
  unfold Record.ack
  dsimp only
  split
  · exact Nat.le_max_left _ _
  · exact le_rfl

/-- A node acknowledges part of a leader's log. It has voted in no later term. -/
theorem RecordSafe.ack (hr : RecordSafe V h) {k : Nat} (hbase : h.base t ≠ none)
    (hk : k ≤ (h.full t).length) (hvotes : ∀ {s c log}, h.votes n s c log → s ≤ t) :
    RecordSafe V (h.ack n t k) :=
  { hr with
    commit_acked hc := by
      obtain ⟨q, hq, hacked⟩ := hr.commit_acked hc
      exact ⟨q, hq, fun v hv => (hacked v hv).trans (le_ack h n t k v _)⟩
    acked_le v T := by
      by_cases hself : v = n ∧ T = t
      · obtain ⟨rfl, rfl⟩ := hself
        rw [ack_self]
        exact Nat.max_le.mpr ⟨hr.acked_le v T, hk⟩
      · rw [ack_ne h k (by tauto)]
        exact hr.acked_le v T
    acked_base v T hne := by
      by_cases hself : v = n ∧ T = t
      · exact hself.2 ▸ hbase
      · rw [ack_ne h k (by tauto)] at hne
        exact hr.acked_base v T hne
    vote_retains {v s c log} hvote := by
      refine (hr.vote_retains hvote).mono (fun t b hb => ⟨hb, List.prefix_rfl⟩) (fun T hT => ?_)
        (hr.acked_base v) (hr.acked_le v)
      refine ack_ne h k ?_
      by_contra hself
      push Not at hself
      obtain ⟨rfl, rfl⟩ := hself
      exact absurd (hvotes hvote) (by omega) }

/-- A leader's log grows by one entry; with the first one the leader has been
elected, and a configuration needs a commit of the same term. -/
theorem RecordSafe.extend (hr : RecordSafe V h) {b : List (Entry Node α)} {e : Entry Node α}
    (hb : (h.base t = none ∧ b = log) ∨ (h.base t = some b ∧ h.full t = log))
    (hvoted : h.base t = none → ∃ q, Majority (latestConfig V b) q ∧ ∀ v ∈ q, ∃ c l,
      h.votes v t c l ∧ AtLeast Entry.term b l)
    (hconfig : e.config? ≠ none → ∃ j m, h.commits t j m ∧ m ≤ log.length ∧
      (∀ r, j ≤ r → r ≤ log.length → latestConfig V (log.take r) = latestConfig V log) ∧
      Adjacent (latestConfig V log) (latestConfig V (log ++ [e]))) :
    RecordSafe V (h.extend t b (log ++ [e])) := by
  have hext : Extends h.toHistory (h.toHistory.lead t b (log ++ [e])) := by
    refine extends_lead ?_
    rcases hb with ⟨hb, -⟩ | ⟨hb, rfl⟩
    · exact .inl hb
    · exact .inr ⟨hb, List.prefix_append _ _⟩
  have htake : ∀ {T i m}, h.commits T i m → ∀ {k}, k ≤ m →
      (((h.toHistory.lead t b (log ++ [e])).full T).take k) = (h.full T).take k := by
    intro T i m hc k hk
    exact hext.take_full (hr.commit_term hc).1 (hk.trans (hr.commit_le hc).2)
  refine ⟨fun hc => ?_, fun hc => ?_, fun hc => ?_, fun {s b'} hb' => ?_,
    fun {s b' A x} hb' hA hlen hx => ?_, fun v T => ?_, fun v T hne => ?_, fun hvote => ?_,
    fun hvote => ?_⟩
  · exact ⟨(hr.commit_le hc).1,
      (hr.commit_le hc).2.trans (hext.full_le (hr.commit_term hc).1).length_le⟩
  · obtain ⟨hbase, A, x, hA, hx⟩ := hr.commit_term hc
    exact ⟨hext.base_ne hbase, A, x, (htake hc (hr.commit_le hc).1).trans hA, hx⟩
  · obtain ⟨q, hq, hacked⟩ := hr.commit_acked hc
    refine ⟨q, ?_, hacked⟩
    change Majority (latestConfig V (((h.toHistory.lead t b (log ++ [e])).full _).take _)) q
    rw [htake hc le_rfl]
    exact hq
  · by_cases hs : s = t
    · subst hs
      simp only [Record.extend, History.lead, update_self, Option.some.injEq] at hb'
      subst hb'
      rcases hb with ⟨hb, -⟩ | ⟨hb, -⟩
      · exact hvoted hb
      · exact hr.voted hb
    · simp only [Record.extend, History.lead, update_of_ne hs] at hb'
      exact hr.voted hb'
  · by_cases hs : s = t
    · subst hs
      simp only [Record.extend, History.lead, update_self, Option.some.injEq] at hb' hA
      subst hb'
      rcases List.prefix_concat_iff.mp hA with heq | hA
      · obtain ⟨rfl, hxe⟩ := List.append_inj' heq rfl
        rw [List.singleton_inj.mp hxe] at hx ⊢
        exact hconfig hx
      · rcases hb with ⟨-, rfl⟩ | ⟨hb, rfl⟩
        · have := hA.length_le
          simp at this
          omega
        · exact hr.reconfigured hb hA hlen hx
    · simp only [Record.extend, History.lead, update_of_ne hs] at hb' hA
      exact hr.reconfigured hb' hA hlen hx
  · rcases Nat.eq_zero_or_pos (h.acked v T) with hzero | hpos
    · exact hzero.le.trans (Nat.zero_le _)
    · exact (hr.acked_le v T).trans (hext.full_le (hr.acked_base v T (by omega))).length_le
  · exact hext.base_ne (hr.acked_base v T hne)
  · exact (hr.vote_matches hvote).mono hext
  · exact (hr.vote_retains hvote).mono hext (fun _ _ => rfl) (hr.acked_base _) (hr.acked_le _)

theorem RecordSafe.commit (hr : RecordSafe V h) {i m : Nat} (hle : i ≤ m ∧ m ≤ (h.full t).length)
    (hterm : h.base t ≠ none ∧ ∃ A e, (h.full t).take i = A ++ [e] ∧ e.term = t)
    (hacked : ∃ q, Majority (latestConfig V ((h.full t).take m)) q ∧ ∀ v ∈ q, i ≤ h.acked v t) :
    RecordSafe V (h.commit t i m) :=
  { hr with
    commit_le hc := by
      rcases hc with hc | ⟨rfl, rfl, rfl⟩
      · exact hr.commit_le hc
      · exact hle
    commit_term hc := by
      rcases hc with hc | ⟨rfl, rfl, rfl⟩
      · exact hr.commit_term hc
      · exact hterm
    commit_acked hc := by
      rcases hc with hc | ⟨rfl, rfl, rfl⟩
      · exact hr.commit_acked hc
      · exact hacked
    reconfigured hb hA hlen hx := by
      obtain ⟨j, k, hc, hrest⟩ := hr.reconfigured hb hA hlen hx
      exact ⟨j, k, .inl hc, hrest⟩ }

end Records

end LiteDB.CommitHistory
