import LiteDB.LeaderHistory
import LiteDB.RaftCluster
import Mathlib.Data.Fintype.Basic

namespace LiteDB.LogMatching

open Function LeaderHistory List RaftCluster RaftNode RaftNodeSpec Runs RaftGroup

variable {Node α : Type} {h h' : History (Entry Node α) Node} {P Q : List (Entry Node α)}
  {e : Entry Node α} {req : AppendRequest Node α}

section Logs

def Indexed (h : History (Entry Node α) Node) : Prop :=
  ∀ t, h.base t ≠ none → ∀ A e, A ++ [e] <+: h.full t → e.index = A.length + 1

variable {log A : List (Entry Node α)}

theorem Indexed.index_eq (hi : Indexed h)
    (hlog : Matches Entry.term h log) (he : A ++ [e] <+: log) : e.index = A.length + 1 := by
  obtain ⟨hbase, hfull⟩ := hlog A e he
  exact hi _ hbase A e hfull

theorem Indexed.lead (hi : Indexed h) {t : Nat} {b : List (Entry Node α)}
    (hlog : Matches Entry.term h log) (he : e.index = log.length + 1) :
    Indexed (h.lead t b (log ++ [e])) := by
  intro s hs A x hA
  by_cases hst : s = t
  · subst hst
    simp only [History.lead, update_self] at hA
    rcases prefix_concat_iff.mp hA with heq | hA
    · obtain ⟨rfl, hx⟩ := append_inj' heq rfl
      rw [singleton_inj.mp hx, he]
    · exact hi.index_eq hlog hA
  · simp only [History.lead, update_of_ne hst] at hs hA
    exact hi s hs A x hA

/-- Two logs that match the history and have the same term at a position agree
up to this position. -/
theorem eq_of_term_eq {log' A' : List (Entry Node α)} {e' : Entry Node α}
    (hlog : Matches Entry.term h log) (hlog' : Matches Entry.term h log') (he : A ++ [e] <+: log)
    (he' : A' ++ [e'] <+: log') (hlen : A.length = A'.length) (hterm : e.term = e'.term) :
    A ++ [e] = A' ++ [e'] := by
  have hfull := (hlog A e he).2
  have hfull' := (hlog' A' e' he').2
  rw [← hterm] at hfull'
  have hle := prefix_of_prefix_length_le hfull hfull' (by simp [hlen])
  exact hle.eq_of_length (by simp [hlen])

/-- An append request carries the log `P` of a leader, as it was when the request
was built, from some position on. -/
structure Sent (h : History (Entry Node α) Node) (req : AppendRequest Node α)
    (P : List (Entry Node α)) : Prop where
  base : h.base req.term ≠ none
  le_full : P <+: h.full req.term
  last : ∃ A e, P = A ++ [e] ∧ e.term = req.term
  entries : req.entries = P.drop req.prevLogIndex
  prevTerm : req.prevLogTerm = termAt P req.prevLogIndex

theorem Sent.mono (hs : Sent h req P) (hext : Extends h h') : Sent h' req P :=
  { hs with base := hext.base_ne hs.base, le_full := hs.le_full.trans (hext.full_le hs.base) }

theorem Sent.log_matches (hs : Sent h req P) (hw : Wellformed Entry.term h) :
    Matches Entry.term h P :=
  (hw.full_matches hs.base).of_le hs.le_full

theorem Sent.term_le (hs : Sent h req P) (hw : Wellformed Entry.term h) (he : e ∈ P) :
    e.term ≤ req.term :=
  hw.term_le hs.base (hs.le_full.subset he)

theorem take_le_of_termAt_eq {prev : Nat} (hlog : Matches Entry.term h log)
    (hP : Matches Entry.term h P) (hle : prev ≤ P.length)
    (hprev : 0 < prev → prev ≤ log.length ∧ termAt log prev = termAt P prev) :
    P.take prev <+: log := by
  cases prev with
  | zero => exact nil_prefix
  | succ k =>
    obtain ⟨hlen, hterm⟩ := hprev (Nat.succ_pos k)
    obtain ⟨A, e, hA, hAlen, -⟩ := exists_concat_le P (i := k) (by omega)
    obtain ⟨A', e', hA', hAlen', -⟩ := exists_concat_le log (i := k) (by omega)
    have heterm : e'.term = e.term := by
      rw [← termAt_of_concat_le hA', ← termAt_of_concat_le hA, hAlen, hAlen']
      exact hterm
    have heq := eq_of_term_eq hP hlog hA hA' (by omega) heterm.symm
    have htake : P.take (k + 1) = A ++ [e] := by
      rw [prefix_iff_eq_take.mp hA]
      simp [hAlen]
    rw [htake, heq]
    exact hA'

theorem merge_cases (hw : Wellformed Entry.term h) (hi : Indexed h) {stored : List (Entry Node α)}
    (hlog : Matches Entry.term h log) (hs : Sent h req P) (hle : req.prevLogIndex ≤ P.length)
    (hprev : Attaches req log) (hstored : stored <+: req.entries) :
    P.take req.prevLogIndex ++ stored <+: P ∧
      ((P.take req.prevLogIndex ++ stored <+: log ∧ stored.foldl mergeEntry log = log) ∨
        (¬P.take req.prevLogIndex ++ stored <+: log ∧
          stored.foldl mergeEntry log = P.take req.prevLogIndex ++ stored)) := by
  have hP := hs.log_matches hw
  have hQ : P.take req.prevLogIndex <+: log :=
    take_le_of_termAt_eq hlog hP hle fun hpos => hs.prevTerm ▸ hprev hpos
  have hsub : P.take req.prevLogIndex ++ stored <+: P := by
    obtain ⟨rest, hrest⟩ := hstored
    refine ⟨rest, ?_⟩
    rw [append_assoc, hrest, hs.entries, take_append_drop]
  refine ⟨hsub, foldl_mergeEntry stored _ log hQ ?_ ?_⟩
  · exact fun A e hA => hi.index_eq hP (hA.trans hsub)
  · intro A e e' hA hA' hterm
    have heq := eq_of_term_eq hP hlog (hA.trans hsub) hA' rfl hterm
    simpa using heq

/-- Whatever a replica takes over from a request is a part of its own log or of
the leader's. -/
theorem merge_le (hw : Wellformed Entry.term h) (hi : Indexed h) {stored : List (Entry Node α)}
    (hlog : Matches Entry.term h log) (hs : Sent h req P)
    (hprev : stored ≠ [] → Attaches req log) (hstored : stored <+: req.entries) :
    stored.foldl mergeEntry log = log ∨ stored.foldl mergeEntry log <+: P := by
  by_cases hnil : stored = []
  · exact .inl (by simp [hnil])
  · have hle : req.prevLogIndex ≤ P.length := by
      by_contra hlt
      rw [hs.entries, drop_eq_nil_of_le (by omega)] at hstored
      exact hnil (prefix_nil.mp hstored)
    obtain ⟨hsub, ⟨-, heq⟩ | ⟨-, heq⟩⟩ := merge_cases hw hi hlog hs hle (hprev hnil) hstored
    · exact .inl heq
    · exact .inr (heq ▸ hsub)

variable {i : Nat}

theorem termAt_of_le (hle : P <+: log) (hi : i ≤ P.length) : termAt log i = termAt P i := by
  cases i with
  | zero => rfl
  | succ k =>
    obtain ⟨rest, rfl⟩ := hle
    rw [termAt_succ, termAt_succ, getElem?_append_left hi]

theorem termAt_eq_of_comparable (hle : Q <+: log) (hc : Q <+: P ∨ P <+: Q) (hQ : i ≤ Q.length)
    (hP : i ≤ P.length) : termAt log i = termAt P i := by
  rw [termAt_of_le hle hQ]
  rcases hc with hc | hc
  · exact (termAt_of_le hc hQ).symm
  · exact termAt_of_le hc hP

theorem le_truncateLog {g : RaftGroup Node α} (hs : Sent h req P)
    (hprev : req.prevLogIndex ≤ P.length)
    (hterm : termAt g.log req.prevLogIndex ≠ req.prevLogTerm) (hQ : Q <+: g.log)
    (hcomp : Q <+: P ∨ P <+: Q) : Q <+: (g.truncateLog (req.prevLogIndex - 1)).log := by
  have hlen : Q.length ≤ req.prevLogIndex - 1 := by
    by_contra hlt
    exact hterm ((termAt_eq_of_comparable hQ hcomp (by omega) hprev).trans hs.prevTerm.symm)
  refine prefix_of_prefix_length_le hQ (List.take_prefix _ _) ?_
  have := hQ.length_le
  change Q.length ≤ (g.log.take (req.prevLogIndex - 1)).length
  rw [length_take]
  omega

end Logs

variable {V : Finset Node} {n : Node} {g : RaftGroup Node α} {b : List (Entry Node α)}

section Nodes

variable [LinearOrder Node]

/-- The log of a node against the remembered logs of the leaders. -/
structure NodeLog (V : Finset Node) (h : History (Entry Node α) Node) (n : Node)
    (g : RaftGroup Node α) : Prop where
  consistent : Consistent n V g
  log_matches : Matches Entry.term h g.log
  term_le : ∀ e ∈ g.log, e.term ≤ g.currentTerm
  term_pos : g.role ≠ .follower → 0 < g.currentTerm
  won_le : ∀ t ∈ g.won, t ≤ g.currentTerm
  candidate : g.role = .candidate →
    g.currentTerm ∉ g.won ∧ ∀ e ∈ g.log, e.term < g.currentTerm
  leader : g.role = .leader → g.currentTerm ∈ g.won ∧ h.base g.currentTerm ≠ none ∧
    h.full g.currentTerm = g.log ∧ ∃ A e, g.log = A ++ [e] ∧ e.term = g.currentTerm

variable {g' : RaftGroup Node α}

/-- Terms and roles advance while the log stays, or is exchanged at a node that
does not lead. -/
theorem NodeLog.advance (hg : NodeLog V h n g) (hadv : Advances g g')
    (hcons : Consistent n V g') (hwon : g'.won = g.won) (hlog : g'.log = g.log) :
    NodeLog V h n g' where
  consistent := hcons
  log_matches := hlog ▸ hg.log_matches
  term_le e he := (hg.term_le e (hlog ▸ he)).trans hadv.currentTerm
  term_pos hrole := by
    cases hrole' : g'.role with
    | follower => exact absurd hrole' hrole
    | candidate =>
      rcases hadv.candidate hrole' with ⟨hcand, hterm⟩ | hlt
      · rw [hterm]
        exact hg.term_pos (by simp [hcand])
      · omega
    | leader =>
      obtain ⟨hlead, hterm⟩ := hadv.leader hrole'
      rw [hterm]
      exact hg.term_pos (by simp [hlead])
  won_le t ht := (hg.won_le t (hwon ▸ ht)).trans hadv.currentTerm
  candidate hrole := by
    rw [hwon, hlog]
    rcases hadv.candidate hrole with ⟨hrole', hterm⟩ | hlt
    · rw [hterm]
      exact hg.candidate hrole'
    · exact ⟨fun hmem => absurd (hg.won_le _ hmem) (by omega),
        fun e he => (hg.term_le e he).trans_lt hlt⟩
  leader hrole := by
    obtain ⟨hrole', hterm⟩ := hadv.leader hrole
    rw [hwon, hlog, hterm]
    exact hg.leader hrole'

/-- A replica that neither leads nor campaigns takes over another log. -/
theorem NodeLog.replaceLog (hg : NodeLog V h n g) (hcons : Consistent n V g')
    (hterm : g'.currentTerm = g.currentTerm) (hwon : g'.won = g.won)
    (hrole : g'.role = .follower) (hlog : Matches Entry.term h g'.log)
    (hle : ∀ e ∈ g'.log, e.term ≤ g'.currentTerm) : NodeLog V h n g' where
  consistent := hcons
  log_matches := hlog
  term_le := hle
  term_pos h := absurd hrole h
  won_le t ht := by
    rw [hterm]
    exact hg.won_le t (hwon ▸ ht)
  candidate h := by simp [hrole] at h
  leader h := by simp [hrole] at h

theorem NodeLog.mono (hg : NodeLog V h n g) (hext : Extends h h')
    (hlead : g.role = .leader → h'.full g.currentTerm = h.full g.currentTerm) :
    NodeLog V h' n g := by
  refine { hg with log_matches := hg.log_matches.mono hext, leader := fun hrole => ?_ }
  obtain ⟨hwon, hbase, hfull, hlast⟩ := hg.leader hrole
  exact ⟨hwon, hext.base_ne hbase, (hlead hrole).trans hfull, hlast⟩

theorem NodeLog.setPositions (hg : NodeLog V h n g) (next matched : Node → Option Nat) :
    NodeLog V h n { g with matchIndex := matched, nextIndex := next } := by
  have hcons := hg.consistent
  refine hg.advance ?_ { hcons with } rfl rfl
  exact SameBallot.advances ⟨rfl, rfl, rfl, rfl, .inl rfl⟩

theorem nodeLog_create (h : History (Entry Node α) Node) (n : Node) :
    NodeLog V h n (create n V) where
  consistent := ⟨rfl, rfl, rfl, rfl, rfl, rfl⟩
  log_matches A e hA := by simp [create] at hA
  term_le e he := by simp [create] at he
  term_pos h := absurd rfl h
  won_le t ht := by simp [create] at ht
  candidate hrole := by simp [create] at hrole
  leader hrole := by simp [create] at hrole

/-- A leader appends an entry of its term, the first time when it wins. -/
theorem NodeLog.lead (hg : NodeLog V h n g) (hcons : Consistent n V g') (hpos : g.role ≠ .follower)
    (hterm : g'.currentTerm = g.currentTerm) (hrole : g'.role = .leader)
    (hwon : ∀ t, t ∈ g'.won ↔ t ∈ g.won ∨ t = g.currentTerm) (hlog : g'.log = g.log ++ [e])
    (he : e.term = g.currentTerm) (hw : Wellformed Entry.term (h.lead g.currentTerm b g'.log)) :
    NodeLog V (h.lead g.currentTerm b g'.log) n g' := by
  have hbase : (h.lead g.currentTerm b g'.log).base g.currentTerm ≠ none := by
    simp [History.lead]
  have hfull : (h.lead g.currentTerm b g'.log).full g.currentTerm = g'.log := by
    simp [History.lead]
  refine ⟨hcons, ?_, ?_, fun _ => hterm ▸ hg.term_pos hpos, ?_, fun h => by simp [hrole] at h,
    fun _ => ?_⟩
  · have hmatch := hw.full_matches hbase
    rwa [hfull] at hmatch
  · intro x hx
    rw [hlog] at hx
    rw [hterm]
    rcases mem_append.mp hx with hx | hx
    · exact hg.term_le x hx
    · rw [mem_singleton.mp hx, he]
  · intro t ht
    rw [hterm]
    rcases (hwon t).mp ht with ht | rfl
    · exact hg.won_le t ht
    · exact le_rfl
  · rw [hterm]
    exact ⟨(hwon _).mpr (.inr rfl), hbase, hfull, g.log, e, hlog, he⟩

/-- What is remembered after a step of `n` that leads to `g`: only the log of a term
that `n` has won may have grown. -/
structure Advanced (V : Finset Node) (h h' : History (Entry Node α) Node) (n : Node)
    (g : RaftGroup Node α) : Prop where
  extends_old : Extends h h'
  wellformed : Wellformed Entry.term h'
  indexed : Indexed h'
  node : NodeLog V h' n g
  full_eq : ∀ t, t ∉ g.won → h'.full t = h.full t
  base_cases : ∀ t, h'.base t ≠ none → h.base t ≠ none ∨ t ∈ g.won

variable (hg : NodeLog V h n g)

include hg

theorem NodeLog.advanced_lead (hw : Wellformed Entry.term h)
    (hi : Indexed h) (hcons : Consistent n V g') (hpos : g.role ≠ .follower)
    (hterm : g'.currentTerm = g.currentTerm) (hrole : g'.role = .leader)
    (hwon : ∀ t, t ∈ g'.won ↔ t ∈ g.won ∨ t = g.currentTerm) (hlog : g'.log = g.log ++ [e])
    (he : e.term = g.currentTerm)
    (hindex : e.index = g.log.length + 1)
    (hb : (h.base g.currentTerm = none ∧ b = g.log ∧ ∀ x ∈ g.log, x.term < g.currentTerm) ∨
      (h.base g.currentTerm = some b ∧ h.full g.currentTerm = g.log)) :
    Advanced V h (h.lead g.currentTerm b g'.log) n g' := by
  have hw' : Wellformed Entry.term (h.lead g.currentTerm b g'.log) :=
    hlog ▸ hw.lead hb hg.log_matches he
  have hne : ∀ {t}, t ∉ g'.won → t ≠ g.currentTerm :=
    fun ht heq => ht ((hwon _).mpr (.inr heq))
  refine ⟨extends_lead ?_, hw', ?_, hg.lead hcons hpos hterm hrole hwon hlog he hw',
    fun t ht => ?_, fun t ht => ?_⟩
  · rcases hb with ⟨hb, -⟩ | ⟨hb, hfull⟩
    · exact .inl hb
    · exact .inr ⟨hb, by rw [hfull, hlog]; exact prefix_append _ _⟩
  · rw [hlog]
    exact hi.lead hg.log_matches hindex
  · simp [History.lead, update_of_ne (hne ht)]
  · by_cases hmem : t ∈ g'.won
    · exact .inr hmem
    · simp only [History.lead, update_of_ne (hne hmem)] at ht
      exact .inl ht

theorem NodeLog.accept (hle : g.currentTerm ≤ req.term)
    (hnot : g.role = .leader → g.currentTerm ≠ req.term) :
    NodeLog V h n ((g.adoptTerm req.term).acceptLeader req) ∧
      ((g.adoptTerm req.term).acceptLeader req).role = .follower ∧
      ((g.adoptTerm req.term).acceptLeader req).currentTerm = req.term := by
  have hcons := (hg.consistent.adoptTerm req.term).acceptLeader req
  have hadv := advances_accept hg.consistent hle
  obtain ⟨role, voted, heq, hcase⟩ := acceptLeader_adoptTerm_eq hg.consistent hle
  rw [heq] at hcons hadv ⊢
  refine ⟨hg.advance hadv hcons rfl rfl, ?_, rfl⟩
  rcases hcase with ⟨hterm, hcand, rfl, -⟩ | ⟨-, rfl, -⟩
  · cases hrole : g.role with
    | follower => rfl
    | candidate => exact absurd hrole hcand
    | leader => exact absurd hterm (hnot hrole)
  · rfl

theorem NodeLog.merge (hw : Wellformed Entry.term h) (hi : Indexed h) {stored : List (Entry Node α)}
    (hs : Sent h req P) (hrole : g'.role = .follower) (hterm : g.currentTerm = req.term)
    (hterm' : g'.currentTerm = g.currentTerm) (hwon : g'.won = g.won) (hcons : Consistent n V g')
    (hlog : g'.log = stored.foldl mergeEntry g.log) (hprev : stored ≠ [] → Attaches req g.log)
    (hstored : stored <+: req.entries) : NodeLog V h n g' := by
  rcases merge_le hw hi hg.log_matches hs hprev hstored with heq | hle
  · refine hg.replaceLog hcons hterm' hwon hrole ?_ ?_
    · rw [hlog, heq]
      exact hg.log_matches
    · rw [hlog, heq, hterm']
      exact hg.term_le
  · refine hg.replaceLog hcons hterm' hwon hrole ?_ ?_
    · rw [hlog]
      exact (hs.log_matches hw).of_le hle
    · rw [hlog, hterm', hterm]
      exact fun e he => hs.term_le hw (hle.subset he)

theorem NodeLog.receive (hw : Wellformed Entry.term h) (hi : Indexed h) (hs : Sent h req P)
    (hrole : g.role = .follower) (hterm : g.currentTerm = req.term) (hprev : Attaches req g.log) :
    NodeLog V h n ((g.receiveEntries req.entries).followCommit req.leaderCommit) := by
  have hb := sameBallot_receive hg.consistent req.entries req.leaderCommit
  exact hg.merge hw hi hs (hb.role.elim (fun h => h.trans hrole) id) hterm hb.currentTerm hb.won
    ((hg.consistent.receiveEntries _).commits (commits_followCommit _ _))
    (receive_log hg.consistent _ _) (fun _ => hprev) prefix_rfl

theorem NodeLog.handleAppend (hw : Wellformed Entry.term h) (hi : Indexed h)
    (hs : Sent h req P) (hnot : g.role = .leader → g.currentTerm ≠ req.term) :
    NodeLog V h n (g.handleAppend req).1 := by
  unfold RaftGroup.handleAppend
  split
  · exact hg
  · rename_i hold
    obtain ⟨ha, hrole, hterm⟩ := hg.accept (Nat.le_of_not_lt hold) hnot
    generalize (g.adoptTerm req.term).acceptLeader req = a at ha hrole hterm ⊢
    unfold appendAfter
    split_ifs with hshort hmismatch
    · exact ha
    · refine ha.replaceLog (ha.consistent.truncateLog _) rfl rfl hrole ?_ ?_
      · exact ha.log_matches.of_le (List.take_prefix _ _)
      · exact fun e he => ha.term_le e (mem_of_mem_take he)
    · exact ha.receive hw hi hs hrole hterm (attaches_of_not hshort hmismatch)

theorem NodeLog.restart : NodeLog V h n g.restart :=
  hg.advance (advances_restart hg.consistent) hg.consistent.restart (restart_won hg.consistent)
    (restart_log hg.consistent)

theorem NodeLog.crashInVote (req : VoteRequest Node) : NodeLog V h n (g.crashInVote req) := by
  unfold RaftGroup.crashInVote
  split
  · exact hg.restart
  · have hsame := sameLog_adoptTerm hg.consistent req.term
    exact (hg.advance (advances_adoptTerm hg.consistent _) (hg.consistent.adoptTerm _) hsame.won
      hsame.log).restart

theorem NodeLog.crashInAppend (hw : Wellformed Entry.term h) (hi : Indexed h)
    (hs : Sent h req P) (hnot : g.role = .leader → g.currentTerm ≠ req.term) (count : Nat) :
    NodeLog V h n (g.crashInAppend req count) := by
  rcases crashInAppend_cases hg.consistent req count with
    ⟨-, heq⟩ | ⟨hle, a, stored, ha, hstored, hprev, -, heq⟩
  · rw [heq]
    exact hg.restart
  · rw [heq]
    obtain ⟨haccepted, hrole, hterm⟩ := hg.accept hle hnot
    rw [← ha] at haccepted hrole hterm
    have hstored' : NodeLog V h n (withLog a (stored.foldl mergeEntry a.log)) :=
      haccepted.merge hw hi hs hrole hterm rfl rfl (haccepted.consistent.withLog _) rfl hprev
        hstored
    exact hstored'.restart

end Nodes

section Appends

variable [LinearOrder Node]

theorem le_full_of_le (hl : NodeLog V h n g) (hw : Wellformed Entry.term h) (hs : Sent h req P)
    (ht : g.currentTerm = req.term) (hle : P <+: g.log) : g.log <+: h.full req.term := by
  obtain ⟨A, e, rfl, he⟩ := hs.last
  rcases eq_nil_or_concat g.log with hnil | ⟨B, x, hx⟩
  · rw [hnil]
    exact nil_prefix
  · rw [concat_eq_append] at hx
    have hself : B ++ [x] <+: g.log := hx ▸ prefix_rfl
    have hxterm : x.term = req.term := by
      have hupper := hl.term_le x (hself.subset (by simp))
      have hlower : e.term ≤ x.term := by
        rcases mem_append.mp (hx ▸ hle.subset (by simp) : e ∈ B ++ [x]) with hmem | hmem
        · exact hw.term_mono hl.log_matches hself hmem
        · exact (congrArg Entry.term (mem_singleton.mp hmem)).le
      omega
    have hfull := (hl.log_matches B x hself).2
    rw [hxterm, ← hx] at hfull
    exact hfull

theorem handleAppend_of_leader (hl : NodeLog V h n g)
    (hnot : g.role = .leader → g.currentTerm ≠ req.term)
    (hrole : (g.handleAppend req).1.role = .leader) : (g.handleAppend req).1 = g := by
  unfold RaftGroup.handleAppend at hrole ⊢
  split_ifs at hrole ⊢ with hold
  · rfl
  · obtain ⟨hal, hfollower, -⟩ := hl.accept (Nat.le_of_not_lt hold) hnot
    have hsame := (sameBallot_appendAfter hal.consistent req).role
    rw [hsame.elim (fun h => h.trans hfollower) id] at hrole
    simp at hrole

variable (hl : NodeLog V h n g) (hw : Wellformed Entry.term h) (hi : Indexed h) (hs : Sent h req P)

include hl hw hi hs

/-- What fits the log of the leader is not overwritten, and the whole log of the leader
is there afterwards. -/
theorem le_receiveEntries (hle : req.prevLogIndex ≤ P.length) (hprev : Attaches req g.log) :
    P <+: (g.receiveEntries req.entries).log ∧
      ∀ Q, Q <+: g.log → (Q <+: P ∨ P <+: Q) → Q <+: (g.receiveEntries req.entries).log := by
  obtain ⟨-, hmerge⟩ := merge_cases hw hi hl.log_matches hs hle hprev (prefix_refl req.entries)
  have hall : P.take req.prevLogIndex ++ req.entries = P := by
    rw [hs.entries, take_append_drop]
  rw [hall] at hmerge
  obtain ⟨voters, next, matched, heq, -⟩ := receiveEntries_eq hl.consistent req.entries
  rw [heq]
  change P <+: req.entries.foldl mergeEntry g.log ∧
    ∀ Q, Q <+: g.log → (Q <+: P ∨ P <+: Q) → Q <+: req.entries.foldl mergeEntry g.log
  rcases hmerge with ⟨hle, hmerged⟩ | ⟨hnot, hmerged⟩
  · rw [hmerged]
    exact ⟨hle, fun Q hQ _ => hQ⟩
  · rw [hmerged]
    refine ⟨prefix_rfl, fun Q hQ hcomp => ?_⟩
    rcases hcomp with hcomp | hcomp
    · exact hcomp
    · exact absurd (hcomp.trans hQ) hnot

variable (hle : req.prevLogIndex ≤ P.length)
  (hnot : g.role = .leader → g.currentTerm ≠ req.term)

include hle hnot

theorem le_handleAppend (hQ : Q <+: g.log)
    (hcomp : g.currentTerm ≤ req.term → (Q <+: P ∨ P <+: Q)) :
    Q <+: (g.handleAppend req).1.log := by
  unfold RaftGroup.handleAppend
  split
  · exact hQ
  · rename_i hold
    have hcomp := hcomp (Nat.le_of_not_lt hold)
    obtain ⟨hal, -⟩ := hl.accept (Nat.le_of_not_lt hold) hnot
    rw [← accept_log hl.consistent (Nat.le_of_not_lt hold)] at hQ
    generalize (g.adoptTerm req.term).acceptLeader req = a at hal hQ ⊢
    unfold appendAfter
    split_ifs with hshort hmismatch
    · exact hQ
    · exact le_truncateLog hs hle hmismatch.2 hQ hcomp
    · rw [(commits_followCommit _ _).log]
      exact (le_receiveEntries hal hw hi hs hle (attaches_of_not hshort hmismatch)).2 Q hQ hcomp

theorem handleAppend_reply :
    req.term ≤ (g.handleAppend req).2.term ∧
      (((g.handleAppend req).2.success = false ∧
          (g.handleAppend req).2.matchIndex ≤ (h.full req.term).length ∧
          ((g.handleAppend req).2.term ≠ req.term → (g.handleAppend req).2.matchIndex = 0) ∧
          (g.handleAppend req).1.log <+: g.log) ∨
        ((g.handleAppend req).2.success = true ∧ (g.handleAppend req).2.term = req.term ∧
          (g.handleAppend req).2.matchIndex = (g.handleAppend req).1.log.length ∧
          (g.handleAppend req).1.role = .follower ∧
          (g.handleAppend req).1.currentTerm = req.term ∧
          (g.handleAppend req).1.log <+: h.full req.term)) := by
  unfold RaftGroup.handleAppend
  split
  · rename_i hold
    exact ⟨hold.le, .inl ⟨rfl, Nat.zero_le _, fun _ => rfl, prefix_rfl⟩⟩
  · rename_i hold
    have hterms := Nat.le_of_not_lt hold
    obtain ⟨hal, hrole, hterm⟩ := hl.accept hterms hnot
    rw [← accept_log hl.consistent hterms]
    generalize (g.adoptTerm req.term).acceptLeader req = a at hal hrole hterm ⊢
    have hPlen := hs.le_full.length_le
    unfold appendAfter
    split_ifs with hshort hmismatch
    · refine ⟨hterm.ge, .inl ⟨rfl, ?_, fun hne => absurd hterm hne, prefix_rfl⟩⟩
      change a.log.length ≤ _
      omega
    · refine ⟨hterm.ge, .inl ⟨rfl, ?_, fun hne => absurd hterm hne, take_prefix _ _⟩⟩
      change (a.log.take (req.prevLogIndex - 1)).length ≤ _
      rw [length_take]
      omega
    · have hprev : Attaches req a.log := attaches_of_not hshort hmismatch
      have hb := sameBallot_receive hal.consistent req.entries req.leaderCommit
      refine ⟨hterm.ge, .inr ⟨rfl, hterm, rfl, hb.role.elim (fun h => h.trans hrole) id,
        hb.currentTerm.trans hterm, ?_⟩⟩
      refine le_full_of_le (hal.receive hw hi hs hrole hterm hprev) hw hs
        (hb.currentTerm.trans hterm) ?_
      rw [(commits_followCommit _ _).log]
      exact (le_receiveEntries hal hw hi hs hle hprev).1

/-- A replica of the request's term whose log is part of the leader's log keeps all of it,
and what it adds is part of the leader's log too. -/
theorem handleAppend_le_full (hterm : (g.handleAppend req).1.currentTerm = g.currentTerm)
    (hlog : g.log <+: h.full g.currentTerm) :
    g.log <+: (g.handleAppend req).1.log ∧ (g.handleAppend req).1.log <+: h.full g.currentTerm := by
  by_cases hold : req.term < g.currentTerm
  · have hsame : (g.handleAppend req).1 = g := by simp [RaftGroup.handleAppend, hold]
    rw [hsame]
    exact ⟨prefix_rfl, hlog⟩
  · have hreq : req.term = g.currentTerm := by
      rw [← hterm, handleAppend_currentTerm hl.consistent (Nat.le_of_not_lt hold)]
    refine ⟨le_handleAppend hl hw hi hs hle hnot prefix_rfl fun _ =>
      prefix_or_prefix_of_prefix hlog (hreq ▸ hs.le_full), ?_⟩
    obtain ⟨-, ⟨-, -, -, hcut⟩ | ⟨-, -, -, -, -, hfull⟩⟩ := handleAppend_reply hl hw hi hs hle hnot
    · exact hcut.trans hlog
    · exact hreq ▸ hfull

omit hle hnot in
theorem crashInAppend_le_full {count : Nat}
    (hterm : (g.crashInAppend req count).currentTerm = g.currentTerm)
    (hlog : g.log <+: h.full g.currentTerm) :
    g.log <+: (g.crashInAppend req count).log ∧
      (g.crashInAppend req count).log <+: h.full g.currentTerm := by
  rcases crashInAppend_cases hl.consistent req count with
    ⟨-, heq⟩ | ⟨hle, a, stored, ha, hstored, hprev, hgrow, heq⟩
  · rw [heq, restart_log hl.consistent]
    exact ⟨prefix_rfl, hlog⟩
  · obtain ⟨role, voted, haccept, -⟩ := acceptLeader_adoptTerm_eq hl.consistent hle
    rw [← ha] at haccept
    have halog : a.log = g.log := by rw [haccept]
    have hacons : Consistent n V a := ha ▸ (hl.consistent.adoptTerm _).acceptLeader req
    have hreq : req.term = g.currentTerm := by
      rw [← hterm, heq, restart_currentTerm (hacons.withLog _)]
      exact (congrArg currentTerm haccept).symm
    rw [heq, restart_log (hacons.withLog _)]
    change g.log <+: stored.foldl mergeEntry a.log ∧ stored.foldl mergeEntry a.log <+: _
    rw [halog] at hgrow hprev ⊢
    refine ⟨hgrow, ?_⟩
    rcases merge_le hw hi hl.log_matches hs hprev hstored with hsame | hle
    · rw [hsame]
      exact hlog
    · rw [← hreq]
      exact hle.trans hs.le_full

end Appends

variable {c : Cluster Node α}

section Clusters

variable [LinearOrder Node]

def UniqueLeaders (c : Cluster Node α) : Prop :=
  ∀ n m t, t ∈ (c.nodes n).won → t ∈ (c.nodes m).won → n = m

instance [Fintype Node] (c : Cluster Node α) : Decidable (UniqueLeaders c) :=
  decidable_of_iff (∀ n m, ∀ t ∈ (c.nodes n).won, t ∈ (c.nodes m).won → n = m) Iff.rfl

/-- What an append request in flight says about the leader that sent it. -/
def MessageLog (h : History (Entry Node α) Node) (c : Cluster Node α) : Message Node α → Prop
  | .replicate src peer => src ≠ peer
  | .append dst req =>
      dst ≠ req.leaderId ∧ req.term ∈ (c.nodes req.leaderId).won ∧ ∃ P, Sent h req P
  | _ => True

/-- The remembered leaders, the logs of all nodes and the messages agree. -/
structure ClusterLog (V : Finset Node) (h : History (Entry Node α) Node) (c : Cluster Node α) :
    Prop where
  wellformed : Wellformed Entry.term h
  indexed : Indexed h
  owner : ∀ t, h.base t ≠ none → ∃ n, t ∈ (c.nodes n).won
  nodes : ∀ n, NodeLog V h n (c.nodes n)
  net : ∀ m ∈ c.net, MessageLog h c m

variable {c' : Cluster Node α} {out : List (Message Node α)} {m : Message Node α} {peer : Node}
  {a : Event Node α}

omit [LinearOrder Node] in
theorem MessageLog.mono (hm : MessageLog h c m) (hext : Extends h h')
    (hwon : ∀ n, (c.nodes n).won ⊆ (c'.nodes n).won) : MessageLog h' c' m := by
  cases m with
  | replicate src peer => exact hm
  | append dst req =>
    obtain ⟨hdst, hleader, P, hs⟩ := hm
    exact ⟨hdst, hwon _ hleader, P, hs.mono hext⟩
  | vote dst req => trivial
  | voteReply req r => trivial
  | appendReply peer req r => trivial

theorem won_subset_put (hwon : (c.nodes n).won ⊆ g.won) (m : Node) :
    (c.nodes m).won ⊆ ((c.put n g out).nodes m).won := by
  refine forall_put (P := fun m g => (c.nodes m).won ⊆ g.won) hwon (fun m _ => ?_) m
  exact List.Subset.refl _

theorem ClusterLog.congr (hc : ClusterLog V h c) (hbase : h'.base = h.base)
    (hfull : h'.full = h.full) : ClusterLog V h' c := by
  have hext : Extends h h' := fun t b hb => ⟨hbase ▸ hb, hfull ▸ prefix_rfl⟩
  have hw := hc.wellformed
  refine ⟨⟨?_, ?_, ?_, ?_⟩, ?_, ?_, fun n => ?_, fun m hm => ?_⟩
  · rw [hbase, hfull]
    exact hw.base_le
  · rw [hbase]
    exact hw.term_base
  · rw [hbase, hfull]
    exact hw.term_new
  · rw [hbase, hfull]
    exact fun ht => (hw.full_matches ht).mono hext
  · unfold Indexed
    rw [hbase, hfull]
    exact hc.indexed
  · rw [hbase]
    exact hc.owner
  · exact (hc.nodes n).mono hext fun _ => by rw [hfull]
  · exact (hc.net m hm).mono hext fun n => List.Subset.refl _

theorem ClusterLog.put (hc : ClusterLog V h c) (hg : NodeLog V h n g)
    (hwon : g.won = (c.nodes n).won) (hout : ∀ m ∈ out, MessageLog h (c.put n g out) m) :
    ClusterLog V h (c.put n g out) where
  wellformed := hc.wellformed
  indexed := hc.indexed
  owner t ht := by
    obtain ⟨m, hm⟩ := hc.owner t ht
    exact ⟨m, won_subset_put (hwon ▸ List.Subset.refl _) m hm⟩
  nodes := forall_put hg fun m _ => hc.nodes m
  net := forall_mem_append.mpr ⟨fun m hm => (hc.net m hm).mono
    (fun t b hb => ⟨hb, prefix_rfl⟩) (won_subset_put (hwon ▸ List.Subset.refl _)), hout⟩

theorem ClusterLog.put_lead (hc : ClusterLog V h c) (huniq : UniqueLeaders (c.put n g []))
    (hcons : Consistent n V g) (hpos : (c.nodes n).role ≠ .follower)
    (hterm : g.currentTerm = (c.nodes n).currentTerm) (hrole : g.role = .leader)
    (hwon : ∀ t, t ∈ g.won ↔ t ∈ (c.nodes n).won ∨ t = (c.nodes n).currentTerm)
    (hlog : g.log = (c.nodes n).log ++ [e])
    (he : e.term = (c.nodes n).currentTerm) (hindex : e.index = (c.nodes n).log.length + 1)
    (hb : (h.base (c.nodes n).currentTerm = none ∧ b = (c.nodes n).log ∧
        ∀ x ∈ (c.nodes n).log, x.term < (c.nodes n).currentTerm) ∨
      (h.base (c.nodes n).currentTerm = some b ∧
        h.full (c.nodes n).currentTerm = (c.nodes n).log)) :
    ClusterLog V (h.lead (c.nodes n).currentTerm b g.log) (c.put n g []) := by
  have hadv := (hc.nodes n).advanced_lead hc.wellformed hc.indexed hcons hpos hterm hrole hwon
    hlog he hindex hb
  have hsub : (c.nodes n).won ⊆ g.won := fun t ht => (hwon t).mpr (.inl ht)
  refine ⟨hadv.wellformed, hadv.indexed, fun t ht => ?_, forall_put hadv.node fun m hm => ?_,
    fun m hm => ?_⟩
  · rcases hadv.base_cases t ht with ht | ht
    · obtain ⟨m, hm⟩ := hc.owner t ht
      exact ⟨m, won_subset_put hsub m hm⟩
    · exact ⟨n, by rw [put_nodes_self]; exact ht⟩
  · -- another leader is in another term
    refine (hc.nodes m).mono hadv.extends_old fun hlead => hadv.full_eq _ fun hmem => ?_
    refine hm (huniq m n (c.nodes m).currentTerm ?_ ?_)
    · rw [put_nodes_ne c g [] hm]
      exact ((hc.nodes m).leader hlead).1
    · rwa [put_nodes_self]
  · rw [put_net, append_nil] at hm
    exact (hc.net m hm).mono hadv.extends_old (won_subset_put hsub)

omit [LinearOrder Node] in
theorem messageLog_voteMessages {reqs : List (Node × VoteRequest Node)}
    (hm : m ∈ voteMessages reqs) : MessageLog h c m := by
  obtain ⟨req, -, rfl⟩ := mem_map.mp hm
  trivial

theorem NodeLog.sent (hg : NodeLog V h n g) (hreq : g.replicateTo peer = some req) :
    Sent h req g.log ∧ req.leaderId = n ∧
      g.role = .leader ∧ req.term = g.currentTerm ∧
      req.prevLogIndex = (g.nextIndex peer).getD 1 - 1 ∧ req.leaderCommit = g.commitIndex := by
  unfold replicateTo at hreq
  split_ifs at hreq with hrole
  push Not at hrole
  cases hreq
  obtain ⟨-, hbase, hfull, hlast⟩ := hg.leader hrole
  exact ⟨⟨hbase, hfull ▸ prefix_rfl, hlast, rfl, rfl⟩, hg.consistent.nodeId, hrole, rfl,
    rfl, rfl⟩

theorem messageLog_replicateTo (hc : ClusterLog V h c) (hne : n ≠ peer)
    (hwon : (c'.nodes n).won = (c.nodes n).won)
    (hm : m ∈ appendMessages peer ((c.nodes n).replicateTo peer)) : MessageLog h c' m := by
  obtain ⟨req, hreq, rfl⟩ := mem_map.mp hm
  obtain ⟨hs, hleader, hrole, hterm, -⟩ := (hc.nodes n).sent (Option.mem_toList.mp hreq)
  refine ⟨by rw [hleader]; exact hne.symm, ?_, (c.nodes n).log, hs⟩
  rw [hleader, hwon, hterm]
  exact ((hc.nodes n).leader hrole).1

theorem ClusterLog.not_leading (hc : ClusterLog V h c) (huniq : UniqueLeaders c)
    (hm : .append n req ∈ c.net) (hrole : (c.nodes n).role = .leader) :
    (c.nodes n).currentTerm ≠ req.term := by
  intro hterm
  obtain ⟨hdst, hleader, -⟩ := hc.net _ hm
  refine hdst (huniq n req.leaderId req.term ?_ hleader)
  rw [← hterm]
  exact ((hc.nodes n).leader hrole).1

theorem NodeLog.quiet (hn : NodeLog V h n (c.nodes n)) (hw : Wellformed Entry.term h)
    (hi : Indexed h) (ht : Transition c a n g out)
    (hsent : ∀ req, .append n req ∈ c.net → (∃ P, Sent h req P) ∧
      ((c.nodes n).role = .leader → (c.nodes n).currentTerm ≠ req.term))
    (hwon : g.won = (c.nodes n).won) (hpropose : ∀ payload, a ≠ .propose n payload)
    (hreconfigure : ∀ voters, a ≠ .reconfigure n voters) : NodeLog V h n g := by
  have hcons := ht.consistent hn.consistent
  cases ht with
  | campaign =>
    exact hn.advance (advances_startPreElection _) hcons hwon (sameLog_startPreElection _).log
  | heartbeat => exact hn
  | vote _ req recent hm =>
    exact hn.advance (advances_handleVote hn.consistent req recent) hcons hwon
      (sameLog_handleVote hn.consistent req recent).log
  | preVoteReply req r recent hm hpre =>
    exact hn.advance (advances_requestPreVote hn.consistent r) hcons hwon
      (sameLog_requestPreVote hn.consistent r).log
  | voteReply req r recent hm hpre =>
    refine hn.advance (advances_requestVote hn.consistent r hwon) hcons hwon ?_
    rcases requestVote_cases hn.consistent r with ⟨-, -, -, -, heq⟩ | hsame
    · rw [heq] at hwon
      simp [becomeLeader, appendEntry, appendLogPersist, recordVote] at hwon
    · exact hsame.log
  | replicate => exact hn
  | append _ req recent hm =>
    obtain ⟨⟨P, hs⟩, hnot⟩ := hsent req hm
    exact hn.handleAppend hw hi hs hnot
  | appendReply peer req r recent hm =>
    exact hn.advance (advances_replicateReply hn.consistent peer r) hcons hwon
      (replicateReply_log hn.consistent peer r)
  | propose _ payload hrole => exact absurd rfl (hpropose payload)
  | reconfigure _ voters hrole hone => exact absurd rfl (hreconfigure voters)
  | restart => exact hn.restart
  | crashInVote _ req count hm => exact hn.crashInVote req
  | crashInAppend _ req count hm =>
    obtain ⟨⟨P, hs⟩, hnot⟩ := hsent req hm
    exact hn.crashInAppend hw hi hs hnot count

theorem ClusterLog.quiet (hc : ClusterLog V h c) (huniq : UniqueLeaders c)
    (ht : Transition c a n g out) (hwon : g.won = (c.nodes n).won)
    (hpropose : ∀ payload, a ≠ .propose n payload)
    (hreconfigure : ∀ voters, a ≠ .reconfigure n voters) : ClusterLog V h (c.put n g out) := by
  have hn := hc.nodes n
  refine hc.put (hn.quiet hc.wellformed hc.indexed ht (fun req hm =>
    ⟨(hc.net _ hm).2.2, hc.not_leading huniq hm⟩) hwon hpropose hreconfigure) hwon fun m hm => ?_
  cases ht with
  | campaign | preVoteReply => exact messageLog_voteMessages hm
  | heartbeat =>
    obtain ⟨p, hp, rfl⟩ := mem_map.mp hm
    change (c.nodes n).nodeId ≠ p
    rw [hn.consistent.nodeId]
    exact (hn.consistent.mem_peers.mp hp).1.symm
  | replicate _ peer recent hm' =>
    exact messageLog_replicateTo hc (hc.net _ hm') (by rw [put_nodes_self]) hm
  | vote | append =>
    rw [mem_singleton.mp hm]
    trivial
  | voteReply | appendReply | propose | reconfigure | restart | crashInVote | crashInAppend =>
    simp at hm

theorem ClusterLog.base_eq_none (hc : ClusterLog V h c) (huniq : UniqueLeaders (c.put n g out))
    (hrole : (c.nodes n).role = .candidate)
    (hwon : g.won = (c.nodes n).won ++ [(c.nodes n).currentTerm]) :
    h.base (c.nodes n).currentTerm = none := by
  by_contra hbase
  obtain ⟨m, hm⟩ := hc.owner _ hbase
  have hsame : m = n := by
    refine huniq m n (c.nodes n).currentTerm ?_ ?_
    · exact won_subset_put (hwon ▸ subset_append_left _ _) m hm
    · rw [put_nodes_self, hwon]
      simp
  subst hsame
  exact ((hc.nodes m).candidate hrole).1 hm

theorem ClusterLog.win (hc : ClusterLog V h c) {v : Node}
    (huniq : UniqueLeaders (c.put n ((c.nodes n).recordVote v).becomeLeader []))
    (hrole : (c.nodes n).role = .candidate) :
    ClusterLog V
      (h.lead (c.nodes n).currentTerm (c.nodes n).log
        ((c.nodes n).recordVote v).becomeLeader.log)
      (c.put n ((c.nodes n).recordVote v).becomeLeader []) :=
  hc.put_lead huniq ((hc.nodes n).consistent.recordVote v).becomeLeader (by simp [hrole]) rfl rfl
    (fun _ => mem_append.trans (or_congr_right mem_singleton)) rfl rfl rfl
    (.inl ⟨hc.base_eq_none huniq hrole rfl, rfl, ((hc.nodes n).candidate hrole).2⟩)

theorem ClusterLog.extend (hc : ClusterLog V h c) (huniq : UniqueLeaders (c.put n g []))
    (hrole : (c.nodes n).role = .leader) (hcons : Consistent n V g)
    (hterm : g.currentTerm = (c.nodes n).currentTerm) (hrole' : g.role = .leader)
    (hwon : g.won = (c.nodes n).won) {command : Command Node α}
    (hlog : g.log = (c.nodes n).log ++ [⟨(c.nodes n).currentTerm, (c.nodes n).log.length + 1,
          command⟩])
    (hb : h.base (c.nodes n).currentTerm = some b) :
    ClusterLog V (h.lead (c.nodes n).currentTerm b g.log) (c.put n g []) := by
  obtain ⟨hmem, -, hfull, -⟩ := (hc.nodes n).leader hrole
  refine hc.put_lead huniq hcons (by simp [hrole]) hterm hrole' (fun t => ?_) hlog rfl rfl
    (.inr ⟨hb, hfull⟩)
  rw [hwon]
  constructor
  · exact .inl
  · rintro (ht | rfl)
    · exact ht
    · exact hmem

theorem won_subset_of_transition (ht : Transition c a n g out) (hn : Consistent n V (c.nodes n))
    (m : Node) : (c.nodes m).won ⊆ ((c.put n g out).nodes m).won := by
  refine won_subset_put ?_ m
  rcases ht.won_cases hn with heq | ⟨-, -, -, -, -, -, -, -, -, -, -, -, rfl⟩
  · exact heq ▸ List.Subset.refl _
  · exact subset_append_left _ _

theorem UniqueLeaders.of_put (huniq : UniqueLeaders (c.put n g out)) (ht : Transition c a n g out)
    (hn : Consistent n V (c.nodes n)) : UniqueLeaders c := by
  intro m m' t hm hm'
  exact huniq m m' t (won_subset_of_transition ht hn m hm) (won_subset_of_transition ht hn m' hm')

theorem ClusterLog.lose [DecidableEq α] (hc : ClusterLog V h c) (m : Message Node α) :
    ClusterLog V h { c with net := c.net.erase m } :=
  { hc with net := fun x hx => hc.net x (mem_of_mem_erase hx) }

theorem ClusterLog.transition (hc : ClusterLog V h c) (huniq : UniqueLeaders (c.put n g out))
    (ht : Transition c a n g out) : ∃ h', ClusterLog V h' (c.put n g out) := by
  have hn := hc.nodes n
  -- a leader has a log to extend
  have hlead : (c.nodes n).role = .leader → ∃ b, h.base (c.nodes n).currentTerm = some b :=
    fun hrole => Option.ne_none_iff_exists'.mp (hn.leader hrole).2.1
  rcases ht.won_cases hn.consistent with hwon |
    ⟨req, r, recent, rfl, hm, hpre, rfl, rfl, hrole, hterm, hyes, hcarried, rfl⟩
  · have hquiet := hc.quiet (huniq.of_put ht hn.consistent) ht hwon
    cases ht with
    | propose _ payload hrole =>
      obtain ⟨b, hb⟩ := hlead hrole
      rw [propose_eq hrole] at huniq ⊢
      exact ⟨_, hc.extend huniq hrole (hn.consistent.appendEntry _) rfl hrole rfl rfl hb⟩
    | reconfigure _ voters hrole hone =>
      obtain ⟨b, hb⟩ := hlead hrole
      have hcons := hn.consistent.reconfigure voters
      obtain ⟨next, matched, heq, -⟩ := reconfigure_eq hn.consistent hrole hone
      rw [heq] at huniq hcons ⊢
      exact ⟨_, hc.extend huniq hrole hcons rfl hrole rfl rfl hb⟩
    | _ => exact ⟨h, hquiet (by simp) (by simp)⟩
  · exact ⟨_, hc.win huniq hrole⟩

theorem clusterLog_start (hbase : ∀ t, h.base t = none) :
    ClusterLog V h (start V) where
  wellformed := ⟨fun hb => by simp [hbase] at hb, fun hb => by simp [hbase] at hb,
    fun hb => by simp [hbase] at hb, fun hb => by simp [hbase] at hb⟩
  indexed t ht := by simp [hbase] at ht
  owner t ht := by simp [hbase] at ht
  nodes n := nodeLog_create _ n
  net := by simp [start]

end Clusters

section Runs

variable [LinearOrder Node] [DecidableEq α] {ok : Cluster Node α → Event Node α → Prop}

theorem invariant_of_uniqueLeaders (inv : Cluster Node α → Prop)
    (hrun : Reaches step ok (start V) c) (huniq : UniqueLeaders c) (hinit : inv (start V))
    (hlose : ∀ c m, inv c → inv { c with net := c.net.erase m })
    (htransition : ∀ c a n g out, inv c → ok c a → UniqueLeaders (c.put n g out) →
      Transition c a n g out → inv (c.put n g out)) : inv c := by
  have hinv : UniqueLeaders c → inv c := by
    induction hrun with
    | refl => exact fun _ => hinit
    | @tail c c' hrun hlast ih =>
      obtain ⟨a, ha, hstep⟩ := hlast
      intro huniq
      rcases step_cases hstep with ⟨m, -, rfl⟩ | ⟨n, g, out, ht, rfl⟩
      · exact hlose c m (ih huniq huniq)
      · have huniq' := huniq.of_put ht (consistent_of_reaches hrun n)
        exact htransition c a n g out (ih huniq' huniq') ha huniq ht
  exact hinv huniq

theorem clusterLog_of_reaches (hrun : Reaches step ok (start V) c) (huniq : UniqueLeaders c) :
    ∃ h, ClusterLog V h c := by
  refine invariant_of_uniqueLeaders (fun c => ∃ h, ClusterLog V h c) hrun huniq ?_ ?_ ?_
  · exact ⟨⟨fun _ => none, fun _ => [], fun _ _ => 0, fun _ _ _ => False⟩,
      clusterLog_start fun _ => rfl⟩
  · rintro c m ⟨h, hc⟩
    exact ⟨h, hc.lose m⟩
  · rintro c a n g out ⟨h, hc⟩ - huniq ht
    exact hc.transition huniq ht

/-- Logs with a common entry are the same up to it. In every log the entries carry
their positions and the terms do not decrease. -/
theorem log_matching (hrun : Reaches step ok (start V) c) (huniq : UniqueLeaders c) :
    (∀ n m, ∀ e ∈ (c.nodes n).log, ∀ e' ∈ (c.nodes m).log, e.index = e'.index →
      e.term = e'.term → (c.nodes n).log.take e.index = (c.nodes m).log.take e.index) ∧
      (∀ n i e, (c.nodes n).log[i]? = some e → e.index = i + 1) ∧
      ∀ n, (c.nodes n).log.Pairwise fun e e' => e.term ≤ e'.term := by
  obtain ⟨h, hc⟩ := clusterLog_of_reaches hrun huniq
  have hindex : ∀ {n A e}, A ++ [e] <+: (c.nodes n).log → e.index = A.length + 1 :=
    fun {n A e} hA => hc.indexed.index_eq (hc.nodes n).log_matches hA
  have htake : ∀ {n A e}, A ++ [e] <+: (c.nodes n).log →
      (c.nodes n).log.take e.index = A ++ [e] := by
    intro n A e hA
    rw [hindex hA, prefix_iff_eq_take.mp hA]
    simp
  refine ⟨?_, ?_, ?_⟩
  · intro n m e he e' he' hsame hterm
    obtain ⟨A, hA⟩ := concat_le_of_mem he
    obtain ⟨A', hA'⟩ := concat_le_of_mem he'
    have hlen : A.length = A'.length := by
      rw [hindex hA, hindex hA'] at hsame
      omega
    have heq := eq_of_term_eq (hc.nodes n).log_matches (hc.nodes m).log_matches hA hA' hlen hterm
    rw [htake hA, hsame, htake hA', heq]
  · intro n i e hi
    obtain ⟨hlt, -⟩ := List.getElem?_eq_some_iff.mp hi
    obtain ⟨A, x, hA, hlen, hx⟩ := exists_concat_le (c.nodes n).log hlt
    obtain rfl : x = e := Option.some.inj (hx.symm.trans hi)
    rw [hindex hA, hlen]
  · exact fun n => hc.wellformed.pairwise_term (hc.nodes n).log_matches

/-- Node 0 of three leads and gives its log to node 1, which restarts. -/
def replicateAndRestart : List (Event (Fin 3) Nat) :=
  elect 0 1 0 0 [(1, 0)] ++ [Event.propose 0 7, .heartbeat 0] ++
    send 1 ⟨1, 0, 0, 0, [⟨1, 1, .noop⟩, ⟨1, 2, .data 7⟩], 0⟩ ++ [.restart 1, .propose 0 8]

theorem log_matching_of_three : ∃ c : Cluster (Fin 3) Nat,
    Reaches step (fun _ _ => True) (start {0, 1, 2}) c ∧ UniqueLeaders c ∧
      ⟨1, 2, .data 7⟩ ∈ (c.nodes 0).log ∧ ⟨1, 2, .data 7⟩ ∈ (c.nodes 1).log ∧
      (c.nodes 0).log.take 2 = (c.nodes 1).log.take 2 := by
  obtain ⟨c, hc, huniq, h0, h1⟩ := exists_reaches step (fun _ _ => True)
    (start {0, 1, 2} : Cluster (Fin 3) Nat) replicateAndRestart
    (fun c => UniqueLeaders c ∧
      ⟨1, 2, .data 7⟩ ∈ (c.nodes 0).log ∧ ⟨1, 2, .data 7⟩ ∈ (c.nodes 1).log)
    (by decide +kernel)
  exact ⟨c, hc, huniq, h0, h1, (log_matching hc huniq).1 0 1 _ h0 _ h1 rfl rfl⟩

end Runs

end LiteDB.LogMatching
