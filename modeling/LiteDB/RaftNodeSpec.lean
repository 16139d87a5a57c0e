import LiteDB.RaftNode

/-!
What the functions of a replica do to its state, for a replica whose files and
peer list agree with what it holds in memory. Later modules use these lemmas and
do not unfold the functions again.
-/

namespace LiteDB.RaftNodeSpec

open List RaftNode RaftGroup

section Sorted

variable {Node : Type} [LinearOrder Node]

@[simp] theorem mem_sorted {s : Finset Node} {x : Node} : x ∈ sorted s ↔ x ∈ s := by
  rcases s with ⟨m, hm⟩
  induction m using Quot.inductionOn with
  | _ l =>
    change x ∈ l.insertionSort (· ≤ ·) ↔ x ∈ l
    exact (perm_insertionSort _ l).mem_iff

theorem nodup_sorted (s : Finset Node) : (sorted s).Nodup := by
  rcases s with ⟨m, hm⟩
  induction m using Quot.inductionOn with
  | _ l =>
    change (l.insertionSort (· ≤ ·)).Nodup
    exact (perm_insertionSort _ l).nodup_iff.mpr hm

end Sorted

section Log

variable {Node α : Type}

@[simp] theorem termAt_zero (log : List (Entry Node α)) : termAt log 0 = 0 := rfl

theorem termAt_succ (log : List (Entry Node α)) (i : Nat) :
    termAt log (i + 1) = ((log[i]?).map Entry.term).getD 0 := by
  simp [termAt]

variable {log : List (Entry Node α)}

theorem termAt_of_concat_le {A : List (Entry Node α)} {e : Entry Node α} (h : A ++ [e] <+: log) :
    termAt log (A.length + 1) = e.term := by
  obtain ⟨rest, rfl⟩ := h
  rw [termAt_succ]
  simp

theorem lastLogTerm_concat (A : List (Entry Node α)) (e : Entry Node α) :
    lastLogTerm (A ++ [e]) = e.term := by
  have h := termAt_of_concat_le (prefix_refl (A ++ [e]))
  simpa [lastLogTerm] using h

theorem latestConfig_of_none {V : Finset Node} (h : ∀ e ∈ log, e.config? = none) :
    latestConfig V log = V := by
  have hnone : log.reverse.findSome? Entry.config? = none := by
    rw [findSome?_eq_none_iff]
    intro e he
    exact h e (mem_reverse.mp he)
  rw [latestConfig, hnone]
  rfl

theorem latestConfig_concat (V : Finset Node) (log : List (Entry Node α)) (e : Entry Node α) :
    latestConfig V (log ++ [e]) = e.config?.getD (latestConfig V log) := by
  cases he : e.config? with
  | none => simp [latestConfig, he]
  | some voters => simp [latestConfig, he]

theorem exists_concat_le (log : List (Entry Node α)) {i : Nat} (h : i < log.length) :
    ∃ A e, A ++ [e] <+: log ∧ A.length = i ∧ log[i]? = some e := by
  refine ⟨log.take i, log[i], ⟨log.drop (i + 1), ?_⟩, ?_, by simp⟩
  · rw [append_assoc, singleton_append, getElem_cons_drop, take_append_drop]
  · simp
    omega

end Log

section Replicas

variable {Node α : Type} {g g' : RaftGroup Node α}

/-- Elections leave the log and everything that depends on it alone. -/
structure SameLog (g g' : RaftGroup Node α) : Prop where
  log : g'.log = g.log
  voters : g'.voters = g.voters
  commitIndex : g'.commitIndex = g.commitIndex
  lastApplied : g'.lastApplied = g.lastApplied
  lastAppliedTerm : g'.lastAppliedTerm = g.lastAppliedTerm
  applied : g'.applied = g.applied
  nextIndex : g'.nextIndex = g.nextIndex
  matchIndex : g'.matchIndex = g.matchIndex
  won : g'.won = g.won

theorem SameLog.refl (g : RaftGroup Node α) : SameLog g g :=
  ⟨rfl, rfl, rfl, rfl, rfl, rfl, rfl, rfl, rfl⟩

/-- Nothing that elections read has changed, except that a replica may have
stepped down. -/
structure SameBallot (g g' : RaftGroup Node α) : Prop where
  currentTerm : g'.currentTerm = g.currentTerm
  votedFor : g'.votedFor = g.votedFor
  votesReceived : g'.votesReceived = g.votesReceived
  won : g'.won = g.won
  role : g'.role = g.role ∨ g'.role = .follower

theorem SameBallot.refl (g : RaftGroup Node α) : SameBallot g g :=
  ⟨rfl, rfl, rfl, rfl, .inl rfl⟩

theorem SameBallot.trans {g'' : RaftGroup Node α} (h : SameBallot g g')
    (h' : SameBallot g' g'') : SameBallot g g'' := by
  refine ⟨h'.currentTerm.trans h.currentTerm, h'.votedFor.trans h.votedFor,
    h'.votesReceived.trans h.votesReceived, h'.won.trans h.won, ?_⟩
  rcases h'.role with hrole | hrole
  · rw [hrole]
    exact h.role
  · exact .inr hrole

/-- Terms only grow, a candidate of the same term was one before, and only an
election makes a leader. -/
structure Advances (g g' : RaftGroup Node α) : Prop where
  currentTerm : g.currentTerm ≤ g'.currentTerm
  candidate : g'.role = .candidate →
    (g.role = .candidate ∧ g'.currentTerm = g.currentTerm) ∨ g.currentTerm < g'.currentTerm
  leader : g'.role = .leader → g.role = .leader ∧ g'.currentTerm = g.currentTerm

theorem Advances.refl (g : RaftGroup Node α) : Advances g g :=
  ⟨le_rfl, fun h => .inl ⟨h, rfl⟩, fun h => ⟨h, rfl⟩⟩

theorem Advances.trans {g'' : RaftGroup Node α} (h : Advances g g') (h' : Advances g' g'') :
    Advances g g'' := by
  refine ⟨h.currentTerm.trans h'.currentTerm, fun hrole => ?_, fun hrole => ?_⟩
  · rcases h'.candidate hrole with ⟨hrole', hterm⟩ | hlt
    · rw [hterm]
      exact h.candidate hrole'
    · exact .inr (h.currentTerm.trans_lt hlt)
  · obtain ⟨hrole', hterm⟩ := h'.leader hrole
    rw [hterm]
    exact h.leader hrole'

theorem SameBallot.advances (h : SameBallot g g') : Advances g g' := by
  refine ⟨h.currentTerm.ge, fun hrole => ?_, fun hrole => ?_⟩
  · rcases h.role with h' | h'
    · exact .inl ⟨h' ▸ hrole, h.currentTerm⟩
    · simp [h'] at hrole
  · rcases h.role with h' | h'
    · exact ⟨h' ▸ hrole, h.currentTerm⟩
    · simp [h'] at hrole

theorem advances_becomeCandidate (g : RaftGroup Node α) : Advances g g.becomeCandidate :=
  ⟨Nat.le_succ _, fun _ => .inr (Nat.lt_succ_self _), fun h => by
    simp [becomeCandidate, persistMeta] at h⟩

theorem iterate_applyNext (k : Nat) (h : g.lastApplied + k ≤ g.log.length) :
    applyNext^[k] g =
      { g with
        lastApplied := g.lastApplied + k
        lastAppliedTerm :=
          if k = 0 then g.lastAppliedTerm else termAt g.log (g.lastApplied + k)
        applied := g.applied ++ (g.log.drop g.lastApplied).take k } := by
  induction k with
  | zero => simp
  | succ k ih =>
    have hk : g.lastApplied + k < g.log.length := by omega
    have hget : g.log[g.lastApplied + k]? = some g.log[g.lastApplied + k] := by simp [hk]
    have htake : (g.log.drop g.lastApplied).take (k + 1) =
        (g.log.drop g.lastApplied).take k ++ [g.log[g.lastApplied + k]] := by
      rw [take_add_one]
      simp [hk]
    rw [Function.iterate_succ_apply', ih (by omega), applyNext]
    simp only [hget]
    have hterm : termAt g.log (g.lastApplied + (k + 1)) = g.log[g.lastApplied + k].term := by
      rw [← Nat.add_assoc, termAt_succ, hget]
      rfl
    simp [htake, hterm, Nat.add_assoc]

theorem iterate_applyNext_frame (g : RaftGroup Node α) (k : Nat) :
    ∃ la lt ap, applyNext^[k] g =
      { g with lastApplied := la, lastAppliedTerm := lt, applied := ap } := by
  induction k with
  | zero => exact ⟨_, _, _, rfl⟩
  | succ k ih =>
    obtain ⟨la, lt, ap, heq⟩ := ih
    rw [Function.iterate_succ_apply', heq, applyNext]
    split
    · exact ⟨_, _, _, rfl⟩
    · exact ⟨_, _, _, rfl⟩

/-- `g'` is `g` with `commit` committed and more applied. It may have stepped down as a
leader. -/
def CommitsTo (commit : Nat) (g g' : RaftGroup Node α) : Prop :=
  ∃ la lt ap role leader, g' =
      { g with
        commitIndex := commit
        lastApplied := la
        lastAppliedTerm := lt
        applied := ap
        role := role
        leaderId := leader } ∧
    (role = g.role ∨ (g.role = .leader ∧ role = .follower))

def Commits (g g' : RaftGroup Node α) : Prop := ∃ commit, CommitsTo commit g g'

theorem Commits.log (h : Commits g g') : g'.log = g.log := by
  obtain ⟨commit, la, lt, ap, role, leader, rfl, -⟩ := h
  rfl

theorem Commits.sameBallot (h : Commits g g') : SameBallot g g' := by
  obtain ⟨commit, la, lt, ap, role, leader, rfl, hrole⟩ := h
  exact ⟨rfl, rfl, rfl, rfl, hrole.imp_right And.right⟩

def mergeEntry (log : List (Entry Node α)) (entry : Entry Node α) : List (Entry Node α) :=
  if entry.index ≤ log.length then
    if termAt log entry.index ≠ entry.term then log.take (entry.index - 1) ++ [entry] else log
  else log ++ [entry]

variable {log : List (Entry Node α)} {e : Entry Node α}

/-- The test of `handle_append` on the previous entry finds nothing against the log. -/
def Attaches (req : AppendRequest Node α) (log : List (Entry Node α)) : Prop :=
  0 < req.prevLogIndex →
    req.prevLogIndex ≤ log.length ∧ termAt log req.prevLogIndex = req.prevLogTerm

theorem attaches_of_not {req : AppendRequest Node α}
    (hshort : ¬(0 < req.prevLogIndex ∧ log.length < req.prevLogIndex))
    (hterm : ¬(0 < req.prevLogIndex ∧ termAt log req.prevLogIndex ≠ req.prevLogTerm)) :
    Attaches req log := by
  push Not at hshort hterm
  exact fun hpos => ⟨hshort hpos, hterm hpos⟩

theorem mem_of_mem_foldl_mergeEntry {entries : List (Entry Node α)}
    (he : e ∈ entries.foldl mergeEntry log) : e ∈ log ∨ e ∈ entries := by
  induction entries generalizing log with
  | nil => exact .inl he
  | cons x entries ih =>
    rcases ih he with hlog | hentries
    · unfold mergeEntry at hlog
      split_ifs at hlog with hin hterm
      · rcases mem_append.mp hlog with htake | hx
        · exact .inl (mem_of_mem_take htake)
        · exact .inr (by simp [mem_singleton.mp hx])
      · exact .inl hlog
      · rcases mem_append.mp hlog with hlog | hx
        · exact .inl hlog
        · exact .inr (by simp [mem_singleton.mp hx])
    · exact .inr (mem_cons_of_mem x hentries)

/-- An entry behind a common part of both logs is found in place or ends the
merged log. -/
theorem mergeEntry_of_le {Q : List (Entry Node α)} (hQ : Q <+: log)
    (hindex : e.index = Q.length + 1)
    (hmatch : ∀ e', Q ++ [e'] <+: log → e.term = e'.term → e = e') :
    (Q ++ [e] <+: log ∧ mergeEntry log e = log) ∨
      (¬Q ++ [e] <+: log ∧ mergeEntry log e = Q ++ [e]) := by
  have htake : log.take Q.length = Q := (prefix_iff_eq_take.mp hQ).symm
  unfold mergeEntry
  rw [hindex]
  split_ifs with hin hterm
  · right
    refine ⟨fun hle => hterm (termAt_of_concat_le hle), ?_⟩
    simp [htake]
  · left
    obtain ⟨A, e', hle, hlen, hget⟩ := exists_concat_le _ (Nat.lt_of_succ_le hin)
    have hA : A = Q := by
      rw [← htake, ← hlen]
      exact prefix_iff_eq_take.mp ((prefix_append A [e']).trans hle)
    subst hA
    push Not at hterm
    rw [termAt_of_concat_le hle] at hterm
    rw [hmatch e' hle hterm.symm]
    exact ⟨hle, rfl⟩
  · right
    have hlog : Q = log := hQ.eq_of_length_le (by omega)
    subst hlog
    exact ⟨fun hle => hin (by simpa using hle.length_le), rfl⟩

/-- Merging a leader's log behind a common part either finds all of it in place
or replaces the log by it. -/
theorem foldl_mergeEntry (entries Q log : List (Entry Node α)) (hQ : Q <+: log)
    (hindex : ∀ A e, A ++ [e] <+: Q ++ entries → e.index = A.length + 1)
    (hmatch : ∀ A e e', A ++ [e] <+: Q ++ entries → A ++ [e'] <+: log → e.term = e'.term → e = e') :
    (Q ++ entries <+: log ∧ entries.foldl mergeEntry log = log) ∨
      (¬Q ++ entries <+: log ∧ entries.foldl mergeEntry log = Q ++ entries) := by
  induction entries generalizing Q log with
  | nil => exact .inl ⟨by simpa using hQ, rfl⟩
  | cons e entries ih =>
    have hQe : Q ++ [e] <+: Q ++ e :: entries := ⟨entries, by simp⟩
    have hassoc : Q ++ e :: entries = (Q ++ [e]) ++ entries := by simp
    rw [hassoc] at hindex hmatch hQe ⊢
    rw [foldl_cons]
    rcases mergeEntry_of_le hQ (hindex Q e hQe) (fun e' => hmatch Q e e' hQe) with
      ⟨hle, heq⟩ | ⟨hnot, heq⟩
    · rw [heq]
      exact ih (Q ++ [e]) log hle hindex hmatch
    · rw [heq]
      right
      refine ⟨fun hle => hnot (hQe.trans hle), ?_⟩
      have hself : ∀ A x x', A ++ [x] <+: Q ++ [e] ++ entries → A ++ [x'] <+: Q ++ [e] →
          x.term = x'.term → x = x' := by
        intro A x x' hx hx' _
        have hboth := prefix_of_prefix_length_le hx (hx'.trans hQe) (by simp)
        simpa using hboth.eq_of_length (by simp)
      rcases ih (Q ++ [e]) (Q ++ [e]) prefix_rfl hindex hself with ⟨hle, hfold⟩ | ⟨-, hfold⟩
      · rw [hfold]
        exact List.IsPrefix.eq_of_length_le (prefix_append _ _) hle.length_le
      · exact hfold

/-- The loop over the received entries changes the log and its file. Unless the
file is to be rewritten, it has kept up with the log. -/
theorem foldl_receiveEntry (entries : List (Entry Node α)) (g : RaftGroup Node α) (rewrote : Bool) :
    ∃ disk rewrote', entries.foldl receiveEntry (g, rewrote) =
      ({ g with log := entries.foldl mergeEntry g.log, diskLog := disk }, rewrote') ∧
      (rewrote' = false → rewrote = false ∧
        (g.diskLog = g.log → disk = entries.foldl mergeEntry g.log)) := by
  induction entries generalizing g rewrote with
  | nil => exact ⟨g.diskLog, rewrote, rfl, fun hfalse => ⟨hfalse, fun hsame => hsame⟩⟩
  | cons entry entries ih =>
    simp only [foldl_cons, receiveEntry, mergeEntry]
    split_ifs with hin hterm hrewrote
    · obtain ⟨disk, rewrote', heq, hdisk⟩ :=
        ih { g with log := g.log.take (entry.index - 1) ++ [entry] } true
      refine ⟨disk, rewrote', heq, fun hfalse => ?_⟩
      exact absurd (hdisk hfalse).1 (by simp)
    · exact ih g rewrote
    · obtain ⟨disk, rewrote', heq, hdisk⟩ := ih { g with log := g.log ++ [entry] } true
      refine ⟨disk, rewrote', heq, fun hfalse => ?_⟩
      exact absurd (hdisk hfalse).1 (by simp)
    · obtain ⟨disk, rewrote', heq, hdisk⟩ :=
        ih (appendLogPersist { g with log := g.log ++ [entry] } entry) false
      refine ⟨disk, rewrote', heq, fun hfalse => ⟨by simpa using hrewrote, fun hsame => ?_⟩⟩
      refine (hdisk hfalse).2 ?_
      change g.diskLog ++ [entry] = g.log ++ [entry]
      rw [hsame]

/-- Until the first conflict the file follows the log; from then on it waits for
the rewrite. Either way it has only grown. -/
theorem foldl_receiveEntry_diskLog (entries : List (Entry Node α)) (g : RaftGroup Node α) :
    (entries.foldl receiveEntry (g, true)).1.diskLog = g.diskLog ∧
      (g.diskLog = g.log → ∃ stored, stored <+: entries ∧
        (entries.foldl receiveEntry (g, false)).1.diskLog =
          stored.foldl mergeEntry g.log ∧
        g.log <+: stored.foldl mergeEntry g.log) := by
  induction entries generalizing g with
  | nil => exact ⟨rfl, fun hsame => ⟨[], prefix_rfl, hsame, prefix_rfl⟩⟩
  | cons entry entries ih =>
    simp only [foldl_cons, receiveEntry]
    split_ifs with hin hterm hfalse
    · exact ⟨(ih _).1, fun hsame => ⟨[], nil_prefix, ((ih _).1).trans hsame, prefix_rfl⟩⟩
    · refine ⟨(ih g).1, fun hsame => ?_⟩
      obtain ⟨stored, hstored, hdisk, hgrow⟩ := (ih g).2 hsame
      have hskip : mergeEntry g.log entry = g.log := by simp [mergeEntry, hin, hterm]
      refine ⟨entry :: stored, cons_prefix_cons.mpr ⟨rfl, hstored⟩, ?_, ?_⟩
      · rw [foldl_cons, hskip]
        exact hdisk
      · rw [foldl_cons, hskip]
        exact hgrow
    · exact hfalse.elim
    · refine ⟨(ih _).1, fun hsame => ?_⟩
      obtain ⟨stored, hstored, hdisk, hgrow⟩ :=
        (ih (appendLogPersist { g with log := g.log ++ [entry] } entry)).2 (by
          change g.diskLog ++ [entry] = g.log ++ [entry]
          rw [hsame])
      have happend : mergeEntry g.log entry = g.log ++ [entry] := by simp [mergeEntry, hin]
      refine ⟨entry :: stored, cons_prefix_cons.mpr ⟨rfl, hstored⟩, ?_, ?_⟩
      · rw [foldl_cons, happend]
        exact hdisk
      · rw [foldl_cons, happend]
        exact (prefix_append _ _).trans hgrow

theorem propose_eq (hrole : g.role = .leader) (command : Command Node α) :
    (g.propose command).1 = g.appendEntry command := by
  simp [RaftGroup.propose, hrole]

theorem waitCommit_eq_true {index : Nat} {expired : Bool} :
    g.waitCommit index expired = some true ↔ index ≤ g.lastApplied := by
  unfold waitCommit
  split_ifs with hle
  · simp [hle]
  all_goals simp [hle]

def withLog (g : RaftGroup Node α) (log : List (Entry Node α)) : RaftGroup Node α :=
  { g with log := log, diskLog := log }

end Replicas

section Commits

variable {Node α : Type} [LinearOrder Node] {g : RaftGroup Node α}

theorem stepDownIfRemoved_eq (g : RaftGroup Node α) :
    ∃ role leader, g.stepDownIfRemoved = { g with role := role, leaderId := leader } ∧
      (role = g.role ∨ (g.role = .leader ∧ role = .follower)) := by
  unfold stepDownIfRemoved
  split
  · rename_i hremoved
    exact ⟨_, _, rfl, .inr ⟨hremoved.1, rfl⟩⟩
  · exact ⟨_, _, rfl, .inl rfl⟩

/-- Everything up to the commit index is applied, in order. Afterwards the
replica may have stepped down as a leader. -/
theorem applyCommitted_eq (hle : g.lastApplied ≤ g.commitIndex)
    (hlen : g.commitIndex ≤ g.log.length) :
    ∃ role leader, g.applyCommitted =
      { g with
        lastApplied := g.commitIndex
        lastAppliedTerm :=
          if g.lastApplied < g.commitIndex then termAt g.log g.commitIndex
          else g.lastAppliedTerm
        applied := g.applied ++ (g.log.take g.commitIndex).drop g.lastApplied
        role := role
        leaderId := leader } ∧
      (role = g.role ∨ (g.role = .leader ∧ role = .follower)) := by
  have hdrop : (g.log.drop g.lastApplied).take (g.commitIndex - g.lastApplied) =
      (g.log.take g.commitIndex).drop g.lastApplied := by
    rw [drop_take]
  have hsum : g.lastApplied + (g.commitIndex - g.lastApplied) = g.commitIndex := by omega
  have hterm : (if g.commitIndex - g.lastApplied = 0 then g.lastAppliedTerm
        else termAt g.log (g.lastApplied + (g.commitIndex - g.lastApplied))) =
      if g.lastApplied < g.commitIndex then termAt g.log g.commitIndex
      else g.lastAppliedTerm := by
    rw [hsum]
    split_ifs <;> first | rfl | omega
  unfold applyCommitted
  obtain ⟨role, leader, heq, hrole⟩ :=
    stepDownIfRemoved_eq (applyNext^[g.commitIndex - g.lastApplied] g)
  rw [iterate_applyNext _ (by omega), hterm, hsum, hdrop] at heq hrole
  rw [iterate_applyNext _ (by omega), hterm, hsum, hdrop]
  exact ⟨role, leader, heq, hrole⟩

section

variable (g : RaftGroup Node α)

theorem commitsTo_applyCommitted (commit : Nat) :
    CommitsTo commit g (applyCommitted { g with commitIndex := commit }) := by
  unfold applyCommitted
  obtain ⟨la, lt, ap, happly⟩ :=
    iterate_applyNext_frame { g with commitIndex := commit } (commit - g.lastApplied)
  obtain ⟨role, leader, heq, hrole⟩ := stepDownIfRemoved_eq
    (applyNext^[commit - g.lastApplied] { g with commitIndex := commit })
  rw [happly] at heq hrole
  exact ⟨la, lt, ap, role, leader, by rw [happly, heq], hrole⟩

theorem commits_followCommit (leaderCommit : Nat) : Commits g (g.followCommit leaderCommit) := by
  unfold followCommit
  split
  · exact ⟨_, commitsTo_applyCommitted g _⟩
  · exact ⟨_, _, _, _, _, _, rfl, .inl rfl⟩

/-- The leader commits nothing, or one new position of its own term that a
majority holds. -/
theorem advanceCommit_cases :
    g.advanceCommit = g ∨
      ∃ idx, g.commitIndex < idx ∧ idx ≤ g.log.length ∧ termAt g.log idx = g.currentTerm ∧
        g.majority ≤ g.ackCount idx ∧
        g.advanceCommit = applyCommitted { g with commitIndex := idx } := by
  unfold advanceCommit
  split
  · exact .inl rfl
  · rename_i idx hfind
    right
    have hcan := find?_some hfind
    have hmem := mem_of_find?_eq_some hfind
    simp only [mem_reverse, mem_range'_1] at hmem
    simp only [canCommit, Bool.and_eq_true, beq_iff_eq, decide_eq_true_eq] at hcan
    exact ⟨idx, by omega, by omega, hcan.1, hcan.2, rfl⟩

theorem commits_advanceCommit : Commits g g.advanceCommit := by
  rcases advanceCommit_cases g with heq | ⟨idx, -, -, -, -, heq⟩
  · exact ⟨_, _, _, _, _, _, heq, .inl rfl⟩
  · rw [heq]
    exact ⟨idx, commitsTo_applyCommitted g idx⟩

theorem sameLog_startPreElection : SameLog g g.startPreElection.1 := by
  unfold RaftGroup.startPreElection
  split
  · exact { SameLog.refl g with }
  · exact { SameLog.refl g with }

theorem advances_startPreElection : Advances g g.startPreElection.1 := by
  unfold RaftGroup.startPreElection
  split
  · refine Advances.trans ?_ (advances_becomeCandidate g.openPreVote)
    exact SameBallot.advances { SameBallot.refl _ with }
  · exact SameBallot.advances { SameBallot.refl _ with }

end

theorem requestVote_of_carried {r : VoteReply Node} (hrole : g.role = .candidate)
    (hterm : r.term = g.currentTerm) (hyes : r.voteGranted = true)
    (hcarried : (g.recordVote r.voterId).voteCarried) :
    g.requestVote r = (g.recordVote r.voterId).becomeLeader := by
  unfold RaftGroup.requestVote
  rw [if_neg (by simp [hrole, hterm]), if_neg (by omega), if_pos hyes, if_pos hcarried]

end Commits

/-- The files and the peer list of a replica agree with its memory. -/
structure Consistent {Node α : Type} [LinearOrder Node] (n : Node) (V : Finset Node)
    (g : RaftGroup Node α) : Prop where
  nodeId : g.nodeId = n
  initialVoters : g.initialVoters = V
  metaTerm : g.metaTerm = g.currentTerm
  metaVotedFor : g.metaVotedFor = g.votedFor
  diskLog : g.diskLog = g.log
  peers : g.peers = sorted (g.voters.erase n)

variable {Node α : Type} [LinearOrder Node] {n : Node} {V : Finset Node}
  {g : RaftGroup Node α} (hg : Consistent n V g)

include hg

theorem Consistent.not_mem_peers : n ∉ g.peers := by
  rw [hg.peers]
  simp

theorem Consistent.mem_peers {p : Node} : p ∈ g.peers ↔ p ≠ n ∧ p ∈ g.voters := by
  rw [hg.peers]
  simp

theorem becomeFollower_eq (t : Nat) :
    g.becomeFollower t =
      { g with
        role := .follower
        currentTerm := t
        votedFor := none
        metaTerm := t
        metaVotedFor := none } := by
  unfold becomeFollower
  split
  · rfl
  · rename_i hsame
    push Not at hsame
    obtain ⟨rfl, hvoted⟩ := hsame
    have hmeta := hg.metaTerm
    have hmetaVoted := hg.metaVotedFor
    rw [hvoted] at hmetaVoted
    rcases g with ⟨⟩
    simp_all

theorem Consistent.becomeFollower (t : Nat) : Consistent n V (g.becomeFollower t) := by
  rw [becomeFollower_eq hg]
  exact { hg with metaTerm := rfl, metaVotedFor := rfl }

theorem Consistent.becomeCandidate : Consistent n V g.becomeCandidate :=
  { hg with metaTerm := rfl, metaVotedFor := rfl }

theorem Consistent.openPreVote : Consistent n V g.openPreVote :=
  { hg with }

theorem Consistent.recordPreVote (v : Node) : Consistent n V (g.recordPreVote v) :=
  { hg with }

theorem Consistent.recordVote (v : Node) : Consistent n V (g.recordVote v) :=
  { hg with }

theorem Consistent.startPreElection : Consistent n V g.startPreElection.1 := by
  unfold RaftGroup.startPreElection
  split
  · exact hg.openPreVote.becomeCandidate
  · exact hg.openPreVote

theorem Consistent.requestPreVote (r : VoteReply Node) : Consistent n V (g.requestPreVote r).1 := by
  unfold RaftGroup.requestPreVote
  split_ifs
  · exact hg
  · exact hg.becomeFollower _
  · exact (hg.recordPreVote _).becomeCandidate
  · exact hg.recordPreVote _
  · exact hg

theorem Consistent.appendEntry (command : Command Node α) :
    Consistent n V (g.appendEntry command) := by
  refine { hg with diskLog := ?_ }
  change g.diskLog ++ _ = g.log ++ _
  rw [hg.diskLog]

theorem Consistent.becomeLeader : Consistent n V g.becomeLeader := by
  unfold RaftGroup.becomeLeader
  apply Consistent.appendEntry
  exact { hg with }

theorem Consistent.requestVote (r : VoteReply Node) : Consistent n V (g.requestVote r) := by
  unfold RaftGroup.requestVote
  split_ifs
  · exact hg
  · exact hg.becomeFollower _
  · exact (hg.recordVote _).becomeLeader
  · exact hg.recordVote _
  · exact hg

theorem Consistent.adoptTerm (t : Nat) : Consistent n V (g.adoptTerm t) := by
  unfold RaftGroup.adoptTerm
  split
  · exact hg.becomeFollower t
  · exact hg

theorem Consistent.grantVote (candidate : Node) : Consistent n V (g.grantVote candidate) :=
  { hg with metaTerm := rfl, metaVotedFor := rfl }

theorem Consistent.handleVote (req : VoteRequest Node) (recent : Bool) :
    Consistent n V (g.handleVote req recent).1 := by
  unfold RaftGroup.handleVote
  split_ifs
  · exact hg
  · exact (hg.adoptTerm _).grantVote _
  · exact hg.adoptTerm _

theorem sameLog_becomeFollower (t : Nat) : SameLog g (g.becomeFollower t) := by
  rw [becomeFollower_eq hg]
  exact { SameLog.refl g with }

theorem sameLog_adoptTerm (t : Nat) : SameLog g (g.adoptTerm t) := by
  unfold RaftGroup.adoptTerm
  split
  · exact sameLog_becomeFollower hg t
  · exact SameLog.refl g

theorem sameLog_requestPreVote (r : VoteReply Node) : SameLog g (g.requestPreVote r).1 := by
  unfold RaftGroup.requestPreVote
  split_ifs
  · exact SameLog.refl g
  · exact sameLog_becomeFollower hg _
  · exact { SameLog.refl g with }
  · exact { SameLog.refl g with }
  · exact SameLog.refl g

theorem sameLog_handleVote (req : VoteRequest Node) (recent : Bool) :
    SameLog g (g.handleVote req recent).1 := by
  have hadopted := sameLog_adoptTerm hg req.term
  unfold RaftGroup.handleVote
  split_ifs
  · exact SameLog.refl g
  · exact { hadopted with }
  · exact hadopted

theorem requestVote_cases (r : VoteReply Node) :
    (g.role = .candidate ∧ r.term = g.currentTerm ∧ r.voteGranted = true ∧
        (g.recordVote r.voterId).voteCarried ∧
        g.requestVote r = (g.recordVote r.voterId).becomeLeader) ∨
      SameLog g (g.requestVote r) := by
  unfold RaftGroup.requestVote
  split_ifs with hstale hlt hyes hcarried
  · exact .inr (SameLog.refl g)
  · exact .inr (sameLog_becomeFollower hg _)
  · push Not at hstale
    exact .inl ⟨hstale.1, by omega, hyes, hcarried, rfl⟩
  · exact .inr { SameLog.refl g with }
  · exact .inr (SameLog.refl g)

/-- `_set_voters` touches the configuration and the leader's positions only, and
keeps a position that is already recorded. -/
theorem setVoters_eq (voters : Finset Node) :
    ∃ next matched, g.setVoters voters =
      { g with
        voters := voters
        peers := sorted (voters.erase n)
        nextIndex := next
        matchIndex := matched } ∧
      (∀ p, next p = g.nextIndex p ∨
        (p ≠ n ∧ p ∈ voters ∧ g.nextIndex p = none ∧ next p = some (g.log.length + 1))) ∧
      (∀ p, matched p = g.matchIndex p ∨
        (p ≠ n ∧ p ∈ voters ∧ g.matchIndex p = none ∧ matched p = some 0)) := by
  unfold setVoters
  split
  · rename_i hsame
    subst hsame
    refine ⟨g.nextIndex, g.matchIndex, ?_, fun p => .inl rfl, fun p => .inl rfl⟩
    have hpeers := hg.peers
    rcases g with ⟨⟩
    simp_all
  · refine ⟨_, _, by rw [hg.nodeId], fun p => ?_, fun p => ?_⟩
    · split
      · rename_i hp
        have hp' : p ≠ n ∧ p ∈ voters := by simpa [hg.nodeId] using hp
        cases hnext : g.nextIndex p with
        | none => exact .inr ⟨hp'.1, hp'.2, rfl, rfl⟩
        | some k => exact .inl rfl
      · exact .inl rfl
    · split
      · rename_i hp
        have hp' : p ≠ n ∧ p ∈ voters := by simpa [hg.nodeId] using hp
        cases hmatch : g.matchIndex p with
        | none => exact .inr ⟨hp'.1, hp'.2, rfl, rfl⟩
        | some k => exact .inl rfl
      · exact .inl rfl

theorem Consistent.setVoters (voters : Finset Node) : Consistent n V (g.setVoters voters) := by
  obtain ⟨next, matched, heq, -⟩ := setVoters_eq hg voters
  rw [heq]
  exact { hg with peers := rfl }

/-- Term, vote and log survive a restart; everything volatile starts over. -/
theorem restart_eq :
    ∃ next matched, g.restart =
      { (create n V : RaftGroup Node α) with
        voters := latestConfig V g.log
        peers := sorted ((latestConfig V g.log).erase n)
        currentTerm := g.currentTerm
        votedFor := g.votedFor
        log := g.log
        metaTerm := g.currentTerm
        metaVotedFor := g.votedFor
        diskLog := g.log
        nextIndex := next
        matchIndex := matched
        won := g.won
        applied := g.applied } ∧
      (∀ p, next p ≠ none → p ≠ n ∧ p ∈ latestConfig V g.log) ∧
      (∀ p, matched p ≠ none → p ≠ n ∧ p ∈ latestConfig V g.log) := by
  unfold restart refreshVotersFromLog
  rw [hg.nodeId, hg.initialVoters, hg.metaTerm, hg.metaVotedFor, hg.diskLog]
  obtain ⟨next, matched, heq, hnext, hmatched⟩ := setVoters_eq (n := n) (V := V)
    (g := { (create n V : RaftGroup Node α) with
      currentTerm := g.currentTerm
      votedFor := g.votedFor
      log := g.log
      metaTerm := g.currentTerm
      metaVotedFor := g.votedFor
      diskLog := g.log
      won := g.won
      applied := g.applied }) ⟨rfl, rfl, rfl, rfl, rfl, rfl⟩ (latestConfig V g.log)
  exact ⟨next, matched, heq, fun p hp => ((hnext p).resolve_left hp).imp_right And.left,
    fun p hp => ((hmatched p).resolve_left hp).imp_right And.left⟩

theorem Consistent.restart : Consistent n V g.restart := by
  obtain ⟨next, matched, heq, -⟩ := restart_eq hg
  rw [heq]
  exact ⟨rfl, rfl, rfl, rfl, rfl, rfl⟩

theorem restart_log : g.restart.log = g.log := by
  obtain ⟨next, matched, heq, -⟩ := restart_eq hg
  rw [heq]

section

variable (entries : List (Entry Node α))

theorem storeEntries_eq :
    g.storeEntries entries =
      { g with
        log := entries.foldl mergeEntry g.log
        diskLog := entries.foldl mergeEntry g.log } := by
  obtain ⟨disk, rewrote, heq, hdisk⟩ := foldl_receiveEntry entries g false
  unfold storeEntries
  rw [heq]
  cases rewrote with
  | true => rfl
  | false =>
    rw [(hdisk rfl).2 hg.diskLog]
    rfl

theorem Consistent.storeEntries : Consistent n V (g.storeEntries entries) := by
  rw [storeEntries_eq hg]
  exact { hg with diskLog := rfl }

/-- Received entries are merged into the log, and the configuration follows the
log unless nothing was received. -/
theorem receiveEntries_eq :
    ∃ voters next matched, g.receiveEntries entries =
      { g with
        log := entries.foldl mergeEntry g.log
        diskLog := entries.foldl mergeEntry g.log
        voters := voters
        peers := sorted (voters.erase n)
        nextIndex := next
        matchIndex := matched } ∧
      (voters = if entries = [] then g.voters
        else latestConfig V (entries.foldl mergeEntry g.log)) ∧
      (∀ p, next p = g.nextIndex p ∨ (p ≠ n ∧ p ∈ voters)) ∧
      (∀ p, matched p = g.matchIndex p ∨ (p ≠ n ∧ p ∈ voters)) := by
  unfold receiveEntries
  split
  · rename_i hnil
    refine ⟨g.voters, g.nextIndex, g.matchIndex, ?_, rfl, fun p => .inl rfl, fun p => .inl rfl⟩
    rw [storeEntries_eq hg]
    have hpeers := hg.peers
    rcases g with ⟨⟩
    simp_all
  · rename_i hne
    unfold refreshVotersFromLog
    obtain ⟨next, matched, heq, hnext, hmatched⟩ := setVoters_eq (hg.storeEntries entries)
      (latestConfig (g.storeEntries entries).initialVoters (g.storeEntries entries).log)
    rw [heq]
    rw [storeEntries_eq hg] at hnext hmatched ⊢
    refine ⟨_, next, matched, rfl, by rw [hg.initialVoters], fun p => ?_, fun p => ?_⟩
    · exact (hnext p).imp_right fun h => ⟨h.1, h.2.1⟩
    · exact (hmatched p).imp_right fun h => ⟨h.1, h.2.1⟩

theorem Consistent.receiveEntries : Consistent n V (g.receiveEntries entries) := by
  obtain ⟨voters, next, matched, heq, -⟩ := receiveEntries_eq hg entries
  rw [heq]
  exact { hg with diskLog := rfl, peers := rfl }

end

theorem Consistent.commits {g' : RaftGroup Node α} (h : Commits g g') : Consistent n V g' := by
  obtain ⟨commit, la, lt, ap, role, leader, rfl, -⟩ := h
  exact { hg with }

theorem Consistent.truncateLog (length : Nat) : Consistent n V (g.truncateLog length) :=
  { hg with diskLog := rfl }

theorem Consistent.acceptLeader (req : AppendRequest Node α) :
    Consistent n V (g.acceptLeader req) := by
  have hleader : Consistent n V { g with leaderId := some req.leaderId } :=
    { hg with }
  unfold RaftGroup.acceptLeader
  split
  · exact hleader.becomeFollower _
  · exact hleader

/-- A replica that takes in a request of a leader is in its term, and is no
candidate any more. -/
theorem acceptLeader_adoptTerm_eq {req : AppendRequest Node α} (hle : g.currentTerm ≤ req.term) :
    ∃ role voted, (g.adoptTerm req.term).acceptLeader req =
      { g with
        role := role
        currentTerm := req.term
        votedFor := voted
        metaTerm := req.term
        metaVotedFor := voted
        leaderId := some req.leaderId } ∧
      ((g.currentTerm = req.term ∧ g.role ≠ .candidate ∧ role = g.role ∧ voted = g.votedFor) ∨
        ((g.currentTerm < req.term ∨ g.role = .candidate) ∧ role = .follower ∧
          voted = none)) := by
  have hleader : Consistent n V { g with leaderId := some req.leaderId } :=
    { hg with }
  unfold RaftGroup.adoptTerm RaftGroup.acceptLeader
  split_ifs with hlt hrole hrole
  · rw [becomeFollower_eq hg] at hrole
    simp at hrole
  · rw [becomeFollower_eq hg]
    exact ⟨_, _, rfl, .inr ⟨.inl hlt, rfl, rfl⟩⟩
  · rw [becomeFollower_eq hleader]
    exact ⟨_, _, rfl, .inr ⟨.inr hrole, rfl, rfl⟩⟩
  · have hterm : g.currentTerm = req.term := by omega
    refine ⟨g.role, g.votedFor, ?_, .inl ⟨hterm, hrole, rfl, rfl⟩⟩
    have hmeta := hg.metaTerm
    have hmetaVoted := hg.metaVotedFor
    rcases g with ⟨⟩
    simp_all

theorem Consistent.appendAfter (req : AppendRequest Node α) :
    Consistent n V (g.appendAfter req).1 := by
  unfold RaftGroup.appendAfter
  split_ifs
  · exact hg
  · exact hg.truncateLog _
  · exact (hg.receiveEntries _).commits (commits_followCommit _ _)

theorem Consistent.handleAppend (req : AppendRequest Node α) :
    Consistent n V (g.handleAppend req).1 := by
  unfold RaftGroup.handleAppend
  split_ifs
  · exact hg
  · exact ((hg.adoptTerm _).acceptLeader req).appendAfter req

theorem Consistent.crashInVote (req : VoteRequest Node) : Consistent n V (g.crashInVote req) := by
  unfold RaftGroup.crashInVote
  split
  · exact hg.restart
  · exact (hg.adoptTerm _).restart

theorem Consistent.withLog (log : List (Entry Node α)) : Consistent n V (withLog g log) :=
  { hg with diskLog := rfl }

theorem withLog_self : withLog g g.log = g := by
  have hdisk := hg.diskLog
  rcases g with ⟨⟩
  simp_all [RaftNodeSpec.withLog]

/-- After a crash inside `handle_append` the replica restarts as if it had taken
in some of the entries, without having dropped any of its own. -/
theorem crashInAppend_cases (req : AppendRequest Node α) (count : Nat) :
    (req.term < g.currentTerm ∧ g.crashInAppend req count = g.restart) ∨
      (g.currentTerm ≤ req.term ∧ ∃ a stored, a = (g.adoptTerm req.term).acceptLeader req ∧
        stored <+: req.entries ∧
        (stored ≠ [] → Attaches req a.log) ∧
        a.log <+: stored.foldl mergeEntry a.log ∧
        g.crashInAppend req count =
          (withLog a (stored.foldl mergeEntry a.log)).restart) := by
  have haccepted := (hg.adoptTerm req.term).acceptLeader req
  unfold crashInAppend
  split_ifs with hold hshort hterm
  · exact .inl ⟨hold, rfl⟩
  all_goals
    refine .inr ⟨by omega, (g.adoptTerm req.term).acceptLeader req, ?_⟩
  · refine ⟨[], rfl, nil_prefix, by simp, prefix_rfl, ?_⟩
    rw [foldl_nil, withLog_self haccepted]
  · refine ⟨[], rfl, nil_prefix, by simp, prefix_rfl, ?_⟩
    rw [foldl_nil, withLog_self haccepted]
  · obtain ⟨stored, hstored, hdisk, hgrow⟩ := (foldl_receiveEntry_diskLog
      (req.entries.take count) ((g.adoptTerm req.term).acceptLeader req)).2 haccepted.diskLog
    obtain ⟨disk, rewrote, heq, -⟩ := foldl_receiveEntry (req.entries.take count)
      ((g.adoptTerm req.term).acceptLeader req) false
    refine ⟨stored, rfl, hstored.trans (List.take_prefix count _),
      fun _ => attaches_of_not hshort hterm, hgrow, ?_⟩
    rw [heq] at hdisk ⊢
    change disk = _ at hdisk
    rw [hdisk]
    rfl

theorem Consistent.crashInAppend (req : AppendRequest Node α)
    (count : Nat) : Consistent n V (g.crashInAppend req count) := by
  rcases crashInAppend_cases hg req count with ⟨-, heq⟩ | ⟨-, a, stored, rfl, -, -, -, heq⟩
  · rw [heq]
    exact hg.restart
  · rw [heq]
    exact (((hg.adoptTerm _).acceptLeader req).withLog _).restart

theorem Consistent.replicateReply (peer : Node) (r : AppendReply Node) :
    Consistent n V (g.replicateReply peer r) := by
  unfold RaftGroup.replicateReply
  split_ifs
  · exact hg.becomeFollower _
  · exact hg
  · refine Consistent.commits ?_ (commits_advanceCommit _)
    exact { hg with }
  · exact { hg with }

theorem Consistent.propose (command : Command Node α) : Consistent n V (g.propose command).1 := by
  unfold RaftGroup.propose
  split_ifs
  · exact hg
  · exact hg.appendEntry command

theorem Consistent.reconfigure (voters : Finset Node) :
    Consistent n V (g.reconfigure voters).1 := by
  unfold RaftGroup.reconfigure
  split_ifs
  · exact hg
  · exact hg
  · exact (hg.propose _).setVoters _

theorem replicateReply_log (peer : Node) (r : AppendReply Node) :
    (g.replicateReply peer r).log = g.log := by
  unfold RaftGroup.replicateReply
  split_ifs
  · exact (sameLog_becomeFollower hg _).log
  · rfl
  · exact (commits_advanceCommit _).log
  · rfl

theorem reconfigure_eq (hrole : g.role = .leader) {voters : Finset Node}
    (hone : (symmDiff g.voters voters).card = 1) :
    ∃ next matched, (g.reconfigure voters).1 =
      { g.appendEntry (.config voters) with
        voters := voters
        peers := sorted (voters.erase n)
        nextIndex := next
        matchIndex := matched } ∧
      (∀ p, next p = g.nextIndex p ∨
        (p ≠ n ∧ p ∈ voters ∧ g.nextIndex p = none ∧ next p = some (g.log.length + 2))) ∧
      (∀ p, matched p = g.matchIndex p ∨
        (p ≠ n ∧ p ∈ voters ∧ g.matchIndex p = none ∧ matched p = some 0)) := by
  have hlatest : latestConfig (g.appendEntry (.config voters)).initialVoters
      (g.appendEntry (.config voters)).log = voters := by
    simp [appendEntry, appendLogPersist, latestConfig_concat, Entry.config?]
  have heq : (g.reconfigure voters).1 = (g.appendEntry (.config voters)).setVoters voters := by
    rw [RaftGroup.reconfigure, if_neg (by simp [hrole]), if_neg (by simp [hone]),
      propose_eq hrole, refreshVotersFromLog, hlatest]
  rw [heq]
  obtain ⟨next, matched, hset, hnext, hmatched⟩ :=
    setVoters_eq (hg.appendEntry (.config voters)) voters
  rw [hset]
  refine ⟨next, matched, rfl, fun p => ?_, hmatched⟩
  rcases hnext p with h | h
  · exact .inl h
  · right
    simpa [appendEntry, appendLogPersist] using h

section Ballots

theorem sameBallot_receiveEntries (entries : List (Entry Node α)) :
    SameBallot g (g.receiveEntries entries) := by
  obtain ⟨voters, next, matched, heq, -⟩ := receiveEntries_eq hg entries
  rw [heq]
  exact ⟨rfl, rfl, rfl, rfl, .inl rfl⟩

theorem sameBallot_receive (entries : List (Entry Node α)) (commit : Nat) :
    SameBallot g ((g.receiveEntries entries).followCommit commit) :=
  (sameBallot_receiveEntries hg entries).trans (commits_followCommit _ _).sameBallot

theorem receive_log (entries : List (Entry Node α)) (commit : Nat) :
    ((g.receiveEntries entries).followCommit commit).log = entries.foldl mergeEntry g.log := by
  obtain ⟨voters, next, matched, heq, -⟩ := receiveEntries_eq hg entries
  rw [(commits_followCommit _ _).log, heq]

theorem sameBallot_appendAfter (req : AppendRequest Node α) :
    SameBallot g (g.appendAfter req).1 := by
  unfold RaftGroup.appendAfter
  split_ifs
  · exact SameBallot.refl g
  · exact ⟨rfl, rfl, rfl, rfl, .inl rfl⟩
  · exact sameBallot_receive hg _ _

theorem restart_currentTerm : g.restart.currentTerm = g.currentTerm := by
  obtain ⟨next, matched, heq, -⟩ := restart_eq hg
  rw [heq]

theorem restart_won : g.restart.won = g.won := by
  obtain ⟨next, matched, heq, -⟩ := restart_eq hg
  rw [heq]

variable {req : AppendRequest Node α}

theorem accept_log (hle : g.currentTerm ≤ req.term) :
    ((g.adoptTerm req.term).acceptLeader req).log = g.log := by
  obtain ⟨role, voted, heq, -⟩ := acceptLeader_adoptTerm_eq hg hle
  rw [heq]

theorem accept_won (hle : g.currentTerm ≤ req.term) :
    ((g.adoptTerm req.term).acceptLeader req).won = g.won := by
  obtain ⟨role, voted, heq, -⟩ := acceptLeader_adoptTerm_eq hg hle
  rw [heq]

theorem handleAppend_won (req : AppendRequest Node α) : (g.handleAppend req).1.won = g.won := by
  unfold RaftGroup.handleAppend
  split
  · rfl
  · rename_i hold
    rw [← accept_won hg (Nat.le_of_not_lt hold)]
    exact (sameBallot_appendAfter ((hg.adoptTerm req.term).acceptLeader req) req).won

theorem handleAppend_currentTerm (hle : g.currentTerm ≤ req.term) :
    (g.handleAppend req).1.currentTerm = req.term := by
  obtain ⟨role, voted, heq, -⟩ := acceptLeader_adoptTerm_eq hg hle
  have hterm : ((g.adoptTerm req.term).acceptLeader req).currentTerm = req.term := by rw [heq]
  unfold RaftGroup.handleAppend
  rw [if_neg (Nat.not_lt.mpr hle)]
  exact (sameBallot_appendAfter ((hg.adoptTerm req.term).acceptLeader req) req).currentTerm.trans
    hterm

theorem replicateReply_won (peer : Node) (r : AppendReply Node) :
    (g.replicateReply peer r).won = g.won := by
  unfold RaftGroup.replicateReply
  split_ifs
  · exact (sameLog_becomeFollower hg _).won
  · rfl
  · exact (commits_advanceCommit _).sameBallot.won
  · rfl

theorem crashInVote_won (req : VoteRequest Node) : (g.crashInVote req).won = g.won := by
  unfold RaftGroup.crashInVote
  split
  · exact restart_won hg
  · rw [restart_won (hg.adoptTerm _), (sameLog_adoptTerm hg _).won]

theorem crashInAppend_won (req : AppendRequest Node α) (count : Nat) :
    (g.crashInAppend req count).won = g.won := by
  rcases crashInAppend_cases hg req count with ⟨-, heq⟩ | ⟨hle, a, stored, rfl, -, -, -, heq⟩
  · rw [heq, restart_won hg]
  · rw [heq, restart_won (((hg.adoptTerm _).acceptLeader req).withLog _)]
    exact accept_won hg hle

end Ballots

theorem advances_becomeFollower {t : Nat} (hle : g.currentTerm ≤ t) :
    Advances g (g.becomeFollower t) := by
  rw [becomeFollower_eq hg]
  exact ⟨hle, fun h => by simp at h, fun h => by simp at h⟩

theorem advances_adoptTerm (t : Nat) : Advances g (g.adoptTerm t) := by
  unfold RaftGroup.adoptTerm
  split
  · rename_i hlt
    exact advances_becomeFollower hg hlt.le
  · exact Advances.refl g

theorem advances_requestPreVote (r : VoteReply Node) : Advances g (g.requestPreVote r).1 := by
  unfold RaftGroup.requestPreVote
  split_ifs with hstale hlt
  · exact Advances.refl g
  · exact advances_becomeFollower hg hlt.le
  · refine Advances.trans ?_ (advances_becomeCandidate (g.recordPreVote r.voterId))
    exact SameBallot.advances { SameBallot.refl _ with }
  · exact SameBallot.advances { SameBallot.refl _ with }
  · exact Advances.refl g

theorem advances_requestVote (r : VoteReply Node)
    (hwon : (g.requestVote r).won = g.won) : Advances g (g.requestVote r) := by
  unfold RaftGroup.requestVote at hwon ⊢
  split_ifs at hwon ⊢ with hstale hlt
  · exact Advances.refl g
  · exact advances_becomeFollower hg hlt.le
  · simp [RaftGroup.becomeLeader, appendEntry, appendLogPersist, recordVote] at hwon
  · exact ⟨le_rfl, fun h => .inl ⟨h, rfl⟩, fun h => ⟨h, rfl⟩⟩
  · exact Advances.refl g

theorem advances_handleVote (req : VoteRequest Node) (recent : Bool) :
    Advances g (g.handleVote req recent).1 := by
  unfold RaftGroup.handleVote
  split_ifs
  · exact Advances.refl g
  · refine (advances_adoptTerm hg req.term).trans ?_
    exact ⟨le_rfl, fun h => .inl ⟨h, rfl⟩, fun h => ⟨h, rfl⟩⟩
  · exact advances_adoptTerm hg req.term

theorem advances_accept {req : AppendRequest Node α} (hle : g.currentTerm ≤ req.term) :
    Advances g ((g.adoptTerm req.term).acceptLeader req) := by
  obtain ⟨role, voted, heq, hcase⟩ := acceptLeader_adoptTerm_eq hg hle
  rw [heq]
  rcases hcase with ⟨hterm, -, rfl, -⟩ | ⟨-, rfl, -⟩
  · exact ⟨hle, fun h => .inl ⟨h, hterm.symm⟩, fun h => ⟨h, hterm.symm⟩⟩
  · exact ⟨hle, fun h => by simp at h, fun h => by simp at h⟩

theorem advances_restart : Advances g g.restart := by
  obtain ⟨next, matched, heq, -⟩ := restart_eq hg
  rw [heq]
  exact ⟨le_rfl, fun h => by simp [create] at h, fun h => by simp [create] at h⟩

theorem advances_replicateReply (peer : Node) (r : AppendReply Node) :
    Advances g (g.replicateReply peer r) := by
  unfold RaftGroup.replicateReply
  split_ifs with hlt
  · exact advances_becomeFollower hg hlt.le
  · exact Advances.refl g
  · refine Advances.trans ?_ (commits_advanceCommit _).sameBallot.advances
    exact SameBallot.advances { SameBallot.refl _ with }
  · exact SameBallot.advances { SameBallot.refl _ with }

theorem advances_handleAppend (req : AppendRequest Node α) : Advances g (g.handleAppend req).1 := by
  unfold RaftGroup.handleAppend
  split
  · exact Advances.refl g
  · rename_i hold
    have hcons := (hg.adoptTerm req.term).acceptLeader req
    refine (advances_accept hg (Nat.le_of_not_lt hold)).trans ?_
    unfold RaftGroup.appendAfter
    split_ifs
    · exact Advances.refl _
    · exact SameBallot.advances { SameBallot.refl _ with }
    · exact (sameBallot_receive hcons _ _).advances

theorem advances_crashInVote (req : VoteRequest Node) : Advances g (g.crashInVote req) := by
  unfold RaftGroup.crashInVote
  split
  · exact advances_restart hg
  · exact (advances_adoptTerm hg _).trans (advances_restart (hg.adoptTerm _))

theorem advances_crashInAppend (req : AppendRequest Node α)
    (count : Nat) : Advances g (g.crashInAppend req count) := by
  rcases crashInAppend_cases hg req count with ⟨-, heq⟩ | ⟨hle, a, stored, rfl, -, -, -, heq⟩
  · rw [heq]
    exact advances_restart hg
  · rw [heq]
    refine (advances_accept hg hle).trans (Advances.trans ?_
      (advances_restart (((hg.adoptTerm _).acceptLeader req).withLog _)))
    exact SameBallot.advances { SameBallot.refl _ with }

end LiteDB.RaftNodeSpec
