import LiteDB.Runs
import LiteDB.TornTail

namespace LiteDB.WalSequences

open List Runs TornTail Wal

/-- The log on one path. `appended` are the entries that `append` has returned so far,
by any instance. -/
structure History where
  wal : WriteAheadLog
  closed : Bool
  appended : List WalEntry

/-- The calls of the one user of a log. -/
inductive Event where
  | append (r : Request)
  | truncate
  | close
  | reopen

def start : History := ⟨⟨[], 0⟩, false, []⟩

/-- `append` to a closed file takes a number before it raises an exception, and `truncate`
opens the file again. -/
def step (codec : Codec) (s : History) : Event → Option History
  | .append r =>
      if s.closed then some { s with wal := { s.wal with sequence := s.wal.sequence + 1 } }
      else
        let next := s.wal.append codec r
        some { s with wal := next.1, appended := s.appended ++ next.2.toList }
  | .truncate => some { s with wal := s.wal.truncate, closed := false }
  | .close => some { s with closed := true }
  | .reopen =>
      (WriteAheadLog.init codec s.wal.file).map fun wal => { s with wal := wal, closed := false }

/-- A log is opened while its file has an entry, or when nothing was ever appended. -/
def KeepsLast (s : History) : Event → Prop
  | .reopen => s.wal.file ≠ [] ∨ s.appended = []
  | _ => True

instance (s : History) (a : Event) : Decidable (KeepsLast s a) := by
  unfold KeepsLast
  split <;> infer_instance

section Sequences

variable {entries : List WalEntry} {e : WalEntry}

theorem lt_nextSequence (h : e ∈ entries) : e.sequence < nextSequence entries := by
  have hfold : ∀ n, n ≤ entries.foldl (fun n e => if n ≤ e.sequence then e.sequence + 1 else n) n ∧
      ∀ e ∈ entries,
        e.sequence < entries.foldl (fun n e => if n ≤ e.sequence then e.sequence + 1 else n) n := by
    clear h
    induction entries with
    | nil => exact fun n => ⟨le_rfl, fun e he => absurd he not_mem_nil⟩
    | cons x entries ih =>
      intro n
      obtain ⟨hle, hlt⟩ := ih (if n ≤ x.sequence then x.sequence + 1 else n)
      have hx : n ≤ (if n ≤ x.sequence then x.sequence + 1 else n) ∧
          x.sequence < (if n ≤ x.sequence then x.sequence + 1 else n) := by
        split <;> omega
      refine ⟨hx.1.trans hle, fun e he => ?_⟩
      rcases mem_cons.mp he with rfl | he
      · exact hx.2.trans_le hle
      · exact hlt e he
  exact (hfold 0).2 e h

end Sequences

def Increasing (entries : List WalEntry) : Prop := entries.Pairwise (·.sequence < ·.sequence)

/-- The file holds the last of the appended entries, and the next number is a new one. -/
structure Sound (codec : Codec) (s : History) : Prop where
  increasing : Increasing s.appended
  fresh : ∀ e ∈ s.appended, e.sequence < s.wal.sequence
  file : ∃ entries, s.wal.file = records codec entries ∧ entries <:+ s.appended ∧
    ∀ e ∈ entries, Fits codec e

namespace Sound

variable {codec : Codec} {s t : History}

theorem start (codec : Codec) : Sound codec start where
  increasing := List.Pairwise.nil
  fresh := fun _ he => absurd he not_mem_nil
  file := ⟨[], rfl, suffix_rfl, fun _ he => absurd he not_mem_nil⟩

theorem append (h : Sound codec s) {r : Request} (hstep : step codec s (.append r) = some t) :
    Sound codec t := by
  obtain ⟨entries, hfile, hsuffix, hfits⟩ := h.file
  have hskip : ∀ e ∈ s.appended, e.sequence < s.wal.sequence + 1 :=
    fun e he => (h.fresh e he).trans (Nat.lt_succ_self _)
  simp only [step] at hstep
  split at hstep
  · cases hstep
    exact ⟨h.increasing, hskip, entries, hfile, hsuffix, hfits⟩
  · cases hstep
    unfold WriteAheadLog.append
    split
    next hr =>
      refine ⟨pairwise_append.mpr ⟨h.increasing, pairwise_singleton _ _, ?_⟩, ?_,
        entries ++ [r.entry s.wal.sequence], ?_, ?_, ?_⟩
      · intro e he x hx
        rw [mem_singleton.mp hx]
        exact h.fresh e he
      · intro e he
        rcases mem_append.mp he with he | he
        · exact hskip e he
        · rw [mem_singleton.mp he]
          exact Nat.lt_succ_self _
      · simp [records, hfile]
      · obtain ⟨before, heq⟩ := hsuffix
        exact ⟨before, by rw [← heq, ← append_assoc]; rfl⟩
      · intro e he
        rcases mem_append.mp he with he | he
        · exact hfits e he
        · rw [mem_singleton.mp he]
          exact hr
    next =>
      refine ⟨?_, ?_, entries, hfile, ?_, hfits⟩
      · simpa using h.increasing
      · simpa using hskip
      · simpa using hsuffix

theorem truncate (h : Sound codec s) :
    Sound codec { s with wal := s.wal.truncate, closed := false } :=
  ⟨h.increasing, h.fresh, [], rfl, nil_suffix, fun _ he => absurd he not_mem_nil⟩

/-- The last entry of the file is the last one that was appended, so the number that
`__init__` finds is above all of them. -/
theorem reopen (h : Sound codec s) (hkeeps : KeepsLast s .reopen)
    (hstep : step codec s .reopen = some t) : Sound codec t := by
  obtain ⟨entries, hfile, hsuffix, hfits⟩ := h.file
  simp only [step, WriteAheadLog.init, hfile, readAll_records hfits, Option.map_some] at hstep
  cases hstep
  refine ⟨h.increasing, fun e he => ?_, entries, rfl, hsuffix, hfits⟩
  have hne : entries ≠ [] := by
    rintro rfl
    rcases hkeeps with hne | hnil
    · exact hne hfile
    · exact absurd (hnil ▸ he) not_mem_nil
  obtain ⟨front, last, rfl⟩ := entries.eq_nil_or_concat'.resolve_left hne
  obtain ⟨before, heq⟩ := hsuffix
  have hlast : last.sequence < nextSequence (front ++ [last]) :=
    lt_nextSequence (mem_append_right _ (mem_singleton_self _))
  have hsplit : s.appended = before ++ front ++ [last] := by
    rw [← heq, append_assoc]
  rw [hsplit] at he
  have hincreasing : Increasing (before ++ front ++ [last]) := hsplit ▸ h.increasing
  rcases mem_append.mp he with he | he
  · exact ((pairwise_append.mp hincreasing).2.2 e he last (mem_singleton_self _)).trans hlast
  · rwa [mem_singleton.mp he]

theorem step {a : Event} (h : Sound codec s) (ha : KeepsLast s a)
    (hstep : WalSequences.step codec s a = some t) : Sound codec t := by
  cases a with
  | append r => exact h.append hstep
  | truncate => exact Option.some.inj hstep ▸ h.truncate
  | close => exact Option.some.inj hstep ▸ { h with }
  | reopen => exact h.reopen ha hstep

end Sound

/-- The offset of an entry separates what was appended up to it from what came later. -/
theorem Increasing.filter_gt {before after : List WalEntry} {e : WalEntry}
    (h : Increasing (before ++ e :: after)) :
    (before ++ e :: after).filter (e.sequence < ·.sequence) = after := by
  obtain ⟨-, hafter, hbefore⟩ := pairwise_append.mp h
  rw [filter_append, filter_cons_of_neg (by simp),
    filter_eq_nil_iff.mpr, nil_append, filter_eq_self.mpr]
  · intro x hx
    exact decide_eq_true ((pairwise_cons.mp hafter).1 x hx)
  · intro x hx
    have hlt := hbefore x hx e mem_cons_self
    simp only [decide_eq_true_eq]
    omega

/-- In every history whose reopenings find the last entry in the file, the numbers that
`append` gives out grow, and the offset of any entry separates the entries up to it from
the later ones. -/
theorem appended_increasing {codec : Codec} {s : History}
    (h : Reaches (step codec) KeepsLast start s) :
    Increasing s.appended ∧ ∀ before e after, s.appended = before ++ e :: after →
      s.appended.filter (e.sequence < ·.sequence) = after := by
  have hsound : Sound codec s :=
    h.invariant (Sound codec) (Sound.start codec) fun _ _ _ hu ha hw => hu.step ha hw
  refine ⟨hsound.increasing, fun before e after heq => ?_⟩
  have hincreasing := hsound.increasing
  rw [heq] at hincreasing ⊢
  exact hincreasing.filter_gt

/-- Two entries, of which the first is flushed and truncated away, then a restart and a
third entry. -/
theorem appended_increasing_of_restart : ∃ s : History,
    Reaches (step tallyCodec) KeepsLast start s ∧
      s.appended.map (·.sequence) = [0, 1, 2] ∧ Increasing s.appended := by
  obtain ⟨s, hs, htest⟩ := exists_reaches (step tallyCodec) KeepsLast start
    [.append (sampleRequest "1".toList), .truncate, .append (sampleRequest "2".toList), .close,
      .reopen, .append (sampleRequest "3".toList)]
    (fun s => s.appended.map (·.sequence) = [0, 1, 2]) (by decide +kernel)
  exact ⟨s, hs, htest, (appended_increasing hs).1⟩

/-- After a truncation and a restart the second entry gets the number of the first. -/
theorem repeated_sequence_of_truncate :
    ¬∀ (codec : Codec) (s : History), Reaches (step codec) (fun _ _ => True) start s →
      Increasing s.appended := by
  intro hall
  obtain ⟨s, hs, htest⟩ := exists_reaches (step tallyCodec) (fun _ _ => True) start
    [.append (sampleRequest "1".toList), .truncate, .close, .reopen,
      .append (sampleRequest "2".toList)]
    (fun s => s.appended.map (·.sequence) = [0, 0]) (by decide +kernel)
  have hnumbers : (s.appended.map (·.sequence)).Pairwise (· < ·) :=
    pairwise_map.mpr (hall tallyCodec s hs)
  rw [htest] at hnumbers
  exact absurd hnumbers (by decide)

end LiteDB.WalSequences
