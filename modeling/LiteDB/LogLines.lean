import LiteDB.Runs
import Mathlib.Data.List.DropRight

namespace LiteDB.LogLines

open List Runs

/-- `json.dumps` and `json.loads` on the entries of a log, which are objects. The text of an
object is printable, and no proper part of it from its beginning on is a JSON text. -/
structure Json (E : Type) where
  dumps : E → List Char
  loads : List Char → Option E
  loads_dumps : ∀ e, loads (dumps e) = some e
  printable : ∀ e, ∀ c ∈ dumps e, ' ' ≤ c ∧ c ≤ '~'
  braces : ∀ e, ∃ body, dumps e = '{' :: (body ++ ['}'])
  torn : ∀ e text, text <+: dumps e → text ≠ dumps e → loads text = none

section Text

/-- The line ends that reading a file in text mode translates. -/
def universalNewlines : List Char → List Char
  | [] => []
  | '\r' :: '\n' :: s => '\n' :: universalNewlines s
  | '\r' :: s => '\n' :: universalNewlines s
  | c :: s => c :: universalNewlines s

def isSpace (c : Char) : Bool :=
  (9 ≤ c.toNat && c.toNat ≤ 13) || (28 ≤ c.toNat && c.toNat ≤ 32) || c.toNat == 0x85 ||
    c.toNat == 0xa0 || c.toNat == 0x1680 || (0x2000 ≤ c.toNat && c.toNat ≤ 0x200a) ||
    c.toNat == 0x2028 || c.toNat == 0x2029 || c.toNat == 0x202f || c.toNat == 0x205f ||
    c.toNat == 0x3000

def strip (s : List Char) : List Char :=
  (s.dropWhile isSpace).rdropWhile isSpace

variable {s : List Char}

theorem universalNewlines_eq_self (h : '\r' ∉ s) : universalNewlines s = s := by
  induction s with
  | nil => rfl
  | cons c s ih =>
    rw [mem_cons, not_or] at h
    obtain ⟨hc, hs⟩ := h
    rw [universalNewlines, ih hs]
    · rintro t rfl rfl
      exact hc rfl
    · rintro rfl
      exact hc rfl

theorem strip_cons_brace (s : List Char) : strip ('{' :: s) = ('{' :: s).rdropWhile isSpace := by
  rw [strip, dropWhile_cons_of_neg (by decide)]

theorem strip_of_brace (s : List Char) : strip ('{' :: s) <+: '{' :: s ∧ strip ('{' :: s) ≠ [] := by
  rw [strip_cons_brace]
  refine ⟨List.rdropWhile_prefix _ _, fun hnil => ?_⟩
  have hbrace := rdropWhile_eq_nil_iff.mp hnil '{' (by simp)
  revert hbrace
  decide

theorem strip_of_braces (body : List Char) :
    strip ('{' :: (body ++ ['}'])) = '{' :: (body ++ ['}']) := by
  rw [strip_cons_brace, ← cons_append, rdropWhile_concat_neg _ _ _ (by decide)]

end Text

section Files

variable {E : Type} (J : Json E)

/-- What `_append_log_persist` writes. -/
def line (e : E) : List Char := J.dumps e ++ ['\n']

/-- What `_rewrite_log` writes. -/
def lines (log : List E) : List Char := log.flatMap (line J)

/-- The loop of `_recover`; `none` stands for an exception. -/
def recover (file : List Char) : Option (List E) :=
  ((((universalNewlines file).splitOnP (· == '\n')).map strip).filter (· ≠ [])).mapM J.loads

variable {J} {c : Char} {k : Nat}

theorem not_mem_dumps (e : E) (hc : c < ' ') : c ∉ J.dumps e := by
  intro hmem
  exact absurd (J.printable e c hmem).1 (Char.not_le.mpr hc)

theorem not_mem_lines (log : List E) (hc : c < ' ') (hne : c ≠ '\n') : c ∉ lines J log := by
  intro hmem
  obtain ⟨e, -, hline⟩ := mem_flatMap.mp hmem
  rcases mem_append.mp hline with hdumps | hend
  · exact not_mem_dumps e hc hdumps
  · exact hne (mem_singleton.mp hend)

theorem strip_dumps (e : E) : strip (J.dumps e) = J.dumps e ∧ J.dumps e ≠ [] := by
  obtain ⟨body, hbody⟩ := J.braces e
  rw [hbody]
  exact ⟨strip_of_braces body, by simp⟩

variable (log : List E)

theorem splitOnP_lines (s : List Char) :
    (lines J log ++ s).splitOnP (· == '\n') = log.map J.dumps ++ s.splitOnP (· == '\n') := by
  induction log with
  | nil => rfl
  | cons e log ih =>
    have hline : lines J (e :: log) ++ s = J.dumps e ++ '\n' :: (lines J log ++ s) := by
      simp [lines, line]
    have hplain : ∀ c ∈ J.dumps e, (c == '\n') = false := by
      intro c hc
      exact beq_eq_false_iff_ne.mpr fun heq => not_mem_dumps e (by decide) (heq ▸ hc)
    rw [hline, splitOnP_append_cons_of_forall_mem hplain '\n' (by simp), ih]
    rfl

theorem mapM_dumps : (log.map J.dumps).mapM J.loads = some log := by
  induction log with
  | nil => rfl
  | cons e log ih => simp [J.loads_dumps, ih]

theorem stripped_dumps : ((log.map J.dumps).map strip).filter (· ≠ []) = log.map J.dumps := by
  induction log with
  | nil => rfl
  | cons e log ih =>
    obtain ⟨hstrip, hne⟩ := strip_dumps (J := J) e
    simp only [map_cons, hstrip]
    rw [filter_cons_of_pos (by simpa using hne), ih]

theorem recover_lines_append {s : List Char} (hend : '\n' ∉ s) (hcr : '\r' ∉ s) :
    recover J (lines J log ++ s) =
      if strip s = [] then some log else (J.loads (strip s)).map fun e => log ++ [e] := by
  have hplain : '\r' ∉ lines J log ++ s := by
    rw [mem_append, not_or]
    exact ⟨not_mem_lines log (by decide) (by decide), hcr⟩
  have hsingle : s.splitOnP (· == '\n') = [s] := by
    refine splitOnP_eq_singleton fun c hc => ?_
    exact beq_eq_false_iff_ne.mpr fun heq => hend (heq ▸ hc)
  rw [recover, universalNewlines_eq_self hplain, splitOnP_lines, hsingle, map_append,
    filter_append, stripped_dumps, mapM_append, mapM_dumps]
  split
  · rename_i hempty
    simp [hempty]
  · rename_i hne
    cases hloads : J.loads (strip s) with
    | none => simp [hne, hloads]
    | some e => simp [hne, hloads]

theorem recover_lines : recover J (lines J log) = some log := by
  have hread := recover_lines_append (J := J) log (s := []) (by simp) (by simp)
  rwa [append_nil, if_pos (by rfl)] at hread

theorem recover_of_torn (e : E) (hpos : 0 < k) (hlt : k < (J.dumps e).length) :
    recover J (lines J log ++ (line J e).take k) = none := by
  have htake : (line J e).take k = (J.dumps e).take k := take_append_of_le_length hlt.le
  have hle : (J.dumps e).take k <+: J.dumps e := take_prefix _ _
  have hplain : ∀ c, c < ' ' → c ∉ (J.dumps e).take k :=
    fun c hc hmem => not_mem_dumps e hc (hle.subset hmem)
  obtain ⟨s, hs⟩ : ∃ s, (J.dumps e).take k = '{' :: s := by
    obtain ⟨body, hbody⟩ := J.braces e
    obtain ⟨m, rfl⟩ := Nat.exists_eq_succ_of_ne_zero hpos.ne'
    exact ⟨_, by rw [hbody, take_succ_cons]⟩
  obtain ⟨hstrip, hne⟩ := strip_of_brace s
  rw [htake, recover_lines_append log (hplain _ (by decide)) (hplain _ (by decide)), hs, if_neg hne]
  rw [hs] at hle
  -- what is left after stripping is still too short to be the whole text
  have hshort : strip ('{' :: s) ≠ J.dumps e := by
    intro heq
    have hlen := hstrip.length_le
    rw [heq, ← hs, length_take] at hlen
    omega
  rw [J.torn e _ (hstrip.trans hle) hshort]
  rfl

theorem recover_of_unterminated (e : E) :
    recover J (lines J log ++ J.dumps e) = some (log ++ [e]) := by
  obtain ⟨hstrip, hne⟩ := strip_dumps (J := J) e
  rw [recover_lines_append log (not_mem_dumps e (by decide)) (not_mem_dumps e (by decide)), hstrip,
    if_neg hne, J.loads_dumps]
  rfl

theorem recover_ne_of_torn (e : E) (hpos : 0 < k) (hlt : k < (line J e).length) :
    recover J (lines J log ++ (line J e).take k) ≠ some log := by
  rw [line, length_append, length_singleton] at hlt
  rcases Nat.lt_or_eq_of_le (Nat.le_of_lt_succ hlt) with hlt | rfl
  · rw [recover_of_torn log e hpos hlt]
    exact (Option.some_ne_none log).symm
  · rw [line, take_left, recover_of_unterminated]
    simp

end Files

/-- The file of a group, the log of the process that has it open, and the entries whose lines
were written completely and not dropped again, which are the `diskLog` of a replica. -/
structure Directory (E : Type) where
  file : List Char
  log : Option (List E)
  completed : List E

/-- `crash next count` stops the process when `count` bytes of the next line are in the file. -/
inductive Event (E : Type) where
  | construct
  | append (e : E)
  | truncate (length : Nat)
  | crash (next : E) (count : Nat)

section Steps

variable {E : Type} (J : Json E)

def init : Directory E := ⟨[], none, []⟩

/-- A constructor that raises leaves no process. -/
def step (s : Directory E) : Event E → Option (Directory E)
  | .construct => some { s with log := recover J s.file }
  | .append e => s.log.map fun log =>
      ⟨s.file ++ line J e, some (log ++ [e]), s.completed ++ [e]⟩
  | .truncate length => s.log.map fun log =>
      ⟨lines J (log.take length), some (log.take length), log.take length⟩
  | .crash next count => s.log.map fun _ =>
      ⟨s.file ++ (line J next).take count, none,
        if (line J next).length ≤ count then s.completed ++ [next] else s.completed⟩

/-- A crash leaves nothing of the next line, or all of it. -/
def Whole (_ : Directory E) : Event E → Prop
  | .crash next count => count = 0 ∨ (line J next).length ≤ count
  | _ => True

instance (s : Directory E) (a : Event E) : Decidable (Whole J s a) := by
  unfold Whole
  split <;> infer_instance

/-- Constructing a group on the file gives the completed entries. -/
def Restores (s : Directory E) : Prop := recover J s.file = some s.completed

/-- The file has the lines of the completed appends. -/
structure Inv (s : Directory E) : Prop where
  file : s.file = lines J s.completed
  log : ∀ log, s.log = some log → log = s.completed

variable {J} {s t : Directory E}

theorem lines_concat (log : List E) (e : E) : lines J (log ++ [e]) = lines J log ++ line J e := by
  simp [lines]

theorem Inv.restores (h : Inv J s) : Restores J s := by
  rw [Restores, h.file, recover_lines]

theorem Inv.step {a : Event E} (h : Inv J s) (ha : Whole J s a)
    (hstep : LogLines.step J s a = some t) : Inv J t := by
  cases a with
  | construct =>
    cases hstep
    refine ⟨h.file, fun log hlog => ?_⟩
    exact Option.some.inj (hlog.symm.trans h.restores)
  | append e =>
    obtain ⟨log, hlog, rfl⟩ := Option.map_eq_some_iff.mp hstep
    refine ⟨?_, fun log' hlog' => ?_⟩
    · rw [lines_concat, h.file]
    · rw [← Option.some.inj hlog', h.log log hlog]
  | truncate length =>
    obtain ⟨log, hlog, rfl⟩ := Option.map_eq_some_iff.mp hstep
    exact ⟨rfl, fun log' hlog' => (Option.some.inj hlog').symm⟩
  | crash next count =>
    obtain ⟨log, hlog, rfl⟩ := Option.map_eq_some_iff.mp hstep
    refine ⟨?_, nofun⟩
    rcases ha with rfl | hwhole
    · have hnot : ¬(line J next).length ≤ 0 := by simp [line]
      simp only [if_neg hnot, take_zero, append_nil]
      exact h.file
    · simp only [if_pos hwhole, take_of_length_le hwhole]
      rw [lines_concat, h.file]

theorem restores_of_reaches (h : Reaches (step J) (Whole J) init s) : Restores J s := by
  have hinv : Inv J s := h.invariant (Inv J) ⟨rfl, nofun⟩ fun _ _ _ hu ha hstep => hu.step ha hstep
  exact hinv.restores

end Steps

def sampleText : Bool → List Char
  | false => "\x7b\"term\": 1, \"index\": 1, \"command\": \x7b\"op\": \"noop\"\x7d\x7d".toList
  | true => "\x7b\"term\": 1, \"index\": 2, \"command\": \x7b\"op\": \"abort\"\x7d\x7d".toList

def sampleLoads (text : List Char) : Option Bool :=
  if text = sampleText false then some false
  else if text = sampleText true then some true
  else none

def sample : Json Bool where
  dumps := sampleText
  loads := sampleLoads
  loads_dumps := by decide
  printable := by
    have hall : ∀ e, ((sampleText e).all fun c => ' ' ≤ c ∧ c ≤ '~') = true := by decide
    intro e c hc
    simpa using all_eq_true.mp (hall e) c hc
  braces e := by
    refine ⟨((sampleText e).drop 1).dropLast, ?_⟩
    revert e
    decide
  torn := by
    intro e text hle hne
    have hother : ∀ e', text ≠ sampleText e' := by
      rintro e' rfl
      have hnot : ∀ e e' : Bool, sampleText e' <+: sampleText e → e' = e := by decide
      exact hne (hnot e e' hle ▸ rfl)
    rw [sampleLoads, if_neg (hother false), if_neg (hother true)]

/-- The process stops before an append and after one, and the file is read again. -/
def stopped : List (Event Bool) :=
  [.construct, .append false, .crash true 0, .construct, .crash true 100, .construct]

theorem restores_of_stopped : ∃ s, Reaches (step sample) (Whole sample) init s ∧
    s.log = some [false, true] ∧ Restores sample s := by
  obtain ⟨s, hs, htest⟩ := exists_reaches (step sample) (Whole sample) init stopped
    (fun s => s.log = some [false, true]) (by decide +kernel)
  exact ⟨s, hs, htest, restores_of_reaches hs⟩

def cut : List (Event Bool) := [.construct, .append false, .crash true 20]

theorem not_restores_of_cut : ¬∀ s, Reaches (step sample) (fun _ _ => True) init s →
    Restores sample s := by
  intro hall
  obtain ⟨s, hs, hfile, hcompleted⟩ := exists_reaches (step sample) (fun _ _ => True) init cut
    (fun s => s.file = lines sample [false] ++ (line sample true).take 20 ∧ s.completed = [false])
    (by decide +kernel)
  have hrestored := hall s hs
  rw [Restores, hfile, hcompleted] at hrestored
  exact recover_ne_of_torn [false] true (by decide) (by decide) hrestored

end LiteDB.LogLines
