import LiteDB.LsmMap
import LiteDB.MvccSpec
import Mathlib.Data.List.Induction

namespace LiteDB.SnapshotIsolation

open IndexedLists
open List hiding lookup
open LsmMap (lsmEngine)
open Mvcc MvccSpec Option Runs SortedMaps StorageEngines VersionKeys

variable {E : StorageEngine} {userKey : Text → Prop} {s t : State E}

variable {i : Nat} {x : Transaction} {a : Event E}

/-- What a call of a transaction makes of its buffer. -/
inductive Calls (i : Nat) (x : Transaction) : Event E → Transaction → Prop where
  | put (key value : Text) : Calls i x (.put i key value) (x.put key value)
  | delete (key : Text) : Calls i x (.delete i key) (x.delete key)

/-- The steps of a transaction outside of the commit lock, which change nothing else. -/
inductive Moves (i : Nat) (x : Transaction) : Event E → Transaction → Prop where
  | buffer {a : Event E} {y : Transaction} (hactive : x.phase = .active) (h : Calls i x a y) :
      Moves i x a y
  | rollback (hactive : x.phase = .active) :
      Moves i x (.rollback i) { x with writes := Dict.empty, phase := .rolledBack }
  | forget (hended : x.phase.ended) : Moves i x (.rollback i) { x with writes := Dict.empty }
  | commit (hactive : x.phase = .active) : Moves i x (.commit i) { x with phase := .waiting }

/-- The steps of a transaction that takes or holds the commit lock. -/
inductive Locked (s : State E) (i : Nat) (x : Transaction) : Event E → State E → Prop where
  | acquire (hphase : x.phase = .waiting) (hlock : s.commitLock = none) :
      Locked s i x (.acquire i)
        { s.setPhase i x (.checking (x.writes.entries.map Prod.fst)) with commitLock := some i }
  | pass {key : Text} {rest : List Text} {newest : Int} (hphase : x.phase = .checking (key :: rest))
      (hnewest : s.mvcc.newestCommittedTs key = some newest) (hle : newest ≤ x.readTs) :
      Locked s i x (.check i) (s.setPhase i x (.checking rest))
  | abort {key : Text} {rest : List Text} {phase : Phase}
      (hphase : x.phase = .checking (key :: rest)) (hend : phase = .conflicted ∨ phase = .raised) :
      Locked s i x (.check i) (abort s i x phase)
  | stamp (hphase : x.phase = .checking []) :
      Locked s i x (.stamp i)
        { s.setPhase i x (.stamped (s.mvcc.oracle + 1)) with
          mvcc := { s.mvcc with oracle := s.mvcc.oracle + 1 } }
  | write {commitTs : Int} (hphase : x.phase = .stamped commitTs) :
      Locked s i x (.write i)
        { s.setPhase i x (.written commitTs) with
          mvcc := { s.mvcc with
            engine := E.writeBatch s.mvcc.engine (commitOps x.writes commitTs) }
          log := s.log ++ [⟨i, x.base, commitTs, x.writes, x.buffered⟩] }
  | publish {commitTs : Int} (hphase : x.phase = .written commitTs) :
      Locked s i x (.publish i)
        { s.setPhase i x (.committed commitTs) with
          mvcc := { s.mvcc with lastCommitTs := commitTs }
          commitLock := none
          published := s.log.length }

/-- What a step can do. -/
inductive Change (s : State E) : Event E → State E → Prop where
  | begin : Change s .begin { s with
      txns := s.txns ++ [⟨s.mvcc.lastCommitTs, Dict.empty, .active, [], s.published⟩] }
  | maintain (m : E.Maintenance) : Change s (.maintain m)
      { s with mvcc := { s.mvcc with engine := E.maintain s.mvcc.engine m } }
  | move {i : Nat} {x y : Transaction} {a : Event E} (hx : s.txns[i]? = some x)
      (h : Moves i x a y) : Change s a (s.setTxn i y)
  | locked {i : Nat} {x : Transaction} {a : Event E} {t : State E} (hx : s.txns[i]? = some x)
      (h : Locked s i x a t) : Change s a t

theorem change_of_check {key : Text} {rest : List Text} (hx : s.txns[i]? = some x)
    (hphase : x.phase = .checking (key :: rest)) : Change s (.check i) (check s i x key rest) := by
  unfold check
  split
  · exact .locked hx (.abort hphase (.inr rfl))
  · rename_i newest hnewest
    split
    · exact .locked hx (.abort hphase (.inl rfl))
    · rename_i hle
      exact .locked hx (.pass hphase hnewest (not_lt.mp hle))

theorem change_of_rollback (hx : s.txns[i]? = some x) (h : rollback s i x = some t) :
    Change s (.rollback i) t := by
  unfold rollback at h
  split at h
  · rename_i hactive
    cases h
    exact .move hx (.rollback hactive)
  · split at h <;> cases h
    rename_i hended
    exact .move hx (.forget hended)

theorem change_of_stepTxn (ha : a.txn = some i) (hx : s.txns[i]? = some x)
    (h : stepTxn s i x a = some t) : Change s a t := by
  cases a with
  | begin | maintain => simp [Event.txn] at ha
  | rollback j =>
    cases ha
    exact change_of_rollback hx h
  | check j =>
    cases ha
    simp only [stepTxn] at h
    split at h <;> cases h
    rename_i key rest hphase
    exact change_of_check hx hphase
  | put j | delete j | commit j | acquire j | stamp j | write j | publish j =>
    cases ha
    simp only [stepTxn] at h
    split at h <;> cases h
    rename_i hphase
    first
      | exact .move hx (.buffer hphase (.put _ _))
      | exact .move hx (.buffer hphase (.delete _))
      | exact .move hx (.commit hphase)
      | exact .locked hx (.acquire hphase.1 hphase.2)
      | exact .locked hx (.stamp hphase)
      | exact .locked hx (.write hphase)
      | exact .locked hx (.publish hphase)

theorem change_of_step (h : step s a = some t) : Change s a t := by
  have htxn : (a.txn.bind fun i => s.txns[i]?.bind fun x => stepTxn s i x a) = some t →
      Change s a t := by
    intro hbind
    obtain ⟨i, hi, hrest⟩ := bind_eq_some_iff.mp hbind
    obtain ⟨x, hx, hstep⟩ := bind_eq_some_iff.mp hrest
    exact change_of_stepTxn hi hx hstep
  cases a with
  | begin =>
    cases h
    exact .begin
  | maintain m =>
    cases h
    exact .maintain m
  | put | delete | rollback | commit | acquire | check | stamp | write | publish => exact htxn h

section Invariant

def Untouched (E : StorageEngine) (log : List Record) (base : Nat) (key : Text) : Prop :=
  ∀ r ∈ log.drop base, kept E r key = none

def Unlogged (log : List Record) (i : Nat) : Prop := ∀ r ∈ log, r.txn ≠ i

/-- A timestamp lies between the first `n` transactions of the log and the others. -/
structure Cut (log : List Record) (n : Nat) (ts : Int) : Prop where
  le_length : n ≤ log.length
  before : ∀ r ∈ log.take n, r.commitTs ≤ ts
  after : ∀ r ∈ log.drop n, ts < r.commitTs

/-- A transaction with the base `n` reads at the end of its base. -/
structure Begun (log : List Record) (lastCommitTs : Int) (n : Nat) (readTs : Int) : Prop where
  cut : Cut log n readTs
  nonneg : 0 ≤ readTs
  le_last : readTs ≤ lastCommitTs

/-- The dictionary of the writes has the last call for each key, and the keys are user
keys. -/
structure Mirrors (userKey : Text → Prop) (writes : Dict Text Text)
    (calls : List (Text × Option Text)) : Prop where
  get? : ∀ key, writes.get? key = (lastCall calls key).map fun value => value.getD tombstone
  keys : ∀ e ∈ writes.entries, userKey e.1

/-- What the phase of a transaction says about the lock and about the log. -/
def Progress (s : State E) (i : Nat) (x : Transaction) : Prop :=
  match x.phase with
  | .checking rest => s.commitLock = some i ∧ s.published = s.log.length ∧ Unlogged s.log i ∧
      ∀ key ∈ x.writes.entries.map Prod.fst, key ∉ rest → Untouched E s.log x.base key
  | .stamped commitTs => s.commitLock = some i ∧ s.published = s.log.length ∧ Unlogged s.log i ∧
      commitTs = s.mvcc.oracle ∧ (∀ r ∈ s.log, r.commitTs < commitTs) ∧
      s.mvcc.lastCommitTs < commitTs ∧
      ∀ key ∈ x.writes.entries.map Prod.fst, Untouched E s.log x.base key
  | .written commitTs => s.commitLock = some i ∧ s.mvcc.lastCommitTs < commitTs ∧
      commitTs ≤ s.mvcc.oracle ∧ ∀ r ∈ s.log, r.commitTs ≤ commitTs
  | .committed _ => s.commitLock ≠ some i
  | _ => s.commitLock ≠ some i ∧ Unlogged s.log i

/-- The engine holds the log of written transactions, and everyone began at a part of it. -/
structure Inv (userKey : Text → Prop) (s : State E) : Prop where
  holds : Holds userKey s.mvcc.engine s.log
  oracle : s.mvcc.oracle ≤ maxTs
  stamped : ∀ r ∈ s.log, 0 < r.commitTs ∧ r.commitTs ≤ s.mvcc.oracle
  last : Begun s.log s.mvcc.lastCommitTs s.published s.mvcc.lastCommitTs
  last_le : s.mvcc.lastCommitTs ≤ s.mvcc.oracle
  free : s.commitLock = none → s.published = s.log.length
  holder : ∀ i, s.commitLock = some i → i < s.txns.length
  logged : ∀ r ∈ s.log, r.txn < s.txns.length ∧ Mirrors userKey r.writes r.buffered
  exclusive : ∀ (j : Nat) (q : Record), s.log[j]? = some q →
    ∀ key ∈ q.writes.entries.map Prod.fst, Untouched E (s.log.take j) q.base key
  txns : ∀ (i : Nat) (x : Transaction), s.txns[i]? = some x →
    Begun s.log s.mvcc.lastCommitTs x.base x.readTs ∧
      (x.phase.ended = false → Mirrors userKey x.writes x.buffered) ∧ Progress s i x

variable {log : List Record} {n : Nat} {ts readTs : Int} {r : Record}

theorem Cut.concat (h : Cut log n ts) (hr : ts < r.commitTs) : Cut (log ++ [r]) n ts := by
  refine ⟨h.le_length.trans (by simp), ?_, ?_⟩
  · rw [take_append_of_le_length h.le_length]
    exact h.before
  · rw [drop_append_of_le_length h.le_length]
    intro x hx
    rcases mem_append.mp hx with hx | hx
    · exact h.after x hx
    · rw [mem_singleton.mp hx]
      exact hr

theorem Cut.filter_eq (h : Cut log n ts) : log.filter (fun r => r.commitTs ≤ ts) = log.take n := by
  conv_lhs => rw [← take_append_drop n log]
  rw [filter_append, filter_eq_self.mpr fun r hr => decide_eq_true (h.before r hr),
    filter_eq_nil_iff.mpr fun r hr => by simpa using h.after r hr, append_nil]

/-- Without the lock a transaction does not depend on what the others do under it. -/
theorem Progress.frame {j : Nat} {x : Transaction} (h : Progress s j x)
    (hlock : s.commitLock ≠ some j) (hlock' : t.commitLock ≠ some j)
    (hlog : Unlogged s.log j → Unlogged t.log j) : Progress t j x := by
  unfold Progress at h ⊢
  cases hphase : x.phase with
  | checking | stamped | written =>
    rw [hphase] at h
    exact absurd h.1 hlock
  | committed => exact hlock'
  | active | waiting | conflicted | raised | rolledBack =>
    rw [hphase] at h
    exact ⟨hlock', hlog h.2⟩

theorem length_setTxn (s : State E) (i : Nat) (y : Transaction) :
    (s.setTxn i y).txns.length = s.txns.length := by
  simp [State.setTxn]

theorem Begun.concat {last : Int} (h : Begun log last n readTs) (hr : last < r.commitTs) :
    Begun (log ++ [r]) last n readTs :=
  ⟨h.cut.concat (h.le_last.trans_lt hr), h.nonneg, h.le_last⟩

theorem Begun.mono {last last' : Int} (h : Begun log last n readTs) (hle : last ≤ last') :
    Begun log last' n readTs :=
  ⟨h.cut, h.nonneg, h.le_last.trans hle⟩

end Invariant

variable {y : Transaction}

section Steps

/-- The keys are user keys, and the timestamps do not run out. -/
def Legal (userKey : Text → Prop) (s : State E) : Event E → Prop
  | .put _ key _ => userKey key
  | .delete _ key => userKey key
  | .stamp _ => s.mvcc.oracle < maxTs
  | _ => True

instance [DecidablePred userKey] (s : State E) (a : Event E) : Decidable (Legal userKey s a) := by
  unfold Legal
  split <;> infer_instance

theorem mirrors_empty : Mirrors userKey Dict.empty [] := ⟨fun _ => rfl, by simp [Dict.empty]⟩

theorem Mirrors.concat {writes : Dict Text Text} {calls : List (Text × Option Text)} {key : Text}
    (h : Mirrors userKey writes calls) (hkey : userKey key) (value : Option Text) :
    Mirrors userKey (writes.set key (value.getD tombstone)) (calls ++ [(key, value)]) := by
  refine ⟨fun k => ?_, ?_⟩
  · have hlast : lastCall (calls ++ [(key, value)]) k =
        if k = key then some value else lastCall calls k := by
      by_cases hk : k = key
      · simp [lastCall, lookup, hk]
      · simp [lastCall, lookup, hk, Ne.symm hk]
    rw [Dict.get?_set, hlast, h.get? k]
    split <;> rfl
  · rintro ⟨k, v⟩ he
    rw [Dict.mem_set] at he
    split at he
    · rename_i hk
      exact hk ▸ hkey
    · exact h.keys _ he

variable {commitTs : Int}

variable (h : Inv userKey s)

include h

theorem Inv.setTxn (hbegun : Begun s.log s.mvcc.lastCommitTs y.base y.readTs)
    (hmirrors : y.phase.ended = false → Mirrors userKey y.writes y.buffered)
    (hprogress : Progress s i y) : Inv userKey (s.setTxn i y) := by
  refine { h with holder := ?_, logged := ?_, txns := ?_ }
  · simp only [length_setTxn]
    exact h.holder
  · simp only [length_setTxn]
    exact h.logged
  · intro j z hz
    rcases getElem?_set_cases hz with ⟨-, hz⟩ | ⟨rfl, rfl⟩
    · exact h.txns j z hz
    · exact ⟨hbegun, hmirrors, hprogress⟩

theorem Inv.move (ha : Legal userKey s a) (hx : s.txns[i]? = some x) (hmove : Moves i x a y) :
    Inv userKey (s.setTxn i y) := by
  obtain ⟨hbegun, hmirrors, hprogress⟩ := h.txns i x hx
  unfold Progress at hprogress
  cases hmove with
  | buffer hactive hcall =>
    rw [hactive] at hprogress hmirrors
    cases hcall with
    | put key value =>
      refine h.setTxn hbegun (fun _ => (hmirrors rfl).concat ha (some value)) ?_
      unfold Progress
      rw [show (x.put key value).phase = .active from hactive]
      exact hprogress
    | delete key =>
      refine h.setTxn hbegun (fun _ => (hmirrors rfl).concat ha none) ?_
      unfold Progress
      rw [show (x.delete key).phase = .active from hactive]
      exact hprogress
  | rollback hactive =>
    rw [hactive] at hprogress
    exact h.setTxn hbegun (by simp [Phase.ended]) hprogress
  | forget hended =>
    refine h.setTxn hbegun (by simp [hended]) ?_
    unfold Progress
    cases hphase : x.phase with
    | active | waiting | checking | stamped | written => simp [hphase, Phase.ended] at hended
    | committed | conflicted | raised | rolledBack =>
      rw [hphase] at hprogress
      exact hprogress
  | commit hactive =>
    rw [hactive] at hprogress hmirrors
    exact h.setTxn hbegun (fun _ => hmirrors rfl) hprogress

theorem Inv.begin : Inv userKey { s with
    txns := s.txns ++ [⟨s.mvcc.lastCommitTs, Dict.empty, .active, [], s.published⟩] } := by
  refine { h with holder := ?_, logged := ?_, txns := ?_ }
  · exact fun i hi => (h.holder i hi).trans (by simp)
  · exact fun r hr => ⟨(h.logged r hr).1.trans (by simp), (h.logged r hr).2⟩
  · intro i x hx
    rcases getElem?_concat_cases hx with hx | ⟨rfl, rfl⟩
    · exact h.txns i x hx
    · exact ⟨h.last, fun _ => mirrors_empty, fun hlock => absurd (h.holder _ hlock) (lt_irrefl _),
        fun r hr heq => absurd (h.logged r hr).1 (by omega)⟩

theorem Inv.maintain (m : E.Maintenance) : Inv userKey
    { s with mvcc := { s.mvcc with engine := E.maintain s.mvcc.engine m } } := by
  have hholds : Holds userKey (E.maintain s.mvcc.engine m) s.log :=
    { h.holds with stored := by rw [E.contents_maintain]; exact h.holds.stored }
  exact { h with holds := hholds }

theorem Inv.relock {phase : Phase} {lock : Option Nat} (hx : s.txns[i]? = some x)
    (hended : x.phase.ended = false) (hold : ∀ j, s.commitLock = some j → i = j)
    (hlock : ∀ j, lock = some j → i = j) (hfree : lock = none → s.published = s.log.length)
    (hprogress : Progress { s with commitLock := lock } i { x with phase := phase }) :
    Inv userKey { s.setPhase i x phase with commitLock := lock } := by
  obtain ⟨hbegun, hmirrors, -⟩ := h.txns i x hx
  refine { h with free := hfree, holder := ?_, logged := ?_, txns := ?_ }
  · intro j hj
    rw [← hlock j hj, State.setPhase, length_setTxn]
    exact lt_length_of_getElem? hx
  · simp only [State.setPhase, length_setTxn]
    exact h.logged
  · intro j z hz
    rcases getElem?_set_cases hz with ⟨hj, hz⟩ | ⟨rfl, rfl⟩
    · obtain ⟨hzbegun, hzmirrors, hzprogress⟩ := h.txns j z hz
      exact ⟨hzbegun, hzmirrors,
        hzprogress.frame (fun hl => hj (hold j hl)) (fun hl => hj (hlock j hl)) id⟩
    · exact ⟨hbegun, fun _ => hmirrors hended, hprogress⟩

theorem Inv.stamp (hx : s.txns[i]? = some x) (hphase : x.phase = .checking [])
    (hmax : s.mvcc.oracle < maxTs) : Inv userKey
      { s.setPhase i x (.stamped (s.mvcc.oracle + 1)) with
        mvcc := { s.mvcc with oracle := s.mvcc.oracle + 1 } } := by
  obtain ⟨hbegun, hmirrors, hprogress⟩ := h.txns i x hx
  unfold Progress at hprogress
  rw [hphase] at hprogress hmirrors
  obtain ⟨hlock, hpublished, hunlogged, huntouched⟩ := hprogress
  have hbelow : ∀ r ∈ s.log, r.commitTs < s.mvcc.oracle + 1 :=
    fun r hr => (h.stamped r hr).2.trans_lt (lt_add_one _)
  refine ⟨h.holds, hmax, fun r hr => ⟨(h.stamped r hr).1, (hbelow r hr).le⟩, h.last,
    h.last_le.trans (lt_add_one _).le, h.free, ?_, ?_, h.exclusive, ?_⟩
  · simp only [State.setPhase, length_setTxn]
    exact h.holder
  · simp only [State.setPhase, length_setTxn]
    exact h.logged
  · intro j z hz
    rcases getElem?_set_cases hz with ⟨hj, hz⟩ | ⟨rfl, rfl⟩
    · obtain ⟨hzbegun, hzmirrors, hzprogress⟩ := h.txns j z hz
      have hother : s.commitLock ≠ some j := by simpa [hlock] using hj
      exact ⟨hzbegun, hzmirrors, hzprogress.frame hother hother id⟩
    · exact ⟨hbegun, fun _ => hmirrors rfl, hlock, hpublished, hunlogged, rfl, hbelow,
        h.last_le.trans_lt (lt_add_one _), fun key hkey => huntouched key hkey (by simp)⟩

/-- The versions of a transaction come behind those of all others. -/
theorem Inv.write (hx : s.txns[i]? = some x)
    (hphase : x.phase = .stamped commitTs) : Inv userKey
      { s.setPhase i x (.written commitTs) with
        mvcc := { s.mvcc with
          engine := E.writeBatch s.mvcc.engine (commitOps x.writes commitTs) }
        log := s.log ++ [⟨i, x.base, commitTs, x.writes, x.buffered⟩] } := by
  obtain ⟨hbegun, hmirrors, hprogress⟩ := h.txns i x hx
  unfold Progress at hprogress
  rw [hphase] at hprogress hmirrors
  obtain ⟨hlock, hpublished, hunlogged, hts, hbelow, hlast, huntouched⟩ := hprogress
  have hpos : 0 < commitTs := h.last.nonneg.trans_lt hlast
  refine ⟨h.holds.concat (r := ⟨i, x.base, commitTs, x.writes, x.buffered⟩)
      ⟨hpos.le, hts ▸ h.oracle⟩ hbelow (hmirrors rfl).keys,
    h.oracle, forall_mem_concat h.stamped ⟨hpos, hts.le⟩, h.last.concat hlast, h.last_le, ?_, ?_,
    ?_, ?_, ?_⟩
  · exact fun hfree => absurd (hfree.symm.trans hlock) (by simp)
  · simp only [State.setPhase, length_setTxn]
    exact h.holder
  · simp only [State.setPhase, length_setTxn]
    exact forall_mem_concat h.logged ⟨h.holder i hlock, hmirrors rfl⟩
  · intro j q hq key hkey
    rcases getElem?_concat_cases hq with hq | ⟨rfl, rfl⟩
    · rw [take_append_of_le_length (lt_length_of_getElem? hq).le]
      exact h.exclusive j q hq key hkey
    · rw [take_left]
      exact huntouched key hkey
  · intro j z hz
    rcases getElem?_set_cases hz with ⟨hj, hz⟩ | ⟨rfl, rfl⟩
    · obtain ⟨hzbegun, hzmirrors, hzprogress⟩ := h.txns j z hz
      have hother : s.commitLock ≠ some j := by simpa [hlock] using hj
      exact ⟨hzbegun.concat hlast, hzmirrors,
        hzprogress.frame hother hother fun hun => forall_mem_concat hun hj⟩
    · exact ⟨hbegun.concat hlast, fun _ => hmirrors rfl, hlock, hlast, hts.le,
        forall_mem_concat (fun r hr => (hbelow r hr).le) le_rfl⟩

theorem Inv.publish (hx : s.txns[i]? = some x)
    (hphase : x.phase = .written commitTs) : Inv userKey
      { s.setPhase i x (.committed commitTs) with
        mvcc := { s.mvcc with lastCommitTs := commitTs }
        commitLock := none
        published := s.log.length } := by
  obtain ⟨hbegun, hmirrors, hprogress⟩ := h.txns i x hx
  unfold Progress at hprogress
  rw [hphase] at hprogress hmirrors
  obtain ⟨hlock, hlast, hle, hall⟩ := hprogress
  have hcut : Cut s.log s.log.length commitTs := ⟨le_rfl, by simpa using hall, by simp⟩
  refine ⟨h.holds, h.oracle, h.stamped, ⟨hcut, h.last.nonneg.trans hlast.le, le_rfl⟩, hle,
    fun _ => rfl, by simp, ?_, h.exclusive, ?_⟩
  · simp only [State.setPhase, length_setTxn]
    exact h.logged
  · intro j z hz
    rcases getElem?_set_cases hz with ⟨hj, hz⟩ | ⟨rfl, rfl⟩
    · obtain ⟨hzbegun, hzmirrors, hzprogress⟩ := h.txns j z hz
      exact ⟨hzbegun.mono hlast.le, hzmirrors,
        hzprogress.frame (by simpa [hlock] using hj) (by simp) id⟩
    · exact ⟨hbegun.mono hlast.le, fun _ => hmirrors rfl, by simp [Progress]⟩

theorem Inv.untouched_of_newest (hsep : Separated userKey) {n : Nat}
    {key : Text} {readTs newest : Int} (hbegun : Begun s.log s.mvcc.lastCommitTs n readTs)
    (hkey : userKey key) (hnewest : s.mvcc.newestCommittedTs key = some newest)
    (hle : newest ≤ readTs) : Untouched E s.log n key := by
  obtain ⟨newest', hnewest', hall, -⟩ := h.holds.newestCommittedTs_eq hsep hkey
  obtain rfl : newest = newest' := Option.some.inj (hnewest.symm.trans hnewest')
  intro r hr
  by_contra hkept
  have hafter := hbegun.cut.after r hr
  have hbefore := hall r (mem_of_mem_drop hr) (isSome_iff_ne_none.mpr hkept)
  omega

theorem Inv.locked (hsep : Separated userKey) (ha : Legal userKey s a) (hx : s.txns[i]? = some x)
    (hlocked : Locked s i x a t) : Inv userKey t := by
  obtain ⟨hbegun, hmirrors, hprogress⟩ := h.txns i x hx
  unfold Progress at hprogress
  cases hlocked with
  | acquire hphase hlock =>
    rw [hphase] at hprogress
    exact h.relock hx (by simp [hphase, Phase.ended]) (by simp [hlock]) (by simp) (by simp)
      ⟨rfl, h.free hlock, hprogress.2, fun key hkey hrest => absurd hkey hrest⟩
  | @pass key rest newest hphase hnewest hle =>
    rw [hphase] at hprogress hmirrors
    obtain ⟨hlock, hpublished, hunlogged, huntouched⟩ := hprogress
    refine h.setTxn hbegun (fun _ => hmirrors rfl)
      ⟨hlock, hpublished, hunlogged, fun k hk hrest => ?_⟩
    by_cases hkey : k = key
    · subst hkey
      obtain ⟨e, he, rfl⟩ := mem_map.mp hk
      exact h.untouched_of_newest hsep hbegun ((hmirrors rfl).keys e he) hnewest hle
    · exact huntouched k hk (by simp [hkey, hrest])
  | abort hphase hend =>
    rw [hphase] at hprogress
    obtain ⟨hlock, hpublished, hunlogged, -⟩ := hprogress
    refine h.relock hx (by simp [hphase, Phase.ended]) (by simp [hlock]) (by simp)
      (fun _ => hpublished) ?_
    rcases hend with rfl | rfl
    · exact ⟨by simp, hunlogged⟩
    · exact ⟨by simp, hunlogged⟩
  | stamp hphase => exact h.stamp hx hphase ha
  | write hphase => exact h.write hx hphase
  | publish hphase => exact h.publish hx hphase

theorem Inv.step (hsep : Separated userKey) (ha : Legal userKey s a)
    (hstep : step s a = some t) : Inv userKey t := by
  cases change_of_step hstep with
  | begin => exact h.begin
  | maintain m => exact h.maintain m
  | move hx hmove => exact h.move ha hx hmove
  | locked hx hlocked => exact h.locked hsep ha hx hlocked

end Steps

def start (m : MvccEngine E) : State E := ⟨m, none, [], [], 0⟩

theorem init_of_empty {engine : E.State} (h : E.contents engine = SortedMap.empty) :
    MvccEngine.init engine = some ⟨engine, 0, 0⟩ := by
  simp [MvccEngine.init, MvccEngine.recoverMaxTs, E.scan_eq, h, SortedMap.scan, SortedMap.empty]

theorem inv_start {engine : E.State} {m : MvccEngine E} (h : E.contents engine = SortedMap.empty)
    (hm : MvccEngine.init engine = some m) : Inv userKey (start m) := by
  obtain rfl := Option.some.inj ((init_of_empty h).symm.trans hm)
  refine ⟨⟨?_, List.Pairwise.nil, ?_, ?_⟩, show (0 : Int) ≤ maxTs by decide, ?_,
    ⟨⟨le_rfl, ?_, ?_⟩, le_rfl, le_rfl⟩, le_rfl, fun _ => rfl, ?_, ?_, ?_, ?_⟩
  · change Stored E (E.contents engine) []
    rw [h]
    exact stored_nil
  all_goals simp [start]

section Values

def committedCall (log : List Record) (key : Text) : Option (Option Text) :=
  log.reverse.findSome? fun r => lastCall r.buffered key

/-- Keys do not contain U+0000, the values are not reserved, and the timestamps do not
run out. -/
def Faithful (s : State E) : Event E → Prop
  | .put _ key value => sep ∉ key ∧ value ≠ tombstone ∧ E.reserved value = false
  | .delete _ key => sep ∉ key
  | .stamp _ => s.mvcc.oracle < maxTs
  | _ => True

instance (s : State E) (a : Event E) : Decidable (Faithful s a) := by
  unfold Faithful
  split <;> infer_instance

def Clean (E : StorageEngine) (calls : List (Text × Option Text)) : Prop :=
  ∀ e ∈ calls, ∀ value, e.2 = some value → value ≠ tombstone ∧ E.reserved value = false

/-- No value that was put is one that stands for a deletion. -/
structure Unreserved (s : State E) : Prop where
  txns : ∀ (i : Nat) (x : Transaction), s.txns[i]? = some x → Clean E x.buffered
  log : ∀ r ∈ s.log, Clean E r.buffered

variable {calls : List (Text × Option Text)}

theorem Unreserved.setTxn (h : Unreserved s) (hy : Clean E y.buffered) (j : Nat) (z : Transaction)
    (hz : (s.setTxn i y).txns[j]? = some z) : Clean E z.buffered := by
  rcases getElem?_set_cases hz with ⟨-, hz⟩ | ⟨rfl, rfl⟩
  · exact h.txns j z hz
  · exact hy

theorem Unreserved.move (h : Unreserved s) (ha : Faithful s a)
    (hx : s.txns[i]? = some x) (hmove : Moves i x a y) : Clean E y.buffered := by
  have hclean := h.txns i x hx
  cases hmove with
  | buffer hactive hcall =>
    cases hcall with
    | put key value =>
      refine forall_mem_append.mpr ⟨hclean, forall_mem_singleton.mpr ?_⟩
      rintro v ⟨⟩
      exact ha.2
    | delete key =>
      exact forall_mem_append.mpr ⟨hclean, forall_mem_singleton.mpr (by simp)⟩
  | rollback | forget | commit => exact hclean

theorem Unreserved.step (h : Unreserved s) (ha : Faithful s a) (hstep : step s a = some t) :
    Unreserved t := by
  cases change_of_step hstep with
  | begin =>
    refine ⟨fun i x hx => ?_, h.log⟩
    rcases getElem?_concat_cases hx with hx | ⟨-, rfl⟩
    · exact h.txns i x hx
    · simp [Clean]
  | maintain m => exact ⟨h.txns, h.log⟩
  | move hx hmove => exact ⟨h.setTxn (h.move ha hx hmove), h.log⟩
  | locked hx hlocked =>
    have hclean := h.txns _ _ hx
    cases hlocked with
    | write => exact ⟨h.setTxn hclean, forall_mem_concat h.log hclean⟩
    | acquire | pass | abort | stamp | publish => exact ⟨h.setTxn hclean, h.log⟩

theorem mem_of_lastCall {key : Text} {value : Option Text} (h : lastCall calls key = some value) :
    (key, value) ∈ calls := by
  obtain ⟨⟨k, v⟩, hfind, rfl⟩ := map_eq_some_iff.mp h
  obtain rfl : k = key := by simpa using find?_some hfind
  exact mem_reverse.mp (mem_of_find?_eq_some hfind)

theorem Clean.visible_eq {key : Text} {value : Option Text} (h : Clean E calls)
    (hcall : lastCall calls key = some value) : visible (value.getD tombstone) = value := by
  cases value with
  | none => simp [visible]
  | some v => simpa [visible] using (h _ (mem_of_lastCall hcall) v rfl).1

theorem kept_of_clean {r : Record} (htomb : E.reserved tombstone = false)
    (hmirrors : Mirrors userKey r.writes r.buffered) (hclean : Clean E r.buffered) (key : Text) :
    kept E r key = (lastCall r.buffered key).map fun value => value.getD tombstone := by
  rw [kept, hmirrors.get?]
  cases hcall : lastCall r.buffered key with
  | none => rfl
  | some value =>
    cases value with
    | none => simp [filter_some, htomb]
    | some v => simp [filter_some, (hclean _ (mem_of_lastCall hcall) v rfl).2]

theorem lastKept_of_clean {log : List Record} (htomb : E.reserved tombstone = false)
    (h : ∀ r ∈ log, Mirrors userKey r.writes r.buffered ∧ Clean E r.buffered) (key : Text) :
    (lastKept E log key).bind visible = (committedCall log key).join := by
  induction log using List.reverseRecOn with
  | nil => rfl
  | append_singleton log r ih =>
    have hr := h r (by simp)
    have hrest := ih fun x hx => h x (by simp [hx])
    simp only [lastKept, committedCall, reverse_concat, findSome?_cons,
      kept_of_clean htomb hr.1 hr.2] at hrest ⊢
    cases hcall : lastCall r.buffered key with
    | none => exact hrest
    | some value => exact hr.2.visible_eq hcall

end Values

section Isolation

variable {j : Nat}

/-- Snapshot isolation: each transaction reads what had committed when it began, and two
transactions that write a key do not overlap. -/
structure Isolated (s : State E) : Prop where
  reads : ∀ (i : Nat) (x : Transaction), s.txns[i]? = some x → x.phase = .active →
    ∀ key, sep ∉ key → x.get s.mvcc key =
      ((lastCall x.buffered key).or (committedCall (s.log.take x.base) key)).join
  writers : ∀ (i j : Nat) (p q : Record), s.log[i]? = some p → s.log[j]? = some q → i < j →
    ∀ key, key ∈ p.writes.entries.map Prod.fst → key ∈ q.writes.entries.map Prod.fst → i < q.base
  stored : Stored E (E.contents s.mvcc.engine) s.log
  aborted : ∀ (i : Nat) (x : Transaction), s.txns[i]? = some x →
    x.phase = .conflicted ∨ x.phase = .rolledBack → ∀ r ∈ s.log, r.txn ≠ i
  increasing : s.log.Pairwise fun p q => p.commitTs < q.commitTs

section

variable (h : Inv userKey s)

include h

theorem Inv.inRange (hx : s.txns[i]? = some x) : InRange x.readTs := by
  obtain ⟨hbegun, -⟩ := h.txns i x hx
  exact ⟨hbegun.nonneg, hbegun.le_last.trans (h.last_le.trans h.oracle)⟩

theorem Inv.read_eq (hsep : Separated userKey) (hx : s.txns[i]? = some x)
    {key : Text} (hkey : userKey key) :
    s.mvcc.read key x.readTs = (lastKept E (s.log.take x.base) key).bind visible := by
  rw [h.holds.read_eq hsep hkey (h.inRange hx), (h.txns i x hx).1.cut.filter_eq]

theorem Inv.get_eq (hvalues : Unreserved s) (hsep : Separated userKey)
    (htomb : E.reserved tombstone = false) (hx : s.txns[i]? = some x) (hactive : x.phase = .active)
    {key : Text} (hkey : userKey key) : x.get s.mvcc key =
      ((lastCall x.buffered key).or (committedCall (s.log.take x.base) key)).join := by
  obtain ⟨-, hmirrors, -⟩ := h.txns i x hx
  rw [Transaction.get, (hmirrors (by simp [hactive, Phase.ended])).get?]
  cases hown : lastCall x.buffered key with
  | none =>
    have hbase : ∀ r ∈ s.log.take x.base,
        Mirrors userKey r.writes r.buffered ∧ Clean E r.buffered := fun r hr =>
      ⟨(h.logged r (mem_of_mem_take hr)).2, hvalues.log r (mem_of_mem_take hr)⟩
    exact (h.read_eq hsep hx hkey).trans (lastKept_of_clean htomb hbase key)
  | some value => exact (hvalues.txns i x hx).visible_eq hown

theorem Inv.lt_base (hvalues : Unreserved s) (htomb : E.reserved tombstone = false) {p q : Record}
    (hp : s.log[i]? = some p) (hq : s.log[j]? = some q) (hij : i < j) {key : Text}
    (hkey : key ∈ p.writes.entries.map Prod.fst) (hkey' : key ∈ q.writes.entries.map Prod.fst) :
    i < q.base := by
  by_contra hle
  have hindex : q.base + (i - q.base) = i := by omega
  have hmem : p ∈ (s.log.take j).drop q.base := by
    refine mem_iff_getElem?.mpr ⟨i - q.base, ?_⟩
    rw [getElem?_drop, hindex, getElem?_take_of_lt hij, hp]
  have hnone := h.exclusive j q hq key hkey' p hmem
  have hp' := mem_of_getElem? hp
  have hmirrors := (h.logged p hp').2
  rw [kept_of_clean htomb hmirrors (hvalues.log p hp'), ← hmirrors.get?] at hnone
  obtain ⟨e, he, rfl⟩ := mem_map.mp hkey
  rw [Dict.get?_eq_some_iff.mpr he] at hnone
  simp at hnone

theorem Inv.unlogged (hx : s.txns[i]? = some x)
    (hphase : x.phase = .conflicted ∨ x.phase = .rolledBack) : ∀ r ∈ s.log, r.txn ≠ i := by
  obtain ⟨-, -, hprogress⟩ := h.txns i x hx
  unfold Progress at hprogress
  rcases hphase with hphase | hphase
  · rw [hphase] at hprogress
    exact hprogress.2
  · rw [hphase] at hprogress
    exact hprogress.2

end

/-- Over a sorted map with atomic batches the layer provides snapshot isolation. -/
theorem isolated_of_reaches {engine : E.State} {m : MvccEngine E}
    (hempty : E.contents engine = SortedMap.empty) (hm : MvccEngine.init engine = some m)
    (htomb : E.reserved tombstone = false) (h : Reaches step Faithful (start m) s) :
    Isolated s := by
  have hlegal : ∀ (u : State E) (a : Event E), Faithful u a → Legal (sep ∉ ·) u a := by
    intro u a ha
    cases a <;> first | exact ha.1 | exact ha
  have hinv : Inv (sep ∉ ·) s :=
    h.invariant _ (inv_start hempty hm) fun _ _ _ hu ha hstep =>
      hu.step separated_nulFree (hlegal _ _ ha) hstep
  have hvalues : Unreserved s :=
    h.invariant _ ⟨by simp [start], by simp [start]⟩ fun _ _ _ hu ha hstep => hu.step ha hstep
  exact ⟨fun i x hx hactive key hkey => hinv.get_eq hvalues separated_nulFree htomb hx hactive hkey,
    fun i j p q hp hq hij key hkey hkey' => hinv.lt_base hvalues htomb hp hq hij hkey hkey',
    hinv.holds.stored, fun i x hx hphase => hinv.unlogged hx hphase, hinv.holds.increasing⟩

def emptyLsm : MvccEngine lsmEngine := ⟨LsmEngine.Engine.create, 0, 0⟩

/-- Two transactions that write one key, a flush between the steps of the first commit,
and a transaction that begins in the middle of it. -/
def firstCommitterWins : List (Event lsmEngine) :=
  [.begin, .begin, .put 0 "a".toList "1".toList, .put 1 "a".toList "2".toList,
    .delete 1 "b".toList, .commit 0, .acquire 0, .check 0, .stamp 0, .commit 1, .write 0,
    .maintain .force, .begin, .maintain .flush, .publish 0, .acquire 1, .check 1, .begin]

theorem isolated_of_firstCommitterWins : ∃ s : State lsmEngine,
    Reaches step Faithful (start emptyLsm) s ∧ Isolated s ∧ ∃ x y z,
      s.txns[1]? = some x ∧ x.phase = .conflicted ∧
      s.txns[2]? = some y ∧ y.get s.mvcc "a".toList = none ∧
      s.txns[3]? = some z ∧ z.get s.mvcc "a".toList = some "1".toList := by
  obtain ⟨s, hs, h1, h2, h3⟩ := exists_reaches step Faithful (start emptyLsm) firstCommitterWins
    (fun s => s.txns[1]?.any (fun x => x.phase = .conflicted) ∧
      s.txns[2]?.any (fun y => y.get s.mvcc "a".toList = none) ∧
      s.txns[3]?.any (fun z => z.get s.mvcc "a".toList = some "1".toList)) (by decide +kernel)
  simp only [Option.any_eq_true, decide_eq_true_eq] at h1 h2 h3
  obtain ⟨x, hx, hphase⟩ := h1
  obtain ⟨y, hy, hnone⟩ := h2
  obtain ⟨z, hz, hsome⟩ := h3
  have hempty : lsmEngine.contents LsmEngine.Engine.create = SortedMap.empty := rfl
  exact ⟨s, hs, isolated_of_reaches hempty rfl rfl hs, x, y, z, hx, hphase, hy, hnone, hz, hsome⟩

end Isolation

end LiteDB.SnapshotIsolation
