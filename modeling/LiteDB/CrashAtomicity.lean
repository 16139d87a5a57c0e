import LiteDB.BTreeStorage
import LiteDB.MvccSpec

namespace LiteDB.CrashAtomicity

open BTreeStorage DurableEngines List
open LsmEngine (WriteOp)
open Mvcc MvccSpec Runs SortedMaps StorageEngines VersionKeys

/-- The two storage engines. -/
inductive EngineKind where
  | lsm
  | btree
deriving DecidableEq

def EngineKind.engine : EngineKind → DurableEngine
  | .lsm => durableLsm
  | .btree => durableBTree

def EngineKind.create : (kind : EngineKind) → kind.engine.State
  | .lsm => LsmEngine.Engine.create
  | .btree => .recover []

section Commits

variable {E : Backend}

/-- `_commit` when nothing comes between its steps. `none` stands for an exception. -/
def commit (m : MvccEngine E) (readTs : Int) (writes : Dict Text Text) : Option (MvccEngine E) :=
  if writes.entries.all fun e => (m.newestCommittedTs e.1).any fun newest => newest ≤ readTs then
    some ⟨E.writeBatch m.engine (commitOps writes (m.oracle + 1)), m.oracle + 1, m.oracle + 1⟩
  else none

def begin (m : MvccEngine E) : Transaction := ⟨m.lastCommitTs, Dict.empty, .active, [], 0⟩

def valueAfter (commits : List (Dict Text Text)) (key : Text) : Option Text :=
  (commits.reverse.findSome? fun writes => writes.get? key).bind visible

end Commits

/-- `commits` has the write sets of the transactions that have committed. -/
structure State (kind : EngineKind) where
  mvcc : MvccEngine kind.engine
  commits : List (Dict Text Text)

/-- What happens before the crash. -/
inductive Event (kind : EngineKind) where
  | commit (readTs : Int) (writes : Dict Text Text)
  | maintain (m : kind.engine.Maintenance)

variable {kind : EngineKind}

def step (s : State kind) : Event kind → Option (State kind)
  | .commit readTs writes =>
      (commit s.mvcc readTs writes).map fun m => ⟨m, s.commits ++ [writes]⟩
  | .maintain m =>
      some { s with mvcc := { s.mvcc with engine := kind.engine.maintain s.mvcc.engine m } }

def init (kind : EngineKind) : State kind := ⟨⟨kind.create, 0, 0⟩, []⟩

/-- The layer over the engine that is opened after a crash behind `n` log entries of
another commit. -/
def reopened (s : State kind) (writes : Dict Text Text) (n : Nat) :
    Option (MvccEngine kind.engine) :=
  MvccEngine.init (kind.engine.reopen s.mvcc.engine (commitOps writes (s.mvcc.oracle + 1)) n)

/-- Keys without U+0000 and values that the engine stores. -/
def Admissible (kind : EngineKind) (writes : Dict Text Text) : Prop :=
  ∀ e ∈ writes.entries, sep ∉ e.1 ∧ kind.engine.stores e.2

def Admitted (s : State kind) : Event kind → Prop
  | .commit _ writes => Admissible kind writes ∧ s.mvcc.oracle < maxTs
  | .maintain _ => True

instance (kind : EngineKind) (value : Text) : Decidable (kind.engine.stores value) :=
  match kind with
  | .lsm => inferInstanceAs (Decidable (value ≠ LsmEngine.tombstone))
  | .btree => inferInstanceAs (Decidable True)

instance (kind : EngineKind) (writes : Dict Text Text) : Decidable (Admissible kind writes) :=
  inferInstanceAs (Decidable (∀ e ∈ writes.entries, _))

instance (s : State kind) (a : Event kind) : Decidable (Admitted s a) :=
  match a with
  | .commit _ _ => inferInstanceAs (Decidable (_ ∧ _))
  | .maintain _ => inferInstanceAs (Decidable True)

/-- The sorted map itself as an engine. -/
def mapEngine : StorageEngine where
  State := SortedMap Text Text
  scan := SortedMap.scan
  writeBatch := putAll
  Maintenance := Empty
  maintain _ m := m.elim
  reserved _ := false
  contents := id
  scan_eq _ _ _ := rfl
  contents_writeBatch _ _ := rfl
  contents_maintain _ m := m.elim

def record (i : Nat) (writes : Dict Text Text) : Record := ⟨i, i, i + 1, writes, []⟩

def records (commits : List (Dict Text Text)) : List Record := commits.mapIdx record

theorem records_concat (commits : List (Dict Text Text)) (writes : Dict Text Text) :
    records (commits ++ [writes]) = records commits ++ [record commits.length writes] := by
  simp [records, mapIdx_append]

theorem mem_records {commits : List (Dict Text Text)} {r : Record} (h : r ∈ records commits) :
    ∃ i, ∃ hi : i < commits.length, r = record i commits[i] := by
  obtain ⟨i, hi, rfl⟩ := mem_mapIdx.mp h
  exact ⟨i, hi, rfl⟩

theorem kept_mapEngine (r : Record) (key : Text) : kept mapEngine r key = r.writes.get? key := by
  rw [kept]
  cases r.writes.get? key <;> rfl

theorem lastKept_records (commits : List (Dict Text Text)) (key : Text) :
    (lastKept mapEngine (records commits) key).bind visible = valueAfter commits key := by
  rw [valueAfter]
  congr 1
  induction commits using List.reverseRecOn with
  | nil => rfl
  | append_singleton commits writes ih =>
    rw [records_concat, lastKept, reverse_append, reverse_append]
    change (List.findSome? _ (record commits.length writes :: (records commits).reverse)) =
      (writes :: commits.reverse).findSome? _
    rw [findSome?_cons, findSome?_cons, kept_mapEngine, ← ih]
    rfl

theorem filter_records (commits : List (Dict Text Text)) (k : Nat) :
    ((records commits).filter fun r => r.commitTs ≤ (k : Int)) = records (commits.take k) := by
  induction commits using List.reverseRecOn with
  | nil => simp [records]
  | append_singleton commits writes ih =>
    rw [records_concat, filter_append, ih]
    by_cases hk : commits.length < k
    · rw [take_of_length_le (by omega), take_of_length_le (by simp; omega), records_concat]
      have hle : (record commits.length writes).commitTs ≤ (k : Int) := by
        change (commits.length : Int) + 1 ≤ k
        omega
      simp [hle]
    · rw [take_append_of_le_length (by omega)]
      have hlt : ¬ (record commits.length writes).commitTs ≤ (k : Int) := by
        change ¬ (commits.length : Int) + 1 ≤ k
        omega
      simp [hlt]

section Runs

variable {s t : State kind} {c : SortedMap Text Text} {writes : Dict Text Text}

/-- The engine stands for a map that holds the versions of the commits. -/
structure Inv (s : State kind) (c : SortedMap Text Text) : Prop where
  shows : kind.engine.Shows s.mvcc.engine c
  holds : Holds (E := mapEngine) (sep ∉ ·) c (records s.commits)
  oracle : s.mvcc.oracle = s.commits.length
  range : s.mvcc.oracle ≤ maxTs

theorem commitTs_lt {commits : List (Dict Text Text)} {r : Record} (h : r ∈ records commits) :
    r.commitTs < commits.length + 1 := by
  obtain ⟨i, hi, rfl⟩ := mem_records h
  change (i : Int) + 1 < _
  omega

theorem Inv.inRange (h : Inv s c) (hts : s.mvcc.oracle < maxTs) : InRange (s.mvcc.oracle + 1) := by
  have horacle := h.oracle
  constructor <;> omega

theorem Inv.fresh (h : Inv s c) (hwrites : Admissible kind writes) (hts : s.mvcc.oracle < maxTs) :
    Fresh kind.engine.stores c (commitOps writes (s.mvcc.oracle + 1)) := by
  constructor
  · have hnodup := nodup_commitOps (E := mapEngine) (record s.commits.length writes)
    rw [map_map] at hnodup
    have hkeys : (Prod.fst ∘ effect mapEngine.reserved) = WriteOp.key := by
      funext op
      cases op <;> rfl
    rw [hkeys] at hnodup
    rw [h.oracle]
    exact hnodup
  · intro op hop
    obtain ⟨e, he, rfl⟩ := mem_map.mp hop
    refine ⟨_, _, rfl, ?_, (hwrites e he).2⟩
    refine Option.eq_none_iff_forall_ne_some.mpr fun value hvalue => ?_
    obtain ⟨r, hr, key, -, heq⟩ := (h.holds.stored _ value).mp hvalue
    have hsame := (versionKey_injective (h.inRange hts) (h.holds.range r hr) heq).2
    have hlt := commitTs_lt hr
    rw [← hsame, h.oracle] at hlt
    exact absurd hlt (lt_irrefl _)

theorem Inv.holds_concat (h : Inv s c) (hwrites : Admissible kind writes)
    (hts : s.mvcc.oracle < maxTs) :
    Holds (E := mapEngine) (sep ∉ ·) (putAll c (commitOps writes (s.mvcc.oracle + 1)))
      (records (s.commits ++ [writes])) := by
  have hrange := h.inRange hts
  rw [records_concat]
  rw [h.oracle] at hrange ⊢
  exact h.holds.concat (r := record s.commits.length writes) hrange (fun r hr => commitTs_lt hr)
    fun e he => (hwrites e he).1

theorem inv_init (kind : EngineKind) : Inv (init kind) .empty := by
  have hholds : Holds (E := mapEngine) (sep ∉ ·) SortedMap.empty (records []) :=
    ⟨stored_nil, List.Pairwise.nil, by simp [records], by simp [records]⟩
  have hrange : (0 : Int) ≤ maxTs := by decide
  refine ⟨?_, hholds, rfl, hrange⟩
  cases kind with
  | lsm => exact ⟨steady_create, rfl⟩
  | btree => exact shows_recover_nil

theorem Inv.step {a : Event kind} (h : Inv s c) (ha : Admitted s a) (hstep : step s a = some t) :
    ∃ c', Inv t c' := by
  cases a with
  | commit readTs writes =>
    obtain ⟨m, hm, rfl⟩ := Option.map_eq_some_iff.mp hstep
    rw [commit] at hm
    split at hm <;> cases hm
    have hrange : s.mvcc.oracle + 1 ≤ maxTs := ha.2
    refine ⟨_, kind.engine.shows_writeBatch h.shows (h.fresh ha.1 ha.2),
      h.holds_concat ha.1 ha.2, ?_, hrange⟩
    simp [h.oracle]
  | maintain m =>
    cases hstep
    exact ⟨c, kind.engine.shows_maintain h.shows m, h.holds, h.oracle, h.range⟩

theorem exists_inv (h : Reaches step Admitted (init kind) s) : ∃ c, Inv s c :=
  h.invariant (fun s => ∃ c, Inv s c) ⟨_, inv_init kind⟩ fun _ _ _ ⟨_, hu⟩ ha hstep =>
    hu.step ha hstep

end Runs

section Reopening

variable {D : DurableEngine} {e : D.State} {c : SortedMap Text Text}
variable {commits : List (Dict Text Text)}

/-- No key begins with the last character, where the scan of the recovery ends. -/
def BelowHiChar (commits : List (Dict Text Text)) : Prop :=
  ∀ writes ∈ commits, ∀ e ∈ writes.entries, e.1.head? ≠ some hiChar

theorem valueAfter_take {k : Nat} (h : ∀ writes ∈ commits.drop k, writes.entries = [])
    (key : Text) : valueAfter (commits.take k) key = valueAfter commits key := by
  have hnone : ((commits.drop k).reverse.findSome? fun writes => writes.get? key) = none := by
    rw [findSome?_eq_none_iff]
    intro writes hwrites
    rw [Dict.get?, h writes (mem_reverse.mp hwrites)]
    rfl
  conv_rhs => rw [valueAfter, ← take_append_drop k commits, reverse_append,
    findSome?_append, hnone, Option.none_or]
  rfl

/-- A new transaction sees what a first part of the commits left. -/
theorem exists_part (hshows : D.Shows e c)
    (hholds : Holds (E := mapEngine) (sep ∉ ·) c (records commits))
    (hlen : (commits.length : Int) ≤ maxTs) :
    ∃ (m : MvccEngine D) (k : Nat), MvccEngine.init e = some m ∧ k ≤ commits.length ∧
      (BelowHiChar commits → k = commits.length) ∧
      ∀ key, sep ∉ key → (begin m).get m key = valueAfter (commits.take k) key := by
  obtain ⟨M, hM, hnonneg, hfrom, hmax⟩ := hholds.recoverMaxTs_eq
  obtain ⟨k, rfl⟩ := Int.eq_ofNat_of_zero_le hnonneg
  have hk : k ≤ commits.length := by
    rcases hfrom with hzero | ⟨r, hr, hts⟩
    · omega
    · have hlt := commitTs_lt hr
      omega
  have hrecover : MvccEngine.recoverMaxTs (E := D) e =
      MvccEngine.recoverMaxTs (E := mapEngine) c := by
    unfold MvccEngine.recoverMaxTs
    rw [D.scan_eq hshows]
    rfl
  have hinit : MvccEngine.init (E := D) e = some ⟨e, k, k⟩ := by
    rw [MvccEngine.init, hrecover, hM]
    rfl
  have hget : ∀ key, sep ∉ key → (begin (⟨e, k, k⟩ : MvccEngine D)).get ⟨e, k, k⟩ key =
      valueAfter (commits.take k) key := by
    intro key hkey
    have hrange : InRange (k : Int) := ⟨hnonneg, by omega⟩
    have hread := hholds.read_eq (m := (⟨c, k, k⟩ : MvccEngine mapEngine)) separated_nulFree hkey
      hrange
    rw [filter_records, lastKept_records] at hread
    rw [← hread]
    change MvccEngine.read _ key k = _
    simp only [MvccEngine.read, D.scan_eq hshows]
    rfl
  by_cases hbelow : BelowHiChar commits
  · refine ⟨_, commits.length, hinit, le_rfl, fun _ => rfl, fun key hkey => ?_⟩
    rw [hget key hkey, take_length]
    refine valueAfter_take (fun writes hwrites => eq_nil_iff_forall_not_mem.mpr fun x hx => ?_) key
    -- a transaction behind the clock would have a version that the recovery meets
    obtain ⟨j, hj, rfl⟩ := mem_iff_getElem.mp hwrites
    rw [length_drop] at hj
    rw [getElem_drop] at hx hwrites
    have hrecord : record (k + j) commits[k + j] ∈ records commits :=
      mem_mapIdx.mpr ⟨k + j, by omega, rfl⟩
    have hkept : kept mapEngine (record (k + j) commits[k + j]) x.1 = some x.2 :=
      (kept_mapEngine _ _).trans (Dict.get?_eq_some_iff.mpr hx)
    have hle := hmax _ hrecord x.1 x.2 hkept
      (versionKey_le_hiChar (hbelow _ (getElem_mem _) x hx) _)
    change ((k + j : Nat) : Int) + 1 ≤ k at hle
    omega
  · exact ⟨_, k, hinit, hk, fun h => absurd h hbelow, hget⟩

/-- A commit that a crash interrupts is there as a whole or not at all. -/
theorem exists_part_of_crash {s : State kind} (h : Reaches step Admitted (init kind) s)
    {writes : Dict Text Text} (hwrites : Admissible kind writes) (hts : s.mvcc.oracle < maxTs)
    (hone : kind = .btree → writes.entries.length ≤ 1) (n : Nat) :
    ∃ m k, reopened s writes n = some m ∧ k ≤ s.commits.length + 1 ∧
      (BelowHiChar (s.commits ++ [writes]) → s.commits.length ≤ k) ∧
      ∀ key, sep ∉ key →
        (begin m).get m key = valueAfter ((s.commits ++ [writes]).take k) key := by
  obtain ⟨c, hinv⟩ := exists_inv h
  have horacle := hinv.oracle
  obtain ⟨j, hatomic, hshows⟩ := kind.engine.shows_reopen hinv.shows (hinv.fresh hwrites hts) n
  have hj : j = 0 ∨ (commitOps writes (s.mvcc.oracle + 1)).length ≤ j := by
    cases kind with
    | lsm => exact hatomic trivial
    | btree =>
      have hlen := hone rfl
      rw [commitOps, length_map]
      omega
  rcases hj with rfl | hj
  · obtain ⟨m, k, hm, hk, hbelow, hget⟩ := exists_part hshows hinv.holds (by omega)
    refine ⟨m, k, hm, by omega, fun hall => ?_, fun key hkey => ?_⟩
    · rw [hbelow fun w hw => hall w (mem_append_left _ hw)]
    · rw [hget key hkey, take_append_of_le_length hk]
  · rw [take_of_length_le hj] at hshows
    obtain ⟨m, k, hm, hk, hbelow, hget⟩ :=
      exists_part hshows (hinv.holds_concat hwrites hts) (by simp; omega)
    rw [length_append, length_singleton] at hk hbelow
    exact ⟨m, k, hm, hk, fun hall => by rw [hbelow hall]; omega, hget⟩

def twoWrites (a b : String) : Dict Text Text :=
  (Dict.empty.set "a".toList a.toList).set "b".toList b.toList

/-- The log ends with one of the two writes and without the end of the batch. -/
theorem exists_part_of_interruptedCommit : ∃ s : State .lsm,
    Reaches step Admitted (init .lsm) s ∧ s.commits.length = 1 ∧
    ∃ m k, reopened s (twoWrites "3" "4") 2 = some m ∧ k ≤ s.commits.length + 1 ∧
      (BelowHiChar (s.commits ++ [twoWrites "3" "4"]) → s.commits.length ≤ k) ∧
      ∀ key, sep ∉ key → (begin m).get m key =
        valueAfter ((s.commits ++ [twoWrites "3" "4"]).take k) key := by
  obtain ⟨s, hs, hcommits, hts⟩ := exists_reaches step Admitted (init .lsm)
    [.commit 0 (twoWrites "1" "2"), .maintain .flush]
    (fun s => s.commits.length = 1 ∧ s.mvcc.oracle < maxTs) (by decide +kernel)
  exact ⟨s, hs, hcommits, exists_part_of_crash hs (by decide +kernel) hts (by simp) 2⟩

/-- The B+Tree engine writes the operations of a transaction as single entries, and the
clock of the next start makes the first one visible without the second one. -/
theorem not_allOrNothing_of_interruptedBatch : ¬ ∀ (kind : EngineKind) (s : State kind),
    Reaches step (fun _ _ => True) (init kind) s → ∀ writes n, ∃ m,
      reopened s writes n = some m ∧
        ((∀ e ∈ writes.entries, (begin m).get m e.1 = visible e.2) ∨
          ∃ k, ∀ e ∈ writes.entries,
            (begin m).get m e.1 = valueAfter (s.commits.take k) e.1) := by
  intro hall
  obtain ⟨m, hm, hget⟩ := hall .btree _ (Reaches.refl _) (twoWrites "1" "2") 1
  have hreads : (reopened (init .btree) (twoWrites "1" "2") 1).map (fun m =>
      ((begin m).get m "a".toList, (begin m).get m "b".toList)) =
      some (some "1".toList, none) := by decide +kernel
  rw [hm] at hreads
  obtain ⟨ha, hb⟩ := Prod.mk.inj (Option.some.inj hreads)
  have hmem : ("a".toList, "1".toList) ∈ (twoWrites "1" "2").entries ∧
      ("b".toList, "2".toList) ∈ (twoWrites "1" "2").entries := by decide
  rcases hget with hfull | ⟨k, hnone⟩
  · have hvisible := hfull _ hmem.2
    rw [hb] at hvisible
    exact absurd hvisible (by decide)
  · have hvalue := hnone _ hmem.1
    rw [ha] at hvalue
    exact absurd hvalue (by simp [init, valueAfter])

end Reopening

end LiteDB.CrashAtomicity
