import LiteDB.SortedMaps
import LiteDB.VersionKeys

namespace LiteDB.LockManager

open SortedMaps
open VersionKeys (Text)

inductive LockType where
  | shared
  | exclusive
deriving DecidableEq

/-- The holders of a key (`transactions.py`). -/
structure Entry where
  shared : List Nat
  exclusive : Option Nat

abbrev Table := Dict Text Entry

def entry (table : Table) (key : Text) : Entry := (table.get? key).getD ⟨[], none⟩

/-- Nobody else holds an exclusive lock. -/
def Entry.unclaimed (e : Entry) (txid : Nat) : Bool :=
  e.exclusive == none || e.exclusive == some txid

/-- The test of the loop of `acquire`. -/
def Entry.available (e : Entry) (txid : Nat) : LockType → Bool
  | .shared => e.unclaimed txid
  | .exclusive => e.unclaimed txid && (e.shared.filter fun u => u ≠ txid).isEmpty

/-- An upgrade gives up the shared lock. -/
def Entry.grant (e : Entry) (txid : Nat) : LockType → Entry
  | .shared => { e with shared := if txid ∈ e.shared then e.shared else txid :: e.shared }
  | .exclusive => ⟨e.shared.filter fun u => u ≠ txid, some txid⟩

/-- The turn of the loop that gets the lock. -/
def acquire (table : Table) (key : Text) (type : LockType) (txid : Nat) : Option Table :=
  if (entry table key).available txid type then
    some (table.set key ((entry table key).grant txid type))
  else none

/-- The loop ends with `LockTimeoutError`. The key has got its entry. -/
def timeout (table : Table) (key : Text) (type : LockType) (txid : Nat) : Option Table :=
  if (entry table key).available txid type then none else some (table.set key (entry table key))

def releaseAll (table : Table) (txid : Nat) : Table :=
  table.mapValues fun e =>
    ⟨e.shared.filter fun u => u ≠ txid, if e.exclusive = some txid then none else e.exclusive⟩

def Holds (table : Table) (key : Text) (txid : Nat) : LockType → Prop
  | .shared => txid ∈ (entry table key).shared
  | .exclusive => (entry table key).exclusive = some txid

/-- Who holds an exclusive lock holds the only lock of the key. -/
def Compatible (table : Table) : Prop :=
  ∀ key txid u type, Holds table key txid .exclusive → Holds table key u type → u = txid

variable {table table' : Table} {key k : Text} {type type' : LockType} {txid u : Nat}

theorem entry_set (e : Entry) :
    entry (table.set key e) k = if k = key then e else entry table k := by
  rw [entry, entry, Dict.get?_set]
  split <;> rfl

theorem entry_of_acquire (h : acquire table key type txid = some table') :
    (entry table key).available txid type = true ∧
      entry table' k = if k = key then (entry table key).grant txid type else entry table k := by
  obtain ⟨havailable, ⟨⟩⟩ := Option.ite_none_right_eq_some.mp h
  exact ⟨havailable, entry_set _⟩

theorem unclaimed_of_available {e : Entry} (h : e.available txid type = true) :
    ∀ u, e.exclusive = some u → u = txid := by
  have hunclaimed : e.unclaimed txid = true := by
    cases type with
    | shared => exact h
    | exclusive => exact (Bool.and_eq_true_iff.mp h).1
  rintro u hu
  simpa [Entry.unclaimed, hu] using hunclaimed

theorem exclusive_acquire_iff (h : acquire table key type txid = some table') :
    Holds table' k u .exclusive ↔
      Holds table k u .exclusive ∨ (k = key ∧ u = txid ∧ type = .exclusive) := by
  obtain ⟨havailable, hentry⟩ := entry_of_acquire (k := k) h
  simp only [Holds, hentry]
  by_cases hk : k = key
  · subst hk
    have hclaimed := unclaimed_of_available havailable u
    cases type with
    | shared => simp [Entry.grant]
    | exclusive =>
      simp only [if_true, Entry.grant, Option.some.injEq, true_and, and_true]
      exact ⟨fun heq => .inr heq.symm, fun hor => (hor.elim hclaimed id).symm⟩
  · simp [hk]

theorem holds_acquire_cases (h : acquire table key type txid = some table')
    (hu : Holds table' k u type') : Holds table k u type' ∨ (k = key ∧ u = txid) := by
  cases type' with
  | exclusive => exact ((exclusive_acquire_iff h).mp hu).imp_right fun ⟨hk, hid, _⟩ => ⟨hk, hid⟩
  | shared =>
    obtain ⟨-, hentry⟩ := entry_of_acquire (k := k) h
    rw [Holds, hentry] at hu
    split at hu
    · rename_i hk
      subst hk
      by_cases hid : u = txid
      · exact .inr ⟨rfl, hid⟩
      · left
        cases type with
        | shared =>
          rw [Entry.grant] at hu
          split at hu
          · exact hu
          · exact (List.mem_cons.mp hu).resolve_left hid
        | exclusive => exact (List.mem_filter.mp hu).1
    · exact .inl hu

theorem eq_of_available {t : Nat} (h : (entry table key).available txid .exclusive = true)
    (ht : Holds table key t type) : t = txid := by
  cases type with
  | exclusive => exact unclaimed_of_available h t ht
  | shared =>
    have hnone := (Bool.and_eq_true_iff.mp h).2
    rw [List.isEmpty_iff, List.filter_eq_nil_iff] at hnone
    simpa using hnone t ht

theorem Compatible.acquire (hcompatible : Compatible table)
    (h : LockManager.acquire table key type txid = some table') : Compatible table' := by
  intro k t u type' ht hu
  have havailable := (entry_of_acquire (k := k) h).1
  rcases (exclusive_acquire_iff h).mp ht with ht | ⟨rfl, rfl, rfl⟩
  · rcases holds_acquire_cases h hu with hu | ⟨rfl, rfl⟩
    · exact hcompatible k t u type' ht hu
    · exact (unclaimed_of_available havailable t ht).symm
  · rcases holds_acquire_cases h hu with hu | ⟨-, rfl⟩
    · exact eq_of_available havailable hu
    · rfl

theorem holds_timeout_iff (h : timeout table key type txid = some table') :
    Holds table' k u type' ↔ Holds table k u type' := by
  have hentry : entry table' k = entry table k := by
    unfold timeout at h
    split at h <;> cases h
    rw [entry_set]
    split
    · rename_i heq
      rw [heq]
    · rfl
  cases type' with
  | shared => simp only [Holds, hentry]
  | exclusive => simp only [Holds, hentry]

theorem holds_releaseAll_iff :
    Holds (releaseAll table txid) k u type ↔ Holds table k u type ∧ u ≠ txid := by
  have hentry : entry (releaseAll table txid) k = ⟨(entry table k).shared.filter fun u => u ≠ txid,
        if (entry table k).exclusive = some txid then none else (entry table k).exclusive⟩ := by
    rw [entry, entry, releaseAll, Dict.get?_mapValues]
    cases table.get? k with
    | none => rfl
    | some e => rfl
  cases type with
  | shared => simp [Holds, hentry]
  | exclusive =>
    simp only [Holds, hentry]
    split
    · rename_i hown
      simp [hown, eq_comm]
    · rename_i hother
      refine ⟨fun hu => ⟨hu, ?_⟩, And.left⟩
      rintro rfl
      exact hother hu

theorem Compatible.of_subset (h : Compatible table)
    (hsub : ∀ k u type, Holds table' k u type → Holds table k u type) : Compatible table' :=
  fun k t u type ht hu => h k t u type (hsub k t .exclusive ht) (hsub k u type hu)

end LiteDB.LockManager
