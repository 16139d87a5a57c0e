import LiteDB.MvccSpec

namespace LiteDB.MvccScans

open List Mvcc MvccSpec SortedMaps StorageEngines VersionKeys VersionSets SortedMap

variable {E : StorageEngine} {m : MvccEngine E} {log : List Record} {userKey : Text → Prop}
  {lo hi key value : Text}

section Snapshots

variable {readTs : Int}

def Covers (lo hi key : Text) : Prop :=
  ∀ ts, InRange ts → lo ≤ versionKey key ts ∧ versionKey key ts ≤ hi ++ [hiChar]

def Misses (lo hi key : Text) : Prop :=
  ∀ ts, InRange ts → ¬(lo ≤ versionKey key ts ∧ versionKey key ts ≤ hi ++ [hiChar])

theorem covers_of_between (hlo : lo ≤ key) (hhi : key ≤ hi)
    (hsep : sep ∉ hi) : Covers lo hi key := by
  intro ts hts
  have hcut : Uncut hi key := fun h => hsep (h.subset (by simp))
  exact meets_of_between (v := ⟨key, ts, []⟩) hcut hlo hhi hts

theorem exists_scan (h : Holds userKey m.engine log) (hsep : Separated userKey)
    (hread : InRange readTs) (lo hi : Text) : ∃ out, m.scan lo hi readTs = some out ∧
      out.Pairwise (fun a b => a.1 < b.1) ∧
      (∀ key, userKey key → Covers lo hi key → ∀ value,
        (key, value) ∈ out ↔ m.read key readTs = some value) ∧
      (∀ key, Misses lo hi key → ∀ value, (key, value) ∉ out) ∧
      ∀ e ∈ out, userKey e.1 := by
  have hkeys : ∀ v ∈ versionsOf E log, userKey v.key := fun v => h.userKey_of_mem
  obtain ⟨out, hout, hsorted, hmem⟩ := h.keeps.exists_scan lo hi readTs
    fun v hv w hw => hsep _ _ (hkeys v hv) (hkeys w hw)
  refine ⟨out, hout, hsorted, fun key hkey hcovers value => ?_, fun key hmisses value => ?_, ?_⟩
  · rw [hmem, h.keeps.read_eq_some_iff (fun v hv => hsep _ _ (hkeys v hv) hkey) hread.1]
    refine First.congr fun v hvkey => ?_
    rw [mem_filter, decide_eq_true_eq]
    subst hvkey
    exact and_iff_left_of_imp fun hv => hcovers v.ts (h.keeps.range v hv)
  · rw [hmem]
    rintro ⟨v, hv, rfl, -⟩
    rw [mem_filter, decide_eq_true_eq] at hv
    exact hmisses v.ts (h.keeps.range v hv.1) hv.2
  · rintro ⟨key, value⟩ he
    obtain ⟨v, hv, rfl, -⟩ := (hmem key value).mp he
    exact hkeys v (mem_filter.mp hv).1

end Snapshots

section Overlays

variable {x : Transaction}

def ownEdits (entries : List (Text × Text)) (lo hi : Text) : List (Text × Option Text) :=
  (entries.filter fun e => lo ≤ e.1 ∧ e.1 ≤ hi).map fun e => (e.1, visible e.2)

theorem foldl_overlay (merged : SortedMap Text Text) (entries : List (Text × Text)) :
    entries.foldl (Transaction.overlay lo hi) merged = merged.edit (ownEdits entries lo hi) := by
  induction entries generalizing merged with
  | nil => rfl
  | cons e entries ih =>
    rw [foldl_cons, ih]
    unfold Transaction.overlay ownEdits
    by_cases hrange : lo ≤ e.1 ∧ e.1 ≤ hi
    · have hout : ¬(e.1 < lo ∨ hi < e.1) := by
        rw [not_or, not_lt, not_lt]
        exact hrange
      rw [if_neg hout, filter_cons_of_pos (by simpa using hrange)]
      by_cases htomb : e.2 = tombstone
      · simp [htomb, SortedMap.edit, visible]
      · simp [htomb, SortedMap.edit, visible]
    · have hout : e.1 < lo ∨ hi < e.1 := by
        rwa [← not_le, ← not_le, ← not_and_or]
      rw [if_pos hout, filter_cons_of_neg (by simpa using hrange)]

theorem edited_ownEdits (writes : Dict Text Text) (old : Option Text)
    (hrange : lo ≤ key ∧ key ≤ hi) : edited (ownEdits writes.entries lo hi) old key =
      match writes.get? key with
      | some value => visible value
      | none => old := by
  have hkeys : (ownEdits writes.entries lo hi).map Prod.fst =
      (writes.entries.filter fun e => lo ≤ e.1 ∧ e.1 ≤ hi).map Prod.fst := by
    simp [ownEdits, Function.comp_def]
  cases hget : writes.get? key with
  | some value =>
    refine edited_of_nodup ?_ (mem_map.mpr ⟨(key, value), mem_filter.mpr
      ⟨Dict.get?_eq_some_iff.mp hget, by simpa using hrange⟩, rfl⟩)
    rw [hkeys]
    exact writes.nodup.sublist (filter_sublist.map _)
  | none =>
    refine edited_of_not_mem ?_
    rw [hkeys]
    intro hmem
    obtain ⟨⟨k, v⟩, he, rfl⟩ := mem_map.mp hmem
    rw [Dict.get?_eq_some_iff.mpr (mem_filter.mp he).1] at hget
    simp at hget

theorem edited_ownEdits_of_not_between (entries : List (Text × Text)) (old : Option Text)
    (hrange : ¬(lo ≤ key ∧ key ≤ hi)) : edited (ownEdits entries lo hi) old key = old := by
  refine edited_of_not_mem fun hmem => hrange ?_
  obtain ⟨e, he, rfl⟩ := mem_map.mp hmem
  obtain ⟨w, hw, rfl⟩ := mem_map.mp he
  simpa using (mem_filter.mp hw).2

theorem lookup_of_sorted {out : List (Text × Text)} (h : out.Pairwise fun a b => a.1 < b.1) :
    (SortedMap.empty.insertAll out).get? key = some value ↔ (key, value) ∈ out := by
  rw [get?_insertAll ⟨out, h⟩, get?_empty, Option.or_none, get?_eq_some_iff]

/-- A scan of a transaction lists what its `get` shows of the keys in the range, and what
the snapshot has of the keys that it meets outside of it. -/
theorem exists_txn_scan (h : Holds userKey m.engine log) (hsep : Separated userKey)
    (hread : InRange x.readTs) (hown : ∀ e ∈ x.writes.entries, userKey e.1) (lo hi : Text) :
    ∃ out, x.scan m lo hi = some out ∧ out.Pairwise (fun a b => a.1 < b.1) ∧
      (∀ e ∈ out, userKey e.1) ∧
      (∀ key, userKey key → Covers lo hi key → lo ≤ key → key ≤ hi → ∀ value,
        (key, value) ∈ out ↔ x.get m key = some value) ∧
      ∀ key, ¬(lo ≤ key ∧ key ≤ hi) → ∀ value, (key, value) ∈ out →
        ¬Misses lo hi key ∧ (Covers lo hi key → m.read key x.readTs = some value) := by
  obtain ⟨out, hout, hsorted, hcovers, hmisses, hkeys⟩ := exists_scan h hsep hread lo hi
  -- What is listed, for a key in the range and for one outside of it.
  have hin : ∀ key value, lo ≤ key ∧ key ≤ hi → ((key, value) ∈ ((SortedMap.empty.insertAll
      out).edit (ownEdits x.writes.entries lo hi)).entries ↔ (match x.writes.get? key with
        | some own => visible own = some value
        | none => (key, value) ∈ out)) := by
    intro key value hrange
    rw [← get?_eq_some_iff, get?_edit, edited_ownEdits _ _ hrange]
    cases x.writes.get? key with
    | some own => rfl
    | none => exact lookup_of_sorted hsorted
  have hbeyond : ∀ key value, ¬(lo ≤ key ∧ key ≤ hi) → ((key, value) ∈ ((SortedMap.empty.insertAll
      out).edit (ownEdits x.writes.entries lo hi)).entries ↔ (key, value) ∈ out) := by
    intro key value hrange
    rw [← get?_eq_some_iff, get?_edit,
      edited_ownEdits_of_not_between _ _ hrange, lookup_of_sorted hsorted]
  refine ⟨_, by rw [Transaction.scan, hout, Option.map_some, foldl_overlay], SortedMap.sorted _,
    ?_, ?_, ?_⟩
  · rintro ⟨key, value⟩ hmem
    by_cases hrange : lo ≤ key ∧ key ≤ hi
    · rw [hin key value hrange] at hmem
      cases hget : x.writes.get? key with
      | some own => exact hown (key, own) (Dict.get?_eq_some_iff.mp hget)
      | none =>
        rw [hget] at hmem
        exact hkeys _ hmem
    · exact hkeys _ ((hbeyond key value hrange).mp hmem)
  · intro key hkey hcov hlo hhi value
    rw [hin key value ⟨hlo, hhi⟩, Transaction.get]
    cases x.writes.get? key with
    | some own => rfl
    | none => exact hcovers key hkey hcov value
  · intro key hrange value hmem
    rw [hbeyond key value hrange] at hmem
    exact ⟨fun hmiss => hmisses key hmiss value hmem,
      fun hcov => (hcovers key (hkeys _ hmem) hcov value).mp hmem⟩

end Overlays

end LiteDB.MvccScans
