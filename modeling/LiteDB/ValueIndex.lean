import LiteDB.SortedMaps
import LiteDB.VersionKeys

namespace LiteDB.ValueIndex

open Lexicographic List Option SortedMaps VersionKeys SortedMap

/-- The value index (`secondary_index.py`) over a sorted map. -/
structure SecondaryIndex where
  tree : SortedMap Text Text
  entries : Int

def composite (value key : Text) : Text := value ++ sep :: key

namespace SecondaryIndex

def create : SecondaryIndex := ⟨SortedMap.empty, 0⟩

def add (ix : SecondaryIndex) (key value : Text) : SecondaryIndex where
  tree := ix.tree.insert (composite value key) key
  entries := if ix.tree.get? (composite value key) = none then ix.entries + 1 else ix.entries

def remove (ix : SecondaryIndex) (key value : Text) : SecondaryIndex :=
  if (ix.tree.get? (composite value key)).isSome then
    ⟨ix.tree.erase (composite value key), ix.entries - 1⟩
  else ix

def update (ix : SecondaryIndex) (key : Text) (oldValue : Option Text) (newValue : Text) :
    SecondaryIndex :=
  match oldValue with
  | some old => if old ≠ newValue then (ix.remove key old).add key newValue else ix.add key newValue
  | none => ix.add key newValue

/-- The value of a composite ends at its first separator. -/
def keysInValueRange (ix : SecondaryIndex) (lowValue highValue : Text) : List Text :=
  (ix.tree.scan lowValue (highValue ++ [hiChar])).filterMap fun e =>
    let value := e.1.takeWhile fun c => c ≠ sep
    if lowValue ≤ value ∧ value ≤ highValue then some e.2 else none

def size (ix : SecondaryIndex) : Int := ix.entries

end SecondaryIndex

variable {c : SortedMap Text Text} {ix : SecondaryIndex} {key value old low high : Text}

def Plain (c : SortedMap Text Text) : Prop := ∀ key value, c.get? key = some value → sep ∉ value

/-- The index has one entry for each key of the map. -/
structure Indexes (ix : SecondaryIndex) (c : SortedMap Text Text) : Prop where
  tree : ∀ comp key, ix.tree.get? comp = some key ↔
    ∃ value, c.get? key = some value ∧ comp = composite value key
  entries : ix.entries = c.entries.length

theorem takeWhile_composite (h : sep ∉ value) :
    (composite value key).takeWhile (fun c => c ≠ sep) = value := by
  have hall : ∀ c ∈ value, decide (c ≠ sep) = true :=
    fun c hc => decide_eq_true fun heq => h (heq ▸ hc)
  rw [composite, takeWhile_append_of_pos hall, takeWhile_cons_of_neg (by simp), append_nil]

theorem composite_injective {value' key' : Text} (h : sep ∉ value) (h' : sep ∉ value')
    (heq : composite value key = composite value' key') : value = value' ∧ key = key' := by
  have hvalue : value = value' := by
    calc value
      _ = (composite value key).takeWhile fun c => c ≠ sep := (takeWhile_composite h).symm
      _ = value' := by rw [heq, takeWhile_composite h']
  subst hvalue
  exact ⟨rfl, (List.cons.inj (append_cancel_left heq)).2⟩

theorem indexes_create : Indexes SecondaryIndex.create SortedMap.empty :=
  ⟨fun _ _ => by simp [SecondaryIndex.create], rfl⟩

theorem Plain.erase (h : Plain c) : Plain (c.erase key) := by
  intro k v hv
  rw [get?_erase] at hv
  split at hv
  · contradiction
  · exact h k v hv

theorem Plain.insert (h : Plain c) (hvalue : sep ∉ value) : Plain (c.insert key value) := by
  intro k v hv
  rw [get?_insert] at hv
  split at hv
  · cases hv
    exact hvalue
  · exact h k v hv

theorem Indexes.get?_composite (h : Indexes ix c) (hplain : Plain c) (hvalue : sep ∉ value) :
    (ix.tree.get? (composite value key)).isSome ↔ c.get? key = some value := by
  rw [isSome_iff_exists]
  constructor
  · rintro ⟨k, hk⟩
    obtain ⟨v, hv, heq⟩ := (h.tree _ k).mp hk
    obtain ⟨rfl, rfl⟩ := composite_injective hvalue (hplain k v hv) heq
    exact hv
  · exact fun hv => ⟨key, (h.tree _ key).mpr ⟨value, hv, rfl⟩⟩

theorem Indexes.add (h : Indexes ix c) (hplain : Plain c) (hvalue : sep ∉ value)
    (hnew : c.get? key = none) : Indexes (ix.add key value) (c.insert key value) := by
  have habsent : ix.tree.get? (composite value key) = none := by
    rw [← not_isSome_iff_eq_none, h.get?_composite hplain hvalue, hnew]
    simp
  refine ⟨fun comp k => ?_, ?_⟩
  · rw [SecondaryIndex.add, get?_insert]
    split
    · rename_i hcomp
      subst hcomp
      constructor
      · intro hk
        cases hk
        exact ⟨value, by simp [get?_insert], rfl⟩
      · rintro ⟨v, hv, heq⟩
        rw [(composite_injective hvalue ((hplain.insert hvalue) k v hv) heq).2]
    · rename_i hcomp
      rw [h.tree]
      refine exists_congr fun v => ?_
      rw [get?_insert]
      split
      · rename_i hk
        subst hk
        simp only [hnew, reduceCtorEq, false_and, Option.some.injEq, false_iff, not_and]
        rintro rfl
        exact hcomp
      · rfl
  · rw [SecondaryIndex.add, if_pos habsent, h.entries, length_insert hnew]
    rfl

theorem Indexes.remove (h : Indexes ix c) (hplain : Plain c) (hold : c.get? key = some old) :
    Indexes (ix.remove key old) (c.erase key) := by
  have hpresent := (h.get?_composite hplain (hplain key old hold)).mpr hold
  rw [SecondaryIndex.remove, if_pos hpresent]
  refine ⟨fun comp k => ?_, ?_⟩
  · rw [get?_erase]
    split
    · rename_i hcomp
      simp only [reduceCtorEq, false_iff, not_exists, not_and]
      intro v hv heq
      rw [hcomp] at heq
      have hk := (composite_injective (hplain key old hold) (hplain.erase k v hv) heq).2
      rw [← hk, get?_erase, if_pos rfl] at hv
      contradiction
    · rename_i hcomp
      rw [h.tree]
      refine exists_congr fun v => ?_
      rw [get?_erase]
      split
      · rename_i hk
        subst hk
        simp only [hold, Option.some.injEq, reduceCtorEq, false_and, iff_false, not_and]
        rintro rfl
        exact hcomp
      · rfl
  · have hlength := length_erase hold
    have hentries := h.entries
    simp only
    omega

theorem insert_erase : (c.erase key).insert key value = c.insert key value := by
  refine ext_get? fun k => ?_
  rw [get?_insert, get?_insert, get?_erase]
  split <;> rfl

theorem insert_of_get? {m : SortedMap Text Text} (h : m.get? key = some value) :
    m.insert key value = m := by
  refine ext_get? fun k => ?_
  rw [get?_insert]
  split
  · rename_i hk
    rw [hk, h]
  · rfl

theorem Indexes.update (h : Indexes ix c) (hplain : Plain c) (hvalue : sep ∉ value) :
    Indexes (ix.update key (c.get? key) value) (c.insert key value) := by
  cases hold : c.get? key with
  | none => exact h.add hplain hvalue hold
  | some old =>
    rw [SecondaryIndex.update]
    split
    · rw [← insert_erase]
      exact (h.remove hplain hold).add hplain.erase hvalue (by simp [get?_erase])
    · rename_i hsame
      obtain rfl := not_not.mp hsame
      have hpresent := (h.tree (composite old key) key).mpr ⟨old, hold, rfl⟩
      have hadd : ix.add key old = ix := by
        rw [SecondaryIndex.add, insert_of_get? hpresent, hpresent, if_neg (by simp)]
      rwa [hadd, insert_of_get? hold]

theorem Indexes.mem_keysInValueRange (h : Indexes ix c) (hplain : Plain c) (hhigh : sep ∉ high) :
    key ∈ ix.keysInValueRange low high ↔
      ∃ value, c.get? key = some value ∧ low ≤ value ∧ value ≤ high := by
  simp only [SecondaryIndex.keysInValueRange, mem_filterMap, ite_none_right_eq_some,
    Option.some.injEq]
  constructor
  · rintro ⟨⟨comp, k⟩, hmem, hrange, rfl⟩
    obtain ⟨v, hv, rfl⟩ :=
      (h.tree comp k).mp (get?_eq_some_iff.mpr (mem_scan.mp hmem).1)
    rw [takeWhile_composite (hplain k v hv)] at hrange
    exact ⟨v, hv, hrange⟩
  · rintro ⟨v, hv, hlow, hle⟩
    refine ⟨(composite v key, key), mem_scan.mpr ⟨?_, ?_, ?_⟩, ?_, rfl⟩
    · exact get?_eq_some_iff.mp ((h.tree _ key).mpr ⟨v, hv, rfl⟩)
    · exact hlow.trans (le_append _ _)
    · exact append_sep_le_of_le (fun rest heq => hhigh (by simp [heq])) hle key
    · rw [takeWhile_composite (hplain key v hv)]
      exact ⟨hlow, hle⟩

theorem Indexes.nodup_keysInValueRange (h : Indexes ix c) (low high : Text) :
    (ix.keysInValueRange low high).Nodup := by
  refine pairwise_filterMap.mpr ((ix.tree.sorted.filter _).imp_of_mem ?_)
  rintro ⟨comp, k⟩ ⟨comp', k'⟩ hmem hmem' hlt b hb b' hb' hsame
  obtain rfl : k = b := Option.some.inj (ite_none_right_eq_some.mp hb).2
  obtain rfl : k' = b' := Option.some.inj (ite_none_right_eq_some.mp hb').2
  subst hsame
  obtain ⟨v, hv, rfl⟩ :=
    (h.tree comp k).mp (get?_eq_some_iff.mpr (mem_filter.mp hmem).1)
  obtain ⟨w, hw, rfl⟩ :=
    (h.tree comp' k).mp (get?_eq_some_iff.mpr (mem_filter.mp hmem').1)
  cases hv.symm.trans hw
  exact lt_irrefl _ hlt

end LiteDB.ValueIndex
