import Mathlib.Data.Finset.Card
import Mathlib.Data.List.Nodup
import Mathlib.Data.List.Sort
import Mathlib.Order.Basic

namespace LiteDB.SortedMaps

open List

def lookup {K V : Type} [DecidableEq K] (entries : List (K × V)) (k : K) : Option V :=
  (entries.find? fun e => e.1 = k).map Prod.snd

variable {K V : Type} {k : K}

theorem lookup_eq_some_iff [DecidableEq K] {entries : List (K × V)}
    (hnodup : (entries.map Prod.fst).Nodup) {v : V} :
    lookup entries k = some v ↔ (k, v) ∈ entries := by
  rw [lookup, Option.map_eq_some_iff]
  constructor
  · rintro ⟨⟨j, w⟩, hfind, rfl⟩
    obtain rfl : j = k := by simpa using find?_some hfind
    exact mem_of_find?_eq_some hfind
  · intro hmem
    have hsome : (entries.find? fun e => e.1 = k).isSome :=
      find?_isSome.mpr ⟨(k, v), hmem, by simp⟩
    obtain ⟨⟨j, w⟩, hfind⟩ := Option.isSome_iff_exists.mp hsome
    have hj : j = k := by simpa using find?_some hfind
    have hsame := inj_on_of_nodup_map hnodup (mem_of_find?_eq_some hfind) hmem hj
    exact ⟨_, hfind, congrArg Prod.snd hsame⟩

theorem isSome_lookup [DecidableEq K] {entries : List (K × V)} :
    (lookup entries k).isSome ↔ k ∈ entries.map Prod.fst := by
  simp [lookup]

theorem lookup_append [DecidableEq K] (l l' : List (K × V)) (k : K) :
    lookup (l ++ l') k = (lookup l k).or (lookup l' k) := by
  simp only [lookup, find?_append]
  cases l.find? fun e => e.1 = k <;> rfl

theorem lookup_map {W : Type} [DecidableEq K] (f : V → W) (l : List (K × V)) (k : K) :
    lookup (l.map fun e => (e.1, f e.2)) k = (lookup l k).map f := by
  simp only [lookup, find?_map, Option.map_map]
  rfl

/-- The value of a key after a list of edits, where `none` deletes and the last edit
of the key counts. -/
def edited {K V : Type} [DecidableEq K] (edits : List (K × Option V)) (old : Option V) (k : K) :
    Option V :=
  (lookup edits.reverse k).getD old

section Edited

variable {K V : Type} [DecidableEq K] {edits : List (K × Option V)} {old old' : Option V} {k : K}
  {v : V}

theorem edited_append (edits' : List (K × Option V)) :
    edited (edits ++ edits') old k = edited edits' (edited edits old k) k := by
  simp only [edited, reverse_append, lookup_append]
  cases lookup edits'.reverse k <;> rfl

theorem edited_singleton {j : K} {value : Option V} :
    edited [(j, value)] old k = if k = j then value else old := by
  by_cases hkj : k = j
  · simp [edited, lookup, hkj]
  · simp [edited, lookup, hkj, Ne.symm hkj]

theorem edited_of_mem (h : k ∈ edits.map Prod.fst) : edited edits old k = edited edits old' k := by
  have hsome : (lookup edits.reverse k).isSome := by
    obtain ⟨e, he, rfl⟩ := mem_map.mp h
    rw [lookup, Option.isSome_map, find?_isSome]
    exact ⟨e, mem_reverse.mpr he, by simp⟩
  obtain ⟨value, hvalue⟩ := Option.isSome_iff_exists.mp hsome
  simp [edited, hvalue]

theorem edited_of_not_mem (h : k ∉ edits.map Prod.fst) : edited edits old k = old := by
  have hnone : lookup edits.reverse k = none := by
    rw [lookup, Option.map_eq_none_iff, find?_eq_none]
    intro e he heq
    obtain rfl : e.1 = k := by simpa using heq
    exact h (mem_map_of_mem (mem_reverse.mp he))
  rw [edited, hnone, Option.getD_none]

theorem edited_of_nodup (hnodup : (edits.map Prod.fst).Nodup) {value : Option V}
    (h : (k, value) ∈ edits) : edited edits old k = value := by
  have hnodup' : (edits.reverse.map Prod.fst).Nodup := by
    rw [map_reverse]
    exact nodup_reverse.mpr hnodup
  rw [edited, (lookup_eq_some_iff hnodup').mpr (mem_reverse.mpr h), Option.getD_some]

theorem edited_eq_some_iff (hnodup : (edits.map Prod.fst).Nodup) :
    edited edits old k = some v ↔
      (k, some v) ∈ edits ∨ (k ∉ edits.map Prod.fst ∧ old = some v) := by
  by_cases hk : k ∈ edits.map Prod.fst
  · obtain ⟨⟨j, value⟩, hmem, rfl⟩ := mem_map.mp hk
    rw [edited_of_nodup hnodup hmem]
    constructor
    · rintro rfl
      exact .inl hmem
    · rintro (hmem' | ⟨hnot, -⟩)
      · exact congrArg Prod.snd (inj_on_of_nodup_map hnodup hmem hmem' rfl)
      · exact absurd hk hnot
  · have hnot : (k, some v) ∉ edits := fun hmem => hk (mem_map_of_mem hmem)
    rw [edited_of_not_mem hk]
    simp only [hnot, hk, not_false_eq_true, true_and, false_or]

theorem mem_of_edited (h : edited edits none k = some v) : (k, some v) ∈ edits := by
  cases hlookup : lookup edits.reverse k with
  | none => simp [edited, hlookup] at h
  | some value =>
    obtain rfl : value = some v := by simpa [edited, hlookup] using h
    obtain ⟨⟨j, w⟩, hfind, hw⟩ := Option.map_eq_some_iff.mp hlookup
    obtain rfl : j = k := by simpa using find?_some hfind
    obtain rfl : w = some v := hw
    exact mem_reverse.mp (mem_of_find?_eq_some hfind)

end Edited

/-- The entries of a map in increasing order of their keys. -/
structure SortedMap (K V : Type) [LinearOrder K] where
  entries : List (K × V)
  sorted : entries.Pairwise fun a b => a.1 < b.1

namespace SortedMap

variable {K V : Type} [LinearOrder K]

def empty : SortedMap K V := ⟨[], List.Pairwise.nil⟩

def insert (m : SortedMap K V) (k : K) (v : V) : SortedMap K V where
  entries := (m.entries.filter fun e => e.1 < k) ++ (k, v) :: m.entries.filter fun e => k < e.1
  sorted := by
    rw [pairwise_append, pairwise_cons]
    refine ⟨m.sorted.filter _, ⟨?_, m.sorted.filter _⟩, ?_⟩
    · intro e he
      simpa using (mem_filter.mp he).2
    · intro a ha b hb
      have hak : a.1 < k := by simpa using (mem_filter.mp ha).2
      rcases mem_cons.mp hb with rfl | hb
      · exact hak
      · exact hak.trans (by simpa using (mem_filter.mp hb).2)

def erase (m : SortedMap K V) (k : K) : SortedMap K V where
  entries := m.entries.filter fun e => e.1 ≠ k
  sorted := m.sorted.filter _

def get? (m : SortedMap K V) (k : K) : Option V := lookup m.entries k

def scan (m : SortedMap K V) (lo hi : K) : List (K × V) :=
  m.entries.filter fun e => lo ≤ e.1 ∧ e.1 ≤ hi

variable {m : SortedMap K V} {k j lo hi : K} {v w : V}

theorem mem_insert : (j, w) ∈ (m.insert k v).entries ↔
    if j = k then w = v else (j, w) ∈ m.entries := by
  simp only [insert, mem_append, mem_cons, mem_filter, decide_eq_true_eq, Prod.mk.injEq]
  by_cases hjk : j = k
  · subst hjk
    simp
  · rcases lt_or_gt_of_ne hjk with hlt | hgt
    · simp [hjk, hlt, hlt.not_gt]
    · simp [hjk, hgt, hgt.not_gt]

theorem mem_erase : (j, w) ∈ (m.erase k).entries ↔ (j, w) ∈ m.entries ∧ j ≠ k := by
  simp [erase]

theorem mem_scan : (k, v) ∈ m.scan lo hi ↔ (k, v) ∈ m.entries ∧ lo ≤ k ∧ k ≤ hi := by
  simp [scan]

theorem nodup_keys (m : SortedMap K V) : (m.entries.map Prod.fst).Nodup := by
  rw [List.Nodup, pairwise_map]
  exact m.sorted.imp fun h => h.ne

theorem get?_eq_some_iff : m.get? k = some v ↔ (k, v) ∈ m.entries :=
  lookup_eq_some_iff m.nodup_keys

theorem head?_scan_eq_some_iff : (m.scan lo hi).head? = some (k, v) ↔
    (k, v) ∈ m.entries ∧ lo ≤ k ∧ k ≤ hi ∧
      ∀ e ∈ m.entries, lo ≤ e.1 → e.1 ≤ hi → k ≤ e.1 := by
  have hsorted : (m.scan lo hi).Pairwise fun a b => a.1 < b.1 := m.sorted.filter _
  have hleast : (∀ e ∈ m.entries, lo ≤ e.1 → e.1 ≤ hi → k ≤ e.1) ↔ ∀ e ∈ m.scan lo hi, k ≤ e.1 := by
    simp only [scan, mem_filter, decide_eq_true_eq, and_imp]
  rw [hleast, ← and_assoc, ← and_assoc, and_assoc (b := lo ≤ k), ← mem_scan]
  cases hscan : m.scan lo hi with
  | nil => simp
  | cons e rest =>
    rw [hscan, pairwise_cons] at hsorted
    simp only [head?_cons, Option.some.injEq, mem_cons, forall_eq_or_imp]
    constructor
    · rintro rfl
      exact ⟨.inl rfl, le_rfl, fun b hb => (hsorted.1 b hb).le⟩
    · rintro ⟨rfl | hrest, hle, -⟩
      · rfl
      · exact absurd hle (hsorted.1 _ hrest).not_ge

theorem head?_scan_eq_none_iff : (m.scan lo hi).head? = none ↔
    ∀ e ∈ m.entries, lo ≤ e.1 → ¬e.1 ≤ hi := by
  simp [scan]

theorem lookup_scan [DecidableEq K] :
    lookup (m.scan lo hi) k = if lo ≤ k ∧ k ≤ hi then m.get? k else none := by
  have hnodup : ((m.scan lo hi).map Prod.fst).Nodup :=
    m.nodup_keys.sublist (filter_sublist.map _)
  ext w
  rw [lookup_eq_some_iff hnodup, mem_scan]
  split
  · rename_i hrange
    simp [hrange, get?_eq_some_iff]
  · rename_i hrange
    simp [hrange]

@[simp] theorem get?_empty : (empty : SortedMap K V).get? k = none := rfl

theorem get?_insert : (m.insert k v).get? j = if j = k then some v else m.get? j := by
  ext w
  rw [get?_eq_some_iff, mem_insert]
  by_cases hjk : j = k
  · simp [hjk, eq_comm]
  · simp [hjk, get?_eq_some_iff]

theorem get?_eq_none_iff : m.get? k = none ↔ ∀ v, (k, v) ∉ m.entries := by
  simp only [Option.eq_none_iff_forall_ne_some, ne_eq, get?_eq_some_iff]

def filter (m : SortedMap K V) (p : V → Bool) : SortedMap K V where
  entries := m.entries.filter fun e => p e.2
  sorted := m.sorted.filter _

theorem get?_filter (p : V → Bool) : (m.filter p).get? k = (m.get? k).filter p := by
  ext w
  rw [get?_eq_some_iff, Option.filter_eq_some_iff, get?_eq_some_iff]
  simp [filter]

def insertAll (m : SortedMap K V) (entries : List (K × V)) : SortedMap K V :=
  entries.foldl (fun m e => m.insert e.1 e.2) m

theorem get?_insertAll (n : SortedMap K V) :
    (m.insertAll n.entries).get? k = (n.get? k).or (m.get? k) := by
  have hfold : ∀ (entries : List (K × V)) (m : SortedMap K V), (entries.map Prod.fst).Nodup →
      (m.insertAll entries).get? k = (lookup entries k).or (m.get? k) := by
    intro entries
    induction entries with
    | nil => exact fun _ _ => rfl
    | cons e entries ih =>
      intro m hnodup
      rw [map_cons, nodup_cons] at hnodup
      rw [insertAll, foldl_cons]
      refine (ih (m.insert e.1 e.2) hnodup.2).trans ?_
      rw [get?_insert]
      by_cases hk : e.1 = k
      · have hnone : lookup entries k = none := by
          simp only [lookup, Option.map_eq_none_iff, find?_eq_none, decide_eq_true_eq]
          rintro x hx rfl
          exact hnodup.1 (hk ▸ mem_map_of_mem hx)
        rw [hnone]
        simp [lookup, hk]
      · simp [lookup, hk, Ne.symm hk]
  exact hfold n.entries m n.nodup_keys

/-- A list may have a key several times, with one value. -/
theorem get?_insertAll_eq_some_iff {entries : List (K × V)} {v : V}
    (h : ∀ a ∈ entries, ∀ b ∈ entries, a.1 = k → b.1 = k → a.2 = b.2) :
    (empty.insertAll entries).get? k = some v ↔ (k, v) ∈ entries := by
  induction entries using List.reverseRecOn with
  | nil => simp [insertAll]
  | append_singleton entries e ih =>
    have hlast : empty.insertAll (entries ++ [e]) = (empty.insertAll entries).insert e.1 e.2 := by
      simp [insertAll, foldl_append]
    rw [hlast, get?_insert, mem_append, mem_singleton]
    split
    · rename_i hk
      rw [Option.some.injEq]
      refine ⟨fun hv => .inr (Prod.ext hk hv.symm), ?_⟩
      rintro (hmem | rfl)
      · exact h e (by simp) (k, v) (by simp [hmem]) hk.symm rfl
      · rfl
    · rename_i hk
      rw [ih fun a ha b hb => h a (by simp [ha]) b (by simp [hb])]
      refine ⟨.inl, fun hmem => hmem.resolve_right ?_⟩
      rintro rfl
      exact hk rfl

theorem get?_erase : (m.erase k).get? j = if j = k then none else m.get? j := by
  ext w
  rw [get?_eq_some_iff, mem_erase]
  by_cases hjk : j = k
  · simp [hjk]
  · simp [hjk, get?_eq_some_iff]

def edit (m : SortedMap K V) (edits : List (K × Option V)) : SortedMap K V :=
  edits.foldl (fun m e => e.2.elim (m.erase e.1) (m.insert e.1)) m

theorem edit_append (edits edits' : List (K × Option V)) :
    m.edit (edits ++ edits') = (m.edit edits).edit edits' :=
  foldl_append

theorem get?_edit [DecidableEq K] {edits : List (K × Option V)} :
    (m.edit edits).get? k = edited edits (m.get? k) k := by
  induction edits generalizing m with
  | nil => rfl
  | cons e edits ih =>
    obtain ⟨j, value⟩ := e
    rw [← singleton_append, edited_append, edited_singleton]
    refine ih.trans (congrArg (fun old => edited edits old k) ?_)
    cases value with
    | none =>
      refine get?_erase.trans ?_
      congr
    | some v =>
      refine get?_insert.trans ?_
      congr

theorem mem_map_fst : k ∈ m.entries.map Prod.fst ↔ (m.get? k).isSome := isSome_lookup.symm

def keys (m : SortedMap K V) : Finset K := (m.entries.map Prod.fst).toFinset

theorem mem_keys : k ∈ m.keys ↔ (m.get? k).isSome := by
  rw [keys, mem_toFinset, mem_map_fst]

theorem card_keys (m : SortedMap K V) : m.keys.card = m.entries.length := by
  rw [keys, toFinset_card_of_nodup m.nodup_keys, length_map]

theorem keys_insert : (m.insert k v).keys = Insert.insert k m.keys := by
  ext j
  rw [Finset.mem_insert, mem_keys, mem_keys, get?_insert]
  by_cases hjk : j = k <;> simp [hjk]

theorem keys_erase : (m.erase k).keys = m.keys.erase k := by
  ext j
  rw [Finset.mem_erase, mem_keys, mem_keys, get?_erase]
  by_cases hjk : j = k <;> simp [hjk]

theorem length_insert (h : m.get? k = none) :
    (m.insert k v).entries.length = m.entries.length + 1 := by
  have hk : k ∉ m.keys := by simp [mem_keys, h]
  rw [← card_keys, ← card_keys, keys_insert, Finset.card_insert_of_notMem hk]

theorem length_erase (h : m.get? k = some v) :
    (m.erase k).entries.length + 1 = m.entries.length := by
  have hk : k ∈ m.keys := by simp [mem_keys, h]
  rw [← card_keys, ← card_keys, keys_erase, Finset.card_erase_add_one hk]

section Middle

variable {E old F : List (K × V)}

theorem entries_insert_of_middle (h : m.entries = E ++ (old ++ F)) (hold : ∀ e ∈ old, e.1 = k)
    (hsorted : (E ++ (k, v) :: F).Pairwise fun a b => a.1 < b.1) :
    (m.insert k v).entries = E ++ (k, v) :: F := by
  rw [pairwise_append, pairwise_cons] at hsorted
  obtain ⟨-, ⟨hF, -⟩, hEF⟩ := hsorted
  have hE : ∀ e ∈ E, e.1 < k := fun e he => hEF e he _ (mem_cons_self ..)
  have hleft : m.entries.filter (fun e => e.1 < k) = E := by
    rw [h, filter_append, filter_append, filter_eq_self.mpr (by simpa using hE),
      filter_eq_nil_iff.mpr (by simpa using fun e he => (hold e he).ge),
      filter_eq_nil_iff.mpr (by simpa using fun e he => (hF e he).le)]
    simp
  have hright : m.entries.filter (fun e => k < e.1) = F := by
    rw [h, filter_append, filter_append,
      filter_eq_nil_iff.mpr (by simpa using fun e he => (hE e he).le),
      filter_eq_nil_iff.mpr (by simpa using fun e he => (hold e he).le),
      filter_eq_self.mpr (by simpa using hF)]
    simp
  change m.entries.filter _ ++ (k, v) :: m.entries.filter _ = _
  rw [hleft, hright]

theorem entries_erase_of_middle (h : m.entries = E ++ (k, w) :: F) :
    (m.erase k).entries = E ++ F := by
  have hsorted := m.sorted
  rw [h, pairwise_append, pairwise_cons] at hsorted
  obtain ⟨-, ⟨hF, -⟩, hE⟩ := hsorted
  change m.entries.filter (fun e => e.1 ≠ k) = _
  rw [h, filter_append, filter_cons_of_neg (by simp), filter_eq_self.mpr fun e he => by
      simpa using ne_of_lt (hE e he _ (mem_cons_self ..)),
    filter_eq_self.mpr fun e he => by simpa using ne_of_gt (hF e he)]

end Middle

theorem eq_of_mem_iff {l l' : List (K × V)} (hl : l.Pairwise fun a b => a.1 < b.1)
    (hl' : l'.Pairwise fun a b => a.1 < b.1) (h : ∀ k v, (k, v) ∈ l ↔ (k, v) ∈ l') : l = l' := by
  have : Std.Irrefl fun a b : K × V => a.1 < b.1 := ⟨fun a => lt_irrefl a.1⟩
  have : Std.Antisymm fun a b : K × V => a.1 < b.1 := ⟨fun _ _ hab hba => absurd hab hba.not_gt⟩
  exact hl.eq_of_mem_iff hl' fun e => h e.1 e.2

theorem ext_get? {n : SortedMap K V} (h : ∀ k, m.get? k = n.get? k) : m = n := by
  have hentries : m.entries = n.entries :=
    eq_of_mem_iff m.sorted n.sorted fun k v => by simp only [← get?_eq_some_iff, h]
  cases m
  cases n
  simpa using hentries

end SortedMap

/-- A map in the order in which its keys were inserted. -/
@[ext]
structure Dict (K V : Type) where
  entries : List (K × V)
  nodup : (entries.map Prod.fst).Nodup

namespace Dict

variable {K V : Type} [DecidableEq K]

def empty : Dict K V := ⟨[], nodup_nil⟩

def get? (d : Dict K V) (k : K) : Option V := lookup d.entries k

/-- A key that is present keeps its place. -/
def set (d : Dict K V) (k : K) (v : V) : Dict K V :=
  if h : k ∈ d.entries.map Prod.fst then
    ⟨d.entries.map fun e => if e.1 = k then (k, v) else e, by
      have hkeys : (d.entries.map fun e => if e.1 = k then (k, v) else e).map Prod.fst =
          d.entries.map Prod.fst := by
        rw [map_map]
        refine map_congr_left fun e _ => ?_
        by_cases he : e.1 = k <;> simp [he]
      rw [hkeys]
      exact d.nodup⟩
  else
    ⟨d.entries ++ [(k, v)], by
      rw [map_append, nodup_append]
      refine ⟨d.nodup, by simp, ?_⟩
      intro a ha b hb hab
      obtain rfl : b = k := by simpa using hb
      exact h (hab ▸ ha)⟩

def erase (d : Dict K V) (k : K) : Dict K V where
  entries := d.entries.filter fun e => e.1 ≠ k
  nodup := d.nodup.sublist (filter_sublist.map _)

variable {d : Dict K V} {k j : K} {v w : V}

theorem get?_eq_some_iff : d.get? k = some v ↔ (k, v) ∈ d.entries :=
  lookup_eq_some_iff d.nodup

theorem mem_map_fst : k ∈ d.entries.map Prod.fst ↔ (d.get? k).isSome := isSome_lookup.symm

theorem set_of_mem (hk : k ∈ d.entries.map Prod.fst) :
    (d.set k v).entries = d.entries.map fun e => if e.1 = k then (k, v) else e := by
  rw [set, dif_pos hk]

theorem set_of_not_mem (hk : k ∉ d.entries.map Prod.fst) :
    (d.set k v).entries = d.entries ++ [(k, v)] := by
  rw [set, dif_neg hk]

theorem mem_set : (j, w) ∈ (d.set k v).entries ↔ if j = k then w = v else (j, w) ∈ d.entries := by
  by_cases hk : k ∈ d.entries.map Prod.fst
  · rw [set_of_mem hk, mem_map]
    constructor
    · rintro ⟨⟨i, u⟩, hmem, heq⟩
      by_cases hik : i = k
      · simp only [hik, if_true, Prod.mk.injEq] at heq
        simp [← heq.1, ← heq.2]
      · simp only [hik, if_false, Prod.mk.injEq] at heq
        rw [if_neg (heq.1 ▸ hik), ← heq.1, ← heq.2]
        exact hmem
    · intro h
      split at h
      · rename_i hjk
        obtain ⟨⟨i, u⟩, hmem, rfl⟩ := mem_map.mp hk
        exact ⟨(i, u), hmem, by simp [hjk, h]⟩
      · rename_i hjk
        exact ⟨(j, w), h, by simp [hjk]⟩
  · rw [set_of_not_mem hk, mem_append, mem_singleton, Prod.mk.injEq]
    by_cases hjk : j = k
    · subst hjk
      have hnot : (j, w) ∉ d.entries := fun h => hk (mem_map.mpr ⟨_, h, rfl⟩)
      simp [hnot]
    · simp [hjk]

theorem mem_erase : (j, w) ∈ (d.erase k).entries ↔ (j, w) ∈ d.entries ∧ j ≠ k := by
  simp [erase]

theorem get?_erase : (d.erase k).get? j = if j = k then none else d.get? j := by
  ext w
  rw [get?_eq_some_iff, mem_erase]
  by_cases hjk : j = k
  · simp [hjk]
  · simp [hjk, get?_eq_some_iff]

theorem get?_set : (d.set k v).get? j = if j = k then some v else d.get? j := by
  ext w
  rw [get?_eq_some_iff, mem_set]
  by_cases hjk : j = k
  · simp [hjk, eq_comm]
  · simp [hjk, get?_eq_some_iff]

def mapValues {W : Type} (f : V → W) (d : Dict K V) : Dict K W where
  entries := d.entries.map fun e => (e.1, f e.2)
  nodup := by
    rw [map_map]
    exact d.nodup

variable {W : Type} {f : V → W}

omit [DecidableEq K] in
theorem keys_mapValues : (d.mapValues f).entries.map Prod.fst = d.entries.map Prod.fst := by
  simp [mapValues]

theorem get?_mapValues : (d.mapValues f).get? k = (d.get? k).map f := lookup_map f d.entries k

theorem mapValues_set : (d.set k v).mapValues f = (d.mapValues f).set k (f v) := by
  ext1
  by_cases hk : k ∈ d.entries.map Prod.fst
  · have hk' : k ∈ (d.mapValues f).entries.map Prod.fst := by rwa [keys_mapValues]
    rw [set_of_mem hk']
    simp only [mapValues, set_of_mem hk, map_map]
    refine map_congr_left fun e _ => ?_
    by_cases he : e.1 = k <;> simp [he]
  · have hk' : k ∉ (d.mapValues f).entries.map Prod.fst := by rwa [keys_mapValues]
    rw [set_of_not_mem hk']
    simp [mapValues, set_of_not_mem hk]

theorem mapValues_erase : (d.erase k).mapValues f = (d.mapValues f).erase k := by
  simp only [erase, mapValues, mk.injEq, filter_map]
  rfl

end Dict

end LiteDB.SortedMaps
