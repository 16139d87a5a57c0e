import LiteDB.Mvcc
import Mathlib.Data.List.Induction

namespace LiteDB.VersionSets

open Lexicographic List Mvcc Mvcc.MvccEngine Option SortedMaps StorageEngines VersionKeys
open SortedMap

/-- A version of a user key. -/
structure Version where
  key : Text
  ts : Int
  value : Text

/-- The entry of the engine that stands for a version. -/
def Version.entry (v : Version) : Text × Text := (versionKey v.key v.ts, v.value)

def Before (a b : Version) : Prop := a.key < b.key ∨ (a.key = b.key ∧ b.ts < a.ts)

variable {readTs : Int} {v : Version} {vs : List Version}

section Loop

variable {st : Scanning}

theorem userKeyFromVersionKey_versionKey {key : Text} {ts : Int} (h : InRange ts) :
    userKeyFromVersionKey (versionKey key ts) = key := by
  have hlength : (versionKey key ts).length - 17 = key.length := by
    simp [versionKey_eq h, length_suffix]
  rw [userKeyFromVersionKey, hlength, versionKey_eq h, take_left]

def resolve (readTs : Int) (st : Scanning) (v : Version) : Scanning :=
  let resolved := st.resolved && st.cur == some v.key
  if resolved ∨ readTs < v.ts then ⟨st.out, some v.key, resolved⟩
  else ⟨st.out ++ ((visible v.value).map (Prod.mk v.key)).toList, some v.key, true⟩

theorem next_entry (h : InRange v.ts) :
    Scanning.next readTs st v.entry = some (resolve readTs st v) := by
  simp only [Scanning.next, Version.entry, tsFromVersionKey_versionKey h, map_some,
    userKeyFromVersionKey_versionKey h, resolve]

theorem foldlM_next (h : ∀ v ∈ vs, InRange v.ts) :
    (vs.map Version.entry).foldlM (Scanning.next readTs) st =
      some (vs.foldl (resolve readTs) st) := by
  induction vs generalizing st with
  | nil => rfl
  | cons v vs ih =>
    rw [map_cons, foldlM_cons, next_entry (h v mem_cons_self)]
    exact ih fun w hw => h w (mem_cons_of_mem _ hw)

/-- The newest version of a key up to the timestamp has this value. -/
def First (readTs : Int) (vs : List Version) (key value : Text) : Prop :=
  ∃ v ∈ vs, v.key = key ∧ v.ts ≤ readTs ∧ visible v.value = some value ∧
    ∀ w ∈ vs, w.key = key → w.ts ≤ readTs → w.ts ≤ v.ts

def Seen (readTs : Int) (vs : List Version) (key : Text) : Prop :=
  ∃ v ∈ vs, v.key = key ∧ v.ts ≤ readTs

/-- In the versions behind which a loop stands, the last one first, one of the key up to the
timestamp comes before all other keys. -/
def trails (readTs : Int) (key : Text) : List Version → Bool
  | [] => false
  | v :: vs => v.key = key && (v.ts ≤ readTs || trails readTs key vs)

theorem trails_eq_true_iff {key : Text} : trails readTs key vs = true ↔
    ∃ after u before, vs = after ++ u :: before ∧ u.key = key ∧ u.ts ≤ readTs ∧
      ∀ w ∈ after, w.key = key := by
  induction vs with
  | nil => simp [trails]
  | cons v vs ih =>
    simp only [trails, Bool.and_eq_true, decide_eq_true_eq, Bool.or_eq_true, ih]
    constructor
    · rintro ⟨hkey, hts | ⟨after, u, before, rfl, hukey, huts, hall⟩⟩
      · exact ⟨[], v, vs, rfl, hkey, hts, by simp⟩
      · exact ⟨v :: after, u, before, rfl, hukey, huts, forall_mem_cons.mpr ⟨hkey, hall⟩⟩
    · rintro ⟨_ | ⟨w, after⟩, u, before, heq, hkey, hts, hall⟩
      · cases heq
        exact ⟨hkey, .inl hts⟩
      · cases heq
        rw [forall_mem_cons] at hall
        exact ⟨hall.1, .inr ⟨after, u, before, rfl, hkey, hts, hall.2⟩⟩

/-- Where a loop stands behind the versions `vs`: `cur` is the key of the last one, and
`resolved` says that a version up to the timestamp has come since the loop has this key. -/
def Standing (readTs : Int) (vs : List Version) (cur : Option Text) (resolved : Bool) : Prop :=
  ∀ key, (resolved && cur == some key) = trails readTs key vs.reverse

theorem standing_concat {resolved : Bool}
    (h : resolved = (decide (v.ts ≤ readTs) || trails readTs v.key vs.reverse)) :
    Standing readTs (vs ++ [v]) (some v.key) resolved := by
  intro key
  rw [h, reverse_append]
  by_cases hkey : v.key = key
  · subst hkey
    simp [trails]
  · simp [trails, hkey]

/-- What the loop of `_scan` lists of versions in the reverse order. -/
def picks (readTs : Int) : List Version → List Version
  | [] => []
  | v :: vs => picks readTs vs ++
      if v.ts ≤ readTs ∧ v.value ≠ tombstone ∧ trails readTs v.key vs = false then [v] else []

theorem mem_picks : v ∈ picks readTs vs ↔ v.ts ≤ readTs ∧ v.value ≠ tombstone ∧
    ∃ after before, vs = after ++ v :: before ∧ trails readTs v.key before = false := by
  induction vs with
  | nil => simp [picks]
  | cons w vs ih =>
    have hlast : (v ∈ if w.ts ≤ readTs ∧ w.value ≠ tombstone ∧ trails readTs w.key vs = false
        then [w] else []) ↔
        v = w ∧ v.ts ≤ readTs ∧ v.value ≠ tombstone ∧ trails readTs v.key vs = false := by
      split
      · rename_i h
        simp only [mem_singleton]
        exact ⟨fun heq => ⟨heq, heq ▸ h⟩, And.left⟩
      · rename_i h
        simp only [not_mem_nil, false_iff]
        rintro ⟨rfl, hv⟩
        exact h hv
    rw [picks, mem_append, ih, hlast]
    constructor
    · rintro (⟨hts, hvalue, after, before, rfl, hnew⟩ | ⟨rfl, hts, hvalue, hnew⟩)
      · exact ⟨hts, hvalue, w :: after, before, rfl, hnew⟩
      · exact ⟨hts, hvalue, [], vs, rfl, hnew⟩
    · rintro ⟨hts, hvalue, _ | ⟨u, after⟩, before, heq, hnew⟩
      · cases heq
        exact .inr ⟨rfl, hts, hvalue, hnew⟩
      · cases heq
        exact .inl ⟨hts, hvalue, after, before, rfl, hnew⟩

theorem picks_sublist : (picks readTs vs).reverse.Sublist vs := by
  induction vs with
  | nil => exact Sublist.slnil
  | cons v vs ih =>
    rw [picks, reverse_append]
    split
    · exact ih.cons_cons v
    · exact ih.cons v

/-- The pair that a scan lists for a version. -/
def Version.shown (v : Version) : Text × Text := (v.key, v.value)

theorem foldl_resolve (vs : List Version) :
    Standing readTs vs (vs.foldl (resolve readTs) ⟨[], none, false⟩).cur
        (vs.foldl (resolve readTs) ⟨[], none, false⟩).resolved ∧
      (vs.foldl (resolve readTs) ⟨[], none, false⟩).out =
        (picks readTs vs.reverse).map Version.shown := by
  induction vs using List.reverseRecOn with
  | nil => exact ⟨fun _ => rfl, rfl⟩
  | append_singleton vs v ih =>
    obtain ⟨hstanding, hout⟩ := ih
    rw [foldl_append, reverse_append]
    simp only [foldl_cons, foldl_nil, resolve, hstanding v.key, reverse_singleton,
      singleton_append, picks, map_append, ← hout]
    split
    · rename_i hhidden
      refine ⟨standing_concat ?_, ?_⟩
      · by_cases hts : v.ts ≤ readTs
        · simp [hhidden.resolve_right hts.not_gt]
        · simp [hts]
      · rw [if_neg, map_nil, append_nil]
        rintro ⟨hts, -, hnew⟩
        rcases hhidden with hseen | hlt
        · simp [hseen] at hnew
        · exact hlt.not_ge hts
    · rename_i hhidden
      rw [not_or, not_lt, Bool.not_eq_true] at hhidden
      refine ⟨standing_concat (by simp [hhidden.2]), ?_⟩
      by_cases hvalue : v.value = tombstone <;> simp [visible, hvalue, hhidden, Version.shown]

section Before

theorem Before.key_le {a b : Version} (h : Before a b) : a.key ≤ b.key := by
  rcases h with hlt | ⟨heq, -⟩
  · exact hlt.le
  · exact heq.le

theorem before_of_mem (horder : (vs ++ [v]).Pairwise Before) {u : Version} (hu : u ∈ vs) :
    Before u v :=
  (pairwise_append.mp horder).2.2 u hu v (by simp)

theorem trails_iff_seen (horder : (vs ++ [v]).Pairwise Before) :
    trails readTs v.key vs.reverse = true ↔ Seen readTs vs v.key := by
  rw [trails_eq_true_iff]
  constructor
  · rintro ⟨after, u, before, heq, hkey, hts, -⟩
    exact ⟨u, mem_reverse.mp (heq ▸ by simp), hkey, hts⟩
  · rintro ⟨u, hu, hkey, hts⟩
    obtain ⟨before, after, rfl⟩ := append_of_mem hu
    refine ⟨after.reverse, u, before.reverse, by simp, hkey, hts, fun w hw => ?_⟩
    rw [mem_reverse] at hw
    -- the keys do not decrease from `u` over `w` to `v`
    have hle : u.key ≤ w.key := by
      have hrest := (pairwise_append.mp (pairwise_append.mp horder).1).2.1
      exact ((pairwise_cons.mp hrest).1 w hw).key_le
    exact le_antisymm (before_of_mem horder (by simp [hw])).key_le (hkey ▸ hle)

end Before

end Loop

theorem exists_versions {entries : List (Text × Text)} {p : Version → Prop}
    (h : ∀ e ∈ entries, ∃ v : Version, v.entry = e ∧ p v) :
    ∃ vs : List Version, vs.map Version.entry = entries ∧ ∀ v ∈ vs, p v := by
  induction entries with
  | nil => exact ⟨[], rfl, by simp⟩
  | cons e entries ih =>
    obtain ⟨v, rfl, hv⟩ := h e mem_cons_self
    obtain ⟨vs, rfl, hvs⟩ := ih fun x hx => h x (mem_cons_of_mem _ hx)
    exact ⟨v :: vs, rfl, forall_mem_cons.mpr ⟨hv, hvs⟩⟩

theorem before_of_lt {a b : Version} (hapart : Apart b.key a.key) (ha : InRange a.ts)
    (hb : InRange b.ts) (h : a.entry.1 < b.entry.1) : Before a b := by
  have hnot := not_le.mpr h
  rw [Version.entry, Version.entry, hapart.versionKey_le_iff hb ha, not_or, not_and, not_le,
    not_lt] at hnot
  rcases lt_or_eq_of_le hnot.1 with hlt | heq
  · exact .inl hlt
  · exact .inr ⟨heq, hnot.2 heq.symm⟩

variable {lo hi key : Text}

section Maps

variable {E : StorageEngine} {m : MvccEngine E} {ws : List Version} {value : Text}

/-- The entries of the map are versions with timestamps in range. -/
structure Keeps (c : SortedMap Text Text) (vs : List Version) : Prop where
  mem : ∀ vkey value, (vkey, value) ∈ c.entries ↔ ∃ v ∈ vs, v.entry = (vkey, value)
  range : ∀ v ∈ vs, InRange v.ts

variable {c : SortedMap Text Text}

theorem entry_injective {w : Version} (hv : InRange v.ts) (hw : InRange w.ts)
    (h : v.entry = w.entry) : v = w := by
  obtain ⟨hkey, hts⟩ := versionKey_injective hv hw (congrArg Prod.fst h)
  have hvalue : v.value = w.value := congrArg Prod.snd h
  cases v
  cases w
  simp only at hkey hts hvalue
  subst hkey hts hvalue
  rfl

/-- A scan from `lo` to `hi` meets the version. -/
def Meets (lo hi : Text) (v : Version) : Prop :=
  lo ≤ versionKey v.key v.ts ∧ versionKey v.key v.ts ≤ hi

instance (lo hi : Text) (v : Version) : Decidable (Meets lo hi v) :=
  inferInstanceAs (Decidable (_ ∧ _))

theorem Keeps.mem_scan (h : Keeps c vs) (hv : InRange v.ts) :
    v.entry ∈ c.scan lo hi ↔ v ∈ vs ∧ Meets lo hi v := by
  rw [Version.entry, SortedMap.mem_scan, h.mem]
  refine and_congr_left fun _ => ⟨?_, fun hmem => ⟨v, hmem, rfl⟩⟩
  rintro ⟨w, hw, heq⟩
  rwa [← entry_injective (h.range w hw) hv heq]

theorem First.congr (h : ∀ v : Version, v.key = key → (v ∈ vs ↔ v ∈ ws)) :
    First readTs vs key value ↔ First readTs ws key value := by
  unfold First
  constructor
  · rintro ⟨v, hv, rfl, hts, hvalue, hnewest⟩
    exact ⟨v, (h v rfl).mp hv, rfl, hts, hvalue, fun w hw hwkey =>
      hnewest w ((h w hwkey).mpr hw) hwkey⟩
  · rintro ⟨v, hv, rfl, hts, hvalue, hnewest⟩
    exact ⟨v, (h v rfl).mpr hv, rfl, hts, hvalue, fun w hw hwkey =>
      hnewest w ((h w hwkey).mp hw) hwkey⟩

/-- The order of the versions of a key. -/
theorem entry_le_iff {w : Version} (hv : InRange v.ts) (hw : InRange w.ts) (hkey : v.key = w.key) :
    v.entry.1 ≤ w.entry.1 ↔ w.ts ≤ v.ts := by
  rw [Version.entry, Version.entry, hkey, (apart_self w.key).versionKey_le_iff hv hw]
  simp

theorem entry_lt_iff {w : Version} (hv : InRange v.ts) (hw : InRange w.ts) (hkey : v.key = w.key) :
    v.entry.1 < w.entry.1 ↔ w.ts < v.ts := by
  rw [← not_le, entry_le_iff hw hv hkey.symm, not_le]

/-- A scan from `lo` to `hi` meets no version before this one. -/
def Leads (lo hi : Text) (vs : List Version) (v : Version) : Prop :=
  Meets lo hi v ∧ ∀ u ∈ vs, Meets lo hi u → v.entry.1 ≤ u.entry.1

instance (lo hi : Text) (vs : List Version) (v : Version) : Decidable (Leads lo hi vs v) :=
  inferInstanceAs (Decidable (_ ∧ _))

theorem Keeps.head?_scan (h : Keeps c vs) {e : Text × Text} :
    (c.scan lo hi).head? = some e ↔ ∃ v ∈ vs, v.entry = e ∧ Leads lo hi vs v := by
  obtain ⟨vkey, value⟩ := e
  rw [head?_scan_eq_some_iff, h.mem]
  constructor
  · rintro ⟨⟨v, hv, heq⟩, hlo, hhi, hleast⟩
    obtain ⟨rfl, rfl⟩ := Prod.mk.inj heq
    exact ⟨v, hv, rfl, ⟨hlo, hhi⟩, fun u hu hmeets =>
      hleast u.entry ((h.mem _ _).mpr ⟨u, hu, rfl⟩) hmeets.1 hmeets.2⟩
  · rintro ⟨v, hv, heq, ⟨hlo, hhi⟩, hleast⟩
    obtain ⟨rfl, rfl⟩ := Prod.mk.inj heq
    refine ⟨⟨v, hv, rfl⟩, hlo, hhi, fun e he helo hehi => ?_⟩
    obtain ⟨u, hu, hentry⟩ := (h.mem e.1 e.2).mp he
    obtain rfl : u.entry = e := hentry
    exact hleast u hu ⟨helo, hehi⟩

theorem Keeps.exists_leads (h : Keeps c vs) (hv : v ∈ vs) (hmeets : Meets lo hi v) :
    ∃ w ∈ vs, Leads lo hi vs w ∧ (c.scan lo hi).head? = some w.entry := by
  cases hhead : (c.scan lo hi).head? with
  | none =>
    exact absurd hmeets.2 (head?_scan_eq_none_iff.mp hhead v.entry
      ((h.mem _ _).mpr ⟨v, hv, rfl⟩) hmeets.1)
  | some e =>
    obtain ⟨w, hw, rfl, hleads⟩ := h.head?_scan.mp hhead
    exact ⟨w, hw, hleads, rfl⟩

/-- A read is right when the first version that it meets is one of its key. -/
theorem Keeps.read_eq_some_iff_of_leads (h : Keeps (E.contents m.engine) vs) (hread : 0 ≤ readTs)
    (hlead : ∀ w ∈ vs, Leads (versionKey key readTs) (key ++ sep :: hi16) vs w → w.key = key) :
    m.read key readTs = some value ↔ First readTs vs key value := by
  have hown : ∀ v ∈ vs, v.key = key →
      (Meets (versionKey key readTs) (key ++ sep :: hi16) v ↔ v.ts ≤ readTs) := by
    rintro v hv rfl
    refine ((apart_self v.key).mem_snapshot_iff (h.range v hv) hread).trans ?_
    simp
  unfold MvccEngine.read
  rw [E.scan_eq, bind_eq_some_iff]
  constructor
  · rintro ⟨e, hhead, hvalue⟩
    obtain ⟨v, hv, rfl, hleads⟩ := h.head?_scan.mp hhead
    have hkey := hlead v hv hleads
    refine ⟨v, hv, hkey, (hown v hv hkey).mp hleads.1, hvalue, fun w hw hwkey hwts => ?_⟩
    rw [← entry_le_iff (h.range v hv) (h.range w hw) (hkey.trans hwkey.symm)]
    exact hleads.2 w hw ((hown w hw hwkey).mpr hwts)
  · rintro ⟨v, hv, hkey, hts, hvalue, hnewest⟩
    have hmeets := (hown v hv hkey).mpr hts
    obtain ⟨w, hw, hleads, -⟩ := h.exists_leads hv hmeets
    have hwkey := hlead w hw hleads
    refine ⟨v.entry, h.head?_scan.mpr ⟨v, hv, rfl, hmeets, fun u hu humeets => ?_⟩, hvalue⟩
    refine le_trans ?_ (hleads.2 u hu humeets)
    rw [entry_le_iff (h.range v hv) (h.range w hw) (hkey.trans hwkey.symm)]
    exact hnewest w hw hwkey ((hown w hw hwkey).mp hleads.1)

theorem Keeps.read_eq_some_iff (h : Keeps (E.contents m.engine) vs)
    (hapart : ∀ v ∈ vs, Apart v.key key) (hread : 0 ≤ readTs) :
    m.read key readTs = some value ↔ First readTs vs key value :=
  h.read_eq_some_iff_of_leads hread fun w hw hleads =>
    (((hapart w hw).mem_snapshot_iff (h.range w hw) hread).mp hleads.1).1

/-- The largest timestamp of a key, or 0. -/
def newestTs (vs : List Version) (key : Text) : Int :=
  ((vs.filter fun v => v.key = key).map Version.ts).foldr max 0

theorem newestTs_spec (vs : List Version) (key : Text) : 0 ≤ newestTs vs key ∧
    (∀ v ∈ vs, v.key = key → v.ts ≤ newestTs vs key) ∧
    (newestTs vs key = 0 ∨ ∃ v ∈ vs, v.key = key ∧ v.ts = newestTs vs key) := by
  induction vs with
  | nil => simp [newestTs]
  | cons v vs ih =>
    obtain ⟨hnonneg, hle, hfrom⟩ := ih
    by_cases hkey : v.key = key
    · have hcons : newestTs (v :: vs) key = max v.ts (newestTs vs key) := by
        simp [newestTs, hkey]
      rw [hcons]
      refine ⟨le_max_of_le_right hnonneg, forall_mem_cons.mpr
        ⟨fun _ => le_max_left _ _, fun w hw hwkey => le_max_of_le_right (hle w hw hwkey)⟩, ?_⟩
      rcases le_total v.ts (newestTs vs key) with hts | hts
      · rw [max_eq_right hts]
        refine hfrom.imp_right fun ⟨w, hw, hwkey, hwts⟩ => ?_
        exact ⟨w, mem_cons_of_mem _ hw, hwkey, hwts⟩
      · rw [max_eq_left hts]
        exact .inr ⟨v, mem_cons_self, hkey, rfl⟩
    · have hcons : newestTs (v :: vs) key = newestTs vs key := by simp [newestTs, hkey]
      rw [hcons]
      refine ⟨hnonneg, forall_mem_cons.mpr ⟨fun h => absurd h hkey, hle⟩, ?_⟩
      refine hfrom.imp_right fun ⟨w, hw, hwkey, hwts⟩ => ?_
      exact ⟨w, mem_cons_of_mem _ hw, hwkey, hwts⟩

theorem newestTs_eq_of_newest (hv : v ∈ vs) (hkey : v.key = key) (hts : 0 ≤ v.ts)
    (hnewest : ∀ w ∈ vs, w.key = key → w.ts ≤ v.ts) : newestTs vs key = v.ts := by
  obtain ⟨-, hle, hfrom⟩ := newestTs_spec vs key
  have hv' := hle v hv hkey
  rcases hfrom with hzero | ⟨w, hw, hwkey, hwts⟩
  · omega
  · have hw' := hnewest w hw hwkey
    omega

/-- A conflict check is right when the first version that it meets is one of its key, or has
the timestamp that this one should have. -/
theorem Keeps.newestCommittedTs_eq_iff (h : Keeps (E.contents m.engine) vs) :
    m.newestCommittedTs key = some (newestTs vs key) ↔
      ∀ w ∈ vs, Leads (key ++ [sep]) (key ++ sep :: hi16) vs w →
        w.key = key ∨ w.ts = newestTs vs key := by
  have hfirst : ∀ w ∈ vs, Leads (key ++ [sep]) (key ++ sep :: hi16) vs w →
      m.newestCommittedTs key = some w.ts := by
    intro w hw hleads
    rw [MvccEngine.newestCommittedTs, E.scan_eq, h.head?_scan.mpr ⟨w, hw, rfl, hleads⟩]
    exact tsFromVersionKey_versionKey (h.range w hw)
  constructor
  · intro hts w hw hleads
    exact .inr (Option.some.inj ((hfirst w hw hleads).symm.trans hts))
  · intro hlead
    have hown : ∀ v ∈ vs, v.key = key → Meets (key ++ [sep]) (key ++ sep :: hi16) v := by
      rintro v hv rfl
      exact ((apart_self v.key).mem_range_iff (h.range v hv)).mpr rfl
    by_cases hmet : ∃ v ∈ vs, Meets (key ++ [sep]) (key ++ sep :: hi16) v
    · obtain ⟨v, hv, hmeets⟩ := hmet
      obtain ⟨w, hw, hleads, -⟩ := h.exists_leads hv hmeets
      rw [hfirst w hw hleads, Option.some.injEq]
      refine (hlead w hw hleads).elim (fun hkey => ?_) id
      refine (newestTs_eq_of_newest hw hkey (h.range w hw).1 fun u hu hukey => ?_).symm
      rw [← entry_le_iff (h.range w hw) (h.range u hu) (hkey.trans hukey.symm)]
      exact hleads.2 u hu (hown u hu hukey)
    · have hnone : ((E.contents m.engine).scan (key ++ [sep]) (key ++ sep :: hi16)).head? =
          none := by
        refine Option.eq_none_iff_forall_ne_some.mpr fun e he => hmet ?_
        obtain ⟨w, hw, -, hleads⟩ := h.head?_scan.mp he
        exact ⟨w, hw, hleads.1⟩
      rw [MvccEngine.newestCommittedTs, E.scan_eq, hnone]
      rcases (newestTs_spec vs key).2.2 with hzero | ⟨v, hv, hkey, -⟩
      · rw [hzero]
      · exact absurd ⟨v, hv, hown v hv hkey⟩ hmet

theorem Keeps.newestCommittedTs_eq (h : Keeps (E.contents m.engine) vs)
    (hapart : ∀ v ∈ vs, Apart v.key key) : m.newestCommittedTs key = some (newestTs vs key) :=
  h.newestCommittedTs_eq_iff.mpr fun w hw hleads =>
    .inl (((hapart w hw).mem_range_iff (h.range w hw)).mp hleads.1)

theorem Keeps.exists_versions (h : Keeps c vs) (lo hi : Text) :
    ∃ ws : List Version, ws.map Version.entry = c.scan lo hi ∧
      ws.Pairwise (fun a b => a.entry.1 < b.entry.1) ∧ ∀ v, v ∈ ws ↔ v ∈ vs ∧ Meets lo hi v := by
  have hentries : ∀ e ∈ c.scan lo hi, ∃ v : Version, v.entry = e ∧ v ∈ vs ∧ Meets lo hi v := by
    rintro ⟨vkey, value⟩ he
    obtain ⟨v, hv, heq⟩ := (h.mem vkey value).mp (SortedMap.mem_scan.mp he).1
    exact ⟨v, heq, (h.mem_scan (h.range v hv)).mp (heq ▸ he)⟩
  obtain ⟨ws, hws, hall⟩ := VersionSets.exists_versions hentries
  refine ⟨ws, hws, ?_, fun v => ⟨hall v, fun ⟨hv, hmeets⟩ => ?_⟩⟩
  · rw [← pairwise_map (R := fun a b : Text × Text => a.1 < b.1), hws]
    exact c.sorted.filter _
  · have hentry : v.entry ∈ ws.map Version.entry := by
      rw [hws]
      exact (h.mem_scan (h.range v hv)).mpr ⟨hv, hmeets⟩
    obtain ⟨w, hw, heq⟩ := mem_map.mp hentry
    rwa [← entry_injective (h.range w (hall w hw).1) (h.range v hv) heq]

/-- In the range of a scan, a version of the key up to the timestamp comes before `v`, and no
other key comes between them. -/
def Follows (readTs : Int) (lo hi : Text) (vs : List Version) (v : Version) : Prop :=
  ∃ u ∈ vs, Meets lo hi u ∧ u.key = v.key ∧ u.ts ≤ readTs ∧ u.entry.1 < v.entry.1 ∧
    ∀ w ∈ vs, u.entry.1 < w.entry.1 → w.entry.1 < v.entry.1 → w.key = v.key

instance (readTs : Int) (lo hi : Text) (vs : List Version) (v : Version) :
    Decidable (Follows readTs lo hi vs v) :=
  inferInstanceAs (Decidable (∃ u ∈ vs, _))

theorem mem_before_iff {f : Version → Text} {after before : List Version} {w : Version}
    (h : (after ++ v :: before).Pairwise fun a b => f b < f a) :
    w ∈ before ↔ w ∈ after ++ v :: before ∧ f w < f v := by
  obtain ⟨-, hrest, hcross⟩ := pairwise_append.mp h
  have hbefore := (pairwise_cons.mp hrest).1
  refine ⟨fun hw => ⟨by simp [hw], hbefore w hw⟩, fun ⟨hw, hlt⟩ => ?_⟩
  rw [mem_append, mem_cons] at hw
  rcases hw with hw | rfl | hw
  · exact absurd (hcross w hw v (by simp)) hlt.not_gt
  · exact absurd hlt (lt_irrefl _)
  · exact hw

theorem trails_iff_follows {ws after before : List Version}
    (hsorted : ws.Pairwise fun a b => a.entry.1 < b.entry.1)
    (hmem : ∀ v, v ∈ ws ↔ v ∈ vs ∧ Meets lo hi v) (hws : ws.reverse = after ++ v :: before) :
    trails readTs v.key before = true ↔ Follows readTs lo hi vs v := by
  have horder : (after ++ v :: before).Pairwise fun a b => b.entry.1 < a.entry.1 := by
    rw [← hws]
    exact pairwise_reverse.mpr hsorted
  have hall : ∀ w, w ∈ after ++ v :: before ↔ w ∈ vs ∧ Meets lo hi w := fun w => by
    rw [← hws, mem_reverse, hmem]
  have hv := ((hall v).mp (by simp)).2
  rw [trails_eq_true_iff]
  constructor
  · rintro ⟨newer, u, older, rfl, hkey, hts, hnewer⟩
    have hu := (mem_before_iff horder (w := u)).mp (by simp)
    obtain ⟨huvs, hmeets⟩ := (hall u).mp hu.1
    refine ⟨u, huvs, hmeets, hkey, hts, hu.2, fun w hw huw hwv => hnewer w ?_⟩
    have hbefore := (mem_before_iff horder).mpr
      ⟨(hall w).mpr ⟨hw, hmeets.1.trans huw.le, hwv.le.trans hv.2⟩, hwv⟩
    rcases mem_append.mp hbefore with hw' | hw'
    · exact hw'
    · have hrest := (pairwise_cons.mp (pairwise_append.mp horder).2.1).2
      rcases mem_cons.mp hw' with rfl | hw'
      · exact absurd huw (lt_irrefl _)
      · exact absurd ((mem_before_iff hrest).mp hw').2 huw.not_gt
  · rintro ⟨u, hu, hmeets, hkey, hts, huv, hbetween⟩
    have hbefore := (mem_before_iff horder).mpr ⟨(hall u).mpr ⟨hu, hmeets⟩, huv⟩
    obtain ⟨newer, older, rfl⟩ := append_of_mem hbefore
    refine ⟨newer, u, older, rfl, hkey, hts, fun w hw => ?_⟩
    obtain ⟨hmemw, hwv⟩ := (mem_before_iff horder (w := w)).mp (by simp [hw])
    have hrest := (pairwise_cons.mp (pairwise_append.mp horder).2.1).2
    exact hbetween w ((hall w).mp hmemw).1
      ((pairwise_append.mp hrest).2.2 w hw u (by simp)) hwv

/-- A scan lists the versions up to the timestamp that follow none of their key. -/
structure Lists (readTs : Int) (lo hi : Text) (vs ls : List Version) : Prop where
  sorted : ls.Pairwise fun a b => a.entry.1 < b.entry.1
  mem : ∀ v, v ∈ ls ↔ v ∈ vs ∧ Meets lo (hi ++ [hiChar]) v ∧ v.ts ≤ readTs ∧
    v.value ≠ tombstone ∧ ¬Follows readTs lo (hi ++ [hiChar]) vs v

theorem Keeps.exists_lists (h : Keeps (E.contents m.engine) vs) (lo hi : Text) (readTs : Int) :
    ∃ ls : List Version, m.scan lo hi readTs = some (ls.map Version.shown) ∧
      Lists readTs lo hi vs ls := by
  obtain ⟨ws, hws, hsorted, hmem⟩ := h.exists_versions lo (hi ++ [hiChar])
  refine ⟨picks readTs ws.reverse, ?_, ?_, fun v => ?_⟩
  · rw [MvccEngine.scan, E.scan_eq, ← hws, foldlM_next fun v hv => h.range v ((hmem v).mp hv).1,
      map_some, (foldl_resolve ws).2]
  · rw [← pairwise_reverse]
    exact (pairwise_reverse.mpr hsorted).sublist picks_sublist
  · rw [mem_picks, ← and_assoc (a := v ∈ vs), ← hmem]
    constructor
    · rintro ⟨hts, hvalue, after, before, heq, hnew⟩
      rw [← Bool.not_eq_true, trails_iff_follows hsorted hmem heq] at hnew
      exact ⟨mem_reverse.mp (heq ▸ by simp), hts, hvalue, hnew⟩
    · rintro ⟨hv, hts, hvalue, hnew⟩
      obtain ⟨after, before, heq⟩ := append_of_mem (mem_reverse.mpr hv)
      rw [← trails_iff_follows hsorted hmem heq, Bool.not_eq_true] at hnew
      exact ⟨hts, hvalue, after, before, heq, hnew⟩

theorem Keeps.exists_scan (h : Keeps (E.contents m.engine) vs) (lo hi : Text) (readTs : Int)
    (hsep : ∀ v ∈ vs, ∀ w ∈ vs, Apart v.key w.key) :
    ∃ out, m.scan lo hi readTs = some out ∧ out.Pairwise (fun a b => a.1 < b.1) ∧
      ∀ key value, (key, value) ∈ out ↔
        First readTs (vs.filter (Meets lo (hi ++ [hiChar]))) key value := by
  obtain ⟨ls, hscan, hsorted, hmem⟩ := h.exists_lists lo hi readTs
  have hbefore : ∀ a ∈ vs, ∀ b ∈ vs, a.entry.1 < b.entry.1 → Before a b := fun a ha b hb =>
    before_of_lt (hsep b hb a ha) (h.range a ha) (h.range b hb)
  have hfollows : ∀ u ∈ vs, ∀ v ∈ vs, Meets lo (hi ++ [hiChar]) u → u.key = v.key →
      u.ts ≤ readTs → u.entry.1 < v.entry.1 → Follows readTs lo (hi ++ [hiChar]) vs v := by
    refine fun u hu v hv hmeets hkey hts hlt => ⟨u, hu, hmeets, hkey, hts, hlt, ?_⟩
    intro w hw huw hwv
    exact le_antisymm (hbefore w hw v hv hwv).key_le (hkey ▸ (hbefore u hu w hw huw).key_le)
  refine ⟨_, hscan, ?_, fun key value => ?_⟩
  · refine pairwise_map.mpr (hsorted.imp_of_mem fun {a b} ha hb hlt => ?_)
    obtain ⟨ha, hameets, hats, -⟩ := (hmem a).mp ha
    obtain ⟨hb, -, -, -, hnew⟩ := (hmem b).mp hb
    refine lt_of_le_of_ne (hbefore a ha b hb hlt).key_le fun heq => hnew ?_
    exact hfollows a ha b hb hameets heq hats hlt
  · constructor
    · intro hlisted
      obtain ⟨v, hv, heq⟩ := mem_map.mp hlisted
      obtain ⟨rfl, rfl⟩ := Prod.mk.inj heq
      obtain ⟨hv, hmeets, hts, hvalue, hnew⟩ := (hmem v).mp hv
      refine ⟨v, by simp [hv, hmeets], rfl, hts, if_neg hvalue, fun w hw hkey hwts => ?_⟩
      rw [mem_filter, decide_eq_true_eq] at hw
      by_contra hlt
      exact hnew (hfollows w hw.1 v hv hw.2 hkey hwts
        ((entry_lt_iff (h.range w hw.1) (h.range v hv) hkey).mpr (not_le.mp hlt)))
    · rintro ⟨v, hv, rfl, hts, hvisible, hnewest⟩
      rw [mem_filter, decide_eq_true_eq] at hv
      obtain ⟨hvalue, hshown⟩ := Option.ite_none_left_eq_some.mp hvisible
      refine mem_map.mpr ⟨v, (hmem v).mpr ⟨hv.1, hv.2, hts, hvalue, ?_⟩, ?_⟩
      · rintro ⟨u, hu, hmeets, hkey, huts, hlt, -⟩
        have hle := hnewest u (by simp [hu, hmeets]) hkey huts
        exact ((entry_lt_iff (h.range u hu) (h.range v hv.1) hkey).mp hlt).not_ge hle
      · rw [Version.shown, Option.some.inj hshown]

end Maps

theorem foldlM_max {T : Type} {f : T → Option Int} {l : List T} (hf : ∀ x ∈ l, (f x).isSome)
    (start : Int) : ∃ M, l.foldlM (fun mx x => (f x).map fun ts => if mx < ts then ts else mx)
        start = some M ∧ start ≤ M ∧ (M = start ∨ ∃ x ∈ l, f x = some M) ∧
      ∀ x ∈ l, ∀ ts, f x = some ts → ts ≤ M := by
  induction l generalizing start with
  | nil => exact ⟨start, rfl, le_rfl, .inl rfl, by simp⟩
  | cons x l ih =>
    rw [forall_mem_cons] at hf
    obtain ⟨ts, hts⟩ := isSome_iff_exists.mp hf.1
    obtain ⟨M, hM, hle, hfrom, hmax⟩ := ih hf.2 (if start < ts then ts else start)
    have hstart : start ≤ M ∧ ts ≤ M := by
      split at hle <;> omega
    refine ⟨M, ?_, hstart.1, ?_, ?_⟩
    · rw [foldlM_cons, hts]
      exact hM
    · rcases hfrom with rfl | ⟨y, hy, hym⟩
      · split
        · exact .inr ⟨x, mem_cons_self .., hts⟩
        · exact .inl rfl
      · exact .inr ⟨y, mem_cons_of_mem _ hy, hym⟩
    · rw [forall_mem_cons]
      refine ⟨fun ts' hts' => ?_, hmax⟩
      cases hts.symm.trans hts'
      exact hstart.2

theorem Keeps.recoverMaxTs_eq {E : StorageEngine} {engine : E.State}
    (h : Keeps (E.contents engine) vs) :
    ∃ M, MvccEngine.recoverMaxTs (E := E) engine = some M ∧ 0 ≤ M ∧
      (M = 0 ∨ ∃ v ∈ vs, Meets [] [hiChar] v ∧ v.ts = M) ∧
      ∀ v ∈ vs, Meets [] [hiChar] v → v.ts ≤ M := by
  have hts : ∀ e ∈ (E.contents engine).scan [] [hiChar], ∃ v ∈ vs, Meets [] [hiChar] v ∧
      tsFromVersionKey e.1 = some v.ts := by
    rintro ⟨vkey, value⟩ he
    obtain ⟨v, hv, heq⟩ := (h.mem vkey value).mp (SortedMap.mem_scan.mp he).1
    obtain ⟨rfl, rfl⟩ := Prod.mk.inj heq
    have hrange := h.range v hv
    exact ⟨v, hv, ((h.mem_scan hrange).mp he).2, tsFromVersionKey_versionKey hrange⟩
  have hsome : ∀ e ∈ (E.contents engine).scan [] [hiChar], (tsFromVersionKey e.1).isSome := by
    intro e he
    obtain ⟨v, -, -, hv⟩ := hts e he
    rw [hv]
    rfl
  obtain ⟨M, hM, hnonneg, hfrom, hmax⟩ := foldlM_max hsome 0
  refine ⟨M, ?_, hnonneg, ?_, fun v hv hmeets => ?_⟩
  · rw [MvccEngine.recoverMaxTs, E.scan_eq]
    exact hM
  · refine hfrom.imp_right fun ⟨e, he, heM⟩ => ?_
    obtain ⟨v, hv, hmeets, hvts⟩ := hts e he
    exact ⟨v, hv, hmeets, Option.some.inj (hvts.symm.trans heM)⟩
  · have hrange := h.range v hv
    exact hmax v.entry ((h.mem_scan hrange).mpr ⟨hv, hmeets⟩) _ (tsFromVersionKey_versionKey hrange)

section Bounds

variable {ts ts' : Int}

/-- The bound of a scan does not fall between the versions of the key. -/
def Uncut (bound key : Text) : Prop := ¬key ++ [sep] <+: bound

theorem versionKey_le_of_uncut (h : Uncut hi key) (hkey : key ≤ hi) (hts : InRange ts) :
    versionKey key ts ≤ hi ++ [hiChar] := by
  rw [versionKey_eq hts]
  exact append_sep_le_of_le (fun rest heq => h ⟨rest, by simp [heq]⟩) hkey _

theorem le_versionKey_of_uncut (h : Uncut lo key) (hts : InRange ts) (hts' : InRange ts')
    (hle : lo ≤ versionKey key ts) : lo ≤ versionKey key ts' := by
  rw [versionKey_eq hts, append_cons] at hle
  rw [versionKey_eq hts', append_cons]
  by_contra hlt
  exact h (prefix_of_between (not_le.mp hlt).le hle)

theorem versionKey_le_of_versionKey_le (h : Uncut hi key) (hts : InRange ts) (hts' : InRange ts')
    (hle : versionKey key ts ≤ hi ++ [hiChar]) : versionKey key ts' ≤ hi ++ [hiChar] := by
  rw [versionKey_eq hts, append_cons] at hle
  rw [versionKey_eq hts', append_cons]
  by_contra hlt
  have hstart : key ++ [sep] <+: hi ++ [hiChar] := prefix_of_between hle (not_le.mp hlt).le
  rcases prefix_concat_iff.mp hstart with heq | hcut
  · exact absurd (append_inj' heq rfl).2 (by decide)
  · exact h hcut

theorem Meets.of_uncut {w : Version} (h : Meets lo (hi ++ [hiChar]) v) (hlo : Uncut lo v.key)
    (hhi : Uncut hi v.key) (hkey : w.key = v.key) (hv : InRange v.ts) (hw : InRange w.ts) :
    Meets lo (hi ++ [hiChar]) w := by
  rw [Meets, hkey]
  exact ⟨le_versionKey_of_uncut hlo hv hw h.1, versionKey_le_of_versionKey_le hhi hv hw h.2⟩

theorem meets_of_between (hhi : Uncut hi v.key) (hlo : lo ≤ v.key) (hle : v.key ≤ hi)
    (hv : InRange v.ts) : Meets lo (hi ++ [hiChar]) v := by
  refine ⟨?_, versionKey_le_of_uncut hhi hle hv⟩
  rw [versionKey_eq hv]
  exact hlo.trans (le_append _ _)

end Bounds

end LiteDB.VersionSets
