import LiteDB.CrashAtomicity

namespace LiteDB.VersionSeparation

open CrashAtomicity (mapEngine)
open List Mvcc SortedMaps StorageEngines VersionKeys VersionSets
open SortedMap

/-- The versions with other values. -/
def relabel (f : Text → Int → Text) (vs : List Version) : List Version :=
  vs.map fun v => { v with value := f v.key v.ts }

def Newest (r : Int) (vs : List Version) (v : Version) : Prop :=
  ∀ w ∈ vs, w.key = v.key → w.ts ≤ r → w.ts ≤ v.ts

instance (r : Int) (vs : List Version) (v : Version) : Decidable (Newest r vs v) :=
  inferInstanceAs (Decidable (∀ w ∈ vs, _))

/-- The versions that a scan meets follow others of their keys, but for the newest ones, and
it meets the newest ones of the keys between its bounds. -/
structure Orderly (r : Int) (lo hi : Text) (vs : List Version) : Prop where
  grouped : ∀ v ∈ vs, Meets lo (hi ++ [hiChar]) v → v.ts ≤ r →
    Newest r vs v ∨ Follows r lo (hi ++ [hiChar]) vs v
  met : ∀ v ∈ vs, lo ≤ v.key → v.key ≤ hi → v.ts ≤ r → Newest r vs v →
    Meets lo (hi ++ [hiChar]) v

section Answers

variable (r : Int) (vs : List Version)

/-- Reads of the key return its newest version, whatever the values are. -/
def ReadsNewest (key : Text) : Prop :=
  ∀ (E : StorageEngine) (m : MvccEngine E) (f : Text → Int → Text),
    Keeps (E.contents m.engine) (relabel f vs) →
      ∀ value, m.read key r = some value ↔ First r (relabel f vs) key value

def ChecksNewest (key : Text) : Prop :=
  ∀ (E : StorageEngine) (m : MvccEngine E) (f : Text → Int → Text),
    Keeps (E.contents m.engine) (relabel f vs) →
      m.newestCommittedTs key = some (newestTs vs key)

/-- Scans list keys once and with their newest versions, and all keys between the bounds. -/
def ListsNewest (lo hi : Text) : Prop :=
  ∀ (E : StorageEngine) (m : MvccEngine E) (f : Text → Int → Text),
    Keeps (E.contents m.engine) (relabel f vs) →
      ∃ out, m.scan lo hi r = some out ∧ (out.map Prod.fst).Nodup ∧
        (∀ e ∈ out, First r (relabel f vs) e.1 e.2) ∧
        ∀ key value, lo ≤ key → key ≤ hi → First r (relabel f vs) key value → (key, value) ∈ out

end Answers

def stored (vs : List Version) : MvccEngine mapEngine :=
  ⟨SortedMap.empty.insertAll (vs.map Version.entry), 0, 0⟩

section Stores

variable {r : Int} {vs : List Version} {v w : Version} {f : Text → Int → Text} {lo hi key : Text}

theorem mem_relabel : v ∈ relabel f vs ↔
    ∃ u ∈ vs, u.key = v.key ∧ u.ts = v.ts ∧ v.value = f v.key v.ts := by
  rw [relabel, mem_map]
  constructor
  · rintro ⟨u, hu, rfl⟩
    exact ⟨u, hu, rfl, rfl, rfl⟩
  · rintro ⟨u, hu, hkey, hts, hvalue⟩
    refine ⟨u, hu, ?_⟩
    cases v
    simp_all

theorem newestTs_relabel : newestTs (relabel f vs) key = newestTs vs key := by
  simp [newestTs, relabel, filter_map, Function.comp_def]

theorem keeps_stored (hrange : ∀ v ∈ vs, InRange v.ts) (f : Text → Int → Text) :
    Keeps (mapEngine.contents (stored (relabel f vs)).engine) (relabel f vs) := by
  have hrange' : ∀ v ∈ relabel f vs, InRange v.ts := by
    simpa [relabel] using hrange
  refine ⟨fun vkey value => ?_, hrange'⟩
  have hone : ∀ a ∈ (relabel f vs).map Version.entry, ∀ b ∈ (relabel f vs).map Version.entry,
      a.1 = vkey → b.1 = vkey → a.2 = b.2 := by
    simp only [forall_mem_map]
    intro v hv w hw hvkey hwkey
    have hsame := hvkey.trans hwkey.symm
    obtain ⟨hkey, hts⟩ := versionKey_injective (hrange' v hv) (hrange' w hw) hsame
    obtain ⟨-, -, -, -, hvalue⟩ := mem_relabel.mp hv
    obtain ⟨-, -, -, -, hvalue'⟩ := mem_relabel.mp hw
    rw [Version.entry, Version.entry, hvalue, hvalue', hkey, hts]
  rw [← get?_eq_some_iff]
  refine (get?_insertAll_eq_some_iff hone).trans ?_
  rw [mem_map]

/-- The values where only one version has one. -/
def only (w : Version) (key : Text) (ts : Int) : Text :=
  if key = w.key ∧ ts = w.ts then ['x'] else tombstone

theorem visible_only {ts : Int} {value : Text} :
    visible (only w key ts) = some value ↔ (key = w.key ∧ ts = w.ts) ∧ value = ['x'] := by
  unfold only
  split
  · rename_i h
    have hx : visible ['x'] = some ['x'] := rfl
    simp [hx, h, eq_comm]
  · rename_i h
    simp [visible, h]

theorem mem_relabel_only (hv : v ∈ vs) : { v with value := ['x'] } ∈ relabel (only v) vs :=
  mem_relabel.mpr ⟨v, hv, rfl, rfl, by simp [only]⟩

theorem first_only_iff {value : Text} (hw : w ∈ vs) : First r (relabel (only w) vs) key value ↔
    (key = w.key ∧ value = ['x']) ∧ w.ts ≤ r ∧ Newest r vs w := by
  constructor
  · rintro ⟨v, hv, rfl, hts, hvisible, hnewest⟩
    obtain ⟨-, -, -, -, hvalue⟩ := mem_relabel.mp hv
    rw [hvalue, visible_only] at hvisible
    obtain ⟨⟨hkey, hvts⟩, hx⟩ := hvisible
    refine ⟨⟨hkey, hx⟩, hvts ▸ hts, fun u hu hukey huts => ?_⟩
    exact hvts ▸ hnewest { u with value := only w u.key u.ts }
      (mem_relabel.mpr ⟨u, hu, rfl, rfl, rfl⟩) (hukey.trans hkey.symm) huts
  · rintro ⟨⟨rfl, rfl⟩, hts, hnewest⟩
    refine ⟨_, mem_relabel_only hw, rfl, hts, rfl, ?_⟩
    simpa [relabel, Newest] using hnewest

theorem readsNewest_iff (hrange : ∀ v ∈ vs, InRange v.ts) (hr : 0 ≤ r) :
    ReadsNewest r vs key ↔
      ∀ w ∈ vs, Leads (versionKey key r) (key ++ sep :: hi16) vs w → w.key = key := by
  constructor
  · intro hreads w hw hleads
    have hkeeps := keeps_stored hrange (only w)
    have hread : (stored (relabel (only w) vs)).read key r = some ['x'] := by
      have hlead : Leads (versionKey key r) (key ++ sep :: hi16) (relabel (only w) vs)
          { w with value := only w w.key w.ts } := by
        simpa [Leads, Meets, relabel, Version.entry] using hleads
      unfold MvccEngine.read
      rw [mapEngine.scan_eq, hkeeps.head?_scan.mpr
        ⟨_, mem_map_of_mem hw, rfl, hlead⟩]
      exact visible_only.mpr ⟨⟨rfl, rfl⟩, rfl⟩
    exact ((first_only_iff hw).mp ((hreads _ _ _ hkeeps _).mp hread)).1.1.symm
  · intro hlead E m f h value
    refine h.read_eq_some_iff_of_leads hr ?_
    simpa [Leads, Meets, relabel, Version.entry] using hlead

theorem checksNewest_iff (hrange : ∀ v ∈ vs, InRange v.ts) :
    ChecksNewest vs key ↔ ∀ w ∈ vs, Leads (key ++ [sep]) (key ++ sep :: hi16) vs w →
      w.key = key ∨ w.ts = newestTs vs key := by
  have hiff : ∀ (E : StorageEngine) (m : MvccEngine E) (f : Text → Int → Text),
      Keeps (E.contents m.engine) (relabel f vs) →
        (m.newestCommittedTs key = some (newestTs vs key) ↔
          ∀ w ∈ vs, Leads (key ++ [sep]) (key ++ sep :: hi16) vs w →
            w.key = key ∨ w.ts = newestTs vs key) := by
    intro E m f h
    rw [← newestTs_relabel (f := f), h.newestCommittedTs_eq_iff]
    simp [Leads, Meets, relabel, Version.entry]
  have hkeeps := keeps_stored hrange fun _ _ => []
  exact ⟨fun hchecks => (hiff _ _ _ hkeeps).mp (hchecks _ _ _ hkeeps),
    fun hlead E m f h => (hiff E m f h).mpr hlead⟩

theorem orderly_relabel (h : Orderly r lo hi vs) : Orderly r lo hi (relabel f vs) := by
  constructor
  · simpa [Newest, Follows, Meets, relabel, Version.entry] using h.grouped
  · simpa [Newest, Meets, relabel] using h.met

theorem follows_relabel {value : Text} :
    Follows r lo hi (relabel f vs) { v with value := value } ↔ Follows r lo hi vs v := by
  simp [Follows, relabel, Meets, Version.entry]

section Lists

variable {ls : List Version}

theorem first_of_listed (h : Lists r lo hi vs ls) (hv : v ∈ ls) (hnewest : Newest r vs v) :
    First r vs v.key v.value :=
  have ⟨hmem, _, hts, hvalue, _⟩ := (h.mem v).mp hv
  ⟨v, hmem, rfl, hts, if_neg hvalue, hnewest⟩

theorem shown_of_first (h : Lists r lo hi vs ls) (hrange : ∀ v ∈ vs, InRange v.ts)
    {value : Text} (hfirst : First r vs key value)
    (hmet : ∀ v ∈ vs, v.key = key → v.ts ≤ r → Newest r vs v → Meets lo (hi ++ [hiChar]) v) :
    (key, value) ∈ ls.map Version.shown := by
  obtain ⟨v, hv, rfl, hts, hvisible, hnewest⟩ := hfirst
  obtain ⟨hvalue, hshown⟩ := Option.ite_none_left_eq_some.mp hvisible
  refine mem_map.mpr ⟨v, (h.mem v).mpr ⟨hv, hmet v hv rfl hts hnewest, hts, hvalue, ?_⟩, ?_⟩
  · rintro ⟨u, hu, -, hkey, huts, hlt, -⟩
    exact ((entry_lt_iff (hrange u hu) (hrange v hv) hkey).mp hlt).not_ge (hnewest u hu hkey huts)
  · rw [Version.shown, Option.some.inj hshown]

/-- With a value for one version only, a scan lists this one or nothing. -/
theorem shown_only_iff (h : Lists r lo hi (relabel (only w) vs) ls) (hw : w ∈ vs)
    {value : Text} : (key, value) ∈ ls.map Version.shown ↔ (key = w.key ∧ value = ['x']) ∧
      Meets lo (hi ++ [hiChar]) w ∧ w.ts ≤ r ∧ ¬Follows r lo (hi ++ [hiChar]) vs w := by
  constructor
  · intro hlisted
    obtain ⟨v, hv, heq⟩ := mem_map.mp hlisted
    obtain ⟨rfl, rfl⟩ := Prod.mk.inj heq
    obtain ⟨hv, hmeets, hts, hvalue, hnew⟩ := (h.mem v).mp hv
    obtain ⟨-, -, -, -, honly⟩ := mem_relabel.mp hv
    have hvisible : visible (only w v.key v.ts) = some v.value := honly ▸ if_neg hvalue
    obtain ⟨⟨hkey, hwts⟩, hx⟩ := visible_only.mp hvisible
    obtain rfl : v = { w with value := ['x'] } := by
      cases v
      simp_all
    rw [follows_relabel] at hnew
    exact ⟨⟨rfl, rfl⟩, hmeets, hts, hnew⟩
  · rintro ⟨⟨rfl, rfl⟩, hmeets, hts, hnew⟩
    refine mem_map.mpr ⟨_, (h.mem _).mpr ⟨mem_relabel_only hw, hmeets, hts, ?_, ?_⟩, rfl⟩
    · exact fun hvalue => absurd hvalue (by decide : (['x'] : Text) ≠ tombstone)
    · rwa [follows_relabel]

end Lists

theorem Orderly.listsNewest (h : Orderly r lo hi vs) : ListsNewest r vs lo hi := by
  intro E m f hkeeps
  have horderly : Orderly r lo hi (relabel f vs) := orderly_relabel h
  obtain ⟨ls, hscan, hlists⟩ := hkeeps.exists_lists lo hi r
  have hnewest : ∀ v ∈ ls, Newest r (relabel f vs) v := by
    intro v hv
    obtain ⟨hv, hmeets, hts, -, hnew⟩ := (hlists.mem v).mp hv
    exact (horderly.grouped v hv hmeets hts).resolve_right hnew
  refine ⟨ls.map Version.shown, hscan, ?_,
    forall_mem_map.mpr fun v hv => first_of_listed hlists hv (hnewest v hv), ?_⟩
  · rw [map_map]
    refine pairwise_map.mpr (hlists.sorted.imp_of_mem fun {a b} ha hb hlt hkey => ?_)
    obtain ⟨ha', -, hats, -⟩ := (hlists.mem a).mp ha
    have hb' := ((hlists.mem b).mp hb).1
    exact ((entry_lt_iff (hkeeps.range a ha') (hkeeps.range b hb') hkey).mp hlt).not_ge
      (hnewest b hb a ha' hkey hats)
  · intro key value hlo hhi hfirst
    exact shown_of_first hlists hkeeps.range hfirst fun v hv hkey =>
      horderly.met v hv (hkey ▸ hlo) (hkey ▸ hhi)

theorem listsNewest_iff (hrange : ∀ v ∈ vs, InRange v.ts) :
    ListsNewest r vs lo hi ↔ Orderly r lo hi vs := by
  refine ⟨fun hnewest => ?_, Orderly.listsNewest⟩
  have hlists : ∀ v ∈ vs, ∃ ls : List Version, Lists r lo hi (relabel (only v) vs) ls ∧
      (∀ e ∈ ls.map Version.shown, First r (relabel (only v) vs) e.1 e.2) ∧
      ∀ key value, lo ≤ key → key ≤ hi → First r (relabel (only v) vs) key value →
        (key, value) ∈ ls.map Version.shown := by
    intro v hv
    have hkeeps := keeps_stored hrange (only v)
    obtain ⟨out, hscan, -, hfirst, hall⟩ := hnewest _ _ _ hkeeps
    obtain ⟨ls, hscan', hls⟩ := hkeeps.exists_lists lo hi r
    cases hscan.symm.trans hscan'
    exact ⟨ls, hls, hfirst, hall⟩
  constructor
  · intro v hv hmeets hts
    refine or_iff_not_imp_right.mpr fun hnew => ?_
    obtain ⟨ls, hls, hfirst, -⟩ := hlists v hv
    have hshown := (shown_only_iff hls hv).mpr ⟨⟨rfl, rfl⟩, hmeets, hts, hnew⟩
    exact ((first_only_iff hv).mp (hfirst _ hshown)).2.2
  · intro v hv hlo hhi hts hnew
    obtain ⟨ls, hls, -, hall⟩ := hlists v hv
    have hfirst := (first_only_iff hv).mpr ⟨⟨rfl, rfl⟩, hts, hnew⟩
    exact ((shown_only_iff hls hv).mp (hall _ _ hlo hhi hfirst)).2.1

end Stores

/-- Reads, conflict checks and scans are about the newest versions of exactly their keys,
whatever the values are, if and only if the first versions that they meet are of these keys and
the versions of a key come one after the other. -/
theorem finds_newest_iff (vs : List Version) (hrange : ∀ v ∈ vs, InRange v.ts) (r : Int)
    (hr : 0 ≤ r) :
    (∀ key, ReadsNewest r vs key ↔
      ∀ w ∈ vs, Leads (versionKey key r) (key ++ sep :: hi16) vs w → w.key = key) ∧
    (∀ key, ChecksNewest vs key ↔ ∀ w ∈ vs, Leads (key ++ [sep]) (key ++ sep :: hi16) vs w →
      w.key = key ∨ w.ts = newestTs vs key) ∧
    ∀ lo hi, ListsNewest r vs lo hi ↔ Orderly r lo hi vs :=
  ⟨fun _ => readsNewest_iff hrange hr, fun _ => checksNewest_iff hrange,
    fun _ _ => listsNewest_iff hrange⟩

/-- Two versions of a key, and one of a key that goes on behind it with U+0000. -/
def sampleVersions : List Version :=
  [⟨['a'], 1, ['x']⟩, ⟨['a'], 2, ['y']⟩, ⟨['a', sep, 'z'], 1, tombstone⟩]

theorem finds_newest_sampleVersions :
    ReadsNewest 1 sampleVersions ['a'] ∧ ChecksNewest sampleVersions ['a'] :=
  have h := finds_newest_iff sampleVersions (by decide) 1 (by decide)
  ⟨(h.1 ['a']).mpr (by decide +kernel), (h.2.1 ['a']).mpr (by decide +kernel)⟩

/-- A key that goes on with U+0000 where `a` ends. -/
def nestedVersion : Version := ⟨['a', sep, '8'], 1, ['x']⟩

theorem keeps_nestedVersion :
    Keeps (mapEngine.contents (stored [nestedVersion]).engine) [nestedVersion] := by
  refine ⟨fun vkey value => ?_, by decide⟩
  have hentries : (mapEngine.contents (stored [nestedVersion]).engine).entries =
      [nestedVersion.entry] := rfl
  rw [hentries]
  simp [eq_comm]

/-- A read of one key may return a version of another. -/
theorem read_ne_newest : ¬∀ (m : MvccEngine mapEngine) (vs : List Version),
    Keeps (mapEngine.contents m.engine) vs → ∀ key r value, InRange r →
      (m.read key r = some value ↔ First r vs key value) := by
  intro hall
  have hread : (stored [nestedVersion]).read ['a'] 1 = some ['x'] := by decide +kernel
  obtain ⟨v, hv, hkey, -⟩ := (hall _ _ keeps_nestedVersion ['a'] 1 ['x'] (by decide)).mp hread
  rw [List.mem_singleton.mp hv] at hkey
  exact absurd hkey (by decide)

end LiteDB.VersionSeparation
