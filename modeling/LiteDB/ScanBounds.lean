import LiteDB.MvccScans
import LiteDB.SnapshotIsolation
import LiteDB.VersionSeparation

namespace LiteDB.ScanBounds

open List Mvcc MvccScans SortedMaps StorageEngines VersionKeys VersionSeparation VersionSets
open SnapshotIsolation (Mirrors mirrors_empty)
open SortedMap

/-- What a transaction is to see under a key: its last own call, else its snapshot. -/
def Sees (x : Transaction) (vs : List Version) (key value : Text) : Prop :=
  match lastCall x.buffered key with
  | some call => call = some value
  | none => First x.readTs vs key value

/-- Whatever the values are, a scan lists what the transaction sees in its range, and so does
`get`. -/
def ScansSeen (x : Transaction) (vs : List Version) (lo hi : Text) : Prop :=
  ∀ (E : StorageEngine) (m : MvccEngine E) (f : Text → Int → Text),
    Keeps (E.contents m.engine) (relabel f vs) →
      (∃ out, x.scan m lo hi = some out ∧ out.Pairwise (fun a b => a.1 < b.1) ∧
        ∀ key value, (key, value) ∈ out ↔
          (lo ≤ key ∧ key ≤ hi) ∧ Sees x (relabel f vs) key value) ∧
      ∀ key value, lo ≤ key → key ≤ hi →
        (x.get m key = some value ↔ Sees x (relabel f vs) key value)

/-- What is met in the range of a scan is of its keys. -/
structure InBounds (x : Transaction) (vs : List Version) (lo hi : Text) : Prop where
  own : ∀ key, lo ≤ key → key ≤ hi → lastCall x.buffered key ≠ some (some tombstone)
  listed : ∀ v ∈ vs, Meets lo (hi ++ [hiChar]) v → v.ts ≤ x.readTs →
    Follows x.readTs lo (hi ++ [hiChar]) vs v ∨ ((lo ≤ v.key ∧ v.key ≤ hi) ∧
      (lastCall x.buffered v.key = none → Newest x.readTs vs v))
  met : ∀ v ∈ vs, lo ≤ v.key → v.key ≤ hi → lastCall x.buffered v.key = none →
    v.ts ≤ x.readTs → Newest x.readTs vs v → Meets lo (hi ++ [hiChar]) v
  read : ∀ key, lo ≤ key → key ≤ hi → lastCall x.buffered key = none →
    ∀ w ∈ vs, Leads (versionKey key x.readTs) (key ++ sep :: hi16) vs w → w.key = key

variable {x : Transaction} {vs : List Version} {lo hi key value : Text}

/-- What `scan` makes of the list of the snapshot. -/
def merged (x : Transaction) (lo hi : Text) (out : List (Text × Text)) : SortedMap Text Text :=
  (SortedMap.empty.insertAll out).edit (ownEdits x.writes.entries lo hi)

section Overlays

variable {E : StorageEngine} {m : MvccEngine E} {out : List (Text × Text)}

theorem scan_eq_merged (h : m.scan lo hi x.readTs = some out) :
    x.scan m lo hi = some (merged x lo hi out).entries := by
  rw [Transaction.scan, h, Option.map_some, foldl_overlay]
  rfl

theorem mem_merged_of_not_between (hrange : ¬(lo ≤ key ∧ key ≤ hi))
    (hone : ∀ a ∈ out, ∀ b ∈ out, a.1 = key → b.1 = key → a.2 = b.2) :
    (key, value) ∈ (merged x lo hi out).entries ↔ (key, value) ∈ out := by
  rw [← get?_eq_some_iff, merged, get?_edit, edited_ownEdits_of_not_between _ _ hrange,
    get?_insertAll_eq_some_iff hone]

theorem mem_merged_of_unwritten (hrange : lo ≤ key ∧ key ≤ hi) (hnone : x.writes.get? key = none)
    (hone : ∀ a ∈ out, ∀ b ∈ out, a.1 = key → b.1 = key → a.2 = b.2) :
    (key, value) ∈ (merged x lo hi out).entries ↔ (key, value) ∈ out := by
  rw [← get?_eq_some_iff, merged, get?_edit, edited_ownEdits _ _ hrange, hnone,
    get?_insertAll_eq_some_iff hone]

theorem mem_merged_of_written {own : Text} (hrange : lo ≤ key ∧ key ≤ hi)
    (hown : x.writes.get? key = some own) :
    (key, value) ∈ (merged x lo hi out).entries ↔ visible own = some value := by
  rw [← get?_eq_some_iff, merged, get?_edit, edited_ownEdits _ _ hrange, hown]

end Overlays

theorem visible_getD {call : Option Text} (h : call ≠ some tombstone) :
    visible (call.getD tombstone) = some value ↔ call = some value := by
  cases call with
  | none => simp [visible]
  | some own =>
    have hown : own ≠ tombstone := fun heq => h (by rw [heq])
    simp [visible, hown]

section Transactions

variable (hx : ∀ key, x.writes.get? key =
  (lastCall x.buffered key).map fun value => value.getD tombstone) (hr : 0 ≤ x.readTs)

include hx

theorem get?_of_call {call : Option Text} (hcall : lastCall x.buffered key = some call) :
    x.writes.get? key = some (call.getD tombstone) := by
  rw [hx, hcall, Option.map_some]

theorem get?_of_unwritten (hnone : lastCall x.buffered key = none) :
    x.writes.get? key = none := by
  rw [hx, hnone, Option.map_none]

include hr

theorem InBounds.get_eq_some_iff {E : StorageEngine} {m : MvccEngine E} {f : Text → Int → Text}
    (h : InBounds x vs lo hi) (hkeeps : Keeps (E.contents m.engine) (relabel f vs))
    (hlo : lo ≤ key) (hhi : key ≤ hi) :
    x.get m key = some value ↔ Sees x (relabel f vs) key value := by
  unfold Transaction.get Sees
  cases hcall : lastCall x.buffered key with
  | some call =>
    rw [get?_of_call hx hcall]
    exact visible_getD fun heq => h.own key hlo hhi (heq ▸ hcall)
  | none =>
    rw [get?_of_unwritten hx hcall]
    refine hkeeps.read_eq_some_iff_of_leads hr ?_
    simpa [Leads, Meets, relabel, Version.entry] using h.read key hlo hhi hcall

theorem InBounds.scansSeen (h : InBounds x vs lo hi) : ScansSeen x vs lo hi := by
  intro E m f hkeeps
  have hlisted : ∀ v ∈ relabel f vs, Meets lo (hi ++ [hiChar]) v → v.ts ≤ x.readTs →
      Follows x.readTs lo (hi ++ [hiChar]) (relabel f vs) v ∨ ((lo ≤ v.key ∧ v.key ≤ hi) ∧
        (lastCall x.buffered v.key = none → Newest x.readTs (relabel f vs) v)) := by
    simpa [Newest, Follows, Meets, relabel, Version.entry] using h.listed
  have hmet : ∀ v ∈ relabel f vs, lo ≤ v.key → v.key ≤ hi → lastCall x.buffered v.key = none →
      v.ts ≤ x.readTs → Newest x.readTs (relabel f vs) v → Meets lo (hi ++ [hiChar]) v := by
    simpa [Newest, Meets, relabel] using h.met
  obtain ⟨ls, hscan, hls⟩ := hkeeps.exists_lists lo hi x.readTs
  have hin : ∀ v ∈ ls, (lo ≤ v.key ∧ v.key ≤ hi) ∧
      (lastCall x.buffered v.key = none → Newest x.readTs (relabel f vs) v) := by
    intro v hv
    obtain ⟨hv, hmeets, hts, -, hnew⟩ := (hls.mem v).mp hv
    exact (hlisted v hv hmeets hts).resolve_left hnew
  refine ⟨⟨_, scan_eq_merged hscan, SortedMap.sorted _, fun key value => ?_⟩,
    fun key value => h.get_eq_some_iff hx hr hkeeps⟩
  by_cases hrange : lo ≤ key ∧ key ≤ hi
  · rw [and_iff_right hrange, Sees]
    cases hcall : lastCall x.buffered key with
    | some call =>
      rw [mem_merged_of_written hrange (get?_of_call hx hcall)]
      exact visible_getD fun heq => h.own key hrange.1 hrange.2 (heq ▸ hcall)
    | none =>
      -- the listed versions of the key are newest ones, so that they are one and the same
      have hone : ∀ a ∈ ls.map Version.shown, ∀ b ∈ ls.map Version.shown,
          a.1 = key → b.1 = key → a.2 = b.2 := by
        simp only [forall_mem_map]
        intro v hv w hw (hvkey : v.key = key) (hwkey : w.key = key)
        obtain ⟨hv', -, hvts, -⟩ := (hls.mem v).mp hv
        obtain ⟨hw', -, hwts, -⟩ := (hls.mem w).mp hw
        have hkey : v.key = w.key := hvkey.trans hwkey.symm
        have hts := le_antisymm ((hin w hw).2 (hwkey ▸ hcall) v hv' hkey hvts)
          ((hin v hv).2 (hvkey ▸ hcall) w hw' hkey.symm hwts)
        obtain ⟨-, -, -, -, hvalue⟩ := mem_relabel.mp hv'
        obtain ⟨-, -, -, -, hvalue'⟩ := mem_relabel.mp hw'
        rw [Version.shown, Version.shown, hvalue, hvalue', hkey, hts]
      rw [mem_merged_of_unwritten hrange (get?_of_unwritten hx hcall) hone]
      constructor
      · intro hshown
        obtain ⟨v, hv, heq⟩ := mem_map.mp hshown
        obtain ⟨rfl, rfl⟩ := Prod.mk.inj heq
        exact first_of_listed hls hv ((hin v hv).2 hcall)
      · exact fun hfirst => shown_of_first hls hkeeps.range hfirst fun v hv hkey =>
          hmet v hv (hkey ▸ hrange.1) (hkey ▸ hrange.2) (hkey ▸ hcall)
  · have hnot : ∀ e ∈ ls.map Version.shown, e.1 ≠ key := by
      simp only [forall_mem_map]
      rintro v hv rfl
      exact hrange (hin v hv).1
    rw [mem_merged_of_not_between hrange fun a ha _ _ hkey => absurd hkey (hnot a ha)]
    simp only [hrange, false_and, iff_false]
    exact fun hmem => hnot _ hmem rfl

theorem ScansSeen.inBounds (hrange : ∀ v ∈ vs, InRange v.ts) (h : ScansSeen x vs lo hi) :
    InBounds x vs lo hi := by
  have hlists : ∀ v ∈ vs, ∃ ls : List Version, Lists x.readTs lo hi (relabel (only v) vs) ls ∧
      (∀ a ∈ ls.map Version.shown, ∀ b ∈ ls.map Version.shown,
        a.1 = v.key → b.1 = v.key → a.2 = b.2) ∧
      ∀ key value, (key, value) ∈ (merged x lo hi (ls.map Version.shown)).entries ↔
        (lo ≤ key ∧ key ≤ hi) ∧ Sees x (relabel (only v) vs) key value := by
    intro v hv
    have hkeeps := keeps_stored hrange (only v)
    obtain ⟨⟨out, hout, -, hmem⟩, -⟩ := h _ _ _ hkeeps
    obtain ⟨ls, hscan, hls⟩ := hkeeps.exists_lists lo hi x.readTs
    cases hout.symm.trans (scan_eq_merged hscan)
    refine ⟨ls, hls, fun a ha b hb _ _ => ?_, hmem⟩
    rw [((shown_only_iff hls hv).mp ha).1.2, ((shown_only_iff hls hv).mp hb).1.2]
  constructor
  · intro key hlo hhi hcall
    have hget := ((h _ _ _ (keeps_stored hrange fun _ _ => [])).2 key tombstone hlo hhi).mpr
      (by simp [Sees, hcall])
    simp [Transaction.get, get?_of_call hx hcall, visible] at hget
  · intro v hv hmeets hts
    refine or_iff_not_imp_left.mpr fun hnew => ?_
    obtain ⟨ls, hls, hone, hmem⟩ := hlists v hv
    have hshown := (shown_only_iff hls hv).mpr ⟨⟨rfl, rfl⟩, hmeets, hts, hnew⟩
    by_cases hbetween : lo ≤ v.key ∧ v.key ≤ hi
    · refine ⟨hbetween, fun hnone => ?_⟩
      have hsees := ((hmem _ _).mp ((mem_merged_of_unwritten hbetween
        (get?_of_unwritten hx hnone) hone).mpr hshown)).2
      rw [Sees, hnone] at hsees
      exact ((first_only_iff hv).mp hsees).2.2
    · exact absurd ((hmem _ _).mp ((mem_merged_of_not_between hbetween hone).mpr hshown)).1 hbetween
  · intro v hv hlo hhi hnone hts hnew
    obtain ⟨ls, hls, hone, hmem⟩ := hlists v hv
    have hsees : Sees x (relabel (only v) vs) v.key ['x'] := by
      rw [Sees, hnone]
      exact (first_only_iff hv).mpr ⟨⟨rfl, rfl⟩, hts, hnew⟩
    have hshown := (mem_merged_of_unwritten ⟨hlo, hhi⟩ (get?_of_unwritten hx hnone) hone).mp
      ((hmem _ _).mpr ⟨⟨hlo, hhi⟩, hsees⟩)
    exact ((shown_only_iff hls hv).mp hshown).2.1
  · intro key hlo hhi hnone
    refine (readsNewest_iff hrange hr).mp fun E m f hkeeps value => ?_
    have hget := (h E m f hkeeps).2 key value hlo hhi
    simpa [Transaction.get, get?_of_unwritten hx hnone, Sees, hnone] using hget

end Transactions

/-- A scan of a transaction lists what it sees between the bounds, if and only if no own put
there is of the marker, and what is listed of the snapshot are newest versions of keys between
the bounds. -/
theorem scansSeen_iff (x : Transaction) (vs : List Version) (lo hi : Text)
    (hx : ∀ key, x.writes.get? key =
      (lastCall x.buffered key).map fun value => value.getD tombstone)
    (hr : 0 ≤ x.readTs) (hrange : ∀ v ∈ vs, InRange v.ts) :
    ScansSeen x vs lo hi ↔ InBounds x vs lo hi :=
  ⟨ScansSeen.inBounds hx hr hrange, InBounds.scansSeen hx hr⟩

/-- A transaction that has put the marker. -/
def putMarker : Transaction :=
  Transaction.put ⟨1, Dict.empty, .active, [], 0⟩ "z".toList tombstone

def sampleSnapshot : List Version :=
  [⟨"a".toList, 1, "x".toList⟩, ⟨"a".toList, 2, "y".toList⟩, ⟨"b".toList, 1, "z".toList⟩]

theorem scansSeen_of_putMarker : ScansSeen putMarker sampleSnapshot "a".toList "a".toList := by
  have hone : ∀ key, "a".toList ≤ key → key ≤ "a".toList → key = "a".toList :=
    fun key hlo hhi => le_antisymm hhi hlo
  refine (scansSeen_iff putMarker sampleSnapshot "a".toList "a".toList (fun key => ?_) (by decide)
    (by decide)).mpr ⟨fun key hlo hhi => ?_, by decide +kernel, by decide +kernel,
      fun key hlo hhi => ?_⟩
  · have hempty : Mirrors (fun _ => True) Dict.empty [] := mirrors_empty
    exact (hempty.concat trivial (some tombstone)).get? key
  · rw [hone key hlo hhi]
    decide
  · rw [hone key hlo hhi]
    decide +kernel

/-- The scan from `a` to `a` lists `ab`. -/
theorem not_scansSeen_of_longer : ¬∀ (x : Transaction) (vs : List Version) (lo hi : Text),
    (∀ key, x.writes.get? key = (lastCall x.buffered key).map fun value => value.getD tombstone) →
      0 ≤ x.readTs → (∀ v ∈ vs, InRange v.ts) → lo ≤ hi → ScansSeen x vs lo hi := by
  intro hall
  have hseen := hall ⟨1, Dict.empty, .active, [], 0⟩ [⟨"ab".toList, 1, "1".toList⟩] "a".toList
    "a".toList (fun _ => rfl) (by decide) (by decide) le_rfl
  obtain ⟨⟨out, hout, -, hmem⟩, -⟩ := hseen _ _ _ (keeps_stored (by decide) fun _ _ => "1".toList)
  have hscan : Transaction.scan (stored [⟨"ab".toList, 1, "1".toList⟩])
      ⟨1, Dict.empty, .active, [], 0⟩ "a".toList "a".toList =
        some [("ab".toList, "1".toList)] := by decide +kernel
  cases hout.symm.trans hscan
  obtain ⟨⟨-, hle⟩, -⟩ := (hmem _ _).mp (mem_singleton_self _)
  exact absurd hle (by decide)

end LiteDB.ScanBounds
