import LiteDB.ShardStore
import Mathlib.Data.List.Induction

namespace LiteDB.ShardLedger

open Lexicographic List SortedMaps ShardStore VersionKeys SortedMap

/-- A transaction on the shard: the snapshot that its conflict check was made
against, its commit timestamp and its writes. A single-shard write has no id. -/
structure Record where
  txnId : Option Text
  readTs : Int
  commitTs : Int
  writes : Writes

/-- A command together with the snapshot of the request that proposed it. -/
structure Entry where
  command : Command
  readTs : Int
deriving DecidableEq

/-- A value of a key, or a deletion. -/
structure Version where
  key : Text
  ts : Int
  value : Option Text

/-- What a shard is for: the transactions that have been committed on it, in the order in
which they were applied, and those that are prepared. -/
structure Ledger where
  intents : Dict Text Record
  committed : List Record

namespace Record

def versions (r : Record) : List Version := r.writes.map fun w => ⟨w.1, r.commitTs, w.2⟩

def staged (r : Record) : Int × Writes := (r.commitTs, r.writes)

def Touches (r : Record) (key : Text) : Prop := key ∈ r.writes.map Prod.fst

instance (r : Record) (key : Text) : Decidable (r.Touches key) :=
  inferInstanceAs (Decidable (_ ∈ _))

end Record

namespace Ledger

def empty : Ledger := ⟨Dict.empty, []⟩

def versions (l : Ledger) : List Version := l.committed.flatMap Record.versions

def commits (l : Ledger) (e : Entry) : List Record :=
  match e.command with
  | .write ts writes => [⟨none, e.readTs, ts, writes⟩]
  | .commit txnId => (l.intents.get? txnId).toList
  | _ => []

def intentsAfter (l : Ledger) (e : Entry) : Dict Text Record :=
  match e.command with
  | .prepare txnId commitTs writes =>
      l.intents.set txnId ⟨some txnId, e.readTs, commitTs, writes⟩
  | .commit txnId => l.intents.erase txnId
  | .abort txnId => l.intents.erase txnId
  | _ => l.intents

def apply (l : Ledger) (e : Entry) : Ledger := ⟨l.intentsAfter e, l.committed ++ l.commits e⟩

def replay (log : List Entry) : Ledger := log.foldl apply empty

def lastTs (l : Ledger) : Int := (l.committed.map Record.commitTs).foldl max 0

theorem replay_concat (log : List Entry) (e : Entry) :
    replay (log ++ [e]) = (replay log).apply e := by
  simp [replay]

theorem versions_apply (l : Ledger) (e : Entry) :
    (l.apply e).versions = l.versions ++ (l.commits e).flatMap Record.versions := by
  simp [versions, apply]

end Ledger

variable {vs : List Version} {key : Text} {readTs : Int} {v : Version}

/-- One more version is looked at: a later one replaces an earlier one with the
same timestamp. -/
def newer (key : Text) (readTs : Int) (best : Option Version) (v : Version) : Option Version :=
  if v.key = key ∧ v.ts ≤ readTs ∧ ∀ b ∈ best, b.ts ≤ v.ts then some v else best

/-- The version of `key` that a snapshot at `readTs` sees. -/
def snapshot (vs : List Version) (key : Text) (readTs : Int) : Option Version :=
  vs.foldl (newer key readTs) none

def visible : Option Version → Option Stored
  | none => none
  | some v => if versionValue v.value = .text tombstone then none else some (versionValue v.value)

theorem snapshot_concat : snapshot (vs ++ [v]) key readTs =
    newer key readTs (snapshot vs key readTs) v := by
  simp [snapshot]

theorem snapshot_append_of_hidden {new : List Version}
    (hnew : ∀ v ∈ new, v.key = key → readTs < v.ts) :
    snapshot (vs ++ new) key readTs = snapshot vs key readTs := by
  induction new using List.reverseRecOn with
  | nil => simp
  | append_singleton new v ih =>
    rw [← append_assoc, snapshot_concat, ih fun w hw => hnew w (by simp [hw])]
    refine if_neg ?_
    rintro ⟨hkey, hts, -⟩
    exact absurd (hnew v (by simp) hkey) (not_lt.mpr hts)

def Latest (vs : List Version) (v : Version) : Prop :=
  ∃ before after, vs = before ++ v :: after ∧ ∀ w ∈ after, ¬(w.key = v.key ∧ w.ts = v.ts)

theorem Latest.mem (h : Latest vs v) : v ∈ vs := by
  obtain ⟨before, after, rfl, -⟩ := h
  simp

theorem latest_concat_iff {w : Version} : Latest (vs ++ [w]) v ↔
    v = w ∨ (Latest vs v ∧ ¬(w.key = v.key ∧ w.ts = v.ts)) := by
  constructor
  · rintro ⟨before, after, heq, hafter⟩
    rcases eq_nil_or_concat' after with rfl | ⟨after, u, rfl⟩
    · obtain ⟨-, hlast⟩ := append_inj' heq rfl
      exact .inl (by simpa using hlast.symm)
    · rw [← cons_append, ← append_assoc] at heq
      obtain ⟨rfl, hlast⟩ := append_inj' heq rfl
      obtain rfl : w = u := by simpa using hlast
      exact .inr ⟨⟨before, after, rfl, fun x hx => hafter x (by simp [hx])⟩, hafter w (by simp)⟩
  · rintro (rfl | ⟨⟨before, after, rfl, hafter⟩, hw⟩)
    · exact ⟨vs, [], rfl, by simp⟩
    · refine ⟨before, after ++ [w], by simp, fun x hx => ?_⟩
      rcases mem_append.mp hx with hx | hx
      · exact hafter x hx
      · rw [mem_singleton.mp hx]
        exact hw

/-- What a snapshot may see at most: nothing when there is no version up to its
timestamp, and otherwise the last of the newest versions. -/
def Newest (vs : List Version) (key : Text) (readTs : Int) : Option Version → Prop
  | none => ∀ w ∈ vs, w.key = key → readTs < w.ts
  | some v => v.key = key ∧ v.ts ≤ readTs ∧ Latest vs v ∧
      ∀ w ∈ vs, w.key = key → w.ts ≤ readTs → w.ts ≤ v.ts

theorem newest_snapshot (vs : List Version) (key : Text) (readTs : Int) :
    Newest vs key readTs (snapshot vs key readTs) := by
  induction vs using List.reverseRecOn with
  | nil => simp [snapshot, Newest]
  | append_singleton vs w ih =>
    rw [snapshot_concat, newer]
    split
    · rename_i hw
      refine ⟨hw.1, hw.2.1, latest_concat_iff.mpr (.inl rfl), fun u hu hkey hts => ?_⟩
      rcases mem_append.mp hu with hu | hu
      · cases hbest : snapshot vs key readTs with
        | none =>
          rw [hbest] at ih
          exact absurd hts (not_le.mpr (ih u hu hkey))
        | some b =>
          rw [hbest] at ih
          exact (ih.2.2.2 u hu hkey hts).trans (hw.2.2 b (by simp [hbest]))
      · rw [mem_singleton.mp hu]
    · rename_i hw
      cases hbest : snapshot vs key readTs with
      | none =>
        rw [hbest] at ih hw
        intro u hu hkey
        rcases mem_append.mp hu with hu | hu
        · exact ih u hu hkey
        · obtain rfl := mem_singleton.mp hu
          by_contra hts
          exact hw ⟨hkey, not_lt.mp hts, by simp⟩
      | some b =>
        rw [hbest] at ih hw
        obtain ⟨hkey, hts, hlatest, hmax⟩ := ih
        have hlower : w.key = key → w.ts ≤ readTs → w.ts < b.ts := by
          intro hwkey hwts
          by_contra hle
          exact hw ⟨hwkey, hwts, by simpa using hle⟩
        refine ⟨hkey, hts, latest_concat_iff.mpr (.inr ⟨hlatest, ?_⟩), fun u hu hu' hu'' => ?_⟩
        · rintro ⟨hwkey, hwts⟩
          exact (hlower (hwkey.trans hkey) (hwts.le.trans hts)).ne hwts
        · rcases mem_append.mp hu with hu | hu
          · exact hmax u hu hu' hu''
          · obtain rfl := mem_singleton.mp hu
            exact (hlower hu' hu'').le

variable {intents : Dict Text (Int × Writes)}

section Engine

/-- The engine holds the versions `vs` and the records of the prepared
transactions `intents`, and nothing else. -/
def Holds (engine : SortedMap Text Stored) (vs : List Version)
    (intents : Dict Text (Int × Writes)) : Prop :=
  ∀ k x, (k, x) ∈ engine.entries ↔
    (∃ v, Latest vs v ∧ k = versionKey v.key v.ts ∧ x = versionValue v.value) ∨
      ∃ t c ws, (t, (c, ws)) ∈ intents.entries ∧ k = intentKey t ∧ x = .intent c ws

/-- The versions can be told apart by their physical keys. -/
def Sound (vs : List Version) : Prop := ∀ v ∈ vs, Plain v.key ∧ InRange v.ts

variable {engine : SortedMap Text Stored} {t : Text}

theorem intentKey_lt (hkey : Plain key) (rest : Text) : intentKey t < key ++ rest := by
  obtain ⟨hne, hsep⟩ := hkey
  cases key with
  | nil => exact absurd rfl hne
  | cons c key =>
    have hc : sep < c := Plain.sep_lt ⟨hne, hsep⟩ c (by simp)
    simp only [intentKey, intentPrefix, cons_append, cons_lt_cons_iff]
    exact .inl hc

theorem intentKey_ne_versionKey (hkey : Plain key) (ts : Int) : intentKey t ≠ versionKey key ts :=
  (intentKey_lt hkey _).ne

theorem intentKey_injective {t' : Text} (h : intentKey t = intentKey t') : t = t' :=
  append_cancel_left h

section

variable (h : Holds engine vs intents)

include h

theorem Holds.putVersion (hs : Sound vs) (hkey : Plain v.key) (hts : InRange v.ts) :
    Holds (engine.insert (versionKey v.key v.ts) (versionValue v.value)) (vs ++ [v]) intents := by
  intro k x
  rw [mem_insert]
  split
  · rename_i hk
    subst hk
    constructor
    · rintro rfl
      exact .inl ⟨v, latest_concat_iff.mpr (.inl rfl), rfl, rfl⟩
    · rintro (⟨w, hw, hsame, rfl⟩ | ⟨t, c, ws, -, hsame, -⟩)
      · rcases latest_concat_iff.mp hw with rfl | ⟨hold, hother⟩
        · rfl
        · obtain ⟨hwkey, hwts⟩ := hs w hold.mem
          obtain ⟨h1, h2⟩ := versionKey_injective hts hwts hsame
          exact absurd ⟨h1, h2⟩ hother
      · exact absurd hsame.symm (intentKey_ne_versionKey hkey v.ts)
  · rename_i hk
    rw [h k x]
    refine or_congr_left ⟨?_, ?_⟩
    · rintro ⟨w, hw, rfl, rfl⟩
      refine ⟨w, latest_concat_iff.mpr (.inr ⟨hw, ?_⟩), rfl, rfl⟩
      rintro ⟨h1, h2⟩
      exact hk (by rw [h1, h2])
    · rintro ⟨w, hw, rfl, rfl⟩
      rcases latest_concat_iff.mp hw with rfl | ⟨hold, -⟩
      · exact absurd rfl hk
      · exact ⟨w, hold, rfl, rfl⟩

theorem Holds.putVersions {ts : Int} {writes : Writes}
    (hs : Sound vs) (hwrites : ∀ w ∈ writes, Plain w.1 ∧ w.2 ≠ some LsmEngine.tombstone)
    (hts : InRange ts) :
    Holds (putVersions engine ts writes) (vs ++ writes.map fun w => ⟨w.1, ts, w.2⟩) intents := by
  induction writes generalizing engine vs with
  | nil =>
    rw [map_nil, append_nil]
    exact h
  | cons w writes ih =>
    obtain ⟨hw, hvalue⟩ := hwrites w (by simp)
    have hone := h.putVersion (v := ⟨w.1, ts, w.2⟩) hs hw hts
    have hs' : Sound (vs ++ [⟨w.1, ts, w.2⟩]) := by
      intro u hu
      rcases mem_append.mp hu with hu | hu
      · exact hs u hu
      · rw [mem_singleton.mp hu]
        exact ⟨hw, hts⟩
    have hrest := ih hone hs' fun u hu => hwrites u (by simp [hu])
    rw [append_assoc] at hrest
    simpa [ShardStore.putVersions, versionEdits, SortedMap.edit, shown_versionValue hvalue]
      using hrest

theorem Holds.putIntent {c : Int} {ws : Writes} (hs : Sound vs) :
    Holds (engine.insert (intentKey t) (.intent c ws)) vs (intents.set t (c, ws)) := by
  intro k x
  rw [mem_insert]
  split
  · rename_i hk
    subst hk
    constructor
    · rintro rfl
      exact .inr ⟨t, c, ws, Dict.mem_set.mpr (by simp), rfl, rfl⟩
    · rintro (⟨v, hv, hsame, -⟩ | ⟨t', c', ws', hmem, hsame, rfl⟩)
      · exact absurd hsame (intentKey_ne_versionKey (hs v hv.mem).1 v.ts)
      · obtain rfl := intentKey_injective hsame
        have heq := Dict.mem_set.mp hmem
        simp only [if_true, Prod.mk.injEq] at heq
        rw [heq.1, heq.2]
  · rename_i hk
    rw [h k x]
    refine or_congr_right ⟨?_, ?_⟩
    · rintro ⟨t', c', ws', hmem, rfl, rfl⟩
      have hne : t' ≠ t := fun heq => hk (by rw [heq])
      exact ⟨t', c', ws', Dict.mem_set.mpr (by simpa [hne] using hmem), rfl, rfl⟩
    · rintro ⟨t', c', ws', hmem, rfl, rfl⟩
      have hne : t' ≠ t := fun heq => hk (by rw [heq])
      exact ⟨t', c', ws', by simpa [hne] using Dict.mem_set.mp hmem, rfl, rfl⟩

theorem Holds.eraseIntent (hs : Sound vs) :
    Holds (engine.erase (intentKey t)) vs (intents.erase t) := by
  intro k x
  rw [mem_erase, h k x]
  constructor
  · rintro ⟨hv | ⟨t', c, ws, hmem, rfl, rfl⟩, hne⟩
    · exact .inl hv
    · have htt : t' ≠ t := fun heq => hne (by rw [heq])
      exact .inr ⟨t', c, ws, Dict.mem_erase.mpr ⟨hmem, htt⟩, rfl, rfl⟩
  · rintro (⟨v, hv, rfl, rfl⟩ | ⟨t', c, ws, hmem, rfl, rfl⟩)
    · exact ⟨.inl ⟨v, hv, rfl, rfl⟩, (intentKey_ne_versionKey (hs v hv.mem).1 v.ts).symm⟩
    · obtain ⟨hmem, hne⟩ := Dict.mem_erase.mp hmem
      exact ⟨.inr ⟨t', c, ws, hmem, rfl, rfl⟩, fun heq => hne (intentKey_injective heq)⟩

end

theorem exists_latest (hv : v ∈ vs) : ∃ w, Latest vs w ∧ w.key = v.key ∧ w.ts = v.ts := by
  induction vs using List.reverseRecOn with
  | nil => simp at hv
  | append_singleton vs u ih =>
    by_cases hu : u.key = v.key ∧ u.ts = v.ts
    · exact ⟨u, latest_concat_iff.mpr (.inl rfl), hu⟩
    · rcases mem_append.mp hv with hv | hv
      · obtain ⟨w, hw, hkey, hts⟩ := ih hv
        refine ⟨w, latest_concat_iff.mpr (.inr ⟨hw, ?_⟩), hkey, hts⟩
        rwa [hkey, hts]
      · exact absurd (by simp [mem_singleton.mp hv]) hu

/-- A scan inside the physical range of a key meets the versions of that key. -/
theorem Holds.mem_entries_iff (h : Holds engine vs intents) (hs : Sound vs) (hkey : Plain key)
    {k : Text} {x : Stored} (hlo : key ++ [sep] ≤ k) (hhi : k ≤ key ++ sep :: hi16) :
    (k, x) ∈ engine.entries ↔
      ∃ v, Latest vs v ∧ v.key = key ∧ k = versionKey key v.ts ∧ x = versionValue v.value := by
  rw [h k x]
  constructor
  · rintro (⟨v, hv, rfl, rfl⟩ | ⟨t, c, ws, -, rfl, -⟩)
    · obtain ⟨hvkey, hvts⟩ := hs v hv.mem
      obtain rfl := ((hvkey.apart hkey).mem_range_iff hvts).mp ⟨hlo, hhi⟩
      exact ⟨v, hv, rfl, rfl, rfl⟩
    · exact absurd hlo (intentKey_lt hkey _).not_ge
  · rintro ⟨v, hv, rfl, rfl, rfl⟩
    exact .inl ⟨v, hv, rfl, rfl⟩

end Engine

variable {s : Store}

theorem newestCommittedTs_spec (h : Holds s.engine vs intents) (hs : Sound vs) (hkey : Plain key) :
    ∃ t, s.newestCommittedTs key = some t ∧ (∀ v ∈ vs, v.key = key → v.ts ≤ t) ∧
      (t = 0 ∨ ∃ v ∈ vs, v.key = key ∧ v.ts = t) := by
  unfold Store.newestCommittedTs
  cases hhead : (s.engine.scan (key ++ [sep]) (key ++ sep :: hi16)).head? with
  | none =>
    refine ⟨0, rfl, fun v hv hvkey => ?_, .inl rfl⟩
    obtain ⟨w, hw, hwkey, hwts⟩ := exists_latest hv
    obtain ⟨hplain, hrange⟩ := hs w hw.mem
    have hbounds := ((hplain.apart hkey).mem_range_iff hrange).mpr (hwkey.trans hvkey)
    have hnone := head?_scan_eq_none_iff.mp hhead _ ((h _ _).mpr (.inl ⟨w, hw, rfl, rfl⟩)) hbounds.1
    exact absurd hbounds.2 hnone
  | some e =>
    obtain ⟨k, x⟩ := e
    obtain ⟨hmem, hlo, hhi, hleast⟩ := head?_scan_eq_some_iff.mp hhead
    obtain ⟨v, hv, rfl, rfl, -⟩ := (h.mem_entries_iff hs hkey hlo hhi).mp hmem
    obtain ⟨hplain, hrange⟩ := hs v hv.mem
    refine ⟨v.ts, tsFromVersionKey_versionKey hrange, fun u hu hukey => ?_,
      .inr ⟨v, hv.mem, rfl, rfl⟩⟩
    · obtain ⟨w, hw, hwkey, hwts⟩ := exists_latest hu
      obtain ⟨hwplain, hwrange⟩ := hs w hw.mem
      have hbounds := ((hwplain.apart hkey).mem_range_iff hwrange).mpr (hwkey.trans hukey)
      have hle := hleast _ ((h _ _).mpr (.inl ⟨w, hw, rfl, rfl⟩)) hbounds.1 hbounds.2
      rw [(hplain.apart hwplain).versionKey_le_iff hrange hwrange] at hle
      rcases hle with hlt | ⟨-, hle⟩
      · exact absurd (hwkey.trans hukey) hlt.ne'
      · exact hwts ▸ hle

theorem read_eq_snapshot (h : Holds s.engine vs intents) (hs : Sound vs) (hkey : Plain key)
    (hr : InRange readTs) : s.read key readTs = visible (snapshot vs key readTs) := by
  have hnewest := newest_snapshot vs key readTs
  have hlow : key ++ [sep] ≤ versionKey key readTs := by
    rw [versionKey_eq hr, append_sep_le_iff sep_le (hkey.apart hkey).right (hkey.apart hkey).left]
    exact .inr ⟨rfl, not_lt.mp (not_lt_nil _)⟩
  have hmet : ∀ k x, (k, x) ∈ s.engine.entries → versionKey key readTs ≤ k →
      k ≤ key ++ sep :: hi16 → ∃ v, Latest vs v ∧ v.key = key ∧ v.ts ≤ readTs ∧
        k = versionKey key v.ts := by
    intro k x hmem hlo hhi
    obtain ⟨v, hv, hvkey, rfl, -⟩ := (h.mem_entries_iff hs hkey (hlow.trans hlo) hhi).mp hmem
    have hseen := ((hkey.apart hkey).mem_snapshot_iff (hs v hv.mem).2 hr.1).mp ⟨hlo, hhi⟩
    exact ⟨v, hv, hvkey, hseen.2, rfl⟩
  unfold Store.read
  cases hbest : snapshot vs key readTs with
  | none =>
    rw [hbest] at hnewest
    have hhead : (s.engine.scan (versionKey key readTs) (key ++ sep :: hi16)).head? = none := by
      rw [head?_scan_eq_none_iff]
      rintro ⟨k, x⟩ hmem hlo hhi
      obtain ⟨v, hv, hvkey, hvts, -⟩ := hmet k x hmem hlo hhi
      exact absurd (hnewest v hv.mem hvkey) (not_lt.mpr hvts)
    rw [hhead]
    rfl
  | some v =>
    rw [hbest] at hnewest
    obtain ⟨rfl, hvts, hlatest, hmax⟩ := hnewest
    have hrange := (hs v hlatest.mem).2
    have hhead : (s.engine.scan (versionKey v.key readTs) (v.key ++ sep :: hi16)).head? =
        some (versionKey v.key v.ts, versionValue v.value) := by
      have hbounds := ((hkey.apart hkey).mem_snapshot_iff hrange hr.1).mpr ⟨rfl, hvts⟩
      refine head?_scan_eq_some_iff.mpr
        ⟨(h _ _).mpr (.inl ⟨v, hlatest, rfl, rfl⟩), hbounds.1, hbounds.2, ?_⟩
      rintro ⟨k, x⟩ hmem hlo hhi
      obtain ⟨w, hw, hwkey, hwts, rfl⟩ := hmet k x hmem hlo hhi
      rw [(hkey.apart hkey).versionKey_le_iff hrange (hs w hw.mem).2]
      exact .inr ⟨rfl, hmax w hw.mem hwkey hwts⟩
    rw [hhead]
    rfl

theorem intentLocking_eq_none {exclude : Text} (h : s.intentLocking key exclude = none)
    {t : Text} {staged : Int × Writes} (ht : (t, staged) ∈ s.intents.entries)
    (hkey : key ∈ staged.2.map Prod.fst) : t = exclude := by
  rw [Store.intentLocking, Option.map_eq_none_iff, find?_eq_none] at h
  by_contra hne
  obtain ⟨w, hw, rfl⟩ := mem_map.mp hkey
  exact h _ ht (by simp only [decide_eq_true_eq]; exact ⟨hne, w, hw, rfl⟩)

section Refinement

/-- The keys and the timestamp make version keys, and no value is the engine's marker. -/
def Storable (ts : Int) (writes : Writes) : Prop :=
  (∀ w ∈ writes, Plain w.1 ∧ w.2 ≠ some LsmEngine.tombstone) ∧ InRange ts

instance (ts : Int) (writes : Writes) : Decidable (Storable ts writes) :=
  inferInstanceAs (Decidable (_ ∧ _))

def Command.Storable : Command → Prop
  | .write ts writes => ShardLedger.Storable ts writes
  | .prepare _ commitTs writes => ShardLedger.Storable commitTs writes
  | _ => True

instance (command : Command) : Decidable (Command.Storable command) := by
  induction command using Command.casesOn <;> unfold Command.Storable <;> infer_instance

/-- Keys and timestamps can be stored. -/
structure Ledger.Sound (l : Ledger) : Prop where
  committed : ∀ r ∈ l.committed, Storable r.commitTs r.writes
  intents : ∀ t r, (t, r) ∈ l.intents.entries → Storable r.commitTs r.writes

/-- The store is in the state that the ledger describes. -/
structure Represents (s : Store) (l : Ledger) : Prop where
  engine : Holds s.engine l.versions s.intents
  intents : s.intents = l.intents.mapValues Record.staged
  lastTs : s.lastTs = l.lastTs

theorem represents_create : Represents create Ledger.empty where
  engine k x := by
    simp [create, SortedMap.empty, Ledger.versions, Ledger.empty, Dict.empty, Latest]
  intents := rfl
  lastTs := rfl

variable {l : Ledger} {e : Entry}

theorem Ledger.Sound.versions (h : l.Sound) : ShardLedger.Sound l.versions := by
  intro v hv
  obtain ⟨r, hr, hv⟩ := mem_flatMap.mp hv
  obtain ⟨w, hw, rfl⟩ := mem_map.mp hv
  exact ⟨((h.committed r hr).1 w hw).1, (h.committed r hr).2⟩

theorem Ledger.Sound.apply (h : l.Sound) (he : Command.Storable e.command) : (l.apply e).Sound := by
  obtain ⟨command, readTs⟩ := e
  have hmem : ∀ {r : Record} {new : List Record}, r ∈ l.committed ++ new →
      (r ∈ new → Storable r.commitTs r.writes) → Storable r.commitTs r.writes := by
    intro r new hr hnew
    rcases mem_append.mp hr with hr | hr
    · exact h.committed r hr
    · exact hnew hr
  cases command with
  | control => exact ⟨fun r hr => hmem hr (by simp [Ledger.commits]), h.intents⟩
  | write ts writes =>
    refine ⟨fun r hr => hmem hr fun hr => ?_, h.intents⟩
    obtain rfl : r = _ := by simpa [Ledger.commits] using hr
    exact he
  | prepare txnId commitTs writes =>
    refine ⟨fun r hr => hmem hr (by simp [Ledger.commits]), fun t r hr => ?_⟩
    have hset := Dict.mem_set.mp hr
    split at hset
    · rw [hset]
      exact he
    · exact h.intents t r hset
  | commit txnId =>
    refine ⟨fun r hr => hmem hr fun hr => ?_, fun t r hr => h.intents t r (Dict.mem_erase.mp hr).1⟩
    have hget : l.intents.get? txnId = some r := by simpa [Ledger.commits] using hr
    exact h.intents txnId r (Dict.get?_eq_some_iff.mp hget)
  | abort txnId =>
    exact ⟨fun r hr => hmem hr (by simp [Ledger.commits]),
      fun t r hr => h.intents t r (Dict.mem_erase.mp hr).1⟩

theorem Ledger.lastTs_spec (l : Ledger) : (∀ r ∈ l.committed, r.commitTs ≤ l.lastTs) ∧
    (l.lastTs = 0 ∨ ∃ r ∈ l.committed, r.commitTs = l.lastTs) := by
  obtain ⟨intents, committed⟩ := l
  induction committed using List.reverseRecOn with
  | nil => simp [Ledger.lastTs]
  | append_singleton committed r ih =>
    have hmax : (Ledger.mk intents (committed ++ [r])).lastTs =
        max (Ledger.mk intents committed).lastTs r.commitTs := by
      simp [Ledger.lastTs]
    obtain ⟨hle, hmem⟩ := ih
    rw [hmax]
    refine ⟨fun r' hr' => ?_, ?_⟩
    · rcases mem_append.mp hr' with hr' | hr'
      · exact (hle r' hr').trans (le_max_left _ _)
      · rw [mem_singleton.mp hr']
        exact le_max_right _ _
    · rcases le_total r.commitTs (Ledger.mk intents committed).lastTs with hlast | hlast
      · rw [max_eq_left hlast]
        exact hmem.imp_right fun ⟨r', hr', heq⟩ => ⟨r', by simp [hr'], heq⟩
      · rw [max_eq_right hlast]
        exact .inr ⟨r, by simp, rfl⟩

theorem Ledger.Sound.inRange_lastTs (h : l.Sound) : InRange l.lastTs := by
  rcases l.lastTs_spec.2 with hzero | ⟨r, hr, hlast⟩
  · rw [hzero]
    decide
  · rw [← hlast]
    exact (h.committed r hr).2

theorem Ledger.lastTs_apply_of_nil (h : l.commits e = []) : (l.apply e).lastTs = l.lastTs := by
  simp [Ledger.lastTs, Ledger.apply, h]

theorem Ledger.lastTs_apply_of_singleton {r : Record} (h : l.commits e = [r]) :
    (l.apply e).lastTs = if l.lastTs < r.commitTs then r.commitTs else l.lastTs := by
  have hmax : (l.apply e).lastTs = max l.lastTs r.commitTs := by
    simp [Ledger.lastTs, Ledger.apply, h]
  rw [hmax, max_def]
  by_cases hlt : l.lastTs < r.commitTs
  · simp [hlt, hlt.le]
  · rcases (not_lt.mp hlt).lt_or_eq with hgt | heq
    · simp [hlt, not_le.mpr hgt]
    · simp [heq]

theorem Represents.apply (h : Represents s l) (hl : l.Sound) (he : Command.Storable e.command) :
    Represents (s.apply e.command) (l.apply e) := by
  obtain ⟨command, readTs⟩ := e
  have hs := hl.versions
  cases command with
  | control =>
    refine ⟨?_, h.intents, ?_⟩
    · rw [Ledger.versions_apply]
      simpa [Store.apply_control, Ledger.commits] using h.engine
    · rw [Ledger.lastTs_apply_of_nil rfl]
      exact h.lastTs
  | write ts writes =>
    refine ⟨?_, h.intents, ?_⟩
    · rw [Ledger.versions_apply]
      simpa [Store.apply_write, Ledger.commits, Record.versions] using
        h.engine.putVersions hs he.1 he.2
    · rw [Ledger.lastTs_apply_of_singleton rfl, ← h.lastTs]
      rfl
  | prepare txnId commitTs writes =>
    refine ⟨?_, ?_, ?_⟩
    · rw [Ledger.versions_apply]
      simpa [Store.apply_prepare, Ledger.commits] using
        h.engine.putIntent (t := txnId) (c := commitTs) hs
    · rw [Store.apply_prepare, h.intents]
      exact (Dict.mapValues_set (v := Record.mk (some txnId) readTs commitTs writes)).symm
    · rw [Ledger.lastTs_apply_of_nil rfl]
      exact h.lastTs
  | commit txnId =>
    have hget : s.intents.get? txnId = (l.intents.get? txnId).map Record.staged := by
      rw [h.intents, Dict.get?_mapValues]
    have hintents : s.intents.erase txnId = (l.intents.erase txnId).mapValues Record.staged := by
      rw [h.intents]
      exact Dict.mapValues_erase.symm
    cases hr : l.intents.get? txnId with
    | none =>
      have hcommits : l.commits ⟨.commit txnId, readTs⟩ = [] := by simp [Ledger.commits, hr]
      rw [Store.apply_commit_of_none s (by rw [hget, hr]; rfl)]
      refine ⟨?_, hintents, ?_⟩
      · rw [Ledger.versions_apply, hcommits]
        simpa using h.engine.eraseIntent (t := txnId) hs
      · rw [Ledger.lastTs_apply_of_nil hcommits]
        exact h.lastTs
    | some r =>
      have hcommits : l.commits ⟨.commit txnId, readTs⟩ = [r] := by simp [Ledger.commits, hr]
      have hstorable := hl.intents txnId r (Dict.get?_eq_some_iff.mp hr)
      have hput := h.engine.putVersions hs hstorable.1 hstorable.2
      have hs' : ShardLedger.Sound (l.versions ++ r.versions) := by
        have hnext := (hl.apply he).versions
        rwa [Ledger.versions_apply, hcommits, flatMap_singleton] at hnext
      rw [Store.apply_commit_of_some s (by rw [hget, hr]; rfl)]
      refine ⟨?_, hintents, ?_⟩
      · rw [Ledger.versions_apply, hcommits, flatMap_singleton]
        exact hput.eraseIntent hs'
      · rw [Ledger.lastTs_apply_of_singleton hcommits, ← h.lastTs]
  | abort txnId =>
    refine ⟨?_, ?_, ?_⟩
    · rw [Ledger.versions_apply]
      simpa [Store.apply_abort, Ledger.commits] using h.engine.eraseIntent (t := txnId) hs
    · rw [Store.apply_abort, h.intents]
      exact Dict.mapValues_erase.symm
    · rw [Ledger.lastTs_apply_of_nil rfl]
      exact h.lastTs

end Refinement

end LiteDB.ShardLedger
