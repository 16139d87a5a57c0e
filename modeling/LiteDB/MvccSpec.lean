import LiteDB.IndexedLists
import LiteDB.VersionSets

namespace LiteDB.MvccSpec

open IndexedLists List
open LsmEngine (WriteOp)
open Mvcc SortedMaps StorageEngines VersionKeys VersionSets

variable {E : StorageEngine}

/-- User keys whose versions cannot be taken for versions of each other. -/
def Separated (userKey : Text → Prop) : Prop :=
  ∀ key key', userKey key → userKey key' → Apart key key'

theorem separated_nulFree : Separated (sep ∉ ·) := fun _ _ => apart_of_not_mem

def kept (E : StorageEngine) (r : Record) (key : Text) : Option Text :=
  (r.writes.get? key).filter fun value => !E.reserved value

theorem kept_eq_some_iff {r : Record} {key value : Text} :
    kept E r key = some value ↔ (key, value) ∈ r.writes.entries ∧ E.reserved value = false := by
  rw [kept, Option.filter_eq_some_iff, Dict.get?_eq_some_iff]
  simp

section Versions

/-- The map holds the versions of the records, except those that the engine takes for
deletions. -/
def Stored (E : StorageEngine) (m : SortedMap Text Text) (log : List Record) : Prop :=
  ∀ vkey value, m.get? vkey = some value ↔
    ∃ r ∈ log, ∃ key, kept E r key = some value ∧ vkey = versionKey key r.commitTs

theorem stored_nil : Stored E SortedMap.empty [] := by
  intro vkey value
  simp

theorem nodup_commitOps (r : Record) :
    (((commitOps r.writes r.commitTs).map (effect E.reserved)).map Prod.fst).Nodup := by
  have hkeys : ((commitOps r.writes r.commitTs).map (effect E.reserved)).map Prod.fst =
      (r.writes.entries.map Prod.fst).map fun key => versionKey key r.commitTs := by
    simp [commitOps, effect, Function.comp_def]
  rw [hkeys]
  exact r.writes.nodup.map fun _ _ => append_cancel_right

variable {r : Record}

theorem mem_commitOps {vkey value : Text} :
    (vkey, some value) ∈ (commitOps r.writes r.commitTs).map (effect E.reserved) ↔
      ∃ key, kept E r key = some value ∧ vkey = versionKey key r.commitTs := by
  simp only [commitOps, map_map, mem_map, kept_eq_some_iff]
  constructor
  · rintro ⟨⟨key, v⟩, hmem, heq⟩
    simp only [Function.comp_apply, effect, Prod.mk.injEq] at heq
    obtain ⟨rfl, hvalue⟩ := heq
    split at hvalue <;> cases hvalue
    rename_i hkept
    exact ⟨key, ⟨hmem, by simpa using hkept⟩, rfl⟩
  · rintro ⟨key, ⟨hmem, hkept⟩, rfl⟩
    exact ⟨(key, value), hmem, by simp [effect, hkept]⟩

theorem Stored.concat {m : SortedMap Text Text} {log : List Record} (h : Stored E m log)
    (hr : InRange r.commitTs) (hrange : ∀ x ∈ log, InRange x.commitTs)
    (hnew : ∀ x ∈ log, x.commitTs < r.commitTs) :
    Stored E (m.edit ((commitOps r.writes r.commitTs).map (effect E.reserved))) (log ++ [r]) := by
  intro vkey value
  -- a version of an earlier transaction has another timestamp
  have hold : m.get? vkey = some value →
      vkey ∉ ((commitOps r.writes r.commitTs).map (effect E.reserved)).map Prod.fst := by
    intro hget hmem
    obtain ⟨x, hx, key, -, rfl⟩ := (h vkey value).mp hget
    obtain ⟨e, he, heq⟩ : ∃ e ∈ r.writes.entries,
        versionKey e.1 r.commitTs = versionKey key x.commitTs := by
      simpa [commitOps, effect] using hmem
    have hsame := (versionKey_injective hr (hrange x hx) heq).2
    exact absurd (hnew x hx) (by omega)
  rw [SortedMap.get?_edit, edited_eq_some_iff (nodup_commitOps r), mem_commitOps,
    and_iff_right_of_imp hold, h vkey value]
  simp only [mem_append, mem_singleton]
  constructor
  · rintro (hmem | ⟨x, hx, hmem⟩)
    · exact ⟨r, .inr rfl, hmem⟩
    · exact ⟨x, .inl hx, hmem⟩
  · rintro ⟨x, hx | rfl, hmem⟩
    · exact .inr ⟨x, hx, hmem⟩
    · exact .inl hmem

end Versions

def lastKept (E : StorageEngine) (log : List Record) (key : Text) : Option Text :=
  log.reverse.findSome? fun r => kept E r key

section Reads

variable {m : MvccEngine E} {log : List Record} {userKey : Text → Prop} {key : Text}

/-- The engine holds a log of transactions with increasing timestamps. -/
structure Holds (userKey : Text → Prop) (engine : E.State) (log : List Record) : Prop where
  stored : Stored E (E.contents engine) log
  increasing : log.Pairwise fun a b => a.commitTs < b.commitTs
  range : ∀ r ∈ log, InRange r.commitTs
  keys : ∀ r ∈ log, ∀ e ∈ r.writes.entries, userKey e.1

variable {r : Record} {v : Version} {readTs : Int}

theorem Holds.concat {engine : E.State} (h : Holds userKey engine log) (hr : InRange r.commitTs)
    (hnew : ∀ x ∈ log, x.commitTs < r.commitTs) (hkeys : ∀ e ∈ r.writes.entries, userKey e.1) :
    Holds userKey (E.writeBatch engine (commitOps r.writes r.commitTs)) (log ++ [r]) := by
  refine ⟨?_, pairwise_concat h.increasing hnew, forall_mem_concat h.range hr,
    forall_mem_concat h.keys hkeys⟩
  rw [E.contents_writeBatch]
  exact h.stored.concat hr h.range hnew

theorem Holds.mem_contents (h : Holds userKey m.engine log) {vkey value : Text} :
    (vkey, value) ∈ (E.contents m.engine).entries ↔
      ∃ r ∈ log, ∃ key, kept E r key = some value ∧ vkey = versionKey key r.commitTs := by
  rw [← SortedMap.get?_eq_some_iff, h.stored]

theorem Holds.userKey_of_kept (h : Holds userKey m.engine log) (hr : r ∈ log) {value : Text}
    (hkept : kept E r key = some value) : userKey key :=
  h.keys r hr _ (kept_eq_some_iff.mp hkept).1

theorem lastKept_eq_some_iff {value : Text} : lastKept E log key = some value ↔
    ∃ before r after, log = before ++ r :: after ∧ kept E r key = some value ∧
      ∀ x ∈ after, kept E x key = none :=
  findSome?_reverse_eq_some_iff

theorem lastKept_eq_some_iff_newest (hlog : log.Pairwise fun a b => a.commitTs < b.commitTs)
    {value : Text} : lastKept E log key = some value ↔ ∃ r ∈ log, kept E r key = some value ∧
      ∀ x ∈ log, (kept E x key).isSome → x.commitTs ≤ r.commitTs := by
  rw [lastKept_eq_some_iff]
  constructor
  · rintro ⟨before, r, after, rfl, hr, hafter⟩
    refine ⟨r, by simp, hr, fun x hx hkept => ?_⟩
    rw [pairwise_append] at hlog
    rcases mem_append.mp hx with hx | hx
    · exact (hlog.2.2 x hx r mem_cons_self).le
    · rcases mem_cons.mp hx with rfl | hx
      · exact le_rfl
      · simp [hafter x hx] at hkept
  · rintro ⟨r, hr, hkept, hnewest⟩
    obtain ⟨before, after, rfl⟩ := append_of_mem hr
    refine ⟨before, r, after, rfl, hkept, fun x hx => ?_⟩
    rw [pairwise_append, pairwise_cons] at hlog
    have hlt := hlog.2.1.1 x hx
    refine Option.not_isSome_iff_eq_none.mp fun hsome => ?_
    exact absurd (hnewest x (by simp [hx]) hsome) (not_le.mpr hlt)

def versionsOf (E : StorageEngine) (log : List Record) : List Version :=
  log.flatMap fun r => r.writes.entries.filterMap fun e =>
    (kept E r e.1).map fun value => ⟨e.1, r.commitTs, value⟩

theorem mem_versionsOf : v ∈ versionsOf E log ↔
    ∃ r ∈ log, kept E r v.key = some v.value ∧ r.commitTs = v.ts := by
  simp only [versionsOf, mem_flatMap, mem_filterMap, Option.map_eq_some_iff]
  refine exists_congr fun r => and_congr_right fun _ => ⟨?_, fun ⟨hkept, hts⟩ => ?_⟩
  · rintro ⟨e, -, value, hkept, rfl⟩
    exact ⟨hkept, rfl⟩
  · exact ⟨(v.key, v.value), (kept_eq_some_iff.mp hkept).1, v.value, hkept, by rw [hts]⟩

theorem Holds.keeps (h : Holds userKey m.engine log) :
    Keeps (E.contents m.engine) (versionsOf E log) := by
  refine ⟨fun vkey value => ?_, fun v hv => ?_⟩
  · rw [h.mem_contents]
    constructor
    · rintro ⟨r, hr, key, hkept, rfl⟩
      exact ⟨⟨key, r.commitTs, value⟩, mem_versionsOf.mpr ⟨r, hr, hkept, rfl⟩, rfl⟩
    · rintro ⟨v, hv, heq⟩
      obtain ⟨rfl, rfl⟩ := Prod.mk.inj heq
      obtain ⟨r, hr, hkept, hts⟩ := mem_versionsOf.mp hv
      exact ⟨r, hr, v.key, hkept, by rw [hts]⟩
  · obtain ⟨r, hr, -, hts⟩ := mem_versionsOf.mp hv
    exact hts ▸ h.range r hr

theorem Holds.userKey_of_mem (h : Holds userKey m.engine log) (hv : v ∈ versionsOf E log) :
    userKey v.key := by
  obtain ⟨r, hr, hkept, -⟩ := mem_versionsOf.mp hv
  exact h.userKey_of_kept hr hkept

theorem first_versionsOf_iff (hlog : log.Pairwise fun a b => a.commitTs < b.commitTs) {value : Text}
    : First readTs (versionsOf E log) key value ↔
      (lastKept E (log.filter fun r => r.commitTs ≤ readTs) key).bind visible = some value := by
  have hsorted := hlog.filter fun r => decide (r.commitTs ≤ readTs)
  rw [Option.bind_eq_some_iff]
  simp only [lastKept_eq_some_iff_newest hsorted, mem_filter, decide_eq_true_eq, and_imp]
  constructor
  · rintro ⟨v, hv, rfl, hts, hvalue, hnewest⟩
    obtain ⟨r, hr, hkept, hrts⟩ := mem_versionsOf.mp hv
    refine ⟨v.value, ⟨r, ⟨hr, hrts ▸ hts⟩, hkept, fun q hq hqts hqkept => ?_⟩, hvalue⟩
    obtain ⟨y, hy⟩ := Option.isSome_iff_exists.mp hqkept
    rw [hrts]
    exact hnewest ⟨v.key, q.commitTs, y⟩ (mem_versionsOf.mpr ⟨q, hq, hy, rfl⟩) rfl hqts
  · rintro ⟨x, ⟨r, ⟨hr, hts⟩, hkept, hnewest⟩, hvalue⟩
    refine ⟨⟨key, r.commitTs, x⟩, mem_versionsOf.mpr ⟨r, hr, hkept, rfl⟩, rfl, hts, hvalue, ?_⟩
    rintro w hw rfl hwts
    obtain ⟨q, hq, hqkept, hqts⟩ := mem_versionsOf.mp hw
    rw [← hqts] at hwts ⊢
    exact hnewest q hq hwts (by simp [hqkept])

theorem Holds.read_eq (h : Holds userKey m.engine log) (hsep : Separated userKey)
    (hkey : userKey key) (hread : InRange readTs) :
    m.read key readTs =
      (lastKept E (log.filter fun r => r.commitTs ≤ readTs) key).bind visible := by
  refine Option.ext fun value => ?_
  rw [h.keeps.read_eq_some_iff (fun v hv => hsep _ _ (h.userKey_of_mem hv) hkey) hread.1,
    first_versionsOf_iff h.increasing]

theorem Holds.newestCommittedTs_eq (h : Holds userKey m.engine log) (hsep : Separated userKey)
    (hkey : userKey key) : ∃ newest, m.newestCommittedTs key = some newest ∧
      (∀ r ∈ log, (kept E r key).isSome → r.commitTs ≤ newest) ∧
      (newest = 0 ∨ ∃ r ∈ log, (kept E r key).isSome ∧ newest = r.commitTs) := by
  obtain ⟨-, hle, hfrom⟩ := newestTs_spec (versionsOf E log) key
  refine ⟨_, h.keeps.newestCommittedTs_eq fun v hv => hsep _ _ (h.userKey_of_mem hv) hkey,
    fun r hr hkept => ?_, ?_⟩
  · obtain ⟨value, hvalue⟩ := Option.isSome_iff_exists.mp hkept
    exact hle ⟨key, r.commitTs, value⟩ (mem_versionsOf.mpr ⟨r, hr, hvalue, rfl⟩) rfl
  · refine hfrom.imp_right fun ⟨v, hv, hvkey, hvts⟩ => ?_
    obtain ⟨r, hr, hkept, hrts⟩ := mem_versionsOf.mp hv
    rw [hvkey] at hkept
    exact ⟨r, hr, by simp [hkept], by rw [hrts, hvts]⟩

end Reads

theorem Holds.recoverMaxTs_eq {engine : E.State} {log : List Record} {userKey : Text → Prop}
    (h : Holds userKey engine log) :
    ∃ M, MvccEngine.recoverMaxTs (E := E) engine = some M ∧ 0 ≤ M ∧
      (M = 0 ∨ ∃ r ∈ log, M = r.commitTs) ∧
      ∀ r ∈ log, ∀ key value, kept E r key = some value →
        versionKey key r.commitTs ≤ [hiChar] → r.commitTs ≤ M := by
  obtain ⟨M, hM, hnonneg, hfrom, hmax⟩ := (h.keeps (m := ⟨engine, 0, 0⟩)).recoverMaxTs_eq
  refine ⟨M, hM, hnonneg, ?_, fun r hr key value hkept hle => ?_⟩
  · refine hfrom.imp_right fun ⟨v, hv, _, hts⟩ => ?_
    obtain ⟨r, hr, -, hrts⟩ := mem_versionsOf.mp hv
    exact ⟨r, hr, by rw [hrts, hts]⟩
  · exact hmax ⟨key, r.commitTs, value⟩ (mem_versionsOf.mpr ⟨r, hr, hkept, rfl⟩)
      ⟨not_lt.mp (not_lt_nil _), hle⟩

end LiteDB.MvccSpec
