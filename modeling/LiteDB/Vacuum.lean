import LiteDB.LsmMap
import LiteDB.VersionSeparation
import Mathlib.Data.List.MinMax

namespace LiteDB.Vacuum

open CrashAtomicity (mapEngine)
open Lexicographic List
open LsmMap (lsmEngine)
open Mvcc SortedMaps StorageEngines VersionKeys VersionSets SortedMap
open VersionSeparation hiding sampleVersions

/-- An engine with the call that deletes one key. `Deletes` says where it takes out this key
and no other, which a B-tree does not do everywhere (`BTreeMap.Legal`). -/
structure DeletingEngine extends StorageEngine where
  delete : State → Text → State
  Deletes : State → Text → Prop
  contents_delete : ∀ s key, Deletes s key → contents (delete s key) = (contents s).erase key

instance : Coe DeletingEngine StorageEngine := ⟨DeletingEngine.toStorageEngine⟩

def deletingLsm : DeletingEngine where
  toStorageEngine := lsmEngine
  delete := LsmEngine.Engine.delete
  Deletes _ _ := True
  contents_delete s key _ := LsmMap.contents_write s (.delete key)

def deletingMap : DeletingEngine where
  toStorageEngine := mapEngine
  delete := SortedMap.erase
  Deletes _ _ := True
  contents_delete _ _ _ := rfl

variable {E : DeletingEngine}

/-- The variables of the loop of `vacuum`. -/
structure Vacuuming where
  toDelete : List Text
  prev : Option Text
  keptFloor : Bool

def Vacuuming.next (lowWaterTs : Int) (st : Vacuuming) (e : Text × Text) : Option Vacuuming :=
  (tsFromVersionKey e.1).map fun ts =>
    let uk := userKeyFromVersionKey e.1
    let keptFloor := st.keptFloor && st.prev == some uk
    if lowWaterTs < ts then ⟨st.toDelete, some uk, keptFloor⟩
    else if keptFloor then ⟨st.toDelete ++ [e.1], some uk, true⟩
    else ⟨st.toDelete, some uk, true⟩

/-- What the loop of `vacuum` collects; `none` stands for an exception. -/
def toDelete (m : MvccEngine E) (lowWaterTs : Int) : Option (List Text) :=
  ((E.scan m.engine [] [hiChar]).foldlM (Vacuuming.next lowWaterTs) ⟨[], none, false⟩).map
    Vacuuming.toDelete

/-- Calls of `delete`, each with what the engine does to itself behind it. -/
def deleteAll (m : MvccEngine E) (calls : List (Text × List E.Maintenance)) : MvccEngine E :=
  { m with
    engine := calls.foldl (fun s call => call.2.foldl E.maintain (E.delete s call.1)) m.engine }

/-- Each of the calls takes out its key and no other. -/
def AllDelete (s : E.State) : List (Text × List E.Maintenance) → Prop
  | [] => True
  | call :: calls =>
      E.Deletes s call.1 ∧ AllDelete (call.2.foldl E.maintain (E.delete s call.1)) calls

def vacuum (m : MvccEngine E) (lowWaterTs : Int) : Option (Nat × MvccEngine E) :=
  (toDelete m lowWaterTs).map fun keys =>
    (keys.length, deleteAll m (keys.map fun key => (key, [])))

variable {low : Int}

section Sweep

variable {v : Version} {vs : List Version} {st : Vacuuming}

/-- One turn of the loop on a version. -/
def sweep (low : Int) (st : Vacuuming) (v : Version) : Vacuuming :=
  let keptFloor := st.keptFloor && st.prev == some v.key
  if low < v.ts then ⟨st.toDelete, some v.key, keptFloor⟩
  else if keptFloor then ⟨st.toDelete ++ [v.entry.1], some v.key, true⟩
  else ⟨st.toDelete, some v.key, true⟩

theorem foldlM_next (h : ∀ v ∈ vs, InRange v.ts) :
    (vs.map Version.entry).foldlM (Vacuuming.next low) st = some (vs.foldl (sweep low) st) := by
  induction vs generalizing st with
  | nil => rfl
  | cons v vs ih =>
    rw [forall_mem_cons] at h
    have hnext : Vacuuming.next low st v.entry = some (sweep low st v) := by
      simp only [Vacuuming.next, Version.entry, tsFromVersionKey_versionKey h.1,
        Option.map_some, userKeyFromVersionKey_versionKey h.1, sweep]
    rw [map_cons, foldlM_cons, hnext]
    exact ih h.2

/-- A newer version of the key is below the mark as well. -/
def Superseded (low : Int) (vs : List Version) (v : Version) : Prop :=
  ∃ w ∈ vs, w.key = v.key ∧ v.ts < w.ts ∧ w.ts ≤ low

/-- What `vacuum` deletes in the range of a scan has a newer version there. -/
def Covered (low r : Int) (lo hi : Text) (vs : List Version) : Prop :=
  ∀ v ∈ vs, Meets [] [hiChar] v → Superseded low vs v → Meets lo (hi ++ [hiChar]) v →
    Superseded r (vs.filter (Meets lo (hi ++ [hiChar]))) v

instance (low : Int) (vs : List Version) (v : Version) : Decidable (Superseded low vs v) :=
  inferInstanceAs (Decidable (∃ w ∈ vs, _))

instance (low r : Int) (lo hi : Text) (vs : List Version) : Decidable (Covered low r lo hi vs) :=
  inferInstanceAs (Decidable (∀ v ∈ vs, _))

/-- The loop of `vacuum` has found all superseded versions of a prefix. -/
structure Swept (low : Int) (vs : List Version) (st : Vacuuming) : Prop where
  standing : Standing low vs st.prev st.keptFloor
  toDelete : ∀ k, k ∈ st.toDelete ↔ ∃ v ∈ vs, v.entry.1 = k ∧ Superseded low vs v

theorem superseded_concat_iff (horder : (vs ++ [v]).Pairwise Before) {k : Text} :
    (∃ u ∈ vs ++ [v], u.entry.1 = k ∧ Superseded low (vs ++ [v]) u) ↔
      (∃ u ∈ vs, u.entry.1 = k ∧ Superseded low vs u) ∨
        (v.entry.1 = k ∧ Seen low vs v.key) := by
  have hlater : ∀ u ∈ vs, v.key = u.key → v.ts < u.ts := by
    intro u hu hkey
    rcases before_of_mem horder hu with hlt | ⟨-, hlt⟩
    · exact absurd hlt (by simp [hkey])
    · exact hlt
  constructor
  · rintro ⟨u, hu, rfl, w, hw, hkey, hlt, hle⟩
    rw [mem_append, mem_singleton] at hu hw
    rcases hu with hu | rfl
    · refine .inl ⟨u, hu, rfl, w, ?_, hkey, hlt, hle⟩
      refine hw.resolve_right fun heq => ?_
      subst heq
      exact absurd (hlater u hu hkey) hlt.not_gt
    · refine .inr ⟨rfl, w, ?_, hkey, hle⟩
      refine hw.resolve_right fun heq => ?_
      subst heq
      exact absurd hlt (lt_irrefl _)
  · rintro (⟨u, hu, rfl, w, hw, hkey, hlt, hle⟩ | ⟨rfl, w, hw, hkey, hle⟩)
    · exact ⟨u, mem_append_left _ hu, rfl, w, mem_append_left _ hw, hkey, hlt, hle⟩
    · exact ⟨v, by simp, rfl, w, mem_append_left _ hw, hkey, hlater w hw hkey.symm, hle⟩

theorem Swept.next (h : Swept low vs st) (horder : (vs ++ [v]).Pairwise Before) :
    Swept low (vs ++ [v]) (sweep low st v) := by
  have hseen : (st.keptFloor && st.prev == some v.key) = true ↔ Seen low vs v.key := by
    rw [h.standing v.key, trails_iff_seen horder]
  have hcollected : ∀ k, (∃ u ∈ vs ++ [v], u.entry.1 = k ∧ Superseded low (vs ++ [v]) u) ↔
      k ∈ st.toDelete ∨ (v.entry.1 = k ∧ Seen low vs v.key) := fun k => by
    rw [superseded_concat_iff horder, h.toDelete]
  simp only [sweep]
  split_ifs with hlow hkept
  · -- a version of the key below the mark would have come behind this one
    have hnew : ¬Seen low vs v.key := by
      rintro ⟨w, hw, hkey, hle⟩
      rcases before_of_mem horder hw with hlt | ⟨-, hlt⟩
      · exact absurd hlt (by simp [hkey])
      · omega
    refine ⟨standing_concat ?_, fun k => by rw [hcollected]; simp [hnew]⟩
    simp [h.standing v.key, hlow]
  · rw [hseen] at hkept
    refine ⟨standing_concat (by simp [not_lt.mp hlow]), fun k => ?_⟩
    rw [hcollected, mem_append, mem_singleton, and_iff_left hkept, eq_comm]
  · rw [hseen] at hkept
    refine ⟨standing_concat (by simp [not_lt.mp hlow]), fun k => ?_⟩
    rw [hcollected]
    simp [hkept]

theorem swept_foldl (horder : vs.Pairwise Before) :
    Swept low vs (vs.foldl (sweep low) ⟨[], none, false⟩) := by
  induction vs using List.reverseRecOn with
  | nil => exact ⟨fun _ => rfl, by simp⟩
  | append_singleton vs v ih =>
    rw [foldl_append]
    exact (ih (pairwise_append.mp horder).1).next horder

theorem Superseded.exists_newest (h : Superseded low vs v) :
    ∃ w ∈ vs, w.key = v.key ∧ v.ts < w.ts ∧ w.ts ≤ low ∧ ¬Superseded low vs w := by
  obtain ⟨u, hu, hukey, hlt, hle⟩ := h
  have hmem : u ∈ vs.filter fun w => w.key = v.key ∧ w.ts ≤ low := by simp [hu, hukey, hle]
  cases hmax : (vs.filter fun w => w.key = v.key ∧ w.ts ≤ low).argmax Version.ts with
  | none => rw [argmax_eq_none.mp hmax] at hmem; simp at hmem
  | some w =>
    have hw := argmax_mem hmax
    simp only [mem_filter, decide_eq_true_eq] at hw
    obtain ⟨hwmem, hwkey, hwle⟩ := hw
    have huw : u.ts ≤ w.ts := le_of_mem_argmax hmem hmax
    refine ⟨w, hwmem, hwkey, hlt.trans_le huw, hwle, ?_⟩
    rintro ⟨x, hx, hxkey, hxlt, hxle⟩
    have hxw : x.ts ≤ w.ts :=
      le_of_mem_argmax (by simp [hx, hxkey, hwkey, hxle]) hmax
    omega

end Sweep

variable {r : Int} {key : Text}

section Thinning

variable {vs ws : List Version} {value : Text}

/-- From `vs` to `ws` only versions went that a remaining one below the mark supersedes. -/
structure Thins (low : Int) (vs ws : List Version) : Prop where
  subset : ∀ v ∈ ws, v ∈ vs
  superseded : ∀ v ∈ vs, v ∉ ws → Superseded low ws v

variable (h : Thins low vs ws)

include h

theorem Thins.first_iff (hle : low ≤ r) : First r ws key value ↔ First r vs key value := by
  constructor
  · rintro ⟨v, hv, hkey, hts, hvalue, hnewest⟩
    refine ⟨v, h.subset v hv, hkey, hts, hvalue, fun u hu hukey huts => ?_⟩
    by_cases hmem : u ∈ ws
    · exact hnewest u hmem hukey huts
    · obtain ⟨w, hw, hwkey, hlt, hwlow⟩ := h.superseded u hu hmem
      have hwle := hnewest w hw (hwkey.trans hukey) (hwlow.trans hle)
      omega
  · rintro ⟨v, hv, hkey, hts, hvalue, hnewest⟩
    refine ⟨v, ?_, hkey, hts, hvalue, fun u hu => hnewest u (h.subset u hu)⟩
    by_contra hmem
    obtain ⟨w, hw, hwkey, hlt, hwlow⟩ := h.superseded v hv hmem
    have hwle := hnewest w (h.subset w hw) (hwkey.trans hkey) (hwlow.trans hle)
    omega

theorem Thins.mem_of_newest {v : Version} (hv : v ∈ vs)
    (hnewest : ∀ w ∈ vs, w.key = v.key → w.ts ≤ v.ts) : v ∈ ws := by
  by_contra hmem
  obtain ⟨w, hw, hkey, hlt, -⟩ := h.superseded v hv hmem
  have hle := hnewest w (h.subset w hw) hkey
  omega

theorem Thins.newestTs_eq : newestTs ws key = newestTs vs key := by
  obtain ⟨hnonneg, hle, hfrom⟩ := newestTs_spec vs key
  obtain ⟨hnonneg', hle', hfrom'⟩ := newestTs_spec ws key
  refine le_antisymm ?_ ?_
  · rcases hfrom' with hzero | ⟨w, hw, hkey, hts⟩
    · rwa [hzero]
    · rw [← hts]
      exact hle w (h.subset w hw) hkey
  · rcases hfrom with hzero | ⟨v, hv, hkey, hts⟩
    · rwa [hzero]
    · rw [← hts]
      refine hle' v (h.mem_of_newest hv fun w hw hwkey => ?_) hkey
      rw [hts]
      exact hle w hw (hwkey.trans hkey)

end Thinning

variable {m : MvccEngine E} {calls : List (Text × List E.Maintenance)}

section Engine

variable {vs : List Version} {lo : Text}

theorem contents_foldl_maintain (s : E.State) (ms : List E.Maintenance) :
    E.contents (ms.foldl E.maintain s) = E.contents s := by
  induction ms generalizing s with
  | nil => rfl
  | cons a ms ih => exact (ih _).trans (E.contents_maintain s a)

theorem mem_deleteAll (hall : AllDelete m.engine calls) {vkey value : Text} :
    (vkey, value) ∈ (E.contents (deleteAll m calls).engine).entries ↔
      (vkey, value) ∈ (E.contents m.engine).entries ∧ vkey ∉ calls.map Prod.fst := by
  induction calls generalizing m with
  | nil => simp [deleteAll]
  | cons call calls ih =>
    have hstep : deleteAll m (call :: calls) = deleteAll
        { m with engine := call.2.foldl E.maintain (E.delete m.engine call.1) } calls := rfl
    rw [hstep, ih hall.2, contents_foldl_maintain, E.contents_delete _ _ hall.1, mem_erase,
      map_cons, mem_cons, not_or, and_assoc]

theorem keeps_deleteAll (h : Keeps (E.contents m.engine) vs) (hall : AllDelete m.engine calls) :
    Keeps (E.contents (deleteAll m calls).engine)
      (vs.filter fun v => v.entry.1 ∉ calls.map Prod.fst) := by
  refine ⟨fun vkey value => ?_, fun v hv => h.range v (mem_filter.mp hv).1⟩
  simp only [mem_deleteAll hall, h.mem, mem_filter, decide_eq_true_eq]
  constructor
  · rintro ⟨⟨v, hv, heq⟩, hkeep⟩
    obtain ⟨rfl, rfl⟩ := Prod.mk.inj heq
    exact ⟨v, ⟨hv, hkeep⟩, rfl⟩
  · rintro ⟨v, ⟨hv, hkeep⟩, heq⟩
    obtain ⟨rfl, rfl⟩ := Prod.mk.inj heq
    exact ⟨⟨v, hv, rfl⟩, hkeep⟩

theorem not_meets_of_hiChar {v : Version} (h : v.key.head? = some hiChar) :
    ¬Meets [] [hiChar] v := by
  rintro ⟨-, hle⟩
  obtain ⟨rest, hrest⟩ : ∃ rest, v.key = hiChar :: rest := by
    cases hkey : v.key with
    | nil => simp [hkey] at h
    | cons c rest => simp_all
  rw [versionKey, hrest, cons_append, ← singleton_append, ← append_nil [hiChar], append_assoc,
    append_le_append_iff] at hle
  have hnil := le_antisymm hle (not_lt.mp (not_lt_nil _))
  simp at hnil

theorem meets_of_key_eq {v w : Version} (h : Meets [] [hiChar] v) (hkey : w.key = v.key)
    (hv : InRange v.ts) (hw : InRange w.ts) : Meets [] [hiChar] w := by
  have huncut : Uncut [] v.key := fun hstart => by simpa using hstart.length_le
  have hall : Meets [] ([] ++ [hiChar]) w := Meets.of_uncut h huncut huncut hkey hv hw
  exact hall

theorem exists_toDelete (h : Keeps (E.contents m.engine) vs) (hplain : ∀ v ∈ vs, sep ∉ v.key)
    (low : Int) : ∃ keys, toDelete m low = some keys ∧
      ∀ v ∈ vs, v.entry.1 ∈ keys ↔ Meets [] [hiChar] v ∧ Superseded low vs v := by
  obtain ⟨met, hmet, hsorted, hmem⟩ := h.exists_versions [] [hiChar]
  have horder : met.Pairwise Before := hsorted.imp_of_mem fun {v w} hv hw hlt => by
    have hv := ((hmem v).mp hv).1
    have hw := ((hmem w).mp hw).1
    exact before_of_lt (apart_of_not_mem (hplain w hw) (hplain v hv)) (h.range v hv)
      (h.range w hw) hlt
  have hswept := @swept_foldl low met horder
  refine ⟨(met.foldl (sweep low) ⟨[], none, false⟩).toDelete, ?_, fun v hv => ?_⟩
  · rw [toDelete, E.scan_eq, ← hmet, foldlM_next fun v hv => h.range v ((hmem v).mp hv).1,
      Option.map_some]
  · rw [hswept.toDelete]
    constructor
    · rintro ⟨u, hu, heq, w, hw, hkey, hlt, hle⟩
      obtain ⟨hu, hmeets⟩ := (hmem u).mp hu
      obtain ⟨hukey, huts⟩ := versionKey_injective (h.range u hu) (h.range v hv) heq
      rw [Meets, hukey, huts] at hmeets
      exact ⟨hmeets, w, ((hmem w).mp hw).1, hkey.trans hukey, huts ▸ hlt, hle⟩
    · rintro ⟨hmeets, w, hw, hkey, hlt, hle⟩
      refine ⟨v, (hmem v).mpr ⟨hv, hmeets⟩, rfl, w, (hmem w).mpr ⟨hw, ?_⟩, hkey, hlt, hle⟩
      exact meets_of_key_eq hmeets hkey (h.range v hv) (h.range w hw)

theorem thins_filter {deleted : List Text}
    (h : ∀ v ∈ vs, v.entry.1 ∈ deleted → Superseded low vs v) :
    Thins low vs (vs.filter fun v => v.entry.1 ∉ deleted) := by
  refine ⟨fun v hv => (mem_filter.mp hv).1, fun v hv hgone => ?_⟩
  have hdeleted : v.entry.1 ∈ deleted := by
    by_contra hkeep
    exact hgone (mem_filter.mpr ⟨hv, decide_eq_true hkeep⟩)
  obtain ⟨w, hw, hkey, hlt, hle, hnewest⟩ := (h v hv hdeleted).exists_newest
  refine ⟨w, mem_filter.mpr ⟨hw, decide_eq_true fun hmem => ?_⟩, hkey, hlt, hle⟩
  exact hnewest (h w hw hmem)

/-- A key with U+0000 in it has no versions among those of keys without it. -/
theorem scan_eq_nil_of_sep_mem (h : Keeps (E.contents m.engine) vs)
    (hplain : ∀ v ∈ vs, sep ∉ v.key) (hkey : sep ∈ key) (hlo : key ++ [sep] ≤ lo) :
    E.scan m.engine lo (key ++ sep :: hi16) = [] := by
  rw [E.scan_eq, eq_nil_iff_forall_not_mem]
  rintro ⟨vkey, value⟩ he
  obtain ⟨hmem, hle, hhi⟩ := mem_scan.mp he
  obtain ⟨v, hv, heq⟩ := (h.mem vkey value).mp hmem
  obtain ⟨rfl, rfl⟩ := Prod.mk.inj heq
  rw [append_cons] at hhi
  have hstart : key ++ [sep] <+: versionKey v.key v.ts :=
    prefix_of_between (a := []) (by rw [append_nil]; exact hlo.trans hle) hhi
  have hcount := hstart.sublist.count_le sep
  rw [versionKey_eq (h.range v hv), count_append, count_append, count_cons_self,
    count_cons_self, count_eq_zero_of_not_mem (hplain v hv),
    count_eq_zero_of_not_mem sep_notMem_suffix] at hcount
  have hpos := count_pos_iff.mpr hkey
  omega

theorem contents_deleteAll_of_neg (h : Keeps (E.contents m.engine) vs)
    (hall : AllDelete m.engine calls)
    (hgone : ∀ v ∈ vs, v.entry.1 ∈ calls.map Prod.fst → Superseded low vs v) (hlow : low < 0) :
    E.contents (deleteAll m calls).engine = E.contents m.engine := by
  refine ext_get? fun vkey => Option.ext fun value => ?_
  rw [get?_eq_some_iff, get?_eq_some_iff, mem_deleteAll hall]
  refine and_iff_left_of_imp fun hmem hdeleted => ?_
  obtain ⟨v, hv, heq⟩ := (h.mem vkey value).mp hmem
  obtain ⟨rfl, rfl⟩ := Prod.mk.inj heq
  obtain ⟨w, -, -, hlt, hle⟩ := hgone v hv hdeleted
  have hrange := (h.range v hv).1
  omega

end Engine

section Invisible

variable {vs : List Version} (h : Keeps (E.contents m.engine) vs) (hplain : ∀ v ∈ vs, sep ∉ v.key)
  (hall : AllDelete m.engine calls)
  (hgone : ∀ v ∈ vs, v.entry.1 ∈ calls.map Prod.fst → Superseded low vs v)

include h hplain hall hgone

theorem read_deleteAll (key : Text) (hr : low ≤ r) :
    (deleteAll m calls).read key r = m.read key r := by
  have hthins := thins_filter hgone
  have hkeeps := keeps_deleteAll h hall
  have hplain' := fun v hv => hplain v (hthins.subset v hv)
  by_cases hkey : sep ∈ key
  · have hlo : key ++ [sep] ≤ versionKey key r := by
      have hle := le_append (key ++ [sep]) (formatHex 16 (maxTs - r))
      rwa [← append_cons] at hle
    rw [MvccEngine.read, MvccEngine.read, scan_eq_nil_of_sep_mem h hplain hkey hlo,
      scan_eq_nil_of_sep_mem hkeeps hplain' hkey hlo]
  · rcases lt_or_ge r 0 with hneg | hnonneg
    · rw [MvccEngine.read, MvccEngine.read, E.scan_eq, E.scan_eq,
        contents_deleteAll_of_neg h hall hgone (hr.trans_lt hneg)]
    · refine Option.ext fun value => ?_
      rw [hkeeps.read_eq_some_iff (fun v hv => apart_of_not_mem (hplain' v hv) hkey) hnonneg,
        h.read_eq_some_iff (fun v hv => apart_of_not_mem (hplain v hv) hkey) hnonneg,
        hthins.first_iff hr]

theorem scan_deleteAll {lo hi : Text} (hcovered : Covered low r lo hi vs)
    (hmet : ∀ v ∈ vs, v.entry.1 ∈ calls.map Prod.fst → Meets [] [hiChar] v) :
    (deleteAll m calls).scan lo hi r = m.scan lo hi r := by
  have hthins := thins_filter hgone
  have hplain' := fun v hv => hplain v (hthins.subset v hv)
  obtain ⟨out, hout, hsorted, hmem⟩ := h.exists_scan lo hi r
    fun v hv w hw => apart_of_not_mem (hplain v hv) (hplain w hw)
  obtain ⟨out', hout', hsorted', hmem'⟩ := (keeps_deleteAll h hall).exists_scan lo hi r
    fun v hv w hw => apart_of_not_mem (hplain' v hv) (hplain' w hw)
  -- the newest version that the scan meets is not deleted
  have hsuperseded : ∀ v ∈ vs.filter (Meets lo (hi ++ [hiChar])),
      v.entry.1 ∈ calls.map Prod.fst →
        Superseded r (vs.filter (Meets lo (hi ++ [hiChar]))) v := by
    intro v hv hdeleted
    rw [mem_filter, decide_eq_true_eq] at hv
    exact hcovered v hv.1 (hmet v hv.1 hdeleted) (hgone v hv.1 hdeleted) hv.2
  have hthin := thins_filter hsuperseded
  rw [hout, hout', eq_of_mem_iff hsorted' hsorted fun key value => by
    rw [hmem, hmem', filter_filter, ← hthin.first_iff le_rfl, filter_filter]
    simp only [Bool.and_comm]]

theorem newestCommittedTs_deleteAll (key : Text) :
    (deleteAll m calls).newestCommittedTs key = m.newestCommittedTs key := by
  have hthins := thins_filter hgone
  have hkeeps := keeps_deleteAll h hall
  have hplain' := fun v hv => hplain v (hthins.subset v hv)
  by_cases hkey : sep ∈ key
  · rw [MvccEngine.newestCommittedTs, MvccEngine.newestCommittedTs,
      scan_eq_nil_of_sep_mem h hplain hkey le_rfl,
      scan_eq_nil_of_sep_mem hkeeps hplain' hkey le_rfl]
  · rw [hkeeps.newestCommittedTs_eq fun v hv => apart_of_not_mem (hplain' v hv) hkey,
      h.newestCommittedTs_eq fun v hv => apart_of_not_mem (hplain v hv) hkey,
      hthins.newestTs_eq]

omit hplain in
theorem recoverMaxTs_deleteAll :
    MvccEngine.recoverMaxTs (E := E) (deleteAll m calls).engine =
      MvccEngine.recoverMaxTs (E := E) m.engine := by
  have hthins := thins_filter hgone
  obtain ⟨M, hM, hnonneg, hfrom, hmax⟩ := h.recoverMaxTs_eq
  obtain ⟨M', hM', hnonneg', hfrom', hmax'⟩ := (keeps_deleteAll h hall).recoverMaxTs_eq
  rw [hM, hM', Option.some.injEq]
  refine le_antisymm ?_ ?_
  · rcases hfrom' with rfl | ⟨w, hw, hmeets, rfl⟩
    · exact hnonneg
    · exact hmax w (hthins.subset w hw) hmeets
  · rcases hfrom with rfl | ⟨v, hv, hmeets, rfl⟩
    · exact hnonneg'
    · refine hmax' v (hthins.mem_of_newest hv fun w hw hkey => ?_) hmeets
      exact hmax w hw (meets_of_key_eq hmeets hkey (h.range v hv) (h.range w hw))

end Invisible

/-- `m'` answers from the mark on as `m` does. -/
structure SameAbove (low : Int) (vs : List Version) (m m' : MvccEngine E) : Prop where
  read : ∀ key r, low ≤ r → m'.read key r = m.read key r
  newest : ∀ v ∈ vs, (∀ w ∈ vs, w.key = v.key → w.ts ≤ v.ts) →
    v.entry ∈ (E.contents m'.engine).entries
  newestCommittedTs : ∀ key, m'.newestCommittedTs key = m.newestCommittedTs key
  recoverMaxTs : MvccEngine.recoverMaxTs (E := E) m'.engine =
    MvccEngine.recoverMaxTs (E := E) m.engine

/-- At most one version of each key is left below the mark. -/
def Thinned (low : Int) (vs : List Version) (m : MvccEngine E) : Prop :=
  ∀ v ∈ vs, ∀ w ∈ vs, v.entry ∈ (E.contents m.engine).entries →
    w.entry ∈ (E.contents m.engine).entries → v.key = w.key → v.ts ≤ low → w.ts ≤ low → v = w

variable {vs : List Version}

theorem thinned_of_superseded (hrange : ∀ v ∈ vs, InRange v.ts)
    (hkept : ∀ v ∈ vs, v.entry ∈ (E.contents m.engine).entries → ¬Superseded low vs v) :
    Thinned low vs m := by
  intro v hv w hw hvmem hwmem hkey hvle hwle
  have hts : v.ts = w.ts := by
    rcases lt_trichotomy v.ts w.ts with hlt | heq | hlt
    · exact absurd ⟨w, hw, hkey.symm, hlt, hwle⟩ (hkept v hv hvmem)
    · exact heq
    · exact absurd ⟨v, hv, hkey, hlt, hvle⟩ (hkept w hw hwmem)
  have hv' := get?_eq_some_iff.mpr hvmem
  have hw' := get?_eq_some_iff.mpr hwmem
  rw [hkey, hts] at hv'
  refine entry_injective (hrange v hv) (hrange w hw) (Prod.ext ?_ ?_)
  · rw [Version.entry, Version.entry, hkey, hts]
  · exact Option.some.inj (hv'.symm.trans hw')

/-- Some first deletes of `vacuum` on these versions. -/
structure Vacuums (low : Int) (vs : List Version) (m : MvccEngine E)
    (calls : List (Text × List E.Maintenance)) : Prop where
  keeps : Keeps (E.contents m.engine) vs
  collected : ∃ keys, toDelete m low = some keys ∧ calls.map Prod.fst <+: keys
  deletes : AllDelete m.engine calls

/-- Whatever the values are, the scan lists the same after the first deletes, however many. -/
def ScansSame (low r : Int) (lo hi : Text) (vs : List Version) : Prop :=
  ∀ (E : DeletingEngine) (m : MvccEngine E) (f : Text → Int → Text)
    (calls : List (Text × List E.Maintenance)),
    Vacuums low (relabel f vs) m calls → (deleteAll m calls).scan lo hi r = m.scan lo hi r

/-- All deletes leave one version of each key below the mark. -/
def LeavesOne (low : Int) (vs : List Version) : Prop :=
  ∀ (E : DeletingEngine) (m : MvccEngine E) (f : Text → Int → Text)
    (calls : List (Text × List E.Maintenance)), Vacuums low (relabel f vs) m calls →
    toDelete m low = some (calls.map Prod.fst) → Thinned low (relabel f vs) (deleteAll m calls)

section Conditions

theorem Vacuums.deleted (h : Vacuums low vs m calls) (hplain : ∀ v ∈ vs, sep ∉ v.key) :
    ∀ v ∈ vs, v.entry.1 ∈ calls.map Prod.fst → Meets [] [hiChar] v ∧ Superseded low vs v := by
  obtain ⟨keys, hkeys, hmem⟩ := exists_toDelete h.keeps hplain low
  obtain ⟨keys', hkeys', hstart⟩ := h.collected
  cases hkeys.symm.trans hkeys'
  exact fun v hv hdeleted => (hmem v hv).mp (hstart.subset hdeleted)

theorem sameAbove_of_vacuums (h : Vacuums low vs m calls) (hplain : ∀ v ∈ vs, sep ∉ v.key) :
    SameAbove low vs m (deleteAll m calls) := by
  have hgone := fun v hv hdeleted => (h.deleted hplain v hv hdeleted).2
  refine ⟨fun key r => read_deleteAll h.keeps hplain h.deletes hgone key, fun v hv hnewest => ?_,
    newestCommittedTs_deleteAll h.keeps hplain h.deletes hgone,
    recoverMaxTs_deleteAll h.keeps h.deletes hgone⟩
  exact ((keeps_deleteAll h.keeps h.deletes).mem _ _).mpr
    ⟨v, (thins_filter hgone).mem_of_newest hv hnewest, rfl⟩

theorem allDelete_deletingMap (s : deletingMap.State)
    (calls : List (Text × List deletingMap.Maintenance)) :
    AllDelete (E := deletingMap) s calls := by
  induction calls generalizing s with
  | nil => trivial
  | cons call calls ih => exact ⟨trivial, ih _⟩

/-- All deletes of `vacuum` on the map of the versions. -/
theorem exists_vacuums (hrange : ∀ v ∈ vs, InRange v.ts) (hplain : ∀ v ∈ vs, sep ∉ v.key)
    (low : Int) (f : Text → Int → Text) : ∃ (m : MvccEngine deletingMap)
      (calls : List (Text × List deletingMap.Maintenance)), Vacuums low (relabel f vs) m calls ∧
      toDelete m low = some (calls.map Prod.fst) ∧ ∀ v ∈ relabel f vs,
        v.entry.1 ∈ calls.map Prod.fst ↔ Meets [] [hiChar] v ∧ Superseded low (relabel f vs) v := by
  have hkeeps : Keeps (deletingMap.contents (stored (relabel f vs)).engine) (relabel f vs) :=
    keeps_stored hrange f
  obtain ⟨keys, hkeys, hmem⟩ := exists_toDelete (E := deletingMap) (m := stored (relabel f vs))
    hkeeps (by simpa [relabel] using hplain) low
  have hcalls : (keys.map fun key => (key, ([] : List deletingMap.Maintenance))).map Prod.fst =
      keys := by simp [Function.comp_def]
  refine ⟨stored (relabel f vs), keys.map fun key => (key, []),
    ⟨hkeeps, ⟨keys, hkeys, by rw [hcalls]⟩, allDelete_deletingMap _ _⟩, ?_, ?_⟩
  · rw [hcalls]
    exact hkeys
  · rw [hcalls]
    exact hmem

theorem scansSame_iff (hrange : ∀ v ∈ vs, InRange v.ts) (hplain : ∀ v ∈ vs, sep ∉ v.key)
    {lo hi : Text} (hr : low ≤ r) : ScansSame low r lo hi vs ↔ Covered low r lo hi vs := by
  constructor
  · intro hsame v hv hall hsuperseded hmeets
    by_contra hnewest
    obtain ⟨m, calls, hvacuums, -, hmem⟩ := exists_vacuums hrange hplain low (only v)
    obtain ⟨ls, hscan, hls⟩ := hvacuums.keeps.exists_lists lo hi r
    obtain ⟨ls', hscan', hls'⟩ :=
      (keeps_deleteAll hvacuums.keeps hvacuums.deletes).exists_lists lo hi r
    have heq := (hsame _ m _ calls hvacuums).symm
    rw [hscan, hscan', Option.some.injEq] at heq
    -- before the deletes, the scan lists `v`
    have hts : v.ts ≤ r := by
      obtain ⟨w, -, -, hlt, hle⟩ := hsuperseded
      omega
    have hshown := (shown_only_iff hls hv).mpr ⟨⟨rfl, rfl⟩, hmeets, hts, ?_⟩
    · rw [heq] at hshown
      obtain ⟨u, hu, hpair⟩ := mem_map.mp hshown
      obtain ⟨hkey, hvalue⟩ := Prod.mk.inj hpair
      obtain ⟨hu, hkept⟩ := mem_filter.mp ((hls'.mem u).mp hu).1
      obtain ⟨-, -, -, -, honly⟩ := mem_relabel.mp hu
      have hvisible : visible (only v u.key u.ts) = some ['x'] := by
        rw [← honly, hvalue]
        rfl
      obtain ⟨⟨-, huts⟩, -⟩ := visible_only.mp hvisible
      refine absurd ?_ (of_decide_eq_true hkept)
      refine (hmem u hu).mpr ⟨?_, ?_⟩
      · rwa [Meets, hkey, huts]
      · simpa [Superseded, relabel, hkey, huts] using hsuperseded
    · rintro ⟨u, hu, humeets, hukey, huts, hlt, -⟩
      refine hnewest ⟨u, by simp [hu, humeets], hukey, ?_, huts⟩
      exact (entry_lt_iff (hrange u hu) (hrange v hv) hukey).mp hlt
  · intro hcovered E m f calls hvacuums
    have hplain' : ∀ v ∈ relabel f vs, sep ∉ v.key := by simpa [relabel] using hplain
    refine scan_deleteAll hvacuums.keeps hplain' hvacuums.deletes
      (fun v hv hdeleted => (hvacuums.deleted hplain' v hv hdeleted).2) ?_
      fun v hv hdeleted => (hvacuums.deleted hplain' v hv hdeleted).1
    intro v hv hall hsuperseded hmeets
    obtain ⟨u, hu, hkey, hts, -⟩ := mem_relabel.mp hv
    rw [Meets, ← hkey, ← hts] at hall hmeets
    obtain ⟨w, hw, hwkey, hlt, hle⟩ := hcovered u hu hall
      (by simpa [Superseded, relabel, hkey, hts] using hsuperseded) hmeets
    rw [mem_filter] at hw
    exact ⟨{ w with value := f w.key w.ts }, mem_filter.mpr
      ⟨mem_relabel.mpr ⟨w, hw.1, rfl, rfl, rfl⟩, hw.2⟩, hwkey.trans hkey, hts ▸ hlt, hle⟩

theorem leavesOne_iff (hrange : ∀ v ∈ vs, InRange v.ts) (hplain : ∀ v ∈ vs, sep ∉ v.key) :
    LeavesOne low vs ↔ ∀ v ∈ vs, v.key.head? = some hiChar → ¬Superseded low vs v := by
  constructor
  · rintro hleaves v hv hhead ⟨w, hw, hkey, hlt, hle⟩
    obtain ⟨m, calls, hvacuums, hall, hmem⟩ := exists_vacuums hrange hplain low fun _ _ => []
    have hmem' : ∀ u ∈ vs, { u with value := [] } ∈ relabel (fun _ _ => []) vs :=
      fun u hu => mem_relabel.mpr ⟨u, hu, rfl, rfl, rfl⟩
    have hkept : ∀ u ∈ vs, u.key = v.key → { u with value := [] }.entry ∈
        (deletingMap.contents (deleteAll m calls).engine).entries := by
      intro u hu hukey
      have hu' := hmem' u hu
      refine (mem_deleteAll hvacuums.deletes).mpr ⟨(hvacuums.keeps.mem _ _).mpr ⟨_, hu', rfl⟩, ?_⟩
      intro hdeleted
      refine not_meets_of_hiChar ?_ ((hmem _ hu').mp hdeleted).1
      rwa [hukey]
    have hone := hleaves _ m _ calls hvacuums hall _ (hmem' v hv) _ (hmem' w hw) (hkept v hv rfl)
      (hkept w hw hkey) hkey.symm (hlt.le.trans hle) hle
    exact hlt.ne (Version.mk.inj hone).2.1
  · intro hlast E m f calls hvacuums hall
    have hplain' : ∀ v ∈ relabel f vs, sep ∉ v.key := by simpa [relabel] using hplain
    have hlast' : ∀ v ∈ relabel f vs, v.key.head? = some hiChar →
        ¬Superseded low (relabel f vs) v := by
      simpa [Superseded, relabel] using hlast
    obtain ⟨keys, hkeys, hmem⟩ := exists_toDelete hvacuums.keeps hplain' low
    cases hall.symm.trans hkeys
    refine thinned_of_superseded hvacuums.keeps.range fun v hv hkept hsuperseded => ?_
    have hhead : v.key.head? ≠ some hiChar := fun hhead => hlast' v hv hhead hsuperseded
    refine (mem_deleteAll hvacuums.deletes).mp hkept |>.2 ((hmem v hv).mpr ⟨?_, hsuperseded⟩)
    exact ⟨not_lt.mp (not_lt_nil _), versionKey_le_hiChar hhead v.ts⟩

end Conditions

def written (vs : List Version) : MvccEngine deletingLsm :=
  ⟨vs.foldl (fun s v => s.set v.entry.1 v.value) LsmEngine.Engine.create, 0, 0⟩

def sampleVersions : List Version :=
  [⟨['b'], 2, ['y']⟩, ⟨['a'], 3, tombstone⟩, ⟨['a'], 2, ['y']⟩, ⟨['a'], 1, ['x']⟩]

theorem keeps_written (hrange : ∀ v ∈ vs, InRange v.ts)
    (hentries : (deletingLsm.contents (written vs).engine).entries.Perm (vs.map Version.entry)) :
    Keeps (deletingLsm.contents (written vs).engine) vs :=
  ⟨fun _ _ => by rw [hentries.mem_iff, mem_map], hrange⟩

theorem keeps_sampleVersions :
    Keeps (deletingLsm.contents (written sampleVersions).engine) sampleVersions :=
  keeps_written (by decide) (by decide +kernel)

/-- Two versions of a key that begins with the last character. -/
def lastVersions : List Version := [⟨[hiChar], 1, ['x']⟩, ⟨[hiChar], 2, ['y']⟩]

end LiteDB.Vacuum
