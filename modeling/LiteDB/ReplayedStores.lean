import LiteDB.CommitOrder
import LiteDB.LogReplay

namespace LiteDB.ReplayedStores

open CommitOrder List LogReplay ShardLedger ShardStore SortedMaps VersionKeys

def ledger (log : List Command) : Ledger := Ledger.replay (log.map fun command => ⟨command, 0⟩)

def commits (log : List Command) (command : Command) : List Record :=
  (ledger log).commits ⟨command, 0⟩

theorem ledger_concat (log : List Command) (command : Command) :
    ledger (log ++ [command]) = (ledger log).apply ⟨command, 0⟩ := by
  simp [ledger, Ledger.replay]

/-- The writes of a command are those of a `dict`. -/
def Distinct : Command → Prop
  | .write _ writes | .prepare _ _ writes => (writes.map Prod.fst).Nodup
  | _ => True

instance (command : Command) : Decidable (Distinct command) := by
  induction command using Command.casesOn <;> unfold Distinct <;> infer_instance

/-- A commit follows another entry of its transaction. -/
def Prepared (log : List Command) : Command → Prop
  | .commit id => ∃ command ∈ log, mentions id command = true
  | _ => True

instance (log : List Command) (command : Command) : Decidable (Prepared log command) := by
  induction command using Command.casesOn <;> unfold Prepared <;> infer_instance

def Above (log : List Command) (command : Command) : Prop :=
  ∀ r ∈ commits log command, ∀ r' ∈ (ledger log).committed, ∀ key ∈ r.writes.map Prod.fst,
    r'.Touches key → r'.commitTs < r.commitTs

instance (log : List Command) (command : Command) : Decidable (Above log command) :=
  inferInstanceAs (Decidable (∀ r ∈ commits log command, ∀ r' ∈ (ledger log).committed,
    ∀ key ∈ r.writes.map Prod.fst, r'.Touches key → r'.commitTs < r.commitTs))

/-- What is asked of an entry behind a log. -/
structure Timely (log : List Command) (command : Command) : Prop where
  storable : Command.Storable command
  distinct : Distinct command
  above : Above log command
  prepared : Prepared log command

instance (log : List Command) (command : Command) : Decidable (Timely log command) :=
  decidable_of_iff (Command.Storable command ∧ Distinct command ∧ Above log command ∧
      Prepared log command)
    ⟨fun ⟨storable, distinct, above, prepared⟩ => ⟨storable, distinct, above, prepared⟩,
      fun h => ⟨h.storable, h.distinct, h.above, h.prepared⟩⟩

section Logs

variable {log log' : List Command} {command : Command}

theorem sound_ledger (h : Admitted Timely log) : (ledger log).Sound := by
  induction h with
  | nil =>
    exact ⟨by simp [ledger, Ledger.replay, Ledger.empty],
      by simp [ledger, Ledger.replay, Ledger.empty, Dict.empty]⟩
  | concat _ hc ih =>
    rw [ledger_concat]
    exact ih.apply hc.storable

theorem represents_once (h : Admitted Timely log) :
    Represents (log.foldl Store.apply create) (ledger log) := by
  induction h with
  | nil => exact represents_create
  | concat hlog hc ih =>
    rw [ledger_concat, foldl_append]
    exact Represents.apply ih (sound_ledger hlog) (e := ⟨_, 0⟩) hc.storable

theorem commits_cases (log : List Command) (command : Command) :
    commits log command = [] ∨ ∃ r, commits log command = [r] := by
  cases command with
  | control | prepare | abort => exact .inl rfl
  | write => exact .inr ⟨_, rfl⟩
  | commit id =>
    cases hget : (ledger log).intents.get? id with
    | none => exact .inl (by simp [commits, Ledger.commits, hget])
    | some r => exact .inr ⟨r, by simp [commits, Ledger.commits, hget]⟩

theorem versions_concat (log : List Command) (command : Command) :
    (ledger (log ++ [command])).versions =
      (ledger log).versions ++ (commits log command).flatMap Record.versions := by
  rw [ledger_concat, Ledger.versions_apply]
  rfl

variable {r : Record} {v : Version}

theorem nodup_of_mem_intents (h : Admitted Timely log) {id : Text}
    (hr : (id, r) ∈ (ledger log).intents.entries) : (r.writes.map Prod.fst).Nodup := by
  induction h with
  | nil => simp [ledger, Ledger.replay, Ledger.empty, Dict.empty] at hr
  | @concat log command _ hc ih =>
    rw [ledger_concat] at hr
    cases command with
    | control | write => exact ih hr
    | commit txnId | abort txnId => exact ih (Dict.mem_erase.mp hr).1
    | prepare txnId commitTs writes =>
      have hset := Dict.mem_set.mp hr
      split at hset
      · rw [hset]
        exact hc.distinct
      · exact ih hset

theorem nodup_of_mem_commits (h : Admitted Timely log) (hc : Timely log command)
    (hr : r ∈ commits log command) : (r.writes.map Prod.fst).Nodup := by
  cases command with
  | control | prepare | abort => simp [commits, Ledger.commits] at hr
  | write ts writes =>
    obtain rfl : r = _ := by simpa [commits, Ledger.commits] using hr
    exact hc.distinct
  | commit id =>
    have hget : (ledger log).intents.get? id = some r := by
      simpa [commits, Ledger.commits] using hr
    exact nodup_of_mem_intents h (Dict.get?_eq_some_iff.mp hget)

theorem pairwise_versions (h : Admitted Timely log) :
    (ledger log).versions.Pairwise fun v w => v.key = w.key → v.ts < w.ts := by
  induction h with
  | nil => exact List.Pairwise.nil
  | @concat log command hlog hc ih =>
    rw [versions_concat]
    refine pairwise_append.mpr ⟨ih, ?_, fun v hv w hw hkey => ?_⟩
    · rcases commits_cases log command with hnone | ⟨r, hr⟩
      · rw [hnone]
        exact List.Pairwise.nil
      · have hnodup := nodup_of_mem_commits hlog hc (r := r) (by simp [hr])
        rw [hr, flatMap_singleton, Record.versions, pairwise_map]
        exact (pairwise_map.mp hnodup).imp fun hne hkey => absurd hkey hne
    · obtain ⟨r', hr', hv⟩ := mem_flatMap.mp hv
      obtain ⟨x, hx, rfl⟩ := mem_map.mp hv
      obtain ⟨r, hr, hw⟩ := mem_flatMap.mp hw
      obtain ⟨y, hy, rfl⟩ := mem_map.mp hw
      refine hc.above r hr r' hr' x.1 ?_ (mem_map.mpr ⟨x, hx, rfl⟩)
      exact mem_map.mpr ⟨y, hy, hkey.symm⟩

theorem latest_of_mem (h : Admitted Timely log) (hv : v ∈ (ledger log).versions) :
    Latest (ledger log).versions v := by
  obtain ⟨before, after, heq⟩ := append_of_mem hv
  refine ⟨before, after, heq, fun w hw hsame => ?_⟩
  have hpairwise := pairwise_versions h
  rw [heq, pairwise_append, pairwise_cons] at hpairwise
  have hlt := hpairwise.2.1.1 w hw hsame.1.symm
  omega

theorem committed_le (hle : log' <+: log) : (ledger log').committed <+: (ledger log).committed := by
  obtain ⟨rest, rfl⟩ := hle
  induction rest using List.reverseRecOn with
  | nil => simp
  | append_singleton rest command ih =>
    rw [← append_assoc, ledger_concat]
    exact ih.trans (prefix_append _ _)

theorem versions_le (hle : log' <+: log) : (ledger log').versions <+: (ledger log).versions := by
  obtain ⟨rest, hrest⟩ := committed_le hle
  rw [Ledger.versions, Ledger.versions, ← hrest, flatMap_append]
  exact prefix_append _ _

theorem lastTs_le (h : Admitted Timely log) (hle : log' <+: log) :
    (ledger log').lastTs ≤ (ledger log).lastTs := by
  rcases (ledger log').lastTs_spec.2 with hzero | ⟨r, hr, hts⟩
  · rw [hzero]
    exact (sound_ledger h).inRange_lastTs.1
  · rw [← hts]
    exact (ledger log).lastTs_spec.1 r ((committed_le hle).subset hr)

theorem ts_le_lastTs (hv : v ∈ (ledger log).versions) : v.ts ≤ (ledger log).lastTs := by
  obtain ⟨r, hr, hv⟩ := mem_flatMap.mp hv
  obtain ⟨w, -, rfl⟩ := mem_map.mp hv
  exact (ledger log).lastTs_spec.1 r hr

theorem ts_le_of_write {before : List Command} {ts : Int} {writes : Writes}
    (hle : before ++ [Command.write ts writes] <+: log) : ts ≤ (ledger log).lastTs := by
  refine (ledger log).lastTs_spec.1 ⟨none, 0, ts, writes⟩ ((committed_le hle).subset ?_)
  rw [ledger_concat]
  exact mem_append_right _ (mem_singleton_self _)

end Logs

section Stores

variable {s : Store} {kept kept' done : List Command} {command : Command}

/-- What a reader meets: the engine has the versions of `kept`, and the snapshot is not
behind that of `done`. -/
structure Shows (s : Store) (kept done : List Command) : Prop where
  le : done <+: kept
  admitted : Admitted Timely kept
  engine : ∃ staged, Holds s.engine (ledger kept).versions staged
  lastTs : (ledger done).lastTs ≤ s.lastTs ∧ s.lastTs ≤ (ledger kept).lastTs

/-- The store has applied `done` since it was opened, and an earlier run has left the
versions of `kept`. It knows the intents of the transactions that `done` mentions. -/
structure Serves (s : Store) (kept done : List Command) : Prop extends Shows s kept done where
  intents : ∀ id, (∃ command ∈ done, mentions id command = true) →
    s.intents.get? id = (done.foldl Store.apply create).intents.get? id

theorem serves_create : Serves create [] [] where
  le := prefix_rfl
  admitted := .nil
  engine := ⟨_, represents_create.engine⟩
  lastTs := ⟨represents_create.lastTs.ge, represents_create.lastTs.le⟩
  intents := fun _ _ => rfl

/-- What one more entry does to the versions: they are in the engine already, or the
store has not come further before. -/
structure Extends (kept done : List Command) (command : Command) (kept' : List Command) :
    Prop where
  le : done ++ [command] <+: kept'
  admitted : Admitted Timely kept'
  lastTs : (ledger kept).lastTs ≤ (ledger kept').lastTs
  skip : commits done command = [] → (ledger kept').versions = (ledger kept).versions
  put : ∀ engine staged r, commits done command = [r] →
    Holds engine (ledger kept).versions staged →
    Holds (putVersions engine r.commitTs r.writes) (ledger kept').versions staged

theorem putVersions_eq_self {engine : SortedMap Text Stored} {ts : Int} {writes : Writes}
    (hwrites : ∀ w ∈ writes, w.2 ≠ some LsmEngine.tombstone)
    (h : ∀ w ∈ writes, (versionKey w.1 ts, versionValue w.2) ∈ engine.entries) :
    putVersions engine ts writes = engine := by
  induction writes with
  | nil => rfl
  | cons w writes ih =>
    have hinsert : engine.insert (versionKey w.1 ts) (versionValue w.2) = engine := by
      refine SortedMap.ext_get? fun key => ?_
      rw [SortedMap.get?_insert]
      split
      · rename_i hkey
        rw [hkey]
        exact (SortedMap.get?_eq_some_iff.mpr (h w (by simp))).symm
      · rfl
    have hrest := ih (fun w' hw' => hwrites w' (by simp [hw'])) fun w' hw' => h w' (by simp [hw'])
    simpa [putVersions, versionEdits, SortedMap.edit, shown_versionValue (hwrites w (by simp)),
      hinsert] using hrest

theorem storable_of_commits (h : Admitted Timely (done ++ [command])) {r : Record}
    (hr : commits done command = [r]) : Storable r.commitTs r.writes := by
  refine (sound_ledger h).committed r ?_
  rw [ledger_concat]
  exact mem_append_right _ (show r ∈ commits done command by simp [hr])

theorem extends_again (hkept : Admitted Timely kept) (hle : done ++ [command] <+: kept) :
    Extends kept done command kept where
  le := hle
  admitted := hkept
  lastTs := le_rfl
  skip _ := rfl
  put engine staged r hr hholds := by
    have hstorable := storable_of_commits (hkept.initial hle) hr
    rw [putVersions_eq_self (fun w hw => (hstorable.1 w hw).2) fun w hw => ?_]
    · exact hholds
    · have hmem : (⟨w.1, r.commitTs, w.2⟩ : Version) ∈ (ledger kept).versions := by
        refine (versions_le hle).subset ?_
        rw [versions_concat, hr, flatMap_singleton]
        exact mem_append_right _ (mem_map.mpr ⟨w, hw, rfl⟩)
      exact (hholds _ _).mpr (.inl ⟨_, latest_of_mem hkept hmem, rfl, rfl⟩)

theorem extends_first (hdone : Admitted Timely done) (hc : Timely done command) :
    Extends done done command (done ++ [command]) where
  le := prefix_rfl
  admitted := .concat hdone hc
  lastTs := lastTs_le (.concat hdone hc) (prefix_append _ _)
  skip hnone := by simp [versions_concat, hnone]
  put engine staged r hr hholds := by
    have hstorable := storable_of_commits (.concat hdone hc) hr
    rw [versions_concat, hr, flatMap_singleton]
    exact hholds.putVersions (sound_ledger hdone).versions hstorable.1 hstorable.2

section

variable (h : Serves s kept done)

include h

theorem Serves.get?_eq {id : Text} (hid : ∃ command ∈ done, mentions id command = true) :
    s.intents.get? id = ((ledger done).intents.get? id).map Record.staged := by
  have hdone := h.admitted.initial h.le
  rw [h.intents id hid, (represents_once hdone).intents, Dict.get?_mapValues]

theorem Serves.apply_of_nil (hc : Prepared done command) (hnone : commits done command = []) :
    (∃ staged, Holds (s.apply command).engine (ledger kept).versions staged) ∧
      (s.apply command).lastTs = s.lastTs := by
  obtain ⟨staged, hholds⟩ := h.engine
  have hsound := (sound_ledger h.admitted).versions
  cases command with
  | control => exact ⟨⟨staged, hholds⟩, rfl⟩
  | write => simp [commits, Ledger.commits] at hnone
  | prepare txnId commitTs writes => exact ⟨⟨_, hholds.putIntent hsound⟩, rfl⟩
  | abort txnId => exact ⟨⟨_, hholds.eraseIntent hsound⟩, rfl⟩
  | commit txnId =>
    have hget : s.intents.get? txnId = none := by
      rw [h.get?_eq hc]
      simpa [commits, Ledger.commits] using hnone
    rw [Store.apply_commit_of_none s hget]
    exact ⟨⟨_, hholds.eraseIntent hsound⟩, rfl⟩

theorem Serves.apply_of_singleton (hc : Prepared done command)
    {r : Record} (hr : commits done command = [r]) {vs : List Version} (hvs : ShardLedger.Sound vs)
    (hput : ∀ staged, Holds s.engine (ledger kept).versions staged →
      Holds (putVersions s.engine r.commitTs r.writes) vs staged) :
    (∃ staged, Holds (s.apply command).engine vs staged) ∧
      (s.apply command).lastTs = if s.lastTs < r.commitTs then r.commitTs else s.lastTs := by
  obtain ⟨staged, hholds⟩ := h.engine
  cases command with
  | control | prepare | abort => simp [commits, Ledger.commits] at hr
  | write ts writes =>
    obtain rfl : _ = r := by simpa [commits, Ledger.commits] using hr
    exact ⟨⟨staged, hput staged hholds⟩, rfl⟩
  | commit txnId =>
    have hget : s.intents.get? txnId = some (r.commitTs, r.writes) := by
      have hintent : (ledger done).intents.get? txnId = some r := by
        simpa [commits, Ledger.commits, Option.toList_eq_singleton_iff] using hr
      rw [h.get?_eq hc, hintent]
      rfl
    rw [Store.apply_commit_of_some s hget]
    exact ⟨⟨_, (hput staged hholds).eraseIntent hvs⟩, rfl⟩

theorem Serves.apply (hc : Prepared done command) (he : Extends kept done command kept') :
    Serves (s.apply command) kept' (done ++ [command]) := by
  obtain ⟨hlow, hhigh⟩ := h.lastTs
  have hlast := he.lastTs
  have hengine : (∃ staged, Holds (s.apply command).engine (ledger kept').versions staged) ∧
      (ledger (done ++ [command])).lastTs ≤ (s.apply command).lastTs ∧
      (s.apply command).lastTs ≤ (ledger kept').lastTs := by
    rcases commits_cases done command with hnone | ⟨r, hr⟩
    · obtain ⟨hholds, hts⟩ := h.apply_of_nil hc hnone
      rw [he.skip hnone, ledger_concat, Ledger.lastTs_apply_of_nil hnone, hts]
      exact ⟨hholds, hlow, hhigh.trans hlast⟩
    · obtain ⟨hholds, hts⟩ := h.apply_of_singleton hc hr (sound_ledger he.admitted).versions
        (fun staged => he.put s.engine staged r hr)
      have hr' : r.commitTs ≤ (ledger kept').lastTs := by
        refine (ledger kept').lastTs_spec.1 r ((committed_le he.le).subset ?_)
        rw [ledger_concat]
        exact mem_append_right _ (show r ∈ commits done command by simp [hr])
      rw [ledger_concat, Ledger.lastTs_apply_of_singleton hr, hts]
      refine ⟨hholds, ?_⟩
      split <;> split <;> omega
  refine ⟨⟨he.le, he.admitted, hengine.1, hengine.2⟩, fun id hid => ?_⟩
  rw [foldl_append]
  refine get?_apply_congr ?_
  obtain ⟨c, hmem, hmentions⟩ := hid
  rcases mem_append.mp hmem with hold | hnew
  · exact .inr (h.intents id ⟨c, hold, hmentions⟩)
  · rw [mem_singleton.mp hnew] at hmentions
    exact .inl hmentions

/-- In the middle of an entry the versions are those before or after it, and the clock
is not ahead of them. -/
theorem Serves.shows_of_started (hc : Prepared done command)
    (he : Extends kept done command kept') {st : Store × Option Pending}
    (hst : Store.Started s command st) : Shows st.1 kept done ∨ Shows st.1 kept' done := by
  have hnext := h.apply hc he
  have hle : done <+: kept' := (prefix_append _ _).trans he.le
  have hdone := lastTs_le (he.admitted.initial he.le) (prefix_append done [command])
  have hkeeps : (st.1.engine = s.engine ∨ st.1.engine = (s.apply command).engine) ∧
      st.1.lastTs = s.lastTs ∨ st.1 = s.apply command := by
    rcases hst.cases with rfl | rfl | ⟨txnId, commitTs, writes, rfl, hget, rfl⟩
    · refine .inl ⟨engine_of_started hst, ?_⟩
      cases command <;> rfl
    · exact .inr rfl
    · exact .inl ⟨engine_of_started hst, rfl⟩
  rcases hkeeps with ⟨hengine | hengine, hts⟩ | heq
  · refine .inl ⟨h.le, h.admitted, ?_, ?_⟩
    · rw [hengine]
      exact h.engine
    · rw [hts]
      exact h.lastTs
  · refine .inr ⟨hle, he.admitted, ?_, ?_⟩
    · rw [hengine]
      exact hnext.engine
    · rw [hts]
      exact ⟨h.lastTs.1, h.lastTs.2.trans he.lastTs⟩
  · rw [heq]
    exact .inr ⟨hle, he.admitted, hnext.engine, hdone.trans hnext.lastTs.1, hnext.lastTs.2⟩

end

theorem Shows.exists_recover (h : Shows s kept done) (loads : Text → Option (Int × Writes)) :
    ∃ t, recover loads s.engine = some t ∧ Serves t kept [] := by
  obtain ⟨staged, hholds⟩ := h.engine
  have hsound := sound_ledger h.admitted
  have hnamed : ∀ key x, (key, x) ∈ s.engine.entries →
      Named ((ledger kept).versions.map Version.ts) (staged.entries.map Prod.fst) key x := by
    intro key x hmem
    rcases (hholds key x).mp hmem with ⟨v, hv, rfl, rfl⟩ | ⟨t, c, ws, ht, rfl, rfl⟩
    · obtain ⟨hplain, hrange⟩ := hsound.versions v hv.mem
      refine .inl ⟨v.key, v.ts, rfl, ?_, hrange.1, mem_map.mpr ⟨v, hv.mem, rfl⟩⟩
      rintro ⟨rest, hrest⟩
      exact intentKey_ne_versionKey (t := rest) hplain v.ts hrest
    · exact .inr ⟨t, c, ws, rfl, rfl, mem_map.mpr ⟨_, ht, rfl⟩⟩
  obtain ⟨intents, hintents, -⟩ := exists_recoverIntents loads hnamed
  obtain ⟨mx, hmx, hpos, hle⟩ := exists_recoverMaxTs hnamed
  refine ⟨⟨s.engine, intents, mx⟩, by rw [recover, hintents, hmx]; rfl, ⟨List.nil_prefix,
    h.admitted, ⟨staged, hholds⟩, hpos, ?_⟩, by simp⟩
  refine hle _ hsound.inRange_lastTs.1 fun ts hts => ?_
  obtain ⟨v, hv, rfl⟩ := mem_map.mp hts
  exact ts_le_lastTs hv

end Stores

section Reads

variable {s : Store} {kept done : List Command} {key : Text} {readTs : Int}

/-- A read at a snapshot finds the last version of its key in some initial part of the
log, which reaches as far as the versions up to the snapshot do. -/
theorem exists_lastVersion {log before : List Command} {command : Command}
    (hlog : Admitted Timely log) (hle : before ++ [command] <+: log) {r : Record}
    (hr : r ∈ commits before command) (hkey : r.Touches key) (hts : r.commitTs ≤ readTs) :
    ∃ part, before ++ [command] <+: part ∧ part <+: log ∧
      snapshot (ledger log).versions key readTs = lastVersion (ledger part).versions key := by
  induction hlog with
  | nil => simp at hle
  | @concat log last hlog hc ih =>
    by_cases hvisible : ∃ r' ∈ commits log last, r'.Touches key ∧ r'.commitTs ≤ readTs
    · obtain ⟨r', hr', hkey', hts'⟩ := hvisible
      have hone : commits log last = [r'] := by
        rcases commits_cases log last with hnone | ⟨x, hx⟩
        · simp [hnone] at hr'
        · rw [hx] at hr' ⊢
          rw [mem_singleton.mp hr']
      refine ⟨log ++ [last], hle, prefix_rfl, snapshot_eq_lastVersion
        ((pairwise_versions (.concat hlog hc)).imp fun hlt hsame => (hlt hsame).le) ?_⟩
      intro v hv hvkey
      rw [versions_concat, hone, flatMap_singleton] at hv
      refine le_trans ?_ hts'
      rcases mem_append.mp hv with hold | hnew
      · obtain ⟨x, hx, hv⟩ := mem_flatMap.mp hold
        obtain ⟨w, hw, rfl⟩ := mem_map.mp hv
        exact (hc.above r' hr' x hx key hkey' (hvkey ▸ mem_map.mpr ⟨w, hw, rfl⟩)).le
      · obtain ⟨w, -, rfl⟩ := mem_map.mp hnew
        exact le_rfl
    · have hne : before ++ [command] ≠ log ++ [last] := by
        intro heq
        obtain ⟨rfl, hlast⟩ := append_inj' heq rfl
        rw [singleton_inj.mp hlast] at hr
        exact hvisible ⟨r, hr, hkey, hts⟩
      obtain ⟨part, hpart, hle', hsnapshot⟩ :=
        ih ((prefix_concat_iff.mp hle).resolve_left hne)
      refine ⟨part, hpart, hle'.trans (prefix_append _ _), ?_⟩
      rw [versions_concat, snapshot_append_of_hidden, hsnapshot]
      intro v hv hvkey
      obtain ⟨r', hr', hv⟩ := mem_flatMap.mp hv
      obtain ⟨w, hw, rfl⟩ := mem_map.mp hv
      by_contra hle
      exact hvisible ⟨r', hr', hvkey ▸ mem_map.mpr ⟨w, hw, rfl⟩, not_lt.mp hle⟩

/-- What the read of a key returns when an entry that writes it is not ahead of the
snapshot. -/
theorem Shows.exists_read (h : Shows s kept done) {before : List Command} {ts : Int}
    {writes : Writes} (hle : before ++ [Command.write ts writes] <+: done)
    (hkey : key ∈ writes.map Prod.fst) (hts : ts ≤ readTs) (hrange : readTs ≤ maxTs) :
    ∃ part, before ++ [Command.write ts writes] <+: part ∧ part <+: kept ∧
      s.read key readTs = visible (lastVersion (ledger part).versions key) := by
  obtain ⟨staged, hholds⟩ := h.engine
  have hkept := hle.trans h.le
  have hstorable : Storable ts writes := (h.admitted.initial hkept).last.storable
  obtain ⟨w, hw, rfl⟩ := mem_map.mp hkey
  obtain ⟨part, hpart, hle', hsnapshot⟩ := exists_lastVersion (r := ⟨none, 0, ts, writes⟩)
    h.admitted hkept (mem_singleton_self _) hkey hts
  refine ⟨part, hpart, hle', ?_⟩
  rw [read_eq_snapshot hholds (sound_ledger h.admitted).versions (hstorable.1 w hw).1
    ⟨hstorable.2.1.trans hts, hrange⟩, hsnapshot]

end Reads

end LiteDB.ReplayedStores
