import LiteDB.ShardStore

/-!
A restarted replica opens its store on what the engine holds and applies its log again
from the first entry. What a command does to the store depends on the intent of its
transaction only, so the second run performs the same effects as the first one.
-/

namespace LiteDB.LogReplay

open Lexicographic List ShardStore SortedMaps VersionKeys SortedMap

/-- What a command does to the engine, to the intents and to the clock of a store. -/
structure Effect where
  edits : List (Text × Option Stored)
  staging : List (Text × Option (Int × Writes))
  stamps : List Int

def effect (intents : Dict Text (Int × Writes)) : Command → Effect
  | .control => ⟨[], [], []⟩
  | .write ts writes => ⟨versionEdits ts writes, [], [ts]⟩
  | .prepare txnId commitTs writes =>
      ⟨[(intentKey txnId, some (.intent commitTs writes))], [(txnId, some (commitTs, writes))], []⟩
  | .commit txnId =>
      match intents.get? txnId with
      | none => ⟨[(intentKey txnId, none)], [(txnId, none)], []⟩
      | some (commitTs, writes) =>
          ⟨versionEdits commitTs writes ++ [(intentKey txnId, none)], [(txnId, none)], [commitTs]⟩
  | .abort txnId => ⟨[(intentKey txnId, none)], [(txnId, none)], []⟩

def effects (s : Store) : List Command → List Effect
  | [] => []
  | command :: log => effect s.intents command :: effects (s.apply command) log

/-- The second store is the first one after the effects. -/
structure Performs (s : Store) (es : List Effect) (t : Store) : Prop where
  engine : t.engine = s.engine.edit (es.flatMap Effect.edits)
  intents : ∀ id, t.intents.get? id = edited (es.flatMap Effect.staging) (s.intents.get? id) id
  lastTs : ∀ b, t.lastTs ≤ b ↔ s.lastTs ≤ b ∧ ∀ ts ∈ es.flatMap Effect.stamps, ts ≤ b

theorem performs_apply (s : Store) (command : Command) :
    Performs s [effect s.intents command] (s.apply command) := by
  have hlater : ∀ ts b : Int, (if s.lastTs < ts then ts else s.lastTs) ≤ b ↔
      s.lastTs ≤ b ∧ ts ≤ b := by
    intro ts b
    split <;> omega
  cases command with
  | control => exact ⟨rfl, fun _ => rfl, by simp [effect, Store.apply_control]⟩
  | write ts writes =>
    refine ⟨?_, fun _ => rfl, ?_⟩
    · simp [effect, Store.apply_write, putVersions]
    · simp [effect, Store.apply_write, hlater]
  | prepare txnId commitTs writes =>
    refine ⟨rfl, fun id => ?_, by simp [effect, Store.apply_prepare]⟩
    simp [effect, Store.apply_prepare, edited_singleton, Dict.get?_set]
  | abort txnId =>
    refine ⟨rfl, fun id => ?_, by simp [effect, Store.apply_abort]⟩
    simp [effect, Store.apply_abort, edited_singleton, Dict.get?_erase]
  | commit txnId =>
    cases hget : s.intents.get? txnId with
    | none =>
      rw [Store.apply_commit_of_none s hget]
      refine ⟨by simp [effect, hget, SortedMap.edit], fun id => ?_, by simp [effect, hget]⟩
      simp [effect, hget, edited_singleton, Dict.get?_erase]
    | some staged =>
      rw [Store.apply_commit_of_some s hget]
      refine ⟨?_, fun id => ?_, by simp [effect, hget, hlater]⟩
      · simp [effect, hget, putVersions, SortedMap.edit]
      · simp [effect, hget, edited_singleton, Dict.get?_erase]

theorem Performs.append {s t u : Store} {es es' : List Effect} (h : Performs s es t)
    (h' : Performs t es' u) : Performs s (es ++ es') u := by
  refine ⟨?_, fun id => ?_, fun b => ?_⟩
  · rw [flatMap_append, edit_append, h'.engine, h.engine]
  · rw [flatMap_append, edited_append, h'.intents, h.intents]
  · simp only [h'.lastTs, h.lastTs, flatMap_append, mem_append, or_imp, forall_and, and_assoc]

theorem performs_log (s : Store) (log : List Command) :
    Performs s (effects s log) (log.foldl Store.apply s) := by
  induction log generalizing s with
  | nil => exact ⟨rfl, fun _ => rfl, by simp [effects]⟩
  | cons command log ih => exact (performs_apply s command).append (ih (s.apply command))

theorem effects_append (s : Store) (log log' : List Command) :
    effects s (log ++ log') = effects s log ++ effects (log.foldl Store.apply s) log' := by
  induction log generalizing s with
  | nil => rfl
  | cons command log ih =>
    rw [cons_append, effects, ih]
    rfl

section Replay

def mentions (id : Text) : Command → Bool
  | .prepare txnId _ _ | .commit txnId | .abort txnId => txnId = id
  | _ => false

theorem staging_effect (intents intents' : Dict Text (Int × Writes)) (command : Command) :
    (effect intents command).staging = (effect intents' command).staging := by
  cases command with
  | control | write | prepare | abort => rfl
  | commit txnId =>
    simp only [effect]
    split <;> split <;> rfl

variable {id : Text} {s t : Store}

theorem mem_staging {command : Command} (h : mentions id command = true)
    (intents : Dict Text (Int × Writes)) : id ∈ (effect intents command).staging.map Prod.fst := by
  rw [staging_effect intents Dict.empty]
  cases command with
  | control | write => simp [mentions] at h
  | prepare | commit | abort =>
    obtain rfl := of_decide_eq_true h
    exact mem_singleton_self _

theorem get?_apply_congr {command : Command}
    (h : mentions id command = true ∨ s.intents.get? id = t.intents.get? id) :
    (s.apply command).intents.get? id = (t.apply command).intents.get? id := by
  rw [(performs_apply s command).intents, (performs_apply t command).intents,
    flatMap_singleton, flatMap_singleton, staging_effect t.intents s.intents]
  rcases h with hmentions | heq
  · exact edited_of_mem (mem_staging hmentions s.intents)
  · rw [heq]

/-- Two stores perform the same effects when they agree on the intents of the
transactions whose commits come before any other mention. -/
theorem effects_congr {log : List Command} (seen : Text → Prop)
    (hseen : ∀ id, seen id → s.intents.get? id = t.intents.get? id)
    (hfirst : ∀ id, ¬seen id → log.find? (mentions id) ≠ some (.commit id)) :
    effects s log = effects t log := by
  induction log generalizing s t seen with
  | nil => rfl
  | cons command log ih =>
    have heffect : effect s.intents command = effect t.intents command := by
      cases command with
      | control | write | prepare | abort => rfl
      | commit txnId =>
        have htxn : seen txnId := by
          by_contra hnot
          exact hfirst txnId hnot (by simp [mentions])
        simp only [effect, hseen txnId htxn]
    rw [effects, effects, heffect]
    congr 1
    refine ih (fun id => mentions id command = true ∨ seen id) ?_ ?_
    · exact fun id hid => get?_apply_congr (hid.imp_right (hseen id))
    · intro id hid
      rw [not_or] at hid
      have hrest := hfirst id hid.2
      rwa [find?_cons_of_neg hid.1] at hrest

end Replay

section Sound

/-- The versions of the writes are not taken for intents. -/
def Unreserved (ts : Int) (writes : Writes) : Prop :=
  0 ≤ ts ∧ ∀ w ∈ writes, ¬intentPrefix <+: versionKey w.1 ts

instance (ts : Int) (writes : Writes) : Decidable (Unreserved ts writes) :=
  inferInstanceAs (Decidable (_ ∧ _))

def UnreservedCommand : Command → Prop
  | .write ts writes | .prepare _ ts writes => Unreserved ts writes
  | _ => True

instance (command : Command) : Decidable (UnreservedCommand command) := by
  unfold UnreservedCommand
  split <;> infer_instance

/-- A key that is stored belongs to a version with one of the timestamps, or to an
intent of one of the transactions. -/
def Named (stamps : List Int) (txns : List Text) (key : Text) (x : Stored) : Prop :=
  (∃ userKey ts, key = versionKey userKey ts ∧ ¬intentPrefix <+: key ∧ 0 ≤ ts ∧ ts ∈ stamps) ∨
    ∃ id commitTs writes, key = intentKey id ∧ x = .intent commitTs writes ∧ id ∈ txns

variable {txns : List Text} {x : Stored} {s : Store}

theorem Named.mono {stamps stamps' : List Int} {txns' : List Text} {key : Text}
    (h : Named stamps txns key x) (hstamps : stamps ⊆ stamps') (htxns : txns ⊆ txns') :
    Named stamps' txns' key x := by
  rcases h with ⟨userKey, ts, hkey, hplain, hts, hmem⟩ | ⟨id, commitTs, writes, hkey, hx, hmem⟩
  · exact .inl ⟨userKey, ts, hkey, hplain, hts, hstamps hmem⟩
  · exact .inr ⟨id, commitTs, writes, hkey, hx, htxns hmem⟩

theorem named_of_mem_versions {ts : Int} {writes : Writes} {key : Text} (h : Unreserved ts writes)
    (hmem : (key, some x) ∈ versionEdits ts writes) : Named [ts] txns key x := by
  obtain ⟨w, hw, heq⟩ := mem_map.mp hmem
  obtain ⟨rfl, -⟩ := Prod.mk.inj heq
  exact .inl ⟨w.1, ts, rfl, h.2 w hw, h.1, by simp⟩

theorem named_effect {intents : Dict Text (Int × Writes)} {command : Command} {key : Text}
    (hintents : ∀ e ∈ intents.entries, Unreserved e.2.1 e.2.2)
    (hcommand : UnreservedCommand command) (hmem : (key, some x) ∈ (effect intents command).edits) :
    Named (effect intents command).stamps ((effect intents command).staging.map Prod.fst)
      key x := by
  cases command with
  | control => simp [effect] at hmem
  | write ts writes => exact named_of_mem_versions hcommand hmem
  | prepare txnId commitTs writes =>
    obtain ⟨rfl, rfl⟩ : key = intentKey txnId ∧ x = .intent commitTs writes := by
      simpa [effect] using hmem
    exact .inr ⟨txnId, commitTs, writes, rfl, rfl, by simp [effect]⟩
  | abort txnId => simp [effect] at hmem
  | commit txnId =>
    cases hget : intents.get? txnId with
    | none => simp [effect, hget] at hmem
    | some staged =>
      simp only [effect, hget] at hmem ⊢
      have hversions : (key, some x) ∈ versionEdits staged.1 staged.2 := by simpa using hmem
      exact named_of_mem_versions (hintents _ (Dict.get?_eq_some_iff.mp hget)) hversions

theorem unreserved_apply {command : Command}
    (hintents : ∀ e ∈ s.intents.entries, Unreserved e.2.1 e.2.2)
    (hcommand : UnreservedCommand command) :
    ∀ e ∈ (s.apply command).intents.entries, Unreserved e.2.1 e.2.2 := by
  rintro ⟨id, staged⟩ hmem
  rcases Store.mem_intents_apply hmem with hold | rfl
  · exact hintents _ hold
  · exact hcommand

theorem named_effects {log : List Command} {key : Text}
    (hintents : ∀ e ∈ s.intents.entries, Unreserved e.2.1 e.2.2)
    (hlog : ∀ command ∈ log, UnreservedCommand command)
    (hmem : (key, some x) ∈ (effects s log).flatMap Effect.edits) :
    Named ((effects s log).flatMap Effect.stamps)
      (((effects s log).flatMap Effect.staging).map Prod.fst) key x := by
  induction log generalizing s with
  | nil => simp [effects] at hmem
  | cons command log ih =>
    have hcommand := hlog command (by simp)
    simp only [effects, flatMap_cons, mem_append, map_append] at hmem ⊢
    rcases hmem with hhead | htail
    · exact (named_effect hintents hcommand hhead).mono (by simp) (by simp)
    · have hrest := ih (unreserved_apply hintents hcommand)
        (fun c hc => hlog c (mem_cons_of_mem _ hc)) htail
      exact hrest.mono (by simp) (by simp)

end Sound

section Recover

theorem exists_foldlM {A B : Type} {f : B → A → Option B} {P : B → Prop} {l : List A}
    (hstep : ∀ b, P b → ∀ a ∈ l, ∃ b', f b a = some b' ∧ P b') {b : B} (hb : P b) :
    ∃ b', l.foldlM f b = some b' ∧ P b' := by
  induction l generalizing b with
  | nil => exact ⟨b, rfl, hb⟩
  | cons a l ih =>
    obtain ⟨b', hb', hP⟩ := hstep b hb a (by simp)
    obtain ⟨c, hc, hPc⟩ := ih (fun b hb a ha => hstep b hb a (by simp [ha])) hP
    refine ⟨c, ?_, hPc⟩
    rw [foldlM_cons, hb']
    exact hc

variable {engine : SortedMap Text Stored} {stamps : List Int} {txns : List Text}

theorem exists_recoverIntents (loads : Text → Option (Int × Writes))
    (h : ∀ key x, (key, x) ∈ engine.entries → Named stamps txns key x) :
    ∃ intents, recoverIntents loads engine = some intents ∧
      ∀ id, intents.get? id ≠ none → id ∈ txns := by
  refine exists_foldlM ?_ (fun id hid => absurd rfl hid)
  rintro intents hold ⟨key, x⟩ hmem
  obtain ⟨hentry, hlo, hhi⟩ := mem_scan.mp hmem
  rw [← append_nil intentPrefix] at hlo
  have hstart : intentPrefix <+: key := prefix_of_between hlo hhi
  rcases h key x hentry with ⟨_, _, -, hplain, -⟩ | ⟨id, commitTs, writes, rfl, rfl, htxn⟩
  · exact absurd hstart hplain
  · have hid : (intentKey id).drop intentPrefix.length = id := drop_left
    refine ⟨intents.set id (commitTs, writes), by simp [loadRecord, hid], fun j hj => ?_⟩
    rw [Dict.get?_set] at hj
    split at hj
    · rename_i heq
      exact heq ▸ htxn
    · exact hold j hj

theorem exists_recoverMaxTs (h : ∀ key x, (key, x) ∈ engine.entries → Named stamps txns key x) :
    ∃ mx, recoverMaxTs engine = some mx ∧
      0 ≤ mx ∧ ∀ b, 0 ≤ b → (∀ ts ∈ stamps, ts ≤ b) → mx ≤ b := by
  refine exists_foldlM ?_ ⟨le_rfl, fun _ hb _ => hb⟩
  rintro mx ⟨hpos, hle⟩ ⟨key, x⟩ hmem
  rcases h key x (mem_scan.mp hmem).1 with
    ⟨userKey, ts, rfl, hplain, hts, hstamp⟩ | ⟨id, _, _, rfl, -⟩
  · obtain ⟨ts', hread, hts'⟩ := tsFromVersionKey_le userKey hts
    refine ⟨if mx < ts' then ts' else mx, by simp [hplain, hread], ?_, fun b hb hstamps => ?_⟩
    · split <;> omega
    · have hbound := hle b hb hstamps
      have hbound' := hstamps ts hstamp
      split <;> omega
  · exact ⟨mx, by simp [intentKey], hpos, hle⟩

end Recover

theorem engine_of_started {s : Store} {command : Command} {st : Store × Option Pending}
    (h : Store.Started s command st) :
    st.1.engine = s.engine ∨ st.1.engine = (s.apply command).engine := by
  rcases h.cases with rfl | rfl | ⟨txnId, commitTs, writes, rfl, hget, rfl⟩
  · cases command with
    | control | commit | abort => exact .inl rfl
    | write | prepare => exact .inr rfl
  · exact .inr rfl
  · rw [Store.apply_commit_of_some s hget]
    exact .inr rfl

/-- A store that has applied the first entries and is opened again ends as one that
applies the log once. -/
theorem exists_recover {log done : List Command} (loads : Text → Option (Int × Writes))
    (hdone : done <+: log) (hfirst : ∀ id, log.find? (mentions id) ≠ some (.commit id))
    (hlog : ∀ command ∈ log, UnreservedCommand command) :
    ∃ s, recover loads (done.foldl Store.apply create).engine = some s ∧
      (log.foldl Store.apply s).engine = (log.foldl Store.apply create).engine ∧
      (∀ id, (log.foldl Store.apply s).intents.get? id =
        (log.foldl Store.apply create).intents.get? id) ∧
      (log.foldl Store.apply s).snapshotTs = (log.foldl Store.apply create).snapshotTs := by
  obtain ⟨rest, rfl⟩ := hdone
  have honce := performs_log create (done ++ rest)
  -- Everything that the engine holds is named by an effect of the log.
  have hget : ∀ key, (done.foldl Store.apply create).engine.get? key =
      edited ((effects create done).flatMap Effect.edits) none key := by
    intro key
    rw [(performs_log create done).engine, get?_edit]
    rfl
  have hnamed : ∀ key x, (key, x) ∈ (done.foldl Store.apply create).engine.entries →
      Named ((effects create (done ++ rest)).flatMap Effect.stamps)
        (((effects create (done ++ rest)).flatMap Effect.staging).map Prod.fst) key x := by
    intro key x hmem
    have hedit := mem_of_edited ((hget key).symm.trans (get?_eq_some_iff.mpr hmem))
    refine named_effects (by simp [create, Dict.empty]) hlog ?_
    rw [effects_append, flatMap_append]
    exact mem_append_left _ hedit
  obtain ⟨intents, hintents, htxns⟩ := exists_recoverIntents loads hnamed
  obtain ⟨mx, hmx, hpos, hle⟩ := exists_recoverMaxTs hnamed
  refine ⟨⟨_, intents, mx⟩, by rw [recover, hintents, hmx]; rfl, ?_⟩
  -- The second run performs the same effects, on top of what the first one has left.
  have hreplay := performs_log ⟨(done.foldl Store.apply create).engine, intents, mx⟩ (done ++ rest)
  rw [effects_congr (t := create) (fun _ => False) (by simp) fun id _ => hfirst id] at hreplay
  refine ⟨ext_get? fun key => ?_, fun id => ?_, eq_of_forall_ge_iff fun b => ?_⟩
  · rw [hreplay.engine, honce.engine, get?_edit, get?_edit, hget]
    by_cases hkey : key ∈ ((effects create done).flatMap Effect.edits).map Prod.fst
    · refine edited_of_mem ?_
      rw [effects_append, flatMap_append, map_append]
      exact mem_append_left _ hkey
    · rw [edited_of_not_mem hkey]
      rfl
  · rw [hreplay.intents, honce.intents]
    by_cases hid : id ∈ ((effects create (done ++ rest)).flatMap Effect.staging).map Prod.fst
    · exact edited_of_mem hid
    · rw [not_imp_comm.mp (htxns id) hid]
      rfl
  · rw [Store.snapshotTs, Store.snapshotTs, hreplay.lastTs, honce.lastTs]
    exact ⟨fun h => ⟨hpos.trans h.1, h.2⟩, fun h => ⟨hle b h.1 h.2, h.2⟩⟩

/-- Applying the log again after a restart is harmless, also when the crash has come
between two sections of an entry. -/
theorem replay_of_crash {log before : List Command} {command : Command}
    {st : Store × Option Pending} (loads : Text → Option (Int × Writes))
    (hbefore : before ++ [command] <+: log)
    (hst : Store.Started (before.foldl Store.apply create) command st)
    (hfirst : ∀ id, log.find? (mentions id) ≠ some (.commit id))
    (hlog : ∀ command ∈ log, UnreservedCommand command) :
    ∃ s, recover loads st.1.engine = some s ∧
      (log.foldl Store.apply s).engine = (log.foldl Store.apply create).engine ∧
      (∀ id, (log.foldl Store.apply s).intents.get? id =
        (log.foldl Store.apply create).intents.get? id) ∧
      (log.foldl Store.apply s).snapshotTs = (log.foldl Store.apply create).snapshotTs := by
  rcases engine_of_started hst with hengine | hengine
  · rw [hengine]
    exact exists_recover loads ((prefix_append _ _).trans hbefore) hfirst hlog
  · have hconcat : ((before.foldl Store.apply create).apply command).engine =
        ((before ++ [command]).foldl Store.apply create).engine := by
      rw [foldl_append]
      rfl
    rw [hengine, hconcat]
    exact exists_recover loads hbefore hfirst hlog

def sampleTxn : Text := "t".toList

def samplePrepare : Command := .prepare sampleTxn 5 [("a".toList, some "1".toList)]

def sampleLog : List Command :=
  [samplePrepare, .commit sampleTxn, .write 7 [("a".toList, none)]]

def duringCommit : Store × Option Pending :=
  ((create.apply samplePrepare).begin (.commit sampleTxn)).1.resume
    (.resolve sampleTxn ((create.apply samplePrepare).intents.get? sampleTxn))

theorem replay_of_crash_of_duringCommit :
    duringCommit.2 = some (.advance 5) ∧
      ∃ s, recover (fun _ => none) duringCommit.1.engine = some s ∧
        (sampleLog.foldl Store.apply s).engine = (sampleLog.foldl Store.apply create).engine := by
  have hst : Store.Started ([samplePrepare].foldl Store.apply create) (.commit sampleTxn)
      duringCommit := Store.Started.resume Store.Started.begin
  have hfirst : ∀ id, sampleLog.find? (mentions id) ≠ some (.commit id) := by
    intro id
    by_cases hid : sampleTxn = id <;> simp [sampleLog, samplePrepare, mentions, hid]
  have hprefix : [samplePrepare] ++ [Command.commit sampleTxn] <+: sampleLog := by
    decide
  obtain ⟨s, hs, hengine, -⟩ := replay_of_crash (fun _ => none) hprefix hst hfirst
    (by decide +kernel)
  exact ⟨rfl, s, hs, hengine⟩

def reservedKey : Text := sep :: "__intent__".toList

/-- The store cannot be opened, for the value is not the record of a transaction. -/
theorem not_replay_of_crash_of_reservedKey :
    ¬∀ (log before : List Command) (command : Command) (st : Store × Option Pending)
      (loads : Text → Option (Int × Writes)), before ++ [command] <+: log →
      Store.Started (before.foldl Store.apply create) command st →
      (∀ id, log.find? (mentions id) ≠ some (.commit id)) →
      ∃ s, recover loads st.1.engine = some s ∧
        (log.foldl Store.apply s).engine = (log.foldl Store.apply create).engine ∧
        (∀ id, (log.foldl Store.apply s).intents.get? id =
          (log.foldl Store.apply create).intents.get? id) ∧
        (log.foldl Store.apply s).snapshotTs = (log.foldl Store.apply create).snapshotTs := by
  intro hall
  have hnone : (recover (fun _ => none) (create.begin
      (.write 5 [(reservedKey, some "x".toList)])).1.engine).isNone := by
    decide +kernel
  obtain ⟨s, hs, -⟩ := hall [.write 5 [(reservedKey, some "x".toList)]] [] _ _ (fun _ => none)
    prefix_rfl Store.Started.begin (by simp [mentions])
  exact absurd (hs.symm.trans (Option.isNone_iff_eq_none.mp hnone)) (by simp)

end LiteDB.LogReplay
