import LiteDB.LsmEngine

/-!
The state machine of one shard (`shard_store.py`). The engine is taken as a
sorted map. `apply` takes the store's lock and the engine's lock in turn, so it is
cut into the sections between which another thread can look at the store.
-/

namespace LiteDB.ShardStore

open SortedMaps VersionKeys

abbrev Writes := List (Text × Option Text)

/-- What the engine holds under a key: a text, or the record of a prepared
transaction (its JSON text). -/
inductive Stored where
  | text (value : Text)
  | intent (commitTs : Int) (writes : Writes)
deriving DecidableEq

/-- The commands of a log. -/
inductive Command where
  | control
  | write (ts : Int) (writes : Writes)
  | prepare (txnId : Text) (commitTs : Int) (writes : Writes)
  | commit (txnId : Text)
  | abort (txnId : Text)
deriving DecidableEq

def intentPrefix : Text := sep :: "__intent__".toList ++ [sep]

def intentKey (txnId : Text) : Text := intentPrefix ++ txnId

structure Store where
  engine : SortedMap Text Stored
  intents : Dict Text (Int × Writes)
  lastTs : Int

def create : Store := ⟨SortedMap.empty, Dict.empty, 0⟩

section Recover

variable (loads : Text → Option (Int × Writes))

/-- `json.loads`, where `loads` says what it makes of a text that was not written as the
record of a prepared transaction. -/
def loadRecord : Stored → Option (Int × Writes)
  | .intent commitTs writes => some (commitTs, writes)
  | .text value => loads value

def recoverIntents (engine : SortedMap Text Stored) : Option (Dict Text (Int × Writes)) :=
  (engine.scan intentPrefix (intentPrefix ++ [hiChar])).foldlM
    (fun intents e => (loadRecord loads e.2).map fun staged =>
      intents.set (e.1.drop intentPrefix.length) staged) Dict.empty

def recoverMaxTs (engine : SortedMap Text Stored) : Option Int :=
  (engine.scan [] [hiChar]).foldlM
    (fun mx e =>
      if intentPrefix <+: e.1 then some mx
      else (tsFromVersionKey e.1).map fun ts => if mx < ts then ts else mx) 0

/-- A store that is opened on the contents of an engine; `none` stands for an exception. -/
def recover (engine : SortedMap Text Stored) : Option Store := do
  let intents ← recoverIntents loads engine
  let lastTs ← recoverMaxTs engine
  return ⟨engine, intents, lastTs⟩

example : recover loads SortedMap.empty = some create := rfl

end Recover

def versionValue (value : Option Text) : Stored := .text (value.getD tombstone)

/-- What the engine shows of a value: it takes a marker of its own for a deletion. -/
def shown (value : Stored) : Option Stored :=
  if value = .text LsmEngine.tombstone then none else some value

theorem shown_versionValue {value : Option Text} (h : value ≠ some LsmEngine.tombstone) :
    shown (versionValue value) = some (versionValue value) := by
  refine if_neg ?_
  cases value with
  | none => decide
  | some value => simpa [versionValue] using h

def versionEdits (ts : Int) (writes : Writes) : List (Text × Option Stored) :=
  writes.map fun w => (versionKey w.1 ts, shown (versionValue w.2))

def putVersions (engine : SortedMap Text Stored) (ts : Int) (writes : Writes) :
    SortedMap Text Stored :=
  engine.edit (versionEdits ts writes)

/-- What is left to do of a command that `apply` is in the middle of. -/
inductive Pending where
  | stage (txnId : Text) (commitTs : Int) (writes : Writes)
  | resolve (txnId : Text) (staged : Option (Int × Writes))
  | drop (txnId : Text)
  | advance (ts : Int)
deriving DecidableEq

namespace Store

/-- The first section of `apply`. -/
def begin (s : Store) : Command → Store × Option Pending
  | .control => (s, none)
  | .write ts writes => ({ s with engine := putVersions s.engine ts writes }, some (.advance ts))
  | .prepare txnId commitTs writes =>
      ({ s with engine := s.engine.insert (intentKey txnId) (.intent commitTs writes) },
        some (.stage txnId commitTs writes))
  | .commit txnId =>
      ({ s with intents := s.intents.erase txnId }, some (.resolve txnId (s.intents.get? txnId)))
  | .abort txnId => ({ s with intents := s.intents.erase txnId }, some (.drop txnId))

/-- The next section of a command that has begun. -/
def resume (s : Store) : Pending → Store × Option Pending
  | .stage txnId commitTs writes =>
      ({ s with intents := s.intents.set txnId (commitTs, writes) }, none)
  | .resolve txnId none => ({ s with engine := s.engine.erase (intentKey txnId) }, none)
  | .resolve txnId (some (commitTs, writes)) =>
      ({ s with
          engine := (putVersions s.engine commitTs writes).erase (intentKey txnId) },
        some (.advance commitTs))
  | .drop txnId => ({ s with engine := s.engine.erase (intentKey txnId) }, none)
  | .advance ts => ({ s with lastTs := if s.lastTs < ts then ts else s.lastTs }, none)

/-- The rest of a command without an interruption; it has at most two sections. -/
def finish (s : Store) (p : Pending) : Store :=
  match s.resume p with
  | (s, none) => s
  | (s, some p) => (s.resume p).1

def apply (s : Store) (command : Command) : Store :=
  match s.begin command with
  | (s, none) => s
  | (s, some p) => s.finish p

def snapshotTs (s : Store) : Int := s.lastTs

/-- The first other transaction that holds `key`. -/
def intentLocking (s : Store) (key exclude : Text) : Option Text :=
  (s.intents.entries.find? fun e => e.1 ≠ exclude ∧ ∃ w ∈ e.2.2, w.1 = key).map Prod.fst

def read (s : Store) (key : Text) (readTs : Int) : Option Stored :=
  match (s.engine.scan (versionKey key readTs) (key ++ sep :: hi16)).head? with
  | none => none
  | some (_, value) => if value = .text tombstone then none else some value

/-- `none` stands for `ValueError`, when the scan meets a key without a timestamp. -/
def newestCommittedTs (s : Store) (key : Text) : Option Int :=
  match (s.engine.scan (key ++ [sep]) (key ++ sep :: hi16)).head? with
  | none => some 0
  | some (vkey, _) => tsFromVersionKey vkey

section Apply

variable (s : Store)

theorem apply_control : s.apply .control = s := rfl

theorem apply_write (ts : Int) (writes : Writes) : s.apply (.write ts writes) =
    { s with
      engine := putVersions s.engine ts writes
      lastTs := if s.lastTs < ts then ts else s.lastTs } := rfl

theorem apply_prepare (txnId : Text) (commitTs : Int) (writes : Writes) :
    s.apply (.prepare txnId commitTs writes) =
      { s with
        engine := s.engine.insert (intentKey txnId) (.intent commitTs writes)
        intents := s.intents.set txnId (commitTs, writes) } := rfl

theorem apply_commit_of_none {txnId : Text} (h : s.intents.get? txnId = none) :
    s.apply (.commit txnId) =
      { s with
        engine := s.engine.erase (intentKey txnId)
        intents := s.intents.erase txnId } := by
  simp [apply, begin, finish, resume, h]

theorem apply_commit_of_some {txnId : Text} {commitTs : Int} {writes : Writes}
    (h : s.intents.get? txnId = some (commitTs, writes)) :
    s.apply (.commit txnId) =
      { engine := (putVersions s.engine commitTs writes).erase (intentKey txnId)
        intents := s.intents.erase txnId
        lastTs := if s.lastTs < commitTs then commitTs else s.lastTs } := by
  simp [apply, begin, finish, resume, h]

theorem apply_abort (txnId : Text) : s.apply (.abort txnId) =
    { s with
      engine := s.engine.erase (intentKey txnId)
      intents := s.intents.erase txnId } := rfl

theorem intents_apply_commit (txnId : Text) :
    (s.apply (.commit txnId)).intents = s.intents.erase txnId := by
  cases h : s.intents.get? txnId with
  | none => rw [apply_commit_of_none s h]
  | some staged => rw [apply_commit_of_some s h]

variable {s}

theorem mem_intents_apply {command : Command} {t : Text} {staged : Int × Writes}
    (h : (t, staged) ∈ (s.apply command).intents.entries) :
    (t, staged) ∈ s.intents.entries ∨ command = .prepare t staged.1 staged.2 := by
  cases command with
  | control => exact .inl h
  | write => exact .inl h
  | prepare txnId commitTs writes =>
    rw [apply_prepare] at h
    have hset := Dict.mem_set.mp h
    split at hset
    · rename_i ht
      subst ht hset
      exact .inr rfl
    · exact .inl hset
  | commit txnId =>
    rw [intents_apply_commit] at h
    exact .inl (Dict.mem_erase.mp h).1
  | abort txnId =>
    rw [apply_abort] at h
    exact .inl (Dict.mem_erase.mp h).1

theorem get?_ne_none_of_intentLocking {key exclude t : Text}
    (h : s.intentLocking key exclude = some t) : s.intents.get? t ≠ none := by
  obtain ⟨⟨id, staged⟩, hfind, rfl⟩ := Option.map_eq_some_iff.mp h
  have hget := Dict.get?_eq_some_iff.mpr (List.mem_of_find?_eq_some hfind)
  simp [hget]

end Apply

/-- The store and the rest of the command after some sections of `apply`. -/
inductive Started (s : Store) (command : Command) : Store × Option Pending → Prop
  | begin : Started s command (s.begin command)
  | resume {t : Store} {p : Pending} :
      Started s command (t, some p) → Started s command (t.resume p)

/-- Between two sections `apply` has run the first one, or it has stored the versions
of a transaction and its timestamp is left. -/
theorem Started.cases {s : Store} {command : Command} {st : Store × Option Pending}
    (h : Started s command st) :
    st = s.begin command ∨ st = (s.apply command, none) ∨
      ∃ txnId commitTs writes, command = .commit txnId ∧
        s.intents.get? txnId = some (commitTs, writes) ∧
        st = ({ s with
                engine := (putVersions s.engine commitTs writes).erase (intentKey txnId)
                intents := s.intents.erase txnId }, some (.advance commitTs)) := by
  induction h with
  | begin => exact .inl rfl
  | @resume t p _ ih =>
    rcases ih with hbegin | hdone | ⟨txnId, commitTs, writes, rfl, hget, hst⟩
    · cases command with
      | control => simp [Store.begin] at hbegin
      | commit txnId =>
        obtain ⟨rfl, ⟨⟩⟩ := Prod.mk.inj hbegin
        cases hget : s.intents.get? txnId with
        | none =>
          refine .inr (.inl ?_)
          rw [apply_commit_of_none s hget]
          rfl
        | some staged => exact .inr (.inr ⟨txnId, staged.1, staged.2, rfl, hget, rfl⟩)
      | write | prepare | abort =>
        obtain ⟨rfl, ⟨⟩⟩ := Prod.mk.inj hbegin
        exact .inr (.inl rfl)
    · simp at hdone
    · obtain ⟨rfl, ⟨⟩⟩ := Prod.mk.inj hst
      refine .inr (.inl ?_)
      rw [apply_commit_of_some s hget]
      rfl

theorem Started.done {s t : Store} {command : Command} (h : Started s command (t, none)) :
    t = s.apply command := by
  rcases h.cases with hbegin | hdone | ⟨_, _, _, _, _, hst⟩
  · cases command with
    | control => exact (Prod.mk.inj hbegin).1
    | write | prepare | commit | abort => simp [Store.begin] at hbegin
  · exact (Prod.mk.inj hdone).1
  · simp at hst

end Store

end LiteDB.ShardStore
