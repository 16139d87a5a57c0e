import LiteDB.Runs
import LiteDB.TransactionStore

namespace LiteDB.TransactionVacuum

open List NewestItems Runs SortedMaps TransactionStore
open VersionKeys (Text)

def sweep (minActive : Nat) (versions : List Version) : List Version :=
  let committedVersions := versions.filter Version.committed
  if committedVersions.length ≤ 1 then versions
  else
    let newestCommittedTxid := (committedVersions.map Version.txid).max?.getD 0
    versions.filter fun v =>
      !(v.committed && v.txid < newestCommittedTxid && v.txid < minActive)

/-- One turn of the loop over the keys, with the number of deleted versions. -/
def sweepKey (minActive : Nat) (st : Dict Text (List Version) × Nat) (key : Text) :
    Dict Text (List Version) × Nat :=
  let versions := (st.1.get? key).getD []
  if (versions.filter Version.committed).length ≤ 1 then st
  else
    (MVCCStore.revise (sweep minActive) st.1 key,
      st.2 + (versions.length - (sweep minActive versions).length))

def minActive (m : MVCCStore) (activeTxids : List Nat) : Nat :=
  activeTxids.min?.getD (m.committedTxids.foldl max 0 + 1)

def vacuum (m : MVCCStore) (activeTxids : List Nat) : MVCCStore × Nat :=
  let (versions, deleted) := (m.versions.entries.map Prod.fst).foldl
    (sweepKey (minActive m activeTxids)) (m.versions, 0)
  ({ m with versions := versions }, deleted)

def activeTxids (s : State) : List Nat :=
  (s.txns.filter fun x => x.status = .active).map Transaction.txid

inductive Event where
  | call (a : TransactionStore.Event)
  | vacuum

def step (s : State) : Event → Option State
  | .call a => TransactionStore.step s a
  | .vacuum => some { s with store := (vacuum s.store (activeTxids s)).1 }

section Sweep

variable {m : MVCCStore} {key k : Text} {n : Nat} {vs : List Version} {v : Version}

@[simp] theorem sweep_nil : sweep n [] = [] := rfl

theorem sweep_of_length_le (h : (vs.filter Version.committed).length ≤ 1) : sweep n vs = vs := by
  rw [sweep, if_pos h]

theorem getD_sweepKey (st : Dict Text (List Version) × Nat) :
    ((sweepKey n st key).1.get? k).getD [] =
      if k = key then sweep n ((st.1.get? key).getD []) else (st.1.get? k).getD [] := by
  unfold sweepKey
  by_cases hfew : (((st.1.get? key).getD []).filter Version.committed).length ≤ 1
  · simp only [hfew, if_true, sweep_of_length_le hfew]
    split
    · rename_i heq
      rw [heq]
    · rfl
  · simp only [hfew, if_false]
    exact getD_revise rfl st.1 key k

theorem getD_foldl_sweepKey {keys : List Text} (hnodup : keys.Nodup)
    (st : Dict Text (List Version) × Nat) :
    ((keys.foldl (sweepKey n) st).1.get? k).getD [] =
      if k ∈ keys then sweep n ((st.1.get? k).getD []) else (st.1.get? k).getD [] := by
  induction keys generalizing st with
  | nil => simp
  | cons key keys ih =>
    rw [nodup_cons] at hnodup
    rw [foldl_cons, ih hnodup.2, getD_sweepKey]
    by_cases hk : k = key
    · subst hk
      simp [hnodup.1]
    · simp [hk]

theorem versionsAt_vacuum (active : List Nat) :
    (vacuum m active).1.versionsAt key = sweep (minActive m active) (m.versionsAt key) := by
  have hfold := getD_foldl_sweepKey (n := minActive m active) (k := key) m.versions.nodup
    (m.versions, 0)
  refine Eq.trans hfold ?_
  split
  · rfl
  · rename_i habsent
    have hnone : m.versions.get? key = none := by
      rw [Option.eq_none_iff_forall_ne_some]
      exact fun vs hget =>
        habsent (mem_map_of_mem (f := Prod.fst) (Dict.get?_eq_some_iff.mp hget))
    simp [MVCCStore.versionsAt, hnone]

theorem sweep_eq_filter (n : Nat) (vs : List Version) : ∃ keep : Version → Bool,
    sweep n vs = vs.filter keep ∧ ∀ v ∈ vs, keep v = false → v.committed = true ∧ v.txid < n ∧
      ∃ w ∈ vs, w.committed = true ∧ v.txid < w.txid := by
  simp only [sweep]
  split
  · exact ⟨fun _ => true, by simp, by simp⟩
  · refine ⟨_, rfl, fun v hv hgone => ?_⟩
    simp only [Bool.not_eq_false', Bool.and_eq_true, decide_eq_true_eq] at hgone
    obtain ⟨⟨hcommitted, hlt⟩, hmin⟩ := hgone
    refine ⟨hcommitted, hmin, ?_⟩
    cases hmax : ((vs.filter Version.committed).map Version.txid).max? with
    | none => simp [hmax] at hlt
    | some newest =>
      rw [hmax, Option.getD_some] at hlt
      obtain ⟨w, hw, rfl⟩ := mem_map.mp (max?_eq_some_iff.mp hmax).1
      rw [mem_filter] at hw
      exact ⟨w, hw.1, hw.2, hlt⟩

theorem mem_of_mem_sweep (h : v ∈ sweep n vs) : v ∈ vs := by
  obtain ⟨keep, hsweep, -⟩ := sweep_eq_filter n vs
  rw [hsweep] at h
  exact (mem_filter.mp h).1

end Sweep

/-- Of the committed versions of a key, the transaction sees all or none. -/
def Unsplit (m : MVCCStore) (x : Transaction) : Prop :=
  ∀ e ∈ m.versions.entries, ∀ v ∈ e.2, ∀ w ∈ e.2, v.committed = true → w.committed = true →
    v.txid ≤ x.snapshotTxid → w.txid ≤ x.snapshotTxid

instance (m : MVCCStore) (x : Transaction) : Decidable (Unsplit m x) :=
  inferInstanceAs (Decidable (∀ e ∈ _, _))

variable {m : MVCCStore} {x : Transaction} {s : State}

theorem Unsplit.le (h : Unsplit m x) {key : Text} {v w : Version} (hv : v ∈ m.versionsAt key)
    (hw : w ∈ m.versionsAt key) (hvc : v.committed = true) (hwc : w.committed = true)
    (hle : v.txid ≤ x.snapshotTxid) : w.txid ≤ x.snapshotTxid := by
  rw [MVCCStore.versionsAt] at hv hw
  cases hget : m.versions.get? key with
  | none => simp [hget] at hv
  | some vs =>
    rw [hget] at hv hw
    exact h (key, vs) (Dict.get?_eq_some_iff.mp hget) v hv w hw hvc hwc hle

theorem minActive_le (hx : x ∈ s.txns) (hactive : x.status = .active) :
    minActive s.store (activeTxids s) ≤ x.txid := by
  have hmem : x.txid ∈ activeTxids s :=
    mem_map_of_mem (mem_filter.mpr ⟨hx, decide_eq_true hactive⟩)
  rw [minActive]
  cases hmin : (activeTxids s).min? with
  | none => rw [min?_eq_none_iff.mp hmin] at hmem; simp at hmem
  | some n => exact (min?_eq_some_iff.mp hmin).2 x.txid hmem

theorem get_vacuum (hx : x ∈ s.txns) (hactive : x.status = .active) (hsplit : Unsplit s.store x)
    (key : Text) : x.get (vacuum s.store (activeTxids s)).1 key = x.get s.store key := by
  obtain ⟨keep, hsweep, hgone⟩ := sweep_eq_filter (minActive s.store (activeTxids s))
    (s.store.versionsAt key)
  rw [Transaction.get, Transaction.get, MVCCStore.read, MVCCStore.read, versionsAt_vacuum, hsweep,
    ← foldl_filter, ← foldl_filter, filter_comm, foldl_adopt_filter]
  intro v hv hdropped
  rw [mem_filter] at hv
  obtain ⟨hcommitted, hmin, w, hw, hwc, hlt⟩ := hgone v hv.1 hdropped
  have hown : v.txid ≠ x.txid := by
    have hle := minActive_le hx hactive
    omega
  have hle : v.txid ≤ x.snapshotTxid := by simpa [MVCCStore.visible, hcommitted, hown] using hv.2
  refine ⟨w, mem_filter.mpr ⟨hw, ?_⟩, hlt⟩
  simp [MVCCStore.visible, hwc, hsplit.le hv.1 hw hcommitted hwc hle]

theorem conflicts_vacuum {active : List Nat} (h : m.conflicts x = false) :
    (vacuum m active).1.conflicts x = false := by
  rw [MVCCStore.conflicts, any_eq_false] at h ⊢
  intro key hkey
  have hfree := h key hkey
  rw [Bool.not_eq_true, any_eq_false] at hfree ⊢
  intro v hv
  rw [versionsAt_vacuum] at hv
  exact hfree v (mem_of_mem_sweep hv)

def settled : List Event :=
  [.call .begin, .call (.set 0 ['k'] ['a']), .call (.commit 0), .call .begin,
    .call (.set 1 ['k'] ['b']), .call (.commit 1), .call .begin]

/-- A key is written once more behind the snapshot of the second transaction. -/
def overwritten : List Event :=
  [.call .begin, .call (.set 0 ['k'] ['a']), .call (.commit 0), .call .begin, .call .begin,
    .call (.set 2 ['k'] ['b']), .call (.commit 2)]

end LiteDB.TransactionVacuum
