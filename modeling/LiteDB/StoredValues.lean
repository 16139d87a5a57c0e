import LiteDB.MvccScans
import LiteDB.SnapshotIsolation

namespace LiteDB.StoredValues

open LsmMap (lsmEngine)
open Mvcc MvccScans MvccSpec Runs SnapshotIsolation VersionKeys

variable {s : State lsmEngine} {i : Nat} {x : Transaction} {key value : Text}

theorem lastKept_of_committedCall {E : StorageEngines.StorageEngine} {log : List Record}
    {userKey : Text → Prop} (hlog : ∀ r ∈ log, Mirrors userKey r.writes r.buffered)
    (hcall : committedCall log key = some (some value)) (hvalue : E.reserved value = false) :
    lastKept E log key = some value := by
  unfold committedCall at hcall
  unfold lastKept
  induction log using List.reverseRecOn with
  | nil => simp at hcall
  | append_singleton log r ih =>
    have hr := (hlog r (by simp)).get? key
    rw [List.reverse_concat, List.findSome?_cons] at hcall ⊢
    cases hlast : lastCall r.buffered key with
    | none =>
      rw [hlast] at hcall hr
      have hkept : kept E r key = none := by
        rw [kept, hr]
        rfl
      rw [hkept]
      exact ih (fun q hq => hlog q (by simp [hq])) hcall
    | some call =>
      rw [hlast] at hcall hr
      cases hcall
      have hkept : kept E r key = some value := by
        rw [kept, hr]
        simp [Option.filter_some, hvalue]
      rw [hkept]

/-- A value that is none of the two markers is read and listed until another
transaction writes its key. -/
theorem get_scan_eq_of_committedCall {m : MvccEngine lsmEngine}
    (hm : MvccEngine.init LsmEngine.Engine.create = some m)
    (h : Reaches step (Legal (sep ∉ ·)) (start m) s) (hx : s.txns[i]? = some x)
    (hactive : x.phase = .active) (hkey : sep ∉ key) (hown : lastCall x.buffered key = none)
    (hcall : committedCall (s.log.take x.base) key = some (some value))
    (hmvcc : value ≠ VersionKeys.tombstone) (hlsm : value ≠ LsmEngine.tombstone) :
    x.get s.mvcc key = some value ∧ ∀ lo hi, lo ≤ key → key ≤ hi → sep ∉ hi →
      ∃ out, x.scan s.mvcc lo hi = some out ∧ (key, value) ∈ out := by
  have hinv : Inv (sep ∉ ·) s :=
    h.invariant _ (inv_start rfl hm) fun _ _ _ hu ha hstep => hu.step separated_nulFree ha hstep
  have hmirrors : Mirrors (sep ∉ ·) x.writes x.buffered :=
    (hinv.txns i x hx).2.1 (by simp [hactive, Phase.ended])
  have hkept : lastKept lsmEngine (s.log.take x.base) key = some value :=
    lastKept_of_committedCall (fun r hr => (hinv.logged r (List.mem_of_mem_take hr)).2) hcall
      (decide_eq_false hlsm)
  have hget : x.get s.mvcc key = some value := by
    rw [Transaction.get, hmirrors.get?, hown, Option.map_none]
    refine (hinv.read_eq separated_nulFree hx hkey).trans ?_
    simp [hkept, visible, hmvcc]
  refine ⟨hget, fun lo hi hlo hhi hsep => ?_⟩
  obtain ⟨out, hout, -, -, hcovers, -⟩ :=
    exists_txn_scan hinv.holds separated_nulFree (hinv.inRange hx) hmirrors.keys lo hi
  exact ⟨out, hout, (hcovers key hkey (covers_of_between hlo hhi hsep) hlo hhi value).mpr hget⟩

/-- One transaction puts a value, and another one begins behind it, with a flush and a
compaction between them. -/
def putAndBegin (value : Text) : List (Event lsmEngine) :=
  [.begin, .put 0 "a".toList value, .commit 0, .acquire 0, .check 0, .stamp 0, .write 0,
    .publish 0, .maintain .force, .maintain .flush, .maintain .compact, .begin]

theorem get_scan_eq_of_putAndBegin : ∃ s : State lsmEngine,
    Reaches step (Legal (sep ∉ ·)) (start emptyLsm) s ∧ ∃ x, s.txns[1]? = some x ∧
      x.get s.mvcc "a".toList = some "1".toList ∧
      ∃ out, x.scan s.mvcc [] "b".toList = some out ∧ ("a".toList, "1".toList) ∈ out := by
  obtain ⟨s, hs, htest⟩ := exists_reaches step (Legal (sep ∉ ·)) (start emptyLsm)
    (putAndBegin "1".toList) (fun s => s.txns[1]?.any fun x => x.phase = .active ∧
      lastCall x.buffered "a".toList = none ∧
      committedCall (s.log.take x.base) "a".toList = some (some "1".toList)) (by decide +kernel)
  obtain ⟨x, hx, hrest⟩ := (Option.any_eq_true _ _).mp htest
  obtain ⟨hactive, hown, hcall⟩ := of_decide_eq_true hrest
  obtain ⟨hget, hscan⟩ := get_scan_eq_of_committedCall rfl hs hx hactive (by decide) hown hcall
    (by decide) (by decide)
  exact ⟨s, hs, x, hx, hget, hscan [] _ (by decide) (by decide) (by decide)⟩

/-- The engine takes its own marker for a deletion, so that the version vanishes. -/
theorem not_get_eq_of_committedCall :
    ¬∀ (s : State lsmEngine) (i : Nat) (x : Transaction) (key value : Text),
      Reaches step (Legal (sep ∉ ·)) (start emptyLsm) s → s.txns[i]? = some x →
      x.phase = .active → sep ∉ key → lastCall x.buffered key = none →
      committedCall (s.log.take x.base) key = some (some value) →
      x.get s.mvcc key = some value := by
  intro hall
  obtain ⟨s, hs, htest⟩ := exists_reaches step (Legal (sep ∉ ·)) (start emptyLsm)
    (putAndBegin LsmEngine.tombstone) (fun s => s.txns[1]?.any fun x => x.phase = .active ∧
      lastCall x.buffered "a".toList = none ∧
      committedCall (s.log.take x.base) "a".toList = some (some LsmEngine.tombstone) ∧
      x.get s.mvcc "a".toList = none) (by decide +kernel)
  obtain ⟨x, hx, hrest⟩ := (Option.any_eq_true _ _).mp htest
  obtain ⟨hactive, hown, hcall, hnone⟩ := of_decide_eq_true hrest
  rw [hall s 1 x _ _ hs hx hactive (by decide) hown hcall] at hnone
  simp at hnone

end LiteDB.StoredValues
