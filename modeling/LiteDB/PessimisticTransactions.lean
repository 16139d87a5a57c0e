import LiteDB.LockManager
import LiteDB.OptimisticIsolation

namespace LiteDB.PessimisticTransactions

open IndexedLists
open LockManager OptimisticIsolation Runs SortedMaps
open List hiding lookup
open TransactionStore (Commit MVCCStore Status Transaction Version tombstone)
open VersionKeys (Text)
open scoped VersionKeys

/-- The calls that take a lock. -/
inductive Op where
  | get (key : Text)
  | getForUpdate (key : Text)
  | set (key value : Text)
  | delete (key : Text)
deriving DecidableEq

def Op.key : Op → Text
  | .get key | .getForUpdate key | .set key _ | .delete key => key

def Op.lockType : Op → LockType
  | .get _ => .shared
  | _ => .exclusive

/-- Where a transaction is: between two calls, in a call with its lock, or behind `_commit`
or `_abort` with its locks or without them. -/
inductive Phase where
  | idle
  | granted (op : Op)
  | ended
  | over
deriving DecidableEq

def Phase.working : Phase → Bool
  | .idle | .granted _ => true
  | _ => false

/-- `updates` has what `get_for_update` returned for keys that the transaction had not
written. -/
structure Session where
  phase : Phase
  updates : List (Text × Option Text)

/-- The store, the lock table and what the transactions are doing. -/
structure State where
  base : TransactionStore.State
  table : Table
  sessions : List Session

/-- A call takes its lock first and then works on the store, and the end of a transaction
gives its locks back in a step of its own. -/
inductive Event where
  | begin
  | acquire (i : Nat) (op : Op)
  | timeout (i : Nat) (op : Op)
  | perform (i : Nat)
  | commit (i : Nat)
  | abort (i : Nat)
  | release (i : Nat)

def init : State := ⟨TransactionStore.init, Dict.empty, []⟩

/-- The rest of a call behind `acquire`. -/
def perform (base : TransactionStore.State) (i : Nat) (x : Transaction) (c : Session) :
    Op → Option (TransactionStore.State × Session)
  | .get _ => some (base, { c with phase := .idle })
  | .getForUpdate key =>
      some (base, ⟨.idle,
        if key ∈ x.writeSet then c.updates else (key, x.get base.store key) :: c.updates⟩)
  | .set key value =>
      (TransactionStore.step base (.set i key value)).map fun b => (b, { c with phase := .idle })
  | .delete key =>
      (TransactionStore.step base (.delete i key)).map fun b => (b, { c with phase := .idle })

def stepTxn (s : State) (i : Nat) (x : Transaction) (c : Session) : Event → Option State
  | .acquire _ op =>
      if c.phase = .idle then
        (LockManager.acquire s.table op.key op.lockType x.txid).map fun table =>
          { s with table := table, sessions := s.sessions.set i { c with phase := .granted op } }
      else none
  | .timeout _ op =>
      if c.phase = .idle then
        (LockManager.timeout s.table op.key op.lockType x.txid).map fun table =>
          { s with table := table, sessions := s.sessions.set i c }
      else none
  | .perform _ =>
      match c.phase with
      | .granted op => (perform s.base i x c op).map fun (base, c') =>
          { s with base := base, sessions := s.sessions.set i c' }
      | _ => none
  | .commit _ =>
      if c.phase = .idle then
        (TransactionStore.step s.base (.commit i)).map fun base =>
          { s with base := base, sessions := s.sessions.set i { c with phase := .ended } }
      else none
  | .abort _ =>
      if c.phase = .idle then
        (TransactionStore.step s.base (.abort i)).map fun base =>
          { s with base := base, sessions := s.sessions.set i { c with phase := .ended } }
      else none
  | .release _ =>
      if c.phase = .ended then
        some { s with
          table := releaseAll s.table x.txid
          sessions := s.sessions.set i { c with phase := .over } }
      else none
  | .begin => none

def Event.txn : Event → Option Nat
  | .begin => none
  | .acquire i _ | .timeout i _ | .perform i | .commit i | .abort i | .release i => some i

def step (s : State) (a : Event) : Option State :=
  match a.txn with
  | none => (TransactionStore.step s.base .begin).map fun base =>
      { s with base := base, sessions := s.sessions ++ [⟨.idle, []⟩] }
  | some i => do
      let x ← s.base.txns[i]?
      let c ← s.sessions[i]?
      stepTxn s i x c a

def Op.Plain : Op → Prop
  | .set _ value => value ≠ tombstone
  | _ => True

instance (op : Op) : Decidable op.Plain := by
  unfold Op.Plain
  split <;> infer_instance

/-- An exclusive lock is granted only while the snapshot has all committed versions of the
key, and no value stands for a deletion. -/
def Fresh (s : State) : Event → Prop
  | .acquire i op => op.Plain ∧ (op.lockType = .exclusive → ∀ x ∈ s.base.txns[i]?,
      ∀ v ∈ s.base.store.versionsAt op.key, v.committed = true → v.txid ≤ x.snapshotTxid)
  | _ => True

instance (s : State) (a : Event) : Decidable (Fresh s a) := by
  unfold Fresh
  split <;> infer_instance

variable {s t : State} {i : Nat} {x y : Transaction} {c d : Session} {table table' : Table}
  {log : List Commit} {key : Text}

/-- A transaction holds what it works on, and nobody has committed it behind the snapshot. -/
structure Locked (table : Table) (log : List Commit) (x : Transaction) (c : Session) :
    Prop where
  active : x.status = .active ↔ c.phase.working = true
  granted : ∀ op, c.phase = .granted op → op.Plain ∧
    (op.lockType = .exclusive → Holds table op.key x.txid .exclusive)
  written : x.status = .active → ∀ key ∈ x.writeSet, Holds table key x.txid .exclusive
  fresh : x.status = .active → ∀ key, Holds table key x.txid .exclusive →
    ∀ d ∈ log, Wrote d.calls key → d.txid ≤ x.snapshotTxid
  updates : x.status = .active → ∀ key value, (key, value) ∈ c.updates →
    Holds table key x.txid .exclusive ∧ value = (committedCall log key).join

theorem locked_of_ended (hstatus : x.status ≠ .active) (hphase : c.phase.working = false) :
    Locked table log x c := by
  refine ⟨by simp [hstatus, hphase], fun op hop => ?_, fun h => absurd h hstatus,
    fun h => absurd h hstatus, fun h => absurd h hstatus⟩
  rw [hop] at hphase
  contradiction

theorem Locked.of_table (h : Locked table log x c)
    (hsame : ∀ key, Holds table' key x.txid .exclusive ↔ Holds table key x.txid .exclusive) :
    Locked table' log x c := by
  refine ⟨h.active, fun op hop => ?_, ?_, ?_, ?_⟩
  · exact ⟨(h.granted op hop).1, fun hexclusive => (hsame _).mpr ((h.granted op hop).2 hexclusive)⟩
  · exact fun hactive key hkey => (hsame key).mpr (h.written hactive key hkey)
  · exact fun hactive key hholds => h.fresh hactive key ((hsame key).mp hholds)
  · exact fun hactive key value hmem =>
      (h.updates hactive key value hmem).imp_left (hsame key).mpr

variable {e : Commit}

theorem committedCall_concat (h : ¬Wrote e.calls key) :
    committedCall (log ++ [e]) key = committedCall log key := by
  rw [Wrote, Option.not_isSome_iff_eq_none] at h
  simp [committedCall, h]

theorem Locked.of_commit (h : Locked table log x c)
    (he : ∀ key, Wrote e.calls key → ¬Holds table key x.txid .exclusive) :
    Locked table (log ++ [e]) x c := by
  refine ⟨h.active, h.granted, h.written, fun hactive key hholds => ?_,
    fun hactive key value hmem => ?_⟩
  · exact forall_mem_append.mpr ⟨h.fresh hactive key hholds,
      forall_mem_singleton.mpr fun hwrote => absurd hholds (he key hwrote)⟩
  · obtain ⟨hholds, hvalue⟩ := h.updates hactive key value hmem
    refine ⟨hholds, ?_⟩
    rw [hvalue, committedCall_concat fun hwrote => he key hwrote hholds]

/-- All open transactions are covered by compatible locks. -/
structure Inv (s : State) : Prop where
  consistent : Consistent s.base
  length : s.sessions.length = s.base.txns.length
  compatible : Compatible s.table
  holders : ∀ key u, Holds s.table key u .exclusive → u ≤ s.base.txns.length
  locked : ∀ (i : Nat) x c, s.base.txns[i]? = some x → s.sessions[i]? = some c →
    Locked s.table s.base.log x c

theorem inv_init : Inv init := by
  refine ⟨consistent_init, rfl, ?_, ?_, by simp [init, TransactionStore.init]⟩
  · rintro key t u type ht -
    exact absurd ht (by simp [Holds, entry, init, Dict.empty, Dict.get?, lookup])
  · intro key u hu
    exact absurd hu (by simp [Holds, entry, init, Dict.empty, Dict.get?, lookup])

theorem Inv.of_own (h : Inv s) {x' : Transaction} {c' : Session} {base : TransactionStore.State}
    (hx : s.base.txns[i]? = some x) (hbase : Consistent base)
    (htxns : base.txns = s.base.txns.set i x') (htable : Compatible table)
    (hholders : ∀ key u, Holds table key u .exclusive →
      Holds s.table key u .exclusive ∨ u = x.txid)
    (hown : Locked table base.log x' c')
    (hothers : ∀ y d, y.txid ≠ x.txid → Locked s.table s.base.log y d → Locked table base.log y d) :
    Inv ⟨base, table, s.sessions.set i c'⟩ := by
  have hlt := lt_length_of_getElem? hx
  refine ⟨hbase, ?_, htable, fun key u hu => ?_, fun j y d hy hd => ?_⟩
  · simpa [htxns] using h.length
  · simp only [htxns, length_set]
    rcases hholders key u hu with hu | rfl
    · exact h.holders key u hu
    · rw [h.consistent.txid i x hx]
      exact hlt
  · rw [htxns] at hy
    rcases getElem?_set_cases hy with ⟨hij, hy⟩ | ⟨rfl, rfl⟩
    · rcases getElem?_set_cases hd with ⟨-, hd⟩ | ⟨heq, -⟩
      · exact hothers y d (h.consistent.txid_inj hx hy hij) (h.locked j y d hy hd)
      · exact absurd heq hij
    · rcases getElem?_set_cases hd with ⟨hne, -⟩ | ⟨-, rfl⟩
      · exact absurd rfl hne
      · exact hown

section Steps

variable {base : TransactionStore.State} {op : Op} {a : Event}

theorem Inv.begin (h : Inv s) (hstep : TransactionStore.step s.base .begin = some base) :
    Inv { s with base := base, sessions := s.sessions ++ [⟨.idle, []⟩] } := by
  have hbase := h.consistent.begin hstep
  cases hstep
  refine ⟨hbase, by simp [h.length], h.compatible, fun key u hu => ?_, fun j y d hy hd => ?_⟩
  · have hle := h.holders key u hu
    simp only [length_append, length_singleton]
    omega
  · rcases getElem?_concat_cases hy with hy | ⟨rfl, rfl⟩
    · rcases getElem?_concat_cases hd with hd | ⟨rfl, -⟩
      · exact h.locked j y d hy hd
      · have hlt := lt_length_of_getElem? hy
        exact absurd h.length hlt.ne
    · rcases getElem?_concat_cases hd with hd | ⟨-, rfl⟩
      · have hlt := lt_length_of_getElem? hd
        exact absurd h.length hlt.ne'
      · have hnone : ∀ key, ¬Holds s.table key s.base.store.nextTxid .exclusive := by
          intro key hu
          have hle := h.holders key _ hu
          rw [h.consistent.next] at hle
          omega
        exact ⟨by simp [Phase.working], by simp, by simp, fun _ key hu => absurd hu (hnone key),
          by simp⟩

theorem Inv.acquire (h : Inv s) (hx : s.base.txns[i]? = some x) (hc : s.sessions[i]? = some c)
    (hidle : c.phase = .idle) (hok : Fresh s (.acquire i op))
    (hacquire : LockManager.acquire s.table op.key op.lockType x.txid = some table) :
    Inv { s with
      table := table
      sessions := s.sessions.set i { c with phase := .granted op } } := by
  have hlocked := h.locked i x c hx hc
  have hkeep : ∀ key, Holds s.table key x.txid .exclusive → Holds table key x.txid .exclusive :=
    fun key hholds => (exclusive_acquire_iff hacquire).mpr (.inl hholds)
  refine h.of_own hx h.consistent (set_eq_self hx).symm (h.compatible.acquire hacquire)
    (fun key u hu => (holds_acquire_cases hacquire hu).imp_right And.right) ?_ ?_
  · refine ⟨?_, fun op' hop => ?_, ?_, fun hactive key hholds e he hwrote => ?_, ?_⟩
    · rw [hlocked.active, hidle]
      exact iff_of_true rfl rfl
    · obtain rfl := Phase.granted.inj hop
      refine ⟨hok.1, fun hexclusive => ?_⟩
      exact (exclusive_acquire_iff hacquire).mpr (.inr ⟨rfl, rfl, hexclusive⟩)
    · exact fun hactive key hkey => hkeep key (hlocked.written hactive key hkey)
    · rcases (exclusive_acquire_iff hacquire).mp hholds with hholds | ⟨rfl, -, hexclusive⟩
      · exact hlocked.fresh hactive key hholds e he hwrote
      · obtain ⟨call, hcall⟩ := Option.isSome_iff_exists.mp hwrote
        exact hok.2 hexclusive x hx ⟨e.txid, stored call, true⟩
          ((h.consistent.versions _ _).mpr (.inr ⟨e, he, call, hcall, rfl⟩)) rfl
    · exact fun hactive key value hmem =>
        (hlocked.updates hactive key value hmem).imp_left (hkeep key)
  · intro y d hid hy
    refine hy.of_table fun key => ?_
    rw [exclusive_acquire_iff hacquire]
    exact or_iff_left fun hnew => hid hnew.2.1

theorem Inv.timeout (h : Inv s) (hx : s.base.txns[i]? = some x) (hc : s.sessions[i]? = some c)
    (htimeout : LockManager.timeout s.table op.key op.lockType x.txid = some table) :
    Inv { s with table := table, sessions := s.sessions.set i c } := by
  have hsame : ∀ key u type, Holds table key u type ↔ Holds s.table key u type :=
    fun key u type => holds_timeout_iff htimeout
  refine h.of_own hx h.consistent (set_eq_self hx).symm
    (h.compatible.of_subset fun k u type => (hsame k u type).mp)
    (fun key u hu => .inl ((hsame key u _).mp hu))
    ((h.locked i x c hx hc).of_table fun key => hsame key x.txid _) ?_
  exact fun y d _ hy => hy.of_table fun key => hsame key y.txid _

theorem Inv.release (h : Inv s) (hx : s.base.txns[i]? = some x) (hc : s.sessions[i]? = some c)
    (hended : c.phase = .ended) :
    Inv { s with
      table := releaseAll s.table x.txid
      sessions := s.sessions.set i { c with phase := .over } } := by
  have hstatus : x.status ≠ .active := by
    rw [Ne, (h.locked i x c hx hc).active, hended]
    exact Bool.false_ne_true
  refine h.of_own hx h.consistent (set_eq_self hx).symm
    (h.compatible.of_subset fun k u type hu => (holds_releaseAll_iff.mp hu).1)
    (fun key u hu => .inl (holds_releaseAll_iff.mp hu).1) (locked_of_ended hstatus rfl) ?_
  intro y d hid hy
  exact hy.of_table fun key => holds_releaseAll_iff.trans (and_iff_left hid)

theorem Consistent.get_of_fresh (h : Consistent base) (hx : base.txns[i]? = some x)
    (hactive : x.status = .active) (hkey : key ∉ x.writeSet)
    (hfresh : ∀ e ∈ base.log, Wrote e.calls key → e.txid ≤ x.snapshotTxid) :
    x.get base.store key = (committedCall base.log key).join := by
  refine h.get_of_visible (List.Sublist.refl _) fun v => ?_
  rw [mem_filter]
  simp only [MVCCStore.visible, Bool.or_eq_true, Bool.and_eq_true, decide_eq_true_eq, beq_iff_eq]
  constructor
  · rintro ⟨hv, hvisible⟩
    obtain ⟨hcommitted, -⟩ :=
      hvisible.resolve_right (h.not_mem_of_not_mem_writeSet hx hactive hkey hv)
    rcases (h.versions key v).mp hv with ⟨_, _, -, -, _, -, rfl⟩ | hlogged
    · contradiction
    · exact hlogged
  · rintro ⟨e, he, call, hcall, rfl⟩
    exact ⟨(h.versions key _).mpr (.inr ⟨e, he, call, hcall, rfl⟩),
      .inl ⟨rfl, hfresh e he (Option.isSome_of_eq_some hcall)⟩⟩

theorem Inv.write (h : Inv s) (hx : s.base.txns[i]? = some x) (hc : s.sessions[i]? = some c)
    (hactive : x.status = .active) (call : Option Text) (hbase : Consistent base)
    (htxns : base.txns = s.base.txns.set i (x.call key call)) (hlog : base.log = s.base.log)
    (hholds : Holds s.table key x.txid .exclusive) :
    Inv { s with base := base, sessions := s.sessions.set i { c with phase := .idle } } := by
  have hlocked := h.locked i x c hx hc
  refine h.of_own hx hbase htxns h.compatible (fun _ _ => .inl) ?_ fun y d _ hy => by rwa [hlog]
  rw [hlog]
  refine ⟨by simp [Transaction.call, hactive, Phase.working], by simp, fun _ k hk => ?_,
    hlocked.fresh, hlocked.updates⟩
  have hk : k = key ∨ k ∈ x.writeSet := by
    simp only [Transaction.call] at hk
    split at hk
    · exact .inr hk
    · exact mem_cons.mp hk
  rcases hk with rfl | hk
  · exact hholds
  · exact hlocked.written hactive k hk

theorem Inv.perform (h : Inv s) {c' : Session} (hx : s.base.txns[i]? = some x)
    (hc : s.sessions[i]? = some c) (hphase : c.phase = .granted op)
    (hperform : perform s.base i x c op = some (base, c')) :
    Inv { s with base := base, sessions := s.sessions.set i c' } := by
  have hlocked := h.locked i x c hx hc
  have hactive : x.status = .active := hlocked.active.mpr (by rw [hphase]; rfl)
  obtain ⟨hplain, hholds⟩ := hlocked.granted op hphase
  have hread : ∀ c' : Session, c'.phase = .idle → (∀ key value, (key, value) ∈ c'.updates →
      Holds s.table key x.txid .exclusive ∧ value = (committedCall s.base.log key).join) →
      Inv { s with sessions := s.sessions.set i c' } := by
    intro c' hidle hupdates
    refine h.of_own hx h.consistent (set_eq_self hx).symm h.compatible (fun _ _ => .inl) ?_
      fun y d _ hy => hy
    exact ⟨by rw [hidle]; simp [hactive, Phase.working], by simp [hidle], hlocked.written,
      hlocked.fresh, fun _ => hupdates⟩
  cases op with
  | get key =>
    obtain ⟨rfl, rfl⟩ := Prod.mk.inj (Option.some.inj hperform)
    exact hread _ rfl (hlocked.updates hactive)
  | getForUpdate key =>
    obtain ⟨rfl, rfl⟩ := Prod.mk.inj (Option.some.inj hperform)
    refine hread _ rfl fun k value hmem => ?_
    split at hmem
    · exact hlocked.updates hactive k value hmem
    · rename_i hkey
      rcases mem_cons.mp hmem with heq | hmem
      · obtain ⟨rfl, rfl⟩ := Prod.mk.inj heq
        refine ⟨hholds rfl, Consistent.get_of_fresh h.consistent hx hactive hkey ?_⟩
        exact hlocked.fresh hactive k (hholds rfl)
      · exact hlocked.updates hactive k value hmem
  | set key value =>
    obtain ⟨b, hstep, heq⟩ := Option.map_eq_some_iff.mp hperform
    obtain ⟨rfl, rfl⟩ := Prod.mk.inj heq
    have hbase := h.consistent.step hstep hplain
    obtain ⟨x', hx', -, rfl⟩ := exists_of_step (i := i) rfl hstep
    cases hx.symm.trans hx'
    exact h.write hx hc hactive (some value) hbase rfl rfl (hholds rfl)
  | delete key =>
    obtain ⟨b, hstep, heq⟩ := Option.map_eq_some_iff.mp hperform
    obtain ⟨rfl, rfl⟩ := Prod.mk.inj heq
    have hbase := h.consistent.step hstep trivial
    obtain ⟨x', hx', -, rfl⟩ := exists_of_step (i := i) rfl hstep
    cases hx.symm.trans hx'
    exact h.write hx hc hactive none hbase rfl rfl (hholds rfl)

theorem Inv.abort (h : Inv s) (hx : s.base.txns[i]? = some x)
    (hstep : TransactionStore.step s.base (.abort i) = some base) :
    Inv { s with base := base, sessions := s.sessions.set i { c with phase := .ended } } := by
  have hbase := h.consistent.step hstep trivial
  obtain ⟨x', hx', -, rfl⟩ := exists_of_step (i := i) rfl hstep
  cases hx.symm.trans hx'
  exact h.of_own hx hbase rfl h.compatible (fun _ _ => .inl)
    (locked_of_ended (by simp) rfl) fun y d _ hy => hy

theorem Inv.conflicts_eq_false (h : Inv s) (hx : s.base.txns[i]? = some x)
    (hc : s.sessions[i]? = some c) (hactive : x.status = .active) :
    s.base.store.conflicts x = false := by
  have hlocked := h.locked i x c hx hc
  rw [MVCCStore.conflicts, any_eq_false]
  intro key hkey
  rw [Bool.not_eq_true, any_eq_false]
  intro v hv hconflict
  simp only [Bool.and_eq_true, decide_eq_true_eq] at hconflict
  obtain ⟨⟨hid, hcommitted⟩, hlt⟩ := hconflict
  rcases (h.consistent.versions key v).mp hv with ⟨_, _, -, -, _, -, rfl⟩ |
    ⟨e, he, call, hcall, rfl⟩
  · contradiction
  · have hle := hlocked.fresh hactive key (hlocked.written hactive key hkey) e he
      (Option.isSome_of_eq_some hcall)
    exact absurd hle hlt.not_ge

theorem Inv.commit (h : Inv s) (hx : s.base.txns[i]? = some x) (hc : s.sessions[i]? = some c)
    (hstep : TransactionStore.step s.base (.commit i) = some base) :
    Inv { s with base := base, sessions := s.sessions.set i { c with phase := .ended } } ∧
      ∃ y, base.txns[i]? = some y ∧ y.status = .committed := by
  have hbase := h.consistent.step hstep trivial
  have hlocked := h.locked i x c hx hc
  obtain ⟨x', hx', hactive, rfl⟩ := exists_of_step (i := i) rfl hstep
  cases hx.symm.trans hx'
  rw [TransactionStore.stepTxn, if_neg (by simp [h.conflicts_eq_false hx hc hactive])] at hbase ⊢
  refine ⟨h.of_own hx hbase rfl h.compatible (fun _ _ => .inl)
    (locked_of_ended (by simp) rfl) fun y d hid hy => hy.of_commit fun key hwrote hholds => ?_,
    _, getElem?_set_self (lt_length_of_getElem? hx), rfl⟩
  have hkey := (h.consistent.writeSet x (mem_of_getElem? hx) key).mpr hwrote
  exact hid (h.compatible key x.txid y.txid .exclusive (hlocked.written hactive key hkey) hholds)

theorem exists_of_step (hi : a.txn = some i) (hstep : step s a = some t) :
    ∃ x c, s.base.txns[i]? = some x ∧ s.sessions[i]? = some c ∧ stepTxn s i x c a = some t := by
  rw [step, hi] at hstep
  obtain ⟨x, hx, hstep⟩ := Option.bind_eq_some_iff.mp hstep
  obtain ⟨c, hc, hstep⟩ := Option.bind_eq_some_iff.mp hstep
  exact ⟨x, c, hx, hc, hstep⟩

theorem Inv.step (h : Inv s) (hok : Fresh s a) (hstep : PessimisticTransactions.step s a = some t) :
    Inv t := by
  cases a with
  | begin =>
    simp only [PessimisticTransactions.step, Event.txn] at hstep
    obtain ⟨base, hbase, rfl⟩ := Option.map_eq_some_iff.mp hstep
    exact h.begin hbase
  | acquire i op =>
    obtain ⟨x, c, hx, hc, hstep⟩ := exists_of_step (i := i) rfl hstep
    obtain ⟨hidle, hstep⟩ := Option.ite_none_right_eq_some.mp hstep
    obtain ⟨table, hacquire, rfl⟩ := Option.map_eq_some_iff.mp hstep
    exact h.acquire hx hc hidle hok hacquire
  | timeout i op =>
    obtain ⟨x, c, hx, hc, hstep⟩ := exists_of_step (i := i) rfl hstep
    obtain ⟨-, hstep⟩ := Option.ite_none_right_eq_some.mp hstep
    obtain ⟨table, htimeout, rfl⟩ := Option.map_eq_some_iff.mp hstep
    exact h.timeout hx hc htimeout
  | perform i =>
    obtain ⟨x, c, hx, hc, hstep⟩ := exists_of_step (i := i) rfl hstep
    simp only [stepTxn] at hstep
    split at hstep
    · rename_i op hphase
      obtain ⟨⟨base, c'⟩, hperform, rfl⟩ := Option.map_eq_some_iff.mp hstep
      exact h.perform hx hc hphase hperform
    · contradiction
  | commit i =>
    obtain ⟨x, c, hx, hc, hstep⟩ := exists_of_step (i := i) rfl hstep
    obtain ⟨-, hstep⟩ := Option.ite_none_right_eq_some.mp hstep
    obtain ⟨base, hbase, rfl⟩ := Option.map_eq_some_iff.mp hstep
    exact (h.commit hx hc hbase).1
  | abort i =>
    obtain ⟨x, c, hx, hc, hstep⟩ := exists_of_step (i := i) rfl hstep
    obtain ⟨-, hstep⟩ := Option.ite_none_right_eq_some.mp hstep
    obtain ⟨base, hbase, rfl⟩ := Option.map_eq_some_iff.mp hstep
    exact h.abort hx hbase
  | release i =>
    obtain ⟨x, c, hx, hc, hstep⟩ := exists_of_step (i := i) rfl hstep
    obtain ⟨hended, ⟨⟩⟩ := Option.ite_none_right_eq_some.mp hstep
    exact h.release hx hc hended

end Steps

theorem compatible_of_step {a : Event} (h : Compatible s.table) (hstep : step s a = some t) :
    Compatible t.table := by
  cases hi : a.txn with
  | none =>
    rw [step, hi] at hstep
    obtain ⟨base, -, rfl⟩ := Option.map_eq_some_iff.mp hstep
    exact h
  | some i =>
    obtain ⟨x, c, -, -, hstep⟩ := exists_of_step hi hstep
    cases a with
    | begin => contradiction
    | acquire i op =>
      obtain ⟨-, hstep⟩ := Option.ite_none_right_eq_some.mp hstep
      obtain ⟨table, hacquire, rfl⟩ := Option.map_eq_some_iff.mp hstep
      exact h.acquire hacquire
    | timeout i op =>
      obtain ⟨-, hstep⟩ := Option.ite_none_right_eq_some.mp hstep
      obtain ⟨table, htimeout, rfl⟩ := Option.map_eq_some_iff.mp hstep
      exact h.of_subset fun k u type => (holds_timeout_iff htimeout).mp
    | perform i =>
      simp only [stepTxn] at hstep
      split at hstep
      · obtain ⟨_, -, rfl⟩ := Option.map_eq_some_iff.mp hstep
        exact h
      · contradiction
    | commit i | abort i =>
      obtain ⟨-, hstep⟩ := Option.ite_none_right_eq_some.mp hstep
      obtain ⟨base, -, rfl⟩ := Option.map_eq_some_iff.mp hstep
      exact h
    | release i =>
      obtain ⟨-, ⟨⟩⟩ := Option.ite_none_right_eq_some.mp hstep
      exact h.of_subset fun k u type hu => (holds_releaseAll_iff.mp hu).1

/-- A commit succeeds, and what `get_for_update` has returned for a key that the transaction
had not written is still the last committed value. -/
structure Honoured (s : State) : Prop where
  commits : ∀ i t, step s (.commit i) = some t →
    ∃ x, t.base.txns[i]? = some x ∧ x.status = .committed
  updates : ∀ (i : Nat) x c, s.base.txns[i]? = some x → s.sessions[i]? = some c →
    x.status = .active → ∀ key value, (key, value) ∈ c.updates →
      value = (committedCall s.base.log key).join

theorem Inv.honoured (h : Inv s) : Honoured s := by
  refine ⟨fun i t hstep => ?_, fun i x c hx hc hactive key value hmem => ?_⟩
  · obtain ⟨x, c, hx, hc, hstep⟩ := exists_of_step (i := i) rfl hstep
    obtain ⟨-, hstep⟩ := Option.ite_none_right_eq_some.mp hstep
    obtain ⟨base, hbase, rfl⟩ := Option.map_eq_some_iff.mp hstep
    exact (h.commit hx hc hbase).2
  · exact ((h.locked i x c hx hc).updates hactive key value hmem).2

/-- No two transactions hold conflicting locks in any run. While the snapshots are fresh when
exclusive locks are granted, no commit fails behind them. -/
theorem honoured_of_fresh (s : State) :
    (Reaches step (fun _ _ => True) init s → Compatible s.table) ∧
      (Reaches step Fresh init s → Honoured s) := by
  refine ⟨fun h => ?_, fun h => ?_⟩
  · exact h.invariant (fun s => Compatible s.table) inv_init.compatible
      fun _ _ _ hs _ hstep => compatible_of_step hs hstep
  · have hinv : Inv s := h.invariant Inv inv_init fun _ _ _ hs hok hstep => hs.step hok hstep
    exact hinv.honoured

/-- Two transactions in turn read a key for an update, write it and commit. -/
def inTurn : List Event :=
  [.begin, .acquire 0 (.getForUpdate ['k']), .perform 0, .acquire 0 (.set ['k'] ['a']),
    .perform 0, .commit 0, .release 0, .begin, .acquire 1 (.getForUpdate ['k']), .perform 1]

theorem honoured_of_inTurn : ∃ s, (∃ c ∈ s.sessions[1]?, (['k'], some ['a']) ∈ c.updates) ∧
    Honoured s := by
  obtain ⟨s, hs, htest⟩ := exists_reaches step Fresh init inTurn
    (fun s => ∃ c ∈ s.sessions[1]?, (['k'], some ['a']) ∈ c.updates) (by decide +kernel)
  exact ⟨s, htest, (honoured_of_fresh s).2 hs⟩

/-- The second transaction has begun before the first one commits, and gets its lock after
it. -/
def waited : List Event :=
  [.begin, .begin, .acquire 0 (.set ['k'] ['a']), .perform 0,
    .timeout 1 (.getForUpdate ['k']), .commit 0, .release 0,
    .acquire 1 (.getForUpdate ['k']), .perform 1, .acquire 1 (.set ['k'] ['b']), .perform 1]

/-- The transaction with the lock reads a stale value, and its commit fails. -/
theorem not_honoured_of_waited : ¬∀ s, Reaches step (fun _ _ => True) init s →
    Compatible s.table ∧ Honoured s := by
  intro hall
  obtain ⟨s, hs, t, ht, hfailed⟩ := exists_reaches step (fun _ _ => True) init waited
    (fun s => ∃ t ∈ step s (.commit 1), ∀ x ∈ t.base.txns[1]?, x.status ≠ .committed)
    (by decide +kernel)
  obtain ⟨x, hx, hcommitted⟩ := (hall s hs).2.commits 1 t ht
  exact hfailed x hx hcommitted

end LiteDB.PessimisticTransactions
