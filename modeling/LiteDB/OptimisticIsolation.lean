import LiteDB.IndexedLists
import LiteDB.Runs
import LiteDB.TransactionStore

namespace LiteDB.OptimisticIsolation

open IndexedLists List NewestItems Runs SortedMaps TransactionStore
open VersionKeys (Text)

variable {s t : State} {i : Nat} {x : Transaction} {key : Text}

def stored (call : Option Text) : Text := call.getD tombstone

def Clean (calls : Dict Text (Option Text)) : Prop :=
  ∀ key, calls.get? key ≠ some (some tombstone)

def Wrote (calls : Dict Text (Option Text)) (key : Text) : Prop := (calls.get? key).isSome

def committedCall (log : List Commit) (key : Text) : Option (Option Text) :=
  log.reverse.findSome? fun c => c.calls.get? key

/-- A transaction that has written commits only while every other open transaction has a
snapshot below its id, and no value stands for a deletion. -/
def Orderly (s : State) : Event → Prop
  | .set _ _ value => value ≠ tombstone
  | .commit i => ∀ x ∈ s.txns[i]?, s.store.conflicts x = false → x.writeSet ≠ [] →
      ∀ y ∈ s.txns, y.status = .active → y.txid ≠ x.txid → y.snapshotTxid < x.txid
  | _ => True

instance (s : State) (a : Event) : Decidable (Orderly s a) := by
  unfold Orderly
  split <;> infer_instance

/-- The snapshot of an open transaction stands for what had committed when it began. -/
structure Opened (log : List Commit) (x : Transaction) : Prop where
  base : x.base ≤ log.length
  before : ∀ c ∈ log.take x.base, c.txid ≤ x.snapshotTxid
  after : ∀ c ∈ log.drop x.base, ∀ key, Wrote c.calls key → x.snapshotTxid < c.txid

def Staged (txns : List Transaction) (key : Text) (v : Version) : Prop :=
  ∃ (i : Nat) (x : Transaction), txns[i]? = some x ∧ x.status = .active ∧
    ∃ call, x.calls.get? key = some call ∧ v = ⟨x.txid, stored call, false⟩

def Logged (log : List Commit) (key : Text) (v : Version) : Prop :=
  ∃ c ∈ log, ∃ call, c.calls.get? key = some call ∧ v = ⟨c.txid, stored call, true⟩

/-- What holds in every run without values that stand for deletions. -/
structure Consistent (s : State) : Prop where
  next : s.store.nextTxid = s.txns.length + 1
  txid : ∀ (i : Nat) x, s.txns[i]? = some x → x.txid = i + 1
  committed : ∀ n, n ∈ s.store.committedTxids ↔ n = 0 ∨ ∃ c ∈ s.log, c.txid = n
  logged : ∀ c ∈ s.log, c.txid ≤ s.txns.length
  writeSet : ∀ x ∈ s.txns, ∀ key, key ∈ x.writeSet ↔ Wrote x.calls key
  versions : ∀ key v, v ∈ s.store.versionsAt key ↔ Staged s.txns key v ∨ Logged s.log key v
  snapshot : ∀ x ∈ s.txns, x.status = .active → x.snapshotTxid < x.txid
  unlogged : ∀ x ∈ s.txns, x.status = .active → ∀ c ∈ s.log, c.txid ≠ x.txid
  ordered : s.log.Pairwise fun c d => ∀ key, Wrote c.calls key → Wrote d.calls key → c.txid < d.txid
  cleanTxns : ∀ x ∈ s.txns, Clean x.calls
  cleanLog : ∀ c ∈ s.log, Clean c.calls

/-- Open transactions see what had committed when they began, and no two writers overlap. -/
structure Inv (s : State) : Prop extends Consistent s where
  opened : ∀ x ∈ s.txns, x.status = .active → Opened s.log x
  exclusive : ∀ (j : Nat) d, s.log[j]? = some d → ∀ c ∈ (s.log.take j).drop d.base,
    ∀ key, Wrote d.calls key → ¬Wrote c.calls key

theorem not_wrote_empty : ¬Wrote Dict.empty key := by
  rw [Wrote]
  exact Bool.false_ne_true

theorem consistent_init : Consistent init := by
  refine ⟨rfl, by simp [init], fun n => ?_, by simp [init], by simp [init], fun key v => ?_,
    by simp [init], by simp [init], List.Pairwise.nil, by simp [init], by simp [init]⟩
  · simp [init, MVCCStore.init]
  · have hnil : init.store.versionsAt key = [] := rfl
    rw [hnil]
    simp [Staged, Logged, init]

theorem inv_init : Inv init :=
  ⟨consistent_init, by simp [init], by simp [init]⟩

theorem foldl_max_spec (l : List Nat) (a : Nat) :
    (∀ n ∈ l, n ≤ l.foldl max a) ∧ a ≤ l.foldl max a ∧ (l.foldl max a = a ∨ l.foldl max a ∈ l) := by
  induction l generalizing a with
  | nil => simp
  | cons b l ih =>
    obtain ⟨hall, hge, hmem⟩ := ih (max a b)
    rw [foldl_cons]
    refine ⟨fun n hn => ?_, by omega, ?_⟩
    · rcases mem_cons.mp hn with rfl | hn
      · omega
      · exact hall n hn
    · rcases hmem with heq | hmem
      · rw [heq]
        rcases Nat.le_total a b with hab | hab
        · exact .inr (by simp [Nat.max_eq_right hab])
        · exact .inl (Nat.max_eq_left hab)
      · exact .inr (mem_cons_of_mem _ hmem)

theorem Consistent.lt_next (h : Consistent s) {c : Commit} (hc : c ∈ s.log) :
    c.txid < s.store.nextTxid := by
  have hle := h.logged c hc
  rw [h.next]
  omega

theorem Consistent.begin (h : Consistent s) (hstep : step s .begin = some t) : Consistent t := by
  cases hstep
  have hsnapshot : s.store.committedTxids.foldl max 0 < s.store.nextTxid := by
    have hpos : 0 < s.store.nextTxid := by rw [h.next]; omega
    rcases (foldl_max_spec s.store.committedTxids 0).2.2 with heq | hmem
    · rwa [heq]
    · rcases (h.committed _).mp hmem with heq | ⟨c, hc, heq⟩
      · rwa [heq]
      · rw [← heq]
        exact h.lt_next hc
  refine ⟨?_, fun j x hx => ?_, h.committed, fun c hc => ?_, ?_, fun key v => ?_,
    forall_mem_concat h.snapshot fun _ => hsnapshot,
    forall_mem_concat h.unlogged fun _ c hc => (h.lt_next hc).ne, h.ordered, ?_, h.cleanLog⟩
  · simp [h.next]
  · rcases getElem?_concat_cases hx with hx | ⟨rfl, rfl⟩
    · exact h.txid j x hx
    · exact h.next
  · have hle := h.logged c hc
    simp only [length_append, length_singleton]
    omega
  · refine forall_mem_concat h.writeSet fun key => ?_
    simpa using not_wrote_empty
  · change v ∈ s.store.versionsAt key ↔ _
    rw [h.versions]
    refine or_congr ⟨?_, ?_⟩ Iff.rfl
    · rintro ⟨j, x, hx, hrest⟩
      refine ⟨j, x, ?_, hrest⟩
      rw [getElem?_append_left (lt_length_of_getElem? hx), hx]
    · rintro ⟨j, x, hx, hactive, call, hcall, hv⟩
      rcases getElem?_concat_cases hx with hx | ⟨-, rfl⟩
      · exact ⟨j, x, hx, hactive, call, hcall, hv⟩
      · exact absurd (Option.isSome_of_eq_some hcall) not_wrote_empty
  · refine forall_mem_concat h.cleanTxns fun key => ?_
    exact fun hcall => not_wrote_empty (Option.isSome_of_eq_some hcall)

variable {y : Transaction} {v : Version} {c : Commit}

theorem set_eq_self {l : List Transaction} (hx : l[i]? = some x) : l.set i x = l := by
  obtain ⟨hlt, rfl⟩ := List.getElem?_eq_some_iff.mp hx
  exact set_getElem_self hlt

theorem staged_set {x' : Transaction} (hx : s.txns[i]? = some x) :
    Staged (s.txns.set i x') key v ↔
      (∃ (j : Nat) (y : Transaction), i ≠ j ∧ s.txns[j]? = some y ∧ y.status = .active ∧
        ∃ call, y.calls.get? key = some call ∧ v = ⟨y.txid, stored call, false⟩) ∨
      (x'.status = .active ∧
        ∃ call, x'.calls.get? key = some call ∧ v = ⟨x'.txid, stored call, false⟩) := by
  constructor
  · rintro ⟨j, y, hy, hrest⟩
    rcases getElem?_set_cases hy with ⟨hij, hy⟩ | ⟨-, rfl⟩
    · exact .inl ⟨j, y, hij, hy, hrest⟩
    · exact .inr hrest
  · rintro (⟨j, y, hij, hy, hrest⟩ | hrest)
    · exact ⟨j, y, (getElem?_set_ne hij).trans hy, hrest⟩
    · exact ⟨i, x', getElem?_set_self (lt_length_of_getElem? hx), hrest⟩

theorem txid_set (h : ∀ (j : Nat) x, s.txns[j]? = some x → x.txid = j + 1)
    (hx : s.txns[i]? = some x) (hy : y.txid = x.txid) :
    ∀ (j : Nat) z, (s.txns.set i y)[j]? = some z → z.txid = j + 1 := by
  intro j z hz
  rcases getElem?_set_cases hz with ⟨-, hz⟩ | ⟨rfl, rfl⟩
  · exact h j z hz
  · exact hy.trans (h i x hx)

theorem wrote_set {calls : Dict Text (Option Text)} {k : Text} {call : Option Text} :
    Wrote (calls.set key call) k ↔ k = key ∨ Wrote calls k := by
  rw [Wrote, Dict.get?_set]
  split
  · simp_all
  · simp_all [Wrote]

theorem logged_concat {log : List Commit} :
    Logged (log ++ [c]) key v ↔ Logged log key v ∨
      ∃ call, c.calls.get? key = some call ∧ v = ⟨c.txid, stored call, true⟩ := by
  simp [Logged, or_and_right, exists_or]

theorem read_stored {call : Option Text} (hcall : call ≠ some tombstone) :
    (if stored call = tombstone then none else some (stored call)) = call := by
  cases call with
  | none => rfl
  | some value =>
    have hvalue : value ≠ tombstone := fun heq => hcall (congrArg some heq)
    simp [stored, hvalue]

theorem Consistent.txid_inj (h : Consistent s) (hx : s.txns[i]? = some x) {j : Nat}
    (hy : s.txns[j]? = some y) (hij : i ≠ j) : y.txid ≠ x.txid := by
  rw [h.txid j y hy, h.txid i x hx]
  omega

section Active

variable (h : Consistent s) (hx : s.txns[i]? = some x) (hactive : x.status = .active)

include h hx hactive

theorem Consistent.own (hv : v ∈ s.store.versionsAt key) (hid : v.txid = x.txid) :
    ∃ call, x.calls.get? key = some call ∧ v = ⟨x.txid, stored call, false⟩ := by
  rcases (h.versions key v).mp hv with ⟨j, y, hy, -, call, hcall, rfl⟩ | ⟨c, hc, call, -, rfl⟩
  · have hij : j = i := by
      have hyid := h.txid j y hy
      have hxid := h.txid i x hx
      change y.txid = x.txid at hid
      omega
    subst hij
    cases hx.symm.trans hy
    exact ⟨call, hcall, rfl⟩
  · exact absurd hid (h.unlogged x (mem_of_getElem? hx) hactive c hc)

theorem Consistent.mem_others :
    v ∈ s.store.versionsAt key ∧ v.txid ≠ x.txid ↔
      (∃ (j : Nat) (y : Transaction), i ≠ j ∧ s.txns[j]? = some y ∧ y.status = .active ∧
        ∃ call, y.calls.get? key = some call ∧ v = ⟨y.txid, stored call, false⟩) ∨
      Logged s.log key v := by
  rw [h.versions]
  constructor
  · rintro ⟨⟨j, y, hy, hstatus, call, hcall, rfl⟩ | hlogged, hid⟩
    · refine .inl ⟨j, y, fun hij => ?_, hy, hstatus, call, hcall, rfl⟩
      subst hij
      cases hx.symm.trans hy
      exact hid rfl
    · exact .inr hlogged
  · rintro (⟨j, y, hij, hy, hstatus, call, hcall, rfl⟩ | ⟨c, hc, call, hcall, rfl⟩)
    · exact ⟨.inl ⟨j, y, hy, hstatus, call, hcall, rfl⟩, h.txid_inj hx hy hij⟩
    · exact ⟨.inr ⟨c, hc, call, hcall, rfl⟩, h.unlogged x (mem_of_getElem? hx) hactive c hc⟩

theorem Consistent.call (call : Option Text) (hcall : call ≠ some tombstone) :
    Consistent { s with
      store := s.store.write key (stored call) x.txid
      txns := s.txns.set i (x.call key call) } := by
  have hmem := mem_of_getElem? hx
  refine ⟨?_, txid_set h.txid hx rfl, h.committed, ?_, ?_, fun k v => ?_,
    forall_mem_set h.snapshot (h.snapshot x hmem), forall_mem_set h.unlogged (h.unlogged x hmem),
    h.ordered, ?_, h.cleanLog⟩
  · simpa [MVCCStore.write] using h.next
  · simpa using h.logged
  · refine forall_mem_set h.writeSet fun k => ?_
    have hold := h.writeSet x hmem
    rw [Transaction.call, wrote_set, ← hold k]
    split
    · rename_i hin
      exact ⟨.inr, fun hk => hk.elim (fun heq => heq ▸ hin) id⟩
    · exact mem_cons
  · rw [mem_versionsAt_write, staged_set hx]
    by_cases hk : k = key
    · subst hk
      rw [if_pos rfl, h.mem_others hx hactive, or_right_comm]
      refine or_congr (or_congr Iff.rfl ⟨fun hv => ?_, ?_⟩) Iff.rfl
      · exact ⟨hactive, call, by simp [Transaction.call, Dict.get?_set], hv⟩
      · rintro ⟨-, call', hcall', hv⟩
        obtain rfl : call = call' := by simpa [Transaction.call, Dict.get?_set] using hcall'
        exact hv
    · rw [if_neg hk, h.versions]
      refine or_congr ?_ Iff.rfl
      have hsame : (x.call key call).calls.get? k = x.calls.get? k := by
        simp [Transaction.call, Dict.get?_set, hk]
      rw [hsame]
      have hself : Staged (s.txns.set i x) k v ↔ _ := staged_set hx
      rwa [set_eq_self hx] at hself
  · refine forall_mem_set h.cleanTxns fun k => ?_
    rw [Transaction.call, Dict.get?_set]
    split
    · simpa using hcall
    · exact h.cleanTxns x hmem k

theorem Consistent.not_mem_of_not_mem_writeSet (hkey : key ∉ x.writeSet)
    (hv : v ∈ s.store.versionsAt key) : v.txid ≠ x.txid := by
  intro hid
  obtain ⟨call, hcall, -⟩ := h.own hx hactive hv hid
  have hwrote : Wrote x.calls key := Option.isSome_of_eq_some hcall
  exact hkey ((h.writeSet x (mem_of_getElem? hx) key).mpr hwrote)

theorem Consistent.mem_abort :
    v ∈ (s.store.abort x).versionsAt key ↔ v ∈ s.store.versionsAt key ∧ v.txid ≠ x.txid := by
  rw [versionsAt_abort]
  split
  · simp
  · rename_i hkey
    exact ⟨fun hv => ⟨hv, h.not_mem_of_not_mem_writeSet hx hactive hkey hv⟩, And.left⟩

theorem Consistent.mem_install :
    v ∈ (s.store.install x).versionsAt key ↔
      v ∈ s.store.versionsAt key ∧ v.txid ≠ x.txid ∨
        ∃ call, x.calls.get? key = some call ∧ v = ⟨x.txid, stored call, true⟩ := by
  have hwritten := h.writeSet x (mem_of_getElem? hx) key
  rw [versionsAt_install]
  split
  · rw [mem_map]
    constructor
    · rintro ⟨w, hw, rfl⟩
      by_cases hid : w.txid = x.txid
      · obtain ⟨call, hcall, rfl⟩ := h.own hx hactive hw hid
        exact .inr ⟨call, hcall, by simp [MVCCStore.mark]⟩
      · rw [MVCCStore.mark, if_neg hid]
        exact .inl ⟨hw, hid⟩
    · rintro (⟨hv, hid⟩ | ⟨call, hcall, rfl⟩)
      · exact ⟨v, hv, if_neg hid⟩
      · refine ⟨⟨x.txid, stored call, false⟩, (h.versions key _).mpr (.inl ?_), ?_⟩
        · exact ⟨i, x, hx, hactive, call, hcall, rfl⟩
        · simp [MVCCStore.mark]
  · rename_i hkey
    refine ⟨fun hv => .inl ⟨hv, h.not_mem_of_not_mem_writeSet hx hactive hkey hv⟩, ?_⟩
    rintro (⟨hv, -⟩ | ⟨call, hcall, -⟩)
    · exact hv
    · exact absurd (hwritten.mpr (Option.isSome_of_eq_some hcall)) hkey

theorem Consistent.abort :
    Consistent { s with
      store := s.store.abort x
      txns := s.txns.set i { x with status := .aborted } } := by
  have hmem := mem_of_getElem? hx
  refine ⟨?_, txid_set h.txid hx rfl, h.committed, ?_, ?_, fun k v => ?_,
    forall_mem_set h.snapshot (by simp), forall_mem_set h.unlogged (by simp), h.ordered, ?_,
    h.cleanLog⟩
  · simpa [MVCCStore.abort] using h.next
  · simpa using h.logged
  · exact forall_mem_set h.writeSet (h.writeSet x hmem)
  · rw [h.mem_abort hx hactive, h.mem_others hx hactive, staged_set hx]
    simp
  · exact forall_mem_set h.cleanTxns (h.cleanTxns x hmem)

/-- Without a conflict, whoever has committed a key of the write set is in the snapshot. -/
theorem Consistent.le_of_not_conflicts (hfree : s.store.conflicts x = false) (hc : c ∈ s.log)
    (hcKey : Wrote c.calls key) (hxKey : Wrote x.calls key) : c.txid ≤ x.snapshotTxid := by
  obtain ⟨call, hcall⟩ := Option.isSome_iff_exists.mp hcKey
  have hversion : (⟨c.txid, stored call, true⟩ : Version) ∈ s.store.versionsAt key :=
    (h.versions key _).mpr (.inr ⟨c, hc, call, hcall, rfl⟩)
  have hmem := mem_of_getElem? hx
  have hid := h.unlogged x hmem hactive c hc
  by_contra hlt
  refine Bool.eq_false_iff.mp hfree ?_
  refine any_eq_true.mpr ⟨key, (h.writeSet x hmem key).mpr hxKey, ?_⟩
  exact any_eq_true.mpr ⟨_, hversion, by simpa using ⟨hid, not_le.mp hlt⟩⟩

theorem Consistent.install (hfree : s.store.conflicts x = false) :
    Consistent {
      store := s.store.install x
      txns := s.txns.set i { x with status := .committed }
      log := s.log ++ [⟨x.txid, x.base, x.calls⟩] } := by
  have hmem := mem_of_getElem? hx
  refine ⟨?_, txid_set h.txid hx rfl, fun n => ?_, ?_, ?_, fun k v => ?_,
    forall_mem_set h.snapshot (by simp), fun y hy hstatus => ?_, ?_, ?_, ?_⟩
  · simpa [MVCCStore.install] using h.next
  · rw [MVCCStore.install, mem_cons, h.committed]
    simp only [mem_append, mem_singleton, or_and_right, exists_or, exists_eq_left]
    rw [or_left_comm, or_comm (a := n = x.txid), eq_comm (a := n) (b := x.txid)]
  · refine forall_mem_concat ?_ ?_
    · simpa using h.logged
    · have hid := h.txid i x hx
      have hlt := lt_length_of_getElem? hx
      simp only [length_set]
      omega
  · exact forall_mem_set h.writeSet (h.writeSet x hmem)
  · rw [h.mem_install hx hactive, h.mem_others hx hactive, staged_set hx, logged_concat]
    simp [or_assoc]
  · obtain ⟨j, hj⟩ := mem_iff_getElem?.mp hy
    rcases getElem?_set_cases hj with ⟨hij, hj⟩ | ⟨-, rfl⟩
    · exact forall_mem_concat (h.unlogged y (mem_of_getElem? hj) hstatus)
        (h.txid_inj hx hj hij).symm
    · contradiction
  · refine pairwise_concat h.ordered fun c hc k hcKey hdKey => ?_
    exact lt_of_le_of_lt (h.le_of_not_conflicts hx hactive hfree hc hcKey hdKey)
      (h.snapshot x hmem hactive)
  · exact forall_mem_set h.cleanTxns (h.cleanTxns x hmem)
  · exact forall_mem_concat h.cleanLog (h.cleanTxns x hmem)

theorem mem_visible_of_call {call : Option Text} (hcall : x.calls.get? key = some call) :
    (⟨x.txid, stored call, false⟩ : Version) ∈
      (s.store.versionsAt key).filter (MVCCStore.visible x.snapshotTxid x.txid) := by
  refine mem_filter.mpr ⟨(h.versions key _).mpr (.inl ?_), by simp [MVCCStore.visible]⟩
  exact ⟨i, x, hx, hactive, call, hcall, rfl⟩

theorem Consistent.get_of_call {call : Option Text} (hcall : x.calls.get? key = some call) :
    x.get s.store key = call := by
  have hmem := mem_of_getElem? hx
  have hlt := h.snapshot x hmem hactive
  have hown := mem_visible_of_call h hx hactive hcall
  obtain ⟨best, hnewest, hread⟩ := exists_best s.store key x.snapshotTxid x.txid
  rw [Transaction.get, hread]
  cases best with
  | none =>
    rw [show _ = [] from hnewest] at hown
    exact absurd hown not_mem_nil
  | some v =>
    obtain ⟨hv, hmax⟩ := hnewest
    have hge := hmax _ hown
    obtain ⟨hv, hvisible⟩ := mem_filter.mp hv
    have hid : v.txid = x.txid := by
      simp only [MVCCStore.visible, Bool.or_eq_true, Bool.and_eq_true, decide_eq_true_eq,
        beq_iff_eq] at hvisible
      change x.txid ≤ v.txid at hge
      omega
    obtain ⟨call', hcall', rfl⟩ := h.own hx hactive hv hid
    cases hcall.symm.trans hcall'
    exact read_stored fun heq => h.cleanTxns x hmem key (hcall.trans (congrArg some heq))

end Active

variable {a : Event}

theorem exists_of_step (hi : a.txn = some i) (hstep : step s a = some t) :
    ∃ x, s.txns[i]? = some x ∧ x.status = .active ∧ t = stepTxn s i x a := by
  rw [step, hi] at hstep
  obtain ⟨x, hx, hstep⟩ := Option.bind_eq_some_iff.mp hstep
  obtain ⟨hactive, hstep⟩ := Option.ite_none_right_eq_some.mp hstep
  exact ⟨x, hx, hactive, (Option.some.inj hstep).symm⟩

def Plain : Event → Prop
  | .set _ _ value => value ≠ tombstone
  | _ => True

theorem Consistent.step (h : Consistent s) (hstep : TransactionStore.step s a = some t)
    (hplain : Plain a) : Consistent t := by
  cases a with
  | begin => exact h.begin hstep
  | set i key value =>
    obtain ⟨x, hx, hactive, rfl⟩ := exists_of_step (i := i) rfl hstep
    have hvalue : value ≠ tombstone := hplain
    exact h.call hx hactive (some value) (by simpa using hvalue)
  | delete i key =>
    obtain ⟨x, hx, hactive, rfl⟩ := exists_of_step (i := i) rfl hstep
    exact h.call hx hactive none (by simp)
  | commit i =>
    obtain ⟨x, hx, hactive, rfl⟩ := exists_of_step (i := i) rfl hstep
    rw [stepTxn]
    split
    · exact h.abort hx hactive
    · rename_i hfree
      exact h.install hx hactive (by simpa using hfree)
  | abort i =>
    obtain ⟨x, hx, hactive, rfl⟩ := exists_of_step (i := i) rfl hstep
    exact h.abort hx hactive

section Snapshots

variable {a : Event}

theorem Orderly.plain (h : Orderly s a) : Plain a := by
  cases a with
  | set i key value => exact h
  | _ => trivial

theorem Opened.concat {log : List Commit} (h : Opened log y)
    (hwrote : ∀ key, Wrote c.calls key → y.snapshotTxid < c.txid) : Opened (log ++ [c]) y := by
  have hbase := h.base
  refine ⟨by simp; omega, ?_, ?_⟩
  · rw [take_append_of_le_length hbase]
    exact h.before
  · rw [drop_append_of_le_length hbase]
    exact forall_mem_concat h.after hwrote

theorem Inv.of_set (h : Inv s) (hx : s.txns[i]? = some x) (ht : Consistent t)
    (htxns : t.txns = s.txns.set i y) (hlog : t.log = s.log) (hbase : y.base = x.base)
    (hsnapshot : y.snapshotTxid = x.snapshotTxid) (hactive : x.status = .active) : Inv t := by
  have hopened := h.opened x (mem_of_getElem? hx) hactive
  refine ⟨ht, ?_, by rw [hlog]; exact h.exclusive⟩
  rw [htxns, hlog]
  refine forall_mem_set h.opened fun _ => ⟨?_, ?_, ?_⟩
  · rw [hbase]
    exact hopened.base
  · rw [hbase, hsnapshot]
    exact hopened.before
  · rw [hbase, hsnapshot]
    exact hopened.after

theorem Inv.begin (h : Inv s) (hstep : TransactionStore.step s .begin = some t) : Inv t := by
  have hconsistent := h.toConsistent.begin hstep
  cases hstep
  refine ⟨hconsistent, ?_, h.exclusive⟩
  refine forall_mem_concat h.opened fun _ => ⟨le_rfl, fun c hc => ?_, by simp⟩
  exact (foldl_max_spec s.store.committedTxids 0).1 _
    ((h.committed _).mpr (.inr ⟨c, mem_of_mem_take hc, rfl⟩))

/-- The condition keeps a commit behind the snapshot of every open transaction. -/
theorem Inv.install (h : Inv s) (hx : s.txns[i]? = some x) (hactive : x.status = .active)
    (hfree : s.store.conflicts x = false) (hok : Orderly s (.commit i)) :
    Inv {
      store := s.store.install x
      txns := s.txns.set i { x with status := .committed }
      log := s.log ++ [⟨x.txid, x.base, x.calls⟩] } := by
  have hmem := mem_of_getElem? hx
  refine ⟨h.toConsistent.install hx hactive hfree, fun y hy hstatus => ?_,
    fun j d hd c hc k hdKey hcKey => ?_⟩
  · obtain ⟨j, hj⟩ := mem_iff_getElem?.mp hy
    rcases getElem?_set_cases hj with ⟨hij, hj⟩ | ⟨-, rfl⟩
    · have hyMem := mem_of_getElem? hj
      refine (h.opened y hyMem hstatus).concat fun k hk => ?_
      refine hok x hx hfree ?_ y hyMem hstatus (h.txid_inj hx hj hij)
      exact ne_nil_of_mem ((h.writeSet x hmem k).mpr hk)
    · contradiction
  · rcases getElem?_concat_cases hd with hd | ⟨rfl, rfl⟩
    · have hlt := lt_length_of_getElem? hd
      rw [take_append_of_le_length hlt.le] at hc
      exact h.exclusive j d hd c hc k hdKey hcKey
    · rw [take_left] at hc
      have hle := h.le_of_not_conflicts hx hactive hfree (mem_of_mem_drop hc) hcKey hdKey
      have hlt := (h.opened x hmem hactive).after c hc k hcKey
      omega

theorem Inv.step (h : Inv s) (hok : Orderly s a) (hstep : TransactionStore.step s a = some t) :
    Inv t := by
  have hconsistent := h.toConsistent.step hstep hok.plain
  cases a with
  | begin => exact h.begin hstep
  | set i key value =>
    obtain ⟨x, hx, hactive, rfl⟩ := exists_of_step (i := i) rfl hstep
    exact h.of_set hx hconsistent rfl rfl rfl rfl hactive
  | delete i key =>
    obtain ⟨x, hx, hactive, rfl⟩ := exists_of_step (i := i) rfl hstep
    exact h.of_set hx hconsistent rfl rfl rfl rfl hactive
  | commit i =>
    obtain ⟨x, hx, hactive, rfl⟩ := exists_of_step (i := i) rfl hstep
    rw [stepTxn] at hconsistent ⊢
    split at hconsistent
    · rename_i hconflict
      rw [if_pos hconflict]
      exact h.of_set hx hconsistent rfl rfl rfl rfl hactive
    · rename_i hfree
      rw [if_neg hfree]
      exact h.install hx hactive (by simpa using hfree) hok
  | abort i =>
    obtain ⟨x, hx, hactive, rfl⟩ := exists_of_step (i := i) rfl hstep
    exact h.of_set hx hconsistent rfl rfl rfl rfl hactive

end Snapshots

section Reads

/-- Without an own call, a transaction sees the transactions that had committed before it. -/
theorem Inv.mem_visible_iff (h : Inv s) (hx : s.txns[i]? = some x) (hactive : x.status = .active)
    (hcall : x.calls.get? key = none) :
    v ∈ (s.store.versionsAt key).filter (MVCCStore.visible x.snapshotTxid x.txid) ↔
      Logged (s.log.take x.base) key v := by
  have hopened := h.opened x (mem_of_getElem? hx) hactive
  rw [mem_filter]
  simp only [MVCCStore.visible, Bool.or_eq_true, Bool.and_eq_true, decide_eq_true_eq, beq_iff_eq]
  constructor
  · rintro ⟨hv, hvisible⟩
    have hid : v.txid ≠ x.txid := by
      intro hid
      obtain ⟨call, hsome, -⟩ := h.own hx hactive hv hid
      rw [hcall] at hsome
      contradiction
    obtain ⟨hcommitted, hle⟩ := hvisible.resolve_right hid
    rcases (h.versions key v).mp hv with ⟨j, y, -, -, call, -, rfl⟩ | ⟨c, hc, call, hsome, rfl⟩
    · contradiction
    · refine ⟨c, ?_, call, hsome, rfl⟩
      rw [← take_append_drop x.base s.log] at hc
      rcases mem_append.mp hc with hc | hc
      · exact hc
      · have hlt := hopened.after c hc key (Option.isSome_of_eq_some hsome)
        exact absurd hle (not_le.mpr hlt)
  · rintro ⟨c, hc, call, hsome, rfl⟩
    refine ⟨(h.versions key _).mpr (.inr ⟨c, mem_of_mem_take hc, call, hsome, rfl⟩), ?_⟩
    exact .inl ⟨rfl, hopened.before c hc⟩

variable {log : List Commit}

/-- The version with the greatest id is the one of the last commit. -/
theorem committedCall_of_newest {vs : List Version} {best : Option Version}
    (hordered : log.Pairwise fun c d => ∀ key, Wrote c.calls key → Wrote d.calls key → c.txid <
      d.txid)
    (hvs : ∀ v, v ∈ vs ↔ Logged log key v) (hnewest : Newest Version.txid vs best) :
    best.map Version.value = (committedCall log key).map stored := by
  cases hcall : committedCall log key with
  | none =>
    cases best with
    | none => rfl
    | some v =>
      obtain ⟨c, hc, call, hsome, -⟩ := (hvs v).mp hnewest.1
      have hnone := findSome?_eq_none_iff.mp hcall c (mem_reverse.mpr hc)
      rw [hsome] at hnone
      contradiction
  | some call =>
    obtain ⟨before, c, after, rfl, hsome, hafter⟩ := findSome?_reverse_eq_some_iff.mp hcall
    have hmem := (hvs _).mpr ⟨c, by simp, call, hsome, rfl⟩
    cases best with
    | none =>
      rw [show vs = [] from hnewest] at hmem
      exact absurd hmem not_mem_nil
    | some v =>
      obtain ⟨hv, hmax⟩ := hnewest
      have hge := hmax _ hmem
      obtain ⟨d, hd, call', hsome', rfl⟩ := (hvs v).mp hv
      have hwrote : Wrote d.calls key := Option.isSome_of_eq_some hsome'
      rcases mem_append.mp hd with hd | hd
      · have hlt := (pairwise_append.mp hordered).2.2 d hd c (by simp) key hwrote
          (Option.isSome_of_eq_some hsome)
        exact absurd hge (not_le.mpr hlt)
      · rcases mem_cons.mp hd with rfl | hd
        · cases hsome.symm.trans hsome'
          rfl
        · rw [hafter d hd] at hsome'
          contradiction

/-- What a transaction reads when it sees the versions of some of the commits. -/
theorem Consistent.get_of_visible (h : Consistent s) (hlog : log.Sublist s.log)
    (hvisible : ∀ v, v ∈ (s.store.versionsAt key).filter
      (MVCCStore.visible x.snapshotTxid x.txid) ↔ Logged log key v) :
    x.get s.store key = (committedCall log key).join := by
  obtain ⟨best, hnewest, hread⟩ := exists_best s.store key x.snapshotTxid x.txid
  have hvalue := committedCall_of_newest (h.ordered.sublist hlog) hvisible hnewest
  have hbind : x.get s.store key = (best.map Version.value).bind fun value =>
      if value = tombstone then none else some value := by
    rw [Transaction.get, hread, Option.bind_map]
    rfl
  rw [hbind, hvalue, Option.bind_map]
  cases hlast : committedCall log key with
  | none => rfl
  | some call =>
    obtain ⟨before, c, after, hsplit, hsome, -⟩ := findSome?_reverse_eq_some_iff.mp hlast
    have hc : c ∈ log := by simp [hsplit]
    exact read_stored fun heq => h.cleanLog c (hlog.subset hc) key (hsome.trans (congrArg some heq))

end Reads

/-- The value that a transaction should see: its own last call, or the last call of the
transactions that had committed when it began. -/
def seen (log : List Commit) (x : Transaction) (key : Text) : Option Text :=
  ((x.calls.get? key).or (committedCall (log.take x.base) key)).join

theorem Inv.get_eq_seen (h : Inv s) (hx : s.txns[i]? = some x) (hactive : x.status = .active)
    (key : Text) : x.get s.store key = seen s.log x key := by
  rw [seen]
  cases hcall : x.calls.get? key with
  | none =>
    exact h.get_of_visible (take_sublist x.base s.log) fun v => h.mem_visible_iff hx hactive hcall
  | some call => exact h.get_of_call hx hactive hcall

/-- What stays of the commits and of the transactions. -/
structure Extends (s t : State) : Prop where
  log : s.log <+: t.log
  base : ∀ (i : Nat) x, s.txns[i]? = some x → ∃ y, t.txns[i]? = some y ∧ y.base = x.base

theorem Extends.refl (s : State) : Extends s s :=
  ⟨prefix_rfl, fun _ x hx => ⟨x, hx, rfl⟩⟩

theorem Extends.trans {u : State} (h : Extends s t) (h' : Extends t u) : Extends s u := by
  refine ⟨h.log.trans h'.log, fun i x hx => ?_⟩
  obtain ⟨y, hy, hbase⟩ := h.base i x hx
  obtain ⟨z, hz, hbase'⟩ := h'.base i y hy
  exact ⟨z, hz, hbase'.trans hbase⟩

theorem extends_set (hx : s.txns[i]? = some x) (hlog : s.log <+: t.log)
    (htxns : t.txns = s.txns.set i y) (hbase : y.base = x.base) : Extends s t := by
  refine ⟨hlog, fun j z hz => ?_⟩
  rw [htxns]
  by_cases hij : i = j
  · subst hij
    cases hx.symm.trans hz
    exact ⟨y, getElem?_set_self (lt_length_of_getElem? hx), hbase⟩
  · exact ⟨z, (getElem?_set_ne hij).trans hz, rfl⟩

theorem extends_of_step (hstep : step s a = some t) : Extends s t := by
  cases a with
  | begin =>
    cases hstep
    refine ⟨prefix_rfl, fun i x hx => ⟨x, ?_, rfl⟩⟩
    rw [getElem?_append_left (lt_length_of_getElem? hx), hx]
  | set i key value =>
    obtain ⟨x, hx, -, rfl⟩ := exists_of_step (i := i) rfl hstep
    exact extends_set hx prefix_rfl rfl rfl
  | delete i key =>
    obtain ⟨x, hx, -, rfl⟩ := exists_of_step (i := i) rfl hstep
    exact extends_set hx prefix_rfl rfl rfl
  | commit i =>
    obtain ⟨x, hx, -, rfl⟩ := exists_of_step (i := i) rfl hstep
    rw [stepTxn]
    split
    · exact extends_set hx prefix_rfl rfl rfl
    · exact extends_set hx (prefix_append ..) rfl rfl
  | abort i =>
    obtain ⟨x, hx, -, rfl⟩ := exists_of_step (i := i) rfl hstep
    exact extends_set hx prefix_rfl rfl rfl

theorem Inv.seen_eq (h : Inv s) (hst : Extends s t) (hx : s.txns[i]? = some x)
    (hactive : x.status = .active) (hy : t.txns[i]? = some y)
    (hcalls : y.calls.get? key = x.calls.get? key) : seen t.log y key = seen s.log x key := by
  obtain ⟨y', hy', hbase⟩ := hst.base i x hx
  cases hy.symm.trans hy'
  obtain ⟨later, hlater⟩ := hst.log
  rw [seen, seen, hcalls, hbase, ← hlater, take_append_of_le_length]
  exact (h.opened x (mem_of_getElem? hx) hactive).base

/-- Snapshot isolation. In a run from here on that meets `ok`, a transaction that has not
written the key in between reads the same value again. -/
structure Isolated (ok : State → Event → Prop) (s : State) : Prop where
  reads : ∀ (i : Nat) x, s.txns[i]? = some x → x.status = .active →
    ∀ key, x.get s.store key = seen s.log x key
  repeatable : ∀ t, Reaches step ok s t → ∀ (i : Nat) x y, s.txns[i]? = some x →
    t.txns[i]? = some y → x.status = .active → y.status = .active →
    ∀ key, y.calls.get? key = x.calls.get? key → y.get t.store key = x.get s.store key
  writers : ∀ (j : Nat) d, s.log[j]? = some d → ∀ c ∈ (s.log.take j).drop d.base,
    ∀ key, Wrote d.calls key → ¬Wrote c.calls key

theorem isolated_of_orderly (h : Reaches step Orderly init s) : Isolated Orderly s := by
  have hstep : ∀ u a w, Inv u → Orderly u a → step u a = some w → Inv w :=
    fun _ _ _ hu ha hw => hu.step ha hw
  have hinv : Inv s := h.invariant Inv inv_init hstep
  refine ⟨fun i x hx hactive => hinv.get_eq_seen hx hactive, ?_, hinv.exclusive⟩
  intro t ht i x y hx hy hxActive hyActive key hcalls
  have htInv : Inv t := ht.invariant Inv hinv hstep
  have hst : Extends s t := ht.invariant (Extends s) (Extends.refl s)
    fun _ _ _ hu _ hw => hu.trans (extends_of_step hw)
  calc y.get t.store key
    _ = seen t.log y key := htInv.get_eq_seen hy hyActive key
    _ = seen s.log x key := hinv.seen_eq hst hx hxActive hy hcalls
    _ = x.get s.store key := (hinv.get_eq_seen hx hxActive key).symm

/-- Two transactions write one key; the first one to commit wins, and a third one that
began before sees neither of them. -/
def competing : List Event :=
  [.begin, .set 0 ['k'] ['a'], .commit 0, .begin, .begin, .begin, .set 1 ['k'] ['b'],
    .set 2 ['k'] ['c'], .commit 1, .commit 2]

theorem isolated_of_competing : ∃ s, Reaches step Orderly init s ∧
    (s.log.length = 2 ∧ ∃ x ∈ s.txns[3]?, x.get s.store ['k'] = some ['a']) ∧
    Isolated Orderly s := by
  obtain ⟨s, hs, htest⟩ := exists_reaches step Orderly init competing
    (fun s => s.log.length = 2 ∧ ∃ x ∈ s.txns[3]?, x.get s.store ['k'] = some ['a'])
    (by decide +kernel)
  exact ⟨s, hs, htest, isolated_of_orderly hs⟩

/-- The first transaction commits behind the second one, whose id is the snapshot of the
third. -/
def overtaken : List Event :=
  [.begin, .begin, .commit 1, .begin, .set 0 ['k'] ['a'], .commit 0]

theorem not_isolated_of_overtaken : ¬∀ s, Reaches step (fun _ _ => True) init s →
    Isolated (fun _ _ => True) s := by
  intro hall
  obtain ⟨s, hs, x, hx, hactive, hne⟩ := exists_reaches step (fun _ _ => True) init overtaken
    (fun s => ∃ x ∈ s.txns[2]?, x.status = .active ∧ x.get s.store ['k'] ≠ seen s.log x ['k'])
    (by decide +kernel)
  exact hne ((hall s hs).reads 2 x hx hactive ['k'])

end LiteDB.OptimisticIsolation
