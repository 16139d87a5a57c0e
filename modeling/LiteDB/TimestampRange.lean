import LiteDB.SnapshotReads

namespace LiteDB.TimestampRange

open ClusterTransactions List Runs SnapshotReads SortedMaps
open ShardLedger (Command.Storable)
open ShardReplica (HLC Job)
open ShardStore VersionKeys

variable {Shard : Type}

def walls : Event Shard → List Int
  | .begin _ wall | .write _ _ _ _ wall => [wall]
  | .start _ _ wall wall' => [wall, wall']
  | _ => []

def clientTs : Event Shard → Option Int
  | .write _ _ _ readTs _ => readTs
  | _ => none

def versionStamps (store : Store) : Command → List Int
  | .write ts writes => writes.map fun _ => ts
  | .commit txnId =>
      match store.intents.get? txnId with
      | some (commitTs, writes) => writes.map fun _ => commitTs
      | none => []
  | .control | .prepare _ _ _ | .abort _ => []

def passedBy (s : Cluster Shard) : Event Shard → List Int
  | .execute i =>
      match s.calls[i]? with
      | some (shard, command) => versionStamps (s.stores shard) command
      | none => []
  | _ => []

/-- A cluster with the number of clock readings so far and all timestamps that were passed
to `_version_key`. -/
structure Traced (Shard : Type) where
  cluster : Cluster Shard
  readings : Nat
  passed : List Int

def start : Traced Shard := ⟨init, 0, []⟩

/-- Wall clocks show values from `0` to `2 ^ 62`. -/
def WallsInRange (_ : Traced Shard) (a : Event Shard) : Prop :=
  ∀ wall ∈ walls a, 0 ≤ wall ∧ wall ≤ 2 ^ 62

instance (s : Traced Shard) (a : Event Shard) : Decidable (WallsInRange s a) :=
  inferInstanceAs (Decidable (∀ wall ∈ walls a, _))

/-- Besides, the clients send no read timestamp above `highest`, and the clocks are read at
most `budget` times. -/
def Frugal (highest : Int) (budget : Nat) (s : Traced Shard) (a : Event Shard) : Prop :=
  WallsInRange s a ∧ (∀ readTs ∈ clientTs a, readTs ≤ highest) ∧
    s.readings + (walls a).length ≤ budget

instance (highest : Int) (budget : Nat) (s : Traced Shard) (a : Event Shard) :
    Decidable (Frugal highest budget s a) :=
  inferInstanceAs (Decidable (_ ∧ _))

def stampOf : Command → Option Int
  | .write ts _ => some ts
  | .prepare _ commitTs _ => some commitTs
  | .control | .commit _ | .abort _ => none

/-- No clock is more than `k` ticks past `bound`, and everything that may reach a version
key is in range. -/
structure Bounded (bound : Int) (k : Nat) (s : Cluster Shard) : Prop where
  clocks : ∀ node, 0 ≤ (s.clocks node).last ∧ (s.clocks node).last ≤ bound + k
  calls : ∀ call ∈ s.calls, ∀ ts ∈ stampOf call.2, InRange ts
  coordinators : ∀ id c, s.coordinators id = some c → InRange c.record.commitTs
  stores : ∀ shard, ∀ e ∈ (s.stores shard).intents.entries, InRange e.2.1

section Clocks

variable {bound : Int} {k : Nat} {h : HLC} {wall readTs : Int}

theorem now_bounded (hlast : 0 ≤ h.last ∧ h.last ≤ bound + k) (hwall : 0 ≤ wall ∧ wall ≤ bound) :
    (h.now wall).1.last = (h.now wall).2 ∧ 0 ≤ (h.now wall).2 ∧
      (h.now wall).2 ≤ bound + (k + 1 : Nat) := by
  refine ⟨rfl, ?_⟩
  simp only [HLC.now]
  split <;> omega

theorem update_bounded (hlast : 0 ≤ h.last ∧ h.last ≤ bound + k)
    (hwall : 0 ≤ wall ∧ wall ≤ bound) (hread : readTs ≤ bound) :
    (h.update readTs wall).1.last = (h.update readTs wall).2 ∧
      0 ≤ (h.update readTs wall).2 ∧ (h.update readTs wall).2 ≤ bound + (k + 1 : Nat) := by
  refine ⟨rfl, ?_⟩
  simp only [HLC.update]
  omega

end Clocks

section Steps

variable {bound : Int} {k : Nat} {s t : Cluster Shard}

theorem bounded_init (hbound : 0 ≤ bound) : Bounded bound 0 (init : Cluster Shard) where
  clocks := fun _ => ⟨le_rfl, by simpa [init] using hbound⟩
  calls := fun _ hcall => absurd hcall not_mem_nil
  coordinators := by simp [init]
  stores := fun _ _ he => absurd he not_mem_nil

theorem Bounded.tick (h : Bounded bound k s) {clock : HLC} {j : Nat} (hj : k ≤ j)
    (hclock : 0 ≤ clock.last ∧ clock.last ≤ bound + j) (node : Text) (wall : Int) :
    Bounded bound j (s.tick node clock wall) := by
  refine { h with clocks := fun n => ?_ }
  by_cases hn : n = node
  · simpa [Cluster.tick, hn] using hclock
  · have := h.clocks n
    simp only [Cluster.tick, Function.update_of_ne hn]
    omega

theorem Bounded.call (h : Bounded bound k s) {command : Command}
    (hcommand : ∀ ts ∈ stampOf command, InRange ts) (shard : Shard) :
    Bounded bound k (s.call shard command) := by
  refine { h with calls := fun call hcall => ?_ }
  rcases mem_append.mp hcall with hold | hnew
  · exact h.calls call hold
  · rw [mem_singleton.mp hnew]
    exact hcommand

theorem stampOf_inRange {command : Command} (h : Command.Storable command) :
    ∀ ts ∈ stampOf command, InRange ts := by
  intro ts hts
  cases command with
  | write => exact Option.some.inj hts ▸ h.2
  | prepare => exact Option.some.inj hts ▸ h.2
  | control | commit | abort => exact absurd hts (Option.not_mem_none ts)

theorem Bounded.settles (h : Bounded bound k s) (hbound : 0 ≤ bound) (hst : Settles s t) :
    Bounded bound k t where
  clocks := by
    intro n
    rcases hst.clocks n with heq | heq
    · rw [heq]
      exact h.clocks n
    · rw [heq]
      exact ⟨le_rfl, show (0 : Int) ≤ bound + k by omega⟩
  calls := by
    intro call hcall
    rcases hst.calls call hcall with hold | ⟨hstorable, -⟩ | ⟨id, c, g, hc, -, rfl⟩
    · exact h.calls call hold
    · exact stampOf_inRange hstorable
    · exact fun ts hts => Option.some.inj hts ▸ h.coordinators id c hc
  coordinators := by
    intro id c hc
    obtain ⟨c', hc', hrecord, -⟩ := hst.coordinators id c hc
    rw [hrecord]
    exact h.coordinators id c' hc'
  stores := hst.stores ▸ h.stores

theorem versionStamps_inRange {store : Store} {command : Command}
    (hcommand : ∀ ts ∈ stampOf command, InRange ts)
    (hstore : ∀ e ∈ store.intents.entries, InRange e.2.1) :
    ∀ ts ∈ versionStamps store command, InRange ts := by
  intro ts hts
  cases command with
  | write ts' writes =>
    obtain ⟨w, -, rfl⟩ := mem_map.mp hts
    exact hcommand ts' rfl
  | commit txnId =>
    simp only [versionStamps] at hts
    split at hts
    next commitTs writes hget =>
      obtain ⟨w, -, rfl⟩ := mem_map.mp hts
      exact hstore _ (Dict.get?_eq_some_iff.mp hget)
    next => exact absurd hts not_mem_nil
  | control | prepare | abort => exact absurd hts not_mem_nil

variable [DecidableEq Shard]

theorem Bounded.execute (h : Bounded bound k s) {shard : Shard} {command : Command}
    (hcall : (shard, command) ∈ s.calls) : Bounded bound k (s.execute shard command) := by
  refine { h with stores := fun shard' e he => ?_ }
  by_cases hs : shard' = shard
  · subst hs
    replace he : e ∈ ((s.stores shard').apply command).intents.entries := by
      simpa [Cluster.execute] using he
    rcases Store.mem_intents_apply he with hold | rfl
    · exact h.stores shard' e hold
    · exact h.calls _ hcall _ rfl
  · exact h.stores shard' e (by simpa [Cluster.execute, hs] using he)

theorem stamp_bounded {h : HLC} {wall : Int} {readTs : Option Int} (store : Store)
    (writes : Dict Text (Option Text)) (hlast : 0 ≤ h.last ∧ h.last ≤ bound + k)
    (hwall : 0 ≤ wall ∧ wall ≤ bound) (hread : ∀ r ∈ readTs, r ≤ bound) :
    let job := Job.write writes readTs
    let stamped := job.stamp h (job.snapshot store) wall
    stamped.1.last = stamped.2 ∧ 0 ≤ stamped.2 ∧ stamped.2 ≤ bound + (k + 1 : Nat) := by
  cases readTs with
  | none => exact now_bounded hlast hwall
  | some r => exact update_bounded hlast hwall (hread r rfl)

theorem Bounded.step {a : Event Shard} (h : Bounded bound k s) (hbound : 0 ≤ bound)
    (hstep : ClusterTransactions.step s a = some t)
    (hwalls : ∀ wall ∈ walls a, 0 ≤ wall ∧ wall ≤ bound)
    (hread : ∀ readTs ∈ clientTs a, readTs ≤ bound)
    (hmax : bound + (k + (walls a).length : Nat) ≤ maxTs) :
    Bounded bound (k + (walls a).length) t := by
  cases a with
  | begin node wall =>
    cases hstep
    obtain ⟨hlast, hrange⟩ := now_bounded (h.clocks node) (hwalls wall (by simp [walls]))
    exact { h.tick (Nat.le_succ k) (hlast ▸ hrange) node wall with }
  | write node shard writes readTs wall =>
    cases hstep
    obtain ⟨hlast, hrange⟩ := stamp_bounded (s.stores shard) writes (h.clocks node)
      (hwalls wall (by simp [walls])) hread
    refine (h.tick (Nat.le_succ k) (hlast ▸ hrange) node wall).call (fun ts hts => ?_) shard
    cases hts
    exact ⟨hrange.1, hrange.2.trans hmax⟩
  | start node groups wall wall' =>
    cases hstep
    obtain ⟨hlast, hrange⟩ := now_bounded (h.clocks node) (hwalls wall (by simp [walls]))
    obtain ⟨hlast', hrange'⟩ := now_bounded (hlast ▸ hrange) (hwalls wall' (by simp [walls]))
    have htick := h.tick (Nat.le_add_right k 2) (hlast' ▸ hrange') node wall'
    refine { htick with coordinators := fun id c hc => ?_ }
    by_cases hid : id = txnName node ((s.clocks node).now wall).2
    · obtain rfl : _ = c := by simpa [Cluster.setCoordinator, hid] using hc
      exact ⟨hrange'.1, hrange'.2.trans hmax⟩
    · exact h.coordinators id c (by
        simpa [Cluster.setCoordinator, Cluster.txnWrite, Cluster.tick, hid] using hc)
  | execute i =>
    obtain ⟨⟨shard, command⟩, hcall, rfl⟩ := Option.map_eq_some_iff.mp hstep
    exact (h.execute (mem_of_getElem? hcall)).settles hbound (settles_eraseCall s shard command i)
  | prepare | vote | decide | send | ack | finish | sweep | recover | drop | crash =>
    exact h.settles hbound (settles_of_quiet hstep trivial)

omit [DecidableEq Shard] in
theorem passedBy_inRange (h : Bounded bound k s) (a : Event Shard) :
    ∀ ts ∈ passedBy s a, InRange ts := by
  intro ts hts
  unfold passedBy at hts
  split at hts
  · split at hts
    next shard command hcall =>
      exact versionStamps_inRange (h.calls _ (mem_of_getElem? hcall)) (h.stores shard) ts hts
    next => exact absurd hts not_mem_nil
  · exact absurd hts not_mem_nil

end Steps

section Runs

variable [DecidableEq Shard]

def step (s : Traced Shard) (a : Event Shard) : Option (Traced Shard) :=
  (ClusterTransactions.step s.cluster a).map fun cluster =>
    ⟨cluster, s.readings + (walls a).length, s.passed ++ passedBy s.cluster a⟩

theorem length_versionKey {key : Text} {ts : Int} (h : InRange ts) :
    (versionKey key ts).length = key.length + 17 := by
  rw [versionKey_eq h, length_append, length_cons, length_suffix]

theorem versionKey_lt_iff {key : Text} {ts ts' : Int} (h : InRange ts) (h' : InRange ts') :
    versionKey key ts < versionKey key ts' ↔ ts' < ts := by
  rw [versionKey_eq h, versionKey_eq h', Lexicographic.append_lt_append_iff,
    cons_lt_cons_self, suffix_lt_iff h h']

/-- In every run with at most `budget` readings of clocks and no read timestamp above
`highest`, where the two leave room below `2 ^ 63`, every timestamp in a version key is in
range. -/
theorem passed_inRange {highest : Int} {budget : Nat} {s : Traced Shard}
    (hroom : max highest (2 ^ 62) + budget ≤ maxTs)
    (h : Reaches step (Frugal highest budget) start s) :
    (∀ ts ∈ s.passed, InRange ts) ∧
      (∀ ts ∈ s.passed, ∀ key, (versionKey key ts).length = key.length + 17) ∧
      ∀ ts ∈ s.passed, ∀ ts' ∈ s.passed, ∀ key,
        versionKey key ts < versionKey key ts' ↔ ts' < ts := by
  have hinv : Bounded (max highest (2 ^ 62)) s.readings s.cluster ∧
      ∀ ts ∈ s.passed, InRange ts := by
    refine h.invariant
      (fun s => Bounded (max highest (2 ^ 62)) s.readings s.cluster ∧ ∀ ts ∈ s.passed, InRange ts)
      ⟨bounded_init (by omega), fun _ hts => absurd hts not_mem_nil⟩ ?_
    rintro u a w ⟨hu, hpassed⟩ ⟨hwalls, hread, hbudget⟩ hw
    obtain ⟨cluster, hcluster, rfl⟩ := Option.map_eq_some_iff.mp hw
    refine ⟨hu.step (by omega) hcluster (fun wall hwall => ?_) (fun r hr => ?_) ?_, ?_⟩
    · have := hwalls wall hwall
      omega
    · exact (hread r hr).trans (le_max_left _ _)
    · omega
    · intro ts hts
      rcases mem_append.mp hts with hold | hnew
      · exact hpassed ts hold
      · exact passedBy_inRange hu a ts hnew
  refine ⟨hinv.2, fun ts hts key => length_versionKey (hinv.2 ts hts), ?_⟩
  exact fun ts hts ts' hts' key => versionKey_lt_iff (hinv.2 ts hts) (hinv.2 ts' hts')

end Runs

/-- A write at a snapshot, and a transaction over two shards of which one has committed. -/
def twoWrites : List (Event Bool) :=
  [.begin "n".toList 5,
    .write "n".toList true (Dict.empty.set "a".toList (some "1".toList)) (some (2 ^ 61)) 7,
    .execute 0,
    .start "n".toList
      ((Dict.empty.set true (Dict.empty.set "a".toList (some "2".toList))).set false
        (Dict.empty.set "b".toList none)) 8 9,
    .prepare (txnName "n".toList (2 ^ 61 + 2)), .execute 0,
    .vote (txnName "n".toList (2 ^ 61 + 2)) true,
    .prepare (txnName "n".toList (2 ^ 61 + 2)), .execute 0,
    .vote (txnName "n".toList (2 ^ 61 + 2)) true, .decide (txnName "n".toList (2 ^ 61 + 2)),
    .send 0, .execute 0]

theorem passed_inRange_of_twoWrites : ∃ s : Traced Bool,
    Reaches step (Frugal (2 ^ 61) 100) start s ∧ s.passed = [2 ^ 61 + 1, 2 ^ 61 + 3] ∧
      ∀ ts ∈ s.passed, InRange ts := by
  obtain ⟨s, hs, htest⟩ := exists_reaches step (Frugal (2 ^ 61) 100) start twoWrites
    (fun s => s.passed = [2 ^ 61 + 1, 2 ^ 61 + 3]) (by decide +kernel)
  exact ⟨s, hs, htest, (passed_inRange (by decide) hs).1⟩

/-- One write with a read timestamp above the range. -/
theorem passed_out_of_range : ¬∀ s : Traced Bool, Reaches step WallsInRange start s →
    ∀ ts ∈ s.passed, InRange ts := by
  intro hall
  obtain ⟨s, hs, ts, hts, hout⟩ := exists_reaches step WallsInRange (start : Traced Bool)
    [.write "n".toList true (Dict.empty.set "a".toList (some "1".toList)) (some (2 ^ 63)) 7,
      .execute 0]
    (fun s => ∃ ts ∈ s.passed, ¬InRange ts) (by decide +kernel)
  exact hout (hall s hs ts hts)

end LiteDB.TimestampRange
