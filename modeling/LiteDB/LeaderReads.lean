import LiteDB.ReadyLeaders
import LiteDB.ReplayedStores

/-!
Reads of one shard: a replication group whose replicas drive stores, the puts that have
been acknowledged, and one `get` without a timestamp. The node that the client contacts
sends the `get` to whom it takes for the leader, and that node reads its own store
(`_on_get`, `_on_shard_get`) without a look at its Raft group.
-/

namespace LiteDB.LeaderReads

open CommitOrder Function LeaderHistory List LogMatching Option ProposalAcknowledgement
open RaftCluster
open scoped RaftNode
open ReadyLeaders ReplayedStores Runs ShardLedger ShardStore StateMachineSafety VersionKeys

abbrev LogEntry (Node : Type) := RaftNode.Entry Node Command

variable {Node : Type}

def payload (e : LogEntry Node) : Command :=
  match e.command with
  | .data command => command
  | _ => .control

def commands (log : List (LogEntry Node)) : List Command := log.map payload

def Puts (e : LogEntry Node) (key : Text) : Prop :=
  ∃ ts writes, e.command = .data (.write ts writes) ∧ key ∈ writes.map Prod.fst

/-- The store of a node, the rest of the entry that is being applied, and the number of
entries that have been applied since the node was started. -/
structure Replica where
  store : Store
  busy : Option Pending
  done : Nat

/-- The `get`, with the puts that were acknowledged before it began. -/
inductive Get (Node : Type) where
  | idle
  | asked (key : Text) (since : List (LogEntry Node))
  | routed (key : Text) (since : List (LogEntry Node)) (server : Node)
  | pinned (key : Text) (since : List (LogEntry Node)) (server : Node) (readTs : Int)
  | returned (key : Text) (since : List (LogEntry Node)) (server : Node) (value : Option Stored)
  | failed
deriving DecidableEq

/-- The group, the stores that its nodes drive, the acknowledged puts and one `get`. -/
structure System (Node : Type) where
  group : Session Node Command
  replicas : Node → Replica
  acked : List (LogEntry Node)
  get : Get Node

abbrev System.cluster {Node : Type} (s : System Node) : Cluster Node Command := s.group.cluster

/-- `acknowledge n e` is the return of the `wait_commit` of a put at `n`. For the `get`,
`route n` asks the replica on `n` for the leader, `pin` takes the snapshot timestamp on the
node that serves it, and `finish` reads at that timestamp. -/
inductive Event (Node : Type) where
  | raft (a : RaftCluster.Event Node Command)
  | apply (n : Node)
  | acknowledge (n : Node) (e : LogEntry Node)
  | ask (key : Text)
  | route (n : Node)
  | pin
  | finish
deriving DecidableEq

section Steps

variable [LinearOrder Node]

def target {α : Type} : Message Node α → Node
  | .vote dst _ => dst
  | .voteReply req _ => req.candidateId
  | .replicate src _ => src
  | .append dst _ => dst
  | .appendReply _ req _ => req.leaderId

/-- The node whose lock an event of the group needs. -/
def actor {α : Type} : RaftCluster.Event Node α → Option Node
  | .timeout n | .heartbeat n | .propose n _ | .reconfigure n _ | .restart n => some n
  | .deliver m _ | .crash m _ => some (target m)
  | .lose _ => none

/-- `_apply_committed` keeps the lock until the store has taken in the last entry. -/
def Replica.Free (replica : Replica) (g : RaftNode.RaftGroup Node Command) : Prop :=
  replica.busy = none ∧ replica.done = g.lastApplied

instance (replica : Replica) (g : RaftNode.RaftGroup Node Command) :
    Decidable (replica.Free g) :=
  inferInstanceAs (Decidable (_ ∧ _))

def Replica.advance (replica : Replica) (st : Store × Option Pending) : Replica :=
  ⟨st.1, st.2, if st.2 = none then replica.done + 1 else replica.done⟩

/-- A request does not survive the process that handles it. -/
def Get.crash (get : Get Node) (n : Node) : Get Node :=
  match get with
  | .pinned key since server readTs =>
      if server = n then .failed else .pinned key since server readTs
  | get => get

def start (voters : Finset Node) : System Node where
  group := ProposalAcknowledgement.begin voters
  replicas := fun _ => ⟨create, none, 0⟩
  acked := []
  get := .idle

variable (loads : Text → Option (Int × Writes))

/-- An event of the group. A node whose store cannot be opened does not come back. -/
def System.raft (s : System Node) (a : RaftCluster.Event Node Command) : Option (System Node) := do
  let group ← next s.group (.run a)
  match actor a with
  | none => some { s with group := group }
  | some n =>
      if Restarts a then
        let store ← recover loads (s.replicas n).store.engine
        return { s with
          group := group
          replicas := Function.update s.replicas n ⟨store, none, 0⟩
          get := s.get.crash n }
      else if (s.replicas n).Free (s.cluster.nodes n) then some { s with group := group }
      else none

def System.apply (s : System Node) (n : Node) : Option (System Node) :=
  match (s.replicas n).busy with
  | some p =>
      some { s with
        replicas := Function.update s.replicas n
          ((s.replicas n).advance ((s.replicas n).store.resume p)) }
  | none =>
      if (s.replicas n).done < (s.cluster.nodes n).lastApplied then
        ((s.cluster.nodes n).log[(s.replicas n).done]?).map fun e =>
          { s with
            replicas := Function.update s.replicas n
              ((s.replicas n).advance ((s.replicas n).store.begin (payload e))) }
      else none

def step (s : System Node) : Event Node → Option (System Node)
  | .raft a => s.raft loads a
  | .apply n => s.apply n
  | .acknowledge n e =>
      if (s.replicas n).Free (s.cluster.nodes n) ∧
          (s.cluster.nodes n).waitCommit e.index false = some true then
        (next s.group (.wake n e false)).map fun group =>
          { s with
            group := group
            acked := s.acked ++ [e] }
      else none
  | .ask key => some { s with get := .asked key s.acked }
  | .route n =>
      match s.get with
      | .asked key since =>
          (s.cluster.nodes n).leaderId.map fun server =>
            { s with get := .routed key since server }
      | _ => none
  | .pin =>
      match s.get with
      | .routed key since server =>
          some { s with
            get := .pinned key since server (s.replicas server).store.snapshotTs }
      | _ => none
  | .finish =>
      match s.get with
      | .pinned key since server readTs =>
          some { s with
            get := .returned key since server ((s.replicas server).store.read key readTs) }
      | _ => none

/-- The group is safe, what is acknowledged has been applied, and the entries have
increasing timestamps. When the snapshot is taken the serving node is a ready leader, no
later term has a leader, and no entry is being applied. -/
def Current (s : System Node) : Event Node → Prop
  | .raft a => Orderly s.cluster a
  | .apply n =>
      (s.replicas n).busy = none → ∀ e ∈ (s.cluster.nodes n).log[(s.replicas n).done]?,
        Timely (commands ((s.cluster.nodes n).log.take (s.replicas n).done)) (payload e)
  | .acknowledge n e => e ∈ (s.cluster.nodes n).applied
  | .pin =>
      ∀ server ∈ (match s.get with | .routed _ _ server => some server | _ => none),
        (s.cluster.nodes server).isReady = true ∧
          LatestTerm s.cluster (s.cluster.nodes server).currentTerm ∧
          (s.replicas server).Free (s.cluster.nodes server)
  | _ => True

instance [Fintype Node] (s : System Node) (event : Event Node) : Decidable (Current s event) := by
  unfold Current
  split <;> infer_instance

end Steps

variable {V : Finset Node} {c : Cluster Node Command} {n : Node}
  {g : RaftNode.RaftGroup Node Command} {kept : List (LogEntry Node)}

section Replicas

variable [LinearOrder Node] {g' : RaftNode.RaftGroup Node Command} {replica : Replica}

/-- The store has applied the first `done` entries of the log since the node was started,
and an earlier run has come as far as `kept`. -/
structure ReplicaInv (g : RaftNode.RaftGroup Node Command) (replica : Replica)
    (kept : List (LogEntry Node)) : Prop where
  applied : AppliedFrom g kept
  le : g.log.take replica.done <+: kept
  done_le : replica.done ≤ g.lastApplied
  idle : replica.busy = none →
    Serves replica.store (commands kept) (commands (g.log.take replica.done))
  busy : ∀ p, replica.busy = some p → ∃ store e, g.log[replica.done]? = some e ∧
    replica.done < g.lastApplied ∧
    Serves store (commands kept) (commands (g.log.take replica.done)) ∧
    Timely (commands (g.log.take replica.done)) (payload e) ∧
    Store.Started store (payload e) (replica.store, some p)

omit [LinearOrder Node] in
theorem commands_concat (log : List (LogEntry Node)) (e : LogEntry Node) :
    commands (log ++ [e]) = commands log ++ [payload e] := by
  simp [commands]

variable {log : List (LogEntry Node)} {e : LogEntry Node} {store : Store}

omit [LinearOrder Node] in
theorem commands_le {log' : List (LogEntry Node)} (hle : log <+: log') :
    commands log <+: commands log' :=
  hle.map payload

omit [LinearOrder Node] in
theorem take_concat {k : Nat} (he : log[k]? = some e) : log.take (k + 1) = log.take k ++ [e] := by
  rw [take_add_one, he]
  rfl

theorem ReplicaInv.exists_extends (hc : GroupSafe V c) (h : ReplicaInv (c.nodes n) replica kept)
    (he : (c.nodes n).log[replica.done]? = some e) (hlt : replica.done < (c.nodes n).lastApplied)
    (hserves : Serves store (commands kept) (commands ((c.nodes n).log.take replica.done)))
    (htimely : Timely (commands ((c.nodes n).log.take replica.done)) (payload e)) :
    ∃ kept', AppliedFrom (c.nodes n) kept' ∧ (c.nodes n).log.take (replica.done + 1) <+: kept' ∧
      Extends (commands kept) (commands ((c.nodes n).log.take replica.done)) (payload e)
        (commands kept') := by
  have hnext : AppliedFrom (c.nodes n) ((c.nodes n).log.take (replica.done + 1)) :=
    (appliedFrom_log hc n).of_le (take_prefix_take_left (by omega))
  have hlog : replica.done < (c.nodes n).log.length := (List.getElem?_eq_some_iff.mp he).1
  have hlen : ((c.nodes n).log.take (replica.done + 1)).length = replica.done + 1 :=
    length_take_of_le hlog
  rcases Nat.lt_or_ge replica.done kept.length with hbehind | hahead
  · have hle := hnext.comparable hc h.applied (by omega)
    refine ⟨kept, h.applied, hle, extends_again hserves.admitted ?_⟩
    rw [← commands_concat, ← take_concat he]
    exact commands_le hle
  · have hkept : (c.nodes n).log.take replica.done = kept := by
      refine h.le.eq_of_length_le (hahead.trans ?_)
      rw [length_take]
      omega
    refine ⟨_, hnext, prefix_rfl, ?_⟩
    rw [take_concat he, commands_concat, ← hkept]
    rw [← hkept] at hserves
    exact extends_first hserves.admitted htimely

theorem ReplicaInv.shows (hc : GroupSafe V c) (h : ReplicaInv (c.nodes n) replica kept) :
    ∃ kept', AppliedFrom (c.nodes n) kept' ∧ (c.nodes n).log.take replica.done <+: kept' ∧
      Shows replica.store (commands kept') (commands ((c.nodes n).log.take replica.done)) := by
  cases hbusy : replica.busy with
  | none => exact ⟨kept, h.applied, h.le, (h.idle hbusy).toShows⟩
  | some p =>
    obtain ⟨store, e, he, hlt, hserves, htimely, hstarted⟩ := h.busy p hbusy
    obtain ⟨kept', happlied, hle, hextends⟩ := h.exists_extends hc he hlt hserves htimely
    rcases hserves.shows_of_started htimely.prepared hextends hstarted with hshows | hshows
    · exact ⟨kept, h.applied, h.le, hshows⟩
    · exact ⟨kept', happlied, (take_prefix_take_left (by omega)).trans hle, hshows⟩

theorem ReplicaInv.advance (hc : GroupSafe V c) (h : ReplicaInv (c.nodes n) replica kept)
    (he : (c.nodes n).log[replica.done]? = some e) (hlt : replica.done < (c.nodes n).lastApplied)
    (hserves : Serves store (commands kept) (commands ((c.nodes n).log.take replica.done)))
    (htimely : Timely (commands ((c.nodes n).log.take replica.done)) (payload e))
    {st : Store × Option Pending} (hstarted : Store.Started store (payload e) st) :
    ∃ kept', ReplicaInv (c.nodes n) (replica.advance st) kept' := by
  obtain ⟨store', p⟩ := st
  cases p with
  | some p =>
    refine ⟨kept, h.applied, h.le, h.done_le, nofun, fun q hq => ?_⟩
    cases hq
    exact ⟨store, e, he, hlt, hserves, htimely, hstarted⟩
  | none =>
    obtain ⟨kept', happlied, hle, hextends⟩ := h.exists_extends hc he hlt hserves htimely
    refine ⟨kept', happlied, hle, hlt, fun _ => ?_, nofun⟩
    change Serves store' (commands kept') (commands ((c.nodes n).log.take (replica.done + 1)))
    rw [hstarted.done, take_concat he, commands_concat]
    exact hserves.apply htimely.prepared hextends

omit [LinearOrder Node] in
theorem Replica.Free.take_eq (hfree : replica.Free g) (hlen : g.lastApplied ≤ g.log.length)
    (hkeep : g.log.take g.lastApplied <+: g'.log) :
    g'.log.take replica.done = g.log.take replica.done := by
  rw [hfree.2]
  conv_rhs => rw [prefix_iff_eq_take.mp hkeep, length_take, min_eq_left hlen]

omit [LinearOrder Node] in
theorem ReplicaInv.follow (h : ReplicaInv g replica kept) (hfree : replica.Free g)
    (htake : g'.log.take replica.done = g.log.take replica.done)
    (hle : g.lastApplied ≤ g'.lastApplied) (happlied : g.applied ⊆ g'.applied) :
    ReplicaInv g' replica kept := by
  refine ⟨h.applied.mono happlied, htake ▸ h.le, h.done_le.trans hle, fun hbusy => ?_,
    fun p hp => ?_⟩
  · rw [htake]
    exact h.idle hbusy
  · simp [hfree.1] at hp

theorem ReplicaInv.restart (hc : GroupSafe V c) (h : ReplicaInv (c.nodes n) replica kept)
    (happlied : (c.nodes n).applied ⊆ g'.applied) {loads : Text → Option (Int × Writes)}
    (hstore : recover loads replica.store.engine = some store) :
    ∃ kept', ReplicaInv g' ⟨store, none, 0⟩ kept' := by
  obtain ⟨kept', hkept, -, hshows⟩ := h.shows hc
  obtain ⟨store', hrecover, hserves⟩ := hshows.exists_recover loads
  cases hrecover.symm.trans hstore
  exact ⟨kept', hkept.mono happlied, nil_prefix, Nat.zero_le _, fun _ => hserves, nofun⟩

end Replicas

variable {replicas : Node → Replica} {since : List (LogEntry Node)}

section Gets

variable [LinearOrder Node] {c' : Cluster Node Command} {replicas' : Node → Replica}
  {get : Get Node}

def Decided (c : Cluster Node Command) (P : List (LogEntry Node)) : Prop :=
  ∀ i e, P[i]? = some e → e.index = i + 1 ∧ ∃ n, e ∈ (c.nodes n).applied

/-- The value is the last one of the key in a part of the log with the entry `e`: that of
`e` itself, or that of a later entry. -/
def Answers (c : Cluster Node Command) (e : LogEntry Node) (key : Text)
    (value : Option Stored) : Prop :=
  ∃ P, Decided c P ∧ e ∈ P ∧ value = visible (lastVersion (ledger (commands P)).versions key)

def Known (c : Cluster Node Command) (since : List (LogEntry Node)) : Prop :=
  ∀ e ∈ since, ∃ n, e ∈ (c.nodes n).applied

/-- The snapshot is not behind an initial part of the log that has the puts. -/
def Covers (log since : List (LogEntry Node)) (readTs : Int) : Prop :=
  ∃ P, since ⊆ P ∧ P <+: log ∧ (ledger (commands P)).lastTs ≤ readTs ∧ readTs ≤ maxTs

def GetInv (c : Cluster Node Command) (replicas : Node → Replica) : Get Node → Prop
  | .idle | .failed => True
  | .asked _ since | .routed _ since _ => Known c since
  | .pinned _ since server readTs =>
      Covers ((c.nodes server).log.take (replicas server).done) since readTs
  | .returned key since _ value => ∀ e ∈ since, Puts e key → Answers c e key value

omit [LinearOrder Node] in
theorem Known.mono (h : Known c since)
    (happlied : ∀ n, (c.nodes n).applied ⊆ (c'.nodes n).applied) : Known c' since :=
  fun e he => (h e he).imp fun n hn => happlied n hn

omit [LinearOrder Node] in
theorem Answers.mono {e : LogEntry Node} {key : Text} {value : Option Stored}
    (h : Answers c e key value) (happlied : ∀ n, (c.nodes n).applied ⊆ (c'.nodes n).applied) :
    Answers c' e key value := by
  obtain ⟨P, hP, hmem, hvalue⟩ := h
  exact ⟨P, fun i x hx => ⟨(hP i x hx).1, (hP i x hx).2.imp fun n hn => happlied n hn⟩,
    hmem, hvalue⟩

omit [LinearOrder Node] in
theorem GetInv.mono (h : GetInv c replicas get)
    (happlied : ∀ n, (c.nodes n).applied ⊆ (c'.nodes n).applied)
    (hlog : ∀ key since server readTs, get = .pinned key since server readTs →
      (c.nodes server).log.take (replicas server).done <+:
        (c'.nodes server).log.take (replicas' server).done) : GetInv c' replicas' get := by
  cases get with
  | idle => trivial
  | failed => trivial
  | asked key since => exact Known.mono h happlied
  | routed key since server => exact Known.mono h happlied
  | pinned key since server readTs =>
    obtain ⟨P, hsince, hle, hts⟩ := h
    exact ⟨P, hsince, hle.trans (hlog key since server readTs rfl), hts⟩
  | returned key since server value => exact fun e he hputs => (h e he hputs).mono happlied

theorem GetInv.crash (h : GetInv c replicas get) (n : Node) : GetInv c replicas (get.crash n) := by
  cases get with
  | pinned key since server readTs =>
    unfold Get.crash
    dsimp only
    split_ifs
    · trivial
    · exact h
  | _ => exact h

theorem ne_of_crash {server : Node} {key : Text} {readTs : Int}
    (h : get.crash n = .pinned key since server readTs) : server ≠ n := by
  cases get with
  | pinned key since server' readTs =>
    unfold Get.crash at h
    dsimp only at h
    split_ifs at h with hne
    cases h
    exact hne
  | _ => cases h

end Gets

section Answers

variable [LinearOrder Node] {server : Node}

theorem covers_of_pin (hc : GroupSafe V c) (h : ReplicaInv (c.nodes server) (replicas server) kept)
    (hready : (c.nodes server).isReady = true) (hlatest : LatestTerm c (c.nodes server).currentTerm)
    (hfree : (replicas server).Free (c.nodes server)) (hknown : Known c since) :
    Covers ((c.nodes server).log.take (replicas server).done) since
      (replicas server).store.snapshotTs := by
  have hserves := h.idle hfree.1
  refine ⟨_, fun e he => ?_, prefix_rfl, hserves.lastTs.1,
    hserves.lastTs.2.trans (sound_ledger hserves.admitted).inRange_lastTs.2⟩
  obtain ⟨n, hn⟩ := hknown e he
  rw [hfree.2]
  exact hc.applied_of_ready hready hlatest hn

theorem answers_of_read (hc : GroupSafe V c)
    (h : ReplicaInv (c.nodes server) (replicas server) kept) {readTs : Int}
    (hcovers : Covers ((c.nodes server).log.take (replicas server).done) since readTs)
    {e : LogEntry Node} (he : e ∈ since) {key : Text} (hputs : Puts e key) :
    Answers c e key ((replicas server).store.read key readTs) := by
  obtain ⟨kept', happlied, hle, hshows⟩ := h.shows hc
  obtain ⟨P, hsince, hP, hts, hrange⟩ := hcovers
  obtain ⟨A, hA⟩ := concat_le_of_mem (hsince he)
  obtain ⟨ts, writes, hcommand, hkey⟩ := hputs
  have hpayload : commands (A ++ [e]) = commands A ++ [Command.write ts writes] := by
    rw [commands_concat, payload, hcommand]
  have hwrite : commands A ++ [Command.write ts writes] <+: commands P := hpayload ▸ commands_le hA
  obtain ⟨part, hpart, hpartle, hread⟩ := hshows.exists_read (hwrite.trans (commands_le hP)) hkey
    ((ts_le_of_write hwrite).trans hts) hrange
  have htake : commands (kept'.take part.length) = part := by
    rw [commands, map_take]
    exact (prefix_iff_eq_take.mp hpartle).symm
  have hmem : A ++ [e] <+: kept'.take part.length := by
    refine prefix_of_prefix_length_le ((hA.trans hP).trans hle) (List.take_prefix _ _) ?_
    have hlen := hpart.length_le
    rw [← hpayload, ← htake, commands, commands, length_map, length_map] at hlen
    exact hlen
  refine ⟨_, fun i x hx => ?_, mem_of_concat_le hmem, by rw [htake, hread]⟩
  obtain ⟨hindex, happ⟩ := happlied.of_le (List.take_prefix part.length _) i x hx
  exact ⟨hindex, server, happ⟩

end Answers

section Systems

variable [LinearOrder Node] {s s' : System Node} {loads : Text → Option (Int × Writes)}

/-- Everything that the replicas, the acknowledgements and the `get` rest on. -/
structure SystemInv (s : System Node) : Prop where
  replicas : ∀ n, ∃ kept, ReplicaInv (s.cluster.nodes n) (s.replicas n) kept
  acked : Known s.cluster s.acked
  get : GetInv s.cluster s.replicas s.get

theorem systemInv_start (V : Finset Node) : SystemInv (start V) where
  replicas n := ⟨[], by simp [AppliedFrom], by simp [start], Nat.zero_le _,
    fun _ => serves_create, nofun⟩
  acked := by simp [Known, start]
  get := trivial

/-- What a step does. An event of the group finds the lock of its node free, or starts
the node anew. -/
inductive Change (loads : Text → Option (Int × Writes)) (s : System Node) :
    Event Node → System Node → Prop
  | lose (m : Message Node Command) : Change loads s (.raft (.lose m))
      { s with group := ⟨{ s.cluster with net := s.cluster.net.erase m }, s.group.waiting⟩ }
  | move (a : RaftCluster.Event Node Command) (n : Node) (g : RaftNode.RaftGroup Node Command)
      (out : List (Message Node Command)) (ht : Transition s.cluster a n g out)
      (hevent : ¬Restarts a) (hfree : (s.replicas n).Free (s.cluster.nodes n)) :
      Change loads s (.raft a)
        { s with group := ⟨s.cluster.put n g out, s.group.waitingAfter a⟩ }
  | restart (a : RaftCluster.Event Node Command) (n : Node)
      (g : RaftNode.RaftGroup Node Command) (out : List (Message Node Command))
      (ht : Transition s.cluster a n g out) (hevent : Restarts a) (store : Store)
      (hstore : recover loads (s.replicas n).store.engine = some store) :
      Change loads s (.raft a)
        { s with
          group := ⟨s.cluster.put n g out, s.group.waitingAfter a⟩
          replicas := Function.update s.replicas n ⟨store, none, 0⟩
          get := s.get.crash n }
  | apply (n : Node) (st : Store × Option Pending)
      (hst : (∃ p, (s.replicas n).busy = some p ∧ st = (s.replicas n).store.resume p) ∨
        ∃ e, (s.replicas n).busy = none ∧ (s.replicas n).done < (s.cluster.nodes n).lastApplied ∧
          (s.cluster.nodes n).log[(s.replicas n).done]? = some e ∧
          st = (s.replicas n).store.begin (payload e)) :
      Change loads s (.apply n)
        { s with replicas := Function.update s.replicas n ((s.replicas n).advance st) }
  | acknowledge (n : Node) (e : LogEntry Node) (waiting : List (Node × LogEntry Node)) :
      Change loads s (.acknowledge n e)
        { s with
          group := ⟨s.cluster, waiting⟩
          acked := s.acked ++ [e] }
  | ask (key : Text) : Change loads s (.ask key) { s with get := .asked key s.acked }
  | route (n : Node) (key : Text) (since : List (LogEntry Node)) (server : Node)
      (hget : s.get = .asked key since) :
      Change loads s (.route n) { s with get := .routed key since server }
  | pin (key : Text) (since : List (LogEntry Node)) (server : Node)
      (hget : s.get = .routed key since server) :
      Change loads s .pin
        { s with get := .pinned key since server (s.replicas server).store.snapshotTs }
  | finish (key : Text) (since : List (LogEntry Node)) (server : Node) (readTs : Int)
      (hget : s.get = .pinned key since server readTs) :
      Change loads s .finish
        { s with get := .returned key since server ((s.replicas server).store.read key readTs) }

variable {a : RaftCluster.Event Node Command} {out : List (Message Node Command)}
  {event : Event Node}

theorem actor_of_transition (ht : Transition c a n g out) : actor a = some n := by
  cases ht <;> rfl

theorem change_of_raft (h : s.raft loads a = some s') : Change loads s (.raft a) s' := by
  obtain ⟨group, hgroup, h⟩ := bind_eq_some_iff.mp h
  obtain ⟨c, hstep, rfl⟩ := map_eq_some_iff.mp hgroup
  rcases step_cases hstep with ⟨m, rfl, rfl⟩ | ⟨n, g, out, ht, rfl⟩
  · cases h
    exact .lose m
  · rw [actor_of_transition ht] at h
    dsimp only at h
    split_ifs at h with hevent hfree
    · obtain ⟨store, hstore, ⟨⟩⟩ := bind_eq_some_iff.mp h
      exact .restart a n g out ht hevent store hstore
    · cases h
      exact .move a n g out ht hevent hfree

theorem change_of_step (h : step loads s event = some s') : Change loads s event s' := by
  cases event with
  | raft a => exact change_of_raft h
  | apply n =>
    simp only [step, System.apply] at h
    split at h
    · rename_i p hbusy
      cases h
      exact .apply n _ (.inl ⟨p, hbusy, rfl⟩)
    · rename_i hbusy
      split_ifs at h with hlt
      obtain ⟨e, he, rfl⟩ := map_eq_some_iff.mp h
      exact .apply n _ (.inr ⟨e, hbusy, hlt, he, rfl⟩)
  | acknowledge n e =>
    simp only [step] at h
    split_ifs at h
    obtain ⟨group, hnext, rfl⟩ := map_eq_some_iff.mp h
    simp only [ProposalAcknowledgement.next] at hnext
    split_ifs at hnext
    cases hnext
    exact .acknowledge n e _
  | ask key =>
    cases h
    exact .ask key
  | route n =>
    simp only [step] at h
    split at h
    · rename_i key since hget
      obtain ⟨server, -, rfl⟩ := map_eq_some_iff.mp h
      exact .route n key since server hget
    · simp at h
  | pin =>
    simp only [step] at h
    split at h <;> cases h
    rename_i key since server hget
    exact .pin key since server hget
  | finish =>
    simp only [step] at h
    split at h <;> cases h
    rename_i key since server readTs hget
    exact .finish key since server readTs hget

theorem step_of_raft (h : s.raft loads a = some s') :
    RaftCluster.step s.cluster a = some s'.cluster := by
  obtain ⟨group, hgroup, h⟩ := bind_eq_some_iff.mp h
  obtain ⟨c, hstep, rfl⟩ := map_eq_some_iff.mp hgroup
  rw [hstep]
  split at h
  · cases h
    rfl
  · split_ifs at h
    · obtain ⟨store, -, ⟨⟩⟩ := bind_eq_some_iff.mp h
      rfl
    · cases h
      rfl

theorem reaches_cluster {ok : System Node → Event Node → Prop}
    {ok' : Cluster Node Command → RaftCluster.Event Node Command → Prop}
    (hok : ∀ s a, ok s (.raft a) → ok' s.cluster a) (h : Reaches (step loads) ok (start V) s) :
    Reaches RaftCluster.step ok' (RaftCluster.start V) s.cluster := by
  refine h.project System.cluster fun u event w ha hstep => ?_
  cases event with
  | raft a => exact .inr ⟨a, hok u a ha, step_of_raft hstep⟩
  | _ =>
    cases change_of_step hstep
    exact .inl rfl

theorem applied_subset_put (out : List (Message Node Command))
    (happlied : (c.nodes n).applied ⊆ g.applied) (m : Node) :
    (c.nodes m).applied ⊆ ((c.put n g out).nodes m).applied := by
  by_cases hm : m = n
  · subst hm
    rwa [put_nodes_self]
  · rw [put_nodes_ne c g out hm]
    exact List.Subset.refl _

theorem SystemInv.move (h : SystemInv s) (hc : GroupSafe V s.cluster)
    (huniq : UniqueLeaders (s.cluster.put n g out)) (ht : Transition s.cluster a n g out)
    (hevent : ¬Restarts a) (hfree : (s.replicas n).Free (s.cluster.nodes n))
    (waiting : List (Node × LogEntry Node)) :
    SystemInv { s with group := ⟨s.cluster.put n g out, waiting⟩ } := by
  obtain ⟨hprogress, hkeep, hlog⟩ := hc.progress huniq ht
  have hold := hc.applied n
  have happlied := applied_subset_put out hprogress.applied_subset
  have htake := hfree.take_eq (hold.lastApplied.trans_le hold.commit_le) hkeep
  refine ⟨fun m => ?_, h.acked.mono happlied,
    h.get.mono happlied fun key since server readTs _ => ?_⟩
  · by_cases hm : m = n
    · subst hm
      obtain ⟨kept, hkept⟩ := h.replicas m
      refine ⟨kept, ?_⟩
      change ReplicaInv ((s.cluster.put m g out).nodes m) (s.replicas m) kept
      rw [put_nodes_self]
      refine hkept.follow hfree htake ?_ hprogress.applied_subset
      rw [hold.lastApplied, hlog.lastApplied]
      exact hprogress.commit_le hevent
    · change ∃ kept, ReplicaInv ((s.cluster.put n g out).nodes m) (s.replicas m) kept
      rw [put_nodes_ne _ g out hm]
      exact h.replicas m
  · by_cases hm : server = n
    · subst hm
      rw [put_nodes_self, htake]
    · rw [put_nodes_ne _ g out hm]

theorem SystemInv.restart (h : SystemInv s) (hc : GroupSafe V s.cluster)
    (huniq : UniqueLeaders (s.cluster.put n g out)) (ht : Transition s.cluster a n g out)
    {store : Store} (hstore : recover loads (s.replicas n).store.engine = some store)
    (waiting : List (Node × LogEntry Node)) :
    SystemInv { s with
      group := ⟨s.cluster.put n g out, waiting⟩
      replicas := Function.update s.replicas n ⟨store, none, 0⟩
      get := s.get.crash n } := by
  obtain ⟨hprogress, -⟩ := hc.progress huniq ht
  have happlied := applied_subset_put out hprogress.applied_subset
  refine ⟨fun m => ?_, h.acked.mono happlied,
    (h.get.crash n).mono happlied fun key since server readTs hpinned => ?_⟩
  · change ∃ kept, ReplicaInv ((s.cluster.put n g out).nodes m)
      (Function.update s.replicas n ⟨store, none, 0⟩ m) kept
    by_cases hm : m = n
    · subst hm
      obtain ⟨kept, hkept⟩ := h.replicas m
      rw [put_nodes_self, update_self]
      exact hkept.restart hc hprogress.applied_subset hstore
    · rw [put_nodes_ne _ g out hm, update_of_ne hm]
      exact h.replicas m
  · have hne := ne_of_crash hpinned
    dsimp only
    rw [put_nodes_ne _ g out hne, update_of_ne hne]

theorem SystemInv.apply (h : SystemInv s) (hc : GroupSafe V s.cluster)
    (ha : Current s (.apply n)) {st : Store × Option Pending}
    (hst : (∃ p, (s.replicas n).busy = some p ∧ st = (s.replicas n).store.resume p) ∨
      ∃ e, (s.replicas n).busy = none ∧ (s.replicas n).done < (s.cluster.nodes n).lastApplied ∧
        (s.cluster.nodes n).log[(s.replicas n).done]? = some e ∧
        st = (s.replicas n).store.begin (payload e)) :
    SystemInv
      { s with replicas := Function.update s.replicas n ((s.replicas n).advance st) } := by
  refine ⟨fun m => ?_, h.acked, h.get.mono (fun m => List.Subset.refl _)
    fun key since server readTs _ => ?_⟩
  · change ∃ kept, ReplicaInv (s.cluster.nodes m)
      (Function.update s.replicas n ((s.replicas n).advance st) m) kept
    by_cases hm : m = n
    · subst hm
      obtain ⟨kept, hkept⟩ := h.replicas m
      rw [update_self]
      rcases hst with ⟨p, hbusy, rfl⟩ | ⟨e, hbusy, hlt, he, rfl⟩
      · obtain ⟨store, e, he, hlt, hserves, htimely, hstarted⟩ := hkept.busy p hbusy
        exact hkept.advance hc he hlt hserves htimely hstarted.resume
      · exact hkept.advance hc he hlt (hkept.idle hbusy) (ha hbusy e he) .begin
    · rw [update_of_ne hm]
      exact h.replicas m
  · by_cases hm : server = n
    · subst hm
      dsimp only
      rw [update_self]
      refine take_prefix_take_left ?_
      unfold Replica.advance
      dsimp only
      split_ifs <;> omega
    · dsimp only
      rw [update_of_ne hm]

theorem SystemInv.step (h : SystemInv s) (hc : GroupSafe V s.cluster) (ha : Current s event)
    (hchange : Change loads s event s') (huniq : UniqueLeaders s'.cluster) : SystemInv s' := by
  cases hchange with
  | lose m => exact { h with }
  | move a n g out ht hevent hfree => exact h.move hc huniq ht hevent hfree _
  | restart a n g out ht hevent store hstore => exact h.restart hc huniq ht hstore _
  | apply n st hst => exact h.apply hc ha hst
  | acknowledge n e waiting =>
    refine ⟨h.replicas, fun x hx => ?_, h.get⟩
    rcases mem_append.mp hx with hold | hnew
    · exact h.acked x hold
    · obtain rfl := mem_singleton.mp hnew
      exact ⟨n, ha⟩
  | ask key => exact ⟨h.replicas, h.acked, h.acked⟩
  | route n key since server hget =>
    have hknown := h.get
    rw [hget] at hknown
    exact ⟨h.replicas, h.acked, hknown⟩
  | pin key since server hget =>
    have hknown := h.get
    rw [hget] at hknown
    simp only [Current, hget] at ha
    obtain ⟨hready, hlatest, hfree⟩ := ha server rfl
    obtain ⟨kept, hkept⟩ := h.replicas server
    exact ⟨h.replicas, h.acked, covers_of_pin hc hkept hready hlatest hfree hknown⟩
  | finish key since server readTs hget =>
    have hcovers := h.get
    rw [hget] at hcovers
    obtain ⟨kept, hkept⟩ := h.replicas server
    exact ⟨h.replicas, h.acked, fun e he hputs => answers_of_read hc hkept hcovers he hputs⟩

theorem uniqueLeaders_of_change (hchange : Change loads s event s')
    (hcons : ∀ n, RaftNodeSpec.Consistent n V (s.cluster.nodes n))
    (huniq : UniqueLeaders s'.cluster) : UniqueLeaders s.cluster := by
  cases hchange with
  | move a n g out ht => exact huniq.of_put ht (hcons n)
  | restart a n g out ht => exact huniq.of_put ht (hcons n)
  | _ => exact huniq

theorem systemInv_of_reaches (hrun : Reaches (step loads) Current (start V) s)
    (huniq : UniqueLeaders s.cluster) : SystemInv s := by
  induction hrun with
  | refl => exact systemInv_start V
  | tail hrun hlast ih =>
    obtain ⟨event, ha, hstep⟩ := hlast
    have hcluster : Reaches RaftCluster.step Orderly (RaftCluster.start V) _ :=
      reaches_cluster (fun _ _ ha => ha) hrun
    have hchange := change_of_step hstep
    have huniq' := uniqueLeaders_of_change hchange (consistent_of_reaches hcluster) huniq
    exact (ih huniq').step (groupSafe_of_reaches hcluster huniq') ha hchange huniq

/-- In every run of a safe group, a `get` that is served by a ready leader of the latest
term returns the value of a put that was acknowledged before the `get` began, or the value
of a later one, whichever node the client has contacted. -/
theorem get_answers (hrun : Reaches (step loads) Current (start V) s)
    (huniq : UniqueLeaders s.cluster) {key : Text} {since : List (LogEntry Node)} {server : Node}
    {value : Option Stored} (hget : s.get = .returned key since server value) {e : LogEntry Node}
    (he : e ∈ since) (hputs : Puts e key) : Answers s.cluster e key value := by
  have hanswers := (systemInv_of_reaches hrun huniq).get
  rw [hget] at hanswers
  exact hanswers e he hputs

end Systems

def sampleKey : Text := ['k']

def sampleEntry : LogEntry (Fin 3) := ⟨1, 2, .data (.write 5 [(sampleKey, some ['v'])])⟩

/-- Node 0 leads term 1, commits the put with node 1, applies and acknowledges it. -/
def acknowledgedPut : List (Event (Fin 3)) :=
  List.map .raft (elect 0 1 0 0 [(1, 0)] ++
      [.propose 0 (.write 5 [(sampleKey, some ['v'])]), .heartbeat 0] ++
      exchange 1 ⟨1, 0, 0, 0, [⟨1, 1, .noop⟩, sampleEntry], 0⟩ true 2) ++
    [.apply 0, .apply 0, .apply 0, .acknowledge 0 sampleEntry]

/-- Node 1, which holds the put but has not applied it, leads term 2. -/
def nextLeader : List (Event (Fin 3)) :=
  List.map .raft (elect 1 2 2 1 [(2, 0)])

def getSample : List (Event (Fin 3)) := [.ask sampleKey, .route 1, .pin, .finish]

theorem puts_sampleEntry : Puts sampleEntry sampleKey := ⟨5, _, rfl, by simp⟩

theorem get_answers_of_acknowledgedPut : ∃ s : System (Fin 3),
    Reaches (step fun _ => none) Current (start {0, 1, 2}) s ∧
      s.get = .returned sampleKey [sampleEntry] 0 (some (.text ['v'])) ∧
      Answers s.cluster sampleEntry sampleKey (some (.text ['v'])) := by
  obtain ⟨s, hs, huniq, hget⟩ := exists_reaches (step fun _ => none) Current
    (start {0, 1, 2} : System (Fin 3)) (acknowledgedPut ++ getSample)
    (fun s => UniqueLeaders s.cluster ∧
      s.get = .returned sampleKey [sampleEntry] 0 (some (.text ['v']))) (by decide +kernel)
  exact ⟨s, hs, hget, get_answers hs huniq hget (mem_singleton_self _) puts_sampleEntry⟩

def SafeGroup (s : System (Fin 3)) : Event (Fin 3) → Prop
  | .pin => True
  | event => Current s event

instance (s : System (Fin 3)) (event : Event (Fin 3)) : Decidable (SafeGroup s event) := by
  unfold SafeGroup
  split <;> infer_instance

theorem decided_eq {c : Cluster (Fin 3) Command} {P : List (LogEntry (Fin 3))}
    (hP : Decided c P) (he : sampleEntry ∈ P)
    (happlied : ∀ n, ∀ e ∈ (c.nodes n).applied, e = ⟨1, 1, .noop⟩ ∨ e = sampleEntry) :
    P = [⟨1, 1, .noop⟩, sampleEntry] := by
  have hentry : ∀ i e, P[i]? = some e →
      (0 = i ∧ e = ⟨1, 1, .noop⟩) ∨ (1 = i ∧ e = sampleEntry) := by
    intro i e hi
    obtain ⟨hindex, n, hn⟩ := hP i e hi
    rcases happlied n e hn with rfl | rfl
    · exact .inl ⟨Nat.succ.inj hindex, rfl⟩
    · exact .inr ⟨Nat.succ.inj hindex, rfl⟩
  rcases P with _ | ⟨a, _ | ⟨b, _ | ⟨d, rest⟩⟩⟩
  · simp at he
  · rcases hentry 0 a rfl with ⟨-, rfl⟩ | ⟨hzero, -⟩
    · simp [sampleEntry] at he
    · omega
  · rcases hentry 0 a rfl with ⟨-, rfl⟩ | ⟨hzero, -⟩
    · rcases hentry 1 b rfl with ⟨hone, -⟩ | ⟨-, rfl⟩
      · omega
      · rfl
    · omega
  · rcases hentry 2 d rfl with ⟨htwo, -⟩ | ⟨htwo, -⟩ <;> omega

theorem not_get_answers_of_nextLeader :
    ¬∀ s : System (Fin 3), Reaches (step fun _ => none) SafeGroup (start {0, 1, 2}) s →
      UniqueLeaders s.cluster → ∀ key since server value,
        s.get = .returned key since server value → ∀ e ∈ since, Puts e key →
          Answers s.cluster e key value := by
  intro hall
  obtain ⟨s, hs, huniq, hget, happlied⟩ := exists_reaches (step fun _ => none) SafeGroup
    (start {0, 1, 2} : System (Fin 3)) (acknowledgedPut ++ nextLeader ++ getSample)
    (fun s => UniqueLeaders s.cluster ∧
      s.get = .returned sampleKey [sampleEntry] 1 none ∧
      ∀ n, ∀ e ∈ (s.cluster.nodes n).applied, e = ⟨1, 1, .noop⟩ ∨ e = sampleEntry)
    (by decide +kernel)
  obtain ⟨P, hP, hmem, hvalue⟩ := hall s hs huniq _ _ _ _ hget _ (mem_singleton_self _)
    puts_sampleEntry
  rw [decided_eq hP hmem happlied] at hvalue
  revert hvalue
  decide +kernel

end LiteDB.LeaderReads
