import LiteDB.LeaderReads
import LiteDB.ReplicaCalls

namespace LiteDB.ReadinessGate

open Function LeaderReads List LogMatching
open ProposalAcknowledgement (AppliedLog appliedAt appliedLog_transition)
open ProposalAcknowledgement (log_le_of_transition)
open RaftCluster RaftNode RaftNodeSpec ReadyLeaders ReplicaCalls Runs ShardStore SortedMaps
open VersionKeys RaftGroup

variable {Node α : Type} {g : RaftGroup Node α} {n : Node} {V : Finset Node}

section Terms

variable {g' : RaftGroup Node α}

/-- `_last_applied_term` is the term of the entry that was applied last. -/
def AppliedTerm (g : RaftGroup Node α) : Prop :=
  if g.lastApplied = 0 then g.lastAppliedTerm = 0
  else g.applied.getLast?.map Entry.term = some g.lastAppliedTerm

theorem AppliedTerm.of_sameLog (h : AppliedTerm g) (hsame : SameLog g g') : AppliedTerm g' := by
  rwa [AppliedTerm, hsame.lastApplied, hsame.lastAppliedTerm, hsame.applied]

theorem AppliedTerm.applyNext (h : AppliedTerm g) : AppliedTerm g.applyNext := by
  unfold RaftGroup.applyNext
  split
  · exact h
  · simp [AppliedTerm]

theorem AppliedTerm.iterate (h : AppliedTerm g) (k : Nat) :
    AppliedTerm (RaftGroup.applyNext^[k] g) := by
  induction k with
  | zero => exact h
  | succ k ih =>
    rw [iterate_succ_apply']
    exact ih.applyNext

variable [LinearOrder Node]

section

variable (h : AppliedTerm g)

include h

theorem AppliedTerm.applyCommitted (index : Nat) :
    AppliedTerm (RaftGroup.applyCommitted { g with commitIndex := index }) := by
  have happlied := AppliedTerm.iterate (g := { g with commitIndex := index }) h
    (index - g.lastApplied)
  obtain ⟨role, leader, heq, -⟩ :=
    stepDownIfRemoved_eq
      (RaftGroup.applyNext^[index - g.lastApplied] { g with commitIndex := index })
  change AppliedTerm (stepDownIfRemoved _)
  rw [heq]
  exact happlied

theorem AppliedTerm.followCommit (leaderCommit : Nat) :
    AppliedTerm (g.followCommit leaderCommit) := by
  unfold RaftGroup.followCommit
  split
  · exact h.applyCommitted _
  · exact h

theorem AppliedTerm.advanceCommit : AppliedTerm g.advanceCommit := by
  rcases advanceCommit_cases g with heq | ⟨idx, -, -, -, -, heq⟩
  · rwa [heq]
  · rw [heq]
    exact h.applyCommitted idx

theorem AppliedTerm.handleAppend (hc : Consistent n V g)
    (req : AppendRequest Node α) : AppliedTerm (g.handleAppend req).1 := by
  unfold RaftGroup.handleAppend
  split
  · exact h
  · rename_i hterm
    have haccepted := (hc.adoptTerm req.term).acceptLeader req
    obtain ⟨role, voted, heq, -⟩ := acceptLeader_adoptTerm_eq hc (not_lt.mp hterm)
    rw [heq] at haccepted ⊢
    unfold appendAfter
    split_ifs
    · exact h
    · exact h
    · refine AppliedTerm.followCommit ?_ req.leaderCommit
      obtain ⟨_, _, _, hreceive, -⟩ := receiveEntries_eq haccepted req.entries
      rw [hreceive]
      exact h

theorem AppliedTerm.replicateReply (hc : Consistent n V g) (peer : Node)
    (r : AppendReply Node) : AppliedTerm (g.replicateReply peer r) := by
  unfold RaftGroup.replicateReply
  split_ifs
  · exact h.of_sameLog (sameLog_becomeFollower hc _)
  · exact h
  · apply AppliedTerm.advanceCommit
    exact h
  · exact h

end

theorem appliedTerm_restart (hc : Consistent n V g) : AppliedTerm g.restart := by
  obtain ⟨next, matched, heq, -⟩ := restart_eq hc
  rw [heq]
  rfl

theorem AppliedTerm.call {a : Call Node α} (h : AppliedTerm g) (hc : Consistent n V g)
    (hcall : ReplicaCalls.call g a = some g') : AppliedTerm g' := by
  cases a with
  | timeout =>
    obtain ⟨-, heq⟩ := Option.ite_none_left_eq_some.mp hcall
    exact Option.some.inj heq ▸ h.of_sameLog (sameLog_startPreElection g)
  | vote req recent => exact Option.some.inj hcall ▸ h.of_sameLog (sameLog_handleVote hc req recent)
  | preVoteReply r => exact Option.some.inj hcall ▸ h.of_sameLog (sameLog_requestPreVote hc r)
  | voteReply r =>
    cases hcall
    rcases requestVote_cases hc r with ⟨-, -, -, -, heq⟩ | hsame
    · rw [heq]
      exact h
    · exact h.of_sameLog hsame
  | append req => exact Option.some.inj hcall ▸ h.handleAppend hc req
  | appendReply peer r => exact Option.some.inj hcall ▸ h.replicateReply hc peer r
  | propose payload =>
    obtain ⟨-, rfl⟩ := role_of_propose hcall
    exact h
  | reconfigure voters =>
    obtain ⟨hrole, hone, rfl⟩ := role_of_reconfigure hcall
    obtain ⟨next, matched, heq, -⟩ := reconfigure_eq hc hrole hone
    rw [heq]
    exact h
  | restart => exact Option.some.inj hcall ▸ appliedTerm_restart hc
  | crashInVote req =>
    cases hcall
    unfold crashInVote
    split
    · exact appliedTerm_restart hc
    · exact appliedTerm_restart (hc.adoptTerm req.term)
  | crashInAppend req count =>
    cases hcall
    rcases crashInAppend_cases hc req count with ⟨-, heq⟩ | ⟨-, a, stored, rfl, -, -, -, heq⟩
    · rw [heq]
      exact appliedTerm_restart hc
    · rw [heq]
      exact appliedTerm_restart (((hc.adoptTerm _).acceptLeader req).withLog _)

theorem appliedTerm_of_calls {ok : RaftGroup Node α → Call Node α → Prop}
    (h : Reaches call ok (create n V) g) : AppliedTerm g := by
  have hboth : Consistent n V g ∧ AppliedTerm g :=
    h.invariant (fun g => Consistent n V g ∧ AppliedTerm g)
      ⟨consistent_create n V, rfl⟩
      fun _ _ _ hu _ hcall => ⟨consistent_of_call hu.1 hcall, hu.2.call hu.1 hcall⟩
  exact hboth.2

end Terms

section Groups

variable [LinearOrder Node] {c : Cluster Node α}

/-- No append request makes a node discard an entry that it has applied. -/
def KeepsApplied (c : Cluster Node α) : RaftCluster.Event Node α → Prop
  | .deliver (.append n req) _ =>
      (c.nodes n).log.take (c.nodes n).lastApplied <+: ((c.nodes n).handleAppend req).1.log
  | _ => True

instance [DecidableEq α] (c : Cluster Node α) (a : RaftCluster.Event Node α) :
    Decidable (KeepsApplied c a) := by
  induction a using RaftCluster.Event.casesOn with
  | deliver m => induction m using Message.casesOn <;> unfold KeepsApplied <;> infer_instance
  | _ => exact .isTrue trivial

theorem KeepsApplied.kept {a : RaftCluster.Event Node α} {out : List (Message Node α)}
    (h : KeepsApplied c a) (ht : Transition c a n g out) (hn : Consistent n V (c.nodes n)) :
    (c.nodes n).log.take (c.nodes n).lastApplied <+: g.log := by
  by_cases happend : ∃ req recent, a = .deliver (.append n req) recent
  · obtain ⟨req, recent, rfl⟩ := happend
    cases ht
    exact h
  · push Not at happend
    exact (List.take_prefix _ _).trans (log_le_of_transition ht hn happend)

omit [LinearOrder Node] in
theorem exists_last_of_ready (happlied : AppliedLog g) (hterm : AppliedTerm g)
    (hpos : 0 < g.currentTerm) (hready : g.isReady = true) :
    ∃ k e, g.lastApplied = k + 1 ∧ g.log[k]? = some e ∧ e.term = g.currentTerm := by
  obtain ⟨-, hsame⟩ : g.role = .leader ∧ g.lastAppliedTerm = g.currentTerm := by
    simpa [isReady] using hready
  have hlast := happlied.lastApplied
  have hle := happlied.commit_le
  obtain ⟨old, hold⟩ := happlied.applied
  unfold AppliedTerm at hterm
  split at hterm
  · omega
  · rename_i hne
    obtain ⟨k, hk⟩ := Nat.exists_eq_succ_of_ne_zero hne
    have hlt : k < g.log.length := by omega
    refine ⟨k, g.log[k], hk, getElem?_eq_getElem hlt, ?_⟩
    rw [hold, hk, take_succ_eq_append_getElem hlt] at hterm
    rw [← append_assoc, getLast?_concat] at hterm
    exact (Option.some.inj hterm).trans hsame

omit [LinearOrder Node] in
theorem lt_lastApplied_of_ready (happlied : AppliedLog g) (hterm : AppliedTerm g)
    (hpos : 0 < g.currentTerm) (hready : g.isReady = true)
    (hmono : g.log.Pairwise fun e e' => e.term ≤ e'.term) {i : Nat} {e : Entry Node α}
    (he : g.log[i]? = some e) (hlt : e.term < g.currentTerm) : i < g.lastApplied := by
  obtain ⟨k, x, hk, hx, hxterm⟩ := exists_last_of_ready happlied hterm hpos hready
  by_contra hge
  have hki : k < i := by omega
  obtain ⟨hi, rfl⟩ := List.getElem?_eq_some_iff.mp he
  obtain ⟨hk', rfl⟩ := List.getElem?_eq_some_iff.mp hx
  have hle := pairwise_iff_getElem.mp hmono k i hk' hi hki
  omega

end Groups

section Stores

/-- The command leaves the key to the transaction, if it had it. -/
def Leaves (txnId key : Text) : Command → Prop
  | .prepare id _ writes => id = txnId → key ∈ writes.map Prod.fst
  | .commit id | .abort id => id ≠ txnId
  | _ => True

def Holds (s : Store) (txnId key : Text) : Prop :=
  ∃ staged, s.intents.get? txnId = some staged ∧ key ∈ staged.2.map Prod.fst

variable {s : Store} {txnId key : Text}

theorem Holds.apply (h : Holds s txnId key) {command : Command}
    (hleaves : Leaves txnId key command) : Holds (s.apply command) txnId key := by
  obtain ⟨staged, hget, hkey⟩ := h
  cases command with
  | control => exact ⟨staged, hget, hkey⟩
  | write ts writes => exact ⟨staged, hget, hkey⟩
  | prepare id ts writes =>
    rw [Store.apply_prepare]
    by_cases hid : id = txnId
    · exact ⟨(ts, writes), by simp [Dict.get?_set, hid], hleaves hid⟩
    · exact ⟨staged, by simpa [Dict.get?_set, Ne.symm hid] using hget, hkey⟩
  | commit id =>
    have hid : id ≠ txnId := hleaves
    rw [Holds, Store.intents_apply_commit, Dict.get?_erase, if_neg hid.symm]
    exact ⟨staged, hget, hkey⟩
  | abort id =>
    have hid : id ≠ txnId := hleaves
    rw [Holds, Store.apply_abort, Dict.get?_erase, if_neg hid.symm]
    exact ⟨staged, hget, hkey⟩

theorem Holds.foldl (log : List Command) (h : Holds s txnId key)
    (hleaves : ∀ command ∈ log, Leaves txnId key command) :
    Holds (log.foldl Store.apply s) txnId key := by
  induction log generalizing s with
  | nil => exact h
  | cons command log ih =>
    obtain ⟨hfirst, hrest⟩ := forall_mem_cons.mp hleaves
    exact ih (h.apply hfirst) hrest

theorem holds_of_prepare (before after : List Command) {ts : Int} {writes : Writes}
    (hkey : key ∈ writes.map Prod.fst) (hleaves : ∀ command ∈ after, Leaves txnId key command) :
    Holds ((before ++ .prepare txnId ts writes :: after).foldl Store.apply s) txnId key := by
  rw [foldl_append, foldl_cons]
  refine Holds.foldl after ⟨(ts, writes), ?_, hkey⟩ hleaves
  simp [Store.apply_prepare, Dict.get?_set]

theorem Holds.locking (h : Holds s txnId key) {exclude : Text} (hne : txnId ≠ exclude) :
    (s.intentLocking key exclude).isSome := by
  obtain ⟨staged, hget, hkey⟩ := h
  obtain ⟨w, hw, hwkey⟩ := mem_map.mp hkey
  rw [Store.intentLocking, Option.isSome_map, find?_isSome]
  exact ⟨(txnId, staged), Dict.get?_eq_some_iff.mp hget, by simpa using ⟨hne, w.2, by
    rw [← hwkey]; exact hw⟩⟩

end Stores

section Systems

variable [LinearOrder Node] {g g' : RaftGroup Node Command} {replica : Replica}

/-- The store of a node has applied the first entries of the log, on top of what was in it
when the node was started. -/
structure Replays (g : RaftGroup Node Command) (replica : Replica) : Prop where
  done_le : replica.done ≤ g.lastApplied
  idle : replica.busy = none → ∃ opened : Store,
    replica.store = (commands (g.log.take replica.done)).foldl Store.apply opened
  busy : ∀ p, replica.busy = some p → ∃ (opened : Store) (e : LogEntry Node),
    g.log[replica.done]? = some e ∧ replica.done < g.lastApplied ∧
      Store.Started ((commands (g.log.take replica.done)).foldl Store.apply opened) (payload e)
        (replica.store, some p)

omit [LinearOrder Node] in
theorem replays_opened (store : Store) : Replays g ⟨store, none, 0⟩ :=
  ⟨Nat.zero_le _, fun _ => ⟨store, by simp [commands]⟩, nofun⟩

variable {e : LogEntry Node} {st : Store × Option Pending}

omit [LinearOrder Node] in
theorem Replays.advance_of_started (h : Replays g replica) {opened : Store}
    (he : g.log[replica.done]? = some e) (hlt : replica.done < g.lastApplied)
    (hst : Store.Started ((commands (g.log.take replica.done)).foldl Store.apply opened)
      (payload e) st) : Replays g (replica.advance st) := by
  obtain ⟨store, p⟩ := st
  cases p with
  | some p =>
    refine ⟨h.done_le, nofun, fun q hq => ?_⟩
    cases hq
    exact ⟨opened, e, he, hlt, hst⟩
  | none =>
    refine ⟨hlt, fun _ => ⟨opened, ?_⟩, nofun⟩
    change store = (commands (g.log.take (replica.done + 1))).foldl Store.apply opened
    rw [take_concat he, commands_concat, foldl_concat]
    exact hst.done

omit [LinearOrder Node] in
theorem Replays.advance (h : Replays g replica)
    (hst : (∃ p, replica.busy = some p ∧ st = replica.store.resume p) ∨
      ∃ e, replica.busy = none ∧ replica.done < g.lastApplied ∧
        g.log[replica.done]? = some e ∧ st = replica.store.begin (payload e)) :
    Replays g (replica.advance st) := by
  rcases hst with ⟨p, hbusy, rfl⟩ | ⟨e, hbusy, hlt, he, rfl⟩
  · obtain ⟨opened, e, he, hlt, hstarted⟩ := h.busy p hbusy
    exact h.advance_of_started he hlt hstarted.resume
  · obtain ⟨opened, hstore⟩ := h.idle hbusy
    have hbegin : Store.Started replica.store (payload e) (replica.store.begin (payload e)) :=
      .begin
    rw [hstore] at hbegin ⊢
    exact h.advance_of_started he hlt hbegin

omit [LinearOrder Node] in
theorem Replays.follow (h : Replays g replica) (hfree : replica.Free g)
    (htake : g'.log.take replica.done = g.log.take replica.done)
    (hle : g.lastApplied ≤ g'.lastApplied) : Replays g' replica := by
  refine ⟨h.done_le.trans hle, fun hbusy => ?_, fun p hp => ?_⟩
  · rw [htake]
    exact h.idle hbusy
  · rw [hfree.1] at hp
    contradiction

def Keeps (s : System Node) : LeaderReads.Event Node → Prop
  | .raft a => KeepsApplied s.cluster a
  | _ => True

instance (s : System Node) (event : LeaderReads.Event Node) : Decidable (Keeps s event) := by
  induction event using LeaderReads.Event.casesOn <;> unfold Keeps <;> infer_instance

/-- The store of a node has taken in what its replica has applied. -/
structure NodeInv (V : Finset Node) (n : Node) (g : RaftGroup Node Command) (replica : Replica) :
    Prop where
  consistent : Consistent n V g
  applied : AppliedLog g
  replays : Replays g replica

variable {s s' : System Node} {loads : Text → Option (Int × Writes)} {c : Cluster Node Command}
  {a : RaftCluster.Event Node Command} {out : List (Message Node Command)}

theorem NodeInv.move (h : NodeInv V n (c.nodes n) replica) (ha : KeepsApplied c a)
    (ht : Transition c a n g out) (hevent : ¬Restarts a) (hfree : replica.Free (c.nodes n)) :
    NodeInv V n g replica := by
  have hkept := ha.kept ht h.consistent
  have happlied := appliedLog_transition ht h.consistent h.applied hkept
  have hprogress := progress_of_transition ht h.consistent h.applied hkept
  refine ⟨ht.consistent h.consistent, happlied, h.replays.follow hfree ?_ ?_⟩
  · exact hfree.take_eq (h.applied.lastApplied.trans_le h.applied.commit_le) hkept
  · rw [h.applied.lastApplied, happlied.lastApplied]
    exact hprogress.commit_le hevent

theorem NodeInv.restart (h : NodeInv V n (c.nodes n) replica) (ha : KeepsApplied c a)
    (ht : Transition c a n g out) (store : Store) : NodeInv V n g ⟨store, none, 0⟩ :=
  ⟨ht.consistent h.consistent,
    appliedLog_transition ht h.consistent h.applied (ha.kept ht h.consistent),
    replays_opened store⟩

theorem nodeInv_of_step {event : LeaderReads.Event Node}
    (h : ∀ n, NodeInv V n (s.cluster.nodes n) (s.replicas n)) (hok : Keeps s event)
    (hstep : LeaderReads.step loads s event = some s') (n : Node) :
    NodeInv V n (s'.cluster.nodes n) (s'.replicas n) := by
  cases change_of_step hstep with
  | lose m => exact h n
  | move a k g out ht hevent hfree =>
    change NodeInv V n ((s.cluster.put k g out).nodes n) (s.replicas n)
    by_cases hn : n = k
    · subst hn
      rw [put_nodes_self]
      exact (h n).move hok ht hevent hfree
    · rw [put_nodes_ne _ g out hn]
      exact h n
  | restart a k g out ht hevent store hstore =>
    change NodeInv V n ((s.cluster.put k g out).nodes n)
      (Function.update s.replicas k ⟨store, none, 0⟩ n)
    by_cases hn : n = k
    · subst hn
      rw [put_nodes_self, update_self]
      exact (h n).restart hok ht store
    · rw [put_nodes_ne _ g out hn, update_of_ne hn]
      exact h n
  | apply k st hst =>
    change NodeInv V n (s.cluster.nodes n)
      (Function.update s.replicas k ((s.replicas k).advance st) n)
    by_cases hn : n = k
    · subst hn
      rw [update_self]
      exact ⟨(h n).consistent, (h n).applied, (h n).replays.advance hst⟩
    · rw [update_of_ne hn]
      exact h n
  | acknowledge | ask | route | pin | finish => exact h n

theorem nodeInv_of_reaches (h : Reaches (LeaderReads.step loads) Keeps (LeaderReads.start V) s)
    (n : Node) : NodeInv V n (s.cluster.nodes n) (s.replicas n) := by
  refine h.invariant (fun s => ∀ n, NodeInv V n (s.cluster.nodes n) (s.replicas n)) ?_
    (fun u event w hu ha hstep => nodeInv_of_step hu ha hstep) n
  exact fun n => ⟨consistent_create n V, ⟨rfl, Nat.zero_le _, [], rfl⟩, replays_opened create⟩

/-- The node has applied its entries of earlier terms, and whoever prepared a key in one of
them still holds it, unless a later entry that the node has applied has changed that. -/
structure Gated (g : RaftGroup Node Command) (store : Store) : Prop where
  applied : ∀ (i : Nat) e, g.log[i]? = some e → e.term < g.currentTerm →
    appliedAt g (i + 1) = some e
  locking : ∀ (i : Nat) e txnId ts writes, g.log[i]? = some e → e.term < g.currentTerm →
    e.command = .data (.prepare txnId ts writes) → ∀ key ∈ writes.map Prod.fst,
      (∀ (j : Nat) x, i < j → appliedAt g (j + 1) = some x → Leaves txnId key (payload x)) →
      ∀ exclude, txnId ≠ exclude → (store.intentLocking key exclude).isSome

omit [LinearOrder Node] in
theorem commands_take_eq {log : List (LogEntry Node)} {i k : Nat} (he : log[i]? = some e)
    (hik : i < k) :
    commands (log.take k) =
      commands (log.take i) ++ payload e :: commands ((log.take k).drop (i + 1)) := by
  have hget : (log.take k)[i]? = some e := by rw [getElem?_take_of_lt hik, he]
  obtain ⟨hi, heq⟩ := List.getElem?_eq_some_iff.mp hget
  have hsplit : log.take k = log.take i ++ e :: (log.take k).drop (i + 1) := by
    conv_lhs => rw [← take_append_drop i (log.take k), drop_eq_getElem_cons hi, heq]
    rw [take_take, min_eq_left hik.le]
  conv_lhs => rw [hsplit]
  simp [commands]

theorem gated_of_reaches (hrun : Reaches (LeaderReads.step loads) Keeps (LeaderReads.start V) s)
    (huniq : UniqueLeaders s.cluster) (hfree : (s.replicas n).Free (s.cluster.nodes n))
    (hready : (s.cluster.nodes n).isReady = true) :
    Gated (s.cluster.nodes n) (s.replicas n).store := by
  have hcluster : Reaches RaftCluster.step KeepsApplied (RaftCluster.start V) s.cluster :=
    reaches_cluster (fun _ _ ha => ha) hrun
  obtain ⟨h, hlog⟩ := clusterLog_of_reaches hcluster huniq
  have hnode := nodeInv_of_reaches hrun n
  have hterm := appliedTerm_of_calls (calls_of_reaches hcluster n)
  have hrole : (s.cluster.nodes n).role = .leader := by
    simp only [isReady, Bool.and_eq_true, beq_iff_eq] at hready
    exact hready.1
  have hpos := (hlog.nodes n).term_pos (by simp [hrole])
  have hmono := hlog.wellformed.pairwise_term (hlog.nodes n).log_matches
  have hlt : ∀ (i : Nat) e, (s.cluster.nodes n).log[i]? = some e →
      e.term < (s.cluster.nodes n).currentTerm → i < (s.cluster.nodes n).lastApplied :=
    fun i e he => lt_lastApplied_of_ready hnode.applied hterm hpos hready hmono he
  have happliedAt : ∀ i, i < (s.cluster.nodes n).lastApplied →
      appliedAt (s.cluster.nodes n) (i + 1) = (s.cluster.nodes n).log[i]? := fun i hi => by
    have hle : i + 1 ≤ (s.cluster.nodes n).lastApplied := hi
    rw [hnode.applied.appliedAt_eq (by omega) hle, Nat.add_sub_cancel]
  refine ⟨fun i e he hearlier => ?_, ?_⟩
  · rw [happliedAt i (hlt i e he hearlier), he]
  · intro i e txnId ts writes he hearlier hcommand key hkey hleaves exclude hne
    obtain ⟨opened, hstore⟩ := hnode.replays.idle hfree.1
    have hpayload : payload e = .prepare txnId ts writes := by rw [payload, hcommand]
    rw [hfree.2, commands_take_eq he (hlt i e he hearlier), hpayload] at hstore
    have hholds : Holds (s.replicas n).store txnId key := by
      rw [hstore]
      refine holds_of_prepare _ _ hkey fun command hmem => ?_
      obtain ⟨x, hx, rfl⟩ := mem_map.mp hmem
      obtain ⟨d, hd⟩ := mem_iff_getElem?.mp hx
      rw [getElem?_drop] at hd
      have hlen := (List.getElem?_eq_some_iff.mp hd).1
      rw [length_take] at hlen
      rw [getElem?_take_of_lt (by omega)] at hd
      refine hleaves (i + 1 + d) x (by omega) ?_
      rw [happliedAt _ (by omega), hd]
    exact hholds.locking hne

end Systems

def samplePrepare : LogEntry (Fin 3) := ⟨1, 2, .data (.prepare ['t'] 5 [(['k'], some ['v'])])⟩

/-- Node 0 leads term 1 and gives prepares to node 1, which leads term 2 and commits them with
node 2. -/
def inherited (log : List (LogEntry (Fin 3))) : List (LeaderReads.Event (Fin 3)) :=
  List.map .raft (elect 0 1 0 0 [(1, 0)] ++
      (log.map fun e => .propose 0 (payload e)) ++ .heartbeat 0 ::
      send 1 ⟨1, 0, 0, 0, ⟨1, 1, .noop⟩ :: log, 0⟩ ++
      .restart 1 :: elect 1 2 (log.length + 1) 1 [(2, 0)] ++
      .heartbeat 1 ::
      exchange 2 ⟨2, 1, log.length + 1, 1, [⟨2, log.length + 2, .noop⟩], 0⟩ false 0 ++
      exchange 2 ⟨2, 1, 0, 0, ⟨1, 1, .noop⟩ :: log ++ [⟨2, log.length + 2, .noop⟩], 0⟩ true
        (log.length + 2)) ++
    List.replicate (2 * log.length + 2) (.apply 1)

theorem gated_of_inherited : ∃ s : System (Fin 3),
    Reaches (LeaderReads.step fun _ => none) Keeps (LeaderReads.start {0, 1, 2}) s ∧
      (s.cluster.nodes 1).isReady = true ∧ samplePrepare ∈ (s.cluster.nodes 1).log ∧
      (s.replicas 1).store.intentLocking ['k'] [] = some ['t'] ∧
      Gated (s.cluster.nodes 1) (s.replicas 1).store := by
  obtain ⟨s, hs, huniq, hfree, hready, hmem, hlocking⟩ :=
    exists_reaches (LeaderReads.step fun _ => none) Keeps
    (LeaderReads.start {0, 1, 2} : System (Fin 3)) (inherited [samplePrepare])
    (fun s => UniqueLeaders s.cluster ∧
      (s.replicas 1).Free (s.cluster.nodes 1) ∧ (s.cluster.nodes 1).isReady = true ∧
      samplePrepare ∈ (s.cluster.nodes 1).log ∧
      (s.replicas 1).store.intentLocking ['k'] [] = some ['t']) (by decide +kernel)
  exact ⟨s, hs, hready, hmem, hlocking, gated_of_reaches hs huniq hfree hready⟩

/-- A second prepare of the transaction has another key and replaces the first one. -/
theorem not_locked_of_repeatedPrepare : ∃ s : System (Fin 3),
    Reaches (LeaderReads.step fun _ => none) Keeps (LeaderReads.start {0, 1, 2}) s ∧
      UniqueLeaders s.cluster ∧ (s.replicas 1).Free (s.cluster.nodes 1) ∧
      (s.cluster.nodes 1).isReady = true ∧
      (s.cluster.nodes 1).log[1]? = some samplePrepare ∧
      samplePrepare.term < (s.cluster.nodes 1).currentTerm ∧
      (∀ x ∈ (s.cluster.nodes 1).applied,
        payload x ≠ .commit ['t'] ∧ payload x ≠ .abort ['t']) ∧
      (s.replicas 1).store.intentLocking ['k'] [] = none :=
  exists_reaches (LeaderReads.step fun _ => none) Keeps
    (LeaderReads.start {0, 1, 2} : System (Fin 3))
    (inherited [samplePrepare, ⟨1, 3, .data (.prepare ['t'] 5 [(['j'], some ['v'])])⟩]) _
    (by decide +kernel)

end LiteDB.ReadinessGate
