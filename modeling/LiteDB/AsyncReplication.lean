import LiteDB.IndexedLists
import LiteDB.Runs
import Mathlib.Data.Int.Order.Basic

namespace LiteDB.AsyncReplication

open IndexedLists List Runs

/-- An entry of the replicated log (`replication.py`). -/
structure WALEntry (α : Type) where
  sequence : Int
  payload : α
deriving DecidableEq

/-- Where the thread of a connection is: in the backlog of the socket, among the replicas
of the publisher, or behind its reading of the buffer. -/
inductive Phase where
  | backlog
  | registered
  | streaming
deriving DecidableEq

/-- `lastSeq` is the offset that the subscriber has sent, `outgoing` has the entries that
the thread is about to send, and `wire` those that the subscriber has not read. -/
structure ReplicaConnection (α : Type) where
  subscriber : Nat
  lastSeq : Int
  phase : Phase
  queue : List (WALEntry α)
  outgoing : List (WALEntry α)
  wire : List (WALEntry α)

/-- `applied` has the entries that were passed to `apply_fn`. -/
structure Subscriber (α : Type) where
  initialOffset : Int
  offset : Int
  conn : Option Nat
  applied : List (WALEntry α)

/-- `fanout` is the entry of a `publish` between its two critical sections. -/
structure State (α : Type) where
  walBuffer : List (WALEntry α)
  fanout : Option (WALEntry α)
  conns : List (ReplicaConnection α)
  subscribers : List (Subscriber α)

/-- The critical sections of `publish`, of a connection and of a subscriber. A connection is
handed entries from its registration on, and it reads the buffer later. -/
inductive Event (α : Type) where
  | append (e : WALEntry α)
  | fanOut
  | subscribe (initialOffset : Int)
  | connect (i : Nat)
  | register (c : Nat)
  | replay (c : Nat)
  | send (c : Nat)
  | drain (c : Nat)
  | apply (i : Nat)
  | disconnect (i : Nat)

variable {α : Type}

def missed (walBuffer : List (WALEntry α)) (offset : Int) : List (WALEntry α) :=
  walBuffer.filter fun e => offset < e.sequence

def ReplicaConnection.enqueue (e : WALEntry α) (k : ReplicaConnection α) : ReplicaConnection α :=
  if k.phase = .backlog then k else { k with queue := k.queue ++ [e] }

namespace State

def setConn (s : State α) (c : Nat) (k : ReplicaConnection α) : State α :=
  { s with conns := s.conns.set c k }

def setSubscriber (s : State α) (i : Nat) (x : Subscriber α) : State α :=
  { s with subscribers := s.subscribers.set i x }

def connection (s : State α) (x : Subscriber α) : Option (ReplicaConnection α) :=
  x.conn.bind fun c => s.conns[c]?

end State

def stepConn (s : State α) (c : Nat) (k : ReplicaConnection α) : Event α → Option (State α)
  | .register _ =>
      if k.phase = .backlog then some (s.setConn c { k with phase := .registered }) else none
  | .replay _ =>
      if k.phase = .registered then
        some (s.setConn c { k with
          phase := .streaming
          outgoing := missed s.walBuffer k.lastSeq })
      else none
  | .send _ =>
      match k.outgoing with
      | [] => none
      | e :: rest => some (s.setConn c { k with outgoing := rest, wire := k.wire ++ [e] })
  | .drain _ =>
      if k.phase = .streaming ∧ k.outgoing.isEmpty then
        some (s.setConn c { k with outgoing := k.queue, queue := [] })
      else none
  | _ => none

def stepSubscriber (s : State α) (i : Nat) (x : Subscriber α) : Event α → Option (State α)
  | .connect _ =>
      if x.conn = none then
        some { s.setSubscriber i { x with conn := some s.conns.length } with
          conns := s.conns ++ [⟨i, x.offset, .backlog, [], [], []⟩] }
      else none
  | .apply _ => do
      let c ← x.conn
      let k ← s.conns[c]?
      match k.wire with
      | [] => none
      | e :: rest =>
          some ((s.setConn c { k with wire := rest }).setSubscriber i
            { x with offset := e.sequence, applied := x.applied ++ [e] })
  | .disconnect _ =>
      if x.conn = none then none else some (s.setSubscriber i { x with conn := none })
  | _ => none

/-- There is one publisher, whose sequence numbers increase. -/
def step (s : State α) : Event α → Option (State α)
  | .append e =>
      if s.fanout = none ∧ ∀ x ∈ s.walBuffer, x.sequence < e.sequence then
        some { s with walBuffer := s.walBuffer ++ [e], fanout := some e }
      else none
  | .fanOut => s.fanout.map fun e =>
      { s with fanout := none, conns := s.conns.map (ReplicaConnection.enqueue e) }
  | .subscribe initialOffset =>
      some { s with subscribers := s.subscribers ++ [⟨initialOffset, initialOffset, none, []⟩] }
  | .connect i => s.subscribers[i]?.bind fun x => stepSubscriber s i x (.connect i)
  | .apply i => s.subscribers[i]?.bind fun x => stepSubscriber s i x (.apply i)
  | .disconnect i => s.subscribers[i]?.bind fun x => stepSubscriber s i x (.disconnect i)
  | .register c => s.conns[c]?.bind fun k => stepConn s c k (.register c)
  | .replay c => s.conns[c]?.bind fun k => stepConn s c k (.replay c)
  | .send c => s.conns[c]?.bind fun k => stepConn s c k (.send c)
  | .drain c => s.conns[c]?.bind fun k => stepConn s c k (.drain c)

def init : State α := ⟨[], none, [], []⟩

/-- No `publish` runs between the registration of a connection and its reading of the
buffer, and no subscriber claims an offset that is still to be published. -/
def Quiet (s : State α) : Event α → Prop
  | .append e => ∀ x ∈ s.subscribers,
      x.offset < e.sequence ∧ (s.connection x).map ReplicaConnection.phase ≠ some .registered
  | .register c => (∃ x ∈ s.subscribers, x.conn = some c) → s.fanout = none
  | _ => True

instance (s : State α) (a : Event α) : Decidable (Quiet s a) := by
  unfold Quiet
  split <;> infer_instance

section Invariant

variable {s t : State α} {i c : Nat} {x : Subscriber α} {k : ReplicaConnection α}

/-- The entries between the subscriber and the end of the buffer. -/
def inFlight (fanout : Option (WALEntry α)) (k : ReplicaConnection α) : List (WALEntry α) :=
  k.wire ++ (k.outgoing ++ (k.queue ++ fanout.toList))

/-- What a connection will bring to its subscriber. -/
def InStep (walBuffer : List (WALEntry α)) (fanout : Option (WALEntry α)) (x : Subscriber α)
    (k : ReplicaConnection α) : Prop :=
  match k.phase with
  | .streaming => inFlight fanout k = missed walBuffer x.offset
  | phase => k.lastSeq = x.offset ∧ k.wire = [] ∧ k.outgoing = [] ∧ k.queue = [] ∧
      (phase = .registered → fanout = none)

/-- What has been applied and what is missed make up the log behind the first offset. -/
structure Prompt (walBuffer : List (WALEntry α)) (x : Subscriber α) : Prop where
  applied : x.applied ++ missed walBuffer x.offset = missed walBuffer x.initialOffset
  le : x.initialOffset ≤ x.offset

/-- Every connected subscriber has all entries behind it still in front of it. -/
structure Inv (s : State α) : Prop where
  sorted : s.walBuffer.Pairwise fun a b => a.sequence < b.sequence
  prompt : ∀ x ∈ s.subscribers, Prompt s.walBuffer x
  inStep : ∀ (i : Nat) x, s.subscribers[i]? = some x → ∀ c, x.conn = some c →
    ∃ k, s.conns[c]? = some k ∧ k.subscriber = i ∧ InStep s.walBuffer s.fanout x k

theorem inv_init : Inv (init : State α) :=
  ⟨List.Pairwise.nil, by simp [init], by simp [init]⟩

variable {e : WALEntry α} {offset : Int} {rest : List (WALEntry α)} {a : Event α}
  {x' : Subscriber α}

theorem missed_concat (walBuffer : List (WALEntry α)) (h : offset < e.sequence) :
    missed (walBuffer ++ [e]) offset = missed walBuffer offset ++ [e] := by
  simp [missed, filter_append, h]

theorem missed_cons {walBuffer : List (WALEntry α)}
    (hsorted : walBuffer.Pairwise fun a b => a.sequence < b.sequence)
    (h : missed walBuffer offset = e :: rest) :
    offset < e.sequence ∧ missed walBuffer e.sequence = rest := by
  have hmem : e ∈ missed walBuffer offset := by rw [h]; exact mem_cons_self ..
  have hlt : offset < e.sequence := by simpa using (mem_filter.mp hmem).2
  refine ⟨hlt, ?_⟩
  have hagain : missed walBuffer e.sequence = missed (missed walBuffer offset) e.sequence := by
    rw [missed, missed, missed, filter_filter]
    refine filter_congr fun y _ => ?_
    by_cases hy : e.sequence < y.sequence
    · have hall : offset < y.sequence := by omega
      simp [hy, hall]
    · simp [hy]
  have hrest : (e :: rest).Pairwise fun a b : WALEntry α => a.sequence < b.sequence := by
    rw [← h]
    exact hsorted.filter _
  rw [hagain, h, missed, filter_cons_of_neg (by simp), filter_eq_self]
  intro y hy
  simpa using (pairwise_cons.mp hrest).1 y hy

theorem Inv.setConn (h : Inv s) {k' : ReplicaConnection α} (hk : s.conns[c]? = some k)
    (howner : k'.subscriber = k.subscriber)
    (hk' : ∀ x, x ∈ s.subscribers → x.conn = some c → InStep s.walBuffer s.fanout x k →
      InStep s.walBuffer s.fanout x k') :
    Inv (s.setConn c k') := by
  refine ⟨h.sorted, h.prompt, fun i x hx d hd => ?_⟩
  obtain ⟨k₀, hk₀, hown, hin⟩ := h.inStep i x hx d hd
  by_cases hcd : c = d
  · subst hcd
    cases hk.symm.trans hk₀
    refine ⟨k', ?_, howner.trans hown, hk' x (mem_of_getElem? hx) hd hin⟩
    exact getElem?_set_self (lt_length_of_getElem? hk)
  · exact ⟨k₀, (getElem?_set_ne hcd).trans hk₀, hown, hin⟩

theorem Inv.stepConn (h : Inv s) (hk : s.conns[c]? = some k) (ha : Quiet s a)
    (hc : ∀ d, a = .register d → d = c) (hstep : stepConn s c k a = some t) : Inv t := by
  cases a with
  | register d =>
    obtain rfl := hc d rfl
    obtain ⟨hphase, ⟨⟩⟩ := Option.ite_none_right_eq_some.mp hstep
    refine h.setConn hk rfl fun x hx hconn hin => ?_
    simp only [InStep, hphase] at hin ⊢
    exact ⟨hin.1, hin.2.1, hin.2.2.1, hin.2.2.2.1, fun _ => ha ⟨x, hx, hconn⟩⟩
  | replay d =>
    obtain ⟨hphase, ⟨⟩⟩ := Option.ite_none_right_eq_some.mp hstep
    refine h.setConn hk rfl fun x hx hconn hin => ?_
    simp only [InStep, hphase] at hin ⊢
    obtain ⟨hseq, hwire, -, hqueue, hfanout⟩ := hin
    simp [inFlight, hwire, hqueue, hfanout trivial, hseq]
  | send d =>
    simp only [AsyncReplication.stepConn] at hstep
    split at hstep <;> cases hstep
    rename_i e rest hout
    refine h.setConn hk rfl fun x hx hconn hin => ?_
    unfold InStep at hin ⊢
    split at hin
    · rename_i hphase
      simp only [hphase]
      rw [← hin]
      simp [inFlight, hout]
    · simp [hout] at hin
  | drain d =>
    obtain ⟨⟨hphase, hempty⟩, ⟨⟩⟩ := Option.ite_none_right_eq_some.mp hstep
    refine h.setConn hk rfl fun x hx hconn hin => ?_
    simp only [InStep, hphase] at hin ⊢
    rw [← hin]
    simp [inFlight, List.isEmpty_iff.mp hempty]
  | _ => simp [AsyncReplication.stepConn] at hstep

theorem Inv.setSubscriber (h : Inv s) (hprompt : Prompt s.walBuffer x')
    (hin : ∀ c, x'.conn = some c → ∃ k, s.conns[c]? = some k ∧ k.subscriber = i ∧
      InStep s.walBuffer s.fanout x' k) :
    Inv (s.setSubscriber i x') := by
  refine ⟨h.sorted, forall_mem_set h.prompt hprompt, fun j y hy c hc => ?_⟩
  rcases getElem?_set_cases hy with ⟨-, hj⟩ | ⟨rfl, rfl⟩
  · exact h.inStep j y hj c hc
  · exact hin c hc

theorem Inv.connect (h : Inv s) (hx : s.subscribers[i]? = some x) :
    Inv { s.setSubscriber i { x with conn := some s.conns.length } with
      conns := s.conns ++ [⟨i, x.offset, .backlog, [], [], []⟩] } := by
  have hprompt := h.prompt x (mem_of_getElem? hx)
  refine ⟨h.sorted, forall_mem_set h.prompt ⟨hprompt.applied, hprompt.le⟩, fun j y hy c hc => ?_⟩
  rcases getElem?_set_cases hy with ⟨-, hj⟩ | ⟨rfl, rfl⟩
  · obtain ⟨k, hk, howner, hin⟩ := h.inStep j y hj c hc
    exact ⟨k, getElem?_append_left (lt_length_of_getElem? hk) ▸ hk, howner, hin⟩
  · cases hc
    refine ⟨⟨i, x.offset, .backlog, [], [], []⟩, by simp, rfl, ?_⟩
    simp [InStep]

theorem Inv.apply (h : Inv s) (hx : s.subscribers[i]? = some x) (hconn : x.conn = some c)
    (hk : s.conns[c]? = some k) (hwire : k.wire = e :: rest) :
    x.offset < e.sequence ∧ Inv ((s.setConn c { k with wire := rest }).setSubscriber i
      { x with offset := e.sequence, applied := x.applied ++ [e] }) := by
  obtain ⟨k₀, hk₀, howner, hin⟩ := h.inStep i x hx c hconn
  cases hk.symm.trans hk₀
  have hphase : k.phase = .streaming := by
    unfold InStep at hin
    split at hin
    · assumption
    · simp [hwire] at hin
  have hflight : inFlight s.fanout k = missed s.walBuffer x.offset := by
    simpa only [InStep, hphase] using hin
  have hfirst : missed s.walBuffer x.offset = e :: inFlight s.fanout { k with wire := rest } := by
    rw [← hflight]
    simp [inFlight, hwire]
  obtain ⟨hlt, hmissed⟩ := missed_cons h.sorted hfirst
  have hprompt := h.prompt x (mem_of_getElem? hx)
  refine ⟨hlt, h.sorted, fun y hy => ?_, fun j y hy d hd => ?_⟩
  · obtain ⟨j, hj⟩ := mem_iff_getElem?.mp hy
    rcases getElem?_set_cases hj with ⟨-, hj⟩ | ⟨-, rfl⟩
    · exact h.prompt y (mem_of_getElem? hj)
    · refine ⟨?_, le_trans hprompt.le (le_of_lt hlt)⟩
      change x.applied ++ [e] ++ missed s.walBuffer e.sequence = missed s.walBuffer x.initialOffset
      rw [← hprompt.applied, hfirst, hmissed, append_assoc, singleton_append]
  · have hset : ∀ (d : Nat) k', (s.conns.set c { k with wire := rest })[d]? = some k' →
        ((s.setConn c { k with wire := rest }).setSubscriber i
          { x with offset := e.sequence, applied := x.applied ++ [e] }).conns[d]? = some k' :=
      fun _ _ hd => hd
    rcases getElem?_set_cases hy with ⟨hij, hj⟩ | ⟨rfl, rfl⟩
    · obtain ⟨k', hk', howner', hin'⟩ := h.inStep j y hj d hd
      -- another subscriber reads from another connection
      have hcd : c ≠ d := by
        rintro rfl
        cases hk.symm.trans hk'
        exact hij (howner.symm.trans howner')
      exact ⟨k', hset d k' ((getElem?_set_ne hcd).trans hk'), howner', hin'⟩
    · cases hconn.symm.trans hd
      refine ⟨{ k with wire := rest }, hset c _ ?_, howner, ?_⟩
      · exact getElem?_set_self (lt_length_of_getElem? hk)
      · simp only [InStep, hphase]
        exact hmissed.symm

theorem Inv.append (h : Inv s) (hfanout : s.fanout = none)
    (hlast : ∀ x ∈ s.walBuffer, x.sequence < e.sequence)
    (hquiet : ∀ x ∈ s.subscribers, x.offset < e.sequence ∧
      (s.connection x).map ReplicaConnection.phase ≠ some .registered) :
    Inv { s with walBuffer := s.walBuffer ++ [e], fanout := some e } := by
  refine ⟨pairwise_concat h.sorted hlast, fun x hx => ?_, fun j x hx c hc => ?_⟩
  · have hprompt := h.prompt x hx
    have hoffset := (hquiet x hx).1
    refine ⟨?_, hprompt.le⟩
    change x.applied ++ missed (s.walBuffer ++ [e]) x.offset = missed (s.walBuffer ++ [e]) _
    rw [missed_concat _ hoffset, missed_concat _ (lt_of_le_of_lt hprompt.le hoffset),
      ← append_assoc, hprompt.applied]
  · obtain ⟨k, hk, howner, hin⟩ := h.inStep j x hx c hc
    have hmem := mem_of_getElem? hx
    refine ⟨k, hk, howner, ?_⟩
    have hphase : k.phase ≠ .registered := by
      intro hphase
      refine (hquiet x hmem).2 ?_
      simp [State.connection, hc, hk, hphase]
    unfold InStep at hin ⊢
    split at hin
    · rw [missed_concat _ (hquiet x hmem).1, ← hin]
      simp [inFlight, hfanout]
    · rename_i hstreaming
      cases hk' : k.phase with
      | backlog => exact ⟨hin.1, hin.2.1, hin.2.2.1, hin.2.2.2.1, by simp⟩
      | registered => exact absurd hk' hphase
      | streaming => exact absurd hk' hstreaming

theorem Inv.fanOut (h : Inv s) (hfanout : s.fanout = some e) :
    Inv { s with fanout := none, conns := s.conns.map (ReplicaConnection.enqueue e) } := by
  refine ⟨h.sorted, h.prompt, fun j x hx c hc => ?_⟩
  obtain ⟨k, hk, howner, hin⟩ := h.inStep j x hx c hc
  refine ⟨k.enqueue e, by simp [hk], ?_, ?_⟩
  · rw [← howner, ReplicaConnection.enqueue]
    split <;> rfl
  · cases hphase : k.phase with
    | backlog =>
      have henqueue : k.enqueue e = k := by rw [ReplicaConnection.enqueue, if_pos hphase]
      rw [henqueue]
      simp only [InStep, hphase] at hin ⊢
      exact ⟨hin.1, hin.2.1, hin.2.2.1, hin.2.2.2.1, by simp⟩
    | registered =>
      simp only [InStep, hphase] at hin
      simp [hin.2.2.2.2] at hfanout
    | streaming =>
      have henqueue : k.enqueue e = { k with queue := k.queue ++ [e] } := by
        rw [ReplicaConnection.enqueue, if_neg (by simp [hphase])]
      rw [henqueue]
      simp only [InStep, hphase] at hin ⊢
      rw [← hin]
      simp [inFlight, hfanout]

/-- The offsets do not decrease. -/
def Advances (s t : State α) : Prop :=
  ∀ (i : Nat) x, s.subscribers[i]? = some x →
    ∃ y, t.subscribers[i]? = some y ∧ y.initialOffset = x.initialOffset ∧ x.offset ≤ y.offset

theorem Advances.of_eq (h : t.subscribers = s.subscribers) : Advances s t :=
  fun _ x hx => ⟨x, by rw [h, hx], rfl, le_rfl⟩

theorem Advances.trans {u : State α} (h : Advances s t) (h' : Advances t u) : Advances s u := by
  intro i x hx
  obtain ⟨y, hy, hinit, hle⟩ := h i x hx
  obtain ⟨z, hz, hinit', hle'⟩ := h' i y hy
  exact ⟨z, hz, hinit'.trans hinit, le_trans hle hle'⟩

theorem advances_set (hx : s.subscribers[i]? = some x) (ht : t.subscribers = s.subscribers.set i x')
    (hinit : x'.initialOffset = x.initialOffset) (hle : x.offset ≤ x'.offset) : Advances s t := by
  intro j y hy
  rw [ht]
  by_cases hij : i = j
  · subst hij
    cases hx.symm.trans hy
    exact ⟨x', getElem?_set_self (lt_length_of_getElem? hx), hinit, hle⟩
  · exact ⟨y, (getElem?_set_ne hij).trans hy, rfl, le_rfl⟩

theorem subscribers_stepConn (hstep : stepConn s c k a = some t) :
    t.subscribers = s.subscribers := by
  cases a with
  | register c | replay c | drain c =>
    obtain ⟨-, ⟨⟩⟩ := Option.ite_none_right_eq_some.mp hstep
    rfl
  | send c =>
    cases hout : k.outgoing with
    | nil => simp [stepConn, hout] at hstep
    | cons e rest =>
      simp only [stepConn, hout, Option.some.injEq] at hstep
      exact hstep ▸ rfl
  | _ => contradiction

theorem Inv.step (h : Inv s) (ha : Quiet s a) (hstep : step s a = some t) :
    Inv t ∧ Advances s t := by
  have hconn : ∀ c, (∀ d, a = .register d → d = c) →
      (s.conns[c]?.bind fun k => AsyncReplication.stepConn s c k a) = some t →
        Inv t ∧ Advances s t := by
    intro c hc hstep
    obtain ⟨k, hk, hstep⟩ := Option.bind_eq_some_iff.mp hstep
    exact ⟨h.stepConn hk ha hc hstep, Advances.of_eq (subscribers_stepConn hstep)⟩
  cases a with
  | append e =>
    obtain ⟨⟨hfanout, hlast⟩, ⟨⟩⟩ := Option.ite_none_right_eq_some.mp hstep
    exact ⟨h.append hfanout hlast ha, Advances.of_eq rfl⟩
  | fanOut =>
    obtain ⟨e, he, rfl⟩ := Option.map_eq_some_iff.mp hstep
    exact ⟨h.fanOut he, Advances.of_eq rfl⟩
  | subscribe initialOffset =>
    cases hstep
    refine ⟨⟨h.sorted, fun x hx => ?_, fun j x hx c hc => ?_⟩, fun j x hx => ?_⟩
    · rcases mem_append.mp hx with hx | hx
      · exact h.prompt x hx
      · rw [mem_singleton.mp hx]
        exact ⟨nil_append _, le_rfl⟩
    · rcases getElem?_concat_cases hx with hx | ⟨-, rfl⟩
      · exact h.inStep j x hx c hc
      · simp at hc
    · refine ⟨x, ?_, rfl, le_rfl⟩
      rw [getElem?_append_left (lt_length_of_getElem? hx), hx]
  | connect i =>
    obtain ⟨x, hx, hstep⟩ := Option.bind_eq_some_iff.mp hstep
    obtain ⟨-, ⟨⟩⟩ := Option.ite_none_right_eq_some.mp hstep
    exact ⟨h.connect hx, advances_set hx rfl rfl le_rfl⟩
  | apply i =>
    obtain ⟨x, hx, hstep⟩ := Option.bind_eq_some_iff.mp hstep
    obtain ⟨c, hc, hstep⟩ := Option.bind_eq_some_iff.mp hstep
    obtain ⟨k, hk, hstep⟩ := Option.bind_eq_some_iff.mp hstep
    cases hwire : k.wire with
    | nil => simp [hwire] at hstep
    | cons e rest =>
      rw [hwire] at hstep
      cases hstep
      obtain ⟨hlt, hinv⟩ := h.apply hx hc hk hwire
      exact ⟨hinv, advances_set hx rfl rfl (le_of_lt hlt)⟩
  | disconnect i =>
    obtain ⟨x, hx, hstep⟩ := Option.bind_eq_some_iff.mp hstep
    obtain ⟨-, ⟨⟩⟩ := Option.ite_none_left_eq_some.mp hstep
    have hprompt := h.prompt x (mem_of_getElem? hx)
    refine ⟨h.setSubscriber ⟨hprompt.applied, hprompt.le⟩ (by simp), ?_⟩
    exact advances_set hx rfl rfl le_rfl
  | register c => exact hconn c (by simp) hstep
  | replay c => exact hconn c (by simp) hstep
  | send c => exact hconn c (by simp) hstep
  | drain c => exact hconn c (by simp) hstep

end Invariant

/-- Every subscriber has applied a part of the log without gaps, from its first offset on,
and its offset does not decrease later. -/
def Delivers (ok : State α → Event α → Prop) (s : State α) : Prop :=
  (∀ x ∈ s.subscribers, x.applied <+: missed s.walBuffer x.initialOffset) ∧
    ∀ t, Reaches step ok s t → Advances s t

theorem delivers_of_reaches {s : State α} (h : Reaches step Quiet init s) : Delivers Quiet s := by
  have hinv : Inv s := h.invariant Inv inv_init fun _ _ _ hu ha hstep => (hu.step ha hstep).1
  refine ⟨fun x hx => ⟨_, (hinv.prompt x hx).applied⟩, fun t ht => ?_⟩
  have hboth : Inv t ∧ Advances s t :=
    ht.invariant (fun u => Inv u ∧ Advances s u) ⟨hinv, Advances.of_eq rfl⟩
      fun u a w hu ha hstep => by
        obtain ⟨hw, hadv⟩ := hu.1.step ha hstep
        exact ⟨hw, hu.2.trans hadv⟩
  exact hboth.2

/-- A subscriber is cut off behind the first entry, and it reconnects. -/
def reconnecting : List (Event Nat) :=
  [.subscribe (-1), .connect 0, .register 0, .replay 0, .append ⟨0, 7⟩, .fanOut, .append ⟨1, 8⟩,
    .fanOut, .drain 0, .send 0, .send 0, .apply 0, .disconnect 0, .connect 0, .register 1,
    .replay 1, .append ⟨5, 9⟩, .fanOut, .send 1, .drain 1, .send 1, .apply 0, .apply 0]

theorem delivers_of_reconnecting : ∃ s : State Nat, Reaches step Quiet init s ∧
    (∃ x ∈ s.subscribers, x.applied = [⟨0, 7⟩, ⟨1, 8⟩, ⟨5, 9⟩]) ∧ Delivers Quiet s := by
  obtain ⟨s, hs, htest⟩ := exists_reaches step Quiet init reconnecting
    (fun s => ∃ x ∈ s.subscribers, x.applied = [⟨0, 7⟩, ⟨1, 8⟩, ⟨5, 9⟩]) (by decide +kernel)
  exact ⟨s, hs, htest, delivers_of_reaches hs⟩

/-- An entry that is published between the registration and the reading of the buffer is
sent from the buffer and from the queue. -/
def twice : List (Event Nat) :=
  [.subscribe (-1), .connect 0, .register 0, .append ⟨0, 7⟩, .fanOut, .append ⟨1, 8⟩, .fanOut,
    .replay 0, .send 0, .send 0, .apply 0, .apply 0, .drain 0, .send 0, .apply 0]

theorem not_delivers_of_twice : ¬∀ s : State Nat, Reaches step (fun _ _ => True) init s →
    Delivers (fun _ _ => True) s := by
  intro hall
  obtain ⟨s, hs, x, hx, hnot⟩ := exists_reaches step (fun _ _ => True) init twice
    (fun s => ∃ x ∈ s.subscribers, ¬x.applied <+: missed s.walBuffer x.initialOffset)
    (by decide +kernel)
  exact hnot ((hall s hs).1 x hx)

end LiteDB.AsyncReplication
