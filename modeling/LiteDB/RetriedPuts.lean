import LiteDB.IndexedLists
import LiteDB.Runs
import Mathlib.Order.Nat

/-!
One `ClusterClient.put` and everything it sets off. The client tries the nodes one
after another, each through `RPCClient.call` with its second attempt; a node that
gets the request resolves the leader of the shard and forwards `shard_write`
through `_call_ready`, again with two attempts a call; the leader proposes the
write. Nothing identifies the request, so every delivery starts a new execution,
and an execution goes on when nobody waits for it any more.
-/

namespace LiteDB.RetriedPuts

open IndexedLists List Option Runs

/-- The results of `_on_txn` and `commit_write` for the writes of one shard. -/
inductive Reply
  | ok
  | timeout
  | notLeader
  | notReady
  | conflict
  | locked
  | notHosted
  | noLeader
  | rpcFailed
  | allNodesUnreachable
  deriving DecidableEq

/-- What the RPC server answers: the result of the handler, or that it raised. -/
inductive Envelope
  | result (reply : Reply)
  | error
  deriving DecidableEq

/-- The progress of one `RPCClient.call`: whether it is in its second attempt, and
the request of which it awaits the response. -/
structure Call where
  second : Bool
  awaited : Option Nat
  deriving DecidableEq

namespace Call

def first : Call := ⟨false, none⟩

def retry (call : Call) : Option Call :=
  if call.second then none else some ⟨true, none⟩

end Call

/-- The client in `_call`, with the number of nodes it has not tried. -/
inductive Client
  | calling (rest : Nat) (call : Call)
  | returned (reply : Reply)
  deriving DecidableEq

namespace Client

def next (last : Reply) : Nat → Client
  | 0 => .returned last
  | rest + 1 => .calling rest Call.first

def awaited : Client → Option Nat
  | .calling _ call => call.awaited
  | .returned _ => none

end Client

/-- A node that handles the put: in `_leader_of`, in `_call_ready` with the retries
it has left, or done. The flag says that the node leads the shard itself. -/
inductive Router
  | resolving
  | calling (isSelf : Bool) (retries : Nat) (call : Call)
  | replied (envelope : Envelope)
  deriving DecidableEq

namespace Router

def awaited : Router → Option Nat
  | .calling _ _ call => call.awaited
  | _ => none

/-- The router goes on with the result of `_call`. -/
def resume (isSelf : Bool) : Nat → Reply → Router
  | retries + 1, .notReady => .calling isSelf retries Call.first
  | _, reply => .replied (.result reply)

/-- The response to `shard_write`. `_call` turns an error envelope into a result,
where a handler that was called directly raises through it. -/
def receive (isSelf : Bool) (retries : Nat) : Envelope → Router
  | .result reply => resume isSelf retries reply
  | .error => if isSelf then .replied .error else resume isSelf retries .rpcFailed

theorem resume_awaited (isSelf : Bool) (retries : Nat) (reply : Reply) :
    (resume isSelf retries reply).awaited = none := by
  rcases retries with - | retries <;> cases reply <;> rfl

theorem exists_receive_eq {envelope : Envelope} (h : envelope ≠ .result .notReady) (isSelf : Bool)
    (retries : Nat) : ∃ e, receive isSelf retries envelope = .replied e := by
  rcases envelope with reply | - <;> rcases retries with - | retries
  · exact ⟨_, rfl⟩
  · cases reply <;> first | exact ⟨_, rfl⟩ | contradiction
  · cases isSelf <;> exact ⟨_, rfl⟩
  · cases isSelf <;> exact ⟨_, rfl⟩

end Router

/-- An execution of `shard_write` on the node that the router took for the leader. -/
structure Execution where
  router : Nat
  proposed : Bool
  committed : Bool
  response : Option Envelope
  deriving DecidableEq

/-- Whose put made a version of the key. -/
inductive Origin
  | own
  | other
  deriving DecidableEq

/-- `committed` has the versions of the key in the order of their commits. -/
structure State where
  client : Client
  routers : List Router
  executions : List Execution
  committed : List Origin
  deriving DecidableEq

/-- The steps of the client, of the nodes it reaches and of the leaders they reach. -/
inductive Event
  /-- The attempt of the client fails before a node has the request. -/
  | unreachable
  | deliver
  /-- The client stops waiting: its timeout expires or the connection breaks. -/
  | giveUp
  | receive
  | resolve (i : Nat) (isSelf : Bool)
  | noLeader (i : Nat)
  | forwardUnreachable (i : Nat)
  | forward (i : Nat)
  | forwardGiveUp (i : Nat)
  | forwardReceive (i : Nat)
  /-- `commit_write` returns before it proposes. -/
  | refuse (j : Nat) (reply : Reply)
  | propose (j : Nat)
  | commit (j : Nat)
  | waited (j : Nat) (ok : Bool)
  | raise (j : Nat)
  | otherPut
  deriving DecidableEq

namespace State

def init (nodes : Nat) : State :=
  ⟨Client.next .allNodesUnreachable nodes, [], [], []⟩

def attemptFailed (s : State) (rest : Nat) (call : Call) : State :=
  match call.retry with
  | some call => { s with client := .calling rest call }
  | none => { s with client := Client.next .rpcFailed rest }

def forwardFailed (s : State) (i : Nat) (isSelf : Bool) (retries : Nat) (call : Call) : State :=
  match call.retry with
  | some call => { s with routers := s.routers.set i (.calling isSelf retries call) }
  | none => { s with routers := s.routers.set i (Router.resume isSelf retries .rpcFailed) }

def setExecution (s : State) (j : Nat) (x : Execution) : State :=
  { s with executions := s.executions.set j x }

def refusals : List Reply :=
  [.notLeader, .notReady, .conflict, .locked, .notHosted]

def step (s : State) : Event → Option State
  | .unreachable =>
      match s.client with
      | .calling rest call => if call.awaited = none then some (s.attemptFailed rest call) else none
      | .returned _ => none
  | .deliver =>
      match s.client with
      | .calling rest call =>
          if call.awaited = none then
            some { s with
              client := .calling rest ⟨call.second, some s.routers.length⟩
              routers := s.routers ++ [Router.resolving] }
          else none
      | .returned _ => none
  | .giveUp =>
      match s.client with
      | .calling rest call => if call.awaited = none then none else some (s.attemptFailed rest call)
      | .returned _ => none
  | .receive =>
      match s.client with
      | .calling rest call =>
          match call.awaited.bind (s.routers[·]?) with
          | some (.replied (.result reply)) => some { s with client := .returned reply }
          | some (.replied .error) => some { s with client := Client.next .rpcFailed rest }
          | _ => none
      | .returned _ => none
  | .resolve i isSelf =>
      match s.routers[i]? with
      | some .resolving =>
          some { s with routers := s.routers.set i (.calling isSelf 25 Call.first) }
      | _ => none
  | .noLeader i =>
      match s.routers[i]? with
      | some .resolving =>
          some { s with routers := s.routers.set i (.replied (.result .noLeader)) }
      | _ => none
  | .forwardUnreachable i =>
      match s.routers[i]? with
      | some (.calling false retries call) =>
          if call.awaited = none then some (s.forwardFailed i false retries call) else none
      | _ => none
  | .forward i =>
      match s.routers[i]? with
      | some (.calling isSelf retries call) =>
          if call.awaited = none then
            some { s with
              routers := s.routers.set i
                (.calling isSelf retries ⟨call.second, some s.executions.length⟩)
              executions := s.executions ++ [⟨i, false, false, none⟩] }
          else none
      | _ => none
  | .forwardGiveUp i =>
      match s.routers[i]? with
      | some (.calling false retries call) =>
          if call.awaited = none then none else some (s.forwardFailed i false retries call)
      | _ => none
  | .forwardReceive i =>
      match s.routers[i]? with
      | some (.calling isSelf retries call) =>
          ((call.awaited.bind (s.executions[·]?)).bind (·.response)).map fun envelope =>
            { s with routers := s.routers.set i (Router.receive isSelf retries envelope) }
      | _ => none
  | .refuse j reply =>
      match s.executions[j]? with
      | some ⟨i, false, committed, none⟩ =>
          if reply ∈ refusals then
            some (s.setExecution j ⟨i, false, committed, some (.result reply)⟩)
          else none
      | _ => none
  | .propose j =>
      match s.executions[j]? with
      | some ⟨i, false, committed, none⟩ => some (s.setExecution j ⟨i, true, committed, none⟩)
      | _ => none
  | .commit j =>
      match s.executions[j]? with
      | some ⟨i, true, false, response⟩ =>
          some { s.setExecution j ⟨i, true, true, response⟩ with
            committed := s.committed ++ [Origin.own] }
      | _ => none
  | .waited j ok =>
      match s.executions[j]? with
      | some ⟨i, true, committed, none⟩ =>
          some (s.setExecution j
            ⟨i, true, committed, some (.result (if ok then .ok else .timeout))⟩)
      | _ => none
  | .raise j =>
      match s.executions[j]? with
      | some ⟨i, proposed, committed, none⟩ =>
          some (s.setExecution j ⟨i, proposed, committed, some .error⟩)
      | _ => none
  | .otherPut => some { s with committed := s.committed ++ [Origin.other] }

/-- Some execution that the router started has proposed the write. -/
def Wrote (s : State) (i : Nat) : Prop :=
  ∃ x ∈ s.executions, x.router = i ∧ x.proposed = true

instance (s : State) (i : Nat) : Decidable (s.Wrote i) :=
  inferInstanceAs (Decidable (∃ x ∈ s.executions, x.router = i ∧ x.proposed = true))

/-- The router of the execution still waits for it, and the client for the router. -/
def Live (s : State) (j : Nat) : Prop :=
  ∃ i ∈ s.client.awaited, ∃ r ∈ s.routers[i]?, r.awaited = some j

instance (s : State) (j : Nat) : Decidable (s.Live j) :=
  inferInstanceAs (Decidable (∃ i ∈ s.client.awaited, ∃ r ∈ s.routers[i]?, r.awaited = some j))

/-- An execution proposes only while it is waited for, and from then on neither the
client nor the router drops it: no timeout, no broken connection, no error. -/
def Attended (s : State) : Event → Prop
  | .giveUp => ∀ i ∈ s.client.awaited, ¬s.Wrote i
  | .receive => ∀ i ∈ s.client.awaited, s.routers[i]? = some (.replied .error) → ¬s.Wrote i
  | .forwardGiveUp i =>
      ∀ r ∈ s.routers[i]?, ∀ j ∈ r.awaited, ∀ x ∈ s.executions[j]?, x.proposed = false
  | .propose j => s.Live j
  | _ => True

instance (s : State) (e : Event) : Decidable (s.Attended e) := by
  cases e <;> dsimp only [Attended] <;> infer_instance

/-- The execution is still waited for, or its response is on the way back. -/
def Pending (s : State) (i j : Nat) : Prop :=
  s.client.awaited = some i ∧
    ∃ r, s.routers[i]? = some r ∧ (r.awaited = some j ∨ ∃ envelope, r = .replied envelope)

def Returned (s : State) : Prop :=
  ∃ reply, s.client = .returned reply

/-- One execution at most has proposed, and nobody retries it. -/
structure Inv (s : State) : Prop where
  started : ∀ i ∈ s.client.awaited, i < s.routers.length
  parent : ∀ (j : Nat) (x : Execution), s.executions[j]? = some x → x.router < s.routers.length
  child : ∀ (i j : Nat) (r : Router), s.routers[i]? = some r → r.awaited = some j →
    ∃ x, s.executions[j]? = some x ∧ x.router = i
  unready : ∀ x ∈ s.executions, x.response = some (.result .notReady) → x.proposed = false
  proposed : ∀ x ∈ s.executions, x.committed = true → x.proposed = true
  pending : ∀ (j : Nat) (x : Execution), s.executions[j]? = some x → x.proposed = true →
    s.Pending x.router j ∨ s.Returned
  single : s.executions.countP (·.proposed) ≤ 1
  count : s.committed.count .own = s.executions.countP (·.committed)

def Unwritten (s : State) : Prop :=
  ∀ (j : Nat) (x : Execution), s.executions[j]? = some x → x.proposed = false

variable {s : State}

theorem inv_init (nodes : Nat) : Inv (init nodes) := by
  have hawaited : (init nodes).client.awaited = none := by
    cases nodes <;> rfl
  constructor <;> simp [init, hawaited] at *

namespace Inv

theorem count_le (h : Inv s) : s.committed.count .own ≤ 1 := by
  rw [h.count]
  exact (countP_mono_left h.proposed).trans h.single

variable {rest i j retries : Nat} {r : Router} {x : Execution} {committed isSelf : Bool}
  {envelope : Envelope}

variable (h : Inv s)

include h

theorem unwritten_of_not_wrote {call : Call} (hclient : s.client = .calling rest call)
    (hwrote : ∀ i ∈ s.client.awaited, ¬s.Wrote i) : s.Unwritten := by
  intro j x hx
  by_contra hproposed
  rw [Bool.not_eq_false] at hproposed
  rcases h.pending j x hx hproposed with ⟨hawaited, -⟩ | ⟨reply, hreturned⟩
  · exact hwrote _ hawaited ⟨x, mem_of_getElem? hx, rfl, hproposed⟩
  · rw [hclient] at hreturned
    contradiction

theorem unwritten_of_unawaited {call : Call} (hclient : s.client = .calling rest call)
    (hawaited : call.awaited = none) : s.Unwritten := by
  refine h.unwritten_of_not_wrote hclient fun i hi => ?_
  rw [hclient, Client.awaited, hawaited] at hi
  contradiction

theorem withClient {client : Client} (hstarted : ∀ i ∈ client.awaited, i < s.routers.length)
    (hclient : s.Unwritten ∨ ∃ reply, client = .returned reply) :
    Inv { s with client := client } := by
  refine { h with started := hstarted, pending := fun j x hx hproposed => ?_ }
  rcases hclient with hnone | hreturned
  · exact absurd hproposed (by simp [hnone j x hx])
  · exact .inr hreturned

theorem next (hnone : s.Unwritten) (last : Reply) (rest : Nat) :
    Inv { s with client := Client.next last rest } := by
  refine h.withClient ?_ (.inl hnone)
  cases rest <;> simp [Client.next, Client.awaited, Call.first]

theorem attemptFailed (hnone : s.Unwritten) (rest : Nat) (call : Call) :
    Inv (s.attemptFailed rest call) := by
  rw [State.attemptFailed, Call.retry]
  split
  · rename_i call' hcall
    refine h.withClient ?_ (.inl hnone)
    split at hcall <;> cases hcall
    simp [Client.awaited]
  · exact h.next hnone _ _

theorem addRouter : Inv { s with routers := s.routers ++ [Router.resolving] } := by
  have hlength : s.routers.length < (s.routers ++ [Router.resolving]).length := by
    simp
  refine { h with
    started := fun i hi => (h.started i hi).trans hlength
    parent := fun j x hx => (h.parent j x hx).trans hlength
    child := fun i j r hr hawaited => ?_
    pending := fun j x hx hproposed => ?_ }
  · rcases getElem?_concat_cases hr with hr | ⟨-, rfl⟩
    · exact h.child i j r hr hawaited
    · contradiction
  · refine (h.pending j x hx hproposed).imp (fun ⟨hclient, r, hr, hpending⟩ => ?_) id
    refine ⟨hclient, r, ?_, hpending⟩
    rwa [getElem?_append_left (lt_length_of_getElem? hr)]

theorem addExecution (hi : i < s.routers.length) :
    Inv { s with executions := s.executions ++ [⟨i, false, false, none⟩] } := by
  refine { h with
    parent := fun j x hx => ?_
    child := fun i' j r hr hawaited => ?_
    unready := fun x hx hresponse => ?_
    proposed := fun x hx hcommitted => ?_
    pending := fun j x hx hproposed => ?_
    single := by simpa using h.single
    count := by simpa using h.count }
  · rcases getElem?_concat_cases hx with hx | ⟨-, rfl⟩
    · exact h.parent j x hx
    · exact hi
  · obtain ⟨x, hx, hrouter⟩ := h.child i' j r hr hawaited
    refine ⟨x, ?_, hrouter⟩
    rwa [getElem?_append_left (lt_length_of_getElem? hx)]
  · rcases mem_append.mp hx with hx | hx
    · exact h.unready x hx hresponse
    · obtain rfl := mem_singleton.mp hx
      rfl
  · rcases mem_append.mp hx with hx | hx
    · exact h.proposed x hx hcommitted
    · obtain rfl := mem_singleton.mp hx
      contradiction
  · rcases getElem?_concat_cases hx with hx | ⟨-, rfl⟩
    · exact h.pending j x hx hproposed
    · contradiction

theorem setRouter (hchild : ∀ j, r.awaited = some j → ∃ x, s.executions[j]? = some x ∧ x.router = i)
    (hkeep : ∀ (j : Nat) (x : Execution), s.executions[j]? = some x → x.proposed = true →
      s.Pending i j → r.awaited = some j ∨ ∃ envelope, r = .replied envelope) :
    Inv { s with routers := s.routers.set i r } := by
  refine { h with
    started := fun i' hi' => by simpa using h.started i' hi'
    parent := fun j x hx => by simpa using h.parent j x hx
    child := fun i' j r' hr' hawaited => ?_
    pending := fun j x hx hproposed => ?_ }
  · rcases getElem?_set_cases hr' with ⟨-, hr'⟩ | ⟨rfl, rfl⟩
    · exact h.child i' j r' hr' hawaited
    · exact hchild j hawaited
  · refine (h.pending j x hx hproposed).imp (fun hpending => ?_) id
    obtain ⟨hclient, r', hr', hwaits⟩ := hpending
    by_cases hi : i = x.router
    · subst hi
      refine ⟨hclient, r, ?_, hkeep j x hx hproposed ⟨hclient, r', hr', hwaits⟩⟩
      exact getElem?_set_self (lt_length_of_getElem? hr')
    · exact ⟨hclient, r', by rwa [getElem?_set_ne hi], hwaits⟩

theorem setExecution {x' : Execution} {committed : List Origin}
    (hx : s.executions[j]? = some x) (hrouter : x'.router = x.router)
    (hready : x'.response = some (.result .notReady) → x'.proposed = false)
    (hcommitted : x'.committed = true → x'.proposed = true)
    (hproposed : x'.proposed = true → s.Pending x.router j ∨ s.Returned)
    (hsingle : (s.executions.set j x').countP (·.proposed) ≤ 1)
    (hcount : committed.count .own = (s.executions.set j x').countP (·.committed)) :
    Inv { s.setExecution j x' with committed := committed } := by
  refine { h with
    parent := fun k y hy => ?_
    child := fun i k r hr hawaited => ?_
    unready := fun y hy hresponse => ?_
    proposed := fun y hy hyc => ?_
    pending := fun k y hy hyp => ?_
    single := hsingle
    count := hcount }
  · rcases getElem?_set_cases hy with ⟨-, hy⟩ | ⟨rfl, rfl⟩
    · exact h.parent k y hy
    · exact hrouter ▸ h.parent j x hx
  · obtain ⟨y, hy, hyr⟩ := h.child i k r hr hawaited
    by_cases hjk : j = k
    · subst hjk
      cases hx.symm.trans hy
      refine ⟨x', ?_, hrouter.trans hyr⟩
      exact getElem?_set_self (lt_length_of_getElem? hx)
    · refine ⟨y, ?_, hyr⟩
      exact (getElem?_set_ne hjk).trans hy
  · rcases mem_or_eq_of_mem_set hy with hy | rfl
    · exact h.unready y hy hresponse
    · exact hready hresponse
  · rcases mem_or_eq_of_mem_set hy with hy | rfl
    · exact h.proposed y hy hyc
    · exact hcommitted hyc
  · rcases getElem?_set_cases hy with ⟨-, hy⟩ | ⟨rfl, rfl⟩
    · exact h.pending k y hy hyp
    · exact hrouter ▸ hproposed hyp

theorem respond {proposed : Bool} (hx : s.executions[j]? = some ⟨i, proposed, committed, none⟩)
    (hready : envelope = .result .notReady → proposed = false) :
    Inv (s.setExecution j ⟨i, proposed, committed, some envelope⟩) := by
  have hproposed := h.proposed _ (mem_of_getElem? hx)
  have hpending := h.pending j _ hx
  refine h.setExecution hx rfl (fun henvelope => hready (Option.some.inj henvelope))
    hproposed hpending ?_ ?_
  · exact (countP_set_of_eq hx (by rfl)).trans_le h.single
  · exact h.count.trans (countP_set_of_eq hx (by rfl)).symm

theorem propose (hx : s.executions[j]? = some ⟨i, false, committed, none⟩) (hlive : s.Live j) :
    Inv (s.setExecution j ⟨i, true, committed, none⟩) := by
  obtain ⟨i', hi', r, hr, hawaited⟩ := hlive
  obtain ⟨x, hx', rfl⟩ := h.child i' j r hr hawaited
  cases hx.symm.trans hx'
  -- whatever had been proposed would be what the same router waits for
  have hnone : s.executions.countP (·.proposed) = 0 := by
    rw [countP_eq_zero]
    intro y hy hproposed
    obtain ⟨k, hk⟩ := mem_iff_getElem?.mp hy
    rcases h.pending k y hk hproposed with ⟨hclient, r', hr', hwaits⟩ | ⟨reply, hreturned⟩
    · obtain rfl : i = y.router := Option.some.inj (hi'.symm.trans hclient)
      cases hr.symm.trans hr'
      rcases hwaits with hk' | ⟨envelope, rfl⟩
      · cases hawaited.symm.trans hk'
        rw [← Option.some.inj (hx.symm.trans hk)] at hproposed
        contradiction
      · contradiction
    · rw [hreturned] at hi'
      contradiction
  refine h.setExecution hx rfl nofun (fun _ => rfl)
    (fun _ => .inl ⟨hi', r, hr, .inl hawaited⟩) ?_ ?_
  · rw [countP_set (lt_length_of_getElem? hx), hnone]
    simp
  · exact h.count.trans (countP_set_of_eq hx (by rfl)).symm

theorem commit {response : Option Envelope}
    (hx : s.executions[j]? = some ⟨i, true, false, response⟩) :
    Inv { s.setExecution j ⟨i, true, true, response⟩ with
      committed := s.committed ++ [Origin.own] } := by
  have hready := h.unready _ (mem_of_getElem? hx)
  have hpending := h.pending j _ hx
  refine h.setExecution hx rfl hready (fun _ => rfl) hpending ?_ ?_
  · exact (countP_set_of_eq hx (by rfl)).trans_le h.single
  · obtain ⟨hj, hget⟩ := List.getElem?_eq_some_iff.mp hx
    rw [countP_set hj, hget, count_append, h.count]
    rfl

theorem router {r' : Router} (hr : s.routers[i]? = some r)
    (hopen : ∀ envelope, r ≠ .replied envelope)
    (hlost : ∀ j ∈ r.awaited, ∀ x ∈ s.executions[j]?, x.proposed = false)
    (hchild : ∀ j, r'.awaited = some j → ∃ x, s.executions[j]? = some x ∧ x.router = i) :
    Inv { s with routers := s.routers.set i r' } := by
  refine h.setRouter hchild fun j x hx hproposed ⟨_, r'', hr'', hwaits⟩ => ?_
  cases hr.symm.trans hr''
  rcases hwaits with hawaited | ⟨envelope, henvelope⟩
  · rw [hlost j hawaited x hx] at hproposed
    contradiction
  · exact absurd henvelope (hopen envelope)

theorem forwardFailed {call : Call} (hr : s.routers[i]? = some (.calling isSelf retries call))
    (hlost : ∀ j ∈ call.awaited, ∀ x ∈ s.executions[j]?, x.proposed = false) :
    Inv (s.forwardFailed i isSelf retries call) := by
  rw [State.forwardFailed, Call.retry]
  split
  · rename_i call' hcall
    split at hcall <;> cases hcall
    exact h.router hr nofun hlost nofun
  · refine h.router hr nofun hlost fun j hj => ?_
    rw [Router.resume_awaited] at hj
    contradiction

theorem forward {call : Call} (hr : s.routers[i]? = some (.calling isSelf retries call))
    (hawaited : call.awaited = none) :
    Inv { s with
      routers := s.routers.set i (.calling isSelf retries ⟨call.second, some s.executions.length⟩)
      executions := s.executions ++ [⟨i, false, false, none⟩] } := by
  have hi : i < s.routers.length := lt_length_of_getElem? hr
  refine (h.addExecution hi).router hr nofun ?_ fun j hj => ?_
  · intro j hj
    rw [Router.awaited, hawaited] at hj
    contradiction
  · cases hj
    exact ⟨⟨i, false, false, none⟩, getElem?_concat_length, rfl⟩

theorem forwardReceive {call : Call}
    (hr : s.routers[i]? = some (.calling isSelf retries call)) (hawaited : call.awaited = some j)
    (hx : s.executions[j]? = some x) (hresponse : x.response = some envelope) :
    Inv { s with routers := s.routers.set i (Router.receive isSelf retries envelope) } := by
  by_cases hready : envelope = .result .notReady
  · subst hready
    refine h.router hr nofun (fun k hk y hy => ?_) fun k hk => ?_
    · cases hawaited.symm.trans hk
      cases hx.symm.trans hy
      exact h.unready x (mem_of_getElem? hx) hresponse
    · rw [Router.receive, Router.resume_awaited] at hk
      contradiction
  · obtain ⟨e, he⟩ := Router.exists_receive_eq hready isSelf retries
    rw [he]
    exact h.setRouter nofun fun _ _ _ _ _ => .inr ⟨e, rfl⟩

variable {t : State}

theorem step_unreachable (hstep : s.step .unreachable = some t) : Inv t := by
  cases hclient : s.client with
  | returned reply => simp [step, hclient] at hstep
  | calling rest call =>
    simp only [step, hclient, ite_none_right_eq_some] at hstep
    obtain ⟨hawaited, ⟨⟩⟩ := hstep
    exact h.attemptFailed (h.unwritten_of_unawaited hclient hawaited) rest call

theorem step_deliver (hstep : s.step .deliver = some t) : Inv t := by
  cases hclient : s.client with
  | returned reply => simp [step, hclient] at hstep
  | calling rest call =>
    simp only [step, hclient, ite_none_right_eq_some] at hstep
    obtain ⟨hawaited, ⟨⟩⟩ := hstep
    refine h.addRouter.withClient (fun i hi => ?_)
      (.inl (h.unwritten_of_unawaited hclient hawaited))
    cases hi
    simp

theorem step_giveUp (hok : s.Attended .giveUp) (hstep : s.step .giveUp = some t) : Inv t := by
  cases hclient : s.client with
  | returned reply => simp [step, hclient] at hstep
  | calling rest call =>
    simp only [step, hclient, ite_none_left_eq_some] at hstep
    obtain rfl := Option.some.inj hstep.2
    exact h.attemptFailed (h.unwritten_of_not_wrote hclient hok) rest call

theorem step_receive (hok : s.Attended .receive) (hstep : s.step .receive = some t) : Inv t := by
  cases hclient : s.client with
  | returned reply => simp [step, hclient] at hstep
  | calling rest call =>
    simp only [step, hclient] at hstep
    split at hstep
    · cases hstep
      exact h.withClient nofun (.inr ⟨_, rfl⟩)
    · rename_i hrouter
      cases hstep
      refine h.next (h.unwritten_of_not_wrote hclient fun i hi => hok i hi ?_) _ _
      rw [hclient] at hi
      rwa [show call.awaited = some i from hi] at hrouter
    · contradiction

theorem step_resolve (hstep : s.step (.resolve i isSelf) = some t) : Inv t := by
  simp only [step] at hstep
  split at hstep <;> cases hstep
  rename_i hr
  exact h.router hr nofun nofun nofun

theorem step_noLeader (hstep : s.step (.noLeader i) = some t) : Inv t := by
  simp only [step] at hstep
  split at hstep <;> cases hstep
  rename_i hr
  exact h.router hr nofun nofun nofun

theorem step_forwardUnreachable (hstep : s.step (.forwardUnreachable i) = some t) : Inv t := by
  simp only [step] at hstep
  split at hstep
  · rename_i retries call hr
    rw [ite_none_right_eq_some] at hstep
    obtain ⟨hawaited, ⟨⟩⟩ := hstep
    refine h.forwardFailed hr fun j hj => ?_
    rw [hawaited] at hj
    contradiction
  · contradiction

theorem step_forward (hstep : s.step (.forward i) = some t) : Inv t := by
  simp only [step] at hstep
  split at hstep
  · rename_i isSelf retries call hr
    rw [ite_none_right_eq_some] at hstep
    obtain ⟨hawaited, ⟨⟩⟩ := hstep
    exact h.forward hr hawaited
  · contradiction

theorem step_forwardGiveUp (hok : s.Attended (.forwardGiveUp i))
    (hstep : s.step (.forwardGiveUp i) = some t) : Inv t := by
  simp only [step] at hstep
  split at hstep
  · rename_i retries call hr
    rw [ite_none_left_eq_some] at hstep
    obtain rfl := Option.some.inj hstep.2
    exact h.forwardFailed hr (hok _ hr)
  · contradiction

theorem step_forwardReceive (hstep : s.step (.forwardReceive i) = some t) : Inv t := by
  simp only [step] at hstep
  split at hstep
  · rename_i isSelf retries call hr
    obtain ⟨envelope, henvelope, rfl⟩ := map_eq_some_iff.mp hstep
    obtain ⟨x, hx, hresponse⟩ := bind_eq_some_iff.mp henvelope
    obtain ⟨j, hawaited, hx⟩ := bind_eq_some_iff.mp hx
    exact h.forwardReceive hr hawaited hx hresponse
  · contradiction

theorem step_refuse {reply : Reply} (hstep : s.step (.refuse j reply) = some t) : Inv t := by
  simp only [step] at hstep
  split at hstep
  · rename_i hx
    rw [ite_none_right_eq_some] at hstep
    obtain rfl := Option.some.inj hstep.2
    exact h.respond hx fun _ => rfl
  · contradiction

theorem step_propose (hok : s.Attended (.propose j))
    (hstep : s.step (.propose j) = some t) : Inv t := by
  simp only [step] at hstep
  split at hstep <;> cases hstep
  rename_i hx
  exact h.propose hx hok

theorem step_commit (hstep : s.step (.commit j) = some t) : Inv t := by
  simp only [step] at hstep
  split at hstep <;> cases hstep
  rename_i hx
  exact h.commit hx

theorem step_waited {ok : Bool} (hstep : s.step (.waited j ok) = some t) : Inv t := by
  simp only [step] at hstep
  split at hstep <;> cases hstep
  rename_i hx
  refine h.respond hx fun hready => ?_
  cases ok <;> contradiction

theorem step_raise (hstep : s.step (.raise j) = some t) : Inv t := by
  simp only [step] at hstep
  split at hstep <;> cases hstep
  rename_i hx
  exact h.respond hx nofun

theorem step_otherPut (hstep : s.step .otherPut = some t) : Inv t := by
  cases hstep
  refine { h with count := ?_ }
  simpa using h.count

end Inv

theorem inv_step {t : State} {e : Event} (h : Inv s) (hok : s.Attended e)
    (hstep : s.step e = some t) : Inv t := by
  cases e with
  | unreachable => exact h.step_unreachable hstep
  | deliver => exact h.step_deliver hstep
  | giveUp => exact h.step_giveUp hok hstep
  | receive => exact h.step_receive hok hstep
  | resolve i isSelf => exact h.step_resolve hstep
  | noLeader i => exact h.step_noLeader hstep
  | forwardUnreachable i => exact h.step_forwardUnreachable hstep
  | forward i => exact h.step_forward hstep
  | forwardGiveUp i => exact h.step_forwardGiveUp hok hstep
  | forwardReceive i => exact h.step_forwardReceive hstep
  | refuse j reply => exact h.step_refuse hstep
  | propose j => exact h.step_propose hok hstep
  | commit j => exact h.step_commit hstep
  | waited j ok => exact h.step_waited hstep
  | raise j => exact h.step_raise hstep
  | otherPut => exact h.step_otherPut hstep

/-- Along the runs in which nobody stops waiting for a write that has been proposed, the
put commits one version at most, so it never overwrites a put committed after its own. -/
theorem committed_once {nodes : Nat} {s : State} (h : Reaches step Attended (init nodes) s) :
    s.committed.count .own ≤ 1 ∧ ¬List.Sublist [.own, .other, .own] s.committed := by
  have hinv : Inv s := h.invariant Inv (inv_init nodes) fun _ _ _ => inv_step
  refine ⟨hinv.count_le, fun hsub => ?_⟩
  have hle := hsub.count_le .own
  exact absurd (hle.trans hinv.count_le) (by decide)

/-- The first node cannot be reached, the second meets a leader that is not ready. -/
def quietScript : List Event :=
  [.unreachable, .unreachable, .deliver, .resolve 0 false, .forward 0, .refuse 0 .notReady,
    .forwardReceive 0, .forwardUnreachable 0, .forward 0, .propose 1, .otherPut, .commit 1,
    .waited 1 true, .forwardReceive 0, .receive]

theorem committed_once_of_quietScript :
    ∃ s, Reaches step Attended (init 3) s ∧ s.client = .returned .ok ∧
      s.committed.count .own = 1 ∧ ¬List.Sublist [.own, .other, .own] s.committed := by
  obtain ⟨s, hreach, hclient, hcount⟩ := exists_reaches step Attended (init 3) quietScript
    (fun s => s.client = .returned .ok ∧ s.committed.count .own = 1) (by decide +kernel)
  exact ⟨s, hreach, hclient, hcount, (committed_once hreach).2⟩

/-- The write is committed and the response lost; the put of another client is committed,
and then the second attempt writes the key again. -/
def lostResponse : List Event :=
  [.deliver, .resolve 0 true, .forward 0, .propose 0, .commit 0, .waited 0 true,
    .forwardReceive 0, .giveUp, .otherPut, .deliver, .resolve 1 true, .forward 1, .propose 1,
    .commit 1, .waited 1 true, .forwardReceive 1, .receive]

theorem not_committed_once_of_lostResponse :
    ¬∀ s, Reaches step (fun _ _ => True) (init 3) s →
      s.committed.count .own ≤ 1 ∧ ¬List.Sublist [.own, .other, .own] s.committed := by
  intro hall
  obtain ⟨s, hreach, hcount⟩ := exists_reaches step (fun _ _ => True) (init 3) lostResponse
    (fun s => s.committed.count .own = 2) (by decide +kernel)
  have hle := (hall s hreach).1
  omega

end State

end LiteDB.RetriedPuts
