import LiteDB.NewestItems
import LiteDB.Runs
import LiteDB.SortedMaps
import Mathlib.Data.Int.Order.Basic
import Mathlib.Data.Prod.Lex

namespace LiteDB.GossipMembership

open List NewestItems Option Runs SortedMaps

/-- What a digest says about a node. -/
structure Entry (Addr : Type) where
  addr : Addr
  generation : Int
  heartbeat : Int
deriving DecidableEq

variable {Node Addr Time : Type}

def Entry.rank (e : Entry Addr) : Int ×ₗ Int := toLex (e.generation, e.heartbeat)

/-- `lastUpdate` is never sent. -/
structure Member (Addr Time : Type) extends Entry Addr where
  lastUpdate : Time

/-- The members of a request or a reply. `none` stands for a malformed entry. -/
abbrev Digest (Node Addr : Type) := Dict Node (Option (Entry Addr))

/-- The state of one process (`gossip.py`). -/
structure Gossip (Node Addr Time : Type) where
  nodeId : Node
  addr : Addr
  heartbeat : Int
  generation : Int
  members : Dict Node (Member Addr Time)

variable [DecidableEq Node]

variable {g : Gossip Node Addr Time} {j : Node}

namespace Gossip

def init (nodeId : Node) (addr : Addr) (generation : Int) (now : Time) : Gossip Node Addr Time :=
  ⟨nodeId, addr, 0, generation, Dict.empty.set nodeId ⟨⟨addr, generation, 0⟩, now⟩⟩

/-- One turn of the loop of `_merge`. -/
def mergeEntry (now : Time) (g : Gossip Node Addr Time) (item : Node × Option (Entry Addr)) :
    Gossip Node Addr Time :=
  if item.1 = g.nodeId then g
  else match item.2 with
    | none => g
    | some e =>
        match g.members.get? item.1 with
        | none => { g with members := g.members.set item.1 ⟨e, now⟩ }
        | some cur =>
            if cur.rank < e.rank then { g with members := g.members.set item.1 ⟨e, now⟩ } else g

def merge (g : Gossip Node Addr Time) (incoming : Digest Node Addr) (now : Time) :
    Gossip Node Addr Time :=
  incoming.entries.foldl (mergeEntry now) g

def digest (g : Gossip Node Addr Time) : Digest Node Addr :=
  g.members.mapValues fun m => some m.toEntry

/-- The part of a round of `_loop` in front of its requests. `none` stands for an
exception. -/
def beat (g : Gossip Node Addr Time) (now : Time) : Option (Gossip Node Addr Time) :=
  (g.members.get? g.nodeId).map fun me =>
    { g with
      heartbeat := g.heartbeat + 1
      members := g.members.set g.nodeId
        { me with heartbeat := g.heartbeat + 1, lastUpdate := now } }

def known (g : Gossip Node Addr Time) (j : Node) : Option (Entry Addr) :=
  (g.members.get? j).map Member.toEntry

variable {now : Time}

theorem nodeId_mergeEntry (item : Node × Option (Entry Addr)) :
    (mergeEntry now g item).nodeId = g.nodeId := by
  unfold mergeEntry
  repeat' split
  all_goals rfl

theorem known_mergeEntry_of_ne {item : Node × Option (Entry Addr)} (h : item.1 ≠ j) :
    (mergeEntry now g item).known j = g.known j := by
  have hne : j ≠ item.1 := Ne.symm h
  unfold mergeEntry known
  repeat' split
  all_goals simp [Dict.get?_set, hne]

theorem known_mergeEntry (h : j ≠ g.nodeId) (e : Option (Entry Addr)) :
    (mergeEntry now g (j, e)).known j =
      match e with
      | none => g.known j
      | some e => adopt Entry.rank (g.known j) e := by
  rw [mergeEntry, if_neg h]
  cases e with
  | none => rfl
  | some e =>
    unfold known adopt
    cases hcur : g.members.get? j with
    | none => simp [Dict.get?_set]
    | some cur =>
      simp only [map_some]
      split <;> simp [Dict.get?_set, hcur]

theorem nodeId_foldl (items : List (Node × Option (Entry Addr))) :
    (items.foldl (mergeEntry now) g).nodeId = g.nodeId := by
  induction items generalizing g with
  | nil => rfl
  | cons item items ih => rw [foldl_cons, ih, nodeId_mergeEntry]

theorem nodeId_merge (incoming : Digest Node Addr) : (g.merge incoming now).nodeId = g.nodeId :=
  nodeId_foldl _

theorem known_foldl_of_notMem {items : List (Node × Option (Entry Addr))}
    (h : j ∉ items.map Prod.fst) : (items.foldl (mergeEntry now) g).known j = g.known j := by
  induction items generalizing g with
  | nil => rfl
  | cons item items ih =>
    rw [map_cons, mem_cons, not_or] at h
    rw [foldl_cons, ih h.2, known_mergeEntry_of_ne (Ne.symm h.1)]

theorem known_merge (incoming : Digest Node Addr) (h : j ≠ g.nodeId) :
    (g.merge incoming now).known j =
      match (incoming.get? j).join with
      | none => g.known j
      | some e => adopt Entry.rank (g.known j) e := by
  unfold merge
  cases hget : incoming.get? j with
  | none =>
    refine known_foldl_of_notMem fun hmem => ?_
    obtain ⟨⟨_, e⟩, he, rfl⟩ := mem_map.mp hmem
    rw [Dict.get?_eq_some_iff.mpr he] at hget
    simp at hget
  | some e =>
    obtain ⟨before, after, hsplit⟩ := append_of_mem (Dict.get?_eq_some_iff.mp hget)
    have hnodup := incoming.nodup
    rw [hsplit, map_append, map_cons, nodup_middle, nodup_cons, mem_append, not_or] at hnodup
    rw [hsplit, foldl_append, foldl_cons, known_foldl_of_notMem hnodup.1.2]
    have hj : j ≠ (before.foldl (mergeEntry now) g).nodeId := by rwa [nodeId_foldl]
    rw [known_mergeEntry hj, known_foldl_of_notMem hnodup.1.1]
    cases e <;> rfl

theorem get?_merge_self (incoming : Digest Node Addr) :
    (g.merge incoming now).members.get? g.nodeId = g.members.get? g.nodeId := by
  unfold merge
  generalize incoming.entries = items
  induction items generalizing g with
  | nil => rfl
  | cons item items ih =>
    rw [foldl_cons]
    have hrest := ih (g := mergeEntry now g item)
    rw [nodeId_mergeEntry] at hrest
    rw [hrest]
    unfold mergeEntry
    by_cases hself : item.1 = g.nodeId
    · rw [if_pos hself]
    · have hne : g.nodeId ≠ item.1 := Ne.symm hself
      rw [if_neg hself]
      repeat' split
      all_goals simp [Dict.get?_set, hne]

end Gossip

/-- A digest that has been sent. It can arrive anywhere, at any time and any number of times. -/
structure Message (Node Addr : Type) where
  sender : Node
  members : Digest Node Addr

/-- `merged` has the digests that the process has merged. -/
structure Process (Node Addr Time : Type) where
  gossip : Gossip Node Addr Time
  merged : List (Digest Node Addr)

/-- The running processes and all digests that were ever sent. -/
structure State (Node Addr Time : Type) where
  nodes : Node → Option (Process Node Addr Time)
  sent : List (Message Node Addr)

/-- The steps of the processes. -/
inductive Event (Node Addr Time : Type) where
  | start (i : Node) (addr : Addr) (generation : Int) (now : Time)
  | round (i : Node) (now : Time) (targets : List Addr)
  | merge (i : Node) (n : Nat) (now : Time)
  | reply (i : Node)

def init : State Node Addr Time := ⟨fun _ => none, []⟩

def State.setNode (s : State Node Addr Time) (i : Node) (p : Process Node Addr Time) :
    State Node Addr Time :=
  { s with nodes := Function.update s.nodes i (some p) }

/-- A request is merged and then answered with a digest of its own, and a reply is merged. -/
def step (s : State Node Addr Time) : Event Node Addr Time → Option (State Node Addr Time)
  | .start i addr generation now =>
      some (s.setNode i ⟨Gossip.init i addr generation now, []⟩)
  | .round i now targets => do
      let p ← s.nodes i
      let g ← p.gossip.beat now
      return { s.setNode i { p with gossip := g } with
        sent := s.sent ++ targets.map fun _ => ⟨i, g.digest⟩ }
  | .merge i n now => do
      let p ← s.nodes i
      let m ← s.sent[n]?
      return s.setNode i ⟨p.gossip.merge m.members now, p.merged ++ [m.members]⟩
  | .reply i => do
      let p ← s.nodes i
      return { s with sent := s.sent ++ [⟨i, p.gossip.digest⟩] }

variable {s t : State Node Addr Time} {i : Node}

section Invariant

/-- A digest that the node itself has sent has this entry about the node. -/
def Published (s : State Node Addr Time) (j : Node) (e : Entry Addr) : Prop :=
  ∃ m ∈ s.sent, m.sender = j ∧ m.members.get? j = some (some e)

def mergedEntries (merged : List (Digest Node Addr)) (j : Node) : List (Entry Addr) :=
  merged.filterMap fun d => (d.get? j).join

theorem mergedEntries_concat (merged : List (Digest Node Addr)) (d : Digest Node Addr) (j : Node) :
    mergedEntries (merged ++ [d]) j = mergedEntries merged j ++ (d.get? j).join.toList := by
  rw [mergedEntries, filterMap_append]
  cases hentry : (d.get? j).join <;> simp [mergedEntries, hentry]

/-- A process knows the newest entries among those that it has merged. -/
structure Sound (s : State Node Addr Time) (i : Node) (p : Process Node Addr Time) : Prop where
  nodeId : p.gossip.nodeId = i
  newest : ∀ j, j ≠ i → Newest Entry.rank (mergedEntries p.merged j) (p.gossip.known j)
  merged : ∀ d ∈ p.merged, ∃ m ∈ s.sent, m.members = d

/-- Whatever a digest says about a node, the node itself has published. -/
structure Inv (s : State Node Addr Time) : Prop where
  nodes : ∀ i p, s.nodes i = some p → Sound s i p
  published : ∀ m ∈ s.sent, ∀ j e, m.members.get? j = some (some e) → Published s j e

theorem inv_init : Inv (init : State Node Addr Time) := by
  refine ⟨fun i p h => ?_, fun m hm => ?_⟩
  · simp [init] at h
  · simp [init] at hm

variable {e : Entry Addr} {p : Process Node Addr Time} {g' : Gossip Node Addr Time}

theorem Published.mono (h : Published s j e) (hsent : ∀ m ∈ s.sent, m ∈ t.sent) :
    Published t j e := by
  obtain ⟨m, hm, hrest⟩ := h
  exact ⟨m, hsent m hm, hrest⟩

theorem Sound.mono (h : Sound s i p) (hsent : ∀ m ∈ s.sent, m ∈ t.sent) : Sound t i p := by
  refine ⟨h.nodeId, h.newest, fun d hd => ?_⟩
  obtain ⟨m, hm, hmembers⟩ := h.merged d hd
  exact ⟨m, hsent m hm, hmembers⟩

theorem Inv.published_of_known (h : Inv s) (hp : Sound s i p) (hj : j ≠ i)
    (he : p.gossip.known j = some e) : Published s j e := by
  have hnewest := hp.newest j hj
  rw [he] at hnewest
  obtain ⟨d, hd, hentry⟩ := mem_filterMap.mp hnewest.1
  obtain ⟨m, hm, rfl⟩ := hp.merged d hd
  exact h.published m hm j e (join_eq_some_iff.mp hentry)

theorem get?_digest (g : Gossip Node Addr Time) (j : Node) :
    g.digest.get? j = (g.known j).map some := by
  rw [Gossip.digest, Dict.get?_mapValues, Gossip.known, Option.map_map]
  rfl

theorem Inv.send (h : Inv s) (hp : Sound s i p) (copies : List (Message Node Addr))
    (hcopies : ∀ m ∈ copies, m = ⟨i, p.gossip.digest⟩) :
    Inv { s with sent := s.sent ++ copies } := by
  have hsent : ∀ m ∈ s.sent, m ∈ s.sent ++ copies := fun m hm => mem_append_left _ hm
  refine ⟨fun j q hq => (h.nodes j q hq).mono hsent, fun m hm j e he => ?_⟩
  rcases mem_append.mp hm with hm | hm
  · exact (h.published m hm j e he).mono hsent
  · obtain rfl := hcopies m hm
    by_cases hj : j = i
    · exact ⟨_, mem_append_right _ hm, hj.symm, he⟩
    · rw [get?_digest] at he
      obtain ⟨e', hknown, ⟨⟩⟩ := map_eq_some_iff.mp he
      exact (h.published_of_known hp hj hknown).mono hsent

theorem Inv.setNode (h : Inv s) (hp : Sound s i p) : Inv (s.setNode i p) := by
  refine ⟨fun j q hq => ?_, h.published⟩
  by_cases hj : j = i
  · subst hj
    obtain rfl : p = q := by simpa [State.setNode] using hq
    exact hp.mono fun _ hm => hm
  · exact (h.nodes j q (by simpa [State.setNode, hj] using hq)).mono fun _ hm => hm

theorem known_beat {now : Time} (h : g.beat now = some g') (hj : j ≠ g.nodeId) :
    g'.known j = g.known j := by
  obtain ⟨me, -, rfl⟩ := map_eq_some_iff.mp h
  simp [Gossip.known, Dict.get?_set, hj]

theorem nodeId_beat {now : Time} (h : g.beat now = some g') : g'.nodeId = g.nodeId := by
  obtain ⟨me, -, rfl⟩ := map_eq_some_iff.mp h
  rfl

theorem Sound.beat {now : Time} (h : Sound s i p) (hg : p.gossip.beat now = some g) :
    Sound s i { p with gossip := g } := by
  refine ⟨(nodeId_beat hg).trans h.nodeId, fun j hj => ?_, h.merged⟩
  change Newest Entry.rank (mergedEntries p.merged j) (g.known j)
  rw [known_beat hg (by rwa [h.nodeId])]
  exact h.newest j hj

theorem Sound.merge {m : Message Node Addr} (h : Sound s i p) (hm : m ∈ s.sent) (now : Time) :
    Sound s i ⟨p.gossip.merge m.members now, p.merged ++ [m.members]⟩ := by
  refine ⟨(Gossip.nodeId_merge _).trans h.nodeId, fun j hj => ?_, fun d hd => ?_⟩
  · change Newest Entry.rank (mergedEntries (p.merged ++ [m.members]) j)
      ((p.gossip.merge m.members now).known j)
    rw [Gossip.known_merge _ (by rwa [h.nodeId]), mergedEntries_concat]
    cases (m.members.get? j).join with
    | none => simpa using h.newest j hj
    | some e => exact newest_adopt (h.newest j hj) e
  · rcases mem_append.mp hd with hd | hd
    · exact h.merged d hd
    · exact ⟨m, hm, (mem_singleton.mp hd).symm⟩

theorem known_init {addr : Addr} {generation : Int} {now : Time} (h : j ≠ i) :
    (Gossip.init i addr generation now).known j = none := by
  rw [Gossip.known, Gossip.init, Dict.get?_set, if_neg h]
  rfl

theorem Inv.step {a : Event Node Addr Time} (h : Inv s) (hstep : step s a = some t) : Inv t := by
  cases a with
  | start i addr generation now =>
    cases hstep
    refine h.setNode ⟨rfl, fun j hj => ?_, by simp⟩
    rw [known_init hj]
    rfl
  | round i now targets =>
    obtain ⟨p, hp, hrest⟩ := bind_eq_some_iff.mp hstep
    obtain ⟨g, hg, ⟨⟩⟩ := bind_eq_some_iff.mp hrest
    have hsound := (h.nodes i p hp).beat hg
    refine (h.setNode hsound).send (i := i) (p := { p with gossip := g }) ⟨?_, ?_, ?_⟩ _ ?_
    · exact hsound.nodeId
    · exact hsound.newest
    · exact hsound.merged
    · intro m hm
      obtain ⟨-, -, rfl⟩ := mem_map.mp hm
      rfl
  | merge i n now =>
    obtain ⟨p, hp, hrest⟩ := bind_eq_some_iff.mp hstep
    obtain ⟨m, hm, ⟨⟩⟩ := bind_eq_some_iff.mp hrest
    exact h.setNode ((h.nodes i p hp).merge (mem_of_getElem? hm) now)
  | reply i =>
    obtain ⟨p, hp, ⟨⟩⟩ := bind_eq_some_iff.mp hstep
    exact h.send (h.nodes i p hp) _ (by simp)

end Invariant

def State.known (s : State Node Addr Time) (i j : Node) : Option (Entry Addr) :=
  (s.nodes i).bind fun p => p.gossip.known j

/-- The event does not start a new process of the node. -/
def SameProcess (i : Node) (_ : State Node Addr Time) : Event Node Addr Time → Prop
  | .start j _ _ _ => j ≠ i
  | _ => True

theorem known_setNode (i j k : Node) (p : Process Node Addr Time) :
    (s.setNode i p).known k j = if k = i then p.gossip.known j else s.known k j := by
  by_cases hk : k = i
  · subst hk
    simp [State.known, State.setNode]
  · simp [State.known, State.setNode, hk]

theorem noOlder_step {a : Event Node Addr Time} (h : Inv s) (hj : j ≠ i) (ha : SameProcess i s a)
    (hstep : step s a = some t) : NoOlder Entry.rank (s.known i j) (t.known i j) := by
  have hsetNode : ∀ {k : Node} {p q : Process Node Addr Time}, s.nodes k = some p →
      (k = i → NoOlder Entry.rank (p.gossip.known j) (q.gossip.known j)) →
      NoOlder Entry.rank (s.known i j) ((s.setNode k q).known i j) := by
    intro k p q hp hq
    rw [known_setNode]
    split
    · rename_i hk
      subst hk
      have hknown : s.known i j = p.gossip.known j := by simp [State.known, hp]
      rw [hknown]
      exact hq rfl
    · exact NoOlder.refl _
  cases a with
  | start k addr generation now =>
    cases hstep
    rw [known_setNode, if_neg (Ne.symm ha)]
    exact NoOlder.refl _
  | round k now targets =>
    obtain ⟨p, hp, hrest⟩ := bind_eq_some_iff.mp hstep
    obtain ⟨g, hg, ⟨⟩⟩ := bind_eq_some_iff.mp hrest
    refine hsetNode (q := { p with gossip := g }) hp fun hk => ?_
    have hne : j ≠ p.gossip.nodeId := by rwa [(h.nodes k p hp).nodeId, hk]
    rw [known_beat hg hne]
    exact NoOlder.refl _
  | merge k n now =>
    obtain ⟨p, hp, hrest⟩ := bind_eq_some_iff.mp hstep
    obtain ⟨m, hm, ⟨⟩⟩ := bind_eq_some_iff.mp hrest
    refine hsetNode hp fun hk => ?_
    have hne : j ≠ p.gossip.nodeId := by rwa [(h.nodes k p hp).nodeId, hk]
    change NoOlder Entry.rank _ ((p.gossip.merge m.members now).known j)
    rw [Gossip.known_merge _ hne]
    cases (m.members.get? j).join with
    | none => exact NoOlder.refl _
    | some e => exact noOlder_adopt _ e
  | reply k =>
    obtain ⟨p, hp, ⟨⟩⟩ := bind_eq_some_iff.mp hstep
    exact NoOlder.refl _

theorem noOlder_of_reaches (h : Inv s) (hj : j ≠ i) (hrun : Reaches step (SameProcess i) s t) :
    Inv t ∧ NoOlder Entry.rank (s.known i j) (t.known i j) :=
  hrun.invariant (fun u => Inv u ∧ NoOlder Entry.rank (s.known i j) (u.known i j))
    ⟨h, NoOlder.refl _⟩ fun _ _ _ hu ha hstep =>
      ⟨hu.1.step hstep, hu.2.trans (noOlder_step hu.1 hj ha hstep)⟩

/-- No node publishes a generation and a heartbeat with two addresses. -/
def OneAddress (s : State Node Addr Time) : Prop :=
  ∀ j e e', Published s j e → Published s j e' → e.rank = e'.rank → e.addr = e'.addr

theorem eq_of_rank_eq {e e' : Entry Addr} (hrank : e.rank = e'.rank) (haddr : e.addr = e'.addr) :
    e = e' := by
  obtain ⟨addr, generation, heartbeat⟩ := e
  obtain ⟨addr', generation', heartbeat'⟩ := e'
  obtain ⟨hgen, hbeat⟩ := Prod.mk.inj (toLex.injective hrank)
  obtain rfl : addr = addr' := haddr
  obtain rfl : generation = generation' := hgen
  obtain rfl : heartbeat = heartbeat' := hbeat
  rfl

theorem Inv.known_eq (h : Inv s) (haddr : OneAddress s) {i' : Node} {p p' : Process Node Addr Time}
    (hp : Sound s i p) (hp' : Sound s i' p') (hsame : ∀ d, d ∈ p.merged ↔ d ∈ p'.merged)
    (hj : j ≠ i) (hj' : j ≠ i') : p.gossip.known j = p'.gossip.known j := by
  have hentries : ∀ e, e ∈ mergedEntries p.merged j ↔ e ∈ mergedEntries p'.merged j := by
    intro e
    simp only [mergedEntries, mem_filterMap, hsame]
  have hrank := (hp.newest j hj).rank_eq (hp'.newest j hj') hentries
  cases hknown : p.gossip.known j with
  | none =>
    rw [hknown] at hrank
    exact (map_eq_none_iff.mp hrank.symm).symm
  | some e =>
    rw [hknown] at hrank
    obtain ⟨e', hknown', hrank'⟩ := map_eq_some_iff.mp hrank.symm
    rw [hknown']
    refine congrArg some (eq_of_rank_eq hrank'.symm ?_)
    exact haddr j e e' (h.published_of_known hp hj hknown)
      (h.published_of_known hp' hj' hknown') hrank'.symm

def State.self (s : State Node Addr Time) (i : Node) : Option (Member Addr Time) :=
  (s.nodes i).bind fun p => p.gossip.members.get? i

/-- What gossip promises in a state. -/
structure Converging (s : State Node Addr Time) : Prop where
  newest : ∀ i p, s.nodes i = some p → ∀ j, j ≠ i →
    Newest Entry.rank (mergedEntries p.merged j) (p.gossip.known j)
  published : ∀ i j e, j ≠ i → s.known i j = some e → Published s j e
  noOlder : ∀ i j t, j ≠ i → Reaches step (SameProcess i) s t →
    NoOlder Entry.rank (s.known i j) (t.known i j)
  agree : OneAddress s → ∀ i p i' p', s.nodes i = some p → s.nodes i' = some p' →
    (∀ d, d ∈ p.merged ↔ d ∈ p'.merged) → ∀ j, j ≠ i → j ≠ i' → s.known i j = s.known i' j
  self : ∀ i k n now t, step s (.merge k n now) = some t → t.self i = s.self i

theorem converging_of_reaches (h : Reaches step (fun _ _ => True) init s) : Converging s := by
  have hinv : Inv s := h.invariant Inv inv_init fun _ _ _ hu _ hstep => hu.step hstep
  refine ⟨fun i p hp => (hinv.nodes i p hp).newest, fun i j e hj he => ?_,
    fun i j t hj hrun => (noOlder_of_reaches hinv hj hrun).2,
    fun haddr i p i' p' hp hp' hsame j hj hj' => ?_, fun i k n now t hstep => ?_⟩
  · obtain ⟨p, hp, hknown⟩ := bind_eq_some_iff.mp he
    exact hinv.published_of_known (hinv.nodes i p hp) hj hknown
  · rw [State.known, State.known, hp, hp']
    exact hinv.known_eq haddr (hinv.nodes i p hp) (hinv.nodes i' p' hp') hsame hj hj'
  · obtain ⟨p, hp, hrest⟩ := bind_eq_some_iff.mp hstep
    obtain ⟨m, hm, ⟨⟩⟩ := bind_eq_some_iff.mp hrest
    by_cases hi : i = k
    · subst hi
      have hself : (p.gossip.merge m.members now).members.get? p.gossip.nodeId = _ :=
        Gossip.get?_merge_self m.members
      rw [(hinv.nodes i p hp).nodeId] at hself
      simpa [State.self, State.setNode, hp] using hself
    · simp [State.self, State.setNode, hi]

/-- The digest of the first node reaches the third one through the second one, twice. -/
def relayed : List (Event (Fin 3) Nat Nat) :=
  [.start 0 10 5 0, .start 1 11 5 0, .start 2 12 6 1, .round 0 2 [11], .merge 1 0 3, .reply 1,
    .merge 2 1 4, .round 0 5 [11, 12], .merge 2 1 6]

theorem converging_of_relayed : ∃ s : State (Fin 3) Nat Nat,
    Reaches step (fun _ _ => True) init s ∧ s.known 2 0 = some ⟨10, 5, 1⟩ ∧ Converging s := by
  obtain ⟨s, hs, htest⟩ := exists_reaches step (fun _ _ => True) init relayed
    (fun s => s.known 2 0 = some ⟨10, 5, 1⟩) (by decide +kernel)
  exact ⟨s, hs, htest, converging_of_reaches hs⟩

end LiteDB.GossipMembership
