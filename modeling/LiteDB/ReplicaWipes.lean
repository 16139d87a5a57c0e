import LiteDB.PlacementDriver
import LiteDB.Runs

namespace LiteDB.ReplicaWipes

open List PlacementDriver Runs

variable {Node : Type}

/-- The node is neither a voter of the committed configuration nor of one that a
leader may still commit. -/
def Removed (g : ShardGroup Node) (node : Node) : Prop :=
  node ∉ g.committedVoters ∧ ∀ log ∈ g.log :: g.past, g.log.take g.committed <+: log →
    ∀ voters ∈ log.drop g.committed, node ∉ voters

section Groups

variable {g : ShardGroup Node} {node : Node}

theorem removed_iff (hle : g.committed ≤ g.log.length) : Removed g node ↔
    node ∉ g.committedVoters ∧ ∀ rest, g.log.take g.committed ++ rest ∈ g.log :: g.past →
      ∀ voters ∈ rest, node ∉ voters := by
  have hdrop : ∀ rest, (g.log.take g.committed ++ rest).drop g.committed = rest := fun rest =>
    drop_left' (length_take_of_le hle)
  refine and_congr_right fun _ => ⟨fun h rest hrest voters hvoters => ?_, ?_⟩
  · exact h _ hrest (prefix_append _ _) voters (by rwa [hdrop])
  · rintro h log hlog ⟨rest, rfl⟩ voters hvoters
    rw [hdrop] at hvoters
    exact h rest hlog voters hvoters

theorem latest_concat (log : List (Finset Node)) (voters : Finset Node) :
    g.latest (log ++ [voters]) = voters := by
  simp [ShardGroup.latest]

variable (h : Removed g node)

include h

theorem Removed.not_mem_latest (hle : g.committed ≤ g.log.length)
    {rest : List (Finset Node)} (hlog : g.log.take g.committed ++ rest ∈ g.log :: g.past) :
    node ∉ g.latest (g.log.take g.committed ++ rest) := by
  rcases eq_nil_or_concat' rest with rfl | ⟨rest, voters, rfl⟩
  · simpa [ShardGroup.committedVoters] using h.1
  · rw [← append_assoc, latest_concat]
    exact ((removed_iff hle).mp h).2 _ hlog voters (by simp)

theorem Removed.accept (hle : g.committed ≤ g.log.length)
    {voters : Finset Node} (hnode : node ∈ voters → node ∈ g.voters) :
    Removed { g with log := g.log ++ [voters] } node := by
  have htake : (g.log ++ [voters]).take g.committed = g.log.take g.committed :=
    take_append_of_le_length hle
  have hlog : g.log.take g.committed ++ g.log.drop g.committed ∈ g.log :: g.past := by simp
  obtain ⟨hcommitted, hrest⟩ := (removed_iff hle).mp h
  refine (removed_iff (by simp; omega)).mpr ⟨?_, fun rest hmem v hv => ?_⟩
  · simpa [ShardGroup.committedVoters, ShardGroup.latest, htake] using hcommitted
  · rw [htake] at hmem
    rcases mem_cons.mp hmem with heq | hmem
    · -- the new entry follows what was in the log
      have hdrop : rest = g.log.drop g.committed ++ [voters] := by
        rw [← take_append_drop g.committed g.log, append_assoc] at heq
        simpa using heq
      rcases mem_append.mp (hdrop ▸ hv) with hv | hv
      · exact hrest _ hlog v hv
      · rw [mem_singleton.mp hv]
        refine fun hnew => h.not_mem_latest hle hlog ?_
        simpa [ShardGroup.voters] using hnode hnew
    · exact hrest rest (by simp [hmem]) v hv

theorem Removed.stray (hle : g.committed ≤ g.log.length) {old : List (Finset Node)}
    (hold : old ∈ g.past) {voters : Finset Node} (hnode : node ∈ voters → node ∈ g.latest old) :
    Removed { g with past := (old ++ [voters]) :: g.past } node := by
  obtain ⟨hcommitted, hrest⟩ := (removed_iff hle).mp h
  refine (removed_iff ?_).mpr ⟨hcommitted, fun rest hmem v hv => ?_⟩
  · exact hle
  rcases mem_cons.mp hmem with heq | hmem
  · exact hrest rest (by simp [heq]) v hv
  rcases mem_cons.mp hmem with heq | hmem
  · rcases eq_nil_or_concat' rest with rfl | ⟨rest, w, rfl⟩
    · simp at hv
    · replace heq : g.log.take g.committed ++ rest ++ [w] = old ++ [voters] := by
        simpa using heq
      obtain ⟨rfl, hlast⟩ := append_inj' heq rfl
      obtain rfl : w = voters := by simpa using hlast
      have hlog : g.log.take g.committed ++ rest ∈ g.log :: g.past := by simp [hold]
      rcases mem_append.mp hv with hv | hv
      · exact hrest rest hlog v hv
      · rw [mem_singleton.mp hv]
        exact fun hnew => h.not_mem_latest hle hlog (hnode hnew)
  · exact hrest rest (by simp [hmem]) v hv

theorem Removed.commit (hlt : g.committed < g.log.length) :
    Removed { g with committed := g.committed + 1 } node := by
  have htake : g.log.take (g.committed + 1) = g.log.take g.committed ++ [g.log[g.committed]] := by
    rw [take_add_one, getElem?_eq_getElem hlt]
    rfl
  obtain ⟨-, hrest⟩ := (removed_iff hlt.le).mp h
  refine (removed_iff ?_).mpr ⟨?_, fun rest hmem v hv => ?_⟩
  · exact hlt
  · have hlog : g.log.take g.committed ++ g.log.drop g.committed ∈ g.log :: g.past := by simp
    simp only [ShardGroup.committedVoters]
    rw [htake]
    refine (latest_concat (g := g) _ _).symm ▸ hrest _ hlog _ ?_
    rw [drop_eq_getElem_cons hlt]
    exact mem_cons_self
  · simp only [htake, append_assoc] at hmem
    exact hrest _ hmem v (by simp [hv])

theorem Removed.elect (hle : g.committed ≤ g.log.length) {log : List (Finset Node)}
    (hlog : g.CanElect log) : Removed { g with log := log, past := g.log :: g.past } node := by
  obtain ⟨⟨suffix, rfl⟩, old, hold, ⟨more, rfl⟩⟩ := hlog
  obtain ⟨hcommitted, hrest⟩ := (removed_iff hle).mp h
  have htake : (g.log.take g.committed ++ suffix).take g.committed = g.log.take g.committed :=
    take_left' (length_take_of_le hle)
  refine (removed_iff (by simp; omega)).mpr ⟨?_, fun rest hmem v hv => ?_⟩
  · simpa [ShardGroup.committedVoters, ShardGroup.latest, htake] using hcommitted
  · simp only [htake] at hmem
    rcases mem_cons.mp hmem with heq | hmem
    · obtain rfl := append_cancel_left heq
      rw [append_assoc] at hold
      exact hrest _ hold v (by simp [hv])
    · exact hrest rest hmem v hv

end Groups

def Fenced (c : Topology Node) (s : Control Node) (node : Node) (active : List Node) (now : Int)
    (shard : Nat) : Prop :=
  node ∉ c.placement active shard ∧ (s.orphanSince node shard).any (fenceAfter ≤ now - ·) = true

def Condemned (c : Topology Node) (s : Control Node) (shard : Nat) (node : Node) : Prop :=
  .dropShard node shard ∈ s.calls ∨
    ∃ f ∈ s.fences node, shard ∈ f.todo ∧ Fenced c s node f.active f.now shard

/-- The change adds no node whose replica is about to be wiped. -/
def Admissible (c : Topology Node) (s : Control Node) (shard : Nat) (old new : Finset Node) :
    Prop :=
  ∀ node ∈ new, node ∉ old → ¬Condemned c s shard node

/-- Nodes that are about to be wiped are out of every configuration that can still count. -/
structure Inv (c : Topology Node) (s : Control Node) : Prop where
  committed_le : ∀ shard, (s.groups shard).committed ≤ (s.groups shard).log.length
  removed : ∀ shard node, Condemned c s shard node → Removed (s.groups shard) node
  wipes : ∀ node shard voters, (node, shard, voters) ∈ s.wipes → node ∉ voters

variable {c : Topology Node} {s t : Control Node}

section Steps

theorem Inv.mono (h : Inv c s) (hgroups : t.groups = s.groups)
    (hcondemned : ∀ shard node, Condemned c t shard node → Condemned c s shard node)
    (hwipes : t.wipes = s.wipes) : Inv c t :=
  ⟨hgroups ▸ h.committed_le, fun shard node hc => hgroups ▸ h.removed shard node
    (hcondemned shard node hc), hwipes ▸ h.wipes⟩

variable {shard : Nat} {node : Node}

/-- Condemnations come from calls, fence passes and orphan timers. -/
theorem Condemned.mono (h : Condemned c t shard node) (hcalls : ∀ call ∈ t.calls, call ∈ s.calls)
    (hfences : ∀ f ∈ t.fences node, ∃ f' ∈ s.fences node, f.active = f'.active ∧ f.now = f'.now ∧ ∀
      i ∈ f.todo, i ∈ f'.todo)
    (horphan : ∀ first ∈ t.orphanSince node shard, first ∈ s.orphanSince node shard) :
    Condemned c s shard node := by
  rcases h with hcall | ⟨f, hf, htodo, hplacement, htime⟩
  · exact .inl (hcalls _ hcall)
  · obtain ⟨f', hf', hactive, hnow, hsub⟩ := hfences f hf
    obtain ⟨first, hfirst, hexpired⟩ := (Option.any_eq_true _ _).mp htime
    refine .inr ⟨f', hf', hsub shard htodo, hactive ▸ hplacement, ?_⟩
    exact (Option.any_eq_true _ _).mpr ⟨first, horphan first hfirst, hnow ▸ hexpired⟩

theorem Inv.setGroup (h : Inv c s) {g : ShardGroup Node} (hle : g.committed ≤ g.log.length)
    (hremoved : ∀ node, Condemned c s shard node → Removed (s.groups shard) node → Removed g node) :
    Inv c (s.setGroup shard g) := by
  refine ⟨fun i => ?_, fun i node hc => ?_, h.wipes⟩
  · by_cases hi : i = shard
    · simpa [Control.setGroup, hi] using hle
    · simpa [Control.setGroup, hi] using h.committed_le i
  · by_cases hi : i = shard
    · subst hi
      simpa [Control.setGroup] using hremoved node hc (h.removed i node hc)
    · simpa [Control.setGroup, hi] using h.removed i node hc

theorem condemned_of_removeCall {i : Nat} (h : Condemned c (s.removeCall i) shard node) :
    Condemned c s shard node :=
  h.mono (fun _ hcall => mem_of_mem_eraseIdx hcall)
    (fun f hf => ⟨f, hf, rfl, rfl, fun _ hi => hi⟩) fun _ hfirst => hfirst

theorem Inv.removeCall (h : Inv c s) (i : Nat) : Inv c (s.removeCall i) :=
  h.mono rfl (fun _ _ hc => condemned_of_removeCall hc) rfl

end Steps

variable [LinearOrder Node]

instance (g : ShardGroup Node) (node : Node) : Decidable (Removed g node) :=
  inferInstanceAs (Decidable (_ ∧ _))

instance (c : Topology Node) (s : Control Node) (node : Node) (active : List Node) (now : Int)
    (shard : Nat) : Decidable (Fenced c s node active now shard) :=
  inferInstanceAs (Decidable (_ ∧ _))

instance (c : Topology Node) (s : Control Node) (shard : Nat) (node : Node) :
    Decidable (Condemned c s shard node) :=
  inferInstanceAs (Decidable (_ ∨ _))

instance (c : Topology Node) (s : Control Node) (shard : Nat) (old new : Finset Node) :
    Decidable (Admissible c s shard old new) :=
  inferInstanceAs (Decidable (∀ node ∈ new, node ∉ old → _))

/-- Wipes are ordered only after the removal has been committed. -/
def Careful (c : Topology Node) (s : Control Node) : Event Node → Prop
  | .send k =>
      match s.passes[k]? with
      | some ⟨_, _, .dropShard node shard :: _⟩ => Removed (s.groups shard) node
      | _ => True
  | .accept i =>
      match s.calls[i]? with
      | some (.reconfigure shard voters) => Admissible c s shard (s.groups shard).voters voters
      | _ => True
  | .stray i old =>
      match s.calls[i]? with
      | some (.reconfigure shard voters) =>
          Admissible c s shard ((s.groups shard).latest old) voters
      | _ => True
  | .ask node pd now => ∀ shard ∈ s.hosted node, Fenced c s node (s.active c pd) now shard →
      Removed (s.groups shard) node
  | _ => True

instance (c : Topology Node) (s : Control Node) (a : Event Node) : Decidable (Careful c s a) := by
  unfold Careful
  split <;> first | infer_instance | (split <;> infer_instance)

theorem inv_init (c : Topology Node) : Inv c (init c) where
  committed_le := by simp [init]
  removed := by simp [Condemned, init]
  wipes := by simp [init]

variable {shard : Nat} {node : Node}

theorem Inv.wipe (h : Inv c s) (hremoved : Removed (s.groups shard) node) :
    Inv c (s.wipe node shard) := by
  refine { h with wipes := fun n i voters hmem => ?_ }
  rcases mem_append.mp hmem with hmem | hmem
  · exact h.wipes n i voters hmem
  · obtain ⟨rfl, rfl, rfl⟩ : n = node ∧ i = shard ∧ voters = _ := by simpa using hmem
    exact hremoved.1

theorem Inv.setOrphan (h : Inv c s) {since : Option Int}
    (hsince : ∀ first ∈ since, ∀ f ∈ s.fences node, f.now - first < fenceAfter) :
    Inv c (s.setOrphan node shard since) := by
  refine h.mono rfl (fun i n hc => ?_) rfl
  by_cases hsame : n = node ∧ i = shard
  · obtain ⟨rfl, rfl⟩ := hsame
    rcases hc with hcall | ⟨f, hf, -, -, htime⟩
    · exact .inl hcall
    · obtain ⟨first, hfirst, hexpired⟩ := (Option.any_eq_true _ _).mp htime
      have hlt := hsince first (by simpa [Control.setOrphan] using hfirst) f hf
      exact absurd (of_decide_eq_true hexpired) (not_le.mpr hlt)
  · refine hc.mono (fun _ hcall => hcall) (fun f hf => ⟨f, hf, rfl, rfl, fun _ hi => hi⟩)
      fun first hfirst => ?_
    by_cases hn : n = node
    · subst hn
      have hi : i ≠ shard := fun hi => hsame ⟨rfl, hi⟩
      simpa [Control.setOrphan, hi] using hfirst
    · simpa [Control.setOrphan, hn] using hfirst

theorem Inv.fenceShard (h : Inv c s) {active : List Node} {now : Int}
    (hnow : ∀ f ∈ s.fences node, f.now = now)
    (hfenced : Fenced c s node active now shard → Removed (s.groups shard) node) :
    Inv c (s.fenceShard c node active now shard) := by
  have hreset : Inv c (s.setOrphan node shard none) := h.setOrphan (by simp)
  simp only [Control.fenceShard]
  split
  · exact hreset
  · rename_i hplacement
    split
    · refine h.setOrphan fun first hfirst f hf => ?_
      obtain rfl : now = first := by simpa using hfirst
      rw [hnow f hf, Int.sub_self]
      decide
    · rename_i first hfirst
      split
      · rename_i hexpired
        refine hreset.wipe (hfenced ⟨hplacement, ?_⟩)
        simpa [hfirst] using hexpired
      · exact h

theorem Inv.setFence (h : Inv c s) {f : Fence Node} (hf : s.fences node = some f)
    {f' : Option (Fence Node)}
    (hf' : ∀ x ∈ f', x.active = f.active ∧ x.now = f.now ∧ ∀ i ∈ x.todo, i ∈ f.todo) :
    Inv c (s.setFence node f') := by
  refine h.mono rfl (fun shard n hc => ?_) rfl
  refine hc.mono (fun _ hcall => hcall) (fun x hx => ?_) fun _ hfirst => hfirst
  by_cases hn : n = node
  · subst hn
    exact ⟨f, hf, hf' x (by simpa [Control.setFence] using hx)⟩
  · exact ⟨x, by simpa [Control.setFence, hn] using hx, rfl, rfl, fun _ hi => hi⟩

theorem Inv.step_restart (h : Inv c s) {node : Node} (hstep : step c s (.restart node) = some t) :
    Inv c t := by
  cases hstep
  refine h.mono rfl (fun shard n hc => ?_) rfl
  by_cases hn : n = node
  · subst hn
    rcases hc with hcall | ⟨f, hf, -⟩
    · exact .inl hcall
    · simp at hf
  · exact hc.mono (fun _ hcall => hcall)
      (fun f hf => ⟨f, by simpa [hn] using hf, rfl, rfl, fun _ hi => hi⟩)
      fun first hfirst => by simpa [hn] using hfirst

theorem Inv.step_send (h : Inv c s) {k : Nat} (ha : Careful c s (.send k))
    (hstep : step c s (.send k) = some t) : Inv c t := by
  simp only [PlacementDriver.step] at hstep
  split at hstep <;> cases hstep
  rename_i active todo call outbox hpass
  refine ⟨h.committed_le, fun shard node hc => ?_, h.wipes⟩
  rcases hc with hcall | hfence
  · rcases mem_append.mp hcall with hcall | hcall
    · exact h.removed shard node (.inl hcall)
    · obtain rfl := mem_singleton.mp hcall
      simp only [Careful, hpass] at ha
      exact ha
  · exact h.removed shard node (.inr hfence)

theorem Inv.step_accept (h : Inv c s) {i : Nat} (ha : Careful c s (.accept i))
    (hstep : step c s (.accept i) = some t) : Inv c t := by
  simp only [PlacementDriver.step] at hstep
  split at hstep
  · rename_i shard voters hcall
    simp only [Careful, hcall] at ha
    split at hstep <;> cases hstep
    have hle := h.committed_le shard
    refine (h.removeCall i).setGroup ?_ fun node hc hremoved => ?_
    · simp only [length_append]
      omega
    · refine hremoved.accept hle fun hnode => ?_
      by_contra hold
      exact ha node hnode hold (condemned_of_removeCall hc)
  · simp at hstep

theorem Inv.step_stray (h : Inv c s) {i : Nat} {old : List (Finset Node)}
    (ha : Careful c s (.stray i old)) (hstep : step c s (.stray i old) = some t) : Inv c t := by
  simp only [PlacementDriver.step] at hstep
  split at hstep
  · rename_i shard voters hcall
    simp only [Careful, hcall] at ha
    split at hstep <;> cases hstep
    rename_i hold
    have hle := h.committed_le shard
    refine (h.removeCall i).setGroup hle fun node hc hremoved => ?_
    refine hremoved.stray hle hold.1 fun hnode => ?_
    by_contra hlatest
    exact ha node hnode hlatest (condemned_of_removeCall hc)
  · simp at hstep

theorem Inv.step_execute (h : Inv c s) {i : Nat} (hstep : step c s (.execute i) = some t) :
    Inv c t := by
  simp only [PlacementDriver.step] at hstep
  split at hstep
  · cases hstep
    exact (h.removeCall i).mono rfl (fun _ _ hc => hc) rfl
  · rename_i node shard hcall
    split at hstep
    · cases hstep
      exact (h.removeCall i).wipe (h.removed shard node (.inl (mem_of_getElem? hcall)))
    · cases hstep
      exact h.removeCall i
  · simp at hstep

theorem Inv.step_elect (h : Inv c s) {shard : Nat} {log : List (Finset Node)}
    (hstep : step c s (.elect shard log) = some t) : Inv c t := by
  simp only [PlacementDriver.step] at hstep
  split at hstep <;> cases hstep
  rename_i hlog
  have hle := h.committed_le shard
  refine h.setGroup ?_ fun node _ hremoved => hremoved.elect hle hlog
  simpa [length_take_of_le hle] using hlog.1.length_le

theorem Inv.step_ask (h : Inv c s) {node : Node} {pd : Node} {now : Int}
    (ha : Careful c s (.ask node pd now)) (hstep : step c s (.ask node pd now) = some t) :
    Inv c t := by
  simp only [PlacementDriver.step] at hstep
  split at hstep <;> cases hstep
  refine ⟨h.committed_le, fun shard n hc => ?_, h.wipes⟩
  rcases hc with hcall | ⟨f, hf, htodo, hfenced⟩
  · exact h.removed shard n (.inl hcall)
  · by_cases hn : n = node
    · subst hn
      obtain rfl : _ = f := by simpa [Control.setFence] using hf
      exact ha shard htodo hfenced
    · exact h.removed shard n (.inr ⟨f, by simpa [Control.setFence, hn] using hf, htodo, hfenced⟩)

theorem Inv.step_fence (h : Inv c s) {node : Node} (hstep : step c s (.fence node) = some t) :
    Inv c t := by
  simp only [PlacementDriver.step] at hstep
  split at hstep
  · rename_i active now shard todo hf
    cases hstep
    have hnext : Inv c (s.setFence node (some ⟨active, now, todo⟩)) :=
      h.setFence hf fun x hx => by
        obtain rfl : _ = x := by simpa using hx
        exact ⟨rfl, rfl, fun _ hi => mem_cons_of_mem _ hi⟩
    refine hnext.fenceShard (fun f hf => ?_) fun hfenced => ?_
    · obtain rfl : _ = f := by simpa [Control.setFence] using hf
      rfl
    · exact h.removed shard node (.inr ⟨_, hf, by simp, hfenced⟩)
  · rename_i hf
    cases hstep
    exact h.setFence hf (by simp)
  · simp at hstep

theorem Inv.step {a : Event Node} (h : Inv c s) (ha : Careful c s a)
    (hstep : step c s a = some t) : Inv c t := by
  cases a with
  | decide decision =>
    cases hstep
    exact h.mono rfl (fun _ _ hc => hc) rfl
  | apply pd =>
    simp only [PlacementDriver.step] at hstep
    split at hstep <;> cases hstep
    exact h.mono rfl (fun _ _ hc => hc) rfl
  | restart node => exact h.step_restart hstep
  | reconcile pd =>
    simp only [PlacementDriver.step] at hstep
    split at hstep <;> cases hstep
    exact h.mono rfl (fun _ _ hc => hc) rfl
  | inspect k voters =>
    simp only [PlacementDriver.step] at hstep
    split at hstep
    · split at hstep <;> cases hstep
      exact h.mono rfl (fun _ _ hc => hc) rfl
    · simp at hstep
  | skip k | cancel k =>
    simp only [PlacementDriver.step] at hstep
    split at hstep <;> cases hstep
    exact h.mono rfl (fun _ _ hc => hc) rfl
  | send k => exact h.step_send ha hstep
  | accept i => exact h.step_accept ha hstep
  | stray i old => exact h.step_stray ha hstep
  | execute i => exact h.step_execute hstep
  | lose i =>
    obtain ⟨call, -, rfl⟩ := Option.map_eq_some_iff.mp hstep
    exact h.removeCall i
  | commit shard =>
    simp only [PlacementDriver.step] at hstep
    split at hstep <;> cases hstep
    rename_i hlt
    exact h.setGroup hlt fun node _ hremoved => hremoved.commit hlt
  | elect shard log => exact h.step_elect hstep
  | ask node pd now => exact h.step_ask ha hstep
  | fence node => exact h.step_fence hstep

/-- Files of a replica are deleted only when its node is not a voter of the committed
configuration. -/
theorem wiped_not_mem_voters (h : Reaches (step c) (Careful c) (init c) s) {node : Node}
    {shard : Nat} {voters : Finset Node} (hwipe : (node, shard, voters) ∈ s.wipes) :
    node ∉ voters := by
  have hinv : Inv c s :=
    h.invariant (Inv c) (inv_init c) fun _ _ _ hu ha hstep => hu.step ha hstep
  exact hinv.wipes node shard voters hwipe

def sampleTopology : Topology Nat := ⟨[0, 1, 2, 3], [0, 1, 2], 1, 3⟩

/-- Node 2 is taken out and node 3 has become a voter in its place; the next pass has
the calls for the removal of node 2 ready. -/
def replaceTwo : List (Event Nat) :=
  [.decide (.removeNode 2), .apply 0, .reconcile 0, .inspect 0 {0, 1, 2}, .send 0, .send 0,
    .execute 0, .accept 0, .commit 0, .reconcile 0, .inspect 1 {0, 1, 2, 3}, .send 1]

/-- The removal is committed before the replica is dropped. -/
def dropAfterCommit : List (Event Nat) :=
  replaceTwo ++ [Event.accept 0, .commit 0, .send 1, .execute 0]

theorem wiped_not_mem_voters_of_commit : ∃ s : Control Nat,
    Reaches (step sampleTopology) (Careful sampleTopology) (init sampleTopology) s ∧
      (2, 0, {0, 1, 3}) ∈ s.wipes ∧ 2 ∉ ({0, 1, 3} : Finset Nat) := by
  obtain ⟨s, hs, hwipe⟩ := exists_reaches (step sampleTopology) (Careful sampleTopology)
    (init sampleTopology) dropAfterCommit (fun s => (2, 0, {0, 1, 3}) ∈ s.wipes) (by decide +kernel)
  exact ⟨s, hs, hwipe, wiped_not_mem_voters hs hwipe⟩

/-- The request to remove the node is lost, and its replica is dropped all the same. -/
def dropAfterLoss : List (Event Nat) := replaceTwo ++ [Event.lose 0, .send 1, .execute 0]

theorem not_wiped_not_mem_voters_of_loss :
    ¬∀ s : Control Nat, Reaches (step sampleTopology) (fun _ _ => True) (init sampleTopology) s →
      ∀ node shard voters, (node, shard, voters) ∈ s.wipes → node ∉ voters := by
  intro hall
  obtain ⟨s, hs, htest⟩ := exists_reaches (step sampleTopology) (fun _ _ => True)
    (init sampleTopology) dropAfterLoss (fun s => (2, 0, {0, 1, 2, 3}) ∈ s.wipes)
    (by decide +kernel)
  exact hall s hs 2 0 {0, 1, 2, 3} (htest) (by decide)

end LiteDB.ReplicaWipes
