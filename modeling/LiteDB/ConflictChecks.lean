import LiteDB.CommitOrder
import LiteDB.ShardReplica

namespace LiteDB.ConflictChecks

open CommitOrder List Runs SortedMaps ShardLedger ShardReplica ShardStore VersionKeys

variable {Node : Type} {s : Shard Node}

section Midway

variable {store t : Store} {l : Ledger} {e : Entry} {p : Pending}

/-- What can be seen of a store in the middle of an entry. -/
structure Midway (t : Store) (p : Pending) (l : Ledger) (e : Entry) : Prop where
  engine : ∃ intents, Holds t.engine (l.apply e).versions intents ∨
    Holds t.engine l.versions intents ∧
      ∃ txnId x, p = .resolve txnId (some x.staged) ∧ l.commits e = [x]
  intents : t.intents = (l.apply e).intents.mapValues Record.staged ∨
    t.intents = l.intents.mapValues Record.staged ∧
      ∃ txnId commitTs writes, e.command = .prepare txnId commitTs writes
  lastTs : t.lastTs = l.lastTs

theorem midway_of_started (hr : Represents store l) (hl : l.Sound) (he : Command.Storable e.command)
    (h : Store.Started store e.command (t, some p)) : Midway t p l e := by
  obtain ⟨command, readTs⟩ := e
  have hs := hl.versions
  rcases h.cases with hbegin | hdone | ⟨txnId, commitTs, writes, rfl, hget, hst⟩
  · cases command with
    | control => simp [Store.begin] at hbegin
    | write ts writes =>
      obtain ⟨rfl, -⟩ := Prod.mk.inj hbegin
      refine ⟨⟨store.intents, .inl ?_⟩, .inl hr.intents, hr.lastTs⟩
      rw [Ledger.versions_apply]
      simpa [Ledger.commits, Record.versions] using hr.engine.putVersions hs he.1 he.2
    | prepare txnId commitTs writes =>
      obtain ⟨rfl, -⟩ := Prod.mk.inj hbegin
      refine ⟨⟨store.intents.set txnId (commitTs, writes), .inl ?_⟩,
        .inr ⟨hr.intents, _, _, _, rfl⟩, hr.lastTs⟩
      rw [Ledger.versions_apply]
      simpa [Ledger.commits] using hr.engine.putIntent (t := txnId) (c := commitTs) hs
    | commit txnId =>
      obtain ⟨rfl, hp⟩ := Prod.mk.inj hbegin
      have hget : store.intents.get? txnId = (l.intents.get? txnId).map Record.staged := by
        rw [hr.intents, Dict.get?_mapValues]
      refine ⟨⟨store.intents, ?_⟩, .inl ?_, hr.lastTs⟩
      · cases hx : l.intents.get? txnId with
        | none =>
          left
          rw [Ledger.versions_apply]
          simpa [Ledger.commits, hx] using hr.engine
        | some x =>
          right
          refine ⟨hr.engine, txnId, x, ?_, by simp [Ledger.commits, hx]⟩
          rw [hget, hx] at hp
          exact Option.some.inj hp
      · rw [hr.intents]
        exact Dict.mapValues_erase.symm
    | abort txnId =>
      obtain ⟨rfl, -⟩ := Prod.mk.inj hbegin
      refine ⟨⟨store.intents, .inl ?_⟩, .inl ?_, hr.lastTs⟩
      · rw [Ledger.versions_apply]
        simpa [Ledger.commits] using hr.engine
      · rw [hr.intents]
        exact Dict.mapValues_erase.symm
  · simp at hdone
  · obtain ⟨rfl, -⟩ := Prod.mk.inj hst
    have hnext := hr.apply (e := ⟨.commit txnId, readTs⟩) hl he
    rw [Store.apply_commit_of_some store hget] at hnext
    exact ⟨⟨_, .inl hnext.engine⟩, .inl hnext.intents, hr.lastTs⟩

end Midway

section States

def begun (s : Shard Node) : Ledger := Ledger.replay (s.log.take s.started)

/-- No entry that has not been applied completely writes or locks `key`. -/
def Quiet (s : Shard Node) (key : Text) : Prop :=
  ∀ e ∈ s.log.drop s.applied, ¬Touches e.command key

instance (s : Shard Node) (key : Text) : Decidable (Quiet s key) :=
  inferInstanceAs (Decidable (∀ e ∈ _, _))

def stagedKeys (staged : Option (Int × Writes)) : List Text :=
  staged.elim [] fun x => x.2.map Prod.fst

/-- The keys of a transaction that `apply` has taken from the intents and not yet
stored. -/
def resolving (s : Shard Node) : List Text :=
  match s.pending with
  | some (.resolve _ staged) => stagedKeys staged
  | _ => []

/-- The keys of the transaction that the next entry commits. -/
def nextCommit (s : Shard Node) : List Text :=
  match s.log[s.applied]? with
  | some ⟨.commit txnId, _⟩ => stagedKeys (s.store.intents.get? txnId)
  | _ => []

/-- A prepared transaction has an id; single-shard writes go without one. -/
def Proper : Job → Prop
  | .write _ _ => True
  | .prepare txnId _ _ _ => txnId ≠ []

instance (job : Job) : Decidable (Proper job) := by
  cases job <;> unfold Proper <;> infer_instance

def Idle : Option Request → Prop
  | none => True
  | some (.wait _) => True
  | _ => False

instance (request : Option Request) : Decidable (Idle request) := by
  unfold Idle
  split <;> infer_instance

/-- The steps at which a check can be trusted. When a key is looked up, no entry for
it is on its way and no transaction with it is between its intent and its versions;
none is committed between the two halves of the check of the key, and no call of the engine
raises. -/
def Careful (s : Shard Node) (a : Event Node) : Prop :=
  match a, s.request with
  | .checkNewest, some (.check _ _ (key :: _)) => Plain key ∧ Quiet s key ∧ key ∉ resolving s
  | .begin, some (.locks _ _ key _) => key ∉ nextCommit s
  | .propose, some (.propose job readTs commitTs) =>
      Storable commitTs job.writes ∧ readTs ≤ commitTs ∧ Proper job
  | .elect _ _ _ left, _ => Idle left
  | .raise _, _ => False
  | _, _ => True

instance (s : Shard Node) (a : Event Node) : Decidable (Careful s a) := by
  unfold Careful
  split <;> infer_instance

def Synced (s : Shard Node) : Prop :=
  match s.pending with
  | none => Represents s.store s.ledger
  | some p => ∃ store e, s.log[s.applied]? = some e ∧ Represents store s.ledger ∧
      Store.Started store e.command (s.store, some p)

def Checked (s : Shard Node) (key : Text) (readTs : Int) (own : Text) : Prop :=
  Quiet s key ∧ Clear (begun s) key readTs own

/-- What a request has established so far. -/
def Holding (s : Shard Node) : Option Request → Prop
  | some (.check job readTs rest) =>
      ∀ key ∈ job.keys, key ∈ rest ∨ Checked s key readTs job.txnId
  | some (.locks job readTs key rest) =>
      (∀ k ∈ job.keys, k ∈ key :: rest ∨ Checked s k readTs job.txnId) ∧ Quiet s key ∧
        ∀ r ∈ (begun s).committed, r.Touches key → r.commitTs ≤ readTs
  | some (.propose job readTs _) => ∀ key ∈ job.keys, Checked s key readTs job.txnId
  | _ => True

/-- The logs of all leaders are valid, and the request has seen what it may not overtake. -/
structure Inv (s : Shard Node) : Prop where
  valid : ∀ log ∈ s.log :: s.past, Valid log
  started_le : s.started ≤ s.log.length
  synced : Synced s
  holding : Holding s s.request

theorem begun_of_none (h : s.pending = none) : begun s = s.ledger := by
  simp [begun, Shard.started, Shard.ledger, h]

variable {e : Entry}

theorem begun_of_some (h : s.pending ≠ none) (he : s.log[s.applied]? = some e) :
    begun s = s.ledger.apply e := by
  rw [begun, Shard.started, if_neg h, take_add_one, he, Shard.ledger]
  exact Ledger.replay_concat _ e

theorem Inv.valid_log (h : Inv s) : Valid s.log := h.valid s.log (by simp)

theorem Inv.ordered (h : Inv s) (n : Nat) : Ordered (Ledger.replay (s.log.take n)) :=
  Valid.ordered (h.valid_log.initial (List.take_prefix n s.log))

/-- The entry that is being applied was admitted by what has been applied. -/
theorem Inv.admits (h : Inv s) (he : s.log[s.applied]? = some e) : Admits s.ledger e := by
  have hnext : Valid (s.log.take (s.applied + 1)) :=
    h.valid_log.initial (List.take_prefix _ _)
  rw [take_add_one, he] at hnext
  exact hnext.last

theorem Inv.midway (h : Inv s) {p : Pending} (hp : s.pending = some p) :
    ∃ e, s.log[s.applied]? = some e ∧ begun s = s.ledger.apply e ∧ Midway s.store p s.ledger e := by
  have hsync := h.synced
  rw [Synced, hp] at hsync
  obtain ⟨store, e, he, hr, hstarted⟩ := hsync
  refine ⟨e, he, begun_of_some (by simp [hp]) he, ?_⟩
  exact midway_of_started hr (h.ordered _).sound (h.admits he).storable hstarted

theorem Inv.represents (h : Inv s) (hp : s.pending = none) : Represents s.store s.ledger := by
  have hsync := h.synced
  rwa [Synced, hp] at hsync

end States

section Checks

variable {key : Text}

theorem mem_drop_of_getElem? {α : Type} {xs : List α} {n : Nat} {x : α} (h : xs[n]? = some x) :
    x ∈ xs.drop n :=
  mem_of_mem_head? (head?_drop ▸ h)

theorem mem_versions {l : Ledger} {r : Record} (hr : r ∈ l.committed) (hkey : r.Touches key) :
    ∃ v ∈ l.versions, v.key = key ∧ v.ts = r.commitTs := by
  obtain ⟨w, hw, rfl⟩ := mem_map.mp hkey
  exact ⟨⟨w.1, r.commitTs, w.2⟩, mem_flatMap.mpr ⟨r, hr, mem_map.mpr ⟨w, hw, rfl⟩⟩, rfl, rfl⟩

/-- The engine shows every version of a key that is not being resolved. -/
theorem Inv.engine (h : Inv s) (hkey : key ∉ resolving s) :
    ∃ vs intents, Holds s.store.engine vs intents ∧ Sound vs ∧
      ∀ v ∈ (begun s).versions, v.key = key → v ∈ vs := by
  cases hp : s.pending with
  | none =>
    refine ⟨_, _, (h.represents hp).engine, (h.ordered _).sound.versions, fun v hv _ => ?_⟩
    rwa [begun_of_none hp] at hv
  | some p =>
    obtain ⟨e, he, hbegun, hmid⟩ := h.midway hp
    obtain ⟨intents, hnew | ⟨hold, txnId, x, rfl, hcommits⟩⟩ := hmid.engine
    · refine ⟨_, intents, hnew, ?_, fun v hv _ => hbegun ▸ hv⟩
      exact ((h.ordered _).sound.apply (h.admits he).storable).versions
    · refine ⟨_, intents, hold, (h.ordered _).sound.versions, fun v hv hvkey => ?_⟩
      rw [hbegun, Ledger.versions_apply, hcommits, flatMap_singleton] at hv
      rcases mem_append.mp hv with hv | hv
      · exact hv
      · -- the versions that are missing have other keys
        obtain ⟨w, hw, rfl⟩ := mem_map.mp hv
        refine absurd ?_ hkey
        rw [resolving, hp]
        exact mem_map.mpr ⟨w, hw, hvkey⟩

/-- The intents show every prepared transaction that holds a quiet key. -/
theorem Inv.intents (h : Inv s) (hquiet : Quiet s key) {t : Text} {x : Record}
    (hx : (t, x) ∈ (begun s).intents.entries) (hkey : x.Touches key) :
    (t, x.staged) ∈ s.store.intents.entries := by
  have hmap : ∀ d : Dict Text Record, (t, x) ∈ d.entries →
      (t, x.staged) ∈ (d.mapValues Record.staged).entries := fun d hd =>
    mem_map.mpr ⟨(t, x), hd, rfl⟩
  cases hp : s.pending with
  | none =>
    rw [begun_of_none hp] at hx
    rw [(h.represents hp).intents]
    exact hmap _ hx
  | some p =>
    obtain ⟨⟨command, readTs⟩, he, hbegun, hmid⟩ := h.midway hp
    rw [hbegun] at hx
    rcases hmid.intents with hnew | ⟨hold, txnId, commitTs, writes, hcommand⟩
    · rw [hnew]
      exact hmap _ hx
    · obtain rfl : command = _ := hcommand
      rw [hold]
      have hset := Dict.mem_set.mp hx
      split at hset
      · subst hset
        exact absurd hkey (hquiet _ (mem_drop_of_getElem? he))
      · exact hmap _ hset

variable {readTs : Int}

theorem Inv.newest (h : Inv s) (hplain : Plain key) (hkey : key ∉ resolving s) {ts : Int}
    (hts : s.store.newestCommittedTs key = some ts) (hle : ¬readTs < ts) :
    ∀ r ∈ (begun s).committed, r.Touches key → r.commitTs ≤ readTs := by
  intro r hr htouch
  obtain ⟨vs, intents, hholds, hsound, hvs⟩ := h.engine hkey
  obtain ⟨t, ht, hmax, -⟩ := newestCommittedTs_spec hholds hsound hplain
  obtain rfl : ts = t := Option.some.inj (hts.symm.trans ht)
  obtain ⟨v, hv, hvkey, hvts⟩ := mem_versions hr htouch
  rw [← hvts]
  exact (hmax v (hvs v hv hvkey) hvkey).trans (not_lt.mp hle)

theorem Inv.checked (h : Inv s) (hquiet : Quiet s key) {own : Text}
    (hnewest : ∀ r ∈ (begun s).committed, r.Touches key → r.commitTs ≤ readTs)
    (hlocks : s.store.intentLocking key own = none) : Checked s key readTs own :=
  ⟨hquiet, fun r hr hkey _ => hnewest r hr hkey,
    fun _ _ hx hkey => intentLocking_eq_none hlocks (h.intents hquiet hx hkey) hkey⟩

end Checks

section Steps

theorem Inv.withRequest (h : Inv s) (clocks : Node → HLC) (request : Option Request)
    (hholding : Holding s request) : Inv { s with clocks := clocks, request := request } :=
  { h with holding := hholding }

theorem Inv.release (h : Inv s) : Inv s.release := h.withRequest s.clocks none trivial

variable {t : Shard Node} {e : Entry}

theorem Holding.imp {request : Option Request} (h : Holding s request)
    (hquiet : ∀ key, Quiet s key → Quiet t key)
    (hclear : ∀ key readTs own, Quiet s key → Clear (begun s) key readTs own →
      Clear (begun t) key readTs own)
    (hlocks : ∀ job readTs key rest, request = some (.locks job readTs key rest) → Quiet s key →
      (∀ r ∈ (begun s).committed, r.Touches key → r.commitTs ≤ readTs) →
      ∀ r ∈ (begun t).committed, r.Touches key → r.commitTs ≤ readTs) : Holding t request := by
  have hchecked : ∀ key readTs own, Checked s key readTs own → Checked t key readTs own :=
    fun key readTs own hc => ⟨hquiet key hc.1, hclear key readTs own hc.1 hc.2⟩
  match request, h with
  | none, _ => trivial
  | some (.wait _), _ => trivial
  | some (.check job readTs rest), h =>
    exact fun key hkey => (h key hkey).imp_right (hchecked key readTs job.txnId)
  | some (.locks job readTs key rest), ⟨hkeys, hq, hnewest⟩ =>
    exact ⟨fun k hk => (hkeys k hk).imp_right (hchecked k readTs job.txnId), hquiet key hq,
      hlocks job readTs key rest rfl hq hnewest⟩
  | some (.propose job readTs commitTs), h =>
    exact fun key hkey => hchecked key readTs job.txnId (h key hkey)

theorem Inv.append (h : Inv s) (hp : s.pending = none) (he : Admits (Ledger.replay s.log) e)
    (request : Option Request) (hholding : Holding { s with log := s.log ++ [e] } request) :
    Inv { s with log := s.log ++ [e], request := request } := by
  have hle : s.applied ≤ s.log.length := by simpa [Shard.started, hp] using h.started_le
  refine ⟨?_, ?_, ?_, hholding⟩
  · intro log hlog
    rcases mem_cons.mp hlog with rfl | hlog
    · exact Admitted.concat h.valid_log he
    · exact h.valid log (by simp [hlog])
  · simp only [Shard.started, hp, if_true, length_append]
    omega
  · have hr := h.represents hp
    simp only [Synced, hp, Shard.ledger] at hr ⊢
    rwa [take_append_of_le_length hle]

/-- Commits, aborts and control entries do not disturb a request. -/
theorem Inv.appendOther (h : Inv s) (hp : s.pending = none) (he : Admits (Ledger.replay s.log) e)
    (hother : ∀ key, ¬Touches e.command key) : Inv { s with log := s.log ++ [e] } := by
  have hle : s.applied ≤ s.log.length := by simpa [Shard.started, hp] using h.started_le
  have hbegun : begun { s with log := s.log ++ [e] } = begun s := by
    simp only [begun, Shard.started, hp, if_true, take_append_of_le_length hle]
  refine h.append hp he s.request (h.holding.imp ?_ ?_ ?_)
  · intro key hquiet e' he'
    rw [drop_append_of_le_length hle] at he'
    rcases mem_append.mp he' with he' | he'
    · exact hquiet e' he'
    · rw [mem_singleton.mp he']
      exact hother key
  · rw [hbegun]
    exact fun _ _ _ _ hc => hc
  · rw [hbegun]
    exact fun _ _ _ _ _ _ hc => hc

theorem started_advance (next : Store × Option Pending) :
    (s.advance next).started = s.applied + 1 := by
  obtain ⟨store, p⟩ := next
  cases p <;> simp [Shard.started, Shard.advance]

theorem begun_advance (he : s.log[s.applied]? = some e) (next : Store × Option Pending) :
    begun (s.advance next) = s.ledger.apply e := by
  rw [begun, started_advance]
  simp only [Shard.advance]
  rw [take_add_one, he, Shard.ledger]
  exact Ledger.replay_concat _ e

theorem quiet_advance {key : Text} (h : Quiet s key) (next : Store × Option Pending) :
    Quiet (s.advance next) key := by
  intro e he
  refine h e ?_
  simp only [Shard.advance] at he
  split at he
  · exact mem_of_mem_drop (by rwa [drop_drop])
  · exact he

theorem Inv.advance (h : Inv s) (he : s.log[s.applied]? = some e) {store : Store}
    (hr : Represents store s.ledger) {next : Store × Option Pending}
    (hstarted : Store.Started store e.command next)
    (hholding : Holding (s.advance next) s.request) : Inv (s.advance next) := by
  refine ⟨h.valid, ?_, ?_, hholding⟩
  · rw [started_advance]
    exact (List.getElem?_eq_some_iff.mp he).1
  · obtain ⟨t, p⟩ := next
    cases p with
    | some p => exact ⟨store, e, he, hr, hstarted⟩
    | none =>
      obtain rfl := hstarted.done
      have hnext := hr.apply (h.ordered _).sound (h.admits he).storable
      simp only [Synced, Shard.advance, Shard.ledger, if_true]
      rw [take_add_one, he]
      simp only [Option.toList_some, Ledger.replay_concat]
      exact hnext

theorem Inv.begin (h : Inv s) (hp : s.pending = none) (he : s.log[s.applied]? = some e)
    (hlocks : ∀ job readTs key rest, s.request = some (.locks job readTs key rest) →
      key ∉ nextCommit s) : Inv (s.advance (s.store.begin e.command)) := by
  have hr := h.represents hp
  refine h.advance he hr .begin (h.holding.imp (fun key hq => quiet_advance hq _) ?_ ?_)
  · intro key readTs own hq hclear
    rw [begun_of_none hp] at hclear
    rw [begun_advance he]
    exact hclear.apply (h.ordered _) (hq e (mem_drop_of_getElem? he))
  · intro job readTs key rest hrequest hq hnewest r hmem hkey
    rw [begun_of_none hp] at hnewest
    rw [begun_advance he] at hmem
    rcases mem_append.mp hmem with hmem | hmem
    · exact hnewest r hmem hkey
    · obtain ⟨command, ts⟩ := e
      cases command with
      | write commitTs writes =>
        obtain rfl : r = _ := by simpa [Ledger.commits] using hmem
        exact absurd hkey (hq _ (mem_drop_of_getElem? he))
      | commit txnId =>
        have hget : s.ledger.intents.get? txnId = some r := by
          simpa [Ledger.commits] using hmem
        refine absurd ?_ (hlocks job readTs key rest hrequest)
        simp only [nextCommit, he, hr.intents, Dict.get?_mapValues, hget]
        exact hkey
      | control | prepare | abort => simp [Ledger.commits] at hmem

theorem Inv.resume (h : Inv s) {p : Pending} (hp : s.pending = some p) :
    Inv (s.advance (s.store.resume p)) := by
  have hsync := h.synced
  rw [Synced, hp] at hsync
  obtain ⟨store, e, he, hr, hstarted⟩ := hsync
  have hbegun : begun (s.advance (s.store.resume p)) = begun s := by
    rw [begun_advance he, begun_of_some (by simp [hp]) he]
  refine h.advance he hr hstarted.resume (h.holding.imp (fun key hq => quiet_advance hq _) ?_ ?_)
  · rw [hbegun]
    exact fun _ _ _ _ hc => hc
  · rw [hbegun]
    exact fun _ _ _ _ _ _ hc => hc

theorem Inv.admits_propose (h : Inv s) (hp : s.pending = none) {job : Job} {readTs ts : Int}
    (hchecked : ∀ key ∈ job.keys, Checked s key readTs job.txnId)
    (hstorable : Storable ts job.writes) (hle : readTs ≤ ts) (hproper : Proper job) :
    Admits (Ledger.replay s.log) ⟨job.command ts, readTs⟩ := by
  have hclear : ∀ key ∈ job.keys, Clear (Ledger.replay s.log) key readTs job.txnId := by
    intro key hkey
    obtain ⟨hquiet, hclear⟩ := hchecked key hkey
    rw [begun_of_none hp, Shard.ledger] at hclear
    have hvalid := h.valid_log
    rw [← take_append_drop s.applied s.log] at hvalid ⊢
    exact hclear.replay hvalid hquiet
  cases job with
  | write writes readTs? => exact ⟨hstorable, hle, hclear⟩
  | prepare txnId writes rts commitTs => exact ⟨hstorable, hle, hproper, hclear⟩

/-- A new leader that no request is waiting in starts from what it has applied of its log. -/
theorem Inv.elect (h : Inv s) {log : List Entry} (hlog : s.CanElect log) (node : Node)
    {done inherited decided : Nat} (hdone : done ≤ log.length) (left : Option Request)
    (hleft : Idle left) :
    Inv (⟨node, s.clocks, log ++ [⟨.control, 0⟩], s.log :: s.past, inherited, decided, done, none,
      replay (log.take done), left⟩ : Shard Node) := by
  obtain ⟨-, old, hold, hp⟩ := hlog
  have hvalid : Valid log := (h.valid old hold).initial hp
  refine ⟨?_, ?_, ?_, ?_⟩
  · intro log' hlog'
    rcases mem_cons.mp hlog' with rfl | hlog'
    · exact .concat hvalid trivial
    · exact h.valid log' hlog'
  · simp only [Shard.started, if_true, length_append]
    omega
  · simp only [Synced, Shard.ledger, take_append_of_le_length hdone]
    exact Valid.represents (hvalid.initial (List.take_prefix _ _))
  · match left, hleft with
    | none, _ => trivial
    | some (.wait _), _ => trivial

variable [DecidableEq Node]

theorem Inv.setClock (h : Inv s) (node : Node) (clock : HLC) : Inv (setClock s node clock) :=
  { h with }

theorem Inv.acquire {job : Job} (h : Inv s) (hstep : step s (.acquire job) = some t) : Inv t := by
  simp only [ShardReplica.step] at hstep
  split at hstep
  · split at hstep <;> cases hstep
    exact h.withRequest s.clocks _ fun key hkey => .inl hkey
  · cases hstep

theorem Inv.checkNewest (h : Inv s) (ha : Careful s .checkNewest)
    (hstep : step s .checkNewest = some t) : Inv t := by
  simp only [ShardReplica.step] at hstep
  split at hstep
  · rename_i job readTs key rest hrequest
    simp only [Careful, hrequest] at ha
    obtain ⟨hplain, hquiet, hkey⟩ := ha
    have hholding := h.holding
    rw [hrequest] at hholding
    split at hstep
    · cases hstep
      exact h.release
    · rename_i ts hts
      split at hstep
      · cases hstep
        exact h.release
      · rename_i hle
        cases hstep
        exact h.withRequest s.clocks _ ⟨hholding, hquiet, h.newest hplain hkey hts hle⟩
  · cases hstep

theorem Inv.checkLocks (h : Inv s) (hstep : step s .checkLocks = some t) : Inv t := by
  simp only [ShardReplica.step] at hstep
  split at hstep
  · rename_i job readTs key rest hrequest
    have hholding := h.holding
    rw [hrequest] at hholding
    obtain ⟨hkeys, hquiet, hnewest⟩ := hholding
    split at hstep
    · rename_i hlocks
      cases hstep
      refine h.withRequest s.clocks _ fun k hk => ?_
      rcases hkeys k hk with hmem | hchecked
      · rcases mem_cons.mp hmem with rfl | hmem
        · exact .inr (h.checked hquiet hnewest hlocks)
        · exact .inl hmem
      · exact .inr hchecked
    · cases hstep
      exact h.release
  · cases hstep

theorem Inv.stamp {wall : Int} (h : Inv s) (hstep : step s (.stamp wall) = some t) : Inv t := by
  simp only [ShardReplica.step] at hstep
  split at hstep <;> cases hstep
  rename_i job readTs hrequest
  have hholding := h.holding
  rw [hrequest] at hholding
  exact h.withRequest _ _ fun key hkey => (hholding key hkey).resolve_left (by simp)

theorem Inv.propose (h : Inv s) (ha : Careful s .propose) (hstep : step s .propose = some t) :
    Inv t := by
  simp only [ShardReplica.step] at hstep
  split at hstep
  · rename_i job readTs ts hrequest
    simp only [Careful, hrequest] at ha
    obtain ⟨hstorable, hle, hproper⟩ := ha
    have hholding := h.holding
    rw [hrequest] at hholding
    simp only [Shard.append] at hstep
    split at hstep <;> cases hstep
    rename_i hp
    exact h.append hp (h.admits_propose hp hholding hstorable hle hproper) _ trivial
  · cases hstep

theorem Inv.step {a : Event Node} (h : Inv s) (ha : Careful s a) (hstep : step s a = some t) :
    Inv t := by
  cases a with
  | acquire job => exact h.acquire hstep
  | checkNewest => exact h.checkNewest ha hstep
  | checkLocks => exact h.checkLocks hstep
  | stamp wall => exact h.stamp hstep
  | propose => exact h.propose ha hstep
  | release =>
    simp only [ShardReplica.step] at hstep
    split at hstep <;> cases hstep
    exact h.release
  | resolve txnId commit =>
    simp only [ShardReplica.step, Shard.append] at hstep
    split at hstep <;> cases hstep
    rename_i hp
    cases commit <;> exact h.appendOther hp trivial fun key => id
  | control =>
    simp only [ShardReplica.step, Shard.append] at hstep
    split at hstep <;> cases hstep
    rename_i hp
    exact h.appendOther hp trivial fun key => id
  | begin =>
    simp only [ShardReplica.step] at hstep
    split at hstep
    · rename_i hp
      obtain ⟨e, he, rfl⟩ := Option.map_eq_some_iff.mp hstep
      refine h.begin hp he fun job readTs key rest hrequest => ?_
      simpa only [Careful, hrequest] using ha
    · cases hstep
  | resume =>
    obtain ⟨p, hp, rfl⟩ := Option.map_eq_some_iff.mp hstep
    exact h.resume hp
  | raise stored => exact ha.elim
  | now node wall | update node remoteTs wall =>
    cases hstep
    exact h.setClock _ _
  | elect node log done left =>
    simp only [ShardReplica.step] at hstep
    split at hstep <;> cases hstep
    rename_i hlog
    exact h.elect hlog.1 node hlog.2 left ha

omit [DecidableEq Node] in
theorem inv_start (node : Node) : Inv (start node) where
  valid := by
    intro log hlog
    obtain rfl : log = [] := by simpa [start] using hlog
    exact .nil
  started_le := by simp [start, Shard.started]
  synced := represents_create
  holding := trivial

theorem Reaches.inv {node : Node} (h : Reaches step Careful (start node) s) : Inv s :=
  Runs.Reaches.invariant Inv h (inv_start node) fun _ _ _ hinv ha hstep => hinv.step ha hstep

end Steps

section FirstCommitter

variable [DecidableEq Node]

/-- Of two transactions that wrote the same key the one with the larger commit
timestamp has read at least at the timestamp of the other. -/
theorem first_committer_wins {node : Node} {s : Shard Node}
    (h : Reaches step Careful (start node) s) {r r' : Record} (hr : r ∈ s.ledger.committed)
    (hr' : r' ∈ s.ledger.committed) {key : Text} (hkey : r.Touches key)
    (hkey' : r'.Touches key) (hne : r.txnId = none ∨ r.txnId ≠ r'.txnId)
    (hlt : r.commitTs < r'.commitTs) : r.commitTs ≤ r'.readTs :=
  ((Reaches.inv h).ordered _).seen hr hr' hkey hkey' hne hlt

def request (job : Job) (wall : Int) : List (Event Node) :=
  .acquire job :: job.keys.flatMap (fun _ => [.checkNewest, .checkLocks]) ++
    [Event.stamp wall, .propose]

def sampleKey : Text := "k".toList

def sampleWrites (value : String) : Dict Text (Option Text) :=
  Dict.empty.set sampleKey (some value.toList)

/-- A transaction of several shards commits and a write follows it. -/
def writeAfterCommit : List (Event Unit) :=
  request (.prepare "t".toList (sampleWrites "a") 10 20) 0 ++
    [Event.begin, .resume, .release, .resolve "t".toList true, .begin, .resume, .resume] ++
    request (.write (sampleWrites "b") (some 20)) 0 ++ [Event.begin, .resume, .release]

theorem first_committer_wins_of_commit : ∃ (s : Shard Unit) (r r' : Record),
    Reaches step Careful (start ()) s ∧ r ∈ s.ledger.committed ∧ r' ∈ s.ledger.committed ∧
      r.Touches sampleKey ∧ r'.Touches sampleKey ∧ r.commitTs < r'.commitTs ∧
      r.commitTs ≤ r'.readTs := by
  obtain ⟨s, hs, r, hr, r', hr', hkey, hkey', hne, hlt⟩ :=
    exists_reaches step Careful (start ()) writeAfterCommit
    (fun s => ∃ r ∈ s.ledger.committed, ∃ r' ∈ s.ledger.committed, r.Touches sampleKey ∧
      r'.Touches sampleKey ∧ r.txnId ≠ r'.txnId ∧ r.commitTs < r'.commitTs) (by decide +kernel)
  exact ⟨s, r, r', hs, hr, hr', hkey, hkey', hlt,
    first_committer_wins hs hr hr' hkey hkey' (.inr hne) hlt⟩

/-- Writes carry the snapshot that they were read at, and the leader stays. -/
def Explicit (_ : Shard Node) : Event Node → Prop
  | .acquire (.write _ none) => False
  | .elect _ _ _ _ | .raise _ => False
  | _ => True

instance (s : Shard Node) (a : Event Node) : Decidable (Explicit s a) := by
  unfold Explicit
  split <;> infer_instance

/-- The first write is not seen by the check of the second one, since it is applied
after its request has given up. -/
def lateCommit : List (Event Unit) :=
  request (.write (sampleWrites "a") (some 10)) 0 ++ [Event.release] ++
    request (.write (sampleWrites "b") (some 10)) 0 ++
    [Event.begin, .resume, .begin, .resume, .release]

theorem not_first_committer_wins_of_lateCommit :
    ¬∀ s : Shard Unit, Reaches step Explicit (start ()) s →
      ∀ r ∈ s.ledger.committed, ∀ r' ∈ s.ledger.committed, ∀ key, r.Touches key →
        r'.Touches key → (r.txnId = none ∨ r.txnId ≠ r'.txnId) → r.commitTs < r'.commitTs →
        r.commitTs ≤ r'.readTs := by
  intro hall
  obtain ⟨s, hs, r, hr, r', hr', hkey, hkey', hid, hlt, hread⟩ :=
    exists_reaches step Explicit (start ()) lateCommit
    (fun s => ∃ r ∈ s.ledger.committed, ∃ r' ∈ s.ledger.committed, r.Touches sampleKey ∧
      r'.Touches sampleKey ∧ r.txnId = none ∧ r.commitTs < r'.commitTs ∧ r'.readTs < r.commitTs)
    (by decide +kernel)
  exact absurd (hall s hs r hr r' hr' sampleKey hkey hkey' (.inl hid) hlt) (not_le.mpr hread)

end FirstCommitter

end LiteDB.ConflictChecks
