import LiteDB.ShardLedger

namespace LiteDB.CommitOrder

open List SortedMaps ShardLedger ShardStore VersionKeys

section Lists

variable {α : Type} {ok : List α → α → Prop} {log : List α}

/-- Every element is allowed after the elements before it. -/
inductive Admitted (ok : List α → α → Prop) : List α → Prop
  | nil : Admitted ok []
  | concat {log : List α} {e : α} : Admitted ok log → ok log e → Admitted ok (log ++ [e])

theorem Admitted.initial {log' : List α} (h : Admitted ok log) (hp : log' <+: log) :
    Admitted ok log' := by
  induction h with
  | nil =>
    rw [prefix_nil.mp hp]
    exact .nil
  | concat h he ih =>
    rcases prefix_concat_iff.mp hp with rfl | hp
    · exact .concat h he
    · exact ih hp

theorem Admitted.last {e : α} (h : Admitted ok (log ++ [e])) : ok log e := by
  generalize heq : log ++ [e] = full at h
  cases h with
  | nil => simp at heq
  | concat h he =>
    obtain ⟨rfl, hlast⟩ := append_inj' heq rfl
    obtain rfl : e = _ := by simpa using hlast
    exact he

end Lists

variable {l : Ledger} {e : Entry} {readTs : Int} {log : List Entry}

def Touches : Command → Text → Prop
  | .write _ writes, key => key ∈ writes.map Prod.fst
  | .prepare _ _ writes, key => key ∈ writes.map Prod.fst
  | _, _ => False

instance (c : Command) (key : Text) : Decidable (Touches c key) := by
  induction c using Command.casesOn <;> unfold Touches <;> infer_instance

/-- What a conflict check of `key` against a snapshot establishes. -/
structure Clear (l : Ledger) (key : Text) (readTs : Int) (own : Text) : Prop where
  committed : ∀ r ∈ l.committed, r.Touches key → r.txnId ≠ some own → r.commitTs ≤ readTs
  intents : ∀ t r, (t, r) ∈ l.intents.entries → r.Touches key → t = own

/-- An entry that may follow the ledger. -/
def Admits (l : Ledger) (e : Entry) : Prop :=
  match e.command with
  | .write ts writes =>
      Storable ts writes ∧ e.readTs ≤ ts ∧
        ∀ key ∈ writes.map Prod.fst, Clear l key e.readTs []
  | .prepare txnId commitTs writes =>
      Storable commitTs writes ∧ e.readTs ≤ commitTs ∧ txnId ≠ [] ∧
        ∀ key ∈ writes.map Prod.fst, Clear l key e.readTs txnId
  | _ => True

/-- The later of two transactions has seen the earlier one. -/
def Precedes (r r' : Record) : Prop :=
  ∀ key, r.Touches key → r'.Touches key →
    (r.txnId = r'.txnId ∧ r.txnId ≠ none) ∨ r.commitTs ≤ r'.readTs

/-- Transactions that write a common key have seen one another in the order of the ledger,
and those that are prepared have seen all committed ones. -/
structure Ordered (l : Ledger) : Prop where
  sound : l.Sound
  order : l.committed.Pairwise Precedes
  stamped : ∀ r ∈ l.committed, r.readTs ≤ r.commitTs ∧ r.txnId ≠ some []
  staged : ∀ t x, (t, x) ∈ l.intents.entries →
    x.readTs ≤ x.commitTs ∧ x.txnId = some t ∧ t ≠ []
  pending : ∀ t x, (t, x) ∈ l.intents.entries → ∀ r ∈ l.committed, ∀ key, r.Touches key →
    x.Touches key → r.txnId ≠ some t → r.commitTs ≤ x.readTs
  exclusive : ∀ t x t' x', (t, x) ∈ l.intents.entries → (t', x') ∈ l.intents.entries →
    ∀ key, x.Touches key → x'.Touches key → t = t'

theorem ordered_empty : Ordered Ledger.empty where
  sound := ⟨by simp [Ledger.empty], by simp [Ledger.empty, Dict.empty]⟩
  order := List.Pairwise.nil
  stamped := by simp [Ledger.empty]
  staged := by simp [Ledger.empty, Dict.empty]
  pending := by simp [Ledger.empty]
  exclusive := by simp [Ledger.empty, Dict.empty]

theorem Admits.storable (h : Admits l e) : Command.Storable e.command := by
  obtain ⟨command, readTs⟩ := e
  cases command with
  | write => exact h.1
  | prepare => exact h.1
  | control | commit | abort => trivial

theorem Ordered.write (h : Ordered l) {ts : Int} {writes : Writes}
    (ha : Admits l ⟨.write ts writes, readTs⟩) : Ordered (l.apply ⟨.write ts writes, readTs⟩) := by
  obtain ⟨hstorable, hlt, hclear⟩ := ha
  have hnew : ∀ r, r ∈ (l.apply ⟨.write ts writes, readTs⟩).committed →
      r ∈ l.committed ∨ r = ⟨none, readTs, ts, writes⟩ := by
    intro r hr
    simpa [Ledger.apply, Ledger.commits] using hr
  refine ⟨h.sound.apply hstorable, ?_, ?_, h.staged, ?_, h.exclusive⟩
  · refine pairwise_append.mpr ⟨h.order, pairwise_singleton _ _, ?_⟩
    intro r hr r' hr' key hkey hkey'
    obtain rfl := mem_singleton.mp hr'
    exact .inr ((hclear key hkey').committed r hr hkey (h.stamped r hr).2)
  · intro r hr
    rcases hnew r hr with hr | rfl
    · exact h.stamped r hr
    · exact ⟨hlt, by simp⟩
  · intro t x hx r hr key hkey hxkey hne
    rcases hnew r hr with hr | rfl
    · exact h.pending t x hx r hr key hkey hxkey hne
    · -- a prepared transaction with the key would have stopped the write
      exact absurd ((hclear key hkey).intents t x hx hxkey) (h.staged t x hx).2.2

theorem Ordered.prepare (h : Ordered l) {commitTs : Int} {writes : Writes} {txnId : Text}
    (ha : Admits l ⟨.prepare txnId commitTs writes, readTs⟩) :
    Ordered (l.apply ⟨.prepare txnId commitTs writes, readTs⟩) := by
  obtain ⟨hstorable, hlt, hid, hclear⟩ := ha
  have hcommitted : (l.apply ⟨.prepare txnId commitTs writes, readTs⟩).committed = l.committed := by
    simp [Ledger.apply, Ledger.commits]
  have hintents : ∀ t x,
      (t, x) ∈ (l.apply ⟨.prepare txnId commitTs writes, readTs⟩).intents.entries →
      (t = txnId ∧ x = ⟨some txnId, readTs, commitTs, writes⟩) ∨
        (t ≠ txnId ∧ (t, x) ∈ l.intents.entries) := by
    intro t x hx
    have hset := Dict.mem_set.mp hx
    by_cases ht : t = txnId
    · rw [if_pos ht] at hset
      exact .inl ⟨ht, hset⟩
    · rw [if_neg ht] at hset
      exact .inr ⟨ht, hset⟩
  refine ⟨h.sound.apply hstorable, hcommitted ▸ h.order, hcommitted ▸ h.stamped, ?_, ?_, ?_⟩
  · intro t x hx
    rcases hintents t x hx with ⟨rfl, rfl⟩ | ⟨-, hx⟩
    · exact ⟨hlt, rfl, hid⟩
    · exact h.staged t x hx
  · rw [hcommitted]
    intro t x hx r hr key hkey hxkey hne
    rcases hintents t x hx with ⟨rfl, rfl⟩ | ⟨-, hx⟩
    · exact (hclear key hxkey).committed r hr hkey hne
    · exact h.pending t x hx r hr key hkey hxkey hne
  · intro t x t' x' hx hx' key hkey hkey'
    rcases hintents t x hx with ⟨ht, rfl⟩ | ⟨-, hold⟩
    · rcases hintents t' x' hx' with ⟨ht', rfl⟩ | ⟨-, hold'⟩
      · exact ht.trans ht'.symm
      · exact ht.trans ((hclear key hkey).intents t' x' hold' hkey').symm
    · rcases hintents t' x' hx' with ⟨ht', rfl⟩ | ⟨-, hold'⟩
      · exact ((hclear key hkey').intents t x hold hkey).trans ht'.symm
      · exact h.exclusive t x t' x' hold hold' key hkey hkey'

theorem Ordered.erase (h : Ordered l) (txnId : Text) :
    Ordered ⟨l.intents.erase txnId, l.committed⟩ where
  sound := ⟨h.sound.committed, fun t r hr => h.sound.intents t r (Dict.mem_erase.mp hr).1⟩
  order := h.order
  stamped := h.stamped
  staged t x hx := h.staged t x (Dict.mem_erase.mp hx).1
  pending t x hx := h.pending t x (Dict.mem_erase.mp hx).1
  exclusive t x t' x' hx hx' :=
    h.exclusive t x t' x' (Dict.mem_erase.mp hx).1 (Dict.mem_erase.mp hx').1

theorem Ordered.commit (h : Ordered l) {txnId : Text} {x : Record}
    (hx : l.intents.get? txnId = some x) : Ordered ⟨l.intents.erase txnId, l.committed ++ [x]⟩ := by
  have hmem := Dict.get?_eq_some_iff.mp hx
  obtain ⟨hlt, hid, hne⟩ := h.staged txnId x hmem
  have hnew : ∀ r ∈ l.committed ++ [x], r ∈ l.committed ∨ r = x := by simp
  have herase := h.erase txnId
  refine ⟨⟨fun r hr => ?_, herase.sound.intents⟩, ?_, fun r hr => ?_, herase.staged, ?_,
    herase.exclusive⟩
  · rcases hnew r hr with hr | rfl
    · exact h.sound.committed r hr
    · exact h.sound.intents txnId r hmem
  · refine pairwise_append.mpr ⟨h.order, pairwise_singleton _ _, ?_⟩
    intro r hr r' hr' key hkey hkey'
    obtain rfl := mem_singleton.mp hr'
    by_cases hsame : r.txnId = some txnId
    · exact .inl ⟨hsame.trans hid.symm, by simp [hsame]⟩
    · exact .inr (h.pending txnId r' hmem r hr key hkey hkey' hsame)
  · rcases hnew r hr with hr | rfl
    · exact h.stamped r hr
    · exact ⟨hlt, by simp [hid, hne]⟩
  · intro t y hy r hr key hkey hykey hother
    rcases hnew r hr with hr | rfl
    · exact herase.pending t y hy r hr key hkey hykey hother
    · obtain ⟨hy, hty⟩ := Dict.mem_erase.mp hy
      exact absurd (h.exclusive t y txnId r hy hmem key hykey hkey) hty

theorem Ordered.apply (h : Ordered l) (ha : Admits l e) : Ordered (l.apply e) := by
  obtain ⟨command, readTs⟩ := e
  cases command with
  | control => simpa [Ledger.apply, Ledger.commits, Ledger.intentsAfter] using h
  | write ts writes => exact h.write ha
  | prepare txnId commitTs writes => exact h.prepare ha
  | commit txnId =>
    cases hx : l.intents.get? txnId with
    | none => simpa [Ledger.apply, Ledger.commits, Ledger.intentsAfter, hx] using h.erase txnId
    | some x => simpa [Ledger.apply, Ledger.commits, Ledger.intentsAfter, hx] using h.commit hx
  | abort txnId =>
    simpa [Ledger.apply, Ledger.commits, Ledger.intentsAfter] using h.erase txnId

theorem Clear.apply {key own : Text} (h : Clear l key readTs own) (hl : Ordered l)
    (he : ¬Touches e.command key) : Clear (l.apply e) key readTs own := by
  obtain ⟨command, ts⟩ := e
  have herase : ∀ txnId, Clear ⟨l.intents.erase txnId, l.committed⟩ key readTs own := fun txnId =>
    ⟨h.committed, fun t r hr => h.intents t r (Dict.mem_erase.mp hr).1⟩
  cases command with
  | control => simpa [Ledger.apply, Ledger.commits, Ledger.intentsAfter] using h
  | write commitTs writes =>
    refine ⟨fun r hr hkey hown => ?_, h.intents⟩
    have hr : r ∈ l.committed ∨ r = ⟨none, ts, commitTs, writes⟩ := by
      simpa [Ledger.apply, Ledger.commits] using hr
    rcases hr with hr | rfl
    · exact h.committed r hr hkey hown
    · exact absurd hkey he
  | prepare txnId commitTs writes =>
    refine ⟨fun r hr => ?_, fun t r hr hkey => ?_⟩
    · have hr : r ∈ l.committed := by simpa [Ledger.apply, Ledger.commits] using hr
      exact h.committed r hr
    · have hset := Dict.mem_set.mp hr
      split at hset
      · subst hset
        exact absurd hkey he
      · exact h.intents t r hset hkey
  | commit txnId =>
    cases hx : l.intents.get? txnId with
    | none => simpa [Ledger.apply, Ledger.commits, Ledger.intentsAfter, hx] using herase txnId
    | some x =>
      have hmem := Dict.get?_eq_some_iff.mp hx
      refine ⟨fun r hr hkey hown => ?_, (herase txnId).intents⟩
      have hr : r ∈ l.committed ∨ r = x := by
        simpa [Ledger.apply, Ledger.commits, hx] using hr
      rcases hr with hr | rfl
      · exact h.committed r hr hkey hown
      · have hself := h.intents txnId r hmem hkey
        exact absurd (by rw [(hl.staged txnId r hmem).2.1, hself]) hown
  | abort txnId => simpa [Ledger.apply, Ledger.commits, Ledger.intentsAfter] using herase txnId

/-- Every entry of the log was admitted by the state that the entries before it
lead to. -/
def Valid (log : List Entry) : Prop :=
  Admitted (fun before e => Admits (Ledger.replay before) e) log

theorem Valid.ordered (h : Valid log) : Ordered (Ledger.replay log) := by
  induction h with
  | nil => exact ordered_empty
  | concat _ he ih =>
    rw [Ledger.replay_concat]
    exact ih.apply he

theorem Valid.represents (h : Valid log) :
    Represents (log.foldl (fun s e => s.apply e.command) create) (Ledger.replay log) := by
  induction h with
  | nil => exact represents_create
  | concat hlog he ih =>
    rw [Ledger.replay_concat, foldl_concat]
    exact ih.apply (Valid.ordered hlog).sound he.storable

theorem Clear.replay {key own : Text} {before after : List Entry}
    (hvalid : Valid (before ++ after)) (h : Clear (Ledger.replay before) key readTs own)
    (hafter : ∀ e ∈ after, ¬Touches e.command key) :
    Clear (Ledger.replay (before ++ after)) key readTs own := by
  induction after using List.reverseRecOn with
  | nil => simpa using h
  | append_singleton after e ih =>
    rw [← append_assoc] at hvalid ⊢
    have hinitial : Valid (before ++ after) := hvalid.initial (prefix_append _ _)
    rw [Ledger.replay_concat]
    exact (ih hinitial fun e' he' => hafter e' (by simp [he'])).apply hinitial.ordered
      (hafter e (by simp))

/-- Of two transactions with a common key the one with the larger commit timestamp
has seen the other. -/
theorem Ordered.seen (h : Ordered l) {r r' : Record} (hr : r ∈ l.committed)
    (hr' : r' ∈ l.committed) {key : Text} (hkey : r.Touches key) (hkey' : r'.Touches key)
    (hne : r.txnId = none ∨ r.txnId ≠ r'.txnId) (hlt : r.commitTs < r'.commitTs) :
    r.commitTs ≤ r'.readTs := by
  have hother : ¬(r.txnId = r'.txnId ∧ r.txnId ≠ none) := by
    rintro ⟨hsame, hsome⟩
    exact hne.elim hsome fun hne => hne hsame
  obtain ⟨i, hi, rfl⟩ := mem_iff_getElem.mp hr
  obtain ⟨j, hj, rfl⟩ := mem_iff_getElem.mp hr'
  have horder := pairwise_iff_getElem.mp h.order
  rcases lt_trichotomy i j with hij | rfl | hji
  · exact (horder i j hi hj hij key hkey hkey').resolve_left hother
  · exact absurd hlt (lt_irrefl _)
  · -- the later one of the log would have a commit timestamp below its snapshot
    have hle := (horder j i hj hi hji key hkey' hkey).resolve_left fun hsame =>
      hother ⟨hsame.1.symm, hsame.1 ▸ hsame.2⟩
    exact absurd (hle.trans (h.stamped _ hr).1) (not_le.mpr hlt)

section Increasing

/-- The command gives `key` a version at `ts`, now or when it is committed. -/
def WritesAt : Command → Int → Text → Prop
  | .write ts' writes, ts, key => ts' = ts ∧ key ∈ writes.map Prod.fst
  | .prepare _ commitTs writes, ts, key => commitTs = ts ∧ key ∈ writes.map Prod.fst
  | _, _, _ => False

instance (c : Command) (ts : Int) (key : Text) : Decidable (WritesAt c ts key) := by
  induction c using Command.casesOn <;> unfold WritesAt <;> infer_instance

/-- The commit timestamp is above the snapshot, or no other version has it. -/
def Unused (log : List Entry) (readTs ts : Int) (writes : Writes) : Prop :=
  readTs < ts ∨ ∀ e ∈ log, ∀ key ∈ writes.map Prod.fst, ¬WritesAt e.command ts key

instance (log : List Entry) (readTs ts : Int) (writes : Writes) :
    Decidable (Unused log readTs ts writes) :=
  inferInstanceAs (Decidable (_ ∨ _))

/-- An entry with a new timestamp, of a transaction that has not been committed. -/
def Fresh (log : List Entry) (e : Entry) : Prop :=
  match e.command with
  | .write ts writes => Unused log e.readTs ts writes
  | .prepare txnId commitTs writes =>
      Unused log e.readTs commitTs writes ∧ .commit txnId ∉ log.map Entry.command
  | _ => True

instance (log : List Entry) (e : Entry) : Decidable (Fresh log e) := by
  unfold Fresh
  split <;> infer_instance

/-- Every version of a key is above the versions that were applied before it. -/
structure Increasing (l : Ledger) : Prop where
  order : l.committed.Pairwise fun r r' =>
    ∀ key, r.Touches key → r'.Touches key → r.commitTs < r'.commitTs
  pending : ∀ t x, (t, x) ∈ l.intents.entries → ∀ r ∈ l.committed, ∀ key, r.Touches key →
    x.Touches key → r.commitTs < x.commitTs

/-- The entry from which a transaction comes. -/
def Origin (log : List Entry) (r : Record) : Prop :=
  ∃ e ∈ log, ∀ key, r.Touches key → WritesAt e.command r.commitTs key

variable {r : Record}

theorem Origin.concat (h : Origin log r) : Origin (log ++ [e]) r := by
  obtain ⟨e', he', hkeys⟩ := h
  exact ⟨e', by simp [he'], hkeys⟩

theorem Origin.last (h : ∀ key, r.Touches key → WritesAt e.command r.commitTs key) :
    Origin (log ++ [e]) r :=
  ⟨e, by simp, h⟩

theorem origin_of_mem_commits
    (hintents : ∀ t x, (t, x) ∈ l.intents.entries → Origin log x ∧ x.txnId = some t)
    (hr : r ∈ l.commits e) :
    Origin (log ++ [e]) r ∧ ∀ t, r.txnId = some t → .commit t ∈ (log ++ [e]).map Entry.command := by
  obtain ⟨command, readTs⟩ := e
  cases command with
  | write ts writes =>
    obtain rfl : r = _ := by simpa [Ledger.commits] using hr
    exact ⟨Origin.last fun key hkey => ⟨rfl, hkey⟩, by simp⟩
  | commit txnId =>
    have hget : l.intents.get? txnId = some r := by simpa [Ledger.commits] using hr
    obtain ⟨horigin, hid⟩ := hintents txnId r (Dict.get?_eq_some_iff.mp hget)
    refine ⟨horigin.concat, fun t ht => ?_⟩
    obtain rfl : txnId = t := Option.some.inj (hid.symm.trans ht)
    simp
  | control | prepare | abort => simp [Ledger.commits] at hr

theorem origin_of_mem_intentsAfter {t : Text} {x : Record}
    (hintents : ∀ t x, (t, x) ∈ l.intents.entries → Origin log x ∧ x.txnId = some t)
    (hx : (t, x) ∈ (l.intentsAfter e).entries) : Origin (log ++ [e]) x ∧ x.txnId = some t := by
  have hold : (t, x) ∈ l.intents.entries → Origin (log ++ [e]) x ∧ x.txnId = some t :=
    fun hx => ⟨(hintents t x hx).1.concat, (hintents t x hx).2⟩
  obtain ⟨command, readTs⟩ := e
  cases command with
  | prepare txnId commitTs writes =>
    have hset := Dict.mem_set.mp hx
    split at hset
    · rename_i ht
      subst ht hset
      exact ⟨Origin.last fun key hkey => ⟨rfl, hkey⟩, rfl⟩
    · exact hold hset
  | commit | abort => exact hold (Dict.mem_erase.mp hx).1
  | control | write => exact hold hx

theorem origin (log : List Entry) :
    (∀ r ∈ (Ledger.replay log).committed, Origin log r ∧
      ∀ t, r.txnId = some t → .commit t ∈ log.map Entry.command) ∧
    ∀ t x, (t, x) ∈ (Ledger.replay log).intents.entries → Origin log x ∧ x.txnId = some t := by
  induction log using List.reverseRecOn with
  | nil => simp [Ledger.replay, Ledger.empty, Dict.empty]
  | append_singleton log e ih =>
    rw [Ledger.replay_concat]
    refine ⟨fun r hr => ?_, fun t x hx => origin_of_mem_intentsAfter ih.2 hx⟩
    rcases mem_append.mp hr with hr | hr
    · obtain ⟨horigin, hcommit⟩ := ih.1 r hr
      exact ⟨horigin.concat, fun t ht => by simpa using .inl (by simpa using hcommit t ht)⟩
    · exact origin_of_mem_commits ih.2 hr

theorem lt_of_unused {ts : Int} {writes : Writes} {own : Text} (hle : readTs ≤ ts)
    (hclear : ∀ key ∈ writes.map Prod.fst, Clear (Ledger.replay log) key readTs own)
    (hnew : Unused log readTs ts writes) (hr : r ∈ (Ledger.replay log).committed)
    (hown : r.txnId ≠ some own) {key : Text} (hkey : r.Touches key)
    (hkey' : key ∈ writes.map Prod.fst) : r.commitTs < ts := by
  obtain ⟨e, he, hwrites⟩ := ((origin log).1 r hr).1
  have hseen : r.commitTs ≤ readTs := (hclear key hkey').committed r hr hkey hown
  rcases hnew with hlt | hother
  · omega
  · refine lt_of_le_of_ne (hseen.trans hle) fun heq => ?_
    exact hother e he key hkey' (heq ▸ hwrites key hkey)

theorem increasing_empty : Increasing Ledger.empty :=
  ⟨List.Pairwise.nil, by simp [Ledger.empty]⟩

theorem Increasing.concat (h : Increasing l) {intents : Dict Text Record}
    (hr : ∀ r' ∈ l.committed, ∀ key, r'.Touches key → r.Touches key → r'.commitTs < r.commitTs)
    (hintents : ∀ t x, (t, x) ∈ intents.entries → (t, x) ∈ l.intents.entries ∧
      ∀ key, r.Touches key → ¬x.Touches key) :
    Increasing ⟨intents, l.committed ++ [r]⟩ := by
  refine ⟨pairwise_append.mpr ⟨h.order, pairwise_singleton _ _, ?_⟩, ?_⟩
  · intro r' hr' r'' hr''
    rw [mem_singleton.mp hr'']
    exact hr r' hr'
  · intro t x hx r' hr' key hkey hxkey
    obtain ⟨hx, hapart⟩ := hintents t x hx
    rcases mem_append.mp hr' with hr' | hr'
    · exact h.pending t x hx r' hr' key hkey hxkey
    · rw [mem_singleton.mp hr'] at hkey
      exact absurd hxkey (hapart key hkey)

theorem Increasing.erase (h : Increasing l) (txnId : Text) :
    Increasing ⟨l.intents.erase txnId, l.committed⟩ :=
  ⟨h.order, fun t x hx => h.pending t x (Dict.mem_erase.mp hx).1⟩

theorem Increasing.apply (h : Increasing (Ledger.replay log)) (hl : Ordered (Ledger.replay log))
    (ha : Admits (Ledger.replay log) e) (he : Fresh log e) :
    Increasing ((Ledger.replay log).apply e) := by
  obtain ⟨command, readTs⟩ := e
  cases command with
  | control => simpa [Ledger.apply, Ledger.commits, Ledger.intentsAfter] using h
  | write ts writes =>
    obtain ⟨-, hle, hclear⟩ := ha
    refine h.concat (fun r hr key hkey hkey' => ?_) fun t x hx => ⟨hx, fun key hkey hxkey => ?_⟩
    · exact lt_of_unused hle hclear he hr (hl.stamped r hr).2 hkey hkey'
    · exact (hl.staged t x hx).2.2 ((hclear key hkey).intents t x hx hxkey)
  | prepare txnId commitTs writes =>
    obtain ⟨-, hle, -, hclear⟩ := ha
    obtain ⟨hnew, hcommit⟩ := he
    refine ⟨by simpa [Ledger.apply, Ledger.commits] using h.order, fun t x hx r hr => ?_⟩
    replace hr : r ∈ (Ledger.replay log).committed := by
      simpa [Ledger.apply, Ledger.commits] using hr
    have hset := Dict.mem_set.mp hx
    split at hset
    · subst hset
      intro key hkey hxkey
      exact lt_of_unused hle hclear hnew hr
        (fun hid => hcommit (((origin log).1 r hr).2 txnId hid)) hkey hxkey
    · exact h.pending t x hset r hr
  | commit txnId =>
    cases hx : (Ledger.replay log).intents.get? txnId with
    | none => simpa [Ledger.apply, Ledger.commits, Ledger.intentsAfter, hx] using h.erase txnId
    | some x =>
      have hmem := Dict.get?_eq_some_iff.mp hx
      have hnext : Increasing ⟨(Ledger.replay log).intents.erase txnId,
          (Ledger.replay log).committed ++ [x]⟩ := by
        refine h.concat (h.pending txnId x hmem) fun t y hy => ?_
        obtain ⟨hy, hne⟩ := Dict.mem_erase.mp hy
        exact ⟨hy, fun key hkey hykey =>
          hne (hl.exclusive t y txnId x hy hmem key hykey hkey)⟩
      simpa [Ledger.apply, Ledger.commits, Ledger.intentsAfter, hx] using hnext
  | abort txnId =>
    simpa [Ledger.apply, Ledger.commits, Ledger.intentsAfter] using h.erase txnId

theorem Valid.increasing (h : Valid log) (hfresh : Admitted Fresh log) :
    Increasing (Ledger.replay log) := by
  induction h with
  | nil => exact increasing_empty
  | concat hlog he ih =>
    rw [Ledger.replay_concat]
    exact (ih (hfresh.initial (prefix_append _ _))).apply (Valid.ordered hlog) he hfresh.last

/-- The last version of a key, in the order of the log. -/
def lastVersion (vs : List Version) (key : Text) : Option Version :=
  (vs.filter fun v => v.key = key).getLast?

theorem snapshot_eq_lastVersion {vs : List Version} {key : Text}
    (hvs : vs.Pairwise fun v w => v.key = w.key → v.ts ≤ w.ts)
    (hle : ∀ v ∈ vs, v.key = key → v.ts ≤ readTs) :
    snapshot vs key readTs = lastVersion vs key := by
  induction vs using List.reverseRecOn with
  | nil => rfl
  | append_singleton vs v ih =>
    obtain ⟨hvs, -, hlast⟩ := pairwise_append.mp hvs
    rw [snapshot_concat, ih hvs fun w hw => hle w (by simp [hw]), newer, lastVersion, lastVersion,
      filter_append]
    by_cases hkey : v.key = key
    · rw [if_pos]
      · simp [hkey]
      · refine ⟨hkey, hle v (by simp) hkey, fun w hw => ?_⟩
        have hw := mem_of_getLast? hw
        simp only [mem_filter, decide_eq_true_eq] at hw
        exact hlast w hw.1 v (by simp) (hw.2.trans hkey.symm)
    · simp [hkey]

theorem Increasing.versions (h : Increasing l) :
    l.versions.Pairwise fun v w => v.key = w.key → v.ts ≤ w.ts := by
  have hts : ∀ r : Record, ∀ v ∈ r.versions, v.ts = r.commitTs ∧ r.Touches v.key := by
    intro r v hv
    obtain ⟨w, hw, rfl⟩ := mem_map.mp hv
    exact ⟨rfl, mem_map.mpr ⟨w, hw, rfl⟩⟩
  rw [Ledger.versions, pairwise_flatMap]
  refine ⟨fun r _ => pairwise_of_forall_mem_list fun v hv w hw _ => ?_,
    h.order.imp fun {r r'} hlt v hv w hw hkey => ?_⟩
  · exact ((hts r v hv).1.trans (hts r w hw).1.symm).le
  · rw [(hts r v hv).1, (hts r' w hw).1]
    exact (hlt v.key (hts r v hv).2 (hkey ▸ (hts r' w hw).2)).le

end Increasing

end LiteDB.CommitOrder
