import LiteDB.ByteFields

/-!
Blocks of entries with a sparse index: the entries follow one another in a file, every
few entries the index has the position of one, and a search starts at the last indexed
entry that is not after the key it looks for.
-/

namespace LiteDB.IndexedBlocks

open Framing List

section Walks

variable {A R : Type} (read : Nat → Option (Option (A × Nat))) (stop : Nat)
variable (visit : R → A → R × Bool)

/-- Reads entry after entry up to a position. A visit tells whether to go on, a file that
ends within an entry ends the walk, and the entry that cannot be decoded is an error.
Each entry takes a byte or more, so `stop` rounds are enough. -/
def walk : Nat → Nat → R → Option R
  | 0, _, acc => some acc
  | fuel + 1, pos, acc =>
      if pos < stop then
        match read pos with
        | none => none
        | some none => some acc
        | some (some (a, next)) =>
            let visited := visit acc a
            if visited.2 then walk fuel next visited.1 else some visited.1
      else some acc

def visited : List A → R → R
  | [], acc => acc
  | a :: rest, acc =>
      if (visit acc a).2 then visited rest (visit acc a).1 else (visit acc a).1

/-- From a position to `stop`, the file has these entries. -/
def Block : Nat → List A → Prop
  | pos, [] => stop ≤ pos
  | pos, a :: rest => pos < stop ∧ ∃ next, read pos = some (some (a, next)) ∧ Block next rest

variable {read stop visit}

theorem walk_of_block {items : List A} {pos fuel : Nat} {acc : R} (h : Block read stop pos items)
    (hfuel : items.length ≤ fuel) :
    walk read stop visit fuel pos acc = some (visited visit items acc) := by
  induction items generalizing pos fuel acc with
  | nil =>
    cases fuel with
    | zero => rfl
    | succ fuel => exact if_neg (Nat.not_lt.mpr h)
  | cons a rest ih =>
    obtain ⟨hpos, next, hread, hrest⟩ := h
    cases fuel with
    | zero => exact absurd hfuel (by simp)
    | succ fuel =>
      rw [walk, if_pos hpos, hread, visited]
      cases hgo : (visit acc a).2 with
      | true => simpa [hgo] using ih hrest (Nat.le_of_succ_le_succ hfuel)
      | false => simp [hgo]

end Walks

section Layouts

variable {A K : Type} (enc : A → Bytes) (key : A → K) (every : Nat)

/-- Where an entry stands in a file, it is read with the position after it. -/
def Readable (file : Bytes) (read : Nat → Option (Option (A × Nat))) (a : A) : Prop :=
  ∀ before after, file = before ++ (enc a ++ after) →
    read before.length = some (some (a, before.length + (enc a).length))

/-- The index of a list of entries of which the first has the number `i` and stands at
`pos`. -/
def checkpoints : Nat → Nat → List A → List (K × Nat)
  | _, _, [] => []
  | i, pos, a :: rest =>
      let later := checkpoints (i + 1) (pos + (enc a).length) rest
      if i % every = 0 then (key a, pos) :: later else later

variable {enc key every} {file after : Bytes} {read : Nat → Option (Option (A × Nat))}
variable {items : List A}

theorem length_le_flatMap (henc : ∀ a, enc a ≠ []) : items.length ≤ (items.flatMap enc).length := by
  induction items with
  | nil => rfl
  | cons a rest ih =>
    have hone := length_pos_of_ne_nil (henc a)
    simp only [length_cons, flatMap_cons, length_append]
    omega

theorem block_of_append (henc : ∀ a, enc a ≠ []) (hread : ∀ a ∈ items, Readable enc file read a)
    (hfile : file = items.flatMap enc ++ after) {before rest : List A}
    (hitems : items = before ++ rest) :
    Block read (items.flatMap enc).length (before.flatMap enc).length rest := by
  induction rest generalizing before with
  | nil => simp [Block, hitems]
  | cons a rest ih =>
    have hone := length_pos_of_ne_nil (henc a)
    have hsplit : items = (before ++ [a]) ++ rest := by simp [hitems]
    have hnext : ((before ++ [a]).flatMap enc).length =
        (before.flatMap enc).length + (enc a).length := by simp
    refine ⟨?_, _, hread a (by simp [hitems]) _ (rest.flatMap enc ++ after) ?_, ?_⟩
    · simp only [hitems, flatMap_append, flatMap_cons, length_append]
      omega
    · simp [hfile, hitems]
    · rw [← hnext]
      exact ih hsplit

theorem checkpoints_concat (a : A) (i pos : Nat) :
    checkpoints enc key every i pos (items ++ [a]) = checkpoints enc key every i pos items ++
      if (i + items.length) % every = 0 then [(key a, pos + (items.flatMap enc).length)]
      else [] := by
  induction items generalizing i pos with
  | nil => simp [checkpoints]
  | cons b rest ih =>
    have hi : i + 1 + rest.length = i + (b :: rest).length := by
      simp only [length_cons]
      omega
    have hpos : pos + (enc b).length + (rest.flatMap enc).length =
        pos + ((b :: rest).flatMap enc).length := by
      simp only [flatMap_cons, length_append]
      omega
    simp only [cons_append, checkpoints, ih, hi, hpos]
    split <;> rfl

theorem of_mem_checkpoints {i pos offset : Nat} {k : K}
    (h : (k, offset) ∈ checkpoints enc key every i pos items) :
    ∃ before a rest, items = before ++ a :: rest ∧ key a = k ∧
      offset = pos + (before.flatMap enc).length := by
  induction items generalizing i pos with
  | nil => exact absurd h (by simp [checkpoints])
  | cons b rest ih =>
    have hlater : (k, offset) ∈ checkpoints enc key every (i + 1) (pos + (enc b).length) rest →
        ∃ before a rest', b :: rest = before ++ a :: rest' ∧ key a = k ∧
          offset = pos + (before.flatMap enc).length := by
      intro h'
      obtain ⟨before, a, rest', hrest, hkey, hoffset⟩ := ih h'
      refine ⟨b :: before, a, rest', by rw [hrest, cons_append], hkey, ?_⟩
      rw [hoffset, flatMap_cons, length_append, Nat.add_assoc]
    rw [checkpoints] at h
    split at h
    · rcases mem_cons.mp h with heq | h'
      · obtain ⟨rfl, rfl⟩ := Prod.mk.inj heq
        exact ⟨[], b, rest, rfl, rfl, rfl⟩
      · exact hlater h'
    · exact hlater h

end Layouts

section Searches

variable {K V : Type} [LinearOrder K]

/-- The position of the last indexed entry before the first whose key is larger. -/
def startOffset {O : Type} (k : K) : List (K × O) → O → O
  | [], start => start
  | (indexed, offset) :: rest, start =>
      if indexed ≤ k then startOffset k rest offset else start

/-- A visit that looks for the value of a key and stops where it cannot come any more. -/
def seek (k : K) (found : Option V) (entry : K × V) : Option V × Bool :=
  if entry.1 = k then (some entry.2, false)
  else if k < entry.1 then (found, false)
  else (found, true)

variable {k : K} {v : V} {items : List (K × V)} {O A : Type}

theorem startOffset_cases (index : List (K × O)) (start : O) :
    startOffset k index start = start ∨
      ∃ indexed ≤ k, (indexed, startOffset k index start) ∈ index := by
  induction index generalizing start with
  | nil => exact .inl rfl
  | cons first rest ih =>
    obtain ⟨indexed, offset⟩ := first
    rw [startOffset]
    split_ifs with hle
    · rcases ih offset with heq | ⟨later, hlater, hmem⟩
      · exact .inr ⟨indexed, hle, by rw [heq]; exact mem_cons_self⟩
      · exact .inr ⟨later, hlater, mem_cons_of_mem _ hmem⟩
    · exact .inl rfl

theorem visited_seek_of_mem (hsorted : items.Pairwise fun a b => a.1 < b.1) (h : (k, v) ∈ items)
    (found : Option V) : visited (seek k) items found = some v := by
  induction items with
  | nil => exact absurd h (by simp)
  | cons a rest ih =>
    obtain ⟨hfirst, hrest⟩ := pairwise_cons.mp hsorted
    rcases mem_cons.mp h with rfl | hmem
    · simp [visited, seek]
    · have hlt : a.1 < k := hfirst _ hmem
      simpa [visited, seek, hlt.ne, hlt.not_gt] using ih hrest hmem

theorem visited_seek_of_not_mem (h : ∀ entry ∈ items, entry.1 ≠ k) (found : Option V) :
    visited (seek k) items found = found := by
  induction items with
  | nil => rfl
  | cons a rest ih =>
    obtain ⟨hne, hrest⟩ := forall_mem_cons.mp h
    by_cases hlt : k < a.1
    · simp [visited, seek, hne, hlt]
    · simpa [visited, seek, hne, hlt] using ih hrest

/-- A visit that collects the entries with a property, and that stops only where no later
entry has it. -/
theorem visited_eq_filter {visit : List A → A → List A × Bool} {keep : A → Bool} {items : List A}
    (hacc : ∀ acc a, (visit acc a).1 = if keep a then acc ++ [a] else acc)
    (hstop : items.Pairwise fun a b => ∀ acc, (visit acc a).2 = false → keep b = false)
    (acc : List A) : visited visit items acc = acc ++ items.filter keep := by
  induction items generalizing acc with
  | nil => simp [visited]
  | cons a rest ih =>
    obtain ⟨hfirst, hrest⟩ := pairwise_cons.mp hstop
    have hcons : (visit acc a).1 ++ rest.filter keep = acc ++ (a :: rest).filter keep := by
      rw [hacc]
      cases hkeep : keep a <;> simp [hkeep]
    rw [visited, ← hcons]
    cases hgo : (visit acc a).2 with
    | true => exact ih hrest _
    | false =>
      have hnone : rest.filter keep = [] :=
        filter_eq_nil_iff.mpr fun b hb => by simp [hfirst b hb acc hgo]
      simp [hnone]

theorem visited_all (items acc : List A) :
    visited (fun acc a => (acc ++ [a], true)) items acc = acc ++ items := by
  induction items generalizing acc with
  | nil => simp [visited]
  | cons a rest ih => simp [visited, ih]

end Searches

section StoredTables

variable {K V : Type} [LinearOrder K]

/-- The file starts with the entries of a table, in the order of their keys, and they can
be read where they stand. -/
structure Stored (enc : K × V → Bytes) (file : Bytes)
    (read : Nat → Option (Option ((K × V) × Nat))) (items : List (K × V)) : Prop where
  sorted : items.Pairwise fun a b => a.1 < b.1
  nonempty : ∀ a, enc a ≠ []
  readable : ∀ a ∈ items, Readable enc file read a
  layout : ∃ after, file = items.flatMap enc ++ after

variable {enc : K × V → Bytes} {every : Nat} {file : Bytes} {items : List (K × V)}
variable {read : Nat → Option (Option ((K × V) × Nat))} {k : K} {v : V}

/-- Three ways to read a table that answer as the list of its entries does. -/
structure Answers (iterAll : Option (List (K × V))) (get : K → Option (Option V))
    (scan : K → K → Option (List (K × V))) (items : List (K × V)) : Prop where
  iterAll_eq : iterAll = some items
  get_of_mem : ∀ k v, (k, v) ∈ items → get k = some (some v)
  get_of_not_mem : ∀ k, k ∉ items.map Prod.fst → get k = some none
  scan_eq : ∀ lo hi, scan lo hi =
    some (items.filter fun item => decide (lo ≤ item.1) && decide (item.1 ≤ hi))

namespace Stored

variable (h : Stored enc file read items)

include h

theorem walk_suffix {before rest : List (K × V)}
    (hitems : items = before ++ rest) {R : Type} (visit : R → K × V → R × Bool) (acc : R) :
    walk read (items.flatMap enc).length visit (items.flatMap enc).length
      (before.flatMap enc).length acc = some (visited visit rest acc) := by
  obtain ⟨after, hfile⟩ := h.layout
  have hlength : rest.length ≤ (items.flatMap enc).length :=
    calc rest.length ≤ items.length := by rw [hitems, length_append]; omega
      _ ≤ _ := length_le_flatMap h.nonempty
  exact walk_of_block (block_of_append h.nonempty h.readable hfile hitems) hlength

/-- The walk that starts where the index says for a key leaves out only smaller keys. -/
theorem exists_walk (every : Nat) (k : K) :
    ∃ before rest, items = before ++ rest ∧ (∀ a ∈ before, a.1 < k) ∧
      ∀ {R : Type} (visit : R → K × V → R × Bool) (acc : R),
        walk read (items.flatMap enc).length visit (items.flatMap enc).length
            (startOffset k (checkpoints enc Prod.fst every 0 0 items) 0) acc =
          some (visited visit rest acc) := by
  rcases startOffset_cases (k := k) (checkpoints enc Prod.fst every 0 0 items) 0 with
    h0 | ⟨indexed, hle, hmem⟩
  · refine ⟨[], items, rfl, by simp, fun visit acc => ?_⟩
    rw [h0]
    exact h.walk_suffix (nil_append items).symm visit acc
  · obtain ⟨before, a, rest, hitems, rfl, hoffset⟩ := of_mem_checkpoints hmem
    refine ⟨before, a :: rest, hitems, fun b hb => ?_, fun visit acc => ?_⟩
    · have hsorted := h.sorted
      rw [hitems] at hsorted
      exact ((pairwise_append.mp hsorted).2.2 b hb a mem_cons_self).trans_le hle
    · rw [hoffset, Nat.zero_add]
      exact h.walk_suffix hitems visit acc

theorem walk_seek_of_mem (hmem : (k, v) ∈ items) :
    walk read (items.flatMap enc).length (seek k) (items.flatMap enc).length
        (startOffset k (checkpoints enc Prod.fst every 0 0 items) 0) none = some (some v) := by
  obtain ⟨before, rest, hitems, hsmaller, hwalk⟩ := h.exists_walk every k
  have hsorted := h.sorted
  rw [hitems] at hmem hsorted
  have hrest : (k, v) ∈ rest :=
    (mem_append.mp hmem).resolve_left fun h => absurd (hsmaller _ h) (lt_irrefl k)
  rw [hwalk, visited_seek_of_mem (pairwise_append.mp hsorted).2.1 hrest]

theorem walk_seek_of_not_mem (hnone : ∀ a ∈ items, a.1 ≠ k) :
    walk read (items.flatMap enc).length (seek k) (items.flatMap enc).length
        (startOffset k (checkpoints enc Prod.fst every 0 0 items) 0) none = some none := by
  obtain ⟨before, rest, hitems, -, hwalk⟩ := h.exists_walk every k
  have hrest : ∀ a ∈ rest, a.1 ≠ k := fun a ha => hnone a (by rw [hitems]; simp [ha])
  rw [hwalk, visited_seek_of_not_mem hrest]

/-- A walk that collects the entries with a property that no entry below `lo` has. -/
theorem walk_eq_filter {lo : K} {keep : K × V → Bool}
    {visit : List (K × V) → K × V → List (K × V) × Bool}
    (hacc : ∀ acc a, (visit acc a).1 = if keep a then acc ++ [a] else acc)
    (hstop : ∀ a b acc, a.1 < b.1 → (visit acc a).2 = false → keep b = false)
    (hbelow : ∀ a, a.1 < lo → keep a = false) :
    walk read (items.flatMap enc).length visit (items.flatMap enc).length
        (startOffset lo (checkpoints enc Prod.fst every 0 0 items) 0) [] =
      some (items.filter keep) := by
  obtain ⟨before, rest, hitems, hsmaller, hwalk⟩ := h.exists_walk every lo
  have hbefore : before.filter keep = [] :=
    filter_eq_nil_iff.mpr fun a ha => by simp [hbelow a (hsmaller a ha)]
  have hrest : rest.Pairwise fun a b => ∀ acc, (visit acc a).2 = false → keep b = false := by
    have hsorted := h.sorted
    rw [hitems] at hsorted
    exact (pairwise_append.mp hsorted).2.1.imp fun hlt acc => hstop _ _ acc hlt
  rw [hwalk, visited_eq_filter hacc hrest, hitems, filter_append, hbefore]

theorem walk_all : walk read (items.flatMap enc).length (fun acc a => (acc ++ [a], true))
        (items.flatMap enc).length 0 [] = some items := by
  have hwalk := h.walk_suffix (nil_append items).symm (fun acc a => (acc ++ [a], true)) []
  rw [visited_all] at hwalk
  exact hwalk

end Stored

end StoredTables

end LiteDB.IndexedBlocks
