import LiteDB.BTreeSpec
import LiteDB.FlushInterleavings
import Mathlib.Data.Finset.Card

namespace LiteDB.BTreeMap

open Bisection BTree BTreeSequences BTreeSpec
open FlushInterleavings (lastValue lastValue_concat)
open List hiding after
open LsmEngine (WriteOp)
open Option Runs SortedMaps
open VersionKeys (Text)
open SortedMap

def items (t : BPlusTree) : List Item := seq t.height t.root

/-- What holds of every tree that the operations make. -/
structure Formed (t : BPlusTree) : Prop where
  order : 2 ≤ t.order
  shaped : Shaped t.height t.root
  chained : Chained t.fresh (items t)
  size : t.size = (entries (items t)).length

/-- The tree is in order and holds the entries of the map. -/
structure Represents (t : BPlusTree) (m : SortedMap Text Text) : Prop extends Formed t where
  sorted : Sorted (items t)
  entries_eq : entries (items t) = m.entries

theorem represents_create {order : Nat} (horder : 2 ≤ order) :
    Represents (.create order) .empty := by
  have hchained : Chained 1 [.leaf ⟨0, [], [], none⟩] :=
    ⟨⟨rfl, trivial⟩, nodup_singleton 0, by simp [ids]⟩
  exact ⟨⟨horder, rfl, hchained, rfl⟩, List.Pairwise.nil, rfl⟩

variable {t : BPlusTree} {m : SortedMap Text Text} {key : Text}

/-- A key that is not in the leaf of its search is nowhere in the tree. -/
theorem not_mem_of_path {h : Nat} {node : Node h} {A B : List Item} {l : Leaf}
    (hpath : Path key h node A l B) (hl : Shaped 0 l) (hsorted : Sorted (seq h node))
    (hfind : l.find key = none) : key ∉ (entries (seq h node)).map Prod.fst := by
  obtain ⟨id, next, es, rfl⟩ := exists_leafOf hl
  have haround := hpath.around hsorted
  have hpairs := pairwise_entries hsorted
  rw [hpath.seq_eq, entries_append, entries_leaf, entries_leafOf] at hpairs ⊢
  intro hmem
  obtain ⟨⟨k, value⟩, he, rfl⟩ := mem_map.mp hmem
  rcases mem_append.mp he with he | he
  · exact lt_irrefl k (haround.left (.entry k value) (mem_marks_iff.mpr he))
  · rcases mem_append.mp he with he | he
    · exact not_mem_of_find (pairwise_append.mp (pairwise_append.mp hpairs).2.1).1 hfind
        (mem_map_of_mem he)
    · exact lt_irrefl k (haround.right (.entry k value) (mem_marks_iff.mpr he))

theorem Represents.get?_eq_none (h : Represents t m)
    (habsent : key ∉ (entries (items t)).map Prod.fst) : m.get? key = none := by
  rw [h.entries_eq] at habsent
  exact get?_eq_none_iff.mpr fun value hmem => habsent (mem_map_of_mem hmem)

theorem Represents.get (h : Represents t m) (key : Text) : t.get key = some (m.get? key) := by
  obtain ⟨A, l, B, hpath, hl⟩ := exists_path key h.shaped
  cases hfind : l.find key with
  | some idx =>
    obtain ⟨id, next, es, rfl⟩ := exists_leafOf hl
    obtain ⟨-, X, value, Y, rfl, rfl⟩ := exists_of_find hfind
    have hvalue : (leafOf id next (X ++ (key, value) :: Y)).values[X.length]? = some value := by
      simp [leafOf]
    have hget : m.get? key = some value := by
      rw [get?_eq_some_iff, ← h.entries_eq, items, hpath.seq_eq]
      simp
    simp [BPlusTree.get, hpath.findLeaf_eq, hfind, hvalue, hget]
  | none =>
    have hget := h.get?_eq_none (not_mem_of_path hpath hl h.sorted hfind)
    simp [BPlusTree.get, hpath.findLeaf_eq, hfind, hget]

section Scan

variable {lo hi : Text}

theorem scanLeaf_append (es fs : List (Text × Text)) :
    (scanLeaf lo hi (es ++ fs)).1 =
      if (scanLeaf lo hi es).2 then (scanLeaf lo hi es).1
      else (scanLeaf lo hi es).1 ++ (scanLeaf lo hi fs).1 := by
  induction es with
  | nil => rfl
  | cons e es ih =>
    rw [cons_append, scanLeaf, scanLeaf]
    split
    · rfl
    · dsimp only
      rw [ih]
      split <;> split <;> simp

theorem scanLeaf_eq {es : List (Text × Text)} (h : es.Pairwise fun e f => e.1 < f.1) :
    (scanLeaf lo hi es).1 = es.filter fun e => lo ≤ e.1 ∧ e.1 ≤ hi := by
  induction es with
  | nil => rfl
  | cons e es ih =>
    obtain ⟨hfirst, hrest⟩ := pairwise_cons.mp h
    rw [scanLeaf]
    split
    · rename_i hbeyond
      refine (filter_eq_nil_iff.mpr ?_).symm
      rw [forall_mem_cons]
      refine ⟨by simp [hbeyond], fun f hf => ?_⟩
      have hlt : hi < f.1 := lt_trans hbeyond (hfirst f hf)
      simp [hlt]
    · rename_i hbeyond
      dsimp only
      rw [ih hrest, filter_cons]
      have hle : e.1 ≤ hi := le_of_not_gt hbeyond
      by_cases hlo : lo ≤ e.1 <;> simp [hlo, hle]

theorem find?_id {all : List Leaf} (hnodup : (all.map Leaf.id).Nodup) {leaf : Leaf}
    (hleaf : leaf ∈ all) : (all.find? fun l => l.id = leaf.id) = some leaf := by
  have hsome : (all.find? fun l => l.id = leaf.id).isSome :=
    find?_isSome.mpr ⟨leaf, hleaf, by simp⟩
  obtain ⟨l, hfind⟩ := isSome_iff_exists.mp hsome
  have hid : l.id = leaf.id := by simpa using find?_some hfind
  rw [hfind, inj_on_of_nodup_map hnodup (mem_of_find?_eq_some hfind) hleaf hid]

theorem scanLeaves_eq {all : List Leaf} (hnodup : (all.map Leaf.id).Nodup) {L : List Item}
    {leaf : Leaf} (hlinked : Linked (.leaf leaf :: L)) (hall : ∀ l ∈ leaves L, l ∈ all)
    {fuel : Nat} (hfuel : (leaves L).length < fuel) :
    scanLeaves all lo hi fuel leaf = (scanLeaf lo hi (leaf.entries ++ entries L)).1 := by
  induction L generalizing leaf fuel with
  | nil =>
    obtain ⟨hnext, -⟩ := hlinked
    obtain ⟨fuel, rfl⟩ : ∃ n, fuel = n + 1 := ⟨fuel - 1, by simp at hfuel; omega⟩
    have hend : leaf.next = none := hnext
    simp [scanLeaves, hend]
  | cons item L ih =>
    cases item with
    | sep key => exact ih hlinked hall hfuel
    | leaf next =>
      obtain ⟨hnext, hrest⟩ := hlinked
      rw [leaves_leaf, forall_mem_cons] at hall
      rw [leaves_leaf, length_cons] at hfuel
      obtain ⟨fuel, rfl⟩ : ∃ n, fuel = n + 1 := ⟨fuel - 1, by omega⟩
      have hid : leaf.next = some next.id := hnext
      rw [scanLeaves, hid, Option.bind_some, find?_id hnodup hall.1, entries_leaf, scanLeaf_append]
      dsimp only
      rw [ih hrest hall.2 (by omega)]

theorem Represents.scan {t : BPlusTree} {m : SortedMap Text Text} (h : Represents t m)
    (lo hi : Text) : t.scan lo hi = some (m.scan lo hi) := by
  obtain ⟨A, l, B, hpath, hl⟩ := exists_path lo h.shaped
  have hseq : items t = A ++ .leaf l :: B := hpath.seq_eq
  have hleaves : leavesOf t.height t.root = leaves A ++ l :: leaves B := by
    rw [← leaves_seq h.shaped, ← items, hseq, leaves_append, leaves_leaf]
  have hmem : ∀ l' ∈ leaves B, l' ∈ leavesOf t.height t.root := fun l' hl' => by
    rw [hleaves]
    exact mem_append_right _ (mem_cons_of_mem _ hl')
  have hfuel : (leaves B).length < (leavesOf t.height t.root).length := by
    rw [hleaves, length_append, length_cons]
    omega
  have hlinked : Linked (.leaf l :: B) := linked_of_append (hseq ▸ h.chained.linked)
  have hids : ((leavesOf t.height t.root).map Leaf.id).Nodup := by
    rw [← leaves_seq h.shaped]
    exact h.chained.nodup
  have hentries : m.entries = entries A ++ (l.entries ++ entries B) := by
    rw [← h.entries_eq, hseq, entries_append, entries_leaf]
  have hpairs := m.sorted
  rw [hentries, pairwise_append] at hpairs
  -- the leaves to the left of the first one hold only keys below the range
  have hbelow : (entries A).filter (fun e => lo ≤ e.1 ∧ e.1 ≤ hi) = [] := by
    refine filter_eq_nil_iff.mpr fun e he => ?_
    have hlt : e.1 < lo := (hpath.around h.sorted).left (.entry e.1 e.2) (mem_marks_iff.mpr he)
    simp [hlt]
  rw [BPlusTree.scan, hpath.findLeaf_eq]
  change some (scanLeaves _ lo hi _ l) = _
  rw [scanLeaves_eq hids hlinked hmem hfuel, scanLeaf_eq hpairs.2.1, SortedMap.scan, hentries,
    filter_append (entries A), hbelow, nil_append]

end Scan

variable {value : Text}

/-- The insertion of the key makes a split that moves the key itself up. -/
def movesUpKey (t : BPlusTree) (key : Text) : Bool :=
  if isFull t.order t.height t.root then
    (splitChild t.order t.fresh ⟨[], [t.root]⟩ 0).any
      (movesUp t.order key (t.fresh + 1) (t.height + 1))
  else movesUp t.order key t.fresh t.height t.root

/-- The order stays, and no node gets more keys than it has room for. -/
def Bounded (t t' : BPlusTree) : Prop :=
  t'.order = t.order ∧ (Capped t.order t.height t.root → Capped t.order t'.height t'.root)

theorem exists_insert (h : Formed t) (key value : Text) :
    ∃ t' f, t.insert key value = some t' ∧ Bounded t t' ∧ t'.size = t.size + 1 ∧
      Shaped t'.height t'.root ∧ f ≤ t'.fresh ∧
      Inserts key value (movesUpKey t key = false) (t.fresh, items t) f (items t') := by
  by_cases hfull : isFull t.order t.height t.root = true
  · obtain ⟨l, k, r, hsplit, hl, hr, hhalves, hstep⟩ :=
      splitNode_spec t.fresh h.order h.shaped hfull
    have hroot : splitChild t.order t.fresh ⟨[], [t.root]⟩ 0 = some ⟨[k], [l, r]⟩ := by
      simp [splitChild, hsplit]
    have hshape : Shaped (t.height + 1) (⟨[k], [l, r]⟩ : Internal (Node t.height)) :=
      ⟨rfl, by simp [hl, hr]⟩
    obtain ⟨root, hinsert, hshape', hkeep, hinserts⟩ :=
      insertNonFull_spec (t.fresh + 1) key value h.order hshape
    have hsteps : Split t.fresh (items t)
        ([] ++ seq (t.height + 1) (⟨[k], [l, r]⟩ : Internal (Node t.height)) ++ []) := by
      simpa [items, seq, weave, after] using hstep
    refine ⟨⟨t.order, t.height + 1, root, t.size + 1, t.nextFresh⟩,
      t.fresh + 1 + (t.height + 1), ?_, ⟨rfl, fun hcap => hkeep ⟨⟨?_, ?_⟩, ?_⟩⟩, rfl, hshape', ?_,
      ?_⟩
    · simp only [BPlusTree.insert, hfull, if_true, hroot, Option.bind_eq_bind, Option.bind_some,
        hinsert, Option.pure_def]
    · have := h.order
      change 1 ≤ _
      omega
    · simp [(hhalves hcap).1.1, (hhalves hcap).2.1]
    · have := h.order
      change 1 < _
      omega
    · change t.fresh + 1 + (t.height + 1) ≤ t.fresh + t.height + 2
      omega
    · have hmoves : movesUpKey t key = false →
          movesUp t.order key (t.fresh + 1) (t.height + 1) (⟨[k], [l, r]⟩ : Internal _) = false :=
        fun hmoves => by
          rw [movesUpKey, if_pos hfull, hroot] at hmoves
          exact hmoves
      have hdescend := hinserts.descend hsteps hmoves fun _ _ => ⟨by simp, by simp⟩
      rw [nil_append, append_nil] at hdescend
      exact hdescend
  · obtain ⟨root, hinsert, hshape', hkeep, hinserts⟩ :=
      insertNonFull_spec t.fresh key value h.order h.shaped
    refine ⟨⟨t.order, t.height, root, t.size + 1, t.nextFresh⟩, t.fresh + t.height, ?_,
      ⟨rfl, fun hcap => hkeep (roomy_of_not_full hcap hfull)⟩, rfl, hshape', ?_, ?_⟩
    · simp [BPlusTree.insert, hfull, hinsert]
    · change t.fresh + t.height ≤ t.fresh + t.height + 2
      omega
    · rw [movesUpKey, if_neg hfull]
      exact hinserts

/-- The value of the key is replaced in its leaf. -/
def Updates (key value : Text) (L L' : List Item) : Prop :=
  ∃ A B id next X Y old, L = A ++ .leaf (leafOf id next (X ++ (key, old) :: Y)) :: B ∧
    L' = A ++ .leaf (leafOf id next (X ++ (key, value) :: Y)) :: B

theorem exists_update (h : Formed t) {A B : List Item} {l : Leaf} {idx : Nat}
    (hpath : Path key t.height t.root A l B) (hl : Shaped 0 l) (hfind : l.find key = some idx)
    (value : Text) :
    ∃ t', t.set key value = some t' ∧ Formed t' ∧ Bounded t t' ∧
      Updates key value (items t) (items t') := by
  obtain ⟨id, next, es, rfl⟩ := exists_leafOf hl
  obtain ⟨hidx, X, old, Y, rfl, rfl⟩ := exists_of_find hfind
  obtain ⟨root, hroot, hshape, hkeep, hseq⟩ := hpath.updateLeaf_eq h.shaped value
  have hleaf : (⟨id, (leafOf id next (X ++ (key, old) :: Y)).keys,
      (leafOf id next (X ++ (key, old) :: Y)).values.set
        (bisectLeft (leafOf id next (X ++ (key, old) :: Y)).keys key) value, next⟩ : Leaf) =
      leafOf id next (X ++ (key, value) :: Y) := set_leafOf hidx
  have hold : items t = A ++ .leaf (leafOf id next (X ++ (key, old) :: Y)) :: B := hpath.seq_eq
  have hnew : items { t with root := root } =
      A ++ .leaf (leafOf id next (X ++ (key, value) :: Y)) :: B :=
    hseq.trans (by rw [← hleaf]; rfl)
  refine ⟨{ t with root := root }, ?_, ⟨h.order, hshape, ?_, ?_⟩, ⟨rfl, hkeep _⟩, A, B, id, next, X,
    Y, old, hold, hnew⟩
  · simp [BPlusTree.set, hpath.findLeaf_eq, hfind, hroot]
  · rw [hnew]
    exact (hold ▸ h.chained).congr rfl fun h => h
  · rw [hnew]
    refine h.size.trans ?_
    rw [hold]
    simp

theorem Formed.set (h : Formed t) (key value : Text) :
    ∃ t', t.set key value = some t' ∧ Formed t' ∧ Bounded t t' ∧
      (Updates key value (items t) (items t') ∨
        (Sorted (items t) → key ∉ (entries (items t)).map Prod.fst) ∧
        ∃ f, Inserts key value (movesUpKey t key = false) (t.fresh, items t) f (items t')) := by
  obtain ⟨A, l, B, hpath, hl⟩ := exists_path key h.shaped
  cases hfind : l.find key with
  | some idx =>
    obtain ⟨t', hset, hformed, hbounded, hupdates⟩ := exists_update h hpath hl hfind value
    exact ⟨t', hset, hformed, hbounded, .inl hupdates⟩
  | none =>
    obtain ⟨t', f, hinsert, hbounded, hsize, hshape, hf, hinserts⟩ := exists_insert h key value
    obtain ⟨E, F, hE, hF⟩ := hinserts.entries_eq
    refine ⟨t', ?_, ⟨hbounded.1 ▸ h.order, hshape, (hinserts.chained h.chained).mono hf, ?_⟩,
      hbounded, .inr ⟨fun hsorted => not_mem_of_path hpath hl hsorted hfind, f, hinserts⟩⟩
    · simpa [BPlusTree.set, hpath.findLeaf_eq, hfind] using hinsert
    · rw [hsize, h.size, hF, show entries (items t) = E ++ F from hE]
      simp only [length_append, length_cons]
      omega

theorem Represents.set (h : Represents t m) (key value : Text) :
    ∃ t', t.set key value = some t' ∧
      ((m.get? key = none → movesUpKey t key = false) → Represents t' (m.insert key value)) := by
  obtain ⟨t', hset, hformed, -, hchange⟩ := h.toFormed.set key value
  refine ⟨t', hset, fun hmoves => ?_⟩
  rcases hchange with ⟨A, B, id, next, X, Y, old, hold, hnew⟩ | ⟨habsent, f, hinserts⟩
  · have hsorted : Sorted (items t') := by
      rw [hnew]
      exact sorted_update value (hold ▸ h.sorted)
    refine ⟨hformed, hsorted, ?_⟩
    have hentries : entries (items t') = (entries A ++ X) ++ (key, value) :: (Y ++ entries B) := by
      rw [hnew]
      simp
    have hm : m.entries = (entries A ++ X) ++ ([(key, old)] ++ (Y ++ entries B)) := by
      rw [← h.entries_eq, hold]
      simp
    have hpairs := pairwise_entries hsorted
    rw [hentries] at hpairs ⊢
    exact (entries_insert_of_middle hm (by simp) hpairs).symm
  · have hkey := habsent h.sorted
    have hsorted : Sorted (items t') :=
      hinserts.sorted (hmoves (h.get?_eq_none hkey)) hkey h.sorted
    refine ⟨hformed, hsorted, ?_⟩
    obtain ⟨E, F, hE, hF⟩ := hinserts.entries_eq
    have hm : m.entries = E ++ ([] ++ F) := h.entries_eq.symm.trans hE
    have hpairs := pairwise_entries hsorted
    rw [hF] at hpairs ⊢
    exact (entries_insert_of_middle hm (by simp) hpairs).symm

theorem exists_shrink (hshape : Shaped t.height t.root) :
    ∃ t', t.shrink = some t' ∧ Bounded t t' ∧ t'.size = t.size ∧ t'.fresh = t.fresh ∧
      Shaped t'.height t'.root ∧ items t' = items t := by
  obtain ⟨order, height, root, size, fresh⟩ := t
  cases height with
  | zero => exact ⟨_, rfl, ⟨rfl, fun hcap => hcap⟩, rfl, rfl, hshape, rfl⟩
  | succ height =>
    obtain ⟨keys, children⟩ := root
    cases keys with
    | cons k keys => exact ⟨_, rfl, ⟨rfl, fun hcap => hcap⟩, rfl, rfl, hshape, rfl⟩
    | nil =>
      obtain ⟨hlen, hall⟩ := hshape
      obtain ⟨c, rfl⟩ := length_eq_one_iff.mp hlen
      refine ⟨⟨order, height, c, size, fresh⟩, rfl, ⟨rfl, fun hcap => hcap.2 c (by simp)⟩, rfl, rfl,
        hall c (by simp), ?_⟩
      exact (append_nil _).symm

theorem Formed.delete (h : Formed t) (key : Text) :
    ∃ found t', t.delete key = some (found, t') ∧ Formed t' ∧ Bounded t t' ∧
      (found = true ∧ Deletes key (refreshesEmpty t.order key t.height t.root = false) (items t)
          (items t') ∨
        found = false ∧ t' = t ∧
          (Sorted (items t) → key ∉ (entries (items t)).map Prod.fst)) := by
  obtain ⟨A, l, B, hpath, hl⟩ := exists_path key h.shaped
  cases hfind : l.find key with
  | some idx =>
    obtain ⟨root, hdelete, hshape, hkeep, hdeletes⟩ :=
      hpath.deleteRecursive_of_some h.order h.shaped hfind
    obtain ⟨t', hshrink, ⟨horder, hkeep'⟩, hsize, hfresh, hshape', hitems⟩ :=
      exists_shrink (t := { t with root := root, size := t.size - 1 }) hshape
    obtain ⟨E, F, value, hE, hF⟩ := hdeletes.entries_eq
    refine ⟨true, t', ?_, ⟨horder ▸ h.order, hshape', ?_, ?_⟩,
      ⟨horder, fun hcap => hkeep' (hkeep hcap)⟩, .inl ⟨rfl, ?_⟩⟩
    · simp only [BPlusTree.delete, hdelete, Option.bind_eq_bind, Option.bind_some, if_true,
        hshrink, Option.pure_def]
    · rw [hitems, hfresh]
      exact hdeletes.chained h.chained
    · rw [hsize, hitems, show entries (items { t with root := root, size := t.size - 1 }) = E ++ F
        from hF]
      change t.size - 1 = _
      rw [h.size, show entries (items t) = E ++ (key, value) :: F from hE]
      simp only [length_append, length_cons]
      omega
    · rw [hitems]
      exact hdeletes
  | none =>
    refine ⟨false, t, ?_, h, ⟨rfl, fun hcap => hcap⟩, .inr ⟨rfl, rfl, fun hsorted =>
      not_mem_of_path hpath hl hsorted hfind⟩⟩
    simp [BPlusTree.delete, hpath.deleteRecursive_of_none hfind]

theorem Represents.delete (h : Represents t m) (key : Text) :
    ∃ t', t.delete key = some ((m.get? key).isSome, t') ∧
      (refreshesEmpty t.order key t.height t.root = false → Represents t' (m.erase key)) := by
  obtain ⟨found, t', hdelete, hformed, -, hchange⟩ := h.toFormed.delete key
  rcases hchange with ⟨rfl, hdeletes⟩ | ⟨rfl, rfl, habsent⟩
  · obtain ⟨E, F, value, hE, hF⟩ := hdeletes.entries_eq
    have hm : m.entries = E ++ (key, value) :: F := h.entries_eq.symm.trans hE
    have hget : m.get? key = some value := by
      rw [get?_eq_some_iff, hm]
      simp
    refine ⟨t', by rw [hdelete, hget, isSome_some], fun hclean => ?_⟩
    exact ⟨hformed, hdeletes.sorted hclean h.sorted, hF.trans (entries_erase_of_middle hm).symm⟩
  · have hget := h.get?_eq_none (habsent h.sorted)
    refine ⟨t', by rw [hdelete, hget, isSome_none], fun _ => ⟨hformed, h.sorted, ?_⟩⟩
    rw [h.entries_eq]
    refine (filter_eq_self.mpr fun e he => ?_).symm
    have hne : e.1 ≠ key := by
      rintro rfl
      exact get?_eq_none_iff.mp hget e.2 he
    simpa using hne

section Growing

variable {t' : BPlusTree}

/-- Every separator is the key of an entry, which only deletions can change. -/
def Present (t : BPlusTree) : Prop :=
  ∀ k, .sep k ∈ items t → k ∈ (entries (items t)).map Prod.fst

theorem present_create (order : Nat) : Present (.create order) := by
  intro k hk
  cases mem_singleton.mp hk

theorem movesUpKey_eq_false (h : Formed t) (hpresent : Present t)
    (hkey : key ∉ (entries (items t)).map Prod.fst) : movesUpKey t key = false := by
  rw [movesUpKey]
  split
  · rename_i hfull
    obtain ⟨l, k, r, hsplit, hl, hr, -, hstep⟩ := splitNode_spec t.fresh h.order h.shaped hfull
    have hroot : splitChild t.order t.fresh ⟨[], [t.root]⟩ 0 = some ⟨[k], [l, r]⟩ := by
      simp [splitChild, hsplit]
    have hshape : Shaped (t.height + 1) (⟨[k], [l, r]⟩ : Internal (Node t.height)) :=
      ⟨rfl, by simp [hl, hr]⟩
    have hseq : seq (t.height + 1) (⟨[k], [l, r]⟩ : Internal (Node t.height)) =
        seq t.height l ++ .sep k :: seq t.height r := by
      simp [seq, weave, after]
    rw [hroot]
    refine movesUp_eq_false h.order hkey hshape (fun j hj => ?_) (fun j hj => ?_) _
    · rw [hseq] at hj
      exact (hstep.sep_mem hj).elim (hpresent j) fun h => h
    · rw [hseq, hstep.entries_eq] at hj
      exact hj
  · exact movesUp_eq_false h.order hkey h.shaped hpresent (fun _ h => h) _

theorem Present.set (h : Formed t) (hpresent : Present t) (hset : t.set key value = some t') :
    Present t' := by
  obtain ⟨t'', hset', -, -, hchange⟩ := h.set key value
  cases hset.symm.trans hset'
  intro k hk
  rcases hchange with ⟨A, B, id, next, X, Y, old, hold, hnew⟩ | ⟨-, f, hinserts⟩
  · have hmem := hpresent k (by rw [hold]; rw [hnew] at hk; simpa using hk)
    rw [hold] at hmem
    rw [hnew]
    simpa using hmem
  · obtain ⟨E, F, hE, hF⟩ := hinserts.entries_eq
    have hmem : k ∈ (entries (items t)).map Prod.fst :=
      (hinserts.sep_mem hk).elim (hpresent k) fun h => h
    rw [show entries (items t) = E ++ F from hE] at hmem
    rw [hF]
    simp only [map_append, map_cons, mem_append, mem_cons] at hmem ⊢
    tauto

end Growing

/-- The tree and the calls that it has taken. -/
structure State where
  tree : BPlusTree
  history : List WriteOp

def init (order : Nat) : State := ⟨.create order, []⟩

def step (s : State) (op : WriteOp) : Option State :=
  (match op with
    | .put key value => s.tree.set key value
    | .delete key => (s.tree.delete key).map Prod.snd).map (⟨·, s.history ++ [op]⟩)

/-- No insertion of a new key moves this key up, and no deletion takes a separator from
an empty leaf. -/
def Legal (s : State) : WriteOp → Prop
  | .put key _ => s.tree.get key = some none → movesUpKey s.tree key = false
  | .delete key => refreshesEmpty s.tree.order key s.tree.height s.tree.root = false

instance (s : State) (op : WriteOp) : Decidable (Legal s op) := by
  unfold Legal
  split <;> infer_instance

/-- The tree stands for the last values of the history. -/
def Shows (s : State) : Prop :=
  ∃ m : SortedMap Text Text, Represents s.tree m ∧
    ∀ key, m.get? key = lastValue s.history key

theorem shows_init {order : Nat} (horder : 2 ≤ order) : Shows (init order) :=
  ⟨.empty, represents_create horder, fun _ => rfl⟩

theorem Shows.step {s s' : State} {op : WriteOp} (h : Shows s) (hlegal : Legal s op)
    (hstep : step s op = some s') : Shows s' := by
  obtain ⟨m, hm, hlast⟩ := h
  cases op with
  | put key value =>
    obtain ⟨t, hset, ht⟩ := hm.set key value
    simp only [BTreeMap.step, hset, map_some, Option.some.injEq] at hstep
    subst hstep
    refine ⟨m.insert key value, ht fun hget => hlegal (by rw [hm.get, hget]), fun k => ?_⟩
    rw [get?_insert, lastValue_concat, hlast]
    by_cases hk : k = key <;> simp [hk, lastValue, WriteOp.key]
  | delete key =>
    obtain ⟨t, hdelete, ht⟩ := hm.delete key
    simp only [BTreeMap.step, hdelete, map_some, Option.some.injEq] at hstep
    subst hstep
    refine ⟨m.erase key, ht hlegal, fun k => ?_⟩
    rw [get?_erase, lastValue_concat, hlast]
    by_cases hk : k = key <;> simp [hk, lastValue, WriteOp.key]

/-- The tree of a state is the map of its history, and every further call returns. -/
structure IsMap (s : State) : Prop where
  get : ∀ key, s.tree.get key = some (lastValue s.history key)
  delete : ∀ key, (s.tree.delete key).map Prod.fst = some (lastValue s.history key).isSome
  size : s.tree.size = ((s.history.map WriteOp.key).toFinset.filter fun key =>
    (lastValue s.history key).isSome).card
  scan : ∀ lo hi, ∃ pairs, s.tree.scan lo hi = some pairs ∧
    pairs.Pairwise (fun a b => a.1 < b.1) ∧ ∀ key value, (key, value) ∈ pairs ↔
      lo ≤ key ∧ key ≤ hi ∧ lastValue s.history key = some value
  returns : ∀ op, (step s op).isSome

theorem mem_keys_of_lastValue {history : List WriteOp}
    (h : lastValue history key = some value) : key ∈ history.map WriteOp.key := by
  rw [lastValue] at h
  split at h
  · rename_i hfind
    have hkey := find?_some hfind
    simp only [decide_eq_true_eq] at hkey
    exact mem_map.mpr ⟨_, mem_reverse.mp (mem_of_find?_eq_some hfind), hkey⟩
  · cases h

theorem Shows.isMap {s : State} (h : Shows s) : IsMap s := by
  obtain ⟨m, hm, hlast⟩ := h
  refine ⟨fun key => ?_, fun key => ?_, ?_, fun lo hi => ⟨m.scan lo hi, hm.scan lo hi, ?_, ?_⟩, ?_⟩
  · rw [hm.get, hlast]
  · obtain ⟨t, hdelete, -⟩ := hm.delete key
    rw [hdelete, map_some, hlast]
  · have hkeys : (s.history.map WriteOp.key).toFinset.filter
        (fun key => (lastValue s.history key).isSome) = (m.entries.map Prod.fst).toFinset := by
      ext key
      rw [Finset.mem_filter, List.mem_toFinset, List.mem_toFinset, ← hlast, isSome_iff_exists]
      constructor
      · rintro ⟨-, value, hvalue⟩
        exact mem_map_of_mem (get?_eq_some_iff.mp hvalue)
      · intro hmem
        obtain ⟨⟨k, value⟩, he, rfl⟩ := mem_map.mp hmem
        have hvalue := get?_eq_some_iff.mpr he
        exact ⟨mem_keys_of_lastValue ((hlast k).symm.trans hvalue), value, hvalue⟩
    rw [hkeys, toFinset_card_of_nodup m.nodup_keys, hm.size, hm.entries_eq, length_map]
  · exact m.sorted.filter _
  · intro key value
    rw [mem_scan, ← get?_eq_some_iff, hlast]
    tauto
  · intro op
    cases op with
    | put key value =>
      obtain ⟨t, hset, -⟩ := hm.set key value
      simp [BTreeMap.step, hset]
    | delete key =>
      obtain ⟨t, hdelete, -⟩ := hm.delete key
      simp [BTreeMap.step, hdelete]

/-- The tree is a map in every state that calls of the kind `Legal` reach. -/
theorem isMap_of_reaches {order : Nat} (horder : 2 ≤ order) {s : State}
    (h : Reaches step Legal (init order) s) : IsMap s :=
  (h.invariant Shows (shows_init horder) fun _ _ _ hu ha hstep => hu.step ha hstep).isMap

/-- Twelve keys in order; the two nodes below the root are full. -/
def twelveKeys : List WriteOp := "abcdefghijkl".toList.map fun c => .put [c] [c]

theorem isMap_of_twelveKeys : ∃ s, Reaches step Legal (init 2) s ∧ s.tree.height = 2 ∧
    s.tree.get "i".toList = some none ∧ s.tree.get "j".toList = some (some "j".toList) := by
  obtain ⟨s, hs, hheight, hi, hj⟩ := exists_reaches step Legal (init 2)
    (twelveKeys ++ [.delete "i".toList, .put "b".toList "z".toList])
    (fun s => s.tree.height = 2 ∧ lastValue s.history "i".toList = none ∧
      lastValue s.history "j".toList = some "j".toList) (by decide +kernel)
  have hmap := isMap_of_reaches (by decide) hs
  exact ⟨s, hs, hheight, by rw [hmap.get, hi], by rw [hmap.get, hj]⟩

/-- The key `i` is deleted, but it still separates two leaves. When it is set again, the
split of the full node moves it up, the entry goes to the left of it, and searches go to
the right. -/
theorem not_isMap_of_reinsertion : ¬ ∀ order, 2 ≤ order → ∀ s,
    Reaches step (fun _ _ => True) (init order) s → IsMap s := by
  intro h
  obtain ⟨s, hs, hget, hlast⟩ := exists_reaches step (fun _ _ => True) (init 2)
    (twelveKeys ++ [.delete "i".toList, .put "i".toList "z".toList])
    (fun s => s.tree.get "i".toList = some none ∧
      lastValue s.history "i".toList = some "z".toList) (by decide +kernel)
  have hmap := (h 2 (by decide) s hs).get "i".toList
  rw [hget, hlast] at hmap
  cases hmap

end LiteDB.BTreeMap
