import LiteDB.BTree
import Mathlib.Data.List.Nodup
import Mathlib.Logic.Relation

namespace LiteDB.BTreeSequences

open BTree List
open VersionKeys (Text)

/-- The leaves from left to right with the separators between them. -/
inductive Item where
  | leaf (leaf : Leaf)
  | sep (key : Text)

/-- The entries from left to right with the separators between them. -/
inductive Mark where
  | entry (key value : Text)
  | sep (key : Text)

def Mark.key : Mark → Text
  | .entry key _ => key
  | .sep key => key

/-- A key to the right of a separator may be equal to it. -/
def Before : Mark → Mark → Prop
  | .entry key _, m => key < m.key
  | .sep key, m => key ≤ m.key

variable {P L : List Item} {key : Text}

section Views

def entryMarks (es : List (Text × Text)) : List Mark := es.map fun e => .entry e.1 e.2

def Item.marks : Item → List Mark
  | .leaf l => entryMarks l.entries
  | .sep key => [.sep key]

def marks (L : List Item) : List Mark := L.flatMap Item.marks

def Item.leaf? : Item → Option Leaf
  | .leaf l => some l
  | .sep _ => none

def leaves (L : List Item) : List Leaf := L.filterMap Item.leaf?

def entries (L : List Item) : List (Text × Text) := (leaves L).flatMap Leaf.entries

def ids (L : List Item) : List Nat := (leaves L).map Leaf.id

variable {Q : List Item} {leaf : Leaf}

@[simp] theorem marks_append : marks (P ++ Q) = marks P ++ marks Q := flatMap_append

@[simp] theorem marks_leaf : marks (.leaf leaf :: L) = entryMarks leaf.entries ++ marks L := rfl

@[simp] theorem entryMarks_append (es fs : List (Text × Text)) :
    entryMarks (es ++ fs) = entryMarks es ++ entryMarks fs := map_append

@[simp] theorem entryMarks_cons (e : Text × Text) (es : List (Text × Text)) :
    entryMarks (e :: es) = .entry e.1 e.2 :: entryMarks es := rfl

@[simp] theorem marks_sep : marks (.sep key :: L) = .sep key :: marks L := rfl

@[simp] theorem marks_nil : marks [] = [] := rfl

@[simp] theorem leaves_append : leaves (P ++ Q) = leaves P ++ leaves Q := filterMap_append

@[simp] theorem leaves_leaf : leaves (.leaf leaf :: L) = leaf :: leaves L := rfl

@[simp] theorem leaves_sep : leaves (.sep key :: L) = leaves L := rfl

@[simp] theorem leaves_nil : leaves [] = [] := rfl

@[simp] theorem entries_append : entries (P ++ Q) = entries P ++ entries Q := by
  simp [entries]

@[simp] theorem entries_leaf : entries (.leaf leaf :: L) = leaf.entries ++ entries L := by
  simp [entries]

@[simp] theorem entries_sep : entries (.sep key :: L) = entries L := rfl

@[simp] theorem entries_nil : entries [] = [] := rfl

@[simp] theorem ids_append : ids (P ++ Q) = ids P ++ ids Q := by
  simp [ids]

@[simp] theorem ids_leaf : ids (.leaf leaf :: L) = leaf.id :: ids L := rfl

@[simp] theorem ids_sep : ids (.sep key :: L) = ids L := rfl

def Mark.entry? : Mark → Option (Text × Text)
  | .entry key value => some (key, value)
  | .sep _ => none

theorem filterMap_marks (L : List Item) : (marks L).filterMap Mark.entry? = entries L := by
  induction L with
  | nil => rfl
  | cons item L ih =>
    cases item with
    | leaf leaf =>
      have hleaf : (fun e : Text × Text => Mark.entry? (.entry e.1 e.2)) = some := rfl
      simp [ih, entryMarks, filterMap_map, hleaf]
    | sep key => exact ih

theorem mem_marks_iff {value : Text} : .entry key value ∈ marks L ↔ (key, value) ∈ entries L := by
  rw [← filterMap_marks, mem_filterMap]
  constructor
  · intro h
    exact ⟨_, h, rfl⟩
  · rintro ⟨m, hm, heq⟩
    cases m with
    | entry k v =>
      obtain ⟨rfl, rfl⟩ := Prod.mk.inj (Option.some.inj heq)
      exact hm
    | sep k => cases heq

end Views

def leafOf (id : Nat) (next : Option Nat) (es : List (Text × Text)) : Leaf :=
  ⟨id, es.map Prod.fst, es.map Prod.snd, next⟩

@[simp] theorem entries_leafOf (id : Nat) (next : Option Nat) (es : List (Text × Text)) :
    (leafOf id next es).entries = es := by
  exact (zip_of_prod rfl rfl).symm

theorem leafOf_entries {leaf : Leaf} (h : leaf.values.length = leaf.keys.length) :
    leafOf leaf.id leaf.next leaf.entries = leaf := by
  simp [leafOf, Leaf.entries, map_fst_zip, map_snd_zip, h]

section Order

def Sorted (L : List Item) : Prop := (marks L).Pairwise Before

variable {A B : List Mark} {m : Mark}

theorem pairwise_entries (h : Sorted L) : (entries L).Pairwise fun e f => e.1 < f.1 := by
  rw [← filterMap_marks]
  refine List.Pairwise.filterMap _ ?_ h
  rintro (⟨k, v⟩ | k) (⟨k', v'⟩ | k') hbefore _ ⟨⟩ _ ⟨⟩
  exact hbefore

theorem pairwise_entry {value : Text} (h : (A ++ B).Pairwise Before)
    (hA : ∀ m ∈ A, Before m (.entry key value)) (hB : ∀ m ∈ B, Before (.entry key value) m) :
    (A ++ .entry key value :: B).Pairwise Before := by
  rw [pairwise_append] at h ⊢
  refine ⟨h.1, pairwise_cons.mpr ⟨hB, h.2.1⟩, fun m hm => ?_⟩
  rw [forall_mem_cons]
  exact ⟨hA m hm, h.2.2 m hm⟩

theorem pairwise_of_cons (h : (A ++ m :: B).Pairwise Before) : (A ++ B).Pairwise Before :=
  h.sublist ((sublist_cons_self _ _).append_left A)

/-- A separator may stand in front of the entry whose key it has. -/
theorem pairwise_sep {value : Text} (h : (A ++ .entry key value :: B).Pairwise Before) :
    (A ++ .sep key :: .entry key value :: B).Pairwise Before := by
  rw [pairwise_append, pairwise_cons] at h ⊢
  obtain ⟨hA, ⟨hkey, hB⟩, hAB⟩ := h
  refine ⟨hA, ⟨?_, pairwise_cons.mpr ⟨hkey, hB⟩⟩, fun m hm => ?_⟩
  · rw [forall_mem_cons]
    exact ⟨le_refl key, fun m hm => le_of_lt (hkey m hm)⟩
  · rw [forall_mem_cons]
    have hbefore := hAB m hm (.entry key value) (by simp)
    refine ⟨?_, hAB m hm⟩
    cases m <;> exact hbefore

/-- The place of a key lies between two parts. -/
structure Around (key : Text) (A B : List Item) : Prop where
  left : ∀ m ∈ marks A, Before m (.entry key [])
  right : ∀ m ∈ marks B, Before (.entry key []) m

theorem before_of_before_sep {a value : Text} (h : Before m (.sep a)) (hle : a ≤ key) :
    Before m (.entry key value) := by
  cases m with
  | entry k v => exact lt_of_lt_of_le h hle
  | sep k => exact le_trans h hle

theorem around_append {A B A' B' : List Item} (h : Around key A B)
    (h' : Around key A' B') : Around key (A ++ A') (B' ++ B) := by
  constructor
  · rw [marks_append, forall_mem_append]
    exact ⟨h.left, h'.left⟩
  · rw [marks_append, forall_mem_append]
    exact ⟨h'.right, h.right⟩

theorem sorted_of_append {Q : List Item} (h : Sorted (P ++ L ++ Q)) : Sorted L := by
  rw [Sorted, marks_append, marks_append] at h
  exact (pairwise_append.mp (pairwise_append.mp h).1).2.1

end Order

variable {L' : List Item} {f : Nat}

def Linked : List Item → Prop
  | [] => True
  | .leaf leaf :: L => leaf.next = (ids L).head? ∧ Linked L
  | .sep _ :: L => Linked L

theorem linked_append (hL : Linked L → Linked L') (hids : (ids L').head? = (ids L).head?)
    (h : Linked (P ++ L)) : Linked (P ++ L') := by
  induction P with
  | nil => exact hL h
  | cons item P ih =>
    cases item with
    | leaf leaf =>
      refine ⟨?_, ih h.2⟩
      change leaf.next = (ids (P ++ L')).head?
      have hnext : leaf.next = (ids (P ++ L)).head? := h.1
      rw [hnext, ids_append, ids_append, head?_append, head?_append, hids]
    | sep key => exact ih h

theorem linked_of_append (h : Linked (P ++ L)) : Linked L := by
  induction P with
  | nil => exact h
  | cons item P ih =>
    cases item with
    | leaf leaf => exact ih h.2
    | sep key => exact ih h

/-- The references of the leaves, which are below `fresh`. -/
structure Chained (fresh : Nat) (L : List Item) : Prop where
  linked : Linked L
  nodup : (ids L).Nodup
  bound : ∀ id ∈ ids L, id < fresh

theorem Chained.mono {f' : Nat} (h : Chained f L) (hle : f ≤ f') : Chained f' L :=
  ⟨h.linked, h.nodup, fun id hid => lt_of_lt_of_le (h.bound id hid) hle⟩

theorem Chained.congr (h : Chained f (P ++ L)) (hids : ids L' = ids L) (hL : Linked L → Linked L') :
    Chained f (P ++ L') where
  linked := linked_append hL (by rw [hids]) h.linked
  nodup := by
    rw [ids_append, hids, ← ids_append]
    exact h.nodup
  bound := by
    rw [ids_append, hids, ← ids_append]
    exact h.bound

variable {s : Nat × List Item}

section Splits

/-- A leaf is split in two, or nothing changes. -/
inductive Split (fresh : Nat) : List Item → List Item → Prop
  | same (L : List Item) : Split fresh L L
  | leaf (P Q : List Item) (id : Nat) (next : Option Nat) (X Y : List (Text × Text))
      (key value : Text) :
      Split fresh (P ++ .leaf (leafOf id next (X ++ (key, value) :: Y)) :: Q)
        (P ++ .leaf (leafOf id (some fresh) X) :: .sep key ::
          .leaf (leafOf fresh next ((key, value) :: Y)) :: Q)

variable {fresh : Nat}

theorem Split.context (h : Split fresh L L') (A B : List Item) :
    Split fresh (A ++ L ++ B) (A ++ L' ++ B) := by
  cases h with
  | same => exact .same _
  | leaf P Q id next X Y key value =>
    simpa using Split.leaf (A ++ P) (Q ++ B) id next X Y key value

theorem Split.entries_eq (h : Split fresh L L') : entries L' = entries L := by
  cases h <;> simp

variable {k : Text}

theorem Split.sep_mem (h : Split fresh L L') (hk : .sep k ∈ L') :
    .sep k ∈ L ∨ k ∈ (entries L).map Prod.fst := by
  cases h with
  | same => exact .inl hk
  | leaf P Q id next X Y key value =>
    simp only [mem_append, mem_cons, reduceCtorEq, Item.sep.injEq, false_or] at hk
    rcases hk with hk | rfl | hk
    · exact .inl (by simp [hk])
    · exact .inr (by simp)
    · exact .inl (by simp [hk])

theorem Split.sorted (h : Split fresh L L') (hL : Sorted L) : Sorted L' := by
  cases h with
  | same => exact hL
  | leaf P Q id next X Y key value =>
    have hmarks : ((marks P ++ entryMarks X) ++
        .entry key value :: (entryMarks Y ++ marks Q)).Pairwise Before := by
      simpa [Sorted] using hL
    simpa [Sorted] using pairwise_sep hmarks

theorem Split.chained (h : Split fresh L L') (hL : Chained fresh L) : Chained (fresh + 1) L' := by
  cases h with
  | same => exact hL.mono (Nat.le_succ fresh)
  | leaf P Q id next X Y key value =>
    have hfresh : fresh ∉ ids P ++ id :: ids Q := fun hmem =>
      absurd (hL.bound fresh (by simpa [leafOf] using hmem)) (lt_irrefl fresh)
    have hids : ids (P ++ .leaf (leafOf id (some fresh) X) :: .sep key ::
        .leaf (leafOf fresh next ((key, value) :: Y)) :: Q) =
        (ids P ++ [id]) ++ fresh :: ids Q := by simp [leafOf]
    have hold : ids (P ++ .leaf (leafOf id next (X ++ (key, value) :: Y)) :: Q) =
        (ids P ++ [id]) ++ ids Q := by simp [leafOf]
    have hlinked : Linked (.leaf (leafOf id next (X ++ (key, value) :: Y)) :: Q) →
        Linked (.leaf (leafOf id (some fresh) X) :: .sep key ::
          .leaf (leafOf fresh next ((key, value) :: Y)) :: Q) := fun h => ⟨rfl, h⟩
    refine ⟨linked_append hlinked rfl hL.linked, ?_, ?_⟩
    · rw [hids, nodup_middle, nodup_cons, ← hold]
      refine ⟨?_, hL.nodup⟩
      rw [hold]
      simpa using hfresh
    · have hbound := hL.bound
      rw [hold] at hbound
      rw [hids]
      intro j hj
      rcases mem_append.mp hj with hj | hj
      · exact Nat.lt_succ_of_lt (hbound j (mem_append_left _ hj))
      · rcases mem_cons.mp hj with rfl | hj
        · exact Nat.lt_succ_self j
        · exact Nat.lt_succ_of_lt (hbound j (mem_append_right _ hj))

/-- Splits one after the other; each takes a number of its own. -/
def Splits : Nat × List Item → Nat × List Item → Prop :=
  Relation.ReflTransGen fun s t => t.1 = s.1 + 1 ∧ Split s.1 s.2 t.2

variable {t : Nat × List Item}

theorem Splits.cons (h : Split fresh L L') (h' : Splits (fresh + 1, L') t) : Splits (fresh, L) t :=
  Relation.ReflTransGen.head ⟨rfl, h⟩ h'

variable (h : Splits s t)

include h

theorem Splits.context (A B : List Item) : Splits (s.1, A ++ s.2 ++ B) (t.1, A ++ t.2 ++ B) :=
  Relation.ReflTransGen.lift (fun s : Nat × List Item => (s.1, A ++ s.2 ++ B))
    (fun _ _ hst => ⟨hst.1, hst.2.context A B⟩) _ _ h

theorem Splits.entries_eq : entries t.2 = entries s.2 := by
  induction h with
  | refl => rfl
  | tail _ hlast ih => exact hlast.2.entries_eq.trans ih

theorem Splits.sep_mem (hk : .sep k ∈ t.2) : .sep k ∈ s.2 ∨ k ∈ (entries s.2).map Prod.fst := by
  induction h with
  | refl => exact .inl hk
  | tail hinit hlast ih =>
    rcases hlast.2.sep_mem hk with hk | hk
    · exact ih hk
    · rw [Splits.entries_eq hinit] at hk
      exact .inr hk

theorem Splits.sorted (hs : Sorted s.2) : Sorted t.2 := by
  induction h with
  | refl => exact hs
  | tail _ hlast ih => exact hlast.2.sorted ih

theorem Splits.chained (hs : Chained s.1 s.2) : Chained t.1 t.2 := by
  induction h with
  | refl => exact hs
  | tail _ hlast ih =>
    rw [hlast.1]
    exact hlast.2.chained ih

end Splits

variable {clean : Prop}

section Rebalancing

/-- Neighbours share their entries anew or become one, or a separator takes the first
key to its right. An empty leaf has no first key; `clean` excludes it. -/
inductive Rebalance (clean : Prop) : List Item → List Item → Prop
  | borrow (P Q : List Item) (i j : Nat) (n m : Option Nat) (X Y X' Y' : List (Text × Text))
      (a key value : Text) (h : X ++ Y = X' ++ (key, value) :: Y') :
      Rebalance clean (P ++ .leaf (leafOf i n X) :: .sep a :: .leaf (leafOf j m Y) :: Q)
        (P ++ .leaf (leafOf i n X') :: .sep key :: .leaf (leafOf j m ((key, value) :: Y')) :: Q)
  | merge (P Q : List Item) (i j : Nat) (n m : Option Nat) (X Y : List (Text × Text)) (a : Text) :
      Rebalance clean (P ++ .leaf (leafOf i n X) :: .sep a :: .leaf (leafOf j m Y) :: Q)
        (P ++ .leaf (leafOf i m (X ++ Y)) :: Q)
  | refresh (P Q : List Item) (leaf : Leaf) (a b : Text)
      (h : clean → ∃ value es, leaf.entries = (b, value) :: es) :
      Rebalance clean (P ++ .sep a :: .leaf leaf :: Q) (P ++ .sep b :: .leaf leaf :: Q)

theorem Rebalance.context (h : Rebalance clean L L') (A B : List Item) :
    Rebalance clean (A ++ L ++ B) (A ++ L' ++ B) := by
  cases h with
  | borrow P Q i j n m X Y X' Y' a key value h =>
    simpa using Rebalance.borrow (A ++ P) (Q ++ B) i j n m X Y X' Y' a key value h
  | merge P Q i j n m X Y a =>
    simpa using Rebalance.merge (A ++ P) (Q ++ B) i j n m X Y a
  | refresh P Q leaf a b h =>
    simpa using Rebalance.refresh (A ++ P) (Q ++ B) leaf a b h

theorem Rebalance.entries_eq (h : Rebalance clean L L') : entries L' = entries L := by
  cases h with
  | borrow P Q i j n m X Y X' Y' a key value h =>
    simp only [entries_append, entries_leaf, entries_sep, entries_leafOf]
    rw [← append_assoc X Y, h]
    simp
  | merge => simp
  | refresh => simp

theorem sorted_merge {Q : List Item} {j : Nat} {n m : Option Nat} {X Y : List (Text × Text)}
    {a : Text} (i : Nat) (k : Option Nat)
    (h : Sorted (P ++ .leaf (leafOf i n X) :: .sep a :: .leaf (leafOf j m Y) :: Q)) :
    Sorted (P ++ .leaf (leafOf i k (X ++ Y)) :: Q) := by
  have hmarks : ((marks P ++ entryMarks X) ++ .sep a :: (entryMarks Y ++ marks Q)).Pairwise
      Before := by simpa [Sorted] using h
  simpa [Sorted] using pairwise_of_cons hmarks

theorem Rebalance.sorted (h : Rebalance clean L L') (hclean : clean) (hL : Sorted L) :
    Sorted L' := by
  cases h with
  | borrow P Q i j n m X Y X' Y' a key value h =>
    have hmerged := sorted_merge i m hL
    rw [h] at hmerged
    have hmarks : ((marks P ++ entryMarks X') ++
        .entry key value :: (entryMarks Y' ++ marks Q)).Pairwise Before := by
      simpa [Sorted] using hmerged
    simpa [Sorted] using pairwise_sep hmarks
  | merge P Q i j n m X Y a => exact sorted_merge i m hL
  | refresh P Q leaf a b h =>
    obtain ⟨value, es, hes⟩ := h hclean
    simp only [Sorted, marks_append, marks_leaf, marks_sep, hes, entryMarks_cons,
      cons_append] at hL ⊢
    exact pairwise_sep (pairwise_of_cons hL)

variable {clean' : Prop}

theorem Rebalance.chained (h : Rebalance clean L L') (hL : Chained f L) : Chained f L' := by
  cases h with
  | borrow => exact hL.congr rfl id
  | merge P Q i j n m X Y a =>
    have hids : ids (P ++ .leaf (leafOf i m (X ++ Y)) :: Q) = ids P ++ i :: ids Q := by
      simp [leafOf]
    have hold : ids (P ++ .leaf (leafOf i n X) :: .sep a :: .leaf (leafOf j m Y) :: Q) =
        ids P ++ i :: j :: ids Q := by simp [leafOf]
    have hsub : (ids P ++ i :: ids Q).Sublist (ids P ++ i :: j :: ids Q) :=
      ((sublist_cons_self j _).cons_cons i).append_left _
    have hlinked : Linked (.leaf (leafOf i n X) :: .sep a :: .leaf (leafOf j m Y) :: Q) →
        Linked (.leaf (leafOf i m (X ++ Y)) :: Q) := fun h => h.2
    refine ⟨linked_append hlinked rfl hL.linked, ?_, ?_⟩
    · rw [hids]
      exact (hold ▸ hL.nodup).sublist hsub
    · rw [hids]
      exact fun id hid => hL.bound id (hold ▸ hsub.subset hid)
  | refresh => exact hL.congr rfl id

theorem Rebalance.mono (hclean : clean' → clean) (h : Rebalance clean L L') :
    Rebalance clean' L L' := by
  cases h with
  | borrow P Q i j n m X Y X' Y' a key value h => exact .borrow P Q i j n m X Y X' Y' a key value h
  | merge P Q i j n m X Y a => exact .merge P Q i j n m X Y a
  | refresh P Q leaf a b h => exact .refresh P Q leaf a b fun hc => h (hclean hc)

def Rebalances (clean : Prop) : List Item → List Item → Prop :=
  Relation.ReflTransGen (Rebalance clean)

theorem Rebalances.mono (hclean : clean' → clean) (h : Rebalances clean L L') :
    Rebalances clean' L L' :=
  Relation.ReflTransGen.mono (fun _ _ hstep => Rebalance.mono hclean hstep) _ _ h

variable (h : Rebalances clean L L')

include h

theorem Rebalances.context (A B : List Item) : Rebalances clean (A ++ L ++ B) (A ++ L' ++ B) :=
  Relation.ReflTransGen.lift (fun L => A ++ L ++ B) (fun _ _ hstep => hstep.context A B) _ _ h

theorem Rebalances.entries_eq : entries L' = entries L := by
  induction h with
  | refl => rfl
  | tail _ hlast ih => exact hlast.entries_eq.trans ih

theorem Rebalances.sorted (hclean : clean) (hL : Sorted L) : Sorted L' := by
  induction h with
  | refl => exact hL
  | tail _ hlast ih => exact hlast.sorted hclean ih

theorem Rebalances.chained (hL : Chained f L) : Chained f L' := by
  induction h with
  | refl => exact hL
  | tail _ hlast ih => exact hlast.chained ih

end Rebalancing

section Edits

/-- An entry comes into one of the leaves after some splits. When `good` holds, it
comes to its place. -/
inductive Inserts (key value : Text) (good : Prop) (s : Nat × List Item) (f : Nat)
    (L : List Item) : Prop
  | intro (A B : List Item) (id : Nat) (next : Option Nat) (X Y : List (Text × Text))
      (splits : Splits s (f, A ++ .leaf (leafOf id next (X ++ Y)) :: B))
      (result : L = A ++ .leaf (leafOf id next (X ++ (key, value) :: Y)) :: B)
      (around : good → Sorted s.2 → Around key A B)
      (placed : Sorted s.2 → (∀ e ∈ X, e.1 < key) ∧ ∀ e ∈ Y, key ≤ e.1)

/-- An entry goes out of its leaf, and the neighbours are rebalanced. -/
inductive Deletes (key : Text) (clean : Prop) (L L' : List Item) : Prop
  | intro (A B : List Item) (id : Nat) (next : Option Nat) (X Y : List (Text × Text))
      (value : Text) (start : L = A ++ .leaf (leafOf id next (X ++ (key, value) :: Y)) :: B)
      (rebalances : Rebalances clean (A ++ .leaf (leafOf id next (X ++ Y)) :: B) L')

variable {value : Text} {good good' : Prop}
variable {A B : List Item}

/-- An insertion in a part of a sequence, once the place of the key is known to be there. -/
theorem Inserts.descend {n : Nat} {L₀ : List Item} (hsplit : Split n L₀ (A ++ L ++ B))
    (h : Inserts key value good (n + 1, L) f L') (hgood : good' → good)
    (haround : good' → Sorted L₀ → Around key A B) :
    Inserts key value good' (n, L₀) f (A ++ L' ++ B) := by
  obtain ⟨A', B', id, next, X, Y, splits, rfl, around, placed⟩ := h
  have hpart : Sorted L₀ → Sorted L := fun hsorted => sorted_of_append (hsplit.sorted hsorted)
  refine .intro (A ++ A') (B' ++ B) id next X Y (Splits.cons hsplit ?_) (by simp) ?_ ?_
  · simpa using splits.context A B
  · exact fun hg hsorted =>
      around_append (haround hg hsorted) (around (hgood hg) (hpart hsorted))
  · exact fun hsorted => placed (hpart hsorted)

section

variable (h : Inserts key value good s f L')

include h

theorem Inserts.entries_eq : ∃ E F, entries s.2 = E ++ F ∧ entries L' = E ++ (key, value) :: F := by
  obtain ⟨A, B, id, next, X, Y, splits, rfl, -⟩ := h
  refine ⟨entries A ++ X, Y ++ entries B, ?_, by simp⟩
  rw [← splits.entries_eq]
  simp

theorem Inserts.sep_mem {k : Text} (hk : .sep k ∈ L') :
    .sep k ∈ s.2 ∨ k ∈ (entries s.2).map Prod.fst := by
  obtain ⟨A, B, id, next, X, Y, splits, rfl, -⟩ := h
  refine splits.sep_mem ?_
  simpa using hk

theorem Inserts.sorted (hgood : good)
    (habsent : key ∉ (entries s.2).map Prod.fst) (hs : Sorted s.2) : Sorted L' := by
  obtain ⟨A, B, id, next, X, Y, splits, rfl, around, placed⟩ := h
  have haround := around hgood hs
  obtain ⟨hX, hY⟩ := placed hs
  have hmarks : ((marks A ++ entryMarks X) ++ (entryMarks Y ++ marks B)).Pairwise Before := by
    simpa [Sorted] using splits.sorted hs
  have hleft : ∀ m ∈ marks A ++ entryMarks X, Before m (.entry key value) := by
    rw [forall_mem_append, entryMarks, forall_mem_map]
    exact ⟨fun m hm => by cases m <;> exact haround.left _ hm, hX⟩
  have hright : ∀ m ∈ entryMarks Y ++ marks B, Before (.entry key value) m := by
    rw [forall_mem_append, entryMarks, forall_mem_map]
    refine ⟨fun e he => lt_of_le_of_ne (hY e he) ?_, haround.right⟩
    rintro rfl
    refine habsent (mem_map_of_mem ?_)
    rw [← splits.entries_eq]
    simp [he]
  simpa [Sorted] using pairwise_entry hmarks hleft hright

theorem Inserts.chained (hs : Chained s.1 s.2) : Chained f L' := by
  obtain ⟨A, B, id, next, X, Y, splits, rfl, -⟩ := h
  exact (splits.chained hs).congr rfl fun h => h

end

theorem sorted_update {id : Nat} {next : Option Nat} {X Y : List (Text × Text)} {old : Text}
    (value : Text) (h : Sorted (A ++ .leaf (leafOf id next (X ++ (key, old) :: Y)) :: B)) :
    Sorted (A ++ .leaf (leafOf id next (X ++ (key, value) :: Y)) :: B) := by
  have hmarks : ((marks A ++ entryMarks X) ++
      .entry key old :: (entryMarks Y ++ marks B)).Pairwise Before := by
    simpa [Sorted] using h
  obtain ⟨-, hright, hleft⟩ := pairwise_append.mp hmarks
  have hbefore : ∀ m ∈ marks A ++ entryMarks X, Before m (.entry key value) := fun m hm => by
    have hold := hleft m hm (.entry key old) (mem_cons_self ..)
    cases m <;> exact hold
  simpa [Sorted] using pairwise_entry (pairwise_of_cons hmarks) hbefore
    (pairwise_cons.mp hright).1

theorem Deletes.context (h : Deletes key clean L L') (A B : List Item) :
    Deletes key clean (A ++ L ++ B) (A ++ L' ++ B) := by
  obtain ⟨A', B', id, next, X, Y, value, rfl, rebalances⟩ := h
  refine .intro (A ++ A') (B' ++ B) id next X Y value (by simp) ?_
  simpa using rebalances.context A B

theorem Deletes.mono {clean' : Prop} (hclean : clean' → clean) (h : Deletes key clean L L') :
    Deletes key clean' L L' := by
  obtain ⟨A, B, id, next, X, Y, value, rfl, rebalances⟩ := h
  exact .intro A B id next X Y value rfl (rebalances.mono hclean)

variable (h : Deletes key clean L L')

include h

theorem Deletes.rebalance {L₂ : List Item}
    (hstep : Rebalances clean L' L₂) : Deletes key clean L L₂ := by
  obtain ⟨A, B, id, next, X, Y, value, rfl, rebalances⟩ := h
  exact .intro A B id next X Y value rfl (rebalances.trans hstep)

theorem Deletes.entries_eq :
    ∃ E F value, entries L = E ++ (key, value) :: F ∧ entries L' = E ++ F := by
  obtain ⟨A, B, id, next, X, Y, value, rfl, rebalances⟩ := h
  refine ⟨entries A ++ X, Y ++ entries B, value, by simp, ?_⟩
  rw [rebalances.entries_eq]
  simp

theorem Deletes.sorted (hclean : clean) (hL : Sorted L) : Sorted L' := by
  obtain ⟨A, B, id, next, X, Y, value, rfl, rebalances⟩ := h
  refine rebalances.sorted hclean ?_
  have hmarks : ((marks A ++ entryMarks X) ++
      .entry key value :: (entryMarks Y ++ marks B)).Pairwise Before := by
    simpa [Sorted] using hL
  simpa [Sorted] using pairwise_of_cons hmarks

theorem Deletes.chained (hL : Chained f L) : Chained f L' := by
  obtain ⟨A, B, id, next, X, Y, value, rfl, rebalances⟩ := h
  exact rebalances.chained (hL.congr rfl fun h => h)

end Edits

end LiteDB.BTreeSequences
