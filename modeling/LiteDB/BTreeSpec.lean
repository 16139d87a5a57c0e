import LiteDB.BTreeSequences

namespace LiteDB.BTreeSpec

open Bisection BTree BTreeSequences IndexedLists
open List hiding merge
open VersionKeys (Text)

variable {C : Type} {ks ks' : List Text} {cs cs' : List C} {c : C} {k : Text}

section Weave

variable (f : C → List Item)

/-- Separators, each followed by the child to its right. -/
def after (keys : List Text) (children : List C) : List Item :=
  (keys.zip children).flatMap fun e => .sep e.1 :: f e.2

/-- Children, each followed by the separator to its right. -/
def before (children : List C) (keys : List Text) : List Item :=
  (children.zip keys).flatMap fun e => f e.1 ++ [.sep e.2]

def weave (keys : List Text) : List C → List Item
  | [] => []
  | c :: children => f c ++ after f keys children

variable {f}

theorem after_cons (h : cs ≠ []) : after f (k :: ks) cs = .sep k :: weave f ks cs := by
  cases cs with
  | nil => exact absurd rfl h
  | cons c cs => rfl

theorem before_concat (h : cs.length = ks.length) :
    before f (cs ++ [c]) (ks ++ [k]) = before f cs ks ++ f c ++ [.sep k] := by
  simp [before, zip_append h]

theorem weave_append (h : cs.length = ks.length) :
    weave f (ks ++ ks') (cs ++ c :: cs') = before f cs ks ++ f c ++ after f ks' cs' := by
  induction cs generalizing ks with
  | nil =>
    obtain rfl : ks = [] := eq_nil_of_length_eq_zero h.symm
    rfl
  | cons d cs ih =>
    cases ks with
    | nil => cases h
    | cons k ks =>
      have hrest := ih (Nat.succ.inj h)
      have hne : cs ++ c :: cs' ≠ [] := by simp
      change f d ++ after f (k :: (ks ++ ks')) (cs ++ c :: cs') = _
      rw [after_cons hne, hrest]
      simp [before]

section

variable (h : cs.length = ks.length + 1)

include h

theorem weave_split (hne : cs' ≠ []) :
    weave f (ks ++ k :: ks') (cs ++ cs') = weave f ks cs ++ .sep k :: weave f ks' cs' := by
  rcases eq_nil_or_concat' cs with rfl | ⟨cs, c, rfl⟩
  · cases h
  · have hlen : cs.length = ks.length := by simpa using h
    have hleft : weave f (ks ++ []) (cs ++ [c]) = before f cs ks ++ f c ++ after f [] [] :=
      weave_append hlen
    have hnone : after f [] [] = [] := rfl
    rw [append_nil, hnone, append_nil] at hleft
    rw [append_assoc, singleton_append, weave_append hlen, after_cons hne, hleft]

theorem sublist_marks_weave : (ks.map Mark.sep).Sublist (marks (weave f ks cs)) := by
  induction cs generalizing ks with
  | nil => cases h
  | cons c cs ih =>
    cases ks with
    | nil => simp
    | cons k ks =>
      have hne : cs ≠ [] := by
        rintro rfl
        simp at h
      change (Mark.sep k :: ks.map Mark.sep).Sublist (marks (f c ++ after f (k :: ks) cs))
      rw [after_cons hne, marks_append, marks_sep]
      exact ((ih (by simpa using h)).cons_cons _).trans (sublist_append_right _ _)

theorem sep_mem_weave (hk : k ∈ ks) : .sep k ∈ weave f ks cs := by
  obtain ⟨A, B, rfl⟩ := append_of_mem hk
  obtain ⟨cs, c, cs', rfl, hcs⟩ := exists_middle (l := cs) (i := A.length) (by simp at h; omega)
  have hne : cs' ≠ [] := by
    rintro rfl
    simp at h
    omega
  rw [weave_append hcs.symm, after_cons hne]
  simp

theorem pairwise_keys (hsorted : Sorted (weave f ks cs)) : ks.Pairwise (· ≤ ·) := by
  have hmarks : (ks.map Mark.sep).Pairwise Before := hsorted.sublist (sublist_marks_weave h)
  rw [pairwise_map] at hmarks
  exact hmarks

end

/-- The separators next to a child tell the place of a key from the rest of the node. -/
theorem around_of_keys {key : Text} (h : cs.length = ks.length) (h' : cs'.length = ks'.length)
    (hsorted : Sorted (weave f (ks ++ ks') (cs ++ c :: cs'))) (hks : ∀ k ∈ ks, k ≤ key)
    (hks' : ∀ k ∈ ks', key < k) : Around key (before f cs ks) (after f ks' cs') := by
  rw [weave_append h, Sorted, marks_append, marks_append, pairwise_append] at hsorted
  constructor
  · rcases eq_nil_or_concat' ks with rfl | ⟨ks, k, rfl⟩
    · simp [before]
    · rcases eq_nil_or_concat' cs with rfl | ⟨cs, c, rfl⟩
      · simp at h
      · have hbefore := (pairwise_append.mp hsorted.1).1
        rw [before_concat (by simpa using h), marks_append, marks_sep, marks_nil] at hbefore ⊢
        have hk : k ≤ key := hks k (by simp)
        intro m hm
        rcases mem_append.mp hm with hm | hm
        · exact before_of_before_sep
            ((pairwise_append.mp hbefore).2.2 m hm _ (mem_singleton_self _)) hk
        · obtain rfl := mem_singleton.mp hm
          exact hk
  · cases ks' with
    | nil => simp [after]
    | cons k ks' =>
      have hne : cs' ≠ [] := by
        rintro rfl
        cases h'
      have hafter := hsorted.2.1
      rw [after_cons hne, marks_sep] at hafter ⊢
      have hk : key < k := hks' k (mem_cons_self ..)
      rw [forall_mem_cons]
      exact ⟨hk, fun m hm => lt_of_lt_of_le hk ((pairwise_cons.mp hafter).1 m hm)⟩

end Weave

variable {h : Nat}

def seq : (h : Nat) → Node h → List Item
  | 0, leaf => [.leaf leaf]
  | h + 1, (node : Internal (Node h)) => weave (seq h) node.keys node.children

/-- A leaf has as many values as keys, an inner node one more child than keys. -/
def Shaped : (h : Nat) → Node h → Prop
  | 0, (leaf : Leaf) => leaf.values.length = leaf.keys.length
  | h + 1, (node : Internal (Node h)) =>
      node.children.length = node.keys.length + 1 ∧ ∀ c ∈ node.children, Shaped h c

/-- Every node has at most `2 * order - 1` keys. -/
def Capped (order : Nat) : (h : Nat) → Node h → Prop
  | 0, (leaf : Leaf) => leaf.keys.length ≤ 2 * order - 1
  | h + 1, (node : Internal (Node h)) =>
      node.keys.length ≤ 2 * order - 1 ∧ ∀ c ∈ node.children, Capped order h c

def Roomy (order h : Nat) (node : Node h) : Prop :=
  Capped order h node ∧ (keysOf h node).length < 2 * order - 1

theorem leaves_seq {node : Node h} (hshape : Shaped h node) :
    leaves (seq h node) = leavesOf h node := by
  induction h with
  | zero => rfl
  | succ h ih =>
    obtain ⟨keys, children⟩ := node
    obtain ⟨hlen, hall⟩ := hshape
    change leaves (weave (seq h) keys children) = children.flatMap (leavesOf h)
    change children.length = keys.length + 1 at hlen
    change ∀ c ∈ children, Shaped h c at hall
    induction children generalizing keys with
    | nil => rfl
    | cons c children ihc =>
      rw [forall_mem_cons] at hall
      change leaves (seq h c ++ after (seq h) keys children) = _
      rw [leaves_append, ih hall.1, flatMap_cons]
      cases keys with
      | nil =>
        obtain rfl : children = [] := by simpa using hlen
        rfl
      | cons k keys =>
        have hne : children ≠ [] := by
          rintro rfl
          simp at hlen
        rw [after_cons hne, leaves_sep, ihc keys (by simpa using hlen) hall.2]

theorem exists_at {node : Internal C} {idx : Nat}
    (hlen : node.children.length = node.keys.length + 1) (hidx : idx ≤ node.keys.length) :
    ∃ ks ks' cs c cs', node = ⟨ks ++ ks', cs ++ c :: cs'⟩ ∧ cs.length = idx ∧
      cs.length = ks.length ∧ cs'.length = ks'.length := by
  obtain ⟨keys, children⟩ := node
  dsimp only at hlen hidx
  have hlt : idx < children.length := by omega
  refine ⟨keys.take idx, keys.drop idx, children.take idx, children[idx],
    children.drop (idx + 1), ?_, ?_, ?_, ?_⟩
  · rw [take_append_drop, ← drop_eq_getElem_cons hlt, take_append_drop]
  · simp only [length_take]
    omega
  · simp only [length_take]
    omega
  · simp only [length_drop]
    omega

theorem shaped_replace {keys keys' : List Text} {cs cs' : List (Node h)} (ds ds' : List (Node h))
    (hshape : Shaped (h + 1) (⟨keys, cs ++ (ds ++ cs')⟩ : Internal (Node h)))
    (hlen : ds'.length + keys.length = ds.length + keys'.length) (hds : ∀ d ∈ ds', Shaped h d) :
    Shaped (h + 1) (⟨keys', cs ++ (ds' ++ cs')⟩ : Internal (Node h)) := by
  obtain ⟨hchildren, hall⟩ := hshape
  simp only [length_append] at hchildren
  refine ⟨?_, ?_⟩
  · simp only [length_append]
    omega
  · simp only [forall_mem_append] at hall ⊢
    exact ⟨hall.1, hds, hall.2.2⟩

theorem capped_replace {order : Nat} {keys keys' : List Text} {cs cs' : List (Node h)}
    (ds ds' : List (Node h))
    (hcap : Capped order (h + 1) (⟨keys, cs ++ (ds ++ cs')⟩ : Internal (Node h)))
    (hlen : keys'.length ≤ 2 * order - 1) (hds : ∀ d ∈ ds', Capped order h d) :
    Capped order (h + 1) (⟨keys', cs ++ (ds' ++ cs')⟩ : Internal (Node h)) := by
  obtain ⟨-, hall⟩ := hcap
  refine ⟨hlen, ?_⟩
  simp only [forall_mem_append] at hall ⊢
  exact ⟨hall.1, hds, hall.2.2⟩

section Leaves

variable {id : Nat} {next : Option Nat} {X Y : List (Text × Text)} {idx : Nat}

theorem exists_leafOf {leaf : Leaf} (h : Shaped 0 leaf) : ∃ id next es, leaf = leafOf id next es :=
  ⟨leaf.id, leaf.next, leaf.entries, (leafOf_entries h).symm⟩

theorem shaped_leafOf (id : Nat) (next : Option Nat) (es : List (Text × Text)) :
    Shaped 0 (leafOf id next es) := by
  simp [Shaped, leafOf]

theorem insertIdx_leafOf {key value : Text} (h : idx = X.length) :
    (⟨id, (leafOf id next (X ++ Y)).keys.insertIdx idx key,
      (leafOf id next (X ++ Y)).values.insertIdx idx value, next⟩ : Leaf) =
      leafOf id next (X ++ (key, value) :: Y) := by
  have hkeys : idx = (X.map Prod.fst).length := by simpa using h
  have hvalues : idx = (X.map Prod.snd).length := by simpa using h
  simp only [leafOf, map_append, insertIdx_middle hkeys, insertIdx_middle hvalues, map_cons]

theorem eraseIdx_leafOf {key value : Text} (h : idx = X.length) :
    (⟨id, (leafOf id next (X ++ (key, value) :: Y)).keys.eraseIdx idx,
      (leafOf id next (X ++ (key, value) :: Y)).values.eraseIdx idx, next⟩ : Leaf) =
      leafOf id next (X ++ Y) := by
  have hkeys : idx = (X.map Prod.fst).length := by simpa using h
  have hvalues : idx = (X.map Prod.snd).length := by simpa using h
  simp only [leafOf, map_append, map_cons, eraseIdx_middle hkeys, eraseIdx_middle hvalues]

theorem set_leafOf {key old value : Text} (h : idx = X.length) :
    (⟨id, (leafOf id next (X ++ (key, old) :: Y)).keys,
      (leafOf id next (X ++ (key, old) :: Y)).values.set idx value, next⟩ : Leaf) =
      leafOf id next (X ++ (key, value) :: Y) := by
  have hvalues : idx = (X.map Prod.snd).length := by simpa using h
  simp only [leafOf, map_append, map_cons, set_middle hvalues]

variable {es : List (Text × Text)}

theorem exists_of_find {key : Text} (h : (leafOf id next es).find key = some idx) :
    bisectLeft (leafOf id next es).keys key = idx ∧
      ∃ X value Y, es = X ++ (key, value) :: Y ∧ idx = X.length := by
  simp only [Leaf.find] at h
  split at h <;> cases h
  rename_i hget
  refine ⟨rfl, ?_⟩
  generalize bisectLeft (leafOf id next es).keys key = idx at hget
  rw [leafOf, getElem?_map, Option.map_eq_some_iff] at hget
  obtain ⟨⟨k, value⟩, he, rfl⟩ := hget
  obtain ⟨X, e, Y, rfl, hX⟩ := exists_middle (lt_length_of_getElem? he)
  rw [getElem?_middle hX] at he
  cases he
  exact ⟨X, value, Y, rfl, hX⟩

theorem placed_of_sorted (key : Text) (hsorted : es.Pairwise fun e f => e.1 < f.1) :
    (∀ e ∈ es.take (bisectLeft (es.map Prod.fst) key), e.1 < key) ∧
      ∀ e ∈ es.drop (bisectLeft (es.map Prod.fst) key), key ≤ e.1 := by
  have hkeys : (es.map Prod.fst).Pairwise (· ≤ ·) :=
    pairwise_map.mpr (hsorted.imp fun h => le_of_lt h)
  have hspec := bisectLeft_spec key hkeys
  rw [← map_take, ← map_drop, forall_mem_map, forall_mem_map] at hspec
  exact hspec

theorem not_mem_of_find {key : Text} (hsorted : es.Pairwise fun e f => e.1 < f.1)
    (h : (leafOf id next es).find key = none) : key ∉ es.map Prod.fst := by
  obtain ⟨hleft, hright⟩ := placed_of_sorted key hsorted
  have hget : (es.map Prod.fst)[bisectLeft (es.map Prod.fst) key]? ≠ some key := fun hget => by
    simp [Leaf.find, leafOf, hget] at h
  generalize bisectLeft (es.map Prod.fst) key = idx at hget hleft hright
  intro hmem
  obtain ⟨e, he, hkey⟩ := mem_map.mp hmem
  rw [← take_append_drop idx es, mem_append] at he
  rcases he with he | he
  · exact absurd hkey (ne_of_lt (hleft e he))
  · -- the first entry from the position on is the least one that is not below the key
    cases hdrop : es.drop idx with
    | nil =>
      rw [hdrop] at he
      cases he
    | cons first rest =>
      have hfirst : es[idx]? = some first := by
        rw [← head?_drop, hdrop, head?_cons]
      rw [getElem?_map, hfirst] at hget
      have hpairs := hsorted.sublist (drop_sublist idx es)
      rw [hdrop] at hpairs he hright
      rcases mem_cons.mp he with rfl | he
      · exact hget (congrArg some hkey)
      · have hlt := (pairwise_cons.mp hpairs).1 e he
        rw [hkey] at hlt
        exact absurd (hright first (mem_cons_self ..)) (not_le_of_gt hlt)

end Leaves

variable {key : Text} {node : Node h} {A B : List Item} {l : Leaf}

/-- The way of a search to a leaf, with what lies to the left and to the right of it. -/
inductive Path (key : Text) : (h : Nat) → Node h → List Item → Leaf → List Item → Prop
  | leaf (l : Leaf) : Path key 0 l [] l []
  | child {h : Nat} {ks ks' : List Text} {cs cs' : List (Node h)} {c : Node h}
      {A B : List Item} {l : Leaf} (hidx : bisectRight (ks ++ ks') key = cs.length)
      (hlen : cs.length = ks.length) (hlen' : cs'.length = ks'.length)
      (path : Path key h c A l B) :
      Path key (h + 1) (⟨ks ++ ks', cs ++ c :: cs'⟩ : Internal (Node h))
        (before (seq h) cs ks ++ A) l (B ++ after (seq h) ks' cs')

theorem exists_path (key : Text) (hshape : Shaped h node) :
    ∃ A l B, Path key h node A l B ∧ Shaped 0 l := by
  induction h with
  | zero => exact ⟨[], node, [], .leaf node, hshape⟩
  | succ h ih =>
    obtain ⟨hlen, hall⟩ := hshape
    obtain ⟨ks, ks', cs, c, cs', rfl, hcs, hks, hks'⟩ :=
      exists_at hlen (bisectRight_le_length key node.keys)
    obtain ⟨A, l, B, hpath, hl⟩ := ih (hall c (by simp))
    exact ⟨_, l, _, .child hcs.symm hks hks' hpath, hl⟩

theorem Path.seq_eq (hpath : Path key h node A l B) : seq h node = A ++ .leaf l :: B := by
  induction hpath with
  | leaf l => rfl
  | child hidx hlen hlen' path ih =>
    rw [seq, weave_append hlen, ih]
    simp

section Bisect

variable {f : C → List Item}
variable (hidx : bisectRight (ks ++ ks') key = cs.length) (hlen : cs.length = ks.length)
variable (hlen' : cs'.length = ks'.length)
variable (hsorted : Sorted (weave f (ks ++ ks') (cs ++ c :: cs')))

include hidx hlen hlen' hsorted

theorem keys_of_bisect : (∀ k ∈ ks, k ≤ key) ∧ ∀ k ∈ ks', key < k := by
  have hkeys : (ks ++ ks').Pairwise (· ≤ ·) := by
    refine pairwise_keys ?_ hsorted
    simp only [length_append, length_cons]
    omega
  have hspec := bisectRight_spec key hkeys
  rw [hidx, hlen, take_left, drop_left] at hspec
  exact hspec

theorem around_of_bisect : Around key (before f cs ks) (after f ks' cs') := by
  obtain ⟨hks, hks'⟩ := keys_of_bisect hidx hlen hlen' hsorted
  exact around_of_keys hlen hlen' hsorted hks hks'

end Bisect

theorem Path.around (hpath : Path key h node A l B) (hsorted : Sorted (seq h node)) :
    Around key A B := by
  induction hpath with
  | leaf l => exact ⟨by simp, by simp⟩
  | child hidx hlen hlen' path ih =>
    have hsorted' := hsorted
    rw [seq, weave_append hlen] at hsorted'
    exact around_append (around_of_bisect hidx hlen hlen' hsorted) (ih (sorted_of_append hsorted'))

theorem Path.findLeaf_eq (hpath : Path key h node A l B) : findLeaf key h node = some l := by
  induction hpath with
  | leaf l => rfl
  | child hidx hlen hlen' path ih =>
    simp only [findLeaf, getElem?_middle hidx]
    exact ih

theorem shaped_child {cs cs' : List (Node h)} {c c' : Node h}
    (hshape : Shaped (h + 1) (⟨ks, cs ++ c :: cs'⟩ : Internal (Node h))) (hc : Shaped h c') :
    Shaped (h + 1) (⟨ks, cs ++ c' :: cs'⟩ : Internal (Node h)) :=
  shaped_replace [c] [c'] hshape rfl (forall_mem_singleton.mpr hc)

theorem capped_child {order : Nat} {cs cs' : List (Node h)} {c c' : Node h}
    (hcap : Capped order (h + 1) (⟨ks, cs ++ c :: cs'⟩ : Internal (Node h)))
    (hc : Capped order h c') : Capped order (h + 1) (⟨ks, cs ++ c' :: cs'⟩ : Internal (Node h)) :=
  capped_replace [c] [c'] hcap hcap.1 (forall_mem_singleton.mpr hc)

theorem Path.updateLeaf_eq (hpath : Path key h node A l B) (hshape : Shaped h node) (value : Text) :
    ∃ node', updateLeaf key value h node = some node' ∧ Shaped h node' ∧
      (∀ order, Capped order h node → Capped order h node') ∧
      seq h node' =
        A ++ .leaf { l with values := l.values.set (bisectLeft l.keys key) value } :: B := by
  induction hpath with
  | leaf l =>
    refine ⟨_, rfl, ?_, fun _ hcap => hcap, rfl⟩
    change (l.values.set (bisectLeft l.keys key) value).length = l.keys.length
    rw [length_set]
    exact hshape
  | child hidx hlen hlen' path ih =>
    obtain ⟨c', hc', hshape', hkeep, hseq⟩ := ih (hshape.2 _ (by simp))
    refine ⟨_, ?_, shaped_child hshape hshape', fun order hcap =>
      capped_child hcap (hkeep order (hcap.2 _ (by simp))), ?_⟩
    · simp only [updateLeaf, getElem?_middle hidx, Option.bind_eq_bind, Option.bind_some, hc',
        set_middle hidx]
      rfl
    · rw [seq, weave_append hlen, hseq]
      simp

variable {order : Nat} {cs cs' : List (Node h)} {c : Node h}

section Insertion

variable {fresh : Nat} {value : Text}

theorem roomy_of_not_full (hcap : Capped order h node) (hfull : isFull order h node ≠ true) :
    Roomy order h node := by
  rw [isFull, ne_eq, decide_eq_true_eq, not_le] at hfull
  exact ⟨hcap, hfull⟩

theorem splitNode_spec (fresh : Nat) (horder : 2 ≤ order) (hshape : Shaped h node)
    (hfull : isFull order h node = true) :
    ∃ l m r, splitNode order fresh h node = some (l, m, r) ∧ Shaped h l ∧ Shaped h r ∧
      (Capped order h node → Roomy order h l ∧ Roomy order h r) ∧
      Split fresh (seq h node) (seq h l ++ .sep m :: seq h r) := by
  cases h with
  | zero =>
    obtain ⟨id, next, es, rfl⟩ := exists_leafOf hshape
    have hlt : order < es.length := by
      have hlen : 2 * order - 1 ≤ es.length := by simpa [isFull, keysOf, leafOf] using hfull
      omega
    obtain ⟨X, ⟨m, v⟩, Y, rfl, rfl⟩ := exists_middle hlt
    refine ⟨leafOf id (some fresh) X, m, leafOf fresh next ((m, v) :: Y), ?_,
      shaped_leafOf .., shaped_leafOf .., fun hcap => ?_, .leaf [] [] id next X Y m v⟩
    · have hlenX : (X.map Prod.fst).length = X.length := by simp
      have hlenX' : (X.map Prod.snd).length = X.length := by simp
      simp only [splitNode, leafOf, map_append, map_cons, drop_left' hlenX,
        take_left' hlenX, drop_left' hlenX', take_left' hlenX']
      rfl
    · simp only [Capped, Roomy, keysOf, leafOf, length_map, length_append, length_cons] at hcap ⊢
      omega
  | succ h =>
    obtain ⟨keys, children⟩ := node
    obtain ⟨hlen, hall⟩ := hshape
    change children.length = keys.length + 1 at hlen
    change ∀ c ∈ children, Shaped h c at hall
    have hkeys : 2 * order - 1 ≤ keys.length := by simpa [isFull, keysOf] using hfull
    obtain ⟨ks, m, ks', rfl, hks⟩ := exists_middle (l := keys) (i := order - 1) (by omega)
    obtain ⟨cs, c, cs', rfl, hcs⟩ := exists_middle (l := children) (i := order) (by omega)
    simp only [length_append, length_cons] at hlen
    refine ⟨(⟨ks, cs⟩ : Internal (Node h)), m, (⟨ks', c :: cs'⟩ : Internal (Node h)), ?_,
      ⟨?_, fun d hd => hall d (mem_append_left _ hd)⟩,
      ⟨?_, fun d hd => hall d (mem_append_right _ hd)⟩, ?_, ?_⟩
    · have horder' : order = ks.length + 1 := by omega
      have hdrop : (ks ++ m :: ks').drop order = ks' := by
        rw [horder', append_cons, drop_left' (by simp)]
      simp only [splitNode, getElem?_middle hks, take_left' hks.symm,
        take_left' hcs.symm, drop_left' hcs.symm, hdrop]
      rfl
    · change cs.length = ks.length + 1
      omega
    · change (c :: cs').length = ks'.length + 1
      rw [length_cons]
      omega
    · rintro ⟨hle, hcap⟩
      simp only [length_append, length_cons, forall_mem_append] at hle hcap
      simp only [Roomy, Capped, keysOf]
      exact ⟨⟨⟨by omega, hcap.1⟩, by omega⟩, ⟨by omega, hcap.2⟩, by omega⟩
    · have hseq : seq (h + 1) (⟨ks ++ m :: ks', cs ++ c :: cs'⟩ : Internal (Node h)) =
          seq (h + 1) (⟨ks, cs⟩ : Internal (Node h)) ++ .sep m ::
            seq (h + 1) (⟨ks', c :: cs'⟩ : Internal (Node h)) :=
        weave_split (by omega) (cons_ne_nil c cs')
      rw [hseq]
      exact .same _

/-- A split on the way down moves the key itself up. -/
def movesUp (order : Nat) (key : Text) : Nat → (h : Nat) → Node h → Bool
  | _, 0, _ => false
  | fresh, h + 1, (node : Internal (Node h)) =>
      match prepareChild order fresh node key with
      | some (node', idx) =>
          node'.keys[bisectRight node.keys key]? = some key ||
            (node'.children[idx]?).any (movesUp order key (fresh + 1) h)
      | none => false

section Prepare

variable {l r : Node h} {m : Text}
variable (hidx : bisectRight (ks ++ ks') key = cs.length) (hks : cs.length = ks.length)

include hidx hks in
theorem prepareChild_of_full (hfull : isFull order h c = true)
    (hsplit : splitNode order fresh h c = some (l, m, r)) :
    prepareChild order fresh ⟨ks ++ ks', cs ++ c :: cs'⟩ key =
      some (⟨ks ++ m :: ks', cs ++ l :: r :: cs'⟩,
        if m < key then cs.length + 1 else cs.length) := by
  have hchild : (cs ++ c :: cs')[cs.length]? = some c := getElem?_middle rfl
  have hchildren : ((cs ++ c :: cs').set cs.length l).insertIdx (cs.length + 1) r =
      cs ++ l :: r :: cs' := by
    rw [set_middle rfl, append_cons, insertIdx_middle (by simp), ← append_cons]
  have hkeys : (ks ++ ks').insertIdx cs.length m = ks ++ m :: ks' := insertIdx_middle hks
  have hsep : (ks ++ m :: ks')[cs.length]? = some m := getElem?_middle hks
  simp only [prepareChild, splitChild, hidx, hchild, Option.bind_eq_bind, Option.bind_some,
    hfull, hsplit, hchildren, hkeys, if_true, Option.pure_def, hsep]

include hidx in
theorem prepareChild_of_not_full (hfull : isFull order h c ≠ true) :
    prepareChild order fresh ⟨ks ++ ks', cs ++ c :: cs'⟩ key =
      some (⟨ks ++ ks', cs ++ c :: cs'⟩, cs.length) := by
  have hchild : (cs ++ c :: cs')[cs.length]? = some c := getElem?_middle rfl
  simp only [prepareChild, hidx, hchild, Option.bind_eq_bind, Option.bind_some, hfull,
    Option.pure_def]
  rfl

theorem shaped_split (hl : Shaped h l) (hr : Shaped h r)
    (hshape : Shaped (h + 1) (⟨ks ++ ks', cs ++ c :: cs'⟩ : Internal (Node h))) :
    Shaped (h + 1) (⟨ks ++ m :: ks', cs ++ l :: r :: cs'⟩ : Internal (Node h)) := by
  refine shaped_replace [c] [l, r] hshape ?_ (by simp [hl, hr])
  simp only [length_append, length_cons, length_nil]
  omega

include hks in
theorem split_seq (hstep : Split fresh (seq h c) (seq h l ++ .sep m :: seq h r)) :
    Split fresh (seq (h + 1) (⟨ks ++ ks', cs ++ c :: cs'⟩ : Internal (Node h)))
      (seq (h + 1) (⟨ks ++ m :: ks', cs ++ l :: r :: cs'⟩ : Internal (Node h))) := by
  have hcontext := hstep.context (before (seq h) cs ks) (after (seq h) ks' cs')
  rw [seq, seq, weave_append hks, weave_append hks]
  simpa [after] using hcontext

end Prepare

/-- Insertion goes on in a node that is split at most once, at a child that is at the
place of the key unless the key itself moved up. -/
theorem prepareChild_spec (fresh : Nat) (key : Text) (horder : 2 ≤ order) {node : Internal (Node h)}
    (hshape : Shaped (h + 1) node) :
    ∃ (ks ks' : List Text) (cs cs' : List (Node h)) (c : Node h),
      prepareChild order fresh node key = some (⟨ks ++ ks', cs ++ c :: cs'⟩, cs.length) ∧
      cs.length = ks.length ∧
      Shaped (h + 1) (⟨ks ++ ks', cs ++ c :: cs'⟩ : Internal (Node h)) ∧
      (Roomy order (h + 1) node →
        Capped order (h + 1) (⟨ks ++ ks', cs ++ c :: cs'⟩ : Internal (Node h)) ∧
          Roomy order h c) ∧
      Split fresh (seq (h + 1) node)
        (seq (h + 1) (⟨ks ++ ks', cs ++ c :: cs'⟩ : Internal (Node h))) ∧
      ((ks ++ ks')[bisectRight node.keys key]? ≠ some key → Sorted (seq (h + 1) node) →
        Around key (before (seq h) cs ks) (after (seq h) ks' cs')) := by
  obtain ⟨ks, ks', cs, c, cs', rfl, hcs, hks, hks'⟩ :=
    exists_at hshape.1 (bisectRight_le_length key node.keys)
  have hidx : bisectRight (ks ++ ks') key = cs.length := hcs.symm
  by_cases hfull : isFull order h c = true
  · obtain ⟨l, m, r, hsplit, hl, hr, hhalves, hstep⟩ :=
      splitNode_spec fresh horder (hshape.2 c (by simp)) hfull
    have hcapped : Roomy order (h + 1) (⟨ks ++ ks', cs ++ c :: cs'⟩ : Internal (Node h)) →
        Capped order (h + 1) (⟨ks ++ m :: ks', cs ++ l :: r :: cs'⟩ : Internal (Node h)) ∧
          Roomy order h l ∧ Roomy order h r := by
      rintro ⟨hcap, hlen⟩
      obtain ⟨hroom, hroom'⟩ := hhalves (hcap.2 c (by simp))
      refine ⟨capped_replace [c] [l, r] hcap ?_ (by simp [hroom.1, hroom'.1]), hroom, hroom'⟩
      simp only [keysOf, length_append, length_cons] at hlen ⊢
      omega
    have hprepared : prepareChild order fresh ⟨ks ++ ks', cs ++ c :: cs'⟩ key = _ :=
      prepareChild_of_full hidx hks hfull hsplit
    have hshape' : Shaped (h + 1) (⟨ks ++ m :: ks', cs ++ l :: r :: cs'⟩ : Internal (Node h)) :=
      shaped_split hl hr hshape
    have hsteps : Split fresh (seq (h + 1) (⟨ks ++ ks', cs ++ c :: cs'⟩ : Internal (Node h))) _ :=
      split_seq hks hstep
    have hsep : (ks ++ m :: ks')[cs.length]? = some m := getElem?_middle hks
    by_cases hm : m < key
    · rw [if_pos hm] at hprepared
      refine ⟨ks ++ [m], ks', cs ++ [l], cs', r, ?_, by simp [hks], ?_, fun hroom => ?_, ?_, ?_⟩
      · simpa using hprepared
      · simpa using hshape'
      · exact ⟨by simpa using (hcapped hroom).1, (hcapped hroom).2.2⟩
      · simpa using hsteps
      · intro _ hsorted
        obtain ⟨hle, hlt⟩ := keys_of_bisect hidx hks hks' hsorted
        have hsorted' : Sorted (weave (seq h) (ks ++ m :: ks') (cs ++ l :: r :: cs')) :=
          hsteps.sorted hsorted
        refine around_of_keys (by simp [hks]) hks' (by simpa using hsorted') ?_ hlt
        rw [forall_mem_append]
        exact ⟨hle, by simpa using le_of_lt hm⟩
    · rw [if_neg hm] at hprepared
      refine ⟨ks, m :: ks', cs, r :: cs', l, hprepared, hks, hshape',
        fun hroom => ⟨(hcapped hroom).1, (hcapped hroom).2.1⟩, hsteps, ?_⟩
      intro hne hsorted
      obtain ⟨hle, hlt⟩ := keys_of_bisect hidx hks hks' hsorted
      refine around_of_keys hks (by simp [hks']) (hsteps.sorted hsorted) hle ?_
      rw [forall_mem_cons]
      refine ⟨lt_of_le_of_ne (le_of_not_gt hm) ?_, hlt⟩
      rintro rfl
      exact hne (by rw [hidx, hsep])
  · exact ⟨ks, ks', cs, cs', c, prepareChild_of_not_full hidx hfull, hks, hshape,
      fun hroom => ⟨hroom.1, roomy_of_not_full (hroom.1.2 c (by simp)) hfull⟩, .same _,
      fun _ hsorted => around_of_bisect hidx hks hks' hsorted⟩

theorem insertNonFull_leaf (order fresh : Nat) (key value : Text) (good : Prop) {leaf : Leaf}
    (hshape : Shaped 0 leaf) :
    ∃ leaf', insertNonFull order key value fresh 0 leaf = some leaf' ∧ Shaped 0 leaf' ∧
      (Roomy order 0 leaf → Capped order 0 leaf') ∧
      Inserts key value good (fresh, seq 0 leaf) fresh (seq 0 leaf') := by
  obtain ⟨id, next, es, rfl⟩ := exists_leafOf hshape
  have hplaced : es.Pairwise (fun e f => e.1 < f.1) → _ := placed_of_sorted key
  have hidx : bisectLeft (es.map Prod.fst) key ≤ es.length := by
    simpa using bisectLeft_le_length key (es.map Prod.fst)
  rw [insertNonFull]
  change ∃ leaf' : Leaf, some (⟨id, (leafOf id next es).keys.insertIdx
      (bisectLeft (es.map Prod.fst) key) key, (leafOf id next es).values.insertIdx
      (bisectLeft (es.map Prod.fst) key) value, next⟩ : Leaf) = some leaf' ∧ _
  generalize bisectLeft (es.map Prod.fst) key = idx at hidx hplaced
  have hlen : idx = (es.take idx).length := by
    rw [length_take, Nat.min_eq_left hidx]
  have hes : es.take idx ++ es.drop idx = es := take_append_drop idx es
  have hleaf : _ = leafOf id next (es.take idx ++ (key, value) :: es.drop idx) :=
    insertIdx_leafOf hlen
  rw [hes] at hleaf
  refine ⟨_, rfl, ?_, fun hroom => (length_insertIdx_le_succ ..).trans hroom.2,
    .intro [] [] id next (es.take idx) (es.drop idx) ?_ ?_ ?_ ?_⟩
  · rw [hleaf]
    exact shaped_leafOf ..
  · rw [hes]
    exact Relation.ReflTransGen.refl
  · rw [hleaf]
    rfl
  · exact fun _ _ => ⟨by simp, by simp⟩
  · intro hsorted
    have hpairs : (entries [.leaf (leafOf id next es)]).Pairwise fun e f => e.1 < f.1 :=
      pairwise_entries hsorted
    exact hplaced (by simpa using hpairs)

theorem movesUp_child {node : Internal (Node h)}
    (hprepare : prepareChild order fresh node key = some (⟨ks, cs ++ c :: cs'⟩, cs.length))
    (hmoves : movesUp order key fresh (h + 1) node = false) :
    ks[bisectRight node.keys key]? ≠ some key ∧ movesUp order key (fresh + 1) h c = false := by
  rw [movesUp, hprepare] at hmoves
  simp only [getElem?_middle, Option.any_some, Bool.or_eq_false_iff, decide_eq_false_iff_not]
    at hmoves
  exact hmoves

theorem movesUp_eq_false (horder : 2 ≤ order) {present : Text → Prop} (hkey : ¬ present key)
    (hshape : Shaped h node) (hsep : ∀ k, .sep k ∈ seq h node → present k)
    (hentries : ∀ k ∈ (entries (seq h node)).map Prod.fst, present k) (fresh : Nat) :
    movesUp order key fresh h node = false := by
  induction h generalizing fresh with
  | zero => rfl
  | succ h ih =>
    obtain ⟨ks, ks', cs, cs', c, hprepare, hks, hshape', -, hsplit, -⟩ :=
      prepareChild_spec fresh key horder hshape
    have hsep' : ∀ k, .sep k ∈ weave (seq h) (ks ++ ks') (cs ++ c :: cs') → present k :=
      fun k hk => (hsplit.sep_mem hk).elim (hsep k) (hentries k)
    have hchild : movesUp order key (fresh + 1) h c = false := by
      refine ih (hshape'.2 c (by simp)) (fun k hk => hsep' k ?_) (fun k hk => hentries k ?_) _
      · rw [weave_append hks]
        simp [hk]
      · rw [← hsplit.entries_eq, seq, weave_append hks]
        simp only [entries_append, map_append, mem_append]
        exact .inl (.inr hk)
    have hget : (ks ++ ks')[bisectRight (Internal.keys node) key]? ≠ some key := fun hget =>
      hkey (hsep' key (sep_mem_weave hshape'.1 (mem_of_getElem? hget)))
    simp only [movesUp, hprepare, getElem?_middle, Option.any_some, hchild, Bool.or_false,
      decide_eq_false_iff_not]
    exact hget

theorem insertNonFull_spec (fresh : Nat) (key value : Text) (horder : 2 ≤ order)
    (hshape : Shaped h node) :
    ∃ node', insertNonFull order key value fresh h node = some node' ∧ Shaped h node' ∧
      (Roomy order h node → Capped order h node') ∧
      Inserts key value (movesUp order key fresh h node = false) (fresh, seq h node) (fresh + h)
        (seq h node') := by
  induction h generalizing fresh with
  | zero => exact insertNonFull_leaf order fresh key value _ hshape
  | succ h ih =>
    obtain ⟨ks, ks', cs, cs', c, hprepare, hks, hshape', hroomy, hsplit, haround⟩ :=
      prepareChild_spec fresh key horder hshape
    obtain ⟨c', hc', hshapec, hkeep, hinserts⟩ := ih (fresh + 1) (hshape'.2 c (by simp))
    refine ⟨(⟨ks ++ ks', cs ++ c' :: cs'⟩ : Internal (Node h)), ?_, shaped_child hshape' hshapec,
      fun hroom => capped_child (hroomy hroom).1 (hkeep (hroomy hroom).2), ?_⟩
    · simp only [insertNonFull, hprepare]
      change ((cs ++ c :: cs')[cs.length]?.bind fun child =>
        (insertNonFull order key value (fresh + 1) h child).bind fun child =>
          some (⟨ks ++ ks', (cs ++ c :: cs').set cs.length child⟩ : Internal (Node h))) = _
      rw [getElem?_middle rfl, Option.bind_some, hc', Option.bind_some, set_middle rfl]
      rfl
    · rw [seq, weave_append hks] at hsplit
      rw [seq, weave_append hks, show fresh + (h + 1) = fresh + 1 + h by omega]
      exact hinserts.descend hsplit (fun hmoves => (movesUp_child hprepare hmoves).2)
        fun hmoves hsorted => haround (movesUp_child hprepare hmoves).1 hsorted

end Insertion

theorem minKey_spec (hshape : Shaped h node) :
    ∃ leaf L, seq h node = .leaf leaf :: L ∧ minKey h node = some leaf.keys.head? ∧
      Shaped 0 leaf := by
  induction h with
  | zero => exact ⟨node, [], rfl, rfl, hshape⟩
  | succ h ih =>
    obtain ⟨keys, children⟩ := node
    obtain ⟨hlen, hall⟩ := hshape
    cases children with
    | nil => cases hlen
    | cons c children =>
      obtain ⟨leaf, L, hseq, hmin, hleaf⟩ := ih (hall c (mem_cons_self ..))
      refine ⟨leaf, L ++ after (seq h) keys children, ?_, hmin, hleaf⟩
      change seq h c ++ after (seq h) keys children = _
      rw [hseq]
      rfl

/-- The separator at `idx` would be taken from an empty leaf. -/
def emptyRight (node : Internal (Node h)) (idx : Nat) : Bool :=
  idx < node.keys.length && (node.children[idx + 1]?).any fun right => minKey h right = some none

/-- The routine succeeds, keeps the shape, keeps the capacity of a `small` child's node, and
rebalances the sequence. -/
def Reshapes (order h : Nat) (small clean : Prop) (node : Node h) (result : Option (Node h)) :
    Prop :=
  ∃ node', result = some node' ∧ Shaped h node' ∧
    (Capped order h node → small → Capped order h node') ∧
    Rebalances clean (seq h node) (seq h node')

theorem Reshapes.same {order : Nat} {small clean : Prop} {node : Node h} (hshape : Shaped h node) :
    Reshapes order h small clean node (some node) :=
  ⟨node, rfl, hshape, fun hcap _ => hcap, Relation.ReflTransGen.refl⟩

theorem refresh_spec (order : Nat) {node : Internal (Node h)} (hshape : Shaped (h + 1) node)
    (idx : Nat) :
    Reshapes order (h + 1) True (emptyRight node idx = false) node (refresh node idx) := by
  obtain ⟨keys, children⟩ := node
  obtain ⟨hlen, hall⟩ := hshape
  change children.length = keys.length + 1 at hlen
  change ∀ c ∈ children, Shaped h c at hall
  by_cases hidx : idx < keys.length
  · obtain ⟨ks, k, ks', rfl, rfl⟩ := exists_middle hidx
    obtain ⟨cs, right, cs', rfl, hcs⟩ :=
      exists_middle (l := children) (i := ks.length + 1) (by omega)
    obtain ⟨leaf, L, hseq, hmin, hleaf⟩ := minKey_spec (hall right (by simp))
    have hweave : ∀ key, seq (h + 1) (⟨ks ++ key :: ks', cs ++ right :: cs'⟩ : Internal (Node h)) =
        weave (seq h) ks cs ++ .sep key :: .leaf leaf :: (L ++ after (seq h) ks' cs') := by
      intro key
      rw [seq, weave_split hcs.symm (cons_ne_nil right cs')]
      change _ ++ Item.sep key :: (seq h right ++ after (seq h) ks' cs') = _
      rw [hseq]
      rfl
    refine ⟨(⟨ks ++ leaf.keys.head?.getD [] :: ks', cs ++ right :: cs'⟩ : Internal (Node h)), ?_,
      ⟨by simpa using hlen, hall⟩, fun hcap _ => ⟨by simpa using hcap.1, hcap.2⟩, ?_⟩
    · simp only [refresh, hidx, if_true, getElem?_middle hcs, findMinKey, hmin, Option.map_some,
        set_middle]
      rfl
    · rw [hweave, hweave]
      refine Relation.ReflTransGen.single (.refresh _ _ leaf k _ fun hclean => ?_)
      simp only [emptyRight, hidx, getElem?_middle hcs, hmin, Option.any_some, decide_true,
        Bool.true_and, decide_eq_false_iff_not, Option.some.injEq] at hclean
      obtain ⟨i, n, es, rfl⟩ := exists_leafOf hleaf
      cases es with
      | nil => exact absurd rfl hclean
      | cons e es => exact ⟨e.2, es, entries_leafOf i n (e :: es)⟩
  · simp only [refresh, hidx, if_false]
    exact .same ⟨hlen, hall⟩

section Rebalancing

variable {clean : Prop} {cs cs' : List Leaf}

theorem seq_neighbours (hks : cs.length = ks.length) (l r : Leaf) :
    seq 1 (⟨ks ++ k :: ks', cs ++ l :: r :: cs'⟩ : Internal Leaf) =
      before (seq 0) cs ks ++ .leaf l :: .sep k :: .leaf r :: after (seq 0) ks' cs' := by
  have hweave : weave (seq 0) (ks ++ k :: ks') (cs ++ l :: r :: cs') =
      before (seq 0) cs ks ++ seq 0 l ++ after (seq 0) (k :: ks') (r :: cs') := weave_append hks
  rw [append_assoc] at hweave
  exact hweave

theorem shaped_neighbours {r l' r' : Leaf} {k' : Text}
    (hshape : Shaped 1 (⟨ks ++ k :: ks', cs ++ l :: r :: cs'⟩ : Internal Leaf)) (hl : Shaped 0 l')
    (hr : Shaped 0 r') : Shaped 1 (⟨ks ++ k' :: ks', cs ++ l' :: r' :: cs'⟩ : Internal Leaf) := by
  have hall : ∀ d ∈ [l', r'], Shaped 0 d :=
    forall_mem_cons.mpr ⟨hl, forall_mem_singleton.mpr hr⟩
  have hlen : 2 + (ks ++ k :: ks').length = 2 + (ks ++ k' :: ks').length := by simp
  exact shaped_replace (h := 0) [l, r] [l', r'] hshape hlen hall

theorem capped_neighbours {r l' r' : Leaf} {k' : Text}
    (hcap : Capped order 1 (⟨ks ++ k :: ks', cs ++ l :: r :: cs'⟩ : Internal Leaf))
    (hl : Capped order 0 l') (hr : Capped order 0 r') :
    Capped order 1 (⟨ks ++ k' :: ks', cs ++ l' :: r' :: cs'⟩ : Internal Leaf) := by
  have hall : ∀ d ∈ [l', r'], Capped order 0 d :=
    forall_mem_cons.mpr ⟨hl, forall_mem_singleton.mpr hr⟩
  exact capped_replace (h := 0) [l, r] [l', r'] hcap (by simpa using hcap.1) hall

variable {r : Leaf} {node : Internal Leaf} (hnode : node = ⟨ks ++ k :: ks', cs ++ l :: r :: cs'⟩)
  (hks : cs.length = ks.length) (hshape : Shaped 1 node)

include hnode hshape

theorem exists_neighbours : ∃ i j n m X Y, l = leafOf i n X ∧ r = leafOf j m Y := by
  subst hnode
  have hl : Shaped 0 l := hshape.2 l (mem_append_right _ (mem_cons_self ..))
  have hr : Shaped 0 r :=
    hshape.2 r (mem_append_right _ (mem_cons_of_mem _ (mem_cons_self ..)))
  obtain ⟨i, n, X, hX⟩ := exists_leafOf hl
  obtain ⟨j, m, Y, hY⟩ := exists_leafOf hr
  exact ⟨i, j, n, m, X, Y, hX, hY⟩

include hks

theorem borrowRight_spec (horder : 2 ≤ order) (hlen : order - 1 < r.keys.length) :
    Reshapes order 1 (l.keys.length < order - 1) clean node (borrowRight node cs.length l r) := by
  obtain ⟨i, j, n, m, X, Y, rfl, rfl⟩ := exists_neighbours hnode hshape
  subst hnode
  match Y, hlen with
  | [], hlen => simp [leafOf] at hlen
  | [e], hlen =>
    simp only [leafOf, map_cons, map_nil, length_singleton] at hlen
    omega
  | (a, v) :: (b, w) :: Y, hlen =>
    refine ⟨(⟨ks ++ b :: ks',
        cs ++ leafOf i n (X ++ [(a, v)]) :: leafOf j m ((b, w) :: Y) :: cs'⟩ : Internal Leaf), ?_,
      shaped_neighbours hshape (shaped_leafOf ..) (shaped_leafOf ..),
      fun hcap hsmall => capped_neighbours hcap ?_ ?_, ?_⟩
    · simp [borrowRight, leafOf, set_middle hks]
      rfl
    · simp only [Capped, leafOf, length_map, length_append] at hsmall ⊢
      exact (Nat.add_le_add_right hsmall.le 1).trans (by omega)
    · have hright := hcap.2 (leafOf j m ((a, v) :: (b, w) :: Y))
        (mem_append_right _ (mem_cons_of_mem _ (mem_cons_self ..)))
      simp only [Capped, leafOf, length_map, length_cons] at hright ⊢
      omega
    · rw [seq_neighbours hks, seq_neighbours hks]
      exact Relation.ReflTransGen.single (.borrow _ _ i j n m X _ _ Y k b w (by simp))

theorem borrowLeft_spec (hlen : order - 1 < l.keys.length) :
    Reshapes order 1 (r.keys.length < order - 1) clean node
      (borrowLeft node (cs.length + 1) l r) := by
  obtain ⟨i, j, n, m, X, Y, rfl, rfl⟩ := exists_neighbours hnode hshape
  subst hnode
  rcases eq_nil_or_concat' X with rfl | ⟨X, ⟨a, v⟩, rfl⟩
  · simp [leafOf] at hlen
  · refine ⟨(⟨ks ++ a :: ks', cs ++ leafOf i n X :: leafOf j m ((a, v) :: Y) :: cs'⟩ :
      Internal Leaf), ?_,
      shaped_neighbours hshape (shaped_leafOf ..) (shaped_leafOf ..),
      fun hcap hsmall => capped_neighbours hcap ?_ ?_, ?_⟩
    · simp [borrowLeft, leafOf, set_middle hks]
      rfl
    · have hleft := hcap.2 (leafOf i n (X ++ [(a, v)])) (mem_append_right _ (mem_cons_self ..))
      simp only [Capped, leafOf, length_map, length_append] at hleft ⊢
      omega
    · simp only [Capped, leafOf, length_map, length_cons] at hsmall ⊢
      omega
    · rw [seq_neighbours hks, seq_neighbours hks]
      exact Relation.ReflTransGen.single (.borrow _ _ i j n m _ Y X Y k a v (by simp))

theorem merge_spec {small : Prop} (hle : small → l.keys.length + r.keys.length ≤ 2 * order - 1) :
    Reshapes order 1 small clean node (some (merge node cs.length l r)) := by
  obtain ⟨i, j, n, m, X, Y, rfl, rfl⟩ := exists_neighbours hnode hshape
  subst hnode
  have hmerge : merge ⟨ks ++ k :: ks', cs ++ leafOf i n X :: leafOf j m Y :: cs'⟩ cs.length
      (leafOf i n X) (leafOf j m Y) = ⟨ks ++ ks', cs ++ leafOf i m (X ++ Y) :: cs'⟩ := by
    have hchildren : ∀ x : Leaf, (cs ++ x :: leafOf j m Y :: cs').eraseIdx (cs.length + 1) =
        cs ++ x :: cs' := fun x => by
      rw [append_cons, eraseIdx_middle (by simp), ← append_cons]
    simp only [merge, eraseIdx_middle hks, set_middle, hchildren]
    simp [leafOf]
  rw [hmerge]
  refine ⟨_, rfl, ?_, fun hcap hsmall => ?_, ?_⟩
  · have hlen : 1 + (ks ++ k :: ks').length = 2 + (ks ++ ks').length := by
      simp only [length_append, length_cons]
      omega
    exact shaped_replace (h := 0) [leafOf i n X, leafOf j m Y] [leafOf i m (X ++ Y)] hshape hlen
      (forall_mem_singleton.mpr (shaped_leafOf ..))
  · refine capped_replace (h := 0) [leafOf i n X, leafOf j m Y] [leafOf i m (X ++ Y)] hcap ?_
      (forall_mem_singleton.mpr ?_)
    · have hkeys := hcap.1
      simp only [length_append, length_cons] at hkeys ⊢
      omega
    · simpa [Capped, leafOf] using hle hsmall
  · have hweave : seq 1 (⟨ks ++ ks', cs ++ leafOf i m (X ++ Y) :: cs'⟩ : Internal Leaf) =
        before (seq 0) cs ks ++ seq 0 (leafOf i m (X ++ Y)) ++ after (seq 0) ks' cs' :=
      weave_append hks
    rw [seq_neighbours hks, hweave, append_assoc]
    exact Relation.ReflTransGen.single (.merge _ _ i j n m X Y k)

omit hnode in
theorem rebalanceLeaf_spec (horder : 2 ≤ order) {leaf : Leaf} (hks' : cs'.length = ks'.length)
    (hnode : node = ⟨ks ++ ks', cs ++ leaf :: cs'⟩) :
    Reshapes order 1 (leaf.keys.length < order - 1) clean node
      (rebalanceLeaf order node cs.length leaf) := by
  subst hnode
  have hright : (cs ++ leaf :: cs')[cs.length + 1]? = cs'.head? := by
    rw [append_cons, getElem?_append_right (by simp), head?_eq_getElem?]
    simp
  have hleft : (if 0 < cs.length then (cs ++ leaf :: cs')[cs.length - 1]? else none) =
      cs.getLast? := by
    rcases eq_nil_or_concat' cs with rfl | ⟨cs, left, rfl⟩ <;> simp
  simp only [rebalanceLeaf, hright, hleft]
  cases cs' with
  | nil =>
    rcases eq_nil_or_concat' cs with rfl | ⟨cs, left, rfl⟩
    · exact .same hshape
    · rcases eq_nil_or_concat' ks with rfl | ⟨ks, k, rfl⟩
      · simp at hks
      · simp only [append_assoc, singleton_append, length_append,
          length_singleton, Nat.add_right_cancel_iff] at hks hshape ⊢
        simp only [head?_nil, getLast?_concat]
        split
        · exact borrowLeft_spec rfl hks hshape ‹_›
        · exact merge_spec rfl hks hshape fun hsmall => by omega
  | cons right cs' =>
    obtain ⟨k', ks', rfl⟩ := exists_cons_of_length_eq_add_one hks'.symm
    simp only [head?_cons]
    split
    · exact borrowRight_spec rfl hks hshape horder ‹_›
    · rcases eq_nil_or_concat' cs with rfl | ⟨cs, left, rfl⟩
      · exact merge_spec rfl hks hshape fun hsmall => by omega
      · simp only [getLast?_concat]
        split
        · rcases eq_nil_or_concat' ks with rfl | ⟨ks, k, rfl⟩
          · simp at hks
          · simp only [append_assoc, singleton_append, length_append,
              length_singleton, Nat.add_right_cancel_iff] at hks hshape ⊢
            exact borrowLeft_spec rfl hks hshape ‹_›
        · exact merge_spec rfl hks hshape fun hsmall => by omega

end Rebalancing

section Deletion

variable (horder : 2 ≤ order) (hks : cs.length = ks.length) (hks' : cs'.length = ks'.length)
  (hshape : Shaped (h + 1) (⟨ks ++ ks', cs ++ c :: cs'⟩ : Internal (Node h)))

include horder hks hks' hshape in
theorem rebalance_spec (clean : Prop) :
    Reshapes order (h + 1) True clean (⟨ks ++ ks', cs ++ c :: cs'⟩ : Internal (Node h))
      (rebalance order h ⟨ks ++ ks', cs ++ c :: cs'⟩ cs.length c) := by
  cases h with
  | zero =>
    by_cases hsmall : (Leaf.keys c).length < order - 1
    · obtain ⟨node', hnode, hshape', hcap, hsteps⟩ :=
        rebalanceLeaf_spec hks hshape horder hks' rfl
      exact ⟨node', (if_pos hsmall).trans hnode, hshape', fun h _ => hcap h hsmall, hsteps⟩
    · exact ⟨_, if_neg hsmall, hshape, fun hcap _ => hcap, Relation.ReflTransGen.refl⟩
  | succ h => exact .same hshape

/-- After the removal of a key from a child the separator is taken from an empty leaf. -/
def fixUpEmpty (order h : Nat) (node : Internal (Node h)) (idx : Nat) (child : Node h) : Bool :=
  (rebalance order h { node with children := node.children.set idx child } idx child).any
    (emptyRight · idx)

include horder hks hks' hshape in
theorem fixUp_spec {c' : Node h} (hc : Shaped h c') :
    Reshapes order (h + 1) True
      (fixUpEmpty order h ⟨ks ++ ks', cs ++ c :: cs'⟩ cs.length c' = false)
      (⟨ks ++ ks', cs ++ c' :: cs'⟩ : Internal (Node h))
      (fixUp order h ⟨ks ++ ks', cs ++ c :: cs'⟩ cs.length c') := by
  obtain ⟨node₁, hnode₁, hshape₁, hcap₁, hsteps₁⟩ := rebalance_spec horder hks hks'
    (shaped_child hshape hc) (fixUpEmpty order h ⟨ks ++ ks', cs ++ c :: cs'⟩ cs.length c' = false)
  obtain ⟨node₂, hnode₂, hshape₂, hcap₂, hsteps₂⟩ := refresh_spec order hshape₁ cs.length
  refine ⟨node₂, ?_, hshape₂, fun hcap _ => hcap₂ (hcap₁ hcap trivial) trivial,
    hsteps₁.trans (hsteps₂.mono ?_)⟩
  · simp only [fixUp, set_middle, hnode₁]
    exact hnode₂
  · intro hclean
    simp only [fixUpEmpty, set_middle, hnode₁] at hclean
    exact hclean

/-- A separator is taken from an empty leaf on the way back. -/
def refreshesEmpty (order : Nat) (key : Text) : (h : Nat) → Node h → Bool
  | 0, _ => false
  | h + 1, (node : Internal (Node h)) =>
      (node.children[bisectRight node.keys key]?).any fun child =>
        refreshesEmpty order key h child ||
          match deleteRecursive order key h child with
          | some (true, child') => fixUpEmpty order h node (bisectRight node.keys key) child'
          | _ => false

theorem Path.deleteRecursive_of_none (hpath : Path key h node A l B) (hfind : l.find key = none) :
    deleteRecursive order key h node = some (false, node) := by
  induction hpath with
  | leaf l => simp [deleteRecursive, Leaf.pop, hfind]
  | child hidx hlen hlen' path ih =>
    simp only [deleteRecursive, getElem?_middle hidx, Option.bind_eq_bind, Option.bind_some,
      ih hfind]
    rfl

theorem Path.deleteRecursive_of_some (horder : 2 ≤ order) (hpath : Path key h node A l B)
    (hshape : Shaped h node) {idx : Nat} (hfind : l.find key = some idx) :
    ∃ node', deleteRecursive order key h node = some (true, node') ∧ Shaped h node' ∧
      (Capped order h node → Capped order h node') ∧
      Deletes key (refreshesEmpty order key h node = false) (seq h node) (seq h node') := by
  induction hpath with
  | leaf l =>
    obtain ⟨id, next, es, rfl⟩ := exists_leafOf hshape
    obtain ⟨-, X, value, Y, rfl, hX⟩ := exists_of_find hfind
    refine ⟨leafOf id next (X ++ Y), ?_, shaped_leafOf .., fun hcap => ?_, ?_⟩
    · have hleaf : (⟨id, (leafOf id next (X ++ (key, value) :: Y)).keys.eraseIdx idx,
          (leafOf id next (X ++ (key, value) :: Y)).values.eraseIdx idx, next⟩ : Leaf) =
          leafOf id next (X ++ Y) := eraseIdx_leafOf hX
      simp only [deleteRecursive, Leaf.pop, hfind, Option.map_some]
      rw [← hleaf]
      rfl
    · simp only [Capped, leafOf, length_map, length_append, length_cons] at hcap ⊢
      omega
    · exact .intro [] [] id next X Y value rfl Relation.ReflTransGen.refl
  | child hidx hlen hlen' path ih =>
    rename_i h ks ks' cs cs' c A B l
    obtain ⟨c', hc', hshape', hkeep, hdeletes⟩ := ih (hshape.2 _ (by simp)) hfind
    obtain ⟨node', hnode, hshapen, hkeep', hsteps⟩ := fixUp_spec horder hlen hlen' hshape hshape'
    refine ⟨node', ?_, hshapen,
      fun hcap => hkeep' (capped_child hcap (hkeep (hcap.2 _ (by simp)))) trivial, ?_⟩
    · simp only [deleteRecursive, hidx]
      rw [getElem?_middle rfl]
      change (deleteRecursive order key h c).bind _ = _
      rw [hc']
      change (fixUp order h ⟨ks ++ ks', cs ++ c :: cs'⟩ cs.length c').bind _ = _
      rw [hnode]
      rfl
    · have hclean : refreshesEmpty order key (h + 1)
          (⟨ks ++ ks', cs ++ c :: cs'⟩ : Internal (Node h)) = false →
          refreshesEmpty order key h c = false ∧
            fixUpEmpty order h ⟨ks ++ ks', cs ++ c :: cs'⟩ cs.length c' = false := by
        intro hclean
        simp only [refreshesEmpty, hidx] at hclean
        rw [getElem?_middle rfl, Option.any_some, hc', Bool.or_eq_false_iff] at hclean
        exact hclean
      have hcontext := (hdeletes.mono fun h => (hclean h).1).context
        (before (seq h) cs ks) (after (seq h) ks' cs')
      rw [← weave_append hlen, ← weave_append hlen] at hcontext
      exact hcontext.rebalance (hsteps.mono fun h => (hclean h).2)

end Deletion

end LiteDB.BTreeSpec
