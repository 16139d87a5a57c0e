import LiteDB.BTreeMap

namespace LiteDB.BTreeShape

open BTree BTreeMap BTreeSequences BTreeSpec
open LsmEngine (WriteOp)
open Runs

variable {t : BPlusTree}

def depths : (h : Nat) → Node h → List Nat
  | 0, _ => [0]
  | h + 1, (node : Internal (Node h)) => (node.children.flatMap (depths h)).map (· + 1)

theorem eq_of_mem_depths {h d : Nat} {node : Node h} (hd : d ∈ depths h node) : d = h := by
  induction h generalizing d with
  | zero => exact List.mem_singleton.mp hd
  | succ h ih =>
    obtain ⟨e, he, rfl⟩ := List.mem_map.mp hd
    obtain ⟨c, -, he⟩ := List.mem_flatMap.mp he
    rw [ih he]

/-- The leaves from a leaf on, as the links lead to them, if the links end. -/
def chain (all : List Leaf) : Nat → Leaf → Option (List Leaf)
  | 0, _ => none
  | fuel + 1, leaf =>
      match leaf.next with
      | none => some [leaf]
      | some id => ((all.find? fun l => l.id = id).bind (chain all fuel)).map (leaf :: ·)

theorem chain_eq {all : List Leaf} (hnodup : (all.map Leaf.id).Nodup) {L : List Item} {leaf : Leaf}
    (hlinked : Linked (.leaf leaf :: L)) (hall : ∀ l ∈ leaves L, l ∈ all) {fuel : Nat}
    (hfuel : (leaves L).length < fuel) : chain all fuel leaf = some (leaf :: leaves L) := by
  induction L generalizing leaf fuel with
  | nil =>
    obtain ⟨fuel, rfl⟩ := Nat.exists_eq_add_of_lt hfuel
    have hend : leaf.next = none := hlinked.1
    simp [chain, hend]
  | cons item L ih =>
    cases item with
    | sep key => exact ih hlinked hall hfuel
    | leaf next =>
      obtain ⟨hnext, hrest⟩ := hlinked
      rw [leaves_leaf, List.forall_mem_cons] at hall
      rw [leaves_leaf, List.length_cons] at hfuel
      obtain ⟨fuel, rfl⟩ : ∃ n, fuel = n + 1 := ⟨fuel - 1, by omega⟩
      have hid : leaf.next = some next.id := hnext
      have hbelow : chain all fuel next = _ := ih hrest hall.2 (by omega)
      simp [chain, hid, find?_id hnodup hall.1, hbelow]

/-- One depth for all leaves, lists that fit each other and are not too long, and links from
the leftmost leaf through all others. -/
structure WellShaped (t : BPlusTree) : Prop where
  depth : ∀ d ∈ depths t.height t.root, d = t.height
  shaped : Shaped t.height t.root
  capped : Capped t.order t.height t.root
  chained : (leavesOf t.height t.root).head?.bind
      (chain (leavesOf t.height t.root) (leavesOf t.height t.root).length) =
    some (leavesOf t.height t.root)

theorem wellShaped_of_formed (h : Formed t) (hcap : Capped t.order t.height t.root) :
    WellShaped t := by
  refine ⟨fun _ => eq_of_mem_depths, h.shaped, hcap, ?_⟩
  obtain ⟨leaf, L, hseq, -⟩ := minKey_spec h.shaped
  have hleaves : leavesOf t.height t.root = leaf :: leaves L := by
    rw [← leaves_seq h.shaped, hseq, leaves_leaf]
  have hids : ((leavesOf t.height t.root).map Leaf.id).Nodup := by
    rw [← leaves_seq h.shaped]
    exact h.chained.nodup
  have hlinked : Linked (.leaf leaf :: L) := hseq ▸ h.chained.linked
  rw [hleaves] at hids ⊢
  exact chain_eq hids hlinked (fun _ => List.mem_cons_of_mem _) (Nat.lt_succ_self _)

/-- The shape that `set` and `delete` keep, whether or not the tree is still a map. -/
structure Inv (order : Nat) (s : State) : Prop where
  formed : Formed s.tree
  capped : Capped order s.tree.height s.tree.root
  order_eq : s.tree.order = order

variable {order : Nat} {s s' : State} {op : WriteOp}

theorem Inv.returns (h : Inv order s) (op : WriteOp) : (step s op).isSome := by
  cases op with
  | put key value =>
    obtain ⟨t, hset, -⟩ := h.formed.set key value
    simp [step, hset]
  | delete key =>
    obtain ⟨found, t, hdelete, -⟩ := h.formed.delete key
    simp [step, hdelete]

theorem Inv.step (h : Inv order s) (hstep : step s op = some s') : Inv order s' := by
  obtain ⟨hformed, hcap, rfl⟩ := h
  obtain ⟨t, ht, rfl⟩ := Option.map_eq_some_iff.mp hstep
  cases op with
  | put key value =>
    obtain ⟨t', hset, hformed', ⟨horder, hkeep⟩, -⟩ := hformed.set key value
    cases hset.symm.trans ht
    exact ⟨hformed', hkeep hcap, horder⟩
  | delete key =>
    obtain ⟨found, t', hdelete, hformed', ⟨horder, hkeep⟩, -⟩ := hformed.delete key
    obtain ⟨⟨_, u⟩, hu, rfl⟩ := Option.map_eq_some_iff.mp ht
    cases hdelete.symm.trans hu
    exact ⟨hformed', hkeep hcap, horder⟩

/-- Whatever is set and deleted, the tree keeps its shape and every call returns. -/
theorem wellShaped_of_reaches (horder : 2 ≤ order)
    (h : Reaches step (fun _ _ => True) (init order) s) :
    s.tree.order = order ∧ WellShaped s.tree ∧ ∀ op, (step s op).isSome := by
  have hinit : Inv order (init order) :=
    ⟨(represents_create horder).toFormed, Nat.zero_le _, rfl⟩
  have hinv : Inv order s := h.invariant _ hinit fun _ _ _ hu _ hstep => hu.step hstep
  obtain rfl := hinv.order_eq
  exact ⟨rfl, wellShaped_of_formed hinv.formed hinv.capped, hinv.returns⟩

/-- A key that is set again after it was deleted is lost, and the shape stays. -/
theorem wellShaped_of_reinsertion : ∃ s, Reaches step (fun _ _ => True) (init 2) s ∧
    s.tree.height = 2 ∧ s.tree.get "i".toList = some none ∧ WellShaped s.tree := by
  obtain ⟨s, hs, hheight, hget⟩ := exists_reaches step (fun _ _ => True) (init 2)
    (twelveKeys ++ [.delete "i".toList, .put "i".toList "z".toList])
    (fun s => s.tree.height = 2 ∧ s.tree.get "i".toList = some none) (by decide +kernel)
  exact ⟨s, hs, hheight, hget, (wellShaped_of_reaches (by decide) hs).2.1⟩

end LiteDB.BTreeShape
