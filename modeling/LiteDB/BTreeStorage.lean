import LiteDB.BTreeMap
import LiteDB.DurableEngines

namespace LiteDB.BTreeStorage

open BTree BTreeMap DurableEngines List
open LsmEngine (WriteOp)
open SortedMaps
open VersionKeys (Text)
open Wal

/-- A tree on which no call raises an exception. -/
structure Tree where
  tree : BPlusTree
  formed : Formed tree

namespace Tree

variable (t : Tree) (key value : Text)

theorem isSome_set : (t.tree.set key value).isSome := by
  obtain ⟨t', h, -⟩ := t.formed.set key value
  rw [h]
  rfl

def set : Tree where
  tree := (t.tree.set key value).get (t.isSome_set key value)
  formed := by
    obtain ⟨t', h, hformed, -⟩ := t.formed.set key value
    simpa [h] using hformed

theorem isSome_delete : (t.tree.delete key).isSome := by
  obtain ⟨found, t', h, -⟩ := t.formed.delete key
  rw [h]
  rfl

def delete : Tree where
  tree := ((t.tree.delete key).get (t.isSome_delete key)).2
  formed := by
    obtain ⟨found, t', h, hformed, -⟩ := t.formed.delete key
    simpa [h] using hformed

theorem isSome_scan (lo hi : Text) : (t.tree.scan lo hi).isSome := by
  obtain ⟨A, l, B, hpath, -⟩ := BTreeSpec.exists_path lo t.formed.shaped
  simp [BPlusTree.scan, hpath.findLeaf_eq]

def scan (lo hi : Text) : List (Text × Text) := (t.tree.scan lo hi).get (t.isSome_scan lo hi)

def create (order : Nat) (h : 2 ≤ order) : Tree :=
  ⟨.create order, (represents_create h).toFormed⟩

def apply (t : Tree) : WriteOp → Tree
  | .put key value => t.set key value
  | .delete key => t.delete key

def applyEntry (t : Tree) (e : WalEntry) : Tree :=
  match e.operation with
  | .set => t.set e.key (e.value.getD [])
  | .delete => t.delete e.key
  | _ => t

def replay (entries : List WalEntry) : Tree := entries.foldl applyEntry (create 16 (by decide))

end Tree

/-- The engine over the tree (`btree_engine.py`). Its log is replayed from the beginning at
every start. -/
structure BTreeEngine where
  tree : Tree
  wal : Log

namespace BTreeEngine

def recover (entries : List WalEntry) : BTreeEngine := ⟨Tree.replay entries, Log.init entries⟩

def write (s : BTreeEngine) (op : WriteOp) : BTreeEngine :=
  ⟨s.tree.apply op, s.wal.append op.request⟩

def writeBatch (s : BTreeEngine) (ops : List WriteOp) : BTreeEngine := ops.foldl write s

def scan (s : BTreeEngine) (lo hi : Text) : List (Text × Text) := s.tree.scan lo hi

end BTreeEngine

section Recovery

variable {s : BTreeEngine}

def Replays (s : BTreeEngine) : Prop := Tree.replay s.wal.entries = s.tree

theorem applyEntry_request (t : Tree) (op : WriteOp) (n : Nat) :
    t.applyEntry (op.request.entry n) = t.apply op := by
  cases op <;> rfl

theorem Replays.write (h : Replays s) (op : WriteOp) : Replays (s.write op) := by
  change Tree.replay (s.wal.entries ++ [op.request.entry s.wal.sequence]) = s.tree.apply op
  rw [Tree.replay, foldl_append, foldl_cons, foldl_nil, applyEntry_request, ← h]
  rfl

theorem wal_writeBatch (s : BTreeEngine) (ops : List WriteOp) :
    (s.writeBatch ops).wal = s.wal.appendAll (ops.map WriteOp.request) := by
  induction ops generalizing s with
  | nil => rfl
  | cons op ops ih => exact ih (s.write op)

end Recovery

section Contents

variable {s : BTreeEngine} {c : SortedMap Text Text}

/-- The tree stands for the map, and so does the log. -/
structure Shows (s : BTreeEngine) (c : SortedMap Text Text) : Prop where
  replays : Replays s
  represents : Represents s.tree.tree c
  present : Present s.tree.tree

theorem Shows.scan_eq (h : Shows s c) (lo hi : Text) : s.scan lo hi = c.scan lo hi := by
  have hscan := h.represents.scan lo hi
  simp [BTreeEngine.scan, Tree.scan, hscan]

theorem tree_set {t : Tree} {key value : Text} {t' : BPlusTree}
    (h : t.tree.set key value = some t') : (t.set key value).tree = t' := by
  simp [Tree.set, h]

/-- A put of a new key does not move its key up, because the separators are keys. -/
theorem Shows.put (h : Shows s c) (key value : Text) :
    Shows (s.write (.put key value)) (c.insert key value) := by
  obtain ⟨t', hset, ht'⟩ := h.represents.set key value
  have hmoves : c.get? key = none → movesUpKey s.tree.tree key = false := fun hget => by
    refine movesUpKey_eq_false s.tree.formed h.present fun hmem => ?_
    rw [h.represents.entries_eq] at hmem
    obtain ⟨⟨k, v⟩, he, rfl⟩ := mem_map.mp hmem
    exact SortedMap.get?_eq_none_iff.mp hget v he
  refine ⟨h.replays.write _, ?_, ?_⟩
  · change Represents (s.tree.set key value).tree _
    rw [tree_set hset]
    exact ht' hmoves
  · change Present (s.tree.set key value).tree
    rw [tree_set hset]
    exact h.present.set s.tree.formed hset

theorem Shows.writeBatch (h : Shows s c) {ops : List WriteOp}
    (hputs : ∀ op ∈ ops, ∃ key value, op = .put key value) :
    Shows (s.writeBatch ops) (putAll c ops) := by
  induction ops generalizing s c with
  | nil => exact h
  | cons op ops ih =>
    obtain ⟨key, value, rfl⟩ := hputs op (mem_cons_self ..)
    exact ih (h.put key value) fun op hop => hputs op (mem_cons_of_mem _ hop)

theorem Shows.recover (h : Shows s c) : Shows (.recover s.wal.entries) c := by
  have htree : (BTreeEngine.recover s.wal.entries).tree = s.tree := h.replays
  exact ⟨rfl, by rw [htree]; exact h.represents, by rw [htree]; exact h.present⟩

theorem shows_recover_nil : Shows (.recover []) .empty :=
  ⟨rfl, represents_create (by decide), present_create 16⟩

end Contents

def interrupted (s : BTreeEngine) (ops : List WriteOp) (n : Nat) : List WalEntry :=
  (s.wal.appendAll ((ops.map WriteOp.request).take n)).entries

theorem interrupted_eq (s : BTreeEngine) (ops : List WriteOp) (n : Nat) :
    interrupted s ops n = (s.writeBatch (ops.take n)).wal.entries := by
  rw [interrupted, wal_writeBatch, map_take]

/-- The B+Tree engine, whose batches may be cut behind every operation. -/
def durableBTree : DurableEngine where
  State := BTreeEngine
  scan := BTreeEngine.scan
  writeBatch := BTreeEngine.writeBatch
  Maintenance := Unit
  maintain s _ := s
  reopen s ops n := .recover (interrupted s ops n)
  stores _ := True
  atomic := False
  Shows := Shows
  scan_eq h lo hi := h.scan_eq lo hi
  shows_writeBatch h hfresh := h.writeBatch fun op hop => by
    obtain ⟨key, value, rfl, -⟩ := hfresh.puts op hop
    exact ⟨key, value, rfl⟩
  shows_maintain h _ := h
  shows_reopen h hfresh n := by
    refine ⟨n, False.elim, ?_⟩
    rw [interrupted_eq]
    refine (h.writeBatch fun op hop => ?_).recover
    obtain ⟨key, value, rfl, -⟩ := hfresh.puts op (mem_of_mem_take hop)
    exact ⟨key, value, rfl⟩

end LiteDB.BTreeStorage
