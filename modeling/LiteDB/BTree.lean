import LiteDB.Bisection
import LiteDB.VersionKeys

/-!
The B+Tree (`btree.py`). A node of height 0 is a leaf, and the leaves are linked by
references, which are numbers here. `none` stands for an `IndexError`.
-/

namespace LiteDB.BTree

open Bisection
open VersionKeys (Text)

/-- A leaf refers to the next one by its number. -/
structure Leaf where
  id : Nat
  keys : List Text
  values : List Text
  next : Option Nat
deriving DecidableEq

def Leaf.entries (leaf : Leaf) : List (Text × Text) := leaf.keys.zip leaf.values

/-- An inner node with children of one height. -/
structure Internal (C : Type) where
  keys : List Text
  children : List C

def Node : Nat → Type
  | 0 => Leaf
  | h + 1 => Internal (Node h)

def findLeaf (key : Text) : (h : Nat) → Node h → Option Leaf
  | 0, leaf => some leaf
  | h + 1, node => do
      let child ← node.children[bisectRight node.keys key]?
      findLeaf key h child

def Leaf.find (leaf : Leaf) (key : Text) : Option Nat :=
  let idx := bisectLeft leaf.keys key
  if leaf.keys[idx]? = some key then some idx else none

/-- The keys of the leftmost leaf start with this one; an empty leaf has none. -/
def minKey : (h : Nat) → Node h → Option (Option Text)
  | 0, leaf => some leaf.keys.head?
  | h + 1, node => do
      let child ← node.children[0]?
      minKey h child

/-- An empty leaf counts as the empty string. -/
def findMinKey (h : Nat) (node : Node h) : Option Text := (minKey h node).map (·.getD [])

def keysOf : (h : Nat) → Node h → List Text
  | 0, leaf => leaf.keys
  | _ + 1, node => node.keys

def isFull (order h : Nat) (node : Node h) : Bool := 2 * order - 1 ≤ (keysOf h node).length

def splitNode (order fresh : Nat) : (h : Nat) → Node h → Option (Node h × Text × Node h)
  | 0, (leaf : Leaf) => do
      let medianKey ← (leaf.keys.drop order)[0]?
      return (({ leaf with
          keys := leaf.keys.take order
          values := leaf.values.take order
          next := some fresh } : Leaf), medianKey,
        (⟨fresh, leaf.keys.drop order, leaf.values.drop order, leaf.next⟩ : Leaf))
  | h + 1, (node : Internal (Node h)) => do
      let medianKey ← node.keys[order - 1]?
      return ((⟨node.keys.take (order - 1), node.children.take order⟩ : Internal (Node h)),
        medianKey, (⟨node.keys.drop order, node.children.drop order⟩ : Internal (Node h)))

def splitChild (order fresh : Nat) {h : Nat} (parent : Internal (Node h)) (idx : Nat) :
    Option (Internal (Node h)) := do
  let child ← parent.children[idx]?
  let (left, medianKey, right) ← splitNode order fresh h child
  return ⟨parent.keys.insertIdx idx medianKey,
    (parent.children.set idx left).insertIdx (idx + 1) right⟩

/-- The node in which `_insert_non_full` goes on, and the index of the child. -/
def prepareChild (order fresh : Nat) {h : Nat} (node : Internal (Node h)) (key : Text) :
    Option (Internal (Node h) × Nat) := do
  let idx := bisectRight node.keys key
  let child ← node.children[idx]?
  if isFull order h child then
    let node ← splitChild order fresh node idx
    let separator ← node.keys[idx]?
    return (node, if separator < key then idx + 1 else idx)
  else return (node, idx)

/-- `fresh` numbers the leaves; a level may use one number. -/
def insertNonFull (order : Nat) (key value : Text) : Nat → (h : Nat) → Node h → Option (Node h)
  | _, 0, (leaf : Leaf) =>
      let idx := bisectLeft leaf.keys key
      some { leaf with
        keys := leaf.keys.insertIdx idx key
        values := leaf.values.insertIdx idx value }
  | fresh, h + 1, (node : Internal (Node h)) => do
      let (node, idx) ← prepareChild order fresh node key
      let child ← node.children[idx]?
      let child ← insertNonFull order key value (fresh + 1) h child
      return { node with children := node.children.set idx child }

/-- The assignment to a value of the leaf that `_find_leaf` gives. -/
def updateLeaf (key value : Text) : (h : Nat) → Node h → Option (Node h)
  | 0, (leaf : Leaf) =>
      some { leaf with values := leaf.values.set (bisectLeft leaf.keys key) value }
  | h + 1, (node : Internal (Node h)) => do
      let idx := bisectRight node.keys key
      let child ← node.children[idx]?
      let child ← updateLeaf key value h child
      return { node with children := node.children.set idx child }

def Leaf.pop (leaf : Leaf) (key : Text) : Option Leaf :=
  (leaf.find key).map fun idx =>
    { leaf with keys := leaf.keys.eraseIdx idx, values := leaf.values.eraseIdx idx }

def borrowRight (parent : Internal Leaf) (idx : Nat) (leaf right : Leaf) :
    Option (Internal Leaf) := do
  let key ← right.keys[0]?
  let value ← right.values[0]?
  let separator ← right.keys[1]?
  return ⟨parent.keys.set idx separator,
    (parent.children.set idx
      { leaf with keys := leaf.keys ++ [key], values := leaf.values ++ [value] }).set (idx + 1)
      { right with keys := right.keys.drop 1, values := right.values.drop 1 }⟩

def borrowLeft (parent : Internal Leaf) (idx : Nat) (left leaf : Leaf) :
    Option (Internal Leaf) := do
  let key ← left.keys.getLast?
  let value ← left.values.getLast?
  return ⟨parent.keys.set (idx - 1) key,
    (parent.children.set (idx - 1)
      { left with keys := left.keys.dropLast, values := left.values.dropLast }).set idx
      { leaf with keys := key :: leaf.keys, values := value :: leaf.values }⟩

/-- The right one of two neighbours goes into the left one, which is at `idx`. -/
def merge (parent : Internal Leaf) (idx : Nat) (left right : Leaf) : Internal Leaf :=
  ⟨parent.keys.eraseIdx idx,
    (parent.children.set idx
      { left with
        keys := left.keys ++ right.keys
        values := left.values ++ right.values
        next := right.next }).eraseIdx (idx + 1)⟩

/-- `leaf` is the child at `idx`, from which a key was removed. -/
def rebalanceLeaf (order : Nat) (parent : Internal Leaf) (idx : Nat) (leaf : Leaf) :
    Option (Internal Leaf) :=
  match parent.children[idx + 1]?, if 0 < idx then parent.children[idx - 1]? else none with
  | some right, left =>
      if order - 1 < right.keys.length then borrowRight parent idx leaf right
      else
        match left with
        | some left =>
            if order - 1 < left.keys.length then borrowLeft parent idx left leaf
            else some (merge parent idx leaf right)
        | none => some (merge parent idx leaf right)
  | none, some left =>
      if order - 1 < left.keys.length then borrowLeft parent idx left leaf
      else some (merge parent (idx - 1) left leaf)
  | none, none => some parent

/-- Only leaves are rebalanced. -/
def rebalance (order : Nat) :
    (h : Nat) → Internal (Node h) → Nat → Node h → Option (Internal (Node h))
  | 0, parent, idx, (leaf : Leaf) =>
      if leaf.keys.length < order - 1 then rebalanceLeaf order parent idx leaf else some parent
  | _ + 1, parent, _, _ => some parent

/-- The separator in front of the right neighbour becomes its least key. -/
def refresh {h : Nat} (node : Internal (Node h)) (idx : Nat) : Option (Internal (Node h)) :=
  if idx < node.keys.length then
    match node.children[idx + 1]? with
    | some right => (findMinKey h right).map fun key => { node with keys := node.keys.set idx key }
    | none => some node
  else some node

/-- What is done to a node after a key was removed from its child at `idx`. -/
def fixUp (order h : Nat) (node : Internal (Node h)) (idx : Nat) (child : Node h) :
    Option (Internal (Node h)) := do
  let node ← rebalance order h { node with children := node.children.set idx child } idx child
  refresh node idx

/-- The result of `_delete_recursive` and the node after it. -/
def deleteRecursive (order : Nat) (key : Text) : (h : Nat) → Node h → Option (Bool × Node h)
  | 0, (leaf : Leaf) =>
      match leaf.pop key with
      | some leaf => some (true, leaf)
      | none => some (false, leaf)
  | h + 1, (node : Internal (Node h)) => do
      let idx := bisectRight node.keys key
      let child ← node.children[idx]?
      let (found, child) ← deleteRecursive order key h child
      if found then
        let node ← fixUp order h node idx child
        return (true, (node : Internal (Node h)))
      else return (false, node)

/-- The tree with the number that the next leaf gets. -/
structure BPlusTree where
  order : Nat
  height : Nat
  root : Node height
  size : Int
  fresh : Nat

namespace BPlusTree

def create (order : Nat) : BPlusTree := ⟨order, 0, (⟨0, [], [], none⟩ : Leaf), 0, 1⟩

def get (t : BPlusTree) (key : Text) : Option (Option Text) := do
  let leaf ← findLeaf key t.height t.root
  match leaf.find key with
  | some idx => return some (← leaf.values[idx]?)
  | none => return none

/-- The number after those that a call of `set` may use. -/
def nextFresh (t : BPlusTree) : Nat := t.fresh + t.height + 2

def insert (t : BPlusTree) (key value : Text) : Option BPlusTree :=
  if isFull t.order t.height t.root then do
    let root ← splitChild t.order t.fresh ⟨[], [t.root]⟩ 0
    let root ← insertNonFull t.order key value (t.fresh + 1) (t.height + 1) root
    return { t with height := t.height + 1, root := root, size := t.size + 1, fresh := t.nextFresh }
  else do
    let root ← insertNonFull t.order key value t.fresh t.height t.root
    return { t with root := root, size := t.size + 1, fresh := t.nextFresh }

def set (t : BPlusTree) (key value : Text) : Option BPlusTree := do
  let leaf ← findLeaf key t.height t.root
  match leaf.find key with
  | some _ => do
      let root ← updateLeaf key value t.height t.root
      return { t with root := root }
  | none => t.insert key value

/-- A root without keys gives way to its child. -/
def shrink (t : BPlusTree) : Option BPlusTree :=
  match t with
  | ⟨order, h + 1, (root : Internal (Node h)), size, fresh⟩ =>
      if root.keys = [] then root.children[0]?.map fun child => ⟨order, h, child, size, fresh⟩
      else some t
  | t => some t

def delete (t : BPlusTree) (key : Text) : Option (Bool × BPlusTree) := do
  let (found, root) ← deleteRecursive t.order key t.height t.root
  if found then do
    let t ← shrink { t with root := root, size := t.size - 1 }
    return (true, t)
  else return (false, t)

end BPlusTree

def leavesOf : (h : Nat) → Node h → List Leaf
  | 0, leaf => [leaf]
  | h + 1, (node : Internal (Node h)) => node.children.flatMap (leavesOf h)

/-- The pairs of a leaf up to the end of the range, and whether the leaf ends there. -/
def scanLeaf (startKey endKey : Text) : List (Text × Text) → List (Text × Text) × Bool
  | [] => ([], false)
  | e :: entries =>
      if endKey < e.1 then ([], true)
      else
        let rest := scanLeaf startKey endKey entries
        (if startKey ≤ e.1 then e :: rest.1 else rest.1, rest.2)

def scanLeaves (leaves : List Leaf) (startKey endKey : Text) : Nat → Leaf → List (Text × Text)
  | 0, _ => []
  | fuel + 1, leaf =>
      let found := scanLeaf startKey endKey leaf.entries
      if found.2 then found.1
      else
        found.1 ++
          match leaf.next.bind fun id => leaves.find? fun l => l.id = id with
          | some leaf => scanLeaves leaves startKey endKey fuel leaf
          | none => []

def BPlusTree.scan (t : BPlusTree) (startKey endKey : Text) : Option (List (Text × Text)) := do
  let leaf ← findLeaf startKey t.height t.root
  let leaves := leavesOf t.height t.root
  return scanLeaves leaves startKey endKey leaves.length leaf

end LiteDB.BTree
