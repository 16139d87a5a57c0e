import LiteDB.Attempts
import LiteDB.SystemCatalog
import LiteDB.TypeCodec

namespace LiteDB.RelationalEngine

open Attempts Mvcc RowCodec StorageEngines SystemCatalog VersionKeys

/-- Letters, digits and underscores are none of the characters that keys are joined and
scanned with. -/
def Word (s : Text) : Prop := s ≠ [] ∧ '/' ∉ s ∧ sep ∉ s ∧ hiChar ∉ s

instance (s : Text) : Decidable (Word s) := inferInstanceAs (Decidable (_ ∧ _))

/-- An identifier of the tokenizer. -/
structure Ident where
  text : Text
  word : Word text
deriving DecidableEq

inductive Comparison where
  | eq
  | ne
  | lt
  | gt
  | le
  | ge
deriving DecidableEq

/-- A condition; a literal is the string that `str` gives. -/
inductive Expr where
  | compare (op : Comparison) (left right : Expr)
  | and (left right : Expr)
  | or (left right : Expr)
  | not (operand : Expr)
  | column (name : Ident)
  | literal (value : Text)
deriving DecidableEq

/-- A `SELECT` statement. -/
structure Select where
  table : Ident
  columns : List Text
  condition : Option Expr
  orderBy : Option Ident
  orderDesc : Bool
  limit : Option Int
deriving DecidableEq

/-- What the parser makes of a text. -/
inductive Statement where
  | createTable (table : Ident) (columns : List (Ident × Text))
  | dropTable (table : Ident)
  | createIndex (name table column : Ident)
  | dropIndex (name : Ident)
  | insert (table : Ident) (columns : List Ident) (values : List Text)
  | select (s : Select)
  | delete (table : Ident) (condition : Option Expr)
  | update
  | malformed (message : Text)
deriving DecidableEq

def rowKey (table pk : Text) : Text := table ++ '/' :: pk

/-- `_index_prefix`. -/
def indexKeys (table column : Text) : Text :=
  "__idx__/".toList ++ table ++ '/' :: column ++ ['/']

def indexKey (table column value pk : Text) : Text := indexKeys table column ++ value ++ sep :: pk

def str (n : Nat) : Text := Nat.toDigits 10 n

/-- What a statement works on: the cached catalog of its session and a transaction. -/
structure Work where
  catalog : Catalog
  tx : Transaction

variable {E : Backend} (B : Builtins) (m : MvccEngine E)

def orRaise {A : Type} : Option A → Attempt Work A
  | some a => pure a
  | none => throw ()

def getCatalog : Attempt Work Catalog := do
  return (← get).catalog

def txGet (key : Text) : Attempt Work (Option Text) := do
  return (← get).tx.get m key

def txScan (lo hi : Text) : Attempt Work (List (Text × Text)) := do
  orRaise ((← get).tx.scan m lo hi)

def txPut (key value : Text) : Attempt Work Unit :=
  modify fun w => { w with tx := w.tx.put key value }

def txDelete (key : Text) : Attempt Work Unit :=
  modify fun w => { w with tx := w.tx.delete key }

/-- `Catalog.create_table`. -/
def storeTable (schema : TableSchema) : Attempt Work Unit := do
  txPut (tablePrefix ++ schema.name) schema.serialize
  modify fun w =>
    { w with catalog := { w.catalog with tables := w.catalog.tables.set schema.name schema } }

/-- `Catalog.drop_table`. -/
def forgetTable (name : Text) : Attempt Work Unit := do
  txDelete (tablePrefix ++ name)
  modify fun w => { w with catalog := { w.catalog with tables := w.catalog.tables.erase name } }

/-- `Catalog.create_index`. -/
def storeIndex (d : IndexDef) : Attempt Work Unit := do
  txPut (indexPrefix ++ d.name) d.serialize
  modify fun w =>
    { w with catalog := { w.catalog with indexes := w.catalog.indexes.set d.name d } }

/-- `Catalog.drop_index`. -/
def forgetIndex (name : Text) : Attempt Work Unit := do
  txDelete (indexPrefix ++ name)
  modify fun w => { w with catalog := { w.catalog with indexes := w.catalog.indexes.erase name } }

def scanTable (table : Text) : Attempt Work (List (Text × Text)) :=
  txScan m (table ++ ['/']) (table ++ ['/'] ++ [hiChar])

def deletePrefix (keys : Text) : Attempt Work Unit := do
  let found ← txScan m keys (keys ++ [hiChar])
  found.forM fun e => txDelete e.1

def createTable (table : Ident) (columns : List (Ident × Text)) : Attempt Work Text := do
  let c ← getCatalog
  if c.hasTable table.text then
    return "ERROR: table already exists: ".toList ++ table.text
  else if h : (columns.map fun d => Column.mk d.1.text d.2) ≠ [] then
    let schema : TableSchema := ⟨table.text, columns.map fun d => ⟨d.1.text, d.2⟩, h⟩
    storeTable schema
    return "OK: created table ".toList ++ table.text ++ " (PK=".toList ++
      schema.primaryKey.name ++ ")".toList
  else throw ()

def dropTable (table : Ident) : Attempt Work Text := do
  let c ← getCatalog
  if ¬c.hasTable table.text then
    return "ERROR: no such table: ".toList ++ table.text
  else
    (c.indexesForTable table.text).forM fun d => do
      deletePrefix m (indexKeys table.text d.column)
      forgetIndex d.name
    let rows ← scanTable m table.text
    rows.forM fun e => txDelete e.1
    forgetTable table.text
    return "OK: dropped table ".toList ++ table.text ++ " (".toList ++ str rows.length ++
      " rows removed)".toList

def buildEntry (table column : Text) (type : Option Text) (ci : Int) (stored : Text) :
    Attempt Work Unit := do
  let row ← orRaise (decode B stored)
  let value ← orRaise (item row ci)
  let pk ← orRaise (item row 0)
  txPut (indexKey table column (TypeCodec.encode B type value) pk) pk

def createIndex (name table column : Ident) : Attempt Work Text := do
  let c ← getCatalog
  match c.getTable table.text with
  | none => return "ERROR: no such table: ".toList ++ table.text
  | some schema =>
      if schema.columnIndex column.text < 0 then
        return "ERROR: no such column: ".toList ++ column.text
      else if c.hasIndex name.text then
        return "ERROR: index already exists: ".toList ++ name.text
      else if (c.indexForColumn table.text column.text).isSome then
        return "ERROR: column already indexed: ".toList ++ table.text ++ '(' :: column.text ++ [')']
      else
        storeIndex ⟨name.text, table.text, column.text⟩
        let rows ← scanTable m table.text
        rows.forM fun e => buildEntry B table.text column.text (schema.columnType column.text)
          (schema.columnIndex column.text) e.2
        return "OK: created index ".toList ++ name.text ++ " ON ".toList ++ table.text ++
          '(' :: column.text ++ ") — ".toList ++ str rows.length ++ " entries".toList

def dropIndex (name : Ident) : Attempt Work Text := do
  let c ← getCatalog
  match c.getIndex name.text with
  | none => return "ERROR: no such index: ".toList ++ name.text
  | some d =>
      deletePrefix m (indexKeys d.table d.column)
      forgetIndex name.text
      return "OK: dropped index ".toList ++ name.text

/-- `_eval`; `none` stands for an exception. -/
def eval (schema : TableSchema) (row : List Text) : Expr → Option Bool
  | .and left right => do
      let l ← eval schema row left
      let r ← eval schema row right
      return l && r
  | .or left right => do
      let l ← eval schema row left
      let r ← eval schema row right
      return l || r
  | .compare op (.column name) (.literal value) =>
      if schema.columnIndex name.text < 0 then some false
      else do
        let column ← item schema.columns (schema.columnIndex name.text)
        let cell ← item row (schema.columnIndex name.text)
        let cmp := TypeCodec.compare B (some column.type) cell value
        return match op with
          | .eq => cmp == 0
          | .ne => cmp != 0
          | .lt => cmp < 0
          | .gt => cmp > 0
          | .le => cmp ≤ 0
          | .ge => cmp ≥ 0
  | .not operand => (eval schema row operand).map (!·)
  | _ => some false

def accepts (schema : TableSchema) (condition : Option Expr) (row : List Text) : Option Bool :=
  match condition with
  | none => some true
  | some expr => eval B schema row expr

def matching (schema : TableSchema) (condition : Option Expr) :
    List (Text × Text) → Option (List (Text × List Text))
  | [] => some []
  | e :: rest => do
      let row ← decode B e.2
      let hit ← accepts B schema condition row
      let others ← matching schema condition rest
      return if hit then (e.1, row) :: others else others

def buildRow (schema : TableSchema) (columns : List Ident) (values : List Text) :
    Option (List Text) :=
  if columns = [] then
    if values.length ≠ schema.columns.length then none else some values
  else if columns.length ≠ values.length then none
  else
    (columns.zip values).foldlM
      (fun row e =>
        if schema.columnIndex e.1.text < 0 then none
        else some (row.set (schema.columnIndex e.1.text).toNat e.2))
      (List.replicate schema.columns.length [])

def entryOf (schema : TableSchema) (table : Text) (row : List Text) (pk : Text) (d : IndexDef) :
    Option Text := do
  let value ← item row (schema.columnIndex d.column)
  return indexKey table d.column (TypeCodec.encode B (schema.columnType d.column) value) pk

def insert (table : Ident) (columns : List Ident) (values : List Text) : Attempt Work Text := do
  let c ← getCatalog
  match c.getTable table.text with
  | none => return "ERROR: no such table: ".toList ++ table.text
  | some schema =>
      match buildRow schema columns values with
      | none => return "ERROR: column/value mismatch for INSERT into ".toList ++ table.text
      | some row => do
          let pk ← orRaise (item row 0)
          if (← txGet m (rowKey table.text pk)).isSome then
            return "ERROR: duplicate primary key: ".toList ++ pk
          else
            txPut (rowKey table.text pk) (encode row)
            (c.indexesForTable table.text).forM fun d => do
              txPut (← orRaise (entryOf B schema table.text row pk d)) pk
            return "OK: 1 row inserted".toList

def delete (table : Ident) (condition : Option Expr) : Attempt Work Text := do
  let c ← getCatalog
  match c.getTable table.text with
  | none => return "ERROR: no such table: ".toList ++ table.text
  | some schema => do
      let victims ← orRaise (matching B schema condition (← scanTable m table.text))
      victims.forM fun e => do
        txDelete e.1
        let pk ← orRaise (item e.2 0)
        (c.indexesForTable table.text).forM fun d => do
          txDelete (← orRaise (entryOf B schema table.text e.2 pk d))
      return "OK: ".toList ++ str victims.length ++
        (if victims.length = 1 then " row".toList else " rows".toList) ++ " deleted".toList

/-- `_simple_predicate`: a single comparison that an index can answer. -/
def simplePredicate : Option Expr → Option (Text × Comparison × Text)
  | some (.compare op (.column name) (.literal value)) =>
      if op = .ne then none else some (name.text, op, value)
  | _ => none

def opMatch (a : Text) (op : Comparison) (b : Text) : Bool :=
  match op with
  | .eq => a = b
  | .lt => a < b
  | .gt => b < a
  | .le => a ≤ b
  | .ge => b ≤ a
  | .ne => false

def indexRange (keys : Text) (op : Comparison) (v : Text) : Text × Text :=
  match op with
  | .eq => (keys ++ v, keys ++ v ++ [hiChar])
  | .gt | .ge => (keys ++ v, keys ++ [hiChar])
  | _ => (keys, keys ++ v ++ [hiChar])

/-- The loop of `_index_scan` over the entries that the scan has found. -/
def indexRows (x : Transaction) (schema : TableSchema) (keys : Text) (op : Comparison)
    (v : Text) : List (Text × Text) → Option (List (List Text))
  | [] => some []
  | (k, pk) :: rest =>
      match index k sep keys.length with
      | none => indexRows x schema keys op v rest
      | some i =>
          if opMatch (slice k keys.length i) op v then
            match x.get m (rowKey schema.name pk) with
            | none => indexRows x schema keys op v rest
            | some stored => do
                let row ← decode B stored
                let others ← indexRows x schema keys op v rest
                return row :: others
          else indexRows x schema keys op v rest

def indexScan (schema : TableSchema) (d : IndexDef) (op : Comparison) (value : Text) :
    Attempt Work (List (List Text)) := do
  let keys := indexKeys schema.name d.column
  let v := TypeCodec.encode B (schema.columnType d.column) value
  let found ← txScan m (indexRange keys op v).1 (indexRange keys op v).2
  orRaise (indexRows B m (← get).tx schema keys op v found)

def fullScan (schema : TableSchema) (table : Text) (condition : Option Expr) :
    Attempt Work (List (List Text)) := do
  let rows ← orRaise (matching B schema condition (← scanTable m table))
  return rows.map Prod.snd

def ordered (schema : TableSchema) (s : Select) (rows : List (List Text)) :
    Option (List (List Text)) :=
  match s.orderBy with
  | none => some rows
  | some name =>
      let oi := schema.columnIndex name.text
      if oi < 0 then some rows
      else if 2 ≤ rows.length ∧ ∃ row ∈ rows, item row oi = none then none
      else
        let type := (item schema.columns oi).map Column.type
        let sorted := rows.insertionSort fun a b =>
          TypeCodec.compare B type ((item a oi).getD []) ((item b oi).getD []) ≤ 0
        some (if s.orderDesc then sorted.reverse else sorted)

def limited (s : Select) (rows : List (List Text)) : List (List Text) :=
  match s.limit with
  | none => rows
  | some n =>
      if n < rows.length then rows.take (if n < 0 then (rows.length + n).toNat else n.toNat)
      else rows

def render (columns : List Text) (rows : List (List Text)) : Text :=
  let line := List.intercalate " | ".toList
  List.intercalate ['\n'] (line columns :: rows.map line ++
    ['(' :: str rows.length ++ (if rows.length = 1 then " row)".toList else " rows)".toList)])

/-- The rows of a query and the plan that found them. -/
def plannedRows (schema : TableSchema) (s : Select) : Attempt Work (List (List Text) × Text) := do
  let c ← getCatalog
  match simplePredicate s.condition with
  | none => return (← fullScan B m schema s.table.text s.condition, "full-scan".toList)
  | some (column, op, value) =>
      match c.indexForColumn s.table.text column with
      | some d =>
          return (← indexScan B m schema d op value,
            "index-scan on ".toList ++ column ++ " (".toList ++ d.name ++ ")".toList)
      | none =>
          return (← fullScan B m schema s.table.text s.condition,
            "full-scan (no index on ".toList ++ column ++ ")".toList)

def select (s : Select) : Attempt Work Text := do
  let c ← getCatalog
  match c.getTable s.table.text with
  | none => return "ERROR: no such table: ".toList ++ s.table.text
  | some schema =>
      let proj := if s.columns = ["*".toList] then schema.columnNames else s.columns
      match proj.find? fun column => schema.columnIndex column < 0 with
      | some column => return "ERROR: no such column: ".toList ++ column
      | none => do
          let (rows, plan) ← plannedRows B m schema s
          let rows ← orRaise (ordered B schema s rows)
          let out ← orRaise ((limited s rows).mapM fun row =>
            proj.mapM fun column => item row (schema.columnIndex column))
          return "-- plan: ".toList ++ plan ++ '\n' :: render proj out

def dispatch : Statement → Attempt Work Text
  | .createTable table columns => createTable table columns
  | .dropTable table => dropTable m table
  | .createIndex name table column => createIndex B m name table column
  | .dropIndex name => dropIndex m name
  | .insert table columns values => insert B m table columns values
  | .select s => select B m s
  | .delete table condition => delete B m table condition
  | .update => return "ERROR: UpdateStmt not supported yet".toList
  | .malformed message => return "ERROR: parse: ".toList ++ message

section Replies

variable {A : Type} {w : Work} {x : Attempt Work A} {k : A → Attempt Work Text}

/-- From `s` the program raises, or it replies; a reply that begins with `ERROR` comes with
the catalog and the transaction of `w`. -/
def Guarded (w : Work) (x : Attempt Work Text) (s : Work) : Prop :=
  Yields x s (fun reply t => "ERROR".toList <+: reply → t = w) fun _ => True

theorem guarded_skip (h : ∀ a t, Guarded w (k a) t) (s : Work) : Guarded w (x >>= k) s := by
  refine Yields.bind ?_
  unfold Yields
  split
  · exact h _ _
  · trivial

theorem guarded_read (hx : (attempt x w).2 = w) (h : ∀ a, Guarded w (k a) w) :
    Guarded w (x >>= k) w := by
  refine Yields.bind ?_
  unfold Yields
  split
  · rename_i a t heq
    obtain rfl : t = w := by rw [← hx, heq]
    exact h a
  · trivial

theorem snd_orRaise (o : Option A) : (attempt (orRaise o) w).2 = w := by cases o <;> rfl

theorem guarded_refuse (reply : Text) : Guarded w (pure reply) w := fun _ => rfl

theorem guarded_accept {c : Char} (hc : c ≠ 'E') (reply : Text) (s : Work) :
    Guarded w (pure (c :: reply)) s :=
  fun h => absurd (List.cons_prefix_cons.mp h).1 hc.symm

theorem guarded_catalog {k : Catalog → Attempt Work Text} (h : ∀ c, Guarded w (k c) w) :
    Guarded w (getCatalog >>= k) w :=
  guarded_read rfl h

/-- Behind a step that may change the state stands a reply that is no refusal. -/
theorem guarded_done {reply : A → Text} (hreply : ∀ a, (reply a).head? = some 'O') (s : Work) :
    Guarded w (x >>= fun a => pure (reply a)) s := by
  refine guarded_skip (fun a t => ?_) s
  rintro ⟨rest, heq⟩
  have hhead := hreply a
  rw [← heq] at hhead
  exact absurd (show 'E' = 'O' from Option.some.inj hhead) (by decide)

theorem guarded_createTable (table : Ident) (columns : List (Ident × Text)) :
    Guarded w (createTable table columns) w := by
  refine guarded_catalog fun c => ?_
  split
  · exact guarded_refuse _
  · split
    · exact guarded_done (fun _ => rfl) w
    · trivial

theorem guarded_dropTable (table : Ident) : Guarded w (dropTable m table) w := by
  refine guarded_catalog fun c => ?_
  split
  · exact guarded_refuse _
  · refine guarded_skip (fun _ s => guarded_skip (fun rows s => guarded_skip (fun _ s => ?_) s) s) w
    exact guarded_done (fun _ => rfl) s

theorem guarded_createIndex (name table column : Ident) :
    Guarded w (createIndex B m name table column) w := by
  refine guarded_catalog fun c => ?_
  split
  · exact guarded_refuse _
  · split
    · exact guarded_refuse _
    · split
      · exact guarded_refuse _
      · split
        · exact guarded_refuse _
        · refine guarded_skip (fun _ s => guarded_skip (fun rows s => ?_) s) w
          exact guarded_done (fun _ => rfl) s

theorem guarded_dropIndex (name : Ident) : Guarded w (dropIndex m name) w := by
  refine guarded_catalog fun c => ?_
  split
  · exact guarded_refuse _
  · exact guarded_skip (fun _ s => guarded_done (fun _ => rfl) s) w

theorem guarded_insert (table : Ident) (columns : List Ident) (values : List Text) :
    Guarded w (insert B m table columns values) w := by
  refine guarded_catalog fun c => ?_
  split
  · exact guarded_refuse _
  · split
    · exact guarded_refuse _
    · refine guarded_read (snd_orRaise _) fun pk => guarded_read (x := txGet m _) rfl fun row => ?_
      split
      · exact guarded_refuse _
      · exact guarded_skip (fun _ s => guarded_done (fun _ => rfl) s) w

theorem guarded_delete (table : Ident) (condition : Option Expr) :
    Guarded w (delete B m table condition) w := by
  refine guarded_catalog fun c => ?_
  split
  · exact guarded_refuse _
  · refine guarded_skip (fun rows s => guarded_skip (fun victims s => ?_) s) w
    exact guarded_done (fun _ => rfl) s

theorem guarded_select (q : Select) : Guarded w (select B m q) w := by
  refine guarded_catalog fun c => ?_
  split
  · exact guarded_refuse _
  · dsimp only
    split
    · exact guarded_refuse _
    · refine guarded_skip (fun found s => guarded_skip (fun rows s => guarded_skip ?_ s) s) w
      exact fun out s => guarded_accept (by decide) _ s

/-- A statement tests all that it refuses before its first write. -/
theorem guarded_dispatch (statement : Statement) : Guarded w (dispatch B m statement) w := by
  cases statement with
  | createTable table columns => exact guarded_createTable table columns
  | dropTable table => exact guarded_dropTable m table
  | createIndex name table column => exact guarded_createIndex B m name table column
  | dropIndex name => exact guarded_dropIndex m name
  | insert table columns values => exact guarded_insert B m table columns values
  | select q => exact guarded_select B m q
  | delete table condition => exact guarded_delete B m table condition
  | update | malformed => exact guarded_refuse _

end Replies

/-- A statement in a transaction: its reply, unless it raises, and what it leaves. -/
def run (statement : Statement) (w : Work) : Except Unit Text × Work :=
  attempt (dispatch B m statement) w

end LiteDB.RelationalEngine
