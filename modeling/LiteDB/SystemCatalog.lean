import LiteDB.CrashAtomicity
import LiteDB.RowCodec

namespace LiteDB.SystemCatalog

open CrashAtomicity (begin)
open Mvcc RowCodec SortedMaps StorageEngines VersionKeys

/-- Python's `l[i]`, where a negative index counts from the end. -/
def item {A : Type} (l : List A) (i : Int) : Option A :=
  if 0 ≤ i then l[i.toNat]?
  else if 0 ≤ i + l.length then l[(i + l.length).toNat]?
  else none

/-- A column of a table. -/
structure Column where
  name : Text
  type : Text
deriving DecidableEq

/-- The constructor raises when there are no columns. -/
structure TableSchema where
  name : Text
  columns : List Column
  nonempty : columns ≠ []
deriving DecidableEq

/-- An index (`index_def.py`). -/
structure IndexDef where
  name : Text
  table : Text
  column : Text
deriving DecidableEq

namespace TableSchema

def primaryKey (s : TableSchema) : Column := s.columns.head s.nonempty

/-- `-1` stands for a name that no column has. -/
def columnIndex (s : TableSchema) (name : Text) : Int :=
  match s.columns.findIdx? fun c => c.name = name with
  | some i => i
  | none => -1

def columnType (s : TableSchema) (name : Text) : Option Text :=
  if s.columnIndex name < 0 then none
  else (item s.columns (s.columnIndex name)).map Column.type

def columnNames (s : TableSchema) : List Text := s.columns.map Column.name

def serialize (s : TableSchema) : Text :=
  encode (s.name :: s.columns.flatMap fun c => [c.name, c.type])

def pairs : List Text → Option (List Column)
  | [] => some []
  | [_] => none
  | name :: type :: rest => (pairs rest).map (⟨name, type⟩ :: ·)

/-- `none` stands for an exception. -/
def deserialize (B : Builtins) (s : Text) : Option TableSchema := do
  let f ← decode B s
  let columns ← pairs (f.drop 1)
  let name ← f[0]?
  if h : columns ≠ [] then some ⟨name, columns, h⟩ else none

end TableSchema

namespace IndexDef

def serialize (d : IndexDef) : Text := encode [d.name, d.table, d.column]

def deserialize (B : Builtins) (s : Text) : Option IndexDef := do
  let f ← decode B s
  return ⟨← f[0]?, ← f[1]?, ← f[2]?⟩

end IndexDef

def tablePrefix : Text := "__catalog__/table/".toList

def indexPrefix : Text := "__catalog__/index/".toList

/-- The cache of what is stored under two prefixes of keys (`catalog.py`). -/
structure Catalog where
  tables : Dict Text TableSchema
  indexes : Dict Text IndexDef

namespace Catalog

variable {E : Backend} (B : Builtins)

def load (m : MvccEngine E) (x : Transaction) : Option Catalog := do
  let storedTables ← x.scan m tablePrefix (tablePrefix ++ [hiChar])
  let tables ← storedTables.foldlM
    (fun d e => (TableSchema.deserialize B e.2).map fun s => d.set s.name s) Dict.empty
  let storedIndexes ← x.scan m indexPrefix (indexPrefix ++ [hiChar])
  let indexes ← storedIndexes.foldlM
    (fun d e => (IndexDef.deserialize B e.2).map fun i => d.set i.name i) Dict.empty
  return ⟨tables, indexes⟩

def init (m : MvccEngine E) : Option Catalog := load B m (begin m)

def getTable (c : Catalog) (name : Text) : Option TableSchema := c.tables.get? name

def hasTable (c : Catalog) (name : Text) : Bool := (c.getTable name).isSome

def getIndex (c : Catalog) (name : Text) : Option IndexDef := c.indexes.get? name

def hasIndex (c : Catalog) (name : Text) : Bool := (c.getIndex name).isSome

def indexesForTable (c : Catalog) (table : Text) : List IndexDef :=
  (c.indexes.entries.map Prod.snd).filter fun d => d.table = table

def indexForColumn (c : Catalog) (table column : Text) : Option IndexDef :=
  (c.indexes.entries.map Prod.snd).find? fun d => d.table = table ∧ d.column = column

end Catalog

section RoundTrips

variable (B : Builtins)

theorem pairs_flatMap (columns : List Column) :
    TableSchema.pairs (columns.flatMap fun c => [c.name, c.type]) = some columns := by
  induction columns with
  | nil => rfl
  | cons c columns ih => simp [TableSchema.pairs, ih]

theorem deserialize_serialize (s : TableSchema) :
    TableSchema.deserialize B s.serialize = some s := by
  simp [TableSchema.deserialize, TableSchema.serialize, decode_encode, pairs_flatMap, s.nonempty]

theorem index_deserialize_serialize (d : IndexDef) :
    IndexDef.deserialize B d.serialize = some d := by
  simp [IndexDef.deserialize, IndexDef.serialize, decode_encode]

theorem round_trips : (∀ fields, decode B (encode fields) = some fields) ∧
    Function.Injective encode ∧
    (∀ fields fields', encode (fields ++ fields') = encode fields ++ encode fields') ∧
    (∀ s : TableSchema, TableSchema.deserialize B s.serialize = some s) ∧
    ∀ d : IndexDef, IndexDef.deserialize B d.serialize = some d := by
  refine ⟨decode_encode B, fun fields fields' h => ?_, encode_append, deserialize_serialize B,
    index_deserialize_serialize B⟩
  have hdecode := congrArg (decode B) h
  rwa [decode_encode, decode_encode, Option.some.injEq] at hdecode

end RoundTrips

end LiteDB.SystemCatalog
