import LiteDB.LsmEngine

namespace LiteDB.StorageEngines

open LsmEngine (WriteOp)
open SortedMaps
open VersionKeys (Text)

/-- What an operation makes of its key when the values that pass `reserved` stand for
deletions. -/
def effect (reserved : Text → Bool) : WriteOp → Text × Option Text
  | .put key value => (key, if reserved value then none else some value)
  | .delete key => (key, none)

/-- The calls of an engine. `maintain` is what it does to itself between them. -/
structure Backend where
  State : Type
  scan : State → Text → Text → List (Text × Text)
  writeBatch : State → List WriteOp → State
  Maintenance : Type
  maintain : State → Maintenance → State

/-- An engine whose states stand for sorted maps. -/
structure StorageEngine extends Backend where
  reserved : Text → Bool
  contents : State → SortedMap Text Text
  scan_eq : ∀ s lo hi, scan s lo hi = (contents s).scan lo hi
  contents_writeBatch : ∀ s ops,
    contents (writeBatch s ops) = (contents s).edit (ops.map (effect reserved))
  contents_maintain : ∀ s m, contents (maintain s m) = contents s

instance : Coe StorageEngine Backend := ⟨StorageEngine.toBackend⟩

end LiteDB.StorageEngines
