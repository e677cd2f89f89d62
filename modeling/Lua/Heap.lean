/-
The heap: tables, and the metatables of the other types.

Every table has a metatable of its own, or none; all other values of one type share one.

* `Heap.metafield` — the entry of a value's metatable, for events such as `__index`;
* `Heap.index` — reading a field of a value, following `__index`;
* `Heap.prepareCall` — the function that a call of a value runs, following `__call`.

Design notes: `index` follows tables and strings for at most `indexLimit` steps, since a
chain of metatables may be a cycle.  A function as `__index` is not called.
-/
import Lua.Table

namespace Lua

/-- The metatables shared by all values of a type. -/
structure TypeMetatables where
  boolean : Option TableId := none
  number : Option TableId := none
  string : Option TableId := none
  function : Option TableId := none
  thread : Option TableId := none
  deriving DecidableEq

structure Heap where
  tables : Array Table
  metatables : TypeMetatables
  globals : TableId
  deriving DecidableEq

namespace Heap

/-- A heap with an empty global table. -/
def initial : Heap := ⟨#[.empty], {}, ⟨0⟩⟩

/-! ### Tables -/

/-- The contents of a table. -/
def table (h : Heap) (t : TableId) : Table := h.tables.getD t.index .empty

/-- Replaces the contents of a table. -/
def store (h : Heap) (t : TableId) (content : Table) : Heap :=
  { h with tables := h.tables.setIfInBounds t.index content }

/-- A new table. -/
def allocate (h : Heap) (content : Table) : TableId × Heap :=
  (⟨h.tables.size⟩, { h with tables := h.tables.push content })

/-- The value of a key of a table, nil if it is absent. -/
def lookup (h : Heap) (t : TableId) (k : Value) : Value := (h.table t).lookup k

/-- The value at a text key of a table, nil if it is absent. -/
def field (h : Heap) (t : TableId) (name : String) : Value := (h.table t).field name

/-- Binds a key of a table. -/
def set (h : Heap) (t : TableId) (k v : Value) : Except ArgumentError Heap := do
  let content ← (h.table t).set k v
  pure (h.store t content)

/-- Binds a text key of a table. -/
def setField (h : Heap) (t : TableId) (name : String) (v : Value) : Heap :=
  h.store t ((h.table t).setField name v)

/-- Gives a table a metatable, or takes it away. -/
def setMetatable (h : Heap) (t : TableId) (m : Option TableId) : Heap :=
  h.store t { h.table t with metatable := m }

/-! ### Metatables -/

/-- The metatable of a value. -/
def metatable? (h : Heap) : Value → Option TableId
  | .nil => none
  | .boolean _ => h.metatables.boolean
  | .number _ => h.metatables.number
  | .string _ => h.metatables.string
  | .function _ => h.metatables.function
  | .thread _ => h.metatables.thread
  | .table t => (h.table t).metatable

/-- The entry of a value's metatable at a text key, if there is one. -/
def metafield (h : Heap) (v : Value) (name : String) : Option Value := do
  let m ← h.metatable? v
  (h.field m name).notNil?

/-- How many values a chain of `__index` may have. -/
def indexLimit : Nat := 2000

/-- Reads a field along at most `fuel` values of a chain of `__index`. -/
def indexChain (h : Heap) (key : Value) : Nat → Value → Except ArgumentError Value
  | 0, _ => .error (.metamethodLoop "__index")
  | fuel + 1, v => do
    let found ← match v with
      | .table t => (h.table t).get key
      | _ => pure .nil
    if !found.isNil then pure found
    else match h.metafield v "__index" with
      | some (.table t) => indexChain h key fuel (.table t)
      | some (.string s) => indexChain h key fuel (.string s)
      | some _ => pure .nil
      | none => match v with
        | .table _ => pure .nil
        | other => .error (.notIndexable other.typeName)

/-- Reads a field of a value. -/
def index (h : Heap) (v key : Value) : Except ArgumentError Value :=
  indexChain h key indexLimit v

/-- The function that a call runs, and its arguments: a value with a function as `__call` is
called through it and becomes the first argument. -/
def prepareCall (h : Heap) (callee : Value) (args : List Value) :
    Except ArgumentError (Function × List Value) :=
  match callee with
  | .function f => .ok (f, args)
  | other => match h.metafield other "__call" with
    | some (.function f) => .ok (f, other :: args)
    | _ => .error (.notCallable other.typeName)

end Heap

end Lua
