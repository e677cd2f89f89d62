/-
The base library.

Reading and writing of values without metatables, types and metatables, iteration, conversion
between numbers and text, raising errors, printing.
-/
import Lua.Library.Text

namespace Lua.Library.Base

variable {H : Host}

/-! ### Errors -/

/-- Passes its arguments on if the first is true, else raises the second. -/
def assert (args : List Value) : Program H (List Value) := do
  let v ← anyArgument args 0
  if v.isTruthy then pure args
  else match args[1]? with
    | some message => .raise (.user (some message) 1)
    | none => .raise (.ofText "assertion failed!")

/-- Raises a value. -/
def error (args : List Value) : Program H (List Value) := do
  let level ← argument? Int64 args 1
  .raise (.user args.head? (level.getD 1))

/-! ### Collection -/

/-- Memory is not collected: every request is answered at once and the heap has no size. -/
def collectgarbage (args : List Value) : Program H (List Value) := do
  let option := (← argument? Bytes args 0).getD (Bytes.ofString "collect")
  let is := fun names => names.any fun name => Bytes.ofString name == option
  if is ["collect", "stop", "restart"] then pure [.int 0]
  else if is ["count"] then pure [.float 0.0]
  else if is ["step", "isrunning"] then pure [.boolean true]
  else if is ["incremental", "generational"] then pure [.ofText "incremental"]
  else .raise (.argument (.invalidArgument "valid option" "invalid option" 0))

/-! ### Metatables -/

/-- The field that hides and protects a metatable. -/
def guardField : String := "__metatable"

/-- The metatable of a value, or what its metatable shows in its place. -/
def getmetatable (args : List Value) : Program H (List Value) := do
  let v ← anyArgument args 0
  let heap ← Program.heap
  match heap.metatable? v with
  | none => pure [.nil]
  | some m => match (heap.field m guardField).notNil? with
    | some guard => pure [guard]
    | none => pure [.table m]

/-- The metatable argument: a table, or nil for none. -/
def metatableArgument (args : List Value) : Except ArgumentError (Option TableId) :=
  match args.getD 1 .nil with
  | .nil => .ok none
  | .table m => .ok (some m)
  | other => .error (.invalidArgument "nil or table" other.typeName 1)

/-- Sets the metatable of a table, unless the present one is protected. -/
def setmetatable (args : List Value) : Program H (List Value) := do
  let t ← argument TableId args 0
  let m ← metatableArgument args
  let heap ← Program.heap
  match heap.metatable? (.table t) with
  | some current =>
    if !(heap.field current guardField).isNil then
      .raise (.ofText "cannot change a protected metatable")
  | none => pure ()
  Program.setHeap (heap.setMetatable t m)
  pure [.table t]

/-! ### Iteration -/

/-- The entry after an index, until the first nil. -/
def ipairsStep (args : List Value) : Program H (List Value) := do
  let i := (← argument Int64 args 1) + 1
  let v ← (← Program.heap).index (args.getD 0 .nil) (.int i)
  pure (if v.isNil then [.nil] else [.int i, v])

def ipairs (args : List Value) : Program H (List Value) := do
  let v ← anyArgument args 0
  pure [.function (.builtin (.base .ipairsStep)), v, .int 0]

/-- The entry after a key of a table. -/
def next (args : List Value) : Program H (List Value) := do
  let t ← argument TableId args 0
  match ← (← Program.table t).next (args.getD 1 .nil) with
  | some (k, v) => pure [k, v]
  | none => pure [.nil]

/-- The three values that iterate over a table; `__pairs` may give others. -/
def pairs (args : List Value) : Program H (List Value) := do
  let v ← anyArgument args 0
  match (← Program.heap).metafield v "__pairs" with
  | some metamethod => return Values.adjust 3 (← Program.callOrFail metamethod [v])
  | none =>
    let t ← argument TableId args 0
    pure [.function (.builtin (.base .next)), .table t, .nil]

/-! ### Raw access -/

def rawequal (args : List Value) : Program H (List Value) := do
  let a ← anyArgument args 0
  let b ← anyArgument args 1
  pure [.boolean (a.equals b)]

def rawget (args : List Value) : Program H (List Value) := do
  let t ← argument TableId args 0
  let k ← anyArgument args 1
  pure [← (← Program.table t).get k]

/-- The border of a table, or the length of a string. -/
def rawlen (args : List Value) : Program H (List Value) := do
  match args.head? with
  | some (.table t) => pure [.nat (← Program.table t).border]
  | some (.string s) => pure [.nat s.length]
  | _ =>
    .raise (.argument (.invalidArgument "table or string" (args.getD 0 .nil).typeName 0))

def rawset (args : List Value) : Program H (List Value) := do
  let t ← argument TableId args 0
  let k ← anyArgument args 1
  let v ← anyArgument args 2
  Program.setTable t (← (← Program.table t).set k v)
  pure [.table t]

/-! ### Arguments -/

/-- The values after an index, counted from the end if it is negative, or how many there are. -/
def select (args : List Value) : Program H (List Value) := do
  let rest := args.drop 1
  if args.head? = some (.ofText "#") then return [.nat rest.length]
  let i := (← argument Int64 args 0).toInt
  let start := if i < 0 then rest.length + i else i - 1
  if start < 0 then .raise (.argument (.outOfRange "index out of range" 0))
  else pure (rest.drop start.toNat)

/-! ### Types and text -/

def type (args : List Value) : Program H (List Value) := do
  pure [.ofText (← anyArgument args 0).typeName]

/-- The number a value is or denotes; with a base, the integer a string denotes in it. -/
def tonumber (args : List Value) : Program H (List Value) := do
  match ← argument? Int64 args 1 with
  | none =>
    let v ← anyArgument args 0
    pure [(v.toNumber?.map Value.number).getD .nil]
  | some base =>
    if base < 2 ∨ 36 < base then .raise (.argument (.outOfRange "base out of range" 1))
    else
      let s ← argument Bytes args 0
      let parsed :=
        if Utf8.isText s then
          Numeral.parseInBase? base.toInt.toNat (Utf8.characters s)
        else none
      pure [(parsed.map Value.int).getD .nil]

def tostring (args : List Value) : Program H (List Value) := do
  let v ← anyArgument args 0
  pure [.string (← textOf v)]

/-- The texts of values with tabs between them. -/
def line : List Value → Program H Bytes
  | [] => pure []
  | [v] => textOf v
  | v :: rest => do
    let s ← textOf v
    pure (s ++ Ascii.byte '\t' :: (← line rest))

/-- Prints its arguments on a line. -/
def print (args : List Value) : Program H (List Value) := do
  let s ← line args
  let m ← Program.memory
  Program.setMemory { m with printed := m.printed ++ s ++ [Ascii.byte '\n'] }
  pure []

/-- The functions of the library. -/
def run : BaseFunction → List Value → Program H (List Value)
  | .assert => assert
  | .collectgarbage => collectgarbage
  | .error => error
  | .getmetatable => getmetatable
  | .ipairs => ipairs
  | .next => next
  | .pairs => pairs
  | .print => print
  | .rawequal => rawequal
  | .rawget => rawget
  | .rawlen => rawlen
  | .rawset => rawset
  | .select => select
  | .setmetatable => setmetatable
  | .tonumber => tonumber
  | .tostring => tostring
  | .type => type
  | .ipairsStep => ipairsStep

end Lua.Library.Base
