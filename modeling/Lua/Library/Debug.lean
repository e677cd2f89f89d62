/-
The debug library.

Only native functions exist, so what there is to know of a function is its name.

* `traceback` — the frames of a thread, then those of the threads that wait for it;
* `getinfo` — a fixed report about a function or about a frame;
* `getmetatable`, `setmetatable` — the metatable of any value, whatever protects it.
-/
import Lua.Library.Base

namespace Lua.Library.Debugging

variable {H : Host}

/-- Splits off a thread in first place: the thread, the other arguments, and how many places
they have moved. -/
def threadArgument (w : World H) (args : List Value) : ThreadId × List Value × Nat :=
  match args with
  | .thread t :: rest => (t, rest, 1)
  | _ => (w.current, args, 0)

/-! ### Stack traces -/

/-- The lines for one thread: its frames, innermost first and without the first `skip`, then the
thread itself unless it is the main one. -/
def threadTrace (w : World H) (skip : Nat) (t : ThreadId) : List TraceEntry :=
  ((w.thread t).frameNames.drop skip).map .native ++
    (if t = .main then [] else [.coroutine t.number])

/-- The lines for a thread and the threads that wait for it.  Level 1 is the innermost frame. -/
def stackTrace (w : World H) (t : ThreadId) (level : Nat) : List TraceEntry :=
  match w.resumeChain w.threads.size t with
  | [] => []
  | t :: rest => threadTrace w (level - 1) t ++ rest.flatMap (threadTrace w 0)

/-- The level argument, 1 by default, or 0 for a thread that was given. -/
def levelArgument (args : List Value) (moved : Nat) : Except ArgumentError Nat :=
  match argument? Int64 args 1 with
  | .ok (some n) => .ok n.toInt.toNat
  | .ok none => .ok (1 - moved)
  | .error _ => .error (.invalidArgument "number" (args.getD 1 .nil).typeName (1 + moved))

/-- A message and the stack trace.  A message that is not text is returned as it is. -/
def traceback (args : List Value) : Program H (List Value) := do
  let w ← Program.world
  let (t, args, moved) := threadArgument w args
  let message ← match args.getD 0 .nil with
    | .nil => pure ""
    | .string s => pure (Value.text (.string s) ++ "\n")
    | .number n => pure (Value.text (.number n) ++ "\n")
    | other => return [other]
  let level ← levelArgument args moved
  let lines := (stackTrace w t level).map fun entry => "\n\t" ++ entry.text
  pure [.ofText (message ++ "stack traceback:" ++ String.join lines)]

/-! ### Reports -/

/-- What `getinfo` reports about the function of a name. -/
def report (name : String) (function : Option Function) : Table :=
  let t := [("what", Value.ofText "C"), ("source", .ofText "=[C]"), ("short_src", .ofText "[C]"),
      ("linedefined", .int (-1)), ("lastlinedefined", .int (-1)), ("currentline", .int (-1)),
      ("name", .ofText name), ("namewhat", .ofText ""), ("nups", .int 0), ("nparams", .int 0),
      ("isvararg", .boolean true), ("istailcall", .boolean false)].foldl
    (fun (t : Table) (k, v) => t.setField k v) .empty
  match function with
  | some f => t.setField "func" (.function f)
  | none => t

/-- The report about a function, or about the frame at a level; nil if there is none. -/
def getinfo (args : List Value) : Program H (List Value) := do
  let w ← Program.world
  let (t, args, moved) := threadArgument w args
  match args.getD 0 .nil with
  | .function f => pure [.table (← Program.allocate (report (w.nameOf f) (some f)))]
  | .number _ =>
    let level := (← argument Int64 args 0).toInt
    let name := if level = 0 then some "getinfo"
      else if level < 0 then none
      else (w.thread t).frameNames[level.toNat - 1]?
    match name with
    | some name => pure [.table (← Program.allocate (report name none))]
    | none => pure [.nil]
  | other => .raise (.argument (.invalidArgument "function or level" other.typeName moved))

/-! ### Metatables -/

def getmetatable (args : List Value) : Program H (List Value) := do
  let v ← anyArgument args 0
  pure [(((← Program.heap).metatable? v).map Value.table).getD .nil]

/-- Sets the metatable of a table, or of all values of a type. -/
def withMetatable (h : Heap) (v : Value) (m : Option TableId) : Except Cause Heap :=
  let shared := h.metatables
  match v with
  | .table t => .ok (h.setMetatable t m)
  | .boolean _ => .ok { h with metatables := { shared with boolean := m } }
  | .number _ => .ok { h with metatables := { shared with number := m } }
  | .string _ => .ok { h with metatables := { shared with string := m } }
  | .function _ => .ok { h with metatables := { shared with function := m } }
  | .thread _ => .ok { h with metatables := { shared with thread := m } }
  | .nil => .error (.ofText "cannot set the metatable of nil")

def setmetatable (args : List Value) : Program H (List Value) := do
  let v ← anyArgument args 0
  let m ← Base.metatableArgument args
  Program.setHeap (← withMetatable (← Program.heap) v m)
  pure [v]

/-- The functions of the library. -/
def run : DebugFunction → List Value → Program H (List Value)
  | .getinfo => getinfo
  | .getmetatable => getmetatable
  | .setmetatable => setmetatable
  | .traceback => traceback

end Lua.Library.Debugging
