/-
The standard libraries as a whole.

* `Library.all` — the libraries in the order in which they are opened, the base library first;
* `Library.bind` — binds a library's functions and constants in a table of its own, or in the
  global table for the base library;
* `World.withLibraries` — a fresh instance with every library opened;
* `Behaviour.standard` — the code of all built-in functions beside that of a host.

Design notes: opening a library again overwrites its bindings.  The native functions stay the
same; protected calls and yields are created anew.
-/
import Lua.Library.Base
import Lua.Library.Coroutine
import Lua.Library.Debug
import Lua.Library.Math
import Lua.Library.String
import Lua.Library.Table
import Lua.Library.Utf8

namespace Lua

/-- A standard library: the global it is bound to, and its native functions by field. -/
structure Library where
  name : String
  functions : List (String × Builtin)
  deriving DecidableEq

namespace Library

/-- The name of the global table, within itself too. -/
def globalName : String := "_G"

/-- Whether the functions are bound in the global table itself. -/
def isBase (l : Library) : Bool := l.name == globalName

/-- A library whose functions are bound under their own names. -/
def ofFunctions (name : String) (fs : List Builtin) : Library :=
  ⟨name, fs.map fun f => (f.name, f)⟩

def base : Library :=
  .ofFunctions globalName <| List.map Builtin.base
    [.assert, .collectgarbage, .error, .getmetatable, .ipairs, .next, .pairs, .print,
     .rawequal, .rawget, .rawlen, .rawset, .select, .setmetatable, .tonumber, .tostring, .type]

def table : Library :=
  .ofFunctions "table" <| List.map Builtin.table
    [.concat, .insert, .move, .pack, .remove, .sort, .unpack]

def string : Library :=
  .ofFunctions "string" <| List.map Builtin.string
    [.byte, .char, .find, .format, .gmatch, .gsub, .len, .lower, .matchPattern, .rep, .reverse,
     .sub, .upper]

def utf8 : Library :=
  .ofFunctions "utf8" <| List.map Builtin.utf8 [.char, .codepoint, .codes, .len, .offset]

def math : Library :=
  .ofFunctions "math" <| List.map Builtin.math
    [.abs, .acos, .asin, .atan, .ceil, .cos, .deg, .exp, .floor, .fmod, .log, .max, .min, .modf,
     .rad, .random, .randomseed, .sin, .sqrt, .tan, .tointeger, .type, .ult]

def coroutine : Library :=
  .ofFunctions "coroutine" <| List.map Builtin.coroutine
    [.close, .create, .isyieldable, .resume, .running, .status, .wrap]

def debug : Library :=
  .ofFunctions "debug" <| List.map Builtin.debug
    [.getinfo, .getmetatable, .setmetatable, .traceback]

/-- The libraries in the order in which they are opened. -/
def all : List Library := [base, table, string, utf8, math, coroutine, debug]

variable {H : Host}

/-! ### Opening -/

/-- The sequence functions of a library. -/
def sequences (l : Library) : List (SequenceClosure H) :=
  if l.name = globalName then [.protectedCall false, .protectedCall true]
  else if l.name = "coroutine" then [.yield]
  else []

/-- Binds a field of a table. -/
def setField (m : Memory H) (t : TableId) (name : String) (v : Value) : Memory H :=
  { m with heap := m.heap.setField t name v }

/-- Makes strings index a table, so that its functions are methods of strings. -/
def setStringIndex (m : Memory H) (t : TableId) : Memory H :=
  let (index, m) := m.allocate (Table.empty.setField "__index" (.table t))
  { m with heap := { m.heap with
      metatables := { m.heap.metatables with string := some index } } }

/-- Adds the fields of a library that are not functions. -/
def addConstants (l : Library) (t : TableId) (m : Memory H) : Memory H :=
  if l.name = globalName then
    setField (setField m t globalName (.table t)) t "_VERSION" (.ofText versionText)
  else if l.name = "string" then setStringIndex m t
  else if l.name = "utf8" then setField m t "charpattern" (.string Utf8s.charPattern)
  else if l.name = "math" then
    [("huge", Value.float Mathematics.huge), ("maxinteger", .int Int64.maxValue),
     ("mininteger", .int Int64.minValue), ("pi", .float Mathematics.pi)].foldl
      (fun m (k, v) => setField m t k v) m
  else m

/-- Binds a library whose sequence functions were created before, given with their names. -/
def bind (l : Library) (sequences : List (String × Function)) (m : Memory H) : Memory H :=
  let globals := m.heap.globals
  let (t, m) := if l.isBase then (globals, m) else m.allocate .empty
  let natives := l.functions.map fun (k, f) => (k, Function.builtin f)
  let m := (natives ++ sequences).foldl (fun m (k, f) => setField m t k (.function f)) m
  let m := addConstants l t m
  if l.isBase then m else setField m globals l.name (.table t)

/-- Opens a library for a program that runs. -/
def open_ (l : Library) : Program H Unit := do
  let created ← l.sequences.mapM fun c => do
    pure ((Closure.sequence c).name, ← Program.createFunction (.sequence c))
  Program.setMemory (l.bind created (← Program.memory))

/-- Opens every library. -/
def openAll : Program H Unit := all.forM open_

/-- The code of a built-in function. -/
def run (engine : Regex.Engine) : Builtin → List Value → Program H (List Value)
  | .base f => Base.run f
  | .table f => Tables.run f
  | .string f => Strings.run engine f
  | .utf8 f => Utf8s.run f
  | .math f => Mathematics.run f
  | .coroutine f => Coroutines.run f
  | .debug f => Debugging.run f

end Library

/-! ### Behaviour -/

/-- The code that a host brings: its natives, its sequences with what they do on input and on
errors, its loops, and the engine for regular expressions that it is linked with. -/
structure HostCode (H : Host) where
  native : H.Native → List Value → Program H (List Value)
  start : H.Sequence → H.State
  poll : H.State → List Value → Program H (Step H)
  recover : H.State → TracedError → Program H (Step H)
  advance : H.Loop → Program H (H.Loop ⊕ H.Answer)
  engine : Regex.Engine := .backtracking

namespace Behaviour

variable {H : Host}

/-- What a native function does that was created while the instance ran. -/
def runNative (host : HostCode H) : NativeClosure H → List Value → Program H (List Value)
  | .wrap t => Library.Coroutines.callWrapped t
  | .walk cell => fun _ => Library.Strings.walkStep host.engine cell
  | .host _ code => host.native code

/-- The state in which a sequence is entered. -/
def startSequence (host : HostCode H) : SequenceClosure H → Activation H
  | .protectedCall withHandler => .protectedCall (.start withHandler)
  | .yield => .yield false
  | .host _ code => .host (host.start code)

/-- What a sequence does with an input. -/
def pollSequence (host : HostCode H) (a : Activation H) (input : List Value) :
    Program H (Step H) :=
  match a with
  | .protectedCall p => Program.ofArgument (Library.pollProtected p input)
  | .yield suspended => .done (Library.pollYield suspended input)
  | .host s => host.poll s input

/-- What a sequence does when a call it made has failed. -/
def recoverSequence (host : HostCode H) (a : Activation H) (e : TracedError) :
    Program H (Step H) :=
  match a with
  | .protectedCall p => Library.recoverProtected p e
  | .yield _ => .fail (.traced e)
  | .host s => host.recover s e

/-- The code of the standard libraries beside that of a host. -/
def standard (host : HostCode H) : Behaviour H where
  builtin := Library.run host.engine
  native := runNative host
  start := startSequence host
  poll := pollSequence host
  recover := recoverSequence host
  advance := host.advance

end Behaviour

/-! ### Instances -/

namespace World

variable {H : Host}

/-- Creates functions and gives them their names. -/
def defineAll (w : World H) : List (Closure H) → List (String × Function) × World H
  | [] => ([], w)
  | c :: rest =>
    let (f, w) := w.define c
    let (created, w) := w.defineAll rest
    ((c.name, f) :: created, w)

/-- Opens a library. -/
def openLibrary (w : World H) (l : Library) : World H :=
  let (created, w) := w.defineAll (l.sequences.map .sequence)
  { w with memory := l.bind created w.memory }

/-- A fresh instance with every library opened. -/
def withLibraries (limits : Configuration) (shared : H.Shared) : World H :=
  Library.all.foldl openLibrary (.initial limits shared)

end World

namespace Program

variable {H : Host}

/-- The value of a global variable. -/
def getGlobal (name : String) : Program H Value := do
  let h ← heap
  pure (h.field h.globals name)

/-- Sets a global variable. -/
def setGlobal (name : String) (v : Value) : Program H Unit := do
  let h ← heap
  setHeap (h.setField h.globals name v)

/-- Calls the function in a global variable. -/
def callGlobal (name : String) (args : List Value) : Program H (List Value) := do
  let f ← getGlobal name
  if f.isNil then .fail (.traced (.untraced (.argument (.notCallable "nil"))))
  else callOrFail f args

end Program

end Lua
