/-
The built-in functions, by library.

A built-in is one function for ever: opening a library twice binds the same functions
again.  The iteration steps at the end of a family are not bound to a name of their own;
other functions of the family hand them out.

* `Builtin.name` — the name a function shows in stack traces;
* `Builtin.number` — a number of its own for every function.
-/

namespace Lua

/-- The base library. -/
inductive BaseFunction where
  | assert | collectgarbage | error | getmetatable | ipairs | next | pairs | print
  | rawequal | rawget | rawlen | rawset | select | setmetatable | tonumber | tostring | type
  | ipairsStep
  deriving DecidableEq, Repr

/-- The table library. -/
inductive TableFunction where
  | concat | insert | move | pack | remove | sort | unpack
  deriving DecidableEq, Repr

/-- The string library. -/
inductive StringFunction where
  | byte | char | find | format | gmatch | gsub | len | lower | matchPattern | rep | reverse
  | sub | upper
  deriving DecidableEq, Repr

/-- The UTF-8 library. -/
inductive Utf8Function where
  | char | codepoint | codes | len | offset
  | codesStep (strict : Bool)
  deriving DecidableEq, Repr

/-- The mathematical library. -/
inductive MathFunction where
  | abs | acos | asin | atan | ceil | cos | deg | exp | floor | fmod | log | max | min | modf
  | rad | random | randomseed | sin | sqrt | tan | tointeger | type | ult
  deriving DecidableEq, Repr

/-- The coroutine library, apart from `yield`. -/
inductive CoroutineFunction where
  | close | create | isyieldable | resume | running | status | wrap
  deriving DecidableEq, Repr

/-- The debug library. -/
inductive DebugFunction where
  | getinfo | getmetatable | setmetatable | traceback
  deriving DecidableEq, Repr

/-- A built-in function. -/
inductive Builtin where
  | base (f : BaseFunction)
  | table (f : TableFunction)
  | string (f : StringFunction)
  | utf8 (f : Utf8Function)
  | math (f : MathFunction)
  | coroutine (f : CoroutineFunction)
  | debug (f : DebugFunction)
  deriving DecidableEq, Repr

def BaseFunction.name : BaseFunction → String
  | .assert => "assert"
  | .collectgarbage => "collectgarbage"
  | .error => "error"
  | .getmetatable => "getmetatable"
  | .ipairs => "ipairs"
  | .next => "next"
  | .pairs => "pairs"
  | .print => "print"
  | .rawequal => "rawequal"
  | .rawget => "rawget"
  | .rawlen => "rawlen"
  | .rawset => "rawset"
  | .select => "select"
  | .setmetatable => "setmetatable"
  | .tonumber => "tonumber"
  | .tostring => "tostring"
  | .type => "type"
  | .ipairsStep => "ipairs_step"

def TableFunction.name : TableFunction → String
  | .concat => "concat"
  | .insert => "insert"
  | .move => "move"
  | .pack => "pack"
  | .remove => "remove"
  | .sort => "sort"
  | .unpack => "unpack"

def StringFunction.name : StringFunction → String
  | .byte => "byte"
  | .char => "char"
  | .find => "find"
  | .format => "format"
  | .gmatch => "gmatch"
  | .gsub => "gsub"
  | .len => "len"
  | .lower => "lower"
  | .matchPattern => "match"
  | .rep => "rep"
  | .reverse => "reverse"
  | .sub => "sub"
  | .upper => "upper"

def Utf8Function.name : Utf8Function → String
  | .char => "char"
  | .codepoint => "codepoint"
  | .codes => "codes"
  | .len => "len"
  | .offset => "offset"
  | .codesStep _ => "codes_step"

def MathFunction.name : MathFunction → String
  | .abs => "abs"
  | .acos => "acos"
  | .asin => "asin"
  | .atan => "atan"
  | .ceil => "ceil"
  | .cos => "cos"
  | .deg => "deg"
  | .exp => "exp"
  | .floor => "floor"
  | .fmod => "fmod"
  | .log => "log"
  | .max => "max"
  | .min => "min"
  | .modf => "modf"
  | .rad => "rad"
  | .random => "random"
  | .randomseed => "randomseed"
  | .sin => "sin"
  | .sqrt => "sqrt"
  | .tan => "tan"
  | .tointeger => "tointeger"
  | .type => "type"
  | .ult => "ult"

def CoroutineFunction.name : CoroutineFunction → String
  | .close => "close"
  | .create => "create"
  | .isyieldable => "isyieldable"
  | .resume => "resume"
  | .running => "running"
  | .status => "status"
  | .wrap => "wrap"

def DebugFunction.name : DebugFunction → String
  | .getinfo => "getinfo"
  | .getmetatable => "getmetatable"
  | .setmetatable => "setmetatable"
  | .traceback => "traceback"

namespace Builtin

/-- The name a function shows in stack traces. -/
def name : Builtin → String
  | .base f => f.name
  | .table f => f.name
  | .string f => f.name
  | .utf8 f => f.name
  | .math f => f.name
  | .coroutine f => f.name
  | .debug f => f.name

/-- A number of its own for every function. -/
def number : Builtin → Nat
  | .base f => f.ctorIdx
  | .table f => 32 + f.ctorIdx
  | .string f => 64 + f.ctorIdx
  | .utf8 (.codesStep strict) => 96 + 8 + strict.toNat
  | .utf8 f => 96 + f.ctorIdx
  | .math f => 128 + f.ctorIdx
  | .coroutine f => 160 + f.ctorIdx
  | .debug f => 192 + f.ctorIdx

end Builtin

end Lua
