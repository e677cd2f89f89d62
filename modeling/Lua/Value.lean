/-
Values.

Nil, booleans, numbers and strings are values by content; functions, threads and tables
are references into the memory of an instance.

* `Value.equals` — the equality of the language: numbers by value across the subtypes;
* `Value.compare?` — the order of numbers and of strings;
* `Value.isTruthy` — everything but nil and false;
* `Value.text` — the text form.  A reference is shown by its kind and its address, which
  is a function of the reference alone.
-/
import Lua.Bytes
import Lua.Text.Utf8
import Lua.Number.Text
import Lua.Builtin

namespace Lua

/-- A table of an instance. -/
structure TableId where
  index : Nat
  deriving DecidableEq, Repr

/-- A thread of an instance; the main thread has index 0. -/
structure ThreadId where
  index : Nat
  deriving DecidableEq, Repr

namespace ThreadId

def main : ThreadId := ⟨0⟩

/-- The number a thread is known by; threads are numbered from 1 in order of creation. -/
def number (t : ThreadId) : Nat := t.index + 1

end ThreadId

/-- A function: a built-in, or one that was created while the instance ran. -/
inductive Function where
  | builtin (b : Builtin)
  | created (index : Nat)
  deriving DecidableEq, Repr

/-- A value of the language. -/
inductive Value where
  | nil
  | boolean (b : Bool)
  | number (n : Number)
  | string (s : Bytes)
  | function (f : Function)
  | thread (t : ThreadId)
  | table (t : TableId)
  deriving DecidableEq

namespace Value

instance : Inhabited Value := ⟨.nil⟩

/-! ### Making values -/

def int (n : Int64) : Value := .number (.int n)

def float (x : Float) : Value := .number (.float x)

/-- A count or a position. -/
def nat (n : Nat) : Value := .number (.int (Int64.ofNat n))

/-- A text as a string. -/
def ofText (s : String) : Value := .string (Bytes.ofString s)

/-! ### Kinds -/

/-- The name of a value's type. -/
def typeName : Value → String
  | .nil => "nil"
  | .boolean _ => "boolean"
  | .number _ => "number"
  | .string _ => "string"
  | .function _ => "function"
  | .thread _ => "thread"
  | .table _ => "table"

def isNil : Value → Bool
  | .nil => true
  | _ => false

/-- Everything but nil and false. -/
def isTruthy : Value → Bool
  | .nil => false
  | .boolean b => b
  | _ => true

/-- A value other than nil. -/
def notNil? : Value → Option Value
  | .nil => none
  | v => some v

/-! ### Comparison -/

/-- The equality of the language.  It is not reflexive: a NaN differs from itself. -/
def equals : Value → Value → Bool
  | .nil, .nil => true
  | .boolean a, .boolean b => a == b
  | .number a, .number b => a.equals b
  | .string a, .string b => a == b
  | .function a, .function b => a == b
  | .thread a, .thread b => a == b
  | .table a, .table b => a == b
  | _, _ => false

/-- The order of strings. -/
def compareStrings (a b : Bytes) : Ordering :=
  if Bytes.less a b then .lt else if Bytes.less b a then .gt else .eq

/-- The order of two numbers or two strings. -/
def compare? : Value → Value → Option Ordering
  | .number a, .number b => a.compare? b
  | .string a, .string b => some (compareStrings a b)
  | _, _ => none

/-! ### Text -/

/-- A number in hexadecimal with at least eight digits. -/
def hexText (n : Nat) : List Char := Decimal.padZeros 8 (Nat.toDigits 16 n)

/-- The addresses of the references of one kind lie in a region of their own. -/
def address (region index : Nat) : String :=
  "0x" ++ String.ofList (hexText ((region <<< 40) + index * 16))

def tableText (t : TableId) : String := "table: " ++ address 85 t.index

def threadText (t : ThreadId) : String := "thread: " ++ address 86 t.index

def functionText : Function → String
  | .builtin b => "function: builtin: " ++ address 87 b.number
  | .created i => "function: builtin: " ++ address 88 i

/-- The text form of a value. -/
def text : Value → String
  | .nil => "nil"
  | .boolean b => if b then "true" else "false"
  | .number n => String.ofList n.text
  | .string s => Utf8.toText s
  | .function f => functionText f
  | .thread t => threadText t
  | .table t => tableText t

end Value

end Lua
