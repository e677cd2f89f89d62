/-
Lists of values: arguments and results.

Calls pass any number of values.  A position past the end reads as nil, but an argument that
is absent is told apart in error messages.

* `FromValue` — the types an argument may be asked for.  Numbers and strings convert into each
  other: a string that is a numeral is a number, and a number is its text;
* `argument`, `argument?`, `anyArgument` — required, optional and arbitrary arguments;
* `Values.select`, `Values.adjust` — ranges of values, and lists of a fixed length.
-/
import Lua.Error
import Lua.Number.Numeral

namespace Lua

/-- The number that a string denotes, if it is text and a numeral. -/
def numberOfString? (s : Bytes) : Option Number :=
  if Utf8.isText s then Numeral.parse? (Utf8.characters s) else none

/-- The number that a value is or denotes. -/
def Value.toNumber? : Value → Option Number
  | .number n => some n
  | .string s => numberOfString? s
  | _ => none

/-- The bytes of a number's text. -/
def Number.bytes (n : Number) : Bytes := Bytes.ofString (String.ofList n.text)

/-- The string that a value is, or the text of the number that it is. -/
def Value.toBytes? : Value → Option Bytes
  | .string s => some s
  | .number n => some n.bytes
  | _ => none

/-- The text of a string that is well-formed. -/
def textOfString (s : Bytes) : Except ArgumentError String :=
  if Utf8.isText s then .ok (Utf8.toText s)
  else .error (.invalidType "unicode string" "binary string")

/-- The integral part of a finite number, held within the 64-bit range. -/
def Number.toFiniteInteger (n : Number) : Except ArgumentError Int64 :=
  match n.truncateToInteger? with
  | some i => .ok i
  | none => .error (.invalidType "Integer or finite float" "Infinite float")

/-! ### Conversion of arguments -/

/-- A type that an argument may be asked for. -/
class FromValue (α : Type) where
  /-- The word for the type in error messages. -/
  expected : String
  fromValue? : Value → Option α

instance : FromValue Int64 where
  expected := "integer"
  fromValue? v := v.toNumber?.bind Number.toInteger?

instance : FromValue Float where
  expected := "number"
  fromValue? v := v.toNumber?.map Number.toFloat

instance : FromValue Number where
  expected := "number"
  fromValue? := Value.toNumber?

instance : FromValue Bytes where
  expected := "string"
  fromValue? := Value.toBytes?

instance : FromValue TableId where
  expected := "table"
  fromValue?
    | .table t => some t
    | _ => none

instance : FromValue Function where
  expected := "function"
  fromValue?
    | .function f => some f
    | _ => none

instance : FromValue Builtin where
  expected := "Host function"
  fromValue?
    | .function (.builtin b) => some b
    | _ => none

instance : FromValue ThreadId where
  expected := "thread"
  fromValue?
    | .thread t => some t
    | _ => none

instance : FromValue Value where
  expected := "value"
  fromValue? := some

/-- A value as a given type. -/
def convert (α : Type) [FromValue α] (v : Value) : Except ArgumentError α :=
  match FromValue.fromValue? v with
  | some x => .ok x
  | none => .error (.cannotCoerce (FromValue.expected α) v.typeName)

/-- How an error message names the type of an argument. -/
def foundAt (args : List Value) (i : Nat) : String :=
  match args[i]? with
  | some v => v.typeName
  | none => "no value"

/-- The argument at an index as a given type; an absent one counts as nil. -/
def argument (α : Type) [FromValue α] (args : List Value) (i : Nat) : Except ArgumentError α :=
  match FromValue.fromValue? (args.getD i .nil) with
  | some x => .ok x
  | none => .error (.invalidArgument (FromValue.expected α) (foundAt args i) i)

/-- The argument at an index as a given type, if it is neither absent nor nil. -/
def argument? (α : Type) [FromValue α] (args : List Value) (i : Nat) :
    Except ArgumentError (Option α) :=
  if (args.getD i .nil).isNil then .ok none else (argument α args i).map some

/-- The argument at an index, which must be there. -/
def anyArgument (args : List Value) (i : Nat) : Except ArgumentError Value :=
  match args[i]? with
  | some v => .ok v
  | none => .error (.invalidArgument "value" "no value" i)

/-! ### Lists of values -/

namespace Values

/-- The first value, nil if there is none. -/
def first (vs : List Value) : Value := vs.headD .nil

/-- The value at an index, nil if there is none. -/
def nth (i : Nat) (vs : List Value) : Value := vs.getD i .nil

/-- The values at the indices from `start` up to, and not including, `stop`. -/
def select (start stop : Nat) (vs : List Value) : List Value := (vs.take stop).drop start

/-- Exactly `count` values: the rest cut off, or nils put on. -/
def adjust (count : Nat) (vs : List Value) : List Value :=
  vs.take count ++ List.replicate (count - vs.length) .nil

end Values

end Lua
