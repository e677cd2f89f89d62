/-
Numbers.

A number is a 64-bit integer or a float.  The two subtypes compare by value, and an
operation chooses the subtype of its result:

* `Number.toInteger?` — the integer equal to a number, if it is representable;
* `Number.equals` — equality of values across the subtypes;
* `Number.compare?` — the order of numbers, with no answer for NaN;
* `Number.floor`, `Number.ceil` — rounded values, integers wherever they fit.

Design notes: equality compares an integer and a float exactly, through the float's own
integer value.  Order converts the integer to the nearest float first.  Integer
arithmetic wraps around.
-/
import Lua.Number.Binary

namespace Lua

/-- An integer or a float. -/
inductive Number where
  | int (value : Int64)
  | float (value : Float)
  deriving DecidableEq

namespace Number

/-- The float nearest to an integer. -/
def floatOfInt (n : Int64) : Float := Float.ofInt n.toInt

/-- An integer of any size as a 64-bit integer, if it is in range. -/
def representable? (n : Int) : Option Int64 :=
  if Int64.minValue.toInt ≤ n ∧ n ≤ Int64.maxValue.toInt then some (Int64.ofInt n) else none

theorem representable?_eq_some_iff {i : Int} {n : Int64} :
    representable? i = some n ↔ n.toInt = i := by
  rw [representable?, Option.ite_none_right_eq_some, Option.some.injEq]
  constructor
  · rintro ⟨⟨hmin, hmax⟩, rfl⟩
    exact Int64.toInt_ofInt_of_le hmin (Int.lt_of_le_sub_one hmax)
  · rintro rfl
    exact ⟨⟨Int64.minValue_le_toInt n, Int64.toInt_le n⟩, Int64.ofInt_toInt n⟩

/-- The integer equal to a float, if there is a representable one. -/
def integerOfFloat? (x : Float) : Option Int64 := do
  let b ← Binary.ofFloat? x
  let n ← b.toInt?
  representable? n

/-- The integer equal to a number, if there is a representable one. -/
def toInteger? : Number → Option Int64
  | .int n => some n
  | .float x => integerOfFloat? x

/-- The value as a float, rounded to nearest. -/
def toFloat : Number → Float
  | .int n => floatOfInt n
  | .float x => x

/-- The nearest 64-bit integer to an integer of any size. -/
def clamp (n : Int) : Int64 :=
  if n < Int64.minValue.toInt then Int64.minValue
  else if Int64.maxValue.toInt < n then Int64.maxValue
  else Int64.ofInt n

/-- The integral part of a number, held within the 64-bit range; a NaN or an infinity has none. -/
def truncateToInteger? : Number → Option Int64
  | .int n => some n
  | .float x => (Binary.ofFloat? x).map fun b => clamp b.truncate

/-- An integral value as an integer where it fits; `x` is the same value as a float. -/
private def preferInteger (n : Int) (x : Float) : Number :=
  match representable? n with
  | some i => .int i
  | none => .float x

/-- Rounds with `round`.  A float too large for an integer is integral already. -/
private def roundWith (round : Binary → Int) : Number → Number
  | .int n => .int n
  | .float x =>
    match Binary.ofFloat? x with
    | some b => preferInteger (round b) x
    | none => .float x

def floor : Number → Number := roundWith Binary.floor

def ceil : Number → Number := roundWith Binary.ceil

def truncate : Number → Number := roundWith Binary.truncate

/-- The negated number; the least integer is its own negation. -/
def negate : Number → Number
  | .int n => .int (-n)
  | .float x => .float (-x)

/-- Equality of values: a NaN equals nothing, and the two zeros are equal. -/
def equals : Number → Number → Bool
  | .int a, .int b => a == b
  | .int a, .float y => integerOfFloat? y == some a
  | .float x, .int b => integerOfFloat? x == some b
  | .float x, .float y => x.beq y

/-- Equality of values and subtypes. -/
def same : Number → Number → Bool
  | .int a, .int b => a == b
  | .float x, .float y => x.beq y
  | _, _ => false

/-- The order of floats; a NaN is not comparable. -/
def compareFloats? (x y : Float) : Option Ordering :=
  if x < y then some .lt
  else if x.beq y then some .eq
  else if y < x then some .gt
  else none

/-- The order of numbers; a NaN is not comparable. -/
def compare? : Number → Number → Option Ordering
  | .int a, .int b => some (compare a.toInt b.toInt)
  | .int a, .float y => compareFloats? (floatOfInt a) y
  | .float x, .int b => compareFloats? x (floatOfInt b)
  | .float x, .float y => compareFloats? x y

end Number

end Lua
