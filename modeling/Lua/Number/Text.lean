/-
The text of numbers.

An integer is written in decimal.  A float is written with fourteen significant digits and
without the zeros that end its fraction: positionally between 10⁻⁴ and 10¹⁴, otherwise with
an exponent.  A text that would read as an integer is marked by `.0`.

* `Number.text` — the text of a number;
* `Number.positionalRange` — the exact ends of the positional range.
-/
import Lua.Number.Basic
import Lua.Number.Decimal

namespace Lua.Number

/-- The digits of a float's text. -/
def textDigits : Nat := 14

/-- The least magnitude written positionally, and the least one beyond it that is not, as
quotients.  They are the ends of 10⁻⁴ ≤ x < 10¹⁴ moved down to where the decimal logarithm
of a float reaches the whole number: by 1.15 · 10⁻¹⁵ of the value, and by 0.2. -/
def positionalRange : (Nat × Nat) × (Nat × Nat) :=
  ((Nat.pow 10 19 - 11500, Nat.pow 10 23), (Nat.pow 10 15 - 2, 10))

/-- Whether a positive magnitude is written positionally. -/
def isPositional (b : Binary) : Bool :=
  let (num, den) := b.quotient
  let ((loNum, loDen), (hiNum, hiDen)) := positionalRange
  loNum * den ≤ num * loDen && num * hiDen < hiNum * den

/-- The text of a positive finite magnitude. -/
def magnitudeText (b : Binary) : List Char :=
  if isPositional b then
    let (num, den) := b.quotient
    let places := (textDigits : Int) - 1 - Decimal.floorLog10 num den
    Decimal.trimFraction (Decimal.fixed places.toNat b)
  else
    Decimal.trimFraction (Decimal.scientificText (textDigits - 1) b)

/-- The text of a float. -/
def floatText (x : Float) : List Char :=
  let sign := if Binary.signField x then ['-'] else []
  match Binary.ofFloat? x with
  | none => sign ++ (if x.isNaN then ['n', 'a', 'n'] else ['i', 'n', 'f'])
  | some b =>
    let body := if b.isZero then ['0'] else magnitudeText b
    sign ++ body ++ (if body.all Char.isDigit then ['.', '0'] else [])

/-- The decimal text of an integer. -/
def intText (n : Int) : List Char :=
  (if n < 0 then ['-'] else []) ++ Decimal.digits n.natAbs

/-- The text of a number. -/
def text : Number → List Char
  | .int n => intText n.toInt
  | .float x => floatText x

end Lua.Number
