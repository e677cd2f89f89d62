/-
Conversions of numbers to text.

* `Conversion.integerText` — decimal, octal and hexadecimal integers;
* `Conversion.floatText` — fixed, scientific, general and hexadecimal floats;
* `Conversion.pad` — fills a text up to the width.  Zeros go between the sign or prefix and
  the digits, spaces outside of them.
-/
import Lua.Format.Basic
import Lua.Number.Text
import Lua.Text.Blank

namespace Lua

/-- The forms of a float. -/
inductive FloatForm where
  | fixed
  | scientific
  | general
  | hexadecimal
  deriving DecidableEq, Repr

/-- The forms of an integer.  All but the decimal one are of the value modulo 2⁶⁴. -/
inductive IntegerForm where
  | decimal
  | unsigned
  | octal
  | hexadecimal (upper : Bool)
  deriving DecidableEq, Repr

namespace Format

def upperCase (s : List Char) : List Char := s.map Char.toUpper

/-- The digits of a number in a base. -/
def digitsIn (base n : Nat) : List Char := Nat.toDigits base n

/-- The magnitude of a binary fraction in general form: `digits` significant digits, in fixed
form where the rounded exponent is from -4 up to `digits`.  Zeros at the end are kept only if
asked. -/
def generalText (digits : Nat) (keepZeros : Bool) (b : Binary) : List Char :=
  let (_, exponent) := Decimal.scientific (digits - 1) b
  if b.isZero then
    if keepZeros then Decimal.fixed (digits - 1) b else ['0']
  else
    let body :=
      if exponent < -4 ∨ (digits : Int) ≤ exponent then Decimal.scientificText (digits - 1) b
      else Decimal.fixed ((digits : Int) - 1 - exponent).toNat b
    if keepZeros then body else Decimal.trimFraction body

/-- The magnitude of a finite float in hexadecimal, exactly: the leading bit, the fraction
without the zeros at its end, and the exponent of two. -/
def hexFloatText (x : Float) : List Char :=
  let fraction := Binary.fractionField x
  let field := Binary.exponentField x
  let (lead, exponent) : Char × Int :=
    if field = 0 then ('0', if fraction = 0 then 0 else -1022) else ('1', (field : Int) - 1023)
  let digits := Decimal.padZeros 13 (digitsIn 16 fraction)
  let digits := Text.dropEndWhile (· == '0') digits
  let point := if digits.isEmpty then [] else '.' :: digits
  let sign := if exponent < 0 then '-' else '+'
  ['0', 'x', lead] ++ point ++ 'p' :: sign :: Decimal.digits exponent.natAbs

end Format

namespace FormatFlags

/-- The sign in front of a number. -/
def sign (flags : FormatFlags) (negative : Bool) : List Char :=
  if negative then ['-']
  else if flags.forceSign then ['+']
  else if flags.padSign then [' ']
  else []

/-- Fills a text of a prefix and a body up to the width. -/
def pad (flags : FormatFlags) (width : Option Nat) (lead body : List Char) (numeric : Bool) :
    List Char :=
  let fill := width.getD 0 - (lead.length + body.length)
  if flags.leftJustify then lead ++ body ++ List.replicate fill ' '
  else if flags.zeroPad && numeric then lead ++ List.replicate fill '0' ++ body
  else List.replicate fill ' ' ++ lead ++ body

end FormatFlags

namespace Conversion

/-- The text of an integer.  A precision is the least number of digits, and it rules out that
zeros fill the width; with precision 0 the number 0 has no digits. -/
def integerText (c : Conversion) (form : IntegerForm) (n : Int64) : List Char :=
  let unsigned := n.toUInt64.toNat
  let marked := fun mark : List Char => if c.flags.alternate && n != 0 then mark else []
  let (lead, digits) : List Char × List Char := match form with
    | .decimal => (c.flags.sign (n < 0), Decimal.digits n.toInt.natAbs)
    | .unsigned => ([], Decimal.digits unsigned)
    | .octal => (marked ['0'], Format.digitsIn 8 unsigned)
    | .hexadecimal false => (marked ['0', 'x'], Format.digitsIn 16 unsigned)
    | .hexadecimal true => (marked ['0', 'X'], Format.upperCase (Format.digitsIn 16 unsigned))
  let digits := match c.precision with
    | some 0 => if n = 0 then [] else digits
    | some p => Decimal.padZeros p digits
    | none => digits
  let flags := { c.flags with zeroPad := c.flags.zeroPad && c.precision.isNone }
  flags.pad c.width lead digits true

/-- The magnitude of a finite float. -/
def magnitudeText (c : Conversion) (form : FloatForm) (x : Float) (b : Binary) : List Char :=
  match form with
  | .fixed =>
    let s := Decimal.fixed (c.precision.getD 6) b
    if c.flags.alternate && !s.contains '.' then s ++ ['.'] else s
  | .scientific => Decimal.scientificText (c.precision.getD 6) b
  | .general => Format.generalText (max 1 (c.precision.getD 6)) c.flags.alternate b
  | .hexadecimal => Format.hexFloatText x

/-- The text of a float.  Zeros fill the width of finite ones only. -/
def floatText (c : Conversion) (form : FloatForm) (upper : Bool) (x : Float) : List Char :=
  let sign := c.flags.sign (Binary.signField x && !x.isNaN)
  let (body, finite) := match Binary.ofFloat? x with
    | some b => (c.magnitudeText form x b, true)
    | none => (if x.isNaN then "nan".toList else "inf".toList, false)
  c.flags.pad c.width sign (if upper then Format.upperCase body else body) finite

/-- Fills bytes up to the width with spaces. -/
def padBytes (c : Conversion) (s : Bytes) : Bytes :=
  let fill := List.replicate (c.width.getD 0 - s.length) (Ascii.byte ' ')
  if c.flags.leftJustify then s ++ fill else fill ++ s

end Conversion

end Lua
