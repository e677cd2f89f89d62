/-
Literals that read back as the value they were written for.

A string is written between double quotes: quotes, backslashes and line feeds with a backslash
before them, carriage returns as `\r`, and other control characters by their number in decimal
— three digits of it where another digit follows.  Integers are decimal, but the least one is
hexadecimal.  Floats with an integral value keep their plain text, other floats are written in
hexadecimal, and infinities and NaN as expressions with that value.
-/
import Lua.Format.Numeric

namespace Lua.Format

def quote : UInt8 := Ascii.byte '"'

def backslash : UInt8 := Ascii.byte '\\'

def lineFeed : UInt8 := 0x0A

def carriageReturn : UInt8 := 0x0D

/-- The number of a control character, in front of the rest of a string. -/
def controlText (b : UInt8) (rest : Bytes) : Bytes :=
  let ds := Decimal.digits b.toNat
  let followed := (rest.head?.map Ascii.isDigit).getD false
  (if followed then Decimal.padZeros 3 ds else ds).map Ascii.byte

/-- The inside of the literal of a string. -/
def quoteBytes : Bytes → Bytes
  | [] => []
  | b :: rest =>
    let written :=
      if b = quote ∨ b = backslash ∨ b = lineFeed then [backslash, b]
      else if b = carriageReturn then [backslash, Ascii.byte 'r']
      else if Ascii.isControl b then backslash :: controlText b rest
      else [b]
    written ++ quoteBytes rest

/-- The literal of a float. -/
def quoteFloat (x : Float) : List Char :=
  match Binary.ofFloat? x with
  | none =>
    if x.isNaN then "(0/0)".toList
    else if Binary.signField x then "-1e9999".toList
    else "1e9999".toList
  | some b =>
    if b.isIntegral then Number.floatText x
    else (if b.negative then ['-'] else []) ++ hexFloatText x

/-- The literal of an integer. -/
def quoteInteger (n : Int64) : List Char :=
  if n = Int64.minValue then '0' :: 'x' :: digitsIn 16 n.toUInt64.toNat
  else Number.intText n.toInt

/-- The literal of a value; references have none. -/
def quoteValue : Value → Except ArgumentError Bytes
  | .string s => .ok (quote :: quoteBytes s ++ [quote])
  | .number (.int n) => .ok ((quoteInteger n).map Ascii.byte)
  | .number (.float x) => .ok ((quoteFloat x).map Ascii.byte)
  | .nil => .ok (Bytes.ofString "nil")
  | .boolean b => .ok (Bytes.ofString (if b then "true" else "false"))
  | _ => .error (.malformed "value has no literal form")

end Lua.Format
