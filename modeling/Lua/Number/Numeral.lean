/-
Reading numerals.

* `Numeral.parse?` — the number a text denotes: decimal integers, hexadecimal integers,
  decimal fractions with an optional exponent, each with blanks around it;
* `Numeral.parseInBase?` — integers in a base from 2 to 36.

Design notes: a decimal integer that is out of range is read as a float; in other bases digits are
taken in by 64-bit words, which wrap around.  The sign in front is taken off first; what remains may
carry a sign of its own, as the decimal readers accept one.  Fractions are rounded to the nearest
float.
-/
import Lua.Bytes
import Lua.Number.Basic
import Lua.Text.Blank

namespace Lua.Numeral

/-- The value of a digit of a base up to 36, if it is one. -/
def digitValue? (base : Nat) (c : Char) : Option Nat := do
  guard (c.toNat < 128)
  let v ← Ascii.digitValue (Ascii.byte c)
  guard (v < base)
  pure v

/-- The value of a row of digits, most significant first. -/
def digitsValue? (base : Nat) (ds : List Char) : Option Nat :=
  ds.foldlM (fun v c => (digitValue? base c).map (v * base + ·)) 0

/-- The value of one or more digits. -/
def natural? (base : Nat) (ds : List Char) : Option Nat :=
  if ds.isEmpty then none else digitsValue? base ds

/-- The value of a row of digits in 64-bit words, where products and sums wrap around. -/
def wrappingValue? (base : Nat) (ds : List Char) : Option Int64 :=
  ds.foldlM (fun w c => (digitValue? base c).map fun d => w * Int64.ofNat base + Int64.ofNat d) 0

/-- The value of one or more digits in 64-bit words. -/
def word? (base : Nat) (ds : List Char) : Option Int64 :=
  if ds.isEmpty then none else wrappingValue? base ds

/-- Takes a sign off the front: whether it was a minus, and the rest. -/
def splitSign : List Char → Bool × List Char
  | '-' :: rest => (true, rest)
  | '+' :: rest => (false, rest)
  | s => (false, s)

def isDigit (c : Char) : Bool := '0' ≤ c && c ≤ '9'

/-! ### Decimal numerals -/

/-- An optionally signed row of decimal digits within the 64-bit range. -/
def decimalInteger? (s : List Char) : Option Int64 := do
  let (negative, ds) := splitSign s
  let n ← natural? 10 ds
  Number.representable? (if negative then -(n : Int) else n)

/-- The float nearest to `m` · 10ᵉ.  Exponents far outside the range of floats are settled by
the number of digits alone. -/
def nearestFloat (m : Nat) (e : Int) : Float :=
  let top := ((Nat.toDigits 10 m).length : Int) + e
  if m = 0 then 0.0
  else if 310 < top then Float.ofScientific 1 false 310
  else if top < -330 then 0.0
  else Float.ofScientific m (e < 0) e.natAbs

/-- An exponent: one or more digits with an optional sign. -/
def exponent? (s : List Char) : Option Int := do
  let (negative, ds) := splitSign s
  let n ← natural? 10 ds
  pure (if negative then -(n : Int) else n)

/-- An optionally signed decimal fraction: digits with at most one point among them and at
least one digit in all, then an optional exponent. -/
def decimalFraction? (s : List Char) : Option Float := do
  let (negative, s) := splitSign s
  let whole := s.takeWhile isDigit
  let s := s.dropWhile isDigit
  let (fraction, s) := match s with
    | '.' :: rest => (rest.takeWhile isDigit, rest.dropWhile isDigit)
    | _ => ([], s)
  let m ← natural? 10 (whole ++ fraction)
  let e ← match s with
    | [] => some 0
    | c :: rest => if c = 'e' ∨ c = 'E' then exponent? rest else none
  let x := nearestFloat m (e - fraction.length)
  pure (if negative then -x else x)

/-- The characters a decimal numeral may hold. -/
def isDecimalCharacter (c : Char) : Bool :=
  isDigit c || c == '.' || c == 'e' || c == 'E' || c == '-' || c == '+'

/-- A decimal numeral: an integer where it is one and fits, else a float. -/
def decimal? (s : List Char) : Option Number :=
  if s.all isDecimalCharacter then
    match decimalInteger? s with
    | some n => some (.int n)
    | none => (decimalFraction? s).map .float
  else none

/-- A hexadecimal numeral after its mark. -/
def hexadecimal? (ds : List Char) : Option Number := (word? 16 ds).map .int

/-- A numeral without its sign. -/
def unsigned? : List Char → Option Number
  | [] => none
  | '0' :: 'x' :: ds => hexadecimal? ds
  | '0' :: 'X' :: ds => hexadecimal? ds
  | ds => decimal? ds

/-- The number a text denotes, if it is a numeral. -/
def parse? (s : List Char) : Option Number :=
  let (negative, ds) := splitSign (Text.trim s)
  (unsigned? ds).map fun n => if negative then n.negate else n

/-- The integer a text denotes in a base.  Only a minus sign is read. -/
def parseInBase? (base : Nat) (s : List Char) : Option Int64 := do
  let (negative, ds) := match Text.trim s with
    | '-' :: ds => (true, ds)
    | ds => (false, ds)
  let v ← word? base ds
  pure (if negative then -v else v)

end Lua.Numeral
