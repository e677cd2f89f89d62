/-
Decimal forms of exact binary fractions.

Both forms are rounded from the exact value to the nearest decimal of the asked length,
and a tie goes to the even digit.

* `Decimal.fixed` — a given number of places after the point;
* `Decimal.scientific` — one digit, a given number of places, and an exponent of ten.

The sign is left to the caller: both forms are of the magnitude.
-/
import Lua.Number.Binary

namespace Lua.Decimal

/-- The quotient rounded to nearest, a tie to the even neighbour. -/
def roundDiv (num den : Nat) : Nat :=
  let q := num / den
  let r := num % den
  if den < 2 * r ∨ (2 * r = den ∧ q % 2 = 1) then q + 1 else q

/-- The decimal digits of a number, most significant first. -/
def digits (n : Nat) : List Char := Nat.toDigits 10 n

/-- A list of digits brought to at least `width` with zeros in front. -/
def padZeros (width : Nat) (ds : List Char) : List Char :=
  List.replicate (width - ds.length) '0' ++ ds

/-- `n` / 10^places, written with a point before the last `places` digits. -/
def withPoint (places n : Nat) : List Char :=
  let ds := padZeros (places + 1) (digits n)
  let whole := ds.take (ds.length - places)
  if places = 0 then ds else whole ++ '.' :: ds.drop (ds.length - places)

/-- The magnitude with `places` digits after the point. -/
def fixed (places : Nat) (b : Binary) : List Char :=
  let (num, den) := b.quotient
  withPoint places (roundDiv (num * Nat.pow 10 places) den)

/-- The greatest k with 10^k ≤ num / den, for a positive quotient. -/
def floorLog10 (num den : Nat) : Int :=
  if den ≤ num then ((digits (num / den)).length : Int) - 1
  else
    -- the least j with den ≤ num · 10ʲ is the number of digits of ⌈den / num⌉ − 1
    -((digits ((den - 1) / num)).length : Int)

/-- The magnitude as a mantissa of `places` + 1 digits, read as a whole number, and an exponent. -/
def scientific (places : Nat) (b : Binary) : Nat × Int :=
  if b.isZero then (0, 0)
  else
    let (num, den) := b.quotient
    let k := floorLog10 num den
    let scale := (places : Int) - k
    let m := roundDiv (num * Nat.pow 10 scale.toNat) (den * Nat.pow 10 (-scale).toNat)
    if m = Nat.pow 10 (places + 1) then (Nat.pow 10 places, k + 1) else (m, k)

/-- An exponent with its sign and at least two digits. -/
def exponentText (e : Int) : List Char :=
  (if e < 0 then '-' else '+') :: padZeros 2 (digits e.natAbs)

/-- The magnitude in scientific form, the exponent marked by `e`. -/
def scientificText (places : Nat) (b : Binary) : List Char :=
  let (m, e) := scientific places b
  withPoint places m ++ 'e' :: exponentText e

/-- A number text without the zeros, and then the point, that end its fraction. -/
def trimFraction (s : List Char) : List Char :=
  let mantissa := s.takeWhile (· != 'e')
  let exponent := s.dropWhile (· != 'e')
  if mantissa.contains '.' then
    let kept := (mantissa.reverse.dropWhile (· == '0')).reverse
    (if kept.getLast? = some '.' then kept.dropLast else kept) ++ exponent
  else s

end Lua.Decimal
