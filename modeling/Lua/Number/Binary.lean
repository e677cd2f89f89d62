/-
Floats as exact binary fractions.

A finite float is ± m · 2ᵉ with natural m and integer e.  `Binary.ofFloat?` reads that
form off the bits, and everything that must be exact is computed from it in whole numbers:
the integral part towards either side, whether the value is an integer, and its quotient
form for decimal output.

* `Binary.toInt?` — the value, when it is an integer;
* `Binary.floor`, `Binary.ceil`, `Binary.truncate` — the neighbouring integers;
* `Binary.remainder` — the remainder of a division that rounds towards zero, exact;
* `Binary.toFloat` — back to a float, for values that a float holds exactly.
-/

namespace Lua

/-- A finite binary fraction, (−1)ˢ · significand · 2^exponent. -/
structure Binary where
  negative : Bool
  significand : Nat
  exponent : Int
  deriving DecidableEq, Repr

namespace Binary

/-- The exponent field of a float's bits. -/
def exponentField (x : Float) : Nat := (x.toBits.toNat >>> 52) % (1 <<< 11)

/-- The fraction field of a float's bits. -/
def fractionField (x : Float) : Nat := x.toBits.toNat % (1 <<< 52)

/-- The sign of a float's bits; zeros and NaNs have one too. -/
def signField (x : Float) : Bool := 1 <<< 63 ≤ x.toBits.toNat

/-- The value of a finite float. -/
def ofFloat? (x : Float) : Option Binary :=
  let field := exponentField x
  let fraction := fractionField x
  if field = 2047 then none
  else if field = 0 then some ⟨signField x, fraction, -1074⟩
  else some ⟨signField x, (1 <<< 52) + fraction, (field : Int) - 1075⟩

/-- The magnitude as a quotient of natural numbers. -/
def quotient (b : Binary) : Nat × Nat :=
  (b.significand <<< b.exponent.toNat, 1 <<< (-b.exponent).toNat)

def isZero (b : Binary) : Bool := b.significand = 0

private def signed (negative : Bool) (n : Nat) : Int := if negative then -(n : Int) else n

/-- The integer between the value and zero that is nearest to it. -/
def truncate (b : Binary) : Int :=
  let (num, den) := b.quotient
  signed b.negative (num / den)

def isIntegral (b : Binary) : Bool :=
  let (num, den) := b.quotient
  num % den = 0

/-- The value, when it is an integer. -/
def toInt? (b : Binary) : Option Int := if b.isIntegral then some b.truncate else none

/-- The greatest integer not above the value. -/
def floor (b : Binary) : Int :=
  if b.negative && !b.isIntegral then b.truncate - 1 else b.truncate

/-- The least integer not below the value. -/
def ceil (b : Binary) : Int :=
  if !b.negative && !b.isIntegral then b.truncate + 1 else b.truncate

/-- Shifts a number left by `up` bits, or right where `up` is negative. -/
private def shift (n : Nat) (up : Int) : Nat := n <<< up.toNat >>> (-up).toNat

/-- The remainder of the division of `a` by a nonzero `b` with the quotient rounded towards
zero.  It has the sign of `a`, and the finer of the two exponents makes it exact. -/
def remainder (a b : Binary) : Binary :=
  let e := min a.exponent b.exponent
  let m := shift a.significand (a.exponent - e) % shift b.significand (b.exponent - e)
  ⟨a.negative, m, e⟩

/-- The float of a binary fraction that has at most 53 significant bits and lies on the grid
of floats; any other is cut towards zero. -/
def toFloat (b : Binary) : Float :=
  let sign := if b.negative then 1 <<< 63 else 0
  if b.significand = 0 then Float.ofBits (UInt64.ofNat sign)
  else
    let top := (Nat.log2 b.significand : Int) + b.exponent
    let bits :=
      if top < -1022 then shift b.significand (b.exponent + 1074)
      else
        let field := (top + 1023).toNat
        let m := shift b.significand (b.exponent - (top - 52))
        (field <<< 52) + m % (1 <<< 52)
    Float.ofBits (UInt64.ofNat (sign + bits))

end Binary

end Lua
