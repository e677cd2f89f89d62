/-
The random generator of an instance.

A generator is a 64-bit counter; each draw advances it by an odd constant and scrambles the
result.  Equal seeds give equal sequences.

* `Generator.next` — 64 random bits;
* `Generator.float` — a float in [0, 1);
* `Generator.between` — an integer in a closed range.

Design notes: the counter stands for the generator that a host links.  Of that one it has what the
library relies on, bits to draw and a sequence fixed by the seed, and not the bits themselves.
-/
import Lua.Number.Basic

namespace Lua

structure Generator where
  state : UInt64
  deriving DecidableEq, Repr

namespace Generator

def ofSeed (seed : Nat) : Generator := ⟨UInt64.ofNat seed⟩

/-- 64 random bits, and the generator after the draw. -/
def next (g : Generator) : UInt64 × Generator :=
  let s := g.state + 0x9E3779B97F4A7C15
  let z := (s ^^^ (s >>> 30)) * 0xBF58476D1CE4E5B9
  let z := (z ^^^ (z >>> 27)) * 0x94D049BB133111EB
  (z ^^^ (z >>> 31), ⟨s⟩)

/-- A float in [0, 1) with 53 random bits. -/
def float (g : Generator) : Float × Generator :=
  let (bits, g) := g.next
  (Float.ofNat (bits.toNat >>> 11) / Float.ofNat (1 <<< 53), g)

/-- An integer with 64 random bits. -/
def integer (g : Generator) : Int64 × Generator :=
  let (bits, g) := g.next
  (Int64.ofNat bits.toNat, g)

/-- An integer from `lo` up to and including `hi`, for `lo` ≤ `hi`. -/
def between (g : Generator) (lo hi : Int64) : Int64 × Generator :=
  let (bits, g) := g.next
  let count := (hi.toInt - lo.toInt + 1).toNat
  (Int64.ofInt (lo.toInt + (bits.toNat % count : Nat)), g)

end Generator

end Lua
