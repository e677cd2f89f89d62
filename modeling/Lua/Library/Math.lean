/-
The mathematical library.

Functions that round or compare keep integers integers; the elementary functions work on
floats.  Random numbers come from the generator of the instance.
-/
import Lua.Program

namespace Lua.Library.Mathematics

variable {H : Host}

/-! ### Constants -/

def pi : Float := 3.14159265358979311600

def huge : Float := 1.0 / 0.0

/-! ### Rounding and remainders -/

/-- A function from numbers to numbers. -/
def onNumber (f : Number → Number) (args : List Value) : Program H (List Value) := do
  pure [.number (f (← argument Number args 0))]

/-- A function from floats to floats. -/
def onFloat (f : Float → Float) (args : List Value) : Program H (List Value) := do
  pure [.float (f (← argument Float args 0))]

/-- The magnitude of a number; the least integer is its own. -/
def magnitude : Number → Number
  | .int n => .int (if n < 0 then -n else n)
  | .float x => .float x.abs

/-- The remainder of a division of floats that rounds towards zero. -/
def floatRemainder (x y : Float) : Float :=
  match Binary.ofFloat? x, Binary.ofFloat? y with
  | some a, some b => if b.isZero then 0.0 / 0.0 else (a.remainder b).toFloat
  | some _, none => if y.isNaN then y else x
  | none, _ => 0.0 / 0.0

/-- The remainder of a division that rounds towards zero. -/
def fmod (args : List Value) : Program H (List Value) := do
  match ← argument Number args 0, ← argument Number args 1 with
  | .int a, .int b =>
    if b = 0 then .raise (.argument (.outOfRange "zero" 1)) else pure [.int (a % b)]
  | a, b => pure [.float (floatRemainder a.toFloat b.toFloat)]

/-- The integral part and the fraction of a number. -/
def modf (args : List Value) : Program H (List Value) := do
  match ← argument Number args 0 with
  | .int n => pure [.int n, .float 0.0]
  | .float x =>
    let fraction := match Binary.ofFloat? x with
      | some b => if b.isIntegral then 0.0 else x - Float.ofInt b.truncate
      | none => if x.isNaN then x else 0.0
    pure [.number (Number.float x).truncate, .float fraction]

/-! ### Elementary functions -/

def atan (args : List Value) : Program H (List Value) := do
  let y ← argument Float args 0
  let x := (← argument? Float args 1).getD 1.0
  pure [.float (y.atan2 x)]

/-- The logarithm to a base; that of 2 and that of 10 are functions of their own. -/
def logarithm (x : Float) : Option Float → Float
  | none => x.log
  | some base =>
    if base == 2.0 then x.log2
    else if base == 10.0 then x.log10
    else x.log / base.log

def log (args : List Value) : Program H (List Value) := do
  let x ← argument Float args 0
  pure [.float (logarithm x (← argument? Float args 1))]

/-! ### Comparison -/

/-- The first of the numbers from which no later one differs in the given direction. -/
def extreme (keep : Ordering) (args : List Value) : Except ArgumentError Number := do
  let first ← argument Number args 0
  let rest ← (List.range (args.length - 1)).mapM fun i => argument Number args (i + 1)
  pure (rest.foldl (fun best n => if n.compare? best = some keep then n else best) first)

def max (args : List Value) : Program H (List Value) := do
  pure [.number (← extreme .gt args)]

def min (args : List Value) : Program H (List Value) := do
  pure [.number (← extreme .lt args)]

/-- Whether an integer is less than another, both taken modulo 2⁶⁴. -/
def ult (args : List Value) : Program H (List Value) := do
  let m ← argument Int64 args 0
  let n ← argument Int64 args 1
  pure [.boolean (m.toUInt64 < n.toUInt64)]

/-! ### Subtypes -/

def tointeger (args : List Value) : Program H (List Value) := do
  let v ← anyArgument args 0
  pure [((v.toNumber?.bind Number.toInteger?).map Value.int).getD .nil]

def type (args : List Value) : Program H (List Value) := do
  match ← anyArgument args 0 with
  | .number (.int _) => pure [.ofText "integer"]
  | .number (.float _) => pure [.ofText "float"]
  | _ => pure [.nil]

/-! ### Random numbers -/

/-- Draws from the generator. -/
def draw {α : Type} (f : Generator → α × Generator) : Program H α := do
  let m ← Program.memory
  let (x, g) := f m.generator
  Program.setMemory { m with generator := g }
  pure x

/-- A random integer in a closed range; `index` is the argument at fault if it is empty. -/
def randomBetween (lo hi : Int64) (index : Nat) : Program H (List Value) :=
  if hi < lo then .raise (.argument (.outOfRange "interval is empty" index))
  else do pure [.int (← draw fun g => g.between lo hi)]

/-- A float in [0, 1), an integer from 1 or from a given one on, or one with all bits random. -/
def random (args : List Value) : Program H (List Value) := do
  match args.length with
  | 0 => pure [.float (← draw Generator.float)]
  | 1 =>
    let hi ← argument Int64 args 0
    if hi = 0 then pure [.int (← draw Generator.integer)] else randomBetween 1 hi 0
  | 2 => randomBetween (← argument Int64 args 0) (← argument Int64 args 1) 1
  | _ => .raise (.ofText "wrong number of arguments")

/-- The bits that a number gives to a seed. -/
def seedBits : Number → UInt64
  | .int n => n.toUInt64
  | .float x => x.toBits

/-- A word with its two halves exchanged. -/
def exchangeHalves (w : UInt64) : UInt64 := (w <<< 32) ||| (w >>> 32)

/-- Seeds the generator with a number and an integer, or with random bits. -/
def randomseed (args : List Value) : Program H (List Value) := do
  let seed ← match ← argument? Number args 0 with
    | none => draw Generator.next
    | some n =>
      let high := (← argument? Int64 args 1).getD 0
      pure (seedBits n ^^^ exchangeHalves high.toUInt64)
  let m ← Program.memory
  Program.setMemory { m with generator := .ofSeed seed.toNat }
  pure [.int seed.toInt64]

/-- The functions of the library. -/
def run : MathFunction → List Value → Program H (List Value)
  | .abs => onNumber magnitude
  | .acos => onFloat Float.acos
  | .asin => onFloat Float.asin
  | .atan => atan
  | .ceil => onNumber Number.ceil
  | .cos => onFloat Float.cos
  | .deg => onFloat (· * (180.0 / pi))
  | .exp => onFloat Float.exp
  | .floor => onNumber Number.floor
  | .fmod => fmod
  | .log => log
  | .max => max
  | .min => min
  | .modf => modf
  | .rad => onFloat (· * (pi / 180.0))
  | .random => random
  | .randomseed => randomseed
  | .sin => onFloat Float.sin
  | .sqrt => onFloat Float.sqrt
  | .tan => onFloat Float.tan
  | .tointeger => tointeger
  | .type => type
  | .ult => ult

end Lua.Library.Mathematics
