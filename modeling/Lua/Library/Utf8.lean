/-
The UTF-8 library.

Codes are written and read in the original form of up to six bytes.  Reading is strict unless
asked otherwise: only the codes of characters are accepted.  Positions are those of bytes,
from 1, negative ones from the end.

Design notes: memory is granted to every string and to every row of codes.
-/
import Lua.Program

namespace Lua.Library.Utf8s

variable {H : Host}

/-- A pattern that matches one encoded code in text. -/
def charPattern : Bytes :=
  Bytes.ofString "[" ++ [0x00, 0x2D, 0x7F, 0xC2, 0x2D, 0xFD] ++ Bytes.ofString "][" ++
    [0x80, 0x2D, 0xBF] ++ Bytes.ofString "]*"

/-! ### Positions -/

/-- A position counted from the front; a negative one that is out of range becomes 0. -/
def position (i : Int) (length : Nat) : Int :=
  if 0 ≤ i then i else if length < i.natAbs then 0 else length + i + 1

/-- Whether the byte at an offset is a continuation byte. -/
def isContinuationAt (s : Bytes) (offset : Nat) : Bool :=
  match s[offset]? with
  | some b => Utf8.isContinuation b
  | none => false

/-- The nearest offset at or before `offset` that does not hold a continuation byte, or 0. -/
def backToStart (s : Bytes) : Nat → Nat
  | 0 => 0
  | offset + 1 => if isContinuationAt s (offset + 1) then backToStart s offset else offset + 1

/-- How many continuation bytes there are from an offset on. -/
def continuationRun (s : Bytes) (offset : Nat) : Nat :=
  ((s.drop offset).takeWhile Utf8.isContinuation).length

/-! ### Writing -/

def codeArgument (args : List Value) (i : Nat) : Except ArgumentError Nat := do
  let code := (← argument Int64 args i).toInt
  if 0 ≤ code ∧ code ≤ Utf8.maxCode then pure code.toNat
  else throw (.outOfRange "value out of range" i)

/-- The codes given as arguments. -/
def codeArguments (args : List Value) : Except ArgumentError (List Nat) :=
  (List.range args.length).mapM (codeArgument args)

def char (args : List Value) : Program H (List Value) := do
  pure [.string ((← codeArguments args).flatMap Utf8.encode)]

/-! ### Reading -/

def invalidCode : Cause := .ofText "invalid UTF-8 code"

/-- Reads the codes that begin before the offset `stop`, from an offset on, behind those that were
read before. -/
def codesUpTo (strict : Bool) (s : Bytes) (stop : Int) (codes : Array Nat) (offset : Nat) :
    Except Cause (List Nat) :=
  if offset < stop then
    match _hd : Utf8.decode strict (s.drop offset) with
    | some (code, n) => codesUpTo strict s stop (codes.push code) (offset + n)
    | none => .error invalidCode
  else .ok codes.toList
termination_by s.length - offset
decreasing_by
  have := Utf8.decode_pos _hd
  rw [List.length_drop] at this
  omega

/-- The codes in a range of positions, by default of one code. -/
def codepoint (args : List Value) : Program H (List Value) := do
  let s ← argument Bytes args 0
  let start := position ((← argument? Int64 args 1).getD 1).toInt s.length
  let stop := match ← argument? Int64 args 2 with
    | some j => position j.toInt s.length
    | none => start
  let lax := (args.getD 3 .nil).isTruthy
  if start < 1 then .raise (.argument (.outOfRange "out of bounds" 1))
  else if (s.length : Int) < stop then .raise (.argument (.outOfRange "out of bounds" 2))
  else pure ((← codesUpTo (!lax) s stop #[] (start - 1).toNat).map .nat)

/-- Counts the codes that begin before the offset `stop`, from an offset on, and those that were
counted before; nil and the position of the first invalid code, if there is one. -/
def countUpTo (strict : Bool) (s : Bytes) (stop : Int) (count offset : Nat) : List Value :=
  if offset < stop then
    match _hd : Utf8.decode strict (s.drop offset) with
    | some (_, n) => countUpTo strict s stop (count + 1) (offset + n)
    | none => [.nil, .nat (offset + 1)]
  else [.nat count]
termination_by s.length - offset
decreasing_by
  have := Utf8.decode_pos _hd
  rw [List.length_drop] at this
  omega

/-- The number of codes in a range of positions, or nil and the position that is invalid. -/
def len (args : List Value) : Program H (List Value) := do
  let s ← argument Bytes args 0
  let start := position ((← argument? Int64 args 1).getD 1).toInt s.length
  let stop := position ((← argument? Int64 args 2).getD (-1)).toInt s.length
  let lax := (args.getD 3 .nil).isTruthy
  if start < 1 ∨ (s.length : Int) < start - 1 then
    .raise (.argument (.outOfRange "initial position out of bounds" 1))
  else if (s.length : Int) ≤ stop - 1 then
    .raise (.argument (.outOfRange "final position out of bounds" 2))
  else pure (countUpTo (!lax) s stop 0 (start - 1).toNat)

/-! ### Moving by characters -/

/-- Goes back over `count` starts of characters; nothing if there are fewer. -/
def back (s : Bytes) : Nat → Nat → Option Nat
  | 0, offset => some offset
  | _ + 1, 0 => none
  | count + 1, offset + 1 => back s count (backToStart s offset)

/-- Goes on over `count` starts of characters; nothing if there are fewer. -/
def forth (s : Bytes) : Nat → Nat → Option Nat
  | 0, offset => some offset
  | count + 1, offset =>
    if s.length ≤ offset then none
    else forth s count (offset + 1 + continuationRun s (offset + 1))

/-- Where the character starts that is `n` places from a position; with 0, the character that
holds it. -/
def offset (args : List Value) : Program H (List Value) := do
  let s ← argument Bytes args 0
  let n := (← argument Int64 args 1).toInt
  let default : Int := if 0 ≤ n then 1 else s.length + 1
  let start := match ← argument? Int64 args 2 with
    | some i => position i.toInt s.length - 1
    | none => default - 1
  if start < 0 ∨ (s.length : Int) < start then
    .raise (.argument (.outOfRange "position out of bounds" 2))
  else
    let start := start.toNat
    if n = 0 then pure [.nat (backToStart s start + 1)]
    else if isContinuationAt s start then
      .raise (.ofText "initial position is a continuation byte")
    else
      let found := if n < 0 then back s n.natAbs start else forth s (n.toNat - 1) start
      pure [(found.map fun o => Value.nat (o + 1)).getD .nil]

/-! ### Iteration -/

/-- The position and the code after an offset, until the end. -/
def codesStep (strict : Bool) (args : List Value) : Program H (List Value) := do
  let s ← argument Bytes args 0
  let i := (← argument Int64 args 1).toInt
  if i < 0 then return [.nil]
  let o := i.toNat + continuationRun s i.toNat
  if s.length ≤ o then return [.nil]
  match Utf8.decode strict (s.drop o) with
  | some (code, n) =>
    if isContinuationAt s (o + n) then .raise invalidCode else pure [.nat (o + 1), .nat code]
  | none => .raise invalidCode

/-- The three values that iterate over the codes of a string. -/
def codes (args : List Value) : Program H (List Value) := do
  let s ← argument Bytes args 0
  if isContinuationAt s 0 then .raise invalidCode
  else
    let strict := !(args.getD 1 .nil).isTruthy
    pure [.function (.builtin (.utf8 (.codesStep strict))), .string s, .int 0]

/-- The functions of the library. -/
def run : Utf8Function → List Value → Program H (List Value)
  | .char => char
  | .codepoint => codepoint
  | .codes => codes
  | .len => len
  | .offset => offset
  | .codesStep strict => codesStep strict

end Lua.Library.Utf8s
