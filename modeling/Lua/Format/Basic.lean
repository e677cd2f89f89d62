/-
Format strings.

A conversion is a percent sign, flags, an optional width, an optional precision after a point,
and a letter.  `Format.parse` splits a format string into literal text and conversions; what
cannot be read to its end is refused as a whole.

Design notes: a width that exceeds the range of 64-bit sizes is not read as one, so that its
first digit is taken for the letter of the conversion; a precision that exceeds it counts as 0.
-/
import Lua.Error

namespace Lua

structure FormatFlags where
  leftJustify : Bool := false
  forceSign : Bool := false
  padSign : Bool := false
  alternate : Bool := false
  zeroPad : Bool := false
  deriving DecidableEq, Repr

structure Conversion where
  flags : FormatFlags
  width : Option Nat
  precision : Option Nat
  letter : UInt8
  deriving DecidableEq, Repr

inductive FormatPiece where
  | literal (s : Bytes)
  | conversion (c : Conversion)
  deriving DecidableEq, Repr

namespace Format

/-- The greatest width and the greatest precision of a conversion. -/
def limit : Nat := 99

def isFlag (b : UInt8) : Bool := "-+ #0".toList.any fun c => Ascii.byte c == b

def flagsOf (s : Bytes) : FormatFlags where
  leftJustify := s.contains (Ascii.byte '-')
  forceSign := s.contains (Ascii.byte '+')
  padSign := s.contains (Ascii.byte ' ')
  alternate := s.contains (Ascii.byte '#')
  zeroPad := s.contains (Ascii.byte '0')

/-- The value of a row of decimal digits, if it is within the range of sizes. -/
def size? (ds : Bytes) : Option Nat :=
  let n := ds.foldl (fun n d => n * 10 + (d.toNat - 0x30)) 0
  if n < UInt64.size then some n else none

/-- Reads a width: one or more digits. -/
def readWidth (s : Bytes) : Option Nat × Bytes :=
  let ds := s.takeWhile Ascii.isDigit
  if ds.isEmpty then (none, s)
  else match size? ds with
    | some n => (some n, s.dropWhile Ascii.isDigit)
    | none => (none, s)

/-- Reads a precision: a point and any number of digits. -/
def readPrecision (s : Bytes) : Option Nat × Bytes :=
  match s with
  | [] => (none, [])
  | b :: rest =>
    if b = Ascii.byte '.' then
      (some ((size? (rest.takeWhile Ascii.isDigit)).getD 0), rest.dropWhile Ascii.isDigit)
    else (none, s)

/-- Reads a conversion after its percent sign. -/
def readConversion? (s : Bytes) : Option (Conversion × Bytes) :=
  let flags := flagsOf (s.takeWhile isFlag)
  let (width, s) := readWidth (s.dropWhile isFlag)
  let (precision, s) := readPrecision s
  match s with
  | [] => none
  | letter :: rest => some (⟨flags, width, precision, letter⟩, rest)

def percent : UInt8 := Ascii.byte '%'

/-- Reads a piece of a format string: literal text up to the next percent sign, two percent
signs for one, or a conversion. -/
def readPiece? : Bytes → Option (FormatPiece × Bytes)
  | [] => none
  | b :: rest =>
    if b ≠ percent then
      some (.literal (b :: rest.takeWhile (· != percent)), rest.dropWhile (· != percent))
    else match rest with
      | [] => none
      | c :: rest' =>
        if c = percent then some (.literal [percent], rest')
        else (readConversion? rest).map fun (c, rest) => (.conversion c, rest)

/-- Reads pieces as long as there are any, at most `fuel`: the pieces and what is left. -/
def readPieces : Nat → Bytes → List FormatPiece × Bytes
  | 0, s => ([], s)
  | fuel + 1, s =>
    match readPiece? s with
    | some (piece, rest) =>
      let (pieces, rest) := readPieces fuel rest
      (piece :: pieces, rest)
    | none => ([], s)

/-- The refusal of a conversion. -/
def invalid (conversion : String) : ArgumentError :=
  .malformed ("invalid conversion '" ++ conversion ++ "' to 'format'")

/-- The refusal of a conversion that is known by its letter. -/
def invalidLetter (letter : UInt8) : ArgumentError :=
  invalid ("%" ++ String.singleton (Char.ofNat letter.toNat))

/-- The pieces of a format string. -/
def parse (s : Bytes) : Except ArgumentError (List FormatPiece) :=
  let (pieces, rest) := readPieces s.length s
  if rest.isEmpty then .ok pieces else .error (invalid (Utf8.toText rest))

end Format

end Lua
