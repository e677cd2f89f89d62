/-
Patterns.

A pattern is a row of items: a class of bytes with a repetition, the opening or closing of a
capture, or the end anchor.  It is matched by the regular expression that it is written as:

* `ByteClass.text`, `Atom.text`, `SetMember.text`, `SingleClass.text` — classes of bytes in an
  expression;
* `Pattern.emit` — the expression of a pattern, if every feature is supported and the
  parentheses pair.
-/
import Lua.Error
import Lua.Regex.Basic

namespace Lua

/-! ### Classes of bytes -/

/-- The named classes of bytes. -/
inductive ByteClass where
  | letter | control | digit | graphic | lower | punctuation | space | upper | alphanumeric
  | hexadecimal
  deriving DecidableEq, Repr

/-- The ranges of a class, as they stand in a set. -/
def ByteClass.text : ByteClass → List Char
  | .letter => "\\x41-\\x5A\\x61-\\x7A".toList
  | .control => "\\x00-\\x1F\\x7F".toList
  | .digit => "\\x30-\\x39".toList
  | .graphic => "\\x21-\\x7E".toList
  | .lower => "\\x61-\\x7A".toList
  | .punctuation => "\\x21-\\x2F\\x3A-\\x40\\x5B-\\x60\\x7B-\\x7E".toList
  | .space => "\\x09-\\x0D\\x20".toList
  | .upper => "\\x41-\\x5A".toList
  | .alphanumeric => "\\x30-\\x39\\x41-\\x5A\\x61-\\x7A".toList
  | .hexadecimal => "\\x30-\\x39\\x41-\\x46\\x61-\\x66".toList

/-- A byte that stands for itself: a letter or a digit as it is, any other by its digits. -/
def byteText (b : UInt8) : List Char :=
  if Ascii.isAlphanumeric b then [Char.ofNat b.toNat] else Regex.hexText b

/-- A byte, a named class or its complement. -/
inductive Atom where
  | byte (b : UInt8)
  | named (c : ByteClass) (negated : Bool)
  deriving DecidableEq, Repr

namespace Atom

def text : Atom → List Char
  | .byte b => byteText b
  | .named c negated => '[' :: ((if negated then ['^'] else []) ++ c.text ++ [']'])

/-- An atom inside the brackets of a set. -/
def textInSet : Atom → List Char
  | .byte b => byteText b
  | .named c false => c.text
  | .named c true => '[' :: '^' :: (c.text ++ [']'])

end Atom

/-- A member of a set: an atom or a range.  A range whose ends are reversed is empty. -/
inductive SetMember where
  | atom (a : Atom)
  | range (first last : UInt8)
  deriving DecidableEq, Repr

def SetMember.text : SetMember → List Char
  | .atom a => a.textInSet
  | .range first last =>
    if last < first then [] else byteText first ++ '-' :: byteText last

/-- What a single item accepts: any byte, an atom, or a set or its complement. -/
inductive SingleClass where
  | any
  | atom (a : Atom)
  | set (negated : Bool) (members : List SetMember)
  deriving DecidableEq, Repr

/-- The set of no bytes and the set of all are written by the range of all. -/
def SingleClass.text : SingleClass → List Char
  | .any => ['.']
  | .atom a => a.text
  | .set negated members =>
    let contents := members.flatMap (·.text)
    if contents.isEmpty then
      (if negated then "[\\x00-\\xFF]" else "[^\\x00-\\xFF]").toList
    else '[' :: ((if negated then ['^'] else []) ++ contents ++ [']'])

/-! ### Items -/

/-- An item.  Some features are read but refused. -/
inductive PatternItem where
  | single (class_ : SingleClass) (repetition : Repetition)
  | openCapture
  | closeCapture
  | atEnd
  | unsupported (feature : String)
  deriving DecidableEq, Repr

/-- A pattern.  An anchored one matches only where the search begins. -/
structure Pattern where
  anchored : Bool
  items : List PatternItem
  deriving DecidableEq, Repr

namespace Pattern

/-- Adds items to the text of an expression, which is kept backwards; `depth` parentheses are
open. -/
def emitItems : List PatternItem → Nat → List Char → Except ArgumentError (List Char)
  | [], 0, text => .ok text.reverse
  | [], _ + 1, _ => .error (.malformed "unfinished capture")
  | .single c r :: items, depth, text =>
    emitItems items depth ((c.text ++ r.text).reverseAux text)
  | .openCapture :: items, depth, text => emitItems items (depth + 1) ('(' :: text)
  | .closeCapture :: _, 0, _ => .error (.malformed "invalid pattern capture")
  | .closeCapture :: items, depth + 1, text => emitItems items depth (')' :: text)
  | .atEnd :: items, depth, text => emitItems items depth ('$' :: text)
  | .unsupported feature :: _, _, _ => .error (.unsupportedPattern feature)

/-- The text of the expression of a pattern. -/
def emit (p : Pattern) : Except ArgumentError (List Char) :=
  emitItems p.items 0 ((if p.anchored then ['^'] else []) ++ Regex.flags.reverse)

end Pattern

end Lua
