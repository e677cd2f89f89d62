/-
Regular expressions over bytes.

An expression is a row of classes of bytes, each with a repetition, of groups in parentheses,
and of the anchor of the end; the anchor of the start may stand in front.  It has a text, which
is how an engine takes it, and matches.  These are listed in the order of preference: a match
that starts earlier goes first, and of those with one start the one whose first item covers the
count of bytes that it prefers, then its second item, and so on.

* `Regex.Expression.text` — the text of an expression;
* `Regex.Expression.allMatches` — its matches in a haystack, the preferred one first;
* `Regex.Engine` — what searches a haystack for an expression, known by its text;
* `Regex.Engine.LeftmostFirst`, `Regex.Engine.AcceptsShort` — what engines promise.

Design notes: only classes of single bytes are repeated, so an expression lies over a haystack in
finitely many ways, and a list can hold them all.
-/
import Lua.Bytes

namespace Lua

/-- Where something stands: the offset of its first byte, and that behind its last. -/
abbrev Span := Nat × Nat

/-- A match: where it starts, where it ends, and what each group covers, if it takes part, in the
order in which the groups open. -/
structure Match where
  start : Nat
  stop : Nat
  groups : List (Option Span)
  deriving DecidableEq, Repr

/-- A match in a haystack of a length: no slice that is taken for it leaves the haystack. -/
structure Match.Within (length : Nat) (m : Match) : Prop where
  ordered : m.start ≤ m.stop
  inside : m.stop ≤ length
  groups : ∀ a, some a ∈ m.groups → a.1 ≤ a.2 ∧ a.2 ≤ length

/-- How many bytes an item may cover.  All but `lazy` prefer many. -/
inductive Repetition where
  | once
  | optional
  | many
  | some
  | lazy
  deriving DecidableEq, Repr

namespace Repetition

/-- The counts of bytes that an item may cover where at most `run` can be covered, the preferred
one first. -/
def counts (run : Nat) : Repetition → List Nat
  | .once => if run = 0 then [] else [1]
  | .optional => if run = 0 then [0] else [1, 0]
  | .many => (List.range (run + 1)).reverse
  | .some => (List.range' 1 run).reverse
  | .lazy => List.range (run + 1)

def text : Repetition → List Char
  | .once => []
  | .optional => ['?']
  | .many => ['*']
  | .some => ['+']
  | .lazy => ['*', '?']

end Repetition

namespace Regex

/-! ### Bytes and classes -/

/-- The digit of a value below 16, letters in upper case. -/
def hexDigit (n : Nat) : Char := Char.ofNat (if n < 10 then 0x30 + n else 0x37 + n)

/-- A byte by its two hexadecimal digits. -/
def hexText (b : UInt8) : List Char :=
  ['\\', 'x', hexDigit (b.toNat / 16), hexDigit (b.toNat % 16)]

/-- A byte that stands for itself: a letter or a digit as it is, or any byte by its digits. -/
inductive Literal where
  | verbatim (b : UInt8) (word : Ascii.isAlphanumeric b = true)
  | hexadecimal (b : UInt8)

namespace Literal

def byte : Literal → UInt8
  | .verbatim b _ => b
  | .hexadecimal b => b

def text : Literal → List Char
  | .verbatim b _ => [Char.ofNat b.toNat]
  | .hexadecimal b => hexText b

end Literal

/-- A byte in a set, or a range of bytes. -/
inductive ClassItem where
  | literal (l : Literal)
  | range (first last : Literal) (ordered : first.byte ≤ last.byte)

namespace ClassItem

def accepts : ClassItem → UInt8 → Bool
  | .literal l, b => b == l.byte
  | .range first last _, b => first.byte ≤ b && b ≤ last.byte

def text : ClassItem → List Char
  | .literal l => l.text
  | .range first last _ => first.text ++ '-' :: last.text

end ClassItem

/-- A member of a set: an item, or all the bytes that no item of a row accepts. -/
inductive ClassMember where
  | item (i : ClassItem)
  | complement (first : ClassItem) (rest : List ClassItem)

namespace ClassMember

def accepts : ClassMember → UInt8 → Bool
  | .item i, b => i.accepts b
  | .complement first rest, b => !(first :: rest).any (·.accepts b)

def text : ClassMember → List Char
  | .item i => i.text
  | .complement first rest => '[' :: '^' :: ((first :: rest).flatMap (·.text) ++ [']'])

end ClassMember

/-- What a single byte may be: any byte, a certain one, or one in a set or in its complement. -/
inductive Class where
  | any
  | literal (l : Literal)
  | set (negated : Bool) (first : ClassMember) (rest : List ClassMember)

namespace Class

def accepts : Class → UInt8 → Bool
  | .any, _ => true
  | .literal l, b => b == l.byte
  | .set negated first rest, b => (first :: rest).any (·.accepts b) != negated

def text : Class → List Char
  | .any => ['.']
  | .literal l => l.text
  | .set negated first rest =>
    '[' :: ((if negated then ['^'] else []) ++ (first :: rest).flatMap (·.text) ++ [']'])

end Class

/-! ### Expressions -/

/-- A row of classes with repetitions, of groups, and of anchors of the end. -/
inductive Row where
  | done
  | single (c : Class) (r : Repetition) (rest : Row)
  | group (inner rest : Row)
  | atEnd (rest : Row)

namespace Row

def text : Row → List Char
  | .done => []
  | .single c r rest => c.text ++ r.text ++ rest.text
  | .group inner rest => '(' :: (inner.text ++ ')' :: rest.text)
  | .atEnd rest => '$' :: rest.text

/-- The ways in which a row lies over the front of the bytes, which stand at an offset, in the
order of preference: where it ends, and what its groups cover. -/
def ways : Row → Bytes → Nat → List (Nat × List (Option Span))
  | .done, _, offset => [(offset, [])]
  | .single c r rest, s, offset =>
    (r.counts (s.takeWhile c.accepts).length).flatMap fun n => rest.ways (s.drop n) (offset + n)
  | .group inner rest, s, offset =>
    (inner.ways s offset).flatMap fun (stop, groups) =>
      (rest.ways (s.drop (stop - offset)) stop).map fun (last, groups') =>
        (last, some (offset, stop) :: (groups ++ groups'))
  | .atEnd rest, s, offset => if s.isEmpty then rest.ways s offset else []

end Row

/-- An expression.  An anchored one matches only at the start of a haystack. -/
structure Expression where
  anchored : Bool
  row : Row

/-- What makes an expression one over bytes, in which a dot is any byte. -/
def flags : List Char := "(?s-u)".toList

namespace Expression

def text (e : Expression) : List Char :=
  flags ++ (if e.anchored then ['^'] else []) ++ e.row.text

/-- The matches in a haystack, the preferred one first. -/
def allMatches (e : Expression) (haystack : Bytes) : List Match :=
  (if e.anchored then [0] else List.range (haystack.length + 1)).flatMap fun start =>
    (e.row.ways (haystack.drop start) start).map fun (stop, groups) => ⟨start, stop, groups⟩

end Expression

/-! ### Engines -/

/-- An engine for regular expressions.  It refuses a text, with a message, or it can be asked for
a match in any haystack. -/
structure Engine where
  refusal? : List Char → Option String
  captures : List Char → Bytes → Option Match
  within : ∀ {text haystack m}, captures text haystack = some m → m.Within haystack.length

namespace Engine

/-- Of all matches the engine gives the one that starts first, and of those the preferred one. -/
def LeftmostFirst (engine : Engine) : Prop :=
  ∀ (e : Expression) (haystack : Bytes), engine.refusal? e.text = none →
    engine.captures e.text haystack = (e.allMatches haystack).head?

/-- The length up to which the text of an expression meets no limit of an engine. -/
def shortLength : Nat := 250

/-- The engine refuses no expression whose text is short. -/
def AcceptsShort (engine : Engine) : Prop :=
  ∀ e : Expression, e.text.length ≤ shortLength → engine.refusal? e.text = none

end Engine

end Regex

/-- An expression that an engine has accepted, known by its text. -/
structure Regex where
  text : List Char
  deriving DecidableEq, Repr

end Lua
