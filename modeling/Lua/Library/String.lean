/-
The string library.

Positions count from 1, negative ones from the end.  Strings are bytes: lengths, positions and
case mapping know nothing of encodings.  Patterns are matched by an engine for regular
expressions, which is a parameter.

Design notes: memory is granted to every string but those of `rep`, whose length its arguments
give at will.
-/
import Lua.Format.Quoted
import Lua.Library.Text

namespace Lua.Library.Strings

variable {H : Host}

/-! ### Positions -/

/-- The position where a range starts: at least 1, a negative one counted from the end. -/
def startPosition (i : Int) (length : Nat) : Nat :=
  if 0 < i then i.toNat
  else if i = 0 ∨ length < i.natAbs then 1
  else length - i.natAbs + 1

/-- The position where a range ends: at most the length, a negative one counted from the end. -/
def endPosition (i : Int) (length : Nat) : Nat :=
  if (length : Int) < i then length
  else if 0 ≤ i then i.toNat
  else if length < i.natAbs then 0
  else length - i.natAbs + 1

/-- The bytes at the positions from `i` to `j`. -/
def substring (s : Bytes) (i j : Int) : Bytes :=
  Bytes.slice s (startPosition i s.length - 1) (endPosition j s.length)

def sub (args : List Value) : Program H (List Value) := do
  let s ← argument Bytes args 0
  let i := (← argument? Int64 args 1).getD 1
  let j := (← argument? Int64 args 2).getD (-1)
  pure [.string (substring s i.toInt j.toInt)]

/-! ### Bytes -/

/-- The values of the bytes in a range, by default of one byte. -/
def byte (args : List Value) : Program H (List Value) := do
  let s ← argument Bytes args 0
  let i := (← argument? Int64 args 1).getD 1
  let j := (← argument? Int64 args 2).getD i
  pure ((substring s i.toInt j.toInt).map fun b => .nat b.toNat)

/-- The byte with the value of an argument. -/
def byteArgument (args : List Value) (i : Nat) : Except ArgumentError UInt8 := do
  let code := (← argument Int64 args i).toInt
  if 0 ≤ code ∧ code < 256 then pure (UInt8.ofNat code.toNat)
  else throw (.outOfRange "value out of range" i)

/-- The string of the bytes whose values are the arguments. -/
def bytesOf (args : List Value) : Except ArgumentError Bytes :=
  (List.range args.length).mapM (byteArgument args)

def char (args : List Value) : Program H (List Value) := do
  pure [.string (← bytesOf args)]

def len (args : List Value) : Program H (List Value) := do
  pure [.nat (← argument Bytes args 0).length]

def lower (args : List Value) : Program H (List Value) := do
  pure [.string ((← argument Bytes args 0).map Ascii.toLower)]

def upper (args : List Value) : Program H (List Value) := do
  pure [.string ((← argument Bytes args 0).map Ascii.toUpper)]

def reverse (args : List Value) : Program H (List Value) := do
  pure [.string (← argument Bytes args 0).reverse]

/-! ### Repetition -/

/-- The greatest number of bytes that can be addressed. -/
def addressSpace : Nat := 1 <<< 47

/-- Whether memory for a number of bytes is granted. -/
def reserve (size : Nat) : Except Cause Unit :=
  if UInt64.size ≤ size then .error (.argument .concatenationTooLarge)
  else if 1 <<< 63 ≤ size then .error (.memory .capacityOverflow)
  else if addressSpace < size then .error (.memory .refused)
  else .ok ()

/-- Copies of a string with a separator between them. -/
def repeated (s separator : Bytes) (count : Nat) : Bytes :=
  if s.isEmpty ∧ separator.isEmpty then []
  else separator.intercalate (List.replicate count s)

def rep (args : List Value) : Program H (List Value) := do
  let s ← argument Bytes args 0
  let count := (← argument Int64 args 1).toInt
  let separator := (← argument? Bytes args 2).getD []
  if count ≤ 0 then return [.string []]
  reserve ((s.length + separator.length) * count.toNat)
  pure [.string (repeated s separator count.toNat)]

/-! ### Searching -/

/-- The bytes that mean something in a pattern. -/
def specials : Bytes := Bytes.ofString "^$*+?.([%-"

def hasSpecials (pattern : Bytes) : Bool := pattern.any specials.contains

/-- The subject, the pattern and the start position of a search. -/
def searchArguments (args : List Value) : Except ArgumentError (Bytes × Bytes × Nat) := do
  let s ← argument Bytes args 0
  let pattern ← argument Bytes args 1
  let init := (← argument? Int64 args 2).getD 1
  pure (s, pattern, startPosition init.toInt s.length)

/-- The match of a pattern from a start position on. -/
def firstMatch (engine : Regex.Engine) (s pattern : Bytes) (init : Nat) :
    Except ArgumentError (Option Match) := do
  pure (engine.findAt (← engine.compile pattern) s (init - 1))

/-- The first occurrence of a text from a start position on: where it begins and ends. -/
def findText (s text : Bytes) (init : Nat) : List Value :=
  match Bytes.find? text (s.drop (init - 1)) with
  | some offset => [.nat (init + offset), .nat (init + offset + text.length - 1)]
  | none => [.nil]

/-- Finds a match: its first and last position, then its captures.  A text without special
bytes, or any if so asked, is searched for as it is. -/
def find (engine : Regex.Engine) (args : List Value) : Program H (List Value) := do
  let (s, pattern, init) ← searchArguments args
  if s.length + 1 < init then return [.nil]
  if (args.getD 3 .nil).isTruthy || !hasSpecials pattern then return findText s pattern init
  match ← firstMatch engine s pattern init with
  | none => pure [.nil]
  | some m =>
    let captures := if m.groups.isEmpty then [] else m.values s
    pure (.nat (m.start + 1) :: .nat m.stop :: captures)

/-- Finds a match: its captures, or what it covers. -/
def matchPattern (engine : Regex.Engine) (args : List Value) : Program H (List Value) := do
  let (s, pattern, init) ← searchArguments args
  if s.length + 1 < init then return [.nil]
  match ← firstMatch engine s pattern init with
  | none => pure [.nil]
  | some m => pure (m.values s)

/-! ### Successive matches -/

/-- A function that gives the next match whenever it is called. -/
def gmatch (engine : Regex.Engine) (args : List Value) : Program H (List Value) := do
  let (s, source, init) ← searchArguments args
  let x ← engine.compile source
  let m ← Program.memory
  Program.setMemory { m with walks := m.walks.push ⟨s, x, init - 1, none⟩ }
  pure [.function (← Program.createFunction (.native (.walk m.walks.size)))]

/-- One step of the walk in a cell. -/
def walkStep (engine : Regex.Engine) (cell : Nat) : Program H (List Value) := do
  let m ← Program.memory
  match m.walks[cell]? with
  | none => pure [.nil]
  | some w =>
    let (found, w') := w.next engine
    Program.setMemory { m with walks := m.walks.setIfInBounds cell w' }
    match found with
    | some found => pure (found.values w.subject)
    | none => pure [.nil]

/-- What matches are replaced by: a template, the field of a value, or a function's answer. -/
inductive Replacement where
  | template (pieces : List ReplacementPiece)
  | table (t : TableId)
  | function (f : Function)
  deriving DecidableEq

/-- The replacement argument. -/
def replacementArgument (args : List Value) : Except ArgumentError Replacement :=
  match args.getD 2 .nil with
  | .string s => do pure (.template (← Lua.Replacement.parse s))
  | .number n => do pure (.template (← Lua.Replacement.parse n.bytes))
  | .table t => .ok (.table t)
  | .function f => .ok (.function f)
  | other => .error (.invalidArgument "string/function/table" other.typeName 2)

/-- What an answer puts in the place of a match: nil and false keep the match. -/
def answerText (m : Match) (s : Bytes) : Value → Except Cause Bytes
  | .nil => .ok (m.whole s)
  | .boolean false => .ok (m.whole s)
  | .string r => .ok r
  | .number n => .ok n.bytes
  | other => .error (.ofText ("invalid replacement value (a " ++ other.typeName ++ ")"))

/-- The text that takes the place of a match. -/
def replace (r : Replacement) (s : Bytes) (m : Match) : Program H Bytes :=
  match r with
  | .template pieces => Program.ofArgument (Lua.Replacement.expand m s pieces)
  | .table t => do
    let answer ← (← Program.heap).index (.table t) (Values.first (m.values s))
    answerText m s answer
  | .function f => do
    let answer := Values.first (← Program.callOrFail (.function f) (m.values s))
    answerText m s answer

/-- Replaces the matches from a position on, as long as there are fewer than `most` and, for an
anchored pattern, only once: the new string and the number of matches.  `result` is what was
written so far, `lastEnd` where the last match ended, and `count` how many there were.  An empty
match where the last one ended is no new match: its byte is copied. -/
def substitute (engine : Regex.Engine) (x : Regex) (r : Replacement) (s : Bytes)
    (anchored : Bool) (most : Option Int64) (result : Array UInt8) (position : Nat)
    (lastEnd : Option Nat) (count : Nat) : Program H (List Value) :=
  let finish (result : Array UInt8) (position count : Nat) : Program H (List Value) :=
    pure [.string (result ++ s.drop position).toList, .nat count]
  if most.all fun n => (count : Int) < n.toInt then
    match hm : engine.findAt x s position with
    | none => finish result position count
    | some m =>
      if m.start = m.stop ∧ some m.stop = lastEnd then
        let result := result ++ s[m.start]?.toList
        if s.length < m.start + 1 ∨ anchored then finish result (m.start + 1) count
        else substitute engine x r s anchored most result (m.start + 1) lastEnd count
      else do
        let kept := result ++ Bytes.slice s position m.start
        let replaced ← replace r s m
        let result := kept ++ replaced
        if s.length < m.stop ∨ anchored then finish result m.stop (count + 1)
        else substitute engine x r s anchored most result m.stop (some m.stop) (count + 1)
  else finish result position count
termination_by 2 * (s.length + 1 - position) + if lastEnd = some position then 0 else 1
decreasing_by
  · have := Regex.Engine.findAt_bounds hm
    grind
  · -- the next search begins where the match ended, and an empty match there is no new one
    have := Regex.Engine.findAt_bounds hm
    grind

/-- Replaces the matches of a pattern, at most a given number of them: the new string, and the
number of matches. -/
def gsub (engine : Regex.Engine) (args : List Value) : Program H (List Value) := do
  let s ← argument Bytes args 0
  let source ← argument Bytes args 1
  let r ← replacementArgument args
  let most ← argument? Int64 args 3
  let x ← engine.compile source
  substitute engine x r s (source.head? == some (Ascii.byte '^')) most #[] 0 none 0

/-! ### Formatting -/

/-- What the letter of a conversion asks for. -/
inductive Spec where
  | character
  | integer (form : IntegerForm)
  | float (form : FloatForm) (upper : Bool)
  | literal
  | string
  deriving DecidableEq

def spec? (letter : UInt8) : Option Spec :=
  match Char.ofNat letter.toNat with
  | 'c' => some .character
  | 'd' | 'i' => some (.integer .decimal)
  | 'u' => some (.integer .unsigned)
  | 'o' => some (.integer .octal)
  | 'x' => some (.integer (.hexadecimal false))
  | 'X' => some (.integer (.hexadecimal true))
  | 'a' => some (.float .hexadecimal false)
  | 'A' => some (.float .hexadecimal true)
  | 'e' => some (.float .scientific false)
  | 'E' => some (.float .scientific true)
  | 'f' => some (.float .fixed false)
  | 'F' => some (.float .fixed true)
  | 'g' => some (.float .general false)
  | 'G' => some (.float .general true)
  | 'q' => some .literal
  | 's' => some .string
  | _ => none

/-- The integer that a numeric argument is equal to. -/
def integralArgument (args : List Value) (i : Nat) : Except ArgumentError Int64 := do
  match (← argument Number args i).toInteger? with
  | some n => pure n
  | none =>
    throw (.invalidArgument "number has no integer representation" "number" i)

/-- The text of a conversion for the argument at an index. -/
def convertArgument (c : Conversion) (args : List Value) (i : Nat) : Program H Bytes := do
  if Format.limit < c.width.getD 0 ∨ Format.limit < c.precision.getD 0 then
    .raise (.argument (Format.invalidLetter c.letter))
  else match spec? c.letter with
    | none => .raise (.argument (Format.invalidLetter c.letter))
    | some .character =>
      let code ← argument Int64 args i
      pure (c.padBytes [code.toUInt64.toUInt8])
    | some (.integer form) =>
      let n ← integralArgument args i
      pure ((c.integerText form n).map Ascii.byte)
    | some (.float form upper) =>
      let x ← argument Float args i
      pure ((c.floatText form upper x).map Ascii.byte)
    | some .literal => Format.quoteValue (← anyArgument args i)
    | some .string =>
      let s ← textOf (← anyArgument args i)
      pure (c.padBytes (match c.precision with
        | some p => s.take p
        | none => s))

/-- The text of the pieces of a format string; the conversions take the arguments from index
`i` on. -/
def formatPieces (args : List Value) : Nat → List FormatPiece → Program H Bytes
  | _, [] => pure []
  | i, .literal s :: pieces => do
    pure (s ++ (← formatPieces args i pieces))
  | i, .conversion c :: pieces => do
    let s ← convertArgument c args i
    pure (s ++ (← formatPieces args (i + 1) pieces))

def format (args : List Value) : Program H (List Value) := do
  let pieces ← Format.parse (← argument Bytes args 0)
  pure [.string (← formatPieces args 1 pieces)]

/-- The functions of the library. -/
def run (engine : Regex.Engine) : StringFunction → List Value → Program H (List Value)
  | .byte => byte
  | .char => char
  | .find => find engine
  | .format => format
  | .gmatch => gmatch engine
  | .gsub => gsub engine
  | .len => len
  | .lower => lower
  | .matchPattern => matchPattern engine
  | .rep => rep
  | .reverse => reverse
  | .sub => sub
  | .upper => upper

end Lua.Library.Strings
