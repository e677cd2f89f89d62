/-
Reading patterns.

`Pattern.read` reads the text of a pattern.  A caret in front anchors it; a dollar sign at
the very end anchors the end; `.` is any byte; a percent sign and a letter name a class, and
its complement if the letter is upper case; a percent sign takes any other byte literally;
brackets enclose a set; and one of `? * + -` after a class repeats it.  Every other byte stands
for itself.

A text that cannot be read to its end is malformed.  Balanced matches, frontiers, back
references and position captures are read but refused, as are parentheses that do not pair: the
first item that is refused decides the error.  A pattern that gets through is an expression,
and an engine may refuse that:

* `Regex.Engine.compile` — the expression of a text, as an engine has accepted it.
-/
import Lua.Pattern.Basic
import Lua.Regex.Backtracking

namespace Lua

namespace Pattern

/-- The class named by a letter. -/
def namedClass? (letter : UInt8) : Option ByteClass :=
  match Char.ofNat (Ascii.toLower letter).toNat with
  | 'a' => some .letter
  | 'c' => some .control
  | 'd' => some .digit
  | 'g' => some .graphic
  | 'l' => some .lower
  | 'p' => some .punctuation
  | 's' => some .space
  | 'u' => some .upper
  | 'w' => some .alphanumeric
  | 'x' => some .hexadecimal
  | _ => none

/-- What a percent sign and a byte stand for. -/
def escape (b : UInt8) : Atom :=
  match namedClass? b with
  | some c => .named c (Ascii.isUpper b)
  | none => .byte b

/-! ### Sets -/

def percent : UInt8 := Ascii.byte '%'

def bracket : UInt8 := Ascii.byte ']'

def hyphen : UInt8 := Ascii.byte '-'

/-- Reads the members of a set up to its closing bracket or the end of the text. -/
def readMembers : Bytes → List SetMember × Bytes
  | [] => ([], [])
  | a :: h :: b :: rest =>
    if a = bracket then ([], a :: h :: b :: rest)
    else if a = percent then
      let (members, rest) := readMembers (b :: rest)
      (.atom (escape h) :: members, rest)
    else if h = hyphen ∧ b ≠ bracket then
      let (members, rest) := readMembers rest
      (.range a b :: members, rest)
    else
      let (members, rest) := readMembers (h :: b :: rest)
      (.atom (.byte a) :: members, rest)
  | [a, b] =>
    if a = bracket then ([], [a, b])
    else if a = percent then ([.atom (escape b)], [])
    else
      let (members, rest) := readMembers [b]
      (.atom (.byte a) :: members, rest)
  | [a] => if a = bracket then ([], [a]) else ([.atom (.byte a)], [])

/-- Reads a set after its opening bracket.  A set has at least one member: a closing bracket in
first place is one. -/
def readSet? (s : Bytes) : Option (SingleClass × Bytes) :=
  let (negated, s) := match s with
    | b :: rest => if b = Ascii.byte '^' then (true, rest) else (false, s)
    | [] => (false, s)
  let (members, rest) := match s with
    | b :: rest =>
      if b = bracket then
        let (members, rest) := readMembers rest
        (.atom (.byte bracket) :: members, rest)
      else readMembers s
    | [] => ([], [])
  match rest with
  | b :: rest => if b = bracket then some (.set negated members, rest) else none
  | [] => none

/-! ### Items -/

/-- Reads one class. -/
def readClass? : Bytes → Option (SingleClass × Bytes)
  | [] => none
  | b :: rest =>
    match Char.ofNat b.toNat with
    | '.' => some (.any, rest)
    | '[' => readSet? rest
    | '%' => match rest with
      | [] => none
      | c :: rest => some (.atom (escape c), rest)
    | _ => some (.atom (.byte b), rest)

/-- Reads the repetition after a class. -/
def readRepetition : Bytes → Repetition × Bytes
  | [] => (.once, [])
  | b :: rest =>
    match Char.ofNat b.toNat with
    | '?' => (.optional, rest)
    | '*' => (.many, rest)
    | '+' => (.some, rest)
    | '-' => (.lazy, rest)
    | _ => (.once, b :: rest)

/-- Reads a class and its repetition. -/
def readSingle? (s : Bytes) : Option (PatternItem × Bytes) :=
  (readClass? s).map fun (c, rest) =>
    let (repetition, rest) := readRepetition rest
    (.single c repetition, rest)

/-- The feature named by a percent sign and a byte, of those that are refused. -/
def unsupported? (b : UInt8) : Option String :=
  if b = Ascii.byte 'b' then some "balanced matches (%b) are unsupported"
  else if b = Ascii.byte 'f' then some "frontier patterns (%f) are unsupported"
  else if Ascii.isDigit b then some "back references are unsupported"
  else none

/-- Reads one item. -/
def readItem? : Bytes → Option (PatternItem × Bytes)
  | [] => none
  | b :: rest =>
    match Char.ofNat b.toNat with
    | '$' => if rest.isEmpty then some (.atEnd, []) else readSingle? (b :: rest)
    | '%' => match rest with
      | [] => none
      | c :: rest' => match unsupported? c with
        | some feature => some (.unsupported feature, rest')
        | none => readSingle? (b :: rest)
    | '(' => match rest with
      | c :: rest' =>
        if c = Ascii.byte ')' then
          some (.unsupported "position captures are unsupported", rest')
        else some (.openCapture, rest)
      | [] => some (.openCapture, rest)
    | ')' => some (.closeCapture, rest)
    | _ => readSingle? (b :: rest)

/-- Reads items as long as there are any, at most `fuel`: the items behind those that were read
before, which come backwards, and what is left. -/
def readItems : Nat → List PatternItem → Bytes → List PatternItem × Bytes
  | 0, items, s => (items.reverse, s)
  | fuel + 1, items, s =>
    match readItem? s with
    | some (item, rest) => readItems fuel (item :: items) rest
    | none => (items.reverse, s)

/-- The problem with a text of which a part cannot be read. -/
def problem (rest : Bytes) : String :=
  match rest with
  | [] => "malformed pattern"
  | b :: _ =>
    match Char.ofNat b.toNat with
    | '%' => "malformed pattern (ends with '%')"
    | '[' => "malformed pattern (missing ']')"
    | _ => "malformed pattern"

/-- Reads the anchor of the start, if it is there. -/
def readAnchor : Bytes → Bool × Bytes
  | [] => (false, [])
  | b :: rest => if b = Ascii.byte '^' then (true, rest) else (false, b :: rest)

/-- The pattern of a text. -/
def read (source : Bytes) : Except ArgumentError Pattern :=
  let (anchored, s) := readAnchor source
  let (items, rest) := readItems s.length [] s
  if rest.isEmpty then .ok ⟨anchored, items⟩ else .error (.malformed (problem rest))

end Pattern

/-- The expression of a pattern, if the engine accepts it. -/
def Regex.Engine.compile (engine : Regex.Engine) (source : Bytes) : Except ArgumentError Regex := do
  let p ← Pattern.read source
  let text ← p.emit
  match engine.refusal? text with
  | some message => .error (.malformed message)
  | none => pure ⟨text⟩

theorem Regex.Engine.compile_eq (engine : Regex.Engine) (source : Bytes) :
    engine.compile source = (Pattern.read source).bind fun p => p.emit.bind fun text =>
      match engine.refusal? text with
      | some message => .error (.malformed message)
      | none => .ok ⟨text⟩ := rfl

/-- The expression of a pattern for the engine that backtracks. -/
def Pattern.compile (source : Bytes) : Except ArgumentError Regex :=
  Regex.Engine.backtracking.compile source

end Lua
