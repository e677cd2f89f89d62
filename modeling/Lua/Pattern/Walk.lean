/-
Matches in a subject.

A pattern is looked for in a part of the subject, from an offset on.  A walk finds one match
after the other: the next search begins where the last match ended, and an empty match right
there is skipped, so that no place is matched twice.

* `Regex.Engine.findAt` — the first match that starts at or after an offset;
* `MatchWalk.next` — the next match of a walk;
* `Match.values` — the captured strings, or the whole match where there are no captures;
* `Replacement.parse` — replacement templates, in which a percent sign and a digit stand for a
  capture.
-/
import Lua.Pattern.Compile

namespace Lua

/-! ### Finding a match -/

/-- A span that stands further on. -/
def shiftSpan (d : Nat) (a : Span) : Span := (d + a.1, d + a.2)

namespace Match

/-- A match that stands further on. -/
def shift (d : Nat) (m : Match) : Match :=
  ⟨d + m.start, d + m.stop, m.groups.map (·.map (shiftSpan d))⟩

/-- What a match covers. -/
def whole (m : Match) (subject : Bytes) : Bytes := Bytes.slice subject m.start m.stop

/-- The spans of the groups that take part in a match. -/
def captures (m : Match) : List Span := m.groups.filterMap id

/-- The captured strings as values, or the whole match where there are no captures; a group that
takes no part is nil. -/
def values (m : Match) (subject : Bytes) : List Value :=
  if m.groups.isEmpty then [.string (m.whole subject)]
  else m.groups.map fun
    | some (start, stop) => .string (Bytes.slice subject start stop)
    | none => .nil

/-- A capture by its number; 0, and 1 in a match without captures, are the whole match.  A group
that takes no part captures nothing. -/
def capture? (m : Match) (subject : Bytes) (i : Nat) : Option Bytes :=
  if i = 0 ∨ (i = 1 ∧ m.groups.isEmpty) then some (m.whole subject)
  else match m.groups[i - 1]? with
    | some (some (start, stop)) => some (Bytes.slice subject start stop)
    | some none => some []
    | none => none

end Match

namespace Regex

/-- The first match that starts at or after an offset; an anchored expression matches only at the
offset itself.  There is none beyond the end of the subject. -/
def Engine.findAt (engine : Engine) (x : Regex) (subject : Bytes) (offset : Nat) : Option Match :=
  if subject.length < offset then none
  else (engine.captures x.text (subject.drop offset)).map (·.shift offset)

/-- The first match for the engine that backtracks. -/
def findAt (x : Regex) (subject : Bytes) (offset : Nat) : Option Match :=
  Engine.backtracking.findAt x subject offset

/-- A match lies in the subject, behind the offset of the search. -/
theorem Engine.findAt_bounds {engine : Engine} {x : Regex} {subject : Bytes} {offset : Nat}
    {m : Match} (h : engine.findAt x subject offset = some m) :
    offset ≤ m.start ∧ m.start ≤ m.stop ∧ m.stop ≤ subject.length := by
  rw [findAt] at h
  split at h
  · cases h
  · obtain ⟨m', hm', rfl⟩ := Option.map_eq_some_iff.mp h
    obtain ⟨hordered, hinside, -⟩ := engine.within hm'
    rw [List.length_drop] at hinside
    simp only [Match.shift]
    omega

theorem Engine.findAt_beyond {engine : Engine} {x : Regex} {subject : Bytes} {offset : Nat}
    (h : subject.length < offset) : engine.findAt x subject offset = none := if_pos h

end Regex

/-! ### Walks -/

/-- A walk over the matches of a pattern: where the next search begins, and where the last match
ended. -/
structure MatchWalk where
  subject : Bytes
  regex : Regex
  position : Nat
  lastEnd : Option Nat
  deriving DecidableEq

namespace MatchWalk

/-- The next match from a position on.  An empty match where the last one ended is skipped, and
the search begins again a byte further on. -/
def seek (engine : Regex.Engine) (w : MatchWalk) (position : Nat) : Option Match :=
  if position ≤ w.subject.length then
    match hm : engine.findAt w.regex w.subject position with
    | some m =>
      if m.start = m.stop ∧ some m.stop = w.lastEnd then w.seek engine (m.start + 1) else some m
    | none => none
  else none
termination_by w.subject.length + 1 - position
decreasing_by
  have := Regex.Engine.findAt_bounds hm
  omega

/-- The next match of a walk, and the walk after it. -/
def next (engine : Regex.Engine) (w : MatchWalk) : Option Match × MatchWalk :=
  match w.seek engine w.position with
  | some m => (some m, { w with position := m.stop, lastEnd := some m.stop })
  | none => (none, { w with position := w.subject.length + 1 })

end MatchWalk

/-! ### Replacement templates -/

inductive ReplacementPiece where
  | literal (s : Bytes)
  | capture (index : Nat)
  deriving DecidableEq, Repr

namespace Replacement

/-- The pieces of a template; a percent sign must be followed by another or by a digit. -/
def parse : Bytes → Except ArgumentError (List ReplacementPiece)
  | [] => .ok []
  | [b] =>
    if b = Pattern.percent then
      .error (.malformed "invalid use of '%' in replacement string")
    else .ok [.literal [b]]
  | b :: c :: rest =>
    if b = Pattern.percent then
      if c = Pattern.percent then do
        pure (.literal [Pattern.percent] :: (← parse rest))
      else if Ascii.isDigit c then do
        pure (.capture (c.toNat - 0x30) :: (← parse rest))
      else .error (.malformed "invalid use of '%' in replacement string")
    else do
      pure (.literal [b] :: (← parse (c :: rest)))

/-- The text that a piece stands for in a match. -/
def expandPiece (m : Match) (subject : Bytes) : ReplacementPiece → Except ArgumentError Bytes
  | .literal s => .ok s
  | .capture i => match m.capture? subject i with
    | some s => .ok s
    | none =>
      .error (.malformed ("invalid capture index %" ++ toString i ++ " in replacement string"))

/-- The text that a template stands for in a match. -/
def expand (m : Match) (subject : Bytes) (template : List ReplacementPiece) :
    Except ArgumentError Bytes := do
  pure (← template.mapM (expandPiece m subject)).flatten

end Replacement

end Lua
