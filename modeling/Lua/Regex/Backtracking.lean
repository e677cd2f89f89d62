/-
An engine that backtracks.

The engine reads the text of an expression and lays the items of its row over the haystack, left
to right.  Where a repetition leaves a choice, the item tries the count that it prefers first,
and gives way only if the rest of the row does not fit.  A text that would take too much room as
an automaton is refused.

* `Regex.Expression.read?` — the expression of a text;
* `Regex.Row.attempt` — the first way of a row that a continuation accepts;
* `Regex.Expression.find?` — the first match in a haystack;
* `Regex.Row.attempt_eq`, `Regex.Expression.find?_eq` — both stop at the first item of a list;
* `Regex.Engine.backtracking` — the engine.

Design notes: the ways of a row are tried one after the other and never listed, since there can be
very many of them.
-/
import Lua.Regex.Basic

namespace Lua.Regex

/-! ### Reading expressions -/

/-- The value of a hexadecimal digit, a letter being in upper case. -/
def hexValue? (c : Char) : Option Nat :=
  if '0' ≤ c ∧ c ≤ '9' then some (c.toNat - 0x30)
  else if 'A' ≤ c ∧ c ≤ 'F' then some (c.toNat - 0x37)
  else none

/-- Reads the digits of a byte behind their backslash. -/
def readDigits? : List Char → Option (Literal × List Char)
  | 'x' :: a :: b :: rest => do
    let high ← hexValue? a
    let low ← hexValue? b
    pure (.hexadecimal (UInt8.ofNat (16 * high + low)), rest)
  | _ => none

/-- Reads a byte. -/
def readLiteral? : List Char → Option (Literal × List Char)
  | [] => none
  | c :: rest =>
    if c = '\\' then readDigits? rest
    else if h : Ascii.isAlphanumeric (Ascii.byte c) = true then
      some (.verbatim (Ascii.byte c) h, rest)
    else none

/-- Reads a byte or a range in a set. -/
def readItem? (s : List Char) : Option (ClassItem × List Char) := do
  let (first, rest) ← readLiteral? s
  match rest with
  | '-' :: rest =>
    let (last, rest) ← readLiteral? rest
    if h : first.byte ≤ last.byte then some (.range first last h, rest) else none
  | rest => some (.literal first, rest)

/-- Reads items up to a closing bracket, at most `fuel` of them. -/
def readItems : Nat → List Char → Option (List ClassItem × List Char)
  | 0, _ => none
  | _ + 1, ']' :: rest => some ([], rest)
  | fuel + 1, s => do
    let (i, rest) ← readItem? s
    let (is, rest) ← readItems fuel rest
    pure (i :: is, rest)

/-- Reads a member of a set. -/
def readMember? (fuel : Nat) : List Char → Option (ClassMember × List Char)
  | '[' :: '^' :: s => do
    match ← readItems fuel s with
    | (first :: others, rest) => some (.complement first others, rest)
    | ([], _) => none
  | s => (readItem? s).map fun (i, rest) => (.item i, rest)

/-- Reads members up to a closing bracket, at most `fuel` of them. -/
def readMembers : Nat → List Char → Option (List ClassMember × List Char)
  | 0, _ => none
  | _ + 1, ']' :: rest => some ([], rest)
  | fuel + 1, s => do
    let (m, rest) ← readMember? fuel s
    let (ms, rest) ← readMembers fuel rest
    pure (m :: ms, rest)

/-- Reads a set behind its opening bracket and its caret. -/
def readSet? (fuel : Nat) (negated : Bool) (s : List Char) : Option (Class × List Char) := do
  match ← readMembers fuel s with
  | (first :: others, rest) => some (.set negated first others, rest)
  | ([], _) => none

/-- Reads a class. -/
def readClass? (fuel : Nat) : List Char → Option (Class × List Char)
  | '.' :: rest => some (.any, rest)
  | '[' :: '^' :: rest => readSet? fuel true rest
  | '[' :: rest => readSet? fuel false rest
  | s => (readLiteral? s).map fun (l, rest) => (.literal l, rest)

def readRepetition : List Char → Repetition × List Char
  | '*' :: '?' :: rest => (.lazy, rest)
  | '*' :: rest => (.many, rest)
  | '+' :: rest => (.some, rest)
  | '?' :: rest => (.optional, rest)
  | s => (.once, s)

/-- Reads a row up to the parenthesis that closes it, or to the end, at most `fuel` items deep. -/
def readRow : Nat → List Char → Option (Row × List Char)
  | 0, _ => none
  | _ + 1, [] => some (.done, [])
  | _ + 1, ')' :: rest => some (.done, ')' :: rest)
  | fuel + 1, '(' :: s => do
    match ← readRow fuel s with
    | (inner, ')' :: rest) => (readRow fuel rest).map fun (row, rest) => (.group inner row, rest)
    | _ => none
  | fuel + 1, '$' :: s => (readRow fuel s).map fun (row, rest) => (.atEnd row, rest)
  | fuel + 1, s => do
    let (c, rest) ← readClass? fuel s
    let (r, rest) := readRepetition rest
    (readRow fuel rest).map fun (row, rest) => (.single c r row, rest)

/-- Reads the anchor of the start, if it is there. -/
def readAnchor : List Char → Bool × List Char
  | '^' :: rest => (true, rest)
  | s => (false, s)

/-- The expression of a text. -/
def Expression.read? (text : List Char) : Option Expression :=
  let (anchored, s) := readAnchor (text.drop flags.length)
  match readRow (s.length + 1) s with
  | some (row, []) => some ⟨anchored, row⟩
  | _ => none

/-! ### Trying -/

section

variable {α : Type}

/-- Covers as many bytes of a class as let `rest` succeed, the most first. -/
def greedily (accepts : UInt8 → Bool) (rest : Bytes → Nat → Option α) : Bytes → Nat → Option α
  | [], offset => rest [] offset
  | b :: s, offset =>
    if accepts b then
      match greedily accepts rest s (offset + 1) with
      | some t => some t
      | none => rest (b :: s) offset
    else rest (b :: s) offset

/-- Covers as many bytes of a class as let `rest` succeed, the fewest first. -/
def lazily (accepts : UInt8 → Bool) (rest : Bytes → Nat → Option α) : Bytes → Nat → Option α
  | [], offset => rest [] offset
  | b :: s, offset =>
    match rest (b :: s) offset with
    | some t => some t
    | none => if accepts b then lazily accepts rest s (offset + 1) else none

/-- Covers one byte of a class. -/
def once (accepts : UInt8 → Bool) (rest : Bytes → Nat → Option α) : Bytes → Nat → Option α
  | [], _ => none
  | b :: s, offset => if accepts b then rest s (offset + 1) else none

/-- Covers what the repetition allows, in its order of preference. -/
def cover (accepts : UInt8 → Bool) (rest : Bytes → Nat → Option α) (s : Bytes) (offset : Nat) :
    Repetition → Option α
  | .once => once accepts rest s offset
  | .optional => match once accepts rest s offset with
    | some t => some t
    | none => rest s offset
  | .many => greedily accepts rest s offset
  | .some => once accepts (greedily accepts rest) s offset
  | .lazy => lazily accepts rest s offset

/-- The first way of a row that the continuation accepts.  The continuation is given the bytes
behind the row, their offset, and what the groups cover. -/
def Row.attempt : Row → (Bytes → Nat → List (Option Span) → Option α) → Bytes → Nat → Option α
  | .done, k, s, offset => k s offset []
  | .single c r rest, k, s, offset => cover c.accepts (rest.attempt k) s offset r
  | .group inner rest, k, s, offset =>
    inner.attempt (fun s stop groups =>
      rest.attempt (fun s last groups' => k s last (some (offset, stop) :: (groups ++ groups')))
        s stop) s offset
  | .atEnd rest, k, s, offset => if s.isEmpty then rest.attempt k s offset else none

end

/-- The preferred match at the front of the bytes, which stand at an offset. -/
def Row.matchAt (row : Row) (s : Bytes) (offset : Nat) : Option Match :=
  row.attempt (fun _ stop groups => some ⟨offset, stop, groups⟩) s offset

/-- The first match in the bytes, which stand at an offset. -/
def Row.search (row : Row) : Bytes → Nat → Option Match
  | [], offset => row.matchAt [] offset
  | b :: s, offset =>
    match row.matchAt (b :: s) offset with
    | some m => some m
    | none => row.search s (offset + 1)

/-- The first match in a haystack. -/
def Expression.find? (e : Expression) (haystack : Bytes) : Option Match :=
  if e.anchored then e.row.matchAt haystack 0 else e.row.search haystack 0

/-! ### The first of all ways -/

section

variable {α : Type} {accepts : UInt8 → Bool} {rest : Bytes → Nat → Option α} {s : Bytes}
  {offset : Nat}

/-- What `rest` makes of the bytes behind the first `n`. -/
def behind (rest : Bytes → Nat → α) (s : Bytes) (offset n : Nat) : α :=
  rest (s.drop n) (offset + n)

theorem behind_succ (rest : Bytes → Nat → α) (b : UInt8) (s : Bytes) (offset : Nat) :
    (fun n => behind rest (b :: s) offset (n + 1)) = behind rest s (offset + 1) := by
  funext n
  rw [behind, behind, List.drop_succ_cons, Nat.add_assoc, Nat.add_comm 1 n]

theorem behind_comp_succ (rest : Bytes → Nat → α) (b : UInt8) (s : Bytes) (offset : Nat) :
    behind rest (b :: s) offset ∘ Nat.succ = behind rest s (offset + 1) :=
  behind_succ rest b s offset

theorem once_eq : once accepts rest s offset =
    (Repetition.once.counts (s.takeWhile accepts).length).findSome? (behind rest s offset) := by
  cases s with
  | nil => rfl
  | cons b s =>
    rw [once, List.takeWhile_cons]
    by_cases hb : accepts b = true
    · simp [hb, Repetition.counts, behind]
    · simp [hb, Repetition.counts]

theorem greedily_eq : greedily accepts rest s offset =
    (List.range ((s.takeWhile accepts).length + 1)).reverse.findSome? (behind rest s offset) := by
  induction s generalizing offset with
  | nil => simp [greedily, behind]
  | cons b s ih =>
    rw [greedily, List.takeWhile_cons]
    by_cases hb : accepts b = true
    · -- the counts from one on are tried first, and none at all last
      rw [if_pos hb, if_pos hb, List.length_cons, List.range_succ_eq_map, List.reverse_cons,
        ← List.map_reverse, List.findSome?_append, List.findSome?_map, behind_comp_succ, ← ih]
      cases greedily accepts rest s (offset + 1) <;> simp [behind]
    · simp [hb, behind]

theorem lazily_eq : lazily accepts rest s offset =
    (List.range ((s.takeWhile accepts).length + 1)).findSome? (behind rest s offset) := by
  induction s generalizing offset with
  | nil => simp [lazily, behind]
  | cons b s ih =>
    have hzero : behind rest (b :: s) offset 0 = rest (b :: s) offset := rfl
    rw [lazily, List.takeWhile_cons]
    by_cases hb : accepts b = true
    · rw [if_pos hb, if_pos hb, List.length_cons, List.range_succ_eq_map, List.findSome?_cons,
        List.findSome?_map, behind_comp_succ, hzero, ih]
      cases rest (b :: s) offset <;> rfl
    · rw [if_neg hb, if_neg hb, List.length_nil, List.range_one, List.findSome?_cons, hzero]
      cases rest (b :: s) offset <;> rfl

/-- Covering tries the counts in the order of preference. -/
theorem cover_eq (r : Repetition) : cover accepts rest s offset r =
    (r.counts (s.takeWhile accepts).length).findSome? (behind rest s offset) := by
  cases r with
  | once => exact once_eq
  | many => exact greedily_eq
  | lazy => exact lazily_eq
  | optional =>
    have hzero : behind rest s offset 0 = rest s offset := rfl
    rw [cover, once_eq, Repetition.counts, Repetition.counts]
    by_cases hrun : (s.takeWhile accepts).length = 0
    · rw [if_pos hrun, if_pos hrun, List.findSome?_cons, hzero]
      cases rest s offset <;> rfl
    · rw [if_neg hrun, if_neg hrun, List.findSome?_cons, List.findSome?_cons,
        List.findSome?_cons, hzero]
      cases behind rest s offset 1 <;> cases rest s offset <;> rfl
  | some =>
    rw [cover, Repetition.counts]
    cases s with
    | nil => rfl
    | cons b s =>
      rw [once, List.takeWhile_cons]
      by_cases hb : accepts b = true
      · rw [if_pos hb, if_pos hb, greedily_eq, List.length_cons, List.range'_eq_map_range,
          ← List.map_reverse, List.findSome?_map]
        congr 1
        funext n
        simp only [Function.comp_apply, Nat.add_comm 1 n]
        exact (congrFun (behind_succ rest b s offset) n).symm
      · simp [hb]

end

theorem findSome?_congr {α β : Type} {l : List α} {f g : α → Option β}
    (h : ∀ a ∈ l, f a = g a) : l.findSome? f = l.findSome? g := by
  induction l with
  | nil => rfl
  | cons a l ih =>
    rw [List.findSome?_cons, List.findSome?_cons, h a (List.mem_cons_self ..),
      ih fun a' ha' => h a' (List.mem_cons_of_mem _ ha')]

theorem findSome?_flatMap {α β γ : Type} (l : List α) (f : α → List β) (g : β → Option γ) :
    (l.flatMap f).findSome? g = l.findSome? fun a => (f a).findSome? g := by
  induction l with
  | nil => rfl
  | cons a l ih =>
    rw [List.flatMap_cons, List.findSome?_append, List.findSome?_cons, ih]
    cases (f a).findSome? g <;> rfl

namespace Repetition

theorem le_of_mem_counts {r : Repetition} {run n : Nat} (h : n ∈ r.counts run) : n ≤ run := by
  cases r <;> simp only [Repetition.counts] at h
  case once => split at h <;> simp at h; omega
  case optional => split at h <;> simp at h <;> omega
  all_goals
    simp at h
    omega

end Repetition

/-- A way of a row ends behind its offset and inside the bytes, and its groups lie in it. -/
theorem Row.ways_within {row : Row} {s : Bytes} {offset : Nat} {way : Nat × List (Option Span)}
    (h : way ∈ row.ways s offset) : offset ≤ way.1 ∧ way.1 ≤ offset + s.length ∧
      ∀ a, some a ∈ way.2 → offset ≤ a.1 ∧ a.1 ≤ a.2 ∧ a.2 ≤ way.1 := by
  induction row generalizing s offset way with
  | done =>
    obtain rfl := List.mem_singleton.mp h
    exact ⟨Nat.le_refl _, Nat.le_add_right _ _, nofun⟩
  | single c r rest ih =>
    obtain ⟨n, hn, hway⟩ := List.mem_flatMap.mp h
    have hrun : n ≤ s.length :=
      Nat.le_trans (Repetition.le_of_mem_counts hn) (List.takeWhile_prefix _).length_le
    obtain ⟨hafter, hinside, hgroups⟩ := ih hway
    rw [List.length_drop] at hinside
    refine ⟨by omega, by omega, fun a ha => ?_⟩
    have := hgroups a ha
    omega
  | group inner rest ihInner ihRest =>
    obtain ⟨⟨stop, groups⟩, hinner, hway⟩ := List.mem_flatMap.mp h
    obtain ⟨⟨last, groups'⟩, hrest, rfl⟩ := List.mem_map.mp hway
    obtain ⟨hafter, hinside, hgroups⟩ := ihInner hinner
    obtain ⟨hafter', hinside', hgroups'⟩ := ihRest hrest
    rw [List.length_drop] at hinside'
    dsimp only at *
    refine ⟨by omega, by omega, fun a ha => ?_⟩
    rcases List.mem_cons.mp ha with ha | ha
    · cases ha
      dsimp only
      omega
    · rcases List.mem_append.mp ha with ha | ha
      · have := hgroups a ha
        omega
      · have := hgroups' a ha
        omega
  | atEnd rest ih =>
    rw [Row.ways] at h
    split at h
    · exact ih h
    · cases h

/-- The attempt stops at the first way that the continuation accepts. -/
theorem Row.attempt_eq {α : Type} (row : Row)
    (k : Bytes → Nat → List (Option Span) → Option α) (s : Bytes) (offset : Nat) :
    row.attempt k s offset = (row.ways s offset).findSome? fun way =>
      k (s.drop (way.1 - offset)) way.1 way.2 := by
  induction row generalizing k s offset with
  | done => simp [Row.attempt, Row.ways]
  | single c r rest ih =>
    rw [Row.attempt, cover_eq, Row.ways, findSome?_flatMap]
    congr 1
    funext n
    rw [behind, ih]
    -- the rest lies behind what the class covers
    refine findSome?_congr fun way hway => ?_
    obtain ⟨hafter, -, -⟩ := Row.ways_within hway
    rw [List.drop_drop, show n + (way.1 - (offset + n)) = way.1 - offset by omega]
  | group inner rest ihInner ihRest =>
    rw [Row.attempt, ihInner, Row.ways, findSome?_flatMap]
    refine findSome?_congr fun way hway => ?_
    rw [ihRest, List.findSome?_map]
    refine findSome?_congr fun way' hway' => ?_
    obtain ⟨hafter, -, -⟩ := Row.ways_within hway
    obtain ⟨hafter', -, -⟩ := Row.ways_within hway'
    rw [List.drop_drop, show way.1 - offset + (way'.1 - way.1) = way'.1 - offset by omega]
    rfl
  | atEnd rest ih =>
    rw [Row.attempt, Row.ways]
    split
    · exact ih k s offset
    · rfl

theorem Row.matchAt_eq (row : Row) (s : Bytes) (offset : Nat) :
    row.matchAt s offset = ((row.ways s offset).map fun (stop, groups) =>
      (⟨offset, stop, groups⟩ : Match)).head? := by
  rw [Row.matchAt, Row.attempt_eq, List.head?_map]
  cases row.ways s offset <;> rfl

theorem Row.search_eq (row : Row) (s : Bytes) (offset : Nat) : row.search s offset =
    (List.range (s.length + 1)).findSome? (behind row.matchAt s offset) := by
  induction s generalizing offset with
  | nil =>
    rw [Row.search, List.length_nil, List.range_one, List.findSome?_cons, List.findSome?_nil]
    simp only [behind, List.drop_zero, Nat.add_zero]
    cases row.matchAt [] offset <;> rfl
  | cons b s ih =>
    have hzero : behind row.matchAt (b :: s) offset 0 = row.matchAt (b :: s) offset := rfl
    rw [Row.search, List.length_cons, List.range_succ_eq_map, List.findSome?_cons,
      List.findSome?_map, behind_comp_succ, ← ih, hzero]
    cases row.matchAt (b :: s) offset <;> rfl

/-- The search stops at the preferred match. -/
theorem Expression.find?_eq (e : Expression) (haystack : Bytes) :
    e.find? haystack = (e.allMatches haystack).head? := by
  rw [Expression.find?, Expression.allMatches, List.head?_flatMap]
  split
  · rw [Row.matchAt_eq, List.findSome?_cons, List.drop_zero]
    cases ((e.row.ways haystack 0).map fun (stop, groups) => (⟨0, stop, groups⟩ : Match)).head? <;>
      rfl
  · rw [Row.search_eq]
    congr 1
    funext start
    rw [behind, Nat.zero_add, Row.matchAt_eq]

theorem Expression.within_of_mem {e : Expression} {haystack : Bytes} {m : Match}
    (h : m ∈ e.allMatches haystack) : m.Within haystack.length := by
  obtain ⟨start, hstart, hm⟩ := List.mem_flatMap.mp h
  obtain ⟨way, hway, rfl⟩ := List.mem_map.mp hm
  have hle : start ≤ haystack.length := by
    split at hstart
    · obtain rfl := List.mem_singleton.mp hstart
      exact Nat.zero_le _
    · exact Nat.le_of_lt_succ (List.mem_range.mp hstart)
  obtain ⟨hafter, hinside, hgroups⟩ := Row.ways_within hway
  rw [List.length_drop] at hinside
  refine ⟨hafter, by dsimp only; omega, fun a ha => ?_⟩
  have := hgroups a ha
  omega

/-! ### The engine -/

/-- The number of states that the text of an expression takes in an automaton: one for each class,
repetition, parenthesis and anchor.  `depth` brackets are open, and `n` states are there. -/
def states : Nat → List Char → Nat → Nat
  | depth, '\\' :: _ :: _ :: _ :: s, n => states depth s (if depth = 0 then n + 1 else n)
  | depth, '[' :: s, n => states (depth + 1) s (if depth = 0 then n + 1 else n)
  | depth, ']' :: s, n => states (depth - 1) s n
  | depth, _ :: s, n => states depth s (if depth = 0 then n + 1 else n)
  | _, [], n => n

/-- The room that a state takes, in bytes. -/
def stateSize : Nat := 32

/-- The room that an automaton may take, in bytes. -/
def sizeLimit : Nat := 10485760

/-- The engine. -/
def Engine.backtracking : Engine where
  refusal? text :=
    if sizeLimit < stateSize * states 0 text 0 then
      some s!"Compiled regex exceeds size limit of {sizeLimit} bytes."
    else none
  captures text haystack := (Expression.read? text).bind (·.find? haystack)
  within h := by
    obtain ⟨e, -, hfind⟩ := Option.bind_eq_some_iff.mp h
    rw [Expression.find?_eq] at hfind
    exact Expression.within_of_mem (List.mem_of_head? hfind)

end Lua.Regex
