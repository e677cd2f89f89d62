/-
Searching for a match and for a text.

`find` tells where a match is, and `matchPattern` what it captures.  For a text without special
bytes, or if so asked, `find` compares windows of the subject with the text; otherwise it asks the
engine for a match of the expression:

* `find_eq_place` — whichever way `find` goes, it tells where the match of the pattern is;
* `find_matchPattern` — both functions tell of the same match;
* `FirstAt` — where a text occurs first, from a position on;
* `find_escaped` — an escaped text is found where the text itself is, unless the engine refuses its
  expression.

Design notes: whether a text without special bytes is a pattern at all is found out by
`matchPattern` alone.  So the two functions are compared where that succeeds.  The two ways of
`find` agree because the engine is leftmost-first; that it refuses a long expression is up to it.
-/
import Lua.Proofs.Execution
import Lua.Proofs.LiteralPatterns
import Lua.Proofs.SuccessiveMatches

namespace Lua.Library.Strings

open Regex (Engine)

variable {H : Host} {B : Behaviour H} {w w' : World H} {engine : Engine} {args : List Value}
  {s source text : Bytes} {init : Nat} {x : Regex}

/-! ### The two ways -/

/-- The place of a match with its captures, or nil. -/
def place (s : Bytes) : Option Match → List Value
  | none => [.nil]
  | some m => .nat (m.start + 1) :: .nat m.stop :: if m.groups.isEmpty then [] else m.values s

/-- What a match gives, or nil. -/
def given (s : Bytes) : Option Match → List Value
  | none => [.nil]
  | some m => m.values s

theorem startPosition_pos (i : Int) (length : Nat) : 1 ≤ startPosition i length := by
  rw [startPosition]
  split_ifs <;> omega

theorem find_eq (hargs : searchArguments args = .ok (s, source, init)) :
    (find engine args : Program H (List Value)) =
      if s.length + 1 < init then .done [.nil]
      else if (args.getD 3 .nil).isTruthy || !hasSpecials source then
        .done (findText s source init)
      else (Program.ofArgument (firstMatch engine s source init)).bind fun found =>
        .done (place s found) := by
  have hplace : (fun found => .done (place s found) : Option Match → Program H (List Value)) =
      fun
        | none => .done [.nil]
        | some m => .done (.nat (m.start + 1) :: .nat m.stop ::
            if m.groups.isEmpty then [] else m.values s) := by
    funext found
    cases found <;> rfl
  rw [hplace]
  exact Program.bind_of_ok hargs _

theorem matchPattern_eq (hargs : searchArguments args = .ok (s, source, init)) :
    (matchPattern engine args : Program H (List Value)) =
      if s.length + 1 < init then .done [.nil]
      else (Program.ofArgument (firstMatch engine s source init)).bind fun found =>
        .done (given s found) := by
  have hgiven : (fun found => .done (given s found) : Option Match → Program H (List Value)) =
      fun
        | none => .done [.nil]
        | some m => .done (m.values s) := by
    funext found
    cases found <;> rfl
  rw [hgiven]
  exact Program.bind_of_ok hargs _

theorem firstMatch_eq (hx : engine.compile source = .ok x) (s : Bytes) (init : Nat) :
    firstMatch engine s source init = .ok (engine.findAt x s (init - 1)) := by
  rw [firstMatch, hx]
  rfl

theorem firstMatch_eq_error {e : ArgumentError} (hx : engine.compile source = .error e) (s : Bytes)
    (init : Nat) : firstMatch engine s source init = .error e := by
  rw [firstMatch, hx]
  rfl

/-- The plain search tells where the engine finds the pattern of the text. -/
theorem findText_eq (hx : Pattern.Accepted engine (.literal text) x) (hinit : 1 ≤ init)
    (hin : init ≤ s.length + 1) :
    findText s text init = place s (engine.findAt x s (init - 1)) := by
  rw [findText, Pattern.findAt_literal hx (by omega)]
  cases Bytes.find? text (s.drop (init - 1)) with
  | none => rfl
  | some k =>
    rw [Option.map_some, place, show init - 1 + k + 1 = init + k by omega,
      show init - 1 + k + text.length = init + k + text.length - 1 by omega]
    rfl

/-- A search that is asked to be plain. -/
theorem find_eq_plain (hargs : searchArguments args = .ok (s, source, init))
    (hin : init ≤ s.length + 1) (hplain : (args.getD 3 .nil).isTruthy = true) :
    (find engine args : Program H (List Value)) = .done (findText s source init) := by
  rw [find_eq hargs, if_neg (Nat.not_lt_of_le hin), hplain, Bool.true_or, if_pos rfl]

/-- **Where a match is.**  A search for a pattern tells where the engine finds it, even if the
pattern is searched for as a text. -/
theorem find_eq_place (hfirst : engine.LeftmostFirst)
    (hargs : searchArguments args = .ok (s, source, init)) (hinit : 1 ≤ init)
    (hin : init ≤ s.length + 1) (hplain : (args.getD 3 .nil).isTruthy = false)
    (hx : engine.compile source = .ok x) :
    (find engine args : Program H (List Value)) =
      .done (place s (engine.findAt x s (init - 1))) := by
  rw [find_eq hargs, if_neg (Nat.not_lt_of_le hin), hplain, Bool.false_or]
  cases hspecials : hasSpecials source with
  | true =>
    rw [firstMatch_eq hx]
    rfl
  | false =>
    obtain ⟨p, hread, haccepted⟩ := Pattern.exists_accepted hfirst hx
    obtain rfl := Pattern.read_plain hspecials hread haccepted.emitted
    rw [findText_eq haccepted hinit hin]
    rfl

/-! ### The same match -/

/-- The arguments of a search from a position on. -/
def searching (s source : Bytes) (init : Int64) : List Value :=
  [.string s, .string source, .int init]

theorem searchArguments_searching (s source : Bytes) (init : Int64) :
    searchArguments (searching s source init) =
      .ok (s, source, startPosition init.toInt s.length) := rfl

/-- If a match or nil is given, the pattern was accepted. -/
theorem matchPattern_runs {matched : List Value}
    (hargs : searchArguments args = .ok (s, source, init)) (hin : init ≤ s.length + 1)
    (h : (matchPattern engine args).Runs B w (.ok matched) w') :
    w' = w ∧ ∃ x, engine.compile source = .ok x ∧
      matched = given s (engine.findAt x s (init - 1)) := by
  rw [matchPattern_eq hargs, if_neg (Nat.not_lt_of_le hin)] at h
  cases hx : engine.compile source with
  | error e =>
    rw [firstMatch_eq_error hx] at h
    exact absurd h Program.not_runs_fail
  | ok x =>
    rw [firstMatch_eq hx] at h
    obtain ⟨hmatched, rfl⟩ := Program.runs_done_iff.mp h
    exact ⟨rfl, x, rfl, Except.ok.inj hmatched⟩

/-- The captured strings as values. -/
def captureValues (s : Bytes) (spans : List Span) : List Value :=
  spans.map fun (start, stop) => .string (Bytes.slice s start stop)

theorem map_string_strings (m : Match) (s : Bytes) : (m.strings s).map Value.string =
    if m.captures = [] then [.string (m.whole s)] else captureValues s m.captures := by
  rw [Match.strings]
  cases m.captures with
  | nil => rfl
  | cons a rest => exact List.map_map

/-- **`find` and `matchPattern` agree.**  Where `matchPattern` succeeds, `find` succeeds, and one
gives nil if and only if the other does.  Otherwise there is a match: `find` gives its first and
last position and what the parentheses capture; `matchPattern` gives the captures too, or the bytes
between the two positions if the pattern has no parentheses. -/
theorem find_matchPattern (host : HostCode H) (hfirst : host.engine.LeftmostFirst)
    (s source : Bytes) (init : Int64) {matched : List Value}
    (h : ((Behaviour.standard host).builtin (.string .matchPattern) (searching s source init)).Runs
      (.standard host) w (.ok matched) w') :
    w' = w ∧ ∃ found,
      ((Behaviour.standard host).builtin (.string .find) (searching s source init)).Runs
        (.standard host) w (.ok found) w ∧
      (found = [.nil] ↔ matched = [.nil]) ∧
      (matched = [.nil] ∨ ∃ p first last spans, Pattern.read source = .ok p ∧
        Pattern.Found p s (startPosition init.toInt s.length - 1)
          ⟨first - 1, last, spans.map some⟩ ∧
        1 ≤ first ∧ first ≤ last + 1 ∧ last ≤ s.length ∧
        found = .nat first :: .nat last :: captureValues s spans ∧
        matched = if p.items.count .openCapture = 0 then [.string (Bytes.slice s (first - 1) last)]
          else captureValues s spans) := by
  have hargs := searchArguments_searching s source init
  have hpos := startPosition_pos init.toInt s.length
  by_cases hin : startPosition init.toInt s.length ≤ s.length + 1
  · obtain ⟨rfl, x, hx, rfl⟩ := matchPattern_runs hargs hin h
    have hfind := find_eq_place (H := H) hfirst hargs hpos hin rfl hx
    refine ⟨rfl, _, Program.runs_of_eq_done hfind, ?_⟩
    cases hfound : host.engine.findAt x s (startPosition init.toInt s.length - 1) with
    | none => exact ⟨Iff.rfl, .inl rfl⟩
    | some m =>
      obtain ⟨p, hread, haccepted⟩ := Pattern.exists_accepted hfirst hx
      have hm := haccepted.found hfound
      obtain ⟨hpresent, hcount⟩ := hm.present
      obtain ⟨-, hlen, hstop⟩ := Engine.findAt_bounds hfound
      have hvalues := (Match.values_eq hpresent s).trans (map_string_strings m s)
      have hgiven : given s (some m) ≠ [.nil] := by
        -- all that a match gives are strings
        rw [given, Match.values_eq hpresent]
        cases m.strings s <;> nofun
      have hmatch : m = ⟨m.start + 1 - 1, m.stop, m.captures.map some⟩ := by rw [← hpresent]; rfl
      refine ⟨iff_of_false nofun hgiven, .inr ⟨p, m.start + 1, m.stop, m.captures, hread,
        hmatch ▸ hm, by omega, by omega, hstop, ?_, ?_⟩⟩
      · rw [place, hvalues, hpresent]
        cases m.captures <;> rfl
      · rw [given, hvalues, ← hcount]
        exact if_congr List.length_eq_zero_iff.symm rfl rfl
  · have hout := Nat.lt_of_not_le hin
    have hmatch : (matchPattern host.engine (searching s source init) : Program H _) = _ :=
      (matchPattern_eq hargs).trans (if_pos hout)
    have hfind : (find host.engine (searching s source init) : Program H _) = _ :=
      (find_eq hargs).trans (if_pos hout)
    have hnil : (matchPattern host.engine (searching s source init)).Runs (.standard host) w
        (.ok [.nil]) w := Program.runs_of_eq_done hmatch
    obtain ⟨hmatched, rfl⟩ := hnil.unique h
    cases hmatched
    exact ⟨rfl, _, Program.runs_of_eq_done hfind, Iff.rfl, .inl rfl⟩

/-- Two bytes that are no special ones, searched for from a position counted from the end. -/
theorem find_matchPattern_bracket :
    let args := searching (Bytes.ofString "a[1]=2") (Bytes.ofString "]=") (-4)
    (Behaviour.bare.builtin (.string .matchPattern) args).Runs .bare .bare
      (.ok [Value.ofText "]="]) .bare ∧
    ∃ first last, (Behaviour.bare.builtin (.string .find) args).Runs .bare .bare
        (.ok [.nat first, .nat last]) .bare ∧
      Bytes.slice (Bytes.ofString "a[1]=2") (first - 1) last = Bytes.ofString "]=" := by
  intro args
  have hfirst : firstMatch Engine.backtracking (Bytes.ofString "a[1]=2") (Bytes.ofString "]=") 3 =
      .ok (some ⟨3, 5, []⟩) := by decide +kernel
  have hmatch : (Behaviour.bare.builtin (.string .matchPattern) args).Runs .bare .bare
      (.ok [Value.ofText "]="]) .bare := by
    refine Program.runs_of_eq_done ((matchPattern_eq rfl).trans ((if_neg (by decide)).trans ?_))
    show (Program.ofArgument (firstMatch Engine.backtracking (Bytes.ofString "a[1]=2")
      (Bytes.ofString "]=") 3)).bind _ = _
    rw [hfirst]
    rfl
  refine ⟨hmatch, ?_⟩
  obtain ⟨-, found, hfind, -, hnil | ⟨p, first, last, spans, hp, hm, -, -, -, rfl, hmatched⟩⟩ :=
    find_matchPattern .bare Engine.leftmostFirst_backtracking _ _ _ hmatch
  · cases hnil
  · have hpattern : Pattern.read (Bytes.ofString "]=") =
        .ok (Pattern.literal (Bytes.ofString "]=")) := by decide +kernel
    obtain rfl := Except.ok.inj (hpattern.symm.trans hp)
    have hcount := Pattern.count_openCapture_literal (Bytes.ofString "]=")
    have hspans := hm.present.2
    rw [Pattern.captures_eq_of_groups rfl, hcount, List.length_eq_zero_iff] at hspans
    subst hspans
    rw [if_pos hcount] at hmatched
    exact ⟨first, last, hfind, (Value.string.inj (List.head_eq_of_cons_eq hmatched)).symm⟩

/-! ### Escaped texts -/

/-- What a search gives for a text: the place of its first occurrence from a position on, or nil if
it does not occur there. -/
def FirstAt (text s : Bytes) (init : Nat) (found : List Value) : Prop :=
  (∃ k, IsLeast {k | init ≤ k + 1 ∧ Occurs text s k} k ∧
    found = [.nat (k + 1), .nat (k + text.length)]) ∨
  (∀ k, init ≤ k + 1 → ¬ Occurs text s k) ∧ found = [.nil]

theorem firstAt_findText (hinit : 1 ≤ init) (hin : init ≤ s.length + 1) (text : Bytes) :
    FirstAt text s init (findText s text init) := by
  have hd : init - 1 ≤ s.length := by omega
  rw [findText]
  cases h : Bytes.find? text (s.drop (init - 1)) with
  | none =>
    refine .inr ⟨fun k hk hoccurs => ?_, rfl⟩
    obtain ⟨j, rfl⟩ : ∃ j, k = init - 1 + j := ⟨k - (init - 1), by omega⟩
    exact Bytes.find?_eq_none h j ((occurs_drop hd).mpr hoccurs)
  | some k =>
    obtain ⟨hoccurs, hleast⟩ := Bytes.find?_eq_some h
    refine .inl ⟨init - 1 + k, ⟨⟨by omega, (occurs_drop hd).mp hoccurs⟩, ?_⟩, ?_⟩
    · rintro j ⟨hj, hoccurs⟩
      obtain ⟨i, rfl⟩ : ∃ i, j = init - 1 + i := ⟨j - (init - 1), by omega⟩
      exact Nat.add_le_add_left (hleast ((occurs_drop hd).mpr hoccurs)) _
    · rw [show init - 1 + k + 1 = init + k by omega,
        show init - 1 + k + text.length = init + k + text.length - 1 by omega]

/-- No text occurs beyond the end. -/
theorem firstAt_beyond (hout : s.length + 1 < init) (text : Bytes) :
    FirstAt text s init [.nil] := by
  refine .inr ⟨fun k hk hoccurs => ?_, rfl⟩
  have hle := hoccurs.1
  omega

/-- A text has a special byte when it is escaped, unless there are only letters and digits. -/
theorem hasSpecials_escaped (text : Bytes) :
    hasSpecials (Pattern.escaped text) = !text.all Ascii.isAlphanumeric := by
  have hword : ∀ b, Ascii.isAlphanumeric b = true → specials.contains b = false :=
    Ascii.forall_byte (by decide +kernel)
  have hpercent : specials.contains Pattern.percent = true := by decide +kernel
  induction text with
  | nil => rfl
  | cons b text ih =>
    rw [hasSpecials] at ih
    rw [hasSpecials, Pattern.escaped, List.flatMap_cons, List.any_append, List.all_cons]
    cases hb : Ascii.isAlphanumeric b with
    | true =>
      rw [if_pos rfl, List.any_cons, hword b hb]
      exact ih
    | false =>
      rw [if_neg Bool.false_ne_true, List.any_cons, hpercent]
      rfl

/-- If the expression of an escaped text is refused, the search fails, unless there are only letters
and digits, so that the text is searched for as it is. -/
theorem runs_find_refused {e : ArgumentError}
    (hargs : searchArguments args = .ok (s, Pattern.escaped text, init))
    (hin : init ≤ s.length + 1) (hplain : (args.getD 3 .nil).isTruthy = false)
    (hx : engine.compile (Pattern.escaped text) = .error e) :
    (find engine args).Runs B w (if text.all Ascii.isAlphanumeric ∨ s.length + 1 < init then
      .ok (findText s text init) else .error (.cause (.argument e))) w := by
  have hnot := Nat.not_lt_of_le hin
  have hfind : (find engine args : Program H _) = _ := find_eq hargs
  rw [if_neg hnot, hplain, Bool.false_or, hasSpecials_escaped, Bool.not_not] at hfind
  by_cases hword : text.all Ascii.isAlphanumeric = true
  · rw [if_pos hword, Pattern.escaped_eq_self hword] at hfind
    rw [if_pos (.inl hword)]
    exact Program.runs_of_eq_done hfind
  · rw [if_neg hword, firstMatch_eq_error hx] at hfind
    rw [if_neg (not_or.mpr ⟨hword, hnot⟩)]
    exact Program.runs_of_eq_raise hfind

/-- **Escaping makes any text a pattern of itself.**  With a percent sign before each byte that is
no letter and no digit, every text is read as the pattern of the text, and an expression is emitted
for it.  A search for it gives what a plain search for the text gives, the place of its first
occurrence, if the engine accepts the expression, or is not asked, since there are only letters and
digits or the search begins beyond the end.  Else the search fails with the message of the engine.
An engine that accepts short expressions accepts that of a short text. -/
theorem find_escaped (host : HostCode H) (hfirst : host.engine.LeftmostFirst) (w : World H)
    (s text : Bytes) (init : Int64) :
    let B := Behaviour.standard host
    let find := fun args => B.builtin (.string .find) args
    let start := startPosition init.toInt s.length
    Pattern.read (Pattern.escaped text) = .ok (.literal text) ∧
    (Pattern.literal text).emit = .ok (Pattern.literalText text) ∧
    (host.engine.AcceptsShort → text.length ≤ 61 →
      host.engine.refusal? (Pattern.literalText text) = none) ∧
    ∃ found, (find (searching s text init ++ [.boolean true])).Runs B w (.ok found) w ∧
      FirstAt text s start found ∧
      match host.engine.refusal? (Pattern.literalText text) with
      | none =>
        host.engine.compile (Pattern.escaped text) = .ok ⟨Pattern.literalText text⟩ ∧
        (find (searching s (Pattern.escaped text) init)).Runs B w (.ok found) w
      | some message =>
        host.engine.compile (Pattern.escaped text) = .error (.malformed message) ∧
        (find (searching s (Pattern.escaped text) init)).Runs B w
          (if text.all Ascii.isAlphanumeric ∨ s.length + 1 < start then .ok found
            else .error (.cause (.argument (.malformed message)))) w := by
  intro B find start
  have hread := (Pattern.spelled_escaped text).read
  have hcompile := Pattern.compile_escaped host.engine text
  have hargs := searchArguments_searching s (Pattern.escaped text) init
  have hargs' : searchArguments (searching s text init ++ [.boolean true]) =
      .ok (s, text, start) := rfl
  have hpos : 1 ≤ start := startPosition_pos init.toInt s.length
  refine ⟨hread, Pattern.emit_literal text, Pattern.refusal?_literalText, ?_⟩
  by_cases hin : start ≤ s.length + 1
  · have hplain : (Library.Strings.find host.engine
        (searching s text init ++ [.boolean true])).Runs B w _ w :=
      Program.runs_of_eq_done (find_eq_plain hargs' hin rfl)
    refine ⟨_, hplain, firstAt_findText hpos hin text, ?_⟩
    cases hrefusal : host.engine.refusal? (Pattern.literalText text) with
    | none =>
      rw [hrefusal] at hcompile
      have haccepted : Pattern.Accepted host.engine (.literal text) ⟨Pattern.literalText text⟩ :=
        ⟨hfirst, Pattern.emit_literal text, hrefusal⟩
      refine ⟨hcompile, Program.runs_of_eq_done ?_⟩
      rw [findText_eq haccepted hpos hin]
      exact find_eq_place hfirst hargs hpos hin rfl hcompile
    | some message =>
      rw [hrefusal] at hcompile
      exact ⟨hcompile, runs_find_refused hargs hin rfl hcompile⟩
  · have hout := Nat.lt_of_not_le hin
    refine ⟨[.nil], Program.runs_of_eq_done ((find_eq hargs').trans (if_pos hout)),
      firstAt_beyond hout text, ?_⟩
    have hfind : (find (searching s (Pattern.escaped text) init)).Runs B w (.ok [.nil]) w :=
      Program.runs_of_eq_done ((find_eq hargs).trans (if_pos hout))
    cases hrefusal : host.engine.refusal? (Pattern.literalText text) with
    | none =>
      rw [hrefusal] at hcompile
      exact ⟨hcompile, hfind⟩
    | some message =>
      rw [hrefusal] at hcompile
      dsimp only
      rw [if_pos (.inr hout)]
      exact ⟨hcompile, hfind⟩

/-- A text with a hyphen, at its second place in the subject. -/
theorem find_escaped_hyphen :
    let text := Bytes.ofString "a-b"
    Engine.backtracking.LeftmostFirst ∧
    Engine.backtracking.compile (Pattern.escaped text) = .ok ⟨Pattern.literalText text⟩ ∧
    (Behaviour.bare.builtin (.string .find)
      (searching (Bytes.ofString "a-b a-b") (Pattern.escaped text) 2)).Runs .bare .bare
        (.ok [.nat 5, .nat 7]) .bare := by
  intro text
  have hfirst := Engine.leftmostFirst_backtracking
  obtain ⟨-, -, hshort, found, hplain, -, h⟩ :=
    find_escaped .bare hfirst .bare (Bytes.ofString "a-b a-b") text 2
  have haccepted : HostCode.bare.engine.refusal? (Pattern.literalText text) = none :=
    hshort Engine.acceptsShort_backtracking (by decide)
  rw [haccepted] at h
  obtain ⟨hcompile, hfind⟩ := h
  have hplace : (Behaviour.bare.builtin (.string .find)
      (searching (Bytes.ofString "a-b a-b") text 2 ++ [.boolean true])).Runs .bare .bare
        (.ok [.nat 5, .nat 7]) .bare := Program.runs_of_eq_done (by rfl)
  obtain ⟨hfound, -⟩ := hplain.unique hplace
  cases hfound
  exact ⟨hfirst, hcompile, hfind⟩

/-- Each hyphen takes a state. -/
theorem states_hyphens (k n : Nat) :
    Regex.states 0 ((List.replicate k (Ascii.byte '-')).flatMap byteText) n = n + k := by
  induction k generalizing n with
  | zero => rfl
  | succ k ih =>
    have hbyte : byteText (Ascii.byte '-') = ['\\', 'x', '2', 'D'] := by decide +kernel
    rw [List.replicate_succ, List.flatMap_cons, hbyte]
    show Regex.states 0 ((List.replicate k (Ascii.byte '-')).flatMap byteText) (n + 1) = _
    rw [ih, Nat.add_assoc, Nat.add_comm 1]

/-- The message with which the engine refuses what takes too much room. -/
def tooLarge : ArgumentError := .malformed "Compiled regex exceeds size limit of 10485760 bytes."

/-- A row of very many hyphens does not occur in an empty subject, as the plain search says.  When
the row is escaped, its expression is refused. -/
theorem find_hyphens {k : Nat} (hk : 327674 < k) :
    let text := List.replicate k (Ascii.byte '-')
    let find := fun args => Behaviour.bare.builtin (.string .find) args
    Engine.backtracking.compile (Pattern.escaped text) = .error tooLarge ∧
    (find (searching [] text 1 ++ [.boolean true])).Runs .bare .bare (.ok [.nil]) .bare ∧
    (find (searching [] (Pattern.escaped text) 1)).Runs .bare .bare
      (.error (.cause (.argument tooLarge))) .bare := by
  intro text find
  obtain ⟨j, rfl⟩ : ∃ j, k = j + 1 := ⟨k - 1, by omega⟩
  have hstates : Regex.states 0 (Pattern.literalText text) 0 = 6 + (j + 1) :=
    states_hyphens (j + 1) 6
  have hrefusal : Engine.backtracking.refusal? (Pattern.literalText text) =
      some "Compiled regex exceeds size limit of 10485760 bytes." := by
    show (if Regex.sizeLimit < Regex.stateSize * Regex.states 0 (Pattern.literalText text) 0 then
      _ else _) = _
    rw [hstates, if_pos (by rw [Regex.sizeLimit, Regex.stateSize]; omega)]
    rfl
  have hcompile : Engine.backtracking.compile (Pattern.escaped text) = .error tooLarge := by
    rw [Pattern.compile_escaped, hrefusal]
    rfl
  have hword : ¬ (text.all Ascii.isAlphanumeric = true ∨ ([] : Bytes).length + 1 < 1) := by
    rintro (hword | hout)
    · cases hword
    · exact absurd hout (by decide)
  have hplain : (find (searching [] text 1 ++ [.boolean true])).Runs .bare .bare
      (.ok (findText [] text 1)) .bare :=
    Program.runs_of_eq_done (find_eq_plain rfl (by decide) rfl)
  have hargs : searchArguments (searching [] (Pattern.escaped text) 1) =
      .ok ([], Pattern.escaped text, 1) := rfl
  have hfind := runs_find_refused (B := .bare) (w := .bare) hargs (by decide) rfl hcompile
  rw [if_neg hword] at hfind
  exact ⟨hcompile, hplain, hfind⟩

/-- Half a million hyphens. -/
theorem find_escaped_tooLarge :
    let text := List.replicate 500000 (Ascii.byte '-')
    let find := fun args => Behaviour.bare.builtin (.string .find) args
    Engine.backtracking.compile (Pattern.escaped text) = .error tooLarge ∧
    (find (searching [] text 1 ++ [.boolean true])).Runs .bare .bare (.ok [.nil]) .bare ∧
    (find (searching [] (Pattern.escaped text) 1)).Runs .bare .bare
      (.error (.cause (.argument tooLarge))) .bare :=
  find_hyphens (by decide)

end Lua.Library.Strings
