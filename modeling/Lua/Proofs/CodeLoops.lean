/-
Loops over the codes of a string.

`codes` makes a loop that gives the position and the code of one form after the other.  Each round
skips the continuation bytes behind the last position; a round fails if no form stands there, or if
the form has a continuation byte behind it.  `len` finds the same forms by their lengths:

* `IterationOutcome`, `LoopOutcome` — what a loop is given, and how it ends;
* `IterationOutcome.unique`, `LoopOutcome.unique` — there is one outcome;
* `loopOutcome_ok_iff` — the loops that come to their end;
* `positioned` — codes with the positions of their forms;
* `exists_iterationOutcome` — the rounds over a text and a rest that cannot be read;
* `codes_len` — the loop comes to its end where `len` counts, and fails where it does not.

Design notes: the invariant of the rounds is that the run of continuation bytes behind the control
value ends where the next form begins.
-/
import Lua.Proofs.Border
import Lua.Proofs.EncodedTexts

namespace Lua

variable {H : Host} {B : Behaviour H} {w : World H} {f : Builtin} {state c : Value}
  {args : List Value} {rows rows' : List (List Value)} {r r' : Except Raised Unit}

/-! ### Loops that may fail -/

/-- A loop that calls a built-in function with a state and a control value, and goes on from the
first result until that is nil: the results it is given, and the error if a call fails. -/
inductive IterationOutcome (B : Behaviour H) (w : World H) (f : Builtin) (state : Value) :
    Value → List (List Value) → Except Raised Unit → Prop
  | ends {c vs} (h : (B.builtin f [state, c]).Runs B w (.ok vs) w)
      (hnil : Values.first vs = .nil) : IterationOutcome B w f state c [] (.ok ())
  | fails {c e} (h : (B.builtin f [state, c]).Runs B w (.error e) w) :
      IterationOutcome B w f state c [] (.error e)
  | row {c vs rows r} (h : (B.builtin f [state, c]).Runs B w (.ok vs) w)
      (hfirst : Values.first vs ≠ .nil)
      (hrest : IterationOutcome B w f state (Values.first vs) rows r) :
      IterationOutcome B w f state c (vs :: rows) r

/-- The outcome of a loop over what a built-in function gives for its arguments, which may be an
error already. -/
inductive LoopOutcome (B : Behaviour H) (w : World H) (f : Builtin) (args : List Value) :
    List (List Value) → Except Raised Unit → Prop
  | refused {e} (h : (B.builtin f args).Runs B w (.error e) w) :
      LoopOutcome B w f args [] (.error e)
  | begun {g state c rows r}
      (h : (B.builtin f args).Runs B w (.ok [.function (.builtin g), state, c]) w)
      (hrest : IterationOutcome B w g state c rows r) : LoopOutcome B w f args rows r

theorem IterationOutcome.unique (h : IterationOutcome B w f state c rows r)
    (h' : IterationOutcome B w f state c rows' r') : rows = rows' ∧ r = r' := by
  induction h generalizing rows' with
  | ends h hnil =>
    cases h' with
    | ends => exact ⟨rfl, rfl⟩
    | fails h₁ => cases (h.unique h₁).1
    | row h₁ hfirst =>
      cases (h.unique h₁).1
      exact absurd hnil hfirst
  | fails h =>
    cases h' with
    | ends h₁ => cases (h.unique h₁).1
    | fails h₁ =>
      cases (h.unique h₁).1
      exact ⟨rfl, rfl⟩
    | row h₁ => cases (h.unique h₁).1
  | row h hfirst _ ih =>
    cases h' with
    | ends h₁ hnil =>
      cases (h.unique h₁).1
      exact absurd hnil hfirst
    | fails h₁ => cases (h.unique h₁).1
    | row h₁ _ hrest =>
      cases (h.unique h₁).1
      obtain ⟨rfl, rfl⟩ := ih hrest
      exact ⟨rfl, rfl⟩

theorem LoopOutcome.unique (h : LoopOutcome B w f args rows r)
    (h' : LoopOutcome B w f args rows' r') : rows = rows' ∧ r = r' := by
  cases h with
  | refused h =>
    cases h' with
    | refused h₁ =>
      cases (h.unique h₁).1
      exact ⟨rfl, rfl⟩
    | begun h₁ => cases (h.unique h₁).1
  | begun h hrest =>
    cases h' with
    | refused h₁ => cases (h.unique h₁).1
    | begun h₁ hrest₁ =>
      cases (h.unique h₁).1
      exact hrest.unique hrest₁

theorem IterationOutcome.iteration (h : IterationOutcome B w f state c rows (.ok ())) :
    Iteration B w f state c rows := by
  generalize hr : Except.ok () = r at h
  induction h with
  | ends h hnil => exact .ends h hnil
  | fails => cases hr
  | row h hfirst _ ih => exact .row h hfirst (ih hr)

theorem Iteration.outcome (h : Iteration B w f state c rows) :
    IterationOutcome B w f state c rows (.ok ()) := by
  induction h with
  | ends h hnil => exact .ends h hnil
  | row h hfirst _ ih => exact .row h hfirst ih

/-- The loops that come to their end are those without a failure. -/
theorem loopOutcome_ok_iff : LoopOutcome B w f args rows (.ok ()) ↔ ForLoop B w f args rows := by
  constructor
  · rintro (_ | ⟨h, hrest⟩)
    exact ⟨_, _, _, h, hrest.iteration⟩
  · rintro ⟨g, state, c, h, hrest⟩
    exact .begun h hrest.outcome

namespace Library.Utf8s

open Utf8

variable {strict lax : Bool} {code i : Nat} {codes : List Nat} {s u v rest : Bytes}

/-! ### Positions of codes -/

/-- The codes with the positions of their forms, the first of which begins at `p`. -/
def positioned (p : Nat) : List Nat → List (Nat × Nat)
  | [] => []
  | code :: codes => (p, code) :: positioned (p + (encode code).length) codes

/-- What a round is given. -/
def codeRow (pair : Nat × Nat) : List Value := [.nat pair.1, .nat pair.2]

theorem length_positioned (p : Nat) (codes : List Nat) :
    (positioned p codes).length = codes.length := by
  induction codes generalizing p with
  | nil => rfl
  | cons code codes ih => exact congrArg (· + 1) (ih _)

/-- No form begins behind the text. -/
theorem lt_of_mem_positioned {p : Nat} {pair : Nat × Nat} (h : pair ∈ positioned p codes) :
    pair.1 < p + (text codes).length := by
  induction codes generalizing p with
  | nil => cases h
  | cons code codes ih =>
    rw [text_cons, List.length_append]
    have hpos := length_encode_pos code
    rcases List.mem_cons.mp h with rfl | h
    · dsimp only
      omega
    · have := ih h
      omega

/-! ### Rounds -/

/-- The function that is called for each round. -/
def stepper (strict : Bool) : Builtin := .utf8 (.codesStep strict)

/-- A round reads what stands behind the continuation bytes that follow the last position. -/
theorem codesStep_eq (strict : Bool) (hlength : s.length < 2 ^ 63) (hs : s = u ++ v)
    (hrun : i + continuationRun s i = u.length) :
    (codesStep strict [.string s, .nat i] : Program H (List Value)) =
      if v = [] then .done [.nil]
      else match decode strict v with
        | some (code, n) => if isContinuationAt v n then .raise invalidCode
          else .done [.nat (u.length + 1), .nat code]
        | none => .raise invalidCode := by
  have hle : s.length = u.length + v.length := by rw [hs, List.length_append]
  have hinteger : (Int64.ofNat i).toInt = i := Int64.toInt_ofNat_of_lt (by omega)
  have hstep : (codesStep strict [.string s, .nat i] : Program H (List Value)) =
      let i := (Int64.ofNat i).toInt
      if i < 0 then .done [.nil]
      else
        let o := i.toNat + continuationRun s i.toNat
        if s.length ≤ o then .done [.nil]
        else match decode strict (s.drop o) with
          | some (code, n) => if isContinuationAt s (o + n) then .raise invalidCode
            else .done [.nat (o + 1), .nat code]
          | none => .raise invalidCode := rfl
  have hend : s.length ≤ u.length ↔ v = [] := by
    rw [← List.length_eq_zero_iff]
    omega
  have hdrop : s.drop u.length = v := by rw [hs, List.drop_left]
  have hbyte : ∀ n, isContinuationAt s (u.length + n) = isContinuationAt v n := by
    rw [hs]
    exact isContinuationAt_append u v
  rw [hstep, hinteger]
  dsimp only
  rw [if_neg (by omega), Int.toNat_natCast, hrun, hdrop]
  simp only [hend, hbyte]

/-- A round that comes to a form gives its position and its code, unless a continuation byte stands
behind it. -/
theorem codesStep_form (hlength : s.length < 2 ^ 63) (hs : s = u ++ (encode code ++ v))
    (hrun : i + continuationRun s i = u.length) (hcode : Readable strict code) :
    (codesStep strict [.string s, .nat i] : Program H (List Value)) =
      if isContinuationAt v 0 then .raise invalidCode
      else .done [.nat (u.length + 1), .nat code] := by
  have hbyte : isContinuationAt (encode code ++ v) (encode code).length = isContinuationAt v 0 :=
    isContinuationAt_append _ _ 0
  have hnil : encode code ++ v ≠ [] :=
    List.append_ne_nil_of_left_ne_nil (List.ne_nil_of_length_pos (length_encode_pos code)) v
  rw [codesStep_eq strict hlength hs hrun, if_neg hnil, decode_encode hcode]
  dsimp only
  rw [hbyte]

/-- From a form, the next round comes to what stands behind it. -/
theorem add_continuationRun_form (hs : s = u ++ (encode code ++ v))
    (hv : isContinuationAt v 0 = false) (hc : code ≤ maxCode) :
    u.length + 1 + continuationRun s (u.length + 1) = (u ++ encode code).length := by
  rw [hs, continuationRun_append, Nat.add_assoc, continuationRun_encode hv hc, List.length_append]

/-- The rounds give the codes of a text.  If a rest follows that cannot be read, the loop fails
there, or at the last code if the rest begins with a continuation byte. -/
theorem exists_iterationOutcome (host : HostCode H) (w : World H)
    (hcodes : ∀ code ∈ codes, Readable strict code) (hrest : decode strict rest = none)
    (hlength : s.length < 2 ^ 63) (hs : s = u ++ (text codes ++ rest))
    (hrun : i + continuationRun s i = u.length) :
    ∃ pairs r, IterationOutcome (.standard host) w (stepper strict) (.string s) (.nat i)
        (pairs.map codeRow) r ∧
      (rest = [] ∧ pairs = positioned (u.length + 1) codes ∧ r = .ok () ∨
        rest ≠ [] ∧ pairs <+: positioned (u.length + 1) codes ∧
          r = .error (.cause invalidCode)) := by
  induction codes generalizing u i with
  | nil =>
    have hstep := codesStep_eq (H := H) strict hlength hs hrun
    rw [text_nil, List.nil_append, hrest] at hstep
    by_cases hnil : rest = []
    · rw [if_pos hnil] at hstep
      exact ⟨[], _, .ends (Program.runs_of_eq_done hstep) rfl, .inl ⟨hnil, rfl, rfl⟩⟩
    · rw [if_neg hnil] at hstep
      exact ⟨[], _, .fails (Program.runs_of_eq_raise hstep), .inr ⟨hnil, List.nil_prefix, rfl⟩⟩
  | cons code codes ih =>
    obtain ⟨hcode, hcodes⟩ := List.forall_mem_cons.mp hcodes
    rw [text_cons, List.append_assoc] at hs
    have hstep := codesStep_form (H := H) hlength hs hrun hcode
    cases hcontinues : isContinuationAt (text codes ++ rest) 0 with
    | true =>
      have hnil := ne_nil_of_isContinuationAt (fun c hc => (hcodes c hc).1) hcontinues
      rw [hcontinues, if_pos rfl] at hstep
      exact ⟨[], _, .fails (Program.runs_of_eq_raise hstep), .inr ⟨hnil, List.nil_prefix, rfl⟩⟩
    | false =>
      rw [hcontinues, if_neg Bool.false_ne_true] at hstep
      -- the position that a round gives is the offset behind the first byte of its form
      obtain ⟨pairs, r, houtcome, hend⟩ := ih hcodes (by rw [hs, List.append_assoc])
        (add_continuationRun_form hs hcontinues hcode.1)
      refine ⟨(u.length + 1, code) :: pairs, r,
        .row (Program.runs_of_eq_done hstep) nofun houtcome, ?_⟩
      rw [List.length_append, Nat.add_right_comm] at hend
      rcases hend with ⟨hnil, rfl, hr⟩ | ⟨hnil, hpairs, hr⟩
      · exact .inl ⟨hnil, rfl, hr⟩
      · exact .inr ⟨hnil, List.cons_prefix_cons.mpr ⟨rfl, hpairs⟩, hr⟩

/-! ### Loops -/

theorem codes_eq (hsubject : argument Bytes args 0 = .ok s)
    (hlax : (args.getD 1 .nil).isTruthy = lax) :
    (Utf8s.codes args : Program H (List Value)) =
      if isContinuationAt s 0 then .raise invalidCode
      else .done [.function (.builtin (stepper (!lax))), .string s, .nat 0] := by
  subst hlax
  exact Program.bind_of_ok hsubject _

/-- The loop over a string that begins with the forms of some codes. -/
theorem exists_loopOutcome (host : HostCode H) (w : World H)
    (hsubject : argument Bytes args 0 = .ok s) (hlax : (args.getD 1 .nil).isTruthy = lax)
    (hcodes : ∀ code ∈ codes, Readable (!lax) code) (hrest : decode (!lax) rest = none)
    (hlength : s.length < 2 ^ 63) (hs : s = text codes ++ rest) :
    ∃ pairs r, LoopOutcome (.standard host) w (.utf8 .codes) args (pairs.map codeRow) r ∧
      (rest = [] ∧ pairs = positioned 1 codes ∧ r = .ok () ∨
        rest ≠ [] ∧ pairs <+: positioned 1 codes ∧ r = .error (.cause invalidCode)) := by
  have hstart := codes_eq (H := H) hsubject hlax
  cases hcontinues : isContinuationAt s 0 with
  | true =>
    rw [hcontinues, if_pos rfl] at hstart
    rw [hs] at hcontinues
    have hnil := ne_nil_of_isContinuationAt (fun c hc => (hcodes c hc).1) hcontinues
    exact ⟨[], _, .refused (Program.runs_of_eq_raise hstart), .inr ⟨hnil, List.nil_prefix, rfl⟩⟩
  | false =>
    rw [hcontinues, if_neg Bool.false_ne_true] at hstart
    obtain ⟨pairs, r, houtcome, hend⟩ := exists_iterationOutcome host w (u := []) hcodes hrest
      hlength hs ((Nat.zero_add _).trans (continuationRun_eq_zero hcontinues))
    exact ⟨pairs, r, .begun (Program.runs_of_eq_done hstart) houtcome, hend⟩

/-- **`codes` accepts exactly what `len` accepts.**  For every string whose length is an integer of
the language, strictly read or not, there is one outcome of the loop over its codes.  Either it
comes to its end and `len` gives the number of its rounds; or it fails, and `len` gives nil and a
position behind those of all the rounds. -/
theorem codes_len (host : HostCode H) (w : World H) {args' : List Value}
    (hlength : s.length < 2 ^ 63) (hsubject : argument Bytes args 0 = .ok s)
    (hlax : (args.getD 1 .nil).isTruthy = lax) (hargs : WholeArguments args' s lax) :
    let B := Behaviour.standard host
    let counting := B.builtin (.utf8 .len) args'
    ∃ (pairs : List (Nat × Nat)) (r : Except Raised Unit),
      LoopOutcome B w (.utf8 .codes) args (pairs.map codeRow) r ∧
      (∀ rows' r', LoopOutcome B w (.utf8 .codes) args rows' r' →
        rows' = pairs.map codeRow ∧ r' = r) ∧
      (r = .ok () ∧ counting.Runs B w (.ok [.nat pairs.length]) w ∨
        r = .error (.cause invalidCode) ∧ ∃ q, counting.Runs B w (.ok [.nil, .nat q]) w ∧
          q ≤ s.length ∧ ∀ pair ∈ pairs, pair.1 < q) := by
  intro B counting
  obtain ⟨codes, rest, hs, hcodes, hrest⟩ := exists_text (!lax) s
  obtain ⟨pairs, r, houtcome, hend⟩ :=
    exists_loopOutcome host w hsubject hlax hcodes hrest hlength hs
  have hlen := len_eq (H := H) hargs hcodes hrest hs
  refine ⟨pairs, r, houtcome, fun rows' r' h => h.unique houtcome, ?_⟩
  rcases hend with ⟨rfl, rfl, rfl⟩ | ⟨hnil, hpairs, rfl⟩
  · rw [length_positioned]
    exact .inl ⟨rfl, Program.runs_of_eq_done hlen⟩
  · -- where `len` stops no code is left, and no round is given a form behind the codes
    rw [if_neg (by rwa [List.isEmpty_iff])] at hlen
    have hpos := List.length_pos_iff.mpr hnil
    refine .inr ⟨rfl, _, Program.runs_of_eq_done hlen, ?_, fun pair hpair => ?_⟩
    · rw [hs, List.length_append]
      omega
    · have hlt := lt_of_mem_positioned (hpairs.subset hpair)
      omega

/-- A letter and the euro sign with a continuation byte behind it: the loop gives the letter and
fails, and `len` gives nil and a position. -/
theorem codes_len_strayByte :
    let s : Bytes := [0x61, 0xE2, 0x82, 0xAC, 0x80]
    s.length < 2 ^ 63 ∧ argument Bytes [.string s] 0 = .ok s ∧
    (Value.isTruthy ([.string s].getD 1 .nil)) = false ∧ WholeArguments [.string s] s false ∧
    LoopOutcome .bare .bare (.utf8 .codes) [.string s] [[.nat 1, .nat 0x61]]
      (.error (.cause invalidCode)) ∧
    ∃ q ≤ 5, (Behaviour.bare.builtin (.utf8 .len) [.string s]).Runs .bare .bare
      (.ok [.nil, .nat q]) .bare := by
  intro s
  have hlength : s.length < 2 ^ 63 := by decide
  have hsubject : argument Bytes [.string s] 0 = .ok s := rfl
  have hlax : (Value.isTruthy ([.string s].getD 1 .nil)) = false := rfl
  have hargs : WholeArguments [.string s] s false := ⟨rfl, ⟨none, rfl, rfl⟩, ⟨none, rfl, rfl⟩, rfl⟩
  have hloop : LoopOutcome .bare .bare (.utf8 .codes) [.string s] [[.nat 1, .nat 0x61]]
      (.error (.cause invalidCode)) :=
    .begun (Program.runs_of_eq_done rfl) <| .row (Program.runs_of_eq_done rfl) nofun <|
      .fails (Program.runs_of_eq_raise rfl)
  obtain ⟨pairs, r, -, hunique, hend⟩ := codes_len .bare .bare hlength hsubject hlax hargs
  obtain ⟨-, rfl⟩ := hunique _ _ hloop
  rcases hend with ⟨hr, -⟩ | ⟨-, q, hlen, hle, -⟩
  · cases hr
  · exact ⟨hlength, hsubject, hlax, hargs, hloop, q, hle, hlen⟩

end Library.Utf8s

end Lua
