/-
The kinds of replacements of `gsub`.

A match is replaced by a template, by the entry of a table, or by the answer of a function.  Each
kind has a way of its own to what a match has captured; they say the same where they can:

* `World.call_of_done` — a call of a function that only answers changes nothing;
* `Template`, `fill` — the templates that a pattern allows, and their texts for captured strings;
* `Template.expand` — the pieces of such a template stand for its text;
* `doubled` — the template that stands for a given text, whatever is captured;
* `exists_substitutes` — the outcome of `gsub` from the outcomes of its replacements;
* `Serves` — functions that answer captured strings;
* `replacements_agree` — templates and tables do what functions do.

Design notes: a function may do more than answer.  The worlds in which it is called and which it
leaves are those with a property `P`; that calls are possible, in spite of the limits, is part of
`Serves`.
-/
import Lua.Proofs.Border
import Lua.Proofs.MatchWalks
import Lua.Proofs.RelayedResumes

namespace Lua

variable {H : Host}

/-! ### Calls that change nothing -/

namespace World

open Machine

variable {B : Behaviour H} {w : World H} {f : Function} {args vs : List Value}

theorem leave_inCall (w : World H) : w.inCall.leaveCall w.current = w := by
  rw [inCall, leaveCall, enterNonYieldable, exitNonYieldable, modifyThread_modifyThread,
    modifyThread_eq_self rfl]
  rfl

theorem callRefusal_eq_none : w.callRefusal? = none ↔
    w.hostRefusal? = none ∧ w.inCall.nativeRefusal? w.current = none := by
  rw [callRefusal?]
  cases w.hostRefusal? with
  | none => exact (and_iff_right rfl).symm
  | some e => exact iff_of_false (Option.some_ne_none e) fun h => Option.some_ne_none e h.1

/-- A call of a native function that only answers: if the limits allow it, it changes nothing. -/
theorem call_of_done (hw : w.callRefusal? = none)
    (hf : B.enter w.inCall f args = .native (.done vs)) :
    w.Call B (.function f) args (.ok vs) w := by
  obtain ⟨hhost, hnative⟩ := callRefusal_eq_none.mp hw
  intro s o rest
  have hcall : step B ⟨w, s, .host o (.call (.function f) args rest)⟩ = _ :=
    step_call_of_no_refusal hhost s o rest
  rw [invoke_of_no_refusal rfl hf hnative] at hcall
  have hend : step B ⟨w.inCall.inNative w.current, w.callBoundary o rest :: s,
      .host (.native (w.inCall.nameOf f)) (.done vs)⟩
      = some ⟨w.inCall, w.callBoundary o rest :: s, .drive (.values vs)⟩ := by
    refine (step_ending (w.inCall.nameOf f) (.ok vs)).trans ?_
    rw [show driven (w.callBoundary o rest :: s) = w.current from rfl, leave_inNative]
    rfl
  have hframes : (w.inCall.thread w.current).frames = (w.thread w.current).frames :=
    keep_modifyThread (w := { w with hostDepth := w.hostDepth + 1 }) Thread.frames _
  have htop : Top w.current (w.thread w.current).frames.length (w.callBoundary o rest :: s) :=
    ⟨_, _, rfl, rfl, rfl⟩
  have hfall : step B ⟨w.inCall, w.callBoundary o rest :: s, .drive (.values vs)⟩
      = some ⟨w, s, .host o (rest (.ok vs))⟩ := by
    refine (htop.drive_falls (by rw [hframes]) (.values vs)).trans ?_
    show some (Machine.mk (w.inCall.leaveCall w.current) s (.host o (rest (.ok vs)))) = _
    rw [leave_inCall]
  have hne : w.callBoundary o rest :: s ≠ s := List.cons_ne_self _ _
  exact ⟨_, .later hcall hne (.later hend hne (.now hfall rfl))⟩

end World

namespace Library.Strings

open Pattern (percent)
open Regex (Engine Successive)

/-! ### Templates -/

/-- The templates for patterns with `n` captures: a percent sign stands before another one or
before the number of a capture.  The numbers 0 and 1 are those of the whole match if there are no
captures. -/
inductive Template (n : Nat) : Bytes → Prop
  | nil : Template n []
  | byte {b r} (hb : b ≠ percent) (rest : Template n r) : Template n (b :: r)
  | percent {r} (rest : Template n r) : Template n (percent :: percent :: r)
  | capture {d r} (hd : Ascii.isDigit d = true) (hmost : d.toNat - 0x30 ≤ max n 1)
      (hwhole : d.toNat - 0x30 = 0 → n = 0) (rest : Template n r) :
      Template n (percent :: d :: r)

/-- The text of a template for a row of captured strings: the first of them has the number 1, and
also the number 0. -/
def fill (row : List Bytes) : Bytes → Bytes
  | [] => []
  | [b] => [b]
  | b :: c :: r =>
    if b = percent then
      (if c = percent then [percent] else row.getD (c.toNat - 0x30 - 1) []) ++ fill row r
    else b :: fill row (c :: r)

/-- A text with each percent sign doubled. -/
def doubled (text : Bytes) : Bytes :=
  text.flatMap fun b => if b = percent then [percent, percent] else [b]

variable {n : Nat} {b d : UInt8} {r s text : Bytes} {m : Match} {row : List Bytes}
  {pieces : List ReplacementPiece}

theorem not_percent_of_isDigit (hd : Ascii.isDigit d = true) : d ≠ percent := by
  rintro rfl
  cases hd

theorem fill_byte (hb : b ≠ percent) (row : List Bytes) (r : Bytes) :
    fill row (b :: r) = b :: fill row r := by
  cases r with
  | nil => rfl
  | cons c r => rw [fill, if_neg hb]

theorem fill_percent (row : List Bytes) (r : Bytes) :
    fill row (percent :: percent :: r) = percent :: fill row r := rfl

theorem fill_capture (hd : Ascii.isDigit d = true) (row : List Bytes) (r : Bytes) :
    fill row (percent :: d :: r) = row.getD (d.toNat - 0x30 - 1) [] ++ fill row r := by
  rw [fill, if_pos rfl, if_neg (not_percent_of_isDigit hd)]

/-- Doubled percent signs make a template of any text. -/
theorem template_doubled (n : Nat) (text : Bytes) : Template n (doubled text) := by
  induction text with
  | nil => exact .nil
  | cons b text ih =>
    rw [doubled, List.flatMap_cons]
    split
    · exact .percent ih
    · exact .byte ‹_› ih

theorem fill_doubled (row : List Bytes) (text : Bytes) : fill row (doubled text) = text := by
  induction text with
  | nil => rfl
  | cons b text ih =>
    rw [doubled, List.flatMap_cons]
    split
    · rename_i hb
      exact (fill_percent row _).trans (congrArg₂ List.cons hb.symm ih)
    · rename_i hb
      exact (fill_byte hb row _).trans (congrArg (List.cons b) ih)

/-! ### Templates and their pieces -/

theorem parse_byte (hb : b ≠ percent) (h : Lua.Replacement.parse r = .ok pieces) :
    Lua.Replacement.parse (b :: r) = .ok (.literal [b] :: pieces) := by
  cases r with
  | nil =>
    cases h
    exact if_neg hb
  | cons c r =>
    rw [Lua.Replacement.parse, if_neg hb, h]
    rfl

theorem parse_percent (h : Lua.Replacement.parse r = .ok pieces) :
    Lua.Replacement.parse (percent :: percent :: r) = .ok (.literal [percent] :: pieces) := by
  rw [Lua.Replacement.parse, if_pos rfl, if_pos rfl, h]
  rfl

theorem parse_capture (hd : Ascii.isDigit d = true) (h : Lua.Replacement.parse r = .ok pieces) :
    Lua.Replacement.parse (percent :: d :: r) = .ok (.capture (d.toNat - 0x30) :: pieces) := by
  rw [Lua.Replacement.parse, if_pos rfl, if_neg (not_percent_of_isDigit hd), if_pos hd, h]
  rfl

theorem expand_cons {piece : ReplacementPiece} {t ts : Bytes}
    (hpiece : Lua.Replacement.expandPiece m s piece = .ok t)
    (h : Lua.Replacement.expand m s pieces = .ok ts) :
    Lua.Replacement.expand m s (piece :: pieces) = .ok (t ++ ts) := by
  rw [Lua.Replacement.expand] at h ⊢
  rw [List.mapM_cons, hpiece]
  cases hall : pieces.mapM (Lua.Replacement.expandPiece m s) with
  | error e =>
    rw [hall] at h
    cases h
  | ok all =>
    rw [hall] at h
    cases h
    rfl

/-- A match in which every group takes part, and as many as the pattern has parentheses. -/
def Complete (n : Nat) (m : Match) : Prop :=
  m.groups = m.captures.map some ∧ m.captures.length = n

/-- The captures that a template may ask for are those that a function is given. -/
theorem capture?_eq {k : Nat} (hm : Complete n m) (hmost : k ≤ max n 1) (hwhole : k = 0 → n = 0) :
    m.capture? s k = some ((m.strings s).getD (k - 1) []) := by
  obtain ⟨hpresent, rfl⟩ := hm
  rw [Match.capture?, hpresent, Match.strings]
  cases hcaptures : m.captures with
  | nil =>
    rw [hcaptures] at hmost
    have hk : k = 0 ∨ k = 1 := by
      rw [List.length_nil] at hmost
      omega
    rcases hk with rfl | rfl <;> rfl
  | cons a captures =>
    rw [hcaptures, List.length_cons] at hmost hwhole
    have hlt : k - 1 < (a :: captures).length := by
      rw [List.length_cons]
      omega
    have hne : ¬ (k = 0 ∨ k = 1 ∧ ((a :: captures).map some).isEmpty = true) := by
      rintro (rfl | ⟨-, hempty⟩)
      · omega
      · cases hempty
    have hsome : ¬ (a :: captures).isEmpty = true := Bool.false_ne_true
    rw [if_neg hne, if_neg hsome, List.getD_eq_getElem?_getD, List.getElem?_map, List.getElem?_map,
      List.getElem?_eq_getElem hlt]
    rfl

/-- **Templates.**  The template is accepted, and in a match with as many captures as the pattern
has, its pieces stand for the text that is made of the captured strings. -/
theorem Template.expand (h : Template n r) :
    ∃ pieces, Lua.Replacement.parse r = .ok pieces ∧ ∀ m s, Complete n m →
      Lua.Replacement.expand m s pieces = .ok (fill (m.strings s) r) := by
  induction h with
  | nil => exact ⟨[], rfl, fun m s _ => rfl⟩
  | @byte b r hb _ ih =>
    obtain ⟨pieces, hparse, hexpand⟩ := ih
    refine ⟨_, parse_byte hb hparse, fun m s hm => ?_⟩
    rw [fill_byte hb]
    exact expand_cons (t := [b]) rfl (hexpand m s hm)
  | @percent r _ ih =>
    obtain ⟨pieces, hparse, hexpand⟩ := ih
    refine ⟨_, parse_percent hparse, fun m s hm => ?_⟩
    rw [fill_percent]
    exact expand_cons (t := [Pattern.percent]) rfl (hexpand m s hm)
  | @capture d r hd hmost hwhole _ ih =>
    obtain ⟨pieces, hparse, hexpand⟩ := ih
    refine ⟨_, parse_capture hd hparse, fun m s hm => ?_⟩
    rw [fill_capture hd]
    refine expand_cons ?_ (hexpand m s hm)
    rw [Lua.Replacement.expandPiece, capture?_eq hm hmost hwhole]

/-! ### Replacements one after the other -/

section

variable {ε α β : Type} {f : α → Except ε β}

/-- The first failure is that of the whole. -/
theorem mapM_eq_error {before behind : List α} {a : α} {e : ε}
    (hbefore : ∀ a' ∈ before, ∃ b, f a' = .ok b) (ha : f a = .error e) :
    (before ++ a :: behind).mapM f = .error e := by
  induction before with
  | nil =>
    rw [List.nil_append, List.mapM_cons, ha]
    rfl
  | cons a' before ih =>
    obtain ⟨b, hb⟩ := hbefore a' (List.mem_cons_self ..)
    rw [List.cons_append, List.mapM_cons, hb,
      ih fun a₁ ha₁ => hbefore a₁ (List.mem_cons_of_mem _ ha₁)]
    rfl

end

variable {B : Behaviour H} {P : World H → Prop} {w : World H} {y : Replacement} {ms : List Match}
  {outcome : Match → Except Raised Bytes}

/-- If each replacement has an outcome, in any world with `P`, then all together have the outcome
of the first that fails, or their texts. -/
theorem exists_mapM_runs
    (h : ∀ m ∈ ms, ∀ w, P w → ∃ w', (replace y s m).Runs B w (outcome m) w' ∧ P w') (hw : P w) :
    ∃ w', Program.Runs B w (ms.mapM (replace y s)) (ms.mapM outcome) w' ∧ P w' := by
  induction ms generalizing w with
  | nil => exact ⟨w, .done, hw⟩
  | cons m ms ih =>
    obtain ⟨w₁, hfirst, hw₁⟩ := h m (List.mem_cons_self ..) w hw
    rw [List.mapM_cons, List.mapM_cons]
    cases houtcome : outcome m with
    | error e =>
      rw [houtcome] at hfirst
      exact ⟨w₁, hfirst.bind_error, hw₁⟩
    | ok text =>
      rw [houtcome] at hfirst
      obtain ⟨w', hrest, hw'⟩ := ih (fun m' hm' => h m' (List.mem_cons_of_mem _ hm')) hw₁
      refine ⟨w', hfirst.bind ?_, hw'⟩
      cases hall : ms.mapM outcome with
      | error e =>
        rw [hall] at hrest
        exact hrest.bind_error
      | ok texts =>
        rw [hall] at hrest
        exact hrest.bind .done

/-! ### Runs -/

/-- The results of a substitution: the matches have been replaced by texts. -/
def results (ms : List Match) (gaps : List Bytes) (tail : Bytes) (texts : List Bytes) :
    List Value :=
  [.string (weave gaps texts tail), .nat ms.length]

variable {engine : Engine} {source : Bytes} {most : Option Int64} {p : Pattern} {x : Regex}

/-- The arguments of a substitution, with a limit or without one. -/
def substituting (s source : Bytes) (most : Option Int64) (v : Value) : List Value :=
  [.string s, .string source, v] ++ (most.map Value.int).toList

theorem limit_substituting (s source : Bytes) (most : Option Int64) (v : Value) :
    argument? Int64 (substituting s source most v) 3 = .ok most := by
  cases most <;> rfl

/-- The matches `ms` cut the subject up, and if each replacement has an outcome, in worlds with some
property, so has the whole substitution. -/
structure Substitutes (B : Behaviour H) (engine : Engine) (s source : Bytes)
    (most : Option Int64) (ms : List Match) (gaps : List Bytes) (tail : Bytes) : Prop where
  cut : Cut s ms gaps tail
  runs : ∀ (v : Value) (y : Replacement) (outcome : Match → Except Raised Bytes)
    (P : World H → Prop) (w : World H),
    replacementArgument (substituting s source most v) = .ok y →
    (∀ m ∈ ms, ∀ w, P w → ∃ w', (replace y s m).Runs B w (outcome m) w' ∧ P w') → P w →
    ∃ w', (gsub engine (substituting s source most v)).Runs B w
      ((ms.mapM outcome).map (results ms gaps tail)) w' ∧ P w'

theorem mem_of_mem_selected {all : List Match} (h : m ∈ selected source most all) : m ∈ all := by
  have hlimited : ∀ {found : List Match}, m ∈ limited most found → m ∈ found := by
    intro found hfound
    cases most with
    | none => exact hfound
    | some n => exact List.mem_of_mem_take hfound
  rw [selected] at h
  split at h
  · exact List.mem_of_mem_take (hlimited h)
  · exact hlimited h

/-- The matches that are replaced. -/
theorem exists_substitutes (B : Behaviour H) (hfirst : engine.LeftmostFirst) (s : Bytes)
    (most : Option Int64) (hx : engine.compile source = .ok x) :
    ∃ p all ms gaps tail, Pattern.read source = .ok p ∧ Successive engine x s 0 none all ∧
      ms = selected source most all ∧
      (∀ m ∈ ms, Complete (p.items.count .openCapture) m) ∧
      Substitutes B engine s source most ms gaps tail := by
  obtain ⟨p, hread, haccepted⟩ := Pattern.exists_accepted hfirst hx
  obtain ⟨all, hall⟩ := Regex.exists_successive engine x s 0 none
  have horder : Regex.InOrder s 0 all := hall.inOrder (Nat.le_refl 0) (Nat.zero_le _)
  refine ⟨p, all, _, gapsFrom s 0 _, behindLast s 0 _, hread, hall, rfl, fun m hm => ?_,
    cut_inOrder (inOrder_selected source most horder), fun v y outcome P w hy h hw => ?_⟩
  · obtain ⟨offset, hfound⟩ := found_of_successive haccepted hall m (mem_of_mem_selected hm)
    exact hfound.present
  · obtain ⟨w', hruns, hw'⟩ := exists_mapM_runs h hw
    refine ⟨w', ?_, hw'⟩
    rw [gsub_eq rfl rfl hy (limit_substituting s source most v) hx hall, replacing, Nat.zero_add]
    cases hall : (selected source most all).mapM outcome with
    | error e =>
      rw [hall] at hruns
      exact hruns.bind_error
    | ok texts =>
      rw [hall] at hruns
      exact hruns.bind .done

/-- In worlds with `P`, a call of `f` with captured strings gives a certain value first, and leaves
such a world. -/
def Serves (B : Behaviour H) (P : World H → Prop) (f : Function) (answer : List Bytes → Value) :
    Prop :=
  ∀ w row, P w → row ≠ [] → ∃ vs w', w.Call B (.function f) (row.map .string) (.ok vs) w' ∧
    Values.first vs = answer row ∧ P w'

/-- What an answer makes of a match, as the outcome of a program. -/
def replacedOr (s : Bytes) (answer : List Bytes → Value) (m : Match) : Except Raised Bytes :=
  (answerText m s (answer (m.strings s))).mapError .cause

theorem replacedOr_string {answer : List Bytes → Value} (h : answer (m.strings s) = .string text) :
    replacedOr s answer m = .ok text := by
  rw [replacedOr, h]
  rfl

theorem runs_ofCause {α : Type} (c : Except Cause α) :
    (Program.ofCause c : Program H α).Runs B w (c.mapError .cause) w := by
  cases c with
  | ok a => exact .done
  | error c => exact .fail

/-- A function that answers replaces a match. -/
theorem Serves.replace {f : Function} {answer : List Bytes → Value} (h : Serves B P f answer)
    (hm : Complete n m) (hw : P w) :
    ∃ w', (replace (.function f) s m).Runs B w (replacedOr s answer m) w' ∧ P w' := by
  obtain ⟨vs, w', hcall, hfirst, hw'⟩ := h w (m.strings s) hw (m.strings_ne_nil s)
  refine ⟨w', ?_, hw'⟩
  rw [replace_function_eq, Match.values_eq hm.1]
  refine .call hcall ?_
  rw [replacedBy, hfirst]
  exact runs_ofCause _

/-- What a table without metatable has for the first captured string. -/
def entry (t : Table) (row : List Bytes) : Value := t.lookup (.string (row.headD []))

/-- A table replaces a match in the same way. -/
theorem table_replace {t : TableId} (hplain : (w.memory.heap.table t).metatable = none)
    (hm : Complete n m) : (replace (.table t) s m).Runs B w
      (replacedOr s (entry (w.memory.heap.table t)) m) w := by
  have hfirst : Values.first (m.values s) = .string ((m.strings s).headD []) := by
    rw [Match.values_eq hm.1]
    cases hrow : m.strings s with
    | nil => exact absurd hrow (m.strings_ne_nil s)
    | cons a row => rfl
  have hindex : w.memory.heap.index (.table t) (Values.first (m.values s)) =
      .ok (entry (w.memory.heap.table t) (m.strings s)) := by
    rw [Heap.index_table hplain, hfirst]
    exact if_pos (beq_self_eq_true _)
  have hreplace : (replace (.table t) s m : Program H Bytes) = .read fun w =>
      (Program.ofArgument (w.memory.heap.index (.table t) (Values.first (m.values s)))).bind
        fun v => Program.ofCause (answerText m s v) := rfl
  rw [hreplace]
  refine .read ?_
  rw [hindex]
  exact runs_ofCause _

/-- A template replaces a match by its text. -/
theorem template_replace {pieces : List ReplacementPiece}
    (h : Lua.Replacement.expand m s pieces = .ok text) :
    (replace (.template pieces) s m).Runs B w (.ok text) w := by
  rw [Strings.replace, h]
  exact .done

/-! ### The kinds of replacements -/

namespace Substitutes

variable {gaps : List Bytes} {tail : Bytes} {f : Function} {answer : List Bytes → Value}

/-- A substitution with a template that the pattern allows. -/
theorem template (h : Substitutes B engine s source most ms gaps tail)
    (hcaptures : ∀ m ∈ ms, Complete n m) (hr : Template n r) (w : World H) :
    (gsub engine (substituting s source most (.string r))).Runs B w
      (.ok (results ms gaps tail (ms.map fun m => fill (m.strings s) r))) w := by
  obtain ⟨pieces, hparse, hexpand⟩ := hr.expand
  have hy : replacementArgument (substituting s source most (.string r)) =
      .ok (.template pieces) := by
    show (do pure (.template (← Lua.Replacement.parse r)) : Except ArgumentError Replacement) = _
    rw [hparse]
    rfl
  have hreplace : ∀ m ∈ ms, ∀ w₁, w₁ = w → ∃ w', (replace (.template pieces) s m).Runs B w₁
      (.ok (fill (m.strings s) r)) w' ∧ w' = w :=
    fun m hm w₁ hw₁ => ⟨w₁, template_replace (hexpand m s (hcaptures m hm)), hw₁⟩
  obtain ⟨w', hruns, rfl⟩ := h.runs _ _ _ _ w hy hreplace rfl
  rwa [mapM_eq_ok fun m _ => rfl] at hruns

/-- A substitution with a function that answers. -/
theorem function (h : Substitutes B engine s source most ms gaps tail)
    (hcaptures : ∀ m ∈ ms, Complete n m) (hf : Serves B P f answer) (hw : P w) :
    ∃ w', (gsub engine (substituting s source most (.function f))).Runs B w
      ((ms.mapM (replacedOr s answer)).map (results ms gaps tail)) w' ∧ P w' :=
  h.runs (.function f) (.function f) _ P w rfl (fun m hm _ hw => hf.replace (hcaptures m hm) hw) hw

/-- A substitution with a table. -/
theorem table (h : Substitutes B engine s source most ms gaps tail)
    (hcaptures : ∀ m ∈ ms, Complete n m) {t : TableId}
    (hplain : (w.memory.heap.table t).metatable = none) :
    (gsub engine (substituting s source most (.table t))).Runs B w
      ((ms.mapM (replacedOr s (entry (w.memory.heap.table t)))).map (results ms gaps tail)) w := by
  have hreplace : ∀ m ∈ ms, ∀ w₁, w₁ = w → ∃ w', (replace (.table t) s m).Runs B w₁
      (replacedOr s (entry (w.memory.heap.table t)) m) w' ∧ w' = w := by
    rintro m hm _ rfl
    exact ⟨_, table_replace hplain (hcaptures m hm), rfl⟩
  obtain ⟨w', hruns, rfl⟩ := h.runs (.table t) (.table t) _ _ w rfl hreplace rfl
  exact hruns

end Substitutes

/-- If all answers can stand for a match, there are texts for all matches. -/
theorem mapM_replacedOr_ok {answer : List Bytes → Value}
    (h : ∀ m ∈ ms, Replaces (answer (m.strings s))) :
    ∃ text : Match → Bytes, (∀ m ∈ ms, answerText m s (answer (m.strings s)) = .ok (text m)) ∧
      ms.mapM (replacedOr s answer) = .ok (ms.map text) := by
  choose! text htext using fun m hm => answerText_of_replaces (s := s) (m := m) (h m hm)
  refine ⟨text, htext, mapM_eq_ok fun m hm => ?_⟩
  rw [replacedOr, htext m hm]
  rfl

/-- The first answer that can not is an error. -/
theorem mapM_replacedOr_error {answer : List Bytes → Value} {before behind : List Match}
    (hbefore : ∀ m' ∈ before, Replaces (answer (m'.strings s)))
    (hm : ¬ Replaces (answer (m.strings s))) :
    (before ++ m :: behind).mapM (replacedOr s answer) = .error (.cause
      (.ofText ("invalid replacement value (a " ++ (answer (m.strings s)).typeName ++ ")"))) := by
  refine mapM_eq_error (fun m' hm' => ?_) ?_
  · obtain ⟨text, htext⟩ := answerText_of_replaces (s := s) (m := m') (hbefore m' hm')
    refine ⟨text, ?_⟩
    rw [replacedOr, htext]
    rfl
  · rw [replacedOr, answerText_of_not hm]
    rfl

/-- A host whose native functions answer texts with a value. -/
def Host.answering : Host := ⟨List Bytes → Value, Empty, Empty, Empty, Empty, Unit⟩

/-- The text of an argument, if it is one. -/
def textOf? : Value → Option Bytes
  | .string s => some s
  | _ => none

def HostCode.answering : HostCode Host.answering where
  native answer args := .done [answer (args.filterMap textOf?)]
  start code := code.elim
  poll state := state.elim
  recover state := state.elim
  advance loop := loop.elim

variable {w : World Host.answering} {i : Nat} {name : String} {answer : List Bytes → Value}

/-- Such a function answers wherever calls are possible. -/
theorem serves_answering (hw : w.callRefusal? = none)
    (hf : w.functions[i]? = some (.native (.host name answer))) :
    Serves (.standard HostCode.answering) (· = w) (.created i) answer := by
  rintro w row rfl -
  have htexts : (row.map Value.string).filterMap textOf? = row := by
    rw [List.filterMap_map]
    exact List.filterMap_some
  have henter : (Behaviour.standard HostCode.answering).enter w.inCall (.created i)
      (row.map .string) = .native (.done [answer ((row.map Value.string).filterMap textOf?)]) := by
    have hfunctions : w.inCall.functions[i]? = some (.native (.host name answer)) := hf
    rw [Behaviour.enter, hfunctions]
    rfl
  rw [htexts] at henter
  exact ⟨_, _, World.call_of_done hw henter, rfl, rfl⟩

/-- The expression of the pattern `(%a)%d`: a letter in parentheses, and a digit. -/
def letterDigit : Regex := ⟨"(?s-u)([\\x41-\\x5A\\x61-\\x7A])[\\x30-\\x39]".toList⟩

/-- The matches of this pattern. -/
def lettersWithDigits : List Match := [⟨0, 2, [some (0, 1)]⟩, ⟨3, 5, [some (3, 4)]⟩]

/-- A table with an entry for the letter a, and one for the letter b that no match can be replaced
by. -/
def twoLetters : Table :=
  (Table.empty.setField "a" (.ofText "x")).setField "b" (.boolean true)

/-- The template `%1%%`: the letter and a percent sign. -/
def letterPercent : Bytes := Bytes.ofString "%1%%"

/-- A world with this table, and with functions for the template and for the table. -/
def lettersWorld : World Host.answering :=
  let w : World Host.answering := .initial {} ()
  let w : World Host.answering := { w with memory := (w.memory.allocate twoLetters).2 }
  let w := (w.define (.native (.host "fill" fun row => .string (fill row letterPercent)))).2
  (w.define (.native (.host "entry" (entry twoLetters)))).2

end Library.Strings

end Lua
