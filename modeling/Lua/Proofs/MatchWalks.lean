/-
Walks over matches.

`gmatch` makes a function that gives the captures of one match whenever it is called; the place
that it has reached is kept in a cell.  `gsub` goes through all matches at once and may ask a
function what to put in their places.  Both find the same matches:

* `MatchWalk.Ahead` — the matches that are left to a walk;
* `MatchWalk.seek_eq`, `MatchWalk.Ahead.next` — a step of a walk comes to the first of them;
* `Gives` — what a function gives from now on, call by call;
* `gives_of_ahead` — a walk gives the matches that are left to it, and nothing behind them;
* `Passes`, `Asked` — a program that asks a function, once for each of some lists of values;
* `gmatch_gsub` — the two functions enumerate the same matches, and a start position is that of a
  suffix.

Design notes: between two calls of a walk anything may happen, so what a walk gives is stated for
all worlds in which its cell is as it was left.
-/
import Lua.Proofs.PatternMatch
import Lua.Proofs.Substitution

namespace Lua

open Regex (Engine Successive)

/-! ### One match after the other -/

/-- Behind the first match come the others. -/
theorem Regex.Successive.tail {engine : Engine} {x : Regex} {s : Bytes} {position : Nat}
    {last : Option Nat} {m : Match} {ms : List Match}
    (h : Successive engine x s position last (m :: ms)) :
    Successive engine x s m.stop (some m.stop) ms := by
  generalize hall : m :: ms = all at h
  induction h with
  | done _ => cases hall
  | found _ _ rest _ =>
    cases hall
    exact rest
  | passed _ _ _ ih => exact ih hall

namespace MatchWalk

variable {engine : Engine} {walk : MatchWalk} {position : Nat} {m : Match} {ms : List Match}

/-- The search goes on behind each match that is passed, up to the first one that is not. -/
theorem seek_eq (h : Successive engine walk.regex walk.subject position walk.lastEnd ms) :
    walk.seek engine position = ms.head? := by
  generalize hlast : walk.lastEnd = last at h
  have hin : ∀ {position m}, engine.findAt walk.regex walk.subject position = some m →
      position ≤ walk.subject.length := by
    intro position m hm
    have := Engine.findAt_bounds hm
    omega
  induction h with
  | done h =>
    rw [seek]
    split
    · split
      · rename_i hm
        cases h.symm.trans hm
      · rfl
    · rfl
  | found h hnew _ _ =>
    rw [seek, if_pos (hin h), hlast]
    split
    · rename_i m' hm
      obtain rfl := Option.some.inj (h.symm.trans hm)
      exact if_neg hnew
    · rename_i hm
      cases h.symm.trans hm
  | passed h hpassed _ ih =>
    rw [← ih hlast, seek, if_pos (hin h)]
    split
    · rename_i m' hm
      obtain rfl := Option.some.inj (h.symm.trans hm)
      exact if_pos (hlast ▸ hpassed)
    · rename_i hm
      cases h.symm.trans hm

/-- A walk through a subject, and the matches that are left to it. -/
structure Ahead (engine : Engine) (x : Regex) (s : Bytes) (walk : MatchWalk) (ms : List Match) :
    Prop where
  subject : walk.subject = s
  regex : walk.regex = x
  successive : Successive engine x s walk.position walk.lastEnd ms

/-- A walk goes on to the first of them, and stays behind the last. -/
theorem Ahead.next {x : Regex} {s : Bytes} (h : walk.Ahead engine x s ms) :
    (walk.next engine).1 = ms.head? ∧ (walk.next engine).2.Ahead engine x s ms.tail := by
  obtain ⟨rfl, rfl, hsuccessive⟩ := h
  rw [MatchWalk.next, seek_eq hsuccessive]
  cases ms with
  | nil => exact ⟨rfl, rfl, rfl, .done (Engine.findAt_beyond (Nat.lt_succ_self _))⟩
  | cons m ms => exact ⟨rfl, rfl, rfl, hsuccessive.tail⟩

end MatchWalk

namespace Library.Strings

variable {H : Host} {B : Behaviour H} {w w' : World H} {i n : Nat} {engine : Engine} {x : Regex}

/-! ### Functions that walk -/

/-- The function goes on with a walk. -/
def OnWalk (i : Nat) (w : World H) (walk : MatchWalk) : Prop :=
  ∃ cell, w.functions[i]? = some (.native (.walk cell)) ∧ w.memory.walks[cell]? = some walk

/-- The function is the same one, and if it goes on with a walk, that has not changed. -/
structure KeepsWalk (i : Nat) (w w' : World H) : Prop where
  function : w'.functions[i]? = w.functions[i]?
  walk : ∀ cell, w.functions[i]? = some (.native (.walk cell)) →
    w'.memory.walks[cell]? = w.memory.walks[cell]?

/-- The next `n` calls of a function give the rows one after the other, and nil when no row is
left.  Between the calls anything may happen but to its walk. -/
def Gives (B : Behaviour H) (i : Nat) : Nat → World H → List (List Value) → Prop
  | 0, _, _ => True
  | n + 1, w, rows => ∀ w₁ args, KeepsWalk i w w₁ → ∃ p w₂,
    B.enter w₁ (.created i) args = .native p ∧
    p.Runs B w₁ (.ok (rows.headD [.nil])) w₂ ∧ Gives B i n w₂ rows.tail

theorem KeepsWalk.onWalk {walk : MatchWalk} (h : KeepsWalk i w w') (hon : OnWalk i w walk) :
    OnWalk i w' walk := by
  obtain ⟨cell, hfunction, hwalk⟩ := hon
  exact ⟨cell, h.function.trans hfunction, (h.walk cell hfunction).trans hwalk⟩

/-- The world after a step of a walk. -/
def afterStep (engine : Engine) (w : World H) (cell : Nat) (walk : MatchWalk) : World H :=
  let walks := w.memory.walks.setIfInBounds cell (walk.next engine).2
  { w with memory := { w.memory with walks } }

theorem walkStep_runs {cell : Nat} {walk : MatchWalk} (h : w.memory.walks[cell]? = some walk) :
    (walkStep engine cell).Runs B w
      (.ok (((walk.next engine).1.map (·.values walk.subject)).getD [.nil]))
      (afterStep engine w cell walk) := by
  have hstep : (walkStep engine cell : Program H (List Value)) = .read fun w =>
      (w.memory.walks[cell]?).elim (.done [.nil]) fun walk =>
        .write (afterStep engine w cell walk).memory fun _ =>
          .done (((walk.next engine).1.map (·.values walk.subject)).getD [.nil]) := by
    refine congrArg Program.read (funext fun w => ?_)
    dsimp only [Program.bind]
    cases w.memory.walks[cell]? with
    | none => rfl
    | some walk =>
      refine congrArg (Program.write (afterStep engine w cell walk).memory) (funext fun _ => ?_)
      rw [MatchWalk.next]
      cases walk.seek engine walk.position <;> rfl
  rw [hstep]
  refine .read ?_
  rw [h]
  exact .write .done

/-- A walk gives the matches that are left to it. -/
theorem gives_of_ahead (host : HostCode H) {s : Bytes} {walk : MatchWalk} {ms : List Match}
    (hahead : walk.Ahead host.engine x s ms) (hon : OnWalk i w walk) (n : Nat) :
    Gives (.standard host) i n w (ms.map (·.values s)) := by
  induction n generalizing w walk ms with
  | zero => trivial
  | succ n ih =>
    intro w₁ args hkeeps
    obtain ⟨cell, hfunction, hwalk⟩ := hkeeps.onWalk hon
    obtain ⟨hfirst, hrest⟩ := hahead.next
    have hruns : (walkStep host.engine cell).Runs (.standard host) w₁ _ _ := walkStep_runs hwalk
    rw [hfirst, hahead.subject, ← List.head?_map, ← List.headD_eq_head?_getD] at hruns
    refine ⟨walkStep host.engine cell, _, ?_, hruns, ?_⟩
    · rw [Behaviour.enter, hfunction]
      rfl
    · -- the walk is put back into its cell
      rw [← List.map_tail]
      refine ih hrest ⟨cell, hfunction, ?_⟩
      have hcell : cell < w₁.memory.walks.size := (Array.getElem?_eq_some_iff.mp hwalk).1
      exact Array.getElem?_setIfInBounds_self_of_lt hcell

/-! ### Walks of `gmatch` -/

variable {args : List Value} {s source : Bytes} {init : Nat} {rows : List (List Value)}
  {ms : List Match}

/-- The function that `gmatch` makes of the arguments gives the rows and then nil, for any number
of calls. -/
def Enumerates (B : Behaviour H) (args : List Value) (rows : List (List Value)) : Prop :=
  ∀ w, ∃ i w', (B.builtin (.string .gmatch) args).Runs B w (.ok [.function (.created i)]) w' ∧
    ∀ n, Gives B i n w' rows

/-- `gmatch` makes a walk through the subject from a start position on. -/
theorem gmatch_runs (hargs : searchArguments args = .ok (s, source, init))
    (hx : engine.compile source = .ok x) (w : World H) :
    ∃ i w', (gmatch engine args).Runs B w (.ok [.function (.created i)]) w' ∧
      OnWalk i w' ⟨s, x, init - 1, none⟩ := by
  let walks := w.memory.walks.push ⟨s, x, init - 1, none⟩
  let w₁ : World H := { w with memory := { w.memory with walks } }
  let closure : Closure H := .native (.walk w.memory.walks.size)
  refine ⟨w.functions.size, (w₁.define closure).2, ?_, w.memory.walks.size, ?_, ?_⟩
  · have hgmatch : (gmatch engine args : Program H (List Value)) = .read fun w =>
        .write { w.memory with walks := w.memory.walks.push ⟨s, x, init - 1, none⟩ } fun _ =>
          .define (.native (.walk w.memory.walks.size)) fun f => .done [.function f] :=
      (Program.bind_of_ok hargs _).trans (Program.bind_of_ok hx _)
    rw [hgmatch]
    exact .read (.write (.define .done))
  · exact Array.getElem?_push_size
  · exact Array.getElem?_push_size

theorem enumerates_of_successive (host : HostCode H)
    (hargs : searchArguments args = .ok (s, source, init))
    (hx : host.engine.compile source = .ok x)
    (hms : Successive host.engine x s (init - 1) none ms) :
    Enumerates (.standard host) args (ms.map (·.values s)) := by
  intro w
  obtain ⟨i, w', hruns, hon⟩ := gmatch_runs (B := .standard host) hargs hx w
  exact ⟨i, w', hruns, gives_of_ahead host ⟨rfl, rfl, hms⟩ hon⟩

/-- With a start position, `gmatch` goes through the suffix from there on. -/
theorem exists_enumerates (host : HostCode H) {args' : List Value}
    (hargs : searchArguments args = .ok (s, source, init))
    (hargs' : searchArguments args' = .ok (s.drop (init - 1), source, 1))
    (hx : host.engine.compile source = .ok x) :
    ∃ rows, Enumerates (.standard host) args rows ∧
      (init ≤ s.length + 1 → Enumerates (.standard host) args' rows) ∧
      (s.length + 1 < init → rows = []) := by
  by_cases hin : init ≤ s.length + 1
  · -- the matches in the suffix, and at their places in the subject
    obtain ⟨ms, hms⟩ := Regex.exists_successive host.engine x (s.drop (init - 1)) 0 none
    have hrows : (ms.map (Match.shift (init - 1))).map (·.values s) =
        ms.map (·.values (s.drop (init - 1))) := by
      rw [List.map_map]
      exact List.map_congr_left fun m _ => Match.values_shift s (init - 1) m
    have hall : Successive host.engine x s (init - 1) none (ms.map (Match.shift (init - 1))) :=
      hms.drop (by omega)
    refine ⟨_, enumerates_of_successive host hargs hx hall, fun _ => ?_, by omega⟩
    rw [hrows]
    exact enumerates_of_successive host hargs' hx hms
  · have hnone : Successive host.engine x s (init - 1) none [] :=
      .done (Engine.findAt_beyond (by omega))
    exact ⟨[], enumerates_of_successive host hargs hx hnone, fun h => absurd h hin, fun _ => rfl⟩

/-! ### Functions asked by `gsub` -/

/-- A value that can stand for a match: nil and false keep it, and a text replaces it. -/
inductive Replaces : Value → Prop
  | nil : Replaces .nil
  | false : Replaces (.boolean false)
  | string (s : Bytes) : Replaces (.string s)
  | number (n : Number) : Replaces (.number n)

variable {α : Type} {f : Function} {Q : α → Prop}

/-- The program passes the rows to a function, one after the other, and does nothing else.  It goes
on if the function's answer can stand for a match, and fails if not.  When no row is left, it is
done with a result for which `Q` holds. -/
inductive Passes (f : Function) (Q : α → Prop) : List (List Value) → Program H α → Prop
  | done {a : α} (h : Q a) : Passes f Q [] (.done a)
  | call {row : List Value} {rows : List (List Value)}
      {rest : Except TracedError (List Value) → Program H α}
      (goes : ∀ vs, Replaces (Values.first vs) → Passes f Q rows (rest (.ok vs)))
      (refuses : ∀ vs, ¬ Replaces (Values.first vs) → ∃ e, rest (.ok vs) = .fail e)
      (fails : ∀ e, ∃ e', rest (.error e) = .fail e') :
      Passes f Q (row :: rows) (.call (.function f) row rest)

/-- The function is called with the rows, one after the other, and its answers can stand for
matches. -/
inductive Asked (B : Behaviour H) (f : Function) : World H → List (List Value) → World H → Prop
  | nil {w : World H} : Asked B f w [] w
  | cons {w w₁ w' : World H} {row vs : List Value} {rows : List (List Value)}
      (h : w.Call B (.function f) row (.ok vs) w₁)
      (hvs : Replaces (Values.first vs)) (rest : Asked B f w₁ rows w') :
      Asked B f w (row :: rows) w'

variable {q : Program H α} {a : α}

/-- The runs that succeed are those in which the function has answered every row. -/
theorem Passes.asked (h : Passes f Q rows q) (hruns : q.Runs B w (.ok a) w') :
    Q a ∧ Asked B f w rows w' := by
  induction h generalizing w with
  | done h =>
    obtain ⟨hresult, rfl⟩ := Program.runs_done_iff.mp hruns
    cases hresult
    exact ⟨h, .nil⟩
  | @call row rows rest _ refuses fails ih =>
    -- a run that succeeds has gone on behind the call
    obtain ⟨answer, w₁, hcall, hrest⟩ := Program.runs_call_iff.mp hruns
    cases answer with
    | error e =>
      obtain ⟨e', hfail⟩ := fails e
      rw [hfail] at hrest
      exact absurd hrest Program.not_runs_fail
    | ok vs =>
      by_cases hvs : Replaces (Values.first vs)
      · obtain ⟨hresult, hasked⟩ := ih vs hvs hrest
        exact ⟨hresult, .cons hcall hvs hasked⟩
      · obtain ⟨e', hfail⟩ := refuses vs hvs
        rw [hfail] at hrest
        exact absurd hrest Program.not_runs_fail

theorem Passes.runs (h : Passes f Q rows q) (hasked : Asked B f w rows w') :
    ∃ a, Q a ∧ q.Runs B w (.ok a) w' := by
  induction h generalizing w with
  | done h =>
    cases hasked
    exact ⟨_, h, .done⟩
  | call _ _ _ ih =>
    cases hasked with
    | cons hcall hvs hasked =>
      obtain ⟨a, hresult, hruns⟩ := ih _ hvs hasked
      exact ⟨a, hresult, .call hcall hruns⟩

/-- What becomes of an answer. -/
theorem answerText_of_replaces {m : Match} {v : Value} (h : Replaces v) :
    ∃ text, answerText m s v = .ok text := by
  cases h <;> exact ⟨_, rfl⟩

theorem answerText_of_not {m : Match} {v : Value} (h : ¬ Replaces v) : answerText m s v =
    .error (.ofText ("invalid replacement value (a " ++ v.typeName ++ ")")) := by
  cases v with
  | nil => exact absurd .nil h
  | boolean b =>
    cases b with
    | false => exact absurd .false h
    | true => rfl
  | string s => exact absurd (.string s) h
  | number n => exact absurd (.number n) h
  | _ => rfl

/-- What a replacement makes of the answer of a function. -/
def replacedBy (s : Bytes) (m : Match) : Except TracedError (List Value) → Program H Bytes
  | .ok vs => Program.ofCause (answerText m s (Values.first vs))
  | .error e => .fail (.traced e)

theorem replace_function_eq (s : Bytes) (m : Match) :
    (replace (.function f) s m : Program H Bytes) =
      .call (.function f) (m.values s) (replacedBy s m) := by
  refine congrArg (Program.call _ _) (funext fun answer => ?_)
  cases answer <;> rfl

/-- Replacing a match by the answer of a function passes the captures to it. -/
theorem Passes.of_replace {m : Match} {rest : Bytes → Program H α}
    (h : ∀ text, Passes f Q rows (rest text)) :
    Passes f Q (m.values s :: rows) ((replace (.function f) s m).bind rest) := by
  rw [replace_function_eq]
  refine .call (fun vs hvs => ?_) (fun vs hvs => ?_) fun e => ⟨_, rfl⟩
  · obtain ⟨text, htext⟩ := answerText_of_replaces (s := s) (m := m) hvs
    rw [replacedBy, htext]
    exact h text
  · rw [replacedBy, answerText_of_not hvs]
    exact ⟨_, rfl⟩

theorem passes_mapM {k : List Bytes → Program H α} (hk : ∀ ts, ∃ a, k ts = .done a ∧ Q a) :
    Passes f Q (ms.map (·.values s)) ((ms.mapM (replace (.function f) s)).bind k) := by
  induction ms generalizing k with
  | nil =>
    obtain ⟨a, hdone, ha⟩ := hk []
    show Passes f Q [] (k [])
    rw [hdone]
    exact .done ha
  | cons m ms ih =>
    have hall : ((m :: ms).mapM (replace (.function f) s) : Program H (List Bytes)) =
        (replace (.function f) s m).bind fun t =>
          (ms.mapM (replace (.function f) s)).bind fun ts => .done (t :: ts) := List.mapM_cons
    rw [hall, Program.bind_assoc]
    refine .of_replace fun t => ?_
    rw [Program.bind_assoc]
    exact ih fun ts => hk (t :: ts)

/-! ### The same matches -/

/-- The results of `gsub` with a number of matches. -/
def Counted (count : Nat) (vs : List Value) : Prop := ∃ out, vs = [.string out, .nat count]

/-- The arguments of `gsub` with a function, and without a limit. -/
structure FunctionArguments (args : List Value) (s source : Bytes) (f : Function) : Prop where
  subject_eq : argument Bytes args 0 = .ok s
  source_eq : argument Bytes args 1 = .ok source
  function_eq : replacementArgument args = .ok (.function f)
  limit_eq : argument? Int64 args 3 = .ok none

/-- `gsub` passes the captures of all matches to the function. -/
theorem passes_gsub (hargs : FunctionArguments args s source f)
    (hx : engine.compile source = .ok x) (hms : Successive engine x s 0 none ms)
    (hcaret : source.head? ≠ some (Ascii.byte '^')) :
    Passes f (Counted ms.length) (ms.map (·.values s))
      (gsub engine args : Program H (List Value)) := by
  have hall : selected source none ms = ms := if_neg hcaret
  rw [gsub_eq hargs.subject_eq hargs.source_eq hargs.function_eq hargs.limit_eq hx hms, hall]
  refine passes_mapM fun ts => ⟨_, rfl, ?_⟩
  rw [Nat.zero_add]
  exact ⟨_, rfl⟩

/-- What a match of a pattern gives begins with a string. -/
theorem values_eq_cons_of_found {p : Pattern} {m : Match} {offset : Nat}
    (h : Pattern.Found p s offset m) : ∃ text vs, m.values s = .string text :: vs := by
  rw [Match.values_eq h.present.1]
  cases hstrings : m.strings s with
  | nil => exact absurd hstrings (m.strings_ne_nil s)
  | cons text texts => exact ⟨text, _, rfl⟩

/-- The matches of a pattern. -/
theorem found_of_successive {p : Pattern} (haccepted : Pattern.Accepted engine p x)
    {position : Nat} {last : Option Nat} (h : Successive engine x s position last ms) :
    ∀ m ∈ ms, ∃ offset, Pattern.Found p s offset m := by
  induction h with
  | done _ => exact fun m hm => absurd hm List.not_mem_nil
  | found h _ _ ih => exact List.forall_mem_cons.mpr ⟨⟨_, haccepted.found h⟩, ih⟩
  | passed _ _ _ ih => exact ih

/-- **`gmatch` and `gsub` enumerate the same matches.**  For a pattern that does not begin with a
caret, the function that `gmatch` makes gives, call by call, the rows that `gsub` passes to a
function, and nil from then on; no row begins with nil if the engine is leftmost-first.  The runs
of `gsub` that succeed are those in which the function has answered all rows, and their number is a
result.  The matches do not overlap, they end further and further on, and there is at most one more
of them than the subject has bytes.  With a start position, `gmatch` gives what it gives for the
suffix from there on, and nothing beyond the end. -/
theorem gmatch_gsub (host : HostCode H) (s : Bytes) (hx : host.engine.compile source = .ok x)
    (hcaret : source.head? ≠ some (Ascii.byte '^')) :
    let B := Behaviour.standard host
    (∃ ms rows, Successive host.engine x s 0 none ms ∧ rows = ms.map (·.values s) ∧
      ms.length ≤ s.length + 1 ∧ ms.Pairwise Regex.Apart ∧
      (host.engine.LeftmostFirst → ∀ row ∈ rows, ∃ text vs, row = .string text :: vs) ∧
      (∀ args, searchArguments args = .ok (s, source, 1) → Enumerates B args rows) ∧
      ∀ args f, FunctionArguments args s source f →
        let substituting := B.builtin (.string .gsub) args
        Passes f (Counted rows.length) rows substituting ∧
        (∀ w vs w', substituting.Runs B w (.ok vs) w' →
          Counted rows.length vs ∧ Asked B f w rows w') ∧
        ∀ w w', Asked B f w rows w' →
          ∃ vs, Counted rows.length vs ∧ substituting.Runs B w (.ok vs) w') ∧
    ∀ args args' init, searchArguments args = .ok (s, source, init) →
      searchArguments args' = .ok (s.drop (init - 1), source, 1) →
      ∃ rows, Enumerates B args rows ∧ (init ≤ s.length + 1 → Enumerates B args' rows) ∧
        (s.length + 1 < init → rows = []) := by
  intro B
  refine ⟨?_, fun args args' init hargs hargs' => exists_enumerates host hargs hargs' hx⟩
  obtain ⟨ms, hms⟩ := Regex.exists_successive host.engine x s 0 none
  have hlength := hms.length_le (Nat.zero_le _)
  refine ⟨ms, _, hms, rfl, hlength, hms.apart, fun hfirst row hrow => ?_,
    fun args hargs => enumerates_of_successive host hargs hx hms, fun args f hargs => ?_⟩
  · obtain ⟨m, hm, rfl⟩ := List.mem_map.mp hrow
    obtain ⟨p, -, haccepted⟩ := Pattern.exists_accepted hfirst hx
    obtain ⟨offset, hfound⟩ := found_of_successive haccepted hms m hm
    exact values_eq_cons_of_found hfound
  · have hpasses : Passes f (Counted ms.length) (ms.map (·.values s)) (gsub host.engine args) :=
      passes_gsub (H := H) hargs hx hms hcaret
    rw [List.length_map]
    exact ⟨hpasses, fun w vs w' => hpasses.asked, fun w w' => hpasses.runs⟩

/-- The function that gives texts in capitals. -/
def capitals : Function := .builtin (.string .upper)

/-- The walk for `b*` through `abc` gives an empty text, a letter and an empty text; `gsub` passes
the same to a function; in the suffix `c` there are two empty texts, and nothing behind the end. -/
theorem gmatch_gsub_rowsOfB :
    let subject := Value.ofText "abc"
    let pattern := Value.ofText "b*"
    let rows := [[Value.ofText ""], [Value.ofText "b"], [Value.ofText ""]]
    Enumerates .bare [subject, pattern] rows ∧
    (∃ out, (Behaviour.bare.builtin (.string .gsub) [subject, pattern, .function capitals]).Runs
      .bare .bare (.ok [.string out, .nat 3]) .bare) ∧
    (∃ rows', Enumerates .bare [subject, pattern, .nat 3] rows' ∧
      Enumerates .bare [Value.ofText "c", pattern] rows') ∧
    Enumerates .bare [subject, pattern, .nat 5] [] := by
  intro subject pattern rows
  obtain ⟨⟨ms, rows', hms, rfl, -, -, -, henumerates, hgsub⟩, hsuffix⟩ :=
    gmatch_gsub .bare (Bytes.ofString "abc") compile_rowsOfB nofun
  obtain rfl := hms.unique successive_rowsOfB
  refine ⟨henumerates [subject, pattern] rfl, ?_, ?_, ?_⟩
  · obtain ⟨-, -, hruns⟩ := hgsub [subject, pattern, .function capitals] capitals
      ⟨rfl, rfl, rfl, rfl⟩
    obtain ⟨vs, ⟨out, rfl⟩, hruns⟩ := hruns .bare .bare <|
      .cons (Machine.call_of_isAnswered 3 rfl rfl) (.string []) <|
      .cons (Machine.call_of_isAnswered 3 rfl rfl) (.string (Bytes.ofString "B")) <|
      .cons (Machine.call_of_isAnswered 3 rfl rfl) (.string []) .nil
    exact ⟨out, hruns⟩
  · obtain ⟨rows', hrows, hsame, -⟩ := hsuffix [subject, pattern, .nat 3]
      [Value.ofText "c", pattern] 3 rfl rfl
    exact ⟨rows', hrows, hsame (by decide)⟩
  · obtain ⟨rows', hrows, -, hnone⟩ := hsuffix [subject, pattern, .nat 5]
      [Value.ofText "", pattern] 5 rfl rfl
    obtain rfl := hnone (by decide)
    exact hrows

end Library.Strings

end Lua
