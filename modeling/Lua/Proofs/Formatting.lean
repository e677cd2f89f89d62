/-
Formats in two parts.

`format` puts the texts of its conversions between the literal bytes of its format string.  Each
conversion takes the next argument, and its text depends on nothing else:

* `convertArgument_runs_iff` — a conversion takes the argument at its index;
* `convertArgument_known`, `convertArgument_stays` — its letter is known, and it changes nothing;
* `Shown` — the text of a row of symbols for a row of values;
* `format_runs_iff` — the runs of `format` that succeed, by the symbols of the format string;
* `format_append` — the format of two format strings in a row, and of their arguments in a row.

Design notes: only `%s` may call a function, the `__tostring` of its argument.  So without such
metamethods the runs of `format` that succeed leave the world as it is.
-/
import Lua.Proofs.Execution
import Lua.Proofs.FormatSymbols

namespace Lua.Library.Strings

open Format (Known Spells Symbol conversionCount symbols)

variable {H : Host} {B : Behaviour H} {w w' : World H} {c : Conversion} {args : List Value}
  {i : Nat} {v : Value} {t : Bytes}

/-! ### The argument of a conversion -/

section

variable {α : Type}

/-- What is read succeeds only for an argument that is there, and depends on nothing else. -/
def ReadsOne (read : List Value → Nat → Except ArgumentError α) : Prop :=
  ∀ args i a, read args i = .ok a ↔ ∃ v, args[i]? = some v ∧ read [v] 0 = .ok a

theorem argument_eq_ok [FromValue α] {a : α} :
    argument α args i = .ok a ↔ FromValue.fromValue? (args.getD i .nil) = some a := by
  rw [argument]
  cases (FromValue.fromValue? (args.getD i .nil) : Option α) with
  | none => exact ⟨nofun, nofun⟩
  | some x => simp

theorem readsOne_argument [FromValue α] (hnil : (FromValue.fromValue? .nil : Option α) = none) :
    ReadsOne (argument α) := by
  intro args i a
  simp only [argument_eq_ok, List.getD_eq_getElem?_getD]
  cases hv : args[i]? with
  | none =>
    rw [Option.getD_none, hnil]
    exact ⟨nofun, nofun⟩
  | some v => exact ⟨fun h => ⟨v, rfl, h⟩, fun ⟨_, hv', h⟩ => Option.some.inj hv' ▸ h⟩

theorem anyArgument_eq_ok {a : Value} : anyArgument args i = .ok a ↔ args[i]? = some a := by
  rw [anyArgument]
  cases args[i]? with
  | none => exact ⟨nofun, nofun⟩
  | some x => simp

theorem readsOne_anyArgument : ReadsOne anyArgument := by
  intro args i a
  simp only [anyArgument_eq_ok]
  exact ⟨fun h => ⟨a, h, rfl⟩, fun ⟨_, hv, h⟩ => hv.trans h⟩

theorem integralArgument_eq_ok {n : Int64} : integralArgument args i = .ok n ↔
    ∃ x, argument Number args i = .ok x ∧ x.toInteger? = some n := by
  have heq : integralArgument args i = (argument Number args i).bind fun x =>
      x.toInteger?.elim
        (.error (.invalidArgument "number has no integer representation" "number" i)) .ok := by
    refine congrArg (Except.bind _) (funext fun x => ?_)
    cases x.toInteger? <;> rfl
  rw [heq]
  cases argument Number args i with
  | error e => simp [Except.bind]
  | ok x =>
    rw [Except.bind]
    cases hx : x.toInteger? with
    | none => simp [hx]
    | some m => simp [hx]

theorem readsOne_integralArgument : ReadsOne integralArgument := by
  intro args i n
  have hnumber := readsOne_argument (α := Number) rfl
  simp only [integralArgument_eq_ok]
  constructor
  · rintro ⟨x, hx, hn⟩
    obtain ⟨v, hv, hread⟩ := (hnumber args i x).mp hx
    exact ⟨v, hv, x, hread, hn⟩
  · rintro ⟨v, hv, x, hread, hn⟩
    exact ⟨x, (hnumber args i x).mpr ⟨v, hv, hread⟩, hn⟩

theorem ReadsOne.runs_iff {read : List Value → Nat → Except ArgumentError α} (h : ReadsOne read)
    {f : α → Program H Bytes} :
    ((liftM (read args i) : Program H α) >>= f).Runs B w (.ok t) w' ↔
      ∃ v, args[i]? = some v ∧
        ((liftM (read [v] 0) : Program H α) >>= f).Runs B w (.ok t) w' := by
  simp only [Program.runs_ofArgument_bind_iff]
  constructor
  · rintro ⟨a, ha, hf⟩
    obtain ⟨v, hv, hread⟩ := (h args i a).mp ha
    exact ⟨v, hv, a, hread, hf⟩
  · rintro ⟨v, hv, a, hread, hf⟩
    exact ⟨a, (h args i a).mpr ⟨v, hv, hread⟩, hf⟩

end

/-- **A conversion takes one argument**, and its text depends on nothing else. -/
theorem convertArgument_runs_iff : (convertArgument c args i).Runs B w (.ok t) w' ↔
    ∃ v, args[i]? = some v ∧ (convertArgument c [v] 0).Runs B w (.ok t) w' := by
  simp only [convertArgument]
  split
  · exact iff_of_false Program.not_runs_fail fun ⟨_, _, h⟩ => Program.not_runs_fail h
  · cases Strings.spec? c.letter with
    | none => exact iff_of_false Program.not_runs_fail fun ⟨_, _, h⟩ => Program.not_runs_fail h
    | some spec =>
      cases spec with
      | character => exact (readsOne_argument rfl).runs_iff
      | integer form => exact readsOne_integralArgument.runs_iff
      | float form upper => exact (readsOne_argument rfl).runs_iff
      | literal => exact readsOne_anyArgument.runs_iff
      | string => exact readsOne_anyArgument.runs_iff

theorem convertArgument_known (h : (convertArgument c args i).Runs B w (.ok t) w') :
    spec? c.letter ≠ none := by
  intro hnone
  rw [convertArgument] at h
  split at h
  · exact Program.not_runs_fail h
  · rw [hnone] at h
    exact Program.not_runs_fail h

/-- The value has no function that makes its text. -/
def Plain (w : World H) (v : Value) : Prop := w.memory.heap.metafield v "__tostring" = none

theorem textOf_stays {w : World H} (hv : Plain w v) (h : (textOf v).Runs B w (.ok t) w') :
    w' = w := by
  have h := Program.runs_read_iff.mp h
  simp only [Program.bind, show w.memory.heap.metafield v "__tostring" = none from hv] at h
  split at h
  all_goals exact (Program.runs_done_iff.mp h).2

/-- For a value without such a function, nothing changes. -/
theorem convertArgument_stays (hv : Plain w v)
    (h : (convertArgument c [v] 0).Runs B w (.ok t) w') : w' = w := by
  have hpure : ∀ {α : Type} {x : Except ArgumentError α} {f : α → Bytes},
      ((liftM x : Program H α) >>= fun a => pure (f a)).Runs B w (.ok t) w' → w' = w := by
    intro α x f hruns
    obtain ⟨a, -, hdone⟩ := Program.runs_ofArgument_bind_iff.mp hruns
    exact (Program.runs_done_iff.mp hdone).2
  rw [convertArgument] at h
  split at h
  · exact absurd h Program.not_runs_fail
  · cases hspec : spec? c.letter with
    | none =>
      rw [hspec] at h
      exact absurd h Program.not_runs_fail
    | some spec =>
      rw [hspec] at h
      cases spec with
      | character => exact hpure h
      | integer form => exact hpure h
      | float form upper => exact hpure h
      | literal =>
        obtain ⟨a, -, hquote⟩ := Program.runs_ofArgument_bind_iff.mp h
        cases hq : Format.quoteValue a with
        | error e =>
          rw [hq] at hquote
          exact absurd hquote Program.not_runs_fail
        | ok s =>
          rw [hq] at hquote
          exact (Program.runs_done_iff.mp hquote).2
      | string =>
        obtain ⟨a, ha, htext⟩ := Program.runs_ofArgument_bind_iff.mp h
        obtain rfl : v = a := Option.some.inj (anyArgument_eq_ok.mp ha)
        obtain ⟨s, w₁, hs, hdone⟩ := Program.runs_bind_ok_iff.mp htext
        rw [(Program.runs_done_iff.mp hdone).2, textOf_stays hv hs]

/-! ### Symbols and values -/

/-- The text of a row of symbols for a row of values: bytes stand for themselves, and each
conversion takes the next value. -/
inductive Shown (B : Behaviour H) (w : World H) : List Symbol → List Value → Bytes → Prop
  | nil {vs : List Value} : Shown B w [] vs []
  | byte {b : UInt8} {xs : List Symbol} {vs : List Value} {t : Bytes} (rest : Shown B w xs vs t) :
      Shown B w (.byte b :: xs) vs (b :: t)
  | conversion {c : Conversion} {v : Value} {s : Bytes} {xs : List Symbol} {vs : List Value}
      {t : Bytes} (h : (convertArgument c [v] 0).Runs B w (.ok s) w) (rest : Shown B w xs vs t) :
      Shown B w (.conversion c :: xs) (v :: vs) (s ++ t)

variable {xs xs₁ xs₂ : List Symbol} {vs a a₁ a₂ : List Value} {s t₁ t₂ : Bytes}
  {pieces : List FormatPiece}

theorem Shown.known (h : Shown B w xs vs t) : Known xs := by
  induction h with
  | nil => exact fun c hc => absurd hc List.not_mem_nil
  | byte _ ih =>
    intro c hc
    cases hc with
    | tail _ hc => exact ih c hc
  | conversion h _ ih =>
    intro c hc
    cases hc with
    | head => exact convertArgument_known h
    | tail _ hc => exact ih c hc

/-- Rows of symbols that take all their values are shown one after the other. -/
theorem Shown.append (h₁ : Shown B w xs₁ a₁ t₁) (hcount : a₁.length = xs₁.countP (·.isConversion))
    (h₂ : Shown B w xs₂ a₂ t₂) : Shown B w (xs₁ ++ xs₂) (a₁ ++ a₂) (t₁ ++ t₂) := by
  induction h₁ with
  | @nil vs =>
    obtain rfl : vs = [] := List.eq_nil_of_length_eq_zero hcount
    exact h₂
  | byte _ ih => exact .byte (ih hcount)
  | @conversion c v s xs vs t h _ ih =>
    rw [List.countP_cons_of_pos rfl] at hcount
    rw [List.append_assoc]
    exact .conversion h (ih (Nat.succ.inj hcount))

theorem shown_bytes_iff : Shown B w (s.map .byte ++ xs) vs t ↔
    ∃ t', t = s ++ t' ∧ Shown B w xs vs t' := by
  induction s generalizing t with
  | nil => exact ⟨fun h => ⟨t, rfl, h⟩, fun ⟨_, ht, h⟩ => ht ▸ h⟩
  | cons b s ih =>
    constructor
    · rintro (_ | h)
      obtain ⟨t', rfl, h'⟩ := ih.mp h
      exact ⟨t', rfl, h'⟩
    · rintro ⟨t', rfl, h'⟩
      exact .byte (ih.mpr ⟨t', rfl, h'⟩)

theorem shown_conversion_iff : Shown B w (.conversion c :: xs) (args.drop i) t ↔
    ∃ v s t', args[i]? = some v ∧ t = s ++ t' ∧ (convertArgument c [v] 0).Runs B w (.ok s) w ∧
      Shown B w xs (args.drop (i + 1)) t' := by
  constructor
  · intro h
    generalize hdrop : args.drop i = vs at h
    cases h with
    | @conversion c v s xs vs t' hv hrest =>
      have hget : args[i]? = some v := by
        rw [← List.head?_drop, hdrop]
        rfl
      have htail : args.drop (i + 1) = vs := by
        rw [← List.tail_drop, hdrop]
        rfl
      exact ⟨v, s, t', hget, rfl, hv, htail ▸ hrest⟩
  · rintro ⟨v, s, t', hget, rfl, hv, hrest⟩
    obtain ⟨hi, rfl⟩ := List.getElem?_eq_some_iff.mp hget
    rw [List.drop_eq_getElem_cons hi]
    exact .conversion hv hrest

/-- The runs of the pieces that succeed show their symbols. -/
theorem formatPieces_runs_iff (hplain : ∀ v ∈ args.drop i, Plain w v) :
    (formatPieces args i pieces).Runs B w (.ok t) w' ↔
      w' = w ∧ Shown B w (symbols pieces) (args.drop i) t := by
  -- the rest of the pieces is formatted in the world that the first one leaves, which is the same
  induction pieces generalizing i t w' with
  | nil =>
    constructor
    · intro h
      obtain ⟨ht, hw⟩ := Program.runs_done_iff.mp h
      cases ht
      exact ⟨hw, .nil⟩
    · rintro ⟨rfl, h⟩
      cases h
      exact .done
  | cons piece pieces ih =>
    cases piece with
    | literal s =>
      have hpieces : (formatPieces args i (.literal s :: pieces) : Program H Bytes) =
        (formatPieces args i pieces).bind fun t' => .done (s ++ t') := rfl
      rw [hpieces, Program.runs_bind_ok_iff]
      constructor
      · rintro ⟨t', w₁, ht', hdone⟩
        obtain ⟨rfl, hshown⟩ := (ih hplain).mp ht'
        obtain ⟨ht, rfl⟩ := Program.runs_done_iff.mp hdone
        cases ht
        exact ⟨rfl, shown_bytes_iff.mpr ⟨t', rfl, hshown⟩⟩
      · rintro ⟨rfl, h⟩
        obtain ⟨t', rfl, hshown⟩ := shown_bytes_iff.mp h
        exact ⟨t', _, (ih hplain).mpr ⟨rfl, hshown⟩, .done⟩
    | conversion c =>
      have hpieces : (formatPieces args i (.conversion c :: pieces) : Program H Bytes) =
        (convertArgument c args i).bind fun s =>
          (formatPieces args (i + 1) pieces).bind fun t' => .done (s ++ t') := rfl
      have hrest : ∀ v ∈ args.drop (i + 1), Plain w v := fun v hv =>
        hplain v (List.mem_of_mem_tail (List.tail_drop ▸ hv))
      rw [hpieces, Program.runs_bind_ok_iff]
      constructor
      · rintro ⟨s, w₁, hs, hpieces⟩
        obtain ⟨v, hget, hv⟩ := convertArgument_runs_iff.mp hs
        have hmem : v ∈ args.drop i := by
          rw [← List.head?_drop] at hget
          exact List.mem_of_mem_head? hget
        obtain rfl := convertArgument_stays (hplain v hmem) hv
        obtain ⟨t', w₂, ht', hdone⟩ := Program.runs_bind_ok_iff.mp hpieces
        obtain ⟨rfl, hshown⟩ := (ih hrest).mp ht'
        obtain ⟨ht, rfl⟩ := Program.runs_done_iff.mp hdone
        cases ht
        exact ⟨rfl, shown_conversion_iff.mpr ⟨v, s, t', hget, rfl, hv, hshown⟩⟩
      · rintro ⟨rfl, h⟩
        obtain ⟨v, s, t', hget, rfl, hv, hshown⟩ := shown_conversion_iff.mp h
        refine ⟨s, _, convertArgument_runs_iff.mpr ⟨v, hget, hv⟩, Program.runs_bind_ok_iff.mpr ?_⟩
        exact ⟨t', _, (ih hrest).mpr ⟨rfl, hshown⟩, .done⟩

/-! ### Formats -/

/-- The runs that succeed give the text of the symbols of the format string. -/
theorem format_runs_iff {f : Bytes} (hplain : ∀ v ∈ a, Plain w v) :
    (format (.string f :: a)).Runs B w (.ok vs) w' ↔ w' = w ∧ ∃ pieces t,
      Format.parse f = .ok pieces ∧ Shown B w (symbols pieces) a t ∧ vs = [.string t] := by
  have hformat : (format (.string f :: a) : Program H (List Value)) =
      (Program.ofArgument (Format.parse f)).bind fun pieces =>
        (formatPieces (.string f :: a) 1 pieces).bind fun t => .done [.string t] := rfl
  have hpieces : ∀ {pieces t w'}, (formatPieces (.string f :: a) 1 pieces).Runs B w (.ok t) w' ↔
      w' = w ∧ Shown B w (symbols pieces) a t := formatPieces_runs_iff hplain
  rw [hformat]
  cases Format.parse f with
  | error e =>
    constructor
    · intro h
      exact absurd h Program.not_runs_fail
    · rintro ⟨-, _, _, h, -⟩
      cases h
  | ok pieces =>
    show ((formatPieces (.string f :: a) 1 pieces).bind fun t => .done [.string t]).Runs B w
      (.ok vs) w' ↔ _
    constructor
    · intro h
      obtain ⟨t, w₁, ht, hdone⟩ := Program.runs_bind_ok_iff.mp h
      obtain ⟨rfl, hshown⟩ := hpieces.mp ht
      obtain ⟨hvs, rfl⟩ := Program.runs_done_iff.mp hdone
      exact ⟨rfl, pieces, t, rfl, hshown, Except.ok.inj hvs⟩
    · rintro ⟨rfl, _, t, ⟨⟩, hshown, rfl⟩
      exact (hpieces.mpr ⟨rfl, hshown⟩).bind .done

/-- **Formats in a row.**  Without metamethods for texts, let two formats succeed, the first of them
with exactly as many arguments as it has conversions.  Then the two format strings in a row, with
the arguments in a row, give the two texts in a row.  Each text is that of the symbols of its format
string, in which every conversion takes the next argument. -/
theorem format_append (host : HostCode H) {f₁ f₂ : Bytes} {vs₁ vs₂ : List Value} {w₁ w₂ : World H}
    (hplain : ∀ v ∈ a₁ ++ a₂, w.memory.heap.metafield v "__tostring" = none)
    (hcount : a₁.length = conversionCount f₁)
    (h₁ : ((Behaviour.standard host).builtin (.string .format) (.string f₁ :: a₁)).Runs
      (.standard host) w (.ok vs₁) w₁)
    (h₂ : ((Behaviour.standard host).builtin (.string .format) (.string f₂ :: a₂)).Runs
      (.standard host) w (.ok vs₂) w₂) :
    w₁ = w ∧ w₂ = w ∧ ∃ t₁ t₂ xs₁ xs₂, vs₁ = [.string t₁] ∧ vs₂ = [.string t₂] ∧
      ((Behaviour.standard host).builtin (.string .format) (.string (f₁ ++ f₂) :: (a₁ ++ a₂))).Runs
        (.standard host) w (.ok [.string (t₁ ++ t₂)]) w ∧
      Spells f₁ xs₁ ∧ Shown (.standard host) w xs₁ a₁ t₁ ∧
      Spells f₂ xs₂ ∧ Shown (.standard host) w xs₂ a₂ t₂ ∧
      Spells (f₁ ++ f₂) (xs₁ ++ xs₂) ∧
      Shown (.standard host) w (xs₁ ++ xs₂) (a₁ ++ a₂) (t₁ ++ t₂) := by
  have hplain₁ : ∀ v ∈ a₁, Plain w v := fun v hv => hplain v (List.mem_append_left _ hv)
  have hplain₂ : ∀ v ∈ a₂, Plain w v := fun v hv => hplain v (List.mem_append_right _ hv)
  obtain ⟨rfl, pieces₁, t₁, hparse₁, hshown₁, rfl⟩ := (format_runs_iff hplain₁).mp h₁
  obtain ⟨rfl, pieces₂, t₂, hparse₂, hshown₂, rfl⟩ := (format_runs_iff hplain₂).mp h₂
  have hspells₁ := (Format.parse_eq_ok.mp hparse₁).spells hshown₁.known
  have hspells₂ := (Format.parse_eq_ok.mp hparse₂).spells hshown₂.known
  rw [conversionCount, hparse₁] at hcount
  have hshown := hshown₁.append hcount hshown₂
  obtain ⟨pieces, hreads, hsymbols⟩ := (hspells₁.append hspells₂).exists_reads
  have hruns := (format_runs_iff hplain).mpr
    ⟨rfl, pieces, t₁ ++ t₂, Format.parse_eq_ok.mpr hreads, hsymbols ▸ hshown, rfl⟩
  exact ⟨rfl, rfl, t₁, t₂, _, _, rfl, rfl, hruns, hspells₁, hshown₁, hspells₂, hshown₂,
    hspells₁.append hspells₂, hshown⟩

/-- A number in a width of five with a bar behind it, and the literal of a text with a percent sign
behind it. -/
theorem format_append_number_literal :
    let format := fun args => Behaviour.bare.builtin (.string .format) args
    (∀ v ∈ [.int 42] ++ [.ofText "ab"], World.bare.memory.heap.metafield v "__tostring" = none) ∧
    [Value.int 42].length = conversionCount (Bytes.ofString "%5d|") ∧
    (format [.ofText "%5d|", .int 42]).Runs .bare .bare (.ok [.ofText "   42|"]) .bare ∧
    (format [.ofText "%q%%", .ofText "ab"]).Runs .bare .bare (.ok [.ofText "\"ab\"%"]) .bare ∧
    (format [.ofText "%5d|%q%%", .int 42, .ofText "ab"]).Runs .bare .bare
      (.ok [.ofText "   42|\"ab\"%"]) .bare := by
  intro format
  have hplain : ∀ v ∈ [.int 42] ++ [.ofText "ab"],
      World.bare.memory.heap.metafield v "__tostring" = none := by
    intro v hv
    obtain rfl | rfl := List.mem_pair.mp hv
    · rfl
    · rfl
  have hcount : [Value.int 42].length = conversionCount (Bytes.ofString "%5d|") := rfl
  have h₁ : (format [.ofText "%5d|", .int 42]).Runs .bare .bare (.ok [.ofText "   42|"]) .bare :=
    .done
  have h₂ : (format [.ofText "%q%%", .ofText "ab"]).Runs .bare .bare
      (.ok [.ofText "\"ab\"%"]) .bare := .done
  obtain ⟨-, -, t₁, t₂, xs₁, xs₂, ht₁, ht₂, h, -⟩ := format_append .bare hplain hcount h₁ h₂
  cases ht₁
  cases ht₂
  exact ⟨hplain, hcount, h₁, h₂, h⟩

end Lua.Library.Strings
