/-
Widths and precisions that are too large.

`format` takes widths and precisions up to 99.  What it does with a greater one depends on the
range of sizes, for the digits are converted before they are compared with that limit:

* `Refused` — conversions that are refused before their argument is read;
* `format_refused` — one behind conversions that succeed is an error, whatever follows it;
* `format_withoutDigits` — a precision out of the range of sizes counts as one without digits;
* `format_oversized` — so every width over the limit is refused, and every precision over the
  limit that is within the range;
* `oversized_precision_accepted` — and one beyond the range is not.
-/
import Lua.Proofs.ConversionTexts
import Lua.Proofs.Formatting

namespace Lua.Library.Strings

open Format (ConversionText Known Reads percent symbols)

variable {H : Host} {B : Behaviour H} {w w' w₁ : World H} {c : Conversion} {args : List Value}
  {i : Nat} {f u rest : Bytes} {pieces : List FormatPiece}

/-! ### The arguments of a format -/

/-- The arguments of the conversions are behind the format string. -/
theorem convertArgument_tail (c : Conversion) (x y : Value) (args : List Value) (i : Nat) :
    (convertArgument c (x :: args) (i + 1) : Program H Bytes) =
      convertArgument c (y :: args) (i + 1) := rfl

theorem formatPieces_tail (x y : Value) (args : List Value) (i : Nat)
    (pieces : List FormatPiece) : (formatPieces (x :: args) (i + 1) pieces : Program H Bytes) =
      formatPieces (y :: args) (i + 1) pieces := by
  induction pieces generalizing i with
  | nil => rfl
  | cons piece pieces ih =>
    cases piece with
    | literal s => simp only [formatPieces, ih]
    | conversion c => simp only [formatPieces, ih, convertArgument_tail c x y]

theorem format_eq (f : Bytes) (args : List Value) :
    (format (.string f :: args) : Program H (List Value)) =
      (Program.ofArgument (Format.parse f)).bind fun pieces =>
        (formatPieces (.string f :: args) 1 pieces).bind fun t => .done [.string t] := rfl

/-- All conversions of a format that succeeds have a letter that is known. -/
theorem formatPieces_known {t : Bytes} (h : (formatPieces args i pieces).Runs B w (.ok t) w') :
    Known (symbols pieces) := by
  induction pieces generalizing i t w w' with
  | nil => exact fun c hc => absurd hc List.not_mem_nil
  | cons piece pieces ih =>
    cases piece with
    | literal s =>
      obtain ⟨s', w₁, hs, -⟩ := Program.runs_bind_ok_iff.mp h
      intro c hc
      rcases List.mem_append.mp hc with hbyte | hrest
      · simp [Format.symbolsOf] at hbyte
      · exact ih hs c hrest
    | conversion c' =>
      obtain ⟨s, w₁, hs, hpieces⟩ := Program.runs_bind_ok_iff.mp h
      obtain ⟨s', w₂, hs', -⟩ := Program.runs_bind_ok_iff.mp hpieces
      intro c hc
      rcases List.mem_append.mp hc with hfirst | hrest
      · obtain rfl : c = c' := Format.Symbol.conversion.inj (List.mem_singleton.mp hfirst)
        exact convertArgument_known hs
      · exact ih hs' c hrest

/-- A format fails at the first conversion that fails, whatever its argument is. -/
theorem formatPieces_fails {t : Bytes} {e : Raised} {l : List FormatPiece}
    (h : (formatPieces args i pieces).Runs B w (.ok t) w₁)
    (hc : ∀ j, (convertArgument c args j : Program H Bytes) = .fail e) :
    (formatPieces args i (pieces ++ .conversion c :: l)).Runs B w (.error e) w₁ := by
  induction pieces generalizing i t w with
  | nil =>
    obtain ⟨-, rfl⟩ := Program.runs_done_iff.mp h
    refine Program.Runs.bind_error ?_
    rw [hc]
    exact .fail
  | cons piece pieces ih =>
    cases piece with
    | literal s =>
      obtain ⟨s', w₂, hs, hdone⟩ := Program.runs_bind_ok_iff.mp h
      obtain ⟨-, rfl⟩ := Program.runs_done_iff.mp hdone
      exact (ih hs).bind_error
    | conversion c' =>
      obtain ⟨s, w₂, hs, hrest⟩ := Program.runs_bind_ok_iff.mp h
      obtain ⟨s', w₃, hs', hdone⟩ := Program.runs_bind_ok_iff.mp hrest
      obtain ⟨-, rfl⟩ := Program.runs_done_iff.mp hdone
      exact hs.bind (ih hs').bind_error

/-! ### Refused conversions -/

/-- A conversion that has no text, whatever its argument is. -/
def Refused (c : Conversion) : Prop :=
  Format.limit < c.width.getD 0 ∨ Format.limit < c.precision.getD 0 ∨ spec? c.letter = none

theorem convertArgument_refused (h : Refused c) (args : List Value) (i : Nat) :
    (convertArgument c args i : Program H Bytes) =
      .fail (.cause (.argument (Format.invalidLetter c.letter))) := by
  rw [convertArgument]
  rcases h with hwidth | hprecision | hletter
  · rw [if_pos (.inl hwidth)]
    rfl
  · rw [if_pos (.inr hprecision)]
    rfl
  · split
    · rfl
    · rw [hletter]
      rfl

/-- An error for a conversion that is not valid, and nothing else. -/
def RaisesInvalid (B : Behaviour H) (w : World H) (p : Program H (List Value)) : Prop :=
  (∃ s w', p.Runs B w (.error (.cause (.argument (Format.invalid s)))) w') ∧
    ∀ vs w', ¬ p.Runs B w (.ok vs) w'

theorem raisesInvalid_of_runs {p : Program H (List Value)} {s : String}
    (h : p.Runs B w (.error (.cause (.argument (Format.invalid s)))) w') : RaisesInvalid B w p := by
  refine ⟨⟨s, w', h⟩, fun vs w'' hok => ?_⟩
  obtain ⟨heq, -⟩ := h.unique hok
  cases heq

/-- The pieces of a format that succeeds. -/
theorem exists_reads_of_format {vs : List Value}
    (h : (format (.string f :: args)).Runs B w (.ok vs) w₁) :
    ∃ pieces t, Reads f pieces ∧
      (formatPieces (.string f :: args) 1 pieces).Runs B w (.ok t) w₁ := by
  rw [format_eq] at h
  obtain ⟨pieces, w₂, hparse, hrest⟩ := Program.runs_bind_ok_iff.mp h
  obtain ⟨t, w₃, ht, hdone⟩ := Program.runs_bind_ok_iff.mp hrest
  obtain ⟨-, rfl⟩ := Program.runs_done_iff.mp hdone
  cases hf : Format.parse f with
  | error e =>
    rw [hf] at hparse
    exact absurd hparse Program.not_runs_fail
  | ok pieces' =>
    rw [hf] at hparse
    obtain ⟨heq, rfl⟩ := Program.runs_done_iff.mp hparse
    obtain rfl : pieces = pieces' := Except.ok.inj heq
    exact ⟨pieces, t, Format.parse_eq_ok.mp hf, ht⟩

/-- **A refused conversion** behind conversions that succeed is an error, whatever follows it. -/
theorem format_refused {vs : List Value}
    (hbefore : (format (.string f :: args)).Runs B w (.ok vs) w₁)
    (hhead : u.head? ≠ some percent) (hread : Format.readConversion? u = some (c, rest))
    (hc : Refused c) : RaisesInvalid B w (format (.string (f ++ percent :: u) :: args)) := by
  obtain ⟨pieces, t, hreads, hruns⟩ := exists_reads_of_format hbefore
  rw [formatPieces_tail _ (.string (f ++ percent :: u))] at hruns
  have hparse := Format.parse_append hreads (formatPieces_known hruns) u
  rw [format_eq, hparse, Format.parse_eq,
    Format.readAll_of_readPiece? (Format.readPiece?_of_readConversion? hhead hread)]
  split
  · -- the format string is read to its end, and the conversion fails in its turn
    have hfails := formatPieces_fails (l := (Format.readAll rest).1) hruns
      (convertArgument_refused hc _)
    exact raisesInvalid_of_runs hfails.bind_error
  · -- what follows the conversion is refused before any conversion is made
    exact raisesInvalid_of_runs .fail

/-! ### Rows of digits of any length -/

variable {t : ConversionText} {vs : List Value}

/-- A conversion with a width or a precision over the limit is refused. -/
theorem refused_text
    (h : 99 < t.widthNumber ∨ 99 < t.precisionNumber ∧ t.precisionNumber < 2 ^ 64) :
    Refused t.conversion := by
  rcases h with hwidth | ⟨hover, hrange⟩
  · exact .inl (t.conversion_width ▸ hwidth)
  · exact .inr (.inl (t.conversion_precision hrange ▸ hover))

/-- A precision out of the range of sizes counts as one without digits. -/
theorem format_withoutDigits
    (hbefore : (format (.string f :: args)).Runs B w (.ok vs) w₁)
    (hwidth : t.widthNumber < 2 ^ 64) (hprecision : 2 ^ 64 ≤ t.precisionNumber) (rest : Bytes) :
    (format (.string (f ++ percent :: t.followedBy rest) :: args) : Program H (List Value)) =
      format (.string (f ++ percent :: t.withoutDigits.followedBy rest) :: args) := by
  obtain ⟨pieces, text, hreads, hruns⟩ := exists_reads_of_format hbefore
  have hknown := formatPieces_known hruns
  have hparse : Format.parse (f ++ percent :: t.followedBy rest) =
      Format.parse (f ++ percent :: t.withoutDigits.followedBy rest) := by
    rw [Format.parse_append hreads hknown, Format.parse_append hreads hknown, Format.parse_eq,
      Format.parse_eq, Format.readAll_text t rest hwidth,
      Format.readAll_text t.withoutDigits rest hwidth, t.withoutDigits_conversion hprecision]
  rw [format_eq, format_eq, hparse]
  refine congrArg (Program.bind _) (funext fun ps => ?_)
  rw [formatPieces_tail]

/-- **Widths and precisions over the limit.**  Let the conversions in front succeed, and let a
conversion follow whose width or precision is over 99, with any number of digits.  Then the format
is refused, whatever the arguments and the rest of the format string are, if the width is over the
limit, or the precision is and lies within the range of sizes.  A precision beyond that range is
taken for one without digits. -/
theorem format_oversized (host : HostCode H) (t : ConversionText) (rest : Bytes)
    (hbefore : ((Behaviour.standard host).builtin (.string .format) (.string f :: args)).Runs
      (.standard host) w (.ok vs) w₁) :
    let format := fun f => (Behaviour.standard host).builtin (.string .format) (.string f :: args)
    (99 < t.widthNumber ∨ 99 < t.precisionNumber ∧ t.precisionNumber < 2 ^ 64 →
      (∃ s w', (format (f ++ percent :: t.followedBy rest)).Runs (.standard host) w
        (.error (.cause (.argument (Format.invalid s)))) w') ∧
      ∀ vs w', ¬ (format (f ++ percent :: t.followedBy rest)).Runs (.standard host) w (.ok vs) w') ∧
    (t.widthNumber ≤ 99 → 2 ^ 64 ≤ t.precisionNumber →
      format (f ++ percent :: t.followedBy rest) =
        format (f ++ percent :: t.withoutDigits.followedBy rest)) := by
  refine ⟨fun hover => ?_, fun hwidth hprecision => ?_⟩
  · rcases Nat.lt_or_ge t.widthNumber (2 ^ 64) with hrange | hwide
    · exact format_refused hbefore (t.followedBy_head rest) (t.readConversion?_text rest hrange)
        (refused_text hover)
    · -- the first digit of the width is no letter of a conversion
      obtain ⟨c, left, hread, hdigit⟩ := t.readConversion?_wide rest hwide
      have hletter : spec? c.letter = none := by
        by_contra hknown
        have hstops := (Format.stops_letter hknown).1.2.1
        exact absurd (hdigit.symm.trans hstops) (by decide)
      exact format_refused hbefore (t.followedBy_head rest) hread (.inr (.inr hletter))
  · exact format_withoutDigits hbefore (by omega) hprecision rest

/-- The digits of 2⁶⁴. -/
def beyondSizes : Bytes := Bytes.ofString "18446744073709551616"

/-- A width of 2⁶⁴, to be filled on the right. -/
def wideText : ConversionText where
  flags := Bytes.ofString "-"
  width := beyondSizes
  precision := none
  letter := Ascii.byte 's'
  flags_isFlag := by decide +kernel
  width_isDigit := by decide +kernel
  width_head := by decide
  precision_isDigit := nofun
  letter_known := by decide

/-- A precision of 2⁶⁴. -/
def longText : ConversionText where
  flags := []
  width := []
  precision := some beyondSizes
  letter := Ascii.byte 'd'
  flags_isFlag := nofun
  width_isDigit := nofun
  width_head := by decide
  precision_isDigit := by decide +kernel
  letter_known := by decide

/-- A width and a precision of 2⁶⁴ behind a number. -/
theorem format_oversized_behindNumber :
    let format := fun s => Behaviour.bare.builtin (.string .format) [.ofText s, .int 7, .int 5]
    (format "%d|").Runs .bare .bare (.ok [.ofText "7|"]) .bare ∧
      (∀ vs w', ¬ (format "%d|%-18446744073709551616s").Runs .bare .bare (.ok vs) w') ∧
      format "%d|%.18446744073709551616d!" = format "%d|%.d!" := by
  intro format
  have hbefore : (format "%d|").Runs .bare .bare (.ok [.ofText "7|"]) .bare := .done
  have hwide := (format_oversized .bare wideText [] hbefore).1 (.inl (by decide +kernel))
  have hlong := (format_oversized .bare longText (Bytes.ofString "!") hbefore).2
    (by decide +kernel) (by decide +kernel)
  exact ⟨hbefore, hwide.2, hlong⟩

/-- A precision of 2⁶⁴ is not refused. -/
theorem oversized_precision_accepted :
    99 < longText.precisionNumber ∧
      (Behaviour.bare.builtin (.string .format)
        [.ofText "%.18446744073709551616d", .int 5]).Runs .bare .bare (.ok [.ofText "5"]) .bare :=
  ⟨by decide +kernel, .done⟩

end Lua.Library.Strings
