/-
The texts of conversions.

A conversion is written as flags, the digits of a width, a point with the digits of a precision,
and a letter, behind a percent sign.  This module reads such texts back, with rows of digits of any
length:

* `size?_eq` — what a row of digits counts for, if that is within the range of sizes;
* `ConversionText` — the parts of such a text, and the conversion they stand for;
* `readConversion?_text` — a conversion is read from its text, whatever follows it;
* `readConversion?_wide` — unless the width is out of range: its first digit is the letter then;
* `parse_append` — a format string that is read to its end, with another one behind it.

Design notes: a zero in front of a width is a flag, so a width begins with another digit.  What is
read behind a format string that ends in a conversion depends on nothing in front, for a letter
that is known ends the conversion.
-/
import Lua.Proofs.FormatSymbols
import Mathlib.Data.List.Induction
import Mathlib.Data.Nat.Digits.Defs

namespace Lua.Format

/-! ### Rows of digits -/

/-- The number that a row of decimal digits denotes. -/
def rowNumber (ds : Bytes) : Nat := Nat.ofDigits 10 (ds.reverse.map fun d => d.toNat - 0x30)

theorem foldl_digits (ds : Bytes) :
    ds.foldl (fun n d => n * 10 + (d.toNat - 0x30)) 0 = rowNumber ds := by
  induction ds using List.reverseRecOn with
  | nil => rfl
  | append_singleton ds d ih =>
    rw [List.foldl_append, ih]
    simp [rowNumber, Nat.ofDigits_cons]
    omega

theorem size?_eq (ds : Bytes) :
    size? ds = if rowNumber ds < 2 ^ 64 then some (rowNumber ds) else none := by
  simp only [size?, foldl_digits]
  rfl

section

variable {α : Type} {p : α → Bool} {xs ys : List α}

/-- A row ends where an element of another kind begins. -/
theorem takeWhile_row (hxs : ∀ x ∈ xs, p x = true) (hys : ∀ y ∈ ys.head?, p y = false) :
    (xs ++ ys).takeWhile p = xs := by
  rw [List.takeWhile_append_of_pos hxs]
  cases ys with
  | nil => simp
  | cons y ys => simp [hys y rfl]

theorem dropWhile_row (hxs : ∀ x ∈ xs, p x = true) (hys : ∀ y ∈ ys.head?, p y = false) :
    (xs ++ ys).dropWhile p = ys := by
  rw [List.dropWhile_append_of_pos hxs]
  cases ys with
  | nil => rfl
  | cons y ys => simp [hys y rfl]

end

/-! ### The parts of a conversion -/

/-- How a conversion is written behind its percent sign. -/
structure ConversionText where
  flags : Bytes
  width : Bytes
  precision : Option Bytes
  letter : UInt8
  flags_isFlag : ∀ b ∈ flags, isFlag b = true
  width_isDigit : ∀ b ∈ width, Ascii.isDigit b = true
  /-- A zero in front is a flag. -/
  width_head : width.head? ≠ some (Ascii.byte '0')
  precision_isDigit : ∀ ds ∈ precision, ∀ b ∈ ds, Ascii.isDigit b = true
  letter_known : Library.Strings.spec? letter ≠ none

namespace ConversionText

variable (t : ConversionText)

/-- The text from the precision on, and what follows the letter. -/
def behindWidth (rest : Bytes) : Bytes :=
  t.precision.elim [] (Ascii.byte '.' :: ·) ++ t.letter :: rest

/-- The text, and what follows it. -/
def followedBy (rest : Bytes) : Bytes := t.flags ++ (t.width ++ t.behindWidth rest)

/-- The number that the width denotes; one that is not written counts as 0. -/
def widthNumber : Nat := rowNumber t.width

/-- The number that the precision denotes; one that is not written counts as 0. -/
def precisionNumber : Nat := rowNumber (t.precision.getD [])

/-- The conversion that the text stands for.  A precision out of range counts as 0. -/
def conversion : Conversion where
  flags := flagsOf t.flags
  width := if t.width.isEmpty then none else some t.widthNumber
  precision := t.precision.map fun ds => if rowNumber ds < 2 ^ 64 then rowNumber ds else 0
  letter := t.letter

/-- A width that is not written is the width 0. -/
theorem conversion_width : t.conversion.width.getD 0 = t.widthNumber := by
  by_cases hw : t.width = []
  · rw [conversion, widthNumber, hw]
    rfl
  · simp [conversion, hw]

/-- A precision within the range of sizes is taken as it is. -/
theorem conversion_precision (h : t.precisionNumber < 2 ^ 64) :
    t.conversion.precision.getD 0 = t.precisionNumber := by
  rw [precisionNumber] at h ⊢
  rw [conversion]
  cases hp : t.precision with
  | none => rfl
  | some ds =>
    rw [hp, Option.getD_some] at h
    simp only [Option.map_some, Option.getD_some, if_pos h]

theorem letter_stops : Stops t.letter := (stops_letter t.letter_known).1

theorem behindWidth_head (rest : Bytes) {b : UInt8} (hb : b ∈ (t.behindWidth rest).head?) :
    b = Ascii.byte '.' ∨ b = t.letter := by
  rw [behindWidth] at hb
  cases hp : t.precision with
  | none =>
    rw [hp] at hb
    exact .inr (Option.some.inj hb).symm
  | some ds =>
    rw [hp] at hb
    exact .inl (Option.some.inj hb).symm

theorem behindWidth_not_digit (rest : Bytes) :
    ∀ b ∈ (t.behindWidth rest).head?, Ascii.isDigit b = false := by
  intro b hb
  rcases t.behindWidth_head rest hb with rfl | rfl
  · decide
  · exact t.letter_stops.2.1

theorem isFlag_of_isDigit {b : UInt8} (hb : Ascii.isDigit b = true) (h0 : b ≠ Ascii.byte '0') :
    isFlag b = false := by
  have hflags : "-+ #0".toList = ['-', '+', ' ', '#', '0'] := rfl
  rw [isFlag, hflags]
  simp only [List.any_cons, List.any_nil, Bool.or_false, Bool.or_eq_false_iff, beq_eq_false_iff_ne]
  -- the last flag is the zero, and the others are no digits
  refine ⟨?_, ?_, ?_, ?_, h0.symm⟩
  all_goals
    rintro rfl
    exact absurd hb (by decide)

theorem behindFlags_not_flag (rest : Bytes) :
    ∀ b ∈ (t.width ++ t.behindWidth rest).head?, isFlag b = false := by
  intro b hb
  cases hw : t.width with
  | nil =>
    rw [hw, List.nil_append] at hb
    rcases t.behindWidth_head rest hb with rfl | rfl
    · decide
    · exact t.letter_stops.1
  | cons d ds =>
    rw [hw, List.cons_append] at hb
    obtain rfl : d = b := Option.some.inj hb
    have hdigit := t.width_isDigit d (by simp [hw])
    have hzero := t.width_head
    rw [hw] at hzero
    exact isFlag_of_isDigit hdigit fun h => hzero (congrArg some h)

/-! ### Reading the parts -/

theorem flags_read (rest : Bytes) : (t.followedBy rest).takeWhile isFlag = t.flags :=
  takeWhile_row t.flags_isFlag (t.behindFlags_not_flag rest)

theorem flags_left (rest : Bytes) :
    (t.followedBy rest).dropWhile isFlag = t.width ++ t.behindWidth rest :=
  dropWhile_row t.flags_isFlag (t.behindFlags_not_flag rest)

theorem readWidth_eq (rest : Bytes) (h : t.widthNumber < 2 ^ 64) :
    readWidth (t.width ++ t.behindWidth rest) = (t.conversion.width, t.behindWidth rest) := by
  have htake := takeWhile_row t.width_isDigit (t.behindWidth_not_digit rest)
  have hdrop := dropWhile_row t.width_isDigit (t.behindWidth_not_digit rest)
  have hsize : size? t.width = some t.widthNumber := by
    rw [size?_eq]
    exact if_pos h
  rw [readWidth, htake, hdrop, hsize]
  by_cases hw : t.width = []
  · simp [hw, conversion]
  · simp [hw, conversion]

theorem readWidth_wide (rest : Bytes) (h : 2 ^ 64 ≤ t.widthNumber) :
    readWidth (t.width ++ t.behindWidth rest) = (none, t.width ++ t.behindWidth rest) := by
  have htake := takeWhile_row t.width_isDigit (t.behindWidth_not_digit rest)
  have hsize : size? t.width = none := by
    rw [size?_eq]
    exact if_neg (Nat.not_lt.mpr h)
  rw [readWidth, htake, hsize]
  split <;> rfl

theorem readPrecision_eq (rest : Bytes) :
    readPrecision (t.behindWidth rest) = (t.conversion.precision, t.letter :: rest) := by
  have hpoint : t.letter ≠ Ascii.byte '.' := t.letter_stops.2.2
  have hletter : ∀ b ∈ (t.letter :: rest).head?, Ascii.isDigit b = false := by
    intro b hb
    obtain rfl : t.letter = b := Option.some.inj hb
    exact t.letter_stops.2.1
  rw [behindWidth, conversion]
  cases hp : t.precision with
  | none => simp [readPrecision, hpoint]
  | some ds =>
    have hds := t.precision_isDigit ds hp
    have htake := takeWhile_row hds hletter
    have hdrop := dropWhile_row hds hletter
    simp only [Option.elim_some, List.cons_append, readPrecision, if_pos, htake, hdrop, size?_eq,
      Option.map_some]
    split <;> rfl

/-- **A conversion is read from its text**, whatever follows it. -/
theorem readConversion?_text (rest : Bytes) (h : t.widthNumber < 2 ^ 64) :
    readConversion? (t.followedBy rest) = some (t.conversion, rest) := by
  have hbehind : behind (t.followedBy rest) = t.letter :: rest := by
    rw [behind, flags_left, readWidth_eq t rest h, readPrecision_eq]
  rw [readConversion?_eq, hbehind]
  simp only [conversionOf, flags_read, flags_left, readWidth_eq t rest h, readPrecision_eq]
  rfl

/-- A width out of range is not read as one: its first digit is the letter. -/
theorem readConversion?_wide (rest : Bytes) (h : 2 ^ 64 ≤ t.widthNumber) :
    ∃ c left, readConversion? (t.followedBy rest) = some (c, left) ∧
      Ascii.isDigit c.letter = true := by
  cases hw : t.width with
  | nil =>
    rw [widthNumber, hw] at h
    exact absurd h (by decide)
  | cons d ds =>
    have hdigit := t.width_isDigit d (by simp [hw])
    have hpoint : d ≠ Ascii.byte '.' := by
      rintro rfl
      exact absurd hdigit (by decide)
    have hwidth := t.readWidth_wide rest h
    rw [hw, List.cons_append] at hwidth
    have hbehind : behind (t.followedBy rest) = d :: (ds ++ t.behindWidth rest) := by
      rw [behind, flags_left, hw, List.cons_append, hwidth, readPrecision, if_neg hpoint]
    rw [readConversion?_eq, hbehind]
    exact ⟨_, _, rfl, hdigit⟩

/-- The same text without the digits of the precision. -/
def withoutDigits : ConversionText :=
  { t with
    precision := t.precision.map fun _ => []
    precision_isDigit := by
      intro ds hds b hb
      obtain ⟨_, -, rfl⟩ := Option.map_eq_some_iff.mp hds
      exact absurd hb List.not_mem_nil }

/-- A precision out of range is read as one without digits. -/
theorem withoutDigits_conversion (h : 2 ^ 64 ≤ t.precisionNumber) :
    t.withoutDigits.conversion = t.conversion := by
  rw [precisionNumber] at h
  simp only [conversion, withoutDigits, widthNumber, Option.map_map]
  congr 1
  cases hp : t.precision with
  | none => rfl
  | some ds =>
    rw [hp, Option.getD_some] at h
    have hzero : rowNumber [] = 0 := rfl
    simp only [Option.map_some, Function.comp_apply, hzero, if_neg (Nat.not_lt.mpr h)]
    rfl

theorem followedBy_head (rest : Bytes) : (t.followedBy rest).head? ≠ some percent := by
  rw [followedBy]
  cases hf : t.flags with
  | cons b fs =>
    intro h
    obtain rfl : b = percent := Option.some.inj h
    exact absurd (t.flags_isFlag percent (by simp [hf])) (by decide)
  | nil =>
    rw [List.nil_append]
    cases hw : t.width with
    | cons b ds =>
      intro h
      obtain rfl : b = percent := Option.some.inj h
      exact absurd (t.width_isDigit percent (by simp [hw])) (by decide)
    | nil =>
      intro h
      rcases t.behindWidth_head rest h with hpoint | hletter
      · exact absurd hpoint (by decide)
      · exact (stops_letter t.letter_known).2 hletter.symm

end ConversionText

/-! ### Format strings in a row -/

variable {s rest : Bytes} {piece : FormatPiece} {pieces : List FormatPiece}

theorem readPieces_of_le {fuel : Nat} (h : s.length ≤ fuel) :
    readPieces fuel s = readPieces s.length s := by
  induction fuel using Nat.strong_induction_on generalizing s with
  | _ fuel ih =>
    cases s with
    | nil => cases fuel <;> rfl
    | cons b s =>
      obtain ⟨k, rfl⟩ : ∃ k, fuel = k + 1 := Nat.exists_eq_succ_of_ne_zero (by simp at h; omega)
      rw [List.length_cons, readPieces, readPieces]
      cases hread : readPiece? (b :: s) with
      | none => rfl
      | some found =>
        -- what is left is shorter, so both amounts of fuel are enough for it
        have hlt := length_readPiece? hread
        rw [List.length_cons] at h hlt
        have hk := ih k (by omega) (s := found.2) (by omega)
        have hs := ih s.length (by omega) (s := found.2) (by omega)
        simp only [hk, hs]

/-- All the pieces that can be read one after the other, and what is left. -/
def readAll (s : Bytes) : List FormatPiece × Bytes := readPieces s.length s

theorem readAll_of_readPiece? (h : readPiece? s = some (piece, rest)) :
    readAll s = (piece :: (readAll rest).1, (readAll rest).2) := by
  have hlt := length_readPiece? h
  obtain ⟨k, hk⟩ : ∃ k, s.length = k + 1 := Nat.exists_eq_succ_of_ne_zero (by omega)
  rw [readAll, hk, readPieces, h]
  simp only [readPieces_of_le (show rest.length ≤ k by omega)]
  rfl

theorem parse_eq (s : Bytes) : parse s =
    if (readAll s).2.isEmpty then .ok (readAll s).1
    else .error (invalid (Utf8.toText (readAll s).2)) := rfl

/-- What is read from a conversion on. -/
theorem readAll_text (t : ConversionText) (rest : Bytes) (h : t.widthNumber < 2 ^ 64) :
    readAll (percent :: t.followedBy rest) =
      (.conversion t.conversion :: (readAll rest).1, (readAll rest).2) :=
  readAll_of_readPiece?
    (readPiece?_of_readConversion? (t.followedBy_head rest) (t.readConversion?_text rest h))

theorem plainFront_stop (s u : Bytes) : plainFront (s ++ percent :: u) = plainFront s :=
  takeWhile_stop (p := (· != percent)) rfl s u

theorem plainRest_stop (s u : Bytes) :
    plainRest (s ++ percent :: u) = plainRest s ++ percent :: u :=
  dropWhile_stop (p := (· != percent)) rfl s u

/-- The pieces of a text are read as before where a percent sign follows it. -/
theorem readAll_append (h : Reads s pieces) (hknown : Known (symbols pieces)) (u : Bytes) :
    readAll (s ++ percent :: u) =
      (pieces ++ (readAll (percent :: u)).1, (readAll (percent :: u)).2) := by
  induction h with
  | nil => rfl
  | @cons s piece rest pieces hpiece _ ih =>
    have ih := ih fun c hc => hknown c (List.mem_append_right _ hc)
    suffices hread : readPiece? (s ++ percent :: u) = some (piece, rest ++ percent :: u) by
      rw [readAll_of_readPiece? hread, ih]
      rfl
    obtain ⟨b, t, hb, rfl, rfl, rfl⟩ | ⟨rfl, rfl⟩ | ⟨t, c, hhead, rfl, hread, rfl⟩ :=
      readPiece?_cases hpiece
    · rw [List.cons_append, readPiece?_literal hb, plainFront_stop, plainRest_stop]
    · exact readPiece?_percent _
    · -- a known letter ends the conversion, so nothing of what follows is read with it
      obtain ⟨v, rfl, hv⟩ := exists_delimited hread (hknown c (List.mem_cons_self ..))
      rw [List.cons_append, List.append_assoc]
      exact readPiece?_of_readConversion? (hv.head _) (hv.read _)

/-- **A format string behind another one** is read as it is alone. -/
theorem parse_append (h : Reads s pieces) (hknown : Known (symbols pieces)) (u : Bytes) :
    parse (s ++ percent :: u) = (parse (percent :: u)).map (pieces ++ ·) := by
  rw [parse_eq, parse_eq, readAll_append h hknown]
  split <;> rfl

end Lua.Format
