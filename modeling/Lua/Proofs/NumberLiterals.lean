/-
Number literals and their exact values.

A literal is an optional sign and digits with at most one point among them, in decimal or behind the
mark `0x` in hexadecimal, with an optional exponent: of ten behind `e`, of two behind `p`.  This
module defines the rational number that a literal denotes, and reads the texts of decimal fractions:

* `literal?` — the value of a literal, exactly;
* `Mantissa`, `Exponent` — the parts of a magnitude, and what they denote;
* `scaled?_mantissa` — a magnitude has the value that its parts ask for;
* `Denotes` — a text that is read as a number;
* `exists_trimmed` — zeros at the end of a fraction, and a point with nothing behind it, are worth
  nothing;
* `Decimal.exists_mantissa_trimFraction` — so taking them off a text leaves its value as it is.

Design notes: the values are rational numbers and not floats, so that no rounding takes part in
reading.  The digits behind a point count in the base of the digits, for either exponent.
-/
import Lua.Number.Decimal
import Lua.Proofs.IntegerLayout
import Mathlib.Data.Rat.Defs
import Mathlib.Tactic.FieldSimp

namespace Lua

namespace Numeral

/-! ### The value of a literal -/

/-- The value of digits with a point among them, times a power of the radix behind a mark. -/
def scaled? (base radix : Nat) (mark : Char) (s : List Char) : Option ℚ := do
  let mantissa := s.takeWhile (· != mark)
  let whole := mantissa.takeWhile (· != '.')
  let fraction := (mantissa.dropWhile (· != '.')).tail
  let m ← natural? base (whole ++ fraction)
  let e ← match s.dropWhile (· != mark) with
    | [] => some 0
    | _ :: es => exponent? es
  pure ((m : ℚ) / (base : ℚ) ^ fraction.length * (radix : ℚ) ^ e)

/-- The value of a literal without a sign. -/
def magnitude? : List Char → Option ℚ
  | '0' :: 'x' :: s => scaled? 16 2 'p' s
  | s => scaled? 10 10 'e' s

/-- The value of a literal. -/
def literal? (s : Bytes) : Option ℚ :=
  if Utf8.isText s then
    let (negative, t) := splitSign (Utf8.characters s)
    (magnitude? t).map fun q => if negative then -q else q
  else none

/-! ### The parts of a magnitude -/

/-- Digits with at most one point among them: they denote `m` / baseᵏ. -/
inductive Mantissa (base : Nat) : List Char → Nat → Nat → Prop
  | whole {ds : List Char} {m : Nat} (h : Row base ds m) : Mantissa base ds m 0
  | point {whole fraction : List Char} {m : Nat} (h : Row base (whole ++ fraction) m) :
      Mantissa base (whole ++ '.' :: fraction) m fraction.length

/-- What follows a mantissa: nothing, or a mark and an exponent with its sign. -/
inductive Exponent (mark : Char) : List Char → ℤ → Prop
  | none : Exponent mark [] 0
  | marked {ds : List Char} {e : ℤ} (h : Row 10 ds e.natAbs) :
      Exponent mark (mark :: (if e < 0 then '-' else '+') :: ds) e

/-! ### Rows of digits with zeros at their end -/

variable {base radix m k v : Nat} {mark : Char} {ds s t whole fraction : List Char} {e : ℤ}

theorem value_append_zeros (base j : Nat) (ds : List Char) :
    Nat.ofDigits base ((ds ++ List.replicate j '0').reverse.map digitWorth) =
      Nat.ofDigits base (ds.reverse.map digitWorth) * base ^ j := by
  have hzero : digitWorth '0' = 0 := rfl
  simp [hzero, Nat.ofDigits_append, Nat.mul_comm]

/-- Zeros at the end multiply the value. -/
theorem Row.append_zeros (h : Row base ds v) (hbase : 0 < base) (j : Nat) :
    Row base (ds ++ List.replicate j '0') (v * base ^ j) := by
  refine ⟨by simp [h.ne_nil], fun c hc => ?_, ?_⟩
  · rcases List.mem_append.mp hc with hc | hc
    · exact h.digits c hc
    · rw [List.eq_of_mem_replicate hc]
      exact ⟨rfl, hbase⟩
  · rw [value_append_zeros, h.value]

/-- What is left without zeros at the end. -/
theorem Row.of_append_zeros {j : Nat} (h : Row base (ds ++ List.replicate j '0') v)
    (hne : ds ≠ []) : ∃ u, Row base ds u ∧ v = u * base ^ j := by
  refine ⟨_, ⟨hne, fun c hc => h.digits c (List.mem_append_left _ hc), rfl⟩, ?_⟩
  rw [h.value, value_append_zeros]

/-! ### Reading a magnitude -/

theorem point_not_digit : ¬ IsDigit base '.' := fun h => absurd h.1 (by decide)

theorem ne_point_of_digits (h : ∀ c ∈ ds, IsDigit base c) : ∀ c ∈ ds, (c != '.') = true := by
  intro c hc
  rw [bne_iff_ne]
  rintro rfl
  exact point_not_digit (h _ hc)

/-- A mantissa is made of digits and points. -/
theorem Mantissa.chars (h : Mantissa base s m k) : ∀ c ∈ s, IsDigit base c ∨ c = '.' := by
  intro c hc
  cases h with
  | whole h => exact .inl (h.digits c hc)
  | point h =>
    rcases List.mem_append.mp hc with hc | hc
    · exact .inl (h.digits c (List.mem_append_left _ hc))
    · rcases List.mem_cons.mp hc with rfl | hc
      · exact .inr rfl
      · exact .inl (h.digits c (List.mem_append_right _ hc))

/-- The digits of a mantissa without its point. -/
theorem Mantissa.split (h : Mantissa base s m k) :
    natural? base (s.takeWhile (· != '.') ++ (s.dropWhile (· != '.')).tail) = some m ∧
      (s.dropWhile (· != '.')).tail.length = k := by
  cases h with
  | whole h =>
    have hall := ne_point_of_digits h.digits
    rw [List.takeWhile_eq_self_iff.mpr hall, List.dropWhile_eq_nil_iff.mpr hall]
    exact ⟨natural?_eq_some_iff.mpr (by simpa using h), rfl⟩
  | @point whole fraction m h =>
    have hwhole := ne_point_of_digits fun c hc => h.digits c (List.mem_append_left fraction hc)
    have hpoint : ∀ c ∈ ('.' :: fraction).head?, (c != '.') = false := by simp
    rw [Format.takeWhile_row hwhole hpoint, Format.dropWhile_row hwhole hpoint]
    exact ⟨natural?_eq_some_iff.mpr h, rfl⟩

/-- No mark stands in a mantissa. -/
theorem Mantissa.ne_mark (h : Mantissa base s m k) (hmark : ¬ IsDigit base mark)
    (hpoint : mark ≠ '.') : ∀ c ∈ s, (c != mark) = true := by
  intro c hc
  rw [bne_iff_ne]
  rintro rfl
  exact (h.chars c hc).elim hmark hpoint

theorem Exponent.head (h : Exponent mark t e) : ∀ c ∈ t.head?, (c != mark) = false := by
  intro c hc
  cases h with
  | none => exact absurd hc nofun
  | marked =>
    obtain rfl := Option.some.inj hc
    simp

/-- An exponent with a sign. -/
theorem exponent?_sign (h : Row 10 ds e.natAbs) :
    exponent? ((if e < 0 then '-' else '+') :: ds) = some e := by
  have hnatural := natural?_eq_some_iff.mpr h
  by_cases he : e < 0
  · rw [if_pos he, exponent?, splitSign]
    simp [hnatural, abs_of_neg he]
  · rw [if_neg he, exponent?, splitSign]
    simp [hnatural, abs_of_nonneg (not_lt.mp he)]

/-- **A magnitude is read** by its mantissa and its exponent. -/
theorem scaled?_mantissa (h : Mantissa base s m k) (hmark : ¬ IsDigit base mark)
    (hpoint : mark ≠ '.') (hexponent : Exponent mark t e) :
    scaled? base radix mark (s ++ t) = some ((m : ℚ) / (base : ℚ) ^ k * (radix : ℚ) ^ e) := by
  have hs := h.ne_mark hmark hpoint
  obtain ⟨hnatural, hplaces⟩ := h.split
  rw [scaled?, Format.takeWhile_row hs hexponent.head, Format.dropWhile_row hs hexponent.head]
  simp only [hnatural, hplaces]
  cases hexponent with
  | none => rfl
  | marked he =>
    simp only [exponent?_sign he]
    rfl

/-! ### Zeros at the end of a fraction -/

theorem exists_zeros (s : List Char) :
    ∃ j, s = Text.dropEndWhile (· == '0') s ++ List.replicate j '0' := by
  refine ⟨(s.reverse.takeWhile (· == '0')).length, ?_⟩
  have hzeros : s.reverse.takeWhile (· == '0') =
      List.replicate (s.reverse.takeWhile (· == '0')).length '0' := by
    refine List.eq_replicate_iff.mpr ⟨rfl, fun c hc => ?_⟩
    exact eq_of_beq (List.mem_takeWhile_imp (p := (· == '0')) hc)
  have hparts := congrArg List.reverse
    (List.takeWhile_append_dropWhile (p := (· == '0')) (l := s.reverse))
  rw [List.reverse_reverse, List.reverse_append, hzeros, List.reverse_replicate] at hparts
  exact hparts.symm

/-- A fraction in its shortest form: without a point, if no digit stands behind it. -/
def shortest (whole fraction : List Char) : List Char :=
  if fraction.isEmpty then whole else whole ++ '.' :: fraction

theorem Row.shortest (h : Row base (whole ++ fraction) m) :
    Mantissa base (shortest whole fraction) m fraction.length := by
  rw [Numeral.shortest]
  split
  · rename_i hempty
    obtain rfl := List.isEmpty_iff.mp hempty
    rw [List.append_nil] at h
    exact .whole h
  · exact .point h

/-- **Zeros at the end of a fraction** are worth nothing. -/
theorem exists_trimmed (h : Row base (whole ++ fraction) m) (hwhole : whole ≠ [])
    (hbase : 0 < base) :
    ∃ m' k, Mantissa base (shortest whole (Text.dropEndWhile (· == '0') fraction)) m' k ∧
      (m' : ℚ) / (base : ℚ) ^ k = (m : ℚ) / (base : ℚ) ^ fraction.length := by
  obtain ⟨j, hj⟩ := exists_zeros fraction
  have hlength := congrArg List.length hj
  rw [List.length_append, List.length_replicate] at hlength
  rw [hj, ← List.append_assoc] at h
  generalize Text.dropEndWhile (· == '0') fraction = kept at h hlength ⊢
  obtain ⟨m', hm', rfl⟩ := h.of_append_zeros (by simp [hwhole])
  have hne : (base : ℚ) ≠ 0 := Nat.cast_ne_zero.mpr hbase.ne'
  refine ⟨m', kept.length, hm'.shortest, ?_⟩
  rw [hlength, pow_add, Nat.cast_mul, Nat.cast_pow]
  field_simp

/-! ### Texts that denote a number -/

variable {sign : List Char} {negative : Bool} {q : ℚ}

/-- A text without a sign that is read as a number. -/
structure Denotes (t : List Char) (q : ℚ) : Prop where
  ascii : IsAscii t
  unsigned : Unsigned t
  value : magnitude? t = some q

theorem Mantissa.ascii (h : Mantissa base s m k) : IsAscii s := by
  intro c hc
  rcases h.chars c hc with hdigit | rfl
  · exact toNat_lt_of_isAlphanum hdigit.1
  · decide

theorem Exponent.ascii (h : Exponent mark t e) (hmark : mark.toNat < 128) : IsAscii t := by
  intro c hc
  cases h with
  | none => exact absurd hc List.not_mem_nil
  | marked h =>
    simp only [List.mem_cons] at hc
    rcases hc with rfl | rfl | hc
    · exact hmark
    · split <;> decide
    · exact h.isAscii c hc

theorem Mantissa.unsigned (h : Mantissa base s m k) (t : List Char) : Unsigned (s ++ t) := by
  have hne : s ≠ [] := by
    cases h with
    | whole h => exact h.ne_nil
    | point => simp
  intro c hc
  rw [List.head?_append_of_ne_nil _ hne] at hc
  rcases h.chars c (List.mem_of_mem_head? hc) with hdigit | rfl
  · exact hdigit.not_sign
  · decide

theorem not_digit_exponent : ¬ IsDigit 10 'e' := by
  rintro ⟨-, hworth⟩
  exact absurd hworth (by decide)

/-- A decimal magnitude has no mark in front. -/
theorem Denotes.decimal (h : Mantissa 10 s m k) (ht : Exponent 'e' t e) :
    Denotes (s ++ t) ((m : ℚ) / 10 ^ k * 10 ^ e) := by
  have hworth : digitWorth 'x' = 33 := rfl
  have hmark : ∀ rest, s ++ t ≠ '0' :: 'x' :: rest := by
    intro rest heq
    match s, h.chars with
    | [], _ =>
      cases ht with
      | none => cases heq
      | marked => cases heq
    | [c], _ =>
      obtain ⟨-, htail⟩ := List.cons.inj heq
      cases ht with
      | none => cases htail
      | marked => cases htail
    | c :: d :: s, hchars =>
      obtain ⟨rfl, -⟩ := List.cons.inj (List.cons.inj heq).2
      have hx : IsDigit 10 'x' ∨ 'x' = '.' := hchars 'x' (by simp)
      exact absurd hx (by simp [IsDigit, hworth])
  have hread : scaled? 10 10 'e' (s ++ t) = _ :=
    scaled?_mantissa h not_digit_exponent (by decide) ht
  refine ⟨h.ascii.append (ht.ascii (by decide)), h.unsigned t, ?_⟩
  rw [magnitude?.eq_2 _ hmark]
  simpa using hread

/-- A point and a zero behind a row of digits change no value. -/
theorem Denotes.marked (h : Mantissa 10 s m k) (ht : Exponent 'e' t e) :
    Denotes (s ++ t ++ (if (s ++ t).all Char.isDigit then ['.', '0'] else []))
      ((m : ℚ) / 10 ^ k * 10 ^ e) := by
  split
  · rename_i hall
    rw [List.all_eq_true] at hall
    cases ht with
    | marked => exact absurd (hall 'e' (by simp)) (by decide)
    | none =>
      cases h with
      | point => exact absurd (hall '.' (by simp)) (by decide)
      | whole h =>
        have hpoint : Mantissa 10 (s ++ '.' :: ['0']) (m * 10 ^ 1) 1 :=
          .point (h.append_zeros (by decide) 1)
        have hdenotes := Denotes.decimal hpoint .none
        simpa using hdenotes
  · rw [List.append_nil]
    exact .decimal h ht

theorem Denotes.hexadecimal (h : Mantissa 16 s m k) (ht : Exponent 'p' t e) :
    Denotes ('0' :: 'x' :: (s ++ t)) ((m : ℚ) / 16 ^ k * 2 ^ e) := by
  have hp : ¬ IsDigit 16 'p' := by
    rintro ⟨-, hworth⟩
    exact absurd hworth (by decide)
  have hread : scaled? 16 2 'p' (s ++ t) = _ := scaled?_mantissa h hp (by decide) ht
  have hascii : IsAscii (['0', 'x'] ++ (s ++ t)) :=
    IsAscii.append (by decide) (h.ascii.append (ht.ascii (by decide)))
  refine ⟨hascii, ?_, ?_⟩
  · intro c hc
    obtain rfl := Option.some.inj hc
    decide
  · rw [magnitude?]
    simpa using hread

/-- **A literal is read** by its sign and its magnitude. -/
theorem Denotes.literal (ht : Denotes t q) (hsign : Sign sign negative) :
    literal? ((sign ++ t).map Ascii.byte) = some (if negative then -q else q) := by
  have hascii : IsAscii (sign ++ t) := by
    refine IsAscii.append ?_ ht.ascii
    cases hsign <;> decide
  rw [literal?, if_pos (Utf8.isText_ascii hascii), Utf8.characters_ascii hascii,
    splitSign_append hsign ht.unsigned]
  simp [ht.value]

end Numeral

namespace Decimal

open Numeral

variable {whole fraction tail : List Char} {e : ℤ}

/-- A number with a point has digits in front of it. -/
theorem exists_withPoint (places n : Nat) :
    ∃ whole fraction, whole ≠ [] ∧ fraction.length = places ∧ Numeral.Row 10 (whole ++ fraction) n ∧
      withPoint places n = shortest whole fraction := by
  have hrow := (Numeral.row_digits n).zeros (by decide) (places + 1 - (digits n).length)
  have hlength : places + 1 ≤ (padZeros (places + 1) (digits n)).length := by
    rw [padZeros, List.length_append, List.length_replicate]
    omega
  rw [← padZeros] at hrow
  rw [withPoint]
  generalize padZeros (places + 1) (digits n) = ds at hrow hlength ⊢
  refine ⟨ds.take (ds.length - places), ds.drop (ds.length - places), ?_, ?_, ?_, ?_⟩
  · rw [Ne, List.take_eq_nil_iff]
    rintro (h | rfl)
    · omega
    · simp at hlength
  · rw [List.length_drop]
    omega
  · rwa [List.take_append_drop]
  · by_cases hplaces : places = 0
    · simp [shortest, hplaces]
    · have hne : ¬ (ds.drop (ds.length - places)).isEmpty = true := by
        rw [List.isEmpty_iff, List.drop_eq_nil_iff]
        omega
      rw [if_neg hplaces, shortest, if_neg hne]

theorem dropEndWhile_point (whole fraction : List Char) :
    Text.dropEndWhile (· == '0') (whole ++ '.' :: fraction) =
      whole ++ '.' :: Text.dropEndWhile (· == '0') fraction := by
  simp only [Text.dropEndWhile, List.reverse_append, List.reverse_cons, List.append_assoc,
    List.dropWhile_append]
  split
  · rename_i hempty
    rw [List.isEmpty_iff] at hempty
    simp [hempty]
  · simp

/-- A point with nothing behind it is left out. -/
theorem dropLast_point (h : '.' ∉ fraction) :
    (if (whole ++ '.' :: fraction).getLast? = some '.' then (whole ++ '.' :: fraction).dropLast
      else whole ++ '.' :: fraction) = shortest whole fraction := by
  cases fraction with
  | nil => simp [shortest]
  | cons d ds =>
    have hlast : (whole ++ '.' :: d :: ds).getLast? = (d :: ds).getLast? := by
      simp [List.getLast?_cons]
    rw [hlast, if_neg fun heq => h (List.mem_of_getLast? heq)]
    rfl

/-- Taking off the zeros that end a fraction, and a point with nothing behind it. -/
theorem trimFraction_shortest {n : Nat} (h : Numeral.Row 10 (whole ++ fraction) n)
    (htail : Exponent 'e' tail e) :
    trimFraction (shortest whole fraction ++ tail) =
      shortest whole (Text.dropEndWhile (· == '0') fraction) ++ tail := by
  have hs : ∀ c ∈ shortest whole fraction, (c != 'e') = true :=
    h.shortest.ne_mark not_digit_exponent (by decide)
  simp only [trimFraction, Format.takeWhile_row hs htail.head, Format.dropWhile_row hs htail.head]
  by_cases hempty : fraction = []
  · subst hempty
    have hpoint : '.' ∉ whole := by
      intro hc
      exact point_not_digit (h.digits _ (List.mem_append_left _ hc))
    simp [shortest, hpoint, Text.dropEndWhile]
  · have hmem : (whole ++ '.' :: fraction).contains '.' = true := by simp
    have hshortest : shortest whole fraction = whole ++ '.' :: fraction := by
      simp [shortest, hempty]
    have hkept : '.' ∉ Text.dropEndWhile (· == '0') fraction := by
      intro hc
      obtain ⟨j, hj⟩ := exists_zeros fraction
      have hfraction : '.' ∈ fraction := hj ▸ List.mem_append_left _ hc
      exact point_not_digit (h.digits _ (List.mem_append_right _ hfraction))
    rw [hshortest, if_pos hmem, ← Text.dropEndWhile, dropEndWhile_point, dropLast_point hkept]

/-- **The text of a decimal fraction** without the zeros that end it has the value of the
fraction. -/
theorem exists_mantissa_trimFraction (places n : Nat) (htail : Exponent 'e' tail e) :
    ∃ s m k, trimFraction (withPoint places n ++ tail) = s ++ tail ∧ Mantissa 10 s m k ∧
      (m : ℚ) / 10 ^ k = (n : ℚ) / 10 ^ places := by
  obtain ⟨whole, fraction, hwhole, rfl, hrow, htext⟩ := exists_withPoint places n
  obtain ⟨m, k, hmantissa, hvalue⟩ := exists_trimmed hrow hwhole (by decide)
  exact ⟨_, m, k, by rw [htext, trimFraction_shortest hrow htail], hmantissa, hvalue⟩

end Decimal

end Lua
