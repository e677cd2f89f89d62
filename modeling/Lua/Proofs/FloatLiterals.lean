/-
Literals of floats.

`format` writes a finite float for `%q` in hexadecimal if it has a fraction, and with the text that
`tostring` gives for it if it has none.  This module says what these literals denote:

* `Binary.toRat` — the value of a finite float, exactly;
* `fourteenDigits` — an integer rounded to fourteen significant digits;
* `Format.denotes_hexFloatText` — a literal in hexadecimal denotes the float;
* `Number.exists_floatText` — the text of an integral float denotes the rounded integer;
* `Library.Strings.format_floatLiteral` — so a literal is exact unless the float is an integer that
  has more digits;
* `Library.Strings.one_literal_for_two` — and two such integers may share a literal.

Design notes: whether a float is written positionally is decided by quotients.  For an integer that
is whether it has at most fourteen digits, and nothing is rounded then.
-/
import Lua.Proofs.IntegerFloats
import Lua.Proofs.NumberLiterals
import Mathlib.Algebra.Order.Field.Power
import Mathlib.Tactic.NormNum

namespace Lua

open Numeral (Denotes Exponent Mantissa digitWorth literal? shortest)

/-! ### The value of a float -/

namespace Binary

variable {b : Binary} {n : ℤ} {x : Float}

/-- The magnitude as a rational number. -/
def magnitude (b : Binary) : ℚ := (b.significand : ℚ) * 2 ^ b.exponent

/-- The value as a rational number. -/
def toRat (b : Binary) : ℚ := if b.negative then -b.magnitude else b.magnitude

theorem isZero_iff {k : Nat} (hq : b.quotient.1 = k * b.quotient.2) : b.isZero = true ↔ k = 0 := by
  have hnum : b.quotient.1 = 0 ↔ b.significand = 0 := by
    simp [quotient, Nat.shiftLeft_eq]
  have hden := b.quotient_pos.ne'
  rw [isZero, decide_eq_true_iff, ← hnum, hq, Nat.mul_eq_zero, or_iff_left hden]

theorem magnitude_eq_quotient (b : Binary) :
    b.magnitude = (b.quotient.1 : ℚ) / (b.quotient.2 : ℚ) := by
  obtain ⟨negative, m, e⟩ := b
  simp only [magnitude, quotient, Nat.shiftLeft_eq, Nat.one_mul]
  rcases Int.eq_nat_or_neg e with ⟨k, rfl | rfl⟩
  · simp
  · simp [div_eq_mul_inv]

theorem magnitude_nonneg (b : Binary) : 0 ≤ b.magnitude := by
  rw [magnitude_eq_quotient]
  positivity

theorem abs_toRat (b : Binary) : |b.toRat| = b.magnitude := by
  rw [toRat]
  split
  · rw [abs_neg, abs_of_nonneg b.magnitude_nonneg]
  · rw [abs_of_nonneg b.magnitude_nonneg]

/-- A float with the value of an integer, as a quotient. -/
theorem quotient_of_toRat (h : b.toRat = n) : b.quotient.1 = n.natAbs * b.quotient.2 := by
  have hden : (b.quotient.2 : ℚ) ≠ 0 := Nat.cast_ne_zero.mpr b.quotient_pos.ne'
  have hmagnitude : b.magnitude = (n.natAbs : ℚ) := by
    rw [← abs_toRat, h, Nat.cast_natAbs, Int.cast_abs]
  rw [magnitude_eq_quotient, div_eq_iff hden] at hmagnitude
  exact_mod_cast hmagnitude

theorem isIntegral_iff (b : Binary) : b.isIntegral = true ↔ ∃ n : ℤ, b.toRat = n := by
  have hintegral : b.isIntegral = true ↔ b.quotient.1 % b.quotient.2 = 0 := decide_eq_true_iff
  have hden : (b.quotient.2 : ℚ) ≠ 0 := Nat.cast_ne_zero.mpr b.quotient_pos.ne'
  rw [hintegral]
  constructor
  · intro hmod
    obtain ⟨k, hk⟩ := Nat.dvd_of_mod_eq_zero hmod
    have hmagnitude : b.magnitude = k := by
      rw [magnitude_eq_quotient, hk, Nat.cast_mul, mul_div_cancel_left₀ _ hden]
    refine ⟨if b.negative then -k else k, ?_⟩
    rw [toRat, hmagnitude]
    split <;> simp
  · rintro ⟨n, hn⟩
    rw [quotient_of_toRat hn, Nat.mul_mod_left]

/-- The sign of a float that is an integer other than zero. -/
theorem negative_of_toRat (h : b.toRat = n) (hn : n ≠ 0) : b.negative = true ↔ n < 0 := by
  have hnonneg := b.magnitude_nonneg
  rw [toRat] at h
  split_ifs at h with hnegative
  · have hle : n ≤ 0 := by
      have hcast : (n : ℚ) ≤ 0 := by linarith
      exact_mod_cast hcast
    exact iff_of_true hnegative (lt_of_le_of_ne hle hn)
  · have hle : 0 ≤ n := by
      have hcast : (0 : ℚ) ≤ n := by linarith
      exact_mod_cast hcast
    exact iff_of_false hnegative hle.not_gt

theorem negative_of_ofFloat? (hx : ofFloat? x = some b) : b.negative = signField x := by
  simp only [ofFloat?] at hx
  split_ifs at hx
  · obtain rfl := Option.some.inj hx
    rfl
  · obtain rfl := Option.some.inj hx
    rfl

end Binary

/-! ### Literals in hexadecimal -/

namespace Numeral

variable {base v : Nat} {c : Char} {ds : List Char}

/-- A digit in front of a row. -/
theorem Row.cons (h : Row base ds v) (hc : IsDigit base c) :
    Row base (c :: ds) (digitWorth c * base ^ ds.length + v) := by
  refine ⟨List.cons_ne_nil _ _, ?_, ?_⟩
  · exact List.forall_mem_cons.mpr ⟨hc, h.digits⟩
  · rw [h.value]
    simp [Nat.ofDigits_append, Nat.mul_comm, Nat.add_comm]

end Numeral

namespace Format

open Binary

variable {x : Float} {b : Binary}

/-- The fraction of a float in hexadecimal. -/
def fractionDigits (x : Float) : List Char :=
  Decimal.padZeros 13 (digitsIn 16 (fractionField x))

/-- The digit in front of the point, and the exponent of two. -/
def leadOf (x : Float) : Char × ℤ :=
  if exponentField x = 0 then ('0', if fractionField x = 0 then 0 else -1022)
  else ('1', (exponentField x : ℤ) - 1023)

theorem row_fractionDigits (x : Float) :
    Numeral.Row 16 (fractionDigits x) (fractionField x) ∧ (fractionDigits x).length = 13 := by
  have hlength : (digitsIn 16 (fractionField x)).length ≤ 13 :=
    (Nat.length_toDigits_le_iff (by decide) (by decide)).mpr (fractionField_lt x)
  refine ⟨(Numeral.row_toDigits (by decide) (by decide) _).zeros (by decide) _, ?_⟩
  rw [fractionDigits, Decimal.padZeros, List.length_append, List.length_replicate]
  omega

/-- The parts of a literal in hexadecimal. -/
theorem hexFloatText_eq (x : Float) : hexFloatText x =
    '0' :: 'x' :: (shortest [(leadOf x).1] (Text.dropEndWhile (· == '0') (fractionDigits x)) ++
      'p' :: (if (leadOf x).2 < 0 then '-' else '+') :: Decimal.digits (leadOf x).2.natAbs) := by
  have hparts : hexFloatText x = ['0', 'x', (leadOf x).1] ++
      (if (Text.dropEndWhile (· == '0') (fractionDigits x)).isEmpty then []
        else '.' :: Text.dropEndWhile (· == '0') (fractionDigits x)) ++
      'p' :: (if (leadOf x).2 < 0 then '-' else '+') :: Decimal.digits (leadOf x).2.natAbs := rfl
  rw [hparts, shortest]
  split <;> simp

/-- The lead and the fraction make up the significand of a float other than zero. -/
theorem significand_eq (hx : ofFloat? x = some b) (hb : b.significand ≠ 0) :
    Numeral.IsDigit 16 (leadOf x).1 ∧
      b.significand = digitWorth (leadOf x).1 * 16 ^ 13 + fractionField x ∧
      b.exponent = (leadOf x).2 - 52 := by
  have hlead : leadOf x =
      if exponentField x = 0 then ('0', if fractionField x = 0 then 0 else -1022)
      else ('1', (exponentField x : ℤ) - 1023) := rfl
  simp only [ofFloat?] at hx
  split_ifs at hx hlead with htop hfield hfraction
  · obtain rfl := Option.some.inj hx
    exact absurd hfraction hb
  · obtain rfl := Option.some.inj hx
    rw [hlead]
    exact ⟨⟨rfl, by decide⟩, by simp [digitWorth], rfl⟩
  · obtain rfl := Option.some.inj hx
    have hone : digitWorth '1' * 16 ^ 13 = 1 <<< 52 := rfl
    have hdigit : Numeral.IsDigit 16 '1' := ⟨rfl, by decide⟩
    rw [hlead]
    refine ⟨hdigit, by rw [hone], ?_⟩
    dsimp only
    omega

/-- **A literal in hexadecimal** denotes the magnitude of the float. -/
theorem denotes_hexFloatText (hx : ofFloat? x = some b) (hb : b.significand ≠ 0) :
    Denotes (hexFloatText x) b.magnitude := by
  obtain ⟨hdigit, hsignificand, hexponent⟩ := significand_eq hx hb
  obtain ⟨hrow, hlength⟩ := row_fractionDigits x
  have hwhole : Numeral.Row 16 ([(leadOf x).1] ++ fractionDigits x) b.significand := by
    rw [hsignificand, ← hlength]
    exact hrow.cons hdigit
  obtain ⟨m, k, hmantissa, hvalue⟩ := Numeral.exists_trimmed hwhole (by simp) (by decide)
  have hscale : b.magnitude = (b.significand : ℚ) / 16 ^ 13 * 2 ^ (leadOf x).2 := by
    rw [magnitude, hexponent, zpow_sub₀ (by norm_num)]
    norm_num
    field_simp
  rw [hlength, Nat.cast_ofNat] at hvalue
  rw [hexFloatText_eq, hscale, ← hvalue]
  exact .hexadecimal hmantissa (.marked (Numeral.row_digits _))

end Format

/-! ### Integers with fourteen digits -/

/-- The unit of the last of fourteen significant digits. -/
def lastUnit (n : Nat) : Nat := 10 ^ (Nat.log 10 n - 13)

/-- The nearest number with fourteen significant digits; a tie goes to the even digit. -/
def rounded (n : Nat) : Nat := Decimal.roundDiv n (lastUnit n) * lastUnit n

/-- The nearest integer with fourteen significant digits. -/
def fourteenDigits (n : ℤ) : ℤ := n.sign * rounded n.natAbs

theorem lastUnit_pos (n : Nat) : 0 < lastUnit n := Nat.pow_pos (by decide)

theorem rounded_of_dvd {n : Nat} (h : lastUnit n ∣ n) : rounded n = n := by
  rw [rounded, Decimal.roundDiv_of_dvd (lastUnit_pos n) h, Nat.div_mul_cancel h]

theorem rounded_of_lt {n : Nat} (h : n < 10 ^ 14) : rounded n = n := by
  refine rounded_of_dvd ?_
  have hlog : Nat.log 10 n ≤ 13 := Nat.lt_succ_iff.mp (Nat.log_lt_of_lt_pow' (by decide) h)
  rw [lastUnit, Nat.sub_eq_zero_of_le hlog]
  exact Nat.one_dvd n

theorem rounded_zero : rounded 0 = 0 := rounded_of_lt (by decide)

/-- An integer is left as it is if and only if all digits behind the fourteenth are zero. -/
theorem fourteenDigits_eq_iff (n : ℤ) :
    fourteenDigits n = n ↔ lastUnit n.natAbs ∣ n.natAbs := by
  constructor
  · intro h
    have habs : n.sign.natAbs * rounded n.natAbs = n.natAbs := by
      rw [← Int.natAbs_natCast (rounded n.natAbs), ← Int.natAbs_mul]
      exact congrArg Int.natAbs h
    have hdvd : lastUnit n.natAbs ∣ n.sign.natAbs * rounded n.natAbs :=
      Nat.dvd_mul_left_of_dvd (Nat.dvd_mul_left _ _) _
    rwa [habs] at hdvd
  · intro h
    rw [fourteenDigits, rounded_of_dvd h, Int.sign_mul_natAbs]

namespace Number

open Binary

variable {x : Float} {b : Binary} {n den : Nat}

theorem floorLog10_whole (hden : 0 < den) (hn : n ≠ 0) :
    Decimal.floorLog10 (n * den) den = Nat.log 10 n := by
  have hle : den ≤ n * den := Nat.le_mul_of_pos_left den (Nat.pos_of_ne_zero hn)
  have hlength : (Decimal.digits n).length = Nat.log 10 n + 1 :=
    Numeral.length_toDigits (by decide) n
  rw [Decimal.floorLog10, if_pos hle, Nat.mul_div_cancel n hden, hlength]
  omega

/-- An integer is written positionally if it has at most fourteen digits. -/
theorem isPositional_whole (hq : b.quotient.1 = n * b.quotient.2) (hn : n ≠ 0) :
    isPositional b = true ↔ n < 10 ^ 14 := by
  have hden := b.quotient_pos
  have hle : b.quotient.2 ≤ n * b.quotient.2 :=
    Nat.le_mul_of_pos_left _ (Nat.pos_of_ne_zero hn)
  have hhigh : n * b.quotient.2 * 10 < (10 ^ 15 - 2) * b.quotient.2 ↔ n < 10 ^ 14 := by
    rw [Nat.mul_right_comm, Nat.mul_lt_mul_right hden]
    omega
  have hlow : (10 ^ 19 - 11500) * b.quotient.2 ≤ n * b.quotient.2 * 10 ^ 23 := by omega
  have hboth : isPositional b = true ↔
      (10 ^ 19 - 11500) * b.quotient.2 ≤ b.quotient.1 * 10 ^ 23 ∧
        b.quotient.1 * 10 < (10 ^ 15 - 2) * b.quotient.2 := by
    have hdef : isPositional b = (decide ((10 ^ 19 - 11500) * b.quotient.2 ≤
        b.quotient.1 * 10 ^ 23) && decide (b.quotient.1 * 10 < (10 ^ 15 - 2) * b.quotient.2)) := rfl
    rw [hdef, Bool.and_eq_true, decide_eq_true_iff, decide_eq_true_iff]
  rw [hboth, hq, hhigh]
  exact and_iff_right hlow

/-- A number with up to fourteen digits is written out. -/
theorem fixed_whole (hq : b.quotient.1 = n * b.quotient.2) (places : Nat) :
    Decimal.fixed places b = Decimal.withPoint places (n * 10 ^ places) := by
  have hround : Decimal.roundDiv (b.quotient.1 * 10 ^ places) b.quotient.2 = n * 10 ^ places := by
    have hmul : b.quotient.1 * 10 ^ places = n * 10 ^ places * b.quotient.2 := by
      rw [hq, Nat.mul_right_comm]
    rw [hmul, Decimal.roundDiv_of_dvd b.quotient_pos (Nat.dvd_mul_left _ _),
      Nat.mul_div_cancel _ b.quotient_pos]
  rw [← hround]
  rfl

/-- A number with more digits is rounded to fourteen of them. -/
theorem scientific_whole (hq : b.quotient.1 = n * b.quotient.2) (hn : 10 ^ 14 ≤ n) :
    ∃ (m : Nat) (e : ℤ), Decimal.scientific 13 b = (m, e) ∧
      (m : ℚ) / 10 ^ 13 * 10 ^ e = rounded n := by
  have hn0 : n ≠ 0 := by omega
  have hlog : 14 ≤ Nat.log 10 n := Nat.le_log_of_pow_le (by decide) hn
  have hzero : ¬ b.isZero = true := (isZero_iff hq).not.mpr hn0
  have hround : Decimal.roundDiv (b.quotient.1 * 10 ^ ((13 : ℤ) - Nat.log 10 n).toNat)
      (b.quotient.2 * 10 ^ (-((13 : ℤ) - Nat.log 10 n)).toNat) =
        Decimal.roundDiv n (lastUnit n) := by
    have hup : ((13 : ℤ) - Nat.log 10 n).toNat = 0 := by omega
    have hdown : (-((13 : ℤ) - Nat.log 10 n)).toNat = Nat.log 10 n - 13 := by omega
    rw [hup, hdown, hq, Nat.pow_zero, Nat.mul_one, Nat.mul_comm b.quotient.2,
      ← Decimal.roundDiv_mul_right b.quotient_pos n]
    rfl
  have hscientific : Decimal.scientific 13 b =
      if Decimal.roundDiv n (lastUnit n) = 10 ^ 14 then (10 ^ 13, (Nat.log 10 n : ℤ) + 1)
      else (Decimal.roundDiv n (lastUnit n), (Nat.log 10 n : ℤ)) := by
    have hfloor : Decimal.floorLog10 b.quotient.1 b.quotient.2 = Nat.log 10 n := by
      rw [hq, floorLog10_whole b.quotient_pos hn0]
    rw [Decimal.scientific, if_neg hzero, ← hround, ← hfloor]
    rfl
  -- the last unit and thirteen more places make up the exponent
  obtain ⟨j, hj⟩ : ∃ j, Nat.log 10 n = 13 + j := ⟨Nat.log 10 n - 13, by omega⟩
  have hunit : (lastUnit n : ℚ) = 10 ^ j := by
    rw [lastUnit, hj, Nat.add_sub_cancel_left, Nat.cast_pow, Nat.cast_ofNat]
  have hpow : (10 : ℚ) ^ (Nat.log 10 n : ℤ) = 10 ^ 13 * 10 ^ j := by
    rw [zpow_natCast, hj, pow_add]
  rw [hscientific]
  split
  · rename_i htop
    refine ⟨_, _, rfl, ?_⟩
    rw [zpow_add_one₀ (by norm_num), hpow, rounded, htop, Nat.cast_mul, hunit]
    norm_num
    ring
  · refine ⟨_, _, rfl, ?_⟩
    rw [hpow, rounded, Nat.cast_mul, hunit]
    field_simp

/-- The text of an integral magnitude, but for the point that marks it. -/
theorem exists_magnitudeText (hq : b.quotient.1 = n * b.quotient.2) (hn : n ≠ 0) :
    ∃ s tail m k e, magnitudeText b = s ++ tail ∧ Mantissa 10 s m k ∧ Exponent 'e' tail e ∧
      (m : ℚ) / 10 ^ k * 10 ^ e = rounded n := by
  by_cases hpositional : isPositional b = true
  · have hsmall := (isPositional_whole hq hn).mp hpositional
    have hround := rounded_of_lt hsmall
    obtain ⟨s, m, k, htext, hmantissa, hvalue⟩ :=
      Decimal.exists_mantissa_trimFraction _ (n * 10 ^ _) .none
    refine ⟨s, [], m, k, 0, ?_, hmantissa, .none, ?_⟩
    · rw [magnitudeText, if_pos hpositional, ← htext, List.append_nil, ← fixed_whole hq]
    · rw [hvalue, hround]
      simp
  · have hlarge := Nat.le_of_not_lt (mt (isPositional_whole hq hn).mpr hpositional)
    obtain ⟨m, e, hscientific, hvalue⟩ := scientific_whole hq hlarge
    have htail : Exponent 'e' ('e' :: Decimal.exponentText e) e :=
      .marked ((Numeral.row_digits _).zeros (by decide) _)
    obtain ⟨s, m', k, htext, hmantissa, hsame⟩ :=
      Decimal.exists_mantissa_trimFraction 13 m htail
    refine ⟨s, _, m', k, e, ?_, hmantissa, htail, by rw [hsame, hvalue]⟩
    rw [magnitudeText, if_neg hpositional, ← htext, Decimal.scientificText]
    simp [textDigits, hscientific]

/-- **The text of an integral float** denotes the integer that is rounded to fourteen digits. -/
theorem exists_floatText (hx : ofFloat? x = some b) (hq : b.quotient.1 = n * b.quotient.2) :
    ∃ t, floatText x = (if b.negative then ['-'] else []) ++ t ∧ Denotes t (rounded n) := by
  have hbody : ∃ s tail m k e, (if b.isZero then ['0'] else magnitudeText b) = s ++ tail ∧
      Mantissa 10 s m k ∧ Exponent 'e' tail e ∧ (m : ℚ) / 10 ^ k * 10 ^ e = rounded n := by
    by_cases hn : n = 0
    · have hzero : Numeral.Row 10 ['0'] 0 := Numeral.row_digits 0
      refine ⟨['0'], [], 0, 0, 0, ?_, .whole hzero, .none, by simp [hn, rounded_zero]⟩
      rw [if_pos ((isZero_iff hq).mpr hn), List.append_nil]
    · rw [if_neg ((isZero_iff hq).not.mpr hn)]
      exact exists_magnitudeText hq hn
  obtain ⟨s, tail, m, k, e, htext, hmantissa, htail, hvalue⟩ := hbody
  refine ⟨_, ?_, hvalue ▸ Denotes.marked hmantissa htail⟩
  rw [floatText, ← htext, negative_of_ofFloat? hx]
  simp only [hx, List.append_assoc]

end Number

/-! ### The literal of a float -/

namespace Format

open Binary

variable {x : Float} {b : Binary} {n : ℤ}

theorem sign_negative (b : Binary) :
    Numeral.Sign (if b.negative then ['-'] else []) b.negative := by
  cases b.negative with
  | false => exact .none
  | true => exact .minus

/-- A float with a fraction is written exactly. -/
theorem literal?_quoteFloat_fraction (hx : ofFloat? x = some b) (h : ∀ n : ℤ, b.toRat ≠ n) :
    literal? ((quoteFloat x).map Ascii.byte) = some b.toRat := by
  have hintegral : ¬ b.isIntegral = true := by
    rw [isIntegral_iff, not_exists]
    exact h
  have hb : b.significand ≠ 0 := by
    intro hzero
    refine h 0 ?_
    simp [toRat, magnitude, hzero]
  have htext : quoteFloat x = (if b.negative then ['-'] else []) ++ hexFloatText x := by
    rw [quoteFloat, hx]
    exact if_neg hintegral
  rw [htext, (denotes_hexFloatText hx hb).literal (sign_negative b)]
  rfl

/-- An integral float is written as the integer rounded to fourteen digits. -/
theorem literal?_quoteFloat_integral (hx : ofFloat? x = some b) (h : b.toRat = n) :
    literal? ((quoteFloat x).map Ascii.byte) = some (fourteenDigits n : ℚ) := by
  have hintegral : b.isIntegral = true := (isIntegral_iff b).mpr ⟨n, h⟩
  obtain ⟨t, htext, hdenotes⟩ := Number.exists_floatText hx (quotient_of_toRat h)
  have hquote : quoteFloat x = (if b.negative then ['-'] else []) ++ t := by
    rw [quoteFloat, hx, ← htext]
    exact if_pos hintegral
  have hsigned : (if b.negative then -(rounded n.natAbs : ℚ) else rounded n.natAbs) =
      fourteenDigits n := by
    rw [fourteenDigits]
    by_cases hn : n = 0
    · subst hn
      simp [rounded_zero]
    · by_cases hneg : n < 0
      · rw [if_pos ((negative_of_toRat h hn).mpr hneg), Int.sign_eq_neg_one_of_neg hneg]
        simp
      · have hpos : 0 < n := by omega
        rw [if_neg ((negative_of_toRat h hn).not.mpr hneg), Int.sign_eq_one_of_pos hpos]
        simp
  rw [hquote, hdenotes.literal (sign_negative b), hsigned]

end Format

/-! ### Floats in formats -/

namespace Library.Strings

open Binary (ofFloat?)

variable {H : Host} {x : Float} {b : Binary}

/-- What the literal conversion gives for a float. -/
theorem format_quotedFloat (x : Float) (more : List Value) :
    (format (.ofText "%q" :: .float x :: more) : Program H (List Value)) =
      .done [.string ((Format.quoteFloat x).map Ascii.byte)] :=
  format_quoteValue rfl more

/-- **Literals of floats.**  What `format` gives for a finite float with `%q` is a literal.  It
denotes exactly the float if this has a fraction, and the integer rounded to fourteen significant
digits if it has none.  So it is exact unless the float is an integer with other digits than zeros
behind the fourteenth. -/
theorem format_floatLiteral (host : HostCode H) (hx : ofFloat? x = some b) :
    ∃ text : Bytes,
      (∀ (w : World H) (more : List Value), ((Behaviour.standard host).builtin (.string .format)
        (.ofText "%q" :: .float x :: more)).Runs (.standard host) w (.ok [.string text]) w) ∧
      ((∀ n : ℤ, b.toRat ≠ n) → literal? text = some b.toRat) ∧
      (∀ n : ℤ, b.toRat = n → literal? text = some (fourteenDigits n : ℚ)) ∧
      (literal? text = some b.toRat ↔ ∀ n : ℤ, b.toRat = n → lastUnit n.natAbs ∣ n.natAbs) := by
  refine ⟨_, fun w more => Program.runs_of_eq_done (format_quotedFloat x more),
    Format.literal?_quoteFloat_fraction hx, fun n => Format.literal?_quoteFloat_integral hx, ?_⟩
  by_cases h : ∃ n : ℤ, b.toRat = n
  · obtain ⟨n, hn⟩ := h
    have honly : ∀ k : ℤ, b.toRat = k ↔ k = n := fun k => by
      rw [hn]
      exact ⟨fun hk => (Int.cast_injective hk).symm, fun hk => by rw [hk]⟩
    rw [Format.literal?_quoteFloat_integral hx hn, hn, Option.some.injEq]
    simp only [← hn, honly, forall_eq]
    rw [hn, Int.cast_inj, fourteenDigits_eq_iff]
  · rw [not_exists] at h
    exact iff_of_true (Format.literal?_quoteFloat_fraction hx h) fun n hn => absurd hn (h n)

/-- The float nearest to a tenth, exactly. -/
theorem format_floatLiteral_tenth :
    let x := Float.ofBits 0x3FB999999999999A
    let b : Binary := ⟨false, 0x1999999999999A, -56⟩
    ofFloat? x = some b ∧
      (Behaviour.bare.builtin (.string .format) [.ofText "%q", .float x]).Runs .bare .bare
        (.ok [.ofText "0x1.999999999999ap-4"]) .bare ∧
      literal? (Bytes.ofString "0x1.999999999999ap-4") = some b.toRat := by
  intro x b
  have hx : ofFloat? x = some b := by decide +kernel
  have hfraction : ∀ n : ℤ, b.toRat ≠ n := by
    rw [← not_exists, ← Binary.isIntegral_iff]
    decide
  have hquote : (Format.quoteFloat x).map Ascii.byte = Bytes.ofString "0x1.999999999999ap-4" := by
    decide +kernel
  have htext := Program.runs_of_eq_done (B := Behaviour.bare) (w := World.bare)
    (format_quotedFloat x [])
  rw [hquote] at htext
  obtain ⟨text, hruns, hliteral, -⟩ := format_floatLiteral .bare hx
  have hvalue := (hruns World.bare []).string_unique htext
  exact ⟨hx, htext, hvalue ▸ hliteral hfraction⟩

/-- Two neighbouring integers, with one literal for both. -/
theorem one_literal_for_two :
    let x := Float.ofBits 0x42D6BCC41E900000
    let y := Float.ofBits 0x42D6BCC41E900040
    ofFloat? x = some ⟨false, 10 ^ 14 * 64, -6⟩ ∧
      ofFloat? y = some ⟨false, (10 ^ 14 + 1) * 64, -6⟩ ∧
      (Binary.toRat ⟨false, 10 ^ 14 * 64, -6⟩ : ℚ) = 10 ^ 14 ∧
      (Binary.toRat ⟨false, (10 ^ 14 + 1) * 64, -6⟩ : ℚ) = 10 ^ 14 + 1 ∧
      ∀ z ∈ [x, y], (Behaviour.bare.builtin (.string .format) [.ofText "%q", .float z]).Runs
        .bare .bare (.ok [.ofText "1e+14"]) .bare := by
  intro x y
  have hx : (Format.quoteFloat x).map Ascii.byte = Bytes.ofString "1e+14" := by decide +kernel
  have hy : (Format.quoteFloat y).map Ascii.byte = Bytes.ofString "1e+14" := by decide +kernel
  have hruns : ∀ z, (Format.quoteFloat z).map Ascii.byte = Bytes.ofString "1e+14" →
      (Behaviour.bare.builtin (.string .format) [.ofText "%q", .float z]).Runs .bare .bare
        (.ok [.ofText "1e+14"]) .bare := by
    intro z hz
    refine Program.runs_of_eq_done ((format_quotedFloat z []).trans ?_)
    rw [hz]
    rfl
  refine ⟨by decide +kernel, by decide +kernel, ?_, ?_, ?_⟩
  · norm_num [Binary.toRat, Binary.magnitude]
  · norm_num [Binary.toRat, Binary.magnitude]
  · intro z hz
    simp only [List.mem_cons, List.not_mem_nil, or_false] at hz
    rcases hz with rfl | rfl
    · exact hruns x hx
    · exact hruns y hy

end Library.Strings

end Lua
