/-
The equality of the language.

`Value.equals` compares numbers by value: an integer and a float are equal if the float's
exact integer value is that integer, and two floats are compared as floats.  Neither half
is obviously transitive with the other, for a float is compared through its bits in one
case and through the whole number those bits stand for in the other.  This module shows
that the halves agree:

* `Binary.ofFloat?_eq` — the fraction read off a float's bits is the float's own value, and
  `Binary.Canonical` says which fractions occur;
* `Number.beq_of_integerOfFloat?` — two floats with the same integer value are equal floats;
* `Number.integerOfFloat?_congr` — equal floats have the same integer value;
* `Value.equals_symm`, `Value.equals_trans` — equality is symmetric and transitive;
* `Value.equals_self_iff` — every value but a NaN equals itself.

Design notes: a canonical fraction has 53 bits unless its exponent is least, so the value
determines it up to the sign of zero.  Values are compared on the common grid of
multiples of 2⁻¹⁰⁷⁴, which keeps everything in natural numbers.
-/
import Lua.Value
import Mathlib

open Float.Model

namespace Lua

/-! ### The fraction of a float -/

namespace Binary

/-- The fractions that floats have: 53 bits, fewer only at the least exponent. -/
structure Canonical (b : Binary) : Prop where
  bits : b.significand < 2 ^ 53
  least : -1074 ≤ b.exponent
  full : b.exponent = -1074 ∨ 2 ^ 52 ≤ b.significand

/-- Whether a sign is that of a negative number. -/
def isNegative : UnpackedFloat.Sign → Bool
  | .negative => true
  | .positive => false

/-- The value of an unpacked float. -/
def ofUnpacked? : UnpackedFloat → Option Binary
  | .notANumber | .infinity _ => none
  | .zero s => some ⟨isNegative s, 0, -1074⟩
  | .finite s m e _ => some ⟨isNegative s, m, e⟩

variable (x : Float)

theorem toNat_unpackExponent :
    (@UnpackedFloat.unpackExponent Format.binary64 x.toBits.toBitVec).toNat
      = exponentField x := by
  simp [UnpackedFloat.unpackExponent, exponentField]

theorem toNat_unpackMantissa :
    (@UnpackedFloat.unpackMantissa Format.binary64 x.toBits.toBitVec).toNat
      = fractionField x := by
  simp [UnpackedFloat.unpackMantissa, fractionField]

theorem isNegative_ofBitVec (b : BitVec 1) :
    isNegative (UnpackedFloat.Sign.ofBitVec b) = decide (b.toNat = 1) := by
  revert b
  decide

theorem isNegative_unpackSign :
    isNegative (UnpackedFloat.Sign.ofBitVec
        (@UnpackedFloat.unpackSign Format.binary64 x.toBits.toBitVec))
      = signField x := by
  have hlt : x.toBits.toNat < 2 ^ 64 := x.toBits.toNat_lt
  have hnat : (@UnpackedFloat.unpackSign Format.binary64 x.toBits.toBitVec).toNat
      = x.toBits.toNat / 2 ^ 63 % 2 := by
    simp [UnpackedFloat.unpackSign, Nat.shiftRight_eq_div_pow]
  rw [isNegative_ofBitVec, hnat, signField, decide_eq_decide, Nat.shiftLeft_eq]
  omega

theorem exponentField_lt : exponentField x < 2 ^ 11 := Nat.mod_lt _ (by decide)

theorem fractionField_lt : fractionField x < 2 ^ 52 := Nat.mod_lt _ (by decide)

/-- The implicit bit stands above the fraction. -/
theorem toNat_implicit (f : BitVec 52) : (1#1 ++ f).toNat = (1 <<< 52) + f.toNat := by
  rw [BitVec.toNat_append, ← Nat.shiftLeft_add_eq_or_of_lt f.isLt]
  rfl

/-- The fraction read off the bits is the float's value. -/
theorem ofFloat?_eq : ofFloat? x = ofUnpacked? x.toModel.unpack := by
  have hexp := toNat_unpackExponent x
  have hfrac := toNat_unpackMantissa x
  have hsign := isNegative_unpackSign x
  have hfull := toNat_implicit (@UnpackedFloat.unpackMantissa Format.binary64
    x.toBits.toBitVec)
  show ofFloat? x = ofUnpacked? (UnpackedFloat.unpack Format.binary64 x.toBits.toBitVec)
  unfold ofFloat? UnpackedFloat.unpack
  -- infinities and NaNs, then zeros and subnormal floats, then normal floats
  by_cases htop : exponentField x = 2047
  · have he : @UnpackedFloat.unpackExponent Format.binary64 x.toBits.toBitVec
        = -1#11 := BitVec.eq_of_toNat_eq (by rw [hexp, htop]; rfl)
    simp only [if_pos htop, if_pos he]
    split <;> rfl
  have he : @UnpackedFloat.unpackExponent Format.binary64 x.toBits.toBitVec
      ≠ -1#11 := by
    intro h
    rw [h] at hexp
    exact htop hexp.symm
  by_cases hbot : exponentField x = 0
  · have he' : @UnpackedFloat.unpackExponent Format.binary64 x.toBits.toBitVec
        = 0#11 := BitVec.eq_of_toNat_eq (by rw [hexp, hbot]; rfl)
    simp only [if_neg htop, if_neg he, if_pos hbot, if_pos he', hexp]
    by_cases hf : @UnpackedFloat.unpackMantissa Format.binary64 x.toBits.toBitVec
        = 0#52
    · have hf0 : fractionField x = 0 := by
        rw [← hfrac, hf]
        rfl
      simp only [dif_pos hf, hf0]
      exact congrArg some (by rw [hsign])
    · simp only [dif_neg hf]
      show some _ = some _
      rw [hsign, hfrac, hbot]
      rfl
  have he' : @UnpackedFloat.unpackExponent Format.binary64 x.toBits.toBitVec
      ≠ 0#11 := by
    intro h
    rw [h] at hexp
    exact hbot hexp.symm
  simp only [if_neg htop, if_neg he, if_neg hbot, if_neg he']
  show some _ = some _
  rw [hsign, hfull, hfrac, hexp]
  rfl

theorem ofFloat?_canonical {x : Float} {b : Binary} (h : ofFloat? x = some b) : b.Canonical := by
  have hexp := exponentField_lt x
  have hfrac := fractionField_lt x
  simp only [ofFloat?] at h
  split_ifs at h with htop hbot
  · obtain rfl := Option.some.inj h
    exact ⟨by dsimp only; omega, le_refl _, Or.inl rfl⟩
  · obtain rfl := Option.some.inj h
    refine ⟨?_, ?_, Or.inr ?_⟩ <;> dsimp only <;> omega

/-! ### Fractions by value -/

/-- All floats are multiples of two to minus this power. -/
def gridBits : Nat := 1074

/-- The magnitude in units of the grid. -/
def grid (b : Binary) : Nat := b.significand * 2 ^ (b.exponent + gridBits).toNat

theorem Canonical.grid_lt_of_exponent_lt {a b : Binary} (ha : a.Canonical) (hb : b.Canonical)
    (h : a.exponent < b.exponent) : a.grid < b.grid := by
  have hleast := ha.least
  obtain ⟨d, hd⟩ : ∃ d : Nat,
      (b.exponent + gridBits).toNat = d + 1 + (a.exponent + gridBits).toNat :=
    ⟨(b.exponent - a.exponent - 1).toNat, by rw [gridBits]; omega⟩
  have hfull : 2 ^ 52 ≤ b.significand := hb.full.resolve_left (by omega)
  have hpow : 2 ≤ 2 ^ (d + 1) := by
    rw [Nat.pow_succ]
    exact Nat.le_mul_of_pos_left _ (Nat.two_pow_pos d)
  have hsig : a.significand < b.significand * 2 ^ (d + 1) := by
    have hbits := ha.bits
    have := Nat.mul_le_mul hfull hpow
    omega
  calc a.grid < b.significand * 2 ^ (d + 1) * 2 ^ (a.exponent + gridBits).toNat :=
        Nat.mul_lt_mul_of_pos_right hsig (Nat.two_pow_pos _)
    _ = b.grid := by rw [grid, hd, Nat.pow_add _ (d + 1), Nat.mul_assoc]

/-- A canonical fraction is the only one with its value. -/
theorem Canonical.eq_of_grid_eq {a b : Binary} (ha : a.Canonical) (hb : b.Canonical)
    (h : a.grid = b.grid) : a.significand = b.significand ∧ a.exponent = b.exponent := by
  have he : a.exponent = b.exponent :=
    le_antisymm (not_lt.mp fun hlt => (hb.grid_lt_of_exponent_lt ha hlt).ne' h)
      (not_lt.mp fun hlt => (ha.grid_lt_of_exponent_lt hb hlt).ne h)
  refine ⟨?_, he⟩
  rw [grid, grid, he] at h
  exact Nat.eq_of_mul_eq_mul_right (Nat.two_pow_pos _) h

theorem truncate_eq (b : Binary) : b.truncate =
    if b.negative then -((b.quotient.1 / b.quotient.2 : Nat) : Int)
    else ((b.quotient.1 / b.quotient.2 : Nat) : Int) := rfl

theorem toInt?_eq_some_iff {b : Binary} {n : Int} :
    b.toInt? = some n ↔ b.quotient.1 % b.quotient.2 = 0 ∧ b.truncate = n := by
  rw [toInt?, Option.ite_none_right_eq_some, Option.some.injEq]
  exact and_congr_left' (decide_eq_true_iff)

/-- An integral fraction in units of the grid. -/
theorem grid_of_toInt? {b : Binary} {n : Int} (hc : b.Canonical) (h : b.toInt? = some n) :
    b.grid = n.natAbs * 2 ^ gridBits := by
  obtain ⟨hdvd, rfl⟩ := toInt?_eq_some_iff.mp h
  have habs : b.truncate.natAbs = b.quotient.1 / b.quotient.2 := by
    rw [truncate_eq]
    split
    · rw [Int.natAbs_neg, Int.natAbs_natCast]
    · rw [Int.natAbs_natCast]
  have hquot : b.truncate.natAbs * b.quotient.2 = b.quotient.1 := by
    rw [habs]
    exact Nat.div_mul_cancel (Nat.dvd_of_mod_eq_zero hdvd)
  simp only [quotient, Nat.shiftLeft_eq, Nat.one_mul] at hquot
  have hleast := hc.least
  rcases le_or_gt 0 b.exponent with hpos | hneg
  · -- the exponent shifts to the left
    have hsum : (b.exponent + gridBits).toNat = b.exponent.toNat + gridBits := by omega
    have hzero : (-b.exponent).toNat = 0 := by omega
    rw [hzero, Nat.pow_zero, Nat.mul_one] at hquot
    rw [grid, hsum, Nat.pow_add, ← Nat.mul_assoc, hquot]
  · -- and here to the right, by as much as the grid is finer
    have hsum : gridBits = (-b.exponent).toNat + (b.exponent + gridBits).toNat := by
      rw [gridBits]
      omega
    have hzero : b.exponent.toNat = 0 := by omega
    rw [hzero, Nat.pow_zero, Nat.mul_one] at hquot
    rw [grid, ← hquot, Nat.mul_assoc, ← Nat.pow_add, ← hsum]

/-- The sign of an integral fraction other than zero. -/
theorem negative_of_toInt? {b : Binary} {n : Int} (h : b.toInt? = some n) (hn : n ≠ 0) :
    b.negative = decide (n < 0) := by
  obtain ⟨-, rfl⟩ := toInt?_eq_some_iff.mp h
  rw [truncate_eq] at hn ⊢
  generalize b.negative = negative, b.quotient.1 / b.quotient.2 = k at hn ⊢
  cases negative with
  | false => exact (decide_eq_false (not_lt.mpr (Int.natCast_nonneg k))).symm
  | true => exact (decide_eq_true (Int.neg_neg_of_pos (Int.natCast_pos.mpr (by omega)))).symm

theorem toInt?_of_isZero {b : Binary} (h : b.isZero) : b.toInt? = some 0 := by
  have hs : b.significand = 0 := of_decide_eq_true h
  refine toInt?_eq_some_iff.mpr ⟨?_, ?_⟩
  · rw [quotient, hs, Nat.zero_shiftLeft, Nat.zero_mod]
  · rw [truncate_eq, quotient, hs, Nat.zero_shiftLeft, Nat.zero_div]
    split <;> rfl

/-- Fractions that stand for one number: the two zeros do. -/
def Alike (a b : Binary) : Prop := a = b ∨ a.isZero ∧ b.isZero

theorem Alike.toInt?_eq {a b : Binary} (h : Alike a b) : a.toInt? = b.toInt? := by
  rcases h with rfl | ⟨ha, hb⟩
  · rfl
  · rw [toInt?_of_isZero ha, toInt?_of_isZero hb]

/-- Canonical fractions with one integer value stand for one number. -/
theorem alike_of_toInt? {a b : Binary} {n : Int} (hca : a.Canonical) (hcb : b.Canonical)
    (ha : a.toInt? = some n) (hb : b.toInt? = some n) : Alike a b := by
  have hga := grid_of_toInt? hca ha
  have hgb := grid_of_toInt? hcb hb
  obtain ⟨hsig, hexp⟩ := hca.eq_of_grid_eq hcb (hga.trans hgb.symm)
  by_cases hn : n = 0
  · have hzero : a.significand = 0 := by
      rw [grid, hn, Int.natAbs_zero, Nat.zero_mul] at hga
      exact (Nat.mul_eq_zero.mp hga).resolve_right (Nat.two_pow_pos _).ne'
    exact Or.inr ⟨decide_eq_true hzero, decide_eq_true (hsig ▸ hzero)⟩
  · refine Or.inl ?_
    have hneg := (negative_of_toInt? ha hn).trans (negative_of_toInt? hb hn).symm
    obtain ⟨negative, significand, exponent⟩ := a
    obtain ⟨negative', significand', exponent'⟩ := b
    obtain rfl : negative = negative' := hneg
    obtain rfl : significand = significand' := hsig
    obtain rfl : exponent = exponent' := hexp
    rfl

end Binary

/-! ### Equal floats -/

theorem alike_of_unpacked_beq {u v : UnpackedFloat} (h : u.beq v = true) :
    (Binary.ofUnpacked? u = none ∧ Binary.ofUnpacked? v = none) ∨
      ∃ a b, Binary.ofUnpacked? u = some a ∧ Binary.ofUnpacked? v = some b ∧ a.Alike b := by
  obtain ⟨-, -, huv⟩ := (UnpackedFloat.beq_iff_ne_notANumber_and_eq u v).mp h
  rcases huv with rfl | ⟨rfl, rfl⟩ | ⟨rfl, rfl⟩
  · cases hu : Binary.ofUnpacked? u with
    | none => exact Or.inl ⟨rfl, rfl⟩
    | some a => exact Or.inr ⟨a, a, rfl, rfl, Or.inl rfl⟩
  · exact Or.inr ⟨_, _, rfl, rfl, Or.inr ⟨rfl, rfl⟩⟩
  · exact Or.inr ⟨_, _, rfl, rfl, Or.inr ⟨rfl, rfl⟩⟩

theorem unpacked_beq_of_alike {u v : UnpackedFloat} {a b : Binary}
    (hu : Binary.ofUnpacked? u = some a) (hv : Binary.ofUnpacked? v = some b) (h : a.Alike b) :
    u.beq v = true := by
  have hsign : ∀ {s s'}, Binary.isNegative s = Binary.isNegative s' → s = s' := by
    rintro ⟨⟩ ⟨⟩ h <;> first | rfl | cases h
  refine (UnpackedFloat.beq_iff_ne_notANumber_and_eq u v).mpr ?_
  cases u <;> cases v <;> cases hu <;> cases hv
  case zero.zero s s' =>
    refine ⟨nofun, nofun, ?_⟩
    cases s <;> cases s' <;> simp
  case zero.finite s s' m e hm =>
    rcases h with h | ⟨-, h⟩
    · exact absurd (congrArg Binary.significand h) hm.ne
    · exact absurd (of_decide_eq_true h) hm.ne'
  case finite.zero m e hm s =>
    rcases h with h | ⟨h, -⟩
    · exact absurd (congrArg Binary.significand h) hm.ne'
    · exact absurd (of_decide_eq_true h) hm.ne'
  case finite.finite m e hm s m' e' hm' =>
    rcases h with h | ⟨h, -⟩
    · obtain ⟨hs, rfl, rfl⟩ := Binary.mk.inj h
      cases hsign hs
      exact ⟨nofun, nofun, Or.inl rfl⟩
    · exact absurd (of_decide_eq_true h) hm.ne'

namespace Number

variable {x y : Float}

theorem beq_self_iff : x.beq x = true ↔ ¬ x.isNaN = true := by
  rw [Float.isNaN_eq_decide_eq_nan, decide_eq_true_eq]
  exact Float.beq_self_iff

/-- Equal floats have the same integer value. -/
theorem integerOfFloat?_congr (h : x.beq y = true) : integerOfFloat? x = integerOfFloat? y := by
  unfold integerOfFloat?
  rw [Binary.ofFloat?_eq, Binary.ofFloat?_eq]
  rcases alike_of_unpacked_beq h with ⟨hx, hy⟩ | ⟨a, b, hx, hy, hab⟩
  · rw [hx, hy]
  · rw [hx, hy]
    show (a.toInt?).bind representable? = (b.toInt?).bind representable?
    rw [hab.toInt?_eq]

/-- Floats with one integer value are equal. -/
theorem beq_of_integerOfFloat? {i : Int64} (hx : integerOfFloat? x = some i)
    (hy : integerOfFloat? y = some i) : x.beq y = true := by
  simp only [integerOfFloat?, Option.bind_eq_bind, Option.bind_eq_some_iff] at hx hy
  obtain ⟨a, hxa, m, ham, hm⟩ := hx
  obtain ⟨b, hyb, n, hbn, hn⟩ := hy
  obtain rfl := (representable?_eq_some_iff.mp hm).symm.trans (representable?_eq_some_iff.mp hn)
  have hab := Binary.alike_of_toInt? (Binary.ofFloat?_canonical hxa)
    (Binary.ofFloat?_canonical hyb) ham hbn
  rw [Binary.ofFloat?_eq] at hxa hyb
  exact unpacked_beq_of_alike hxa hyb hab

/-! ### Equal numbers -/

theorem equals_symm {a b : Number} (h : a.equals b = true) : b.equals a = true := by
  cases a <;> cases b
  case int.int => exact beq_iff_eq.mpr (beq_iff_eq.mp h).symm
  case int.float => exact h
  case float.int => exact h
  case float.float x y => exact PartialEquivBEq.symm (α := Float) h

theorem equals_trans {a b c : Number} (hab : a.equals b = true) (hbc : b.equals c = true) :
    a.equals c = true := by
  cases a <;> cases b <;> cases c
  case int.int.int => exact (beq_iff_eq.mp hab) ▸ hbc
  case int.int.float => exact (beq_iff_eq.mp hab) ▸ hbc
  case float.int.int => exact (beq_iff_eq.mp hbc) ▸ hab
  case float.int.float =>
    exact beq_of_integerOfFloat? (beq_iff_eq.mp hab) (beq_iff_eq.mp hbc)
  case int.float.int i x j =>
    exact beq_iff_eq.mpr (Option.some.inj ((beq_iff_eq.mp hab).symm.trans (beq_iff_eq.mp hbc)))
  case int.float.float i x y =>
    exact beq_iff_eq.mpr ((integerOfFloat?_congr hbc).symm.trans (beq_iff_eq.mp hab))
  case float.float.int x y i =>
    exact beq_iff_eq.mpr ((integerOfFloat?_congr hab).trans (beq_iff_eq.mp hbc))
  case float.float.float => exact PartialEquivBEq.trans (α := Float) hab hbc

/-- A number equals an integer exactly if that is its integer value. -/
theorem int_equals_iff {i : Int64} {n : Number} :
    (Number.int i).equals n = true ↔ n.toInteger? = some i := by
  cases n
  case int j =>
    exact beq_iff_eq.trans ⟨fun h => congrArg some h.symm, fun h => (Option.some.inj h).symm⟩
  case float y => exact beq_iff_eq

/-- Equal numbers are equal to the same integer, or to none. -/
theorem toInteger?_congr {m n : Number} (h : m.equals n = true) : m.toInteger? = n.toInteger? := by
  cases m <;> cases n
  case int.int => exact congrArg some (beq_iff_eq.mp h)
  case int.float => exact (beq_iff_eq.mp h).symm
  case float.int => exact beq_iff_eq.mp h
  case float.float => exact integerOfFloat?_congr h

/-- Numbers that are equal but are no integers are one float. -/
theorem eq_of_equals {m n : Number} (h : m.equals n = true) (hm : m.toInteger? = none) : m = n := by
  cases m with
  | int i => cases hm
  | float x =>
    cases n with
    | int i => exact absurd (hm.symm.trans (toInteger?_congr h)) (Option.some_ne_none i).symm
    | float y =>
      obtain ⟨-, -, rfl | ⟨rfl, -⟩ | ⟨rfl, -⟩⟩ := Float.beq_iff_ne_nan_and_eq.mp h
      · rfl
      · exact absurd (hm.symm.trans (rfl : integerOfFloat? 0 = some 0)) nofun
      · exact absurd (hm.symm.trans (rfl : integerOfFloat? (-0) = some 0)) nofun

end Number

/-! ### Equal values -/

namespace Value

/-- A float that is not a number. -/
def IsNaN (v : Value) : Prop := ∃ x : Float, v = .float x ∧ x.isNaN = true

variable {a b c : Value}

/-- Values are equal if they are equal numbers, or one value that is not a number. -/
theorem equals_iff : a.equals b = true ↔
    (∃ m n, a = .number m ∧ b = .number n ∧ m.equals n = true) ∨
      a = b ∧ ∀ n, a ≠ .number n := by
  cases a <;> cases b <;> simp [equals]

theorem equals_symm (h : a.equals b = true) : b.equals a = true := by
  rcases equals_iff.mp h with ⟨m, n, rfl, rfl, h⟩ | ⟨rfl, hn⟩
  · exact Number.equals_symm h
  · exact h

theorem equals_trans (hab : a.equals b = true) (hbc : b.equals c = true) :
    a.equals c = true := by
  rcases equals_iff.mp hab with ⟨m, n, rfl, rfl, hab⟩ | ⟨rfl, -⟩
  · rcases equals_iff.mp hbc with ⟨_, k, hn, rfl, hbc⟩ | ⟨-, hn⟩
    · exact Number.equals_trans hab (Value.number.inj hn ▸ hbc)
    · exact absurd rfl (hn n)
  · exact hbc

theorem equals_comm : a.equals b = b.equals a :=
  Bool.eq_iff_iff.mpr ⟨equals_symm, equals_symm⟩

/-- Equal values are equal to the same values. -/
theorem equals_congr (h : a.equals b = true) (c : Value) : a.equals c = b.equals c :=
  Bool.eq_iff_iff.mpr ⟨equals_trans (equals_symm h), equals_trans h⟩

/-- Every value but a NaN equals itself. -/
theorem equals_self_iff : a.equals a = true ↔ ¬ a.IsNaN := by
  cases a
  case number n =>
    cases n with
    | int i => simp [equals, Number.equals, IsNaN, float]
    | float x =>
      refine Number.beq_self_iff.trans (not_congr ⟨fun h => ⟨x, rfl, h⟩, ?_⟩)
      rintro ⟨y, hy, h⟩
      cases hy
      exact h
  all_goals simp [equals, IsNaN, float]

end Value

end Lua
