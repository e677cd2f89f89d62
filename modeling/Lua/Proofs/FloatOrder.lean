/-
The order of floats.

A float that is not a NaN has a place on a line: the integers, which count units of 2⁻¹⁰⁷⁴, with
an end on either side for the infinities.

* `Line.compare_eq_cmp` — the order of unpacked floats is the order of their places;
* `Number.compareFloats?_eq_cmp` — so is the order of floats, with no answer only for NaN;
* `Number.beq_iff_place_eq` — floats are equal if they have the same place;
* `Number.integerOfFloat?_eq_some_iff` — a float is equal to an integer exactly if it has the
  place of that integer.

Design notes: unpacked floats are compared by sign, exponent and significand, which is the order
of values only for canonical fractions: there a greater exponent means a greater value.
-/
import Lua.Proofs.Equality

open Float.Model Float.Model.UnpackedFloat

namespace Lua

/-! ### Fractions in order -/

namespace Binary

/-- The value in units of the grid. -/
def value (b : Binary) : ℤ := if b.negative then -(b.grid : ℤ) else b.grid

theorem value_eq_zero {b : Binary} (h : b.significand = 0) : b.value = 0 := by
  rw [value, grid, h, Nat.zero_mul]
  split <;> rfl

theorem value_positive {m : Nat} (hm : 0 < m) (e : Int) : 0 < value ⟨false, m, e⟩ :=
  Int.natCast_pos.mpr (Nat.mul_pos hm (Nat.two_pow_pos _))

theorem value_negative {m : Nat} (hm : 0 < m) (e : Int) : value ⟨true, m, e⟩ < 0 :=
  Int.neg_neg_of_pos (value_positive hm e)

/-- Canonical magnitudes are in order as the exponents are, then as the significands are. -/
theorem Canonical.then_eq_cmp_grid {a b : Binary} (ha : a.Canonical) (hb : b.Canonical) :
    (compare a.exponent b.exponent).then (compare a.significand b.significand) =
      cmp a.grid b.grid := by
  rw [← cmp_eq_compare, ← cmp_eq_compare]
  rcases lt_trichotomy a.exponent b.exponent with h | h | h
  · rw [(cmp_eq_lt_iff _ _).mpr h, (cmp_eq_lt_iff _ _).mpr (ha.grid_lt_of_exponent_lt hb h)]
    rfl
  · rw [(cmp_eq_eq_iff _ _).mpr h, grid, grid, h]
    exact (cmp_mul_pos_right (Nat.two_pow_pos _) _ _).symm
  · rw [(cmp_eq_gt_iff _ _).mpr h, (cmp_eq_gt_iff _ _).mpr (hb.grid_lt_of_exponent_lt ha h)]
    rfl

/-- Finite floats are in order as their values are. -/
theorem compare_eq_cmp_value {u v : UnpackedFloat} {a b : Binary}
    (hu : ofUnpacked? u = some a) (hv : ofUnpacked? v = some b)
    (ha : a.Canonical) (hb : b.Canonical) : u.compare v = some (cmp a.value b.value) := by
  have hcast : StrictMono (Nat.cast : ℕ → ℤ) := Nat.strictMono_cast
  cases u <;> cases v <;> cases hu <;> cases hv
  case zero.zero s s' =>
    rw [value_eq_zero rfl, value_eq_zero rfl]
    rfl
  case zero.finite s s' m e hm =>
    rw [value_eq_zero rfl]
    cases s' with
    | positive => exact congrArg some ((cmp_eq_lt_iff _ _).mpr (value_positive hm e)).symm
    | negative => exact congrArg some ((cmp_eq_gt_iff _ _).mpr (value_negative hm e)).symm
  case finite.zero s m e hm s' =>
    rw [value_eq_zero (b := ⟨_, 0, _⟩) rfl]
    cases s with
    | positive => exact congrArg some ((cmp_eq_gt_iff _ _).mpr (value_positive hm e)).symm
    | negative => exact congrArg some ((cmp_eq_lt_iff _ _).mpr (value_negative hm e)).symm
  case finite.finite s m e hm s' m' e' hm' =>
    have hgrid := ha.then_eq_cmp_grid hb
    cases s <;> cases s'
    case positive.positive =>
      exact congrArg some (hgrid.trans (hcast.cmp_map_eq _ _).symm)
    case negative.negative =>
      exact congrArg some ((congrArg Ordering.swap hgrid).trans
        ((cmp_swap _ _).trans (hcast.neg.cmp_map_eq _ _).symm))
    case positive.negative =>
      have hlt := (value_negative hm' e').trans (value_positive hm e)
      exact congrArg some ((cmp_eq_gt_iff _ _).mpr hlt).symm
    case negative.positive =>
      have hlt := (value_negative hm e).trans (value_positive hm' e')
      exact congrArg some ((cmp_eq_lt_iff _ _).mpr hlt).symm

/-! ### Fractions that are integers -/

theorem quotient_pos (b : Binary) : 0 < b.quotient.2 := by
  simp only [quotient, Nat.shiftLeft_eq, Nat.one_mul]
  exact Nat.two_pow_pos _

theorem quotient_mul_grid {b : Binary} (hc : b.Canonical) :
    b.quotient.1 * 2 ^ gridBits = b.grid * b.quotient.2 := by
  have hleast := hc.least
  have hsum : b.exponent.toNat + gridBits =
      (b.exponent + gridBits).toNat + (-b.exponent).toNat := by
    rw [gridBits]
    omega
  simp only [quotient, Nat.shiftLeft_eq, Nat.one_mul, grid]
  rw [Nat.mul_assoc, ← Nat.pow_add, hsum, Nat.pow_add, Nat.mul_assoc]

/-- A fraction with the value of an integer is that integer. -/
theorem toInt?_of_value {b : Binary} {n : Int} (hc : b.Canonical)
    (h : b.value = n * (2 ^ gridBits : ℕ)) : b.toInt? = some n := by
  have hscale : 0 < 2 ^ gridBits := Nat.two_pow_pos _
  have hgrid : b.grid = n.natAbs * 2 ^ gridBits := by
    have habs := congrArg Int.natAbs h
    rw [Int.natAbs_mul, Int.natAbs_natCast] at habs
    rw [← habs, value]
    split
    · rw [Int.natAbs_neg, Int.natAbs_natCast]
    · rw [Int.natAbs_natCast]
  have hquot : b.quotient.1 = n.natAbs * b.quotient.2 := by
    have hmul := quotient_mul_grid hc
    rw [hgrid, Nat.mul_right_comm] at hmul
    exact Nat.eq_of_mul_eq_mul_right hscale hmul
  refine toInt?_eq_some_iff.mpr ⟨by rw [hquot, Nat.mul_mod_left], ?_⟩
  -- the sign goes with the value, so the magnitudes alone decide
  refine Int.eq_of_mul_eq_mul_right (Int.natCast_pos.mpr hscale).ne' ?_
  rw [← h, truncate_eq, hquot, Nat.mul_div_cancel _ b.quotient_pos, value, hgrid, Nat.cast_mul]
  split
  · rw [neg_mul]
  · rfl

theorem toInt?_eq_some_iff_value {b : Binary} {n : Int} (hc : b.Canonical) :
    b.toInt? = some n ↔ b.value = n * (2 ^ gridBits : ℕ) := by
  refine ⟨fun h => ?_, toInt?_of_value hc⟩
  have hgrid := grid_of_toInt? hc h
  rw [value, hgrid, Nat.cast_mul]
  rcases lt_trichotomy n 0 with hn | rfl | hn
  · rw [negative_of_toInt? h hn.ne, if_pos (decide_eq_true hn),
      Int.ofNat_natAbs_of_nonpos hn.le, neg_mul, neg_neg]
  · rw [Int.natAbs_zero, Nat.cast_zero, zero_mul, neg_zero, ite_self]
  · rw [negative_of_toInt? h hn.ne', decide_eq_false hn.asymm, if_neg Bool.false_ne_true,
      Int.natAbs_of_nonneg hn.le]

end Binary

/-! ### Places on the line -/

/-- The integers with an end on either side. -/
abbrev Line := WithBot (WithTop ℤ)

namespace Line

/-- A point that is not an end. -/
def point (n : ℤ) : Line := ((n : WithTop ℤ) : WithBot (WithTop ℤ))

/-- The end on the side of a sign. -/
def side : Sign → Line
  | .negative => ⊥
  | .positive => ⊤

/-- The place of an integer. -/
def ofInt (n : ℤ) : Line := point (n * (2 ^ Binary.gridBits : ℕ))

theorem point_strictMono : StrictMono point := WithBot.coe_strictMono.comp WithTop.coe_strictMono

theorem ofInt_strictMono : StrictMono ofInt :=
  point_strictMono.comp fun _ _ h =>
    Int.mul_lt_mul_of_pos_right h (Int.natCast_pos.mpr (Nat.two_pow_pos _))

theorem bot_lt_point (n : ℤ) : ⊥ < point n := WithBot.bot_lt_coe _

theorem point_lt_top (n : ℤ) : point n < ⊤ := WithBot.coe_lt_coe.mpr (WithTop.coe_lt_top n)

/-- The place of a float that is not a NaN. -/
def ofUnpacked? : UnpackedFloat → Option Line
  | .notANumber => none
  | .infinity s => some (side s)
  | .zero s => some (point (Binary.value ⟨Binary.isNegative s, 0, -1074⟩))
  | .finite s m e _ => some (point (Binary.value ⟨Binary.isNegative s, m, e⟩))

theorem ofUnpacked?_of_fraction {u : UnpackedFloat} {b : Binary}
    (h : Binary.ofUnpacked? u = some b) : ofUnpacked? u = some (point b.value) := by
  cases u <;> cases h <;> rfl

/-- A place is an end or a point. -/
theorem ofUnpacked?_eq_some {u : UnpackedFloat} {p : Line} (h : ofUnpacked? u = some p) :
    (∃ s, u = .infinity s ∧ p = side s) ∨
      ∃ b, Binary.ofUnpacked? u = some b ∧ p = point b.value := by
  cases u <;> cases h
  case infinity s => exact Or.inl ⟨s, rfl, rfl⟩
  all_goals exact Or.inr ⟨_, rfl, rfl⟩

/-- The order of floats is that of their places. -/
theorem compare_eq_cmp {u v : UnpackedFloat} {p q : Line}
    (hu : ∀ b, Binary.ofUnpacked? u = some b → b.Canonical)
    (hv : ∀ b, Binary.ofUnpacked? v = some b → b.Canonical)
    (hp : ofUnpacked? u = some p) (hq : ofUnpacked? v = some q) :
    u.compare v = some (cmp p q) := by
  rcases ofUnpacked?_eq_some hp with ⟨s, rfl, rfl⟩ | ⟨a, ha, rfl⟩ <;>
    rcases ofUnpacked?_eq_some hq with ⟨s', rfl, rfl⟩ | ⟨b, hb, rfl⟩
  · cases s <;> cases s' <;> rfl
  · cases s with
    | negative =>
      rw [side, (cmp_eq_lt_iff _ _).mpr (bot_lt_point _)]
      cases v <;> cases hb <;> rfl
    | positive =>
      rw [side, (cmp_eq_gt_iff _ _).mpr (point_lt_top _)]
      cases v <;> cases hb <;> rfl
  · cases s' with
    | negative =>
      rw [side, (cmp_eq_gt_iff _ _).mpr (bot_lt_point _)]
      cases u <;> cases ha <;> rfl
    | positive =>
      rw [side, (cmp_eq_lt_iff _ _).mpr (point_lt_top _)]
      cases u <;> cases ha <;> rfl
  · rw [Binary.compare_eq_cmp_value ha hb (hu a ha) (hv b hb), point_strictMono.cmp_map_eq]

/-- The place of a float. -/
def ofFloat? (x : Float) : Option Line := ofUnpacked? x.toModel.unpack

theorem ofFloat?_of_fraction {x : Float} {b : Binary} (h : Binary.ofFloat? x = some b) :
    ofFloat? x = some (point b.value) := by
  rw [Binary.ofFloat?_eq] at h
  exact ofUnpacked?_of_fraction h

/-- A float at a point is a fraction with that value. -/
theorem ofFloat?_eq_some_point {x : Float} {n : ℤ} (h : ofFloat? x = some (point n)) :
    ∃ b, Binary.ofFloat? x = some b ∧ b.value = n := by
  rcases ofUnpacked?_eq_some h with ⟨s, -, hs⟩ | ⟨b, hb, hn⟩
  · cases s with
    | negative => exact absurd hs.symm (bot_lt_point n).ne
    | positive => exact absurd hs (point_lt_top n).ne
  · exact ⟨b, (Binary.ofFloat?_eq x).trans hb, (point_strictMono.injective hn).symm⟩

/-- Every float but a NaN has a place. -/
theorem exists_ofFloat? {x : Float} (h : ¬ x.isNaN = true) : ∃ p, ofFloat? x = some p := by
  unfold ofFloat?
  cases hu : x.toModel.unpack with
  | notANumber => exact absurd (isNaN_iff.mpr hu) h
  | infinity s => exact ⟨_, rfl⟩
  | zero s => exact ⟨_, rfl⟩
  | finite s m e hm => exact ⟨_, rfl⟩

end Line

/-! ### Floats in order -/

namespace Number

variable {x y : Float} {p q : Line}

theorem canonical_of_unpack (x : Float) :
    ∀ b, Binary.ofUnpacked? x.toModel.unpack = some b → b.Canonical := by
  intro b hb
  rw [← Binary.ofFloat?_eq] at hb
  exact Binary.ofFloat?_canonical hb

theorem lt_iff_compare :
    x < y ↔ x.toModel.unpack.compare y.toModel.unpack = some .lt := by
  show decide (x.toModel < y.toModel) = true ↔ _
  rw [decide_eq_true_iff]
  exact beq_iff_eq

theorem beq_iff_compare :
    x.beq y = true ↔ x.toModel.unpack.compare y.toModel.unpack = some .eq := by
  show (x.toModel.unpack.compare y.toModel.unpack == some .eq) = true ↔ _
  exact beq_iff_eq

/-- Floats are compared by their places. -/
theorem compareFloats?_eq_cmp (hp : Line.ofFloat? x = some p) (hq : Line.ofFloat? y = some q) :
    compareFloats? x y = some (cmp p q) := by
  have hxy := Line.compare_eq_cmp (canonical_of_unpack x) (canonical_of_unpack y) hp hq
  have hyx := Line.compare_eq_cmp (canonical_of_unpack y) (canonical_of_unpack x) hq hp
  simp only [compareFloats?, lt_iff_compare, beq_iff_compare, hxy, hyx, Option.some.injEq]
  rw [← cmp_swap p q]
  cases cmp p q <;> rfl

theorem beq_iff_place_eq (hp : Line.ofFloat? x = some p) (hq : Line.ofFloat? y = some q) :
    x.beq y = true ↔ p = q := by
  rw [beq_iff_compare, Line.compare_eq_cmp (canonical_of_unpack x) (canonical_of_unpack y) hp hq,
    Option.some.injEq, cmp_eq_eq_iff]

/-- A float is equal to an integer exactly if it has the integer's place. -/
theorem integerOfFloat?_eq_some_iff {i : Int64} :
    integerOfFloat? x = some i ↔ Line.ofFloat? x = some (Line.ofInt i.toInt) := by
  unfold integerOfFloat?
  cases hb : Binary.ofFloat? x with
  | none =>
    refine iff_of_false nofun fun h => ?_
    obtain ⟨b, hb', -⟩ := Line.ofFloat?_eq_some_point h
    cases hb.symm.trans hb'
  | some b =>
    have hcan := Binary.ofFloat?_canonical hb
    simp only [Option.bind_eq_bind, Option.bind_some, Option.bind_eq_some_iff,
      representable?_eq_some_iff, exists_eq_right', Binary.toInt?_eq_some_iff_value hcan,
      Line.ofFloat?_of_fraction hb, Line.ofInt, Option.some.injEq,
      Line.point_strictMono.injective.eq_iff]

end Number

end Lua
