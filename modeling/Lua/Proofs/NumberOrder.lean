/-
The order of numbers against their equality.

Equality compares an integer and a float exactly; the order rounds the integer to a float first.
Among integers and among floats the two agree.  Across the subtypes they agree up to one more
relation: an integer and a float are `Blurred` if they are different and only rounding makes them
the same.

* `Number.place_of_less`, `Number.place_of_equal` — both relations keep the order of the places
  that numbers have as floats;
* `Number.less_trans` — the order is transitive;
* `Number.order_with_equality` — of less, equal, greater and blurred exactly one holds for two
  numbers, the order respects equality up to blur, and blur needs an integer beyond 2⁵³;
* `Number.order_through_equal` — beyond 2⁵³ the order does not pass through an equal number.
-/
import Lua.Proofs.IntegerFloats

namespace Lua.Number

/-- One number comes before another. -/
def Less (a b : Number) : Prop := (Value.number a).compare? (.number b) = some .lt

/-- Two numbers are the same key. -/
def Equal (a b : Number) : Prop := (Value.number a).equals (.number b) = true

instance (a b : Number) : Decidable (Less a b) := inferInstanceAs (Decidable (_ = _))

instance (a b : Number) : Decidable (Equal a b) := inferInstanceAs (Decidable (_ = _))

/-- Two numbers that the order does not tell apart although they are not equal. -/
def Blurred (a b : Number) : Prop :=
  (Value.number a).compare? (.number b) = some .eq ∧ ¬ Equal a b

/-- How one number can stand to another. -/
inductive Standing where
  | before
  | equal
  | after
  | blurred

/-- The first number stands so to the second. -/
def Stands (a b : Number) : Standing → Prop
  | .before => Less a b
  | .equal => Equal a b
  | .after => Less b a
  | .blurred => Blurred a b

/-- Two numbers are both integers. -/
def Integers : Number → Number → Prop
  | .int _, .int _ => True
  | _, _ => False

variable {a b c : Number} {p q r : Line} {i j : Int64}

theorem Integers.symm (h : Integers a b) : Integers b a := by
  cases a <;> cases b <;> exact h

theorem Integers.exists_eq (h : Integers a b) : ∃ i j, a = .int i ∧ b = .int j := by
  cases a <;> cases b
  case int.int i j => exact ⟨i, j, rfl, rfl⟩
  all_goals exact h.elim

/-! ### Numbers on the line -/

/-- The place of a number as a float. -/
def place? (n : Number) : Option Line := Line.ofFloat? n.toFloat

theorem place?_int (i : Int64) : place? (.int i) = some (Line.ofInt (nearestInteger i.toInt)) :=
  ofFloat?_floatOfInt i

theorem exists_place (h : ¬ (Value.number a).IsNaN) : ∃ p, a.place? = some p := by
  cases a with
  | int i => exact ⟨_, place?_int i⟩
  | float x => exact Line.exists_ofFloat? fun hx => h ⟨x, rfl, hx⟩

theorem less_int_iff : Less (.int i) (.int j) ↔ i.toInt < j.toInt := by
  refine Option.some_inj.trans ?_
  exact compare_lt_iff_lt

theorem equal_int_iff : Equal (.int i) (.int j) ↔ i = j := beq_iff_eq

/-- Unless both are integers, numbers are in order as their places are. -/
theorem compare?_eq_cmp (h : ¬ Integers a b) (hp : a.place? = some p) (hq : b.place? = some q) :
    (Value.number a).compare? (.number b) = some (cmp p q) := by
  have hfloats : (Value.number a).compare? (.number b) = compareFloats? a.toFloat b.toFloat := by
    cases a <;> cases b
    case int.int => exact absurd trivial h
    all_goals rfl
  exact hfloats.trans (compareFloats?_eq_cmp hp hq)

theorem less_iff_place_lt (h : ¬ Integers a b) (hp : a.place? = some p) (hq : b.place? = some q) :
    Less a b ↔ p < q := by
  rw [Less, compare?_eq_cmp h hp hq, Option.some_inj, cmp_eq_lt_iff]

/-- Rounding may join integers but does not turn them around. -/
theorem less_of_place_lt (hp : a.place? = some p) (hq : b.place? = some q) (h : p < q) :
    Less a b := by
  by_cases hint : Integers a b
  · obtain ⟨i, j, rfl, rfl⟩ := hint.exists_eq
    rw [place?_int] at hp hq
    rw [← Option.some.inj hp, ← Option.some.inj hq, Line.ofInt_strictMono.lt_iff_lt] at h
    exact less_int_iff.mpr (nearestInteger_mono.reflect_lt h)
  · exact (less_iff_place_lt hint hp hq).mpr h

theorem place_of_less (hp : a.place? = some p) (hq : b.place? = some q) (h : Less a b) :
    p ≤ q := by
  by_cases hint : Integers a b
  · obtain ⟨i, j, rfl, rfl⟩ := hint.exists_eq
    rw [place?_int] at hp hq
    rw [← Option.some.inj hp, ← Option.some.inj hq]
    exact Line.ofInt_strictMono.monotone (nearestInteger_mono (less_int_iff.mp h).le)
  · exact ((less_iff_place_lt hint hp hq).mp h).le

/-- An integer that equals a float is at its place. -/
theorem place_of_int_equal {x : Float} (h : integerOfFloat? x = some i) :
    Line.ofFloat? x = place? (.int i) := by
  have hx := integerOfFloat?_eq_some_iff.mp h
  rw [place?_int, hx, nearestInteger_of_ofFloat? hx]

theorem place_of_equal (hp : a.place? = some p) (hq : b.place? = some q) (h : Equal a b) :
    p = q := by
  refine Option.some.inj ((hp.symm.trans ?_).trans hq)
  cases a <;> cases b
  case int.int i j => rw [equal_int_iff.mp h]
  case int.float i x => exact (place_of_int_equal (beq_iff_eq.mp h)).symm
  case float.int x i => exact place_of_int_equal (beq_iff_eq.mp h)
  case float.float x y => rw [hp, hq, (beq_iff_place_eq hp hq).mp h]

/-- Unless both are integers, numbers at one place are equal or blurred. -/
theorem place_eq_iff (h : ¬ Integers a b) (hp : a.place? = some p) (hq : b.place? = some q) :
    p = q ↔ Equal a b ∨ Blurred a b := by
  have hcompare := compare?_eq_cmp h hp hq
  constructor
  · rintro rfl
    by_cases heq : Equal a b
    · exact Or.inl heq
    · exact Or.inr ⟨hcompare.trans (congrArg some (cmp_self_eq_eq p)), heq⟩
  · rintro (heq | ⟨hblur, -⟩)
    · exact place_of_equal hp hq heq
    · exact (cmp_eq_eq_iff p q).mp (Option.some.inj (hcompare.symm.trans hblur))

/-- Integers are told apart. -/
theorem Blurred.not_integers (h : Blurred a b) : ¬ Integers a b := by
  intro hint
  obtain ⟨i, j, rfl, rfl⟩ := hint.exists_eq
  obtain ⟨hcompare, hne⟩ := h
  have htoInt := compare_eq_iff_eq.mp (Option.some.inj hcompare)
  exact hne (equal_int_iff.mpr (Int64.toInt_inj.mp htoInt))

/-- Blur comes from rounding, which leaves integers up to 2⁵³ as they are. -/
theorem Blurred.beyond (hp : a.place? = some p) (hq : b.place? = some q) (h : Blurred a b) :
    ∃ i : Int64, (a = .int i ∨ b = .int i) ∧ 2 ^ 53 < i.toInt.natAbs := by
  -- the two share a place; a small integer would equal every float there
  have hpq := (place_eq_iff h.not_integers hp hq).mpr (Or.inr h)
  have hplace : a.place? = b.place? := by rw [hp, hq, hpq]
  have rounded : ∀ {i : Int64} {x : Float}, Line.ofFloat? x = place? (.int i) →
      integerOfFloat? x ≠ some i → 2 ^ 53 < i.toInt.natAbs := by
    intro i x hx hne
    refine not_le.mp fun hle => hne (integerOfFloat?_eq_some_iff.mpr ?_)
    rw [hx, place?_int, nearestInteger_of_natAbs_le hle]
  cases a <;> cases b
  case int.int => exact absurd trivial h.not_integers
  case int.float i x =>
    exact ⟨i, Or.inl rfl, rounded hplace.symm fun hx => h.2 (beq_iff_eq.mpr hx)⟩
  case float.int x i =>
    exact ⟨i, Or.inr rfl, rounded hplace fun hx => h.2 (beq_iff_eq.mpr hx)⟩
  case float.float => exact absurd ((beq_iff_place_eq hp hq).mpr hpq) h.2

/-! ### The order and equality -/

/-- Numbers with places are comparable, from either side. -/
theorem exists_compare? (hp : a.place? = some p) (hq : b.place? = some q) :
    ∃ o, (Value.number a).compare? (.number b) = some o ∧
      (Value.number b).compare? (.number a) = some o.swap := by
  by_cases hint : Integers a b
  · obtain ⟨i, j, rfl, rfl⟩ := hint.exists_eq
    exact ⟨_, rfl, congrArg some Std.OrientedCmp.eq_swap⟩
  · refine ⟨_, compare?_eq_cmp hint hp hq, ?_⟩
    rw [compare?_eq_cmp (fun h => hint h.symm) hq hp, cmp_swap]

theorem compare?_of_equal (hp : a.place? = some p) (hq : b.place? = some q) (h : Equal a b) :
    (Value.number a).compare? (.number b) = some .eq := by
  by_cases hint : Integers a b
  · obtain ⟨i, j, rfl, rfl⟩ := hint.exists_eq
    rw [equal_int_iff.mp h]
    exact congrArg some (compare_eq_iff_eq.mpr rfl)
  · rw [compare?_eq_cmp hint hp hq, place_of_equal hp hq h, cmp_self_eq_eq]

/-- Exactly one relation holds between two numbers. -/
theorem existsUnique_stands (hp : a.place? = some p) (hq : b.place? = some q) :
    ∃! s, Stands a b s := by
  obtain ⟨o, hab, hba⟩ := exists_compare? hp hq
  have hless : Less a b ↔ o = .lt := by rw [Less, hab, Option.some_inj]
  have hmore : Less b a ↔ o = .gt := by rw [Less, hba, Option.some_inj, Ordering.swap_eq_lt]
  have hequal : Equal a b → o = .eq := fun h =>
    Option.some.inj (hab.symm.trans (compare?_of_equal hp hq h))
  have hblurred : Blurred a b ↔ o = .eq ∧ ¬ Equal a b := by rw [Blurred, hab, Option.some_inj]
  cases o with
  | lt =>
    refine ⟨.before, hless.mpr rfl, fun s hs => ?_⟩
    cases s with
    | before => rfl
    | equal => cases hequal hs
    | after => cases hmore.mp hs
    | blurred => cases (hblurred.mp hs).1
  | gt =>
    refine ⟨.after, hmore.mpr rfl, fun s hs => ?_⟩
    cases s with
    | before => cases hless.mp hs
    | equal => cases hequal hs
    | after => rfl
    | blurred => cases (hblurred.mp hs).1
  | eq =>
    by_cases heq : Equal a b
    · refine ⟨.equal, heq, fun s hs => ?_⟩
      cases s with
      | before => cases hless.mp hs
      | equal => rfl
      | after => cases hmore.mp hs
      | blurred => exact absurd heq (hblurred.mp hs).2
    · refine ⟨.blurred, hblurred.mpr ⟨rfl, heq⟩, fun s hs => ?_⟩
      cases s with
      | before => cases hless.mp hs
      | equal => exact absurd hs heq
      | after => cases hmore.mp hs
      | blurred => rfl

/-- The order is transitive. -/
theorem less_trans (hp : a.place? = some p) (hq : b.place? = some q) (hr : c.place? = some r)
    (hab : Less a b) (hbc : Less b c) : Less a c := by
  -- one of the two steps is strict on the line, unless all three are integers
  have hpq := place_of_less hp hq hab
  have hqr := place_of_less hq hr hbc
  by_cases hint : Integers a b
  · by_cases hint' : Integers b c
    · obtain ⟨i, j, rfl, rfl⟩ := hint.exists_eq
      obtain ⟨-, k, -, rfl⟩ := hint'.exists_eq
      exact less_int_iff.mpr ((less_int_iff.mp hab).trans (less_int_iff.mp hbc))
    · exact less_of_place_lt hp hr (hpq.trans_lt ((less_iff_place_lt hint' hq hr).mp hbc))
  · exact less_of_place_lt hp hr (((less_iff_place_lt hint hp hq).mp hab).trans_le hqr)

theorem Less.not_equal (hp : a.place? = some p) (hq : b.place? = some q) (h : Less a b) :
    ¬ Equal a b := by
  intro heq
  cases h.symm.trans (compare?_of_equal hp hq heq)

/-- Different numbers with places in order are in order, up to blur and for integers strictly. -/
theorem less_or_blurred (hp : a.place? = some p) (hr : c.place? = some r) (hpr : p ≤ r)
    (hne : ¬ Equal a c) (hint : Integers a c → Less a c) : Less a c ∨ Blurred a c := by
  by_cases h : Integers a c
  · exact Or.inl (hint h)
  · rcases hpr.lt_or_eq with hlt | heq
    · exact Or.inl (less_of_place_lt hp hr hlt)
    · exact Or.inr (((place_eq_iff h hp hr).mp heq).resolve_left hne)

/-- What is less than a number is less than its equals, up to blur. -/
theorem less_or_blurred_of_less_of_equal (hp : a.place? = some p) (hq : b.place? = some q)
    (hr : c.place? = some r) (hab : Less a b) (hbc : Equal b c) : Less a c ∨ Blurred a c := by
  have hqr := place_of_equal hq hr hbc
  have hle := (place_of_less hp hq hab).trans hqr.le
  refine less_or_blurred hp hr hle (fun hac => ?_) fun hac => ?_
  · exact hab.not_equal hp hq (Value.equals_trans hac (Value.equals_symm hbc))
  · by_cases hint : Integers a b
    · obtain ⟨-, j, -, rfl⟩ := hint.exists_eq
      obtain ⟨-, k, -, rfl⟩ := hac.exists_eq
      exact equal_int_iff.mp hbc ▸ hab
    · exact less_of_place_lt hp hr (((less_iff_place_lt hint hp hq).mp hab).trans_eq hqr)

/-- What is greater than a number is greater than its equals, up to blur. -/
theorem less_or_blurred_of_equal_of_less (hp : a.place? = some p) (hq : b.place? = some q)
    (hr : c.place? = some r) (hab : Equal a b) (hbc : Less b c) : Less a c ∨ Blurred a c := by
  have hpq := place_of_equal hp hq hab
  have hle := hpq.le.trans (place_of_less hq hr hbc)
  refine less_or_blurred hp hr hle (fun hac => ?_) fun hac => ?_
  · exact hbc.not_equal hq hr (Value.equals_trans (Value.equals_symm hab) hac)
  · by_cases hint : Integers b c
    · obtain ⟨j, -, rfl, -⟩ := hint.exists_eq
      obtain ⟨i, -, rfl, -⟩ := hac.exists_eq
      exact (equal_int_iff.mp hab).symm ▸ hbc
    · exact less_of_place_lt hp hr (hpq.trans_lt ((less_iff_place_lt hint hq hr).mp hbc))

/-- The order and equality of numbers agree up to blur, and only integers beyond 2⁵³ blur. -/
theorem order_with_equality (ha : ¬ (Value.number a).IsNaN) (hb : ¬ (Value.number b).IsNaN)
    (hc : ¬ (Value.number c).IsNaN) :
    (∃! s, Stands a b s) ∧
      (Less a b → Less b c → Less a c) ∧
      (Less a b → Equal b c → Less a c ∨ Blurred a c) ∧
      (Equal a b → Less b c → Less a c ∨ Blurred a c) ∧
      (Blurred a b → ∃ i : Int64, (a = .int i ∨ b = .int i) ∧ 2 ^ 53 < i.toInt.natAbs) := by
  obtain ⟨p, hp⟩ := exists_place ha
  obtain ⟨q, hq⟩ := exists_place hb
  obtain ⟨r, hr⟩ := exists_place hc
  exact ⟨existsUnique_stands hp hq, less_trans hp hq hr,
    less_or_blurred_of_less_of_equal hp hq hr, less_or_blurred_of_equal_of_less hp hq hr,
    Blurred.beyond hp hq⟩

/-- An integer that is less than another, and rounds to the float equal to that one. -/
theorem order_with_equality_beyond :
    ¬ (Value.number (.float (Float.ofBits 0x4340000000000002))).IsNaN ∧
      Blurred (.int (2 ^ 53 + 3)) (.float (Float.ofBits 0x4340000000000002)) := by
  have hint : ∀ i, ¬ (Value.number (.int i)).IsNaN := fun i => by
    rintro ⟨y, hy, -⟩
    cases hy
  have hfloat : ¬ (Value.number (.float (Float.ofBits 0x4340000000000002))).IsNaN :=
    Value.equals_self_iff.mp (by decide +kernel)
  obtain ⟨-, -, hequal, -⟩ := order_with_equality (hint (2 ^ 53 + 3)) (hint (2 ^ 53 + 4)) hfloat
  exact ⟨hfloat, (hequal (by decide +kernel) (by decide +kernel)).resolve_left (by decide +kernel)⟩

/-- Beyond 2⁵³ the order does not pass through an equal number, and two numbers may stand in none
of the three relations. -/
theorem order_through_equal :
    (Less (.int (2 ^ 53 + 3)) (.int (2 ^ 53 + 4)) ∧
      Equal (.int (2 ^ 53 + 4)) (.float (Float.ofBits 0x4340000000000002)) ∧
      ¬ Less (.int (2 ^ 53 + 3)) (.float (Float.ofBits 0x4340000000000002))) ∧
    ¬ Less (.int (2 ^ 53 + 1)) (.float (Float.ofBits 0x4340000000000000)) ∧
    ¬ Equal (.int (2 ^ 53 + 1)) (.float (Float.ofBits 0x4340000000000000)) ∧
    ¬ Less (.float (Float.ofBits 0x4340000000000000)) (.int (2 ^ 53 + 1)) := by
  decide +kernel

end Lua.Number
