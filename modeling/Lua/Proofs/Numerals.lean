/-
The texts that are read as integers.

`Integral t n` is the grammar of the integer numerals of the language: an optional sign, then
decimal digits whose signed value fits into 64 bits, or a hexadecimal mark and hexadecimal
digits, whose signed value counts modulo 2⁶⁴.

* `natural?_eq_some_iff` — the digit readers compute the positional value of a row of digits;
* `wrappingValue?_eq` — taken in digit by digit, with a product and a sum that wrap around, a row
  comes to the residue of this value modulo 2⁶⁴;
* `decimalInteger?_eq_some_iff` — the decimal reader takes a sign, digits, and a value in range;
* `unsigned?_int_iff` — what is an integer once the sign in front is off;
* `parse?_int_iff` — the integers `parse?` reads are those of the grammar with two deviations:
  a decimal may carry a second sign, and the least integer is no decimal;
* `parse?_off_grammar` — both deviations at fixed texts.

Design notes: both deviations come from the sign.  It is taken off the front, and the decimal
reader takes a sign again: so the digits behind one sign are measured against the positive
range, and those behind two are measured with the second and negated by the first.
-/
import Lua.Number.Numeral
import Mathlib.Data.List.Induction
import Mathlib.Data.Nat.Digits.Defs

namespace Lua.Numeral

/-! ### Rows of digits -/

/-- What a character is worth as a digit: letters of either case count from ten. -/
def digitWorth (c : Char) : Nat :=
  if c.isDigit then c.toNat - '0'.toNat
  else if c.isLower then c.toNat - 'a'.toNat + 10
  else c.toNat - 'A'.toNat + 10

/-- A digit of a base up to 36. -/
def IsDigit (base : Nat) (c : Char) : Prop := c.isAlphanum = true ∧ digitWorth c < base

/-- One or more digits with the value they have in positional notation. -/
structure Row (base : Nat) (ds : List Char) (v : Nat) : Prop where
  ne_nil : ds ≠ []
  digits : ∀ c ∈ ds, IsDigit base c
  value : v = Nat.ofDigits base (ds.reverse.map digitWorth)

theorem toNat_lt_of_isAlphanum {c : Char} (h : c.isAlphanum = true) : c.toNat < 128 := by
  delta Char.isAlphanum Char.isAlpha Char.isUpper Char.isLower Char.isDigit at h
  simp only [Bool.or_eq_true, Bool.and_eq_true, decide_eq_true_eq, ge_iff_le,
    UInt32.le_iff_toNat_le] at h
  have hc : c.toNat = c.val.toNat := rfl
  have hupper : 'Z'.val.toNat = 90 := rfl
  have hlower : 'z'.val.toNat = 122 := rfl
  have hdigit : '9'.val.toNat = 57 := rfl
  omega

/-- The table of digit values, character by character. -/
theorem ascii_digitValue : ∀ n : Fin 128, Ascii.digitValue (Ascii.byte (Char.ofNat n)) =
    if (Char.ofNat n).isAlphanum then some (digitWorth (Char.ofNat n)) else none := by
  decide +kernel

theorem digitValue?_eq_some_iff {base : Nat} {c : Char} {v : Nat} :
    digitValue? base c = some v ↔ IsDigit base c ∧ v = digitWorth c := by
  by_cases hc : c.toNat < 128
  · have htable := ascii_digitValue ⟨c.toNat, hc⟩
    rw [Char.ofNat_toNat] at htable
    by_cases ha : c.isAlphanum = true
    · simp [digitValue?, hc, htable, ha, IsDigit, Option.bind_eq_some_iff, Option.guard_eq_some']
      grind
    · simp [digitValue?, hc, htable, ha, IsDigit]
  · have ha : ¬ c.isAlphanum = true := fun h => hc (toNat_lt_of_isAlphanum h)
    simp [digitValue?, hc, ha, IsDigit]

theorem digitsValue?_concat (base : Nat) (ds : List Char) (c : Char) :
    digitsValue? base (ds ++ [c]) =
      (digitsValue? base ds).bind fun v => (digitValue? base c).map (v * base + ·) := by
  simp [digitsValue?, List.foldlM_append]

theorem digitsValue?_eq_some_iff {base : Nat} {ds : List Char} {v : Nat} :
    digitsValue? base ds = some v ↔
      (∀ c ∈ ds, IsDigit base c) ∧ v = Nat.ofDigits base (ds.reverse.map digitWorth) := by
  induction ds using List.reverseRecOn generalizing v with
  | nil => simp [digitsValue?, eq_comm]
  | append_singleton ds c ih =>
    rw [digitsValue?_concat, Option.bind_eq_some_iff]
    simp only [Option.map_eq_some_iff, ih, digitValue?_eq_some_iff, List.reverse_append,
      List.reverse_singleton, List.singleton_append, List.map_cons, Nat.ofDigits_cons,
      List.mem_append, List.mem_singleton]
    constructor
    · rintro ⟨u, ⟨hds, rfl⟩, w, ⟨hc, rfl⟩, rfl⟩
      refine ⟨fun d hd => hd.elim (hds d) (fun h => h ▸ hc), ?_⟩
      rw [Nat.mul_comm, Nat.add_comm]
    · rintro ⟨hds, rfl⟩
      refine ⟨_, ⟨fun d hd => hds d (Or.inl hd), rfl⟩, _, ⟨hds c (Or.inr rfl), rfl⟩, ?_⟩
      rw [Nat.mul_comm, Nat.add_comm]

/-- The digit readers compute the positional value of one or more digits. -/
theorem natural?_eq_some_iff {base : Nat} {ds : List Char} {v : Nat} :
    natural? base ds = some v ↔ Row base ds v := by
  unfold natural?
  constructor
  · intro h
    rw [Option.ite_none_left_eq_some, digitsValue?_eq_some_iff] at h
    exact ⟨fun hnil => h.1 (by simp [hnil]), h.2.1, h.2.2⟩
  · intro h
    rw [Option.ite_none_left_eq_some, digitsValue?_eq_some_iff]
    exact ⟨by simpa using h.ne_nil, h.digits, h.value⟩

/-- Reducing after every digit comes to the same as reducing once. -/
theorem wrappingValue?_eq (base : Nat) (ds : List Char) :
    wrappingValue? base ds = (digitsValue? base ds).map Int64.ofNat := by
  -- the loop begins with the residue of what the digits so far are worth
  have hfrom : ∀ v : Nat, ds.foldlM (fun (w : Int64) c =>
      (digitValue? base c).map fun d => w * Int64.ofNat base + Int64.ofNat d) (Int64.ofNat v) =
        (ds.foldlM (fun v c => (digitValue? base c).map (v * base + ·)) v).map Int64.ofNat := by
    induction ds with
    | nil => exact fun _ => rfl
    | cons c ds ih =>
      intro v
      rw [List.foldlM_cons, List.foldlM_cons]
      cases digitValue? base c with
      | none => rfl
      | some d =>
        have hstep : Int64.ofNat v * Int64.ofNat base + Int64.ofNat d
            = Int64.ofNat (v * base + d) := by
          rw [Int64.ofNat_add, Int64.ofNat_mul]
        show ds.foldlM _ (Int64.ofNat v * Int64.ofNat base + Int64.ofNat d) = _
        rw [hstep]
        exact ih (v * base + d)
  exact hfrom 0

theorem word?_eq (base : Nat) (ds : List Char) :
    word? base ds = (natural? base ds).map Int64.ofNat := by
  rw [word?, natural?, wrappingValue?_eq, apply_ite (Option.map Int64.ofNat)]
  rfl

theorem Row.wrappingValue? {base : Nat} {ds : List Char} {v : Nat} (h : Row base ds v) :
    wrappingValue? base ds = some (Int64.ofInt v) := by
  rw [wrappingValue?_eq, digitsValue?_eq_some_iff.mpr ⟨h.digits, h.value⟩, Int64.ofInt_eq_ofNat]
  rfl

/-- A row of digits has one value. -/
theorem Row.value_unique {base : Nat} {ds : List Char} {v w : Nat} (hv : Row base ds v)
    (hw : Row base ds w) : v = w :=
  hv.value.trans hw.value.symm

/-! ### Signs -/

/-- An optional sign, and whether it is a minus. -/
inductive Sign : List Char → Bool → Prop where
  | none : Sign [] false
  | plus : Sign ['+'] false
  | minus : Sign ['-'] true

/-- A magnitude with its sign. -/
def signed (negative : Bool) (v : Nat) : Int := if negative then -(v : Int) else v

@[simp] theorem signed_false (v : Nat) : signed false v = v := rfl

@[simp] theorem signed_true (v : Nat) : signed true v = -v := rfl

/-- A text that has no sign in front. -/
def Unsigned (t : List Char) : Prop := ∀ c ∈ t.head?, c ≠ '-' ∧ c ≠ '+'

theorem IsDigit.not_sign {base : Nat} {c : Char} (h : IsDigit base c) : c ≠ '-' ∧ c ≠ '+' := by
  constructor
  · rintro rfl
    exact absurd h.1 (by decide)
  · rintro rfl
    exact absurd h.1 (by decide)

theorem Row.unsigned {base : Nat} {ds : List Char} {v : Nat} (h : Row base ds v) :
    Unsigned ds :=
  fun c hc => (h.digits c (List.mem_of_mem_head? hc)).not_sign

variable {sign t rest : List Char} {negative : Bool}

/-- The sign is taken off; a text without one is left as it is. -/
theorem splitSign_eq_iff : splitSign t = (negative, rest) ↔
    ∃ sign, Sign sign negative ∧ t = sign ++ rest ∧ (sign = [] → Unsigned t) := by
  constructor
  · intro h
    unfold splitSign at h
    split at h
    · cases h
      exact ⟨['-'], .minus, rfl, nofun⟩
    · cases h
      exact ⟨['+'], .plus, rfl, nofun⟩
    · rename_i hminus hplus
      cases h
      refine ⟨[], .none, rfl, fun _ c hc => ?_⟩
      obtain ⟨tail, rfl⟩ := List.head?_eq_some_iff.mp hc
      exact ⟨fun h => hminus tail (h ▸ rfl), fun h => hplus tail (h ▸ rfl)⟩
  · rintro ⟨sign, hsign, rfl, hfirst⟩
    cases hsign with
    | none =>
      have hunsigned : Unsigned rest := hfirst rfl
      rw [List.nil_append]
      unfold splitSign
      split
      · exact absurd rfl (hunsigned '-' rfl).1
      · exact absurd rfl (hunsigned '+' rfl).2
      · rfl
    | plus => rfl
    | minus => rfl

/-- A sign before a text that has none is what is taken off. -/
theorem splitSign_append (hsign : Sign sign negative) (hrest : Unsigned rest) :
    splitSign (sign ++ rest) = (negative, rest) :=
  splitSign_eq_iff.mpr ⟨sign, hsign, rfl, fun h => by rw [h]; exact hrest⟩

/-! ### Integers without the sign in front -/

/-- The decimal reader takes an optional sign, digits, and a signed value in range. -/
theorem decimalInteger?_eq_some_iff {n : Int64} : decimalInteger? t = some n ↔
    ∃ sign negative ds v, Sign sign negative ∧ t = sign ++ ds ∧ Row 10 ds v ∧
      n.toInt = signed negative v := by
  simp only [decimalInteger?, Option.bind_eq_bind, Option.bind_eq_some_iff, natural?_eq_some_iff,
    Number.representable?_eq_some_iff]
  constructor
  · rintro ⟨v, hrow, hn⟩
    obtain ⟨sign, hsign, ht, -⟩ := splitSign_eq_iff.mp (Prod.mk.eta (p := splitSign t)).symm
    exact ⟨sign, _, _, v, hsign, ht, hrow, hn⟩
  · rintro ⟨sign, negative, ds, v, hsign, rfl, hrow, hn⟩
    rw [splitSign_append hsign hrow.unsigned]
    exact ⟨v, hrow, hn⟩

/-- A row of decimal digits holds only characters a decimal numeral may hold. -/
theorem IsDigit.decimalCharacter {c : Char} (h : IsDigit 10 c) : isDecimalCharacter c = true := by
  obtain ⟨halnum, hworth⟩ := h
  have htable : ∀ n : Fin 128, (Char.ofNat n).isAlphanum = true → digitWorth (Char.ofNat n) < 10 →
      isDecimalCharacter (Char.ofNat n) = true := by decide +kernel
  have hc := htable ⟨c.toNat, toNat_lt_of_isAlphanum halnum⟩
  rw [Char.ofNat_toNat] at hc
  exact hc halnum hworth

theorem Sign.decimalCharacters (h : Sign sign negative) :
    ∀ c ∈ sign, isDecimalCharacter c = true := by
  cases h with
  | none => nofun
  | plus => exact List.forall_mem_singleton.mpr rfl
  | minus => exact List.forall_mem_singleton.mpr rfl

theorem decimal?_int_iff {n : Int64} :
    decimal? t = some (.int n) ↔ decimalInteger? t = some n := by
  constructor
  · intro h
    simp only [decimal?, Option.ite_none_right_eq_some] at h
    obtain ⟨-, h⟩ := h
    split at h
    · cases h
      assumption
    · simp at h
  · intro h
    obtain ⟨sign, negative, ds, v, hsign, ht, hrow, -⟩ := decimalInteger?_eq_some_iff.mp h
    have hall : t.all isDecimalCharacter = true := by
      rw [ht, List.all_append, Bool.and_eq_true, List.all_eq_true, List.all_eq_true]
      exact ⟨hsign.decimalCharacters, fun c hc => (hrow.digits c hc).decimalCharacter⟩
    rw [decimal?, if_pos hall, h]

/-- The letters that mark a hexadecimal numeral. -/
def IsMark (c : Char) : Prop := c = 'x' ∨ c = 'X'

theorem IsMark.not_digit {c : Char} (h : IsMark c) : ¬ IsDigit 10 c := by
  rcases h with rfl | rfl
  · exact fun h => absurd h.2 (by decide)
  · exact fun h => absurd h.2 (by decide)

/-- No decimal integer has a hexadecimal mark after its first character. -/
theorem decimalInteger?_marked {a x : Char} {ds : List Char} (hx : IsMark x) :
    decimalInteger? (a :: x :: ds) = none := by
  rw [Option.eq_none_iff_forall_not_mem]
  intro n hn
  obtain ⟨sign, negative, digits, v, hsign, ht, hrow, -⟩ := decimalInteger?_eq_some_iff.mp hn
  refine hx.not_digit (hrow.digits x ?_)
  cases hsign with
  | none =>
    rw [List.nil_append] at ht
    simp [← ht]
  | plus =>
    obtain ⟨-, rfl⟩ := List.cons.inj ht
    exact List.mem_cons_self
  | minus =>
    obtain ⟨-, rfl⟩ := List.cons.inj ht
    exact List.mem_cons_self

/-- What is read as an integer once the sign in front is off. -/
theorem unsigned?_int_iff {n : Int64} : unsigned? t = some (.int n) ↔
    decimalInteger? t = some n ∨
      ∃ x ds v, IsMark x ∧ t = '0' :: x :: ds ∧ Row 16 ds v ∧ n = Int64.ofNat v := by
  have hmarked : ∀ {x ds}, IsMark x → (hexadecimal? ds = some (.int n) ↔
      decimalInteger? ('0' :: x :: ds) = some n ∨ ∃ y es v, IsMark y ∧
        '0' :: x :: ds = '0' :: y :: es ∧ Row 16 es v ∧ n = Int64.ofNat v) := by
    intro x ds hx
    simp only [hexadecimal?, word?_eq, Option.map_map, Option.map_eq_some_iff,
      natural?_eq_some_iff, decimalInteger?_marked hx]
    constructor
    · rintro ⟨v, hrow, hn⟩
      cases hn
      exact Or.inr ⟨x, ds, v, hx, rfl, hrow, rfl⟩
    · rintro (h | ⟨y, es, v, -, h, hrow, rfl⟩)
      · cases h
      · cases h
        exact ⟨v, hrow, rfl⟩
  unfold unsigned?
  split
  · constructor
    · nofun
    · rintro (h | ⟨x, ds, v, -, h, -⟩)
      · simp [decimalInteger?, splitSign, natural?] at h
      · cases h
  · exact hmarked (Or.inl rfl)
  · exact hmarked (Or.inr rfl)
  · rename_i hlower hupper
    rw [decimal?_int_iff]
    constructor
    · exact Or.inl
    · rintro (h | ⟨x, ds, v, rfl | rfl, h, -⟩)
      · exact h
      · exact absurd h (hlower ds)
      · exact absurd h (hupper ds)

/-! ### The texts read as integers -/

/-- The integer numerals: a sign and decimal digits whose signed value fits, or a sign, a mark
and hexadecimal digits, which count modulo 2⁶⁴. -/
inductive Integral : List Char → Int64 → Prop where
  | decimal {sign negative ds v n} (hsign : Sign sign negative) (hrow : Row 10 ds v)
      (hn : n.toInt = signed negative v) : Integral (sign ++ ds) n
  | hexadecimal {sign negative x ds v} (hsign : Sign sign negative) (hx : IsMark x)
      (hrow : Row 16 ds v) : Integral (sign ++ '0' :: x :: ds) (Int64.ofInt (signed negative v))

/-- The least integer written in decimal. -/
def LeastDecimal (t : List Char) : Prop := ∃ ds, t = '-' :: ds ∧ Row 10 ds (2 ^ 63)

/-- Two signs and decimal digits: the value that has to fit is the one the second sign gives, and
the first is applied to what was read. -/
inductive DoublySigned : List Char → Int64 → Prop where
  | decimal {outer inner flips negative ds v n} (houter : Sign outer flips)
      (hinner : Sign inner negative) (houter' : outer ≠ []) (hinner' : inner ≠ [])
      (hrow : Row 10 ds v) (hn : n.toInt = signed negative v) :
      DoublySigned (outer ++ (inner ++ ds)) (if flips then -n else n)

theorem Sign.unsigned_of_append (hsign : Sign sign negative) (h : Unsigned (sign ++ rest)) :
    sign = [] := by
  cases hsign with
  | none => rfl
  | plus => exact absurd rfl (h '+' rfl).2
  | minus => exact absurd rfl (h '-' rfl).1

/-- An integer is read where what follows the sign is read as one; a minus negates it. -/
theorem parse?_eq_some_int_iff {s : List Char} {n : Int64} : parse? s = some (.int n) ↔
    ∃ sign flips rest m, Sign sign flips ∧ Text.trim s = sign ++ rest ∧
      (sign = [] → Unsigned rest) ∧ unsigned? rest = some (.int m) ∧
      n = if flips then -m else m := by
  simp only [parse?, Option.map_eq_some_iff]
  constructor
  · rintro ⟨m, hm, hn⟩
    obtain ⟨sign, hsign, ht, hfirst⟩ :=
      splitSign_eq_iff.mp (Prod.mk.eta (p := splitSign (Text.trim s))).symm
    cases m with
    | int m =>
      refine ⟨sign, _, _, m, hsign, ht, fun h => ?_, hm, ?_⟩
      · have hunsigned := hfirst h
        rwa [ht, h] at hunsigned
      · cases hneg : (splitSign (Text.trim s)).1 with
        | false =>
          rw [hneg] at hn
          exact (Number.int.inj hn).symm
        | true =>
          rw [hneg] at hn
          exact (Number.int.inj hn).symm
    | float x => split at hn <;> cases hn
  · rintro ⟨sign, flips, rest, m, hsign, ht, hfirst, hm, rfl⟩
    have hsplit : splitSign (sign ++ rest) = (flips, rest) :=
      splitSign_eq_iff.mpr ⟨sign, hsign, rfl, fun h => by rw [h]; exact hfirst h⟩
    rw [ht, hsplit]
    refine ⟨.int m, hm, ?_⟩
    cases flips <;> rfl

/-- A sign is applied exactly to what is not negative. -/
theorem toInt_applied {flips : Bool} {m : Int64} {v : Nat} (h : m.toInt = v) :
    (if flips then -m else m).toInt = signed flips v := by
  cases flips with
  | false => exact h
  | true =>
    have hlt := Int64.toInt_lt m
    rw [if_pos rfl, Int64.toInt_neg, Int.bmod_eq_of_le (by omega) (by omega), h]
    rfl

theorem ofInt_signed (negative : Bool) (v : Nat) :
    Int64.ofInt (signed negative v) = if negative then -Int64.ofNat v else Int64.ofNat v := by
  cases negative with
  | false => exact Int64.ofInt_eq_ofNat
  | true => rw [signed_true, Int64.ofInt_neg, Int64.ofInt_eq_ofNat, if_pos rfl]

/-- A sign, a mark and hexadecimal digits are not the least integer in decimal. -/
theorem not_leastDecimal_marked {x : Char} {ds : List Char} (hx : IsMark x)
    (hsign : Sign sign negative) : ¬ LeastDecimal (sign ++ '0' :: x :: ds) := by
  rintro ⟨es, h, hrow⟩
  cases hsign with
  | none => cases h
  | plus => cases h
  | minus =>
    obtain ⟨-, rfl⟩ := List.cons.inj h
    exact hx.not_digit (hrow.digits x (by simp))

theorem not_leastDecimal {ds : List Char} {v : Nat} (hsign : Sign sign negative)
    (hrow : Row 10 ds v) (hv : v < 2 ^ 63) : ¬ LeastDecimal (sign ++ ds) := by
  rintro ⟨es, h, hleast⟩
  cases hsign with
  | none => exact (hrow.unsigned '-' (by simp_all)).1 rfl
  | plus => cases h
  | minus =>
    obtain ⟨-, rfl⟩ := List.cons.inj h
    exact absurd (hrow.value_unique hleast) hv.ne

/-- A decimal whose signed value fits has a magnitude that fits too, save the least integer. -/
theorem magnitude_lt {ds : List Char} {v : Nat} {n : Int64} (hsign : Sign sign negative)
    (hrow : Row 10 ds v) (hn : n.toInt = signed negative v)
    (hleast : ¬ LeastDecimal (sign ++ ds)) : v < 2 ^ 63 := by
  have hle := Int64.le_toInt n
  have hlt := Int64.toInt_lt n
  cases hsign with
  | none =>
    simp only [signed_false] at hn
    omega
  | plus =>
    simp only [signed_false] at hn
    omega
  | minus =>
    have hne : v ≠ 2 ^ 63 := by
      rintro rfl
      exact hleast ⟨ds, rfl, hrow⟩
    simp only [signed_true] at hn
    omega

theorem Integral.parse? {s : List Char} {n : Int64} (h : Integral (Text.trim s) n)
    (hleast : ¬ LeastDecimal (Text.trim s)) : parse? s = some (.int n) := by
  rw [parse?_eq_some_int_iff]
  generalize Text.trim s = t at h hleast
  cases h with
  | @decimal sign negative ds v _ hsign hrow hn =>
    have hv : (Int64.ofNat v).toInt = v :=
      Int64.toInt_ofNat_of_lt (magnitude_lt hsign hrow hn hleast)
    refine ⟨sign, negative, ds, Int64.ofNat v, hsign, rfl, fun _ => hrow.unsigned, ?_, ?_⟩
    · refine unsigned?_int_iff.mpr (Or.inl (decimalInteger?_eq_some_iff.mpr ?_))
      exact ⟨[], false, ds, v, .none, rfl, hrow, hv⟩
    · exact Int64.toInt_inj.mp (hn.trans (toInt_applied hv).symm)
  | @hexadecimal sign negative x ds v hsign hx hrow =>
    refine ⟨sign, negative, _, _, hsign, rfl, fun _ => ?_, ?_, ofInt_signed negative v⟩
    · rintro c ⟨⟩
      decide
    · exact unsigned?_int_iff.mpr (Or.inr ⟨x, ds, v, hx, rfl, hrow, rfl⟩)

theorem DoublySigned.parse? {s : List Char} {n : Int64} (h : DoublySigned (Text.trim s) n) :
    parse? s = some (.int n) := by
  rw [parse?_eq_some_int_iff]
  generalize Text.trim s = t at h
  cases h with
  | @decimal outer inner flips negative ds v m houter hinner houter' hinner' hrow hm =>
    refine ⟨outer, flips, _, m, houter, rfl, fun h => absurd h houter', ?_, rfl⟩
    refine unsigned?_int_iff.mpr (Or.inl (decimalInteger?_eq_some_iff.mpr ?_))
    exact ⟨inner, negative, ds, v, hinner, rfl, hrow, hm⟩

theorem integral_or_doublySigned {s : List Char} {n : Int64} (h : parse? s = some (.int n)) :
    (Integral (Text.trim s) n ∧ ¬ LeastDecimal (Text.trim s)) ∨
      DoublySigned (Text.trim s) n := by
  obtain ⟨sign, flips, rest, m, hsign, ht, hfirst, hm, rfl⟩ := parse?_eq_some_int_iff.mp h
  rw [ht]
  rcases unsigned?_int_iff.mp hm with hm | ⟨x, ds, v, hx, rfl, hrow, rfl⟩
  · obtain ⟨inner, negative, ds, v, hinner, rfl, hrow, hv⟩ := decimalInteger?_eq_some_iff.mp hm
    by_cases hnil : inner = []
    · subst hnil
      cases hinner
      have hlt := Int64.toInt_lt m
      refine Or.inl ⟨.decimal hsign hrow (toInt_applied hv), ?_⟩
      rw [signed_false] at hv
      exact not_leastDecimal hsign hrow (by omega)
    · have hsign' : sign ≠ [] := fun h => hnil (hinner.unsigned_of_append (hfirst h))
      exact Or.inr (.decimal hsign hinner hsign' hnil hrow hv)
  · rw [← ofInt_signed]
    exact Or.inl ⟨.hexadecimal hsign hx hrow, not_leastDecimal_marked hx hsign⟩

/-- The integers read are those of the integer numerals and of the decimals with two signs, and
the least integer is none of them when it is written in decimal. -/
theorem parse?_int_iff (s : List Char) (n : Int64) : parse? s = some (.int n) ↔
    (Integral (Text.trim s) n ∧ ¬ LeastDecimal (Text.trim s)) ∨
      DoublySigned (Text.trim s) n := by
  constructor
  · exact integral_or_doublySigned
  · rintro (⟨h, hleast⟩ | h)
    · exact h.parse? hleast
    · exact h.parse?

/-- No integer numeral has two signs. -/
theorem DoublySigned.not_integral {m n : Int64} (h : DoublySigned t m) : ¬ Integral t n := by
  have hrest : Integral t n → Unsigned (splitSign t).2 := by
    rintro (⟨hsign, hrow, -⟩ | ⟨hsign, -, -⟩)
    · rw [splitSign_append hsign hrow.unsigned]
      exact hrow.unsigned
    · have hzero : ∀ r, Unsigned ('0' :: r) := by
        rintro r c ⟨⟩
        decide
      rw [splitSign_append hsign (hzero _)]
      exact hzero _
  intro hn
  cases h with
  | @decimal outer inner flips negative ds v _ houter hinner houter' hinner' hrow hm =>
    have hunsigned := hrest hn
    rw [splitSign_eq_iff.mpr ⟨outer, houter, rfl, fun h => absurd h houter'⟩] at hunsigned
    exact hinner' (hinner.unsigned_of_append hunsigned)

/-- Two minus signs make a positive number of no numeral, and the least integer is a numeral but
not read as an integer: the integers read are not those of the grammar. -/
theorem parse?_off_grammar :
    (parse? "--5".toList = some (.int 5) ∧ ∀ n, ¬ Integral (Text.trim "--5".toList) n) ∧
      Integral (Text.trim "-9223372036854775808".toList) Int64.minValue ∧
      ∀ n, parse? "-9223372036854775808".toList ≠ some (.int n) := by
  have hfive : Row 10 ['5'] 5 := natural?_eq_some_iff.mp (by decide)
  have hleast : Row 10 "9223372036854775808".toList (2 ^ 63) :=
    natural?_eq_some_iff.mp (by decide +kernel)
  have hintegral : Integral ('-' :: "9223372036854775808".toList) Int64.minValue :=
    .decimal .minus hleast (by decide +kernel)
  have htwo : DoublySigned ("--5".toList) 5 :=
    .decimal .minus .minus nofun nofun hfive (n := -5) (by decide)
  have htrim : Text.trim "--5".toList = "--5".toList := by decide +kernel
  have htrim' : Text.trim "-9223372036854775808".toList =
      '-' :: "9223372036854775808".toList := by decide +kernel
  rw [htrim, htrim']
  refine ⟨⟨DoublySigned.parse? (by rwa [htrim]), fun n => htwo.not_integral⟩, hintegral, ?_⟩
  intro n hn
  rcases integral_or_doublySigned hn with ⟨-, h⟩ | h
  · exact h ⟨_, htrim', hleast⟩
  · rw [htrim'] at h
    exact h.not_integral hintegral

end Lua.Numeral
