/-
Numerals in a base.

An integer is read off its digits in any base from 2 to 36, and off hexadecimal digits behind their
mark.  Rows of digits may be of any length, and what does not fit into 64 bits is reduced modulo
2⁶⁴:

* `Based` — the numerals of a base: an optional minus and a row of digits;
* `parseInBase?_eq_some_iff` — these are what is read, each as its signed value modulo 2⁶⁴;
* `Row.parse?_marked` — a hexadecimal numeral may carry its mark;
* `based_numerals` — what the function `tonumber` makes of strings.

Design notes: the loop over words reduces after every digit, which comes to the same as reducing
the exact value of the row once, at the end.
-/
import Lua.Proofs.IntegerTexts

namespace Lua

namespace Numeral

variable {base v : Nat} {ds s rest : List Char} {n : Int64}

/-! ### The numerals of a base -/

/-- A minus, or nothing. -/
def minus (negative : Bool) : List Char := if negative then ['-'] else []

theorem sign_minus (negative : Bool) : Sign (minus negative) negative := by
  cases negative with
  | false => exact .none
  | true => exact .minus

/-- The numerals of a base: an optional minus and a row of digits, whose signed value counts modulo
2⁶⁴. -/
inductive Based (base : Nat) : List Char → Int64 → Prop where
  | row {ds : List Char} {v : Nat} (negative : Bool) (hrow : Row base ds v) :
      Based base (minus negative ++ ds) (Int64.ofInt (signed negative v))

/-- Takes a minus off the front: whether there was one, and the rest. -/
def splitMinus : List Char → Bool × List Char
  | '-' :: rest => (true, rest)
  | s => (false, s)

theorem splitMinus_append (negative : Bool) (h : Unsigned rest) :
    splitMinus (minus negative ++ rest) = (negative, rest) := by
  cases negative with
  | true => rfl
  | false =>
    show splitMinus rest = _
    unfold splitMinus
    split
    · exact absurd rfl (h '-' rfl).1
    · rfl

theorem minus_append_splitMinus (s : List Char) :
    minus (splitMinus s).1 ++ (splitMinus s).2 = s := by
  unfold splitMinus
  split <;> rfl

theorem parseInBase?_eq (base : Nat) (s : List Char) : parseInBase? base s =
    (natural? base (splitMinus (Text.trim s)).2).map fun v =>
      Int64.ofInt (signed (splitMinus (Text.trim s)).1 v) := by
  have hread : parseInBase? base s = (word? base (splitMinus (Text.trim s)).2).map fun v =>
      if (splitMinus (Text.trim s)).1 then -v else v := by
    rw [Option.map_eq_bind]
    rfl
  simp only [hread, word?_eq, Option.map_map, ofInt_signed]
  rfl

/-- The numerals of a base are what is read in it. -/
theorem parseInBase?_eq_some_iff : parseInBase? base s = some n ↔ Based base (Text.trim s) n := by
  simp only [parseInBase?_eq, Option.map_eq_some_iff, natural?_eq_some_iff]
  generalize Text.trim s = t
  constructor
  · rintro ⟨v, hrow, rfl⟩
    have h := Based.row (splitMinus t).1 hrow
    rwa [minus_append_splitMinus] at h
  · rintro ⟨negative, hrow⟩
    rw [splitMinus_append negative hrow.unsigned]
    exact ⟨_, hrow, rfl⟩

/-! ### Hexadecimal digits behind their mark -/

/-- A numeral with the mark in front of its digits. -/
def marked (negative : Bool) (ds : List Char) : List Char := minus negative ++ '0' :: 'x' :: ds

theorem forall_mem_marked {P : Char → Prop} {negative : Bool} (hminus : ∀ c ∈ minus negative, P c)
    (hzero : P '0') (hmark : P 'x') (hds : ∀ c ∈ ds, P c) : ∀ c ∈ marked negative ds, P c := by
  intro c hc
  rcases List.mem_append.mp hc with hc | hc
  · exact hminus c hc
  · rcases List.mem_cons.mp hc with rfl | hc
    · exact hzero
    · rcases List.mem_cons.mp hc with rfl | hc
      · exact hmark
      · exact hds c hc

theorem Row.trim_minus (h : Row base ds v) (negative : Bool) :
    Text.trim (minus negative ++ ds) = minus negative ++ ds :=
  trim_of_no_blanks fun c hc => (List.mem_append.mp hc).elim ((sign_minus negative).not_blank c)
    fun hc => (h.digits c hc).not_blank

/-- A hexadecimal numeral is read as the same integer with its mark. -/
theorem Row.parse?_marked (h : Row 16 ds v) (negative : Bool) :
    parse? (marked negative ds) = some (.int (Int64.ofInt (signed negative v))) := by
  have hsign := sign_minus negative
  have htrim : Text.trim (marked negative ds) = marked negative ds :=
    trim_of_no_blanks <| forall_mem_marked hsign.not_blank (by decide) (by decide)
      fun c hc => (h.digits c hc).not_blank
  refine Integral.parse? ?_ ?_
  · rw [htrim]
    exact .hexadecimal hsign (.inl rfl) h
  · rw [htrim]
    exact not_leastDecimal_marked (.inl rfl) hsign

theorem isAscii_minus (negative : Bool) : IsAscii (minus negative) := by
  cases negative <;> decide

end Numeral

namespace Library.Base

open Numeral

variable {H : Host} {base : Int64} {s : Bytes}

/-! ### The function -/

/-- The integer that a string denotes in a base. -/
def integerInBase? (base : Int64) (s : Bytes) : Option Int64 :=
  if Utf8.isText s then parseInBase? base.toInt.toNat (Utf8.characters s) else none

theorem integerInBase?_eq_some_iff {n : Int64} : integerInBase? base s = some n ↔
    Utf8.isText s = true ∧ Based base.toInt.toNat (Text.trim (Utf8.characters s)) n := by
  rw [← parseInBase?_eq_some_iff, integerInBase?, Option.ite_none_right_eq_some]

theorem tonumber_base (hlow : 2 ≤ base) (hhigh : base ≤ 36) (s : Bytes) :
    (tonumber [.string s, .int base] : Program H (List Value)) =
      .done [((integerInBase? base s).map Value.int).getD .nil] := by
  have hrange : ¬ (base < 2 ∨ 36 < base) := by
    rw [not_or, Int64.not_lt, Int64.not_lt]
    exact ⟨hlow, hhigh⟩
  show (if base < 2 ∨ 36 < base then _ else _) = _
  rw [if_neg hrange]
  rfl

theorem tonumber_string (s : Bytes) : (tonumber [.string s] : Program H (List Value)) =
    .done [((numberOfString? s).map Value.number).getD .nil] := rfl

/-- The bytes of a text. -/
def bytes (cs : List Char) : Bytes := Bytes.ofString (String.ofList cs)

theorem isText_bytes {cs : List Char} (h : IsAscii cs) : Utf8.isText (bytes cs) = true := by
  rw [bytes, Bytes.ofString_ascii h]
  exact Utf8.isText_ascii h

theorem characters_bytes {cs : List Char} (h : IsAscii cs) : Utf8.characters (bytes cs) = cs := by
  rw [bytes, Bytes.ofString_ascii h]
  exact Utf8.characters_ascii h

theorem numberOfString?_bytes {cs : List Char} (h : IsAscii cs) :
    numberOfString? (bytes cs) = parse? cs := by
  rw [bytes, Bytes.ofString_ascii h]
  exact numberOfString?_ascii h

/-- **Numerals in a base.**  In every base `tonumber` gives the integers that the numerals of the
base denote, and nil for all other strings.  A row of digits has the residue modulo 2⁶⁴ that a loop
over words comes to.  Hexadecimal digits denote the same integer behind their mark, where no base
is given. -/
theorem based_numerals (host : HostCode H) (w : World H) :
    let B := Behaviour.standard host
    let tonumber := fun args => B.builtin (.base .tonumber) args
    (∀ (base : Int64) (s : Bytes), 2 ≤ base → base ≤ 36 →
      ∃ r, (tonumber [.string s, .int base]).Runs B w (.ok [r]) w ∧
        (∀ n, r = .int n ↔ Utf8.isText s = true ∧
          Based base.toInt.toNat (Text.trim (Utf8.characters s)) n) ∧
        (r = .nil ∨ ∃ n, r = .int n)) ∧
    (∀ (base : Nat) (ds : List Char) (v : Nat), Numeral.Row base ds v →
      wrappingValue? base ds = some (Int64.ofInt v)) ∧
    ∀ (negative : Bool) (ds : List Char), ds ≠ [] → (∀ c ∈ ds, Numeral.IsDigit 16 c) →
      ∃ n, (tonumber [.string (bytes (marked negative ds))]).Runs B w (.ok [.int n]) w ∧
        (tonumber [.string (bytes (minus negative ++ ds)), .int 16]).Runs B w (.ok [.int n]) w := by
  intro B tonumber
  refine ⟨fun base s hlow hhigh => ?_, fun base ds v hrow => hrow.wrappingValue?,
    fun negative ds hne hds => ?_⟩
  · refine ⟨_, Program.runs_of_eq_done (tonumber_base hlow hhigh s), fun n => ?_, ?_⟩
    · rw [← integerInBase?_eq_some_iff]
      cases integerInBase? base s with
      | none => simp [Value.int]
      | some m => simp [Value.int]
    · cases integerInBase? base s with
      | none => exact .inl rfl
      | some m => exact .inr ⟨m, rfl⟩
  · obtain ⟨v, hrow⟩ : ∃ v, Numeral.Row 16 ds v := ⟨_, hne, hds, rfl⟩
    have hplain : IsAscii (minus negative ++ ds) := (isAscii_minus negative).append hrow.isAscii
    have hmarked : IsAscii (marked negative ds) :=
      forall_mem_marked (isAscii_minus negative) (by decide) (by decide) hrow.isAscii
    have hread : numberOfString? (bytes (marked negative ds))
        = some (.int (Int64.ofInt (signed negative v))) :=
      (numberOfString?_bytes hmarked).trans (hrow.parse?_marked negative)
    have hbase : integerInBase? 16 (bytes (minus negative ++ ds))
        = some (Int64.ofInt (signed negative v)) := by
      rw [integerInBase?_eq_some_iff, characters_bytes hplain, hrow.trim_minus]
      exact ⟨isText_bytes hplain, .row negative hrow⟩
    refine ⟨Int64.ofInt (signed negative v), Program.runs_of_eq_done ((tonumber_string _).trans ?_),
      Program.runs_of_eq_done ((tonumber_base (by decide) (by decide) _).trans ?_)⟩
    · rw [hread]
      rfl
    · rw [hbase]
      rfl

/-- Seventeen digits of the base 16 and a minus, with blanks around them, and with the mark. -/
theorem based_numerals_seventeenDigits :
    let tonumber := fun args => Behaviour.bare.builtin (.base .tonumber) args
    let ds := "1000000000000000f".toList
    (2 : Int64) ≤ 16 ∧ (16 : Int64) ≤ 36 ∧ Numeral.Row 16 ds (2 ^ 64 + 15) ∧
      (tonumber [.string (bytes (' ' :: '-' :: ds ++ [' '])), .int 16]).Runs .bare .bare
        (.ok [.int (-15)]) .bare ∧
      wrappingValue? 16 ds = some 15 ∧
      (tonumber [.string (bytes (marked true ds))]).Runs .bare .bare (.ok [.int (-15)]) .bare := by
  intro tonumber ds
  have hrow : Numeral.Row 16 ds (2 ^ 64 + 15) := natural?_eq_some_iff.mp (by decide +kernel)
  have hvalue : Int64.ofInt (signed true (2 ^ 64 + 15)) = -15 := by decide +kernel
  have hbased : Based 16 (minus true ++ ds) (-15) := hvalue ▸ .row true hrow
  obtain ⟨hnumeral, hwords, hmark⟩ := based_numerals .bare .bare
  -- both texts without the mark are the numeral, once their blanks are off
  have hread : ∀ cs, IsAscii cs → Text.trim cs = minus true ++ ds →
      (tonumber [.string (bytes cs), .int 16]).Runs .bare .bare (.ok [.int (-15)]) .bare := by
    intro cs hcs htrim
    obtain ⟨r, hr, hint, -⟩ := hnumeral 16 (bytes cs) (by decide) (by decide)
    obtain rfl := (hint (-15)).mpr ⟨isText_bytes hcs, by rwa [characters_bytes hcs, htrim]⟩
    exact hr
  obtain ⟨n, hn, hn'⟩ := hmark true ds hrow.ne_nil hrow.digits
  have hplain := hread (minus true ++ ds) (by decide +kernel) (hrow.trim_minus true)
  obtain rfl : n = -15 := by
    cases (hn'.unique hplain).1
    rfl
  exact ⟨by decide, by decide, hrow, hread _ (by decide +kernel) (by decide +kernel),
    (hwords 16 ds _ hrow).trans (by decide +kernel), hn⟩

end Library.Base

end Lua
