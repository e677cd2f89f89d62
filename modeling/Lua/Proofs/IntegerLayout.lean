/-
The texts of integer conversions.

The text of `%d`, `%u`, `%o` or `%x` is made of five parts: fill spaces, a sign or a mark, fill
zeros, digits, and fill spaces.  This module says what each of them is, for all flags, widths and
precisions:

* `IntegerForm.base`, `IntegerForm.magnitude` — the base of a form, and the number its digits
  denote;
* `Leads` — the sign or the mark in front of the digits;
* `IntegerText.Denotes` — the parts of a text, and what they have to be;
* `Conversion.exists_integerText` — the text of a conversion has such parts;
* `Library.Strings.format_integer` — what `format` gives for an integer;
* `Format.exists_conversionText` — every conversion has a format string.

Design notes: the decimal form counts the magnitude, which for the least integer is no 64-bit
integer, and all other forms count modulo 2⁶⁴.  A width of 0 cannot be written, for that digit is a
flag.
-/
import Lua.Proofs.FormatLimits
import Lua.Proofs.IntegerTexts
import Mathlib.Data.Nat.Log

namespace Lua

open Numeral (IsDigit digitWorth)

/-! ### Rows of digits -/

namespace Numeral

variable {base v : Nat} {ds : List Char}

/-- Zeros in front change no value. -/
theorem Row.zeros (h : Row base ds v) (hbase : 0 < base) (k : Nat) :
    Row base (List.replicate k '0' ++ ds) v := by
  have hzero : digitWorth '0' = 0 := rfl
  refine ⟨by simp [h.ne_nil], ?_, ?_⟩
  · intro c hc
    rcases List.mem_append.mp hc with hc | hc
    · rw [List.eq_of_mem_replicate hc]
      exact ⟨rfl, hbase⟩
    · exact h.digits c hc
  · rw [h.value]
    simp [hzero, Nat.ofDigits_append_replicate_zero]

theorem upper_worth : ∀ n : Fin 128, (Char.ofNat n).isAlphanum = true →
    (Char.ofNat n).toUpper.isAlphanum = true ∧
      digitWorth (Char.ofNat n).toUpper = digitWorth (Char.ofNat n) ∧
      (Char.ofNat n).toUpper.isLower = false := by
  decide +kernel

theorem IsDigit.upper {c : Char} (h : c.isAlphanum = true) : c.toUpper.isAlphanum = true ∧
    digitWorth c.toUpper = digitWorth c ∧ c.toUpper.isLower = false := by
  have htable := upper_worth ⟨c.toNat, toNat_lt_of_isAlphanum h⟩
  rw [Char.ofNat_toNat] at htable
  exact htable h

/-- Upper-case digits have the same value. -/
theorem Row.upper (h : Row base ds v) : Row base (Format.upperCase ds) v := by
  refine ⟨by simpa [Format.upperCase] using h.ne_nil, ?_, ?_⟩
  · intro c hc
    obtain ⟨d, hd, rfl⟩ := List.mem_map.mp hc
    obtain ⟨halnum, hworth⟩ := h.digits d hd
    obtain ⟨halnum', hworth', -⟩ := IsDigit.upper halnum
    exact ⟨halnum', by omega⟩
  · rw [h.value, Format.upperCase, ← List.map_reverse, List.map_map]
    congr 1
    refine List.map_congr_left fun c hc => ?_
    have halnum := (h.digits c (List.mem_reverse.mp hc)).1
    exact (IsDigit.upper halnum).2.1.symm

/-- The length of a number in a base. -/
theorem length_toDigits (hbase : 1 < base) (n : Nat) :
    (Nat.toDigits base n).length = Nat.log base n + 1 := by
  refine le_antisymm ?_ ?_
  · exact (Nat.length_toDigits_le_iff hbase (Nat.succ_pos _)).mpr (Nat.lt_pow_succ_log_self hbase n)
  · rcases Nat.eq_zero_or_pos (Nat.log base n) with h0 | hpos
    · rw [h0]
      exact Nat.length_toDigits_pos
    · -- fewer digits would mean a smaller number
      by_contra hlt
      have hle : (Nat.toDigits base n).length ≤ Nat.log base n := by omega
      have hsmall := (Nat.length_toDigits_le_iff hbase hpos).mp hle
      have hn : n ≠ 0 := by
        rintro rfl
        simp at hpos
      exact absurd (Nat.pow_log_le_self base hn) (Nat.not_le.mpr hsmall)

theorem toDigits_lower (hbase : 1 < base) (hbase' : base ≤ 16) (n : Nat) :
    ∀ c ∈ Nat.toDigits base n, c.isUpper = false := by
  induction n using Nat.strong_induction_on with
  | _ n ih =>
    have htable : ∀ d < 16, (Nat.digitChar d).isUpper = false := by decide
    intro c hc
    rw [Nat.toDigits_eq_if hbase] at hc
    split at hc
    · obtain rfl := List.mem_singleton.mp hc
      exact htable n (by omega)
    · rcases List.mem_append.mp hc with hc | hc
      · exact ih (n / base) (Nat.div_lt_self (by omega) hbase) c hc
      · obtain rfl := List.mem_singleton.mp hc
        exact htable _ ((Nat.mod_lt n (by omega)).trans_le hbase')

end Numeral

/-! ### The parts of a text -/

namespace IntegerForm

/-- The base of the digits. -/
def base : IntegerForm → Nat
  | .decimal | .unsigned => 10
  | .octal => 8
  | .hexadecimal _ => 16

/-- The number that the digits denote: the magnitude, or the integer modulo 2⁶⁴. -/
def magnitude : IntegerForm → Int64 → Nat
  | .decimal, n => n.toInt.natAbs
  | _, n => (n.toInt % 2 ^ 64).toNat

end IntegerForm

/-- What stands in front of the digits: a sign before decimals, and a mark before the digits of
other bases. -/
inductive Leads (flags : FormatFlags) (n : Int64) : IntegerForm → List Char → Prop
  | minus (hn : n.toInt < 0) : Leads flags n .decimal ['-']
  | plus (hn : 0 ≤ n.toInt) (hf : flags.forceSign = true) : Leads flags n .decimal ['+']
  | blank (hn : 0 ≤ n.toInt) (hf : flags.forceSign = false) (hp : flags.padSign = true) :
      Leads flags n .decimal [' ']
  | none (hn : 0 ≤ n.toInt) (hf : flags.forceSign = false) (hp : flags.padSign = false) :
      Leads flags n .decimal []
  | unsigned : Leads flags n .unsigned []
  | unmarked {form : IntegerForm} (hform : form ≠ .decimal)
      (h : flags.alternate = false ∨ n = 0) : Leads flags n form []
  | octal (hf : flags.alternate = true) (hn : n ≠ 0) : Leads flags n .octal ['0']
  | hexadecimal (upper : Bool) (hf : flags.alternate = true) (hn : n ≠ 0) :
      Leads flags n (.hexadecimal upper) ['0', if upper then 'X' else 'x']

/-- The parts of the text of an integer. -/
structure IntegerText where
  left : Nat
  lead : List Char
  zeros : Nat
  digits : List Char
  right : Nat

namespace IntegerText

/-- The parts in a row. -/
def chars (t : IntegerText) : List Char :=
  List.replicate t.left ' ' ++ (t.lead ++ (List.replicate t.zeros '0' ++
    (t.digits ++ List.replicate t.right ' ')))

/-- The text is that of a conversion in a form for an integer. -/
structure Denotes (t : IntegerText) (c : Conversion) (form : IntegerForm) (n : Int64) : Prop where
  /-- The digits denote the number, together with the zeros that fill. -/
  number : Numeral.Row form.base (List.replicate t.zeros '0' ++ t.digits) (form.magnitude n)
  /-- There are as many digits as the number has, and at least as many as the precision asks for. -/
  count : t.digits.length = max (c.precision.getD 0) (Nat.log form.base (form.magnitude n) + 1)
  /-- Letters among the digits are of the case of the conversion. -/
  letters : ∀ d ∈ t.digits,
    if form = .hexadecimal true then d.isLower = false else d.isUpper = false
  lead : Leads c.flags n form t.lead
  length : t.chars.length = max (c.width.getD 0) (t.lead.length + t.digits.length)
  /-- Spaces in front: neither is the text moved to the left, nor do zeros fill it. -/
  left : 0 < t.left → c.flags.leftJustify = false ∧
    (c.flags.zeroPad = false ∨ c.precision ≠ none)
  right : 0 < t.right → c.flags.leftJustify = true
  zeros : 0 < t.zeros → c.flags.zeroPad = true ∧ c.flags.leftJustify = false ∧ c.precision = none

theorem length_chars (t : IntegerText) :
    t.chars.length = t.left + t.lead.length + t.zeros + t.digits.length + t.right := by
  simp only [chars, List.length_append, List.length_replicate]
  omega

end IntegerText

/-! ### The text of a conversion -/

theorem toNat_toUInt64 (n : Int64) : n.toUInt64.toNat = (n.toInt % 2 ^ 64).toNat := by
  have hlt : n.toUInt64.toNat < 2 ^ 64 := n.toUInt64.toNat_lt
  have hint : n.toInt = Int.bmod n.toUInt64.toNat (2 ^ 64) := BitVec.toInt_eq_toNat_bmod _
  have hmod : n.toInt % 2 ^ 64 = n.toUInt64.toNat % 2 ^ 64 := by
    rw [hint]
    exact Int.bmod_emod
  omega

namespace IntegerForm

/-- The digits of an integer, without any that fill. -/
def digits : IntegerForm → Int64 → List Char
  | .decimal, n => Decimal.digits n.toInt.natAbs
  | .unsigned, n => Decimal.digits n.toUInt64.toNat
  | .octal, n => Format.digitsIn 8 n.toUInt64.toNat
  | .hexadecimal false, n => Format.digitsIn 16 n.toUInt64.toNat
  | .hexadecimal true, n => Format.upperCase (Format.digitsIn 16 n.toUInt64.toNat)

/-- The sign or the mark of an integer. -/
def lead (flags : FormatFlags) : IntegerForm → Int64 → List Char
  | .decimal, n => flags.sign (n < 0)
  | .unsigned, _ => []
  | .octal, n => if flags.alternate && n != 0 then ['0'] else []
  | .hexadecimal upper, n =>
    if flags.alternate && n != 0 then ['0', if upper then 'X' else 'x'] else []

/-- The digits are those of the magnitude, but for the case of letters. -/
theorem digits_eq (form : IntegerForm) (n : Int64) : form.digits n =
    if form = .hexadecimal true then Format.upperCase (Nat.toDigits form.base (form.magnitude n))
    else Nat.toDigits form.base (form.magnitude n) := by
  cases form with
  | hexadecimal upper => cases upper <;> simp [digits, magnitude, toNat_toUInt64] <;> rfl
  | _ =>
    simp only [digits, toNat_toUInt64]
    rfl

theorem one_lt_base (form : IntegerForm) : 1 < form.base := by
  cases form <;> simp [base]

theorem base_le (form : IntegerForm) : form.base ≤ 16 := by
  cases form <;> simp [base]

theorem row_digits (form : IntegerForm) (n : Int64) :
    Numeral.Row form.base (form.digits n) (form.magnitude n) := by
  have hrow := Numeral.row_toDigits form.one_lt_base form.base_le (form.magnitude n)
  rw [digits_eq]
  split
  · exact hrow.upper
  · exact hrow

theorem length_digits (form : IntegerForm) (n : Int64) :
    (form.digits n).length = Nat.log form.base (form.magnitude n) + 1 := by
  have hlength := Numeral.length_toDigits form.one_lt_base (form.magnitude n)
  rw [digits_eq]
  split
  · rw [Format.upperCase, List.length_map, hlength]
  · exact hlength

theorem letters_digits (form : IntegerForm) (n : Int64) : ∀ d ∈ form.digits n,
    if form = .hexadecimal true then d.isLower = false else d.isUpper = false := by
  intro d hd
  have hrow := Numeral.row_toDigits form.one_lt_base form.base_le (form.magnitude n)
  rw [digits_eq] at hd
  split at hd
  · rename_i hupper
    rw [if_pos hupper]
    obtain ⟨e, he, rfl⟩ := List.mem_map.mp hd
    exact (IsDigit.upper (hrow.digits e he).1).2.2
  · rename_i hupper
    rw [if_neg hupper]
    exact Numeral.toDigits_lower form.one_lt_base form.base_le _ d hd

theorem unmarked_of_not {flags : FormatFlags} {n : Int64}
    (h : ¬ (flags.alternate = true ∧ n ≠ 0)) : flags.alternate = false ∨ n = 0 := by
  by_cases hn : n = 0
  · exact .inr hn
  · exact .inl (Bool.eq_false_iff.mpr fun hf => h ⟨hf, hn⟩)

theorem leads_lead (flags : FormatFlags) (form : IntegerForm) (n : Int64) :
    Leads flags n form (form.lead flags n) := by
  cases form with
  | decimal =>
    simp only [lead, FormatFlags.sign, Int64.lt_iff_toInt_lt]
    by_cases hn : n.toInt < 0
    · simpa [hn] using Leads.minus hn
    · have hn' : 0 ≤ n.toInt := by omega
      cases hf : flags.forceSign with
      | true => simpa [hn] using Leads.plus hn' hf
      | false =>
        cases hp : flags.padSign with
        | true => simpa [hn] using Leads.blank hn' hf hp
        | false => simpa [hn] using Leads.none hn' hf hp
  | unsigned => exact .unsigned
  | octal =>
    by_cases h : flags.alternate = true ∧ n ≠ 0
    · rw [lead, if_pos (by simpa using h)]
      exact .octal h.1 h.2
    · rw [lead, if_neg (by simpa using h)]
      exact .unmarked (by simp) (unmarked_of_not h)
  | hexadecimal upper =>
    by_cases h : flags.alternate = true ∧ n ≠ 0
    · rw [lead, if_pos (by simpa using h)]
      exact .hexadecimal upper h.1 h.2
    · rw [lead, if_neg (by simpa using h)]
      exact .unmarked (by simp) (unmarked_of_not h)

end IntegerForm

namespace Conversion

/-- The text, by its parts.  Only with precision 0 the integer 0 has no digits. -/
theorem integerText_eq (c : Conversion) (form : IntegerForm) {n : Int64}
    (hzero : ¬ (c.precision = some 0 ∧ n = 0)) : c.integerText form n =
      { c.flags with zeroPad := c.flags.zeroPad && c.precision.isNone }.pad c.width
        (form.lead c.flags n) (Decimal.padZeros (c.precision.getD 0) (form.digits n)) true := by
  have hpad : ∀ ds, Decimal.padZeros 0 ds = ds := fun ds => by simp [Decimal.padZeros]
  obtain ⟨flags, width, precision, letter⟩ := c
  rcases precision with _ | _ | p
  · rw [Option.getD_none, hpad]
    cases form with
    | hexadecimal upper => cases upper <;> rfl
    | _ => rfl
  · have hn : n ≠ 0 := fun hn => hzero ⟨rfl, hn⟩
    rw [Option.getD_some, hpad]
    cases form with
    | hexadecimal upper => cases upper <;> simp only [integerText, if_neg hn] <;> rfl
    | _ =>
      simp only [integerText, if_neg hn]
      rfl
  · cases form with
    | hexadecimal upper => cases upper <;> rfl
    | _ => rfl

/-- What fills a text goes to one side: spaces behind it, zeros behind what leads, or spaces in
front. -/
theorem pad_cases (flags : FormatFlags) (width : Option Nat) (lead body : List Char) :
    ∃ fill, fill = width.getD 0 - (lead.length + body.length) ∧
      (flags.leftJustify = true ∧
          flags.pad width lead body true = lead ++ body ++ List.replicate fill ' ' ∨
        flags.leftJustify = false ∧ flags.zeroPad = true ∧
          flags.pad width lead body true = lead ++ List.replicate fill '0' ++ body ∨
        flags.leftJustify = false ∧ flags.zeroPad = false ∧
          flags.pad width lead body true = List.replicate fill ' ' ++ lead ++ body) := by
  refine ⟨_, rfl, ?_⟩
  cases hleft : flags.leftJustify with
  | true => exact .inl ⟨rfl, by simp [FormatFlags.pad, hleft]⟩
  | false =>
    cases hzero : flags.zeroPad with
    | true => exact .inr (.inl ⟨rfl, rfl, by simp [FormatFlags.pad, hleft, hzero]⟩)
    | false => exact .inr (.inr ⟨rfl, rfl, by simp [FormatFlags.pad, hleft, hzero]⟩)

/-- **The text of an integer conversion** has the parts that its flags, its width and its precision
ask for. -/
theorem exists_integerText (c : Conversion) (form : IntegerForm) {n : Int64}
    (hzero : ¬ (c.precision = some 0 ∧ n = 0)) :
    ∃ t : IntegerText, c.integerText form n = t.chars ∧ t.Denotes c form n := by
  have hbase : 0 < form.base := Nat.lt_of_succ_lt form.one_lt_base
  have hrow := (form.row_digits n).zeros hbase (c.precision.getD 0 - (form.digits n).length)
  have hcount : (Decimal.padZeros (c.precision.getD 0) (form.digits n)).length =
      max (c.precision.getD 0) (Nat.log form.base (form.magnitude n) + 1) := by
    rw [Decimal.padZeros, List.length_append, List.length_replicate, form.length_digits n]
    omega
  have hletters : ∀ d ∈ Decimal.padZeros (c.precision.getD 0) (form.digits n),
      if form = .hexadecimal true then d.isLower = false else d.isUpper = false := by
    intro d hd
    rcases List.mem_append.mp hd with hd | hd
    · rw [List.eq_of_mem_replicate hd]
      split <;> rfl
    · exact form.letters_digits n d hd
  have hleads := form.leads_lead c.flags n
  rw [integerText_eq c form hzero]
  rw [← Decimal.padZeros] at hrow
  generalize form.lead c.flags n = lead at hleads ⊢
  generalize Decimal.padZeros (c.precision.getD 0) (form.digits n) = digits
    at hrow hcount hletters ⊢
  obtain ⟨fill, hfill, ⟨hleft, htext⟩ | ⟨hleft, hpad, htext⟩ | ⟨hleft, hpad, htext⟩⟩ :=
    pad_cases { c.flags with zeroPad := c.flags.zeroPad && c.precision.isNone } c.width lead digits
  · refine ⟨⟨0, lead, 0, digits, fill⟩, ?_, hrow, hcount, hletters, hleads, ?_, nofun,
      fun _ => hleft, nofun⟩
    · simp [htext, IntegerText.chars]
    · rw [IntegerText.length_chars]
      dsimp only
      omega
  · obtain ⟨hz, hnone⟩ : c.flags.zeroPad = true ∧ c.precision = none := by simpa using hpad
    refine ⟨⟨0, lead, fill, digits, 0⟩, ?_, hrow.zeros hbase fill, hcount, hletters, hleads, ?_,
      nofun, nofun, fun _ => ⟨hz, hleft, hnone⟩⟩
    · simp [htext, IntegerText.chars]
    · rw [IntegerText.length_chars]
      dsimp only
      omega
  · have hspaces : c.flags.zeroPad = false ∨ c.precision ≠ none := by
      rcases Bool.and_eq_false_iff.mp hpad with hz | hsome
      · exact .inl hz
      · exact .inr fun hnone => by simp [hnone] at hsome
    refine ⟨⟨fill, lead, 0, digits, 0⟩, ?_, hrow, hcount, hletters, hleads, ?_,
      fun _ => ⟨hleft, hspaces⟩, nofun, nofun⟩
    · simp [htext, IntegerText.chars]
    · rw [IntegerText.length_chars]
      dsimp only
      omega

end Conversion

/-! ### Conversions as texts -/

namespace Numeral

theorem head_toDigits {base n : Nat} (hbase : 1 < base) (hn : n ≠ 0) :
    (Nat.toDigits base n).head? ≠ some '0' := by
  induction n using Nat.strong_induction_on with
  | _ n ih =>
    rw [Nat.toDigits_eq_if hbase]
    split
    · simp [hn]
    · have hdiv : n / base ≠ 0 := by
        rw [Ne, Nat.div_eq_zero_iff]
        omega
      rw [List.head?_append_of_ne_nil _ Nat.toDigits_ne_nil]
      exact ih (n / base) (Nat.div_lt_self (by omega) hbase) hdiv

theorem byte_worth : ∀ n : Fin 128, (Char.ofNat n).isAlphanum = true →
    digitWorth (Char.ofNat n) < 10 → Ascii.isDigit (Ascii.byte (Char.ofNat n)) = true ∧
      (Ascii.byte (Char.ofNat n)).toNat - 0x30 = digitWorth (Char.ofNat n) := by
  decide +kernel

/-- The byte of a decimal digit is a digit with the same value. -/
theorem IsDigit.byte {c : Char} (h : IsDigit 10 c) : Ascii.isDigit (Ascii.byte c) = true ∧
    (Ascii.byte c).toNat - 0x30 = digitWorth c := by
  have htable := byte_worth ⟨c.toNat, toNat_lt_of_isAlphanum h.1⟩
  rw [Char.ofNat_toNat] at htable
  exact htable h.1 h.2

end Numeral

namespace Format

/-- The bytes of a row of digits are digits, and they denote the same number. -/
theorem row_bytes {ds : List Char} {v : Nat} (h : Numeral.Row 10 ds v) :
    (∀ b ∈ ds.map Ascii.byte, Ascii.isDigit b = true) ∧ rowNumber (ds.map Ascii.byte) = v := by
  refine ⟨fun b hb => ?_, ?_⟩
  · obtain ⟨c, hc, rfl⟩ := List.mem_map.mp hb
    exact (h.digits c hc).byte.1
  · rw [rowNumber, ← List.map_reverse, List.map_map]
    refine Eq.trans ?_ h.value.symm
    congr 1
    refine List.map_congr_left fun c hc => ?_
    exact (h.digits c (List.mem_reverse.mp hc)).byte.2

/-- The bytes of a number in decimal. -/
def digitBytes (n : Nat) : Bytes := (Decimal.digits n).map Ascii.byte

theorem digitBytes_isDigit (n : Nat) : ∀ b ∈ digitBytes n, Ascii.isDigit b = true :=
  (row_bytes (Numeral.row_digits n)).1

theorem rowNumber_digitBytes (n : Nat) : rowNumber (digitBytes n) = n :=
  (row_bytes (Numeral.row_digits n)).2

theorem digitBytes_head {n : Nat} (hn : n ≠ 0) : (digitBytes n).head? ≠ some (Ascii.byte '0') := by
  have hne := Numeral.head_toDigits (by decide : 1 < 10) hn
  rw [digitBytes, List.head?_map]
  intro h
  obtain ⟨c, hc, hbyte⟩ := Option.map_eq_some_iff.mp h
  have hrow := Numeral.row_digits n
  have hlt := Numeral.toNat_lt_of_isAlphanum (hrow.digits c (List.mem_of_mem_head? hc)).1
  have hnat := congrArg UInt8.toNat hbyte
  rw [Ascii.toNat_byte hlt] at hnat
  obtain rfl : c = '0' := Char.toNat_inj.mp hnat
  exact hne hc

/-- The flags of a conversion, each once. -/
def flagBytes (flags : FormatFlags) : Bytes :=
  (if flags.leftJustify then [Ascii.byte '-'] else []) ++
    (if flags.forceSign then [Ascii.byte '+'] else []) ++
    (if flags.padSign then [Ascii.byte ' '] else []) ++
    (if flags.alternate then [Ascii.byte '#'] else []) ++
    (if flags.zeroPad then [Ascii.byte '0'] else [])

theorem flagsOf_flagBytes (flags : FormatFlags) :
    flagsOf (flagBytes flags) = flags ∧ ∀ b ∈ flagBytes flags, isFlag b = true := by
  obtain ⟨left, sign, blank, alternate, zero⟩ := flags
  revert left sign blank alternate zero
  decide +kernel

/-- **Every conversion has a text**, unless its width is 0 or its precision out of range. -/
theorem exists_conversionText (c : Conversion) (hwidth : c.width ≠ some 0)
    (hprecision : c.precision.getD 0 < 2 ^ 64) (hletter : Library.Strings.spec? c.letter ≠ none) :
    ∃ x : ConversionText, x.conversion = c := by
  obtain ⟨flags, width, precision, letter⟩ := c
  obtain ⟨hflags, hisFlag⟩ := flagsOf_flagBytes flags
  refine ⟨⟨flagBytes flags, width.elim [] digitBytes, precision.map digitBytes, letter, hisFlag,
    ?_, ?_, ?_, hletter⟩, ?_⟩
  · cases width with
    | none => exact fun b hb => absurd hb List.not_mem_nil
    | some k => exact digitBytes_isDigit k
  · cases width with
    | none => exact nofun
    | some k => exact digitBytes_head fun hk => hwidth (congrArg some hk)
  · intro ds hds
    obtain ⟨k, -, rfl⟩ := Option.map_eq_some_iff.mp hds
    exact digitBytes_isDigit k
  · have hw : (if (width.elim [] digitBytes).isEmpty = true then none
        else some (rowNumber (width.elim [] digitBytes))) = width := by
      cases width with
      | none => rfl
      | some k =>
        have hne : ¬ (digitBytes k).isEmpty = true := by
          simp [digitBytes, Decimal.digits, Nat.toDigits_ne_nil]
        rw [Option.elim_some, if_neg hne, rowNumber_digitBytes]
    have hp : ((precision.map digitBytes).map fun ds =>
        if rowNumber ds < 2 ^ 64 then rowNumber ds else 0) = precision := by
      cases precision with
      | none => rfl
      | some k =>
        have hk : k < 2 ^ 64 := hprecision
        simp only [Option.map_some, rowNumber_digitBytes, if_pos hk]
    simp only [ConversionText.conversion, ConversionText.widthNumber, hflags, hw, hp]

theorem parse_text (x : ConversionText) (h : x.widthNumber < 2 ^ 64) :
    parse (percent :: x.followedBy []) = .ok [.conversion x.conversion] := by
  rw [parse_eq, readAll_text x [] h]
  rfl

end Format

/-! ### Integers in formats -/

namespace Library.Strings

open Format (ConversionText percent)

variable {H : Host} {c : Conversion} {form : IntegerForm} {n : Int64}

theorem convertArgument_integer (hform : spec? c.letter = some (.integer form))
    (hwidth : c.width.getD 0 ≤ 99) (hprecision : c.precision.getD 0 ≤ 99) {args : List Value}
    {i : Nat} (hi : args[i]? = some (.int n)) : (convertArgument c args i : Program H Bytes) =
      .done ((c.integerText form n).map Ascii.byte) := by
  have hlimit : ¬ (Format.limit < c.width.getD 0 ∨ Format.limit < c.precision.getD 0) := by
    rw [Format.limit]
    omega
  have hnumber : argument Number args i = .ok (.int n) := by
    rw [argument_eq_ok, List.getD_eq_getElem?_getD, hi]
    rfl
  have hargument : integralArgument args i = .ok n :=
    integralArgument_eq_ok.mpr ⟨.int n, hnumber, rfl⟩
  rw [convertArgument, if_neg hlimit, hform]
  simp only [hargument]
  rfl

/-- **Integers in formats.**  Let a conversion ask for an integer, with a width and a precision up
to 99.  Its text for an integer is made of fill spaces, a sign or a mark, fill zeros, digits and
fill spaces, as its form, its flags, its width and its precision ask for: with any arguments
around, and in particular for a format string that is nothing but this conversion.  There is such
a format string for each conversion, unless it has the width 0. -/
theorem format_integer (host : HostCode H) (w : World H) (c : Conversion) (n : Int64)
    (more : List Value) (hform : spec? c.letter = some (.integer form))
    (hwidth : c.width.getD 0 ≤ 99) (hprecision : c.precision.getD 0 ≤ 99)
    (hzero : ¬ (c.precision = some 0 ∧ n = 0)) :
    ∃ t : IntegerText, t.Denotes c form n ∧
      (∀ args i, args[i]? = some (.int n) → (convertArgument c args i).Runs (.standard host) w
        (.ok (t.chars.map Ascii.byte)) w) ∧
      (∀ x : ConversionText, x.conversion = c →
        ((Behaviour.standard host).builtin (.string .format)
          (.string (percent :: x.followedBy []) :: .int n :: more)).Runs (.standard host) w
          (.ok [.string (t.chars.map Ascii.byte)]) w) ∧
      (c.width ≠ some 0 → ∃ x : ConversionText, x.conversion = c) := by
  obtain ⟨t, htext, hdenotes⟩ := c.exists_integerText form hzero
  refine ⟨t, hdenotes, fun args i hi => ?_, fun x hx => ?_, fun hne => ?_⟩
  · rw [convertArgument_integer hform hwidth hprecision hi, htext]
    exact .done
  · have hrange : x.widthNumber < 2 ^ 64 := by
      rw [← x.conversion_width, hx]
      omega
    have hparse := Format.parse_text x hrange
    rw [hx] at hparse
    have hconvert : (convertArgument c (.string (percent :: x.followedBy []) :: .int n :: more) 1 :
        Program H Bytes) = _ := convertArgument_integer hform hwidth hprecision rfl
    rw [htext] at hconvert
    exact Program.runs_of_eq_done (format_conversion hparse hconvert)
  · exact Format.exists_conversionText c hne (by omega) (by simp [hform])

/-- A sign in any case, 22 digits, and a width of 30. -/
def filledText : ConversionText where
  flags := Bytes.ofString "+"
  width := Bytes.ofString "30"
  precision := some (Bytes.ofString "22")
  letter := Ascii.byte 'i'
  flags_isFlag := by decide +kernel
  width_isDigit := by decide +kernel
  width_head := by decide +kernel
  precision_isDigit := by decide +kernel
  letter_known := by decide

/-- The least integer, whose magnitude is no 64-bit integer. -/
theorem format_integer_least :
    filledText.conversion.precision = some 22 ∧
      ∃ t : IntegerText, t.Denotes filledText.conversion .decimal Int64.minValue ∧
        t.chars.map Ascii.byte = Bytes.ofString "       -0009223372036854775808" ∧
        (Behaviour.bare.builtin (.string .format)
          [.ofText "%+30.22i", .int Int64.minValue]).Runs .bare .bare
          (.ok [.ofText "       -0009223372036854775808"]) .bare := by
  have hprecision : filledText.conversion.precision = some 22 := rfl
  have hform : spec? filledText.conversion.letter = some (.integer .decimal) := rfl
  obtain ⟨t, hdenotes, -, hformat, -⟩ := format_integer .bare .bare filledText.conversion
    Int64.minValue [] hform (by decide) (by decide) (by simp [hprecision])
  have hrun := hformat filledText rfl
  have htext : (Behaviour.bare.builtin (.string .format)
      [.ofText "%+30.22i", .int Int64.minValue]).Runs .bare .bare
      (.ok [.ofText "       -0009223372036854775808"]) .bare := .done
  exact ⟨hprecision, t, hdenotes, hrun.string_unique htext, htext⟩

end Library.Strings

end Lua
