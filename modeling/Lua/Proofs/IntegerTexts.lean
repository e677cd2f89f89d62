/-
The texts of integers and what they are read as.

An integer has three texts: the plain one, the one of a decimal conversion, and the literal.  All
of them are ASCII, so reading their bytes is reading their characters.

* `numberOfString?_ascii` — a numeral is read off the bytes of its characters;
* `Numeral.row_toDigits` — the digits of a number in a base are a row with that value;
* `Numeral.parse?_signed_digits` — the plain and the decimal text of every integer but the least
  are read as that integer;
* `Number.texts_read_back` — what `tostring` and `format` write for an integer, with what is
  read from it.

Design notes: a minus is taken off before the digits are measured, and the magnitude of the least
integer is no 64-bit integer.  So the plain text of that integer is read as a float, and the
literal, which is hexadecimal there, is not.
-/
import Lua.Library.Base
import Lua.Library.String
import Lua.Proofs.EncodedForms
import Lua.Proofs.Execution
import Lua.Proofs.Numerals

namespace Lua

/-! ### ASCII texts -/

/-- A text of ASCII characters. -/
def IsAscii (cs : List Char) : Prop := ∀ c ∈ cs, c.toNat < 128

instance (cs : List Char) : Decidable (IsAscii cs) :=
  List.decidableBAll (fun c : Char => c.toNat < 128) cs

theorem IsAscii.append {as bs : List Char} (ha : IsAscii as) (hb : IsAscii bs) :
    IsAscii (as ++ bs) := fun c hc => (List.mem_append.mp hc).elim (ha c) (hb c)

theorem Ascii.toNat_byte {c : Char} (hc : c.toNat < 128) : (Ascii.byte c).toNat = c.toNat := by
  rw [Ascii.byte, UInt8.toNat_ofNat']
  omega

namespace Utf8

/-- An ASCII character is one byte. -/
theorem decode_ascii {c : Char} (hc : c.toNat < 128) (s : Bytes) :
    decode true (Ascii.byte c :: s) = some (c.toNat, 1) := by
  have hlead : readLead (Ascii.byte c) = some (0, c.toNat) := by
    rw [readLead, Ascii.toNat_byte hc]
    exact if_pos hc
  have hcount : continuationCount c.toNat = 0 := if_pos hc
  have hadmits : admits true c.toNat = true := (admits_strict_iff _).mpr (by omega)
  rw [decode_cons, hlead]
  simp [readContinuations, hcount, hadmits]

theorem isText_ascii {cs : List Char} (h : IsAscii cs) : isText (cs.map Ascii.byte) = true := by
  induction cs with
  | nil => simp [isText, decode]
  | cons c cs ih =>
    have hc : c.toNat < 128 := h c List.mem_cons_self
    rw [List.map_cons, isText]
    split
    · rename_i code n hdecode
      rw [decode_ascii hc] at hdecode
      cases hdecode
      exact ih fun d hd => h d (List.mem_cons_of_mem c hd)
    · rename_i hdecode
      rw [decode_ascii hc] at hdecode
      cases hdecode

theorem characters_ascii {cs : List Char} (h : IsAscii cs) :
    characters (cs.map Ascii.byte) = cs := by
  induction cs with
  | nil => simp [characters, decode]
  | cons c cs ih =>
    have hc : c.toNat < 128 := h c List.mem_cons_self
    rw [List.map_cons, characters]
    split
    · rename_i code n hdecode
      rw [decode_ascii hc] at hdecode
      cases hdecode
      rw [Char.ofNat_toNat]
      exact congrArg (c :: ·) (ih fun d hd => h d (List.mem_cons_of_mem c hd))
    · rename_i hdecode
      rw [decode_ascii hc] at hdecode
      cases hdecode

end Utf8

theorem numberOfString?_ascii {cs : List Char} (h : IsAscii cs) :
    numberOfString? (cs.map Ascii.byte) = Numeral.parse? cs := by
  rw [numberOfString?, if_pos (Utf8.isText_ascii h), Utf8.characters_ascii h]

theorem Bytes.ofString_ascii {cs : List Char} (h : IsAscii cs) :
    Bytes.ofString (String.ofList cs) = cs.map Ascii.byte := by
  rw [Bytes.ofString, String.toUTF8_eq_toByteArray, String.toByteArray_ofList]
  induction cs with
  | nil => simp
  | cons c cs ih =>
    have hc : c.toNat < 128 := h c List.mem_cons_self
    have hsize : c.utf8Size = 1 :=
      Char.utf8Size_eq_one_iff.mpr (UInt32.le_iff_toNat_le.mpr (Nat.le_of_lt_succ hc))
    have htail := ih fun d hd => h d (List.mem_cons_of_mem c hd)
    rw [List.utf8Encode_cons, List.utf8Encode_singleton, String.utf8EncodeChar_eq_singleton hsize,
      ByteArray.toList_data_append, List.toList_data_toByteArray, htail]
    rfl

/-! ### Digits in a base -/

namespace Numeral

theorem digitChar_worth : ∀ d < 16, (Nat.digitChar d).isAlphanum = true ∧
    digitWorth (Nat.digitChar d) = d := by
  decide

theorem digitValue?_digitChar {base d : Nat} (hbase : base ≤ 16) (hd : d < base) :
    digitValue? base (Nat.digitChar d) = some d := by
  obtain ⟨halnum, hworth⟩ := digitChar_worth d (by omega)
  exact digitValue?_eq_some_iff.mpr ⟨⟨halnum, by omega⟩, hworth.symm⟩

theorem digitsValue?_toDigits {base : Nat} (hbase : 1 < base) (hbase' : base ≤ 16) (n : Nat) :
    digitsValue? base (Nat.toDigits base n) = some n := by
  induction n using Nat.strong_induction_on with
  | _ n ih =>
    rcases Nat.lt_or_ge n base with hlt | hge
    · rw [Nat.toDigits_of_lt_base hlt]
      simp [digitsValue?, digitValue?_digitChar hbase' hlt]
    · have hlast := digitValue?_digitChar hbase' (Nat.mod_lt n (by omega))
      rw [Nat.toDigits_of_base_le hbase hge, digitsValue?_concat,
        ih (n / base) (Nat.div_lt_self (by omega) hbase), Option.bind_some, hlast,
        Option.map_some, Nat.div_add_mod']

/-- The digits of a number in a base are a row with that value. -/
theorem row_toDigits {base : Nat} (hbase : 1 < base) (hbase' : base ≤ 16) (n : Nat) :
    Row base (Nat.toDigits base n) n := by
  refine natural?_eq_some_iff.mp ?_
  have hne : (Nat.toDigits base n).isEmpty = false := by
    rw [List.isEmpty_eq_false_iff]
    exact Nat.toDigits_ne_nil
  rw [natural?, hne, if_neg Bool.false_ne_true, digitsValue?_toDigits hbase hbase']

/-- The decimal digits of a number are a row with that value. -/
theorem row_digits (n : Nat) : Row 10 (Decimal.digits n) n :=
  row_toDigits (by decide) (by decide) n

theorem Row.isAscii {base v : Nat} {ds : List Char} (h : Row base ds v) : IsAscii ds :=
  fun c hc => toNat_lt_of_isAlphanum (h.digits c hc).1

/-! ### Blanks -/

theorem trim_of_no_blanks {t : List Char} (h : ∀ c ∈ t, Text.isBlank c = false) :
    Text.trim t = t := by
  have drop : ∀ {t : List Char}, (∀ c ∈ t, Text.isBlank c = false) →
      t.dropWhile Text.isBlank = t := by
    intro t h
    cases t with
    | nil => rfl
    | cons c t => rw [List.dropWhile_cons_of_neg (by rw [h c List.mem_cons_self]; decide)]
  rw [Text.trim, drop h, Text.dropEndWhile, drop fun c hc => h c (List.mem_reverse.mp hc),
    List.reverse_reverse]

theorem trim_space (t : List Char) : Text.trim (' ' :: t) = Text.trim t := rfl

theorem IsDigit.not_blank {base : Nat} {c : Char} (h : IsDigit base c) :
    Text.isBlank c = false := by
  have htable : ∀ n : Fin 128, (Char.ofNat n).isAlphanum = true →
      Text.isBlank (Char.ofNat n) = false := by decide +kernel
  have hc := htable ⟨c.toNat, toNat_lt_of_isAlphanum h.1⟩
  rw [Char.ofNat_toNat] at hc
  exact hc h.1

theorem Sign.not_blank {sign : List Char} {negative : Bool} (h : Sign sign negative) :
    ∀ c ∈ sign, Text.isBlank c = false := by
  cases h with
  | none => nofun
  | plus => exact List.forall_mem_singleton.mpr rfl
  | minus => exact List.forall_mem_singleton.mpr rfl

/-- What a conversion writes in front of a number is a sign, or a blank that is not read. -/
theorem trim_formatSign (flags : FormatFlags) (negative : Bool) {ds : List Char} {v : Nat}
    (hrow : Row 10 ds v) : ∃ sign, Sign sign negative ∧
      Text.trim (flags.sign negative ++ ds) = sign ++ ds := by
  have hds : ∀ c ∈ ds, Text.isBlank c = false := fun c hc => (hrow.digits c hc).not_blank
  have trimmed : ∀ {sign}, Sign sign negative → Text.trim (sign ++ ds) = sign ++ ds :=
    fun hsign => trim_of_no_blanks fun c hc =>
      (List.mem_append.mp hc).elim (hsign.not_blank c) (hds c)
  unfold FormatFlags.sign
  cases negative with
  | true => exact ⟨['-'], .minus, trimmed .minus⟩
  | false =>
    rw [if_neg Bool.false_ne_true]
    split
    · exact ⟨['+'], .plus, trimmed .plus⟩
    · split
      · exact ⟨[], .none, (trim_space ds).trans (trimmed .none)⟩
      · exact ⟨[], .none, trimmed .none⟩

/-! ### Signed digits -/

theorem natAbs_lt {n : Int64} (h : n ≠ Int64.minValue) : n.toInt.natAbs < 2 ^ 63 := by
  have hlow := Int64.le_toInt n
  have hhigh := Int64.toInt_lt n
  have hne : n.toInt ≠ -2 ^ 63 := fun heq => h (Int64.toInt_inj.mp heq)
  omega

/-- The sign and the digits of any integer but the least are read as that integer. -/
theorem parse?_signed_digits (flags : FormatFlags) {n : Int64} (h : n ≠ Int64.minValue) :
    parse? (flags.sign (n.toInt < 0) ++ Decimal.digits n.toInt.natAbs) = some (.int n) := by
  have hrow := row_digits n.toInt.natAbs
  obtain ⟨sign, hsign, htrim⟩ := trim_formatSign flags (n.toInt < 0) hrow
  have hvalue : n.toInt = signed (n.toInt < 0) n.toInt.natAbs := by
    rw [signed]
    split
    · rename_i hneg
      have := of_decide_eq_true hneg
      omega
    · rename_i hneg
      have := of_decide_eq_false (eq_false_of_ne_true hneg)
      omega
  refine Integral.parse? ?_ ?_
  · rw [htrim]
    exact .decimal hsign hrow hvalue
  · rw [htrim]
    exact not_leastDecimal hsign hrow (natAbs_lt h)

/-- The least integer is read as a float with its value. -/
theorem parse?_least_digits : parse? ('-' :: Decimal.digits (2 ^ 63)) =
    some (.float (Number.floatOfInt Int64.minValue)) := by
  decide +kernel

end Numeral

/-! ### The texts of integers -/

namespace Number

/-- What a decimal text of an integer is read as. -/
def readBack (n : Int64) : Number :=
  if n = Int64.minValue then .float (floatOfInt n) else .int n

/-- An integer is kept in value, whatever becomes of its subtype. -/
theorem toInteger?_readBack (n : Int64) : (readBack n).toInteger? = some n := by
  rw [readBack]
  split
  · rename_i h
    rw [h]
    decide +kernel
  · rfl

theorem isAscii_formatSign (flags : FormatFlags) (negative : Bool) :
    IsAscii (flags.sign negative) := by
  unfold FormatFlags.sign
  split_ifs <;> decide

theorem isAscii_signed_digits (flags : FormatFlags) (n : Int64) :
    IsAscii (flags.sign (n.toInt < 0) ++ Decimal.digits n.toInt.natAbs) :=
  (isAscii_formatSign _ _).append (Numeral.row_digits _).isAscii

/-- The sign and the digits of an integer, read from their bytes. -/
theorem numberOfString?_signed_digits (flags : FormatFlags) (n : Int64) :
    numberOfString? ((flags.sign (n.toInt < 0) ++ Decimal.digits n.toInt.natAbs).map Ascii.byte) =
      some (readBack n) := by
  rw [numberOfString?_ascii (isAscii_signed_digits flags n), readBack]
  split
  · rename_i h
    rw [h]
    exact Numeral.parse?_least_digits
  · rename_i h
    exact Numeral.parse?_signed_digits flags h

theorem intText_eq (n : Int64) :
    intText n.toInt = ({} : FormatFlags).sign (n.toInt < 0) ++ Decimal.digits n.toInt.natAbs := by
  rw [intText, FormatFlags.sign]
  by_cases h : n.toInt < 0
  · rw [if_pos h, if_pos (decide_eq_true h)]
  · rw [if_neg h, if_neg (by simpa using h)]
    rfl

theorem bytes_int (n : Int64) : (Number.int n).bytes = (intText n.toInt).map Ascii.byte := by
  refine Bytes.ofString_ascii ?_
  rw [text, intText_eq]
  exact isAscii_signed_digits _ n

/-- A decimal conversion without width and precision writes the sign and the digits. -/
theorem integerText_plain (flags : FormatFlags) (letter : UInt8) (n : Int64) :
    Conversion.integerText ⟨flags, none, none, letter⟩ .decimal n =
      flags.sign (n.toInt < 0) ++ Decimal.digits n.toInt.natAbs := by
  have hneg : decide (n < 0) = decide (n.toInt < 0) := decide_eq_decide.mpr Int64.lt_iff_toInt_lt
  simp only [Conversion.integerText, FormatFlags.pad, Option.getD_none, Nat.zero_sub,
    List.replicate_zero, List.nil_append, List.append_nil, ite_self, hneg]

/-- The literal of every integer is read as that integer. -/
theorem numberOfString?_quoteInteger (n : Int64) :
    numberOfString? ((Format.quoteInteger n).map Ascii.byte) = some (.int n) := by
  rw [Format.quoteInteger]
  split
  · rename_i h
    rw [h, numberOfString?_ascii (by decide +kernel)]
    decide +kernel
  · rename_i h
    rw [intText_eq, numberOfString?_signed_digits, readBack, if_neg h]

end Number

/-! ### The functions that write them -/

namespace Format

/-- A conversion of flags and a letter. -/
def plainConversion (flags : Bytes) (letter : Char) : Bytes :=
  percent :: flags ++ [Ascii.byte letter]

theorem readPiece?_conversion {c : UInt8} (hc : c ≠ percent) (rest : Bytes) :
    readPiece? (percent :: c :: rest) =
      (readConversion? (c :: rest)).map fun (c, rest) => (.conversion c, rest) := by
  simp [readPiece?, hc]

/-- Flags and a letter are one conversion. -/
theorem readConversion?_plain {fs : Bytes} (hfs : ∀ b ∈ fs, isFlag b = true) :
    readConversion? (fs ++ [Ascii.byte 'd']) =
      some (⟨flagsOf fs, none, none, Ascii.byte 'd'⟩, []) := by
  have hletter : ¬ isFlag (Ascii.byte 'd') = true := by decide
  have htake : (fs ++ [Ascii.byte 'd']).takeWhile isFlag = fs := by
    rw [List.takeWhile_append_of_pos hfs, List.takeWhile_cons_of_neg hletter, List.append_nil]
  have hdrop : (fs ++ [Ascii.byte 'd']).dropWhile isFlag = [Ascii.byte 'd'] := by
    rw [List.dropWhile_append_of_pos hfs, List.dropWhile_cons_of_neg hletter]
  rw [readConversion?, htake, hdrop]
  rfl

theorem parse_plainConversion {fs : Bytes} (hfs : ∀ b ∈ fs, isFlag b = true) :
    parse (plainConversion fs 'd') =
      .ok [.conversion ⟨flagsOf fs, none, none, Ascii.byte 'd'⟩] := by
  have hread := readConversion?_plain hfs
  obtain ⟨c, rest, hrest, hc⟩ : ∃ c rest, fs ++ [Ascii.byte 'd'] = c :: rest ∧ c ≠ percent := by
    cases fs with
    | nil => exact ⟨_, [], rfl, by decide⟩
    | cons b fs =>
      refine ⟨b, _, rfl, ?_⟩
      rintro rfl
      exact absurd (hfs percent List.mem_cons_self) (by decide)
  -- a flag or the letter follows the percent sign, so it is not a percent sign of its own
  rw [hrest] at hread
  have hpiece := readPiece?_conversion hc rest
  rw [hread, Option.map_some] at hpiece
  rw [plainConversion, List.cons_append, hrest, parse, List.length_cons, readPieces, hpiece]
  have hend : ∀ fuel, readPieces fuel [] = ([], []) := by
    rintro (_ | fuel) <;> rfl
  simp only [hend]
  rfl

end Format

/-- A program gives at most one string. -/
theorem Program.Runs.string_unique {H : Host} {B : Behaviour H} {w w' w₁ : World H}
    {p : Program H (List Value)} {s t : Bytes} (h : p.Runs B w (.ok [.string s]) w')
    (h' : p.Runs B w (.ok [.string t]) w₁) : s = t := by
  obtain ⟨heq, -⟩ := h.unique h'
  exact Value.string.inj (List.head_eq_of_cons_eq (Except.ok.inj heq))

namespace Library

variable {H : Host}

/-- A format string that is one conversion gives the text of that conversion. -/
theorem format_conversion {source s : Bytes} {c : Conversion} {args : List Value}
    (hparse : Format.parse source = .ok [.conversion c])
    (hs : (Strings.convertArgument c (.string source :: args) 1 : Program H Bytes) = .done s) :
    (Strings.format (.string source :: args) : Program H (List Value)) = .done [.string s] := by
  have heq : (Strings.format (.string source :: args) : Program H (List Value)) =
      (Program.ofArgument (Format.parse source)).bind fun pieces =>
        (Strings.formatPieces (.string source :: args) 1 pieces).bind fun s =>
          .done [.string s] := rfl
  rw [heq, hparse]
  show Program.bind (Program.bind (Strings.convertArgument c _ 1) fun s => .done (s ++ [])) _ = _
  rw [hs]
  show Program.done [Value.string (s ++ [])] = _
  rw [List.append_nil]

/-- What a decimal conversion without width and precision gives for an integer. -/
theorem format_decimal {fs : Bytes} (hfs : ∀ b ∈ fs, Format.isFlag b = true) (n : Int64) :
    (Strings.format [.string (Format.plainConversion fs 'd'), .int n] : Program H (List Value)) =
      .done [.string (((Format.flagsOf fs).sign (n.toInt < 0) ++
        Decimal.digits n.toInt.natAbs).map Ascii.byte)] := by
  rw [← Number.integerText_plain _ (Ascii.byte 'd')]
  exact format_conversion (Format.parse_plainConversion hfs) rfl

/-- What the literal conversion gives for a value that has a literal. -/
theorem format_quoteValue {v : Value} {s : Bytes} (h : Format.quoteValue v = .ok s)
    (more : List Value) :
    (Strings.format (.string (Format.plainConversion [] 'q') :: v :: more) :
      Program H (List Value)) = .done [.string s] := by
  refine format_conversion (c := ⟨{}, none, none, Ascii.byte 'q'⟩) rfl ?_
  show (Program.ofArgument (Format.quoteValue v) : Program H Bytes) = _
  rw [h]
  rfl

/-- What the literal conversion gives for an integer. -/
theorem format_literal (n : Int64) :
    (Strings.format [.string (Format.plainConversion [] 'q'), .int n] : Program H (List Value)) =
      .done [.string ((Format.quoteInteger n).map Ascii.byte)] :=
  format_quoteValue rfl []

/-- The text of an integer without a metamethod is its plain text. -/
theorem tostring_runs (B : Behaviour H) {w : World H} {n : Int64}
    (h : w.memory.heap.metafield (.int n) "__tostring" = none) :
    (Base.tostring [.int n]).Runs B w (.ok [.string (Number.int n).bytes]) w := by
  have htext : (textOf (.int n) : Program H Bytes).Runs B w (.ok (Number.int n).bytes) w := by
    refine .read ?_
    simp only [Program.bind, h]
    exact .done
  exact htext.bind .done

end Library

/-! ### Main result -/

namespace Number

variable {H : Host}

/-- The texts that `tostring` and `format` write for an integer are read back: the literal as the
integer itself, the plain and the decimal text as the integer unless it is the least, and as a
float with its value then. -/
theorem texts_read_back (B : Behaviour H) (engine : Regex.Engine) {w : World H} (n : Int64)
    {fs : Bytes} (hfs : ∀ b ∈ fs, Format.isFlag b = true)
    (hplain : w.memory.heap.metafield (.int n) "__tostring" = none) :
    (∃ s, (Library.Base.run .tostring [.int n]).Runs B w (.ok [.string s]) w ∧
        numberOfString? s = some (readBack n)) ∧
      (∃ s, (Library.Strings.run engine .format
          [.string (Format.plainConversion fs 'd'), .int n]).Runs B w (.ok [.string s]) w ∧
        numberOfString? s = some (readBack n)) ∧
      (∃ s, (Library.Strings.run engine .format
          [.string (Format.plainConversion [] 'q'), .int n]).Runs B w (.ok [.string s]) w ∧
        numberOfString? s = some (.int n)) ∧
      (readBack n).toInteger? = some n := by
  refine ⟨⟨_, Library.tostring_runs B hplain, ?_⟩, ⟨_, ?_,
    numberOfString?_signed_digits (Format.flagsOf fs) n⟩, ⟨_, ?_, numberOfString?_quoteInteger n⟩,
    toInteger?_readBack n⟩
  · rw [bytes_int, intText_eq]
    exact numberOfString?_signed_digits _ n
  · rw [Library.Strings.run, Library.format_decimal hfs]
    exact .done
  · rw [Library.Strings.run, Library.format_literal]
    exact .done

/-- The texts of the least integer, with a sign asked for. -/
theorem texts_read_back_least :
    (∀ b ∈ Bytes.ofString "+", Format.isFlag b = true) ∧
      World.bare.memory.heap.metafield (.int Int64.minValue) "__tostring" = none ∧
      ∃ s, (Library.Strings.run .backtracking .format
          [.string (Bytes.ofString "%+d"), .int Int64.minValue]).Runs Behaviour.bare World.bare
          (.ok [.string s]) World.bare ∧
        numberOfString? s = some (.float (floatOfInt Int64.minValue)) := by
  have hfs : ∀ b ∈ Bytes.ofString "+", Format.isFlag b = true :=
    List.all_eq_true.mp (by decide)
  have hplain : World.bare.memory.heap.metafield (.int Int64.minValue) "__tostring" = none := rfl
  exact ⟨hfs, hplain, (texts_read_back .bare .backtracking Int64.minValue hfs hplain).2.1⟩

/-- The least integer is not read from its own texts. -/
theorem least_not_read_back :
    numberOfString? (Number.int Int64.minValue).bytes =
        some (.float (floatOfInt Int64.minValue)) ∧
      numberOfString? (Number.int Int64.minValue).bytes ≠ some (.int Int64.minValue) := by
  have hread : numberOfString? (Number.int Int64.minValue).bytes =
      some (.float (floatOfInt Int64.minValue)) := by
    rw [bytes_int, intText_eq]
    exact numberOfString?_signed_digits _ _
  rw [hread]
  exact ⟨rfl, nofun⟩

end Number

end Lua
