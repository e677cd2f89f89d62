/-
Literals of strings.

`format` writes a string for `%q` as a literal between double quotes.  This module defines how such
a literal is read, and shows that reading it gives the string back:

* `readLiteral` — the bytes that a literal stands for, and what follows it;
* `unescaped` — the bytes of a text that no backslash stands before;
* `Written` — the four ways in which a byte is written;
* `readEscape?_number` — the number of a byte is read up to its last digit, and no further;
* `readInside_quoteBytes` — a literal is read as the string that it was written for;
* `Library.Strings.format_quoted` — so no other string has the same literal.

Design notes: a number behind a backslash is read as far as three digits go, so where a digit of the
string follows a number it is the zeros in front of the number that keep the two apart.
-/
import Lua.Proofs.IntegerLayout

namespace Lua

namespace Format

/-! ### Reading a literal -/

/-- Reads what stands behind a backslash: the byte that it is for, and the rest.  A number is the
longest row of one to three digits. -/
def readEscape? : Bytes → Option (UInt8 × Bytes)
  | [] => none
  | b :: rest =>
    if b = quote ∨ b = backslash ∨ b = lineFeed then some (b, rest)
    else if b = Ascii.byte 'r' then some (carriageReturn, rest)
    else
      let ds := ((b :: rest).take 3).takeWhile Ascii.isDigit
      if ds.isEmpty ∨ 256 ≤ rowNumber ds then none
      else some (UInt8.ofNat (rowNumber ds), (b :: rest).drop ds.length)

variable {s t rest : Bytes} {b c : UInt8}

/-- An escape is not empty. -/
theorem length_of_readEscape? (h : readEscape? s = some (c, rest)) : rest.length < s.length := by
  cases s with
  | nil => exact absurd h nofun
  | cons b s =>
    rw [readEscape?] at h
    split at h
    · obtain ⟨-, rfl⟩ := Prod.mk.inj (Option.some.inj h)
      simp
    · split at h
      · obtain ⟨-, rfl⟩ := Prod.mk.inj (Option.some.inj h)
        simp
      · simp only [Option.ite_none_left_eq_some, not_or, Option.some.injEq, Prod.mk.injEq] at h
        obtain ⟨⟨hne, -⟩, -, rfl⟩ := h
        have hpos := List.length_pos_iff.mpr fun hnil => hne (List.isEmpty_iff.mpr hnil)
        rw [List.length_drop]
        simp only [List.length_cons]
        omega

/-- Reads a literal behind its first quote, up to the quote that ends it: the bytes that it stands
for, and the rest. -/
def readInside : Bytes → Option (Bytes × Bytes)
  | [] => none
  | b :: s =>
    if b = quote then some ([], s)
    else if b = backslash then
      match h : readEscape? s with
      | none => none
      | some (c, rest) =>
        have := length_of_readEscape? h
        (readInside rest).map fun (t, left) => (c :: t, left)
    else (readInside s).map fun (t, left) => (b :: t, left)
termination_by s => s.length
decreasing_by all_goals simp only [List.length_cons]; omega

/-- Reads a literal: the bytes that it stands for, and the rest. -/
def readLiteral : Bytes → Option (Bytes × Bytes)
  | [] => none
  | b :: s => if b = quote then readInside s else none

/-- The bytes that no backslash stands before, with the backslashes left out as well. -/
def unescaped : Bytes → Bytes
  | [] => []
  | [b] => if b = backslash then [] else [b]
  | b :: c :: rest => if b = backslash then unescaped rest else b :: unescaped (c :: rest)

theorem readInside_escape (h : readEscape? s = some (c, rest)) :
    readInside (backslash :: s) = (readInside rest).map fun (t, left) => (c :: t, left) := by
  rw [readInside, if_neg (by decide), if_pos rfl]
  split
  · rename_i hnone
    exact absurd (hnone.symm.trans h) nofun
  · rename_i c' rest' hsome
    obtain ⟨rfl, rfl⟩ := Prod.mk.inj (Option.some.inj (hsome.symm.trans h))
    rfl

theorem readInside_plain (hquote : b ≠ quote) (hbackslash : b ≠ backslash) (s : Bytes) :
    readInside (b :: s) = (readInside s).map fun (t, left) => (b :: t, left) := by
  rw [readInside, if_neg hquote, if_neg hbackslash]

theorem unescaped_escape (c : UInt8) (s : Bytes) :
    unescaped (backslash :: c :: s) = unescaped s := by
  rw [unescaped, if_pos rfl]

theorem unescaped_plain (hb : b ≠ backslash) (s : Bytes) :
    unescaped (b :: s) = b :: unescaped s := by
  cases s with
  | nil => simp [unescaped, hb]
  | cons c s => rw [unescaped, if_neg hb]

/-! ### Numbers behind a backslash -/

/-- A digit has no meaning of its own behind a backslash. -/
theorem digit_not_special (hb : Ascii.isDigit b = true) :
    ¬ (b = quote ∨ b = backslash ∨ b = lineFeed) ∧ b ≠ Ascii.byte 'r' := by
  constructor
  · rintro (rfl | rfl | rfl) <;> exact absurd hb (by decide)
  · rintro rfl
    exact absurd hb (by decide)

theorem control_of_digit (hb : Ascii.isDigit b = true) : Ascii.isControl b = false := by
  grind [Ascii.isDigit, Ascii.isControl]

/-- A number is read up to its last digit, if no digit follows it or it has three of them. -/
theorem readEscape?_number {ds : Bytes} (hds : ∀ b ∈ ds, Ascii.isDigit b = true) (hne : ds ≠ [])
    (hlength : ds.length ≤ 3) (hrange : rowNumber ds < 256)
    (hend : (∀ c ∈ rest.head?, Ascii.isDigit c = false) ∨ ds.length = 3) :
    readEscape? (ds ++ rest) = some (UInt8.ofNat (rowNumber ds), rest) := by
  have hrow : ((ds ++ rest).take 3).takeWhile Ascii.isDigit = ds := by
    rw [List.take_append, List.take_of_length_le hlength]
    refine takeWhile_row hds fun c hc => ?_
    rcases hend with hrest | hfull
    · refine hrest c ?_
      rw [List.head?_take] at hc
      split at hc
      · exact absurd hc nofun
      · exact hc
    · rw [hfull] at hc
      exact absurd hc nofun
  obtain ⟨b, ds', rfl⟩ := List.exists_cons_of_ne_nil hne
  obtain ⟨hspecial, hr⟩ := digit_not_special (hds b List.mem_cons_self)
  rw [List.cons_append] at hrow ⊢
  rw [readEscape?, if_neg hspecial, if_neg hr]
  simp only [hrow]
  rw [if_neg (by simpa using hrange), ← List.cons_append, List.drop_left]

/-! ### The bytes of a literal -/

/-- How a byte is written in front of the rest of a string. -/
inductive Written (b : UInt8) (s : Bytes) : Bytes → Prop
  | escaped (h : b = quote ∨ b = backslash ∨ b = lineFeed) : Written b s [backslash, b]
  | carriageReturn (h : b = carriageReturn) : Written b s [backslash, Ascii.byte 'r']
  | number (ds : Bytes) (hds : ∀ d ∈ ds, Ascii.isDigit d = true) (hne : ds ≠ [])
      (hlength : ds.length ≤ 3) (hnumber : rowNumber ds = b.toNat)
      (hend : (∀ c ∈ s.head?, Ascii.isDigit c = false) ∨ ds.length = 3) :
      Written b s (backslash :: ds)
  | plain (hquote : b ≠ quote) (hbackslash : b ≠ backslash) (hcontrol : Ascii.isControl b = false) :
      Written b s [b]

theorem length_digits_byte (b : UInt8) : (Decimal.digits b.toNat).length ≤ 3 := by
  have hlt : b.toNat < 10 ^ 3 := b.toNat_lt.trans (by decide)
  exact (Nat.length_toDigits_le_iff (by decide) (by decide)).mpr hlt

/-- The number of a control character: three digits, or no digit follows. -/
theorem written_controlText (b : UInt8) (s : Bytes) :
    Written b s (backslash :: controlText b s) := by
  have hrow := Numeral.row_digits b.toNat
  have hlength := length_digits_byte b
  by_cases hfollowed : (s.head?.map Ascii.isDigit).getD false = true
  · have hpadded : Numeral.Row 10 (Decimal.padZeros 3 (Decimal.digits b.toNat)) b.toNat :=
      hrow.zeros (by decide) _
    have hthree : (Decimal.padZeros 3 (Decimal.digits b.toNat)).length = 3 := by
      rw [Decimal.padZeros, List.length_append, List.length_replicate]
      omega
    obtain ⟨hds, hnumber⟩ := row_bytes hpadded
    rw [controlText, if_pos hfollowed]
    exact .number _ hds (by simpa using hpadded.ne_nil) (by simp [hthree]) hnumber
      (.inr (by simp [hthree]))
  · obtain ⟨hds, hnumber⟩ := row_bytes hrow
    rw [controlText, if_neg hfollowed]
    refine .number _ hds (by simpa using hrow.ne_nil) (by simpa using hlength) hnumber (.inl ?_)
    intro c hc
    rw [Option.mem_def.mp hc] at hfollowed
    simpa using hfollowed

/-- A literal is written byte by byte. -/
theorem quoteBytes_cons (b : UInt8) (s : Bytes) :
    ∃ written, Written b s written ∧ quoteBytes (b :: s) = written ++ quoteBytes s := by
  refine ⟨_, ?_, rfl⟩
  by_cases hspecial : b = quote ∨ b = backslash ∨ b = lineFeed
  · rw [if_pos hspecial]
    exact .escaped hspecial
  · rw [if_neg hspecial]
    by_cases hreturn : b = carriageReturn
    · rw [if_pos hreturn]
      exact .carriageReturn hreturn
    · rw [if_neg hreturn]
      by_cases hcontrol : Ascii.isControl b = true
      · rw [if_pos hcontrol]
        exact written_controlText b s
      · rw [if_neg hcontrol]
        exact .plain (fun h => hspecial (.inl h)) (fun h => hspecial (.inr (.inl h)))
          (Bool.eq_false_iff.mpr hcontrol)

/-- No digit begins the literal of a string that begins with none. -/
theorem head_quoteBytes (hs : ∀ c ∈ s.head?, Ascii.isDigit c = false) (rest : Bytes) :
    ∀ c ∈ (quoteBytes s ++ quote :: rest).head?, Ascii.isDigit c = false := by
  intro c hc
  cases s with
  | nil =>
    obtain rfl := Option.some.inj hc
    decide
  | cons b s =>
    obtain ⟨written, hwritten, heq⟩ := quoteBytes_cons b s
    rw [heq] at hc
    cases hwritten with
    | plain => exact hs c hc
    | _ =>
      -- all other bytes are written behind a backslash
      obtain rfl := Option.some.inj hc
      decide

/-- **A literal is read** as the string that it was written for, up to the quote that ends it. -/
theorem readInside_quoteBytes (s rest : Bytes) :
    readInside (quoteBytes s ++ quote :: rest) = some (s, rest) := by
  induction s with
  | nil => rw [quoteBytes, List.nil_append, readInside, if_pos rfl]
  | cons b s ih =>
    obtain ⟨written, hwritten, heq⟩ := quoteBytes_cons b s
    rw [heq, List.append_assoc]
    cases hwritten with
    | escaped h =>
      show readInside (backslash :: b :: (quoteBytes s ++ quote :: rest)) = _
      have hread : readEscape? (b :: (quoteBytes s ++ quote :: rest)) =
          some (b, quoteBytes s ++ quote :: rest) := by
        rw [readEscape?, if_pos h]
      rw [readInside_escape hread, ih]
      rfl
    | carriageReturn h =>
      show readInside (backslash :: Ascii.byte 'r' :: (quoteBytes s ++ quote :: rest)) = _
      have hread : readEscape? (Ascii.byte 'r' :: (quoteBytes s ++ quote :: rest)) =
          some (b, quoteBytes s ++ quote :: rest) := by
        rw [readEscape?, if_neg (by decide), if_pos rfl, h]
      rw [readInside_escape hread, ih]
      rfl
    | number ds hds hne hlength hnumber hend =>
      have hrange : rowNumber ds < 256 := hnumber ▸ b.toNat_lt
      have hread := readEscape?_number hds hne hlength hrange
        (hend.imp_left fun hs => head_quoteBytes hs rest)
      rw [List.cons_append, readInside_escape hread, ih, hnumber, UInt8.ofNat_toNat]
      rfl
    | plain hquote hbackslash hcontrol =>
      rw [List.singleton_append, readInside_plain hquote hbackslash, ih]
      rfl

/-- The only control characters in a literal are line feeds. -/
theorem Written.control {written : Bytes} (h : Written b s written) :
    ∀ c ∈ written, Ascii.isControl c = true → c = lineFeed := by
  intro c hc hcontrol
  have hbackslash : Ascii.isControl backslash = false := by decide
  have hquote : Ascii.isControl quote = false := by decide
  have hr : Ascii.isControl (Ascii.byte 'r') = false := by decide
  cases h with
  | escaped h =>
    simp only [List.mem_cons, List.not_mem_nil, or_false] at hc
    grind
  | carriageReturn h =>
    simp only [List.mem_cons, List.not_mem_nil, or_false] at hc
    grind
  | number ds hds =>
    rcases List.mem_cons.mp hc with rfl | hc
    · exact absurd hcontrol (by simp [hbackslash])
    · exact absurd hcontrol (by simp [control_of_digit (hds c hc)])
  | plain _ _ hplain =>
    obtain rfl := List.mem_singleton.mp hc
    exact absurd hcontrol (by simp [hplain])

theorem control_quoteBytes (s : Bytes) :
    ∀ c ∈ quoteBytes s, Ascii.isControl c = true → c = lineFeed := by
  induction s with
  | nil => exact fun c hc => absurd hc List.not_mem_nil
  | cons b s ih =>
    obtain ⟨written, hwritten, heq⟩ := quoteBytes_cons b s
    intro c hc hcontrol
    rw [heq, List.mem_append] at hc
    exact hc.elim (fun hc => hwritten.control c hc hcontrol) (fun hc => ih c hc hcontrol)

theorem unescaped_digits {ds : Bytes} (hds : ∀ b ∈ ds, Ascii.isDigit b = true) (rest : Bytes) :
    unescaped (ds ++ rest) = ds ++ unescaped rest := by
  induction ds with
  | nil => rfl
  | cons d ds ih =>
    have hd : d ≠ backslash := fun h =>
      (digit_not_special (hds d List.mem_cons_self)).1 (.inr (.inl h))
    rw [List.cons_append, unescaped_plain hd, ih fun b hb => hds b (List.mem_cons_of_mem d hb)]
    rfl

/-- Every line feed of a literal has a backslash of its own. -/
theorem lineFeed_unescaped (s : Bytes) : lineFeed ∉ unescaped (quoteBytes s ++ [quote]) := by
  induction s with
  | nil => decide
  | cons b s ih =>
    obtain ⟨written, hwritten, heq⟩ := quoteBytes_cons b s
    rw [heq, List.append_assoc]
    cases hwritten with
    | escaped h =>
      show lineFeed ∉ unescaped (backslash :: b :: _)
      rwa [unescaped_escape]
    | carriageReturn h =>
      show lineFeed ∉ unescaped (backslash :: Ascii.byte 'r' :: _)
      rwa [unescaped_escape]
    | number ds hds hne =>
      obtain ⟨d, ds', rfl⟩ := List.exists_cons_of_ne_nil hne
      have hds' : ∀ b ∈ ds', Ascii.isDigit b = true := fun b hb => hds b (List.mem_cons_of_mem d hb)
      rw [List.cons_append, List.cons_append, unescaped_escape, unescaped_digits hds']
      intro hmem
      rcases List.mem_append.mp hmem with hdigit | hrest
      · exact absurd (hds' lineFeed hdigit) (by decide)
      · exact ih hrest
    | plain hquote hbackslash hcontrol =>
      rw [List.singleton_append, unescaped_plain hbackslash]
      intro hmem
      rcases List.mem_cons.mp hmem with rfl | hrest
      · exact absurd hcontrol (by decide)
      · exact ih hrest

end Format

/-! ### Strings in formats -/

namespace Library.Strings

open Format (readLiteral unescaped)

variable {H : Host}

/-- What the literal conversion gives for a string. -/
theorem format_quotedString (s : Bytes) (more : List Value) :
    (format (.ofText "%q" :: .string s :: more) : Program H (List Value)) =
      .done [.string (Format.quote :: Format.quoteBytes s ++ [Format.quote])] :=
  format_quoteValue rfl more

/-- **Literals of strings.**  For each string there is a text that `format` gives for this string
with `%q`, and for no other.  Read as a literal, the text gives the string back and nothing is left
of it.  It has no zeros and no carriage returns, and every line feed in it stands behind a backslash
of its own. -/
theorem format_quoted (host : HostCode H) (s : Bytes) :
    ∃ text : Bytes,
      (∀ (w : World H) (s' : Bytes) (more : List Value),
        ((Behaviour.standard host).builtin (.string .format)
          (.ofText "%q" :: .string s' :: more)).Runs (.standard host) w (.ok [.string text]) w ↔
          s' = s) ∧
      readLiteral text = some (s, []) ∧
      0 ∉ text ∧ Format.carriageReturn ∉ text ∧ Format.lineFeed ∉ unescaped text := by
  have hread : ∀ s, readLiteral (Format.quote :: Format.quoteBytes s ++ [Format.quote]) =
      some (s, []) := by
    intro s
    rw [List.cons_append, readLiteral, if_pos rfl, Format.readInside_quoteBytes]
  have hcontrol : ∀ c, Ascii.isControl c = true → c ≠ Format.lineFeed →
      c ∉ Format.quote :: Format.quoteBytes s ++ [Format.quote] := by
    intro c hc hne hmem
    have hquote : c ≠ Format.quote := by
      rintro rfl
      exact absurd hc (by decide)
    simp only [List.cons_append, List.mem_cons, List.mem_append, hquote, List.not_mem_nil, false_or,
      or_false] at hmem
    exact hne (Format.control_quoteBytes s c hmem hc)
  refine ⟨_, fun w s' more => ⟨fun hruns => ?_, ?_⟩, hread s, hcontrol 0 (by decide) (by decide),
    hcontrol _ (by decide) (by decide), ?_⟩
  · -- a text is read as one string only
    have htext := hruns.string_unique (Program.runs_of_eq_done (format_quotedString s' more))
    have hsame := hread s
    rw [htext, hread s'] at hsame
    exact (Prod.mk.inj (Option.some.inj hsame)).1
  · rintro rfl
    exact Program.runs_of_eq_done (format_quotedString s' more)
  · rw [List.cons_append, Format.unescaped_plain (by decide)]
    intro hmem
    rcases List.mem_cons.mp hmem with hquote | hinside
    · exact absurd hquote (by decide)
    · exact Format.lineFeed_unescaped s hinside

end Library.Strings

end Lua
