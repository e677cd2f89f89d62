/-
The engine that backtracks.

The engine is given the text of an expression.  It reads the expression back, so what it finds is
the preferred match of the expression:

* `Regex.readRow_text` — a row is read from its text, up to a closing parenthesis or to the end;
* `Regex.Expression.read?_text` — an expression is read from its text;
* `Regex.Engine.leftmostFirst_backtracking` — the engine finds the preferred match;
* `Regex.states_le`, `Regex.Engine.acceptsShort_backtracking` — it refuses no short text.

Design notes: what may follow a text that is read is part of each statement.  A hyphen would make a
byte the first one of a range, and a question mark would make a repetition lazy.
-/
import Lua.Regex.Backtracking

namespace Lua.Regex

/-! ### Bytes -/

/-- A byte is known from the character that it is read as. -/
theorem byte_ofNat (b : UInt8) : Ascii.byte (Char.ofNat b.toNat) = b := by
  have hlt := b.toNat_lt
  have hvalid : b.toNat.isValidChar := Or.inl (by omega)
  rw [Ascii.byte, Char.ofNat, dif_pos hvalid]
  exact UInt8.ofNat_toNat

theorem hexValue?_hexDigit : ∀ n < 16, hexValue? (hexDigit n) = some n := by decide

theorem readLiteral?_hexText (b : UInt8) (tail : List Char) :
    readLiteral? (hexText b ++ tail) = some (.hexadecimal b, tail) := by
  have hlt := b.toNat_lt
  have hhigh := hexValue?_hexDigit (b.toNat / 16) (by omega)
  have hlow := hexValue?_hexDigit (b.toNat % 16) (Nat.mod_lt _ (by decide))
  have hread : readLiteral? (hexText b ++ tail) =
      (do
        let high ← hexValue? (hexDigit (b.toNat / 16))
        let low ← hexValue? (hexDigit (b.toNat % 16))
        pure (.hexadecimal (UInt8.ofNat (16 * high + low)), tail)) := rfl
  rw [hread, hhigh, hlow]
  show some (Literal.hexadecimal (UInt8.ofNat (16 * (b.toNat / 16) + b.toNat % 16)), tail) = _
  rw [Nat.div_add_mod, UInt8.ofNat_toNat]

/-- What a byte is not written with, if it is a letter or a digit. -/
theorem ofNat_ne_of_word {b : UInt8} {c : Char} (hb : Ascii.isAlphanumeric b = true)
    (hc : Ascii.isAlphanumeric (Ascii.byte c) = false) : Char.ofNat b.toNat ≠ c := by
  rintro rfl
  rw [byte_ofNat, hb] at hc
  cases hc

theorem readLiteral?_text (l : Literal) (tail : List Char) :
    readLiteral? (l.text ++ tail) = some (l, tail) := by
  cases l with
  | hexadecimal b => exact readLiteral?_hexText b tail
  | verbatim b word =>
    have hread : readLiteral? (Char.ofNat b.toNat :: tail) =
        if h : Ascii.isAlphanumeric (Ascii.byte (Char.ofNat b.toNat)) = true then
          some (.verbatim (Ascii.byte (Char.ofNat b.toNat)) h, tail)
        else none := by
      rw [readLiteral?, if_neg (ofNat_ne_of_word word (by decide))]
    refine hread.trans ?_
    simp only [byte_ofNat, word, dif_pos]

/-- A text that goes on with none of the characters. -/
def GoesOn (avoided : List Char) (s : List Char) : Prop := ∀ c ∈ s.head?, c ∉ avoided

/-- No byte is written with one of the characters in front. -/
def startsNoByte (avoided : List Char) : Bool :=
  avoided.all fun c => c != '\\' && !Ascii.isAlphanumeric (Ascii.byte c)

/-- The text of a byte begins with a backslash, a letter or a digit. -/
theorem Literal.goesOn {l : Literal} {avoided : List Char} (tail : List Char)
    (h : startsNoByte avoided = true) : GoesOn avoided (l.text ++ tail) := by
  intro c hc hmem
  obtain ⟨hbackslash, hword⟩ : c ≠ '\\' ∧ Ascii.isAlphanumeric (Ascii.byte c) = false := by
    simpa using List.all_eq_true.mp h c hmem
  cases l with
  | hexadecimal b =>
    obtain rfl : '\\' = c := Option.some.inj hc
    exact hbackslash rfl
  | verbatim b word =>
    obtain rfl : Char.ofNat b.toNat = c := Option.some.inj hc
    exact ofNat_ne_of_word word hword rfl

/-! ### Classes -/

theorem readItem?_text (i : ClassItem) {tail : List Char} (h : GoesOn ['-'] tail) :
    readItem? (i.text ++ tail) = some (i, tail) := by
  cases i with
  | literal l =>
    rw [readItem?, ClassItem.text, readLiteral?_text, Option.bind_eq_bind, Option.bind_some]
    dsimp only
    split
    · exact absurd (List.mem_singleton_self _) (h '-' rfl)
    · rfl
  | range first last ordered =>
    rw [readItem?, ClassItem.text, List.append_assoc, readLiteral?_text, List.cons_append]
    show (readLiteral? (last.text ++ tail)).bind _ = _
    rw [readLiteral?_text, Option.bind_some]
    exact dif_pos ordered

theorem ClassItem.goesOn {i : ClassItem} {avoided : List Char} (tail : List Char)
    (h : startsNoByte avoided = true) : GoesOn avoided (i.text ++ tail) := by
  cases i with
  | literal l => exact Literal.goesOn tail h
  | range first last ordered =>
    rw [ClassItem.text, List.append_assoc]
    exact Literal.goesOn _ h

theorem ClassItem.length_text_pos (i : ClassItem) : 0 < i.text.length := by
  have hliteral : ∀ l : Literal, 0 < l.text.length := by
    intro l
    cases l <;> exact Nat.succ_pos _
  cases i with
  | literal l => exact hliteral l
  | range first last ordered =>
    rw [ClassItem.text, List.length_append]
    exact Nat.add_pos_left (hliteral first) _

/-- Behind an item of a set stands another one or the bracket. -/
theorem goesOn_items (is : List ClassItem) (tail : List Char) :
    GoesOn ['-'] (is.flatMap (·.text) ++ ']' :: tail) := by
  cases is with
  | nil =>
    intro c hc
    obtain rfl : ']' = c := Option.some.inj hc
    decide
  | cons i is =>
    rw [List.flatMap_cons, List.append_assoc]
    exact ClassItem.goesOn _ (by decide)

theorem readItems_text (is : List ClassItem) (tail : List Char) (fuel : Nat)
    (hfuel : (is.flatMap (·.text)).length < fuel) :
    readItems fuel (is.flatMap (·.text) ++ ']' :: tail) = some (is, tail) := by
  induction is generalizing fuel with
  | nil =>
    obtain ⟨fuel, rfl⟩ := Nat.exists_eq_succ_of_ne_zero (Nat.ne_zero_of_lt hfuel)
    rfl
  | cons i is ih =>
    obtain ⟨fuel, rfl⟩ := Nat.exists_eq_succ_of_ne_zero (Nat.ne_zero_of_lt hfuel)
    have hpos := i.length_text_pos
    rw [List.flatMap_cons, List.length_append] at hfuel
    rw [List.flatMap_cons, List.append_assoc, readItems, readItem?_text i (goesOn_items is tail)]
    · show (readItems fuel (is.flatMap (·.text) ++ ']' :: tail)).bind _ = _
      rw [ih fuel (by omega)]
      rfl
    · -- no item begins with a bracket
      intro rest hrest
      have hgoes : GoesOn [']'] (i.text ++ (is.flatMap (·.text) ++ ']' :: tail)) :=
        ClassItem.goesOn _ (by decide)
      exact hgoes ']' (by rw [hrest]; rfl) (List.mem_singleton_self _)

theorem ClassMember.goesOn {m : ClassMember} {avoided : List Char} (tail : List Char)
    (hbracket : '[' ∉ avoided) (h : startsNoByte avoided = true) :
    GoesOn avoided (m.text ++ tail) := by
  cases m with
  | item i => exact ClassItem.goesOn tail h
  | complement first others =>
    intro c hc
    obtain rfl : '[' = c := Option.some.inj hc
    exact hbracket

theorem ClassMember.length_text_pos (m : ClassMember) : 0 < m.text.length := by
  cases m with
  | item i => exact i.length_text_pos
  | complement first others => exact Nat.succ_pos _

theorem goesOn_members (ms : List ClassMember) (tail : List Char) :
    GoesOn ['-'] (ms.flatMap (·.text) ++ ']' :: tail) := by
  cases ms with
  | nil =>
    intro c hc
    obtain rfl : ']' = c := Option.some.inj hc
    decide
  | cons m ms =>
    rw [List.flatMap_cons, List.append_assoc]
    exact ClassMember.goesOn _ (by decide) (by decide)

theorem readMember?_text (m : ClassMember) {tail : List Char} (h : GoesOn ['-'] tail) (fuel : Nat)
    (hfuel : m.text.length ≤ fuel) : readMember? fuel (m.text ++ tail) = some (m, tail) := by
  cases m with
  | item i =>
    rw [ClassMember.text, readMember?]
    · rw [readItem?_text i h]
      rfl
    · intro rest hrest
      have hgoes : GoesOn ['['] (i.text ++ tail) := ClassItem.goesOn tail (by decide)
      exact hgoes '[' (by rw [hrest]; rfl) (List.mem_singleton_self _)
  | complement first others =>
    simp only [ClassMember.text, List.length_cons, List.length_append, List.length_nil] at hfuel
    have hitems := readItems_text (first :: others) tail fuel (by omega)
    have htext : (ClassMember.complement first others).text ++ tail =
        '[' :: '^' :: ((first :: others).flatMap (·.text) ++ ']' :: tail) := by
      simp [ClassMember.text]
    rw [htext, readMember?, hitems]
    rfl

theorem readMembers_text (ms : List ClassMember) (tail : List Char) (fuel : Nat)
    (hfuel : (ms.flatMap (·.text)).length < fuel) :
    readMembers fuel (ms.flatMap (·.text) ++ ']' :: tail) = some (ms, tail) := by
  induction ms generalizing fuel with
  | nil =>
    obtain ⟨fuel, rfl⟩ := Nat.exists_eq_succ_of_ne_zero (Nat.ne_zero_of_lt hfuel)
    rfl
  | cons m ms ih =>
    obtain ⟨fuel, rfl⟩ := Nat.exists_eq_succ_of_ne_zero (Nat.ne_zero_of_lt hfuel)
    have hpos := m.length_text_pos
    rw [List.flatMap_cons, List.length_append] at hfuel
    rw [List.flatMap_cons, List.append_assoc, readMembers,
      readMember?_text m (goesOn_members ms tail) fuel (by omega)]
    · show (readMembers fuel (ms.flatMap (·.text) ++ ']' :: tail)).bind _ = _
      rw [ih fuel (by omega)]
      rfl
    · intro rest hrest
      have hgoes : GoesOn [']'] (m.text ++ (ms.flatMap (·.text) ++ ']' :: tail)) :=
        ClassMember.goesOn _ (by decide) (by decide)
      exact hgoes ']' (by rw [hrest]; rfl) (List.mem_singleton_self _)

/-- The characters that mean something in front of a class or behind it. -/
def marks : List Char := ['?', '*', '+', '(', ')', '$', '^']

theorem Class.goesOn (c : Class) (tail : List Char) : GoesOn marks (c.text ++ tail) := by
  cases c with
  | any =>
    intro a ha
    obtain rfl : '.' = a := Option.some.inj ha
    decide
  | literal l => exact Literal.goesOn tail (by decide)
  | set negated first others =>
    intro a ha
    obtain rfl : '[' = a := Option.some.inj ha
    decide

theorem readSet?_text (negated : Bool) (first : ClassMember) (others : List ClassMember)
    (tail : List Char) (fuel : Nat)
    (hfuel : ((first :: others).flatMap (·.text)).length < fuel) :
    readSet? fuel negated ((first :: others).flatMap (·.text) ++ ']' :: tail) =
      some (.set negated first others, tail) := by
  rw [readSet?, readMembers_text (first :: others) tail fuel hfuel]
  rfl

theorem readClass?_text (c : Class) (tail : List Char) (fuel : Nat) (hfuel : c.text.length ≤ fuel) :
    readClass? fuel (c.text ++ tail) = some (c, tail) := by
  cases c with
  | any => rfl
  | literal l =>
    have hmarks : GoesOn ['.', '['] (l.text ++ tail) := Literal.goesOn tail (by decide)
    rw [Class.text, readClass?]
    · rw [readLiteral?_text]
      rfl
    · intro rest hrest
      exact hmarks '.' (by rw [hrest]; rfl) (by decide)
    · intro rest hrest
      exact hmarks '[' (by rw [hrest]; rfl) (by decide)
    · intro rest hrest
      exact hmarks '[' (by rw [hrest]; rfl) (by decide)
  | set negated first others =>
    cases negated with
    | true =>
      have htext : (Class.set true first others).text ++ tail =
          '[' :: '^' :: ((first :: others).flatMap (·.text) ++ ']' :: tail) := by
        simp [Class.text]
      have hlength : (Class.set true first others).text.length =
          ((first :: others).flatMap (·.text)).length + 3 := by
        rw [Class.text, List.length_cons, List.length_append, List.length_append]
        simp only [if_pos, List.length_cons, List.length_nil]
        omega
      rw [htext, readClass?, readSet?_text true first others tail fuel (by omega)]
    | false =>
      have htext : (Class.set false first others).text ++ tail =
          '[' :: ((first :: others).flatMap (·.text) ++ ']' :: tail) := by simp [Class.text]
      have hlength : (Class.set false first others).text.length =
          ((first :: others).flatMap (·.text)).length + 2 := by
        rw [Class.text, List.length_cons, List.length_append, List.length_append]
        simp only [Bool.false_eq_true, if_false, List.length_cons, List.length_nil]
        omega
      have hcaret : GoesOn ['^'] ((first :: others).flatMap (·.text) ++ ']' :: tail) := by
        rw [List.flatMap_cons, List.append_assoc]
        exact ClassMember.goesOn _ (by decide) (by decide)
      rw [htext, readClass?, readSet?_text false first others tail fuel (by omega)]
      intro rest hrest
      exact hcaret '^' (by rw [hrest]; rfl) (by decide)

/-! ### Rows -/

theorem readRepetition_text (r : Repetition) {s : List Char} (h : GoesOn ['?', '*', '+'] s) :
    readRepetition (r.text ++ s) = (r, s) := by
  have hne : ∀ c ∈ ['?', '*', '+'], ∀ rest, s = c :: rest → False := by
    rintro c hc rest rfl
    exact h c rfl hc
  cases r with
  | once =>
    refine readRepetition.eq_5 s (fun rest hs => ?_) (hne '*' (by decide)) (hne '+' (by decide))
      (hne '?' (by decide))
    exact hne '*' (by decide) _ hs
  | many => exact readRepetition.eq_2 s fun rest hs => hne '?' (by decide) rest hs
  | optional => rfl
  | some => rfl
  | lazy => rfl

/-- Where the text of a row may stop: at the end, or at a closing parenthesis. -/
inductive Stops : List Char → Prop
  | nil : Stops []
  | close (s : List Char) : Stops (')' :: s)

theorem GoesOn.mono {avoided avoided' s : List Char} (h : GoesOn avoided s)
    (hsub : avoided'.Sublist avoided) : GoesOn avoided' s :=
  fun c hc hmem => h c hc (hsub.subset hmem)

theorem Row.goesOn (row : Row) {tail : List Char} (h : Stops tail) :
    GoesOn ['?', '*', '+'] (row.text ++ tail) := by
  cases row with
  | done =>
    cases h with
    | nil => exact nofun
    | close s =>
      intro c hc
      obtain rfl : ')' = c := Option.some.inj hc
      decide
  | single c r rest =>
    rw [Row.text, List.append_assoc, List.append_assoc]
    exact (c.goesOn _).mono (by decide)
  | group inner rest =>
    intro c hc
    obtain rfl : '(' = c := Option.some.inj hc
    decide
  | atEnd rest =>
    intro c hc
    obtain rfl : '$' = c := Option.some.inj hc
    decide

theorem Class.length_text_pos (c : Class) : 0 < c.text.length := by
  cases c with
  | any => exact Nat.succ_pos _
  | literal l => cases l <;> exact Nat.succ_pos _
  | set negated first others => exact Nat.succ_pos _

/-- A row is read from its text. -/
theorem readRow_text (row : Row) {tail : List Char} (h : Stops tail) (fuel : Nat)
    (hfuel : row.text.length < fuel) : readRow fuel (row.text ++ tail) = some (row, tail) := by
  induction row generalizing tail fuel with
  | done =>
    obtain ⟨fuel, rfl⟩ := Nat.exists_eq_succ_of_ne_zero (Nat.ne_zero_of_lt hfuel)
    cases h <;> rfl
  | single c r rest ih =>
    obtain ⟨fuel, rfl⟩ := Nat.exists_eq_succ_of_ne_zero (Nat.ne_zero_of_lt hfuel)
    have hpos := c.length_text_pos
    have hmarks := c.goesOn (r.text ++ (rest.text ++ tail))
    rw [Row.text, List.length_append, List.length_append] at hfuel
    have hne : ∀ a ∈ marks, ∀ u, c.text ++ (r.text ++ (rest.text ++ tail)) = a :: u → False :=
      fun a ha u hu => hmarks a (by rw [hu]; rfl) ha
    have hrepetition := readRepetition_text r (rest.goesOn h)
    rw [Row.text, List.append_assoc, List.append_assoc, readRow]
    · rw [readClass?_text c _ fuel (by omega)]
      simp only [Option.bind_eq_bind, Option.bind_some, hrepetition, ih h fuel (by omega),
        Option.map_some]
    · intro hnil
      rw [List.append_eq_nil_iff] at hnil
      rw [hnil.1] at hpos
      exact absurd hpos (Nat.lt_irrefl 0)
    · exact hne ')' (by decide)
    · exact hne '(' (by decide)
    · exact hne '$' (by decide)
  | group inner rest ihInner ihRest =>
    obtain ⟨fuel, rfl⟩ := Nat.exists_eq_succ_of_ne_zero (Nat.ne_zero_of_lt hfuel)
    simp only [Row.text, List.length_cons, List.length_append] at hfuel
    have htext : (Row.group inner rest).text ++ tail =
        '(' :: (inner.text ++ ')' :: (rest.text ++ tail)) := by simp [Row.text]
    rw [htext, readRow, ihInner (.close _) fuel (by omega)]
    show (readRow fuel (rest.text ++ tail)).map _ = _
    rw [ihRest h fuel (by omega)]
    rfl
  | atEnd rest ih =>
    obtain ⟨fuel, rfl⟩ := Nat.exists_eq_succ_of_ne_zero (Nat.ne_zero_of_lt hfuel)
    rw [Row.text, List.length_cons] at hfuel
    rw [Row.text, List.cons_append, readRow, ih h fuel (by omega)]
    rfl

/-! ### Expressions -/

theorem readAnchor_text (anchored : Bool) (row : Row) :
    readAnchor ((if anchored then ['^'] else []) ++ row.text) = (anchored, row.text) := by
  cases anchored with
  | true => rfl
  | false =>
    refine readAnchor.eq_2 row.text fun rest hrest => ?_
    cases row with
    | done => cases hrest
    | single c r row =>
      rw [Row.text, List.append_assoc] at hrest
      exact c.goesOn _ '^' (by rw [hrest]; rfl) (by decide)
    | group inner row => cases hrest
    | atEnd row => cases hrest

/-- An expression is read from its text. -/
theorem Expression.read?_text (e : Expression) : Expression.read? e.text = some e := by
  have hdrop : e.text.drop flags.length = (if e.anchored then ['^'] else []) ++ e.row.text := by
    rw [Expression.text, List.append_assoc, List.drop_left]
  have hrow : readRow (e.row.text.length + 1) e.row.text = some (e.row, []) := by
    have hread := readRow_text e.row .nil (e.row.text.length + 1) (Nat.lt_succ_self _)
    rwa [List.append_nil] at hread
  rw [Expression.read?, hdrop, readAnchor_text]
  dsimp only
  rw [hrow]

/-! ### The promises of the engine -/

namespace Engine

/-- The engine finds the preferred match. -/
theorem leftmostFirst_backtracking : backtracking.LeftmostFirst := by
  intro e haystack _
  have hcaptures : backtracking.captures e.text haystack =
      (Expression.read? e.text).bind (·.find? haystack) := rfl
  rw [hcaptures, Expression.read?_text, Option.bind_some, Expression.find?_eq]

end Engine

/-- Every state comes from a character of its own. -/
theorem states_le (depth : Nat) (s : List Char) (n : Nat) :
    states depth s n ≤ n + s.length := by
  fun_induction states depth s n <;> grind

namespace Engine

/-- The engine refuses no short text. -/
theorem acceptsShort_backtracking : backtracking.AcceptsShort := by
  intro e hshort
  have hstates := states_le 0 e.text 0
  refine if_neg ?_
  rw [shortLength] at hshort
  rw [sizeLimit, stateSize]
  omega

end Engine

end Lua.Regex
