/-
The symbols of a format string.

A format string is read piece by piece, each as long as possible.  What the pieces stand for does
not depend on where they end: bytes that stand for themselves, and conversions.

* `Reads`, `parse_eq_ok` — the pieces of a format string, read without fuel;
* `exists_delimited` — a conversion with a letter that is known ends there, whatever follows;
* `Spells` — texts as rows of symbols;
* `Reads.spells`, `Spells.exists_reads` — the pieces of a text are those of its symbols;
* `Spells.append` — the symbols of a text in two parts.

Design notes: a row of literal bytes is one piece, and two such rows are one piece when a text is
put together.  So texts are compared by their symbols, byte for byte.
-/
import Lua.Proofs.LiteralPatterns
import Mathlib.Data.List.TakeWhile

namespace Lua.Format

/-! ### Reading without fuel -/

theorem readWidth_suffix (s : Bytes) : (readWidth s).2 <:+ s := by
  rw [readWidth]
  split
  · exact List.suffix_rfl
  · split
    · exact List.dropWhile_suffix _
    · exact List.suffix_rfl

theorem readPrecision_suffix (s : Bytes) : (readPrecision s).2 <:+ s := by
  cases s with
  | nil => exact List.suffix_rfl
  | cons b rest =>
    rw [readPrecision]
    split
    · exact (List.dropWhile_suffix _).trans (List.suffix_cons _ _)
    · exact List.suffix_rfl

/-- What stands behind the flags, the width and the precision. -/
def behind (s : Bytes) : Bytes := (readPrecision (readWidth (s.dropWhile isFlag)).2).2

theorem behind_suffix (s : Bytes) : behind s <:+ s :=
  (readPrecision_suffix _).trans <| (readWidth_suffix _).trans <| List.dropWhile_suffix _

/-- The flags, the width and the precision in front of a letter. -/
def conversionOf (s : Bytes) (letter : UInt8) : Conversion where
  flags := flagsOf (s.takeWhile isFlag)
  width := (readWidth (s.dropWhile isFlag)).1
  precision := (readPrecision (readWidth (s.dropWhile isFlag)).2).1
  letter := letter

theorem readConversion?_eq (s : Bytes) : readConversion? s = match behind s with
    | [] => none
    | letter :: rest => some (conversionOf s letter, rest) := rfl

variable {s u rest : Bytes} {c : Conversion} {piece : FormatPiece} {pieces : List FormatPiece}

/-- A conversion is read up to its letter. -/
theorem behind_eq (h : readConversion? s = some (c, rest)) :
    behind s = c.letter :: rest ∧ c = conversionOf s c.letter := by
  rw [readConversion?_eq] at h
  cases hbehind : behind s with
  | nil =>
    rw [hbehind] at h
    cases h
  | cons letter rest' =>
    rw [hbehind] at h
    cases h
    exact ⟨rfl, rfl⟩

/-- The bytes up to the next percent sign, and what stands behind them. -/
def plainFront (s : Bytes) : Bytes := s.takeWhile (· != percent)

def plainRest (s : Bytes) : Bytes := s.dropWhile (· != percent)

variable {b : UInt8}

theorem plainFront_append (s : Bytes) : plainFront s ++ plainRest s = s :=
  List.takeWhile_append_dropWhile

theorem plainFront_cons (hb : b ≠ percent) (s : Bytes) :
    plainFront (b :: s) = b :: plainFront s := List.takeWhile_cons_of_pos (bne_iff_ne.mpr hb)

theorem plainRest_cons (hb : b ≠ percent) (s : Bytes) : plainRest (b :: s) = plainRest s :=
  List.dropWhile_cons_of_pos (bne_iff_ne.mpr hb)

theorem ne_percent_of_mem (h : b ∈ plainFront s) : b ≠ percent :=
  bne_iff_ne.mp (List.mem_takeWhile_imp (p := (· != percent)) h)

theorem readPiece?_literal (hb : b ≠ percent) (s : Bytes) :
    readPiece? (b :: s) = some (.literal (b :: plainFront s), plainRest s) := if_pos hb

theorem readPiece?_percent (s : Bytes) :
    readPiece? (percent :: percent :: s) = some (.literal [percent], s) := rfl

theorem readPiece?_of_readConversion? (hs : s.head? ≠ some percent)
    (h : readConversion? s = some (c, rest)) :
    readPiece? (percent :: s) = some (.conversion c, rest) := by
  cases s with
  | nil => cases h
  | cons b s =>
    have hb : b ≠ percent := fun hb => hs (congrArg some hb)
    show (if b = percent then _ else (readConversion? (b :: s)).map _) = _
    rw [if_neg hb, h]
    rfl

/-- The three kinds of pieces. -/
theorem readPiece?_cases (h : readPiece? s = some (piece, rest)) :
    (∃ b t, b ≠ percent ∧ s = b :: t ∧ piece = .literal (b :: plainFront t) ∧
      rest = plainRest t) ∨
    (s = percent :: percent :: rest ∧ piece = .literal [percent]) ∨
    ∃ t c, t.head? ≠ some percent ∧ s = percent :: t ∧ readConversion? t = some (c, rest) ∧
      piece = .conversion c := by
  cases s with
  | nil => cases h
  | cons b s =>
    by_cases hb : b = percent
    · subst hb
      cases s with
      | nil => cases h
      | cons b s =>
        by_cases hb : b = percent
        · subst hb
          cases h
          exact .inr (.inl ⟨rfl, rfl⟩)
        · obtain ⟨⟨c, rest'⟩, hread, heq⟩ :=
            Option.map_eq_some_iff.mp ((if_neg hb).symm.trans h)
          cases heq
          exact .inr (.inr ⟨b :: s, c, fun hhead => hb (Option.some.inj hhead), rfl, hread, rfl⟩)
    · rw [readPiece?_literal hb] at h
      cases h
      exact .inl ⟨b, s, hb, rfl, rfl, rfl⟩

theorem length_readPiece? (h : readPiece? s = some (piece, rest)) : rest.length < s.length := by
  obtain ⟨b, t, -, rfl, -, rfl⟩ | ⟨rfl, -⟩ | ⟨t, c, -, rfl, hread, -⟩ := readPiece?_cases h
  · exact Nat.lt_succ_of_le (List.dropWhile_suffix _).length_le
  · exact Nat.lt_succ_of_lt (Nat.lt_succ_self _)
  · have hle := (behind_suffix t).length_le
    rw [(behind_eq hread).1, List.length_cons] at hle
    exact Nat.lt_succ_of_lt hle

/-- The pieces of a text, read one after the other. -/
inductive Reads : Bytes → List FormatPiece → Prop
  | nil : Reads [] []
  | cons {s : Bytes} {piece : FormatPiece} {rest : Bytes} {pieces : List FormatPiece}
      (h : readPiece? s = some (piece, rest)) (hrest : Reads rest pieces) :
      Reads s (piece :: pieces)

theorem reads_readPieces {fuel : Nat} (h : (readPieces fuel s).2 = []) :
    Reads s (readPieces fuel s).1 := by
  induction fuel generalizing s with
  | zero =>
    obtain rfl : s = [] := h
    exact .nil
  | succ fuel ih =>
    rw [readPieces] at h ⊢
    cases hpiece : readPiece? s with
    | none =>
      simp only [hpiece] at h
      subst h
      exact .nil
    | some found =>
      simp only [hpiece] at h
      exact .cons hpiece (ih h)

theorem Reads.readPieces (h : Reads s pieces) {fuel : Nat} (hfuel : s.length ≤ fuel) :
    readPieces fuel s = (pieces, []) := by
  induction h generalizing fuel with
  | nil => cases fuel <;> rfl
  | cons h _ ih =>
    have hlt := length_readPiece? h
    cases fuel with
    | zero => omega
    | succ fuel =>
      rw [Format.readPieces]
      simp only [h, ih (by omega : _ ≤ fuel)]

/-- A text is accepted if all of it is read. -/
theorem parse_eq_ok : parse s = .ok pieces ↔ Reads s pieces := by
  have hparse : parse s = if (readPieces s.length s).2.isEmpty then .ok (readPieces s.length s).1
      else .error (invalid (Utf8.toText (readPieces s.length s).2)) := rfl
  rw [hparse]
  constructor
  · intro h
    split at h
    · rename_i hrest
      cases h
      exact reads_readPieces (List.isEmpty_iff.mp hrest)
    · cases h
  · intro h
    rw [h.readPieces (Nat.le_refl _)]
    rfl

/-! ### Conversions and what follows them -/

/-- The letters of conversions. -/
def letters : Bytes := Bytes.ofString "cdiuoxXaAeEfFgGqs"

/-- Flags, width and precision end before such a byte. -/
def Stops (b : UInt8) : Prop := isFlag b = false ∧ Ascii.isDigit b = false ∧ b ≠ Ascii.byte '.'

theorem mem_letters (h : Library.Strings.spec? b ≠ none) : b ∈ letters := by
  unfold Library.Strings.spec? at h
  split at h
  all_goals first
    | exact absurd rfl h
    | rename_i hb
      rw [Pattern.eq_byte_of_ofNat hb]
      decide

theorem stops_letter (h : Library.Strings.spec? b ≠ none) : Stops b ∧ b ≠ percent := by
  have htable : ∀ b ∈ letters, (isFlag b = false ∧ Ascii.isDigit b = false ∧ b ≠ Ascii.byte '.') ∧
      b ≠ percent := by decide +kernel
  exact htable b (mem_letters h)

section

variable {p : UInt8 → Bool}

theorem takeWhile_stop (h : p b = false) (s rest : Bytes) :
    (s ++ b :: rest).takeWhile p = s.takeWhile p := by
  rw [List.takeWhile_append, List.takeWhile_cons_of_neg (by simp [h]), List.append_nil]
  split
  · rename_i hlen
    exact ((List.takeWhile_prefix p).eq_of_length hlen).symm
  · rfl

theorem dropWhile_stop (h : p b = false) (s rest : Bytes) :
    (s ++ b :: rest).dropWhile p = s.dropWhile p ++ b :: rest := by
  rw [List.dropWhile_append, List.dropWhile_cons_of_neg (by simp [h])]
  split
  · rename_i hempty
    rw [List.isEmpty_iff.mp hempty, List.nil_append]
  · rfl

end

theorem readWidth_stop (h : Ascii.isDigit b = false) (s rest : Bytes) :
    readWidth (s ++ b :: rest) = ((readWidth s).1, (readWidth s).2 ++ b :: rest) := by
  rw [readWidth, readWidth, takeWhile_stop h, dropWhile_stop h]
  split
  · rfl
  · split <;> rfl

theorem readPrecision_stop (h : Stops b) (s rest : Bytes) :
    readPrecision (s ++ b :: rest) = ((readPrecision s).1, (readPrecision s).2 ++ b :: rest) := by
  obtain ⟨-, hdigit, hpoint⟩ := h
  cases s with
  | nil => exact if_neg hpoint
  | cons b' s =>
    rw [List.cons_append, readPrecision, readPrecision, takeWhile_stop hdigit,
      dropWhile_stop hdigit]
    split <;> rfl

theorem behind_stop (h : Stops b) (s rest : Bytes) :
    behind (s ++ b :: rest) = behind s ++ b :: rest := by
  rw [behind, dropWhile_stop h.1, readWidth_stop h.2.1, readPrecision_stop h]
  rfl

theorem conversionOf_stop (h : Stops b) (s rest : Bytes) (letter : UInt8) :
    conversionOf (s ++ b :: rest) letter = conversionOf s letter := by
  rw [conversionOf, takeWhile_stop h.1, dropWhile_stop h.1, readWidth_stop h.2.1,
    readPrecision_stop h]
  rfl

/-- The text of a conversion, of which the same is read whatever follows it. -/
structure Delimited (u : Bytes) (c : Conversion) : Prop where
  head : ∀ rest, (u ++ rest).head? ≠ some percent
  read : ∀ rest, readConversion? (u ++ rest) = some (c, rest)

/-- **A known letter ends a conversion.** -/
theorem exists_delimited (h : readConversion? s = some (c, rest))
    (hc : Library.Strings.spec? c.letter ≠ none) : ∃ u, s = u ++ rest ∧ Delimited u c := by
  obtain ⟨hbehind, hconversion⟩ := behind_eq h
  obtain ⟨hstops, hpercent⟩ := stops_letter hc
  obtain ⟨front, rfl⟩ : c.letter :: rest <:+ s := hbehind ▸ behind_suffix s
  have hfront : behind front = [] := by
    rw [behind_stop hstops] at hbehind
    exact List.append_left_eq_self.mp hbehind
  rw [conversionOf_stop hstops] at hconversion
  refine ⟨front ++ [c.letter], by simp, fun rest' hhead => ?_, fun rest' => ?_⟩
  · cases front with
    | nil => exact hpercent (Option.some.inj hhead)
    | cons b front =>
      -- a percent sign is no flag, no digit and no point
      obtain rfl : b = percent := Option.some.inj hhead
      have hletter : behind (percent :: front) = percent :: front := rfl
      cases hletter.symm.trans hfront
  · rw [List.append_assoc, List.singleton_append, readConversion?_eq, behind_stop hstops, hfront,
      List.nil_append]
    dsimp only
    rw [conversionOf_stop hstops, ← hconversion]

/-! ### Symbols -/

/-- A symbol of a format string: a byte that stands for itself, or a conversion. -/
inductive Symbol where
  | byte (b : UInt8)
  | conversion (c : Conversion)

def Symbol.isConversion : Symbol → Bool
  | .byte _ => false
  | .conversion _ => true

/-- The symbols of a piece. -/
def symbolsOf : FormatPiece → List Symbol
  | .literal s => s.map .byte
  | .conversion c => [.conversion c]

/-- The symbols of a row of pieces. -/
def symbols (pieces : List FormatPiece) : List Symbol := pieces.flatMap symbolsOf

/-- How many conversions a format string has. -/
def conversionCount (s : Bytes) : Nat :=
  match parse s with
  | .ok pieces => (symbols pieces).countP (·.isConversion)
  | .error _ => 0

/-- The text of a row of symbols: a byte stands for itself, if it is no percent sign; two percent
signs stand for one; and a percent sign stands before a conversion. -/
inductive Spells : Bytes → List Symbol → Prop
  | nil : Spells [] []
  | byte {b : UInt8} {s : Bytes} {xs : List Symbol} (hb : b ≠ percent) (rest : Spells s xs) :
      Spells (b :: s) (.byte b :: xs)
  | double {s : Bytes} {xs : List Symbol} (rest : Spells s xs) :
      Spells (percent :: percent :: s) (.byte percent :: xs)
  | conversion {u : Bytes} {c : Conversion} {s : Bytes} {xs : List Symbol} (hu : Delimited u c)
      (rest : Spells s xs) : Spells (percent :: (u ++ s)) (.conversion c :: xs)

variable {s₁ s₂ : Bytes} {xs xs₁ xs₂ : List Symbol}

/-- Texts in a row spell symbols in a row: no text runs on into the next one. -/
theorem Spells.append (h₁ : Spells s₁ xs₁) (h₂ : Spells s₂ xs₂) :
    Spells (s₁ ++ s₂) (xs₁ ++ xs₂) := by
  induction h₁ with
  | nil => exact h₂
  | byte hb _ ih => exact .byte hb ih
  | double _ ih => exact .double ih
  | conversion hu _ ih =>
    rw [List.cons_append, List.append_assoc]
    exact .conversion hu ih

theorem Spells.literal {t : Bytes} (ht : ∀ b ∈ t, b ≠ percent) (h : Spells s xs) :
    Spells (t ++ s) (t.map .byte ++ xs) := by
  induction t with
  | nil => exact h
  | cons b t ih =>
    exact .byte (ht b (List.mem_cons_self ..)) (ih fun b hb => ht b (List.mem_cons_of_mem _ hb))

/-- All conversions have a letter that is known. -/
def Known (xs : List Symbol) : Prop :=
  ∀ c, .conversion c ∈ xs → Library.Strings.spec? c.letter ≠ none

/-- What is read is spelled. -/
theorem Reads.spells (h : Reads s pieces) (hknown : Known (symbols pieces)) :
    Spells s (symbols pieces) := by
  induction h with
  | nil => exact .nil
  | @cons s piece rest pieces h _ ih =>
    have hrest := ih fun c hc => hknown c (List.mem_append_right _ hc)
    obtain ⟨b, t, hb, rfl, rfl, rfl⟩ | ⟨rfl, rfl⟩ | ⟨t, c, -, rfl, hread, rfl⟩ :=
      readPiece?_cases h
    · have hspells := hrest.literal fun b hb => ne_percent_of_mem (s := t) hb
      rw [plainFront_append] at hspells
      exact .byte hb hspells
    · exact .double hrest
    · obtain ⟨u, rfl, hu⟩ := exists_delimited hread (hknown c (List.mem_cons_self ..))
      exact .conversion hu hrest

/-- The pieces of a text are a literal one, up to the next percent sign, and the pieces from there
on. -/
theorem Reads.plainRest (h : Reads s pieces) : ∃ pieces', Reads (plainRest s) pieces' ∧
    symbols pieces = (plainFront s).map .byte ++ symbols pieces' := by
  cases s with
  | nil => exact ⟨pieces, h, rfl⟩
  | cons b s =>
    by_cases hb : b = percent
    · subst hb
      exact ⟨pieces, h, rfl⟩
    · rw [plainFront_cons hb, plainRest_cons hb]
      cases h with
      | cons hpiece hrest =>
        rw [readPiece?_literal hb] at hpiece
        cases hpiece
        exact ⟨_, hrest, rfl⟩

/-- What is spelled is read, in pieces with these symbols. -/
theorem Spells.exists_reads (h : Spells s xs) : ∃ pieces, Reads s pieces ∧ symbols pieces = xs := by
  induction h with
  | nil => exact ⟨[], .nil, rfl⟩
  | @byte b s xs hb _ ih =>
    -- the byte makes one piece with the bytes up to the next percent sign
    obtain ⟨pieces, hreads, rfl⟩ := ih
    obtain ⟨pieces', hrest, hsymbols⟩ := hreads.plainRest
    exact ⟨_, .cons (readPiece?_literal hb s) hrest, congrArg (Symbol.byte b :: ·) hsymbols.symm⟩
  | double _ ih =>
    obtain ⟨pieces, hreads, rfl⟩ := ih
    exact ⟨_, .cons (readPiece?_percent _) hreads, rfl⟩
  | @conversion u c s xs hu _ ih =>
    obtain ⟨pieces, hreads, rfl⟩ := ih
    exact ⟨_, .cons (readPiece?_of_readConversion? (hu.head s) (hu.read s)) hreads, rfl⟩

end Lua.Format
