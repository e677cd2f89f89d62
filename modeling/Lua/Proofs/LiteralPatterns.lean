/-
Patterns that are texts.

A pattern in which every byte stands for itself matches its text and nothing else.  The matcher
lays the bytes of such a pattern over the subject one by one, a plain search compares a window of
the subject with the text, and both stop at the first place where the text occurs:

* `Occurs` — a text occurs in a subject at an offset;
* `Bytes.find?_eq_some`, `Bytes.find?_eq_none` — the plain search finds the first occurrence;
* `Pattern.literal` — the pattern of a text;
* `Pattern.findAt_literal` — the engine finds what the plain search finds;
* `Pattern.Spelled` — what is read as a row of bytes, each as it is or behind a percent sign;
* `Pattern.compile_escaped` — an escaped text is an expression, unless the engine refuses that;
* `Pattern.read_plain` — a text without special bytes that gets through is read as its pattern.

Design notes: a closing parenthesis is no special byte, although it means something in a pattern.
So a spelling may close captures; that no capture is open then is found out when the expression is
written.
-/
import Lua.Library.String
import Lua.Proofs.PatternMatch
import Mathlib.Order.Bounds.Basic

namespace Lua

open Regex (Engine)

/-! ### Occurrences -/

/-- The text stands in the subject at the offset. -/
def Occurs (text s : Bytes) (k : Nat) : Prop := k ≤ s.length ∧ text <+: s.drop k

variable {text s : Bytes} {b : UInt8} {k : Nat}

theorem occurs_zero : Occurs text s 0 ↔ text <+: s := by
  simp [Occurs]

theorem occurs_succ : Occurs text (b :: s) (k + 1) ↔ Occurs text s k := by
  simp [Occurs]

/-- At the end of a subject only the empty text occurs. -/
theorem occurs_nil : Occurs text [] k ↔ text = [] ∧ k = 0 := by
  simp [Occurs, and_comm]

/-- An occurrence in a suffix. -/
theorem occurs_drop {d : Nat} (hd : d ≤ s.length) :
    Occurs text (s.drop d) k ↔ Occurs text s (d + k) := by
  rw [Occurs, Occurs, List.drop_drop, List.length_drop]
  refine and_congr_left fun _ => ?_
  omega

namespace Bytes

/-- What the plain search finds is the first occurrence. -/
theorem find?_eq_some (h : find? text s = some k) : IsLeast {k | Occurs text s k} k := by
  induction s generalizing k with
  | nil =>
    rw [find?] at h
    split at h
    · rename_i hempty
      obtain rfl := Option.some.inj h
      exact ⟨occurs_nil.mpr ⟨List.isEmpty_iff.mp hempty, rfl⟩, fun _ _ => Nat.zero_le _⟩
    · cases h
  | cons b s ih =>
    rw [find?] at h
    split at h
    · rename_i hhere
      obtain rfl := Option.some.inj h
      exact ⟨occurs_zero.mpr (List.isPrefixOf_iff_prefix.mp hhere), fun _ _ => Nat.zero_le _⟩
    · rename_i hhere
      obtain ⟨k, hk, rfl⟩ := Option.map_eq_some_iff.mp h
      obtain ⟨hoccurs, hleast⟩ := ih hk
      refine ⟨occurs_succ.mpr hoccurs, fun j hj => ?_⟩
      cases j with
      | zero => exact absurd (List.isPrefixOf_iff_prefix.mpr (occurs_zero.mp hj)) hhere
      | succ j => exact Nat.succ_le_succ (hleast (occurs_succ.mp hj))

/-- It finds nothing only if the text does not occur. -/
theorem find?_eq_none (h : find? text s = none) (k : Nat) : ¬ Occurs text s k := by
  induction s generalizing k with
  | nil =>
    intro hoccurs
    obtain ⟨rfl, rfl⟩ := occurs_nil.mp hoccurs
    cases h
  | cons b s ih =>
    rw [find?] at h
    split at h
    · cases h
    · rename_i hhere
      intro hoccurs
      cases k with
      | zero => exact hhere (List.isPrefixOf_iff_prefix.mpr (occurs_zero.mp hoccurs))
      | succ k => exact ih (Option.map_eq_none_iff.mp h) k (occurs_succ.mp hoccurs)

end Bytes

namespace Pattern

/-! ### Layouts of a text -/

/-- The item that is a byte. -/
def literalItem (b : UInt8) : PatternItem := .single (.atom (.byte b)) .once

/-- The pattern that is a text. -/
def literal (text : Bytes) : Pattern := ⟨false, text.map literalItem⟩

/-- An item that is a byte covers that byte. -/
theorem covers_literal {n : Nat} : Covers .once (SingleClass.atom (.byte b)).accepts s n ↔
    n = 1 ∧ s.head? = some b := by
  constructor
  · rintro ⟨rfl, hlength, hall⟩
    cases s with
    | nil => cases hlength
    | cons a s =>
      have hab : (a == b) = true := hall a (List.mem_cons_self ..)
      rw [eq_of_beq hab]
      exact ⟨rfl, rfl⟩
  · rintro ⟨rfl, hhead⟩
    obtain ⟨s, rfl⟩ := List.head?_eq_some_iff.mp hhead
    refine ⟨rfl, Nat.succ_pos _, fun a ha => ?_⟩
    obtain rfl := List.mem_singleton.mp ha
    exact beq_self_eq_true a

/-- The items of a text can be laid over the bytes that begin with it, each over one of them. -/
theorem laid_literal {ns : List Nat} : Laid (text.map literalItem) s ns ↔
    ns = List.replicate text.length 1 ∧ text <+: s := by
  induction text generalizing s ns with
  | nil =>
    refine ⟨fun h => ?_, ?_⟩
    · cases h
      exact ⟨rfl, List.nil_prefix⟩
    · rintro ⟨rfl, -⟩
      exact .nil s
  | cons b text ih =>
    rw [List.map_cons, literalItem, laid_single_iff]
    simp only [covers_literal, ih]
    constructor
    · rintro ⟨n, ns', rfl, ⟨rfl, hhead⟩, rfl, hprefix⟩
      obtain ⟨s, rfl⟩ := List.head?_eq_some_iff.mp hhead
      exact ⟨rfl, List.cons_prefix_cons.mpr ⟨rfl, hprefix⟩⟩
    · rintro ⟨rfl, hprefix⟩
      obtain ⟨r, rfl⟩ := hprefix
      exact ⟨1, _, rfl, ⟨rfl, rfl⟩, rfl, List.prefix_append text r⟩

/-- A match starts where the text occurs. -/
theorem starts_literal {offset start : Nat} :
    Starts (literal text) s offset start ↔ offset ≤ start ∧ Occurs text s start := by
  constructor
  · rintro ⟨hafter, hinside, -, ns, hlaid⟩
    exact ⟨hafter, hinside, (laid_literal.mp hlaid).2⟩
  · rintro ⟨hafter, hinside, hprefix⟩
    exact ⟨hafter, hinside, nofun, _, laid_literal.mpr ⟨rfl, hprefix⟩⟩

theorem count_openCapture_literal (text : Bytes) :
    (literal text).items.count .openCapture = 0 := by
  refine List.count_eq_zero_of_not_mem fun h => ?_
  obtain ⟨b, -, hb⟩ := List.mem_map.mp h
  cases hb

/-- The match of a text ends where the text does, and captures nothing. -/
theorem Found.literal {offset : Nat} {m : Match} (h : Found (literal text) s offset m) :
    m = ⟨m.start, m.start + text.length, []⟩ := by
  obtain ⟨ns, hbest, hstop, -⟩ := h.layout
  obtain ⟨hpresent, hcount⟩ := h.present
  obtain ⟨rfl, -⟩ := laid_literal.mp hbest.laid
  rw [count_openCapture_literal, List.length_eq_zero_iff] at hcount
  rw [hcount] at hpresent
  rw [List.sum_replicate_nat, Nat.mul_one] at hstop
  obtain ⟨start, stop, groups⟩ := m
  obtain rfl : stop = start + text.length := hstop
  obtain rfl : groups = [] := hpresent
  rfl

/-- The engine finds what the plain search finds in the rest of the subject. -/
theorem findAt_literal {engine : Engine} {x : Regex} (hx : Accepted engine (literal text) x)
    {offset : Nat} (h : offset ≤ s.length) : engine.findAt x s offset =
      (Bytes.find? text (s.drop offset)).map fun k =>
        ⟨offset + k, offset + k + text.length, []⟩ := by
  cases hm : engine.findAt x s offset with
  | none =>
    cases hk : Bytes.find? text (s.drop offset) with
    | none => rfl
    | some k =>
      have hoccurs := (occurs_drop h).mp (Bytes.find?_eq_some hk).1
      exact absurd (starts_literal.mpr ⟨Nat.le_add_right .., hoccurs⟩) (hx.not_starts hm _)
  | some m =>
    have hfound := hx.found hm
    obtain ⟨hstarts, hleast⟩ := hfound.leftmost
    obtain ⟨hafter, hoccurs⟩ := starts_literal.mp hstarts
    obtain ⟨j, hj⟩ := Nat.exists_eq_add_of_le hafter
    rw [hj, ← occurs_drop h] at hoccurs
    cases hk : Bytes.find? text (s.drop offset) with
    | none => exact absurd hoccurs (Bytes.find?_eq_none hk j)
    | some k =>
      obtain ⟨hoccurs', hleast'⟩ := Bytes.find?_eq_some hk
      have hle : m.start ≤ offset + k :=
        hleast (starts_literal.mpr ⟨Nat.le_add_right .., (occurs_drop h).mp hoccurs'⟩)
      have hge : k ≤ j := hleast' hoccurs
      have hstart : m.start = offset + k := by omega
      rw [hfound.literal, hstart]
      rfl

/-! ### Reading the spelling of a text -/

/-- The bytes that mean nothing in a pattern wherever they stand. -/
def IsPlain (b : UInt8) : Prop := b ∉ Library.Strings.specials ∧ b ≠ Ascii.byte ')'

/-- What is read as a row of bytes, each of which stands as it is or behind a percent sign; closing
parentheses may stand between them. -/
inductive Spelled : Bytes → List PatternItem → Prop
  | nil : Spelled [] []
  | plain {b source items} (h : IsPlain b) (rest : Spelled source items) :
      Spelled (b :: source) (literalItem b :: items)
  | escaped {b source items} (h : Ascii.isAlphanumeric b = false) (rest : Spelled source items) :
      Spelled (percent :: b :: source) (literalItem b :: items)
  | close {source items} (rest : Spelled source items) :
      Spelled (Ascii.byte ')' :: source) (.closeCapture :: items)

theorem eq_byte_of_ofNat {c : Char} (h : Char.ofNat b.toNat = c) : b = Ascii.byte c := by
  rw [← h, Regex.byte_ofNat]

/-- A byte that means nothing is read as none of the characters that do. -/
theorem IsPlain.ne {c : Char} (h : IsPlain b)
    (hc : Ascii.byte c ∈ Library.Strings.specials ∨ c = ')') :
    Char.ofNat b.toNat ≠ c := by
  intro hb
  obtain rfl := eq_byte_of_ofNat hb
  rcases hc with hc | rfl
  · exact h.1 hc
  · exact h.2 rfl

/-- No item is repeated. -/
theorem Spelled.readRepetition {source : Bytes} {items : List PatternItem}
    (h : Spelled source items) : readRepetition source = (.once, source) := by
  cases h with
  | nil => rfl
  | @plain b source items h =>
    rw [Pattern.readRepetition]
    split <;> first | rfl | exact absurd ‹_› (h.ne (by decide))
  | escaped => rfl
  | close => rfl

/-- A class without a repetition is an item. -/
theorem readSingle?_once {source rest : Bytes} {c : SingleClass}
    (hclass : readClass? source = some (c, rest)) (hrest : readRepetition rest = (.once, rest)) :
    readSingle? source = some (.single c .once, rest) := by
  rw [readSingle?, hclass, Option.map_some]
  dsimp only
  rw [hrest]

theorem readItem?_plain {rest : Bytes} (h : IsPlain b)
    (hrest : readRepetition rest = (.once, rest)) :
    readItem? (b :: rest) = some (literalItem b, rest) := by
  have hclass : readClass? (b :: rest) = some (.atom (.byte b), rest) := by
    unfold readClass?
    dsimp only
    split <;> first | rfl | exact absurd ‹_› (h.ne (by decide))
  unfold readItem?
  dsimp only
  split
  case h_5 => exact readSingle?_once hclass hrest
  all_goals exact absurd ‹_› (h.ne (by decide))

/-- Only letters name classes and features, and only digits name captures. -/
theorem escape_of_not_word (h : Ascii.isAlphanumeric b = false) :
    escape b = .byte b ∧ unsupported? b = none := by
  have htable : ∀ b, Ascii.isAlphanumeric b = false →
      escape b = .byte b ∧ unsupported? b = none := Ascii.forall_byte (by decide +kernel)
  exact htable b h

theorem readItem?_escaped {rest : Bytes} (h : Ascii.isAlphanumeric b = false)
    (hrest : readRepetition rest = (.once, rest)) :
    readItem? (percent :: b :: rest) = some (literalItem b, rest) := by
  obtain ⟨hescape, hsupported⟩ := escape_of_not_word h
  have hread : readItem? (percent :: b :: rest) = readSingle? (percent :: b :: rest) := by
    have hpercent : Char.ofNat percent.toNat = '%' := rfl
    simp only [readItem?, hpercent, hsupported]
  have hclass : readClass? (percent :: b :: rest) = some (.atom (escape b), rest) := rfl
  rw [hescape] at hclass
  rw [hread]
  exact readSingle?_once hclass hrest

theorem readItems_succ {source rest : Bytes} {item : PatternItem} {items : List PatternItem}
    {fuel : Nat} (h : readItem? source = some (item, rest)) :
    readItems (fuel + 1) items source = readItems fuel (item :: items) rest := by
  rw [readItems, h]

/-- A spelling is read to its end. -/
theorem Spelled.readItems {source : Bytes} {items : List PatternItem} (h : Spelled source items)
    (before : List PatternItem) (fuel : Nat) (hfuel : source.length ≤ fuel) :
    readItems fuel before source = (before.reverse ++ items, []) := by
  -- each item takes at least one byte, so the fuel suffices for the rest
  induction h generalizing before fuel with
  | nil =>
    rw [List.append_nil]
    cases fuel <;> rfl
  | plain h rest ih =>
    rw [List.length_cons] at hfuel
    obtain ⟨fuel, rfl⟩ := Nat.exists_eq_succ_of_ne_zero (Nat.ne_zero_of_lt hfuel)
    rw [readItems_succ (readItem?_plain h rest.readRepetition), ih _ fuel (by omega)]
    simp
  | escaped h rest ih =>
    rw [List.length_cons, List.length_cons] at hfuel
    obtain ⟨fuel, rfl⟩ := Nat.exists_eq_succ_of_ne_zero (Nat.ne_zero_of_lt hfuel)
    rw [readItems_succ (readItem?_escaped h rest.readRepetition), ih _ fuel (by omega)]
    simp
  | close rest ih =>
    rw [List.length_cons] at hfuel
    obtain ⟨fuel, rfl⟩ := Nat.exists_eq_succ_of_ne_zero (Nat.ne_zero_of_lt hfuel)
    rw [readItems_succ rfl, ih _ fuel (by omega)]
    simp

/-- A spelling is no anchored pattern. -/
theorem Spelled.read {source : Bytes} {items : List PatternItem} (h : Spelled source items) :
    read source = .ok ⟨false, items⟩ := by
  have hread := h.readItems [] source.length (le_refl _)
  -- a caret in front is looked for before any item is read
  have hanchor : readAnchor source = (false, source) := by
    cases h with
    | nil => rfl
    | @plain b source items h =>
      have hcaret : b ≠ Ascii.byte '^' := by
        rintro rfl
        exact h.1 (by decide)
      exact if_neg hcaret
    | escaped => rfl
    | close => rfl
  rw [Pattern.read, hanchor]
  dsimp only
  rw [hread]
  rfl

/-! ### Escaped texts and plain texts -/

/-- The text with a percent sign before each byte that is no letter and no digit. -/
def escaped (text : Bytes) : Bytes :=
  text.flatMap fun b => if Ascii.isAlphanumeric b then [b] else [percent, b]

/-- Letters and digits are left as they are. -/
theorem escaped_eq_self (h : text.all Ascii.isAlphanumeric = true) : escaped text = text := by
  induction text with
  | nil => rfl
  | cons b text ih =>
    rw [List.all_cons, Bool.and_eq_true] at h
    rw [escaped, List.flatMap_cons, if_pos h.1]
    exact congrArg (List.cons b) (ih h.2)

/-- The expression of a text. -/
def literalText (text : Bytes) : List Char := Regex.flags ++ text.flatMap byteText

theorem emitItems_literal (text : Bytes) (items : List PatternItem) (written : List Char) :
    emitItems (text.map literalItem ++ items) 0 written =
      emitItems items 0 ((text.flatMap byteText).reverseAux written) := by
  induction text generalizing written with
  | nil => rfl
  | cons b text ih =>
    have hitem : emitItems ((b :: text).map literalItem ++ items) 0 written =
        emitItems (text.map literalItem ++ items) 0 ((byteText b ++ []).reverseAux written) := rfl
    rw [hitem, ih, List.append_nil, List.flatMap_cons]
    simp only [List.reverseAux_eq, List.reverse_append, List.append_assoc]

theorem emit_literal (text : Bytes) : (literal text).emit = .ok (literalText text) := by
  have hemit := emitItems_literal text [] Regex.flags.reverse
  rw [List.append_nil, List.reverseAux_eq] at hemit
  refine hemit.trans (congrArg Except.ok ?_)
  rw [List.reverse_append, List.reverse_reverse, List.reverse_reverse]
  rfl

theorem isPlain_of_isAlphanumeric (h : Ascii.isAlphanumeric b = true) : IsPlain b := by
  refine ⟨fun hb => ?_, ?_⟩
  · -- no special byte is a letter or a digit
    have htable : ∀ c ∈ Library.Strings.specials, Ascii.isAlphanumeric c = false := by
      decide +kernel
    rw [htable b hb] at h
    cases h
  · rintro rfl
    revert h
    decide

theorem spelled_escaped (text : Bytes) : Spelled (escaped text) (text.map literalItem) := by
  induction text with
  | nil => exact .nil
  | cons b text ih =>
    rw [escaped, List.flatMap_cons, List.map_cons]
    cases hb : Ascii.isAlphanumeric b with
    | true => exact .plain (isPlain_of_isAlphanumeric hb) ih
    | false => exact .escaped hb ih

/-- An escaped text is read as the pattern of the text, and what is emitted for that is an
expression, which the engine may refuse. -/
theorem compile_escaped (engine : Engine) (text : Bytes) : engine.compile (escaped text) =
    match engine.refusal? (literalText text) with
    | some message => .error (.malformed message)
    | none => .ok ⟨literalText text⟩ := by
  have hread : Pattern.read (escaped text) = .ok (literal text) := (spelled_escaped text).read
  rw [Engine.compile_eq, hread, Except.bind, emit_literal]
  rfl

/-- A byte takes at most four characters. -/
theorem length_literalText_le (text : Bytes) : (literalText text).length ≤ 6 + 4 * text.length := by
  have hbytes : (text.flatMap byteText).length ≤ 4 * text.length := by
    induction text with
    | nil => exact Nat.le_refl _
    | cons b text ih =>
      have hbyte : (byteText b).length ≤ 4 := by
        rw [byteText]
        split
        · exact Nat.succ_le_succ (Nat.zero_le 3)
        · exact Nat.le_refl 4
      rw [List.flatMap_cons, List.length_append, List.length_cons]
      omega
  rw [literalText, List.length_append]
  exact Nat.add_le_add_left hbytes 6

/-- No engine that accepts short expressions refuses a short text. -/
theorem refusal?_literalText {engine : Engine} (hshort : engine.AcceptsShort)
    (h : text.length ≤ 61) : engine.refusal? (literalText text) = none := by
  have hlength := length_literalText_le text
  exact refusal?_eq_none hshort (emit_literal text) (by rw [Engine.shortLength]; omega)

/-- The item that a byte is read as if it is no special one. -/
def plainItem (b : UInt8) : PatternItem :=
  if b = Ascii.byte ')' then .closeCapture else literalItem b

theorem spelled_plain {source : Bytes} (h : Library.Strings.hasSpecials source = false) :
    Spelled source (source.map plainItem) := by
  induction source with
  | nil => exact .nil
  | cons b source ih =>
    rw [Library.Strings.hasSpecials, List.any_cons, Bool.or_eq_false_iff] at h
    obtain ⟨hb, hrest⟩ := h
    rw [List.map_cons, plainItem]
    split
    · rename_i hclose
      rw [hclose]
      exact .close (ih hrest)
    · rename_i hclose
      exact .plain ⟨by simpa using hb, hclose⟩ (ih hrest)

/-- No parenthesis is open that could be closed. -/
theorem map_plainItem_of_emitItems {source : Bytes} {written out : List Char}
    (h : emitItems (source.map plainItem) 0 written = .ok out) :
    source.map plainItem = source.map literalItem := by
  induction source generalizing written with
  | nil => rfl
  | cons b source ih =>
    rw [List.map_cons, plainItem] at h ⊢
    split at h
    · cases h
    · rename_i hclose
      rw [if_neg hclose, ih h]
      rfl

/-- A text without special bytes that gets through is read as its pattern. -/
theorem read_plain {source : Bytes} {p : Pattern} {out : List Char}
    (h : Library.Strings.hasSpecials source = false) (hread : read source = .ok p)
    (hemit : p.emit = .ok out) : p = literal source := by
  obtain rfl := Except.ok.inj ((spelled_plain h).read.symm.trans hread)
  rw [literal, map_plainItem_of_emitItems hemit]

end Pattern

end Lua
