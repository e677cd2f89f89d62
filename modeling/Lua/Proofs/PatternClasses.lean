/-
The bytes of pattern classes.

A class of a pattern stands for certain bytes, and it is written as a class of an expression.  That
class accepts the same bytes:

* `ByteClass.accepts`, `Atom.accepts`, `SetMember.accepts`, `SingleClass.accepts` — the bytes of a
  class;
* `ByteClass.exists_items` — a named class is written as a row of ranges that holds its bytes;
* `SetMember.members` — a member of a set as a row of members of a set in an expression;
* `SingleClass.exists_class` — every class of a pattern is written as a class with its bytes.

Design notes: a set without members that accept a byte cannot be written as a row of members, so it
is the complement of the range of all bytes.
-/
import Lua.Pattern.Basic
import Lua.Proofs.Backtracking

namespace Lua

open Regex

/-! ### The bytes of a class -/

namespace Ascii

/-- Printable and not a space. -/
def isGraphic (b : UInt8) : Bool := 0x21 ≤ b && b ≤ 0x7E

def isPunctuation (b : UInt8) : Bool := isGraphic b && !isLetter b && !isDigit b

def isHexDigit (b : UInt8) : Bool :=
  isDigit b || (0x41 ≤ b && b ≤ 0x46) || (0x61 ≤ b && b ≤ 0x66)

/-- Tab, the three line breaks, form feed and space. -/
def isSpace (b : UInt8) : Bool := (0x09 ≤ b && b ≤ 0x0D) || b == 0x20

end Ascii

/-- Whether a byte is in a named class. -/
def ByteClass.accepts : ByteClass → UInt8 → Bool
  | .letter, b => Ascii.isLetter b
  | .control, b => Ascii.isControl b
  | .digit, b => Ascii.isDigit b
  | .graphic, b => Ascii.isGraphic b
  | .lower, b => Ascii.isLower b
  | .punctuation, b => Ascii.isPunctuation b
  | .space, b => Ascii.isSpace b
  | .upper, b => Ascii.isUpper b
  | .alphanumeric, b => Ascii.isLetter b || Ascii.isDigit b
  | .hexadecimal, b => Ascii.isHexDigit b

def Atom.accepts : Atom → UInt8 → Bool
  | .byte a, b => b == a
  | .named c negated, b => c.accepts b != negated

def SetMember.accepts : SetMember → UInt8 → Bool
  | .atom a, b => a.accepts b
  | .range first last, b => first ≤ b && b ≤ last

def SingleClass.accepts : SingleClass → UInt8 → Bool
  | .any, _ => true
  | .atom a, b => a.accepts b
  | .set negated members, b => members.any (·.accepts b) != negated

/-! ### Bytes and named classes -/

/-- The literal that a byte is written as. -/
def literalOf (b : UInt8) : Literal :=
  if h : Ascii.isAlphanumeric b = true then .verbatim b h else .hexadecimal b

theorem text_literalOf (b : UInt8) : (literalOf b).text = byteText b := by
  rw [literalOf, byteText]
  split <;> rfl

@[simp] theorem byte_literalOf (b : UInt8) : (literalOf b).byte = b := by
  rw [literalOf]
  split <;> rfl

/-- A range of bytes that are written by their digits. -/
def hexRange (first last : UInt8) (h : first ≤ last) : ClassItem :=
  .range (.hexadecimal first) (.hexadecimal last) h

def digitRange : ClassItem := hexRange 0x30 0x39 (by decide)

def upperRange : ClassItem := hexRange 0x41 0x5A (by decide)

def lowerRange : ClassItem := hexRange 0x61 0x7A (by decide)

/-- The range of all bytes. -/
def byteRange : ClassItem := hexRange 0x00 0xFF (by decide)

/-- The ranges of a named class, of which there is at least one. -/
def ByteClass.ranges : ByteClass → ClassItem × List ClassItem
  | .letter => (upperRange, [lowerRange])
  | .control => (hexRange 0x00 0x1F (by decide), [.literal (.hexadecimal 0x7F)])
  | .digit => (digitRange, [])
  | .graphic => (hexRange 0x21 0x7E (by decide), [])
  | .lower => (lowerRange, [])
  | .punctuation =>
    (hexRange 0x21 0x2F (by decide), [hexRange 0x3A 0x40 (by decide),
      hexRange 0x5B 0x60 (by decide), hexRange 0x7B 0x7E (by decide)])
  | .space => (hexRange 0x09 0x0D (by decide), [.literal (.hexadecimal 0x20)])
  | .upper => (upperRange, [])
  | .alphanumeric => (digitRange, [upperRange, lowerRange])
  | .hexadecimal =>
    (digitRange, [hexRange 0x41 0x46 (by decide), hexRange 0x61 0x66 (by decide)])

/-- A named class is written as its ranges, and these hold its bytes. -/
theorem ByteClass.exists_items (c : ByteClass) : ∃ first rest,
    (first :: rest).flatMap ClassItem.text = c.text ∧
      ∀ b, (first :: rest).any (·.accepts b) = c.accepts b := by
  refine ⟨c.ranges.1, c.ranges.2, ?_, Ascii.forall_byte ?_⟩
  · cases c <;> decide +kernel
  · cases c <;> decide +kernel

/-! ### Sets -/

/-- The members of a set in an expression that a member is written as. -/
theorem SetMember.exists_members (m : SetMember) : ∃ ms : List ClassMember,
    ms.flatMap ClassMember.text = m.text ∧ ∀ b, ms.any (·.accepts b) = m.accepts b := by
  cases m with
  | atom a =>
    cases a with
    | byte a =>
      refine ⟨[.item (.literal (literalOf a))], ?_, fun b => ?_⟩
      · rw [List.flatMap_singleton]
        exact text_literalOf a
      · simp [ClassMember.accepts, ClassItem.accepts, SetMember.accepts, Atom.accepts]
    | named c negated =>
      obtain ⟨first, rest, htext, haccepts⟩ := c.exists_items
      cases negated with
      | false =>
        refine ⟨(first :: rest).map .item, ?_, fun b => ?_⟩
        · rw [List.flatMap_map]
          exact htext
        · rw [List.any_map]
          show (first :: rest).any (·.accepts b) = (c.accepts b != false)
          rw [haccepts, Bool.bne_false]
      | true =>
        refine ⟨[.complement first rest], ?_, fun b => ?_⟩
        · rw [List.flatMap_singleton, ClassMember.text, htext]
          rfl
        · rw [List.any_cons, List.any_nil, Bool.or_false, ClassMember.accepts, haccepts]
          exact (Bool.bne_true _).symm
  | range first last =>
    by_cases h : last < first
    · refine ⟨[], (if_pos h).symm, fun b => ?_⟩
      -- no byte stands between ends that are reversed
      rw [List.any_nil, SetMember.accepts, eq_comm, Bool.and_eq_false_iff, decide_eq_false_iff_not,
        decide_eq_false_iff_not, UInt8.le_iff_toNat_le, UInt8.le_iff_toNat_le]
      rw [UInt8.lt_iff_toNat_lt] at h
      omega
    · have hordered : (literalOf first).byte ≤ (literalOf last).byte := by
        rw [byte_literalOf, byte_literalOf]
        exact UInt8.not_lt.mp h
      refine ⟨[.item (.range (literalOf first) (literalOf last) hordered)], ?_, fun b => ?_⟩
      · rw [List.flatMap_singleton, SetMember.text, if_neg h]
        show (literalOf first).text ++ '-' :: (literalOf last).text = _
        rw [text_literalOf, text_literalOf]
      · simp [ClassMember.accepts, ClassItem.accepts, SetMember.accepts]

theorem exists_members (members : List SetMember) : ∃ ms : List ClassMember,
    ms.flatMap ClassMember.text = members.flatMap SetMember.text ∧
      ∀ b, ms.any (·.accepts b) = members.any (·.accepts b) := by
  induction members with
  | nil => exact ⟨[], rfl, fun _ => rfl⟩
  | cons m members ih =>
    obtain ⟨ms, htext, haccepts⟩ := m.exists_members
    obtain ⟨ms', htext', haccepts'⟩ := ih
    refine ⟨ms ++ ms', ?_, fun b => ?_⟩
    · rw [List.flatMap_append, htext, htext', List.flatMap_cons]
    · rw [List.any_append, haccepts, haccepts', List.any_cons]

/-! ### Classes -/

/-- The range of all bytes holds every byte. -/
theorem accepts_all : ∀ b, byteRange.accepts b = true :=
  Ascii.forall_byte (by decide +kernel)

/-- **Every class of a pattern** is written as a class of an expression, and the two accept the
same bytes. -/
theorem SingleClass.exists_class (c : SingleClass) : ∃ k : Regex.Class,
    k.text = c.text ∧ k.accepts = c.accepts := by
  cases c with
  | any => exact ⟨.any, rfl, rfl⟩
  | atom a =>
    cases a with
    | byte a =>
      refine ⟨.literal (literalOf a), text_literalOf a, funext fun b => ?_⟩
      rw [Regex.Class.accepts, byte_literalOf]
      rfl
    | named c negated =>
      obtain ⟨first, rest, htext, haccepts⟩ := c.exists_items
      refine ⟨.set negated (.item first) (rest.map .item), ?_, funext fun b => ?_⟩
      · have hmembers :
            ((.item first :: rest.map .item : List ClassMember)).flatMap ClassMember.text
              = c.text := by
          rw [← List.map_cons, List.flatMap_map]
          exact htext
        rw [Regex.Class.text, hmembers]
        rfl
      · rw [Regex.Class.accepts, ← List.map_cons, List.any_map]
        show ((first :: rest).any (·.accepts b) != negated) = _
        rw [haccepts]
        rfl
  | set negated members =>
    obtain ⟨ms, htext, haccepts⟩ := exists_members members
    cases ms with
    | nil =>
      -- no byte is accepted by a member
      have hcontents : members.flatMap SetMember.text = [] := htext.symm
      refine ⟨.set (!negated) (.item byteRange) [], ?_, funext fun b => ?_⟩
      · simp only [SingleClass.text, hcontents]
        cases negated <;> decide +kernel
      · rw [SingleClass.accepts, ← haccepts]
        show ((byteRange.accepts b || false) != !negated) = (false != negated)
        rw [accepts_all]
        cases negated <;> rfl
    | cons first rest =>
      have hpos : (members.flatMap SetMember.text).isEmpty = false := by
        rw [← htext, List.flatMap_cons]
        have := first.length_text_pos
        rw [List.isEmpty_eq_false_iff, ← List.length_pos_iff, List.length_append]
        omega
      refine ⟨.set negated first rest, ?_, funext fun b => ?_⟩
      · simp only [SingleClass.text, hpos, Regex.Class.text, htext]
        rfl
      · rw [Regex.Class.accepts, haccepts]
        rfl

end Lua
