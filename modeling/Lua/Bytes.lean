/-
Byte strings.

A string of the language is any sequence of bytes; no encoding is imposed on it.
This module fixes that type and the ASCII classes of bytes that numerals, patterns
and formats are made of.  Bytes above 127 belong to no class.

* `Bytes.ofString` — the bytes of a text;
* `Bytes.less` — the order of strings, byte by byte;
* `Bytes.find?` — the first occurrence of one string in another.
-/

namespace Lua

/-- A string of the language. -/
abbrev Bytes := List UInt8

namespace Ascii

/-- A property of bytes that all 256 of them have, by their two hexadecimal digits. -/
theorem forall_byte {P : UInt8 → Prop}
    (h : ∀ high low : Fin 16, P (UInt8.ofNat (16 * high + low))) (b : UInt8) : P b := by
  have hlt := b.toNat_lt
  have hb := h ⟨b.toNat / 16, by omega⟩ ⟨b.toNat % 16, by omega⟩
  rwa [Nat.div_add_mod, UInt8.ofNat_toNat] at hb

/-- The byte of an ASCII character. -/
def byte (c : Char) : UInt8 := UInt8.ofNat c.toNat

def isUpper (b : UInt8) : Bool := 0x41 ≤ b && b ≤ 0x5A

def isLower (b : UInt8) : Bool := 0x61 ≤ b && b ≤ 0x7A

def isLetter (b : UInt8) : Bool := isUpper b || isLower b

def isDigit (b : UInt8) : Bool := 0x30 ≤ b && b ≤ 0x39

def isControl (b : UInt8) : Bool := b < 0x20 || b == 0x7F

def isAlphanumeric (b : UInt8) : Bool := isLetter b || isDigit b

def toLower (b : UInt8) : UInt8 := if isUpper b then b + 0x20 else b

def toUpper (b : UInt8) : UInt8 := if isLower b then b - 0x20 else b

/-- The value of a digit of a base up to 36, letters of either case counting from ten. -/
def digitValue (b : UInt8) : Option Nat :=
  if isDigit b then some (b.toNat - 0x30)
  else if isLower b then some (b.toNat - 0x61 + 10)
  else if isUpper b then some (b.toNat - 0x41 + 10)
  else none

end Ascii

namespace Bytes

/-- The bytes of a text. -/
def ofString (s : String) : Bytes := s.toUTF8.data.toList

/-- The order of strings: the first byte that differs decides, and a proper start comes first. -/
def less : Bytes → Bytes → Bool
  | _, [] => false
  | [], _ :: _ => true
  | a :: as, b :: bs => a < b || (a == b && less as bs)

/-- The offset of the first occurrence of `needle`; the empty string occurs at once. -/
def find? (needle : Bytes) : Bytes → Option Nat
  | [] => if needle.isEmpty then some 0 else none
  | b :: rest =>
    if needle.isPrefixOf (b :: rest) then some 0 else (find? needle rest).map (· + 1)

/-- The bytes at offsets `first` up to, and not including, `last`. -/
def slice (s : Bytes) (first last : Nat) : Bytes := (s.drop first).take (last - first)

end Bytes

end Lua
