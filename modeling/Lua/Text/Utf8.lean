/-
UTF-8, in its original form of up to six bytes per code.

* `Utf8.encode` writes any code below 2³¹;
* `Utf8.decode` reads one code from the front of a string.  A form that is cut short, and one
  whose code has a shorter form, is refused.  Strict decoding refuses surrogates and codes above
  U+10FFFF as well;
* `Utf8.isText` — whether a whole string decodes strictly;
* `Utf8.toText` — the text of a string, each malformed stretch shown as U+FFFD.

A malformed stretch is the longest start of a well-formed sequence, or one byte where
there is none, so that the characters after it are not lost.
-/
import Lua.Bytes

namespace Lua.Utf8

/-- The greatest code that has an encoded form. -/
def maxCode : Nat := 0x7FFFFFFF

/-- The greatest code of a character. -/
def maxCharacter : Nat := 0x10FFFF

def isSurrogate (code : Nat) : Bool := 0xD800 ≤ code && code ≤ 0xDFFF

def isContinuation (b : UInt8) : Bool := b &&& 0xC0 == 0x80

/-! ### Encoding -/

/-- Writes a code in front of the continuation bytes there are: each takes six bits, the lowest
first, until the bits that are left fit into the first byte, where every continuation byte halves
the room, which is that of the numbers up to `maxFirst`. -/
def encodeBefore (code maxFirst : UInt32) (tail : Bytes) : Bytes :=
  let tail := (0x80 ||| (code &&& 0x3F).toUInt8) :: tail
  let left := code >>> 6
  let room := maxFirst >>> 1
  if left ≤ room then (~~~room <<< 1 ||| left).toUInt8 :: tail
  else encodeBefore left room tail
termination_by code.toNat
decreasing_by
  rename_i hroom
  have hleft : (code >>> 6).toNat = code.toNat / 64 := Nat.shiftRight_eq_div_pow _ _
  have hroom : ¬ (code >>> 6).toNat ≤ room.toNat := mt UInt32.le_iff_toNat_le.mpr hroom
  omega

/-- The encoded form of a code up to `maxCode`. -/
def encode (code : Nat) : Bytes :=
  let code := UInt32.ofNat code
  if code < 0x80 then [code.toUInt8] else encodeBefore code 0x3F []

/-! ### Decoding -/

/-- The least code that a form with so many continuation bytes may have.  A first byte that
announces none is no first byte, and no code reaches the number for it. -/
def leastCodes : List Nat := [0xFFFFFFFF, 0x80, 0x800, 0x10000, 0x200000, 0x4000000]

/-- Reads continuation bytes as long as the first byte, which is shifted by a bit for each,
announces another: how many there are, the shifted first byte, and the code in their bits. -/
def readForm (count : Nat) (lead code : UInt32) : Bytes → Option (Nat × UInt32 × UInt32)
  | [] => if lead &&& 0x40 = 0 then some (count, lead, code) else none
  | b :: rest =>
    if lead &&& 0x40 = 0 then some (count, lead, code)
    else if 5 < count + 1 ∨ isContinuation b = false then none
    else readForm (count + 1) (lead <<< 1) (code <<< 6 ||| (b.toUInt32 &&& 0x3F)) rest

/-- Reads the bytes of a code: how many continuation bytes it has, and the code. -/
def readCode (b : UInt8) (rest : Bytes) : Option (Nat × Nat) :=
  if b < 0x80 then some (0, b.toNat)
  else do
    let (count, lead, code) ← readForm 0 b.toUInt32 0 rest
    let code := (code ||| (lead &&& 0x7F) <<< UInt32.ofNat (count * 5)).toNat
    if maxCode < code ∨ code < leastCodes.getD count 0 then none else some (count, code)

/-- Whether a code may be read: any code if not strict, else one of a character. -/
def admits (strict : Bool) (code : Nat) : Bool :=
  !strict || (code ≤ maxCharacter && !isSurrogate code)

/-- Reads one code from the front of a string: the code and the length of its form. -/
def decode (strict : Bool) : Bytes → Option (Nat × Nat)
  | [] => none
  | b :: rest => do
    let (count, code) ← readCode b rest
    if admits strict code then some (code, count + 1) else none

/-- A code that is read has a form, and a string to stand in. -/
theorem decode_pos {strict : Bool} {s : Bytes} {code n : Nat}
    (h : decode strict s = some (code, n)) : 0 < n ∧ 0 < s.length := by
  cases s with
  | nil => cases h
  | cons b rest =>
    simp only [decode, Option.bind_eq_bind, Option.bind_eq_some_iff] at h
    obtain ⟨⟨count, c⟩, -, h⟩ := h
    split at h
    · obtain ⟨-, rfl⟩ := Prod.mk.inj (Option.some.inj h)
      exact ⟨Nat.succ_pos count, Nat.succ_pos rest.length⟩
    · cases h

/-! ### Whole strings -/

/-- The length of the malformed stretch at the front of a string that does not decode: the
longest proper start of a well-formed sequence, and at least one byte. -/
def malformedLength : Bytes → Nat
  | [] => 0
  | [_] => 1
  | lead :: second :: rest =>
    let secondFits :=
      (lead == 0xE0 && 0xA0 ≤ second && second ≤ 0xBF) ||
      (0xE1 ≤ lead && lead ≤ 0xEC && 0x80 ≤ second && second ≤ 0xBF) ||
      (lead == 0xED && 0x80 ≤ second && second ≤ 0x9F) ||
      (0xEE ≤ lead && lead ≤ 0xEF && 0x80 ≤ second && second ≤ 0xBF) ||
      (lead == 0xF0 && 0x90 ≤ second && second ≤ 0xBF) ||
      (0xF1 ≤ lead && lead ≤ 0xF3 && 0x80 ≤ second && second ≤ 0xBF) ||
      (lead == 0xF4 && 0x80 ≤ second && second ≤ 0x8F)
    if !secondFits then 1
    else match rest with
      | third :: _ => if 0xF0 ≤ lead && isContinuation third then 3 else 2
      | [] => 2

private theorem malformedLength_pos {b : UInt8} {rest : Bytes} :
    0 < malformedLength (b :: rest) := by
  cases rest with
  | nil => simp [malformedLength]
  | cons second rest =>
    simp only [malformedLength]
    split
    · exact Nat.one_pos
    · split
      · split <;> decide
      · decide

/-- Whether the whole string is well-formed text. -/
def isText (s : Bytes) : Bool :=
  match _h : decode true s with
  | some (_, n) => isText (s.drop n)
  | none => s.isEmpty
termination_by s.length
decreasing_by
  have := decode_pos _h
  simp only [List.length_drop]
  omega

/-- The characters of a string, each malformed stretch as U+FFFD. -/
def characters (s : Bytes) : List Char :=
  match _h : decode true s with
  | some (code, n) => Char.ofNat code :: characters (s.drop n)
  | none =>
    match s with
    | [] => []
    | b :: rest => '\uFFFD' :: characters ((b :: rest).drop (malformedLength (b :: rest)))
termination_by s.length
decreasing_by
  · have := decode_pos _h
    simp only [List.length_drop]
    omega
  · have := @malformedLength_pos b rest
    simp only [List.length_drop, List.length_cons]
    omega

/-- The text of a string, each malformed stretch as U+FFFD. -/
def toText (s : Bytes) : String := String.ofList (characters s)

end Lua.Utf8
