/-
Substrings by position.

Positions of a string count from 1, negative ones from its end, and a range is cut off at both ends
of the string.  The start and the end of a range are found in different ways, by cases; all of them
come to the same rule:

* `BytesBetween` — the bytes between two positions;
* `startPosition_eq`, `endPosition_eq` — where a range starts and where it ends;
* `checkedSubstring?_eq` — in 64-bit words no step of the arithmetic overflows, and the range that
  is cut out lies within the string;
* `substring_append` — a string is cut in two behind any position;
* `substring_positions` — what `sub`, `byte` and `char` make of a string.

Design notes: the words are kept apart from the functions, which count in whole numbers.  The length
of a string is less than 2^63, since no more bytes can be held in memory.
-/
import Lua.Proofs.Execution
import Mathlib.Algebra.GroupWithZero.Nat

namespace Lua.Library.Strings

variable {H : Host} {B : Behaviour H} {w : World H} {s r r' : Bytes} {first last : Int}

/-! ### Ranges -/

/-- The position that an index stands for: a negative one counts from the end. -/
def absolute (index : Int) (length : Nat) : Int :=
  if index < 0 then length + index + 1 else index

/-- The bytes of `s` at the positions from `first` to `last`. -/
def BytesBetween (s : Bytes) (first last : Int) (r : Bytes) : Prop :=
  ∀ n : Nat, r[n]? = if first + n ≤ last then s[(first + n - 1).toNat]? else none

theorem BytesBetween.unique (h : BytesBetween s first last r) (h' : BytesBetween s first last r') :
    r = r' :=
  List.ext_getElem? fun n => (h n).trans (h' n).symm

theorem startPosition_eq (i : Int) (length : Nat) :
    (startPosition i length : Int) = max 1 (absolute i length) := by
  unfold startPosition absolute
  split_ifs <;> omega

/-- An end in front of the first position counts as no position. -/
theorem endPosition_eq (j : Int) (length : Nat) :
    (endPosition j length : Int) = max 0 (min (length : Int) (absolute j length)) := by
  unfold endPosition absolute
  split_ifs <;> omega

theorem endPosition_le (j : Int) (length : Nat) : endPosition j length ≤ length := by
  have h := endPosition_eq j length
  omega

/-- **The bytes in a range** are those at its positions, as far as the string goes. -/
theorem bytesBetween_substring (s : Bytes) (i j : Int) :
    BytesBetween s (max 1 (absolute i s.length)) (min s.length (absolute j s.length))
      (substring s i j) := by
  intro n
  have hstart := startPosition_eq i s.length
  have hstop := endPosition_eq j s.length
  rw [substring, Bytes.slice, List.getElem?_take, List.getElem?_drop]
  by_cases hn : n < endPosition j s.length - (startPosition i s.length - 1)
  · rw [if_pos hn, if_pos (by omega)]
    congr 1
    omega
  · rw [if_neg hn, if_neg (by omega)]

/-- Two ranges that meet behind the position `k` make up the string. -/
theorem substring_append (s : Bytes) {k : Int} (hk : 0 ≤ k) (hlength : k ≤ s.length) :
    substring s 1 k ++ substring s (k + 1) (-1) = s := by
  have hfront : startPosition 1 s.length - 1 = 0 ∧ endPosition k s.length = k.toNat := by
    have hstart := startPosition_eq 1 s.length
    have hstop := endPosition_eq k s.length
    unfold absolute at hstart hstop
    split_ifs at hstart hstop <;> omega
  have hback : startPosition (k + 1) s.length - 1 = k.toNat ∧
      endPosition (-1) s.length = s.length := by
    have hstart := startPosition_eq (k + 1) s.length
    have hstop := endPosition_eq (-1) s.length
    unfold absolute at hstart hstop
    split_ifs at hstart hstop <;> omega
  rw [substring, substring, hfront.1, hfront.2, hback.1, hback.2, Bytes.slice, Bytes.slice,
    List.drop_zero, Nat.sub_zero, ← List.length_drop, List.take_length, List.take_append_drop]

theorem substring_whole (s : Bytes) : substring s 1 (-1) = s := by
  have h := substring_append s (k := 0) (by decide) (Int.natCast_nonneg s.length)
  have hempty : substring s 1 0 = [] := by
    refine List.ext_getElem? fun n => ?_
    rw [bytesBetween_substring s 1 0 n]
    unfold absolute
    rw [if_neg (by omega)]
    rfl
  rw [hempty, List.nil_append] at h
  exact h

/-! ### Ranges in machine words -/

/-- The sum of two words, if it is one. -/
def addWords? (a b : UInt64) : Option UInt64 :=
  if a.toNat + b.toNat < UInt64.size then some (a + b) else none

/-- The difference of two words, if it is one. -/
def subWords? (a b : UInt64) : Option UInt64 := if b ≤ a then some (a - b) else none

/-- The distance of an index from zero, which is a word for every index. -/
def distance (index : Int64) : UInt64 := UInt64.ofNat index.toInt.natAbs

/-- The start of a range in words. -/
def startWord? (i : Int64) (length : UInt64) : Option UInt64 :=
  if 0 < i then some i.toUInt64
  else if i = 0 ∨ length < distance i then some 1
  else do addWords? (← subWords? length (distance i)) 1

/-- The end of a range in words. -/
def endWord? (j : Int64) (length : UInt64) : Option UInt64 :=
  if length.toInt64 < j then some length
  else if 0 ≤ j then some j.toUInt64
  else if length < distance j then some 0
  else do addWords? (← subWords? length (distance j)) 1

/-- The bytes from the offset `first` up to the offset `last`, which have to be in order and within
the string. -/
def range? (s : Bytes) (first last : UInt64) : Option Bytes :=
  if first ≤ last ∧ last.toNat ≤ s.length then some (s.slice first.toNat last.toNat) else none

/-- The bytes in a range, found in words with every step checked. -/
def checkedSubstring? (s : Bytes) (i j : Int64) : Option Bytes := do
  let length := UInt64.ofNat s.length
  let start ← startWord? i length
  let stop ← endWord? j length
  if stop < start then pure [] else range? s (← subWords? start 1) stop

theorem toNat_distance (index : Int64) : (distance index).toNat = index.toInt.natAbs := by
  have hlow := index.le_toInt
  have hhigh := index.toInt_lt
  rw [distance, UInt64.toNat_ofNat_of_lt']
  rw [UInt64.size]
  omega

theorem toNat_toUInt64_of_nonneg {index : Int64} (h : 0 ≤ index) :
    index.toUInt64.toNat = index.toInt.toNat :=
  (Int64.toNat_toUInt64_of_le h).trans (Int64.toNat_toInt index).symm

section Words

variable {index : Int64} {length : Nat}

theorem lt_distance_iff (hlength : length < 2 ^ 63) :
    UInt64.ofNat length < distance index ↔ length < index.toInt.natAbs := by
  rw [UInt64.lt_iff_toNat_lt, toNat_distance, UInt64.toNat_ofNat_of_lt']
  rw [UInt64.size]
  omega

/-- Counting a position from the end neither underflows nor overflows. -/
theorem countBack_eq (hlength : length < 2 ^ 63) (hneg : index.toInt < 0)
    (h : ¬ length < index.toInt.natAbs) : ∃ position : UInt64,
      (do addWords? (← subWords? (.ofNat length) (distance index)) 1) = some position ∧
        position.toNat = length - index.toInt.natAbs + 1 := by
  have hword : (UInt64.ofNat length).toNat = length :=
    UInt64.toNat_ofNat_of_lt' (by rw [UInt64.size]; omega)
  have hle : distance index ≤ UInt64.ofNat length := by
    rw [UInt64.le_iff_toNat_le, toNat_distance, hword]
    exact Nat.le_of_not_lt h
  have hdifference : (UInt64.ofNat length - distance index).toNat
      = length - index.toInt.natAbs := by
    rw [UInt64.toNat_sub_of_le _ _ hle, toNat_distance, hword]
  have hroom : (UInt64.ofNat length - distance index).toNat + (1 : UInt64).toNat
      < UInt64.size := by
    rw [hdifference, UInt64.toNat_one, UInt64.size]
    omega
  refine ⟨UInt64.ofNat length - distance index + 1, ?_, ?_⟩
  · rw [subWords?, if_pos hle]
    exact if_pos hroom
  · rw [UInt64.toNat_add, Nat.mod_eq_of_lt hroom, hdifference, UInt64.toNat_one]

theorem startWord?_eq (i : Int64) (hlength : length < 2 ^ 63) : ∃ start,
    startWord? i (.ofNat length) = some start ∧ start.toNat = startPosition i.toInt length := by
  have hzero : i = 0 ↔ i.toInt = 0 := by rw [← Int64.toInt_inj, Int64.toInt_zero]
  have hpos : 0 < i ↔ 0 < i.toInt := by rw [Int64.lt_iff_toInt_lt, Int64.toInt_zero]
  simp only [startWord?, startPosition, hzero, hpos, lt_distance_iff hlength]
  split_ifs with hi hfirst
  · exact ⟨_, rfl, toNat_toUInt64_of_nonneg (Int64.le_of_lt (hpos.mpr hi))⟩
  · exact ⟨_, rfl, rfl⟩
  · rw [not_or] at hfirst
    exact countBack_eq hlength (by omega) hfirst.2

theorem endWord?_eq (j : Int64) (hlength : length < 2 ^ 63) : ∃ stop,
    endWord? j (.ofNat length) = some stop ∧ stop.toNat = endPosition j.toInt length := by
  have hlong : (UInt64.ofNat length).toInt64 < j ↔ (length : Int) < j.toInt := by
    rw [Int64.lt_iff_toInt_lt, UInt64.toInt64_ofNat', Int64.toInt_ofNat_of_lt hlength]
  have hnonneg : 0 ≤ j ↔ 0 ≤ j.toInt := by rw [Int64.le_iff_toInt_le, Int64.toInt_zero]
  simp only [endWord?, endPosition, hlong, hnonneg, lt_distance_iff hlength]
  split_ifs with hj hj' hfirst
  · exact ⟨_, rfl, UInt64.toNat_ofNat_of_lt' (by rw [UInt64.size]; omega)⟩
  · exact ⟨_, rfl, toNat_toUInt64_of_nonneg (hnonneg.mpr hj')⟩
  · exact ⟨_, rfl, rfl⟩
  · exact countBack_eq hlength (by omega) hfirst

end Words

/-- **No step overflows**, and the range that is cut out lies within the string. -/
theorem checkedSubstring?_eq (hlength : s.length < 2 ^ 63) (i j : Int64) :
    checkedSubstring? s i j = some (substring s i.toInt j.toInt) := by
  obtain ⟨start, hstart, hstart'⟩ := startWord?_eq i hlength
  obtain ⟨stop, hstop, hstop'⟩ := endWord?_eq j hlength
  have hone : 1 ≤ start.toNat := by
    have h := startPosition_eq i.toInt s.length
    omega
  have hend := endPosition_le j.toInt s.length
  simp only [checkedSubstring?, hstart, hstop, Option.bind_eq_bind, Option.bind_some, substring]
  rw [← hstart', ← hstop']
  by_cases hempty : stop < start
  · rw [if_pos hempty]
    have hlt := UInt64.lt_iff_toNat_lt.mp hempty
    rw [Bytes.slice, show stop.toNat - (start.toNat - 1) = 0 by omega]
    rfl
  · rw [if_neg hempty]
    have hle : 1 ≤ start := UInt64.le_iff_toNat_le.mpr hone
    have hfirst : (start - 1).toNat = start.toNat - 1 := UInt64.toNat_sub_of_le _ _ hle
    have hin : start - 1 ≤ stop ∧ stop.toNat ≤ s.length := by
      rw [UInt64.le_iff_toNat_le, hfirst]
      rw [UInt64.lt_iff_toNat_lt] at hempty
      omega
    rw [subWords?, if_pos hle, Option.bind_some, range?, if_pos hin, hfirst]

/-! ### The functions -/

/-- The value of a byte. -/
def byteValue (b : UInt8) : Value := .nat b.toNat

theorem sub_eq (s : Bytes) (i j : Int64) : (sub [.string s, .int i, .int j] : Program H _) =
    .done [.string (substring s i.toInt j.toInt)] := rfl

theorem byte_eq (s : Bytes) (i j : Int64) : (byte [.string s, .int i, .int j] : Program H _) =
    .done ((substring s i.toInt j.toInt).map byteValue) := rfl

/-- A byte is made from its value. -/
theorem byteArgument_eq {n : Nat} (h : n < s.length) :
    byteArgument (s.map byteValue) n = .ok (s.getD n 0) := by
  have hcode : argument Int64 (s.map byteValue) n = .ok (Int64.ofNat s[n].toNat) := by
    rw [argument, List.getD, List.getElem?_map, List.getElem?_eq_getElem h]
    rfl
  have hbyte := s[n].toNat_lt
  rw [byteArgument, hcode, List.getD, List.getElem?_eq_getElem h]
  show (if _ then _ else _) = _
  rw [Int64.toInt_ofNat_of_lt (by omega), if_pos (by omega), Int.toNat_natCast]
  exact congrArg Except.ok UInt8.ofNat_toNat

theorem bytesOf_eq (s : Bytes) : bytesOf (s.map byteValue) = .ok s := by
  have hbytes : (List.range s.length).mapM (byteArgument (s.map byteValue))
      = .ok ((List.range s.length).map fun n => s.getD n 0) :=
    mapM_eq_ok fun n hn => byteArgument_eq (List.mem_range.mp hn)
  rw [bytesOf, List.length_map, hbytes]
  refine congrArg Except.ok (List.ext_getElem (by simp) fun n hn hn' => ?_)
  simp [hn']

theorem char_eq (s : Bytes) : (char (s.map byteValue) : Program H _) = .done [.string s] := by
  rw [char, bytesOf_eq]
  rfl

/-- **Substrings by position.**  A range of a string is cut off at both ends of it, and an index
that is negative counts from the end.  `sub` gives the bytes of the range as a string and `byte`
gives their values; in machine words the range is found without overflow, and lies in the string.
So `char` makes the string again from the values of all its bytes, and the two parts of the string
in front of and behind any position make it up. -/
theorem substring_positions (host : HostCode H) (w : World H) (s : Bytes) (i j : Int64) :
    let B := Behaviour.standard host
    let call := fun f args => B.builtin (.string f) args
    ∃ r, BytesBetween s (max 1 (absolute i.toInt s.length))
        (min (s.length : Int) (absolute j.toInt s.length)) r ∧
      (call .sub [.string s, .int i, .int j]).Runs B w (.ok [.string r]) w ∧
      (call .byte [.string s, .int i, .int j]).Runs B w (.ok (r.map byteValue)) w ∧
      (s.length < 2 ^ 63 → checkedSubstring? s i j = some r) ∧
      (∃ codes, (call .byte [.string s, .int 1, .int (-1)]).Runs B w (.ok codes) w ∧
        (call .char codes).Runs B w (.ok [.string s]) w) ∧
      ∀ k next : Int64, 0 ≤ k.toInt → k.toInt ≤ s.length → next.toInt = k.toInt + 1 →
        ∃ front back, (call .sub [.string s, .int 1, .int k]).Runs B w (.ok [.string front]) w ∧
          (call .sub [.string s, .int next, .int (-1)]).Runs B w (.ok [.string back]) w ∧
          front ++ back = s := by
  intro B call
  refine ⟨_, bytesBetween_substring s i.toInt j.toInt, Program.runs_of_eq_done (sub_eq s i j),
    Program.runs_of_eq_done (byte_eq s i j), fun hlength => checkedSubstring?_eq hlength i j,
    ⟨_, Program.runs_of_eq_done (byte_eq s 1 (-1)), ?_⟩, fun k next hk hlength hnext => ?_⟩
  · have hwhole : substring s (Int64.toInt 1) (Int64.toInt (-1)) = s := substring_whole s
    rw [hwhole]
    exact Program.runs_of_eq_done (char_eq s)
  · refine ⟨_, _, Program.runs_of_eq_done (sub_eq s 1 k),
      Program.runs_of_eq_done (sub_eq s next (-1)), ?_⟩
    rw [hnext]
    exact substring_append s hk hlength

/-- From the least index of all up to the last position but one, and a cut behind that. -/
theorem substring_positions_leastIndex :
    let call := fun f args => Behaviour.bare.builtin (.string f) args
    let hello := Bytes.ofString "hello"
    (call .sub [.string hello, .int Int64.minValue, .int (-2)]).Runs .bare .bare
      (.ok [Value.ofText "hell"]) .bare ∧
    (call .byte [.string hello, .int Int64.minValue, .int (-2)]).Runs .bare .bare
      (.ok [.int 104, .int 101, .int 108, .int 108]) .bare ∧
    checkedSubstring? hello Int64.minValue (-2) = some (Bytes.ofString "hell") ∧
    ∃ back, (call .sub [.string hello, .int 1, .int 4]).Runs .bare .bare
        (.ok [Value.ofText "hell"]) .bare ∧
      (call .sub [.string hello, .int 5, .int (-1)]).Runs .bare .bare (.ok [.string back]) .bare ∧
      Bytes.ofString "hell" ++ back = hello := by
  intro call hello
  have hsub : ∀ i j : Int64, (call .sub [.string hello, .int i, .int j]).Runs .bare .bare
      (.ok [.string (substring hello i.toInt j.toInt)]) .bare :=
    fun i j => Program.runs_of_eq_done rfl
  obtain ⟨r, -, hr, hcodes, hchecked, -, hcut⟩ :=
    substring_positions .bare .bare hello Int64.minValue (-2)
  obtain ⟨front, back, hfront, hback, happend⟩ :=
    hcut 4 5 (by decide) (by decide +kernel) (by decide)
  cases (hr.unique (hsub Int64.minValue (-2))).1
  cases (hfront.unique (hsub 1 4)).1
  exact ⟨hr, hcodes, hchecked (by decide +kernel), back, hfront, hback, happend⟩

end Lua.Library.Strings
