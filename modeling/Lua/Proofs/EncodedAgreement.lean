/-
What the functions find in encoded texts.

The functions that read a string by codes go different ways: by the lengths of the forms, or past
continuation bytes, forth or back.  On a text they find the same forms at the same places:

* `place` — where the form of a code begins;
* `startOffsets_text` — the places at which characters start are those of the forms;
* `positioned_eq_mapIdx` — the positions of the rounds of a loop are these places too;
* `offset_text_forth`, `offset_text_back` — counting from either end goes from form to form;
* `functions_agree` — all functions together.
-/
import Lua.Proofs.CharacterStarts
import Lua.Proofs.CodeLoops

namespace Lua.Library.Utf8s

open Utf8

variable {H : Host} {code k : Nat} {codes : List Nat} {v : Bytes}

/-! ### Places of forms -/

/-- The length of the forms before the code with the index `k`. -/
def lengthBefore (codes : List Nat) (k : Nat) : Nat := (text (codes.take k)).length

/-- The position at which the form of the code with the index `k` begins. -/
def place (codes : List Nat) (k : Nat) : Nat := 1 + lengthBefore codes k

theorem lengthBefore_length (codes : List Nat) :
    lengthBefore codes codes.length = (text codes).length := by
  rw [lengthBefore, List.take_length]

theorem lengthBefore_cons_succ (code : Nat) (codes : List Nat) (k : Nat) :
    lengthBefore (code :: codes) (k + 1) = (encode code).length + lengthBefore codes k := by
  rw [lengthBefore, List.take_succ_cons, text_cons, List.length_append]
  rfl

/-- Behind a form the places are those of what follows it. -/
theorem startOffsets_encode (hc : code ≤ maxCode) (hv : isContinuationAt v 0 = false) :
    startOffsets (encode code ++ v) =
      0 :: (startOffsets v).map ((encode code).length + ·) := by
  have hpos := length_encode_pos code
  have hin : 0 < (encode code ++ v).length := by
    rw [List.length_append]
    omega
  have hnext := isLeast_forth hin
  rw [Nat.zero_add, continuationRun_encode hv hc] at hnext
  have hmap : ∀ y ∈ (startOffsets v).map ((encode code).length + ·), 0 < y := by
    intro y hy
    obtain ⟨x, -, rfl⟩ := List.mem_map.mp hy
    omega
  have hrow : (0 :: (startOffsets v).map ((encode code).length + ·)).SortedLT :=
    (List.pairwise_cons.mpr ⟨hmap, List.pairwise_map.mpr <|
      (sortedLT_startOffsets v).pairwise.imp fun h => Nat.add_lt_add_left h _⟩).sortedLT
  -- both rows are in ascending order, so it is enough that they have the same entries
  refine (sortedLT_startOffsets _).eq_of_mem_iff hrow fun x => ?_
  rw [List.mem_cons, List.mem_map]
  constructor
  · intro hx
    rcases Nat.eq_zero_or_pos x with rfl | hx0
    · exact .inl rfl
    · -- behind the first byte, no character starts before the form ends
      obtain ⟨y, rfl⟩ := Nat.exists_eq_add_of_le (hnext.2 ⟨hx, hx0⟩)
      rw [mem_startOffsets_iff, isContinuationAt_append, List.length_append,
        Nat.add_le_add_iff_left] at hx
      exact .inr ⟨y, mem_startOffsets_iff.mpr hx, rfl⟩
  · rintro (rfl | ⟨y, hy, rfl⟩)
    · exact mem_startOffsets_iff.mpr ⟨Nat.zero_le _, isContinuationAt_encode hc v⟩
    · rw [mem_startOffsets_iff] at hy ⊢
      rw [isContinuationAt_append, List.length_append, Nat.add_le_add_iff_left]
      exact hy

/-- In a text, characters start where the forms begin. -/
theorem startOffsets_text (hcodes : ∀ code ∈ codes, code ≤ maxCode) :
    startOffsets (text codes) = (List.range (codes.length + 1)).map (lengthBefore codes) := by
  induction codes with
  | nil => rfl
  | cons code codes ih =>
    obtain ⟨hcode, hcodes⟩ := List.forall_mem_cons.mp hcodes
    have hrange : List.range ((code :: codes).length + 1) =
        0 :: (List.range (codes.length + 1)).map Nat.succ := List.range_succ_eq_map
    rw [text_cons, startOffsets_encode hcode (isContinuationAt_text hcodes), ih hcodes, hrange,
      List.map_cons, List.map_map, List.map_map]
    refine congrArg _ (List.map_congr_left fun k _ => ?_)
    exact (lengthBefore_cons_succ code codes k).symm

theorem getElem?_startOffsets_text (hcodes : ∀ code ∈ codes, code ≤ maxCode)
    (hk : k ≤ codes.length) : (startOffsets (text codes))[k]? = some (lengthBefore codes k) := by
  rw [startOffsets_text hcodes, List.getElem?_map, List.getElem?_range (Nat.lt_succ_of_le hk),
    Option.map_some]

/-- The rounds of a loop are given these places. -/
theorem positioned_eq_mapIdx (p : Nat) (codes : List Nat) : positioned p codes =
    codes.mapIdx fun k code => (p + lengthBefore codes k, code) := by
  induction codes generalizing p with
  | nil => rfl
  | cons code codes ih =>
    rw [positioned, List.mapIdx_cons, ih]
    simp only [lengthBefore_cons_succ, Nat.add_assoc]
    rfl

/-! ### Counting in a text -/

/-- Counting forth from the beginning goes from form to form. -/
theorem offset_text_forth (hcodes : ∀ code ∈ codes, code ≤ maxCode)
    (hlength : (text codes).length + 1 < 2 ^ 63) (hk : k ≤ codes.length) :
    (offset [.string (text codes), .nat (k + 1)] : Program H (List Value)) =
      .done [.nat (place codes k)] := by
  have hle := length_le_length_text codes
  have hcount : (Int64.ofNat (k + 1)).toInt = (k + 1 : Nat) := Int64.toInt_ofNat_of_lt (by omega)
  have hargs : OffsetArguments [.string (text codes), .nat (k + 1)] (text codes)
      (.ofNat (k + 1)) none := ⟨rfl, rfl, rfl⟩
  have hstart : countPosition (text codes) (.ofNat (k + 1)) none = (0 : Nat) + 1 := by
    rw [countPosition, if_pos (by omega)]
    rfl
  have hfirst : (startOffsets (text codes))[0]? = some 0 :=
    getElem?_startOffsets_text hcodes (Nat.zero_le _)
  have hforth : forth (text codes) k 0 = some (lengthBefore codes k) := by
    rw [forth_eq hfirst, Nat.zero_add, getElem?_startOffsets_text hcodes hk]
  rw [offset_eq hargs hstart (Nat.zero_le _), if_neg (by omega), isContinuationAt_text hcodes,
    if_neg Bool.false_ne_true, if_neg (by omega), hcount, Int.toNat_natCast, Nat.add_sub_cancel,
    hforth, place, Nat.add_comm 1]
  rfl

/-- Counting back from the end goes from form to form. -/
theorem offset_text_back (hcodes : ∀ code ∈ codes, code ≤ maxCode)
    (hlength : (text codes).length + 1 < 2 ^ 63) (hpos : 1 ≤ k) (hk : k ≤ codes.length) :
    (offset [.string (text codes), .int (.ofInt (-k))] : Program H (List Value)) =
      .done [.nat (place codes (codes.length - k))] := by
  have hle := length_le_length_text codes
  have hcount : (Int64.ofInt (-k)).toInt = -k := Int64.toInt_ofInt_of_le (by omega) (by omega)
  have hargs : OffsetArguments [.string (text codes), .int (.ofInt (-k))] (text codes)
      (.ofInt (-k)) none := ⟨rfl, rfl, rfl⟩
  have hstart : countPosition (text codes) (.ofInt (-k)) none = (text codes).length + 1 := by
    rw [countPosition, if_neg (by omega)]
  have hlast : (startOffsets (text codes))[codes.length]? = some (text codes).length := by
    rw [getElem?_startOffsets_text hcodes (Nat.le_refl _), lengthBefore_length]
  have hback : back (text codes) k (text codes).length =
      some (lengthBefore codes (codes.length - k)) := by
    rw [back_eq (isContinuationAt_text hcodes) hlast, if_pos hk,
      getElem?_startOffsets_text hcodes (Nat.sub_le _ _)]
  rw [offset_eq hargs hstart (Nat.le_refl _), if_neg (by omega),
    isContinuationAt_of_length_le (Nat.le_refl _), if_neg Bool.false_ne_true, if_pos (by omega),
    hcount, Int.natAbs_neg, Int.natAbs_natCast, hback, place, Nat.add_comm 1]
  rfl

/-! ### Main result -/

/-- The last argument of a function that is to read laxly; for a strict one there is none. -/
def laxFlag (lax : Bool) : List Value := if lax then [.boolean true] else []

/-- The arguments for a range from the first position to the last. -/
def fromFirstToLast (s : Bytes) (lax : Bool) : List Value :=
  [.string s, .int 1, .int (-1)] ++ laxFlag lax

theorem wholeArguments_fromFirstToLast (s : Bytes) (lax : Bool) :
    WholeArguments (fromFirstToLast s lax) s lax where
  subject_eq := rfl
  first_eq := ⟨some 1, rfl, rfl⟩
  last_eq := ⟨some (-1), rfl, rfl⟩
  lax_eq := by cases lax <;> rfl

theorem readable_of_character {lax : Bool} (hc : code ≤ 0x7FFFFFFF)
    (hcharacter : lax = false → code ≤ 0x10FFFF ∧ ¬ (0xD800 ≤ code ∧ code ≤ 0xDFFF)) :
    Readable (!lax) code := by
  cases lax with
  | true => exact readable_lax hc
  | false => exact readable_strict (hcharacter rfl).1 (hcharacter rfl).2

/-- **The functions agree on encoded texts.**  `char` writes the forms of any codes in a row.  If
the positions in this text are integers of the language, `codepoint` gives the codes back, `len`
gives their number, and the loop over `codes` gives each with the position of its form, which is one
more than the length of the forms before it.  `offset` gives these positions, counted from either
end, and the one behind the text.  Unless asked to read laxly, the functions do so for the codes of
characters. -/
theorem functions_agree (host : HostCode H) (w : World H) {lax : Bool}
    (hcodes : ∀ code ∈ codes, code ≤ 0x7FFFFFFF)
    (hcharacters : lax = false →
      ∀ code ∈ codes, code ≤ 0x10FFFF ∧ ¬ (0xD800 ≤ code ∧ code ≤ 0xDFFF))
    (hlength : (text codes).length + 1 < 2 ^ 63) :
    let B := Behaviour.standard host
    let call := fun f args => B.builtin (.utf8 f) args
    let s := text codes
    (call .char (codes.map .nat)).Runs B w (.ok [.string s]) w ∧
    (call .codepoint (fromFirstToLast s lax)).Runs B w (.ok (codes.map .nat)) w ∧
    (call .len (fromFirstToLast s lax)).Runs B w (.ok [.nat codes.length]) w ∧
    (∀ rows, ForLoop B w (.utf8 .codes) (.string s :: laxFlag lax) rows ↔
      rows = codes.mapIdx fun k code => [.nat (place codes k), .nat code]) ∧
    (∀ k ≤ codes.length, (call .offset [.string s, .nat (k + 1)]).Runs B w
      (.ok [.nat (place codes k)]) w) ∧
    place codes codes.length = s.length + 1 ∧
    (∀ k, 1 ≤ k → k ≤ codes.length → (call .offset [.string s, .int (.ofInt (-k))]).Runs B w
      (.ok [.nat (place codes (codes.length - k))]) w) := by
  intro B call s
  -- a text is a string that is read to its end, so nothing is left behind its codes
  have hread : ∀ code ∈ codes, Readable (!lax) code := fun code hc =>
    readable_of_character (hcodes code hc) fun hstrict => hcharacters hstrict code hc
  have hargs := wholeArguments_fromFirstToLast s lax
  have hsubject : argument Bytes (.string s :: laxFlag lax) 0 = .ok s := rfl
  have hlax : (Value.isTruthy ((.string s :: laxFlag lax).getD 1 .nil)) = lax := by
    cases lax <;> rfl
  have hs : s = text codes ++ [] := (List.append_nil _).symm
  obtain ⟨pairs, r, hloop, ⟨-, rfl, rfl⟩ | ⟨hnil, -⟩⟩ :=
    exists_loopOutcome host w hsubject hlax hread rfl (Nat.lt_of_succ_lt hlength) hs
  · have hrows : (positioned 1 codes).map codeRow =
        codes.mapIdx fun k code => [.nat (place codes k), .nat code] := by
      rw [positioned_eq_mapIdx, List.mapIdx_eq_zipIdx_map, List.mapIdx_eq_zipIdx_map, List.map_map]
      rfl
    rw [hrows] at hloop
    refine ⟨Program.runs_of_eq_done (char_eq hcodes),
      Program.runs_of_eq_done (codepoint_eq hargs rfl hread rfl),
      Program.runs_of_eq_done (len_eq hargs hread rfl hs), fun rows => ⟨fun h => ?_, ?_⟩,
      fun k hk => Program.runs_of_eq_done (offset_text_forth hcodes hlength hk), ?_,
      fun k hpos hk => Program.runs_of_eq_done (offset_text_back hcodes hlength hpos hk)⟩
    · exact ((loopOutcome_ok_iff.mpr h).unique hloop).1
    · rintro rfl
      exact loopOutcome_ok_iff.mp hloop
    · rw [place, lengthBefore_length, Nat.add_comm]
  · exact absurd rfl hnil

/-- Three characters of lengths one, two and three, read strictly, and a surrogate and the greatest
code, read laxly. -/
theorem functions_agree_lengths :
    let call := fun f args => Behaviour.bare.builtin (.utf8 f) args
    let characters := [0x48, 0xF1, 0x20AC]
    let codes := [0xD800, 0x7FFFFFFF]
    (∀ code ∈ characters, code ≤ 0x10FFFF ∧ ¬ (0xD800 ≤ code ∧ code ≤ 0xDFFF)) ∧
    (text characters).length + 1 < 2 ^ 63 ∧
    (call .len (fromFirstToLast (text characters) false)).Runs .bare .bare (.ok [.nat 3]) .bare ∧
    (call .offset [.string (text characters), .nat 3]).Runs .bare .bare (.ok [.nat 4]) .bare ∧
    ForLoop .bare .bare (.utf8 .codes) (.string (text codes) :: laxFlag true)
      [[.nat 1, .nat 0xD800], [.nat 4, .nat 0x7FFFFFFF]] ∧
    (call .offset [.string (text codes), .int (.ofInt (-1))]).Runs .bare .bare
      (.ok [.nat 4]) .bare := by
  intro call characters codes
  have hcharacters : ∀ code ∈ characters,
      code ≤ 0x10FFFF ∧ ¬ (0xD800 ≤ code ∧ code ≤ 0xDFFF) := by decide
  have hcodes : ∀ code ∈ codes, code ≤ 0x7FFFFFFF := by decide
  have hlength : (text characters).length + 1 < 2 ^ 63 := by decide +kernel
  have hstrict : false = false → ∀ code ∈ characters,
      code ≤ 0x10FFFF ∧ ¬ (0xD800 ≤ code ∧ code ≤ 0xDFFF) := fun _ => hcharacters
  have hlax : true = false → ∀ code ∈ codes,
      code ≤ 0x10FFFF ∧ ¬ (0xD800 ≤ code ∧ code ≤ 0xDFFF) := nofun
  obtain ⟨-, -, hlen, -, hforth, -⟩ := functions_agree .bare .bare (by decide) hstrict hlength
  obtain ⟨-, -, -, hloop, -, -, hback⟩ :=
    functions_agree .bare .bare hcodes hlax (by decide +kernel)
  have hthird := hforth 2 (by decide)
  have hlast := hback 1 (by decide) (by decide)
  rw [show place characters 2 = 4 by decide +kernel] at hthird
  rw [show place codes (codes.length - 1) = 4 by decide +kernel] at hlast
  exact ⟨hcharacters, hlength, hlen, hthird, (hloop _).mpr (by decide +kernel), hlast⟩

end Lua.Library.Utf8s
