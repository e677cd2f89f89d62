/-
Texts as codes in a row.

Every string begins with the encoded forms of some codes, and what follows them is nothing or cannot
be read.  The functions that read a string from its beginning to its end find these codes:

* `Utf8.text` — the encoded forms of codes in a row;
* `Utf8.toNat_leadByte`, `Utf8.isContinuation_of_mem` — the bytes of a form: only the first one is
  no continuation byte;
* `Utf8.exists_text` — every string is a text with a rest that cannot be read;
* `codesUpTo_text`, `countUpTo_text` — reading and counting stop where the rest begins;
* `continuationRun_encode` — behind the first byte of a form, the run of continuation bytes ends
  with the form;
* `char_eq`, `codepoint_eq`, `len_eq` — the functions that write and read whole texts.

Design notes: offsets into a string are counted behind a part that has been read already, so that
the lemmas apply to each suffix.
-/
import Lua.Library.Utf8
import Lua.Proofs.EncodedForms
import Lua.Proofs.Execution

namespace Lua

namespace Utf8

variable {strict : Bool} {code n : Nat} {codes : List Nat} {s r rest : Bytes} {b : UInt8}

/-! ### The bytes of a form -/

/-- The first byte of the encoded form of a code. -/
def leadByte (code : Nat) : UInt8 :=
  let n := continuationCount code
  UInt8.ofNat (leadMarker n + (code >>> (6 * n)))

theorem encode_eq_cons (hc : code ≤ maxCode) :
    encode code = leadByte code :: continuationBytes code (continuationCount code) :=
  encode_eq_form hc

/-- A first byte stands for itself, or it announces a form that is not too long. -/
theorem toNat_leadByte (hc : code ≤ maxCode) : (leadByte code).toNat < 0x80 ∨
    0xC2 ≤ (leadByte code).toNat ∧ (leadByte code).toNat ≤ 0xFD := by
  have hle := continuationCount_le code
  have hroom := div_lt_leadRoom hc hle (Nat.le_refl _)
  have hbyte : (leadByte code).toNat =
      leadMarker (continuationCount code) + code / 64 ^ continuationCount code := by
    rw [leadByte, shiftRight_groups, UInt8.toNat_ofNat',
      Nat.mod_eq_of_lt (leadMarker_add_lt hle hroom)]
  rw [hbyte]
  unfold continuationCount at hroom ⊢
  split_ifs at hroom ⊢ <;> simp only [leadRoom, leadMarker] at hroom ⊢ <;> omega

theorem isContinuation_leadByte (hc : code ≤ maxCode) : isContinuation (leadByte code) = false := by
  rw [← Bool.not_eq_true, isContinuation_iff]
  have := toNat_leadByte hc
  omega

theorem isContinuation_of_mem (h : b ∈ continuationBytes code n) : isContinuation b = true := by
  induction n with
  | zero => cases h
  | succ n ih =>
    rcases List.mem_cons.mp h with rfl | h
    · exact isContinuation_group (Nat.mod_lt _ (by decide))
    · exact ih h

theorem length_encodeBefore_pos (code maxFirst : UInt32) (tail : Bytes) :
    0 < (encodeBefore code maxFirst tail).length := by
  fun_induction encodeBefore code maxFirst tail with
  | case1 => exact Nat.succ_pos _
  | case2 _ _ _ _ _ _ _ ih => exact ih

theorem length_encode_pos (code : Nat) : 0 < (encode code).length := by
  rw [encode]
  split
  · exact Nat.succ_pos _
  · exact length_encodeBefore_pos ..

/-! ### Codes in a row -/

/-- The encoded forms of codes in a row. -/
def text (codes : List Nat) : Bytes := codes.flatMap encode

@[simp] theorem text_nil : text [] = [] := rfl

@[simp] theorem text_cons (code : Nat) (codes : List Nat) :
    text (code :: codes) = encode code ++ text codes := rfl

theorem length_le_length_text (codes : List Nat) : codes.length ≤ (text codes).length := by
  induction codes with
  | nil => exact Nat.le_refl _
  | cons code codes ih =>
    have hpos := length_encode_pos code
    rw [text_cons, List.length_append, List.length_cons]
    omega

/-- The codes that may be read. -/
def Readable (strict : Bool) (code : Nat) : Prop := code ≤ maxCode ∧ admits strict code = true

theorem readable_lax (hc : code ≤ 0x7FFFFFFF) : Readable false code := ⟨hc, rfl⟩

theorem readable_strict (hc : code ≤ 0x10FFFF) (hsurrogate : ¬ (0xD800 ≤ code ∧ code ≤ 0xDFFF)) :
    Readable true code :=
  ⟨Nat.le_trans hc (by decide), (admits_strict_iff code).mpr ⟨hc, hsurrogate⟩⟩

theorem decode_encode (h : Readable strict code) (r : Bytes) :
    decode strict (encode code ++ r) = some (code, (encode code).length) :=
  decode_eq_some_iff.mpr ⟨h.1, h.2, List.prefix_append _ _, rfl⟩

/-- What is read is the form of a code that may be read. -/
theorem exists_form (h : decode strict s = some (code, n)) :
    Readable strict code ∧ ∃ r, s = encode code ++ r := by
  obtain ⟨hc, hadmits, ⟨r, hr⟩, -⟩ := decode_eq_some_iff.mp h
  exact ⟨⟨hc, hadmits⟩, r, hr.symm⟩

/-- **Every string** begins with the forms of some codes; what follows cannot be read. -/
theorem exists_text (strict : Bool) (s : Bytes) : ∃ codes rest, s = text codes ++ rest ∧
    (∀ code ∈ codes, Readable strict code) ∧ decode strict rest = none := by
  cases h : decode strict s with
  | none => exact ⟨[], s, rfl, List.forall_mem_nil _, h⟩
  | some read =>
    obtain ⟨code, n⟩ := read
    obtain ⟨hcode, r, rfl⟩ := exists_form h
    have hshorter : r.length < (encode code ++ r).length := by
      rw [List.length_append]
      exact Nat.lt_add_of_pos_left (length_encode_pos code)
    obtain ⟨codes, rest, rfl, hcodes, hrest⟩ := exists_text strict r
    exact ⟨code :: codes, rest, (List.append_assoc _ _ _).symm,
      List.forall_mem_cons.mpr ⟨hcode, hcodes⟩, hrest⟩
termination_by s.length

end Utf8

namespace Library.Utf8s

open Utf8

variable {H : Host} {strict lax : Bool} {code : Nat} {codes : List Nat} {args : List Value}
  {s u v r rest : Bytes}

/-! ### Continuation bytes at offsets -/

theorem isContinuationAt_append (u v : Bytes) (k : Nat) :
    isContinuationAt (u ++ v) (u.length + k) = isContinuationAt v k := by
  rw [isContinuationAt, List.getElem?_append_right (Nat.le_add_right _ _), Nat.add_sub_cancel_left]
  rfl

theorem continuationRun_append (u v : Bytes) (k : Nat) :
    continuationRun (u ++ v) (u.length + k) = continuationRun v k := by
  rw [continuationRun, ← List.drop_drop, List.drop_left]
  rfl

theorem continuationRun_eq_zero (h : isContinuationAt s 0 = false) : continuationRun s 0 = 0 := by
  cases s with
  | nil => rfl
  | cons b s =>
    have hb : isContinuation b = false := h
    rw [continuationRun, List.drop_zero, List.takeWhile_cons_of_neg (Bool.eq_false_iff.mp hb)]
    rfl

theorem isContinuationAt_encode (hc : code ≤ maxCode) (r : Bytes) :
    isContinuationAt (encode code ++ r) 0 = false := by
  rw [encode_eq_cons hc]
  exact isContinuation_leadByte hc

theorem isContinuationAt_text (hcodes : ∀ code ∈ codes, code ≤ maxCode) :
    isContinuationAt (text codes) 0 = false := by
  cases codes with
  | nil => rfl
  | cons code codes => exact isContinuationAt_encode (hcodes code (List.mem_cons_self ..)) _

/-- No form begins with a continuation byte, so it is the rest behind a text that does. -/
theorem ne_nil_of_isContinuationAt (hcodes : ∀ code ∈ codes, code ≤ maxCode)
    (h : isContinuationAt (text codes ++ rest) 0 = true) : rest ≠ [] := by
  rintro rfl
  rw [List.append_nil, isContinuationAt_text hcodes] at h
  cases h

/-- Behind the first byte of a form, the run of continuation bytes ends with the form. -/
theorem continuationRun_encode (hr : isContinuationAt r 0 = false) (hc : code ≤ maxCode) :
    1 + continuationRun (encode code ++ r) 1 = (encode code).length := by
  have hall : ∀ b ∈ continuationBytes code (continuationCount code), isContinuation b = true :=
    fun b hb => isContinuation_of_mem hb
  have hrun : (r.takeWhile isContinuation).length = 0 := continuationRun_eq_zero hr
  rw [encode_eq_cons hc, List.cons_append, continuationRun, List.drop_one, List.tail_cons,
    List.takeWhile_append_of_pos hall, List.length_append, hrun, List.length_cons]
  omega

/-! ### Reading from the beginning to the end -/

/-- What stands behind a part of a string that ends where a form begins. -/
theorem drop_of_form (hs : s = u ++ (text (code :: codes) ++ rest)) :
    (u.length : Int) < s.length ∧ s.drop u.length = encode code ++ (text codes ++ rest) ∧
      s = (u ++ encode code) ++ (text codes ++ rest) := by
  have hpos := length_encode_pos code
  have hlength : s.length = u.length + ((encode code ++ text codes).length + rest.length) := by
    rw [hs, List.length_append, List.length_append, text_cons]
  rw [List.length_append] at hlength
  refine ⟨by omega, ?_, ?_⟩
  · rw [hs, List.drop_left, text_cons, List.append_assoc]
  · rw [hs, text_cons, List.append_assoc, List.append_assoc]

section

variable {stop : Int} {offset n count : Nat} {before : Array Nat} (hlt : offset < stop)

include hlt

theorem codesUpTo_of_some (h : decode strict (s.drop offset) = some (code, n)) :
    codesUpTo strict s stop before offset =
      codesUpTo strict s stop (before.push code) (offset + n) := by
  rw [codesUpTo, if_pos hlt]
  split
  · rename_i h'
    cases h'.symm.trans h
    rfl
  · rename_i h'
    cases h'.symm.trans h

theorem codesUpTo_of_none (h : decode strict (s.drop offset) = none) :
    codesUpTo strict s stop before offset = .error invalidCode := by
  rw [codesUpTo, if_pos hlt]
  split
  · rename_i h'
    cases h'.symm.trans h
  · rfl

theorem countUpTo_of_some (h : decode strict (s.drop offset) = some (code, n)) :
    countUpTo strict s stop count offset =
      countUpTo strict s stop (count + 1) (offset + n) := by
  rw [countUpTo, if_pos hlt]
  split
  · rename_i h'
    cases h'.symm.trans h
    rfl
  · rename_i h'
    cases h'.symm.trans h

theorem countUpTo_of_none (h : decode strict (s.drop offset) = none) :
    countUpTo strict s stop count offset = [.nil, .nat (offset + 1)] := by
  rw [countUpTo, if_pos hlt]
  split
  · rename_i h'
    cases h'.symm.trans h
  · rfl

end

/-- Reading finds the codes of a text, and fails if a rest is left. -/
theorem codesUpTo_text (hcodes : ∀ code ∈ codes, Readable strict code)
    (hrest : decode strict rest = none) (hs : s = u ++ (text codes ++ rest)) (before : Array Nat) :
    codesUpTo strict s s.length before u.length =
      if rest.isEmpty then .ok (before.toList ++ codes) else .error invalidCode := by
  induction codes generalizing u before with
  | nil =>
    have hdrop : s.drop u.length = rest := by rw [hs, List.drop_left]; rfl
    have hlength : s.length = u.length + rest.length := by rw [hs, List.length_append]; rfl
    cases rest with
    | nil =>
      rw [List.length_nil] at hlength
      rw [codesUpTo, if_neg (by omega), List.append_nil]
      rfl
    | cons b rest =>
      rw [List.length_cons] at hlength
      rw [codesUpTo_of_none (by omega) (hdrop ▸ hrest)]
      rfl
  | cons code codes ih =>
    obtain ⟨hcode, hcodes⟩ := List.forall_mem_cons.mp hcodes
    obtain ⟨hlt, hdrop, hnext⟩ := drop_of_form hs
    -- behind the first form, the part that has been read is longer by it
    have hrec := ih hcodes hnext (before.push code)
    rw [List.length_append, Array.toList_push, List.append_assoc, List.singleton_append] at hrec
    rw [codesUpTo_of_some hlt (hdrop ▸ decode_encode hcode _), hrec]

/-- Counting counts the codes of a text, and gives the position of a rest that is left. -/
theorem countUpTo_text (hcodes : ∀ code ∈ codes, Readable strict code)
    (hrest : decode strict rest = none) (hs : s = u ++ (text codes ++ rest)) (count : Nat) :
    countUpTo strict s s.length count u.length = if rest.isEmpty then [.nat (count + codes.length)]
      else [.nil, .nat (u.length + (text codes).length + 1)] := by
  induction codes generalizing u count with
  | nil =>
    have hdrop : s.drop u.length = rest := by rw [hs, List.drop_left]; rfl
    have hlength : s.length = u.length + rest.length := by rw [hs, List.length_append]; rfl
    cases rest with
    | nil =>
      rw [List.length_nil] at hlength
      rw [countUpTo, if_neg (by omega)]
      rfl
    | cons b rest =>
      rw [List.length_cons] at hlength
      rw [countUpTo_of_none (by omega) (hdrop ▸ hrest)]
      rfl
  | cons code codes ih =>
    obtain ⟨hcode, hcodes⟩ := List.forall_mem_cons.mp hcodes
    obtain ⟨hlt, hdrop, hnext⟩ := drop_of_form hs
    have hrec := ih hcodes hnext (count + 1)
    have hcount : count + 1 + codes.length = count + (code :: codes).length := by
      rw [List.length_cons]
      omega
    have hlength : (u ++ encode code).length + (text codes).length =
        u.length + (text (code :: codes)).length := by
      rw [text_cons, List.length_append, List.length_append, Nat.add_assoc]
    rw [hcount, hlength, List.length_append] at hrec
    rw [countUpTo_of_some hlt (hdrop ▸ decode_encode hcode _), hrec]

/-! ### Functions on whole texts -/

theorem codeArgument_eq (hcodes : ∀ code ∈ codes, code ≤ maxCode) {i : Nat}
    (hi : i < codes.length) : codeArgument (codes.map .nat) i = .ok codes[i] := by
  have hle : codes[i] ≤ 0x7FFFFFFF := hcodes _ (List.getElem_mem hi)
  have hinteger : (Int64.ofNat codes[i]).toInt = codes[i] :=
    Int64.toInt_ofNat_of_lt (Nat.lt_of_le_of_lt hle (by decide))
  have hargument : argument Int64 (codes.map .nat) i = .ok (Int64.ofNat codes[i]) := by
    rw [argument, List.getD_eq_getElem?_getD, List.getElem?_map, List.getElem?_eq_getElem hi]
    rfl
  have hcode : codeArgument (codes.map .nat) i =
      if 0 ≤ (Int64.ofNat codes[i]).toInt ∧ (Int64.ofNat codes[i]).toInt ≤ maxCode then
        .ok (Int64.ofNat codes[i]).toInt.toNat
      else .error (.outOfRange "value out of range" i) := by
    rw [codeArgument, hargument]
    rfl
  rw [hcode, hinteger, if_pos ⟨Int.natCast_nonneg _, Int.ofNat_le.mpr hle⟩, Int.toNat_natCast]

theorem codeArguments_eq (hcodes : ∀ code ∈ codes, code ≤ maxCode) :
    codeArguments (codes.map .nat) = .ok codes := by
  have hall : ∀ i ∈ List.range (codes.map Value.nat).length,
      codeArgument (codes.map .nat) i = .ok (codes.getD i 0) := by
    intro i hi
    rw [List.mem_range, List.length_map] at hi
    rw [codeArgument_eq hcodes hi, List.getD_eq_getElem?_getD, List.getElem?_eq_getElem hi]
    rfl
  rw [codeArguments, mapM_eq_ok hall]
  refine congrArg Except.ok (List.ext_getElem ?_ fun i hi hi' => ?_)
  · rw [List.length_map, List.length_range, List.length_map]
  · rw [List.getElem_map, List.getElem_range, List.getD_eq_getElem?_getD,
      List.getElem?_eq_getElem hi']
    rfl

/-- The text of the codes given as arguments. -/
theorem char_eq (hcodes : ∀ code ∈ codes, code ≤ maxCode) :
    (char (codes.map .nat) : Program H (List Value)) = .done [.string (text codes)] :=
  Program.bind_of_ok (codeArguments_eq hcodes) _

theorem position_last (length : Nat) : position (-1) length = length := by
  rw [position]
  split_ifs <;> omega

/-- The arguments of a reading function that name the whole of a string. -/
structure WholeArguments (args : List Value) (s : Bytes) (lax : Bool) : Prop where
  subject_eq : argument Bytes args 0 = .ok s
  first_eq : ∃ i, argument? Int64 args 1 = .ok i ∧ i.getD 1 = 1
  last_eq : ∃ j, argument? Int64 args 2 = .ok j ∧ j.getD (-1) = -1
  lax_eq : (args.getD 3 .nil).isTruthy = lax

/-- The number of codes, or nil and the position behind those that can be read. -/
theorem len_eq (hargs : WholeArguments args s lax) (hcodes : ∀ code ∈ codes, Readable (!lax) code)
    (hrest : decode (!lax) rest = none) (hs : s = text codes ++ rest) :
    (len args : Program H (List Value)) = .done (if rest.isEmpty then [.nat codes.length]
      else [.nil, .nat ((text codes).length + 1)]) := by
  obtain ⟨hsubject, ⟨i, hi, hfirst⟩, ⟨j, hj, hlast⟩, rfl⟩ := hargs
  have hlen : (len args : Program H (List Value)) =
      let start := position (i.getD 1).toInt s.length
      let stop := position (j.getD (-1)).toInt s.length
      if start < 1 ∨ (s.length : Int) < start - 1 then
        .raise (.argument (.outOfRange "initial position out of bounds" 1))
      else if (s.length : Int) ≤ stop - 1 then
        .raise (.argument (.outOfRange "final position out of bounds" 2))
      else .done (countUpTo (!(args.getD 3 .nil).isTruthy) s stop 0 (start - 1).toNat) :=
    (Program.bind_of_ok hsubject _).trans
      ((Program.bind_of_ok hi _).trans (Program.bind_of_ok hj _))
  have hstart : position (1 : Int64).toInt s.length = 1 := rfl
  have hstop : position (-1 : Int64).toInt s.length = s.length := position_last s.length
  have hcount := countUpTo_text (u := []) hcodes hrest hs 0
  rw [Nat.zero_add, List.length_nil, Nat.zero_add] at hcount
  rw [hlen, hfirst, hlast]
  dsimp only
  rw [hstart, hstop, if_neg (by omega), if_neg (by omega), show (1 - 1 : Int).toNat = 0 from rfl,
    hcount]

/-- The codes of a string that can be read to its end. -/
theorem codepoint_eq (hargs : WholeArguments args s lax)
    (hlast : argument? Int64 args 2 = .ok (some (-1)))
    (hcodes : ∀ code ∈ codes, Readable (!lax) code) (hs : s = text codes) :
    (codepoint args : Program H (List Value)) = .done (codes.map .nat) := by
  obtain ⟨hsubject, ⟨i, hi, hfirst⟩, -, rfl⟩ := hargs
  have hcodepoint : (codepoint args : Program H (List Value)) =
      let start := position (i.getD 1).toInt s.length
      let stop := position (-1 : Int64).toInt s.length
      if start < 1 then .raise (.argument (.outOfRange "out of bounds" 1))
      else if (s.length : Int) < stop then .raise (.argument (.outOfRange "out of bounds" 2))
      else liftM (codesUpTo (!(args.getD 3 .nil).isTruthy) s stop #[] (start - 1).toNat) >>=
        fun codes => .done (codes.map .nat) :=
    (Program.bind_of_ok hsubject _).trans
      ((Program.bind_of_ok hi _).trans (Program.bind_of_ok hlast _))
  have hstart : position (1 : Int64).toInt s.length = 1 := rfl
  have hstop : position (-1 : Int64).toInt s.length = s.length := position_last s.length
  have hend : s = text codes ++ [] := by rw [List.append_nil, hs]
  have hread := codesUpTo_text (u := []) hcodes rfl hend #[]
  rw [List.length_nil] at hread
  rw [hcodepoint, hfirst]
  dsimp only
  rw [hstart, hstop, if_neg (by omega), if_neg (by omega), show (1 - 1 : Int).toNat = 0 from rfl,
    hread]
  rfl

end Library.Utf8s

end Lua
