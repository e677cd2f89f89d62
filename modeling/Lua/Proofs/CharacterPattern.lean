/-
The pattern of characters.

`charpattern` is the text of a pattern with two sets: one of first bytes, and one of continuation
bytes, as many as there are.  In a text it matches the forms of the codes, one after the other:

* `characters`, `read_charPattern` — the pattern that the text is read as;
* `accepts_leadByte`, `accepts_continuations` — the bytes in its sets;
* `laid_characters`, `sum_of_best` — the layouts of the pattern, and the preferred one;
* `findAt_encode`, `findAt_length` — the match at the place of a form, and none at the end;
* `successive_text` — the matches in a text are the places of its forms;
* `gmatch_charPattern` — `gmatch` splits a text into what `char` writes for each code.

Design notes: the expression of the pattern is short, so no engine that accepts short ones refuses
it.
-/
import Lua.Proofs.CodeLoops
import Lua.Proofs.MatchWalks

namespace Lua

/-! ### Sets -/

theorem SetMember.accepts_range_iff {first last b : UInt8} :
    (SetMember.range first last).accepts b = true ↔
      first.toNat ≤ b.toNat ∧ b.toNat ≤ last.toNat := by
  rw [SetMember.accepts, Bool.and_eq_true, decide_eq_true_eq, decide_eq_true_eq,
    UInt8.le_iff_toNat_le, UInt8.le_iff_toNat_le]

theorem SingleClass.accepts_set_iff {members : List SetMember} {b : UInt8} :
    (SingleClass.set false members).accepts b = true ↔ ∃ m ∈ members, m.accepts b = true := by
  rw [SingleClass.accepts, Bool.bne_false, List.any_eq_true]

namespace Library.Utf8s

open Regex (Engine Successive)
open Utf8

variable {H : Host} {engine : Engine} {code : Nat} {codes : List Nat} {b : UInt8}
  {s u r : Bytes} {last : Option Nat}

/-! ### The pattern -/

/-- The set of first bytes. -/
def firstBytes : SingleClass := .set false [.range 0x00 0x7F, .range 0xC2 0xFD]

/-- The set of continuation bytes. -/
def continuations : SingleClass := .set false [.range 0x80 0xBF]

/-- A first byte and the continuation bytes behind it. -/
def characters : Pattern := ⟨false, [.single firstBytes .once, .single continuations .many]⟩

/-- The expression of the pattern. -/
def charExpression : Regex := ⟨"(?s-u)[\\x00-\\x7F\\xC2-\\xFD][\\x80-\\xBF]*".toList⟩

theorem read_charPattern : Pattern.read charPattern = .ok characters := by decide +kernel

/-- The pattern is accepted. -/
theorem accepted_characters (hfirst : engine.LeftmostFirst) (hshort : engine.AcceptsShort) :
    Pattern.Accepted engine characters charExpression := by
  have hemit : characters.emit = .ok charExpression.text := by decide +kernel
  exact ⟨hfirst, hemit, Pattern.refusal?_eq_none hshort hemit (by decide +kernel)⟩

theorem compile_charPattern (hx : Pattern.Accepted engine characters charExpression) :
    engine.compile charPattern = .ok charExpression := by
  rw [Engine.compile_eq, read_charPattern, Except.bind, hx.emitted, Except.bind, hx.accepted]

theorem accepts_leadByte (hc : code ≤ maxCode) : firstBytes.accepts (leadByte code) = true := by
  rw [firstBytes, SingleClass.accepts_set_iff]
  rcases toNat_leadByte hc with hlow | hhigh
  · exact ⟨_, List.mem_cons_self .., SetMember.accepts_range_iff.mpr
      ⟨Nat.zero_le _, Nat.le_of_lt_succ hlow⟩⟩
  · exact ⟨_, List.mem_cons_of_mem _ (List.mem_cons_self ..), SetMember.accepts_range_iff.mpr hhigh⟩

theorem accepts_continuations : continuations.accepts = isContinuation := by
  funext b
  rw [Bool.eq_iff_iff, isContinuation_iff, continuations, SingleClass.accepts_set_iff]
  simp only [List.mem_singleton, exists_eq_left, SetMember.accepts_range_iff]
  exact and_congr_right fun _ => Nat.lt_succ_iff.symm

/-! ### Layouts -/

/-- The pattern lies over a first byte and any number of the continuation bytes behind it. -/
theorem laid_characters {ns : List Nat} (hb : firstBytes.accepts b = true) :
    Pattern.Laid characters.items (b :: s) ns ↔
      ∃ n, ns = [1, n] ∧ n ≤ (s.takeWhile isContinuation).length := by
  have hcovers : ∀ {n}, Pattern.Covers .once firstBytes.accepts (b :: s) n ↔ n = 1 := by
    intro n
    refine ⟨fun h => h.1, ?_⟩
    rintro rfl
    refine ⟨rfl, Nat.succ_pos _, fun c hc => ?_⟩
    rwa [List.mem_singleton.mp hc]
  rw [characters, Pattern.laid_single_iff]
  simp only [hcovers, Pattern.laid_single_iff]
  constructor
  · rintro ⟨_, _, rfl, rfl, n, _, rfl, ⟨-, hn⟩, hrest⟩
    cases hrest
    rw [accepts_continuations, ← Pattern.le_run_iff] at hn
    exact ⟨n, rfl, hn⟩
  · rintro ⟨n, rfl, hn⟩
    rw [Pattern.le_run_iff, ← accepts_continuations] at hn
    exact ⟨1, _, rfl, rfl, n, [], rfl, ⟨trivial, hn⟩, .nil _⟩

/-- The preferred layout goes as far as there are continuation bytes. -/
theorem sum_of_best {ns : List Nat} (hb : firstBytes.accepts b = true)
    (h : Pattern.Best characters.items (b :: s) ns) : ns.sum = 1 + continuationRun (b :: s) 1 := by
  obtain ⟨n, rfl, hn⟩ := (laid_characters hb).mp h.laid
  have hall := h.prefers _ ((laid_characters hb).mpr ⟨_, rfl, Nat.le_refl _⟩)
  have hrun : continuationRun (b :: s) 1 = (s.takeWhile isContinuation).length := rfl
  rcases hall with hmore | ⟨-, hmore | ⟨hsame, -⟩⟩
  · exact absurd hmore (Nat.lt_irrefl 1)
  · exact absurd hmore (Nat.not_lt_of_le hn)
  · rw [hrun, ← hsame]
    rfl

/-! ### Matches in a text -/

variable (hx : Pattern.Accepted engine characters charExpression)

include hx

/-- The match at the place of a form is that form. -/
theorem findAt_encode (hc : code ≤ maxCode) (hr : isContinuationAt r 0 = false)
    (hs : s = u ++ (encode code ++ r)) : engine.findAt charExpression s u.length =
      some ⟨u.length, u.length + (encode code).length, []⟩ := by
  have hlead := accepts_leadByte hc
  have hdrop : s.drop u.length =
      leadByte code :: (continuationBytes code (continuationCount code) ++ r) := by
    rw [hs, List.drop_left, encode_eq_cons hc, List.cons_append]
  have hle : u.length ≤ s.length := by
    rw [hs, List.length_append]
    exact Nat.le_add_right _ _
  have hstarts : Pattern.Starts characters s u.length u.length := by
    refine ⟨Nat.le_refl _, hle, nofun, [1, 0], ?_⟩
    rw [hdrop, laid_characters hlead]
    exact ⟨0, rfl, Nat.zero_le _⟩
  cases hm : engine.findAt charExpression s u.length with
  | none => exact absurd hstarts (hx.not_starts hm _)
  | some m =>
    have hfound := hx.found hm
    obtain ⟨hstarts', hleast⟩ := hfound.leftmost
    have hstart : m.start = u.length := Nat.le_antisymm (hleast hstarts) hstarts'.after
    obtain ⟨ns, hbest, hstop, -⟩ := hfound.layout
    rw [hstart, hdrop] at hbest
    have hsum := sum_of_best hlead hbest
    rw [← List.cons_append, ← encode_eq_cons hc, continuationRun_encode hr hc] at hsum
    obtain ⟨hpresent, hcount⟩ := hfound.present
    rw [List.length_eq_zero_iff.mp (hcount.trans rfl)] at hpresent
    obtain ⟨start, stop, groups⟩ := m
    dsimp only at hstart hstop hpresent
    rw [hstop, hsum, hstart, hpresent]
    rfl

/-- At the end of a string there is no first byte. -/
theorem findAt_length (s : Bytes) : engine.findAt charExpression s s.length = none := by
  cases hm : engine.findAt charExpression s s.length with
  | none => rfl
  | some m =>
    obtain ⟨hafter, hinside, -, ns, hlaid⟩ := (hx.found hm).leftmost.1
    rw [Nat.le_antisymm hinside hafter, List.drop_length, characters,
      Pattern.laid_single_iff] at hlaid
    obtain ⟨n, _, -, ⟨rfl, hcovers⟩, -⟩ := hlaid
    exact absurd hcovers.1 (Nat.not_succ_le_zero 0)

omit hx

/-- The match that is the form of a code at an offset. -/
def formMatch : Nat × Nat → Match
  | (start, code) => ⟨start, start + (encode code).length, []⟩

/-- The matches in a text are the forms of its codes. -/
theorem successive_text (hx : Pattern.Accepted engine characters charExpression)
    (hcodes : ∀ code ∈ codes, code ≤ maxCode) (hs : s = u ++ text codes) :
    Successive engine charExpression s u.length last
      ((positioned u.length codes).map formMatch) := by
  induction codes generalizing u last with
  | nil =>
    have hend : s = u := hs.trans (List.append_nil u)
    rw [← hend]
    exact .done (findAt_length hx s)
  | cons code codes ih =>
    obtain ⟨hcode, hcodes⟩ := List.forall_mem_cons.mp hcodes
    have hmatch : engine.findAt charExpression s u.length = some (formMatch (u.length, code)) :=
      findAt_encode hx hcode (isContinuationAt_text hcodes) hs
    have hpos := length_encode_pos code
    have hrest : Successive engine charExpression s (u.length + (encode code).length)
        (some (u.length + (encode code).length))
        ((positioned (u.length + (encode code).length) codes).map formMatch) := by
      rw [← List.length_append]
      exact ih hcodes (by rw [hs, text_cons, List.append_assoc])
    -- a form has a byte at least, so the match is not passed as an empty one
    refine .found hmatch ?_ hrest
    rintro ⟨hempty, -⟩
    rw [formMatch] at hempty
    dsimp only at hempty
    omega

/-- What such a match gives is the form. -/
theorem values_formMatch (hs : s = u ++ (encode code ++ r)) :
    (formMatch (u.length, code)).values s = [.string (encode code)] := by
  have hslice : Bytes.slice s u.length (u.length + (encode code).length) = encode code := by
    rw [Bytes.slice, hs, List.drop_left, Nat.add_sub_cancel_left, List.take_left]
  exact congrArg (fun form => [Value.string form]) hslice

theorem rows_formMatch (hs : s = u ++ text codes) :
    ((positioned u.length codes).map formMatch).map (·.values s) =
      codes.map fun code => [.string (encode code)] := by
  induction codes generalizing u with
  | nil => rfl
  | cons code codes ih =>
    have hrest := ih (u := u ++ encode code) (by rw [hs, text_cons, List.append_assoc])
    rw [List.length_append] at hrest
    rw [positioned, List.map_cons, List.map_cons, List.map_cons, hrest, values_formMatch hs]

/-! ### Main result -/

/-- **The pattern splits texts into characters.**  The matches of `charpattern` in the text that
`char` writes for any codes are the strings that it writes for each of them, and nil follows. -/
theorem gmatch_charPattern (host : HostCode H) (hfirst : host.engine.LeftmostFirst)
    (hshort : host.engine.AcceptsShort) (hcodes : ∀ code ∈ codes, code ≤ 0x7FFFFFFF) :
    let B := Behaviour.standard host
    let call := fun codes => B.builtin (.utf8 .char) (codes.map Value.nat)
    (∀ w, (call codes).Runs B w (.ok [.string (text codes)]) w) ∧
    (∀ code ∈ codes, ∀ w, (call [code]).Runs B w (.ok [.string (encode code)]) w) ∧
    Strings.Enumerates B [.string (text codes), .string charPattern]
      (codes.map fun code => [.string (encode code)]) := by
  intro B call
  refine ⟨fun w => Program.runs_of_eq_done (char_eq hcodes), fun code hc w => ?_, ?_⟩
  · have hone : text [code] = encode code := List.append_nil _
    rw [← hone]
    exact Program.runs_of_eq_done (char_eq (List.forall_mem_singleton.mpr (hcodes code hc)))
  · have hargs : Strings.searchArguments [.string (text codes), .string charPattern] =
        .ok (text codes, charPattern, 1) := rfl
    have hx := accepted_characters hfirst hshort
    rw [← rows_formMatch (u := []) rfl]
    exact Strings.enumerates_of_successive host hargs (compile_charPattern hx)
      (successive_text (u := []) hx hcodes rfl)

/-- Codes whose forms have one, three and six bytes. -/
theorem gmatch_charPattern_lengths :
    let codes := [0x41, 0x20AC, 0x7FFFFFFF]
    (∀ code ∈ codes, code ≤ 0x7FFFFFFF) ∧
    Strings.Enumerates .bare [.string (text codes), .string charPattern]
      [[.string [0x41]], [.string [0xE2, 0x82, 0xAC]],
        [.string [0xFD, 0xBF, 0xBF, 0xBF, 0xBF, 0xBF]]] := by
  intro codes
  have hcodes : ∀ code ∈ codes, code ≤ 0x7FFFFFFF := by decide
  obtain ⟨-, -, hrows⟩ := gmatch_charPattern .bare Engine.leftmostFirst_backtracking
    Engine.acceptsShort_backtracking hcodes
  rw [show codes.map (fun code => [Value.string (encode code)]) =
    [[.string [0x41]], [.string [0xE2, 0x82, 0xAC]],
      [.string [0xFD, 0xBF, 0xBF, 0xBF, 0xBF, 0xBF]]] by decide +kernel] at hrows
  exact ⟨hcodes, hrows⟩

end Library.Utf8s

end Lua
