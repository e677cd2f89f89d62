/-
Substitution rebuilds the subject.

`gsub` finds the matches in its subject, replaces each of them, and keeps what stands between
them:

* `Cut` — a subject cut up at matches: the bytes before each of them, and those behind the last;
* `cut_inOrder` — matches in order cut the subject up;
* `substitute_eq` — what the loop does from any of its turns on: it replaces the matches that are
  left, one after the other, and weaves the texts between the bytes that are kept;
* `Keeps` — replacements that put a match in its own place;
* `gsub_rebuilds` — the runs of `gsub`.

Design notes: a replacement may call a function, which may do anything.  So what replaces a match
is known from the run alone: the texts are those that the replacements, run in order, give.
-/
import Lua.Library.String
import Lua.Proofs.Execution
import Lua.Proofs.SuccessiveMatches

namespace Lua

open Regex (Engine InOrder Successive)

/-! ### Cutting and weaving -/

/-- Texts between bytes that are kept, and what follows the last of them. -/
def weave (gaps texts : List Bytes) (tail : Bytes) : Bytes :=
  (List.zipWith (· ++ ·) gaps texts).flatten ++ tail

@[simp] theorem weave_nil (texts : List Bytes) (tail : Bytes) : weave [] texts tail = tail := rfl

@[simp] theorem weave_cons (gap : Bytes) (gaps : List Bytes) (text : Bytes) (texts : List Bytes)
    (tail : Bytes) :
    weave (gap :: gaps) (text :: texts) tail = gap ++ text ++ weave gaps texts tail := by
  simp [weave]

/-- A subject cut up at matches.  There is a gap before each match; gaps and matches make up the
subject, with every match in its place. -/
structure Cut (s : Bytes) (ms : List Match) (gaps : List Bytes) (tail : Bytes) : Prop where
  length : gaps.length = ms.length
  whole : weave gaps (ms.map (·.whole s)) tail = s
  place : ∀ i m gap, ms[i]? = some m → gaps[i]? = some gap →
    m.start = (weave (gaps.take i) ((ms.take i).map (·.whole s)) gap).length

/-- The bytes between the matches, from an offset on. -/
def gapsFrom (s : Bytes) : Nat → List Match → List Bytes
  | _, [] => []
  | offset, m :: ms => Bytes.slice s offset m.start :: gapsFrom s m.stop ms

/-- The bytes behind the last match. -/
def behindLast (s : Bytes) : Nat → List Match → Bytes
  | offset, [] => s.drop offset
  | _, m :: ms => behindLast s m.stop ms

variable {s : Bytes} {offset : Nat} {ms : List Match}

theorem slice_append_drop {a b : Nat} (h : a ≤ b) : Bytes.slice s a b ++ s.drop b = s.drop a := by
  have hdrop : s.drop b = (s.drop a).drop (b - a) := by
    rw [List.drop_drop, Nat.add_sub_cancel' h]
  rw [Bytes.slice, hdrop, List.take_append_drop]

theorem length_slice {a b : Nat} (hab : a ≤ b) (hb : b ≤ s.length) :
    (Bytes.slice s a b).length = b - a := by
  rw [Bytes.slice, List.length_take, List.length_drop]
  omega

/-- Matches in order cut up the rest of the subject. -/
theorem weave_gapsFrom (h : InOrder s offset ms) :
    weave (gapsFrom s offset ms) (ms.map (·.whole s)) (behindLast s offset ms) =
      s.drop offset := by
  induction ms generalizing offset with
  | nil => rfl
  | cons m ms ih =>
    obtain ⟨hstart, hstop, hrest⟩ := h
    rw [gapsFrom, List.map_cons, weave_cons, behindLast, ih hrest, Match.whole,
      List.append_assoc, slice_append_drop hstop, slice_append_drop hstart]

theorem start_eq_weave (h : InOrder s offset ms) (i : Nat) (m : Match) (gap : Bytes)
    (hm : ms[i]? = some m) (hgap : (gapsFrom s offset ms)[i]? = some gap) :
    m.start = offset + (weave ((gapsFrom s offset ms).take i) ((ms.take i).map (·.whole s))
      gap).length := by
  induction ms generalizing offset i with
  | nil => cases hm
  | cons m₁ ms ih =>
    obtain ⟨hstart, hstop, hrest⟩ := h
    have hle := hrest.le_length
    cases i with
    | zero =>
      cases hm
      cases hgap
      have hlen := length_slice hstart (Nat.le_trans hstop hle)
      rw [List.take_zero, weave_nil, hlen]
      omega
    | succ i =>
      have hrec := ih hrest i hm hgap
      have hlen := length_slice hstart (Nat.le_trans hstop hle)
      have hlen' := length_slice hstop hle
      rw [gapsFrom, List.take_succ_cons, List.take_succ_cons, List.map_cons, weave_cons,
        List.length_append, List.length_append, Match.whole, hlen, hlen']
      omega

theorem length_gapsFrom (s : Bytes) (offset : Nat) (ms : List Match) :
    (gapsFrom s offset ms).length = ms.length := by
  induction ms generalizing offset with
  | nil => rfl
  | cons m ms ih => exact congrArg (· + 1) (ih m.stop)

/-- Matches in order cut the subject up. -/
theorem cut_inOrder (h : InOrder s 0 ms) : Cut s ms (gapsFrom s 0 ms) (behindLast s 0 ms) where
  length := length_gapsFrom s 0 ms
  whole := weave_gapsFrom h
  place i m gap hm hgap := by
    rw [start_eq_weave h i m gap hm hgap, Nat.zero_add]

namespace Library.Strings

variable {H : Host}

/-! ### The loop -/

/-- The first of the matches, as many as are asked for; a negative number counts as 0. -/
def limited (most : Option Int64) (found : List Match) : List Match :=
  match most with
  | some n => found.take n.toInt.toNat
  | none => found

/-- The matches that are replaced: only the first if the pattern begins with a caret, and at most
as many as are asked for. -/
def selected (source : Bytes) (most : Option Int64) (all : List Match) : List Match :=
  limited most (if source.head? = some (Ascii.byte '^') then all.take 1 else all)

theorem inOrder_selected (source : Bytes) (most : Option Int64) (h : InOrder s offset ms) :
    InOrder s offset (selected source most ms) := by
  have hlimited : ∀ {found}, InOrder s offset found → InOrder s offset (limited most found) := by
    intro found hfound
    cases most with
    | none => exact hfound
    | some n => exact hfound.take n.toInt.toNat
  rw [selected]
  split
  · exact hlimited (h.take 1)
  · exact hlimited h

variable {engine : Engine} {x : Regex} {all : List Match} {position count : Nat}
  {last : Option Nat} {anchored : Bool} {r : Replacement} {most : Option Int64} {m : Match}

/-- The matches that are left when `count` of them have been replaced. -/
def leftOver (most : Option Int64) (count : Nat) (found : List Match) : List Match :=
  match most with
  | some n => found.take (n.toInt - count).toNat
  | none => found

theorem leftOver_zero (most : Option Int64) (found : List Match) :
    leftOver most 0 found = limited most found := by
  cases most with
  | none => rfl
  | some n => exact congrArg (fun k => found.take k.toNat) (Int.sub_zero n.toInt)

/-- No match is left if there have been as many as are asked for. -/
theorem leftOver_of_not (h : ¬ (most.all fun n => (count : Int) < n.toInt) = true)
    (found : List Match) : leftOver most count found = [] := by
  cases most with
  | none => exact absurd rfl h
  | some n =>
    rw [Option.all_some, decide_eq_true_eq] at h
    rw [leftOver, Int.toNat_of_nonpos (by omega), List.take_zero]

theorem leftOver_cons (h : (most.all fun n => (count : Int) < n.toInt) = true) (m : Match)
    (found : List Match) :
    leftOver most count (m :: found) = m :: leftOver most (count + 1) found := by
  cases most with
  | none => rfl
  | some n =>
    rw [Option.all_some, decide_eq_true_eq] at h
    have hn : (n.toInt - count).toNat = (n.toInt - (count + 1 : Nat)).toNat + 1 := by omega
    rw [leftOver, leftOver, hn, List.take_succ_cons]

@[simp] theorem leftOver_nil (most : Option Int64) (count : Nat) :
    leftOver most count [] = [] := by
  cases most with
  | none => rfl
  | some n => exact List.take_nil

/-- What is written from a position on: texts in the places of matches, between what is kept. -/
def written (s : Bytes) (position : Nat) (ms : List Match) (texts : List Bytes) : Bytes :=
  weave (gapsFrom s position ms) texts (behindLast s position ms)

/-- The program that replaces matches one after the other, behind what has been written. -/
def replacing (r : Replacement) (s : Bytes) (result : Array UInt8) (position count : Nat)
    (ms : List Match) : Program H (List Value) :=
  (ms.mapM (replace r s)).bind fun texts =>
    .done [.string (result.toList ++ written s position ms texts), .nat (count + ms.length)]

theorem replacing_nil (r : Replacement) (s : Bytes) (result : Array UInt8) (position count : Nat) :
    (replacing r s result position count [] : Program H (List Value)) =
      .done [.string (result ++ s.drop position).toList, .nat count] := by
  rw [Array.toList_appendList]
  rfl

theorem replacing_cons (r : Replacement) (s : Bytes) (result : Array UInt8) (position count : Nat)
    (m : Match) (ms : List Match) :
    (replacing r s result position count (m :: ms) : Program H (List Value)) =
      (replace r s m).bind fun text =>
        replacing r s (result ++ Bytes.slice s position m.start ++ text) m.stop (count + 1) ms := by
  have hall : ((m :: ms).mapM (replace r s) : Program H (List Bytes)) =
      (replace r s m).bind fun t => (ms.mapM (replace r s)).bind fun ts => .done (t :: ts) :=
    List.mapM_cons
  rw [replacing, hall, Program.bind_assoc]
  congr 1
  funext text
  rw [Program.bind_assoc, replacing]
  congr 1
  funext texts
  have hwritten : written s position (m :: ms) (text :: texts) =
      Bytes.slice s position m.start ++ text ++ written s m.stop ms texts := weave_cons _ _ _ _ _
  show Program.done [Value.string (result.toList ++ written s position (m :: ms) (text :: texts)),
    Value.nat (count + (ms.length + 1))] = _
  rw [hwritten, Array.toList_appendList, Array.toList_appendList, Nat.add_right_comm,
    Nat.add_assoc count]
  simp only [List.append_assoc]

/-- A byte that is copied belongs to what is kept before the next match. -/
theorem replacing_copied {ms : List Match} (h : ∀ m ∈ ms.head?, position + 1 ≤ m.start)
    (r : Replacement) (result : Array UInt8) (count : Nat) :
    (replacing r s (result ++ s[position]?.toList) (position + 1) count ms :
      Program H (List Value)) = replacing r s result position count ms := by
  have hdrop : s.drop position = s[position]?.toList ++ s.drop (position + 1) := by
    cases hb : s[position]? with
    | none =>
      rw [List.getElem?_eq_none_iff] at hb
      rw [List.drop_of_length_le hb, List.drop_of_length_le (Nat.le_succ_of_le hb)]
      rfl
    | some b =>
      obtain ⟨hlt, rfl⟩ := List.getElem?_eq_some_iff.mp hb
      exact List.drop_eq_getElem_cons hlt
  have hassoc : ∀ t : Bytes,
      result ++ s[position]?.toList ++ t = result ++ (s[position]?.toList ++ t) :=
    fun t => Array.toList_inj.mp (by simp)
  cases ms with
  | nil => rw [replacing_nil, replacing_nil, hassoc, ← hdrop]
  | cons m ms =>
    have hle : position + 1 ≤ m.start := h m rfl
    have hslice : Bytes.slice s position m.start =
        s[position]?.toList ++ Bytes.slice s (position + 1) m.start := by
      cases hb : s[position]? with
      | none =>
        rw [List.getElem?_eq_none_iff] at hb
        rw [Bytes.slice, Bytes.slice, List.drop_of_length_le hb,
          List.drop_of_length_le (Nat.le_succ_of_le hb), List.take_nil, List.take_nil]
        rfl
      | some b =>
        rw [Bytes.slice, hdrop, hb, Bytes.slice,
          show m.start - position = m.start - (position + 1) + 1 by omega]
        exact List.take_succ_cons
    rw [replacing_cons, replacing_cons, hassoc, ← hslice]

theorem mem_of_mem_leftOver {found : List Match} (h : m ∈ leftOver most count found) :
    m ∈ found := by
  cases most with
  | none => exact h
  | some n => exact List.mem_of_mem_take h

/-- Without any more matches, the rest is kept. -/
theorem substitute_ends (h : (most.all fun n => (count : Int) < n.toInt) = true →
      engine.findAt x s position = none) (result : Array UInt8) :
    (substitute engine x r s anchored most result position last count : Program H (List Value)) =
      replacing r s result position count [] := by
  rw [substitute, replacing_nil]
  split
  · split
    · rfl
    · rename_i hmore m hm
      cases (h hmore).symm.trans hm
  · rfl

/-- A turn that finds a match replaces it. -/
theorem substitute_found (hmore : (most.all fun n => (count : Int) < n.toInt) = true)
    (h : engine.findAt x s position = some m)
    (hnew : ¬ (m.start = m.stop ∧ some m.stop = last)) (result : Array UInt8) :
    (substitute engine x r s anchored most result position last count : Program H (List Value)) =
      (replace r s m).bind fun text =>
        let result := result ++ Bytes.slice s position m.start ++ text
        if anchored then replacing r s result m.stop (count + 1) []
        else substitute engine x r s anchored most result m.stop (some m.stop) (count + 1) := by
  obtain ⟨-, -, hstop⟩ := Engine.findAt_bounds h
  have hin : (s.length < m.stop ∨ anchored = true) = (anchored = true) :=
    propext (or_iff_right (Nat.not_lt_of_le hstop))
  rw [substitute, if_pos hmore]
  split
  · rename_i hm
    cases h.symm.trans hm
  · rename_i m' hm
    obtain rfl := Option.some.inj (h.symm.trans hm)
    rw [if_neg hnew]
    simp only [hin, replacing_nil]
    rfl

/-- A turn that finds an empty match where the last one ended copies its byte. -/
theorem substitute_passed (hmore : (most.all fun n => (count : Int) < n.toInt) = true)
    (h : engine.findAt x s position = some m) (hpassed : m.start = m.stop ∧ some m.stop = last)
    (result : Array UInt8) :
    (substitute engine x r s false most result position last count : Program H (List Value)) =
      substitute engine x r s false most (result ++ s[m.start]?.toList) (m.start + 1) last
        count := by
  rw [substitute, if_pos hmore]
  split
  · rename_i hm
    cases h.symm.trans hm
  · rename_i m' hm
    obtain rfl := Option.some.inj (h.symm.trans hm)
    rw [if_pos hpassed]
    dsimp only
    split
    · -- behind the last byte there is nothing more to find
      rename_i hend
      have hbeyond : s.length < m.start + 1 := hend.resolve_right Bool.false_ne_true
      rw [substitute_ends fun _ => Engine.findAt_beyond hbeyond, replacing_nil]
      rfl
    · rfl

/-- **The loop.**  From each turn on, it replaces the matches that are left. -/
theorem substitute_eq (hall : Successive engine x s position last all)
    (hlast : ∀ l, last = some l → l ≤ position) (hanchored : anchored = true → last = none)
    (result : Array UInt8) (count : Nat) :
    (substitute engine x r s anchored most result position last count : Program H (List Value)) =
      replacing r s result position count
        (leftOver most count (if anchored then all.take 1 else all)) := by
  induction hall generalizing result count with
  | done h => rw [List.take_nil, ite_self, leftOver_nil, substitute_ends fun _ => h]
  | @found position last m all h hnew rest ih =>
    by_cases hmore : (most.all fun n => (count : Int) < n.toInt) = true
    case neg => rw [leftOver_of_not hmore, substitute_ends fun h => absurd h hmore]
    rw [substitute_found hmore h hnew]
    cases anchored with
    | true =>
      rw [if_pos rfl, List.take_succ_cons, List.take_zero, leftOver_cons hmore, leftOver_nil,
        replacing_cons]
      rfl
    | false =>
      have hnext : ∀ l, some m.stop = some l → l ≤ m.stop := by
        rintro _ ⟨⟩
        exact Nat.le_refl _
      rw [if_neg Bool.false_ne_true, leftOver_cons hmore, replacing_cons]
      congr 1
      funext text
      exact ih hnext nofun _ _
  | @passed position last m all h hpassed rest ih =>
    by_cases hmore : (most.all fun n => (count : Int) < n.toInt) = true
    case neg => rw [leftOver_of_not hmore, substitute_ends fun h => absurd h hmore]
    obtain ⟨hafter, -, -⟩ := Engine.findAt_bounds h
    -- the empty match stands where the last match ended and the search began
    have hle := hlast m.stop hpassed.2.symm
    obtain rfl : m.start = position := by omega
    obtain rfl : anchored = false := by
      rw [← Bool.not_eq_true]
      intro ha
      cases hpassed.2.trans (hanchored ha)
    have hbehind : ∀ m' ∈ (leftOver most count all).head?, m.start + 1 ≤ m'.start := fun m' hm' =>
      (rest.behind m' (mem_of_mem_leftOver (List.mem_of_head? hm'))).1
    rw [substitute_passed hmore h hpassed, ih (fun l hl => Nat.le_succ_of_le (hlast l hl)) nofun,
      if_neg Bool.false_ne_true, replacing_copied hbehind]

variable {args : List Value} {source : Bytes}

/-- `gsub` replaces the matches one after the other; the texts stand between what is kept. -/
theorem gsub_eq (hs : argument Bytes args 0 = .ok s) (hsource : argument Bytes args 1 = .ok source)
    (hr : replacementArgument args = .ok r) (hmost : argument? Int64 args 3 = .ok most)
    (hx : engine.compile source = .ok x) (hall : Successive engine x s 0 none all) :
    (gsub engine args : Program H (List Value)) =
      replacing r s #[] 0 0 (selected source most all) := by
  have hgsub : (gsub engine args : Program H (List Value)) =
      substitute engine x r s (source.head? == some (Ascii.byte '^')) most #[] 0 none 0 :=
    (Program.bind_of_ok hs _).trans <| (Program.bind_of_ok hsource _).trans <|
      (Program.bind_of_ok hr _).trans <| (Program.bind_of_ok hmost _).trans <|
      Program.bind_of_ok hx _
  rw [hgsub, substitute_eq hall nofun (fun _ => rfl), leftOver_zero, selected]
  simp only [beq_iff_eq]

/-! ### Runs -/

/-- What a replacement does with a match, from one world to another, when it keeps it: a template
stands for the match, or the answer of a table or a function is nil or false. -/
inductive Keeps (B : Behaviour H) (s : Bytes) (w : World H) (m : Match) :
    Replacement → World H → Prop
  | template {pieces} (h : Lua.Replacement.parse (Bytes.ofString "%0") = .ok pieces) :
      Keeps B s w m (.template pieces) w
  | table {t v} (h : w.memory.heap.index (.table t) (Values.first (m.values s)) = .ok v)
      (hv : v = .nil ∨ v = .boolean false) : Keeps B s w m (.table t) w
  | function {f vs w'} (h : w.Call B (.function f) (m.values s) (.ok vs) w')
      (hv : Values.first vs = .nil ∨ Values.first vs = .boolean false) :
      Keeps B s w m (.function f) w'

/-- A replacement that keeps all matches, one after the other. -/
inductive KeepsAll (B : Behaviour H) (s : Bytes) (r : Replacement) :
    World H → List Match → World H → Prop
  | nil {w} : KeepsAll B s r w [] w
  | cons {w m w₁ ms w'} (h : Keeps B s w m r w₁) (rest : KeepsAll B s r w₁ ms w') :
      KeepsAll B s r w (m :: ms) w'

variable {B : Behaviour H} {w w' : World H} {m : Match}

theorem answerText_kept {v : Value} (hv : v = .nil ∨ v = .boolean false) :
    answerText m s v = .ok (m.whole s) := by
  rcases hv with rfl | rfl
  · rfl
  · rfl

theorem Keeps.runs (h : Keeps B s w m r w') :
    Program.Runs B w (replace r s m) (.ok (m.whole s)) w' := by
  cases h with
  | template h =>
    have hpieces : Lua.Replacement.parse (Bytes.ofString "%0") = .ok [.capture 0] := rfl
    obtain rfl := Except.ok.inj (hpieces.symm.trans h)
    have hpiece : Lua.Replacement.expandPiece m s (.capture 0) = .ok (m.whole s) := by
      simp [Lua.Replacement.expandPiece, Match.capture?]
    have hexpand : Lua.Replacement.expand m s [.capture 0] = .ok (m.whole s) := by
      rw [Lua.Replacement.expand, List.mapM_cons, hpiece]
      exact congrArg Except.ok List.flatten_singleton
    rw [replace, hexpand]
    exact .done
  | @table t v h hv =>
    have hreplace : (replace (.table t) s m : Program H Bytes) = .read fun w =>
        (Program.ofArgument (w.memory.heap.index (.table t) (Values.first (m.values s)))).bind
          fun v => Program.ofCause (answerText m s v) := rfl
    rw [hreplace]
    refine .read ?_
    rw [h]
    show Program.Runs B w (Program.ofCause (answerText m s v)) _ w
    rw [answerText_kept hv]
    exact .done
  | @function f vs w' h hv =>
    have hreplace : (replace (.function f) s m : Program H Bytes) =
        (Program.callOrFail (.function f) (m.values s)).bind fun vs =>
          Program.ofCause (answerText m s (Values.first vs)) := rfl
    rw [hreplace]
    refine .call h ?_
    show Program.Runs B w' (Program.ofCause (answerText m s (Values.first vs))) _ w'
    rw [answerText_kept hv]
    exact .done

theorem KeepsAll.runs {ms : List Match} (h : KeepsAll B s r w ms w') :
    Program.Runs B w (ms.mapM (replace r s)) (.ok (ms.map (·.whole s))) w' := by
  induction h with
  | nil => exact .done
  | @cons w m w₁ ms w' h _ ih =>
    rw [List.mapM_cons]
    exact h.runs.bind (ih.bind .done)

/-- **`gsub` rebuilds the subject.**  The matches that are replaced cut it up.  A run replaces them
one after the other; if it fails, a replacement has failed, and otherwise the result is the texts
they are replaced by, between the bytes that are kept, with the number of matches.  If each match
is kept, that is the subject. -/
theorem gsub_rebuilds (B : Behaviour H) (hs : argument Bytes args 0 = .ok s)
    (hsource : argument Bytes args 1 = .ok source) (hr : replacementArgument args = .ok r)
    (hmost : argument? Int64 args 3 = .ok most) (hx : engine.compile source = .ok x) :
    ∃ all ms gaps tail, Successive engine x s 0 none all ∧ all.length ≤ s.length + 1 ∧
      ms = selected source most all ∧ Cut s ms gaps tail ∧
      (∀ w vs w', Program.Runs B w (gsub engine args) (.ok vs) w' ↔
        ∃ ts, Program.Runs B w (ms.mapM (replace r s)) (.ok ts) w' ∧
          vs = [.string (weave gaps ts tail), .nat ms.length]) ∧
      (∀ w e w', Program.Runs B w (gsub engine args) (.error e) w' ↔
        Program.Runs B w (ms.mapM (replace r s)) (.error e) w') ∧
      ∀ w w', KeepsAll B s r w ms w' →
        Program.Runs B w (gsub engine args) (.ok [.string s, .nat ms.length]) w' := by
  obtain ⟨all, hall⟩ := Regex.exists_successive engine x s 0 none
  have hlen := hall.length_le (Nat.zero_le _)
  have horder : InOrder s 0 all := hall.inOrder (Nat.le_refl 0) (Nat.zero_le _)
  have hcut := cut_inOrder (inOrder_selected source most horder)
  have heq : (gsub engine args : Program H (List Value)) =
      ((selected source most all).mapM (replace r s)).bind fun ts =>
        .done [.string (written s 0 (selected source most all) ts),
          .nat (selected source most all).length] := by
    rw [gsub_eq hs hsource hr hmost hx hall, replacing, Nat.zero_add]
    rfl
  refine ⟨all, _, _, _, hall, hlen, rfl, hcut, fun w vs w' => ?_, fun w e w' => ?_,
    fun w w' hkeeps => ?_⟩
  · rw [heq, Program.runs_bind_iff]
    constructor
    · rintro (⟨ts, w₁, hts, hdone⟩ | ⟨e, he, -⟩)
      · obtain ⟨hvs, rfl⟩ := Program.runs_done_iff.mp hdone
        exact ⟨ts, hts, Except.ok.inj hvs⟩
      · cases he
    · rintro ⟨ts, hts, rfl⟩
      exact .inl ⟨ts, w', hts, .done⟩
  · rw [heq, Program.runs_bind_iff]
    constructor
    · rintro (⟨ts, w₁, -, hdone⟩ | ⟨e', he, hfail⟩)
      · cases (Program.runs_done_iff.mp hdone).1
      · rwa [Except.error.inj he]
    · exact fun hfail => .inr ⟨e, rfl, hfail⟩
  · rw [heq]
    refine hkeeps.runs.bind ?_
    rw [written, hcut.whole]
    exact .done

/-- The arguments of `gsub("abc", "b*", "%0")`. -/
def keepRowsOfB : List Value :=
  [.string (Bytes.ofString "abc"), .string (Bytes.ofString "b*"), .string (Bytes.ofString "%0")]

/-- The expression of the pattern `b*`. -/
def rowsOfB : Regex := ⟨"(?s-u)b*".toList⟩

theorem compile_rowsOfB : Engine.backtracking.compile (Bytes.ofString "b*") = .ok rowsOfB := by
  decide +kernel

/-- The matches of `b*` in `abc`; the empty ones behind a match are passed. -/
theorem successive_rowsOfB : Successive Engine.backtracking rowsOfB (Bytes.ofString "abc") 0 none
    [⟨0, 0, []⟩, ⟨1, 2, []⟩, ⟨3, 3, []⟩] := by
  exact .found (by decide +kernel) (by decide) <|
    .passed (m := ⟨0, 0, []⟩) (by decide +kernel) (by decide) <|
    .found (by decide +kernel) (by decide) <|
    .passed (m := ⟨2, 2, []⟩) (by decide +kernel) (by decide) <|
    .found (by decide +kernel) (by decide) <|
    .passed (m := ⟨3, 3, []⟩) (by decide +kernel) (by decide) <| .done (by decide +kernel)

/-- Three matches, two of them empty, are kept. -/
theorem gsub_rebuilds_rowsOfB :
    Engine.backtracking.compile (Bytes.ofString "b*") = .ok rowsOfB ∧
      Program.Runs Behaviour.bare World.bare (gsub Engine.backtracking keepRowsOfB)
        (.ok [.string (Bytes.ofString "abc"), .nat 3]) World.bare := by
  have hs : argument Bytes keepRowsOfB 0 = .ok (Bytes.ofString "abc") := rfl
  have hsource : argument Bytes keepRowsOfB 1 = .ok (Bytes.ofString "b*") := rfl
  have hr : replacementArgument keepRowsOfB = .ok (.template [.capture 0]) := rfl
  have hmost : argument? Int64 keepRowsOfB 3 = .ok none := rfl
  obtain ⟨all, ms, gaps, tail, hall, -, rfl, -, -, -, hkeep⟩ :=
    gsub_rebuilds Behaviour.bare hs hsource hr hmost compile_rowsOfB
  obtain rfl := hall.unique successive_rowsOfB
  exact ⟨compile_rowsOfB, hkeep .bare .bare <| .cons (.template rfl) <| .cons (.template rfl) <|
    .cons (.template rfl) .nil⟩

end Library.Strings

end Lua
