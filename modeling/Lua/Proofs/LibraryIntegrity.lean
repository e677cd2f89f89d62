/-
The standard libraries raise no internal errors.

Library functions fail because of their arguments, with errors of their own, or with an error that
a call or a resume has answered.  So they are sound whatever is trusted of the host:

* one theorem for every library, by cases on its functions;
* `Library.sound_run` — all of them at once;
* `Behaviour.sound_standard` — so the standard behaviour is sound if the host is honest.
-/
import Lua.Proofs.Integrity

namespace Lua

variable {H : Host} {T : Trust H} {α : Type}

open Program

namespace Library

/-- The text of a value: what `__tostring` answers need not be text, but that is no internal
error. -/
theorem sound_textOf (v : Value) : (textOf v : Program H Bytes).Sound T fun _ => True := by
  simp only [textOf, sound_bind, sound_heap]
  intro w _
  cases w.memory.heap.metafield v "__tostring" with
  | none =>
    dsimp only
    split
    · trivial
    · trivial
  | some metamethod =>
    simp only [sound_bind, sound_callOrFail]
    intro vs
    split
    · trivial
    · trivial
    · rfl

/-! ### The base library -/

namespace Base

theorem sound_assert (args : List Value) :
    (assert args : Program H (List Value)).Sound T fun _ => True := by
  simp only [assert, sound_bind, sound_liftM_argument, sound_ite, sound_pure, implies_true,
    true_and]
  intro v _ _
  cases args[1]? with
  | none => rfl
  | some message => rfl

theorem sound_getmetatable (args : List Value) :
    (getmetatable args : Program H (List Value)).Sound T fun _ => True := by
  simp only [getmetatable, sound_bind, sound_liftM_argument, sound_heap]
  intro v _ w _
  cases w.memory.heap.metatable? v with
  | none => trivial
  | some m =>
    dsimp only
    cases (w.memory.heap.field m guardField).notNil? with
    | none => trivial
    | some guard => trivial

theorem sound_setmetatable (args : List Value) :
    (setmetatable args : Program H (List Value)).Sound T fun _ => True := by
  simp only [setmetatable, sound_bind, sound_liftM_argument, sound_heap]
  intro t _ m _ w _
  cases w.memory.heap.metatable? (.table t) with
  | none => simp
  | some current => simp

theorem sound_next (args : List Value) :
    (next args : Program H (List Value)).Sound T fun _ => True := by
  simp only [next, sound_bind, sound_liftM_argument, sound_table]
  intro t _ w _ entry _
  cases entry with
  | none => trivial
  | some entry => trivial

theorem sound_pairs (args : List Value) :
    (pairs args : Program H (List Value)).Sound T fun _ => True := by
  simp only [pairs, sound_bind, sound_liftM_argument, sound_heap]
  intro v _ w _
  cases w.memory.heap.metafield v "__pairs" with
  | none => simp
  | some metamethod => simp

theorem sound_rawlen (args : List Value) :
    (rawlen args : Program H (List Value)).Sound T fun _ => True := by
  unfold rawlen
  split
  · simp
  · trivial
  · rfl

theorem sound_tonumber (args : List Value) :
    (tonumber args : Program H (List Value)).Sound T fun _ => True := by
  simp only [tonumber, sound_bind, sound_liftM_argument]
  intro base _
  cases base with
  | none => simp
  | some base => simp

theorem sound_line (vs : List Value) : (line vs : Program H Bytes).Sound T fun _ => True := by
  induction vs with
  | nil => trivial
  | cons v rest ih =>
    cases rest with
    | nil => exact sound_textOf v
    | cons u rest =>
      simp only [line, sound_bind, sound_pure]
      exact (sound_textOf v).imp fun _ _ => ih

theorem sound_print (args : List Value) :
    (print args : Program H (List Value)).Sound T fun _ => True := by
  simp only [print, sound_bind, sound_memory, sound_setMemory, sound_pure]
  exact (sound_line args).imp fun _ _ w hw => ⟨hw.shared, trivial⟩

theorem sound_run (f : BaseFunction) (args : List Value) :
    (run f args : Program H (List Value)).Sound T fun _ => True := by
  cases f with
  | assert => exact sound_assert args
  | collectgarbage => simp [run, collectgarbage]
  | error => simp [run, error]
  | getmetatable => exact sound_getmetatable args
  | ipairs => simp [run, ipairs]
  | next => exact sound_next args
  | pairs => exact sound_pairs args
  | print => exact sound_print args
  | rawequal => simp [run, rawequal]
  | rawget => simp [run, rawget]
  | rawlen => exact sound_rawlen args
  | rawset => simp [run, rawset]
  | select => simp [run, select]
  | setmetatable => exact sound_setmetatable args
  | tonumber => exact sound_tonumber args
  | tostring =>
    simp only [run, tostring, sound_bind, sound_liftM_argument, sound_pure]
    exact fun v _ => sound_textOf v
  | type => simp [run, type]
  | ipairsStep => simp [run, ipairsStep]

end Base

/-! ### The table library -/

namespace Tables

theorem sound_insert (args : List Value) :
    (insert args : Program H (List Value)).Sound T fun _ => True := by
  simp only [insert, sound_bind, sound_liftM_argument, sound_table]
  intro t _ w _
  split
  · simp
  · simp
  · rfl

theorem sound_less (comparator : Option Function) (a b : Value) :
    (less comparator a b : Program H Bool).Sound T fun _ => True := by
  cases comparator with
  | none => simp [less]
  | some f => simp [less]

/-- A sort is sound if its comparisons are. -/
theorem sound_merge {less : Value → Value → Program H Bool}
    (h : ∀ a b, (less a b).Sound T fun _ => True) (left right : List Value) :
    (Sort.merge less left right).Sound T fun _ => True := by
  fun_induction Sort.merge less left right with
  | case1 rs => trivial
  | case2 ls => trivial
  | case3 l ls r rs ihr ihl =>
    simp only [sound_bind]
    refine (h r l).imp fun first _ => ?_
    cases first with
    | true => simpa using ihr
    | false => simpa using ihl

theorem sound_mergeSort {less : Value → Value → Program H Bool}
    (h : ∀ a b, (less a b).Sound T fun _ => True) (vs : List Value) :
    (Sort.mergeSort less vs).Sound T fun _ => True := by
  fun_induction Sort.mergeSort less vs with
  | case1 => trivial
  | case2 => trivial
  | case3 x y rest all half ihl ihr =>
    simp only [sound_bind]
    exact ihl.imp fun left _ => ihr.imp fun right _ => sound_merge h left right

theorem sound_sort (args : List Value) :
    (sort args : Program H (List Value)).Sound T fun _ => True := by
  simp only [sort, sound_bind, sound_liftM_argument]
  intro t _
  split
  · simp only [sound_table, sound_bind, sound_setTable, sound_pure, implies_true]
    exact fun w _ => sound_mergeSort (sound_less none) _
  · simp only [sound_table, sound_bind, sound_setTable, sound_pure, implies_true]
    exact fun w _ => sound_mergeSort (sound_less (some _)) _
  · rfl

theorem sound_run (f : TableFunction) (args : List Value) :
    (run f args : Program H (List Value)).Sound T fun _ => True := by
  cases f with
  | concat => simp [run, concat]
  | insert => exact sound_insert args
  | move => simp [run, move]
  | pack => simp [run, pack]
  | remove => simp [run, remove]
  | sort => exact sound_sort args
  | unpack => simp [run, unpack]

end Tables

/-! ### The string library -/

namespace Strings

theorem isInternal_of_reserve {size : Nat} {c : Cause} (h : reserve size = .error c) :
    c.isInternal = false := by
  unfold reserve at h
  split at h
  · cases h
    rfl
  · split at h
    · cases h
      rfl
    · split at h
      · cases h
        rfl
      · cases h

theorem isInternal_of_answerText {m : Match} {s : Bytes} {v : Value} {c : Cause}
    (h : answerText m s v = .error c) : c.isInternal = false := by
  unfold answerText at h
  split at h
  all_goals cases h
  rfl

theorem sound_rep (args : List Value) :
    (rep args : Program H (List Value)).Sound T fun _ => True := by
  simp only [rep, sound_bind, sound_liftM_argument, sound_liftM_cause, sound_ite, sound_pure,
    implies_true, true_and]
  exact fun _ _ _ _ _ _ _ c hc => isInternal_of_reserve hc

theorem sound_find (engine : Regex.Engine) (args : List Value) :
    (find engine args : Program H (List Value)).Sound T fun _ => True := by
  simp only [find, sound_bind, sound_liftM_argument, sound_ite, sound_pure, implies_true, true_and]
  rintro ⟨s, pattern, init⟩ _ _ _ found _
  cases found with
  | none => trivial
  | some m => trivial

theorem sound_matchPattern (engine : Regex.Engine) (args : List Value) :
    (matchPattern engine args : Program H (List Value)).Sound T fun _ => True := by
  simp only [matchPattern, sound_bind, sound_liftM_argument, sound_ite, sound_pure, implies_true,
    true_and]
  rintro ⟨s, pattern, init⟩ _ _ found _
  cases found with
  | none => trivial
  | some m => trivial

theorem sound_gmatch (engine : Regex.Engine) (args : List Value) :
    (gmatch engine args : Program H (List Value)).Sound T fun _ => True := by
  simp only [gmatch, sound_bind, sound_liftM_argument, sound_memory, sound_setMemory,
    sound_createFunction, sound_pure]
  exact fun _ _ _ _ w hw => ⟨hw.shared, trivial, fun _ => trivial⟩

theorem sound_walkStep (engine : Regex.Engine) (cell : Nat) :
    (walkStep engine cell : Program H (List Value)).Sound T fun _ => True := by
  simp only [walkStep, sound_bind, sound_memory]
  intro w hw
  cases w.memory.walks[cell]? with
  | none => trivial
  | some walk =>
    simp only [sound_bind, sound_setMemory]
    refine ⟨hw.shared, ?_⟩
    cases (walk.next engine).1 with
    | none => trivial
    | some found => trivial

theorem sound_replace (r : Replacement) (s : Bytes) (m : Match) :
    (replace r s m : Program H Bytes).Sound T fun _ => True := by
  cases r with
  | template pieces => simp [replace]
  | table t =>
    simp only [replace, sound_bind, sound_heap, sound_liftM_argument, sound_liftM_cause]
    exact fun w _ v _ => ⟨fun _ _ => trivial, fun c hc => isInternal_of_answerText hc⟩
  | function f =>
    simp only [replace, sound_bind, sound_callOrFail, sound_liftM_cause]
    exact fun vs => ⟨fun _ _ => trivial, fun c hc => isInternal_of_answerText hc⟩

theorem sound_substitute (engine : Regex.Engine) (x : Regex) (r : Replacement) (s : Bytes)
    (anchored : Bool) (most : Option Int64) (result : Array UInt8) (position : Nat)
    (lastEnd : Option Nat) (count : Nat) :
    (substitute engine x r s anchored most result position lastEnd count :
      Program H (List Value)).Sound T fun _ => True := by
  fun_induction @substitute H engine x r s anchored most result position lastEnd count with
  | case1 => trivial
  | case2 => trivial
  | case3 _ _ _ _ _ _ _ _ _ _ ih => exact ih
  | case4 _ _ _ _ _ _ m _ _ _ ih =>
    simp only [sound_bind]
    refine (sound_replace r s m).imp fun replaced _ => ?_
    rw [sound_ite]
    exact ⟨fun _ => trivial, ih replaced⟩
  | case5 => trivial

theorem sound_gsub (engine : Regex.Engine) (args : List Value) :
    (gsub engine args : Program H (List Value)).Sound T fun _ => True := by
  simp only [gsub, sound_bind, sound_liftM_argument]
  exact fun s _ _ _ r _ most _ x _ => sound_substitute engine x r s _ most _ _ _ _

theorem sound_convertArgument (c : Conversion) (args : List Value) (i : Nat) :
    (convertArgument c args i : Program H Bytes).Sound T fun _ => True := by
  simp only [convertArgument, sound_ite, sound_raise]
  refine ⟨fun _ => rfl, fun _ => ?_⟩
  split
  · rfl
  · simp
  · simp
  · simp
  · simp
  · simp only [sound_bind, sound_liftM_argument, sound_pure]
    exact fun v _ => sound_textOf v

theorem sound_formatPieces (args : List Value) (i : Nat) (pieces : List FormatPiece) :
    (formatPieces args i pieces : Program H Bytes).Sound T fun _ => True := by
  induction pieces generalizing i with
  | nil => trivial
  | cons piece pieces ih =>
    cases piece with
    | literal s =>
      simp only [formatPieces, sound_bind, sound_pure]
      exact ih i
    | conversion c =>
      simp only [formatPieces, sound_bind, sound_pure]
      exact (sound_convertArgument c args i).imp fun _ _ => ih (i + 1)

theorem sound_run (engine : Regex.Engine) (f : StringFunction) (args : List Value) :
    (run engine f args : Program H (List Value)).Sound T fun _ => True := by
  cases f with
  | byte => simp [run, byte]
  | char => simp [run, char]
  | find => exact sound_find engine args
  | format =>
    simp only [run, format, sound_bind, sound_liftM_argument, sound_pure]
    exact fun _ _ pieces _ => sound_formatPieces args 1 pieces
  | gmatch => exact sound_gmatch engine args
  | gsub => exact sound_gsub engine args
  | len => simp [run, len]
  | lower => simp [run, lower]
  | matchPattern => exact sound_matchPattern engine args
  | rep => exact sound_rep args
  | reverse => simp [run, reverse]
  | sub => simp [run, sub]
  | upper => simp [run, upper]

end Strings

/-! ### The UTF-8 library -/

namespace Utf8s

/-- Reading fails with one error. -/
theorem isInternal_of_codesUpTo {strict : Bool} {s : Bytes} {stop : Int} {codes : Array Nat}
    {offset : Nat} {c : Cause} (h : codesUpTo strict s stop codes offset = .error c) :
    c.isInternal = false := by
  fun_induction codesUpTo strict s stop codes offset with
  | case1 _ _ _ _ _ _ ih => exact ih h
  | case2 =>
    cases h
    rfl
  | case3 => cases h

theorem sound_codepoint (args : List Value) :
    (codepoint args : Program H (List Value)).Sound T fun _ => True := by
  simp only [codepoint, sound_bind, sound_liftM_argument, sound_liftM_cause, sound_ite, sound_raise]
  exact fun s _ i _ j _ => ⟨fun _ => rfl, fun _ => ⟨fun _ => rfl, fun _ =>
    ⟨fun _ _ => trivial, fun _ hc => isInternal_of_codesUpTo hc⟩⟩⟩

theorem sound_codesStep (strict : Bool) (args : List Value) :
    (codesStep strict args : Program H (List Value)).Sound T fun _ => True := by
  simp only [codesStep, sound_bind, sound_liftM_argument, sound_ite, sound_pure, implies_true,
    true_and]
  intro s _ i _ _ _
  split
  · simp [invalidCode]
  · rfl

theorem sound_run (f : Utf8Function) (args : List Value) :
    (run f args : Program H (List Value)).Sound T fun _ => True := by
  cases f with
  | char => simp [run, char]
  | codepoint => exact sound_codepoint args
  | codes => simp [run, codes, invalidCode]
  | len => simp [run, len]
  | offset => simp [run, offset]
  | codesStep strict => exact sound_codesStep strict args

end Utf8s

/-! ### The mathematical library -/

namespace Mathematics

theorem sound_draw (f : Generator → α × Generator) :
    (draw f : Program H α).Sound T fun _ => True := by
  simp only [draw, sound_bind, sound_memory, sound_setMemory, sound_pure]
  exact fun w hw => ⟨hw.shared, trivial⟩

theorem sound_randomBetween (lo hi : Int64) (index : Nat) :
    (randomBetween lo hi index : Program H (List Value)).Sound T fun _ => True := by
  simp only [randomBetween, sound_ite, sound_raise, sound_bind, sound_pure]
  exact ⟨fun _ => rfl, fun _ => sound_draw _⟩

theorem sound_random (args : List Value) :
    (random args : Program H (List Value)).Sound T fun _ => True := by
  unfold random
  split
  · simp only [sound_bind, sound_pure]
    exact sound_draw _
  · simp only [sound_bind, sound_liftM_argument, sound_ite, sound_pure]
    exact fun hi _ => ⟨fun _ => sound_draw _, fun _ => sound_randomBetween 1 hi 0⟩
  · simp only [sound_bind, sound_liftM_argument]
    exact fun lo _ hi _ => sound_randomBetween lo hi 1
  · rfl

theorem sound_fmod (args : List Value) :
    (fmod args : Program H (List Value)).Sound T fun _ => True := by
  simp only [fmod, sound_bind, sound_liftM_argument]
  intro a _ b _
  split
  · simp
  · trivial

theorem sound_modf (args : List Value) :
    (modf args : Program H (List Value)).Sound T fun _ => True := by
  simp only [modf, sound_bind, sound_liftM_argument]
  intro x _
  cases x with
  | int n => trivial
  | float x => trivial

theorem sound_randomseed (args : List Value) :
    (randomseed args : Program H (List Value)).Sound T fun _ => True := by
  simp only [randomseed, sound_bind, sound_liftM_argument]
  intro n _
  cases n with
  | none =>
    simp only [sound_bind, sound_memory, sound_setMemory, sound_pure]
    exact (sound_draw _).imp fun seed _ w hw => ⟨hw.shared, trivial⟩
  | some n =>
    simp only [sound_bind, sound_liftM_argument, sound_memory, sound_setMemory, sound_pure]
    exact fun high _ w hw => ⟨hw.shared, trivial⟩

theorem sound_type (args : List Value) :
    (type args : Program H (List Value)).Sound T fun _ => True := by
  simp only [type, sound_bind, sound_liftM_argument]
  intro v _
  split
  · trivial
  · trivial
  · trivial

theorem sound_run (f : MathFunction) (args : List Value) :
    (run f args : Program H (List Value)).Sound T fun _ => True := by
  have hnumber : ∀ g, (onNumber g args : Program H (List Value)).Sound T fun _ => True := by
    simp [onNumber]
  have hfloat : ∀ g, (onFloat g args : Program H (List Value)).Sound T fun _ => True := by
    simp [onFloat]
  cases f with
  | abs | ceil | floor => exact hnumber _
  | acos | asin | cos | deg | exp | rad | sin | sqrt | tan => exact hfloat _
  | atan => simp [run, atan]
  | fmod => exact sound_fmod args
  | log => simp [run, log]
  | max => simp [run, max]
  | min => simp [run, min]
  | modf => exact sound_modf args
  | random => exact sound_random args
  | randomseed => exact sound_randomseed args
  | tointeger => simp [run, tointeger]
  | type => exact sound_type args
  | ult => simp [run, ult]

end Mathematics

/-! ### The coroutine library -/

namespace Coroutines

theorem sound_resume (args : List Value) :
    (resume args : Program H (List Value)).Sound T fun _ => True := by
  simp only [resume, sound_bind, sound_liftM_argument]
  intro t _ r hr
  cases r with
  | ok vs => trivial
  | error e => trivial

theorem sound_close (args : List Value) :
    (close args : Program H (List Value)).Sound T fun _ => True := by
  simp only [close, sound_bind, sound_liftM_argument]
  intro t _ r hr
  cases r with
  | ok u => trivial
  | error e => exact hr e rfl

/-- A wrapped coroutine passes its error on, which is not internal if that of the resume is not. -/
theorem sound_callWrapped (t : ThreadId) (args : List Value) :
    (callWrapped t args : Program H (List Value)).Sound T fun _ => True := by
  intro r hr
  match r with
  | .ok vs => trivial
  | .error (.uncaught e) => exact hr _ rfl
  | .error (.refused e) => exact hr _ rfl

theorem sound_run (f : CoroutineFunction) (args : List Value) :
    (run f args : Program H (List Value)).Sound T fun _ => True := by
  cases f with
  | close => exact sound_close args
  | create => simp [run, create]
  | isyieldable => simp [run, isyieldable]
  | resume => exact sound_resume args
  | running => simp [run, running]
  | status => simp [run, status]
  | wrap => simp [run, wrap, Closure.Trusted]

end Coroutines

/-! ### The debug library -/

namespace Debugging

theorem sound_traceback (args : List Value) :
    (traceback args : Program H (List Value)).Sound T fun _ => True := by
  simp only [traceback, sound_bind, sound_world]
  intro w _
  obtain ⟨t, rest, moved⟩ := threadArgument w args
  dsimp only
  split
  · simp
  · simp
  · simp
  · trivial

theorem sound_getinfo (args : List Value) :
    (getinfo args : Program H (List Value)).Sound T fun _ => True := by
  simp only [getinfo, sound_bind, sound_world]
  intro w _
  obtain ⟨t, rest, moved⟩ := threadArgument w args
  dsimp only
  split
  · simp
  · simp only [sound_bind, sound_liftM_argument]
    intro n _
    split
    · simp
    · trivial
  · rfl

theorem isInternal_of_withMetatable {h : Heap} {v : Value} {m : Option TableId} {c : Cause}
    (hc : withMetatable h v m = .error c) : c.isInternal = false := by
  cases v with
  | nil =>
    cases hc
    rfl
  | boolean | number | string | function | thread | table => cases hc

theorem sound_setmetatable (args : List Value) :
    (setmetatable args : Program H (List Value)).Sound T fun _ => True := by
  simp only [setmetatable, sound_bind, sound_liftM_argument, sound_liftM_cause, sound_heap,
    sound_setHeap, sound_pure, implies_true, true_and]
  exact fun v _ m _ w _ c hc => isInternal_of_withMetatable hc

theorem sound_run (f : DebugFunction) (args : List Value) :
    (run f args : Program H (List Value)).Sound T fun _ => True := by
  cases f with
  | getinfo => exact sound_getinfo args
  | getmetatable => simp [run, getmetatable]
  | setmetatable => exact sound_setmetatable args
  | traceback => exact sound_traceback args

end Debugging

/-- **Every library function** is sound. -/
theorem sound_run (engine : Regex.Engine) (b : Builtin) (args : List Value) :
    (run engine b args : Program H (List Value)).Sound T fun _ => True := by
  cases b with
  | base f => exact Base.sound_run f args
  | table f => exact Tables.sound_run f args
  | string f => exact Strings.sound_run engine f args
  | utf8 f => exact Utf8s.sound_run f args
  | math f => exact Mathematics.sound_run f args
  | coroutine f => exact Coroutines.sound_run f args
  | debug f => exact Debugging.sound_run f args

/-! ### Protected calls and yields -/

theorem trusted_pollYield (suspended : Bool) (input : List Value) :
    (pollYield suspended input : Step H).Trusted T := by
  cases suspended with
  | true => trivial
  | false => trivial

theorem trusted_pollProtected {p : ProtectedCall} {input : List Value} {s : Step H}
    (h : pollProtected p input = .ok s) : s.Trusted T := by
  cases p with
  | calling handler =>
    cases h
    trivial
  | handling =>
    cases h
    trivial
  | start withHandler =>
    simp only [pollProtected] at h
    cases hf : anyArgument input 0 with
    | error e =>
      rw [hf] at h
      cases h
    | ok f =>
      rw [hf] at h
      cases withHandler with
      | false =>
        cases h
        trivial
      | true =>
        cases hg : anyArgument input 1 with
        | error e =>
          rw [hg] at h
          cases h
        | ok handler =>
          rw [hg] at h
          cases h
          trivial

theorem sound_recoverProtected (p : ProtectedCall) {e : TracedError} (he : e.isInternal = false) :
    (recoverProtected p e : Program H (Step H)).Sound T (Step.Trusted T) := by
  cases p with
  | start withHandler => exact he
  | handling => trivial
  | calling handler =>
    cases handler with
    | none => trivial
    | some h => trivial

end Library

/-! ### The standard behaviour -/

/-- **The standard behaviour** is sound if the code of the host is. -/
theorem Behaviour.sound_standard {host : HostCode H} (hh : host.Honest T) :
    (standard host).Sound T where
  builtin := Library.sound_run host.engine
  native c hc args := by
    cases c with
    | wrap t => exact Library.Coroutines.sound_callWrapped t args
    | walk cell => exact Library.Strings.sound_walkStep host.engine cell
    | host name code => exact hh.native code hc args
  start c hc := by
    cases c with
    | protectedCall withHandler => trivial
    | yield => trivial
    | host name code => exact hh.start code hc
  poll a ha input := by
    cases a with
    | protectedCall p =>
      exact sound_ofArgument.mpr fun s hs => Library.trusted_pollProtected hs
    | yield suspended => exact Library.trusted_pollYield suspended input
    | host state => exact hh.poll state ha input
  recover a ha e he := by
    cases a with
    | protectedCall p => exact Library.sound_recoverProtected p he
    | yield suspended => exact he
    | host state => exact hh.recover state ha e he
  advance := hh.advance

end Lua
