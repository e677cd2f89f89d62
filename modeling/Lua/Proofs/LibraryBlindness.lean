/-
The standard libraries observe neither frames nor traces.

Library functions read the memory, and the coroutine library reads statuses and counters.  Of an
error they are given they pass on the whole, or show the value of its cause.  There are two
exceptions, and telling frames is what they are for:

* `Builtin.IsObserver` — the functions that report about frames;
* one theorem for every library, by cases on its functions;
* `Library.blind_run` — all other functions are blind.

Design notes: errors reach a protected call, too, and it looks at their values.  A program does not
tell errors apart that have the same cause, so the rules for requests cover every function that
lets an error pass.
-/
import Lua.Library.Registry
import Lua.Proofs.FrameBlindness

namespace Lua

variable {H : Host} {α : Type}

open Program

/-- The built-in functions that report about the frames of threads. -/
def Builtin.IsObserver (b : Builtin) : Prop := b = .debug .traceback ∨ b = .debug .getinfo

instance (b : Builtin) : Decidable b.IsObserver := inferInstanceAs (Decidable (_ ∨ _))

namespace Library

theorem blind_textOf (v : Value) : (textOf v : Program H Bytes).Blind := by
  simp only [textOf, blind_heap_bind]
  intro w
  split
  · simp only [blind_callOrFail_bind]
    intro vs
    split <;> simp
  · split <;> simp

/-! ### The base library -/

namespace Base

theorem blind_assert (args : List Value) : (assert args : Program H (List Value)).Blind := by
  simp only [assert, blind_argument_bind, blind_ite, blind_pure, implies_true, true_and]
  intro v _ _
  split <;> simp

theorem blind_getmetatable (args : List Value) :
    (getmetatable args : Program H (List Value)).Blind := by
  simp only [getmetatable, blind_argument_bind, blind_heap_bind]
  intro v _ w
  split
  · simp
  · split <;> simp

theorem blind_setmetatable (args : List Value) :
    (setmetatable args : Program H (List Value)).Blind := by
  simp only [setmetatable, blind_argument_bind, blind_heap_bind]
  intro t _ m _ w
  split <;> simp

theorem blind_next (args : List Value) : (next args : Program H (List Value)).Blind := by
  simp only [next, blind_argument_bind, blind_table_bind]
  intro t _ w entry _
  split <;> simp

theorem blind_pairs (args : List Value) : (pairs args : Program H (List Value)).Blind := by
  simp only [pairs, blind_argument_bind, blind_heap_bind]
  intro v _ w
  split <;> simp

theorem blind_rawlen (args : List Value) : (rawlen args : Program H (List Value)).Blind := by
  unfold rawlen
  split <;> simp

theorem blind_tonumber (args : List Value) : (tonumber args : Program H (List Value)).Blind := by
  simp only [tonumber, blind_argument_bind]
  intro base _
  split <;> simp

theorem blind_line (vs : List Value) : (line vs : Program H Bytes).Blind := by
  fun_induction line vs with
  | case1 => simp
  | case2 v => exact blind_textOf v
  | case3 v rest _ ih =>
    exact blind_bind (blind_textOf v) fun s => blind_bind ih fun others => blind_pure _

theorem blind_print (args : List Value) : (print args : Program H (List Value)).Blind :=
  blind_bind (blind_line args) fun s => by simp

theorem blind_tostring (args : List Value) : (tostring args : Program H (List Value)).Blind := by
  simp only [tostring, blind_argument_bind]
  exact fun v _ => blind_bind (blind_textOf v) fun s => blind_pure _

theorem blind_run (f : BaseFunction) (args : List Value) :
    (run f args : Program H (List Value)).Blind := by
  cases f with
  | assert => exact blind_assert args
  | collectgarbage => simp [run, collectgarbage]
  | error => simp [run, error]
  | getmetatable => exact blind_getmetatable args
  | ipairs => simp [run, ipairs]
  | next => exact blind_next args
  | pairs => exact blind_pairs args
  | print => exact blind_print args
  | rawequal => simp [run, rawequal]
  | rawget => simp [run, rawget]
  | rawlen => exact blind_rawlen args
  | rawset => simp [run, rawset]
  | select => simp [run, select]
  | setmetatable => exact blind_setmetatable args
  | tonumber => exact blind_tonumber args
  | tostring => exact blind_tostring args
  | type => simp [run, type]
  | ipairsStep => simp [run, ipairsStep]

end Base

/-! ### The table library -/

namespace Tables

theorem blind_insert (args : List Value) : (insert args : Program H (List Value)).Blind := by
  simp only [insert, blind_argument_bind, blind_table_bind]
  intro t _ w
  split <;> simp

theorem blind_less (comparator : Option Function) (a b : Value) :
    (less comparator a b : Program H Bool).Blind := by
  cases comparator with
  | none => exact blind_liftM_argument _
  | some f => exact blind_bind (blind_callOrFail _ _) fun vs => blind_pure _

/-- A sort is blind if its comparisons are. -/
theorem blind_merge {less : Value → Value → Program H Bool} (h : ∀ a b, (less a b).Blind)
    (left right : List Value) : (Sort.merge less left right).Blind := by
  fun_induction Sort.merge less left right with
  | case1 rs => simp
  | case2 ls => simp
  | case3 l ls r rs ihr ihl =>
    refine blind_bind (h r l) fun first => ?_
    cases first with
    | true => exact blind_bind ihr fun vs => blind_pure _
    | false => exact blind_bind ihl fun vs => blind_pure _

theorem blind_mergeSort {less : Value → Value → Program H Bool} (h : ∀ a b, (less a b).Blind)
    (vs : List Value) : (Sort.mergeSort less vs).Blind := by
  fun_induction Sort.mergeSort less vs with
  | case1 => simp
  | case2 => simp
  | case3 x y rest all half ihl ihr =>
    exact blind_bind ihl fun left => blind_bind ihr fun right => blind_merge h left right

theorem blind_sort (args : List Value) : (sort args : Program H (List Value)).Blind := by
  simp only [sort, blind_argument_bind]
  intro t _
  split
  · simp only [of_pure_bind, blind_table_bind]
    exact fun w => blind_bind (blind_mergeSort (blind_less none) _) fun vs => by simp
  · simp only [of_pure_bind, blind_table_bind]
    exact fun w => blind_bind (blind_mergeSort (blind_less (some _)) _) fun vs => by simp
  · simp

theorem blind_run (f : TableFunction) (args : List Value) :
    (run f args : Program H (List Value)).Blind := by
  cases f with
  | concat => simp [run, concat]
  | insert => exact blind_insert args
  | move => simp [run, move]
  | pack => simp [run, pack]
  | remove => simp [run, remove]
  | sort => exact blind_sort args
  | unpack => simp [run, unpack]

end Tables

/-! ### The string library -/

namespace Strings

theorem blind_find (engine : Regex.Engine) (args : List Value) :
    (find engine args : Program H (List Value)).Blind := by
  simp only [find, blind_argument_bind, blind_ite, blind_pure, implies_true, true_and]
  rintro ⟨s, pattern, init⟩ _ _ _ found _
  cases found <;> simp

theorem blind_matchPattern (engine : Regex.Engine) (args : List Value) :
    (matchPattern engine args : Program H (List Value)).Blind := by
  simp only [matchPattern, blind_argument_bind, blind_ite, blind_pure, implies_true, true_and]
  rintro ⟨s, pattern, init⟩ _ _ found _
  cases found <;> simp

theorem blind_walkStep (engine : Regex.Engine) (cell : Nat) :
    (walkStep engine cell : Program H (List Value)).Blind := by
  simp only [walkStep, blind_memory_bind]
  intro w
  split
  · simp
  · simp only [blind_setMemory_bind]
    split <;> simp

theorem blind_replace (r : Replacement) (s : Bytes) (m : Match) :
    (replace r s m : Program H Bytes).Blind := by
  cases r with
  | template pieces => exact blind_liftM_argument _
  | table t => simp [replace]
  | function f => simp [replace]

theorem blind_substitute (engine : Regex.Engine) (x : Regex) (r : Replacement) (s : Bytes)
    (anchored : Bool) (most : Option Int64) (result : Array UInt8) (position : Nat)
    (lastEnd : Option Nat) (count : Nat) :
    (substitute engine x r s anchored most result position lastEnd count :
      Program H (List Value)).Blind := by
  fun_induction @substitute H engine x r s anchored most result position lastEnd count with
  | case3 _ _ _ _ _ _ _ _ _ _ ih => exact ih
  | case4 _ _ _ _ _ _ m _ _ _ ih =>
    refine blind_bind (blind_replace r s m) fun replaced => ?_
    rw [blind_ite]
    exact ⟨fun _ => blind_pure _, ih replaced⟩
  | _ => exact blind_pure _

theorem blind_convertArgument (c : Conversion) (args : List Value) (i : Nat) :
    (convertArgument c args i : Program H Bytes).Blind := by
  simp only [convertArgument, blind_ite, blind_raise, implies_true, true_and]
  intro _
  split
  case h_6 =>
    simp only [blind_argument_bind]
    exact fun v _ => blind_bind (blind_textOf v) fun s => blind_pure _
  all_goals simp

theorem blind_formatPieces (args : List Value) (i : Nat) (pieces : List FormatPiece) :
    (formatPieces args i pieces : Program H Bytes).Blind := by
  fun_induction formatPieces args i pieces with
  | case1 => simp
  | case2 i s pieces ih => exact blind_bind ih fun rest => blind_pure _
  | case3 i c pieces ih =>
    exact blind_bind (blind_convertArgument c args i) fun s =>
      blind_bind ih fun rest => blind_pure _

theorem blind_format (args : List Value) : (format args : Program H (List Value)).Blind := by
  simp only [format, blind_argument_bind]
  exact fun s _ pieces _ => blind_bind (blind_formatPieces args 1 pieces) fun r => blind_pure _

theorem blind_gsub (engine : Regex.Engine) (args : List Value) :
    (gsub engine args : Program H (List Value)).Blind := by
  simp only [gsub, blind_argument_bind]
  exact fun s _ _ _ r _ most _ x _ => blind_substitute engine x r s _ most _ _ _ _

theorem blind_run (engine : Regex.Engine) (f : StringFunction) (args : List Value) :
    (run engine f args : Program H (List Value)).Blind := by
  cases f with
  | byte => simp [run, byte]
  | char => simp [run, char]
  | find => exact blind_find engine args
  | format => exact blind_format args
  | gmatch => simp [run, gmatch]
  | gsub => exact blind_gsub engine args
  | len => simp [run, len]
  | lower => simp [run, lower]
  | matchPattern => exact blind_matchPattern engine args
  | rep => simp [run, rep]
  | reverse => simp [run, reverse]
  | sub => simp [run, sub]
  | upper => simp [run, upper]

end Strings

/-! ### The UTF-8 library -/

namespace Utf8s

theorem blind_codepoint (args : List Value) :
    (codepoint args : Program H (List Value)).Blind := by
  simp [codepoint]

theorem blind_codesStep (strict : Bool) (args : List Value) :
    (codesStep strict args : Program H (List Value)).Blind := by
  simp only [codesStep, blind_argument_bind, blind_ite, blind_pure, implies_true, true_and]
  intro s _ i _ _ _
  split <;> simp [invalidCode]

theorem blind_run (f : Utf8Function) (args : List Value) :
    (run f args : Program H (List Value)).Blind := by
  cases f with
  | char => simp [run, char]
  | codepoint => exact blind_codepoint args
  | codes => simp [run, codes, invalidCode]
  | len => simp [run, len]
  | offset => simp [run, offset]
  | codesStep strict => exact blind_codesStep strict args

end Utf8s

/-! ### The mathematical library -/

namespace Mathematics

theorem blind_draw (f : Generator → α × Generator) : (draw f : Program H α).Blind := by
  simp [draw]

theorem blind_randomBetween (lo hi : Int64) (index : Nat) :
    (randomBetween lo hi index : Program H (List Value)).Blind := by
  simp only [randomBetween, blind_ite, blind_raise, implies_true, true_and]
  exact fun _ => blind_bind (blind_draw _) fun n => blind_pure _

theorem blind_random (args : List Value) : (random args : Program H (List Value)).Blind := by
  unfold random
  split
  · exact blind_bind (blind_draw _) fun x => blind_pure _
  · simp only [blind_argument_bind, blind_ite]
    intro hi _
    exact ⟨fun _ => blind_bind (blind_draw _) fun n => blind_pure _,
      fun _ => blind_randomBetween 1 hi 0⟩
  · simp only [blind_argument_bind]
    exact fun lo _ hi _ => blind_randomBetween lo hi 1
  · simp

theorem blind_fmod (args : List Value) : (fmod args : Program H (List Value)).Blind := by
  simp only [fmod, blind_argument_bind]
  intro a _ b _
  split <;> simp

theorem blind_modf (args : List Value) : (modf args : Program H (List Value)).Blind := by
  simp only [modf, blind_argument_bind]
  intro x _
  cases x <;> simp

theorem blind_randomseed (args : List Value) :
    (randomseed args : Program H (List Value)).Blind := by
  simp only [randomseed, blind_argument_bind]
  intro n _
  cases n with
  | none => exact blind_bind (blind_draw _) fun seed => by simp
  | some n => simp

theorem blind_type (args : List Value) : (type args : Program H (List Value)).Blind := by
  simp only [type, blind_argument_bind]
  intro v _
  split <;> simp

theorem blind_run (f : MathFunction) (args : List Value) :
    (run f args : Program H (List Value)).Blind := by
  have hnumber : ∀ g, (onNumber g args : Program H (List Value)).Blind := by simp [onNumber]
  have hfloat : ∀ g, (onFloat g args : Program H (List Value)).Blind := by simp [onFloat]
  cases f with
  | abs | ceil | floor => exact hnumber _
  | acos | asin | cos | deg | exp | rad | sin | sqrt | tan => exact hfloat _
  | atan => simp [run, atan]
  | fmod => exact blind_fmod args
  | log => simp [run, log]
  | max => simp [run, max]
  | min => simp [run, min]
  | modf => exact blind_modf args
  | random => exact blind_random args
  | randomseed => exact blind_randomseed args
  | tointeger => simp [run, tointeger]
  | type => exact blind_type args
  | ult => simp [run, ult]

end Mathematics

/-! ### The coroutine library -/

namespace Coroutines

theorem blind_resume (args : List Value) : (resume args : Program H (List Value)).Blind := by
  refine blind_bind (blind_liftM_argument _) fun t => .resume fun r r' hr => ?_
  cases r with
  | ok vs =>
    cases r' with
    | ok vs' =>
      cases hr
      exact blind_pure _
    | error e' => cases hr
  | error e =>
    cases r' with
    | ok vs' => cases hr
    | error e' =>
      -- the program is shown the value of the error, and that is the same
      have hvalue : e.value = e'.value := ResumeError.value_eq (Except.error.inj hr)
      refine .done ?_
      rw [hvalue]

theorem blind_callWrapped (t : ThreadId) (args : List Value) :
    (callWrapped t args : Program H (List Value)).Blind := by
  refine .resume fun r r' hr => ?_
  match r, r', hr with
  | .ok vs, .ok vs', hr =>
    cases hr
    exact blind_pure _
  | .error (.uncaught e), .error (.uncaught e'), hr =>
    have he := ResumeError.uncaught.inj (Except.error.inj hr)
    exact .fail (congrArg TracedError.cause he)
  | .error (.refused e), .error (.refused e'), hr =>
    cases hr
    exact blind_raise _

theorem blind_isyieldable (args : List Value) :
    (isyieldable args : Program H (List Value)).Blind := by
  refine blind_bind (blind_liftM_argument _) fun t =>
    (blind_world_bind fun w => ?_).mpr fun w => blind_pure _
  simp only [World.isYieldable, World.thread_unframed]
  rfl

theorem blind_status (args : List Value) : (status args : Program H (List Value)).Blind := by
  refine blind_bind (blind_liftM_argument _) fun t =>
    (blind_world_bind fun w => ?_).mpr fun w => blind_pure _
  simp only [World.thread_unframed]
  rfl

theorem blind_running (args : List Value) : (running args : Program H (List Value)).Blind :=
  (blind_world_bind fun _ => rfl).mpr fun _ => blind_pure _

theorem blind_close (args : List Value) : (close args : Program H (List Value)).Blind := by
  refine blind_bind (blind_liftM_argument _) fun t => .close fun r => ?_
  cases r with
  | ok u => exact blind_pure _
  | error e => exact blind_raise _

theorem blind_run (f : CoroutineFunction) (args : List Value) :
    (run f args : Program H (List Value)).Blind := by
  cases f with
  | close => exact blind_close args
  | create => simp [run, create]
  | isyieldable => exact blind_isyieldable args
  | resume => exact blind_resume args
  | running => exact blind_running args
  | status => exact blind_status args
  | wrap => simp [run, wrap]

end Coroutines

/-- **Every library function** but the observers is blind. -/
theorem blind_run (engine : Regex.Engine) {b : Builtin} (hb : ¬ b.IsObserver)
    (args : List Value) : (run engine b args : Program H (List Value)).Blind := by
  cases b with
  | base f => exact Base.blind_run f args
  | table f => exact Tables.blind_run f args
  | string f => exact Strings.blind_run engine f args
  | utf8 f => exact Utf8s.blind_run f args
  | math f => exact Mathematics.blind_run f args
  | coroutine f => exact Coroutines.blind_run f args
  | debug f =>
    cases f with
    | getinfo => exact absurd (.inr rfl) hb
    | traceback => exact absurd (.inl rfl) hb
    | getmetatable => simp [run, Debugging.run, Debugging.getmetatable]
    | setmetatable => simp [run, Debugging.run, Debugging.setmetatable]

end Library

end Lua
