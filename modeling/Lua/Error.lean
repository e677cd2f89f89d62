/-
Errors.

A failure is a cause, and a cause is one of: an argument that does not fit, an operation on
a coroutine that its state does not allow, the error a coroutine died of, a value raised by
a program, a request for too much memory, or a broken rule of the machine itself.

* `Cause.message` — the text of a cause;
* `Cause.value` — the value a program sees when it catches the error;
* `TracedError` — a cause with the functions and coroutines it left on its way,
  innermost first;
* `Raised` — what host code fails with: an error that has a trace already, or a cause that
  has not left any function yet.

Design notes: `Cause.uncaught` carries the traced error inside a coroutine's failure, and
shows it with its trace; as a value it stands for the value that was raised inside.
-/
import Lua.Thread.Status
import Lua.Value

namespace Lua

/-- Arguments and operands that do not fit. -/
inductive ArgumentError where
  | invalidArgument (expected found : String) (index : Nat)
  | cannotCoerce (expected found : String)
  | invalidType (expected found : String)
  | outOfRange (problem : String) (index : Nat)
  | keyIsNaN
  | keyIsNil
  | notCallable (found : String)
  | notIndexable (found : String)
  | metamethodLoop (event : String)
  | concatenationTooLarge
  | incomparable (lhs rhs : String)
  | unsupportedPattern (feature : String)
  | malformed (problem : String)
  | invalidContent (expected found : String) (key : Value)
  deriving DecidableEq

/-- An operation that needs a coroutine in a certain state. -/
inductive CoroutineOperation where
  | resume
  | close
  deriving DecidableEq, Repr

/-- Operations on coroutines that are refused. -/
inductive CoroutineError where
  | resumeDead
  | resumeNonSuspended (status : Status)
  | closeActive (status : Status)
  | invalidTransition (status : Status) (event : Event)
  | yieldAcrossBoundary
  | yieldOutsideCoroutine
  | stackOverflow (depth : Nat)
  | resumeDepthExceeded (depth : Nat)
  | hostDepthExceeded (depth : Nat)
  deriving DecidableEq, Repr

/-- Why memory was not granted. -/
inductive MemoryError where
  | capacityOverflow
  | refused
  deriving DecidableEq, Repr

/-- A stack trace entry: a function that was left, or a coroutine. -/
inductive TraceEntry where
  | native (name : String)
  | coroutine (number : Nat)
  deriving DecidableEq, Repr

/-- Why something failed. -/
inductive Cause where
  | argument (error : ArgumentError)
  | coroutine (error : CoroutineError)
  | uncaught (cause : Cause) (trace : List TraceEntry)
  | user (value : Option Value) (level : Int64)
  | memory (error : MemoryError)
  | broken (rule : String)
  deriving DecidableEq

/-- A cause and what it left on its way, innermost first. -/
structure TracedError where
  cause : Cause
  trace : List TraceEntry
  deriving DecidableEq

/-- What host code fails with. -/
inductive Raised where
  | traced (error : TracedError)
  | cause (cause : Cause)
  deriving DecidableEq

/-- How a resume fails: it is refused, or the coroutine dies of an error. -/
inductive ResumeError where
  | refused (error : CoroutineError)
  | uncaught (error : TracedError)
  deriving DecidableEq

/-! ### Texts -/

namespace ArgumentError

def message : ArgumentError → String
  | .invalidArgument expected found index =>
    s!"bad argument #{index + 1} ({expected} expected, got {found})"
  | .cannotCoerce expected found => s!"Cannot coerce {found} to {expected}"
  | .invalidType expected found => s!"Invalid type expected: {expected}, found: {found}"
  | .outOfRange problem index => s!"bad argument #{index + 1} ({problem})"
  | .keyIsNaN => "table index is NaN"
  | .keyIsNil => "table index is nil"
  | .notCallable found => s!"attempt to call a {found} value"
  | .notIndexable found => s!"attempt to index a {found} value"
  | .metamethodLoop event => s!"'{event}' chain too long; possible loop"
  | .concatenationTooLarge => "resulting string too large"
  | .incomparable lhs rhs => s!"attempt to compare {lhs} with {rhs}"
  | .unsupportedPattern feature => s!"Invalid pattern: {feature}"
  | .malformed problem => s!"Invalid pattern/format: {problem}"
  | .invalidContent expected found key =>
    s!"invalid value (at index {key.text}) in table ({expected} expected, got {found})"

end ArgumentError

namespace CoroutineError

/-- The refusal of an operation on a thread whose status does not allow it. -/
def invalidState : CoroutineOperation → Status → CoroutineError
  | .resume, .dead => .resumeDead
  | .resume, status => .resumeNonSuspended status
  | .close, status => .closeActive status

/-- Whether the status of the thread was at fault. -/
def isInvalidState : CoroutineError → Bool
  | .resumeDead | .resumeNonSuspended _ | .closeActive _ | .invalidTransition _ _ => true
  | _ => false

def message : CoroutineError → String
  | .resumeDead => "cannot resume dead coroutine"
  | .resumeNonSuspended _ => "cannot resume non-suspended coroutine"
  | .closeActive status => s!"cannot close a {status.name} coroutine"
  | .invalidTransition status event =>
    "invalid coroutine transition \"" ++ event.name ++ "\" from " ++ status.name
  | .yieldAcrossBoundary => "attempt to yield across a C-call boundary"
  | .yieldOutsideCoroutine => "attempt to yield from outside a coroutine"
  | .stackOverflow _ => "stack overflow"
  | .resumeDepthExceeded _ => "C stack overflow"
  | .hostDepthExceeded _ => "C stack overflow"

end CoroutineError

def MemoryError.message : MemoryError → String
  | .capacityOverflow =>
    "memory allocation failed because the computed capacity exceeded the collection's maximum"
  | .refused => "memory allocation failed because the memory allocator returned an error"

def TraceEntry.text : TraceEntry → String
  | .native name => s!"[native]: in function '{name}'"
  | .coroutine number => s!"[coroutine {number}]"

/-- A message followed by its stack trace; an empty trace adds nothing. -/
def withTrace (message : String) (trace : List TraceEntry) : String :=
  if trace.isEmpty then message
  else message ++ "\nstack traceback:" ++
    String.join (trace.map fun entry => "\n\t" ++ entry.text)

namespace Cause

/-- The text of a cause. -/
def message : Cause → String
  | .argument e => e.message
  | .coroutine e => e.message
  | .uncaught cause trace => withTrace cause.message trace
  | .user (some v) _ => v.text
  | .user none _ => "nil"
  | .memory e => s!"not enough memory ({e.message})"
  | .broken rule => s!"interpreter bug: {rule}"

/-- The value a program sees when it catches the error. -/
def value : Cause → Value
  | .user v _ => v.getD .nil
  | .uncaught cause _ => cause.value
  | cause => Value.ofText cause.message

/-- An error with a text as its value and no position. -/
def ofText (s : String) : Cause := .user (some (Value.ofText s)) 0

end Cause

/-! ### Traces -/

namespace TracedError

/-- An error that has left nothing yet. -/
def untraced (cause : Cause) : TracedError := ⟨cause, []⟩

/-- An error raised by a function. -/
def raisedBy (name : String) (cause : Cause) : TracedError := ⟨cause, [.native name]⟩

/-- The error after it has left one more function or coroutine. -/
def leave (entry : TraceEntry) (e : TracedError) : TracedError :=
  { e with trace := e.trace ++ [entry] }

/-- The cause and its trace. -/
def message (e : TracedError) : String := withTrace e.cause.message e.trace

/-- The value a program sees when it catches the error. -/
def value (e : TracedError) : Value := e.cause.value

end TracedError

/-- The error after it has left the function `name`. -/
def Raised.leave (name : String) : Raised → TracedError
  | .traced e => e.leave (.native name)
  | .cause c => .raisedBy name c

namespace ResumeError

/-- A failed resume as a cause. -/
def toCause : ResumeError → Cause
  | .refused e => .coroutine e
  | .uncaught e => .uncaught e.cause e.trace

/-- The value a program sees for a failed resume. -/
def value (e : ResumeError) : Value := e.toCause.value

end ResumeError

end Lua
