/-
The coroutine library, and protected calls.

* `Coroutines.run` — the native functions of the library;
* `pollYield` — a yield suspends its thread once and then returns what the resume brought;
* `pollProtected`, `recoverProtected` — a protected call turns its results and the errors that
  reach it into results of its own.

Design notes: yields and protected calls are sequences, so a function may yield inside a
protected call.  An error of the handler of a protected call is not handled again.
-/
import Lua.Program

namespace Lua.Library

variable {H : Host}

namespace Coroutines

def create (args : List Value) : Program H (List Value) := do
  let f ← argument Function args 0
  pure [.thread (← Program.createOrFail (.function f))]

/-- Resumes a coroutine: true and its values, or false and its error.  It never raises. -/
def resume (args : List Value) : Program H (List Value) := do
  let t ← argument ThreadId args 0
  .resume t (args.drop 1) fun
    | .ok vs => .done (.boolean true :: vs)
    | .error e => .done [.boolean false, e.value]

/-- The thread in control, and whether it is the main one. -/
def running (_ : List Value) : Program H (List Value) := do
  let t := (← Program.world).current
  pure [.thread t, .boolean (t == .main)]

def status (args : List Value) : Program H (List Value) := do
  let t ← argument ThreadId args 0
  pure [.ofText ((← Program.world).thread t).status.name]

/-- Whether a thread may yield, by default the one in control. -/
def isyieldable (args : List Value) : Program H (List Value) := do
  let t ← argument? ThreadId args 0
  let w ← Program.world
  pure [.boolean (w.isYieldable (t.getD w.current))]

def close (args : List Value) : Program H (List Value) := do
  let t ← argument ThreadId args 0
  .close t fun
    | .ok () => .done [.boolean true]
    | .error e => .raise (.coroutine e)

/-- A function that resumes a new coroutine on every call. -/
def wrap (args : List Value) : Program H (List Value) := do
  let f ← argument Function args 0
  let t ← Program.createOrFail (.function f)
  pure [.function (← Program.createFunction (.native (.wrap t)))]

/-- A call of the function made by `wrap`: an error of the coroutine passes on with its trace. -/
def callWrapped (t : ThreadId) (args : List Value) : Program H (List Value) :=
  .resume t args fun
    | .ok vs => .done vs
    | .error (.uncaught e) => .fail (.traced e)
    | .error (.refused e) => .raise (.coroutine e)

/-- The native functions of the library. -/
def run : CoroutineFunction → List Value → Program H (List Value)
  | .close => close
  | .create => create
  | .isyieldable => isyieldable
  | .resume => resume
  | .running => running
  | .status => status
  | .wrap => wrap

end Coroutines

/-! ### Sequences -/

/-- Suspends with the arguments, then returns the values of the resume. -/
def pollYield (suspended : Bool) (input : List Value) : Step H :=
  if suspended then .return input else .yield input (.yield true)

/-- Calls the function in the first argument, then returns true and its results; after the
handler was called, false and its first result. -/
def pollProtected (p : ProtectedCall) (input : List Value) :
    Except ArgumentError (Step H) :=
  match p with
  | .start withHandler => do
    let f ← anyArgument input 0
    if withHandler then
      let handler ← anyArgument input 1
      pure (.call f (input.drop 2) (.protectedCall (.calling (some handler))))
    else
      pure (.call f (input.drop 1) (.protectedCall (.calling none)))
  | .calling _ => pure (.return (.boolean true :: input))
  | .handling => pure (.return [.boolean false, Values.first input])

/-- Turns an error into results: false and the error's value, or what the handler makes of it. -/
def recoverProtected (p : ProtectedCall) (e : TracedError) : Program H (Step H) :=
  match p with
  | .start _ => .fail (.traced e)
  | .calling (some handler) => .done (.call handler [e.value] (.protectedCall .handling))
  | .calling none | .handling => .done (.return [.boolean false, e.value])

end Lua.Library
