/-
The life cycle of a thread.

A thread is suspended, running, normal (it waits for a thread it resumed) or dead.  Events
move it between these; `Status.transition?` is the table of legal moves.
-/

namespace Lua

inductive Status where
  | suspended
  | running
  | normal
  | dead
  deriving DecidableEq, Repr

/-- What can happen to a thread.  `await` is a running thread resuming another and waiting for
it, `wake` its regaining control. -/
inductive Event where
  | resume
  | await
  | wake
  | yield
  | return
  | fail
  | close
  deriving DecidableEq, Repr

namespace Status

def name : Status → String
  | .suspended => "suspended"
  | .running => "running"
  | .normal => "normal"
  | .dead => "dead"

/-- The status after an event, if the event is legal. -/
def transition? : Status → Event → Option Status
  | .suspended, .resume => some .running
  | .running, .await => some .normal
  | .normal, .wake => some .running
  | .running, .yield => some .suspended
  | .running, .return => some .dead
  | .running, .fail => some .dead
  | .suspended, .close => some .dead
  | .dead, .close => some .dead
  | _, _ => none

end Status

def Event.name : Event → String
  | .resume => "resume"
  | .await => "await"
  | .wake => "wake"
  | .yield => "yield"
  | .return => "return"
  | .fail => "fail"
  | .close => "close"

end Lua
