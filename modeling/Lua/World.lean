/-
The state of an instance.

A host is a program that embeds the language and brings functions of its own.  What it brings
is given by types of code and states; everything else about the instance is data:

* `Memory` — the heap, the walks over matches, the random generator, what was printed, and the
  host's own shared data.  Host code may change it at any time;
* `World` — the memory, the functions created so far, and the threads with the bookkeeping of
  the scheduler: the chain of running coroutines, and the depth counters.  Host code reads
  these, and changes them only through requests to the machine.

Design notes: a function that runs to completion is *native*; one that can be left and
continued later is a *sequence*.  A thread keeps a frame for every sequence that was entered
on it and is not being polled, innermost first.  A created function never changes; what it
has to remember between calls, such as the place a walk has reached, is in the memory.
-/
import Lua.Arguments
import Lua.Configuration
import Lua.Heap
import Lua.Pattern.Walk
import Lua.Random

namespace Lua

/-- What a host brings: code of native functions and of sequences, states of sequences, states
and answers of loops, and data shared by all of them. -/
structure Host where
  Native : Type
  Sequence : Type
  State : Type
  Loop : Type
  Answer : Type
  Shared : Type

/-- What a native function does that was created while the instance ran: it resumes a thread,
continues a walk over matches, or runs code of the host. -/
inductive NativeClosure (H : Host) where
  | wrap (thread : ThreadId)
  | walk (cell : Nat)
  | host (name : String) (code : H.Native)

/-- What a sequence does: it makes a protected call, yields, or runs code of the host. -/
inductive SequenceClosure (H : Host) where
  | protectedCall (withHandler : Bool)
  | yield
  | host (name : String) (code : H.Sequence)

/-- What a created function does. -/
inductive Closure (H : Host) where
  | native (c : NativeClosure H)
  | sequence (c : SequenceClosure H)

/-- The name a function shows in stack traces. -/
def Closure.name {H : Host} : Closure H → String
  | .native (.wrap _) => "wrap"
  | .native (.walk _) => "gmatch_step"
  | .native (.host name _) => name
  | .sequence (.protectedCall withHandler) => if withHandler then "xpcall" else "pcall"
  | .sequence .yield => "yield"
  | .sequence (.host name _) => name

/-- The progress of a protected call.  The handler is asked at most once. -/
inductive ProtectedCall where
  | start (withHandler : Bool)
  | calling (handler : Option Value)
  | handling
  deriving DecidableEq

/-- The state of a sequence that was entered. -/
inductive Activation (H : Host) where
  | protectedCall (progress : ProtectedCall)
  | yield (suspended : Bool)
  | host (state : H.State)

/-- A sequence on a thread's stack that waits for the results of a call or of a resume. -/
structure Frame (H : Host) where
  name : String
  activation : Activation H

/-- A thread.  `body` is what a coroutine that was never resumed will run; `nonYieldable` counts
the host calls and `nativeDepth` the native calls in progress on the thread. -/
structure Thread (H : Host) where
  status : Status
  frames : List (Frame H)
  body : Option Value
  resumer : Option ThreadId
  nonYieldable : Nat
  nativeDepth : Nat

namespace Thread

variable {H : Host}

def fresh (status : Status) (body : Option Value) : Thread H := ⟨status, [], body, none, 0, 0⟩

/-- What stands for a thread that was never created. -/
def absent : Thread H := fresh .dead none

/-- Frames and native calls on the thread. -/
def callDepth (t : Thread H) : Nat := t.frames.length + t.nativeDepth

/-- The names of the frames, innermost first. -/
def frameNames (t : Thread H) : List String := t.frames.map (·.name)

end Thread

/-- What host code may change. -/
structure Memory (H : Host) where
  heap : Heap
  walks : Array MatchWalk
  generator : Generator
  printed : Bytes
  shared : H.Shared

namespace Memory

variable {H : Host}

/-- Creates a table. -/
def allocate (m : Memory H) (content : Table) : TableId × Memory H :=
  let (t, heap) := m.heap.allocate content
  (t, { m with heap })

end Memory

/-- The state of an instance.  Created functions are known by their index.  `running` is the chain
of running coroutines, innermost first and without the main thread. -/
structure World (H : Host) where
  memory : Memory H
  functions : Array (Closure H)
  threads : Array (Thread H)
  running : List ThreadId
  hostDepth : Nat
  limits : Configuration

namespace World

variable {H : Host}

/-- A fresh instance with an empty global table. -/
def initial (limits : Configuration) (shared : H.Shared) : World H where
  memory := ⟨.initial, #[], .ofSeed (limits.randomSeed.getD 0), [], shared⟩
  functions := #[]
  threads := #[.fresh .running none]
  running := []
  hostDepth := 0
  limits := limits

/-- Creates a function. -/
def define (w : World H) (c : Closure H) : Function × World H :=
  (.created w.functions.size, { w with functions := w.functions.push c })

/-- The name of a function. -/
def nameOf (w : World H) : Function → String
  | .builtin b => b.name
  | .created i => match w.functions[i]? with
    | some c => c.name
    | none => ""

/-- The state of a thread. -/
def thread (w : World H) (t : ThreadId) : Thread H := w.threads.getD t.index .absent

/-- Changes the state of a thread. -/
def modifyThread (w : World H) (t : ThreadId) (f : Thread H → Thread H) : World H :=
  { w with threads := w.threads.modify t.index f }

/-- The thread in control: the innermost running coroutine, or the main thread. -/
def current (w : World H) : ThreadId := w.running.headD .main

/-- Whether a thread could yield: it is not the main thread, and no host call is in progress
on it. -/
def isYieldable (w : World H) (t : ThreadId) : Bool :=
  t != .main && (w.thread t).nonYieldable == 0

/-- The threads from `t` on, each followed by the thread that resumed it, at most `fuel` of them. -/
def resumeChain (w : World H) : Nat → ThreadId → List ThreadId
  | 0, _ => []
  | fuel + 1, t => t :: match (w.thread t).resumer with
    | some r => resumeChain w fuel r
    | none => []

end World

end Lua
