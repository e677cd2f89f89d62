/-
Native code as programs.

A program is what a native function, a poll of a sequence or an embedding host does: it
computes, reads the state of the instance, changes the memory, and asks the machine for what
only the machine can do — to define or call a function, to resume, create or close a
coroutine, or to go round a loop of the host.  It ends with a result or with an error.

* `Program` — programs as trees of requests, a monad;
* `Step` — what a poll of a sequence asks for: to return, call, tail call or yield;
* `Behaviour` — the code behind every function of an instance.

Design notes: calls and resumes hand failures back to the program as data, so a program that
lets an error pass fails with it explicitly (`Program.callOrFail`).  Loops without a bound are
requests of their own: the tree of a program is well founded, and a loop is entered again and
again by the machine.
-/
import Lua.World

namespace Lua

/-- A program with results in `α`. -/
inductive Program (H : Host) (α : Type) : Type where
  | done (result : α)
  | fail (error : Raised)
  | read (rest : World H → Program H α)
  | write (memory : Memory H) (rest : Unit → Program H α)
  | define (closure : Closure H) (rest : Function → Program H α)
  | call (callee : Value) (args : List Value)
      (rest : Except TracedError (List Value) → Program H α)
  | resume (thread : ThreadId) (args : List Value)
      (rest : Except ResumeError (List Value) → Program H α)
  | create (body : Value) (rest : Except ArgumentError ThreadId → Program H α)
  | close (thread : ThreadId) (rest : Except CoroutineError Unit → Program H α)
  | loop (state : H.Loop) (rest : H.Answer → Program H α)

namespace Program

variable {H : Host} {α β : Type}

/-- Continues with `f` where the program is done. -/
def bind (p : Program H α) (f : α → Program H β) : Program H β :=
  match p with
  | .done a => f a
  | .fail e => .fail e
  | .read rest => .read fun w => (rest w).bind f
  | .write m rest => .write m fun u => (rest u).bind f
  | .define c rest => .define c fun r => (rest r).bind f
  | .call callee args rest => .call callee args fun r => (rest r).bind f
  | .resume t args rest => .resume t args fun r => (rest r).bind f
  | .create body rest => .create body fun r => (rest r).bind f
  | .close t rest => .close t fun r => (rest r).bind f
  | .loop s rest => .loop s fun r => (rest r).bind f

instance : Monad (Program H) where
  pure := .done
  bind := bind

/-! ### Failing -/

/-- Fails with a cause that has not left any function yet. -/
def raise (c : Cause) : Program H α := .fail (.cause c)

/-- The result of a computation that may fail for an argument. -/
def ofArgument : Except ArgumentError α → Program H α
  | .ok a => .done a
  | .error e => raise (.argument e)

/-- The result of a computation that may fail. -/
def ofCause : Except Cause α → Program H α
  | .ok a => .done a
  | .error c => raise c

instance : MonadLift (Except ArgumentError) (Program H) := ⟨ofArgument⟩

instance : MonadLift (Except Cause) (Program H) := ⟨ofCause⟩

/-! ### Requests -/

/-- The state of the instance. -/
def world : Program H (World H) := .read .done

/-- The memory. -/
def memory : Program H (Memory H) := .read fun w => .done w.memory

/-- The heap. -/
def heap : Program H Heap := .read fun w => .done w.memory.heap

/-- Replaces the memory. -/
def setMemory (m : Memory H) : Program H Unit := .write m .done

/-- Replaces the heap. -/
def setHeap (h : Heap) : Program H Unit :=
  .read fun w => .write { w.memory with heap := h } .done

/-- The contents of a table. -/
def table (t : TableId) : Program H Table := .read fun w => .done (w.memory.heap.table t)

/-- Replaces the contents of a table. -/
def setTable (t : TableId) (content : Table) : Program H Unit := do
  setHeap ((← heap).store t content)

/-- Creates a table. -/
def allocate (content : Table) : Program H TableId := do
  let (t, m) := (← memory).allocate content
  setMemory m
  pure t

/-- Creates a function. -/
def createFunction (c : Closure H) : Program H Function := .define c .done

/-- Calls a function to completion; an error passes on. -/
def callOrFail (callee : Value) (args : List Value) : Program H (List Value) :=
  .call callee args fun
    | .ok vs => .done vs
    | .error e => .fail (.traced e)

/-- Creates a coroutine; an error passes on. -/
def createOrFail (body : Value) : Program H ThreadId := .create body ofArgument

end Program

/-- What a poll of a sequence asks for.  After a call or a yield the sequence goes on from the
given state; its next input is the results of the call or the values of the next resume. -/
inductive Step (H : Host) where
  | return (results : List Value)
  | call (callee : Value) (args : List Value) (next : Activation H)
  | tailCall (callee : Value) (args : List Value)
  | yield (values : List Value) (next : Activation H)

/-- The code behind the functions of an instance.  A loop goes on or ends with an answer. -/
structure Behaviour (H : Host) where
  builtin : Builtin → List Value → Program H (List Value)
  native : NativeClosure H → List Value → Program H (List Value)
  start : SequenceClosure H → Activation H
  poll : Activation H → List Value → Program H (Step H)
  recover : Activation H → TracedError → Program H (Step H)
  advance : H.Loop → Program H (H.Loop ⊕ H.Answer)

end Lua
