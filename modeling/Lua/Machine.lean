/-
The machine that runs programs.

The machine executes one piece of host code at a time.  When that code calls a function or
resumes a coroutine it waits behind a *boundary*; inside, the machine *drives* the frames of
one thread until they have all returned, one of them yields, or an error has passed through
all of them.  Then the boundary falls and the waiting code goes on.

* `Machine.step` — one move;
* `Machine.run` — moves until the embedding program is finished, at most a given number;
* `World.invoke` — the start of a call: natives run at once, sequences become frames;
* `World.enterCoroutine`, `World.leaveCoroutine` — the two ends of a resume.

Design notes: the thread that is driven, and the number of its frames that belong to earlier
boundaries, are read off the topmost boundary.  A frame is off the stack while it is polled.
The scheduler's counters are kept beside the boundaries as a program sees them, and every
boundary takes back on its fall exactly what it added.
-/
import Lua.Program

namespace Lua

/-! ### Bookkeeping of the scheduler -/

namespace World

variable {H : Host}

/-- Takes one level of host depth, if the limit allows. -/
def enterHost (w : World H) : Except CoroutineError (World H) :=
  if w.limits.maxHostDepth ≤ w.hostDepth then .error (.hostDepthExceeded w.hostDepth)
  else .ok { w with hostDepth := w.hostDepth + 1 }

def exitHost (w : World H) : World H := { w with hostDepth := w.hostDepth - 1 }

def enterNative (w : World H) (t : ThreadId) : World H :=
  w.modifyThread t fun s => { s with nativeDepth := s.nativeDepth + 1 }

def exitNative (w : World H) (t : ThreadId) : World H :=
  w.modifyThread t fun s => { s with nativeDepth := s.nativeDepth - 1 }

def enterNonYieldable (w : World H) (t : ThreadId) : World H :=
  w.modifyThread t fun s => { s with nonYieldable := s.nonYieldable + 1 }

def exitNonYieldable (w : World H) (t : ThreadId) : World H :=
  w.modifyThread t fun s => { s with nonYieldable := s.nonYieldable - 1 }

def pushFrame (w : World H) (t : ThreadId) (f : Frame H) : World H :=
  w.modifyThread t fun s => { s with frames := f :: s.frames }

def setFrames (w : World H) (t : ThreadId) (fs : List (Frame H)) : World H :=
  w.modifyThread t fun s => { s with frames := fs }

def setResumer (w : World H) (t : ThreadId) (r : Option ThreadId) : World H :=
  w.modifyThread t fun s => { s with resumer := r }

def dropBody (w : World H) (t : ThreadId) : World H :=
  w.modifyThread t fun s => { s with body := none }

/-- Moves a thread on in its life cycle. -/
def apply (w : World H) (t : ThreadId) (e : Event) : Except CoroutineError (World H) :=
  let status := (w.thread t).status
  match status.transition? e with
  | some status' => .ok (w.modifyThread t fun s => { s with status := status' })
  | none => .error (.invalidTransition status e)

/-- Whether a thread may yield now. -/
def checkYield (w : World H) (t : ThreadId) : Except CoroutineError Unit :=
  if t = .main then .error .yieldOutsideCoroutine
  else if 0 < (w.thread t).nonYieldable then .error .yieldAcrossBoundary
  else .ok ()

/-! ### Creating and closing coroutines -/

/-- Creates a suspended coroutine with a function as its body. -/
def createCoroutine (w : World H) (body : Value) : Except ArgumentError (ThreadId × World H) :=
  match body with
  | .function _ =>
    .ok (⟨w.threads.size⟩, { w with threads := w.threads.push (.fresh .suspended (some body)) })
  | other => .error (.invalidArgument "function" other.typeName 0)

/-- Kills a suspended coroutine.  Closing a dead one changes nothing. -/
def closeCoroutine (w : World H) (t : ThreadId) : Except CoroutineError (World H) :=
  match (w.thread t).status with
  | .suspended | .dead => do
    let w ← w.apply t .close
    pure ((w.dropBody t).setFrames t [])
  | status => .error (.invalidState .close status)

end World

/-! ### Boundaries -/

/-- Who a piece of host code works for: the embedding program, a native function, or the poll
of a sequence. -/
inductive Owner where
  | embedding
  | native (name : String)
  | poll (name : String)
  deriving DecidableEq, Repr

/-- What the owner's code computes. -/
abbrev Owner.Result (H : Host) : Owner → Type
  | .embedding => List Value
  | .native _ => List Value
  | .poll _ => Step H

/-- Host code that waits for a call or a resume.  `thread` is driven meanwhile; a call leaves the
first `base` of its frames alone. -/
inductive Boundary (H : Host) where
  | call (thread : ThreadId) (base : Nat) (owner : Owner)
      (rest : Except TracedError (List Value) → Program H (owner.Result H))
  | resume (thread caller : ThreadId) (owner : Owner)
      (rest : Except ResumeError (List Value) → Program H (owner.Result H))

namespace Boundary

variable {H : Host}

/-- The thread driven behind the boundary. -/
def thread : Boundary H → ThreadId
  | .call t _ _ _ => t
  | .resume t _ _ _ => t

/-- How many frames of that thread belong to earlier boundaries. -/
def base : Boundary H → Nat
  | .call _ n _ _ => n
  | .resume _ _ _ _ => 0

end Boundary

/-- What the topmost frame goes on with. -/
inductive Input where
  | values (vs : List Value)
  | error (e : TracedError)

/-- How the driven frames came to an end. -/
inductive Outcome where
  | returned (vs : List Value)
  | yielded (vs : List Value)
  | failed (e : TracedError)

/-- What the machine does next: run host code, or give the driven frames an input. -/
inductive Control (H : Host) where
  | host (owner : Owner) (p : Program H (owner.Result H))
  | drive (input : Input)

/-- A state of the machine; the topmost boundary comes first. -/
structure Machine (H : Host) where
  world : World H
  stack : List (Boundary H)
  control : Control H

/-! ### Calls -/

/-- What entering a function comes to: a program to run, or a sequence to poll. -/
inductive Entry (H : Host) where
  | native (p : Program H (List Value))
  | sequence (a : Activation H)

namespace Behaviour

variable {H : Host}

/-- Enters a function.  A reference to no function does nothing. -/
def enter (B : Behaviour H) (w : World H) (f : Function) (args : List Value) : Entry H :=
  match f with
  | .builtin b => .native (B.builtin b args)
  | .created i => match w.functions[i]? with
    | some (.native c) => .native (B.native c args)
    | some (.sequence c) => .sequence (B.start c)
    | none => .native (.done [])

end Behaviour

namespace World

variable {H : Host}

/-- Starts a call on a thread. -/
def invoke (B : Behaviour H) (w : World H) (t : ThreadId) (callee : Value)
    (args : List Value) : World H × Control H :=
  match w.memory.heap.prepareCall callee args with
  | .error e => (w, .drive (.error (.untraced (.argument e))))
  | .ok (f, args) =>
    let name := w.nameOf f
    let depth := (w.thread t).callDepth
    if w.limits.maxCallDepth ≤ depth then
      (w, .drive (.error (.raisedBy name (.coroutine (.stackOverflow depth)))))
    else match B.enter w f args with
      | .sequence a => (w.pushFrame t ⟨name, a⟩, .drive (.values args))
      | .native p => match w.enterHost with
        | .error e => (w, .drive (.error (.raisedBy name (.coroutine e))))
        | .ok w => (w.enterNative t, .host (.native name) p)

/-! ### Resumes -/

/-- Hands control to a suspended coroutine, if its status and the limits allow. -/
def enterCoroutine (w : World H) (t : ThreadId) : Except CoroutineError (World H) := do
  let status := (w.thread t).status
  if status ≠ .suspended then throw (.invalidState .resume status)
  if w.limits.maxResumeDepth ≤ w.running.length then
    throw (.resumeDepthExceeded w.running.length)
  let w ← w.enterHost
  let caller := w.current
  let w ← w.apply caller .await
  let w ← w.apply t .resume
  let w := w.setResumer t (some caller)
  pure { w with running := t :: w.running }

/-- The end of a thread's run in its life cycle. -/
def settle (w : World H) (t : ThreadId) : Outcome →
    Except CoroutineError (World H × Except ResumeError (List Value))
  | .yielded vs => do
    let w ← w.apply t .yield
    pure (w, .ok vs)
  | .returned vs => do
    let w ← w.apply t .return
    pure (w.setFrames t [], .ok vs)
  | .failed e => do
    let w ← w.apply t .fail
    pure (w.setFrames t [], .error (.uncaught (e.leave (.coroutine t.number))))

/-- Hands control back from a coroutine to the thread that resumed it. -/
def leaveCoroutine (w : World H) (t caller : ThreadId) (o : Outcome) :
    World H × Except ResumeError (List Value) :=
  let w := { w with running := w.running.tail }
  let w := w.setResumer t none
  match w.apply caller .wake with
  | .error e => (w.exitHost, .error (.refused e))
  | .ok w => match w.settle t o with
    | .error e => (w.exitHost, .error (.refused e))
    | .ok (w, r) => (w.exitHost, r)

/-- Takes back what a host call added to a thread. -/
def leaveCall (w : World H) (t : ThreadId) : World H := (w.exitNonYieldable t).exitHost

end World

/-- What a host call answers.  No yield can reach it. -/
def Outcome.answer : Outcome → Except TracedError (List Value)
  | .returned vs => .ok vs
  | .failed e => .error e
  | .yielded _ => .error (.untraced (.broken "yield escaped a non-yieldable call"))

/-! ### Moves -/

namespace Machine

variable {H : Host}

/-- The thread that the topmost boundary drives. -/
def driven : List (Boundary H) → ThreadId
  | [] => .main
  | b :: _ => b.thread

/-- Lets the topmost boundary fall. -/
def fall (w : World H) (o : Outcome) : List (Boundary H) → Option (Machine H)
  | [] => none
  | .call t _ owner rest :: stack =>
    some ⟨w.leaveCall t, stack, .host owner (rest o.answer)⟩
  | .resume t caller owner rest :: stack =>
    let (w, r) := w.leaveCoroutine t caller o
    some ⟨w, stack, .host owner (rest r)⟩

/-- Gives the driven frames an input: to the topmost one, or past the last to the boundary. -/
def drive (B : Behaviour H) (w : World H) (input : Input) :
    List (Boundary H) → Option (Machine H)
  | [] => none
  | b :: stack =>
    let frames := (w.thread b.thread).frames
    let outcome := match input with
      | .values vs => .returned vs
      | .error e => .failed e
    if frames.length ≤ b.base then fall w outcome (b :: stack)
    else match frames with
      | [] => fall w (.failed (.untraced (.broken "frame stack underflow"))) (b :: stack)
      | f :: below =>
        let p := match input with
          | .values vs => B.poll f.activation vs
          | .error e => B.recover f.activation e
        some ⟨w.setFrames b.thread below, b :: stack, .host (.poll f.name) p⟩

/-- Carries out what a poll of the frame `name` asks for. -/
def perform (B : Behaviour H) (w : World H) (stack : List (Boundary H)) (name : String) :
    Step H → Option (Machine H)
  | .return vs => some ⟨w, stack, .drive (.values vs)⟩
  | .call callee args next =>
    let t := driven stack
    let (w, control) := (w.pushFrame t ⟨name, next⟩).invoke B t callee args
    some ⟨w, stack, control⟩
  | .tailCall callee args =>
    let (w, control) := w.invoke B (driven stack) callee args
    some ⟨w, stack, control⟩
  | .yield vs next =>
    let t := driven stack
    match w.checkYield t with
    | .ok () => fall (w.pushFrame t ⟨name, next⟩) (.yielded vs) stack
    | .error e => some ⟨w, stack, .drive (.error (.raisedBy name (.coroutine e)))⟩

/-- Goes on after the owner's code is done. -/
def finish (B : Behaviour H) (w : World H) (stack : List (Boundary H)) :
    (owner : Owner) → owner.Result H → Option (Machine H)
  | .embedding, _ => none
  | .native _, vs => some ⟨(w.exitNative (driven stack)).exitHost, stack, .drive (.values vs)⟩
  | .poll name, step => perform B w stack name step

/-- Goes on after the owner's code has failed. -/
def abort (w : World H) (stack : List (Boundary H)) (owner : Owner) (e : Raised) :
    Option (Machine H) :=
  match owner with
  | .embedding => none
  | .native name =>
    some ⟨(w.exitNative (driven stack)).exitHost, stack, .drive (.error (e.leave name))⟩
  | .poll name => some ⟨w, stack, .drive (.error (e.leave name))⟩

/-- Begins a host call for the owner's code. -/
def beginCall (B : Behaviour H) (w : World H) (stack : List (Boundary H)) (owner : Owner)
    (callee : Value) (args : List Value)
    (rest : Except TracedError (List Value) → Program H (owner.Result H)) : Machine H :=
  match w.enterHost with
  | .error e => ⟨w, stack, .host owner (rest (.error (.untraced (.coroutine e))))⟩
  | .ok w =>
    let t := w.current
    let w := w.enterNonYieldable t
    let boundary := .call t (w.thread t).frames.length owner rest
    let (w, control) := w.invoke B t callee args
    ⟨w, boundary :: stack, control⟩

/-- Begins a resume for the owner's code. -/
def beginResume (B : Behaviour H) (w : World H) (stack : List (Boundary H)) (owner : Owner)
    (t : ThreadId) (args : List Value)
    (rest : Except ResumeError (List Value) → Program H (owner.Result H)) : Machine H :=
  match w.enterCoroutine t with
  | .error e => ⟨w, stack, .host owner (rest (.error (.refused e)))⟩
  | .ok entered =>
    let boundary := .resume t w.current owner rest
    match (entered.thread t).body with
    | some body =>
      let (w, control) := (entered.dropBody t).invoke B t body args
      ⟨w, boundary :: stack, control⟩
    | none => ⟨entered, boundary :: stack, .drive (.values args)⟩

/-- One step of host code. -/
def serve (B : Behaviour H) (w : World H) (stack : List (Boundary H)) (owner : Owner) :
    Program H (owner.Result H) → Option (Machine H)
  | .done r => finish B w stack owner r
  | .fail e => abort w stack owner e
  | .read rest => some ⟨w, stack, .host owner (rest w)⟩
  | .write m rest => some ⟨{ w with memory := m }, stack, .host owner (rest ())⟩
  | .call callee args rest => some (beginCall B w stack owner callee args rest)
  | .resume t args rest => some (beginResume B w stack owner t args rest)
  | .define c rest =>
    let (f, w) := w.define c
    some ⟨w, stack, .host owner (rest f)⟩
  | .create body rest => match w.createCoroutine body with
    | .ok (t, w) => some ⟨w, stack, .host owner (rest (.ok t))⟩
    | .error e => some ⟨w, stack, .host owner (rest (.error e))⟩
  | .close t rest => match w.closeCoroutine t with
    | .ok w => some ⟨w, stack, .host owner (rest (.ok ()))⟩
    | .error e => some ⟨w, stack, .host owner (rest (.error e))⟩
  | .loop s rest =>
    let p := (B.advance s).bind fun
      | .inl s => .loop s rest
      | .inr answer => rest answer
    some ⟨w, stack, .host owner p⟩

/-- One move; there is none once the embedding program is finished. -/
def step (B : Behaviour H) (m : Machine H) : Option (Machine H) :=
  match m.control with
  | .host owner p => serve B m.world m.stack owner p
  | .drive input => drive B m.world input m.stack

/-- The machine about to run an embedding program. -/
def load (w : World H) (p : Program H (List Value)) : Machine H := ⟨w, [], .host .embedding p⟩

/-- What the embedding program ended with. -/
def result? (m : Machine H) : Option (Except Raised (List Value)) :=
  match m.control with
  | .host .embedding (.done vs) => some (.ok vs)
  | .host .embedding (.fail e) => some (.error e)
  | _ => none

/-- Moves as long as there are moves, at most `fuel` of them. -/
def run (B : Behaviour H) : Nat → Machine H → Machine H
  | 0, m => m
  | fuel + 1, m => match step B m with
    | some m => run B fuel m
    | none => m

end Machine

/-- Runs an embedding program to its end: the state it leaves and its result, or nothing if
`fuel` moves are not enough. -/
def World.execute {H : Host} (B : Behaviour H) (fuel : Nat) (w : World H)
    (p : Program H (List Value)) : Option (World H × Except Raised (List Value)) :=
  let m := (Machine.load w p).run B fuel
  m.result?.map fun r => (m.world, r)

end Lua
