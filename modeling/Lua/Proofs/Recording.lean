/-
Recording yields instead of suspending.

To say what a coroutine yields without speaking of suspension, its code is run with another
`yield`: a native function that writes its arguments to a log and returns the next of a row of
replies.  Everything else is the same code on the same data.

* `Host.recording` — a host with a log in its shared data and the recording function;
* `World.recording`, `World.plain` — an instance with a log, and without it;
* `Program.recording` — a program that does not see the log;
* `Behaviour.recording` — the code of an instance with `yield` replaced;
* `World.thread_recording`, `World.enterCoroutine_recording` and the like — the operations of
  the scheduler do not see the log.

Design notes: the recording host has the same states and the same code besides the one new
native function, so a closure, a frame or a thread of the one host is one of the other, and the
only closures that differ are those that yield.
-/
import Lua.Library.Registry
import Lua.Proofs.Threads

namespace Lua

/-- The host with one more native function, and a log beside its shared data. -/
abbrev Host.recording (H : Host) : Host where
  Native := Option H.Native
  Sequence := H.Sequence
  State := H.State
  Loop := H.Loop
  Answer := H.Answer
  Shared := H.Shared × List (List Value)

variable {H : Host}

/-! ### Data with and without a log -/

namespace NativeClosure

def recording : NativeClosure H → NativeClosure H.recording
  | .wrap t => .wrap t
  | .walk cell => .walk cell
  | .host name code => .host name (some code)

end NativeClosure

namespace SequenceClosure

def recording : SequenceClosure H → SequenceClosure H.recording
  | .protectedCall withHandler => .protectedCall withHandler
  | .yield => .yield
  | .host name code => .host name code

def plain : SequenceClosure H.recording → SequenceClosure H
  | .protectedCall withHandler => .protectedCall withHandler
  | .yield => .yield
  | .host name code => .host name code

end SequenceClosure

namespace Closure

/-- Functions that yield become functions that record. -/
def recording : Closure H → Closure H.recording
  | .native c => .native c.recording
  | .sequence .yield => .native (.host "yield" none)
  | .sequence c => .sequence c.recording

def plain : Closure H.recording → Closure H
  | .native (.wrap t) => .native (.wrap t)
  | .native (.walk cell) => .native (.walk cell)
  | .native (.host name (some code)) => .native (.host name code)
  | .native (.host _ none) => .sequence .yield
  | .sequence c => .sequence c.plain

@[simp] theorem plain_recording (c : Closure H) : c.recording.plain = c := by
  cases c with
  | native c => cases c <;> rfl
  | sequence c => cases c <;> rfl

@[simp] theorem name_recording (c : Closure H) : c.recording.name = c.name := by
  cases c with
  | native c => cases c <;> rfl
  | sequence c => cases c <;> rfl

end Closure

namespace Activation

def recording : Activation H → Activation H.recording
  | .protectedCall progress => .protectedCall progress
  | .yield suspended => .yield suspended
  | .host state => .host state

def plain : Activation H.recording → Activation H
  | .protectedCall progress => .protectedCall progress
  | .yield suspended => .yield suspended
  | .host state => .host state

@[simp] theorem plain_recording (a : Activation H) : a.recording.plain = a := by
  cases a <;> rfl

end Activation

namespace Frame

def recording (f : Frame H) : Frame H.recording := ⟨f.name, f.activation.recording⟩

def plain (f : Frame H.recording) : Frame H := ⟨f.name, f.activation.plain⟩

@[simp] theorem plain_recording (f : Frame H) : f.recording.plain = f := by
  simp [recording, plain]

end Frame

namespace Thread

def recording (s : Thread H) : Thread H.recording where
  status := s.status
  frames := s.frames.map Frame.recording
  body := s.body
  resumer := s.resumer
  nonYieldable := s.nonYieldable
  nativeDepth := s.nativeDepth

def plain (s : Thread H.recording) : Thread H where
  status := s.status
  frames := s.frames.map Frame.plain
  body := s.body
  resumer := s.resumer
  nonYieldable := s.nonYieldable
  nativeDepth := s.nativeDepth

@[simp] theorem plain_recording (s : Thread H) : s.recording.plain = s := by
  simp [recording, plain, Function.comp_def]

@[simp] theorem callDepth_recording (s : Thread H) : s.recording.callDepth = s.callDepth := by
  simp [recording, callDepth]

end Thread

namespace Memory

def recording (m : Memory H) (log : List (List Value)) : Memory H.recording where
  heap := m.heap
  walks := m.walks
  generator := m.generator
  printed := m.printed
  shared := (m.shared, log)

def plain (m : Memory H.recording) : Memory H where
  heap := m.heap
  walks := m.walks
  generator := m.generator
  printed := m.printed
  shared := m.shared.1

end Memory

namespace World

/-- The instance with a log, in which `yield` records. -/
def recording (w : World H) (log : List (List Value)) : World H.recording where
  memory := w.memory.recording log
  functions := w.functions.map Closure.recording
  threads := w.threads.map Thread.recording
  running := w.running
  hostDepth := w.hostDepth
  limits := w.limits

/-- The instance without its log, in which `yield` suspends. -/
def plain (w : World H.recording) : World H where
  memory := w.memory.plain
  functions := w.functions.map Closure.plain
  threads := w.threads.map Thread.plain
  running := w.running
  hostDepth := w.hostDepth
  limits := w.limits

/-- The instance with a log in a form that evaluates. -/
theorem recording_eq (w : World H) (log : List (List Value)) : w.recording log =
    ⟨w.memory.recording log, ⟨w.functions.toList.map Closure.recording⟩,
      ⟨w.threads.toList.map Thread.recording⟩, w.running, w.hostDepth, w.limits⟩ := by
  simp [recording, ← Array.toList_map]

def log (w : World H.recording) : List (List Value) := w.memory.shared.2

/-- The instance with one more entry in its log. -/
def noted (w : World H.recording) (args : List Value) : World H.recording :=
  { w with memory := { w.memory with shared := (w.memory.shared.1, w.log ++ [args]) } }

@[simp] theorem log_recording (w : World H) (log : List (List Value)) :
    (w.recording log).log = log := rfl

@[simp] theorem plain_recording (w : World H) (log : List (List Value)) :
    (w.recording log).plain = w := by
  have hf : (w.functions.map Closure.recording).map Closure.plain = w.functions := by
    simp [Function.comp_def]
  have ht : (w.threads.map Thread.recording).map Thread.plain = w.threads := by
    simp [Function.comp_def]
  rw [plain, recording, hf, ht]
  rfl

end World

/-! ### Code with and without a log -/

namespace Step

def recording : Step H → Step H.recording
  | .return results => .return results
  | .call callee args next => .call callee args next.recording
  | .tailCall callee args => .tailCall callee args
  | .yield values next => .yield values next.recording

end Step

/-- A result of the owner's code. -/
def Owner.recording : (o : Owner) → o.Result H → o.Result H.recording
  | .embedding, vs => vs
  | .native _, vs => vs
  | .poll _, step => step.recording

namespace Program

variable {α β γ : Type}

/-- The program on an instance with a log: what it reads is the instance without the log, and
what it writes keeps the log. -/
def recording (g : α → β) : Program H α → Program H.recording β
  | .done a => .done (g a)
  | .fail e => .fail e
  | .read rest => .read fun w => (rest w.plain).recording g
  | .write m rest => .read fun w => .write (m.recording w.log) fun u => (rest u).recording g
  | .define c rest => .define c.recording fun f => (rest f).recording g
  | .call callee args rest => .call callee args fun r => (rest r).recording g
  | .resume t args rest => .resume t args fun r => (rest r).recording g
  | .create body rest => .create body fun r => (rest r).recording g
  | .close t rest => .close t fun r => (rest r).recording g
  | .loop s rest => .loop s fun answer => (rest answer).recording g

theorem recording_bind (p : Program H α) (f : α → Program H β) (g : β → γ) :
    (p.bind f).recording g = (p.recording id).bind fun a => (f a).recording g := by
  induction p with
  | done a => rfl
  | fail e => rfl
  | read rest ih => simp only [bind, recording, ih]
  | write m rest ih => simp only [bind, recording, ih]
  | define c rest ih => simp only [bind, recording, ih]
  | call callee args rest ih => simp only [bind, recording, ih]
  | resume t args rest ih => simp only [bind, recording, ih]
  | create body rest ih => simp only [bind, recording, ih]
  | close t rest ih => simp only [bind, recording, ih]
  | loop s rest ih => simp only [bind, recording, ih]

end Program

namespace Behaviour

/-- Answers the last entry of the log: the first with the first reply, the second with the
second, and so on. -/
def lookUp (replies : Nat → List Value) : Program H.recording (List Value) :=
  .read fun w => .done (replies (w.log.length - 1))

/-- Writes the arguments to the log and answers them. -/
def recorder (replies : Nat → List Value) (args : List Value) :
    Program H.recording (List Value) :=
  .read fun w => .write (w.noted args).memory fun _ => lookUp replies

/-- The same code on an instance with a log, where functions that record stand for functions
that yield. -/
def recording (B : Behaviour H) (replies : Nat → List Value) : Behaviour H.recording where
  builtin b args := (B.builtin b args).recording id
  native
    | .wrap t, args => (B.native (.wrap t) args).recording id
    | .walk cell, args => (B.native (.walk cell) args).recording id
    | .host name (some code), args => (B.native (.host name code) args).recording id
    | .host _ none, args => recorder replies args
  start c := (B.start c.plain).recording
  poll a input := (B.poll a.plain input).recording Step.recording
  recover a e := (B.recover a.plain e).recording Step.recording
  advance s := (B.advance s).recording id

end Behaviour

/-! ### The scheduler does not see the log -/

namespace World

variable (w : World H) (l : List (List Value)) (t : ThreadId)

@[simp] theorem thread_recording : (w.recording l).thread t = (w.thread t).recording := by
  simp only [thread, recording, Array.getD_eq_getD_getElem?, Array.getElem?_map]
  cases w.threads[t.index]? <;> rfl

/-- Changes that agree on threads with and without a log agree on instances. -/
theorem modifyThread_recording {f : Thread H → Thread H}
    {g : Thread H.recording → Thread H.recording} (h : ∀ s, g s.recording = (f s).recording) :
    (w.recording l).modifyThread t g = (w.modifyThread t f).recording l := by
  have : (w.threads.map Thread.recording).modify t.index g
      = (w.threads.modify t.index f).map Thread.recording := by
    apply Array.ext_getElem?
    intro i
    simp only [Array.getElem?_modify, Array.getElem?_map]
    by_cases hi : t.index = i
    · rw [if_pos hi, if_pos hi]
      cases w.threads[i]? with
      | none => rfl
      | some s => exact congrArg some (h s)
    · rw [if_neg hi, if_neg hi]
  simp only [modifyThread, recording, this]

theorem pushFrame_recording (f : Frame H) :
    (w.recording l).pushFrame t f.recording = (w.pushFrame t f).recording l :=
  modifyThread_recording w l t fun _ => rfl

theorem setFrames_recording (fs : List (Frame H)) :
    (w.recording l).setFrames t (fs.map Frame.recording) = (w.setFrames t fs).recording l :=
  modifyThread_recording w l t fun _ => rfl

theorem enterNative_recording :
    (w.recording l).enterNative t = (w.enterNative t).recording l :=
  modifyThread_recording w l t fun _ => rfl

theorem exitNative_recording :
    (w.recording l).exitNative t = (w.exitNative t).recording l :=
  modifyThread_recording w l t fun _ => rfl

theorem dropBody_recording : (w.recording l).dropBody t = (w.dropBody t).recording l :=
  modifyThread_recording w l t fun _ => rfl

theorem closed_recording : (w.recording l).closed t = (w.closed t).recording l :=
  modifyThread_recording w l t fun _ => rfl

theorem entered_recording : (w.recording l).entered t = (w.entered t).recording l := by
  have h₁ := modifyThread_recording w l w.current
    (f := fun s => { s with status := .normal }) (g := fun s => { s with status := .normal })
    fun _ => rfl
  have h₂ := modifyThread_recording
    (w.modifyThread w.current fun s => { s with status := .normal }) l t
    (f := fun s => { s with status := .running, resumer := some w.current })
    (g := fun s => { s with status := .running, resumer := some w.current }) fun _ => rfl
  rw [← h₁] at h₂
  exact congrArg (fun v : World H.recording =>
    { v with hostDepth := w.hostDepth + 1, running := t :: w.running }) h₂

theorem keep_recording (o : Outcome) (fs : List (Frame H)) :
    o.keep (fs.map Frame.recording) = (o.keep fs).map Frame.recording := by
  cases o <;> rfl

theorem left_recording (c : ThreadId) (o : Outcome) :
    (w.recording l).left t c o = (w.left t c o).recording l := by
  have h₁ := modifyThread_recording w l c
    (f := fun s => { s with status := .running }) (g := fun s => { s with status := .running })
    fun _ => rfl
  have h₂ := modifyThread_recording
    (w.modifyThread c fun s => { s with status := .running }) l t
    (f := fun s =>
      { s with status := o.status, resumer := none, frames := o.keep s.frames })
    (g := fun s =>
      { s with status := o.status, resumer := none, frames := o.keep s.frames }) fun s => by
    simp only [Thread.recording, keep_recording]
  rw [← h₁] at h₂
  exact congrArg (fun v : World H.recording =>
    { v with running := w.running.tail, hostDepth := w.hostDepth - 1 }) h₂

theorem define_recording (c : Closure H) :
    (w.recording l).define c.recording = ((w.define c).1, (w.define c).2.recording l) := by
  simp [define, recording, Array.map_push]

theorem nameOf_recording (f : Function) : (w.recording l).nameOf f = w.nameOf f := by
  cases f with
  | builtin b => rfl
  | created i =>
    simp only [nameOf, recording, Array.getElem?_map]
    cases w.functions[i]? with
    | none => rfl
    | some c => exact c.name_recording

theorem createCoroutine_recording (body : Value) :
    (w.recording l).createCoroutine body
      = (w.createCoroutine body).map fun r => (r.1, r.2.recording l) := by
  cases body with
  | function f =>
    simp only [createCoroutine, Except.map, recording, Array.size_map, Array.map_push]
    rfl
  | _ => rfl

theorem closeCoroutine_recording :
    (w.recording l).closeCoroutine t = (w.closeCoroutine t).map (·.recording l) := by
  rw [closeCoroutine_eq, closeCoroutine_eq, thread_recording, closed_recording]
  show (if (w.thread t).status = .suspended ∨ (w.thread t).status = .dead then _ else _) = _
  by_cases hs : (w.thread t).status = .suspended ∨ (w.thread t).status = .dead
  · rw [if_pos hs, if_pos hs]
    rfl
  · rw [if_neg hs, if_neg hs]
    rfl

end World

end Lua
