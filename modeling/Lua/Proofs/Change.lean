/-
What a move of the machine changes.

A move runs a piece of host code up to its next request, or gives an input to the driven
frames.  Whatever it does to the world and to the boundaries is a short row of elementary
changes, and the properties of runs are proved for these:

* `Change` — one elementary change, with the life event it brings to a coroutine, if any;
* `Machine.events` — the life events of the next move;
* `Machine.step_changes` — every move is a row of changes that brings its events.

Design notes: of the control of a machine only the owner of the active host code matters for
the bookkeeping, and a `Situation` keeps no more.  A call and a resume are each two changes,
the boundary going up and the callee being entered.
-/
import Lua.Proofs.Threads

namespace Lua

/-- What became of a coroutine: a resume of it ended in an outcome, or it was closed while it
was suspended. -/
inductive LifeEvent where
  | resumed (o : Outcome)
  | closed

/-- The outcome of frames that have all been left with an input still to give. -/
def Input.outcome : Input → Outcome
  | .values vs => .returned vs
  | .error e => .failed e

/-- The owner of the host code that waits behind a boundary. -/
def Boundary.owner {H : Host} : Boundary H → Owner
  | .call _ _ owner _ => owner
  | .resume _ _ owner _ => owner

/-- The owner of the host code that runs, if any does. -/
def Control.active {H : Host} : Control H → Option Owner
  | .host owner _ => some owner
  | .drive _ => none

/-- A state of the machine without the code that runs. -/
structure Situation (H : Host) where
  world : World H
  stack : List (Boundary H)
  active : Option Owner

namespace Machine

variable {H : Host}

def situation (m : Machine H) : Situation H := ⟨m.world, m.stack, m.control.active⟩

/-- The life events that the next move brings, at most one. -/
def events (m : Machine H) : List (ThreadId × LifeEvent) :=
  match m.control, m.stack with
  | .drive input, .resume t _ _ _ :: _ =>
    if (m.world.thread t).frames.isEmpty then [(t, .resumed input.outcome)] else []
  | .host (.poll _) (.done (.yield vs _)), .resume t _ _ _ :: _ =>
    match m.world.checkYield t with
    | .ok () => [(t, .resumed (.yielded vs))]
    | .error _ => []
  | .host _ (.close t _), _ =>
    if (m.world.thread t).status = .suspended then [(t, .closed)] else []
  | _, _ => []

theorem events_drive (w : World H) (s : List (Boundary H)) (t c : ThreadId) (o : Owner)
    (rest : Except ResumeError (List Value) → Program H (o.Result H)) (input : Input) :
    events ⟨w, .resume t c o rest :: s, .drive input⟩ =
      if (w.thread t).frames.isEmpty then [(t, .resumed input.outcome)] else [] := rfl

theorem events_yield (w : World H) (s : List (Boundary H)) (t c : ThreadId) (o : Owner)
    (rest : Except ResumeError (List Value) → Program H (o.Result H)) (name : String)
    (vs : List Value) (next : Activation H) :
    events ⟨w, .resume t c o rest :: s, .host (.poll name) (.done (.yield vs next))⟩ =
      match w.checkYield t with
      | .ok () => [(t, .resumed (.yielded vs))]
      | .error _ => [] := rfl

end Machine

/-! ### Elementary changes -/

variable {H : Host}

open Machine in
/-- An elementary change of a situation. -/
inductive Change : Situation H → List (ThreadId × LifeEvent) → Situation H → Prop
  /-- Host code replaces the memory. -/
  | memory {w s o} (m : Memory H) : Change ⟨w, s, some o⟩ [] ⟨{ w with memory := m }, s, some o⟩
  /-- Host code creates a function. -/
  | define {w s o} (c : Closure H) : Change ⟨w, s, some o⟩ [] ⟨(w.define c).2, s, some o⟩
  /-- Host code creates a coroutine. -/
  | create {w : World H} {s o} (f : Function) :
      Change ⟨w, s, some o⟩ []
        ⟨{ w with threads := w.threads.push (.fresh .suspended (some (.function f))) },
          s, some o⟩
  /-- Host code closes a suspended coroutine. -/
  | close {w s o} (t : ThreadId) (h : (w.thread t).status = .suspended) :
      Change ⟨w, s, some o⟩ [(t, .closed)] ⟨w.closed t, s, some o⟩
  /-- Host code closes a dead coroutine. -/
  | closeDead {w s o} (t : ThreadId) (h : (w.thread t).status = .dead) :
      Change ⟨w, s, some o⟩ [] ⟨w.closed t, s, some o⟩
  /-- Host code begins to wait for a call. -/
  | call {w s o} (h : w.hostDepth < w.limits.maxHostDepth)
      (rest : Except TracedError (List Value) → Program H (o.Result H)) :
      Change ⟨w, s, some o⟩ []
        ⟨({ w with hostDepth := w.hostDepth + 1 } : World H).enterNonYieldable w.current,
          .call w.current (w.thread w.current).frames.length o rest :: s, none⟩
  /-- Host code begins to wait for a coroutine. -/
  | resume {w s o} (t : ThreadId) {entered : World H} (h : w.enterCoroutine t = .ok entered)
      (rest : Except ResumeError (List Value) → Program H (o.Result H)) :
      Change ⟨w, s, some o⟩ []
        ⟨entered.dropBody t, .resume t w.current o rest :: s, none⟩
  /-- A native function is entered. -/
  | native {w s} (name : String)
      (hd : (w.thread (driven s)).callDepth < w.limits.maxCallDepth)
      (hh : w.hostDepth < w.limits.maxHostDepth) :
      Change ⟨w, s, none⟩ []
        ⟨w.inNative (driven s), s, some (.native name)⟩
  /-- A sequence is entered. -/
  | sequence {w s} (f : Frame H)
      (hd : (w.thread (driven s)).callDepth < w.limits.maxCallDepth) :
      Change ⟨w, s, none⟩ [] ⟨w.pushFrame (driven s) f, s, none⟩
  /-- A native function is left. -/
  | leaveNative {w s} (name : String) :
      Change ⟨w, s, some (.native name)⟩ [] ⟨(w.exitNative (driven s)).exitHost, s, none⟩
  /-- The topmost frame is polled. -/
  | poll {w s} (b : Boundary H) (f : Frame H) (below : List (Frame H))
      (h : (w.thread b.thread).frames = f :: below) (hb : b.base ≤ below.length) :
      Change ⟨w, b :: s, none⟩ []
        ⟨w.setFrames b.thread below, b :: s, some (.poll f.name)⟩
  /-- A polled frame waits for a call. -/
  | wait {w s} (name : String) (next : Activation H) :
      Change ⟨w, s, some (.poll name)⟩ [] ⟨w.pushFrame (driven s) ⟨name, next⟩, s, none⟩
  /-- A polled frame is left. -/
  | leavePoll {w s} (name : String) : Change ⟨w, s, some (.poll name)⟩ [] ⟨w, s, none⟩
  /-- A call ends. -/
  | endCall {w s t base o rest} (h : (w.thread t).frames.length ≤ base) :
      Change ⟨w, .call t base o rest :: s, none⟩ [] ⟨w.leaveCall t, s, some o⟩
  /-- A coroutine has no frames left. -/
  | endResume {w s t c o rest} (input : Input) (h : (w.thread t).frames = []) :
      Change ⟨w, .resume t c o rest :: s, none⟩ [(t, .resumed input.outcome)]
        ⟨(w.leaveCoroutine t c input.outcome).1, s, some o⟩
  /-- A coroutine yields. -/
  | yield {w s t c o rest} (name : String) (vs : List Value) (next : Activation H)
      (h : w.checkYield t = .ok ()) :
      Change ⟨w, .resume t c o rest :: s, some (.poll name)⟩ [(t, .resumed (.yielded vs))]
        ⟨((w.pushFrame t ⟨name, next⟩).leaveCoroutine t c (.yielded vs)).1, s, some o⟩
  /-- A yield gets past a call; runs never come to it. -/
  | escape {w s t base o rest} (name : String) (next : Activation H)
      (h : w.checkYield t = .ok ()) :
      Change ⟨w, .call t base o rest :: s, some (.poll name)⟩ []
        ⟨(w.pushFrame t ⟨name, next⟩).leaveCall t, s, some o⟩

/-- A row of at most two changes, with their life events in order.  The second one enters a
function; native code that has just been left enters none. -/
inductive Changes : Situation H → List (ThreadId × LifeEvent) → Situation H → Prop
  | nil (x : Situation H) : Changes x [] x
  | one {x y : Situation H} {es : List (ThreadId × LifeEvent)} (h : Change x es y) :
      Changes x es y
  | two {x y z : Situation H} (h : Change x [] y) (hy : y.active = none)
      (hn : y.stack = x.stack → ∀ name, x.active ≠ some (.native name)) (h' : Change y [] z) :
      Changes x [] z

namespace Changes

/-- What every change keeps, a row of changes keeps. -/
theorem keep {P : Situation H → Prop} (hP : ∀ {x y es}, Change x es y → P x → P y)
    {x y : Situation H} {es : List (ThreadId × LifeEvent)} (h : Changes x es y) (hx : P x) :
    P y := by
  cases h with
  | nil => exact hx
  | one h => exact hP h hx
  | two h _ _ h' => exact hP h' (hP h hx)

/-- A change and then at most one function entered. -/
theorem enter {x y z : Situation H} (h : Change x [] y) (hy : y.active = none)
    (hn : y.stack = x.stack → ∀ name, x.active ≠ some (.native name))
    (h' : y = z ∨ Change y [] z) : Changes x [] z := by
  rcases h' with rfl | h'
  · exact .one h
  · exact .two h hy hn h'

end Changes

/-! ### Moves as rows of changes -/

/-- The start of a call enters a function, or it fails and changes nothing. -/
theorem World.invoke_change (B : Behaviour H) (w : World H) (s : List (Boundary H))
    (callee : Value) (args : List Value) :
    (⟨w, s, none⟩ : Situation H) = ⟨(w.invoke B (Machine.driven s) callee args).1, s,
        (w.invoke B (Machine.driven s) callee args).2.active⟩ ∨
      Change ⟨w, s, none⟩ [] ⟨(w.invoke B (Machine.driven s) callee args).1, s,
        (w.invoke B (Machine.driven s) callee args).2.active⟩ := by
  rw [World.invoke]
  cases hp : w.memory.heap.prepareCall callee args with
  | error e => exact .inl rfl
  | ok call =>
    obtain ⟨f, args⟩ := call
    simp only
    by_cases hd : w.limits.maxCallDepth ≤ (w.thread (Machine.driven s)).callDepth
    · rw [if_pos hd]
      exact .inl rfl
    · rw [if_neg hd]
      cases B.enter w f args with
      | sequence a => exact .inr (.sequence _ (by omega))
      | native p =>
        -- A native function takes a level of the host stack.
        by_cases hh : w.limits.maxHostDepth ≤ w.hostDepth
        · simp only [World.enterHost, if_pos hh]
          exact .inl rfl
        · simp only [World.enterHost, if_neg hh]
          exact .inr (.native _ (by omega) (by omega))

namespace Machine

variable {B : Behaviour H} {w : World H} {s : List (Boundary H)}

theorem drive_changes {input : Input} {m : Machine H} (h : drive B w input s = some m) :
    Changes ⟨w, s, none⟩ (events ⟨w, s, .drive input⟩) m.situation := by
  cases s with
  | nil => exact absurd h (by simp [drive])
  | cons b s =>
    simp only [drive] at h
    by_cases hb : (w.thread b.thread).frames.length ≤ b.base
    · rw [if_pos hb] at h
      cases b with
      | call t base o rest =>
        cases h
        exact .one (.endCall hb)
      | resume t c o rest =>
        have hf : (w.thread t).frames = [] := List.length_eq_zero_iff.mp (Nat.le_zero.mp hb)
        cases h
        rw [events_drive, hf]
        -- The events are read off the state, which by now is known to have no frames.
        cases input <;> exact .one (.endResume _ hf)
    · rw [if_neg hb] at h
      cases hf : (w.thread b.thread).frames with
      | nil =>
        rw [hf] at hb
        exact absurd (Nat.zero_le _) hb
      | cons f below =>
        rw [hf] at h hb
        have hpoll := Change.poll (s := s) b f below hf
          (Nat.lt_succ_iff.mp (by simpa using hb))
        cases h
        cases b with
        | call t base o rest => exact .one hpoll
        | resume t c o rest =>
          rw [events_drive, show (w.thread t).frames = f :: below from hf]
          exact .one hpoll

theorem perform_changes {name : String} {st : Step H} {m : Machine H}
    (h : perform B w s name st = some m) :
    Changes ⟨w, s, some (.poll name)⟩ (events ⟨w, s, .host (.poll name) (.done st)⟩)
      m.situation := by
  cases st with
  | «return» vs =>
    cases h
    exact .one (.leavePoll name)
  | call callee args next =>
    cases h
    exact .enter (.wait name next) rfl (fun _ _ => by simp) (World.invoke_change B _ s callee args)
  | tailCall callee args =>
    cases h
    exact .enter (.leavePoll name) rfl (fun _ _ => by simp) (World.invoke_change B w s callee args)
  | yield vs next =>
    simp only [perform] at h
    cases hc : w.checkYield (driven s) with
    | error e =>
      rw [hc] at h
      cases h
      cases s with
      | nil => exact .one (.leavePoll name)
      | cons b s =>
        cases b with
        | call t base o rest => exact .one (.leavePoll name)
        | resume t c o rest =>
          rw [events_yield, show w.checkYield t = .error e from hc]
          exact .one (.leavePoll name)
    | ok u =>
      rw [hc] at h
      cases s with
      | nil => exact absurd h (by simp [fall])
      | cons b s =>
        cases b with
        -- The machine would let a yield end a host call; runs never come here.
        | call t base o rest =>
          cases h
          exact .one (.escape name next hc)
        | resume t c o rest =>
          cases h
          rw [events_yield, show w.checkYield t = .ok u from hc]
          exact .one (.yield name vs next hc)

theorem finish_changes {owner : Owner} {r : owner.Result H} {m : Machine H}
    (h : finish B w s owner r = some m) :
    Changes ⟨w, s, some owner⟩ (events ⟨w, s, .host owner (.done r)⟩) m.situation := by
  cases owner with
  | embedding => exact absurd h (by simp [finish])
  | native name =>
    cases h
    exact .one (.leaveNative name)
  | poll name => exact perform_changes h

theorem abort_changes {owner : Owner} {e : Raised} {m : Machine H}
    (h : abort w s owner e = some m) : Changes ⟨w, s, some owner⟩ [] m.situation := by
  cases owner with
  | embedding => exact absurd h (by simp [abort])
  | native name =>
    cases h
    exact .one (.leaveNative name)
  | poll name =>
    cases h
    exact .one (.leavePoll name)

/-- A host call is refused, or it puts up a boundary and starts. -/
theorem beginCall_eq (B : Behaviour H) (w : World H) (s : List (Boundary H)) (owner : Owner)
    (callee : Value) (args : List Value)
    (rest : Except TracedError (List Value) → Program H (owner.Result H)) :
    beginCall B w s owner callee args rest =
      if w.limits.maxHostDepth ≤ w.hostDepth then
        ⟨w, s, .host owner (rest (.error (.untraced (.coroutine
          (.hostDepthExceeded w.hostDepth)))))⟩
      else
        let started := (({ w with hostDepth := w.hostDepth + 1 } : World H).enterNonYieldable
          w.current).invoke B w.current callee args
        ⟨started.1, .call w.current (w.thread w.current).frames.length owner rest :: s,
          started.2⟩ := by
  rw [beginCall]
  by_cases hh : w.limits.maxHostDepth ≤ w.hostDepth
  · simp only [World.enterHost, if_pos hh]
  · have hframes : ((({ w with hostDepth := w.hostDepth + 1 } : World H).enterNonYieldable
        w.current).thread w.current).frames = (w.thread w.current).frames :=
      World.keep_modifyThread (w := { w with hostDepth := w.hostDepth + 1 }) Thread.frames _
    simp only [World.enterHost, if_neg hh]
    rw [← hframes]
    rfl

theorem beginCall_changes (B : Behaviour H) (w : World H) (s : List (Boundary H))
    (owner : Owner) (callee : Value) (args : List Value)
    (rest : Except TracedError (List Value) → Program H (owner.Result H)) :
    Changes ⟨w, s, some owner⟩ [] (beginCall B w s owner callee args rest).situation := by
  rw [beginCall_eq]
  by_cases hh : w.limits.maxHostDepth ≤ w.hostDepth
  · rw [if_pos hh]
    exact .nil _
  · rw [if_neg hh]
    exact .enter (.call (by omega) rest) rfl (fun hs => absurd hs (List.cons_ne_self _ _))
      (World.invoke_change B _ (.call w.current _ owner rest :: s) callee args)

theorem beginResume_changes (B : Behaviour H) (w : World H) (s : List (Boundary H))
    (owner : Owner) (t : ThreadId) (args : List Value)
    (rest : Except ResumeError (List Value) → Program H (owner.Result H)) :
    Changes ⟨w, s, some owner⟩ [] (beginResume B w s owner t args rest).situation := by
  rw [beginResume]
  cases he : w.enterCoroutine t with
  | error e => exact .nil _
  | ok entered =>
    have hresume := Change.resume (s := s) (o := owner) t he rest
    simp only
    cases hb : (entered.thread t).body with
    | some body =>
      exact .enter hresume rfl (fun hs => absurd hs (List.cons_ne_self _ _))
        (World.invoke_change B _ (.resume t w.current owner rest :: s) body args)
    | none =>
      rw [World.dropBody, World.modifyThread_eq_self (by rw [← hb])] at hresume
      exact .one hresume

theorem serve_changes {owner : Owner} {p : Program H (owner.Result H)} {m : Machine H}
    (h : serve B w s owner p = some m) :
    Changes ⟨w, s, some owner⟩ (events ⟨w, s, .host owner p⟩) m.situation := by
  cases p with
  | done r => exact finish_changes h
  -- The requests bring no event, except a close; `events` looks at the owner first.
  | fail e =>
    have hs := abort_changes h
    cases owner <;> exact hs
  | read rest =>
    cases h
    cases owner <;> exact .nil _
  | write memory rest =>
    cases h
    cases owner <;> exact .one (.memory memory)
  | define c rest =>
    cases h
    cases owner <;> exact .one (.define c)
  | call callee args rest =>
    cases h
    have hs := beginCall_changes B w s owner callee args rest
    cases owner <;> exact hs
  | resume t args rest =>
    cases h
    have hs := beginResume_changes B w s owner t args rest
    cases owner <;> exact hs
  | create body rest =>
    have hs : Changes ⟨w, s, some owner⟩ [] m.situation := by
      cases body with
      | function f =>
        cases h
        exact .one (.create f)
      | _ =>
        cases h
        exact .nil _
    cases owner <;> exact hs
  | close t rest =>
    -- A close brings an event where it takes effect.
    have hs : Changes ⟨w, s, some owner⟩
        (if (w.thread t).status = .suspended then [(t, .closed)] else []) m.situation := by
      simp only [serve, World.closeCoroutine_eq] at h
      cases hst : (w.thread t).status with
      | suspended =>
        rw [hst] at h
        cases h
        exact .one (.close t hst)
      | dead =>
        rw [hst] at h
        cases h
        exact .one (.closeDead t hst)
      | running =>
        rw [hst] at h
        cases h
        exact .nil _
      | normal =>
        rw [hst] at h
        cases h
        exact .nil _
    cases owner <;> exact hs
  | loop l rest =>
    cases h
    cases owner <;> exact .nil _

/-- **Every move is a row of changes** that brings the life events of the move. -/
theorem step_changes {m m' : Machine H} (h : m.step B = some m') :
    Changes m.situation m.events m'.situation := by
  obtain ⟨w, s, control⟩ := m
  cases control with
  | host owner p => exact serve_changes h
  | drive input => exact drive_changes h

end Machine

end Lua
