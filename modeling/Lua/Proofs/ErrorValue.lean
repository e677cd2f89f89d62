/-
An error keeps its value on the way to where it is caught.

An error is raised by host code, and may pass frames, calls of host code and coroutines before it
is caught.  Its representation changes at each of them: it gets a trace, it is handed back as the
answer of a call, it becomes the error a coroutine died of, and it is raised again.  The value
it stands for stays the same:

* `Program.Raises` — host code that comes to fail with a value;
* `Layer` — what an error passes: a frame or waiting host code that fails in its turn with the
  value of the error it is given;
* `raises_of_default`, `raises_callOrFail`, `raises_callWrapped`, `raises_resumeOrFail` — the
  default handler of frames, code that passes on the error of a call, the functions made by
  `wrap`, and code that passes on the error of a resume are layers;
* `Machine.Unwinds.layers` — an error passes every stack of layers, with its value;
* `Machine.Reachable.error_value` — so what catches it gets that value.

Design notes: what waits below the code that runs is kept as a `Pending`, the frames of all
threads and the boundaries.  A layer takes off the topmost of them.
-/
import Lua.Proofs.Waiting

namespace Lua

variable {H : Host} {α : Type}

open Machine Relation

/-! ### Values of errors -/

/-- The value a program sees when it catches what was raised. -/
def Raised.value : Raised → Value
  | .traced e => e.value
  | .cause c => c.value

theorem Raised.value_leave (r : Raised) (name : String) : (r.leave name).value = r.value := by
  cases r with
  | traced e => rfl
  | cause c => rfl

/-! ### Code that fails -/

/-- A program that comes to fail with a value, whatever it reads, and makes no request to the
machine but to change the memory and to define functions. -/
inductive Program.Raises (v : Value) : Program H α → Prop
  | fail (r : Raised) (h : r.value = v) : Raises v (.fail r)
  | read {rest : World H → Program H α} (h : ∀ w, Raises v (rest w)) : Raises v (.read rest)
  | write {memory : Memory H} {rest : Unit → Program H α} (h : Raises v (rest ())) :
      Raises v (.write memory rest)
  | define {closure : Closure H} {rest : Function → Program H α} (h : ∀ f, Raises v (rest f)) :
      Raises v (.define closure rest)

/-! ### What waits -/

/-- What waits below the code that runs: the frames of all threads, and the boundaries. -/
structure Pending (H : Host) where
  frames : ThreadId → List (Frame H)
  stack : List (Boundary H)

/-- The frames of one thread change. -/
def Pending.setFrames (q : Pending H) (t : ThreadId) (fs : List (Frame H)) : Pending H :=
  ⟨fun u => if u = t then fs else q.frames u, q.stack⟩

def Machine.pending (m : Machine H) : Pending H := ⟨fun t => (m.world.thread t).frames, m.stack⟩

/-- The topmost thing that waits is passed by errors: a frame, host code that waits for a call, or
host code that waits for a coroutine, which fails with the value of the error it is given. -/
inductive Layer (B : Behaviour H) : Pending H → Pending H → Prop
  | frame {q : Pending H} {t : ThreadId} {f : Frame H} {below : List (Frame H)} {base : Nat}
      (hf : q.frames t = f :: below) (ht : Top t base q.stack) (hb : base ≤ below.length)
      (h : ∀ e, (B.recover f.activation e).Raises e.value) : Layer B q (q.setFrames t below)
  | call {q : Pending H} {t : ThreadId} {base : Nat} {o : Owner}
      {rest : Except TracedError (List Value) → Program H (o.Result H)} {s : List (Boundary H)}
      (hs : q.stack = .call t base o rest :: s) (hf : (q.frames t).length ≤ base)
      (ho : o ≠ .embedding) (h : ∀ e, (rest (.error e)).Raises e.value) :
      Layer B q ⟨q.frames, s⟩
  | resume {q : Pending H} {t c : ThreadId} {o : Owner}
      {rest : Except ResumeError (List Value) → Program H (o.Result H)} {s : List (Boundary H)}
      (hs : q.stack = .resume t c o rest :: s) (hf : q.frames t = []) (ho : o ≠ .embedding)
      (h : ∀ e, (rest (.error (.uncaught e))).Raises e.value) : Layer B q ⟨q.frames, s⟩

/-! ### Kinds of layers -/

namespace Program

/-- What a program that asks for a call does with the answer. -/
def afterCall : Program H α → Except TracedError (List Value) → Program H α
  | .call _ _ rest => rest
  | p => fun _ => p

/-- What a program that asks for a resume does with the answer. -/
def afterResume : Program H α → Except ResumeError (List Value) → Program H α
  | .resume _ _ rest => rest
  | p => fun _ => p

/-- Resumes a coroutine; its error passes on as a cause. -/
def resumeOrFail (t : ThreadId) (args : List Value) : Program H (List Value) :=
  .resume t args fun
    | .ok vs => .done vs
    | .error e => .raise e.toCause

end Program

/-- A frame with the default handler. -/
theorem raises_of_default {B : Behaviour H} {a : Activation H}
    (h : ∀ e, B.recover a e = .fail (.traced e)) (e : TracedError) :
    (B.recover a e).Raises e.value := by
  rw [h]
  exact .fail _ rfl

/-- Code that passes on the error of a call. -/
theorem raises_callOrFail (callee : Value) (args : List Value) (k : List Value → Program H α)
    (e : TracedError) :
    (((Program.callOrFail callee args).bind k).afterCall (.error e)).Raises e.value :=
  .fail _ rfl

/-- A function made by `wrap`. -/
theorem raises_callWrapped (t : ThreadId) (args : List Value) (e : TracedError) :
    ((Library.Coroutines.callWrapped t args : Program H (List Value)).afterResume
      (.error (.uncaught e))).Raises e.value :=
  .fail _ rfl

/-- Code that passes on the error of a resume. -/
theorem raises_resumeOrFail (t : ThreadId) (args : List Value) (k : List Value → Program H α)
    (e : TracedError) :
    (((Program.resumeOrFail t args).bind k).afterResume (.error (.uncaught e))).Raises e.value :=
  .fail _ rfl

/-- The library function `error` raises its first argument, if its level is one. -/
theorem raises_error (args : List Value) {level : Option Int64}
    (h : argument? Int64 args 1 = .ok level) :
    (Library.Base.error args : Program H (List Value)).Raises (Values.first args) := by
  show ((Program.ofArgument (argument? Int64 args 1)).bind _).Raises _
  rw [h]
  refine .fail _ ?_
  cases args with
  | nil => rfl
  | cons v rest => rfl

/-! ### Unwinding -/

namespace Machine

variable {B : Behaviour H} {m m' : Machine H} {v : Value} {q q' : Pending H} {o : Owner}

/-- One state comes after another by a number of moves. -/
abbrev LeadsTo (B : Behaviour H) : Machine H → Machine H → Prop :=
  ReflTransGen fun x y => x.step B = some y

theorem Reachable.leadsTo (hm : Reachable B m) (h : LeadsTo B m m') : Reachable B m' := by
  induction h with
  | refl => exact hm
  | tail _ hs ih => exact ih.step hs

/-- An error with the value `v` unwinds what waits. -/
structure Unwinds (B : Behaviour H) (v : Value) (q : Pending H) (m : Machine H) : Prop where
  control : ∃ e, m.control = .drive (.error e) ∧ e.value = v
  pending : m.pending = q

/-- The end of a native function changes no frames. -/
theorem frames_leaveNative (w : World H) (t u : ThreadId) :
    ((w.exitNative t).exitHost.thread u).frames = (w.thread u).frames :=
  World.keep_modifyThread Thread.frames u

/-- The end of a call changes no frames. -/
theorem frames_leaveCall (w : World H) (t u : ThreadId) :
    ((w.leaveCall t).thread u).frames = (w.thread u).frames :=
  World.keep_modifyThread Thread.frames u

/-- Host code that fails with a value begins to unwind. -/
theorem unwinds_of_raises {w : World H} {s : List (Boundary H)} {p : Program H (o.Result H)}
    (hp : p.Raises v) (ho : o ≠ .embedding) :
    ∃ m', LeadsTo B ⟨w, s, .host o p⟩ m' ∧
      Unwinds B v ⟨fun t => (w.thread t).frames, s⟩ m' := by
  induction hp generalizing w with
  | fail r hr =>
    have hvalue : ∀ name, (r.leave name).value = v := fun name => (r.value_leave name).trans hr
    cases o with
    | embedding => exact absurd rfl ho
    | native name =>
      refine ⟨_, .single rfl, ⟨_, rfl, hvalue name⟩, ?_⟩
      exact congrArg (Pending.mk · s) (funext (frames_leaveNative w _))
    | poll name => exact ⟨_, .single rfl, ⟨_, rfl, hvalue name⟩, rfl⟩
  | read _ ih =>
    obtain ⟨m', hm', hu⟩ := @ih w w
    exact ⟨m', hm'.head rfl, hu⟩
  | @write memory rest _ ih =>
    obtain ⟨m', hm', hu⟩ := @ih { w with memory := memory }
    exact ⟨m', hm'.head rfl, hu⟩
  | @define c rest _ ih =>
    obtain ⟨m', hm', hu⟩ := @ih (w.define c).1 (w.define c).2
    exact ⟨m', hm'.head rfl, hu⟩

theorem frames_setFrames {w : World H} {t : ThreadId} {f : Frame H} {below : List (Frame H)}
    (hf : (w.thread t).frames = f :: below) (u : ThreadId) :
    ((w.setFrames t below).thread u).frames = if u = t then below else (w.thread u).frames := by
  have hh : w.Has t := (World.Holds.of_frames hf).has (List.cons_ne_nil _ _)
  rw [World.setFrames, World.thread_modifyThread hh]
  by_cases hu : u = t
  · rw [if_pos hu, if_pos hu]
  · rw [if_neg hu, if_neg hu]

/-- The end of a coroutine without frames changes no frames. -/
theorem frames_left {w : World H} {t c : ThreadId} (hc : (w.thread c).status = .normal)
    (ht : (w.thread t).status = .running) (hf : (w.thread t).frames = []) (oc : Outcome)
    (u : ThreadId) : ((w.left t c oc).thread u).frames = (w.thread u).frames := by
  rw [World.thread_left_frames hc ht]
  by_cases hut : u = t
  · rw [if_pos hut, hut, hf]
    cases oc <;> rfl
  · rw [if_neg hut]

/-- An error that reaches a call is its answer. -/
theorem step_error_call {w : World H} {s : List (Boundary H)} {t : ThreadId} {base : Nat}
    {rest : Except TracedError (List Value) → Program H (o.Result H)} {e : TracedError}
    (hf : (w.thread t).frames.length ≤ base) :
    step B ⟨w, .call t base o rest :: s, .drive (.error e)⟩
      = some ⟨w.leaveCall t, s, .host o (rest (.error e))⟩ := by
  have htop : Top t base (.call t base o rest :: s) := ⟨_, _, rfl, rfl, rfl⟩
  exact htop.drive_falls hf (.error e)

/-- An error that reaches a resume is its answer, with the coroutine in its trace. -/
theorem step_error_resume {w : World H} {s : List (Boundary H)} {t c : ThreadId}
    {rest : Except ResumeError (List Value) → Program H (o.Result H)} {e : TracedError}
    (hx : Chained ⟨w, .resume t c o rest :: s, none⟩) (hf : (w.thread t).frames = []) :
    step B ⟨w, .resume t c o rest :: s, .drive (.error e)⟩
      = some ⟨w.left t c (.failed e), s,
          .host o (rest (.error (.uncaught (e.leave (.coroutine t.number)))))⟩ := by
  have htop : Top t 0 (.resume t c o rest :: s) := ⟨_, _, rfl, rfl, rfl⟩
  have hlen : (w.thread t).frames.length ≤ 0 := by rw [hf]; exact Nat.le_refl 0
  refine (htop.drive_falls hlen (.error e)).trans ?_
  simp only [fall, World.leaveCoroutine_eq hx.ends.1 hx.ends.2]
  rfl

/-- **An error passes a layer** with its value. -/
theorem Unwinds.layer (h : Unwinds B v q m) (hm : Reachable B m) (hl : Layer B q q') :
    ∃ m', LeadsTo B m m' ∧ Unwinds B v q' m' := by
  obtain ⟨⟨e, hc, rfl⟩, rfl⟩ := h
  obtain ⟨w, s, control⟩ := m
  obtain rfl : control = .drive (.error e) := hc
  cases hl with
  | @frame t f below base hf ht hb hrec =>
    obtain ⟨m', hm', hu⟩ := unwinds_of_raises (B := B) (w := w.setFrames t below) (s := s)
      (o := .poll f.name) (hrec e) (by simp)
    refine ⟨m', hm'.head (ht.drive_polls hf hb (.error e)), hu.control, hu.pending.trans ?_⟩
    exact congrArg (Pending.mk · s) (funext (frames_setFrames hf))
  | @call t base o rest s' hs hf ho hrest =>
    obtain rfl : s = _ := hs
    obtain ⟨m', hm', hu⟩ := unwinds_of_raises (B := B) (w := w.leaveCall t) (s := s')
      (hrest e) ho
    refine ⟨m', hm'.head (step_error_call hf), hu.control, hu.pending.trans ?_⟩
    exact congrArg (Pending.mk · s') (funext (frames_leaveCall w t))
  | @resume t c o rest s' hs hf ho hrest =>
    obtain rfl : s = _ := hs
    have hx : Chained ⟨w, .resume t c o rest :: s', none⟩ := hm.chained
    obtain ⟨m', hm', hu⟩ := unwinds_of_raises (B := B) (w := w.left t c (.failed e)) (s := s')
      (hrest (e.leave (.coroutine t.number))) ho
    refine ⟨m', hm'.head (step_error_resume hx hf), hu.control, hu.pending.trans ?_⟩
    exact congrArg (Pending.mk · s') (funext (frames_left hx.ends.1 hx.ends.2 hf _))

/-- An error passes every stack of layers with its value. -/
theorem Unwinds.layers (h : Unwinds B v q m) (hm : Reachable B m)
    (hl : ReflTransGen (Layer B) q q') : ∃ m', LeadsTo B m m' ∧ Unwinds B v q' m' := by
  induction hl with
  | refl => exact ⟨m, .refl, h⟩
  | tail _ hlast ih =>
    obtain ⟨m₁, hm₁, hu⟩ := ih
    obtain ⟨m₂, hm₂, hu₂⟩ := hu.layer (hm.leadsTo hm₁) hlast
    exact ⟨m₂, hm₁.trans hm₂, hu₂⟩

/-! ### Main result -/

/-- What catches an error of the value `v`, with `q` waiting, gets that value. -/
structure Caught (B : Behaviour H) (v : Value) (q : Pending H) (m : Machine H) : Prop where
  /-- A protected call without a handler returns false and the value. -/
  protectedCall : ∀ {t name below base}, q.frames t
      = ⟨name, .protectedCall (.calling none)⟩ :: below → Top t base q.stack →
    base ≤ below.length → ∃ m', LeadsTo B m m' ∧
      m'.control = .drive (.values [.boolean false, v]) ∧ m'.pending = q.setFrames t below
  /-- The library function `resume` returns false and the value. -/
  resumeFunction : ∀ {t c name args s}, q.stack = .resume t c (.native name)
      (Library.Coroutines.resume (.thread t :: args)).afterResume :: s → q.frames t = [] →
    ∃ m', LeadsTo B m m' ∧ m'.control = .drive (.values [.boolean false, v]) ∧
      m'.pending = ⟨q.frames, s⟩
  /-- Host code that waits for a call goes on with an error that has the value, also when it raises
  the error again. -/
  hostCall : ∀ {t base o rest s}, q.stack = .call t base o rest :: s →
    (q.frames t).length ≤ base → ∃ m' e, LeadsTo B m m' ∧
      m'.control = .host o (rest (.error e)) ∧ m'.pending = ⟨q.frames, s⟩ ∧ e.value = v ∧
      (Raised.traced e).value = v
  /-- So does host code that waits for a coroutine. -/
  hostResume : ∀ {t c o rest s}, q.stack = .resume t c o rest :: s → q.frames t = [] →
    ∃ m' e, LeadsTo B m m' ∧ m'.control = .host o (rest (.error e)) ∧
      m'.pending = ⟨q.frames, s⟩ ∧ e.value = v ∧ (Raised.cause e.toCause).value = v

theorem Unwinds.caught {host : HostCode H} (h : Unwinds (.standard host) v q m)
    (hm : Reachable (.standard host) m) : Caught (.standard host) v q m := by
  obtain ⟨⟨e, hc, rfl⟩, rfl⟩ := h
  obtain ⟨w, s, control⟩ := m
  obtain rfl : control = .drive (.error e) := hc
  constructor
  case protectedCall =>
    intro t name below base hf ht hb
    -- The handler of the frame returns at once.
    have hpoll := ht.drive_polls (B := .standard host) hf hb (.error e)
    refine ⟨⟨w.setFrames t below, s, .drive (.values [.boolean false, e.value])⟩,
      .tail (.single hpoll) rfl, rfl, ?_⟩
    exact congrArg (Pending.mk · s) (funext (frames_setFrames hf))
  case hostCall =>
    rintro t base o rest s' hs hf
    obtain rfl : s = _ := hs
    refine ⟨_, e, .single (step_error_call hf), rfl, ?_, rfl, rfl⟩
    exact congrArg (Pending.mk · s') (funext (frames_leaveCall w t))
  case hostResume =>
    rintro t c o rest s' hs hf
    obtain rfl : s = _ := hs
    have hx : Chained ⟨w, .resume t c o rest :: s', none⟩ := hm.chained
    refine ⟨_, _, .single (step_error_resume hx hf), rfl, ?_, rfl, rfl⟩
    exact congrArg (Pending.mk · s') (funext (frames_left hx.ends.1 hx.ends.2 hf _))
  case resumeFunction =>
    rintro t c name args s' hs hf
    obtain rfl : s = _ := hs
    have hx : Chained ⟨w, .resume t c (.native name) _ :: s', none⟩ := hm.chained
    refine ⟨_, .tail (.single (step_error_resume hx hf)) rfl, rfl, ?_⟩
    refine congrArg (Pending.mk · s') (funext fun u => ?_)
    exact (frames_leaveNative _ _ u).trans (frames_left hx.ends.1 hx.ends.2 hf _ u)

/-- What is caught later is caught. -/
theorem Caught.of_leadsTo (h : Caught B v q m') (hp : LeadsTo B m m') : Caught B v q m := by
  constructor
  case protectedCall =>
    intro t name below base hf ht hb
    obtain ⟨m₁, hm₁, hend⟩ := h.protectedCall hf ht hb
    exact ⟨m₁, hp.trans hm₁, hend⟩
  case resumeFunction =>
    intro t c name args s hs hf
    obtain ⟨m₁, hm₁, hend⟩ := h.resumeFunction hs hf
    exact ⟨m₁, hp.trans hm₁, hend⟩
  case hostCall =>
    intro t base o rest s hs hf
    obtain ⟨m₁, e, hm₁, hend⟩ := h.hostCall hs hf
    exact ⟨m₁, e, hp.trans hm₁, hend⟩
  case hostResume =>
    intro t c o rest s hs hf
    obtain ⟨m₁, e, hm₁, hend⟩ := h.hostResume hs hf
    exact ⟨m₁, e, hp.trans hm₁, hend⟩

/-- **An error keeps its value**: what host code raises comes out of every stack of layers as the
same value, whoever catches it. -/
theorem Reachable.error_value {host : HostCode H} (hm : Reachable (.standard host) m)
    {p : Program H (o.Result H)} (hc : m.control = .host o p) (ho : o ≠ .embedding)
    (hp : p.Raises v) (hl : ReflTransGen (Layer (.standard host)) m.pending q) :
    Caught (.standard host) v q m := by
  obtain ⟨w, s, control⟩ := m
  obtain rfl : control = .host o p := hc
  obtain ⟨m₁, hm₁, hu₁⟩ := unwinds_of_raises (B := .standard host) (w := w) (s := s) hp ho
  obtain ⟨m₂, hm₂, hu₂⟩ := hu₁.layers (hm.leadsTo hm₁) hl
  have hpath := hm₁.trans hm₂
  exact (hu₂.caught (hm.leadsTo hpath)).of_leadsTo hpath

end Machine

/-! ### A host that passes errors on

Its first native function calls its first argument and its second one resumes it; its sequence
calls its first argument and has the default handler. -/

def Host.relaying : Host := ⟨Bool, Unit, Bool, Empty, Empty, Unit⟩

/-- The state of the sequence tells whether it has made its call. -/
def HostCode.relaying : HostCode .relaying where
  native resumes args := match resumes, args with
    | false, callee :: args => (Program.callOrFail callee args).bind .done
    | true, .thread t :: args => (Program.resumeOrFail t args).bind .done
    | _, _ => .done []
  start _ := false
  poll called args := match called, args with
    | false, callee :: args => .done (.call callee args (.host true))
    | _, vs => .done (.return vs)
  recover _ e := .fail (.traced e)
  advance loop := loop.elim

/-- Calls, in a protected call, a function made by `wrap` that calls a native function that resumes
a coroutine whose sequence calls `error` with the global table. -/
def relayedError : Program .relaying (List Value) :=
  .define (.sequence (.protectedCall false)) fun pcall =>
  .define (.sequence (.host "run" ())) fun run =>
  .define (.native (.host "call" false)) fun call =>
  .define (.native (.host "resume" true)) fun resume =>
  .create (.function run) fun inner =>
  .create (.function call) fun outer =>
  match inner, outer with
  | .ok inner, .ok outer =>
    .define (.native (.wrap outer)) fun wrapped =>
    .call (.function pcall) [.function wrapped, .function resume, .thread inner,
      .function (.builtin (.base .error)), .table ⟨0⟩] fun
      | .ok vs => .done vs
      | .error _ => .done []
  | _, _ => .done []

namespace Machine

/-- The error passes a frame, two coroutines and two native functions; the protected call gets the
table. -/
theorem error_value_relayedError : ∃ (m : Machine .relaying) (q : Pending .relaying),
    Reachable (.standard .relaying) m ∧ ReflTransGen (Layer (.standard .relaying)) m.pending q ∧
    m.stack.length = 4 ∧ q.stack.length = 1 ∧
    q.frames .main = [⟨"pcall", .protectedCall (.calling none)⟩] ∧
    (m.run (.standard .relaying) 12).result? = some (.ok [.boolean false, .table ⟨0⟩]) ∧
    Caught (.standard .relaying) (.table ⟨0⟩) q m := by
  have hr : Reachable (.standard .relaying) (load (.initial {} ()) relayedError) :=
    ⟨[], .start (World.isFresh_initial {} ()) relayedError⟩
  -- From here on only what waits matters, and not how the run came to it.
  obtain ⟨m, b, hm, hc, hs, hinner, houter, hmain, hend⟩ :
      ∃ (m : Machine .relaying) (b : Boundary .relaying), Reachable (.standard .relaying) m ∧
        m.control = .host (.native "error") (Library.Base.error [.table ⟨0⟩]) ∧
        m.stack = [.resume ⟨1⟩ ⟨2⟩ (.native "resume")
            ((Program.resumeOrFail ⟨1⟩ []).bind .done).afterResume,
          .call ⟨2⟩ 0 (.native "call") ((Program.callOrFail .nil []).bind .done).afterCall,
          .resume ⟨2⟩ .main (.native "wrap")
            (Library.Coroutines.callWrapped ⟨2⟩ []).afterResume, b] ∧
        m.pending.frames ⟨1⟩ = [⟨"run", .host true⟩] ∧ m.pending.frames ⟨2⟩ = [] ∧
        m.pending.frames .main = [⟨"pcall", .protectedCall (.calling none)⟩] ∧
        (m.run (.standard .relaying) 12).result? = some (.ok [.boolean false, .table ⟨0⟩]) :=
    ⟨_, _, hr.run 15, rfl, rfl, rfl, rfl, rfl, rfl⟩
  have hl : ReflTransGen (Layer (.standard .relaying)) m.pending _ :=
    .head (.frame hinner ⟨_, _, hs, rfl, rfl⟩ (Nat.zero_le _)
      (raises_of_default fun _ => rfl)) <|
    .head (.resume hs rfl (by decide) (raises_resumeOrFail _ _ _)) <|
    .head (.call rfl (Nat.le_of_eq (congrArg List.length houter)) (by decide)
      (raises_callOrFail _ _ _)) <|
    .single (.resume rfl houter (by decide) (raises_callWrapped _ _))
  exact ⟨m, _, hm, hl, by rw [hs]; rfl, rfl, hmain, hend,
    Reachable.error_value hm hc (by decide) (raises_error [.table ⟨0⟩] rfl) hl⟩

end Machine

end Lua
