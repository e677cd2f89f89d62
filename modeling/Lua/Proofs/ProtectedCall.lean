/-
Protected calls contain every failure.

The frame of a protected call makes a call and waits for its outcome.  Results become true and
the results.  An error becomes false and the value of the error, or it is given to the handler,
and then the outcome of the handler decides; the handler is not asked again.

* `Machine.Awaits` — a frame has made a call: it stays where it is until the outcome comes to
  it, and what it does then;
* `Machine.GoesOn.awaits` — so does every frame that is polled and asks for a call;
* `Machine.Contained` — the course of a protected call;
* `Machine.Reachable.protected_call` — every protected call takes it.

Design notes: the outcome of a call is the input with which its frame goes on, with no frame
above it.  Nothing is assumed of what happens meanwhile: the callee need not be a function, it may
fail at once, call and resume anything, and yield any number of times, across programs of the
host.
-/
import Lua.Proofs.Waiting

namespace Lua

variable {H : Host}

namespace Machine

variable {B : Behaviour H} {m : Machine H} {t : ThreadId} {f : Frame H} {a : Activation H}
  {below : List (Frame H)} {input : Input} {callee : Value} {args vs : List Value}

/-! ### Frames that call and return -/

/-- The state in which the frame `f` has just made a call from above the frames `below`. -/
def calling (B : Behaviour H) (t : ThreadId) (f : Frame H) (below : List (Frame H))
    (callee : Value) (args : List Value) (m : Machine H) : Machine H :=
  let called := ((m.world.setFrames t below).pushFrame t f).invoke B t callee args
  ⟨called.1, m.stack, called.2⟩

/-- The topmost frame returns: it is gone, and the frames below it get the results. -/
structure Returns (B : Behaviour H) (t : ThreadId) (below : List (Frame H)) (vs : List Value)
    (m : Machine H) : Prop where
  run : m.run B 2 = ⟨m.world.setFrames t below, m.stack, .drive (.values vs)⟩
  frames : ((m.run B 2).world.thread t).frames = below

/-- The states while a frame waits, up to and including those in which it goes on. -/
abbrev Meanwhile (B : Behaviour H) (t : ThreadId) (f : Frame H) (below : List (Frame H)) :
    Machine H → Machine H → Prop :=
  Upto B fun x => ∃ input, GoesOn t f below input x

/-- The frame `f` has made a call and waits for its outcome. -/
structure Awaits (B : Behaviour H) (t : ThreadId) (f : Frame H) (below : List (Frame H))
    (m : Machine H) (next : Input → Machine H → Prop) : Prop where
  /-- It stays above the frames below it until it goes on, unless its thread is closed. -/
  waits : ∀ {x}, Meanwhile B t f below m x → x.world.Holds t (f :: below) ∨
    ClosedOn B (fun x => ∃ input, GoesOn t f below input x) t m x
  /-- A call that fails at once is an outcome. -/
  refused : ∀ {e}, m.control = .drive (.error e) → GoesOn t f below (.error e) m
  /-- So is a yield that is not allowed. -/
  rejected : ∀ {x name vs next e base}, Meanwhile B t f below m x →
    x.control = .host (.poll name) (.done (.yield vs next)) →
    (x.world.thread t).frames = f :: below → Top t base x.stack → base ≤ below.length →
    x.world.checkYield t = .error e →
      ∃ y, x.step B = some y ∧ GoesOn t f below (.error (.raisedBy name (.coroutine e))) y
  /-- With the outcome it goes on. -/
  answered : ∀ {x input}, Meanwhile B t f below m x → GoesOn t f below input x → next input x

namespace GoesOn

theorem has (h : GoesOn t f below input m) : m.world.Has t :=
  (World.Holds.of_frames h.frames).has (List.cons_ne_nil _ _)

theorem thread_setFrames (h : GoesOn t f below input m) :
    ((m.world.setFrames t below).thread t).frames = below := by
  rw [World.setFrames, World.thread_modifyThread h.has, if_pos rfl]

/-- A frame whose poll asks for a call. -/
theorem run_call (h : GoesOn t f below input m)
    (hp : B.goOn f input = .done (.call callee args a)) :
    m.run B 2 = m.calling B t ⟨f.name, a⟩ below callee args := by
  obtain ⟨base, htop, -⟩ := h.driven
  have hsecond : Machine.step B ⟨m.world.setFrames t below, m.stack,
      .host (.poll f.name) (.done (.call callee args a))⟩
        = some (m.calling B t ⟨f.name, a⟩ below callee args) := by
    show perform B _ m.stack f.name (.call callee args a) = _
    rw [perform, htop.driven]
    rfl
  simp only [Machine.run, h.step, hp, hsecond]

/-- A frame whose poll returns. -/
theorem run_return (h : GoesOn t f below input m) (hp : B.goOn f input = .done (.return vs)) :
    Returns B t below vs m := by
  have hrun : m.run B 2 = ⟨m.world.setFrames t below, m.stack, .drive (.values vs)⟩ := by
    simp only [Machine.run, h.step, hp]
    rfl
  refine ⟨hrun, ?_⟩
  rw [hrun]
  exact h.thread_setFrames

/-- **A frame that has made a call** waits for its outcome and nothing else. -/
theorem awaits (hm : Reachable B m) (h : GoesOn t f below input m)
    (hp : B.goOn f input = .done (.call callee args a)) {next : Input → Machine H → Prop}
    (hnext : ∀ i x, Reachable B x → GoesOn t ⟨f.name, a⟩ below i x → next i x) :
    Awaits B t ⟨f.name, a⟩ below (m.run B 2) next := by
  have hrun := h.run_call hp
  have hr : Reachable B (m.run B 2) := hm.run 2
  obtain ⟨base, htop, hbase⟩ := h.driven
  set pushed := (m.world.setFrames t below).pushFrame t ⟨f.name, a⟩ with hpushed
  have hframes : (pushed.thread t).frames = ⟨f.name, a⟩ :: below := by
    have hhas : (m.world.setFrames t below).Has t := World.has_modifyThread.mpr h.has
    rw [hpushed, World.pushFrame, World.thread_modifyThread hhas, if_pos rfl, h.thread_setFrames]
  have hholds : (m.run B 2).world.Holds t (⟨f.name, a⟩ :: below) := by
    rw [hrun]
    exact (World.Holds.of_frames hframes).invoke B t callee args
  constructor
  case waits => exact fun hx => hx.waits hr hholds
  case refused =>
    intro e he
    rw [hrun] at he ⊢
    exact goesOn_of_invoke htop hbase hframes he
  case rejected =>
    intro x name vs next e b hx hc hf ht hb hy
    obtain ⟨w, s, control⟩ := x
    obtain rfl : control = _ := hc
    refine ⟨⟨w, s, .drive (.error (.raisedBy name (.coroutine e)))⟩, ?_, rfl, hf, b, ht, hb⟩
    show perform B w s name (.yield vs next) = _
    have hy' : w.checkYield (Machine.driven s) = .error e := by
      rw [ht.driven]
      exact hy
    rw [perform]
    simp only [hy']
  case answered => exact fun hx hg => hnext _ _ (hx.reachable hr) hg

end GoesOn

/-! ### Protected calls -/

/-- The course of a protected call whose frame, named `name`, has just been pushed above the
frames `below`. -/
structure Contained (B : Behaviour H) (t : ThreadId) (name : String) (below : List (Frame H))
    (handler : Option Value) (callee : Value) (args : List Value) (m : Machine H) : Prop where
  /-- It calls the function. -/
  calls : m.run B 2
    = m.calling B t ⟨name, .protectedCall (.calling handler)⟩ below callee args
  /-- Then it waits for the outcome, and returns or calls the handler. -/
  awaits : Awaits B t ⟨name, .protectedCall (.calling handler)⟩ below (m.run B 2)
    fun outcome x => match outcome, handler with
      | .values vs, _ => Returns B t below (.boolean true :: vs) x
      | .error e, none => Returns B t below [.boolean false, e.value] x
      | .error e, some h =>
        x.run B 2 = x.calling B t ⟨name, .protectedCall .handling⟩ below h [e.value] ∧
        -- The handler has been called; its outcome decides, and it is not called again.
        Awaits B t ⟨name, .protectedCall .handling⟩ below (x.run B 2) fun outcome y =>
          match outcome with
          | .values vs => Returns B t below [.boolean false, Values.first vs] y
          | .error e => Returns B t below [.boolean false, e.value] y

variable {host : HostCode H} {name : String} {handler : Option Value}

/-- The first poll of a protected call asks for the call. -/
theorem goOn_start :
    (Behaviour.standard host).goOn ⟨name, .protectedCall (.start handler.isSome)⟩
        (.values (callee :: (handler.toList ++ args)))
      = .done (.call callee args (.protectedCall (.calling handler))) := by
  cases handler with
  | none => rfl
  | some h => rfl

/-- **Protected calls contain every failure**: with at least one argument, two for a call with a
handler, the frame returns exactly what the outcomes of the call and of the handler come to. -/
theorem Reachable.protected_call (hm : Reachable (.standard host) m)
    (hg : GoesOn t ⟨name, .protectedCall (.start handler.isSome)⟩ below
      (.values (callee :: (handler.toList ++ args))) m) :
    Contained (.standard host) t name below handler callee args m := by
  refine ⟨hg.run_call goOn_start, hg.awaits hm goOn_start fun outcome x hx hgx => ?_⟩
  cases outcome with
  | values vs => exact hgx.run_return rfl
  | error e =>
    cases handler with
    | none => exact hgx.run_return rfl
    | some h =>
      refine ⟨hgx.run_call rfl, hgx.awaits hx rfl fun outcome y hy hgy => ?_⟩
      cases outcome with
      | values vs => exact hgy.run_return rfl
      | error e₂ => exact hgy.run_return rfl

/-- Resumes a coroutine that calls `error` in a protected call, with `error` as the handler. -/
def handledError : Program H (List Value) :=
  .define (.sequence (.protectedCall true)) fun xpcall =>
  .create (.function xpcall) fun t =>
  match t with
  | .ok t =>
    let error := Value.function (.builtin (.base .error))
    .resume t [error, error, .boolean false] fun
      | .ok vs => .done vs
      | .error e => .done [e.value]
  | .error _ => .done []

/-- The handler fails too, with the value that it was given. -/
theorem protected_call_handledError : ∃ m : Machine .bare, Reachable .bare m ∧
    (m.run .bare 12).result? = some (.ok [.boolean false, .boolean false]) ∧
    Contained .bare ⟨1⟩ "xpcall" [] (some (.function (.builtin (.base .error))))
      (.function (.builtin (.base .error))) [.boolean false] m := by
  have hm : Reachable (.standard .bare) ((load .bare handledError).run .bare 3) :=
    reachable_bare handledError 3
  refine ⟨_, hm, rfl, Reachable.protected_call hm ⟨rfl, rfl, 0, ?_, le_rfl⟩⟩
  exact ⟨_, _, rfl, rfl, rfl⟩

end Machine

end Lua
