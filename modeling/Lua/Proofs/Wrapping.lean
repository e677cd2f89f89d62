/-
Wrapped coroutines agree with resumed ones.

A coroutine can be driven by the library function `resume`, or by the function that `wrap` makes
of it.  The first answers with true and values or with false and the value of an error; the
second returns the values or raises the error.  In all other respects they are the same:

* `Library.Coroutines.resume_eq`, `callWrapped_eq` — both functions relay a resume;
* `Agrees` — the answers of two calls that belong together;
* `Relay.agrees` — what the two functions make of one relay agrees;
* `InStep` — two rows of calls, one of each function, that go through the same worlds with answers
  that agree;
* `Machine.Reachable.wrap_agrees` — every row of calls of one function is in step with a row of
  the other.

Design notes: `create` and `wrap` make the same coroutine, but `wrap` makes a function as well.
Functions are known by numbers, so what is compared are calls of the two functions in worlds where
both exist.  A call itself can be refused for its depth, before either function is reached, and
then both calls raise.
-/
import Lua.Proofs.RelayedResumes

namespace Lua

variable {H : Host} {B : Behaviour H}

open Machine

/-! ### Both functions relay a resume -/

namespace Library.Coroutines

/-- What `resume` makes of the answer of a resume. -/
def resumeResult : Except ResumeError (List Value) → Except Raised (List Value)
  | .ok vs => .ok (.boolean true :: vs)
  | .error e => .ok [.boolean false, e.value]

/-- What a function made by `wrap` makes of it. -/
def wrappedResult : Except ResumeError (List Value) → Except Raised (List Value)
  | .ok vs => .ok vs
  | .error (.uncaught e) => .error (.traced e)
  | .error (.refused e) => .error (.cause (.coroutine e))

theorem resume_eq (t : ThreadId) (a : List Value) :
    (resume (.thread t :: a) : Program H (List Value)) = .relay t a resumeResult := by
  refine congrArg (Program.resume t a) (funext fun r => ?_)
  cases r <;> rfl

theorem callWrapped_eq (t : ThreadId) (a : List Value) :
    (callWrapped t a : Program H (List Value)) = .relay t a wrappedResult := by
  refine congrArg (Program.resume t a) (funext fun r => ?_)
  rcases r with (_ | _) | _ <;> rfl

end Library.Coroutines

open Library.Coroutines (resumeResult wrappedResult)

/-! ### Answers that agree -/

/-- The answers of a call of `resume` and of a call of the function made by `wrap`, if calls are
refused for `refusal`. -/
structure Agrees (refusal : Option CoroutineError) (r q : Except TracedError (List Value)) :
    Prop where
  /-- `resume` returns true and values where the other returns the values. -/
  returns : ∀ vs, r = .ok (.boolean true :: vs) ↔ q = .ok vs
  /-- It returns false and a value where the other raises an error with the value, unless the calls
  themselves are refused. -/
  raises : refusal = none → ∀ v, r = .ok [.boolean false, v] ↔ ∃ e, q = .error e ∧ e.value = v
  /-- If they are, both raise the refusal. -/
  refused : ∀ c, refusal = some c →
    ∃ e e', r = .error e ∧ q = .error e' ∧ e.cause = .coroutine c ∧ e'.cause = .coroutine c

/-- Where `resume` returns false, no call was refused. -/
theorem Agrees.raises_of_false {refusal : Option CoroutineError} {v : Value}
    {r q : Except TracedError (List Value)} (h : Agrees refusal r q)
    (hr : r = .ok [.boolean false, v]) : ∃ e, q = .error e ∧ e.value = v := by
  cases refusal with
  | none => exact (h.raises rfl v).mp hr
  | some c =>
    obtain ⟨e, e', he, -⟩ := h.refused c rfl
    cases he.symm.trans hr

/-- An answer of a resume is turned into answers that agree. -/
theorem agrees_of_values (vs : List Value) :
    Agrees none (.ok (.boolean true :: vs)) (.ok vs) := by
  refine ⟨fun us => ?_, fun _ v => ⟨?_, ?_⟩, nofun⟩
  · simp
  · rintro ⟨⟩
  · rintro ⟨e, he, -⟩
    cases he

theorem agrees_of_error (e : TracedError) :
    Agrees none (.ok [.boolean false, e.value]) (.error e) := by
  refine ⟨fun us => ⟨?_, nofun⟩, fun _ v => ⟨?_, ?_⟩, nofun⟩
  · rintro ⟨⟩
  · rintro ⟨⟩
    exact ⟨e, rfl, rfl⟩
  · rintro ⟨_, ⟨⟩, rfl⟩
    rfl

/-- **One relay** is answered alike by both functions. -/
theorem Relay.agrees (x : Relay) : Agrees x.refusal? (x.answer "resume" resumeResult)
    (x.answer "wrap" wrappedResult) := by
  have hraised : ∀ c : CoroutineError, ∀ e e' : TracedError, e.cause = .coroutine c →
      e'.cause = .coroutine c → Agrees (some c) (.error e) (.error e') := by
    intro c e e' he he'
    refine ⟨fun vs => ⟨nofun, nofun⟩, nofun, ?_⟩
    rintro _ ⟨⟩
    exact ⟨e, e', rfl, rfl, he, he'⟩
  cases x with
  | notCalled c => exact hraised c _ _ rfl rfl
  | notEntered c => exact hraised c _ _ rfl rfl
  | resumed r =>
    rcases r with (c | e) | vs
    · exact agrees_of_error (.raisedBy "wrap" (.coroutine c))
    · exact agrees_of_error (e.leave (.native "wrap"))
    · exact agrees_of_values vs

/-! ### Created functions stay -/

/-- Elementary changes keep the functions that were created. -/
theorem Change.functions {x y : Situation H} {es : List (ThreadId × LifeEvent)} (hc : Change x es y)
    (hx : Chained x) {i : Nat} {c : Closure H} (hi : x.world.functions[i]? = some c) :
    y.world.functions[i]? = some c := by
  cases hc with
  | @define w s o c' =>
    obtain ⟨hlt, -⟩ := Array.getElem?_eq_some_iff.mp hi
    exact (Array.getElem?_push_lt hlt).trans ((Array.getElem?_eq_getElem hlt).symm.trans hi)
  | resume t he rest =>
    obtain ⟨-, rfl⟩ := hx.entered_of_ok he
    exact hi
  | endResume input hf =>
    rw [World.leaveCoroutine_eq hx.ends.1 hx.ends.2]
    exact hi
  | @yield w s t c o rest name vs next hy =>
    have hpush := hx.pushFrame t ⟨name, next⟩
    rw [World.leaveCoroutine_eq hpush.ends.1 hpush.ends.2]
    exact hi
  | _ => exact hi

namespace World

variable {w w' w₁ : World H} {s : List (Boundary H)} {o : Owner} {callee : Value}
  {args a : List Value} {r q : Except TracedError (List Value)} {t : ThreadId} {g : Function}

/-- The function `g` was made by `wrap` for the coroutine `t`. -/
def Wraps (w : World H) (g : Function) (t : ThreadId) : Prop :=
  ∃ i, g = .created i ∧ w.functions[i]? = some (.native (.wrap t))

/-- A call by host code keeps the bookkeeping and the functions that were created. -/
theorem Call.keeps (hw : Consistent ⟨w, s, some o⟩) (hc : w.Call B callee args r w') :
    Consistent ⟨w', s, some o⟩ ∧
      ∀ (i : Nat) (c : Closure H), w.functions[i]? = some c → w'.functions[i]? = some c := by
  obtain ⟨last, hu⟩ := hc s o Program.drop
  have hm : Consistent (⟨w, s, .host o (.call callee args Program.drop)⟩ :
    Machine H).situation := hw
  refine ⟨hu.consistent hm, fun i c hi => ?_⟩
  have hstep : ∀ {x y : Situation H} {es : List (ThreadId × LifeEvent)}, Change x es y →
      Consistent x ∧ x.world.functions[i]? = some c →
        Consistent y ∧ y.world.functions[i]? = some c :=
    fun hc hx => ⟨hx.1.change hc, hc.functions hx.1.chained hx.2⟩
  have hlast := hu.keep (Q := fun x => Consistent x.situation ∧ x.world.functions[i]? = some c)
    ⟨hm, hi⟩ fun hx hs _ => (step_changes hs).keep hstep hx
  exact ((step_changes hu.step_last).keep hstep hlast).2

/-! ### Calls that agree -/

/-- The library function `resume`. -/
abbrev resumeFunction : Value := .function (.builtin (.coroutine .resume))

/-- Host code calls `callee` with one list of arguments after the other, whatever the calls
answer. -/
inductive Calls (B : Behaviour H) (callee : Value) :
    World H → List (List Value) → List (Except TracedError (List Value)) → World H → Prop
  | nil (w : World H) : Calls B callee w [] [] w
  | cons {w w₁ w' : World H} {a as r rs} (h : w.Call B callee a r w₁)
      (hs : Calls B callee w₁ as rs w') : Calls B callee w (a :: as) (r :: rs) w'

/-- Host code resumes the coroutine `t` with one list of values after the other, or it calls the
function `g` with them: the two rows of calls go through the same worlds, and the answers agree. -/
inductive InStep (B : Behaviour H) (t : ThreadId) (g : Function) :
    World H → List (List Value) → List (Except TracedError (List Value)) →
      List (Except TracedError (List Value)) → World H → Prop
  | nil (w : World H) : InStep B t g w [] [] [] w
  | cons {w w₁ w' : World H} {a as r rs q qs} (hr : w.Call B resumeFunction (.thread t :: a) r w₁)
      (hq : w.Call B (.function g) a q w₁) (h : Agrees w.callRefusal? r q)
      (hs : InStep B t g w₁ as rs qs w') : InStep B t g w (a :: as) (r :: rs) (q :: qs) w'

section Standard

variable {host : HostCode H}

theorem enter_resume (w : World H) (t : ThreadId) (a : List Value) :
    (Behaviour.standard host).enter w (.builtin (.coroutine .resume)) (.thread t :: a)
      = .native (.relay t a resumeResult) :=
  congrArg Entry.native (Library.Coroutines.resume_eq t a)

theorem Wraps.enter (h : w.Wraps g t) (a : List Value) :
    (Behaviour.standard host).enter w g a = .native (.relay t a wrappedResult) := by
  obtain ⟨i, rfl, hi⟩ := h
  rw [Behaviour.enter, hi]
  exact congrArg Entry.native (Library.Coroutines.callWrapped_eq t a)

theorem Wraps.nameOf (h : w.Wraps g t) : w.nameOf g = "wrap" := by
  obtain ⟨i, rfl, hi⟩ := h
  rw [World.nameOf, hi]
  rfl

theorem call_resume_iff (hw : Consistent ⟨w, s, some o⟩) :
    w.Call (.standard host) resumeFunction (.thread t :: a) r w' ↔
      ∃ x, w.Relayed (.standard host) t a x w' ∧ r = x.answer "resume" resumeResult :=
  call_iff_relayed hw rfl (enter_resume w t a)

theorem Wraps.call_iff (hg : w.Wraps g t) (hw : Consistent ⟨w, s, some o⟩) :
    w.Call (.standard host) (.function g) a q w' ↔
      ∃ x, w.Relayed (.standard host) t a x w' ∧ q = x.answer "wrap" wrappedResult := by
  rw [← hg.nameOf]
  exact call_iff_relayed hw rfl (hg.enter a)

/-- Both functions are called, and then the rows go on in step. -/
theorem InStep.relayed {as : List (List Value)} {rs qs : List (Except TracedError (List Value))}
    {x : Relay} (hw : Consistent ⟨w, s, some o⟩) (hg : w.Wraps g t)
    (hx : w.Relayed (.standard host) t a x w₁) (h : InStep (.standard host) t g w₁ as rs qs w') :
    InStep (.standard host) t g w (a :: as) (x.answer "resume" resumeResult :: rs)
      (x.answer "wrap" wrappedResult :: qs) w' :=
  .cons ((call_resume_iff hw).mpr ⟨x, hx, rfl⟩) ((hg.call_iff hw).mpr ⟨x, hx, rfl⟩)
    (hx.refusal ▸ x.agrees) h

theorem Call.wraps (hc : w.Call B callee args r w') (hw : Consistent ⟨w, s, some o⟩)
    (hg : w.Wraps g t) : w'.Wraps g t := by
  obtain ⟨i, rfl, hi⟩ := hg
  exact ⟨i, rfl, (hc.keeps hw).2 i _ hi⟩

theorem Calls.inStep_of_resume {as : List (List Value)}
    {rs : List (Except TracedError (List Value))} (hw : Consistent ⟨w, s, some o⟩)
    (hg : w.Wraps g t)
    (h : w.Calls (.standard host) resumeFunction (as.map (.thread t :: ·)) rs w') :
    ∃ qs, w.InStep (.standard host) t g as rs qs w' := by
  generalize hl : as.map (Value.thread t :: ·) = l at h
  induction h generalizing as with
  | nil =>
    obtain rfl := List.map_eq_nil_iff.mp hl
    exact ⟨[], .nil _⟩
  | cons hc _ ih =>
    obtain ⟨a, as, rfl, rfl, rfl⟩ := List.map_eq_cons_iff.mp hl
    obtain ⟨x, hx, rfl⟩ := (call_resume_iff hw).mp hc
    obtain ⟨qs, hin⟩ := ih (hc.keeps hw).1 (hc.wraps hw hg) rfl
    exact ⟨_, .relayed hw hg hx hin⟩

theorem Calls.inStep_of_wrapped {as : List (List Value)}
    {qs : List (Except TracedError (List Value))} (hw : Consistent ⟨w, s, some o⟩)
    (hg : w.Wraps g t) (h : w.Calls (.standard host) (.function g) as qs w') :
    ∃ rs, w.InStep (.standard host) t g as rs qs w' := by
  induction h with
  | nil => exact ⟨[], .nil _⟩
  | cons hc _ ih =>
    obtain ⟨x, hx, rfl⟩ := (hg.call_iff hw).mp hc
    obtain ⟨rs, hin⟩ := ih (hc.keeps hw).1 (hc.wraps hw hg)
    exact ⟨_, .relayed hw hg hx hin⟩

end Standard

/-! ### Main result -/

/-- Calls of the two functions by code that runs on the boundaries `s`: they end in the same world,
if they end, with outcomes that agree. -/
structure CallsAgree (B : Behaviour H) (s : List (Boundary H)) (w : World H) (t : ThreadId)
    (g : Function) (a : List Value) : Prop where
  resumed : ∀ r w', w.Leaves B s resumeFunction (.thread t :: a) r w' →
    ∃ q, w.Leaves B s (.function g) a q w' ∧ Agrees (w.nativeRefusal? (driven s)) r q
  wrapped : ∀ q w', w.Leaves B s (.function g) a q w' →
    ∃ r, w.Leaves B s resumeFunction (.thread t :: a) r w' ∧
      Agrees (w.nativeRefusal? (driven s)) r q

/-- Rows of calls of the two functions by host code: every row of the one is in step with a row of
the other. -/
structure RowsAgree (B : Behaviour H) (w : World H) (t : ThreadId) (g : Function) : Prop where
  resumed : ∀ as rs w', w.Calls B resumeFunction (as.map (.thread t :: ·)) rs w' →
    ∃ qs, w.InStep B t g as rs qs w'
  wrapped : ∀ as qs w', w.Calls B (.function g) as qs w' → ∃ rs, w.InStep B t g as rs qs w'

/-- The functions `create` and `wrap` make the same coroutine with the body `f`, and `wrap` makes a
function for it. -/
structure MadeFrom (B : Behaviour H) (f : Function) (w : World H) (t : ThreadId) (g : Function)
    (w' : World H) : Prop where
  created : ∃ w₁, (Library.Coroutines.create [.function f]).Runs B w (.ok [.thread t]) w₁ ∧
    w₁.thread t = .fresh .suspended (some (.function f)) ∧
    w' = (w₁.define (.native (.wrap t))).2
  wrapped : (Library.Coroutines.wrap [.function f]).Runs B w (.ok [.function g]) w'
  wraps : w'.Wraps g t

theorem exists_madeFrom (B : Behaviour H) (hw : Consistent ⟨w, s, some o⟩) (f : Function) :
    ∃ t g w', MadeFrom B f w t g w' ∧ Consistent ⟨w', s, some o⟩ := by
  set w₁ : World H :=
    { w with threads := w.threads.push (.fresh .suspended (some (.function f))) } with hw₁
  have hcreate : w.createCoroutine (.function f) = .ok (⟨w.threads.size⟩, w₁) := rfl
  refine ⟨⟨w.threads.size⟩, .created w.functions.size, _, ⟨⟨w₁, ?_, ?_, rfl⟩, ?_, ?_⟩,
    (hw.change (.create f)).change (.define (.native (.wrap ⟨w.threads.size⟩)))⟩
  · exact .created hcreate .done
  · rw [hw₁, thread_push, if_pos rfl]
  · exact .created hcreate (.define .done)
  · exact ⟨_, rfl, Array.getElem?_push_size⟩

end World

namespace Machine

open World

/-- **`wrap` agrees with `resume`**.  A call of `resume` for a coroutine and a call of the function
that `wrap` made of it, by code of any kind, have outcomes that agree and leave the same world.  So
do rows of calls by host code at any point of any run, from the making of the coroutine on or later,
whatever errors are raised on the way. -/
theorem Reachable.wrap_agrees {host : HostCode H} {m : Machine H} {o : Owner}
    (hm : Reachable (.standard host) m) (ho : m.control.active = some o) :
    (∀ f, ∃ t g w, MadeFrom (.standard host) f m.world t g w ∧
      RowsAgree (.standard host) w t g) ∧
    (∀ t g, m.world.Wraps g t → RowsAgree (.standard host) m.world t g) ∧
    ∀ s w t g a, w.Wraps g t → CallsAgree (.standard host) s w t g a := by
  have hcons : Consistent ⟨m.world, m.stack, some o⟩ := ho ▸ hm.consistent
  have hrows : ∀ {w t g}, Consistent ⟨w, m.stack, some o⟩ → w.Wraps g t →
      RowsAgree (.standard host) w t g := fun hw hg =>
    ⟨fun _ _ _ h => h.inStep_of_resume hw hg, fun _ _ _ h => h.inStep_of_wrapped hw hg⟩
  refine ⟨fun f => ?_, fun t g hg => hrows hcons hg, fun s w t g a hg => ⟨?_, ?_⟩⟩
  · obtain ⟨t, g, w, hmade, hw⟩ := exists_madeFrom (.standard host) hcons f
    exact ⟨t, g, w, hmade, hrows hw hmade.wraps⟩
  · intro r w' h
    obtain ⟨x, hx, rfl⟩ := (leaves_iff_relays rfl (enter_resume w t a)).mp h
    exact ⟨_, (leaves_iff_relays rfl (hg.enter a)).mpr ⟨x, hx, rfl⟩,
      by rw [hg.nameOf, ← hx.refusal]; exact x.agrees⟩
  · intro q w' h
    obtain ⟨x, hx, rfl⟩ := (leaves_iff_relays rfl (hg.enter a)).mp h
    exact ⟨_, (leaves_iff_relays rfl (enter_resume w t a)).mpr ⟨x, hx, rfl⟩,
      by rw [hg.nameOf, ← hx.refusal]; exact x.agrees⟩

/-! ### A coroutine that yields -/

/-- Makes a coroutine that yields, and the function that `wrap` makes of it. -/
def wrapYield : Program H (List Value) :=
  .define (.sequence .yield) fun yield =>
  .create (.function yield) fun t =>
  match t with
  | .ok t => .define (.native (.wrap t)) fun _ => .done []
  | .error _ => .done []

/-- The state in which `wrapYield` is done, on an instance with certain limits. -/
def wrapYieldDone (limits : Configuration) : Machine .bare :=
  (load (.initial limits ()) wrapYield).run .bare 3

theorem reachable_wrapYieldDone (limits : Configuration) :
    Reachable .bare (wrapYieldDone limits) :=
  ⟨_, (Run.start (World.isFresh_initial (H := .bare) limits ()) wrapYield).run 3⟩

theorem wraps_wrapYieldDone (limits : Configuration) :
    (wrapYieldDone limits).world.Wraps (.created 1) ⟨1⟩ := ⟨1, rfl, rfl⟩

/-- The coroutine of `wrapYield` yields, returns and is dead. -/
theorem wrapYield_calls : ∃ w', (wrapYieldDone {}).world.Calls .bare resumeFunction
    ([[.boolean false], [.boolean true], []].map (.thread ⟨1⟩ :: ·))
    [.ok [.boolean true, .boolean false], .ok [.boolean true, .boolean true],
      .ok [.boolean false, Cause.value (.coroutine .resumeDead)]] w' :=
  ⟨_, .cons (call_of_isAnswered 6 rfl rfl) <| .cons (call_of_isAnswered 7 rfl rfl) <|
    .cons (call_of_isAnswered 4 rfl rfl) <| .nil _⟩

/-- Its function returns what `resume` returns, and then raises the error. -/
theorem wrap_agrees_wrapYield : ∃ w' e, e.value = Cause.value (.coroutine .resumeDead) ∧
    (wrapYieldDone {}).world.InStep .bare ⟨1⟩ (.created 1)
      [[.boolean false], [.boolean true], []]
      [.ok [.boolean true, .boolean false], .ok [.boolean true, .boolean true],
        .ok [.boolean false, Cause.value (.coroutine .resumeDead)]]
      [.ok [.boolean false], .ok [.boolean true], .error e] w' := by
  have hm : Reachable (.standard .bare) (wrapYieldDone {}) := reachable_wrapYieldDone {}
  obtain ⟨w', hcalls⟩ := wrapYield_calls
  obtain ⟨qs, hin⟩ := ((Reachable.wrap_agrees hm rfl).2.1 _ _ (wraps_wrapYieldDone {})).resumed
    _ _ _ hcalls
  cases hin with
  | cons hr₁ hq₁ h₁ hin =>
    cases hin with
    | cons hr₂ hq₂ h₂ hin =>
      cases hin with
      | cons hr₃ hq₃ h₃ hin =>
        cases hin
        obtain rfl := (h₁.returns _).mp rfl
        obtain rfl := (h₂.returns _).mp rfl
        obtain ⟨e, rfl, he⟩ := h₃.raises_of_false rfl
        exact ⟨w', e, he, .cons hr₁ hq₁ h₁ (.cons hr₂ hq₂ h₂ (.cons hr₃ hq₃ h₃ (.nil _)))⟩

/-- An instance on which a call by host code leaves no level of the host stack to what it calls. -/
def oneLevel : Configuration := { maxHostDepth := 1 }

/-- Where the call of `resume` itself is refused, `resume` raises, and returns no false. -/
theorem resume_raises_oneLevel :
    Reachable .bare (wrapYieldDone oneLevel) ∧
    (wrapYieldDone oneLevel).control.active = some .embedding ∧
    (wrapYieldDone oneLevel).world.Wraps (.created 1) ⟨1⟩ ∧
    ∃ r q w', (wrapYieldDone oneLevel).world.Call .bare resumeFunction [.thread ⟨1⟩] r w' ∧
      (wrapYieldDone oneLevel).world.Call .bare (.function (.created 1)) [] q w' ∧
      ¬ ∀ v, r = .ok [.boolean false, v] ↔ ∃ e, q = .error e ∧ e.value = v := by
  refine ⟨reachable_wrapYieldDone oneLevel, rfl, wraps_wrapYieldDone oneLevel,
    .error (.raisedBy "resume" (.coroutine (.hostDepthExceeded 1))),
    .error (.raisedBy "wrap" (.coroutine (.hostDepthExceeded 1))), _,
    call_of_isAnswered 2 rfl rfl, call_of_isAnswered 2 rfl rfl, fun h => ?_⟩
  have hfalse := (h (Cause.value (.coroutine (.hostDepthExceeded 1)))).mpr ⟨_, rfl, rfl⟩
  cases hfalse

end Machine

end Lua
