/-
Calls of functions that resume a coroutine.

Some native functions do nothing but resume a coroutine and end with what they make of the answer.
How far a call of such a function gets, and the world it leaves, does not depend on what the
function makes of the answer:

* `Relay` — how far a call gets: it is refused, its function is not entered, or the coroutine
  is resumed and answers;
* `World.Leaves` — a call by any code, up to the point where its outcome is given to whoever called;
* `World.leaves_iff_relays` — in any state of the machine, such a call is a relay;
* `World.Resume.handedBack` — a resume hands back exactly, whoever makes it;
* `World.call_iff_relayed` — a call by host code is a relay, too.

Design notes: a native function runs on the thread that calls it, so a call of it by a frame and
one by host code differ only in what the call itself takes.  For the frames to be as a host call
left them, the bookkeeping has to be `Consistent`; the state need not be one of a run.
-/
import Lua.Proofs.Execution
import Lua.Proofs.HandBack

namespace Lua

variable {H : Host} {B : Behaviour H}

open Machine

/-! ### Waits and what they pass -/

namespace Machine

variable {P Q : Machine H → Prop} {m m₁ m' last last' : Machine H} {b : Boundary H}
  {s front : List (Boundary H)}

/-- What comes with a property is met no later than the property. -/
theorem Until.weaken (hu : Until B P m last m') (hQ : ∀ x, P x → Q x) :
    ∃ last₁ m₁, Until B Q m last₁ m₁ ∧ (m₁ = m' ∨ ¬ P m₁ ∧ Until B P m₁ last m') := by
  induction hu with
  | @now m m' hs hp => exact ⟨m, m', .now hs (hQ m' hp), .inl rfl⟩
  | @later m m₁ last m' hs hn hu ih =>
    by_cases hq : Q m₁
    · exact ⟨m, m₁, .now hs hq, .inr ⟨hn, hu⟩⟩
    · obtain ⟨last₂, m₂, hu₂, hrest⟩ := ih
      exact ⟨last₂, m₂, .later hs hq hu₂, hrest⟩

theorem Until.trans (hu : Until B Q m last m₁) (hQ : ∀ x, P x → Q x) (hn : ¬ P m₁)
    (hu' : Until B P m₁ last' m') : Until B P m last' m' := by
  induction hu with
  | now hs _ => exact .later hs hn hu'
  | later hs hnq _ ih => exact .later hs (fun hp => hnq (hQ _ hp)) (ih hn hu')

/-- What holds just before the end of a wait is met for the first time during the wait. -/
theorem Until.first (hu : Until B P m last m') (hl : Q last) :
    ∃ m₁, (Q m ∧ m₁ = m ∨ ¬ Q m ∧ ∃ last₁, Until B Q m last₁ m₁) ∧ Until B P m₁ last m' := by
  induction hu with
  | @now m m' hs hp => exact ⟨m, .inl ⟨hl, rfl⟩, .now hs hp⟩
  | @later m m₁ last m' hs hn hu ih =>
    by_cases hq : Q m
    · exact ⟨m, .inl ⟨hq, rfl⟩, .later hs hn hu⟩
    · obtain ⟨m₂, hfirst, hu₂⟩ := ih hl
      refine ⟨m₂, .inr ⟨hq, ?_⟩, hu₂⟩
      rcases hfirst with ⟨hq₁, rfl⟩ | ⟨hnq, last₂, hlast₂⟩
      · exact ⟨m, .now hs hq₁⟩
      · exact ⟨last₂, .later hs hnq hlast₂⟩

/-- A move from above some boundaries leads to a state above them or to them. -/
theorem above_of_step (hs : m.step B = some m') (hm : m.stack = front ++ s) (hf : front ≠ []) :
    ∃ front', m'.stack = front' ++ s := by
  rcases step_stack hs with hk | ⟨b', hk⟩ | ⟨b', s', w, oc, hms, -, hfall⟩
  · exact ⟨front, hk.trans hm⟩
  · exact ⟨b' :: front, by rw [hk, hm]; rfl⟩
  · cases front with
    | nil => exact absurd rfl hf
    | cons c front =>
      obtain ⟨-, rfl⟩ := List.cons.inj (hms.symm.trans hm)
      exact ⟨front, (fall_situation hfall).1⟩

theorem append_cons_ne_self (front : List (Boundary H)) (b : Boundary H) (s : List (Boundary H)) :
    front ++ b :: s ≠ s := by
  intro he
  have hlen := congrArg List.length he
  simp at hlen
  omega

/-- A wait above a boundary is over before the boundary falls. -/
theorem Until.before_fall (hu : Until B (fun x => x.stack = b :: s) m last m₁)
    (hm : m.stack = front ++ b :: s) (hf : front ≠ [])
    (hu' : Until B (fun x => x.stack = s) m₁ last' m') :
    Until B (fun x => x.stack = s) m last' m' := by
  induction hu generalizing front with
  | now hs hp =>
    refine .later hs ?_ hu'
    rw [hp]
    exact List.cons_ne_self _ _
  | later hs hn _ ih =>
    obtain ⟨front', hm'⟩ := above_of_step hs hm hf
    have hf' : front' ≠ [] := by
      rintro rfl
      exact hn hm'
    refine .later hs ?_ (ih hm' hf' hu')
    rw [hm']
    exact append_cons_ne_self front' b s

end Machine

/-! ### How far a call gets -/

/-- What is given to the code that called a function. -/
def Input.ofAnswer : Except TracedError (List Value) → Input
  | .ok vs => .values vs
  | .error e => .error e

theorem Input.answer_ofAnswer (r : Except TracedError (List Value)) :
    (Input.ofAnswer r).outcome.answer = r := by
  cases r <;> rfl

theorem Input.ofAnswer_injective {r r' : Except TracedError (List Value)}
    (h : Input.ofAnswer r = .ofAnswer r') : r = r' := by
  rw [← Input.answer_ofAnswer r, h, Input.answer_ofAnswer]

theorem Input.ofAnswer_answer (input : Input) : .ofAnswer input.outcome.answer = input := by
  cases input <;> rfl

/-- How far a call of a native function gets that resumes a coroutine: the call is refused, or the
function is not entered, or the resume answers. -/
inductive Relay where
  | notCalled (e : CoroutineError)
  | notEntered (e : CoroutineError)
  | resumed (r : Except ResumeError (List Value))

namespace Relay

/-- Why the function was not reached. -/
def refusal? : Relay → Option CoroutineError
  | .notCalled e => some e
  | .notEntered e => some e
  | .resumed _ => none

/-- The answer of a call of the function `name` that makes `k` of the answer of the resume. -/
def answer (name : String) (k : Except ResumeError (List Value) → Except Raised (List Value)) :
    Relay → Except TracedError (List Value)
  | .notCalled e => .error (.untraced (.coroutine e))
  | .notEntered e => .error (.raisedBy name (.coroutine e))
  | .resumed r => (k r).mapError (Raised.leave name)

end Relay

/-- Native code that resumes a coroutine and ends with what `k` makes of the answer. -/
def Program.relay (t : ThreadId) (args : List Value)
    (k : Except ResumeError (List Value) → Except Raised (List Value)) :
    Program H (List Value) :=
  .resume t args fun r => .ending (k r)

/-- Host code that makes nothing of an answer. -/
def Program.drop {α β : Type} (_ : α) : Program H β := .fail (.cause (.broken ""))

namespace World

variable {w w' w₁ : World H} {s : List (Boundary H)} {callee : Value} {args args' a vs : List Value}
  {f : Function} {t u : ThreadId} {o : Owner} {x : Relay} {r : Except TracedError (List Value)}
  {k : Except ResumeError (List Value) → Except Raised (List Value)}

/-- Why host code may not make a call. -/
def hostRefusal? (w : World H) : Option CoroutineError :=
  if w.limits.maxHostDepth ≤ w.hostDepth then some (.hostDepthExceeded w.hostDepth) else none

/-- Why a native function that is called on a thread is not entered. -/
def nativeRefusal? (w : World H) (t : ThreadId) : Option CoroutineError :=
  if w.limits.maxCallDepth ≤ (w.thread t).callDepth then
    some (.stackOverflow (w.thread t).callDepth)
  else w.hostRefusal?

/-- The world in which host code has begun a call. -/
def inCall (w : World H) : World H :=
  ({ w with hostDepth := w.hostDepth + 1 } : World H).enterNonYieldable w.current

/-- Why host code that calls a native function does not reach it. -/
def callRefusal? (w : World H) : Option CoroutineError :=
  w.hostRefusal? <|> w.inCall.nativeRefusal? w.current

theorem hostRefusal_eq_none : w.hostRefusal? = none ↔ w.hostDepth < w.limits.maxHostDepth := by
  simp [hostRefusal?]

theorem nativeRefusal_eq_none : w.nativeRefusal? u = none ↔
    (w.thread u).callDepth < w.limits.maxCallDepth ∧ w.hostDepth < w.limits.maxHostDepth := by
  rw [nativeRefusal?, ← hostRefusal_eq_none]
  by_cases hd : w.limits.maxCallDepth ≤ (w.thread u).callDepth
  · simp [hd]
  · simp [hd, Nat.lt_of_not_le hd]

theorem enterHost_of_hostRefusal {e : CoroutineError} (h : w.hostRefusal? = some e) :
    w.enterHost = .error e := by
  rw [hostRefusal?] at h
  rw [enterHost]
  by_cases hh : w.limits.maxHostDepth ≤ w.hostDepth
  · rw [if_pos hh] at h ⊢
    exact congrArg Except.error (Option.some.inj h)
  · rw [if_neg hh] at h
    cases h

theorem enterHost_of_no_refusal (h : w.hostRefusal? = none) :
    w.enterHost = .ok { w with hostDepth := w.hostDepth + 1 } := by
  rw [hostRefusal?] at h
  rw [enterHost]
  by_cases hh : w.limits.maxHostDepth ≤ w.hostDepth
  · rw [if_pos hh] at h
    cases h
  · rw [if_neg hh]

/-! ### Calls by any code -/

/-- A call of a native function on the thread `u` ends as `x` and leaves the world `w'`, if the
function resumes the coroutine `t` with the values `a`. -/
inductive Relays (B : Behaviour H) (w : World H) (u t : ThreadId) (a : List Value) :
    Relay → World H → Prop
  | notEntered {e} (h : w.nativeRefusal? u = some e) : Relays B w u t a (.notEntered e) w
  | resumed {r v} (h : w.nativeRefusal? u = none) (hr : (w.inNative u).Resume B t a r v) :
      Relays B w u t a (.resumed r) (v.exitNative u).exitHost

theorem Relays.refusal (h : w.Relays B u t a x w') : x.refusal? = w.nativeRefusal? u := by
  cases h with
  | notEntered h => exact h.symm
  | resumed h _ => exact h.symm

/-- The function `callee` is called by code that runs on the boundaries `s`, and the outcome `r` is
given to that code in the world `w'`. -/
def Leaves (B : Behaviour H) (s : List (Boundary H)) (w : World H) (callee : Value)
    (args : List Value) (r : Except TracedError (List Value)) (w' : World H) : Prop :=
  Left B ⟨(w.invoke B (driven s) callee args).1, s, (w.invoke B (driven s) callee args).2⟩
    ⟨w', s, .drive (.ofAnswer r)⟩

theorem invoke_of_nativeRefusal {p : Program H (List Value)} {e : CoroutineError}
    (hp : w.memory.heap.prepareCall callee args = .ok (f, args'))
    (hf : B.enter w f args' = .native p) (h : w.nativeRefusal? u = some e) :
    w.invoke B u callee args = (w, .drive (.error (.raisedBy (w.nameOf f) (.coroutine e)))) := by
  rw [nativeRefusal?] at h
  rw [invoke, hp]
  simp only
  by_cases hd : w.limits.maxCallDepth ≤ (w.thread u).callDepth
  · rw [if_pos hd] at h ⊢
    rw [Option.some.inj h]
  · rw [if_neg hd] at h ⊢
    simp only [hf, enterHost_of_hostRefusal h]

theorem invoke_of_no_refusal {p : Program H (List Value)}
    (hp : w.memory.heap.prepareCall callee args = .ok (f, args'))
    (hf : B.enter w f args' = .native p) (h : w.nativeRefusal? u = none) :
    w.invoke B u callee args = (w.inNative u, .host (.native (w.nameOf f)) p) := by
  rw [nativeRefusal?] at h
  rw [invoke, hp]
  simp only
  by_cases hd : w.limits.maxCallDepth ≤ (w.thread u).callDepth
  · rw [if_pos hd] at h
    cases h
  · rw [if_neg hd] at h ⊢
    simp only [hf, enterHost_of_no_refusal h]
    rfl

/-- The end of a native function. -/
theorem step_ending (name : String) (q : Except Raised (List Value)) :
    step B ⟨w, s, .host (.native name) (.ending q)⟩
      = some ⟨(w.exitNative (driven s)).exitHost, s,
          .drive (.ofAnswer (q.mapError (Raised.leave name)))⟩ := by
  cases q <;> rfl

/-- The outcome of a native function that resumes a coroutine, once it runs. -/
theorem until_left_iff {name : String} {m' : Machine H} :
    (∃ last, Until B (fun m => m.stack = s ∧ m.control.active = none)
      ⟨w, s, .host (.native name) (.relay t a k)⟩ last m') ↔
    ∃ r v, w.Resume B t a r v ∧ m' = ⟨(v.exitNative (driven s)).exitHost, s,
      .drive (.ofAnswer ((k r).mapError (Raised.leave name)))⟩ := by
  have hactive : ∀ {p : Program H (List Value)},
      ¬ (s = s ∧ Control.active (.host (.native name) p : Control H) = none) :=
    fun h => Option.some_ne_none _ h.2
  constructor
  · rintro ⟨last, hu⟩
    obtain ⟨last₁, m₁, hu₁, hrest⟩ := hu.weaken (Q := fun m => m.stack = s) fun _ h => h.1
    obtain ⟨r, v, rfl, hr⟩ := resume_of_until hu₁
    refine ⟨r, v, hr, ?_⟩
    rcases hrest with rfl | ⟨-, hu₂⟩
    · exact absurd hu.holds hactive
    · exact (hu₂.eq_of_step (step_ending name (k r)) ⟨rfl, rfl⟩).1
  · rintro ⟨r, v, hr, rfl⟩
    obtain ⟨last, hu⟩ := hr s (.native name) fun r => .ending (k r)
    exact ⟨_, hu.trans (fun _ h => h.1) hactive (.now (step_ending name (k r)) ⟨rfl, rfl⟩)⟩

/-- **A call** of a function that resumes a coroutine is a relay, whoever makes it. -/
theorem leaves_iff_relays (hp : w.memory.heap.prepareCall callee args = .ok (f, args'))
    (hf : B.enter w f args' = .native (.relay t a k)) :
    w.Leaves B s callee args r w' ↔
      ∃ x, w.Relays B (driven s) t a x w' ∧ r = x.answer (w.nameOf f) k := by
  cases hn : w.nativeRefusal? (driven s) with
  | some e =>
    rw [Leaves, invoke_of_nativeRefusal hp hf hn]
    constructor
    · rintro (⟨-, hm⟩ | ⟨ha, -⟩)
      · obtain ⟨rfl, -, hc⟩ := Machine.mk.inj hm
        exact ⟨.notEntered e, .notEntered hn, Input.ofAnswer_injective (Control.drive.inj hc)⟩
      · exact absurd rfl ha
    · rintro ⟨x, hx, rfl⟩
      cases hx with
      | notEntered h =>
        obtain rfl := Option.some.inj (hn.symm.trans h)
        exact .inl ⟨rfl, rfl⟩
      | resumed h _ => cases hn.symm.trans h
  | none =>
    rw [Leaves, invoke_of_no_refusal hp hf hn]
    constructor
    · rintro (⟨ha, -⟩ | ⟨-, hl⟩)
      · cases ha
      · obtain ⟨r', v, hr, hm⟩ := until_left_iff.mp hl
        obtain ⟨rfl, -, hc⟩ := Machine.mk.inj hm
        exact ⟨.resumed r', .resumed hn hr, Input.ofAnswer_injective (Control.drive.inj hc)⟩
    · rintro ⟨x, hx, rfl⟩
      cases hx with
      | notEntered h => cases hn.symm.trans h
      | resumed _ hr => exact .inr ⟨Option.some_ne_none _, until_left_iff.mpr ⟨_, _, hr, rfl⟩⟩

/-! ### Calls by host code -/

/-- A call by host code of a function that resumes the coroutine `t` with the values `a` ends as `x`
and leaves the world `w'`. -/
inductive Relayed (B : Behaviour H) (w : World H) (t : ThreadId) (a : List Value) :
    Relay → World H → Prop
  | notCalled {e} (h : w.hostRefusal? = some e) : Relayed B w t a (.notCalled e) w
  | called {x v} (h : w.hostRefusal? = none) (hx : w.inCall.Relays B w.current t a x v) :
      Relayed B w t a x (v.leaveCall w.current)

theorem Relayed.refusal (h : w.Relayed B t a x w') : x.refusal? = w.callRefusal? := by
  cases h with
  | notCalled h =>
    rw [callRefusal?, h]
    rfl
  | called h hx =>
    rw [callRefusal?, h, hx.refusal]
    rfl

/-- A resume hands back exactly, whoever makes it. -/
theorem Resume.handedBack {r : Except ResumeError (List Value)}
    (hw : Consistent ⟨w, s, some o⟩) (h : w.Resume B t a r w') : w.HandedBack w' := by
  obtain ⟨last, hu⟩ := h s o Program.drop
  have hm : Consistent (⟨w, s, .host o (.resume t a Program.drop)⟩ : Machine H).situation := hw
  obtain ⟨m₁, hs⟩ := hu.step_first
  rcases step_resume_of_consistent hm rfl hs with ⟨e, -, h₁⟩ | ⟨c, h₁, hi⟩
  · obtain ⟨hm', -⟩ := hu.eq_of_step hs (by rw [h₁])
    rw [show w' = w from congrArg Machine.world (hm'.trans h₁)]
    exact .refl w
  · exact (hu.handedBack_of_consistent hm rfl hs h₁ hi).2

/-- A relay leaves the frames of the thread that calls as they were. -/
theorem Relays.frames {b : Boundary H} (hw : Consistent ⟨w, b :: s, none⟩)
    (h : w.Relays B b.thread t a x w') :
    (w'.thread b.thread).frames = (w.thread b.thread).frames := by
  cases h with
  | notEntered => rfl
  | @resumed r v h hr =>
    obtain ⟨hd, hh⟩ := nativeRefusal_eq_none.mp h
    have hin : Consistent ⟨w.inNative b.thread, b :: s, some (.native "")⟩ :=
      hw.change (.native "" hd hh)
    have hmem : b.thread ∈ (w.inNative b.thread).chain :=
      hin.chained.mem_chain_iff.mpr (driven_mem_chain hin.chained.linked)
    calc ((v.exitNative b.thread).exitHost.thread b.thread).frames
        = (v.thread b.thread).frames := keep_modifyThread Thread.frames b.thread
      _ = ((w.inNative b.thread).thread b.thread).frames :=
        congrArg Thread.frames ((hr.handedBack hin).threads b.thread hmem)
      _ = (w.thread b.thread).frames :=
        keep_modifyThread (w := { w with hostDepth := w.hostDepth + 1 }) Thread.frames b.thread

/-- The boundary of a call by host code. -/
def callBoundary (w : World H) (o : Owner)
    (rest : Except TracedError (List Value) → Program H (o.Result H)) : Boundary H :=
  .call w.current (w.thread w.current).frames.length o rest

theorem step_call_of_no_refusal (h : w.hostRefusal? = none) (s : List (Boundary H)) (o : Owner)
    (rest : Except TracedError (List Value) → Program H (o.Result H)) :
    step B ⟨w, s, .host o (.call callee args rest)⟩
      = some ⟨(w.inCall.invoke B w.current callee args).1, w.callBoundary o rest :: s,
          (w.inCall.invoke B w.current callee args).2⟩ := by
  show some (beginCall B w s o callee args rest) = _
  rw [beginCall_eq, if_neg (Nat.not_le_of_lt (hostRefusal_eq_none.mp h))]
  rfl

theorem consistent_inCall (hw : Consistent ⟨w, s, some o⟩) (h : w.hostRefusal? = none)
    (rest : Except TracedError (List Value) → Program H (o.Result H)) :
    Consistent ⟨w.inCall, w.callBoundary o rest :: s, none⟩ :=
  hw.change (.call (hostRefusal_eq_none.mp h) rest)

/-- Once its function is left, a call is answered. -/
theorem step_answer (hw : Consistent ⟨w, s, some o⟩) (hn : w.hostRefusal? = none)
    (h : w.inCall.Relays B w.current t a x w₁) (s' : List (Boundary H)) (o' : Owner)
    (rest : Except TracedError (List Value) → Program H (o'.Result H)) :
    step B ⟨w₁, w.callBoundary o' rest :: s', .drive (.ofAnswer r)⟩
      = some ⟨w₁.leaveCall w.current, s', .host o' (rest r)⟩ := by
  have hcons := consistent_inCall hw hn Program.drop
  have hframes : (w₁.thread w.current).frames = (w.thread w.current).frames :=
    (Relays.frames hcons h).trans
      (keep_modifyThread (w := { w with hostDepth := w.hostDepth + 1 }) Thread.frames _)
  have htop : Top w.current (w.thread w.current).frames.length (w.callBoundary o' rest :: s') :=
    ⟨_, _, rfl, rfl, rfl⟩
  refine (htop.drive_falls (by rw [hframes]) (.ofAnswer r)).trans ?_
  show some (Machine.mk _ s' (.host o' (rest (Input.ofAnswer r).outcome.answer))) = _
  rw [Input.answer_ofAnswer]

/-- The machine goes on after a resume. -/
theorem Resume.until {r : Except ResumeError (List Value)} {b : Boundary H} {last m' : Machine H}
    {rest : Except ResumeError (List Value) → Program H (o.Result H)}
    (h : w.Resume B t a r w')
    (hu : Until B (fun m => m.stack = s) ⟨w', b :: s, .host o (rest r)⟩ last m') :
    Until B (fun m => m.stack = s) ⟨w, b :: s, .host o (.resume t a rest)⟩ last m' := by
  obtain ⟨l, hr⟩ := h (b :: s) o rest
  obtain ⟨m₁, hs⟩ := hr.step_first
  obtain rfl : beginResume B w (b :: s) o t a rest = m₁ := Option.some.inj hs
  rcases beginResume_stack (B := B) w (b :: s) o t a rest with hb | ⟨c, hb⟩
  · obtain ⟨he, -⟩ := hr.eq_of_step hs hb
    rw [← he] at hs
    exact .later hs (List.cons_ne_self _ _) hu
  · have hn : (beginResume B w (b :: s) o t a rest).stack ≠ b :: s := by
      rw [hb]
      exact List.cons_ne_self _ _
    have habove : (beginResume B w (b :: s) o t a rest).stack = [c] ++ b :: s := hb
    refine .later hs ?_ ((hr.of_step hs hn).before_fall habove (by simp) hu)
    rw [habove]
    exact append_cons_ne_self [c] b s

/-- Host code gets the answer of a relay. -/
theorem Relayed.call (hw : Consistent ⟨w, s, some o⟩)
    (hp : w.memory.heap.prepareCall callee args = .ok (f, args'))
    (hf : B.enter w f args' = .native (.relay t a k)) (h : w.Relayed B t a x w') :
    w.Call B callee args (x.answer (w.nameOf f) k) w' := by
  intro s' o' rest
  cases h with
  | notCalled h => exact ⟨_, .now (step_call_refused (enterHost_of_hostRefusal h) s' o' rest) rfl⟩
  | @called x v h hx =>
    have hanswer := step_answer (r := x.answer (w.nameOf f) k) hw h hx s' o' rest
    have hne : w.callBoundary o' rest :: s' ≠ s' := List.cons_ne_self _ _
    suffices hleft : ∃ last, Until B (fun m => m.stack = s')
        ⟨(w.inCall.invoke B w.current callee args).1, w.callBoundary o' rest :: s',
          (w.inCall.invoke B w.current callee args).2⟩ last
        ⟨v.leaveCall w.current, s', .host o' (rest (x.answer (w.nameOf f) k))⟩ by
      obtain ⟨last, hu⟩ := hleft
      exact ⟨last, .later (step_call_of_no_refusal h s' o' rest) hne hu⟩
    cases hx with
    | notEntered hn =>
      rw [invoke_of_nativeRefusal (w := w.inCall) hp hf hn]
      exact ⟨_, .now hanswer rfl⟩
    | resumed hn hr =>
      rw [invoke_of_no_refusal (w := w.inCall) hp hf hn]
      exact ⟨_, hr.until (.later (step_ending _ _) hne (.now hanswer rfl))⟩

/-- A call that is answered has been left before. -/
theorem leaves_of_call (hw : Consistent ⟨w, s, some o⟩) (hn : w.hostRefusal? = none)
    (hc : w.Call B callee args r w') : ∃ v q, w.inCall.Leaves B
      (w.callBoundary o Program.drop :: s) callee args q v := by
  obtain ⟨last, hu⟩ := hc s o Program.drop
  have hs : step B ⟨w, s, .host o (.call callee args Program.drop)⟩ = _ :=
    step_call_of_no_refusal hn s o Program.drop
  set b := w.callBoundary o Program.drop with hb
  have hm : Consistent (⟨w, s, .host o (.call callee args Program.drop)⟩ :
    Machine H).situation := hw
  have hu₁ := hu.of_step hs (List.cons_ne_self _ _)
  obtain ⟨w₂, oc, hls, hfalls, -⟩ := hu₁.fall rfl
  -- No yield gets past a host call, so the boundary falls when its frames have been left.
  have hlast : last.stack = b :: s ∧ last.control.active = none := by
    refine ⟨hls, ?_⟩
    cases hfalls with
    | left input hc _ => rw [hc]; rfl
    | yielded name vs next hc hy =>
      have hcounted : Counted last.situation :=
        (hu₁.keep (Q := fun x => Consistent x.situation) (hm.step hs)
          fun hx hs _ => hx.step hs).counted
      rw [situation, hls] at hcounted
      exact absurd hy hcounted.not_escape
  obtain ⟨m₂, hfirst, -⟩ :=
    hu₁.first (Q := fun m => m.stack = b :: s ∧ m.control.active = none) hlast
  have hleft : Left B ⟨(w.inCall.invoke B w.current callee args).1, b :: s,
      (w.inCall.invoke B w.current callee args).2⟩ m₂ ∧
      m₂.stack = b :: s ∧ m₂.control.active = none := by
    rcases hfirst with ⟨hq, rfl⟩ | ⟨hq, l, hl⟩
    · exact ⟨.inl ⟨hq.2, rfl⟩, hq⟩
    · exact ⟨.inr ⟨fun ha => hq ⟨rfl, ha⟩, l, hl⟩, hl.holds⟩
  obtain ⟨v, s₂, control⟩ := m₂
  obtain ⟨hleft, rfl, ha⟩ := hleft
  cases control with
  | host o p => cases ha
  | drive input =>
    rw [← input.ofAnswer_answer] at hleft
    exact ⟨v, _, hleft⟩

/-- **A call** of a function that resumes a coroutine by host code is a relay. -/
theorem call_iff_relayed (hw : Consistent ⟨w, s, some o⟩)
    (hp : w.memory.heap.prepareCall callee args = .ok (f, args'))
    (hf : B.enter w f args' = .native (.relay t a k)) :
    w.Call B callee args r w' ↔ ∃ x, w.Relayed B t a x w' ∧ r = x.answer (w.nameOf f) k := by
  constructor
  · intro hc
    -- It is enough to know how far the call gets, since its answer is unique.
    suffices hx : ∃ x w'', w.Relayed B t a x w'' by
      obtain ⟨x, w'', hx⟩ := hx
      obtain ⟨rfl, rfl⟩ := hc.unique (hx.call hw hp hf)
      exact ⟨x, hx, rfl⟩
    cases hn : w.hostRefusal? with
    | some e => exact ⟨_, _, .notCalled hn⟩
    | none =>
      obtain ⟨v, q, hv⟩ := leaves_of_call hw hn hc
      obtain ⟨x, hx, -⟩ := (leaves_iff_relays (w := w.inCall) hp hf).mp hv
      exact ⟨x, _, .called hn hx⟩
  · rintro ⟨x, hx, rfl⟩
    exact hx.call hw hp hf

end World

end Lua
