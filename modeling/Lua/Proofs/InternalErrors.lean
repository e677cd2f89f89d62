/-
No internal errors.

Where an error tells of a defect of the machine itself, the machine has none.  On every run of an
honest host, whatever else it does:

* `Machine.Transition.legal` — each step in the life cycle of a thread is legal;
* `Machine.NoInternalError` — no code raises, passes on or is given an internal error, no yield gets
  past a host call, and no frame is missing;
* `Machine.HonestRun.no_internal_error` — so it is at every point of the run.

Design notes: a transition is stated with the world in which it is made, in the middle of a move.
-/
import Lua.Proofs.ErrorValue
import Lua.Proofs.Soundness

namespace Lua

variable {H : Host} {T : Trust H}

namespace Machine

variable {B : Behaviour H} {m m' last : Machine H} {w : World H} {oc : Outcome}
  {t c : ThreadId} {o : Owner} {s : List (Boundary H)}

/-! ### Transitions -/

/-- A resume of the thread `t` is about to be accepted, and takes a level of host depth. -/
structure Accepts (m : Machine H) (t : ThreadId) (w : World H) : Prop where
  control : ∃ o args rest, m.control = .host o (.resume t args rest)
  status : (m.world.thread t).status = .suspended
  depth : m.world.running.length < m.world.limits.maxResumeDepth
  enterHost : m.world.enterHost = .ok w

/-- The coroutine is suspended, and the thread in control runs. -/
theorem Accepts.statuses (hm : Reachable B m) (h : Accepts m t w) :
    (w.thread t).status = .suspended ∧ (w.thread w.current).status = .running := by
  have hx : Chained ⟨m.world, m.stack, m.control.active⟩ := hm.chained
  have hw : { m.world with hostDepth := m.world.hostDepth + 1 } = w := by
    have he := h.enterHost
    rw [World.enterHost] at he
    by_cases hh : m.world.limits.maxHostDepth ≤ m.world.hostDepth
    · rw [if_pos hh] at he
      cases he
    · rw [if_neg hh] at he
      exact Except.ok.inj he
  rw [← hw]
  exact ⟨h.status, hx.current ▸ hx.top⟩

/-- The world in which a boundary falls, at the moment when the caller of the thread wakes. -/
def returned (w : World H) (t : ThreadId) : World H :=
  ({ w with running := w.running.tail } : World H).setResumer t none

/-- The coroutine still runs, and its caller waits. -/
theorem Falls.statuses (hm : Reachable B m)
    {rest : Except ResumeError (List Value) → Program H (o.Result H)}
    (hf : Falls m (.resume t c o rest) w oc) (hs : m.stack = .resume t c o rest :: s) :
    ((returned w t).thread t).status = .running ∧
      ((returned w t).thread c).status = .normal := by
  obtain ⟨hn, hr⟩ := (hf.chained hm hs).ends
  have hkeep : ∀ u, ((returned w t).thread u).status = (w.thread u).status :=
    fun u => World.keep_modifyThread Thread.status (w := { w with running := w.running.tail }) u
  rw [hkeep, hkeep]
  exact ⟨hr, hn⟩

/-- The event that ends the run of a thread. -/
def eventOf : Outcome → Event
  | .yielded _ => .yield
  | .returned _ => .return
  | .failed _ => .fail

/-- In the world `w`, the next move applies an event to the thread `t`. -/
inductive Transition (m : Machine H) : World H → ThreadId → Event → Prop
  | await {t : ThreadId} {w : World H} (h : Accepts m t w) : Transition m w w.current .await
  | resume {t : ThreadId} {w w' : World H} (h : Accepts m t w)
      (hw : w.apply w.current .await = .ok w') : Transition m w' t .resume
  | wake {t c : ThreadId} {o : Owner} {s : List (Boundary H)} {w : World H} {oc : Outcome}
      {rest : Except ResumeError (List Value) → Program H (o.Result H)}
      (hs : m.stack = .resume t c o rest :: s) (hf : Falls m (.resume t c o rest) w oc) :
      Transition m (returned w t) c .wake
  | settle {t c : ThreadId} {o : Owner} {s : List (Boundary H)} {w w' : World H} {oc : Outcome}
      {rest : Except ResumeError (List Value) → Program H (o.Result H)}
      (hs : m.stack = .resume t c o rest :: s) (hf : Falls m (.resume t c o rest) w oc)
      (hw : (returned w t).apply c .wake = .ok w') : Transition m w' t (eventOf oc)
  | close {o : Owner} {t : ThreadId} {rest : Except CoroutineError Unit → Program H (o.Result H)}
      (hc : m.control = .host o (.close t rest))
      (ht : (m.world.thread t).status = .suspended ∨ (m.world.thread t).status = .dead) :
      Transition m m.world t .close

/-- **Every transition is legal.** -/
theorem Transition.legal {e : Event} (hm : Reachable B m) (h : Transition m w t e) :
    ∃ status, (w.thread t).status.transition? e = some status := by
  cases h with
  | await h =>
    rw [(h.statuses hm).2]
    exact ⟨_, rfl⟩
  | resume h hw =>
    obtain ⟨hsus, hrun⟩ := h.statuses hm
    rw [World.apply_eq_ok .normal (by rw [hrun]; rfl)] at hw
    cases hw
    -- The coroutine is not the thread in control, so it is still suspended.
    rw [World.thread_modifyThread_ne (World.ne_of_status hsus hrun (by decide)), hsus]
    exact ⟨_, rfl⟩
  | wake hs hf =>
    rw [(hf.statuses hm hs).2]
    exact ⟨_, rfl⟩
  | @settle t c _ _ _ _ oc _ hs hf hw =>
    obtain ⟨hrun, hn⟩ := hf.statuses hm hs
    rw [World.apply_eq_ok .running (by rw [hn]; rfl)] at hw
    cases hw
    rw [World.thread_modifyThread_ne (World.ne_of_status hrun hn (by decide)), hrun]
    cases oc with
    | yielded vs => exact ⟨_, rfl⟩
    | returned vs => exact ⟨_, rfl⟩
    | failed e => exact ⟨_, rfl⟩
  | close hc ht =>
    rcases ht with ht | ht
    · rw [ht]
      exact ⟨_, rfl⟩
    · rw [ht]
      exact ⟨_, rfl⟩

/-! ### Main result -/

/-- Internal errors play no part in a state: no code raises one, none is on its way, and no request
for a call, a resume or a close is answered with one.  All that would lead to one is excluded. -/
structure NoInternalError (B : Behaviour H) (m : Machine H) : Prop where
  /-- No code fails with one, be it of a library or of the host. -/
  raised : ∀ {o e}, m.control = .host o (.fail e) → e.isInternal = false
  /-- No frame is given one. -/
  unwinding : ∀ {e}, m.control = .drive (.error e) → e.isInternal = false
  /-- No call is answered with one. -/
  call : ∀ {o callee args rest m' last}, m.control = .host o (.call callee args rest) →
    Until B (fun x => x.stack = m.stack) m last m' →
      ∃ r, m'.control = .host o (rest r) ∧ Clean TracedError.isInternal r
  /-- No resume is answered with one. -/
  resume : ∀ {o t args rest m' last}, m.control = .host o (.resume t args rest) →
    Until B (fun x => x.stack = m.stack) m last m' →
      ∃ r, m'.control = .host o (rest r) ∧ Clean ResumeError.isInternal r
  /-- No close is answered with one. -/
  close : ∀ {o t rest}, m.control = .host o (.close t rest) →
    ∃ m' r, m.step B = some m' ∧ m'.control = .host o (rest r) ∧
      Clean CoroutineError.isInternal r
  /-- No resume is refused with one. -/
  refused : ∀ {t e}, m.world.enterCoroutine t = .error e → e.isInternal = false
  /-- The end of a coroutine's run hands none to the code that has resumed it. -/
  handed : ∀ {t c o rest s w oc}, m.stack = .resume t c o rest :: s →
    Falls m (.resume t c o rest) w oc →
      Clean ResumeError.isInternal (w.leaveCoroutine t c oc).2
  /-- The end of a call hands none to the code that has made it. -/
  answer : ∀ {t base o rest s w oc}, m.stack = .call t base o rest :: s →
    Falls m (.call t base o rest) w oc → Clean TracedError.isInternal oc.answer
  /-- Every event that is applied to a thread is legal. -/
  transition : ∀ {w t e}, Transition m w t e →
    ∃ status, (w.thread t).status.transition? e = some status
  /-- No yield gets past a host call. -/
  escape : ∀ {t base o rest s w oc vs}, m.stack = .call t base o rest :: s →
    Falls m (.call t base o rest) w oc → oc ≠ .yielded vs
  /-- Frames are driven behind a boundary, and are not taken from below its base: there is a frame
  that the input is given to, or exactly those of the base are left. -/
  underflow : ∀ {input}, m.control = .drive input → ∃ b s, m.stack = b :: s ∧
    ((m.world.thread b.thread).frames.length = b.base ∧
        m.step B = fall m.world input.outcome m.stack ∨
      ∃ f below, GoesOn b.thread f below input m)

theorem HonestRun.until_last {P : Machine H → Prop} (hr : HonestRun B T m)
    (hu : Until B P m last m') : HonestRun B T last :=
  hu.keep hr fun ha hs _ => ha.step hs

/-- What a call is answered with when its boundary falls. -/
theorem Falls.clean_answer (hm : Reachable B m) (h : m.Sound T) {base : Nat}
    {rest : Except TracedError (List Value) → Program H (o.Result H)}
    (hf : Falls m (.call t base o rest) w oc) (hs : m.stack = .call t base o rest :: s) :
    Clean TracedError.isInternal oc.answer :=
  Outcome.clean_answer (h.falls hf).2 (hf.not_escape hm hs)

/-- What a resume is answered with when its boundary falls. -/
theorem Falls.clean_handed (hm : Reachable B m) (h : m.Sound T)
    {rest : Except ResumeError (List Value) → Program H (o.Result H)}
    (hf : Falls m (.resume t c o rest) w oc) (hs : m.stack = .resume t c o rest :: s) :
    Clean ResumeError.isInternal (w.leaveCoroutine t c oc).2 := by
  obtain ⟨hn, hr⟩ := (hf.chained hm hs).ends
  rw [World.leaveCoroutine_eq hn hr]
  exact Outcome.clean_handed (h.falls hf).2 t

/-- The answer of a call. -/
theorem HonestRun.clean_call (hB : B.Sound T) (hr : HonestRun B T m) {callee : Value}
    {args : List Value} {rest : Except TracedError (List Value) → Program H (o.Result H)}
    (hc : m.control = .host o (.call callee args rest))
    (hu : Until B (fun x => x.stack = m.stack) m last m') :
    ∃ r, m'.control = .host o (rest r) ∧ Clean TracedError.isInternal r := by
  obtain ⟨m₁, hs⟩ := hu.step_first
  have h₁ : beginCall B m.world m.stack o callee args rest = m₁ := by
    obtain ⟨w, s, control⟩ := m
    obtain rfl : control = _ := hc
    exact Option.some.inj hs
  rw [beginCall_eq] at h₁
  by_cases hh : m.world.limits.maxHostDepth ≤ m.world.hostDepth
  · rw [if_pos hh] at h₁
    obtain ⟨rfl, -⟩ := hu.eq_of_step hs (by rw [← h₁])
    rw [← h₁]
    exact ⟨_, rfl, clean_error rfl⟩
  · rw [if_neg hh] at h₁
    have hu₁ := hu.of_step hs (by rw [← h₁]; exact List.cons_ne_self _ _)
    obtain ⟨w, oc, hls, hf, hfall⟩ := hu₁.fall (by rw [← h₁])
    have hlast := hr.until_last hu
    cases hfall
    exact ⟨_, rfl, hf.clean_answer hlast.reachable (hlast.sound hB) hls⟩

/-- The answer of a resume. -/
theorem HonestRun.clean_resume (hB : B.Sound T) (hr : HonestRun B T m) {args : List Value}
    {rest : Except ResumeError (List Value) → Program H (o.Result H)}
    (hc : m.control = .host o (.resume t args rest))
    (hu : Until B (fun x => x.stack = m.stack) m last m') :
    ∃ r, m'.control = .host o (rest r) ∧ Clean ResumeError.isInternal r := by
  obtain ⟨m₁, hs⟩ := hu.step_first
  rcases step_resume hr.reachable hc hs with ⟨e, he, h₁⟩ | ⟨c, h₁, -⟩
  · obtain ⟨rfl, -⟩ := hu.eq_of_step hs (by rw [h₁])
    rw [h₁]
    exact ⟨_, rfl, clean_error (isRefusal_of_enterCoroutine hr.reachable he).isInternal⟩
  · have hu₁ := hu.of_step hs (by rw [h₁]; exact List.cons_ne_self _ _)
    obtain ⟨w, oc, hls, hf, hfall⟩ := hu₁.fall h₁
    have hlast := hr.until_last hu
    cases hfall
    exact ⟨_, rfl, hf.clean_handed hlast.reachable (hlast.sound hB) hls⟩

/-- The answer of a close. -/
theorem clean_close {rest : Except CoroutineError Unit → Program H (o.Result H)}
    (hc : m.control = .host o (.close t rest)) :
    ∃ m' r, m.step B = some m' ∧ m'.control = .host o (rest r) ∧
      Clean CoroutineError.isInternal r := by
  rw [step_close hc]
  by_cases ht : (m.world.thread t).status = .suspended ∨ (m.world.thread t).status = .dead
  · rw [if_pos ht]
    exact ⟨_, _, rfl, rfl, clean_ok ()⟩
  · rw [if_neg ht]
    exact ⟨_, _, rfl, rfl, clean_error rfl⟩

/-- **No internal errors**: on every run of an honest host, from a fresh instance and through any
number of programs. -/
theorem HonestRun.no_internal_error {host : HostCode H} (hh : host.Honest T)
    (hr : HonestRun (.standard host) T m) : NoInternalError (.standard host) m := by
  have hB : (Behaviour.standard host).Sound T := Behaviour.sound_standard hh
  have hm : Reachable (.standard host) m := hr.reachable
  have hsound : m.Sound T := hr.sound hB
  constructor
  case raised =>
    intro o e hc
    have hcontrol := hsound.control
    rw [hc] at hcontrol
    exact hcontrol
  case unwinding =>
    intro e hc
    have hcontrol := hsound.control
    rw [hc] at hcontrol
    exact hcontrol
  case call => exact fun hc hu => hr.clean_call hB hc hu
  case resume => exact fun hc hu => hr.clean_resume hB hc hu
  case close => exact fun hc => clean_close hc
  case refused => exact fun he => (isRefusal_of_enterCoroutine hm he).isInternal
  case handed => exact fun hs hf => hf.clean_handed hm hsound hs
  case answer => exact fun hs hf => hf.clean_answer hm hsound hs
  case transition => exact fun ht => ht.legal hm
  case escape => exact fun hs hf => hf.not_escape hm hs _
  case underflow =>
    intro input hc
    have hg : Grounded m.stack m.control.active := by
      obtain ⟨h, hrun⟩ := hm
      exact hrun.grounded
    cases hs : m.stack with
    | nil =>
      rw [hs, hc] at hg
      exact absurd hg (by simp [Grounded, Control.active])
    | cons b s => exact ⟨b, s, rfl, hs ▸ drive_cases hm hc hs⟩

/-- A host that passes errors on is honest, whatever data it meets. -/
theorem honest_relaying : HostCode.relaying.Honest .all where
  native resumes _ args := by
    match resumes, args with
    | false, callee :: args =>
      rintro (e | vs) hr
      · exact hr e rfl
      · trivial
    | true, .thread t :: args =>
      rintro (e | vs) hr
      · exact hr e rfl
      · trivial
    | false, [] => trivial
    | true, [] => trivial
    | true, .nil :: _ | true, .boolean _ :: _ | true, .number _ :: _ | true, .string _ :: _
    | true, .table _ :: _ | true, .function _ :: _ => trivial
  start _ _ := trivial
  poll called _ args := by
    match called, args with
    | false, _ :: _ => trivial
    | false, [] => trivial
    | true, _ => trivial
  recover _ _ _ he := he
  advance state := state.elim

/-- Resumes a coroutine that calls `yield` from a native function. -/
def refusedYield : Program .relaying (List Value) :=
  .define (.sequence .yield) fun yield =>
  .define (.native (.host "call" false)) fun call =>
  .create (.function call) fun
    | .ok t => Program.resumeOrFail t [.function yield]
    | .error _ => .done []

/-- The yield is about to be refused, and the program fails with this error. -/
theorem no_internal_error_refusedYield : HostCode.relaying.Honest .all ∧ ∃ m : Machine .relaying,
    HonestRun (.standard .relaying) .all m ∧ m.stack.length = 2 ∧
    (m.run (.standard .relaying) 5).result? = some (.error (.cause
      (.uncaught (.coroutine .yieldAcrossBoundary)
        [.native "yield", .native "call", .coroutine 2]))) ∧
    NoInternalError (.standard .relaying) m := by
  have hp : refusedYield.Sound .all fun _ => True := by
    refine ⟨trivial, fun yield => ⟨trivial, fun call => ?_⟩⟩
    rintro (_ | t)
    · trivial
    · rintro (e | vs) hr
      · exact hr e rfl
      · trivial
  have hr := (HonestRun.start (B := .standard .relaying)
    (World.isFresh_withLibraries {} ()) (.withLibraries {} trivial) hp).run 6
  exact ⟨honest_relaying, _, hr, rfl, rfl, hr.no_internal_error honest_relaying⟩

end Machine

end Lua
