/-
Reading the threads of a world.

The operations of the scheduler change single threads.  This file says once what each of them
leaves of the threads, so that proofs about runs never open `World.modifyThread`:

* `World.thread_modifyThread` — one thread changes and the others stay;
* `World.enterCoroutine_eq`, `World.leaveCoroutine_eq` — the two ends of a resume, between
  a suspended thread and the thread in control;
* `World.closeCoroutine_eq` — a close by the status of the thread.

Design notes: a thread that was never created reads as a dead one, so a thread whose status
is not `dead` exists (`World.has_of_status`), and a change of it takes effect.
-/
import Lua.Machine
import Mathlib.Tactic.Common

namespace Lua

variable {H : Host}

namespace World

/-- Whether a thread was created. -/
def Has (w : World H) (t : ThreadId) : Prop := t.index < w.threads.size

theorem thread_of_not_has {w : World H} {t : ThreadId} (h : ¬ w.Has t) :
    w.thread t = .absent := by
  unfold Has at h
  rw [thread, Array.getD_eq_getD_getElem?, Array.getElem?_eq_none (by omega)]
  rfl

theorem has_of_status {w : World H} {t : ThreadId} (h : (w.thread t).status ≠ .dead) :
    w.Has t := by
  by_contra hn
  rw [thread_of_not_has hn] at h
  exact h rfl

theorem has_of_suspended {w : World H} {t : ThreadId} (h : (w.thread t).status = .suspended) :
    w.Has t := has_of_status (by rw [h]; decide)

theorem has_of_running {w : World H} {t : ThreadId} (h : (w.thread t).status = .running) :
    w.Has t := has_of_status (by rw [h]; decide)

theorem has_of_normal {w : World H} {t : ThreadId} (h : (w.thread t).status = .normal) :
    w.Has t := has_of_status (by rw [h]; decide)

@[simp] theorem has_modifyThread {w : World H} {t u : ThreadId} {f : Thread H → Thread H} :
    (w.modifyThread t f).Has u ↔ w.Has u := by
  simp [Has, modifyThread]

/-! ### Changing one thread -/

theorem thread_modifyThread {w : World H} {t : ThreadId} (h : w.Has t)
    (f : Thread H → Thread H) (u : ThreadId) :
    (w.modifyThread t f).thread u = if u = t then f (w.thread t) else w.thread u := by
  obtain ⟨i⟩ := t
  obtain ⟨j⟩ := u
  simp only [thread, modifyThread, Array.getD_eq_getD_getElem?, Array.getElem?_modify]
  by_cases hij : i = j
  · subst hij
    have hi : i < w.threads.size := h
    simp [hi]
  · rw [if_neg hij, if_neg (by simpa using fun e => hij e.symm)]

theorem thread_modifyThread_ne {w : World H} {t u : ThreadId} (h : u ≠ t)
    (f : Thread H → Thread H) : (w.modifyThread t f).thread u = w.thread u := by
  obtain ⟨i⟩ := t
  obtain ⟨j⟩ := u
  have hij : i ≠ j := fun e => h (by rw [e])
  simp only [thread, modifyThread, Array.getD_eq_getD_getElem?, Array.getElem?_modify]
  rw [if_neg hij]

/-- A change of a thread that was never created is none. -/
theorem modifyThread_of_not_has {w : World H} {t : ThreadId} (h : ¬ w.Has t)
    (f : Thread H → Thread H) : w.modifyThread t f = w := by
  have : w.threads.modify t.index f = w.threads := by
    apply Array.ext_getElem?
    intro i
    rw [Array.getElem?_modify]
    by_cases hi : t.index = i
    · subst hi
      rw [if_pos rfl, Array.getElem?_eq_none (by unfold Has at h; omega)]
      rfl
    · rw [if_neg hi]
  rw [modifyThread, this]

/-- What a change keeps of its thread it keeps of every thread. -/
theorem keep_modifyThread {α : Type} (view : Thread H → α) {w : World H} {t : ThreadId}
    {f : Thread H → Thread H} (u : ThreadId) (h : ∀ s, view (f s) = view s := by intro s; rfl) :
    view ((w.modifyThread t f).thread u) = view (w.thread u) := by
  by_cases ht : w.Has t
  · rw [thread_modifyThread ht]
    by_cases hu : u = t
    · rw [if_pos hu, h, hu]
    · rw [if_neg hu]
  · rw [modifyThread_of_not_has ht]

/-- One thread counts up. -/
theorem count_up (view : Thread H → Nat) {w : World H} {t : ThreadId} (ht : w.Has t)
    {f : Thread H → Thread H} (u : ThreadId)
    (h : ∀ s, view (f s) = view s + 1 := by intro s; rfl) :
    view ((w.modifyThread t f).thread u) = view (w.thread u) + if u = t then 1 else 0 := by
  rw [thread_modifyThread ht]
  by_cases hu : u = t
  · rw [if_pos hu, if_pos hu, hu, h]
  · rw [if_neg hu, if_neg hu, Nat.add_zero]

/-- One thread counts down. -/
theorem count_down (view : Thread H → Nat) {w : World H} {t : ThreadId} (ht : w.Has t)
    {f : Thread H → Thread H} (u : ThreadId)
    (h : ∀ s, view (f s) = view s - 1 := by intro s; rfl) :
    view ((w.modifyThread t f).thread u) = view (w.thread u) - if u = t then 1 else 0 := by
  rw [thread_modifyThread ht]
  by_cases hu : u = t
  · rw [if_pos hu, if_pos hu, hu, h]
  · rw [if_neg hu, if_neg hu, Nat.sub_zero]

/-- A change that leaves its thread as it is changes nothing. -/
theorem modifyThread_eq_self {w : World H} {t : ThreadId} {f : Thread H → Thread H}
    (h : f (w.thread t) = w.thread t) : w.modifyThread t f = w := by
  by_cases ht : w.Has t
  · have hi : t.index < w.threads.size := ht
    rw [thread, Array.getD_eq_getD_getElem?, Array.getElem?_eq_getElem hi,
      Option.getD_some] at h
    have : w.threads.modify t.index f = w.threads := by
      apply Array.ext_getElem?
      intro i
      rw [Array.getElem?_modify]
      by_cases hti : t.index = i
      · subst hti
        rw [if_pos rfl, Array.getElem?_eq_getElem hi, Option.map_some, h]
      · rw [if_neg hti]
    rw [modifyThread, this]
  · exact modifyThread_of_not_has ht f

/-- Two changes of one thread are one change. -/
theorem modifyThread_modifyThread (w : World H) (t : ThreadId) (f g : Thread H → Thread H) :
    (w.modifyThread t f).modifyThread t g = w.modifyThread t fun s => g (f s) := by
  have : (w.threads.modify t.index f).modify t.index g
      = w.threads.modify t.index fun s => g (f s) := by
    apply Array.ext_getElem?
    intro i
    rw [Array.getElem?_modify, Array.getElem?_modify, Array.getElem?_modify]
    by_cases hi : t.index = i
    · rw [if_pos hi, if_pos hi, if_pos hi, Option.map_map]
      rfl
    · rw [if_neg hi, if_neg hi, if_neg hi]
  rw [modifyThread, modifyThread, modifyThread, this]

/-- The frames are as they were once a frame that was pushed is gone. -/
theorem setFrames_pushFrame (w : World H) (t : ThreadId) (f : Frame H) :
    (w.pushFrame t f).setFrames t (w.thread t).frames = w := by
  rw [pushFrame, setFrames, modifyThread_modifyThread, modifyThread_eq_self rfl]

/-- Changes of two threads commute. -/
theorem modifyThread_comm (w : World H) {t u : ThreadId} (h : t ≠ u)
    (f g : Thread H → Thread H) :
    (w.modifyThread t f).modifyThread u g = (w.modifyThread u g).modifyThread t f := by
  have : (w.threads.modify t.index f).modify u.index g
      = (w.threads.modify u.index g).modify t.index f := by
    apply Array.ext_getElem?
    intro i
    have hne : t.index ≠ u.index := fun e => h (by cases t; cases u; exact congrArg _ e)
    simp only [Array.getElem?_modify]
    by_cases ht : t.index = i
    · have hu : u.index ≠ i := fun e => hne (ht.trans e.symm)
      rw [if_neg hu, if_neg hu]
    · rw [if_neg ht, if_neg ht]
  rw [modifyThread, modifyThread, modifyThread, modifyThread, this]

/-- Worlds with the same threads are the same if the rest is. -/
theorem ext_thread {w w' : World H} (hm : w.memory = w'.memory)
    (hf : w.functions = w'.functions) (hn : w.threads.size = w'.threads.size)
    (ht : ∀ t, w.thread t = w'.thread t) (hr : w.running = w'.running)
    (hd : w.hostDepth = w'.hostDepth) (hl : w.limits = w'.limits) : w = w' := by
  have hthreads : w.threads = w'.threads := by
    refine Array.ext hn fun i hi hi' => ?_
    have h := ht ⟨i⟩
    simp only [thread, Array.getD_eq_getD_getElem?, Array.getElem?_eq_getElem hi,
      Array.getElem?_eq_getElem hi', Option.getD_some] at h
    exact h
  cases w
  cases w'
  cases hm
  cases hf
  cases hthreads
  cases hr
  cases hd
  cases hl
  rfl

/-- The threads of a world after one more was created. -/
theorem thread_push (w : World H) (s : Thread H) (u : ThreadId) :
    ({ w with threads := w.threads.push s } : World H).thread u
      = if u = ⟨w.threads.size⟩ then s else w.thread u := by
  obtain ⟨j⟩ := u
  simp only [thread, Array.getD_eq_getD_getElem?, Array.getElem?_push, ThreadId.mk.injEq]
  by_cases hj : j = w.threads.size
  · rw [if_pos hj, if_pos hj, Option.getD_some]
  · rw [if_neg hj, if_neg hj]

/-! ### Native functions -/

/-- The world in which a native function has just been entered. -/
def inNative (w : World H) (t : ThreadId) : World H :=
  ({ w with hostDepth := w.hostDepth + 1 } : World H).enterNative t

theorem leave_inNative (w : World H) (t : ThreadId) :
    ((w.inNative t).exitNative t).exitHost = w := by
  rw [inNative, enterNative, exitNative, modifyThread_modifyThread, modifyThread_eq_self rfl]
  rfl

/-! ### The beginning of a resume -/

theorem apply_eq_ok {w : World H} {t : ThreadId} {e : Event} (st : Status)
    (h : (w.thread t).status.transition? e = some st) :
    w.apply t e = .ok (w.modifyThread t fun s => { s with status := st }) := by
  simp only [apply]
  rw [h]

/-- A thread that was resumed is not the one that resumed it. -/
theorem ne_of_status {w : World H} {t u : ThreadId} {a b : Status}
    (ht : (w.thread t).status = a) (hu : (w.thread u).status = b) (h : a ≠ b) : t ≠ u :=
  fun e => h (by rw [← ht, ← hu, e])

/-- The world in which a thread has just been resumed by the thread in control. -/
def entered (w : World H) (t : ThreadId) : World H :=
  { (w.modifyThread w.current fun s => { s with status := .normal }).modifyThread t fun s =>
      { s with status := .running, resumer := some w.current } with
    hostDepth := w.hostDepth + 1
    running := t :: w.running }

@[simp] theorem has_entered {w : World H} {t u : ThreadId} : (w.entered t).Has u ↔ w.Has u := by
  simp [Has, entered, modifyThread]

/-- What a resume checks, in the order in which it checks. -/
theorem enterCoroutine_eq {w : World H} (hc : (w.thread w.current).status = .running)
    (t : ThreadId) :
    w.enterCoroutine t =
      if (w.thread t).status ≠ .suspended then
        .error (.invalidState .resume (w.thread t).status)
      else if w.limits.maxResumeDepth ≤ w.running.length then
        .error (.resumeDepthExceeded w.running.length)
      else if w.limits.maxHostDepth ≤ w.hostDepth then .error (.hostDepthExceeded w.hostDepth)
      else .ok (w.entered t) := by
  by_cases hs : (w.thread t).status = .suspended
  · by_cases hr : w.limits.maxResumeDepth ≤ w.running.length
    · simp [enterCoroutine, hs, hr, bind, Except.bind, throw, throwThe, MonadExceptOf.throw]
    · by_cases hh : w.limits.maxHostDepth ≤ w.hostDepth
      · simp [enterCoroutine, enterHost, hs, hr, hh, bind, Except.bind]
      · have hne : t ≠ w.current := ne_of_status hs hc (by decide)
        set higher : World H := { w with hostDepth := w.hostDepth + 1 } with hw
        have hawait : higher.apply w.current .await = _ := apply_eq_ok .normal (by
          show Status.transition? (w.thread w.current).status .await = _
          rw [hc]
          rfl)
        set waiting := higher.modifyThread w.current fun s => { s with status := .normal }
          with hwait
        -- The coroutine is not the thread in control, so it is still suspended.
        have hresume : waiting.apply t .resume = _ := apply_eq_ok .running (by
          rw [hwait, thread_modifyThread_ne hne]
          show Status.transition? (w.thread t).status .resume = _
          rw [hs]
          rfl)
        simp only [enterCoroutine, enterHost, hs, if_neg hr, if_neg hh, bind, Except.bind, pure,
          Except.pure, ne_eq, not_true, if_false]
        rw [show ({ w with hostDepth := w.hostDepth + 1 } : World H).current = w.current from rfl,
          ← hw, hawait]
        simp only
        rw [hresume]
        simp only
        rw [setResumer, modifyThread_modifyThread]
        rfl
  · simp [enterCoroutine, hs, bind, Except.bind, throw, throwThe, MonadExceptOf.throw]

/-- A resume changes the statuses and the resumer, and no other part of a thread. -/
theorem keep_entered {α : Type} (view : Thread H → α) {w : World H} {t : ThreadId} (u : ThreadId)
    (hs : ∀ s st, view { s with status := st } = view s := by intro s st; rfl)
    (hr : ∀ s st r, view { s with status := st, resumer := r } = view s := by
      intro s st r; rfl) :
    view ((w.entered t).thread u) = view (w.thread u) :=
  (keep_modifyThread view u fun s => hr s _ _).trans
    (keep_modifyThread view (w := w) (t := w.current)
      (f := fun s => { s with status := .normal }) u fun s => hs s _)

theorem thread_entered {w : World H} {t : ThreadId}
    (hc : (w.thread w.current).status = .running) (ht : (w.thread t).status = .suspended)
    (u : ThreadId) :
    (w.entered t).thread u =
      if u = t then { w.thread t with status := .running, resumer := some w.current }
      else if u = w.current then { w.thread w.current with status := .normal }
      else w.thread u := by
  have hne : t ≠ w.current := ne_of_status ht hc (by decide)
  show (World.modifyThread _ t _).thread u = _
  rw [thread_modifyThread (has_modifyThread.mpr (has_of_suspended ht)),
    thread_modifyThread_ne hne, thread_modifyThread (has_of_running hc)]

end World

/-! ### The end of a resume -/

namespace Outcome

/-- The status a coroutine has after the resume ended. -/
def status : Outcome → Status
  | .yielded _ => .suspended
  | .returned _ | .failed _ => .dead

/-- The frames a coroutine has after the resume ended: a yield keeps them. -/
def keep (fs : List (Frame H)) : Outcome → List (Frame H)
  | .yielded _ => fs
  | .returned _ | .failed _ => []

/-- What the resume answers. -/
def handed (t : ThreadId) : Outcome → Except ResumeError (List Value)
  | .yielded vs | .returned vs => .ok vs
  | .failed e => .error (.uncaught (e.leave (.coroutine t.number)))

end Outcome

namespace World

/-- The world after the end of a resume. -/
def left (w : World H) (t caller : ThreadId) (o : Outcome) : World H :=
  { (w.modifyThread caller fun s => { s with status := .running }).modifyThread t fun s =>
      { s with status := o.status, resumer := none, frames := o.keep s.frames } with
    running := w.running.tail
    hostDepth := w.hostDepth - 1 }

@[simp] theorem has_left {w : World H} {t c u : ThreadId} {o : Outcome} :
    (w.left t c o).Has u ↔ w.Has u := by
  simp [Has, left, modifyThread]

/-- The end of a resume keeps what is neither a status nor a resumer nor frames. -/
theorem keep_left {α : Type} (view : Thread H → α) {w : World H} {t c : ThreadId} {o : Outcome}
    (u : ThreadId) (hs : ∀ s st, view { s with status := st } = view s := by intro s st; rfl)
    (hr : ∀ s st r fs, view { s with status := st, resumer := r, frames := fs } = view s := by
      intro s st r fs; rfl) :
    view ((w.left t c o).thread u) = view (w.thread u) :=
  (keep_modifyThread view u fun s => hr s _ _ _).trans
    (keep_modifyThread view (w := w) (t := c) (f := fun s => { s with status := .running }) u
      fun s => hs s _)

theorem settle_eq {w : World H} {t : ThreadId} (ht : (w.thread t).status = .running)
    (o : Outcome) :
    w.settle t o = .ok (w.modifyThread t fun s =>
      { s with status := o.status, frames := o.keep s.frames }, o.handed t) := by
  cases o with
  | yielded vs =>
    rw [settle, apply_eq_ok .suspended (by rw [ht]; rfl)]
    rfl
  | returned vs =>
    rw [settle, apply_eq_ok .dead (by rw [ht]; rfl)]
    show Except.ok (World.setFrames _ t [], _) = _
    rw [setFrames, modifyThread_modifyThread]
    rfl
  | failed e =>
    rw [settle, apply_eq_ok .dead (by rw [ht]; rfl)]
    show Except.ok (World.setFrames _ t [], _) = _
    rw [setFrames, modifyThread_modifyThread]
    rfl

theorem leaveCoroutine_eq {w : World H} {t caller : ThreadId}
    (hc : (w.thread caller).status = .normal) (ht : (w.thread t).status = .running)
    (o : Outcome) : w.leaveCoroutine t caller o = (w.left t caller o, o.handed t) := by
  have hne : t ≠ caller := ne_of_status ht hc (by decide)
  set returned := ({ w with running := w.running.tail } : World H).setResumer t none with hr
  have hwake : returned.apply caller .wake = _ := apply_eq_ok .running (by
    rw [hr, setResumer, thread_modifyThread_ne hne.symm]
    show Status.transition? (w.thread caller).status .wake = _
    rw [hc]
    rfl)
  have hsettle := settle_eq (w := returned.modifyThread caller fun s =>
      { s with status := .running }) (t := t) (by
    rw [thread_modifyThread_ne hne, hr, setResumer,
      thread_modifyThread (w := { w with running := w.running.tail }) (has_of_running ht),
      if_pos rfl]
    exact ht) o
  rw [leaveCoroutine]
  simp only [← hr]
  rw [hwake]
  simp only
  rw [hsettle, hr, setResumer, modifyThread_comm _ hne, modifyThread_modifyThread]
  rfl

theorem thread_left {w : World H} {t caller : ThreadId}
    (hc : (w.thread caller).status = .normal) (ht : (w.thread t).status = .running)
    (o : Outcome) (u : ThreadId) :
    (w.left t caller o).thread u =
      if u = t then
        { w.thread t with
          status := o.status, resumer := none, frames := o.keep (w.thread t).frames }
      else if u = caller then { w.thread caller with status := .running }
      else w.thread u := by
  have hne : t ≠ caller := ne_of_status ht hc (by decide)
  show (World.modifyThread _ t _).thread u = _
  rw [thread_modifyThread (has_modifyThread.mpr (has_of_running ht)),
    thread_modifyThread_ne hne, thread_modifyThread (has_of_normal hc)]

/-- The end of a resume changes the frames of no other thread. -/
theorem thread_left_frames {w : World H} {t caller : ThreadId}
    (hc : (w.thread caller).status = .normal) (ht : (w.thread t).status = .running)
    (o : Outcome) (u : ThreadId) : ((w.left t caller o).thread u).frames =
      if u = t then o.keep (w.thread t).frames else (w.thread u).frames := by
  rw [thread_left hc ht]
  by_cases hu : u = t
  · rw [if_pos hu, if_pos hu]
  · rw [if_neg hu, if_neg hu]
    by_cases hcaller : u = caller
    · rw [if_pos hcaller, hcaller]
    · rw [if_neg hcaller]

/-! ### Creating and closing -/

/-- What a close does to a thread that is not active. -/
def closed (w : World H) (t : ThreadId) : World H :=
  w.modifyThread t fun s => { s with status := .dead, body := none, frames := [] }

theorem closeCoroutine_eq (w : World H) (t : ThreadId) :
    w.closeCoroutine t =
      if (w.thread t).status = .suspended ∨ (w.thread t).status = .dead then .ok (w.closed t)
      else .error (.closeActive (w.thread t).status) := by
  have hend : ((w.modifyThread t fun s => { s with status := .dead }).dropBody t).setFrames t []
      = w.closed t := by
    rw [dropBody, setFrames, modifyThread_modifyThread, modifyThread_modifyThread]
    rfl
  cases hs : (w.thread t).status with
  | suspended =>
    simp only [closeCoroutine, hs, apply_eq_ok (e := .close) .dead (by rw [hs]; rfl),
      bind, Except.bind, pure, Except.pure, hend, true_or, if_true]
  | dead =>
    simp only [closeCoroutine, hs, apply_eq_ok (e := .close) .dead (by rw [hs]; rfl),
      bind, Except.bind, pure, Except.pure, hend, or_true, if_true]
  | running => simp [closeCoroutine, hs, CoroutineError.invalidState]
  | normal => simp [closeCoroutine, hs, CoroutineError.invalidState]

end World

end Lua
