/-
The life of a coroutine.

A coroutine is resumed a number of times and yields each time, and then it may come to its end:
it returns, it fails, or it is closed while it is suspended.  After its end it is dead for good.

* `lifeOf` — what became of one coroutine in a run;
* `Lived` — yields, then at most one end, after which the coroutine is dead;
* `Machine.Falls.answer` — the answer of a resume is the outcome of the coroutine;
* `Machine.Run.lifeCycle` — lives over whole runs, with what resumes and closes answer at every
  point of a life.

Design notes: an operation that is refused brings no event, so the history of a run holds just
the operations that took effect.  A thread that was never created reads as dead, and creating it
makes it suspended; the dead threads that stay dead are those that exist.
-/
import Lua.Proofs.Boundary
import Lua.Proofs.HandBack

namespace Lua

variable {H : Host}

namespace LifeEvent

/-- Whether the coroutine lives on. -/
def isYield : LifeEvent → Bool
  | .resumed (.yielded _) => true
  | _ => false

/-- Whether an error was handed out. -/
def isFailure : LifeEvent → Bool
  | .resumed (.failed _) => true
  | _ => false

theorem not_isFailure_of_isYield {e : LifeEvent} (h : e.isYield) : e.isFailure = false := by
  cases e with
  | closed => rfl
  | resumed o =>
    cases o with
    | yielded vs => rfl
    | returned vs => rfl
    | failed e => exact absurd h Bool.false_ne_true

theorem filter_isFailure_eq_nil {es : List LifeEvent} (h : ∀ e ∈ es, e.isYield) :
    es.filter isFailure = [] := by
  refine List.filter_eq_nil_iff.mpr fun e he => ?_
  rw [not_isFailure_of_isYield (h e he)]
  exact Bool.false_ne_true

end LifeEvent

/-- What became of one coroutine. -/
def lifeOf (t : ThreadId) (h : List (ThreadId × LifeEvent)) : List LifeEvent :=
  h.filterMap fun e => if e.1 = t then some e.2 else none

theorem lifeOf_append (t : ThreadId) (h h' : List (ThreadId × LifeEvent)) :
    lifeOf t (h ++ h') = lifeOf t h ++ lifeOf t h' := List.filterMap_append

theorem lifeOf_singleton_self (t : ThreadId) (e : LifeEvent) : lifeOf t [(t, e)] = [e] := by
  simp [lifeOf]

theorem lifeOf_eq_nil {t : ThreadId} {es : List (ThreadId × LifeEvent)} (he : ∀ e, (t, e) ∉ es) :
    lifeOf t es = [] := by
  rw [lifeOf, List.filterMap_eq_nil_iff]
  rintro ⟨u, e⟩ hm
  by_cases hu : u = t
  · exact absurd (hu ▸ hm) (he e)
  · exact if_neg hu

open Machine

/-! ### Single changes -/

/-- Threads stay. -/
theorem Change.has {x y : Situation H} {es : List (ThreadId × LifeEvent)} (hc : Change x es y)
    (hx : Chained x) {t : ThreadId} (ht : x.world.Has t) : y.world.Has t := by
  cases hc with
  | memory | define | leavePoll => exact ht
  | create f =>
    rw [World.Has, Array.size_push]
    exact Nat.lt_succ_of_lt ht
  | close | closeDead | call | native | sequence | leaveNative | poll | wait | endCall | escape =>
    simpa [World.Has, World.modifyThread, World.closed, World.enterNonYieldable,
      World.exitNonYieldable, World.inNative, World.enterNative, World.exitNative,
      World.exitHost, World.pushFrame, World.setFrames, World.leaveCall] using ht
  | resume u he rest =>
    obtain ⟨-, rfl⟩ := hx.entered_of_ok he
    rw [World.dropBody, World.has_modifyThread, World.has_entered]
    exact ht
  | endResume input hf =>
    rw [World.leaveCoroutine_eq hx.ends.1 hx.ends.2, World.has_left]
    exact ht
  | yield name vs next hy =>
    obtain ⟨hn, hr⟩ := (hx.pushFrame _ ⟨name, next⟩).ends
    rw [World.leaveCoroutine_eq hn hr, World.has_left, World.pushFrame, World.has_modifyThread]
    exact ht

/-- A thread that is dead stays dead. -/
theorem Change.dead {x y : Situation H} {es : List (ThreadId × LifeEvent)} (hc : Change x es y)
    (hx : Chained x) {t : ThreadId} (ht : x.world.Has t)
    (hd : (x.world.thread t).status = .dead) : (y.world.thread t).status = .dead := by
  cases hc with
  | memory | define | leavePoll => exact hd
  | @create w s o f =>
    have hne : t ≠ ⟨w.threads.size⟩ := by
      rintro rfl
      exact absurd ht (Nat.lt_irrefl _)
    rw [World.thread_push, if_neg hne]
    exact hd
  | @close w s o u hu =>
    have hne : t ≠ u := World.ne_of_status hd hu (by decide)
    rw [World.closed, World.thread_modifyThread_ne hne]
    exact hd
  | @closeDead w s o u hu =>
    by_cases hne : t = u
    · subst hne
      rw [World.closed, World.thread_modifyThread ht, if_pos rfl]
    · rw [World.closed, World.thread_modifyThread_ne hne]
      exact hd
  -- The threads at the ends of a resume are not dead before it, so `t` is none of them.
  | resume u he rest =>
    obtain ⟨hu, rfl⟩ := hx.entered_of_ok he
    have hcur := hx.current ▸ hx.top
    rw [show (World.thread (World.dropBody _ u) t).status = _ from
        World.keep_modifyThread Thread.status t, World.thread_entered hcur hu,
      if_neg (World.ne_of_status hd hu (by decide)),
      if_neg (World.ne_of_status hd hcur (by decide))]
    exact hd
  | call | native | sequence | leaveNative | poll | wait | endCall =>
    exact (World.keep_modifyThread Thread.status t).trans hd
  | escape =>
    exact (World.keep_modifyThread Thread.status t).trans
      ((World.keep_modifyThread Thread.status t).trans hd)
  | endResume input hf =>
    obtain ⟨hn, hr⟩ := hx.ends
    rw [World.leaveCoroutine_eq hn hr, World.thread_left hn hr,
      if_neg (World.ne_of_status hd hr (by decide)),
      if_neg (World.ne_of_status hd hn (by decide))]
    exact hd
  | @yield w s u c o rest name vs next hy =>
    obtain ⟨hn, hr⟩ := (hx.pushFrame u ⟨name, next⟩).ends
    have hpush : ((w.pushFrame u ⟨name, next⟩).thread t).status = .dead :=
      (World.keep_modifyThread Thread.status t).trans hd
    rw [World.leaveCoroutine_eq hn hr, World.thread_left hn hr,
      if_neg (World.ne_of_status hpush hr (by decide)),
      if_neg (World.ne_of_status hpush hn (by decide))]
    exact hpush

/-- An event comes to a thread that is alive; if it is not a yield the thread is dead then. -/
theorem Change.event {x y : Situation H} {es : List (ThreadId × LifeEvent)} (hc : Change x es y)
    (hx : Chained x) {t : ThreadId} {e : LifeEvent} (he : (t, e) ∈ es) :
    es = [(t, e)] ∧ (x.world.thread t).status ≠ .dead ∧
      (e.isYield ∨ y.world.Has t ∧ (y.world.thread t).status = .dead) := by
  have hend : ∀ {u v : ThreadId} {w : World H} {oc : Outcome},
      (w.thread v).status = .normal → (w.thread u).status = .running → oc.status = .dead →
      ((w.leaveCoroutine u v oc).1.thread u).status = .dead := by
    intro u v w oc hn hr hoc
    rw [World.leaveCoroutine_eq hn hr, World.thread_left hn hr, if_pos rfl]
    exact hoc
  cases hc with
  | close u hu =>
    obtain ⟨rfl, rfl⟩ := Prod.mk.inj (List.mem_singleton.mp he)
    refine ⟨rfl, by rw [hu]; decide, .inr ?_⟩
    have hh := World.has_of_suspended hu
    refine ⟨World.has_modifyThread.mpr hh, ?_⟩
    rw [World.closed, World.thread_modifyThread hh, if_pos rfl]
  | endResume input hf =>
    obtain ⟨rfl, rfl⟩ := Prod.mk.inj (List.mem_singleton.mp he)
    obtain ⟨hn, hr⟩ := hx.ends
    refine ⟨rfl, by rw [hr]; decide, .inr ⟨?_, hend hn hr (by cases input <;> rfl)⟩⟩
    exact Change.has (.endResume input hf) hx (World.has_of_running hr)
  | yield name vs next hy =>
    obtain ⟨rfl, rfl⟩ := Prod.mk.inj (List.mem_singleton.mp he)
    exact ⟨rfl, by rw [hx.ends.2]; decide, .inl rfl⟩
  | _ => exact absurd he (List.not_mem_nil)

/-- An event of a resume comes when its boundary falls. -/
theorem Change.stack_of_resumed {x y : Situation H} {es : List (ThreadId × LifeEvent)}
    (hc : Change x es y) {t : ThreadId} {oc : Outcome} (he : (t, .resumed oc) ∈ es) :
    ∃ c o rest, x.stack = .resume t c o rest :: y.stack := by
  cases hc with
  | endResume input hf =>
    obtain ⟨rfl, -⟩ := Prod.mk.inj (List.mem_singleton.mp he)
    exact ⟨_, _, _, rfl⟩
  | yield name vs next hy =>
    obtain ⟨rfl, -⟩ := Prod.mk.inj (List.mem_singleton.mp he)
    exact ⟨_, _, _, rfl⟩
  | close u hu => exact absurd (List.mem_singleton.mp he) (by simp)
  | _ => exact absurd he List.not_mem_nil

/-! ### Lives -/

/-- Every coroutine yielded a number of times and then came to its end at most once; after its
end it is dead. -/
def Lived (h : List (ThreadId × LifeEvent)) (x : Situation H) : Prop :=
  ∀ t, (∀ e ∈ lifeOf t h, e.isYield) ∨
    x.world.Has t ∧ (x.world.thread t).status = .dead ∧
      ∃ ys e, (∀ y ∈ ys, LifeEvent.isYield y) ∧ ¬ LifeEvent.isYield e ∧ lifeOf t h = ys ++ [e]

theorem Lived.change {x y : Situation H} {h es : List (ThreadId × LifeEvent)}
    (hc : Change x es y) (hx : Chained x) (hl : Lived h x) : Lived (h ++ es) y := by
  intro t
  rw [lifeOf_append]
  by_cases he : ∃ e, (t, e) ∈ es
  · obtain ⟨e, he⟩ := he
    obtain ⟨rfl, halive, hafter⟩ := hc.event hx he
    rw [lifeOf_singleton_self]
    rcases hl t with hys | ⟨-, hd, -⟩
    · by_cases hy : e.isYield
      · left
        intro e' he'
        rcases List.mem_append.mp he' with hm | hm
        · exact hys e' hm
        · rw [List.mem_singleton.mp hm]
          exact hy
      · obtain ⟨hh, hd⟩ := hafter.resolve_left hy
        exact .inr ⟨hh, hd, _, e, hys, hy, rfl⟩
    · -- A thread that came to its end is dead, and the dead have no events.
      exact absurd hd halive
  · have hnone : lifeOf t es = [] := lifeOf_eq_nil fun e hm => he ⟨e, hm⟩
    rw [hnone, List.append_nil]
    rcases hl t with hys | ⟨hh, hd, hends⟩
    · exact .inl hys
    · exact .inr ⟨hc.has hx hh, hc.dead hx hh hd, hends⟩

namespace Machine

variable {B : Behaviour H} {m m' last : Machine H} {h : List (ThreadId × LifeEvent)}
  {t : ThreadId}

theorem Run.lived (hr : Run B h m) : Lived h m.situation := by
  induction hr with
  | start => exact fun t => .inl fun e he => absurd he List.not_mem_nil
  | @step h m m' hr hs ih =>
    have hm : Chained m.situation := Reachable.chained ⟨h, hr⟩
    have hch := step_changes hs
    -- The states become variables, so that the row of changes can be taken apart.
    revert hch
    generalize m.situation = x at ih hm
    generalize m.events = es
    intro hch
    cases hch with
    | nil => rwa [List.append_nil]
    | one hc => exact ih.change hc hm
    | two hc _ _ hc' =>
      have hl := (ih.change hc hm).change hc' (hm.change hc)
      rwa [List.append_nil] at hl
  | next hr hd p ih =>
    rw [hr.situation_of_result hd] at ih
    exact ih

/-! ### The answers of resumes -/

/-- The end of the frames behind a resume is the event of the move. -/
theorem Falls.events {c : ThreadId} {o : Owner} {s : List (Boundary H)} {w : World H}
    {oc : Outcome} {rest : Except ResumeError (List Value) → Program H (o.Result H)}
    (hf : Falls m (.resume t c o rest) w oc) (hs : m.stack = .resume t c o rest :: s) :
    m.events = [(t, .resumed oc)] := by
  obtain ⟨world, stack, control⟩ := m
  obtain rfl : stack = _ := hs
  cases hf with
  | left input hc hf =>
    obtain rfl : control = .drive input := hc
    have hnil : (world.thread t).frames = [] := List.length_eq_zero_iff.mp (Nat.le_zero.mp hf)
    rw [events_drive, hnil]
    rfl
  | yielded name vs next hc hy =>
    obtain rfl : control = .host (.poll name) (.done (.yield vs next)) := hc
    rw [events_yield, show world.checkYield t = .ok () from hy]

/-- The boundary falls with the chain still in place. -/
theorem Falls.chained (hm : Reachable B m) {b : Boundary H} {s : List (Boundary H)}
    {w : World H} {oc : Outcome} (hf : Falls m b w oc) (hs : m.stack = b :: s) :
    Chained ⟨w, b :: s, none⟩ := by
  have hx := hm.chained
  rw [situation, hs] at hx
  cases hf with
  | left input hc hf => exact hx.congr rfl (fun _ => rfl) (fun _ => rfl)
  | yielded name vs next hc hy => exact hx.pushFrame b.thread ⟨name, next⟩

/-- The answer of a resume is the outcome of the coroutine. -/
theorem Falls.answer (hm : Reachable B m) {c : ThreadId} {o : Owner} {s : List (Boundary H)}
    {w : World H} {oc : Outcome} {rest : Except ResumeError (List Value) → Program H (o.Result H)}
    (hf : Falls m (.resume t c o rest) w oc) (hs : m.stack = .resume t c o rest :: s)
    (hfall : fall w oc (.resume t c o rest :: s) = some m') :
    m' = ⟨w.left t c oc, s, .host o (rest (oc.handed t))⟩ ∧
      (m'.world.thread t).status = oc.status := by
  obtain ⟨hn, hr⟩ := (hf.chained hm hs).ends
  have hm' : m' = ⟨w.left t c oc, s, .host o (rest (oc.handed t))⟩ := by
    simp only [fall, World.leaveCoroutine_eq hn hr, Option.some.injEq] at hfall
    exact hfall.symm
  refine ⟨hm', ?_⟩
  rw [hm']
  show ((w.left t c oc).thread t).status = _
  rw [World.thread_left hn hr, if_pos rfl]

/-- An event of a resume comes with the fall of its boundary. -/
theorem falls_of_mem_events {oc : Outcome} (he : (t, .resumed oc) ∈ m.events)
    (hs : m.step B = some m') :
    ∃ c o rest s w, m.stack = .resume t c o rest :: s ∧ Falls m (.resume t c o rest) w oc ∧
      fall w oc (.resume t c o rest :: s) = some m' := by
  have hst : ∃ c o rest, m.stack = .resume t c o rest :: m'.stack := by
    have hch := step_changes hs
    revert hch he
    show _ → _ → ∃ c o rest, m.situation.stack = .resume t c o rest :: m'.situation.stack
    generalize m.situation = x
    generalize m'.situation = y
    generalize m.events = es
    intro he hch
    cases hch with
    | nil => exact absurd he List.not_mem_nil
    | one hc => exact hc.stack_of_resumed he
    | two hc _ _ hc' => exact absurd he List.not_mem_nil
  obtain ⟨c, o, rest, hst⟩ := hst
  rcases step_stack hs with hk | ⟨b, hk⟩ | ⟨b, s, w, oc', hms, hf, hfall⟩
  · exact absurd (hk.trans hst).symm (List.cons_ne_self _ _)
  -- The stack gets shorter, so no boundary went up.
  · have hlen := congrArg List.length (hk.trans (congrArg (b :: ·) hst))
    simp only [List.length_cons] at hlen
    omega
  · obtain ⟨rfl, rfl⟩ := List.cons.inj (hms.symm.trans hst)
    rw [hf.events hms] at he
    obtain ⟨-, he⟩ := Prod.mk.inj (List.mem_singleton.mp he)
    obtain rfl := LifeEvent.resumed.inj he
    exact ⟨c, o, rest, _, w, hms, hf, hfall⟩

/-! ### Main result -/

/-- Why a resume may be refused. -/
def IsRefusal (e : CoroutineError) : Prop :=
  e = .resumeDead ∨ (∃ status, e = .resumeNonSuspended status) ∨
    (∃ depth, e = .resumeDepthExceeded depth) ∨ ∃ depth, e = .hostDepthExceeded depth

/-- The life of a coroutine in a run with the history `h` up to the state `m`, and what
operations on it come to there. -/
structure LifeCycle (B : Behaviour H) (h : List (ThreadId × LifeEvent)) (m : Machine H)
    (t : ThreadId) : Prop where
  /-- It yielded a number of times and came to its end at most once. -/
  history : ∃ ys, (∀ y ∈ ys, LifeEvent.isYield y) ∧
    (lifeOf t h = ys ∨ ∃ e, ¬ e.isYield ∧ lifeOf t h = ys ++ [e])
  /-- After its end it is dead. -/
  ended : (∃ e ∈ lifeOf t h, ¬ e.isYield) → (m.world.thread t).status = .dead
  /-- Its error was handed out at most once. -/
  failures : ((lifeOf t h).filter LifeEvent.isFailure).length ≤ 1
  /-- An event of the next move is the answer of a resume, and tells the status after it. -/
  answered : ∀ {m' oc}, m.step B = some m' → (t, .resumed oc) ∈ m.events →
    (∃ c o rest, m.stack = .resume t c o rest :: m'.stack ∧
      m'.control = .host o (rest (oc.handed t))) ∧ (m'.world.thread t).status = oc.status
  /-- It is closed only while it is suspended. -/
  closed : (t, .closed) ∈ m.events → (m.world.thread t).status = .suspended ∧
    ∃ o rest, m.control = .host o (.close t rest)
  /-- A resume is refused at once and changes nothing, or it is answered with an event. -/
  resume : ∀ {o args rest m' last}, m.control = .host o (.resume t args rest) →
    Until B (fun x => x.stack = m.stack) m last m' →
      (last = m ∧ m.events = [] ∧ ∃ e, IsRefusal e ∧
        m' = ⟨m.world, m.stack, .host o (rest (.error (.refused e)))⟩) ∨
      ∃ oc, last.events = [(t, .resumed oc)] ∧ m'.control = .host o (rest (oc.handed t))
  /-- A resume of a dead coroutine is refused. -/
  resumeDead : ∀ {o args rest}, (m.world.thread t).status = .dead →
    m.control = .host o (.resume t args rest) →
      m.step B = some ⟨m.world, m.stack, .host o (rest (.error (.refused .resumeDead)))⟩
  /-- A close of a dead coroutine changes nothing. -/
  closeDead : ∀ {o rest}, (m.world.thread t).status = .dead →
    m.control = .host o (.close t rest) →
      m.events = [] ∧ m.step B = some ⟨m.world, m.stack, .host o (rest (.ok ()))⟩
  /-- A close of a suspended coroutine is its end. -/
  closeSuspended : ∀ {o rest}, (m.world.thread t).status = .suspended →
    m.control = .host o (.close t rest) →
      m.events = [(t, .closed)] ∧
        m.step B = some ⟨m.world.closed t, m.stack, .host o (rest (.ok ()))⟩
  /-- A close of an active coroutine is refused and changes nothing. -/
  closeActive : ∀ {o rest status}, (m.world.thread t).status = status →
    status = .running ∨ status = .normal → m.control = .host o (.close t rest) →
      m.events = [] ∧
        m.step B = some ⟨m.world, m.stack, .host o (rest (.error (.closeActive status)))⟩

theorem closed_of_mem_events (he : (t, .closed) ∈ m.events) :
    (m.world.thread t).status = .suspended ∧ ∃ o rest, m.control = .host o (.close t rest) := by
  unfold events at he
  split at he
  case h_1 => split at he <;> simp at he
  case h_2 => split at he <;> simp at he
  case h_3 o u rest hc =>
    split at he
    · rename_i hs
      obtain ⟨rfl, -⟩ := Prod.mk.inj (List.mem_singleton.mp he)
      exact ⟨hs, o, rest, hc⟩
    · exact absurd he List.not_mem_nil
  case h_4 => exact absurd he List.not_mem_nil

theorem events_close {o : Owner} {rest : Except CoroutineError Unit → Program H (o.Result H)}
    (hc : m.control = .host o (.close t rest)) :
    m.events = if (m.world.thread t).status = .suspended then [(t, .closed)] else [] := by
  obtain ⟨w, s, control⟩ := m
  obtain rfl : control = _ := hc
  cases o <;> rfl

theorem step_close {o : Owner} {rest : Except CoroutineError Unit → Program H (o.Result H)}
    (hc : m.control = .host o (.close t rest)) :
    m.step B = some (if (m.world.thread t).status = .suspended ∨
        (m.world.thread t).status = .dead then
      ⟨m.world.closed t, m.stack, .host o (rest (.ok ()))⟩
    else ⟨m.world, m.stack,
      .host o (rest (.error (.closeActive (m.world.thread t).status)))⟩) := by
  obtain ⟨w, s, control⟩ := m
  obtain rfl : control = _ := hc
  show serve B w s o (.close t rest) = _
  rw [serve, World.closeCoroutine_eq]
  by_cases hs : (w.thread t).status = .suspended ∨ (w.thread t).status = .dead
  · rw [if_pos hs, if_pos hs]
  · rw [if_neg hs, if_neg hs]

theorem events_resume {o : Owner} {args : List Value}
    {rest : Except ResumeError (List Value) → Program H (o.Result H)}
    (hc : m.control = .host o (.resume t args rest)) : m.events = [] := by
  obtain ⟨w, s, control⟩ := m
  obtain rfl : control = _ := hc
  cases o <;> rfl

/-- Why the beginning of a resume was refused. -/
theorem isRefusal_of_enterCoroutine (hm : Reachable B m) {e : CoroutineError}
    (he : m.world.enterCoroutine t = .error e) : IsRefusal e := by
  have hx : Chained ⟨m.world, m.stack, m.control.active⟩ := hm.chained
  rw [World.enterCoroutine_eq (hx.current ▸ hx.top)] at he
  by_cases hs : (m.world.thread t).status = .suspended
  · rw [if_neg (fun hn => hn hs)] at he
    by_cases hr : m.world.limits.maxResumeDepth ≤ m.world.running.length
    · rw [if_pos hr] at he
      exact .inr (.inr (.inl ⟨_, (Except.error.inj he).symm⟩))
    · rw [if_neg hr] at he
      by_cases hh : m.world.limits.maxHostDepth ≤ m.world.hostDepth
      · rw [if_pos hh] at he
        exact .inr (.inr (.inr ⟨_, (Except.error.inj he).symm⟩))
      · rw [if_neg hh] at he
        exact absurd he (by simp)
  · rw [if_pos hs] at he
    obtain rfl := Except.error.inj he
    cases hst : (m.world.thread t).status with
    | dead => exact .inl rfl
    | suspended => exact absurd hst hs
    | running => exact .inr (.inl ⟨_, rfl⟩)
    | normal => exact .inr (.inl ⟨_, rfl⟩)

theorem step_resume_of_dead (hm : Reachable B m) {o : Owner} {args : List Value}
    {rest : Except ResumeError (List Value) → Program H (o.Result H)}
    (hd : (m.world.thread t).status = .dead) (hc : m.control = .host o (.resume t args rest)) :
    m.step B = some ⟨m.world, m.stack, .host o (rest (.error (.refused .resumeDead)))⟩ := by
  have hx : Chained ⟨m.world, m.stack, m.control.active⟩ := hm.chained
  have hne : (m.world.thread t).status ≠ .suspended := by
    rw [hd]
    decide
  have he : m.world.enterCoroutine t = .error .resumeDead := by
    rw [World.enterCoroutine_eq (hx.current ▸ hx.top), if_pos hne, hd]
    rfl
  obtain ⟨w, s, control⟩ := m
  obtain rfl : control = _ := hc
  show serve B w s o (.resume t args rest) = _
  rw [serve, beginResume, he]

/-- **The life of a coroutine** in every run, and what resumes and closes of it do. -/
theorem Run.lifeCycle (hr : Run B h m) (t : ThreadId) : LifeCycle B h m t := by
  have hm : Reachable B m := ⟨h, hr⟩
  constructor
  case history =>
    rcases hr.lived t with hys | ⟨-, -, ys, e, hys, he, hl⟩
    · exact ⟨_, hys, .inl rfl⟩
    · exact ⟨ys, hys, .inr ⟨e, he, hl⟩⟩
  case ended =>
    rintro ⟨e, hm, he⟩
    rcases hr.lived t with hys | ⟨-, hd, -⟩
    · exact absurd (hys e hm) he
    · exact hd
  case failures =>
    rcases hr.lived t with hys | ⟨-, -, ys, e, hys, -, hl⟩
    · rw [LifeEvent.filter_isFailure_eq_nil hys]
      exact Nat.zero_le _
    · rw [hl, List.filter_append, LifeEvent.filter_isFailure_eq_nil hys]
      exact List.length_filter_le _ [e]
  case answered =>
    intro m' oc hs he
    obtain ⟨c, o, rest, s, w, hms, hf, hfall⟩ := falls_of_mem_events he hs
    obtain ⟨rfl, hst⟩ := hf.answer hm hms hfall
    exact ⟨⟨c, o, rest, hms, rfl⟩, hst⟩
  case closed => exact closed_of_mem_events
  case resume =>
    intro o args rest m' last hc hu
    obtain ⟨m₁, hs⟩ := hu.step_first
    rcases step_resume hm hc hs with ⟨e, he, h₁⟩ | ⟨c, h₁, -⟩
    · obtain ⟨rfl, rfl⟩ := hu.eq_of_step hs (by rw [h₁])
      exact .inl ⟨rfl, events_resume hc, e, isRefusal_of_enterCoroutine hm he, h₁⟩
    · right
      have hu₁ := hu.of_step hs (by
        rw [h₁]
        exact List.cons_ne_self _ _)
      obtain ⟨w, oc, hls, hf, hfall⟩ := hu₁.fall h₁
      obtain ⟨rfl, -⟩ := hf.answer (hu.reachable_last hm) hls hfall
      exact ⟨oc, hf.events hls, rfl⟩
  case resumeDead => exact fun hd hc => step_resume_of_dead hm hd hc
  case closeDead =>
    intro o rest hd hc
    rw [events_close hc, step_close hc, hd, if_neg (by decide), if_pos (.inr rfl),
      hm.closed_of_dead hd]
    exact ⟨rfl, rfl⟩
  case closeSuspended =>
    intro o rest hs hc
    rw [events_close hc, step_close hc, hs, if_pos rfl, if_pos (.inl rfl)]
    exact ⟨rfl, rfl⟩
  case closeActive =>
    rintro o rest status rfl hst hc
    have hn : (m.world.thread t).status ≠ .suspended ∧ (m.world.thread t).status ≠ .dead := by
      rcases hst with h | h <;> rw [h] <;> decide
    rw [events_close hc, step_close hc, if_neg hn.1, if_neg (not_or.mpr hn)]
    exact ⟨rfl, rfl⟩

/-- Resumes a coroutine that yields, closes it and resumes it again. -/
def resumeAndClose : Program H (List Value) :=
  .define (.sequence .yield) fun yield =>
  .create (.function yield) fun t =>
  match t with
  | .ok t => .resume t [.nil] fun _ => .close t fun _ => .resume t [] fun _ => .done []
  | .error _ => .done []

/-- A whole life: the last resume is refused. -/
theorem lifeCycle_resumeAndClose : ∃ h m, Run .bare h m ∧
    lifeOf ⟨1⟩ h = [.resumed (.yielded [.nil]), .closed] ∧ m.result? = some (.ok []) ∧
    LifeCycle .bare h m ⟨1⟩ := by
  have hr := (Run.start (B := .bare) (World.isFresh_initial {} ()) resumeAndClose).run 7
  exact ⟨_, _, hr, rfl, rfl, Run.lifeCycle hr ⟨1⟩⟩

end Machine

end Lua
