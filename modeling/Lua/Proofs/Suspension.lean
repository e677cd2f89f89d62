/-
The shapes of threads, and where suspended threads come from.

A thread is dead, suspended or in the chain of resumes.  A suspended one was never started, or
one of its frames has yielded: this frame is on top, above the frames that were below it when it
yielded, and nothing has changed on the thread since.

* `Changes.suspended` — a move suspends a thread by creating it or by a yield, and all other
  threads that are suspended after it were so before;
* `Machine.Issued` — the yield by which a thread was suspended, in the history of a run;
* `Machine.Run.suspended` — every suspended thread was never started, or it has come from a yield;
* `Machine.Run.thread_form` — the shape of every thread at every point of every run.

Design notes: the frame that yields is off the stack while it is polled, so the yield is known
by the state of the machine in which the poll asks for it.
-/
import Lua.Proofs.Waiting

namespace Lua

variable {H : Host}

open Machine Relation

/-! ### Single changes -/

namespace World

variable {w : World H} {t u c : ThreadId} {f : Thread H → Thread H} {oc : Outcome}

/-- A change of the running thread is none of a suspended one. -/
theorem thread_modifyThread_of_suspended (hu : (w.thread u).status = .running)
    (ht : ((w.modifyThread u f).thread t).status = .suspended)
    (hf : ∀ s, (f s).status = s.status := by intro s; rfl) :
    (w.modifyThread u f).thread t = w.thread t := by
  have hs : (w.thread t).status = .suspended := (keep_modifyThread Thread.status t hf).symm.trans ht
  exact thread_modifyThread_ne (ne_of_status hs hu (by decide)) f

/-- The beginning of a resume keeps all suspended threads but its coroutine. -/
theorem thread_entered_of_suspended (hc : (w.thread w.current).status = .running)
    (hu : (w.thread u).status = .suspended)
    (ht : (((w.entered u).dropBody u).thread t).status = .suspended) :
    ((w.entered u).dropBody u).thread t = w.thread t := by
  have hs : ((w.entered u).thread t).status = .suspended :=
    (keep_modifyThread Thread.status t).symm.trans ht
  rw [thread_entered hc hu] at hs
  by_cases htu : t = u
  · rw [if_pos htu] at hs
    cases hs
  · rw [if_neg htu] at hs
    rw [dropBody, thread_modifyThread_ne htu, thread_entered hc hu, if_neg htu]
    by_cases htc : t = w.current
    · rw [if_pos htc] at hs
      cases hs
    · exact if_neg htc

/-- The end of a resume suspends no other thread than its coroutine. -/
theorem thread_left_of_suspended (hc : (w.thread c).status = .normal)
    (hu : (w.thread u).status = .running) (ht : ((w.left u c oc).thread t).status = .suspended)
    (hne : t ≠ u) : (w.left u c oc).thread t = w.thread t := by
  rw [thread_left hc hu, if_neg hne] at ht ⊢
  by_cases htc : t = c
  · rw [if_pos htc] at ht
    cases ht
  · rw [if_neg htc]

end World

/-- How a thread can have come to be suspended. -/
inductive Suspended (t : ThreadId) (x : Situation H) (es : List (ThreadId × LifeEvent))
    (y : Situation H) : Prop
  | before (h : y.world.thread t = x.world.thread t) (he : ∀ e, (t, e) ∉ es)
  | created (h : ¬ x.world.Has t) (he : es = []) (f : Function)
      (hy : y.world.thread t = .fresh .suspended (some (.function f)))
  | yielded (vs : List Value) (h : (t, .resumed (.yielded vs)) ∈ es)

theorem Change.suspended {x y : Situation H} {es : List (ThreadId × LifeEvent)}
    (hc : Change x es y) (hx : Chained x) {t : ThreadId}
    (hy : (y.world.thread t).status = .suspended) : Suspended t x es y := by
  have hnone : ∀ e, (t, e) ∉ ([] : List (ThreadId × LifeEvent)) := fun _ => List.not_mem_nil
  have hother : ∀ {u e}, t ≠ u → ∀ e', (t, e') ∉ [((u, e) : ThreadId × LifeEvent)] := by
    rintro u e hne e' hm
    exact hne (Prod.mk.inj (List.mem_singleton.mp hm)).1
  have hcur : (x.world.thread x.world.current).status = .running := hx.current ▸ hx.top
  cases hc with
  | memory | define | leavePoll => exact .before rfl hnone
  | @create w s o f =>
    by_cases ht : t = ⟨w.threads.size⟩
    · refine .created (by rw [ht]; exact Nat.lt_irrefl _) rfl f ?_
      rw [World.thread_push, if_pos ht]
    · refine .before ?_ hnone
      rw [World.thread_push, if_neg ht]
  | @close w s o u hu =>
    by_cases ht : t = u
    · rw [World.closed, World.thread_modifyThread (World.has_of_suspended hu), if_pos ht] at hy
      cases hy
    · exact .before (World.thread_modifyThread_ne ht _) (hother ht)
  | @closeDead w s o u hu =>
    refine .before (World.thread_modifyThread_ne ?_ _) hnone
    -- A dead thread that is closed stays dead.
    rintro rfl
    by_cases hh : w.Has t
    · rw [World.closed, World.thread_modifyThread hh, if_pos rfl] at hy
      cases hy
    · rw [World.closed, World.modifyThread_of_not_has hh, hu] at hy
      cases hy
  | call hh rest => exact .before (World.thread_modifyThread_of_suspended hcur hy) hnone
  | resume u he rest =>
    obtain ⟨hu, rfl⟩ := hx.entered_of_ok he
    exact .before (World.thread_entered_of_suspended hcur hu hy) hnone
  | native | sequence | leaveNative | poll | wait | endCall =>
    exact .before (World.thread_modifyThread_of_suspended hx.top hy) hnone
  | @escape w s u base o rest name next h =>
    have hpush : ((w.pushFrame u ⟨name, next⟩).thread u).status = .running :=
      (hx.pushFrame u ⟨name, next⟩).top
    have hkept : ((w.pushFrame u ⟨name, next⟩).leaveCall u).thread t
        = (w.pushFrame u ⟨name, next⟩).thread t :=
      World.thread_modifyThread_of_suspended hpush hy
    refine .before (hkept.trans (World.thread_modifyThread_of_suspended hx.top ?_)) hnone
    exact hkept ▸ hy
  | @endResume w s u c o rest input hf =>
    obtain ⟨hn, hr⟩ := hx.ends
    rw [World.leaveCoroutine_eq hn hr] at hy
    have htu : t ≠ u := by
      rintro rfl
      rw [World.thread_left hn hr, if_pos rfl] at hy
      cases input <;> cases hy
    refine .before ?_ (hother htu)
    rw [World.leaveCoroutine_eq hn hr]
    exact World.thread_left_of_suspended hn hr hy htu
  | @yield w s u c o rest name vs next h =>
    by_cases htu : t = u
    · exact .yielded vs (by rw [htu]; exact List.mem_singleton_self _)
    · obtain ⟨hn, hr⟩ := (hx.pushFrame u ⟨name, next⟩).ends
      rw [World.leaveCoroutine_eq hn hr] at hy
      refine .before ?_ (hother htu)
      rw [World.leaveCoroutine_eq hn hr]
      exact (World.thread_left_of_suspended hn hr hy htu).trans
        (World.thread_modifyThread_ne htu _)

/-- A move suspends a thread by creating it or by a yield, and in no other way. -/
theorem Changes.suspended {x y : Situation H} {es : List (ThreadId × LifeEvent)}
    (hc : Changes x es y) (hx : Chained x) {t : ThreadId}
    (hy : (y.world.thread t).status = .suspended) : Suspended t x es y := by
  cases hc with
  | nil => exact .before rfl fun _ => List.not_mem_nil
  | one h => exact h.suspended hx hy
  | two h _ _ h' =>
    cases h'.suspended (hx.change h) hy with
    | yielded vs he => exact absurd he List.not_mem_nil
    | created hh _ f hf => exact .created (fun hxt => hh (h.has hx hxt)) rfl f hf
    | before heq _ =>
      cases h.suspended hx (heq ▸ hy) with
      | yielded vs he => exact absurd he List.not_mem_nil
      | created hh _ f hf => exact .created hh rfl f (heq.trans hf)
      | before heq' _ => exact .before (heq.trans heq') fun _ => List.not_mem_nil

/-- An event comes to a thread that was created. -/
theorem Changes.has_of_event {x y : Situation H} {es : List (ThreadId × LifeEvent)}
    (hc : Changes x es y) (hx : Chained x) {t : ThreadId} {e : LifeEvent} (he : (t, e) ∈ es) :
    x.world.Has t := by
  cases hc with
  | nil => exact absurd he List.not_mem_nil
  | one h => exact World.has_of_status (h.event hx he).2.1
  | two => exact absurd he List.not_mem_nil

namespace Machine

variable {B : Behaviour H} {m m' : Machine H} {t : ThreadId} {h : List (ThreadId × LifeEvent)}

/-! ### Histories -/

/-- A thread that was not created yet has no history. -/
theorem Run.lifeOf_of_not_has (hr : Run B h m) (ht : ¬ m.world.Has t) : lifeOf t h = [] := by
  induction hr with
  | start => rfl
  | next _ _ _ ih => exact ih ht
  | @step h m m' hr hs ih =>
    have hm : Chained m.situation := Reachable.chained ⟨h, hr⟩
    have hbefore : ¬ m.world.Has t := fun hh => ht ((step_changes hs).keep
      (P := fun x => Chained x ∧ x.world.Has t)
      (fun hc hx => ⟨hx.1.change hc, hc.has hx.1 hx.2⟩) ⟨hm, hh⟩).2
    rw [lifeOf_append, ih hbefore, List.nil_append]
    exact lifeOf_eq_nil fun e he => hbefore ((step_changes hs).has_of_event hm he)

/-- The thread `t` is suspended since its frame `f` has yielded the values `vs`: the poll of the
frame asked for the yield in the state `m₀`, after the history `h₀`, and since the next state
nothing has become of the thread. -/
structure Issued (B : Behaviour H) (t : ThreadId) (h : List (ThreadId × LifeEvent))
    (m : Machine H) (f : Frame H) (vs : List Value) (h₀ : List (ThreadId × LifeEvent))
    (m₀ : Machine H) : Prop where
  run : Run B h₀ m₀
  asked : m₀.control = .host (.poll f.name) (.done (.yield vs f.activation))
  driven : driven m₀.stack = t
  allowed : m₀.world.checkYield t = .ok ()
  since : ∃ m₁, m₀.step B = some m₁ ∧
    ReflTransGen (fun x y => Follows B x y ∧ y.world.thread t = x.world.thread t) m₁ m
  frames : (m.world.thread t).frames = f :: (m₀.world.thread t).frames
  life : lifeOf t h = lifeOf t h₀ ++ [.resumed (.yielded vs)]

theorem Issued.follows {f : Frame H} {vs : List Value} {h₀ h' : List (ThreadId × LifeEvent)}
    {m₀ : Machine H} (hi : Issued B t h m f vs h₀ m₀) (hf : Follows B m m')
    (heq : m'.world.thread t = m.world.thread t) (hl : lifeOf t h' = lifeOf t h) :
    Issued B t h' m' f vs h₀ m₀ := by
  obtain ⟨m₁, hs, hpath⟩ := hi.since
  refine ⟨hi.run, hi.asked, hi.driven, hi.allowed, ⟨m₁, hs, hpath.tail ⟨hf, heq⟩⟩, ?_, ?_⟩
  · rw [heq]
    exact hi.frames
  · rw [hl]
    exact hi.life

/-- A yield suspends its thread. -/
theorem Run.issued (hr : Run B h m) {vs : List Value} (he : (t, .resumed (.yielded vs)) ∈ m.events)
    (hs : m.step B = some m') : ∃ f, Issued B t (h ++ m.events) m' f vs h m := by
  obtain ⟨c, o, rest, s, w, hstack, hf, hfall⟩ := falls_of_mem_events he hs
  have hm : Reachable B m := ⟨h, hr⟩
  obtain ⟨hm', -⟩ := hf.answer hm hstack hfall
  have hevents := hf.events hstack
  generalize hoc : Outcome.yielded vs = oc at hf hm' hevents
  cases hf with
  | left input hc hb => cases input <;> cases hoc
  | yielded name vs next hc hy =>
    obtain rfl := Outcome.yielded.inj hoc
    refine ⟨⟨name, next⟩, hr, hc, ?_, hy, ⟨m', hs, .refl⟩, ?_, ?_⟩
    · rw [hstack]
      rfl
    · have hx : Chained ⟨m.world, .resume t c o rest :: s, m.control.active⟩ := by
        rw [← hstack]
        exact hm.chained
      obtain ⟨hn, hrun⟩ := (hx.pushFrame t ⟨name, next⟩).ends
      have hpush : ((m.world.pushFrame t ⟨name, next⟩).thread t).frames
          = ⟨name, next⟩ :: (m.world.thread t).frames := by
        rw [World.pushFrame, World.thread_modifyThread (World.has_of_running hx.ends.2), if_pos rfl]
      rw [hm']
      show (((m.world.pushFrame t ⟨name, next⟩).left t c (.yielded vs)).thread t).frames = _
      rw [World.thread_left hn hrun, if_pos rfl]
      exact hpush
    · rw [lifeOf_append, hevents, lifeOf_singleton_self]

/-- **Where suspended threads come from**: they were never started, or they have yielded. -/
theorem Run.suspended (hr : Run B h m) (hs : (m.world.thread t).status = .suspended) :
    ((∃ g, (m.world.thread t).body = some (.function g)) ∧ lifeOf t h = []) ∨
      ∃ f vs h₀ m₀, Issued B t h m f vs h₀ m₀ := by
  induction hr with
  | @start w hw p =>
    -- There is only the main thread, which is running.
    have hw' : (w.thread t).status = .suspended := hs
    by_cases ht : t = .main
    · rw [ht, hw.thread_main] at hw'
      cases hw'
    · rw [hw.thread_ne ht] at hw'
      cases hw'
  | @next h m r hr hd p ih =>
    rcases ih hs with hu | ⟨f, vs, h₀, m₀, hi⟩
    · exact .inl hu
    · exact .inr ⟨f, vs, h₀, m₀, hi.follows (.next hd p) rfl rfl⟩
  | @step h m m' hr hstep ih =>
    cases (step_changes hstep).suspended (Reachable.chained ⟨h, hr⟩) hs with
    | before heq he =>
      have hlife : lifeOf t (h ++ m.events) = lifeOf t h := by
        rw [lifeOf_append, lifeOf_eq_nil he, List.append_nil]
      have hthread : m'.world.thread t = m.world.thread t := heq
      rw [hthread] at hs
      rcases ih hs with hu | ⟨f, vs, h₀, m₀, hi⟩
      · left
        rw [hthread, hlife]
        exact hu
      · exact .inr ⟨f, vs, h₀, m₀, hi.follows (.step hstep) hthread hlife⟩
    | created hh he g hf =>
      left
      have hthread : m'.world.thread t = .fresh .suspended (some (.function g)) := hf
      rw [hthread, he, List.append_nil]
      exact ⟨⟨g, rfl⟩, hr.lifeOf_of_not_has hh⟩
    | yielded vs he =>
      obtain ⟨f, hi⟩ := hr.issued he hstep
      exact .inr ⟨f, vs, h, m, hi⟩

/-! ### Main result -/

/-- The shapes that a thread may have in a run with the history `h` up to the state `m`. -/
inductive ThreadForm (B : Behaviour H) (h : List (ThreadId × LifeEvent)) (m : Machine H)
    (t : ThreadId) : Prop
  /-- It has come to its end. -/
  | dead (status : (m.world.thread t).status = .dead) (frames : (m.world.thread t).frames = [])
      (body : (m.world.thread t).body = none) (nativeDepth : (m.world.thread t).nativeDepth = 0)
      (nonYieldable : (m.world.thread t).nonYieldable = 0)
  /-- It was never started. -/
  | unstarted (status : (m.world.thread t).status = .suspended)
      (frames : (m.world.thread t).frames = [])
      (body : ∃ g, (m.world.thread t).body = some (.function g))
      (nativeDepth : (m.world.thread t).nativeDepth = 0)
      (nonYieldable : (m.world.thread t).nonYieldable = 0) (life : lifeOf t h = [])
  /-- Its topmost frame has yielded. -/
  | yielded (status : (m.world.thread t).status = .suspended)
      (body : (m.world.thread t).body = none) (nativeDepth : (m.world.thread t).nativeDepth = 0)
      (nonYieldable : (m.world.thread t).nonYieldable = 0)
      (issued : ∃ f vs h₀ m₀, Issued B t h m f vs h₀ m₀)
  /-- It is in the chain of resumes. -/
  | active (status : (m.world.thread t).status = .running ∨ (m.world.thread t).status = .normal)
      (body : (m.world.thread t).body = none)

/-- **The shapes of threads** at every point of every run; the main thread is always in the chain
of resumes. -/
theorem Run.thread_form (hr : Run B h m) (t : ThreadId) :
    ThreadForm B h m t ∧
      (t = .main → (m.world.thread t).body = none ∧
        ((m.world.thread t).status = .running ∨ (m.world.thread t).status = .normal)) := by
  have hm : Reachable B m := ⟨h, hr⟩
  have hx : Chained ⟨m.world, m.stack, m.control.active⟩ := hm.chained
  have hactive : t ∈ chain m.stack → (m.world.thread t).body = none ∧
      ((m.world.thread t).status = .running ∨ (m.world.thread t).status = .normal) := by
    intro hmem
    refine ⟨hm.shaped.active t hmem, ?_⟩
    by_cases hd : t = driven m.stack
    · rw [hd]
      exact .inl hx.top
    · exact .inr (hx.waiting t hmem hd)
  constructor
  · by_cases hmem : t ∈ chain m.stack
    · obtain ⟨hb, hs⟩ := hactive hmem
      exact .active hs hb
    · have hdepth : (m.world.thread t).nativeDepth = 0 :=
        hm.counted.nativeDepth_outside hx.linked hmem
      have hyield : (m.world.thread t).nonYieldable = 0 :=
        hm.counted.nonYieldable_outside hx.linked hmem
      have hshape : (m.world.thread t).Shape := hm.shaped.shape t
      rcases hx.outside t hmem with hs | hs
      · rcases hr.suspended hs with ⟨hb, hl⟩ | hi
        · rcases hshape.suspended hs with ⟨-, hf⟩ | ⟨hn, -⟩
          · exact .unstarted hs hf hb hdepth hyield hl
          · obtain ⟨g, hg⟩ := hb
            rw [hn] at hg
            cases hg
        · rcases hshape.suspended hs with ⟨-, hf⟩ | ⟨hb, -⟩
          · obtain ⟨f, vs, h₀, m₀, hi⟩ := hi
            rw [hi.frames] at hf
            cases hf
          · exact .yielded hs hb hdepth hyield hi
      · obtain ⟨hb, hf⟩ := hshape.dead hs
        exact .dead hs hf hb hdepth hyield
  · rintro rfl
    exact hactive (List.mem_append_right _ (List.mem_singleton_self _))

/-- Creates three coroutines: the first one yields, the second one is not started, and the third
one is closed. -/
def threeCoroutines : Program H (List Value) :=
  .define (.sequence .yield) fun yield =>
  .create (.function yield) fun first =>
  .create (.function yield) fun _ =>
  .create (.function yield) fun third =>
  match first, third with
  | .ok first, .ok third => .resume first [.nil] fun _ => .close third fun _ => .done []
  | _, _ => .done []

/-- All shapes at once. -/
theorem thread_form_threeCoroutines : ∃ h m, Run .bare h m ∧
    m.world.threads.toList.map (fun x => (x.status, x.frames.length, x.body.isSome)) =
      [(.running, 0, false), (.suspended, 1, false), (.suspended, 0, true), (.dead, 0, false)] ∧
    ThreadForm .bare h m ⟨1⟩ ∧ ThreadForm .bare h m ⟨2⟩ ∧ ThreadForm .bare h m ⟨3⟩ := by
  have hr := (Run.start (B := .bare) (World.isFresh_initial {} ()) threeCoroutines).run 8
  exact ⟨_, _, hr, rfl, (Run.thread_form hr ⟨1⟩).1, (Run.thread_form hr ⟨2⟩).1,
    (Run.thread_form hr ⟨3⟩).1⟩

end Machine

end Lua
