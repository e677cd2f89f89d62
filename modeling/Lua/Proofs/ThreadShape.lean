/-
The shapes of threads.

Whether a thread has frames and a body goes with its status:

* `Thread.Shape` — a suspended thread has a body and no frames, or frames and no body, and a
  dead one has neither;
* `Shaped` — this holds of all threads, and those of the chain of resumes have lost their bodies;
* `Machine.Reachable.shaped` — so it is at every point of every run;
* `Machine.Reachable.closed_of_dead` — so a close of a dead coroutine changes nothing.
-/
import Lua.Proofs.Depth

namespace Lua

variable {H : Host}

open Machine

/-! ### Single threads -/

/-- The frames and the body of a thread go with its status. -/
structure Thread.Shape (x : Thread H) : Prop where
  suspended : x.status = .suspended →
    (∃ body, x.body = some body) ∧ x.frames = [] ∨ x.body = none ∧ x.frames ≠ []
  dead : x.status = .dead → x.body = none ∧ x.frames = []

namespace Thread.Shape

variable {x y : Thread H}

/-- An active thread may have any frames. -/
theorem of_active (h : x.status = .running ∨ x.status = .normal) : x.Shape where
  suspended hs := by
    rw [hs] at h
    exact absurd h (by decide)
  dead hd := by
    rw [hd] at h
    exact absurd h (by decide)

theorem of_dead (hs : x.status = .dead) (hb : x.body = none) (hf : x.frames = []) : x.Shape where
  suspended h := absurd (hs.symm.trans h) (by decide)
  dead _ := ⟨hb, hf⟩

theorem congr (h : x.Shape) (hs : y.status = x.status) (hb : y.body = x.body)
    (hf : y.frames = x.frames) : y.Shape where
  suspended := by
    rw [hs, hb, hf]
    exact h.suspended
  dead := by
    rw [hs, hb, hf]
    exact h.dead

end Thread.Shape

/-! ### All threads -/

/-- The frames and the body of every thread go with its status, and the threads of the chain of
resumes have lost their bodies. -/
structure Shaped (x : Situation H) : Prop where
  active : ∀ t ∈ chain x.stack, (x.world.thread t).body = none
  shape : ∀ t, (x.world.thread t).Shape

namespace Shaped

variable {w w' : World H} {s s' : List (Boundary H)} {a a' : Option Owner}

theorem fresh (hw : w.IsFresh) : Shaped ⟨w, [], a⟩ := by
  have hthread : ∀ t, w.thread t = .fresh .running none ∨ w.thread t = .absent := by
    intro t
    by_cases ht : t = .main
    · rw [ht]
      exact .inl hw.thread_main
    · exact .inr (hw.thread_ne ht)
  refine ⟨fun t _ => ?_, fun t => ?_⟩
  · show (w.thread t).body = none
    rcases hthread t with h | h
    · rw [h]
      rfl
    · rw [h]
      rfl
  · show (w.thread t).Shape
    rcases hthread t with h | h
    · rw [h]
      exact .of_active (.inl rfl)
    · rw [h]
      exact .of_dead rfl rfl rfl

/-- A change of a thread that keeps its shape. -/
theorem modifyThread (h : Shaped ⟨w, s, a⟩) (t : ThreadId) {f : Thread H → Thread H}
    (hb : ∀ x, x.body = none → (f x).body = none) (hf : (f (w.thread t)).Shape) :
    Shaped ⟨w.modifyThread t f, s, a'⟩ := by
  by_cases hh : w.Has t
  · refine ⟨fun u hu => ?_, fun u => ?_⟩
    · show ((w.modifyThread t f).thread u).body = none
      rw [World.thread_modifyThread hh]
      by_cases hut : u = t
      · rw [if_pos hut]
        exact hb _ (h.active t (hut ▸ hu))
      · rw [if_neg hut]
        exact h.active u hu
    · show ((w.modifyThread t f).thread u).Shape
      rw [World.thread_modifyThread hh]
      by_cases hut : u = t
      · rw [if_pos hut]
        exact hf
      · rw [if_neg hut]
        exact h.shape u
  · rw [World.modifyThread_of_not_has hh]
    exact ⟨h.active, h.shape⟩

/-- A change of the counters of a thread. -/
theorem modifyCounters (h : Shaped ⟨w, s, a⟩) (t : ThreadId) {f : Thread H → Thread H}
    (hs : ∀ x, (f x).status = x.status := by intro x; rfl)
    (hb : ∀ x, (f x).body = x.body := by intro x; rfl)
    (hf : ∀ x, (f x).frames = x.frames := by intro x; rfl) :
    Shaped ⟨w.modifyThread t f, s, a'⟩ :=
  h.modifyThread t (fun x hx => (hb x).trans hx) ((h.shape t).congr (hs _) (hb _) (hf _))

/-- A change of the frames of the running thread. -/
theorem changeFrames (h : Shaped ⟨w, s, a⟩) {t : ThreadId}
    (ht : (w.thread t).status = .running) (f : List (Frame H) → List (Frame H)) :
    Shaped ⟨w.modifyThread t fun x => { x with frames := f x.frames }, s, a'⟩ :=
  h.modifyThread t (fun _ hx => hx) (.of_active (.inl ht))

theorem create (h : Shaped ⟨w, s, a⟩) (hch : Chained ⟨w, s, a⟩) (body : Value) :
    Shaped ⟨{ w with threads := w.threads.push (.fresh .suspended (some body)) }, s, a⟩ := by
  refine ⟨fun t ht => ?_, fun t => ?_⟩
  · have hne : t ≠ ⟨w.threads.size⟩ := by
      rintro rfl
      exact absurd (hch.has ht) (Nat.lt_irrefl _)
    show (World.thread _ t).body = none
    rw [World.thread_push, if_neg hne]
    exact h.active t ht
  · show (World.thread _ t).Shape
    rw [World.thread_push]
    by_cases hn : t = ⟨w.threads.size⟩
    · rw [if_pos hn]
      exact ⟨fun _ => .inl ⟨⟨body, rfl⟩, rfl⟩, fun hd => by cases hd⟩
    · rw [if_neg hn]
      exact h.shape t

theorem close (h : Shaped ⟨w, s, a⟩) (t : ThreadId) : Shaped ⟨w.closed t, s, a⟩ :=
  h.modifyThread t (fun _ _ => rfl) (.of_dead rfl rfl rfl)

theorem enter (h : Shaped ⟨w, s, a⟩) (hch : Chained ⟨w, s, a⟩) {t : ThreadId}
    (ht : (w.thread t).status = .suspended) {o : Owner}
    {rest : Except ResumeError (List Value) → Program H (o.Result H)} :
    Shaped ⟨(w.entered t).dropBody t, .resume t w.current o rest :: s, a'⟩ := by
  have hc : (w.thread w.current).status = .running := by
    rw [hch.current]
    exact hch.top
  have hlook : ∀ u, ((w.entered t).dropBody t).thread u =
      if u = t then
        { w.thread t with status := .running, resumer := some w.current, body := none }
      else if u = w.current then { w.thread w.current with status := .normal }
      else w.thread u := by
    intro u
    rw [World.dropBody, World.thread_modifyThread
        (World.has_entered.mpr (World.has_of_suspended ht)),
      World.thread_entered hc ht, World.thread_entered hc ht, if_pos rfl]
    by_cases hu : u = t
    · rw [if_pos hu, if_pos hu]
    · rw [if_neg hu, if_neg hu, if_neg hu]
  refine ⟨fun u hu => ?_, fun u => ?_⟩
  · show (World.thread _ u).body = none
    rw [hlook]
    by_cases hut : u = t
    · rw [if_pos hut]
    · have hus : u ∈ chain s := (List.mem_cons.mp hu).resolve_left hut
      rw [if_neg hut]
      by_cases huc : u = w.current
      · rw [if_pos huc, ← huc]
        exact h.active u hus
      · rw [if_neg huc]
        exact h.active u hus
  · show (World.thread _ u).Shape
    rw [hlook]
    by_cases hut : u = t
    · rw [if_pos hut]
      exact .of_active (.inl rfl)
    · rw [if_neg hut]
      by_cases huc : u = w.current
      · rw [if_pos huc]
        exact .of_active (.inr rfl)
      · rw [if_neg huc]
        exact h.shape u

theorem leave {t c : ThreadId} {o : Owner}
    {rest : Except ResumeError (List Value) → Program H (o.Result H)}
    (h : Shaped ⟨w, .resume t c o rest :: s, a⟩) (hch : Chained ⟨w, .resume t c o rest :: s, a⟩)
    {oc : Outcome} (hoc : oc.status = .suspended → (w.thread t).frames ≠ []) :
    Shaped ⟨w.left t c oc, s, a'⟩ := by
  have hlook := World.thread_left hch.ends.1 hch.ends.2 oc
  have hbody : (w.thread t).body = none := h.active t List.mem_cons_self
  refine ⟨fun u hu => ?_, fun u => ?_⟩
  · show ((w.left t c oc).thread u).body = none
    have hub : (w.thread u).body = none := h.active u (List.mem_cons_of_mem t hu)
    rw [hlook]
    by_cases hut : u = t
    · rw [if_pos hut, ← hbody]
    · rw [if_neg hut]
      by_cases huc : u = c
      · rw [if_pos huc, ← hub, huc]
      · rw [if_neg huc, hub]
  · show ((w.left t c oc).thread u).Shape
    rw [hlook]
    by_cases hut : u = t
    · rw [if_pos hut]
      cases oc with
      | yielded vs => exact ⟨fun _ => .inr ⟨hbody, hoc rfl⟩, fun hd => by cases hd⟩
      | returned vs => exact .of_dead rfl hbody rfl
      | failed e => exact .of_dead rfl hbody rfl
    · rw [if_neg hut]
      by_cases huc : u = c
      · rw [if_pos huc]
        exact .of_active (.inl rfl)
      · rw [if_neg huc]
        exact h.shape u

/-- Elementary changes keep the shapes. -/
theorem change {x y : Situation H} {es : List (ThreadId × LifeEvent)} (hc : Change x es y)
    (hch : Chained x) (h : Shaped x) : Shaped y := by
  cases hc with
  | memory | define | leavePoll => exact ⟨h.active, h.shape⟩
  | create f => exact h.create hch _
  | close t ht => exact h.close t
  | closeDead t ht => exact h.close t
  | @call w s o =>
    have hnew : Shaped ⟨w.enterNonYieldable w.current, s, some o⟩ := h.modifyCounters _
    exact ⟨hnew.active, hnew.shape⟩
  | resume t he rest =>
    obtain ⟨ht, rfl⟩ := hch.entered_of_ok he
    exact h.enter hch ht
  | @native w s name =>
    have hnew : Shaped ⟨w.enterNative (driven s), s, none⟩ := h.modifyCounters _
    exact ⟨hnew.active, hnew.shape⟩
  | sequence f hd => exact h.changeFrames hch.top (f :: ·)
  | @leaveNative w s name =>
    have hnew : Shaped ⟨w.exitNative (driven s), s, none⟩ := h.modifyCounters _
    exact ⟨hnew.active, hnew.shape⟩
  | poll b f below hf hb => exact h.changeFrames hch.top fun _ => below
  | wait name next => exact h.changeFrames hch.top (_ :: ·)
  | @endCall w s t base o rest hf =>
    have hnew : Shaped ⟨w.exitNonYieldable t, .call t base o rest :: s, none⟩ :=
      h.modifyCounters _
    exact ⟨hnew.active, hnew.shape⟩
  | endResume input hf =>
    rw [World.leaveCoroutine_eq hch.ends.1 hch.ends.2]
    refine h.leave hch fun he => ?_
    cases input <;> cases he
  | @yield w s t c o rest name vs next hy =>
    have hpush := hch.pushFrame t ⟨name, next⟩
    rw [World.leaveCoroutine_eq hpush.ends.1 hpush.ends.2]
    refine (h.changeFrames (t := t) hch.top (⟨name, next⟩ :: ·)).leave hpush fun _ => ?_
    rw [World.thread_modifyThread (t := t) hch.has_driven, if_pos rfl]
    exact List.cons_ne_nil _ _
  | @escape w s t base o rest name next hy =>
    have hpush : Shaped ⟨w.pushFrame t ⟨name, next⟩, .call t base o rest :: s, none⟩ :=
      h.changeFrames hch.top (⟨name, next⟩ :: ·)
    have hnew : Shaped ⟨(w.pushFrame t ⟨name, next⟩).exitNonYieldable t,
        .call t base o rest :: s, none⟩ := hpush.modifyCounters t
    exact ⟨hnew.active, hnew.shape⟩

end Shaped

namespace Machine

variable {B : Behaviour H} {m : Machine H}

theorem Reachable.shaped (hm : Reachable B m) : Shaped m.situation := by
  obtain ⟨h, hr⟩ := hm
  exact (hr.keep (P := fun x => Chained x ∧ Shaped x)
    (fun hw => ⟨.fresh hw, .fresh hw⟩)
    (fun hc hx => ⟨hx.1.change hc, .change hc hx.1 hx.2⟩)).2

/-- A close of a dead coroutine changes nothing. -/
theorem Reachable.closed_of_dead (hm : Reachable B m) {t : ThreadId}
    (ht : (m.world.thread t).status = .dead) : m.world.closed t = m.world := by
  obtain ⟨hb, hf⟩ := (hm.shaped.shape t).dead ht
  have hb' : (m.world.thread t).body = none := hb
  have hf' : (m.world.thread t).frames = [] := hf
  apply World.modifyThread_eq_self
  rw [← ht, ← hb', ← hf']

end Machine

end Lua
