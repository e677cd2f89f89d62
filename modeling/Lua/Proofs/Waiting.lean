/-
Frames that wait.

A frame that has made a call waits on its thread for the outcome.  Meanwhile anything may happen:
more frames above it, host calls, resumes of other coroutines, yields of its own thread, and other
programs of the host when its thread is suspended.  All of this leaves the frame alone:

* `Machine.Follows`, `Machine.Upto` — what comes after a state, in a run of any number of
  programs;
* `Machine.GoesOn` — the frame is next, and is given an input;
* `Machine.step_waits` — a move leaves a frame and all frames below it where they are, unless the
  frame goes on or its thread is closed;
* `Machine.Upto.waits` — so does a run, up to the state in which the frame goes on.

Design notes: a frame is known by its place, the list of the frames below it.  What is said to
stay is the frame together with this list, as a suffix of the frames of the thread.
-/
import Lua.Proofs.LifeCycle
import Lua.Proofs.Stretches

namespace Lua

variable {H : Host}

open Machine

/-! ### Frames at the bottom of a thread -/

/-- The frames `fs` are the lowest on the thread `t`. -/
def World.Holds (w : World H) (t : ThreadId) (fs : List (Frame H)) : Prop :=
  fs <:+ (w.thread t).frames

namespace World.Holds

variable {w w' : World H} {t u : ThreadId} {fs : List (Frame H)}

theorem of_frames (h : (w.thread t).frames = fs) : w.Holds t fs := by
  subst h
  exact List.suffix_refl _

theorem congr (h : w.Holds t fs) (hf : (w'.thread t).frames = (w.thread t).frames) :
    w'.Holds t fs := by
  rw [World.Holds, hf]
  exact h

/-- A change of a thread that keeps its frames. -/
theorem modifyThread (h : w.Holds t fs) (u : ThreadId) {f : Thread H → Thread H}
    (hf : ∀ s, (f s).frames = s.frames := by intro s; rfl) : (w.modifyThread u f).Holds t fs :=
  h.congr (World.keep_modifyThread Thread.frames t hf)

theorem pushFrame (h : w.Holds t fs) (u : ThreadId) (f : Frame H) :
    (w.pushFrame u f).Holds t fs := by
  by_cases hu : w.Has u
  · rw [World.Holds, World.pushFrame, World.thread_modifyThread hu]
    by_cases htu : t = u
    · rw [if_pos htu, ← htu]
      exact h.trans (List.suffix_cons f _)
    · rw [if_neg htu]
      exact h
  · rw [World.pushFrame, World.modifyThread_of_not_has hu]
    exact h

/-- A thread with frames was created. -/
theorem has (h : w.Holds t fs) (hne : fs ≠ []) : w.Has t := by
  by_contra hn
  rw [World.Holds, World.thread_of_not_has hn] at h
  exact hne (List.suffix_nil.mp h)

theorem create (h : w.Holds t fs) (hne : fs ≠ []) (s : Thread H) :
    World.Holds { w with threads := w.threads.push s } t fs := by
  have ht : t ≠ ⟨w.threads.size⟩ := by
    rintro rfl
    exact absurd (h.has hne) (Nat.lt_irrefl _)
  rw [World.Holds, World.thread_push, if_neg ht]
  exact h

theorem invoke (h : w.Holds t fs) (B : Behaviour H) (u : ThreadId) (callee : Value)
    (args : List Value) : (w.invoke B u callee args).1.Holds t fs := by
  rw [World.invoke]
  cases w.memory.heap.prepareCall callee args with
  | error e => exact h
  | ok call =>
    obtain ⟨f, args⟩ := call
    simp only
    by_cases hd : w.limits.maxCallDepth ≤ (w.thread u).callDepth
    · rw [if_pos hd]
      exact h
    · rw [if_neg hd]
      cases B.enter w f args with
      | sequence a => exact h.pushFrame u _
      | native p =>
        by_cases hh : w.limits.maxHostDepth ≤ w.hostDepth
        · simp only [World.enterHost, if_pos hh]
          exact h
        · simp only [World.enterHost, if_neg hh]
          exact modifyThread (w := { w with hostDepth := w.hostDepth + 1 }) h u

/-- The end of a resume keeps the frames of every thread but one that has come to its end. -/
theorem left (h : w.Holds t fs) {c : ThreadId} (hc : (w.thread c).status = .normal)
    (hu : (w.thread u).status = .running) {oc : Outcome}
    (hend : oc.status = .dead → t ≠ u) : (w.left u c oc).Holds t fs := by
  rw [World.Holds, World.thread_left_frames hc hu]
  by_cases htu : t = u
  · rw [if_pos htu, ← htu]
    cases oc with
    | yielded vs => exact h
    | returned vs => exact absurd htu (hend rfl)
    | failed e => exact absurd htu (hend rfl)
  · rw [if_neg htu]
    exact h

end World.Holds

namespace Machine

variable {B : Behaviour H} {m m' : Machine H} {t : ThreadId} {f : Frame H}
  {below fs : List (Frame H)} {input : Input}

/-! ### Going on -/

/-- The frame `f` is the topmost one on the driven thread `t`, above the frames `below`, and it
is given an input next. -/
structure GoesOn (t : ThreadId) (f : Frame H) (below : List (Frame H)) (input : Input)
    (m : Machine H) : Prop where
  control : m.control = .drive input
  frames : (m.world.thread t).frames = f :: below
  driven : ∃ base, Top t base m.stack ∧ base ≤ below.length

theorem GoesOn.step (h : GoesOn t f below input m) :
    m.step B
      = some ⟨m.world.setFrames t below, m.stack, .host (.poll f.name) (B.goOn f input)⟩ := by
  obtain ⟨base, htop, hbase⟩ := h.driven
  obtain ⟨w, s, control⟩ := m
  obtain rfl : control = .drive input := h.control
  exact htop.drive_polls h.frames hbase input

/-- A frame goes on as soon as a call that it made is refused. -/
theorem goesOn_of_invoke {w : World H} {s : List (Boundary H)} {base : Nat} {callee : Value}
    {args : List Value} {e : TracedError} (htop : Top t base s) (hbase : base ≤ below.length)
    (hf : (w.thread t).frames = f :: below)
    (he : (w.invoke B t callee args).2 = .drive (.error e)) :
    GoesOn t f below (.error e)
      ⟨(w.invoke B t callee args).1, s, (w.invoke B t callee args).2⟩ := by
  refine ⟨he, ?_, base, htop, hbase⟩
  have hw : (w.invoke B t callee args).1 = w := by
    revert he
    rw [World.invoke]
    cases w.memory.heap.prepareCall callee args with
    | error e' =>
      intro
      rfl
    | ok call =>
      obtain ⟨g, args⟩ := call
      simp only
      by_cases hd : w.limits.maxCallDepth ≤ (w.thread t).callDepth
      · rw [if_pos hd]
        intro
        rfl
      · rw [if_neg hd]
        cases B.enter w g args with
        | sequence a =>
          intro he
          cases he
        | native p =>
          by_cases hh : w.limits.maxHostDepth ≤ w.hostDepth
          · simp only [World.enterHost, if_pos hh]
            exact fun _ => trivial
          · simp only [World.enterHost, if_neg hh]
            intro he
            cases he
  show ((w.invoke B t callee args).1.thread t).frames = _
  rw [hw]
  exact hf

/-! ### Single moves -/

/-- The fall of a boundary keeps the frames of every thread that has some. -/
theorem holds_of_fall {w : World H} {oc : Outcome} {b : Boundary H} {s : List (Boundary H)}
    {a : Option Owner} (h : w.Holds t fs) (hne : fs ≠ []) (hch : Chained ⟨w, b :: s, a⟩)
    (hend : oc.status = .dead → (w.thread b.thread).frames.length ≤ b.base)
    (hf : fall w oc (b :: s) = some m') : m'.world.Holds t fs := by
  cases b with
  | call u base o rest =>
    cases hf
    exact World.Holds.congr (h.modifyThread u) rfl
  | resume u c o rest =>
    obtain ⟨hc, hu⟩ := hch.ends
    simp only [fall, World.leaveCoroutine_eq hc hu] at hf
    cases hf
    refine h.left hc hu ?_
    rintro hd rfl
    -- A coroutine that comes to its end has no frames left.
    have hnil : (w.thread t).frames = [] := List.length_eq_zero_iff.mp (Nat.le_zero.mp (hend hd))
    rw [World.Holds, hnil] at h
    exact hne (List.suffix_nil.mp h)

theorem drive_waits {w : World H} {s : List (Boundary H)} (h : w.Holds t (f :: below))
    (hch : Chained ⟨w, s, none⟩) (hd : drive B w input s = some m') :
    m'.world.Holds t (f :: below) ∨ GoesOn t f below input ⟨w, s, .drive input⟩ := by
  cases s with
  | nil => exact absurd hd (by simp [drive])
  | cons b s =>
    simp only [drive] at hd
    by_cases hb : (w.thread b.thread).frames.length ≤ b.base
    · rw [if_pos hb] at hd
      exact .inl (holds_of_fall h (List.cons_ne_nil _ _) hch (fun _ => hb) hd)
    · rw [if_neg hb] at hd
      cases hf : (w.thread b.thread).frames with
      | nil =>
        rw [hf] at hb
        exact absurd (Nat.zero_le _) hb
      | cons g rest =>
        rw [hf] at hd hb
        cases hd
        by_cases ht : t = b.thread
        · subst ht
          -- The topmost frame is taken: it is the one that waits, or one above it.
          rw [World.Holds, hf, List.suffix_cons_iff] at h
          rcases h with he | hs
          · obtain ⟨rfl, rfl⟩ := List.cons.inj he
            refine .inr ⟨rfl, hf, b.base, ⟨b, s, rfl, rfl, rfl⟩, ?_⟩
            rw [List.length_cons] at hb
            omega
          · left
            have hhas : w.Has b.thread := hch.has_driven
            show _ <:+ ((w.modifyThread b.thread _).thread b.thread).frames
            rw [World.thread_modifyThread hhas, if_pos rfl]
            exact hs
        · left
          refine World.Holds.congr h ?_
          exact congrArg Thread.frames (World.thread_modifyThread_ne ht _)

theorem perform_waits {w : World H} {s : List (Boundary H)} {name : String} {st : Step H}
    (h : w.Holds t fs) (hne : fs ≠ []) (hch : Chained ⟨w, s, none⟩)
    (hp : perform B w s name st = some m') : m'.world.Holds t fs := by
  cases st with
  | «return» vs =>
    cases hp
    exact h
  | call callee args next =>
    cases hp
    exact (h.pushFrame _ _).invoke B _ callee args
  | tailCall callee args =>
    cases hp
    exact h.invoke B _ callee args
  | yield vs next =>
    simp only [perform] at hp
    cases hc : w.checkYield (driven s) with
    | error e =>
      rw [hc] at hp
      cases hp
      exact h
    | ok u =>
      rw [hc] at hp
      cases s with
      | nil => exact absurd hp (by simp [fall])
      | cons b s =>
        refine holds_of_fall (h.pushFrame b.thread _) hne (hch.pushFrame b.thread _) ?_ hp
        intro hd
        cases hd

theorem beginResume_waits {w : World H} {s : List (Boundary H)} {o : Owner} {u : ThreadId}
    {args : List Value} {rest : Except ResumeError (List Value) → Program H (o.Result H)}
    (h : w.Holds t fs) (hch : Chained ⟨w, s, some o⟩) :
    (beginResume B w s o u args rest).world.Holds t fs := by
  rw [beginResume]
  cases he : w.enterCoroutine u with
  | error e => exact h
  | ok entered =>
    obtain ⟨-, rfl⟩ := hch.entered_of_ok he
    have hentered : (w.entered u).Holds t fs := h.congr (World.keep_entered Thread.frames t)
    simp only
    cases ((w.entered u).thread u).body with
    | some body => exact (hentered.modifyThread u).invoke B u body args
    | none => exact hentered

theorem beginCall_waits {w : World H} {s : List (Boundary H)} {o : Owner} {callee : Value}
    {args : List Value} {rest : Except TracedError (List Value) → Program H (o.Result H)}
    (h : w.Holds t fs) : (beginCall B w s o callee args rest).world.Holds t fs := by
  rw [beginCall_eq]
  by_cases hh : w.limits.maxHostDepth ≤ w.hostDepth
  · rw [if_pos hh]
    exact h
  · rw [if_neg hh]
    exact World.Holds.invoke (World.Holds.modifyThread
      (w := { w with hostDepth := w.hostDepth + 1 }) h w.current) B _ callee args

theorem serve_waits {w : World H} {s : List (Boundary H)} {o : Owner}
    {p : Program H (o.Result H)} (h : w.Holds t fs) (hne : fs ≠ [])
    (hx : Consistent ⟨w, s, some o⟩) (hs : serve B w s o p = some m') :
    m'.world.Holds t fs ∨ (w.thread t).status = .suspended ∧ ∃ rest, p = .close t rest := by
  have hch : Chained ⟨w, s, some o⟩ := hx.chained
  cases p with
  | done r =>
    left
    cases o with
    | embedding => exact absurd hs (by simp [serve, finish])
    | native name =>
      cases hs
      exact World.Holds.congr (h.modifyThread (driven s)) rfl
    | poll name => exact perform_waits h hne (hch.congr rfl (fun _ => rfl) fun _ => rfl) hs
  | fail e =>
    left
    cases o with
    | embedding => exact absurd hs (by simp [serve, abort])
    | native name =>
      cases hs
      exact World.Holds.congr (h.modifyThread (driven s)) rfl
    | poll name =>
      cases hs
      exact h
  | call callee args rest =>
    cases hs
    exact .inl (beginCall_waits h)
  | resume u args rest =>
    cases hs
    exact .inl (beginResume_waits h hch)
  | create body rest =>
    left
    cases body with
    | function g =>
      cases hs
      exact h.create hne _
    | _ =>
      cases hs
      exact h
  | close u rest =>
    rw [serve, World.closeCoroutine_eq] at hs
    by_cases hc : (w.thread u).status = .suspended ∨ (w.thread u).status = .dead
    · rw [if_pos hc] at hs
      cases hs
      by_cases htu : t = u
      · subst htu
        rcases hc with hsus | hdead
        · exact .inr ⟨hsus, rest, rfl⟩
        · -- A dead thread has no frames.
          have hnil : (w.thread t).frames = [] := ((hx.shaped.shape t).dead hdead).2
          rw [World.Holds, hnil] at h
          exact absurd (List.suffix_nil.mp h) hne
      · left
        exact h.congr (congrArg Thread.frames (World.thread_modifyThread_ne htu _))
    · rw [if_neg hc] at hs
      cases hs
      exact .inl h
  | _ =>
    cases hs
    exact .inl h

/-- **A move** leaves a frame and all frames below it where they are, unless the frame goes on or
its thread is closed. -/
theorem step_waits (hm : Reachable B m) (h : m.world.Holds t (f :: below))
    (hs : m.step B = some m') :
    m'.world.Holds t (f :: below) ∨ (∃ input, GoesOn t f below input m) ∨
      (t, .closed) ∈ m.events := by
  have hx : Consistent ⟨m.world, m.stack, m.control.active⟩ := hm.consistent
  obtain ⟨w, s, control⟩ := m
  cases control with
  | drive input =>
    rcases drive_waits h hx.chained hs with hw | hg
    · exact .inl hw
    · exact .inr (.inl ⟨input, hg⟩)
  | host o p =>
    rcases serve_waits h (List.cons_ne_nil _ _) hx hs with hw | ⟨hsus, rest, rfl⟩
    · exact .inl hw
    · right
      right
      rw [events_close rfl, if_pos hsus]
      exact List.mem_singleton_self _

/-! ### What comes after a state -/

/-- A state comes next: by a move, or because a program of the host is finished and another one
follows. -/
inductive Follows (B : Behaviour H) : Machine H → Machine H → Prop
  | step {m m' : Machine H} (hs : m.step B = some m') : Follows B m m'
  | next {m : Machine H} {r : Except Raised (List Value)} (hd : m.result? = some r)
      (p : Program H (List Value)) : Follows B m (load m.world p)

theorem Reachable.follows (hm : Reachable B m) (hf : Follows B m m') : Reachable B m' := by
  cases hf with
  | step hs => exact hm.step hs
  | next hd p =>
    obtain ⟨h, hr⟩ := hm
    exact ⟨h, hr.next hd p⟩

/-- A thread that is dead stays dead. -/
theorem Follows.dead (hf : Follows B m m') (hm : Reachable B m) (hh : m.world.Has t)
    (hd : (m.world.thread t).status = .dead) :
    m'.world.Has t ∧ (m'.world.thread t).status = .dead := by
  cases hf with
  | next => exact ⟨hh, hd⟩
  | step hs =>
    exact ((step_changes hs).keep
      (P := fun x => Chained x ∧ x.world.Has t ∧ (x.world.thread t).status = .dead)
      (fun hc hx => ⟨hx.1.change hc, hc.has hx.1 hx.2.1, hc.dead hx.1 hx.2.1 hx.2.2⟩)
      ⟨hm.chained, hh, hd⟩).2

/-- The states that come after a state, up to and including the first ones with a property. -/
inductive Upto (B : Behaviour H) (P : Machine H → Prop) (m : Machine H) : Machine H → Prop
  | refl : Upto B P m m
  | tail {x y : Machine H} (h : Upto B P m x) (hn : ¬ P x) (hf : Follows B x y) : Upto B P m y

theorem Upto.reachable {P : Machine H → Prop} {x : Machine H} (hu : Upto B P m x)
    (hm : Reachable B m) : Reachable B x := by
  induction hu with
  | refl => exact hm
  | tail _ _ hf ih => exact ih.follows hf

/-- The thread was closed on the way to a state, and is dead since. -/
structure ClosedOn (B : Behaviour H) (P : Machine H → Prop) (t : ThreadId) (m x : Machine H) :
    Prop where
  closed : ∃ y, Upto B P m y ∧ (t, .closed) ∈ y.events
  has : x.world.Has t
  dead : (x.world.thread t).status = .dead

/-- **A frame waits** with all frames below it until it goes on, unless its thread is closed. -/
theorem Upto.waits {x : Machine H} (hm : Reachable B m) (h : m.world.Holds t (f :: below))
    (hu : Upto B (fun x => ∃ input, GoesOn t f below input x) m x) :
    x.world.Holds t (f :: below) ∨
      ClosedOn B (fun x => ∃ input, GoesOn t f below input x) t m x := by
  induction hu with
  | refl => exact .inl h
  | @tail x y hu hn hf ih =>
    have hx : Reachable B x := hu.reachable hm
    rcases ih with hw | hc
    · cases hf with
      | next => exact .inl hw
      | step hs =>
        rcases step_waits hx hw hs with hw' | hg | he
        · exact .inl hw'
        · exact absurd hg hn
        · right
          obtain ⟨hsus, o, rest, hc⟩ := closed_of_mem_events he
          have hh : x.world.Has t := World.has_of_suspended hsus
          -- The close takes effect, for the thread is suspended.
          rw [step_close hc, if_pos (.inl hsus)] at hs
          cases hs
          refine ⟨⟨x, hu, he⟩, World.has_modifyThread.mpr hh, ?_⟩
          show ((x.world.modifyThread t _).thread t).status = _
          rw [World.thread_modifyThread hh, if_pos rfl]
    · obtain ⟨hh, hd⟩ := hf.dead hx hc.has hc.dead
      exact .inr ⟨hc.closed, hh, hd⟩

end Machine

end Lua
