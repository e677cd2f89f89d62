/-
The depth counters add up, and stay within the limits.

The levels of the host stack in use are the native calls and the host calls in progress on all
threads and the coroutines that run, counted together.  No counter gets past its limit, and none
is counted down from zero:

* `World.total` — a number read off every thread, added up;
* `Machine.levels_eq` — the levels of the host stack by what takes them;
* `RoomToReturn` — a frame that is polled can go back on its stack when the poll is over;
* `Roomy` — call depths stay within the limit, with room for the frames that are polled;
* `Machine.Reachable.depths` — how the counters and the limits stand at every point of a run.

Design notes: a frame is off the stack while it is polled, so what the poll calls sees a shorter
stack, and the frame goes back without a check.  The room for it was there when the poll began,
and it is there again whenever the poll has the word, since calls leave nothing behind.
-/
import Lua.Proofs.HandBack
import Mathlib.Algebra.BigOperators.Group.Finset.Piecewise
import Mathlib.Algebra.GroupWithZero.Nat

namespace Lua

variable {H : Host}

/-- A number read off every thread of the instance, added up. -/
def World.total (w : World H) (count : Thread H → Nat) : Nat :=
  (w.threads.toList.map count).sum

open Machine

/-! ### The levels of the host stack -/

theorem World.total_eq (w : World H) (count : Thread H → Nat) :
    w.total count = ∑ i ∈ Finset.range w.threads.size, count (w.thread ⟨i⟩) := by
  have hlist : w.threads.toList.map count
      = (List.range w.threads.size).map fun i => count (w.thread ⟨i⟩) := by
    refine List.ext_getElem (by simp) fun i hi hi' => ?_
    have hsize : i < w.threads.size := by simpa using hi
    simp [World.thread, hsize]
  rw [World.total, hlist]
  rfl

/-- One thread counts something more. -/
theorem sum_add_ite {n : Nat} {t : ThreadId} (ht : t.index < n) (f : ThreadId → Nat) (k : Nat) :
    ∑ i ∈ Finset.range n, (f ⟨i⟩ + if (⟨i⟩ : ThreadId) = t then k else 0)
      = ∑ i ∈ Finset.range n, f ⟨i⟩ + k := by
  have hone : ∀ i : Nat, (if (⟨i⟩ : ThreadId) = t then k else 0) = if t.index = i then k else 0 :=
    fun i => by
      obtain ⟨j⟩ := t
      simp only [ThreadId.mk.injEq, eq_comm]
  simp only [hone]
  rw [Finset.sum_add_distrib, Finset.sum_ite_eq, if_pos (Finset.mem_range.mpr ht)]

namespace Machine

theorem thread_mem_chain {s : List (Boundary H)} (hl : Linked s) :
    ∀ b ∈ s, b.thread ∈ chain s := by
  induction s with
  | nil => exact fun b hb => absurd hb List.not_mem_nil
  | cons c s ih =>
    intro b hb
    rcases List.mem_cons.mp hb with rfl | hs
    · exact driven_mem_chain hl
    · cases c with
      | call t base o rest => exact ih hl.2 b hs
      | resume t c o rest => exact List.mem_cons_of_mem t (ih hl.2.2 b hs)

/-- The levels of the host stack are those of native calls, of host calls and of resumes. -/
theorem levels_eq {n : Nat} (hn : 0 < n) (s : List (Boundary H)) (a : Option Owner)
    (hs : ∀ b ∈ s, b.thread.index < n) :
    levels s a = ∑ i ∈ Finset.range n, openNatives s a ⟨i⟩
      + ∑ i ∈ Finset.range n, openCalls s ⟨i⟩ + (resumed s).length := by
  induction s generalizing a with
  | nil =>
    -- below all boundaries the main thread is driven
    have hnat := sum_add_ite (t := .main) hn (fun _ => 0) (nativeHere a)
    simp only [Nat.zero_add, Finset.sum_const_zero] at hnat
    simp only [levels, openNatives, openCalls, resumed, hnat, Finset.sum_const_zero,
      List.length_nil, Nat.add_zero]
  | cons b s ih =>
    have hb := hs b List.mem_cons_self
    have hbelow := ih (some b.owner) fun b' hb' => hs b' (List.mem_cons_of_mem b hb')
    have hnat : ∑ i ∈ Finset.range n, openNatives (b :: s) a ⟨i⟩ = _ :=
      sum_add_ite hb (openNatives s (some b.owner)) (nativeHere a)
    rw [hnat, levels, hbelow]
    cases b with
    | call t base o rest =>
      have hcall : ∑ i ∈ Finset.range n, openCalls (.call t base o rest :: s) ⟨i⟩ = _ :=
        sum_add_ite hb (openCalls s) 1
      rw [hcall, resumed]
      omega
    | resume t c o rest =>
      rw [resumed, List.length_cons]
      simp only [openCalls]
      omega

end Machine

/-! ### Room for the frames that are polled -/

namespace Machine

/-- How many frames the thread of the owner has when the boundary falls. -/
def framesBelow (w : World H) : Boundary H → Nat
  | .call _ base _ _ => base
  | .resume _ c _ _ => (w.thread c).frames.length

/-- The caller of a resume waits, so it is not the thread that is driven. -/
theorem caller_waits {s s' : List (Boundary H)} (hl : Linked s) {t c : ThreadId} {o : Owner}
    {rest : Except ResumeError (List Value) → Program H (o.Result H)}
    (h : .resume t c o rest :: s' <:+ s) : c ∈ chain s ∧ c ≠ driven s := by
  induction s with
  | nil => exact absurd (List.suffix_nil.mp h) (List.cons_ne_nil _ _)
  | cons b s ih =>
    rcases List.suffix_cons_iff.mp h with he | hs
    · obtain ⟨rfl, rfl⟩ := List.cons.inj he
      have hc : c ∈ chain s' := by
        rw [hl.1]
        exact driven_mem_chain hl.2.2
      exact ⟨List.mem_cons_of_mem t hc, ne_of_mem_of_not_mem hc hl.2.1⟩
    · cases b with
      | call u base o' rest' =>
        have hu : driven (.call u base o' rest' :: s) = driven s := hl.1
        rw [hu]
        exact ih hl.2 hs
      | resume u c' o' rest' =>
        have hc := (ih hl.2.2 hs).1
        exact ⟨List.mem_cons_of_mem u hc, ne_of_mem_of_not_mem hc hl.2.1⟩

/-- Where the poll of a frame waits behind a boundary, the frame still fits on its stack. -/
def RoomToReturn (w : World H) (s : List (Boundary H)) : Prop :=
  ∀ b s', b :: s' <:+ s → ∀ name, b.owner = .poll name →
    framesBelow w b + openNatives s' none (driven s') < w.limits.maxCallDepth

namespace RoomToReturn

variable {w w' : World H} {s : List (Boundary H)} {b : Boundary H}

/-- Only the frames of the threads that wait matter. -/
theorem congr (h : RoomToReturn w s) (hl : Linked s) (hw : w'.limits = w.limits)
    (hf : ∀ u ∈ chain s, u ≠ driven s → (w'.thread u).frames = (w.thread u).frames) :
    RoomToReturn w' s := by
  intro b s' hb name ho
  have hsame : framesBelow w' b = framesBelow w b := by
    cases b with
    | call t base o rest => rfl
    | resume t c o rest =>
      obtain ⟨hc, hne⟩ := caller_waits hl hb
      exact congrArg List.length (hf c hc hne)
  rw [hsame, hw]
  exact h b s' hb name ho

theorem tail (h : RoomToReturn w (b :: s)) : RoomToReturn w s :=
  fun b' s' hb => h b' s' (hb.trans (List.suffix_cons b s))

theorem cons (h : RoomToReturn w s)
    (hb : ∀ name, b.owner = .poll name →
      framesBelow w b + openNatives s none (driven s) < w.limits.maxCallDepth) :
    RoomToReturn w (b :: s) := by
  intro b' s' hs
  rcases List.suffix_cons_iff.mp hs with he | hs
  · obtain ⟨rfl, rfl⟩ := List.cons.inj he
    exact hb
  · exact h b' s' hs

end RoomToReturn

end Machine

/-- The call depths are within the limit, and there is room for the frames that are polled. -/
structure Roomy (x : Situation H) : Prop where
  depth : ∀ t, (x.world.thread t).callDepth ≤ x.world.limits.maxCallDepth
  polled : ∀ name, x.active = some (.poll name) →
    (x.world.thread (driven x.stack)).callDepth < x.world.limits.maxCallDepth
  waiting : RoomToReturn x.world x.stack

namespace Roomy

variable {w w' : World H} {s : List (Boundary H)} {a a' : Option Owner} {b : Boundary H}

theorem fresh (hw : w.IsFresh) : Roomy ⟨w, [], some .embedding⟩ := by
  refine ⟨fun t => ?_, fun name ha => absurd ha (by simp), fun b s' hb => ?_⟩
  · show (w.thread t).callDepth ≤ _
    by_cases ht : t = .main
    · rw [ht, hw.thread_main]
      exact Nat.zero_le _
    · rw [hw.thread_ne ht]
      exact Nat.zero_le _
  · exact absurd (List.suffix_nil.mp hb) (List.cons_ne_nil _ _)

/-- One thread changes, and its call depth stays within the limit. -/
theorem depth_modifyThread (h : Roomy ⟨w, s, a⟩) (t : ThreadId) {f : Thread H → Thread H}
    (hf : (f (w.thread t)).callDepth ≤ w.limits.maxCallDepth) (u : ThreadId) :
    ((w.modifyThread t f).thread u).callDepth ≤ w.limits.maxCallDepth := by
  by_cases ht : w.Has t
  · rw [World.thread_modifyThread ht]
    by_cases hu : u = t
    · rw [if_pos hu]
      exact hf
    · rw [if_neg hu]
      exact h.depth u
  · rw [World.modifyThread_of_not_has ht]
    exact h.depth u

/-- The frame that is polled fits on top of the frames and native calls below it. -/
theorem room (h : Roomy ⟨w, s, a⟩) (hn : Counted ⟨w, s, a⟩) {name : String}
    (ha : a = some (.poll name)) :
    (w.thread (driven s)).frames.length + openNatives s none (driven s)
      < w.limits.maxCallDepth := by
  have hdepth : (w.thread (driven s)).callDepth < w.limits.maxCallDepth := h.polled name ha
  have hnative : (w.thread (driven s)).nativeDepth = openNatives s a (driven s) :=
    hn.nativeDepth _
  rw [openNatives_eq_add, ha, if_pos rfl] at hnative
  rw [Thread.callDepth, hnative] at hdepth
  exact hdepth

/-- A frame that has the word again has the room it had before. -/
theorem polled_of_room (hn : Counted ⟨w', s, some b.owner⟩) {k : Nat}
    (hroom : ∀ name, b.owner = .poll name → framesBelow w b + openNatives s none (driven s) < k)
    (hf : (w'.thread (driven s)).frames.length ≤ framesBelow w b) (name : String)
    (ho : some b.owner = some (.poll name)) : (w'.thread (driven s)).callDepth < k := by
  have hnative : (w'.thread (driven s)).nativeDepth = openNatives s (some b.owner) (driven s) :=
    hn.nativeDepth _
  rw [openNatives_eq_add, ho] at hnative
  have hb := hroom name (Option.some.inj ho)
  rw [Thread.callDepth, hnative]
  simp only [nativeHere, ite_self]
  omega

/-- A boundary goes up over the frames of the thread in control. -/
theorem raise (h : Roomy ⟨w, s, some b.owner⟩) (hn : Counted ⟨w, s, some b.owner⟩)
    (hb : framesBelow w b = (w.thread (driven s)).frames.length) :
    RoomToReturn w (b :: s) :=
  h.waiting.cons fun name ho => by
    rw [hb]
    exact h.room hn (congrArg some ho)

/-- The frames of the driven thread change within the limit. -/
theorem changeFrames (h : Roomy ⟨w, s, a⟩) (hch : Chained ⟨w, s, a⟩)
    {f : Thread H → Thread H}
    (hf : (f (w.thread (driven s))).callDepth ≤ w.limits.maxCallDepth)
    (ha : ∀ name, a' = some (.poll name) →
      (f (w.thread (driven s))).callDepth < w.limits.maxCallDepth) :
    Roomy ⟨w.modifyThread (driven s) f, s, a'⟩ := by
  refine ⟨h.depth_modifyThread _ hf, fun name hname => ?_, ?_⟩
  · show ((w.modifyThread (driven s) f).thread (driven s)).callDepth < _
    rw [World.thread_modifyThread hch.has_driven, if_pos rfl]
    exact ha name hname
  · exact h.waiting.congr hch.linked rfl fun u _ hu =>
      congrArg Thread.frames (World.thread_modifyThread_ne hu f)

/-- A frame goes onto the stack of the driven thread, which has room for it. -/
theorem pushFrame (h : Roomy ⟨w, s, a⟩) (hch : Chained ⟨w, s, a⟩) (f : Frame H)
    (hd : (w.thread (driven s)).callDepth < w.limits.maxCallDepth) :
    Roomy ⟨w.pushFrame (driven s) f, s, none⟩ := by
  refine h.changeFrames hch ?_ fun _ ha => absurd ha (by simp)
  refine le_trans (Nat.le_of_eq ?_) (Nat.succ_le_of_lt hd)
  exact Nat.add_right_comm _ 1 _

/-- A thread outside the chain is closed. -/
theorem close (h : Roomy ⟨w, s, a⟩) (hch : Chained ⟨w, s, a⟩) {t : ThreadId}
    (ht : (w.thread t).status = .suspended ∨ (w.thread t).status = .dead) :
    Roomy ⟨w.closed t, s, a⟩ := by
  have hout : t ∉ chain s := fun hm =>
    ht.elim (hch.status_ne_dead hm).2 (hch.status_ne_dead hm).1
  have hin : ∀ u ∈ chain s, (w.closed t).thread u = w.thread u := fun u hu =>
    World.thread_modifyThread_ne (ne_of_mem_of_not_mem hu hout) _
  refine ⟨h.depth_modifyThread t ?_, fun name ha => ?_, ?_⟩
  · exact le_trans (Nat.add_le_add_right (Nat.zero_le _) _) (h.depth t)
  · show ((w.closed t).thread (driven s)).callDepth < _
    rw [hin _ (driven_mem_chain hch.linked)]
    exact h.polled name ha
  · exact h.waiting.congr hch.linked rfl fun u hu _ => congrArg Thread.frames (hin u hu)

section Leave

variable {t c : ThreadId} {o : Owner}
  {rest : Except ResumeError (List Value) → Program H (o.Result H)}

/-- A coroutine comes to the end of its run. -/
theorem leave (h : Roomy ⟨w, .resume t c o rest :: s, a⟩)
    (hch : Chained ⟨w, .resume t c o rest :: s, a⟩) {oc : Outcome}
    (hn : Counted ⟨w.left t c oc, s, some o⟩) : Roomy ⟨w.left t c oc, s, some o⟩ := by
  have hlook := World.thread_left hch.ends.1 hch.ends.2 oc
  have hc : c = driven s := hch.linked.1
  have hout : t ∉ chain s := hch.linked.2.1
  have hframes : ∀ u ∈ chain s, ((w.left t c oc).thread u).frames = (w.thread u).frames := by
    intro u hu
    rw [World.thread_left_frames hch.ends.1 hch.ends.2, if_neg (ne_of_mem_of_not_mem hu hout)]
  refine ⟨fun u => ?_, ?_, h.waiting.tail.congr hch.linked.2.2 rfl fun u hu _ => hframes u hu⟩
  · show ((w.left t c oc).thread u).callDepth ≤ w.limits.maxCallDepth
    rw [hlook]
    by_cases hut : u = t
    · rw [if_pos hut]
      refine le_trans (Nat.add_le_add_right ?_ _) (h.depth t)
      cases oc with
      | yielded vs => exact Nat.le_refl _
      | returned vs => exact Nat.zero_le _
      | failed e => exact Nat.zero_le _
    · rw [if_neg hut]
      by_cases huc : u = c
      · rw [if_pos huc]
        exact h.depth c
      · rw [if_neg huc]
        exact h.depth u
  · refine polled_of_room (b := .resume t c o rest) hn (h.waiting _ s List.suffix_rfl) ?_
    rw [hframes _ (driven_mem_chain hch.linked.2.2), ← hc]
    exact Nat.le_refl _

end Leave

/-- Elementary changes keep the room. -/
theorem change {x y : Situation H} {es : List (ThreadId × LifeEvent)} (hc : Change x es y)
    (hx : Consistent x) (h : Roomy x) : Roomy y := by
  have hy : Counted y := hx.counted.change hc hx.chained
  cases hc with
  | memory m => exact ⟨h.depth, h.polled, h.waiting⟩
  | define c => exact ⟨h.depth, h.polled, h.waiting⟩
  | leavePoll name => exact ⟨h.depth, fun _ ha => absurd ha (by simp), h.waiting⟩
  | @create w s o f =>
    have hnew : w.thread ⟨w.threads.size⟩ = .absent :=
      World.thread_of_not_has (Nat.lt_irrefl _)
    -- A new thread looks like an absent one, as far as depths go.
    have hsame : ∀ {α : Type} (view : Thread H → α), view (.fresh .suspended (some (.function f)))
        = view .absent → ∀ t, view (World.thread { w with
          threads := w.threads.push (.fresh .suspended (some (.function f))) } t)
            = view (w.thread t) := by
      intro α view hview t
      rw [World.thread_push]
      by_cases ht : t = ⟨w.threads.size⟩
      · rw [if_pos ht, ht, hnew, hview]
      · rw [if_neg ht]
    refine ⟨fun t => ?_, fun name ha => ?_, ?_⟩
    · exact (hsame Thread.callDepth rfl t).trans_le (h.depth t)
    · exact (hsame Thread.callDepth rfl _).trans_lt (h.polled name ha)
    · exact h.waiting.congr hx.chained.linked rfl fun u _ _ => hsame Thread.frames rfl u
  | close t ht => exact h.close hx.chained (.inl ht)
  | closeDead t ht => exact h.close hx.chained (.inr ht)
  | @call w s o hh rest =>
    have hframes : ∀ u, (World.thread ({ w with hostDepth := w.hostDepth + 1 } :
        World H) u).frames = (w.thread u).frames := fun _ => rfl
    have hup := h.raise (b := .call w.current (w.thread w.current).frames.length o rest)
      hx.counted (by rw [← hx.chained.current]; rfl)
    refine ⟨fun t => ?_, fun _ ha => absurd ha (by simp), ?_⟩
    · exact (World.keep_modifyThread (w := { w with hostDepth := w.hostDepth + 1 })
        Thread.callDepth t).trans_le (h.depth t)
    · exact hup.congr ⟨hx.chained.current, hx.chained.linked⟩ rfl fun u _ _ =>
        World.keep_modifyThread (w := { w with hostDepth := w.hostDepth + 1 }) Thread.frames u
  | @resume w s o t entered he rest =>
    obtain ⟨ht, rfl⟩ := hx.chained.entered_of_ok he
    have hkeep : ∀ {α : Type} (view : Thread H → α),
        (∀ s st, view { s with status := st } = view s) →
        (∀ s st r, view { s with status := st, resumer := r } = view s) →
        (∀ s, view { s with body := none } = view s) →
        ∀ u, view (((w.entered t).dropBody t).thread u) = view (w.thread u) :=
      fun view hs hr hb u => (World.keep_modifyThread view u hb).trans
        (World.keep_entered view u hs hr)
    have hup := h.raise (b := .resume t w.current o rest) hx.counted
      (by rw [← hx.chained.current]; rfl)
    refine ⟨fun u => ?_, fun _ ha => absurd ha (by simp), ?_⟩
    · exact (hkeep Thread.callDepth (fun _ _ => rfl) (fun _ _ _ => rfl) (fun _ => rfl)
        u).trans_le (h.depth u)
    · have hin : Chained ⟨w.entered t, .resume t w.current o rest :: s, none⟩ :=
        hx.chained.enter ht
      exact hup.congr hin.linked rfl fun u _ _ =>
        hkeep Thread.frames (fun _ _ => rfl) (fun _ _ _ => rfl) (fun _ => rfl) u
  | @native w s name hd hh =>
    have hup : Roomy ⟨w.enterNative (driven s), s, some (.native name)⟩ :=
      h.changeFrames hx.chained (f := fun x => { x with nativeDepth := x.nativeDepth + 1 })
        (Nat.succ_le_of_lt hd) fun _ ha => absurd ha (by simp)
    exact ⟨hup.depth, hup.polled, hup.waiting⟩
  | sequence f hd => exact h.pushFrame hx.chained f hd
  | @leaveNative w s name =>
    have hdown : Roomy ⟨w.exitNative (driven s), s, none⟩ :=
      h.changeFrames hx.chained (f := fun x => { x with nativeDepth := x.nativeDepth - 1 })
        (le_trans (Nat.add_le_add_left (Nat.sub_le _ _) _) (h.depth (driven s)))
        fun _ ha => absurd ha (by simp)
    exact ⟨hdown.depth, hdown.polled, hdown.waiting⟩
  | @poll w s b f below hf hb =>
    -- The frame is off the stack now, and that is the room it needs to get back.
    have hdepth := h.depth b.thread
    rw [Thread.callDepth, show (w.thread b.thread).frames = f :: below from hf,
      List.length_cons, Nat.add_right_comm] at hdepth
    have hless : below.length + (w.thread b.thread).nativeDepth < w.limits.maxCallDepth := hdepth
    exact h.changeFrames hx.chained (f := fun x => { x with frames := below }) hless.le
      fun _ _ => hless
  | wait name next => exact h.pushFrame hx.chained _ (h.polled name rfl)
  | @endCall w s t base o rest hf =>
    obtain ⟨ht, hl⟩ := hx.chained.linked
    have hframes : ∀ u, ((w.leaveCall t).thread u).frames = (w.thread u).frames :=
      fun u => World.keep_modifyThread Thread.frames u
    refine ⟨fun u => ?_, polled_of_room hy (h.waiting _ s List.suffix_rfl) ?_, ?_⟩
    · exact (World.keep_modifyThread Thread.callDepth u).trans_le (h.depth u)
    · rw [hframes, ← ht]
      exact hf
    · exact h.waiting.tail.congr hl rfl fun u _ _ => hframes u
  | @endResume w s t c o rest input hf =>
    rw [World.leaveCoroutine_eq hx.chained.ends.1 hx.chained.ends.2] at hy ⊢
    exact h.leave hx.chained hy
  | @yield w s t c o rest name vs next hyield =>
    have hpush := hx.chained.pushFrame t ⟨name, next⟩
    rw [World.leaveCoroutine_eq hpush.ends.1 hpush.ends.2] at hy ⊢
    have hback := h.pushFrame hx.chained ⟨name, next⟩ (h.polled name rfl)
    exact hback.leave hpush hy
  | @escape w s t base o rest name next hyield => exact absurd hyield hx.counted.not_escape

end Roomy

/-! ### The other limits -/

/-- The host stack and the chain of resumes are within their limits. -/
structure Bounded (x : Situation H) : Prop where
  host : x.world.hostDepth ≤ x.world.limits.maxHostDepth
  resumes : x.world.running.length ≤ x.world.limits.maxResumeDepth

/-- A resume was accepted below both limits. -/
theorem World.depths_of_entered {w entered : World H} {t : ThreadId}
    (hc : (w.thread w.current).status = .running) (he : w.enterCoroutine t = .ok entered) :
    w.running.length < w.limits.maxResumeDepth ∧ w.hostDepth < w.limits.maxHostDepth := by
  rw [World.enterCoroutine_eq hc] at he
  by_cases hs : (w.thread t).status ≠ .suspended
  · rw [if_pos hs] at he
    exact absurd he (by simp)
  · rw [if_neg hs] at he
    by_cases hr : w.limits.maxResumeDepth ≤ w.running.length
    · rw [if_pos hr] at he
      exact absurd he (by simp)
    · rw [if_neg hr] at he
      by_cases hh : w.limits.maxHostDepth ≤ w.hostDepth
      · rw [if_pos hh] at he
        exact absurd he (by simp)
      · exact ⟨Nat.lt_of_not_le hr, Nat.lt_of_not_le hh⟩

namespace Bounded

theorem fresh {w : World H} (hw : w.IsFresh) {a : Option Owner} : Bounded ⟨w, [], a⟩ where
  host := by
    show w.hostDepth ≤ _
    rw [hw.hostDepth]
    exact Nat.zero_le _
  resumes := by
    show w.running.length ≤ _
    rw [hw.running]
    exact Nat.zero_le _

theorem left {w : World H} {s s' : List (Boundary H)} {a a' : Option Owner}
    (h : Bounded ⟨w, s, a⟩) (t c : ThreadId) (oc : Outcome) :
    Bounded ⟨w.left t c oc, s', a'⟩ where
  host := le_trans (Nat.sub_le _ _) h.host
  resumes := by
    refine le_trans ?_ h.resumes
    show w.running.tail.length ≤ w.running.length
    rw [List.length_tail]
    exact Nat.sub_le _ _

/-- Elementary changes stay within the limits. -/
theorem change {x y : Situation H} {es : List (ThreadId × LifeEvent)} (hc : Change x es y)
    (hx : Chained x) (h : Bounded x) : Bounded y := by
  cases hc with
  | memory | define | create | close | closeDead | sequence | poll | wait | leavePoll =>
    exact ⟨h.host, h.resumes⟩
  | call hh rest => exact ⟨Nat.succ_le_of_lt hh, h.resumes⟩
  | native name hd hh => exact ⟨Nat.succ_le_of_lt hh, h.resumes⟩
  | leaveNative | endCall | escape => exact ⟨le_trans (Nat.sub_le _ _) h.host, h.resumes⟩
  | @resume w s o t entered he rest =>
    have hc : (w.thread w.current).status = .running := by
      rw [hx.current]
      exact hx.top
    obtain ⟨hr, hh⟩ := World.depths_of_entered hc he
    obtain ⟨-, rfl⟩ := hx.entered_of_ok he
    exact ⟨Nat.succ_le_of_lt hh, Nat.succ_le_of_lt hr⟩
  | endResume input hf =>
    rw [World.leaveCoroutine_eq hx.ends.1 hx.ends.2]
    exact h.left _ _ _
  | @yield w s t c o rest name vs next hy =>
    have hpush := hx.pushFrame t ⟨name, next⟩
    rw [World.leaveCoroutine_eq hpush.ends.1 hpush.ends.2]
    have hsame : Bounded ⟨w.pushFrame t ⟨name, next⟩, .resume t c o rest :: s, none⟩ :=
      ⟨h.host, h.resumes⟩
    exact hsame.left _ _ _

end Bounded

/-- Elementary changes leave the configuration as it is. -/
theorem Change.limits {x y : Situation H} {es : List (ThreadId × LifeEvent)} (hc : Change x es y)
    (hx : Chained x) : y.world.limits = x.world.limits := by
  cases hc with
  | resume t he rest =>
    obtain ⟨-, rfl⟩ := hx.entered_of_ok he
    rfl
  | endResume input hf =>
    rw [World.leaveCoroutine_eq hx.ends.1 hx.ends.2]
    rfl
  | @yield w s t c o rest name vs next hy =>
    have hpush := hx.pushFrame t ⟨name, next⟩
    rw [World.leaveCoroutine_eq hpush.ends.1 hpush.ends.2]
    rfl
  | _ => rfl

namespace Machine

variable {B : Behaviour H} {m m' : Machine H}

theorem Reachable.roomy (hm : Reachable B m) : Roomy m.situation := by
  obtain ⟨h, hr⟩ := hm
  exact (hr.keep (P := fun x => Consistent x ∧ Roomy x)
    (fun hw => ⟨⟨.fresh hw, .fresh hw, .fresh hw⟩, .fresh hw⟩)
    (fun hc hx => ⟨hx.1.change hc, .change hc hx.1 hx.2⟩)).2

theorem Reachable.bounded (hm : Reachable B m) : Bounded m.situation := by
  obtain ⟨h, hr⟩ := hm
  exact (hr.keep (P := fun x => Chained x ∧ Bounded x)
    (fun hw => ⟨.fresh hw, .fresh hw⟩)
    (fun hc hx => ⟨hx.1.change hc, .change hc hx.1 hx.2⟩)).2

/-! ### Main result -/

/-- How the counters and the limits stand in a state. -/
structure Depths (B : Behaviour H) (m : Machine H) : Prop where
  /-- The host depth adds up. -/
  hostDepth : m.world.hostDepth = m.world.total Thread.nativeDepth
    + m.world.total Thread.nonYieldable + m.world.running.length
  hostLimit : m.world.hostDepth ≤ m.world.limits.maxHostDepth
  resumeLimit : m.world.running.length ≤ m.world.limits.maxResumeDepth
  callLimit : ∀ t, m.world.Has t →
    (m.world.thread t).frames.length + (m.world.thread t).nativeDepth
      ≤ m.world.limits.maxCallDepth
  /-- The limits are those the instance was configured with. -/
  fixed : ∀ {m'}, m.step B = some m' → m'.world.limits = m.world.limits
  /-- The embedding program finds the host stack empty, also when it is finished. -/
  embedding : m.control.active = some .embedding → m.world.hostDepth = 0
  /-- The end of a native function counts its thread and the host stack down by one. -/
  leaveNative : ∀ {name p m'}, m.control = .host (.native name) p →
    ((∃ vs, p = .done vs) ∨ ∃ e, p = .fail e) → m.step B = some m' →
    m.world.hostDepth = m'.world.hostDepth + 1 ∧
      ∀ t, (m.world.thread t).nativeDepth
        = (m'.world.thread t).nativeDepth + if t = driven m.stack then 1 else 0
  /-- The fall of a boundary counts the host stack down by one, and the thread of a host call or
  the chain of resumes. -/
  fall : ∀ {b m'}, m.stack = b :: m'.stack → m.step B = some m' →
    m.world.hostDepth = m'.world.hostDepth + 1 ∧
      match b with
      | .call t _ _ _ => m'.world.running = m.world.running ∧
        ∀ u, (m.world.thread u).nonYieldable
          = (m'.world.thread u).nonYieldable + if u = t then 1 else 0
      | .resume t _ _ _ => m.world.running = t :: m'.world.running

/-- No native function is active where a boundary falls. -/
theorem Falls.nativeHere {b : Boundary H} {w : World H} {oc : Outcome} (h : Falls m b w oc) :
    nativeHere m.control.active = 0 := by
  cases h with
  | left input hc hf =>
    rw [hc]
    rfl
  | yielded name vs next hc hy =>
    rw [hc]
    rfl

/-- The state before and after the fall of a boundary. -/
theorem falls_of_stack {b : Boundary H} (hb : m.stack = b :: m'.stack)
    (hs : m.step B = some m') :
    nativeHere m.control.active = 0 ∧ m'.control.active = some b.owner := by
  rcases step_stack hs with hk | ⟨b', hk⟩ | ⟨b', s, w, oc, hms, hf, hfall⟩
  · exact absurd (hk.trans hb).symm (List.cons_ne_self _ _)
  · have hlen := congrArg List.length (hk.trans (congrArg (b' :: ·) hb))
    simp only [List.length_cons] at hlen
    omega
  · obtain ⟨rfl, rfl⟩ := List.cons.inj (hms.symm.trans hb)
    exact ⟨hf.nativeHere, (fall_situation hfall).2⟩

/-- The levels of the host stack, thread by thread. -/
theorem Reachable.hostDepth_eq (hm : Reachable B m) :
    m.world.hostDepth = m.world.total Thread.nativeDepth
      + m.world.total Thread.nonYieldable + m.world.running.length := by
  have hx : Chained ⟨m.world, m.stack, m.control.active⟩ := hm.chained
  have hn : Counted ⟨m.world, m.stack, m.control.active⟩ := hm.counted
  have hmain : m.world.Has .main := hx.has (List.mem_append_right _ (List.mem_singleton_self _))
  have hthreads : ∀ b ∈ m.stack, b.thread.index < m.world.threads.size :=
    fun b hb => hx.has (thread_mem_chain hx.linked b hb)
  calc m.world.hostDepth
      = levels m.stack m.control.active := hn.hostDepth
    _ = _ := levels_eq hmain _ _ hthreads
    _ = _ := by
      rw [World.total_eq, World.total_eq, show m.world.running = resumed m.stack from hx.running]
      congr 2
      · exact Finset.sum_congr rfl fun i _ => (hn.nativeDepth ⟨i⟩).symm
      · exact Finset.sum_congr rfl fun i _ => (hn.nonYieldable ⟨i⟩).symm

/-- **The counters add up and stay within the limits** at every point of every run, whatever the
configuration. -/
theorem Reachable.depths (hm : Reachable B m) : Depths B m where
  hostDepth := hm.hostDepth_eq
  hostLimit := hm.bounded.host
  resumeLimit := hm.bounded.resumes
  callLimit t _ := hm.roomy.depth t
  fixed hs := by
    have hkeep := (step_changes hs).keep
      (P := fun y => Chained y ∧ y.world.limits = m.world.limits)
      (fun hc hx => ⟨hx.1.change hc, (hc.limits hx.1).trans hx.2⟩) ⟨hm.chained, rfl⟩
    exact hkeep.2
  embedding ha := by
    obtain ⟨h, hr⟩ := hm
    have hg : Grounded m.stack m.control.active := hr.grounded
    have hn : m.world.hostDepth = levels m.stack m.control.active :=
      (Reachable.counted ⟨h, hr⟩).hostDepth
    rw [hn]
    rw [ha] at hg ⊢
    cases hs : m.stack with
    | nil => rfl
    | cons b s =>
      rw [hs] at hg
      exact absurd rfl hg.1
  leaveNative := by
    intro name p m' hc hp hs
    have hn := hm.counted
    have hn' := (hm.step hs).counted
    have hend : m'.stack = m.stack ∧ m'.control.active = none := by
      obtain ⟨w, s, control⟩ := m
      obtain rfl : control = _ := hc
      rcases hp with ⟨vs, rfl⟩ | ⟨e, rfl⟩ <;> cases hs <;> exact ⟨rfl, rfl⟩
    have hbefore : m.situation = ⟨m.world, m.stack, some (.native name)⟩ := by
      rw [situation, hc]
      rfl
    have hafter : m'.situation = ⟨m'.world, m.stack, none⟩ := by
      rw [situation, hend.1, hend.2]
    rw [hbefore] at hn
    rw [hafter] at hn'
    refine ⟨?_, fun t => ?_⟩
    · have h₁ : m.world.hostDepth = levels m.stack (some (.native name)) := hn.hostDepth
      rw [h₁, levels_eq_add, show m'.world.hostDepth = levels m.stack none from hn'.hostDepth]
      rfl
    · have h₁ : (m.world.thread t).nativeDepth = openNatives m.stack (some (.native name)) t :=
        hn.nativeDepth t
      rw [h₁, openNatives_eq_add,
        show (m'.world.thread t).nativeDepth = openNatives m.stack none t from hn'.nativeDepth t]
      rfl
  fall := by
    intro b m' hb hs
    obtain ⟨ha, ha'⟩ := falls_of_stack hb hs
    have hn := hm.counted
    have hn' := (hm.step hs).counted
    have hx := hm.chained
    have hx' := (hm.step hs).chained
    rw [situation, hb] at hn hx
    rw [situation, ha'] at hn' hx'
    refine ⟨?_, ?_⟩
    · have h₁ : m.world.hostDepth = levels (b :: m'.stack) m.control.active := hn.hostDepth
      have h₂ : m'.world.hostDepth = levels m'.stack (some b.owner) := hn'.hostDepth
      rw [h₁, h₂, levels_eq_add, ha, levels_cons]
    · have hrun : m.world.running = resumed (b :: m'.stack) := hx.running
      have hrun' : m'.world.running = resumed m'.stack := hx'.running
      cases b with
      | call t base o rest =>
        refine ⟨hrun'.trans hrun.symm, fun u => ?_⟩
        have h₁ : (m.world.thread u).nonYieldable
            = openCalls m'.stack u + if u = t then 1 else 0 := hn.nonYieldable u
        rw [h₁, show (m'.world.thread u).nonYieldable = openCalls m'.stack u from
          hn'.nonYieldable u]
      | resume t c o rest =>
        rw [hrun, hrun']
        rfl

/-- In a chain of three threads, where a native function resumes the innermost one. -/
theorem depths_nestedResumes : ∃ m : Machine .bare, Reachable .bare m ∧
    m.world.hostDepth = 3 ∧ m.world.running.length = 2 ∧
    m.world.total Thread.nativeDepth = 1 ∧ Depths .bare m :=
  ⟨(load .bare nestedResumes).run .bare 5, reachable_bare _ 5, rfl, rfl, rfl,
    Reachable.depths (reachable_bare _ 5)⟩

end Machine

end Lua
