/-
The frames below a boundary.

A boundary leaves the frames alone that were on its thread when it went up, its base.  They are
still there when it falls:

* `Based` — no thread has fewer frames than the boundaries that drive it leave alone;
* `Machine.Reachable.based` — so it is at every point of every run;
* `Machine.drive_cases` — driving lets the topmost boundary fall when exactly the frames of its
  base are left, and otherwise there is a frame that goes on.

Design notes: several boundaries may drive one thread, a host call within a host call.  The upper
one has no lower base, so what it leaves alone the lower one keeps too.
-/
import Lua.Proofs.Waiting
import Lua.Proofs.DepthLimits

namespace Lua

variable {H : Host}

open Machine

/-- The bases of the boundaries: no more frames than there are, and more in a later boundary. -/
structure Based (x : Situation H) : Prop where
  low : ∀ b ∈ x.stack, b.base ≤ (x.world.thread b.thread).frames.length
  ordered : x.stack.Pairwise fun b b' => b'.thread = b.thread → b'.base ≤ b.base

namespace Based

variable {w w' : World H} {s : List (Boundary H)} {b : Boundary H} {a a' : Option Owner}

theorem fresh : Based ⟨w, [], a⟩ := ⟨fun _ hb => absurd hb List.not_mem_nil, .nil⟩

/-- Threads that are driven may get more frames. -/
theorem grow (h : Based ⟨w, s, a⟩) (hf : ∀ b ∈ s,
      (w.thread b.thread).frames.length ≤ (w'.thread b.thread).frames.length) :
    Based ⟨w', s, a'⟩ :=
  ⟨fun b hb => (h.low b hb).trans (hf b hb), h.ordered⟩

/-- A change of a thread that keeps its frames. -/
theorem modifyThread (h : Based ⟨w, s, a⟩) (t : ThreadId) {f : Thread H → Thread H}
    (hf : ∀ x, (f x).frames = x.frames := by intro x; rfl) : Based ⟨w.modifyThread t f, s, a'⟩ :=
  h.grow fun _ _ => Nat.le_of_eq
    (congrArg List.length (World.keep_modifyThread Thread.frames _ hf)).symm

theorem pushFrame (h : Based ⟨w, s, a⟩) (t : ThreadId) (f : Frame H) :
    Based ⟨w.pushFrame t f, s, a'⟩ :=
  h.grow fun _ _ => (World.Holds.of_frames rfl |>.pushFrame t f).length_le

/-- A thread that is not driven may lose its frames. -/
theorem loseFrames (h : Based ⟨w, s, a⟩) {t : ThreadId} (ht : ∀ b ∈ s, b.thread ≠ t)
    (hf : ∀ u, u ≠ t → (w'.thread u).frames = (w.thread u).frames) : Based ⟨w', s, a'⟩ :=
  h.grow fun b hb => Nat.le_of_eq (congrArg List.length (hf _ (ht b hb))).symm

theorem tail (h : Based ⟨w, b :: s, a⟩) : Based ⟨w, s, a'⟩ :=
  ⟨fun b' hb => h.low b' (List.mem_cons_of_mem b hb), (List.pairwise_cons.mp h.ordered).2⟩

theorem cons (h : Based ⟨w, s, a⟩) (hb : b.base ≤ (w.thread b.thread).frames.length)
    (ho : ∀ b' ∈ s, b'.thread = b.thread → b'.base ≤ b.base) : Based ⟨w, b :: s, a'⟩ := by
  refine ⟨fun b' hb' => ?_, List.pairwise_cons.mpr ⟨ho, h.ordered⟩⟩
  rcases List.mem_cons.mp hb' with rfl | hs
  · exact hb
  · exact h.low b' hs

theorem create (h : Based ⟨w, s, a⟩) (body : Option Value) :
    Based ⟨{ w with threads := w.threads.push (.fresh .suspended body) }, s, a'⟩ := by
  refine h.grow fun b _ => ?_
  rw [World.thread_push]
  by_cases hn : b.thread = ⟨w.threads.size⟩
  · -- A thread that does not exist yet has no frames.
    have hnew : w.thread ⟨w.threads.size⟩ = .absent := World.thread_of_not_has (Nat.lt_irrefl _)
    rw [if_pos hn, hn, hnew]
    exact Nat.zero_le _
  · rw [if_neg hn]

theorem close (h : Based ⟨w, s, a⟩) (hch : Chained ⟨w, s, a⟩) {t : ThreadId}
    (ht : (w.thread t).status = .suspended ∨ (w.thread t).status = .dead) :
    Based ⟨w.closed t, s, a'⟩ := by
  refine h.loseFrames (t := t) (fun b hb => ?_) fun u hu =>
    congrArg Thread.frames (World.thread_modifyThread_ne hu _)
  -- A thread that is driven is active.
  rintro rfl
  obtain ⟨hdead, hsus⟩ := hch.status_ne_dead (thread_mem_chain hch.linked b hb)
  exact ht.elim hsus hdead

theorem enter (h : Based ⟨w, s, a⟩) (hch : Chained ⟨w, s, a⟩) {t : ThreadId}
    (ht : (w.thread t).status = .suspended) {o : Owner}
    {rest : Except ResumeError (List Value) → Program H (o.Result H)} :
    Based ⟨w.entered t, .resume t w.current o rest :: s, a'⟩ := by
  have hentered : Based ⟨w.entered t, s, a⟩ := h.grow fun _ _ => Nat.le_of_eq
    (congrArg List.length (World.keep_entered Thread.frames _)).symm
  refine hentered.cons (Nat.zero_le _) fun b hb hbt => ?_
  exact absurd ht (hbt ▸ hch.status_ne_dead (thread_mem_chain hch.linked b hb)).2

theorem leave {t c : ThreadId} {o : Owner}
    {rest : Except ResumeError (List Value) → Program H (o.Result H)}
    (h : Based ⟨w, .resume t c o rest :: s, a⟩) (hch : Chained ⟨w, .resume t c o rest :: s, a⟩)
    (oc : Outcome) : Based ⟨w.left t c oc, s, a'⟩ := by
  obtain ⟨-, hout, hl⟩ := hch.linked
  refine h.tail.loseFrames (a := a) (t := t) (fun b hb => ?_) fun u hu => ?_
  · rintro rfl
    exact hout (thread_mem_chain hl b hb)
  · rw [World.thread_left_frames hch.ends.1 hch.ends.2, if_neg hu]

/-- Elementary changes keep the frames below the bases. -/
theorem change {x y : Situation H} {es : List (ThreadId × LifeEvent)} (hc : Change x es y)
    (hch : Chained x) (h : Based x) : Based y := by
  cases hc with
  | memory | define | leavePoll => exact ⟨h.low, h.ordered⟩
  | create f => exact h.create _
  | close t ht => exact h.close hch (.inl ht)
  | closeDead t ht => exact h.close hch (.inr ht)
  | @call w s o hd rest =>
    have hnew : Based ⟨w.enterNonYieldable w.current, s, none⟩ := h.modifyThread _
    refine Based.cons (a := none) ⟨hnew.low, hnew.ordered⟩ ?_ fun b hb ht => ?_
    · exact Nat.le_of_eq (congrArg List.length
        (World.keep_modifyThread Thread.frames (w := { w with hostDepth := w.hostDepth + 1 })
          w.current)).symm
    · have hb' := h.low b hb
      rw [ht] at hb'
      exact hb'
  | @resume w s o t entered he rest =>
    obtain ⟨ht, rfl⟩ := hch.entered_of_ok he
    have hnew : Based ⟨w.entered t, .resume t w.current o rest :: s, none⟩ := h.enter hch ht
    exact hnew.modifyThread t
  | @native w s name =>
    have hnew : Based ⟨w.enterNative (driven s), s, none⟩ := h.modifyThread _
    exact ⟨hnew.low, hnew.ordered⟩
  | sequence f hd => exact h.pushFrame _ f
  | @leaveNative w s name =>
    have hnew : Based ⟨w.exitNative (driven s), s, none⟩ := h.modifyThread _
    exact ⟨hnew.low, hnew.ordered⟩
  | @poll w s b f below hf hb =>
    refine ⟨fun b' hb' => ?_, h.ordered⟩
    by_cases ht : b'.thread = b.thread
    · have hle : b'.base ≤ b.base := by
        rcases List.mem_cons.mp hb' with rfl | hs
        · exact le_rfl
        · exact (List.pairwise_cons.mp h.ordered).1 b' hs ht
      have hhas : w.Has b.thread := hch.has_driven
      show b'.base ≤ ((w.modifyThread b.thread _).thread b'.thread).frames.length
      rw [World.thread_modifyThread hhas, if_pos ht]
      exact hle.trans hb
    · show b'.base ≤ ((w.modifyThread b.thread _).thread b'.thread).frames.length
      rw [World.thread_modifyThread_ne ht]
      exact h.low b' hb'
  | wait name next => exact h.pushFrame _ _
  | @endCall w s t base o rest hf =>
    have hnew : Based ⟨w.exitNonYieldable t, s, none⟩ :=
      Based.modifyThread (a := none) h.tail t
    exact ⟨hnew.low, hnew.ordered⟩
  | endResume input hf =>
    rw [World.leaveCoroutine_eq hch.ends.1 hch.ends.2]
    exact h.leave hch _
  | @yield w s t c o rest name vs next hy =>
    have hpush := hch.pushFrame t ⟨name, next⟩
    rw [World.leaveCoroutine_eq hpush.ends.1 hpush.ends.2]
    exact Based.leave (a := none) (h.pushFrame t _) hpush _
  | @escape w s t base o rest name next hy =>
    have hnew : Based ⟨(w.pushFrame t ⟨name, next⟩).exitNonYieldable t, s, none⟩ :=
      Based.modifyThread (a := none) (Based.pushFrame (a := none) h.tail t _) t
    exact ⟨hnew.low, hnew.ordered⟩

end Based

namespace Machine

variable {B : Behaviour H} {m m' : Machine H} {b : Boundary H} {s : List (Boundary H)}

theorem Reachable.based (hm : Reachable B m) : Based m.situation := by
  obtain ⟨h, hr⟩ := hm
  exact (hr.keep (P := fun x => Chained x ∧ Based x)
    (fun hw => ⟨.fresh hw, .fresh⟩)
    (fun hc hx => ⟨hx.1.change hc, .change hc hx.1 hx.2⟩)).2

/-- **Driving never runs out of frames**: exactly those of the base are left and the boundary
falls with the input, or there is a frame that the input is given to. -/
theorem drive_cases (hm : Reachable B m) {input : Input} (hc : m.control = .drive input)
    (hs : m.stack = b :: s) :
    (m.world.thread b.thread).frames.length = b.base ∧
        m.step B = fall m.world input.outcome m.stack ∨
      ∃ f below, GoesOn b.thread f below input m := by
  obtain ⟨w, stack, control⟩ := m
  obtain rfl : control = .drive input := hc
  obtain rfl : stack = b :: s := hs
  have htop : Top b.thread b.base (b :: s) := ⟨b, s, rfl, rfl, rfl⟩
  have hlow : b.base ≤ (w.thread b.thread).frames.length := hm.based.low b List.mem_cons_self
  by_cases hf : (w.thread b.thread).frames.length ≤ b.base
  · exact .inl ⟨Nat.le_antisymm hf hlow, htop.drive_falls hf input⟩
  · right
    obtain ⟨f, below, hfs⟩ : ∃ f below, (w.thread b.thread).frames = f :: below :=
      List.exists_cons_of_length_pos (by omega)
    refine ⟨f, below, rfl, hfs, b.base, htop, ?_⟩
    rw [hfs, List.length_cons] at hf
    omega

end Machine

end Lua
