/-
Where a coroutine may yield.

A program can ask whether it may yield, and it can just try.  The answer is read off the counter of
the thread in control, the attempt is checked on the thread that is driven, and what stands in the
way of a yield is neither of these, but the host code that has called a function on the thread and
waits for it.  All of them agree:

* `Machine.MayYield` — the thread is a coroutine, and no host call is open on it;
* `Machine.Settled` — a frame that has made a call is given the outcome, or is suspended with its
  thread;
* `until_asked` — the course of a call that asks for permission;
* `until_refused`, `until_yielded` — the two courses of an attempt;
* `Machine.Reachable.yield_permission` — the three are equivalent in every state of every run.

Design notes: the question is what a sequence would see that made the call now, whatever else its
code is about to do, so the state in which it makes the call need not be one of the run.  The
agreement of counters and boundaries does not depend on the code, and it carries over.
-/
import Lua.Proofs.Bases
import Lua.Proofs.RefusedYields
import Mathlib.Tactic.TFAE

namespace Lua

variable {H : Host} {B : Behaviour H} {host : HostCode H}

open Machine

namespace Machine

/-! ### Calls and their ends -/

/-- The state in which the poll of the frame `name` asks for a step next. -/
def polled (m : Machine H) (name : String) (step : Step H) : Machine H :=
  { m with control := .host (.poll name) (.done step) }

/-- The frame `f` is given an input, or its thread is suspended. -/
def Settled (t : ThreadId) (f : Frame H) (below : List (Frame H)) (x : Machine H) : Prop :=
  (x.world.thread t).status = .suspended ∨ ∃ input, GoesOn t f below input x

/-- The call of the frame `f` comes to the state `y`. -/
def Settles (B : Behaviour H) (t : ThreadId) (f : Frame H) (below : List (Frame H))
    (x y : Machine H) : Prop :=
  ∃ last, Until B (Settled t f below) x last y

/-- A thread is a coroutine, and no host call is open on it. -/
def MayYield (s : List (Boundary H)) (t : ThreadId) : Prop := t ≠ .main ∧ openCalls s t = 0

instance (s : List (Boundary H)) (t : ThreadId) : Decidable (MayYield s t) :=
  inferInstanceAs (Decidable (_ ∧ _))

/-- Why a yield is refused. -/
def yieldRefusal (t : ThreadId) : CoroutineError :=
  if t = .main then .yieldOutsideCoroutine else .yieldAcrossBoundary

variable {w : World H} {s : List (Boundary H)} {t : ThreadId} {f : Frame H}
  {below : List (Frame H)} {x y z : Machine H}

theorem Settles.unique (hy : Settles B t f below x y) (hz : Settles B t f below x z) : y = z := by
  obtain ⟨_, hy⟩ := hy
  obtain ⟨_, hz⟩ := hz
  exact hy.unique hz

/-- Nothing is settled while host code runs on the thread. -/
theorem not_settled_of_host {o : Owner} {p : Program H (o.Result H)}
    (hw : (w.thread t).status = .running) : ¬ Settled t f below ⟨w, s, .host o p⟩ := by
  rintro (hs | ⟨input, hg⟩)
  · exact Status.noConfusion (hw.symm.trans hs)
  · cases hg.control

/-- Nothing is settled while there are other frames above. -/
theorem not_settled_of_above {g : Frame H} {input : Input} (hw : (w.thread t).status = .running)
    (hf : (w.thread t).frames = g :: f :: below) :
    ¬ Settled t f below ⟨w, s, .drive input⟩ := by
  rintro (hs | ⟨input, hg⟩)
  · exact Status.noConfusion (hw.symm.trans hs)
  · have hlength := congrArg List.length (hf.symm.trans hg.frames)
    simp at hlength

/-- A call that a poll asks for begins. -/
theorem step_polled_call (name : String) (callee : Value) (args : List Value)
    (next : Activation H) :
    Machine.step B ⟨w, s, .host (.poll name) (.done (.call callee args next))⟩
      = some ⟨((w.pushFrame (driven s) ⟨name, next⟩).invoke B (driven s) callee args).1, s,
          ((w.pushFrame (driven s) ⟨name, next⟩).invoke B (driven s) callee args).2⟩ := rfl

end Machine

theorem World.thread_pushFrame {w : World H} {t : ThreadId} (h : w.Has t) (f : Frame H) :
    (w.pushFrame t f).thread t = { w.thread t with frames := f :: (w.thread t).frames } := by
  rw [pushFrame, thread_modifyThread h, if_pos rfl]

/-- The start of a call of a sequence. -/
theorem World.invoke_of_sequence {w : World H} {u : ThreadId} {callee : Value}
    {args args' : List Value} {f : Function} {a : Activation H}
    (hp : w.memory.heap.prepareCall callee args = .ok (f, args'))
    (hf : B.enter w f args' = .sequence a) (hd : (w.thread u).callDepth < w.limits.maxCallDepth) :
    w.invoke B u callee args
      = (w.pushFrame u ⟨w.nameOf f, a⟩, .drive (.values args')) := by
  rw [World.invoke, hp]
  simp only [hf, if_neg (Nat.not_le_of_lt hd)]

/-! ### The two checks -/

section Checks

variable {w : World H} {s : List (Boundary H)} {a : Option Owner} {t : ThreadId}

/-- The permission is read off the counter. -/
theorem Counted.isYieldable (h : Counted ⟨w, s, a⟩) :
    w.isYieldable t = decide (MayYield s t) := by
  have hcount : (w.thread t).nonYieldable = openCalls s t := h.nonYieldable t
  rw [Bool.eq_iff_iff, decide_eq_true_iff, World.isYieldable, hcount, Bool.and_eq_true, bne_iff_ne,
    beq_iff_eq]
  rfl

/-- An attempt is checked by the same counter. -/
theorem Counted.checkYield (h : Counted ⟨w, s, a⟩) :
    w.checkYield t = if MayYield s t then .ok () else .error (yieldRefusal t) := by
  have hcount : (w.thread t).nonYieldable = openCalls s t := h.nonYieldable t
  simp only [World.checkYield, hcount, yieldRefusal, MayYield]
  by_cases hmain : t = .main
  · simp [hmain]
  · by_cases hopen : openCalls s t = 0
    · simp [hmain, hopen]
    · simp [hmain, hopen, Nat.pos_of_ne_zero hopen]

/-- Only the resume of a coroutine that may yield is left on top. -/
theorem Machine.MayYield.exists_resume (h : MayYield s t) (hl : Linked s) (ht : driven s = t) :
    ∃ c o rest s', s = .resume t c o rest :: s' := by
  subst ht
  cases s with
  | nil => exact absurd rfl h.1
  | cons b s =>
    cases b with
    | call u base o rest =>
      have hopen : openCalls s u + (if u = u then 1 else 0) = 0 := h.2
      rw [if_pos rfl] at hopen
      omega
    | resume u c o rest => exact ⟨c, o, rest, s, rfl⟩

end Checks

/-! ### The calls, move by move -/

/-- A sequence runs on the thread in control and is about to make a call, with room for one more
frame and one more level of the host stack. -/
structure Ready (w : World H) (s : List (Boundary H)) (t : ThreadId) : Prop where
  chained : Chained ⟨w, s, none⟩
  counted : Counted ⟨w, s, none⟩
  driven : driven s = t
  top : ∃ base, Top t base s ∧ base ≤ (w.thread t).frames.length
  room : (w.thread t).callDepth + 1 < w.limits.maxCallDepth
  hostRoom : w.hostDepth < w.limits.maxHostDepth

namespace Ready

variable {w : World H} {s : List (Boundary H)} {t : ThreadId} {f : Frame H} {args : List Value}

theorem has (h : Ready w s t) : w.Has t := h.driven ▸ h.chained.has_driven

theorem thread_pushFrame (h : Ready w s t) (f : Frame H) :
    (w.pushFrame t f).thread t = { w.thread t with frames := f :: (w.thread t).frames } :=
  World.thread_pushFrame h.has f

theorem has_pushFrame (h : Ready w s t) (f : Frame H) : (w.pushFrame t f).Has t :=
  World.has_modifyThread.mpr h.has

theorem running (h : Ready w s t) : (w.thread t).status = .running := by
  have htop : (w.thread (Machine.driven s)).status = .running := h.chained.top
  rwa [h.driven] at htop

theorem running_pushFrame (h : Ready w s t) (f : Frame H) :
    ((w.pushFrame t f).thread t).status = .running := by
  rw [h.thread_pushFrame f]
  exact h.running

theorem goesOn (h : Ready w s t) (f : Frame H) (input : Input) :
    GoesOn t f (w.thread t).frames input ⟨w.pushFrame t f, s, .drive input⟩ :=
  ⟨rfl, congrArg Thread.frames (h.thread_pushFrame f), h.top⟩

theorem room_pushFrame (h : Ready w s t) (f : Frame H) :
    ((w.pushFrame t f).thread t).callDepth < (w.pushFrame t f).limits.maxCallDepth := by
  have hroom := h.room
  rw [h.thread_pushFrame f]
  show (w.thread t).frames.length + 1 + (w.thread t).nativeDepth < w.limits.maxCallDepth
  unfold Thread.callDepth at hroom
  omega

theorem counted_pushFrame (h : Ready w s t) (f : Frame H) :
    Counted ⟨w.pushFrame t f, s, none⟩ := h.counted.modifyThread t

/-- The function that asks for permission. -/
def permission : Value := .function (.builtin (.coroutine .isyieldable))

variable (host) in
/-- **The question**: the frame is told whether the thread may yield. -/
theorem until_asked (h : Ready w s t) (f : Frame H) : ∃ last,
    Until (.standard host) (Settled t f (w.thread t).frames)
      ⟨w, s, .host (.poll f.name) (.done (.call permission [] f.activation))⟩ last
      ⟨w.pushFrame t f, s, .drive (.values [.boolean (decide (MayYield s t))])⟩ := by
  set pushed := w.pushFrame t f with hpushed
  have hrun := h.running_pushFrame f
  have hcurrent : pushed.current = t := h.chained.current.trans h.driven
  have hnative : ((pushed.inNative t).thread t).status = .running :=
    (World.keep_modifyThread Thread.status (w := { pushed with hostDepth := pushed.hostDepth + 1 })
      t).trans hrun
  have hcall : Machine.step (.standard host)
      ⟨w, s, .host (.poll f.name) (.done (.call permission [] f.activation))⟩
        = some ⟨pushed.inNative t, s,
            .host (.native "isyieldable") (Library.Coroutines.isyieldable [])⟩ := by
    have hinvoke : pushed.invoke (.standard host) t permission [] = _ :=
      World.invoke_of_no_refusal (B := .standard host) rfl rfl
        (World.nativeRefusal_eq_none.mpr ⟨h.room_pushFrame f, h.hostRoom⟩)
    rw [step_polled_call, h.driven, ← hpushed, hinvoke]
    rfl
  have hread : Machine.step (.standard host) ⟨pushed.inNative t, s,
      .host (.native "isyieldable") (Library.Coroutines.isyieldable [])⟩
        = some ⟨pushed.inNative t, s, .host (.native "isyieldable")
            (.done [.boolean (decide (MayYield s t))])⟩ := by
    have hnonYieldable : ((pushed.inNative t).thread t).nonYieldable
        = (pushed.thread t).nonYieldable :=
      World.keep_modifyThread Thread.nonYieldable
        (w := { pushed with hostDepth := pushed.hostDepth + 1 }) t
    have hanswer : (pushed.inNative t).isYieldable (pushed.inNative t).current
        = decide (MayYield s t) := by
      rw [show (pushed.inNative t).current = t from hcurrent, World.isYieldable, hnonYieldable]
      exact (h.counted_pushFrame f).isYieldable
    rw [← hanswer]
    rfl
  have hleave : Machine.step (.standard host) ⟨pushed.inNative t, s,
      .host (.native "isyieldable") (.done [.boolean (decide (MayYield s t))])⟩
        = some ⟨pushed, s, .drive (.values [.boolean (decide (MayYield s t))])⟩ := by
    show some (Machine.mk _ _ _) = _
    rw [h.driven, World.leave_inNative]
  exact ⟨_, .later hcall (not_settled_of_host hnative) (.later hread (not_settled_of_host hnative)
    (.now hleave (.inr ⟨_, h.goesOn f _⟩)))⟩

/-- A yield is called and polled: it asks to suspend the thread. -/
theorem until_tried {i : Nat} (h : Ready w s t) (f : Frame H) (args : List Value)
    (hyield : w.functions[i]? = some (.sequence .yield)) {last y : Machine H}
    (hu : Until (.standard host) (Settled t f (w.thread t).frames)
      ⟨w.pushFrame t f, s, .host (.poll "yield") (.done (.yield args (.yield true)))⟩ last y) :
    Until (.standard host) (Settled t f (w.thread t).frames)
      ⟨w, s, .host (.poll f.name)
        (.done (.call (.function (.created i)) args f.activation))⟩ last y := by
  set pushed := w.pushFrame t f with hpushed
  set yielding : Frame H := ⟨"yield", .yield false⟩
  have hthread := World.thread_pushFrame (h.has_pushFrame f) yielding
  have hframes : ((pushed.pushFrame t yielding).thread t).frames
      = yielding :: f :: (w.thread t).frames := by
    rw [hthread, h.thread_pushFrame f]
  have hrun : ((pushed.pushFrame t yielding).thread t).status = .running := by
    rw [hthread]
    exact h.running_pushFrame f
  have hcall : Machine.step (.standard host) ⟨w, s, .host (.poll f.name)
      (.done (.call (.function (.created i)) args f.activation))⟩
        = some ⟨pushed.pushFrame t yielding, s, .drive (.values args)⟩ := by
    have hfunction : pushed.functions[i]? = some (.sequence .yield) := hyield
    have hinvoke : pushed.invoke (.standard host) t (.function (.created i)) args
        = (pushed.pushFrame t ⟨pushed.nameOf (.created i), .yield false⟩, .drive (.values args)) :=
      World.invoke_of_sequence rfl (by simp only [Behaviour.enter, hfunction]; rfl)
        (h.room_pushFrame f)
    rw [step_polled_call, h.driven, ← hpushed, hinvoke]
    simp only [World.nameOf, hfunction]
    rfl
  have hpoll : Machine.step (.standard host) ⟨pushed.pushFrame t yielding, s,
      .drive (.values args)⟩
        = some ⟨pushed, s, .host (.poll "yield") (.done (.yield args (.yield true)))⟩ := by
    obtain ⟨base, htop, hbase⟩ := h.top
    have hdrive := htop.drive_polls (B := .standard host) hframes
      (hbase.trans (Nat.le_succ _)) (.values args)
    have hbelow : f :: (w.thread t).frames = (pushed.thread t).frames :=
      (congrArg Thread.frames (h.thread_pushFrame f)).symm
    rw [hbelow, World.setFrames_pushFrame] at hdrive
    exact hdrive
  exact .later hcall (not_settled_of_above hrun hframes)
    (.later hpoll (not_settled_of_host (h.running_pushFrame f)) hu)

variable (host) in
/-- **An attempt that is refused**: the error is raised where the yield was called. -/
theorem until_refused {i : Nat} (h : Ready w s t) (f : Frame H) (args : List Value)
    (hyield : w.functions[i]? = some (.sequence .yield)) (hno : ¬ MayYield s t) : ∃ last,
    Until (.standard host) (Settled t f (w.thread t).frames)
      ⟨w, s, .host (.poll f.name) (.done (.call (.function (.created i)) args f.activation))⟩ last
      ⟨w.pushFrame t f, s, .drive (.error (.raisedBy "yield" (.coroutine (yieldRefusal t))))⟩ := by
  have hcheck : (w.pushFrame t f).checkYield (Machine.driven s) = .error (yieldRefusal t) := by
    rw [h.driven, (h.counted_pushFrame f).checkYield, if_neg hno]
  refine ⟨_, h.until_tried f args hyield (.now ?_ (.inr ⟨_, h.goesOn f _⟩))⟩
  show perform (.standard host) _ s "yield" (.yield args (.yield true)) = _
  rw [perform, hcheck]

end Ready

/-- The thread `t` is suspended with the frame `f`, and the code that resumed it goes on with the
values of the yield. -/
structure Yielded (t : ThreadId) (f : Frame H) (below : List (Frame H)) (args : List Value)
    (x y : Machine H) : Prop where
  suspended : (y.world.thread t).status = .suspended
  frames : (y.world.thread t).frames = ⟨"yield", .yield true⟩ :: f :: below
  resumed : ∃ c o rest, x.stack = .resume t c o rest :: y.stack ∧
    y.control = .host o (rest (.ok args))

variable (host) in
/-- **An attempt that is allowed** suspends the thread. -/
theorem Ready.until_yielded {w : World H} {s : List (Boundary H)} {t : ThreadId} {i : Nat}
    (h : Ready w s t) (f : Frame H) (args : List Value)
    (hyield : w.functions[i]? = some (.sequence .yield)) (hmay : MayYield s t) : ∃ last y,
    Until (.standard host) (Settled t f (w.thread t).frames)
      ⟨w, s, .host (.poll f.name) (.done (.call (.function (.created i)) args f.activation))⟩
      last y ∧ Yielded t f (w.thread t).frames args ⟨w, s, .drive (.values [])⟩ y := by
  obtain ⟨c, o, rest, s', rfl⟩ := hmay.exists_resume h.chained.linked h.driven
  set yielding : Frame H := ⟨"yield", .yield true⟩
  set waiting := (w.pushFrame t f).pushFrame t yielding with hwaiting
  have hends := ((h.chained.pushFrame t f).pushFrame t yielding).ends
  have hframes : (waiting.thread t).frames = yielding :: f :: (w.thread t).frames := by
    rw [hwaiting, World.thread_pushFrame (h.has_pushFrame f), h.thread_pushFrame f]
  have hleft : (waiting.left t c (.yielded args)).thread t
      = { waiting.thread t with status := .suspended, resumer := none } := by
    rw [World.thread_left hends.1 hends.2, if_pos rfl]
    rfl
  have hsuspended : ((waiting.left t c (.yielded args)).thread t).status = .suspended := by
    rw [hleft]
  have hcheck : (w.pushFrame t f).checkYield t = .ok () := by
    rw [(h.counted_pushFrame f).checkYield, if_pos hmay]
  refine ⟨_, ⟨waiting.left t c (.yielded args), s', .host o (rest (.ok args))⟩,
    h.until_tried f args hyield (.now ?_ (.inl hsuspended)), hsuspended, ?_, c, o, rest, rfl, rfl⟩
  · show perform (.standard host) _ (.resume t c o rest :: s') "yield"
      (.yield args (.yield true)) = _
    rw [perform]
    simp only [Machine.driven, Boundary.thread, hcheck, fall]
    rw [← hwaiting, World.leaveCoroutine_eq hends.1 hends.2]
    rfl
  · rw [hleft]
    exact hframes

/-! ### The agreement -/

namespace Machine

variable {m : Machine H} {name : String} {p : Program H (Step H)} {i : Nat}

/-- A sequence that is polled is ready, if the limits allow. -/
theorem Reachable.ready (hm : Reachable B m) (hc : m.control = .host (.poll name) p)
    (hroom : (m.world.thread m.world.current).callDepth + 1 < m.world.limits.maxCallDepth)
    (hhost : m.world.hostDepth < m.world.limits.maxHostDepth) :
    Ready m.world m.stack m.world.current := by
  have hchained := hm.chained
  have hcounted := hm.counted
  have hbased := hm.based
  obtain ⟨b, s, hs⟩ := hm.exists_boundary (by simp [hc, Control.active])
  obtain ⟨w, _, control⟩ := m
  obtain rfl : control = _ := hc
  obtain rfl := hs
  have hcurrent : w.current = driven (b :: s) := hchained.current
  refine ⟨hchained.congr rfl (fun _ => rfl) fun _ => rfl,
    hcounted.congr rfl rfl (fun _ => rfl) fun _ => rfl, hcurrent.symm, ?_, hroom, hhost⟩
  refine ⟨b.base, ⟨b, s, rfl, hcurrent.symm, rfl⟩, ?_⟩
  show b.base ≤ (w.thread w.current).frames.length
  rw [hcurrent]
  exact hbased.low b List.mem_cons_self

/-- **Yields are accepted exactly where permission is given.**  Where a sequence runs and no limit
is reached, it is told that it may yield if and only if a yield suspends its thread, and both are
so if and only if the thread is a coroutine on which no host call is open; host calls on other
threads do not matter.  A yield that is refused is an error at the place where it was called, and
the thread goes on. -/
theorem Reachable.yield_permission (hm : Reachable (.standard host) m)
    (hc : m.control = .host (.poll name) p)
    (hroom : (m.world.thread m.world.current).callDepth + 1 < m.world.limits.maxCallDepth)
    (hhost : m.world.hostDepth < m.world.limits.maxHostDepth)
    (hyield : m.world.functions[i]? = some (.sequence .yield)) (args : List Value)
    (next : Activation H) :
    let t := m.world.current
    let f : Frame H := ⟨name, next⟩
    let below := (m.world.thread t).frames
    let settles := fun callee args =>
      Settles (.standard host) t f below (m.polled name (.call callee args next))
    let yield := Value.function (.created i)
    List.TFAE [
      ∃ y, settles Ready.permission [] y ∧ GoesOn t f below (.values [.boolean true]) y,
      ∃ y, settles yield args y ∧ (y.world.thread t).status = .suspended,
      MayYield m.stack t] ∧
    (MayYield m.stack t → ∃ y, settles yield args y ∧ Yielded t f below args m y) ∧
    (¬ MayYield m.stack t → ∃ y, settles yield args y ∧
      GoesOn t f below (.error (.raisedBy "yield" (.coroutine (yieldRefusal t)))) y ∧
      (y.world.thread t).status = .running) := by
  intro t f below settles yield
  have hready := hm.ready hc hroom hhost
  obtain ⟨lastAsked, hasked⟩ := hready.until_asked host f
  have hyes : MayYield m.stack t → ∃ y, settles yield args y ∧ Yielded t f below args m y := by
    intro hmay
    obtain ⟨last, y, hu, hy⟩ := hready.until_yielded host f args hyield hmay
    exact ⟨y, ⟨last, hu⟩, hy.suspended, hy.frames, hy.resumed⟩
  have hno : ¬ MayYield m.stack t → ∃ y, settles yield args y ∧
      GoesOn t f below (.error (.raisedBy "yield" (.coroutine (yieldRefusal t)))) y ∧
      (y.world.thread t).status = .running := by
    intro hmay
    obtain ⟨last, hu⟩ := hready.until_refused host f args hyield hmay
    exact ⟨_, ⟨last, hu⟩, hready.goesOn f _, hready.running_pushFrame f⟩
  refine ⟨?_, hyes, hno⟩
  tfae_have 1 → 3 := by
    rintro ⟨y, hy, hg⟩
    obtain rfl := hy.unique ⟨lastAsked, hasked⟩
    have hanswer : decide (MayYield m.stack t) = true := by
      have hcontrol := hg.control
      simpa using hcontrol
    exact of_decide_eq_true hanswer
  tfae_have 3 → 1 := by
    intro hmay
    refine ⟨_, ⟨lastAsked, hasked⟩, ?_⟩
    rw [decide_eq_true hmay]
    exact hready.goesOn f _
  tfae_have 2 → 3 := by
    rintro ⟨y, hy, hsuspended⟩
    by_contra hmay
    obtain ⟨z, hz, -, hrunning⟩ := hno hmay
    obtain rfl := hy.unique hz
    exact Status.noConfusion (hsuspended.symm.trans hrunning)
  tfae_have 3 → 2 := by
    intro hmay
    obtain ⟨y, hy, hyielded⟩ := hyes hmay
    exact ⟨y, hy, hyielded.suspended⟩
  tfae_finish

/-- Calls `resume` from host code, on a coroutine that makes a protected call of `yield`. -/
def resumeInCall : Program H (List Value) :=
  .define (.sequence .yield) fun yield =>
  .define (.sequence (.protectedCall false)) fun pcall =>
  .create (.function pcall) fun t =>
  match t with
  | .ok t =>
    .call (.function (.builtin (.coroutine .resume))) [.thread t, .function yield] fun _ => .done []
  | .error _ => .done []

/-- The coroutine may yield while the call is open on the main thread. -/
theorem yield_permission_resumeInCall : ∃ m : Machine .bare, Reachable .bare m ∧
    m.world.current = ⟨1⟩ ∧ openCalls m.stack .main = 1 ∧
    ∃ y, Settles .bare ⟨1⟩ ⟨"pcall", .protectedCall .handling⟩ []
        (m.polled "pcall" (.call (.function (.created 0)) [] (.protectedCall .handling))) y ∧
      (y.world.thread ⟨1⟩).status = .suspended := by
  have hm : Reachable (.standard .bare) ((load .bare resumeInCall).run .bare 6) :=
    reachable_bare resumeInCall 6
  obtain ⟨-, hyes, -⟩ := hm.yield_permission (i := 0) rfl (by decide) (by decide) rfl []
    (.protectedCall .handling)
  obtain ⟨y, hy, hyielded⟩ := hyes (by decide)
  exact ⟨_, hm, rfl, rfl, y, hy, hyielded.suspended⟩

end Machine

end Lua
