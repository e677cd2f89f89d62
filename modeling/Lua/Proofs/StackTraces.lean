/-
Stack traces.

An error begins in a function, or with a call that is refused.  On its way to where it is caught it
leaves what waits there, and its trace gets an entry for all that it leaves:

* `Station` — code that an error comes to on its way: the handler of a frame, or host code that
  waits for a call or for a coroutine;
* `World.stations` — the stations ahead, innermost first, read off the frames and the boundaries;
* `RefusedCall`, `Origin` — how an error begins, with its first entry and the stations ahead;
* `Station.PassesOn` — the code of the station fails with the error that it is given;
* `Machine.Reachable.comes_to`, `Machine.Reachable.passes` — an error comes to the next station and
  leaves it;
* `Machine.Reachable.stack_traces` — so the trace at the catcher is that of the stations between.

Design notes: frames and boundaries are brought into one list, for an error meets them in turns.  A
coroutine is left on the way to the code that resumed it, so its entry belongs to that station.
-/
import Lua.Proofs.Bases
import Lua.Proofs.ErrorValue
import Lua.Proofs.TailChains

namespace Lua

variable {H : Host} {B : Behaviour H}

open Machine Relation

/-! ### Traces -/

/-- The entry for the end of a function; the embedding program has none. -/
def Owner.entries : Owner → List TraceEntry
  | .embedding => []
  | .native name => [.native name]
  | .poll name => [.native name]

namespace TracedError

/-- The error after it has left more. -/
def past (e : TracedError) (es : List TraceEntry) : TracedError := { e with trace := e.trace ++ es }

@[simp] theorem past_nil (e : TracedError) : e.past [] = e :=
  congrArg (TracedError.mk e.cause) (List.append_nil e.trace)

@[simp] theorem past_past (e : TracedError) (es es' : List TraceEntry) :
    (e.past es).past es' = e.past (es ++ es') :=
  congrArg (TracedError.mk e.cause) (List.append_assoc e.trace es es')

end TracedError

/-! ### Stations -/

/-- Code that an error comes to.  The coroutine that it has left just before, if any, has an entry
of its own. -/
structure Station (H : Host) where
  left : List TraceEntry
  owner : Owner
  code : TracedError → Program H (owner.Result H)

namespace Station

/-- A frame goes on with its handler. -/
def ofFrame (B : Behaviour H) (f : Frame H) : Station H :=
  ⟨[], .poll f.name, B.recover f.activation⟩

/-- Host code waits for a call. -/
def ofCall (o : Owner) (rest : Except TracedError (List Value) → Program H (o.Result H)) :
    Station H :=
  ⟨[], o, fun e => rest (.error e)⟩

/-- Host code waits for a coroutine. -/
def ofResume (t : ThreadId) (o : Owner)
    (rest : Except ResumeError (List Value) → Program H (o.Result H)) : Station H :=
  ⟨[.coroutine t.number], o, fun e => rest (.error (.uncaught e))⟩

def ofBoundary : Boundary H → Station H
  | .call _ _ o rest => ofCall o rest
  | .resume t _ o rest => ofResume t o rest

/-- What the trace of an error gets when it comes to the station and leaves it. -/
def entries (x : Station H) : List TraceEntry := x.left ++ x.owner.entries

/-- Wherever the code of the station runs, it comes to fail with the error that it is given. -/
def PassesOn (B : Behaviour H) (x : Station H) : Prop :=
  x.owner ≠ .embedding ∧ ∀ e w s, Reachable B ⟨w, s, .host x.owner (x.code e)⟩ →
    ∃ w', (x.code e).Runs B w (.error (.traced e)) w'

/-- Code that fails at once with the error that it is given. -/
theorem passesOn_of_fail {x : Station H} (ho : x.owner ≠ .embedding)
    (h : ∀ e, x.code e = .fail (.traced e)) : x.PassesOn B := by
  refine ⟨ho, fun e w s _ => ⟨w, ?_⟩⟩
  rw [h]
  exact .fail

/-- A frame with the default handler. -/
theorem passesOn_default {f : Frame H} (h : ∀ e, B.recover f.activation e = .fail (.traced e)) :
    (ofFrame B f).PassesOn B :=
  passesOn_of_fail (by simp [ofFrame]) h

/-- A native function that passes on the error of a call. -/
theorem passesOn_callOrFail (name : String) (callee : Value) (args : List Value)
    (k : List Value → Program H (List Value)) :
    (ofCall (.native name) ((Program.callOrFail callee args).bind k).afterCall).PassesOn B :=
  passesOn_of_fail (by simp [ofCall]) fun _ => rfl

/-- A function made by `wrap`. -/
theorem passesOn_callWrapped (name : String) (t u : ThreadId) (args : List Value) :
    (ofResume t (.native name)
      (Library.Coroutines.callWrapped u args : Program H (List Value)).afterResume).PassesOn B :=
  passesOn_of_fail (by simp [ofResume]) fun _ => rfl

/-- The stations behind boundaries, with the frames that each thread has.  Those above the base of
a boundary come first. -/
def behind (B : Behaviour H) : (ThreadId → List (Frame H)) → List (Boundary H) → List (Station H)
  | _, [] => []
  | frames, b :: s =>
    let own := frames b.thread
    let above := own.length - b.base
    (own.take above).map (ofFrame B) ++ ofBoundary b ::
      behind B (fun t => if t = b.thread then own.drop above else frames t) s

/-- Only the threads that are driven matter. -/
theorem behind_congr {frames frames' : ThreadId → List (Frame H)} {s : List (Boundary H)}
    (h : ∀ b ∈ s, frames' b.thread = frames b.thread) : behind B frames' s = behind B frames s := by
  induction s generalizing frames frames' with
  | nil => rfl
  | cons b s ih =>
    have hb : frames' b.thread = frames b.thread := h b List.mem_cons_self
    simp only [behind, hb]
    congr 2
    refine ih fun b' hb' => ?_
    split
    · rfl
    · exact h b' (List.mem_cons_of_mem b hb')

/-- A boundary is next if no frame is above its base. -/
theorem behind_boundary {frames : ThreadId → List (Frame H)} {b : Boundary H}
    (h : (frames b.thread).length ≤ b.base) (s : List (Boundary H)) :
    behind B frames (b :: s) = ofBoundary b :: behind B frames s := by
  simp only [behind, Nat.sub_eq_zero_of_le h, List.take_zero, List.map_nil, List.nil_append,
    List.drop_zero]
  congr 1
  refine behind_congr fun b' _ => ?_
  split
  · rename_i heq
    rw [heq]
  · rfl

/-- A frame above the base is next. -/
theorem behind_frame {frames frames' : ThreadId → List (Frame H)} {b : Boundary H} {f : Frame H}
    {below : List (Frame H)} {s : List (Boundary H)} (hf : frames b.thread = f :: below)
    (hb : b.base ≤ below.length)
    (h : ∀ t, frames' t = if t = b.thread then below else frames t) :
    behind B frames (b :: s) = ofFrame B f :: behind B frames' (b :: s) := by
  -- the frame adds one to what is taken off, and what is left below is the same
  have hown : frames' b.thread = below := by rw [h, if_pos rfl]
  simp only [behind, hf, hown, List.length_cons, Nat.succ_sub hb, List.take_succ_cons,
    List.drop_succ_cons, List.map_cons, List.cons_append]
  congr 3
  refine behind_congr fun b' _ => ?_
  simp only [h]
  split <;> rfl

end Station

namespace World

/-- The stations ahead of an error, innermost first. -/
def stations (B : Behaviour H) (w : World H) (s : List (Boundary H)) : List (Station H) :=
  Station.behind B (fun t => (w.thread t).frames) s

variable {w w' : World H} {s : List (Boundary H)} {b : Boundary H}

theorem stations_congr (h : ∀ b ∈ s, (w'.thread b.thread).frames = (w.thread b.thread).frames) :
    w'.stations B s = w.stations B s := Station.behind_congr h

theorem stations_boundary (h : (w.thread b.thread).frames.length ≤ b.base) :
    w.stations B (b :: s) = .ofBoundary b :: w.stations B s := Station.behind_boundary h s

theorem stations_pushFrame (ht : w.Has b.thread)
    (hb : b.base ≤ (w.thread b.thread).frames.length) (f : Frame H) :
    (w.pushFrame b.thread f).stations B (b :: s) = .ofFrame B f :: w.stations B (b :: s) := by
  have hf : ((w.pushFrame b.thread f).thread b.thread).frames = f :: (w.thread b.thread).frames :=
    congrArg Thread.frames (thread_pushFrame ht f)
  refine Station.behind_frame hf hb fun t => ?_
  by_cases htb : t = b.thread
  · rw [if_pos htb, htb]
  · rw [if_neg htb, pushFrame, thread_modifyThread_ne htb]

/-- The frame that goes on is off the stack. -/
theorem stations_setFrames {f : Frame H} {below : List (Frame H)}
    (hf : (w.thread b.thread).frames = f :: below) (hb : b.base ≤ below.length) :
    w.stations B (b :: s) = .ofFrame B f :: (w.setFrames b.thread below).stations B (b :: s) :=
  Station.behind_frame hf hb fun t => frames_setFrames hf t

end World

/-! ### How errors begin -/

/-- A call on a thread is refused.  An error for a value that is no function has no entry, and an
error for a limit has the function that would be called. -/
inductive RefusedCall (B : Behaviour H) (w : World H) (t : ThreadId) (callee : Value)
    (args : List Value) : Cause → List TraceEntry → Prop
  | notCallable {e} (h : w.memory.heap.prepareCall callee args = .error e) :
      RefusedCall B w t callee args (.argument e) []
  | stackDepth {f args'} (h : w.memory.heap.prepareCall callee args = .ok (f, args'))
      (hd : w.limits.maxCallDepth ≤ (w.thread t).callDepth) :
      RefusedCall B w t callee args (.coroutine (.stackOverflow (w.thread t).callDepth))
        [.native (w.nameOf f)]
  | hostDepth {f args' p e} (h : w.memory.heap.prepareCall callee args = .ok (f, args'))
      (hd : (w.thread t).callDepth < w.limits.maxCallDepth) (hf : B.enter w f args' = .native p)
      (he : w.enterHost = .error e) :
      RefusedCall B w t callee args (.coroutine e) [.native (w.nameOf f)]

/-- How the start of a call ends. -/
inductive Invoked (B : Behaviour H) (w : World H) (t : ThreadId) (callee : Value)
    (args : List Value) : World H × Control H → Prop
  | refused {c es} (h : RefusedCall B w t callee args c es) :
      Invoked B w t callee args (w, .drive (.error ⟨c, es⟩))
  | native {f args' p w'} (h : w.memory.heap.prepareCall callee args = .ok (f, args'))
      (he : w.enterHost = .ok w') :
      Invoked B w t callee args (w'.enterNative t, .host (.native (w.nameOf f)) p)
  | sequence {f args' a} (h : w.memory.heap.prepareCall callee args = .ok (f, args')) :
      Invoked B w t callee args (w.pushFrame t ⟨w.nameOf f, a⟩, .drive (.values args'))

theorem World.invoked (B : Behaviour H) (w : World H) (t : ThreadId) (callee : Value)
    (args : List Value) : Invoked B w t callee args (w.invoke B t callee args) := by
  rw [World.invoke]
  cases hp : w.memory.heap.prepareCall callee args with
  | error e => exact .refused (.notCallable hp)
  | ok call =>
    obtain ⟨f, args'⟩ := call
    by_cases hd : w.limits.maxCallDepth ≤ (w.thread t).callDepth
    · simp only [if_pos hd]
      exact .refused (.stackDepth hp hd)
    · simp only [if_neg hd]
      cases hf : B.enter w f args' with
      | sequence a => exact .sequence hp
      | native p =>
        cases he : w.enterHost with
        | error e => exact .refused (.hostDepth hp (Nat.lt_of_not_le hd) hf he)
        | ok w' => exact .native hp he

theorem RefusedCall.invoke {w : World H} {t : ThreadId} {callee : Value} {args : List Value}
    {c : Cause} {es : List TraceEntry} (h : RefusedCall B w t callee args c es) :
    w.invoke B t callee args = (w, .drive (.error ⟨c, es⟩)) := by
  cases h with
  | notCallable h => rw [World.invoke, h]; rfl
  | stackDepth h hd => rw [World.invoke, h]; simp only [if_pos hd]; rfl
  | hostDepth h hd hf he =>
    rw [World.invoke, h]
    simp only [if_neg (Nat.not_le_of_lt hd), hf, he]
    rfl

/-- The start of a call comes to an error only if the call is refused. -/
theorem Invoked.refusedCall {w : World H} {t : ThreadId} {callee : Value} {args : List Value}
    {r : World H × Control H} (h : Invoked B w t callee args r) {e : TracedError}
    (hr : r.2 = .drive (.error e)) : RefusedCall B w t callee args e.cause e.trace := by
  cases h with
  | refused h =>
    cases hr
    exact h
  | native => cases hr
  | sequence => cases hr

/-- An error begins with what runs: its cause, its first entry and the stations ahead.  The sequence
that makes a call waits for it with a frame, unless it is a tail call. -/
inductive Origin (B : Behaviour H) (w : World H) (s : List (Boundary H)) :
    Control H → Cause → List TraceEntry → List (Station H) → Prop
  | native {name c} :
      Origin B w s (.host (.native name) (.fail (.cause c))) c [.native name] (w.stations B s)
  | poll {name c} :
      Origin B w s (.host (.poll name) (.fail (.cause c))) c [.native name] (w.stations B s)
  | yield {name vs next e} (h : w.checkYield (driven s) = .error e) :
      Origin B w s (.host (.poll name) (.done (.yield vs next))) (.coroutine e) [.native name]
        (w.stations B s)
  | call {name callee args next c es}
      (h : RefusedCall B (w.pushFrame (driven s) ⟨name, next⟩) (driven s) callee args c es) :
      Origin B w s (.host (.poll name) (.done (.call callee args next))) c es
        (.ofFrame B ⟨name, next⟩ :: w.stations B s)
  | tailCall {name callee args c es} (h : RefusedCall B w (driven s) callee args c es) :
      Origin B w s (.host (.poll name) (.done (.tailCall callee args))) c es (w.stations B s)
  | hostCall {o callee args rest w' c es} (he : w.enterHost = .ok w')
      (h : RefusedCall B (w'.enterNonYieldable w'.current) w'.current callee args c es) :
      Origin B w s (.host o (.call callee args rest)) c es (.ofCall o rest :: w.stations B s)
  | hostDepth {o callee args rest e} (he : w.enterHost = .error e) :
      Origin B w s (.host o (.call callee args rest)) (.coroutine e) []
        (.ofCall o rest :: w.stations B s)
  | body {o t args rest entered f c es} (he : w.enterCoroutine t = .ok entered)
      (hb : (entered.thread t).body = some f)
      (h : RefusedCall B (entered.dropBody t) t f args c es) :
      Origin B w s (.host o (.resume t args rest)) c es (.ofResume t o rest :: w.stations B s)

namespace Machine

/-- An error is on its way: it unwinds, or it is the answer that the next station gets at once. -/
inductive Incoming (B : Behaviour H) (e : TracedError) : List (Station H) → Machine H → Prop
  | unwinds {w s} : Incoming B e (w.stations B s) ⟨w, s, .drive (.error e)⟩
  | answers {w s o} {rest : Except TracedError (List Value) → Program H (o.Result H)} :
      Incoming B e (.ofCall o rest :: w.stations B s) ⟨w, s, .host o (rest (.error e))⟩

variable {m m' : Machine H} {w w' : World H} {s : List (Boundary H)} {o : Owner} {e : TracedError}
  {x : Station H} {xs : List (Station H)}

/-- A tail call that a poll asks for begins. -/
theorem step_polled_tailCall (name : String) (callee : Value) (args : List Value) :
    Machine.step B ⟨w, s, .host (.poll name) (.done (.tailCall callee args))⟩
      = some ⟨(w.invoke B (driven s) callee args).1, s, (w.invoke B (driven s) callee args).2⟩ :=
  rfl

/-- A frame that is put on the driven thread is the next station. -/
theorem Reachable.stations_pushFrame (hm : Reachable B m)
    (h : m.control.active ≠ some .embedding) (f : Frame H) :
    (m.world.pushFrame (driven m.stack) f).stations B m.stack =
      .ofFrame B f :: m.world.stations B m.stack := by
  have hx : Chained ⟨m.world, m.stack, m.control.active⟩ := hm.chained
  have hb : Based ⟨m.world, m.stack, m.control.active⟩ := hm.based
  have hhas : m.world.Has (driven m.stack) := hx.has_driven
  obtain ⟨b, s, hs⟩ := hm.exists_boundary h
  rw [hs] at hhas ⊢
  exact World.stations_pushFrame hhas (hb.low b (by rw [hs]; exact List.mem_cons_self)) f

theorem thread_enterHost (he : w.enterHost = .ok w') (u : ThreadId) : w'.thread u = w.thread u := by
  rw [World.enterHost] at he
  split at he <;> cases he
  rfl

/-- The start of a call that host code asks for leaves the frames of all threads alone. -/
theorem frames_inCall (he : w.enterHost = .ok w') (u : ThreadId) :
    ((w'.enterNonYieldable w'.current).thread u).frames = (w.thread u).frames := by
  rw [World.enterNonYieldable, World.keep_modifyThread Thread.frames u, thread_enterHost he]

/-- The code that waits for a call is the next station. -/
theorem stations_hostCall (he : w.enterHost = .ok w') (s : List (Boundary H)) (o : Owner)
    (rest : Except TracedError (List Value) → Program H (o.Result H)) :
    let called := w'.enterNonYieldable w'.current
    called.stations B (.call w'.current (called.thread w'.current).frames.length o rest :: s) =
      .ofCall o rest :: w.stations B s := by
  intro called
  rw [World.stations_boundary (Nat.le_refl _), World.stations_congr fun b _ => frames_inCall he _]
  rfl

/-- The code that waits for a coroutine is the next station, for a coroutine that was not resumed
before has no frames. -/
theorem Reachable.stations_body {t : ThreadId} {args : List Value} {f : Value}
    {rest : Except ResumeError (List Value) → Program H (o.Result H)}
    (hm : Reachable B ⟨w, s, .host o (.resume t args rest)⟩) (he : w.enterCoroutine t = .ok w')
    (hb : (w'.thread t).body = some f) :
    (w'.dropBody t).stations B (.resume t w.current o rest :: s) =
      .ofResume t o rest :: w.stations B s := by
  have hx : Chained ⟨w, s, some o⟩ := hm.chained
  obtain ⟨ht, rfl⟩ := hx.entered_of_ok he
  have hframes : ∀ u, (((w.entered t).dropBody t).thread u).frames = (w.thread u).frames :=
    fun u => (World.keep_modifyThread Thread.frames u).trans (World.keep_entered Thread.frames u)
  have hbody : (w.thread t).body = some f := (World.keep_entered Thread.body t).symm.trans hb
  -- a suspended coroutine has frames or a body, and this one has a body
  have hnone : (w.thread t).frames = [] := by
    rcases (hm.shaped.shape t).suspended ht with ⟨-, h⟩ | ⟨h, -⟩
    · exact h
    · cases hbody.symm.trans h
  have hlength : (w.thread t).frames.length ≤ 0 := Nat.le_of_eq (congrArg List.length hnone)
  rw [World.stations_congr fun b _ => hframes b.thread, World.stations_boundary hlength]
  rfl

/-- The start of an error is a move. -/
theorem Reachable.begins {control : Control H} {c : Cause} {es : List TraceEntry}
    (hm : Reachable B ⟨w, s, control⟩) (h : Origin B w s control c es xs) :
    ∃ m', Machine.step B ⟨w, s, control⟩ = some m' ∧ Incoming B ⟨c, es⟩ xs m' := by
  cases h with
  | @native name c =>
    -- the end of the function changes a counter of its thread, but no frames
    have hframes : ∀ b ∈ s, (((w.exitNative (driven s)).exitHost).thread b.thread).frames =
        (w.thread b.thread).frames := fun b _ => frames_leaveNative w _ _
    refine ⟨_, rfl, ?_⟩
    rw [← World.stations_congr hframes]
    exact .unwinds
  | poll => exact ⟨_, rfl, .unwinds⟩
  | @yield name vs next e h =>
    refine ⟨⟨w, s, .drive (.error (.raisedBy name (.coroutine e)))⟩, ?_, .unwinds⟩
    show perform B w s name (.yield vs next) = _
    simp only [perform, h]
  | @call name callee args next c es h =>
    refine ⟨⟨w.pushFrame (driven s) ⟨name, next⟩, s, .drive (.error ⟨c, es⟩)⟩, ?_, ?_⟩
    · rw [step_polled_call, h.invoke]
    · rw [← hm.stations_pushFrame (by simp [Control.active])]
      exact .unwinds
  | @tailCall name callee args c es h =>
    refine ⟨⟨w, s, .drive (.error ⟨c, es⟩)⟩, ?_, .unwinds⟩
    rw [step_polled_tailCall, h.invoke]
  | @hostCall o callee args rest w' c es he h =>
    let called := w'.enterNonYieldable w'.current
    let b := Boundary.call w'.current (called.thread w'.current).frames.length o rest
    refine ⟨⟨called, b :: s, .drive (.error ⟨c, es⟩)⟩, ?_, ?_⟩
    · show some (beginCall B w s o callee args rest) = _
      simp only [beginCall, he, h.invoke]
      rfl
    · rw [← stations_hostCall he s o rest]
      exact .unwinds
  | @hostDepth o callee args rest e he => exact ⟨_, World.step_call_refused he s o rest, .answers⟩
  | @body o t args rest entered f c es he hb h =>
    refine ⟨⟨entered.dropBody t, .resume t w.current o rest :: s, .drive (.error ⟨c, es⟩)⟩, ?_, ?_⟩
    · show some (beginResume B w s o t args rest) = _
      simp only [beginResume, he, hb, h.invoke]
    · rw [← hm.stations_body he hb]
      exact .unwinds

/-! ### Unwinding -/

/-- **An error comes** to the next station, past the coroutine that it leaves on the way. -/
theorem Reachable.comes_to (hm : Reachable B ⟨w, s, .drive (.error e)⟩)
    (h : w.stations B s = x :: xs) : ∃ w' s',
      Machine.step B ⟨w, s, .drive (.error e)⟩ =
        some ⟨w', s', .host x.owner (x.code (e.past x.left))⟩ ∧ w'.stations B s' = xs := by
  obtain ⟨b, s, rfl⟩ : ∃ b u, s = b :: u := hm.exists_boundary (by simp [Control.active])
  rcases drive_cases hm rfl rfl with ⟨hlen, -⟩ | ⟨f, below, hgo⟩
  · -- no frame is left above the base, so the boundary falls
    rw [World.stations_boundary (Nat.le_of_eq hlen)] at h
    obtain ⟨rfl, rfl⟩ := List.cons.inj h
    cases b with
    | call t base o rest =>
      refine ⟨w.leaveCall t, s, ?_, World.stations_congr fun b _ => frames_leaveCall w t _⟩
      show Machine.step B _ = some ⟨w.leaveCall t, s, .host o (rest (.error (e.past [])))⟩
      rw [e.past_nil]
      exact step_error_call (Nat.le_of_eq hlen)
    | resume t c o rest =>
      have hx : Chained ⟨w, .resume t c o rest :: s, none⟩ := hm.chained
      have hnil : (w.thread t).frames = [] := List.eq_nil_of_length_eq_zero hlen
      exact ⟨w.left t c (.failed e), s, step_error_resume hx hnil,
        World.stations_congr fun b _ => frames_left hx.ends.1 hx.ends.2 hnil _ _⟩
  · obtain ⟨base, ⟨_, _, hb, -, rfl⟩, hle⟩ := hgo.driven
    obtain ⟨rfl, rfl⟩ := List.cons.inj hb
    rw [World.stations_setFrames hgo.frames hle] at h
    obtain ⟨rfl, rfl⟩ := List.cons.inj h
    refine ⟨w.setFrames b.thread below, b :: s, ?_, rfl⟩
    show Machine.step B _ = some ⟨_, _, .host (.poll f.name) (B.recover f.activation (e.past []))⟩
    rw [e.past_nil]
    exact hgo.step

/-- What comes first comes. -/
theorem Comes.leadsTo {Q : Machine H → Prop} (h : Comes B Q m m') : LeadsTo B m m' := by
  induction h with
  | here => exact .refl
  | later _ hs _ ih => exact ih.head hs

/-- Code that fails with an error is left, and no frame is. -/
theorem step_fail (ho : o ≠ .embedding) (e : TracedError) (w : World H) (s : List (Boundary H)) :
    ∃ w', Machine.step B ⟨w, s, .host o (.fail (.traced e))⟩ =
        some ⟨w', s, .drive (.error (e.past o.entries))⟩ ∧ w'.stations B s = w.stations B s := by
  cases o with
  | embedding => exact absurd rfl ho
  | native name =>
    exact ⟨_, rfl, World.stations_congr fun b _ => frames_leaveNative w _ _⟩
  | poll name => exact ⟨w, rfl, rfl⟩

/-- **An error leaves** a station that passes it on. -/
theorem Reachable.passes (hm : Reachable B ⟨w, s, .host x.owner (x.code e)⟩) (hx : x.PassesOn B) :
    ∃ w', LeadsTo B ⟨w, s, .host x.owner (x.code e)⟩
        ⟨w', s, .drive (.error (e.past x.owner.entries))⟩ ∧ w'.stations B s = w.stations B s := by
  obtain ⟨ho, hfails⟩ := hx
  obtain ⟨w₁, hr⟩ := hfails e w s hm
  obtain ⟨-, hthreads⟩ := hm.runs hr
  have hchain : Chained ⟨w, s, some x.owner⟩ := hm.chained
  have hfailed : LeadsTo B _ ⟨w₁, s, .host x.owner (.fail (.traced e))⟩ :=
    (comes_of_runs hr s).leadsTo
  obtain ⟨w', hstep, hstations⟩ := step_fail (B := B) ho e w₁ s
  -- other threads may have changed while the code ran, but none that is driven
  refine ⟨w', hfailed.tail hstep, hstations.trans (World.stations_congr fun b hb => ?_)⟩
  exact congrArg Thread.frames (hthreads _ (thread_mem_chain hchain.linked b hb))

/-- An error unwinds stations that pass it on, and comes to the one behind them. -/
theorem Reachable.unwinds {passed rest : List (Station H)} {catcher : Station H}
    (hm : Reachable B ⟨w, s, .drive (.error e)⟩)
    (h : w.stations B s = passed ++ catcher :: rest) (hp : ∀ x ∈ passed, x.PassesOn B) :
    ∃ w' s', LeadsTo B ⟨w, s, .drive (.error e)⟩ ⟨w', s', .host catcher.owner
        (catcher.code (e.past (passed.flatMap Station.entries ++ catcher.left)))⟩ ∧
      w'.stations B s' = rest := by
  -- each station is come to and left, and the error that goes on has its entries
  induction passed generalizing w s e with
  | nil =>
    obtain ⟨w', s', hstep, hrest⟩ := hm.comes_to h
    exact ⟨w', s', .single hstep, hrest⟩
  | cons x passed ih =>
    obtain ⟨hx, hp⟩ := List.forall_mem_cons.mp hp
    obtain ⟨w₁, s₁, hstep, hstations⟩ := hm.comes_to h
    have hm₁ := hm.step hstep
    obtain ⟨w₂, hleads, hleft⟩ := hm₁.passes hx
    rw [TracedError.past_past] at hleads
    obtain ⟨w', s', hend, hrest⟩ := ih (hm₁.leadsTo hleads) (hleft.trans hstations) hp
    rw [TracedError.past_past, ← List.append_assoc] at hend
    exact ⟨w', s', .head hstep (hleads.trans hend), hrest⟩

/-- So it is however the error is on its way. -/
theorem Incoming.arrives {passed rest : List (Station H)} {catcher : Station H}
    (h : Incoming B e (passed ++ catcher :: rest) m) (hm : Reachable B m)
    (hp : ∀ x ∈ passed, x.PassesOn B) :
    ∃ w' s', LeadsTo B m ⟨w', s', .host catcher.owner
        (catcher.code (e.past (passed.flatMap Station.entries ++ catcher.left)))⟩ ∧
      w'.stations B s' = rest := by
  generalize hxs : passed ++ catcher :: rest = xs at h
  cases h with
  | unwinds => exact hm.unwinds hxs.symm hp
  | @answers w s o code =>
    -- the first station has the error already, so only the others are come to
    cases passed with
    | nil =>
      obtain ⟨rfl, rfl⟩ := List.cons.inj hxs
      refine ⟨w, s, ?_, rfl⟩
      show LeadsTo B _ ⟨w, s, .host o (code (.error (e.past [])))⟩
      rw [e.past_nil]
    | cons x passed =>
      obtain ⟨rfl, hahead⟩ := List.cons.inj hxs
      obtain ⟨hx, hp⟩ := List.forall_mem_cons.mp hp
      obtain ⟨w₁, hleads, hleft⟩ := Reachable.passes (x := .ofCall o code) hm hx
      obtain ⟨w', s', hend, hrest⟩ :=
        (hm.leadsTo hleads).unwinds (hleft.trans hahead.symm) hp
      rw [TracedError.past_past, ← List.append_assoc] at hend
      exact ⟨w', s', hleads.trans hend, hrest⟩

/-! ### All errors -/

/-- Behind a boundary that falls there is host code. -/
theorem control_of_fall {oc : Outcome} (h : fall w oc s = some m') :
    m'.control ≠ .drive (.error e) := by
  intro hc
  cases s with
  | nil => cases h
  | cons b s => cases b <;> cases h <;> cases hc

/-- So there is behind frames that are driven. -/
theorem control_of_drive {input : Input} (h : drive B w input s = some m') :
    m'.control ≠ .drive (.error e) := by
  cases s with
  | nil => cases h
  | cons b s =>
    simp only [drive] at h
    by_cases hlow : (w.thread b.thread).frames.length ≤ b.base
    · simp only [if_pos hlow] at h
      exact control_of_fall h
    · simp only [if_neg hlow] at h
      cases hf : (w.thread b.thread).frames with
      | nil =>
        simp only [hf] at h
        exact control_of_fall h
      | cons f below =>
        simp only [hf] at h
        cases h
        intro hc
        cases hc

theorem origin_of_perform {name : String} {st : Step H} (h : perform B w s name st = some m')
    (hc : m'.control = .drive (.error e)) :
    ∃ xs, Origin B w s (.host (.poll name) (.done st)) e.cause e.trace xs := by
  cases st with
  | «return» vs =>
    cases h
    cases hc
  | call callee args next =>
    cases h
    exact ⟨_, .call ((World.invoked B _ _ callee args).refusedCall hc)⟩
  | tailCall callee args =>
    cases h
    exact ⟨_, .tailCall ((World.invoked B _ _ callee args).refusedCall hc)⟩
  | yield vs next =>
    cases hy : w.checkYield (driven s) with
    | ok u =>
      simp only [perform, hy] at h
      exact absurd hc (control_of_fall h)
    | error e =>
      simp only [perform, hy] at h
      cases h
      cases hc
      exact ⟨_, .yield hy⟩

theorem origin_of_step (hs : m.step B = some m') (hc : m'.control = .drive (.error e)) :
    (∃ xs, Origin B m.world m.stack m.control e.cause e.trace xs) ∨
      ∃ o e₀, m.control = .host o (.fail (.traced e₀)) ∧ e = e₀.past o.entries := by
  obtain ⟨w, s, control⟩ := m
  cases control with
  | drive input => exact absurd hc (control_of_drive hs)
  | host o p =>
    cases p with
    | done r =>
      cases o with
      | embedding => cases hs
      | native name =>
        cases hs
        cases hc
      | poll name => exact .inl (origin_of_perform hs hc)
    | fail r =>
      cases r with
      | traced e₀ =>
        right
        refine ⟨o, e₀, rfl, ?_⟩
        cases o <;> cases hs <;> cases hc <;> rfl
      | cause c =>
        left
        cases o with
        | embedding => cases hs
        | native name =>
          cases hs
          cases hc
          exact ⟨_, .native⟩
        | poll name =>
          cases hs
          cases hc
          exact ⟨_, .poll⟩
    | read | write | define | loop =>
      cases hs
      cases hc
    | create body rest =>
      have hs : serve B w s o (.create body rest) = some m' := hs
      rw [serve] at hs
      split at hs <;> cases hs <;> cases hc
    | close t rest =>
      have hs : serve B w s o (.close t rest) = some m' := hs
      rw [serve] at hs
      split at hs <;> cases hs <;> cases hc
    | call callee args rest =>
      left
      obtain rfl : beginCall B w s o callee args rest = m' := Option.some.inj hs
      cases he : w.enterHost with
      | error e₀ =>
        rw [beginCall, he] at hc
        cases hc
      | ok w' =>
        simp only [beginCall, he] at hc
        exact ⟨_, .hostCall he ((World.invoked B _ _ callee args).refusedCall hc)⟩
    | resume t args rest =>
      left
      obtain rfl : beginResume B w s o t args rest = m' := Option.some.inj hs
      cases he : w.enterCoroutine t with
      | error e₀ =>
        rw [beginResume, he] at hc
        cases hc
      | ok entered =>
        cases hb : (entered.thread t).body with
        | none =>
          simp only [beginResume, he, hb] at hc
          cases hc
        | some f =>
          simp only [beginResume, he, hb] at hc
          exact ⟨_, .body he hb ((World.invoked B _ _ f args).refusedCall hc)⟩

/-! ### What catches an error -/

/-- The code of the embedding program waits behind the lowest boundary. -/
theorem exists_embedding (B : Behaviour H) {frames : ThreadId → List (Frame H)} {b : Boundary H}
    {a : Option Owner} (h : Grounded (b :: s) a) :
    ∃ x ∈ Station.behind B frames (b :: s), x.owner = .embedding := by
  induction s generalizing frames b a with
  | nil =>
    have ho : b.owner = .embedding := Option.some.inj h.2
    refine ⟨.ofBoundary b, List.mem_append_right _ List.mem_cons_self, ?_⟩
    cases b <;> exact ho
  | cons b' s ih =>
    obtain ⟨x, hx, ho⟩ := ih h.2
    exact ⟨x, List.mem_append_right _ (List.mem_cons_of_mem _ hx), ho⟩

theorem Reachable.exists_embedding_station (hm : Reachable B m)
    (h : m.control.active ≠ some .embedding) :
    ∃ x ∈ m.world.stations B m.stack, x.owner = .embedding := by
  have hg := hm.grounded
  obtain ⟨b, s, hs⟩ := hm.exists_boundary h
  rw [hs] at hg ⊢
  exact exists_embedding B hg

theorem Incoming.exists_embedding (h : Incoming B e xs m) (hm : Reachable B m) :
    ∃ x ∈ xs, x.owner = .embedding := by
  cases h with
  | unwinds => exact hm.exists_embedding_station (by simp [Control.active])
  | @answers w s o rest =>
    by_cases ho : o = .embedding
    · exact ⟨.ofCall o rest, List.mem_cons_self, ho⟩
    · obtain ⟨x, hx, hxo⟩ := hm.exists_embedding_station (by simpa [Control.active] using ho)
      exact ⟨x, List.mem_cons_of_mem _ hx, hxo⟩

/-- The first station that does not pass errors on; the embedding program never does. -/
theorem exists_catcher (h : ∃ x ∈ xs, x.owner = .embedding) : ∃ passed catcher rest,
    xs = passed ++ catcher :: rest ∧ (∀ x ∈ passed, x.PassesOn B) ∧ ¬ catcher.PassesOn B := by
  induction xs with
  | nil =>
    obtain ⟨x, hx, -⟩ := h
    exact absurd hx List.not_mem_nil
  | cons x xs ih =>
    by_cases hx : x.PassesOn B
    · -- the embedding program does not pass the error on, so it is further ahead
      have htail : ∃ y ∈ xs, y.owner = .embedding := by
        obtain ⟨y, hy, ho⟩ := h
        rcases List.mem_cons.mp hy with rfl | hy
        · exact absurd ho hx.1
        · exact ⟨y, hy, ho⟩
      obtain ⟨passed, catcher, rest, rfl, hp, hc⟩ := ih htail
      exact ⟨x :: passed, catcher, rest, rfl, List.forall_mem_cons.mpr ⟨hx, hp⟩, hc⟩
    · exact ⟨[], x, xs, rfl, List.forall_mem_nil _, hx⟩

/-! ### Main result -/

/-- What the errors that begin in a state have in their traces. -/
structure StackTraces (B : Behaviour H) (m : Machine H) : Prop where
  /-- A move to an error is the beginning of one, or the end of code that passes one on. -/
  begins : ∀ {m' e}, m.step B = some m' → m'.control = .drive (.error e) →
    (∃ xs, Origin B m.world m.stack m.control e.cause e.trace xs) ∨
      ∃ o e₀, m.control = .host o (.fail (.traced e₀)) ∧ e = e₀.past o.entries
  /-- Some station ahead catches the error. -/
  caught : ∀ {c es xs}, Origin B m.world m.stack m.control c es xs → ∃ passed catcher rest,
    xs = passed ++ catcher :: rest ∧ (∀ x ∈ passed, x.PassesOn B) ∧ ¬ catcher.PassesOn B
  /-- There it has the entry that it began with, and those of the stations that it has passed. -/
  arrives : ∀ {c es passed catcher rest},
    Origin B m.world m.stack m.control c es (passed ++ catcher :: rest) →
    (∀ x ∈ passed, x.PassesOn B) →
    ∃ w s, LeadsTo B m ⟨w, s, .host catcher.owner
        (catcher.code ⟨c, es ++ (passed.flatMap Station.entries ++ catcher.left)⟩)⟩ ∧
      w.stations B s = rest
  /-- Frames with the default handler pass errors on. -/
  defaultHandler : ∀ {f : Frame H}, (∀ e, B.recover f.activation e = .fail (.traced e)) →
    (Station.ofFrame B f).PassesOn B
  /-- So do native functions that propagate the error of a call. -/
  hostCall : ∀ name callee args (k : List Value → Program H (List Value)),
    (Station.ofCall (.native name) ((Program.callOrFail callee args).bind k).afterCall).PassesOn B
  /-- So do the functions made by `wrap`. -/
  wrapped : ∀ name t args, (Station.ofResume t (.native name)
    (Library.Coroutines.callWrapped t args : Program H (List Value)).afterResume).PassesOn B
  /-- A sequence that has made a tail call is no station, but what it has called may be one. -/
  tailCall : ∀ {name callee args m'},
    m.control = .host (.poll name) (.done (.tailCall callee args)) → m.step B = some m' →
    m'.world.stations B m'.stack = m.world.stations B m.stack ∨
      ∃ f args' a, m.world.memory.heap.prepareCall callee args = .ok (f, args') ∧
        m'.world.stations B m'.stack =
          .ofFrame B ⟨m.world.nameOf f, a⟩ :: m.world.stations B m.stack

/-- The start of a call that is accepted leaves the frames alone, or puts one on top. -/
theorem Reachable.stations_tailCall {name : String} {callee : Value} {args : List Value}
    (hm : Reachable B ⟨w, s, .host (.poll name) (.done (.tailCall callee args))⟩)
    (hs : Machine.step B ⟨w, s, .host (.poll name) (.done (.tailCall callee args))⟩ = some m') :
    m'.world.stations B m'.stack = w.stations B s ∨
      ∃ f args' a, w.memory.heap.prepareCall callee args = .ok (f, args') ∧
        m'.world.stations B m'.stack = .ofFrame B ⟨w.nameOf f, a⟩ :: w.stations B s := by
  rw [step_polled_tailCall] at hs
  cases hs
  have hcall := World.invoked B w (driven s) callee args
  generalize w.invoke B (driven s) callee args = r at hcall
  cases hcall with
  | refused h => exact .inl rfl
  | @native f args' p w' h he =>
    left
    refine World.stations_congr fun b _ => ?_
    rw [World.enterNative, World.keep_modifyThread Thread.frames, thread_enterHost he]
  | @sequence f args' a h =>
    exact .inr ⟨f, args', a, h, hm.stations_pushFrame (by simp [Control.active]) _⟩

/-- **Stack traces** have the entry that an error began with, and one for all that it has left on
its way to where it is caught, in the order in which it has left it. -/
theorem Reachable.stack_traces (hm : Reachable B m) : StackTraces B m where
  begins hs hc := origin_of_step hs hc
  caught h := by
    obtain ⟨m', hs, hi⟩ := hm.begins h
    exact exists_catcher (hi.exists_embedding (hm.step hs))
  arrives h hp := by
    obtain ⟨m', hs, hi⟩ := hm.begins h
    obtain ⟨w, s, hleads, hrest⟩ := hi.arrives (hm.step hs) hp
    exact ⟨w, s, .head hs hleads, hrest⟩
  defaultHandler h := Station.passesOn_default h
  hostCall name callee args k := Station.passesOn_callOrFail name callee args k
  wrapped name t args := Station.passesOn_callWrapped name t t args
  tailCall hc hs := by
    obtain ⟨w, s, control⟩ := m
    obtain rfl := hc
    exact hm.stations_tailCall hs

/-- Calls, in a protected call, a function made by `wrap` that calls a native function that calls a
sequence that calls `error` with the global table. -/
def wrappedError : Program .relaying (List Value) :=
  .define (.sequence (.protectedCall false)) fun pcall =>
  .define (.sequence (.host "run" ())) fun run =>
  .define (.native (.host "call" false)) fun call =>
  .create (.function call) fun t =>
  match t with
  | .ok t =>
    let error := Value.function (.builtin (.base .error))
    .define (.native (.wrap t)) fun wrapped =>
    .call (.function pcall) [.function wrapped, .function run, error, .table ⟨0⟩] fun _ => .done []
  | .error _ => .done []

/-- The error leaves `error`, a frame, a native function, the coroutine, and the function made by
`wrap`; then it comes to the protected call. -/
theorem stack_traces_wrappedError : ∃ (m : Machine .relaying) (w : World .relaying)
    (s : List (Boundary .relaying)), Reachable (.standard .relaying) m ∧
    m.control = .host (.native "error") (Library.Base.error [.table ⟨0⟩]) ∧
    LeadsTo (.standard .relaying) m ⟨w, s, .host (.poll "pcall")
      ((Behaviour.standard .relaying).recover (.protectedCall (.calling none))
        ⟨.user (some (.table ⟨0⟩)) 1, [.native "error", .native "run", .native "call",
          .coroutine 2, .native "wrap"]⟩)⟩ := by
  have hr : Reachable (.standard .relaying) (load (.initial {} ()) wrappedError) :=
    ⟨[], .start (World.isFresh_initial {} ()) wrappedError⟩
  obtain ⟨m, rest, hm, hc, hx⟩ : ∃ (m : Machine .relaying) (rest : List (Station .relaying)),
      Reachable (.standard .relaying) m ∧
      m.control = .host (.native "error") (Library.Base.error [.table ⟨0⟩]) ∧
      m.world.stations (.standard .relaying) m.stack =
        [.ofFrame (.standard .relaying) ⟨"run", .host true⟩,
          .ofCall (.native "call") ((Program.callOrFail .nil []).bind .done).afterCall,
          .ofResume ⟨1⟩ (.native "wrap") (Library.Coroutines.callWrapped ⟨1⟩ []).afterResume] ++
        .ofFrame (.standard .relaying) ⟨"pcall", .protectedCall (.calling none)⟩ :: rest :=
    ⟨_, _, hr.run 12, rfl, rfl⟩
  have hraise : (Library.Base.error [.table ⟨0⟩] : Program .relaying (List Value)) =
      .fail (.cause (.user (some (.table ⟨0⟩)) 1)) := rfl
  have horigin : Origin (.standard .relaying) m.world m.stack m.control
      (.user (some (.table ⟨0⟩)) 1) [.native "error"]
      (m.world.stations (.standard .relaying) m.stack) := by
    rw [hc, hraise]
    exact .native
  rw [hx] at horigin
  have htraces := hm.stack_traces
  obtain ⟨w, s, hleads, -⟩ := htraces.arrives horigin <| by
    simp only [List.forall_mem_cons, List.not_mem_nil, false_implies, implies_true, and_true]
    exact ⟨htraces.defaultHandler fun _ => rfl, htraces.hostCall _ _ _ _, htraces.wrapped _ _ _⟩
  exact ⟨m, w, s, hm, hc, hleads⟩

end Machine

end Lua
