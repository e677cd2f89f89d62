/-
Two runs of a coroutine, move by move.

A coroutine that yields and is resumed with a reply, and one that records instead of yielding,
run the same code on the same data.  This file compares a move of the one run with the moves of
the other:

* `Within` — what holds of the world while a coroutine runs behind a resume;
* `Within.entered_left` — a yield and the next resume together leave the world as it was;
* `Control.Plain` — code that neither calls back into the machine nor yields by itself;
* `Mirror` — the states of the two runs that belong together;
* `Mirror.turn` — from such states both runs get to such states, or both end alike.

Design notes: the two runs go at different speeds at two places.  A write of the memory takes
one more move where the log has to be read first, and while the coroutine is suspended the
recording function is half done.
-/
import Lua.Proofs.Depth
import Lua.Proofs.Recording
import Lua.Proofs.Resuming

namespace Lua

variable {H : Host}

open Relation (ReflTransGen TransGen)
open Machine

/-! ### Behind a resume -/

/-- The coroutine `t` runs behind a resume by `c`, at the host depth `h` and `n` native calls
further up. -/
structure Within (t c : ThreadId) (h n : Nat) (w : World H) : Prop where
  coroutine : t ≠ .main
  running : (w.thread t).status = .running
  resumer : (w.thread t).resumer = some c
  body : (w.thread t).body = none
  yieldable : (w.thread t).nonYieldable = 0
  waiting : (w.thread c).status = .normal
  chain : ∃ r, w.running = t :: r ∧ r.headD .main = c ∧ r.length < w.limits.maxResumeDepth
  depth : w.hostDepth = h + n
  room : 0 < h ∧ h < w.limits.maxHostDepth

namespace Within

variable {t c : ThreadId} {h n : Nat} {w w' : World H}

/-- Changes of other threads and of frames stay within. -/
theorem congr (hw : Within t c h n w) {m : Nat}
    (hst : ∀ u, u = t ∨ u = c → (w'.thread u).status = (w.thread u).status)
    (hr : (w'.thread t).resumer = (w.thread t).resumer)
    (hb : (w'.thread t).body = (w.thread t).body)
    (hy : (w'.thread t).nonYieldable = (w.thread t).nonYieldable)
    (hrun : w'.running = w.running) (hl : w'.limits = w.limits) (hd : w'.hostDepth = h + m) :
    Within t c h m w' where
  coroutine := hw.coroutine
  running := (hst t (.inl rfl)).trans hw.running
  resumer := hr.trans hw.resumer
  body := hb.trans hw.body
  yieldable := hy.trans hw.yieldable
  waiting := (hst c (.inr rfl)).trans hw.waiting
  chain := by
    rw [hrun, hl]
    exact hw.chain
  depth := hd
  room := by
    rw [hl]
    exact hw.room

/-- A change of the frames or of the native depth. -/
theorem modifyThread (hw : Within t c h n w) (u : ThreadId) {f : Thread H → Thread H}
    (hst : ∀ s, (f s).status = s.status := by intro s; rfl)
    (hr : ∀ s, (f s).resumer = s.resumer := by intro s; rfl)
    (hb : ∀ s, (f s).body = s.body := by intro s; rfl)
    (hy : ∀ s, (f s).nonYieldable = s.nonYieldable := by intro s; rfl) :
    Within t c h n (w.modifyThread u f) :=
  hw.congr (fun _ _ => World.keep_modifyThread Thread.status _ hst)
    (World.keep_modifyThread Thread.resumer _ hr) (World.keep_modifyThread Thread.body _ hb)
    (World.keep_modifyThread Thread.nonYieldable _ hy) rfl rfl hw.depth

theorem pushFrame (hw : Within t c h n w) (f : Frame H) : Within t c h n (w.pushFrame t f) :=
  hw.modifyThread t

theorem setFrames (hw : Within t c h n w) (fs : List (Frame H)) :
    Within t c h n (w.setFrames t fs) := hw.modifyThread t

theorem inNative (hw : Within t c h 0 w) : Within t c h 1 (w.inNative t) := by
  have hup : Within t c h 1 { w with hostDepth := w.hostDepth + 1 } :=
    hw.congr (fun _ _ => rfl) rfl rfl rfl rfl rfl (congrArg (· + 1) hw.depth)
  exact hup.modifyThread t

theorem exitNative (hw : Within t c h 1 w) : Within t c h 0 (w.exitNative t).exitHost :=
  (hw.modifyThread t).congr (fun _ _ => rfl) rfl rfl rfl rfl rfl (by
    show w.hostDepth - 1 = h + 0
    rw [hw.depth]
    omega)

theorem ne (hw : Within t c h n w) : t ≠ c :=
  World.ne_of_status hw.running hw.waiting (by decide)

theorem create (hw : Within t c h n w) (s : Thread H) :
    Within t c h n { w with threads := w.threads.push s } := by
  have hnew : w.thread ⟨w.threads.size⟩ = .absent :=
    World.thread_of_not_has (Nat.lt_irrefl _)
  have hthread : ∀ u, u = t ∨ u = c →
      ({ w with threads := w.threads.push s } : World H).thread u = w.thread u := by
    rintro u hu
    rw [World.thread_push]
    refine if_neg ?_
    rintro rfl
    rcases hu with rfl | rfl
    · have hr := hw.running
      rw [hnew] at hr
      cases hr
    · have hn := hw.waiting
      rw [hnew] at hn
      cases hn
  have ht := hthread t (.inl rfl)
  exact hw.congr (fun u hu => by rw [hthread u hu]) (by rw [ht]) (by rw [ht]) (by rw [ht]) rfl rfl
    hw.depth

theorem close (hw : Within t c h n w) {u : ThreadId}
    (hu : (w.thread u).status = .suspended ∨ (w.thread u).status = .dead) :
    Within t c h n (w.closed u) := by
  have hthread : ∀ v, v = t ∨ v = c → (w.closed u).thread v = w.thread v := by
    rintro v hv
    refine World.thread_modifyThread_ne ?_ _
    rintro rfl
    rcases hv with rfl | rfl
    · rw [hw.running] at hu
      exact absurd hu (by decide)
    · rw [hw.waiting] at hu
      exact absurd hu (by decide)
  have ht := hthread t (.inl rfl)
  exact hw.congr (fun v hv => by rw [hthread v hv]) (by rw [ht]) (by rw [ht]) (by rw [ht]) rfl rfl
    hw.depth

theorem checkYield (hw : Within t c h n w) : w.checkYield t = .ok () := by
  rw [World.checkYield, if_neg hw.coroutine, hw.yieldable]
  rfl

/-- The world in which the coroutine has just yielded. -/
theorem left_yielded (hw : Within t c h 0 w) (vs : List Value) :
    (w.left t c (.yielded vs)).current = c ∧
      ((w.left t c (.yielded vs)).thread t).status = .suspended ∧
      ((w.left t c (.yielded vs)).thread c).status = .running := by
  have hlook := World.thread_left hw.waiting hw.running (.yielded vs)
  obtain ⟨r, hr, hc, -⟩ := hw.chain
  refine ⟨?_, ?_, ?_⟩
  · show w.running.tail.headD .main = c
    rw [hr]
    exact hc
  · rw [hlook, if_pos rfl]
    rfl
  · rw [hlook, if_neg hw.ne.symm, if_pos rfl]

/-- A coroutine that yields and is resumed again finds the world as it was. -/
theorem entered_left (hw : Within t c h 0 w) (vs : List Value) :
    (w.left t c (.yielded vs)).entered t = w := by
  obtain ⟨hcur, hsus, hrun⟩ := hw.left_yielded vs
  have hlook := World.thread_left hw.waiting hw.running (.yielded vs)
  obtain ⟨r, hr, -, -⟩ := hw.chain
  refine World.ext_thread ?_ ?_ ?_ (fun u => ?_) ?_ ?_ ?_
  · simp only [World.entered, World.left, World.modifyThread]
  · simp only [World.entered, World.left, World.modifyThread]
  · simp [World.entered, World.left, World.modifyThread]
  -- A resume sets again what the yield has reset: the two statuses and the resumer.
  · have hrun' : ((w.left t c (.yielded vs)).thread (w.left t c (.yielded vs)).current).status
        = .running := by
      rw [hcur]
      exact hrun
    rw [World.thread_entered hrun' hsus, hcur, hlook, hlook, hlook]
    by_cases hut : u = t
    · rw [if_pos hut, if_pos rfl, hut]
      have hst := hw.running
      have hre := hw.resumer
      generalize w.thread t = s at hst hre ⊢
      cases s
      cases hst
      cases hre
      rfl
    · rw [if_neg hut, if_neg hut]
      by_cases huc : u = c
      · rw [if_pos huc, if_neg hw.ne.symm, if_pos rfl, huc]
        have hst := hw.waiting
        generalize w.thread c = s at hst ⊢
        cases s
        cases hst
        rfl
      · rw [if_neg huc, if_neg huc]
  · show t :: w.running.tail = w.running
    rw [hr]
    rfl
  · show w.hostDepth - 1 + 1 = w.hostDepth
    rw [hw.depth]
    have := hw.room.1
    omega
  · simp only [World.entered, World.left, World.modifyThread]

end Within

/-- The code neither calls back into the machine nor yields by itself. -/
structure Control.Plain (k : Control H) : Prop where
  noCall : ∀ o callee args rest, k ≠ .host o (.call callee args rest)
  noResume : ∀ o t args rest, k ≠ .host o (.resume t args rest)
  noYield : ∀ name vs next, k ≠ .host (.poll name) (.done (.yield vs next))

/-- The same as a test. -/
def Control.isPlain : Control H → Bool
  | .host (.poll _) (.done (.yield _ _)) => false
  | .host _ (.call _ _ _) => false
  | .host _ (.resume _ _ _) => false
  | _ => true

theorem Control.plain_of_isPlain {k : Control H} (h : k.isPlain) : k.Plain where
  noCall := by
    rintro o callee args rest rfl
    cases o <;> exact absurd h Bool.false_ne_true
  noResume := by
    rintro o t args rest rfl
    cases o <;> exact absurd h Bool.false_ne_true
  noYield := by
    rintro name vs next rfl
    exact absurd h Bool.false_ne_true

/-- The arguments of the first resume, and then the replies. -/
def inputsOf (args : List Value) (replies : Nat → List Value) : Nat → List Value
  | 0 => args
  | n + 1 => replies n

/-- A move of the run in one piece, which may write to the log. -/
def Course.Records (host : HostCode H) (replies : Nat → List Value) (t c : ThreadId)
    (x y : Course H.recording) : Prop :=
  Course.Moves ((Behaviour.standard host).recording replies) t c x y ∧
    x.world.log <+: y.world.log

/-! ### The function that records -/

namespace Course

variable {B : Behaviour H.recording} {t c : ThreadId} (w : World H.recording) (name : String)
  (replies : Nat → List Value) (args : List Value)

theorem recorder_reads :
    Moves B t c ⟨w, .host (.native name) (Behaviour.recorder replies args)⟩
      ⟨w, .host (.native name)
        (.write (w.noted args).memory fun _ => Behaviour.lookUp replies)⟩ :=
  fun _ _ _ => rfl

theorem recorder_writes :
    Moves B t c
      ⟨w, .host (.native name) (.write (w.noted args).memory fun _ => Behaviour.lookUp replies)⟩
      ⟨w.noted args, .host (.native name) (Behaviour.lookUp replies)⟩ :=
  fun _ _ _ => rfl

theorem recorder_looksUp :
    Moves B t c ⟨w, .host (.native name) (Behaviour.lookUp replies)⟩
      ⟨w, .host (.native name) (.done (replies (w.log.length - 1)))⟩ :=
  fun _ _ _ => rfl

theorem recorder_returns (vs : List Value) :
    Moves B t c ⟨w, .host (.native name) (.done vs)⟩
      ⟨(w.exitNative t).exitHost, .drive (.values vs)⟩ :=
  fun _ _ _ => rfl

end Course

/-! ### States that belong together -/

/-- The states of the run that is cut into resumes, with the lists it has yielded, and of the run
in one piece that belong together. -/
inductive Mirror (replies : Nat → List Value) (t c : ThreadId) (h : Nat) :
    List (List Value) × Course H → Course H.recording → Prop
  /-- The frames are given the same input. -/
  | drive {ys w} (hw : Within t c h 0 w) (input : Input) :
      Mirror replies t c h (ys, ⟨w, .drive input⟩) ⟨w.recording ys, .drive input⟩
  /-- The same host code runs. -/
  | host {ys w o} (ho : o ≠ .embedding) (hw : Within t c h (nativeHere (some o)) w)
      (p : Program H (o.Result H)) :
      Mirror replies t c h (ys, ⟨w, .host o p⟩)
        ⟨w.recording ys, .host o (p.recording o.recording)⟩
  /-- A function that yields has been called, on the other side one that records. -/
  | called {ys w} (hw : Within t c h 0 w) (name : String) (vs : List Value) :
      Mirror replies t c h (ys, ⟨w.pushFrame t ⟨name, .yield false⟩, .drive (.values vs)⟩)
        ⟨(w.inNative t).recording ys, .host (.native name) (Behaviour.recorder replies vs)⟩
  /-- It is about to yield; the other side has read the log. -/
  | yielding {ys w} (hw : Within t c h 0 w) (name : String) (vs : List Value) :
      Mirror replies t c h (ys, ⟨w, .host (.poll name) (.done (.yield vs (.yield true)))⟩)
        ⟨(w.inNative t).recording ys, .host (.native name)
          (.write (((w.inNative t).recording ys).noted vs).memory fun _ =>
            Behaviour.lookUp replies)⟩
  /-- It has been resumed; the other side has written the log. -/
  | resumed {ys w} (hw : Within t c h 0 w) (name : String) (vs : List Value) :
      Mirror replies t c h
        (ys ++ [vs],
          ⟨w.pushFrame t ⟨name, .yield true⟩, .drive (.values (replies ys.length))⟩)
        ⟨(w.inNative t).recording (ys ++ [vs]), .host (.native name) (Behaviour.lookUp replies)⟩
  /-- Both return the reply. -/
  | returning {ys w} (hw : Within t c h 0 w) (name : String) (vs : List Value) :
      Mirror replies t c h
        (ys ++ [vs], ⟨w, .host (.poll name) (.done (.return (replies ys.length)))⟩)
        ⟨(w.inNative t).recording (ys ++ [vs]), .host (.native name)
          (.done (replies ys.length))⟩

namespace Mirror

variable {host : HostCode H} {replies : Nat → List Value} {t c : ThreadId} {h : Nat}
  {w : World H} {ys : List (List Value)}

theorem inNative_recording (w : World H) (ys : List (List Value)) (t : ThreadId) :
    (w.recording ys).inNative t = (w.inNative t).recording ys :=
  World.enterNative_recording { w with hostDepth := w.hostDepth + 1 } ys t

/-- What entering a function comes to on both sides. -/
theorem enter_recording (host : HostCode H) (replies : Nat → List Value) (w : World H)
    (ys : List (List Value)) (f : Function) (args : List Value) :
    (∃ p, (Behaviour.standard host).enter w f args = .native p ∧
      ((Behaviour.standard host).recording replies).enter (w.recording ys) f args
        = .native (p.recording id)) ∨
    (∃ a, (Behaviour.standard host).enter w f args = .sequence a ∧
      ((Behaviour.standard host).recording replies).enter (w.recording ys) f args
        = .sequence a.recording) ∨
    ((Behaviour.standard host).enter w f args = .sequence (.yield false) ∧
      ((Behaviour.standard host).recording replies).enter (w.recording ys) f args
        = .native (Behaviour.recorder replies args)) := by
  cases f with
  | builtin b => exact .inl ⟨_, rfl, rfl⟩
  | created i =>
    simp only [Behaviour.enter, World.recording, Array.getElem?_map]
    cases w.functions[i]? with
    | none => exact .inl ⟨_, rfl, rfl⟩
    | some closure =>
      cases closure with
      | native n => cases n <;> exact .inl ⟨_, rfl, rfl⟩
      | sequence q =>
        cases q with
        | yield => exact .inr (.inr ⟨rfl, rfl⟩)
        | protectedCall withHandler => exact .inr (.inl ⟨_, rfl, rfl⟩)
        | host name code => exact .inr (.inl ⟨_, rfl, rfl⟩)

/-- Both sides start the same call. -/
theorem invoke (host : HostCode H) (replies : Nat → List Value) (hw : Within t c h 0 w)
    (ys : List (List Value)) (callee : Value) (args : List Value) :
    Mirror replies t c h
      (ys, ⟨(w.invoke (.standard host) t callee args).1,
        (w.invoke (.standard host) t callee args).2⟩)
      ⟨((w.recording ys).invoke ((Behaviour.standard host).recording replies) t callee args).1,
        ((w.recording ys).invoke ((Behaviour.standard host).recording replies) t callee
          args).2⟩ := by
  have hcall : (w.recording ys).memory.heap.prepareCall callee args
      = w.memory.heap.prepareCall callee args := rfl
  rw [World.invoke, World.invoke, hcall]
  cases w.memory.heap.prepareCall callee args with
  | error e => exact .drive hw _
  | ok call =>
    obtain ⟨f, args⟩ := call
    simp only [World.thread_recording, Thread.callDepth_recording, World.nameOf_recording]
    rw [show (w.recording ys).limits = w.limits from rfl]
    by_cases hd : w.limits.maxCallDepth ≤ (w.thread t).callDepth
    · rw [if_pos hd, if_pos hd]
      exact .drive hw _
    · rw [if_neg hd, if_neg hd]
      -- The function that records takes a level of the host stack, the one that yields none.
      have hroom : ¬ w.limits.maxHostDepth ≤ w.hostDepth := by
        have := hw.room
        rw [hw.depth]
        omega
      have hroom' : ¬ (w.recording ys).limits.maxHostDepth ≤ (w.recording ys).hostDepth := hroom
      rcases enter_recording host replies w ys f args with
        ⟨p, he, he'⟩ | ⟨a, he, he'⟩ | ⟨he, he'⟩
      · have hm : Mirror replies t c h (ys, ⟨w.inNative t, .host (.native (w.nameOf f)) p⟩) _ :=
          .host (o := .native (w.nameOf f)) (by simp) hw.inNative p
        rw [← inNative_recording] at hm
        rw [he, he']
        simp only [World.enterHost, if_neg hroom, if_neg hroom']
        rw [World.nameOf_recording]
        exact hm
      · have hm : Mirror replies t c h
            (ys, ⟨w.pushFrame t ⟨w.nameOf f, a⟩, .drive (.values args)⟩) _ :=
          .drive (hw.pushFrame _) (.values args)
        rw [← World.pushFrame_recording] at hm
        rw [he, he']
        exact hm
      · have hm : Mirror replies t c h (ys, _) _ := .called hw (w.nameOf f) args
        rw [← inNative_recording] at hm
        rw [he, he']
        simp only [World.enterHost, if_neg hroom']
        rw [World.nameOf_recording]
        exact hm

/-- The log holds what was yielded. -/
theorem log {p : List (List Value) × Course H} {q : Course H.recording}
    (hm : Mirror replies t c h p q) : q.world.log = p.1 := by
  cases hm <;> rfl

/-- Both sides go on, or both end alike. -/
def Turn (host : HostCode H) (replies : Nat → List Value) (args : List Value) (t c : ThreadId)
    (h : Nat) (p : List (List Value) × Course H) (q : Course H.recording) : Prop :=
  (∃ p', Course.Turns (.standard host) t c (inputsOf args replies) p p' ∧
    ∃ q', TransGen (Course.Records host replies t c) q q' ∧ Mirror replies t c h p' q') ∨
  ∃ w r, Course.Ends (.standard host) t c p.2 w r ∧ (w.thread t).status = .dead ∧
    Course.Ends ((Behaviour.standard host).recording replies) t c q (w.recording p.1) r

variable {args : List Value}

theorem turn_drive (hw : Within t c h 0 w) (ys : List (List Value)) (input : Input) :
    Turn host replies args t c h (ys, ⟨w, .drive input⟩) ⟨w.recording ys, .drive input⟩ := by
  cases hf : (w.thread t).frames with
  | nil =>
    refine .inr ⟨w.left t c input.outcome, input.outcome.handed t, ?_, ?_, ?_⟩
    · exact Course.ends_of_no_frames hw.waiting hw.running hf input
    · rw [World.thread_left hw.waiting hw.running, if_pos rfl]
      cases input <;> rfl
    · rw [← World.left_recording]
      refine Course.ends_of_no_frames ?_ ?_ ?_ input
      · rw [World.thread_recording]
        exact hw.waiting
      · rw [World.thread_recording]
        exact hw.running
      · rw [World.thread_recording, Thread.recording, hf]
        rfl
  | cons f below =>
    have hf' : ((w.recording ys).thread t).frames
        = f.recording :: below.map Frame.recording := by
      rw [World.thread_recording, Thread.recording, hf]
      rfl
    refine .inl ⟨_, .move (Course.moves_of_frames hf input), _,
      .single ⟨Course.moves_of_frames hf' input, List.prefix_rfl⟩, ?_⟩
    rw [World.setFrames_recording]
    -- The frames are the same but for the log, so the same code runs.
    have hcode : ∀ p : Program H (Step H),
        Mirror replies t c h (ys, ⟨w.setFrames t below, .host (.poll f.name) p⟩)
          ⟨(w.setFrames t below).recording ys, .host (.poll f.name) (p.recording Step.recording)⟩ :=
      fun p => .host (o := .poll f.name) (by simp) (hw.setFrames below) p
    cases input with
    | values vs =>
      show Mirror replies t c h _ ⟨_, .host (.poll f.name)
        (((Behaviour.standard host).poll f.activation.recording.plain vs).recording
          Step.recording)⟩
      rw [Activation.plain_recording]
      exact hcode _
    | error e =>
      show Mirror replies t c h _ ⟨_, .host (.poll f.name)
        (((Behaviour.standard host).recover f.activation.recording.plain e).recording
          Step.recording)⟩
      rw [Activation.plain_recording]
      exact hcode _

/-- One move on each side. -/
theorem turn_of_moves {x y : Course H} {x' y' : Course H.recording}
    (hx : Course.Moves (.standard host) t c x y)
    (hx' : Course.Moves ((Behaviour.standard host).recording replies) t c x' y')
    (hl : x'.world.log = ys) (hm : Mirror replies t c h (ys, y) y') :
    Turn host replies args t c h (ys, x) x' := by
  have hlog : y'.world.log = x'.world.log := hm.log.trans hl.symm
  exact .inl ⟨_, .move hx, _, .single ⟨hx', [], by rw [hlog, List.append_nil]⟩, hm⟩

/-- A request of host code that both sides answer at once. -/
theorem turn_of_step {o : Owner} (ho : o ≠ .embedding) {p q : Program H (o.Result H)}
    {w' : World H} (hw' : Within t c h (nativeHere (some o)) w')
    (hx : ∀ s, step (.standard host) ⟨w, s, .host o p⟩ = some ⟨w', s, .host o q⟩)
    (hx' : ∀ s, step ((Behaviour.standard host).recording replies)
      ⟨w.recording ys, s, .host o (p.recording o.recording)⟩
        = some ⟨w'.recording ys, s, .host o (q.recording o.recording)⟩) :
    Turn host replies args t c h (ys, ⟨w, .host o p⟩)
      ⟨w.recording ys, .host o (p.recording o.recording)⟩ := by
  have hmove : Course.Moves (.standard host) t c ⟨w, .host o p⟩ ⟨w', .host o q⟩ :=
    fun _ _ _ => hx _
  have hmove' : Course.Moves ((Behaviour.standard host).recording replies) t c
      ⟨w.recording ys, .host o (p.recording o.recording)⟩
      ⟨w'.recording ys, .host o (q.recording o.recording)⟩ := fun _ _ _ => hx' _
  exact turn_of_moves hmove hmove' rfl (.host ho hw' q)

theorem exitNative_recording (w : World H) (ys : List (List Value)) (t : ThreadId) :
    ((w.recording ys).exitNative t).exitHost = (w.exitNative t).exitHost.recording ys :=
  congrArg World.exitHost (World.exitNative_recording w ys t)

/-- A native function ends. -/
theorem turn_leave (hw : Within t c h 1 w) {x : Course H} {x' : Course H.recording}
    (input : Input)
    (hx : Course.Moves (.standard host) t c x ⟨(w.exitNative t).exitHost, .drive input⟩)
    (hx' : Course.Moves ((Behaviour.standard host).recording replies) t c x'
      ⟨((w.recording ys).exitNative t).exitHost, .drive input⟩)
    (hl : x'.world.log = ys) : Turn host replies args t c h (ys, x) x' := by
  rw [exitNative_recording] at hx'
  exact turn_of_moves hx hx' hl (.drive hw.exitNative input)

/-- The code of a native function or of a poll comes to its end. -/
theorem turn_done {o : Owner} (ho : o ≠ .embedding)
    (hw : Within t c h (nativeHere (some o)) w) (r : o.Result H)
    (hq : Control.Plain (.host o (.done (o.recording r)) : Control H.recording)) :
    Turn host replies args t c h (ys, ⟨w, .host o (.done r)⟩)
      ⟨w.recording ys, .host o (.done (o.recording r))⟩ := by
  cases o with
  | embedding => exact absurd rfl ho
  | native name => exact turn_leave hw (.values r) (fun _ _ _ => rfl) (fun _ _ _ => rfl) rfl
  | poll name =>
    have hw' : Within t c h 0 w := hw
    cases r with
    | «return» vs =>
      exact turn_of_moves (fun _ _ _ => rfl) (fun _ _ _ => rfl) rfl (.drive hw' (.values vs))
    | call callee args next =>
      have hm := invoke host replies (hw'.pushFrame ⟨name, next⟩) ys callee args
      rw [← World.pushFrame_recording] at hm
      exact turn_of_moves (fun _ _ _ => rfl) (fun _ _ _ => rfl) rfl hm
    | tailCall callee args =>
      exact turn_of_moves (fun _ _ _ => rfl) (fun _ _ _ => rfl) rfl
        (invoke host replies hw' ys callee args)
    | yield vs next => exact absurd rfl (hq.noYield name vs next.recording)

/-- A coroutine is created, or the request is refused. -/
theorem turn_create {o : Owner} (ho : o ≠ .embedding)
    (hw : Within t c h (nativeHere (some o)) w) (body : Value)
    (rest : Except ArgumentError ThreadId → Program H (o.Result H)) :
    Turn host replies args t c h (ys, ⟨w, .host o (.create body rest)⟩)
      ⟨w.recording ys, .host o ((Program.create body rest).recording o.recording)⟩ := by
  have hrec := w.createCoroutine_recording ys body
  have hres : (∃ e, w.createCoroutine body = .error e) ∨ ∃ s,
      w.createCoroutine body = .ok (⟨w.threads.size⟩, { w with threads := w.threads.push s }) := by
    cases body with
    | function f => exact .inr ⟨_, rfl⟩
    | _ => exact .inl ⟨_, rfl⟩
  rcases hres with ⟨e, he⟩ | ⟨new, he⟩
  · rw [he] at hrec
    refine turn_of_step ho (q := rest (.error e)) hw (fun s => ?_) (fun s => ?_)
    · simp only [step, serve, he]
    · simp only [step, Program.recording, serve, hrec, Except.map]
  · rw [he] at hrec
    refine turn_of_step ho (q := rest (.ok ⟨w.threads.size⟩)) (hw.create new) (fun s => ?_)
      (fun s => ?_)
    · simp only [step, serve, he]
    · simp only [step, Program.recording, serve, hrec, Except.map]

/-- A coroutine is closed, or the request is refused. -/
theorem turn_close {o : Owner} (ho : o ≠ .embedding)
    (hw : Within t c h (nativeHere (some o)) w) (u : ThreadId)
    (rest : Except CoroutineError Unit → Program H (o.Result H)) :
    Turn host replies args t c h (ys, ⟨w, .host o (.close u rest)⟩)
      ⟨w.recording ys, .host o ((Program.close u rest).recording o.recording)⟩ := by
  have hrec := w.closeCoroutine_recording ys u
  by_cases hs : (w.thread u).status = .suspended ∨ (w.thread u).status = .dead
  · have he := w.closeCoroutine_eq u
    rw [if_pos hs] at he
    rw [he] at hrec
    refine turn_of_step ho (q := rest (.ok ())) (hw.close hs) (fun s => ?_) (fun s => ?_)
    · simp only [step, serve, he]
    · simp only [step, Program.recording, serve, hrec, Except.map]
  · have he := w.closeCoroutine_eq u
    rw [if_neg hs] at he
    rw [he] at hrec
    refine turn_of_step ho (q := rest (.error (.closeActive (w.thread u).status))) hw
      (fun s => ?_) (fun s => ?_)
    · simp only [step, serve, he]
    · simp only [step, Program.recording, serve, hrec, Except.map]

/-- The code of a native function or of a poll goes on. -/
theorem turn_host {o : Owner} (ho : o ≠ .embedding)
    (hw : Within t c h (nativeHere (some o)) w) (p : Program H (o.Result H))
    (hq : Control.Plain (.host o (p.recording o.recording) : Control H.recording)) :
    Turn host replies args t c h (ys, ⟨w, .host o p⟩)
      ⟨w.recording ys, .host o (p.recording o.recording)⟩ := by
  cases p with
  | done r => exact turn_done ho hw r hq
  | fail e =>
    cases o with
    | embedding => exact absurd rfl ho
    | native name =>
      exact turn_leave hw (.error (e.leave name)) (fun _ _ _ => rfl) (fun _ _ _ => rfl) rfl
    | poll name =>
      exact turn_of_moves (fun _ _ _ => rfl) (fun _ _ _ => rfl) rfl
        (.drive hw (.error (e.leave name)))
  | read rest =>
    refine turn_of_step ho (q := rest w) hw (fun _ => rfl) (fun s => ?_)
    simp only [step, Program.recording, serve, World.plain_recording]
  | write m rest =>
    -- The log has to be read first, which takes one move more.
    have hread : Course.Moves ((Behaviour.standard host).recording replies) t c
        ⟨w.recording ys, .host o ((Program.write m rest).recording o.recording)⟩
        ⟨w.recording ys, .host o
          (.write (m.recording ys) fun u => (rest u).recording o.recording)⟩ :=
      fun _ _ _ => rfl
    have hwrite : Course.Moves ((Behaviour.standard host).recording replies) t c
        ⟨w.recording ys, .host o
          (.write (m.recording ys) fun u => (rest u).recording o.recording)⟩
        ⟨World.recording { w with memory := m } ys,
          .host o ((rest ()).recording o.recording)⟩ := fun _ _ _ => rfl
    have hw' : Within t c h (nativeHere (some o)) { w with memory := m } :=
      hw.congr (fun _ _ => rfl) rfl rfl rfl rfl rfl hw.depth
    have hx : Course.Moves (.standard host) t c ⟨w, .host o (.write m rest)⟩
        ⟨{ w with memory := m }, .host o (rest ())⟩ := fun _ _ _ => rfl
    have hread' : Course.Records host replies t c _ _ := ⟨hread, List.prefix_rfl⟩
    have hwrite' : Course.Records host replies t c _ _ := ⟨hwrite, List.prefix_rfl⟩
    exact .inl ⟨_, .move hx, _, .tail (.single hread') hwrite', .host ho hw' _⟩
  | define closure rest =>
    have hw' : Within t c h (nativeHere (some o)) (w.define closure).2 :=
      hw.congr (fun _ _ => rfl) rfl rfl rfl rfl rfl hw.depth
    refine turn_of_step ho (q := rest (w.define closure).1) hw' (fun _ => rfl) (fun s => ?_)
    simp only [step, Program.recording, serve, World.define_recording]
  | call callee args' rest => exact absurd rfl (hq.noCall o callee args' _)
  | resume u args' rest => exact absurd rfl (hq.noResume o u args' _)
  | create body rest => exact turn_create ho hw body rest
  | close u rest => exact turn_close ho hw u rest
  | loop l rest =>
    refine turn_of_step ho hw (fun _ => rfl) (fun s => ?_)
    simp only [step, Program.recording, serve]
    rw [Program.recording_bind]
    congr 3
    refine congrArg (Program.bind (Program.recording id (host.advance l))) ?_
    funext r
    cases r <;> rfl

/-- The function that yields is polled; the one that records reads the log. -/
theorem turn_called (hw : Within t c h 0 w) (name : String) (vs : List Value) :
    Turn host replies args t c h
      (ys, ⟨w.pushFrame t ⟨name, .yield false⟩, .drive (.values vs)⟩)
      ⟨(w.inNative t).recording ys, .host (.native name) (Behaviour.recorder replies vs)⟩ := by
  have hf : ((w.pushFrame t ⟨name, .yield false⟩).thread t).frames
      = ⟨name, .yield false⟩ :: (w.thread t).frames := by
    rw [World.pushFrame, World.thread_modifyThread (World.has_of_running hw.running), if_pos rfl]
  have hx := Course.moves_of_frames (B := .standard host) (c := c) hf (.values vs)
  rw [World.setFrames_pushFrame] at hx
  exact turn_of_moves hx (Course.recorder_reads _ name replies vs) rfl (.yielding hw name vs)

/-- The one yields and is resumed with the reply; the other writes the log. -/
theorem turn_yielding (hw : Within t c h 0 w) (name : String) (vs : List Value) :
    Turn host replies args t c h
      (ys, ⟨w, .host (.poll name) (.done (.yield vs (.yield true)))⟩)
      ⟨(w.inNative t).recording ys, .host (.native name)
        (.write (((w.inNative t).recording ys).noted vs).memory fun _ =>
          Behaviour.lookUp replies)⟩ := by
  have hpush := hw.pushFrame ⟨name, .yield true⟩
  obtain ⟨hcur, hsus, hrun⟩ := hpush.left_yielded vs
  obtain ⟨r, hr, -, hlen⟩ := hpush.chain
  -- The resume ends; the next one is allowed, and finds what the last has left.
  have hends := Course.ends_of_yield (B := .standard host) hw.waiting hw.running hw.checkYield
    name vs (.yield true)
  set parked := (w.pushFrame t ⟨name, .yield true⟩).left t c (.yielded vs) with hparked
  have hagain : parked.entered t = w.pushFrame t ⟨name, .yield true⟩ := hpush.entered_left vs
  have henter : parked.enterCoroutine t = .ok (parked.entered t) := by
    refine Course.enterCoroutine_of_suspended ?_ hsus ?_ ?_
    · rw [hcur]
      exact hrun
    · show (w.pushFrame t ⟨name, .yield true⟩).running.tail.length < w.limits.maxResumeDepth
      rw [hr]
      exact hlen
    · have hroom := hw.room
      have hdepth := hw.depth
      show w.hostDepth - 1 < w.limits.maxHostDepth
      omega
  have hstart : Course.Starts (.standard host) parked t (inputsOf args replies (ys.length + 1))
      ⟨parked.entered t, .drive (.values (replies ys.length))⟩ := by
    refine Course.starts_of_no_body henter ?_
    rw [hagain]
    exact hpush.body
  rw [hagain] at hstart
  have hwrite : Course.Records host replies t c _ _ :=
    ⟨Course.recorder_writes ((w.inNative t).recording ys) name replies vs,
      List.prefix_append ys [vs]⟩
  exact .inl ⟨_, .again hends hsus hcur hstart, _, .single hwrite, .resumed hw name vs⟩

/-- The function that yielded is polled again; the one that records looks up the reply. -/
theorem turn_resumed (hw : Within t c h 0 w) (name : String) (vs : List Value) :
    Turn host replies args t c h
      (ys ++ [vs], ⟨w.pushFrame t ⟨name, .yield true⟩, .drive (.values (replies ys.length))⟩)
      ⟨(w.inNative t).recording (ys ++ [vs]), .host (.native name)
        (Behaviour.lookUp replies)⟩ := by
  have hf : ((w.pushFrame t ⟨name, .yield true⟩).thread t).frames
      = ⟨name, .yield true⟩ :: (w.thread t).frames := by
    rw [World.pushFrame, World.thread_modifyThread (World.has_of_running hw.running), if_pos rfl]
  have hx := Course.moves_of_frames (B := .standard host) (c := c) hf
    (.values (replies ys.length))
  rw [World.setFrames_pushFrame] at hx
  have hx' := Course.recorder_looksUp (B := (Behaviour.standard host).recording replies)
    (t := t) (c := c) ((w.inNative t).recording (ys ++ [vs])) name replies
  rw [World.log_recording, List.length_append, List.length_singleton, Nat.add_sub_cancel] at hx'
  exact turn_of_moves hx hx' rfl (.returning hw name vs)

/-- From states that belong together both runs get to such states, or both end alike. -/
theorem turn {p : List (List Value) × Course H} {q : Course H.recording}
    (hm : Mirror replies t c h p q) (args : List Value) (hq : q.control.Plain) :
    Turn host replies args t c h p q := by
  cases hm with
  | drive hw input => exact turn_drive hw _ input
  | host ho hw p => exact turn_host ho hw p hq
  | called hw name vs => exact turn_called hw name vs
  | yielding hw name vs => exact turn_yielding hw name vs
  | resumed hw name vs => exact turn_resumed hw name vs
  | @returning ys w hw name vs =>
    have hx' := Course.recorder_returns (B := (Behaviour.standard host).recording replies)
      (t := t) (c := c) ((w.inNative t).recording (ys ++ [vs])) name (replies ys.length)
    rw [exitNative_recording, World.leave_inNative] at hx'
    exact turn_of_moves (fun _ _ _ => rfl) hx' rfl (.drive hw _)

end Mirror

end Lua
