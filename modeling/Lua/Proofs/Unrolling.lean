/-
Tail calls and calls in their place.

A tail call can be unrolled: the sequence calls instead, waits, and hands on what it is given.  This
file says what two instances have in common of which one runs the tail calls and the other the
calls:

* `Behaviour.HandsOn` — a sequence in a state in which it hands on the outcome of a call;
* `HostCode.Unrolls` — the code of two hosts is the same but for tail calls that are unrolled;
* `HostCode.Unrolls.standard` — so is all the code of their instances;
* `World.Unrolled` — two worlds are the same but for frames in the second that hand on;
* `World.Unrolled.invoke` — a call begins in the same way in both.

Design notes: the frames of a thread of the second world are slots, its own or relays; without the
relays they are the frames of the first world.  The slots are an argument of the relation, for what
the boundaries leave alone is counted in slots too.
-/
import Lua.Proofs.Bases
import Lua.Proofs.LibraryBlindness
import Mathlib.Data.List.DropRight
import Mathlib.Logic.Function.Basic

namespace Lua

variable {H : Host}

open Machine Program

/-! ### Code -/

/-- In the state `a` a sequence hands on the outcome of the call it has made: it returns the
results, and it lets an error pass. -/
structure Behaviour.HandsOn (B : Behaviour H) (a : Activation H) : Prop where
  poll : ∀ vs, B.poll a vs = .done (.return vs)
  recover : ∀ e, B.recover a e = .fail (.traced e)

/-- The same step, or a call in the place of a tail call. -/
inductive Step.Unrolled (B : Behaviour H) : Step H → Step H → Prop
  | refl (st) : Unrolled B st st
  | tailCall {callee args a} (ha : B.HandsOn a) :
      Unrolled B (.tailCall callee args) (.call callee args a)

/-- What the code of an owner comes to: steps are unrolled, and results are the same. -/
def Owner.Unrolled (B : Behaviour H) : (o : Owner) → o.Result H → o.Result H → Prop
  | .embedding => Eq
  | .native _ => Eq
  | .poll _ => Step.Unrolled B

/-- The code of `host'` is that of `host`, but some of its tail calls are unrolled.  Neither
observes frames or traces, and the engine for regular expressions is the same. -/
structure HostCode.Unrolls (host host' : HostCode H) : Prop where
  engine : host.engine = host'.engine
  native : ∀ code args, Tied Eq (host.native code args) (host'.native code args)
  start : ∀ code, host.start code = host'.start code
  poll : ∀ state input,
    Tied (Step.Unrolled (.standard host')) (host.poll state input) (host'.poll state input)
  recover : ∀ state e e', e.stripped = e'.stripped →
    Tied (Step.Unrolled (.standard host')) (host.recover state e) (host'.recover state e')
  advance : ∀ state, Tied Eq (host.advance state) (host'.advance state)

/-- The same for all the code behind the functions of an instance, the observers aside. -/
structure Behaviour.Unrolls (B B' : Behaviour H) : Prop where
  builtin : ∀ b, ¬ b.IsObserver → ∀ args, Tied Eq (B.builtin b args) (B'.builtin b args)
  native : ∀ c args, Tied Eq (B.native c args) (B'.native c args)
  start : ∀ c, B.start c = B'.start c
  poll : ∀ a input, Tied (Step.Unrolled B') (B.poll a input) (B'.poll a input)
  recover : ∀ a e e', e.stripped = e'.stripped →
    Tied (Step.Unrolled B') (B.recover a e) (B'.recover a e')
  advance : ∀ state, Tied Eq (B.advance state) (B'.advance state)

theorem Step.Unrolled.of_eq {B : Behaviour H} {st st' : Step H} (h : st = st') :
    Step.Unrolled B st st' := by
  rw [h]
  exact .refl st'

/-- **The code of the instances** is the same but for tail calls that are unrolled. -/
theorem HostCode.Unrolls.standard {host host' : HostCode H} (h : host.Unrolls host') :
    (Behaviour.standard host).Unrolls (.standard host') where
  builtin b hb args := by
    show Tied Eq (Library.run host.engine b args) (Library.run host'.engine b args)
    rw [h.engine]
    exact Library.blind_run host'.engine hb args
  native c args := by
    cases c with
    | wrap t => exact Library.Coroutines.blind_callWrapped t args
    | walk cell =>
      show Tied Eq (Library.Strings.walkStep host.engine cell)
        (Library.Strings.walkStep host'.engine cell)
      rw [h.engine]
      exact Library.Strings.blind_walkStep host'.engine cell
    | host name code => exact h.native code args
  start c := by
    cases c with
    | host name code => exact congrArg Activation.host (h.start code)
    | _ => rfl
  poll a input := by
    cases a with
    | protectedCall p =>
      exact (blind_liftM_argument (Library.pollProtected p input)).mono fun _ _ => .of_eq
    | yield suspended => exact .done (.refl _)
    | host state => exact h.poll state input
  recover a e e' he := by
    cases a with
    | yield suspended => exact .fail (congrArg TracedError.cause he)
    | host state => exact h.recover state e e' he
    | protectedCall p =>
      -- a protected call looks at the value of the error
      have hvalue : e.value = e'.value := TracedError.value_eq he
      cases p with
      | start withHandler => exact .fail (congrArg TracedError.cause he)
      | handling => exact .done (.of_eq (by rw [hvalue]))
      | calling handler =>
        cases handler with
        | none => exact .done (.of_eq (by rw [hvalue]))
        | some f => exact .done (.of_eq (by rw [hvalue]))
  advance := h.advance

/-! ### Inputs -/

def Input.stripped : Input → Input
  | .values vs => .values vs
  | .error e => .error e.stripped

def Outcome.stripped : Outcome → Outcome
  | .failed e => .failed e.stripped
  | o => o

theorem Input.stripped_outcome (i : Input) : i.outcome.stripped = i.stripped.outcome := by
  cases i with
  | values vs => rfl
  | error e => rfl

/-- Outcomes that differ in their traces keep all frames, or none. -/
theorem Outcome.keep_of_stripped {o o' : Outcome} (ho : o.stripped = o'.stripped) :
    (∀ fs : List (Frame H), o.keep fs = fs ∧ o'.keep fs = fs) ∨
      ∀ fs : List (Frame H), o.keep fs = [] ∧ o'.keep fs = [] := by
  cases o with
  | yielded vs =>
    cases o' with
    | yielded vs' => exact .inl fun _ => ⟨rfl, rfl⟩
    | returned | failed => cases ho
  | returned vs =>
    cases o' with
    | returned vs' => exact .inr fun _ => ⟨rfl, rfl⟩
    | yielded | failed => cases ho
  | failed e =>
    cases o' with
    | failed e' => exact .inr fun _ => ⟨rfl, rfl⟩
    | yielded | returned => cases ho

/-- What two machines do next is the same but for tail calls that are unrolled. -/
inductive Control.Unrolled (B : Behaviour H) : Control H → Control H → Prop
  | host {o : Owner} {p p' : Program H (o.Result H)} (h : Tied (o.Unrolled B) p p') :
      Unrolled B (.host o p) (.host o p')
  | drive {i i' : Input} (h : i.stripped = i'.stripped) : Unrolled B (.drive i) (.drive i')

/-! ### Slots -/

/-- A frame of the world with the calls: one that the other world has too, or a relay. -/
inductive Slot (H : Host) where
  | own (f : Frame H)
  | relay (f : Frame H)

namespace Slot

def frame : Slot H → Frame H
  | .own f => f
  | .relay f => f

/-- The frame in the world with the tail calls. -/
def own? : Slot H → Option (Frame H)
  | .own f => some f
  | .relay _ => none

end Slot

/-- The frames without the relays. -/
def owned (l : List (Slot H)) : List (Frame H) := l.filterMap Slot.own?

/-- The slots of all threads. -/
abbrev Slots (H : Host) : Type := ThreadId → List (Slot H)

namespace Slots

/-- Another slot on top of a thread. -/
def push (g : Slots H) (t : ThreadId) (x : Slot H) : Slots H := Function.update g t (x :: g t)

/-- The slots `g'` have those of `g` at the bottom. -/
def Extends (g' g : Slots H) : Prop := ∀ t n, n ≤ (g t).length → (g' t).rtake n = (g t).rtake n

theorem Extends.refl (g : Slots H) : g.Extends g := fun _ _ _ => rfl

theorem rtake_cons {α : Type} {x : α} {l : List α} {n : Nat} (h : n ≤ l.length) :
    (x :: l).rtake n = l.rtake n := by
  rw [List.rtake, List.rtake, List.length_cons, Nat.succ_sub h, List.drop_succ_cons]

theorem extends_push (g : Slots H) (t : ThreadId) (x : Slot H) : (g.push t x).Extends g := by
  intro u n hn
  by_cases hu : u = t
  · subst hu
    rw [push, Function.update_self, rtake_cons hn]
  · rw [push, Function.update_of_ne hu]

end Slots

/-! ### Worlds -/

namespace World

variable {w w' : World H}

/-- Threads that differ in the frames change in the same way, up to the frames. -/
theorem unframed_modifyThread (h : w.unframed = w'.unframed) (t : ThreadId)
    {f k : Thread H → Thread H}
    (hf : ∀ s s', s.unframed = s'.unframed → (f s).unframed = (k s').unframed) :
    (w.modifyThread t f).unframed = (w'.modifyThread t k).unframed := by
  have hthreads : w.threads.map Thread.unframed = w'.threads.map Thread.unframed :=
    congrArg World.threads h
  have hmodified : (w.threads.modify t.index f).map Thread.unframed
      = (w'.threads.modify t.index k).map Thread.unframed := by
    apply Array.ext_getElem?
    intro i
    have hi := congrArg (fun a => a[i]?) hthreads
    simp only [Array.getElem?_map, Array.getElem?_modify] at hi ⊢
    by_cases ht : t.index = i
    · rw [if_pos ht, if_pos ht]
      cases hw : w.threads[i]? with
      | none =>
        cases hw' : w'.threads[i]? with
        | none => rfl
        | some s' => simp [hw, hw'] at hi
      | some s =>
        cases hw' : w'.threads[i]? with
        | none => simp [hw, hw'] at hi
        | some s' =>
          rw [hw, hw'] at hi
          exact congrArg some (hf s s' (Option.some.inj hi))
    · rw [if_neg ht, if_neg ht]
      exact hi
  exact congrArg (fun a => { w.unframed with threads := a }) hmodified |>.trans
    (congrArg (fun v : World H => { v with
      threads := (w'.threads.modify t.index k).map Thread.unframed }) h)

/-- A change that does not depend on the frames. -/
theorem unframed_modifyThread_same (h : w.unframed = w'.unframed) (t : ThreadId)
    {f : Thread H → Thread H}
    (hf : ∀ s, (f s).unframed = (f s.unframed).unframed) :
    (w.modifyThread t f).unframed = (w'.modifyThread t f).unframed :=
  unframed_modifyThread h t fun s s' hs => by rw [hf s, hs, ← hf s']

/-- A change of frames. -/
theorem unframed_of_frames (t : ThreadId) {f : Thread H → Thread H}
    (hf : ∀ s, (f s).unframed = s.unframed) :
    (w.modifyThread t f).unframed = w.unframed := by
  refine (unframed_modifyThread rfl t fun s s' hs => (hf s).trans hs).trans ?_
  exact congrArg unframed (modifyThread_eq_self (f := id) rfl)

/-- The end of a resume does not depend on the frames. -/
theorem unframed_left (h : w.unframed = w'.unframed) (t c : ThreadId) {o o' : Outcome}
    (ho : o.stripped = o'.stripped) : (w.left t c o).unframed = (w'.left t c o').unframed := by
  have hstatus : o.status = o'.status := by
    cases o <;> cases o' <;> first | rfl | cases ho
  have hcaller := unframed_modifyThread_same h c (f := fun s => { s with status := .running })
    fun _ => rfl
  have hboth := unframed_modifyThread hcaller t
    (f := fun s => { s with status := o.status, resumer := none, frames := o.keep s.frames })
    (k := fun s => { s with status := o'.status, resumer := none, frames := o'.keep s.frames })
    fun s s' hs => by
      rw [← hstatus]
      exact congrArg (fun s : Thread H => { s with status := o.status, resumer := none }) hs
  exact congrArg (fun v : World H => { v with
    running := v.running.tail
    hostDepth := v.hostDepth - 1 }) hboth

theorem unframed_pushFrame (t : ThreadId) (f : Frame H) :
    (w.pushFrame t f).unframed = w.unframed :=
  unframed_of_frames t fun _ => rfl

theorem unframed_setFrames (t : ThreadId) (fs : List (Frame H)) :
    (w.setFrames t fs).unframed = w.unframed :=
  unframed_of_frames t fun _ => rfl

/-- The worlds are the same but for the relays among the slots `g`, which the second one has. -/
structure Unrolled (B : Behaviour H) (g : Slots H) (w w' : World H) : Prop where
  rest : w.unframed = w'.unframed
  own : ∀ t, (w.thread t).frames = owned (g t)
  all : ∀ t, (w'.thread t).frames = (g t).map Slot.frame
  relays : ∀ t f, .relay f ∈ g t → B.HandsOn f.activation

namespace Unrolled

variable {B B' : Behaviour H} {g : Slots H} {v v' : World H} {t : ThreadId} {f : Frame H}
  {l : List (Slot H)}

theorem has_iff (h : Unrolled B g w w') (t : ThreadId) : w.Has t ↔ w'.Has t := has_congr h.rest t

theorem current (h : Unrolled B g w w') : w.current = w'.current :=
  view_congr World.current h.rest fun _ => rfl

theorem heap (h : Unrolled B g w w') : w.memory.heap = w'.memory.heap :=
  view_congr (fun v => v.memory.heap) h.rest fun _ => rfl

theorem limits (h : Unrolled B g w w') : w.limits = w'.limits :=
  view_congr World.limits h.rest fun _ => rfl

theorem hostDepth (h : Unrolled B g w w') : w.hostDepth = w'.hostDepth :=
  view_congr World.hostDepth h.rest fun _ => rfl

theorem functions (h : Unrolled B g w w') : w.functions = w'.functions :=
  view_congr World.functions h.rest fun _ => rfl

/-- What the threads have beside their frames. -/
theorem thread (h : Unrolled B g w w') {κ : Type} (view : Thread H → κ)
    (hview : ∀ s, view s.unframed = view s) :
    view (w.thread t) = view (w'.thread t) := by
  rw [← hview, thread_congr h.rest, hview]

/-- A thread of the first world has no more frames. -/
theorem callDepth_le (h : Unrolled B g w w') :
    (w.thread t).callDepth ≤ (w'.thread t).callDepth := by
  rw [Thread.callDepth, Thread.callDepth, h.own, h.all, h.thread Thread.nativeDepth fun _ => rfl,
    List.length_map]
  exact Nat.add_le_add_right (List.length_filterMap_le _ _) _

/-- Both worlds change, but their frames stay. -/
theorem keep (h : Unrolled B g w w') (hrest : v.unframed = v'.unframed)
    (hf : ∀ t, (v.thread t).frames = (w.thread t).frames)
    (hf' : ∀ t, (v'.thread t).frames = (w'.thread t).frames) : Unrolled B g v v' :=
  ⟨hrest, fun t => (hf t).trans (h.own t), fun t => (hf' t).trans (h.all t), h.relays⟩

/-- A change of a thread that keeps its frames. -/
theorem modifyThread (h : Unrolled B g w w') (t : ThreadId) {f : Thread H → Thread H}
    (hf : ∀ s, (f s).unframed = (f s.unframed).unframed)
    (hframes : ∀ s, (f s).frames = s.frames) :
    Unrolled B g (w.modifyThread t f) (w'.modifyThread t f) :=
  h.keep (unframed_modifyThread_same h.rest t hf)
    (fun _ => keep_modifyThread Thread.frames _ hframes)
    (fun _ => keep_modifyThread Thread.frames _ hframes)

/-- The slots of one thread change, with its frames. -/
theorem change (h : Unrolled B g w w') (hrest : v.unframed = v'.unframed)
    (hl : ∀ f, .relay f ∈ l → B.HandsOn f.activation)
    (hown : ∀ u, (v.thread u).frames = if u = t then owned l else (w.thread u).frames)
    (hall : ∀ u, (v'.thread u).frames = if u = t then l.map Slot.frame else (w'.thread u).frames) :
    Unrolled B (Function.update g t l) v v' := by
  refine ⟨hrest, fun u => ?_, fun u => ?_, fun u f hf => ?_⟩
  · rw [hown, Function.update_apply, apply_ite owned, h.own]
  · rw [hall, Function.update_apply, apply_ite (List.map Slot.frame), h.all]
  · rw [Function.update_apply] at hf
    by_cases hu : u = t
    · rw [if_pos hu] at hf
      exact hl f hf
    · rw [if_neg hu] at hf
      exact h.relays u f hf

/-- A frame of both worlds is pushed. -/
theorem pushFrame (h : Unrolled B g w w') (ht : w.Has t) (f : Frame H) :
    Unrolled B (g.push t (.own f)) (w.pushFrame t f) (w'.pushFrame t f) := by
  refine h.change ?_ (fun r hr => ?_) (fun u => ?_) fun u => ?_
  · rw [unframed_pushFrame, unframed_pushFrame, h.rest]
  · exact h.relays t r (List.mem_of_ne_of_mem (by simp) hr)
  · rw [World.pushFrame, thread_modifyThread ht, apply_ite Thread.frames, h.own t]
    rfl
  · rw [World.pushFrame, thread_modifyThread ((h.has_iff t).mp ht), apply_ite Thread.frames,
      h.all t]
    rfl

/-- A relay is pushed. -/
theorem pushRelay (h : Unrolled B g w w') (ht : w.Has t) (f : Frame H)
    (hf : B.HandsOn f.activation) :
    Unrolled B (g.push t (.relay f)) w (w'.pushFrame t f) := by
  refine h.change ?_ (fun r hr => ?_) (fun u => ?_) fun u => ?_
  · rw [unframed_pushFrame, h.rest]
  · rcases List.mem_cons.mp hr with he | hr
    · cases he
      exact hf
    · exact h.relays t r hr
  · by_cases hu : u = t
    · rw [if_pos hu, hu, h.own t]
      rfl
    · rw [if_neg hu]
  · rw [World.pushFrame, thread_modifyThread ((h.has_iff t).mp ht), apply_ite Thread.frames,
      h.all t]
    rfl

/-- Frames of both worlds are taken off. -/
theorem setFrames (h : Unrolled B g w w') (ht : w.Has t) (hl : l ⊆ g t) :
    Unrolled B (Function.update g t l) (w.setFrames t (owned l))
      (w'.setFrames t (l.map Slot.frame)) := by
  refine h.change ?_ (fun f hf => h.relays t f (hl hf)) (fun u => ?_) fun u => ?_
  · rw [unframed_setFrames, unframed_setFrames, h.rest]
  · rw [World.setFrames, thread_modifyThread ht, apply_ite Thread.frames]
  · rw [World.setFrames, thread_modifyThread ((h.has_iff t).mp ht), apply_ite Thread.frames]

/-- A relay is taken off. -/
theorem popRelay (h : Unrolled B g w w') (ht : w.Has t) (hg : g t = .relay f :: l) :
    Unrolled B (Function.update g t l) w (w'.setFrames t (l.map Slot.frame)) := by
  refine h.change ?_ (fun r hr => h.relays t r ?_) (fun u => ?_) fun u => ?_
  · rw [unframed_setFrames, h.rest]
  · rw [hg]
    exact List.mem_cons_of_mem _ hr
  · by_cases hu : u = t
    · rw [if_pos hu, hu, h.own, hg]
      rfl
    · rw [if_neg hu]
  · rw [World.setFrames, thread_modifyThread ((h.has_iff t).mp ht), apply_ite Thread.frames]

/-! #### The operations of the scheduler -/

/-- A change of anything but the threads. -/
theorem alter (h : Unrolled B g w w') (k : World H → World H)
    (hk : ∀ v, (k v).unframed = k v.unframed)
    (hthread : ∀ v t, (k v).thread t = v.thread t) :
    Unrolled B g (k w) (k w') :=
  h.keep (by rw [hk, hk, h.rest]) (fun t => congrArg Thread.frames (hthread w t))
    fun t => congrArg Thread.frames (hthread w' t)

theorem inNative (h : Unrolled B g w w') (t : ThreadId) :
    Unrolled B g (w.inNative t) (w'.inNative t) :=
  (h.alter (fun v => { v with hostDepth := v.hostDepth + 1 }) (fun _ => rfl)
    fun _ _ => rfl).modifyThread t (fun _ => rfl) fun _ => rfl

theorem exitNative (h : Unrolled B g w w') (t : ThreadId) :
    Unrolled B g (w.exitNative t).exitHost (w'.exitNative t).exitHost := by
  have hexit : Unrolled B g (w.exitNative t) (w'.exitNative t) :=
    h.modifyThread t (fun _ => rfl) fun _ => rfl
  exact hexit.alter World.exitHost (fun _ => rfl) fun _ _ => rfl

theorem leaveCall (h : Unrolled B g w w') (t : ThreadId) :
    Unrolled B g (w.leaveCall t) (w'.leaveCall t) := by
  have hexit : Unrolled B g (w.exitNonYieldable t) (w'.exitNonYieldable t) :=
    h.modifyThread t (fun _ => rfl) fun _ => rfl
  exact hexit.alter World.exitHost (fun _ => rfl) fun _ _ => rfl

/-- A thread is created, with the same number in both worlds. -/
theorem create (h : Unrolled B g w w') (body : Option Value) :
    (⟨w.threads.size⟩ : ThreadId) = ⟨w'.threads.size⟩ ∧
      Unrolled B g { w with threads := w.threads.push (.fresh .suspended body) }
        { w' with threads := w'.threads.push (.fresh .suspended body) } := by
  have hsize : w.threads.size = w'.threads.size :=
    view_congr (fun v => v.threads.size) h.rest fun v => Array.size_map
  have hframes : ∀ v : World H, ∀ t, (World.thread { v with
      threads := v.threads.push (.fresh .suspended body) } t).frames = (v.thread t).frames := by
    intro v t
    rw [thread_push]
    by_cases ht : t = ⟨v.threads.size⟩
    · have hnew : v.thread ⟨v.threads.size⟩ = .absent := thread_of_not_has (Nat.lt_irrefl _)
      rw [if_pos ht, ht, hnew]
      rfl
    · rw [if_neg ht]
  have hpush : ∀ v : World H, World.unframed { v with
      threads := v.threads.push (.fresh .suspended body) }
        = { v.unframed with threads := v.unframed.threads.push (.fresh .suspended body) } := by
    intro v
    simp only [unframed, Array.map_push]
    rfl
  refine ⟨congrArg ThreadId.mk hsize, h.keep ?_ (hframes w) (hframes w')⟩
  rw [hpush, hpush, h.rest]

/-- A thread is resumed. -/
theorem entered (h : Unrolled B g w w') (t : ThreadId) :
    Unrolled B g (w.entered t) (w'.entered t) := by
  refine h.keep ?_ (fun u => keep_entered Thread.frames u) fun u => keep_entered Thread.frames u
  have hcaller := unframed_modifyThread_same h.rest w.current
    (f := fun s => { s with status := .normal }) fun _ => rfl
  have hboth := unframed_modifyThread_same hcaller t
    (f := fun s => { s with status := .running, resumer := some w.current }) fun _ => rfl
  rw [World.entered, World.entered, ← h.current]
  exact congrArg (fun v : World H => { v with
    hostDepth := v.hostDepth + 1
    running := t :: v.running }) hboth

/-- A resume is accepted in both worlds, or it is refused in the same way. -/
theorem enterCoroutine (h : Unrolled B g w w') (hc : (w'.thread w'.current).status = .running) :
    w.enterCoroutine t = (w'.enterCoroutine t).map fun _ => w.entered t := by
  have hc' : (w.thread w.current).status = .running := by
    rw [h.current, h.thread Thread.status fun _ => rfl]
    exact hc
  rw [enterCoroutine_eq hc', enterCoroutine_eq hc, h.thread Thread.status fun _ => rfl, h.limits,
    h.hostDepth, view_congr World.running h.rest fun _ => rfl]
  split
  · rfl
  · split
    · rfl
    · split
      · rfl
      · rfl

/-- The end of a resume: slots that are gone were on the thread that has come to its end. -/
theorem left (h : Unrolled B g w w') {c : ThreadId} (hc : (w.thread c).status = .normal)
    (ht : (w.thread t).status = .running) {o o' : Outcome} (ho : o.stripped = o'.stripped) :
    ∃ l, Unrolled B (Function.update g t l) (w.left t c o) (w'.left t c o') := by
  have hstatus : ∀ u, (w.thread u).status = (w'.thread u).status := fun _ =>
    h.thread Thread.status fun _ => rfl
  have hc' : (w'.thread c).status = .normal := (hstatus c).symm.trans hc
  have ht' : (w'.thread t).status = .running := (hstatus t).symm.trans ht
  have hrest := unframed_left h.rest t c ho
  rcases Outcome.keep_of_stripped ho with hkeep | hkeep
  · refine ⟨g t, h.change hrest (h.relays t) (fun u => ?_) fun u => ?_⟩
    · rw [thread_left_frames hc ht, (hkeep _).1, h.own t]
    · rw [thread_left_frames hc' ht', (hkeep _).2, h.all t]
  · refine ⟨[], h.change hrest (fun _ hf => absurd hf List.not_mem_nil) (fun u => ?_) fun u => ?_⟩
    · rw [thread_left_frames hc ht, (hkeep _).1]
      rfl
    · rw [thread_left_frames hc' ht', (hkeep _).2]
      rfl

/-- A thread that is closed has no slots left. -/
theorem closed (h : Unrolled B g w w') (t : ThreadId) :
    Unrolled B (Function.update g t []) (w.closed t) (w'.closed t) := by
  have hframes : ∀ (v : World H) u,
      ((v.closed t).thread u).frames = if u = t then [] else (v.thread u).frames := by
    intro v u
    by_cases ht : v.Has t
    · rw [World.closed, thread_modifyThread ht, apply_ite Thread.frames]
    · rw [World.closed, modifyThread_of_not_has ht]
      by_cases hu : u = t
      · rw [if_pos hu, hu, thread_of_not_has ht]
        rfl
      · rw [if_neg hu]
  exact h.change (unframed_modifyThread_same h.rest t fun _ => rfl)
    (fun _ hf => absurd hf List.not_mem_nil) (hframes w) (hframes w')

/-! #### Calls -/

variable {callee : Value} {args : List Value} {fn : Function}

theorem nameOf (h : Unrolled B g w w') (fn : Function) : w.nameOf fn = w'.nameOf fn := by
  cases fn with
  | builtin b => rfl
  | created i => simp only [World.nameOf, h.functions]

/-- A function is entered: it is the same sequence, or native code that is tied. -/
theorem enter (hB : B.Unrolls B') (h : Unrolled B' g w w') (vs : List Value)
    (hfn : ∀ b, fn = .builtin b → ¬ b.IsObserver) :
    (∃ a, B.enter w fn vs = .sequence a ∧ B'.enter w' fn vs = .sequence a) ∨
      ∃ p p', B.enter w fn vs = .native p ∧ B'.enter w' fn vs = .native p' ∧ Tied Eq p p' := by
  cases fn with
  | builtin b => exact .inr ⟨_, _, rfl, rfl, hB.builtin b (hfn b rfl) vs⟩
  | created i =>
    simp only [Behaviour.enter, ← h.functions]
    cases w.functions[i]? with
    | none => exact .inr ⟨_, _, rfl, rfl, .done rfl⟩
    | some c =>
      cases c with
      | native c => exact .inr ⟨_, _, rfl, rfl, hB.native c vs⟩
      | sequence c => exact .inl ⟨_, rfl, congrArg Entry.sequence (hB.start c).symm⟩

/-- **A call begins** in the same way, if the second world has room for it and the function does not
report about frames. -/
theorem invoke (hB : B.Unrolls B') (h : Unrolled B' g w w') (ht : w.Has t)
    (hobs : ∀ b vs, w.memory.heap.prepareCall callee args = .ok (.builtin b, vs) →
      ¬ b.IsObserver)
    (hroom : ∀ fn vs, w'.memory.heap.prepareCall callee args = .ok (fn, vs) →
      (w'.thread t).callDepth < w'.limits.maxCallDepth) :
    ∃ g', g'.Extends g ∧
      Unrolled B' g' (w.invoke B t callee args).1 (w'.invoke B' t callee args).1 ∧
      Control.Unrolled B' (w.invoke B t callee args).2 (w'.invoke B' t callee args).2 := by
  rw [← h.heap] at hroom
  rw [World.invoke, World.invoke, ← h.heap]
  cases hp : w.memory.heap.prepareCall callee args with
  | error e => exact ⟨g, .refl g, h, .drive rfl⟩
  | ok call =>
    obtain ⟨fn, vs⟩ := call
    have hroom' := hroom fn vs hp
    have hle : (w.thread t).callDepth ≤ (w'.thread t).callDepth := h.callDepth_le
    have hlimits : w.limits.maxCallDepth = w'.limits.maxCallDepth := by rw [h.limits]
    simp only
    rw [if_neg (by omega), if_neg (by omega), ← h.nameOf fn]
    have hfn : ∀ b, fn = .builtin b → ¬ b.IsObserver := by
      rintro b rfl
      exact hobs b vs hp
    rcases h.enter hB vs hfn with ⟨a, ha, ha'⟩ | ⟨p, p', hn, hn', hpp⟩
    · rw [ha, ha']
      exact ⟨_, Slots.extends_push _ _ _, h.pushFrame ht _, .drive rfl⟩
    · rw [hn, hn']
      -- a native function takes a level of the host stack
      by_cases hh : w.limits.maxHostDepth ≤ w.hostDepth
      · have hh' : w'.limits.maxHostDepth ≤ w'.hostDepth := by rwa [← h.limits, ← h.hostDepth]
        simp only [World.enterHost, if_pos hh, if_pos hh']
        exact ⟨g, .refl g, h, .drive (by rw [h.hostDepth])⟩
      · have hh' : ¬ w'.limits.maxHostDepth ≤ w'.hostDepth := by rwa [← h.limits, ← h.hostDepth]
        simp only [World.enterHost, if_neg hh, if_neg hh']
        exact ⟨g, .refl g, h.inNative t, .host hpp⟩

end Unrolled

end World

end Lua
