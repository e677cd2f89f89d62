/-
Runs of sound code.

Code that is sound leads from trusted data to trusted data, and so does the machine that runs it:

* `World.Trusted` — kept by all that the scheduler does to a world;
* `World.Trusted.withLibraries` — and true of a fresh instance;
* `Machine.Falls.not_escape` — no yield gets past a host call;
* `Machine.Sound`, `Machine.Sound.step` — in a sound state all data are trusted and all code that
  runs or waits is sound, and a move leads to a sound state;
* `Machine.HonestRun.sound` — so does a run of sound programs.

Design notes: code is given only errors that are not internal, so that the machine must not make
internal ones.  That it makes none is read off the chain of resumes and the counters, and the
induction over a run carries no more than soundness.
-/
import Lua.Proofs.Bases
import Lua.Proofs.LibraryIntegrity

namespace Lua

variable {H : Host} {T : Trust H}

open Machine

/-! ### Trusted worlds -/

namespace World.Trusted

variable {w w' : World H}

/-- A change of a thread to one with trusted frames. -/
theorem changeFrames (h : w.Trusted T) (t : ThreadId) {f : Thread H → Thread H}
    (hf : ∀ g ∈ (f (w.thread t)).frames, g.activation.Trusted T) :
    (w.modifyThread t f).Trusted T := by
  by_cases hh : w.Has t
  · refine ⟨h.functions, fun u g hg => ?_, h.shared⟩
    rw [World.thread_modifyThread hh] at hg
    by_cases hu : u = t
    · rw [if_pos hu] at hg
      exact hf g hg
    · rw [if_neg hu] at hg
      exact h.frames u g hg
  · rw [World.modifyThread_of_not_has hh]
    exact h

/-- A change of a thread that adds no frames. -/
theorem modifyThread (h : w.Trusted T) (t : ThreadId) {f : Thread H → Thread H}
    (hf : ∀ s, (f s).frames ⊆ s.frames := by intro s; exact List.Subset.refl _) :
    (w.modifyThread t f).Trusted T :=
  h.changeFrames t fun g hg => h.frames t g (hf _ hg)

theorem pushFrame (h : w.Trusted T) (t : ThreadId) {f : Frame H} (hf : f.activation.Trusted T) :
    (w.pushFrame t f).Trusted T := by
  refine h.changeFrames t fun g hg => ?_
  rcases List.mem_cons.mp hg with rfl | hg
  · exact hf
  · exact h.frames t g hg

theorem define (h : w.Trusted T) {c : Closure H} (hc : c.Trusted T) :
    (w.define c).2.Trusted T := by
  refine ⟨fun d hd => ?_, h.frames, h.shared⟩
  rcases Array.mem_push.mp hd with hd | rfl
  · exact h.functions d hd
  · exact hc

theorem create (h : w.Trusted T) (body : Option Value) :
    World.Trusted T { w with threads := w.threads.push (.fresh .suspended body) } := by
  refine ⟨h.functions, fun t f hf => ?_, h.shared⟩
  rw [World.thread_push] at hf
  by_cases ht : t = ⟨w.threads.size⟩
  · rw [if_pos ht] at hf
    exact absurd hf List.not_mem_nil
  · rw [if_neg ht] at hf
    exact h.frames t f hf

theorem entered (h : w.Trusted T) (t : ThreadId) : (w.entered t).Trusted T := by
  have h' := (h.modifyThread w.current (f := fun s => { s with status := .normal })).modifyThread t
    (f := fun s => { s with status := .running, resumer := some w.current })
  exact ⟨h'.functions, h'.frames, h'.shared⟩

theorem left (h : w.Trusted T) (t c : ThreadId) (oc : Outcome) : (w.left t c oc).Trusted T := by
  have h' := (h.modifyThread c (f := fun s => { s with status := .running })).modifyThread t
    (f := fun s => { s with status := oc.status, resumer := none, frames := oc.keep s.frames })
    fun s => by
      cases oc with
      | yielded vs => exact List.Subset.refl _
      | returned vs => exact List.nil_subset _
      | failed e => exact List.nil_subset _
  exact ⟨h'.functions, h'.frames, h'.shared⟩

/-- A fresh world has no frames. -/
theorem of_fresh (hw : w.IsFresh) (hf : ∀ c ∈ w.functions, c.Trusted T)
    (hs : T.shared w.memory.shared) : w.Trusted T := by
  refine ⟨hf, fun t f hft => ?_, hs⟩
  by_cases ht : t = .main
  · rw [ht, hw.thread_main] at hft
    exact absurd hft List.not_mem_nil
  · rw [hw.thread_ne ht] at hft
    exact absurd hft List.not_mem_nil

theorem initial (limits : Configuration) {shared : H.Shared} (hs : T.shared shared) :
    (World.initial limits shared).Trusted T :=
  of_fresh (isFresh_initial limits shared) (fun _ hc => absurd hc (Array.not_mem_empty _)) hs

theorem defineAll (h : w.Trusted T) {cs : List (Closure H)} (hcs : ∀ c ∈ cs, c.Trusted T) :
    (w.defineAll cs).2.Trusted T := by
  induction cs generalizing w with
  | nil => exact h
  | cons c cs ih =>
    obtain ⟨hc, hcs⟩ := List.forall_mem_cons.mp hcs
    exact ih (h.define hc) hcs

/-- Binding a library changes nothing of what the host shares. -/
theorem shared_bind (l : Library) (created : List (String × Function)) (m : Memory H) :
    (l.bind created m).shared = m.shared := by
  have hfold : ∀ {α : Type} (g : Memory H → α → Memory H), (∀ m a, (g m a).shared = m.shared) →
      ∀ (xs : List α) (m : Memory H), (xs.foldl g m).shared = m.shared := by
    intro α g hg xs
    induction xs with
    | nil => exact fun m => rfl
    | cons x xs ih => exact fun m => (ih (g m x)).trans (hg m x)
  have hconstants : ∀ t (m : Memory H), (l.addConstants t m).shared = m.shared := by
    intro t m
    unfold Library.addConstants
    split
    · rfl
    · split
      · rfl
      · split
        · rfl
        · split
          · refine hfold _ ?_ _ m
            exact fun _ _ => rfl
          · rfl
  unfold Library.bind
  split
  · refine (hconstants _ _).trans (hfold _ ?_ _ m)
    exact fun _ _ => rfl
  · refine (hconstants _ _).trans (hfold _ ?_ _ (m.allocate .empty).2)
    exact fun _ _ => rfl

theorem openLibrary (h : w.Trusted T) (l : Library) : (w.openLibrary l).Trusted T := by
  have h' : (w.defineAll (l.sequences.map .sequence)).2.Trusted T := by
    refine h.defineAll fun c hc => ?_
    obtain ⟨c, hl, rfl⟩ := List.mem_map.mp hc
    unfold Library.sequences at hl
    split at hl
    · rcases List.mem_pair.mp hl with rfl | rfl
      · trivial
      · trivial
    · split at hl
      · obtain rfl := List.mem_singleton.mp hl
        trivial
      · exact absurd hl List.not_mem_nil
  exact ⟨h'.functions, h'.frames, (shared_bind l _ _).symm ▸ h'.shared⟩

/-- So is an instance with the standard libraries. -/
theorem withLibraries (limits : Configuration) {shared : H.Shared} (hs : T.shared shared) :
    (World.withLibraries limits shared).Trusted T :=
  World.keep_withLibraries (initial limits hs) fun _ l hw => hw.openLibrary l

end World.Trusted

/-! ### Sound states -/

/-- What a piece of host code may come to: the frame of a poll is left in a trusted state. -/
def Owner.Trusted (T : Trust H) : (o : Owner) → o.Result H → Prop
  | .embedding => fun _ => True
  | .native _ => fun _ => True
  | .poll _ => Step.Trusted T

/-- Whether frames come to their end with an internal error. -/
def Outcome.isInternal : Outcome → Bool
  | .failed e => e.isInternal
  | _ => false

/-- The code that waits goes on with every answer but an internal error. -/
def Boundary.Sound (T : Trust H) : Boundary H → Prop
  | .call _ _ o rest => ∀ r, Clean TracedError.isInternal r → (rest r).Sound T (o.Trusted T)
  | .resume _ _ o rest => ∀ r, Clean ResumeError.isInternal r → (rest r).Sound T (o.Trusted T)

def Control.Sound (T : Trust H) : Control H → Prop
  | .host o p => p.Sound T (o.Trusted T)
  | .drive input => input.outcome.isInternal = false

/-- All data are trusted, and all code is sound. -/
structure Machine.Sound (T : Trust H) (m : Machine H) : Prop where
  world : m.world.Trusted T
  stack : ∀ b ∈ m.stack, b.Sound T
  control : m.control.Sound T

theorem Outcome.clean_handed {oc : Outcome} (h : oc.isInternal = false) (t : ThreadId) :
    Clean ResumeError.isInternal (oc.handed t) := by
  cases oc with
  | yielded vs => exact clean_ok vs
  | returned vs => exact clean_ok vs
  | failed e => exact clean_error h

theorem Outcome.clean_answer {oc : Outcome} (h : oc.isInternal = false)
    (hy : ∀ vs, oc ≠ .yielded vs) : Clean TracedError.isInternal oc.answer := by
  cases oc with
  | yielded vs => exact absurd rfl (hy vs)
  | returned vs => exact clean_ok vs
  | failed e => exact clean_error h

theorem Machine.IsRefusal.isInternal {e : CoroutineError} (h : IsRefusal e) :
    e.isInternal = false := by
  rcases h with rfl | ⟨_, rfl⟩ | ⟨_, rfl⟩ | ⟨_, rfl⟩
  all_goals rfl

namespace World

variable {w : World H}

/-- Why a yield is not allowed. -/
theorem isInternal_of_checkYield {t : ThreadId} {e : CoroutineError}
    (h : w.checkYield t = .error e) : e.isInternal = false := by
  rw [checkYield] at h
  by_cases ht : t = .main
  · rw [if_pos ht] at h
    cases h
    rfl
  · rw [if_neg ht] at h
    by_cases hn : 0 < (w.thread t).nonYieldable
    · rw [if_pos hn] at h
      cases h
      rfl
    · rw [if_neg hn] at h
      cases h

/-- A function that is entered runs sound code or is a trusted sequence. -/
theorem enter_sound {B : Behaviour H} (hB : B.Sound T) (hw : w.Trusted T) (f : Function)
    (args : List Value) : (∃ p, B.enter w f args = .native p ∧ p.Sound T fun _ => True) ∨
      ∃ a, B.enter w f args = .sequence a ∧ a.Trusted T := by
  cases f with
  | builtin b => exact .inl ⟨_, rfl, hB.builtin b args⟩
  | created i =>
    rw [Behaviour.enter]
    cases hf : w.functions[i]? with
    | none => exact .inl ⟨_, rfl, trivial⟩
    | some c =>
      have hc : c.Trusted T := hw.functions c (Array.mem_of_getElem? hf)
      cases c with
      | native c => exact .inl ⟨_, rfl, hB.native c hc args⟩
      | sequence c => exact .inr ⟨_, rfl, hB.start c hc⟩

/-- The start of a call. -/
theorem invoke_sound {B : Behaviour H} (hB : B.Sound T) (hw : w.Trusted T) (t : ThreadId)
    (callee : Value) (args : List Value) :
    (w.invoke B t callee args).1.Trusted T ∧ (w.invoke B t callee args).2.Sound T := by
  rw [invoke]
  cases w.memory.heap.prepareCall callee args with
  | error e => exact ⟨hw, rfl⟩
  | ok call =>
    obtain ⟨f, args⟩ := call
    simp only
    by_cases hd : w.limits.maxCallDepth ≤ (w.thread t).callDepth
    · rw [if_pos hd]
      exact ⟨hw, rfl⟩
    · rw [if_neg hd]
      rcases enter_sound hB hw f args with ⟨p, hf, hp⟩ | ⟨a, hf, ha⟩
      · rw [hf]
        by_cases hh : w.limits.maxHostDepth ≤ w.hostDepth
        · simp only [enterHost, if_pos hh]
          exact ⟨hw, rfl⟩
        · simp only [enterHost, if_neg hh]
          have hw' : World.Trusted T { w with hostDepth := w.hostDepth + 1 } :=
            ⟨hw.functions, hw.frames, hw.shared⟩
          exact ⟨hw'.modifyThread t, hp⟩
      · rw [hf]
        exact ⟨hw.pushFrame t ha, rfl⟩

end World

namespace Machine

variable {B : Behaviour H} {m m' last : Machine H} {b : Boundary H} {s : List (Boundary H)}
  {w : World H} {oc : Outcome} {t c : ThreadId} {o : Owner}

/-! ### How boundaries fall -/

/-- No yield gets past a host call. -/
theorem Falls.not_escape (hm : Reachable B m) {base : Nat}
    {rest : Except TracedError (List Value) → Program H (o.Result H)}
    (hf : Falls m (.call t base o rest) w oc) (hs : m.stack = .call t base o rest :: s)
    (vs : List Value) : oc ≠ .yielded vs := by
  cases hf with
  | left input hc hf =>
    cases input with
    | values vs => exact Outcome.noConfusion
    | error e => exact Outcome.noConfusion
  | yielded name vs next hc hy =>
    have hx : Counted ⟨m.world, .call t base o rest :: s, m.control.active⟩ := hs ▸ hm.counted
    exact absurd hy hx.not_escape

/-- The driven frames come to an end with no internal error. -/
theorem Sound.falls (h : m.Sound T) (hf : Falls m b w oc) :
    w.Trusted T ∧ oc.isInternal = false := by
  have hc := h.control
  cases hf with
  | left input hin hf =>
    rw [hin] at hc
    exact ⟨h.world, hc⟩
  | yielded name vs next hin hy =>
    rw [hin] at hc
    exact ⟨h.world.pushFrame _ hc, rfl⟩

/-- The fall of a boundary answers the code that waits behind it. -/
theorem Falls.answers (hm : Reachable B m) (h : m.Sound T) (hf : Falls m b w oc)
    (hs : m.stack = b :: s) (hfall : fall w oc (b :: s) = some m') : m'.Sound T := by
  obtain ⟨hw, hoc⟩ := h.falls hf
  have hstack : ∀ b' ∈ s, b'.Sound T := fun b' hb' =>
    h.stack b' (hs ▸ List.mem_cons_of_mem b hb')
  have hb : b.Sound T := h.stack b (hs ▸ List.mem_cons_self)
  cases b with
  | call t base o rest =>
    cases hfall
    have hclean := Outcome.clean_answer hoc (hf.not_escape hm hs)
    have hw' := hw.modifyThread t (f := fun x => { x with nonYieldable := x.nonYieldable - 1 })
    exact ⟨⟨hw'.functions, hw'.frames, hw'.shared⟩, hstack, hb _ hclean⟩
  | resume t c o rest =>
    obtain ⟨rfl, -⟩ := hf.answer hm hs hfall
    exact ⟨hw.left t c oc, hstack, hb _ (Outcome.clean_handed hoc t)⟩

/-! ### Moves -/

theorem perform_sound (hB : B.Sound T) (hm : Reachable B m) (h : m.Sound T) {name : String}
    {st : Step H} (hc : m.control = .host (.poll name) (.done st)) (hs : m.step B = some m') :
    m'.Sound T := by
  obtain ⟨w, s, control⟩ := m
  obtain rfl : control = _ := hc
  have hst : st.Trusted T := h.control
  have hp : perform B w s name st = some m' := hs
  cases st with
  | «return» vs =>
    cases hp
    exact ⟨h.world, h.stack, rfl⟩
  | call callee args next =>
    cases hp
    obtain ⟨hw, hcontrol⟩ := World.invoke_sound hB
      (h.world.pushFrame (driven s) (f := ⟨name, next⟩) hst) (driven s) callee args
    exact ⟨hw, h.stack, hcontrol⟩
  | tailCall callee args =>
    cases hp
    obtain ⟨hw, hcontrol⟩ := World.invoke_sound hB h.world (driven s) callee args
    exact ⟨hw, h.stack, hcontrol⟩
  | yield vs next =>
    simp only [perform] at hp
    cases hy : w.checkYield (driven s) with
    | error e =>
      rw [hy] at hp
      cases hp
      exact ⟨h.world, h.stack, World.isInternal_of_checkYield hy⟩
    | ok u =>
      rw [hy] at hp
      cases s with
      | nil => exact absurd hp (by simp [fall])
      | cons b s => exact Falls.answers hm h (.yielded name vs next rfl hy) rfl hp

theorem beginCall_sound (hB : B.Sound T) (hw : w.Trusted T) (hs : ∀ b ∈ s, b.Sound T)
    (callee : Value) (args : List Value)
    {rest : Except TracedError (List Value) → Program H (o.Result H)}
    (hrest : ∀ r, Clean TracedError.isInternal r → (rest r).Sound T (o.Trusted T)) :
    (beginCall B w s o callee args rest).Sound T := by
  rw [beginCall_eq]
  by_cases hh : w.limits.maxHostDepth ≤ w.hostDepth
  · rw [if_pos hh]
    exact ⟨hw, hs, hrest _ (clean_error rfl)⟩
  · rw [if_neg hh]
    have hw' : World.Trusted T { w with hostDepth := w.hostDepth + 1 } :=
      ⟨hw.functions, hw.frames, hw.shared⟩
    obtain ⟨hcalled, hcontrol⟩ := World.invoke_sound hB (hw'.modifyThread w.current
      (f := fun x => { x with nonYieldable := x.nonYieldable + 1 })) w.current callee args
    exact ⟨hcalled, List.forall_mem_cons.mpr ⟨hrest, hs⟩, hcontrol⟩

theorem beginResume_sound (hB : B.Sound T) (hm : Reachable B m) (h : m.Sound T) (t : ThreadId)
    (args : List Value) {rest : Except ResumeError (List Value) → Program H (o.Result H)}
    (hrest : ∀ r, Clean ResumeError.isInternal r → (rest r).Sound T (o.Trusted T)) :
    (beginResume B m.world m.stack o t args rest).Sound T := by
  rw [beginResume]
  cases he : m.world.enterCoroutine t with
  | error e =>
    exact ⟨h.world, h.stack, hrest _ (clean_error (isRefusal_of_enterCoroutine hm he).isInternal)⟩
  | ok entered =>
    have hx : Chained ⟨m.world, m.stack, m.control.active⟩ := hm.chained
    obtain ⟨-, rfl⟩ := hx.entered_of_ok he
    have hstack : ∀ b ∈ .resume t m.world.current o rest :: m.stack, b.Sound T :=
      List.forall_mem_cons.mpr ⟨hrest, h.stack⟩
    simp only
    cases ((m.world.entered t).thread t).body with
    | none => exact ⟨h.world.entered t, hstack, rfl⟩
    | some body =>
      obtain ⟨hw, hcontrol⟩ := World.invoke_sound hB ((h.world.entered t).modifyThread t
        (f := fun x => { x with body := none })) t body args
      exact ⟨hw, hstack, hcontrol⟩

/-- Moves of host code keep all data trusted and all code sound. -/
theorem serve_sound (hB : B.Sound T) (hm : Reachable B m) (h : m.Sound T)
    {p : Program H (o.Result H)} (hc : m.control = .host o p) (hs : m.step B = some m') :
    m'.Sound T := by
  obtain ⟨w, s, control⟩ := m
  obtain rfl : control = .host o p := hc
  have hp : p.Sound T (o.Trusted T) := h.control
  have hstep : serve B w s o p = some m' := hs
  have hleft : World.Trusted T ((w.exitNative (driven s)).exitHost) := by
    have hw := h.world.modifyThread (driven s)
      (f := fun x => { x with nativeDepth := x.nativeDepth - 1 })
    exact ⟨hw.functions, hw.frames, hw.shared⟩
  cases p with
  | done r =>
    cases o with
    | embedding => exact absurd hstep (by simp [serve, finish])
    | native name =>
      cases hstep
      exact ⟨hleft, h.stack, rfl⟩
    | poll name => exact perform_sound hB hm h rfl hs
  | fail e =>
    cases o with
    | embedding => exact absurd hstep (by simp [serve, abort])
    | native name =>
      cases hstep
      exact ⟨hleft, h.stack, (e.isInternal_leave name).trans hp⟩
    | poll name =>
      cases hstep
      exact ⟨h.world, h.stack, (e.isInternal_leave name).trans hp⟩
  | read rest =>
    cases hstep
    exact ⟨h.world, h.stack, hp w h.world⟩
  | write memory rest =>
    cases hstep
    exact ⟨⟨h.world.functions, h.world.frames, hp.1⟩, h.stack, hp.2⟩
  | define c rest =>
    cases hstep
    exact ⟨h.world.define hp.1, h.stack, hp.2 _⟩
  | call callee args rest =>
    cases hstep
    exact beginCall_sound hB h.world h.stack callee args hp
  | resume t args rest =>
    cases hstep
    exact beginResume_sound hB hm h t args hp
  | create body rest =>
    cases body with
    | function f =>
      cases hstep
      exact ⟨h.world.create _, h.stack, hp _⟩
    | _ =>
      cases hstep
      exact ⟨h.world, h.stack, hp _⟩
  | close t rest =>
    rw [serve, World.closeCoroutine_eq] at hstep
    by_cases ht : (w.thread t).status = .suspended ∨ (w.thread t).status = .dead
    · rw [if_pos ht] at hstep
      cases hstep
      exact ⟨h.world.modifyThread t fun _ => List.nil_subset _, h.stack, hp _ (clean_ok ())⟩
    · rw [if_neg ht] at hstep
      cases hstep
      exact ⟨h.world, h.stack, hp _ (clean_error rfl)⟩
  | loop state rest =>
    cases hstep
    refine ⟨h.world, h.stack, Program.sound_bind.mpr ((hB.advance state hp.1).imp ?_)⟩
    -- The loop goes on, or the code after it does.
    rintro (state' | answer) ha
    · exact ⟨ha, hp.2⟩
    · exact hp.2 answer ha

/-- **A move** keeps all data trusted and all code sound. -/
theorem Sound.step (hB : B.Sound T) (hm : Reachable B m) (h : m.Sound T)
    (hs : m.step B = some m') : m'.Sound T := by
  cases hc : m.control with
  | host o p => exact serve_sound hB hm h hc hs
  | drive input =>
    obtain ⟨w, s, control⟩ := m
    obtain rfl : control = .drive input := hc
    have hinput : input.outcome.isInternal = false := h.control
    cases s with
    | nil => exact absurd (show drive B w input [] = some m' from hs) (by simp [drive])
    | cons b s =>
      rcases drive_cases hm rfl rfl with ⟨hf, hfall⟩ | ⟨f, below, hg⟩
      · exact Falls.answers hm h (.left input rfl hf.le) rfl (hfall.symm.trans hs)
      · obtain rfl := Option.some.inj (hg.step.symm.trans hs)
        have hframes : ∀ g ∈ f :: below, g.activation.Trusted T := fun g hg' =>
          h.world.frames b.thread g (hg.frames ▸ hg')
        refine ⟨h.world.changeFrames b.thread fun g hg' =>
          hframes g (List.mem_cons_of_mem f hg'), h.stack, ?_⟩
        have hf := hframes f List.mem_cons_self
        cases input with
        | values vs => exact hB.poll f.activation hf vs
        | error e => exact hB.recover f.activation hf e hinput

/-! ### Runs -/

/-- The runs from fresh instances on which all data are trusted and all programs are sound. -/
inductive HonestRun (B : Behaviour H) (T : Trust H) : Machine H → Prop
  | start {w : World H} (hw : w.IsFresh) (ht : w.Trusted T) {p : Program H (List Value)}
      (hp : p.Sound T fun _ => True) : HonestRun B T (load w p)
  | step {m m' : Machine H} (hr : HonestRun B T m) (hs : m.step B = some m') : HonestRun B T m'
  | next {m : Machine H} {r : Except Raised (List Value)} (hr : HonestRun B T m)
      (hd : m.result? = some r) {p : Program H (List Value)} (hp : p.Sound T fun _ => True) :
      HonestRun B T (load m.world p)

namespace HonestRun

theorem reachable (hr : HonestRun B T m) : Reachable B m := by
  induction hr with
  | @start w hw ht p hp => exact ⟨[], .start hw p⟩
  | step hr hs ih => exact ih.step hs
  | @next m r hr hd p hp ih =>
    obtain ⟨h, hrun⟩ := ih
    exact ⟨h, hrun.next hd p⟩

theorem run (hr : HonestRun B T m) (n : Nat) : HonestRun B T (m.run B n) := by
  induction n generalizing m with
  | zero => exact hr
  | succ n ih =>
    rw [Machine.run]
    cases hs : m.step B with
    | none => exact hr
    | some m' => exact ih (hr.step hs)

/-- **Every run** keeps all data trusted and all code sound. -/
theorem sound (hB : B.Sound T) (hr : HonestRun B T m) : m.Sound T := by
  induction hr with
  | start hw ht hp => exact ⟨ht, fun b hb => absurd hb List.not_mem_nil, hp⟩
  | step hr hs ih => exact ih.step hB hr.reachable hs
  | next hr hd hp ih => exact ⟨ih.world, fun b hb => absurd hb List.not_mem_nil, hp⟩

end HonestRun

end Machine

end Lua
