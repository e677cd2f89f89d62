/-
Two machines, one with tail calls and one with calls in their place.

The machines make the same moves, but the second one has relays on its stacks, and takes them off
before it goes on:

* `Machine.Unrolled` — the states of the two machines;
* `Machine.Observes`, `Machine.Overflows` — a function is called that reports about frames, or a
  call is refused because the thread is at its greatest call depth;
* `Machine.Unwound` — no relay is next on the second machine;
* `Machine.Unrolled.step` — then the machines move in the same way, unless the first one observes or
  the second one overflows;
* `Machine.Unrolled.events` — and the life events are the same.

Design notes: a boundary leaves frames alone.  How many it leaves alone on the first machine is
counted in the slots that it leaves alone on the second.
-/
import Lua.Proofs.Unrolling

namespace Lua

variable {H : Host} {B B' : Behaviour H} {g g' : Slots H}

open Machine Program

/-! ### States -/

/-- Boundaries behind which code waits that goes on in the same way, up to tail calls that are
unrolled. -/
inductive Boundary.Unrolled (B : Behaviour H) (g : Slots H) : Boundary H → Boundary H → Prop
  | call {t base base' o} {rest rest' : Except TracedError (List Value) → Program H (o.Result H)}
      (hbase : base = (owned ((g t).rtake base')).length)
      (h : ∀ r r', r.mapError TracedError.stripped = r'.mapError TracedError.stripped →
        Tied (o.Unrolled B) (rest r) (rest' r')) :
      Unrolled B g (.call t base o rest) (.call t base' o rest')
  | resume {t c o} {rest rest' : Except ResumeError (List Value) → Program H (o.Result H)}
      (h : ∀ r r', r.mapError ResumeError.stripped = r'.mapError ResumeError.stripped →
        Tied (o.Unrolled B) (rest r) (rest' r')) :
      Unrolled B g (.resume t c o rest) (.resume t c o rest')

namespace Boundary.Unrolled

variable {b b' : Boundary H}

theorem thread (h : Unrolled B g b b') : b.thread = b'.thread := by
  cases h with
  | call => rfl
  | resume => rfl

theorem base (h : Unrolled B g b b') : b.base = (owned ((g b'.thread).rtake b'.base)).length := by
  cases h with
  | call hbase => exact hbase
  | resume =>
    show 0 = (owned (List.rtake _ 0)).length
    rw [List.rtake_zero]
    rfl

/-- If the second boundary leaves all slots alone, the first one leaves all frames alone. -/
theorem le_base (h : Unrolled B g b b') {w w' : World H} (hw : World.Unrolled B g w w')
    (hb : (w'.thread b'.thread).frames.length = b'.base) :
    (w.thread b'.thread).frames.length ≤ b.base := by
  have hall : (g b'.thread).length = b'.base := by
    rw [← hb, hw.all, List.length_map]
  rw [hw.own, h.base, ← hall, List.rtake, Nat.sub_self, List.drop_zero]

/-- If the second boundary does not leave the topmost slot alone, the first one does not leave its
frame alone. -/
theorem base_le (h : Unrolled B g b b') {x : Slot H} {l : List (Slot H)}
    (hg : g b'.thread = x :: l) (hb : b'.base ≤ l.length) : b.base ≤ (owned l).length := by
  rw [h.base, hg, Slots.rtake_cons hb]
  exact ((List.drop_sublist _ l).filterMap Slot.own?).length_le

/-- Only the slots that are left alone matter. -/
theorem congr (h : Unrolled B g b b')
    (hg : (g' b'.thread).rtake b'.base = (g b'.thread).rtake b'.base) : Unrolled B g' b b' := by
  cases h with
  | call hbase h =>
    refine .call (hbase.trans ?_) h
    exact congrArg (fun l => (owned l).length) hg.symm
  | resume h => exact .resume h

end Boundary.Unrolled

/-- The states of the two machines. -/
structure Machine.Unrolled (B : Behaviour H) (g : Slots H) (m m' : Machine H) : Prop where
  world : World.Unrolled B g m.world m'.world
  stack : List.Forall₂ (Boundary.Unrolled B g) m.stack m'.stack
  control : Control.Unrolled B m.control m'.control

/-- Boundaries of the two machines, one for one. -/
abbrev Stacked (B : Behaviour H) (g : Slots H) : List (Boundary H) → List (Boundary H) → Prop :=
  List.Forall₂ (Boundary.Unrolled B g)

namespace Stacked

variable {s s' : List (Boundary H)} {w w' : World H} {a : Option Owner} {t : ThreadId}
  {l : List (Slot H)} {x : Slot H}

theorem driven (h : Stacked B g s s') : driven s = driven s' := by
  cases h with
  | nil => rfl
  | cons hb _ => exact hb.thread

theorem congr (h : Stacked B g s s')
    (hg : ∀ b ∈ s', (g' b.thread).rtake b.base = (g b.thread).rtake b.base) :
    Stacked B g' s s' := by
  induction h with
  | nil => exact .nil
  | cons hb _ ih =>
    exact .cons (hb.congr (hg _ List.mem_cons_self))
      (ih fun b hs => hg b (List.mem_cons_of_mem _ hs))

/-- The boundaries leave alone slots that are there. -/
theorem extend (h : Stacked B g s s') (hw : World.Unrolled B g w w') (hb : Based ⟨w', s', a⟩)
    (hg : g'.Extends g) : Stacked B g' s s' := by
  refine h.congr fun b hs => hg b.thread b.base ?_
  have hlow : b.base ≤ (w'.thread b.thread).frames.length := hb.low b hs
  rwa [hw.all, List.length_map] at hlow

/-- A slot is taken off that no boundary leaves alone. -/
theorem pop (h : Stacked B g s s') (hg : g t = x :: l)
    (hlow : ∀ b ∈ s', b.thread = t → b.base ≤ l.length) :
    Stacked B (Function.update g t l) s s' := by
  refine h.congr fun b hs => ?_
  by_cases ht : b.thread = t
  · rw [ht, Function.update_self, hg, Slots.rtake_cons (hlow b hs ht)]
  · rw [Function.update_of_ne ht]

/-- The slots change of a thread that no boundary drives. -/
theorem change (h : Stacked B g s s') (ht : ∀ b ∈ s', b.thread ≠ t) :
    Stacked B (Function.update g t l) s s' :=
  h.congr fun b hs => by rw [Function.update_of_ne (ht b hs)]

end Stacked

/-! ### Calls -/

namespace Machine

/-- The function and the arguments of the call that the next move begins, if it begins one. -/
def request? (m : Machine H) : Option (Value × List Value) :=
  match m.control with
  | .host (.poll _) (.done (.call callee args _)) => some (callee, args)
  | .host (.poll _) (.done (.tailCall callee args)) => some (callee, args)
  | .host _ (.call callee args _) => some (callee, args)
  | .host _ (.resume t args _) => (m.world.thread t).body.map fun body => (body, args)
  | _ => none

theorem request?_call {w : World H} {s : List (Boundary H)} {owner : Owner} {callee : Value}
    {args : List Value} {rest : Except TracedError (List Value) → Program H (owner.Result H)} :
    request? ⟨w, s, .host owner (.call callee args rest)⟩ = some (callee, args) := by
  cases owner <;> rfl

theorem request?_resume {w : World H} {s : List (Boundary H)} {owner : Owner} {t : ThreadId}
    {args : List Value} {rest : Except ResumeError (List Value) → Program H (owner.Result H)} :
    request? ⟨w, s, .host owner (.resume t args rest)⟩
      = (w.thread t).body.map fun body => (body, args) := by
  cases owner <;> rfl

/-- The next move calls a function that reports about frames. -/
def Observes (m : Machine H) : Prop :=
  ∃ call ∈ m.request?, ∃ b vs,
    m.world.memory.heap.prepareCall call.1 call.2 = .ok (.builtin b, vs) ∧ b.IsObserver

instance (m : Machine H) : Decidable m.Observes :=
  match hc : m.request? with
  | none => isFalse fun ⟨_, h, _⟩ => by
    rw [hc] at h
    cases h
  | some (callee, args) =>
    match hp : m.world.memory.heap.prepareCall callee args with
    | .ok (.builtin b, vs) =>
      decidable_of_iff b.IsObserver <| by
        refine ⟨fun hb => ⟨(callee, args), hc, b, vs, hp, hb⟩, ?_⟩
        rintro ⟨_, h, b', vs', h', hb⟩
        cases hc.symm.trans h
        cases hp.symm.trans h'
        exact hb
    | .ok (.created i, vs) => isFalse fun ⟨_, h, b, vs', h', _⟩ => by
      cases hc.symm.trans h
      cases hp.symm.trans h'
    | .error e => isFalse fun ⟨_, h, b, vs', h', _⟩ => by
      cases hc.symm.trans h
      cases hp.symm.trans h'

/-- A call has just been refused because the driven thread is at its greatest call depth. -/
def Overflows (m : Machine H) : Prop :=
  let depth := (m.world.thread (driven m.stack)).callDepth
  m.world.limits.maxCallDepth ≤ depth ∧
    ∃ name, m.control = .drive (.error (.raisedBy name (.coroutine (.stackOverflow depth))))

/-- The next moves of both machines lead to such states again, or there are none. -/
abbrev Moved (B : Behaviour H) : Option (Machine H) → Option (Machine H) → Prop :=
  Option.Rel fun x x' => ∃ g, Machine.Unrolled B g x x'

section Calls

variable {w w' : World H} {s s' : List (Boundary H)} {a : Option Owner} {t : ThreadId}
  {callee : Value} {args : List Value}

/-- A call begins on both machines. -/
theorem Unrolled.invoke (hB : B.Unrolls B') (hw : World.Unrolled B' g w w')
    (hs : Stacked B' g s s') (hbased : Based ⟨w', s', a⟩) (ht : w.Has t) (hd : driven s' = t)
    (hobs : ∀ b vs, w.memory.heap.prepareCall callee args = .ok (.builtin b, vs) → ¬ b.IsObserver)
    (hover : ¬ Overflows ⟨(w'.invoke B' t callee args).1, s', (w'.invoke B' t callee args).2⟩) :
    ∃ g', Machine.Unrolled B' g' ⟨(w.invoke B t callee args).1, s, (w.invoke B t callee args).2⟩
      ⟨(w'.invoke B' t callee args).1, s', (w'.invoke B' t callee args).2⟩ := by
  have hroom : ∀ fn vs, w'.memory.heap.prepareCall callee args = .ok (fn, vs) →
      (w'.thread t).callDepth < w'.limits.maxCallDepth := by
    intro fn vs hp
    by_contra hn
    refine hover ?_
    rw [World.invoke, hp]
    simp only
    rw [if_pos (Nat.le_of_not_lt hn), ← hd]
    exact ⟨hd ▸ Nat.le_of_not_lt hn, _, rfl⟩
  obtain ⟨g', hg, hw', hc⟩ := hw.invoke hB ht hobs hroom
  exact ⟨g', hw', hs.extend hw hbased hg, hc⟩

end Calls

/-! ### Moves -/

section Moves

variable {w w' : World H} {s s' : List (Boundary H)} {b b' : Boundary H} {a : Option Owner}
  {t : ThreadId} {o o' : Outcome}

theorem answer_stripped (h : o.stripped = o'.stripped) :
    o.answer.mapError TracedError.stripped = o'.answer.mapError TracedError.stripped := by
  cases o with
  | returned vs =>
    cases o' with
    | returned vs' =>
      cases h
      rfl
    | _ => cases h
  | yielded vs =>
    cases o' with
    | yielded vs' => rfl
    | _ => cases h
  | failed e =>
    cases o' with
    | failed e' => exact congrArg Except.error (Outcome.failed.inj h)
    | _ => cases h

theorem handed_stripped (h : o.stripped = o'.stripped) (t : ThreadId) :
    (o.handed t).mapError ResumeError.stripped = (o'.handed t).mapError ResumeError.stripped := by
  cases o with
  | returned vs =>
    cases o' with
    | returned vs' =>
      cases h
      rfl
    | _ => cases h
  | yielded vs =>
    cases o' with
    | yielded vs' =>
      cases h
      rfl
    | _ => cases h
  | failed e =>
    cases o' with
    | failed e' =>
      exact congrArg (fun e => Except.error (ResumeError.uncaught e)) (Outcome.failed.inj h)
    | _ => cases h

/-- The topmost boundary falls on both machines. -/
theorem Moved.fall (hw : World.Unrolled B g w w') (hs : Stacked B g s s')
    (hch : Chained ⟨w', s', a⟩) (ho : o.stripped = o'.stripped) :
    Moved B (fall w o s) (fall w' o' s') := by
  cases hs with
  | nil => exact .none
  | cons hb hs =>
    cases hb with
    | @call t base base' owner rest rest' _ h =>
      exact .some ⟨g, hw.leaveCall t, hs, .host (h _ _ (answer_stripped ho))⟩
    | @resume t c owner rest rest' h =>
      obtain ⟨hc', ht'⟩ := hch.ends
      have hc : (w.thread c).status = .normal := (hw.thread Thread.status fun _ => rfl).trans hc'
      have ht : (w.thread t).status = .running := (hw.thread Thread.status fun _ => rfl).trans ht'
      simp only [Machine.fall, World.leaveCoroutine_eq hc ht, World.leaveCoroutine_eq hc' ht']
      obtain ⟨l, hleft⟩ := hw.left hc ht ho
      -- the coroutine was resumed from outside the chain, so no boundary below drives it
      obtain ⟨-, hout, hl⟩ := hch.linked
      have houter : ∀ b ∈ _, Boundary.thread b ≠ t := fun b hb =>
        ne_of_mem_of_not_mem (thread_mem_chain hl b hb) hout
      exact .some ⟨_, hleft, Stacked.change hs houter, .host (h _ _ (handed_stripped ho t))⟩

/-- No relay is next: if one is on top of the driven thread, the boundary leaves it alone. -/
def Unwound (g : Slots H) (m : Machine H) : Prop :=
  ∀ i b s f l, m.control = .drive i → m.stack = b :: s → g b.thread = .relay f :: l →
    l.length < b.base

/-- What a frame does with its input. -/
theorem goOn_tied (hB : B.Unrolls B') (f : Frame H) {i i' : Input} (hi : i.stripped = i'.stripped) :
    Tied (Step.Unrolled B') (B.goOn f i) (B'.goOn f i') := by
  cases i with
  | values vs =>
    cases i' with
    | values vs' =>
      cases hi
      exact hB.poll f.activation vs
    | error e' => cases hi
  | error e =>
    cases i' with
    | values vs' => cases hi
    | error e' => exact hB.recover f.activation e e' (Input.error.inj hi)

/-- The driven frames are given an input. -/
theorem Moved.drive (hB : B.Unrolls B') {m m' : Machine H} (h : Machine.Unrolled B' g m m')
    (hm' : Reachable B' m') (hunwound : Unwound g m') {i i' : Input} (hc : m.control = .drive i)
    (hc' : m'.control = .drive i') (hi : i.stripped = i'.stripped) :
    Moved B' (m.step B) (m'.step B') := by
  obtain ⟨w, s, control⟩ := m
  obtain rfl : control = .drive i := hc
  obtain ⟨w', stack', control'⟩ := m'
  obtain rfl : control' = .drive i' := hc'
  have hw : World.Unrolled B' g w w' := h.world
  have hs : Stacked B' g s stack' := h.stack
  cases stack' with
  | nil =>
    cases hs
    exact .none
  | cons b' s' =>
    cases hs with
    | @cons b _ s _ hb hs =>
    have htop : Top b'.thread b.base (b :: s) := ⟨b, s, rfl, hb.thread, rfl⟩
    rcases drive_cases hm' (b := b') (s := s') rfl rfl with ⟨hlength, hfall⟩ | ⟨f, below, hgo⟩
    · -- the second boundary falls, so the first one has all its frames above it left, too
      rw [hfall]
      have hstep : Machine.step B ⟨w, b :: s, .drive i⟩ = Machine.fall w i.outcome (b :: s) :=
        htop.drive_falls (hb.le_base hw hlength) i
      rw [hstep]
      refine Moved.fall hw (.cons hb hs) hm'.chained ?_
      rw [Input.stripped_outcome, hi, ← Input.stripped_outcome]
    · obtain ⟨base', ⟨b₂, u, he, hthread, rfl⟩, hle⟩ := hgo.driven
      obtain ⟨rfl, rfl⟩ := List.cons.inj he
      have hslots : (g b'.thread).map Slot.frame = f :: below := by
        rw [← hw.all]
        exact hgo.frames
      cases hg : g b'.thread with
      | nil => simp [hg] at hslots
      | cons x l =>
        rw [hg, List.map_cons] at hslots
        obtain ⟨hx, rfl⟩ := List.cons.inj hslots
        rw [List.length_map] at hle
        cases x with
        | relay r => exact absurd hle (Nat.not_le_of_lt (hunwound i' b' s' r l rfl rfl hg))
        | own r =>
          obtain rfl : r = f := hx
          have hhas : w'.Has b'.thread := hm'.chained.has_driven
          have hown : (w.thread b'.thread).frames = r :: owned l := by
            rw [hw.own, hg]
            rfl
          have hstep : Machine.step B ⟨w, b :: s, .drive i⟩ = some ⟨w.setFrames b'.thread (owned l),
              b :: s, .host (.poll r.name) (B.goOn r i)⟩ :=
            htop.drive_polls hown (hb.base_le hg hle) i
          rw [hstep, hgo.step]
          -- the boundaries below leave alone no more than the topmost one
          have hordered := (List.pairwise_cons.mp hm'.based.ordered).1
          refine .some ⟨_, hw.setFrames ((hw.has_iff _).mpr hhas) ?_,
            Stacked.pop (.cons hb hs) hg fun c hc ht => ?_, .host (goOn_tied hB r hi)⟩
          · rw [hg]
            exact List.subset_cons_self _ _
          · rcases List.mem_cons.mp hc with rfl | hc
            · exact hle
            · exact (hordered c hc ht).trans hle

theorem checkYield_eq (hw : World.Unrolled B g w w') (t : ThreadId) :
    w.checkYield t = w'.checkYield t := by
  rw [World.checkYield, World.checkYield, hw.thread Thread.nonYieldable fun _ => rfl]

/-- The owner's code is left, or it asks for a step. -/
theorem Moved.perform (hB : B.Unrolls B') (hw : World.Unrolled B' g w w') (hs : Stacked B' g s s')
    (hch : Chained ⟨w', s', a⟩) (hbased : Based ⟨w', s', a⟩) {name : String} {st st' : Step H}
    (hst : Step.Unrolled B' st st')
    (hobs : ¬ Observes ⟨w, s, .host (.poll name) (.done st)⟩)
    (hover : ∀ y, Machine.perform B' w' s' name st' = some y → ¬ y.Overflows) :
    Moved B' (Machine.perform B w s name st) (Machine.perform B' w' s' name st') := by
  have hdriven := hs.driven
  have hhas' : w'.Has (driven s') := hch.has_driven
  have hhas : w.Has (driven s') := (hw.has_iff _).mpr hhas'
  cases hst with
  | refl =>
    cases st with
    | «return» vs => exact .some ⟨g, hw, hs, .drive rfl⟩
    | call callee args next =>
      have hpushed := hw.pushFrame hhas ⟨name, next⟩
      refine .some ?_
      rw [hdriven]
      refine Unrolled.invoke (a := a) hB hpushed (hs.extend hw hbased (Slots.extends_push _ _ _))
        (hbased.pushFrame _ _) (World.has_modifyThread.mpr hhas) rfl ?_ (hover _ rfl)
      exact fun b vs hp hb => hobs ⟨_, rfl, b, vs, hp, hb⟩
    | tailCall callee args =>
      refine .some ?_
      rw [hdriven]
      refine Unrolled.invoke hB hw hs hbased hhas rfl ?_ (hover _ rfl)
      exact fun b vs hp hb => hobs ⟨_, rfl, b, vs, hp, hb⟩
    | yield vs next =>
      rw [Machine.perform, Machine.perform, hdriven, checkYield_eq hw]
      cases w'.checkYield (driven s') with
      | error e => exact .some ⟨g, hw, hs, .drive rfl⟩
      | ok u =>
        exact .fall (hw.pushFrame hhas ⟨name, next⟩)
          (hs.extend hw hbased (Slots.extends_push _ _ _)) (hch.pushFrame _ _) rfl
  | @tailCall callee args next hnext =>
    -- the second machine has a relay on its stack when the function is called
    have hpushed := hw.pushRelay hhas ⟨name, next⟩ hnext
    refine .some ?_
    rw [hdriven]
    refine Unrolled.invoke (a := a) hB hpushed (hs.extend hw hbased (Slots.extends_push _ _ _))
      (hbased.pushFrame _ _) hhas rfl ?_ (hover _ rfl)
    exact fun b vs hp hb => hobs ⟨_, rfl, b, vs, hp, hb⟩

/-- A host call begins on both machines, or both refuse it. -/
theorem Moved.call (hB : B.Unrolls B') (hw : World.Unrolled B' g w w') (hs : Stacked B' g s s')
    {owner : Owner} (hch : Chained ⟨w', s', some owner⟩) (hbased : Based ⟨w', s', some owner⟩)
    {callee : Value} {args : List Value}
    {rest rest' : Except TracedError (List Value) → Program H (owner.Result H)}
    (hrest : ∀ r r', r.mapError TracedError.stripped = r'.mapError TracedError.stripped →
      Tied (owner.Unrolled B') (rest r) (rest' r'))
    (hobs : ¬ Observes ⟨w, s, .host owner (.call callee args rest)⟩)
    (hover : ¬ Overflows (beginCall B' w' s' owner callee args rest')) :
    Moved B' (some (beginCall B w s owner callee args rest))
      (some (beginCall B' w' s' owner callee args rest')) := by
  refine .some ?_
  rw [beginCall_eq] at hover ⊢
  rw [beginCall_eq]
  by_cases hh : w'.limits.maxHostDepth ≤ w'.hostDepth
  · have hh' : w.limits.maxHostDepth ≤ w.hostDepth := by rwa [hw.limits, hw.hostDepth]
    rw [if_pos hh, if_pos hh', hw.hostDepth]
    exact ⟨g, hw, hs, .host (hrest _ _ rfl)⟩
  · have hh' : ¬ w.limits.maxHostDepth ≤ w.hostDepth := by rwa [hw.limits, hw.hostDepth]
    rw [if_neg hh] at hover
    rw [if_neg hh, if_neg hh', hw.current]
    have hcurrent : w'.current = driven s' := hch.current
    have hhas' : w'.Has w'.current := hcurrent ▸ hch.has_driven
    have hraised : World.Unrolled B' g
        (({ w with hostDepth := w.hostDepth + 1 } : World H).enterNonYieldable w'.current)
        (({ w' with hostDepth := w'.hostDepth + 1 } : World H).enterNonYieldable w'.current) :=
      (hw.alter (fun v => { v with hostDepth := v.hostDepth + 1 }) (fun _ => rfl)
        fun _ _ => rfl).modifyThread w'.current (fun _ => rfl) fun _ => rfl
    have hbase : (w.thread w'.current).frames.length
        = (owned ((g w'.current).rtake (w'.thread w'.current).frames.length)).length := by
      rw [hw.own, hw.all, List.length_map, List.rtake, Nat.sub_self, List.drop_zero]
    have hraisedBased := hbased.change (.call (Nat.lt_of_not_le hh) rest') hch
    refine Unrolled.invoke hB hraised (.cons (.call hbase hrest) hs) hraisedBased ?_ rfl ?_ hover
    · exact World.has_modifyThread.mpr ((hw.has_iff _).mpr hhas')
    · exact fun b vs hp hb => hobs ⟨_, request?_call, b, vs, hp, hb⟩

/-- A resume begins on both machines, or both refuse it. -/
theorem Moved.resume (hB : B.Unrolls B') (hw : World.Unrolled B' g w w') (hs : Stacked B' g s s')
    {owner : Owner} (hch : Chained ⟨w', s', some owner⟩) (hbased : Based ⟨w', s', some owner⟩)
    {args : List Value}
    {rest rest' : Except ResumeError (List Value) → Program H (owner.Result H)}
    (hrest : ∀ r r', r.mapError ResumeError.stripped = r'.mapError ResumeError.stripped →
      Tied (owner.Unrolled B') (rest r) (rest' r'))
    (hobs : ¬ Observes ⟨w, s, .host owner (.resume t args rest)⟩)
    (hover : ¬ Overflows (beginResume B' w' s' owner t args rest')) :
    Moved B' (some (beginResume B w s owner t args rest))
      (some (beginResume B' w' s' owner t args rest')) := by
  refine .some ?_
  have hrun : (w'.thread w'.current).status = .running := by
    rw [hch.current]
    exact hch.top
  rw [beginResume] at hover ⊢
  rw [beginResume, hw.enterCoroutine hrun]
  cases he : w'.enterCoroutine t with
  | error e => exact ⟨g, hw, hs, .host (hrest _ _ rfl)⟩
  | ok entered =>
    obtain ⟨hsus, rfl⟩ := hch.entered_of_ok he
    have hentered := hw.entered t
    have hbody : ((w.entered t).thread t).body = ((w'.entered t).thread t).body :=
      hentered.thread Thread.body fun _ => rfl
    simp only [he, Except.map, hw.current, hbody] at hover ⊢
    have hstacked : Stacked B' g (.resume t w'.current owner rest :: s)
        (.resume t w'.current owner rest' :: s') := .cons (.resume hrest) hs
    cases hb : ((w'.entered t).thread t).body with
    | none => exact ⟨g, hentered, hstacked, .drive rfl⟩
    | some body =>
      simp only [hb] at hover
      have hhas' : w'.Has t := World.has_of_suspended hsus
      have hraisedBased := hbased.change (.resume t he rest') hch
      have hold : (w.thread t).body = some body := by
        rw [← hb, ← hbody]
        exact (World.keep_entered Thread.body t).symm
      refine Unrolled.invoke hB (hentered.modifyThread t (fun _ => rfl) fun _ => rfl)
        hstacked hraisedBased ?_ rfl ?_ hover
      · exact World.has_modifyThread.mpr (World.has_entered.mpr ((hw.has_iff t).mpr hhas'))
      · exact fun b vs hp hb =>
          hobs ⟨(body, args), by rw [request?_resume, hold]; rfl, b, vs, hp, hb⟩

/-- The code that runs does its next request on both machines. -/
theorem Moved.serve (hB : B.Unrolls B') (hw : World.Unrolled B' g w w') (hs : Stacked B' g s s')
    {owner : Owner} (hch : Chained ⟨w', s', some owner⟩) (hbased : Based ⟨w', s', some owner⟩)
    {p p' : Program H (owner.Result H)} (hp : Tied (owner.Unrolled B') p p')
    (hobs : ¬ Observes ⟨w, s, .host owner p⟩)
    (hover : ∀ y, Machine.serve B' w' s' owner p' = some y → ¬ y.Overflows) :
    Moved B' (Machine.serve B w s owner p) (Machine.serve B' w' s' owner p') := by
  cases hp with
  | read h => exact .some ⟨g, hw, hs, .host (h w w' hw.rest)⟩
  | write h =>
    exact .some ⟨g, hw.alter (fun v => { v with memory := _ }) (fun _ => rfl) fun _ _ => rfl, hs,
      .host h⟩
  | @define c rest rest' h =>
    have hsize : w.functions.size = w'.functions.size := by rw [hw.functions]
    refine .some ⟨g, hw.alter (fun v => (v.define c).2) (fun _ => rfl) fun _ _ => rfl, hs, .host ?_⟩
    rw [hsize]
    exact h _
  | call h => exact .call hB hw hs hch hbased h hobs (hover _ rfl)
  | resume h => exact .resume hB hw hs hch hbased h hobs (hover _ rfl)
  | @create body rest rest' h =>
    cases body with
    | function f =>
      obtain ⟨ht, hcreated⟩ := hw.create (some (.function f))
      refine .some ⟨g, hcreated, hs, .host ?_⟩
      rw [ht]
      exact h _
    | _ => exact .some ⟨g, hw, hs, .host (h _)⟩
  | @close t rest rest' h =>
    rw [Machine.serve, Machine.serve, World.closeCoroutine_eq, World.closeCoroutine_eq,
      hw.thread Thread.status fun _ => rfl]
    by_cases hc : (w'.thread t).status = .suspended ∨ (w'.thread t).status = .dead
    · rw [if_pos hc, if_pos hc]
      refine .some ⟨_, hw.closed t, Stacked.change hs fun b hb => ?_, .host (h _)⟩
      -- a thread that is driven is active
      rintro rfl
      obtain ⟨hdead, hsus⟩ := hch.status_ne_dead (thread_mem_chain hch.linked b hb)
      exact hc.elim hsus hdead
    · rw [if_neg hc, if_neg hc]
      exact .some ⟨g, hw, hs, .host (h _)⟩
  | @loop state rest rest' h =>
    refine .some ⟨g, hw, hs, .host ((hB.advance state).bind fun a a' ha => ?_)⟩
    rw [← ha]
    cases a with
    | inl next => exact .loop h
    | inr answer => exact h answer
  | @done r r' h =>
    cases owner with
    | embedding => exact .none
    | native name =>
      obtain rfl : r = r' := h
      show Moved B' (some _) (some _)
      rw [hs.driven]
      exact .some ⟨g, hw.exitNative _, hs, .drive rfl⟩
    | poll name =>
      exact .perform hB hw hs (hch.congr rfl (fun _ => rfl) fun _ => rfl) hbased h hobs hover
  | @fail e e' h =>
    cases owner with
    | embedding => exact .none
    | native name =>
      show Moved B' (some _) (some _)
      rw [hs.driven]
      exact .some ⟨g, hw.exitNative _, hs, .drive (by simp [Input.stripped, h])⟩
    | poll name => exact .some ⟨g, hw, hs, .drive (by simp [Input.stripped, h])⟩

end Moves

variable {m m' : Machine H}

/-- **The next move** is the same on both machines, if no relay is next. -/
theorem Unrolled.step (hB : B.Unrolls B') (h : Machine.Unrolled B' g m m') (hm' : Reachable B' m')
    (hunwound : Unwound g m') (hobs : ¬ m.Observes)
    (hover : ∀ y, m'.step B' = some y → ¬ y.Overflows) : Moved B' (m.step B) (m'.step B') := by
  have hch := hm'.chained
  have hbased := hm'.based
  obtain ⟨w, s, control⟩ := m
  obtain ⟨w', s', control'⟩ := m'
  cases h.control with
  | drive hi => exact .drive hB h hm' hunwound rfl rfl hi
  | host hp => exact .serve hB h.world h.stack hch hbased hp hobs hover

end Machine

/-! ### Life events -/

def LifeEvent.stripped : LifeEvent → LifeEvent
  | .resumed o => .resumed o.stripped
  | .closed => .closed

/-- Life events without traces. -/
def stripEvents (es : List (ThreadId × LifeEvent)) : List (ThreadId × LifeEvent) :=
  es.map fun e => (e.1, e.2.stripped)

namespace Machine

variable {m m' : Machine H}

/-- **The life events** of the next move are the same. -/
theorem Unrolled.events (h : Machine.Unrolled B' g m m') (hunwound : Unwound g m') :
    stripEvents m.events = stripEvents m'.events := by
  obtain ⟨w, s, control⟩ := m
  obtain ⟨w', s', control'⟩ := m'
  have hw : World.Unrolled B' g w w' := h.world
  have hs : Stacked B' g s s' := h.stack
  cases h.control with
  | @drive i i' hi =>
    cases hs with
    | nil => rfl
    | cons hb hs =>
      cases hb with
      | call => rfl
      | @resume t c o rest rest' hrest =>
        rw [events_drive, events_drive, hw.own, hw.all]
        cases hg : g t with
        | nil =>
          have hout : i.outcome.stripped = i'.outcome.stripped := by
            rw [Input.stripped_outcome, hi, ← Input.stripped_outcome]
          exact congrArg (fun o => [(t, LifeEvent.resumed o)]) hout
        | cons x l =>
          cases x with
          | own f => rfl
          | relay f => exact absurd (hunwound i' _ _ f l rfl rfl hg) (Nat.not_lt_zero _)
  | @host o p p' hp =>
    cases hp with
    | close hrest =>
      rw [events_close rfl, events_close rfl, hw.thread Thread.status fun _ => rfl]
    | @done r r' hr =>
      cases o with
      | embedding => rfl
      | native name => rfl
      | poll name =>
        cases hr with
        | tailCall => rfl
        | refl =>
          cases r with
          | yield vs next =>
            cases hs with
            | nil => rfl
            | cons hb hs =>
              cases hb with
              | call => rfl
              | resume => rw [events_yield, events_yield, checkYield_eq hw]
          | _ => rfl
    | _ => cases o <;> rfl

end Machine

end Lua
