/-
Tail calls are calls that use no stack.

An instance whose tail calls are unrolled has more frames on its stacks, but as long as it has room
for them this is all that can be told apart:

* `Machine.Shows` — what a run has shown after some moves;
* `Machine.Lags` — the second machine has relays to take off before it is where the first one is;
* `Machine.Lags.back`, `Machine.Lags.forth` — each machine keeps up with the other;
* `Machine.tail_calls_use_no_stack` — the two instances show the same, and where tail calls are not
  unrolled no number of them takes any room.

Design notes: a relay that is given an outcome hands it on, and this changes nothing that is shown.
So the machines do not move together, and the relation between them is kept by the moves of the
second one alone until no relay is next.
-/
import Lua.Proofs.TailChains
import Lua.Proofs.UnrolledMoves

namespace Lua

variable {H : Host} {B B' : Behaviour H} {g : Slots H}

open Program

namespace Machine

variable {m m' x y : Machine H}

/-! ### What a run shows -/

/-- What the embedding program ended with, without traces. -/
def ending (m : Machine H) : Option (Except Cause (List Value)) :=
  m.result?.map (Except.mapError Raised.stripped)

/-- After some moves, up to frames and traces: the life events so far, what the embedding program
ended with, if it has ended, and the state of the instance. -/
def Shows (B : Behaviour H) (m : Machine H) (es : List (ThreadId × LifeEvent))
    (r : Option (Except Cause (List Value))) (w : World H) : Prop :=
  ∃ n, stripEvents (history B n m) = es ∧ (m.run B n).ending = r ∧ (m.run B n).world.unframed = w

theorem Unrolled.ending (h : Machine.Unrolled B' g m m') : m.ending = m'.ending := by
  obtain ⟨w, s, control⟩ := m
  obtain ⟨w', s', control'⟩ := m'
  cases h.control with
  | drive => rfl
  | @host o p p' hp =>
    cases o with
    | native name => rfl
    | poll name => rfl
    | embedding =>
      cases hp with
      | done hr =>
        cases hr
        rfl
      | fail he => exact congrArg (fun c => some (Except.error c)) he
      | _ => rfl

/-! ### Relays -/

/-- The second machine comes to a state that unrolls `m` by moves that take relays off; such moves
show nothing. -/
inductive Lags (B : Behaviour H) (m : Machine H) : Machine H → Prop
  | now {g : Slots H} {m' : Machine H} (h : Machine.Unrolled B g m m') (hu : Unwound g m') :
      Lags B m m'
  | relay {x y : Machine H} (hs : x.step B = some y) (he : x.events = [])
      (hending : m.ending = x.ending) (hworld : m.world.unframed = x.world.unframed)
      (h : Lags B m y) : Lags B m x

theorem Lags.ending (h : Lags B' m x) : m.ending = x.ending := by
  cases h with
  | now h => exact h.ending
  | relay _ _ he => exact he

theorem Lags.unframed (h : Lags B' m x) : m.world.unframed = x.world.unframed := by
  cases h with
  | now h => exact h.world.rest
  | relay _ _ _ hw => exact hw

/-- What a relay does with its input: it hands it on. -/
theorem handsOn_goOn {f : Frame H} (hf : B.HandsOn f.activation) (i : Input) :
    ∃ p, B.goOn f i = p ∧ ∀ w s, ∃ i', i'.stripped = i.stripped ∧
      Machine.step B ⟨w, s, .host (.poll f.name) p⟩ = some ⟨w, s, .drive i'⟩ ∧
      events ⟨w, s, .host (.poll f.name) p⟩ = [] := by
  cases i with
  | values vs => exact ⟨_, hf.poll vs, fun w s => ⟨.values vs, rfl, rfl, rfl⟩⟩
  | error e =>
    exact ⟨_, hf.recover e, fun w s => ⟨.error (e.leave (.native f.name)), rfl, rfl, rfl⟩⟩

/-- A relay that is next is taken off by two moves that show nothing. -/
theorem Unrolled.takeOff (h : Machine.Unrolled B' g m m') (hm' : Reachable B' m') {i' : Input}
    {b' : Boundary H} {s' : List (Boundary H)} {f : Frame H} {l : List (Slot H)}
    (hc : m'.control = .drive i') (hs : m'.stack = b' :: s') (hg : g b'.thread = .relay f :: l)
    (hlow : b'.base ≤ l.length) : ∃ y, Reachable B' y ∧ y.stack = m'.stack ∧
      Machine.Unrolled B' (Function.update g b'.thread l) m y ∧ (Lags B' m y → Lags B' m m') := by
  obtain ⟨w, s, control⟩ := m
  obtain ⟨w', stack', control'⟩ := m'
  obtain rfl : control' = .drive i' := hc
  obtain rfl : stack' = b' :: s' := hs
  have hw : World.Unrolled B' g w w' := h.world
  have hstack : Stacked B' g s (b' :: s') := h.stack
  cases h.control with
  | @drive i _ hi =>
    have hframes : (w'.thread b'.thread).frames = f :: l.map Slot.frame := by
      rw [hw.all, hg]
      rfl
    -- it is polled first, and then it hands on its input
    have htop : Top b'.thread b'.base (b' :: s') := ⟨b', s', rfl, rfl, rfl⟩
    have hpoll : Machine.step B' ⟨w', b' :: s', .drive i'⟩
        = some ⟨w'.setFrames b'.thread (l.map Slot.frame), b' :: s',
          .host (.poll f.name) (B'.goOn f i')⟩ :=
      htop.drive_polls hframes (by rwa [List.length_map]) i'
    have hquiet : Machine.events ⟨w', b' :: s', .drive i'⟩ = [] := by
      cases b' with
      | call => rfl
      | resume t c o rest =>
        rw [events_drive, show (w'.thread t).frames = _ from hframes]
        rfl
    have hhands : B'.HandsOn f.activation := by
      refine hw.relays b'.thread f ?_
      rw [hg]
      exact List.mem_cons_self
    obtain ⟨p, hp, hrelay⟩ := handsOn_goOn hhands i'
    obtain ⟨i'', hi'', hreturn, hquiet'⟩ :=
      hrelay (w'.setFrames b'.thread (l.map Slot.frame)) (b' :: s')
    rw [hp] at hpoll
    have hpopped := hw.popRelay ((hw.has_iff _).mpr hm'.chained.has_driven) hg
    refine ⟨_, (hm'.step hpoll).step hreturn, rfl, ⟨hpopped, ?_, .drive (hi.trans hi''.symm)⟩,
      fun hlags => .relay hpoll hquiet rfl hw.rest (.relay hreturn hquiet' rfl hpopped.rest hlags)⟩
    -- the boundaries below leave alone no more than the topmost one
    refine Stacked.pop hstack hg fun c hc ht => ?_
    rcases List.mem_cons.mp hc with rfl | hc
    · exact hlow
    · exact ((List.pairwise_cons.mp hm'.based.ordered).1 c hc ht).trans hlow

/-- **Relays are taken off** one by one, until no relay is next. -/
theorem Unrolled.lags (h : Machine.Unrolled B' g m m') (hm' : Reachable B' m') : Lags B' m m' := by
  -- by induction on the slots of the driven thread
  generalize hl : g (driven m'.stack) = l
  induction l generalizing g m' with
  | nil =>
    refine .now h fun i b s f l _ hs hg => ?_
    rw [hs] at hl
    cases hl.symm.trans hg
  | cons x l ih =>
    by_cases hu : Unwound g m'
    · exact .now h hu
    · simp only [Unwound, not_forall, Nat.not_lt] at hu
      obtain ⟨i', b', s', f, l', hc, hs, hg, hlow⟩ := hu
      obtain ⟨y, hy, hstack, hnext, hlags⟩ := h.takeOff hm' hc hs hg hlow
      rw [hs] at hl hstack
      obtain ⟨rfl, rfl⟩ := List.cons.inj (hl.symm.trans hg)
      refine hlags (ih hnext hy ?_)
      rw [hstack]
      exact Function.update_self ..

/-! ### The next moves -/

/-- When no relay is next, both machines move, or neither does. -/
theorem Unrolled.both (hB : B.Unrolls B') (h : Machine.Unrolled B' g m x) (hu : Unwound g x)
    (hx : Reachable B' x) (hobs : ¬ m.Observes) (hover : ∀ y, x.step B' = some y → ¬ y.Overflows) :
    m.step B = none ∧ x.step B' = none ∨ ∃ m₁ y, m.step B = some m₁ ∧ x.step B' = some y ∧
      stripEvents m.events = stripEvents x.events ∧ Lags B' m₁ y := by
  have hmoved := h.step hB hx hu hobs hover
  cases hm : m.step B with
  | none =>
    cases hx' : x.step B' with
    | none => exact .inl ⟨rfl, rfl⟩
    | some y =>
      rw [hm, hx'] at hmoved
      cases hmoved
  | some m₁ =>
    cases hx' : x.step B' with
    | none =>
      rw [hm, hx'] at hmoved
      cases hmoved
    | some y =>
      rw [hm, hx'] at hmoved
      cases hmoved with
      | some hnext =>
        obtain ⟨g, hnext⟩ := hnext
        exact .inr ⟨m₁, y, rfl, rfl, h.events hu, hnext.lags (hx.step hx')⟩

/-! ### Runs -/

theorem run_of_step (n : Nat) (hs : m.step B = some x) : m.run B (n + 1) = x.run B n := by
  rw [run, hs]

theorem run_of_halt (n : Nat) (hs : m.step B = none) : m.run B n = m := by
  cases n with
  | zero => rfl
  | succ n => rw [run, hs]

theorem history_of_step (n : Nat) (hs : m.step B = some x) :
    history B (n + 1) m = m.events ++ history B n x := by
  rw [history, hs]

theorem history_of_halt (n : Nat) (hs : m.step B = none) : history B n m = [] := by
  cases n with
  | zero => rfl
  | succ n => rw [history, hs]

theorem stripEvents_append (es fs : List (ThreadId × LifeEvent)) :
    stripEvents (es ++ fs) = stripEvents es ++ stripEvents fs :=
  List.map_append

/-- The first machine calls no function that reports about frames, and on the second no call is
refused because a thread is at its greatest call depth. -/
structure Quiet (B B' : Behaviour H) (m x : Machine H) : Prop where
  observes : ∀ n, ¬ (m.run B n).Observes
  overflows : ∀ n, ¬ (x.run B' n).Overflows

namespace Quiet

theorem right (h : Quiet B B' m x) (hx : x.step B' = some y) : Quiet B B' m y := by
  refine ⟨h.observes, fun n => ?_⟩
  rw [← run_of_step n hx]
  exact h.overflows (n + 1)

theorem both {m₁ : Machine H} (h : Quiet B B' m x) (hm : m.step B = some m₁)
    (hx : x.step B' = some y) : Quiet B B' m₁ y := by
  refine ⟨fun n => ?_, (h.right hx).overflows⟩
  rw [← run_of_step n hm]
  exact h.observes (n + 1)

theorem overflow (h : Quiet B B' m x) (hx : x.step B' = some y) : ¬ y.Overflows :=
  (h.right hx).overflows 0

end Quiet

/-- Two runs from states one of which lags behind: the runs lead to such states again, with the same
life events. -/
structure Keeps (B B' : Behaviour H) (m x : Machine H) (k n : Nat) : Prop where
  lags : Lags B' (m.run B k) (x.run B' n)
  events : stripEvents (history B k m) = stripEvents (history B' n x)

namespace Keeps

variable {m₁ : Machine H} {k n : Nat}

theorem relay (h : Keeps B B' m y k n) (hx : x.step B' = some y) (he : x.events = []) :
    Keeps B B' m x k (n + 1) := by
  refine ⟨?_, ?_⟩
  · rw [run_of_step n hx]
    exact h.lags
  · rw [history_of_step n hx, he, List.nil_append]
    exact h.events

theorem both (h : Keeps B B' m₁ y k n) (hm : m.step B = some m₁) (hx : x.step B' = some y)
    (he : stripEvents m.events = stripEvents x.events) : Keeps B B' m x (k + 1) (n + 1) := by
  refine ⟨?_, ?_⟩
  · rw [run_of_step k hm, run_of_step n hx]
    exact h.lags
  · rw [history_of_step k hm, history_of_step n hx, stripEvents_append, stripEvents_append, he,
      h.events]

theorem halt (h : Lags B' m x) (hm : m.step B = none) (hx : x.step B' = none) :
    Keeps B B' m x k n := by
  refine ⟨?_, ?_⟩
  · rw [run_of_halt k hm, run_of_halt n hx]
    exact h
  · rw [history_of_halt k hm, history_of_halt n hx]

end Keeps

/-- The first machine keeps up with any number of moves of the second. -/
theorem Lags.back (hB : B.Unrolls B') (n : Nat) (h : Lags B' m x) (hx : Reachable B' x)
    (hq : Quiet B B' m x) : ∃ k, Keeps B B' m x k n := by
  induction n generalizing m x with
  | zero => exact ⟨0, h, rfl⟩
  | succ n ih =>
    cases h with
    | relay hs he _ _ h =>
      obtain ⟨k, hk⟩ := ih h (hx.step hs) (hq.right hs)
      exact ⟨k, hk.relay hs he⟩
    | now h hu =>
      rcases h.both hB hu hx (hq.observes 0) (fun y hy => hq.overflow hy) with
        ⟨hm, hx'⟩ | ⟨m₁, y, hm, hx', he, hnext⟩
      · exact ⟨0, .halt (.now h hu) hm hx'⟩
      · obtain ⟨k, hk⟩ := ih hnext (hx.step hx') (hq.both hm hx')
        exact ⟨k + 1, hk.both hm hx' he⟩

/-- The second machine keeps up with any number of moves of the first. -/
theorem Lags.forth (hB : B.Unrolls B') (n : Nat) (h : Lags B' m x) (hx : Reachable B' x)
    (hq : Quiet B B' m x) : ∃ k, Keeps B B' m x n k := by
  induction n generalizing m x with
  | zero => exact ⟨0, h, rfl⟩
  | succ n ih =>
    -- by induction on the relays that have to be taken off first
    induction h with
    | relay hs he _ _ _ ih' =>
      obtain ⟨k, hk⟩ := ih' (hx.step hs) (hq.right hs)
      exact ⟨k + 1, hk.relay hs he⟩
    | now h hu =>
      rcases h.both hB hu hx (hq.observes 0) (fun y hy => hq.overflow hy) with
        ⟨hm, hx'⟩ | ⟨m₁, y, hm, hx', he, hnext⟩
      · exact ⟨0, .halt (.now h hu) hm hx'⟩
      · obtain ⟨k, hk⟩ := ih hnext (hx.step hx') (hq.both hm hx')
        exact ⟨k + 1, hk.both hm hx' he⟩

/-- **Two runs show the same**, if one has tail calls and the other calls in their place. -/
theorem Lags.shows_iff (hB : B.Unrolls B') (h : Lags B' m x) (hx : Reachable B' x)
    (hq : Quiet B B' m x) (es : List (ThreadId × LifeEvent))
    (r : Option (Except Cause (List Value))) (v : World H) :
    Shows B m es r v ↔ Shows B' x es r v := by
  constructor
  · rintro ⟨n, hes, hr, hv⟩
    obtain ⟨k, hk⟩ := h.forth hB n hx hq
    exact ⟨k, hk.events.symm.trans hes, hk.lags.ending.symm.trans hr,
      hk.lags.unframed.symm.trans hv⟩
  · rintro ⟨n, hes, hr, hv⟩
    obtain ⟨k, hk⟩ := h.back hB n hx hq
    exact ⟨k, hk.events.trans hes, hk.lags.ending.trans hr, hk.lags.unframed.trans hv⟩

/-- Both machines start in the same state. -/
theorem Unrolled.fresh {w : World H} (hw : w.IsFresh) {p : Program H (List Value)} (hp : p.Blind) :
    Machine.Unrolled B' (fun _ => []) (load w p) (load w p) := by
  have hframes : ∀ t, (w.thread t).frames = [] := by
    intro t
    by_cases ht : t = .main
    · rw [ht, hw.thread_main]
      rfl
    · rw [hw.thread_ne ht]
      rfl
  exact ⟨⟨rfl, hframes, hframes, fun _ _ hf => absurd hf List.not_mem_nil⟩, .nil, .host hp⟩

/-! ### Main result -/

/-- **Tail calls are calls that use no stack.**  An instance whose tail calls are unrolled shows the
same as with them, in a run in which the functions that report about frames are not called and no
call is refused for want of room on the stack.  And a chain of any number of tail calls stays at one
call depth, so all of them are accepted if the first call was. -/
theorem tail_calls_use_no_stack (host host' : HostCode H) :
    (host.Unrolls host' → ∀ {w : World H} {p : Program H (List Value)}, w.IsFresh → p.Blind →
      Quiet (.standard host) (.standard host') (load w p) (load w p) → ∀ es r v,
        Shows (.standard host) (load w p) es r v ↔ Shows (.standard host') (load w p) es r v) ∧
    ∀ {m₀ m t f below i n}, Reachable (.standard host) m₀ →
      TailChain (.standard host) t below m₀ n f i m →
        Level (.standard host) t f below i (m₀.world.thread t).callDepth m := by
  refine ⟨fun hh w p hw hp hq es r v => ?_, fun hm₀ h => h.level hm₀⟩
  have hx : Reachable (.standard host') (load w p) := ⟨[], .start hw p⟩
  exact ((Unrolled.fresh hw hp).lags hx).shows_iff hh.standard hx hq es r v

/-- A run that comes to its end shows nothing new after it. -/
theorem forall_run_of_halt {P : Machine H → Prop} {k : Nat} (hk : (m.run B k).step B = none)
    (h : ∀ n < k + 1, P (m.run B n)) (n : Nat) : P (m.run B n) := by
  induction k generalizing m n with
  | zero =>
    rw [run_of_halt n (show m.step B = none from hk)]
    exact h 0 (Nat.zero_lt_one)
  | succ k ih =>
    cases hs : m.step B with
    | none =>
      rw [run_of_halt n hs]
      exact h 0 (Nat.succ_pos _)
    | some y =>
      cases n with
      | zero => exact h 0 (Nat.succ_pos _)
      | succ n =>
        rw [run_of_step k hs] at hk
        rw [run_of_step n hs]
        refine ih hk (fun j hj => ?_) n
        rw [← run_of_step j hs]
        exact h (j + 1) (Nat.succ_lt_succ hj)

end Machine

/-! ### A host with a sequence that calls what it is given -/

def Host.tailing : Host := ⟨Empty, Unit, Bool, Empty, Empty, Unit⟩

/-- The sequence makes a tail call of its first argument. -/
def HostCode.tailing : HostCode .tailing where
  native code := code.elim
  start _ := false
  poll called args := match called, args with
    | false, callee :: args => .done (.tailCall callee args)
    | _, vs => .done (.return vs)
  recover _ e := .fail (.traced e)
  advance loop := loop.elim

/-- The sequence calls its first argument, and then it returns the results. -/
def HostCode.waiting : HostCode .tailing :=
  { HostCode.tailing with
    poll called args := match called, args with
      | false, callee :: args => .done (.call callee args (.host true))
      | _, vs => .done (.return vs) }

theorem HostCode.waiting_unrolls : HostCode.tailing.Unrolls .waiting where
  engine := rfl
  native code := code.elim
  start _ := rfl
  poll called args := by
    cases called with
    | true => exact .done (.refl _)
    | false =>
      cases args with
      | nil => exact .done (.refl _)
      | cons callee args => exact .done (.tailCall ⟨fun _ => rfl, fun _ => rfl⟩)
  recover _ e e' he := .fail (congrArg TracedError.cause he)
  advance loop := loop.elim

/-- Resumes twice a coroutine whose sequence calls itself and then one that yields. -/
def chainedCalls : Program .tailing (List Value) :=
  .define (.sequence .yield) fun yield =>
  .define (.sequence (.host "run" ())) fun run =>
  .create (.function run) fun
    | .ok t =>
      .resume t [.function run, .function yield, .boolean true] fun _ =>
      .resume t [.boolean false] fun
        | .ok vs => .done vs
        | .error _ => .done []
    | .error _ => .done []

theorem blind_chainedCalls : chainedCalls.Blind := by
  refine .define fun yield => .define fun run => .create fun r => ?_
  cases r with
  | error e => exact .done rfl
  | ok t =>
    refine .resume fun _ _ _ => .resume fun r r' hr => ?_
    cases r with
    | ok vs =>
      cases r' with
      | ok vs' =>
        cases hr
        exact .done rfl
      | error e' => cases hr
    | error e =>
      cases r' with
      | ok vs' => cases hr
      | error e' => exact .done rfl

namespace Machine

/-- The state of `chainedCalls` after a number of moves. -/
def chainedAfter (n : Nat) : Machine .tailing :=
  (load (.initial {} ()) chainedCalls).run (.standard .tailing) n

/-- The chain of `chainedCalls`: after two tail calls the sequence that yields is where the first
one was. -/
theorem tailChain_chainedAfter : TailChain (.standard .tailing) ⟨1⟩ [] (chainedAfter 4) 2
    ⟨"yield", .yield false⟩ (.values [.boolean true]) (chainedAfter 8) := by
  have hfirst : GoesOn ⟨1⟩ ⟨"run", .host false⟩ []
      (.values [.function (.created 1), .function (.created 0), .boolean true]) (chainedAfter 4) :=
    ⟨rfl, rfl, 0, ⟨_, _, rfl, rfl, rfl⟩, le_rfl⟩
  have hask₁ : Asks (.standard .tailing) ⟨1⟩ ⟨"run", .host false⟩ []
      (.values [.function (.created 1), .function (.created 0), .boolean true]) (chainedAfter 4)
      (.tailCall (.function (.created 1)) [.function (.created 0), .boolean true])
      (chainedAfter 5).world (chainedAfter 6) := ⟨.done, rfl⟩
  have hask₂ : Asks (.standard .tailing) ⟨1⟩ ⟨"run", .host false⟩ []
      (.values [.function (.created 0), .boolean true]) (chainedAfter 6)
      (.tailCall (.function (.created 0)) [.boolean true])
      (chainedAfter 7).world (chainedAfter 8) := ⟨.done, rfl⟩
  have hsecond := (TailChain.first hfirst).tailCall hask₁ (a := .host false) ⟨rfl, rfl⟩
  exact hsecond.tailCall hask₂ ⟨rfl, rfl⟩

/-- With calls in the place of the tail calls the coroutine yields the same, and the end is the
same, too.  All sequences of the chain are polled at call depth zero. -/
theorem tail_calls_chainedCalls :
    HostCode.tailing.Unrolls .waiting ∧ chainedCalls.Blind ∧
    Quiet (.standard .tailing) (.standard .waiting) (chainedAfter 0) (chainedAfter 0) ∧
    (∃ v, Shows (.standard .waiting) (chainedAfter 0)
      [(⟨1⟩, .resumed (.yielded [.boolean true])), (⟨1⟩, .resumed (.returned [.boolean false]))]
      (some (.ok [.boolean false])) v) ∧
    Reachable (.standard .tailing) (chainedAfter 4) ∧
    TailChain (.standard .tailing) ⟨1⟩ [] (chainedAfter 4) 2 ⟨"yield", .yield false⟩
      (.values [.boolean true]) (chainedAfter 8) ∧
    Level (.standard .tailing) ⟨1⟩ ⟨"yield", .yield false⟩ [] (.values [.boolean true]) 1
      (chainedAfter 8) := by
  have hquiet : Quiet (.standard .tailing) (.standard .waiting) (chainedAfter 0)
      (chainedAfter 0) := by
    refine ⟨forall_run_of_halt (P := fun m => ¬ m.Observes) (k := 14) rfl (by decide +kernel), ?_⟩
    refine forall_run_of_halt (P := fun m => ¬ m.Overflows) (k := 18) rfl fun n hn hover => ?_
    have hroom : ∀ n < 19, (((chainedAfter 0).run (.standard .waiting) n).world.thread
        (driven ((chainedAfter 0).run (.standard .waiting) n).stack)).callDepth
          < ((chainedAfter 0).run (.standard .waiting) n).world.limits.maxCallDepth := by
      decide +kernel
    exact absurd hover.1 (Nat.not_le_of_lt (hroom n hn))
  have hfresh : (chainedAfter 0).world.IsFresh := ⟨rfl, rfl, rfl⟩
  have hm₀ : Reachable (.standard .tailing) (chainedAfter 4) :=
    Reachable.run ⟨[], .start hfresh chainedCalls⟩ 4
  obtain ⟨hshows, hlevel⟩ := tail_calls_use_no_stack HostCode.tailing .waiting
  have hsame := hshows HostCode.waiting_unrolls hfresh blind_chainedCalls hquiet
  have hend : Shows (.standard .tailing) (chainedAfter 0)
      [(⟨1⟩, .resumed (.yielded [.boolean true])), (⟨1⟩, .resumed (.returned [.boolean false]))]
      (some (.ok [.boolean false])) (chainedAfter 14).world.unframed := ⟨14, rfl, rfl, rfl⟩
  exact ⟨HostCode.waiting_unrolls, blind_chainedCalls, hquiet, ⟨_, (hsame _ _ _).mp hend⟩, hm₀,
    tailChain_chainedAfter, hlevel hm₀ tailChain_chainedAfter⟩

end Machine

end Lua
