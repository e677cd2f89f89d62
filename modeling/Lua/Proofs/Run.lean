/-
Runs of an instance.

An instance starts fresh, and programs of the host run on it one after the other.  A run
comes with its history, the life events of all coroutines in the order in which they happened.

* `Machine.Run` — the runs of all programs from all fresh instances, with their histories;
* `Machine.Reachable` — the states that runs come to;
* `Machine.Run.keep` — what holds of fresh instances and is kept by elementary changes holds
  at every point of every run;
* `Machine.Until` — the machine moves on up to the first state with a given property.
-/
import Lua.Library.Registry
import Lua.Proofs.Change

namespace Lua

variable {H : Host}

/-! ### Fresh instances -/

/-- A world in which nothing has run yet. -/
structure World.IsFresh (w : World H) : Prop where
  threads : w.threads = #[.fresh .running none]
  running : w.running = []
  hostDepth : w.hostDepth = 0

namespace World

theorem isFresh_initial (limits : Configuration) (shared : H.Shared) :
    (World.initial limits shared).IsFresh := ⟨rfl, rfl, rfl⟩

theorem isFresh_defineAll {w : World H} (hw : w.IsFresh) (cs : List (Closure H)) :
    (w.defineAll cs).2.IsFresh := by
  induction cs generalizing w with
  | nil => exact hw
  | cons c cs ih => exact ih ⟨hw.threads, hw.running, hw.hostDepth⟩

theorem isFresh_openLibrary {w : World H} (hw : w.IsFresh) (l : Library) :
    (w.openLibrary l).IsFresh := by
  have h := isFresh_defineAll hw (l.sequences.map .sequence)
  exact ⟨h.threads, h.running, h.hostDepth⟩

/-- What opening a library keeps holds with all of them open. -/
theorem keep_withLibraries {P : World H → Prop} {limits : Configuration} {shared : H.Shared}
    (hinit : P (.initial limits shared)) (hopen : ∀ w l, P w → P (openLibrary w l)) :
    P (.withLibraries limits shared) := by
  have hfold : ∀ (ls : List Library) (w : World H), P w → P (ls.foldl openLibrary w) := by
    intro ls
    induction ls with
    | nil => exact fun _ hw => hw
    | cons l ls ih => exact fun w hw => ih _ (hopen w l hw)
  exact hfold _ _ hinit

/-- An instance with the standard libraries is fresh too: opening them runs nothing. -/
theorem isFresh_withLibraries (limits : Configuration) (shared : H.Shared) :
    (World.withLibraries limits shared).IsFresh :=
  keep_withLibraries (isFresh_initial limits shared) fun _ l hw => isFresh_openLibrary hw l

theorem IsFresh.thread_main {w : World H} (hw : w.IsFresh) :
    w.thread .main = .fresh .running none := by
  rw [thread, hw.threads]
  rfl

theorem IsFresh.thread_ne {w : World H} (hw : w.IsFresh) {t : ThreadId} (h : t ≠ .main) :
    w.thread t = .absent := by
  apply thread_of_not_has
  intro ht
  rw [Has, hw.threads] at ht
  have hi : t.index < 1 := ht
  exact h (by obtain ⟨i⟩ := t; exact congrArg ThreadId.mk (Nat.lt_one_iff.mp hi))

end World

/-! ### A host without code

The standard libraries run on it, and programs of it are enough to reach coroutines, calls and
protected calls in all their states. -/

def Host.bare : Host := ⟨Empty, Empty, Empty, Empty, Empty, Unit⟩

def HostCode.bare : HostCode .bare where
  native code := code.elim
  start code := code.elim
  poll state := state.elim
  recover state := state.elim
  advance loop := loop.elim

def Behaviour.bare : Behaviour .bare := .standard .bare

def World.bare : World .bare := .initial {} ()

/-! ### Runs -/

namespace Machine

variable {B : Behaviour H}

/-- The runs from fresh instances: the history so far, and the state the run has come to.
When a program of the host is finished another one may follow. -/
inductive Run (B : Behaviour H) : List (ThreadId × LifeEvent) → Machine H → Prop
  | start {w : World H} (hw : w.IsFresh) (p : Program H (List Value)) : Run B [] (load w p)
  | step {h m m'} (hr : Run B h m) (hs : m.step B = some m') : Run B (h ++ m.events) m'
  | next {h m r} (hr : Run B h m) (hd : m.result? = some r) (p : Program H (List Value)) :
      Run B h (load m.world p)

/-- The states that runs come to. -/
def Reachable (B : Behaviour H) (m : Machine H) : Prop := ∃ h, Run B h m

theorem Reachable.step {m m' : Machine H} (hm : Reachable B m) (hs : m.step B = some m') :
    Reachable B m' := by
  obtain ⟨h, hr⟩ := hm
  exact ⟨_, hr.step hs⟩

/-- The life events of at most `n` moves. -/
def history (B : Behaviour H) : Nat → Machine H → List (ThreadId × LifeEvent)
  | 0, _ => []
  | n + 1, m => match m.step B with
    | some m' => m.events ++ history B n m'
    | none => []

theorem Run.run {h : List (ThreadId × LifeEvent)} {m : Machine H} (hr : Run B h m) (n : Nat) :
    Run B (h ++ history B n m) (m.run B n) := by
  induction n generalizing h m with
  | zero =>
    rw [history, List.append_nil]
    exact hr
  | succ n ih =>
    rw [history, Machine.run]
    cases hs : m.step B with
    | none =>
      rw [List.append_nil]
      exact hr
    | some m' =>
      rw [← List.append_assoc]
      exact ih (hr.step hs)

theorem Reachable.run {m : Machine H} (hm : Reachable B m) (n : Nat) :
    Reachable B (m.run B n) := by
  obtain ⟨h, hr⟩ := hm
  exact ⟨_, hr.run n⟩

theorem reachable_bare (p : Program .bare (List Value)) (n : Nat) :
    Reachable .bare ((load .bare p).run .bare n) :=
  ⟨_, (Run.start (World.isFresh_initial {} ()) p).run n⟩

/-- The embedding program owns the code that waits at the bottom, and no other. -/
def Grounded : List (Boundary H) → Option Owner → Prop
  | [], a => a = some .embedding
  | b :: s, a => a ≠ some .embedding ∧ Grounded s (some b.owner)

theorem Grounded.change {x y : Situation H} {es : List (ThreadId × LifeEvent)}
    (h : Change x es y) : Grounded x.stack x.active → Grounded y.stack y.active := by
  cases h with
  | memory | define | create | close | closeDead => exact id
  | call | resume => exact fun hx => ⟨by simp, hx⟩
  | poll => exact fun hx => ⟨by simp, hx.2⟩
  | endCall | endResume | yield | escape => exact fun hx => hx.2
  | @native _ s | @sequence _ s | @leaveNative _ s | @wait _ s | @leavePoll _ s =>
    cases s with
    | nil => exact fun hx => absurd hx (by simp [Grounded])
    | cons b s => exact fun hx => ⟨by simp, hx.2⟩

theorem Run.grounded {h : List (ThreadId × LifeEvent)} {m : Machine H} (hr : Run B h m) :
    Grounded m.situation.stack m.situation.active := by
  induction hr with
  | start => rfl
  | step _ hs ih => exact (step_changes hs).keep (fun hc => Grounded.change hc) ih
  | next => rfl

theorem Reachable.grounded {m : Machine H} (hm : Reachable B m) :
    Grounded m.stack m.control.active := by
  obtain ⟨_, hr⟩ := hm
  exact hr.grounded

/-- Code that does not work for the embedding program has a boundary below it. -/
theorem Reachable.exists_boundary {m : Machine H} (hm : Reachable B m)
    (h : m.control.active ≠ some .embedding) : ∃ b s, m.stack = b :: s := by
  have hg := hm.grounded
  cases hs : m.stack with
  | nil =>
    rw [hs] at hg
    exact absurd hg h
  | cons b s => exact ⟨b, s, rfl⟩

/-- A program of the host that is finished leaves no boundary. -/
theorem Run.situation_of_result {h : List (ThreadId × LifeEvent)} {m : Machine H}
    (hr : Run B h m) {r : Except Raised (List Value)} (hd : m.result? = some r) :
    m.situation = ⟨m.world, [], some .embedding⟩ := by
  have hg := hr.grounded
  obtain ⟨w, s, control⟩ := m
  have ha : control.active = some .embedding := by
    simp only [result?] at hd
    split at hd
    · rfl
    · rfl
    · exact absurd hd (by simp)
  cases s with
  | nil => rw [situation, ha]
  | cons b s => exact absurd ha hg.1

/-- What holds of fresh instances and is kept by elementary changes holds along every run. -/
theorem Run.keep {P : Situation H → Prop}
    (hfresh : ∀ {w : World H}, w.IsFresh → P ⟨w, [], some .embedding⟩)
    (hchange : ∀ {x y es}, Change x es y → P x → P y)
    {h : List (ThreadId × LifeEvent)} {m : Machine H} (hr : Run B h m) : P m.situation := by
  induction hr with
  | start hw p => exact hfresh hw
  | step _ hs ih => exact (step_changes hs).keep hchange ih
  | next hr hd p ih =>
    rw [hr.situation_of_result hd] at ih
    exact ih

/-! ### Moving on up to a state -/

/-- The machine moves from the first state on, and the last state is the first after it with
the property; the one in the middle comes just before that. -/
inductive Until (B : Behaviour H) (P : Machine H → Prop) :
    Machine H → Machine H → Machine H → Prop
  | now {m m'} (hs : m.step B = some m') (hp : P m') : Until B P m m m'
  | later {m m₁ last m'} (hs : m.step B = some m₁) (hn : ¬ P m₁)
      (hu : Until B P m₁ last m') : Until B P m last m'

namespace Until

variable {P : Machine H → Prop} {m last m' : Machine H}

theorem holds (hu : Until B P m last m') : P m' := by
  induction hu with
  | now _ hp => exact hp
  | later _ _ _ ih => exact ih

theorem step_last (hu : Until B P m last m') : last.step B = some m' := by
  induction hu with
  | now hs _ => exact hs
  | later _ _ _ ih => exact ih

theorem step_first (hu : Until B P m last m') : ∃ m₁, m.step B = some m₁ := by
  cases hu with
  | now hs _ => exact ⟨_, hs⟩
  | later hs _ _ => exact ⟨_, hs⟩

/-- Machines move in one way only. -/
theorem unique {last' m'' : Machine H} (hu : Until B P m last m') (hu' : Until B P m last' m'') :
    m' = m'' := by
  induction hu with
  | now hs hp =>
    cases hu' with
    | now hs' _ => exact Option.some.inj (hs.symm.trans hs')
    | later hs' hn _ =>
      obtain rfl := Option.some.inj (hs.symm.trans hs')
      exact absurd hp hn
  | later hs hn _ ih =>
    cases hu' with
    | now hs' hp =>
      obtain rfl := Option.some.inj (hs.symm.trans hs')
      exact absurd hp hn
    | later hs' _ hu' =>
      obtain rfl := Option.some.inj (hs.symm.trans hs')
      exact ih hu'

/-- The wait is over after the first move if the state has the property then. -/
theorem eq_of_step {m₁ : Machine H} (hu : Until B P m last m') (hs : m.step B = some m₁)
    (hp : P m₁) : m' = m₁ ∧ last = m := by
  cases hu with
  | now hs' _ => exact ⟨Option.some.inj (hs'.symm.trans hs), rfl⟩
  | later hs' hn _ =>
    obtain rfl := Option.some.inj (hs'.symm.trans hs)
    exact absurd hp hn

/-- Otherwise it goes on from there. -/
theorem of_step {m₁ : Machine H} (hu : Until B P m last m') (hs : m.step B = some m₁)
    (hn : ¬ P m₁) : Until B P m₁ last m' := by
  cases hu with
  | now hs' hp =>
    obtain rfl := Option.some.inj (hs'.symm.trans hs)
    exact absurd hp hn
  | later hs' _ hu =>
    obtain rfl := Option.some.inj (hs'.symm.trans hs)
    exact hu

/-- What the moves keep holds just before the end. -/
theorem keep {Q : Machine H → Prop} (hu : Until B P m last m') (hm : Q m)
    (hQ : ∀ {a b : Machine H}, Q a → a.step B = some b → ¬ P b → Q b) : Q last := by
  induction hu with
  | now => exact hm
  | later hs hn _ ih => exact ih (hQ hm hs hn)

theorem reachable_last (hu : Until B P m last m') (hm : Reachable B m) : Reachable B last :=
  hu.keep hm fun ha hs _ => ha.step hs

theorem reachable (hu : Until B P m last m') (hm : Reachable B m) : Reachable B m' :=
  (hu.reachable_last hm).step hu.step_last

end Until

end Machine

end Lua
