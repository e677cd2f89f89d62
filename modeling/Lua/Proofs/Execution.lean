/-
Runs of host code.

What happens above a boundary does not depend on the code that waits behind it, nor on the
boundaries below.  So a host call can be spoken of without the machine around it, and with it
the run of a whole program, from the world it begins in to its result:

* `Boundary.Similar` — boundaries that differ only in the code behind them;
* `Stretch.step_on` — a move above a boundary is the same above all similar ones;
* `World.Call` — a host call, with its answer and the world it leaves;
* `World.call_of_until`, `World.resume_of_until` — a wait in any machine is such a call or resume;
* `Machine.call_of_isAnswered`, `Machine.resume_of_isAnswered` — the answer, computed;
* `Program.Runs` — the run of a program, request by request;
* `Program.runs_bind_iff` — a program in two parts runs in two parts;
* `Program.Runs.unique` — a program has at most one run;
* `Machine.runs_iff_comes` — the runs are those of the machine, on any boundaries.

Design notes: calls and resumes are the only requests that the rules of `Runs` leave to the
machine.  They are stated for all boundaries below at once, as the resumes of courses are.
-/
import Lua.Proofs.Boundary
import Lua.Proofs.Stretches

namespace Lua

variable {H : Host} {B : Behaviour H}

open Machine

/-! ### Moves above a boundary -/

/-- Two boundaries that drive the same frames and do the same to the world when they fall. -/
inductive Boundary.Similar : Boundary H → Boundary H → Prop
  | call {t base o o' rest rest'} : Similar (.call t base o rest) (.call t base o' rest')
  | resume {t c o o' rest rest'} : Similar (.resume t c o rest) (.resume t c o' rest')

namespace Stretch

variable {x : Stretch H} {b : Boundary H} {w : World H} {a : List (Boundary H)}

/-- A move that is the same above all boundaries similar to `b`: it stays above them, lets them
fall, or is none. -/
inductive Uniform (B : Behaviour H) (b : Boundary H) (x : Stretch H) : Prop
  | move (y : Stretch H)
      (h : ∀ b' s, b.Similar b' → step B (x.on b' s) = some (y.on b' s))
  | fall (w : World H) (oc : Outcome)
      (h : ∀ b' s, b.Similar b' → step B (x.on b' s) = Machine.fall w oc (b' :: s))
  | stuck (h : ∀ b' s, b.Similar b' → step B (x.on b' s) = none)

/-- The frames that are driven, and how many of them are left alone. -/
theorem exists_top (a : List (Boundary H)) (b : Boundary H) :
    ∃ t base, ∀ b' s, b.Similar b' → Top t base (a ++ b' :: s) := by
  cases a with
  | nil =>
    refine ⟨b.thread, b.base, fun b' s hb => ⟨b', s, rfl, ?_⟩⟩
    cases hb with
    | call => exact ⟨rfl, rfl⟩
    | resume => exact ⟨rfl, rfl⟩
  | cons b₁ a => exact ⟨b₁.thread, b₁.base, fun b' s _ => ⟨b₁, a ++ b' :: s, rfl, rfl, rfl⟩⟩

theorem uniform_of_fall (w : World H) (oc : Outcome) (h : ∀ b' s, b.Similar b' →
    step B (x.on b' s) = Machine.fall w oc (x.above ++ b' :: s)) : x.Uniform B b := by
  obtain ⟨wx, a, k⟩ := x
  cases a with
  | nil => exact .fall w oc h
  | cons b₁ a =>
    cases b₁ with
    | call t base o rest =>
      exact .move ⟨w.leaveCall t, a, .host o (rest oc.answer)⟩ h
    | resume t c o rest =>
      exact .move ⟨(w.leaveCoroutine t c oc).1, a, .host o (rest (w.leaveCoroutine t c oc).2)⟩ h

theorem uniform_drive (input : Input) : Uniform B b ⟨w, a, .drive input⟩ := by
  obtain ⟨t, base, htop⟩ := exists_top a b
  by_cases hbase : (w.thread t).frames.length ≤ base
  · exact uniform_of_fall w input.outcome fun b' s hb => (htop b' s hb).drive_falls hbase input
  · cases hf : (w.thread t).frames with
    | nil =>
      rw [hf] at hbase
      exact absurd (Nat.zero_le _) hbase
    | cons f below =>
      rw [hf] at hbase
      have hle : base ≤ below.length := Nat.le_of_lt_succ (Nat.lt_of_not_le hbase)
      exact .move ⟨w.setFrames t below, a, .host (.poll f.name) (B.goOn f input)⟩
        fun b' s hb => (htop b' s hb).drive_polls hf hle input

theorem uniform_poll (name : String) (st : Step H) :
    Uniform B b ⟨w, a, .host (.poll name) (.done st)⟩ := by
  obtain ⟨t, base, htop⟩ := exists_top a b
  cases st with
  | «return» vs => exact .move ⟨w, a, .drive (.values vs)⟩ fun _ _ _ => rfl
  | call callee args next =>
    let called := (w.pushFrame t ⟨name, next⟩).invoke B t callee args
    refine .move ⟨called.1, a, called.2⟩ fun b' s hb => ?_
    show perform B w (a ++ b' :: s) name (.call callee args next) = _
    rw [perform, (htop b' s hb).driven]
    rfl
  | tailCall callee args =>
    let called := w.invoke B t callee args
    refine .move ⟨called.1, a, called.2⟩ fun b' s hb => ?_
    show perform B w (a ++ b' :: s) name (.tailCall callee args) = _
    rw [perform, (htop b' s hb).driven]
    rfl
  | yield vs next =>
    have hstep : ∀ b' s,
        step B (Stretch.on ⟨w, a, .host (.poll name) (.done (.yield vs next))⟩ b' s) =
          perform B w (a ++ b' :: s) name (.yield vs next) := fun _ _ => rfl
    cases hc : w.checkYield t with
    | ok u =>
      refine uniform_of_fall (w.pushFrame t ⟨name, next⟩) (.yielded vs) fun b' s hb => ?_
      simp only [hstep, perform, (htop b' s hb).driven, hc]
    | error e =>
      refine .move ⟨w, a, .drive (.error (.raisedBy name (.coroutine e)))⟩ fun b' s hb => ?_
      simp only [hstep, perform, (htop b' s hb).driven, hc]
      rfl

/-- **A move** above a boundary is the same above all similar boundaries. -/
theorem step_on (x : Stretch H) (b : Boundary H) : x.Uniform B b := by
  obtain ⟨w, a, control⟩ := x
  obtain ⟨t, base, htop⟩ := exists_top a b
  cases control with
  | drive input => exact uniform_drive input
  | host o p =>
    cases p with
    | done r =>
      cases o with
      | embedding => exact .stuck fun _ _ _ => rfl
      | poll name => exact uniform_poll name r
      | native name =>
        refine .move ⟨(w.exitNative t).exitHost, a, .drive (.values r)⟩ fun b' s hb => ?_
        rw [← (htop b' s hb).driven]
        rfl
    | fail e =>
      cases o with
      | embedding => exact .stuck fun _ _ _ => rfl
      | poll name => exact .move ⟨w, a, .drive (.error (e.leave name))⟩ fun _ _ _ => rfl
      | native name =>
        refine .move ⟨(w.exitNative t).exitHost, a, .drive (.error (e.leave name))⟩
          fun b' s hb => ?_
        rw [← (htop b' s hb).driven]
        rfl
    | read rest => exact .move ⟨w, a, .host o (rest w)⟩ fun _ _ _ => rfl
    | write m rest => exact .move ⟨{ w with memory := m }, a, .host o (rest ())⟩ fun _ _ _ => rfl
    | define c rest =>
      exact .move ⟨(w.define c).2, a, .host o (rest (w.define c).1)⟩ fun _ _ _ => rfl
    | loop st rest =>
      exact .move ⟨w, a, .host o (B.round st rest)⟩ fun _ _ _ => rfl
    | call callee args rest =>
      have hstep : ∀ b' s, step B (Stretch.on ⟨w, a, .host o (.call callee args rest)⟩ b' s) =
          some (beginCall B w (a ++ b' :: s) o callee args rest) := fun _ _ => rfl
      simp only [beginCall] at hstep
      cases he : w.enterHost with
      | error e =>
        simp only [he] at hstep
        exact .move ⟨w, a, _⟩ fun b' s _ => hstep b' s
      | ok w' =>
        simp only [he] at hstep
        exact .move ⟨_, _ :: a, _⟩ fun b' s _ => hstep b' s
    | resume u args rest =>
      have hstep : ∀ b' s, step B (Stretch.on ⟨w, a, .host o (.resume u args rest)⟩ b' s) =
          some (beginResume B w (a ++ b' :: s) o u args rest) := fun _ _ => rfl
      simp only [beginResume] at hstep
      cases he : w.enterCoroutine u with
      | error e =>
        simp only [he] at hstep
        exact .move ⟨w, a, _⟩ fun b' s _ => hstep b' s
      | ok entered =>
        cases hb : (entered.thread u).body with
        | some body =>
          simp only [he, hb] at hstep
          exact .move ⟨_, _ :: a, _⟩ fun b' s _ => hstep b' s
        | none =>
          simp only [he, hb] at hstep
          exact .move ⟨_, _ :: a, _⟩ fun b' s _ => hstep b' s
    | create body rest =>
      have hstep : ∀ b' s, step B (Stretch.on ⟨w, a, .host o (.create body rest)⟩ b' s) =
          serve B w (a ++ b' :: s) o (.create body rest) := fun _ _ => rfl
      simp only [serve] at hstep
      cases hc : w.createCoroutine body with
      | ok r =>
        simp only [hc] at hstep
        exact .move ⟨r.2, a, _⟩ fun b' s _ => hstep b' s
      | error e =>
        simp only [hc] at hstep
        exact .move ⟨w, a, _⟩ fun b' s _ => hstep b' s
    | close u rest =>
      have hstep : ∀ b' s, step B (Stretch.on ⟨w, a, .host o (.close u rest)⟩ b' s) =
          serve B w (a ++ b' :: s) o (.close u rest) := fun _ _ => rfl
      simp only [serve] at hstep
      cases hc : w.closeCoroutine u with
      | ok w' =>
        simp only [hc] at hstep
        exact .move ⟨w', a, _⟩ fun b' s _ => hstep b' s
      | error e =>
        simp only [hc] at hstep
        exact .move ⟨w, a, _⟩ fun b' s _ => hstep b' s

end Stretch

/-! ### Programs that have come to their results -/

namespace Program

/-- A program that has come to its result. -/
def ending {α : Type} : Except Raised α → Program H α
  | .ok a => .done a
  | .error e => .fail e

/-- A program that hands on the answer of a call. -/
def handOn (r : Except TracedError (List Value)) : Program H (List Value) :=
  .ending (r.mapError Raised.traced)

theorem handOn_injective {r r' : Except TracedError (List Value)}
    (h : (handOn r : Program H (List Value)) = handOn r') : r = r' := by
  cases r <;> cases r' <;> cases h <;> rfl

end Program

/-! ### Calls and resumes -/

/-- A wait for the fall of a boundary takes the same course above all similar boundaries. -/
theorem Stretch.fall_of_until {x : Stretch H} {b : Boundary H} {s : List (Boundary H)}
    {last m' : Machine H} (hu : Until B (fun m => m.stack = s) (x.on b s) last m') :
    ∃ w oc, Machine.fall w oc (b :: s) = some m' ∧
      ∀ b' s' m'', b.Similar b' → Machine.fall w oc (b' :: s') = some m'' →
        ∃ last', Until B (fun m => m.stack = s') (x.on b' s') last' m'' := by
  have hb : b.Similar b := by cases b <;> constructor
  generalize hm : x.on b s = m at hu
  induction hu generalizing x with
  | now hs hp =>
    subst hm
    cases x.step_on b with
    | move y h =>
      obtain rfl := Option.some.inj (hs.symm.trans (h b s hb))
      exact absurd hp (y.on_stack_ne b s)
    | stuck h => cases hs.symm.trans (h b s hb)
    | fall w oc h =>
      refine ⟨w, oc, (h b s hb).symm.trans hs, fun b' s' m'' hb' hf => ⟨_, .now ?_ ?_⟩⟩
      · rw [h b' s' hb', hf]
      · exact (fall_situation hf).1
  | later hs hn _ ih =>
    subst hm
    cases x.step_on b with
    | move y h =>
      obtain rfl := Option.some.inj (hs.symm.trans (h b s hb))
      obtain ⟨w, oc, hf, hall⟩ := ih rfl
      refine ⟨w, oc, hf, fun b' s' m'' hb' hf' => ?_⟩
      obtain ⟨last', hu'⟩ := hall b' s' m'' hb' hf'
      exact ⟨last', .later (h b' s' hb') (y.on_stack_ne b' s') hu'⟩
    | stuck h => cases hs.symm.trans (h b s hb)
    | fall w oc h => exact absurd (fall_situation ((h b s hb).symm.trans hs)).1 hn

namespace World

variable {w w' w₁ : World H} {s : List (Boundary H)} {o : Owner} {callee : Value}
  {args : List Value} {t : ThreadId} {last m' : Machine H}

/-- Whatever host code calls `callee` with `args` in the world `w`, the call answers `r` and
leaves the world `w'`. -/
def Call (B : Behaviour H) (w : World H) (callee : Value) (args : List Value)
    (r : Except TracedError (List Value)) (w' : World H) : Prop :=
  ∀ s o rest, ∃ last, Until B (fun m => m.stack = s) ⟨w, s, .host o (.call callee args rest)⟩ last
    ⟨w', s, .host o (rest r)⟩

theorem step_call_refused {e : CoroutineError} (h : w.enterHost = .error e)
    (s : List (Boundary H)) (o : Owner)
    (rest : Except TracedError (List Value) → Program H (o.Result H)) :
    step B ⟨w, s, .host o (.call callee args rest)⟩
      = some ⟨w, s, .host o (rest (.error (.untraced (.coroutine e))))⟩ := by
  show some (beginCall B w s o callee args rest) = _
  rw [beginCall, h]

/-- The start of a call, above its boundary. -/
def called (B : Behaviour H) (w : World H) (callee : Value) (args : List Value) : Stretch H :=
  let begun := (w.enterNonYieldable w.current).invoke B w.current callee args
  ⟨begun.1, [], begun.2⟩

theorem step_call_entered (h : w.enterHost = .ok w₁) (s : List (Boundary H)) (o : Owner)
    (rest : Except TracedError (List Value) → Program H (o.Result H)) :
    step B ⟨w, s, .host o (.call callee args rest)⟩ = some ((w₁.called B callee args).on
      (.call w₁.current ((w₁.enterNonYieldable w₁.current).thread w₁.current).frames.length o rest)
      s) := by
  show some (beginCall B w s o callee args rest) = _
  rw [beginCall, h]
  rfl

/-- A wait for the answer of a call is a call. -/
theorem call_of_until {rest : Except TracedError (List Value) → Program H (o.Result H)}
    (hu : Until B (fun m => m.stack = s) ⟨w, s, .host o (.call callee args rest)⟩ last m') :
    ∃ r w', m' = ⟨w', s, .host o (rest r)⟩ ∧ w.Call B callee args r w' := by
  cases he : w.enterHost with
  | error e =>
    obtain ⟨rfl, -⟩ := hu.eq_of_step (step_call_refused he s o rest) rfl
    exact ⟨_, w, rfl, fun s o rest => ⟨_, .now (step_call_refused he s o rest) rfl⟩⟩
  | ok w₁ =>
    obtain ⟨w₂, oc, hf, hall⟩ := Stretch.fall_of_until
      (hu.of_step (step_call_entered he s o rest) (Stretch.on_stack_ne _ _ _))
    cases hf
    refine ⟨oc.answer, w₂.leaveCall w₁.current, rfl, fun s' o' rest' => ?_⟩
    obtain ⟨last', hu'⟩ := hall (.call _ _ o' rest') s' _ .call rfl
    exact ⟨last', .later (step_call_entered he s' o' rest') (Stretch.on_stack_ne _ _ _) hu'⟩

theorem Call.unique {r r' : Except TracedError (List Value)} (h : w.Call B callee args r w')
    (h' : w.Call B callee args r' w₁) : r = r' ∧ w' = w₁ := by
  obtain ⟨last, hu⟩ := h [] .embedding Program.handOn
  obtain ⟨last', hu'⟩ := h' [] .embedding Program.handOn
  obtain ⟨rfl, -, hc⟩ := Machine.mk.inj (hu.unique hu')
  obtain ⟨-, hp⟩ := Control.host.inj hc
  exact ⟨Program.handOn_injective (eq_of_heq hp), rfl⟩

/-- A wait for the answer of a resume is a resume. -/
theorem resume_of_until {rest : Except ResumeError (List Value) → Program H (o.Result H)}
    (hu : Until B (fun m => m.stack = s) ⟨w, s, .host o (.resume t args rest)⟩ last m') :
    ∃ r w', m' = ⟨w', s, .host o (rest r)⟩ ∧ w.Resume B t args r w' := by
  cases he : w.enterCoroutine t with
  | error e =>
    obtain ⟨rfl, -⟩ := hu.eq_of_step (step_refused he s o rest) rfl
    exact ⟨_, w, rfl, fun s o rest => ⟨_, .now (step_refused he s o rest) rfl⟩⟩
  | ok w₁ =>
    obtain ⟨w₂, oc, hf, hall⟩ := Stretch.fall_of_until
      (hu.of_step (step_resume_entered he s o rest) (Stretch.on_stack_ne _ _ _))
    cases hf
    refine ⟨(w₂.leaveCoroutine t w.current oc).2, (w₂.leaveCoroutine t w.current oc).1, rfl,
      fun s' o' rest' => ?_⟩
    obtain ⟨last', hu'⟩ := hall (.resume _ _ o' rest') s' _ .resume rfl
    exact ⟨last', .later (step_resume_entered he s' o' rest') (Stretch.on_stack_ne _ _ _) hu'⟩

end World

/-! ### Computed calls -/

namespace Machine

variable {w : World H} {callee : Value} {args : List Value}
  {r : Except TracedError (List Value)} {m : Machine H} {n : Nat}

/-- Host code that hands on the answer of a call. -/
def asking (w : World H) (callee : Value) (args : List Value) : Machine H :=
  load w (.call callee args Program.handOn)

/-- All boundaries have fallen after `n` moves, and not before. -/
def isAnswered (B : Behaviour H) : Nat → Machine H → Bool
  | 0, _ => false
  | n + 1, m => match m.step B with
    | some m' => if m'.stack.isEmpty then n == 0 else isAnswered B n m'
    | none => false

theorem until_of_isAnswered (h : m.isAnswered B n = true) :
    ∃ last, Until B (fun m => m.stack = []) m last (m.run B n) := by
  induction n generalizing m with
  | zero => cases h
  | succ n ih =>
    rw [isAnswered] at h
    rw [Machine.run]
    cases hs : m.step B with
    | none => simp [hs] at h
    | some m' =>
      simp only [hs] at h
      by_cases he : m'.stack.isEmpty
      · rw [if_pos he] at h
        obtain rfl := beq_iff_eq.mp h
        exact ⟨m, .now hs (List.isEmpty_iff.mp he)⟩
      · rw [if_neg he] at h
        obtain ⟨last, hu⟩ := ih h
        exact ⟨last, .later hs (fun hn => he (List.isEmpty_iff.mpr hn)) hu⟩

/-- The answer of a call, computed. -/
theorem call_of_isAnswered (n : Nat)
    (h : (asking w callee args).isAnswered B n = true)
    (hr : ((asking w callee args).run B n).control = .host .embedding (Program.handOn r)) :
    w.Call B callee args r ((asking w callee args).run B n).world := by
  obtain ⟨last, hu⟩ := until_of_isAnswered h
  obtain ⟨r', w', hm, hc⟩ := World.call_of_until hu
  rw [hm] at hr ⊢
  obtain ⟨-, hp⟩ := Control.host.inj hr
  exact Program.handOn_injective (eq_of_heq hp) ▸ hc

/-- The answer of a resume, computed. -/
theorem resume_of_isAnswered {t : ThreadId} {r : Except ResumeError (List Value)} (n : Nat)
    (h : (load w (.resume t args Course.handOn)).isAnswered B n = true)
    (hr : ((load w (.resume t args Course.handOn)).run B n).control
      = .host .embedding (Course.handOn r)) :
    w.Resume B t args r ((load w (.resume t args Course.handOn)).run B n).world := by
  obtain ⟨last, hu⟩ := until_of_isAnswered h
  obtain ⟨r', w', hm, hc⟩ := World.resume_of_until hu
  rw [hm] at hr ⊢
  obtain ⟨-, hp⟩ := Control.host.inj hr
  exact Course.handOn_injective (eq_of_heq hp) ▸ hc

end Machine

/-! ### Programs -/

/-- Computations in a row succeed if each of them does. -/
theorem mapM_eq_ok {ε α β : Type} {f : α → Except ε β} {g : α → β} {as : List α}
    (h : ∀ a ∈ as, f a = .ok (g a)) : as.mapM f = .ok (as.map g) := by
  induction as with
  | nil => rfl
  | cons a as ih =>
    have hrest := ih fun a' ha => h a' (List.mem_cons_of_mem _ ha)
    rw [List.mapM_cons, h a (List.mem_cons_self ..), hrest]
    rfl

namespace Program

variable {α β : Type} {w w' w₁ : World H} {p : Program H α} {f : α → Program H β}

theorem bind_assoc {γ : Type} (p : Program H α) (f : α → Program H β) (g : β → Program H γ) :
    (p.bind f).bind g = p.bind fun a => (f a).bind g := by
  induction p with
  | done a => rfl
  | fail e => rfl
  | read rest ih => exact congrArg Program.read (funext ih)
  | write m rest ih => exact congrArg (Program.write m) (funext ih)
  | define c rest ih => exact congrArg (Program.define c) (funext ih)
  | call callee args rest ih => exact congrArg (Program.call callee args) (funext ih)
  | resume t args rest ih => exact congrArg (Program.resume t args) (funext ih)
  | create body rest ih => exact congrArg (Program.create body) (funext ih)
  | close t rest ih => exact congrArg (Program.close t) (funext ih)
  | loop s rest ih => exact congrArg (Program.loop s) (funext ih)

theorem bind_done (p : Program H α) : p.bind .done = p := by
  induction p with
  | done a => rfl
  | fail e => rfl
  | read rest ih => exact congrArg Program.read (funext ih)
  | write m rest ih => exact congrArg (Program.write m) (funext ih)
  | define c rest ih => exact congrArg (Program.define c) (funext ih)
  | call callee args rest ih => exact congrArg (Program.call callee args) (funext ih)
  | resume t args rest ih => exact congrArg (Program.resume t args) (funext ih)
  | create body rest ih => exact congrArg (Program.create body) (funext ih)
  | close t rest ih => exact congrArg (Program.close t) (funext ih)
  | loop s rest ih => exact congrArg (Program.loop s) (funext ih)

instance : LawfulMonad (Program H) :=
  LawfulMonad.mk' (Program H) bind_done (fun _ _ => rfl) bind_assoc

/-- A computation that has succeeded goes on with its result. -/
theorem ok_bind (a : α) (f : α → Program H β) :
    ((liftM (Except.ok a : Except ArgumentError α) : Program H α) >>= f) = f a := rfl

theorem bind_of_ok {x : Except ArgumentError α} {a : α} (h : x = .ok a) (f : α → Program H β) :
    ((liftM x : Program H α) >>= f) = f a := by
  rw [h, ok_bind]

theorem round_bind (s : H.Loop) (rest : H.Answer → Program H α) (f : α → Program H β) :
    B.round s (fun r => (rest r).bind f) = (B.round s rest).bind f := by
  rw [Behaviour.round, Behaviour.round, bind_assoc]
  congr 1
  funext r
  cases r <;> rfl

/-- The run of a program from a world to its result, request by request. -/
inductive Runs (B : Behaviour H) : World H → Program H α → Except Raised α → World H → Prop
  | done {w a} : Runs B w (.done a) (.ok a) w
  | fail {w e} : Runs B w (.fail e) (.error e) w
  | read {w rest r w'} (h : Runs B w (rest w) r w') : Runs B w (.read rest) r w'
  | write {w m rest r w'} (h : Runs B { w with memory := m } (rest ()) r w') :
      Runs B w (.write m rest) r w'
  | define {w c rest r w'} (h : Runs B (w.define c).2 (rest (w.define c).1) r w') :
      Runs B w (.define c rest) r w'
  | call {w callee args answer w₁ rest r w'} (hc : w.Call B callee args answer w₁)
      (h : Runs B w₁ (rest answer) r w') : Runs B w (.call callee args rest) r w'
  | resume {w t args answer w₁ rest r w'} (hr : w.Resume B t args answer w₁)
      (h : Runs B w₁ (rest answer) r w') : Runs B w (.resume t args rest) r w'
  | created {w body t w₁ rest r w'} (hc : w.createCoroutine body = .ok (t, w₁))
      (h : Runs B w₁ (rest (.ok t)) r w') : Runs B w (.create body rest) r w'
  | notCreated {w body e rest r w'} (hc : w.createCoroutine body = .error e)
      (h : Runs B w (rest (.error e)) r w') : Runs B w (.create body rest) r w'
  | closed {w t w₁ rest r w'} (hc : w.closeCoroutine t = .ok w₁)
      (h : Runs B w₁ (rest (.ok ())) r w') : Runs B w (.close t rest) r w'
  | notClosed {w t e rest r w'} (hc : w.closeCoroutine t = .error e)
      (h : Runs B w (rest (.error e)) r w') : Runs B w (.close t rest) r w'
  | loop {w s rest r w'} (h : Runs B w (B.round s rest) r w') : Runs B w (.loop s rest) r w'

theorem runs_done_iff {a : α} {r : Except Raised α} :
    Runs B w (.done a) r w' ↔ r = .ok a ∧ w' = w := by
  constructor
  · rintro ⟨⟩
    exact ⟨rfl, rfl⟩
  · rintro ⟨rfl, rfl⟩
    exact .done

theorem runs_read_iff {rest : World H → Program H α} {r : Except Raised α} :
    Runs B w (.read rest) r w' ↔ Runs B w (rest w) r w' := by
  constructor
  · rintro ⟨⟩
    assumption
  · exact .read

theorem runs_fail_iff {e : Raised} {r : Except Raised α} :
    Runs B w (.fail e) r w' ↔ r = .error e ∧ w' = w := by
  constructor
  · rintro ⟨⟩
    exact ⟨rfl, rfl⟩
  · rintro ⟨rfl, rfl⟩
    exact .fail

theorem not_runs_fail {e : Raised} {a : α} : ¬ Runs B w (.fail e) (.ok a) w' :=
  fun h => nomatch runs_fail_iff.mp h

theorem runs_of_eq_done {q : Program H α} {a : α} (h : q = .done a) : Runs B w q (.ok a) w := by
  rw [h]
  exact .done

theorem runs_of_eq_raise {q : Program H α} {c : Cause} (h : q = .raise c) :
    Runs B w q (.error (.cause c)) w := by
  rw [h]
  exact .fail

theorem runs_ending_iff {x r : Except Raised α} : Runs B w (.ending x) r w' ↔ r = x ∧ w' = w := by
  cases x with
  | ok a => exact runs_done_iff
  | error e => exact runs_fail_iff

theorem runs_write_iff {m : Memory H} {rest : Unit → Program H α} {r : Except Raised α} :
    Runs B w (.write m rest) r w' ↔ Runs B { w with memory := m } (rest ()) r w' := by
  constructor
  · rintro ⟨⟩
    assumption
  · exact .write

theorem runs_call_iff {callee : Value} {args : List Value}
    {rest : Except TracedError (List Value) → Program H α} {r : Except Raised α} :
    Runs B w (.call callee args rest) r w' ↔
      ∃ answer w₁, w.Call B callee args answer w₁ ∧ Runs B w₁ (rest answer) r w' := by
  constructor
  · rintro ⟨⟩
    exact ⟨_, _, ‹_›, ‹_›⟩
  · rintro ⟨answer, w₁, hc, h⟩
    exact .call hc h

theorem Runs.bind {a : α} {r : Except Raised β} (hp : Runs B w p (.ok a) w₁)
    (hf : Runs B w₁ (f a) r w') : Runs B w (p.bind f) r w' := by
  generalize hr : Except.ok a = r₁ at hp
  induction hp with
  | done =>
    cases hr
    exact hf
  | fail => cases hr
  | read _ ih => exact .read (ih hf hr)
  | write _ ih => exact .write (ih hf hr)
  | define _ ih => exact .define (ih hf hr)
  | call hc _ ih => exact .call hc (ih hf hr)
  | resume hc _ ih => exact .resume hc (ih hf hr)
  | created hc _ ih => exact .created hc (ih hf hr)
  | notCreated hc _ ih => exact .notCreated hc (ih hf hr)
  | closed hc _ ih => exact .closed hc (ih hf hr)
  | notClosed hc _ ih => exact .notClosed hc (ih hf hr)
  | loop _ ih => exact .loop (round_bind _ _ f ▸ ih hf hr)

theorem Runs.bind_error {e : Raised} (hp : Runs B w p (.error e) w') :
    Runs B w (p.bind f) (.error e) w' := by
  generalize hr : Except.error e = r₁ at hp
  induction hp with
  | done => cases hr
  | fail =>
    cases hr
    exact .fail
  | read _ ih => exact .read (ih hr)
  | write _ ih => exact .write (ih hr)
  | define _ ih => exact .define (ih hr)
  | call hc _ ih => exact .call hc (ih hr)
  | resume hc _ ih => exact .resume hc (ih hr)
  | created hc _ ih => exact .created hc (ih hr)
  | notCreated hc _ ih => exact .notCreated hc (ih hr)
  | closed hc _ ih => exact .closed hc (ih hr)
  | notClosed hc _ ih => exact .notClosed hc (ih hr)
  | loop _ ih => exact .loop (round_bind _ _ f ▸ ih hr)

/-- Programs run in one way only. -/
theorem Runs.unique {r r' : Except Raised α} (h : Runs B w p r w') (h' : Runs B w p r' w₁) :
    r = r' ∧ w' = w₁ := by
  induction h with
  | done =>
    cases h'
    exact ⟨rfl, rfl⟩
  | fail =>
    cases h'
    exact ⟨rfl, rfl⟩
  | read _ ih =>
    cases h' with
    | read h' => exact ih h'
  | write _ ih =>
    cases h' with
    | write h' => exact ih h'
  | define _ ih =>
    cases h' with
    | define h' => exact ih h'
  | call hc _ ih =>
    cases h' with
    | call hc' h' =>
      obtain ⟨rfl, rfl⟩ := hc.unique hc'
      exact ih h'
  | resume hc _ ih =>
    cases h' with
    | resume hc' h' =>
      obtain ⟨rfl, rfl⟩ := hc.unique hc'
      exact ih h'
  | created hc _ ih =>
    cases h' with
    | created hc' h' =>
      obtain ⟨rfl, rfl⟩ := Prod.mk.inj (Except.ok.inj (hc.symm.trans hc'))
      exact ih h'
    | notCreated hc' _ => cases hc.symm.trans hc'
  | notCreated hc _ ih =>
    cases h' with
    | created hc' _ => cases hc.symm.trans hc'
    | notCreated hc' h' =>
      obtain rfl := Except.error.inj (hc.symm.trans hc')
      exact ih h'
  | closed hc _ ih =>
    cases h' with
    | closed hc' h' =>
      obtain rfl := Except.ok.inj (hc.symm.trans hc')
      exact ih h'
    | notClosed hc' _ => cases hc.symm.trans hc'
  | notClosed hc _ ih =>
    cases h' with
    | closed hc' _ => cases hc.symm.trans hc'
    | notClosed hc' h' =>
      obtain rfl := Except.error.inj (hc.symm.trans hc')
      exact ih h'
  | loop _ ih =>
    cases h' with
    | loop h' => exact ih h'

/-- A run in two parts: the first one ends and the second goes on, or the first one fails. -/
def InParts (B : Behaviour H) (w : World H) (p : Program H α) (f : α → Program H β)
    (r : Except Raised β) (w' : World H) : Prop :=
  (∃ a w₁, Runs B w p (.ok a) w₁ ∧ Runs B w₁ (f a) r w') ∨
    ∃ e, r = .error e ∧ Runs B w p (.error e) w'

theorem InParts.imp {q : Program H α} {r : Except Raised β} (h : InParts B w₁ q f r w')
    (hq : ∀ {r w'}, Runs B w₁ q r w' → Runs B w p r w') : InParts B w p f r w' := by
  rcases h with ⟨a, w₂, ha, hf⟩ | ⟨e, he, hfail⟩
  · exact .inl ⟨a, w₂, hq ha, hf⟩
  · exact .inr ⟨e, he, hq hfail⟩

theorem InParts.of_done {a : α} {q : Program H β} {r : Except Raised β}
    (hq : (Program.done a).bind f = q) (h : Runs B w q r w') : InParts B w (.done a) f r w' := by
  subst hq
  exact .inl ⟨a, w, .done, h⟩

/-- A program in two parts runs in two parts, unless the first one fails. -/
theorem runs_bind_iff {r : Except Raised β} :
    Runs B w (p.bind f) r w' ↔ InParts B w p f r w' := by
  constructor
  · intro h
    generalize hq : p.bind f = q at h
    -- The first part is done, or it makes the same request as the whole.
    induction h generalizing p with
    | @done w b =>
      cases p with
      | done a => exact .of_done hq .done
      | _ => cases hq
    | @fail w e =>
      cases p with
      | done a => exact .of_done hq .fail
      | fail e =>
        cases hq
        exact .inr ⟨e, rfl, .fail⟩
      | _ => cases hq
    | @read w rest r w' h ih =>
      cases p with
      | done a => exact .of_done hq (.read h)
      | read rest =>
        cases hq
        exact (ih rfl).imp .read
      | _ => cases hq
    | @write w m rest r w' h ih =>
      cases p with
      | done a => exact .of_done hq (.write h)
      | write m rest =>
        cases hq
        exact (ih rfl).imp .write
      | _ => cases hq
    | @define w c rest r w' h ih =>
      cases p with
      | done a => exact .of_done hq (.define h)
      | define c rest =>
        cases hq
        exact (ih rfl).imp .define
      | _ => cases hq
    | @call w callee args answer w₁ rest r w' hc h ih =>
      cases p with
      | done a => exact .of_done hq (.call hc h)
      | call callee args rest =>
        cases hq
        exact (ih rfl).imp (.call hc)
      | _ => cases hq
    | @resume w t args answer w₁ rest r w' hc h ih =>
      cases p with
      | done a => exact .of_done hq (.resume hc h)
      | resume t args rest =>
        cases hq
        exact (ih rfl).imp (.resume hc)
      | _ => cases hq
    | @created w body t w₁ rest r w' hc h ih =>
      cases p with
      | done a => exact .of_done hq (.created hc h)
      | create body rest =>
        cases hq
        exact (ih rfl).imp (.created hc)
      | _ => cases hq
    | @notCreated w body e rest r w' hc h ih =>
      cases p with
      | done a => exact .of_done hq (.notCreated hc h)
      | create body rest =>
        cases hq
        exact (ih rfl).imp (.notCreated hc)
      | _ => cases hq
    | @closed w t w₁ rest r w' hc h ih =>
      cases p with
      | done a => exact .of_done hq (.closed hc h)
      | close t rest =>
        cases hq
        exact (ih rfl).imp (.closed hc)
      | _ => cases hq
    | @notClosed w t e rest r w' hc h ih =>
      cases p with
      | done a => exact .of_done hq (.notClosed hc h)
      | close t rest =>
        cases hq
        exact (ih rfl).imp (.notClosed hc)
      | _ => cases hq
    | @loop w s rest r w' h ih =>
      cases p with
      | done a => exact .of_done hq (.loop h)
      | loop s rest =>
        cases hq
        exact (ih (round_bind s rest f).symm).imp .loop
      | _ => cases hq
  · rintro (⟨a, w₁, hp, hf⟩ | ⟨e, rfl, hp⟩)
    · exact hp.bind hf
    · exact hp.bind_error

/-- A program in two parts succeeds if both of them do. -/
theorem runs_bind_ok_iff {b : β} : Runs B w (p.bind f) (.ok b) w' ↔
    ∃ a w₁, Runs B w p (.ok a) w₁ ∧ Runs B w₁ (f a) (.ok b) w' := by
  rw [runs_bind_iff]
  constructor
  · rintro (h | ⟨e, he, -⟩)
    · exact h
    · cases he
  · exact .inl

/-- A computation has to succeed for the program to do so. -/
theorem runs_ofArgument_bind_iff {x : Except ArgumentError α} {b : β} :
    Runs B w ((liftM x : Program H α) >>= f) (.ok b) w' ↔
      ∃ a, x = .ok a ∧ Runs B w (f a) (.ok b) w' := by
  cases x with
  | error e =>
    constructor
    · intro h
      exact absurd h not_runs_fail
    · rintro ⟨a, h, -⟩
      cases h
  | ok a =>
    rw [ok_bind]
    constructor
    · exact fun h => ⟨a, rfl, h⟩
    · rintro ⟨_, h, hf⟩
      cases h
      exact hf

end Program

/-! ### Runs of the machine -/

namespace Machine

/-- The first state from `m` on with a property is `m'`. -/
inductive Comes (B : Behaviour H) (Q : Machine H → Prop) : Machine H → Machine H → Prop
  | here {m} (h : Q m) : Comes B Q m m
  | later {m m₁ m'} (hn : ¬ Q m) (hs : m.step B = some m₁) (h : Comes B Q m₁ m') :
      Comes B Q m m'

/-- The owner's code on the boundaries `s` has come to its result. -/
def Ended (o : Owner) (s : List (Boundary H)) (m : Machine H) : Prop :=
  m.stack = s ∧ ∃ r, m.control = .host o (.ending r)

variable {Q P : Machine H → Prop} {m m₁ m' last : Machine H} {w w' : World H} {o : Owner}
  {s : List (Boundary H)} {p : Program H (o.Result H)} {r : Except Raised (o.Result H)}

theorem not_ended (h : ∀ r, p ≠ .ending r) : ¬ Ended o s ⟨w, s, .host o p⟩ := by
  rintro ⟨-, r, hr⟩
  obtain ⟨-, hp⟩ := Control.host.inj hr
  exact h r (eq_of_heq hp)

/-- A wait comes first if what is looked for cannot be met in the meantime. -/
theorem Comes.of_until (hu : Until B P m last m₁) (hQ : ∀ {x}, Q x → P x) (hm : ¬ Q m)
    (h : Comes B Q m₁ m') : Comes B Q m m' := by
  induction hu with
  | now hs _ => exact .later hm hs h
  | later hs hn _ ih => exact .later hm hs (ih (fun hq => hn (hQ hq)) h)

/-- The machine carries out the runs of programs. -/
theorem comes_of_runs (h : p.Runs B w r w') (s : List (Boundary H)) :
    Comes B (Ended o s) ⟨w, s, .host o p⟩ ⟨w', s, .host o (.ending r)⟩ := by
  induction h with
  | done => exact .here ⟨rfl, .ok _, rfl⟩
  | fail => exact .here ⟨rfl, .error _, rfl⟩
  | read _ ih => exact .later (not_ended (by rintro (_ | _) ⟨⟩)) rfl ih
  | write _ ih => exact .later (not_ended (by rintro (_ | _) ⟨⟩)) rfl ih
  | define _ ih => exact .later (not_ended (by rintro (_ | _) ⟨⟩)) rfl ih
  | loop _ ih => exact .later (not_ended (by rintro (_ | _) ⟨⟩)) rfl ih
  | call hc _ ih =>
    obtain ⟨last, hu⟩ := hc s o _
    exact .of_until hu (fun h => h.1) (not_ended (by rintro (_ | _) ⟨⟩)) ih
  | resume hr _ ih =>
    obtain ⟨last, hu⟩ := hr s o _
    exact .of_until hu (fun h => h.1) (not_ended (by rintro (_ | _) ⟨⟩)) ih
  | @created w body t w₁ rest r w' hc _ ih =>
    refine .later (not_ended (by rintro (_ | _) ⟨⟩)) ?_ ih
    show serve B w s o (.create body rest) = _
    rw [serve, hc]
  | @notCreated w body e rest r w' hc _ ih =>
    refine .later (not_ended (by rintro (_ | _) ⟨⟩)) ?_ ih
    show serve B w s o (.create body rest) = _
    rw [serve, hc]
  | @closed w t w₁ rest r w' hc _ ih =>
    refine .later (not_ended (by rintro (_ | _) ⟨⟩)) ?_ ih
    show serve B w s o (.close t rest) = _
    rw [serve, hc]
  | @notClosed w t e rest r w' hc _ ih =>
    refine .later (not_ended (by rintro (_ | _) ⟨⟩)) ?_ ih
    show serve B w s o (.close t rest) = _
    rw [serve, hc]

/-- If `m` is about to run code of the owner `o`, the code runs to the result it has in `m'`. -/
def RunsTo (B : Behaviour H) (o : Owner) (s : List (Boundary H)) (m m' : Machine H) : Prop :=
  ∀ w p, m = ⟨w, s, .host o p⟩ →
    ∃ r w', m' = ⟨w', s, .host o (.ending r)⟩ ∧ Program.Runs B w p r w'

/-- What the machine carries out are runs of programs. -/
theorem runsTo_of_comes (h : Comes B (Ended o s) m m') : RunsTo B o s m m' := by
  -- A request that the machine waits for leads to a state from which the run goes on.
  suffices hsuff : RunsTo B o s m m' ∧ (¬ Ended o s m →
      ∃ last m₁, Until B (fun x => x.stack = s) m last m₁ ∧ RunsTo B o s m₁ m') from hsuff.1
  induction h with
  | @here m h =>
    refine ⟨?_, fun hn => absurd h hn⟩
    rintro w p rfl
    obtain ⟨-, r, hr⟩ := h
    obtain ⟨-, hp⟩ := Control.host.inj hr
    obtain rfl := eq_of_heq hp
    refine ⟨r, w, rfl, ?_⟩
    cases r with
    | ok a => exact .done
    | error e => exact .fail
  | @later m m₁ m' hn hs h ih =>
    obtain ⟨hruns, hwaits⟩ := ih
    have hwait : ∃ last m₂, Until B (fun x => x.stack = s) m last m₂ ∧ RunsTo B o s m₂ m' := by
      by_cases hstack : m₁.stack = s
      · exact ⟨m, m₁, .now hs hstack, hruns⟩
      · obtain ⟨last, m₂, hu, h₂⟩ := hwaits fun he => hstack he.1
        exact ⟨last, m₂, .later hs hstack hu, h₂⟩
    refine ⟨?_, fun _ => hwait⟩
    rintro w p rfl
    cases p with
    | done a => exact absurd ⟨rfl, .ok a, rfl⟩ hn
    | fail e => exact absurd ⟨rfl, .error e, rfl⟩ hn
    | read rest =>
      obtain ⟨r, w', rfl, hr⟩ := hruns w (rest w) (Option.some.inj hs).symm
      exact ⟨r, w', rfl, .read hr⟩
    | write mem rest =>
      obtain ⟨r, w', rfl, hr⟩ := hruns { w with memory := mem } (rest ()) (Option.some.inj hs).symm
      exact ⟨r, w', rfl, .write hr⟩
    | define c rest =>
      obtain ⟨r, w', rfl, hr⟩ :=
        hruns (w.define c).2 (rest (w.define c).1) (Option.some.inj hs).symm
      exact ⟨r, w', rfl, .define hr⟩
    | loop st rest =>
      obtain ⟨r, w', rfl, hr⟩ := hruns w (B.round st rest) (Option.some.inj hs).symm
      exact ⟨r, w', rfl, .loop hr⟩
    | call callee args rest =>
      obtain ⟨last, m₂, hu, h₂⟩ := hwait
      obtain ⟨answer, w₁, rfl, hc⟩ := World.call_of_until hu
      obtain ⟨r, w', rfl, hr⟩ := h₂ w₁ (rest answer) rfl
      exact ⟨r, w', rfl, .call hc hr⟩
    | resume t args rest =>
      obtain ⟨last, m₂, hu, h₂⟩ := hwait
      obtain ⟨answer, w₁, rfl, hc⟩ := World.resume_of_until hu
      obtain ⟨r, w', rfl, hr⟩ := h₂ w₁ (rest answer) rfl
      exact ⟨r, w', rfl, .resume hc hr⟩
    | create body rest =>
      have hs : serve B w s o (.create body rest) = some m₁ := hs
      cases hc : w.createCoroutine body with
      | ok tw =>
        rw [serve, hc] at hs
        obtain ⟨r, w', rfl, hr⟩ := hruns tw.2 (rest (.ok tw.1)) (Option.some.inj hs).symm
        exact ⟨r, w', rfl, .created hc hr⟩
      | error e =>
        rw [serve, hc] at hs
        obtain ⟨r, w', rfl, hr⟩ := hruns w (rest (.error e)) (Option.some.inj hs).symm
        exact ⟨r, w', rfl, .notCreated hc hr⟩
    | close t rest =>
      have hs : serve B w s o (.close t rest) = some m₁ := hs
      cases hc : w.closeCoroutine t with
      | ok w₁ =>
        rw [serve, hc] at hs
        obtain ⟨r, w', rfl, hr⟩ := hruns w₁ (rest (.ok ())) (Option.some.inj hs).symm
        exact ⟨r, w', rfl, .closed hc hr⟩
      | error e =>
        rw [serve, hc] at hs
        obtain ⟨r, w', rfl, hr⟩ := hruns w (rest (.error e)) (Option.some.inj hs).symm
        exact ⟨r, w', rfl, .notClosed hc hr⟩

/-- **The runs of a program** are what the machine makes of it, on any boundaries. -/
theorem runs_iff_comes (s : List (Boundary H)) : p.Runs B w r w' ↔
    Comes B (Ended o s) ⟨w, s, .host o p⟩ ⟨w', s, .host o (.ending r)⟩ := by
  refine ⟨fun h => comes_of_runs h s, fun h => ?_⟩
  obtain ⟨r', w'', hm, hr⟩ := runsTo_of_comes h w p rfl
  obtain ⟨rfl, -, hc⟩ := Machine.mk.inj hm
  obtain ⟨-, hp⟩ := Control.host.inj hc
  obtain rfl : r = r' := by
    cases r <;> cases r' <;> cases eq_of_heq hp <;> rfl
  exact hr

end Machine

end Lua
