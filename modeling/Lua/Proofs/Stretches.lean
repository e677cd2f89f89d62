/-
What happens above a boundary.

While code runs above the boundary of a call or of a resume, the boundaries below do not matter.
So one can speak of its moves for all boundaries below at once:

* `Stretch` — a state of the machine above a boundary;
* `Stretch.Moves`, `Stretch.Ends` — a move above the boundary of a resume, and the fall of it;
* `Machine.Top` — the frames that the topmost boundary drives;
* `Behaviour.goOn`, `Behaviour.round` — the code of a frame, and of a round of a loop;
* `Machine.Before` — the states that the machine comes to before the first one with a property;
* `World.During` — the states of the machine during a resume.
-/
import Lua.Proofs.Resuming

namespace Lua

variable {H : Host}

open Machine

/-! ### Code of the host -/

/-- The code of one round of a loop, and what follows it. -/
def Behaviour.round {α : Type} (B : Behaviour H) (s : H.Loop) (rest : H.Answer → Program H α) :
    Program H α :=
  (B.advance s).bind fun
    | .inl s => .loop s rest
    | .inr answer => rest answer

/-- The code by which a frame goes on. -/
def Behaviour.goOn (B : Behaviour H) (f : Frame H) : Input → Program H (Step H)
  | .values vs => B.poll f.activation vs
  | .error e => B.recover f.activation e

/-! ### Stretches -/

/-- A state of the machine above the boundary of a resume. -/
structure Stretch (H : Host) where
  world : World H
  above : List (Boundary H)
  control : Control H

namespace Stretch

variable {B : Behaviour H}

/-- The state of the machine. -/
def on (x : Stretch H) (b : Boundary H) (s : List (Boundary H)) : Machine H :=
  ⟨x.world, x.above ++ b :: s, x.control⟩

/-- A move above the boundary. -/
def Moves (B : Behaviour H) (t c : ThreadId) (x y : Stretch H) : Prop :=
  ∀ s o rest, step B (x.on (.resume t c o rest) s) = some (y.on (.resume t c o rest) s)

/-- The boundary falls, and the resume answers. -/
def Ends (B : Behaviour H) (t c : ThreadId) (x : Stretch H) (w : World H)
    (r : Except ResumeError (List Value)) : Prop :=
  ∀ s o rest, step B (x.on (.resume t c o rest) s) = some ⟨w, s, .host o (rest r)⟩

/-- The topmost boundary falls. -/
def Falls (B : Behaviour H) (t c : ThreadId) (x : Stretch H) (w : World H) (oc : Outcome) :
    Prop :=
  ∀ s o rest, step B (x.on (.resume t c o rest) s) = fall w oc (x.above ++ .resume t c o rest :: s)

theorem on_stack_ne (x : Stretch H) (b : Boundary H) (s : List (Boundary H)) :
    (x.on b s).stack ≠ s := by
  intro h
  have hlen : (x.above ++ b :: s).length = s.length := congrArg List.length h
  rw [List.length_append, List.length_cons] at hlen
  omega

/-- The state of the machine if the embedding program has resumed the coroutine. -/
def embedded (x : Stretch H) (t c : ThreadId) : Machine H :=
  x.on (.resume t c .embedding Course.handOn) []

end Stretch

/-! ### Driven frames -/

namespace Machine

variable {B : Behaviour H} {w : World H} {t : ThreadId} {s : List (Boundary H)} {base : Nat}

/-- The topmost boundary drives the coroutine, and leaves some of its frames alone. -/
def Top (t : ThreadId) (base : Nat) (s : List (Boundary H)) : Prop :=
  ∃ b u, s = b :: u ∧ b.thread = t ∧ b.base = base

theorem Top.driven (h : Top t base s) : driven s = t := by
  obtain ⟨b, u, rfl, hb, -⟩ := h
  exact hb

theorem Top.drive_falls (h : Top t base s) (hf : (w.thread t).frames.length ≤ base)
    (input : Input) : drive B w input s = fall w input.outcome s := by
  obtain ⟨b, u, rfl, rfl, rfl⟩ := h
  simp only [drive, if_pos hf]
  cases input <;> rfl

theorem Top.drive_polls (h : Top t base s) {f : Frame H} {below : List (Frame H)}
    (hf : (w.thread t).frames = f :: below) (hb : base ≤ below.length) (input : Input) :
    drive B w input s
      = some ⟨w.setFrames t below, s, .host (.poll f.name) (B.goOn f input)⟩ := by
  obtain ⟨b, u, rfl, rfl, rfl⟩ := h
  have hlt : ¬ (f :: below).length ≤ b.base := Nat.not_le_of_lt (Nat.lt_succ_of_le hb)
  simp only [drive, hf, if_neg hlt]
  cases input <;> rfl

/-! ### Up to a state -/

/-- The states that the machine comes to before the first one with a property. -/
inductive Before (B : Behaviour H) (Q : Machine H → Prop) : Machine H → Machine H → Prop
  | now {m} : Before B Q m m
  | later {m m₁ m'} (hs : m.step B = some m₁) (hn : ¬ Q m₁) (h : Before B Q m₁ m') :
      Before B Q m m'

theorem Before.of_step {Q : Machine H → Prop} {m m₁ m' : Machine H} (h : Before B Q m m')
    (hs : m.step B = some m₁) : m' = m ∨ ¬ Q m₁ ∧ Before B Q m₁ m' := by
  cases h with
  | now => exact .inl rfl
  | later hs' hn h =>
    obtain rfl := Option.some.inj (hs.symm.trans hs')
    exact .inr ⟨hn, h⟩

end Machine

/-- The states of the machine during a resume. -/
def World.During (B : Behaviour H) (w : World H) (t : ThreadId) (args : List Value) :
    Machine H → Prop :=
  Before B (fun m => m.stack = []) ⟨w, [], .host .embedding (.resume t args Course.handOn)⟩

/-! ### The start of a resume -/

variable {B : Behaviour H} {w w₁ : World H} {t : ThreadId} {args : List Value}

/-- A resume that is refused changes nothing. -/
theorem step_refused {er : CoroutineError} (h : w.enterCoroutine t = .error er)
    (s : List (Boundary H)) (o : Owner)
    (rest : Except ResumeError (List Value) → Program H (o.Result H)) :
    step B ⟨w, s, .host o (.resume t args rest)⟩
      = some ⟨w, s, .host o (rest (.error (.refused er)))⟩ := by
  show some (beginResume B w s o t args rest) = _
  rw [beginResume, h]

namespace World

/-- The start of a resume, above its boundary. -/
def resumed (B : Behaviour H) (w : World H) (t : ThreadId) (args : List Value) : Stretch H :=
  match (w.thread t).body with
  | some body =>
    let begun := (w.dropBody t).invoke B t body args
    ⟨begun.1, [], begun.2⟩
  | none => ⟨w, [], .drive (.values args)⟩

theorem step_resume_entered (h : w.enterCoroutine t = .ok w₁) (s : List (Boundary H)) (o : Owner)
    (rest : Except ResumeError (List Value) → Program H (o.Result H)) :
    step B ⟨w, s, .host o (.resume t args rest)⟩
      = some ((w₁.resumed B t args).on (.resume t w.current o rest) s) := by
  show some (beginResume B w s o t args rest) = _
  simp only [beginResume, h, resumed]
  cases (w₁.thread t).body <;> rfl

/-- A coroutine that starts has no boundaries of its own yet. -/
theorem resumed_above : (w.resumed B t args).above = [] := by
  rw [resumed]
  cases (w.thread t).body <;> rfl

theorem resumed_on (b : Boundary H) (s : List (Boundary H)) :
    (w.resumed B t args).on b s
      = ⟨(w.resumed B t args).world, b :: s, (w.resumed B t args).control⟩ := by
  rw [Stretch.on, resumed_above]
  rfl

/-- A resume has at most one end. -/
theorem Resume.unique {w₂ : World H} {r r' : Except ResumeError (List Value)}
    (h : w.Resume B t args r w₁) (h' : w.Resume B t args r' w₂) : r = r' ∧ w₁ = w₂ := by
  obtain ⟨last, hu⟩ := h [] .embedding Course.handOn
  obtain ⟨last', hu'⟩ := h' [] .embedding Course.handOn
  obtain ⟨hw, hr⟩ := Course.eq_of_handOn (hu.unique hu')
  exact ⟨hr, hw⟩

end World

end Lua
