/-
How boundaries go up and fall.

Host code that waits is behind a boundary.  One move puts up at most one boundary or lets the
topmost one fall, so the code behind a boundary goes on at the first move that leads back to
the boundaries below it:

* `Machine.Falls` — the two ways in which the driven frames come to an end: they have all been
  left, or one of them yields;
* `Machine.step_stack` — a move keeps the boundaries, puts one up or lets one fall;
* `Machine.Until.fall` — how a wait ends.
-/
import Lua.Proofs.Depth

namespace Lua

variable {H : Host}

namespace Machine

variable {B : Behaviour H} {m m' : Machine H}

/-- The driven frames come to an end behind a boundary: in the state of the world in which the
boundary falls, with an outcome. -/
inductive Falls (m : Machine H) (b : Boundary H) : World H → Outcome → Prop
  | left (input : Input) (hc : m.control = .drive input)
      (hf : (m.world.thread b.thread).frames.length ≤ b.base) : Falls m b m.world input.outcome
  | yielded (name : String) (vs : List Value) (next : Activation H)
      (hc : m.control = .host (.poll name) (.done (.yield vs next)))
      (hy : m.world.checkYield b.thread = .ok ()) :
      Falls m b (m.world.pushFrame b.thread ⟨name, next⟩) (.yielded vs)

/-- Driving keeps the boundaries or lets the topmost one fall. -/
theorem drive_stack {w : World H} {input : Input} {s : List (Boundary H)}
    (h : drive B w input s = some m') :
    m'.stack = s ∨ ∃ b s₁ w₁ oc, s = b :: s₁ ∧ Falls ⟨w, s, .drive input⟩ b w₁ oc ∧
      fall w₁ oc (b :: s₁) = some m' := by
  cases s with
  | nil => exact absurd h (by simp [drive])
  | cons b s =>
    simp only [drive] at h
    by_cases hb : (w.thread b.thread).frames.length ≤ b.base
    · rw [if_pos hb] at h
      refine .inr ⟨b, s, w, input.outcome, rfl, .left input rfl hb, ?_⟩
      cases input <;> exact h
    · rw [if_neg hb] at h
      cases hf : (w.thread b.thread).frames with
      | nil =>
        rw [hf] at hb
        exact absurd (Nat.zero_le _) hb
      | cons f below =>
        rw [hf] at h
        cases h
        exact .inl rfl

/-- The end of a poll keeps the boundaries, unless it yields. -/
theorem perform_stack {w : World H} {name : String} {st : Step H} {s : List (Boundary H)}
    (h : perform B w s name st = some m') :
    m'.stack = s ∨ ∃ b s₁ w₁ oc, s = b :: s₁ ∧
      Falls ⟨w, s, .host (.poll name) (.done st)⟩ b w₁ oc ∧
      fall w₁ oc (b :: s₁) = some m' := by
  cases st with
  | yield vs next =>
    simp only [perform] at h
    cases hc : w.checkYield (driven s) with
    | error e =>
      -- A yield that is refused is an error of the frame that yields.
      rw [hc] at h
      cases h
      exact .inl rfl
    | ok u =>
      rw [hc] at h
      cases s with
      | nil => exact absurd h (by simp [fall])
      | cons b s => exact .inr ⟨b, s, _, _, rfl, .yielded name vs next rfl hc, h⟩
  | _ =>
    cases h
    exact .inl rfl

/-- The beginning of a wait puts up a boundary, unless it is refused. -/
theorem beginCall_stack (w : World H) (s : List (Boundary H)) (o : Owner) (callee : Value)
    (args : List Value) (rest : Except TracedError (List Value) → Program H (o.Result H)) :
    (beginCall B w s o callee args rest).stack = s ∨
      ∃ b, (beginCall B w s o callee args rest).stack = b :: s := by
  rw [beginCall]
  cases w.enterHost with
  | error e => exact .inl rfl
  | ok w => exact .inr ⟨_, rfl⟩

theorem beginResume_stack (w : World H) (s : List (Boundary H)) (o : Owner) (t : ThreadId)
    (args : List Value) (rest : Except ResumeError (List Value) → Program H (o.Result H)) :
    (beginResume B w s o t args rest).stack = s ∨
      ∃ b, (beginResume B w s o t args rest).stack = b :: s := by
  rw [beginResume]
  cases w.enterCoroutine t with
  | error e => exact .inl rfl
  | ok entered =>
    simp only
    cases (entered.thread t).body with
    | some body => exact .inr ⟨_, rfl⟩
    | none => exact .inr ⟨_, rfl⟩

/-- **A move** keeps the boundaries, puts one up, or lets the topmost one fall. -/
theorem step_stack (h : m.step B = some m') :
    m'.stack = m.stack ∨ (∃ b, m'.stack = b :: m.stack) ∨
      ∃ b s w oc, m.stack = b :: s ∧ Falls m b w oc ∧ fall w oc (b :: s) = some m' := by
  obtain ⟨w, s, control⟩ := m
  cases control with
  | drive input =>
    rcases drive_stack (show drive B w input s = some m' from h) with hs | hs
    · exact .inl hs
    · exact .inr (.inr hs)
  | host owner p =>
    have hs : serve B w s owner p = some m' := h
    cases p with
    | done r =>
      cases owner with
      | embedding => exact absurd hs (by simp [serve, finish])
      | native name =>
        cases hs
        exact .inl rfl
      | poll name =>
        rcases perform_stack (show perform B w s name r = some m' from hs) with hp | hp
        · exact .inl hp
        · exact .inr (.inr hp)
    | fail e =>
      cases owner with
      | embedding => exact absurd hs (by simp [serve, abort])
      | _ =>
        cases hs
        exact .inl rfl
    | call callee args rest =>
      cases hs
      rcases beginCall_stack (B := B) w s owner callee args rest with hc | hc
      · exact .inl hc
      · exact .inr (.inl hc)
    | resume t args rest =>
      cases hs
      rcases beginResume_stack (B := B) w s owner t args rest with hr | hr
      · exact .inl hr
      · exact .inr (.inl hr)
    | create body rest =>
      simp only [serve] at hs
      cases hc : w.createCoroutine body with
      | ok r =>
        rw [hc] at hs
        cases hs
        exact .inl rfl
      | error e =>
        rw [hc] at hs
        cases hs
        exact .inl rfl
    | close t rest =>
      simp only [serve] at hs
      cases hc : w.closeCoroutine t with
      | ok r =>
        rw [hc] at hs
        cases hs
        exact .inl rfl
      | error e =>
        rw [hc] at hs
        cases hs
        exact .inl rfl
    | _ =>
      cases hs
      exact .inl rfl

/-- The fall of a boundary lowers the stack and lets its owner go on. -/
theorem fall_situation {w : World H} {oc : Outcome} {b : Boundary H} {s : List (Boundary H)}
    (h : fall w oc (b :: s) = some m') :
    m'.stack = s ∧ m'.control.active = some b.owner := by
  cases b with
  | call t base o rest =>
    cases h
    exact ⟨rfl, rfl⟩
  | resume t c o rest =>
    cases h
    exact ⟨rfl, rfl⟩

/-! ### Waiting -/

/-- Once a boundary is up, the first move that leads back to the stack below it is its fall. -/
theorem Until.fall {s : List (Boundary H)} {b : Boundary H} {m₁ last : Machine H}
    (hu : Until B (fun x => x.stack = s) m₁ last m') (hm₁ : m₁.stack = b :: s) :
    ∃ w oc, last.stack = b :: s ∧ Falls last b w oc ∧ fall w oc (b :: s) = some m' := by
  -- As long as the stack is not `s`, the boundary `b` is somewhere in it.
  have habove : ∃ front, last.stack = front ++ b :: s := by
    refine hu.keep (Q := fun x => ∃ front, x.stack = front ++ b :: s) ⟨[], hm₁⟩ ?_
    rintro x y ⟨front, hx⟩ hs hy
    rcases step_stack hs with hk | ⟨b', hk⟩ | ⟨b', s', w, oc, hxs, -, hf⟩
    · exact ⟨front, hk.trans hx⟩
    · exact ⟨b' :: front, by rw [hk, hx]; rfl⟩
    · have hy' : y.stack = s' := (fall_situation hf).1
      rw [hxs] at hx
      cases front with
      | nil =>
        obtain ⟨rfl, rfl⟩ := List.cons.inj hx
        exact absurd hy' hy
      | cons b'' front =>
        obtain ⟨-, rfl⟩ := List.cons.inj hx
        exact ⟨front, hy'⟩
  obtain ⟨front, hl⟩ := habove
  have hlong : last.stack ≠ s := by
    intro he
    have hlen := congrArg List.length (he.symm.trans hl)
    simp at hlen
    omega
  have hend : m'.stack = s := hu.holds
  -- The last move shortens the stack, so it is a fall, and only `b` can have fallen.
  rcases step_stack hu.step_last with hk | ⟨b', hk⟩ | ⟨b', s', w, oc, hls, hfalls, hf⟩
  · exact absurd (hk.symm.trans hend) hlong
  · have hlen := congrArg List.length (hend.symm.trans (hk.trans (congrArg (b' :: ·) hl)))
    simp at hlen
    omega
  · have hs' : s' = s := (fall_situation hf).1.symm.trans hend
    subst hs'
    rw [hls] at hl
    have hfront : front = [] := by
      have hlen := congrArg List.length hl
      simpa using hlen
    subst hfront
    obtain ⟨rfl, -⟩ := List.cons.inj hl
    exact ⟨w, oc, hls, hfalls, hf⟩

end Machine

end Lua
