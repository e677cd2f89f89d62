/-
Yields during a call by host code.

Host code that has called a function cannot be left in the middle of the call.  If the function
asks to yield, the request is an error, which is raised where the request was made.  So it takes
the way of all errors: the functions that were called meanwhile may catch it, and if there are none
left, the call fails with it.

* `Stretch.before_on` — what is met during a call does not depend on who calls;
* `YieldRefused` — a request to yield that is an error;
* `Machine.Reachable.yield_refused` — every request to yield during a call is one.

Design notes: a coroutine that is resumed during the call may yield as it likes.  It is driven
behind a boundary of its own, and only requests right above the boundary of the call would leave it.
-/
import Lua.Proofs.RelayedResumes

namespace Lua

variable {H : Host} {B : Behaviour H}

open Machine

/-! ### What is met during a wait -/

namespace Machine

variable {Q : Machine H → Prop} {m x y : Machine H}

theorem Before.reachable (h : Before B Q m x) (hm : Reachable B m) : Reachable B x := by
  induction h with
  | now => exact hm
  | later hs _ _ ih => exact ih (hm.step hs)

theorem Before.tail (h : Before B Q m x) (hs : x.step B = some y) (hn : ¬ Q y) :
    Before B Q m y := by
  induction h with
  | now => exact .later hs hn .now
  | later hs' hn' _ ih => exact .later hs' hn' (ih hs)

theorem Before.until (h : Before B Q m x) (hs : x.step B = some y) (hq : Q y) :
    Until B Q m x y := by
  induction h with
  | now => exact .now hs hq
  | later hs' hn' _ ih => exact .later hs' hn' (ih hs)

end Machine

/-- The states that are met above a boundary are met above all similar boundaries. -/
theorem Stretch.before_on {x : Stretch H} {b : Boundary H} {s : List (Boundary H)} {m : Machine H}
    (h : Before B (fun m => m.stack = s) (x.on b s) m) :
    ∃ y : Stretch H, m = y.on b s ∧ ∀ b' s', b.Similar b' →
      Before B (fun m => m.stack = s') (x.on b' s') (y.on b' s') := by
  have hb : b.Similar b := by cases b <;> constructor
  generalize hx : x.on b s = m₀ at h
  induction h generalizing x with
  | now => exact ⟨x, hx.symm, fun _ _ _ => .now⟩
  | later hs hn _ ih =>
    subst hx
    cases x.step_on b with
    | move y hy =>
      obtain rfl := Option.some.inj (hs.symm.trans (hy b s hb))
      obtain ⟨z, hz, hall⟩ := ih rfl
      exact ⟨z, hz, fun b' s' hb' => .later (hy b' s' hb') (y.on_stack_ne b' s') (hall b' s' hb')⟩
    | stuck hnone => cases hs.symm.trans (hnone b s hb)
    | fall w oc hf => exact absurd (fall_situation ((hf b s hb).symm.trans hs)).1 hn

/-! ### Requests to yield -/

variable {w : World H} {t : ThreadId} {callee : Value} {args : List Value} {name : String}

/-- A yield that is not allowed is refused for one of two reasons. -/
theorem World.checkYield_error (h : w.checkYield t ≠ .ok ()) : ∃ e, w.checkYield t = .error e ∧
    (e = .yieldOutsideCoroutine ∨ e = .yieldAcrossBoundary) := by
  rw [checkYield] at h ⊢
  split
  case isTrue => exact ⟨_, rfl, .inl rfl⟩
  case isFalse hcoroutine =>
    rw [if_neg hcoroutine] at h
    split
    case isTrue => exact ⟨_, rfl, .inr rfl⟩
    case isFalse hyieldable => exact absurd (if_neg hyieldable) h

/-- During a call the frame `name` has asked to yield, behind the boundary `b` of the call, and the
request is an error. -/
structure YieldRefused (B : Behaviour H) (w : World H) (callee : Value) (args : List Value)
    (name : String) (b : Boundary H) (x : Machine H) (e : CoroutineError) : Prop where
  reason : e = .yieldOutsideCoroutine ∨ e = .yieldAcrossBoundary
  /-- The functions that are left may catch it. -/
  raised : x.step B = some ⟨x.world, x.stack, .drive (.error (.raisedBy name (.coroutine e)))⟩
  /-- If there are none, the call fails with it. -/
  uncaught : (x.world.thread b.thread).frames.length ≤ b.base →
    ∃ w', w.Call B callee args (.error (.raisedBy name (.coroutine e))) w'

/-- **No yield leaves a call by host code**: the request is an error in the function that makes
it. -/
theorem Machine.Reachable.yield_refused {m x : Machine H} {b : Boundary H} {o : Owner}
    {rest : Except TracedError (List Value) → Program H (o.Result H)} {vs : List Value}
    {next : Activation H} (hm : Reachable B m)
    (hcall : m.control = .host o (.call callee args rest))
    (hx : Before B (fun y => y.stack = m.stack) m x) (hstack : x.stack = b :: m.stack)
    (hyield : x.control = .host (.poll name) (.done (.yield vs next))) :
    ∃ e, YieldRefused B m.world callee args name b x e := by
  obtain ⟨w, s, control⟩ := m
  obtain rfl : control = _ := hcall
  have hcounted := (hx.reachable hm).counted
  have hlonger : x.stack ≠ s := fun he => append_cons_ne_self [] b s (hstack.symm.trans he)
  cases henter : w.enterHost with
  | error e =>
    -- a call that is refused at once meets nothing
    rcases hx.of_step (World.step_call_refused henter s o rest) with rfl | ⟨hn, -⟩
    · exact absurd rfl hlonger
    · exact absurd rfl hn
  | ok w₁ =>
    rcases hx.of_step (World.step_call_entered henter s o rest) with rfl | ⟨-, hx⟩
    · exact absurd rfl hlonger
    obtain ⟨y, rfl, hall⟩ := Stretch.before_on hx
    obtain ⟨wy, above, control⟩ := y
    obtain rfl : control = _ := hyield
    have habove : above = [] := by
      have hlen : (above ++ _ :: s).length = (b :: s).length := congrArg List.length hstack
      rw [List.length_append, List.length_cons, List.length_cons] at hlen
      exact List.eq_nil_of_length_eq_zero (by omega)
    subst habove
    obtain ⟨rfl, -⟩ := List.cons.inj hstack
    obtain ⟨e, he, hreason⟩ := World.checkYield_error hcounted.not_escape
    have hstep : ∀ base o' rest' s', Machine.step B ⟨wy, .call w₁.current base o' rest' :: s',
        .host (.poll name) (.done (.yield vs next))⟩ =
          some ⟨wy, .call w₁.current base o' rest' :: s',
            .drive (.error (.raisedBy name (.coroutine e)))⟩ := by
      intro base o' rest' s'
      show perform B wy (.call w₁.current base o' rest' :: s') name (.yield vs next) = _
      have he' : wy.checkYield (driven (.call w₁.current base o' rest' :: s')) = .error e := he
      rw [perform, he']
    refine ⟨e, hreason, hstep _ _ _ _, fun hle => ⟨wy.leaveCall w₁.current, fun s' o' rest' => ?_⟩⟩
    have hnext := (hall _ s' (@Boundary.Similar.call H _ _ _ o' _ rest')).tail (hstep _ o' rest' s')
      (append_cons_ne_self [] _ s')
    have hwait := hnext.until (if_pos hle) (show _ = s' from rfl)
    exact ⟨_, .later (World.step_call_entered henter s' o' rest') (Stretch.on_stack_ne _ _ _) hwait⟩

/-- Every request to yield during a call by host code is refused, in whatever state of a run the
call is made. -/
def YieldsRefused (B : Behaviour H) (callee : Value) (args : List Value) : Prop :=
  ∀ {m x : Machine H} {b : Boundary H} {o : Owner} {rest name vs next}, Reachable B m →
    m.control = .host o (.call callee args rest) → Before B (fun y => y.stack = m.stack) m x →
    x.stack = b :: m.stack → x.control = .host (.poll name) (.done (.yield vs next)) →
      ∃ e, YieldRefused B m.world callee args name b x e

theorem yields_refused : YieldsRefused B callee args := fun hm => hm.yield_refused

end Lua
