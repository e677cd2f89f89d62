/-
Resumes on two instances.

A resume of a coroutine that keeps to itself comes to an end on an instance if it does on one that
is alike to it, and answers the same up to names:

* `Stretch.Comes` — the machine comes to the end of a resume, whatever waits below;
* `Lockstep.comes` — states in step come to the same end, if one of them comes to one;
* `World.Alike.resume` — two resumes of a coroutine that keeps to itself.

Design notes: it is on the first instance that the coroutine keeps to itself, and in it that it
runs alone.  Either of the two resumes may be the one that is known to end, for coroutines are
first taken out of a row of resumes, and then put together in another one.
-/
import Lua.Proofs.Lockstep

namespace Lua

variable {H : Host} {B : Behaviour H} {t c : ThreadId}

open Machine World

/-! ### The end of a resume -/

namespace Stretch

variable {x y : Stretch H} {w : World H} {r : Except ResumeError (List Value)}

/-- The machine comes to the end of the resume. -/
def Comes (B : Behaviour H) (t c : ThreadId) (x : Stretch H) (w : World H)
    (r : Except ResumeError (List Value)) : Prop :=
  ∀ s o rest, ∃ last, Until B (fun m => m.stack = s) (x.on (.resume t c o rest) s) last
    ⟨w, s, .host o (rest r)⟩

theorem Ends.comes (h : x.Ends B t c w r) : x.Comes B t c w r := fun s o rest =>
  ⟨_, .now (h s o rest) rfl⟩

theorem Comes.of_moves (h : y.Comes B t c w r) (hm : x.Moves B t c y) : x.Comes B t c w r := by
  intro s o rest
  obtain ⟨last, hu⟩ := h s o rest
  exact ⟨last, .later (hm s o rest) (y.on_stack_ne _ _) hu⟩

/-- A resume that is not refused answers what its stretch comes to. -/
theorem Comes.resume {w₀ w₁ : World H} {args : List Value}
    (h : (w₁.resumed B t args).Comes B t c w r) (he : w₀.enterCoroutine t = .ok w₁)
    (hc : w₀.current = c) : w₀.Resume B t args r w := by
  subst hc
  intro s o rest
  obtain ⟨last, hu⟩ := h s o rest
  exact ⟨last, .later (step_resume_entered he s o rest) (Stretch.on_stack_ne _ _ _) hu⟩

end Stretch

theorem World.Resume.consistent {w w' : World H} {args : List Value}
    {r : Except ResumeError (List Value)} {s : List (Boundary H)} {o : Owner}
    (h : w.Resume B t args r w') (hw : Consistent ⟨w, s, some o⟩) :
    Consistent ⟨w', s, some o⟩ := by
  obtain ⟨last, hu⟩ := h s o fun _ => .fail (.cause (.broken ""))
  exact hu.consistent hw

/-! ### Two resumes -/

variable [NamedHost H] {P : Type} [Named P] {Z : Commons H P} {R S : Renaming}

section

variable {e a w : World H} {x x' : Stretch H} {args args' : List Value} {last m m' : Machine H}
  {s₀ : List (Boundary H)} {o₀ : Owner}
  {rest₀ : Except ResumeError (List Value) → Program H (o₀.Result H)}

/-- **States in step** come to the same end, if one of them comes to one. -/
theorem Lockstep.comes (hr : Entered Z t c R s₀) (h : Lockstep Z t R e S x x')
    (hx : Consistent (x.on (.resume t c o₀ rest₀) s₀).situation)
    (hx' : Consistent (x'.on (.resume t c o₀ rest₀) s₀).situation)
    (hc : ∀ m, Before B (fun m => m.stack = []) (x.embedded t c) m → Confined Z t B m)
    (hu : Until B (fun m => m.stack = []) m last m')
    (hm : m = x.embedded t c ∨ m = x'.embedded t c) :
    ∃ S v v' oc oc', x.Comes B t c (v.left t c oc) (oc.handed t) ∧
      x'.Comes B t c (v'.left t c oc') (oc'.handed t) ∧ Twin Z t R e S v v' ∧
      Stands S oc oc' := by
  induction hu generalizing S x x' with
  | now hs hp =>
    cases h.next hr hx.chained hx'.chained (hc _ .now) with
    | @move T y z hy hz _ =>
      -- A move stays above the boundary.
      rcases hm with rfl | rfl
      · obtain rfl := Option.some.inj ((hy [] .embedding Course.handOn).symm.trans hs)
        exact absurd hp (y.on_stack_ne _ _)
      · obtain rfl := Option.some.inj ((hz [] .embedding Course.handOn).symm.trans hs)
        exact absurd hp (z.on_stack_ne _ _)
    | fall he he' ht ho => exact ⟨_, _, _, _, _, he.comes, he'.comes, ht, ho⟩
  | later hs hn _ ih =>
    cases h.next hr hx.chained hx'.chained (hc _ .now) with
    | @move T y z hy hz hyz =>
      have hstep := hy [] .embedding Course.handOn
      have hconf : ∀ m, Before B (fun m => m.stack = []) (y.embedded t c) m →
          Confined Z t B m := fun m hm => hc m (.later hstep (y.on_stack_ne _ _) hm)
      have hnext := ih hyz (hx.step (hy s₀ o₀ rest₀)) (hx'.step (hz s₀ o₀ rest₀)) hconf
      obtain ⟨U, v, v', oc, oc', hv, hv', ht, ho⟩ := by
        refine hnext ?_
        rcases hm with rfl | rfl
        · exact .inl (Option.some.inj (hs.symm.trans hstep))
        · exact .inr (Option.some.inj (hs.symm.trans (hz [] .embedding Course.handOn)))
      exact ⟨U, v, v', oc, oc', hv.of_moves hy, hv'.of_moves hz, ht, ho⟩
    | fall he he' ht ho => exact ⟨_, _, _, _, _, he.comes, he'.comes, ht, ho⟩

/-- **A resume** of a coroutine that keeps to itself, alone in one instance and among others in one
that is alike to it: if one of the two ends, both do, and they answer the same. -/
theorem World.Alike.resume (h : a.Alike Z t R w) (hr : Entered Z t w.current R s₀)
    (ha : Consistent ⟨a, s₀, some o₀⟩) (hw : Consistent ⟨w, s₀, some o₀⟩)
    (hargs : Stands R args args')
    (hc : ∀ m, a.During B t args m → Confined Z t B m)
    (hres : (∃ r a₁, a.Resume B t args r a₁) ∨ ∃ r w₁, w.Resume B t args' r w₁) :
    ∃ S r r' a₁ w₁, a.Resume B t args r a₁ ∧ w.Resume B t args' r' w₁ ∧
      Twin Z t R w S a₁ w₁ ∧ Stands S r r' := by
  have hcur : a.current = w.current := ha.chained.current.trans hw.chained.current.symm
  have hrun : (a.thread a.current).status = .running := by
    rw [ha.chained.current]
    exact ha.chained.top
  have hrun' : (w.thread w.current).status = .running := by
    rw [hw.chained.current]
    exact hw.chained.top
  rcases h.enterCoroutine hr.self hrun hrun' with ⟨er, he, he'⟩ | ⟨hst, he, he'⟩
  · exact ⟨R, _, _, a, w, fun s o rest => ⟨_, .now (step_refused he s o rest) rfl⟩,
      fun s o rest => ⟨_, .now (step_refused he' s o rest) rfl⟩, .refl h,
      .error (ResumeError.Stand.refused er)⟩
  · have hstep : ∀ s o rest, step B ⟨a, s, .host o (.resume t args rest)⟩
        = some (((a.entered t).resumed B t args).on (.resume t w.current o rest) s) :=
      fun s o rest => hcur ▸ step_resume_entered he s o rest
    have hstep' : ∀ s o rest, step B ⟨w, s, .host o (.resume t args' rest)⟩
        = some (((w.entered t).resumed B t args').on (.resume t w.current o rest) s) :=
      step_resume_entered he'
    have hl : Lockstep Z t R w R ((a.entered t).resumed B t args)
        ((w.entered t).resumed B t args') := by
      obtain ⟨htwin, -, hpair⟩ := Lockstep.of_resumed (B := B) ((Twin.refl h).entered hr.self)
        .nil hr.self hr.own hargs fun f hf => (hc _ .now).called f args
          (.body ((keep_entered Thread.body t).symm.trans hf))
      refine ⟨htwin, ?_, hpair⟩
      rw [resumed_above, resumed_above]
      exact .nil
    have hconf : ∀ m, Before B (fun m => m.stack = [])
        (((a.entered t).resumed B t args).embedded t w.current) m → Confined Z t B m :=
      fun m hm => hc m (.later (hstep [] .embedding _) (Stretch.on_stack_ne _ _ _) hm)
    -- One of the two resumes is known to end, and so the coroutine comes to the end of it.
    have hend : ∃ m last m', Until B (fun m => m.stack = []) m last m' ∧
        (m = ((a.entered t).resumed B t args).embedded t w.current ∨
          m = ((w.entered t).resumed B t args').embedded t w.current) := by
      rcases hres with ⟨r, a₁, hres⟩ | ⟨r, w₁, hres⟩
      · obtain ⟨last, hu⟩ := hres [] .embedding Course.handOn
        exact ⟨_, last, _, hu.of_step (hstep [] .embedding _) (Stretch.on_stack_ne _ _ _),
          .inl rfl⟩
      · obtain ⟨last, hu⟩ := hres [] .embedding Course.handOn
        exact ⟨_, last, _, hu.of_step (hstep' [] .embedding _) (Stretch.on_stack_ne _ _ _),
          .inr rfl⟩
    obtain ⟨m, last, m', hu, hm⟩ := hend
    obtain ⟨S, v, v', oc, oc', hv, hv', ht, ho⟩ := hl.comes hr
      (ha.step (hstep s₀ o₀ fun _ => .fail (.cause (.broken ""))))
      (hw.step (hstep' s₀ o₀ fun _ => .fail (.cause (.broken "")))) hconf hu hm
    have hself : Stands S t t := ht.le _ _ hr.self
    have hcaller : Stands S w.current w.current := ht.alike.memory.common _ hr.caller
    exact ⟨S, _, _, _, _, hv.resume he hcur, hv'.resume he' rfl,
      ht.left hself hcaller ho, Outcome.stands_handed ho hself⟩

end

end Lua
