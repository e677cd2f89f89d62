/-
Single resumes and rows of resumes.

While a coroutine runs without calling back into the machine, what it does does not depend on
who resumed it.  It has a course of its own behind the boundary of the resume, from the first
move to the fall of the boundary, and a row of resumes strings such courses together.

* `World.Resume` — a resume of a coroutine on any stack of boundaries, with its answer;
* `World.Yields`, `World.Finishes` — a row of resumes that yield, and one that ends;
* `Course.Moves`, `Course.Ends` — a move behind the boundary, and the fall of the boundary;
* `Course.of_all`, `Course.moves_after` — what holds on a course, and where it leads, computed;
* `World.resume_of_ends`, `Course.ends_of_resume` — a course up to its end is a resume;
* `Course.Turns` — the courses of a row of resumes as one course;
* `Course.finishes_of_turns`, `Course.turns_of_yields` — a course of turns is a row of resumes.

Design notes: moves and ends are stated for all boundaries below at once, so that nothing has to
be said about moving a course from one stack to another.
-/
import Lua.Proofs.Run
import Mathlib.Logic.Relation

namespace Lua

variable {H : Host}

open Relation (ReflTransGen)
open Machine

/-! ### Resumes -/

namespace World

/-- Whatever host code resumes `t` with `args` in the world `w`, the resume answers `r` and
leaves the world `w'`. -/
def Resume (B : Behaviour H) (w : World H) (t : ThreadId) (args : List Value)
    (r : Except ResumeError (List Value)) (w' : World H) : Prop :=
  ∀ s o rest, ∃ last, Until B (fun m => m.stack = s) ⟨w, s, .host o (.resume t args rest)⟩ last
    ⟨w', s, .host o (rest r)⟩

/-- The coroutine `t` is resumed with one input after the other, and yields each of the lists
in turn. -/
inductive Yields (B : Behaviour H) (t : ThreadId) (inputs : Nat → List Value) (w : World H) :
    List (List Value) → World H → Prop
  | nil : Yields B t inputs w [] w
  | snoc {ys v w₁ w₂} (h : Yields B t inputs w ys w₁)
      (hr : w₁.Resume B t (inputs ys.length) (.ok v) w₂)
      (hs : (w₂.thread t).status = .suspended) : Yields B t inputs w (ys ++ [v]) w₂

/-- The coroutine yields each of the lists in turn, and the next resume is its last. -/
def Finishes (B : Behaviour H) (t : ThreadId) (inputs : Nat → List Value) (w : World H)
    (ys : List (List Value)) (r : Except ResumeError (List Value)) (w' : World H) : Prop :=
  ∃ w₁, w.Yields B t inputs ys w₁ ∧ w₁.Resume B t (inputs ys.length) r w' ∧
    (w'.thread t).status = .dead

/-- Each part of the row that comes first is a row. -/
theorem Yields.take {B : Behaviour H} {t : ThreadId} {inputs : Nat → List Value} {w w' : World H}
    {ys : List (List Value)} (h : w.Yields B t inputs ys w') {zs : List (List Value)}
    (hz : zs <+: ys) : ∃ w'', w.Yields B t inputs zs w'' := by
  induction h with
  | nil =>
    rw [List.prefix_nil.mp hz]
    exact ⟨w, .nil⟩
  | @snoc ys v w₁ w₂ h hr hs ih =>
    rcases List.prefix_concat_iff.mp hz with rfl | hz
    · exact ⟨w₂, h.snoc hr hs⟩
    · exact ih hz

end World

/-! ### Courses -/

/-- The state of a coroutine that runs: the state of the machine without the boundaries. -/
structure Course (H : Host) where
  world : World H
  control : Control H

namespace Course

variable {B : Behaviour H} {t c : ThreadId} {x y z : Course H} {w w' w₁ w₂ : World H}
  {r r' : Except ResumeError (List Value)} {args : List Value}

/-- The state of the machine. -/
def behind (x : Course H) (t c : ThreadId) (s : List (Boundary H)) (o : Owner)
    (rest : Except ResumeError (List Value) → Program H (o.Result H)) : Machine H :=
  ⟨x.world, .resume t c o rest :: s, x.control⟩

/-- A resume starts a course. -/
def Starts (B : Behaviour H) (w : World H) (t : ThreadId) (args : List Value)
    (x : Course H) : Prop :=
  ∀ s o rest, step B ⟨w, s, .host o (.resume t args rest)⟩ = some (x.behind t w.current s o rest)

/-- A move behind the boundary. -/
def Moves (B : Behaviour H) (t c : ThreadId) (x y : Course H) : Prop :=
  ∀ s o rest, step B (x.behind t c s o rest) = some (y.behind t c s o rest)

/-- The boundary falls, and the resume answers. -/
def Ends (B : Behaviour H) (t c : ThreadId) (x : Course H) (w : World H)
    (r : Except ResumeError (List Value)) : Prop :=
  ∀ s o rest, step B (x.behind t c s o rest) = some ⟨w, s, .host o (rest r)⟩

/-- The course of a resume of `t` comes to the state `x`. -/
def Passes (B : Behaviour H) (w : World H) (t : ThreadId) (args : List Value)
    (x : Course H) : Prop :=
  ∃ x₀, Starts B w t args x₀ ∧ ReflTransGen (Moves B t w.current) x₀ x

/-! #### Courses are determined -/

theorem eq_of_behind {s : List (Boundary H)} {o : Owner}
    {rest : Except ResumeError (List Value) → Program H (o.Result H)}
    (h : some (x.behind t c s o rest) = some (y.behind t c s o rest)) : x = y := by
  have he := Option.some.inj h
  have hw := congrArg Machine.world he
  have hc := congrArg Machine.control he
  cases x
  cases y
  exact congr (congrArg Course.mk hw) hc

theorem Starts.unique (hx : Starts B w t args x) (hy : Starts B w t args y) : x = y :=
  eq_of_behind ((hx [] .embedding fun _ => .done []).symm.trans (hy [] .embedding _))

theorem Moves.unique (hy : Moves B t c x y) (hz : Moves B t c x z) : y = z :=
  eq_of_behind ((hy [] .embedding fun _ => .done []).symm.trans (hz [] .embedding _))

/-- A program that tells all answers of a resume apart. -/
def handOn : Except ResumeError (List Value) → Program H (List Value)
  | .ok vs => .done vs
  | .error (.uncaught e) => .fail (.traced e)
  | .error (.refused e) => .raise (.coroutine e)

theorem handOn_injective (h : (handOn r : Program H (List Value)) = handOn r') : r = r' := by
  cases r with
  | ok vs =>
    cases r' with
    | ok vs' => exact congrArg Except.ok (Program.done.inj h)
    | error e => cases e <;> cases h
  | error e =>
    cases e with
    | refused e =>
      cases r' with
      | ok vs' => cases h
      | error e' =>
        cases e' with
        | refused e' =>
          have he := Cause.coroutine.inj (Raised.cause.inj (Program.fail.inj h))
          rw [he]
        | uncaught e' => cases h
    | uncaught e =>
      cases r' with
      | ok vs' => cases h
      | error e' =>
        cases e' with
        | refused e' => cases h
        | uncaught e' =>
          have he := Raised.traced.inj (Program.fail.inj h)
          rw [he]

theorem eq_of_handOn
    (h : (⟨w, [], .host .embedding (handOn r)⟩ : Machine H)
      = ⟨w', [], .host .embedding (handOn r')⟩) :
    w = w' ∧ r = r' := by
  obtain ⟨hw, -, hc⟩ := Machine.mk.inj h
  obtain ⟨-, hp⟩ := Control.host.inj hc
  exact ⟨hw, handOn_injective (eq_of_heq hp)⟩

theorem Ends.unique (h : Ends B t c x w r) (h' : Ends B t c x w' r') : w = w' ∧ r = r' :=
  eq_of_handOn (Option.some.inj ((h [] .embedding handOn).symm.trans (h' [] .embedding handOn)))

theorem Ends.not_moves (h : Ends B t c x w r) : ¬ Moves B t c x y := by
  intro hm
  have he := Option.some.inj
    ((h [] .embedding fun _ => .done []).symm.trans (hm [] .embedding fun _ => .done []))
  exact absurd (congrArg Machine.stack he) (by simp [behind])

/-- The next state of a course, unless its boundary falls. -/
def next? (B : Behaviour H) (t c : ThreadId) (x : Course H) : Option (Course H) :=
  match step B (x.behind t c [] .embedding fun _ => .done []) with
  | some ⟨w, [_], k⟩ => some ⟨w, k⟩
  | _ => none

theorem Moves.next? (h : Moves B t c x y) : x.next? B t c = some y := by
  rw [Course.next?, h [] .embedding]
  rfl

/-- The state of a course after a number of moves. -/
def after (B : Behaviour H) (t c : ThreadId) : Nat → Course H → Course H
  | 0, x => x
  | n + 1, x => match x.next? B t c with
    | some y => y.after B t c n
    | none => x

/-- A course of moves. -/
theorem moves_after (n : Nat) (h : ∀ i < n, Moves B t c (x.after B t c i) (x.after B t c (i + 1))) :
    ReflTransGen (Moves B t c) x (x.after B t c n) := by
  induction n with
  | zero => exact .refl
  | succ n ih => exact (ih fun i hi => h i (Nat.lt_succ_of_lt hi)).tail (h n n.lt_succ_self)

/-- Whether a course ends before it has made `n` moves and all of its states pass a test. -/
def all (B : Behaviour H) (t c : ThreadId) (p : Course H → Bool) : Nat → Course H → Bool
  | 0, _ => false
  | n + 1, x => p x && match x.next? B t c with
    | some y => y.all B t c p n
    | none => true

theorem of_all {p : Course H → Bool} {n : Nat} (h : x.all B t c p n)
    (hz : ReflTransGen (Moves B t c) x z) : p z := by
  induction n generalizing x with
  | zero => exact absurd h Bool.false_ne_true
  | succ n ih =>
    rw [all, Bool.and_eq_true] at h
    rcases ReflTransGen.cases_head hz with rfl | ⟨y, hm, hz⟩
    · exact h.1
    · rw [hm.next?] at h
      exact ih h.2 hz

/-! #### Courses as resumes -/

theorem until_of_ends (hm : ReflTransGen (Moves B t c) x y) (he : Ends B t c y w r)
    (s : List (Boundary H)) (o : Owner)
    (rest : Except ResumeError (List Value) → Program H (o.Result H)) :
    ∃ last, Until B (fun m => m.stack = s) (x.behind t c s o rest) last
      ⟨w, s, .host o (rest r)⟩ := by
  induction hm using ReflTransGen.head_induction_on with
  | refl => exact ⟨_, .now (he s o rest) rfl⟩
  | head h _ ih =>
    obtain ⟨last, hu⟩ := ih
    exact ⟨last, .later (h s o rest) (List.cons_ne_self _ _) hu⟩

/-- A course up to its end is a resume. -/
theorem resume_of_ends (hs : Starts B w t args x)
    (hm : ReflTransGen (Moves B t w.current) x y) (he : Ends B t w.current y w' r) :
    w.Resume B t args r w' := by
  intro s o rest
  obtain ⟨last, hu⟩ := until_of_ends hm he s o rest
  exact ⟨last, .later (hs s o rest) (List.cons_ne_self _ _) hu⟩

/-- A machine that gets past the boundary of a course has followed the course to its end, if
the course never gets stuck. -/
theorem ends_of_until {m m' last : Machine H}
    (hu : Until B (fun m => m.stack = []) m last m')
    (hgo : ∀ y, ReflTransGen (Moves B t c) x y →
      (∃ z, Moves B t c y z) ∨ ∃ w r, Ends B t c y w r)
    (hy : ReflTransGen (Moves B t c) x y) (hm : m = y.behind t c [] .embedding handOn) :
    ∃ z w r, ReflTransGen (Moves B t c) x z ∧ Ends B t c z w r ∧
      m' = ⟨w, [], .host .embedding (handOn r)⟩ := by
  -- The state is always one of the course; what ends the run is the fall of the boundary.
  induction hu generalizing y with
  | now h hp =>
    subst hm
    rcases hgo y hy with ⟨z, hz⟩ | ⟨w, r, he⟩
    · obtain rfl := Option.some.inj ((hz [] .embedding handOn).symm.trans h)
      exact absurd hp (List.cons_ne_nil _ _)
    · exact ⟨y, w, r, hy, he, Option.some.inj (h.symm.trans (he [] .embedding handOn))⟩
  | later h hn _ ih =>
    subst hm
    rcases hgo y hy with ⟨z, hz⟩ | ⟨w, r, he⟩
    · exact ih (hy.tail hz) (Option.some.inj (h.symm.trans (hz [] .embedding handOn)))
    · obtain rfl := Option.some.inj (h.symm.trans (he [] .embedding handOn))
      exact absurd rfl hn

/-- A resume is a course up to its end, if the course never gets stuck. -/
theorem ends_of_resume (hs : Starts B w t args x)
    (hgo : ∀ y, ReflTransGen (Moves B t w.current) x y →
      (∃ z, Moves B t w.current y z) ∨ ∃ w' r, Ends B t w.current y w' r)
    (hr : w.Resume B t args r w') :
    ∃ y, ReflTransGen (Moves B t w.current) x y ∧ Ends B t w.current y w' r := by
  obtain ⟨last, hu⟩ := hr [] .embedding handOn
  obtain ⟨y, w'', r', hy, he, hm⟩ := ends_of_until
    (hu.of_step (hs [] .embedding handOn) (List.cons_ne_nil _ _)) hgo .refl rfl
  obtain ⟨rfl, rfl⟩ := eq_of_handOn hm
  exact ⟨y, hy, he⟩

/-! #### The two ends of a course -/

/-- A resume that the limits allow. -/
theorem enterCoroutine_of_suspended (hc : (w.thread w.current).status = .running)
    (ht : (w.thread t).status = .suspended)
    (hr : w.running.length < w.limits.maxResumeDepth)
    (hh : w.hostDepth < w.limits.maxHostDepth) : w.enterCoroutine t = .ok (w.entered t) := by
  rw [World.enterCoroutine_eq hc, if_neg (fun hn => hn ht), if_neg (Nat.not_le_of_lt hr),
    if_neg (Nat.not_le_of_lt hh)]

/-- A coroutine that was never resumed starts with a call of its body. -/
theorem starts_of_body {f : Value} (he : w.enterCoroutine t = .ok (w.entered t))
    (hb : ((w.entered t).thread t).body = some f) :
    Starts B w t args ⟨(((w.entered t).dropBody t).invoke B t f args).1,
      (((w.entered t).dropBody t).invoke B t f args).2⟩ := by
  intro s o rest
  show some (beginResume B w s o t args rest) = _
  rw [beginResume, he]
  simp only [hb]
  rfl

/-- A coroutine that has yielded goes on with the arguments of the resume. -/
theorem starts_of_no_body (he : w.enterCoroutine t = .ok (w.entered t))
    (hb : ((w.entered t).thread t).body = none) :
    Starts B w t args ⟨w.entered t, .drive (.values args)⟩ := by
  intro s o rest
  show some (beginResume B w s o t args rest) = _
  rw [beginResume, he]
  simp only [hb]
  rfl

/-- Without frames the resume answers with the outcome. -/
theorem ends_of_no_frames (hc : (w.thread c).status = .normal)
    (ht : (w.thread t).status = .running) (hf : (w.thread t).frames = []) (input : Input) :
    Ends B t c ⟨w, .drive input⟩ (w.left t c input.outcome) (input.outcome.handed t) := by
  intro s o rest
  show drive B w input (.resume t c o rest :: s) = _
  have hle : (w.thread t).frames.length ≤ 0 := by
    rw [hf]
    exact Nat.le_refl 0
  cases input with
  | values vs =>
    simp only [drive, Boundary.thread, Boundary.base, if_pos hle, fall,
      World.leaveCoroutine_eq hc ht]
    rfl
  | error e =>
    simp only [drive, Boundary.thread, Boundary.base, if_pos hle, fall,
      World.leaveCoroutine_eq hc ht]
    rfl

/-- With frames the topmost one goes on. -/
theorem moves_of_frames {f : Frame H} {below : List (Frame H)}
    (hf : (w.thread t).frames = f :: below) (input : Input) :
    Moves B t c ⟨w, .drive input⟩ ⟨w.setFrames t below, .host (.poll f.name)
      (match input with
        | .values vs => B.poll f.activation vs
        | .error e => B.recover f.activation e)⟩ := by
  intro s o rest
  show drive B w input (.resume t c o rest :: s) = _
  simp only [drive, Boundary.thread, Boundary.base, hf, List.length_cons,
    if_neg (Nat.not_succ_le_zero _)]
  rfl

/-- A yield that is allowed answers the resume. -/
theorem ends_of_yield (hc : (w.thread c).status = .normal)
    (ht : (w.thread t).status = .running) (hy : w.checkYield t = .ok ()) (name : String)
    (vs : List Value) (next : Activation H) :
    Ends B t c ⟨w, .host (.poll name) (.done (.yield vs next))⟩
      ((w.pushFrame t ⟨name, next⟩).left t c (.yielded vs)) (.ok vs) := by
  intro s o rest
  have hc' : ((w.pushFrame t ⟨name, next⟩).thread c).status = .normal :=
    (World.keep_modifyThread Thread.status c).trans hc
  have ht' : ((w.pushFrame t ⟨name, next⟩).thread t).status = .running :=
    (World.keep_modifyThread Thread.status t).trans ht
  show perform B w (.resume t c o rest :: s) name (.yield vs next) = _
  simp only [perform, driven, Boundary.thread, hy, fall, World.leaveCoroutine_eq hc' ht']
  rfl

/-! #### Rows of resumes -/

/-- A row of resumes as one course, with the lists that were yielded so far: a move, or the end
of a resume that yields with the beginning of the next. -/
inductive Turns (B : Behaviour H) (t c : ThreadId) (inputs : Nat → List Value) :
    List (List Value) × Course H → List (List Value) × Course H → Prop
  | move {ys x y} (h : Moves B t c x y) : Turns B t c inputs (ys, x) (ys, y)
  | again {ys v x w y} (he : Ends B t c x w (.ok v)) (hw : (w.thread t).status = .suspended)
      (hc : w.current = c) (hs : Starts B w t (inputs (ys.length + 1)) y) :
      Turns B t c inputs (ys, x) (ys ++ [v], y)

variable {inputs : Nat → List Value} {p q q' : List (List Value) × Course H}
  {ys : List (List Value)}

theorem Turns.unique (h : Turns B t c inputs p q) (h' : Turns B t c inputs p q') : q = q' := by
  cases h with
  | move hm =>
    cases h' with
    | move hm' => rw [hm.unique hm']
    | again he' => exact absurd hm he'.not_moves
  | again he hw hc hs =>
    cases h' with
    | move hm' => exact absurd hm' he.not_moves
    | again he' hw' hc' hs' =>
      obtain ⟨rfl, hv⟩ := he.unique he'
      obtain rfl := Except.ok.inj hv
      rw [hs.unique hs']

/-- The course of a coroutine that dies goes no further. -/
theorem Ends.not_turns (he : Ends B t c p.2 w r) (hd : (w.thread t).status = .dead) :
    ¬ Turns B t c inputs p q := by
  intro h
  cases h with
  | move hm => exact he.not_moves hm
  | again he' hw hc hs =>
    obtain ⟨rfl, -⟩ := he.unique he'
    rw [hd] at hw
    exact absurd hw (by decide)

/-- The row of resumes that a course of turns is. -/
theorem yields_of_turns (hs : Starts B w t (inputs 0) x)
    (ht : ReflTransGen (Turns B t w.current inputs) ([], x) (ys, y)) :
    ∃ w₁ x₁, w.Yields B t inputs ys w₁ ∧ w₁.current = w.current ∧
      Starts B w₁ t (inputs ys.length) x₁ ∧ ReflTransGen (Moves B t w.current) x₁ y := by
  generalize hp : (ys, y) = p at ht
  induction ht generalizing ys y with
  | refl =>
    obtain ⟨rfl, rfl⟩ := Prod.mk.inj hp
    exact ⟨w, y, .nil, rfl, hs, .refl⟩
  | tail _ h ih =>
    cases h with
    | move hm =>
      obtain ⟨rfl, rfl⟩ := Prod.mk.inj hp
      obtain ⟨w₁, x₁, hy, hc, hs₁, hx₁⟩ := ih rfl
      exact ⟨w₁, x₁, hy, hc, hs₁, hx₁.tail hm⟩
    | @again zs v z w₂ y' he hw hc hs₂ =>
      obtain ⟨rfl, rfl⟩ := Prod.mk.inj hp
      obtain ⟨w₁, x₁, hy, hc₁, hs₁, hx₁⟩ := ih rfl
      rw [← hc₁] at hx₁ he
      -- The course so far was a resume that yields, and a new one has begun.
      refine ⟨w₂, y, hy.snoc (resume_of_ends hs₁ hx₁ he) hw, hc, ?_, .refl⟩
      rw [List.length_append]
      exact hs₂

/-- A course of turns that comes to its end is a row of resumes that does. -/
theorem finishes_of_turns (hs : Starts B w t (inputs 0) x)
    (ht : ReflTransGen (Turns B t w.current inputs) ([], x) (ys, y))
    (he : Ends B t w.current y w' r) (hd : (w'.thread t).status = .dead) :
    w.Finishes B t inputs ys r w' := by
  obtain ⟨w₁, x₁, hy, hc, hs₁, hx₁⟩ := yields_of_turns hs ht
  rw [← hc] at hx₁ he
  exact ⟨w₁, hy, resume_of_ends hs₁ hx₁ he, hd⟩

/-- The course of turns never gets stuck: it goes on, or the coroutine dies. -/
def Lively (B : Behaviour H) (t c : ThreadId) (inputs : Nat → List Value) (x : Course H) : Prop :=
  ∀ p, ReflTransGen (Turns B t c inputs) ([], x) p →
    (∃ q, Turns B t c inputs p q) ∨ ∃ w r, Ends B t c p.2 w r ∧ (w.thread t).status = .dead

theorem turns_of_moves (ht : ReflTransGen (Turns B t c inputs) p (ys, y))
    (hz : ReflTransGen (Moves B t c) y z) : ReflTransGen (Turns B t c inputs) p (ys, z) := by
  induction hz with
  | refl => exact ht
  | tail _ h ih => exact ih.tail (.move h)

theorem Lively.progress (hl : Lively B t c inputs x)
    (ht : ReflTransGen (Turns B t c inputs) ([], x) (ys, y)) :
    ∀ z, ReflTransGen (Moves B t c) y z → (∃ z', Moves B t c z z') ∨ ∃ w r, Ends B t c z w r := by
  intro z hz
  rcases hl _ (turns_of_moves ht hz) with ⟨q, hq⟩ | ⟨w, r, he, -⟩
  · cases hq with
    | move hm => exact .inl ⟨_, hm⟩
    | again he => exact .inr ⟨_, _, he⟩
  · exact .inr ⟨w, r, he⟩

/-- The course of turns that a row of resumes is. -/
theorem turns_of_yields (hs : Starts B w t (inputs 0) x) (hl : Lively B t w.current inputs x)
    (hy : w.Yields B t inputs ys w₁) :
    ∃ x₁, w₁.current = w.current ∧ Starts B w₁ t (inputs ys.length) x₁ ∧
      ReflTransGen (Turns B t w.current inputs) ([], x) (ys, x₁) := by
  induction hy with
  | nil => exact ⟨x, rfl, hs, .refl⟩
  | @snoc ys v w₁ w₂ _ hr hsus ih =>
    obtain ⟨x₁, hc, hs₁, ht⟩ := ih
    obtain ⟨y, hxy, he⟩ := ends_of_resume hs₁ (hc ▸ hl.progress ht) hr
    rw [hc] at hxy he
    -- The course has come to an end, and as the coroutine is suspended it is not the last.
    have hty := turns_of_moves ht hxy
    rcases hl _ hty with ⟨q, hq⟩ | ⟨w', r, he', hd⟩
    · cases hq with
      | move hm => exact absurd hm he.not_moves
      | again he' hw' hc' hs' =>
        obtain ⟨rfl, hv⟩ := he.unique he'
        obtain rfl := Except.ok.inj hv
        refine ⟨_, hc', ?_, hty.tail (.again he' hw' hc' hs')⟩
        rw [List.length_append]
        exact hs'
    · obtain ⟨rfl, -⟩ := he.unique he'
      rw [hsus] at hd
      exact absurd hd (by decide)

/-- A row of resumes that comes to its end is a course of turns that does. -/
theorem turns_of_finishes (hs : Starts B w t (inputs 0) x) (hl : Lively B t w.current inputs x)
    (hf : w.Finishes B t inputs ys r w') :
    ∃ y, ReflTransGen (Turns B t w.current inputs) ([], x) (ys, y) ∧
      Ends B t w.current y w' r := by
  obtain ⟨w₁, hy, hr, -⟩ := hf
  obtain ⟨x₁, hc, hs₁, ht⟩ := turns_of_yields hs hl hy
  obtain ⟨y, hxy, he⟩ := ends_of_resume hs₁ (hc ▸ hl.progress ht) hr
  rw [hc] at hxy he
  exact ⟨y, turns_of_moves ht hxy, he⟩

end Course

end Lua
