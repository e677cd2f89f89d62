/-
Two runs of a coroutine, in step.

A coroutine that keeps to itself runs in the same way on two instances that are alike to it: the
machine makes the same moves on both, whatever the other coroutines own, whatever they have
created meanwhile, and whatever waits below the resume.

* `Paired`, `Waiting` — what two machines do next, and what waits behind their boundaries;
* `Lockstep` — two states that the coroutine has come to in the same way;
* `World.Twin.invoke` — a call begins in the same way;
* `Lockstep.next` — the next move leads to such states again, or ends both resumes alike.

Design notes: the coroutine may have called functions and resumed coroutines of its own, and code
waits for each of these behind a boundary.  Moves are stated for all boundaries below at once.
That the machine is consistent, though, is known of one row of boundaries, and it is there that
one reads off who is driven and who is running.
-/
import Lua.Proofs.AlikeInstances
import Lua.Proofs.HandBack

namespace Lua

variable {H : Host} [NamedHost H] {P : Type} [Named P] {Z : Commons H P} {t c : ThreadId}
  {R S : Renaming} {B : Behaviour H}

open Machine World

/-! ### States -/

section

variable (Z t)

/-- What two machines do next, in the same way for a coroutine. -/
inductive Paired (R : Renaming) (m m' : Memory H) : Control H → Control H → Prop
  | host {o} {p p' : Program H (o.Result H)} (ho : o ≠ .embedding)
      (h : Program.Same Z t R m m' p p') : Paired R m m' (.host o p) (.host o p')
  | drive {i i' : Input} (h : Stands R i i') : Paired R m m' (.drive i) (.drive i')

/-- Boundaries behind which code waits that goes on in the same way.  The threads that are driven
there are the coroutine's own. -/
inductive Waiting (R : Renaming) : Boundary H → Boundary H → Prop
  | call {u v base o} {rest rest' : Except TracedError (List Value) → Program H (o.Result H)}
      (ho : o ≠ .embedding) (hu : Stands R u v) (hn : .thread u ∉ Z.references)
      (h : ∀ S n n' r r', R ≤ S → n.Alike Z t S n' → Stands S r r' →
        Program.Same Z t S n n' (rest r) (rest' r')) :
      Waiting R (.call u base o rest) (.call v base o rest')
  | resume {u v c d o} {rest rest' : Except ResumeError (List Value) → Program H (o.Result H)}
      (ho : o ≠ .embedding) (hu : Stands R u v) (hn : .thread u ∉ Z.references)
      (hc : Stands R c d) (h : ∀ S n n' r r', R ≤ S → n.Alike Z t S n' → Stands S r r' →
        Program.Same Z t S n n' (rest r) (rest' r')) :
      Waiting R (.resume u c o rest) (.resume v d o rest')

/-- Two states that a coroutine has come to in the same way since it was entered. -/
structure Lockstep (R : Renaming) (e : World H) (S : Renaming) (x x' : Stretch H) : Prop where
  twin : Twin Z t R e S x.world x'.world
  above : List.Forall₂ (Waiting Z t S) x.above x'.above
  control : Paired Z t S x.world.memory x'.world.memory x.control x'.control

/-- What the next move leads to: states in step, or the ends of both resumes. -/
inductive Next (B : Behaviour H) (c : ThreadId) (R : Renaming) (e : World H) (x x' : Stretch H) :
    Prop
  | move {S y z} (hm : x.Moves B t c y) (hm' : x'.Moves B t c z)
      (h : Lockstep Z t R e S y z) : Next B c R e x x'
  | fall {S w w' oc oc'} (he : x.Ends B t c (w.left t c oc) (oc.handed t))
      (he' : x'.Ends B t c (w'.left t c oc') (oc'.handed t)) (h : Twin Z t R e S w w')
      (ho : Stands S oc oc') : Next B c R e x x'

end

/-- The coroutine `t` has been resumed by a thread that is common to all, as are the other threads
that wait behind the boundaries `s`. -/
structure Entered (Z : Commons H P) (t c : ThreadId) (R : Renaming) (s : List (Boundary H)) :
    Prop where
  self : Stands R t t
  own : .thread t ∉ Z.references
  caller : .thread c ∈ Z.references
  outside : ∀ u, .thread u ∈ Z.references → u ∈ chain s

theorem Waiting.mono {b b' : Boundary H} (h : Waiting Z t R b b') (hS : R ≤ S) :
    Waiting Z t S b b' := by
  cases h with
  | call ho hu hn h =>
    refine .call ho (Named.mono hS hu) hn fun T n n' r r' hT => ?_
    exact h T n n' r r' (hS.trans hT)
  | resume ho hu hn hc h =>
    refine .resume ho (Named.mono hS hu) hn (Named.mono hS hc) fun T n n' r r' hT => ?_
    exact h T n n' r r' (hS.trans hT)

section Moves

variable {e w w' : World H} {x x' : Stretch H} {a a' s s₀ : List (Boundary H)} {u v : ThreadId}
  {o o₀ : Owner} {f f' : Value} {args args' : List Value}
  {rest : Except ResumeError (List Value) → Program H (o.Result H)}
  {rest₀ : Except ResumeError (List Value) → Program H (o₀.Result H)}

/-! ### Calls -/

/-- A function is entered in the same way. -/
theorem World.Alike.enter (h : w.Alike Z t S w') {g g' : Function} (hg : Stands S g g')
    (ha : Stands S args args') (hp : B.PrivateEntry Z t w g args) :
    (∃ p p', B.enter w g args = .native p ∧ B.enter w' g' args' = .native p' ∧
      Program.Same Z t S w.memory w'.memory p p') ∨
    ∃ q q', B.enter w g args = .sequence q ∧ B.enter w' g' args' = .sequence q' ∧
      Stands S q q' := by
  cases hg with
  | builtin b => exact .inl ⟨_, _, rfl, rfl, hp S _ _ h.memory ha⟩
  | @created i j hij =>
    have hget := h.functions i j hij
    simp only [Behaviour.enter]
    cases hi : w.functions[i]? with
    | none => exact absurd (h.contains _ _ hij).1 (Array.getElem?_eq_none_iff.mp hi).not_gt
    | some k =>
      have hk : B.PrivateClosure Z t w.memory args k := hp k hi
      rw [hi] at hget
      generalize w'.functions[j]? = k' at hget
      cases hget with
      | some hkk =>
        cases hkk with
        | native hkk => exact .inl ⟨_, _, rfl, rfl, hk S _ (_, _) h.memory ⟨hkk, ha⟩⟩
        | sequence hkk => exact .inr ⟨_, _, rfl, rfl, hk S _ hkk⟩

/-- A call begins in the same way. -/
theorem World.Twin.invoke (h : Twin Z t R e S w w') (huv : Stands S u v)
    (hu : .thread u ∉ Z.references) (hf : Stands S f f') (ha : Stands S args args')
    (hc : w.Callable Z t B f args) :
    Twin Z t R e S (w.invoke B u f args).1 (w'.invoke B v f' args').1 ∧
      Paired Z t S (w.invoke B u f args).1.memory (w'.invoke B v f' args').1.memory
        (w.invoke B u f args).2 (w'.invoke B v f' args').2 := by
  have hdepth : (w'.thread v).callDepth = (w.thread u).callDepth :=
    (h.alike.threads u v huv hu).callDepth
  have hprep := h.alike.memory.prepareCall hf ha
  have hfail : ∀ {er er' : TracedError}, Stands S er er' →
      Paired Z t S w.memory w'.memory (.drive (.error er)) (.drive (.error er')) :=
    fun her => .drive (Input.Stand.error her)
  simp only [World.invoke, hdepth, h.alike.limits]
  generalize hp : w.memory.heap.prepareCall f args = r at hprep
  generalize w'.memory.heap.prepareCall f' args' = r' at hprep
  cases hprep with
  | error he =>
    cases he
    exact ⟨h, hfail (TracedError.stands_untraced (Cause.Stand.argument _))⟩
  | @ok fv fv' hfv =>
    obtain ⟨g, vs⟩ := fv
    obtain ⟨g', vs'⟩ := fv'
    obtain ⟨hg, hvs⟩ : Stands S g g' ∧ Stands S vs vs' := hfv
    simp only
    rw [h.alike.nameOf hg]
    by_cases hd : w.limits.maxCallDepth ≤ (w.thread u).callDepth
    · rw [if_pos hd, if_pos hd]
      exact ⟨h, hfail (TracedError.stands_raisedBy (Cause.Stand.coroutine _) _)⟩
    · rw [if_neg hd, if_neg hd]
      rcases h.alike.enter hg hvs (hc g vs hp) with ⟨p, p', he, he', hs⟩ | ⟨q, q', he, he', hq⟩
      · rw [he, he']
        rcases h.alike.enterHost with ⟨er, hw, hw'⟩ | ⟨hw, hw'⟩
        · rw [hw, hw']
          exact ⟨h, hfail (TracedError.stands_raisedBy (Cause.Stand.coroutine _) _)⟩
        · rw [hw, hw']
          have hup := h.setScheduler h.alike.running (congrArg (· + 1) h.alike.hostDepth)
          refine ⟨hup.changeThread huv _ (fun _ _ h => h) fun _ _ hs =>
            { hs with nativeDepth := congrArg (· + 1) hs.nativeDepth }, .host ?_ hs⟩
          exact Owner.noConfusion
      · rw [he, he']
        refine ⟨h.modifyThread huv (h.alike.statuses u v huv) fun hn => ?_, .drive (.values hvs)⟩
        have hs := h.alike.threads u v huv hn
        exact { hs with frames := .cons ⟨rfl, hq⟩ hs.frames }

/-- A call begins above boundaries of the coroutine. -/
theorem Lockstep.of_invoke (h : Twin Z t R e S w w') (ha : List.Forall₂ (Waiting Z t S) a a')
    (huv : Stands S u v) (hu : .thread u ∉ Z.references) (hf : Stands S f f')
    (hargs : Stands S args args') (hc : w.Callable Z t B f args) :
    Lockstep Z t R e S ⟨(w.invoke B u f args).1, a, (w.invoke B u f args).2⟩
      ⟨(w'.invoke B v f' args').1, a', (w'.invoke B v f' args').2⟩ := by
  obtain ⟨htwin, hpair⟩ := h.invoke huv hu hf hargs hc
  exact ⟨htwin, ha, hpair⟩

/-! ### The topmost boundary -/

theorem exists_top (h : List.Forall₂ (Waiting Z t S) a a') (ht : Stands S t t)
    (hn : .thread t ∉ Z.references) (c : ThreadId) :
    ∃ u v base, Stands S u v ∧ .thread u ∉ Z.references ∧ ∀ s o rest,
      Top u base (a ++ .resume t c o rest :: s) ∧ Top v base (a' ++ .resume t c o rest :: s) := by
  cases h with
  | nil => exact ⟨t, t, 0, ht, hn, fun s o rest => ⟨⟨_, _, rfl, rfl, rfl⟩, _, _, rfl, rfl, rfl⟩⟩
  | cons hw _ =>
    cases hw with
    | call _ hu hn _ =>
      exact ⟨_, _, _, hu, hn, fun s o rest => ⟨⟨_, _, rfl, rfl, rfl⟩, _, _, rfl, rfl, rfl⟩⟩
    | resume _ hu hn _ _ =>
      exact ⟨_, _, _, hu, hn, fun s o rest => ⟨⟨_, _, rfl, rfl, rfl⟩, _, _, rfl, rfl, rfl⟩⟩

/-- The topmost boundary falls in the same way. -/
theorem Next.of_falls {oc oc' : Outcome} {k : Option Owner}
    (h : Twin Z t R e S w w') (ha : List.Forall₂ (Waiting Z t S) x.above x'.above)
    (hx : Chained ⟨w, x.above ++ .resume t c o₀ rest₀ :: s₀, k⟩)
    (hx' : Chained ⟨w', x'.above ++ .resume t c o₀ rest₀ :: s₀, k⟩) (ho : Stands S oc oc')
    (hf : x.Falls B t c w oc) (hf' : x'.Falls B t c w' oc') : Next Z t B c R e x x' := by
  obtain ⟨wx, a, kx⟩ := x
  obtain ⟨wx', a', kx'⟩ := x'
  cases ha with
  | nil =>
    -- It is the boundary of the resume, and the caller gets the answer.
    refine .fall (fun s o rest => ?_) (fun s o rest => ?_) h ho
    · rw [hf s o rest]
      show Machine.fall w oc (.resume t c o rest :: s) = _
      simp only [Machine.fall, leaveCoroutine_eq hx.ends.1 hx.ends.2]
    · rw [hf' s o rest]
      show Machine.fall w' oc' (.resume t c o rest :: s) = _
      simp only [Machine.fall, leaveCoroutine_eq hx'.ends.1 hx'.ends.2]
  | @cons b b' a a' hb ha =>
    cases hb with
    | @call u v base o rest rest' hne hu hn hs =>
      -- The code that waits for the call goes on.
      have htwin := (h.changeThread hu (fun s => { s with nonYieldable := s.nonYieldable - 1 })
        (fun _ _ h => h) fun _ _ hs =>
          { hs with nonYieldable := congrArg (· - 1) hs.nonYieldable }).exitHost
      exact .move (y := ⟨w.leaveCall u, a, .host o (rest oc.answer)⟩)
        (z := ⟨w'.leaveCall v, a', .host o (rest' oc'.answer)⟩) hf hf'
        ⟨htwin, ha, .host hne (hs _ _ _ _ _ le_rfl htwin.alike.memory
          (Outcome.stands_answer ho))⟩
    | @resume u v c₁ d₁ o rest rest' hne hu hn hc hs =>
      -- The code that waits for the coroutine's own coroutine goes on.
      have htwin := h.left hu hc ho
      refine .move (y := ⟨w.left u c₁ oc, a, .host o (rest (oc.handed u))⟩)
        (z := ⟨w'.left v d₁ oc', a', .host o (rest' (oc'.handed v))⟩)
        (fun s o rest₁ => ?_) (fun s o rest₁ => ?_)
        ⟨htwin, ha, .host hne (hs _ _ _ _ _ le_rfl htwin.alike.memory
          (Outcome.stands_handed ho hu))⟩
      · rw [hf s o rest₁]
        show Machine.fall w oc (.resume u c₁ _ rest :: _) = _
        simp only [Machine.fall, leaveCoroutine_eq hx.ends.1 hx.ends.2]
        rfl
      · rw [hf' s o rest₁]
        show Machine.fall w' oc' (.resume v d₁ _ rest' :: _) = _
        simp only [Machine.fall, leaveCoroutine_eq hx'.ends.1 hx'.ends.2]
        rfl

/-- The driven frames get an input. -/
theorem Next.of_drive {i i' : Input} (hr : Entered Z t c R s₀)
    (h : Twin Z t R e S w w') (ha : List.Forall₂ (Waiting Z t S) a a') (hi : Stands S i i')
    (hx : Chained ⟨w, a ++ .resume t c o₀ rest₀ :: s₀, none⟩)
    (hx' : Chained ⟨w', a' ++ .resume t c o₀ rest₀ :: s₀, none⟩)
    (hc : Confined Z t B (Stretch.on ⟨w, a, .drive i⟩ (.resume t c o rest) s)) :
    Next Z t B c R e ⟨w, a, .drive i⟩ ⟨w', a', .drive i'⟩ := by
  obtain ⟨u, v, base, huv, hu, htop⟩ := exists_top ha (h.le _ _ hr.self) hr.own c
  have hframes := (h.alike.threads u v huv hu).frames
  have hlen := (h.alike.threads u v huv hu).length_frames
  by_cases hbase : (w.thread u).frames.length ≤ base
  · exact .of_falls h ha hx hx' (Input.stands_outcome hi)
      (fun s o rest => (htop s o rest).1.drive_falls hbase i)
      (fun s o rest => (htop s o rest).2.drive_falls (hlen ▸ hbase) i')
  · generalize hf : (w.thread u).frames = fs at hframes hbase
    generalize hf' : (w'.thread v).frames = fs' at hframes
    cases hframes with
    | nil => exact absurd (Nat.zero_le _) hbase
    | @cons f f' below below' hff hbelow =>
      have hb : base ≤ below.length := Nat.le_of_lt_succ (Nat.lt_of_not_le hbase)
      have hpriv : Program.PrivateAt Z t w.memory (fun x : Frame H × Input => B.goOn x.1 x.2)
          (f, i) := by
        obtain ⟨b, r, hs, rfl, rfl⟩ := (htop s o rest).1
        exact hc.polled b r i f below hs rfl hf hb
      have htwin := h.modifyThread huv (f := fun s => { s with frames := below })
        (g := fun s => { s with frames := below' }) (h.alike.statuses u v huv) fun hn =>
          { h.alike.threads u v huv hn with frames := hbelow }
      have hname : f.name = f'.name := hff.1
      refine .move (y := ⟨w.setFrames u below, a, .host (.poll f.name) (B.goOn f i)⟩)
        (z := ⟨w'.setFrames v below', a', .host (.poll f.name) (B.goOn f' i')⟩)
        (fun s o rest => (htop s o rest).1.drive_polls hf hb i) (fun s o rest => ?_)
        ⟨htwin, ha, .host ?_ (hpriv S _ (f', i') h.alike.memory ⟨hff, hi⟩)⟩
      · rw [hname]
        exact (htop s o rest).2.drive_polls hf' (hbelow.length_eq ▸ hb) i'
      · exact Owner.noConfusion

/-! ### What polls ask for -/

theorem World.Alike.checkYield (h : w.Alike Z t S w') (huv : Stands S u v)
    (hu : .thread u ∉ Z.references) : w'.checkYield v = w.checkYield u := by
  have hmain : u ≠ .main := fun he => hu (he ▸ Z.main)
  have hmain' : v ≠ .main := fun he => h.memory.own huv hu (he ▸ Z.main)
  rw [World.checkYield, World.checkYield, if_neg hmain, if_neg hmain',
    (h.threads u v huv hu).nonYieldable]

/-- What a poll asks for is carried out. -/
theorem Next.of_perform {name : String} {st st' : Step H} (hr : Entered Z t c R s₀)
    (h : Twin Z t R e S w w') (ha : List.Forall₂ (Waiting Z t S) a a') (hst : Stands S st st')
    (hx : Chained ⟨w, a ++ .resume t c o₀ rest₀ :: s₀, some (.poll name)⟩)
    (hx' : Chained ⟨w', a' ++ .resume t c o₀ rest₀ :: s₀, some (.poll name)⟩)
    (hc : Confined Z t B
      (Stretch.on ⟨w, a, .host (.poll name) (.done st)⟩ (.resume t c o rest) s)) :
    Next Z t B c R e ⟨w, a, .host (.poll name) (.done st)⟩
      ⟨w', a', .host (.poll name) (.done st')⟩ := by
  obtain ⟨u, v, base, huv, hu, htop⟩ := exists_top ha (h.le _ _ hr.self) hr.own c
  have hpush : ∀ {q q' : Activation H}, Stands S q q' →
      Twin Z t R e S (w.pushFrame u ⟨name, q⟩) (w'.pushFrame v ⟨name, q'⟩) := fun hq =>
    h.modifyThread huv (h.alike.statuses u v huv) fun hn =>
      { h.alike.threads u v huv hn with
        frames := .cons ⟨rfl, hq⟩ (h.alike.threads u v huv hn).frames }
  cases hst with
  | @«return» vs vs' hv =>
    exact .move (y := ⟨w, a, .drive (.values vs)⟩) (z := ⟨w', a', .drive (.values vs')⟩)
      (fun _ _ _ => rfl) (fun _ _ _ => rfl) ⟨h, ha, .drive (.values hv)⟩
  | call hf hv hq =>
    refine .move (fun s o rest => ?_) (fun s o rest => ?_)
      (.of_invoke (hpush hq) ha huv hu hf hv (hc.called _ _ .call))
    · show perform B w (a ++ .resume t c o rest :: s) name (.call _ _ _) = _
      rw [perform, (htop s o rest).1.driven]
      rfl
    · show perform B w' (a' ++ .resume t c o rest :: s) name (.call _ _ _) = _
      rw [perform, (htop s o rest).2.driven]
      rfl
  | tailCall hf hv =>
    refine .move (fun s o rest => ?_) (fun s o rest => ?_)
      (.of_invoke h ha huv hu hf hv (hc.called _ _ .tailCall))
    · show perform B w (a ++ .resume t c o rest :: s) name (.tailCall _ _) = _
      rw [perform, (htop s o rest).1.driven]
      rfl
    · show perform B w' (a' ++ .resume t c o rest :: s) name (.tailCall _ _) = _
      rw [perform, (htop s o rest).2.driven]
      rfl
  | @yield vs vs' q q' hv hq =>
    have hy' : w'.checkYield v = w.checkYield u := h.alike.checkYield huv hu
    cases hy : w.checkYield u with
    | ok =>
      refine .of_falls (hpush hq) ha (hx.pushFrame _ _) (hx'.pushFrame _ _) (.yielded hv)
        (fun s o rest => ?_) (fun s o rest => ?_)
      · show perform B w (a ++ .resume t c o rest :: s) name (.yield vs q) = _
        simp only [perform, (htop s o rest).1.driven, hy]
      · show perform B w' (a' ++ .resume t c o rest :: s) name (.yield vs' q') = _
        simp only [perform, (htop s o rest).2.driven, hy', hy]
    | error er =>
      refine .move (y := ⟨w, a, .drive (.error (.raisedBy name (.coroutine er)))⟩)
        (z := ⟨w', a', .drive (.error (.raisedBy name (.coroutine er)))⟩)
        (fun s o rest => ?_) (fun s o rest => ?_)
        ⟨h, ha, .drive (.error (TracedError.stands_raisedBy (Cause.Stand.coroutine er) name))⟩
      · show perform B w (a ++ .resume t c o rest :: s) name (.yield vs q) = _
        simp only [perform, (htop s o rest).1.driven, hy]
        rfl
      · show perform B w' (a' ++ .resume t c o rest :: s) name (.yield vs' q') = _
        simp only [perform, (htop s o rest).2.driven, hy', hy]
        rfl

/-! ### What host code asks for -/

/-- Code waits for a call. -/
theorem Next.of_call {o : Owner}
    {rest rest' : Except TracedError (List Value) → Program H (o.Result H)}
    (hr : Entered Z t c R s₀) (hne : o ≠ .embedding) (h : Twin Z t R e S w w')
    (ha : List.Forall₂ (Waiting Z t S) a a') (hf : Stands S f f') (hargs : Stands S args args')
    (hs : ∀ T n n' r r', S ≤ T → n.Alike Z t T n' → Stands T r r' →
      Program.Same Z t T n n' (rest r) (rest' r'))
    (hx : Chained ⟨w, a ++ .resume t c o₀ rest₀ :: s₀, some o⟩)
    (hx' : Chained ⟨w', a' ++ .resume t c o₀ rest₀ :: s₀, some o⟩)
    (hc : w.Callable Z t B f args) :
    Next Z t B c R e ⟨w, a, .host o (.call f args rest)⟩
      ⟨w', a', .host o (.call f' args' rest')⟩ := by
  obtain ⟨u, v, base, huv, hu, htop⟩ := exists_top ha (h.le _ _ hr.self) hr.own c
  have hcur : w.current = u := hx.current.trans (htop s₀ o₀ rest₀).1.driven
  have hcur' : w'.current = v := hx'.current.trans (htop s₀ o₀ rest₀).2.driven
  rcases h.alike.enterHost with ⟨er, hw, hw'⟩ | ⟨hw, hw'⟩
  · refine .move (y := ⟨w, a, .host o (rest (.error (.untraced (.coroutine er))))⟩)
      (z := ⟨w', a', .host o (rest' (.error (.untraced (.coroutine er))))⟩)
      (fun s o' rest₁ => ?_) (fun s o' rest₁ => ?_)
      ⟨h, ha, .host hne (hs _ _ _ _ _ le_rfl h.alike.memory
        (.error (TracedError.stands_untraced (Cause.Stand.coroutine er))))⟩
    · show some (beginCall B w _ o f args rest) = _
      rw [beginCall, hw]
      rfl
    · show some (beginCall B w' _ o f' args' rest') = _
      rw [beginCall, hw']
      rfl
  · have hup := h.setScheduler h.alike.running (congrArg (· + 1) h.alike.hostDepth)
    have hin : Twin Z t R e S
        (({ w with hostDepth := w.hostDepth + 1 } : World H).enterNonYieldable u)
        (({ w' with hostDepth := w'.hostDepth + 1 } : World H).enterNonYieldable v) :=
      hup.changeThread huv _ (fun _ _ h => h) fun _ _ hs =>
        { hs with nonYieldable := congrArg (· + 1) hs.nonYieldable }
    -- The call leaves alone the frames that the coroutine has now.
    have hlen := (hin.alike.threads u v huv hu).length_frames
    have hwait : ∀ w₁ : World H, Waiting Z t S (.call u (w₁.thread u).frames.length o rest)
        (.call v (w₁.thread u).frames.length o rest') := fun _ => .call hne huv hu hs
    have hnew := hwait (({ w with hostDepth := w.hostDepth + 1 } : World H).enterNonYieldable u)
    refine .move (fun s o' rest₁ => ?_) (fun s o' rest₁ => ?_)
      (.of_invoke hin (.cons hnew ha) huv hu hf hargs hc)
    · show some (beginCall B w _ o f args rest) = _
      rw [beginCall, hw]
      simp only [World.current] at hcur ⊢
      rw [hcur]
      rfl
    · show some (beginCall B w' _ o f' args' rest') = _
      rw [beginCall, hw']
      simp only [World.current] at hcur' ⊢
      rw [hcur', hlen]
      rfl

/-- A resume is refused in both worlds or in none. -/
theorem World.Alike.enterCoroutine (h : w.Alike Z t S w') (huv : Stands S u v)
    (hc : (w.thread w.current).status = .running)
    (hc' : (w'.thread w'.current).status = .running) :
    (∃ er, w.enterCoroutine u = .error er ∧ w'.enterCoroutine v = .error er) ∨
      (w.thread u).status = .suspended ∧ w.enterCoroutine u = .ok (w.entered u) ∧
        w'.enterCoroutine v = .ok (w'.entered v) := by
  rw [enterCoroutine_eq hc, enterCoroutine_eq hc', h.statuses u v huv, h.limits, h.hostDepth,
    ← h.running.length_eq]
  by_cases hs : (w.thread u).status = .suspended
  · have hn : ¬ (w.thread u).status ≠ .suspended := fun hn => hn hs
    rw [if_neg hn, if_neg hn]
    by_cases hd : w.limits.maxResumeDepth ≤ w.running.length
    · rw [if_pos hd, if_pos hd]
      exact .inl ⟨_, rfl, rfl⟩
    · rw [if_neg hd, if_neg hd]
      by_cases hh : w.limits.maxHostDepth ≤ w.hostDepth
      · rw [if_pos hh, if_pos hh]
        exact .inl ⟨_, rfl, rfl⟩
      · rw [if_neg hh, if_neg hh]
        exact .inr ⟨hs, rfl, rfl⟩
  · rw [if_pos hs, if_pos hs]
    exact .inl ⟨_, rfl, rfl⟩

/-- Coroutines that were resumed start in the same way. -/
theorem Lockstep.of_resumed (h : Twin Z t R e S w w') (ha : List.Forall₂ (Waiting Z t S) a a')
    (huv : Stands S u v) (hu : .thread u ∉ Z.references) (hargs : Stands S args args')
    (hc : ∀ f, (w.thread u).body = some f → w.Callable Z t B f args) :
    Lockstep Z t R e S ⟨(w.resumed B u args).world, a, (w.resumed B u args).control⟩
      ⟨(w'.resumed B v args').world, a', (w'.resumed B v args').control⟩ := by
  have hbody := (h.alike.threads u v huv hu).body
  rw [World.resumed, World.resumed]
  generalize hf : (w.thread u).body = f at hbody
  generalize (w'.thread v).body = f' at hbody
  cases hbody with
  | none => exact ⟨h, ha, .drive (.values hargs)⟩
  | some hff =>
    have hdrop := h.changeThread huv (fun s => { s with body := none }) (fun _ _ h => h)
      fun _ _ hs => { hs with body := .none }
    exact .of_invoke hdrop ha huv hu hff hargs (hc _ hf)

/-- Code waits for a coroutine, which is the coroutine's own if the resume is not refused. -/
theorem Next.of_resume {o : Owner}
    {rest rest' : Except ResumeError (List Value) → Program H (o.Result H)}
    (hr : Entered Z t c R s₀) (hne : o ≠ .embedding) (h : Twin Z t R e S w w')
    (ha : List.Forall₂ (Waiting Z t S) a a') (huv : Stands S u v) (hargs : Stands S args args')
    (hs : ∀ T n n' r r', S ≤ T → n.Alike Z t T n' → Stands T r r' →
      Program.Same Z t T n n' (rest r) (rest' r'))
    (hx : Chained ⟨w, a ++ .resume t c o₀ rest₀ :: s₀, some o⟩)
    (hx' : Chained ⟨w', a' ++ .resume t c o₀ rest₀ :: s₀, some o⟩)
    (hc : ∀ f, (w.thread u).body = some f → w.Callable Z t B f args) :
    Next Z t B c R e ⟨w, a, .host o (.resume u args rest)⟩
      ⟨w', a', .host o (.resume v args' rest')⟩ := by
  have hcur : (w.thread w.current).status = .running := by
    rw [hx.current]
    exact hx.top
  have hcur' : (w'.thread w'.current).status = .running := by
    rw [hx'.current]
    exact hx'.top
  rcases h.alike.enterCoroutine huv hcur hcur' with ⟨er, hw, hw'⟩ | ⟨hst, hw, hw'⟩
  · exact .move (y := ⟨w, a, .host o (rest (.error (.refused er)))⟩)
      (z := ⟨w', a', .host o (rest' (.error (.refused er)))⟩)
      (fun _ _ _ => step_refused hw _ _ _) (fun _ _ _ => step_refused hw' _ _ _)
      ⟨h, ha, .host hne (hs _ _ _ _ _ le_rfl h.alike.memory
        (.error (ResumeError.Stand.refused er)))⟩
  · -- The threads that are common to all wait, so they are not suspended.
    have hu : .thread u ∉ Z.references := fun hu =>
      (hx.status_ne_dead (mem_chain_append (List.mem_append_right [t] (hr.outside u hu)))).2 hst
    have hwait := Waiting.resume hne huv hu h.alike.current hs
    exact .move
      (fun _ _ _ => (step_resume_entered hw _ _ _).trans (congrArg some (resumed_on _ _)))
      (fun _ _ _ => (step_resume_entered hw' _ _ _).trans (congrArg some (resumed_on _ _)))
      (.of_resumed (h.entered huv) (.cons hwait ha) huv hu hargs fun f hf =>
        hc f ((keep_entered Thread.body u).symm.trans hf))

/-- Host code goes on in the same way. -/
theorem Next.of_host {y y' : World H} {o : Owner} {p p' q q' : Program H (o.Result H)}
    (hne : o ≠ .embedding)
    (hm : ∀ b s, step B (Stretch.on ⟨w, a, .host o p⟩ b s)
      = some (Stretch.on ⟨y, a, .host o q⟩ b s))
    (hm' : ∀ b s, step B (Stretch.on ⟨w', a', .host o p'⟩ b s)
      = some (Stretch.on ⟨y', a', .host o q'⟩ b s))
    (h : Twin Z t R e S y y') (ha : List.Forall₂ (Waiting Z t S) a a')
    (hs : Program.Same Z t S y.memory y'.memory q q') :
    Next Z t B c R e ⟨w, a, .host o p⟩ ⟨w', a', .host o p'⟩ :=
  .move (fun _ _ _ => hm _ _) (fun _ _ _ => hm' _ _) ⟨h, ha, .host hne hs⟩

/-- Code creates a coroutine. -/
theorem Next.of_create {o : Owner}
    {rest rest' : Except ArgumentError ThreadId → Program H (o.Result H)}
    (hne : o ≠ .embedding) (h : Twin Z t R e S w w') (ha : List.Forall₂ (Waiting Z t S) a a')
    (hf : Stands S f f')
    (hs : ∀ T r r', S ≤ T → w.memory.Alike Z t T w'.memory → Stands T r r' →
      Program.Same Z t T w.memory w'.memory (rest r) (rest' r')) :
    Next Z t B c R e ⟨w, a, .host o (.create f rest)⟩ ⟨w', a', .host o (.create f' rest')⟩ := by
  cases hf with
  | function hg =>
    obtain ⟨T, hT, htwin, hnew⟩ := h.create (Value.Stand.function hg)
    exact .of_host hne (fun _ _ => rfl) (fun _ _ => rfl) htwin (ha.imp fun _ _ hb => hb.mono hT)
      (hs T _ _ hT htwin.alike.memory (.ok hnew))
  | nil | boolean | number | string | thread | table =>
    exact .of_host hne (fun _ _ => rfl) (fun _ _ => rfl) h ha
      (hs S _ _ le_rfl h.alike.memory (.error rfl))

/-- Code closes a coroutine, which is the coroutine's own if the close is not refused. -/
theorem Next.of_close {o : Owner} {rest rest' : Except CoroutineError Unit → Program H (o.Result H)}
    (hne : o ≠ .embedding) (h : Twin Z t R e S w w') (ha : List.Forall₂ (Waiting Z t S) a a')
    (huv : Stands S u v)
    (hs : ∀ r, Program.Same Z t S w.memory w'.memory (rest r) (rest' r)) :
    Next Z t B c R e ⟨w, a, .host o (.close u rest)⟩ ⟨w', a', .host o (.close v rest')⟩ := by
  have hst := h.alike.statuses u v huv
  by_cases hu : (w.thread u).status = .suspended ∨ (w.thread u).status = .dead
  · have hw : w.closeCoroutine u = .ok (w.closed u) := by rw [closeCoroutine_eq, if_pos hu]
    have hw' : w'.closeCoroutine v = .ok (w'.closed v) := by
      rw [closeCoroutine_eq, hst, if_pos hu]
    refine .of_host hne (fun _ _ => ?_) (fun _ _ => ?_) (h.closed huv) ha (hs (.ok ()))
    · show serve B w _ o (.close u rest) = _
      rw [serve, hw]
      rfl
    · show serve B w' _ o (.close v rest') = _
      rw [serve, hw']
      rfl
  · have hw : w.closeCoroutine u = .error (.closeActive (w.thread u).status) := by
      rw [closeCoroutine_eq, if_neg hu]
    have hw' : w'.closeCoroutine v = .error (.closeActive (w.thread u).status) := by
      rw [closeCoroutine_eq, hst, if_neg hu]
    refine .of_host hne (fun _ _ => ?_) (fun _ _ => ?_) h ha
      (hs (.error (.closeActive (w.thread u).status)))
    · show serve B w _ o (.close u rest) = _
      rw [serve, hw]
      rfl
    · show serve B w' _ o (.close v rest') = _
      rw [serve, hw']
      rfl

/-- The native function whose code has ended hands its input on. -/
theorem Next.of_native {name : String} {p p' : Program H (List Value)} {i i' : Input}
    (hr : Entered Z t c R s₀) (h : Twin Z t R e S w w') (ha : List.Forall₂ (Waiting Z t S) a a')
    (hi : Stands S i i')
    (hp : ∀ s, serve B w s (.native name) p
      = some ⟨(w.exitNative (driven s)).exitHost, s, .drive i⟩)
    (hp' : ∀ s, serve B w' s (.native name) p'
      = some ⟨(w'.exitNative (driven s)).exitHost, s, .drive i'⟩) :
    Next Z t B c R e ⟨w, a, .host (.native name) p⟩ ⟨w', a', .host (.native name) p'⟩ := by
  obtain ⟨u, v, base, huv, hu, htop⟩ := exists_top ha (h.le _ _ hr.self) hr.own c
  have htwin := (h.changeThread huv (fun s => { s with nativeDepth := s.nativeDepth - 1 })
    (fun _ _ h => h) fun _ _ hs =>
      { hs with nativeDepth := congrArg (· - 1) hs.nativeDepth }).exitHost
  refine .move (y := ⟨(w.exitNative u).exitHost, a, .drive i⟩)
    (z := ⟨(w'.exitNative v).exitHost, a', .drive i'⟩) (fun s o rest => ?_) (fun s o rest => ?_)
    ⟨htwin, ha, .drive hi⟩
  · show serve B w (a ++ .resume t c o rest :: s) (.native name) p = _
    rw [hp, (htop s o rest).1.driven]
    rfl
  · show serve B w' (a' ++ .resume t c o rest :: s) (.native name) p' = _
    rw [hp', (htop s o rest).2.driven]
    rfl

/-- **States in step**: the next move leads to such states again, or ends both resumes alike. -/
theorem Lockstep.next (hr : Entered Z t c R s₀) (h : Lockstep Z t R e S x x')
    (hx : Chained (x.on (.resume t c o₀ rest₀) s₀).situation)
    (hx' : Chained (x'.on (.resume t c o₀ rest₀) s₀).situation)
    (hc : Confined Z t B (x.on (.resume t c o rest) s)) : Next Z t B c R e x x' := by
  obtain ⟨w, a, control⟩ := x
  obtain ⟨w', a', control'⟩ := x'
  obtain ⟨htwin, ha, hpair⟩ := h
  cases hpair with
  | drive hi => exact .of_drive hr htwin ha hi hx hx' hc
  | @host o p p' ho hs =>
    cases hs with
    | done hres =>
      cases o with
      | embedding => exact absurd rfl ho
      | poll name => exact .of_perform hr htwin ha hres hx hx' hc
      | native name =>
        exact .of_native hr htwin ha (.values hres) (fun _ => rfl) fun _ => rfl
    | @fail _ _ _ er er' her =>
      cases o with
      | embedding => exact absurd rfl ho
      | poll name =>
        exact .move (y := ⟨w, a, .drive (.error (er.leave name))⟩)
          (z := ⟨w', a', .drive (.error (er'.leave name))⟩) (fun _ _ _ => rfl) (fun _ _ _ => rfl)
          ⟨htwin, ha, .drive (.error (Raised.stands_leave her name))⟩
      | native name =>
        exact .of_native hr htwin ha (.error (Raised.stands_leave her name)) (fun _ => rfl)
          fun _ => rfl
    | read hs =>
      exact .of_host ho (fun _ _ => rfl) (fun _ _ => rfl) htwin ha (hs w w' rfl rfl htwin.alike)
    | write hw hs =>
      exact .of_host ho (fun _ _ => rfl) (fun _ _ => rfl) (htwin.setMemory hw)
        (ha.imp fun _ _ hb => hb.mono hw.le) hs
    | define hcl hs =>
      obtain ⟨T, hT, hdef, hnew⟩ := htwin.define hcl
      exact .of_host ho (fun _ _ => rfl) (fun _ _ => rfl) hdef (ha.imp fun _ _ hb => hb.mono hT)
        (hs T _ _ hT hdef.alike.memory hnew)
    | call hf hargs hs => exact .of_call hr ho htwin ha hf hargs hs hx hx' (hc.called _ _ .host)
    | resume hu hargs hs =>
      exact .of_resume hr ho htwin ha hu hargs hs hx hx' fun f hf => hc.called _ _ (.body hf)
    | create hb hs => exact .of_create ho htwin ha hb hs
    | close hu hs => exact .of_close ho htwin ha hu hs
    | @loop _ _ _ st st' rest rest' hst hs =>
      have hadv := hc.looped o st rest rfl _ _ _ htwin.alike.memory hst
      refine .move (y := ⟨w, a, .host o (B.round st rest)⟩)
        (z := ⟨w', a', .host o (B.round st' rest')⟩) (fun _ _ _ => rfl) (fun _ _ _ => rfl)
        ⟨htwin, ha, .host ho (hadv.bind htwin.alike.memory fun T n n' r r' hT hn hr => ?_)⟩
      cases hr with
      | inl hst => exact .loop hst fun U k k' b b' hU => hs U k k' b b' (hT.trans hU)
      | inr hb => exact hs T n n' _ _ hT hn hb

end Moves

end Lua
