/-
Chains of tail calls stay at one call depth.

A sequence that makes a tail call is off the stack when the depth is measured, and the sequence that
it calls takes its place.  In between it may have made calls and yielded any number of times, across
programs of the host, and other threads may have run.  All of this leaves the depth of its place
alone:

* `nativesUnder` — the native functions on a thread that wait behind boundaries below a place;
* `Machine.GoesOn.nativeDepth` — they are those of the thread when a frame goes on in that place;
* `Machine.Meanwhile.nativesUnder_eq` — and their number stays while the frame waits;
* `Machine.Reachable.runs` — the code of a poll leaves its thread as it was;
* `TailChain` — a sequence in the place of the first one after a number of tail calls;
* `TailChain.level` — every sequence of a chain is polled at the same call depth.

Design notes: the depth of a thread is counted in frames and in native functions.  The frames below
a place are known, and the native functions are counted here by the boundaries they wait behind,
for these can be followed through moves that do not concern the thread at all.
-/
import Lua.Proofs.Execution
import Lua.Proofs.ProtectedCall
import Lua.Proofs.YieldPermission

namespace Lua

variable {H : Host} {B : Behaviour H}

open Machine

/-! ### Bases of calls -/

/-- A change puts up a boundary or lowers the stack, and the base of a call is the number of frames
there are. -/
theorem Change.stack {x y : Situation H} {es : List (ThreadId × LifeEvent)} (h : Change x es y) :
    y.stack <:+ x.stack ∨ x.active ≠ none ∧ ∃ b, y.stack = b :: x.stack ∧
      ∀ {t base o rest}, b = .call t base o rest → base = (x.world.thread t).frames.length := by
  cases h with
  | call hh rest =>
    refine .inr ⟨by simp, _, rfl, fun hb => ?_⟩
    cases hb
    rfl
  | resume t he rest =>
    refine .inr ⟨by simp, _, rfl, fun hb => ?_⟩
    cases hb
  | endCall | endResume | yield | escape => exact .inl (List.suffix_cons _ _)
  | _ => exact .inl List.suffix_rfl

theorem Changes.base_eq {x y : Situation H} {es : List (ThreadId × LifeEvent)}
    (h : Changes x es y) {t : ThreadId} {base : Nat} {o : Owner}
    {rest : Except TracedError (List Value) → Program H (o.Result H)}
    (hy : y.stack = .call t base o rest :: x.stack) :
    base = (x.world.thread t).frames.length := by
  have hraised : ¬ y.stack <:+ x.stack := by
    intro hs
    have hle := hs.length_le
    rw [hy, List.length_cons] at hle
    omega
  cases h with
  | nil => exact absurd List.suffix_rfl hraised
  | one h =>
    rcases h.stack with hs | ⟨-, b, hb, hbase⟩
    · exact absurd hs hraised
    · exact hbase (List.cons.inj (hb.symm.trans hy)).1
  | @two z _ h hz _ h' =>
    -- the second change enters a function, so the boundary went up in the first one
    have hsecond : y.stack <:+ z.stack := h'.stack.resolve_right fun hn => hn.1 hz
    rcases h.stack with hs | ⟨-, b, hb, hbase⟩
    · exact absurd (hsecond.trans hs) hraised
    · have heq : y.stack = z.stack := hsecond.eq_of_length (by rw [hy, hb]; rfl)
      exact hbase (List.cons.inj (hb.symm.trans (heq.symm.trans hy))).1

/-! ### Native functions below a place -/

/-- A native function on the thread `t` that waits for a call made from no more than `k` frames. -/
def Boundary.isNative (t : ThreadId) (k : Nat) : Boundary H → Bool
  | .call u base (.native _) _ => u = t ∧ base ≤ k
  | _ => false

/-- How many native functions wait on the thread `t` below its frame number `k`. -/
def nativesUnder (t : ThreadId) (k : Nat) (s : List (Boundary H)) : Nat :=
  s.countP (·.isNative t k)

section Natives

variable {s : List (Boundary H)} {b : Boundary H} {t : ThreadId} {k : Nat}

theorem Boundary.isNative_iff : b.isNative t k ↔
    b.thread = t ∧ b.base ≤ k ∧ (∃ u base o rest, b = .call u base o rest) ∧
      nativeHere (some b.owner) = 1 := by
  cases b with
  | call u base o rest => cases o <;> simp [isNative, thread, Boundary.base, nativeHere, owner]
  | resume u c o rest => simp [isNative]

theorem nativesUnder_cons (h : b.thread = t → ¬ b.base ≤ k) :
    nativesUnder t k (b :: s) = nativesUnder t k s := by
  refine List.countP_cons_of_neg fun hb => ?_
  obtain ⟨ht, hk, -⟩ := Boundary.isNative_iff.mp hb
  exact h ht hk

theorem nativesUnder_resume {u c : ThreadId} {o : Owner}
    {rest : Except ResumeError (List Value) → Program H (o.Result H)} :
    nativesUnder t k (.resume u c o rest :: s) = nativesUnder t k s :=
  List.countP_cons_of_neg Bool.false_ne_true

theorem nativesUnder_call {base : Nat} {o : Owner}
    {rest : Except TracedError (List Value) → Program H (o.Result H)} (hk : base ≤ k) :
    nativesUnder t k (.call t base o rest :: s) = nativesUnder t k s + nativeHere (some o) := by
  rw [nativesUnder, List.countP_cons]
  cases o <;> simp [Boundary.isNative, nativeHere, nativesUnder, hk]

theorem nativesUnder_outside (hl : Linked s) (ht : t ∉ chain s) : nativesUnder t k s = 0 := by
  refine List.countP_eq_zero.mpr fun b hb hn => ht ?_
  rw [← (Boundary.isNative_iff.mp hn).1]
  exact thread_mem_chain hl b hb

/-- On the driven thread all native functions wait below its frames. -/
theorem openNatives_driven (hl : Linked s) (hk : ∀ b ∈ s, b.thread = driven s → b.base ≤ k) :
    openNatives s none (driven s) = nativesUnder (driven s) k s := by
  induction s with
  | nil => exact ite_self 0
  | cons b s ih =>
    cases b with
    | call t base o rest =>
      obtain ⟨ht, hl⟩ := hl
      have hih := ih hl fun b hb hd => hk b (List.mem_cons_of_mem _ hb) (hd.trans ht.symm)
      have hbase : base ≤ k := hk _ List.mem_cons_self rfl
      show openNatives (.call t base o rest :: s) none t = nativesUnder t k _
      rw [openNatives_cons, openNatives_eq_add, if_pos ht, nativesUnder_call hbase, ht, hih]
      rfl
    | resume t c o rest =>
      obtain ⟨-, ht, hl⟩ := hl
      show openNatives (.resume t c o rest :: s) none t = nativesUnder t k _
      rw [openNatives_cons, openNatives_outside hl ht, nativesUnder_resume,
        nativesUnder_outside hl ht]

end Natives

namespace Machine

variable {m m' x y : Machine H} {t : ThreadId} {f : Frame H} {below fs : List (Frame H)}
  {i : Input} {k : Nat}

/-- The native functions of a thread are those that wait below the frame that goes on. -/
theorem GoesOn.nativeDepth (hm : Reachable B m) (h : GoesOn t f below i m) :
    (m.world.thread t).nativeDepth = nativesUnder t below.length m.stack := by
  obtain ⟨base, ⟨b, s, hs, rfl, rfl⟩, hbase⟩ := h.driven
  have hl : Linked m.stack := hm.chained.linked
  have hn : (m.world.thread b.thread).nativeDepth
      = openNatives m.stack m.control.active b.thread := hm.counted.nativeDepth b.thread
  have hactive : m.control.active = none := by
    rw [h.control]
    rfl
  have hdriven : b.thread = Machine.driven m.stack := by
    rw [hs]
    rfl
  rw [hn, hactive, hdriven]
  refine openNatives_driven hl fun c hc ht => ?_
  have hordered := hm.based.ordered
  change m.stack.Pairwise _ at hordered
  rw [hs] at hc hordered
  rcases List.mem_cons.mp hc with rfl | hc
  · exact hbase
  · exact ((List.pairwise_cons.mp hordered).1 c hc (ht.trans hdriven.symm)).trans hbase

/-- **A move** that leaves frames where they are leaves the native functions that wait below
them. -/
theorem nativesUnder_step (hm : Reachable B m) (hw : m.world.Holds t fs) (hk : k < fs.length)
    (hs : m.step B = some m') : nativesUnder t k m'.stack = nativesUnder t k m.stack := by
  have hhigh : ∀ {base}, (m.world.thread t).frames.length ≤ base → ¬ base ≤ k := by
    intro base hb
    have hle : fs.length ≤ (m.world.thread t).frames.length := hw.length_le
    omega
  rcases step_stack hs with hkeep | ⟨b, hb⟩ | ⟨b, s, w, oc, hb, hf, hfall⟩
  · rw [hkeep]
  · rw [hb]
    cases b with
    | resume u c o rest => exact nativesUnder_resume
    | call u base o rest =>
      have hbase : base = (m.world.thread u).frames.length := (step_changes hs).base_eq hb
      exact nativesUnder_cons fun hu => hhigh (hu ▸ hbase.ge)
  · rw [(fall_situation hfall).1, hb]
    cases b with
    | resume u c o rest => exact nativesUnder_resume.symm
    | call u base o rest =>
      refine (nativesUnder_cons fun hu => ?_).symm
      cases hf with
      | left input hc hf => exact hhigh (hu ▸ hf)
      | yielded name vs next hc hy =>
        -- no yield gets past a call
        have hcounted : Counted ⟨m.world, m.stack, m.control.active⟩ := hm.counted
        rw [hb] at hcounted
        exact absurd hy hcounted.not_escape

theorem Reachable.not_holds_of_dead (hm : Reachable B m) (hne : fs ≠ [])
    (hd : (m.world.thread t).status = .dead) : ¬ m.world.Holds t fs := by
  intro hw
  have hnil : (m.world.thread t).frames = [] := ((hm.shaped.shape t).dead hd).2
  rw [World.Holds, hnil] at hw
  exact hne (List.suffix_nil.mp hw)

/-- **While a frame waits** the native functions that wait below it stay. -/
theorem Meanwhile.nativesUnder_eq (hu : Meanwhile B t f below m x) (hm : Reachable B m)
    (hw : m.world.Holds t (f :: below)) (hx : x.world.Holds t (f :: below)) :
    nativesUnder t below.length x.stack = nativesUnder t below.length m.stack := by
  induction hu with
  | refl => rfl
  | @tail x y hu _ hf ih =>
    have hrx : Reachable B x := hu.reachable hm
    rcases hu.waits hm hw with hwx | hc
    · refine Eq.trans ?_ (ih hwx)
      cases hf with
      | step hs => exact nativesUnder_step hrx hwx (Nat.lt_succ_self _) hs
      | next hd p =>
        obtain ⟨h, hr⟩ := hrx
        have hnil : x.stack = [] := congrArg Situation.stack (hr.situation_of_result hd)
        rw [hnil]
        rfl
    · -- a thread that was closed on the way has no frames any more
      have hdead := (hf.dead hrx hc.has hc.dead).2
      exact absurd hx ((hrx.follows hf).not_holds_of_dead (List.cons_ne_nil _ _) hdead)

end Machine

/-! ### Polls -/

namespace Machine

variable {m' last : Machine H} {w w' : World H} {s : List (Boundary H)} {o : Owner} {t : ThreadId}

/-- Code whose call or resume is answered finds the threads of the chain as they were. -/
theorem thread_eq_of_until {p : Program H (o.Result H)} (hm : Reachable B ⟨w, s, .host o p⟩)
    (hp : (∃ callee args rest, p = .call callee args rest) ∨ ∃ u args rest, p = .resume u args rest)
    (hu : Until B (fun m => m.stack = s) ⟨w, s, .host o p⟩ last m') (ht : t ∈ chain s) :
    m'.world.thread t = w.thread t := by
  have hmem : t ∈ w.chain := hm.chained.mem_chain_iff.mpr ht
  obtain ⟨m₁, hs⟩ := hu.step_first
  rcases hp with ⟨callee, args, rest, rfl⟩ | ⟨u, args, rest, rfl⟩
  · rcases step_call hm rfl hs with ⟨r, rfl⟩ | ⟨v, base, h₁, hi⟩
    · obtain ⟨rfl, -⟩ := hu.eq_of_step hs rfl
      rfl
    · exact (hu.handedBack hm rfl hs h₁ hi).2.threads t hmem
  · rcases step_resume hm rfl hs with ⟨e, -, rfl⟩ | ⟨c, h₁, hi⟩
    · obtain ⟨rfl, -⟩ := hu.eq_of_step hs rfl
      rfl
    · exact (hu.handedBack hm rfl hs h₁ hi).2.threads t hmem

/-- **Code that runs to its result** leaves the threads of the chain as they were. -/
theorem Reachable.runs {p : Program H (o.Result H)} {r : Except Raised (o.Result H)}
    (hm : Reachable B ⟨w, s, .host o p⟩) (h : p.Runs B w r w') :
    Reachable B ⟨w', s, .host o (.ending r)⟩ ∧ ∀ t ∈ chain s, w'.thread t = w.thread t := by
  induction h with
  | done => exact ⟨hm, fun _ _ => rfl⟩
  | fail => exact ⟨hm, fun _ _ => rfl⟩
  | read _ ih => exact ih (hm.step rfl)
  | write _ ih => exact ih (hm.step rfl)
  | define _ ih => exact ih (hm.step rfl)
  | loop _ ih => exact ih (hm.step rfl)
  | @call w callee args answer w₁ rest r w' hc _ ih =>
    obtain ⟨last, hu⟩ := hc s o rest
    obtain ⟨hr, hthreads⟩ := ih (hu.reachable hm)
    have hcall : ∀ t ∈ chain s, w₁.thread t = w.thread t :=
      fun t ht => thread_eq_of_until hm (.inl ⟨_, _, _, rfl⟩) hu ht
    exact ⟨hr, fun t ht => (hthreads t ht).trans (hcall t ht)⟩
  | @resume w u args answer w₁ rest r w' hc _ ih =>
    obtain ⟨last, hu⟩ := hc s o rest
    obtain ⟨hr, hthreads⟩ := ih (hu.reachable hm)
    have hresume : ∀ t ∈ chain s, w₁.thread t = w.thread t :=
      fun t ht => thread_eq_of_until hm (.inr ⟨_, _, _, rfl⟩) hu ht
    exact ⟨hr, fun t ht => (hthreads t ht).trans (hresume t ht)⟩
  | @created w body u w₁ rest r w' hc _ ih =>
    have hstep : Machine.step B ⟨w, s, .host o (.create body rest)⟩
        = some ⟨w₁, s, .host o (rest (.ok u))⟩ := by
      show serve B w s o (.create body rest) = _
      rw [serve, hc]
    obtain ⟨hr, hthreads⟩ := ih (hm.step hstep)
    refine ⟨hr, fun t ht => (hthreads t ht).trans ?_⟩
    cases body with
    | function f =>
      cases hc
      have hne : t ≠ ⟨w.threads.size⟩ := by
        rintro rfl
        exact absurd (hm.chained.has ht) (Nat.lt_irrefl _)
      rw [World.thread_push, if_neg hne]
    | _ => cases hc
  | @notCreated w body e rest r w' hc _ ih =>
    refine ih (hm.step ?_)
    show serve B w s o (.create body rest) = _
    rw [serve, hc]
  | @closed w u w₁ rest r w' hc _ ih =>
    have hstep : Machine.step B ⟨w, s, .host o (.close u rest)⟩
        = some ⟨w₁, s, .host o (rest (.ok ()))⟩ := by
      show serve B w s o (.close u rest) = _
      rw [serve, hc]
    obtain ⟨hr, hthreads⟩ := ih (hm.step hstep)
    refine ⟨hr, fun t ht => (hthreads t ht).trans ?_⟩
    rw [World.closeCoroutine_eq] at hc
    split at hc
    · next hstatus =>
      cases hc
      -- a thread of the chain is active, and only others are closed
      have hne : t ≠ u := by
        rintro rfl
        obtain ⟨hdead, hsus⟩ := hm.chained.status_ne_dead ht
        exact hstatus.elim hsus hdead
      exact World.thread_modifyThread_ne hne _
    · cases hc
  | @notClosed w u e rest r w' hc _ ih =>
    refine ih (hm.step ?_)
    show serve B w s o (.close u rest) = _
    rw [serve, hc]

end Machine

/-! ### Chains -/

/-- After the step the sequence waits in the state `next`: for a call, or because it yields and its
thread may do so. -/
inductive Step.Waits (w : World H) (t : ThreadId) : Step H → Activation H → Prop
  | call {callee args next} : Waits w t (.call callee args next) next
  | yield {vs next} (h : w.checkYield t = .ok ()) : Waits w t (.yield vs next) next

/-- The poll of the frame `f`, which goes on in `m`, asks for the step `st` in the world `w`, and
this step leads to `x`. -/
structure Asks (B : Behaviour H) (t : ThreadId) (f : Frame H) (below : List (Frame H)) (i : Input)
    (m : Machine H) (st : Step H) (w : World H) (x : Machine H) : Prop where
  runs : (B.goOn f i).Runs B (m.world.setFrames t below) (.ok st) w
  step : Machine.step B ⟨w, m.stack, .host (.poll f.name) (.done st)⟩ = some x

/-- A call is one of a sequence that starts in the state `a`, with the arguments `vs`. -/
def CallsSequence (B : Behaviour H) (w : World H) (callee : Value) (args : List Value)
    (fn : Function) (a : Activation H) (vs : List Value) : Prop :=
  w.memory.heap.prepareCall callee args = .ok (fn, vs) ∧ B.enter w fn vs = .sequence a

/-- A chain of tail calls above the frames `below` of the thread `t`: after `n` of them the frame
`f` goes on in `m`. -/
inductive TailChain (B : Behaviour H) (t : ThreadId) (below : List (Frame H)) (m₀ : Machine H) :
    Nat → Frame H → Input → Machine H → Prop
  /-- The first sequence has been called. -/
  | first {f i} (h : GoesOn t f below i m₀) : TailChain B t below m₀ 0 f i m₀
  /-- A sequence calls or yields, and goes on with the outcome. -/
  | waits {n f i m st w next x y i'} (h : TailChain B t below m₀ n f i m)
      (hask : Asks B t f below i m st w x) (hst : st.Waits w t next)
      (hx : Meanwhile B t ⟨f.name, next⟩ below x y) (hy : GoesOn t ⟨f.name, next⟩ below i' y) :
      TailChain B t below m₀ n ⟨f.name, next⟩ i' y
  /-- A sequence makes a tail call of another sequence. -/
  | tailCall {n f i m callee args w x fn a vs} (h : TailChain B t below m₀ n f i m)
      (hask : Asks B t f below i m (.tailCall callee args) w x)
      (hcall : CallsSequence B w callee args fn a vs) :
      TailChain B t below m₀ (n + 1) ⟨w.nameOf fn, a⟩ (.values vs) x

/-- The frame `f` goes on in `m` at a given call depth. -/
structure Level (B : Behaviour H) (t : ThreadId) (f : Frame H) (below : List (Frame H)) (i : Input)
    (depth : Nat) (m : Machine H) : Prop where
  goesOn : GoesOn t f below i m
  callDepth : (m.world.thread t).callDepth = depth
  /-- It is polled at the depth without it. -/
  polled : ∃ x, m.step B = some x ∧ x.control = .host (.poll f.name) (B.goOn f i) ∧
    (x.world.thread t).callDepth + 1 = depth
  /-- A tail call of a sequence is accepted, and puts it in the place of the frame. -/
  accepts : ∀ {callee args w x fn a vs}, Asks B t f below i m (.tailCall callee args) w x →
    CallsSequence B w callee args fn a vs → GoesOn t ⟨w.nameOf fn, a⟩ below (.values vs) x

namespace Machine

variable {m₀ m x y : Machine H} {w : World H} {t : ThreadId} {f : Frame H}
  {below : List (Frame H)} {i i' : Input} {st : Step H} {next : Activation H}

theorem GoesOn.callDepth (hm : Reachable B m) (h : GoesOn t f below i m) :
    (m.world.thread t).callDepth = below.length + 1 + nativesUnder t below.length m.stack := by
  rw [Thread.callDepth, h.frames, h.nativeDepth hm, List.length_cons]

theorem GoesOn.thread_polled (h : GoesOn t f below i m) :
    (m.world.setFrames t below).thread t = { m.world.thread t with frames := below } := by
  rw [World.setFrames, World.thread_modifyThread h.has, if_pos rfl]

/-- The state in which the poll of a frame has come to a step. -/
theorem GoesOn.asks (hm : Reachable B m) (h : GoesOn t f below i m)
    (hask : Asks B t f below i m st w x) :
    Reachable B ⟨w, m.stack, .host (.poll f.name) (.done st)⟩ ∧ Machine.driven m.stack = t ∧
      w.thread t = { m.world.thread t with frames := below } := by
  obtain ⟨base, htop, -⟩ := h.driven
  have hd : Machine.driven m.stack = t := htop.driven
  have hpoll : Reachable B ⟨m.world.setFrames t below, m.stack,
      .host (.poll f.name) (B.goOn f i)⟩ := hm.step h.step
  obtain ⟨hr, hthreads⟩ := hpoll.runs hask.runs
  refine ⟨hr, hd, ?_⟩
  have ht : t ∈ chain m.stack := hd ▸ driven_mem_chain hm.chained.linked
  rw [hthreads t ht, h.thread_polled]

/-- A sequence that begins to wait is in its place, and no native function is below it that was not
there before. -/
theorem holds_of_waits {s : List (Boundary H)} {name : String} {k : Nat}
    (hm : Reachable B ⟨w, s, .host (.poll name) (.done st)⟩) (hd : driven s = t)
    (hw : (w.thread t).frames = below) (hst : st.Waits w t next)
    (hs : Machine.step B ⟨w, s, .host (.poll name) (.done st)⟩ = some x) :
    x.world.Holds t (⟨name, next⟩ :: below) ∧ nativesUnder t k x.stack = nativesUnder t k s := by
  have hhas : w.Has t := hd ▸ hm.chained.has_driven
  have hpushed : (w.pushFrame t ⟨name, next⟩).Holds t (⟨name, next⟩ :: below) := by
    refine .of_frames ?_
    rw [World.thread_pushFrame hhas, hw]
  cases hst with
  | call =>
    subst hd
    cases hs
    exact ⟨hpushed.invoke B _ _ _, rfl⟩
  | @yield vs next hy =>
    change perform B w s name (.yield vs next) = some x at hs
    rw [perform, hd] at hs
    simp only [hy] at hs
    cases s with
    | nil => cases hs
    | cons b s =>
      have hch : Chained ⟨w, b :: s, none⟩ := hm.chained.congr rfl (fun _ => rfl) fun _ => rfl
      refine ⟨holds_of_fall hpushed (List.cons_ne_nil _ _) (hch.pushFrame t _)
        (fun hdead => by cases hdead) hs, ?_⟩
      rw [(fall_situation hs).1]
      cases b with
      | resume u c o rest => exact nativesUnder_resume.symm
      | call u base o rest =>
        -- no yield gets past a call
        subst hd
        exact absurd hy hm.counted.not_escape

/-- **A tail call** of a sequence is accepted: the sequence takes the place of the frame that made
it. -/
theorem GoesOn.tailCall {callee : Value} {args vs : List Value} {fn : Function} {a : Activation H}
    (hm : Reachable B m) (h : GoesOn t f below i m)
    (hask : Asks B t f below i m (.tailCall callee args) w x)
    (hcall : CallsSequence B w callee args fn a vs) :
    GoesOn t ⟨w.nameOf fn, a⟩ below (.values vs) x ∧ x.stack = m.stack := by
  obtain ⟨hr, hd, ht⟩ := h.asks hm hask
  obtain ⟨base, htop, hbase⟩ := h.driven
  obtain ⟨hp, hf⟩ := hcall
  have hhas : w.Has t := hd ▸ hr.chained.has_driven
  -- the frame is off the stack, so there is room for another one
  have hroom : (w.thread t).callDepth < w.limits.maxCallDepth := hd ▸ hr.roomy.polled f.name rfl
  have hs : perform B w m.stack f.name (.tailCall callee args) = some x := hask.step
  rw [perform, hd, World.invoke_of_sequence hp hf hroom] at hs
  cases hs
  refine ⟨⟨rfl, ?_, base, htop, hbase⟩, rfl⟩
  show ((w.pushFrame t _).thread t).frames = _
  rw [World.thread_pushFrame hhas, ht]

/-- The place of a frame has a call depth of its own. -/
theorem GoesOn.level {k : Nat} (hm : Reachable B m) (h : GoesOn t f below i m)
    (hk : below.length + 1 + nativesUnder t below.length m.stack = k) :
    Level B t f below i k m := by
  have hdepth := (h.callDepth hm).trans hk
  refine ⟨h, hdepth, ⟨_, h.step, rfl, ?_⟩, fun hask hcall => (h.tailCall hm hask hcall).1⟩
  rw [Thread.callDepth, h.frames, List.length_cons] at hdepth
  show ((m.world.setFrames t below).thread t).callDepth + 1 = k
  rw [h.thread_polled]
  show below.length + (m.world.thread t).nativeDepth + 1 = k
  omega

end Machine

namespace TailChain

variable {m₀ m : Machine H} {t : ThreadId} {f : Frame H} {below : List (Frame H)} {i : Input}
  {n : Nat}

theorem exists_first (h : TailChain B t below m₀ n f i m) : ∃ f₀ i₀, GoesOn t f₀ below i₀ m₀ := by
  induction h with
  | first h => exact ⟨_, _, h⟩
  | waits _ _ _ _ _ ih => exact ih
  | tailCall _ _ _ ih => exact ih

/-- The sequences of a chain are in one place, with the same native functions below it. -/
theorem place (hm₀ : Reachable B m₀) (h : TailChain B t below m₀ n f i m) :
    Reachable B m ∧ GoesOn t f below i m ∧
      nativesUnder t below.length m.stack = nativesUnder t below.length m₀.stack := by
  induction h with
  | first h => exact ⟨hm₀, h, rfl⟩
  | @waits n f i m st w next x y i' _ hask hst hx hy ih =>
    obtain ⟨hm, hg, hk⟩ := ih
    obtain ⟨hr, hd, ht⟩ := hg.asks hm hask
    have hrx : Reachable B x := hr.step hask.step
    obtain ⟨hholds, hstack⟩ := holds_of_waits (k := below.length) hr hd (by rw [ht]) hst hask.step
    refine ⟨hx.reachable hrx, hy, Eq.trans ?_ (hstack.trans hk)⟩
    exact hx.nativesUnder_eq hrx hholds (.of_frames hy.frames)
  | tailCall _ hask hcall ih =>
    obtain ⟨hm, hg, hk⟩ := ih
    obtain ⟨hr, -, -⟩ := hg.asks hm hask
    obtain ⟨hg', hstack⟩ := hg.tailCall hm hask hcall
    exact ⟨hr.step hask.step, hg', by rw [hstack, hk]⟩

/-- **A chain of tail calls** stays at one call depth. -/
theorem level (hm₀ : Reachable B m₀) (h : TailChain B t below m₀ n f i m) :
    Level B t f below i (m₀.world.thread t).callDepth m := by
  obtain ⟨hm, hg, hk⟩ := h.place hm₀
  obtain ⟨f₀, i₀, hg₀⟩ := h.exists_first
  exact hg.level hm (by rw [hk, hg₀.callDepth hm₀])

end TailChain

end Lua
