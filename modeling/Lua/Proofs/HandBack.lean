/-
Control is handed back exactly.

Calls, resumes and native functions run code that may do anything: call, resume and close other
threads, yield, fail, catch errors.  When it comes back, the bookkeeping of the scheduler and
every thread of the chain of resumes are as they were:

* `World.HandedBack` — what is the same at the beginning and at the end;
* `Inside` — what stays true of the frames while code runs above a number of boundaries;
* `Inside.change`, `Until.inside` — an elementary change keeps it, and so does a whole wait;
* `Machine.Reachable.handed_back` — calls, resumes and native functions hand back exactly.

Design notes: statuses, links and counters need no invariant of their own here.  They can be
read off the boundaries at any time, so they agree wherever the boundaries do.  The frames
cannot, and `Inside` is about them alone.
-/
import Lua.Proofs.Boundary
import Lua.Proofs.ThreadShape

namespace Lua

variable {H : Host}

/-- Control is back: the bookkeeping and the threads of the chain are as they were. -/
structure World.HandedBack (w w' : World H) : Prop where
  running : w'.running = w.running
  hostDepth : w'.hostDepth = w.hostDepth
  current : w'.current = w.current
  threads : ∀ t ∈ w.chain, w'.thread t = w.thread t

theorem World.HandedBack.refl (w : World H) : w.HandedBack w := ⟨rfl, rfl, rfl, fun _ _ => rfl⟩

open Machine

/-! ### What the boundaries determine -/

/-- The chain, the counters and the shapes of the threads are as they should be. -/
structure Consistent (x : Situation H) : Prop where
  chained : Chained x
  counted : Counted x
  shaped : Shaped x

theorem Consistent.change {x y : Situation H} {es : List (ThreadId × LifeEvent)}
    (hc : Change x es y) (h : Consistent x) : Consistent y :=
  ⟨h.chained.change hc, h.counted.change hc h.chained, h.shaped.change hc h.chained⟩

theorem Consistent.step {B : Behaviour H} {m m' : Machine H} (h : Consistent m.situation)
    (hs : m.step B = some m') : Consistent m'.situation :=
  (step_changes hs).keep (fun hc => Consistent.change hc) h

theorem Machine.Reachable.consistent {B : Behaviour H} {m : Machine H} (hm : Reachable B m) :
    Consistent m.situation := ⟨hm.chained, hm.counted, hm.shaped⟩

/-- Two worlds with the same boundaries differ on the chain at most in the frames. -/
theorem Consistent.handedBack {w w' : World H} {s : List (Boundary H)} {a : Option Owner}
    (h : Consistent ⟨w, s, a⟩) (h' : Consistent ⟨w', s, a⟩)
    (hf : ∀ t ∈ chain s, (w'.thread t).frames = (w.thread t).frames) : w.HandedBack w' := by
  refine ⟨?_, ?_, ?_, fun t ht => ?_⟩
  · exact Eq.trans h'.chained.running h.chained.running.symm
  · exact Eq.trans h'.counted.hostDepth h.counted.hostDepth.symm
  · exact h'.chained.current.trans h.chained.current.symm
  · have hmem : t ∈ chain s := h.chained.mem_chain_iff.mp ht
    have hst : (w'.thread t).status = (w.thread t).status := by
      by_cases hd : t = driven s
      · rw [hd]
        exact Eq.trans h'.chained.top h.chained.top.symm
      · exact Eq.trans (h'.chained.waiting t hmem hd) (h.chained.waiting t hmem hd).symm
    have hbody : (w'.thread t).body = (w.thread t).body :=
      Eq.trans (h'.shaped.active t hmem) (h.shaped.active t hmem).symm
    have hresumer : (w'.thread t).resumer = (w.thread t).resumer :=
      Eq.trans (h'.chained.resumer t) (h.chained.resumer t).symm
    have hyield : (w'.thread t).nonYieldable = (w.thread t).nonYieldable :=
      Eq.trans (h'.counted.nonYieldable t) (h.counted.nonYieldable t).symm
    have hdepth : (w'.thread t).nativeDepth = (w.thread t).nativeDepth :=
      Eq.trans (h'.counted.nativeDepth t) (h.counted.nativeDepth t).symm
    have hframes := hf t hmem
    cases hw' : w'.thread t
    cases hw : w.thread t
    simp_all

/-! ### Code above the boundaries of a situation -/

theorem chain_append (above s : List (Boundary H)) :
    chain (above ++ s) = resumed above ++ chain s := by
  induction above with
  | nil => rfl
  | cons b above ih =>
    cases b with
    | call t base o rest => exact ih
    | resume t c o rest => exact congrArg (t :: ·) ih

theorem mem_chain_append {above s : List (Boundary H)} {t : ThreadId} (h : t ∈ chain s) :
    t ∈ chain (above ++ s) := by
  rw [chain_append]
  exact List.mem_append_right _ h

/-- Code that was begun by `o` in the world `w₀` with the boundaries `s`, and waits behind the
boundaries `above`.  The frames that were there are there, below all others; on a thread that
no boundary above drives there are no others; and no boundary above reaches below them. -/
structure Inside (w₀ : World H) (s : List (Boundary H)) (o : Owner) (above : List (Boundary H))
    (x : Situation H) : Prop where
  stack : x.stack = above ++ s
  suffix : ∀ t ∈ chain s, (w₀.thread t).frames <:+ (x.world.thread t).frames
  still : ∀ t ∈ chain s, (∀ b ∈ above, b.thread ≠ t) →
    (x.world.thread t).frames = (w₀.thread t).frames
  floor : ∀ b ∈ above, b.thread ∈ chain s → (w₀.thread b.thread).frames.length ≤ b.base
  ground : ∀ b ∈ above.getLast?,
    b.owner = o ∧ (b.thread ∈ chain s → b.base ≤ (w₀.thread b.thread).frames.length)
  home : above = [] → x.active = some o ∨ x.active = none

namespace Inside

variable {w₀ w w' : World H} {s st above : List (Boundary H)} {o : Owner} {a a' : Option Owner}
  {b : Boundary H}

theorem refl (w : World H) (s : List (Boundary H)) (o : Owner) (ha : a = some o ∨ a = none) :
    Inside w s o [] ⟨w, s, a⟩ :=
  ⟨rfl, fun _ _ => List.suffix_refl _, fun _ _ _ => rfl, fun _ hb => absurd hb (by simp),
    fun _ hb => absurd hb (by simp), fun _ => ha⟩

/-- Only the frames of the chain matter. -/
theorem congr (h : Inside w₀ s o above ⟨w, st, a⟩)
    (hf : ∀ t ∈ chain s, (w'.thread t).frames = (w.thread t).frames)
    (ha : above = [] → a' = a ∨ a' = none) : Inside w₀ s o above ⟨w', st, a'⟩ where
  stack := h.stack
  suffix t ht := by
    rw [show (World.thread _ t).frames = _ from hf t ht]
    exact h.suffix t ht
  still t ht hb := (hf t ht).trans (h.still t ht hb)
  floor := h.floor
  ground := h.ground
  home he := by
    rcases ha he with rfl | rfl
    · exact h.home he
    · exact .inr rfl

/-- A boundary goes up whose base is the number of frames of its thread. -/
theorem raise (h : Inside w₀ s o above ⟨w, st, some b.owner⟩)
    (hb : b.thread ∈ chain s → b.base = (w.thread b.thread).frames.length) :
    Inside w₀ s o (b :: above) ⟨w, b :: st, a'⟩ where
  stack := congrArg (b :: ·) h.stack
  suffix := h.suffix
  still t ht hn := h.still t ht fun b' hb' => hn b' (List.mem_cons_of_mem b hb')
  floor b' hb' ht := by
    rcases List.mem_cons.mp hb' with rfl | hb'
    · rw [hb ht]
      exact (h.suffix _ ht).length_le
    · exact h.floor b' hb' ht
  ground b' hb' := by
    cases above with
    | cons c above => exact h.ground b' (by rwa [List.getLast?_cons_cons] at hb')
    -- It is the first boundary above, so its owner is the code that was begun.
    | nil =>
      obtain rfl : b = b' := Option.some.inj hb'
      refine ⟨?_, fun ht => ?_⟩
      · rcases h.home rfl with ha | ha
        · exact Option.some.inj ha
        · exact absurd ha (by simp)
      · rw [hb ht, h.still b.thread ht (fun _ hn => absurd hn (by simp))]
  home he := absurd he (List.cons_ne_nil _ _)

/-- The owner of the active code begins to wait for a call. -/
theorem call {o' : Owner} (h : Inside w₀ s o above ⟨w, st, some o'⟩)
    (rest : Except TracedError (List Value) → Program H (o'.Result H)) :
    Inside w₀ s o (.call w.current (w.thread w.current).frames.length o' rest :: above)
      ⟨({ w with hostDepth := w.hostDepth + 1 } : World H).enterNonYieldable w.current,
        .call w.current (w.thread w.current).frames.length o' rest :: st, none⟩ := by
  have hframes : ∀ t, ((({ w with hostDepth := w.hostDepth + 1 } : World H).enterNonYieldable
      w.current).thread t).frames = (w.thread t).frames := fun t =>
    World.keep_modifyThread (w := { w with hostDepth := w.hostDepth + 1 }) Thread.frames t
  exact (h.congr (fun t _ => hframes t) (fun _ => .inl rfl)).raise (b := .call _ _ o' rest)
    fun _ => (congrArg List.length (hframes _)).symm

/-- The owner of the active code begins to wait for a coroutine. -/
theorem resume {o' : Owner} (h : Inside w₀ s o above ⟨w, st, some o'⟩)
    (hch : Chained ⟨w, st, some o'⟩) {t : ThreadId} {entered : World H}
    (he : w.enterCoroutine t = .ok entered)
    (rest : Except ResumeError (List Value) → Program H (o'.Result H)) :
    Inside w₀ s o (.resume t w.current o' rest :: above)
      ⟨entered.dropBody t, .resume t w.current o' rest :: st, none⟩ := by
  obtain ⟨ht, rfl⟩ := hch.entered_of_ok he
  have hframes : ∀ u, (((w.entered t).dropBody t).thread u).frames = (w.thread u).frames := by
    intro u
    have hdrop : (((w.entered t).dropBody t).thread u).frames = ((w.entered t).thread u).frames :=
      World.keep_modifyThread Thread.frames u
    rw [hdrop]
    exact World.keep_entered Thread.frames u
  refine (h.congr (fun u _ => hframes u) (fun _ => .inl rfl)).raise
    (b := .resume t w.current o' rest) fun hm => ?_
  have hin : t ∈ chain st := by
    rw [show st = above ++ s from h.stack]
    exact mem_chain_append hm
  exact absurd ht (hch.status_ne_dead hin).2

/-- The frames of the driven thread change above those that were there. -/
theorem changeFrames (h : Inside w₀ s o (b :: above) ⟨w, st, a⟩)
    (f : List (Frame H) → List (Frame H))
    (hf : b.thread ∈ chain s → (w₀.thread b.thread).frames <:+ f (w.thread b.thread).frames) :
    Inside w₀ s o (b :: above)
      ⟨w.modifyThread b.thread fun x => { x with frames := f x.frames }, st, a'⟩ where
  stack := h.stack
  suffix t ht := by
    by_cases htb : t = b.thread
    · subst htb
      by_cases hh : w.Has b.thread
      · show _ <:+ ((w.modifyThread b.thread _).thread b.thread).frames
        rw [World.thread_modifyThread hh, if_pos rfl]
        exact hf ht
      · show _ <:+ ((w.modifyThread b.thread _).thread b.thread).frames
        rw [World.modifyThread_of_not_has hh]
        exact h.suffix _ ht
    · show _ <:+ ((w.modifyThread b.thread _).thread t).frames
      rw [World.thread_modifyThread_ne htb]
      exact h.suffix t ht
  still t ht hn := by
    have htb : t ≠ b.thread := (hn b List.mem_cons_self).symm
    show ((w.modifyThread b.thread _).thread t).frames = _
    rw [World.thread_modifyThread_ne htb]
    exact h.still t ht hn
  floor := h.floor
  ground := h.ground
  home he := absurd he (List.cons_ne_nil _ _)

/-- The topmost boundary falls when its thread is down to the base. -/
theorem lower (h : Inside w₀ s o (b :: above) ⟨w, b :: st, a⟩)
    (hl : b.thread ∈ chain s → b.thread = driven (above ++ s))
    (hb : b.thread ∈ chain s → (w.thread b.thread).frames.length ≤ b.base) :
    Inside w₀ s o above ⟨w, st, some b.owner⟩ where
  stack := (List.cons.inj h.stack).2
  suffix := h.suffix
  still t ht hn := by
    by_cases htb : b.thread = t
    · subst htb
      cases above with
      | cons c above => exact absurd (hl ht).symm (hn c List.mem_cons_self)
      -- Its base is no higher than the frames that were there, and they are all below.
      | nil =>
        have hle : (w.thread b.thread).frames.length ≤ (w₀.thread b.thread).frames.length :=
          (hb ht).trans ((h.ground b rfl).2 ht)
        exact ((h.suffix _ ht).eq_of_length_le hle).symm
    · refine h.still t ht fun b' hb' => ?_
      rcases List.mem_cons.mp hb' with rfl | hb'
      · exact htb
      · exact hn b' hb'
  floor b' hb' := h.floor b' (List.mem_cons_of_mem b hb')
  ground b' hb' := by
    cases above with
    | nil => exact absurd hb' (by simp)
    | cons c above => exact h.ground b' (by rwa [List.getLast?_cons_cons])
  home he := by
    subst he
    exact .inl (congrArg some (h.ground b rfl).1)

theorem above_ne_nil (hw : above ≠ [] ∨ ∃ name, a = some (.native name))
    (ha : ∀ name, a ≠ some (.native name)) : ∃ b above', above = b :: above' := by
  rcases hw with hw | ⟨name, hw⟩
  · exact List.exists_cons_of_ne_nil hw
  · exact absurd hw (ha name)

/-- Elementary changes keep the code inside, until it comes to the end of a native function. -/
theorem change {x y : Situation H} {es : List (ThreadId × LifeEvent)} (hc : Change x es y)
    (hx : Consistent x) (h : Inside w₀ s o above x)
    (hw : above ≠ [] ∨ ∃ name, x.active = some (.native name)) :
    ∃ above', Inside w₀ s o above' y ∧
      (above' = [] → y.active = none →
        y.stack = x.stack ∧ ∃ name, x.active = some (.native name)) := by
  have hin : ∀ {t : ThreadId}, t ∈ chain s → t ∈ chain x.stack := by
    intro t ht
    rw [h.stack]
    exact mem_chain_append ht
  cases hc with
  | memory | define =>
    exact ⟨above, h.congr (fun _ _ => rfl) (fun _ => .inl rfl), fun _ ha => absurd ha (by simp)⟩
  | @create w st o' f =>
    refine ⟨above, h.congr (fun t ht => ?_) (fun _ => .inl rfl), fun _ ha => absurd ha (by simp)⟩
    -- The new thread is not in the chain, and neither is one that can be closed.
    have hne : t ≠ ⟨w.threads.size⟩ := by
      rintro rfl
      exact absurd (hx.chained.has (hin ht)) (Nat.lt_irrefl _)
    rw [World.thread_push, if_neg hne]
  | @close w st o' t hs =>
    refine ⟨above, h.congr (fun u hu => ?_) (fun _ => .inl rfl), fun _ ha => absurd ha (by simp)⟩
    have hne : u ≠ t := fun he => (hx.chained.status_ne_dead (hin hu)).2 (by rw [he, hs])
    rw [World.closed, World.thread_modifyThread_ne hne]
  | @closeDead w st o' t hs =>
    refine ⟨above, h.congr (fun u hu => ?_) (fun _ => .inl rfl), fun _ ha => absurd ha (by simp)⟩
    have hne : u ≠ t := fun he => (hx.chained.status_ne_dead (hin hu)).1 (by rw [he, hs])
    rw [World.closed, World.thread_modifyThread_ne hne]
  | call _ rest => exact ⟨_, h.call rest, fun he => absurd he (List.cons_ne_nil _ _)⟩
  | resume t he rest =>
    exact ⟨_, h.resume hx.chained he rest, fun he => absurd he (List.cons_ne_nil _ _)⟩
  | native name hd hh =>
    obtain ⟨b, above, rfl⟩ := above_ne_nil hw (by simp)
    exact ⟨b :: above, h.congr (fun _ _ => World.keep_modifyThread Thread.frames _)
      (fun he => absurd he (List.cons_ne_nil _ _)), fun he => absurd he (List.cons_ne_nil _ _)⟩
  | @sequence w st f hd =>
    obtain ⟨b, above, rfl⟩ := above_ne_nil hw (by simp)
    obtain rfl : st = b :: (above ++ s) := h.stack
    exact ⟨b :: above, h.changeFrames (f :: ·)
      (fun ht => (h.suffix _ ht).trans (List.suffix_cons _ _)),
      fun he => absurd he (List.cons_ne_nil _ _)⟩
  | @leaveNative w st name =>
    refine ⟨above, ?_, fun _ _ => ⟨rfl, name, rfl⟩⟩
    exact h.congr (fun _ _ => World.keep_modifyThread Thread.frames _) fun _ => .inr rfl
  | @poll w st c f below hf hb =>
    obtain ⟨b, above, rfl⟩ := above_ne_nil hw (by simp)
    obtain ⟨rfl, rfl⟩ := List.cons.inj h.stack
    refine ⟨c :: above, h.changeFrames (fun _ => below) (fun ht => ?_),
      fun he => absurd he (List.cons_ne_nil _ _)⟩
    -- A boundary does not reach below the frames that were there, so `f` is not one of them.
    have hsuf : (w₀.thread c.thread).frames <:+ f :: below := hf ▸ h.suffix _ ht
    have hle := (h.floor c List.mem_cons_self ht).trans hb
    rcases List.suffix_cons_iff.mp hsuf with he | hs
    · rw [he, List.length_cons] at hle
      exact absurd hle (by omega)
    · exact hs
  | @wait w st name next =>
    obtain ⟨b, above, rfl⟩ := above_ne_nil hw (by simp)
    obtain rfl : st = b :: (above ++ s) := h.stack
    exact ⟨b :: above, h.changeFrames (⟨name, next⟩ :: ·)
      (fun ht => (h.suffix _ ht).trans (List.suffix_cons _ _)),
      fun he => absurd he (List.cons_ne_nil _ _)⟩
  | leavePoll name =>
    obtain ⟨b, above, rfl⟩ := above_ne_nil hw (by simp)
    exact ⟨b :: above, h.congr (fun _ _ => rfl) (fun he => absurd he (List.cons_ne_nil _ _)),
      fun he => absurd he (List.cons_ne_nil _ _)⟩
  | @endCall w st t base o' rest hf =>
    obtain ⟨b, above, rfl⟩ := above_ne_nil hw (by simp)
    obtain ⟨rfl, rfl⟩ := List.cons.inj h.stack
    refine ⟨above, ?_, fun _ ha => absurd ha (by simp)⟩
    have hlow := h.lower (fun _ => hx.chained.linked.1) (fun _ => hf)
    exact hlow.congr (fun _ _ => World.keep_modifyThread Thread.frames _) fun _ => .inl rfl
  | @endResume w st t c o' rest input hf =>
    obtain ⟨b, above, rfl⟩ := above_ne_nil hw (by simp)
    obtain ⟨rfl, rfl⟩ := List.cons.inj h.stack
    refine ⟨above, ?_, fun _ ha => absurd ha (by simp)⟩
    -- The coroutine was resumed from outside the chain, so its frames do not matter.
    have hout : t ∉ chain s := fun hm => hx.chained.linked.2.1 (mem_chain_append hm)
    have hlow := h.lower (fun hm => absurd hm hout) (fun hm => absurd hm hout)
    refine hlow.congr (fun u hu => ?_) fun _ => .inl rfl
    rw [World.leaveCoroutine_eq hx.chained.ends.1 hx.chained.ends.2,
      World.thread_left_frames hx.chained.ends.1 hx.chained.ends.2,
      if_neg (ne_of_mem_of_not_mem hu hout)]
  | @yield w st t c o' rest name vs next hy =>
    obtain ⟨b, above, rfl⟩ := above_ne_nil hw (by simp)
    obtain ⟨rfl, rfl⟩ := List.cons.inj h.stack
    refine ⟨above, ?_, fun _ ha => absurd ha (by simp)⟩
    have hout : t ∉ chain s := fun hm => hx.chained.linked.2.1 (mem_chain_append hm)
    have hpush := hx.chained.pushFrame t ⟨name, next⟩
    have hlow := h.lower (fun hm => absurd hm hout) (fun hm => absurd hm hout)
    refine hlow.congr (fun u hu => ?_) fun _ => .inl rfl
    have hut : u ≠ t := ne_of_mem_of_not_mem hu hout
    rw [World.leaveCoroutine_eq hpush.ends.1 hpush.ends.2,
      World.thread_left_frames hpush.ends.1 hpush.ends.2, if_neg hut]
    exact congrArg Thread.frames (World.thread_modifyThread_ne hut _)
  | escape name next hy => exact absurd hy hx.counted.not_escape

theorem changes {x y : Situation H} {es : List (ThreadId × LifeEvent)} (hc : Changes x es y)
    (hx : Consistent x) (h : Inside w₀ s o above x)
    (hw : above ≠ [] ∨ ∃ name, x.active = some (.native name)) :
    ∃ above', Inside w₀ s o above' y := by
  cases hc with
  | nil => exact ⟨above, h⟩
  | one hc =>
    obtain ⟨above', h', -⟩ := h.change hc hx hw
    exact ⟨above', h'⟩
  | two hc ha hn hc' =>
    obtain ⟨above', h', hend⟩ := h.change hc hx hw
    -- Between the two changes no host code is active, so there is a boundary to be behind.
    have hne : above' ≠ [] := by
      intro he
      obtain ⟨hst, name, hname⟩ := hend he ha
      exact hn hst name hname
    obtain ⟨above'', h'', -⟩ := h'.change hc' (hx.change hc) (.inl hne)
    exact ⟨above'', h''⟩

end Inside

/-! ### Waits -/

namespace Machine

variable {B : Behaviour H} {m m' last : Machine H} {w₀ : World H} {s above : List (Boundary H)}
  {o : Owner}

theorem Until.consistent {P : Machine H → Prop} (hu : Until B P m last m')
    (hm : Consistent m.situation) : Consistent m'.situation :=
  (hu.keep (Q := fun x => Consistent x.situation) hm fun ha hs _ => ha.step hs).step hu.step_last

theorem Until.inside {P : Machine H → Prop} (hu : Until B P m last m')
    (hm : Consistent m.situation) (hi : Inside w₀ s o above m.situation)
    (hw : above ≠ [] ∨ ∃ name, m.control.active = some (.native name))
    (hP : ∀ {x : Machine H} {above'}, Inside w₀ s o above' x.situation → ¬ P x →
      above' ≠ [] ∨ ∃ name, x.control.active = some (.native name)) :
    ∃ above', Inside w₀ s o above' m'.situation := by
  induction hu generalizing above with
  | now hs _ => exact hi.changes (step_changes hs) hm hw
  | later hs hn _ ih =>
    obtain ⟨above', hi'⟩ := hi.changes (step_changes hs) hm hw
    exact ih (hm.step hs) hi' (hP hi' hn)

/-- Code that is back at the boundaries it began with hands back. -/
theorem handedBack_of_inside {a : Option Owner} (hm : Consistent ⟨w₀, s, a⟩)
    (hm' : Consistent m'.situation) (hi : Inside w₀ s o above m'.situation) (hs : m'.stack = s)
    (ha : m'.control.active = a) : w₀.HandedBack m'.world := by
  have hnil : above = [] := List.append_left_eq_self.mp (hi.stack.symm.trans hs)
  subst hnil hs ha
  exact hm.handedBack hm' fun t ht => hi.still t ht fun _ hb => absurd hb (by simp)

/-- A host call that was not refused waits behind its boundary. -/
theorem step_call {m₁ : Machine H} (hm : Reachable B m) {callee : Value} {args : List Value}
    {rest : Except TracedError (List Value) → Program H (o.Result H)}
    (hc : m.control = .host o (.call callee args rest)) (hs : m.step B = some m₁) :
    (∃ r, m₁ = ⟨m.world, m.stack, .host o (rest r)⟩) ∨
      ∃ t base, m₁.stack = .call t base o rest :: m.stack ∧
        Inside m.world m.stack o [.call t base o rest] m₁.situation := by
  obtain ⟨w, s, control⟩ := m
  obtain rfl : control = .host o (.call callee args rest) := hc
  obtain rfl : beginCall B w s o callee args rest = m₁ := Option.some.inj hs
  rw [beginCall_eq]
  by_cases hh : w.limits.maxHostDepth ≤ w.hostDepth
  · rw [if_pos hh]
    exact .inl ⟨_, rfl⟩
  · rw [if_neg hh]
    refine .inr ⟨w.current, _, rfl, ?_⟩
    have hx : Consistent ⟨w, s, some o⟩ := hm.consistent
    have hcall := Change.call (s := s) (Nat.lt_of_not_le hh) rest
    have hi := (Inside.refl w s o (.inl rfl)).call rest
    rcases World.invoke_change B _ (.call w.current _ o rest :: s) callee args with he | hc
    · rw [he] at hi
      exact hi
    · obtain ⟨above, hi', -⟩ := hi.change hc (hx.change hcall) (.inl (by simp))
      have habove : above = [_] := List.append_left_inj s |>.mp hi'.stack.symm
      exact habove ▸ hi'

/-- A resume that was not refused waits behind its boundary. -/
theorem step_resume_of_consistent {m₁ : Machine H} (hm : Consistent m.situation) {t : ThreadId}
    {args : List Value} {rest : Except ResumeError (List Value) → Program H (o.Result H)}
    (hc : m.control = .host o (.resume t args rest)) (hs : m.step B = some m₁) :
    (∃ e, m.world.enterCoroutine t = .error e ∧
      m₁ = ⟨m.world, m.stack, .host o (rest (.error (.refused e)))⟩) ∨
      ∃ c, m₁.stack = .resume t c o rest :: m.stack ∧
        Inside m.world m.stack o [.resume t c o rest] m₁.situation := by
  obtain ⟨w, s, control⟩ := m
  obtain rfl : control = .host o (.resume t args rest) := hc
  obtain rfl : beginResume B w s o t args rest = m₁ := Option.some.inj hs
  have hx : Consistent ⟨w, s, some o⟩ := hm
  rw [beginResume]
  cases he : w.enterCoroutine t with
  | error e => exact .inl ⟨e, rfl, rfl⟩
  | ok entered =>
    right
    have hresume := Change.resume (s := s) (o := o) t he rest
    have hi := (Inside.refl w s o (.inl rfl)).resume hx.chained he rest
    simp only
    cases hb : (entered.thread t).body with
    | some body =>
      refine ⟨w.current, rfl, ?_⟩
      rcases World.invoke_change B _ (.resume t w.current o rest :: s) body args with he | hc
      · rw [he] at hi
        exact hi
      · obtain ⟨above, hi', -⟩ := hi.change hc (hx.change hresume) (.inl (by simp))
        have habove : above = [_] := List.append_left_inj s |>.mp hi'.stack.symm
        exact habove ▸ hi'
    | none =>
      rw [World.dropBody, World.modifyThread_eq_self (by rw [← hb])] at hi
      exact ⟨w.current, rfl, hi⟩

theorem step_resume {m₁ : Machine H} (hm : Reachable B m) {t : ThreadId} {args : List Value}
    {rest : Except ResumeError (List Value) → Program H (o.Result H)}
    (hc : m.control = .host o (.resume t args rest)) (hs : m.step B = some m₁) :
    (∃ e, m.world.enterCoroutine t = .error e ∧
      m₁ = ⟨m.world, m.stack, .host o (rest (.error (.refused e)))⟩) ∨
      ∃ c, m₁.stack = .resume t c o rest :: m.stack ∧
        Inside m.world m.stack o [.resume t c o rest] m₁.situation :=
  step_resume_of_consistent hm.consistent hc hs

/-- A wait ends with the fall of its boundary, and control is handed back. -/
theorem Until.handedBack_of_consistent {m₁ : Machine H} {b : Boundary H}
    (hu : Until B (fun x => x.stack = m.stack) m last m') (hm : Consistent m.situation)
    (ho : m.control.active = some b.owner) (hs : m.step B = some m₁)
    (h₁ : m₁.stack = b :: m.stack) (hi : Inside m.world m.stack b.owner [b] m₁.situation) :
    (∃ w oc, Machine.fall w oc (b :: m.stack) = some m') ∧ m.world.HandedBack m'.world := by
  have hm₁ := hm.step hs
  have hn : m₁.stack ≠ m.stack := by
    rw [h₁]
    exact List.cons_ne_self _ _
  replace hu := hu.of_step hs hn
  -- From here on there is a boundary to be behind, up to its fall.
  obtain ⟨w, oc, -, -, hf⟩ := hu.fall h₁
  obtain ⟨above, hi'⟩ := hu.inside hm₁ hi (.inl (by simp)) fun {x above'} hx hp => by
    refine .inl fun he => hp ?_
    rw [show x.stack = above' ++ m.stack from hx.stack, he]
    rfl
  have hcons : Consistent ⟨m.world, m.stack, some b.owner⟩ := ho ▸ hm
  exact ⟨⟨w, oc, hf⟩, handedBack_of_inside hcons (hu.consistent hm₁) hi' hu.holds
    (fall_situation hf).2⟩

theorem Until.handedBack {m₁ : Machine H} {b : Boundary H}
    (hu : Until B (fun x => x.stack = m.stack) m last m') (hm : Reachable B m)
    (ho : m.control.active = some b.owner) (hs : m.step B = some m₁)
    (h₁ : m₁.stack = b :: m.stack) (hi : Inside m.world m.stack b.owner [b] m₁.situation) :
    (∃ w oc, Machine.fall w oc (b :: m.stack) = some m') ∧ m.world.HandedBack m'.world :=
  hu.handedBack_of_consistent hm.consistent ho hs h₁ hi

/-! ### Main result -/

/-- The call or resume that the active code of `m` asks for is answered in `m'`: there the
boundaries are those of `m` for the first time again. -/
def Answered (B : Behaviour H) (m m' : Machine H) : Prop :=
  ∃ last, Until B (fun x => x.stack = m.stack) m last m'

/-- The function that has just been called in `m` is left in `m'`: there the frames behind the
boundaries of `m` are driven for the first time again. -/
def Left (B : Behaviour H) (m m' : Machine H) : Prop :=
  m.control.active = none ∧ m' = m ∨ m.control.active ≠ none ∧
    ∃ last, Until B (fun x => x.stack = m.stack ∧ x.control.active = none) m last m'

/-- **Native functions** hand back, also when they are refused. -/
theorem Left.handedBack (hl : Left B m m') (hm : Reachable B m) {w : World H} {callee : Value}
    {args args' : List Value} {f : Function} {p : Program H (List Value)}
    (hcall : w.memory.heap.prepareCall callee args = .ok (f, args'))
    (hf : B.enter w f args' = .native p)
    (hm₁ : (m.world, m.control) = w.invoke B (driven m.stack) callee args) :
    w.HandedBack m'.world := by
  have hrefused : ∀ e, (m.world, m.control) = (w, .drive e) → w.HandedBack m'.world := by
    intro e he
    obtain ⟨hw, hc⟩ := Prod.mk.inj he
    rcases hl with ⟨-, rfl⟩ | ⟨ha, -⟩
    · rw [hw]
      exact .refl w
    · rw [hc] at ha
      exact absurd rfl ha
  rw [World.invoke, hcall] at hm₁
  simp only at hm₁
  by_cases hd : w.limits.maxCallDepth ≤ (w.thread (driven m.stack)).callDepth
  · rw [if_pos hd] at hm₁
    exact hrefused _ hm₁
  · rw [if_neg hd, hf] at hm₁
    by_cases hh : w.limits.maxHostDepth ≤ w.hostDepth
    · simp only [World.enterHost, if_pos hh] at hm₁
      exact hrefused _ hm₁
    · simp only [World.enterHost, if_neg hh] at hm₁
      obtain ⟨hw, hc⟩ := Prod.mk.inj hm₁
      have hw' : m.world = w.inNative (driven m.stack) := hw
      have ha : m.control.active = some (.native (w.nameOf f)) := by
        rw [hc]
        rfl
      have hentered : Consistent ⟨m.world, m.stack, some (.native (w.nameOf f))⟩ :=
        ha ▸ hm.consistent
      have hbefore : Consistent ⟨w, m.stack, none⟩ := by
        have hleft := hentered.change (.leaveNative _)
        rw [hw', World.leave_inNative] at hleft
        exact hleft
      have hi : Inside w m.stack (.native (w.nameOf f)) [] m.situation := by
        refine (Inside.refl w m.stack _ (.inl rfl)).congr (fun t _ => ?_) fun _ => .inl ha
        rw [hw]
        exact World.keep_modifyThread (w := { w with hostDepth := w.hostDepth + 1 })
          Thread.frames t
      rcases hl with ⟨hn, -⟩ | ⟨-, last, hu⟩
      · exact absurd (hn.symm.trans ha) (by simp)
      · have hcons : Consistent m.situation := hm.consistent
        obtain ⟨above, hi'⟩ := hu.inside hcons hi (.inr ⟨_, ha⟩) fun {x above'} hx hp => by
          -- With no boundary above, host code that is active is the native function itself.
          by_cases he : above' = []
          · rcases hx.home he with hact | hact
            · exact .inr ⟨_, hact⟩
            · refine absurd ⟨?_, hact⟩ hp
              rw [show x.stack = above' ++ m.stack from hx.stack, he]
              rfl
          · exact .inl he
        exact handedBack_of_inside hbefore (hu.consistent hcons) hi' hu.holds.1 hu.holds.2

/-- **Control is handed back exactly**, by host calls and resumes, which their owner's code
survives, and by native functions.  A coroutine that is dead then has no frames. -/
theorem Reachable.handed_back (hm : Reachable B m) :
    (∀ {o callee args rest}, m.control = .host o (.call callee args rest) →
      ∀ m', Answered B m m' →
        (∃ r, m'.control = .host o (rest r)) ∧ m.world.HandedBack m'.world) ∧
    (∀ {o t args rest}, m.control = .host o (.resume t args rest) →
      ∀ m', Answered B m m' →
        (∃ r, m'.control = .host o (rest r)) ∧ m.world.HandedBack m'.world ∧
          ((m'.world.thread t).status = .dead → (m'.world.thread t).frames = [])) ∧
    (∀ {w callee args f args' p}, w.memory.heap.prepareCall callee args = .ok (f, args') →
      B.enter w f args' = .native p →
      (m.world, m.control) = w.invoke B (driven m.stack) callee args →
      ∀ m', Left B m m' → w.HandedBack m'.world) := by
  refine ⟨fun {o callee args rest} hc m' ⟨last, hu⟩ => ?_,
    fun {o t args rest} hc m' ⟨last, hu⟩ => ?_,
    fun hcall hf hm₁ m' hl => hl.handedBack hm hcall hf hm₁⟩
  · obtain ⟨m₁, hs⟩ := hu.step_first
    rcases step_call hm hc hs with ⟨r, h₁⟩ | ⟨t, base, h₁, hi⟩
    · obtain ⟨rfl, -⟩ := hu.eq_of_step hs (by rw [h₁])
      rw [h₁]
      exact ⟨⟨r, rfl⟩, .refl _⟩
    · obtain ⟨⟨w, oc, hf⟩, hb⟩ := hu.handedBack hm (by rw [hc]; rfl) hs h₁ hi
      cases hf
      exact ⟨⟨_, rfl⟩, hb⟩
  · have hdead : (m'.world.thread t).status = .dead → (m'.world.thread t).frames = [] :=
      fun hd => (((hu.reachable hm).shaped.shape t).dead hd).2
    obtain ⟨m₁, hs⟩ := hu.step_first
    rcases step_resume hm hc hs with ⟨e, -, h₁⟩ | ⟨c, h₁, hi⟩
    · obtain ⟨rfl, -⟩ := hu.eq_of_step hs (by rw [h₁])
      rw [h₁] at hdead ⊢
      exact ⟨⟨_, rfl⟩, .refl _, hdead⟩
    · obtain ⟨⟨w, oc, hf⟩, hb⟩ := hu.handedBack hm (by rw [hc]; rfl) hs h₁ hi
      cases hf
      exact ⟨⟨_, rfl⟩, hb, hdead⟩

/-- Resumes a coroutine that yields. -/
def resumeYield : Program H (List Value) :=
  .define (.sequence .yield) fun yield =>
  .create (.function yield) fun t =>
  match t with
  | .ok t => .resume t [.nil] fun _ => .done []
  | .error _ => .done []

/-- The state of `resumeYield` after a number of moves. -/
def resumeYieldAfter (n : Nat) : Machine .bare := (load .bare resumeYield).run .bare n

/-- Three moves answer a resume of a coroutine that yields. -/
theorem handed_back_resumeYield :
    Reachable .bare (resumeYieldAfter 2) ∧
      Answered .bare (resumeYieldAfter 2) (resumeYieldAfter 5) ∧
      (resumeYieldAfter 2).world.HandedBack (resumeYieldAfter 5).world := by
  have hm : Reachable .bare (resumeYieldAfter 2) := reachable_bare _ 2
  have ha : Answered .bare (resumeYieldAfter 2) (resumeYieldAfter 5) :=
    ⟨resumeYieldAfter 4, .later (show _ = some (resumeYieldAfter 3) from rfl)
      (List.cons_ne_nil _ _) (.later (show _ = some (resumeYieldAfter 4) from rfl)
        (List.cons_ne_nil _ _) (.now rfl rfl))⟩
  exact ⟨hm, ha, ((Reachable.handed_back hm).2.1 rfl _ ha).2.1⟩

end Machine

end Lua
