/-
The chain of resumes.

The main thread and the coroutines that were resumed and have not given control back form a
chain, each resumed by the one before.  The boundaries of the machine, the list of running
coroutines, the statuses of the threads and the links to their resumers all describe it:

* `Chained` — the four descriptions agree;
* `Machine.Reachable.chained` — they do at every point of every run;
* `Machine.Reachable.resume_chain` — what this says of the world alone, with the thread in
  control as the only one that runs and no cycle among the resumers.

Design notes: inside the proofs the chain is kept with the innermost thread first, as the
boundaries and `World.running` are; `World.chain` is the same chain from the main thread on.
-/
import Lua.Proofs.Run
import Mathlib.Data.List.Chain
import Mathlib.Data.List.Nodup
import Mathlib.Logic.Relation

namespace Lua

variable {H : Host}

namespace Machine

/-! ### The chain behind the boundaries -/

/-- The coroutines that were resumed, innermost first. -/
def resumed : List (Boundary H) → List ThreadId
  | [] => []
  | .call _ _ _ _ :: s => resumed s
  | .resume t _ _ _ :: s => t :: resumed s

/-- The resumed coroutines and the main thread, innermost first. -/
def chain (s : List (Boundary H)) : List ThreadId := resumed s ++ [.main]

/-- Every call is driven on the thread in control, which also is the caller of every resume; a
coroutine is resumed only from outside the chain. -/
def Linked : List (Boundary H) → Prop
  | [] => True
  | .call t _ _ _ :: s => t = driven s ∧ Linked s
  | .resume t caller _ _ :: s => caller = driven s ∧ t ∉ chain s ∧ Linked s

theorem driven_eq_headD {s : List (Boundary H)} (h : Linked s) :
    driven s = (resumed s).headD .main := by
  induction s with
  | nil => rfl
  | cons b s ih =>
    cases b with
    | call t base o rest =>
      show t = _
      rw [h.1, ih h.2]
      rfl
    | resume t c o rest => rfl

theorem head?_chain {s : List (Boundary H)} (h : Linked s) :
    (chain s).head? = some (driven s) := by
  rw [driven_eq_headD h, chain]
  cases resumed s <;> rfl

theorem driven_mem_chain {s : List (Boundary H)} (h : Linked s) : driven s ∈ chain s :=
  List.mem_of_head? (head?_chain h)

theorem nodup_chain {s : List (Boundary H)} (h : Linked s) : (chain s).Nodup := by
  induction s with
  | nil => exact List.nodup_cons.mpr ⟨List.not_mem_nil, List.nodup_nil⟩
  | cons b s ih =>
    cases b with
    | call t base o rest => exact ih h.2
    | resume t c o rest => exact List.nodup_cons.mpr ⟨h.2.1, ih h.2.2⟩

/-- The thread that follows another one in a chain, its resumer. -/
def resumerIn : List ThreadId → ThreadId → Option ThreadId
  | [], _ => none
  | t :: rest, u => if u = t then rest.head? else resumerIn rest u

theorem resumerIn_of_not_mem {l : List ThreadId} {t : ThreadId} (h : t ∉ l) :
    resumerIn l t = none := by
  induction l with
  | nil => rfl
  | cons u l ih =>
    have hne : t ≠ u := List.ne_of_not_mem_cons h
    rw [resumerIn, if_neg hne, ih (List.not_mem_of_not_mem_cons h)]

/-- In a chain every thread is linked to the next one. -/
theorem isChain_resumerIn {l : List ThreadId} (h : l.Nodup) :
    l.IsChain fun a b => resumerIn l a = some b := by
  induction l with
  | nil => exact .nil
  | cons t l ih =>
    obtain ⟨hout, hl⟩ := List.nodup_cons.mp h
    cases l with
    | nil => exact .singleton t
    | cons u l =>
      refine .cons_cons (by rw [resumerIn, if_pos rfl]; rfl) ?_
      refine (ih hl).imp_of_mem_imp fun a b ha _ hab => ?_
      rw [resumerIn, if_neg (ne_of_mem_of_not_mem ha hout), hab]

theorem mem_tail_of_resumerIn {l : List ThreadId} {a b : ThreadId}
    (h : resumerIn l a = some b) : b ∈ l.tail := by
  induction l with
  | nil => exact absurd h (by simp [resumerIn])
  | cons t l ih =>
    rw [resumerIn] at h
    by_cases ha : a = t
    · rw [if_pos ha] at h
      exact List.mem_of_head? h
    · rw [if_neg ha] at h
      exact List.mem_of_mem_tail (ih h)

theorem resumerIn_last {l : List ThreadId} {a : ThreadId} (h : (l ++ [a]).Nodup) :
    resumerIn (l ++ [a]) a = none := by
  induction l with
  | nil => exact if_pos rfl
  | cons t l ih =>
    obtain ⟨hout, hl⟩ := List.nodup_cons.mp h
    have hne : a ≠ t := ne_of_mem_of_not_mem (List.mem_append_right l List.mem_cons_self) hout
    rw [List.cons_append, resumerIn, if_neg hne, ih hl]

/-- A link leads further down the chain. -/
theorem idxOf_lt_of_resumerIn {l : List ThreadId} (hl : l.Nodup) {a b : ThreadId}
    (h : resumerIn l a = some b) : l.idxOf a < l.idxOf b := by
  induction l with
  | nil => exact absurd h (by simp [resumerIn])
  | cons t l ih =>
    obtain ⟨hout, hl⟩ := List.nodup_cons.mp hl
    have hb : t ≠ b := (ne_of_mem_of_not_mem (mem_tail_of_resumerIn h) hout).symm
    rw [List.idxOf_cons_ne l hb]
    by_cases ha : a = t
    · rw [ha, List.idxOf_cons_self]
      exact Nat.succ_pos _
    · rw [resumerIn, if_neg ha] at h
      rw [List.idxOf_cons_ne l (Ne.symm ha)]
      exact Nat.succ_lt_succ (ih hl h)

end Machine

open Machine

/-- The threads that wait for the one in control and that thread itself, the main thread
first. -/
def World.chain (w : World H) : List ThreadId := .main :: w.running.reverse

/-! ### Agreement -/

/-- The world describes the chain of the boundaries. -/
structure Chained (x : Situation H) : Prop where
  linked : Linked x.stack
  running : x.world.running = resumed x.stack
  top : (x.world.thread (driven x.stack)).status = .running
  waiting : ∀ t ∈ chain x.stack, t ≠ driven x.stack → (x.world.thread t).status = .normal
  outside : ∀ t, t ∉ chain x.stack →
    (x.world.thread t).status = .suspended ∨ (x.world.thread t).status = .dead
  resumer : ∀ t, (x.world.thread t).resumer = resumerIn (chain x.stack) t

namespace Chained

variable {w w' : World H} {s : List (Boundary H)} {a a' : Option Owner}

theorem fresh (hw : w.IsFresh) : Chained ⟨w, [], a⟩ := by
  have hmain : w.thread (driven ([] : List (Boundary H))) = .fresh .running none :=
    hw.thread_main
  refine ⟨trivial, hw.running, by rw [hmain]; rfl, ?_, ?_, ?_⟩
  · intro t ht hne
    exact absurd (List.mem_singleton.mp ht) hne
  · intro t ht
    right
    show (w.thread t).status = .dead
    rw [hw.thread_ne (fun e => ht (List.mem_singleton.mpr e))]
    rfl
  · intro t
    show (w.thread t).resumer = if t = .main then none else none
    by_cases ht : t = .main
    · rw [ht, hw.thread_main]
      rfl
    · rw [hw.thread_ne ht, if_neg ht]
      rfl

theorem current (h : Chained ⟨w, s, a⟩) : w.current = driven s := by
  rw [World.current, driven_eq_headD h.linked, show w.running = resumed s from h.running]

theorem chain_eq_reverse (h : Chained ⟨w, s, a⟩) : w.chain = (chain s).reverse := by
  rw [World.chain, show w.running = resumed s from h.running, chain, List.reverse_append]
  rfl

theorem mem_chain_iff (h : Chained ⟨w, s, a⟩) {t : ThreadId} : t ∈ w.chain ↔ t ∈ chain s := by
  rw [h.chain_eq_reverse, List.mem_reverse]

theorem status_ne_dead (h : Chained ⟨w, s, a⟩) {t : ThreadId} (ht : t ∈ chain s) :
    (w.thread t).status ≠ .dead ∧ (w.thread t).status ≠ .suspended := by
  by_cases hd : t = driven s
  · rw [hd, show (w.thread (driven s)).status = .running from h.top]
    decide
  · rw [show (w.thread t).status = .normal from h.waiting t ht hd]
    decide

theorem has (h : Chained ⟨w, s, a⟩) {t : ThreadId} (ht : t ∈ chain s) : w.Has t :=
  World.has_of_status (h.status_ne_dead ht).1

theorem has_driven (h : Chained ⟨w, s, a⟩) : w.Has (driven s) :=
  h.has (driven_mem_chain h.linked)

/-- Only the chain, the statuses and the links matter. -/
theorem congr (h : Chained ⟨w, s, a⟩) (hr : w'.running = w.running)
    (hs : ∀ t, (w'.thread t).status = (w.thread t).status)
    (hl : ∀ t, (w'.thread t).resumer = (w.thread t).resumer) : Chained ⟨w', s, a'⟩ where
  linked := h.linked
  running := hr.trans h.running
  top := (hs _).trans h.top
  waiting t ht hne := (hs t).trans (h.waiting t ht hne)
  outside t ht := by
    rw [show (World.thread _ t).status = _ from hs t]
    exact h.outside t ht
  resumer t := (hl t).trans (h.resumer t)

/-- A change of a thread that keeps its status and its link. -/
theorem modifyThread (h : Chained ⟨w, s, a⟩) (t : ThreadId) {f : Thread H → Thread H}
    (hs : ∀ x, (f x).status = x.status := by intro x; rfl)
    (hl : ∀ x, (f x).resumer = x.resumer := by intro x; rfl) :
    Chained ⟨w.modifyThread t f, s, a'⟩ :=
  h.congr rfl (fun _ => World.keep_modifyThread Thread.status _ hs)
    (fun _ => World.keep_modifyThread Thread.resumer _ hl)

theorem pushFrame (h : Chained ⟨w, s, a⟩) (t : ThreadId) (f : Frame H) :
    Chained ⟨w.pushFrame t f, s, none⟩ := h.modifyThread t

theorem create (h : Chained ⟨w, s, a⟩) (body : Option Value) :
    Chained ⟨{ w with threads := w.threads.push (.fresh .suspended body) }, s, a'⟩ := by
  have hnew : w.thread ⟨w.threads.size⟩ = .absent :=
    World.thread_of_not_has (Nat.lt_irrefl _)
  -- A thread that does not exist yet reads as dead, so it is not in the chain.
  have hout : (⟨w.threads.size⟩ : ThreadId) ∉ chain s := fun hm =>
    (h.status_ne_dead hm).1 (by rw [hnew]; rfl)
  have hin : ∀ t ∈ chain s, World.thread { w with
      threads := w.threads.push (.fresh .suspended body) } t = w.thread t := by
    intro t ht
    rw [World.thread_push, if_neg (ne_of_mem_of_not_mem ht hout)]
  refine ⟨h.linked, h.running, ?_, ?_, ?_, ?_⟩
  · show (World.thread _ (driven s)).status = _
    rw [hin _ (driven_mem_chain h.linked)]
    exact h.top
  · intro t ht hne
    show (World.thread _ t).status = _
    rw [hin t ht]
    exact h.waiting t ht hne
  · intro t ht
    show (World.thread _ t).status = _ ∨ (World.thread _ t).status = _
    rw [World.thread_push]
    by_cases hn : t = ⟨w.threads.size⟩
    · rw [if_pos hn]
      exact .inl rfl
    · rw [if_neg hn]
      exact h.outside t ht
  · intro t
    show (World.thread _ t).resumer = _
    rw [World.thread_push]
    by_cases hn : t = ⟨w.threads.size⟩
    · rw [if_pos hn, hn, show resumerIn (chain s) _ = none from resumerIn_of_not_mem hout]
      rfl
    · rw [if_neg hn]
      exact h.resumer t

theorem close (h : Chained ⟨w, s, a⟩) {t : ThreadId}
    (ht : (w.thread t).status = .suspended ∨ (w.thread t).status = .dead) :
    Chained ⟨w.closed t, s, a'⟩ := by
  -- The threads of the chain are running or normal.
  have hout : t ∉ chain s := fun hm => ht.elim (h.status_ne_dead hm).2 (h.status_ne_dead hm).1
  have hin : ∀ u ∈ chain s, (w.closed t).thread u = w.thread u := fun u hu =>
    World.thread_modifyThread_ne (ne_of_mem_of_not_mem hu hout) _
  refine ⟨h.linked, h.running, ?_, ?_, ?_, ?_⟩
  · show ((w.closed t).thread (driven s)).status = _
    rw [hin _ (driven_mem_chain h.linked)]
    exact h.top
  · intro u hu hne
    show ((w.closed t).thread u).status = _
    rw [hin u hu]
    exact h.waiting u hu hne
  · intro u hu
    by_cases hut : u = t
    · right
      by_cases hh : w.Has t
      · show ((w.closed t).thread u).status = _
        rw [World.closed, World.thread_modifyThread hh, if_pos hut]
      · show ((w.closed t).thread u).status = _
        rw [World.closed, World.modifyThread_of_not_has hh, hut, World.thread_of_not_has hh]
        rfl
    · show ((w.closed t).thread u).status = _ ∨ ((w.closed t).thread u).status = _
      rw [World.closed, World.thread_modifyThread_ne hut]
      exact h.outside u hu
  · intro u
    exact (World.keep_modifyThread Thread.resumer u).trans (h.resumer u)

theorem enter (h : Chained ⟨w, s, a⟩) {t : ThreadId} (ht : (w.thread t).status = .suspended)
    {o : Owner} {rest : Except ResumeError (List Value) → Program H (o.Result H)} :
    Chained ⟨w.entered t, .resume t w.current o rest :: s, a'⟩ := by
  have hc : (w.thread w.current).status = .running := by
    rw [h.current]
    exact h.top
  have hout : t ∉ chain s := fun hm => (h.status_ne_dead hm).2 ht
  have hlook := World.thread_entered hc ht
  refine ⟨⟨h.current, hout, h.linked⟩, ?_, ?_, ?_, ?_, ?_⟩
  · show t :: w.running = t :: resumed s
    rw [show w.running = resumed s from h.running]
  · show ((w.entered t).thread t).status = _
    rw [hlook, if_pos rfl]
  · intro u hu hne
    have hut : u ≠ t := hne
    have hus : u ∈ chain s := (List.mem_cons.mp hu).resolve_left hut
    show ((w.entered t).thread u).status = _
    rw [hlook, if_neg hut]
    by_cases huc : u = w.current
    · rw [if_pos huc]
    · rw [if_neg huc]
      exact h.waiting u hus (fun e => huc (e.trans h.current.symm))
  · intro u hu
    have hut : u ≠ t := fun e => hu (e ▸ List.mem_cons_self)
    have hus : u ∉ chain s := fun hm => hu (List.mem_cons_of_mem t hm)
    have huc : u ≠ w.current := fun e => hus (by
      rw [e, h.current]
      exact driven_mem_chain h.linked)
    show ((w.entered t).thread u).status = _ ∨ ((w.entered t).thread u).status = _
    rw [hlook, if_neg hut, if_neg huc]
    exact h.outside u hus
  · intro u
    show ((w.entered t).thread u).resumer = if u = t then (chain s).head? else _
    rw [hlook, head?_chain h.linked, ← h.current]
    by_cases hut : u = t
    · rw [if_pos hut, if_pos hut]
    · rw [if_neg hut, if_neg hut]
      by_cases huc : u = w.current
      · rw [if_pos huc, huc]
        exact h.resumer w.current
      · rw [if_neg huc]
        exact h.resumer u

section Leave

variable {t c : ThreadId} {o : Owner}
  {rest : Except ResumeError (List Value) → Program H (o.Result H)}

/-- The threads at the two ends of a resume. -/
theorem ends (h : Chained ⟨w, .resume t c o rest :: s, a⟩) :
    (w.thread c).status = .normal ∧ (w.thread t).status = .running := by
  obtain ⟨hc, hout, hl⟩ := h.linked
  have hmem : c ∈ chain s := by
    rw [hc]
    exact driven_mem_chain hl
  exact ⟨h.waiting c (List.mem_cons_of_mem t hmem) (ne_of_mem_of_not_mem hmem hout), h.top⟩

theorem leave (h : Chained ⟨w, .resume t c o rest :: s, a⟩) (oc : Outcome) :
    Chained ⟨w.left t c oc, s, a'⟩ := by
  obtain ⟨hcn, htr⟩ := h.ends
  obtain ⟨hc, hout, hl⟩ := h.linked
  have hlook := World.thread_left hcn htr oc
  -- The two threads of the resume change, and the caller is on top now.
  have hct : c ≠ t := (World.ne_of_status htr hcn (by decide)).symm
  refine ⟨hl, ?_, ?_, ?_, ?_, ?_⟩
  · show w.running.tail = resumed s
    rw [show w.running = t :: resumed s from h.running]
    rfl
  · show ((w.left t c oc).thread (driven s)).status = _
    rw [← hc, hlook, if_neg hct, if_pos rfl]
  · intro u hu hne
    have hut : u ≠ t := ne_of_mem_of_not_mem hu hout
    show ((w.left t c oc).thread u).status = _
    rw [hlook, if_neg hut, if_neg (fun e => hne (e.trans hc))]
    exact h.waiting u (List.mem_cons_of_mem t hu) hut
  · intro u hu
    show ((w.left t c oc).thread u).status = _ ∨ ((w.left t c oc).thread u).status = _
    rw [hlook]
    by_cases hut : u = t
    · rw [if_pos hut]
      cases oc with
      | yielded vs => exact .inl rfl
      | returned vs => exact .inr rfl
      | failed e => exact .inr rfl
    · have huc : u ≠ c := fun e => hu (by
        rw [e, hc]
        exact driven_mem_chain hl)
      rw [if_neg hut, if_neg huc]
      exact h.outside u (fun hm => hu ((List.mem_cons.mp hm).resolve_left hut))
  · intro u
    have hr : (w.thread u).resumer = if u = t then (chain s).head? else resumerIn (chain s) u :=
      h.resumer u
    show ((w.left t c oc).thread u).resumer = resumerIn (chain s) u
    rw [hlook]
    by_cases hut : u = t
    · rw [if_pos hut, hut, resumerIn_of_not_mem hout]
    · rw [if_neg hut] at hr ⊢
      by_cases huc : u = c
      · rw [if_pos huc, ← hr, huc]
      · rw [if_neg huc]
        exact hr

theorem leaveCoroutine (h : Chained ⟨w, .resume t c o rest :: s, a⟩) (oc : Outcome) :
    Chained ⟨(w.leaveCoroutine t c oc).1, s, a'⟩ := by
  rw [World.leaveCoroutine_eq h.ends.1 h.ends.2]
  exact h.leave oc

end Leave

theorem leaveCall {t : ThreadId} {base : Nat} {o : Owner}
    {rest : Except TracedError (List Value) → Program H (o.Result H)}
    (h : Chained ⟨w, .call t base o rest :: s, a⟩) : Chained ⟨w.leaveCall t, s, a'⟩ := by
  obtain ⟨ht, hl⟩ := h.linked
  have hlower : Chained ⟨w, s, a⟩ :=
    ⟨hl, h.running, ht ▸ h.top, fun u hu hne => h.waiting u hu (ht ▸ hne), h.outside, h.resumer⟩
  exact hlower.congr rfl (fun _ => World.keep_modifyThread Thread.status _)
    (fun _ => World.keep_modifyThread Thread.resumer _)

/-- What a resume found when it was accepted. -/
theorem entered_of_ok (h : Chained ⟨w, s, a⟩) {t : ThreadId} {entered : World H}
    (he : w.enterCoroutine t = .ok entered) :
    (w.thread t).status = .suspended ∧ entered = w.entered t := by
  have hc : (w.thread w.current).status = .running := by
    rw [h.current]
    exact h.top
  rw [World.enterCoroutine_eq hc] at he
  by_cases hs : (w.thread t).status = .suspended
  · refine ⟨hs, ?_⟩
    rw [if_neg (fun hn => hn hs)] at he
    by_cases hr : w.limits.maxResumeDepth ≤ w.running.length
    · rw [if_pos hr] at he
      exact absurd he (by simp)
    · rw [if_neg hr] at he
      by_cases hh : w.limits.maxHostDepth ≤ w.hostDepth
      · rw [if_pos hh] at he
        exact absurd he (by simp)
      · rw [if_neg hh] at he
        exact (Except.ok.inj he).symm
  · rw [if_pos hs] at he
    exact absurd he (by simp)

/-- Elementary changes keep the chain. -/
theorem change {x y : Situation H} {es : List (ThreadId × LifeEvent)} (hc : Change x es y)
    (h : Chained x) : Chained y := by
  cases hc with
  | memory m => exact h.congr rfl (fun _ => rfl) (fun _ => rfl)
  | define c => exact h.congr rfl (fun _ => rfl) (fun _ => rfl)
  | create f => exact h.create _
  | close t ht => exact h.close (.inl ht)
  | closeDead t ht => exact h.close (.inr ht)
  | @call w s o _ rest =>
    have hnew : Chained ⟨({ w with hostDepth := w.hostDepth + 1 } : World H), s, some o⟩ :=
      h.congr rfl (fun _ => rfl) (fun _ => rfl)
    have h' : Chained ⟨_, s, none⟩ := hnew.modifyThread w.current
      (f := fun x => { x with nonYieldable := x.nonYieldable + 1 })
    have hd := h.current
    exact ⟨⟨hd, h'.linked⟩, h'.running, hd ▸ h'.top,
      fun t ht hne => h'.waiting t ht (hd ▸ hne), h'.outside, h'.resumer⟩
  | resume t he rest =>
    obtain ⟨ht, rfl⟩ := h.entered_of_ok he
    exact (h.enter ht).modifyThread t (a := none)
  | @native w s name =>
    have hnew : Chained ⟨({ w with hostDepth := w.hostDepth + 1 } : World H), s, none⟩ :=
      h.congr rfl (fun _ => rfl) (fun _ => rfl)
    exact hnew.modifyThread _
  | sequence f hd => exact h.modifyThread _
  | @leaveNative w s name =>
    have h' : Chained ⟨_, s, none⟩ := h.modifyThread (driven s)
      (f := fun x => { x with nativeDepth := x.nativeDepth - 1 })
    exact h'.congr rfl (fun _ => rfl) (fun _ => rfl)
  | poll b f below hf hb => exact h.modifyThread _
  | wait name next => exact h.modifyThread _
  | leavePoll name => exact h.congr rfl (fun _ => rfl) (fun _ => rfl)
  | endCall hf => exact h.leaveCall
  | endResume input hf => exact h.leaveCoroutine _
  | yield name vs next hy => exact (h.pushFrame _ _).leaveCoroutine _
  | escape name next hy => exact (h.pushFrame _ _).leaveCall

end Chained

/-! ### The chain of a world -/

namespace Machine

variable {B : Behaviour H} {m : Machine H}

theorem Reachable.chained (hm : Reachable B m) : Chained m.situation := by
  obtain ⟨h, hr⟩ := hm
  exact hr.keep Chained.fresh Chained.change

/-- What the chain of resumes says of the threads of an instance. -/
structure ResumeChain (m : Machine H) : Prop where
  /-- No thread is twice in the chain. -/
  nodup : m.world.chain.Nodup
  /-- Every thread of the chain was created. -/
  created : ∀ t ∈ m.world.chain, m.world.Has t
  /-- The last thread of the chain is the one in control. -/
  last : m.world.chain.getLast? = some m.world.current
  /-- It is the thread whose frames are driven. -/
  driven : driven m.stack = m.world.current
  /-- It is running. -/
  running : (m.world.thread m.world.current).status = .running
  /-- The other threads of the chain are normal. -/
  waiting : ∀ t ∈ m.world.chain, t ≠ m.world.current → (m.world.thread t).status = .normal
  /-- The threads outside the chain are suspended or dead. -/
  outside : ∀ t, m.world.Has t → t ∉ m.world.chain →
    (m.world.thread t).status = .suspended ∨ (m.world.thread t).status = .dead
  /-- The resumer of a thread of the chain is the one before it. -/
  linked : m.world.chain.IsChain fun a b => (m.world.thread b).resumer = some a
  /-- The main thread and the threads outside the chain have no resumer. -/
  unlinked : ∀ t, t = .main ∨ t ∉ m.world.chain → (m.world.thread t).resumer = none
  /-- Exactly one thread is running. -/
  unique : ∃! t, m.world.Has t ∧ (m.world.thread t).status = .running
  /-- The resumers form no cycle. -/
  acyclic : ∀ t, ¬ Relation.TransGen (fun a b => (m.world.thread a).resumer = some b) t t

/-- **The chain of resumes**: at every point of every run the threads of the instance form one
chain, from the main thread to the thread in control. -/
theorem Reachable.resume_chain (hm : Reachable B m) : ResumeChain m := by
  have h : Chained ⟨m.world, m.stack, m.control.active⟩ := hm.chained
  have hnodup : (chain m.stack).Nodup := nodup_chain h.linked
  have hcurrent : m.world.current = driven m.stack := h.current
  have hlink : ∀ t, (m.world.thread t).resumer = resumerIn (chain m.stack) t := h.resumer
  have hrunning : (m.world.thread m.world.current).status = .running := by
    rw [hcurrent]
    exact h.top
  refine ⟨?_, ?_, ?_, hcurrent.symm, hrunning, ?_, ?_, ?_, ?_, ?_, ?_⟩
  · rw [h.chain_eq_reverse]
    exact List.nodup_reverse.mpr hnodup
  · exact fun t ht => h.has (h.mem_chain_iff.mp ht)
  · rw [h.chain_eq_reverse, List.getLast?_reverse, head?_chain h.linked, hcurrent]
  · intro t ht hne
    exact h.waiting t (h.mem_chain_iff.mp ht) (hcurrent ▸ hne)
  · exact fun t _ ht => h.outside t (fun hc => ht (h.mem_chain_iff.mpr hc))
  · rw [h.chain_eq_reverse, List.isChain_reverse]
    exact (isChain_resumerIn hnodup).imp fun a b hab => (hlink a).trans hab
  · rintro t (rfl | ht)
    · rw [hlink]
      exact resumerIn_last hnodup
    · rw [hlink]
      exact resumerIn_of_not_mem fun hc => ht (h.mem_chain_iff.mpr hc)
  · refine ⟨m.world.current, ⟨World.has_of_running hrunning, hrunning⟩, ?_⟩
    rintro t ⟨-, ht⟩
    by_contra hne
    by_cases hc : t ∈ chain m.stack
    · have hn : (m.world.thread t).status = .normal :=
        h.waiting t hc (fun e => hne (e.trans hcurrent.symm))
      rw [ht] at hn
      exact absurd hn (by decide)
    · have ho : (m.world.thread t).status = .suspended ∨ (m.world.thread t).status = .dead :=
        h.outside t hc
      rw [ht] at ho
      exact absurd ho (by decide)
  · intro t ht
    -- Every link leads further down the chain, so no way of links leads back.
    have hlt : ∀ u, Relation.TransGen (fun a b => (m.world.thread a).resumer = some b) t u →
        (chain m.stack).idxOf t < (chain m.stack).idxOf u := by
      intro u hu
      induction hu with
      | single hab => exact idxOf_lt_of_resumerIn hnodup ((hlink _).symm.trans hab)
      | tail _ hab ih =>
        exact ih.trans (idxOf_lt_of_resumerIn hnodup ((hlink _).symm.trans hab))
    exact Nat.lt_irrefl _ (hlt t ht)

/-- Resumes a coroutine that resumes another one. -/
def nestedResumes : Program H (List Value) :=
  .define (.sequence .yield) fun yield =>
  .create (.function yield) fun inner =>
  .create (.function (.builtin (.coroutine .resume))) fun outer =>
  match inner, outer with
  | .ok inner, .ok outer => .resume outer [.thread inner] fun _ => .done []
  | _, _ => .done []

/-- A chain of three threads. -/
theorem resumeChain_nestedResumes : ∃ m : Machine .bare, Reachable .bare m ∧
    m.world.chain = [.main, ⟨2⟩, ⟨1⟩] ∧ ResumeChain m :=
  ⟨(load .bare nestedResumes).run .bare 5, reachable_bare _ 5, rfl,
    Reachable.resume_chain (reachable_bare _ 5)⟩

end Machine

end Lua
