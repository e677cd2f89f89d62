/-
The depth counters.

A thread counts the host calls and the native calls that are in progress on it, and the
instance counts the levels of the host stack.  All three counters can be read off the
boundaries of the machine and the owners of the waiting code:

* `Counted` — the counters say what the boundaries say;
* `Machine.Reachable.counted` — they do at every point of every run;
* `Counted.not_escape` — so no yield gets past a host call;
* `Counted.nonYieldable_outside`, `Counted.nativeDepth_outside` — a thread outside the chain
  of resumes has nothing in progress.

Design notes: the owner of the active code is an argument of the counting functions, as the
bottom of what is in progress above the topmost boundary.  Raising a boundary moves it into
the boundary and counts nothing twice.
-/
import Lua.Proofs.ResumeChain

namespace Lua

variable {H : Host}

/-- One if a native function runs. -/
def nativeHere : Option Owner → Nat
  | some (.native _) => 1
  | _ => 0

namespace Machine

/-- The host calls in progress on a thread. -/
def openCalls : List (Boundary H) → ThreadId → Nat
  | [], _ => 0
  | .call t _ _ _ :: s, u => openCalls s u + if u = t then 1 else 0
  | .resume _ _ _ _ :: s, u => openCalls s u

/-- The native calls in progress on a thread. -/
def openNatives : List (Boundary H) → Option Owner → ThreadId → Nat
  | [], a, u => if u = .main then nativeHere a else 0
  | b :: s, a, u => openNatives s (some b.owner) u + if u = b.thread then nativeHere a else 0

/-- The levels of the host stack in use. -/
def levels : List (Boundary H) → Option Owner → Nat
  | [], a => nativeHere a
  | b :: s, a => levels s (some b.owner) + 1 + nativeHere a

theorem openNatives_eq_add (s : List (Boundary H)) (a : Option Owner) (u : ThreadId) :
    openNatives s a u = openNatives s none u + if u = driven s then nativeHere a else 0 := by
  cases s with
  | nil =>
    show _ = (if u = ThreadId.main then 0 else 0) + _
    rw [ite_self, Nat.zero_add]
    rfl
  | cons b s =>
    show _ = openNatives s (some b.owner) u + (if u = b.thread then 0 else 0) + _
    rw [ite_self]
    rfl

theorem levels_eq_add (s : List (Boundary H)) (a : Option Owner) :
    levels s a = levels s none + nativeHere a := by
  cases s with
  | nil => exact (Nat.zero_add _).symm
  | cons b s => rfl

theorem openNatives_cons (b : Boundary H) (s : List (Boundary H)) (u : ThreadId) :
    openNatives (b :: s) none u = openNatives s (some b.owner) u := by
  show openNatives s (some b.owner) u + (if u = b.thread then 0 else 0) = _
  rw [ite_self, Nat.add_zero]

theorem levels_cons (b : Boundary H) (s : List (Boundary H)) :
    levels (b :: s) none = levels s (some b.owner) + 1 := rfl

theorem openCalls_outside {s : List (Boundary H)} (hl : Linked s) {t : ThreadId}
    (h : t ∉ chain s) : openCalls s t = 0 := by
  induction s with
  | nil => rfl
  | cons b s ih =>
    cases b with
    | call u base o rest =>
      have hne : t ≠ u := by
        rw [hl.1]
        exact (ne_of_mem_of_not_mem (driven_mem_chain hl.2) h).symm
      show openCalls s t + (if t = u then 1 else 0) = 0
      rw [ih hl.2 h, if_neg hne]
    | resume u c o rest => exact ih hl.2.2 fun hm => h (List.mem_cons_of_mem u hm)

theorem openNatives_outside {s : List (Boundary H)} (hl : Linked s) {a : Option Owner}
    {t : ThreadId} (h : t ∉ chain s) : openNatives s a t = 0 := by
  induction s generalizing a with
  | nil => exact if_neg (List.ne_of_not_mem_cons h)
  | cons b s ih =>
    have hne : t ≠ driven (b :: s) := (ne_of_mem_of_not_mem (driven_mem_chain hl) h).symm
    rw [openNatives_eq_add, if_neg hne, openNatives_cons]
    cases b with
    | call u base o rest => rw [ih hl.2 h]
    | resume u c o rest => rw [ih hl.2.2 fun hm => h (List.mem_cons_of_mem u hm)]

end Machine

open Machine

/-! ### Agreement -/

/-- The counters of the world say what is in progress. -/
structure Counted (x : Situation H) : Prop where
  nonYieldable : ∀ t, (x.world.thread t).nonYieldable = openCalls x.stack t
  nativeDepth : ∀ t, (x.world.thread t).nativeDepth = openNatives x.stack x.active t
  hostDepth : x.world.hostDepth = levels x.stack x.active

namespace Counted

variable {w w' : World H} {s : List (Boundary H)} {a a' : Option Owner}

theorem fresh (hw : w.IsFresh) : Counted ⟨w, [], some .embedding⟩ := by
  refine ⟨fun t => ?_, fun t => ?_, hw.hostDepth⟩
  · show (w.thread t).nonYieldable = 0
    by_cases ht : t = .main
    · rw [ht, hw.thread_main]
      rfl
    · rw [hw.thread_ne ht]
      rfl
  · show (w.thread t).nativeDepth = if t = .main then 0 else 0
    rw [ite_self]
    by_cases ht : t = .main
    · rw [ht, hw.thread_main]
      rfl
    · rw [hw.thread_ne ht]
      rfl

/-- Only the counters matter, and whether a native function runs. -/
theorem congr (h : Counted ⟨w, s, a⟩) (ha : nativeHere a' = nativeHere a)
    (hh : w'.hostDepth = w.hostDepth)
    (hy : ∀ t, (w'.thread t).nonYieldable = (w.thread t).nonYieldable)
    (hn : ∀ t, (w'.thread t).nativeDepth = (w.thread t).nativeDepth) : Counted ⟨w', s, a'⟩ := by
  refine ⟨fun t => (hy t).trans (h.nonYieldable t), fun t => ?_, ?_⟩
  · show (w'.thread t).nativeDepth = openNatives s a' t
    rw [hn t, openNatives_eq_add, ha, ← openNatives_eq_add]
    exact h.nativeDepth t
  · show w'.hostDepth = levels s a'
    rw [hh, levels_eq_add, ha, ← levels_eq_add]
    exact h.hostDepth

/-- A change of a thread that keeps its counters. -/
theorem modifyThread (h : Counted ⟨w, s, a⟩) (t : ThreadId) {f : Thread H → Thread H}
    (ha : nativeHere a' = nativeHere a := by rfl)
    (hy : ∀ x, (f x).nonYieldable = x.nonYieldable := by intro x; rfl)
    (hn : ∀ x, (f x).nativeDepth = x.nativeDepth := by intro x; rfl) :
    Counted ⟨w.modifyThread t f, s, a'⟩ :=
  h.congr ha rfl (fun _ => World.keep_modifyThread Thread.nonYieldable _ hy)
    (fun _ => World.keep_modifyThread Thread.nativeDepth _ hn)

theorem create (h : Counted ⟨w, s, a⟩) (body : Option Value) :
    Counted ⟨{ w with threads := w.threads.push (.fresh .suspended body) }, s, a⟩ := by
  have hnew : w.thread ⟨w.threads.size⟩ = .absent :=
    World.thread_of_not_has (Nat.lt_irrefl _)
  refine h.congr rfl rfl (fun t => ?_) (fun t => ?_)
  all_goals
    rw [World.thread_push]
    by_cases ht : t = ⟨w.threads.size⟩
    · rw [if_pos ht, ht, hnew]
      rfl
    · rw [if_neg ht]

theorem native (h : Counted ⟨w, s, none⟩) (hd : w.Has (driven s)) (name : String) :
    Counted ⟨w.inNative (driven s), s, some (.native name)⟩ := by
  refine ⟨fun t => (World.keep_modifyThread Thread.nonYieldable t).trans (h.nonYieldable t),
    fun t => ?_, ?_⟩
  · have hup : ((w.inNative (driven s)).thread t).nativeDepth
        = (w.thread t).nativeDepth + if t = driven s then 1 else 0 :=
      World.count_up Thread.nativeDepth (w := { w with hostDepth := w.hostDepth + 1 }) hd t
    show ((w.inNative (driven s)).thread t).nativeDepth = openNatives s (some (.native name)) t
    rw [hup, openNatives_eq_add, show (w.thread t).nativeDepth = openNatives s none t from
      h.nativeDepth t]
    rfl
  · show w.hostDepth + 1 = levels s (some (.native name))
    rw [levels_eq_add, show w.hostDepth = levels s none from h.hostDepth]
    rfl

theorem leaveNative {name : String} (h : Counted ⟨w, s, some (.native name)⟩)
    (hd : w.Has (driven s)) : Counted ⟨(w.exitNative (driven s)).exitHost, s, none⟩ := by
  refine ⟨fun t => (World.keep_modifyThread Thread.nonYieldable t).trans (h.nonYieldable t),
    fun t => ?_, ?_⟩
  · have hn : (w.thread t).nativeDepth
        = openNatives s none t + if t = driven s then 1 else 0 :=
      (h.nativeDepth t).trans (openNatives_eq_add _ _ _)
    refine (World.count_down Thread.nativeDepth hd t).trans ?_
    rw [hn]
    exact Nat.add_sub_cancel _ _
  · show w.hostDepth - 1 = levels s none
    have hh : w.hostDepth = levels s (some (.native name)) := h.hostDepth
    rw [levels_eq_add] at hh
    rw [hh]
    rfl

theorem call {o : Owner} (h : Counted ⟨w, s, some o⟩) {t : ThreadId} (ht : w.Has t) (base : Nat)
    (rest : Except TracedError (List Value) → Program H (o.Result H)) :
    Counted ⟨({ w with hostDepth := w.hostDepth + 1 } : World H).enterNonYieldable t,
      .call t base o rest :: s, none⟩ := by
  refine ⟨fun u => ?_, fun u => ?_, ?_⟩
  · refine (World.count_up Thread.nonYieldable (w := { w with hostDepth := w.hostDepth + 1 })
      ht u).trans ?_
    exact congrArg (· + if u = t then 1 else 0) (h.nonYieldable u)
  · show ((World.modifyThread _ t _).thread u).nativeDepth = openNatives (_ :: s) none u
    rw [openNatives_cons]
    exact (World.keep_modifyThread Thread.nativeDepth u).trans (h.nativeDepth u)
  · exact congrArg (· + 1) h.hostDepth

theorem leaveCall {t : ThreadId} {base : Nat} {o : Owner}
    {rest : Except TracedError (List Value) → Program H (o.Result H)}
    (h : Counted ⟨w, .call t base o rest :: s, a⟩) (ha : nativeHere a = 0) (ht : w.Has t) :
    Counted ⟨w.leaveCall t, s, some o⟩ := by
  refine ⟨fun u => ?_, fun u => ?_, ?_⟩
  · have hy : (w.thread u).nonYieldable = openCalls s u + if u = t then 1 else 0 :=
      h.nonYieldable u
    refine (World.count_down Thread.nonYieldable ht u).trans ?_
    rw [hy]
    exact Nat.add_sub_cancel _ _
  · have hn : (w.thread u).nativeDepth = openNatives (.call t base o rest :: s) a u :=
      h.nativeDepth u
    rw [openNatives_eq_add, ha, ite_self, openNatives_cons] at hn
    exact (World.keep_modifyThread Thread.nativeDepth u).trans hn
  · have hh : w.hostDepth = levels (.call t base o rest :: s) a := h.hostDepth
    rw [levels_eq_add, ha, levels_cons] at hh
    show w.hostDepth - 1 = levels s (some o)
    rw [hh]
    rfl

theorem enter {o : Owner} (h : Counted ⟨w, s, some o⟩) {t c : ThreadId}
    {rest : Except ResumeError (List Value) → Program H (o.Result H)} :
    Counted ⟨w.entered t, .resume t c o rest :: s, none⟩ := by
  refine ⟨fun u => ?_, fun u => ?_, ?_⟩
  · exact (World.keep_entered Thread.nonYieldable u).trans (h.nonYieldable u)
  · show _ = openNatives (_ :: s) none u
    rw [openNatives_cons]
    exact (World.keep_entered Thread.nativeDepth u).trans (h.nativeDepth u)
  · exact congrArg (· + 1) h.hostDepth

theorem leave {t c : ThreadId} {o : Owner}
    {rest : Except ResumeError (List Value) → Program H (o.Result H)}
    (h : Counted ⟨w, .resume t c o rest :: s, a⟩) (ha : nativeHere a = 0) (oc : Outcome) :
    Counted ⟨w.left t c oc, s, some o⟩ := by
  refine ⟨fun u => ?_, fun u => ?_, ?_⟩
  · exact (World.keep_left Thread.nonYieldable u).trans (h.nonYieldable u)
  · have hn : (w.thread u).nativeDepth = openNatives (.resume t c o rest :: s) a u :=
      h.nativeDepth u
    rw [openNatives_eq_add, ha, ite_self, openNatives_cons] at hn
    exact (World.keep_left Thread.nativeDepth u).trans hn
  · have hh : w.hostDepth = levels (.resume t c o rest :: s) a := h.hostDepth
    rw [levels_eq_add, ha, levels_cons] at hh
    show w.hostDepth - 1 = levels s (some o)
    rw [hh]
    rfl

/-- Elementary changes keep the counters right. -/
theorem change {x y : Situation H} {es : List (ThreadId × LifeEvent)} (hc : Change x es y)
    (hch : Chained x) (h : Counted x) : Counted y := by
  cases hc with
  | memory m => exact h.congr rfl rfl (fun _ => rfl) (fun _ => rfl)
  | define c => exact h.congr rfl rfl (fun _ => rfl) (fun _ => rfl)
  | create f => exact h.create _
  | close t ht => exact h.modifyThread t
  | closeDead t ht => exact h.modifyThread t
  | @call w s o _ rest =>
    refine h.call ?_ _ rest
    rw [hch.current]
    exact hch.has_driven
  | resume t he rest =>
    obtain ⟨ht, rfl⟩ := hch.entered_of_ok he
    exact h.enter.modifyThread t
  | native name hd hh => exact h.native hch.has_driven name
  | sequence f hd => exact h.modifyThread _
  | leaveNative name => exact h.leaveNative hch.has_driven
  | poll b f below hf hb => exact h.modifyThread _
  | wait name next => exact h.modifyThread _
  | leavePoll name => exact h.congr rfl rfl (fun _ => rfl) (fun _ => rfl)
  | endCall hf => exact h.leaveCall rfl hch.has_driven
  | endResume input hf =>
    rw [World.leaveCoroutine_eq hch.ends.1 hch.ends.2]
    exact h.leave rfl _
  | @yield w s t c o rest name vs next hy =>
    have hpush := hch.pushFrame t ⟨name, next⟩
    have hcount : Counted ⟨w.pushFrame t ⟨name, next⟩, .resume t c o rest :: s, none⟩ :=
      h.modifyThread t
    rw [World.leaveCoroutine_eq hpush.ends.1 hpush.ends.2]
    exact hcount.leave rfl _
  | @escape w s t base o rest name next hy =>
    -- No run comes here, by `not_escape`, but that is a consequence of this theorem.
    have hpush : Counted ⟨w.pushFrame t ⟨name, next⟩, .call t base o rest :: s, none⟩ :=
      h.modifyThread t
    exact hpush.leaveCall rfl (World.has_modifyThread.mpr hch.has_driven)

/-! ### Consequences -/

/-- No yield gets past a host call. -/
theorem not_escape {t : ThreadId} {base : Nat} {o : Owner}
    {rest : Except TracedError (List Value) → Program H (o.Result H)}
    (h : Counted ⟨w, .call t base o rest :: s, a⟩) : w.checkYield t ≠ .ok () := by
  have hy : (w.thread t).nonYieldable = openCalls s t + if t = t then 1 else 0 :=
    h.nonYieldable t
  rw [if_pos rfl] at hy
  rw [World.checkYield]
  by_cases ht : t = .main
  · rw [if_pos ht]
    exact fun he => absurd he (by simp)
  · rw [if_neg ht, if_pos (by omega)]
    exact fun he => absurd he (by simp)

theorem nonYieldable_outside (h : Counted ⟨w, s, a⟩) (hl : Linked s) {t : ThreadId}
    (ht : t ∉ chain s) : (w.thread t).nonYieldable = 0 :=
  (h.nonYieldable t).trans (openCalls_outside hl ht)

theorem nativeDepth_outside (h : Counted ⟨w, s, a⟩) (hl : Linked s) {t : ThreadId}
    (ht : t ∉ chain s) : (w.thread t).nativeDepth = 0 :=
  (h.nativeDepth t).trans (openNatives_outside hl ht)

end Counted

theorem Machine.Reachable.counted {B : Behaviour H} {m : Machine H} (hm : Reachable B m) :
    Counted m.situation := by
  obtain ⟨h, hr⟩ := hm
  exact (hr.keep (P := fun x => Chained x ∧ Counted x)
    (fun hw => ⟨.fresh hw, .fresh hw⟩)
    (fun hc hx => ⟨hx.1.change hc, .change hc hx.1 hx.2⟩)).2

end Lua
