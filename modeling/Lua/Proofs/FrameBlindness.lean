/-
Code that observes neither frames nor traces.

The frames of a thread and the traces of errors tell how a function came to be called.  Most code
does not look at either: it reads other parts of the world, and of an error it takes the cause.

* `Cause.stripped` — a cause without the traces in it, and the same for errors of all kinds;
* `World.unframed` — a world without the frames of its threads;
* `Program.Tied` — programs that make the same requests in worlds that differ in the frames, when
  they are given answers that differ in the traces;
* `Program.Blind` — a program that is tied to itself: it observes neither;
* `Program.Tied.bind` — what follows tied programs is tied.

Design notes: what two errors or two worlds have in common is stated as an equality of what is left
of them.  Tied programs need not end alike, but with results that a given relation allows.
-/
import Lua.Proofs.Threads

namespace Lua

variable {H : Host} {α β γ δ : Type}

/-! ### Errors without traces -/

/-- A cause without the traces of the coroutines that died of it. -/
def Cause.stripped : Cause → Cause
  | .uncaught cause _ => .uncaught cause.stripped []
  | c => c

/-- The value of an error does not tell its trace. -/
@[simp] theorem Cause.value_stripped (c : Cause) : c.stripped.value = c.value := by
  induction c with
  | uncaught cause trace ih => exact ih
  | _ => rfl

namespace TracedError

def stripped (e : TracedError) : TracedError := ⟨e.cause.stripped, []⟩

@[simp] theorem stripped_leave (e : TracedError) (entry : TraceEntry) :
    (e.leave entry).stripped = e.stripped := rfl

theorem value_eq {e e' : TracedError} (h : e.stripped = e'.stripped) : e.value = e'.value := by
  have hcause := congrArg TracedError.cause h
  rw [value, value, ← e.cause.value_stripped, ← e'.cause.value_stripped]
  exact congrArg Cause.value hcause

end TracedError

namespace Raised

def stripped : Raised → Cause
  | .traced e => e.cause.stripped
  | .cause c => c.stripped

@[simp] theorem stripped_leave (e : Raised) (name : String) :
    (e.leave name).stripped = ⟨e.stripped, []⟩ := by
  cases e with
  | traced e => rfl
  | cause c => rfl

end Raised

namespace ResumeError

def stripped : ResumeError → ResumeError
  | .refused e => .refused e
  | .uncaught e => .uncaught e.stripped

theorem value_eq {e e' : ResumeError} (h : e.stripped = e'.stripped) : e.value = e'.value := by
  cases e with
  | refused e =>
    cases e' with
    | refused e' => rw [refused.inj h]
    | uncaught e' => cases h
  | uncaught e =>
    cases e' with
    | refused e' => cases h
    | uncaught e' => exact TracedError.value_eq (uncaught.inj h)

end ResumeError

/-! ### Worlds without frames -/

def Thread.unframed (s : Thread H) : Thread H := { s with frames := [] }

namespace World

/-- A world without the frames of its threads. -/
def unframed (w : World H) : World H := { w with threads := w.threads.map Thread.unframed }

variable {w w' : World H} {t u : ThreadId}

@[simp] theorem thread_unframed : w.unframed.thread t = (w.thread t).unframed := by
  simp only [thread, unframed, Array.getD_eq_getD_getElem?, Array.getElem?_map]
  cases w.threads[t.index]? <;> rfl

/-- What does not depend on the frames is the same in worlds that differ in nothing else. -/
theorem view_congr {κ : Type} (view : World H → κ) (h : w.unframed = w'.unframed)
    (hview : ∀ v, view v.unframed = view v) : view w = view w' := by
  rw [← hview w, h, hview w']

theorem thread_congr (h : w.unframed = w'.unframed) (t : ThreadId) :
    (w.thread t).unframed = (w'.thread t).unframed := by
  rw [← thread_unframed, h, thread_unframed]

theorem has_congr (h : w.unframed = w'.unframed) (t : ThreadId) : w.Has t ↔ w'.Has t := by
  have hsize := view_congr (fun v => v.threads.size) h fun v => Array.size_map
  rw [Has, Has, hsize]

end World

/-! ### Tied programs -/

namespace Program

/-- Programs that make the same requests: they are given worlds that differ in nothing but the
frames, and answers that differ in nothing but the traces of errors. -/
inductive Tied (R : α → β → Prop) : Program H α → Program H β → Prop
  | done {a b} (h : R a b) : Tied R (.done a) (.done b)
  | fail {e e'} (h : e.stripped = e'.stripped) : Tied R (.fail e) (.fail e')
  | read {rest rest'} (h : ∀ w w', w.unframed = w'.unframed → Tied R (rest w) (rest' w')) :
      Tied R (.read rest) (.read rest')
  | write {m rest rest'} (h : Tied R (rest ()) (rest' ())) : Tied R (.write m rest) (.write m rest')
  | define {c rest rest'} (h : ∀ f, Tied R (rest f) (rest' f)) :
      Tied R (.define c rest) (.define c rest')
  | call {callee args rest rest'} (h : ∀ r r',
      r.mapError TracedError.stripped = r'.mapError TracedError.stripped →
        Tied R (rest r) (rest' r')) : Tied R (.call callee args rest) (.call callee args rest')
  | resume {t args rest rest'} (h : ∀ r r',
      r.mapError ResumeError.stripped = r'.mapError ResumeError.stripped →
        Tied R (rest r) (rest' r')) : Tied R (.resume t args rest) (.resume t args rest')
  | create {body rest rest'} (h : ∀ r, Tied R (rest r) (rest' r)) :
      Tied R (.create body rest) (.create body rest')
  | close {t rest rest'} (h : ∀ r, Tied R (rest r) (rest' r)) :
      Tied R (.close t rest) (.close t rest')
  | loop {s rest rest'} (h : ∀ a, Tied R (rest a) (rest' a)) : Tied R (.loop s rest) (.loop s rest')

/-- A program that observes neither frames nor traces. -/
def Blind (p : Program H α) : Prop := Tied Eq p p

variable {R : α → β → Prop} {S : γ → δ → Prop} {p : Program H α} {p' : Program H β}

/-- **What follows tied programs** is tied, if it is after results that are related. -/
theorem Tied.bind {f : α → Program H γ} {f' : β → Program H δ} (h : Tied R p p')
    (hf : ∀ a b, R a b → Tied S (f a) (f' b)) : Tied S (p.bind f) (p'.bind f') := by
  induction h with
  | done h => exact hf _ _ h
  | fail h => exact .fail h
  | read _ ih => exact .read fun w w' hw => ih w w' hw
  | write _ ih => exact .write ih
  | define _ ih => exact .define ih
  | call _ ih => exact .call fun r r' hr => ih r r' hr
  | resume _ ih => exact .resume fun r r' hr => ih r r' hr
  | create _ ih => exact .create ih
  | close _ ih => exact .close ih
  | loop _ ih => exact .loop ih

theorem Tied.mono {R' : α → β → Prop} (h : Tied R p p') (hR : ∀ a b, R a b → R' a b) :
    Tied R' p p' := by
  induction h with
  | done h => exact .done (hR _ _ h)
  | fail h => exact .fail h
  | read _ ih => exact .read fun w w' hw => ih w w' hw
  | write _ ih => exact .write ih
  | define _ ih => exact .define ih
  | call _ ih => exact .call fun r r' hr => ih r r' hr
  | resume _ ih => exact .resume fun r r' hr => ih r r' hr
  | create _ ih => exact .create ih
  | close _ ih => exact .close ih
  | loop _ ih => exact .loop ih

/-! #### Rules for single requests

Each of them says when a program is blind that begins with the request. -/

section Rules

variable {f : α → Program H β}

/-- **Blind programs in a row** are blind. -/
theorem blind_bind (hp : p.Blind) (hf : ∀ a, (f a).Blind) : (p >>= f).Blind := by
  refine hp.bind fun a b hab => ?_
  rw [hab]
  exact hf b

@[simp] theorem blind_pure (a : α) : (pure a : Program H α).Blind := .done rfl

@[simp] theorem blind_fail (e : Raised) : (fail e : Program H α).Blind := .fail rfl

@[simp] theorem blind_raise (c : Cause) : (raise c : Program H α).Blind := blind_fail _

@[simp] theorem of_pure_bind (a : α) (f : α → Program H β) : pure a >>= f = f a := rfl

/-- What follows a failure does not matter. -/
@[simp] theorem raise_bind (c : Cause) (f : α → Program H β) : raise c >>= f = raise c := rfl

@[simp] theorem blind_ite {c : Prop} [Decidable c] {p q : Program H α} :
    (if c then p else q).Blind ↔ (c → p.Blind) ∧ (¬ c → q.Blind) := by
  by_cases hc : c
  · simp [hc]
  · simp [hc]

@[simp] theorem blind_liftM_argument (r : Except ArgumentError α) :
    (liftM r : Program H α).Blind := by
  cases r with
  | ok a => exact .done rfl
  | error e => exact .fail rfl

@[simp] theorem blind_liftM_cause (r : Except Cause α) : (liftM r : Program H α).Blind := by
  cases r with
  | ok a => exact .done rfl
  | error c => exact .fail rfl

@[simp] theorem blind_argument_bind {r : Except ArgumentError α} :
    ((liftM r : Program H α) >>= f).Blind ↔ ∀ a, r = .ok a → (f a).Blind := by
  cases r with
  | ok a => exact ⟨fun h _ ha => Except.ok.inj ha ▸ h, fun h => h a rfl⟩
  | error e => exact ⟨fun _ _ ha => (by cases ha), fun _ => .fail rfl⟩

@[simp] theorem blind_cause_bind {r : Except Cause α} :
    ((liftM r : Program H α) >>= f).Blind ↔ ∀ a, r = .ok a → (f a).Blind := by
  cases r with
  | ok a => exact ⟨fun h _ ha => Except.ok.inj ha ▸ h, fun h => h a rfl⟩
  | error c => exact ⟨fun _ _ ha => (by cases ha), fun _ => .fail rfl⟩

/-- What is read may depend on everything but the frames. -/
theorem blind_read_iff {κ : Type} {view : World H → κ} {k : κ → Program H α}
    (hview : ∀ w, view w.unframed = view w) :
    (read fun w => k (view w)).Blind ↔ ∀ w, (k (view w)).Blind := by
  constructor
  · intro h w
    cases h with
    | read h => exact h w w rfl
  · intro h
    refine .read fun w w' hw => ?_
    rw [World.view_congr view hw hview]
    exact h w'

theorem blind_world_bind {f : World H → Program H α} (hf : ∀ w, f w.unframed = f w) :
    (world >>= f).Blind ↔ ∀ w, (f w).Blind := blind_read_iff (k := id) hf

@[simp] theorem blind_memory_bind {f : Memory H → Program H α} :
    (memory >>= f).Blind ↔ ∀ w : World H, (f w.memory).Blind := blind_read_iff fun _ => rfl

@[simp] theorem blind_heap_bind {f : Heap → Program H α} :
    (heap >>= f).Blind ↔ ∀ w : World H, (f w.memory.heap).Blind := blind_read_iff fun _ => rfl

@[simp] theorem blind_table_bind {t : TableId} {f : Table → Program H α} :
    (table t >>= f).Blind ↔ ∀ w : World H, (f (w.memory.heap.table t)).Blind :=
  blind_read_iff fun _ => rfl

@[simp] theorem blind_setMemory_bind {m : Memory H} {f : Unit → Program H α} :
    (setMemory m >>= f).Blind ↔ (f ()).Blind := by
  constructor
  · intro h
    cases h with
    | write h => exact h
  · exact .write

@[simp] theorem blind_setHeap_bind {h : Heap} {f : Unit → Program H α} :
    (setHeap h >>= f).Blind ↔ ∀ _ : World H, (f ()).Blind := by
  have hset : setHeap h >>= f
      = memory >>= fun m : Memory H => setMemory { m with heap := h } >>= f := rfl
  rw [hset, blind_memory_bind]
  exact forall_congr' fun _ => blind_setMemory_bind

@[simp] theorem blind_setTable_bind {t : TableId} {content : Table} {f : Unit → Program H α} :
    (setTable t content >>= f).Blind ↔ ∀ _ : World H, (f ()).Blind := by
  have hset : setTable t content >>= f
      = heap >>= fun h => setHeap (h.store t content) >>= f := rfl
  rw [hset, blind_heap_bind]
  exact ⟨fun h w => blind_setHeap_bind.mp (h w) w, fun h w => blind_setHeap_bind.mpr h⟩

@[simp] theorem blind_allocate_bind {content : Table} {f : TableId → Program H α} :
    (allocate content >>= f).Blind ↔ ∀ w : World H, (f (w.memory.allocate content).1).Blind := by
  have hallocate : allocate content >>= f = memory >>= fun m =>
      setMemory (m.allocate content).2 >>= fun _ => f (m.allocate content).1 := rfl
  rw [hallocate, blind_memory_bind]
  exact forall_congr' fun w => blind_setMemory_bind

@[simp] theorem blind_createFunction_bind {c : Closure H} {f : Function → Program H α} :
    (createFunction c >>= f).Blind ↔ ∀ g, (f g).Blind := by
  constructor
  · intro h
    cases h with
    | define h => exact h
  · exact .define

/-- An error that passes on leaves its trace to others. -/
@[simp] theorem blind_callOrFail (callee : Value) (args : List Value) :
    (callOrFail callee args : Program H (List Value)).Blind := by
  refine .call fun r r' hr => ?_
  cases r with
  | ok vs =>
    cases r' with
    | ok vs' => exact .done (Except.ok.inj hr)
    | error e' => cases hr
  | error e =>
    cases r' with
    | ok vs' => cases hr
    | error e' => exact .fail (congrArg TracedError.cause (Except.error.inj hr))

@[simp] theorem blind_callOrFail_bind {callee : Value} {args : List Value}
    {f : List Value → Program H α} :
    (callOrFail callee args >>= f).Blind ↔ ∀ vs, (f vs).Blind := by
  constructor
  · intro h vs
    cases h with
    | call h => exact h (.ok vs) (.ok vs) rfl
  · exact blind_bind (blind_callOrFail callee args)

@[simp] theorem blind_createOrFail_bind {body : Value} {f : ThreadId → Program H α} :
    (createOrFail body >>= f).Blind ↔ ∀ t, (f t).Blind := by
  constructor
  · intro h t
    cases h with
    | create h => exact h (.ok t)
  · exact blind_bind (.create fun r => blind_liftM_argument r)

end Rules

end Program

end Lua
