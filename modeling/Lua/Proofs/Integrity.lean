/-
Code that raises no internal errors.

Two kinds of errors tell of a defect of the machine itself: a transition that the life cycle of
threads does not know, and a broken rule of the machine.  Host code may pass on every error that
it is given; it keeps its integrity if it never fails with an internal error as long as it is given
none:

* `Cause.isInternal` — the errors that no code should ever see;
* `Trust` — what a host knows of the data of its own that its code meets;
* `Program.Sound` — a program that fails with no internal error and leaves trusted data behind;
* `Program.sound_bind` — what is sound in a row;
* `HostCode.Honest`, `Behaviour.Sound` — hosts and behaviours all of whose code is sound.

Design notes: soundness is a weakest precondition, by recursion on the tree of a program.  Every
answer of the machine that is not internal is allowed for, and so is every world whose functions,
frames and shared data are trusted.
-/
import Lua.Library.Registry

namespace Lua

variable {H : Host} {α β : Type}

/-! ### Internal errors -/

/-- Whether a refused operation tells of a defect of the machine. -/
@[simp] def CoroutineError.isInternal : CoroutineError → Bool
  | .invalidTransition _ _ => true
  | _ => false

/-- Whether an error tells of a defect of the machine, or has come of one. -/
@[simp] def Cause.isInternal : Cause → Bool
  | .coroutine e => e.isInternal
  | .uncaught cause _ => cause.isInternal
  | .broken _ => true
  | _ => false

@[simp] theorem Cause.isInternal_ofText (s : String) : (Cause.ofText s).isInternal = false := rfl

def TracedError.isInternal (e : TracedError) : Bool := e.cause.isInternal

def Raised.isInternal : Raised → Bool
  | .traced e => e.isInternal
  | .cause c => c.isInternal

def ResumeError.isInternal (e : ResumeError) : Bool := e.toCause.isInternal

theorem Raised.isInternal_leave (e : Raised) (name : String) :
    (e.leave name).isInternal = e.isInternal := by
  cases e with
  | traced e => rfl
  | cause c => rfl

/-- An answer that is no internal error. -/
def Clean {ε : Type} (isInternal : ε → Bool) (r : Except ε α) : Prop :=
  ∀ e, r = .error e → isInternal e = false

theorem clean_ok {ε : Type} {isInternal : ε → Bool} (a : α) : Clean isInternal (.ok a) := by
  intro e he
  cases he

theorem clean_error {ε : Type} {isInternal : ε → Bool} {e : ε} (h : isInternal e = false) :
    Clean isInternal (.error e : Except ε α) := by
  rintro _ ⟨⟩
  exact h

/-! ### Trusted data -/

/-- What is known of the data of a host: its code and states, the answers of its loops, and what
its functions share. -/
structure Trust (H : Host) where
  native : H.Native → Prop
  sequence : H.Sequence → Prop
  state : H.State → Prop
  loop : H.Loop → Prop
  answer : H.Answer → Prop
  shared : H.Shared → Prop

/-- Nothing is known, for nothing needs to be. -/
def Trust.all : Trust H :=
  ⟨fun _ => True, fun _ => True, fun _ => True, fun _ => True, fun _ => True, fun _ => True⟩

variable {T : Trust H}

def Closure.Trusted (T : Trust H) : Closure H → Prop
  | .native (.host _ code) => T.native code
  | .sequence (.host _ code) => T.sequence code
  | _ => True

def Activation.Trusted (T : Trust H) : Activation H → Prop
  | .host state => T.state state
  | _ => True

/-- What a poll asks for leaves trusted states behind. -/
def Step.Trusted (T : Trust H) : Step H → Prop
  | .call _ _ next | .yield _ next => next.Trusted T
  | _ => True

/-- Everything of the host in a world is trusted. -/
structure World.Trusted (T : Trust H) (w : World H) : Prop where
  functions : ∀ c ∈ w.functions, c.Trusted T
  frames : ∀ t, ∀ f ∈ (w.thread t).frames, f.activation.Trusted T
  shared : T.shared w.memory.shared

/-! ### Sound programs -/

/-- A program that fails with no internal error if it is given none, and ends with a result of the
given kind. -/
def Program.Sound (T : Trust H) (Q : α → Prop) : Program H α → Prop
  | .done a => Q a
  | .fail e => e.isInternal = false
  | .read rest => ∀ w, w.Trusted T → (rest w).Sound T Q
  | .write m rest => T.shared m.shared ∧ (rest ()).Sound T Q
  | .define c rest => c.Trusted T ∧ ∀ f, (rest f).Sound T Q
  | .call _ _ rest => ∀ r, Clean TracedError.isInternal r → (rest r).Sound T Q
  | .resume _ _ rest => ∀ r, Clean ResumeError.isInternal r → (rest r).Sound T Q
  | .create _ rest => ∀ r, (rest r).Sound T Q
  | .close _ rest => ∀ r, Clean CoroutineError.isInternal r → (rest r).Sound T Q
  | .loop s rest => T.loop s ∧ ∀ a, T.answer a → (rest a).Sound T Q

namespace Program

variable {Q : α → Prop} {R : β → Prop}

theorem Sound.imp {Q' : α → Prop} {p : Program H α} (h : p.Sound T Q) (hQ : ∀ a, Q a → Q' a) :
    p.Sound T Q' := by
  induction p with
  | done a => exact hQ a h
  | fail e => exact h
  | read rest ih => exact fun w hw => ih w (h w hw)
  | write m rest ih => exact ⟨h.1, ih () h.2⟩
  | define c rest ih => exact ⟨h.1, fun f => ih f (h.2 f)⟩
  | call callee args rest ih => exact fun r hr => ih r (h r hr)
  | resume t args rest ih => exact fun r hr => ih r (h r hr)
  | create body rest ih => exact fun r => ih r (h r)
  | close t rest ih => exact fun r hr => ih r (h r hr)
  | loop s rest ih => exact ⟨h.1, fun a ha => ih a (h.2 a ha)⟩

/-- **Programs in a row** are sound if the first is sound and ends so that the second is. -/
@[simp] theorem sound_bind {p : Program H α} {f : α → Program H β} :
    (p >>= f).Sound T R ↔ p.Sound T fun a => (f a).Sound T R := by
  induction p with
  | done a => rfl
  | fail e => rfl
  | read rest ih => exact forall_congr' fun w => imp_congr_right fun _ => ih w
  | write m rest ih => exact and_congr_right fun _ => ih ()
  | define c rest ih => exact and_congr_right fun _ => forall_congr' ih
  | call callee args rest ih => exact forall_congr' fun r => imp_congr_right fun _ => ih r
  | resume t args rest ih => exact forall_congr' fun r => imp_congr_right fun _ => ih r
  | create body rest ih => exact forall_congr' ih
  | close t rest ih => exact forall_congr' fun r => imp_congr_right fun _ => ih r
  | loop s rest ih =>
    exact and_congr_right fun _ => forall_congr' fun a => imp_congr_right fun _ => ih a

/-! #### Rules for single requests -/

@[simp] theorem sound_pure {a : α} : (pure a : Program H α).Sound T Q ↔ Q a := Iff.rfl

@[simp] theorem sound_raise {c : Cause} :
    (raise c : Program H α).Sound T Q ↔ c.isInternal = false := Iff.rfl

@[simp] theorem sound_ite {c : Prop} [Decidable c] {p q : Program H α} :
    (if c then p else q).Sound T Q ↔ (c → p.Sound T Q) ∧ (¬ c → q.Sound T Q) := by
  by_cases hc : c
  · simp [hc]
  · simp [hc]

@[simp] theorem sound_ofArgument {r : Except ArgumentError α} :
    (ofArgument r : Program H α).Sound T Q ↔ ∀ a, r = .ok a → Q a := by
  cases r with
  | ok a => exact ⟨fun h _ ha => Except.ok.inj ha ▸ h, fun h => h a rfl⟩
  | error e => exact ⟨fun _ _ ha => (by cases ha), fun _ => rfl⟩

@[simp] theorem sound_liftM_argument {r : Except ArgumentError α} :
    (liftM r : Program H α).Sound T Q ↔ ∀ a, r = .ok a → Q a := sound_ofArgument

@[simp] theorem sound_liftM_cause {r : Except Cause α} :
    (liftM r : Program H α).Sound T Q ↔
      (∀ a, r = .ok a → Q a) ∧ ∀ c, r = .error c → c.isInternal = false := by
  cases r with
  | ok a => exact ⟨fun h => ⟨fun _ ha => Except.ok.inj ha ▸ h, fun _ hc => (by cases hc)⟩,
      fun h => h.1 a rfl⟩
  | error c => exact ⟨fun h => ⟨fun _ ha => (by cases ha), fun _ hc => Except.error.inj hc ▸ h⟩,
      fun h => h.2 c rfl⟩

@[simp] theorem sound_world {Q : World H → Prop} :
    world.Sound T Q ↔ ∀ w, w.Trusted T → Q w := Iff.rfl

@[simp] theorem sound_memory {Q : Memory H → Prop} :
    (memory : Program H (Memory H)).Sound T Q ↔ ∀ w : World H, w.Trusted T → Q w.memory := Iff.rfl

@[simp] theorem sound_heap {Q : Heap → Prop} :
    (heap : Program H Heap).Sound T Q ↔ ∀ w : World H, w.Trusted T → Q w.memory.heap := Iff.rfl

@[simp] theorem sound_table {t : TableId} {Q : Table → Prop} :
    (table t : Program H Table).Sound T Q ↔
      ∀ w : World H, w.Trusted T → Q (w.memory.heap.table t) := Iff.rfl

@[simp] theorem sound_setMemory {m : Memory H} {Q : Unit → Prop} :
    (setMemory m).Sound T Q ↔ T.shared m.shared ∧ Q () := Iff.rfl

@[simp] theorem sound_setHeap {h : Heap} {Q : Unit → Prop} :
    (setHeap h : Program H Unit).Sound T Q ↔ ∀ w : World H, w.Trusted T → Q () :=
  ⟨fun h w hw => (h w hw).2, fun h w hw => ⟨hw.shared, h w hw⟩⟩

@[simp] theorem sound_setTable {t : TableId} {content : Table} {Q : Unit → Prop} :
    (setTable t content : Program H Unit).Sound T Q ↔ ∀ w : World H, w.Trusted T → Q () := by
  simp only [setTable, sound_bind, sound_heap, sound_setHeap]
  exact ⟨fun h w hw => h w hw w hw, fun h w hw _ _ => h w hw⟩

@[simp] theorem sound_allocate {content : Table} {Q : TableId → Prop} :
    (allocate content : Program H TableId).Sound T Q ↔
      ∀ w : World H, w.Trusted T → Q (w.memory.allocate content).1 := by
  simp only [allocate, sound_bind, sound_memory, sound_setMemory, sound_pure]
  exact forall_congr' fun w => imp_congr_right fun hw => and_iff_right hw.shared

@[simp] theorem sound_createFunction {c : Closure H} {Q : Function → Prop} :
    (createFunction c).Sound T Q ↔ c.Trusted T ∧ ∀ f, Q f := Iff.rfl

@[simp] theorem sound_callOrFail {callee : Value} {args : List Value} {Q : List Value → Prop} :
    (callOrFail callee args : Program H (List Value)).Sound T Q ↔ ∀ vs, Q vs := by
  refine ⟨fun h vs => h (.ok vs) (clean_ok vs), fun h r hr => ?_⟩
  cases r with
  | ok vs => exact h vs
  | error e => exact hr e rfl

@[simp] theorem sound_createOrFail {body : Value} {Q : ThreadId → Prop} :
    (createOrFail body : Program H ThreadId).Sound T Q ↔ ∀ t, Q t := by
  refine ⟨fun h t => h (.ok t), fun h r => ?_⟩
  cases r with
  | ok t => exact h t
  | error e => rfl

end Program

/-! ### Sound code -/

/-- The code of a host has integrity: on trusted data it is sound, and errors that are not internal
lead to no internal errors. -/
structure HostCode.Honest (host : HostCode H) (T : Trust H) : Prop where
  native : ∀ code, T.native code → ∀ args, (host.native code args).Sound T fun _ => True
  start : ∀ code, T.sequence code → T.state (host.start code)
  poll : ∀ state, T.state state → ∀ input, (host.poll state input).Sound T (Step.Trusted T)
  recover : ∀ state, T.state state → ∀ e : TracedError, e.isInternal = false →
    (host.recover state e).Sound T (Step.Trusted T)
  advance : ∀ state, T.loop state → (host.advance state).Sound T (Sum.elim T.loop T.answer)

/-- So has all the code behind the functions of an instance. -/
structure Behaviour.Sound (B : Behaviour H) (T : Trust H) : Prop where
  builtin : ∀ b args, (B.builtin b args).Sound T fun _ => True
  native : ∀ c, (Closure.native c).Trusted T → ∀ args, (B.native c args).Sound T fun _ => True
  start : ∀ c, (Closure.sequence c).Trusted T → (B.start c).Trusted T
  poll : ∀ a, a.Trusted T → ∀ input, (B.poll a input).Sound T (Step.Trusted T)
  recover : ∀ a, a.Trusted T → ∀ e : TracedError, e.isInternal = false →
    (B.recover a e).Sound T (Step.Trusted T)
  advance : ∀ state, T.loop state → (B.advance state).Sound T (Sum.elim T.loop T.answer)

end Lua
