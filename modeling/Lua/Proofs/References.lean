/-
References, and what stands for what.

Tables, created functions, threads and the walks of a memory are known by numbers, which they get
in order of creation.  Two runs that do the same may number them differently.  They are compared
by a renaming, and what one run has stands for what the other has if their references do:

* `Reference` — what a value, a closure or an error can refer to;
* `Renaming` — a partial injection of references, ordered by inclusion;
* `Renaming.extend` — a renaming with one more pair, of references that are new to it;
* `Renaming.on` — the identity on a set of references;
* `Named` — the types with such a relation, `Stands`, which more pairs leave true;
* `LawfulNamed` — those in which it is turned round, composed and determined as renamings are.

Design notes: numbers, strings and texts stand for themselves only, and so does an error message.
A message that shows the number of a reference therefore stands for no other one.
-/
import Lua.Error
import Mathlib.Data.List.Forall2
import Mathlib.Data.PEquiv

namespace Lua

/-! ### Renamings -/

/-- Something that is known by a number. -/
inductive Reference where
  | table (t : TableId)
  | function (index : Nat)
  | thread (t : ThreadId)
  | walk (cell : Nat)
  deriving DecidableEq

/-- A renaming: each reference has at most one partner, and is that of at most one other. -/
abbrev Renaming := PEquiv Reference Reference

namespace Renaming

variable {R S : Renaming} {a b x y : Reference}

/-- The identity on a set of references. -/
noncomputable def on (K : Set Reference) : Renaming :=
  open Classical in PEquiv.ofSet K

theorem mem_on {K : Set Reference} : y ∈ on K x ↔ y = x ∧ y ∈ K := by
  classical exact PEquiv.mem_ofSet_iff

theorem mem_on_self {K : Set Reference} : x ∈ on K x ↔ x ∈ K := by
  classical exact PEquiv.mem_ofSet_self_iff

/-- One more pair. -/
def extend (R : Renaming) (a b : Reference) (ha : R a = none) (hb : R.symm b = none) :
    Renaming where
  toFun x := if x = a then some b else R x
  invFun y := if y = b then some a else R.symm y
  inv x y := by
    by_cases hx : x = a
    · subst hx
      rw [if_pos rfl]
      by_cases hy : y = b
      · rw [if_pos hy, hy]
        exact iff_of_true rfl rfl
      · -- The old partner of `y` cannot be `x`, which had none.
        rw [if_neg hy, R.eq_some_iff, ha]
        exact iff_of_false (Option.some_ne_none _).symm fun h => hy (Option.some.inj h).symm
    · rw [if_neg hx]
      by_cases hy : y = b
      · subst hy
        rw [if_pos rfl]
        refine iff_of_false (fun h => hx (Option.some.inj h).symm) fun h => ?_
        rw [← R.eq_some_iff, hb] at h
        exact (Option.some_ne_none _).symm h
      · rw [if_neg hy]
        exact R.eq_some_iff

variable {ha : R a = none} {hb : R.symm b = none}

theorem mem_extend : y ∈ R.extend a b ha hb x ↔ (x = a ∧ y = b) ∨ y ∈ R x := by
  show (if x = a then some b else R x) = some y ↔ _
  by_cases hx : x = a
  · subst hx
    rw [if_pos rfl, Option.mem_def, ha]
    simp [eq_comm]
  · rw [if_neg hx]
    simp [hx]

theorem le_extend : R ≤ R.extend a b ha hb := fun _ _ h => mem_extend.mpr (.inr h)

theorem mem_extend_self : b ∈ R.extend a b ha hb a := mem_extend.mpr (.inl ⟨rfl, rfl⟩)

/-- Nothing has a reference as its partner that renamed things do not reach. -/
theorem symm_eq_none (h : ∀ x, b ∉ R x) : R.symm b = none :=
  Option.eq_none_iff_forall_not_mem.mpr fun x hx => h x (R.mem_iff_mem.mp hx)

theorem eq_none (h : ∀ y, y ∉ R a) : R a = none := Option.eq_none_iff_forall_not_mem.mpr h

/-- What the identity relates, a composition with larger renamings does. -/
theorem on_le_trans {K : Set Reference} (hR : on K ≤ R) (hS : on K ≤ S) :
    on K ≤ R.symm.trans S := by
  intro x y h
  obtain ⟨rfl, hx⟩ := mem_on.mp h
  exact (PEquiv.mem_trans _ _ _ _).mpr
    ⟨y, R.mem_iff_mem.mpr (hR _ _ h), hS _ _ h⟩

end Renaming

/-! ### Types with references -/

/-- A type whose elements may hold references: under a renaming, one stands for another. -/
class Named (α : Type) where
  Stands : Renaming → α → α → Prop
  mono {R S : Renaming} {a b : α} (h : R ≤ S) : Stands R a b → Stands S a b

export Named (Stands)

/-- A type in which to stand for each other is what renamings make it. -/
class LawfulNamed (α : Type) [Named α] : Prop where
  symm {R : Renaming} {a b : α} : Stands R a b → Stands R.symm b a
  trans {R S : Renaming} {a b c : α} : Stands R a b → Stands S b c → Stands (R.trans S) a c
  unique {R : Renaming} {a b c : α} : Stands R a b → Stands R a c → b = c

/-- Elements without references stand for themselves. -/
@[reducible] def Named.plain (α : Type) : Named α := ⟨fun _ a b => a = b, fun _ h => h⟩

variable {R S : Renaming} {α β ε : Type} [Named α] [Named β] [Named ε]

instance : Named Unit := .plain Unit

instance : Named ArgumentError := .plain ArgumentError

instance : Named CoroutineError := .plain CoroutineError

instance : LawfulNamed CoroutineError :=
  ⟨Eq.symm, Eq.trans, fun h h' => h.symm.trans h'⟩

instance : Named TableId := ⟨fun R i j => .table j ∈ R (.table i), fun h => h _ _⟩

instance : Named ThreadId := ⟨fun R t u => .thread u ∈ R (.thread t), fun h => h _ _⟩

instance : LawfulNamed ThreadId where
  symm h := PEquiv.mem_iff_mem _ |>.mpr h
  trans h h' := (PEquiv.mem_trans _ _ _ _).mpr ⟨_, h, h'⟩
  unique h h' := Reference.thread.inj (Option.mem_unique h h')

/-! #### Containers -/

instance : Named (α × β) :=
  ⟨fun R p q => Stands R p.1 q.1 ∧ Stands R p.2 q.2,
    fun h hp => ⟨Named.mono h hp.1, Named.mono h hp.2⟩⟩

instance [LawfulNamed α] [LawfulNamed β] : LawfulNamed (α × β) where
  symm h := ⟨LawfulNamed.symm h.1, LawfulNamed.symm h.2⟩
  trans h h' := ⟨LawfulNamed.trans h.1 h'.1, LawfulNamed.trans h.2 h'.2⟩
  unique h h' := Prod.ext (LawfulNamed.unique h.1 h'.1) (LawfulNamed.unique h.2 h'.2)

instance : Named (Option α) :=
  ⟨fun R => Option.Rel (Stands R), fun h hx => by
    cases hx with
    | none => exact .none
    | some hx => exact .some (Named.mono h hx)⟩

instance : Named (List α) :=
  ⟨fun R => List.Forall₂ (Stands R), fun h => List.Forall₂.imp fun _ _ => Named.mono h⟩

instance [LawfulNamed α] : LawfulNamed (List α) where
  symm h := (h.imp fun _ _ => LawfulNamed.symm).flip
  trans {R S l l' l''} h h' := by
    induction h generalizing l'' with
    | nil =>
      cases h'
      exact .nil
    | cons hx _ ih =>
      cases h' with
      | cons hy h' => exact .cons (LawfulNamed.trans hx hy) (ih h')
  unique {R l l' l''} h h' := by
    induction h generalizing l'' with
    | nil =>
      cases h'
      rfl
    | cons hx _ ih =>
      cases h' with
      | cons hy h' => rw [LawfulNamed.unique hx hy, ih h']

theorem stands_getD {x x' : Option α} {a a' : α} (h : Stands R x x') (ha : Stands R a a') :
    Stands R (x.getD a) (x'.getD a') := by
  cases h with
  | none => exact ha
  | some h => exact h

theorem stands_getElem? {l l' : List α} (h : Stands R l l') (i : Nat) :
    Stands R l[i]? l'[i]? := by
  induction h generalizing i with
  | nil => exact .none
  | cons hx _ ih =>
    cases i with
    | zero => exact .some hx
    | succ i => exact ih i

theorem stands_set {α : Type} [Named α] {l l' : List α} {a a' : α} (h : Stands R l l')
    (ha : Stands R a a') (i : Nat) : Stands R (l.set i a) (l'.set i a') := by
  induction h generalizing i with
  | nil => exact .nil
  | cons hx h ih =>
    cases i with
    | zero => exact .cons ha h
    | succ i => exact .cons hx (ih i)

/-- Numbered elements stand for each other if they have the same number. -/
theorem zipIdx_of_stands {l l' : List α} (h : Stands R l l') (n : Nat) :
    List.Forall₂ (fun x y => Stands R x.1 y.1 ∧ x.2 = y.2) (l.zipIdx n) (l'.zipIdx n) := by
  induction h generalizing n with
  | nil => exact .nil
  | cons hx _ ih => exact .cons ⟨hx, rfl⟩ (ih (n + 1))

/-- Results, or errors, that stand for each other. -/
inductive StandsExcept (R : Renaming) : Except ε α → Except ε α → Prop
  | ok {a b} (h : Stands R a b) : StandsExcept R (.ok a) (.ok b)
  | error {e e'} (h : Stands R e e') : StandsExcept R (.error e) (.error e')

instance : Named (Except ε α) :=
  ⟨StandsExcept, fun h hx => by
    cases hx with
    | ok hx => exact .ok (Named.mono h hx)
    | error hx => exact .error (Named.mono h hx)⟩

instance [LawfulNamed α] [LawfulNamed ε] : LawfulNamed (Except ε α) where
  symm h := by
    cases h with
    | ok h => exact .ok (LawfulNamed.symm h)
    | error h => exact .error (LawfulNamed.symm h)
  trans h h' := by
    cases h with
    | ok h =>
      cases h' with
      | ok h' => exact .ok (LawfulNamed.trans h h')
    | error h =>
      cases h' with
      | error h' => exact .error (LawfulNamed.trans h h')
  unique h h' := by
    cases h with
    | ok h =>
      cases h' with
      | ok h' => rw [LawfulNamed.unique h h']
    | error h =>
      cases h' with
      | error h' => rw [LawfulNamed.unique h h']

instance : Named (α ⊕ β) :=
  ⟨fun R => Sum.LiftRel (Stands R) (Stands R), fun h hx => by
    cases hx with
    | inl hx => exact .inl (Named.mono h hx)
    | inr hx => exact .inr (Named.mono h hx)⟩

/-! #### Values -/

/-- Functions that stand for each other: a built-in one stands for itself. -/
inductive Function.Stand (R : Renaming) : Function → Function → Prop
  | builtin (b : Builtin) : Stand R (.builtin b) (.builtin b)
  | created {i j : Nat} (h : .function j ∈ R (.function i)) : Stand R (.created i) (.created j)

instance : Named Function :=
  ⟨Function.Stand, fun h hf => by
    cases hf with
    | builtin b => exact .builtin b
    | created hf => exact .created (h _ _ hf)⟩

instance : LawfulNamed Function where
  symm h := by
    cases h with
    | builtin b => exact .builtin b
    | created h => exact .created (PEquiv.mem_iff_mem _ |>.mpr h)
  trans h h' := by
    cases h with
    | builtin b =>
      cases h'
      exact .builtin b
    | created h =>
      cases h' with
      | created h' => exact .created ((PEquiv.mem_trans _ _ _ _).mpr ⟨_, h, h'⟩)
  unique h h' := by
    cases h with
    | builtin b =>
      cases h'
      rfl
    | created h =>
      cases h' with
      | created h' => rw [Reference.function.inj (Option.mem_unique h h')]

/-- Values that stand for each other. -/
inductive Value.Stand (R : Renaming) : Value → Value → Prop
  | nil : Stand R .nil .nil
  | boolean (b : Bool) : Stand R (.boolean b) (.boolean b)
  | number (n : Number) : Stand R (.number n) (.number n)
  | string (s : Bytes) : Stand R (.string s) (.string s)
  | function {f g : Function} (h : Stands R f g) : Stand R (.function f) (.function g)
  | thread {t u : ThreadId} (h : Stands R t u) : Stand R (.thread t) (.thread u)
  | table {i j : TableId} (h : Stands R i j) : Stand R (.table i) (.table j)

instance : Named Value :=
  ⟨Value.Stand, fun h hv => by
    cases hv with
    | nil => exact .nil
    | boolean b => exact .boolean b
    | number n => exact .number n
    | string s => exact .string s
    | function hf => exact .function (Named.mono h hf)
    | thread ht => exact .thread (Named.mono h ht)
    | table ht => exact .table (Named.mono h ht)⟩

instance : LawfulNamed Value where
  symm h := by
    cases h with
    | nil => exact .nil
    | boolean b => exact .boolean b
    | number n => exact .number n
    | string s => exact .string s
    | function h => exact .function (LawfulNamed.symm h)
    | thread h => exact .thread (LawfulNamed.symm h)
    | table h => exact .table (PEquiv.mem_iff_mem _ |>.mpr h)
  trans h h' := by
    cases h <;> cases h'
    case nil.nil => exact .nil
    case boolean.boolean b => exact .boolean b
    case number.number n => exact .number n
    case string.string s => exact .string s
    case function.function h _ h' => exact .function (LawfulNamed.trans h h')
    case thread.thread h _ h' => exact .thread (LawfulNamed.trans h h')
    case table.table h _ h' => exact .table ((PEquiv.mem_trans _ _ _ _).mpr ⟨_, h, h'⟩)
  unique h h' := by
    cases h <;> cases h'
    case function.function h _ h' => rw [LawfulNamed.unique h h']
    case thread.thread h _ h' => rw [LawfulNamed.unique h h']
    case table.table h _ h' => rw [Reference.table.inj (Option.mem_unique h h')]
    all_goals rfl

/-! #### Errors -/

theorem ThreadId.number_inj {t u : ThreadId} (h : t.number = u.number) : t = u := by
  obtain ⟨i⟩ := t
  obtain ⟨j⟩ := u
  exact congrArg ThreadId.mk (Nat.succ.inj h)

/-- Trace entries that stand for each other. -/
inductive TraceEntry.Stand (R : Renaming) : TraceEntry → TraceEntry → Prop
  | native (name : String) : Stand R (.native name) (.native name)
  | coroutine {t u : ThreadId} {m n : Nat} (h : Stands R t u) (hm : t.number = m)
      (hn : u.number = n) : Stand R (.coroutine m) (.coroutine n)

instance : Named TraceEntry :=
  ⟨TraceEntry.Stand, fun h he => by
    cases he with
    | native name => exact .native name
    | coroutine ht hm hn => exact .coroutine (Named.mono h ht) hm hn⟩

instance : LawfulNamed TraceEntry where
  symm h := by
    cases h with
    | native name => exact .native name
    | coroutine h hm hn => exact .coroutine (LawfulNamed.symm h) hn hm
  trans h h' := by
    cases h with
    | native name =>
      cases h'
      exact .native name
    | coroutine h hm hn =>
      cases h' with
      | coroutine h' hm' hn' =>
        obtain rfl := ThreadId.number_inj (hn.trans hm'.symm)
        exact .coroutine (LawfulNamed.trans h h') hm hn'
  unique h h' := by
    cases h with
    | native name =>
      cases h'
      rfl
    | coroutine h hm hn =>
      cases h' with
      | coroutine h' hm' hn' =>
        obtain rfl := ThreadId.number_inj (hm.trans hm'.symm)
        rw [← hn, ← hn', LawfulNamed.unique h h']

/-- Causes that stand for each other. -/
inductive Cause.Stand (R : Renaming) : Cause → Cause → Prop
  | argument (e : ArgumentError) : Stand R (.argument e) (.argument e)
  | coroutine (e : CoroutineError) : Stand R (.coroutine e) (.coroutine e)
  | uncaught {c c' : Cause} {s s' : List TraceEntry} (hc : Stand R c c') (hs : Stands R s s') :
      Stand R (.uncaught c s) (.uncaught c' s')
  | user {v v' : Value} (level : Int64) (hv : Stands R v v') :
      Stand R (.user (some v) level) (.user (some v') level)
  | absent (level : Int64) : Stand R (.user none level) (.user none level)
  | memory (e : MemoryError) : Stand R (.memory e) (.memory e)
  | broken (rule : String) : Stand R (.broken rule) (.broken rule)

instance : Named Cause :=
  ⟨Cause.Stand, fun h hc => by
    induction hc with
    | argument e => exact .argument e
    | coroutine e => exact .coroutine e
    | uncaught _ hs ih => exact .uncaught ih (Named.mono h hs)
    | user level hv => exact .user level (Named.mono h hv)
    | absent level => exact .absent level
    | memory e => exact .memory e
    | broken rule => exact .broken rule⟩

instance : LawfulNamed Cause where
  symm h := by
    induction h with
    | argument e => exact .argument e
    | coroutine e => exact .coroutine e
    | uncaught _ hs ih => exact .uncaught ih (LawfulNamed.symm hs)
    | user level hv => exact .user level (LawfulNamed.symm hv)
    | absent level => exact .absent level
    | memory e => exact .memory e
    | broken rule => exact .broken rule
  trans {R S c c' c''} h h' := by
    induction h generalizing c'' with
    | uncaught _ hs ih =>
      cases h' with
      | uncaught hc' hs' => exact .uncaught (ih hc') (LawfulNamed.trans hs hs')
    | user level hv =>
      cases h' with
      | user _ hv' => exact .user level (LawfulNamed.trans hv hv')
    | argument e | coroutine e | absent level | memory e | broken rule =>
      cases h'
      constructor
  unique {R c c' c''} h h' := by
    induction h generalizing c'' with
    | uncaught _ hs ih =>
      cases h' with
      | uncaught hc' hs' => rw [ih hc', LawfulNamed.unique hs hs']
    | user level hv =>
      cases h' with
      | user _ hv' => rw [LawfulNamed.unique hv hv']
    | argument e | coroutine e | absent level | memory e | broken rule =>
      cases h'
      rfl

instance : Named TracedError :=
  ⟨fun R e e' => Stands R e.cause e'.cause ∧ Stands R e.trace e'.trace,
    fun h he => ⟨Named.mono h he.1, Named.mono h he.2⟩⟩

instance : LawfulNamed TracedError where
  symm h := ⟨LawfulNamed.symm h.1, LawfulNamed.symm h.2⟩
  trans h h' := ⟨LawfulNamed.trans h.1 h'.1, LawfulNamed.trans h.2 h'.2⟩
  unique {R e e' e''} h h' := by
    cases e'
    cases e''
    exact congr (congrArg TracedError.mk (LawfulNamed.unique h.1 h'.1))
      (LawfulNamed.unique h.2 h'.2)

/-- Failures of host code that stand for each other. -/
inductive Raised.Stand (R : Renaming) : Raised → Raised → Prop
  | traced {e e' : TracedError} (h : Stands R e e') : Stand R (.traced e) (.traced e')
  | cause {c c' : Cause} (h : Stands R c c') : Stand R (.cause c) (.cause c')

instance : Named Raised :=
  ⟨Raised.Stand, fun h he => by
    cases he with
    | traced he => exact .traced (Named.mono h he)
    | cause hc => exact .cause (Named.mono h hc)⟩

/-- Failures of resumes that stand for each other. -/
inductive ResumeError.Stand (R : Renaming) : ResumeError → ResumeError → Prop
  | refused (e : CoroutineError) : Stand R (.refused e) (.refused e)
  | uncaught {e e' : TracedError} (h : Stands R e e') : Stand R (.uncaught e) (.uncaught e')

instance : Named ResumeError :=
  ⟨ResumeError.Stand, fun h he => by
    cases he with
    | refused e => exact .refused e
    | uncaught he => exact .uncaught (Named.mono h he)⟩

instance : LawfulNamed ResumeError where
  symm h := by
    cases h with
    | refused e => exact .refused e
    | uncaught h => exact .uncaught (LawfulNamed.symm h)
  trans h h' := by
    cases h <;> cases h'
    case refused.refused e => exact .refused e
    case uncaught.uncaught h _ h' => exact .uncaught (LawfulNamed.trans h h')
  unique h h' := by
    cases h <;> cases h'
    case refused.refused e => rfl
    case uncaught.uncaught h _ h' => rw [LawfulNamed.unique h h']

/-! #### Errors on their way -/

namespace TracedError

variable {e e' : TracedError} {c c' : Cause}

theorem stands_leave_native (h : Stands R e e') (name : String) :
    Stands R (e.leave (.native name)) (e'.leave (.native name)) :=
  ⟨h.1, List.rel_append h.2 (.cons (.native name) .nil)⟩

theorem stands_leave_coroutine {t u : ThreadId} (h : Stands R e e') (ht : Stands R t u) :
    Stands R (e.leave (.coroutine t.number)) (e'.leave (.coroutine u.number)) :=
  ⟨h.1, List.rel_append h.2 (.cons (.coroutine ht rfl rfl) .nil)⟩

theorem stands_raisedBy (h : Stands R c c') (name : String) :
    Stands R (raisedBy name c) (raisedBy name c') := ⟨h, .cons (.native name) .nil⟩

theorem stands_untraced (h : Stands R c c') : Stands R (untraced c) (untraced c') := ⟨h, .nil⟩

end TracedError

theorem Raised.stands_leave {x x' : Raised} (h : Stands R x x') (name : String) :
    Stands R (x.leave name) (x'.leave name) := by
  cases h with
  | traced h => exact TracedError.stands_leave_native h name
  | cause h => exact TracedError.stands_raisedBy h name

/-- The values that programs see of errors that stand for each other do so too. -/
theorem Cause.stands_value {c c' : Cause} (h : Stands R c c') : Stands R c.value c'.value := by
  induction h with
  | uncaught _ _ ih => exact ih
  | user _ hv => exact hv
  | absent => exact Value.Stand.nil
  | argument | coroutine | memory | broken => exact Value.Stand.string _

end Lua
