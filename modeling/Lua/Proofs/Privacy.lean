/-
Code that keeps to itself.

A coroutine knows some references: its own thread, tables, functions, walks and coroutines that no
other coroutine knows, and what it creates itself.  Beside them there is what all coroutines may
know, but none of them changes.  Code keeps to itself if it depends on nothing else and changes
nothing else.  Both are properties of two runs, whose references are renamed:

* `Commons` — what coroutines have in common;
* `Memory.Alike`, `World.Alike` — instances that a coroutine cannot tell apart;
* `Memory.Kept`, `World.Kept` — what is not the coroutine's own is as it was;
* `Program.Same` — programs that do the same on two memories;
* `Program.PrivateAt` — code that does the same wherever it gets what stands for its input;
* `Machine.Confined` — the next move begins nothing but private code;
* `Program.Same.bind` — what follows a program does the same if the program does.

Design notes: a program may create tables, functions and coroutines, and may call functions, go
round loops, and resume and close coroutines that it knows.  New references have numbers that tell
what others have created, so the two runs number them differently: after a request that may have
brought new references the renaming has grown, and what follows must do the same under any larger
one.  Of the coroutines that wait outside, and of the main thread, code sees no more than the
status.  What is printed and drawn at random belongs to no one, and is not compared.
-/
import Lua.Proofs.RenamedStates
import Lua.Proofs.Stretches

namespace Lua

variable {H : Host} [NamedHost H] {P : Type} [Named P]

/-! ### What is known -/

/-- What coroutines have in common: the references that all of them may know, and how the data of
the host is divided among them. -/
structure Commons (H : Host) (P : Type) where
  references : Set Reference
  main : .thread .main ∈ references
  part : ThreadId → H.Shared → P

/-- The references on the right of a renaming that are not common to all. -/
def Commons.own (Z : Commons H P) (R : Renaming) : Set Reference :=
  {b | (∃ a, b ∈ R a) ∧ b ∉ Z.references}

/-- Whether a reference to a part of the memory refers to something there. -/
def Memory.Contains (m : Memory H) : Reference → Prop
  | .table i => i.index < m.heap.tables.size
  | .walk c => c < m.walks.size
  | .function _ | .thread _ => True

/-- Whether a reference refers to something in an instance. -/
def World.Contains (w : World H) : Reference → Prop
  | .table i => w.memory.Contains (.table i)
  | .walk c => w.memory.Contains (.walk c)
  | .function i => i < w.functions.size
  | .thread t => w.Has t

variable (Z : Commons H P) (t : ThreadId)

/-! ### Memories -/

namespace Memory

/-- Two memories that are alike to the coroutine `t`: what it knows in one stands for what it
knows in the other. -/
structure Alike (R : Renaming) (m m' : Memory H) : Prop where
  common : ∀ a ∈ Z.references, a ∈ R a
  contains : ∀ a b, b ∈ R a → m.Contains a ∧ m'.Contains b
  table : ∀ i j : TableId, Stands R i j → Stands R (m.heap.table i) (m'.heap.table j)
  walk : ∀ i j, .walk j ∈ R (.walk i) → m'.walks[j]? = m.walks[i]?
  metatables : Stands R m.heap.metatables m'.heap.metatables
  globals : m'.heap.globals = m.heap.globals
  part : Stands R (Z.part t m.shared) (Z.part t m'.shared)

/-- A memory in which nothing has changed but what is the coroutine's own. -/
structure Kept (mine : Set Reference) (m n : Memory H) : Prop where
  contains : ∀ a, m.Contains a → n.Contains a
  table : ∀ i, m.Contains (.table i) → .table i ∉ mine → n.heap.table i = m.heap.table i
  walk : ∀ c, m.Contains (.walk c) → .walk c ∉ mine → n.walks[c]? = m.walks[c]?
  metatables : n.heap.metatables = m.heap.metatables
  globals : n.heap.globals = m.heap.globals
  part : ∀ u, u ≠ t → Z.part u n.shared = Z.part u m.shared

end Memory

/-! ### Instances -/

namespace World

/-- Two instances that are alike to the coroutine `t`. -/
structure Alike (R : Renaming) (w w' : World H) : Prop where
  contains : ∀ a b, b ∈ R a → w.Contains a ∧ w'.Contains b
  memory : w.memory.Alike Z t R w'.memory
  functions : ∀ i j, .function j ∈ R (.function i) → Stands R w.functions[i]? w'.functions[j]?
  statuses : ∀ u v : ThreadId, Stands R u v → (w'.thread v).status = (w.thread u).status
  threads : ∀ u v : ThreadId, Stands R u v → .thread u ∉ Z.references →
    Stands R (w.thread u) (w'.thread v)
  running : Stands R w.running w'.running
  hostDepth : w'.hostDepth = w.hostDepth
  limits : w'.limits = w.limits

/-- An instance in which nothing has changed but what is the coroutine's own, and the threads that
are common to all. -/
structure Kept (mine : Set Reference) (w v : World H) : Prop where
  contains : ∀ a, w.Contains a → v.Contains a
  memory : w.memory.Kept Z t mine v.memory
  functions : ∀ i, w.Contains (.function i) → v.functions[i]? = w.functions[i]?
  threads : ∀ u, w.Has u → .thread u ∉ mine → .thread u ∉ Z.references → v.thread u = w.thread u
  limits : v.limits = w.limits

end World

/-! ### Programs -/

namespace Program

variable {α β γ : Type} [Named α] [Named β] [Named γ]

/-- Memories that are written in place of memories that were alike.  They are alike again, with
what was created, and what is not the coroutine's own stays as it was. -/
structure Written (R S : Renaming) (m m' n n' : Memory H) : Prop where
  le : R ≤ S
  alike : n.Alike Z t S n'
  fresh : ∀ a b, b ∈ S a → b ∈ R a ∨ ¬ m.Contains a ∧ ¬ m'.Contains b
  kept : m'.Kept Z t (Z.own R) n'

/-- Programs that do the same on two memories.  What they read may differ in what the coroutine
does not know, what they write leaves that as it is, and they ask for things that stand for each
other. -/
inductive Same : Renaming → Memory H → Memory H → Program H α → Program H α → Prop
  | done {R m m' a a'} (h : Stands R a a') : Same R m m' (.done a) (.done a')
  | fail {R m m' e e'} (h : Stands R e e') : Same R m m' (.fail e) (.fail e')
  | read {R m m' rest rest'} (h : ∀ w w', w.memory = m → w'.memory = m' → w.Alike Z t R w' →
      Same R m m' (rest w) (rest' w')) : Same R m m' (.read rest) (.read rest')
  | write {R S m m' n n' rest rest'} (hw : Written Z t R S m m' n n')
      (h : Same S n n' (rest ()) (rest' ())) : Same R m m' (.write n rest) (.write n' rest')
  | define {R m m' c c' rest rest'} (hc : Stands R c c')
      (h : ∀ S f f', R ≤ S → m.Alike Z t S m' → Stands S f f' →
        Same S m m' (rest f) (rest' f')) : Same R m m' (.define c rest) (.define c' rest')
  | call {R m m' f f' args args' rest rest'} (hf : Stands R f f') (ha : Stands R args args')
      (h : ∀ S n n' r r', R ≤ S → n.Alike Z t S n' → Stands S r r' →
        Same S n n' (rest r) (rest' r')) : Same R m m' (.call f args rest) (.call f' args' rest')
  | resume {R m m' u v args args' rest rest'} (hu : Stands R u v) (ha : Stands R args args')
      (h : ∀ S n n' r r', R ≤ S → n.Alike Z t S n' → Stands S r r' →
        Same S n n' (rest r) (rest' r')) :
      Same R m m' (.resume u args rest) (.resume v args' rest')
  | create {R m m' body body' rest rest'} (hb : Stands R body body')
      (h : ∀ S r r', R ≤ S → m.Alike Z t S m' → Stands S r r' →
        Same S m m' (rest r) (rest' r')) :
      Same R m m' (.create body rest) (.create body' rest')
  | close {R m m' u v rest rest'} (hu : Stands R u v)
      (h : ∀ r, Same R m m' (rest r) (rest' r)) : Same R m m' (.close u rest) (.close v rest')
  | loop {R m m' s s' rest rest'} (hs : Stands R s s')
      (h : ∀ S n n' a a', R ≤ S → n.Alike Z t S n' → Stands S a a' →
        Same S n n' (rest a) (rest' a')) : Same R m m' (.loop s rest) (.loop s' rest')

/-- Code that depends on nothing but what is the coroutine's own or common, and changes nothing
but what is its own, when it gets the input `x` with the memory `m`. -/
def PrivateAt (m : Memory H) (F : α → Program H β) (x : α) : Prop :=
  ∀ R m' x', m.Alike Z t R m' → Stands R x x' → Same Z t R m m' (F x) (F x')

variable {Z t} {R : Renaming} {m m' : Memory H}

/-- What follows a program does the same if the program does. -/
theorem Same.bind {p p' : Program H α} {f f' : α → Program H β} (h : Same Z t R m m' p p')
    (hm : m.Alike Z t R m')
    (hf : ∀ S n n' a a', R ≤ S → n.Alike Z t S n' → Stands S a a' →
      Same Z t S n n' (f a) (f' a')) : Same Z t R m m' (p.bind f) (p'.bind f') := by
  induction h with
  | done h => exact hf _ _ _ _ _ le_rfl hm h
  | fail h => exact .fail h
  | read _ ih => exact .read fun w w' hw hw' ha => ih w w' hw hw' ha hm hf
  | write hw _ ih =>
    exact .write hw (ih hw.alike fun S n n' a a' hS => hf S n n' a a' (hw.le.trans hS))
  | define hc _ ih =>
    exact .define hc fun S g g' hS hn hg =>
      ih S g g' hS hn hg hn fun T n n' a a' hT => hf T n n' a a' (hS.trans hT)
  | call hg ha _ ih =>
    exact .call hg ha fun S n n' r r' hS hn hr =>
      ih S n n' r r' hS hn hr hn fun T k k' a a' hT => hf T k k' a a' (hS.trans hT)
  | resume hu ha _ ih =>
    exact .resume hu ha fun S n n' r r' hS hn hr =>
      ih S n n' r r' hS hn hr hn fun T k k' a a' hT => hf T k k' a a' (hS.trans hT)
  | create hb _ ih =>
    exact .create hb fun S r r' hS hn hr =>
      ih S r r' hS hn hr hn fun T k k' a a' hT => hf T k k' a a' (hS.trans hT)
  | close hu _ ih => exact .close hu fun r => ih r hm hf
  | loop hs _ ih =>
    exact .loop hs fun S n n' a a' hS hn ha =>
      ih S n n' a a' hS hn ha hn fun T k k' b b' hT => hf T k k' b b' (hS.trans hT)

/-- A computation that may fail for an argument, and what follows it. -/
theorem Same.ofArgument {r r' : Except ArgumentError α} {f f' : α → Program H β}
    (hr : Stands R r r') (h : ∀ a a', r = .ok a → Stands R a a' → Same Z t R m m' (f a) (f' a')) :
    Same Z t R m m' ((ofArgument r).bind f) ((ofArgument r').bind f') := by
  cases hr with
  | ok ha => exact h _ _ rfl ha
  | error he =>
    cases he
    exact .fail (Raised.Stand.cause (Cause.Stand.argument _))

end Program

/-! ### Moves -/

/-- A created function whose code is private when it is called with `args`. -/
def Behaviour.PrivateClosure (B : Behaviour H) (m : Memory H) (args : List Value) :
    Closure H → Prop
  | .native c => Program.PrivateAt Z t m (fun x : NativeClosure H × List Value => B.native x.1 x.2)
      (c, args)
  | .sequence c => ∀ R c', Stands R c c' → Stands R (B.start c) (B.start c')

/-- A function whose code is private when it is called with `args`. -/
def Behaviour.PrivateEntry (B : Behaviour H) (w : World H) (f : Function) (args : List Value) :
    Prop :=
  match f with
  | .builtin b => Program.PrivateAt Z t w.memory (B.builtin b) args
  | .created i => ∀ c, w.functions[i]? = some c → B.PrivateClosure Z t w.memory args c

/-- A call that a coroutine may make. -/
def World.Callable (B : Behaviour H) (w : World H) (callee : Value) (args : List Value) : Prop :=
  ∀ f vs, w.memory.heap.prepareCall callee args = .ok (f, vs) → B.PrivateEntry Z t w f vs

namespace Machine

omit [NamedHost H] in
/-- The calls that the next move begins: those that the code asks for, and the call of the body
of a coroutine. -/
inductive Begins : Machine H → Value → List Value → Prop
  | host {w s o callee args rest} : Begins ⟨w, s, .host o (.call callee args rest)⟩ callee args
  | call {w s name callee args next} :
      Begins ⟨w, s, .host (.poll name) (.done (.call callee args next))⟩ callee args
  | tailCall {w s name callee args} :
      Begins ⟨w, s, .host (.poll name) (.done (.tailCall callee args))⟩ callee args
  | body {w s o u args rest f} (hf : (w.thread u).body = some f) :
      Begins ⟨w, s, .host o (.resume u args rest)⟩ f args

/-- The next move begins nothing but code that is private to the coroutine. -/
structure Confined (B : Behaviour H) (m : Machine H) : Prop where
  called : ∀ callee args, m.Begins callee args → m.world.Callable Z t B callee args
  polled : ∀ b s input f below, m.stack = b :: s → m.control = .drive input →
    (m.world.thread b.thread).frames = f :: below → b.base ≤ below.length →
    Program.PrivateAt Z t m.world.memory (fun x : Frame H × Input => B.goOn x.1 x.2) (f, input)
  looped : ∀ o s rest, m.control = .host o (.loop s rest) →
    Program.PrivateAt Z t m.world.memory B.advance s

end Machine

end Lua
