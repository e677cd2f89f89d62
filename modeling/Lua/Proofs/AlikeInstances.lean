/-
Instances stay alike.

Two instances that are alike to a coroutine stay alike when the coroutine does the same on both:

* `Memory.Alike.prepareCall` — calls run functions that stand for each other;
* `World.Twin` — two instances that a coroutine has come to, and what the second one keeps of
  that in which it was entered;
* `World.Twin.modifyThread`, `World.Twin.setMemory`, `World.Twin.define`, `World.Twin.create` — the
  ways in which code changes them;
* `World.Twin.entered`, `World.Twin.left` — the two ends of a resume.

Design notes: only the second instance has to keep what others own there, for the first one is
that of a coroutine which runs alone.
-/
import Lua.Proofs.Privacy

namespace Lua

variable {H : Host} {P : Type} [Named P] {Z : Commons H P} {t : ThreadId}
  {R S T : Renaming}

/-! ### Memories -/

namespace Memory

section Kept

variable {mine mine' : Set Reference} {m n k : Memory H}

omit [Named P]

theorem Kept.refl (m : Memory H) : Kept Z t mine m m :=
  ⟨fun _ h => h, fun _ _ _ => rfl, fun _ _ _ => rfl, rfl, rfl, fun _ _ => rfl⟩

/-- What is someone's own later was so before, or it was not there. -/
theorem Kept.trans (h : Kept Z t mine m n) (h' : Kept Z t mine' n k)
    (ht : ∀ i, .table i ∈ mine' → .table i ∈ mine ∨ ¬ m.Contains (.table i))
    (hw : ∀ c, .walk c ∈ mine' → .walk c ∈ mine ∨ ¬ m.Contains (.walk c)) :
    Kept Z t mine m k where
  contains a ha := h'.contains a (h.contains a ha)
  table i hi hn :=
    (h'.table i (h.contains _ hi) fun hb => (ht _ hb).elim hn (absurd hi)).trans (h.table i hi hn)
  walk c hc hn :=
    (h'.walk c (h.contains _ hc) fun hb => (hw _ hb).elim hn (absurd hc)).trans (h.walk c hc hn)
  metatables := h'.metatables.trans h.metatables
  globals := h'.globals.trans h.globals
  part u hu := (h'.part u hu).trans (h.part u hu)

end Kept

namespace Alike

variable {m m' : Memory H}

/-- Memories stay alike when the renaming grows by a function or a thread. -/
theorem extend {a b : Reference} {ha : R a = none} {hb : R.symm b = none}
    (h : m.Alike Z t R m') (hc : ∀ n : Memory H, n.Contains a ∧ n.Contains b)
    (ht : ∀ i, a ≠ .table i) (hw : ∀ i, a ≠ .walk i) :
    m.Alike Z t (R.extend a b ha hb) m' where
  common x hx := Renaming.le_extend _ _ (h.common x hx)
  contains x y hy := by
    rcases Renaming.mem_extend.mp hy with ⟨rfl, rfl⟩ | hy
    · exact ⟨(hc m).1, (hc m').2⟩
    · exact h.contains x y hy
  table i j hij := Named.mono Renaming.le_extend
    (h.table i j ((Renaming.mem_extend.mp hij).resolve_left fun he => ht i he.1.symm))
  walk i j hij :=
    h.walk i j ((Renaming.mem_extend.mp hij).resolve_left fun he => hw i he.1.symm)
  metatables := Named.mono Renaming.le_extend h.metatables
  globals := h.globals
  part := Named.mono Renaming.le_extend h.part

variable (h : m.Alike Z t R m') {v v' : Value}

include h

/-- What is common to all stands for itself, and for nothing else. -/
theorem own {a b : Reference} (hab : b ∈ R a) (ha : a ∉ Z.references) : b ∉ Z.references :=
  fun hb => ha (by rw [R.inj hab (h.common b hb)]; exact hb)

theorem metatable? (hv : Stands R v v') :
    Stands R (m.heap.metatable? v) (m'.heap.metatable? v') := by
  cases hv with
  | nil => exact .none
  | boolean => exact h.metatables.boolean
  | number => exact h.metatables.number
  | string => exact h.metatables.string
  | function => exact h.metatables.function
  | thread => exact h.metatables.thread
  | table hi => exact (h.table _ _ hi).metatable

theorem metafield (hv : Stands R v v') (name : String) :
    Stands R (m.heap.metafield v name) (m'.heap.metafield v' name) := by
  have hm := h.metatable? hv
  rw [Heap.metafield, Heap.metafield]
  generalize m.heap.metatable? v = i at hm
  generalize m'.heap.metatable? v' = j at hm
  cases hm with
  | none => exact .none
  | some hij => exact Value.stands_notNil? (Table.stands_field (h.table _ _ hij) name)

/-- Calls run functions that stand for each other, on such arguments. -/
theorem prepareCall {f f' : Value} {args args' : List Value} (hf : Stands R f f')
    (ha : Stands R args args') :
    Stands R (m.heap.prepareCall f args) (m'.heap.prepareCall f' args') := by
  have hmeta := h.metafield hf "__call"
  have hself := hf
  cases hf with
  | function hf => exact .ok ⟨hf, ha⟩
  | nil | boolean | number | string | thread | table =>
    -- The value is called through its metatable, if that holds a function.
    simp only [Heap.prepareCall]
    generalize m.heap.metafield _ "__call" = g at hmeta
    generalize m'.heap.metafield _ "__call" = g' at hmeta
    cases hmeta with
    | none => exact .error rfl
    | some hg =>
      cases hg with
      | function hg => exact .ok ⟨hg, .cons hself ha⟩
      | nil | boolean | number | string | thread | table => exact .error rfl

end Alike

end Memory

/-! ### Instances -/

namespace World

section Contains

variable {w : World H} {n : Memory H} {a : Reference}

omit [Named P]

theorem Contains.memory (h : w.Contains a) : w.memory.Contains a := by
  cases a with
  | table | walk => exact h
  | function | thread => exact trivial

theorem contains_setMemory (h : w.Contains a ∨ ¬ w.memory.Contains a) (hn : n.Contains a) :
    ({ w with memory := n } : World H).Contains a := by
  cases a with
  | table | walk => exact hn
  | function | thread => exact h.resolve_right fun h => h trivial

theorem Contains.modifyThread (h : w.Contains a) (u : ThreadId) (f : Thread H → Thread H) :
    (w.modifyThread u f).Contains a := by
  cases a with
  | thread => exact has_modifyThread.mpr h
  | table | walk | function => exact h

theorem Contains.define (h : w.Contains a) (c : Closure H) : (w.define c).2.Contains a := by
  cases a with
  | function i =>
    show i < (w.functions.push c).size
    rw [Array.size_push]
    exact Nat.lt_succ_of_lt h
  | table | walk | thread => exact h

theorem Contains.create (h : w.Contains a) (s : Thread H) :
    ({ w with threads := w.threads.push s } : World H).Contains a := by
  cases a with
  | thread u =>
    show u.index < (w.threads.push s).size
    rw [Array.size_push]
    exact Nat.lt_succ_of_lt h
  | table | walk | function => exact h

theorem contains_define (c : Closure H) :
    (w.define c).2.Contains (.function w.functions.size) := by
  show w.functions.size < (w.functions.push c).size
  rw [Array.size_push]
  exact Nat.lt_succ_self _

theorem contains_create (s : Thread H) :
    ({ w with threads := w.threads.push s } : World H).Contains (.thread ⟨w.threads.size⟩) := by
  show w.threads.size < (w.threads.push s).size
  rw [Array.size_push]
  exact Nat.lt_succ_self _

theorem getElem?_define (c : Closure H) (i : Nat) :
    (w.define c).2.functions[i]? = if i = w.functions.size then some c else w.functions[i]? := by
  show (w.functions.push c)[i]? = _
  rw [Array.getElem?_push]

end Contains

variable [NamedHost H]

namespace Alike

variable {w w' : World H} {u v : ThreadId} (h : w.Alike Z t R w')

include h

/-- A reference to nothing is not renamed yet. -/
theorem eq_none {a : Reference} (ha : ¬ w.Contains a) : R a = none :=
  Renaming.eq_none fun b hb => ha (h.contains a b hb).1

theorem symm_eq_none {b : Reference} (hb : ¬ w'.Contains b) : R.symm b = none :=
  Renaming.symm_eq_none fun a ha => hb (h.contains a b ha).2

theorem current : Stands R w.current w'.current := by
  have hrun := h.running
  rw [World.current, World.current]
  generalize w.running = us at hrun
  generalize w'.running = vs at hrun
  cases hrun with
  | nil => exact h.memory.common _ Z.main
  | cons huv _ => exact huv

/-- Functions that stand for each other have the same name. -/
theorem nameOf {f g : Function} (hf : Stands R f g) : w'.nameOf g = w.nameOf f := by
  cases hf with
  | builtin b => rfl
  | @created i j hf =>
    have hget := h.functions i j hf
    simp only [World.nameOf]
    generalize w.functions[i]? = c at hget
    generalize w'.functions[j]? = c' at hget
    cases hget with
    | none => rfl
    | some hc => exact Closure.name_of_stands hc

/-- Threads that stand for each other change in the same way. -/
theorem modifyThread (huv : Stands R u v) {f g : Thread H → Thread H}
    (hst : (g (w'.thread v)).status = (f (w.thread u)).status)
    (hth : .thread u ∉ Z.references → Stands R (f (w.thread u)) (g (w'.thread v))) :
    (w.modifyThread u f).Alike Z t R (w'.modifyThread v g) := by
  obtain ⟨hu, hv⟩ := h.contains _ _ huv
  -- A thread is the one that changes on both sides or on neither.
  have hiff : ∀ {x y : ThreadId}, Stands R x y → (y = v ↔ x = u) := by
    intro x y hxy
    refine ⟨?_, ?_⟩
    · rintro rfl
      exact Reference.thread.inj (R.inj hxy huv)
    · rintro rfl
      exact Reference.thread.inj (Option.mem_unique hxy huv)
  refine ⟨fun a b hb => ?_, h.memory, h.functions, fun x y hxy => ?_, fun x y hxy hx => ?_,
    h.running, h.hostDepth, h.limits⟩
  · obtain ⟨ha, hb⟩ := h.contains a b hb
    exact ⟨ha.modifyThread u f, hb.modifyThread v g⟩
  · rw [thread_modifyThread hu, thread_modifyThread hv]
    by_cases hx : x = u
    · rw [if_pos hx, if_pos ((hiff hxy).mpr hx)]
      exact hst
    · rw [if_neg hx, if_neg (mt (hiff hxy).mp hx)]
      exact h.statuses x y hxy
  · rw [thread_modifyThread hu, thread_modifyThread hv]
    by_cases hxu : x = u
    · rw [if_pos hxu, if_pos ((hiff hxy).mpr hxu)]
      exact hth (hxu ▸ hx)
    · rw [if_neg hxu, if_neg (mt (hiff hxy).mp hxu)]
      exact h.threads x y hxy hx

theorem setDepth {d d' : Nat} (hd : d' = d) :
    ({ w with hostDepth := d } : World H).Alike Z t R { w' with hostDepth := d' } :=
  { h with hostDepth := hd }

theorem exitHost : w.exitHost.Alike Z t R w'.exitHost :=
  h.setDepth (congrArg (· - 1) h.hostDepth)

/-- The limit allows a level of host depth in both, or in none. -/
theorem enterHost :
    (∃ e, w.enterHost = .error e ∧ w'.enterHost = .error e) ∨
      w.enterHost = .ok { w with hostDepth := w.hostDepth + 1 } ∧
        w'.enterHost = .ok { w' with hostDepth := w'.hostDepth + 1 } := by
  simp only [World.enterHost, h.limits, h.hostDepth]
  by_cases hh : w.limits.maxHostDepth ≤ w.hostDepth
  · rw [if_pos hh, if_pos hh]
    exact .inl ⟨_, rfl, rfl⟩
  · rw [if_neg hh, if_neg hh]
    exact .inr ⟨rfl, rfl⟩

end Alike

/-! ### Twins -/

variable (Z t) in
/-- Two instances that a coroutine has come to in the same way.  The second one keeps what others
own in `e`, where the coroutine was entered and `R` was the renaming. -/
structure Twin (R : Renaming) (e : World H) (S : Renaming) (w w' : World H) : Prop where
  le : R ≤ S
  alike : w.Alike Z t S w'
  fresh : ∀ a b, b ∈ S a → b ∈ R a ∨ ¬ e.Contains b
  kept : e.Kept Z t (Z.own R) w'

theorem Twin.refl {w w' : World H} (h : w.Alike Z t R w') : Twin Z t R w' R w w' :=
  ⟨le_rfl, h, fun _ _ hb => .inl hb, fun _ ha => ha, .refl _, fun _ _ => rfl, fun _ _ _ _ => rfl,
    rfl⟩

namespace Twin

variable {e w w' : World H} {u v : ThreadId} (h : Twin Z t R e S w w')

include h

/-- What is the coroutine's own now was so before, or it was not there. -/
theorem own_of_own {b : Reference} (hb : b ∈ Z.own S) : b ∈ Z.own R ∨ ¬ e.Contains b := by
  obtain ⟨⟨a, ha⟩, hn⟩ := hb
  exact (h.fresh a b ha).imp_left fun ha => ⟨⟨a, ha⟩, hn⟩

/-- A thread that the coroutine knows changes in both. -/
theorem modifyThread (huv : Stands S u v) {f g : Thread H → Thread H}
    (hst : (g (w'.thread v)).status = (f (w.thread u)).status)
    (hth : .thread u ∉ Z.references → Stands S (f (w.thread u)) (g (w'.thread v))) :
    Twin Z t R e S (w.modifyThread u f) (w'.modifyThread v g) := by
  refine ⟨h.le, h.alike.modifyThread huv hst hth, h.fresh,
    fun a ha => (h.kept.contains a ha).modifyThread v g, h.kept.memory, h.kept.functions,
    fun x hx hn hr => ?_, h.kept.limits⟩
  -- It is the coroutine's own, or common to all.
  have hne : x ≠ v := by
    rintro rfl
    rcases h.own_of_own ⟨⟨_, huv⟩, hr⟩ with hx' | hx'
    · exact hn hx'
    · exact hx' hx
  rw [thread_modifyThread_ne hne]
  exact h.kept.threads x hx hn hr

/-- What does not touch the frames, or treats them all alike. -/
theorem changeThread (huv : Stands S u v) (f : Thread H → Thread H)
    (hst : ∀ s s', s'.status = s.status → (f s').status = (f s).status)
    (hth : ∀ s s', Stands S s s' → Stands S (f s) (f s')) :
    Twin Z t R e S (w.modifyThread u f) (w'.modifyThread v f) :=
  h.modifyThread huv (hst _ _ (h.alike.statuses u v huv)) fun hu =>
    hth _ _ (h.alike.threads u v huv hu)

/-- The bookkeeping of the scheduler changes in both. -/
theorem setScheduler {us vs : List ThreadId} {d d' : Nat} (hr : Stands S us vs) (hd : d' = d) :
    Twin Z t R e S { w with running := us, hostDepth := d }
      { w' with running := vs, hostDepth := d' } :=
  ⟨h.le, { h.alike with running := hr, hostDepth := hd }, h.fresh,
    { h.kept with }⟩

/-- The memory changes in both. -/
theorem setMemory {n n' : Memory H}
    (hw : Program.Written Z t S T w.memory w'.memory n n') :
    Twin Z t R e T { w with memory := n } { w' with memory := n' } := by
  have hkept : e.memory.Kept Z t (Z.own R) n' := h.kept.memory.trans hw.kept
    (fun _ => h.own_of_own) fun _ => h.own_of_own
  -- What was created is in the memory, so functions and threads are related as before.
  have hold : ∀ {a b}, b ∈ T a → (∀ m : Memory H, m.Contains a) → b ∈ S a := fun hb ha =>
    (hw.fresh _ _ hb).resolve_right fun hn => hn.1 (ha _)
  refine ⟨h.le.trans hw.le, ⟨fun a b hb => ?_, hw.alike, fun i j hij => ?_, fun x y hxy => ?_,
    fun x y hxy hx => ?_, Named.mono hw.le h.alike.running, h.alike.hostDepth, h.alike.limits⟩,
    fun a b hb => ?_, ⟨fun a ha => ?_, hkept, h.kept.functions, h.kept.threads, h.kept.limits⟩⟩
  · obtain ⟨ha', hb'⟩ := hw.alike.contains a b hb
    rcases hw.fresh a b hb with hb | ⟨ha, hb⟩
    · obtain ⟨ha, hb⟩ := h.alike.contains a b hb
      exact ⟨contains_setMemory (.inl ha) ha', contains_setMemory (.inl hb) hb'⟩
    · exact ⟨contains_setMemory (.inr ha) ha', contains_setMemory (.inr hb) hb'⟩
  · exact Named.mono hw.le (h.alike.functions i j (hold hij fun _ => trivial))
  · exact h.alike.statuses x y (hold hxy fun _ => trivial)
  · exact Named.mono hw.le (h.alike.threads x y (hold hxy fun _ => trivial) hx)
  · rcases hw.fresh a b hb with hb | ⟨-, hb⟩
    · exact h.fresh a b hb
    · exact .inr fun hc => hb (h.kept.contains b hc).memory
  · exact contains_setMemory (.inl (h.kept.contains a ha)) (hkept.contains a ha.memory)

/-- The coroutine creates functions that stand for each other. -/
theorem define {c c' : Closure H} (hc : Stands S c c') :
    ∃ T, S ≤ T ∧ Twin Z t R e T (w.define c).2 (w'.define c').2 ∧
      Stands T (w.define c).1 (w'.define c').1 := by
  have hn : ¬ w.Contains (.function w.functions.size) := Nat.lt_irrefl _
  have hn' : ¬ w'.Contains (.function w'.functions.size) := Nat.lt_irrefl _
  set T := S.extend _ _ (h.alike.eq_none hn) (h.alike.symm_eq_none hn') with hT
  have hle : S ≤ T := Renaming.le_extend
  have hmem : ∀ {a b}, b ∈ T a → (a = .function w.functions.size ∧
      b = .function w'.functions.size) ∨ b ∈ S a := Renaming.mem_extend.mp
  refine ⟨T, hle, ⟨h.le.trans hle, ⟨fun a b hb => ?_, ?_, fun i j hij => ?_, fun x y hxy => ?_,
    fun x y hxy hx => ?_, Named.mono hle h.alike.running, h.alike.hostDepth, h.alike.limits⟩,
    fun a b hb => ?_, ⟨fun a ha => (h.kept.contains a ha).define c', h.kept.memory,
      fun i hi => ?_, h.kept.threads, h.kept.limits⟩⟩, .created Renaming.mem_extend_self⟩
  · rcases hmem hb with ⟨rfl, rfl⟩ | hb
    · exact ⟨contains_define c, contains_define c'⟩
    · obtain ⟨ha, hb⟩ := h.alike.contains a b hb
      exact ⟨ha.define c, hb.define c'⟩
  · exact h.alike.memory.extend (fun _ => ⟨trivial, trivial⟩) (fun _ => nofun) fun _ => nofun
  · rw [getElem?_define, getElem?_define]
    rcases hmem hij with ⟨hi, hj⟩ | hij
    · rw [if_pos (Reference.function.inj hi), if_pos (Reference.function.inj hj)]
      exact .some (Named.mono hle hc)
    · obtain ⟨hi, hj⟩ := h.alike.contains _ _ hij
      rw [if_neg (Nat.ne_of_lt hi), if_neg (Nat.ne_of_lt hj)]
      exact Named.mono hle (h.alike.functions i j hij)
  · exact h.alike.statuses x y ((hmem hxy).resolve_left fun he => nomatch he.1)
  · exact Named.mono hle (h.alike.threads x y ((hmem hxy).resolve_left fun he => nomatch he.1) hx)
  · rcases hmem hb with ⟨-, rfl⟩ | hb
    · exact .inr fun hc => hn' (h.kept.contains _ hc)
    · exact h.fresh a b hb
  · rw [getElem?_define, if_neg (Nat.ne_of_lt (h.kept.contains _ hi))]
    exact h.kept.functions i hi

/-- The coroutine creates coroutines whose bodies stand for each other. -/
theorem create {f f' : Value} (hf : Stands S f f') :
    ∃ T, S ≤ T ∧ Twin Z t R e T
        { w with threads := w.threads.push (.fresh .suspended (some f)) }
        { w' with threads := w'.threads.push (.fresh .suspended (some f')) } ∧
      Stands T (⟨w.threads.size⟩ : ThreadId) (⟨w'.threads.size⟩ : ThreadId) := by
  have hn : ¬ w.Contains (.thread ⟨w.threads.size⟩) := Nat.lt_irrefl _
  have hn' : ¬ w'.Contains (.thread ⟨w'.threads.size⟩) := Nat.lt_irrefl _
  set T := S.extend _ _ (h.alike.eq_none hn) (h.alike.symm_eq_none hn') with hT
  have hle : S ≤ T := Renaming.le_extend
  have hmem : ∀ {a b}, b ∈ T a → (a = .thread ⟨w.threads.size⟩ ∧
      b = .thread ⟨w'.threads.size⟩) ∨ b ∈ S a := Renaming.mem_extend.mp
  have hne : ∀ {x y : ThreadId}, Stands S x y → x ≠ ⟨w.threads.size⟩ ∧ y ≠ ⟨w'.threads.size⟩ := by
    intro x y hxy
    obtain ⟨hx, hy⟩ := h.alike.contains _ _ hxy
    exact ⟨fun he => hn (he ▸ hx), fun he => hn' (he ▸ hy)⟩
  have hfresh : Stands T (Thread.fresh .suspended (some f) : Thread H)
      (.fresh .suspended (some f')) := Thread.Stand.fresh _ (.some (Named.mono hle hf))
  refine ⟨T, hle, ⟨h.le.trans hle, ⟨fun a b hb => ?_, ?_, fun i j hij => ?_, fun x y hxy => ?_,
    fun x y hxy hx => ?_, Named.mono hle h.alike.running, h.alike.hostDepth, h.alike.limits⟩,
    fun a b hb => ?_, ⟨fun a ha => (h.kept.contains a ha).create _, h.kept.memory,
      h.kept.functions, fun x hx hx' hr => ?_, h.kept.limits⟩⟩, Renaming.mem_extend_self⟩
  · rcases hmem hb with ⟨rfl, rfl⟩ | hb
    · exact ⟨contains_create _, contains_create _⟩
    · obtain ⟨ha, hb⟩ := h.alike.contains a b hb
      exact ⟨ha.create _, hb.create _⟩
  · exact h.alike.memory.extend (fun _ => ⟨trivial, trivial⟩) (fun _ => nofun) fun _ => nofun
  · exact Named.mono hle
      (h.alike.functions i j ((hmem hij).resolve_left fun he => nomatch he.1))
  · rw [thread_push, thread_push]
    rcases hmem hxy with ⟨hx, hy⟩ | hxy
    · rw [if_pos (Reference.thread.inj hx), if_pos (Reference.thread.inj hy)]
      rfl
    · rw [if_neg (hne hxy).1, if_neg (hne hxy).2]
      exact h.alike.statuses x y hxy
  · rw [thread_push, thread_push]
    rcases hmem hxy with ⟨hx, hy⟩ | hxy
    · rw [if_pos (Reference.thread.inj hx), if_pos (Reference.thread.inj hy)]
      exact hfresh
    · rw [if_neg (hne hxy).1, if_neg (hne hxy).2]
      exact Named.mono hle (h.alike.threads x y hxy hx)
  · rcases hmem hb with ⟨-, rfl⟩ | hb
    · exact .inr fun hc => hn' (h.kept.contains _ hc)
    · exact h.fresh a b hb
  · have hold : x ≠ ⟨w'.threads.size⟩ := fun he =>
      hn' (he ▸ h.kept.contains (.thread x) hx)
    rw [thread_push, if_neg hold]
    exact h.kept.threads x hx hx' hr

/-! #### The scheduler -/

theorem exitHost : Twin Z t R e S w.exitHost w'.exitHost :=
  h.setScheduler h.alike.running (congrArg (· - 1) h.alike.hostDepth)

/-- The coroutine resumes threads that stand for each other. -/
theorem entered (huv : Stands S u v) : Twin Z t R e S (w.entered u) (w'.entered v) := by
  have hcur := h.alike.current
  have hwait := h.changeThread hcur (fun s => { s with status := .normal }) (fun _ _ _ => rfl)
    fun _ _ hs => { hs with status := rfl }
  have hrun := hwait.modifyThread huv (f := fun s =>
      { s with status := .running, resumer := some w.current })
    (g := fun s => { s with status := .running, resumer := some w'.current }) rfl fun hu =>
      { hwait.alike.threads u v huv hu with status := rfl, resumer := .some hcur }
  exact hrun.setScheduler (.cons huv h.alike.running) (congrArg (· + 1) h.alike.hostDepth)

/-- The resumed threads hand control back. -/
theorem left {c d : ThreadId} {oc oc' : Outcome} (huv : Stands S u v) (hcd : Stands S c d)
    (ho : Stands S oc oc') : Twin Z t R e S (w.left u c oc) (w'.left v d oc') := by
  have hwake := h.changeThread hcd (fun s => { s with status := .running }) (fun _ _ _ => rfl)
    fun _ _ hs => { hs with status := rfl }
  have hend := hwake.modifyThread huv (f := fun s =>
      { s with status := oc.status, resumer := none, frames := oc.keep s.frames })
    (g := fun s => { s with status := oc'.status, resumer := none, frames := oc'.keep s.frames })
    (Outcome.status_of_stands ho) fun hu => by
      have hs := hwake.alike.threads u v huv hu
      exact { hs with
        status := (Outcome.status_of_stands ho).symm
        resumer := .none
        frames := Outcome.stands_keep ho hs.frames }
  refine hend.setScheduler ?_ (congrArg (· - 1) h.alike.hostDepth)
  have hrun := h.alike.running
  generalize w.running = us at hrun
  generalize w'.running = vs at hrun
  cases hrun with
  | nil => exact .nil
  | cons _ hrun => exact hrun

/-- The coroutine closes threads that stand for each other. -/
theorem closed (huv : Stands S u v) : Twin Z t R e S (w.closed u) (w'.closed v) :=
  h.changeThread huv _ (fun _ _ _ => rfl) fun _ _ hs =>
    { hs with status := rfl, body := .none, frames := .nil }

end Twin

end World

end Lua
