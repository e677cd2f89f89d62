/-
Library functions that keep to themselves.

Many functions of the standard libraries depend on nothing but what they are given, and change
nothing but what is the coroutine's own.  Among them are those that create tables, functions and
coroutines, and those that resume and close them:

* `Memory.Alike.allocate`, `Memory.Alike.store` — creating a table, and replacing one;
* `Memory.Alike.pushWalk`, `Memory.Alike.setWalk` — the same for the walks along matches;
* `stands_argument`, `argument_of_stands` — arguments, as references or as plain data;
* `Library.Tables.private_pack`, `Library.Base.private_rawset` — creating and changing a table;
* `Library.Coroutines.private_create`, `private_wrap`, `private_resume`, `private_close` — the
  functions on coroutines;
* `Library.Strings.private_gmatch`, `Library.Strings.private_walkStep` — creating a walk with the
  function that goes on along it, and going on;
* `Behaviour.private_wrap`, `Behaviour.private_walk` — the functions that they created;
* `Behaviour.private_yield`, `Behaviour.private_protectedCall` — the sequences of the libraries.
-/
import Lua.Proofs.AlikeInstances
import Lua.Proofs.ItemWrites
import Lua.Library.Registry

namespace Lua

variable {H : Host} {P : Type} [Named P] {Z : Commons H P} {t : ThreadId} {R : Renaming}

open Program

/-! ### Writing -/

namespace Memory

section Contains

variable {m : Memory H} {a : Reference} {x : MatchWalk}

omit [Named P]

theorem Contains.allocate (h : m.Contains a) (content : Table) :
    (m.allocate content).2.Contains a := by
  cases a with
  | table i =>
    show i.index < (m.heap.tables.push content).size
    rw [Array.size_push]
    exact Nat.lt_succ_of_lt h
  | walk | function | thread => exact h

theorem contains_allocate (m : Memory H) (content : Table) :
    (m.allocate content).2.Contains (.table (m.allocate content).1) := by
  show m.heap.tables.size < (m.heap.tables.push content).size
  rw [Array.size_push]
  exact Nat.lt_succ_self _

theorem Contains.store (h : m.Contains a) (i : TableId) (content : Table) :
    ({ m with heap := m.heap.store i content } : Memory H).Contains a := by
  cases a with
  | table j =>
    show j.index < (m.heap.tables.setIfInBounds i.index content).size
    rw [Array.size_setIfInBounds]
    exact h
  | walk | function | thread => exact h

theorem Contains.pushWalk (h : m.Contains a) (x : MatchWalk) :
    ({ m with walks := m.walks.push x } : Memory H).Contains a := by
  cases a with
  | walk c =>
    show c < (m.walks.push x).size
    rw [Array.size_push]
    exact Nat.lt_succ_of_lt h
  | table | function | thread => exact h

theorem contains_pushWalk (m : Memory H) (x : MatchWalk) :
    ({ m with walks := m.walks.push x } : Memory H).Contains (.walk m.walks.size) := by
  show m.walks.size < (m.walks.push x).size
  rw [Array.size_push]
  exact Nat.lt_succ_self _

theorem Contains.setWalk (h : m.Contains a) (c : Nat) (x : MatchWalk) :
    ({ m with walks := m.walks.setIfInBounds c x } : Memory H).Contains a := by
  cases a with
  | walk d =>
    show d < (m.walks.setIfInBounds c x).size
    rw [Array.size_setIfInBounds]
    exact h
  | table | function | thread => exact h

end Contains

namespace Alike

variable {m m' : Memory H} (h : m.Alike Z t R m')

include h

theorem eq_none {a : Reference} (ha : ¬ m.Contains a) : R a = none :=
  Renaming.eq_none fun b hb => ha (h.contains a b hb).1

theorem symm_eq_none {b : Reference} (hb : ¬ m'.Contains b) : R.symm b = none :=
  Renaming.symm_eq_none fun a ha => hb (h.contains a b ha).2

/-- Memories stay alike with tables that were created and stand for each other. -/
theorem allocate {c c' : Table} (hc : Stands R c c') :
    ∃ S, Written Z t R S m m' (m.allocate c).2 (m'.allocate c').2 ∧
      Stands S (m.allocate c).1 (m'.allocate c').1 := by
  have hn : ¬ m.Contains (.table (m.allocate c).1) := Nat.lt_irrefl _
  have hn' : ¬ m'.Contains (.table (m'.allocate c').1) := Nat.lt_irrefl _
  set S := R.extend _ _ (h.eq_none hn) (h.symm_eq_none hn') with hS
  have hle : R ≤ S := Renaming.le_extend
  have hmem : ∀ {a b}, b ∈ S a → (a = .table (m.allocate c).1 ∧ b = .table (m'.allocate c').1) ∨
      b ∈ R a := Renaming.mem_extend.mp
  refine ⟨S, ⟨hle, ⟨fun a ha => hle _ _ (h.common a ha), fun a b hb => ?_, fun i j hij => ?_,
    fun i j hij => ?_, Named.mono hle h.metatables, h.globals, Named.mono hle h.part⟩,
    fun a b hb => ?_, ⟨fun a ha => ha.allocate c', fun i hi _ => Heap.table_allocate_of_lt hi,
      fun _ _ _ => rfl, rfl, rfl, fun _ _ => rfl⟩⟩, Renaming.mem_extend_self⟩
  · rcases hmem hb with ⟨rfl, rfl⟩ | hb
    · exact ⟨m.contains_allocate c, m'.contains_allocate c'⟩
    · obtain ⟨ha, hb⟩ := h.contains a b hb
      exact ⟨ha.allocate c, hb.allocate c'⟩
  · rcases hmem hij with ⟨hi, hj⟩ | hij
    · obtain rfl := Reference.table.inj hi
      obtain rfl := Reference.table.inj hj
      have htab : (m.allocate c).2.heap.table (m.allocate c).1 = c := Heap.table_allocate
      have htab' : (m'.allocate c').2.heap.table (m'.allocate c').1 = c' := Heap.table_allocate
      rw [htab, htab']
      exact Named.mono hle hc
    · obtain ⟨hi, hj⟩ := h.contains _ _ hij
      show Stands S ((m.heap.allocate c).2.table i) ((m'.heap.allocate c').2.table j)
      rw [Heap.table_allocate_of_lt hi, Heap.table_allocate_of_lt hj]
      exact Named.mono hle (h.table i j hij)
  · exact h.walk i j ((hmem hij).resolve_left fun he => nomatch he.1)
  · rcases hmem hb with ⟨rfl, rfl⟩ | hb
    · exact .inr ⟨hn, hn'⟩
    · exact .inl hb

/-- Memories stay alike when tables that are the coroutine's own are replaced. -/
theorem store {i j : TableId} {c c' : Table} (hij : Stands R i j) (hi : .table i ∉ Z.references)
    (hc : Stands R c c') :
    Written Z t R R m m' { m with heap := m.heap.store i c }
      { m' with heap := m'.heap.store j c' } := by
  obtain ⟨hin, hin'⟩ := h.contains _ _ hij
  refine ⟨le_rfl, ⟨h.common, fun a b hb => ?_, fun k l hkl => ?_, h.walk, h.metatables,
    h.globals, h.part⟩, fun _ _ hb => .inl hb, ⟨fun a ha => ha.store j c', fun k hk hn => ?_,
      fun _ _ _ => rfl, rfl, rfl, fun _ _ => rfl⟩⟩
  · obtain ⟨ha, hb⟩ := h.contains a b hb
    exact ⟨ha.store i c, hb.store j c'⟩
  · show Stands R ((m.heap.store i c).table k) ((m'.heap.store j c').table l)
    by_cases hki : k = i
    · subst hki
      obtain rfl := Reference.table.inj (Option.mem_unique hkl hij)
      rw [Heap.table_store hin, Heap.table_store hin']
      exact hc
    · have hlj : l ≠ j := by
        rintro rfl
        exact hki (Reference.table.inj (R.inj hkl hij))
      rw [Heap.table_store_ne hki, Heap.table_store_ne hlj]
      exact h.table k l hkl
  · refine Heap.table_store_ne ?_
    rintro rfl
    exact hn ⟨⟨_, hij⟩, h.own hij hi⟩

/-- Memories stay alike with the same walk in each of them. -/
theorem pushWalk (x : MatchWalk) :
    ∃ S, Written Z t R S m m' { m with walks := m.walks.push x }
        { m' with walks := m'.walks.push x } ∧
      .walk m'.walks.size ∈ S (.walk m.walks.size) := by
  have hn : ¬ m.Contains (.walk m.walks.size) := Nat.lt_irrefl _
  have hn' : ¬ m'.Contains (.walk m'.walks.size) := Nat.lt_irrefl _
  set S := R.extend _ _ (h.eq_none hn) (h.symm_eq_none hn') with hS
  have hle : R ≤ S := Renaming.le_extend
  have hmem : ∀ {a b}, b ∈ S a → (a = .walk m.walks.size ∧ b = .walk m'.walks.size) ∨
      b ∈ R a := Renaming.mem_extend.mp
  refine ⟨S, ⟨hle, ⟨fun a ha => hle _ _ (h.common a ha), fun a b hb => ?_, fun i j hij => ?_,
    fun i j hij => ?_, Named.mono hle h.metatables, h.globals, Named.mono hle h.part⟩,
    fun a b hb => ?_, ⟨fun a ha => ha.pushWalk x, fun _ _ _ => rfl, fun c hc _ => ?_, rfl, rfl,
      fun _ _ => rfl⟩⟩, Renaming.mem_extend_self⟩
  · rcases hmem hb with ⟨rfl, rfl⟩ | hb
    · exact ⟨m.contains_pushWalk x, m'.contains_pushWalk x⟩
    · obtain ⟨ha, hb⟩ := h.contains a b hb
      exact ⟨ha.pushWalk x, hb.pushWalk x⟩
  · exact Named.mono hle (h.table i j ((hmem hij).resolve_left fun he => nomatch he.1))
  · show (m'.walks.push x)[j]? = (m.walks.push x)[i]?
    rcases hmem hij with ⟨hi, hj⟩ | hij
    · rw [Reference.walk.inj hi, Reference.walk.inj hj, Array.getElem?_push_size,
        Array.getElem?_push_size]
    · obtain ⟨hi, hj⟩ := h.contains _ _ hij
      rw [Array.getElem?_push, Array.getElem?_push, if_neg (Nat.ne_of_lt hi),
        if_neg (Nat.ne_of_lt hj)]
      exact h.walk i j hij
  · rcases hmem hb with ⟨rfl, rfl⟩ | hb
    · exact .inr ⟨hn, hn'⟩
    · exact .inl hb
  · show (m'.walks.push x)[c]? = _
    rw [Array.getElem?_push, if_neg (Nat.ne_of_lt hc)]

/-- Memories stay alike when walks that are the coroutine's own go on in the same way. -/
theorem setWalk {i j : Nat} (hij : .walk j ∈ R (.walk i)) (hi : .walk i ∉ Z.references)
    (x : MatchWalk) :
    Written Z t R R m m' { m with walks := m.walks.setIfInBounds i x }
      { m' with walks := m'.walks.setIfInBounds j x } := by
  obtain ⟨hin, hin'⟩ := h.contains _ _ hij
  refine ⟨le_rfl, ⟨h.common, fun a b hb => ?_, h.table, fun k l hkl => ?_, h.metatables,
    h.globals, h.part⟩, fun _ _ hb => .inl hb, ⟨fun a ha => ha.setWalk j x, fun _ _ _ => rfl,
      fun c hc hn => ?_, rfl, rfl, fun _ _ => rfl⟩⟩
  · obtain ⟨ha, hb⟩ := h.contains a b hb
    exact ⟨ha.setWalk i x, hb.setWalk j x⟩
  · show (m'.walks.setIfInBounds j x)[l]? = (m.walks.setIfInBounds i x)[k]?
    by_cases hki : k = i
    · subst hki
      obtain rfl := Reference.walk.inj (Option.mem_unique hkl hij)
      rw [Array.getElem?_setIfInBounds_self_of_lt hin,
        Array.getElem?_setIfInBounds_self_of_lt hin']
    · have hlj : l ≠ j := by
        rintro rfl
        exact hki (Reference.walk.inj (R.inj hkl hij))
      rw [Array.getElem?_setIfInBounds_ne (Ne.symm hki),
        Array.getElem?_setIfInBounds_ne (Ne.symm hlj)]
      exact h.walk k l hkl
  · refine Array.getElem?_setIfInBounds_ne ?_
    rintro rfl
    exact hn ⟨⟨_, hij⟩, h.own hij hi⟩

end Alike

end Memory

/-! ### Requests -/

namespace Program.Same

variable {m m' : Memory H} [NamedHost H]

/-- A table is created. -/
theorem allocate {c c' : Table} (h : m.Alike Z t R m') (hc : Stands R c c') :
    Same Z t R m m' (Program.allocate c) (Program.allocate c') := by
  refine .read fun w w' hw hw' _ => ?_
  subst hw hw'
  obtain ⟨S, hwritten, hnew⟩ := h.allocate hc
  exact .write hwritten (.done hnew)

/-- A table that is the coroutine's own is replaced. -/
theorem setTable {i j : TableId} {c c' : Table} (h : m.Alike Z t R m') (hij : Stands R i j)
    (hi : .table i ∉ Z.references) (hc : Stands R c c') :
    Same Z t R m m' (Program.setTable i c) (Program.setTable j c') := by
  refine .read fun w w' hw hw' _ => .read fun v v' hv hv' _ => ?_
  subst hw hw'
  show Same Z t R w.memory w'.memory
    (.write { v.memory with heap := w.memory.heap.store i c } .done)
    (.write { v'.memory with heap := w'.memory.heap.store j c' } .done)
  rw [hv, hv']
  exact .write (h.store hij hi hc) (.done rfl)

/-- A table is read. -/
theorem table {i j : TableId} (hij : Stands R i j) :
    Same Z t R m m' (Program.table i) (Program.table j) := by
  refine .read fun w w' hw hw' h => .done ?_
  subst hw hw'
  exact h.memory.table i j hij

/-- A function is created. -/
theorem createFunction {c c' : Closure H} (hc : Stands R c c') :
    Same Z t R m m' (Program.createFunction c) (Program.createFunction c') :=
  .define hc fun _ _ _ _ _ hf => .done hf

/-- A coroutine is created. -/
theorem createOrFail {f f' : Value} (hf : Stands R f f') :
    Same Z t R m m' (Program.createOrFail f) (Program.createOrFail f') := by
  refine .create hf fun S r r' _ _ hr => ?_
  cases hr with
  | ok hu => exact .done hu
  | error he =>
    cases he
    exact .fail (Raised.Stand.cause (Cause.Stand.argument _))

/-- A computation that may fail for an argument. -/
theorem ofResult {α : Type} [Named α] {r r' : Except ArgumentError α} (hr : Stands R r r') :
    Same Z t R m m' (Program.ofArgument r) (Program.ofArgument r') := by
  cases hr with
  | ok ha => exact .done ha
  | error he =>
    cases he
    exact .fail (Raised.Stand.cause (Cause.Stand.argument _))

/-- A computation on plain data may fail for an argument. -/
theorem ofPlain {α β : Type} [Named β] {r : Except ArgumentError α} {f f' : α → Program H β}
    (h : ∀ a, Same Z t R m m' (f a) (f' a)) :
    Same Z t R m m' ((Program.ofArgument r).bind f) ((Program.ofArgument r).bind f') := by
  cases r with
  | ok a => exact h a
  | error e => exact .fail (Raised.Stand.cause (Cause.Stand.argument e))

end Program.Same

/-! ### Arguments -/

section Arguments

variable {α : Type} [FromValue α] {args args' : List Value}

omit [Named P]

theorem stands_getD_nil (h : Stands R args args') (i : Nat) :
    Stands R (args.getD i .nil) (args'.getD i .nil) := by
  rw [List.getD_eq_getElem?_getD, List.getD_eq_getElem?_getD]
  exact stands_getD (stands_getElem? h i) Value.Stand.nil

theorem foundAt_of_stands (h : Stands R args args') (i : Nat) :
    foundAt args' i = foundAt args i := by
  have hget := stands_getElem? h i
  rw [foundAt, foundAt]
  generalize args[i]? = v at hget
  generalize args'[i]? = v' at hget
  cases hget with
  | none => rfl
  | some hv => exact Value.typeName_of_stands hv

/-- Arguments that are references stand for each other. -/
theorem stands_argument [Named α] (hα : ∀ v v', Stands R v v' →
      Stands R (FromValue.fromValue? v : Option α) (FromValue.fromValue? v'))
    (h : Stands R args args') (i : Nat) :
    Stands R (argument α args i) (argument α args' i) := by
  have hfrom := hα _ _ (stands_getD_nil h i)
  rw [argument, argument, foundAt_of_stands h]
  generalize (FromValue.fromValue? (args.getD i .nil) : Option α) = x at hfrom
  generalize (FromValue.fromValue? (args'.getD i .nil) : Option α) = x' at hfrom
  cases hfrom with
  | none => exact .error rfl
  | some hx => exact .ok hx

/-- Arguments that are plain data are the same. -/
theorem argument_of_stands (hα : ∀ v v', Stands R v v' →
      (FromValue.fromValue? v' : Option α) = FromValue.fromValue? v)
    (h : Stands R args args') (i : Nat) : argument α args' i = argument α args i := by
  rw [argument, argument, foundAt_of_stands h, hα _ _ (stands_getD_nil h i)]

theorem stands_threadArgument (h : Stands R args args') (i : Nat) :
    Stands R (argument ThreadId args i) (argument ThreadId args' i) := by
  refine stands_argument (fun v v' hv => ?_) h i
  cases hv with
  | thread ht => exact .some ht
  | nil | boolean | number | string | function | table => exact .none

theorem stands_functionArgument (h : Stands R args args') (i : Nat) :
    Stands R (argument Function args i) (argument Function args' i) := by
  refine stands_argument (fun v v' hv => ?_) h i
  cases hv with
  | function hf => exact .some hf
  | nil | boolean | number | string | thread | table => exact .none

theorem stands_tableArgument (h : Stands R args args') (i : Nat) :
    Stands R (argument TableId args i) (argument TableId args' i) := by
  refine stands_argument (fun v v' hv => ?_) h i
  cases hv with
  | table ht => exact .some ht
  | nil | boolean | number | string | thread | function => exact .none

theorem stands_anyArgument (h : Stands R args args') (i : Nat) :
    Stands R (anyArgument args i) (anyArgument args' i) := by
  have hget := stands_getElem? h i
  rw [anyArgument, anyArgument]
  generalize args[i]? = v at hget
  generalize args'[i]? = v' at hget
  cases hget with
  | none => exact .error rfl
  | some hv => exact .ok hv

end Arguments

/-! ### Library functions -/

namespace Library

variable [NamedHost H] {m : Memory H}

theorem Tables.stands_packed {vs vs' : List Value} (h : Stands R vs vs') :
    Stands R (packed vs) (packed vs') := by
  have hempty : Stands R Table.empty Table.empty := ⟨.nil, .nil, .none⟩
  rw [packed, packed, h.length_eq]
  refine Table.stands_assign ?_ (Value.Stand.string _) (Value.Stand.number _)
  refine List.rel_foldl (P := Stands R) ?_ hempty (zipIdx_of_stands h 0)
  rintro c c' hc ⟨v, n⟩ ⟨v', n'⟩ ⟨hv, rfl⟩
  exact Table.stands_assign hc (Value.Stand.number _) hv

/-- `table.pack` creates a table. -/
theorem Tables.private_pack (args : List Value) :
    PrivateAt Z t m (Tables.pack : List Value → Program H (List Value)) args := by
  intro R m' args' hm ha
  refine (Same.allocate hm (stands_packed ha)).bind hm fun S n n' i i' _ _ hi => ?_
  exact .done (.cons (Value.Stand.table hi) .nil)

/-- `rawset` changes a table of the coroutine. -/
theorem Base.private_rawset {i : TableId} (hi : .table i ∉ Z.references) (args : List Value) :
    PrivateAt Z t m (Base.rawset : List Value → Program H (List Value)) (.table i :: args) := by
  intro R m' args' hm ha
  refine Same.ofArgument (stands_tableArgument ha 0) fun i₁ j hi₁ hij => ?_
  obtain rfl : i = i₁ := Except.ok.inj hi₁
  refine Same.ofArgument (stands_anyArgument ha 1) fun k k' _ hk => ?_
  refine Same.ofArgument (stands_anyArgument ha 2) fun v v' _ hv => ?_
  refine (Same.table hij).bind hm fun S n n' c c' hS hn hc => ?_
  refine Same.ofArgument (Table.stands_set hc (Named.mono hS hk) (Named.mono hS hv))
    fun d d' _ hd => ?_
  refine (Same.setTable hn (Named.mono hS hij) hi hd).bind hn fun T k k' _ _ hT _ _ => ?_
  exact .done (.cons (Value.Stand.table (Named.mono (hS.trans hT) hij)) .nil)

namespace Coroutines

/-- `coroutine.create` creates a coroutine. -/
theorem private_create (args : List Value) :
    PrivateAt Z t m (create : List Value → Program H (List Value)) args := by
  intro R m' args' hm ha
  refine Same.ofArgument (stands_functionArgument ha 0) fun f f' _ hf => ?_
  refine (Same.createOrFail (Value.Stand.function hf)).bind hm fun S n n' u v _ _ hu => ?_
  exact .done (.cons (Value.Stand.thread hu) .nil)

/-- `coroutine.wrap` creates a coroutine, and a function that resumes it. -/
theorem private_wrap (args : List Value) :
    PrivateAt Z t m (wrap : List Value → Program H (List Value)) args := by
  intro R m' args' hm ha
  refine Same.ofArgument (stands_functionArgument ha 0) fun f f' _ hf => ?_
  refine (Same.createOrFail (Value.Stand.function hf)).bind hm fun S n n' u v _ hn hu => ?_
  refine (Same.createFunction (.native (.wrap hu))).bind hn fun T k k' g g' _ _ hg => ?_
  exact .done (.cons (Value.Stand.function hg) .nil)

/-- `coroutine.resume` resumes a coroutine that the code knows. -/
theorem private_resume (args : List Value) :
    PrivateAt Z t m (resume : List Value → Program H (List Value)) args := by
  intro R m' args' hm ha
  refine Same.ofArgument (stands_threadArgument ha 0) fun u v _ hu => ?_
  refine .resume hu (List.forall₂_drop 1 ha) fun S n n' r r' _ _ hr => ?_
  cases hr with
  | ok hvs => exact .done (.cons (Value.Stand.boolean true) hvs)
  | error he =>
    refine .done (.cons (Value.Stand.boolean false) (.cons ?_ .nil))
    cases he with
    | refused e => exact Value.Stand.string _
    | uncaught he => exact Cause.stands_value (Cause.Stand.uncaught he.1 he.2)

/-- `coroutine.close` closes a coroutine that the code knows. -/
theorem private_close (args : List Value) :
    PrivateAt Z t m (close : List Value → Program H (List Value)) args := by
  intro R m' args' hm ha
  refine Same.ofArgument (stands_threadArgument ha 0) fun u v _ hu => ?_
  refine .close hu fun r => ?_
  cases r with
  | ok => exact .done (.cons (Value.Stand.boolean true) .nil)
  | error e => exact .fail (Raised.Stand.cause (Cause.Stand.coroutine e))

/-- The function made by `wrap` resumes its coroutine. -/
theorem private_callWrapped (u : ThreadId) (args : List Value) :
    PrivateAt Z t m (fun x : ThreadId × List Value => (callWrapped x.1 x.2 : Program H _))
      (u, args) := by
  rintro R m' ⟨v, args'⟩ hm ⟨hu, ha⟩
  refine .resume hu ha fun S n n' r r' _ _ hr => ?_
  cases hr with
  | ok hvs => exact .done hvs
  | error he =>
    cases he with
    | refused e => exact .fail (Raised.Stand.cause (Cause.Stand.coroutine e))
    | uncaught he => exact .fail (Raised.Stand.traced he)

end Coroutines

namespace Strings

/-- What is searched for, and where, is plain data. -/
theorem searchArguments_of_stands {args args' : List Value} (h : Stands R args args') :
    searchArguments args' = searchArguments args := by
  have hbytes : ∀ i, argument Bytes args' i = argument Bytes args i :=
    argument_of_stands (fun v v' hv => by cases hv <;> rfl) h
  have hinteger : argument? Int64 args' 2 = argument? Int64 args 2 := by
    rw [argument?, argument?, Value.isNil_of_stands (stands_getD_nil h 2),
      argument_of_stands (fun v v' hv => by cases hv <;> rfl) h]
  simp only [searchArguments, hbytes, hinteger]

/-- `string.gmatch` creates a walk along the matches, and a function that goes on along it. -/
theorem private_gmatch (engine : Regex.Engine) (args : List Value) :
    PrivateAt Z t m (gmatch engine : List Value → Program H (List Value)) args := by
  intro R m' args' hm ha
  show Same Z t R m m' ((ofArgument (searchArguments args)).bind _)
    ((ofArgument (searchArguments args')).bind _)
  rw [searchArguments_of_stands ha]
  refine Same.ofPlain fun x => Same.ofPlain fun regex => .read fun w w' hw hw' _ => ?_
  subst hw hw'
  obtain ⟨S, hwritten, hnew⟩ := hm.pushWalk ⟨x.1, regex, x.2.2 - 1, none⟩
  refine .write hwritten (.define (.native (.walk hnew)) fun T f f' _ _ hf => ?_)
  exact .done (.cons (Value.Stand.function hf) .nil)

omit [Named P] [NamedHost H] in
theorem stands_matchValues (x : Match) (s : Bytes) : Stands R (x.values s) (x.values s) := by
  rw [Match.values]
  by_cases hg : x.groups.isEmpty
  · rw [if_pos hg]
    exact .cons (Value.Stand.string _) .nil
  · rw [if_neg hg]
    refine List.forall₂_same.mpr fun v hv => ?_
    obtain ⟨g, -, rfl⟩ := List.mem_map.mp hv
    cases g with
    | none => exact Value.Stand.nil
    | some span => exact Value.Stand.string _

/-- The function that `gmatch` made goes on along a walk of the coroutine. -/
theorem private_walkStep (engine : Regex.Engine) {c d : Nat} {m' : Memory H}
    (hm : m.Alike Z t R m') (hcd : .walk d ∈ R (.walk c)) (hc : .walk c ∉ Z.references) :
    Same Z t R m m' (walkStep engine c) (walkStep engine d) := by
  refine .read fun w w' hw hw' _ => ?_
  subst hw hw'
  have hwalk := hm.walk c d hcd
  simp only [Program.bind]
  rw [hwalk]
  cases w.memory.walks[c]? with
  | none => exact .done (.cons Value.Stand.nil .nil)
  | some x =>
    refine .write (hm.setWalk hcd hc (x.next engine).2) ?_
    cases (x.next engine).1 with
    | none => exact .done (.cons Value.Stand.nil .nil)
    | some found => exact .done (stands_matchValues found x.subject)

end Strings

end Library

/-! ### Sequences -/

theorem Values.stands_first {vs vs' : List Value} (h : Stands R vs vs') :
    Stands R (Values.first vs) (Values.first vs') := by
  cases h with
  | nil => exact Value.Stand.nil
  | cons hv _ => exact hv

namespace Library

variable [NamedHost H] {p p' : ProtectedCall} (hp : Stands R p p')

include hp

theorem stands_pollProtected {input input' : List Value} (hi : Stands R input input') :
    Stands R (pollProtected p input : Except ArgumentError (Step H))
      (pollProtected p' input') := by
  cases hp with
  | calling => exact .ok (.return (.cons (Value.Stand.boolean true) hi))
  | handling =>
    exact .ok (.return (.cons (Value.Stand.boolean false) (.cons (Values.stands_first hi) .nil)))
  | start withHandler =>
    have hf := stands_anyArgument hi 0
    have hh := stands_anyArgument hi 1
    simp only [pollProtected]
    generalize anyArgument input 0 = f at hf
    generalize anyArgument input' 0 = f' at hf
    generalize anyArgument input 1 = g at hh
    generalize anyArgument input' 1 = g' at hh
    cases hf with
    | error he => exact .error he
    | ok hf =>
      cases withHandler with
      | false =>
        exact .ok (.call hf (List.forall₂_drop 1 hi) (.protectedCall (.calling .none)))
      | true =>
        cases hh with
        | error he => exact .error he
        | ok hg =>
          exact .ok (.call hf (List.forall₂_drop 2 hi) (.protectedCall (.calling (.some hg))))

theorem same_recoverProtected {m m' : Memory H} {e e' : TracedError} (he : Stands R e e') :
    Same Z t R m m' (recoverProtected p e) (recoverProtected p' e') := by
  have hv : Stands R e.value e'.value := Cause.stands_value he.1
  cases hp with
  | start => exact .fail (Raised.Stand.traced he)
  | handling => exact .done (.return (.cons (Value.Stand.boolean false) (.cons hv .nil)))
  | calling hh =>
    cases hh with
    | none => exact .done (.return (.cons (Value.Stand.boolean false) (.cons hv .nil)))
    | some hg => exact .done (.call hg (.cons hv .nil) (.protectedCall .handling))

end Library

/-! ### Functions and frames -/

namespace Behaviour

variable [NamedHost H] {m : Memory H} (host : HostCode H)

theorem private_wrap (u : ThreadId) (args : List Value) :
    (standard host).PrivateClosure Z t m args (.native (.wrap u)) := by
  rintro R m' ⟨c', args'⟩ hm ⟨hc, ha⟩
  cases hc with
  | wrap hu => exact Library.Coroutines.private_callWrapped u args R m' (_, args') hm ⟨hu, ha⟩

/-- A walk may go on if it is the coroutine's own. -/
theorem private_walk {c : Nat} (hc : .walk c ∉ Z.references) (args : List Value) :
    (standard host).PrivateClosure Z t m args (.native (.walk c)) := by
  rintro R m' ⟨c', args'⟩ hm ⟨hcc, -⟩
  cases hcc with
  | walk hw => exact Library.Strings.private_walkStep host.engine hm hw hc

/-- A frame is private if what its sequence does with values and with errors is. -/
theorem privateAt_goOn {B : Behaviour H} {f : Frame H} {a : Activation H} (hf : f.activation = a)
    (hpoll : ∀ R m' a' vs vs', m.Alike Z t R m' → Stands R a a' → Stands R vs vs' →
      Same Z t R m m' (B.poll a vs) (B.poll a' vs'))
    (hrecover : ∀ R m' a' e e', m.Alike Z t R m' → Stands R a a' → Stands R e e' →
      Same Z t R m m' (B.recover a e) (B.recover a' e')) (i : Input) :
    PrivateAt Z t m (fun x : Frame H × Input => B.goOn x.1 x.2) (f, i) := by
  subst hf
  rintro R m' ⟨f', i'⟩ hm ⟨⟨-, ha⟩, hi⟩
  cases hi with
  | values hv => exact hpoll R m' f'.activation _ _ hm ha hv
  | error he => exact hrecover R m' f'.activation _ _ hm ha he

/-- A yield depends on nothing but its arguments and what the resume brings. -/
theorem private_yield {f : Frame H} {suspended : Bool} (hf : f.activation = .yield suspended)
    (i : Input) :
    PrivateAt Z t m (fun x : Frame H × Input => (standard host).goOn x.1 x.2) (f, i) := by
  refine privateAt_goOn hf (fun R m' a' vs vs' _ ha hv => ?_) (fun R m' a' e e' _ ha he => ?_) i
  · cases ha
    cases suspended with
    | true => exact .done (.return hv)
    | false => exact .done (.yield hv (.yield true))
  · cases ha
    exact .fail (Raised.Stand.traced he)

/-- A protected call depends on nothing but what it is given and what its callee answers. -/
theorem private_protectedCall {f : Frame H} {p : ProtectedCall}
    (hf : f.activation = .protectedCall p) (i : Input) :
    PrivateAt Z t m (fun x : Frame H × Input => (standard host).goOn x.1 x.2) (f, i) := by
  refine privateAt_goOn hf (fun R m' a' vs vs' _ ha hv => ?_) (fun R m' a' e e' _ ha he => ?_) i
  · cases ha with
    | protectedCall hp => exact Same.ofResult (Library.stands_pollProtected hp hv)
  · cases ha with
    | protectedCall hp => exact Library.same_recoverProtected hp he

end Behaviour

end Lua
