/-
Tables, functions and threads that stand for each other.

The states of an instance are data as values are, so a renaming relates them part by part.  What
is read of tables that stand for each other does so too, since a renaming keeps references apart:

* `NamedHost` — a host whose types of code and states come with such a relation;
* `Table.Stand`, `Closure.Stand`, `Thread.Stand` — tables, functions and threads;
* `Step.Stand`, `Outcome.Stand` — what polls ask for, and how driven frames end;
* `Value.equals_of_stands` — keys are equal on both sides or on neither;
* `Table.stands_lookup`, `Table.stands_assign` — what tables hold at such keys, and how it changes.

Design notes: walks hold no references.  Two of them stand for each other if they are equal, and
that is said where memories are compared.
-/
import Lua.Proofs.References
import Lua.Proofs.Change

namespace Lua

variable {R : Renaming} {H : Host}

/-! ### Hosts -/

/-- A host whose code and states may hold references. -/
class NamedHost (H : Host) where
  native : Named H.Native
  sequence : Named H.Sequence
  state : Named H.State
  loop : Named H.Loop
  answer : Named H.Answer

attribute [reducible] NamedHost.native NamedHost.sequence NamedHost.state NamedHost.loop
  NamedHost.answer

attribute [instance] NamedHost.native NamedHost.sequence NamedHost.state NamedHost.loop
  NamedHost.answer

/-! ### Tables -/

/-- Tables that stand for each other, entry by entry in the order of traversal. -/
structure Table.Stand (R : Renaming) (t t' : Table) : Prop where
  array : Stands R t.array.toList t'.array.toList
  hash : Stands R t.hash t'.hash
  metatable : Stands R t.metatable t'.metatable

instance : Named Table :=
  ⟨Table.Stand, fun h ht =>
    ⟨Named.mono h ht.array, Named.mono h ht.hash, Named.mono h ht.metatable⟩⟩

/-- The metatables of the other types. -/
structure TypeMetatables.Stand (R : Renaming) (m m' : TypeMetatables) : Prop where
  boolean : Stands R m.boolean m'.boolean
  number : Stands R m.number m'.number
  string : Stands R m.string m'.string
  function : Stands R m.function m'.function
  thread : Stands R m.thread m'.thread

instance : Named TypeMetatables :=
  ⟨TypeMetatables.Stand, fun h hm =>
    ⟨Named.mono h hm.boolean, Named.mono h hm.number, Named.mono h hm.string,
      Named.mono h hm.function, Named.mono h hm.thread⟩⟩

section Values

variable {v v' k k' : Value}

theorem Value.typeName_of_stands (h : Stands R v v') : v'.typeName = v.typeName := by
  cases h <;> rfl

theorem Value.isNil_of_stands (h : Stands R v v') : v'.isNil = v.isNil := by
  cases h <;> rfl

/-- A renaming keeps references apart, so it keeps keys apart. -/
theorem Value.equals_of_stands (hv : Stands R v v') (hk : Stands R k k') :
    v'.equals k' = v.equals k := by
  have hpair : ∀ {α : Type} [BEq α] [LawfulBEq α] (f : α → Reference) {a a' b b' : α},
      f.Injective → f a' ∈ R (f a) → f b' ∈ R (f b) → (a' == b') = (a == b) := by
    intro α _ _ f a a' b b' hf ha hb
    rw [Bool.eq_iff_iff, beq_iff_eq, beq_iff_eq]
    refine ⟨fun h => hf (R.inj ha (h ▸ hb)), fun h => hf (Option.mem_unique ha (h ▸ hb))⟩
  cases hv with
  | nil | boolean | number | string => cases hk <;> rfl
  | thread hv =>
    cases hk with
    | thread hk => exact hpair .thread (fun _ _ h => Reference.thread.inj h) hv hk
    | _ => rfl
  | table hv =>
    cases hk with
    | table hk => exact hpair .table (fun _ _ h => Reference.table.inj h) hv hk
    | _ => rfl
  | function hv =>
    cases hk with
    | function hk =>
      cases hv with
      | builtin b =>
        cases hk with
        | builtin c => rfl
        | created hk => rfl
      | @created i i' hv =>
        cases hk with
        | builtin c => rfl
        | @created j j' hk =>
          have h := hpair .function (fun _ _ h => Reference.function.inj h) hv hk
          simpa only [Value.equals, beq_eq_decide, Function.created.injEq] using h
    | _ => rfl

theorem Value.stands_notNil? (h : Stands R v v') : Stands R v.notNil? v'.notNil? := by
  cases h with
  | nil => exact .none
  | boolean b => exact .some (Value.Stand.boolean b)
  | number n => exact .some (Value.Stand.number n)
  | string s => exact .some (Value.Stand.string s)
  | function h => exact .some (Value.Stand.function h)
  | thread h => exact .some (Value.Stand.thread h)
  | table h => exact .some (Value.Stand.table h)

end Values

namespace Table

variable {t t' : Table} {k k' v v' : Value} {es es' : List (Value × Value)}

theorem stands_find? (hk : Stands R k k') (h : Stands R es es') :
    Stands R (find? k es) (find? k' es') := by
  induction h with
  | nil => exact .none
  | @cons e e' es es' he _ ih =>
    rw [find?, find?, Value.equals_of_stands he.1 hk]
    by_cases heq : e.1.equals k
    · rw [if_pos heq, if_pos heq]
      exact .some he.2
    · rw [if_neg heq, if_neg heq]
      exact ih

theorem arrayIndex?_of_stands (h : Stands R k k') (n : Nat) :
    arrayIndex? n k' = arrayIndex? n k := by
  cases h <;> rfl

theorem stands_lookup (ht : Stands R t t') (hk : Stands R k k') :
    Stands R (t.lookup k) (t'.lookup k') := by
  have hsize : t'.array.size = t.array.size := by
    rw [← Array.length_toList, ← Array.length_toList, ht.array.length_eq]
  rw [lookup, lookup, arrayIndex?_of_stands hk, hsize]
  cases arrayIndex? t.array.size k with
  | some i =>
    have hget := stands_getElem? ht.array i
    rw [Array.getElem?_toList, Array.getElem?_toList] at hget
    simp only [Array.getD_eq_getD_getElem?]
    exact stands_getD hget Value.Stand.nil
  | none => exact stands_getD (stands_find? hk ht.hash) Value.Stand.nil

theorem stands_field (h : Stands R t t') (name : String) :
    Stands R (t.field name) (t'.field name) := stands_lookup h (Value.Stand.string _)

/-! #### Writing -/

theorem stands_bind (hk : Stands R k k') (hv : Stands R v v') (h : Stands R es es') :
    Stands R (bind k v es) (bind k' v' es') := by
  induction h with
  | nil => exact .cons ⟨hk, hv⟩ .nil
  | @cons e e' es es' he h ih =>
    rw [bind, bind, Value.equals_of_stands he.1 hk]
    by_cases heq : e.1.equals k
    · rw [if_pos heq, if_pos heq]
      exact .cons ⟨he.1, hv⟩ h
    · rw [if_neg heq, if_neg heq]
      exact .cons he ih

theorem stands_unbind (hk : Stands R k k') (h : Stands R es es') :
    Stands R (unbind k es) (unbind k' es') := by
  induction h with
  | nil => exact .nil
  | @cons e e' es es' he h ih =>
    rw [unbind, unbind, Value.equals_of_stands he.1 hk]
    by_cases heq : e.1.equals k
    · rw [if_pos heq, if_pos heq]
      exact h
    · rw [if_neg heq, if_neg heq]
      exact .cons he ih

theorem Stand.size (h : Stand R t t') : t'.array.size = t.array.size := by
  rw [← Array.length_toList, ← Array.length_toList, h.array.length_eq]

/-- Another array part and another hash part. -/
theorem Stand.setParts (h : Stand R t t') {a a' : Array Value}
    (ha : Stands R a.toList a'.toList) (he : Stands R es es') :
    Stand R { t with array := a, hash := es } { t' with array := a', hash := es' } :=
  ⟨ha, he, h.metatable⟩

theorem stands_push {a a' : Array Value} (ha : Stands R a.toList a'.toList) (hv : Stands R v v') :
    Stands R (a.push v).toList (a'.push v').toList := by
  rw [Array.toList_push, Array.toList_push]
  exact List.rel_append ha (.cons hv .nil)

theorem stands_absorb (h : Stand R t t') (fuel : Nat) :
    Stand R (absorb fuel t) (absorb fuel t') := by
  induction fuel generalizing t t' with
  | zero => exact h
  | succ fuel ih =>
    simp only [absorb]
    rw [h.size]
    cases hkey : keyAfter? t.array.size with
    | none => exact h
    | some k =>
      have hk : Stands R k k := by
        rw [keyAfter?] at hkey
        split_ifs at hkey
        rw [← Option.some.inj hkey]
        exact Value.Stand.number _
      have hfound := stands_find? hk h.hash
      simp only
      generalize find? k t.hash = f at hfound
      generalize find? k t'.hash = f' at hfound
      cases hfound with
      | none => exact h
      | some hv => exact ih (h.setParts (stands_push h.array hv) (stands_unbind hk h.hash))

theorem stands_cutAt (h : Stand R t t') (i : Nat) : Stand R (t.cutAt i) (t'.cutAt i) := by
  have hmoved := zipIdx_of_stands (List.forall₂_drop (i + 1) h.array) 0
  refine h.setParts ?_ ?_
  · simp only [Array.take_eq_extract, Array.toList_extract, List.extract_eq_take_drop,
      Nat.sub_zero, List.drop_zero]
    exact List.forall₂_take i h.array
  · refine List.rel_foldl (P := Stands R) (R := Stands R) ?_ h.hash (List.rel_map ?_ hmoved)
    · rintro es es' he ⟨k, v⟩ ⟨k', v'⟩ ⟨hk, hv⟩
      exact stands_bind hk hv he
    · rintro ⟨v, n⟩ ⟨v', n'⟩ ⟨hv, rfl⟩
      exact ⟨Value.Stand.number _, hv⟩

theorem stands_assign (h : Stand R t t') (hk : Stands R k k') (hv : Stands R v v') :
    Stand R (t.assign k v) (t'.assign k' v') := by
  have hnil := Value.isNil_of_stands hv
  rw [assign, assign, arrayIndex?_of_stands hk, h.size]
  cases arrayIndex? (t.array.size + 1) k with
  | none =>
    simp only [hnil]
    by_cases hn : v.isNil
    · rw [if_pos hn, if_pos hn]
      exact h.setParts h.array (stands_unbind hk h.hash)
    · rw [if_neg hn, if_neg hn]
      exact h.setParts h.array (stands_bind hk hv h.hash)
  | some i =>
    simp only [hnil]
    have hun := stands_unbind hk h.hash
    by_cases hi : i < t.array.size
    · rw [if_pos hi, if_pos hi]
      by_cases hn : v.isNil
      · rw [if_pos hn, if_pos hn]
        exact stands_cutAt h i
      · rw [if_neg hn, if_neg hn]
        refine h.setParts ?_ h.hash
        rw [Array.toList_setIfInBounds, Array.toList_setIfInBounds]
        exact stands_set h.array hv i
    · rw [if_neg hi, if_neg hi]
      by_cases hn : v.isNil
      · rw [if_pos hn, if_pos hn]
        exact h.setParts h.array hun
      · rw [if_neg hn, if_neg hn, ← hun.length_eq]
        exact stands_absorb (h.setParts (stands_push h.array hv) hun) _

theorem stands_normalizeKey (h : Stands R k k') :
    Stands R (normalizeKey k) (normalizeKey k') := by
  cases h with
  | number n =>
    simp only [normalizeKey]
    cases n.toInteger? with
    | none => exact Value.Stand.number n
    | some i => exact Value.Stand.number _
  | nil => exact Value.Stand.nil
  | boolean b => exact Value.Stand.boolean b
  | string s => exact Value.Stand.string s
  | function h => exact Value.Stand.function h
  | thread h => exact Value.Stand.thread h
  | table h => exact Value.Stand.table h

theorem stands_set (h : Stand R t t') (hk : Stands R k k') (hv : Stands R v v') :
    Stands R (t.set k v) (t'.set k' v') := by
  have hkey := stands_normalizeKey hk
  have hvalid : isKey (normalizeKey k') = isKey (normalizeKey k) := Value.equals_of_stands hkey hkey
  simp only [set]
  rw [Value.isNil_of_stands hkey, hvalid]
  split_ifs
  · exact .error rfl
  · exact .ok (stands_assign h hkey hv)
  · exact .error rfl

end Table

/-! ### Functions and frames -/

variable [NamedHost H]

/-- Native functions that stand for each other. -/
inductive NativeClosure.Stand (R : Renaming) : NativeClosure H → NativeClosure H → Prop
  | wrap {t u : ThreadId} (h : Stands R t u) : Stand R (.wrap t) (.wrap u)
  | walk {i j : Nat} (h : .walk j ∈ R (.walk i)) : Stand R (.walk i) (.walk j)
  | host (name : String) {c c' : H.Native} (h : Stands R c c') :
      Stand R (.host name c) (.host name c')

instance : Named (NativeClosure H) :=
  ⟨NativeClosure.Stand, fun h hc => by
    cases hc with
    | wrap ht => exact .wrap (Named.mono h ht)
    | walk hw => exact .walk (h _ _ hw)
    | host name hc => exact .host name (Named.mono h hc)⟩

/-- Sequences that stand for each other. -/
inductive SequenceClosure.Stand (R : Renaming) : SequenceClosure H → SequenceClosure H → Prop
  | protectedCall (withHandler : Bool) :
      Stand R (.protectedCall withHandler) (.protectedCall withHandler)
  | yield : Stand R .yield .yield
  | host (name : String) {c c' : H.Sequence} (h : Stands R c c') :
      Stand R (.host name c) (.host name c')

instance : Named (SequenceClosure H) :=
  ⟨SequenceClosure.Stand, fun h hc => by
    cases hc with
    | protectedCall withHandler => exact .protectedCall withHandler
    | yield => exact .yield
    | host name hc => exact .host name (Named.mono h hc)⟩

/-- Created functions that stand for each other. -/
inductive Closure.Stand (R : Renaming) : Closure H → Closure H → Prop
  | native {c c' : NativeClosure H} (h : Stands R c c') : Stand R (.native c) (.native c')
  | sequence {c c' : SequenceClosure H} (h : Stands R c c') : Stand R (.sequence c) (.sequence c')

instance : Named (Closure H) :=
  ⟨Closure.Stand, fun h hc => by
    cases hc with
    | native hc => exact .native (Named.mono h hc)
    | sequence hc => exact .sequence (Named.mono h hc)⟩

theorem Closure.name_of_stands {c c' : Closure H} (h : Stands R c c') : c'.name = c.name := by
  cases h with
  | native h => cases h <;> rfl
  | sequence h => cases h <;> rfl

/-- Protected calls that have come equally far. -/
inductive ProtectedCall.Stand (R : Renaming) : ProtectedCall → ProtectedCall → Prop
  | start (withHandler : Bool) : Stand R (.start withHandler) (.start withHandler)
  | calling {f f' : Option Value} (h : Stands R f f') : Stand R (.calling f) (.calling f')
  | handling : Stand R .handling .handling

instance : Named ProtectedCall :=
  ⟨ProtectedCall.Stand, fun h hp => by
    cases hp with
    | start withHandler => exact .start withHandler
    | calling hf => exact .calling (Named.mono h hf)
    | handling => exact .handling⟩

/-- States of sequences that stand for each other. -/
inductive Activation.Stand (R : Renaming) : Activation H → Activation H → Prop
  | protectedCall {p p' : ProtectedCall} (h : Stands R p p') :
      Stand R (.protectedCall p) (.protectedCall p')
  | yield (suspended : Bool) : Stand R (.yield suspended) (.yield suspended)
  | host {s s' : H.State} (h : Stands R s s') : Stand R (.host s) (.host s')

instance : Named (Activation H) :=
  ⟨Activation.Stand, fun h ha => by
    cases ha with
    | protectedCall hp => exact .protectedCall (Named.mono h hp)
    | yield suspended => exact .yield suspended
    | host hs => exact .host (Named.mono h hs)⟩

instance : Named (Frame H) :=
  ⟨fun R f f' => f.name = f'.name ∧ Stands R f.activation f'.activation,
    fun h hf => ⟨hf.1, Named.mono h hf.2⟩⟩

/-- Threads that stand for each other. -/
structure Thread.Stand (R : Renaming) (s s' : Thread H) : Prop where
  status : s.status = s'.status
  frames : Stands R s.frames s'.frames
  body : Stands R s.body s'.body
  resumer : Stands R s.resumer s'.resumer
  nonYieldable : s.nonYieldable = s'.nonYieldable
  nativeDepth : s.nativeDepth = s'.nativeDepth

instance : Named (Thread H) :=
  ⟨Thread.Stand, fun h hs =>
    ⟨hs.status, Named.mono h hs.frames, Named.mono h hs.body, Named.mono h hs.resumer,
      hs.nonYieldable, hs.nativeDepth⟩⟩

namespace Thread.Stand

variable {s s' : Thread H}

theorem length_frames (h : Thread.Stand R s s') : s'.frames.length = s.frames.length :=
  h.frames.length_eq.symm

theorem callDepth (h : Thread.Stand R s s') : s'.callDepth = s.callDepth := by
  rw [Thread.callDepth, Thread.callDepth, h.length_frames, h.nativeDepth]

theorem fresh (st : Status) {f f' : Option Value} (h : Stands R f f') :
    Thread.Stand R (Thread.fresh st f : Thread H) (Thread.fresh st f') :=
  ⟨rfl, .nil, h, .none, rfl, rfl⟩

end Thread.Stand

/-! ### Inputs and outcomes -/

/-- What polls ask for in the same way. -/
inductive Step.Stand (R : Renaming) : Step H → Step H → Prop
  | return {vs vs' : List Value} (h : Stands R vs vs') : Stand R (.return vs) (.return vs')
  | call {f f' : Value} {vs vs' : List Value} {a a' : Activation H} (hf : Stands R f f')
      (h : Stands R vs vs') (ha : Stands R a a') : Stand R (.call f vs a) (.call f' vs' a')
  | tailCall {f f' : Value} {vs vs' : List Value} (hf : Stands R f f') (h : Stands R vs vs') :
      Stand R (.tailCall f vs) (.tailCall f' vs')
  | yield {vs vs' : List Value} {a a' : Activation H} (h : Stands R vs vs') (ha : Stands R a a') :
      Stand R (.yield vs a) (.yield vs' a')

instance : Named (Step H) :=
  ⟨Step.Stand, fun h hs => by
    cases hs with
    | «return» hv => exact .return (Named.mono h hv)
    | call hf hv ha => exact .call (Named.mono h hf) (Named.mono h hv) (Named.mono h ha)
    | tailCall hf hv => exact .tailCall (Named.mono h hf) (Named.mono h hv)
    | yield hv ha => exact .yield (Named.mono h hv) (Named.mono h ha)⟩

instance Owner.named (o : Owner) : Named (o.Result H) :=
  match o with
  | .embedding => inferInstanceAs (Named (List Value))
  | .native _ => inferInstanceAs (Named (List Value))
  | .poll _ => inferInstanceAs (Named (Step H))

/-- Inputs that stand for each other. -/
inductive Input.Stand (R : Renaming) : Input → Input → Prop
  | values {vs vs' : List Value} (h : Stands R vs vs') : Stand R (.values vs) (.values vs')
  | error {e e' : TracedError} (h : Stands R e e') : Stand R (.error e) (.error e')

instance : Named Input :=
  ⟨Input.Stand, fun h hi => by
    cases hi with
    | values hv => exact .values (Named.mono h hv)
    | error he => exact .error (Named.mono h he)⟩

/-- Outcomes that stand for each other. -/
inductive Outcome.Stand (R : Renaming) : Outcome → Outcome → Prop
  | returned {vs vs' : List Value} (h : Stands R vs vs') : Stand R (.returned vs) (.returned vs')
  | yielded {vs vs' : List Value} (h : Stands R vs vs') : Stand R (.yielded vs) (.yielded vs')
  | failed {e e' : TracedError} (h : Stands R e e') : Stand R (.failed e) (.failed e')

instance : Named Outcome :=
  ⟨Outcome.Stand, fun h ho => by
    cases ho with
    | returned hv => exact .returned (Named.mono h hv)
    | yielded hv => exact .yielded (Named.mono h hv)
    | failed he => exact .failed (Named.mono h he)⟩

theorem Input.stands_outcome {i i' : Input} (h : Stands R i i') :
    Stands R i.outcome i'.outcome := by
  cases h with
  | values h => exact Outcome.Stand.returned h
  | error h => exact Outcome.Stand.failed h

namespace Outcome

variable {oc oc' : Outcome}

theorem status_of_stands (h : Stands R oc oc') : oc'.status = oc.status := by
  cases h <;> rfl

theorem stands_keep {fs fs' : List (Frame H)} (h : Stands R oc oc') (hf : Stands R fs fs') :
    Stands R (oc.keep fs) (oc'.keep fs') := by
  cases h with
  | yielded => exact hf
  | returned | failed => exact .nil

theorem stands_answer (h : Stands R oc oc') : Stands R oc.answer oc'.answer := by
  cases h with
  | returned h => exact .ok h
  | failed h => exact .error h
  | yielded => exact .error (TracedError.stands_untraced (Cause.Stand.broken _))

theorem stands_handed {t u : ThreadId} (h : Stands R oc oc') (ht : Stands R t u) :
    Stands R (oc.handed t) (oc'.handed u) := by
  cases h with
  | returned h | yielded h => exact .ok h
  | failed h => exact .error (ResumeError.Stand.uncaught (TracedError.stands_leave_coroutine h ht))

end Outcome

end Lua
