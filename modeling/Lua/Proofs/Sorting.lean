/-
Sorting tables.

`sort` takes the values up to the length out of a table, sorts them, and puts them back in the end.
Until then it does not touch the table, so a comparison that fails leaves it as it was.  The
comparisons may be anything: what is proved of `sort` follows from the course of a merge sort.

* `Table.Rearranged` — a table with the same values at the keys up to its length, in another order;
* `rearranged_writeItems` — that is what putting the values back comes to;
* `sort_runs_iff` — `sort` is a merge sort of indices;
* `Rearranged.ordered`, `Rearranged.stable` — the order of the values if the answers follow a
  strict weak order;
* `sort_by_function` — sorting with a function that compares.

Design notes: equal values cannot be told apart, so stability is a statement about the indices at
which the values were before.  The function that compares may change anything but the table, and
what it keeps is described by a set of worlds.
-/
import Lua.Proofs.ItemWrites
import Lua.Proofs.Merging
import Lua.Proofs.RefusedYields
import Mathlib.Data.List.Permutation

namespace Lua

variable {H : Host} {B : Behaviour H} {w w' w₁ : World H}

open Lua.Sort

/-! ### Tables with their values in another order -/

namespace Table

variable {t t' : Table} {q : Value} {ks : List Nat} {R : Value → Value → Prop}
  {cs : List (Comparison Nat)}

/-- The value at the key `i + 1`. -/
def nth (t : Table) (i : Nat) : Value := t.lookup (.nat (i + 1))

/-- The values at the keys up to the length. -/
def values (t : Table) : List Value := (List.range t.border).map t.nth

theorem mem_values {v : Value} : v ∈ t.values ↔ ∃ i ∈ List.range t.border, t.nth i = v :=
  List.mem_map

theorem nth_mem_values {i : Nat} (hi : i ∈ List.range t.border) : t.nth i ∈ t.values :=
  mem_values.mpr ⟨i, hi, rfl⟩

theorem length_values : t.values.length = t.border := by
  rw [values, List.length_map, List.length_range]

/-- A table with the values of `t` at the keys up to its length, but in the order in which the
list of their indices has them. -/
structure Rearranged (t : Table) (ks : List Nat) (t' : Table) : Prop where
  perm : ks.Perm (List.range t.border)
  border : t'.border = t.border
  values : t'.values = ks.map t.nth
  others : ∀ q, (∀ i < t.border, (Value.nat (i + 1)).equals q = false) → t'.get q = t.get q
  metatable : t'.metatable = t.metatable

/-- The values are the same ones. -/
theorem Rearranged.perm_values (h : Rearranged t ks t') : t'.values.Perm t.values := by
  rw [h.values]
  exact h.perm.map t.nth

/-! ### Lengths -/

theorem Made.nth_ne_nil (h : t.Made) {i : Nat} (hi : i < t.border) : t.nth i ≠ .nil :=
  h.sound.lookup_nat_ne (h.settled.border_eq ▸ hi)

theorem Made.nth_border (h : t.Made) (hlt : t.border + 1 < 2 ^ 63) : t.nth t.border = .nil := by
  rw [h.settled.border_eq] at hlt ⊢
  exact h.settled.lookup_nat hlt

/-- A number of keys that all have values, with none at the next key, is the length. -/
theorem Made.border_eq (h : t.Made) {n : Nat} (hn : n < 2 ^ 63) (hpresent : ∀ i < n, t.nth i ≠ .nil)
    (habsent : n + 1 < 2 ^ 63 → t.nth n = .nil) : t.border = n := by
  have hleast := (h.sound.bordered h.settled).least
  have hle : t.border ≤ n := hleast.2 fun hlt => by
    rw [get_nat]
    exact congrArg Except.ok (habsent hlt)
  by_contra hne
  have hnil := hleast.1 (by omega)
  rw [get_nat, Except.ok.injEq] at hnil
  exact hpresent t.border (by omega) hnil

/-- Keys past the length, as long as there are any. -/
theorem nat_equals_nat_of_lt {i n : Nat} (hi : i < n) (hn : n + 1 < 2 ^ 63) :
    (Value.nat (i + 1)).equals (.nat (n + 1)) = false := by
  rw [← Bool.not_eq_true]
  intro heq
  have := index_unique (by omega) hn heq (nat_equals_self (n + 1))
  omega

/-! ### Values in order -/

/-- The values of `t'` are in the order `R`, and equivalent ones in the order that they had
in `t`. -/
structure InOrder (R : Value → Value → Prop) (t : Table) (ks : List Nat) (t' : Table) : Prop where
  /-- No later value is less than an earlier one. -/
  ordered : t'.values.Pairwise fun a b => ¬ R b a
  /-- Of two values only one that is less has been brought forward. -/
  stable : ks.Pairwise fun i j => ¬ R (t.nth i) (t.nth j) → i < j

/-- Answers that follow a strict weak order bring the values in order. -/
theorem Rearranged.inOrder (h : Rearranged t ks t') (hR : Graded R t.values)
    (hks : Sorts (List.range t.border) cs ks)
    (hcs : Follow (fun i j => R (t.nth i) (t.nth j)) cs) : InOrder R t ks t' := by
  have hgraded : Graded (fun i j => R (t.nth i) (t.nth j)) (List.range t.border) :=
    ⟨fun i hi j hj => hR.asymm _ (nth_mem_values hi) _ (nth_mem_values hj),
      fun i hi j hj k hk => hR.connected _ (nth_mem_values hi) _ (nth_mem_values hj) _
        (nth_mem_values hk)⟩
  have hplaced : ks.Pairwise (Placed (fun i j => R (t.nth i) (t.nth j)) (· < ·)) :=
    hks.placed hgraded hcs (fun _ hi => hi) List.pairwise_lt_range
  refine ⟨?_, hplaced.imp fun hp hn => hp.2.resolve_left hn⟩
  rw [h.values]
  exact List.pairwise_map.mpr (hplaced.imp fun hp => hp.1)

end Table

/-! ### Putting values back -/

namespace Library.Tables

variable {t : Table} {ks : List Nat} {vs : List Value} {q : Value}

theorem key_succ (n : Nat) : Value.int (key (n + 1)) = .nat (n + 1) := key_nat (n + 1)

theorem items_eq (t : Table) : items t t.border 1 = t.values := by
  refine List.map_congr_left fun (i : Nat) _ => ?_
  show t.lookup (.int (key (1 + i))) = t.lookup (.nat (i + 1))
  rw [Int.add_comm, key_succ]

/-- The values with the keys from 1 on. -/
def withKeys (vs : List Value) : List (Int64 × Value) :=
  vs.zipIdx.map fun e => (key (e.2 + 1), e.1)

theorem writeItems_eq (t : Table) (vs : List Value) :
    writeItems t vs = t.setItems (withKeys vs) := by
  rw [Table.setItems, withKeys, List.foldl_map]
  rfl

theorem length_withKeys : (withKeys vs).length = vs.length := by
  rw [withKeys, List.length_map, List.length_zipIdx]

theorem getElem_withKeys {i : Nat} (hi : i < vs.length) (hi' : i < (withKeys vs).length) :
    (withKeys vs)[i] = (key (i + 1), vs[i]) := by
  simp [withKeys]

theorem pairwise_withKeys (h : vs.length < 2 ^ 63) :
    (withKeys vs).Pairwise fun e e' => e.1 ≠ e'.1 := by
  refine List.pairwise_iff_getElem.mpr fun i j hi hj hlt heq => ?_
  have hi' : i < vs.length := length_withKeys ▸ hi
  have hj' : j < vs.length := length_withKeys ▸ hj
  rw [getElem_withKeys hi' hi, getElem_withKeys hj' hj] at heq
  have := key_injective (by omega) (by omega) (by omega) (by omega) heq
  omega

theorem nth_writeItems (ht : t.Made) (h : vs.length < 2 ^ 63) {i : Nat} (hi : i < vs.length) :
    (writeItems t vs).nth i = vs[i] := by
  have hi' : i < (withKeys vs).length := length_withKeys.symm ▸ hi
  have hmem : (key (i + 1), vs[i]) ∈ withKeys vs := getElem_withKeys hi hi' ▸ List.getElem_mem hi'
  rw [Table.nth, writeItems_eq, ← key_succ]
  exact ht.lookup_setItems (pairwise_withKeys h) hmem

theorem lookup_writeItems_of_not (ht : t.Made)
    (hq : ∀ i < vs.length, (Value.nat (i + 1)).equals q = false) :
    (writeItems t vs).lookup q = t.lookup q := by
  rw [writeItems_eq]
  refine ht.lookup_setItems_of_not_mem fun e he => ?_
  obtain ⟨i, hi, rfl⟩ := List.getElem_of_mem he
  have hi' : i < vs.length := length_withKeys ▸ hi
  rw [getElem_withKeys hi' hi, key_succ]
  exact hq i hi'

/-- Putting the values of a table back in another order rearranges it. -/
theorem rearranged_writeItems (ht : t.Made) (hks : ks.Perm (List.range t.border)) :
    Table.Rearranged t ks (writeItems t (ks.map t.nth)) := by
  have hlength : (ks.map t.nth).length = t.border := by
    rw [List.length_map, hks.length_eq, List.length_range]
  have hlt := ht.border_lt
  have hnth : ∀ {i} (hi : i < (ks.map t.nth).length),
      (writeItems t (ks.map t.nth)).nth i = (ks.map t.nth)[i] :=
    fun hi => nth_writeItems ht (hlength ▸ hlt) hi
  have hmade : (writeItems t (ks.map t.nth)).Made := writeItems_eq t _ ▸ ht.setItems _
  have hborder : (writeItems t (ks.map t.nth)).border = t.border := by
    refine hmade.border_eq hlt (fun i hi => ?_) fun hend => ?_
    · -- the value was at one of the keys up to the length
      have hi' : i < (ks.map t.nth).length := hlength.symm ▸ hi
      obtain ⟨j, hj, hvalue⟩ := List.mem_map.mp (List.getElem_mem hi')
      rw [hnth hi', ← hvalue]
      exact ht.nth_ne_nil (List.mem_range.mp (hks.mem_iff.mp hj))
    · refine (lookup_writeItems_of_not ht fun i hi => ?_).trans (ht.nth_border hend)
      exact Table.nat_equals_nat_of_lt (hlength ▸ hi) hend
  refine ⟨hks, hborder, ?_, fun q hq => ?_, ?_⟩
  · refine List.ext_getElem (by rw [Table.length_values, hborder, hlength]) fun i _ hi => ?_
    rw [← hnth hi]
    simp [Table.values]
  · exact Table.get_eq_of_lookup_eq (lookup_writeItems_of_not ht (hlength ▸ hq))
  · rw [writeItems_eq]
    exact Table.metatable_setItems t _

/-! ### The program -/

variable {args : List Value} {id : TableId} {c : Option Function} {r : Except Raised (List Value)}

/-- What `sort` is given to compare with: a function, or nil for the default order. -/
def comparison : Option Function → Value
  | none => .nil
  | some f => .function f

/-- The comparison of the values at two indices. -/
def lessAt (c : Option Function) (t : Table) (i j : Nat) : Program H Bool :=
  less c (t.nth i) (t.nth j)

/-- The indices in the order of their values. -/
def sortedIndices (c : Option Function) (t : Table) : Program H (List Nat) :=
  mergeSort (lessAt c t) (List.range t.border)

theorem sort_eq (hid : argument TableId args 0 = .ok id) (hc : args.getD 1 .nil = comparison c) :
    (sort args : Program H (List Value)) = .read fun w =>
      (sortedIndices c (w.memory.heap.table id)).bind fun ks =>
        .read fun w₁ => .read fun w₂ => .read fun w₃ => .write { w₃.memory with
            heap := w₂.memory.heap.store id (writeItems (w₁.memory.heap.table id)
              (ks.map (w.memory.heap.table id).nth)) }
          fun _ => .done [] := by
  have hsort : (sort args : Program H (List Value)) = .read fun w =>
      mergeSort (less c) (items (w.memory.heap.table id) (w.memory.heap.table id).border 1) >>=
        fun vs => .read fun w₁ => .read fun w₂ => .read fun w₃ => .write { w₃.memory with
            heap := w₂.memory.heap.store id (writeItems (w₁.memory.heap.table id) vs) }
          fun _ => .done [] := by
    rw [sort, hid, Program.ok_bind, hc]
    cases c <;> rfl
  rw [hsort]
  refine congrArg Program.read (funext fun w => ?_)
  rw [items_eq, Table.values, mergeSort_map, bind_map_left]
  rfl

/-- `sort` sorts the indices and puts the values back, or it fails as the sort of the indices
fails. -/
theorem sort_runs_iff (hid : argument TableId args 0 = .ok id)
    (hc : args.getD 1 .nil = comparison c) {t : Table} (ht : w.memory.heap.table id = t) :
    (sort args).Runs B w r w' ↔
      (∃ ks w₁, (sortedIndices c t).Runs B w (.ok ks) w₁ ∧ r = .ok [] ∧
        w' = w₁.withTable id (writeItems (w₁.memory.heap.table id) (ks.map t.nth))) ∨
      ∃ e, r = .error e ∧ (sortedIndices c t).Runs B w (.error e) w' := by
  subst ht
  rw [sort_eq hid hc, Program.runs_read_iff, Program.runs_bind_iff]
  simp only [Program.InParts, Program.runs_read_iff, Program.runs_write_iff,
    Program.runs_done_iff]
  rfl

theorem table_withTable_writeItems {t : Table} (ht : w.memory.heap.table id = t)
    (hks : ks.Perm (List.range t.border)) :
    (w.withTable id (writeItems t (ks.map t.nth))).memory.heap.table id =
      writeItems t (ks.map t.nth) := by
  by_cases hi : id.index < w.memory.heap.tables.size
  · exact World.table_withTable hi
  · -- there is no such table, and nothing to be put back
    obtain rfl : t = .empty := ht.symm.trans (Heap.table_of_not_lt hi)
    obtain rfl : ks = [] := hks.eq_nil
    show (w.memory.heap.store id .empty).table id = .empty
    rw [← ht, Heap.store_table]

/-- The two ends of a sort.  It has compared values of the table and put them all back in another
order, or a comparison has failed. -/
inductive SortCourse (B : Behaviour H) (c : Option Function) (id : TableId) (t : Table)
    (w : World H) : Except Raised (List Value) → World H → Prop
  | sorted {cs ks w₁ w'} (made : Makes B (lessAt c t) (List.range t.border) w cs w₁)
      (sorts : Sorts (List.range t.border) cs ks)
      (rearranged : Table.Rearranged t ks (w'.memory.heap.table id)) (same : w₁.SameBut id w') :
      SortCourse B c id t w (.ok []) w'
  | failed {cs w₁ w' i j e} (made : Makes B (lessAt c t) (List.range t.border) w cs w₁)
      (hi : i ∈ List.range t.border) (hj : j ∈ List.range t.border)
      (fails : (lessAt c t i j).Runs B w₁ (.error e) w') : SortCourse B c id t w (.error e) w'

/-- Every run of `sort` takes this course, if the comparisons leave the table alone. -/
theorem sort_course {t : Table} {P : World H → Prop} (hid : argument TableId args 0 = .ok id)
    (hc : args.getD 1 .nil = comparison c) (ht : t.Made)
    (htable : ∀ {w}, P w → w.memory.heap.table id = t)
    (hclosed : Closed B (lessAt c t) (List.range t.border) P) (hw : P w)
    (h : (sort args).Runs B w r w') : SortCourse B c id t w r w' := by
  rcases (sort_runs_iff hid hc (htable hw)).mp h with ⟨ks, w₁, hks, rfl, rfl⟩ | ⟨e, rfl, hfail⟩
  · cases mergeSort_runs hks with
    | result hm hs =>
      have htable₁ := htable (hm.closed hclosed hw)
      refine .sorted hm hs ?_ (w₁.sameBut_withTable id _)
      rw [htable₁, table_withTable_writeItems htable₁ hs.perm]
      exact rearranged_writeItems ht hs.perm
  · cases mergeSort_runs hfail with
    | failure hm hi hj hf => exact .failed hm hi hj hf

/-- `sort` comes to an end if the comparisons do. -/
theorem exists_sort_runs {t : Table} {P : World H → Prop} (hid : argument TableId args 0 = .ok id)
    (hc : args.getD 1 .nil = comparison c) (htable : w.memory.heap.table id = t)
    (hclosed : Closed B (lessAt c t) (List.range t.border) P)
    (hfin : Finishing B (lessAt c t) (List.range t.border) P) (hw : P w) :
    ∃ r w', (sort args).Runs B w r w' := by
  obtain ⟨r, w', h⟩ := exists_mergeSort_runs hclosed hfin hw (List.Subset.refl _)
  cases r with
  | ok ks => exact ⟨_, _, (sort_runs_iff hid hc htable).mpr (.inl ⟨ks, w', h, rfl, rfl⟩)⟩
  | error e => exact ⟨_, _, (sort_runs_iff hid hc htable).mpr (.inr ⟨e, rfl, h⟩)⟩

/-! ### Comparing with a function -/

variable {f : Function} {t : Table} {P : World H → Prop} {R : Value → Value → Prop}

/-- What a comparison makes of the answer of the function. -/
def verdict : Except TracedError (List Value) → Except Raised Bool
  | .ok vs => .ok (Values.first vs).isTruthy
  | .error e => .error (.traced e)

theorem less_eq (f : Function) (a b : Value) : (less (some f) a b : Program H Bool) =
    .call (.function f) [a, b] fun answer => .ending (verdict answer) := by
  refine congrArg (Program.call _ _) (funext fun answer => ?_)
  cases answer <;> rfl

/-- A comparison is a call of the function. -/
theorem less_runs_iff {a b : Value} {r : Except Raised Bool} : (less (some f) a b).Runs B w r w' ↔
    ∃ answer, w.Call B (.function f) [a, b] answer w' ∧ r = verdict answer := by
  rw [less_eq, Program.runs_call_iff]
  simp only [Program.runs_ending_iff]
  constructor
  · rintro ⟨answer, w₁, hc, rfl, rfl⟩
    exact ⟨answer, hc, rfl⟩
  · rintro ⟨answer, hc, rfl⟩
    exact ⟨answer, w', hc, rfl, rfl⟩

/-- Calls of `f` to compare values of `t`, in worlds of the kind `P`, leave the table alone and
lead to such worlds only. -/
structure LeavesAlone (B : Behaviour H) (f : Function) (id : TableId) (t : Table)
    (P : World H → Prop) : Prop where
  table : ∀ {w}, P w → w.memory.heap.table id = t
  keeps : ∀ {w a b r w'}, P w → a ∈ t.values → b ∈ t.values →
    w.Call B (.function f) [a, b] r w' → P w'

/-- In worlds of the kind `P`, the answers of `f` for values of `t` are those of a relation. -/
def Answers (B : Behaviour H) (f : Function) (t : Table) (P : World H → Prop)
    (R : Value → Value → Prop) : Prop :=
  ∀ {w a b vs w'}, P w → a ∈ t.values → b ∈ t.values →
    w.Call B (.function f) [a, b] (.ok vs) w' → ((Values.first vs).isTruthy = true ↔ R a b)

theorem LeavesAlone.closed (h : LeavesAlone B f id t P) :
    Closed B (lessAt (some f) t) (List.range t.border) P := by
  intro w i j r w' hw hi hj hr
  obtain ⟨answer, hc, -⟩ := less_runs_iff.mp hr
  exact h.keeps hw (Table.nth_mem_values hi) (Table.nth_mem_values hj) hc

/-- A function that changes nothing leaves the table alone. -/
theorem leavesAlone_of_call (htable : w.memory.heap.table id = t)
    {answer : Value → Value → Except TracedError (List Value)}
    (hcall : ∀ a ∈ t.values, ∀ b ∈ t.values, w.Call B (.function f) [a, b] (answer a b) w) :
    LeavesAlone B f id t (· = w) where
  table hw := hw ▸ htable
  keeps := by
    rintro _ a b r w' rfl ha hb hc
    exact (hc.unique (hcall a ha b hb)).2

/-- The outcomes of sorting with a function: all comparisons were answered and the values are back
in another order, or one comparison has failed. -/
inductive SortOutcome (B : Behaviour H) (f : Function) (id : TableId) (t : Table)
    (P : World H → Prop) (w : World H) : Except Raised (List Value) → World H → Prop
  | sorted {cs ks w₁ w'} (made : Makes B (lessAt (some f) t) (List.range t.border) w cs w₁)
      (sorts : Sorts (List.range t.border) cs ks)
      (rearranged : Table.Rearranged t ks (w'.memory.heap.table id)) (same : w₁.SameBut id w')
      (inOrder : ∀ R, IsStrictWeakOrder {v // v ∈ t.values} (fun a b => R a b) →
        Answers B f t P R → Table.InOrder R t ks (w'.memory.heap.table id)) :
      SortOutcome B f id t P w (.ok []) w'
  | failed {cs w₁ w' i j e} (made : Makes B (lessAt (some f) t) (List.range t.border) w cs w₁)
      (hi : i < t.border) (hj : j < t.border)
      (call : w₁.Call B (.function f) [t.nth i, t.nth j] (.error e) w')
      (unchanged : w'.memory.heap.table id = t) :
      SortOutcome B f id t P w (.error (.traced e)) w'

/-- **Sorting with any function.**  If the function leaves the table alone, then `sort` ends, as
long as the calls of the function do.  If all of them give answers, the values of the table have
been rearranged, in order if the answers follow a strict weak order, and the rest of the table is as
it was.  If one fails, `sort` fails with the same error and the table is as it was; and a request to
yield is such a failure. -/
theorem sort_by_function (host : HostCode H) (hid : argument TableId args 0 = .ok id)
    (hf : args.getD 1 .nil = .function f) (ht : t.Made)
    (halone : LeavesAlone (.standard host) f id t P) (hw : P w) :
    ((∀ w a b, P w → a ∈ t.values → b ∈ t.values →
        ∃ r w', w.Call (.standard host) (.function f) [a, b] r w') →
      ∃ r w', ((Behaviour.standard host).builtin (.table .sort) args).Runs (.standard host)
        w r w') ∧
    (∀ r w', ((Behaviour.standard host).builtin (.table .sort) args).Runs (.standard host) w r w' →
      SortOutcome (.standard host) f id t P w r w') ∧
    ∀ a b, YieldsRefused (.standard host) (.function f) [a, b] := by
  have hclosed := halone.closed
  refine ⟨fun hfin => ?_, fun r w' h => ?_, fun a b => yields_refused⟩
  · refine exists_sort_runs (c := some f) hid hf (halone.table hw) hclosed
      (fun w i j hw hi hj => ?_) hw
    obtain ⟨answer, w', hc⟩ := hfin w _ _ hw (Table.nth_mem_values hi) (Table.nth_mem_values hj)
    exact ⟨_, w', less_runs_iff.mpr ⟨answer, hc, rfl⟩⟩
  · cases sort_course (c := some f) hid hf ht halone.table hclosed hw h with
    | sorted hm hs hre hsame =>
      refine .sorted hm hs hre hsame fun R hR hanswers => ?_
      refine hre.inOrder (graded_of_isStrictWeakOrder hR) hs (hm.follow hclosed ?_ hw)
      intro w i j isLess w' hw hi hj hr
      obtain ⟨answer, hc, hverdict⟩ := less_runs_iff.mp hr
      cases answer with
      | error e => cases hverdict
      | ok vs =>
        obtain rfl := Except.ok.inj hverdict
        exact hanswers hw (Table.nth_mem_values hi) (Table.nth_mem_values hj) hc
    | failed hm hi hj hfails =>
      have htable := halone.table (hclosed _ _ _ _ _ (hm.closed hclosed hw) hi hj hfails)
      obtain ⟨answer, hc, hverdict⟩ := less_runs_iff.mp hfails
      cases answer with
      | ok vs => cases hverdict
      | error e =>
        obtain rfl := Except.error.inj hverdict
        exact .failed hm (List.mem_range.mp hi) (List.mem_range.mp hj) hc htable

/-- A table of two integers in descending order. -/
def descending : Table := (Table.empty.setItem 1 (.nat 2)).setItem 2 (.nat 1)

/-- A world with this table. -/
def descendingWorld : World .bare :=
  { World.bare with memory := (World.bare.memory.allocate descending).2 }

/-- The comparison of integers without regard to their sign. -/
def unsignedLess : Function := .builtin (.math .ult)

theorem values_descending : descending.values = [.nat 2, .nat 1] := by decide +kernel

/-- The calls that compare the two integers. -/
theorem call_unsignedLess : ∀ a ∈ descending.values, ∀ b ∈ descending.values,
    descendingWorld.Call .bare (.function unsignedLess) [a, b]
      (.ok [.boolean (decide (a = .nat 1 ∧ b = .nat 2))]) descendingWorld := by
  intro a ha b hb
  rw [values_descending, List.mem_pair] at ha hb
  rcases ha with rfl | rfl <;> rcases hb with rfl | rfl
  all_goals exact Machine.call_of_isAnswered 3 rfl rfl

/-- A world with this table, and with a function that yields. -/
def yieldingWorld : World .bare := (descendingWorld.define (.sequence .yield)).2

/-- A call of the function that yields. -/
theorem call_yield : ∀ a ∈ descending.values, ∀ b ∈ descending.values,
    yieldingWorld.Call .bare (.function (.created 0)) [a, b]
      (.error (.raisedBy "yield" (.coroutine .yieldOutsideCoroutine))) yieldingWorld := by
  intro a ha b hb
  rw [values_descending, List.mem_pair] at ha hb
  rcases ha with rfl | rfl <;> rcases hb with rfl | rfl
  all_goals exact Machine.call_of_isAnswered 4 rfl rfl

/-- The order in which these calls answer. -/
def OneTwo (a b : Value) : Prop := a = .nat 1 ∧ b = .nat 2

theorem isStrictWeakOrder_oneTwo :
    IsStrictWeakOrder {v // v ∈ descending.values} fun a b => OneTwo a b := by
  have hcases : ∀ v : {v // v ∈ descending.values}, v.1 = .nat 2 ∨ v.1 = .nat 1 := by
    rintro ⟨v, hv⟩
    rw [values_descending, List.mem_pair] at hv
    exact hv
  have hne : Value.nat 1 ≠ .nat 2 := by decide
  refine { irrefl := ?_, trans := ?_, incomp_trans := ?_ }
  · rintro a ⟨h, h'⟩
    exact hne (h.symm.trans h')
  · rintro a b c ⟨-, h⟩ ⟨h', -⟩
    exact absurd (h'.symm.trans h) hne
  · rintro a b c ⟨hab, hba⟩ ⟨hbc, hcb⟩
    rcases hcases b with hb | hb
    · exact ⟨fun h => hab ⟨h.1, hb⟩, fun h => hcb ⟨h.1, hb⟩⟩
    · exact ⟨fun h => hbc ⟨hb, h.2⟩, fun h => hba ⟨hb, h.2⟩⟩

theorem values_of_inOrder {ks : List Nat} {t' : Table} (h : Table.Rearranged descending ks t')
    (ho : Table.InOrder OneTwo descending ks t') : t'.values = [.nat 1, .nat 2] := by
  have hordered := ho.ordered
  have hperm := h.perm_values
  rw [values_descending, List.perm_pair] at hperm
  rcases hperm with hvalues | hvalues
  · -- the integers would still be in descending order
    rw [hvalues, List.pairwise_pair] at hordered
    exact absurd ⟨rfl, rfl⟩ hordered
  · exact hvalues

/-- The two integers are sorted by the one function; a comparison by the other tries to yield, and
`sort` fails. -/
theorem sort_by_function_descending :
    (LeavesAlone .bare unsignedLess ⟨1⟩ descending (· = descendingWorld) ∧ ∃ w',
      (Behaviour.bare.builtin (.table .sort) [.table ⟨1⟩, .function unsignedLess]).Runs .bare
        descendingWorld (.ok []) w' ∧
      (w'.memory.heap.table ⟨1⟩).values = [.nat 1, .nat 2]) ∧
    ∃ w', (Behaviour.bare.builtin (.table .sort) [.table ⟨1⟩, .function (.created 0)]).Runs .bare
        yieldingWorld
        (.error (.traced (.raisedBy "yield" (.coroutine .yieldOutsideCoroutine)))) w' ∧
      w'.memory.heap.table ⟨1⟩ = descending := by
  have hmade : descending.Made := (Table.Made.empty.setItem 1 _).setItem 2 _
  constructor
  · have halone : LeavesAlone .bare unsignedLess ⟨1⟩ descending (· = descendingWorld) :=
      leavesAlone_of_call rfl call_unsignedLess
    have hid : argument TableId [.table ⟨1⟩, .function unsignedLess] 0 = .ok ⟨1⟩ := rfl
    obtain ⟨hends, houtcomes, -⟩ := sort_by_function .bare hid rfl hmade halone rfl
    obtain ⟨r, w', hruns⟩ := hends fun w a b hw ha hb => ⟨_, _, hw ▸ call_unsignedLess a ha b hb⟩
    refine ⟨halone, w', ?_⟩
    cases houtcomes r w' hruns with
    | failed hm hi hj hc =>
      have hi := Table.nth_mem_values (List.mem_range.mpr hi)
      have hj := Table.nth_mem_values (List.mem_range.mpr hj)
      obtain rfl := hm.closed halone.closed rfl
      cases (hc.unique (call_unsignedLess _ hi _ hj)).1
    | @sorted _ ks _ _ hm _ hre _ hin =>
      refine ⟨hruns, ?_⟩
      refine values_of_inOrder hre (hin OneTwo isStrictWeakOrder_oneTwo fun hw ha hb hc => ?_)
      obtain rfl := hw
      obtain rfl := Except.ok.inj (hc.unique (call_unsignedLess _ ha _ hb)).1
      exact decide_eq_true_iff
  · have halone : LeavesAlone .bare (.created 0) ⟨1⟩ descending (· = yieldingWorld) :=
      leavesAlone_of_call rfl call_yield
    have hid : argument TableId [.table ⟨1⟩, .function (.created 0)] 0 = .ok ⟨1⟩ := rfl
    obtain ⟨hends, houtcomes, -⟩ := sort_by_function .bare hid rfl hmade halone rfl
    obtain ⟨r, w', hruns⟩ := hends fun w a b hw ha hb => ⟨_, _, hw ▸ call_yield a ha b hb⟩
    refine ⟨w', ?_⟩
    cases houtcomes r w' hruns with
    | failed hm hi hj hc htable =>
      have hi := Table.nth_mem_values (List.mem_range.mpr hi)
      have hj := Table.nth_mem_values (List.mem_range.mpr hj)
      obtain rfl := hm.closed halone.closed rfl
      obtain ⟨he, -⟩ := hc.unique (call_yield _ hi _ hj)
      obtain rfl := Except.error.inj he
      exact ⟨hruns, htable⟩
    | sorted hm hs =>
      -- two values are compared, and no comparison is answered
      cases hm with
      | cons hi hj hless =>
        obtain ⟨answer, hc, hverdict⟩ := less_runs_iff.mp hless
        obtain ⟨rfl, -⟩ := hc.unique (call_yield _ (Table.nth_mem_values hi) _
          (Table.nth_mem_values hj))
        cases hverdict
      | nil => exact absurd rfl (hs.comparisons_ne_nil (by decide +kernel))

end Library.Tables

end Lua
