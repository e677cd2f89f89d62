/-
Writing items.

The table library puts many values at integer keys of a table, one after the other.  Each of the
writes may move entries between the two parts of the table, but what it does to the map is simple,
and so is what they do together:

* `Made` — the tables that come up, of which one knows that they are maps;
* `setItems` — items written one after the other;
* `Made.lookup_setItems`, `Made.lookup_setItems_of_not_mem` — their values are at their keys
  afterwards, and everything else is as it was;
* `Made.foldl_copy` — a loop that copies items within a table copies the old ones, unless it writes
  over one before it is copied;
* `Rewritten` — a table with other items at the integers of a range, in whatever order they were
  written.
-/
import Lua.Library.Table
import Lua.Proofs.Border

namespace Lua

variable {H : Host}

namespace Table

variable {t : Table} {q v : Value} {i j : Int64} {es : List (Int64 × Value)}

/-! ### Tables -/

/-- A table that was made from an empty one by writes and changes of the metatable. -/
inductive Made : Table → Prop
  | empty : Made empty
  | write {t : Table} (h : Made t) (key v : Value) : Made (t.write (key, v))
  | setMetatable {t : Table} (h : Made t) (m : Option TableId) : Made { t with metatable := m }

theorem Made.sound (h : t.Made) : t.Sound := by
  induction h with
  | empty => exact sound_empty
  | write _ key v ih => exact (ih.write key v).1
  | setMetatable _ m ih => exact ⟨ih.size, ih.single, ih.array, ih.hash⟩

theorem Made.settled (h : t.Made) : t.Settled := by
  induction h with
  | empty => exact fun _ => rfl
  | write h key v ih => exact h.sound.settled_write ih (key, v)
  | setMetatable _ m ih => exact ih

/-- The length of a table fits into the integers. -/
theorem Made.border_lt (h : t.Made) : t.border < 2 ^ 63 := by
  rw [h.settled.border_eq]
  exact h.sound.size

/-! ### One item -/

theorem int_equals_int : (Value.int i).equals (.int j) = true ↔ i = j := beq_iff_eq

theorem int_equals_int_of_ne (h : i ≠ j) : (Value.int i).equals (.int j) = false :=
  beq_eq_false_iff_ne.mpr h

theorem isWritable_int (i : Int64) : isWritable (.int i) = true := by
  rw [isWritable, isKey, int_equals_int.mpr rfl]
  rfl

theorem setItem_eq (t : Table) (i : Int64) (v : Value) : t.setItem i v = t.write (.int i, v) := by
  rw [write_eq, if_pos (isWritable_int i)]
  rfl

theorem Made.setItem (h : t.Made) (i : Int64) (v : Value) : (t.setItem i v).Made :=
  setItem_eq t i v ▸ h.write (.int i) v

/-- A value is at the keys that equal its own. -/
theorem Made.lookup_write {k : Value} (h : t.Made) (hk : isWritable k = true) :
    (t.write (k, v)).lookup q = if k.equals q then v else t.lookup q := by
  obtain ⟨hs, hvalues⟩ := h.sound.write k v
  rw [lookup_eq hs, hvalues, hk, Bool.true_and, lookup_eq h.sound]
  split
  · cases v <;> rfl
  · rfl

/-- An item is at the keys that equal its own. -/
theorem Made.lookup_setItem (h : t.Made) :
    (t.setItem i v).lookup q = if (Value.int i).equals q then v else t.lookup q := by
  rw [setItem_eq, h.lookup_write (isWritable_int i)]

theorem metatable_setItem (t : Table) (i : Int64) (v : Value) :
    (t.setItem i v).metatable = t.metatable := by
  rw [setItem_eq, metatable_write]

/-! ### Many items -/

/-- The table after items were written, one after the other. -/
def setItems (t : Table) (es : List (Int64 × Value)) : Table :=
  es.foldl (fun t e => t.setItem e.1 e.2) t

theorem setItems_append (t : Table) (es : List (Int64 × Value)) (i : Int64) (v : Value) :
    t.setItems (es ++ [(i, v)]) = (t.setItems es).setItem i v := by
  rw [setItems, List.foldl_append]
  rfl

theorem Made.setItems (h : t.Made) (es : List (Int64 × Value)) : (t.setItems es).Made := by
  induction es using List.reverseRecOn with
  | nil => exact h
  | append_singleton es e ih => exact setItems_append t es e.1 e.2 ▸ ih.setItem e.1 e.2

theorem metatable_setItems (t : Table) (es : List (Int64 × Value)) :
    (t.setItems es).metatable = t.metatable := by
  induction es using List.reverseRecOn with
  | nil => rfl
  | append_singleton es e ih => rw [setItems_append t es e.1 e.2, metatable_setItem, ih]

/-- Keys that equal none of the items' have the values that they had. -/
theorem Made.lookup_setItems_of_not_mem (h : t.Made)
    (hq : ∀ e ∈ es, (Value.int e.1).equals q = false) : (t.setItems es).lookup q = t.lookup q := by
  induction es using List.reverseRecOn with
  | nil => rfl
  | append_singleton es e ih =>
    obtain ⟨hes, he⟩ := List.forall_mem_append.mp hq
    rw [setItems_append t es e.1 e.2, (h.setItems es).lookup_setItem,
      if_neg (Bool.eq_false_iff.mp (he e List.mem_cons_self)), ih hes]

/-- Items with different keys have their values. -/
theorem Made.lookup_setItems (h : t.Made) (hd : es.Pairwise fun e e' => e.1 ≠ e'.1)
    (he : (i, v) ∈ es) : (t.setItems es).lookup (.int i) = v := by
  induction es using List.reverseRecOn with
  | nil => exact absurd he List.not_mem_nil
  | append_singleton es e ih =>
    obtain ⟨hes, -, hcross⟩ := List.pairwise_append.mp hd
    rw [setItems_append t es e.1 e.2, (h.setItems es).lookup_setItem]
    rcases List.mem_append.mp he with he | he
    · have hne : e.1 ≠ i := (hcross _ he e List.mem_cons_self).symm
      rw [int_equals_int_of_ne hne, if_neg Bool.false_ne_true, ih hes he]
    · obtain rfl := List.mem_singleton.mp he
      exact if_pos (int_equals_int.mpr rfl)

/-- A loop that copies items within a table copies those that were there at its beginning, if it
never writes to a place from which it copies afterwards. -/
theorem Made.foldl_copy {α : Type} (h : t.Made) {ks : List α} (source target : α → Int64)
    (hks : ks.Pairwise fun j k => target j ≠ source k) :
    ks.foldl (fun t k => t.setItem (target k) (t.item (source k))) t =
      t.setItems (ks.map fun k => (target k, t.item (source k))) := by
  induction ks using List.reverseRecOn with
  | nil => rfl
  | append_singleton ks k ih =>
    obtain ⟨hks, -, hcross⟩ := List.pairwise_append.mp hks
    have hold : (t.setItems (ks.map fun k => (target k, t.item (source k)))).item (source k) =
        t.item (source k) := by
      refine h.lookup_setItems_of_not_mem fun e he => ?_
      obtain ⟨j, hj, rfl⟩ := List.mem_map.mp he
      exact int_equals_int_of_ne (hcross j hj k List.mem_cons_self)
    rw [List.foldl_append, ih hks, List.map_append, List.map_singleton, setItems_append, ← hold]
    rfl

/-! ### Reading the map -/

theorem get_eq_of_lookup_eq {t' : Table} (h : t'.lookup q = t.lookup q) : t'.get q = t.get q := by
  rw [get, get, h]

theorem get_int (t : Table) (i : Int64) : t.get (.int i) = .ok (t.lookup (.int i)) :=
  if_pos (int_equals_int.mpr rfl)

end Table

/-! ### Contents of tables -/

namespace Heap

variable {h : Heap} {i j : TableId} {t t' : Table}

theorem table_store (hi : i.index < h.tables.size) : (h.store i t).table i = t := by
  rw [table, store, Array.getD_eq_getD_getElem?, Array.getElem?_setIfInBounds_self_of_lt hi]
  rfl

theorem table_store_ne (hne : j ≠ i) : (h.store i t).table j = h.table j := by
  have hindex : i.index ≠ j.index := fun heq => hne (congrArg TableId.mk heq).symm
  rw [table, table, store, Array.getD_eq_getD_getElem?, Array.getD_eq_getD_getElem?,
    Array.getElem?_setIfInBounds_ne hindex]

theorem table_allocate : (h.allocate t).2.table (h.allocate t).1 = t := by
  simp [allocate, table]

theorem table_allocate_of_lt (hi : i.index < h.tables.size) :
    (h.allocate t).2.table i = h.table i := by
  simp [allocate, table, Array.getElem?_push_lt hi, hi]

/-- What stands for a table that was never created is empty. -/
theorem table_of_not_lt (hi : ¬ i.index < h.tables.size) : h.table i = .empty := by
  rw [table, Array.getD_eq_getD_getElem?, Array.getElem?_eq_none (Nat.le_of_not_lt hi)]
  rfl

theorem store_store : (h.store i t).store i t' = h.store i t' := by
  rw [store, store, store, Array.setIfInBounds_setIfInBounds]

theorem store_table : h.store i (h.table i) = h := by
  have htables : h.tables.setIfInBounds i.index (h.tables.getD i.index .empty) = h.tables := by
    refine Array.ext_getElem? fun n => ?_
    rw [Array.getElem?_setIfInBounds]
    split
    case isTrue heq =>
      subst heq
      split
      case isTrue hlt => exact (Array.getElem?_eq_getElem hlt).symm
      case isFalse hlt => exact (Array.getElem?_eq_none (Nat.le_of_not_lt hlt)).symm
    case isFalse => rfl
  rw [store, table, htables]

end Heap

/-- Two worlds that differ in the contents of one table at most. -/
structure World.SameBut (i : TableId) (w w' : World H) : Prop where
  tables : ∀ j, j ≠ i → w'.memory.heap.table j = w.memory.heap.table j
  size : w'.memory.heap.tables.size = w.memory.heap.tables.size
  rest : w' = { w with memory := { w.memory with
    heap := { w.memory.heap with tables := w'.memory.heap.tables } } }

theorem World.SameBut.refl (w : World H) (i : TableId) : w.SameBut i w := ⟨fun _ _ => rfl, rfl, rfl⟩

/-- The world with other contents of a table. -/
def World.withTable (w : World H) (i : TableId) (t : Table) : World H :=
  { w with memory := { w.memory with heap := w.memory.heap.store i t } }

theorem World.table_withTable {w : World H} {i : TableId} {t : Table}
    (hi : i.index < w.memory.heap.tables.size) : (w.withTable i t).memory.heap.table i = t :=
  Heap.table_store hi

theorem World.sameBut_withTable (w : World H) (i : TableId) (t : Table) :
    w.SameBut i (w.withTable i t) where
  tables _ hne := Heap.table_store_ne hne
  size := Array.size_setIfInBounds
  rest := rfl

/-! ### Keys of the library -/

namespace Library.Tables

theorem key_nat (n : Nat) : Value.int (key n) = .nat n := by
  rw [key, Int64.ofInt_eq_ofNat]
  rfl

/-- Integers within the range of the keys are told apart. -/
theorem key_injective {i j : Int} (hi : -2 ^ 63 ≤ i) (hi' : i < 2 ^ 63) (hj : -2 ^ 63 ≤ j)
    (hj' : j < 2 ^ 63) (h : key i = key j) : i = j := by
  have heq := congrArg Int64.toInt h
  rwa [key, key, Int64.toInt_ofInt_of_le hi hi', Int64.toInt_ofInt_of_le hj hj'] at heq

/-- Integers wrap around, but those of a range of no more than all of them are told apart. -/
theorem key_ne_key {i j : Int} (hlt : i < j) (hnear : j < i + 2 ^ 64) : key i ≠ key j := by
  intro heq
  have hmod := congrArg Int64.toInt heq
  rw [key, key, Int64.toInt_ofInt, Int64.toInt_ofInt, Int.bmod_def, Int.bmod_def, Int64.size]
    at hmod
  omega

/-! ### The items of a range -/

variable {t : Table} {first last : Int} {f : Int → Value} {is : List Int}

/-- The table `t'` is the table `t` with the values of `f` at the integers of a range. -/
structure Rewritten (t : Table) (first last : Int) (f : Int → Value) (t' : Table) : Prop where
  items : ∀ i, first ≤ i → i ≤ last → t'.get (.int (key i)) = .ok (f i)
  others : ∀ q, (∀ i, first ≤ i → i ≤ last → (Value.int (key i)).equals q = false) →
    t'.get q = t.get q
  metatable : t'.metatable = t.metatable

/-- The values may be written in any order, each once. -/
theorem rewritten_setItems (ht : t.Made) (hnodup : is.Nodup)
    (hmem : ∀ i, i ∈ is ↔ first ≤ i ∧ i ≤ last) (hnear : last < first + 2 ^ 64) :
    Rewritten t first last f (t.setItems (is.map fun i => (key i, f i))) where
  items i hfirst hlast := by
    have hdistinct : (is.map fun i => (key i, f i)).Pairwise fun e e' => e.1 ≠ e'.1 := by
      refine List.pairwise_map.mpr (hnodup.imp_of_mem fun {j k} hj hk hne => ?_)
      rw [hmem] at hj hk
      rcases lt_or_gt_of_ne hne with hlt | hlt
      · exact key_ne_key hlt (by omega)
      · exact (key_ne_key hlt (by omega)).symm
    rw [Table.get_int, ht.lookup_setItems hdistinct
      (List.mem_map.mpr ⟨i, (hmem i).mpr ⟨hfirst, hlast⟩, rfl⟩)]
  others q hq := by
    refine Table.get_eq_of_lookup_eq (ht.lookup_setItems_of_not_mem fun e he => ?_)
    obtain ⟨i, hi, rfl⟩ := List.mem_map.mp he
    obtain ⟨hfirst, hlast⟩ := (hmem i).mp hi
    exact hq i hfirst hlast
  metatable := Table.metatable_setItems t _

end Library.Tables

end Lua
