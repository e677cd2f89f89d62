/-
Shifting items.

`insert` moves the items from a position on up by one, the last one first, and puts a value at the
position.  `remove` moves the items after a position down by one, the first one first, and clears
the place of the last.  Each loop copies an item before it writes over it, so the items come out as
if all of them had been moved at once:

* `insertAt`, `removeAt` — the tables that the two functions make;
* `rewritten_insertAt`, `rewritten_removeAt` — what is written there, position by position;
* `Inserted`, `Removed` — a table with one item more, and one with one item less;
* `removeAt_insertAt` — removing what was inserted gives the old map again, if the key behind the
  items is free;
* `insert_remove_shift` — the runs of the two functions.

Design notes: positions are integers, and so is the one after the length.  Integers wrap around, so
the greatest key is followed by the least one.  Nothing has to be assumed of the length for that,
since the keys of the positions stay different.
-/
import Lua.Proofs.CompleteTraversal
import Lua.Proofs.Sorting

namespace Lua

variable {H : Host} {B : Behaviour H} {w : World H}

/-- Equal keys have the same value. -/
theorem Table.Sound.get_congr {t : Table} {k q : Value} (hs : t.Sound)
    (h : k.equals q = true) : t.get k = t.get q := by
  rw [get, get, isKey_congr h, lookup_eq hs, lookup_eq hs, valuesAt_congr h]

namespace Library.Tables

variable {t t' t'' : Table} {p stop : Int} {v : Value}

/-! ### The two loops -/

/-- Moving items up, the last one first, moves the old items. -/
theorem shiftUp_eq (ht : t.Made) (hnear : stop < p + 2 ^ 64) :
    shiftUp t p stop = t.setItems ((List.range (stop - p).toNat).map fun (k : Nat) =>
      (key (stop - k), t.item (key (stop - k - 1)))) := by
  refine ht.foldl_copy _ _ (List.pairwise_lt_range.imp_of_mem fun {j k} _ hk hlt => ?_)
  rw [List.mem_range] at hk
  exact (key_ne_key (by omega) (by omega)).symm

/-- Moving items down, the first one first, moves the old items. -/
theorem shiftDown_eq (ht : t.Made) (hnear : stop < p + 2 ^ 64) :
    shiftDown t p stop = t.setItems ((List.range (stop - p).toNat).map fun (k : Nat) =>
      (key (p + k), t.item (key (p + k + 1)))) := by
  refine ht.foldl_copy _ _ (List.pairwise_lt_range.imp_of_mem fun {j k} _ hk hlt => ?_)
  rw [List.mem_range] at hk
  exact key_ne_key (by omega) (by omega)

/-! ### What is written -/

/-- A position at which `insert` accepts a value. -/
def Insertable (t : Table) (p : Int) : Prop := 1 ≤ p ∧ p ≤ t.border + 1

/-- A position from which `remove` accepts to take a value. -/
def Removable (t : Table) (p : Int) : Prop := Insertable t p ∨ p = 0 ∧ t.border = 0

/-- The table after a value was inserted. -/
def insertAt (t : Table) (p : Int) (v : Value) : Table :=
  (shiftUp t p (t.border + 1)).setItem (key p) v

/-- The table after a value was removed. -/
def removeAt (t : Table) (p : Int) : Table :=
  (shiftDown t p t.border).setItem (key (max p t.border)) .nil

/-- What stands at the positions from `p` on when a value was inserted there. -/
def afterInsert (t : Table) (p : Int) (v : Value) (i : Int) : Value :=
  if i = p then v else t.item (key (i - 1))

/-- What stands at the positions from `p` on when the value there was removed. -/
def afterRemove (t : Table) (i : Int) : Value :=
  if i < t.border then t.item (key (i + 1)) else .nil

theorem Removable.bounds (hp : Removable t p) : 0 ≤ p ∧ p ≤ t.border + 1 := by
  rw [Removable, Insertable] at hp
  omega

theorem made_insertAt (ht : t.Made) (hp : Insertable t p) : (insertAt t p v).Made := by
  obtain ⟨hlow, -⟩ := hp
  have hborder := ht.border_lt
  rw [insertAt, shiftUp_eq ht (by omega)]
  exact (ht.setItems _).setItem _ _

theorem made_removeAt (ht : t.Made) (hp : Removable t p) : (removeAt t p).Made := by
  obtain ⟨hlow, -⟩ := hp.bounds
  have hborder := ht.border_lt
  rw [removeAt, shiftDown_eq ht (by omega)]
  exact (ht.setItems _).setItem _ _

/-- The positions are written from the last one down to that of the value. -/
theorem rewritten_insertAt (ht : t.Made) (hp : Insertable t p) :
    Rewritten t p (t.border + 1) (afterInsert t p v) (insertAt t p v) := by
  obtain ⟨hlow, hhigh⟩ := hp
  have hborder := ht.border_lt
  obtain ⟨m, hm⟩ : ∃ m : Nat, (m : Int) = t.border + 1 - p :=
    ⟨(t.border + 1 - p).toNat, by omega⟩
  have hwrites : insertAt t p v = t.setItems
      (((List.range (m + 1)).map fun (k : Nat) => (t.border + 1 - k : Int)).map fun i =>
        (key i, afterInsert t p v i)) := by
    have hlast : (t.border + 1 - m : Int) = p := by omega
    rw [insertAt, shiftUp_eq ht (by omega), ← Table.setItems_append, List.map_map,
      List.range_succ, List.map_append, List.map_singleton, Function.comp_apply, hlast,
      afterInsert, if_pos rfl, ← hm, Int.toNat_natCast]
    congr 2
    refine List.map_congr_left fun (k : Nat) hk => ?_
    rw [List.mem_range] at hk
    rw [Function.comp_apply, afterInsert, if_neg (by omega)]
  rw [hwrites]
  refine rewritten_setItems ht (List.nodup_range.map fun j k heq => by omega) (fun i => ?_)
    (by omega)
  simp only [List.mem_map, List.mem_range]
  exact ⟨fun ⟨k, hk, hi⟩ => by omega, fun hi => ⟨(t.border + 1 - i).toNat, by omega, by omega⟩⟩

/-- The positions are written from that of the value up to the last one. -/
theorem rewritten_removeAt (ht : t.Made) (hp : Removable t p) :
    Rewritten t p (max p t.border) (afterRemove t) (removeAt t p) := by
  obtain ⟨hlow, hhigh⟩ := hp.bounds
  have hborder := ht.border_lt
  obtain ⟨m, hm⟩ : ∃ m : Nat, (m : Int) = max p t.border - p :=
    ⟨(max p t.border - p).toNat, by omega⟩
  have hwrites : removeAt t p = t.setItems
      (((List.range (m + 1)).map fun (k : Nat) => (p + k : Int)).map fun i =>
        (key i, afterRemove t i)) := by
    have hlast : (p + m : Int) = max p t.border := by omega
    have hcount : (t.border - p : Int).toNat = m := by omega
    rw [removeAt, shiftDown_eq ht (by omega), ← Table.setItems_append, List.map_map,
      List.range_succ, List.map_append, List.map_singleton, Function.comp_apply, hlast,
      afterRemove, if_neg (by omega), hcount]
    congr 2
    refine List.map_congr_left fun (k : Nat) hk => ?_
    rw [List.mem_range] at hk
    rw [Function.comp_apply, afterRemove, if_pos (by omega)]
  rw [hwrites]
  refine rewritten_setItems ht (List.nodup_range.map fun j k heq => by omega) (fun i => ?_)
    (by omega)
  simp only [List.mem_map, List.mem_range]
  exact ⟨fun ⟨k, hk, hi⟩ => by omega, fun hi => ⟨(i - p).toNat, by omega, by omega⟩⟩

/-! ### One item more, one item less -/

/-- The table `t'` is the table `t` with a value at the position `p`, and with the items from there
on at the next positions. -/
structure Inserted (t : Table) (p : Int) (v : Value) (t' : Table) : Prop where
  value : t'.get (.int (key p)) = .ok v
  moved : ∀ i, p ≤ i → i ≤ t.border → t'.get (.int (key (i + 1))) = t.get (.int (key i))
  others : ∀ q, (∀ i, p ≤ i → i ≤ t.border + 1 → (Value.int (key i)).equals q = false) →
    t'.get q = t.get q
  metatable : t'.metatable = t.metatable

/-- The table `t'` is the table `t` without the value at the position `p`, and with the items
after it at the positions before.  If none comes after it, its own position becomes free. -/
structure Removed (t : Table) (p : Int) (t' : Table) : Prop where
  moved : ∀ i, p ≤ i → i < t.border → t'.get (.int (key i)) = t.get (.int (key (i + 1)))
  cleared : t'.get (.int (key (max p t.border))) = .ok .nil
  others : ∀ q, (∀ i, p ≤ i → i ≤ max p t.border → (Value.int (key i)).equals q = false) →
    t'.get q = t.get q
  metatable : t'.metatable = t.metatable

theorem inserted_insertAt (ht : t.Made) (hp : Insertable t p) :
    Inserted t p v (insertAt t p v) := by
  have hrewritten := rewritten_insertAt (v := v) ht hp
  refine ⟨?_, fun i hi hle => ?_, hrewritten.others, hrewritten.metatable⟩
  · rw [hrewritten.items p (le_refl p) hp.2, afterInsert, if_pos rfl]
  · rw [hrewritten.items (i + 1) (by omega) (by omega), afterInsert, if_neg (by omega),
      Int.add_sub_cancel, Table.get_int, Table.item]

theorem removed_removeAt (ht : t.Made) (hp : Removable t p) : Removed t p (removeAt t p) := by
  have hrewritten := rewritten_removeAt ht hp
  refine ⟨fun i hi hlt => ?_, ?_, hrewritten.others, hrewritten.metatable⟩
  · rw [hrewritten.items i hi (by omega), afterRemove, if_pos hlt, Table.get_int, Table.item]
  · rw [hrewritten.items _ (by omega) (le_refl _), afterRemove, if_neg (by omega)]

/-! ### Inserting and removing again -/

/-- There is room for one more item, and the key behind it is free. -/
structure HasRoom (t : Table) : Prop where
  next : t.border + 1 < 2 ^ 63
  behind : t.IsBorder (t.border + 1)

/-- A value that was inserted makes the table longer by one. -/
theorem Inserted.border_eq (h : Inserted t p v t') (ht : t.Made) (ht' : t'.Made)
    (hp : Insertable t p) (hv : v ≠ .nil) (hroom : HasRoom t) : t'.border = t.border + 1 := by
  obtain ⟨hlow, hhigh⟩ := hp
  have hnext := hroom.next
  have hpresent : ∀ i < t.border + 1, t'.get (.nat (i + 1)) ≠ .ok .nil := by
    intro i hi
    rcases lt_trichotomy (i + 1 : Int) p with hlt | heq | hlt
    · -- before the position nothing has changed
      rw [h.others _ fun j hj hle => ?_, Table.get_nat]
      · exact fun hnil => ht.nth_ne_nil (show i < t.border by omega) (Except.ok.inj hnil)
      · rw [← key_succ]
        exact Table.int_equals_int_of_ne (key_ne_key (by omega) (by omega)).symm
    · have hvalue := h.value
      rw [← heq, key_succ] at hvalue
      rw [hvalue]
      exact fun hnil => hv (Except.ok.inj hnil)
    · obtain ⟨j, rfl⟩ : ∃ j, i = j + 1 := ⟨i - 1, by omega⟩
      have hmoved := h.moved (j + 1 : Nat) (by omega) (by omega)
      rw [key_succ, key_nat, Table.get_nat t] at hmoved
      rw [hmoved]
      exact fun hnil => ht.nth_ne_nil (show j < t.border by omega) (Except.ok.inj hnil)
  have habsent : t.border + 1 + 1 < 2 ^ 63 → t'.get (.nat (t.border + 1 + 1)) = .ok .nil := by
    intro hlt
    rw [h.others _ fun j hj hle => ?_, hroom.behind hlt]
    rw [← key_succ]
    exact Table.int_equals_int_of_ne (key_ne_key (by omega) (by omega))
  refine ht'.border_eq hnext (fun i hi hnil => hpresent i hi ?_) fun hlt => ?_
  · rw [Table.get_nat]
    exact congrArg Except.ok hnil
  · have hnil := habsent hlt
    rw [Table.get_nat] at hnil
    exact Except.ok.inj hnil

/-- Removing what was inserted gives the old map again. -/
theorem Inserted.restored (h : Inserted t p v t') (h' : Removed t' p t'') (ht : t.Made)
    (ht'' : t''.Made) (hp : Insertable t p) (hnext : t.border + 1 < 2 ^ 63)
    (hlength : t'.border = t.border + 1) (q : Value) : t''.get q = t.get q := by
  obtain ⟨hlow, hhigh⟩ := hp
  have hlast : max p t'.border = t.border + 1 := by omega
  by_cases hq : ∃ i, p ≤ i ∧ i ≤ t.border + 1 ∧ (Value.int (key i)).equals q = true
  · obtain ⟨i, hi, hle, hkey⟩ := hq
    rw [← ht''.sound.get_congr hkey, ← ht.sound.get_congr hkey]
    rcases Int.lt_or_eq_of_le hle with hlt | rfl
    · -- the item has moved up and down
      rw [h'.moved i hi (by omega), h.moved i hi (by omega)]
    · have hcleared := h'.cleared
      rw [hlast] at hcleared
      rw [hcleared, key_succ, Table.get_nat]
      exact congrArg Except.ok (ht.nth_border hnext).symm
  · have hnone : ∀ i, p ≤ i → i ≤ t.border + 1 → (Value.int (key i)).equals q = false :=
      fun i hi hle => Bool.eq_false_iff.mpr fun hkey => hq ⟨i, hi, hle, hkey⟩
    rw [h'.others q fun i hi hle => hnone i hi (by omega), h.others q hnone]

/-- What was inserted can be removed again, and that gives the value and the old map. -/
theorem removeAt_insertAt (ht : t.Made) (hp : Insertable t p) (hv : v ≠ .nil)
    (hroom : HasRoom t) :
    Removable (insertAt t p v) p ∧ (insertAt t p v).item (key p) = v ∧
      (∀ q, (removeAt (insertAt t p v) p).get q = t.get q) ∧
      (removeAt (insertAt t p v) p).metatable = t.metatable := by
  have hinserted := inserted_insertAt (v := v) ht hp
  have hmade := made_insertAt (v := v) ht hp
  have hlength := hinserted.border_eq ht hmade hp hv hroom
  have hp' : Removable (insertAt t p v) p := by
    rw [Removable, Insertable, hlength]
    rw [Insertable] at hp
    omega
  have hremoved := removed_removeAt hmade hp'
  have hvalue := hinserted.value
  rw [Table.get_int, Except.ok.injEq] at hvalue
  have hrestored := hinserted.restored hremoved ht (made_removeAt hmade hp') hp hroom.next hlength
  exact ⟨hp', hvalue, hrestored, hremoved.metatable.trans hinserted.metatable⟩

/-! ### Calls -/

variable {args : List Value} {id : TableId} {r : Int64}

/-- The arguments of `insert` with a position. -/
structure InsertArguments (args : List Value) (id : TableId) (r : Int64) (v : Value) : Prop where
  three : ∃ x y, args = [x, y, v]
  table_eq : argument TableId args 0 = .ok id
  position_eq : argument Int64 args 1 = .ok r

/-- The arguments of `remove` with a position. -/
structure RemoveArguments (args : List Value) (id : TableId) (r : Int64) : Prop where
  table_eq : argument TableId args 0 = .ok id
  position_eq : argument? Int64 args 1 = .ok (some r)

/-- The error for a position that is not accepted. -/
def outOfBounds : Raised := .cause (.argument (.outOfRange "position out of bounds" 1))

theorem insert_eq (hargs : InsertArguments args id r v) :
    (insert args : Program H (List Value)) = .read fun w =>
      if r.toInt < 1 ∨ (w.memory.heap.table id).border + 1 < r.toInt then .fail outOfBounds
      else .read fun w₁ => .read fun w₂ => .write { w₂.memory with
          heap := w₁.memory.heap.store id (insertAt (w.memory.heap.table id) r.toInt v) }
        fun _ => .done [] := by
  obtain ⟨x, y, rfl⟩ := hargs.three
  refine (Program.bind_of_ok hargs.table_eq _).trans (congrArg Program.read (funext fun w => ?_))
  refine (Program.bind_of_ok hargs.position_eq _).trans ?_
  dsimp only
  split
  · rfl
  · rfl

theorem remove_eq (hargs : RemoveArguments args id r) :
    (remove args : Program H (List Value)) = .read fun w =>
      if r.toInt ≠ (w.memory.heap.table id).border ∧
          (r.toInt < 1 ∨ (w.memory.heap.table id).border + 1 < r.toInt) then .fail outOfBounds
      else .read fun w₁ => .read fun w₂ => .write { w₂.memory with
          heap := w₁.memory.heap.store id (removeAt (w.memory.heap.table id) r.toInt) }
        fun _ => .done [(w.memory.heap.table id).item (key r.toInt)] := by
  refine (Program.bind_of_ok hargs.table_eq _).trans (congrArg Program.read (funext fun w => ?_))
  refine (Program.bind_of_ok hargs.position_eq _).trans ?_
  dsimp only
  split
  · rfl
  · rfl

/-- `insert` refuses a position, or it inserts the value. -/
theorem insert_runs (hargs : InsertArguments args id r v) (ht : w.memory.heap.table id = t) :
    (Insertable t r.toInt →
        (insert args).Runs B w (.ok []) (w.withTable id (insertAt t r.toInt v))) ∧
      (¬ Insertable t r.toInt → (insert args).Runs B w (.error outOfBounds) w) := by
  subst ht
  rw [insert_eq hargs, Insertable]
  constructor
  · rintro ⟨hlow, hhigh⟩
    refine .read ?_
    rw [if_neg (by omega)]
    exact .read (.read (.write .done))
  · intro hout
    refine .read ?_
    rw [if_pos (by omega)]
    exact .fail

/-- `remove` refuses a position, or it removes the value. -/
theorem remove_runs (hargs : RemoveArguments args id r) (ht : w.memory.heap.table id = t) :
    (Removable t r.toInt → (remove args).Runs B w (.ok [t.item (key r.toInt)])
        (w.withTable id (removeAt t r.toInt))) ∧
      (¬ Removable t r.toInt → (remove args).Runs B w (.error outOfBounds) w) := by
  subst ht
  rw [remove_eq hargs, Removable, Insertable]
  constructor
  · intro hin
    refine .read ?_
    rw [if_neg (by omega)]
    exact .read (.read (.write .done))
  · intro hout
    refine .read ?_
    rw [if_pos (by omega)]
    exact .fail

/-- **`insert` and `remove` shift exactly.**  At a position that it accepts, `insert` puts the value
there and moves the items from there on up; `remove` gives the value there and moves the items after
it down.  Nothing else changes, and nothing at all if the position is not accepted.  Where there is
room for a value that is not nil, removing gives what was inserted and leaves the map as it was. -/
theorem insert_remove_shift (host : HostCode H) (w : World H) {args' : List Value}
    (hinsert : InsertArguments args id r v) (hremove : RemoveArguments args' id r)
    (hmade : (w.memory.heap.table id).Made) (hid : id.index < w.memory.heap.tables.size) :
    let B := Behaviour.standard host
    let t := w.memory.heap.table id
    let inserting := B.builtin (.table .insert) args
    let removing := B.builtin (.table .remove) args'
    (Insertable t r.toInt → ∃ w', inserting.Runs B w (.ok []) w' ∧
      Inserted t r.toInt v (w'.memory.heap.table id) ∧ w.SameBut id w') ∧
    (¬ Insertable t r.toInt → inserting.Runs B w (.error outOfBounds) w) ∧
    (Removable t r.toInt → ∃ w', removing.Runs B w (.ok [t.item r]) w' ∧
      Removed t r.toInt (w'.memory.heap.table id) ∧ w.SameBut id w') ∧
    (¬ Removable t r.toInt → removing.Runs B w (.error outOfBounds) w) ∧
    (Insertable t r.toInt → v ≠ .nil → HasRoom t → ∀ w₁, inserting.Runs B w (.ok []) w₁ →
      ∃ w₂, removing.Runs B w₁ (.ok [v]) w₂ ∧
        (∀ q, (w₂.memory.heap.table id).get q = t.get q) ∧
        (w₂.memory.heap.table id).metatable = t.metatable ∧ w.SameBut id w₂) := by
  intro B t inserting removing
  have htable : ∀ {t'}, (w.withTable id t').memory.heap.table id = t' :=
    World.table_withTable hid
  have hkey : key r.toInt = r := Int64.ofInt_toInt r
  obtain ⟨hinserts, hrefuses⟩ := insert_runs (B := B) (w := w) hinsert rfl
  obtain ⟨hremoves, hrefuses'⟩ := remove_runs (B := B) (w := w) hremove rfl
  rw [hkey] at hremoves
  refine ⟨fun hp => ⟨_, hinserts hp, ?_, w.sameBut_withTable _ _⟩, hrefuses,
    fun hp => ⟨_, hremoves hp, ?_, w.sameBut_withTable _ _⟩, hrefuses', ?_⟩
  · rw [htable]
    exact inserted_insertAt hmade hp
  · rw [htable]
    exact removed_removeAt hmade hp
  · intro hp hv hroom w₁ hruns
    obtain ⟨-, rfl⟩ := hruns.unique (hinserts hp)
    obtain ⟨hp', hvalue, hrestored, hmeta⟩ := removeAt_insertAt hmade hp hv hroom
    have hremoves' := (remove_runs (B := B) hremove htable).1 hp'
    rw [hvalue] at hremoves'
    have hback : (w.withTable id (insertAt t r.toInt v)).withTable id
        (removeAt (insertAt t r.toInt v) r.toInt) =
          w.withTable id (removeAt (insertAt t r.toInt v) r.toInt) := by
      rw [World.withTable, World.withTable, World.withTable, Heap.store_store]
    rw [hback] at hremoves'
    refine ⟨_, hremoves', ?_, ?_, w.sameBut_withTable _ _⟩
    · rwa [htable]
    · rwa [htable]

/-- A table of two items, and one far behind them. -/
def spaced : Table :=
  ((Table.empty.setItem 1 (.nat 10)).setItem 2 (.nat 20)).setItem 5 (.nat 50)

/-- A world with this table. -/
def spacedWorld : World .bare :=
  { World.bare with memory := (World.bare.memory.allocate spaced).2 }

/-- The second item moves up to make room for another one, and down again when that is removed;
what is far behind them stays. -/
theorem insert_remove_shift_spaced :
    let inserting := Behaviour.bare.builtin (.table .insert) [.table ⟨1⟩, .nat 2, .nat 15]
    let removing := Behaviour.bare.builtin (.table .remove) [.table ⟨1⟩, .nat 2]
    InsertArguments [.table ⟨1⟩, .nat 2, .nat 15] ⟨1⟩ 2 (.nat 15) ∧
    RemoveArguments [.table ⟨1⟩, .nat 2] ⟨1⟩ 2 ∧ spaced.Made ∧
    ∃ w₁ w₂, inserting.Runs .bare spacedWorld (.ok []) w₁ ∧
      (w₁.memory.heap.table ⟨1⟩).get (.nat 2) = .ok (.nat 15) ∧
      (w₁.memory.heap.table ⟨1⟩).get (.nat 3) = .ok (.nat 20) ∧
      (w₁.memory.heap.table ⟨1⟩).get (.nat 5) = .ok (.nat 50) ∧
      removing.Runs .bare w₁ (.ok [.nat 15]) w₂ ∧
      (w₂.memory.heap.table ⟨1⟩).get (.nat 2) = .ok (.nat 20) := by
  intro inserting removing
  have hinsert : InsertArguments [.table ⟨1⟩, .nat 2, .nat 15] ⟨1⟩ 2 (.nat 15) :=
    ⟨⟨_, _, rfl⟩, rfl, rfl⟩
  have hremove : RemoveArguments [.table ⟨1⟩, .nat 2] ⟨1⟩ 2 := ⟨rfl, rfl⟩
  have hmade : spaced.Made := ((Table.Made.empty.setItem 1 _).setItem 2 _).setItem 5 _
  have hborder : spaced.border = 2 := by decide +kernel
  have hp : Insertable spaced (2 : Int64).toInt := by
    rw [Insertable, hborder]
    decide
  have hroom : HasRoom spaced := by
    refine ⟨by rw [hborder]; decide, fun _ => ?_⟩
    rw [hborder]
    decide +kernel
  obtain ⟨hinserts, -, -, -, hrestores⟩ :=
    insert_remove_shift .bare spacedWorld hinsert hremove hmade (by decide)
  obtain ⟨w₁, hruns, hinserted, -⟩ := hinserts hp
  obtain ⟨w₂, hruns', hrestored, -⟩ := hrestores hp nofun hroom w₁ hruns
  refine ⟨hinsert, hremove, hmade, w₁, w₂, hruns, hinserted.value, ?_, ?_, hruns', ?_⟩
  · refine (hinserted.moved 2 (by decide) ?_).trans (by decide +kernel)
    show (2 : Int) ≤ spaced.border
    rw [hborder]
    decide
  · refine (hinserted.others (.nat 5) fun i hi hle => ?_).trans (by decide +kernel)
    have hle : i ≤ spaced.border + 1 := hle
    have hi : 2 ≤ i := hi
    rw [hborder] at hle
    interval_cases i <;> decide +kernel
  · exact (hrestored (.nat 2)).trans (by decide +kernel)

end Library.Tables

end Lua
