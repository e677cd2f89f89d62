/-
Packing and unpacking.

`pack` puts values at the keys from 1 on of a new table, and their number at the key `n`.  A value
may be nil, so the table may have holes and its length need not be the number.  `unpack` reads the
items of a range, with nil for those that are absent, so it gives the values back:

* `Packed` — the table of some values, as a map;
* `RangeArguments` — the range that the arguments of a function name;
* `Countable` — the integers that `unpack` computes do not overflow;
* `RangeItems` — the items of a range, in order;
* `unpack_undoes_pack` — the runs of the two functions.
-/
import Lua.Proofs.Moving
import Lua.Proofs.Sorting

namespace Lua

variable {H : Host} {B : Behaviour H} {w : World H}

namespace Table

variable {t : Table} {q v : Value} {name : String}

/-! ### Text keys -/

theorem isWritable_ofText (name : String) : isWritable (Value.ofText name) = true :=
  beq_self_eq_true _

theorem setField_eq (t : Table) (name : String) (v : Value) :
    t.setField name v = t.write (Value.ofText name, v) := by
  rw [write_eq, if_pos (isWritable_ofText name)]
  rfl

/-- The value of a field is at the keys that equal its name. -/
theorem Made.lookup_setField (h : t.Made) :
    (t.setField name v).lookup q = if (Value.ofText name).equals q then v else t.lookup q := by
  rw [setField_eq, h.lookup_write (isWritable_ofText name)]

theorem metatable_setField (t : Table) (name : String) (v : Value) :
    (t.setField name v).metatable = t.metatable := by
  rw [setField_eq, metatable_write]

end Table

namespace Library.Tables

variable {t : Table} {vs rs : List Value} {start stop : Int}

/-! ### Packing -/

/-- The table has the values at the keys from 1 on, their number at the key `n`, and nothing
else. -/
structure Packed (vs : List Value) (t : Table) : Prop where
  items : ∀ i (hi : i < vs.length), t.get (.nat (i + 1)) = .ok vs[i]
  count : t.get (Value.ofText "n") = .ok (.nat vs.length)
  others : ∀ q, ¬ q.IsNaN → (Value.ofText "n").equals q = false →
    (∀ i < vs.length, (Value.nat (i + 1)).equals q = false) → t.get q = .ok .nil
  metatable : t.metatable = none

theorem packed_eq (vs : List Value) :
    packed vs = (writeItems .empty vs).setField "n" (.nat vs.length) := rfl

theorem made_writeItems (ht : t.Made) : (writeItems t vs).Made :=
  writeItems_eq t vs ▸ ht.setItems _

theorem packed_packed (hlength : vs.length < 2 ^ 63) : Packed vs (packed vs) := by
  have hempty := Table.Made.empty
  have hlookup : ∀ q, (packed vs).lookup q =
      if (Value.ofText "n").equals q then .nat vs.length else (writeItems .empty vs).lookup q :=
    fun q => (made_writeItems hempty).lookup_setField
  constructor
  case items =>
    intro i hi
    -- the number is written last, but at a key that is no position
    have hne : (Value.ofText "n").equals (.nat (i + 1)) = false := rfl
    rw [Table.get_nat, hlookup, if_neg (Bool.eq_false_iff.mp hne)]
    exact congrArg Except.ok (nth_writeItems hempty hlength hi)
  case count => exact congrArg Except.ok ((hlookup _).trans (if_pos (beq_self_eq_true _)))
  case others =>
    intro q hq hcount hitems
    rw [Table.get, if_pos (Table.isKey_iff.mpr hq), hlookup, if_neg (Bool.eq_false_iff.mp hcount),
      lookup_writeItems_of_not hempty hitems, Table.lookup_eq Table.sound_empty]
    rfl
  case metatable =>
    rw [packed_eq, Table.metatable_setField, writeItems_eq, Table.metatable_setItems]
    rfl

/-! ### Ranges -/

/-- The arguments of a function that goes through a range of a table's items.  The range begins at
the argument `k`, by default at 1, and it ends at the next one, by default at the table's length. -/
structure RangeArguments (args : List Value) (k : Nat) (t : Table) (start stop : Int) : Prop where
  start_eq : ∃ i, argument? Int64 args k = .ok i ∧ (i.getD 1).toInt = start
  stop_eq : ∃ j, argument? Int64 args (k + 1) = .ok j ∧
    (j.map Int64.toInt).getD t.border = stop

/-- The ends of a range are integers of the language. -/
theorem RangeArguments.fits {args : List Value} {k : Nat} (h : RangeArguments args k t start stop)
    (ht : t.Made) : Fits start ∧ Fits stop := by
  obtain ⟨i, -, rfl⟩ := h.start_eq
  obtain ⟨j, -, rfl⟩ := h.stop_eq
  refine ⟨fits_toInt _, ?_⟩
  cases j with
  | some j => exact fits_toInt j
  | none =>
    -- a length is an integer of the language
    have hborder := ht.border_lt
    show Fits (t.border : Int)
    rw [fits_iff]
    omega

/-- The integers that `unpack` computes, of 64 bits and of 128 bits, do not overflow. -/
structure Countable (start stop : Int) : Prop where
  difference : -2 ^ 127 ≤ stop - start ∧ stop - start < 2 ^ 127
  count : start ≤ stop → 0 ≤ stop - start + 1 ∧ stop - start + 1 < 2 ^ 127
  indices : ∀ k : Nat, start + k ≤ stop → Fits (start + k)

theorem countable (hstart : Fits start) (hstop : Fits stop) : Countable start stop := by
  rw [fits_iff] at hstart hstop
  refine ⟨by omega, fun _ => by omega, fun k hk => ?_⟩
  rw [fits_iff]
  omega

/-- The values are the items of a range, in order. -/
structure RangeItems (t : Table) (start stop : Int) (vs : List Value) : Prop where
  length_eq : vs.length = (stop - start + 1).toNat
  items : ∀ k (hk : k < vs.length), t.get (.int (key (start + k))) = .ok vs[k]

theorem RangeItems.unique (h : RangeItems t start stop vs) (h' : RangeItems t start stop rs) :
    vs = rs := by
  refine List.ext_getElem (h.length_eq.trans h'.length_eq.symm) fun k hk hk' => ?_
  exact Except.ok.inj ((h.items k hk).symm.trans (h'.items k hk'))

theorem rangeItems_items (t : Table) (start stop : Int) :
    RangeItems t start stop (items t (stop - start + 1).toNat start) where
  length_eq := by rw [items, List.length_map, List.length_range]
  items k hk := by
    rw [Table.get_int]
    simp only [items, List.getElem_map, List.getElem_range, Table.item]

/-- The items of a table of packed values are the values. -/
theorem Packed.rangeItems (h : Packed vs t) : RangeItems t 1 vs.length vs where
  length_eq := by omega
  items k hk := by rw [Int.add_comm, key_succ, h.items k hk]

/-! ### Calls -/

variable {args : List Value} {id : TableId} {r : Except Raised (List Value)} {w' : World H}

/-- The error for a range of too many items. -/
def tooMany : Raised := .cause (.ofText "too many results to unpack")

theorem unpack_runs_iff (hid : argument TableId args 0 = .ok id)
    (hargs : RangeArguments args 1 t start stop) (ht : w.memory.heap.table id = t) :
    (unpack args).Runs B w r w' ↔
      r = (if unpackLimit ≤ (stop - start + 1).toNat then .error tooMany
        else .ok (items t (stop - start + 1).toNat start)) ∧ w' = w := by
  subst ht
  obtain ⟨i, hi, rfl⟩ := hargs.start_eq
  obtain ⟨j, hj, rfl⟩ := hargs.stop_eq
  have hunpack : (unpack args : Program H (List Value)) = .read fun w =>
      let start := (i.getD 1).toInt
      let stop := (j.map Int64.toInt).getD (w.memory.heap.table id).border
      if unpackLimit ≤ (stop - start + 1).toNat then .fail tooMany
      else .done (items (w.memory.heap.table id) (stop - start + 1).toNat start) := by
    refine (Program.bind_of_ok hid _).trans (congrArg Program.read (funext fun w => ?_))
    refine (Program.bind_of_ok hi _).trans ((Program.bind_of_ok hj _).trans ?_)
    cases j <;> rfl
  rw [hunpack, Program.runs_read_iff]
  dsimp only
  split
  · exact Program.runs_fail_iff
  · exact Program.runs_done_iff

theorem pack_runs (w : World H) (vs : List Value) :
    (pack vs).Runs B w (.ok [.table (w.memory.allocate (packed vs)).1])
      { w with memory := (w.memory.allocate (packed vs)).2 } :=
  .read (.write .done)

/-- **`unpack` undoes `pack`.**  `pack` makes a table of the values and their number, and as long as
the table keeps its contents, `unpack` gives back the same values, nils included.  In general,
`unpack` gives the items of a range in order or refuses a range of too many, and none of the
integers that it computes overflows. -/
theorem unpack_undoes_pack (host : HostCode H) (w : World H) :
    let B := Behaviour.standard host
    (∀ vs : List Value, vs.length < 2 ^ 31 - 1 → ∃ t, Packed vs t ∧
      let id := (w.memory.allocate t).1
      let w₁ := { w with memory := (w.memory.allocate t).2 }
      (B.builtin (.table .pack) vs).Runs B w (.ok [.table id]) w₁ ∧
      w₁.memory.heap.table id = t ∧
      ∀ w₂ : World H, w₂.memory.heap.table id = t →
        (B.builtin (.table .unpack) [.table id, .nat 1, .nat vs.length]).Runs B w₂ (.ok vs) w₂) ∧
    ∀ args id start stop, argument TableId args 0 = .ok id → (w.memory.heap.table id).Made →
      RangeArguments args 1 (w.memory.heap.table id) start stop →
      Countable start stop ∧
      (stop - start + 1 < 2 ^ 31 - 1 → ∃ vs, RangeItems (w.memory.heap.table id) start stop vs ∧
        (B.builtin (.table .unpack) args).Runs B w (.ok vs) w) ∧
      (2 ^ 31 - 1 ≤ stop - start + 1 →
        (B.builtin (.table .unpack) args).Runs B w (.error tooMany) w) := by
  intro B
  have hlimit : unpackLimit = 2 ^ 31 - 1 := rfl
  refine ⟨fun vs hlength => ?_, fun args id start stop hid hmade hargs => ?_⟩
  · have hpacked : Packed vs (packed vs) := packed_packed (by omega)
    refine ⟨packed vs, hpacked, pack_runs w vs, Heap.table_allocate, fun w₂ htable => ?_⟩
    have hargs : RangeArguments
        [.table (w.memory.allocate (packed vs)).1, .nat 1, .nat vs.length] 1 (packed vs) 1
        vs.length :=
      ⟨⟨some 1, rfl, rfl⟩, some (.ofNat vs.length), rfl, Int64.toInt_ofNat_of_lt (by omega)⟩
    refine (unpack_runs_iff (r := .ok vs) rfl hargs htable).mpr ⟨?_, rfl⟩
    rw [if_neg (by omega)]
    exact congrArg Except.ok (hpacked.rangeItems.unique (rangeItems_items _ _ _))
  · obtain ⟨hstart, hstop⟩ := hargs.fits hmade
    refine ⟨countable hstart hstop, fun hfew => ⟨_, rangeItems_items _ _ _, ?_⟩, fun hmany => ?_⟩
    · refine (unpack_runs_iff hid hargs rfl).mpr ⟨?_, rfl⟩
      rw [if_neg (by omega)]
    · refine (unpack_runs_iff hid hargs rfl).mpr ⟨?_, rfl⟩
      rw [if_pos (by omega)]

/-- The values with a hole come back; a range over a hole and past the end has nils, and the range
of all integers is refused. -/
theorem unpack_undoes_pack_holed :
    let unpacking := fun args => Behaviour.bare.builtin (.table .unpack) args
    let range : List Value := [.table ⟨1⟩, .nat 2, .nat 5]
    let all : List Value := [.table ⟨1⟩, .int Int64.minValue, .int Int64.maxValue]
    (∃ id w₁, (Behaviour.bare.builtin (.table .pack) [.nat 10, .nil, .nat 30]).Runs .bare holedWorld
        (.ok [.table id]) w₁ ∧
      (unpacking [.table id, .nat 1, .nat 3]).Runs .bare w₁ (.ok [.nat 10, .nil, .nat 30]) w₁) ∧
    RangeArguments range 1 holed 2 5 ∧
    (unpacking range).Runs .bare holedWorld (.ok [.nat 20, .nil, .nat 40, .nil]) holedWorld ∧
    RangeArguments all 1 holed (-2 ^ 63) (2 ^ 63 - 1) ∧
    (unpacking all).Runs .bare holedWorld (.error tooMany) holedWorld := by
  intro unpacking range all
  obtain ⟨hpacks, hunpacks⟩ := unpack_undoes_pack .bare holedWorld
  have hrange : RangeArguments range 1 holed 2 5 :=
    ⟨⟨some 2, rfl, rfl⟩, some 5, rfl, rfl⟩
  have hall : RangeArguments all 1 holed (-2 ^ 63) (2 ^ 63 - 1) :=
    ⟨⟨some Int64.minValue, rfl, rfl⟩, some Int64.maxValue, rfl, rfl⟩
  refine ⟨?_, hrange, ?_, hall, ?_⟩
  · obtain ⟨t, -, hpack, htable, hunpack⟩ := hpacks [.nat 10, .nil, .nat 30] (by decide)
    exact ⟨_, _, hpack, hunpack _ htable⟩
  · obtain ⟨-, hfew, -⟩ := hunpacks range ⟨1⟩ 2 5 rfl made_holed hrange
    obtain ⟨vs, hvs, hruns⟩ := hfew (by decide)
    rw [hvs.unique (rangeItems_items _ _ _)] at hruns
    have hitems : items holed (5 - 2 + 1 : Int).toNat 2 = [.nat 20, .nil, .nat 40, .nil] := by
      decide +kernel
    exact hitems ▸ hruns
  · obtain ⟨-, -, hmany⟩ := hunpacks all ⟨1⟩ _ _ rfl made_holed hall
    exact hmany (by decide)

end Library.Tables

end Lua
