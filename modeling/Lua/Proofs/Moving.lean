/-
Moving items.

`move` copies the items of a range to another place, one after the other, and the two ranges may
overlap.  It goes through the range from the end from which no item is written over before it was
copied, so the copies come out as if they were made all at once.

* `TooFar`, `Representable` — when `move` refuses, and the integers that it computes if not;
* `foldl_copyItem_within`, `foldl_copyItem_across` — copying within a table and between two;
* `pairwise_order` — the order of the copies is a safe one;
* `move_simultaneous` — `move` refuses, or the old items are at their new places and nothing
  else has changed.

Design notes: integers of the language are told from the integers that the source computes with,
and nothing is assumed of those but that they have a place in the range of the keys.
-/
import Lua.Proofs.Execution
import Lua.Proofs.ItemWrites

namespace Lua

variable {H : Host}

namespace Library.Tables

variable {h : Heap} {source destination : TableId} {first last target : Int}

/-! ### Copying -/

/-- Copies within one table are copies of its items. -/
theorem foldl_copyItem_within (hd : destination.index < h.tables.size) (ks : List Nat) :
    ks.foldl (fun h (k : Nat) =>
        copyItem h destination (first + k) destination (target + k)) h =
      h.store destination (ks.foldl (fun t (k : Nat) =>
        t.setItem (key (target + k)) (t.item (key (first + k)))) (h.table destination)) := by
  induction ks using List.reverseRecOn with
  | nil => exact Heap.store_table.symm
  | append_singleton ks k ih =>
    rw [List.foldl_append, List.foldl_append, ih, List.foldl_cons, List.foldl_nil, copyItem,
      Heap.table_store hd, Heap.store_store]
    rfl

/-- Copies to another table leave the source alone. -/
theorem foldl_copyItem_across (hd : destination.index < h.tables.size)
    (hne : source ≠ destination) (ks : List Nat) :
    ks.foldl (fun h (k : Nat) => copyItem h source (first + k) destination (target + k)) h =
      h.store destination ((h.table destination).setItems (ks.map fun (k : Nat) =>
        (key (target + k), (h.table source).item (key (first + k))))) := by
  induction ks using List.reverseRecOn with
  | nil => exact Heap.store_table.symm
  | append_singleton ks k ih =>
    rw [List.foldl_append, ih, List.foldl_cons, List.foldl_nil, copyItem, Heap.table_store hd,
      Heap.table_store_ne hne, Heap.store_store, List.map_append, List.map_singleton,
      Table.setItems_append]

/-! ### Integers -/

/-- The range has too many items, or its new place goes beyond the integers. -/
def TooFar (first last target : Int) : Prop :=
  first ≤ last ∧ (2 ^ 63 - 1 < last - first + 1 ∨ 2 ^ 63 - 1 < target + (last - first))

instance : Decidable (TooFar first last target) := inferInstanceAs (Decidable (_ ∧ _))

/-- The integer is one of the language. -/
def Fits (i : Int) : Prop := (key i).toInt = i

theorem fits_iff {i : Int} : Fits i ↔ -2 ^ 63 ≤ i ∧ i < 2 ^ 63 := by
  constructor
  · intro h
    have hlow := Int64.le_toInt (key i)
    have hhigh := Int64.toInt_lt (key i)
    rw [h] at hlow hhigh
    exact ⟨hlow, hhigh⟩
  · rintro ⟨hlow, hhigh⟩
    exact Int64.toInt_ofInt_of_le hlow hhigh

theorem fits_toInt (i : Int64) : Fits i.toInt := congrArg Int64.toInt (Int64.ofInt_toInt i)

/-- The integers that `move` computes, at the points at which it computes them, are integers of the
language. -/
structure Representable (first last target : Int) : Prop where
  /-- The last index that is too far from a first one that is not positive. -/
  limit : first ≤ last → first ≤ 0 → Fits (Int64.maxValue.toInt + first)
  /-- The distance of the two ends, and the last target that leaves room for it. -/
  distance : first ≤ last → ¬ (first ≤ 0 ∧ Int64.maxValue.toInt + first ≤ last) →
    Fits (last - first) ∧ Fits (Int64.maxValue.toInt - (last - first))
  /-- The places of the items. -/
  places : first ≤ last → ¬ TooFar first last target → ∀ i : Nat, first + i ≤ last →
    Fits (first + i) ∧ Fits (target + i)

theorem toInt_maxValue : Int64.maxValue.toInt = 2 ^ 63 - 1 := rfl

theorem representable (hfirst : Fits first) (hlast : Fits last) (htarget : Fits target) :
    Representable first last target := by
  rw [fits_iff] at hfirst hlast htarget
  constructor
  case limit =>
    intro _ hle
    rw [fits_iff, toInt_maxValue]
    omega
  case distance =>
    intro hle hnear
    rw [toInt_maxValue] at hnear ⊢
    rw [fits_iff, fits_iff]
    omega
  case places =>
    intro hle hnear i hi
    rw [TooFar] at hnear
    rw [fits_iff, fits_iff]
    omega

/-- What `move` asks of its integers. -/
theorem tooFar_iff (hfirst : Fits first) (hlast : Fits last) (hle : first ≤ last) :
    TooFar first last target ↔ (first ≤ 0 ∧ Int64.maxValue.toInt + first ≤ last) ∨
      Int64.maxValue.toInt - (last - first) < target := by
  rw [fits_iff] at hfirst hlast
  rw [TooFar, toInt_maxValue]
  omega

/-! ### The order of the copies -/

/-- The offsets of the items, in the order in which they are copied. -/
def order (source destination : TableId) (first last target : Int) : List Nat :=
  if last < target ∨ target ≤ first ∨ destination ≠ source then
    List.range (last - first + 1).toNat
  else (List.range (last - first + 1).toNat).reverse

theorem mem_order {k : Nat} (hle : first ≤ last) :
    k ∈ order source destination first last target ↔ first + k ≤ last := by
  rw [order]
  split
  · rw [List.mem_range]
    omega
  · rw [List.mem_reverse, List.mem_range]
    omega

theorem nodup_order : (order source destination first last target).Nodup := by
  rw [order]
  split
  · exact List.nodup_range
  · exact List.nodup_reverse.mpr List.nodup_range

/-- Within a table no item is written over before it is copied. -/
theorem pairwise_order :
    (order source source first last target).Pairwise fun (j k : Nat) => target + j ≠ first + k := by
  rw [order]
  split
  case isTrue hapart =>
    refine List.pairwise_lt_range.imp_of_mem fun {j k} _ hk hlt => ?_
    rw [List.mem_range] at hk
    rcases hapart with habove | hbelow | hne
    · omega
    · omega
    · exact absurd rfl hne
  case isFalse hoverlap =>
    refine List.pairwise_reverse.mpr (List.pairwise_lt_range.imp fun {j k} hlt => ?_)
    rw [not_or, not_or] at hoverlap
    omega

/-! ### Tables with moved items -/

/-- The table `t'` is the table `t` with the items of a range of `source` at another place. -/
structure Moved (source t t' : Table) (first last target : Int) : Prop where
  items : ∀ i : Nat, first + i ≤ last →
    t'.get (.int (key (target + i))) = source.get (.int (key (first + i)))
  others : ∀ q, (∀ i : Nat, first + i ≤ last → (Value.int (key (target + i))).equals q = false) →
    t'.get q = t.get q
  metatable : t'.metatable = t.metatable

/-- Nothing is moved. -/
theorem moved_of_lt {t u : Table} (hlt : last < first) : Moved u t t first last target where
  items i hi := by omega
  others _ _ := rfl
  metatable := rfl

/-- The items of a range, each with its new key. -/
def copies (t : Table) (first target : Int) (ks : List Nat) : List (Int64 × Value) :=
  ks.map fun (k : Nat) => (key (target + k), t.item (key (first + k)))

/-- Writing the items of a range in any order moves them. -/
theorem moved_setItems {t u : Table} (ht : t.Made) {ks : List Nat} (hnodup : ks.Nodup)
    (hmem : ∀ k : Nat, k ∈ ks ↔ first + k ≤ last)
    (hfits : ∀ k : Nat, first + k ≤ last → Fits (target + k)) :
    Moved u t (t.setItems (copies u first target ks)) first last target where
  items i hi := by
    have hdistinct : (copies u first target ks).Pairwise fun e e' => e.1 ≠ e'.1 := by
      refine List.pairwise_map.mpr (hnodup.imp_of_mem fun {j k} hj hk hne heq => hne ?_)
      have hplace := congrArg Int64.toInt heq
      rw [hfits j ((hmem j).mp hj), hfits k ((hmem k).mp hk)] at hplace
      omega
    rw [Table.get_int, Table.get_int, ht.lookup_setItems hdistinct
      (List.mem_map.mpr ⟨i, (hmem i).mpr hi, rfl⟩)]
    rfl
  others q hq := by
    refine Table.get_eq_of_lookup_eq (ht.lookup_setItems_of_not_mem fun e he => ?_)
    obtain ⟨k, hk, rfl⟩ := List.mem_map.mp he
    exact hq k ((hmem k).mp hk)
  metatable := Table.metatable_setItems t _

/-- The copies that `move` makes, all together. -/
theorem foldl_copyItem (hd : destination.index < h.tables.size)
    (ht : (h.table destination).Made) (hle : first ≤ last)
    (hfits : ∀ k : Nat, first + k ≤ last → Fits (first + k) ∧ Fits (target + k)) :
    let ks := order source destination first last target
    ks.foldl (fun h (k : Nat) => copyItem h source (first + k) destination (target + k)) h =
      h.store destination
        ((h.table destination).setItems (copies (h.table source) first target ks)) := by
  intro ks
  by_cases hsame : source = destination
  · subst hsame
    rw [foldl_copyItem_within hd, ht.foldl_copy]
    · rfl
    · refine pairwise_order.imp_of_mem fun {j k} hj hk hne heq => hne ?_
      have hplace := congrArg Int64.toInt heq
      rwa [(hfits j ((mem_order hle).mp hj)).2, (hfits k ((mem_order hle).mp hk)).1] at hplace
  · exact foldl_copyItem_across hd hsame ks

/-! ### Calls -/

/-- The arguments of `move`; without a fifth one the source is the destination. -/
structure MoveArguments (args : List Value) (source : TableId) (first last target : Int64)
    (destination : TableId) : Prop where
  source_eq : argument TableId args 0 = .ok source
  first_eq : argument Int64 args 1 = .ok first
  last_eq : argument Int64 args 2 = .ok last
  target_eq : argument Int64 args 3 = .ok target
  destination_eq : ∃ d, argument? TableId args 4 = .ok d ∧ d.getD source = destination

/-- The error for a range that is too far from its target. -/
def rangeError (first last : Int) : ArgumentError :=
  if first ≤ 0 ∧ Int64.maxValue.toInt + first ≤ last then
    .outOfRange "too many elements to move" 2
  else .outOfRange "destination wrap around" 3

theorem move_eq {args : List Value} {i j k : Int64}
    (hargs : MoveArguments args source i j k destination) :
    (move args : Program H (List Value)) =
      if i.toInt ≤ j.toInt then
        if i.toInt ≤ 0 ∧ Int64.maxValue.toInt + i.toInt ≤ j.toInt then
          .fail (.cause (.argument (.outOfRange "too many elements to move" 2)))
        else if Int64.maxValue.toInt - (j.toInt - i.toInt) < k.toInt then
          .fail (.cause (.argument (.outOfRange "destination wrap around" 3)))
        else .read fun w => .read fun w' => .write { w'.memory with
            heap := (order source destination i.toInt j.toInt k.toInt).foldl (fun h (n : Nat) =>
              copyItem h source (i.toInt + n) destination (k.toInt + n)) w.memory.heap }
          fun _ => .done [.table destination]
      else .done [.table destination] := by
  obtain ⟨d, hd, rfl⟩ := hargs.destination_eq
  rw [move, hargs.source_eq, hargs.first_eq, hargs.last_eq, hargs.target_eq, hd]
  simp only [Program.ok_bind]
  split
  · split
    · rfl
    · split
      · rfl
      · rfl
  · rfl

/-- **`move` copies as if all at once.**  If the range is too far from its target, it fails and
changes nothing.  Otherwise every item of the range, as it was before, is at its new place in the
destination afterwards, and nothing else has changed. -/
theorem move_simultaneous (host : HostCode H) (w : World H) {args : List Value} {i j k : Int64}
    (hargs : MoveArguments args source i j k destination)
    (hmade : (w.memory.heap.table destination).Made)
    (hd : destination.index < w.memory.heap.tables.size) :
    Representable i.toInt j.toInt k.toInt ∧
      (TooFar i.toInt j.toInt k.toInt → ∀ r w',
        ((Behaviour.standard host).builtin (.table .move) args).Runs (.standard host) w r w' ↔
          r = .error (.cause (.argument (rangeError i.toInt j.toInt))) ∧ w' = w) ∧
      (¬ TooFar i.toInt j.toInt k.toInt → ∃ w',
        (∀ r w₁,
          ((Behaviour.standard host).builtin (.table .move) args).Runs (.standard host) w r w₁ ↔
            r = .ok [.table destination] ∧ w₁ = w') ∧
        Moved (w.memory.heap.table source) (w.memory.heap.table destination)
          (w'.memory.heap.table destination) i.toInt j.toInt k.toInt ∧
        w.SameBut destination w') := by
  have hi : Fits i.toInt := congrArg Int64.toInt (Int64.ofInt_toInt i)
  have hj : Fits j.toInt := congrArg Int64.toInt (Int64.ofInt_toInt j)
  have hk : Fits k.toInt := congrArg Int64.toInt (Int64.ofInt_toInt k)
  have hrepr := representable hi hj hk
  have hmove : (Behaviour.standard host).builtin (.table .move) args = move args := rfl
  rw [hmove, move_eq hargs]
  refine ⟨hrepr, fun hfar r w' => ?_, fun hnear => ?_⟩
  · have hle := hfar.1
    rw [if_pos hle, rangeError]
    split
    case isTrue => exact Program.runs_fail_iff
    case isFalse hcount =>
      rw [if_pos (((tooFar_iff hi hj hle).mp hfar).resolve_left hcount)]
      exact Program.runs_fail_iff
  · by_cases hle : i.toInt ≤ j.toInt
    · have hfits := hrepr.places hle hnear
      rw [tooFar_iff hi hj hle, not_or] at hnear
      rw [if_pos hle, if_neg hnear.1, if_neg hnear.2]
      refine ⟨w.withTable destination ((w.memory.heap.table destination).setItems
          (copies (w.memory.heap.table source) i.toInt k.toInt
            (order source destination i.toInt j.toInt k.toInt))), fun r w₁ => ?_, ?_,
        w.sameBut_withTable _ _⟩
      · rw [Program.runs_read_iff, Program.runs_read_iff, Program.runs_write_iff,
          Program.runs_done_iff, foldl_copyItem hd hmade hle hfits]
        rfl
      · rw [World.table_withTable hd]
        exact moved_setItems hmade nodup_order (fun n => mem_order hle) fun n hn => (hfits n hn).2
    · rw [if_neg hle]
      exact ⟨w, fun r w₁ => Program.runs_done_iff, moved_of_lt (not_le.mp hle), .refl w _⟩

/-- A table with a hole. -/
def holed : Table :=
  ((Table.empty.setItem 1 (.nat 10)).setItem 2 (.nat 20)).setItem 4 (.nat 40)

theorem made_holed : holed.Made := ((Table.Made.empty.setItem 1 _).setItem 2 _).setItem 4 _

/-- A world with this table. -/
def holedWorld : World .bare :=
  { World.bare with memory := (World.bare.memory.allocate holed).2 }

/-- The items move up by one, and the hole with them. -/
theorem move_simultaneous_holed :
    MoveArguments [.table ⟨1⟩, .nat 1, .nat 4, .nat 2] ⟨1⟩ 1 4 2 ⟨1⟩ ∧ ∃ w',
      (Behaviour.bare.builtin (.table .move) [.table ⟨1⟩, .nat 1, .nat 4, .nat 2]).Runs .bare
        holedWorld (.ok [.table ⟨1⟩]) w' ∧
      (w'.memory.heap.table ⟨1⟩).get (.nat 2) = .ok (.nat 10) ∧
      (w'.memory.heap.table ⟨1⟩).get (.nat 4) = .ok .nil ∧
      (w'.memory.heap.table ⟨1⟩).get (.nat 5) = .ok (.nat 40) ∧
      (w'.memory.heap.table ⟨1⟩).get (.nat 1) = .ok (.nat 10) := by
  have hargs : MoveArguments [.table ⟨1⟩, .nat 1, .nat 4, .nat 2] ⟨1⟩ 1 4 2 ⟨1⟩ :=
    ⟨rfl, rfl, rfl, rfl, none, rfl, rfl⟩
  have hmade : holed.Made := ((Table.Made.empty.setItem 1 _).setItem 2 _).setItem 4 _
  have hnear : ¬ TooFar (1 : Int64).toInt (4 : Int64).toInt (2 : Int64).toInt := by decide
  obtain ⟨-, -, hmoved⟩ := move_simultaneous .bare holedWorld hargs hmade (by decide)
  obtain ⟨w', hruns, hmoved, -⟩ := hmoved hnear
  refine ⟨hargs, w', (hruns _ _).mpr ⟨rfl, rfl⟩, ?_, ?_, ?_, ?_⟩
  · exact (hmoved.items 0 (by decide)).trans (by decide +kernel)
  · exact (hmoved.items 2 (by decide)).trans (by decide +kernel)
  · exact (hmoved.items 3 (by decide)).trans (by decide +kernel)
  · refine (hmoved.others (.nat 1) fun i hi => ?_).trans (by decide +kernel)
    have hle : (1 : Int) + i ≤ 4 := hi
    have hle : i ≤ 3 := by omega
    interval_cases i <;> decide +kernel

end Library.Tables

end Lua
