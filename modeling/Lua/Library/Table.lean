/-
The table library.

The functions work on the raw entries of a table; its length is its border.  A function that
fails leaves the table as it was.

Design notes: memory is granted to every string and to every row of values.
-/
import Lua.Program
import Lua.Sort

namespace Lua.Library.Tables

variable {H : Host}

/-- A 64-bit integer from an integer that is known to be in range. -/
def key (i : Int) : Int64 := Int64.ofInt i

/-- The integer behind an integer that is not the greatest one. -/
theorem toInt_succ {i : Int64} (h : i ≠ Int64.maxValue) : (i + 1).toInt = i.toInt + 1 := by
  have hlow := i.le_toInt
  have hhigh : i.toInt ≤ 2 ^ 63 - 1 := Int64.toInt_maxValue ▸ i.toInt_le
  have hne : i.toInt ≠ 2 ^ 63 - 1 := Int64.toInt_maxValue ▸ mt Int64.toInt_inj.mp h
  rw [Int64.toInt_add, show (1 : Int64).toInt = 1 from rfl]
  exact Int.bmod_eq_of_le (by omega) (by omega)

/-! ### Joining and unpacking -/

/-- Appends the texts of the values from an index on to what is written, with the separator in
front of all but the first; each must be a string or a number.  There is no index behind the
greatest integer. -/
def joinFrom (t : Table) (separator : Bytes) (start stop : Int64) (written : Array UInt8)
    (i : Int64) : Except ArgumentError Bytes :=
  if i ≤ stop then
    match (t.item i).toBytes? with
    | none => .error (.invalidContent "string" (t.item i).typeName (.int i))
    | some s =>
      let written := (if i ≠ start then written ++ separator else written) ++ s
      if i = Int64.maxValue then .ok written.toList
      else joinFrom t separator start stop written (i + 1)
  else .ok written.toList
termination_by (stop.toInt - i.toInt + 1).toNat
decreasing_by
  rename_i hle hne
  have := Int64.le_iff_toInt_le.mp hle
  have := toInt_succ hne
  omega

/-- Joins the values of a range of indices with a separator. -/
def concat (args : List Value) : Program H (List Value) := do
  let t ← Program.table (← argument TableId args 0)
  let separator := (← argument? Bytes args 1).getD []
  let start := (← argument? Int64 args 2).getD 1
  let stop := (← argument? Int64 args 3).getD (Int64.ofNat t.border)
  pure [.string (← joinFrom t separator start stop #[] start)]

/-- The values of `count` indices from `i` on. -/
def items (t : Table) (count : Nat) (i : Int) : List Value :=
  (List.range count).map fun (k : Nat) => t.item (key (i + k))

/-- The count of values that is too many to unpack. -/
def unpackLimit : Nat := (1 <<< 31) - 1

/-- The values of a range of indices. -/
def unpack (args : List Value) : Program H (List Value) := do
  let t ← Program.table (← argument TableId args 0)
  let start := ((← argument? Int64 args 1).getD 1).toInt
  let stop := match ← argument? Int64 args 2 with
    | some stop => stop.toInt
    | none => t.border
  let count := (stop - start + 1).toNat
  if unpackLimit ≤ count then .raise (.ofText "too many results to unpack")
  else pure (items t count start)

/-- A table of values and their number. -/
def packed (vs : List Value) : Table :=
  let t := vs.zipIdx.foldl (fun t (v, i) => t.setItem (key (i + 1)) v) Table.empty
  t.setField "n" (.nat vs.length)

def pack (args : List Value) : Program H (List Value) := do
  pure [.table (← Program.allocate (packed args))]

/-! ### Inserting and removing -/

/-- Moves the values at the indices from `p` up to, and not including, `stop` up by one. -/
def shiftUp (t : Table) (p stop : Int) : Table :=
  (List.range (stop - p).toNat).foldl
    (fun t (k : Nat) => t.setItem (key (stop - k)) (t.item (key (stop - k - 1)))) t

/-- Moves the values at the indices after `p`, up to and including `stop`, down by one. -/
def shiftDown (t : Table) (p stop : Int) : Table :=
  (List.range (stop - p).toNat).foldl
    (fun t (k : Nat) => t.setItem (key (p + k)) (t.item (key (p + k + 1)))) t

/-- Appends a value, or inserts it at a position. -/
def insert (args : List Value) : Program H (List Value) := do
  let id ← argument TableId args 0
  let t ← Program.table id
  let stop : Int := t.border + 1
  match args with
  | [_, v] => Program.setTable id (t.setItem (key stop) v)
  | [_, _, v] =>
    let p := (← argument Int64 args 1).toInt
    if p < 1 ∨ stop < p then .raise (.argument (.outOfRange "position out of bounds" 1))
    else Program.setTable id ((shiftUp t p stop).setItem (key p) v)
  | _ => .raise (.ofText "wrong number of arguments to 'insert'")
  pure []

/-- Removes the last value, or the one at a position.  The position just past the end is
allowed, and the length itself is, even if it is 0. -/
def remove (args : List Value) : Program H (List Value) := do
  let id ← argument TableId args 0
  let t ← Program.table id
  let size : Int := t.border
  let p := match ← argument? Int64 args 1 with
    | some p => p.toInt
    | none => size
  if p ≠ size ∧ (p < 1 ∨ size + 1 < p) then
    .raise (.argument (.outOfRange "position out of bounds" 1))
  else
    Program.setTable id ((shiftDown t p size).setItem (key (max p size)) .nil)
    pure [t.item (key p)]

/-! ### Moving -/

/-- Copies one value between tables. -/
def copyItem (h : Heap) (source : TableId) (i : Int) (destination : TableId) (j : Int) : Heap :=
  h.store destination ((h.table destination).setItem (key j) ((h.table source).item (key i)))

/-- Copies a range of values to another place, in the same table or in another. -/
def move (args : List Value) : Program H (List Value) := do
  let source ← argument TableId args 0
  let first := (← argument Int64 args 1).toInt
  let last := (← argument Int64 args 2).toInt
  let target := (← argument Int64 args 3).toInt
  let destination := (← argument? TableId args 4).getD source
  if first ≤ last then
    let most := Int64.maxValue.toInt
    if first ≤ 0 ∧ most + first ≤ last then
      .raise (.argument (.outOfRange "too many elements to move" 2))
    else if most - (last - first) < target then
      .raise (.argument (.outOfRange "destination wrap around" 3))
    else
      let offsets := List.range (last - first + 1).toNat
      -- where the destination overlaps the source from above, the last value goes first
      let order :=
        if last < target ∨ target ≤ first ∨ destination ≠ source then offsets
        else offsets.reverse
      let h ← Program.heap
      Program.setHeap (order.foldl
        (fun h (k : Nat) => copyItem h source (first + k) destination (target + k)) h)
  pure [.table destination]

/-! ### Sorting -/

/-- The default order.  A NaN is not less than any number. -/
def defaultLess (a b : Value) : Except ArgumentError Bool :=
  match a.compare? b with
  | some o => .ok (o == .lt)
  | none => match a, b with
    | .number _, .number _ => .ok false
    | _, _ => .error (.incomparable a.typeName b.typeName)

/-- The order to sort by: a function's answer, or the default order. -/
def less (comparator : Option Function) (a b : Value) : Program H Bool :=
  match comparator with
  | some f => do pure (Values.first (← Program.callOrFail (.function f) [a, b])).isTruthy
  | none => Program.ofArgument (defaultLess a b)

/-- Puts values back at the indices from 1 on. -/
def writeItems (t : Table) (vs : List Value) : Table :=
  vs.zipIdx.foldl (fun t (v, i) => t.setItem (key (i + 1)) v) t

/-- Sorts the values of a table by a comparison function or in the default order. -/
def sort (args : List Value) : Program H (List Value) := do
  let id ← argument TableId args 0
  let comparator ← match args.getD 1 .nil with
    | .nil => pure none
    | .function f => pure (some f)
    | other => .raise (.argument (.invalidArgument "function" other.typeName 1))
  let t ← Program.table id
  let sorted ← Sort.mergeSort (less comparator) (items t t.border 1)
  Program.setTable id (writeItems (← Program.table id) sorted)
  pure []

/-- The functions of the library. -/
def run : TableFunction → List Value → Program H (List Value)
  | .concat => concat
  | .insert => insert
  | .move => move
  | .pack => pack
  | .remove => remove
  | .sort => sort
  | .unpack => unpack

end Lua.Library.Tables
