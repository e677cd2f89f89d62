/-
Tables.

A table maps keys to values other than nil.  Its array part holds the values of the keys
1, 2, …, without a gap; its hash part holds all other entries, in order of insertion.  Keys
are looked up by the equality of the language, and a float that is equal to an integer is
stored as the integer, so `t[1.0]` and `t[1]` are one entry.

* `Table.lookup` — the value of a key, nil if it is absent;
* `Table.set` — binds a key; nil removes it;
* `Table.border` — the length of the array that starts at key 1;
* `Table.next` — the entry after a key, array part first;
* `Table.entries` — all entries, in that order;
* `Table.hashed` — what a key is hashed by.

Design notes: the array part has no gaps because clearing a key inside it moves everything
behind the gap to the hash part, and because appending to it takes the keys that follow
over from the hash part.  Reading and writing fail for NaN, writing for nil as well.  A list
can stand for a hash map because equal keys are hashed alike.
-/
import Lua.Error

namespace Lua

structure Table where
  array : Array Value
  hash : List (Value × Value)
  metatable : Option TableId
  deriving DecidableEq

namespace Table

def empty : Table := ⟨#[], [], none⟩

instance : Inhabited Table := ⟨empty⟩

/-! ### Keys -/

/-- A key as it is stored. -/
def normalizeKey : Value → Value
  | .number n => match n.toInteger? with
    | some i => .int i
    | none => .number n
  | k => k

/-- The index of a key in an array part of `size` values. -/
def arrayIndex? (size : Nat) : Value → Option Nat
  | .number n => do
    let i ← n.toInteger?
    if 1 ≤ i.toInt ∧ i.toInt ≤ size then some (i.toInt.toNat - 1) else none
  | _ => none

/-- Whether a value can be looked up; a NaN cannot, for it does not equal itself. -/
def isKey (k : Value) : Bool := k.equals k

/-- The integer key that follows an array part of `size` values; the integers end. -/
def keyAfter? (size : Nat) : Option Value :=
  if size + 1 < 1 <<< 63 then some (.nat (size + 1)) else none

/-! ### The hash part -/

/-- What a hash is computed from. -/
inductive HashInput where
  | tag (n : UInt8)
  | integer (i : Int64)
  | bits (b : UInt64)
  | bytes (s : Bytes)
  | reference (v : Value)
  deriving DecidableEq

/-- What a key is hashed by.  A number counts as the integer that it is equal to, if there is one,
and a reference is known by itself. -/
def hashed : Value → HashInput
  | .nil => .tag 0
  | .boolean b => .tag (if b then 1 else 2)
  | .number n => match n.toInteger? with
    | some i => .integer i
    | none => .bits n.toFloat.toBits
  | .string s => .bytes s
  | v => .reference v

/-- The value of a key in a list of entries. -/
def find? (k : Value) : List (Value × Value) → Option Value
  | [] => none
  | (key, v) :: rest => if key.equals k then some v else find? k rest

/-- Binds a key in a list of entries; a new key goes to the end. -/
def bind (k v : Value) : List (Value × Value) → List (Value × Value)
  | [] => [(k, v)]
  | (key, old) :: rest => if key.equals k then (key, v) :: rest else (key, old) :: bind k v rest

/-- Removes a key from a list of entries. -/
def unbind (k : Value) : List (Value × Value) → List (Value × Value)
  | [] => []
  | (key, v) :: rest => if key.equals k then rest else (key, v) :: unbind k rest

/-- The entries after a key, if the key is there. -/
def after? (k : Value) : List (Value × Value) → Option (List (Value × Value))
  | [] => none
  | (key, _) :: rest => if key.equals k then some rest else after? k rest

/-! ### Reading -/

/-- The value of a key, nil if it is absent. -/
def lookup (t : Table) (k : Value) : Value :=
  match arrayIndex? t.array.size k with
  | some i => t.array.getD i .nil
  | none => (find? k t.hash).getD .nil

/-- The value of a key, nil if it is absent; a NaN is refused. -/
def get (t : Table) (k : Value) : Except ArgumentError Value :=
  if isKey k then .ok (t.lookup k) else .error .keyIsNaN

/-- The value at an integer key. -/
def item (t : Table) (i : Int64) : Value := t.lookup (.int i)

/-- The value at a text key. -/
def field (t : Table) (name : String) : Value := t.lookup (Value.ofText name)

/-- How many of the keys from `n` + 1 on follow without a gap in a list of entries, of which
there are at most `fuel`. -/
def run (hash : List (Value × Value)) : Nat → Nat → Nat
  | 0, _ => 0
  | fuel + 1, n => match (keyAfter? n).bind (find? · hash) with
    | some _ => run hash fuel (n + 1) + 1
    | none => 0

/-- The length of the array that starts at key 1. -/
def border (t : Table) : Nat := t.array.size + run t.hash t.hash.length t.array.size

def isEmpty (t : Table) : Bool := t.array.isEmpty && t.hash.isEmpty

/-! ### Writing -/

/-- Moves the keys that follow the array part over from the hash part, of which there are at
most `fuel`. -/
def absorb : Nat → Table → Table
  | 0, t => t
  | fuel + 1, t => match keyAfter? t.array.size with
    | some k => match find? k t.hash with
      | some v => absorb fuel { t with array := t.array.push v, hash := unbind k t.hash }
      | none => t
    | none => t

/-- Cuts the array part at an index and moves the values behind that index to the hash part. -/
def cutAt (t : Table) (i : Nat) : Table :=
  let moved := (t.array.toList.drop (i + 1)).zipIdx.map fun (v, j) => (Value.nat (i + j + 2), v)
  { t with
    array := t.array.take i
    hash := moved.foldl (fun hash (k, v) => bind k v hash) t.hash }

/-- Binds a stored key that is neither nil nor NaN. -/
def assign (t : Table) (k v : Value) : Table :=
  match arrayIndex? (t.array.size + 1) k with
  | some i =>
    if i < t.array.size then
      if v.isNil then t.cutAt i else { t with array := t.array.setIfInBounds i v }
    else
      let t := { t with hash := unbind k t.hash }
      if v.isNil then t else absorb t.hash.length { t with array := t.array.push v }
  | none =>
    { t with hash := if v.isNil then unbind k t.hash else bind k v t.hash }

/-- Binds a key to a value; nil removes the key. -/
def set (t : Table) (key v : Value) : Except ArgumentError Table :=
  let k := normalizeKey key
  if k.isNil then .error .keyIsNil
  else if isKey k then .ok (t.assign k v)
  else .error .keyIsNaN

/-- Binds an integer key, which cannot fail. -/
def setItem (t : Table) (i : Int64) (v : Value) : Table := t.assign (.int i) v

/-- Binds a text key, which cannot fail. -/
def setField (t : Table) (name : String) (v : Value) : Table := t.assign (Value.ofText name) v

/-! ### Traversal -/

/-- All entries, the array part first. -/
def entries (t : Table) : List (Value × Value) :=
  t.array.toList.zipIdx.map (fun (v, i) => (Value.nat (i + 1), v)) ++ t.hash

/-- The entry after a key in the order of `entries`, the first one after nil.  A key that is
not in the table is refused. -/
def next (t : Table) (k : Value) : Except ArgumentError (Option (Value × Value)) :=
  if k.isNil then .ok t.entries.head?
  else match arrayIndex? t.array.size k with
    | some i => .ok (t.entries.drop (i + 1)).head?
    | none =>
      if isKey k then
        match after? k t.hash with
        | some rest => .ok rest.head?
        | none => .error (.malformed "invalid key to 'next'")
      else .error .keyIsNaN

end Table

end Lua
