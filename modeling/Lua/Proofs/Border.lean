/-
Borders of tables.

A border is a number of keys 1, 2, … after which the next key is absent.  A table may have many,
but one that writes made of an empty table never keeps the key after its array part in the hash
part, in whatever order its keys were written and cleared.  So its length is the length of the
array part, and that is its least border.

* `Settled` — the key after the array part is not in the hash part;
* `Sound.settled_assign` — writing keeps a table settled;
* `Sound.bordered` — what follows for the length and for the keys up to it;
* `Iteration`, `ForLoop` — what a loop over the results of a function is given;
* **`writeAll_border`** — after any sequence of writes to an empty table its length is its least
  border, and `ipairs` gives the entries up to it.

Design notes: the counter of `ipairs` is an integer and wraps around, so a table that has all
positive integers as keys is left out if it also has the least one.
-/
import Lua.Library.Registry
import Lua.Proofs.Execution
import Lua.Proofs.Run
import Lua.Proofs.TableMap
import Mathlib.Order.Bounds.Defs

namespace Lua

namespace Table

variable {t : Table} {k q v : Value} {l : List (Value × Value)}

/-! ### The key after the array part -/

/-- The key after the array part, if there is one, is not in the hash part. -/
def Settled (t : Table) : Prop :=
  t.array.size + 1 < 2 ^ 63 → valuesAt (.nat (t.array.size + 1)) t.hash = []

theorem valuesAt_unbind_eq_nil (h : valuesAt q l = []) : valuesAt q (unbind k l) = [] := by
  rw [valuesAt_unbind, h]
  split <;> rfl

theorem length_unbind (h : find? k l = some v) : (unbind k l).length + 1 = l.length := by
  induction l with
  | nil => cases h
  | cons e l ih =>
    obtain ⟨key, w⟩ := e
    rw [find?] at h
    rw [unbind]
    split at h
    case isTrue hkey => rw [if_pos hkey, List.length_cons]
    case isFalse hkey => rw [if_neg hkey, List.length_cons, List.length_cons, ih h]

/-- Moving keys over from the hash part ends at a key that is not there. -/
theorem settled_absorb {fuel : Nat} (h : t.hash.length ≤ fuel) : (absorb fuel t).Settled := by
  induction fuel generalizing t with
  | zero =>
    intro _
    rw [absorb, List.eq_nil_of_length_eq_zero (Nat.le_zero.mp h)]
    rfl
  | succ fuel ih =>
    rw [absorb]
    split
    case h_1 k hnext =>
      split
      case h_1 w hfound =>
        -- the hash part has one entry less to go through
        have hlength := length_unbind hfound
        exact ih (show (unbind k t.hash).length ≤ fuel by omega)
      case h_2 hnone =>
        intro _
        obtain ⟨-, rfl⟩ := keyAfter?_eq_some_iff.mp hnext
        rw [find?_eq_head?] at hnone
        exact List.head?_eq_none_iff.mp hnone
    case h_2 hnone =>
      intro hlt
      cases hnone.symm.trans (keyAfter?_eq_some_iff.mpr ⟨hlt, rfl⟩)

/-- Where the array part is cut, the key was removed. -/
theorem Sound.settled_cutAt (hs : t.Sound) {i : Nat} (hi : i < t.array.size) :
    (t.cutAt i).Settled := by
  have hsize : (t.cutAt i).array.size = i := by
    rw [cutAt_eq, ← Array.length_toList, toList_take, List.length_take]
    exact Nat.min_eq_left hi.le
  intro _
  rw [hsize]
  have hwritten := hs.cutAt hi (nat_equals_self (i + 1))
  have hnone := hwritten.values (.nat (i + 1))
  rw [if_pos (nat_equals_self (i + 1)), valuesAt_entries] at hnone
  exact (List.append_eq_nil_iff.mp hnone).2

/-- Writing keeps a table settled. -/
theorem Sound.settled_assign (hs : t.Sound) (h : t.Settled) (k v : Value) :
    (t.assign k v).Settled := by
  rw [Table.assign]
  split
  case h_1 i hindex =>
    by_cases hi : i < t.array.size
    · rw [if_pos hi]
      by_cases hv : v.isNil = true
      · rw [if_pos hv]
        exact hs.settled_cutAt hi
      · -- a value is replaced in place
        rw [if_neg hv]
        intro hlt
        simp only [Array.size_setIfInBounds] at hlt ⊢
        exact h hlt
    · rw [if_neg hi]
      by_cases hv : v.isNil = true
      · rw [if_pos hv]
        exact fun hlt => valuesAt_unbind_eq_nil (h hlt)
      · rw [if_neg hv]
        exact settled_absorb (Nat.le_refl _)
  case h_2 hnone =>
    by_cases hv : v.isNil = true
    · rw [if_pos hv]
      exact fun hlt => valuesAt_unbind_eq_nil (h hlt)
    · -- the key that is bound is not the one after the array part
      rw [if_neg hv]
      intro hlt
      have hne : ¬ k.equals (.nat (t.array.size + 1)) = true := by
        intro hk
        have hindex := arrayIndex?_eq_some_iff.mpr
          ⟨Nat.lt_succ_self t.array.size, hlt, Value.equals_symm hk⟩
        cases hnone.symm.trans hindex
      rw [valuesAt_bind, if_neg hne]
      exact h hlt

theorem Sound.settled_write (hs : t.Sound) (h : t.Settled) (op : Value × Value) :
    (t.write op).Settled := by
  rw [write_eq op.1 op.2]
  split
  · exact hs.settled_assign h _ _
  · exact h

theorem settled_writeAll (ops : List (Value × Value)) : (empty.writeAll ops).Settled := by
  induction ops using List.reverseRecOn with
  | nil => exact fun _ => rfl
  | append_singleton ops op ih =>
    rw [writeAll_append]
    exact (sound_writeAll ops).1.settled_write ih op

/-! ### Metatables -/

theorem metatable_absorb (fuel : Nat) (t : Table) : (absorb fuel t).metatable = t.metatable := by
  induction fuel generalizing t with
  | zero => rfl
  | succ fuel ih =>
    rw [absorb]
    split
    · split
      · exact ih _
      · rfl
    · rfl

theorem metatable_assign (t : Table) (k v : Value) : (t.assign k v).metatable = t.metatable := by
  rw [assign]
  split
  · split
    · split <;> rfl
    · dsimp only
      split
      · rfl
      · exact metatable_absorb _ _
  · rfl

theorem metatable_write (t : Table) (op : Value × Value) :
    (t.write op).metatable = t.metatable := by
  rw [write_eq op.1 op.2]
  split
  · exact metatable_assign _ _ _
  · rfl

/-- Writing gives a table no metatable. -/
theorem metatable_writeAll (ops : List (Value × Value)) :
    (empty.writeAll ops).metatable = none := by
  induction ops using List.reverseRecOn with
  | nil => rfl
  | append_singleton ops op ih => rw [writeAll_append, metatable_write, ih]

/-! ### Borders -/

/-- The key after the first `n` is absent; after the greatest integer there is none. -/
def IsBorder (t : Table) (n : Nat) : Prop := n + 1 < 2 ^ 63 → t.get (.nat (n + 1)) = .ok .nil

/-- A table whose length is that of its array part, and its least border. -/
structure Bordered (t : Table) : Prop where
  /-- The array part holds no nil. -/
  array : ∀ v ∈ t.array.toList, v ≠ .nil
  /-- The hash part holds no nil. -/
  hash : ∀ e ∈ t.hash, e.2 ≠ .nil
  /-- The hash part has no key that belongs into the array part or right after it. -/
  keys : ∀ e ∈ t.hash, ∀ i : Int64, 1 ≤ i.toInt → i.toInt ≤ t.array.size + 1 →
    e.1.equals (.int i) = false
  border : t.border = t.array.size
  least : IsLeast {n | t.IsBorder n} t.border
  /-- Every key up to the length has a value. -/
  present : ∀ n < t.border, ∃ v, t.get (.nat (n + 1)) = .ok v ∧ v ≠ .nil

theorem ne_nil_of_isNil (h : v.isNil = false) : v ≠ .nil := by
  rintro rfl
  cases h

theorem get_nat (t : Table) (n : Nat) : t.get (.nat n) = .ok (t.lookup (.nat n)) :=
  if_pos (nat_equals_self n)

/-- The keys up to the one after the array part are not in the hash part. -/
theorem Sound.valuesAt_hash (hs : t.Sound) (h : t.Settled) {i : Nat} (hi : i ≤ t.array.size)
    (hlt : i + 1 < 2 ^ 63) : valuesAt (.nat (i + 1)) t.hash = [] := by
  rcases Nat.lt_or_eq_of_le hi with hi | rfl
  · exact (hs.elsewhere hi (nat_equals_self (i + 1))).2.2
  · exact h hlt

theorem Sound.lookup_nat (hs : t.Sound) {i : Nat} (hi : i < t.array.size) :
    t.lookup (.nat (i + 1)) = t.array[i] := by
  have hsize := hs.size
  have hindex : arrayIndex? t.array.size (.nat (i + 1)) = some i :=
    arrayIndex?_eq_some_iff.mpr ⟨hi, by omega, nat_equals_self (i + 1)⟩
  rw [lookup, hindex]
  exact (Array.getElem_eq_getD Value.nil).symm

theorem Sound.lookup_nat_ne (hs : t.Sound) {i : Nat} (hi : i < t.array.size) :
    t.lookup (.nat (i + 1)) ≠ .nil := by
  rw [hs.lookup_nat hi]
  exact ne_nil_of_isNil (hs.array _ (Array.getElem_mem_toList hi))

/-- After the array part comes an absent key. -/
theorem Settled.lookup_nat (h : t.Settled) (hlt : t.array.size + 1 < 2 ^ 63) :
    t.lookup (.nat (t.array.size + 1)) = .nil := by
  have hindex : arrayIndex? t.array.size (.nat (t.array.size + 1)) = none := by
    rw [Option.eq_none_iff_forall_not_mem]
    intro j hj
    obtain ⟨hj, hjlt, hkey⟩ := arrayIndex?_eq_some_iff.mp hj
    have := index_unique hjlt hlt hkey (nat_equals_self _)
    omega
  rw [lookup, hindex, find?_eq_head?, h hlt]
  rfl

theorem Settled.border_eq (h : t.Settled) : t.border = t.array.size := by
  have hnone : (keyAfter? t.array.size).bind (find? · t.hash) = none := by
    rw [Option.bind_eq_none_iff]
    intro k hk
    obtain ⟨hlt, rfl⟩ := keyAfter?_eq_some_iff.mp hk
    rw [find?_eq_head?, h hlt]
    rfl
  rw [border]
  cases t.hash.length with
  | zero => rfl
  | succ fuel =>
    rw [run, hnone]
    rfl

/-- The length of a settled table is its least border. -/
theorem Sound.bordered (hs : t.Sound) (h : t.Settled) : t.Bordered where
  array v hv := ne_nil_of_isNil (hs.array v hv)
  hash e he := ne_nil_of_isNil (hs.hash e he).value
  keys e he i hpos hle := by
    rw [← Bool.not_eq_true]
    intro hkey
    obtain ⟨n, hn⟩ : ∃ n : Nat, i.toInt = n + 1 := ⟨i.toInt.toNat - 1, by omega⟩
    have hlt := Int64.toInt_lt i
    have hi : Value.int i = .nat (n + 1) := by
      rw [Value.nat, ← Int64.ofInt_eq_ofNat, ← Int64.ofInt_toInt i, hn]
      rfl
    have hmem := mem_valuesAt he hkey
    rw [hi, hs.valuesAt_hash h (by omega) (by omega)] at hmem
    cases hmem
  border := h.border_eq
  least := by
    rw [h.border_eq]
    refine ⟨fun hlt => ?_, fun n hn => ?_⟩
    · rw [get_nat, h.lookup_nat hlt]
    · by_contra hlt
      have hsize := hs.size
      have hnil := hn (by omega)
      rw [get_nat, Except.ok.injEq] at hnil
      exact hs.lookup_nat_ne (by omega) hnil
  present n hn := by
    rw [h.border_eq] at hn
    exact ⟨_, get_nat t _, hs.lookup_nat_ne hn⟩

end Table

/-! ### Loops over the results of a function -/

variable {H : Host} {B : Behaviour H} {w w' : World H}

/-- A loop that calls a built-in function with a state and a control value, and goes on from the
first result until that is nil: the results it is given. -/
inductive Iteration (B : Behaviour H) (w : World H) (f : Builtin) (state : Value) :
    Value → List (List Value) → Prop
  | ends {c vs} (h : (B.builtin f [state, c]).Runs B w (.ok vs) w)
      (hnil : Values.first vs = .nil) : Iteration B w f state c []
  | row {c vs rows} (h : (B.builtin f [state, c]).Runs B w (.ok vs) w)
      (hfirst : Values.first vs ≠ .nil)
      (hrest : Iteration B w f state (Values.first vs) rows) : Iteration B w f state c (vs :: rows)

/-- A loop over what a built-in function gives for its arguments: a function to be called, its
state and the first control value. -/
def ForLoop (B : Behaviour H) (w : World H) (f : Builtin) (args : List Value)
    (rows : List (List Value)) : Prop :=
  ∃ g state c, (B.builtin f args).Runs B w (.ok [.function (.builtin g), state, c]) w ∧
    Iteration B w g state c rows

/-- The rounds of a loop are determined by the results of its function. -/
theorem iteration_iff {f : Builtin} {state c : Value} {vs : List Value} {rows : List (List Value)}
    (h : ∀ r w', (B.builtin f [state, c]).Runs B w r w' ↔ r = .ok vs ∧ w' = w) :
    Iteration B w f state c rows ↔ Values.first vs = .nil ∧ rows = [] ∨
      Values.first vs ≠ .nil ∧
        ∃ rest, rows = vs :: rest ∧ Iteration B w f state (Values.first vs) rest := by
  have hruns := (h (.ok vs) w).mpr ⟨rfl, rfl⟩
  constructor
  · rintro (⟨hr, hnil⟩ | ⟨hr, hfirst, hrest⟩)
    · obtain rfl := Except.ok.inj ((h _ _).mp hr).1
      exact Or.inl ⟨hnil, rfl⟩
    · obtain rfl := Except.ok.inj ((h _ _).mp hr).1
      exact Or.inr ⟨hfirst, _, rfl, hrest⟩
  · rintro (⟨hnil, rfl⟩ | ⟨hfirst, rest, rfl, hrest⟩)
    · exact .ends hruns hnil
    · exact .row hruns hfirst hrest

/-! ### Iteration over the array -/

/-- Without a metatable, reading a field is reading the table. -/
theorem Heap.index_table {h : Heap} {id : TableId} (hplain : (h.table id).metatable = none)
    (k : Value) : h.index (.table id) k = (h.table id).get k := by
  have hmeta : h.metafield (.table id) "__index" = none := by
    rw [metafield, metatable?, hplain]
    rfl
  rw [index, indexLimit, indexChain]
  cases hget : (h.table id).get k with
  | error e => rfl
  | ok found =>
    cases found
    case nil =>
      dsimp only [bind, Except.bind]
      rw [hmeta]
      rfl
    all_goals rfl

namespace Table

variable {t : Table}

/-- What `ipairs` gives for a key. -/
def row (t : Table) (k : Value) : List Value :=
  if (t.lookup k).isNil then [.nil] else [k, t.lookup k]

/-- A step of `ipairs` gives the following key with its value, or nil. -/
theorem ipairsStep_runs_iff {host : HostCode H} {id : TableId}
    (htable : w.memory.heap.table id = t) (hplain : t.metatable = none) (i : Nat)
    (r : Except Raised (List Value)) (w' : World H) :
    ((Behaviour.standard host).builtin (.base .ipairsStep) [.table id, .nat i]).Runs
        (.standard host) w r w' ↔ r = .ok (t.row (.nat (i + 1))) ∧ w' = w := by
  have hnext : Value.int (Int64.ofNat i + 1) = .nat (i + 1) := by
    rw [Value.nat, Int64.ofNat_add]
    rfl
  have hfound : w.memory.heap.index (.table id) (.int (Int64.ofNat i + 1)) =
      .ok (t.lookup (.nat (i + 1))) := by
    subst htable
    rw [Heap.index_table hplain, hnext, get_nat]
  have hstep : (Behaviour.standard host).builtin (.base .ipairsStep) [.table id, .nat i] =
      .read fun w =>
        (Program.ofArgument (w.memory.heap.index (.table id) (.int (Int64.ofNat i + 1)))).bind
          fun v => .done (if v.isNil then [.nil] else [.int (Int64.ofNat i + 1), v]) := rfl
  rw [hstep, Program.runs_read_iff, hfound, hnext]
  exact Program.runs_done_iff

/-- The entries of the `n` keys after the first `i`. -/
def rows (t : Table) (i n : Nat) : List (List Value) :=
  (List.range' i n).map fun j => [.nat (j + 1), t.lookup (.nat (j + 1))]

/-- From an index below the border, the iteration is given the entries up to the border, if the
key to which the counter comes then is absent. -/
theorem Sound.iteration_iff (hs : t.Sound) {host : HostCode H} {id : TableId}
    (htable : w.memory.heap.table id = t) (hplain : t.metatable = none)
    (hend : t.lookup (.nat (t.array.size + 1)) = .nil) {i n : Nat} (hn : i + n = t.array.size)
    {found : List (List Value)} :
    Iteration (.standard host) w (.base .ipairsStep) (.table id) (.nat i) found ↔
      found = t.rows i n := by
  rw [Lua.iteration_iff (ipairsStep_runs_iff htable hplain i)]
  induction n generalizing i found with
  | zero =>
    obtain rfl : i = t.array.size := hn
    have hrow : t.row (.nat (t.array.size + 1)) = [.nil] := by
      rw [row, hend]
      rfl
    rw [hrow]
    exact ⟨fun h => h.elim (·.2) fun h => absurd rfl h.1, fun h => .inl ⟨rfl, h⟩⟩
  | succ n ih =>
    have hne := hs.lookup_nat_ne (i := i) (by omega)
    have hrow : t.row (.nat (i + 1)) = [.nat (i + 1), t.lookup (.nat (i + 1))] :=
      if_neg (mt isNil_iff.mp hne)
    have hrest : ∀ {rest}, Iteration (.standard host) w (.base .ipairsStep) (.table id)
        (.nat (i + 1)) rest ↔ rest = t.rows (i + 1) n := fun {rest} => by
      rw [Lua.iteration_iff (ipairsStep_runs_iff htable hplain (i + 1))]
      exact ih (by omega)
    rw [hrow]
    constructor
    · rintro (⟨hnil, -⟩ | ⟨-, rest, rfl, h⟩)
      · cases hnil
      · rw [hrest.mp h]
        rfl
    · rintro rfl
      exact .inr ⟨nofun, _, rfl, hrest.mpr rfl⟩

/-- **The length is the least border.**  A table that any sequence of writes to an empty table
made has no key after its array part, so its length is that of the array part, all keys up to it
have values, and `ipairs` gives the entries of exactly these keys. -/
theorem writeAll_border (host : HostCode H) (w : World H) (id : TableId)
    (ops : List (Value × Value)) (htable : w.memory.heap.table id = empty.writeAll ops) :
    (empty.writeAll ops).Bordered ∧
      ((empty.writeAll ops).border + 1 < 2 ^ 63 ∨
          (empty.writeAll ops).lookup (.int Int64.minValue) = .nil →
        ∀ rows, ForLoop (.standard host) w (.base .ipairs) [.table id] rows ↔
          rows = (List.range (empty.writeAll ops).border).map fun i =>
            [.nat (i + 1), (empty.writeAll ops).lookup (.nat (i + 1))]) := by
  obtain ⟨hs, -⟩ := sound_writeAll ops
  have hsettled := settled_writeAll ops
  have hplain := metatable_writeAll ops
  generalize empty.writeAll ops = t at hs hsettled hplain htable
  refine ⟨hs.bordered hsettled, fun hend found => ?_⟩
  rw [hsettled.border_eq] at hend ⊢
  -- the counter comes to the key after the array part, or wraps around to the least integer
  have hlast : t.lookup (.nat (t.array.size + 1)) = .nil := by
    by_cases hlt : t.array.size + 1 < 2 ^ 63
    · exact hsettled.lookup_nat hlt
    · have hsize := hs.size
      have hmax : t.array.size + 1 = 2 ^ 63 := by omega
      rw [hmax]
      exact hend.resolve_left hlt
  have hiteration : Iteration (.standard host) w (.base .ipairsStep) (.table id) (.nat 0) found ↔
      found = t.rows 0 t.array.size := hs.iteration_iff htable hplain hlast (Nat.zero_add _)
  have hruns : ∀ r w', ((Behaviour.standard host).builtin (.base .ipairs) [.table id]).Runs
      (.standard host) w r w' ↔
        r = .ok [.function (.builtin (.base .ipairsStep)), .table id, .nat 0] ∧ w' = w :=
    fun r w' => Program.runs_done_iff
  rw [List.range_eq_range']
  constructor
  · rintro ⟨g, state, c, hstart, h⟩
    obtain ⟨rfl, rfl, rfl⟩ : _ ∧ _ ∧ _ := by simpa using ((hruns _ _).mp hstart).1
    exact hiteration.mp h
  · rintro rfl
    exact ⟨_, _, _, (hruns _ _).mpr ⟨rfl, rfl⟩, hiteration.mpr rfl⟩

/-- Writes out of order, of a key that is cleared and written again among others. -/
def rewrites : List (Value × Value) :=
  [(.nat 3, .nat 30), (.nat 1, .nat 10), (.nat 2, .nat 20), (.nat 1, .nil), (.float 1.0, .nat 11)]

/-- A world in which these writes made a table. -/
def rewritten : World .bare :=
  { World.bare with memory := (World.bare.memory.allocate (empty.writeAll rewrites)).2 }

theorem writeAll_border_rewritten : rewritten.memory.heap.table ⟨1⟩ = empty.writeAll rewrites ∧
    ForLoop .bare rewritten (.base .ipairs) [.table ⟨1⟩]
      [[.nat 1, .nat 11], [.nat 2, .nat 20], [.nat 3, .nat 30]] := by
  have hborder : (empty.writeAll rewrites).border = 3 := by decide +kernel
  refine ⟨rfl, ((writeAll_border .bare rewritten ⟨1⟩ rewrites rfl).2 (.inl ?_) _).mpr ?_⟩
  · rw [hborder]
    decide
  · rw [hborder]
    decide +kernel

end Table

end Lua
