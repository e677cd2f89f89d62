/-
Chains of `__index`.

A field that a value lacks is looked for behind it: in the table or string that its metatable has as
`__index`, then behind that one, and so on.  Strings share a metatable, and the tables of a chain
may lead back to each other.

* `Heap.chained` — the values of a chain, as far as it goes;
* `Heap.Answer` — what reading a field along a chain comes to, by the values of the chain alone;
* `indexChain_eq_iff` — reading a field comes to just that answer;
* `isSome_chained_of_cycle` — a chain that comes back to a value goes on for ever;
* `index_along_chain` — the three together, for every value of every heap.

Design notes: a chain is described from its start, by the position of each value.  Reading drops one
value after the other and starts again from the rest; `indexChain_add` leads from the one view to
the other, and no other proof is about the order in which the values are read.
-/
import Lua.Proofs.TableMap
import Lua.Proofs.Execution

namespace Lua.Heap

variable {h : Heap} {v u u' key : Value} {t : TableId} {r : Except ArgumentError Value}
variable {a b k m n limit : Nat}

/-! ### Chains -/

/-- The value behind another one in a chain: its `__index`, if that is a table or a string. -/
def behind? (h : Heap) (v : Value) : Option Value :=
  match h.metafield v "__index" with
  | some (.table t) => some (.table t)
  | some (.string s) => some (.string s)
  | _ => none

/-- The value at a position of the chain that starts with `v`. -/
def chained (h : Heap) (v : Value) : Nat → Option Value
  | 0 => some v
  | n + 1 => (h.chained v n).bind h.behind?

@[simp] theorem chained_zero : h.chained v 0 = some v := rfl

theorem chained_succ : h.chained v (n + 1) = (h.chained v n).bind h.behind? := rfl

/-- Behind a value of a chain there is the chain of that value. -/
theorem chained_add : h.chained v (m + n) = (h.chained v m).bind fun u => h.chained u n := by
  induction n with
  | zero => simp
  | succ n ih =>
    rw [← Nat.add_assoc, chained_succ, ih, Option.bind_assoc]
    rfl

/-- A chain has no gaps. -/
theorem isSome_chained_of_le (hle : m ≤ n) (hn : (h.chained v n).isSome) :
    (h.chained v m).isSome := by
  rw [← Nat.add_sub_cancel' hle, chained_add] at hn
  exact Option.isSome_of_isSome_bind hn

/-- **A cyclic chain** goes on for ever. -/
theorem isSome_chained_of_cycle (hlt : a < b) (ha : (h.chained v a).isSome)
    (hcycle : h.chained v a = h.chained v b) (n : Nat) : (h.chained v n).isSome := by
  obtain ⟨u, hu⟩ := Option.isSome_iff_exists.mp ha
  have hround : h.chained u (b - a) = some u := by
    have hb : h.chained v (a + (b - a)) = h.chained v a := by
      rw [Nat.add_sub_cancel' hlt.le, hcycle]
    rw [chained_add, hu] at hb
    exact hb
  -- going round once for every value asked for is more than enough
  have hrounds : ∀ rounds, h.chained u ((b - a) * rounds) = some u := by
    intro rounds
    induction rounds with
    | zero => rfl
    | succ rounds ih => rw [Nat.mul_succ, chained_add, ih, Option.bind_some, hround]
  have hfar : (h.chained v (a + (b - a) * n)).isSome := by
    rw [chained_add, hu, Option.bind_some, hrounds n]
    rfl
  refine isSome_chained_of_le ?_ hfar
  have hn : 1 * n ≤ (b - a) * n := Nat.mul_le_mul_right n (by omega)
  omega

/-! ### The answer -/

/-- A value that is not a table with the key. -/
def Lacks (h : Heap) (v key : Value) : Prop := ∀ t, v = .table t → h.lookup t key = .nil

/-- None of the first `n` values of a chain has the key. -/
def Absent (h : Heap) (v key : Value) (n : Nat) : Prop :=
  ∀ i < n, ∀ u, h.chained v i = some u → h.Lacks u key

/-- What reading a field comes to along a chain, of which at most `limit` values count: the first
value that the key has in a table of the chain; if no table has it, nil or an error at the last
value of the chain; and an error of its own if the chain is too long. -/
inductive Answer (h : Heap) (v key : Value) (limit : Nat) : Except ArgumentError Value → Prop
  | found {m : Nat} {t : TableId} (hm : m < limit) (ht : h.chained v m = some (.table t))
      (habsent : h.Absent v key m) (hfield : h.lookup t key ≠ .nil) :
      Answer h v key limit (.ok (h.lookup t key))
  | ended {m : Nat} {u : Value} (hm : m < limit) (hu : h.chained v m = some u)
      (hlast : h.chained v (m + 1) = none) (habsent : h.Absent v key (m + 1))
      (hnil : (∃ t, u = .table t) ∨ (h.metafield u "__index").isSome) :
      Answer h v key limit (.ok .nil)
  | notIndexable {m : Nat} {u : Value} (hm : m < limit) (hu : h.chained v m = some u)
      (hlast : h.chained v (m + 1) = none) (habsent : h.Absent v key (m + 1))
      (hother : ∀ t, u ≠ .table t) (hnone : h.metafield u "__index" = none) :
      Answer h v key limit (.error (.notIndexable u.typeName))
  | tooLong (hlong : (h.chained v limit).isSome) (habsent : h.Absent v key limit) :
      Answer h v key limit (.error (.metamethodLoop "__index"))

theorem Absent.mono (habsent : h.Absent v key n) (hle : m ≤ n) : h.Absent v key m :=
  fun i hi => habsent i (by omega)

theorem Absent.snoc (habsent : h.Absent v key n) (hu : h.chained v n = some u)
    (hlacks : h.Lacks u key) : h.Absent v key (n + 1) := by
  intro i hi u' hu'
  rcases Nat.lt_succ_iff_lt_or_eq.mp hi with hlt | rfl
  · exact habsent i hlt u' hu'
  · rw [hu] at hu'
    cases hu'
    exact hlacks

/-- Every chain has an answer. -/
theorem exists_answer (h : Heap) (v key : Value) (limit : Nat) : ∃ r, h.Answer v key limit r := by
  induction limit with
  | zero => exact ⟨_, .tooLong rfl fun i hi => absurd hi (Nat.not_lt_zero i)⟩
  | succ limit ih =>
    obtain ⟨r, hr⟩ := ih
    cases hr with
    | found hm ht habsent hfield => exact ⟨_, .found (by omega) ht habsent hfield⟩
    | ended hm hu hlast habsent hnil => exact ⟨_, .ended (by omega) hu hlast habsent hnil⟩
    | notIndexable hm hu hlast habsent hother hnone =>
      exact ⟨_, .notIndexable (by omega) hu hlast habsent hother hnone⟩
    | tooLong hlong habsent =>
      -- one value more counts, and it is the one that decides
      obtain ⟨u, hu⟩ := Option.isSome_iff_exists.mp hlong
      by_cases hlacks : h.Lacks u key
      · have hnow := habsent.snoc hu hlacks
        cases hnext : h.chained v (limit + 1) with
        | some u' => exact ⟨_, .tooLong (hnext ▸ rfl) hnow⟩
        | none =>
          by_cases hnil : (∃ t, u = .table t) ∨ (h.metafield u "__index").isSome
          · exact ⟨_, .ended (Nat.lt_succ_self limit) hu hnext hnow hnil⟩
          · rw [not_or, not_exists, Option.not_isSome_iff_eq_none] at hnil
            exact ⟨_, .notIndexable (Nat.lt_succ_self limit) hu hnext hnow hnil.1 hnil.2⟩
      · simp only [Lacks, not_forall] at hlacks
        obtain ⟨t, rfl, hfield⟩ := hlacks
        exact ⟨_, .found (Nat.lt_succ_self limit) hu habsent hfield⟩

/-! ### Reading -/

theorem indexChain_found (hkey : Table.isKey key = true) (hfield : h.lookup t key ≠ .nil) :
    indexChain h key (k + 1) (.table t) = .ok (h.lookup t key) := by
  have hget : (h.table t).get key = .ok (h.lookup t key) := if_pos hkey
  have hsome : (h.lookup t key).isNil = false :=
    Bool.eq_false_iff.mpr (mt Table.isNil_iff.mp hfield)
  rw [indexChain, hget]
  show (if _ then _ else _) = _
  rw [hsome]
  rfl

/-- A value that lacks the key leaves the reading to its metatable. -/
theorem indexChain_of_lacks (hkey : Table.isKey key = true) (hlacks : h.Lacks u key)
    (hmeta : (h.metafield u "__index").isSome) :
    indexChain h key (k + 1) u = match h.behind? u with
      | some u' => indexChain h key k u'
      | none => .ok .nil := by
  obtain ⟨w, hw⟩ := Option.isSome_iff_exists.mp hmeta
  rw [behind?, hw]
  cases u with
  | table t =>
    have hget : (h.table t).get key = .ok .nil := (if_pos hkey).trans (congrArg _ (hlacks t rfl))
    rw [indexChain, hget, hw]
    cases w <;> rfl
  | _ =>
    simp only [indexChain, hw]
    cases w <;> rfl

theorem indexChain_table (hkey : Table.isKey key = true) (hlacks : h.Lacks (.table t) key)
    (hnone : h.metafield (.table t) "__index" = none) :
    indexChain h key (k + 1) (.table t) = .ok .nil := by
  have hget : (h.table t).get key = .ok .nil := (if_pos hkey).trans (congrArg _ (hlacks t rfl))
  rw [indexChain, hget, hnone]
  rfl

theorem indexChain_other (hother : ∀ t, u ≠ .table t) (hnone : h.metafield u "__index" = none) :
    indexChain h key (k + 1) u = .error (.notIndexable u.typeName) := by
  cases u with
  | table t => exact absurd rfl (hother t)
  | _ =>
    simp only [indexChain, hnone]
    rfl

theorem isSome_metafield_of_behind? (hbehind : h.behind? u = some u') :
    (h.metafield u "__index").isSome := by
  cases hw : h.metafield u "__index" with
  | some w => rfl
  | none =>
    rw [behind?, hw] at hbehind
    cases hbehind

theorem indexChain_behind (hkey : Table.isKey key = true) (hlacks : h.Lacks u key)
    (hbehind : h.behind? u = some u') :
    indexChain h key (k + 1) u = indexChain h key k u' := by
  rw [indexChain_of_lacks hkey hlacks (isSome_metafield_of_behind? hbehind), hbehind]

/-- **Reading goes along the chain**: the values that lack the key are left behind. -/
theorem indexChain_add (hkey : Table.isKey key = true) (habsent : h.Absent v key n)
    (hu : h.chained v n = some u) : indexChain h key (n + k) v = indexChain h key k u := by
  induction n generalizing u k with
  | zero =>
    cases hu
    rw [Nat.zero_add]
  | succ n ih =>
    obtain ⟨previous, hprevious, hbehind⟩ := Option.bind_eq_some_iff.mp hu
    rw [Nat.add_right_comm, Nat.add_assoc,
      ih (habsent.mono (Nat.le_succ n)) hprevious,
      indexChain_behind hkey (habsent n (Nat.lt_succ_self n) previous hprevious) hbehind]

/-- Reading stops at the last value of a chain. -/
theorem indexChain_last (hkey : Table.isKey key = true) (hm : m < limit)
    (hu : h.chained v m = some u) (habsent : h.Absent v key (m + 1)) :
    ∃ k, indexChain h key limit v = indexChain h key (k + 1) u ∧ h.Lacks u key := by
  obtain ⟨k, rfl⟩ := Nat.exists_eq_add_of_lt hm
  refine ⟨k, ?_, habsent m (Nat.lt_succ_self m) u hu⟩
  rw [Nat.add_assoc, indexChain_add hkey (habsent.mono (Nat.le_succ m)) hu]

theorem Answer.indexChain_eq (hkey : Table.isKey key = true) (hr : h.Answer v key limit r) :
    indexChain h key limit v = r := by
  cases hr with
  | found hm ht habsent hfield =>
    obtain ⟨k, rfl⟩ := Nat.exists_eq_add_of_lt hm
    rw [Nat.add_assoc, indexChain_add hkey habsent ht, indexChain_found hkey hfield]
  | @ended m u hm hu hlast habsent hnil =>
    obtain ⟨k, hk, hlacks⟩ := indexChain_last hkey hm hu habsent
    rw [chained_succ, hu, Option.bind_some] at hlast
    rw [hk]
    by_cases hmeta : (h.metafield u "__index").isSome
    · rw [indexChain_of_lacks hkey hlacks hmeta, hlast]
    · obtain ⟨t, rfl⟩ := hnil.resolve_right hmeta
      exact indexChain_table hkey hlacks (Option.not_isSome_iff_eq_none.mp hmeta)
  | notIndexable hm hu hlast habsent hother hnone =>
    obtain ⟨k, hk, -⟩ := indexChain_last hkey hm hu habsent
    rw [hk, indexChain_other hother hnone]
  | tooLong hlong habsent =>
    obtain ⟨u, hu⟩ := Option.isSome_iff_exists.mp hlong
    exact indexChain_add (k := 0) hkey habsent hu

theorem indexChain_eq_iff (hkey : Table.isKey key = true) :
    indexChain h key limit v = r ↔ h.Answer v key limit r := by
  refine ⟨fun heq => ?_, Answer.indexChain_eq hkey⟩
  obtain ⟨r', hr'⟩ := exists_answer h v key limit
  rw [← heq, hr'.indexChain_eq hkey]
  exact hr'

/-- **Fields along chains of `__index`.**  Reading a field of a value ends in every heap, and it
comes to the first value that the key has in one of the first 2000 tables and strings behind each
other.  If the key is in none of these tables, the last of the values decides between nil and an
error, and a chain that is longer fails; one that comes back to a value has no end.  Nothing is
changed. -/
theorem index_along_chain (h : Heap) (v : Value) {key : Value} (hkey : ¬ key.IsNaN) :
    (∀ r, h.index v key = r ↔ h.Answer v key 2000 r) ∧
    (∀ a b, a < b → (h.chained v a).isSome → h.chained v a = h.chained v b →
      ∀ n, (h.chained v n).isSome) ∧
    ∀ {H : Host} (B : Behaviour H) (w : World H), w.memory.heap = h →
      Program.Runs B w (do (← Program.heap).index v key)
        ((h.index v key).mapError fun e => .cause (.argument e)) w := by
  refine ⟨fun r => indexChain_eq_iff (Table.isKey_iff.mpr hkey),
    fun a b => isSome_chained_of_cycle, fun B w hw => ?_⟩
  subst hw
  refine .read ?_
  show Program.Runs B w (Program.ofArgument (w.memory.heap.index v key)) _ w
  cases w.memory.heap.index v key with
  | ok found => exact .done
  | error e => exact .fail

/-- A table that is its own metatable, and its own `__index`. -/
def selfIndexed : Heap :=
  let own := { Table.empty.setField "__index" (.table ⟨0⟩) with metatable := some ⟨0⟩ }
  { initial with tables := #[own] }

/-- A key that the table lacks is looked for in vain, one that it has is found. -/
theorem index_along_chain_selfIndexed :
    (∀ n, (selfIndexed.chained (.table ⟨0⟩) n).isSome) ∧
    selfIndexed.index (.table ⟨0⟩) (.int 1) = .error (.metamethodLoop "__index") ∧
    selfIndexed.index (.table ⟨0⟩) (Value.ofText "__index") = .ok (.table ⟨0⟩) ∧
    (Program.Runs .bare { World.bare with memory.heap := selfIndexed }
      (do (← Program.heap).index (.table ⟨0⟩) (.int 1))
      (.error (.cause (.argument (.metamethodLoop "__index"))))
      { World.bare with memory.heap := selfIndexed }) := by
  have hnumber : ¬ (Value.int 1).IsNaN := by
    rintro ⟨x, hx, -⟩
    cases hx
  have htext : ¬ (Value.ofText "__index").IsNaN := by
    rintro ⟨x, hx, -⟩
    cases hx
  obtain ⟨hanswer, hcycle, hruns⟩ := index_along_chain selfIndexed (.table ⟨0⟩) hnumber
  have hbehind : selfIndexed.behind? (.table ⟨0⟩) = some (.table ⟨0⟩) := by decide
  have hforever := hcycle 0 1 (by omega) rfl hbehind.symm
  have hall : ∀ n, selfIndexed.chained (.table ⟨0⟩) n = some (.table ⟨0⟩) := by
    intro n
    induction n with
    | zero => rfl
    | succ n ih => rw [chained_succ, ih, Option.bind_some, hbehind]
  have hloop : selfIndexed.index (.table ⟨0⟩) (.int 1) = .error (.metamethodLoop "__index") := by
    refine (hanswer _).mpr (.tooLong (hforever 2000) ?_)
    intro i _ u hu t ht
    rw [hall i, ht] at hu
    cases hu
    decide
  refine ⟨hforever, hloop, ?_, ?_⟩
  · refine ((index_along_chain selfIndexed (.table ⟨0⟩) htext).1 _).mpr ?_
    refine .found (m := 0) (t := ⟨0⟩) (by omega) rfl (fun i hi => absurd hi (Nat.not_lt_zero i)) ?_
    decide
  · have h := hruns .bare { World.bare with memory.heap := selfIndexed } rfl
    rw [hloop] at h
    exact h

end Lua.Heap
