/-
Traversing a table while fields are cleared.

A traversal starts at nil and goes from each key it is given to the next one; between two steps
the field at the key just given may be cleared.  A table that nobody writes to is traversed along
its entries.  A key is located again in the table as it is when the next entry is asked for, so
a key whose field was cleared is not found.

* `Sound.next_entry` — after the key of an entry comes the following entry;
* `Sound.next_absent` — a key without a value is refused;
* `Traversal` — the entries that a traversal is given, and the error that ends it, if any;
* `traversal_course` — every traversal of every table: it is complete if it clears nothing, and
  otherwise it fails at the step after the first field it clears.
-/
import Lua.Proofs.TableMap

namespace Lua

namespace Table

variable {t : Table} {k q v : Value} {l : List (Value × Value)}

/-! ### The entry after a key -/

theorem after?_eq_none (h : valuesAt q l = []) : after? q l = none := by
  induction l with
  | nil => rfl
  | cons e l ih =>
    obtain ⟨key, w⟩ := e
    rw [valuesAt_cons] at h
    split at h
    · cases h
    · rename_i hne
      rw [after?, if_neg hne]
      exact ih h

/-- In a list where no key is double, what is after the key of an entry is what follows it. -/
theorem after?_getElem {j : Nat} (hj : j < l.length) (hkey : isKey l[j].1 = true)
    (hsingle : (valuesAt l[j].1 l).length ≤ 1) : after? l[j].1 l = some (l.drop (j + 1)) := by
  induction l generalizing j with
  | nil => exact absurd hj (Nat.not_lt_zero j)
  | cons e l ih =>
    obtain ⟨key, w⟩ := e
    cases j with
    | zero => exact if_pos hkey
    | succ j =>
      have hj' : j < l.length := Nat.lt_of_succ_lt_succ hj
      rw [List.getElem_cons_succ] at hkey hsingle ⊢
      rw [List.drop_succ_cons]
      have hmem := mem_valuesAt (List.getElem_mem hj') hkey
      rw [valuesAt_cons] at hsingle
      split at hsingle
      · rw [List.length_cons] at hsingle
        have hnil : valuesAt l[j].1 l = [] := List.eq_nil_of_length_eq_zero (by omega)
        rw [hnil] at hmem
        cases hmem
      · rename_i hne
        rw [after?, if_neg hne]
        exact ih hj' hkey hsingle

theorem length_numbered (n : Nat) (vs : List Value) : (numbered n vs).length = vs.length := by
  induction vs generalizing n with
  | nil => rfl
  | cons v vs ih => exact congrArg (· + 1) (ih (n + 1))

theorem getElem_numbered {n i : Nat} {vs : List Value} (hi : i < (numbered n vs).length) :
    (numbered n vs)[i].1 = .nat (n + i + 1) := by
  induction vs generalizing n i with
  | nil => exact absurd hi (Nat.not_lt_zero i)
  | cons v vs ih =>
    cases i with
    | zero => rfl
    | succ i =>
      refine (ih (n := n + 1) (i := i) (Nat.lt_of_succ_lt_succ hi)).trans ?_
      congr 1
      omega

theorem Sound.proper (hs : t.Sound) {e : Value × Value} (he : e ∈ t.entries) : Proper e := by
  rw [entries_eq, List.mem_append] at he
  exact he.elim (proper_numbered hs.array e) (hs.hash e)

/-- A key with no value in the array part has no index there. -/
theorem Sound.arrayIndex?_eq_none (hs : t.Sound)
    (h : valuesAt k (numbered 0 t.array.toList) = []) : arrayIndex? t.array.size k = none := by
  rw [Option.eq_none_iff_forall_not_mem]
  intro j hj
  obtain ⟨hlt, -, hkey⟩ := arrayIndex?_eq_some_iff.mp hj
  have hone : valuesAt k (numbered 0 t.array.toList) = [t.array.toList[j]] :=
    valuesAt_numbered hlt (by simpa using hs.size) (by simpa using hkey)
  cases h.symm.trans hone

/-- After the key of an entry comes the following entry. -/
theorem Sound.next_entry (hs : t.Sound) {i : Nat} (hi : i < t.entries.length) :
    t.next t.entries[i].1 = .ok t.entries[i + 1]? := by
  have hproper := hs.proper (List.getElem_mem hi)
  have hsingle := hs.single t.entries[i].1
  rw [next, if_neg (by rw [hproper.notNil]; exact Bool.false_ne_true)]
  by_cases harray : i < t.array.size
  · -- an entry of the array part is known by its index
    have hi' : i < (numbered 0 t.array.toList).length := by
      rw [length_numbered]
      exact harray
    have hkey : t.entries[i].1 = .nat (i + 1) := by
      simp only [entries_eq, List.getElem_append_left hi', getElem_numbered, Nat.zero_add]
    have hindex : arrayIndex? t.array.size t.entries[i].1 = some i := by
      have hsize := hs.size
      rw [hkey]
      exact arrayIndex?_eq_some_iff.mpr ⟨harray, by omega, nat_equals_self (i + 1)⟩
    rw [hindex]
    dsimp only
    rw [List.head?_drop]
  · -- an entry of the hash part is found there, for the array part has no equal key
    have hlength : (numbered 0 t.array.toList).length = t.array.size := length_numbered 0 _
    have hi' : i - t.array.size < t.hash.length := by
      rw [entries_eq, List.length_append, hlength] at hi
      omega
    have hentry : t.entries[i] = t.hash[i - t.array.size] := by
      simp only [entries_eq]
      rw [List.getElem_append_right (by omega)]
      simp only [hlength]
    have hfollowing : t.entries[i + 1]? = t.hash[i - t.array.size + 1]? := by
      rw [entries_eq, List.getElem?_append_right (by omega), hlength]
      congr 1
      omega
    rw [hentry] at hproper hsingle ⊢
    have hmem := mem_valuesAt (List.getElem_mem hi') hproper.isKey
    rw [valuesAt_entries, List.length_append] at hsingle
    have hpos := List.length_pos_of_mem hmem
    have hnumbered : valuesAt t.hash[i - t.array.size].1 (numbered 0 t.array.toList) = [] :=
      List.eq_nil_of_length_eq_zero (by omega)
    have hindex := hs.arrayIndex?_eq_none hnumbered
    rw [hindex]
    dsimp only
    rw [if_pos hproper.isKey, after?_getElem hi' hproper.isKey (by omega), hfollowing]
    dsimp only
    rw [List.head?_drop]

theorem next_nil (t : Table) : t.next .nil = .ok t.entries[0]? := by
  rw [next, List.head?_eq_getElem?]
  rfl

/-- The refusal of a key that is not in the table. -/
def noSuchKey : ArgumentError := .malformed "invalid key to 'next'"

/-- A key without a value is refused. -/
theorem Sound.next_absent (hs : t.Sound) (hn : k.isNil = false) (hk : isKey k = true)
    (habsent : valuesAt k t.entries = []) : t.next k = .error noSuchKey := by
  rw [valuesAt_entries, List.append_eq_nil_iff] at habsent
  rw [next, if_neg (by rw [hn]; exact Bool.false_ne_true), hs.arrayIndex?_eq_none habsent.1]
  dsimp only
  rw [if_pos hk, after?_eq_none habsent.2]
  rfl

/-! ### Traversals -/

/-- A traversal that goes on from a key in its `i`-th step: the entries it is given and the error
that ends it.  Where `clears` says so, the field at the key just given is cleared. -/
inductive Traversal (clears : Nat → Bool) :
    Nat → Table → Value → List (Value × Value) → Option ArgumentError → Prop
  | ends {i t k} (h : t.next k = .ok none) : Traversal clears i t k [] none
  | fails {i t k e} (h : t.next k = .error e) : Traversal clears i t k [] (some e)
  | kept {i t k e rest failure} (h : t.next k = .ok (some e)) (hkeep : clears i = false)
      (hrest : Traversal clears (i + 1) t e.1 rest failure) :
      Traversal clears i t k (e :: rest) failure
  | cleared {i t k e rest failure} (h : t.next k = .ok (some e)) (hclear : clears i = true)
      (hrest : Traversal clears (i + 1) (t.write (e.1, .nil)) e.1 rest failure) :
      Traversal clears i t k (e :: rest) failure

variable {clears : Nat → Bool} {i : Nat} {visited visited' : List (Value × Value)}
  {failure failure' : Option ArgumentError}

/-- What a traversal is given is determined. -/
theorem Traversal.unique (h : Traversal clears i t k visited failure)
    (h' : Traversal clears i t k visited' failure') : visited = visited' ∧ failure = failure' := by
  induction h generalizing visited' failure' with
  | ends hnext =>
    cases h' with
    | ends => exact ⟨rfl, rfl⟩
    | fails hnext' => cases hnext.symm.trans hnext'
    | kept hnext' => cases hnext.symm.trans hnext'
    | cleared hnext' => cases hnext.symm.trans hnext'
  | fails hnext =>
    cases h' with
    | ends hnext' => cases hnext.symm.trans hnext'
    | fails hnext' =>
      cases hnext.symm.trans hnext'
      exact ⟨rfl, rfl⟩
    | kept hnext' => cases hnext.symm.trans hnext'
    | cleared hnext' => cases hnext.symm.trans hnext'
  | kept hnext hkeep _ ih =>
    cases h' with
    | ends hnext' => cases hnext.symm.trans hnext'
    | fails hnext' => cases hnext.symm.trans hnext'
    | kept hnext' _ hrest' =>
      cases hnext.symm.trans hnext'
      obtain ⟨rfl, rfl⟩ := ih hrest'
      exact ⟨rfl, rfl⟩
    | cleared hnext' hclear => cases hkeep.symm.trans hclear
  | cleared hnext hclear _ ih =>
    cases h' with
    | ends hnext' => cases hnext.symm.trans hnext'
    | fails hnext' => cases hnext.symm.trans hnext'
    | kept hnext' hkeep => cases hclear.symm.trans hkeep
    | cleared hnext' _ hrest' =>
      cases hnext.symm.trans hnext'
      obtain ⟨rfl, rfl⟩ := ih hrest'
      exact ⟨rfl, rfl⟩

/-- The key from which a traversal goes on to the entry at an index. -/
def keyBefore (t : Table) : Nat → Value
  | 0 => .nil
  | i + 1 => (t.entries[i]?.map Prod.fst).getD .nil

theorem keyBefore_succ (hi : i < t.entries.length) : t.keyBefore (i + 1) = t.entries[i].1 := by
  rw [keyBefore, List.getElem?_eq_getElem hi]
  rfl

theorem Sound.next_keyBefore (hs : t.Sound) (hi : i ≤ t.entries.length) :
    t.next (t.keyBefore i) = .ok t.entries[i]? := by
  cases i with
  | zero => exact next_nil t
  | succ i => rw [keyBefore_succ hi, hs.next_entry hi]

/-- As long as nothing is cleared, the entries are given in their order. -/
theorem Sound.traversal_of_kept (hs : t.Sound) (hi : i ≤ t.entries.length)
    (hkeep : ∀ j < i, clears j = false) (h : Traversal clears i t (t.keyBefore i) visited failure) :
    Traversal clears 0 t .nil (t.entries.take i ++ visited) failure := by
  induction i generalizing visited with
  | zero => exact h
  | succ i ih =>
    have hget : t.entries[i]? = some t.entries[i] := List.getElem?_eq_getElem hi
    have hnext := (hs.next_keyBefore (Nat.le_of_succ_le hi)).trans (congrArg Except.ok hget)
    rw [keyBefore_succ hi] at h
    have := ih (Nat.le_of_succ_le hi) (fun j hj => hkeep j (Nat.lt_succ_of_lt hj))
      (.kept hnext (hkeep i (Nat.lt_succ_self i)) h)
    rwa [List.take_add_one, hget, Option.toList_some, List.append_assoc]

/-- A traversal that clears nothing is given all entries. -/
theorem Sound.traversal_complete (hs : t.Sound)
    (hkeep : ∀ i < t.entries.length, clears i = false) :
    Traversal clears 0 t .nil t.entries none := by
  have hend := hs.next_keyBefore (le_refl t.entries.length)
  rw [List.getElem?_eq_none (le_refl _)] at hend
  have := hs.traversal_of_kept (le_refl _) hkeep (.ends hend)
  rwa [List.take_length, List.append_nil] at this

/-- A traversal is lost at the key that it clears first. -/
theorem Sound.traversal_lost (hs : t.Sound) (hi : i < t.entries.length)
    (hkeep : ∀ j < i, clears j = false) (hclear : clears i = true) :
    Traversal clears 0 t .nil (t.entries.take (i + 1)) (some noSuchKey) := by
  have hget : t.entries[i]? = some t.entries[i] := List.getElem?_eq_getElem hi
  have hnext := (hs.next_keyBefore hi.le).trans (congrArg Except.ok hget)
  have hproper := hs.proper (List.getElem_mem hi)
  obtain ⟨hsound, hvalues⟩ := hs.write t.entries[i].1 .nil
  have habsent : valuesAt t.entries[i].1 (t.write (t.entries[i].1, .nil)).entries = [] := by
    have hwritable : isWritable t.entries[i].1 = true := by
      rw [isWritable, hproper.notNil, hproper.isKey]
      rfl
    rw [hvalues, hwritable, Bool.true_and]
    exact if_pos hproper.isKey
  have hlost := hsound.next_absent hproper.notNil hproper.isKey habsent
  have := hs.traversal_of_kept hi.le hkeep (.cleared hnext hclear (.fails hlost))
  rwa [List.take_add_one, hget, Option.toList_some]

/-- The first of the steps that clear a field. -/
theorem exists_first {n : Nat} (h : ¬ ∀ i < n, clears i = false) :
    ∃ i < n, clears i = true ∧ ∀ j < i, clears j = false := by
  have hsome : ∃ i, i < n ∧ clears i = true := by simpa using h
  obtain ⟨hlt, hclear⟩ := Nat.find_spec hsome
  refine ⟨Nat.find hsome, hlt, hclear, fun j hj => ?_⟩
  exact eq_false_of_ne_true fun h => Nat.find_min hsome hj ⟨hj.trans hlt, h⟩

/-- **The course of a traversal.**  A table made by writes has one entry for each key with a
value.  A traversal of it that clears nothing is given each entry once and then ends; any other
is given the entries up to the first that it clears, and fails there. -/
theorem traversal_course (ops : List (Value × Value)) (clears : Nat → Bool)
    (visited : List (Value × Value)) (failure : Option ArgumentError) :
    (∀ k, valuesAt k (empty.writeAll ops).entries =
        ((empty.writeAll ops).lookup k).notNil?.toList) ∧
      (Traversal clears 0 (empty.writeAll ops) .nil visited failure ↔
        ((∀ i < (empty.writeAll ops).entries.length, clears i = false) ∧
            visited = (empty.writeAll ops).entries ∧ failure = none) ∨
          ∃ i < (empty.writeAll ops).entries.length, clears i = true ∧
            (∀ j < i, clears j = false) ∧
            visited = (empty.writeAll ops).entries.take (i + 1) ∧ failure = some noSuchKey) := by
  obtain ⟨hs, hvalues⟩ := sound_writeAll ops
  generalize empty.writeAll ops = t at hs hvalues
  refine ⟨fun k => ?_, fun h => ?_, ?_⟩
  · have hhead : ∀ v : Value, v.notNil?.toList.head?.getD .nil = v := by rintro ⟨⟩ <;> rfl
    rw [lookup_eq hs, hvalues, hhead]
  · by_cases hkeep : ∀ i < t.entries.length, clears i = false
    · obtain ⟨rfl, rfl⟩ := h.unique (hs.traversal_complete hkeep)
      exact Or.inl ⟨hkeep, rfl, rfl⟩
    · obtain ⟨i, hi, hclear, hbefore⟩ := exists_first hkeep
      obtain ⟨rfl, rfl⟩ := h.unique (hs.traversal_lost hi hbefore hclear)
      exact Or.inr ⟨i, hi, hclear, hbefore, rfl, rfl⟩
  · rintro (⟨hkeep, rfl, rfl⟩ | ⟨i, hi, hclear, hkeep, rfl, rfl⟩)
    · exact hs.traversal_complete hkeep
    · exact hs.traversal_lost hi hkeep hclear

/-- In a table of one field, clearing it in the loop loses the traversal. -/
theorem traversal_lost_at_cleared :
    let t := empty.writeAll [(.nat 1, .nat 10)]
    t.next .nil = .ok (some (.nat 1, .nat 10)) ∧
      (t.write (.nat 1, .nil)).next (.nat 1) = .error noSuchKey ∧
      Traversal (fun _ => true) 0 t .nil [(.nat 1, .nat 10)] (some noSuchKey) ∧
      ¬ Traversal (fun _ => true) 0 t .nil [(.nat 1, .nat 10)] none := by
  have hfirst : (empty.writeAll [(.nat 1, .nat 10)]).next .nil =
      .ok (some (.nat 1, .nat 10)) := by decide +kernel
  have hlost : ((empty.writeAll [(.nat 1, .nat 10)]).write (.nat 1, .nil)).next (.nat 1) =
      .error noSuchKey := by decide +kernel
  have hrun : Traversal (fun _ => true) 0 (empty.writeAll [(.nat 1, .nat 10)]) .nil
      [(.nat 1, .nat 10)] (some noSuchKey) := .cleared hfirst rfl (.fails hlost)
  exact ⟨hfirst, hlost, hrun, fun h => nomatch (hrun.unique h).2⟩

end Table

end Lua
