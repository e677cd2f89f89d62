/-
Traversing a table that nobody writes to.

Asked for the entry after each key that it has given, `next` locates the key again: by its index in
the array part, or by a search of the hash part.  No key is in both parts, so a traversal that
leaves the table alone goes through the entries one after the other.  The order of the hash part
does not matter, as long as it stays the same:

* `next_congr` — equal keys, such as an integer and the float equal to it, have one successor;
* `Sound.permuted`, `Sound.valuesAt_permuted` — a table whose hash part is in another order is the
  same map;
* `Complete` — visits of every key with a value, each of them once;
* `traversal_unmodified` — every traversal of every unmodified table is complete, and a key that is
  absent is refused.
-/
import Lua.Proofs.Border
import Lua.Proofs.Traversal

namespace Lua

namespace Table

variable {t : Table} {k q : Value} {l order : List (Value × Value)}

/-! ### Equal keys -/

theorem equals_congr_right (h : k.equals q = true) (key : Value) :
    key.equals k = key.equals q := by
  rw [Value.equals_comm, Value.equals_congr h, Value.equals_comm]

theorem isNil_congr (h : k.equals q = true) : k.isNil = q.isNil := by
  cases k <;> cases q <;> first | rfl | cases h

theorem isKey_congr (h : k.equals q = true) : isKey k = isKey q := by
  rw [isKey, Value.equals_congr h, equals_congr_right h]
  rfl

theorem arrayIndex?_congr (h : k.equals q = true) (size : Nat) :
    arrayIndex? size k = arrayIndex? size q := by
  ext i
  rw [arrayIndex?_eq_some_iff, arrayIndex?_eq_some_iff,
    equals_congr_right h]

theorem after?_congr (h : k.equals q = true) : after? k l = after? q l := by
  induction l with
  | nil => rfl
  | cons e l ih =>
    obtain ⟨key, w⟩ := e
    rw [after?, after?, equals_congr_right h, ih]

/-- The entry after a key is the entry after every equal key. -/
theorem next_congr (t : Table) (h : k.equals q = true) : t.next k = t.next q := by
  rw [next, next, isNil_congr h, arrayIndex?_congr h, isKey_congr h, after?_congr h]

/-! ### The order of the hash part -/

/-- The values at a key do not depend on the order of the entries. -/
theorem valuesAt_perm (h : l.Perm order) : (valuesAt q l).Perm (valuesAt q order) :=
  (h.filter _).map _

theorem eq_of_perm_of_length_le_one {vs ws : List Value} (h : vs.Perm ws) (hl : ws.length ≤ 1) :
    vs = ws := by
  match ws, hl with
  | [], _ => exact h.eq_nil
  | [w], _ => exact h.eq_singleton

variable (m : Option TableId)

theorem valuesAt_entries_perm (h : order.Perm t.hash) :
    (valuesAt q (Table.mk t.array order m).entries).Perm (valuesAt q t.entries) := by
  rw [valuesAt_entries, valuesAt_entries]
  exact (valuesAt_perm h).append_left _

theorem Sound.permuted (hs : t.Sound) (h : order.Perm t.hash) :
    (Table.mk t.array order m).Sound where
  size := hs.size
  single q := (valuesAt_entries_perm m h).length_eq.trans_le (hs.single q)
  array := hs.array
  hash e he := hs.hash e (h.mem_iff.mp he)

theorem Sound.valuesAt_permuted (hs : t.Sound) (h : order.Perm t.hash) (q : Value) :
    valuesAt q (Table.mk t.array order m).entries = valuesAt q t.entries :=
  eq_of_perm_of_length_le_one (valuesAt_entries_perm m h) (hs.single q)

theorem Settled.permuted (hs : t.Settled) (h : order.Perm t.hash) :
    (Table.mk t.array order m).Settled := by
  intro hlt
  have hperm := valuesAt_perm (q := .nat (t.array.size + 1)) h
  rw [hs hlt] at hperm
  exact hperm.eq_nil

/-! ### Complete visits -/

/-- The visits of a traversal that misses no key with a value and repeats none. -/
structure Complete (t : Table) (visited : List (Value × Value)) : Prop where
  /-- A key with a value is visited, with its value, and nothing else is. -/
  current : ∀ k v, v ≠ .nil →
    (t.get k = .ok v ↔ ∃ e ∈ visited, e.1.equals k = true ∧ e.2 = v)
  /-- No two visits are at equal keys. -/
  once : visited.Pairwise fun e e' => e.1.equals e'.1 = false
  /-- The keys up to the length come first, in ascending order. -/
  ascending : ∃ rest, visited = (List.range t.border).map
    (fun i => (.nat (i + 1), t.lookup (.nat (i + 1)))) ++ rest

theorem mem_valuesAt_iff {v : Value} :
    v ∈ valuesAt q l ↔ ∃ e ∈ l, e.1.equals q = true ∧ e.2 = v := by
  simp only [valuesAt, List.mem_map, List.mem_filter, and_assoc]

/-- The value at a key that has one is the only one there. -/
theorem Sound.get_eq_ok_iff (hs : t.Sound) {v : Value} (hv : v ≠ .nil) :
    t.get k = .ok v ↔ v ∈ valuesAt k t.entries := by
  have hvalue : t.lookup k = v ↔ v ∈ valuesAt k t.entries := by
    have hsingle := hs.single k
    rw [lookup_eq hs]
    generalize valuesAt k t.entries = vs at hsingle ⊢
    rcases vs with _ | ⟨w, _ | ⟨w', ws⟩⟩
    · simpa using hv.symm
    · simp [eq_comm]
    · rw [List.length_cons, List.length_cons] at hsingle
      omega
  rw [get]
  split
  case isTrue => rw [Except.ok.injEq, hvalue]
  case isFalse hk =>
    constructor
    · intro h
      cases h
    · -- no entry has a key that is not equal to itself
      intro hmem
      obtain ⟨e, -, he, -⟩ := mem_valuesAt_iff.mp hmem
      exact absurd (Value.equals_trans (Value.equals_symm he) he) hk

/-- Where no key has two values, the keys of the entries differ. -/
theorem pairwise_of_single (hkeys : ∀ e ∈ l, isKey e.1 = true)
    (hsingle : ∀ q, (valuesAt q l).length ≤ 1) :
    l.Pairwise fun e e' => e.1.equals e'.1 = false := by
  induction l with
  | nil => exact .nil
  | cons e l ih =>
    obtain ⟨key, w⟩ := e
    have hkey : key.equals key = true := hkeys _ List.mem_cons_self
    have hnone : valuesAt key l = [] := by
      have hlength := hsingle key
      rw [valuesAt_cons, if_pos hkey, List.length_cons] at hlength
      exact List.eq_nil_of_length_eq_zero (by omega)
    have hrest : ∀ q, (valuesAt q l).length ≤ 1 := by
      intro q
      have hlength := hsingle q
      rw [valuesAt_cons] at hlength
      split at hlength
      · rw [List.length_cons] at hlength
        omega
      · exact hlength
    refine .cons (fun e' he' => ?_) (ih (fun e' he' => hkeys e' (List.mem_cons_of_mem _ he')) hrest)
    by_contra hne
    have hequal : e'.1.equals key = true := Value.equals_symm (eq_true_of_ne_false hne)
    have hmem := mem_valuesAt he' hequal
    rw [hnone] at hmem
    cases hmem

/-- The entries of the array part, in ascending order. -/
theorem Sound.numbered_eq (hs : t.Sound) : numbered 0 t.array.toList =
    (List.range t.array.size).map fun i => (.nat (i + 1), t.lookup (.nat (i + 1))) := by
  have hzip := map_zipIdx_eq_numbered 0 0 t.array.toList
  rw [Nat.add_zero] at hzip
  rw [← hzip]
  refine List.ext_getElem (by simp) fun i hi hi' => ?_
  have hlt : i < t.array.size := by simpa using hi'
  rw [List.getElem_map, List.getElem_map, List.getElem_range, hs.lookup_nat hlt]
  simp

/-- The entries of a table are complete visits. -/
theorem Sound.complete_entries (hs : t.Sound) (h : t.Settled) : Complete t t.entries where
  current k v hv := (hs.get_eq_ok_iff hv).trans mem_valuesAt_iff
  once := pairwise_of_single (fun e he => (hs.proper he).isKey) hs.single
  ascending := ⟨t.hash, by rw [entries_eq, hs.numbered_eq, h.border_eq]⟩

/-- **An unmodified table is traversed completely.**  A table that writes made, with its hash part
in any order, is given to every traversal that leaves it alone entry by entry, after which the
traversal ends; at an equal key it goes on alike, and at an absent one it fails. -/
theorem traversal_unmodified (ops : List (Value × Value)) (m : Option TableId)
    (horder : order.Perm (empty.writeAll ops).hash) :
    let t : Table := ⟨(empty.writeAll ops).array, order, m⟩
    (∀ k, t.get k = (empty.writeAll ops).get k) ∧
      Complete t t.entries ∧
      (∀ visited failure, Traversal (fun _ => false) 0 t .nil visited failure ↔
        visited = t.entries ∧ failure = none) ∧
      (∀ k q, k.equals q = true → t.next k = t.next q) ∧
      ∀ k, k ≠ .nil → ¬ k.IsNaN → t.get k = .ok .nil → t.next k = .error noSuchKey := by
  intro t
  obtain ⟨hmade, -⟩ := sound_writeAll ops
  have hs : t.Sound := hmade.permuted m horder
  have hsettled : t.Settled := (settled_writeAll ops).permuted m horder
  have hcourse : Traversal (fun _ => false) 0 t .nil t.entries none :=
    hs.traversal_complete fun _ _ => rfl
  refine ⟨fun k => ?_, hs.complete_entries hsettled, fun visited failure => ⟨fun h => ?_, ?_⟩,
    fun k q => next_congr t, fun k hn hk hget => ?_⟩
  · rw [get, get, lookup_eq hs, lookup_eq hmade, hmade.valuesAt_permuted m horder]
  · exact h.unique hcourse
  · rintro ⟨rfl, rfl⟩
    exact hcourse
  · refine hs.next_absent (Bool.eq_false_iff.mpr (mt isNil_iff.mp hn)) (isKey_iff.mpr hk) ?_
    refine List.eq_nil_iff_forall_not_mem.mpr fun v hv => ?_
    -- an entry at the key would have a value
    obtain ⟨e, he, -, hev⟩ := mem_valuesAt_iff.mp hv
    have hvalue : v ≠ .nil := hev ▸ ne_nil_of_isNil (hs.proper he).value
    exact hvalue (Except.ok.inj (((hs.get_eq_ok_iff hvalue).mpr hv).symm.trans hget))

/-- Writes to both parts of a table, out of order. -/
def mixedWrites : List (Value × Value) :=
  [(.ofText "x", .nat 7), (.nat 2, .nat 20), (.boolean true, .nat 8), (.float 1.0, .nat 10),
    (.ofText "x", .nat 9)]

/-- The table of these writes, with its hash part in reverse order. -/
def mixed : Table :=
  ⟨(empty.writeAll mixedWrites).array, (empty.writeAll mixedWrites).hash.reverse, none⟩

theorem traversal_unmodified_mixed :
    (empty.writeAll mixedWrites).hash.reverse.Perm (empty.writeAll mixedWrites).hash ∧
      Traversal (fun _ => false) 0 mixed .nil [(.nat 1, .nat 10), (.nat 2, .nat 20),
        (.boolean true, .nat 8), (.ofText "x", .nat 9)] none ∧
      mixed.next (.float 2.0) = .ok (some (.boolean true, .nat 8)) ∧
      mixed.next (.nat 3) = .error noSuchKey := by
  have hperm := List.reverse_perm (empty.writeAll mixedWrites).hash
  obtain ⟨-, -, hcourse, hequal, habsent⟩ := traversal_unmodified mixedWrites none hperm
  refine ⟨hperm, (hcourse _ _).mpr ⟨by decide +kernel, rfl⟩, ?_, ?_⟩
  · refine (hequal (.float 2.0) (.nat 2) (by decide +kernel)).trans ?_
    decide +kernel
  · refine habsent (.nat 3) nofun ?_ (by decide +kernel)
    rintro ⟨x, hx, -⟩
    cases hx

end Table

end Lua
