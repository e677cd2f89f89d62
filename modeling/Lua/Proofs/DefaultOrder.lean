/-
Sorting in the default order.

Without a function `sort` compares numbers with numbers and strings with strings, and a comparison
of anything else is an error.  It compares only some of the pairs.  But every half that was sorted
is of one kind, and the first comparison of a merge is one of both halves, so a table with values of
two kinds is always found out.

* `Like` — two numbers or two strings;
* `defaultLess_eq` — those are the values that can be compared;
* `Bytes.less_iff` — the order of strings is the lexicographic one;
* `Sortable` — the tables that can be sorted;
* `sort_default_order` — all others are refused, and integers and strings come out in
  non-decreasing order.

Design notes: a NaN can be compared with every number, and is not less than any.  So a table of
numbers is sorted without an error, but nothing is said of the order of floats.
-/
import Lua.Proofs.Sorting

namespace Lua

variable {H : Host} {B : Behaviour H} {w w' w₁ : World H}

open Lua.Sort

/-! ### Values that can be compared -/

/-- Two numbers, or two strings. -/
inductive Like : Value → Value → Prop
  | numbers (m n : Number) : Like (.number m) (.number n)
  | strings (s u : Bytes) : Like (.string s) (.string u)

theorem Like.symm {a b : Value} (h : Like a b) : Like b a := by
  cases h with
  | numbers m n => exact .numbers n m
  | strings s u => exact .strings u s

theorem Like.trans {a b c : Value} (h : Like a b) (h' : Like b c) : Like a c := by
  cases h with
  | numbers m n =>
    cases h' with
    | numbers _ k => exact .numbers m k
  | strings s u =>
    cases h' with
    | strings _ v => exact .strings s v

/-- The order of strings is the lexicographic order of their bytes. -/
theorem Bytes.less_iff {s u : Bytes} : Bytes.less s u = true ↔ s < u := by
  induction s generalizing u with
  | nil =>
    cases u with
    | nil => exact ⟨nofun, fun h => absurd h (List.not_lt_nil _)⟩
    | cons b u => exact ⟨fun _ => List.nil_lt_cons b u, fun _ => rfl⟩
  | cons a s ih =>
    cases u with
    | nil => exact ⟨nofun, fun h => absurd h (List.not_lt_nil _)⟩
    | cons b u =>
      rw [Bytes.less, List.cons_lt_cons_iff, Bool.or_eq_true, Bool.and_eq_true, decide_eq_true_iff,
        beq_iff_eq, ih]

namespace Library.Tables

variable {a b : Value} {t t' : Table}

/-- Comparing two values fails if they are not alike. -/
theorem defaultLess_of_not_like (h : ¬ Like a b) :
    defaultLess a b = .error (.incomparable a.typeName b.typeName) := by
  cases a <;> cases b
  case number.number m n => exact absurd (.numbers m n) h
  case string.string s u => exact absurd (.strings s u) h
  all_goals rfl

theorem exists_defaultLess (h : Like a b) : ∃ isLess, defaultLess a b = .ok isLess := by
  cases h with
  | numbers m n =>
    rw [defaultLess]
    cases (Value.number m).compare? (.number n) with
    | some o => exact ⟨_, rfl⟩
    | none => exact ⟨_, rfl⟩
  | strings s u => exact ⟨_, rfl⟩

theorem defaultLess_int (i j : Int64) :
    defaultLess (.int i) (.int j) = .ok (decide (i < j)) := by
  have hless : defaultLess (.int i) (.int j) = .ok (compare i.toInt j.toInt == .lt) := rfl
  rw [hless, Except.ok.injEq, Bool.eq_iff_iff]
  rw [beq_iff_eq, compare_lt_iff_lt, decide_eq_true_iff, Int64.lt_iff_toInt_lt]

theorem defaultLess_string (s u : Bytes) :
    defaultLess (.string s) (.string u) = .ok (decide (s < u)) := by
  have hless : defaultLess (.string s) (.string u) = .ok (Value.compareStrings s u == .lt) := rfl
  rw [hless, Except.ok.injEq, Bool.eq_iff_iff]
  rw [beq_iff_eq, decide_eq_true_iff, ← Bytes.less_iff, Value.compareStrings]
  split
  case isTrue h => exact iff_of_true rfl h
  case isFalse h =>
    refine iff_of_false ?_ h
    split <;> nofun

/-- A comparison in the default order changes nothing. -/
theorem less_none_runs_iff {r : Except Raised Bool} : (less none a b).Runs B w r w' ↔
    r = (defaultLess a b).mapError (Raised.cause ∘ Cause.argument) ∧ w' = w := by
  rw [less]
  cases defaultLess a b with
  | ok isLess => exact Program.runs_done_iff
  | error e => exact Program.runs_fail_iff

/-! ### Tables that can be sorted -/

/-- There is nothing to compare, or all values are numbers, or all are strings. -/
def Sortable (t : Table) : Prop :=
  t.border ≤ 1 ∨ (∀ v ∈ t.values, ∃ n, v = .number n) ∨ ∀ v ∈ t.values, ∃ s, v = .string s

theorem sortable_of_like (h : ∀ a ∈ t.values, ∀ b ∈ t.values, Like a b) : Sortable t := by
  cases hvalues : t.values with
  | nil =>
    have hlength := Table.length_values (t := t)
    rw [hvalues] at hlength
    exact .inl (hlength ▸ Nat.zero_le 1)
  | cons v vs =>
    -- all values are of the kind of the first
    have hv : v ∈ t.values := hvalues ▸ List.mem_cons_self
    cases h v hv v hv with
    | numbers m =>
      refine .inr (.inl fun a ha => ?_)
      obtain ⟨⟩ := h _ hv a ha
      exact ⟨_, rfl⟩
    | strings s =>
      refine .inr (.inr fun a ha => ?_)
      obtain ⟨⟩ := h _ hv a ha
      exact ⟨_, rfl⟩

theorem Sortable.like (h : Sortable t) (hn : 1 < t.border) :
    ∀ a ∈ t.values, ∀ b ∈ t.values, Like a b := by
  intro a ha b hb
  rcases h with hle | hnumbers | hstrings
  · omega
  · obtain ⟨⟨m, rfl⟩, n, rfl⟩ := And.intro (hnumbers a ha) (hnumbers b hb)
    exact .numbers m n
  · obtain ⟨⟨s, rfl⟩, u, rfl⟩ := And.intro (hstrings a ha) (hstrings b hb)
    exact .strings s u

/-- Values of one kind can be sorted. -/
theorem sortable_of_map {α : Type} {g : α → Value} (hg : ∀ x y, Like (g x) (g y)) {xs : List α}
    (hxs : t.values = xs.map g) : Sortable t := by
  refine sortable_of_like ?_
  rw [hxs]
  simp only [List.forall_mem_map]
  exact fun x _ y _ => hg x y

/-! ### Runs -/

variable {args : List Value} {id : TableId} {cs : List (Comparison Nat)} {xs ks : List Nat}

/-- Comparisons in the default order leave the world as it is. -/
theorem makes_none (h : Makes B (lessAt none t) xs w cs w') :
    w' = w ∧ ∀ c ∈ cs, defaultLess (t.nth c.left) (t.nth c.right) = .ok c.isLess := by
  induction h with
  | nil => exact ⟨rfl, List.forall_mem_nil _⟩
  | @cons w w₁ w' c cs _ _ h _ ih =>
    obtain ⟨hr, rfl⟩ := less_none_runs_iff.mp h
    obtain ⟨rfl, hcs⟩ := ih
    refine ⟨rfl, List.forall_mem_cons.mpr ⟨?_, hcs⟩⟩
    cases hless : defaultLess (t.nth c.left) (t.nth c.right) with
    | ok isLess =>
      rw [hless] at hr
      exact congrArg Except.ok (Except.ok.inj hr).symm
    | error e =>
      rw [hless] at hr
      cases hr

theorem closed_none : Closed B (lessAt none t) (List.range t.border) (· = w) := by
  rintro _ i j r w' rfl - - h
  exact (less_none_runs_iff.mp h).2

/-- Sorting in the default order comes to an end. -/
theorem exists_sort_runs_none (hid : argument TableId args 0 = .ok id)
    (hnil : args.getD 1 .nil = .nil) (htable : w.memory.heap.table id = t) :
    ∃ r w', (sort args).Runs B w r w' := by
  refine exists_sort_runs (c := none) hid hnil htable closed_none (fun w i j _ _ _ => ?_) rfl
  exact ⟨_, w, less_none_runs_iff.mpr ⟨rfl, rfl⟩⟩

/-- A table of at most one value is sorted without a comparison. -/
theorem sortedIndices_of_le_one (c : Option Function) (h : t.border ≤ 1) :
    (sortedIndices c t : Program H (List Nat)) = .done (List.range t.border) := by
  rw [sortedIndices]
  interval_cases t.border
  · rw [List.range_zero, mergeSort]
    rfl
  · rw [List.range_one, mergeSort]
    rfl

/-- Only comparisons of values that are alike succeed, so all values of a table that was sorted are
alike. -/
theorem sortable_of_sorts (hks : Sorts (List.range t.border) cs ks)
    (hcs : ∀ c ∈ cs, defaultLess (t.nth c.left) (t.nth c.right) = .ok c.isLess) : Sortable t := by
  have hlike : ∀ c ∈ cs, Like (t.nth c.left) (t.nth c.right) := by
    intro c hc
    by_contra hn
    cases (hcs c hc).symm.trans (defaultLess_of_not_like hn)
  rcases hks.related (C := fun i j => Like (t.nth i) (t.nth j)) Like.symm Like.trans hlike with
    hle | hall
  · rw [List.length_range] at hle
    exact .inl hle
  · refine sortable_of_like fun a ha b hb => ?_
    obtain ⟨⟨i, hi, rfl⟩, j, hj, rfl⟩ := And.intro (Table.mem_values.mp ha) (Table.mem_values.mp hb)
    exact hall i hi j hj

/-- A table for which a comparison fails cannot be sorted. -/
theorem not_sortable_of_error (hid : argument TableId args 0 = .ok id)
    (hnil : args.getD 1 .nil = .nil) (htable : w.memory.heap.table id = t) {e : Raised}
    (h : (sort args).Runs B w (.error e) w') {a b : Value} (ha : a ∈ t.values) (hb : b ∈ t.values)
    (hunlike : ¬ Like a b) : ¬ Sortable t := by
  intro hsortable
  by_cases hle : t.border ≤ 1
  · -- there was nothing to compare
    have hindices : (sortedIndices none t).Runs B w (.ok (List.range t.border)) w := by
      rw [sortedIndices_of_le_one none hle]
      exact .done
    have hdone := (sort_runs_iff (c := none) hid hnil htable).mpr (.inl ⟨_, w, hindices, rfl, rfl⟩)
    cases (hdone.unique h).1
  · exact hunlike (hsortable.like (by omega) a ha b hb)

/-! ### Ascending values -/

/-- If the values of `t` come from `α`, then those of `t'` are the same in non-decreasing order. -/
def Ascending {α : Type} [LE α] (g : α → Value) (t t' : Table) : Prop :=
  ∀ xs : List α, t.values = xs.map g →
    ∃ ys : List α, t'.values = ys.map g ∧ ys.Perm xs ∧ ys.Pairwise (· ≤ ·)

theorem ascending_of_sorts {α : Type} [LE α] [LT α] [Std.IsLinearOrder α] [Std.LawfulOrderLT α]
    [DecidableLT α] {g : α → Value} (hg : ∀ x y, defaultLess (g x) (g y) = .ok (decide (x < y)))
    (hks : Sorts (List.range t.border) cs ks) (hre : Table.Rearranged t ks t')
    (hcs : ∀ c ∈ cs, defaultLess (t.nth c.left) (t.nth c.right) = .ok c.isLess) :
    Ascending g t t' := by
  intro xs hxs
  have hiff : ∀ x y, defaultLess (g x) (g y) = .ok true ↔ x < y := by
    intro x y
    rw [hg, Except.ok.injEq, decide_eq_true_iff]
  have hgraded : Graded (fun a b => defaultLess a b = .ok true) t.values := by
    rw [hxs]
    constructor
    · simp only [List.forall_mem_map, hiff]
      intro x _ y _ hxy hyx
      exact Std.lt_irrefl (Std.lt_trans hxy hyx)
    · simp only [List.forall_mem_map, hiff]
      intro x _ y _ z _ hxz
      by_cases hxy : x < y
      · exact .inl hxy
      · exact .inr (Std.lt_of_le_of_lt (Std.not_lt.mp hxy) hxz)
  have hfollow : Follow (fun i j => defaultLess (t.nth i) (t.nth j) = .ok true) cs := by
    intro c hc
    show _ ↔ defaultLess (t.nth c.left) (t.nth c.right) = .ok true
    rw [hcs c hc, Except.ok.injEq]
  have hordered := (hre.inOrder hgraded hks hfollow).ordered
  obtain ⟨ys, hys, hperm⟩ : Relation.Comp (· = List.map g ·) List.Perm t'.values xs := by
    rw [List.eq_map_comp_perm]
    show t'.values.Perm (xs.map g)
    rw [← hxs]
    exact hre.perm_values
  rw [hys, List.pairwise_map] at hordered
  refine ⟨ys, hys, hperm, hordered.imp fun {x y} h => ?_⟩
  rw [hiff] at h
  exact Std.not_lt.mp h

/-- **Sorting in the default order.**  `sort` succeeds if and only if there is nothing to compare,
or all values are numbers, or all are strings.  Then it rearranges the values, and integers or
strings are in non-decreasing order afterwards.  Otherwise it names the types of two values that
cannot be compared, and nothing has changed. -/
theorem sort_default_order (host : HostCode H) (hid : argument TableId args 0 = .ok id)
    (hnil : args.getD 1 .nil = .nil) (ht : t.Made) (htable : w.memory.heap.table id = t) :
    ∃ r w', (∀ r₁ w₁,
        ((Behaviour.standard host).builtin (.table .sort) args).Runs (.standard host) w r₁ w₁ ↔
          r₁ = r ∧ w₁ = w') ∧
      (Sortable t → r = .ok [] ∧ w.SameBut id w' ∧
        ∃ ks, Table.Rearranged t ks (w'.memory.heap.table id)) ∧
      (¬ Sortable t → w' = w ∧ ∃ a ∈ t.values, ∃ b ∈ t.values, ¬ Like a b ∧
        r = .error (.cause (.argument (.incomparable a.typeName b.typeName)))) ∧
      Ascending Value.int t (w'.memory.heap.table id) ∧
      Ascending Value.string t (w'.memory.heap.table id) := by
  obtain ⟨r, w', h⟩ := exists_sort_runs_none (B := .standard host) hid hnil htable
  refine ⟨r, w', fun r₁ w₁ => ⟨fun h₁ => h₁.unique h, ?_⟩, ?_⟩
  · rintro ⟨rfl, rfl⟩
    exact h
  cases sort_course (c := none) hid hnil ht (fun hw => hw ▸ htable) closed_none rfl h with
  | @sorted cs ks w₁ _ hm hs hre hsame =>
    obtain ⟨rfl, hcs⟩ := makes_none hm
    have hsortable := sortable_of_sorts hs hcs
    exact ⟨fun _ => ⟨rfl, hsame, ks, hre⟩, fun hn => absurd hsortable hn,
      ascending_of_sorts defaultLess_int hs hre hcs,
      ascending_of_sorts defaultLess_string hs hre hcs⟩
  | @failed cs w₁ _ i j e hm hi hj hfails =>
    obtain ⟨rfl, -⟩ := makes_none hm
    obtain ⟨he, rfl⟩ := less_none_runs_iff.mp hfails
    have hi := Table.nth_mem_values hi
    have hj := Table.nth_mem_values hj
    have hunlike : ¬ Like (t.nth i) (t.nth j) := by
      intro hlike
      obtain ⟨isLess, hless⟩ := exists_defaultLess hlike
      rw [hless] at he
      cases he
    have hunsortable := not_sortable_of_error hid hnil htable h hi hj hunlike
    rw [defaultLess_of_not_like hunlike] at he
    refine ⟨fun hsortable => absurd hsortable hunsortable, fun _ => ?_, fun xs hxs => ?_,
      fun xs hxs => ?_⟩
    · exact ⟨rfl, _, hi, _, hj, hunlike, congrArg Except.error (Except.error.inj he)⟩
    · exact absurd (sortable_of_map (fun i j => .numbers (.int i) (.int j)) hxs) hunsortable
    · exact absurd (sortable_of_map .strings hxs) hunsortable

/-- A table of integers and one string. -/
def twoKinds : Table := descending.setItem 3 (.ofText "x")

/-- A world with this table. -/
def twoKindsWorld : World .bare :=
  { World.bare with memory := (World.bare.memory.allocate twoKinds).2 }

/-- The integers are sorted; with the string among them they are not. -/
theorem sort_default_order_descending :
    (∃ w', (Behaviour.bare.builtin (.table .sort) [.table ⟨1⟩]).Runs .bare descendingWorld (.ok [])
        w' ∧ ∃ is : List Int64, (w'.memory.heap.table ⟨1⟩).values = is.map .int ∧
          is.Perm [2, 1] ∧ is.Pairwise (· ≤ ·)) ∧
      ∃ e, (Behaviour.bare.builtin (.table .sort) [.table ⟨1⟩]).Runs .bare twoKindsWorld
        (.error (.cause (.argument e))) twoKindsWorld := by
  have hmade : descending.Made := (Table.Made.empty.setItem 1 _).setItem 2 _
  have hvalues : twoKinds.values = [.nat 2, .nat 1, .ofText "x"] := by decide +kernel
  have hid : argument TableId [.table ⟨1⟩] 0 = .ok ⟨1⟩ := rfl
  have hints : descending.values = [2, 1].map Value.int := values_descending
  constructor
  · obtain ⟨r, w', hruns, hsorted, -, hascending, -⟩ :=
      sort_default_order .bare (w := descendingWorld) hid rfl hmade rfl
    have hsortable : Sortable descending :=
      sortable_of_map (fun i j => .numbers (.int i) (.int j)) hints
    obtain ⟨rfl, -⟩ := hsorted hsortable
    exact ⟨w', (hruns _ _).mpr ⟨rfl, rfl⟩, hascending [2, 1] hints⟩
  · obtain ⟨r, w', hruns, -, hfails, -⟩ :=
      sort_default_order .bare (t := twoKinds) (w := twoKindsWorld) hid rfl (hmade.setItem 3 _) rfl
    have hunsortable : ¬ Sortable twoKinds := by
      rw [Sortable, ← Table.length_values, hvalues]
      rintro (hle | hnumbers | hstrings)
      · exact absurd hle (by decide)
      · obtain ⟨n, hn⟩ := hnumbers (.ofText "x") (by decide)
        cases hn
      · obtain ⟨s, hs⟩ := hstrings (.nat 2) (by decide)
        cases hs
    obtain ⟨rfl, a, -, b, -, -, rfl⟩ := hfails hunsortable
    exact ⟨_, (hruns _ _).mpr ⟨rfl, rfl⟩⟩

end Library.Tables

end Lua
