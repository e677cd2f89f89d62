/-
What a pattern matches.

A layout gives every item of a pattern the number of bytes it covers.  It is laid over a
subject if every class covers bytes of its own, as many as its repetition allows, and the
end anchor stands behind the last byte.  Layouts are ordered by preference: the first item
on which two of them differ decides, and it prefers to cover more, or less if it is lazy.

* `Pattern.layouts` — all layouts, in the order of preference;
* `Pattern.Balanced`, `Pattern.Groups` — paired parentheses, and the spans between them;
* `Pattern.Balanced.exists_row` — the ways of the row that a pattern is written as are its
  layouts;
* `Pattern.emitItems_eq_ok`, `Pattern.exists_expression` — what is emitted is such a row;
* `Pattern.found_of_captures`, `Pattern.not_starts_of_captures` — what an engine finds;
* **`Pattern.findAt_spec`** — the search finds the leftmost, preferred match, and fails
  only if there is no layout anywhere.

Design notes: `Laid` knows nothing of offsets or captures, so both are read off a layout
afterwards.  All that is known of an engine is which match of an expression it gives; that the
matches of an expression are the layouts of a pattern is a fact about the text that is emitted.
-/
import Lua.Pattern.Walk
import Lua.Proofs.PatternClasses
import Mathlib.Algebra.GroupWithZero.Nat
import Mathlib.Data.List.Forall2
import Mathlib.Order.Bounds.Defs

namespace Lua

open Regex (Engine Expression Row)

/-! ### Captured strings -/

namespace Match

/-- The strings that a match captures, or the whole match where there are no captures. -/
def strings (m : Match) (s : Bytes) : List Bytes :=
  if m.captures.isEmpty then [m.whole s]
  else m.captures.map fun (start, stop) => Bytes.slice s start stop

theorem strings_ne_nil (m : Match) (s : Bytes) : m.strings s ≠ [] := by
  rw [strings]
  cases m.captures with
  | nil => exact List.cons_ne_nil _ _
  | cons a captures => exact List.cons_ne_nil _ _

/-- Where every group takes part, a match gives the strings that it captures. -/
theorem values_eq {m : Match} (h : m.groups = m.captures.map some) (s : Bytes) :
    m.values s = (m.strings s).map .string := by
  rw [values, h, strings]
  cases m.captures with
  | nil => rfl
  | cons a captures =>
    have hgroups : ¬ ((a :: captures).map some).isEmpty = true := Bool.false_ne_true
    have hcaptures : ¬ (a :: captures).isEmpty = true := Bool.false_ne_true
    rw [if_neg hgroups, if_neg hcaptures, List.map_map, List.map_map]
    rfl

end Match

/-! ### Counts -/

namespace Repetition

/-- Whether an item with the repetition may cover `n` bytes. -/
def Allows : Repetition → Nat → Prop
  | .once, n => n = 1
  | .optional, n => n ≤ 1
  | .many, _ => True
  | .some, n => 1 ≤ n
  | .lazy, _ => True

/-- Whether an item with the repetition would rather cover `m` bytes than `n`. -/
def Rather : Repetition → Nat → Nat → Prop
  | .lazy, m, n => m < n
  | _, m, n => n < m

theorem mem_counts_iff (r : Repetition) {run n : Nat} :
    n ∈ r.counts run ↔ r.Allows n ∧ n ≤ run := by
  cases r <;> simp only [counts, Allows]
  case once => split <;> simp <;> omega
  case optional => split <;> simp <;> omega
  case many => simp [Nat.lt_succ_iff]
  case some =>
    simp only [List.mem_reverse, List.mem_range'_1]
    omega
  case lazy => simp [Nat.lt_succ_iff]

/-- The counts come in the order of preference. -/
theorem pairwise_counts (r : Repetition) (run : Nat) : (r.counts run).Pairwise r.Rather := by
  cases r
  case once =>
    simp only [counts]
    split <;> simp
  case optional =>
    simp only [counts]
    split <;> simp [Rather]
  case many => exact List.pairwise_reverse.mpr List.pairwise_lt_range
  case some => exact List.pairwise_reverse.mpr (List.pairwise_lt_range' 1)
  case lazy => exact List.pairwise_lt_range

end Repetition

namespace Pattern

/-! ### Layouts -/

/-- The first `n` bytes are there, and all are accepted. -/
def Runs (accepts : UInt8 → Bool) (s : Bytes) (n : Nat) : Prop :=
  n ≤ s.length ∧ ∀ b ∈ s.take n, accepts b = true

/-- The counts an item may cover at the front of the bytes. -/
def Covers (r : Repetition) (accepts : UInt8 → Bool) (s : Bytes) (n : Nat) : Prop :=
  r.Allows n ∧ Runs accepts s n

/-- Items laid over the front of the bytes, each over as many as the list says. -/
inductive Laid : List PatternItem → Bytes → List Nat → Prop
  | nil (s : Bytes) : Laid [] s []
  | single {c : SingleClass} {r : Repetition} {items s n ns} (covers : Covers r c.accepts s n)
      (rest : Laid items (s.drop n) ns) : Laid (.single c r :: items) s (n :: ns)
  | openCapture {items s ns} (rest : Laid items s ns) : Laid (.openCapture :: items) s (0 :: ns)
  | closeCapture {items s ns} (rest : Laid items s ns) : Laid (.closeCapture :: items) s (0 :: ns)
  | atEnd {items ns} (rest : Laid items [] ns) : Laid (.atEnd :: items) [] (0 :: ns)

/-- A layout that is preferred to another, or the same: the first item they differ on decides. -/
def Prefers : List PatternItem → List Nat → List Nat → Prop
  | .single _ r :: items, m :: ms, n :: ns => r.Rather m n ∨ m = n ∧ Prefers items ms ns
  | _ :: items, _ :: ms, _ :: ns => Prefers items ms ns
  | _, _, _ => True

/-- The layout that is preferred to all others. -/
structure Best (items : List PatternItem) (s : Bytes) (ns : List Nat) : Prop where
  laid : Laid items s ns
  prefers : ∀ ns', Laid items s ns' → Prefers items ns ns'

theorem laid_single_iff {c : SingleClass} {r : Repetition} {items : List PatternItem} {s : Bytes}
    {ns : List Nat} : Laid (.single c r :: items) s ns ↔
      ∃ n ns', ns = n :: ns' ∧ Covers r c.accepts s n ∧ Laid items (s.drop n) ns' := by
  constructor
  · intro h
    cases h with
    | single covers rest => exact ⟨_, _, rfl, covers, rest⟩
  · rintro ⟨n, ns', rfl, covers, rest⟩
    exact .single covers rest

theorem laid_openCapture_iff {items : List PatternItem} {s : Bytes} {ns : List Nat} :
    Laid (.openCapture :: items) s ns ↔ ∃ ns', ns = 0 :: ns' ∧ Laid items s ns' := by
  constructor
  · intro h
    cases h with
    | openCapture rest => exact ⟨_, rfl, rest⟩
  · rintro ⟨ns', rfl, rest⟩
    exact .openCapture rest

theorem laid_closeCapture_iff {items : List PatternItem} {s : Bytes} {ns : List Nat} :
    Laid (.closeCapture :: items) s ns ↔ ∃ ns', ns = 0 :: ns' ∧ Laid items s ns' := by
  constructor
  · intro h
    cases h with
    | closeCapture rest => exact ⟨_, rfl, rest⟩
  · rintro ⟨ns', rfl, rest⟩
    exact .closeCapture rest

theorem laid_atEnd_iff {items : List PatternItem} {s : Bytes} {ns : List Nat} :
    Laid (.atEnd :: items) s ns ↔ s = [] ∧ ∃ ns', ns = 0 :: ns' ∧ Laid items s ns' := by
  constructor
  · intro h
    cases h with
    | atEnd rest => exact ⟨rfl, _, rfl, rest⟩
  · rintro ⟨rfl, ns', rfl, rest⟩
    exact .atEnd rest

/-! ### All layouts -/

variable {items : List PatternItem} {s : Bytes} {ns : List Nat} {offset : Nat}

/-- The bytes that are accepted at the front are those that can be covered. -/
theorem le_run_iff {accepts : UInt8 → Bool} {n : Nat} :
    n ≤ (s.takeWhile accepts).length ↔ Runs accepts s n := by
  induction s generalizing n with
  | nil =>
    rw [List.takeWhile_nil, Runs, List.take_nil]
    exact (and_iff_left fun _ h => absurd h List.not_mem_nil).symm
  | cons b s ih =>
    cases n with
    | zero =>
      exact iff_of_true (Nat.zero_le _) ⟨Nat.zero_le _, fun _ h => absurd h List.not_mem_nil⟩
    | succ n =>
      have hruns : Runs accepts (b :: s) (n + 1) ↔ accepts b = true ∧ Runs accepts s n := by
        simp only [Runs, List.take_succ_cons, List.forall_mem_cons, List.length_cons]
        exact ⟨fun ⟨hn, hb, hs⟩ => ⟨hb, by omega, hs⟩, fun ⟨hb, hn, hs⟩ => ⟨by omega, hb, hs⟩⟩
      rw [hruns, ← ih, List.takeWhile_cons]
      by_cases hb : accepts b = true
      · simp [hb]
      · simp [hb]

/-- The layouts over the front of the bytes, in the order of preference. -/
def layouts : List PatternItem → Bytes → List (List Nat)
  | [], _ => [[]]
  | .single c r :: items, s =>
    (r.counts (s.takeWhile c.accepts).length).flatMap fun n =>
      (layouts items (s.drop n)).map (n :: ·)
  | .openCapture :: items, s => (layouts items s).map (0 :: ·)
  | .closeCapture :: items, s => (layouts items s).map (0 :: ·)
  | .atEnd :: items, s => if s.isEmpty then (layouts items s).map (0 :: ·) else []
  | .unsupported _ :: _, _ => []

/-- A layout of items of which the first covers nothing. -/
theorem mem_map_zero_iff {i : PatternItem} (hrest : ∀ ns, ns ∈ layouts items s ↔ Laid items s ns)
    (hlaid : ∀ ns, Laid (i :: items) s ns ↔ ∃ ns', ns = 0 :: ns' ∧ Laid items s ns') :
    ns ∈ (layouts items s).map (0 :: ·) ↔ Laid (i :: items) s ns := by
  rw [hlaid, List.mem_map]
  constructor
  · rintro ⟨ns', hns', rfl⟩
    exact ⟨ns', rfl, (hrest ns').mp hns'⟩
  · rintro ⟨ns', rfl, hns'⟩
    exact ⟨ns', (hrest ns').mpr hns', rfl⟩

theorem mem_layouts_iff : ns ∈ layouts items s ↔ Laid items s ns := by
  induction items generalizing s ns with
  | nil =>
    rw [layouts, List.mem_singleton]
    constructor
    · rintro rfl
      exact .nil s
    · intro h
      cases h
      rfl
  | cons i items ih =>
    cases i with
    | single c r =>
      rw [layouts, List.mem_flatMap, laid_single_iff]
      simp only [Repetition.mem_counts_iff, le_run_iff, List.mem_map, ih]
      constructor
      · rintro ⟨n, hn, ns', hns', rfl⟩
        exact ⟨n, ns', rfl, hn, hns'⟩
      · rintro ⟨n, ns', rfl, hn, hns'⟩
        exact ⟨n, hn, ns', hns', rfl⟩
    | openCapture => exact mem_map_zero_iff (fun _ => ih) fun _ => laid_openCapture_iff
    | closeCapture => exact mem_map_zero_iff (fun _ => ih) fun _ => laid_closeCapture_iff
    | atEnd =>
      rw [layouts]
      split
      case isTrue hs =>
        rw [List.isEmpty_iff] at hs
        exact mem_map_zero_iff (fun _ => ih) fun _ => laid_atEnd_iff.trans (and_iff_right hs)
      case isFalse hs =>
        refine iff_of_false List.not_mem_nil fun h => hs ?_
        rw [(laid_atEnd_iff.mp h).1]
        rfl
    | unsupported feature => exact iff_of_false List.not_mem_nil nofun

theorem prefers_refl (items : List PatternItem) (ns : List Nat) : Prefers items ns ns := by
  induction items generalizing ns with
  | nil => cases ns <;> trivial
  | cons i items ih =>
    cases ns with
    | nil => cases i <;> trivial
    | cons n ns =>
      cases i with
      | single c r => exact .inr ⟨rfl, ih ns⟩
      | _ => exact ih ns

/-- A layout is preferred to those behind it. -/
theorem pairwise_layouts (items : List PatternItem) (s : Bytes) :
    (layouts items s).Pairwise (Prefers items) := by
  induction items generalizing s with
  | nil => exact List.pairwise_singleton _ _
  | cons i items ih =>
    cases i with
    | single c r =>
      refine List.pairwise_flatMap.mpr ⟨fun n _ => ?_, ?_⟩
      · exact List.pairwise_map.mpr ((ih _).imp fun h => .inr ⟨rfl, h⟩)
      · refine (r.pairwise_counts _).imp fun hrather ns hns ns' hns' => ?_
        obtain ⟨_, -, rfl⟩ := List.mem_map.mp hns
        obtain ⟨_, -, rfl⟩ := List.mem_map.mp hns'
        exact .inl hrather
    | openCapture => exact List.pairwise_map.mpr (ih s)
    | closeCapture => exact List.pairwise_map.mpr (ih s)
    | atEnd =>
      rw [layouts]
      split
      · exact List.pairwise_map.mpr (ih s)
      · exact .nil
    | unsupported feature => exact .nil

/-- The first layout is the best one. -/
theorem best_of_head? (h : (layouts items s).head? = some ns) : Best items s ns := by
  obtain ⟨rest, hrest⟩ := List.head?_eq_some_iff.mp h
  have hpairwise := pairwise_layouts items s
  rw [hrest, List.pairwise_cons] at hpairwise
  refine ⟨mem_layouts_iff.mp (List.mem_of_head? h), fun ns' hns' => ?_⟩
  rw [← mem_layouts_iff, hrest] at hns'
  rcases List.mem_cons.mp hns' with rfl | hns'
  · exact prefers_refl items ns'
  · exact hpairwise.1 ns' hns'

/-- Items in a row are laid one after the other. -/
theorem layouts_append (items items' : List PatternItem) (s : Bytes) :
    layouts (items ++ items') s = (layouts items s).flatMap fun ms =>
      (layouts items' (s.drop ms.sum)).map (ms ++ ·) := by
  induction items generalizing s with
  | nil => simp [layouts]
  | cons i items ih =>
    have hzero : ∀ s : Bytes, (layouts (items ++ items') s).map (0 :: ·) =
        ((layouts items s).map (0 :: ·)).flatMap fun ms =>
          (layouts items' (s.drop ms.sum)).map (ms ++ ·) := by
      intro s
      rw [ih, List.map_flatMap, List.flatMap_map]
      simp only [List.map_map, List.sum_cons, Nat.zero_add]
      rfl
    cases i with
    | single c r =>
      simp only [List.cons_append, layouts, ih, List.flatMap_assoc, List.map_flatMap,
        List.flatMap_map, List.map_map, List.sum_cons, List.drop_drop]
      rfl
    | openCapture => exact hzero s
    | closeCapture => exact hzero s
    | atEnd =>
      simp only [List.cons_append, layouts]
      split
      · exact hzero s
      · rfl
    | unsupported feature => rfl

/-! ### Parentheses -/

/-- Whether an item is written by itself: a class or the anchor of the end. -/
def isSimple : PatternItem → Bool
  | .single _ _ => true
  | .atEnd => true
  | _ => false

/-- Items whose parentheses pair. -/
inductive Balanced : List PatternItem → Prop
  | nil : Balanced []
  | item {i items} (hi : isSimple i = true) (rest : Balanced items) : Balanced (i :: items)
  | pair {inner items} (inside : Balanced inner) (rest : Balanced items) :
      Balanced (.openCapture :: (inner ++ .closeCapture :: items))

/-- The spans that a layout gives the pairs of parentheses: that of a pair first, then those
inside it, then those behind it. -/
inductive Groups : List PatternItem → List Nat → Nat → List Span → Prop
  | nil (offset : Nat) : Groups [] [] offset []
  | item {i items n ns offset spans} (hi : isSimple i = true)
      (rest : Groups items ns (offset + n) spans) : Groups (i :: items) (n :: ns) offset spans
  | pair {inner items ms ns offset spans spans'} (inside : Groups inner ms offset spans)
      (rest : Groups items ns (offset + ms.sum) spans') :
      Groups (.openCapture :: (inner ++ .closeCapture :: items)) (0 :: (ms ++ 0 :: ns)) offset
        ((offset, offset + ms.sum) :: (spans ++ spans'))

/-- Items that close `depth` parentheses opened before them and whose own parentheses pair. -/
def Closes : Nat → List PatternItem → Prop
  | 0, items => Balanced items
  | depth + 1, items => ∃ inner rest, items = inner ++ .closeCapture :: rest ∧ Balanced inner ∧
      Closes depth rest

theorem Closes.item {i : PatternItem} (hi : isSimple i = true) {depth : Nat}
    {items : List PatternItem} (h : Closes depth items) : Closes depth (i :: items) := by
  cases depth with
  | zero => exact Balanced.item hi h
  | succ depth =>
    obtain ⟨inner, rest, rfl, hinner, hrest⟩ := h
    exact ⟨i :: inner, rest, rfl, .item hi hinner, hrest⟩

theorem Closes.openCapture {depth : Nat} {items : List PatternItem} (h : Closes (depth + 1) items) :
    Closes depth (.openCapture :: items) := by
  obtain ⟨inner, rest, rfl, hinner, hrest⟩ := h
  cases depth with
  | zero => exact Balanced.pair hinner hrest
  | succ depth =>
    obtain ⟨inner', rest', rfl, hinner', hrest'⟩ := hrest
    exact ⟨.openCapture :: (inner ++ .closeCapture :: inner'), rest', by simp,
      .pair hinner hinner', hrest'⟩

/-! ### The expression of a pattern -/

/-- What an item is written as. -/
def itemText : PatternItem → List Char
  | .single c r => c.text ++ r.text
  | .openCapture => ['(']
  | .closeCapture => [')']
  | .atEnd => ['$']
  | .unsupported _ => []

/-- In the items that get through parentheses pair, and they are written one after the other. -/
theorem emitItems_eq_ok {depth : Nat} {written text : List Char}
    (h : emitItems items depth written = .ok text) :
    Closes depth items ∧ text = written.reverse ++ items.flatMap itemText := by
  induction items generalizing depth written with
  | nil =>
    cases depth with
    | zero =>
      cases h
      exact ⟨Balanced.nil, (List.append_nil _).symm⟩
    | succ depth => cases h
  | cons i items ih =>
    cases i with
    | single c r =>
      have hrest : emitItems items depth ((c.text ++ r.text).reverseAux written) = .ok text := by
        cases depth <;> exact h
      obtain ⟨hcloses, rfl⟩ := ih hrest
      refine ⟨hcloses.item rfl, ?_⟩
      rw [List.reverseAux_eq, List.reverse_append, List.reverse_reverse, List.flatMap_cons,
        List.append_assoc]
      rfl
    | openCapture =>
      have hrest : emitItems items (depth + 1) ('(' :: written) = .ok text := by
        cases depth <;> exact h
      obtain ⟨hcloses, rfl⟩ := ih hrest
      exact ⟨hcloses.openCapture, by simp [itemText]⟩
    | closeCapture =>
      cases depth with
      | zero => cases h
      | succ depth =>
        -- it closes the parenthesis opened last, with nothing inside so far
        have hrest : emitItems items depth (')' :: written) = .ok text := h
        obtain ⟨hcloses, rfl⟩ := ih hrest
        exact ⟨⟨[], items, rfl, .nil, hcloses⟩, by simp [itemText]⟩
    | atEnd =>
      have hrest : emitItems items depth ('$' :: written) = .ok text := by
        cases depth <;> exact h
      obtain ⟨hcloses, rfl⟩ := ih hrest
      exact ⟨hcloses.item rfl, by simp [itemText]⟩
    | unsupported feature => cases depth <;> cases h

/-- A way of a row is a layout of items: it ends behind it, and its groups are the spans of the
parentheses. -/
def IsWay (items : List PatternItem) (offset : Nat) (way : Nat × List (Option Span))
    (ns : List Nat) : Prop :=
  way.1 = offset + ns.sum ∧ ∃ spans, Groups items ns offset spans ∧ way.2 = spans.map some

/-- Lists of ways and of layouts, in step. -/
def InStep (items : List PatternItem) (row : Row) : Prop :=
  ∀ s offset, List.Forall₂ (IsWay items offset) (row.ways s offset) (layouts items s)

/-- A class in front. -/
theorem InStep.single {row : Row} (h : InStep items row) {c : SingleClass} {k : Regex.Class}
    (hk : k.accepts = c.accepts) (r : Repetition) :
    InStep (.single c r :: items) (.single k r row) := by
  intro s offset
  rw [Row.ways, layouts, hk]
  refine List.rel_flatMap (List.forall₂_same.mpr fun _ _ => rfl) ?_
  rintro n _ rfl
  refine List.forall₂_map_right_iff.mpr ((h _ _).imp fun way ns hway => ?_)
  obtain ⟨hstop, spans, hgroups, hspans⟩ := hway
  exact ⟨by rw [hstop, List.sum_cons, Nat.add_assoc], spans, .item rfl hgroups, hspans⟩

/-- An anchor in front. -/
theorem InStep.atEnd {row : Row} (h : InStep items row) :
    InStep (.atEnd :: items) (.atEnd row) := by
  intro s offset
  rw [Row.ways, layouts]
  split
  · refine List.forall₂_map_right_iff.mpr ((h _ _).imp fun way ns hway => ?_)
    obtain ⟨hstop, spans, hgroups, hspans⟩ := hway
    exact ⟨by rw [hstop, List.sum_cons, Nat.zero_add], spans, .item rfl hgroups, hspans⟩
  · exact .nil

/-- A pair of parentheses in front. -/
theorem InStep.pair {inner : List PatternItem} {row row' : Row} (hinner : InStep inner row)
    (hrest : InStep items row') :
    InStep (.openCapture :: (inner ++ .closeCapture :: items)) (.group row row') := by
  intro s offset
  rw [Row.ways, layouts, layouts_append, List.map_flatMap]
  refine List.rel_flatMap (hinner s offset) fun way ms hway => ?_
  obtain ⟨stop, groups⟩ := way
  obtain ⟨rfl, spans, hgroups, rfl⟩ := hway
  dsimp only
  rw [Nat.add_sub_cancel_left, layouts, List.map_map, List.map_map]
  refine List.forall₂_map_left_iff.mpr (List.forall₂_map_right_iff.mpr ?_)
  refine (hrest _ _).imp fun way' ns hway' => ?_
  obtain ⟨last, groups'⟩ := way'
  obtain ⟨rfl, spans', hgroups', rfl⟩ := hway'
  refine ⟨?_, _, .pair hgroups hgroups', ?_⟩
  · simp only [Function.comp_apply, List.sum_cons, List.sum_append, Nat.zero_add, Nat.add_assoc]
  · rw [List.map_cons, List.map_append]

/-- **Every pattern whose parentheses pair** is written as a row, and the ways of the row are the
layouts of the pattern. -/
theorem Balanced.exists_row (h : Balanced items) :
    ∃ row : Row, row.text = items.flatMap itemText ∧ InStep items row := by
  induction h with
  | nil => exact ⟨.done, rfl, fun _ _ => .cons ⟨rfl, [], .nil _, rfl⟩ .nil⟩
  | @item i items hi _ ih =>
    obtain ⟨row, htext, hrow⟩ := ih
    cases i with
    | single c r =>
      obtain ⟨k, hk, haccepts⟩ := c.exists_class
      refine ⟨.single k r row, ?_, hrow.single haccepts r⟩
      rw [Row.text, hk, htext]
      rfl
    | atEnd => exact ⟨.atEnd row, congrArg (List.cons '$') htext, hrow.atEnd⟩
    | openCapture => cases hi
    | closeCapture => cases hi
    | unsupported feature => cases hi
  | @pair inner items _ _ ihInner ihRest =>
    obtain ⟨row, htext, hrow⟩ := ihInner
    obtain ⟨row', htext', hrow'⟩ := ihRest
    refine ⟨.group row row', ?_, hrow.pair hrow'⟩
    rw [Row.text, htext, htext', List.flatMap_cons, List.flatMap_append, List.flatMap_cons]
    rfl

/-- What is emitted for a pattern is the text of an expression with its layouts. -/
theorem exists_expression {p : Pattern} {text : List Char} (h : p.emit = .ok text) :
    ∃ row, text = (Expression.mk p.anchored row).text ∧ InStep p.items row := by
  obtain ⟨hbalanced, rfl⟩ := emitItems_eq_ok h
  obtain ⟨row, htext, hrow⟩ := Balanced.exists_row hbalanced
  refine ⟨row, ?_, hrow⟩
  rw [Expression.text, htext, List.reverse_append, List.reverse_reverse]
  cases p.anchored <;> rfl

/-- The text that an engine has accepted is what is emitted for a pattern. -/
theorem compile_eq_ok {engine : Engine} {source : Bytes} {x : Regex}
    (h : engine.compile source = .ok x) : ∃ p, read source = .ok p ∧ p.emit = .ok x.text ∧
      engine.refusal? x.text = none := by
  rw [Engine.compile_eq] at h
  cases hp : read source with
  | error e =>
    rw [hp] at h
    cases h
  | ok p =>
    cases htext : p.emit with
    | error e =>
      simp only [hp, Except.bind, htext] at h
      cases h
    | ok text =>
      simp only [hp, Except.bind, htext] at h
      split at h
      · cases h
      · cases h
        exact ⟨p, rfl, htext, ‹_›⟩

/-- An engine that accepts short expressions does not refuse a pattern whose expression is short. -/
theorem refusal?_eq_none {engine : Engine} (hshort : engine.AcceptsShort) {p : Pattern}
    {text : List Char} (hemit : p.emit = .ok text) (h : text.length ≤ Engine.shortLength) :
    engine.refusal? text = none := by
  obtain ⟨row, rfl, -⟩ := exists_expression hemit
  exact hshort _ h

/-! ### Spans -/

section

variable {spans : List Span}

/-- There is a span for every opening parenthesis. -/
theorem Groups.length_eq (h : Groups items ns offset spans) :
    spans.length = items.count .openCapture := by
  induction h with
  | nil => rfl
  | @item i _ _ _ _ _ hi _ ih =>
    have hne : (i == .openCapture) = false := by cases i <;> first | rfl | cases hi
    rw [List.count_cons, hne, ih]
    rfl
  | pair _ _ ihInner ihRest =>
    have hne : PatternItem.closeCapture ≠ .openCapture := nofun
    rw [List.count_cons_self, List.count_append, List.count_cons_of_ne hne, List.length_cons,
      List.length_append, ihInner, ihRest]

/-- A span lies inside the match. -/
theorem Groups.within (h : Groups items ns offset spans) :
    ∀ a ∈ spans, offset ≤ a.1 ∧ a.1 ≤ a.2 ∧ a.2 ≤ offset + ns.sum := by
  induction h with
  | nil => exact fun a ha => absurd ha List.not_mem_nil
  | item _ _ ih =>
    intro a ha
    have := ih a ha
    rw [List.sum_cons]
    omega
  | pair _ _ ihInner ihRest =>
    intro a ha
    simp only [List.sum_cons, List.sum_append]
    rcases List.mem_cons.mp ha with rfl | ha
    · dsimp only
      omega
    · rcases List.mem_append.mp ha with ha | ha
      · have := ihInner a ha
        omega
      · have := ihRest a ha
        omega

/-- Of two spans, the one opened first holds the other or ends before it. -/
def Nested (a b : Span) : Prop := a.1 ≤ b.1 ∧ (b.2 ≤ a.2 ∨ a.2 ≤ b.1)

theorem Groups.nested (h : Groups items ns offset spans) : spans.Pairwise Nested := by
  induction h with
  | nil => exact .nil
  | item _ _ ih => exact ih
  | pair hinner hrest ihInner ihRest =>
    refine .cons (fun b hb => ?_) (List.pairwise_append.mpr ⟨ihInner, ihRest, fun a ha b hb => ?_⟩)
    · rcases List.mem_append.mp hb with hb | hb
      · exact ⟨(hinner.within b hb).1, Or.inl (hinner.within b hb).2.2⟩
      · exact ⟨Nat.le_trans (Nat.le_add_right _ _) (hrest.within b hb).1,
          Or.inr (hrest.within b hb).1⟩
    · have ha' := hinner.within a ha
      have hb' := hrest.within b hb
      exact ⟨by omega, Or.inr (by omega)⟩

/-- Spans that stand further on. -/
theorem Groups.shift (h : Groups items ns offset spans) (d : Nat) :
    Groups items ns (d + offset) (spans.map (shiftSpan d)) := by
  induction h with
  | nil => exact .nil _
  | item hi _ ih => exact .item hi (by rwa [Nat.add_assoc])
  | @pair inner items ms ns offset spans spans' _ _ ihInner ihRest =>
    rw [List.map_cons, List.map_append, shiftSpan, ← Nat.add_assoc]
    exact .pair ihInner (by rwa [Nat.add_assoc])

end

/-! ### Finding a match -/

/-- A place from which the items of a pattern can be laid, in a search from an offset. -/
structure Starts (p : Pattern) (s : Bytes) (offset start : Nat) : Prop where
  after : offset ≤ start
  inside : start ≤ s.length
  anchored : p.anchored = true → start = offset
  laid : ∃ ns, Laid p.items (s.drop start) ns

/-- The leftmost, preferred match. -/
structure Found (p : Pattern) (s : Bytes) (offset : Nat) (m : Match) : Prop where
  /-- It starts where a match can start, and no match starts before it. -/
  leftmost : IsLeast {start | Starts p s offset start} m.start
  /-- It follows the best layout from there, and its captures are the spans of the pairs of
  parentheses. -/
  layout : ∃ ns, Best p.items (s.drop m.start) ns ∧ m.stop = m.start + ns.sum ∧
    Groups p.items ns m.start m.captures
  /-- Every group takes part, and there is one for every opening parenthesis. -/
  present : m.groups = m.captures.map some ∧ m.captures.length = p.items.count .openCapture
  /-- The captures lie inside the match and are nested. -/
  within : ∀ a ∈ m.captures, m.start ≤ a.1 ∧ a.1 ≤ a.2 ∧ a.2 ≤ m.stop
  nested : m.captures.Pairwise Nested

/-- A search from an offset on is one in the rest of the subject. -/
theorem starts_drop_iff {p : Pattern} (h : offset ≤ s.length) (k : Nat) :
    Starts p (s.drop offset) 0 k ↔ Starts p s offset (offset + k) := by
  constructor
  · rintro ⟨-, hinside, hanchored, hlaid⟩
    rw [List.length_drop] at hinside
    rw [List.drop_drop] at hlaid
    exact ⟨Nat.le_add_right _ _, by omega, fun ha => by rw [hanchored ha]; rfl, hlaid⟩
  · rintro ⟨-, hinside, hanchored, hlaid⟩
    refine ⟨Nat.zero_le _, by rw [List.length_drop]; omega, fun ha => ?_, by rwa [List.drop_drop]⟩
    have := hanchored ha
    omega

theorem Starts.exists_add {p : Pattern} {start : Nat} (h : Starts p s offset start) :
    ∃ k, start = offset + k ∧ Starts p (s.drop offset) 0 k := by
  have hle := Nat.le_trans h.after h.inside
  obtain ⟨k, rfl⟩ := Nat.exists_eq_add_of_le h.after
  exact ⟨k, rfl, (starts_drop_iff hle k).mpr h⟩

theorem captures_eq_of_groups {m : Match} {spans : List Span} (h : m.groups = spans.map some) :
    m.captures = spans := by
  rw [Match.captures, h, List.filterMap_map]
  exact List.filterMap_some

theorem Found.shift {p : Pattern} {m : Match} (hle : offset ≤ s.length)
    (h : Found p (s.drop offset) 0 m) : Found p s offset (m.shift offset) := by
  obtain ⟨⟨hstarts, hleast⟩, ⟨ns, hbest, hstop, hgroups⟩, ⟨hpresent, hcount⟩, hwithin, hnested⟩ := h
  have hshifted : (m.shift offset).groups = (m.captures.map (shiftSpan offset)).map some := by
    show m.groups.map _ = _
    rw [hpresent, List.map_map, List.map_map]
    rfl
  have hcaptures := captures_eq_of_groups hshifted
  have hspans := hgroups.shift offset
  have hstop' : (m.shift offset).stop = offset + m.start + ns.sum := by
    show offset + m.stop = _
    rw [hstop, Nat.add_assoc]
  rw [List.drop_drop] at hbest
  refine ⟨⟨(starts_drop_iff hle _).mp hstarts, fun start hstart => ?_⟩,
    ⟨ns, hbest, hstop', hcaptures ▸ hspans⟩, ⟨by rw [hcaptures, hshifted], ?_⟩, ?_, ?_⟩
  · obtain ⟨k, rfl, hk⟩ := hstart.exists_add
    exact Nat.add_le_add_left (hleast hk) offset
  · rw [hcaptures, List.length_map, hcount]
  · rw [hcaptures, hstop']
    exact hspans.within
  · rw [hcaptures]
    exact hspans.nested

section

variable {p : Pattern} {row : Row}

/-- The places where a search may look, from the first on. -/
def startsOf (anchored : Bool) (s : Bytes) : List Nat :=
  if anchored then [0] else List.range (s.length + 1)

theorem mem_startsOf {anchored : Bool} {start : Nat} :
    start ∈ startsOf anchored s ↔ start ≤ s.length ∧ (anchored = true → start = 0) := by
  rw [startsOf]
  cases anchored with
  | true => simp +contextual
  | false => simp [Nat.lt_succ_iff]

theorem pairwise_startsOf (anchored : Bool) (s : Bytes) :
    (startsOf anchored s).Pairwise (· < ·) := by
  rw [startsOf]
  split
  · exact List.pairwise_singleton _ _
  · exact List.pairwise_lt_range

theorem starts_iff_mem {start : Nat} : Starts p s 0 start ↔
    start ∈ startsOf p.anchored s ∧ layouts p.items (s.drop start) ≠ [] := by
  rw [mem_startsOf]
  constructor
  · rintro ⟨-, hinside, hanchored, ns, hlaid⟩
    exact ⟨⟨hinside, hanchored⟩, List.ne_nil_of_mem (mem_layouts_iff.mpr hlaid)⟩
  · rintro ⟨⟨hinside, hanchored⟩, hne⟩
    obtain ⟨ns, hns⟩ := List.exists_mem_of_ne_nil _ hne
    exact ⟨Nat.zero_le _, hinside, hanchored, ns, mem_layouts_iff.mp hns⟩

/-- The preferred match of an expression is the first one at the first place with a way. -/
theorem head?_allMatches (anchored : Bool) (row : Row) (s : Bytes) :
    ((Expression.mk anchored row).allMatches s).head? =
      (startsOf anchored s).findSome? fun start =>
        (row.ways (s.drop start) start).head?.map fun way => ⟨start, way.1, way.2⟩ := by
  rw [Expression.allMatches, List.head?_flatMap]
  congr 1
  funext start
  exact List.head?_map

/-- What the first match of an expression is for its pattern. -/
theorem found_of_head? (hrow : InStep p.items row) {m : Match}
    (h : ((Expression.mk p.anchored row).allMatches s).head? = some m) : Found p s 0 m := by
  rw [head?_allMatches] at h
  obtain ⟨before, start, behind, hstarts, hway, hnone⟩ := List.findSome?_eq_some_iff.mp h
  obtain ⟨way, hhead, rfl⟩ := Option.map_eq_some_iff.mp hway
  have hpairwise := pairwise_startsOf p.anchored s
  rw [hstarts, List.pairwise_append] at hpairwise
  -- the first way at this place is the best layout from there
  obtain ⟨ways, hways⟩ := List.head?_eq_some_iff.mp hhead
  have hstep := hrow (s.drop start) start
  rw [hways] at hstep
  obtain ⟨ns, rest, ⟨hstop, spans, hgroups, hspans⟩, -, hlayouts⟩ :=
    List.forall₂_cons_left_iff.mp hstep
  have hbest : Best p.items (s.drop start) ns := best_of_head? (by rw [hlayouts]; rfl)
  have hmem : start ∈ startsOf p.anchored s := by
    rw [hstarts]
    exact List.mem_append_right _ (List.mem_cons_self ..)
  have hcaptures : (Match.mk start way.1 way.2).captures = spans := captures_eq_of_groups hspans
  refine ⟨⟨starts_iff_mem.mpr ⟨hmem, ?_⟩, fun start' hstart' => ?_⟩,
    ⟨ns, hbest, hstop, hcaptures ▸ hgroups⟩, ⟨by rw [hcaptures]; exact hspans, ?_⟩, ?_, ?_⟩
  · rw [hlayouts]
    exact List.cons_ne_nil _ _
  · -- there is no way at the places before it
    obtain ⟨hmem', hne⟩ := starts_iff_mem.mp hstart'
    rw [hstarts] at hmem'
    rcases List.mem_append.mp hmem' with hbefore | hbehind
    · have hhead' := Option.map_eq_none_iff.mp (hnone start' hbefore)
      have hstep' := hrow (s.drop start') start'
      rw [List.head?_eq_none_iff.mp hhead'] at hstep'
      exact absurd (List.forall₂_nil_left_iff.mp hstep') hne
    · rcases List.mem_cons.mp hbehind with rfl | hbehind
      · exact Nat.le_refl _
      · exact Nat.le_of_lt ((List.pairwise_cons.mp hpairwise.2.1).1 start' hbehind)
  · rw [hcaptures]
    exact hgroups.length_eq
  · rw [hcaptures]
    show ∀ a ∈ spans, start ≤ a.1 ∧ a.1 ≤ a.2 ∧ a.2 ≤ way.1
    rw [hstop]
    exact hgroups.within
  · rw [hcaptures]
    exact hgroups.nested

theorem not_starts_of_head? (hrow : InStep p.items row)
    (h : ((Expression.mk p.anchored row).allMatches s).head? = none) (start : Nat) :
    ¬ Starts p s 0 start := by
  intro hstart
  obtain ⟨hmem, hne⟩ := starts_iff_mem.mp hstart
  rw [head?_allMatches, List.findSome?_eq_none_iff] at h
  have hhead := Option.map_eq_none_iff.mp (h start hmem)
  have hstep := hrow (s.drop start) start
  rw [List.head?_eq_none_iff.mp hhead] at hstep
  exact hne (List.forall₂_nil_left_iff.mp hstep)

end

/-! ### Engines -/

section

variable {engine : Engine} {x : Regex} {p : Pattern}

/-- An engine that gives the leftmost and preferred match, and an expression that it has accepted
for a pattern. -/
structure Accepted (engine : Engine) (p : Pattern) (x : Regex) : Prop where
  leftmost : engine.LeftmostFirst
  emitted : p.emit = .ok x.text
  accepted : engine.refusal? x.text = none

theorem exists_accepted (hfirst : engine.LeftmostFirst) {source : Bytes}
    (h : engine.compile source = .ok x) : ∃ p, read source = .ok p ∧ Accepted engine p x := by
  obtain ⟨p, hread, hemit, hrefusal⟩ := compile_eq_ok h
  exact ⟨p, hread, hfirst, hemit, hrefusal⟩

/-- What the engine is asked for is the first match of an expression with the layouts of the
pattern. -/
theorem Accepted.exists_row (h : Accepted engine p x) : ∃ row, InStep p.items row ∧
    ∀ s, engine.captures x.text s = ((Expression.mk p.anchored row).allMatches s).head? := by
  obtain ⟨row, htext, hrow⟩ := exists_expression h.emitted
  refine ⟨row, hrow, fun s => ?_⟩
  rw [htext]
  exact h.leftmost _ s (htext ▸ h.accepted)

/-- What the search finds is the leftmost, preferred match. -/
theorem Accepted.found (h : Accepted engine p x) {m : Match}
    (hm : engine.findAt x s offset = some m) : Found p s offset m := by
  obtain ⟨row, hrow, hcaptures⟩ := h.exists_row
  rw [Engine.findAt] at hm
  split at hm
  · cases hm
  · rename_i hin
    obtain ⟨m', hm', rfl⟩ := Option.map_eq_some_iff.mp hm
    rw [hcaptures] at hm'
    exact (found_of_head? hrow hm').shift (Nat.le_of_not_lt hin)

/-- The search fails only if no match can start anywhere. -/
theorem Accepted.not_starts (h : Accepted engine p x) (hm : engine.findAt x s offset = none)
    (start : Nat) : ¬ Starts p s offset start := by
  intro hstart
  obtain ⟨row, hrow, hcaptures⟩ := h.exists_row
  have hin := Nat.le_trans hstart.after hstart.inside
  rw [Engine.findAt, if_neg (Nat.not_lt_of_le hin), Option.map_eq_none_iff, hcaptures] at hm
  obtain ⟨k, rfl, hk⟩ := hstart.exists_add
  exact not_starts_of_head? hrow hm k hk

end

/-- **Finding is leftmost and preferred.**  Let an engine give the leftmost and preferred match of
each expression, and let it accept what is emitted for a pattern.  Then a search finds a match
if and only if the items of the pattern can be laid somewhere from the offset on, and it finds the
match with the least start, the preferred layout, and the spans of its parentheses. -/
theorem findAt_spec {engine : Engine} (hfirst : engine.LeftmostFirst) {source : Bytes} {x : Regex}
    (h : engine.compile source = .ok x) (s : Bytes) (offset : Nat) :
    ∃ p, read source = .ok p ∧
      ((engine.findAt x s offset).isSome = true ↔ ∃ start, Starts p s offset start) ∧
      ∀ m, engine.findAt x s offset = some m → Found p s offset m := by
  obtain ⟨p, hread, haccepted⟩ := exists_accepted hfirst h
  refine ⟨p, hread, ⟨fun hsome => ?_, ?_⟩, fun m => haccepted.found⟩
  · obtain ⟨m, hm⟩ := Option.isSome_iff_exists.mp hsome
    exact ⟨m.start, (haccepted.found hm).leftmost.1⟩
  · rintro ⟨start, hstart⟩
    cases ho : engine.findAt x s offset with
    | none => exact absurd hstart (haccepted.not_starts ho start)
    | some m => rfl

/-- The pattern `(%a+)=(%d-)$`. -/
def keyValue : Pattern where
  anchored := false
  items := [.openCapture, .single (.atom (.named .letter false)) .some, .closeCapture,
    .single (.atom (.byte 61)) .once, .openCapture,
    .single (.atom (.named .digit false)) .lazy, .closeCapture, .atEnd]

/-- A key and its value: the end anchor makes the lazy item cover both digits. -/
theorem findAt_spec_keyValue :
    Engine.backtracking.compile (Bytes.ofString "(%a+)=(%d-)$") =
      .ok ⟨"(?s-u)([\\x41-\\x5A\\x61-\\x7A]+)\\x3D([\\x30-\\x39]*?)$".toList⟩ ∧
    Found keyValue (Bytes.ofString " key=42") 0 ⟨1, 7, [some (1, 4), some (5, 7)]⟩ := by
  have hcompile : Engine.backtracking.compile (Bytes.ofString "(%a+)=(%d-)$") =
      .ok ⟨"(?s-u)([\\x41-\\x5A\\x61-\\x7A]+)\\x3D([\\x30-\\x39]*?)$".toList⟩ := by
    decide +kernel
  have hread : read (Bytes.ofString "(%a+)=(%d-)$") = .ok keyValue := by decide +kernel
  refine ⟨hcompile, ?_⟩
  obtain ⟨p, hp, -, hfound⟩ := findAt_spec Engine.leftmostFirst_backtracking hcompile
    (Bytes.ofString " key=42") 0
  obtain rfl := Except.ok.inj (hread.symm.trans hp)
  exact hfound _ (by decide +kernel)

end Pattern

end Lua
