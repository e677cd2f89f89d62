/-
Joining items.

`concat` goes through the items of a range, each a string or a number, and joins their texts.  It
stops at the first item that is neither, and the range may be one of all integers:

* `HasText` — the text of a string or of a number;
* `Joined` — the texts of the items of a range, with a separator between them;
* `Textless` — a position in the range where there is no text;
* `texts`, `joinFrom_eq` — the loop writes the texts of the items with the separator between them;
* `forall₂_of_texts`, `isLeast_of_texts` — which texts these are, and where the loop stops;
* `Joined.append` — joining a range in two parts;
* `concat_joins` — the runs of `concat`.
-/
import Lua.Proofs.Packing

namespace Lua

variable {H : Host} {B : Behaviour H} {w : World H}

namespace Library.Tables

variable {t : Table} {v : Value} {s s' separator : Bytes} {ss : List Bytes} {vs vs' : List Value}
  {i k start stop : Int} {n : Nat} {e : ArgumentError}

/-! ### Texts -/

/-- The text of a string or of a number. -/
inductive HasText : Value → Bytes → Prop
  | string (s : Bytes) : HasText (.string s) s
  | number (n : Number) : HasText (.number n) n.bytes

theorem toBytes?_eq_some_iff : v.toBytes? = some s ↔ HasText v s := by
  constructor
  · intro h
    cases v with
    | string s' =>
      cases h
      exact .string s
    | number n =>
      cases h
      exact .number n
    | _ => cases h
  · rintro (_ | _) <;> rfl

theorem toBytes?_eq_none_iff : v.toBytes? = none ↔ ∀ s, ¬ HasText v s := by
  simp only [← toBytes?_eq_some_iff]
  exact Option.eq_none_iff_forall_ne_some

theorem HasText.unique (h : HasText v s) (h' : HasText v s') : s = s' :=
  Option.some.inj ((toBytes?_eq_some_iff.mpr h).symm.trans (toBytes?_eq_some_iff.mpr h'))

/-! ### Ranges of items -/

/-- The items of a range are those of its two parts. -/
theorem RangeItems.append (h : RangeItems t start k vs) (h' : RangeItems t (k + 1) stop vs')
    (hstart : start ≤ k) (hstop : k < stop) : RangeItems t start stop (vs ++ vs') where
  length_eq := by
    have hlength := h.length_eq
    have hlength' := h'.length_eq
    rw [List.length_append]
    omega
  items j hj := by
    have hlength := h.length_eq
    rw [List.getElem_append]
    split
    case isTrue hlt => exact h.items j hlt
    case isFalse hge =>
      rw [← h'.items, show (k + 1 + (j - vs.length : Nat) : Int) = start + j by omega]

/-- The texts of the items of a range, with a separator between each two. -/
def Joined (t : Table) (separator : Bytes) (start stop : Int) (s : Bytes) : Prop :=
  ∃ vs ss, RangeItems t start stop vs ∧ List.Forall₂ HasText vs ss ∧ s = separator.intercalate ss

theorem Joined.unique (h : Joined t separator start stop s)
    (h' : Joined t separator start stop s') : s = s' := by
  obtain ⟨vs, ss, hvs, hss, rfl⟩ := h
  obtain ⟨vs', ss', hvs', hss', rfl⟩ := h'
  obtain rfl := hvs.unique hvs'
  rw [List.right_unique_forall₂' (R := HasText) (fun _ _ _ => HasText.unique) hss hss']

theorem intercalate_append {ss' : List Bytes} (hss : ss ≠ []) (hss' : ss' ≠ []) :
    separator.intercalate (ss ++ ss') =
      separator.intercalate ss ++ separator ++ separator.intercalate ss' := by
  induction ss with
  | nil => exact absurd rfl hss
  | cons s ss ih =>
    cases ss with
    | nil => rw [List.singleton_append, List.intercalate_cons_of_ne_nil hss',
        List.intercalate_singleton]
    | cons s' ss =>
      have hne : s' :: ss ++ ss' ≠ [] := List.append_ne_nil_of_right_ne_nil _ hss'
      rw [List.cons_append, List.intercalate_cons_of_ne_nil hne, ih (List.cons_ne_nil _ _),
        List.intercalate_cons_cons]
      simp only [List.append_assoc]

/-- The texts of a range are those of its two parts. -/
theorem Joined.append (h : Joined t separator start k s) (h' : Joined t separator (k + 1) stop s')
    (hstart : start ≤ k) (hstop : k < stop) :
    Joined t separator start stop (s ++ separator ++ s') := by
  obtain ⟨vs, ss, hvs, hss, rfl⟩ := h
  obtain ⟨vs', ss', hvs', hss', rfl⟩ := h'
  refine ⟨vs ++ vs', ss ++ ss', hvs.append hvs' hstart hstop, List.rel_append hss hss', ?_⟩
  have hlength := hss.length_eq.symm.trans hvs.length_eq
  have hlength' := hss'.length_eq.symm.trans hvs'.length_eq
  refine (intercalate_append ?_ ?_).symm
  · exact List.ne_nil_of_length_pos (by omega)
  · exact List.ne_nil_of_length_pos (by omega)

/-! ### The loop -/

/-- The position is in the range, and its item is neither a string nor a number. -/
def Textless (t : Table) (start stop i : Int) : Prop :=
  start ≤ i ∧ i ≤ stop ∧ ∀ s, ¬ HasText (t.item (key i)) s

/-- The error for a position without a text. -/
def textError (t : Table) (i : Int) : ArgumentError :=
  .invalidContent "string" (t.item (key i)).typeName (.int (key i))

/-- The texts of `n` items from a position on, up to the first item without one. -/
def texts (t : Table) : Nat → Int → Except ArgumentError (List Bytes)
  | 0, _ => .ok []
  | n + 1, i =>
    match (t.item (key i)).toBytes? with
    | none => .error (textError t i)
    | some s => (texts t n (i + 1)).map (s :: ·)

theorem items_succ (t : Table) (n : Nat) (i : Int) :
    items t (n + 1) i = t.item (key i) :: items t n (i + 1) := by
  rw [items, List.range_succ_eq_map, List.map_cons, List.map_map, items, Nat.cast_zero,
    Int.add_zero]
  refine congrArg _ (List.map_congr_left fun k _ => ?_)
  rw [Function.comp_apply, Nat.succ_eq_add_one, Nat.cast_succ, Int.add_assoc, Int.add_comm 1]

theorem texts_succ_of_hasText (h : HasText (t.item (key i)) s) :
    texts t (n + 1) i = (texts t n (i + 1)).map (s :: ·) := by
  rw [texts, toBytes?_eq_some_iff.mpr h]

theorem texts_succ_of_not (h : ∀ s, ¬ HasText (t.item (key i)) s) :
    texts t (n + 1) i = .error (textError t i) := by
  rw [texts, toBytes?_eq_none_iff.mpr h]

theorem key_toInt (i : Int64) : key i.toInt = i := Int64.ofInt_toInt i

/-- The texts from an index on that is not behind the end. -/
theorem texts_of_le {i stop : Int64} (h : i ≤ stop) :
    texts t (stop.toInt - i.toInt + 1).toNat i.toInt =
      match (t.item i).toBytes? with
      | none => .error (.invalidContent "string" (t.item i).typeName (.int i))
      | some s => (texts t (stop.toInt - (i.toInt + 1) + 1).toNat (i.toInt + 1)).map (s :: ·) := by
  have hle := Int64.le_iff_toInt_le.mp h
  rw [show (stop.toInt - i.toInt + 1).toNat = (stop.toInt - (i.toInt + 1) + 1).toNat + 1 by omega,
    texts, textError, key_toInt]

theorem texts_of_lt {i stop : Int} (h : stop < i) : texts t (stop - i + 1).toNat i = .ok [] := by
  rw [Int.toNat_of_nonpos (by omega), texts]

/-- Behind the first index, the loop writes each text with a separator in front of it. -/
theorem joinFrom_of_lt {start stop i : Int64} {written : Array UInt8} (h : start < i) :
    joinFrom t separator start stop written i =
      (texts t (stop.toInt - i.toInt + 1).toNat i.toInt).map fun ss =>
        written.toList ++ ss.flatMap (separator ++ ·) := by
  have hlt := Int64.lt_iff_toInt_lt.mp h
  have hne : i ≠ start := fun heq => absurd hlt (heq ▸ Int.lt_irrefl _)
  fun_induction joinFrom t separator start stop written i with
  | case1 written i hle hnone => rw [texts_of_le hle, hnone, Except.map]
  | case2 written s hle hsome written' =>
    -- there is nothing behind the greatest integer
    have hbehind : stop.toInt < Int64.maxValue.toInt + 1 := Int.lt_add_one_of_le stop.toInt_le
    have hwritten : written'.toList = written.toList ++ (separator ++ s) := by
      simp [written', hne]
    rw [texts_of_le hle, hsome, texts_of_lt hbehind, hwritten]
    simp only [Except.map, List.flatMap_cons, List.flatMap_nil, List.append_nil]
  | case3 written i hle s hsome written' hmax ih =>
    have hsucc := toInt_succ hmax
    have hwritten : written'.toList = written.toList ++ (separator ++ s) := by
      simp [written', hne]
    rw [ih (Int64.lt_iff_toInt_lt.mpr (by omega)) (by omega)
      (fun heq => by rw [heq] at hsucc; omega), texts_of_le hle, hsome, hsucc, hwritten]
    cases texts t (stop.toInt - (i.toInt + 1) + 1).toNat (i.toInt + 1) with
    | error e => rfl
    | ok ss => simp only [Except.map, List.flatMap_cons, List.append_assoc]
  | case4 written i hgt =>
    have hgt' := Int64.lt_iff_toInt_lt.mp (Int64.not_le.mp hgt)
    rw [texts_of_lt hgt', Except.map, List.flatMap_nil, List.append_nil]

theorem intercalate_cons (separator s : Bytes) (ss : List Bytes) :
    separator.intercalate (s :: ss) = s ++ ss.flatMap (separator ++ ·) := by
  induction ss generalizing s with
  | nil => rw [List.intercalate_singleton, List.flatMap_nil, List.append_nil]
  | cons s' ss ih =>
    rw [List.intercalate_cons_cons, ih, List.flatMap_cons]
    simp only [List.append_assoc]

/-- The loop writes the texts of the range, with the separator between them. -/
theorem joinFrom_eq (t : Table) (separator : Bytes) (start stop : Int64) :
    joinFrom t separator start stop #[] start =
      (texts t (stop.toInt - start.toInt + 1).toNat start.toInt).map separator.intercalate := by
  rw [joinFrom]
  split
  case isFalse hgt =>
    have hgt' := Int64.lt_iff_toInt_lt.mp (Int64.not_le.mp hgt)
    rw [texts_of_lt hgt', Except.map, List.intercalate_nil]
  case isTrue hle =>
    rw [texts_of_le hle]
    cases hsome : (t.item start).toBytes? with
    | none => rfl
    | some s =>
      dsimp only
      rw [if_neg (not_not_intro rfl)]
      by_cases hmax : start = Int64.maxValue
      · have hbehind : stop.toInt < start.toInt + 1 := hmax ▸ Int.lt_add_one_of_le stop.toInt_le
        rw [if_pos hmax, texts_of_lt hbehind]
        simp [Except.map]
      · have hsucc := toInt_succ hmax
        rw [if_neg hmax, joinFrom_of_lt (Int64.lt_iff_toInt_lt.mpr (by omega)), hsucc]
        cases texts t (stop.toInt - (start.toInt + 1) + 1).toNat (start.toInt + 1) with
        | error e => rfl
        | ok ss => simp [Except.map, intercalate_cons]

/-- If the loop goes through, it gives the texts. -/
theorem forall₂_of_texts (h : texts t n i = .ok ss) : List.Forall₂ HasText (items t n i) ss := by
  induction n generalizing i ss with
  | zero =>
    cases h
    exact .nil
  | succ n ih =>
    rw [items_succ]
    by_cases htext : ∃ s, HasText (t.item (key i)) s
    · obtain ⟨s, hs⟩ := htext
      rw [texts_succ_of_hasText hs] at h
      cases hrest : texts t n (i + 1) with
      | ok rest =>
        rw [hrest] at h
        cases h
        exact .cons hs (ih hrest)
      | error e =>
        rw [hrest] at h
        cases h
    · rw [texts_succ_of_not (not_exists.mp htext)] at h
      cases h

/-- If the loop stops early, it is at the first position without a text. -/
theorem isLeast_of_texts (h : texts t n i = .error e) (hn : i + n = stop + 1) :
    ∃ k, IsLeast {k | Textless t i stop k} k ∧ e = textError t k := by
  induction n generalizing i with
  | zero => cases h
  | succ n ih =>
    by_cases htext : ∃ s, HasText (t.item (key i)) s
    · obtain ⟨s, hs⟩ := htext
      rw [texts_succ_of_hasText hs] at h
      cases hrest : texts t n (i + 1) with
      | ok rest =>
        rw [hrest] at h
        cases h
      | error e' =>
        rw [hrest] at h
        cases h
        obtain ⟨k, ⟨⟨hlow, hhigh, hnone⟩, hleast⟩, rfl⟩ := ih hrest (by omega)
        refine ⟨k, ⟨⟨by omega, hhigh, hnone⟩, fun j hj => ?_⟩, rfl⟩
        -- the first position has a text, so the others come after it
        obtain ⟨hlow', hhigh', hnone'⟩ := hj
        have hne : i ≠ j := fun heq => hnone' s (heq ▸ hs)
        exact hleast ⟨by omega, hhigh', hnone'⟩
    · have hnone := not_exists.mp htext
      rw [texts_succ_of_not hnone] at h
      cases h
      exact ⟨i, ⟨⟨le_refl i, by omega, hnone⟩, fun j hj => hj.1⟩, rfl⟩

/-- The outcome of the loop over a range. -/
theorem texts_outcome (t : Table) (separator : Bytes) (start stop : Int) :
    (∃ ss, texts t (stop - start + 1).toNat start = .ok ss ∧
      Joined t separator start stop (separator.intercalate ss)) ∨
    ∃ i, texts t (stop - start + 1).toNat start = .error (textError t i) ∧
      IsLeast {i | Textless t start stop i} i := by
  cases h : texts t (stop - start + 1).toNat start with
  | ok ss =>
    exact .inl ⟨ss, rfl, _, ss, rangeItems_items t start stop, forall₂_of_texts h, rfl⟩
  | error e =>
    -- in an empty range the loop does not stop early
    have hn : start + (stop - start + 1).toNat = stop + 1 := by
      by_contra hempty
      rw [Int.toNat_of_nonpos (by omega)] at h
      cases h
    obtain ⟨i, hi, rfl⟩ := isLeast_of_texts h hn
    exact .inr ⟨i, rfl, hi⟩

/-- Texts are joined if there is one at every position. -/
theorem Joined.not_textless (h : Joined t separator start stop s) : ¬ Textless t start stop i := by
  obtain ⟨vs, ss, hvs, hss, rfl⟩ := h
  rintro ⟨hlow, hhigh, hnone⟩
  obtain ⟨k, rfl⟩ : ∃ k : Nat, i = start + k := ⟨(i - start).toNat, by omega⟩
  have hlength := hvs.length_eq
  have hk : k < vs.length := by omega
  have hk' : k < ss.length := hss.length_eq ▸ hk
  have hitem := hvs.items k hk
  rw [Table.get_int, Except.ok.injEq] at hitem
  refine hnone ss[k] ?_
  rw [Table.item, hitem]
  exact hss.get hk hk'

/-! ### Calls -/

variable {args : List Value} {id : TableId} {r : Except Raised (List Value)} {w' : World H}

/-- The arguments of `concat`; the separator is empty by default. -/
structure ConcatArguments (args : List Value) (id : TableId) (t : Table) (separator : Bytes)
    (start stop : Int) : Prop where
  table_eq : argument TableId args 0 = .ok id
  separator_eq : ∃ s, argument? Bytes args 1 = .ok s ∧ s.getD [] = separator
  range : RangeArguments args 2 t start stop

/-- `concat` joins the texts, or it fails at the first position without one. -/
theorem concat_runs (hargs : ConcatArguments args id t separator start stop)
    (ht : w.memory.heap.table id = t) (hmade : t.Made) :
    (∃ s, Joined t separator start stop s ∧ (concat args).Runs B w (.ok [.string s]) w) ∨
    ∃ i, IsLeast {i | Textless t start stop i} i ∧
      (concat args).Runs B w (.error (.cause (.argument (textError t i)))) w := by
  subst ht
  obtain ⟨htable, ⟨s, hs, rfl⟩, ⟨i, hi, rfl⟩, ⟨j, hj, rfl⟩⟩ := hargs
  set t := w.memory.heap.table id
  have hconcat : (concat args : Program H (List Value)) = .read fun w =>
      let t := w.memory.heap.table id
      let start := i.getD 1
      liftM (joinFrom t (s.getD []) start (j.getD (.ofNat t.border)) #[] start) >>= fun s =>
        .done [.string s] := by
    refine (Program.bind_of_ok htable _).trans (congrArg Program.read (funext fun w => ?_))
    exact (Program.bind_of_ok hs _).trans ((Program.bind_of_ok hi _).trans
      (Program.bind_of_ok hj _))
  -- the length of a table is an integer of the language
  have hstop : (j.getD (.ofNat t.border)).toInt = (j.map Int64.toInt).getD t.border := by
    cases j with
    | none => exact Int64.toInt_ofNat_of_lt hmade.border_lt
    | some j => rfl
  have hjoin := joinFrom_eq t (s.getD []) (i.getD 1) (j.getD (.ofNat t.border))
  rw [hstop] at hjoin
  rw [hconcat]
  obtain ⟨ss, htexts, hjoined⟩ | ⟨k, htexts, hleast⟩ := texts_outcome t
    (s.getD []) (i.getD 1).toInt ((j.map Int64.toInt).getD t.border)
  · refine .inl ⟨_, hjoined, .read ?_⟩
    dsimp only
    rw [hjoin, htexts]
    exact .done
  · refine .inr ⟨k, hleast, .read ?_⟩
    dsimp only
    rw [hjoin, htexts]
    exact .fail

/-- A range with texts at all positions is joined. -/
theorem concat_runs_of_not (hargs : ConcatArguments args id t separator start stop)
    (ht : w.memory.heap.table id = t) (hmade : t.Made) (h : ∀ i, ¬ Textless t start stop i) :
    ∃ s, Joined t separator start stop s ∧ (concat args).Runs B w (.ok [.string s]) w := by
  obtain hjoins | ⟨i, hi, -⟩ := concat_runs (B := B) hargs ht hmade
  · exact hjoins
  · exact absurd hi.1 (h i)

/-- **`concat` joins, splits and reports correctly.**  If every item of the range is a string or a
number, `concat` gives their texts with the separator between them.  Otherwise it fails, and it
names the first position at which there is none.  What it gives for a range is what it gives for
the two parts of the range, with the separator between. -/
theorem concat_joins (host : HostCode H) (w : World H)
    (hargs : ConcatArguments args id (w.memory.heap.table id) separator start stop)
    (hmade : (w.memory.heap.table id).Made) :
    let B := Behaviour.standard host
    let t := w.memory.heap.table id
    let concat := fun args => B.builtin (.table .concat) args
    (∀ i, start ≤ i → i ≤ stop → Fits i) ∧
    ((∀ i, ¬ Textless t start stop i) → ∃ s, Joined t separator start stop s ∧
      (concat args).Runs B w (.ok [.string s]) w) ∧
    ((∃ i, Textless t start stop i) → ∃ i, IsLeast {i | Textless t start stop i} i ∧
      (concat args).Runs B w (.error (.cause (.argument (textError t i)))) w) ∧
    ∀ s k args₁ args₂, (concat args).Runs B w (.ok [.string s]) w → start ≤ k → k < stop →
      ConcatArguments args₁ id t separator start k →
      ConcatArguments args₂ id t separator (k + 1) stop →
      ∃ s₁ s₂, (concat args₁).Runs B w (.ok [.string s₁]) w ∧
        (concat args₂).Runs B w (.ok [.string s₂]) w ∧ s = s₁ ++ separator ++ s₂ := by
  intro B t concat
  obtain ⟨hstart, hstop⟩ := hargs.range.fits hmade
  refine ⟨fun i hlow hhigh => ?_, fun hnone => ?_, fun ⟨i, hi⟩ => ?_,
    fun s k args₁ args₂ hruns hlow hhigh hargs₁ hargs₂ => ?_⟩
  · rw [fits_iff] at hstart hstop ⊢
    omega
  · exact concat_runs_of_not hargs rfl hmade hnone
  · obtain ⟨s, hs, -⟩ | hfails := concat_runs (B := B) hargs rfl hmade
    · exact absurd hi hs.not_textless
    · exact hfails
  · -- the run that succeeds shows that the parts have texts, too
    have hwhole : Joined t separator start stop s := by
      obtain ⟨s', hjoined, hruns'⟩ | ⟨i, -, hruns'⟩ := concat_runs (B := B) hargs rfl hmade
      · cases (hruns.unique hruns').1
        exact hjoined
      · cases (hruns.unique hruns').1
    obtain ⟨s₁, hjoined₁, hruns₁⟩ := concat_runs_of_not (B := B) hargs₁ rfl hmade fun i hi =>
      hwhole.not_textless ⟨hi.1, hi.2.1.trans hhigh.le, hi.2.2⟩
    obtain ⟨s₂, hjoined₂, hruns₂⟩ := concat_runs_of_not (B := B) hargs₂ rfl hmade fun i hi =>
      hwhole.not_textless ⟨hlow.trans (by have := hi.1; omega), hi.2⟩
    exact ⟨s₁, s₂, hruns₁, hruns₂, hwhole.unique (hjoined₁.append hjoined₂ hlow hhigh)⟩

/-- Two integers are joined, and so are the two of them; a range with a hole is refused, and so is
one that goes on to the greatest integer. -/
theorem concat_joins_holed :
    let concat := fun args => Behaviour.bare.builtin (.table .concat) args
    let args := fun i j : Int64 => [.table ⟨1⟩, Value.ofText ", ", .int i, .int j]
    let refusal : Raised :=
      .cause (.argument (.invalidContent "string" "nil" (.nat 3)))
    (∀ i j : Int64, ConcatArguments (args i j) ⟨1⟩ holed (Bytes.ofString ", ") i.toInt j.toInt) ∧
    (∃ s₁ s₂, (concat (args 1 1)).Runs .bare holedWorld (.ok [.string s₁]) holedWorld ∧
      (concat (args 2 2)).Runs .bare holedWorld (.ok [.string s₂]) holedWorld ∧
      (concat (args 1 2)).Runs .bare holedWorld
        (.ok [.string (s₁ ++ Bytes.ofString ", " ++ s₂)]) holedWorld) ∧
    (concat (args 1 2)).Runs .bare holedWorld (.ok [Value.ofText "10, 20"]) holedWorld ∧
    (concat (args 1 Int64.maxValue)).Runs .bare holedWorld (.error refusal) holedWorld := by
  intro concat args refusal
  have hargs : ∀ i j : Int64,
      ConcatArguments (args i j) ⟨1⟩ holed (Bytes.ofString ", ") i.toInt j.toInt :=
    fun i j => ⟨rfl, ⟨_, rfl, rfl⟩, ⟨some i, rfl, rfl⟩, some j, rfl, rfl⟩
  have hjoined : Joined holed (Bytes.ofString ", ") 1 2 (Bytes.ofString "10, 20") :=
    ⟨[.nat 10, .nat 20], _, ⟨rfl, by decide +kernel⟩, .cons (.number _) (.cons (.number _) .nil),
      by decide +kernel⟩
  obtain ⟨-, hjoins, -, hsplits⟩ := concat_joins .bare holedWorld (hargs 1 2) made_holed
  obtain ⟨s, hs, hruns⟩ := hjoins fun i => hjoined.not_textless
  obtain rfl := hs.unique hjoined
  refine ⟨hargs, ?_, hruns, ?_⟩
  · obtain ⟨s₁, s₂, hruns₁, hruns₂, heq⟩ := hsplits _ 1 _ _ hruns (le_refl 1) (by decide)
      (hargs 1 1) (hargs 2 2)
    exact ⟨s₁, s₂, hruns₁, hruns₂, heq ▸ hruns⟩
  · have hnil : Textless holed 1 (Int64.maxValue).toInt 3 := by
      refine ⟨by decide, by decide, fun s => toBytes?_eq_none_iff.mp ?_ s⟩
      decide +kernel
    obtain ⟨-, -, hrefuses, -⟩ := concat_joins .bare holedWorld (hargs 1 Int64.maxValue) made_holed
    obtain ⟨i, ⟨hi, hleast⟩, hruns⟩ := hrefuses ⟨3, hnil⟩
    obtain rfl : i = 3 := by
      have hle : i ≤ 3 := hleast hnil
      by_contra hne
      exact hjoined.not_textless ⟨hi.1, by omega, hi.2.2⟩
    have herror : refusal = .cause (.argument (textError holed 3)) := by decide +kernel
    rw [herror]
    exact hruns

end Library.Tables

end Lua
