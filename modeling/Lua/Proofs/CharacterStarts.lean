/-
Starts of characters.

A character starts at every byte that is no continuation byte, and one more place to start is behind
the last byte.  `offset` counts these places forth and back, on any bytes:

* `startOffsets`, `starts` — the places, as offsets and as positions;
* `isLeast_forth`, `isGreatest_backToStart` — the next place and the last one;
* `forth_eq`, `back_eq` — counting goes through the row of places;
* `Turn` — one turn of a count, in the integers that it is made in;
* `exists_stops_forth`, `exists_stops_back` — a count is a row of turns;
* `Turn.within`, `within_of_turns` — turns do not leave the integers of the language;
* `offset_eq` — what `offset` does from the position that is named;
* `offset_starts` — the place that `offset` gives.

Design notes: a string that begins with a continuation byte has a character that starts nowhere.  It
is left out, since going back ends at the first byte whatever that is.
-/
import Lua.Library.Registry
import Lua.Proofs.EncodedTexts
import Lua.Proofs.Moving
import Mathlib.Data.List.Sort
import Mathlib.Order.Bounds.Defs

namespace Lua.Library.Utf8s

open Tables (Fits fits_iff fits_toInt)
open Relation (ReflTransGen)

variable {H : Host} {s v : Bytes} {a k o o' x : Nat}

/-! ### Places -/

/-- The offsets at which characters start, and the one behind the last byte. -/
def startOffsets (s : Bytes) : List Nat :=
  (List.range s.length).filter (fun o => !isContinuationAt s o) ++ [s.length]

/-- The positions at which characters start, and the one behind the last byte. -/
def starts (s : Bytes) : List Nat := (startOffsets s).map (· + 1)

theorem isContinuationAt_of_length_le (h : s.length ≤ o) : isContinuationAt s o = false := by
  rw [isContinuationAt, List.getElem?_eq_none h]

theorem mem_startOffsets_iff :
    o ∈ startOffsets s ↔ o ≤ s.length ∧ isContinuationAt s o = false := by
  rw [startOffsets, List.mem_append, List.mem_filter, List.mem_range, List.mem_singleton,
    Bool.not_eq_true']
  constructor
  · rintro (⟨hlt, ho⟩ | rfl)
    · exact ⟨Nat.le_of_lt hlt, ho⟩
    · exact ⟨Nat.le_refl _, isContinuationAt_of_length_le (Nat.le_refl _)⟩
  · rintro ⟨hle, ho⟩
    rcases Nat.lt_or_eq_of_le hle with hlt | rfl
    · exact .inl ⟨hlt, ho⟩
    · exact .inr rfl

theorem sortedLT_startOffsets (s : Bytes) : (startOffsets s).SortedLT := by
  refine List.Pairwise.sortedLT (List.pairwise_append.mpr
    ⟨List.pairwise_lt_range.filter _, List.pairwise_singleton _ _, fun o ho o' ho' => ?_⟩)
  rw [List.mem_singleton.mp ho']
  exact List.mem_range.mp (List.mem_of_mem_filter ho)

/-! ### Rows in ascending order -/

section

variable {l : List Nat}

/-- Behind an entry comes the least one that is greater. -/
theorem getElem?_add_one (hl : l.SortedLT) (ha : l[a]? = some o)
    (ho' : IsLeast {x | x ∈ l ∧ o < x} o') : l[a + 1]? = some o' := by
  obtain ⟨⟨hmem, hlt⟩, hleast⟩ := ho'
  obtain ⟨hin, rfl⟩ := List.getElem?_eq_some_iff.mp ha
  obtain ⟨b, hb, rfl⟩ := List.getElem_of_mem hmem
  have hab : a < b := hl.getElem_lt_getElem_iff.mp hlt
  have hin' : a + 1 < l.length := Nat.lt_of_le_of_lt hab hb
  have hba : b ≤ a + 1 := hl.getElem_le_getElem_iff.mp <| hleast
    ⟨List.getElem_mem hin', hl.getElem_lt_getElem_iff.mpr (Nat.lt_succ_self a)⟩
  obtain rfl : b = a + 1 := Nat.le_antisymm hba hab
  exact List.getElem?_eq_getElem hb

/-- Before an entry comes the greatest one that is less. -/
theorem getElem?_sub_one (hl : l.SortedLT) (ha : l[a]? = some o)
    (ho' : IsGreatest {x | x ∈ l ∧ x < o} o') : 0 < a ∧ l[a - 1]? = some o' := by
  obtain ⟨⟨hmem, hlt⟩, hgreatest⟩ := ho'
  obtain ⟨hin, rfl⟩ := List.getElem?_eq_some_iff.mp ha
  obtain ⟨b, hb, rfl⟩ := List.getElem_of_mem hmem
  have hba : b < a := hl.getElem_lt_getElem_iff.mp hlt
  have hin' : a - 1 < l.length := Nat.lt_of_le_of_lt (Nat.sub_le a 1) hin
  have hab : a - 1 ≤ b := hl.getElem_le_getElem_iff.mp <| hgreatest
    ⟨List.getElem_mem hin', hl.getElem_lt_getElem_iff.mpr (by omega)⟩
  obtain rfl : b = a - 1 := by omega
  exact ⟨Nat.zero_lt_of_lt hba, List.getElem?_eq_getElem hb⟩

/-- Behind the greatest entry comes none. -/
theorem length_le_of_greatest (hl : l.SortedLT) (ha : l[a]? = some o)
    (ho : ∀ x ∈ l, x ≤ o) : l.length ≤ a + 1 := by
  obtain ⟨hin, rfl⟩ := List.getElem?_eq_some_iff.mp ha
  -- an entry behind it would be greater
  by_contra hlonger
  have hin' : a + 1 < l.length := Nat.lt_of_not_le hlonger
  have hle := hl.getElem_le_getElem_iff.mp (ho _ (List.getElem_mem hin'))
  exact absurd hle (Nat.not_succ_le_self a)

/-- Before the least entry comes none. -/
theorem eq_zero_of_least (hl : l.SortedLT) (ha : l[a]? = some o) (ho : ∀ x ∈ l, o ≤ x) : a = 0 := by
  obtain ⟨hin, rfl⟩ := List.getElem?_eq_some_iff.mp ha
  have hle := ho _ (List.getElem_mem (Nat.zero_lt_of_lt hin))
  exact Nat.le_zero.mp (hl.getElem_le_getElem_iff.mp hle)

end

/-! ### The next place and the last one -/

theorem isContinuationAt_drop (s : Bytes) (o k : Nat) :
    isContinuationAt (s.drop o) k = isContinuationAt s (o + k) := by
  rw [isContinuationAt, List.getElem?_drop]
  rfl

theorem isLeast_takeWhile (v : Bytes) :
    IsLeast {x | isContinuationAt v x = false} (v.takeWhile Utf8.isContinuation).length := by
  induction v with
  | nil => exact ⟨rfl, fun x _ => Nat.zero_le x⟩
  | cons b v ih =>
    cases hb : Utf8.isContinuation b with
    | false =>
      rw [List.takeWhile_cons_of_neg (by rw [hb]; exact Bool.false_ne_true)]
      exact ⟨hb, fun x _ => Nat.zero_le x⟩
    | true =>
      rw [List.takeWhile_cons_of_pos hb, List.length_cons]
      refine ⟨ih.1, fun x hx => ?_⟩
      cases x with
      | zero => exact absurd (hb.symm.trans hx) (by decide)
      | succ x => exact Nat.succ_le_succ (ih.2 hx)

/-- Behind a run of continuation bytes a character starts. -/
theorem isLeast_continuationRun (s : Bytes) (o : Nat) :
    IsLeast {x | o ≤ x ∧ isContinuationAt s x = false} (o + continuationRun s o) := by
  obtain ⟨hbyte, hleast⟩ := isLeast_takeWhile (s.drop o)
  refine ⟨⟨Nat.le_add_right _ _, (isContinuationAt_drop s o _).symm.trans hbyte⟩, ?_⟩
  rintro x ⟨hox, hx⟩
  obtain ⟨k, rfl⟩ := Nat.exists_eq_add_of_le hox
  exact Nat.add_le_add_left (hleast ((isContinuationAt_drop s o k).trans hx)) o

theorem add_continuationRun_le (h : o ≤ s.length) : o + continuationRun s o ≤ s.length :=
  (isLeast_continuationRun s o).2 ⟨h, isContinuationAt_of_length_le (Nat.le_refl _)⟩

/-- From an offset in the string, the next place to start. -/
theorem isLeast_forth (h : o < s.length) : IsLeast {x | x ∈ startOffsets s ∧ o < x}
    (o + 1 + continuationRun s (o + 1)) := by
  obtain ⟨⟨hle, hbyte⟩, hleast⟩ := isLeast_continuationRun s (o + 1)
  refine ⟨⟨mem_startOffsets_iff.mpr ⟨add_continuationRun_le h, hbyte⟩, hle⟩, ?_⟩
  rintro x ⟨hx, hlt⟩
  exact hleast ⟨hlt, (mem_startOffsets_iff.mp hx).2⟩

theorem backToStart_le (s : Bytes) (o : Nat) : backToStart s o ≤ o := by
  induction o with
  | zero => exact Nat.le_refl 0
  | succ o ih =>
    rw [backToStart]
    split
    · exact Nat.le_succ_of_le ih
    · exact Nat.le_refl _

/-- From an offset in the string, the last place to start. -/
theorem isGreatest_backToStart (hs : isContinuationAt s 0 = false) (h : o ≤ s.length) :
    IsGreatest {x | x ∈ startOffsets s ∧ x ≤ o} (backToStart s o) := by
  induction o with
  | zero => exact ⟨⟨mem_startOffsets_iff.mpr ⟨h, hs⟩, Nat.le_refl 0⟩, fun x hx => hx.2⟩
  | succ o ih =>
    rw [backToStart]
    cases hbyte : isContinuationAt s (o + 1) with
    | false =>
      rw [if_neg Bool.false_ne_true]
      exact ⟨⟨mem_startOffsets_iff.mpr ⟨h, hbyte⟩, Nat.le_refl _⟩, fun x hx => hx.2⟩
    | true =>
      rw [if_pos rfl]
      obtain ⟨⟨hmem, hle⟩, hgreatest⟩ := ih (Nat.le_of_succ_le h)
      refine ⟨⟨hmem, Nat.le_succ_of_le hle⟩, ?_⟩
      rintro x ⟨hx, hxo⟩
      rcases Nat.lt_or_eq_of_le hxo with hlt | rfl
      · exact hgreatest ⟨hx, Nat.le_of_lt_succ hlt⟩
      · exact absurd (hbyte.symm.trans (mem_startOffsets_iff.mp hx).2) (by decide)

/-! ### Counting -/

/-- Counting forth goes on in the row of places. -/
theorem forth_eq (ha : (startOffsets s)[a]? = some o) (k : Nat) :
    forth s k o = (startOffsets s)[a + k]? := by
  have hrow := sortedLT_startOffsets s
  induction k generalizing a o with
  | zero => exact ha.symm
  | succ k ih =>
    rw [forth]
    by_cases hend : s.length ≤ o
    · have hlength := length_le_of_greatest hrow ha fun x hx =>
        Nat.le_trans (mem_startOffsets_iff.mp hx).1 hend
      rw [if_pos hend, List.getElem?_eq_none (by omega)]
    · have hnext := getElem?_add_one hrow ha (isLeast_forth (Nat.lt_of_not_le hend))
      rw [if_neg hend, ih hnext, Nat.add_right_comm a 1 k]
      rfl

/-- Counting back goes back in the row of places. -/
theorem back_eq (hs : isContinuationAt s 0 = false) (ha : (startOffsets s)[a]? = some o) (k : Nat) :
    back s k o = if k ≤ a then (startOffsets s)[a - k]? else none := by
  have hrow := sortedLT_startOffsets s
  have hin : ∀ {a o}, (startOffsets s)[a]? = some o → o ≤ s.length := fun ha =>
    (mem_startOffsets_iff.mp (List.mem_of_getElem? ha)).1
  induction k generalizing a o with
  | zero => exact ha.symm
  | succ k ih =>
    cases o with
    | zero =>
      -- no place comes before the first byte
      have hfirst := eq_zero_of_least hrow ha fun x _ => Nat.zero_le x
      rw [back, hfirst, if_neg (Nat.not_succ_le_zero k)]
    | succ o =>
      have hlast : IsGreatest {x | x ∈ startOffsets s ∧ x < o + 1} (backToStart s o) := by
        simpa only [Nat.lt_succ_iff] using
          isGreatest_backToStart hs (Nat.le_of_succ_le (hin ha))
      obtain ⟨hpos, hbefore⟩ := getElem?_sub_one hrow ha hlast
      rw [back, ih hbefore, Nat.sub_sub, Nat.add_comm 1 k]
      exact if_congr (by omega) rfl rfl

/-! ### Turns of a count -/

/-- A turn of a count: the number that is left goes one towards zero, and the offset goes to the
next place on its way. -/
inductive Turn (s : Bytes) : Int × Nat → Int × Nat → Prop
  | forth {n o} (hn : 0 < n) (ho : o < s.length) :
      Turn s (n, o) (n - 1, o + 1 + continuationRun s (o + 1))
  | back {n o} (hn : n < 0) : Turn s (n, o + 1) (n + 1, backToStart s o)

/-- The turns from `start` end at `stop`. -/
def Stops (s : Bytes) (start stop : Int × Nat) : Prop :=
  ReflTransGen (Turn s) start stop ∧ ∀ y, ¬ Turn s stop y

/-- A count that is done gives its offset, and one that stopped early gives none. -/
def counted (stop : Int × Nat) : Option Nat := if stop.1 = 0 then some stop.2 else none

theorem stops_done (s : Bytes) (o : Nat) : Stops s (0, o) (0, o) :=
  ⟨.refl, by rintro y (⟨hn, -⟩ | hn) <;> exact absurd hn (Int.lt_irrefl 0)⟩

theorem exists_stops_forth (s : Bytes) (k o : Nat) :
    ∃ stop, Stops s (k, o) stop ∧ forth s k o = counted stop := by
  induction k generalizing o with
  | zero => exact ⟨_, stops_done s o, rfl⟩
  | succ k ih =>
    rw [forth]
    by_cases hend : s.length ≤ o
    · refine ⟨_, ⟨.refl, ?_⟩, ?_⟩
      · rintro y (⟨-, ho⟩ | hn)
        · exact absurd ho (Nat.not_lt_of_le hend)
        · omega
      · rw [if_pos hend, counted, if_neg (by dsimp only; omega)]
    · obtain ⟨stop, ⟨hturns, hstop⟩, hcounted⟩ := ih (o + 1 + continuationRun s (o + 1))
      rw [if_neg hend]
      refine ⟨stop, ⟨.head ?_ hturns, hstop⟩, hcounted⟩
      have hturn := Turn.forth (s := s) (n := (k + 1 : Nat)) (by omega) (Nat.lt_of_not_le hend)
      rwa [Int.natCast_succ, Int.add_sub_cancel] at hturn

theorem exists_stops_back (s : Bytes) (k o : Nat) :
    ∃ stop, Stops s (-(k : Int), o) stop ∧ back s k o = counted stop := by
  induction k generalizing o with
  | zero => exact ⟨_, stops_done s o, rfl⟩
  | succ k ih =>
    cases o with
    | zero =>
      refine ⟨_, ⟨.refl, ?_⟩, ?_⟩
      · rintro y (⟨hn, -⟩ | -)
        omega
      · rw [back, counted, if_neg (by dsimp only; omega)]
    | succ o =>
      obtain ⟨stop, ⟨hturns, hstop⟩, hcounted⟩ := ih (backToStart s o)
      rw [back]
      refine ⟨stop, ⟨.head ?_ hturns, hstop⟩, hcounted⟩
      have hturn := Turn.back (s := s) (n := -((k + 1 : Nat) : Int)) (o := o) (by omega)
      rwa [show -((k + 1 : Nat) : Int) + 1 = -(k : Int) by omega] at hturn

/-- The state of a count that can be made in integers of the language. -/
def Within (s : Bytes) (y : Int × Nat) : Prop := Fits y.1 ∧ y.2 ≤ s.length

theorem Turn.within {y z : Int × Nat} (h : Turn s y z) (hy : Within s y) : Within s z := by
  obtain ⟨hfits, hin⟩ := hy
  rw [fits_iff] at hfits
  cases h with
  | @forth n o hn ho =>
    dsimp only at hfits
    exact ⟨fits_iff.mpr ⟨by omega, by omega⟩, add_continuationRun_le ho⟩
  | @back n o hn =>
    dsimp only at hfits hin
    have hle := backToStart_le s o
    exact ⟨fits_iff.mpr ⟨by omega, by omega⟩, by dsimp only; omega⟩

/-- Turns do not leave the integers of the language. -/
theorem within_of_turns {y z : Int × Nat} (h : ReflTransGen (Turn s) y z) (hy : Within s y) :
    Within s z := by
  induction h with
  | refl => exact hy
  | tail _ hturn ih => exact hturn.within ih

/-! ### Positions -/

variable {args : List Value} {n : Int64} {i : Option Int64}

/-- The arguments of `offset`: a string, a number to count, and a position to count from. -/
structure OffsetArguments (args : List Value) (s : Bytes) (n : Int64) (i : Option Int64) :
    Prop where
  subject_eq : argument Bytes args 0 = .ok s
  count_eq : argument Int64 args 1 = .ok n
  position_eq : argument? Int64 args 2 = .ok i

/-- The position that a count begins at.  By default it is the first one, or the one behind the end
to count back from; a negative one is counted from there. -/
def countPosition (s : Bytes) (n : Int64) : Option Int64 → Int
  | none => if 0 ≤ n.toInt then 1 else s.length + 1
  | some i => if 0 ≤ i.toInt then i.toInt else s.length + i.toInt + 1

/-- A position that is found, or nil. -/
def positionValue (found : Option Nat) : Value := (found.map .nat).getD .nil

/-- The position that is computed from an argument. -/
def computedPosition (s : Bytes) (n : Int64) : Option Int64 → Int
  | none => if 0 ≤ n.toInt then 1 else s.length + 1
  | some i => position i.toInt s.length

theorem offset_def (hargs : OffsetArguments args s n i) :
    (offset args : Program H (List Value)) =
      let start := computedPosition s n i - 1
      if start < 0 ∨ (s.length : Int) < start then
        .raise (.argument (.outOfRange "position out of bounds" 2))
      else if n.toInt = 0 then .done [.nat (backToStart s start.toNat + 1)]
      else if isContinuationAt s start.toNat then
        .raise (.ofText "initial position is a continuation byte")
      else .done [positionValue ((if n.toInt < 0 then back s n.toInt.natAbs start.toNat
        else forth s (n.toInt.toNat - 1) start.toNat).map (· + 1))] := by
  have hvalue : ∀ found : Option Nat,
      positionValue (found.map (· + 1)) = (found.map fun o => Value.nat (o + 1)).getD .nil := by
    intro found
    cases found <;> rfl
  simp only [hvalue]
  obtain ⟨hsubject, hcount, hposition⟩ := hargs
  refine (Program.bind_of_ok hsubject _).trans ((Program.bind_of_ok hcount _).trans
    ((Program.bind_of_ok hposition _).trans ?_))
  cases i <;> rfl

/-- Positions in the string are computed as they are named, and others are out of bounds. -/
theorem computedPosition_eq (s : Bytes) (n : Int64) (i : Option Int64) :
    computedPosition s n i = countPosition s n i ∨
      computedPosition s n i = 0 ∧ countPosition s n i ≤ 0 := by
  cases i with
  | none => exact .inl rfl
  | some i =>
    rw [computedPosition, countPosition, position]
    split_ifs <;> omega

theorem offset_outside (hargs : OffsetArguments args s n i)
    (hi : countPosition s n i < 1 ∨ (s.length : Int) + 1 < countPosition s n i) :
    (offset args : Program H (List Value)) =
      .raise (.argument (.outOfRange "position out of bounds" 2)) := by
  have hcomputed := computedPosition_eq s n i
  rw [offset_def hargs]
  exact if_pos (by omega)

/-- What `offset` does from an offset in the string or behind its end. -/
theorem offset_eq (hargs : OffsetArguments args s n i) (hi : countPosition s n i = o + 1)
    (ho : o ≤ s.length) :
    (offset args : Program H (List Value)) =
      if n.toInt = 0 then .done [.nat (backToStart s o + 1)]
      else if isContinuationAt s o then
        .raise (.ofText "initial position is a continuation byte")
      else .done [positionValue ((if n.toInt < 0 then back s n.toInt.natAbs o
        else forth s (n.toInt.toNat - 1) o).map (· + 1))] := by
  have hcomputed := computedPosition_eq s n i
  have hstart : computedPosition s n i - 1 = o := by omega
  rw [offset_def hargs, hstart]
  exact if_neg (by omega)

/-! ### Main result -/

/-- The number that is left at the first turn of a count: a place that is counted from is the first
one of a count forth. -/
def firstCount (n : Int64) : Int := if 0 < n.toInt then n.toInt - 1 else n.toInt

/-- The integers that `offset` computes do not overflow: the position that it begins at, and at each
turn the number that is left and the position. -/
structure Countable (s : Bytes) (n : Int64) (i : Option Int64) : Prop where
  behind : Fits (s.length + 1)
  relative : ∀ j, i = some j → j.toInt < 0 →
    Fits (s.length + j.toInt) ∧ Fits (s.length + j.toInt + 1)
  start : Fits (computedPosition s n i) ∧ Fits (computedPosition s n i - 1)
  turns : ∀ (o : Nat) y, countPosition s n i = o + 1 → o ≤ s.length →
    ReflTransGen (Turn s) (firstCount n, o) y → Fits y.1 ∧ y.2 ≤ s.length

theorem countable (hlength : s.length + 1 < 2 ^ 63) (n : Int64) (i : Option Int64) :
    Countable s n i := by
  have hn := fits_iff.mp (fits_toInt n)
  refine ⟨fits_iff.mpr (by omega), fun j _ hj => ?_, ?_, fun o y _ ho hturns => ?_⟩
  · have hlow := (fits_iff.mp (fits_toInt j)).1
    exact ⟨fits_iff.mpr (by omega), fits_iff.mpr (by omega)⟩
  · have hcomputed : 0 ≤ computedPosition s n i ∧ computedPosition s n i < 2 ^ 63 := by
      cases i with
      | none =>
        rw [computedPosition]
        split_ifs <;> omega
      | some j =>
        have hj := fits_iff.mp (fits_toInt j)
        rw [computedPosition, position]
        split_ifs <;> omega
    exact ⟨fits_iff.mpr (by omega), fits_iff.mpr (by omega)⟩
  · refine within_of_turns hturns ⟨fits_iff.mpr ?_, ho⟩
    rw [firstCount]
    split_ifs <;> omega

/-- The answer is that of the turns of a count. -/
theorem exists_stops (hargs : OffsetArguments args s n i) (hi : countPosition s n i = o + 1)
    (hn : n.toInt ≠ 0) (ho : o ∈ startOffsets s) :
    ∃ stop, Stops s (firstCount n, o) stop ∧ (offset args : Program H (List Value)) =
      .done [positionValue ((counted stop).map (· + 1))] := by
  obtain ⟨hin, hbyte⟩ := mem_startOffsets_iff.mp ho
  rw [offset_eq hargs hi hin, if_neg hn, hbyte, if_neg Bool.false_ne_true, firstCount]
  rcases Int.lt_or_gt_of_ne hn with hneg | hpos
  · obtain ⟨stop, hstops, hcounted⟩ := exists_stops_back s n.toInt.natAbs o
    rw [if_neg (by omega), if_pos hneg, hcounted]
    exact ⟨stop, by rwa [show -(n.toInt.natAbs : Int) = n.toInt by omega] at hstops, rfl⟩
  · obtain ⟨stop, hstops, hcounted⟩ := exists_stops_forth s (n.toInt.toNat - 1) o
    rw [if_pos hpos, if_neg (by omega), hcounted]
    exact ⟨stop, by rwa [show ((n.toInt.toNat - 1 : Nat) : Int) = n.toInt - 1 by omega] at hstops,
      rfl⟩

theorem exists_startOffset {p : Nat} (h : (starts s)[a]? = some p) :
    ∃ o, (startOffsets s)[a]? = some o ∧ p = o + 1 := by
  rw [starts, List.getElem?_map] at h
  obtain ⟨o, ho, rfl⟩ := Option.map_eq_some_iff.mp h
  exact ⟨o, ho, rfl⟩

/-- **`offset` counts the starts of characters.**  In a string that does not begin with a
continuation byte, let the places be the positions of the other bytes, in ascending order, and the
one behind the end.  Without a number to count, `offset` gives the last place up to a position.
From a place it gives the one that is so many places away, or nil if there is none; the place itself
is the first one of a count forth.  It raises errors for continuation bytes and for positions out of
bounds.  The integers that it computes turn by turn do not overflow. -/
theorem offset_starts (host : HostCode H) (w : World H) (hs : isContinuationAt s 0 = false)
    (hargs : OffsetArguments args s n i) :
    let B := Behaviour.standard host
    let start := countPosition s n i
    let seeking := B.builtin (.utf8 .offset) args
    (n = 0 → 1 ≤ start → start ≤ s.length + 1 →
      ∃ p : Nat, IsGreatest {p : Nat | p ∈ starts s ∧ (p : Int) ≤ start} p ∧
        seeking.Runs B w (.ok [.nat p]) w) ∧
    (∀ a p : Nat, (starts s)[a]? = some p → start = p →
      (0 < n.toInt → seeking.Runs B w
        (.ok [positionValue (starts s)[a + (n.toInt.toNat - 1)]?]) w) ∧
      (n.toInt < 0 → seeking.Runs B w (.ok [positionValue
        (if n.toInt.natAbs ≤ a then (starts s)[a - n.toInt.natAbs]? else none)]) w) ∧
      (n ≠ 0 → ∃ stop, Stops s (firstCount n, p - 1) stop ∧
        seeking.Runs B w (.ok [positionValue ((counted stop).map (· + 1))]) w)) ∧
    (n ≠ 0 → ∀ o : Nat, start = o + 1 → isContinuationAt s o = true → seeking.Runs B w
      (.error (.cause (.ofText "initial position is a continuation byte"))) w) ∧
    (start < 1 ∨ s.length + 1 < start → seeking.Runs B w
      (.error (.cause (.argument (.outOfRange "position out of bounds" 2)))) w) ∧
    (s.length + 1 < 2 ^ 63 → Countable s n i) := by
  intro B start seeking
  have hzero : n = 0 ↔ n.toInt = 0 := Int64.toInt_inj.symm
  refine ⟨fun hn hfirst hlast => ?_, fun a p ha hp => ?_, fun hn o ho hbyte => ?_, fun hout => ?_,
    fun hlength => countable hlength n i⟩
  · obtain ⟨o, ho⟩ : ∃ o : Nat, start = o + 1 := ⟨(start - 1).toNat, by omega⟩
    have hin : o ≤ s.length := by omega
    obtain ⟨⟨hmem, hle⟩, hgreatest⟩ := isGreatest_backToStart hs hin
    refine ⟨backToStart s o + 1, ⟨⟨List.mem_map_of_mem hmem, by omega⟩, ?_⟩,
      Program.runs_of_eq_done ((offset_eq hargs ho hin).trans (if_pos (hzero.mp hn)))⟩
    rintro p ⟨hp, hple⟩
    obtain ⟨x, hx, rfl⟩ := List.mem_map.mp hp
    exact Nat.succ_le_succ (hgreatest ⟨hx, by omega⟩)
  · obtain ⟨o, ho, rfl⟩ := exists_startOffset ha
    have hmem := List.mem_of_getElem? ho
    obtain ⟨hin, hbyte⟩ := mem_startOffsets_iff.mp hmem
    have hi : countPosition s n i = o + 1 := hp
    have hseeking := offset_eq (H := H) hargs hi hin
    rw [hbyte] at hseeking
    refine ⟨fun hn => ?_, fun hn => ?_, fun hn => ?_⟩
    · rw [if_neg (by omega), if_neg Bool.false_ne_true, if_neg (by omega), forth_eq ho,
        ← List.getElem?_map] at hseeking
      exact Program.runs_of_eq_done hseeking
    · rw [if_neg (by omega), if_neg Bool.false_ne_true, if_pos hn, back_eq hs ho,
        apply_ite (Option.map (· + 1)), ← List.getElem?_map] at hseeking
      exact Program.runs_of_eq_done hseeking
    · obtain ⟨stop, hstops, hdone⟩ := exists_stops (H := H) hargs hi (mt hzero.mpr hn) hmem
      exact ⟨stop, hstops, Program.runs_of_eq_done hdone⟩
  · have hin : o ≤ s.length := by
      by_contra hout
      rw [isContinuationAt_of_length_le (Nat.le_of_not_le hout)] at hbyte
      cases hbyte
    have hseeking := offset_eq (H := H) hargs ho hin
    rw [if_neg (mt hzero.mpr hn), hbyte, if_pos rfl] at hseeking
    exact Program.runs_of_eq_raise hseeking
  · exact Program.runs_of_eq_raise (offset_outside hargs hout)

/-- A letter, a form with a continuation byte too many, and a byte that begins no form: the third
place, the character at the fourth position, no place so far back as the least integer says, and an
error for the third position from the end. -/
theorem offset_starts_strayBytes :
    let s : Bytes := [0x61, 0xC3, 0xB1, 0x80, 0xFF]
    let seeking := fun args => Behaviour.bare.builtin (.utf8 .offset) (.string s :: args)
    isContinuationAt s 0 = false ∧ starts s = [1, 2, 5, 6] ∧
    OffsetArguments [.string s, .nat 3] s 3 none ∧
    (seeking [.nat 3]).Runs .bare .bare (.ok [.nat 5]) .bare ∧
    (seeking [.nat 0, .nat 4]).Runs .bare .bare (.ok [.nat 2]) .bare ∧
    (seeking [.int Int64.minValue]).Runs .bare .bare (.ok [.nil]) .bare ∧
    Countable s Int64.minValue none ∧
    (seeking [.nat 1, .int (-3)]).Runs .bare .bare
      (.error (.cause (.ofText "initial position is a continuation byte"))) .bare := by
  intro s seeking
  have hs : isContinuationAt s 0 = false := by decide
  have hstarts : starts s = [1, 2, 5, 6] := by decide
  have hthird : OffsetArguments [.string s, .nat 3] s 3 none := ⟨rfl, rfl, rfl⟩
  have hnone : OffsetArguments [.string s, .nat 0, .nat 4] s 0 (some 4) := ⟨rfl, rfl, rfl⟩
  have hleast : OffsetArguments [.string s, .int Int64.minValue] s Int64.minValue none :=
    ⟨rfl, rfl, rfl⟩
  have hstray : OffsetArguments [.string s, .nat 1, .int (-3)] s 1 (some (-3)) := ⟨rfl, rfl, rfl⟩
  obtain ⟨-, hforth, -⟩ := offset_starts .bare .bare hs hthird
  obtain ⟨hlast, -⟩ := offset_starts .bare .bare hs hnone
  obtain ⟨-, hback, -, -, hcountable⟩ := offset_starts .bare .bare hs hleast
  obtain ⟨-, -, hbyte, -⟩ := offset_starts .bare .bare hs hstray
  refine ⟨hs, hstarts, hthird, ?_, ?_, ?_, hcountable (by decide), ?_⟩
  · exact (hforth 0 1 rfl rfl).1 (by decide)
  · obtain ⟨p, hp, hruns⟩ := hlast rfl (by decide) (by decide)
    have htwo : IsGreatest {p : Nat | p ∈ starts s ∧ (p : Int) ≤ countPosition s 0 (some 4)} 2 := by
      rw [hstarts]
      refine ⟨⟨by decide, by decide⟩, ?_⟩
      rintro p ⟨hp, hle⟩
      have hfour : countPosition s 0 (some 4) = 4 := by decide
      simp only [List.mem_cons, List.not_mem_nil, or_false] at hp
      omega
    obtain rfl := hp.unique htwo
    exact hruns
  · exact (hback 3 6 rfl rfl).2.1 (by decide)
  · exact hbyte (by decide) 2 rfl (by decide)

end Lua.Library.Utf8s
