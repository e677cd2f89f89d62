/-
Successive matches.

The matches in a subject are found one after the other: each search begins where the last match
ended, and an empty match right there is passed.

* `Regex.Successive` — the matches from a position on, search by search;
* `Regex.exists_successive`, `Regex.Successive.unique` — there is one row of them;
* `Regex.Successive.length_le` — there is at most one more of them than bytes;
* `Regex.Successive.inOrder`, `Regex.Successive.apart` — no match begins before the last one has
  ended, and they end further and further on;
* `Regex.Successive.drop` — all matches in a suffix, and the captured strings in them.

Design notes: nothing is assumed of the engine but that its matches lie in what is searched.  That
the searches come to an end follows from the toll: behind a match, the next one ends a byte further
on at the earliest.
-/
import Lua.Pattern.Walk
import Mathlib.Data.List.Basic

namespace Lua

namespace Regex

/-- The matches found from a position on, if the last one ended at `last`.  The next search begins
where a match ends; an empty match where the last one ended is none, and is passed by a byte. -/
inductive Successive (engine : Engine) (x : Regex) (s : Bytes) :
    Nat → Option Nat → List Match → Prop
  | done {position last} (h : engine.findAt x s position = none) :
      Successive engine x s position last []
  | found {position last m ms} (h : engine.findAt x s position = some m)
      (hnew : ¬ (m.start = m.stop ∧ some m.stop = last))
      (rest : Successive engine x s m.stop (some m.stop) ms) :
      Successive engine x s position last (m :: ms)
  | passed {position last m ms} (h : engine.findAt x s position = some m)
      (hpassed : m.start = m.stop ∧ some m.stop = last)
      (rest : Successive engine x s (m.start + 1) last ms) : Successive engine x s position last ms

variable {engine : Engine} {x : Regex} {s : Bytes} {position offset : Nat} {last : Option Nat}
  {m : Match} {ms : List Match}

/-! ### One row -/

/-- The matches that are found, search after search. -/
theorem exists_successive (engine : Engine) (x : Regex) (s : Bytes) (position : Nat)
    (last : Option Nat) : ∃ ms, Successive engine x s position last ms := by
  cases h : engine.findAt x s position with
  | none => exact ⟨[], .done h⟩
  | some m =>
    have hbounds := Engine.findAt_bounds h
    by_cases hpassed : m.start = m.stop ∧ some m.stop = last
    · obtain ⟨ms, hms⟩ := exists_successive engine x s (m.start + 1) last
      exact ⟨ms, .passed h hpassed hms⟩
    · obtain ⟨ms, hms⟩ := exists_successive engine x s m.stop (some m.stop)
      exact ⟨m :: ms, .found h hpassed hms⟩
termination_by 2 * (s.length + 1 - position) + if last = some position then 0 else 1
decreasing_by
  · grind
  · -- the next search begins where the match ended, and an empty match there is no new one
    grind

/-- There is only one row of matches. -/
theorem Successive.unique {ms' : List Match} (h : Successive engine x s position last ms)
    (h' : Successive engine x s position last ms') : ms = ms' := by
  induction h generalizing ms' with
  | done h =>
    cases h' with
    | done => rfl
    | found h₁ => cases h.symm.trans h₁
    | passed h₁ => cases h.symm.trans h₁
  | found h hnew _ ih =>
    cases h' with
    | done h₁ => cases h.symm.trans h₁
    | found h₁ _ rest =>
      obtain rfl := Option.some.inj (h.symm.trans h₁)
      rw [ih rest]
    | passed h₁ hpassed =>
      obtain rfl := Option.some.inj (h.symm.trans h₁)
      exact absurd hpassed hnew
  | passed h hpassed _ ih =>
    cases h' with
    | done h₁ => cases h.symm.trans h₁
    | found h₁ hnew =>
      obtain rfl := Option.some.inj (h.symm.trans h₁)
      exact absurd hpassed hnew
    | passed h₁ _ rest =>
      obtain rfl := Option.some.inj (h.symm.trans h₁)
      exact ih rest

/-! ### Places of matches -/

/-- How many bytes further on the next match can end at the earliest. -/
def toll (position : Nat) (last : Option Nat) : Nat := if last = some position then 1 else 0

theorem toll_le_one (position : Nat) (last : Option Nat) : toll position last ≤ 1 := by
  rw [toll]
  split <;> omega

@[simp] theorem toll_some_self (position : Nat) : toll position (some position) = 1 := if_pos rfl

/-- A match that is new ends behind the last one. -/
theorem toll_le (h : engine.findAt x s position = some m)
    (hnew : ¬ (m.start = m.stop ∧ some m.stop = last)) :
    position + toll position last ≤ m.stop := by
  obtain ⟨hafter, hlen, -⟩ := Engine.findAt_bounds h
  rw [toll]
  split
  · rename_i hlast
    have hne : ¬ (m.start = m.stop ∧ position = m.stop) := by
      rintro ⟨hempty, rfl⟩
      exact hnew ⟨hempty, hlast.symm⟩
    omega
  · omega

/-- The matches end further and further on, so there are not many of them. -/
theorem Successive.length_le (h : Successive engine x s position last ms)
    (hroom : position + toll position last ≤ s.length + 1) :
    ms.length + (position + toll position last) ≤ s.length + 1 := by
  induction h with
  | done _ => simpa using hroom
  | found h hnew _ ih =>
    have htoll := toll_le h hnew
    obtain ⟨-, -, hstop⟩ := Engine.findAt_bounds h
    rw [toll_some_self] at ih
    have hrest := ih (by omega)
    rw [List.length_cons]
    omega
  | @passed position last m ms h hpassed _ ih =>
    obtain ⟨hempty, rfl⟩ := hpassed
    obtain ⟨hafter, -, hstop⟩ := Engine.findAt_bounds h
    have hne : some m.stop ≠ some (m.start + 1) := fun heq => by
      have := Option.some.inj heq
      omega
    rw [toll, if_neg hne] at ih
    have hrest := ih (by omega)
    have hone := toll_le_one position (some m.stop)
    omega

/-- The matches begin and end behind the position of the search. -/
theorem Successive.behind (h : Successive engine x s position last ms) :
    ∀ m ∈ ms, position ≤ m.start ∧ position + toll position last ≤ m.stop := by
  induction h with
  | done _ => exact fun m hm => absurd hm List.not_mem_nil
  | found h hnew _ ih =>
    have htoll := toll_le h hnew
    obtain ⟨hafter, hlen, -⟩ := Engine.findAt_bounds h
    rw [toll_some_self] at ih
    refine List.forall_mem_cons.mpr ⟨⟨hafter, htoll⟩, fun m' hm' => ?_⟩
    obtain ⟨hstart, hstop⟩ := ih m' hm'
    omega
  | @passed position last m ms h _ _ ih =>
    obtain ⟨hafter, -, -⟩ := Engine.findAt_bounds h
    intro m' hm'
    obtain ⟨hstart, hstop⟩ := ih m' hm'
    have hone := toll_le_one position last
    omega

/-- The second match begins where the first one ends, or behind it, and it ends behind it. -/
def Apart (m m' : Match) : Prop := m.stop ≤ m'.start ∧ m.stop < m'.stop

/-- No two matches overlap, and they end further and further on. -/
theorem Successive.apart (h : Successive engine x s position last ms) : ms.Pairwise Apart := by
  induction h with
  | done _ => exact .nil
  | found _ _ rest ih =>
    refine List.pairwise_cons.mpr ⟨fun m' hm' => ?_, ih⟩
    have hbehind := rest.behind m' hm'
    rwa [toll_some_self] at hbehind
  | passed _ _ _ ih => exact ih

/-- Matches that lie in the subject from an offset on, none of them before the end of another. -/
def InOrder (s : Bytes) : Nat → List Match → Prop
  | offset, [] => offset ≤ s.length
  | offset, m :: ms => offset ≤ m.start ∧ m.start ≤ m.stop ∧ InOrder s m.stop ms

theorem InOrder.le_length (h : InOrder s offset ms) : offset ≤ s.length := by
  induction ms generalizing offset with
  | nil => exact h
  | cons m ms ih =>
    obtain ⟨hstart, hstop, hrest⟩ := h
    exact Nat.le_trans hstart (Nat.le_trans hstop (ih hrest))

theorem InOrder.take (h : InOrder s offset ms) (n : Nat) : InOrder s offset (ms.take n) := by
  induction ms generalizing offset n with
  | nil => rwa [List.take_nil]
  | cons m ms ih =>
    cases n with
    | zero => exact h.le_length
    | succ n => exact ⟨h.1, h.2.1, ih h.2.2 n⟩

theorem Successive.inOrder (h : Successive engine x s position last ms) (hle : offset ≤ position)
    (hin : offset ≤ s.length) : InOrder s offset ms := by
  induction h generalizing offset with
  | done _ => exact hin
  | found h _ _ ih =>
    obtain ⟨hafter, hlen, hstop⟩ := Engine.findAt_bounds h
    exact ⟨Nat.le_trans hle hafter, hlen, ih (Nat.le_refl _) hstop⟩
  | passed h _ _ ih =>
    obtain ⟨hafter, -, -⟩ := Engine.findAt_bounds h
    exact ih (Nat.le_succ_of_le (Nat.le_trans hle hafter)) hin

/-! ### Suffixes -/

variable {d : Nat}

theorem shift_shift (d offset : Nat) (m : Match) :
    (m.shift offset).shift d = m.shift (d + offset) := by
  simp only [Match.shift, List.map_map, Nat.add_assoc]
  congr 2
  funext span
  cases span with
  | none => rfl
  | some a => simp only [Function.comp_apply, Option.map_some, shiftSpan, Nat.add_assoc]

/-- A search looks at nothing before its offset, so it may be made in the suffix. -/
theorem findAt_drop (engine : Engine) (x : Regex) (hd : d ≤ s.length) (offset : Nat) :
    engine.findAt x s (d + offset) = (engine.findAt x (s.drop d) offset).map (Match.shift d) := by
  rw [Engine.findAt, Engine.findAt, List.length_drop, List.drop_drop]
  have hout : s.length - d < offset ↔ s.length < d + offset := by omega
  rw [if_congr hout rfl rfl]
  split
  · rfl
  · rw [Option.map_map]
    congr 1
    funext m
    exact (shift_shift d offset m).symm

/-- The matches in a suffix are those of the subject from there on. -/
theorem Successive.drop (hd : d ≤ s.length)
    (h : Successive engine x (s.drop d) position last ms) :
    Successive engine x s (d + position) (last.map (d + ·)) (ms.map (Match.shift d)) := by
  have hplace : ∀ {m : Match} {last : Option Nat},
      ((m.shift d).start = (m.shift d).stop ∧ some (m.shift d).stop = last.map (d + ·)) ↔
        (m.start = m.stop ∧ some m.stop = last) := by
    intro m last
    refine and_congr Nat.add_left_cancel_iff ?_
    cases last with
    | none => exact iff_of_false nofun nofun
    | some l => simp [Match.shift]
  induction h with
  | done h => exact .done (by rw [findAt_drop engine x hd, h]; rfl)
  | @found position last m ms h hnew _ ih =>
    exact .found (m := m.shift d) (by rw [findAt_drop engine x hd, h]; rfl) (mt hplace.mp hnew) ih
  | @passed position last m ms h hpassed _ ih =>
    exact .passed (m := m.shift d) (by rw [findAt_drop engine x hd, h]; rfl)
      (hplace.mpr hpassed) ih

end Regex

namespace Match

theorem slice_shift (s : Bytes) (d a b : Nat) :
    Bytes.slice s (d + a) (d + b) = Bytes.slice (s.drop d) a b := by
  rw [Bytes.slice, Bytes.slice, List.drop_drop, Nat.add_sub_add_left]

/-- What a match in a suffix captures. -/
theorem values_shift (s : Bytes) (d : Nat) (m : Match) :
    (m.shift d).values s = m.values (s.drop d) := by
  rw [values, values, shift, whole, whole, slice_shift, List.isEmpty_map, List.map_map]
  split
  · rfl
  · refine List.map_congr_left fun span _ => ?_
    cases span with
    | none => rfl
    | some a => exact congrArg Value.string (slice_shift s d a.1 a.2)

end Match

end Lua
