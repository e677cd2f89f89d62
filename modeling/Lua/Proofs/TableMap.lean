/-
Tables are finite maps.

The entries of a table are the pairs of its array part and those of its hash part.  The
values that the entries have at a key, `valuesAt`, are at most one value, and every
operation is described by what it does to them:

* `Table.hashed_eq_of_equals` — equal keys are hashed alike;
* `Table.lookup_eq` — reading finds the value at the key;
* `Table.Sound.assign` — writing replaces the value at the key, and none at any other key;
* **`Table.writeAll_finiteMap`** — after any sequence of writes to an empty table, the value
  of a key is that of the last write that succeeded at an equal key, exactly the writes at
  nil and at NaN fail, and the entries list every present key once.

Design notes: the array and the hash part may hold a key in different forms, and the key
that is asked for may have a third one, so nothing here speaks of keys up to identity; a
key is known by the keys it equals.  What a write moves between the two parts is then
invisible, since the values at a key are collected from both.
-/
import Lua.Table
import Lua.Proofs.Equality
import Mathlib.Data.List.Induction

namespace Lua

namespace Table

/-! ### Keys and their hashes -/

/-- Equal keys are hashed alike. -/
theorem hashed_eq_of_equals {a b : Value} (h : a.equals b = true) :
    hashed a = hashed b := by
  rcases Value.equals_iff.mp h with ⟨m, n, rfl, rfl, h⟩ | ⟨rfl, -⟩
  · have hint := Number.toInteger?_congr h
    simp only [hashed, ← hint]
    cases hm : m.toInteger? with
    | some i => rfl
    | none => rw [Number.eq_of_equals h hm]
  · rfl

/-! ### Keys of the array part -/

theorem nat_equals_number_iff {i : Nat} (h : i < 2 ^ 63) {n : Number} :
    (Value.nat i).equals (.number n) = true ↔ ∃ j, n.toInteger? = some j ∧ j.toInt = i := by
  refine Number.int_equals_iff.trans ⟨fun hn => ⟨_, hn, Int64.toInt_ofNat_of_lt h⟩, ?_⟩
  rintro ⟨j, hn, hj⟩
  rw [hn, Option.some.injEq]
  exact Int64.toInt_inj.mp (by rw [hj, Int64.toInt_ofNat_of_lt h])

theorem nat_equals_self (n : Nat) : (Value.nat n).equals (.nat n) = true := beq_self_eq_true _

/-- The index of a key is where the array part has an equal key. -/
theorem arrayIndex?_eq_some_iff {size i : Nat} {k : Value} :
    arrayIndex? size k = some i ↔
      i < size ∧ i + 1 < 2 ^ 63 ∧ (Value.nat (i + 1)).equals k = true := by
  cases k
  case number n =>
    simp only [arrayIndex?, Option.bind_eq_bind, Option.bind_eq_some_iff,
      Option.ite_none_right_eq_some, Option.some.injEq]
    constructor
    · rintro ⟨j, hn, ⟨hlow, hhigh⟩, rfl⟩
      have hlt := Int64.toInt_lt j
      refine ⟨by omega, by omega, (nat_equals_number_iff (by omega)).mpr ⟨j, hn, by omega⟩⟩
    · rintro ⟨hi, hlt, hk⟩
      obtain ⟨j, hn, hj⟩ := (nat_equals_number_iff hlt).mp hk
      exact ⟨j, hn, by omega, by omega⟩
  all_goals simp [arrayIndex?, Value.nat, Value.equals]

/-- The keys of the array part differ. -/
theorem index_unique {i j : Nat} (hi : i + 1 < 2 ^ 63) (hj : j + 1 < 2 ^ 63) {k : Value}
    (h : (Value.nat (i + 1)).equals k = true) (h' : (Value.nat (j + 1)).equals k = true) :
    i = j := by
  have hi' := arrayIndex?_eq_some_iff.mpr ⟨Nat.lt_of_le_of_lt (Nat.le_max_left i j)
    (Nat.lt_succ_self _), hi, h⟩
  have hj' := arrayIndex?_eq_some_iff.mpr ⟨Nat.lt_of_le_of_lt (Nat.le_max_right i j)
    (Nat.lt_succ_self _), hj, h'⟩
  exact Option.some.inj (hi'.symm.trans hj')

/-- The entries of an array part whose first value has index `n`. -/
def numbered : Nat → List Value → List (Value × Value)
  | _, [] => []
  | n, v :: vs => (.nat (n + 1), v) :: numbered (n + 1) vs

theorem map_zipIdx_eq_numbered (n m : Nat) (vs : List Value) :
    (vs.zipIdx m).map (fun (v, i) => (Value.nat (n + i + 1), v)) = numbered (n + m) vs := by
  induction vs generalizing m with
  | nil => rfl
  | cons v vs ih => exact congrArg _ (ih (m + 1))

theorem numbered_append (n : Nat) (vs ws : List Value) :
    numbered n (vs ++ ws) = numbered n vs ++ numbered (n + vs.length) ws := by
  induction vs generalizing n with
  | nil => rfl
  | cons v vs ih =>
    have hn : n + 1 + vs.length = n + (vs.length + 1) := by omega
    rw [List.cons_append, numbered, numbered, List.cons_append, ih, List.length_cons, hn]

theorem entries_eq (t : Table) : t.entries = numbered 0 t.array.toList ++ t.hash := by
  have h := map_zipIdx_eq_numbered 0 0 t.array.toList
  simp only [Nat.zero_add] at h
  rw [entries, h]

/-! ### The values at a key -/

/-- The values of the entries whose key equals `k`. -/
def valuesAt (k : Value) (l : List (Value × Value)) : List Value :=
  (l.filter fun e => e.1.equals k).map Prod.snd

variable {k q v : Value} {l m : List (Value × Value)}

@[simp] theorem valuesAt_nil : valuesAt q [] = [] := rfl

theorem valuesAt_cons : valuesAt q ((k, v) :: l) =
    if k.equals q then v :: valuesAt q l else valuesAt q l := by
  rw [valuesAt, List.filter_cons]
  split <;> rfl

theorem valuesAt_append : valuesAt q (l ++ m) = valuesAt q l ++ valuesAt q m := by
  rw [valuesAt, List.filter_append, List.map_append]
  rfl

theorem mem_valuesAt {e : Value × Value} (h : e ∈ l) (hk : e.1.equals q = true) :
    e.2 ∈ valuesAt q l :=
  List.mem_map.mpr ⟨e, List.mem_filter.mpr ⟨h, hk⟩, rfl⟩

theorem find?_eq_head? : find? q l = (valuesAt q l).head? := by
  induction l with
  | nil => rfl
  | cons e l ih =>
    obtain ⟨key, w⟩ := e
    rw [find?, valuesAt_cons]
    split
    · rfl
    · exact ih

theorem valuesAt_unbind : valuesAt q (unbind k l) =
    if k.equals q then (valuesAt q l).tail else valuesAt q l := by
  induction l with
  | nil => split <;> rfl
  | cons e l ih =>
    obtain ⟨key, w⟩ := e
    rw [unbind, valuesAt_cons]
    by_cases hk : key.equals k = true
    · rw [if_pos hk, Value.equals_congr hk q]
      split <;> rfl
    · rw [if_neg hk, valuesAt_cons, ih]
      by_cases hq : k.equals q = true
      · have hne : ¬ key.equals q = true := fun h =>
          hk (Value.equals_trans h (Value.equals_symm hq))
        rw [if_neg hne, if_neg hne]
      · rw [if_neg hq, if_neg hq]

theorem valuesAt_bind : valuesAt q (bind k v l) =
    if k.equals q then v :: (valuesAt q l).tail else valuesAt q l := by
  induction l with
  | nil => exact valuesAt_cons
  | cons e l ih =>
    obtain ⟨key, w⟩ := e
    rw [bind]
    by_cases hk : key.equals k = true
    · rw [if_pos hk, valuesAt_cons, valuesAt_cons, Value.equals_congr hk q]
      split <;> rfl
    · rw [if_neg hk, valuesAt_cons, valuesAt_cons, ih]
      by_cases hq : k.equals q = true
      · have hne : ¬ key.equals q = true := fun h =>
          hk (Value.equals_trans h (Value.equals_symm hq))
        rw [if_neg hne, if_neg hne]
      · rw [if_neg hq, if_neg hq]

/-- Binding entries one after the other only adds them, where that makes no key double. -/
theorem valuesAt_foldl_bind (h : (valuesAt q l ++ valuesAt q m).length ≤ 1) :
    valuesAt q (m.foldl (fun hash (k, v) => bind k v hash) l) = valuesAt q l ++ valuesAt q m := by
  induction m generalizing l with
  | nil => rw [List.foldl_nil, valuesAt_nil, List.append_nil]
  | cons e m ih =>
    obtain ⟨key, w⟩ := e
    rw [List.foldl_cons]
    rw [valuesAt_cons] at h ⊢
    by_cases hk : key.equals q = true
    · rw [if_pos hk] at h ⊢
      have hl : valuesAt q l = [] := List.eq_nil_of_length_eq_zero (by simp at h; omega)
      have hm : valuesAt q m = [] := List.eq_nil_of_length_eq_zero (by simp at h; omega)
      have hb : valuesAt q (bind key w l) = [w] := by rw [valuesAt_bind, if_pos hk, hl]; rfl
      rw [ih (by rw [hb, hm]; rfl), hb, hl, hm]
      rfl
    · rw [if_neg hk] at h ⊢
      have hb : valuesAt q (bind key w l) = valuesAt q l := by rw [valuesAt_bind, if_neg hk]
      rw [ih (by rw [hb]; exact h), hb]

/-! ### Reading -/

theorem valuesAt_numbered_of_not {n : Nat} {vs : List Value}
    (h : ∀ i, n ≤ i → i < n + vs.length → ¬ (Value.nat (i + 1)).equals q = true) :
    valuesAt q (numbered n vs) = [] := by
  induction vs generalizing n with
  | nil => rfl
  | cons v vs ih =>
    rw [numbered, valuesAt_cons, if_neg (h n (le_refl n) (by simp))]
    exact ih fun i hi hlt => h i (by omega) (by rw [List.length_cons]; omega)

theorem valuesAt_numbered {n i : Nat} {vs : List Value} (hi : i < vs.length)
    (hn : n + vs.length < 2 ^ 63) (h : (Value.nat (n + i + 1)).equals q = true) :
    valuesAt q (numbered n vs) = [vs[i]] := by
  induction vs generalizing n i with
  | nil => exact absurd hi (Nat.not_lt_zero i)
  | cons v vs ih =>
    rw [List.length_cons] at hi hn
    rw [numbered, valuesAt_cons]
    cases i with
    | zero =>
      rw [if_pos h, valuesAt_numbered_of_not]
      · rfl
      · intro j hj hlt hjq
        have := index_unique (by omega) (by omega) h hjq
        omega
    | succ i =>
      have hne : ¬ (Value.nat (n + 1)).equals q = true := by
        intro hnq
        have := index_unique (by omega) (by omega) h hnq
        omega
      rw [if_neg hne, ih (i := i) (by omega) (by omega) (by rw [← h]; congr 2; omega)]
      rfl

/-- An entry that a table can have: its key is neither nil nor a NaN, its value is not nil. -/
structure Proper (e : Value × Value) : Prop where
  notNil : e.1.isNil = false
  isKey : isKey e.1 = true
  value : e.2.isNil = false

/-- What tables are like when nothing but writes to an empty table made them. -/
structure Sound (t : Table) : Prop where
  size : t.array.size < 2 ^ 63
  single : ∀ q, (valuesAt q t.entries).length ≤ 1
  array : ∀ v ∈ t.array.toList, v.isNil = false
  hash : ∀ e ∈ t.hash, Proper e

variable {t t' : Table}

theorem valuesAt_entries : valuesAt q t.entries =
    valuesAt q (numbered 0 t.array.toList) ++ valuesAt q t.hash := by
  rw [entries_eq, valuesAt_append]

/-- Reading finds the value at the key. -/
theorem lookup_eq (hs : t.Sound) : t.lookup q = (valuesAt q t.entries).head?.getD .nil := by
  rw [lookup, valuesAt_entries]
  split
  case h_1 i hi =>
    obtain ⟨hlt, -, hq⟩ := arrayIndex?_eq_some_iff.mp hi
    have hsize := hs.size
    rw [valuesAt_numbered (n := 0) (i := i) (by simpa using hlt) (by simpa using hs.size)
      (by simpa using hq)]
    simp [Array.getD, hlt]
  case h_2 hnone =>
    have hsize := hs.size
    rw [valuesAt_numbered_of_not, List.nil_append, find?_eq_head?]
    intro i _ hlt hq
    have hlt' : i < t.array.size := by simpa using hlt
    rw [arrayIndex?_eq_some_iff.mpr ⟨hlt', by omega, hq⟩] at hnone
    cases hnone

/-! ### Entries after a write -/

theorem proper_numbered {n : Nat} {vs : List Value} (h : ∀ v ∈ vs, v.isNil = false) :
    ∀ e ∈ numbered n vs, Proper e := by
  induction vs generalizing n with
  | nil => exact fun e he => absurd he List.not_mem_nil
  | cons v vs ih =>
    intro e he
    rcases List.mem_cons.mp he with rfl | he
    · exact ⟨rfl, beq_self_eq_true _, h v List.mem_cons_self⟩
    · exact ih (fun w hw => h w (List.mem_cons_of_mem v hw)) e he

theorem mem_of_mem_unbind {e : Value × Value} (h : e ∈ unbind k l) : e ∈ l := by
  induction l with
  | nil => exact h
  | cons f l ih =>
    rw [unbind] at h
    split at h
    · exact List.mem_cons_of_mem f h
    · rcases List.mem_cons.mp h with rfl | h
      · exact List.mem_cons_self
      · exact List.mem_cons_of_mem f (ih h)

theorem proper_bind (hk : Proper (k, v)) (h : ∀ e ∈ l, Proper e) : ∀ e ∈ bind k v l, Proper e := by
  induction l with
  | nil => exact fun e he => List.mem_singleton.mp he ▸ hk
  | cons f l ih =>
    obtain ⟨key, w⟩ := f
    have hf := h _ List.mem_cons_self
    have hl := fun e he => h e (List.mem_cons_of_mem _ he)
    intro e he
    rw [bind] at he
    split at he
    · rcases List.mem_cons.mp he with rfl | he
      · exact ⟨hf.notNil, hf.isKey, hk.value⟩
      · exact hl e he
    · rcases List.mem_cons.mp he with rfl | he
      · exact hf
      · exact ih hl e he

theorem proper_foldl_bind (hm : ∀ e ∈ m, Proper e) (h : ∀ e ∈ l, Proper e) :
    ∀ e ∈ m.foldl (fun hash (k, v) => bind k v hash) l, Proper e := by
  induction m generalizing l with
  | nil => exact h
  | cons f m ih =>
    exact ih (fun e he => hm e (List.mem_cons_of_mem f he))
      (proper_bind (hm f List.mem_cons_self) h)

/-- The array part around an index. -/
theorem numbered_split {i : Nat} {vs : List Value} (hi : i < vs.length) :
    numbered 0 vs = numbered 0 (vs.take i) ++
      (.nat (i + 1), vs[i]) :: numbered (i + 1) (vs.drop (i + 1)) := by
  conv_lhs => rw [← List.take_append_drop i vs, List.drop_eq_getElem_cons hi]
  rw [numbered_append, List.length_take, Nat.min_eq_left hi.le, Nat.zero_add, numbered]

theorem numbered_set {i : Nat} {vs : List Value} (hi : i < vs.length) (v : Value) :
    numbered 0 (vs.set i v) = numbered 0 (vs.take i) ++
      (.nat (i + 1), v) :: numbered (i + 1) (vs.drop (i + 1)) := by
  rw [List.set_eq_take_append_cons_drop, if_pos hi, numbered_append, List.length_take,
    Nat.min_eq_left hi.le, Nat.zero_add, numbered]

/-- A table in which one key was written: its value is there alone, unless it is nil, and all
other keys have the values they had. -/
structure Written (t : Table) (k v : Value) (t' : Table) : Prop where
  size : t'.array.size < 2 ^ 63
  values : ∀ q, valuesAt q t'.entries =
    if k.equals q then v.notNil?.toList else valuesAt q t.entries
  array : ∀ v ∈ t'.array.toList, v.isNil = false
  hash : ∀ e ∈ t'.hash, Proper e

theorem Written.sound (h : Written t k v t') (hs : t.Sound) : t'.Sound := by
  refine ⟨h.size, fun q => ?_, h.array, h.hash⟩
  rw [h.values]
  split
  · cases v <;> simp [Value.notNil?]
  · exact hs.single q

theorem append_comm_of_length_le_one {a b : List Value} (h : (a ++ b).length ≤ 1) :
    a ++ b = b ++ a := by
  rw [List.length_append] at h
  rcases a with _ | ⟨v, a⟩
  · rw [List.append_nil, List.nil_append]
  · have hb : b = [] := List.eq_nil_of_length_eq_zero (by rw [List.length_cons] at h; omega)
    rw [hb, List.append_nil, List.nil_append]

/-- The values at a key, around an index of the array part. -/
theorem valuesAt_split {i : Nat} (hi : i < t.array.toList.length) :
    valuesAt q t.entries = valuesAt q (numbered 0 (t.array.toList.take i)) ++
      ((if (Value.nat (i + 1)).equals q then [t.array.toList[i]] else []) ++
        valuesAt q (numbered (i + 1) (t.array.toList.drop (i + 1))) ++ valuesAt q t.hash) := by
  rw [valuesAt_entries, numbered_split hi, valuesAt_append, valuesAt_cons, List.append_assoc]
  split <;> rfl

theorem cutAt_eq (t : Table) (i : Nat) : t.cutAt i = { t with
    array := t.array.take i
    hash := (numbered (i + 1) (t.array.toList.drop (i + 1))).foldl
      (fun hash (k, v) => bind k v hash) t.hash } := by
  have hmoved : (t.array.toList.drop (i + 1)).zipIdx.map
      (fun (v, j) => (Value.nat (i + j + 2), v)) =
        numbered (i + 1) (t.array.toList.drop (i + 1)) := by
    rw [← Nat.add_zero (i + 1), ← map_zipIdx_eq_numbered]
    refine List.map_congr_left fun ⟨w, j⟩ _ => ?_
    show (Value.nat (i + j + 2), w) = (Value.nat (i + 1 + j + 1), w)
    rw [show i + j + 2 = i + 1 + j + 1 by omega]
  rw [← hmoved]
  rfl

/-- A key of the array part has no other value. -/
theorem Sound.elsewhere (hs : t.Sound) {i : Nat} (hi : i < t.array.toList.length)
    (hq : (Value.nat (i + 1)).equals q = true) :
    valuesAt q (numbered 0 (t.array.toList.take i)) = [] ∧
      valuesAt q (numbered (i + 1) (t.array.toList.drop (i + 1))) = [] ∧
        valuesAt q t.hash = [] := by
  have hone := hs.single q
  rw [valuesAt_split hi, if_pos hq, List.length_append, List.length_append, List.length_append,
    List.length_singleton] at hone
  exact ⟨List.eq_nil_of_length_eq_zero (by omega), List.eq_nil_of_length_eq_zero (by omega),
    List.eq_nil_of_length_eq_zero (by omega)⟩

theorem toList_take (vs : Array Value) (i : Nat) : (vs.take i).toList = vs.toList.take i := by
  simp

/-- Cutting the array part removes the key it is cut at. -/
theorem Sound.cutAt (hs : t.Sound) {i : Nat} (hi : i < t.array.size)
    (hk : (Value.nat (i + 1)).equals k = true) : Written t k .nil (t.cutAt i) := by
  have hi' : i < t.array.toList.length := hi
  rw [cutAt_eq]
  refine ⟨?_, fun q => ?_, fun w hw => ?_, ?_⟩
  · show (t.array.take i).size < _
    rw [← Array.length_toList, toList_take, List.length_take]
    exact Nat.lt_of_le_of_lt (Nat.min_le_right _ _) hs.size
  · -- what stood above the cut is in the hash part now
    rw [valuesAt_entries, toList_take, ← Value.equals_congr hk q]
    by_cases hq : (Value.nat (i + 1)).equals q = true
    · obtain ⟨hbelow, habove, hhash⟩ := hs.elsewhere hi' hq
      rw [if_pos hq, valuesAt_foldl_bind (by rw [hhash, habove]; simp), hbelow, hhash, habove]
      rfl
    · have hone := hs.single q
      rw [valuesAt_split hi', if_neg hq, List.nil_append, List.length_append,
        List.length_append] at hone
      have hswap : valuesAt q t.hash ++ valuesAt q (numbered (i + 1) (t.array.toList.drop (i + 1)))
          = valuesAt q (numbered (i + 1) (t.array.toList.drop (i + 1))) ++ valuesAt q t.hash :=
        append_comm_of_length_le_one (by rw [List.length_append]; omega)
      rw [if_neg hq, valuesAt_split hi', if_neg hq, List.nil_append,
        valuesAt_foldl_bind (by rw [List.length_append]; omega), hswap]
  · rw [toList_take] at hw
    exact hs.array w (List.mem_of_mem_take hw)
  · exact proper_foldl_bind (proper_numbered fun w hw => hs.array w (List.mem_of_mem_drop hw))
      hs.hash

theorem notNil?_of_notNil (hv : v.isNil = false) : v.notNil?.toList = [v] := by
  cases v <;> first | rfl | cases hv

/-- A key of the array part gets its value in place. -/
theorem Sound.setIndex (hs : t.Sound) {i : Nat} (hi : i < t.array.size)
    (hk : (Value.nat (i + 1)).equals k = true) (hv : v.isNil = false) :
    Written t k v { t with array := t.array.setIfInBounds i v } := by
  have hi' : i < t.array.toList.length := hi
  refine ⟨?_, fun q => ?_, fun w hw => ?_, hs.hash⟩
  · show (t.array.setIfInBounds i v).size < _
    rw [Array.size_setIfInBounds]
    exact hs.size
  · rw [valuesAt_entries, Array.toList_setIfInBounds, numbered_set hi', valuesAt_append,
      valuesAt_cons, ← Value.equals_congr hk q]
    by_cases hq : (Value.nat (i + 1)).equals q = true
    · obtain ⟨hbelow, habove, hhash⟩ := hs.elsewhere hi' hq
      rw [if_pos hq, if_pos hq, hbelow, habove, hhash, notNil?_of_notNil hv]
      rfl
    · rw [if_neg hq, if_neg hq, valuesAt_split hi', if_neg hq, List.nil_append, List.append_assoc]
  · rw [Array.toList_setIfInBounds] at hw
    rcases List.mem_or_eq_of_mem_set hw with hw | rfl
    · exact hs.array w hw
    · exact hv

/-- A key that the array part does not hold. -/
def Outside (t : Table) (k : Value) : Prop :=
  ∀ q, k.equals q = true → valuesAt q (numbered 0 t.array.toList) = []

theorem Sound.tail_hash (hs : t.Sound) (ho : t.Outside k) (hq : k.equals q = true) :
    (valuesAt q t.hash).tail = [] := by
  have hone := hs.single q
  rw [valuesAt_entries, ho q hq, List.nil_append] at hone
  exact List.eq_nil_of_length_eq_zero (by rw [List.length_tail]; omega)

theorem Sound.unbindHash (hs : t.Sound) (ho : t.Outside k) :
    Written t k .nil { t with hash := unbind k t.hash } := by
  refine ⟨hs.size, fun q => ?_, hs.array, fun e he => hs.hash e (mem_of_mem_unbind he)⟩
  rw [valuesAt_entries, valuesAt_entries, valuesAt_unbind]
  by_cases hq : k.equals q = true
  · rw [if_pos hq, if_pos hq, ho q hq, List.nil_append, hs.tail_hash ho hq]
    rfl
  · rw [if_neg hq, if_neg hq]

theorem Sound.bindHash (hs : t.Sound) (ho : t.Outside k) (hp : Proper (k, v)) :
    Written t k v { t with hash := bind k v t.hash } := by
  refine ⟨hs.size, fun q => ?_, hs.array, proper_bind hp hs.hash⟩
  rw [valuesAt_entries, valuesAt_entries, valuesAt_bind]
  by_cases hq : k.equals q = true
  · rw [if_pos hq, if_pos hq, ho q hq, List.nil_append, hs.tail_hash ho hq,
      notNil?_of_notNil hp.value]
  · rw [if_neg hq, if_neg hq]

/-- The key after the array part is outside. -/
theorem Sound.outside_next (hlt : t.array.size + 1 < 2 ^ 63)
    (hk : (Value.nat (t.array.size + 1)).equals k = true) : t.Outside k := by
  intro q hq
  refine valuesAt_numbered_of_not fun i _ hi h => ?_
  rw [Nat.zero_add, Array.length_toList] at hi
  have := index_unique (by omega) hlt h (Value.equals_trans hk hq)
  omega

/-- Appending to the array part, with the key taken out of the hash part. -/
theorem Sound.append (hs : t.Sound) (hlt : t.array.size + 1 < 2 ^ 63)
    (hk : (Value.nat (t.array.size + 1)).equals k = true) (hv : v.isNil = false) :
    Written t k v { t with array := t.array.push v, hash := unbind k t.hash } := by
  have ho := Sound.outside_next hlt hk
  have hpush : numbered 0 (t.array.push v).toList =
      numbered 0 t.array.toList ++ [(.nat (t.array.size + 1), v)] := by
    rw [Array.toList_push, numbered_append, Nat.zero_add, Array.length_toList]
    rfl
  refine ⟨?_, fun q => ?_, fun w hw => ?_, fun e he => hs.hash e (mem_of_mem_unbind he)⟩
  · show (t.array.push v).size < _
    rw [Array.size_push]
    exact hlt
  · rw [valuesAt_entries, valuesAt_entries, hpush, valuesAt_append, valuesAt_cons, valuesAt_nil,
      valuesAt_unbind, Value.equals_congr hk q]
    by_cases hq : k.equals q = true
    · rw [if_pos hq, if_pos hq, if_pos hq, ho q hq, hs.tail_hash ho hq, notNil?_of_notNil hv]
      rfl
    · rw [if_neg hq, if_neg hq, if_neg hq, List.append_nil]
  · rw [Array.toList_push, List.mem_append, List.mem_singleton] at hw
    rcases hw with hw | rfl
    · exact hs.array w hw
    · exact hv

/-! ### Writing -/

theorem valuesAt_congr (h : k.equals q = true) : valuesAt k l = valuesAt q l := by
  rw [valuesAt, valuesAt]
  congr 2
  funext e
  rw [Value.equals_comm, Value.equals_congr h, Value.equals_comm]

theorem keyAfter?_eq_some_iff {n : Nat} :
    keyAfter? n = some k ↔ n + 1 < 2 ^ 63 ∧ .nat (n + 1) = k := by
  rw [keyAfter?, Option.ite_none_right_eq_some, Option.some.injEq, Nat.shiftLeft_eq, Nat.one_mul]

theorem mem_of_find? (h : find? k l = some v) : ∃ key, (key, v) ∈ l := by
  induction l with
  | nil => cases h
  | cons e l ih =>
    obtain ⟨key, w⟩ := e
    rw [find?] at h
    split at h
    · obtain rfl := Option.some.inj h
      exact ⟨key, List.mem_cons_self⟩
    · obtain ⟨key', hmem⟩ := ih h
      exact ⟨key', List.mem_cons_of_mem _ hmem⟩

/-- Moving a key from the hash part to the array part changes no value. -/
theorem Sound.absorb (hs : t.Sound) (fuel : Nat) :
    (Table.absorb fuel t).Sound ∧
      ∀ q, valuesAt q (Table.absorb fuel t).entries = valuesAt q t.entries := by
  induction fuel generalizing t with
  | zero => exact ⟨hs, fun _ => rfl⟩
  | succ fuel ih =>
    rw [Table.absorb]
    split
    case h_2 => exact ⟨hs, fun _ => rfl⟩
    case h_1 k hnext =>
      split
      case h_2 => exact ⟨hs, fun _ => rfl⟩
      case h_1 w hw =>
        obtain ⟨hlt, rfl⟩ := keyAfter?_eq_some_iff.mp hnext
        have hkey := nat_equals_self (t.array.size + 1)
        obtain ⟨key, hmem⟩ := mem_of_find? hw
        have hstep := hs.append hlt hkey (hs.hash _ hmem).value
        obtain ⟨hsound, hvalues⟩ := ih (hstep.sound hs)
        refine ⟨hsound, fun q => ?_⟩
        rw [hvalues, hstep.values]
        split
        case isFalse => rfl
        case isTrue hq =>
          -- the hash part had the value before, and it was the only one
          have ho := Sound.outside_next hlt hkey
          have hhead := find?_eq_head?.symm.trans hw
          rw [valuesAt_congr hq] at hhead
          obtain ⟨rest, hrest⟩ := List.head?_eq_some_iff.mp hhead
          have htail := hs.tail_hash ho hq
          rw [hrest, List.tail_cons] at htail
          rw [valuesAt_entries, ho q hq, List.nil_append, notNil?_of_notNil (hs.hash _ hmem).value,
            hrest, htail]

/-- Writing replaces the value at the key, and none at any other key. -/
theorem Sound.assign (hs : t.Sound) (hn : k.isNil = false) (hk : isKey k = true) (v : Value) :
    Written t k v (t.assign k v) := by
  have hnil : v.isNil = true → v = .nil := by cases v <;> first | exact fun _ => rfl | nofun
  rw [Table.assign]
  split
  case h_1 i hi =>
    obtain ⟨hile, hlt, hki⟩ := arrayIndex?_eq_some_iff.mp hi
    by_cases hi : i < t.array.size
    · rw [if_pos hi]
      by_cases hv : v.isNil = true
      · rw [if_pos hv, hnil hv]
        exact hs.cutAt hi hki
      · rw [if_neg hv]
        exact hs.setIndex hi hki (Bool.eq_false_iff.mpr hv)
    · obtain rfl : i = t.array.size := by omega
      rw [if_neg hi]
      by_cases hv : v.isNil = true
      · rw [if_pos hv, hnil hv]
        exact hs.unbindHash (Sound.outside_next hlt hki)
      · rw [if_neg hv]
        have hstep := hs.append hlt hki (Bool.eq_false_iff.mpr hv)
        obtain ⟨hsound, hvalues⟩ := (hstep.sound hs).absorb (unbind k t.hash).length
        exact ⟨hsound.size, fun q => (hvalues q).trans (hstep.values q), hsound.array,
          hsound.hash⟩
  case h_2 hnone =>
    have ho : t.Outside k := by
      intro q hq
      refine valuesAt_numbered_of_not fun i _ hi h => ?_
      rw [Nat.zero_add, Array.length_toList] at hi
      have hsize := hs.size
      have hki := Value.equals_trans h (Value.equals_symm hq)
      rw [arrayIndex?_eq_some_iff.mpr ⟨by omega, by omega, hki⟩] at hnone
      cases hnone
    by_cases hv : v.isNil = true
    · rw [if_pos hv, hnil hv]
      exact hs.unbindHash ho
    · rw [if_neg hv]
      exact hs.bindHash ho ⟨hn, hk, Bool.eq_false_iff.mpr hv⟩

/-! ### Sequences of writes -/

/-- Whether a key can be written. -/
def isWritable (k : Value) : Bool := !k.isNil && isKey k

/-- The table after a write; one that fails leaves it as it is. -/
def write (t : Table) (op : Value × Value) : Table :=
  match t.set op.1 op.2 with
  | .ok t' => t'
  | .error _ => t

/-- The table after a sequence of writes. -/
def writeAll (t : Table) (ops : List (Value × Value)) : Table := ops.foldl write t

/-- The value of the last write with a key that can be written and equals `k`, nil if there is
none. -/
def latest (k : Value) (ops : List (Value × Value)) : Value :=
  ((ops.filter fun op => isWritable op.1 && op.1.equals k).getLast?.map Prod.snd).getD .nil

theorem writeAll_append (ops : List (Value × Value)) (op : Value × Value) :
    t.writeAll (ops ++ [op]) = (t.writeAll ops).write op := by
  rw [writeAll, List.foldl_append]
  rfl

theorem latest_append (ops : List (Value × Value)) (key v : Value) :
    latest q (ops ++ [(key, v)]) =
      if isWritable key && key.equals q then v else latest q ops := by
  rw [latest, List.filter_append, List.filter_cons, List.filter_nil]
  split
  · simp
  · rw [List.append_nil]
    rfl

theorem normalizeKey_equals (key q : Value) : (normalizeKey key).equals q = key.equals q := by
  unfold normalizeKey
  split
  case h_1 n =>
    split
    case h_1 i hi =>
      have h : (Value.int i).equals (.number n) = true := Number.int_equals_iff.mpr hi
      exact Value.equals_congr h q
    case h_2 => rfl
  case h_2 => rfl

theorem isKey_normalizeKey (key : Value) : isKey (normalizeKey key) = isKey key := by
  rw [isKey, normalizeKey_equals, Value.equals_comm, normalizeKey_equals]
  rfl

theorem isNil_normalizeKey (key : Value) : (normalizeKey key).isNil = key.isNil := by
  unfold normalizeKey
  split
  case h_1 n => split <;> rfl
  case h_2 => rfl

theorem isNil_iff {key : Value} : key.isNil = true ↔ key = .nil := by
  cases key <;> simp [Value.isNil]

theorem isKey_iff {key : Value} : isKey key = true ↔ ¬ key.IsNaN := Value.equals_self_iff

/-- What a write does is decided by its key alone. -/
theorem set_eq (key v : Value) : t.set key v =
    if key.isNil then .error .keyIsNil
    else if isKey key then .ok (t.assign (normalizeKey key) v)
    else .error .keyIsNaN := by
  rw [← isNil_normalizeKey, ← isKey_normalizeKey]
  rfl

/-- A write fails for nil and for a NaN, and for no other key. -/
theorem set_eq_error_iff {key v : Value} {e : ArgumentError} : t.set key v = .error e ↔
    key = .nil ∧ e = .keyIsNil ∨ key.IsNaN ∧ e = .keyIsNaN := by
  have hnan : key.IsNaN → key ≠ .nil := by
    rintro ⟨x, rfl, -⟩
    exact nofun
  rw [set_eq]
  by_cases hn : key = .nil
  · rw [if_pos (isNil_iff.mpr hn), Except.error.injEq]
    exact ⟨fun he => Or.inl ⟨hn, he.symm⟩,
      fun h => h.elim (fun h => h.2.symm) fun h => absurd hn (hnan h.1)⟩
  rw [if_neg (mt isNil_iff.mp hn)]
  by_cases hk : key.IsNaN
  · rw [if_neg fun h => isKey_iff.mp h hk, Except.error.injEq]
    exact ⟨fun he => Or.inr ⟨hk, he.symm⟩,
      fun h => h.elim (fun h => absurd h.1 hn) fun h => h.2.symm⟩
  · rw [if_pos (isKey_iff.mpr hk)]
    exact ⟨nofun, fun h => h.elim (fun h => absurd h.1 hn) fun h => absurd h.1 hk⟩

theorem write_eq (key v : Value) : t.write (key, v) =
    if isWritable key then t.assign (normalizeKey key) v else t := by
  rw [write, set_eq, isWritable]
  cases key.isNil <;> cases isKey key <;> rfl

/-- One write changes the values at its key, if it succeeds. -/
theorem Sound.write (hs : t.Sound) (key v : Value) :
    (t.write (key, v)).Sound ∧ ∀ q, valuesAt q (t.write (key, v)).entries =
      if isWritable key && key.equals q then v.notNil?.toList else valuesAt q t.entries := by
  rw [write_eq]
  by_cases hw : isWritable key = true
  · obtain ⟨hnil, hkey⟩ := Bool.and_eq_true_iff.mp hw
    have hn : (normalizeKey key).isNil = false := by
      rw [isNil_normalizeKey]
      exact Bool.not_inj hnil
    have hstep := hs.assign hn ((isKey_normalizeKey key).trans hkey) v
    rw [if_pos hw]
    refine ⟨hstep.sound hs, fun q => ?_⟩
    rw [hw, Bool.true_and]
    exact (hstep.values q).trans (by rw [normalizeKey_equals])
  · rw [if_neg hw]
    refine ⟨hs, fun q => ?_⟩
    rw [Bool.eq_false_iff.mpr hw, Bool.false_and]
    rfl

theorem sound_empty : empty.Sound where
  size := Nat.two_pow_pos 63
  single _ := Nat.zero_le 1
  array _ h := absurd h List.not_mem_nil
  hash _ h := absurd h List.not_mem_nil

/-- After a sequence of writes, the value at a key is that of the last one. -/
theorem sound_writeAll (ops : List (Value × Value)) :
    (empty.writeAll ops).Sound ∧
      ∀ q, valuesAt q (empty.writeAll ops).entries = (latest q ops).notNil?.toList := by
  induction ops using List.reverseRecOn with
  | nil => exact ⟨sound_empty, fun _ => rfl⟩
  | append_singleton ops op ih =>
    obtain ⟨key, v⟩ := op
    obtain ⟨hsound, hvalues⟩ := ih.1.write key v
    rw [writeAll_append]
    refine ⟨hsound, fun q => ?_⟩
    rw [hvalues, latest_append]
    split
    · rfl
    · exact ih.2 q

/-! ### The finite map -/

/-- A table that holds what a sequence of writes to an empty table left. -/
structure FiniteMap (t : Table) (ops : List (Value × Value)) : Prop where
  /-- Reading finds the value of the last write. -/
  read : ∀ k, k ≠ .nil → ¬ k.IsNaN → t.get k = .ok (latest k ops)
  /-- The next write fails exactly for nil and for a NaN. -/
  refused : ∀ k v e, t.set k v = .error e ↔
    k = .nil ∧ e = .keyIsNil ∨ k.IsNaN ∧ e = .keyIsNaN
  /-- A write that fails changes nothing. -/
  unchanged : ∀ k v, k = .nil ∨ k.IsNaN → empty.writeAll (ops ++ [(k, v)]) = t
  /-- A present key is listed once, with its value, and an absent key is not listed. -/
  listed : ∀ k, k ≠ .nil → ¬ k.IsNaN →
    valuesAt k t.entries = if latest k ops = .nil then [] else [latest k ops]
  /-- Nothing else is listed. -/
  entries : ∀ e ∈ t.entries, e.1 ≠ .nil ∧ ¬ e.1.IsNaN ∧ e.2 ≠ .nil

/-- **A table is a finite map.**  After any sequence of writes to an empty table, with any
keys and values, it is the map from keys, up to equality, to the values written last. -/
theorem writeAll_finiteMap (ops : List (Value × Value)) :
    FiniteMap (empty.writeAll ops) ops := by
  obtain ⟨hsound, hvalues⟩ := sound_writeAll ops
  refine ⟨fun k _ hk => ?_, fun k v e => set_eq_error_iff, fun k v hk => ?_, fun k _ _ => ?_,
    fun e he => ?_⟩
  · have hhead : ∀ v : Value, v.notNil?.toList.head?.getD .nil = v := by rintro ⟨⟩ <;> rfl
    rw [get, if_pos (isKey_iff.mpr hk), lookup_eq hsound, hvalues, hhead]
  · have hw : ¬ isWritable k = true := by
      rw [isWritable, Bool.and_eq_true, isKey_iff, Bool.not_eq_true', Bool.eq_false_iff, Ne,
        isNil_iff]
      exact fun h => hk.elim h.1 h.2
    rw [writeAll_append, write_eq, if_neg hw]
  · rw [hvalues]
    split
    case isTrue hnil => rw [hnil]; rfl
    case isFalse hnil => exact notNil?_of_notNil (Bool.eq_false_iff.mpr (mt isNil_iff.mp hnil))
  · have hproper : Proper e := by
      rw [entries_eq, List.mem_append] at he
      exact he.elim (proper_numbered hsound.array e) (hsound.hash e)
    exact ⟨fun h => Bool.false_ne_true (hproper.notNil.symm.trans (isNil_iff.mpr h)),
      isKey_iff.mp hproper.isKey,
      fun h => Bool.false_ne_true (hproper.value.symm.trans (isNil_iff.mpr h))⟩

end Table

end Lua
