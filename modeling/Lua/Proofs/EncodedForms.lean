/-
Codes and their encoded forms.

Writing and reading a code are inverse: what is written is read back, whatever follows it, and
what is read is exactly what would have been written.

* `Utf8.form` — the bytes of a code with a given number of continuation bytes;
* `Utf8.encode_eq_form` — the loop that writes ends when the room in the first byte suffices, so it
  gives the form with as many continuation bytes as the code needs;
* `Utf8.readLead_eq_some_iff` — what a first byte announces;
* `Utf8.readContinuations_append`, `Utf8.eq_append_of_readContinuations` — continuation bytes carry
  the last groups of six bits of a code, and nothing else is read from them;
* `Utf8.readForm_eq` — the loop that reads makes a round for each continuation byte announced;
* `Utf8.decode_cons` — reading takes these bytes, and the least codes refuse what is no shortest
  form;
* `Utf8.decode_eq_some_iff` — a code is read exactly where its encoded form stands;
* `Utf8.decode_inverse` — both directions, and the forms that are refused.

Design notes: the bits of a code are kept apart by division, `code / 64 ^ n` being what the first
byte carries when `n` continuation bytes follow.  What the loops do with machine words in a round is
stated for one round; facts about the first byte alone are checked for all bytes.
-/
import Lua.Text.Utf8
import Mathlib.Algebra.Order.Group.Nat
import Mathlib.Tactic.Ring

namespace Lua.Utf8

/-! ### Forms -/

/-- How many continuation bytes follow the first byte of a code. -/
def continuationCount (code : Nat) : Nat :=
  if code < 0x80 then 0
  else if code < 0x800 then 1
  else if code < 0x10000 then 2
  else if code < 0x200000 then 3
  else if code < 0x4000000 then 4
  else 5

/-- The marker bits of a first byte that `n` continuation bytes follow. -/
def leadMarker : Nat → Nat
  | 0 => 0
  | 1 => 0xC0
  | 2 => 0xE0
  | 3 => 0xF0
  | 4 => 0xF8
  | _ => 0xFC

/-- The last `n` groups of six bits of `code`, most significant first, as continuation bytes. -/
def continuationBytes (code : Nat) : Nat → Bytes
  | 0 => []
  | n + 1 => UInt8.ofNat (0x80 + (code >>> (6 * n)) % 64) :: continuationBytes code n

/-- The bytes of a code with `n` continuation bytes, needed or not. -/
def form (n code : Nat) : Bytes :=
  UInt8.ofNat (leadMarker n + (code >>> (6 * n))) :: continuationBytes code n

/-- How many values a first byte has room for when `n` continuation bytes follow. -/
def leadRoom : Nat → Nat
  | 0 => 0x80
  | 1 => 0x20
  | 2 => 0x10
  | 3 => 0x08
  | 4 => 0x04
  | _ => 0x02

theorem length_continuationBytes (code n : Nat) : (continuationBytes code n).length = n := by
  induction n with
  | zero => rfl
  | succ n ih => exact congrArg (· + 1) ih

theorem length_form (n code : Nat) : (form n code).length = n + 1 :=
  congrArg (· + 1) (length_continuationBytes code n)

theorem continuationCount_le (code : Nat) : continuationCount code ≤ 5 := by
  unfold continuationCount
  split_ifs <;> decide

/-- A code has a form with `n` continuation bytes if it needs no more of them. -/
theorem div_lt_leadRoom_iff {code n : Nat} (hc : code ≤ maxCode) (hn : n ≤ 5) :
    code / 64 ^ n < leadRoom n ↔ continuationCount code ≤ n := by
  have hmax : code ≤ 0x7FFFFFFF := hc
  rw [Nat.div_lt_iff_lt_mul (Nat.pow_pos (by decide)), continuationCount]
  obtain rfl | rfl | rfl | rfl | rfl | rfl :
    n = 0 ∨ n = 1 ∨ n = 2 ∨ n = 3 ∨ n = 4 ∨ n = 5 := by omega
  all_goals
    simp only [leadRoom]
    grind

theorem div_lt_leadRoom {code n : Nat} (hc : code ≤ maxCode) (hn : n ≤ 5)
    (h : continuationCount code ≤ n) : code / 64 ^ n < leadRoom n :=
  (div_lt_leadRoom_iff hc hn).mpr h

/-- No code above the greatest one has a form. -/
theorem le_maxCode_of_div_lt {code n : Nat} (hn : n ≤ 5) (h : code / 64 ^ n < leadRoom n) :
    code ≤ maxCode := by
  show code ≤ 0x7FFFFFFF
  obtain rfl | rfl | rfl | rfl | rfl | rfl :
    n = 0 ∨ n = 1 ∨ n = 2 ∨ n = 3 ∨ n = 4 ∨ n = 5 := by omega
  all_goals
    simp only [leadRoom] at h
    omega

theorem shiftRight_groups (code n : Nat) : code >>> (6 * n) = code / 64 ^ n := by
  rw [Nat.shiftRight_eq_div_pow, pow_mul]
  rfl

/-! ### The loop that writes -/

/-- The greatest number that the first byte has room for behind `k` continuation bytes. -/
def room (k : Nat) : UInt32 := 0x3F >>> UInt32.ofNat k

theorem room_succ {k : Nat} (hk : k < 5) : room k >>> 1 = room (k + 1) := by
  revert k
  decide

theorem toNat_room {n : Nat} (hpos : 0 < n) (hn : n ≤ 5) : (room n).toNat + 1 = leadRoom n := by
  have hall : ∀ n < 6, 0 < n → (room n).toNat + 1 = leadRoom n := by decide
  exact hall n (by omega) hpos

/-- The complement of the room, shifted by a bit, is the marker of the first byte. -/
theorem lead_eq {n payload : Nat} (hpos : 0 < n) (hn : n ≤ 5) (h : payload < leadRoom n) :
    (~~~room n <<< 1 ||| UInt32.ofNat payload).toUInt8 = UInt8.ofNat (leadMarker n + payload) := by
  have hall : ∀ n < 6, 0 < n → ∀ payload < leadRoom n,
      (~~~room n <<< 1 ||| UInt32.ofNat payload).toUInt8 =
        UInt8.ofNat (leadMarker n + payload) := by decide
  exact hall n (by omega) hpos payload h

theorem toNat_ofNat_of_le {code : Nat} (hc : code ≤ maxCode) : (UInt32.ofNat code).toNat = code :=
  UInt32.toNat_ofNat_of_lt' (Nat.lt_of_le_of_lt hc (by decide))

/-- The last six bits of a number, as a continuation byte. -/
theorem group_eq {code : Nat} (hc : code ≤ maxCode) :
    0x80 ||| (UInt32.ofNat code &&& 0x3F).toUInt8 = UInt8.ofNat (0x80 + code % 64) := by
  have hgroups : ∀ group < 64, 0x80 ||| UInt8.ofNat group = UInt8.ofNat (0x80 + group) := by
    decide
  have hlow : (UInt32.ofNat code &&& 0x3F).toNat = code % 64 := by
    rw [UInt32.toNat_and, toNat_ofNat_of_le hc]
    exact Nat.and_two_pow_sub_one_eq_mod code 6
  rw [← hgroups _ (Nat.mod_lt _ (by decide)), ← hlow]
  rfl

theorem ofNat_shiftRight {code : Nat} (hc : code ≤ maxCode) :
    UInt32.ofNat code >>> 6 = UInt32.ofNat (code / 64) := by
  have hle : code / 64 ≤ maxCode := Nat.le_trans (Nat.div_le_self ..) hc
  apply UInt32.toNat_inj.mp
  rw [UInt32.toNat_shiftRight, toNat_ofNat_of_le hc, toNat_ofNat_of_le hle]
  exact Nat.shiftRight_eq_div_pow code 6

/-- Behind `k` continuation bytes, the loop writes the others and the first byte. -/
theorem encodeBefore_eq {code : Nat} (hc : code ≤ maxCode) {k : Nat}
    (hk : k < continuationCount code) :
    encodeBefore (UInt32.ofNat (code / 64 ^ k)) (room k) (continuationBytes code k) =
      form (continuationCount code) code := by
  have hle := continuationCount_le code
  have hleft : ∀ k, code / 64 ^ k ≤ maxCode := fun k => Nat.le_trans (Nat.div_le_self ..) hc
  -- the continuation byte of this round, and what is left
  have hbyte : 0x80 ||| (UInt32.ofNat (code / 64 ^ k) &&& 0x3F).toUInt8 =
      UInt8.ofNat (0x80 + (code >>> (6 * k)) % 64) := by
    rw [group_eq (hleft k), shiftRight_groups]
  have hnext : UInt32.ofNat (code / 64 ^ k) >>> 6 = UInt32.ofNat (code / 64 ^ (k + 1)) := by
    rw [ofNat_shiftRight (hleft k), Nat.div_div_eq_div_mul, ← pow_succ]
  have hfits : UInt32.ofNat (code / 64 ^ (k + 1)) ≤ room (k + 1) ↔
      continuationCount code ≤ k + 1 := by
    have hroom := toNat_room (Nat.succ_pos k) (by omega)
    rw [UInt32.le_iff_toNat_le, toNat_ofNat_of_le (hleft _), ← Nat.lt_succ_iff,
      Nat.succ_eq_add_one, hroom, div_lt_leadRoom_iff hc (by omega)]
  rw [encodeBefore, hbyte, hnext, room_succ (by omega)]
  by_cases hlast : continuationCount code ≤ k + 1
  · have hcount : continuationCount code = k + 1 := by omega
    have hlt := div_lt_leadRoom hc hle (Nat.le_refl _)
    rw [hcount] at hlt
    rw [if_pos (hfits.mpr hlast), hcount, lead_eq (Nat.succ_pos k) (by omega) hlt, form,
      continuationBytes, shiftRight_groups code (k + 1)]
  · rw [if_neg (mt hfits.mp hlast)]
    exact encodeBefore_eq hc (by omega)
termination_by continuationCount code - k

/-- The loop writes the form with as many continuation bytes as the code needs. -/
theorem encode_eq_form {code : Nat} (hc : code ≤ maxCode) :
    encode code = form (continuationCount code) code := by
  have hsmall : UInt32.ofNat code < 0x80 ↔ code < 0x80 := by
    rw [UInt32.lt_iff_toNat_lt, toNat_ofNat_of_le hc]
    rfl
  rw [encode]
  by_cases h : code < 0x80
  · have hcount : continuationCount code = 0 := if_pos h
    have hbyte : (UInt32.ofNat code).toUInt8 = UInt8.ofNat code := by
      apply UInt8.toNat_inj.mp
      rw [UInt32.toNat_toUInt8, toNat_ofNat_of_le hc, UInt8.toNat_ofNat']
    rw [if_pos (hsmall.mpr h), hcount, form, hbyte]
    rw [show leadMarker 0 + code >>> (6 * 0) = code from Nat.zero_add code]
    rfl
  · have hcount : 0 < continuationCount code := by
      unfold continuationCount
      split_ifs <;> omega
    have hloop := encodeBefore_eq hc hcount
    rw [pow_zero, Nat.div_one] at hloop
    rw [if_neg (mt hsmall.mp h)]
    exact hloop

/-! ### First bytes -/

/-- How many continuation bytes a first byte announces, and the bits of the code that it carries. -/
def readLead (b : UInt8) : Option (Nat × Nat) :=
  let n := b.toNat
  if n < 0x80 then some (0, n)
  else if n < 0xC0 then none
  else if n < 0xE0 then some (1, n - 0xC0)
  else if n < 0xF0 then some (2, n - 0xE0)
  else if n < 0xF8 then some (3, n - 0xF0)
  else if n < 0xFC then some (4, n - 0xF8)
  else if n < 0xFE then some (5, n - 0xFC)
  else none

/-- What a first byte announces: how many continuation bytes follow, and the bits it carries. -/
theorem readLead_eq_some_iff {b : UInt8} {n payload : Nat} : readLead b = some (n, payload) ↔
    n ≤ 5 ∧ payload < leadRoom n ∧ b.toNat = leadMarker n + payload := by
  have hlt : b.toNat < 256 := b.toNat_lt
  rw [readLead]
  constructor
  · intro h
    grind [leadRoom, leadMarker]
  · rintro ⟨hn, hroom, hb⟩
    obtain rfl | rfl | rfl | rfl | rfl | rfl :
      n = 0 ∨ n = 1 ∨ n = 2 ∨ n = 3 ∨ n = 4 ∨ n = 5 := by omega
    all_goals
      simp only [leadRoom] at hroom
      simp only [leadMarker] at hb
      grind

theorem leadMarker_add_lt {n payload : Nat} (hn : n ≤ 5) (h : payload < leadRoom n) :
    leadMarker n + payload < 256 := by
  obtain rfl | rfl | rfl | rfl | rfl | rfl :
    n = 0 ∨ n = 1 ∨ n = 2 ∨ n = 3 ∨ n = 4 ∨ n = 5 := by omega
  all_goals
    simp only [leadRoom] at h
    simp only [leadMarker]
    omega

/-- The first byte of a form announces the rest of it. -/
theorem readLead_form {n code : Nat} (hn : n ≤ 5) (h : code / 64 ^ n < leadRoom n) :
    readLead (UInt8.ofNat (leadMarker n + (code >>> (6 * n)))) = some (n, code / 64 ^ n) := by
  have hlt := leadMarker_add_lt hn h
  refine readLead_eq_some_iff.mpr ⟨hn, h, ?_⟩
  rw [shiftRight_groups, UInt8.toNat_ofNat', Nat.mod_eq_of_lt hlt]

/-! ### Continuation bytes -/

/-- Puts the bits of the next `n` bytes, which must be continuation bytes, behind those of a
code. -/
def readContinuations : Nat → Nat → Bytes → Option Nat
  | 0, code, _ => some code
  | _ + 1, _, [] => none
  | n + 1, code, b :: rest =>
    if isContinuation b then readContinuations n (code * 64 + (b.toNat - 0x80)) rest else none

theorem isContinuation_iff : ∀ b : UInt8,
    isContinuation b = true ↔ 0x80 ≤ b.toNat ∧ b.toNat < 0xC0 :=
  Ascii.forall_byte (by decide)

theorem toNat_continuation {group : Nat} (h : group < 64) :
    (UInt8.ofNat (0x80 + group)).toNat = 0x80 + group := by
  rw [UInt8.toNat_ofNat', Nat.mod_eq_of_lt (by omega)]

theorem isContinuation_group {group : Nat} (h : group < 64) :
    isContinuation (UInt8.ofNat (0x80 + group)) = true := by
  rw [isContinuation_iff, toNat_continuation h]
  omega

/-- Continuation bytes are read as the groups of bits they were written for. -/
theorem readContinuations_append (code n payload : Nat) (r : Bytes) :
    readContinuations n payload (continuationBytes code n ++ r)
      = some (payload * 64 ^ n + code % 64 ^ n) := by
  induction n generalizing payload with
  | zero => simp [readContinuations, Nat.mod_one]
  | succ n ih =>
    have hgroup : (code >>> (6 * n)) % 64 < 64 := Nat.mod_lt _ (by decide)
    have hsplit : code % 64 ^ (n + 1) = code % 64 ^ n + 64 ^ n * (code / 64 ^ n % 64) := by
      rw [pow_succ, Nat.mod_mul]
    rw [continuationBytes, List.cons_append, readContinuations,
      if_pos (isContinuation_group hgroup), toNat_continuation hgroup, Nat.add_sub_cancel_left, ih,
      shiftRight_groups, hsplit]
    congr 1
    ring

/-- What was read from continuation bytes is what they are written for. -/
theorem eq_append_of_readContinuations {n payload code : Nat} {s : Bytes}
    (h : readContinuations n payload s = some code) :
    code / 64 ^ n = payload ∧ ∃ r, s = continuationBytes code n ++ r := by
  induction n generalizing payload s with
  | zero =>
    rw [readContinuations, Option.some.injEq] at h
    subst h
    exact ⟨by rw [pow_zero, Nat.div_one], s, rfl⟩
  | succ n ih =>
    cases s with
    | nil => cases h
    | cons b s =>
      rw [readContinuations] at h
      split at h
      case isFalse => cases h
      case isTrue hb =>
        rw [isContinuation_iff] at hb
        obtain ⟨hdiv, r, rfl⟩ := ih h
        have hpayload : code / 64 ^ (n + 1) = payload := by
          rw [pow_succ, ← Nat.div_div_eq_div_mul, hdiv]
          omega
        have hbyte : UInt8.ofNat (0x80 + (code >>> (6 * n)) % 64) = b := by
          apply UInt8.toNat_inj.mp
          rw [toNat_continuation (Nat.mod_lt _ (by decide)), shiftRight_groups, hdiv]
          omega
        refine ⟨hpayload, r, ?_⟩
        rw [continuationBytes, hbyte, List.cons_append]

/-- Continuation bytes of which the last are missing are not read. -/
theorem readContinuations_cut {code n k payload : Nat} {r : Bytes} (hk : k < n)
    (hr : ∀ b ∈ r.head?, isContinuation b = false) :
    readContinuations n payload ((continuationBytes code n).take k ++ r) = none := by
  induction n generalizing k payload with
  | zero => exact absurd hk (Nat.not_lt_zero k)
  | succ n ih =>
    cases k with
    | zero =>
      cases r with
      | nil => rfl
      | cons b r =>
        have hb : isContinuation b = false := hr b rfl
        rw [List.take_zero, List.nil_append, readContinuations, hb]
        rfl
    | succ k =>
      rw [continuationBytes, List.take_succ_cons, List.cons_append, readContinuations,
        ih (Nat.lt_of_succ_lt_succ hk), ite_self]

/-! ### The loop that reads -/

/-- The first byte when `k` continuation bytes have been read. -/
def shiftedLead (b : UInt8) (k : Nat) : UInt32 := b.toUInt32 <<< UInt32.ofNat k

theorem shiftedLead_succ (b : UInt8) {k : Nat} (hk : k < 5) :
    shiftedLead b k <<< 1 = shiftedLead b (k + 1) := by
  have hsucc : UInt32.ofNat (k + 1) = UInt32.ofNat k + 1 := UInt32.ofNat_add k 1
  have hk' : (UInt32.ofNat k).toNat = k := UInt32.toNat_ofNat_of_lt' (Nat.lt_trans hk (by decide))
  rw [shiftedLead, shiftedLead, hsucc]
  refine (UInt32.shiftLeft_add_of_toNat_lt ?_).symm
  rw [hk', UInt32.toNat_one]
  omega

section

variable {b : UInt8} {n payload k code : Nat} (h : readLead b = some (n, payload)) (hpos : 0 < n)

include h

theorem eq_ofNat_of_readLead : n < 6 ∧ payload < leadRoom n ∧
    b = UInt8.ofNat (leadMarker n + payload) := by
  obtain ⟨hn, hroom, hb⟩ := readLead_eq_some_iff.mp h
  exact ⟨Nat.lt_succ_of_le hn, hroom, by rw [← hb, UInt8.ofNat_toNat]⟩

include hpos

/-- The bit that is looked at is set until the announced bytes have been read. -/
theorem shiftedLead_and (hk : k ≤ n) : shiftedLead b k &&& 0x40 = 0 ↔ k = n := by
  have hall : ∀ n < 6, 0 < n → ∀ payload < leadRoom n, ∀ k < n + 1,
      (shiftedLead (UInt8.ofNat (leadMarker n + payload)) k &&& 0x40 = 0 ↔ k = n) := by
    decide
  obtain ⟨hn, hroom, rfl⟩ := eq_ofNat_of_readLead h
  exact hall n hn hpos payload hroom k (Nat.lt_succ_of_le hk)

/-- The bits of the code in the first byte go in front of those of the continuation bytes. -/
theorem shiftedLead_shift : (shiftedLead b n &&& 0x7F) <<< UInt32.ofNat (n * 5) =
    UInt32.ofNat (payload * 64 ^ n) := by
  have hall : ∀ n < 6, 0 < n → ∀ payload < leadRoom n,
      (shiftedLead (UInt8.ofNat (leadMarker n + payload)) n &&& 0x7F) <<< UInt32.ofNat (n * 5) =
        UInt32.ofNat (payload * 64 ^ n) := by decide
  obtain ⟨hn, hroom, rfl⟩ := eq_ofNat_of_readLead h
  exact hall n hn hpos payload hroom

end

/-- Putting bits behind a number, as an addition. -/
theorem toNat_or {high low k : Nat} (hlow : low < 64 ^ k) (hle : high * 64 ^ k + low ≤ maxCode) :
    (UInt32.ofNat (high * 64 ^ k) ||| UInt32.ofNat low).toNat = high * 64 ^ k + low := by
  have hpow : 64 ^ k = 2 ^ (6 * k) := (pow_mul 2 6 k).symm
  have hshift : high * 64 ^ k = high <<< (6 * k) := by rw [Nat.shiftLeft_eq, hpow]
  rw [UInt32.toNat_or, toNat_ofNat_of_le (Nat.le_of_add_right_le hle),
    toNat_ofNat_of_le (Nat.le_trans (Nat.le_add_left ..) hle), hshift,
    Nat.shiftLeft_add_eq_or_of_lt (hpow ▸ hlow)]

/-- The bits of the continuation bytes and those of the first byte make up the code. -/
theorem toNat_joined {b : UInt8} {n payload code : Nat} (h : readLead b = some (n, payload))
    (hpos : 0 < n) (hdiv : code / 64 ^ n = payload) :
    (UInt32.ofNat (code % 64 ^ n) |||
      (shiftedLead b n &&& 0x7F) <<< UInt32.ofNat (n * 5)).toNat = code := by
  obtain ⟨hn, hroom, -⟩ := readLead_eq_some_iff.mp h
  have hcode : payload * 64 ^ n + code % 64 ^ n = code := hdiv ▸ Nat.div_add_mod' code _
  have hle : code ≤ maxCode := le_maxCode_of_div_lt hn (hdiv ▸ hroom)
  have hlow : code % 64 ^ n < 64 ^ n := Nat.mod_lt _ (Nat.pow_pos (by decide))
  rw [shiftedLead_shift h hpos, UInt32.or_comm, toNat_or hlow (hcode.symm ▸ hle), hcode]

/-- The bits of a continuation byte go behind those that were read before. -/
theorem appendGroup_eq {c : UInt8} (hc : isContinuation c = true) {code k : Nat} (hk : k < 5)
    (hcode : code < 64 ^ k) : UInt32.ofNat code <<< 6 ||| (c.toUInt32 &&& 0x3F) =
      UInt32.ofNat (code * 64 + (c.toNat - 0x80)) := by
  have hgroup : ∀ c, isContinuation c = true →
      c.toUInt32 &&& 0x3F = UInt32.ofNat (c.toNat - 0x80) := Ascii.forall_byte (by decide)
  have hpow : 64 ^ k ≤ 64 ^ 4 := Nat.pow_le_pow_right (by decide) (by omega)
  have hlt : c.toNat - 0x80 < 64 := by
    have := (isContinuation_iff c).mp hc
    omega
  have hle : code * 64 ^ 1 + (c.toNat - 0x80) ≤ maxCode := by
    show _ ≤ 0x7FFFFFFF
    omega
  have hshift : UInt32.ofNat code <<< 6 = UInt32.ofNat (code * 64 ^ 1) := by
    apply UInt32.toNat_inj.mp
    rw [UInt32.toNat_shiftLeft, UInt32.toNat_ofNat', UInt32.toNat_ofNat']
    show (code % 4294967296) <<< 6 % 4294967296 = code * 64 ^ 1 % 4294967296
    rw [Nat.shiftLeft_eq]
    omega
  rw [hgroup c hc, hshift]
  apply UInt32.toNat_inj.mp
  rw [toNat_or (k := 1) hlt hle, ← toNat_ofNat_of_le hle]
  rfl

/-- A round puts the bits of a continuation byte behind the code, and there is one round for each
that is announced. -/
theorem readForm_eq {b : UInt8} {n payload : Nat} (h : readLead b = some (n, payload))
    (hpos : 0 < n) {k code : Nat} (hk : k ≤ n) (hcode : code < 64 ^ k) (s : Bytes) :
    readForm k (shiftedLead b k) (UInt32.ofNat code) s =
      (readContinuations (n - k) (payload * 64 ^ k + code) s).map
        fun c => (n, shiftedLead b n, UInt32.ofNat (c % 64 ^ n)) := by
  have hend := shiftedLead_and h hpos hk
  obtain ⟨hn, -⟩ := eq_ofNat_of_readLead h
  by_cases hlast : k = n
  · -- all have been read
    subst hlast
    have hmod : (payload * 64 ^ k + code) % 64 ^ k = code := by
      rw [Nat.mul_add_mod_self_right, Nat.mod_eq_of_lt hcode]
    have hdone : readForm k (shiftedLead b k) (UInt32.ofNat code) s =
        some (k, shiftedLead b k, UInt32.ofNat code) := by
      cases s <;> exact if_pos (hend.mpr rfl)
    rw [hdone, Nat.sub_self, readContinuations, Option.map_some, hmod]
  · obtain ⟨m, hm⟩ : ∃ m, n - k = m + 1 := ⟨n - k - 1, by omega⟩
    have hm' : n - (k + 1) = m := by omega
    have hmore : ¬ shiftedLead b k &&& 0x40 = 0 := mt hend.mp hlast
    rw [hm]
    cases s with
    | nil => exact if_neg hmore
    | cons c rest =>
      rw [readForm, if_neg hmore, readContinuations]
      by_cases hc : isContinuation c = true
      · have hcode' : code * 64 + (c.toNat - 0x80) < 64 ^ (k + 1) := by
          have := (isContinuation_iff c).mp hc
          rw [pow_succ]
          omega
        have hnext := readForm_eq h hpos (by omega) hcode' rest
        have hcodes : payload * 64 ^ (k + 1) + (code * 64 + (c.toNat - 0x80)) =
            (payload * 64 ^ k + code) * 64 + (c.toNat - 0x80) := by ring
        rw [if_neg (by rw [hc]; simp; omega), if_pos hc, shiftedLead_succ b (by omega),
          appendGroup_eq hc (by omega) hcode, hnext, hm', hcodes]
      · rw [if_pos (.inr (Bool.eq_false_iff.mpr hc)), if_neg hc]
        rfl
termination_by s.length

/-- A first byte that announces more than five is refused at the sixth. -/
theorem readForm_eq_none {b : UInt8} (h : ∀ k < 6, shiftedLead b k &&& 0x40 ≠ 0) {k : Nat}
    (hk : k < 6) (code : UInt32) (s : Bytes) : readForm k (shiftedLead b k) code s = none := by
  induction s generalizing k code with
  | nil => exact if_neg (h k hk)
  | cons c rest ih =>
    rw [readForm, if_neg (h k hk)]
    split
    · rfl
    · rename_i hgoes
      rw [shiftedLead_succ b (by omega)]
      exact ih (by omega) _

/-- The least codes are those that need so many continuation bytes. -/
theorem refused_iff {code n : Nat} (hpos : 0 < n) (hn : n < 6) (h : code / 64 ^ n < leadRoom n) :
    maxCode < code ∨ code < leastCodes.getD n 0 ↔ continuationCount code ≠ n := by
  have hle : code ≤ maxCode := le_maxCode_of_div_lt (Nat.le_of_lt_succ hn) h
  have hmax : maxCode = 0x7FFFFFFF := rfl
  rw [Nat.div_lt_iff_lt_mul (Nat.pow_pos (by decide))] at h
  rw [continuationCount]
  obtain rfl | rfl | rfl | rfl | rfl : n = 1 ∨ n = 2 ∨ n = 3 ∨ n = 4 ∨ n = 5 := by omega
  all_goals
    simp only [leadRoom] at h
    simp only [leastCodes, List.getD_cons_succ, List.getD_cons_zero]
    grind

/-- A byte that is no first byte is refused: a continuation byte announces nothing, and the code in
its bits is below the least one, and the two greatest bytes announce too much. -/
theorem readCode_eq_none {b : UInt8} (h : readLead b = none) (rest : Bytes) :
    readCode b rest = none := by
  have hbytes : ∀ b, readLead b = none → ¬ b < 0x80 ∧
      (b.toUInt32 &&& 0x40 = 0 ∧
          ((0 : UInt32) ||| (b.toUInt32 &&& 0x7F) <<< (0 : UInt32)).toNat < leastCodes.getD 0 0 ∨
        ∀ k < 6, shiftedLead b k &&& 0x40 ≠ 0) := Ascii.forall_byte (by decide)
  obtain ⟨hbyte, ⟨hlead, hless⟩ | hgreat⟩ := hbytes b h
  · have hread : readForm 0 b.toUInt32 0 rest = some (0, b.toUInt32, 0) := by
      cases rest <;> exact if_pos hlead
    rw [readCode, if_neg hbyte, hread]
    exact if_pos (.inr hless)
  · have hread : readForm 0 (shiftedLead b 0) 0 rest = none :=
      readForm_eq_none hgreat (by decide) 0 rest
    rw [shiftedLead, show UInt32.ofNat 0 = 0 from rfl, UInt32.shiftLeft_zero] at hread
    rw [readCode, if_neg hbyte, hread]
    rfl

/-- Reading the bytes of a code: those that the first one announces, in the shortest form. -/
theorem readCode_eq (b : UInt8) (rest : Bytes) : readCode b rest =
    (readLead b).bind fun (n, payload) => (readContinuations n payload rest).bind fun code =>
      if continuationCount code = n then some (n, code) else none := by
  cases h : readLead b with
  | none => exact readCode_eq_none h rest
  | some lead =>
    obtain ⟨n, payload⟩ := lead
    obtain ⟨hn, hroom, hb⟩ := readLead_eq_some_iff.mp h
    rw [Option.bind_some]
    cases n with
    | zero =>
      -- the byte itself
      have hpayload : payload < 0x80 := hroom
      have hcount : continuationCount payload = 0 := if_pos hpayload
      have hbyte : b.toNat = payload := hb.trans (Nat.zero_add payload)
      have hsmall : b < 0x80 := UInt8.lt_iff_toNat_lt.mpr (hbyte ▸ hpayload)
      rw [readCode, if_pos hsmall, hbyte]
      exact (if_pos hcount).symm
    | succ n =>
      have hpos := Nat.succ_pos n
      have hlarge : ¬ b < 0x80 := by
        have hmarkers : ∀ n < 5, 0x80 ≤ leadMarker (n + 1) := by decide
        have hmarker := hmarkers n (by omega)
        rw [UInt8.lt_iff_toNat_lt, hb]
        exact Nat.not_lt.mpr (Nat.le_trans hmarker (Nat.le_add_right ..))
      have hread : readForm 0 b.toUInt32 0 rest =
          (readContinuations (n + 1) payload rest).map
            fun c => (n + 1, shiftedLead b (n + 1), UInt32.ofNat (c % 64 ^ (n + 1))) := by
        have hloop := readForm_eq h hpos (Nat.zero_le _) Nat.one_pos rest
        rwa [pow_zero, Nat.mul_one, Nat.add_zero, Nat.sub_zero, shiftedLead,
          show UInt32.ofNat 0 = 0 from rfl, UInt32.shiftLeft_zero] at hloop
      rw [readCode, if_neg hlarge, hread]
      dsimp only
      cases hcontinuations : readContinuations (n + 1) payload rest with
      | none => rfl
      | some code =>
        have hdiv := (eq_append_of_readContinuations hcontinuations).1
        have hlt : code / 64 ^ (n + 1) < leadRoom (n + 1) := hdiv ▸ hroom
        have hjoined := toNat_joined h hpos hdiv
        have hrefused := refused_iff hpos (Nat.lt_succ_of_le hn) hlt
        simp only [Option.map_some, Option.bind_eq_bind, Option.bind_some, hjoined]
        by_cases hcount : continuationCount code = n + 1
        · rw [if_neg (mt hrefused.mp (not_not_intro hcount)), if_pos hcount]
        · rw [if_pos (hrefused.mpr hcount), if_neg hcount]

/-- **Reading a code** takes the bytes that the first one announces, and refuses what is not the
shortest form of its code. -/
theorem decode_cons (strict : Bool) (b : UInt8) (rest : Bytes) : decode strict (b :: rest) =
    (readLead b).bind fun (n, payload) => (readContinuations n payload rest).bind fun code =>
      if continuationCount code = n && admits strict code then some (code, n + 1) else none := by
  rw [decode, readCode_eq]
  cases readLead b with
  | none => rfl
  | some lead =>
    obtain ⟨n, payload⟩ := lead
    simp only [Option.bind_eq_bind, Option.bind_some]
    cases readContinuations n payload rest with
    | none => rfl
    | some code =>
      by_cases hcount : continuationCount code = n <;> simp [hcount]

/-! ### Reading a code -/

/-- A form is read if it is the shortest one, and its code may be read. -/
theorem decode_form {strict : Bool} {n code : Nat} (hn : n ≤ 5) (h : code / 64 ^ n < leadRoom n)
    (r : Bytes) : decode strict (form n code ++ r)
      = if continuationCount code = n && admits strict code then some (code, n + 1) else none := by
  have hcode : code / 64 ^ n * 64 ^ n + code % 64 ^ n = code := Nat.div_add_mod' code (64 ^ n)
  rw [form, List.cons_append, decode_cons, readLead_form hn h, Option.bind_some]
  dsimp only
  rw [readContinuations_append, hcode, Option.bind_some]

/-- **A code is read** exactly where its encoded form stands. -/
theorem decode_eq_some_iff {strict : Bool} {s : Bytes} {code n : Nat} :
    decode strict s = some (code, n) ↔ code ≤ maxCode ∧ admits strict code = true ∧
      encode code <+: s ∧ n = (encode code).length := by
  constructor
  · intro h
    cases s with
    | nil => cases h
    | cons b s =>
      simp only [decode_cons, Option.bind_eq_some_iff] at h
      obtain ⟨⟨k, payload⟩, hlead, c, hcontinuations, h⟩ := h
      split at h
      case isFalse => cases h
      case isTrue hc =>
        rw [Bool.and_eq_true, decide_eq_true_eq] at hc
        obtain ⟨hcount, hadmits⟩ := hc
        obtain ⟨rfl, rfl⟩ := Prod.mk.inj (Option.some.inj h)
        obtain ⟨hk, hroom, hb⟩ := readLead_eq_some_iff.mp hlead
        obtain ⟨hdiv, r, rfl⟩ := eq_append_of_readContinuations hcontinuations
        dsimp only at hdiv hcount ⊢
        subst hdiv
        have hfirst : UInt8.ofNat (leadMarker k + (c >>> (6 * k))) = b := by
          apply UInt8.toNat_inj.mp
          rw [UInt8.toNat_ofNat', shiftRight_groups, hb,
            Nat.mod_eq_of_lt (leadMarker_add_lt hk hroom)]
        have hc := le_maxCode_of_div_lt hk hroom
        refine ⟨hc, hadmits, ⟨r, ?_⟩, ?_⟩
        · rw [encode_eq_form hc, hcount, form, hfirst, List.cons_append]
        · rw [encode_eq_form hc, hcount, length_form]
  · rintro ⟨hc, hadmits, ⟨r, rfl⟩, rfl⟩
    have hle := continuationCount_le code
    rw [encode_eq_form hc, decode_form hle (div_lt_leadRoom hc hle (Nat.le_refl _)), hadmits,
      length_form]
    simp

theorem admits_strict_iff (code : Nat) : admits true code = true ↔
    code ≤ 0x10FFFF ∧ ¬ (0xD800 ≤ code ∧ code ≤ 0xDFFF) := by
  have hmax : maxCharacter = 0x10FFFF := rfl
  simp only [admits, isSurrogate, Bool.not_true, Bool.false_or, Bool.and_eq_true,
    Bool.not_eq_true', Bool.and_eq_false_iff, decide_eq_true_eq, decide_eq_false_iff_not]
  omega

/-- A form with more continuation bytes than needed is not read. -/
theorem decode_overlong {strict : Bool} {n code : Nat} (hn : n ≤ 5)
    (h : continuationCount code < n) (r : Bytes) : decode strict (form n code ++ r) = none := by
  have hc : code ≤ maxCode := by
    have hcount : continuationCount code < 5 := Nat.lt_of_lt_of_le h hn
    unfold continuationCount at hcount
    show code ≤ 0x7FFFFFFF
    split_ifs at hcount <;> omega
  have hne : continuationCount code ≠ n := Nat.ne_of_lt h
  rw [decode_form hn (div_lt_leadRoom hc hn (Nat.le_of_lt h)), decide_eq_false hne]
  rfl

/-- A form of which the last bytes are missing is not read. -/
theorem decode_truncated {strict : Bool} {code k : Nat} {r : Bytes} (hc : code ≤ maxCode)
    (hpos : 0 < k) (hk : k < (encode code).length)
    (hr : ∀ b ∈ r.head?, isContinuation b = false) :
    decode strict ((encode code).take k ++ r) = none := by
  have hle := continuationCount_le code
  obtain ⟨k, rfl⟩ : ∃ j, k = j + 1 := ⟨k - 1, by omega⟩
  rw [encode_eq_form hc, length_form] at hk
  rw [encode_eq_form hc, form, List.take_succ_cons, List.cons_append, decode_cons,
    readLead_form hle (div_lt_leadRoom hc hle (Nat.le_refl _)), Option.bind_some]
  dsimp only
  rw [readContinuations_cut (Nat.lt_of_succ_lt_succ hk) hr]
  rfl

/-- A continuation byte begins nothing that is read. -/
theorem decode_stray {strict : Bool} {b : UInt8} (hb : isContinuation b = true) (s : Bytes) :
    decode strict (b :: s) = none := by
  have hlead : readLead b = none := by
    rw [isContinuation_iff] at hb
    simp only [readLead]
    rw [if_neg (by omega), if_pos (by omega)]
  rw [decode_cons, hlead]
  rfl

/-! ### Main result -/

/-- **Reading is the inverse of writing.**  Whatever follows it, the encoded form of a code is read
as that code, and strictly so if and only if the code is one of a character.  What is read, strictly
or not, is what is written for its code, so forms that are longer than needed, forms cut short and
stray continuation bytes are refused. -/
theorem decode_inverse :
    (∀ code ≤ 0x7FFFFFFF, ∀ r,
      decode false (encode code ++ r) = some (code, (encode code).length) ∧
      decode true (encode code ++ r) =
        if code ≤ 0x10FFFF ∧ ¬ (0xD800 ≤ code ∧ code ≤ 0xDFFF) then
          some (code, (encode code).length)
        else none) ∧
    (∀ strict s code n, decode strict s = some (code, n) →
      code ≤ 0x7FFFFFFF ∧ s.take n = encode code) ∧
    (∀ strict code n r, continuationCount code < n → n ≤ 5 →
      decode strict (form n code ++ r) = none) ∧
    (∀ strict, ∀ code ≤ 0x7FFFFFFF, ∀ k r, 0 < k → k < (encode code).length →
      (∀ b ∈ r.head?, isContinuation b = false) →
      decode strict ((encode code).take k ++ r) = none) ∧
    (∀ strict b s, isContinuation b = true → decode strict (b :: s) = none) := by
  refine ⟨fun code hc r => ⟨?_, ?_⟩, fun strict s code n h => ?_,
    fun strict code n r h hn => decode_overlong hn h r,
    fun strict code hc k r hpos hk hr => decode_truncated hc hpos hk hr,
    fun strict b s hb => decode_stray hb s⟩
  · exact decode_eq_some_iff.mpr ⟨hc, rfl, List.prefix_append _ _, rfl⟩
  · by_cases hadmits : code ≤ 0x10FFFF ∧ ¬ (0xD800 ≤ code ∧ code ≤ 0xDFFF)
    · rw [if_pos hadmits]
      exact decode_eq_some_iff.mpr
        ⟨hc, (admits_strict_iff code).mpr hadmits, List.prefix_append _ _, rfl⟩
    · have hle := continuationCount_le code
      have hno : admits true code = false := by
        rw [← Bool.not_eq_true, admits_strict_iff]
        exact hadmits
      rw [if_neg hadmits, encode_eq_form hc,
        decode_form hle (div_lt_leadRoom hc hle (Nat.le_refl _)), hno, Bool.and_false]
      rfl
  · obtain ⟨hc, -, hprefix, rfl⟩ := decode_eq_some_iff.mp h
    exact ⟨hc, (List.prefix_iff_eq_take.mp hprefix).symm⟩

/-- The greatest code, a surrogate, the euro sign read from a text, and its form with a byte too
many and with one too few. -/
theorem decode_inverse_edges :
    decode false (encode 0x7FFFFFFF) = some (0x7FFFFFFF, 6) ∧
      decode true (encode 0xD800) = none ∧
      Bytes.slice [0xE2, 0x82, 0xAC, 0x21] 0 3 = encode 0x20AC ∧
      decode false [0xF0, 0x82, 0x82, 0xAC] = none ∧ decode false [0xE2, 0x82, 0x21] = none ∧
      decode false [0x82, 0xAC] = none := by
  obtain ⟨hread, hwritten, hlong, hcut, hstray⟩ := decode_inverse
  have hbang : ∀ b ∈ [(0x21 : UInt8)].head?, isContinuation b = false := by
    rintro b ⟨⟩
    decide
  have hlength : (encode 0x7FFFFFFF).length = 6 := by decide +kernel
  have heuro : encode 0x20AC = [0xE2, 0x82, 0xAC] := by decide +kernel
  have htooFew := hcut false 0x20AC (by decide) 2 [0x21] (by decide) (by rw [heuro]; decide) hbang
  rw [heuro] at htooFew
  have hgreatest : decode false (encode 0x7FFFFFFF) = some (0x7FFFFFFF, 6) := by
    simpa [hlength] using (hread 0x7FFFFFFF (Nat.le_refl _) []).1
  have hsurrogate : decode true (encode 0xD800) = none := by
    simpa using (hread 0xD800 (by decide) []).2
  exact ⟨hgreatest, hsurrogate,
    (hwritten true [0xE2, 0x82, 0xAC, 0x21] 0x20AC 3 (by decide +kernel)).2,
    hlong false 0x20AC 3 [] (by decide) (by decide), htooFew, hstray false 0x82 [0xAC] (by decide)⟩

end Lua.Utf8
