/-
Integers as floats.

The conversion of an integer to a float goes through the model of floating-point arithmetic:
a significand is shifted to 53 bits while a round bit and a sticky bit record what is lost, and
the result is packed into 64 bits.  This module reduces all of that to one function on natural
numbers, the rounded quotient of decimal output.

* `nearest` — a natural number rounded to 53 significant bits, with `nearest_mono`;
* `Shifted` — what shifting keeps of a number: quotient, round bit and sticky bit;
* `unpack_pack` — a float with 53 significant bits survives packing;
* `Number.ofFloat?_floatOfInt` — the float of an integer is at the place of the rounded integer;
* `Number.nearestInteger_of_ofFloat?` — an integer that is a float exactly is not rounded.

Design notes: an integer of 64 bits is far inside the range of normal floats, so neither
overflow nor subnormal results occur; the exponent bounds in the statements say so.
-/
import Lua.Number.Decimal
import Lua.Proofs.FloatOrder

open Float.Model Float.Model.UnpackedFloat

namespace Lua

namespace Decimal

variable {m n d : Nat}

theorem roundDiv_eq (n d : Nat) : roundDiv n d =
    if d < 2 * (n % d) ∨ (2 * (n % d) = d ∧ n / d % 2 = 1) then n / d + 1 else n / d := rfl

theorem div_le_roundDiv (n d : Nat) : n / d ≤ roundDiv n d := by
  rw [roundDiv_eq]
  split <;> omega

theorem roundDiv_le (n d : Nat) : roundDiv n d ≤ n / d + 1 := by
  rw [roundDiv_eq]
  split <;> omega

theorem roundDiv_of_dvd (hd : 0 < d) (h : d ∣ n) : roundDiv n d = n / d := by
  rw [roundDiv_eq, Nat.mod_eq_zero_of_dvd h, if_neg (by omega)]

theorem roundDiv_mono (hd : 0 < d) (h : m ≤ n) : roundDiv m d ≤ roundDiv n d := by
  rcases (Nat.div_le_div_right (c := d) h).lt_or_eq with hlt | heq
  · exact (roundDiv_le m d).trans ((Nat.succ_le_of_lt hlt).trans (div_le_roundDiv n d))
  · -- the quotients agree, so the remainders are in order
    have hmod : m % d ≤ n % d := by
      have hm := Nat.div_add_mod m d
      have hn := Nat.div_add_mod n d
      rw [heq] at hm
      omega
    have hlt := Nat.mod_lt n hd
    rw [roundDiv_eq, roundDiv_eq, heq]
    split <;> split <;> omega

theorem roundDiv_mul_right {c : Nat} (hc : 0 < c) (n d : Nat) :
    roundDiv (n * c) (d * c) = roundDiv n d := by
  have hcancel : ∀ a b : Nat, a * c < b * c ↔ a < b := fun a b => Nat.mul_lt_mul_right hc
  have hcancel' : ∀ a b : Nat, a * c = b * c ↔ a = b := fun a b => Nat.mul_left_inj hc.ne'
  simp only [roundDiv_eq, Nat.mul_mod_mul_right, Nat.mul_div_mul_right n d hc, ← Nat.mul_assoc,
    hcancel, hcancel']

end Decimal

open Decimal

/-- A natural number rounded to 53 significant bits, a tie to the even neighbour. -/
def nearest (n : Nat) : Nat :=
  roundDiv n (2 ^ (n.log2 - 52)) * 2 ^ (n.log2 - 52)

theorem nearest_of_dvd {n : Nat} (h : 2 ^ (n.log2 - 52) ∣ n) : nearest n = n := by
  rw [nearest, roundDiv_of_dvd (Nat.two_pow_pos _) h, Nat.div_mul_cancel h]

theorem nearest_of_lt {n : Nat} (h : n < 2 ^ 53) : nearest n = n := by
  refine nearest_of_dvd ?_
  have hlog : n.log2 ≤ 52 := by
    rcases Nat.eq_zero_or_pos n with rfl | hn
    · simp
    · exact Nat.le_of_lt_succ ((Nat.log2_lt hn.ne').mpr h)
  rw [Nat.sub_eq_zero_of_le hlog, Nat.pow_zero]
  exact Nat.one_dvd n

theorem two_pow_log2_le_nearest {n : Nat} (hn : n ≠ 0) : 2 ^ n.log2 ≤ nearest n := by
  rcases Nat.lt_or_ge n (2 ^ 53) with h | h
  · rw [nearest_of_lt h]
    exact Nat.log2_self_le hn
  · have hlog : 52 ≤ n.log2 := by
      have := (Nat.le_log2 hn).mpr h
      omega
    have hle : 2 ^ 52 ≤ roundDiv n (2 ^ (n.log2 - 52)) := by
      refine Nat.le_trans ?_ (div_le_roundDiv _ _)
      rw [Nat.le_div_iff_mul_le (Nat.two_pow_pos _), ← Nat.pow_add, Nat.add_sub_cancel' hlog]
      exact Nat.log2_self_le hn
    calc 2 ^ n.log2 = 2 ^ 52 * 2 ^ (n.log2 - 52) := by
          rw [← Nat.pow_add, Nat.add_sub_cancel' hlog]
      _ ≤ nearest n := Nat.mul_le_mul_right _ hle

theorem nearest_le_two_pow (n : Nat) : nearest n ≤ 2 ^ (n.log2 + 1) := by
  rcases Nat.lt_or_ge n (2 ^ 53) with h | h
  · rw [nearest_of_lt h]
    exact Nat.lt_log2_self.le
  · have hlog : 52 ≤ n.log2 := by
      have := (Nat.le_log2 (by omega)).mpr h
      omega
    have hlt : n / 2 ^ (n.log2 - 52) < 2 ^ 53 := by
      rw [Nat.div_lt_iff_lt_mul (Nat.two_pow_pos _), ← Nat.pow_add]
      have : 53 + (n.log2 - 52) = n.log2 + 1 := by omega
      rw [this]
      exact Nat.lt_log2_self
    have hle := roundDiv_le n (2 ^ (n.log2 - 52))
    calc nearest n ≤ 2 ^ 53 * 2 ^ (n.log2 - 52) := Nat.mul_le_mul_right _ (by omega)
      _ = 2 ^ (n.log2 + 1) := by rw [← Nat.pow_add]; congr 1; omega

theorem nearest_mono {m n : Nat} (h : m ≤ n) : nearest m ≤ nearest n := by
  rcases Nat.eq_zero_or_pos m with rfl | hm
  · rw [nearest_of_lt (by decide)]
    exact Nat.zero_le _
  have hlog : m.log2 ≤ n.log2 := by
    rw [Nat.le_log2 (by omega)]
    exact (Nat.log2_self_le hm.ne').trans h
  rcases hlog.lt_or_eq with hlt | heq
  · calc nearest m ≤ 2 ^ (m.log2 + 1) := nearest_le_two_pow m
      _ ≤ 2 ^ n.log2 := Nat.pow_le_pow_right (by decide) hlt
      _ ≤ nearest n := two_pow_log2_le_nearest (by omega)
  · rw [nearest, nearest, heq]
    exact Nat.mul_le_mul_right _ (roundDiv_mono (Nat.two_pow_pos _) h)

theorem log2_mul_two_pow {n : Nat} (hn : n ≠ 0) (j : Nat) : (n * 2 ^ j).log2 = n.log2 + j := by
  induction j with
  | zero => simp
  | succ j ih =>
    have hne : n * 2 ^ j ≠ 0 := Nat.mul_ne_zero hn (Nat.two_pow_pos j).ne'
    rw [Nat.pow_succ', Nat.mul_left_comm, Nat.log2_two_mul hne, ih]
    rfl

/-! ### Rounding in the model of floats -/

/-- What is kept of a natural number that is shifted right: the quotient, whether the remainder is
at least a half, and whether it is something else than nothing or a half. -/
structure Shifted (m k : Nat) (em : ExtendedMantissa) : Prop where
  mantissa : em.mantissa = m / 2 ^ k
  roundBit : em.roundBit = true ↔ 2 ^ k ≤ 2 * (m % 2 ^ k)
  stickyBit : em.stickyBit = true ↔ m % 2 ^ k ≠ 0 ∧ 2 * (m % 2 ^ k) ≠ 2 ^ k

theorem Shifted.shiftRightOne {m k : Nat} {em : ExtendedMantissa} (h : Shifted m k em) :
    Shifted m (k + 1) em.shiftRightOne := by
  have hmod : m % 2 ^ (k + 1) = m % 2 ^ k + 2 ^ k * (m / 2 ^ k % 2) := by
    rw [Nat.pow_succ, Nat.mod_mul]
  have hlt := Nat.mod_lt m (Nat.two_pow_pos k)
  have hpow : 2 ^ (k + 1) = 2 * 2 ^ k := Nat.pow_succ'
  -- the last bit of the quotient becomes the round bit, and the old round bit is only remembered
  have hround : em.shiftRightOne.roundBit = true ↔ m / 2 ^ k % 2 = 1 := by
    rw [← h.mantissa]
    show (em.mantissa % 2 != 0) = true ↔ _
    simp
  have hsticky : em.shiftRightOne.stickyBit = true ↔ m % 2 ^ k ≠ 0 := by
    show (em.roundBit || em.stickyBit) = true ↔ _
    rw [Bool.or_eq_true, h.roundBit, h.stickyBit]
    have := Nat.two_pow_pos k
    omega
  refine ⟨?_, hround.trans ?_, hsticky.trans ?_⟩
  · show em.mantissa / 2 = _
    rw [h.mantissa, Nat.div_div_eq_div_mul, ← Nat.pow_succ]
  · rcases Nat.mod_two_eq_zero_or_one (m / 2 ^ k) with hbit | hbit
    · rw [hmod, hbit]
      omega
    · rw [hmod, hbit]
      omega
  · rcases Nat.mod_two_eq_zero_or_one (m / 2 ^ k) with hbit | hbit
    · rw [hmod, hbit]
      omega
    · rw [hmod, hbit]
      omega

theorem shifted_exact (m k : Nat) :
    Shifted m k (ExtendedMantissa.ofMantissaAndAccuracy m .exact >>> k) := by
  induction k with
  | zero =>
    show Shifted m 0 (.ofMantissaAndAccuracy m .exact)
    exact ⟨by simp [ExtendedMantissa.ofMantissaAndAccuracy],
      by simp [ExtendedMantissa.ofMantissaAndAccuracy, Nat.mod_one],
      by simp [ExtendedMantissa.ofMantissaAndAccuracy, Nat.mod_one]⟩
  | succ k ih => exact ih.shiftRightOne

theorem Shifted.roundedMantissa {m k : Nat} {em : ExtendedMantissa} (h : Shifted m k em) :
    em.roundedMantissa = roundDiv m (2 ^ k) := by
  obtain ⟨q, round, sticky⟩ := em
  obtain ⟨hq, hround, hsticky⟩ := h
  obtain rfl : q = m / 2 ^ k := hq
  have hpos := Nat.two_pow_pos k
  rw [roundDiv_eq]
  cases round with
  | false =>
    have hsmall : ¬ 2 ^ k ≤ 2 * (m % 2 ^ k) := fun h => Bool.false_ne_true (hround.mpr h)
    rw [if_neg (by omega)]
    cases sticky <;> rfl
  | true =>
    have hlarge := hround.mp rfl
    cases sticky with
    | false =>
      have htie : ¬ (m % 2 ^ k ≠ 0 ∧ 2 * (m % 2 ^ k) ≠ 2 ^ k) :=
        fun h => Bool.false_ne_true (hsticky.mpr h)
      show m / 2 ^ k + m / 2 ^ k % 2 = _
      split <;> omega
    | true =>
      have hmore := hsticky.mp rfl
      rw [if_pos (Or.inl (by omega))]
      rfl

/-- A number with at least 53 significant bits is shifted until it has 53. -/
theorem shiftToTargetExponent_eq {m k : Nat} {e : Int} (hm : m.log2 = 52 + k)
    (he : -1074 ≤ e + k) :
    ∃ em, shiftToTargetExponent Format.binary64 m e .exact = (em, e + k) ∧ Shifted m k em := by
  have htarget : Format.binary64.targetExponent (totalExponent m e) = e + k := by
    show max ((m.log2 : Int) + 1 + e - (1 + 52 : Nat)) (3 - 2 ^ 10 - (1 + 52 : Nat)) = _
    omega
  have hamount : (e + (k : Int) - e).toNat = k := by omega
  refine ⟨_, ?_, shifted_exact m k⟩
  rw [shiftToTargetExponent, htarget]
  simp only [shiftToExponent, hamount]

/-- A float with 53 significant bits and the value `v` · 2ᵉ. -/
def IsNormal (u : UnpackedFloat) (s : Sign) (v : Nat) (e : Int) : Prop :=
  ∃ m d h, u = .finite s m (e + (d : Nat)) h ∧ m.log2 = 52 ∧ d ≤ 1 ∧ m * 2 ^ d = v

theorem isNormal_roundWithAccuracy {s : Sign} {m k : Nat} {e : Int} (hm : m.log2 = 52 + k)
    (he : -1074 ≤ e + k) :
    IsNormal (roundWithAccuracy Format.binary64 s m e .exact) s (roundDiv m (2 ^ k)) (e + k) := by
  obtain ⟨em, hfirst, hem⟩ := shiftToTargetExponent_eq hm he
  have hm0 : m ≠ 0 := by
    rintro rfl
    rw [Nat.log2_zero] at hm
    omega
  have hlow : 2 ^ 52 ≤ roundDiv m (2 ^ k) := by
    refine Nat.le_trans ?_ (div_le_roundDiv _ _)
    rw [Nat.le_div_iff_mul_le (Nat.two_pow_pos _), ← Nat.pow_add, ← hm]
    exact Nat.log2_self_le hm0
  have hhigh : roundDiv m (2 ^ k) ≤ 2 ^ 53 := by
    refine Nat.le_trans (roundDiv_le _ _) (Nat.succ_le_of_lt ?_)
    rw [Nat.div_lt_iff_lt_mul (Nat.two_pow_pos _), ← Nat.pow_add]
    exact (Nat.lt_log2_self).trans_eq (by rw [hm]; congr 1; omega)
  -- rounding up may give one bit more, and that bit is shifted out again
  obtain ⟨d, hd, hlog, hdvd⟩ : ∃ d, d ≤ 1 ∧ (roundDiv m (2 ^ k)).log2 = 52 + d ∧
      2 ^ d ∣ roundDiv m (2 ^ k) := by
    rcases hhigh.lt_or_eq with hlt | heq
    · refine ⟨0, by decide, ?_, Nat.one_dvd _⟩
      exact (Nat.log2_eq_iff (by omega)).mpr ⟨hlow, hlt⟩
    · refine ⟨1, le_refl 1, ?_, ?_⟩
      · rw [heq, Nat.log2_two_pow]
      · rw [heq]
        decide
  obtain ⟨em', hsecond, hem'⟩ := shiftToTargetExponent_eq (e := e + k) hlog (by omega)
  have hmant : em'.mantissa = roundDiv m (2 ^ k) / 2 ^ d := hem'.mantissa
  have hvalue : em'.mantissa * 2 ^ d = roundDiv m (2 ^ k) := by
    rw [hmant, Nat.div_mul_cancel hdvd]
  have hpos : em'.mantissa ≠ 0 := by
    intro h
    rw [h, Nat.zero_mul] at hvalue
    omega
  have hlog' : em'.mantissa.log2 = 52 := by
    rw [← hvalue, log2_mul_two_pow hpos] at hlog
    omega
  refine ⟨em'.mantissa, d, Nat.pos_of_ne_zero hpos, ?_, hlog', hd, hvalue⟩
  simp only [roundWithAccuracy, hfirst, hem.roundedMantissa, hsecond]
  rw [dif_neg hpos]

theorem unpack_pack_eq (u : UnpackedFloat) : (Float.Model.pack u).unpack =
    UnpackedFloat.unpack Format.binary64 (UnpackedFloat.pack Format.binary64 u) := rfl

/-- A float with 53 significant bits is kept by packing. -/
theorem unpack_pack {s : Sign} {m : Nat} {e : Int} {h : 0 < m} (hm : m.log2 = 52)
    (hlow : -1074 ≤ e) (hhigh : e ≤ 971) :
    (Float.Model.pack (.finite s m e h)).unpack = .finite s m e h := by
  obtain ⟨hle, hlt⟩ := (Nat.log2_eq_iff h.ne').mp hm
  have hbias : (Format.binary64.exponentBias : Int) = 1023 := rfl
  -- the biased exponent is neither that of the subnormals nor that of infinities and NaN
  obtain ⟨b, hb, hbe⟩ : ∃ b : Nat, b < 2047 ∧ (e + 1023 + 52).toNat = b ∧ b ≠ 0 :=
    ⟨_, by omega, rfl, by omega⟩
  have hpack : UnpackedFloat.pack Format.binary64 (.finite s m e h) =
      packComponents Format.binary64 s (BitVec.ofNat 11 b) (BitVec.ofNat 52 m) := by
    unfold UnpackedFloat.pack
    simp only [hbias]
    have hb' : (e + 1023 + ((52 : Nat) : Int)).toNat = b := hbe.1
    rw [hb', if_neg (by omega), if_pos (by rw [hm]; rfl)]
  have hexp : (BitVec.ofNat 11 b).toNat = b := by
    rw [BitVec.toNat_ofNat, Nat.mod_eq_of_lt (by omega)]
  have htop : BitVec.ofNat 11 b ≠ -1#11 := by
    intro h
    have := congrArg BitVec.toNat h
    rw [hexp] at this
    have h2 : (-1#11).toNat = 2047 := rfl
    omega
  have hbot : BitVec.ofNat 11 b ≠ 0#11 := by
    intro h
    have := congrArg BitVec.toNat h
    rw [hexp] at this
    exact hbe.2 this
  -- packing leaves out the leading bit, which unpacking puts back
  have hmant : (1#1 ++ BitVec.ofNat 52 m).toNat = m := by
    rw [Binary.toNat_implicit, BitVec.toNat_ofNat]
    omega
  rw [unpack_pack_eq, hpack]
  unfold UnpackedFloat.unpack
  simp only [unpackExponent_packComponents, unpackMantissa_packComponents,
    unpackSign_packComponents, Sign.ofBitVec_toBitVec]
  rw [if_neg htop, if_neg hbot]
  simp only [hmant, hexp, hbias]
  congr 1
  omega

/-! ### Integers as floats -/

/-- The rounding of a number that is written with a scale. -/
theorem roundDiv_scaled {n j k : Nat} (hn : n ≠ 0) (h : n.log2 + j = 52 + k) :
    roundDiv (n * 2 ^ j) (2 ^ k) * 2 ^ k = nearest n * 2 ^ j := by
  rcases Nat.le_total 52 n.log2 with hlog | hlog
  · have hk : k = n.log2 - 52 + j := by omega
    rw [hk, Nat.pow_add, roundDiv_mul_right (Nat.two_pow_pos j), nearest, Nat.mul_assoc]
  · have hj : j = 52 - n.log2 + k := by omega
    have hdvd : 2 ^ k ∣ n * 2 ^ j := by
      rw [hj, Nat.pow_add]
      exact (Nat.dvd_mul_left _ _).trans (Nat.dvd_mul_left _ _)
    have hn' : n < 2 ^ 53 := (Nat.log2_lt hn).mp (by omega)
    rw [roundDiv_of_dvd (Nat.two_pow_pos k) hdvd, Nat.div_mul_cancel hdvd, nearest_of_lt hn']

/-- A float with the magnitude of a natural number rounded to 53 bits. -/
def IsNearest (u : UnpackedFloat) (s : Sign) (n : Nat) : Prop :=
  ∃ m e h, u = .finite s m e h ∧ m.log2 = 52 ∧ -1074 ≤ e ∧ e ≤ 971 ∧
    m * 2 ^ (e + Binary.gridBits).toNat = nearest n * 2 ^ Binary.gridBits

theorem isNearest_round {n j : Nat} (hn : n ≠ 0) (h64 : n < 2 ^ 64) (hj : j ≤ 104)
    (hlog : 52 ≤ n.log2 + j) :
    IsNearest (roundWithAccuracy Format.binary64 .positive (n * 2 ^ j) (-j) .exact)
      .positive n := by
  have hlt : n.log2 < 64 := (Nat.log2_lt hn).mpr h64
  obtain ⟨k, hk⟩ : ∃ k, n.log2 + j = 52 + k := ⟨n.log2 + j - 52, by omega⟩
  obtain ⟨m, d, h, hu, hm, hd, hv⟩ := isNormal_roundWithAccuracy (s := .positive) (e := -j)
    ((log2_mul_two_pow hn j).trans hk) (by omega)
  refine ⟨m, _, h, hu, hm, by omega, by omega, ?_⟩
  have hexp : (-(j : Int) + k + d + Binary.gridBits).toNat + j = d + k + Binary.gridBits := by
    rw [Binary.gridBits]
    omega
  -- the scale 2ʲ is on both sides and cancels
  refine Nat.eq_of_mul_eq_mul_right (Nat.two_pow_pos j) ?_
  calc m * 2 ^ (-(j : Int) + k + d + Binary.gridBits).toNat * 2 ^ j
      = m * 2 ^ d * 2 ^ k * 2 ^ Binary.gridBits := by
        rw [Nat.mul_assoc, ← Nat.pow_add, hexp, Nat.pow_add, Nat.pow_add, ← Nat.mul_assoc,
          ← Nat.mul_assoc]
    _ = nearest n * 2 ^ Binary.gridBits * 2 ^ j := by
        rw [hv, roundDiv_scaled hn hk, Nat.mul_right_comm]

theorem IsNearest.unpack_pack {u : UnpackedFloat} {s : Sign} {n : Nat} (h : IsNearest u s n) :
    (Float.Model.pack u).unpack = u := by
  obtain ⟨m, e, hpos, rfl, hm, hlow, hhigh, -⟩ := h
  exact Lua.unpack_pack hm hlow hhigh

theorem one_unpack : (Float.ofBits 0x3FF0000000000000).toModel.unpack =
    .finite .positive (2 ^ 52) (-52) (Nat.two_pow_pos 52) := rfl

theorem ofScientific_zero {n : Nat} (hn : n ≠ 0) : UnpackedFloat.ofScientific Format.binary64 n 0 =
    roundWithAccuracy Format.binary64 .positive (n * 2 ^ 53) (-(53 : Nat)) .exact := by
  have hhigh : ¬ (0 : Int) > 2 ^ Format.binary64.exponentBits := by
    show ¬ (0 : Int) > 2 ^ 11
    norm_num
  have hlow : ¬ (0 : Int) < -(2 ^ Format.binary64.exponentBits + (n.log2 : Int)) := by
    show ¬ (0 : Int) < -(2 ^ 11 + (n.log2 : Int))
    omega
  unfold UnpackedFloat.ofScientific
  rw [dif_neg hn, if_neg hhigh, if_neg hlow, if_pos (le_refl 0)]
  simp only [UnpackedFloat.mul]
  rw [Nat.shiftLeft_eq, Int.toNat_zero, Nat.pow_zero, Nat.mul_one]
  rfl

theorem ofNat_eq {n : Nat} (hn : n ≠ 0) (hlog : n.log2 ≤ 52) :
    UnpackedFloat.ofNat Format.binary64 n = roundWithAccuracy Format.binary64 .positive
      (n * 2 ^ (52 - n.log2)) (-((52 - n.log2 : Nat) : Int)) .exact := by
  have hcompare : compare (n : Int) 0 = .gt := Int.compare_eq_gt.mpr (by omega)
  have htarget : Format.binary64.targetExponent (totalExponent n 0) =
      -((52 - n.log2 : Nat) : Int) := by
    show max ((n.log2 : Int) + 1 + 0 - (1 + 52 : Nat)) (3 - 2 ^ 10 - (1 + 52 : Nat)) = _
    omega
  have hamount : (- -((52 - n.log2 : Nat) : Int)).toNat = 52 - n.log2 := by omega
  unfold UnpackedFloat.ofNat UnpackedFloat.ofInt UnpackedFloat.normalize
  simp only [hcompare, Int.toNat_natCast, UnpackedFloat.round, htarget, decreaseExponent,
    Nat.shiftLeft_eq, Int.zero_sub, hamount]

/-- Multiplying by one changes nothing. -/
theorem mul_one_eq {m : Nat} {e : Int} {h : 0 < m} (hm : m.log2 = 52) (he : -1074 ≤ e) :
    UnpackedFloat.mul Format.binary64 (.finite .positive m e h)
      (.finite .positive (2 ^ 52) (-52) (Nat.two_pow_pos 52)) = .finite .positive m e h := by
  obtain ⟨m', d, h', hu, hm', hd, hv⟩ := isNormal_roundWithAccuracy (s := .positive)
    (m := m * 2 ^ 52) (k := 52) (e := e + -52) (by rw [log2_mul_two_pow h.ne', hm]) (by omega)
  rw [roundDiv_of_dvd (Nat.two_pow_pos 52) (Nat.dvd_mul_left _ _),
    Nat.mul_div_cancel _ (Nat.two_pow_pos 52)] at hv
  -- the product has 52 zero bits at its end, so rounding neither changes it nor makes it longer
  have hd0 : d = 0 := by
    have hlog := log2_mul_two_pow h'.ne' d
    rw [hv, hm, hm'] at hlog
    omega
  subst hd0
  rw [Nat.pow_zero, Nat.mul_one] at hv
  subst hv
  show roundWithAccuracy Format.binary64 _ (m' * 2 ^ 52) (e + -52) .exact = _
  refine Eq.trans hu ?_
  congr 1
  omega

theorem isNearest_ofNat {n : Nat} (hn : n ≠ 0) (h64 : n < 2 ^ 64) :
    IsNearest (Float.ofNat n).toModel.unpack .positive n := by
  by_cases hsmall : n < 2 ^ 53
  · -- the number as a float, multiplied by one
    have hfast : n < 2 ^ 53 ∧ 0 ≤ 22 := ⟨hsmall, Nat.zero_le _⟩
    have hlog : n.log2 ≤ 52 := Nat.le_of_lt_succ ((Nat.log2_lt hn).mpr hsmall)
    have hmod : n.toUInt64.toNat = n := Nat.mod_eq_of_lt h64
    have hfloat : (Float.ofNat n).toModel = Float.Model.pack (UnpackedFloat.mul Format.binary64
        (Float.Model.pack (UnpackedFloat.ofNat Format.binary64 n.toUInt64.toNat)).unpack
        (Float.ofBits 0x3FF0000000000000).toModel.unpack) := by
      show (Float.ofScientific n false 0).toModel = _
      rw [Float.ofScientific, dif_pos hfast]
      rfl
    have hnearest := isNearest_round (j := 52 - n.log2) hn h64 (by omega) (by omega)
    rw [hmod, ofNat_eq hn hlog, hnearest.unpack_pack, one_unpack] at hfloat
    obtain ⟨m, e, hpos, hu, hm, hlow, hhigh, -⟩ := id hnearest
    rw [hu, mul_one_eq hm hlow, ← hu] at hfloat
    rw [hfloat, hnearest.unpack_pack]
    exact hnearest
  · have hslow : ¬ (n < 2 ^ 53 ∧ 0 ≤ 22) := fun h => hsmall h.1
    have hfloat : (Float.ofNat n).toModel =
        Float.Model.pack (UnpackedFloat.ofScientific Format.binary64 n 0) := by
      show (Float.ofScientific n false 0).toModel = _
      rw [Float.ofScientific, dif_neg hslow]
      rfl
    have hnearest := isNearest_round (j := 53) hn h64 (by decide) (by omega)
    rw [hfloat, ofScientific_zero hn, hnearest.unpack_pack]
    exact hnearest

theorem IsNearest.neg {u : UnpackedFloat} {s : Sign} {n : Nat} (h : IsNearest u s n) :
    IsNearest u.neg (-s) n := by
  obtain ⟨m, e, hpos, rfl, hm⟩ := h
  exact ⟨m, e, hpos, rfl, hm⟩

theorem IsNearest.fraction {u : UnpackedFloat} {s : Sign} {n : Nat} (h : IsNearest u s n) :
    ∃ b, Binary.ofUnpacked? u = some b ∧ b.negative = Binary.isNegative s ∧
      b.grid = nearest n * 2 ^ Binary.gridBits := by
  obtain ⟨m, e, hpos, rfl, -, -, -, hv⟩ := h
  exact ⟨_, rfl, rfl, hv⟩

/-- The value of a float needs no rounding. -/
theorem nearest_of_grid {b : Binary} {n : Nat} (hc : b.Canonical)
    (h : b.grid = n * 2 ^ Binary.gridBits) : nearest n = n := by
  rcases Nat.lt_or_ge n (2 ^ 53) with hlt | hge
  · exact nearest_of_lt hlt
  have hn : n ≠ 0 := by omega
  obtain ⟨negative, m, e⟩ := b
  have hm : m ≠ 0 := by
    rintro rfl
    rw [Binary.grid, Nat.zero_mul] at h
    exact (Nat.mul_pos (Nat.pos_of_ne_zero hn) (Nat.two_pow_pos _)).ne h
  have hlog : m.log2 ≤ 52 := Nat.le_of_lt_succ ((Nat.log2_lt hm).mpr hc.bits)
  -- the logarithms tell how many zero bits end the number
  have hsum : m.log2 + (e + Binary.gridBits).toNat = n.log2 + Binary.gridBits := by
    rw [← log2_mul_two_pow hm, ← log2_mul_two_pow hn]
    exact congrArg Nat.log2 h
  have hexp : (e + Binary.gridBits).toNat = n.log2 - m.log2 + Binary.gridBits := by
    have := (Nat.le_log2 hn).mpr hge
    omega
  have hmul : n = m * 2 ^ (n.log2 - m.log2) := by
    refine Nat.eq_of_mul_eq_mul_right (Nat.two_pow_pos Binary.gridBits) ?_
    rw [← h, Binary.grid, hexp, Nat.pow_add, Nat.mul_assoc]
  refine nearest_of_dvd ?_
  calc 2 ^ (n.log2 - 52) ∣ 2 ^ (n.log2 - m.log2) := Nat.pow_dvd_pow 2 (by omega)
    _ ∣ n := ⟨m, hmul.trans (Nat.mul_comm _ _)⟩

namespace Number

/-- An integer rounded to 53 significant bits. -/
def nearestInteger (i : ℤ) : ℤ := if i < 0 then -(nearest i.natAbs : ℤ) else nearest i.natAbs

theorem isNearest_floatOfInt {i : Int64} (hi : i.toInt ≠ 0) :
    IsNearest (floatOfInt i).toModel.unpack (if i.toInt < 0 then .negative else .positive)
      i.toInt.natAbs := by
  have hlow := Int64.le_toInt i
  have hhigh := Int64.toInt_lt i
  unfold floatOfInt
  cases h : i.toInt with
  | ofNat n =>
    rw [h, Int.ofNat_eq_natCast] at hi hhigh
    have hneg : ¬ Int.ofNat n < 0 := Int.not_lt.mpr (Int.natCast_nonneg n)
    rw [if_neg hneg]
    exact isNearest_ofNat (n := n) (by omega) (by omega)
  | negSucc n =>
    rw [h] at hlow
    rw [if_pos (Int.negSucc_lt_zero n), Int.natAbs_negSucc]
    have hn := (isNearest_ofNat (n := n + 1) n.succ_ne_zero (by omega)).neg
    show IsNearest (Float.Model.pack (Float.ofNat (n + 1)).toModel.unpack.neg).unpack _ _
    rw [hn.unpack_pack]
    exact hn

/-- The float of an integer is at the place of the integer rounded to 53 bits. -/
theorem ofFloat?_floatOfInt (i : Int64) :
    Line.ofFloat? (floatOfInt i) = some (Line.ofInt (nearestInteger i.toInt)) := by
  by_cases hi : i.toInt = 0
  · have hunpack : (floatOfInt i).toModel.unpack = .zero .positive := by
      rw [floatOfInt, hi]
      rfl
    have hzero : nearestInteger 0 = 0 := rfl
    rw [Line.ofFloat?, hunpack, hi, hzero, Line.ofInt, Int.zero_mul]
    exact congrArg (some ∘ Line.point) (Binary.value_eq_zero rfl)
  · obtain ⟨b, hb, hs, hg⟩ := (isNearest_floatOfInt hi).fraction
    rw [← Binary.ofFloat?_eq] at hb
    have hvalue : b.value = nearestInteger i.toInt * (2 ^ Binary.gridBits : ℕ) := by
      rw [Binary.value, hs, hg, nearestInteger, Nat.cast_mul]
      by_cases hneg : i.toInt < 0
      · rw [if_pos hneg, if_pos hneg, Binary.isNegative, if_pos rfl, neg_mul]
      · rw [if_neg hneg, if_neg hneg, Binary.isNegative, if_neg Bool.false_ne_true]
    rw [Line.ofFloat?_of_fraction hb, hvalue, Line.ofInt]

theorem nearestInteger_mono : Monotone nearestInteger := by
  intro i j h
  have hcast : ∀ {m n : ℕ}, m ≤ n → (nearest m : ℤ) ≤ nearest n := fun h => by
    exact_mod_cast nearest_mono h
  rw [nearestInteger, nearestInteger]
  split <;> split
  · exact Int.neg_le_neg (hcast (by omega))
  · omega
  · omega
  · exact hcast (by omega)

theorem nearestInteger_of_natAbs_le {i : ℤ} (h : i.natAbs ≤ 2 ^ 53) : nearestInteger i = i := by
  have hexact : nearest i.natAbs = i.natAbs := by
    rcases h.lt_or_eq with hlt | heq
    · exact nearest_of_lt hlt
    · rw [heq]
      decide
  rw [nearestInteger, hexact]
  split <;> omega

/-- An integer that is a float exactly is not rounded. -/
theorem nearestInteger_of_ofFloat? {x : Float} {i : ℤ} (h : Line.ofFloat? x = some (Line.ofInt i)) :
    nearestInteger i = i := by
  obtain ⟨b, hb, hvalue⟩ := Line.ofFloat?_eq_some_point h
  have hcan := Binary.ofFloat?_canonical hb
  have hexact := nearest_of_grid hcan
    (Binary.grid_of_toInt? hcan (Binary.toInt?_of_value hcan hvalue))
  rw [nearestInteger, hexact]
  split <;> omega

end Number

end Lua
