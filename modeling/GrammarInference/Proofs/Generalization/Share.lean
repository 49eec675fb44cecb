/-
GrammarInference/Proofs/Generalization/Share.lean

Shares of counts as doubles, compared with a bound.

Design.  A share is a quotient of two counts, each converted to a double.  Of rounding, two things matter: it keeps
the sign, so that no share is below zero (`pos_of_share_lt`); and a count that is not zero does not become zero or
undefined, so that a share of nothing is zero exactly (`share_zero_lt_iff`).  The second one follows the conversion
through its steps: every rounding starts from a mantissa that fills all of its bits, and leaves such a mantissa
(`normal_roundWithAccuracy`), which packing keeps apart from zero and from what is no number (`Normal.unpack_pack`).
-/
import Mathlib

namespace GrammarInference

namespace Share

open Float.Model (Format totalExponent UnpackedFloat)
open Float.Model.UnpackedFloat

variable {u v : UnpackedFloat} {m k n c : Nat} {e lo : Int} {a : Accuracy} {r : Float}

/-! ### Signs -/

/-- A value with a positive sign, or no number. -/
def HasPlus : UnpackedFloat → Prop
  | .infinity s | .zero s | .finite s _ _ _ => s = .positive
  | .notANumber => True

theorem unpackSign_packComponents {spec : Format} {s : Sign} {x : BitVec spec.exponentBits}
    {y : BitVec spec.mantissaBitsWithoutImplicit} : unpackSign (packComponents spec s x y) = s.toBitVec := by
  ext i hi
  obtain rfl : i = 0 := Nat.lt_one_iff.mp hi
  simp [unpackSign, packComponents, BitVec.getLsbD_append, BitVec.getElem_append]

theorem hasPlus_unpack_packComponents {x : BitVec 11} {y : BitVec 52} :
    HasPlus (unpack Format.binary64 (packComponents Format.binary64 .positive x y)) := by
  simp only [unpack, unpackMantissa_packComponents, unpackExponent_packComponents, unpackSign_packComponents]
  split
  · split
    · rfl
    · trivial
  · split
    · split <;> rfl
    · rfl

/-- Packing keeps the sign. -/
theorem HasPlus.unpack_pack (h : HasPlus u) : HasPlus (Float.Model.pack u).unpack := by
  show HasPlus (unpack Format.binary64 (pack Format.binary64 u))
  cases u with
  | infinity s =>
    cases h
    exact hasPlus_unpack_packComponents
  | notANumber => exact hasPlus_unpack_packComponents
  | zero s =>
    cases h
    exact hasPlus_unpack_packComponents
  | finite s m e hm =>
    cases h
    simp only [pack]
    split
    · exact hasPlus_unpack_packComponents
    · split <;> exact hasPlus_unpack_packComponents

theorem hasPlus_roundWithAccuracy : HasPlus (roundWithAccuracy Format.binary64 .positive m e a) := by
  simp only [roundWithAccuracy]
  split <;> rfl

theorem HasPlus.div (hu : HasPlus u) (hv : HasPlus v) : HasPlus (div Format.binary64 u v) := by
  cases u <;> cases v <;> cases hu <;> cases hv <;>
    first | trivial | rfl | exact hasPlus_roundWithAccuracy

/-- What is more than a value that is not negative is more than zero. -/
theorem HasPlus.zero_lt (hu : HasPlus u) (h : u.lt v = true) : (UnpackedFloat.zero .positive).lt v = true := by
  have hnegative : ∀ {w}, v = w → u.lt w = false → False := by
    rintro w rfl hw
    rw [hw] at h
    cases h
  cases v with
  | infinity s =>
    cases s with
    | positive => rfl
    | negative => exact (hnegative rfl (by cases u <;> cases hu <;> rfl)).elim
  | notANumber => exact (hnegative rfl (by cases u <;> rfl)).elim
  | zero s => exact (hnegative rfl (by cases u <;> cases hu <;> rfl)).elim
  | finite s m e hm =>
    cases s with
    | positive => rfl
    | negative => exact (hnegative rfl (by cases u <;> cases hu <;> rfl)).elim

/-- No value is less than itself. -/
theorem lt_self (u : UnpackedFloat) : u.lt u = false := by
  cases u with
  | infinity s => cases s <;> rfl
  | notANumber => rfl
  | zero s => rfl
  | finite s m e hm => cases s <;> simp [UnpackedFloat.lt, UnpackedFloat.compare]

/-! ### Mantissas that fill their bits -/

/-- A positive value whose mantissa fills all of its bits, with an exponent of at least `lo`, or the value that is
too large. -/
inductive Normal (lo : Int) : UnpackedFloat → Prop where
  | infinity : Normal lo (.infinity .positive)
  | finite {m : Nat} {e : Int} {hm : 0 < m} (hmin : 2 ^ 52 ≤ m) (hmax : m < 2 ^ 53) (he : lo ≤ e) :
      Normal lo (.finite .positive m e hm)

theorem Normal.hasPlus (h : Normal lo u) : HasPlus u := by
  cases h <;> rfl

theorem Normal.mono {lo' : Int} (h : Normal lo u) (hlo : lo' ≤ lo) : Normal lo' u := by
  cases h with
  | infinity => exact .infinity
  | finite hmin hmax he => exact .finite hmin hmax (hlo.trans he)

theorem mantissa_shiftRight (x : ExtendedMantissa) (k : Nat) : (x >>> k).mantissa = x.mantissa / 2 ^ k := by
  show (Nat.repeat ExtendedMantissa.shiftRightOne k x).mantissa = _
  induction k with
  | zero => rw [Nat.repeat, Nat.pow_zero, Nat.div_one]
  | succ k ih =>
    rw [Nat.repeat, ExtendedMantissa.shiftRightOne, ih, Nat.div_div_eq_div_mul, Nat.pow_succ]

theorem mantissa_ofMantissaAndAccuracy : (ExtendedMantissa.ofMantissaAndAccuracy m a).mantissa = m := by
  rcases a with - | (- | - | -) <;> rfl

theorem roundedMantissa_bounds (x : ExtendedMantissa) :
    x.mantissa ≤ x.roundedMantissa ∧ x.roundedMantissa ≤ x.mantissa + 1 := by
  rcases x with ⟨m, r, s⟩
  cases r <;> cases s <;>
    simp only [ExtendedMantissa.roundedMantissa, ExtendedMantissa.accuracy, Accuracy.roundToNearestEven] <;> omega

/-- The bits of a long mantissa that are kept. -/
theorem div_two_pow_bounds (hm : 2 ^ 52 ≤ m) : 2 ^ 52 ≤ m / 2 ^ (m.log2 - 52) ∧ m / 2 ^ (m.log2 - 52) < 2 ^ 53 := by
  have hne : m ≠ 0 := by omega
  have hlog : 52 ≤ m.log2 := (Nat.le_log2 hne).mpr hm
  constructor
  · rw [Nat.le_div_iff_mul_le (Nat.two_pow_pos _), ← Nat.pow_add, Nat.add_sub_cancel' hlog]
    exact Nat.log2_self_le hne
  · rw [Nat.div_lt_iff_lt_mul (Nat.two_pow_pos _), ← Nat.pow_add]
    have hexponent : 53 + (m.log2 - 52) = m.log2 + 1 := by omega
    rw [hexponent]
    exact Nat.lt_log2_self

/-- A long mantissa is cut off behind its first bits. -/
theorem shiftToTargetExponent_spec (hm : 2 ^ 52 ≤ m) (he : -1074 ≤ e) :
    (shiftToTargetExponent Format.binary64 m e a).1.mantissa = m / 2 ^ (m.log2 - 52) ∧
      (shiftToTargetExponent Format.binary64 m e a).2 = e + (m.log2 - 52 : Nat) := by
  have hlog : 52 ≤ m.log2 := (Nat.le_log2 (by omega)).mpr hm
  have hshift : (Format.binary64.targetExponent (totalExponent m e) - e).toNat = m.log2 - 52 := by
    simp only [Format.targetExponent, totalExponent, Format.mantissaBits, Format.minExponent]
    omega
  simp only [shiftToTargetExponent, shiftToExponent, hshift, mantissa_shiftRight, mantissa_ofMantissaAndAccuracy,
    and_self]

/-- Rounding a long mantissa leaves one that fills its bits. -/
theorem normal_roundWithAccuracy (hm : 2 ^ 52 ≤ m) (he : -1074 ≤ e) :
    Normal e (roundWithAccuracy Format.binary64 .positive m e a) := by
  obtain ⟨hmantissa, hexponent⟩ := shiftToTargetExponent_spec (a := a) hm he
  have hkept := div_two_pow_bounds hm
  have hrounded := roundedMantissa_bounds (shiftToTargetExponent Format.binary64 m e a).1
  rw [hmantissa] at hrounded
  simp only [roundWithAccuracy]
  generalize (shiftToTargetExponent Format.binary64 m e a).1.roundedMantissa = k at hrounded
  generalize (shiftToTargetExponent Format.binary64 m e a).2 = e' at hexponent
  -- rounding up can give one bit too many, so the result is shifted once more
  obtain ⟨hmantissa', hexponent'⟩ := shiftToTargetExponent_spec (m := k) (e := e') (a := .exact) (by omega) (by omega)
  have hkept' := div_two_pow_bounds (m := k) (by omega)
  rw [dif_neg (by omega)]
  exact .finite (by omega) (by omega) (by omega)

/-- An exponent that is neither that of small values nor that of infinity belongs to a mantissa with its first bit. -/
theorem normal_unpack_packComponents (hk : 0 < k) (hk' : k < 2047) (hmin : 2 ^ 52 ≤ m) (hmax : m < 2 ^ 53)
    (hlo : lo ≤ k - 1075) : Normal lo (unpack Format.binary64
      (packComponents Format.binary64 .positive (BitVec.ofNat 11 k) (BitVec.ofNat 52 m))) := by
  have hexponent : (BitVec.ofNat 11 k).toNat = k := by
    rw [BitVec.toNat_ofNat, Nat.mod_eq_of_lt (by omega)]
  have hfinite : BitVec.ofNat 11 k ≠ -1#11 := by
    intro h
    have hvalue : k = 2047 := hexponent.symm.trans (congrArg BitVec.toNat h)
    omega
  have hlarge : BitVec.ofNat 11 k ≠ 0#11 := by
    intro h
    have hvalue : k = 0 := hexponent.symm.trans (congrArg BitVec.toNat h)
    omega
  have hmantissa : (1#1 ++ BitVec.ofNat 52 m).toNat = m := by
    rw [BitVec.toNat_append, BitVec.toNat_ofNat, BitVec.toNat_ofNat, Nat.shiftLeft_eq, Nat.mul_comm,
      ← Nat.two_pow_add_eq_or_of_lt (Nat.mod_lt m (Nat.two_pow_pos 52))]
    omega
  simp only [unpack, unpackMantissa_packComponents, unpackExponent_packComponents, unpackSign_packComponents]
  rw [if_neg hfinite, if_neg hlarge]
  refine .finite ?_ ?_ ?_
  · rwa [hmantissa]
  · rwa [hmantissa]
  · rw [hexponent]
    show lo ≤ k - (1023 + 52)
    omega

/-- Packing keeps such a value, or finds it too large. -/
theorem Normal.unpack_pack (h : Normal lo u) (hlo : -1074 ≤ lo) : Normal lo (Float.Model.pack u).unpack := by
  show Normal lo (unpack Format.binary64 (pack Format.binary64 u))
  have hinfinity : Normal lo (unpack Format.binary64 (packedInfinity Format.binary64 .positive)) := .infinity
  cases h with
  | infinity => exact hinfinity
  | finite hmin hmax he =>
    rename_i m e hm
    have hlog : m.log2 + 1 = Format.binary64.mantissaBits := by
      rw [(Nat.log2_eq_iff (by omega)).mpr ⟨hmin, hmax⟩]
      rfl
    simp only [pack, if_pos hlog]
    split
    · exact hinfinity
    · rename_i hsmall
      simp only [Format.exponentBias] at hsmall ⊢
      exact normal_unpack_packComponents (by omega) (by omega) hmin hmax (by omega)

/-! ### Counts -/

theorem unpack_ofNat_zero : (Float.ofNat 0).toModel.unpack = .zero .positive := rfl

theorem normal_round (hn : 0 < n) : Normal (-52) (UnpackedFloat.round Format.binary64 .positive n 0) := by
  have htarget : Format.binary64.targetExponent (totalExponent n 0) = n.log2 - 52 := by
    simp only [Format.targetExponent, totalExponent, Format.mantissaBits, Format.minExponent]
    omega
  have hshift : (0 - ((n.log2 : Int) - 52)).toNat = 52 - n.log2 := by omega
  have hlong : 2 ^ 52 ≤ n <<< (52 - n.log2) := by
    rw [Nat.shiftLeft_eq]
    have hpow : 2 ^ 52 ≤ 2 ^ n.log2 * 2 ^ (52 - n.log2) := by
      rw [← Nat.pow_add]
      exact Nat.pow_le_pow_right (by omega) (by omega)
    exact hpow.trans (Nat.mul_le_mul_right _ (Nat.log2_self_le (by omega)))
  simp only [UnpackedFloat.round, htarget, decreaseExponent, hshift]
  have hrounded := normal_roundWithAccuracy (a := .exact) (e := 0 - (52 - n.log2 : Nat)) hlong (by omega)
  exact hrounded.mono (by omega)

theorem unpack_one : (Float.ofBits 0x3FF0000000000000).toModel.unpack = .finite .positive (2 ^ 52) (-52) (by decide) :=
  rfl

/-- A count that is not zero is not converted to zero. -/
theorem normal_ofNat (hn : 0 < n) : Normal (-104) (Float.ofNat n).toModel.unpack := by
  show Normal (-104) (Float.ofScientific n false 0).toModel.unpack
  rw [Float.ofScientific]
  split
  · -- a small count is converted as a machine word, and multiplied by one
    rename_i h
    have hword : n.toUInt64.toNat = n := Nat.mod_eq_of_lt (by omega)
    have hcount : Normal (-52) (n.toUInt64.toFloat).toModel.unpack := by
      show Normal (-52) (Float.Model.pack (ofInt Format.binary64 (n.toUInt64.toNat : Int))).unpack
      rw [hword, ofInt, UnpackedFloat.normalize, Int.compare_eq_gt.mpr (by omega)]
      exact (normal_round hn).unpack_pack (by omega)
    show Normal (-104) (Float.Model.pack (mul Format.binary64 (n.toUInt64.toFloat).toModel.unpack
      (Float.ofBits 0x3FF0000000000000).toModel.unpack)).unpack
    refine Normal.unpack_pack ?_ (by omega)
    rw [unpack_one]
    generalize (n.toUInt64.toFloat).toModel.unpack = u at hcount
    cases hcount with
    | infinity => exact .infinity
    | finite hmin hmax he =>
      simp only [mul]
      exact (normal_roundWithAccuracy (by omega) (by omega)).mono (by omega)
  · show Normal (-104) (Float.Model.pack (ofScientific Format.binary64 n 0)).unpack
    refine Normal.unpack_pack ?_ (by omega)
    have hlimit : ¬(0 : Int) < -(2 ^ 11 + n.log2) := by omega
    rw [ofScientific, dif_neg (by omega), if_neg (by decide), if_neg hlimit, if_pos (by omega)]
    simp only [mul]
    have hlong : 2 ^ 52 ≤ n <<< 53 * 1 := by
      rw [Nat.shiftLeft_eq]
      omega
    exact (normal_roundWithAccuracy hlong (by decide)).mono (by decide)

theorem hasPlus_ofNat (n : Nat) : HasPlus (Float.ofNat n).toModel.unpack := by
  rcases Nat.eq_zero_or_pos n with rfl | hn
  · rfl
  · exact (normal_ofNat hn).hasPlus

/-! ### Shares -/

theorem unpack_div (x y : Float) : (x / y).toModel.unpack =
    (Float.Model.pack (div Format.binary64 x.toModel.unpack y.toModel.unpack)).unpack := rfl

theorem lt_iff (x y : Float) : x < y ↔ x.toModel.unpack.lt y.toModel.unpack = true := by
  show decide (x.toModel < y.toModel) = true ↔ _
  exact decide_eq_true_iff

theorem not_lt_self (x : Float) : ¬x < x := by
  rw [lt_iff, lt_self]
  exact Bool.false_ne_true

/-- No share is below zero. -/
theorem pos_of_share_lt (h : Float.ofNat c / Float.ofNat n < r) : 0 < r := by
  have hplus : HasPlus (Float.ofNat c / Float.ofNat n).toModel.unpack :=
    ((hasPlus_ofNat c).div (hasPlus_ofNat n)).unpack_pack
  exact (lt_iff 0 r).mpr (hplus.zero_lt ((lt_iff _ r).mp h))

/-- A share of nothing is zero. -/
theorem share_zero_lt_iff (hn : 0 < n) : Float.ofNat 0 / Float.ofNat n < r ↔ 0 < r := by
  have hzero : (Float.ofNat 0 / Float.ofNat n).toModel.unpack = .zero .positive := by
    rw [unpack_div, unpack_ofNat_zero]
    have hnormal := normal_ofNat hn
    generalize (Float.ofNat n).toModel.unpack = u at hnormal
    cases hnormal <;> simp only [div] <;> rfl
  rw [lt_iff, lt_iff, hzero]
  exact Iff.rfl

end Share

end GrammarInference
