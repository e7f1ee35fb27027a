import PolyExpression.Decimal.Numeral
import PolyExpression.Parameter.Range
import PolyExpression.Proofs.Arithmetic

/-!
Numerals of any length. A whole number over a power of ten is divided in floats while both are small, and in exact
arithmetic else. Main statement: either way the result is the float nearest to the quotient, without a minus sign, or
infinite where the quotient is beyond every float; so that it is nearest to the quotient once both are moved down to
one.
-/

namespace PolyExpression

open Float.Model Rounding
open Float.Model.UnpackedFloat (Sign Accuracy)

/-! ### Signs -/

def sign? : UnpackedFloat → Option Sign
  | .notANumber => none
  | .infinity s | .zero s | .finite s _ _ _ => some s

/-- The float is a number, or infinite, and has no minus sign. -/
def IsUnsigned (u : UnpackedFloat) : Prop := sign? u = some .positive

section Signs

variable {u v : UnpackedFloat} {a b : ℚ}

theorem isUnsigned_roundWithAccuracy (m : ℕ) (e : ℤ) (accuracy : Accuracy) :
    IsUnsigned (UnpackedFloat.roundWithAccuracy Format.binary64 .positive m e accuracy) := by
  unfold UnpackedFloat.roundWithAccuracy IsUnsigned
  dsimp only
  split
  · rfl
  · rfl

theorem IsUnsigned.div (hu : IsUnsigned u) (hv : IsUnsigned v) (ha : rational? u = some a) (hb : rational? v = some b)
    (hne : b ≠ 0) : IsUnsigned (u.div Format.binary64 v) := by
  obtain ⟨t, rfl, rfl⟩ | ⟨t, m₂, e₂, hm₂, rfl, rfl⟩ := rational?_cases hb
  · exact absurd rfl hne
  · obtain rfl : t = .positive := Option.some.inj hv
    obtain ⟨s, rfl, rfl⟩ | ⟨s, m₁, e₁, hm₁, rfl, rfl⟩ := rational?_cases ha
    · obtain rfl : s = .positive := Option.some.inj hu
      rfl
    · obtain rfl : s = .positive := Option.some.inj hu
      exact isUnsigned_roundWithAccuracy _ _ _

/-- A number above zero has no minus sign. -/
theorem isUnsigned_of_pos (ha : rational? u = some a) (hpos : 0 < a) : IsUnsigned u := by
  obtain ⟨s, rfl, rfl⟩ | ⟨s, m, e, hm, rfl, rfl⟩ := rational?_cases ha
  · exact absurd hpos (lt_irrefl 0)
  · cases s with
    | positive => rfl
    | negative =>
        have hmagnitude : 0 < (m : ℚ) * 2 ^ e := mul_pos (Nat.cast_pos.mpr hm) (two_zpow_pos e)
        rw [sign_negative, neg_one_mul] at hpos
        exact absurd hpos (neg_neg_of_pos hmagnitude).not_gt

theorem IsUnsigned.not_isMinusZero {x : Float} (hx : IsUnsigned x.toModel.unpack) : ¬IsMinusZero x := by
  intro hzero
  rw [hzero] at hx
  cases hx

theorem isUnsigned_countToFloat {n : ℕ} (hn : n < 2 ^ 53) : IsUnsigned (countToFloat n).toModel.unpack := by
  rcases Nat.eq_zero_or_pos n with rfl | hpos
  · rfl
  · exact isUnsigned_of_pos (denotes_countToFloat hn) (Nat.cast_pos.mpr hpos)

/-- A zero without a minus sign. -/
theorem Denotes.eq_zero {x : Float} (hx : Denotes x 0) (hsign : IsUnsigned x.toModel.unpack) : x = 0.0 := by
  obtain ⟨-, -, hsame | ⟨rfl, -⟩ | ⟨rfl, -⟩⟩ := Float.beq_iff_ne_nan_and_eq.mp (hx.beq denotes_zero)
  · exact hsame
  · rfl
  · cases hsign

end Signs

/-! ### Readings -/

/-- What a number that is not negative is read as: the float it is rounded to, or an infinite one if it is beyond every
float. -/
structure IsReading (x : Float) (q : ℚ) : Prop where
  isUnsigned : IsUnsigned x.toModel.unpack
  rounded : (∃ a, Denotes x a ∧ Rounded q a) ∨ 2 ^ (1023 : ℤ) ≤ q ∧ x.toModel.unpack = .infinity .positive

theorem isReading_of_roundsTo {u : UnpackedFloat} {q : ℚ} (hu : RoundsTo u q) (hsign : IsUnsigned u) (hq : 0 ≤ q) :
    IsReading (.ofModel (.pack u)) q := by
  obtain ⟨hunpack, hrounded⟩ | ⟨hlarge, s, m, e, hm, rfl, hinfinite⟩ := unpack_pack_of_roundsTo hu
  · exact ⟨by rwa [hunpack], .inl hrounded⟩
  · obtain rfl : s = .positive := Option.some.inj hsign
    rw [abs_of_nonneg hq] at hlarge
    exact ⟨by rw [hinfinite]; rfl, .inr ⟨hlarge, hinfinite⟩⟩

/-- No float is nearer to the number. -/
def IsNearest (x : Float) (q : ℚ) : Prop := ∃ a, Denotes x a ∧ ∀ y b, Denotes y b → |a - q| ≤ |b - q|

theorem isNearest_of_rounded {x : Float} {q a : ℚ} (hx : Denotes x a) (h : Rounded q a) : IsNearest x q := by
  refine ⟨a, hx, fun y b hy => ?_⟩
  obtain ⟨j, g, hg, rfl, hsmall⟩ := hy.exists_fits
  exact h.nearest j g hg hsmall

theorem isNearest_of_denotes {x : Float} {q : ℚ} (hx : Denotes x q) : IsNearest x q :=
  isNearest_of_rounded hx (.refl q)

namespace IsReading

variable {x : Float} {q : ℚ}

theorem denotes (h : IsReading x q) (hsmall : q < 2 ^ (1023 : ℤ)) : ∃ a, Denotes x a ∧ Rounded q a :=
  h.rounded.resolve_right fun hlarge => hlarge.1.not_gt hsmall

/-- Only what is above one is moved. -/
theorem unitClamp_eq (h : IsReading x q) : unitClamp x = if 1.0 < x then 1.0 else x := by
  have hsign := h.isUnsigned
  have hnan : x.isNaN = x.toModel.unpack.isNaN := rfl
  have hneg := lt_iff_compare x 0.0
  unfold unitClamp
  cases hu : x.toModel.unpack with
  | notANumber =>
      rw [hu] at hsign
      cases hsign
  | _ s =>
      rw [hu] at hsign hnan hneg
      obtain rfl : s = .positive := Option.some.inj hsign
      rw [hnan, if_neg (by exact Bool.false_ne_true), if_neg fun hlt => Bool.false_ne_true (hneg.mp hlt)]

theorem isUnsigned_unitClamp (h : IsReading x q) : IsUnsigned (unitClamp x).toModel.unpack := by
  rw [h.unitClamp_eq]
  split
  · rfl
  · exact h.isUnsigned

/-- A reading that is moved down to one is nearest to the number that is moved down to one. -/
theorem isNearest_unitClamp (h : IsReading x q) : IsNearest (unitClamp x) (min q 1) := by
  rw [h.unitClamp_eq]
  obtain ⟨a, hx, hrounded⟩ | ⟨hlarge, hinfinite⟩ := h.rounded
  · have hlt := denotes_one.lt_iff hx
    have hnearest := hrounded.nearest 1 0 (by norm_num) (by norm_num)
    rw [Int.cast_one, zpow_zero, mul_one] at hnearest
    rcases le_total q 1 with hq | hq
    · -- One itself is a float, so what is read of a smaller number is not larger than one.
      have ha : ¬1 < a := fun hgt => by
        rw [abs_of_nonneg (by linarith), abs_of_nonneg (by linarith)] at hnearest
        linarith
      rw [if_neg (hlt.not.mpr ha), min_eq_left hq]
      exact isNearest_of_rounded hx hrounded
    · rw [min_eq_right hq]
      split
      · exact isNearest_of_denotes denotes_one
      · next hle =>
        have ha : a ≤ 1 := not_lt.mp (hlt.not.mp hle)
        rw [abs_of_nonpos (by linarith), abs_of_nonpos (by linarith)] at hnearest
        obtain rfl : a = 1 := le_antisymm ha (by linarith)
        exact isNearest_of_denotes hx
  · have hgt : 1.0 < x := by
      rw [lt_iff_compare, hinfinite]
      rfl
    have hq : 1 ≤ q := (one_le_zpow₀ one_le_two (by norm_num)).trans hlarge
    rw [if_pos hgt, min_eq_right hq]
    exact isNearest_of_denotes denotes_one

end IsReading

namespace Decimal

/-! ### Small numerals -/

/-- The powers of ten by which small numbers are divided are exact. -/
theorem denotes_powerOfTen {places : ℕ} (hplaces : places ≤ 22)
    (h : places < Float.exactlyRepresentablePowersOfTen.size) :
    Denotes Float.exactlyRepresentablePowersOfTen[places] ((10 ^ places : ℕ) : ℚ) := by
  have hall : ∀ places : Fin 23, ∀ h : places.val < Float.exactlyRepresentablePowersOfTen.size,
      rational? Float.exactlyRepresentablePowersOfTen[places.val].toModel.unpack =
        some ((10 ^ places.val : ℕ) : ℚ) := by
    decide +kernel
  exact hall ⟨places, by omega⟩ h

theorem powerOfTen_pos (places : ℕ) : (0 : ℚ) < (10 ^ places : ℕ) := by positivity

theorem quotient_nonneg (n places : ℕ) : (0 : ℚ) ≤ n / (10 ^ places : ℕ) :=
  div_nonneg (Nat.cast_nonneg n) (powerOfTen_pos places).le

theorem isReading_quotient {n places : ℕ} (hn : n < 2 ^ 53) (hplaces : places ≤ 22)
    (h : places < Float.exactlyRepresentablePowersOfTen.size) :
    IsReading (countToFloat n / Float.exactlyRepresentablePowersOfTen[places]) (n / (10 ^ places : ℕ)) := by
  have hcount := denotes_countToFloat hn
  have hpower := denotes_powerOfTen hplaces h
  have hpos := powerOfTen_pos places
  have hsign := (isUnsigned_countToFloat hn).div (isUnsigned_of_pos hpower hpos) hcount hpower hpos.ne'
  exact isReading_of_roundsTo (roundsTo_div hcount hpower hpos.ne') hsign (quotient_nonneg n places)

/-! ### Other numerals -/

/-- What is nearer to zero than half of the smallest float is rounded to zero. -/
theorem roundsTo_zero_of_le {q : ℚ} (hlow : 0 ≤ q) (hhigh : q ≤ 2 ^ (-1075 : ℤ)) : RoundsTo (.zero .positive) q := by
  refine ⟨0, rfl, ⟨?_, fun j g hg _ => ?_⟩, trivial⟩
  · rw [zero_sub, abs_neg, abs_of_nonneg hlow]
    have hpart : 0 ≤ q / 2 ^ 53 := by positivity
    linarith
  · rw [zero_sub, abs_neg, abs_of_nonneg hlow]
    rcases eq_or_ne j 0 with rfl | hne
    · rw [Int.cast_zero, zero_mul, zero_sub, abs_neg]
      exact le_abs_self q
    · have hone : (1 : ℚ) ≤ |(j : ℚ)| := by exact_mod_cast Int.one_le_abs hne
      have hleast : (2 : ℚ) * 2 ^ (-1075 : ℤ) ≤ 2 ^ g :=
        (zpow_one_add₀ two_ne_zero (-1075 : ℤ)).symm.le.trans (zpow_le_zpow_right₀ one_le_two hg)
      have hsize : |(j : ℚ) * 2 ^ g| = |(j : ℚ)| * 2 ^ g := by rw [abs_mul, abs_of_pos (two_zpow_pos g)]
      have hlarge : 1 * (2 : ℚ) ^ g ≤ |(j : ℚ)| * 2 ^ g := mul_le_mul_of_nonneg_right hone (two_zpow_pos g).le
      have htriangle := abs_sub_abs_le_abs_sub ((j : ℚ) * 2 ^ g) q
      rw [hsize, abs_of_nonneg hlow] at htriangle
      linarith

/-- With that many places more than bits nothing is left of a number. -/
theorem quotient_le {n places : ℕ} (h : 2 ^ 11 + n.log2 < places) : (n : ℚ) / (10 ^ places : ℕ) ≤ 2 ^ (-1075 : ℤ) := by
  have hn : n ≤ 2 ^ (n.log2 + 1) := Nat.lt_log2_self.le
  have hpower : n * 2 ^ 1075 ≤ 10 ^ places :=
    calc n * 2 ^ 1075 ≤ 2 ^ (n.log2 + 1) * 2 ^ 1075 := Nat.mul_le_mul_right _ hn
      _ = 2 ^ (n.log2 + 1 + 1075) := (pow_add ..).symm
      _ ≤ 2 ^ places := Nat.pow_le_pow_right two_pos (by omega)
      _ ≤ 10 ^ places := Nat.pow_le_pow_left (by decide) _
  rw [div_le_iff₀ (powerOfTen_pos places), zpow_neg, ← div_eq_inv_mul, le_div_iff₀ (two_zpow_pos 1075)]
  exact_mod_cast hpower

theorem mul_finite (s t : Sign) (m₁ m₂ : ℕ) (e₁ e₂ : ℤ) (hm₁ : 0 < m₁) (hm₂ : 0 < m₂) :
    UnpackedFloat.mul Format.binary64 (.finite s m₁ e₁ hm₁) (.finite t m₂ e₂ hm₂) =
      UnpackedFloat.roundWithAccuracy Format.binary64 (s * t) (m₁ * m₂) (e₁ + e₂) .exact := rfl

theorem ofScientific_spec (n places : ℕ) :
    RoundsTo (UnpackedFloat.ofScientific Format.binary64 n (Int.negOfNat places)) (n / (10 ^ places : ℕ))
      ∧ IsUnsigned (UnpackedFloat.ofScientific Format.binary64 n (Int.negOfNat places)) := by
  have hexponent : Int.negOfNat places = -(places : ℤ) := Int.negOfNat_eq
  have hbits : Format.binary64.exponentBits = 11 := rfl
  unfold UnpackedFloat.ofScientific
  rw [hexponent, hbits]
  split
  · next hzero =>
    rw [hzero, Nat.cast_zero, zero_div]
    exact ⟨roundsTo_zero _, rfl⟩
  next hn =>
  rw [if_neg (by omega)]
  split
  · next hsmall => exact ⟨roundsTo_zero_of_le (quotient_nonneg n places) (quotient_le (by omega)), rfl⟩
  split
  · next hwhole =>
    obtain rfl : places = 0 := by omega
    have hgrid : (-53 : ℤ) ≤ grid (n <<< 53) (-53) := by
      rw [grid_eq, log2_shiftLeft hn]
      omega
    have hvalue : (n : ℚ) / (10 ^ 0 : ℕ) = sign .positive * (((n <<< 53 : ℕ) : ℚ) * 2 ^ (-53 : ℤ)) := by
      rw [pow_zero, Nat.cast_one, div_one, sign_positive, one_mul, Nat.shiftLeft_eq, zpow_neg]
      push_cast
      exact (mul_inv_cancel_right₀ (two_zpow_pos 53).ne' _).symm
    have hfactor : n <<< Format.binary64.mantissaBits * 10 ^ (-((0 : ℕ) : ℤ)).toNat = n <<< 53 := mul_one _
    have hplace : -(Format.binary64.mantissaBits : ℤ) + 0 = -53 := rfl
    have hsign : Sign.positive * .positive = .positive := rfl
    rw [mul_finite, hfactor, hplace, hsign, hvalue]
    exact ⟨roundsTo_of_marks .positive (Marks.exact _) hgrid, isUnsigned_roundWithAccuracy _ _ _⟩
  · have hplaces : (-(-(places : ℤ))).toNat = places := by rw [neg_neg, Int.toNat_natCast]
    have hpos := powerOfTen_pos places
    simp only [hplaces]
    have hnumerator : rational? (.finite .positive n 0 (Nat.pos_of_ne_zero hn)) = some (n : ℚ) := by
      simp [rational?]
    have hdenominator : rational? (.finite .positive (10 ^ places) 0 (by positivity)) =
        some ((10 ^ places : ℕ) : ℚ) := by
      simp [rational?]
    exact ⟨roundsTo_div hnumerator hdenominator hpos.ne', IsUnsigned.div rfl rfl hnumerator hdenominator hpos.ne'⟩

theorem isReading_ofScientific (n places : ℕ) :
    IsReading (OfScientific.ofScientific n true places) (n / (10 ^ places : ℕ)) := by
  by_cases hsmall : n < 2 ^ 53 ∧ places ≤ 22
  · have hentry : places < Float.exactlyRepresentablePowersOfTen.size := Nat.lt_succ_of_le hsmall.2
    have hfast : (OfScientific.ofScientific n true places : Float) =
        countToFloat n / Float.exactlyRepresentablePowersOfTen[places] := dif_pos hsmall
    rw [hfast]
    exact isReading_quotient hsmall.1 hsmall.2 hentry
  · have hexact : (OfScientific.ofScientific n true places : Float) =
        .ofModel (.pack (UnpackedFloat.ofScientific Format.binary64 n (Int.negOfNat places))) := dif_neg hsmall
    obtain ⟨hrounds, hsign⟩ := ofScientific_spec n places
    rw [hexact]
    exact isReading_of_roundsTo hrounds hsign (quotient_nonneg n places)

end Decimal

end PolyExpression
