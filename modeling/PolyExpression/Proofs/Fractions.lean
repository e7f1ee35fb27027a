import PolyExpression.Parameter.Id
import PolyExpression.Proofs.Arithmetic

/-!
The two views of a parameter. Float division and multiplication lose so little that a value is found again from its
fraction, and that fractions which differ little stand for the same value unless they are near a half step. Main
statement: however a parameter is set, its integer is the one its fraction stands for.
-/

namespace PolyExpression

open Rounding

variable {x : Float} {a : ℚ}

/-! ### The unit interval -/

theorem denotes_unitClamp (hx : Denotes x a) : Denotes (unitClamp x) (max 0 (min a 1)) := by
  have hlow := hx.lt_iff denotes_zero
  have hhigh := denotes_one.lt_iff hx
  unfold unitClamp
  rw [hx.isNaN, if_neg Bool.false_ne_true]
  split
  · next hneg =>
    rw [max_eq_left ((min_le_left _ _).trans (hlow.mp hneg).le)]
    exact denotes_zero
  · next hneg =>
    have hnonneg : 0 ≤ a := not_lt.mp fun h => hneg (hlow.mpr h)
    split
    · next hlarge =>
      rw [min_eq_right (hhigh.mp hlarge).le, max_eq_right zero_le_one]
      exact denotes_one
    · next hlarge =>
      rw [min_eq_left (not_lt.mp fun h => hlarge (hhigh.mpr h)), max_eq_right hnonneg]
      exact hx

/-- Bringing a number into the unit interval moves it closer to every number there. -/
theorem abs_max_min_sub_le {c : ℚ} (hlow : 0 ≤ a) (hhigh : a ≤ 1) : |max 0 (min c 1) - a| ≤ |c - a| := by
  rcases le_total c 0 with hneg | hnonneg
  · rw [max_eq_left ((min_le_left _ _).trans hneg), abs_of_nonpos (by linarith), abs_of_nonpos (by linarith)]
    linarith
  · rcases le_total c 1 with hsmall | hlarge
    · rw [min_eq_left hsmall, max_eq_right hnonneg]
    · rw [min_eq_right hlarge, max_eq_right zero_le_one, abs_of_nonneg (by linarith), abs_of_nonneg (by linarith)]
      linarith

/-- The float denotes a number between zero and one. -/
def IsFraction (x : Float) : Prop := ∃ a, Denotes x a ∧ 0 ≤ a ∧ a ≤ 1

/-- A fraction stays as it is. -/
theorem unitClamp_of_denotes (hx : Denotes x a) (hlow : 0 ≤ a) (hhigh : a ≤ 1) : unitClamp x = x := by
  unfold unitClamp
  rw [hx.isNaN, if_neg Bool.false_ne_true, if_neg ((hx.lt_iff denotes_zero).not.mpr hlow.not_gt),
    if_neg ((denotes_one.lt_iff hx).not.mpr hhigh.not_gt)]

theorem unitClamp_of_neg (hx : Denotes x a) (ha : a < 0) : unitClamp x = 0.0 := by
  unfold unitClamp
  rw [hx.isNaN, if_neg Bool.false_ne_true, if_pos ((hx.lt_iff denotes_zero).mpr ha)]

theorem unitClamp_of_one_le (hx : Denotes x a) (ha : 1 ≤ a) : unitClamp x = 1.0 := by
  have hclamped := denotes_unitClamp hx
  rw [min_eq_right ha, max_eq_right zero_le_one] at hclamped
  exact hclamped.eq_of_ne_zero denotes_one one_ne_zero

/-- Every float becomes a fraction. -/
theorem isFraction_unitClamp (x : Float) : IsFraction (unitClamp x) := by
  cases hx : rational? x.toModel.unpack with
  | some a => exact ⟨_, denotes_unitClamp hx, le_max_left _ _, max_le zero_le_one (min_le_right _ _)⟩
  | none =>
      suffices unitClamp x = 0.0 ∨ unitClamp x = 1.0 by
        rcases this with h | h
        · exact ⟨0, h ▸ denotes_zero, le_rfl, zero_le_one⟩
        · exact ⟨1, h ▸ denotes_one, zero_le_one, le_rfl⟩
      have hnan : x.isNaN = x.toModel.unpack.isNaN := rfl
      have hlow := lt_iff_compare x 0.0
      have hhigh := lt_iff_compare 1.0 x
      unfold unitClamp
      cases hu : x.toModel.unpack with
      | notANumber =>
          rw [hu] at hnan
          exact .inl (if_pos hnan)
      | infinity s =>
          rw [hu] at hnan hlow hhigh
          rw [hnan, if_neg (by exact Bool.false_ne_true)]
          cases s with
          | negative => exact .inl (if_pos (hlow.mpr rfl))
          | positive =>
              have hpos : ¬x < 0.0 := fun h => Bool.false_ne_true (hlow.mp h)
              exact .inr ((if_neg hpos).trans (if_pos (hhigh.mpr rfl)))
      | zero s =>
          rw [hu] at hx
          cases hx
      | finite s m e hm =>
          rw [hu] at hx
          cases hx

/-! ### Steps of a range -/

namespace Range

variable {range : Range}

/-- The value of a fraction that lies well inside a step. -/
theorem valueOf_eq_of_near (hx : Denotes x a) (hlow : 0 ≤ a) (hhigh : a ≤ 1) (hwidth : range.width < 2 ^ 53) {k : ℕ}
    (hk : k ≤ range.width)
    (hnear : |range.width * a - k| + (range.width / 2 ^ 53 + 2 ^ (-1075 : ℤ)) < 1 / 2) :
    range.valueOf x = range.low + k := by
  have hproduct : 0 ≤ range.width * a := mul_nonneg (Nat.cast_nonneg _) hlow
  have hle : range.width * a ≤ range.width := mul_le_of_le_one_right (Nat.cast_nonneg _) hhigh
  have hsmall : |range.width * a| < 2 ^ (1023 : ℤ) := by
    rw [abs_of_nonneg hproduct]
    exact hle.trans_lt (natCast_lt_two_zpow hwidth)
  obtain ⟨c, hc, hrounded⟩ := (denotes_countToFloat hwidth).mul hx hsmall
  have herror := hrounded.near
  rw [abs_of_nonneg hproduct] at herror
  have hcount : |c - k| < 1 / 2 := by
    have htriangle := abs_sub_le c (range.width * a) k
    have hpart : range.width * a / 2 ^ 53 ≤ range.width / 2 ^ 53 := by gcongr
    linarith
  obtain ⟨hbelow, habove⟩ := abs_lt.mp hcount
  have hfloor : ⌊c + 1 / 2⌋₊ = k := by
    rw [Nat.floor_eq_iff (by linarith [(Nat.cast_nonneg k : (0 : ℚ) ≤ k)])]
    exact ⟨by linarith, by linarith⟩
  have hword : k ≤ wordMax := by
    unfold wordMax
    omega
  have hinside : range.low + k ≤ range.high := by
    have := range.low_le_high
    unfold width at hk
    omega
  unfold valueOf
  rw [unitClamp_of_denotes hx hlow hhigh, hc.nearestNat_eq, hfloor, min_eq_left hword]
  exact clamp_of_mem (by omega) hinside

/-- The fraction of a value says how far up the range the value lies. -/
theorem ratioOf_near (hwidth : range.width < 2 ^ 53) {k : ℕ} (hk : k ≤ range.width) :
    ∃ d, Denotes (range.ratioOf (range.low + k)) d ∧ 0 ≤ d ∧ d ≤ 1
      ∧ |range.width * d - k| ≤ range.width * (1 / 2 ^ 53 + 2 ^ (-1075 : ℤ)) := by
  have hdistance : (range.low + k - range.low).toNat = k := by omega
  unfold ratioOf
  rw [hdistance]
  split
  · next hzero =>
    obtain rfl : k = 0 := by omega
    refine ⟨0, denotes_zero, le_rfl, zero_le_one, ?_⟩
    rw [hzero, Nat.cast_zero, mul_zero, sub_zero, abs_zero, zero_mul]
  · next hpos =>
    have hw : (0 : ℚ) < range.width := by exact_mod_cast Nat.pos_of_ne_zero hpos
    have hkw : (k : ℚ) ≤ range.width := by exact_mod_cast hk
    have hlow : 0 ≤ (k : ℚ) / range.width := div_nonneg (Nat.cast_nonneg k) hw.le
    have hhigh : (k : ℚ) / range.width ≤ 1 := (div_le_one hw).mpr hkw
    have hsmall : |(k : ℚ) / range.width| < 2 ^ (1023 : ℤ) := by
      rw [abs_of_nonneg hlow]
      exact hhigh.trans_lt (one_lt_zpow₀ one_lt_two (by norm_num))
    obtain ⟨c, hc, hrounded⟩ :=
      (denotes_countToFloat (hk.trans_lt hwidth)).div (denotes_countToFloat hwidth) hw.ne' hsmall
    have herror := hrounded.near
    rw [abs_of_nonneg hlow] at herror
    refine ⟨_, denotes_unitClamp hc, le_max_left _ _, max_le zero_le_one (min_le_right _ _), ?_⟩
    have hclamped := abs_max_min_sub_le (c := c) hlow hhigh
    have hscale : range.width * max 0 (min c 1) - k = range.width * (max 0 (min c 1) - k / range.width) := by
      field_simp
    have hpart : (k : ℚ) / range.width / 2 ^ 53 ≤ 1 / 2 ^ 53 := by gcongr
    rw [hscale, abs_mul, abs_of_pos hw]
    exact mul_le_mul_of_nonneg_left (by linarith) hw.le

/-- A value is found again from its fraction. -/
theorem valueOf_ratioOf (hwidth : range.width < 2 ^ 50) {value : ℤ} (hlow : range.low ≤ value)
    (hhigh : value ≤ range.high) : range.valueOf (range.ratioOf value) = value := by
  obtain ⟨k, hk⟩ := Int.eq_ofNat_of_zero_le (sub_nonneg.mpr hlow)
  obtain rfl : value = range.low + k := by omega
  have hkw : k ≤ range.width := by
    unfold width
    omega
  obtain ⟨d, hd, hdlow, hdhigh, hnear⟩ := ratioOf_near (hwidth.trans (by norm_num)) hkw
  refine valueOf_eq_of_near hd hdlow hdhigh (hwidth.trans (by norm_num)) hkw ?_
  have hw : (range.width : ℚ) ≤ 2 ^ 50 := by exact_mod_cast hwidth.le
  have hleast := least_le
  generalize (2 : ℚ) ^ (-1075 : ℤ) = least at hnear hleast ⊢
  have hscaled : (range.width : ℚ) * (1 / 2 ^ 53 + least) ≤ range.width * (1 / 2 ^ 53 + 1 / 2 ^ 60) :=
    mul_le_mul_of_nonneg_left (by linarith) (Nat.cast_nonneg _)
  linarith

/-- Fractions on the same side of every half step, and not too near to it, stand for the same value. -/
theorem valueOf_congr {y : Float} {b : ℚ} (hx : Denotes x a) (hxlow : 0 ≤ a) (hxhigh : a ≤ 1) (hy : Denotes y b)
    (hylow : 0 ≤ b) (hyhigh : b ≤ 1) (hpos : 0 < range.width) (hwidth : range.width < 2 ^ 50)
    (hapart : ∀ k : ℤ, |b - a| + 1 / 2 ^ 52 < |a - (k + 1 / 2) / range.width|) :
    range.valueOf y = range.valueOf x := by
  have hw : (0 : ℚ) < range.width := by exact_mod_cast hpos
  have hwidth' : range.width < 2 ^ 53 := hwidth.trans (by norm_num)
  obtain ⟨k, hk⟩ : ∃ k, ⌊range.width * a + 1 / 2⌋₊ = k := ⟨_, rfl⟩
  have hnonneg : 0 ≤ range.width * a := mul_nonneg hw.le hxlow
  obtain ⟨hbelow, habove⟩ := (Nat.floor_eq_iff (by linarith)).mp hk
  have hkw : k ≤ range.width := by
    have hle : range.width * a ≤ range.width := mul_le_of_le_one_right hw.le hxhigh
    have hlt : (k : ℚ) < range.width + 1 := by linarith
    exact Nat.lt_succ_iff.mp (by exact_mod_cast hlt)
  obtain ⟨gap, hgap⟩ : ∃ gap, |b - a| = gap := ⟨_, rfl⟩
  -- Between the half steps below and above, `a` keeps its distance from both.
  have hdistance (j : ℤ) : range.width * (gap + 1 / 2 ^ 52) < |range.width * a - (j + 1 / 2)| := by
    have hscale : range.width * a - (j + 1 / 2) = range.width * (a - (j + 1 / 2) / range.width) := by
      field_simp
    rw [hscale, abs_mul, abs_of_pos hw, ← hgap]
    exact mul_lt_mul_of_pos_left (hapart j) hw
  have hup := hdistance k
  have hdown := hdistance (k - 1)
  push_cast at hup hdown
  rw [abs_of_nonpos (by linarith)] at hup
  rw [abs_of_nonneg (by linarith)] at hdown
  have hxnear : |range.width * a - k| < 1 / 2 - range.width * (gap + 1 / 2 ^ 52) :=
    abs_lt.mpr ⟨by linarith, by linarith⟩
  have hynear : |range.width * b - k| ≤ range.width * gap + |range.width * a - k| := by
    have hsplit : range.width * b - k = range.width * (b - a) + (range.width * a - k) := by ring
    have htriangle := abs_add_le (range.width * (b - a)) (range.width * a - k)
    rw [abs_mul, abs_of_pos hw, hgap] at htriangle
    rw [hsplit]
    exact htriangle
  have hone : (1 : ℚ) ≤ range.width := by exact_mod_cast hpos
  have hgaps : 0 ≤ range.width * gap := mul_nonneg hw.le (hgap ▸ abs_nonneg _)
  have hleast := least_le
  have hmargin : range.width / 2 ^ 53 + (2 : ℚ) ^ (-1075 : ℤ) < range.width / 2 ^ 52 := by
    generalize (2 : ℚ) ^ (-1075 : ℤ) = least at hleast
    linarith
  rw [valueOf_eq_of_near hy hylow hyhigh hwidth' hkw (by linarith),
    valueOf_eq_of_near hx hxlow hxhigh hwidth' hkw (by linarith)]

/-- A fraction close to that of a value stands for the value. -/
theorem valueOf_of_close (hx : Denotes x a) (hlow : 0 ≤ a) (hhigh : a ≤ 1) (hwidth : range.width ≤ 20000) {value : ℤ}
    (hvlow : range.low ≤ value) (hvhigh : value ≤ range.high) {d : ℚ} (hd : Denotes (range.ratioOf value) d)
    (hclose : |d - a| ≤ 1 / 10 ^ 6) : range.valueOf x = value := by
  obtain ⟨k, hk⟩ := Int.eq_ofNat_of_zero_le (sub_nonneg.mpr hvlow)
  obtain rfl : value = range.low + k := by omega
  have hkw : k ≤ range.width := by
    unfold width
    omega
  obtain ⟨d', hd', -, -, hnear⟩ := ratioOf_near (hwidth.trans_lt (by norm_num)) hkw
  obtain rfl := hd.unique hd'
  refine valueOf_eq_of_near hx hlow hhigh (hwidth.trans_lt (by norm_num)) hkw ?_
  have hw : (range.width : ℚ) ≤ 20000 := by exact_mod_cast hwidth
  have hsplit : |range.width * a - k| ≤ range.width * |d - a| + |range.width * d - k| := by
    have htriangle := abs_sub_le (range.width * a) (range.width * d) k
    rw [← mul_sub, abs_mul, Nat.abs_cast, abs_sub_comm a d] at htriangle
    exact htriangle
  have hscaled : (range.width : ℚ) * |d - a| ≤ 20000 * (1 / 10 ^ 6) := by gcongr
  have hleast := least_le
  generalize (2 : ℚ) ^ (-1075 : ℤ) = least at hnear hleast ⊢
  have hrounding : (range.width : ℚ) * (1 / 2 ^ 53 + least) ≤ range.width * (1 / 2 ^ 53 + 1 / 2 ^ 60) :=
    mul_le_mul_of_nonneg_left (by linarith) (Nat.cast_nonneg _)
  linarith

end Range

/-! ### Parameters -/

namespace Parameter

/-- The integer of a parameter is the one its fraction stands for. -/
structure IsConsistent (parameter : Parameter) : Prop where
  isFraction : IsFraction parameter.ratio
  value_eq : parameter.value = parameter.range.valueOf parameter.ratio

variable (parameter : Parameter)

theorem isConsistent_setRatio (ratio : Float) : (parameter.setRatio ratio).IsConsistent :=
  ⟨isFraction_unitClamp ratio, rfl⟩

theorem isFraction_ratioOf (range : Range) (value : ℤ) : IsFraction (range.ratioOf value) := by
  unfold Range.ratioOf
  split
  · exact ⟨0, denotes_zero, le_rfl, zero_le_one⟩
  · exact isFraction_unitClamp _

theorem isConsistent_set (hwidth : parameter.range.width < 2 ^ 50) (value : ℤ) :
    (parameter.set value).IsConsistent :=
  ⟨isFraction_ratioOf _ _,
    (Range.valueOf_ratioOf hwidth (Range.low_le_clamp _ value) (Range.clamp_le_high _ value)).symm⟩

theorem isConsistent_ofRange {range : Range} (hwidth : range.width < 2 ^ 50) : (ofRange range).IsConsistent :=
  ⟨isFraction_ratioOf _ _, (Range.valueOf_ratioOf hwidth range.low_le_initial range.initial_le_high).symm⟩

end Parameter

namespace ParameterId

theorem width_range (id : ParameterId) : 0 < id.range.width ∧ id.range.width ≤ 20000 := by
  have hall : ∀ id ∈ all, 0 < id.range.width ∧ id.range.width ≤ 20000 := by decide +kernel
  exact hall id (mem_all id)

end ParameterId

end PolyExpression
