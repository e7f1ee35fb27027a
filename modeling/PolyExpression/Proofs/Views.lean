import PolyExpression.Proofs.Forgetting
import PolyExpression.Proofs.Fractions
import PolyExpression.Proofs.Numerals

/-!
The two views of a parameter over its life. Every change leaves an integer inside the range that is the one its fraction
stands for, whatever was before; and no sum or difference on the way leaves the 32-bit integers as long as the range
does not. An integer outside the range has the fraction of the nearer end. Main statements: the views agree after any
changes; and of the parameters of an engine only the number of members has an integer that is too far off for its
distance from the range to be computed, the lowest of all.
-/

namespace PolyExpression

open Rounding

/-! ### Integers outside the range -/

/-- The float of an integer, with its sign. -/
def integerToFloat (d : ℤ) : Float := if d < 0 then -countToFloat d.natAbs else countToFloat d.natAbs

theorem denotes_integerToFloat {d : ℤ} (hd : d.natAbs < 2 ^ 53) : Denotes (integerToFloat d) d := by
  have hcount := denotes_countToFloat hd
  unfold integerToFloat
  split
  · next hneg =>
    have hvalue : (d : ℚ) = -(d.natAbs : ℚ) := by
      rw [← Int.cast_natCast, Int.ofNat_natAbs_of_nonpos hneg.le, Int.cast_neg, neg_neg]
    rw [hvalue]
    exact hcount.neg
  · next hnonneg =>
    have hvalue : (d : ℚ) = (d.natAbs : ℚ) := by
      rw [← Int.cast_natCast, Int.natAbs_of_nonneg (not_lt.mp hnonneg)]
    rw [hvalue]
    exact hcount

namespace Range

variable {range : Range}

section Wide

variable (hpos : range.width ≠ 0) (hwidth : range.width < 2 ^ 53)

include hpos hwidth

/-- Counts in the place of the distance are read exactly, and their quotient is rounded once. -/
theorem isReading_quotient {n : ℕ} (hn : n < 2 ^ 53) :
    IsReading (countToFloat n / countToFloat range.width) (n / range.width) := by
  have hnumerator := denotes_countToFloat hn
  have hdenominator := denotes_countToFloat hwidth
  have hne : (range.width : ℚ) ≠ 0 := Nat.cast_ne_zero.mpr hpos
  have hsign := IsUnsigned.div (isUnsigned_countToFloat hn) (isUnsigned_countToFloat hwidth) hnumerator hdenominator hne
  exact isReading_of_roundsTo (roundsTo_div hnumerator hdenominator hne) hsign (by positivity)

/-- Below the range the fraction is zero. -/
theorem ratioOf_of_le_low {value : ℤ} (hvalue : value ≤ range.low) : range.ratioOf value = 0.0 := by
  have hreading := isReading_quotient hpos hwidth (n := 0) (by norm_num)
  rw [Nat.cast_zero, zero_div] at hreading
  obtain ⟨c, hc, hrounded⟩ := hreading.denotes (two_zpow_pos _)
  obtain rfl : c = 0 := hrounded.eq_of_fits 0 0 (by norm_num) (by simp) (by rw [abs_zero]; exact two_zpow_pos _)
  have hclamped := denotes_unitClamp hc
  rw [min_eq_left zero_le_one, max_self] at hclamped
  have hdistance : (value - range.low).toNat = 0 := by omega
  unfold ratioOf
  rw [if_neg hpos, hdistance]
  exact hclamped.eq_zero hreading.isUnsigned_unitClamp

/-- Above the range the fraction is one. -/
theorem ratioOf_of_high_le {value : ℤ} (hvalue : range.high ≤ value) (hnear : value - range.low < 2 ^ 53) :
    range.ratioOf value = 1.0 := by
  obtain ⟨n, hn⟩ := Int.eq_ofNat_of_zero_le (show 0 ≤ value - range.low by have := range.low_le_high; omega)
  have hsmall : n < 2 ^ 53 := by omega
  have hfar : range.width ≤ n := by
    unfold width
    omega
  have hw : (0 : ℚ) < range.width := by exact_mod_cast Nat.pos_of_ne_zero hpos
  have hone : 1 ≤ (n : ℚ) / range.width := (one_le_div hw).mpr (by exact_mod_cast hfar)
  have hquotient : (n : ℚ) / range.width < 2 ^ (1023 : ℤ) := by
    have hle : (n : ℚ) / range.width ≤ n :=
      div_le_self (Nat.cast_nonneg n) (by exact_mod_cast Nat.one_le_iff_ne_zero.mpr hpos)
    exact hle.trans_lt (natCast_lt_two_zpow hsmall)
  obtain ⟨c, hc, hrounded⟩ := (isReading_quotient hpos hwidth hsmall).denotes hquotient
  unfold ratioOf
  rw [if_neg hpos, hn, Int.toNat_natCast]
  exact unitClamp_of_one_le hc (denotes_one.le_rounded hrounded hone)

/-- An integer outside the range has the fraction of the nearer end. -/
theorem ratioOf_clamp {value : ℤ} (hnear : value - range.low < 2 ^ 53) :
    range.ratioOf (range.clamp value) = range.ratioOf value := by
  have hends := range.low_le_high
  rcases le_or_gt value range.low with hbelow | hlow
  · have hclamp : range.clamp value ≤ range.low := by
      unfold clamp
      omega
    rw [ratioOf_of_le_low hpos hwidth hbelow, ratioOf_of_le_low hpos hwidth hclamp]
  · rcases le_or_gt range.high value with habove | hhigh
    · have hclamp : range.clamp value = range.high := by
        unfold clamp
        omega
      rw [hclamp, ratioOf_of_high_le hpos hwidth habove hnear, ratioOf_of_high_le hpos hwidth le_rfl (by omega)]
    · rw [clamp_of_mem hlow.le hhigh.le]

/-- Distances below zero make no difference: their quotients are negative, and moved up to zero. -/
theorem ratioOf_eq_unitClamp {value : ℤ} (hnear : (value - range.low).natAbs < 2 ^ 53) :
    range.ratioOf value = unitClamp (integerToFloat (value - range.low) / countToFloat range.width) := by
  rcases lt_or_ge (value - range.low) 0 with hneg | hnonneg
  · obtain ⟨d, hd⟩ : ∃ d, value - range.low = d := ⟨_, rfl⟩
    rw [hd] at hneg hnear ⊢
    have hone : (1 : ℚ) ≤ range.width := by exact_mod_cast Nat.one_le_iff_ne_zero.mpr hpos
    have hw : (0 : ℚ) < range.width := one_pos.trans_le hone
    have hbelow : (d : ℚ) / range.width ≤ -(1 / 2 ^ 53) := by
      have hd1 : (d : ℚ) ≤ -1 := by exact_mod_cast Int.le_sub_one_of_lt hneg
      have hlarge : (range.width : ℚ) ≤ 2 ^ 53 := by exact_mod_cast hwidth.le
      rw [div_le_iff₀ hw]
      linarith
    have hsmall : |(d : ℚ) / range.width| < 2 ^ (1023 : ℤ) := by
      have habs : |(d : ℚ)| = (d.natAbs : ℚ) := by rw [← Int.cast_abs, Int.abs_eq_natAbs, Int.cast_natCast]
      rw [abs_div, abs_of_pos hw, habs]
      exact (div_le_self (Nat.cast_nonneg _) hone).trans_lt (natCast_lt_two_zpow hnear)
    obtain ⟨c, hc, hrounded⟩ := (denotes_integerToFloat hnear).div (denotes_countToFloat hwidth) hw.ne' hsmall
    rw [ratioOf_of_le_low hpos hwidth (by omega), unitClamp_of_neg hc (hrounded.neg_of_le hbelow)]
  · have hdistance : integerToFloat (value - range.low) = countToFloat (value - range.low).toNat := by
      unfold integerToFloat
      rw [if_neg hnonneg.not_gt]
      congr 1
      omega
    unfold ratioOf
    rw [if_neg hpos, hdistance]

end Wide

/-! ### Sums and differences -/

/-- The steps up from the lowest value never lead out of the range. -/
theorem low_add_nearestNat_le (hwidth : range.width < 2 ^ 53) (ratio : Float) :
    range.low + nearestNat (countToFloat range.width * unitClamp ratio) ≤ range.high := by
  obtain ⟨a, ha, hlow, hhigh⟩ := isFraction_unitClamp ratio
  have hw := denotes_countToFloat hwidth
  have hle : range.width * a ≤ range.width := mul_le_of_le_one_right (Nat.cast_nonneg _) hhigh
  obtain ⟨c, hc, hrounded⟩ := hw.mul ha <| by
    rw [abs_of_nonneg (mul_nonneg (Nat.cast_nonneg _) hlow)]
    exact hle.trans_lt (natCast_lt_two_zpow hwidth)
  have hsteps : nearestNat (countToFloat range.width * unitClamp ratio) ≤ range.width := by
    have hc : nearestNat _ = min ⌊c + 1 / 2⌋₊ wordMax := hc.nearestNat_eq
    calc nearestNat _ ≤ ⌊c + 1 / 2⌋₊ := hc.trans_le (Nat.min_le_left _ _)
      _ ≤ ⌊(range.width : ℚ) + 1 / 2⌋₊ := Nat.floor_mono (add_le_add_left (hw.rounded_le hrounded hle) _)
      _ = range.width := by rw [Nat.floor_eq_iff (by positivity)]; constructor <;> norm_num
  have hwide : (range.width : ℤ) = range.high - range.low := Int.toNat_of_nonneg (sub_nonneg.mpr range.low_le_high)
  omega

/-- Distances inside a range that is not too wide are 32-bit integers. -/
theorem ratioOf?_of_mem (hwidth : range.width < 2 ^ 31) {value : ℤ} (hlow : range.low ≤ value)
    (hhigh : value ≤ range.high) : range.ratioOf? value = some (range.ratioOf value) := by
  unfold ratioOf?
  apply if_pos
  right
  unfold width at hwidth
  omega

end Range

/-! ### Changes -/

namespace Parameter

/-- What can be done to a parameter. -/
inductive Change where
  | set (value : ℤ)
  | setRatio (ratio : Float)
  | reset

def change (parameter : Parameter) : Change → Parameter
  | .set value => parameter.set value
  | .setRatio ratio => parameter.setRatio ratio
  | .reset => parameter.reset

/-- The parameter after some changes, one after the other. -/
def changeAll (parameter : Parameter) (changes : List Change) : Parameter := changes.foldl change parameter

variable {parameter : Parameter}

theorem range_change (parameter : Parameter) (change : Change) : (parameter.change change).range = parameter.range := by
  cases change with
  | set value => rfl
  | setRatio ratio => rfl
  | reset => rfl

/-- Any change brings the views together. -/
theorem isConsistent_change (hwidth : parameter.range.width < 2 ^ 50) (change : Change) :
    (parameter.change change).IsConsistent := by
  cases change with
  | set value => exact parameter.isConsistent_set hwidth value
  | setRatio ratio => exact parameter.isConsistent_setRatio ratio
  | reset => exact parameter.isConsistent_set hwidth parameter.range.initial

/-- So they are together after any number of changes. -/
theorem isConsistent_changeAll {range : Range} (hwidth : range.width < 2 ^ 50) (changes : List Change) :
    ((ofRange range).changeAll changes).IsConsistent ∧ ((ofRange range).changeAll changes).range = range := by
  induction changes using List.reverseRecOn with
  | nil => exact ⟨isConsistent_ofRange hwidth, rfl⟩
  | append_singleton changes change ih =>
      obtain ⟨-, hrange⟩ := ih
      unfold changeAll at hrange ⊢
      rw [List.foldl_append, List.foldl_cons, List.foldl_nil]
      constructor
      · exact isConsistent_change (by rw [hrange]; exact hwidth) change
      · rw [range_change, hrange]

/-- A consistent parameter is in its range. -/
theorem IsConsistent.value_mem (h : parameter.IsConsistent) :
    parameter.range.low ≤ parameter.value ∧ parameter.value ≤ parameter.range.high := by
  rw [h.value_eq]
  exact ⟨Range.low_le_clamp _ _, Range.clamp_le_high _ _⟩

/-- However a parameter is changed, its integer is in its range and is the one that its fraction stands for, and every
integer of the range is found again from its fraction. In both directions all sums and differences are 32-bit integers,
as the width is. -/
theorem views_agree {range : Range} (hwidth : range.width < 2 ^ 31) (changes : List Change) :
    (range.low ≤ ((ofRange range).changeAll changes).value ∧ ((ofRange range).changeAll changes).value ≤ range.high)
      ∧ IsFraction ((ofRange range).changeAll changes).ratio
      ∧ range.valueOf ((ofRange range).changeAll changes).ratio = ((ofRange range).changeAll changes).value
      ∧ (∀ value, range.low ≤ value → value ≤ range.high →
        range.ratioOf? value = some (range.ratioOf value) ∧ range.valueOf (range.ratioOf value) = value)
      ∧ ∀ ratio, range.low + nearestNat (countToFloat range.width * unitClamp ratio) ≤ range.high := by
  have hfloat : range.width < 2 ^ 50 := hwidth.trans (by norm_num)
  obtain ⟨hconsistent, hrange⟩ := isConsistent_changeAll hfloat changes
  obtain ⟨hlow, hhigh⟩ := hconsistent.value_mem
  have hvalue := hconsistent.value_eq
  rw [hrange] at hlow hhigh hvalue
  refine ⟨⟨hlow, hhigh⟩, hconsistent.isFraction, hvalue.symm, fun value hmin hmax => ?_, fun ratio => ?_⟩
  · exact ⟨Range.ratioOf?_of_mem hwidth hmin hmax, Range.valueOf_ratioOf hfloat hmin hmax⟩
  · exact Range.low_add_nearestNat_le (hfloat.trans (by norm_num)) ratio

/-- The widest range, below zero. -/
def widest : Range := .ofBounds "P" (-1) (-2147483648) 7

/-- Changes by an integer outside the range, by no number, back to the start, and by the infinities. -/
def outOfRange : List Change :=
  [.set 2147483647, .setRatio (0.0 / 0.0), .reset, .setRatio (-1.0 / 0.0), .setRatio (1.0 / 0.0)]

theorem views_agree_widest : widest.width < 2 ^ 31
    ∧ (-2147483648 ≤ ((ofRange widest).changeAll outOfRange).value
      ∧ ((ofRange widest).changeAll outOfRange).value ≤ -1)
    ∧ IsFraction ((ofRange widest).changeAll outOfRange).ratio
    ∧ widest.valueOf ((ofRange widest).changeAll outOfRange).ratio = ((ofRange widest).changeAll outOfRange).value
    ∧ widest.valueOf (widest.ratioOf (-7)) = -7 := by
  have hwidth : widest.width < 2 ^ 31 := by decide
  obtain ⟨hmem, hfraction, hvalue, hfound, -⟩ := views_agree hwidth outOfRange
  exact ⟨hwidth, hmem, hfraction, hvalue, (hfound (-7) (by decide) (by decide)).2⟩

end Parameter

/-! ### The parameters of an engine -/

namespace ParameterId

/-- All ranges start at zero, but for the number of members. -/
theorem low_range (id : ParameterId) : id.range.low = if id = .zone .members then 1 else 0 := by
  have hall : ∀ id ∈ all, id.range.low = if id = .zone .members then 1 else 0 := by decide +kernel
  exact hall id (mem_all id)

/-- The distance from the lowest value is a 32-bit integer, but for that of the lowest integer from one. -/
theorem ratioOf?_eq (id : ParameterId) (value : Int32) : id.range.ratioOf? value.toInt =
    if id = .zone .members ∧ value = Int32.minValue then none else some (id.range.ratioOf value.toInt) := by
  have hmin : -2147483648 ≤ value.toInt := value.minValue_le_toInt
  have hmax : value.toInt ≤ 2147483647 := value.toInt_le
  have hwidth := id.width_range.1
  have hlow := id.low_range
  have hlowest : value = Int32.minValue ↔ value.toInt = -2147483648 := Int32.toInt_inj.symm
  unfold Range.ratioOf?
  by_cases hmembers : id = .zone .members
  · rw [if_pos hmembers] at hlow
    by_cases hvalue : value = Int32.minValue
    · have := hlowest.mp hvalue
      rw [if_neg (by omega), if_pos ⟨hmembers, hvalue⟩]
    · have := hlowest.not.mp hvalue
      rw [if_pos (by omega), if_neg fun h => hvalue h.2]
  · rw [if_neg hmembers] at hlow
    rw [if_pos (by omega), if_neg fun h => hmembers h.1]

end ParameterId

namespace Engine

variable {engine : Engine}

/-- An engine gives every integer the fraction its identifier gives, which is that of the nearest integer of the range:
a quotient of two integers, moved into the unit interval. Only from the lowest integer to one the distance is no 32-bit
integer, and there is no answer. -/
theorem ratioOf?_saturates (h : Reachable engine) (id : ParameterId) (value : Int32) :
    (engine.parameters.get id).range.ratioOf? value.toInt = id.range.ratioOf? value.toInt
      ∧ id.range.ratioOf? value.toInt = (if id = .zone .members ∧ value = Int32.minValue then none
          else some (id.range.ratioOf (id.range.clamp value.toInt)))
      ∧ id.range.ratioOf value.toInt
        = unitClamp (integerToFloat (value.toInt - id.range.low) / countToFloat id.range.width) := by
  have hmin : -2147483648 ≤ value.toInt := value.minValue_le_toInt
  have hmax : value.toInt ≤ 2147483647 := value.toInt_le
  obtain ⟨hpos, hwidth⟩ := id.width_range
  have hlow := id.low_range
  have hnear : (value.toInt - id.range.low).natAbs < 2 ^ 53 := by
    split at hlow
    all_goals omega
  have hsmall : id.range.width < 2 ^ 53 := by omega
  refine ⟨by rw [h.range id], ?_, Range.ratioOf_eq_unitClamp hpos.ne' hsmall hnear⟩
  rw [id.ratioOf?_eq, Range.ratioOf_clamp hpos.ne' hsmall (by omega)]

/-- The number of members is edited at once and through the queue, with a note in between. -/
def membersEdited : List Operation :=
  [.apply (.setParameter (.zone .members) 0.3), .call 0.0 (.noteOn 0 60 100),
    .post (.setParameter (.zone .members) 0.7), .beginBlock]

/-- Far above and far below. -/
theorem ratioOf?_saturates_membersEdited : Reachable (standard.run membersEdited)
    ∧ ((standard.run membersEdited).parameters.get (.zone .members)).ratio = 0.7
    ∧ ((standard.run membersEdited).parameters.get (.zone .members)).range.ratioOf? Int32.maxValue.toInt = some 1.0
    ∧ ((standard.run membersEdited).parameters.get (.zone .members)).range.ratioOf? (-2147483647) = some 0.0 := by
  have hreachable : Reachable (standard.run membersEdited) := reachable_standard.run membersEdited
  obtain ⟨habove, hone, -⟩ := ratioOf?_saturates hreachable (.zone .members) Int32.maxValue
  obtain ⟨hbelow, hzero, -⟩ := ratioOf?_saturates hreachable (.zone .members) (-2147483647)
  rw [if_neg (by decide)] at hone hzero
  exact ⟨hreachable, by decide +kernel, habove.trans (hone.trans (by decide +kernel)),
    hbelow.trans (hzero.trans (by decide +kernel))⟩

/-- So saturation fails at one integer of one parameter. -/
theorem members_lowest_unanswered : ¬ ∀ (id : ParameterId) (value : Int32),
    id.range.ratioOf? value.toInt = some (id.range.ratioOf (id.range.clamp value.toInt)) := by
  intro h
  have hlowest := h (.zone .members) Int32.minValue
  rw [ParameterId.ratioOf?_eq, if_pos ⟨rfl, rfl⟩] at hlowest
  exact Option.some_ne_none _ hlowest.symm

end Engine

end PolyExpression
