import Mathlib

/-!
How results of 64-bit float operations are rounded. A float in its unpacked form stands for a rational number;
rounding takes the exact result to the nearest multiple of a power of two. Main statements: what is rounded differs
from the exact result by at most one part in `2 ^ 53` (and half the smallest float), no float is nearer, and packing a
rounded float loses nothing unless it is too large, in which case it becomes infinite.
-/

namespace PolyExpression.Rounding

open Float.Model Float.Model.UnpackedFloat

/-! ### The residual bits -/

/-- A value of which an extended mantissa gives the whole part, the half, and whether anything is left. -/
def Marks (em : ExtendedMantissa) (v : ℚ) : Prop :=
  match em.roundBit, em.stickyBit with
  | false, false => v = em.mantissa
  | false, true => em.mantissa < v ∧ v < em.mantissa + 1 / 2
  | true, false => v = em.mantissa + 1 / 2
  | true, true => em.mantissa + 1 / 2 < v ∧ v < em.mantissa + 1

namespace Marks

variable {em : ExtendedMantissa} {v : ℚ}

theorem exact (m : ℕ) : Marks (.ofMantissaAndAccuracy m .exact) m := rfl

theorem bounds (h : Marks em v) : em.mantissa ≤ v ∧ v < em.mantissa + 1 := by
  obtain ⟨m, roundBit, stickyBit⟩ := em
  cases roundBit <;> cases stickyBit <;> simp only [Marks] at h ⊢ <;> constructor <;> linarith

/-- Halving a value moves the lowest bit of the mantissa into the residual bits. -/
theorem half (h : Marks em v) : Marks em.shiftRightOne (v / 2) := by
  obtain ⟨m, roundBit, stickyBit⟩ := em
  have hsplit : ((m % 2 : ℕ) : ℚ) + 2 * ((m / 2 : ℕ) : ℚ) = m := by
    exact_mod_cast Nat.mod_add_div m 2
  rcases Nat.mod_two_eq_zero_or_one m with hbit | hbit
  · rw [hbit, Nat.cast_zero] at hsplit
    cases roundBit <;> cases stickyBit <;>
      simp only [Marks, ExtendedMantissa.shiftRightOne, hbit, bne_self_eq_false, Bool.or_false, Bool.or_true] at h ⊢ <;>
      first | linarith | (constructor <;> linarith)
  · have hodd : (1 != 0) = true := rfl
    rw [hbit, Nat.cast_one] at hsplit
    cases roundBit <;> cases stickyBit <;>
      simp only [Marks, ExtendedMantissa.shiftRightOne, hbit, hodd, Bool.or_false, Bool.or_true] at h ⊢ <;>
      first | linarith | (constructor <;> linarith)

theorem shift (h : Marks em v) (k : ℕ) : Marks (em >>> k) (v / 2 ^ k) := by
  show Marks (Nat.repeat ExtendedMantissa.shiftRightOne k em) (v / 2 ^ k)
  induction k with
  | zero =>
      rw [pow_zero, div_one]
      exact h
  | succ k ih =>
      rw [pow_succ, ← div_div]
      exact ih.half

/-- Rounding goes to the nearest whole number. -/
theorem abs_rounded_sub_le (h : Marks em v) : |(em.roundedMantissa : ℚ) - v| ≤ 1 / 2 := by
  obtain ⟨m, roundBit, stickyBit⟩ := em
  have hbit : ((m % 2 : ℕ) : ℚ) ≤ 1 := by exact_mod_cast Nat.lt_succ_iff.mp (Nat.mod_lt m Nat.two_pos)
  have hbit' : (0 : ℚ) ≤ ((m % 2 : ℕ) : ℚ) := Nat.cast_nonneg _
  cases roundBit <;> cases stickyBit <;>
    simp only [Marks, ExtendedMantissa.roundedMantissa, ExtendedMantissa.accuracy,
      Accuracy.roundToNearestEven, Nat.cast_add, Nat.cast_one, abs_le] at h ⊢ <;>
    constructor <;> linarith

/-- No whole number is nearer. -/
theorem abs_rounded_sub_le_abs_sub (h : Marks em v) (k : ℤ) : |(em.roundedMantissa : ℚ) - v| ≤ |k - v| := by
  rcases eq_or_ne k em.roundedMantissa with rfl | hne
  · rw [Int.cast_natCast]
  · have hapart : (1 : ℚ) ≤ |(k : ℚ) - em.roundedMantissa| := by
      exact_mod_cast Int.one_le_abs (sub_ne_zero.mpr hne)
    have htriangle := abs_sub_le (k : ℚ) v em.roundedMantissa
    have hhalf := h.abs_rounded_sub_le
    rw [abs_sub_comm v] at htriangle
    linarith

end Marks

/-! ### The grid of a result -/

/-- The exponent of the last place that is kept of a result. -/
def grid (m : ℕ) (e : ℤ) : ℤ := Format.binary64.targetExponent (totalExponent m e)

theorem grid_eq (m : ℕ) (e : ℤ) : grid m e = max ((m.log2 : ℤ) + e - 52) (-1074) := by
  have hbits : Format.binary64.mantissaBits = 53 := rfl
  have hleast : Format.binary64.minExponent = -1074 := rfl
  unfold grid Format.targetExponent totalExponent
  rw [hbits, hleast]
  omega

/-- Moving a mantissa to the grid. -/
theorem shiftToTargetExponent_eq (m : ℕ) (e : ℤ) (accuracy : Accuracy) :
    shiftToTargetExponent Format.binary64 m e accuracy =
      (ExtendedMantissa.ofMantissaAndAccuracy m accuracy >>> (grid m e - e).toNat,
        e + ((grid m e - e).toNat : ℤ)) := rfl

theorem two_zpow_pos (e : ℤ) : (0 : ℚ) < 2 ^ e := zpow_pos two_pos e

/-- A value lies between two powers of two. -/
theorem two_zpow_le {m : ℕ} (hm : m ≠ 0) (e : ℤ) : (2 : ℚ) ^ ((m.log2 : ℤ) + e) ≤ m * 2 ^ e := by
  have hlow : (2 : ℚ) ^ m.log2 ≤ m := by exact_mod_cast Nat.log2_self_le hm
  rw [zpow_add₀ two_ne_zero, zpow_natCast]
  exact mul_le_mul_of_nonneg_right hlow (two_zpow_pos e).le

/-- What is left of a mantissa when it has been moved to the grid has at most 53 bits. -/
theorem div_two_pow_lt {m k : ℕ} {v : ℚ} (hv : v < m + 1) (hk : m.log2 ≤ 52 + k) : v / 2 ^ k < 2 ^ 53 := by
  have hm : (m : ℚ) + 1 ≤ 2 ^ (53 + k) := by
    have hlog : m + 1 ≤ 2 ^ (m.log2 + 1) := Nat.lt_log2_self
    have hpow : 2 ^ (m.log2 + 1) ≤ 2 ^ (53 + k) := Nat.pow_le_pow_right Nat.two_pos (by omega)
    exact_mod_cast hlog.trans hpow
  rw [div_lt_iff₀ (by positivity), ← pow_add]
  linarith

/-! ### Rounding -/

/-- What packing keeps as it is. -/
def Canonical : UnpackedFloat → Prop
  | .finite _ m e _ => m < 2 ^ 53 ∧ -1074 ≤ e ∧ e ≤ 971 ∧ (2 ^ 52 ≤ m ∨ e = -1074)
  | _ => True

/-- What rounding makes: canonical but for its size. -/
def Normal : UnpackedFloat → Prop
  | .finite _ m e _ => m < 2 ^ 53 ∧ -1074 ≤ e ∧ (2 ^ 52 ≤ m ∨ e = -1074)
  | _ => True

theorem Canonical.normal {u : UnpackedFloat} (hu : Canonical u) : Normal u := by
  cases u with
  | finite s m e hm => exact ⟨hu.1, hu.2.1, hu.2.2.2⟩
  | _ => trivial

def sign : Sign → ℚ
  | .negative => -1
  | .positive => 1

@[simp] theorem sign_negative : sign .negative = -1 := rfl

@[simp] theorem sign_positive : sign .positive = 1 := rfl

theorem abs_sign (s : Sign) : |sign s| = 1 := by
  cases s <;> simp

/-- The rational number that an unpacked float stands for, if it stands for one. -/
def rational? : UnpackedFloat → Option ℚ
  | .zero _ => some 0
  | .finite s m e _ => some (sign s * (m * 2 ^ e))
  | _ => none

/-- What an exact result may become. -/
structure Rounded (exact rounded : ℚ) : Prop where
  near : |rounded - exact| ≤ |exact| / 2 ^ 53 + 2 ^ (-1075 : ℤ)
  /-- No multiple of a power of two that has at most 53 bits is nearer. -/
  nearest : ∀ j g : ℤ, -1074 ≤ g → |(j : ℚ) * 2 ^ g| < 2 ^ (53 + g) → |rounded - exact| ≤ |j * 2 ^ g - exact|

/-- Multiples of a power of two that have at most 53 bits are kept. -/
theorem Rounded.eq_of_fits {exact rounded : ℚ} (h : Rounded exact rounded) (j g : ℤ) (hg : -1074 ≤ g)
    (hexact : exact = j * 2 ^ g) (hsmall : |exact| < 2 ^ (53 + g)) : rounded = exact := by
  have hnearest := h.nearest j g hg (hexact ▸ hsmall)
  rw [← hexact, sub_self, abs_zero] at hnearest
  exact sub_eq_zero.mp (abs_nonpos_iff.mp hnearest)

/-- Half the smallest float is next to nothing. -/
theorem least_le : (2 : ℚ) ^ (-1075 : ℤ) ≤ 1 / 2 ^ 60 := by
  have hle : (2 : ℚ) ^ (-1075 : ℤ) ≤ 2 ^ (-60 : ℤ) := zpow_le_zpow_right₀ one_le_two (by norm_num)
  exact hle.trans_eq (by norm_num)

/-- What is below zero by more than next to nothing stays below zero. -/
theorem Rounded.neg_of_le {exact rounded : ℚ} (h : Rounded exact rounded) (hexact : exact ≤ -(1 / 2 ^ 53)) :
    rounded < 0 := by
  have hnear := h.near
  have hleast := least_le
  generalize (2 : ℚ) ^ (-1075 : ℤ) = least at hnear hleast
  have habs : |exact| = -exact := abs_of_nonpos (by linarith)
  rw [habs] at hnear
  linarith [(abs_le.mp hnear).2]

theorem Rounded.signed {exact rounded : ℚ} (h : Rounded exact rounded) (s : Sign) :
    Rounded (sign s * exact) (sign s * rounded) where
  near := by
    rw [← mul_sub, abs_mul, abs_mul, abs_sign, one_mul, one_mul]
    exact h.near
  nearest j g hg hsmall := by
    -- A candidate for the signed result is one for the other, with the sign moved to it.
    obtain ⟨i, hi⟩ : ∃ i : ℤ, (i : ℚ) * 2 ^ g = sign s * (j * 2 ^ g) :=
      ⟨s.apply 1 * j, by cases s <;> simp [sign, Sign.apply]⟩
    have habs : |(i : ℚ) * 2 ^ g - exact| = |(j : ℚ) * 2 ^ g - sign s * exact| := by
      rw [hi]
      cases s with
      | negative =>
          rw [← abs_neg, sign_negative]
          congr 1
          ring
      | positive => rw [sign_positive, one_mul, one_mul]
    rw [← mul_sub, abs_mul, abs_sign, one_mul, ← habs]
    refine h.nearest i g hg ?_
    rwa [hi, abs_mul, abs_sign, one_mul]

/-- A float of at most 54 bits once it is brought to 53. -/
def carried (s : Sign) (r : ℕ) (t : ℤ) : UnpackedFloat :=
  if h : r = 0 then .zero s
  else if r < 2 ^ 53 then .finite s r t (Nat.pos_of_ne_zero h)
  else .finite s (2 ^ 52) (t + 1) (Nat.two_pow_pos 52)

theorem rational?_carried (s : Sign) {r : ℕ} (hr : r ≤ 2 ^ 53) (t : ℤ) :
    rational? (carried s r t) = some (sign s * (r * 2 ^ t)) := by
  unfold carried
  split
  · next hzero =>
      rw [hzero, Nat.cast_zero, zero_mul, mul_zero]
      rfl
  · split
    · rfl
    · next hlarge =>
        obtain rfl : r = 2 ^ 53 := le_antisymm hr (not_lt.mp hlarge)
        show some (sign s * (((2 ^ 52 : ℕ) : ℚ) * 2 ^ (t + 1))) = _
        rw [zpow_add₀ two_ne_zero]
        push_cast
        ring_nf

theorem normal_carried (s : Sign) {r : ℕ} {t : ℤ} (hlow : -1074 ≤ t) (hnormal : 2 ^ 52 ≤ r ∨ t = -1074) :
    Normal (carried s r t) := by
  unfold carried
  split
  · trivial
  · split
    · next hsmall => exact ⟨hsmall, hlow, hnormal⟩
    · exact ⟨by norm_num, by omega, .inl le_rfl⟩

/-- A mantissa that has at most 53 bits is not moved any further, and one more bit is carried. -/
theorem roundWithAccuracy_eq (s : Sign) {m : ℕ} {e : ℤ} (accuracy : Accuracy) {em : ExtendedMantissa}
    (he : e ≤ grid m e) (hem : ExtendedMantissa.ofMantissaAndAccuracy m accuracy >>> (grid m e - e).toNat = em)
    (hr : em.roundedMantissa ≤ 2 ^ 53) :
    roundWithAccuracy Format.binary64 s m e accuracy = carried s em.roundedMantissa (grid m e) := by
  have hfirst : shiftToTargetExponent Format.binary64 m e accuracy = (em, grid m e) := by
    rw [shiftToTargetExponent_eq, hem, Int.toNat_of_nonneg (by omega), add_sub_cancel]
  have hlow : -1074 ≤ grid m e := by rw [grid_eq]; exact le_max_right _ _
  unfold roundWithAccuracy
  rw [hfirst]
  dsimp only
  generalize em.roundedMantissa = r at hr
  generalize grid m e = t at hlow
  rcases hr.lt_or_eq with hsmall | rfl
  · have hstay : shiftToTargetExponent Format.binary64 r t .exact = (⟨r, false, false⟩, t) := by
      have hgrid : grid r t ≤ t := by
        have hlog : r.log2 ≤ 52 := by
          by_cases hzero : r = 0
          · simp [hzero]
          · exact Nat.lt_succ_iff.mp ((Nat.log2_lt hzero).mpr hsmall)
        rw [grid_eq]
        omega
      have hnone : (grid r t - t).toNat = 0 := by omega
      rw [shiftToTargetExponent_eq, hnone, Nat.cast_zero, add_zero]
      rfl
    rw [hstay]
    unfold carried
    by_cases hzero : r = 0
    · rw [dif_pos hzero, dif_pos hzero]
    · rw [dif_neg hzero, dif_neg hzero, if_pos hsmall]
  · have hcarry : shiftToTargetExponent Format.binary64 (2 ^ 53) t .exact = (⟨2 ^ 52, false, false⟩, t + 1) := by
      have hgrid : grid (2 ^ 53) t = t + 1 := by
        rw [grid_eq, Nat.log2_two_pow]
        omega
      have hone : (grid (2 ^ 53) t - t).toNat = 1 := by omega
      rw [shiftToTargetExponent_eq, hone]
      rfl
    rw [hcarry]
    rfl

/-- The exact value of a mantissa that is moved to the grid, over the grid. -/
theorem mul_two_zpow_eq (v : ℚ) {e t : ℤ} {k : ℕ} (ht : t = e + k) : v * 2 ^ e = v / 2 ^ k * 2 ^ t := by
  rw [ht, zpow_add₀ two_ne_zero, zpow_natCast]
  field_simp

/-- Above the least exponent a mantissa that is moved to the grid fills it. -/
theorem two_zpow_grid_le {m : ℕ} {e : ℤ} {v : ℚ} (hv : m ≤ v) (he : e ≤ grid m e) (hgrid : grid m e ≠ -1074) :
    (2 : ℚ) ^ (grid m e + 52) ≤ v * 2 ^ e := by
  rw [grid_eq] at he hgrid ⊢
  have hm : m ≠ 0 := by
    rintro rfl
    rw [Nat.log2_zero] at he hgrid
    omega
  have heq : max ((m.log2 : ℤ) + e - 52) (-1074) + 52 = m.log2 + e := by omega
  rw [heq]
  exact (two_zpow_le hm e).trans (mul_le_mul_of_nonneg_right hv (two_zpow_pos e).le)

section OnGrid

variable {em : ExtendedMantissa} {v exact : ℚ} {t : ℤ}

/-- Half a place of the grid is a small part of the value, unless the grid is the finest one. -/
theorem half_place_le (hfull : t ≠ -1074 → (2 : ℚ) ^ (t + 52) ≤ exact) (hexact : 0 ≤ exact) :
    (2 : ℚ) ^ t / 2 ≤ exact / 2 ^ 53 + 2 ^ (-1075 : ℤ) := by
  by_cases hleast : t = -1074
  · have hsplit : (2 : ℚ) ^ t / 2 = 2 ^ (-1075 : ℤ) := by
      have hpred : (-1075 : ℤ) = -1074 - 1 := rfl
      rw [hleast, hpred, zpow_sub_one₀ two_ne_zero, div_eq_mul_inv]
    have hpart : 0 ≤ exact / 2 ^ 53 := by positivity
    linarith
  · have hsplit : (2 : ℚ) ^ t / 2 = 2 ^ (t + 52) / 2 ^ 53 := by
      rw [zpow_add₀ two_ne_zero]
      norm_num
      ring
    have hpart : (2 : ℚ) ^ (t + 52) / 2 ^ 53 ≤ exact / 2 ^ 53 := by
      have := hfull hleast
      gcongr
    have htiny := two_zpow_pos (-1075)
    linarith

/-- No multiple of the place is nearer than the rounded value. -/
theorem abs_rounded_sub_le_of_multiple (hv : Marks em v) (hvalue : exact = v * 2 ^ t) (k : ℤ) :
    |em.roundedMantissa * 2 ^ t - exact| ≤ |k * 2 ^ t - exact| := by
  rw [hvalue, ← sub_mul, ← sub_mul, abs_mul, abs_mul]
  exact mul_le_mul_of_nonneg_right (hv.abs_rounded_sub_le_abs_sub k) (abs_nonneg _)

/-- A multiple of a coarser place is a multiple of the place. -/
theorem exists_eq_mul_two_zpow {g : ℤ} (htg : t ≤ g) (j : ℤ) : ∃ k : ℤ, (j : ℚ) * 2 ^ g = k * 2 ^ t := by
  obtain ⟨d, hd⟩ := Int.eq_ofNat_of_zero_le (sub_nonneg.mpr htg)
  have hg : g = t + d := by omega
  refine ⟨j * 2 ^ d, ?_⟩
  rw [hg, zpow_add₀ two_ne_zero, zpow_natCast]
  push_cast
  ring

/-- On a grid that the value fills, it is rounded as it is to be. -/
theorem rounded_on_grid (hv : Marks em v) (hvalue : exact = v * 2 ^ t) (hexact : 0 ≤ exact)
    (hfull : t ≠ -1074 → (2 : ℚ) ^ (t + 52) ≤ exact) : Rounded exact (em.roundedMantissa * 2 ^ t) where
  near := by
    have hhalf := mul_le_mul_of_nonneg_right hv.abs_rounded_sub_le (two_zpow_pos t).le
    have hplace := half_place_le hfull hexact
    rw [abs_of_nonneg hexact, hvalue, ← sub_mul, abs_mul, abs_of_pos (two_zpow_pos t), ← hvalue]
    linarith
  nearest j g hg hsmall := by
    rcases le_or_gt t g with htg | hgt
    · obtain ⟨k, hk⟩ := exists_eq_mul_two_zpow htg j
      rw [hk]
      exact abs_rounded_sub_le_of_multiple hv hvalue k
    · -- On a finer grid all is below the power of two that is the least of its size on the grid.
      have hpower : (2 : ℚ) ^ (t + 52) = (2 ^ 52 : ℤ) * 2 ^ t := by
        rw [add_comm, zpow_add₀ two_ne_zero]
        norm_num
      have hfilled := hfull (by omega)
      have hbelow : (j : ℚ) * 2 ^ g ≤ 2 ^ (t + 52) :=
        (le_abs_self _).trans (hsmall.le.trans (zpow_le_zpow_right₀ one_le_two (by omega)))
      have hpowerNearest := abs_rounded_sub_le_of_multiple hv hvalue (2 ^ 52)
      rw [← hpower] at hpowerNearest
      refine hpowerNearest.trans ?_
      rw [abs_of_nonpos (by linarith), abs_of_nonpos (by linarith)]
      linarith

/-- The rounded mantissa has at most one bit too many. -/
theorem roundedMantissa_le (hv : Marks em v) (hbits : v < 2 ^ 53) : em.roundedMantissa ≤ 2 ^ 53 := by
  have hnear := abs_le.mp hv.abs_rounded_sub_le
  have hlt : (em.roundedMantissa : ℚ) < ((2 ^ 53 + 1 : ℕ) : ℚ) := by
    push_cast
    linarith [hnear.2]
  exact Nat.lt_succ_iff.mp (by exact_mod_cast hlt)

theorem normal_on_grid (s : Sign) (hv : Marks em v) (hvalue : exact = v * 2 ^ t) (hlow : -1074 ≤ t)
    (hfull : t ≠ -1074 → (2 : ℚ) ^ (t + 52) ≤ exact) : Normal (carried s em.roundedMantissa t) := by
  by_cases hleast : t = -1074
  · exact normal_carried s hlow (.inr hleast)
  · have hfilled : (2 : ℚ) ^ 52 ≤ v := by
      have hsplit := hfull hleast
      rw [hvalue, add_comm, zpow_add₀ two_ne_zero] at hsplit
      exact_mod_cast le_of_mul_le_mul_right hsplit (two_zpow_pos t)
    have hnear := abs_le.mp hv.abs_rounded_sub_le
    have hlt : ((2 ^ 52 : ℕ) : ℚ) < em.roundedMantissa + 1 := by
      push_cast
      linarith [hnear.1]
    exact normal_carried s hlow (.inl (Nat.lt_succ_iff.mp (by exact_mod_cast hlt)))

end OnGrid

/-- An unpacked float that an exact result is rounded to. -/
def RoundsTo (u : UnpackedFloat) (exact : ℚ) : Prop := ∃ c, rational? u = some c ∧ Rounded exact c ∧ Normal u

theorem abs_sign_mul (s : Sign) {v : ℚ} (hv : 0 ≤ v) (e : ℤ) : |sign s * (v * 2 ^ e)| = v * 2 ^ e := by
  rw [abs_mul, abs_sign, one_mul, abs_of_nonneg (mul_nonneg hv (two_zpow_pos e).le)]

/-- A mantissa that stands for a value is rounded as the value is to be. -/
theorem roundsTo_of_marks (s : Sign) {m : ℕ} {e : ℤ} {accuracy : Accuracy} {v : ℚ}
    (hv : Marks (.ofMantissaAndAccuracy m accuracy) v) (he : e ≤ grid m e) :
    RoundsTo (roundWithAccuracy Format.binary64 s m e accuracy) (sign s * (v * 2 ^ e)) := by
  obtain ⟨k, hk⟩ := Int.eq_ofNat_of_zero_le (sub_nonneg.mpr he)
  obtain ⟨em, hem⟩ : ∃ em, ExtendedMantissa.ofMantissaAndAccuracy m accuracy >>> (grid m e - e).toNat = em :=
    ⟨_, rfl⟩
  obtain ⟨hlow, hhigh⟩ := Marks.bounds hv
  have hmantissa : (ExtendedMantissa.ofMantissaAndAccuracy m accuracy).mantissa = m := by
    cases accuracy with
    | exact => rfl
    | inexact order => cases order <;> rfl
  rw [hmantissa] at hlow hhigh
  have hnonneg : 0 ≤ v := (Nat.cast_nonneg m).trans hlow
  have hmoved : Marks em (v / 2 ^ k) := by
    have hshift := hv.shift (grid m e - e).toNat
    rw [hem, hk, Int.toNat_natCast] at hshift
    exact hshift
  have hvalue := mul_two_zpow_eq v (show grid m e = e + k by omega)
  have hexact : 0 ≤ v * 2 ^ e := mul_nonneg hnonneg (two_zpow_pos e).le
  have hfull : grid m e ≠ -1074 → (2 : ℚ) ^ (grid m e + 52) ≤ v * 2 ^ e := two_zpow_grid_le hlow he
  have hgrid := grid_eq m e
  have hr : em.roundedMantissa ≤ 2 ^ 53 := roundedMantissa_le hmoved (div_two_pow_lt hhigh (by omega))
  rw [roundWithAccuracy_eq s accuracy he hem hr]
  exact ⟨_, rational?_carried s hr _, (rounded_on_grid hmoved hvalue hexact hfull).signed s,
    normal_on_grid s hmoved hvalue (by omega) hfull⟩

theorem log2_shiftLeft {m : ℕ} (hm : m ≠ 0) (k : ℕ) : (m <<< k).log2 = m.log2 + k := by
  rw [Nat.shiftLeft_eq]
  induction k with
  | zero => rw [pow_zero, mul_one, add_zero]
  | succ k ih =>
      rw [pow_succ, mul_comm, mul_comm _ 2, mul_assoc, Nat.log2_two_mul (by positivity), mul_comm, ih, add_assoc]

/-- A mantissa without anything left over is rounded as it is to be, wherever its grid lies. -/
theorem roundsTo_round (s : Sign) {m : ℕ} (hm : m ≠ 0) (e : ℤ) :
    RoundsTo (round Format.binary64 s m e) (sign s * (m * 2 ^ e)) := by
  let k := (e - grid m e).toNat
  have hround : round Format.binary64 s m e =
      roundWithAccuracy Format.binary64 s (m <<< k) (e - k) .exact := rfl
  have he : e - k ≤ grid (m <<< k) (e - k) := by
    have hbefore := grid_eq m e
    rw [grid_eq, log2_shiftLeft hm]
    omega
  have hvalue : (m : ℚ) * 2 ^ e = ((m <<< k : ℕ) : ℚ) * 2 ^ (e - k) := by
    rw [Nat.shiftLeft_eq, zpow_sub₀ two_ne_zero, zpow_natCast]
    push_cast
    field_simp
  rw [hround, hvalue]
  exact roundsTo_of_marks s (Marks.exact _) he

theorem Rounded.refl (exact : ℚ) : Rounded exact exact where
  near := by
    rw [sub_self, abs_zero]
    have := two_zpow_pos (-1075)
    positivity
  nearest _ _ _ _ := by
    rw [sub_self, abs_zero]
    exact abs_nonneg _

theorem roundsTo_zero (s : Sign) : RoundsTo (.zero s) 0 := ⟨0, rfl, .refl 0, trivial⟩

/-- A signed mantissa is rounded as it is to be. -/
theorem roundsTo_normalize (z e : ℤ) (zeroSign : Sign) :
    RoundsTo (UnpackedFloat.normalize Format.binary64 z e zeroSign) (z * 2 ^ e) := by
  unfold UnpackedFloat.normalize
  split
  · next hneg =>
    have hlt := Int.compare_eq_lt.mp hneg
    have hvalue : (z : ℚ) * 2 ^ e = sign .negative * (((-z).toNat : ℕ) * 2 ^ e) := by
      have hcast : (((-z).toNat : ℕ) : ℚ) = -z := by exact_mod_cast Int.toNat_of_nonneg (by omega)
      rw [hcast, sign]
      ring
    rw [hvalue]
    exact roundsTo_round _ (by omega) e
  · next hzero =>
    obtain rfl := Int.compare_eq_eq.mp hzero
    rw [Int.cast_zero, zero_mul]
    exact roundsTo_zero zeroSign
  · next hpos =>
    have hgt := Int.compare_eq_gt.mp hpos
    have hvalue : (z : ℚ) * 2 ^ e = sign .positive * ((z.toNat : ℕ) * 2 ^ e) := by
      have hcast : ((z.toNat : ℕ) : ℚ) = z := by exact_mod_cast Int.toNat_of_nonneg (by omega)
      rw [hcast, sign, one_mul]
    rw [hvalue]
    exact roundsTo_round _ (by omega) e

/-! ### Packing -/

theorem unpackSign_packComponents {spec : Format} {s : Sign} {exponent : BitVec spec.exponentBits}
    {mantissa : BitVec spec.mantissaBitsWithoutImplicit} :
    Sign.ofBitVec (unpackSign (packComponents spec s exponent mantissa)) = s := by
  have hbit : unpackSign (packComponents spec s exponent mantissa) = s.toBitVec := by
    ext i hi
    obtain rfl : i = 0 := by omega
    simp [unpackSign, packComponents, BitVec.getLsbD_append, BitVec.getElem_append]
  rw [hbit]
  cases s <;> rfl

/-- A normal mantissa with its leading bit. -/
theorem toNat_one_append (mantissa : BitVec 52) : (1#1 ++ mantissa).toNat = 2 ^ 52 + mantissa.toNat := by
  rw [BitVec.toNat_append]
  show 1 <<< 52 ||| mantissa.toNat = _
  rw [← Nat.shiftLeft_add_eq_or_of_lt mantissa.isLt, Nat.one_shiftLeft]

theorem unpack_packComponents_of_normal (s : Sign) {exponent : BitVec 11} (mantissa : BitVec 52)
    (hlow : exponent ≠ 0#11) (hhigh : exponent ≠ -1#11) :
    UnpackedFloat.unpack Format.binary64 (packComponents Format.binary64 s exponent mantissa) =
      .finite s (2 ^ 52 + mantissa.toNat) (exponent.toNat - 1075) (by positivity) := by
  unfold UnpackedFloat.unpack
  simp only [unpackMantissa_packComponents, unpackExponent_packComponents, unpackSign_packComponents]
  rw [if_neg hhigh, if_neg hlow]
  congr 1
  exact toNat_one_append mantissa

theorem unpack_packComponents_of_subnormal (s : Sign) {mantissa : BitVec 52} (hmantissa : mantissa ≠ 0#52) :
    UnpackedFloat.unpack Format.binary64 (packComponents Format.binary64 s 0#11 mantissa) =
      .finite s mantissa.toNat (-1074) (by simpa [BitVec.toNat_pos, BitVec.pos_iff_ne_zero]) := by
  unfold UnpackedFloat.unpack
  simp only [unpackMantissa_packComponents, unpackExponent_packComponents, unpackSign_packComponents]
  rw [if_neg (by decide), if_pos trivial, dif_neg hmantissa]
  rfl

/-- Packing loses nothing. -/
theorem unpack_pack {u : UnpackedFloat} (hu : Canonical u) :
    UnpackedFloat.unpack Format.binary64 (UnpackedFloat.pack Format.binary64 u) = u := by
  cases u with
  | notANumber => rfl
  | infinity s => cases s <;> rfl
  | zero s => cases s <;> rfl
  | finite s m e hm =>
      obtain ⟨hbits, hlow, hhigh, hnormal⟩ := hu
      have hbias : (e + Format.binary64.exponentBias + Format.binary64.mantissaBitsWithoutImplicit).toNat =
          (e + 1075).toNat := by
        show (e + 1023 + 52).toNat = _
        omega
      have hlog : m.log2 + 1 = Format.binary64.mantissaBits ↔ 2 ^ 52 ≤ m := by
        show m.log2 + 1 = 53 ↔ _
        rw [← Nat.le_log2 hm.ne']
        have := (Nat.log2_lt hm.ne').mpr hbits
        omega
      unfold UnpackedFloat.pack
      simp only [hbias, hlog]
      rw [if_neg (by show ¬ 2 ^ 11 ≤ _; omega)]
      split
      · next hfull =>
        have hexponent : (BitVec.ofNat 11 (e + 1075).toNat).toNat = (e + 1075).toNat := by
          rw [BitVec.toNat_ofNat, Nat.mod_eq_of_lt (by omega)]
        have hmantissa : (BitVec.ofNat 52 m).toNat = m - 2 ^ 52 := by
          rw [BitVec.toNat_ofNat]
          omega
        have hnotFirst : BitVec.ofNat 11 (e + 1075).toNat ≠ 0#11 := fun h => by
          rw [h, BitVec.toNat_zero] at hexponent
          omega
        have hnotLast : BitVec.ofNat 11 (e + 1075).toNat ≠ -1#11 := fun h => by
          have hlast : (-1#11).toNat = 2047 := rfl
          rw [h, hlast] at hexponent
          omega
        refine (unpack_packComponents_of_normal s _ hnotFirst hnotLast).trans ?_
        congr 1
        · omega
        · omega
      · next hsmall =>
        have hmantissa : (BitVec.ofNat 52 m).toNat = m := by
          rw [BitVec.toNat_ofNat]
          omega
        have hne : BitVec.ofNat 52 m ≠ 0#52 := fun h => by
          rw [h, BitVec.toNat_zero] at hmantissa
          omega
        refine (unpack_packComponents_of_subnormal s hne).trans ?_
        congr 1
        omega

theorem abs_of_rational?_finite {s : Sign} {m : ℕ} {e : ℤ} {hm : 0 < m} {c : ℚ}
    (hc : rational? (.finite s m e hm) = some c) : |c| = m * 2 ^ e := by
  rw [← Option.some.inj hc, abs_sign_mul s (Nat.cast_nonneg m)]

/-- What is rounded to less than `2 ^ 1024` can be packed. -/
theorem Normal.canonical {u : UnpackedFloat} {c : ℚ} (hu : Normal u) (hc : rational? u = some c)
    (hsmall : |c| < 2 ^ (1024 : ℤ)) : Canonical u := by
  cases u with
  | finite s m e hm =>
      obtain ⟨hbits, hlow, hnormal⟩ := hu
      refine ⟨hbits, hlow, ?_, hnormal⟩
      rcases hnormal with hfull | hleast
      · have hfull' : (2 : ℚ) ^ (52 : ℤ) ≤ m := by exact_mod_cast hfull
        have hlarge : (2 : ℚ) ^ (52 + e) ≤ |c| := by
          rw [abs_of_rational?_finite hc, zpow_add₀ two_ne_zero]
          exact mul_le_mul_of_nonneg_right hfull' (two_zpow_pos e).le
        have hexponent := (zpow_lt_zpow_iff_right₀ one_lt_two).mp (hlarge.trans_lt hsmall)
        omega
      · omega
  | _ => trivial

/-- What is rounded to `2 ^ 1024` or more becomes infinite. -/
theorem Normal.unpack_pack {u : UnpackedFloat} {c : ℚ} (hu : Normal u) (hc : rational? u = some c)
    (hlarge : 2 ^ (1024 : ℤ) ≤ |c|) : ∃ s m e hm, u = .finite s m e hm
      ∧ UnpackedFloat.unpack Format.binary64 (UnpackedFloat.pack Format.binary64 u) = .infinity s := by
  cases u with
  | finite s m e hm =>
      refine ⟨s, m, e, hm, rfl, ?_⟩
      have hbits : (m : ℚ) < 2 ^ (53 : ℤ) := by exact_mod_cast hu.1
      have hsmall : |c| < 2 ^ (53 + e) := by
        rw [abs_of_rational?_finite hc, zpow_add₀ two_ne_zero]
        exact mul_lt_mul_of_pos_right hbits (two_zpow_pos e)
      have hexponent := (zpow_lt_zpow_iff_right₀ one_lt_two).mp (hlarge.trans_lt hsmall)
      have hoverflow : 2 ^ Format.binary64.exponentBits ≤
          (e + Format.binary64.exponentBias + Format.binary64.mantissaBitsWithoutImplicit).toNat + 1 := by
        show 2 ^ 11 ≤ (e + 1023 + 52).toNat + 1
        omega
      have hpack : UnpackedFloat.pack Format.binary64 (.finite s m e hm) =
          UnpackedFloat.packedInfinity Format.binary64 s := if_pos hoverflow
      rw [hpack]
      cases s <;> rfl
  | zero s =>
      rw [← Option.some.inj hc, abs_zero] at hlarge
      exact absurd hlarge (two_zpow_pos 1024).not_ge
  | _ => cases hc

/-- Every float that is unpacked is one that packing keeps. -/
theorem canonical_unpack (b : BitVec 64) : Canonical (UnpackedFloat.unpack Format.binary64 b) := by
  have hmantissa : (@unpackMantissa Format.binary64 b).toNat < 2 ^ 52 := BitVec.isLt _
  have hexponent : (@unpackExponent Format.binary64 b).toNat < 2 ^ 11 := BitVec.isLt _
  unfold UnpackedFloat.unpack
  dsimp only
  split
  · split <;> trivial
  · next hhigh =>
    split
    · next hzero =>
      split
      · trivial
      · rw [hzero]
        exact ⟨by omega, by decide, by decide, .inr rfl⟩
    · next hlow =>
      have hfull := toNat_one_append (@unpackMantissa Format.binary64 b)
      have hpos : (@unpackExponent Format.binary64 b).toNat ≠ 0 := fun h => hlow (BitVec.eq_of_toNat_eq h)
      have hlast : (@unpackExponent Format.binary64 b).toNat ≠ 2047 := fun h =>
        hhigh (BitVec.eq_of_toNat_eq h)
      have hbias : (Format.binary64.exponentBias : ℤ) + Format.binary64.mantissaBitsWithoutImplicit = 1075 := rfl
      refine ⟨?_, ?_, ?_, .inl ?_⟩
      · rw [hfull]; omega
      · rw [hbias]; omega
      · rw [hbias]; omega
      · rw [hfull]; omega

end PolyExpression.Rounding
