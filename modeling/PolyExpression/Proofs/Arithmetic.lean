import PolyExpression.Number
import PolyExpression.Proofs.Rounding
import Mathlib.Algebra.Order.Floor.Semifield
import Mathlib.Data.Rat.Floor

/-!
Floats as rational numbers. A finite float denotes one rational number; this module says what the results of
arithmetic on floats denote and what comparisons of floats say about the numbers. Main statements: products,
quotients and differences denote the rounded exact results, and the conversions to whole numbers round what a float
denotes.
-/

namespace PolyExpression

open Float.Model Rounding
open Float.Model.UnpackedFloat (Sign ExtendedMantissa Accuracy)

/-- The float stands for the rational number, exactly. -/
def Denotes (x : Float) (a : ℚ) : Prop := rational? x.toModel.unpack = some a

/-- The zero that has a minus sign. It denotes zero, too. -/
def IsMinusZero (x : Float) : Prop := x.toModel.unpack = .zero .negative

variable {x y : Float} {a b : ℚ}

theorem Denotes.unique (hx : Denotes x a) (hx' : Denotes x b) : a = b :=
  Option.some.inj (hx.symm.trans hx')

section Packed

variable {u : UnpackedFloat} {exact : ℚ}

/-- What an operation on floats gives once its result is rounded: a float as it was rounded, or an infinite one if it is
too large. -/
theorem unpack_pack_of_roundsTo (hu : RoundsTo u exact) :
    ((Float.ofModel (.pack u)).toModel.unpack = u ∧ ∃ c, Denotes (.ofModel (.pack u)) c ∧ Rounded exact c)
      ∨ 2 ^ (1023 : ℤ) ≤ |exact| ∧ ∃ s m e hm, u = .finite s m e hm
        ∧ (Float.ofModel (.pack u)).toModel.unpack = .infinity s := by
  obtain ⟨c, hc, hrounded, hnormal⟩ := hu
  rcases lt_or_ge |c| (2 ^ (1024 : ℤ)) with hsmall | hlarge
  · have hunpack : (Float.ofModel (.pack u)).toModel.unpack = u := unpack_pack (hnormal.canonical hc hsmall)
    exact .inl ⟨hunpack, c, by rw [Denotes, hunpack, hc], hrounded⟩
  · refine .inr ⟨?_, hnormal.unpack_pack hc hlarge⟩
    -- Rounding does not double anything.
    have herror := hrounded.near
    have hleast := least_le
    have htriangle := abs_sub_abs_le_abs_sub c exact
    have hdouble : (2 : ℚ) ^ (1024 : ℤ) = 2 * 2 ^ (1023 : ℤ) := zpow_one_add₀ two_ne_zero 1023
    have hone : (1 : ℚ) ≤ 2 ^ (1023 : ℤ) := one_le_zpow₀ one_le_two (by norm_num)
    rw [hdouble] at hlarge
    generalize (2 : ℚ) ^ (1023 : ℤ) = large at hlarge hone ⊢
    generalize (2 : ℚ) ^ (-1075 : ℤ) = least at herror hleast
    linarith

theorem denotes_of_roundsTo (hu : RoundsTo u exact) (hsmall : |exact| < 2 ^ (1023 : ℤ)) :
    ∃ c, Denotes (.ofModel (.pack u)) c ∧ Rounded exact c :=
  ((unpack_pack_of_roundsTo hu).resolve_right fun h => h.1.not_gt hsmall).2

end Packed

/-! ### Unpacked arithmetic -/

theorem sign_mul (s t : Sign) : sign (s * t) = sign s * sign t := by
  cases s <;> cases t
  · exact (by norm_num : (1 : ℚ) = -1 * -1)
  · exact (mul_one _).symm
  · exact (one_mul _).symm
  · exact (one_mul _).symm

theorem sign_div (s t : Sign) : sign (s / t) = sign s / sign t := by
  cases s <;> cases t
  · exact (by norm_num : (1 : ℚ) = -1 / -1)
  · exact (div_one _).symm
  · exact (by norm_num : (-1 : ℚ) = 1 / -1)
  · exact (div_one _).symm

theorem sign_apply (s : Sign) (n : ℕ) : ((s.apply n : ℤ) : ℚ) = sign s * n := by
  cases s <;> simp [sign, Sign.apply]

/-- What stands for a number is a zero or finite. -/
theorem rational?_cases {u : UnpackedFloat} (ha : rational? u = some a) :
    (∃ s, u = .zero s ∧ a = 0) ∨ ∃ s m e, ∃ hm : 0 < m, u = .finite s m e hm ∧ a = sign s * (m * 2 ^ e) := by
  cases u with
  | notANumber => cases ha
  | infinity s => cases ha
  | zero s => exact .inl ⟨s, rfl, (Option.some.inj ha).symm⟩
  | finite s m e hm => exact .inr ⟨s, m, e, hm, rfl, (Option.some.inj ha).symm⟩

/-- A product has enough bits to be rounded where it stands. -/
theorem add_le_grid_mul {s t : Sign} {m₁ m₂ : ℕ} {e₁ e₂ : ℤ} {hm₁ : 0 < m₁} {hm₂ : 0 < m₂}
    (hu : Canonical (.finite s m₁ e₁ hm₁)) (hv : Canonical (.finite t m₂ e₂ hm₂)) :
    e₁ + e₂ ≤ grid (m₁ * m₂) (e₁ + e₂) := by
  have hne : m₁ * m₂ ≠ 0 := (Nat.mul_pos hm₁ hm₂).ne'
  rw [grid_eq]
  rcases hu.2.2.2 with hfull | hleast
  · have hlog : 52 ≤ (m₁ * m₂).log2 :=
      (Nat.le_log2 hne).mpr (hfull.trans (Nat.le_mul_of_pos_right _ hm₂))
    omega
  · rcases hv.2.2.2 with hfull | hleast'
    · have hlog : 52 ≤ (m₁ * m₂).log2 :=
        (Nat.le_log2 hne).mpr (hfull.trans (Nat.le_mul_of_pos_left _ hm₁))
      omega
    · omega

theorem roundsTo_mul {u v : UnpackedFloat} (hu : Canonical u) (hv : Canonical v) (ha : rational? u = some a)
    (hb : rational? v = some b) : RoundsTo (u.mul Format.binary64 v) (a * b) := by
  obtain ⟨s, rfl, rfl⟩ | ⟨s, m₁, e₁, hm₁, rfl, rfl⟩ := rational?_cases ha
  · rw [zero_mul]
    obtain ⟨t, rfl, rfl⟩ | ⟨t, m₂, e₂, hm₂, rfl, rfl⟩ := rational?_cases hb
    · exact roundsTo_zero _
    · exact roundsTo_zero _
  · obtain ⟨t, rfl, rfl⟩ | ⟨t, m₂, e₂, hm₂, rfl, rfl⟩ := rational?_cases hb
    · rw [mul_zero]
      exact roundsTo_zero _
    · have hvalue : sign s * (m₁ * 2 ^ e₁) * (sign t * (m₂ * 2 ^ e₂)) =
          sign (s * t) * (((m₁ * m₂ : ℕ) : ℚ) * 2 ^ (e₁ + e₂)) := by
        rw [sign_mul, zpow_add₀ two_ne_zero]
        push_cast
        ring
      rw [hvalue]
      exact roundsTo_of_marks _ (Marks.exact _) (add_le_grid_mul hu hv)

/-! ### Quotients -/

/-- An exact quotient is the whole quotient and what the remainder adds. -/
theorem natCast_div_eq (n : ℕ) {d : ℕ} (hd : 0 < d) :
    (n : ℚ) / d = (n / d : ℕ) + ((n % d : ℕ) : ℚ) / d := by
  have hdq : (0 : ℚ) < d := by exact_mod_cast hd
  have hdiv : ((n % d : ℕ) : ℚ) + d * ((n / d : ℕ) : ℚ) = n := by exact_mod_cast Nat.mod_add_div n d
  generalize n / d = q at hdiv ⊢
  generalize n % d = r at hdiv ⊢
  rw [← hdiv]
  field_simp
  ring

/-- The remainder says how a quotient goes on. -/
theorem marks_div (m : ℕ) {d : ℕ} (hd : 0 < d) :
    Marks (.ofMantissaAndAccuracy (m / d) (UnpackedFloat.accuracyOfFraction (m % d) d)) (m / d) := by
  have hdq : (0 : ℚ) < d := by exact_mod_cast hd
  obtain ⟨q, hq⟩ : ∃ q, m / d = q := ⟨_, rfl⟩
  obtain ⟨r, hr⟩ : ∃ r, m % d = r := ⟨_, rfl⟩
  rw [natCast_div_eq m hd, hq, hr]
  unfold UnpackedFloat.accuracyOfFraction
  split
  · next hzero =>
    rw [hzero, Nat.cast_zero, zero_div, add_zero]
    rfl
  · next hpos =>
    have hfraction : 0 < (r : ℚ) / d := div_pos (by exact_mod_cast Nat.pos_of_ne_zero hpos) hdq
    cases horder : compare (2 * r) d with
    | lt =>
        have hlt : (2 : ℚ) * r < d := by exact_mod_cast Nat.compare_eq_lt.mp horder
        have hhalf : (r : ℚ) / d < 1 / 2 := by rw [div_lt_iff₀ hdq]; linarith
        show (q : ℚ) < q + r / d ∧ q + r / d < (q : ℚ) + 1 / 2
        exact ⟨by linarith, by linarith⟩
    | eq =>
        have heq : (2 : ℚ) * r = d := by exact_mod_cast Nat.compare_eq_eq.mp horder
        have hhalf : (r : ℚ) / d = 1 / 2 := by rw [div_eq_iff hdq.ne']; linarith
        show q + r / d = (q : ℚ) + 1 / 2
        rw [hhalf]
    | gt =>
        have hgt : (d : ℚ) < 2 * r := by exact_mod_cast Nat.compare_eq_gt.mp horder
        have hrest : (r : ℚ) < d := by exact_mod_cast hr ▸ Nat.mod_lt m hd
        have hhalf : 1 / 2 < (r : ℚ) / d := by rw [lt_div_iff₀ hdq]; linarith
        have hone : (r : ℚ) / d < 1 := by rw [div_lt_one hdq]; exact hrest
        show (q : ℚ) + 1 / 2 < q + r / d ∧ q + r / d < (q : ℚ) + 1
        exact ⟨by linarith, by linarith⟩

theorem log2_sub_le_log2_div {m d : ℕ} (hm : m ≠ 0) (hd : d ≠ 0) (hle : d.log2 < m.log2) :
    m.log2 - d.log2 - 1 ≤ (m / d).log2 := by
  have hlow : 2 ^ m.log2 ≤ m := Nat.log2_self_le hm
  have hhigh : d < 2 ^ (d.log2 + 1) := Nat.lt_log2_self
  have hquotient : 2 ^ (m.log2 - d.log2 - 1) ≤ m / d := by
    rw [Nat.le_div_iff_mul_le (Nat.pos_of_ne_zero hd)]
    calc 2 ^ (m.log2 - d.log2 - 1) * d ≤ 2 ^ (m.log2 - d.log2 - 1) * 2 ^ (d.log2 + 1) :=
          Nat.mul_le_mul_left _ hhigh.le
      _ = 2 ^ m.log2 := by rw [← pow_add]; congr 1; omega
      _ ≤ m := hlow
  exact (Nat.le_log2 ((Nat.two_pow_pos _).trans_le hquotient).ne').mpr hquotient

/-- A quotient has enough bits to be rounded where it stands. -/
theorem le_grid_div {m₁ m₂ : ℕ} (hm₁ : m₁ ≠ 0) (hm₂ : m₂ ≠ 0) {e₁ e₂ e : ℤ}
    (he : e = min (e₁ - e₂) (Format.binary64.targetExponent (totalExponent m₁ e₁ - totalExponent m₂ e₂))) :
    e ≤ grid (m₁ <<< (e₁ - e₂ - e).toNat / m₂) e := by
  have hmantissa : Format.binary64.mantissaBits = 53 := rfl
  have hleast : Format.binary64.minExponent = -1074 := rfl
  rw [grid_eq]
  unfold Format.targetExponent totalExponent at he
  rw [hmantissa, hleast] at he
  by_cases hlow : e ≤ -1074
  · omega
  · have hne : m₁ <<< (e₁ - e₂ - e).toNat ≠ 0 := by
      rw [Nat.shiftLeft_eq]
      positivity
    have hshifted := log2_shiftLeft hm₁ (e₁ - e₂ - e).toNat
    have hquotient := log2_sub_le_log2_div hne hm₂ (by omega)
    omega

theorem roundsTo_div {u v : UnpackedFloat} (ha : rational? u = some a)
    (hb : rational? v = some b) (hne : b ≠ 0) : RoundsTo (u.div Format.binary64 v) (a / b) := by
  obtain ⟨t, rfl, rfl⟩ | ⟨t, m₂, e₂, hm₂, rfl, rfl⟩ := rational?_cases hb
  · exact absurd rfl hne
  · obtain ⟨s, rfl, rfl⟩ | ⟨s, m₁, e₁, hm₁, rfl, rfl⟩ := rational?_cases ha
    · rw [zero_div]
      exact roundsTo_zero _
    · obtain ⟨e, he⟩ : ∃ e, e = min (e₁ - e₂)
          (Format.binary64.targetExponent (totalExponent m₁ e₁ - totalExponent m₂ e₂)) := ⟨_, rfl⟩
      have hdiv : UnpackedFloat.div Format.binary64 (.finite s m₁ e₁ hm₁) (.finite t m₂ e₂ hm₂) =
          UnpackedFloat.roundWithAccuracy Format.binary64 (s / t) (m₁ <<< (e₁ - e₂ - e).toNat / m₂) e
            (UnpackedFloat.accuracyOfFraction (m₁ <<< (e₁ - e₂ - e).toNat % m₂) m₂) := by
        rw [he]
        rfl
      have hvalue : sign s * (m₁ * 2 ^ e₁) / (sign t * (m₂ * 2 ^ e₂)) =
          sign (s / t) * (((m₁ <<< (e₁ - e₂ - e).toNat : ℕ) : ℚ) / m₂ * 2 ^ e) := by
        obtain ⟨k, hk⟩ := Int.eq_ofNat_of_zero_le (show 0 ≤ e₁ - e₂ - e by omega)
        have hshift : e₁ = k + e + e₂ := by omega
        rw [hk, Int.toNat_natCast, Nat.shiftLeft_eq, sign_div, mul_div_mul_comm, hshift, zpow_add₀ two_ne_zero,
          zpow_add₀ two_ne_zero, zpow_natCast]
        push_cast
        field_simp
      rw [hdiv, hvalue]
      exact roundsTo_of_marks _ (marks_div _ hm₂) (le_grid_div hm₁.ne' hm₂.ne' he)

/-! ### Differences -/

/-- Two signed mantissas brought to the smaller of their exponents. -/
theorem aligned_sub (s t : Sign) (m₁ m₂ : ℕ) (e₁ e₂ : ℤ) :
    sign s * (m₁ * 2 ^ e₁) - sign t * (m₂ * 2 ^ e₂) =
      ((s.apply (m₁ <<< (e₁ - min e₁ e₂).toNat : ℕ) - t.apply (m₂ <<< (e₂ - min e₁ e₂).toNat : ℕ) : ℤ) : ℚ)
        * 2 ^ min e₁ e₂ := by
  obtain ⟨e, he⟩ : ∃ e, min e₁ e₂ = e := ⟨_, rfl⟩
  obtain ⟨j, hj⟩ := Int.eq_ofNat_of_zero_le (show 0 ≤ e₁ - e by omega)
  obtain ⟨k, hk⟩ := Int.eq_ofNat_of_zero_le (show 0 ≤ e₂ - e by omega)
  have he₁ : e₁ = j + e := by omega
  have he₂ : e₂ = k + e := by omega
  rw [he, hj, hk, he₁, he₂, Int.toNat_natCast, Int.toNat_natCast, Nat.shiftLeft_eq, Nat.shiftLeft_eq, Int.cast_sub,
    sign_apply, sign_apply, zpow_add₀ two_ne_zero, zpow_add₀ two_ne_zero, zpow_natCast, zpow_natCast]
  push_cast
  ring

theorem roundsTo_of_canonical {u : UnpackedFloat} (hu : Canonical u) (ha : rational? u = some a) : RoundsTo u a :=
  ⟨a, ha, .refl a, hu.normal⟩

theorem roundsTo_sub {u v : UnpackedFloat} (hu : Canonical u) (hv : Canonical v) (ha : rational? u = some a)
    (hb : rational? v = some b) : RoundsTo (u.sub Format.binary64 v) (a - b) := by
  obtain ⟨s, rfl, rfl⟩ | ⟨s, m₁, e₁, hm₁, rfl, rfl⟩ := rational?_cases ha
  · obtain ⟨t, rfl, rfl⟩ | ⟨t, m₂, e₂, hm₂, rfl, rfl⟩ := rational?_cases hb
    · rw [sub_zero]
      cases s <;> cases t <;> exact roundsTo_zero _
    · have hvalue : 0 - sign t * (m₂ * 2 ^ e₂) = sign (-t) * (m₂ * 2 ^ e₂) := by
        have hneg : sign (-t) = -sign t := by
          cases t
          · exact (neg_neg _).symm
          · rfl
        rw [hneg]
        ring
      rw [hvalue]
      exact roundsTo_of_canonical hv rfl
  · obtain ⟨t, rfl, rfl⟩ | ⟨t, m₂, e₂, hm₂, rfl, rfl⟩ := rational?_cases hb
    · rw [sub_zero]
      exact roundsTo_of_canonical hu rfl
    · rw [aligned_sub]
      exact roundsTo_normalize _ _ .positive

/-! ### Operations on floats -/

theorem Denotes.mul (hx : Denotes x a) (hy : Denotes y b) (hsmall : |a * b| < 2 ^ (1023 : ℤ)) :
    ∃ c, Denotes (x * y) c ∧ Rounded (a * b) c :=
  denotes_of_roundsTo (roundsTo_mul (canonical_unpack _) (canonical_unpack _) hx hy) hsmall

theorem Denotes.div (hx : Denotes x a) (hy : Denotes y b) (hne : b ≠ 0) (hsmall : |a / b| < 2 ^ (1023 : ℤ)) :
    ∃ c, Denotes (x / y) c ∧ Rounded (a / b) c :=
  denotes_of_roundsTo (roundsTo_div hx hy hne) hsmall

theorem Denotes.sub (hx : Denotes x a) (hy : Denotes y b) (hsmall : |a - b| < 2 ^ (1023 : ℤ)) :
    ∃ c, Denotes (x - y) c ∧ Rounded (a - b) c :=
  denotes_of_roundsTo (roundsTo_sub (canonical_unpack _) (canonical_unpack _) hx hy) hsmall

theorem denotes_of_canonical {u : UnpackedFloat} (hu : Canonical u) (ha : rational? u = some a) :
    Denotes (.ofModel (.pack u)) a := by
  have hunpack : (Float.ofModel (.pack u)).toModel.unpack = u := unpack_pack hu
  rw [Denotes, hunpack, ha]

theorem Denotes.abs (hx : Denotes x a) : Denotes x.abs |a| := by
  have hcanonical : Canonical x.toModel.unpack := canonical_unpack _
  refine denotes_of_canonical (u := x.toModel.unpack.abs) ?_ ?_
  · obtain ⟨s, hu, rfl⟩ | ⟨s, m, e, hm, hu, rfl⟩ := rational?_cases hx
    · rw [hu]
      trivial
    · rw [hu] at hcanonical ⊢
      exact hcanonical
  · obtain ⟨s, hu, rfl⟩ | ⟨s, m, e, hm, hu, rfl⟩ := rational?_cases hx
    · rw [hu, abs_zero]
      rfl
    · rw [hu, abs_sign_mul s (Nat.cast_nonneg m), ← one_mul ((m : ℚ) * 2 ^ e)]
      rfl

theorem Denotes.neg (hx : Denotes x a) : Denotes (-x) (-a) := by
  have hcanonical : Canonical x.toModel.unpack := canonical_unpack _
  refine denotes_of_canonical (u := x.toModel.unpack.neg) ?_ ?_
  · obtain ⟨s, hu, rfl⟩ | ⟨s, m, e, hm, hu, rfl⟩ := rational?_cases hx
    · rw [hu]
      trivial
    · rw [hu] at hcanonical ⊢
      exact hcanonical
  · obtain ⟨s, hu, rfl⟩ | ⟨s, m, e, hm, hu, rfl⟩ := rational?_cases hx
    · rw [hu, neg_zero]
      rfl
    · rw [hu]
      cases s with
      | negative =>
          rw [sign_negative, neg_one_mul, neg_neg, ← one_mul ((m : ℚ) * 2 ^ e)]
          rfl
      | positive =>
          rw [sign_positive, one_mul, ← neg_one_mul]
          rfl

/-- Counts below `2 ^ 53` are far from overflow. -/
theorem natCast_lt_two_zpow {n : ℕ} (hn : n < 2 ^ 53) : (n : ℚ) < 2 ^ (1023 : ℤ) := by
  have hlt : (n : ℚ) < 2 ^ (53 : ℤ) := by exact_mod_cast hn
  exact hlt.trans (zpow_lt_zpow_right₀ one_lt_two (by norm_num))

/-- Small counts are exact. -/
theorem denotes_countToFloat {n : ℕ} (hn : n < 2 ^ 53) : Denotes (countToFloat n) n := by
  have hword : n.toUInt64.toNat = n := by
    rw [Nat.toUInt64_eq, UInt64.toNat_ofNat']
    omega
  have hsmall : |(n : ℚ)| < 2 ^ (53 + 0 : ℤ) := by
    rw [Nat.abs_cast]
    exact_mod_cast hn
  have hround := roundsTo_normalize (n.toUInt64.toNat : ℤ) 0 .positive
  rw [hword, zpow_zero, mul_one, Int.cast_natCast] at hround
  obtain ⟨c, hc, hrounded⟩ := denotes_of_roundsTo hround ((Nat.abs_cast n).trans_lt (natCast_lt_two_zpow hn))
  obtain rfl : c = n := hrounded.eq_of_fits n 0 (by norm_num) (by simp) hsmall
  have hfloat : countToFloat n = .ofModel (.pack (.normalize Format.binary64 n.toUInt64.toNat 0 .positive)) := rfl
  rw [hfloat, hword]
  exact hc

theorem denotes_zero : Denotes 0.0 0 := rfl

theorem denotes_one : Denotes 1.0 1 := by
  show some (sign .positive * (((2 ^ 52 : ℕ) : ℚ) * 2 ^ (-52 : ℤ))) = some 1
  norm_num [sign]

theorem denotes_quarter : Denotes 0.25 (1 / 4) := by
  show some (sign .positive * (((2 ^ 52 : ℕ) : ℚ) * 2 ^ (-54 : ℤ))) = some _
  norm_num

/-! ### Exact differences -/

/-- A float has at most 53 bits, none of them behind the last place that there is. -/
theorem Denotes.exists_fits (hx : Denotes x a) :
    ∃ j g : ℤ, -1074 ≤ g ∧ a = j * 2 ^ g ∧ |a| < 2 ^ (53 + g) := by
  obtain ⟨s, hu, rfl⟩ | ⟨s, m, e, hm, hu, rfl⟩ := rational?_cases hx
  · refine ⟨0, -1074, le_rfl, by rw [Int.cast_zero, zero_mul], ?_⟩
    rw [abs_zero]
    exact two_zpow_pos _
  · have hcanonical : Canonical x.toModel.unpack := canonical_unpack _
    rw [hu] at hcanonical
    obtain ⟨hbits, hlow, -, -⟩ := hcanonical
    refine ⟨s.apply m, e, hlow, by rw [sign_apply, mul_assoc], ?_⟩
    have hm' : (m : ℚ) < 2 ^ (53 : ℤ) := by exact_mod_cast hbits
    rw [abs_sign_mul s (Nat.cast_nonneg m), zpow_add₀ two_ne_zero]
    exact mul_lt_mul_of_pos_right hm' (two_zpow_pos e)

/-- Rounding does not go past a float. -/
theorem Denotes.rounded_le {exact rounded : ℚ} (hx : Denotes x a) (h : Rounded exact rounded) (hle : exact ≤ a) :
    rounded ≤ a := by
  obtain ⟨j, g, hg, rfl, hsmall⟩ := hx.exists_fits
  have hnearest := h.nearest j g hg hsmall
  rw [abs_of_nonneg (sub_nonneg.mpr hle)] at hnearest
  linarith [(abs_le.mp hnearest).2]

theorem Denotes.le_rounded {exact rounded : ℚ} (hx : Denotes x a) (h : Rounded exact rounded) (hle : a ≤ exact) :
    a ≤ rounded := by
  obtain ⟨j, g, hg, rfl, hsmall⟩ := hx.exists_fits
  have hnearest := h.nearest j g hg hsmall
  rw [abs_of_nonpos (sub_nonpos.mpr hle)] at hnearest
  linarith [(abs_le.mp hnearest).1]

/-- Floats that are not small are multiples of a small power of two. -/
theorem Denotes.exists_multiple (hx : Denotes x a) (ha : 1 / 8 ≤ a) : ∃ i : ℤ, a = i * 2 ^ (-55 : ℤ) := by
  obtain ⟨j, g, -, hj, hlt⟩ := hx.exists_fits
  have heighth : (2 : ℚ) ^ (-3 : ℤ) ≤ |a| := (le_of_eq (by norm_num)).trans (ha.trans (le_abs_self a))
  have hg := (zpow_lt_zpow_iff_right₀ one_lt_two).mp (heighth.trans_lt hlt)
  obtain ⟨k, hk⟩ := Int.eq_ofNat_of_zero_le (show 0 ≤ g + 55 by omega)
  obtain rfl : g = k + -55 := by omega
  refine ⟨j * 2 ^ k, ?_⟩
  rw [hj, zpow_add₀ two_ne_zero, zpow_natCast]
  push_cast
  ring

/-- The difference from zero is exact, and so is that of two fractions close to each other and not small. -/
theorem Denotes.sub_exact {c : ℚ} (hrounded : Rounded (a - b) c) (hx : Denotes x a) (hy : Denotes y b)
    (h : a = 0 ∨ 1 / 4 ≤ a ∧ |a - b| ≤ 1 / 8) : c = a - b := by
  rcases h with rfl | ⟨hquarter, hclose⟩
  · obtain ⟨j, g, hg, hj, hlt⟩ := hy.exists_fits
    refine hrounded.eq_of_fits (-j) g hg ?_ ?_
    · rw [hj]
      push_cast
      ring
    · rw [zero_sub, abs_neg]
      exact hlt
  · obtain ⟨i, hi⟩ := hx.exists_multiple (by linarith)
    obtain ⟨j, hj⟩ := hy.exists_multiple (by linarith [(abs_le.mp hclose).2])
    refine hrounded.eq_of_fits (i - j) (-55) (by norm_num) ?_ ?_
    · rw [Int.cast_sub, sub_mul, ← hi, ← hj]
    · exact hclose.trans_lt (by norm_num)

/-! ### Comparisons -/

/-- Of floats in canonical form the one with the larger exponent is larger. -/
theorem mul_zpow_lt {s t : Sign} {m₁ m₂ : ℕ} {e₁ e₂ : ℤ} {hm₁ : 0 < m₁} {hm₂ : 0 < m₂}
    (hu : Canonical (.finite s m₁ e₁ hm₁)) (hv : Canonical (.finite t m₂ e₂ hm₂)) (he : e₁ < e₂) :
    (m₁ : ℚ) * 2 ^ e₁ < m₂ * 2 ^ e₂ := by
  obtain ⟨hbits, hleast, -, -⟩ := hu
  have hfull : 2 ^ 52 ≤ m₂ := hv.2.2.2.resolve_right (by omega)
  have hm₁' : (m₁ : ℚ) < 2 ^ 53 := by exact_mod_cast hbits
  have hm₂' : (2 : ℚ) ^ 52 ≤ m₂ := by exact_mod_cast hfull
  calc (m₁ : ℚ) * 2 ^ e₁ < 2 ^ 53 * 2 ^ e₁ := mul_lt_mul_of_pos_right hm₁' (two_zpow_pos e₁)
    _ = 2 ^ 52 * 2 ^ (e₁ + 1) := by rw [zpow_add_one₀ two_ne_zero]; ring
    _ ≤ 2 ^ 52 * 2 ^ e₂ := by gcongr; exacts [by norm_num, by omega]
    _ ≤ m₂ * 2 ^ e₂ := mul_le_mul_of_nonneg_right hm₂' (two_zpow_pos e₂).le

theorem compare_magnitudes {s t : Sign} {m₁ m₂ : ℕ} {e₁ e₂ : ℤ} {hm₁ : 0 < m₁} {hm₂ : 0 < m₂}
    (hu : Canonical (.finite s m₁ e₁ hm₁)) (hv : Canonical (.finite t m₂ e₂ hm₂)) :
    (compare e₁ e₂).then (compare m₁ m₂) = compare ((m₁ : ℚ) * 2 ^ e₁) (m₂ * 2 ^ e₂) := by
  rcases lt_trichotomy e₁ e₂ with he | rfl | he
  · rw [compare_lt_iff_lt.mpr he, compare_lt_iff_lt.mpr (mul_zpow_lt hu hv he)]
    rfl
  · rw [compare_eq_iff_eq.mpr rfl]
    rcases lt_trichotomy m₁ m₂ with hm | rfl | hm
    · have hlt := mul_lt_mul_of_pos_right (Nat.cast_lt (α := ℚ).mpr hm) (two_zpow_pos e₁)
      rw [compare_lt_iff_lt.mpr hm, compare_lt_iff_lt.mpr hlt]
      rfl
    · rw [compare_eq_iff_eq.mpr rfl, compare_eq_iff_eq.mpr rfl]
      rfl
    · have hlt := mul_lt_mul_of_pos_right (Nat.cast_lt (α := ℚ).mpr hm) (two_zpow_pos e₁)
      rw [compare_gt_iff_gt.mpr hm, compare_gt_iff_gt.mpr hlt]
      rfl
  · rw [compare_gt_iff_gt.mpr he, compare_gt_iff_gt.mpr (mul_zpow_lt hv hu he)]
    rfl

theorem compare_neg_neg (a b : ℚ) : compare (-a) (-b) = (compare a b).swap := by
  rcases lt_trichotomy a b with h | rfl | h
  · rw [compare_lt_iff_lt.mpr h, compare_gt_iff_gt.mpr (neg_lt_neg h)]
    rfl
  · rw [compare_eq_iff_eq.mpr rfl, compare_eq_iff_eq.mpr rfl]
    rfl
  · rw [compare_gt_iff_gt.mpr h, compare_lt_iff_lt.mpr (neg_lt_neg h)]
    rfl

theorem compare_unpacked {u v : UnpackedFloat} (hu : Canonical u) (hv : Canonical v) (ha : rational? u = some a)
    (hb : rational? v = some b) : u.compare v = some (compare a b) := by
  obtain ⟨s, rfl, rfl⟩ | ⟨s, m₁, e₁, hm₁, rfl, rfl⟩ := rational?_cases ha
  · obtain ⟨t, rfl, rfl⟩ | ⟨t, m₂, e₂, hm₂, rfl, rfl⟩ := rational?_cases hb
    · rw [compare_eq_iff_eq.mpr rfl]
      rfl
    · have hpos : 0 < (m₂ : ℚ) * 2 ^ e₂ := mul_pos (Nat.cast_pos.mpr hm₂) (two_zpow_pos e₂)
      cases t with
      | positive =>
          rw [sign_positive, one_mul, compare_lt_iff_lt.mpr hpos]
          rfl
      | negative =>
          rw [sign_negative, neg_one_mul, compare_gt_iff_gt.mpr (neg_lt_zero.mpr hpos)]
          rfl
  · have hpos₁ : 0 < (m₁ : ℚ) * 2 ^ e₁ := mul_pos (Nat.cast_pos.mpr hm₁) (two_zpow_pos e₁)
    obtain ⟨t, rfl, rfl⟩ | ⟨t, m₂, e₂, hm₂, rfl, rfl⟩ := rational?_cases hb
    · cases s with
      | positive =>
          rw [sign_positive, one_mul, compare_gt_iff_gt.mpr hpos₁]
          rfl
      | negative =>
          rw [sign_negative, neg_one_mul, compare_lt_iff_lt.mpr (neg_lt_zero.mpr hpos₁)]
          rfl
    · have hpos₂ : 0 < (m₂ : ℚ) * 2 ^ e₂ := mul_pos (Nat.cast_pos.mpr hm₂) (two_zpow_pos e₂)
      have hcompare := compare_magnitudes hu hv
      cases s with
      | positive =>
          cases t with
          | positive =>
              rw [sign_positive, one_mul, one_mul, ← hcompare]
              rfl
          | negative =>
              rw [sign_positive, sign_negative, one_mul, neg_one_mul,
                compare_gt_iff_gt.mpr ((neg_lt_zero.mpr hpos₂).trans hpos₁)]
              rfl
      | negative =>
          cases t with
          | positive =>
              rw [sign_positive, sign_negative, one_mul, neg_one_mul,
                compare_lt_iff_lt.mpr ((neg_lt_zero.mpr hpos₁).trans hpos₂)]
              rfl
          | negative =>
              rw [sign_negative, neg_one_mul, neg_one_mul, compare_neg_neg, ← hcompare]
              rfl

theorem lt_iff_compare (x y : Float) : x < y ↔ (x.toModel.unpack.compare y.toModel.unpack == some .lt) = true :=
  decide_eq_true_iff

theorem Denotes.lt_iff (hx : Denotes x a) (hy : Denotes y b) : x < y ↔ a < b := by
  have hcompare : x.toModel.unpack.compare y.toModel.unpack = some (compare a b) :=
    compare_unpacked (canonical_unpack _) (canonical_unpack _) hx hy
  rw [lt_iff_compare, hcompare, ← compare_lt_iff_lt, beq_iff_eq, Option.some_inj]

theorem Denotes.le_iff (hx : Denotes x a) (hy : Denotes y b) : x ≤ y ↔ a ≤ b := by
  have hcompare : x.toModel.unpack.compare y.toModel.unpack = some (compare a b) :=
    compare_unpacked (canonical_unpack _) (canonical_unpack _) hx hy
  have hmodel : x ≤ y ↔ (x.toModel.unpack.compare y.toModel.unpack).any (·.isLE) = true := decide_eq_true_iff
  rw [hmodel, hcompare, Option.any_some, Ordering.isLE_iff_ne_gt]
  exact compare_le_iff_le

theorem Denotes.beq (hx : Denotes x a) (hy : Denotes y a) : (x == y) = true := by
  have hcompare : x.toModel.unpack.compare y.toModel.unpack = some (compare a a) :=
    compare_unpacked (canonical_unpack _) (canonical_unpack _) hx hy
  rw [compare_eq_iff_eq.mpr rfl] at hcompare
  show (x.toModel.unpack.compare y.toModel.unpack == some .eq) = true
  rw [hcompare]
  rfl

/-- Only zero has two floats. -/
theorem Denotes.eq_of_ne_zero (hx : Denotes x a) (hy : Denotes y a) (ha : a ≠ 0) : x = y := by
  obtain ⟨-, -, hsame | ⟨rfl, -⟩ | ⟨-, rfl⟩⟩ := Float.beq_iff_ne_nan_and_eq.mp (hx.beq hy)
  · exact hsame
  · exact absurd (hx.unique denotes_zero) ha
  · exact absurd (hy.unique denotes_zero) ha

theorem Denotes.isNaN (hx : Denotes x a) : x.isNaN = false := by
  show x.toModel.unpack.isNaN = false
  obtain ⟨s, hu, -⟩ | ⟨s, m, e, hm, hu, -⟩ := rational?_cases hx <;> rw [hu] <;> rfl

/-! ### Bit patterns -/

/-- What an unpacked float is read as. -/
def Binary64.ofUnpacked : UnpackedFloat → Binary64
  | .notANumber => .nan
  | .infinity s => .infinite (s == .negative)
  | .zero s => .finite (s == .negative) 0 leastExponent
  | .finite s m e _ => .finite (s == .negative) m e

section Fields

variable (bits : BitVec 64)

theorem toNat_unpackMantissa :
    (@UnpackedFloat.unpackMantissa Format.binary64 bits).toNat = bits.toNat % (1 <<< 52) := by
  simp [UnpackedFloat.unpackMantissa, BitVec.extractLsb]

theorem toNat_unpackExponent :
    (@UnpackedFloat.unpackExponent Format.binary64 bits).toNat = (bits.toNat >>> 52) % 2048 := by
  simp [UnpackedFloat.unpackExponent, BitVec.extractLsb]

theorem toNat_unpackSign :
    (@UnpackedFloat.unpackSign Format.binary64 bits).toNat = bits.toNat >>> 63 := by
  have hbits := bits.isLt
  have hbit : bits.toNat >>> 63 < 2 := by
    rw [Nat.shiftRight_eq_div_pow]
    omega
  simpa [UnpackedFloat.unpackSign, BitVec.extractLsb] using hbit

theorem ofBitVec_unpackSign :
    (Sign.ofBitVec (@UnpackedFloat.unpackSign Format.binary64 bits) == .negative) =
      (bits.toNat >>> 63 == 1) := by
  rw [← toNat_unpackSign]
  generalize @UnpackedFloat.unpackSign Format.binary64 bits = bit
  revert bit
  decide

end Fields

theorem Binary64.ofFloat_eq (x : Float) : ofFloat x = ofUnpacked x.toModel.unpack := by
  obtain ⟨bits, hbits⟩ : ∃ bits, x.toModel.toBits.toBitVec = bits := ⟨_, rfl⟩
  have hunpack : x.toModel.unpack = UnpackedFloat.unpack Format.binary64 bits := by
    rw [← hbits]
    rfl
  have hnat : x.toBits.toNat = bits.toNat := by
    rw [← hbits]
    rfl
  have hmantissa := toNat_unpackMantissa bits
  have hexponent := toNat_unpackExponent bits
  have hsign := ofBitVec_unpackSign bits
  rw [hunpack]
  unfold ofFloat UnpackedFloat.unpack storedBits
  simp only [hnat, ← hmantissa, ← hexponent, ← hsign]
  have hzero (v : BitVec 52) : v.toNat = 0 ↔ v = 0#52 := ⟨fun h => BitVec.eq_of_toNat_eq h, fun h => h ▸ rfl⟩
  have hlow (v : BitVec 11) : v.toNat = 0 ↔ v = 0#11 := ⟨fun h => BitVec.eq_of_toNat_eq h, fun h => h ▸ rfl⟩
  have hhigh (v : BitVec 11) : v.toNat = 2047 ↔ v = -1#11 := ⟨fun h => BitVec.eq_of_toNat_eq h, fun h => h ▸ rfl⟩
  by_cases hE : @UnpackedFloat.unpackExponent Format.binary64 bits = -1#11
  · rw [if_pos ((hhigh _).mpr hE), if_pos hE]
    by_cases hM : @UnpackedFloat.unpackMantissa Format.binary64 bits = 0#52
    · rw [if_pos ((hzero _).mpr hM), if_pos hM]
      rfl
    · rw [if_neg ((hzero _).not.mpr hM), if_neg hM]
      rfl
  · rw [if_neg ((hhigh _).not.mpr hE), if_neg hE]
    by_cases hE' : @UnpackedFloat.unpackExponent Format.binary64 bits = 0#11
    · rw [if_pos ((hlow _).mpr hE'), if_pos hE']
      by_cases hM : @UnpackedFloat.unpackMantissa Format.binary64 bits = 0#52
      · rw [dif_pos hM, hM]
        rfl
      · rw [dif_neg hM, hE']
        rfl
    · rw [if_neg ((hlow _).not.mpr hE'), if_neg hE']
      have hbias : (Format.binary64.exponentBias : ℤ) + Format.binary64.mantissaBitsWithoutImplicit = 1075 := rfl
      have hpos := (hlow _).not.mpr hE'
      have hplace : leastExponent + (((@UnpackedFloat.unpackExponent Format.binary64 bits).toNat - 1 : ℕ) : ℤ) =
          (@UnpackedFloat.unpackExponent Format.binary64 bits).toNat - 1075 := by
        show (-1074 : ℤ) + _ = _
        omega
      show Binary64.finite _ _ _ = Binary64.finite _ _ _
      rw [hbias, hplace, toNat_one_append, Nat.one_shiftLeft]

theorem ofFloat_of_isMinusZero (hx : IsMinusZero x) : Binary64.ofFloat x = .finite true 0 Binary64.leastExponent := by
  rw [Binary64.ofFloat_eq, hx]
  rfl

/-- The mantissa and the exponent of a number that is not negative. -/
theorem Denotes.ofFloat_eq (hx : Denotes x a) (ha : 0 ≤ a) (hsign : ¬IsMinusZero x) :
    ∃ m e, Binary64.ofFloat x = .finite false m e ∧ a = m * 2 ^ e := by
  have hread := Binary64.ofFloat_eq x
  obtain ⟨s, hu, rfl⟩ | ⟨s, m, e, hm, hu, rfl⟩ := rational?_cases hx
  · rw [hu] at hread
    cases s with
    | negative => exact absurd hu hsign
    | positive => exact ⟨0, _, hread, by rw [Nat.cast_zero, zero_mul]⟩
  · rw [hu] at hread
    cases s with
    | negative =>
        have hpos : 0 < (m : ℚ) * 2 ^ e := mul_pos (Nat.cast_pos.mpr hm) (two_zpow_pos e)
        rw [sign_negative, neg_one_mul] at ha
        exact absurd ha (not_le.mpr (neg_lt_zero.mpr hpos))
    | positive => exact ⟨m, e, hread, by rw [sign_positive, one_mul]⟩

/-! ### Whole numbers -/

theorem fraction_div (m : ℕ) (e : ℤ) :
    ((Binary64.fraction m e).1 : ℚ) / (Binary64.fraction m e).2 = m * 2 ^ e := by
  unfold Binary64.fraction
  split
  · next hpos =>
    obtain ⟨k, rfl⟩ := Int.eq_ofNat_of_zero_le hpos
    rw [Int.toNat_natCast, Nat.shiftLeft_eq, Nat.cast_one, div_one, zpow_natCast]
    push_cast
    rfl
  · next hneg =>
    obtain ⟨k, hk⟩ := Int.eq_ofNat_of_zero_le (show 0 ≤ -e by omega)
    obtain rfl : e = -k := by omega
    rw [neg_neg, Int.toNat_natCast, Nat.one_shiftLeft, zpow_neg, zpow_natCast]
    push_cast
    rfl

theorem roundHalfUp_eq_floor (n d : ℕ) (hd : 0 < d) : roundHalfUp n d = ⌊(n : ℚ) / d + 1 / 2⌋₊ := by
  have hdq : (0 : ℚ) < d := by exact_mod_cast hd
  have hvalue : (n : ℚ) / d + 1 / 2 = ((2 * n + d : ℕ) : ℚ) / ((2 * d : ℕ) : ℚ) := by
    push_cast
    field_simp
  rw [hvalue, Nat.floor_div_eq_div]
  rfl

theorem nearestNat_of_finite {negative : Bool} {m : ℕ} {e : ℤ} (h : Binary64.ofFloat x = .finite negative m e) :
    nearestNat x = if negative then 0 else min ⌊(m : ℚ) * 2 ^ e + 1 / 2⌋₊ wordMax := by
  unfold nearestNat
  rw [h]
  dsimp only
  rw [roundHalfUp_eq_floor _ _ (Binary64.fraction_snd_pos m e), fraction_div]

/-- The natural number nearest to a float is the one nearest to what it denotes, a half going up. -/
theorem Denotes.nearestNat_eq (hx : Denotes x a) : nearestNat x = min ⌊a + 1 / 2⌋₊ wordMax := by
  have hread := Binary64.ofFloat_eq x
  have hsmall {v : ℚ} (hv : v ≤ 0) : min ⌊v + 1 / 2⌋₊ wordMax = 0 := by
    have hfloor : ⌊v + 1 / 2⌋₊ = 0 := Nat.floor_eq_zero.mpr (by linarith)
    rw [hfloor, Nat.zero_min]
  obtain ⟨s, hu, rfl⟩ | ⟨s, m, e, hm, hu, rfl⟩ := rational?_cases hx
  · rw [hu] at hread
    rw [nearestNat_of_finite hread, hsmall le_rfl, Nat.cast_zero, zero_mul, hsmall le_rfl, ite_self]
  · rw [hu] at hread
    rw [nearestNat_of_finite hread]
    cases s with
    | negative =>
        have hneg : sign .negative * ((m : ℚ) * 2 ^ e) ≤ 0 := by
          have := two_zpow_pos e
          rw [sign_negative, neg_one_mul, neg_nonpos]
          positivity
        rw [hsmall hneg]
        rfl
    | positive =>
        rw [sign_positive, one_mul]
        rfl

end PolyExpression
