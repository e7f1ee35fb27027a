import Mathlib.Data.List.TakeWhile
import PolyExpression.Proofs.Numerals
import PolyExpression.Settings.Text

/-!
Decimals written and read. A float between zero and one is written with fifteen decimal places, of which zeros at the
end are left out, and read back as the float nearest to what is written. Main statement: what is read differs from what
was written by at most half a unit of the fifteenth place and the rounding of the last quotient.
-/

namespace PolyExpression

open Rounding

namespace Decimal

/-! ### The value of digits -/

theorem value_ofNat (n : ℕ) : value (ofNat n) = n := Nat.ofDigitChars_ten_toDigits

theorem foldl_value (digits : List Char) (n : ℕ) :
    digits.foldl (fun n c => 10 * n + digitValue c) n = n * 10 ^ digits.length + value digits := by
  induction digits using List.reverseRecOn with
  | nil => rw [List.foldl_nil, value_nil, List.length_nil, pow_zero, mul_one, add_zero]
  | append_singleton digits c ih =>
      rw [List.foldl_append, ih, value_append_singleton, List.length_append, List.length_singleton, pow_succ,
        List.foldl_cons, List.foldl_nil]
      ring

theorem value_append (first second : List Char) :
    value (first ++ second) = value first * 10 ^ second.length + value second := by
  rw [value, List.foldl_append]
  exact foldl_value second (value first)

theorem value_zeros (k : ℕ) : value (List.replicate k '0') = 0 := by
  induction k with
  | zero => rfl
  | succ k ih =>
      rw [List.replicate_succ', value_append_singleton, ih]
      rfl

theorem value_zeros_append (k : ℕ) (digits : List Char) : value (List.replicate k '0' ++ digits) = value digits := by
  rw [value_append, value_zeros, zero_mul, zero_add]

theorem exists_eq_zeros_append (digits : List Char) :
    ∃ k, digits = List.replicate k '0' ++ digits.dropWhile (· == '0') := by
  have hzeros : ∀ c ∈ digits.takeWhile (· == '0'), c = '0' := fun c hc =>
    eq_of_beq (List.mem_takeWhile_imp (p := (· == '0')) hc)
  refine ⟨(digits.takeWhile (· == '0')).length, ?_⟩
  rw [← List.eq_replicate_of_mem hzeros, List.takeWhile_append_dropWhile]

/-- Zeros in front change nothing. -/
theorem value_dropWhile_append (whole fraction : List Char) :
    value (whole.dropWhile (· == '0') ++ fraction) = value (whole ++ fraction) := by
  obtain ⟨k, hk⟩ := exists_eq_zeros_append whole
  generalize whole.dropWhile (· == '0') = rest at hk ⊢
  rw [hk, List.append_assoc, value_zeros_append]

/-! ### Writing -/

theorem isDigit_of_mem_ofNat {n : ℕ} {c : Char} (hc : c ∈ ofNat n) : isDigit c = true := by
  have hdigit : c.isDigit = true := Nat.isDigit_of_mem_toDigits (by decide) (by decide) hc
  exact hdigit

theorem withPoint_eq {places : ℕ} (hplaces : places ≠ 0) {n : ℕ} (hn : n < 10 ^ (places + 1)) :
    ∃ d fraction, withPoint places n = d :: '.' :: fraction ∧ fraction.length = places
      ∧ (∀ c ∈ d :: fraction, isDigit c = true) ∧ value (d :: fraction) = n := by
  have hlength : (padded (places + 1) (ofNat n)).length = places + 1 := by
    have hle : (ofNat n).length ≤ places + 1 := (Nat.length_toDigits_le_iff (by decide) (by omega)).mpr hn
    rw [padded, List.length_append, List.length_replicate]
    omega
  have hvalue : value (padded (places + 1) (ofNat n)) = n := by
    rw [padded, value_zeros_append, value_ofNat]
  have hdigits : ∀ c ∈ padded (places + 1) (ofNat n), isDigit c = true := by
    intro c hc
    rcases List.mem_append.mp hc with hzero | hdigit
    · rw [List.eq_of_mem_replicate hzero]
      rfl
    · exact isDigit_of_mem_ofNat hdigit
  obtain ⟨d, fraction, hpadded⟩ := List.exists_cons_of_length_eq_add_one hlength
  rw [hpadded] at hlength hvalue hdigits
  refine ⟨d, fraction, ?_, by simpa using hlength, hdigits, hvalue⟩
  unfold withPoint
  rw [if_neg hplaces]
  dsimp only
  rw [hpadded, hlength, Nat.add_sub_cancel_left]
  rfl

theorem not_point_of_isDigit {c : Char} (hc : isDigit c = true) : c ≠ '.' := by
  rintro rfl
  exact Bool.false_ne_true hc

/-! ### Reading -/

/-- What is read of a whole digit, a point and digits. -/
theorem read?_eq {d : Char} {fraction : List Char} (hdigits : ∀ c ∈ d :: fraction, isDigit c = true) :
    read? (d :: '.' :: fraction) =
      some (OfScientific.ofScientific (value (d :: fraction)) true fraction.length) := by
  have hd : isDigit d = true := hdigits d List.mem_cons_self
  have hpoint : isDigit '.' = false := rfl
  have hwhole : (d :: '.' :: fraction).takeWhile isDigit = [d] := by
    rw [List.takeWhile_cons_of_pos hd, List.takeWhile_cons_of_neg (by rw [hpoint]; exact Bool.false_ne_true)]
  have hrest : (d :: '.' :: fraction).dropWhile isDigit = '.' :: fraction := by
    rw [List.dropWhile_cons_of_pos hd, List.dropWhile_cons_of_neg (by rw [hpoint]; exact Bool.false_ne_true)]
  have hall : fraction.all isDigit = true :=
    List.all_eq_true.mpr fun c hc => hdigits c (List.mem_cons_of_mem _ hc)
  have hshort : ([d].dropWhile (· == '0')).length ≤ wholeMax :=
    (List.length_dropWhile_le _ _).trans (show 1 ≤ 309 by decide)
  unfold read?
  rw [hwhole, hrest]
  dsimp only
  rw [hall, if_pos (by rfl)]
  unfold toFloat
  dsimp only
  rw [if_neg (by omega), value_dropWhile_append]
  rfl

/-- With that many digits and no zero in front a whole number is beyond every float. -/
theorem le_value_of_long {digits : List Char} (hdigits : ∀ c ∈ digits, isDigit c = true)
    (hlong : wholeMax < (digits.dropWhile (· == '0')).length) : 10 ^ wholeMax ≤ value digits := by
  obtain ⟨c, rest, hrest⟩ := List.exists_cons_of_length_pos (Nat.zero_lt_of_lt hlong)
  have hc : c ≠ '0' := by
    have hnot := List.head?_dropWhile_not (· == '0') digits
    rw [hrest] at hnot
    simpa using hnot
  have hdigit : isDigit c = true := hdigits c ((List.dropWhile_suffix _).subset (hrest ▸ List.mem_cons_self))
  have hpos : 1 ≤ value [c] := by
    obtain ⟨hlow, -⟩ := Bool.and_eq_true_iff.mp hdigit
    have hle : '0'.toNat ≤ c.toNat := of_decide_eq_true hlow
    have hne : c.toNat ≠ '0'.toNat := fun h => hc (Char.toNat_inj.mp h)
    show 1 ≤ 10 * 0 + (c.toNat - '0'.toNat)
    omega
  have hvalue := value_dropWhile_append digits []
  rw [List.append_nil, List.append_nil, hrest, ← List.singleton_append, value_append] at hvalue
  have hlength : wholeMax ≤ rest.length := by
    rw [hrest, List.length_cons] at hlong
    exact Nat.lt_succ_iff.mp hlong
  rw [← hvalue]
  calc 10 ^ wholeMax ≤ 10 ^ rest.length := Nat.pow_le_pow_right (by decide) hlength
    _ ≤ value [c] * 10 ^ rest.length := Nat.le_mul_of_pos_left _ hpos
    _ ≤ value [c] * 10 ^ rest.length + value rest := Nat.le_add_right _ _

/-- Digits in front of a point and behind it are read as the number that they stand for. -/
theorem isReading_toFloat {whole : List Char} (hwhole : ∀ c ∈ whole, isDigit c = true) (fraction : List Char) :
    IsReading (toFloat whole fraction) (value (whole ++ fraction) / (10 ^ fraction.length : ℕ)) := by
  unfold toFloat
  dsimp only
  split
  · next hlong =>
    have hlarge : 2 ^ 1023 ≤ value whole :=
      le_trans (show 2 ^ 1023 ≤ 10 ^ wholeMax by decide +kernel) (le_value_of_long hwhole hlong)
    refine ⟨rfl, .inr ⟨?_, rfl⟩⟩
    rw [le_div_iff₀ (powerOfTen_pos _), value_append]
    exact_mod_cast (Nat.mul_le_mul_right (10 ^ fraction.length) hlarge).trans (Nat.le_add_right _ _)
  · rw [value_dropWhile_append]
    exact isReading_ofScientific _ _

end Decimal

/-! ### Leaving out zeros -/

namespace Settings

open Decimal

/-- Of the digits behind the point some zeros at the end are left out, but not all digits. -/
theorem trimZeros_eq {d : Char} {fraction : List Char} (hdigits : ∀ c ∈ d :: fraction, isDigit c = true)
    (hne : fraction ≠ []) :
    ∃ kept k, trimZeros (d :: '.' :: fraction) = d :: '.' :: kept ∧ kept ≠ []
      ∧ fraction = kept ++ List.replicate k '0' := by
  have hd : d ≠ '.' := not_point_of_isDigit (hdigits d List.mem_cons_self)
  have hwhole : (d :: '.' :: fraction).takeWhile (· != '.') = [d] := by simp [hd]
  have hfraction : (d :: '.' :: fraction).dropWhile (· != '.') = '.' :: fraction := by simp [hd]
  obtain ⟨k, hk⟩ := exists_eq_zeros_append fraction.reverse
  obtain ⟨rest, hrest⟩ : ∃ rest : List Char, fraction.reverse.dropWhile (· == '0') = rest.reverse :=
    ⟨_, (List.reverse_reverse _).symm⟩
  have hsplit : fraction = rest ++ List.replicate k '0' := by
    rw [hrest] at hk
    rw [← List.reverse_reverse fraction, hk, List.reverse_append, List.reverse_reverse, List.reverse_replicate]
  have hkept : (('.' :: fraction).reverse.dropWhile (· == '0')).reverse = '.' :: rest := by
    rw [List.reverse_cons, List.dropWhile_append, hrest]
    split
    · next hempty =>
      have hnil : rest = [] := by simpa using hempty
      rw [hnil]
      rfl
    · simp
  unfold trimZeros
  rw [hwhole, hfraction]
  dsimp only
  rw [hkept]
  split
  · next hshort =>
    obtain ⟨j, rfl⟩ : ∃ j, k = j + 1 := by
      refine Nat.exists_eq_succ_of_ne_zero fun hzero => ?_
      rw [hsplit, hzero, List.replicate_zero, List.append_nil] at hshort
      exact lt_irrefl _ hshort
    refine ⟨rest ++ ['0'], j, ?_, List.concat_ne_nil _ _, ?_⟩
    · have htake : (rest ++ '0' :: List.replicate j '0').take (rest.length + 1) = rest ++ ['0'] := by
        rw [List.take_length_add_append]
        rfl
      rw [hsplit, List.replicate_succ, List.length_cons, List.take_succ_cons, htake]
      rfl
    · rw [hsplit, List.replicate_succ, List.append_assoc]
      rfl
  · next hlong =>
    refine ⟨fraction, 0, rfl, hne, ?_⟩
    simp

end Settings

/-! ### Writing and reading -/

theorem roundEven_near (n : ℕ) {d : ℕ} (hd : 0 < d) : |(roundEven n d : ℚ) - n / d| ≤ 1 / 2 := by
  have hdq : (0 : ℚ) < d := by exact_mod_cast hd
  have hsplit := natCast_div_eq n hd
  have hrest : ((n % d : ℕ) : ℚ) / d < 1 := (div_lt_one hdq).mpr (by exact_mod_cast Nat.mod_lt n hd)
  have hnonneg : 0 ≤ ((n % d : ℕ) : ℚ) / d := by positivity
  unfold roundEven
  dsimp only
  split
  · next hbelow =>
    have hhalf : ((n % d : ℕ) : ℚ) / d < 1 / 2 := by
      rw [div_lt_div_iff₀ hdq two_pos]
      have : (2 : ℚ) * ((n % d : ℕ) : ℚ) < d := by exact_mod_cast hbelow
      linarith
    rw [hsplit, abs_le]
    exact ⟨by linarith, by linarith⟩
  · next hnotbelow =>
    have hhalf : 1 / 2 ≤ ((n % d : ℕ) : ℚ) / d := by
      rw [div_le_div_iff₀ two_pos hdq]
      have : (d : ℚ) ≤ 2 * ((n % d : ℕ) : ℚ) := by exact_mod_cast not_lt.mp hnotbelow
      linarith
    split
    · rw [hsplit, abs_le]
      push_cast
      exact ⟨by linarith, by linarith⟩
    · next hnotabove =>
      have heq : ((n % d : ℕ) : ℚ) / d = 1 / 2 := by
        rw [div_eq_div_iff hdq.ne' two_ne_zero]
        have : 2 * (n % d) = d := by omega
        have : (2 : ℚ) * ((n % d : ℕ) : ℚ) = d := by exact_mod_cast this
        linarith
      have hparity : ((n / d % 2 : ℕ) : ℚ) ≤ 1 := by exact_mod_cast Nat.lt_succ_iff.mp (Nat.mod_lt _ two_pos)
      have hparity' : (0 : ℚ) ≤ ((n / d % 2 : ℕ) : ℚ) := Nat.cast_nonneg _
      rw [hsplit, heq, abs_le]
      push_cast at hparity hparity' ⊢
      exact ⟨by linarith, by linarith⟩

theorem scaledMagnitude_near (places m : ℕ) (e : ℤ) :
    |(Decimal.scaledMagnitude places m e : ℚ) - m * 2 ^ e * 10 ^ places| ≤ 1 / 2 := by
  have hround := roundEven_near ((Binary64.fraction m e).1 * 10 ^ places) (Binary64.fraction_snd_pos m e)
  have hvalue : (((Binary64.fraction m e).1 * 10 ^ places : ℕ) : ℚ) / (Binary64.fraction m e).2 =
      m * 2 ^ e * 10 ^ places := by
    rw [← fraction_div]
    push_cast
    ring
  rw [hvalue] at hround
  exact hround

namespace Settings

open Decimal

theorem numeral_of_isMinusZero {x : Float} (hx : IsMinusZero x) : numeral x = ['-', '0', '.', '0'] := by
  unfold numeral fixed
  rw [ofFloat_of_isMinusZero hx]
  decide +kernel

/-- A float that is not negative is written as the whole number of places that is nearest to it. -/
theorem numeral_eq_trimZeros {x : Float} {a : ℚ} (hx : Denotes x a) (hlow : 0 ≤ a) (hsign : ¬IsMinusZero x) :
    ∃ n : ℕ, numeral x = trimZeros (withPoint 15 n) ∧ |(n : ℚ) - a * 10 ^ 15| ≤ 1 / 2 := by
  obtain ⟨m, e, hread, rfl⟩ := hx.ofFloat_eq hlow hsign
  refine ⟨scaledMagnitude 15 m e, ?_, scaledMagnitude_near 15 m e⟩
  unfold numeral fixed
  rw [hread]
  exact congrArg trimZeros String.toList_ofList

/-- Places up to one are written as a digit, a point and at most fifteen digits, which stand for the same number. -/
theorem trimZeros_withPoint {n : ℕ} (hn : n ≤ 10 ^ 15) :
    ∃ d fraction, trimZeros (withPoint 15 n) = d :: '.' :: fraction ∧ (∀ c ∈ d :: fraction, isDigit c = true)
      ∧ fraction.length ≤ 15 ∧ (value (d :: fraction) : ℚ) / (10 ^ fraction.length : ℕ) = n / 10 ^ 15 := by
  obtain ⟨d, fraction, hpoint, hlength, hdigits, hvalue⟩ := withPoint_eq (by decide) (show n < 10 ^ (15 + 1) by omega)
  have hne : fraction ≠ [] := by
    rintro rfl
    cases hlength
  obtain ⟨kept, k, htrim, -, rfl⟩ := trimZeros_eq hdigits hne
  rw [List.length_append, List.length_replicate] at hlength
  -- What is written, without its point, is `n` with `k` zeros less.
  have hscale : value (d :: kept) * 10 ^ k = n := by
    rw [← hvalue, ← List.cons_append, value_append, value_zeros, List.length_replicate, add_zero]
  refine ⟨d, kept, by rw [hpoint, htrim], fun c hc => hdigits c (List.mem_append_left _ hc), by omega, ?_⟩
  rw [← hscale, ← hlength, pow_add]
  push_cast
  field_simp

/-- What is written of a float between zero and one is read as the float nearest to the places that it has. -/
theorem numeral_places {x : Float} {a : ℚ} (hx : Denotes x a) (hlow : 0 ≤ a) (hhigh : a ≤ 1)
    (hsign : ¬IsMinusZero x) :
    ∃ (n : ℕ) (y : Float), numeral x = trimZeros (withPoint 15 n) ∧ |(n : ℚ) - a * 10 ^ 15| ≤ 1 / 2 ∧ n ≤ 10 ^ 15
      ∧ read? (numeral x) = some y ∧ IsReading y (n / 10 ^ 15) ∧ (numeral x).length ≤ 17
      ∧ ∀ c ∈ numeral x, isNumeralChar c = true := by
  obtain ⟨n, htext, hnear⟩ := numeral_eq_trimZeros hx hlow hsign
  have hn : n ≤ 10 ^ 15 := by
    have hlt : (n : ℚ) < ((10 ^ 15 + 1 : ℕ) : ℚ) := by
      push_cast
      linarith [(abs_le.mp hnear).2]
    exact Nat.lt_succ_iff.mp (by exact_mod_cast hlt)
  obtain ⟨d, fraction, hpoint, hdigits, hplaces, hquotient⟩ := trimZeros_withPoint hn
  have hreading := isReading_ofScientific (value (d :: fraction)) fraction.length
  rw [hquotient] at hreading
  rw [hpoint] at htext
  refine ⟨n, _, htext.trans hpoint.symm, hnear, hn, htext ▸ read?_eq hdigits, hreading, ?_, ?_⟩
  · rw [htext, List.length_cons, List.length_cons]
    omega
  · rw [htext]
    intro c hc
    rcases List.mem_cons.mp hc with rfl | hc
    · simp [isNumeralChar, hdigits c List.mem_cons_self]
    · rcases List.mem_cons.mp hc with rfl | hc
      · rfl
      · simp [isNumeralChar, hdigits c (List.mem_cons_of_mem _ hc)]

/-- What is read of places up to one is off by less than a quarter of a place. -/
theorem near_of_isReading {y : Float} {n : ℕ} (hn : n ≤ 10 ^ 15) (hy : IsReading y (n / 10 ^ 15)) :
    ∃ b, Denotes y b ∧ |b - n / 10 ^ 15| ≤ 2 / 10 ^ 16 := by
  have hunit : (n : ℚ) / 10 ^ 15 ≤ 1 := by
    rw [div_le_one (by positivity)]
    exact_mod_cast hn
  have hnonneg : 0 ≤ (n : ℚ) / 10 ^ 15 := by positivity
  obtain ⟨b, hb, hrounded⟩ := hy.denotes (hunit.trans_lt (one_lt_zpow₀ one_lt_two (by norm_num)))
  refine ⟨b, hb, ?_⟩
  have herror := hrounded.near
  have hleast := least_le
  rw [abs_of_nonneg hnonneg] at herror
  generalize (2 : ℚ) ^ (-1075 : ℤ) = least at herror hleast
  linarith

/-- From the numeral of a float between zero and one almost the same float is read. -/
theorem read?_numeral {x : Float} {a : ℚ} (hx : Denotes x a) (hlow : 0 ≤ a) (hhigh : a ≤ 1) (hsign : ¬IsMinusZero x) :
    ∃ y b, read? (numeral x) = some y ∧ Denotes y b ∧ |b - a| ≤ 7 / 10 ^ 16 ∧ (numeral x).length ≤ 17
      ∧ ∀ c ∈ numeral x, isNumeralChar c = true := by
  obtain ⟨n, y, -, hnear, hn, hread, hreading, hlength, hchars⟩ := numeral_places hx hlow hhigh hsign
  obtain ⟨b, hb, herror⟩ := near_of_isReading hn hreading
  refine ⟨y, b, hread, hb, ?_, hlength, hchars⟩
  have hplaces : |(n : ℚ) / 10 ^ 15 - a| ≤ 1 / 2 / 10 ^ 15 := by
    obtain ⟨hbelow, habove⟩ := abs_le.mp hnear
    exact abs_le.mpr ⟨by linarith, by linarith⟩
  have htriangle := abs_sub_le b (n / 10 ^ 15 : ℚ) a
  linarith

end Settings

end PolyExpression
