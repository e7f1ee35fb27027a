import PolyExpression.Proofs.Upgrading

/-!
Upgrades of upgraded texts. A numeral that is read and written again stays as it is; but what is read of it may be so
near to the initial fraction that it is not written again. Main statement: an upgraded text is changed by another
upgrade just if that happens to some parameter, and by a third one in no case.
-/

namespace PolyExpression

open Rounding

namespace Settings

open Decimal

/-! ### Numerals that are written again -/

/-- What is read of a numeral is written as the same numeral. -/
theorem numeral_of_read?_numeral {x : Float} (hx : IsPlainFraction x) :
    ∃ y, read? (numeral x) = some y ∧ (∀ c ∈ numeral x, isNumeralChar c = true)
      ∧ IsPlainFraction (unitClamp y) ∧ numeral (unitClamp y) = numeral x := by
  obtain ⟨a, ha, hlow, hhigh⟩ := hx.isFraction
  obtain ⟨n, y, htext, -, hn, hread, hreading, -, hchars⟩ :=
    numeral_places ha hlow hhigh hx.isUnsigned.not_isMinusZero
  refine ⟨y, hread, hchars, hreading.isPlainFraction, ?_⟩
  obtain ⟨b, hb, hnear⟩ := near_of_isReading hn hreading
  have hunit : (n : ℚ) / 10 ^ 15 ≤ 1 := by
    rw [div_le_one (by positivity)]
    exact_mod_cast hn
  have hclamped := (abs_max_min_sub_le (c := b) (by positivity) hunit).trans hnear
  obtain ⟨k, hagain, hplaces⟩ := numeral_eq_trimZeros (denotes_unitClamp hb) (le_max_left _ _)
    hreading.isPlainFraction.isUnsigned.not_isMinusZero
  -- Both numbers of places are nearest to what was read, so they are the same.
  have hsame : |(k : ℚ) - n| < 1 := by
    generalize max 0 (min b 1) = c at hclamped hplaces
    have hscaled : |c * 10 ^ 15 - n| ≤ 2 / 10 := by
      obtain ⟨hbelow, habove⟩ := abs_le.mp hclamped
      exact abs_le.mpr ⟨by linarith, by linarith⟩
    calc |(k : ℚ) - n| ≤ |k - c * 10 ^ 15| + |c * 10 ^ 15 - n| := abs_sub_le _ _ _
      _ ≤ 1 / 2 + 2 / 10 := add_le_add hplaces hscaled
      _ < 1 := by norm_num
  have hkn : |(k : ℤ) - n| < 1 := by exact_mod_cast hsame
  obtain rfl : k = n := by
    have := Int.abs_lt_one_iff.mp hkn
    omega
  rw [hagain, htext]

/-! ### Parameters that are written again -/

section Published

variable {published after : Published} {id : ParameterId}

/-- A parameter at its initial value is not written. -/
theorem isOmitted_of_initialRatio (h : published.ratioOf id = id.range.initialRatio) :
    isOmitted published id = true := by
  obtain ⟨a, ha, hlow, hhigh⟩ := Parameter.isFraction_ratioOf id.range id.range.initial
  have hratio : Denotes (published.ratioOf id) a := by
    rw [h]
    exact ha
  obtain ⟨d, c, hd, -, hrounded, homitted⟩ := isOmitted_iff published id hratio hlow hhigh
  obtain rfl := hd.unique ha
  rw [sub_self] at hrounded
  have hexact := hrounded.eq_of_fits 0 0 (by norm_num) (by norm_num) (by rw [abs_zero]; exact two_zpow_pos _)
  rw [homitted, hexact, abs_zero]
  positivity

theorem isOmitted_congr (h : after.ratioOf id = published.ratioOf id) :
    isOmitted after id = isOmitted published id := by
  rw [isOmitted, isOmitted, h]

/-- A parameter's line is told by whether it is written, and by its numeral. -/
theorem lineOf_congr (homitted : isOmitted after id = isOmitted published id)
    (hnumeral : isOmitted published id = false → numeral (after.ratioOf id) = numeral (published.ratioOf id)) :
    lineOf after id = lineOf published id := by
  rw [lineOf_eq, lineOf_eq, homitted]
  cases hwritten : isOmitted published id with
  | true => rfl
  | false => rw [settingLine, settingLine, hnumeral hwritten]

end Published

section Text

variable {text : List Char} {id : ParameterId}

theorem isOmitted_upgraded (h : isOmitted (imported text) id = true) :
    isOmitted (imported (upgraded text)) id = true := by
  refine isOmitted_of_initialRatio ?_
  rw [ratioOf_imported, fractionOf_upgraded_of_isOmitted h]

/-- What is written again was written before. -/
theorem isOmitted_of_upgraded (h : isOmitted (imported (upgraded text)) id = false) :
    isOmitted (imported text) id = false := by
  refine Bool.eq_false_iff.mpr fun homitted => ?_
  rw [isOmitted_upgraded homitted] at h
  cases h

/-- The fraction that a parameter gets from an upgraded text in which it is written. -/
theorem fractionOf_upgraded_of_isWritten (h : isOmitted (imported text) id = false) :
    ∃ y, read? (numeral (fractionOf text id)) = some y ∧ fractionOf (upgraded text) id = unitClamp y
      ∧ numeral (unitClamp y) = numeral (fractionOf text id) := by
  obtain ⟨y, hread, hchars, hplain, hnumeral⟩ := numeral_of_read?_numeral (isPlainFraction_fractionOf text id)
  refine ⟨y, hread, ?_, hnumeral⟩
  rw [← ratioOf_imported] at hread hchars
  have hknown := known?_settingLine (imported text) id hread hchars
  rw [fractionOf_upgraded, readBack?, h, if_neg Bool.false_ne_true, hknown]
  exact hplain.unitClamp_eq

/-- A parameter that is written again, or not written either time, has the same line. -/
theorem lineOf_upgraded (h : isOmitted (imported (upgraded text)) id = isOmitted (imported text) id) :
    lineOf (imported (upgraded text)) id = lineOf (imported text) id := by
  refine lineOf_congr h fun hwritten => ?_
  obtain ⟨y, -, hratio, hnumeral⟩ := fractionOf_upgraded_of_isWritten hwritten
  rw [ratioOf_imported, ratioOf_imported, hratio, hnumeral]

/-- What is written twice has the same fraction from then on. -/
theorem fractionOf_upgraded_upgraded (hfirst : isOmitted (imported text) id = false)
    (hsecond : isOmitted (imported (upgraded text)) id = false) :
    fractionOf (upgraded (upgraded text)) id = fractionOf (upgraded text) id := by
  obtain ⟨y, hread, hratio, hnumeral⟩ := fractionOf_upgraded_of_isWritten hfirst
  obtain ⟨z, hread', hratio', -⟩ := fractionOf_upgraded_of_isWritten hsecond
  rw [hratio, hnumeral, hread] at hread'
  rw [hratio, hratio', Option.some.inj hread']

theorem isOmitted_upgraded_upgraded (text : List Char) (id : ParameterId) :
    isOmitted (imported (upgraded (upgraded text))) id = isOmitted (imported (upgraded text)) id := by
  cases hsecond : isOmitted (imported (upgraded text)) id with
  | true => exact isOmitted_upgraded hsecond
  | false =>
      have hfirst := isOmitted_of_upgraded hsecond
      rw [← hsecond]
      refine isOmitted_congr ?_
      rw [ratioOf_imported, ratioOf_imported, fractionOf_upgraded_upgraded hfirst hsecond]

/-! ### Texts that are upgraded again -/

theorem linesOf_upgraded_eq (text : List Char) : linesOf (upgraded text) = comments text ++ header ::
    (ParameterId.all.filter fun id => !isOmitted (imported text) id).map (settingLine (imported text)) := by
  rw [linesOf_upgraded, linesOf_write, linesOf_flatMap (isFraction_ratioOf_imported text)]

/-- A second upgrade changes a text just if it leaves out a parameter that the first one has written. -/
theorem upgraded_upgraded_eq_iff (text : List Char) : upgraded (upgraded text) = upgraded text ↔
    ∀ id, isOmitted (imported (upgraded text)) id = isOmitted (imported text) id := by
  constructor
  · intro hsame id
    have hlines := congrArg linesOf hsame
    rw [linesOf_upgraded_eq, linesOf_upgraded_eq, comments_upgraded] at hlines
    have hlength := congrArg List.length (List.cons.inj (List.append_cancel_left hlines)).2
    rw [List.length_map, List.length_map] at hlength
    have hsublist : (ParameterId.all.filter fun id => !isOmitted (imported (upgraded text)) id).Sublist
        (ParameterId.all.filter fun id => !isOmitted (imported text) id) :=
      List.monotone_filter_right _ fun id hwritten => by
        rw [Bool.not_eq_true'] at hwritten ⊢
        exact isOmitted_of_upgraded hwritten
    have hfilter := hsublist.eq_of_length hlength
    have hmem := congrArg (id ∈ ·) hfilter
    simp only [List.mem_filter, ParameterId.mem_all, true_and, Bool.not_eq_true', eq_iff_iff] at hmem
    exact Bool.eq_iff_iff.mpr (by simpa using not_congr hmem)
  · intro hsame
    have hline (id : ParameterId) : lineOf (imported (upgraded text)) id = lineOf (imported text) id :=
      lineOf_upgraded (hsame id)
    rw [upgraded, comments_upgraded, write, funext hline]
    rfl

/-- A parameter that is written, but not written again, has a fraction about a millionth from its initial one. -/
theorem near_tolerance (hfirst : isOmitted (imported text) id = false)
    (hsecond : isOmitted (imported (upgraded text)) id = true) :
    ∃ a d, Denotes (fractionOf text id) a ∧ Denotes id.range.initialRatio d
      ∧ |(|a - d| - 1 / 10 ^ 6)| ≤ 1 / 10 ^ 15 := by
  obtain ⟨a, ha, hlow, hhigh⟩ := isFraction_ratioOf_imported text id
  obtain ⟨b, hb, hlow', hhigh'⟩ := isFraction_ratioOf_imported (upgraded text) id
  obtain ⟨d, hd, hfar⟩ := far_of_isWritten hfirst ha hlow hhigh
  obtain ⟨d', hd', hnear⟩ := near_of_isOmitted hsecond hb hlow' hhigh'
  obtain ⟨a', b', ha', hb', hclose⟩ := fractionOf_upgraded_of_isWritten_near hfirst
  rw [ratioOf_imported] at ha hb
  obtain rfl := ha.unique ha'
  obtain rfl := hb.unique hb'
  obtain rfl := hd.unique hd'
  refine ⟨a, d, ha, hd, abs_le.mpr ⟨?_, ?_⟩⟩
  · rw [abs_sub_comm a d]
    linarith
  · have htriangle := abs_sub_le a b d
    rw [abs_sub_comm a b, abs_sub_comm b d] at htriangle
    linarith

/-- An upgraded text stays as it is in another upgrade just if all parameters that it has are written again; only
those may not be whose fractions are about a millionth from the initial ones. After two upgrades nothing changes. -/
theorem upgrade_settles (text : List Char) : ∃ once twice, upgrade text = .ok once ∧ upgrade once = .ok twice
    ∧ (twice = once ↔ ∀ id, isOmitted (imported once) id = isOmitted (imported text) id)
    ∧ (∀ id, isOmitted (imported once) id = isOmitted (imported text) id
      ∨ ∃ a d, Denotes (fractionOf text id) a ∧ Denotes id.range.initialRatio d
        ∧ |(|a - d| - 1 / 10 ^ 6)| ≤ 1 / 10 ^ 15)
    ∧ upgrade twice = .ok twice := by
  refine ⟨upgraded text, upgraded (upgraded text), upgrade_eq _, upgrade_eq _, upgraded_upgraded_eq_iff text,
    fun id => ?_, ?_⟩
  · cases hfirst : isOmitted (imported text) id with
    | true => exact .inl (isOmitted_upgraded hfirst)
    | false =>
        cases hsecond : isOmitted (imported (upgraded text)) id with
        | true => exact .inr (near_tolerance hfirst hsecond)
        | false => exact .inl rfl
  · rw [upgrade_eq, (upgraded_upgraded_eq_iff (upgraded text)).mpr (isOmitted_upgraded_upgraded text)]

end Text

/-! ### What is forgotten -/

/-- The fraction is just beyond the tolerance, and its numeral just inside. -/
def borderline : List Char := "[mpeemulator]\r\nZ1SUS = 0.0000010000000000001\r\n".toList

/-- The first upgrade writes the setting as `0.0000010`, the second one leaves it out. -/
theorem borderline_forgotten : ¬∃ once, upgrade borderline = .ok once ∧ upgrade once = .ok once := by
  rintro ⟨once, hfirst, hsecond⟩
  rw [upgrade_eq, Except.ok.injEq] at hfirst
  subst hfirst
  rw [upgrade_eq, Except.ok.injEq] at hsecond
  have hsame := (upgraded_upgraded_eq_iff borderline).mp hsecond (.zone .holdOnSustain)
  have hwritten : isOmitted (imported borderline) (.zone .holdOnSustain) = false := by
    rw [isOmitted, ratioOf_imported]
    decide +kernel
  obtain ⟨y, hread, hratio, -⟩ := fractionOf_upgraded_of_isWritten hwritten
  have hnumeral : numeral (fractionOf borderline (.zone .holdOnSustain)) = '0' :: '.' :: "0000010".toList := by
    decide +kernel
  rw [hnumeral, read?_eq (List.all_eq_true.mp (by rfl)), Option.some.injEq] at hread
  have homitted : isOmitted (imported (upgraded borderline)) (.zone .holdOnSustain) = true := by
    rw [isOmitted, ratioOf_imported, hratio, ← hread]
    decide +kernel
  rw [hwritten, homitted] at hsame
  cases hsame

end Settings

end PolyExpression
