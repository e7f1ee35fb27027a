import PolyExpression.Proofs.Importing
import PolyExpression.Proofs.SettingsText

/-!
Settings that go from one engine to another as text. Main statement: of what an engine writes any other engine gets the
fractions back up to a millionth, and the integers, too, where a fraction is not too near to a half step; only a zero
with a minus sign is not read.
-/

namespace PolyExpression

open Float.Model Rounding

/-! ### Fractions that are not written -/

section Omitted

variable {a : ℚ}

theorem denotes_tolerance : Denotes Settings.tolerance (4722366482869645 / 2 ^ 72) := by
  show some (sign .positive * (((4722366482869645 : ℕ) : ℚ) * 2 ^ (-72 : ℤ))) = some _
  rw [sign_positive, one_mul, zpow_neg, ← div_eq_mul_inv]
  rfl

theorem initialRatio_spec (id : ParameterId) :
    id.range.initialRatio.toModel = (0.0 : Float).toModel ∨ 0.25 ≤ id.range.initialRatio := by
  have hall : ∀ id ∈ ParameterId.all,
      id.range.initialRatio.toModel = (0.0 : Float).toModel ∨ 0.25 ≤ id.range.initialRatio := by
    decide +kernel
  exact hall id (ParameterId.mem_all id)

/-- Whether a fraction is written depends on its rounded distance from the initial one. -/
theorem Settings.isOmitted_iff (published : Published) (id : ParameterId)
    (hfraction : Denotes (published.ratioOf id) a) (hlow : 0 ≤ a) (hhigh : a ≤ 1) :
    ∃ d c, Denotes id.range.initialRatio d ∧ |d - a| ≤ 1 ∧ Rounded (d - a) c
      ∧ (isOmitted published id = true ↔ |c| ≤ 4722366482869645 / 2 ^ 72) := by
  obtain ⟨d, hd, hdlow, hdhigh⟩ := Parameter.isFraction_ratioOf id.range id.range.initial
  have hunit : |d - a| ≤ 1 := abs_le.mpr ⟨by linarith, by linarith⟩
  have hsmall : |d - a| < 2 ^ (1023 : ℤ) := hunit.trans_lt (one_lt_zpow₀ one_lt_two (by norm_num))
  obtain ⟨c, hc, hrounded⟩ := Denotes.sub (x := id.range.initialRatio) hd hfraction hsmall
  refine ⟨d, c, hd, hunit, hrounded, ?_⟩
  rw [isOmitted, decide_eq_true_eq]
  exact hc.abs.le_iff denotes_tolerance

/-- A fraction that is not written is within a millionth of the initial one. -/
theorem Settings.near_of_isOmitted {published : Published} {id : ParameterId} (h : isOmitted published id = true)
    (hfraction : Denotes (published.ratioOf id) a) (hlow : 0 ≤ a) (hhigh : a ≤ 1) :
    ∃ d, Denotes id.range.initialRatio d ∧ |d - a| ≤ 1 / 10 ^ 6 := by
  obtain ⟨d, c, hd, hunit, hrounded, homitted⟩ := isOmitted_iff published id hfraction hlow hhigh
  have hle := homitted.mp h
  refine ⟨d, hd, ?_⟩
  have hzero : d = 0 ∨ 1 / 4 ≤ d ∧ |d - a| ≤ 1 / 8 := by
    rcases initialRatio_spec id with hinitial | hinitial
    · have hd0 : Denotes id.range.initialRatio 0 := by
        unfold Denotes
        rw [hinitial]
        rfl
      exact .inl (Denotes.unique hd hd0)
    · refine .inr ⟨(denotes_quarter.le_iff hd).mp hinitial, ?_⟩
      have herror := hrounded.near
      have hleast := least_le
      have htriangle := abs_sub_abs_le_abs_sub (d - a) c
      rw [abs_sub_comm (d - a) c] at htriangle
      generalize (2 : ℚ) ^ (-1075 : ℤ) = least at herror hleast
      linarith
  rw [← Denotes.sub_exact hrounded hd hfraction hzero]
  exact hle.trans (by norm_num)

/-- A fraction that is written is hardly nearer than a millionth to the initial one. -/
theorem Settings.far_of_isWritten {published : Published} {id : ParameterId} (h : isOmitted published id = false)
    (hfraction : Denotes (published.ratioOf id) a) (hlow : 0 ≤ a) (hhigh : a ≤ 1) :
    ∃ d, Denotes id.range.initialRatio d ∧ 1 / 10 ^ 6 - 1 / 10 ^ 15 ≤ |d - a| := by
  obtain ⟨d, c, hd, hunit, hrounded, homitted⟩ := isOmitted_iff published id hfraction hlow hhigh
  have hgt : 4722366482869645 / 2 ^ 72 < |c| := by
    refine not_le.mp fun hle => ?_
    rw [homitted.mpr hle] at h
    cases h
  refine ⟨d, hd, ?_⟩
  have herror := hrounded.near
  have hleast := least_le
  have htriangle := abs_sub_abs_le_abs_sub c (d - a)
  generalize (2 : ℚ) ^ (-1075 : ℤ) = least at herror hleast
  linarith

/-- What is read of a parameter is nothing, or a number very close to the parameter's fraction. -/
theorem Settings.readBack?_cases {published : Published} {id : ParameterId}
    (hfraction : Denotes (published.ratioOf id) a) (hlow : 0 ≤ a) (hhigh : a ≤ 1)
    (hsign : ¬IsMinusZero (published.ratioOf id)) :
    isOmitted published id = true ∧ readBack? published id = none
      ∨ ∃ y b, readBack? published id = some (id, y) ∧ Denotes y b ∧ |b - a| ≤ 7 / 10 ^ 16 := by
  unfold readBack?
  split
  · next homitted => exact .inl ⟨homitted, rfl⟩
  · obtain ⟨y, b, hread, hy, hnear, -, hchars⟩ := read?_numeral hfraction hlow hhigh hsign
    exact .inr ⟨_, _, known?_settingLine published id hread hchars, denotes_unitClamp hy,
      (abs_max_min_sub_le hlow hhigh).trans hnear⟩

theorem Settings.readBack?_of_isMinusZero {published : Published} {id : ParameterId}
    (hzero : IsMinusZero (published.ratioOf id)) : readBack? published id = none := by
  unfold readBack?
  split
  · rfl
  · exact known?_of_isMinusZero published id hzero

/-- From the line of a parameter nothing is read of another one. -/
theorem Settings.readBack?_fst {published : Published} {id : ParameterId}
    (hfraction : IsFraction (published.ratioOf id)) {entry : ParameterId × Float}
    (h : readBack? published id = some entry) : entry.1 = id := by
  by_cases hzero : IsMinusZero (published.ratioOf id)
  · rw [readBack?_of_isMinusZero hzero] at h
    cases h
  · obtain ⟨a, ha, hlow, hhigh⟩ := hfraction
    obtain ⟨-, hnone⟩ | ⟨y, b, hsome, -⟩ := readBack?_cases ha hlow hhigh hzero
    · rw [hnone] at h
      cases h
    · rw [hsome] at h
      cases h
      rfl

end Omitted

/-! ### Transfers -/

namespace Engine

variable {engine source target : Engine}

theorem lastSetting?_filterMap {f : ParameterId → Option (ParameterId × Float)}
    (hf : ∀ id entry, f id = some entry → entry.1 = id) (ids : List ParameterId) (id : ParameterId) :
    lastSetting? (ids.filterMap f) id = if id ∈ ids then (f id).map (·.2) else none := by
  induction ids using List.reverseRecOn with
  | nil => rfl
  | append_singleton ids other ih =>
      rw [List.filterMap_append]
      cases hother : f other with
      | none =>
          rw [List.filterMap_cons_none hother, List.filterMap_nil, List.append_nil, ih]
          by_cases hsame : id = other
          · subst hsame
            simp [hother]
          · simp [hsame]
      | some entry =>
          have hkey := hf other entry hother
          rw [List.filterMap_cons_some hother, List.filterMap_nil, lastSetting?_append_singleton, ih, hkey]
          by_cases hsame : id = other
          · subst hsame
            simp [hother]
          · simp [hsame, Ne.symm hsame]

/-- The parameter of an engine that has imported what another engine writes. -/
def transferred (target source : Engine) (id : ParameterId) : Parameter :=
  (target.importNow (Settings.write source.published)).2.parameters.get id

theorem transferred_eq (hsource : source.Faithful) (htarget : target.Faithful) (id : ParameterId) :
    target.transferred source id =
      .restored id.range ((Settings.readBack? source.published id).map (·.2)) := by
  have hfraction (id : ParameterId) : IsFraction (source.published.ratioOf id) := by
    rw [hsource.ratioOf]
    exact (hsource.isConsistent id).isFraction
  unfold transferred
  rw [get_importNow, htarget.range, Settings.read_write hfraction,
    lastSetting?_filterMap fun id _ hentry => Settings.readBack?_fst (hfraction id) hentry,
    if_pos (ParameterId.mem_all id)]

/-- A zero with a minus sign is written so that it is not read; the parameter gets its initial value. -/
theorem transferred_of_isMinusZero (hsource : source.Faithful) (htarget : target.Faithful) {id : ParameterId}
    (hzero : IsMinusZero (source.parameters.get id).ratio) :
    target.transferred source id = .ofRange id.range := by
  rw [← hsource.ratioOf] at hzero
  rw [transferred_eq hsource htarget, Settings.readBack?_of_isMinusZero hzero]
  rfl

theorem get_setParameter (h : engine.Faithful) (id : ParameterId) (ratio : Float) :
    (engine.perform (.apply (.setParameter id ratio))).parameters.get id = .restored id.range (some ratio) := by
  show (engine.apply (.setParameter id ratio)).parameters.get id = _
  rw [parameters_apply]
  show (engine.parameters.modify id (·.setRatio ratio)).get id = _
  rw [ParameterStore.get_modify, if_pos rfl, ← h.range id]
  rfl

/-- The engine in which one fraction was set. -/
def withFraction (id : ParameterId) (ratio : Float) : Engine := standard.run [.apply (.setParameter id ratio)]

theorem reachable_withFraction (id : ParameterId) (ratio : Float) : Reachable (withFraction id ratio) :=
  reachable_standard.run _

theorem get_withFraction (id : ParameterId) (ratio : Float) :
    (withFraction id ratio).parameters.get id = .restored id.range (some ratio) :=
  get_setParameter reachable_standard.faithful id ratio

/-- What an engine writes about its parameters comes back: every fraction up to a millionth, and every integer whose
fraction is not too near to a half step. -/
theorem transferred_spec (hsource : Reachable source) (htarget : Reachable target) (id : ParameterId) :
    (IsMinusZero (source.parameters.get id).ratio → target.transferred source id = .ofRange id.range)
      ∧ (¬IsMinusZero (source.parameters.get id).ratio → ∃ a b,
          Denotes (source.parameters.get id).ratio a ∧ Denotes (target.transferred source id).ratio b
            ∧ |b - a| ≤ 1 / 10 ^ 6
            ∧ ((∀ k : ℤ, 1 / 10 ^ 15 ≤ |a - (k + 1 / 2) / id.range.width|) →
                (target.transferred source id).value = (source.parameters.get id).value)) := by
  have hfaithful := hsource.faithful
  refine ⟨transferred_of_isMinusZero hfaithful htarget.faithful, fun hsign => ?_⟩
  obtain ⟨⟨a, ha, hlow, hhigh⟩, hvalue⟩ := hfaithful.isConsistent id
  rw [hfaithful.range] at hvalue
  have hpublished := ha
  rw [← hfaithful.ratioOf] at hpublished hsign
  obtain ⟨hpos, hwidth⟩ := id.width_range
  rw [transferred_eq hfaithful htarget.faithful, hvalue]
  obtain ⟨homitted, hnone⟩ | ⟨y, b, hsome, hy, hnear⟩ := Settings.readBack?_cases hpublished hlow hhigh hsign
  · obtain ⟨d, hd, hclose⟩ := Settings.near_of_isOmitted homitted hpublished hlow hhigh
    rw [hnone]
    refine ⟨a, d, ha, hd, hclose, fun _ => ?_⟩
    exact (Range.valueOf_of_close ha hlow hhigh hwidth id.range.low_le_initial id.range.initial_le_high hd hclose).symm
  · have hclamped : Denotes (unitClamp y) (max 0 (min b 1)) := denotes_unitClamp hy
    have hclose : |max 0 (min b 1) - a| ≤ 7 / 10 ^ 16 := (abs_max_min_sub_le hlow hhigh).trans hnear
    rw [hsome]
    refine ⟨a, _, ha, hclamped, hclose.trans (by norm_num), fun hapart => ?_⟩
    have hsame : id.range.valueOf (unitClamp y) = id.range.valueOf (source.parameters.get id).ratio :=
      Range.valueOf_congr ha hlow hhigh hclamped (le_max_left _ _) (max_le zero_le_one (min_le_right _ _)) hpos
        (width_lt id) fun k => by linarith [hapart k]
    exact hsame

/-- The way to treat notes in excess comes back. -/
theorem transferred_spec_excessNotes :
    Reachable (withFraction (.zone .excessNotes) 0.25) ∧ Reachable standard
    ∧ ((withFraction (.zone .excessNotes) 0.25).parameters.get (.zone .excessNotes)).value = 1
    ∧ (standard.transferred (withFraction (.zone .excessNotes) 0.25) (.zone .excessNotes)).value = 1 := by
  have hget := get_withFraction (.zone .excessNotes) 0.25
  have hratio : ((withFraction (.zone .excessNotes) 0.25).parameters.get (.zone .excessNotes)).ratio = 0.25 := by
    rw [hget]
    exact unitClamp_of_denotes denotes_quarter (by norm_num) (by norm_num)
  have hvalue : ((withFraction (.zone .excessNotes) 0.25).parameters.get (.zone .excessNotes)).value = 1 := by
    rw [hget]
    decide +kernel
  have hsource := reachable_withFraction (.zone .excessNotes) 0.25
  have hsign : ¬IsMinusZero ((withFraction (.zone .excessNotes) 0.25).parameters.get (.zone .excessNotes)).ratio := by
    rw [hratio]
    intro h
    cases h
  obtain ⟨a, b, ha, -, -, hsame⟩ := (transferred_spec hsource reachable_standard (.zone .excessNotes)).2 hsign
  rw [hratio] at ha
  obtain rfl := ha.unique denotes_quarter
  refine ⟨hsource, reachable_standard, hvalue, (hsame fun k => ?_).trans hvalue⟩
  have hwidth : ((ParameterId.zone .excessNotes).range.width : ℚ) = 4 := rfl
  have hodd : (1 : ℤ) ≤ |1 - 2 * k| := Int.one_le_abs (by omega)
  have hscale : (1 / 4 : ℚ) - (k + 1 / 2) / 4 = (1 - 2 * k : ℤ) / 8 := by
    push_cast
    ring
  have hodd' : (1 : ℚ) ≤ |((1 - 2 * k : ℤ) : ℚ)| := by exact_mod_cast hodd
  rw [hwidth, hscale, abs_div, abs_of_pos (by norm_num : (0 : ℚ) < 8)]
  exact le_trans (by norm_num) (div_le_div_of_nonneg_right hodd' (by norm_num))

/-! ### What is lost -/

/-- The second parameter is as the first one was, the fraction up to a millionth. -/
structure IsRestored (original imported : Parameter) : Prop where
  near : ∃ a b, Denotes original.ratio a ∧ Denotes imported.ratio b ∧ |b - a| ≤ 1 / 10 ^ 6
  value_eq : imported.value = original.value

/-- The lowest number of channels, set by a zero with a minus sign, comes back as the highest one. -/
theorem members_not_restored :
    ¬∀ source target : Engine, Reachable source → Reachable target → ∀ id,
      IsRestored (source.parameters.get id) (target.transferred source id) := by
  intro h
  have hget := get_withFraction (.zone .members) (-0.0)
  have hsource := reachable_withFraction (.zone .members) (-0.0)
  have hzero : IsMinusZero ((withFraction (.zone .members) (-0.0)).parameters.get (.zone .members)).ratio := by
    rw [hget]
    rfl
  have hvalue := (h _ _ hsource reachable_standard (.zone .members)).value_eq
  rw [transferred_of_isMinusZero hsource.faithful reachable_standard.faithful hzero, hget] at hvalue
  revert hvalue
  decide +kernel

/-- The largest float below a quarter. -/
def belowQuarter : Float := .ofBits 0x3FCFFFFFFFFFFFFF

set_option maxRecDepth 20000 in
theorem numeral_belowQuarter : Settings.numeral belowQuarter = ['0', '.', '2', '5', '0'] := by decide +kernel

theorem readBack?_belowQuarter {published : Published} {id : ParameterId}
    (hratio : published.ratioOf id = belowQuarter) (hwritten : Settings.isOmitted published id = false) :
    Settings.readBack? published id = some (id, unitClamp (OfScientific.ofScientific 250 true 3)) := by
  have hdigits : ('0' :: ['2', '5', '0']).all Decimal.isDigit = true := rfl
  have hread := Decimal.read?_eq (List.all_eq_true.mp hdigits)
  rw [← numeral_belowQuarter, ← hratio] at hread
  unfold Settings.readBack?
  rw [hwritten]
  refine Settings.known?_settingLine published id hread ?_
  rw [hratio, numeral_belowQuarter]
  exact List.all_eq_true.mp (show ['0', '.', '2', '5', '0'].all Decimal.isNumeralChar = true from rfl)

/-- Fifteen places do not tell a float just below a half step from the half step: the first rule's way to return
controllers comes back as another one. -/
theorem reset_not_restored :
    let id : ParameterId := .rule ⟨0, by decide⟩ .reset
    ((withFraction id belowQuarter).parameters.get id).value = 0
      ∧ (standard.transferred (withFraction id belowQuarter) id).value = 1 := by
  intro id
  have hget := get_withFraction id belowQuarter
  have hfaithful := (reachable_withFraction id belowQuarter).faithful
  have hratio : (withFraction id belowQuarter).published.ratioOf id = belowQuarter := by
    rw [hfaithful.ratioOf, hget]
    rfl
  have hwritten : Settings.isOmitted (withFraction id belowQuarter).published id = false := by
    unfold Settings.isOmitted
    rw [hratio]
    decide +kernel
  constructor
  · rw [hget]
    decide +kernel
  · rw [transferred_eq hfaithful reachable_standard.faithful, readBack?_belowQuarter hratio hwritten]
    decide +kernel

end Engine

end PolyExpression
