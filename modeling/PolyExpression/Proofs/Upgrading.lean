import PolyExpression.Proofs.RoundTrip
import PolyExpression.Settings.Upgrade

/-!
Settings texts brought into the current form. The comments of a text come first, then the settings that it makes; so the
lines in front of the section are neither headers nor settings, and the lines of the section are no comments. Main
statement: an upgraded text has the comments of the text, one by one, and importing it gives every parameter the
fraction that importing the text gives it, up to a millionth.
-/

namespace PolyExpression

open Rounding

/-! ### Fractions that numerals stand for -/

/-- A fraction without a minus sign. -/
structure IsPlainFraction (x : Float) : Prop where
  isFraction : IsFraction x
  isUnsigned : IsUnsigned x.toModel.unpack

theorem IsReading.isPlainFraction {x : Float} {q : ℚ} (h : IsReading x q) : IsPlainFraction (unitClamp x) :=
  ⟨isFraction_unitClamp x, h.isUnsigned_unitClamp⟩

theorem IsPlainFraction.unitClamp_eq {x : Float} (h : IsPlainFraction x) : unitClamp x = x := by
  obtain ⟨a, ha, hlow, hhigh⟩ := h.isFraction
  exact unitClamp_of_denotes ha hlow hhigh

theorem isPlainFraction_initialRatio (id : ParameterId) : IsPlainFraction id.range.initialRatio := by
  refine ⟨Parameter.isFraction_ratioOf id.range id.range.initial, ?_⟩
  rcases initialRatio_spec id with hzero | hquarter
  · rw [hzero]
    rfl
  · obtain ⟨d, hd, -, -⟩ := Parameter.isFraction_ratioOf id.range id.range.initial
    have hle : 1 / 4 ≤ d := (denotes_quarter.le_iff hd).mp hquarter
    exact isUnsigned_of_pos hd (by linarith)

namespace Settings

variable {text line name : List Char} {id : ParameterId} {ratio : Float}

theorem isPlainFraction_of_setting? (h : setting? line = some (name, ratio)) : IsPlainFraction ratio := by
  obtain ⟨written, whole, fraction, ⟨_, _, _, _, _, hnumeral, _⟩, -, rfl⟩ := setting?_eq_some_iff.mp h
  exact hnumeral.isReading.isPlainFraction

theorem isPlainFraction_of_known? (h : known? line = some (id, ratio)) : IsPlainFraction ratio := by
  unfold known? at h
  split at h
  · cases h
  · next hsetting =>
    obtain ⟨found, -, heq⟩ := Option.map_eq_some_iff.mp h
    obtain ⟨-, rfl⟩ := Prod.mk.inj heq
    exact isPlainFraction_of_setting? hsetting

/-! ### What a text gives a parameter -/

/-- The fraction that importing a text gives a parameter. -/
def fractionOf (text : List Char) (id : ParameterId) : Float :=
  (Parameter.restored id.range (lastSetting? (read text) id)).ratio

theorem isPlainFraction_fractionOf (text : List Char) (id : ParameterId) : IsPlainFraction (fractionOf text id) := by
  unfold fractionOf
  cases hlast : lastSetting? (read text) id with
  | none => exact isPlainFraction_initialRatio id
  | some ratio =>
      rw [lastSetting?_eq_getLast?] at hlast
      obtain ⟨entry, hentry, heq⟩ := List.mem_filterMap.mp (List.mem_of_getLast? hlast)
      rw [read_eq_filterMap] at hentry
      obtain ⟨line, -, hknown⟩ := List.mem_filterMap.mp hentry
      split at heq
      · obtain rfl := Option.some.inj heq
        have hplain : IsPlainFraction entry.2 := isPlainFraction_of_known? hknown
        show IsPlainFraction (unitClamp entry.2)
        rwa [hplain.unitClamp_eq]
      · cases heq

end Settings

namespace Engine

variable {engine : Engine}

theorem ratio_importNow (hranges : ∀ id, (engine.parameters.get id).range = id.range) (text : List Char)
    (id : ParameterId) : ((engine.importNow text).2.parameters.get id).ratio = Settings.fractionOf text id := by
  rw [get_importNow, hranges]
  rfl

theorem ratioOf_importNow (hranges : ∀ id, (engine.parameters.get id).range = id.range) (text : List Char)
    (id : ParameterId) : (engine.importNow text).2.published.ratioOf id = Settings.fractionOf text id := by
  rw [engine.mirrored_importNow text id, ratio_importNow hranges]

end Engine

namespace Settings

variable {text : List Char} {id : ParameterId}

/-! ### The upgraded text -/

/-- What other threads see of a new engine once it has imported a text. -/
def imported (text : List Char) : Published := (Engine.standard.importNow text).2.published

def upgraded (text : List Char) : List Char := (comments text).flatMap (· ++ lineEnd) ++ write (imported text)

theorem upgrade_eq (text : List Char) : upgrade text = .ok (upgraded text) := by
  rw [upgrade, Engine.create_standard]
  rfl

theorem ratioOf_imported (text : List Char) (id : ParameterId) : (imported text).ratioOf id = fractionOf text id :=
  Engine.ratioOf_importNow (Engine.reachable_standard.range) text id

theorem isFraction_ratioOf_imported (text : List Char) (id : ParameterId) :
    IsFraction ((imported text).ratioOf id) := by
  rw [ratioOf_imported]
  exact (isPlainFraction_fractionOf text id).isFraction

theorem linesOf_upgraded (text : List Char) :
    linesOf (upgraded text) = comments text ++ linesOf (write (imported text)) := by
  have hlines : ∀ line ∈ comments text, Text.IsLine lineMax line := fun line hline =>
    Text.isLine_of_mem_lines (by decide) (List.mem_of_mem_filter hline)
  exact Text.lines_flatMap hlines _

/-- A comment opens no section. -/
theorem isSectionStart_of_isBlankOrComment {line : List Char} (h : isBlankOrComment line = true) :
    isSectionStart line = false := by
  have hnone : sectionHeader? line = none := sectionHeader?_of_ne fun hopen => by
    obtain ⟨rest, hrest⟩ := List.head?_eq_some_iff.mp hopen
    unfold isBlankOrComment at h
    rw [hrest] at h
    cases h
  rw [isSectionStart, hnone]
  rfl

theorem comments_write {published : Published} (hfraction : ∀ id, IsFraction (published.ratioOf id)) :
    comments (write published) = [] := by
  have hheader : isBlankOrComment header = false := rfl
  rw [comments, linesOf_write, linesOf_flatMap hfraction, List.filter_cons_of_neg (Bool.eq_false_iff.mp hheader),
    List.filter_eq_nil_iff]
  intro line hline
  obtain ⟨id, -, rfl⟩ := List.mem_map.mp hline
  exact Bool.eq_false_iff.mp (isBlankOrComment_settingLine published id)

theorem comments_upgraded (text : List Char) : comments (upgraded text) = comments text := by
  have hwrite := comments_write (isFraction_ratioOf_imported text)
  unfold comments at hwrite
  rw [comments, linesOf_upgraded, List.filter_append, hwrite, List.append_nil, comments, List.filter_filter]
  simp

theorem read_upgraded (text : List Char) : read (upgraded text) = read (write (imported text)) := by
  have hcomments : ∀ line ∈ comments text, isSectionStart line = false := fun line hline =>
    isSectionStart_of_isBlankOrComment (List.mem_filter.mp hline).2
  rw [read, read, linesOf_upgraded, ofLines_eq_flatMap, ofLines_eq_flatMap, sections_append hcomments]

theorem fractionOf_upgraded (text : List Char) (id : ParameterId) : fractionOf (upgraded text) id =
    (Parameter.restored id.range ((readBack? (imported text) id).map (·.2))).ratio := by
  have hfraction := isFraction_ratioOf_imported text
  rw [fractionOf, read_upgraded, read_write hfraction,
    Engine.lastSetting?_filterMap fun id _ hentry => readBack?_fst (hfraction id) hentry,
    if_pos (ParameterId.mem_all id)]

theorem fractionOf_upgraded_of_isOmitted (h : isOmitted (imported text) id = true) :
    fractionOf (upgraded text) id = id.range.initialRatio := by
  rw [fractionOf_upgraded, readBack?, if_pos h]
  rfl

/-- A fraction that is written comes back up to half a unit of the fifteenth place and some roundings. -/
theorem fractionOf_upgraded_of_isWritten_near (h : isOmitted (imported text) id = false) :
    ∃ a b, Denotes (fractionOf text id) a ∧ Denotes (fractionOf (upgraded text) id) b ∧ |b - a| ≤ 7 / 10 ^ 16 := by
  have hplain := isPlainFraction_fractionOf text id
  obtain ⟨a, ha, hlow, hhigh⟩ := hplain.isFraction
  have hsign := hplain.isUnsigned.not_isMinusZero
  rw [fractionOf_upgraded]
  rw [← ratioOf_imported] at ha hsign ⊢
  obtain ⟨homitted, -⟩ | ⟨y, b, hsome, hy, hnear⟩ := readBack?_cases ha hlow hhigh hsign
  · rw [homitted] at h
    cases h
  · have hclamped : Denotes (unitClamp y) (max 0 (min b 1)) := denotes_unitClamp hy
    rw [hsome]
    exact ⟨a, _, ha, hclamped, (abs_max_min_sub_le hlow hhigh).trans hnear⟩

/-- A fraction that is not written is near to the initial one, which is what comes back. -/
theorem fractionOf_upgraded_near (text : List Char) (id : ParameterId) :
    ∃ a b, Denotes (fractionOf text id) a ∧ Denotes (fractionOf (upgraded text) id) b ∧ |b - a| ≤ 1 / 10 ^ 6 := by
  cases homitted : isOmitted (imported text) id with
  | true =>
      obtain ⟨a, ha, hlow, hhigh⟩ := isFraction_ratioOf_imported text id
      obtain ⟨d, hd, hclose⟩ := near_of_isOmitted homitted ha hlow hhigh
      rw [fractionOf_upgraded_of_isOmitted homitted]
      rw [ratioOf_imported] at ha
      exact ⟨a, d, ha, hd, hclose⟩
  | false =>
      obtain ⟨a, b, ha, hb, hnear⟩ := fractionOf_upgraded_of_isWritten_near homitted
      exact ⟨a, b, ha, hb, hnear.trans (by norm_num)⟩

end Settings

namespace Engine

/-- The upgraded text has the comments of the text, in order, and whatever engines import the two texts, each parameter
gets the same fraction from both of them, up to a millionth. -/
theorem importNow_upgraded {engine other : Engine} (hengine : Reachable engine) (hother : Reachable other)
    (text : List Char) : ∃ after, Settings.upgrade text = .ok after
      ∧ Settings.comments after = Settings.comments text
      ∧ ∀ id, ∃ a b, Denotes ((engine.importNow text).2.parameters.get id).ratio a
        ∧ Denotes ((other.importNow after).2.parameters.get id).ratio b ∧ |b - a| ≤ 1 / 10 ^ 6 := by
  refine ⟨_, Settings.upgrade_eq text, Settings.comments_upgraded text, fun id => ?_⟩
  rw [ratio_importNow hengine.range, ratio_importNow hother.range]
  exact Settings.fractionOf_upgraded_near text id

/-- Comments inside the section and outside of it, a setting with a comment behind it and one outside of the section. -/
def annotated : List Char :=
  "; mine\n[mpeemulator]\nz1anc = .42 ; inside\r\n\t; also mine\n[other]\nZ1CHN = 0\n".toList

theorem importNow_upgraded_annotated : Reachable (standard.run leftover) ∧ Reachable standard
    ∧ ∃ after, Settings.upgrade annotated = .ok after
      ∧ Settings.comments after = ["; mine".toList, "\t; also mine".toList]
      ∧ ∀ id, ∃ a b, Denotes (((standard.run leftover).importNow annotated).2.parameters.get id).ratio a
        ∧ Denotes ((standard.importNow after).2.parameters.get id).ratio b ∧ |b - a| ≤ 1 / 10 ^ 6 := by
  have hengine := reachable_standard.run leftover
  obtain ⟨after, hupgrade, hcomments, hratio⟩ := importNow_upgraded hengine reachable_standard annotated
  have hlines : Settings.comments annotated = ["; mine".toList, "\t; also mine".toList] := by decide +kernel
  exact ⟨hengine, reachable_standard, after, hupgrade, hcomments.trans hlines, hratio⟩

end Engine

end PolyExpression
