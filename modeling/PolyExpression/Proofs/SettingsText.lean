import PolyExpression.Proofs.Fractions
import PolyExpression.Proofs.Grammar
import PolyExpression.Proofs.NameLookup
import PolyExpression.Proofs.Sections

/-!
Settings written and read back. Lines that are written are found again one by one, each with the name of its parameter
and, unless it is that of a zero with a minus sign, with a number. Main statement: from a written text exactly these
settings are read.
-/

namespace PolyExpression

namespace Settings

variable (published : Published) (id : ParameterId)

/-! ### One line -/

/-- Whether a parameter's fraction is so close to the initial one that it is not written. -/
def isOmitted : Bool := (id.range.initialRatio - published.ratioOf id).abs ≤ tolerance

/-- The line of a parameter without its end. -/
def settingLine : List Char := id.name.toList ++ ' ' :: '=' :: ' ' :: numeral (published.ratioOf id)

theorem lineOf_eq : lineOf published id =
    if isOmitted published id then [] else settingLine published id ++ lineEnd := by
  unfold lineOf isOmitted
  dsimp only
  by_cases h : (id.range.initialRatio - published.ratioOf id).abs ≤ tolerance
  · rw [if_pos h, if_pos (decide_eq_true h)]
  · have hequals : " = ".toList = [' ', '=', ' '] := rfl
    rw [if_neg h, if_neg (by rw [decide_eq_false h]; exact Bool.false_ne_true), hequals, List.append_assoc _ [_, _, _]]
    rfl

/-- The line of a parameter gives a value to its name. -/
theorem isAssignment_settingLine :
    IsAssignment (settingLine published id) id.name.toList (' ' :: numeral (published.ratioOf id)) := by
  obtain ⟨hne, hshort, hchars, -, -⟩ := id.name_spec
  exact ⟨[], [' '], rfl, blanks_nil, blanks_space, fun c hc => isNameChar_iff.mp (hchars c hc),
    List.length_pos_of_ne_nil hne, Nat.le_of_lt_succ hshort⟩

theorem splitSetting?_settingLine :
    splitSetting? (settingLine published id) = some (id.name.toList, ' ' :: numeral (published.ratioOf id)) :=
  splitSetting?_eq_some_iff.mpr ⟨_, isAssignment_settingLine published id, id.name_spec.2.2.2.1.symm⟩

/-- What is read from the line of a fraction. -/
theorem known?_settingLine {y : Float} (hread : Decimal.read? (numeral (published.ratioOf id)) = some y)
    (hchars : ∀ c ∈ numeral (published.ratioOf id), Decimal.isNumeralChar c = true) :
    known? (settingLine published id) = some (id, unitClamp y) := by
  obtain ⟨whole, fraction, hnumeral, rfl⟩ := (Decimal.read?_eq_some_iff hchars).mp hread
  have hline : IsSetting (settingLine published id) id.name.toList whole fraction := by
    refine ⟨[' '], _, [], ?_, blanks_space, hnumeral, isTail_nil⟩
    rw [List.append_nil]
    exact isAssignment_settingLine published id
  have hsetting := setting?_eq_some_iff.mpr ⟨_, _, _, hline, id.name_spec.2.2.2.1.symm, rfl⟩
  unfold known?
  rw [hsetting]
  dsimp only
  rw [String.ofList_toList, id.name_spec.2.2.2.2]
  rfl

/-- Nothing is read from the line of a zero with a minus sign. -/
theorem known?_of_isMinusZero (hzero : IsMinusZero (published.ratioOf id)) :
    known? (settingLine published id) = none := by
  have hsetting : setting? (settingLine published id) = none := by
    unfold setting?
    rw [splitSetting?_settingLine, numeral_of_isMinusZero hzero]
    rfl
  unfold known?
  rw [hsetting]

/-- A line of a parameter starts with a letter or a digit. -/
theorem skipBlanks_settingLine :
    ∃ c rest, skipBlanks (settingLine published id) = c :: rest ∧ isNameChar c = true := by
  obtain ⟨hne, -, hchars, -, -⟩ := id.name_spec
  obtain ⟨c, cs, hname⟩ := List.exists_cons_of_ne_nil hne
  have hstart : skipBlanks ([] ++ settingLine published id) = settingLine published id :=
    skipBlanks_append blanks_nil (head?_name_append_eq_false (fun c hc => isNameChar_iff.mp (hchars c hc)) hne)
  refine ⟨c, cs ++ ' ' :: '=' :: ' ' :: numeral (published.ratioOf id), ?_, hchars c (hname ▸ List.mem_cons_self)⟩
  rw [List.nil_append] at hstart
  rw [hstart, settingLine, hname]
  rfl

theorem sectionHeader?_settingLine : sectionHeader? (settingLine published id) = none := by
  obtain ⟨c, rest, hstart, hc⟩ := skipBlanks_settingLine published id
  unfold sectionHeader?
  rw [hstart]
  split
  · next heq =>
    rw [(List.cons.inj heq).1] at hc
    cases hc
  · rfl

/-- A line of a parameter is no comment. -/
theorem isBlankOrComment_settingLine : isBlankOrComment (settingLine published id) = false := by
  obtain ⟨c, rest, hstart, hc⟩ := skipBlanks_settingLine published id
  unfold isBlankOrComment
  rw [hstart]
  refine beq_eq_false_iff_ne.mpr ?_
  rintro rfl
  cases hc

/-! ### The whole text -/

/-- The text of a fraction is short and stays on its line. -/
theorem numeral_spec {x : Float} (hx : IsFraction x) :
    (numeral x).length ≤ 17 ∧ ∀ c ∈ numeral x, Text.isLineBreak c = false := by
  by_cases hzero : IsMinusZero x
  · rw [numeral_of_isMinusZero hzero]
    exact ⟨by decide, Text.isLineBreak_eq_false_of_all rfl⟩
  · obtain ⟨a, ha, hlow, hhigh⟩ := hx
    obtain ⟨y, b, -, -, -, hlength, hchars⟩ := read?_numeral ha hlow hhigh hzero
    exact ⟨hlength, fun c hc => Text.isLineBreak_eq_false_of rfl rfl (hchars c hc)⟩

theorem lineEnd_append (rest : List Char) : lineEnd ++ rest = '\r' :: '\n' :: rest := rfl

variable {published id}

theorem isLine_settingLine (hfraction : IsFraction (published.ratioOf id)) :
    Text.IsLine lineMax (settingLine published id) := by
  obtain ⟨hne, hshort, hchars, -, -⟩ := id.name_spec
  obtain ⟨hlength, hplain⟩ := numeral_spec hfraction
  refine ⟨List.append_ne_nil_of_left_ne_nil hne _, ?_, (Text.byteLength_le_mul_length _).trans ?_⟩
  · intro c hc
    rcases List.mem_append.mp hc with hname | htail
    · exact Text.isLineBreak_eq_false_of rfl rfl (hchars c hname)
    · simp only [List.mem_cons] at htail
      rcases htail with rfl | rfl | rfl | hnumeral
      · rfl
      · rfl
      · rfl
      · exact hplain c hnumeral
  · have hmax : lineMax = 262143 := rfl
    have hlimit : nameLimit = 7 := rfl
    simp only [settingLine, List.length_append, List.length_cons]
    omega

/-- The lines that are written are found again. -/
theorem linesOf_flatMap (hfraction : ∀ id, IsFraction (published.ratioOf id)) (ids : List ParameterId) :
    linesOf (ids.flatMap (lineOf published)) =
      (ids.filter fun id => !isOmitted published id).map (settingLine published) := by
  induction ids with
  | nil => rfl
  | cons id ids ih =>
      rw [List.flatMap_cons, lineOf_eq]
      cases homitted : isOmitted published id with
      | true =>
          rw [if_pos rfl, List.nil_append, ih, List.filter_cons_of_neg (by simp [homitted])]
      | false =>
          rw [if_neg Bool.false_ne_true, List.filter_cons_of_pos (by simp [homitted]), List.map_cons, ← ih,
            List.append_assoc, lineEnd_append]
          exact Text.lines_append (isLine_settingLine (hfraction id)) _

/-- What is read of a parameter when the text that is written is read. -/
def readBack? (published : Published) (id : ParameterId) : Option (ParameterId × Float) :=
  if isOmitted published id then none else known? (settingLine published id)

/-- The header that is written is found again, and so is what is written behind it. -/
theorem linesOf_write (published : Published) :
    linesOf (write published) = header :: linesOf (ParameterId.all.flatMap (lineOf published)) := by
  rw [write, List.append_assoc, lineEnd_append]
  exact Text.lines_append isLine_header _

theorem filterMap_settingLine (published : Published) (ids : List ParameterId) :
    ((ids.filter fun id => !isOmitted published id).map (settingLine published)).filterMap known? =
      ids.filterMap (readBack? published) := by
  induction ids with
  | nil => rfl
  | cons id ids ih =>
      cases homitted : isOmitted published id with
      | true =>
          have hreadBack : readBack? published id = none := by rw [readBack?, homitted, if_pos rfl]
          rw [List.filter_cons_of_neg (by simp [homitted]), ih, List.filterMap_cons_none hreadBack]
      | false =>
          have hreadBack : readBack? published id = known? (settingLine published id) := by
            rw [readBack?, homitted, if_neg Bool.false_ne_true]
          rw [List.filter_cons_of_pos (by simp [homitted]), List.map_cons, List.filterMap_cons, List.filterMap_cons,
            hreadBack, ih]

/-- From a written text one reads what is read of every parameter's line, in the order of the parameters. -/
theorem read_write (hfraction : ∀ id, IsFraction (published.ratioOf id)) :
    read (write published) = ParameterId.all.filterMap (readBack? published) := by
  let lines := (ParameterId.all.filter fun id => !isOmitted published id).map (settingLine published)
  have hinner : ∀ body ∈ [lines], ∀ line ∈ body, isInner line = true := by
    intro body hbody line hline
    obtain rfl := List.mem_singleton.mp hbody
    obtain ⟨id, -, rfl⟩ := List.mem_map.mp hline
    rw [isInner, sectionHeader?_settingLine]
    rfl
  have hsections : sections (header :: lines) = [lines] := by
    have hwritten := sections_written [lines] hinner
    rwa [written, List.flatMap_singleton] at hwritten
  rw [read, linesOf_write, linesOf_flatMap hfraction, ofLines_eq_flatMap, hsections, List.flatMap_singleton,
    filterMap_settingLine]

end Settings

end PolyExpression
