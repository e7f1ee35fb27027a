import PolyExpression.Proofs.Decimals

/-!
The grammar of the lines of settings. It says what a line looks like without saying how it is read. Main statements: a
line is read as a header, as an assignment or as a setting exactly if it looks like one, and the fraction of a setting
is the float nearest to its number.
-/

namespace PolyExpression

/-! ### Texts that are split by a test -/

section Span

variable {α : Type} {p : α → Bool} {front rest : List α}

/-- A text whose front passes a test, up to an item that does not, is split there. -/
theorem takeWhile_append_of_stops (hfront : ∀ c ∈ front, p c = true) (hrest : ∀ c ∈ rest.head?, p c = false) :
    (front ++ rest).takeWhile p = front ∧ (front ++ rest).dropWhile p = rest := by
  rw [List.takeWhile_append_of_pos hfront, List.dropWhile_append_of_pos hfront]
  cases rest with
  | nil => exact ⟨List.append_nil front, rfl⟩
  | cons c rest =>
      have hc : ¬p c = true := Bool.eq_false_iff.mp (hrest c rfl)
      rw [List.takeWhile_cons_of_neg hc, List.dropWhile_cons_of_neg hc, List.append_nil]
      exact ⟨rfl, rfl⟩

theorem head?_dropWhile_eq_false (text : List α) : ∀ c ∈ (text.dropWhile p).head?, p c = false := by
  intro c hc
  have hnot := List.head?_dropWhile_not p text
  rw [Option.mem_def.mp hc] at hnot
  simpa using hnot

end Span

/-! ### Numerals -/

namespace Decimal

/-- ASCII digits with at most one point among them and at least one digit: the digits in front of the point and the ones
behind it. -/
structure IsNumeral (numeral whole fraction : List Char) : Prop where
  shape : numeral = whole ∧ fraction = [] ∨ numeral = whole ++ '.' :: fraction
  ne_nil : whole ≠ [] ∨ fraction ≠ []
  digits : ∀ c ∈ whole ++ fraction, '0' ≤ c ∧ c ≤ '9'

variable {numeral whole fraction : List Char}

theorem isDigit_iff {c : Char} : isDigit c = true ↔ '0' ≤ c ∧ c ≤ '9' := by
  rw [isDigit, Bool.and_eq_true, decide_eq_true_eq, decide_eq_true_eq]

namespace IsNumeral

theorem isDigit_whole (h : IsNumeral numeral whole fraction) : ∀ c ∈ whole, isDigit c = true :=
  fun c hc => isDigit_iff.mpr (h.digits c (List.mem_append_left _ hc))

theorem isDigit_fraction (h : IsNumeral numeral whole fraction) : ∀ c ∈ fraction, isDigit c = true :=
  fun c hc => isDigit_iff.mpr (h.digits c (List.mem_append_right _ hc))

theorem isNumeralChar (h : IsNumeral numeral whole fraction) : ∀ c ∈ numeral, isNumeralChar c = true := by
  intro c hc
  have hdigit : c ∈ whole ∨ c ∈ fraction → Decimal.isNumeralChar c = true := by
    rintro (hwhole | hfraction)
    · exact Bool.or_eq_true_iff.mpr (.inl (h.isDigit_whole c hwhole))
    · exact Bool.or_eq_true_iff.mpr (.inl (h.isDigit_fraction c hfraction))
  obtain ⟨rfl, -⟩ | rfl := h.shape
  · exact hdigit (.inl hc)
  · rcases List.mem_append.mp hc with hwhole | htail
    · exact hdigit (.inl hwhole)
    · rcases List.mem_cons.mp htail with rfl | hfraction
      · rfl
      · exact hdigit (.inr hfraction)

theorem numeral_ne_nil (h : IsNumeral numeral whole fraction) : numeral ≠ [] := by
  obtain ⟨rfl, rfl⟩ | rfl := h.shape
  · exact h.ne_nil.resolve_right fun hne => hne rfl
  · exact List.append_ne_nil_of_right_ne_nil _ (List.cons_ne_nil _ _)

end IsNumeral

/-- A text of digits and points is read if it is a numeral. -/
theorem read?_eq_some_iff (hchars : ∀ c ∈ numeral, isNumeralChar c = true) {x : Float} :
    read? numeral = some x ↔ ∃ whole fraction, IsNumeral numeral whole fraction ∧ x = toFloat whole fraction := by
  have hpoint : isDigit '.' = false := rfl
  constructor
  · intro hread
    have hdigits : ∀ c ∈ numeral.takeWhile isDigit, isDigit c = true := fun c hc => List.mem_takeWhile_imp hc
    have hstops := head?_dropWhile_eq_false (p := isDigit) numeral
    have hsplit := List.takeWhile_append_dropWhile (p := isDigit) (l := numeral)
    unfold read? at hread
    dsimp only at hread
    generalize numeral.takeWhile isDigit = whole at hread hdigits hsplit
    generalize numeral.dropWhile isDigit = rest at hread hstops hsplit
    cases rest with
    | nil =>
        rw [List.append_nil] at hsplit
        dsimp only at hread
        split at hread
        · cases hread
        · next hne =>
          obtain rfl := Option.some.inj hread
          refine ⟨whole, [], ⟨.inl ⟨hsplit.symm, rfl⟩, .inl (by simpa using hne), fun c hc => ?_⟩, rfl⟩
          rw [List.append_nil] at hc
          exact isDigit_iff.mp (hdigits c hc)
    | cons point fraction =>
        -- What is no digit in a numeral is the point.
        have hin : isNumeralChar point = true := hchars point (hsplit ▸ List.mem_append_right _ List.mem_cons_self)
        have hpoint : point = '.' := by
          rw [isNumeralChar, hstops point rfl, Bool.false_or] at hin
          exact eq_of_beq hin
        dsimp only at hread
        split at hread
        · next hgood =>
          obtain rfl := Option.some.inj hread
          obtain ⟨hall, hne⟩ := Bool.and_eq_true_iff.mp hgood
          refine ⟨whole, fraction, ⟨.inr (by rw [← hsplit, hpoint]), ?_, fun c hc => ?_⟩, rfl⟩
          · simpa [Decidable.or_iff_not_imp_left] using hne
          rcases List.mem_append.mp hc with hwhole | hfraction
          · exact isDigit_iff.mp (hdigits c hwhole)
          · exact isDigit_iff.mp (List.all_eq_true.mp hall c hfraction)
        · cases hread
  · rintro ⟨whole, fraction, h, rfl⟩
    unfold read?
    obtain ⟨rfl, rfl⟩ | rfl := h.shape
    · rw [List.takeWhile_eq_self_iff.mpr h.isDigit_whole, List.dropWhile_eq_nil_iff.mpr h.isDigit_whole]
      exact if_neg (by simpa using h.ne_nil)
    · have hstops : ∀ c ∈ ('.' :: fraction).head?, isDigit c = false := fun c hc => Option.some.inj hc ▸ hpoint
      obtain ⟨htake, hdrop⟩ := takeWhile_append_of_stops h.isDigit_whole hstops
      rw [htake, hdrop]
      have hall : fraction.all isDigit = true := List.all_eq_true.mpr h.isDigit_fraction
      exact if_pos (by rw [hall]; simpa [Decidable.or_iff_not_imp_left] using h.ne_nil)

/-- The number that a numeral stands for. -/
def numberOf (whole fraction : List Char) : ℚ := value (whole ++ fraction) / (10 ^ fraction.length : ℕ)

theorem IsNumeral.isReading (h : IsNumeral numeral whole fraction) :
    IsReading (toFloat whole fraction) (numberOf whole fraction) :=
  isReading_toFloat h.isDigit_whole fraction

end Decimal

namespace Settings

open Decimal (IsNumeral numberOf toFloat)

/-! ### Blanks, names and comments -/

/-- Spaces and tabs. -/
def Blanks (text : List Char) : Prop := ∀ c ∈ text, c = ' ' ∨ c = '\t'

/-- ASCII letters and digits. -/
def Alphanumerics (text : List Char) : Prop :=
  ∀ c ∈ text, ('A' ≤ c ∧ c ≤ 'Z') ∨ ('a' ≤ c ∧ c ≤ 'z') ∨ ('0' ≤ c ∧ c ≤ '9')

/-- What may end a line: blanks, and behind them nothing, or a comment with its semicolon. -/
def IsTail (text : List Char) : Prop :=
  ∃ blanks comment, text = blanks ++ comment ∧ Blanks blanks ∧ ∀ c ∈ comment.head?, c = ';'

variable {text rest line name value upper blanks : List Char}

theorem Blanks.append {front rest : List Char} (hfront : Blanks front) (hrest : Blanks rest) : Blanks (front ++ rest) :=
  List.forall_mem_append.mpr ⟨hfront, hrest⟩

theorem blanks_nil : Blanks [] := List.forall_mem_nil _

theorem blanks_space : Blanks [' '] := List.forall_mem_singleton.mpr (.inl rfl)

theorem isTail_nil : IsTail [] := ⟨[], [], rfl, blanks_nil, nofun⟩

theorem isBlank_iff {c : Char} : isBlank c = true ↔ c = ' ' ∨ c = '\t' := by
  rw [isBlank, Bool.or_eq_true, beq_iff_eq, beq_iff_eq]

theorem isNameChar_iff {c : Char} : isNameChar c = true ↔
    ('A' ≤ c ∧ c ≤ 'Z') ∨ ('a' ≤ c ∧ c ≤ 'z') ∨ ('0' ≤ c ∧ c ≤ '9') := by
  rw [isNameChar, Char.isAlphanum, Char.isAlpha, Char.isUpper, Char.isLower, Char.isDigit]
  simp only [Bool.or_eq_true, Bool.and_eq_true, decide_eq_true_eq, or_assoc]
  rfl

theorem skipBlanks_append (hblanks : Blanks blanks) (hrest : ∀ c ∈ rest.head?, isBlank c = false) :
    skipBlanks (blanks ++ rest) = rest :=
  (takeWhile_append_of_stops (fun c hc => isBlank_iff.mpr (hblanks c hc)) hrest).2

theorem exists_eq_blanks_append (text : List Char) : ∃ blanks, text = blanks ++ skipBlanks text ∧ Blanks blanks :=
  ⟨_, List.takeWhile_append_dropWhile.symm, fun _ hc => isBlank_iff.mp (List.mem_takeWhile_imp hc)⟩

/-- A text that starts with this character starts with none for which the test fails. -/
theorem head?_cons_eq_false {p : Char → Bool} {c : Char} (hc : p c = false) : ∀ d ∈ (c :: rest).head?, p d = false :=
  fun _ hd => Option.some.inj hd ▸ hc

/-- A blank ends a name and a numeral, and so does what follows the blanks. -/
theorem head?_blanks_append_eq_false {p : Char → Bool} (hspace : p ' ' = false) (htab : p '\t' = false)
    (hblanks : Blanks blanks) (hrest : ∀ c ∈ rest.head?, p c = false) :
    ∀ c ∈ (blanks ++ rest).head?, p c = false := by
  intro c hc
  cases blanks with
  | nil => exact hrest c hc
  | cons b blanks =>
      obtain rfl := Option.some.inj hc
      rcases hblanks b List.mem_cons_self with rfl | rfl
      · exact hspace
      · exact htab

theorem isBlankOrComment_iff : isBlankOrComment text = true ↔ IsTail text := by
  unfold isBlankOrComment
  constructor
  · intro h
    obtain ⟨blanks, htext, hblanks⟩ := exists_eq_blanks_append text
    refine ⟨blanks, _, htext, hblanks, fun c hc => ?_⟩
    generalize skipBlanks text = rest at h hc
    cases rest with
    | nil => cases hc
    | cons d rest =>
        obtain rfl := Option.some.inj hc
        exact eq_of_beq h
  · rintro ⟨blanks, comment, rfl, hblanks, hcomment⟩
    rw [skipBlanks_append hblanks fun c hc => hcomment c hc ▸ rfl]
    cases comment with
    | nil => rfl
    | cons c comment => exact beq_iff_eq.mpr (hcomment c rfl)

/-! ### Headers -/

theorem sectionHeader?_of_ne (h : (skipBlanks line).head? ≠ some '[') :
    sectionHeader? line = none := by
  unfold sectionHeader?
  split
  · next heq => exact absurd (heq ▸ rfl) h
  · rfl

theorem sectionHeader?_of_eq (h : skipBlanks line = '[' :: rest) :
    sectionHeader? line =
      let behind := skipBlanks ((skipBlanks rest).dropWhile isNameChar)
      if behind.head? = some ']' ∧ isBlankOrComment behind.tail then
        some (((skipBlanks rest).takeWhile isNameChar).take sectionNameMax)
      else none := by
  unfold sectionHeader?
  rw [h]
  split
  · next heq =>
    obtain rfl := (List.cons.inj heq).2
    dsimp only
    split
    · next hclose =>
      rw [hclose]
      exact if_congr (by simp) rfl rfl
    · next hopen =>
      refine (if_neg fun hclose => ?_).symm
      obtain ⟨tail, htail⟩ := List.head?_eq_some_iff.mp hclose.1
      exact hopen tail htail
  · next hno => exact absurd rfl (hno rest)

/-- A name in brackets. It may be empty. -/
def IsHeader (line name : List Char) : Prop :=
  ∃ before inside behind tail, line = before ++ '[' :: (inside ++ (name ++ (behind ++ ']' :: tail)))
    ∧ Blanks before ∧ Blanks inside ∧ Blanks behind ∧ Alphanumerics name ∧ IsTail tail

theorem isNameChar_of_alphanumerics (h : Alphanumerics name) : ∀ c ∈ name, isNameChar c = true :=
  fun c hc => isNameChar_iff.mpr (h c hc)

theorem alphanumerics_takeWhile (text : List Char) : Alphanumerics (text.takeWhile isNameChar) :=
  fun _ hc => isNameChar_iff.mp (List.mem_takeWhile_imp hc)

/-- A name does not start with a blank. -/
theorem head?_name_append_eq_false (hname : Alphanumerics name) (hne : name ≠ []) :
    ∀ c ∈ (name ++ rest).head?, isBlank c = false := by
  obtain ⟨d, name, rfl⟩ := List.exists_cons_of_ne_nil hne
  refine head?_cons_eq_false (Bool.eq_false_iff.mpr fun hblank => ?_)
  have hchar := isNameChar_iff.mpr (hname d List.mem_cons_self)
  rcases isBlank_iff.mp hblank with rfl | rfl <;> cases hchar

theorem sectionHeader?_eq_some_iff :
    sectionHeader? line = some upper ↔ ∃ name, IsHeader line name ∧ upper = name.take sectionNameMax := by
  constructor
  · intro h
    obtain ⟨before, hline, hbefore⟩ := exists_eq_blanks_append line
    unfold sectionHeader? at h
    generalize skipBlanks line = start at h hline
    split at h
    · next rest =>
      obtain ⟨inside, hrest, hinside⟩ := exists_eq_blanks_append rest
      dsimp only at h
      generalize skipBlanks rest = inner at h hrest
      have hinner := List.takeWhile_append_dropWhile (p := isNameChar) (l := inner)
      obtain ⟨behind, hbehind, hbehindBlanks⟩ := exists_eq_blanks_append (inner.dropWhile isNameChar)
      split at h
      · next tail hend =>
        rw [hend] at hbehind
        rw [hbehind] at hinner
        split at h
        · next htail =>
          refine ⟨inner.takeWhile isNameChar, ⟨before, inside, behind, tail, ?_, hbefore, hinside, hbehindBlanks,
            alphanumerics_takeWhile inner, isBlankOrComment_iff.mp htail⟩, (Option.some.inj h).symm⟩
          rw [hinner, ← hrest]
          exact hline
        · cases h
      · cases h
    · cases h
  · rintro ⟨name, ⟨before, inside, behind, tail, rfl, hbefore, hinside, hbehind, hname, htail⟩, rfl⟩
    have hclose : ∀ c ∈ (']' :: tail).head?, isBlank c = false := head?_cons_eq_false rfl
    have hend : ∀ c ∈ (behind ++ ']' :: tail).head?, isNameChar c = false :=
      head?_blanks_append_eq_false rfl rfl hbehind (head?_cons_eq_false rfl)
    obtain ⟨inner, hinner⟩ : ∃ inner, skipBlanks (inside ++ (name ++ (behind ++ ']' :: tail))) = inner := ⟨_, rfl⟩
    have hsplit : inner.takeWhile isNameChar = name ∧ skipBlanks (inner.dropWhile isNameChar) = ']' :: tail := by
      rcases eq_or_ne name [] with rfl | hne
      · -- Without a name all blanks are skipped at once.
        rw [List.nil_append, ← List.append_assoc, skipBlanks_append (hinside.append hbehind) hclose] at hinner
        exact hinner ▸ ⟨rfl, rfl⟩
      · rw [skipBlanks_append hinside (head?_name_append_eq_false hname hne)] at hinner
        obtain ⟨htake, hdrop⟩ := takeWhile_append_of_stops (isNameChar_of_alphanumerics hname) hend
        rw [← hinner, htake, hdrop]
        exact ⟨rfl, skipBlanks_append hbehind hclose⟩
    unfold sectionHeader?
    rw [skipBlanks_append hbefore (head?_cons_eq_false rfl)]
    simp only [hinner, hsplit]
    exact if_pos (isBlankOrComment_iff.mpr htail)

/-- The name of the engine's section is told from every other one by its first letters. -/
theorem isSectionStart_iff : isSectionStart line = true ↔ IsHeader line sectionName := by
  have hlength : sectionName.length = 11 := rfl
  rw [isSectionStart, beq_iff_eq, sectionHeader?_eq_some_iff]
  constructor
  · rintro ⟨name, hheader, hname⟩
    have hshort : name.length < sectionNameMax := by
      have htaken := congrArg List.length hname
      rw [List.length_take, hlength] at htaken
      show name.length < 12
      change 11 = min 12 name.length at htaken
      omega
    rw [List.take_of_length_le hshort.le] at hname
    exact hname ▸ hheader
  · exact fun h => ⟨sectionName, h, rfl⟩

/-! ### Assignments -/

/-- A name of one to six letters and digits, an equals sign, and a value. -/
def IsAssignment (line name value : List Char) : Prop :=
  ∃ before behind, line = before ++ (name ++ (behind ++ '=' :: value))
    ∧ Blanks before ∧ Blanks behind ∧ Alphanumerics name ∧ 1 ≤ name.length ∧ name.length ≤ 6

theorem splitSetting?_eq_some_iff : splitSetting? line = some (upper, value) ↔
    ∃ name, IsAssignment line name value ∧ upper = name.map Char.toUpper := by
  constructor
  · intro h
    obtain ⟨before, hline, hbefore⟩ := exists_eq_blanks_append line
    unfold splitSetting? at h
    dsimp only at h
    generalize skipBlanks line = start at h hline
    have hstart := List.takeWhile_append_dropWhile (p := isNameChar) (l := start)
    obtain ⟨behind, hbehind, hbehindBlanks⟩ := exists_eq_blanks_append (start.dropWhile isNameChar)
    split at h
    · cases h
    · next hname =>
      have hlength : 1 ≤ (start.takeWhile isNameChar).length ∧ (start.takeWhile isNameChar).length < nameLimit := by
        rw [Bool.or_eq_true, decide_eq_true_eq, not_or, List.isEmpty_iff_length_eq_zero] at hname
        omega
      split at h
      · next rest hend =>
        rw [hend] at hbehind
        rw [hbehind] at hstart
        obtain ⟨rfl, rfl⟩ := Prod.mk.inj (Option.some.inj h)
        refine ⟨start.takeWhile isNameChar, ⟨before, behind, by rw [hstart]; exact hline, hbefore, hbehindBlanks,
          alphanumerics_takeWhile start, hlength.1, Nat.le_of_lt_succ hlength.2⟩, rfl⟩
      · cases h
  · rintro ⟨name, ⟨before, behind, rfl, hbefore, hbehind, hname, hpos, hshort⟩, rfl⟩
    have hne : name ≠ [] := List.ne_nil_of_length_pos hpos
    have hend : ∀ c ∈ (behind ++ '=' :: value).head?, isNameChar c = false :=
      head?_blanks_append_eq_false rfl rfl hbehind (head?_cons_eq_false rfl)
    obtain ⟨htake, hdrop⟩ := takeWhile_append_of_stops (isNameChar_of_alphanumerics hname) hend
    unfold splitSetting?
    rw [skipBlanks_append hbefore (head?_name_append_eq_false hname hne)]
    dsimp only
    have hlimit : ¬(name.isEmpty || decide (nameLimit ≤ name.length)) = true := by
      have hseven : nameLimit = 7 := rfl
      rw [Bool.or_eq_true, decide_eq_true_eq, not_or, List.isEmpty_iff]
      exact ⟨hne, by omega⟩
    rw [htake, hdrop, skipBlanks_append hbehind (head?_cons_eq_false rfl), if_neg hlimit]
    rfl

/-! ### Settings -/

/-- An assignment of a number. -/
def IsSetting (line name whole fraction : List Char) : Prop :=
  ∃ blanks numeral tail, IsAssignment line name (blanks ++ (numeral ++ tail)) ∧ Blanks blanks
    ∧ IsNumeral numeral whole fraction ∧ IsTail tail

theorem isBlank_eq_false_of_isNumeralChar {c : Char} (hc : Decimal.isNumeralChar c = true) : isBlank c = false := by
  refine Bool.eq_false_iff.mpr fun hblank => ?_
  rcases isBlank_iff.mp hblank with rfl | rfl <;> cases hc

/-- What may end a line does not go on with a numeral. -/
theorem IsTail.head?_eq_false (h : IsTail text) {p : Char → Bool} (hspace : p ' ' = false) (htab : p '\t' = false)
    (hcomment : p ';' = false) : ∀ c ∈ text.head?, p c = false := by
  obtain ⟨blanks, comment, rfl, hblanks, hstart⟩ := h
  exact head?_blanks_append_eq_false hspace htab hblanks fun c hc => hstart c hc ▸ hcomment

theorem setting?_eq_some_iff {ratio : Float} : setting? line = some (upper, ratio) ↔
    ∃ name whole fraction, IsSetting line name whole fraction ∧ upper = name.map Char.toUpper
      ∧ ratio = unitClamp (toFloat whole fraction) := by
  unfold setting?
  constructor
  · intro h
    split at h
    · cases h
    · next found value hfound =>
      obtain ⟨name, hassignment, rfl⟩ := splitSetting?_eq_some_iff.mp hfound
      obtain ⟨blanks, hvalue, hblanks⟩ := exists_eq_blanks_append value
      dsimp only at h
      generalize skipBlanks value = start at h hvalue
      split at h
      · next htail =>
        obtain ⟨number, hnumber, heq⟩ := Option.map_eq_some_iff.mp h
        obtain ⟨rfl, rfl⟩ := Prod.mk.inj heq
        obtain ⟨whole, fraction, hnumeral, rfl⟩ :=
          (Decimal.read?_eq_some_iff fun c hc => List.mem_takeWhile_imp hc).mp hnumber
        refine ⟨name, whole, fraction, ⟨blanks, _, _, ?_, hblanks, hnumeral, isBlankOrComment_iff.mp htail⟩, rfl,
          hnumeral.isReading.unitClamp_eq.symm⟩
        rw [List.takeWhile_append_dropWhile, ← hvalue]
        exact hassignment
      · cases h
  · rintro ⟨name, whole, fraction, ⟨blanks, numeral, tail, hassignment, hblanks, hnumeral, htail⟩, rfl, rfl⟩
    obtain ⟨c, rest, hcons⟩ := List.exists_cons_of_ne_nil hnumeral.numeral_ne_nil
    have hstart : ∀ d ∈ (numeral ++ tail).head?, isBlank d = false := by
      rw [hcons]
      exact head?_cons_eq_false
        (isBlank_eq_false_of_isNumeralChar (hnumeral.isNumeralChar c (hcons ▸ List.mem_cons_self)))
    obtain ⟨htake, hdrop⟩ := takeWhile_append_of_stops hnumeral.isNumeralChar (htail.head?_eq_false rfl rfl rfl)
    have hread := (Decimal.read?_eq_some_iff hnumeral.isNumeralChar).mpr ⟨whole, fraction, hnumeral, rfl⟩
    rw [splitSetting?_eq_some_iff.mpr ⟨name, hassignment, rfl⟩]
    dsimp only
    rw [skipBlanks_append hblanks hstart, htake, hdrop, if_pos (isBlankOrComment_iff.mpr htail), hread,
      hnumeral.isReading.unitClamp_eq]
    rfl

end Settings

end PolyExpression
