import Mathlib.Data.List.TakeWhile
import PolyExpression.Proofs.Lines
import PolyExpression.Settings.Text

/-!
The engine's sections of a settings text, as one list. Main statements: lines that are written as sections are these
sections again, and the settings in some lines are those in the engine's sections, one after the other.
-/

namespace PolyExpression.Settings

/-- Whether a line opens no section, of whatever name. -/
def isInner (line : List Char) : Bool := (sectionHeader? line).isNone

/-- For each header of the engine's section, in order, the lines behind it up to the next header of any name. -/
def sections : List (List Char) → List (List (List Char))
  | [] => []
  | line :: rest =>
      if isSectionStart line then rest.takeWhile isInner :: sections rest else sections rest

variable {line : List Char} {lines inside : List (List Char)}

theorem isSectionStart_eq_false (h : isInner line = true) : isSectionStart line = false := by
  rw [isSectionStart, Option.isNone_iff_eq_none.mp h]
  rfl

theorem sections_cons_of_isSectionStart (h : isSectionStart line = true) (rest : List (List Char)) :
    sections (line :: rest) = rest.takeWhile isInner :: sections rest :=
  if_pos h

theorem sections_cons_of_not (h : isSectionStart line = false) (rest : List (List Char)) :
    sections (line :: rest) = sections rest :=
  if_neg (Bool.eq_false_iff.mp h)

/-- There is one section for each header. -/
theorem length_sections (lines : List (List Char)) : (sections lines).length = lines.countP isSectionStart := by
  induction lines with
  | nil => rfl
  | cons line rest ih =>
      cases hline : isSectionStart line with
      | true =>
          rw [sections_cons_of_isSectionStart hline, List.length_cons, ih, List.countP_cons_of_pos hline]
      | false =>
          rw [sections_cons_of_not hline, ih, List.countP_cons_of_neg (Bool.eq_false_iff.mp hline)]

theorem sections_append (h : ∀ line ∈ lines, isSectionStart line = false) (rest : List (List Char)) :
    sections (lines ++ rest) = sections rest := by
  induction lines with
  | nil => rfl
  | cons line lines ih =>
      rw [List.cons_append, sections_cons_of_not (h line List.mem_cons_self)]
      exact ih fun other hother => h other (List.mem_cons_of_mem _ hother)

/-- Lines in front that are no headers of the engine can be passed over. -/
theorem sections_dropWhile {p : List Char → Bool} (hp : ∀ line, p line = true → isSectionStart line = false)
    (lines : List (List Char)) : sections (lines.dropWhile p) = sections lines := by
  conv_rhs => rw [← List.takeWhile_append_dropWhile (p := p) (l := lines)]
  exact (sections_append (fun line hline => hp line (List.mem_takeWhile_imp hline)) _).symm

theorem isSectionStart_of_dropWhile {first : List Char} {rest : List (List Char)}
    (h : lines.dropWhile (fun line => !isSectionStart line) = first :: rest) : isSectionStart first = true := by
  have hnot := List.head?_dropWhile_not (fun line => !isSectionStart line) lines
  rw [h] at hnot
  simpa using hnot

/-- The first section starts behind the first header and ends in front of the next one, and the other sections are
those behind it. -/
theorem sections_eq (lines : List (List Char)) :
    sections lines = match lines.dropWhile fun line => !isSectionStart line with
      | [] => []
      | _ :: rest => rest.takeWhile isInner :: sections (rest.dropWhile isInner) := by
  rw [← sections_dropWhile (p := fun line => !isSectionStart line) (fun line hline => by simpa using hline) lines]
  cases h : lines.dropWhile fun line => !isSectionStart line with
  | nil => rfl
  | cons first rest =>
      dsimp only
      rw [sections_cons_of_isSectionStart (isSectionStart_of_dropWhile h),
        sections_dropWhile fun line hline => isSectionStart_eq_false hline]

theorem mem_of_mem_sections (hinside : inside ∈ sections lines) (hline : line ∈ inside) :
    line ∈ lines ∧ isInner line = true := by
  induction lines with
  | nil => cases hinside
  | cons first rest ih =>
      have hlater : inside ∈ sections rest → line ∈ first :: rest ∧ isInner line = true :=
        fun h => (ih h).imp_left (List.mem_cons_of_mem first)
      cases hfirst : isSectionStart first with
      | true =>
          rw [sections_cons_of_isSectionStart hfirst] at hinside
          rcases List.mem_cons.mp hinside with rfl | h
          · exact ⟨List.mem_cons_of_mem first (List.takeWhile_prefix _ |>.subset hline), List.mem_takeWhile_imp hline⟩
          · exact hlater h
      | false =>
          rw [sections_cons_of_not hfirst] at hinside
          exact hlater hinside

/-! ### Written sections -/

theorem isLine_header : Text.IsLine lineMax header :=
  ⟨by decide +kernel, Text.isLineBreak_eq_false_of_all (by decide +kernel), by decide +kernel⟩

theorem sectionHeader?_header : sectionHeader? header = some sectionName := by decide +kernel

theorem isSectionStart_header : isSectionStart header = true := by
  rw [isSectionStart, sectionHeader?_header]
  rfl

/-- The lines of sections that are written one after the other. -/
def written (bodies : List (List (List Char))) : List (List Char) := bodies.flatMap (header :: ·)

/-- Sections are found again if no line of theirs is a header. -/
theorem sections_written (bodies : List (List (List Char)))
    (h : ∀ body ∈ bodies, ∀ line ∈ body, isInner line = true) :
    sections (written bodies) = bodies := by
  induction bodies with
  | nil => rfl
  | cons body bodies ih =>
      have hbody := h body List.mem_cons_self
      have hend : (written bodies).takeWhile isInner = [] := by
        cases bodies with
        | nil => rfl
        | cons next bodies => exact List.takeWhile_cons_of_neg (by rw [isInner, sectionHeader?_header]; decide)
      have hrest : sections (body ++ written bodies) = bodies := by
        rw [sections_append fun line hline => isSectionStart_eq_false (hbody line hline)]
        exact ih fun other hother => h other (List.mem_cons_of_mem _ hother)
      rw [written, List.flatMap_cons, List.cons_append, sections_cons_of_isSectionStart isSectionStart_header]
      show (body ++ written bodies).takeWhile isInner :: sections (body ++ written bodies) = _
      rw [List.takeWhile_append_of_pos hbody, hend, hrest, List.append_nil]

/-! ### The settings in sections -/

/-- What a reader finds is what it found before, what is left of the section it is in, and the sections behind. -/
theorem found_foldl_read (lines : List (List Char)) (reader : Reader) :
    (lines.foldl Reader.read reader).found.reverse =
      reader.found.reverse ++ ((if reader.isInside then (lines.takeWhile isInner).filterMap known? else [])
        ++ (sections lines).flatMap (·.filterMap known?)) := by
  induction lines generalizing reader with
  | nil => simp [sections]
  | cons line rest ih =>
      rw [List.foldl_cons, ih, Reader.read]
      cases hheader : sectionHeader? line with
      | some name =>
          have hinner : ¬isInner line = true := by rw [isInner, hheader]; exact Bool.false_ne_true
          have hstart : isSectionStart line = (name == sectionName) := by rw [isSectionStart, hheader]; rfl
          rw [List.takeWhile_cons_of_neg hinner]
          cases hname : name == sectionName with
          | true =>
              rw [sections_cons_of_isSectionStart (hstart.trans hname)]
              simp [hname]
          | false =>
              rw [sections_cons_of_not (hstart.trans hname)]
              simp [hname]
      | none =>
          have hinner : isInner line = true := by rw [isInner, hheader]; rfl
          rw [List.takeWhile_cons_of_pos hinner, sections_cons_of_not (isSectionStart_eq_false hinner)]
          cases hinside : reader.isInside with
          | true => cases hknown : known? line <;> simp [hinside, hknown]
          | false => simp [hinside]

/-- The settings in some lines are those in the engine's sections, in order. -/
theorem ofLines_eq_flatMap (lines : List (List Char)) :
    ofLines lines = (sections lines).flatMap (·.filterMap known?) := by
  rw [ofLines, found_foldl_read]
  rfl

/-- The lines from the engine's first header on, up to the next header of any name. -/
def firstSection? (lines : List (List Char)) : Option (List (List Char)) :=
  match lines.dropWhile fun line => !isSectionStart line with
  | [] => none
  | first :: rest => some (first :: rest.takeWhile isInner)

theorem ofLines_firstSection? (lines : List (List Char)) :
    (firstSection? lines).elim [] ofLines = (sections lines).head?.elim [] (·.filterMap known?) := by
  rw [sections_eq]
  unfold firstSection?
  cases h : lines.dropWhile fun line => !isSectionStart line with
  | nil => rfl
  | cons first rest =>
      have hinner : ∀ line ∈ rest.takeWhile isInner, isInner line = true :=
        fun line hline => List.mem_takeWhile_imp hline
      have hnone := sections_append (fun line hline => isSectionStart_eq_false (hinner line hline)) []
      rw [List.append_nil] at hnone
      show ofLines (first :: rest.takeWhile isInner) = (rest.takeWhile isInner).filterMap known?
      rw [ofLines_eq_flatMap, sections_cons_of_isSectionStart (isSectionStart_of_dropWhile h), hnone,
        List.takeWhile_eq_self_iff.mpr hinner, sections, List.flatMap_singleton]

end PolyExpression.Settings
