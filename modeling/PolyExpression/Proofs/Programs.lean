import PolyExpression.Program
import PolyExpression.Proofs.Sections

/-!
Programs written and read back. Names of programs survive cleaning, and the lines of a body are neither headers nor
names, so that a program that is written as a section is read from it again. Main statement: the settings that are
read from a program's text are those in the first section of the text it was made of.
-/

namespace PolyExpression

/-! ### Names -/

/-- A text that cleaning leaves as it is. -/
structure IsProgramName (name : List Char) : Prop where
  chars : ∀ c ∈ name, isProgramNameChar c = true
  head?_ne : name.head? ≠ some ' '
  getLast?_ne : name.getLast? ≠ some ' '
  length_le : name.length ≤ programNameMax

theorem head?_dropWhile_space (text : List Char) : (text.dropWhile (· == ' ')).head? ≠ some ' ' := by
  intro hhead
  have hspace := List.head?_dropWhile_not (· == ' ') text
  rw [hhead] at hspace
  cases hspace

theorem dropWhile_space_eq {text : List Char} (h : text.head? ≠ some ' ') : text.dropWhile (· == ' ') = text := by
  cases text with
  | nil => rfl
  | cons c rest => exact List.dropWhile_cons_of_neg fun hc => h (congrArg some (eq_of_beq hc))

theorem head?_trimSpaces (text : List Char) : (trimSpaces text).head? ≠ some ' ' := by
  intro hhead
  obtain ⟨dropped, hdropped⟩ := List.dropWhile_suffix (l := (text.dropWhile (· == ' ')).reverse) (· == ' ')
  have hlast := congrArg List.getLast? hdropped
  rw [trimSpaces, List.head?_reverse] at hhead
  rw [List.getLast?_append, hhead, List.getLast?_reverse] at hlast
  exact head?_dropWhile_space text hlast.symm

theorem getLast?_trimSpaces (text : List Char) : (trimSpaces text).getLast? ≠ some ' ' := by
  rw [trimSpaces, List.getLast?_reverse]
  exact head?_dropWhile_space _

theorem trimSpaces_eq {text : List Char} (hhead : text.head? ≠ some ' ') (hlast : text.getLast? ≠ some ' ') :
    trimSpaces text = text := by
  rw [trimSpaces, dropWhile_space_eq hhead, dropWhile_space_eq (by rwa [List.head?_reverse]), List.reverse_reverse]

theorem mem_of_mem_trimSpaces {text : List Char} {c : Char} (h : c ∈ trimSpaces text) : c ∈ text :=
  (List.dropWhile_suffix _).subset (List.mem_reverse.mp ((List.dropWhile_suffix _).subset (List.mem_reverse.mp h)))

/-- A shortened name starts and ends like the name itself, and two dots are all that is new in it. -/
theorem isProgramName_abbreviate {text : List Char} (hchars : ∀ c ∈ text, isProgramNameChar c = true)
    (hhead : text.head? ≠ some ' ') (hlast : text.getLast? ≠ some ' ') :
    IsProgramName (abbreviate programNameMax text) := by
  unfold abbreviate
  split
  · next hlength => exact ⟨hchars, hhead, hlast, hlength⟩
  · next hlength =>
    have hmax : programNameMax = 23 := rfl
    have hend : (text.drop (text.length - 1)).getLast? = text.getLast? := by
      rw [List.getLast?_drop, if_neg (by omega)]
    refine ⟨fun c hc => ?_, ?_, ?_, ?_⟩
    · rcases List.mem_append.mp hc with hfront | hc
      · rcases List.mem_append.mp hfront with hc | hdots
        · exact hchars c (List.mem_of_mem_take hc)
        · have hc : c = '.' := by simpa using hdots
          rw [hc]
          rfl
      · exact hchars c (List.mem_of_mem_drop hc)
    · cases text with
      | nil => exact absurd (Nat.zero_le _) hlength
      | cons c rest => exact hhead
    · rw [List.getLast?_append, hend]
      cases hsome : text.getLast? with
      | none =>
          rw [List.getLast?_eq_none_iff.mp hsome] at hlength
          exact absurd (Nat.zero_le _) hlength
      | some c => rwa [Option.some_or, ← hsome]
    · simp only [List.length_append, List.length_take, List.length_drop, List.length_cons, List.length_nil]
      omega

theorem isProgramName_programName (text : List Char) : IsProgramName (programName text) :=
  isProgramName_abbreviate
    (fun _ hc => (List.mem_filter.mp (mem_of_mem_trimSpaces hc)).2) (head?_trimSpaces _) (getLast?_trimSpaces _)

/-- A name is read again from behind the blank that is written in front of it. -/
theorem programName_cons_space {name : List Char} (h : IsProgramName name) : programName (' ' :: name) = name := by
  have hfilter : (' ' :: name).filter isProgramNameChar = ' ' :: name := by
    refine List.filter_eq_self.mpr fun c hc => ?_
    rcases List.mem_cons.mp hc with rfl | hc
    · rfl
    · exact h.chars c hc
  have htrim : trimSpaces (' ' :: name) = trimSpaces name := rfl
  rw [programName, hfilter, htrim, trimSpaces_eq h.head?_ne h.getLast?_ne, abbreviate, if_pos h.length_le]

namespace Program

open Settings

/-! ### Reading a section -/

/-- The name that a line gives a program; none if it is a line of the body. -/
def nameIn? (line : List Char) : Option (List Char) :=
  match splitSetting? line with
  | some (key, value) => if key = nameKey then some value else none
  | none => none

/-- A program's name after some names have been read, of which the last one counts. What is left of it when it is
cleaned may be empty and then stands for the default name. -/
def nameAfter (program : Program) (names : List (List Char)) : List Char :=
  match names.getLast? with
  | none => program.name
  | some text => if (programName text).isEmpty then program.defaultName else programName text

/-- What a program becomes when a section is read whose lines are given. -/
def fromSection (program : Program) (inside : List (List Char)) : Program where
  name := program.nameAfter (inside.filterMap nameIn?)
  defaultName := program.defaultName
  body := inside.filter fun line => (nameIn? line).isNone

/-- What a program becomes when there is no section to be read. -/
def blanked (program : Program) : Program := { program with name := program.defaultName, body := [] }

theorem readLine_eq (program : Program) (line : List Char) :
    program.readLine line = match nameIn? line with
      | some text => program.rename text
      | none => { program with body := line :: program.body } := by
  unfold readLine nameIn?
  cases splitSetting? line with
  | none => rfl
  | some entry =>
      dsimp only
      split <;> rfl

theorem nameAfter_cons (program : Program) (text : List Char) (names : List (List Char)) :
    program.nameAfter (text :: names) = (program.rename text).nameAfter names := by
  unfold nameAfter
  rw [List.getLast?_cons]
  cases names.getLast? <;> rfl

theorem foldl_readLine (program : Program) (inside : List (List Char)) :
    inside.foldl readLine program =
      { program.fromSection inside with body := (program.fromSection inside).body.reverse ++ program.body } := by
  induction inside generalizing program with
  | nil => rfl
  | cons line rest ih =>
      rw [List.foldl_cons, ih, readLine_eq]
      unfold fromSection
      cases hname : nameIn? line with
      | some text =>
          rw [List.filterMap_cons_some hname, List.filter_cons_of_neg (by rw [hname]; exact Bool.false_ne_true),
            nameAfter_cons]
          rfl
      | none =>
          rw [List.filterMap_cons_none hname, List.filter_cons_of_pos (by rw [hname]; rfl), List.reverse_cons,
            List.append_assoc]
          rfl

/-- A program is read from the first section that is left, and the sections behind it are left over. -/
theorem readSection_spec (program : Program) (lines : List (List Char)) :
    (program.readSection lines).1 = (sections lines).head?.elim program.blanked program.fromSection
      ∧ sections (program.readSection lines).2 = (sections lines).tail := by
  rw [sections_eq]
  unfold readSection
  cases lines.dropWhile fun line => !isSectionStart line with
  | nil => exact ⟨rfl, rfl⟩
  | cons header rest =>
      refine ⟨?_, rfl⟩
      show { (rest.takeWhile isInner).foldl readLine { program with body := [] } with
        body := ((rest.takeWhile isInner).foldl readLine { program with body := [] }).body.reverse } = _
      rw [foldl_readLine]
      show Program.mk _ _ ((_ ++ []).reverse) = Program.mk _ _ _
      rw [List.append_nil, List.reverse_reverse]
      rfl

/-- What is left over are lines that were there. -/
theorem mem_of_mem_readSection {program : Program} {lines : List (List Char)} {line : List Char}
    (h : line ∈ (program.readSection lines).2) : line ∈ lines := by
  have hbehind := List.dropWhile_suffix (l := lines) fun line => !isSectionStart line
  rw [readSection] at h
  cases hdrop : lines.dropWhile fun line => !isSectionStart line with
  | nil =>
      rw [hdrop] at h
      cases h
  | cons header rest =>
      rw [hdrop] at h hbehind
      apply hbehind.subset
      exact List.mem_cons_of_mem header ((List.dropWhile_suffix _).subset h)

/-! ### What all programs are like -/

/-- A line that a program keeps in its body. -/
structure IsBodyLine (line : List Char) : Prop where
  isLine : Text.IsLine lineMax line
  isInner : isInner line = true
  nameIn?_eq_none : nameIn? line = none

/-- The names are clean, the name is empty only if the default name is, and the body has lines of a body. -/
structure WellFormed (program : Program) : Prop where
  name : IsProgramName program.name
  defaultName : IsProgramName program.defaultName
  defaultName_eq_nil : program.name = [] → program.defaultName = []
  body : ∀ line ∈ program.body, IsBodyLine line

/-- The programs that can be made, and changed by naming and reading, with any texts. -/
inductive Reachable : Program → Prop
  | ofText (name defaultName text : List Char) : Reachable (.ofText name defaultName text)
  | rename {program : Program} (h : Reachable program) (text : List Char) : Reachable (program.rename text)
  | load {program : Program} (h : Reachable program) (text : List Char) : Reachable (program.load text)

variable {program : Program} {inside : List (List Char)}

/-- A program that reads a text takes the first section in it. -/
theorem load_eq (program : Program) (text : List Char) :
    program.load text = (sections (linesOf text)).head?.elim program.blanked program.fromSection :=
  (program.readSection_spec (linesOf text)).1

theorem ofText_eq (name defaultName text : List Char) : ofText name defaultName text =
    ((Program.mk [] (programName defaultName) []).load text).rename name := rfl

theorem defaultName_load (program : Program) (text : List Char) :
    (program.load text).defaultName = program.defaultName := by
  rw [load_eq]
  cases (sections (linesOf text)).head? <;> rfl

/-- The lines of a section are lines of the text and open no section. -/
theorem line_of_mem_sections {text line : List Char} (hinside : inside ∈ sections (linesOf text))
    (hline : line ∈ inside) : Text.IsLine lineMax line ∧ isInner line = true :=
  (mem_of_mem_sections hinside hline).imp_left (Text.isLine_of_mem_lines (by decide))

theorem isBodyLine_of_mem_fromSection {line : List Char}
    (hinside : ∀ line ∈ inside, Text.IsLine lineMax line ∧ isInner line = true)
    (h : line ∈ (program.fromSection inside).body) : IsBodyLine line := by
  obtain ⟨hline, hname⟩ := List.mem_filter.mp h
  obtain ⟨hkept, hinner⟩ := hinside line hline
  exact ⟨hkept, hinner, Option.isNone_iff_eq_none.mp hname⟩

theorem isBodyLine_of_mem_load {text line : List Char} (h : line ∈ (program.load text).body) : IsBodyLine line := by
  rw [load_eq] at h
  cases hsection : (sections (linesOf text)).head? with
  | none =>
      rw [hsection] at h
      cases h
  | some inside =>
      rw [hsection] at h
      exact isBodyLine_of_mem_fromSection (fun _ => line_of_mem_sections (List.mem_of_head? hsection)) h

theorem WellFormed.blanked (h : program.WellFormed) : program.blanked.WellFormed :=
  ⟨h.defaultName, h.defaultName, id, fun _ hline => by cases hline⟩

theorem WellFormed.withoutBody (h : program.WellFormed) : { program with body := [] }.WellFormed :=
  ⟨h.name, h.defaultName, h.defaultName_eq_nil, fun _ hline => by cases hline⟩

theorem WellFormed.fromSection (h : program.WellFormed)
    (hinside : ∀ line ∈ inside, Text.IsLine lineMax line ∧ isInner line = true) :
    (program.fromSection inside).WellFormed := by
  have hname : IsProgramName (program.nameAfter (inside.filterMap nameIn?))
      ∧ (program.nameAfter (inside.filterMap nameIn?) = [] → program.defaultName = []) := by
    unfold nameAfter
    cases (inside.filterMap nameIn?).getLast? with
    | none => exact ⟨h.name, h.defaultName_eq_nil⟩
    | some text =>
        dsimp only
        split
        · exact ⟨h.defaultName, id⟩
        · next hne => exact ⟨isProgramName_programName text, fun hnil => absurd (List.isEmpty_iff.mpr hnil) hne⟩
  exact ⟨hname.1, h.defaultName, hname.2, fun line hline => isBodyLine_of_mem_fromSection hinside hline⟩

/-- A program that reads lines of any text is well-formed again. -/
theorem WellFormed.readSection (h : program.WellFormed) {lines : List (List Char)}
    (hlines : ∀ line ∈ lines, Text.IsLine lineMax line) : (program.readSection lines).1.WellFormed := by
  rw [(program.readSection_spec lines).1]
  cases hsection : (sections lines).head? with
  | none => exact h.blanked
  | some inside =>
      refine h.fromSection fun line hline => ?_
      exact (mem_of_mem_sections (List.mem_of_head? hsection) hline).imp_left (hlines line)

theorem WellFormed.load (h : program.WellFormed) (text : List Char) : (program.load text).WellFormed :=
  h.readSection fun _ => Text.isLine_of_mem_lines (by decide)

theorem wellFormed_rename (hdefault : IsProgramName program.defaultName)
    (hbody : ∀ line ∈ program.body, IsBodyLine line) (text : List Char) : (program.rename text).WellFormed := by
  unfold rename
  dsimp only
  split
  · exact ⟨hdefault, hdefault, id, hbody⟩
  · next hne =>
    exact ⟨isProgramName_programName text, hdefault, fun hnil => absurd (List.isEmpty_iff.mpr hnil) hne, hbody⟩

theorem wellFormed_ofText (name defaultName text : List Char) : (ofText name defaultName text).WellFormed := by
  rw [ofText_eq]
  refine wellFormed_rename ?_ (fun line hline => isBodyLine_of_mem_load hline) name
  rw [defaultName_load]
  exact isProgramName_programName defaultName

theorem Reachable.wellFormed (h : program.Reachable) : program.WellFormed := by
  induction h with
  | ofText name defaultName text => exact wellFormed_ofText name defaultName text
  | rename _ text ih => exact wellFormed_rename ih.defaultName ih.body text
  | load _ text ih => exact ih.load text

/-! ### Writing -/

/-- The line that holds a name. -/
def nameLine (name : List Char) : List Char := nameKey ++ " = ".toList ++ name

/-- The lines of a program's section behind the header. -/
def sectionLines (program : Program) : List (List Char) := nameLine program.name :: program.body

theorem nameIn?_nameLine (name : List Char) : nameIn? (nameLine name) = some (' ' :: name) := rfl

theorem isInner_nameLine (name : List Char) : isInner (nameLine name) = true := rfl

theorem isLine_nameLine {name : List Char} (h : IsProgramName name) : Text.IsLine lineMax (nameLine name) := by
  have hmax : lineMax = 262143 := rfl
  have hnameMax : programNameMax = 23 := rfl
  have hlength := h.length_le
  refine ⟨List.cons_ne_nil _ _, fun c hc => ?_, (Text.byteLength_le_mul_length _).trans ?_⟩
  · rcases List.mem_append.mp hc with hkey | hname
    · exact Text.isLineBreak_eq_false_of_all (by decide +kernel) c hkey
    · exact Text.isLineBreak_eq_false_of rfl rfl (h.chars c hname)
  · have hfront : (nameKey ++ " = ".toList).length = 7 := rfl
    rw [nameLine, List.length_append, hfront]
    omega

theorem WellFormed.isLine_sectionLines (h : program.WellFormed) :
    ∀ line ∈ header :: program.sectionLines, Text.IsLine lineMax line := by
  intro line hline
  rcases List.mem_cons.mp hline with rfl | hline
  · exact isLine_header
  · rcases List.mem_cons.mp hline with rfl | hline
    · exact isLine_nameLine h.name
    · exact (h.body line hline).isLine

theorem WellFormed.isInner_sectionLines (h : program.WellFormed) :
    ∀ line ∈ program.sectionLines, isInner line = true := by
  intro line hline
  rcases List.mem_cons.mp hline with rfl | hline
  · exact isInner_nameLine program.name
  · exact (h.body line hline).isInner

/-- A program's lines are found again, in front of whatever follows them. -/
theorem linesOf_write_append (h : program.WellFormed) (rest : List Char) :
    linesOf (program.write ++ rest) = header :: program.sectionLines ++ linesOf rest :=
  Text.lines_flatMap h.isLine_sectionLines rest

theorem sections_linesOf_write (h : program.WellFormed) :
    sections (linesOf program.write) = [program.sectionLines] := by
  have hlines := linesOf_write_append h []
  have hwritten := sections_written [program.sectionLines] (by simpa using h.isInner_sectionLines)
  rw [List.append_nil] at hlines
  rw [hlines]
  exact hwritten

/-- What is written of a program makes it anew out of any program with the same default name. -/
theorem fromSection_sectionLines (h : program.WellFormed) {other : Program}
    (hdefault : other.defaultName = program.defaultName) : other.fromSection program.sectionLines = program := by
  have hnone : ∀ line ∈ program.body, nameIn? line = none := fun line hline => (h.body line hline).nameIn?_eq_none
  have hnames : program.sectionLines.filterMap nameIn? = [' ' :: program.name] := by
    rw [sectionLines, List.filterMap_cons_some (nameIn?_nameLine program.name), List.filterMap_eq_nil_iff.mpr hnone]
  have hbody : program.sectionLines.filter (fun line => (nameIn? line).isNone) = program.body := by
    rw [sectionLines, List.filter_cons_of_neg (by rw [nameIn?_nameLine]; exact Bool.false_ne_true)]
    exact List.filter_eq_self.mpr fun line hline => by rw [hnone line hline]; rfl
  have hname : other.nameAfter [' ' :: program.name] = program.name := by
    show (if (programName (' ' :: program.name)).isEmpty then other.defaultName
      else programName (' ' :: program.name)) = program.name
    rw [programName_cons_space h.name, hdefault]
    split
    · next hempty =>
      have hnil := List.isEmpty_iff.mp hempty
      rw [hnil, h.defaultName_eq_nil hnil]
    · rfl
  rw [fromSection, hnames, hname, hbody, hdefault]

theorem load_write (h : program.WellFormed) {other : Program}
    (hdefault : other.defaultName = program.defaultName) : other.load program.write = program := by
  rw [load_eq, sections_linesOf_write h]
  exact fromSection_sectionLines h hdefault

/-! ### The settings of a program -/

theorem splitSetting?_of_nameIn? {line text : List Char} (h : nameIn? line = some text) :
    splitSetting? line = some (nameKey, text) := by
  unfold nameIn? at h
  cases hsplit : splitSetting? line with
  | none =>
      rw [hsplit] at h
      cases h
  | some entry =>
      rw [hsplit] at h
      dsimp only at h
      split at h
      · next hkey => rw [← hkey, ← Option.some.inj h]
      · cases h

/-- No parameter has the name under which programs keep theirs. -/
theorem known?_eq_none {line text : List Char} (h : nameIn? line = some text) : known? line = none := by
  have hnamed : ParameterId.named? (String.ofList nameKey) = none := by decide +kernel
  unfold known? setting?
  rw [splitSetting?_of_nameIn? h]
  dsimp only
  split
  · rfl
  · next name ratio hsetting =>
    split at hsetting
    · obtain ⟨number, -, hentry⟩ := Option.map_eq_some_iff.mp hsetting
      rw [← (Prod.mk.inj hentry).1, hnamed]
      rfl
    · cases hsetting

theorem filterMap_known?_body (program : Program) (inside : List (List Char)) :
    (program.fromSection inside).body.filterMap known? = inside.filterMap known? := by
  rw [fromSection, List.filterMap_filter]
  refine List.filterMap_congr fun line _ => ?_
  cases hname : nameIn? line with
  | none => rfl
  | some text => exact (known?_eq_none hname).symm

/-- From a program that is written one reads the settings in its body. -/
theorem read_write_eq_filterMap (h : program.WellFormed) :
    Settings.read program.write = program.body.filterMap known? := by
  rw [Settings.read, ofLines_eq_flatMap, sections_linesOf_write h, List.flatMap_singleton, sectionLines,
    List.filterMap_cons_none (known?_eq_none (nameIn?_nameLine program.name))]

theorem filterMap_known?_ofText (name defaultName text : List Char) :
    (ofText name defaultName text).body.filterMap known? =
      (sections (linesOf text)).head?.elim [] (·.filterMap known?) := by
  rw [ofText_eq]
  show ((Program.mk [] (programName defaultName) []).load text).body.filterMap known? = _
  rw [load_eq]
  cases (sections (linesOf text)).head? with
  | none => rfl
  | some inside => exact filterMap_known?_body _ inside

/-- From the text of a program one reads the settings between the first header of the engine in the text it was made
of and the next header of any name; none if there is no such header. So nothing is lost of a text that has one section
of the engine, whatever the program's name. -/
theorem read_write_ofText (name defaultName text : List Char) :
    Settings.read (ofText name defaultName text).write = (firstSection? (linesOf text)).elim [] ofLines
      ∧ ((linesOf text).countP isSectionStart ≤ 1 →
        Settings.read (ofText name defaultName text).write = Settings.read text) := by
  have hread : Settings.read (ofText name defaultName text).write =
      (sections (linesOf text)).head?.elim [] (·.filterMap known?) := by
    rw [read_write_eq_filterMap (wellFormed_ofText name defaultName text), filterMap_known?_ofText]
  refine ⟨hread.trans (ofLines_firstSection? _).symm, fun hone => ?_⟩
  rw [hread, Settings.read, ofLines_eq_flatMap]
  rw [← length_sections] at hone
  cases hsections : sections (linesOf text) with
  | nil => rfl
  | cons inside later =>
      rw [hsections, List.length_cons] at hone
      obtain rfl := List.eq_nil_of_length_eq_zero (Nat.le_zero.mp (Nat.le_of_succ_le_succ hone))
      exact (List.flatMap_singleton _ inside).symm

/-- The program's name looks like a setting, and settings stand before and behind the section. -/
theorem read_write_ofText_decoy :
    let text := ("Z1CHN = 0.1\n[mpeemulator]\nNAME = Z1ANC = 0.2\nz1chn = 0.25 ; few\nZ1SUS = 1\n" ++
      "[mpeemulatorx]\nZ1CHN = 0.3\n").toList
    let program := Program.ofText "Z1TRP = 0.4".toList "MCM = 1".toList text
    (linesOf text).countP isSectionStart ≤ 1 ∧ Settings.read program.write = Settings.read text
      ∧ Settings.read program.write = (firstSection? (linesOf text)).elim [] ofLines
      ∧ ((Settings.read text).map fun setting => setting.1.name) = ["Z1CHN", "Z1SUS"] := by
  intro text program
  obtain ⟨hfirst, hall⟩ := read_write_ofText "Z1TRP = 0.4".toList "MCM = 1".toList text
  have hone : (linesOf text).countP isSectionStart ≤ 1 := by decide +kernel
  exact ⟨hone, hall hone, hfirst, by decide +kernel⟩

end Program

end PolyExpression
