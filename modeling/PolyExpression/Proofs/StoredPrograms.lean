import PolyExpression.Proofs.Banks
import PolyExpression.Proofs.LineCursor

/-!
Programs stored together with what is made of them. A stored program keeps its short name and its section next to its
name and its body, and makes them anew when these have changed; lines are read one at a time, and names are cut at
places counted in bytes. Main statement: however a stored program has come about, its names are clean, its short name
and its section are those of its name and body, and its body holds nothing that would be read as something else.
-/

namespace PolyExpression

open Settings

/-! ### Names -/

/-- A text of at most `limit` bytes: a longer one keeps its beginning and its last byte, with two dots between them. -/
def abbreviateAt (limit : ℕ) (text : List Char) : Except CutFault (List Char) :=
  let size := Text.byteLength text
  if size ≤ limit then return text
  else do
    let front ← LineCursor.slice text 0 (limit - 3)
    let last ← LineCursor.slice text (size - 1) size
    return front ++ ['.', '.'] ++ last

/-- What is left of a text as a program's name, cut at places. -/
def programNameAt (text : List Char) : Except CutFault (List Char) :=
  abbreviateAt programNameMax (trimSpaces (text.filter isProgramNameChar))

theorem isProgramNameChar_iff {c : Char} :
    isProgramNameChar c = true ↔ ' ' ≤ c ∧ c ≤ '~' ∧ c ≠ '[' ∧ c ≠ ']' ∧ c ≠ '\\' := by
  simp [isProgramNameChar, and_assoc]

theorem lt_of_isProgramNameChar {c : Char} (h : isProgramNameChar c = true) : c.toNat < 128 := by
  have hle : c.toNat ≤ '~'.toNat := (isProgramNameChar_iff.mp h).2.1
  exact Nat.lt_of_le_of_lt hle (by decide)

/-- Of ASCII characters each takes one place, so that no cut is a fault. -/
theorem abbreviateAt_eq (limit : ℕ) {text : List Char} (htext : ∀ c ∈ text, c.toNat < 128) :
    abbreviateAt limit text = .ok (abbreviate limit text) := by
  have hsize : Text.byteLength text = text.length := LineCursor.byteLength_of_ascii htext
  have htake : ∀ n, Text.byteLength (text.take n) = (text.take n).length :=
    fun n => LineCursor.byteLength_of_ascii fun c hc => htext c (List.mem_of_mem_take hc)
  rw [abbreviateAt, abbreviate, hsize]
  split
  · rfl
  · next hlong =>
    have hfront : LineCursor.slice text 0 (limit - 3) = .ok (text.take (limit - 3)) := by
      have hslice := LineCursor.slice_byteLength [] (text.take (limit - 3)) (text.drop (limit - 3))
      rw [List.nil_append, List.nil_append, List.take_append_drop, htake, List.length_take,
        Nat.min_eq_left (by omega)] at hslice
      exact hslice
    have hlast : LineCursor.slice text (text.length - 1) text.length = .ok (text.drop (text.length - 1)) := by
      have hslice := LineCursor.slice_byteLength (text.take (text.length - 1)) (text.drop (text.length - 1)) []
      rw [List.append_nil, List.take_append_drop, htake, List.length_take, hsize, Nat.min_eq_left (by omega)] at hslice
      exact hslice
    rw [hfront, hlast]
    rfl

theorem programNameAt_eq (text : List Char) : programNameAt text = .ok (programName text) :=
  abbreviateAt_eq programNameMax fun _ hc =>
    lt_of_isProgramNameChar (List.mem_filter.mp (mem_of_mem_trimSpaces hc)).2

theorem programName_eq {name : List Char} (h : IsProgramName name) : programName name = name := by
  rw [programName, List.filter_eq_self.mpr h.chars, trimSpaces_eq h.head?_ne h.getLast?_ne, abbreviate,
    if_pos h.length_le]

theorem abbreviate_shortNameMax (name : List Char) : abbreviate shortNameMax name =
    if name.length ≤ 7 then name else name.take 4 ++ ['.', '.'] ++ name.getLast?.toList := by
  rw [abbreviate]
  split
  · next hshort => exact (if_pos hshort).symm
  · next hlong =>
    have hne : name ≠ [] := by
      rintro rfl
      exact hlong (Nat.zero_le _)
    rw [if_neg (show ¬name.length ≤ 7 from hlong), List.drop_length_sub_one hne, List.getLast?_eq_some_getLast hne]
    rfl

/-! ### Stored programs -/

/-- A program with its short name and its section. -/
structure StoredProgram where
  name : List Char
  shortName : List Char
  defaultName : List Char
  body : List (List Char)
  text : List Char
  deriving DecidableEq

namespace StoredProgram

/-- The program without what is made of it. -/
def plain (stored : StoredProgram) : Program := ⟨stored.name, stored.defaultName, stored.body⟩

/-- Makes the short name and the section anew. -/
def refresh (stored : StoredProgram) : StoredProgram :=
  let front := header ++ lineEnd ++ nameKey ++ " = ".toList ++ stored.name ++ lineEnd
  { stored with
    shortName := abbreviate shortNameMax stored.name
    text := stored.body.foldl (fun text line => text ++ line ++ lineEnd) front }

def setName (stored : StoredProgram) (text : List Char) : StoredProgram :=
  let name := programName text
  { stored with name := if name.isEmpty then stored.defaultName else name }

/-- Reads line after line until the next header of any name; returns what is left. -/
def readLines (stored : StoredProgram) : List (List Char) → StoredProgram × List (List Char)
  | [] => (stored, [])
  | line :: rest =>
      if (sectionHeader? line).isSome then (stored, line :: rest)
      else match Program.nameIn? line with
        | some text => (stored.setName text).readLines rest
        | none => readLines { stored with body := stored.body ++ [line] } rest

/-- The lines behind the first header of the engine. -/
def behindHeader? : List (List Char) → Option (List (List Char))
  | [] => none
  | line :: rest => if isSectionStart line then some rest else behindHeader? rest

/-- Reads the first section of the engine in some lines; returns what is left. -/
def readSection (stored : StoredProgram) (lines : List (List Char)) : StoredProgram × List (List Char) :=
  match behindHeader? lines with
  | none => ({ stored with name := stored.defaultName, body := [] }, [])
  | some inside => readLines { stored with body := [] } inside

def rename (stored : StoredProgram) (text : List Char) : StoredProgram := (stored.setName text).refresh

def load (stored : StoredProgram) (text : List Char) : StoredProgram :=
  (stored.readSection (linesOf text)).1.refresh

/-- Reads the next section of a bank; returns what is left. -/
def readNext (namesOnly : Bool) (stored : StoredProgram) (lines : List (List Char)) :
    StoredProgram × List (List Char) :=
  let read := stored.readSection lines
  ((if namesOnly then { read.1 with body := [] } else read.1).refresh, read.2)

def ofText (name defaultName text : List Char) : StoredProgram :=
  let start : StoredProgram := ⟨[], [], programName defaultName, [], []⟩
  ((start.readSection (linesOf text)).1.setName name).refresh

end StoredProgram

/-- Stored programs, of which one is current. -/
structure StoredBank where
  programs : Vector StoredProgram programCount
  current : Fin programCount

namespace StoredBank

/-- The bank without what is made of its programs. -/
def plain (bank : StoredBank) : Bank := ⟨bank.programs.map StoredProgram.plain, bank.current⟩

def blankProgram (index : ℕ) : StoredProgram := .ofText [] (Bank.defaultName index) []

def initial : StoredBank where
  programs := Vector.ofFn fun index =>
    if index.val = 0 then .ofText "Default".toList (Bank.defaultName 0) header else blankProgram index.val
  current := Bank.initial.current

def readProgram (namesOnly : Bool) (state : Vector StoredProgram programCount × List (List Char))
    (index : Fin programCount) : Vector StoredProgram programCount × List (List Char) :=
  let (programs, lines) := state
  if lines.isEmpty then (programs.set index (blankProgram index.val) index.isLt, [])
  else
    let (stored, rest) := (programs.get index).readNext namesOnly lines
    (programs.set index stored index.isLt, rest)

/-- Reads all programs, or their names only, from a text. -/
def load (namesOnly : Bool) (bank : StoredBank) (text : List Char) : StoredBank :=
  { bank with
    programs := ((List.finRange programCount).foldl (readProgram namesOnly) (bank.programs, linesOf text)).1 }

/-- Puts a program in a place of the bank. -/
def put (bank : StoredBank) (index : Fin programCount) (stored : StoredProgram) : StoredBank :=
  { bank with programs := bank.programs.set index stored index.isLt }

def select (bank : StoredBank) (index : ℕ) : StoredBank :=
  { bank with current := (bank.plain.select index).current }

end StoredBank

/-! ### The program that is stored -/

namespace StoredProgram

variable (stored : StoredProgram)

theorem plain_rename (text : List Char) : (stored.rename text).plain = stored.plain.rename text := rfl

/-- Lines read one at a time are the lines up to the next header, read as those of a section. -/
theorem readLines_eq (lines : List (List Char)) :
    let read := (lines.takeWhile isInner).foldl Program.readLine { stored.plain with body := stored.body.reverse }
    (stored.readLines lines).1.plain = { read with body := read.body.reverse }
      ∧ (stored.readLines lines).2 = lines.dropWhile isInner := by
  induction lines generalizing stored with
  | nil =>
      refine ⟨?_, rfl⟩
      simp [readLines, plain]
  | cons line rest ih =>
      rw [readLines]
      cases hheader : sectionHeader? line with
      | some name =>
          have hopens : ¬isInner line = true := by simp [isInner, hheader]
          rw [List.takeWhile_cons_of_neg hopens, List.dropWhile_cons_of_neg hopens]
          simp [plain]
      | none =>
          have hinner : isInner line = true := by simp [isInner, hheader]
          rw [List.takeWhile_cons_of_pos hinner, List.dropWhile_cons_of_pos hinner, List.foldl_cons, Program.readLine_eq]
          cases Program.nameIn? line with
          | some text => exact ih (stored.setName text)
          | none =>
              have hrest := ih { stored with body := stored.body ++ [line] }
              rw [List.reverse_append] at hrest
              exact hrest

theorem behindHeader?_eq (lines : List (List Char)) :
    behindHeader? lines = (lines.dropWhile fun line => !isSectionStart line).tail? := by
  induction lines with
  | nil => rfl
  | cons line rest ih =>
      rw [behindHeader?]
      cases hstart : isSectionStart line with
      | true => rw [List.dropWhile_cons_of_neg (by simp [hstart])]; rfl
      | false => rw [List.dropWhile_cons_of_pos (by simp [hstart]), ← ih]; rfl

theorem plain_readSection (lines : List (List Char)) :
    ((stored.readSection lines).1.plain, (stored.readSection lines).2) = stored.plain.readSection lines := by
  rw [readSection, Program.readSection, behindHeader?_eq]
  cases lines.dropWhile fun line => !isSectionStart line with
  | nil => rfl
  | cons header rest =>
      obtain ⟨hprogram, hleft⟩ := readLines_eq { stored with body := [] } rest
      exact Prod.ext hprogram hleft

theorem plain_load (text : List Char) : (stored.load text).plain = stored.plain.load text :=
  congrArg Prod.fst (stored.plain_readSection (linesOf text))

@[simp] theorem plain_ofText (name defaultName text : List Char) :
    (ofText name defaultName text).plain = .ofText name defaultName text :=
  congrArg (fun read => read.1.rename name)
    (plain_readSection ⟨[], [], programName defaultName, [], []⟩ (linesOf text))

@[simp] theorem plain_readNext (namesOnly : Bool) (lines : List (List Char)) :
    (stored.readNext namesOnly lines).1.plain =
      if namesOnly then { (stored.plain.readSection lines).1 with body := [] } else (stored.plain.readSection lines).1 := by
  rw [← plain_readSection]
  cases namesOnly <;> rfl

@[simp] theorem snd_readNext (namesOnly : Bool) (lines : List (List Char)) :
    (stored.readNext namesOnly lines).2 = (stored.plain.readSection lines).2 :=
  congrArg Prod.snd (stored.plain_readSection lines)

end StoredProgram

namespace StoredBank

theorem plain_initial : initial.plain = .initial := by
  have hprograms : initial.programs.map StoredProgram.plain = Bank.initial.programs := by
    rw [initial, Bank.initial, Vector.map_ofFn]
    congr 1
    funext index
    dsimp only [Function.comp_apply]
    split <;> exact StoredProgram.plain_ofText _ _ _
  rw [plain, hprograms]
  rfl

/-- Where the reading of a bank stands, without what is made of its programs. -/
def plainState (state : Vector StoredProgram programCount × List (List Char)) :
    Vector Program programCount × List (List Char) :=
  (state.1.map StoredProgram.plain, state.2)

theorem readProgram_plain (namesOnly : Bool) (state : Vector StoredProgram programCount × List (List Char))
    (index : Fin programCount) :
    Bank.readProgram namesOnly (plainState state) index = plainState (readProgram namesOnly state index) := by
  obtain ⟨programs, lines⟩ := state
  have hprogram : (programs.map StoredProgram.plain)[index] = (programs.get index).plain := Vector.getElem_map _ index.isLt
  cases hlines : lines.isEmpty with
  | true => simp [Bank.readProgram, readProgram, plainState, hlines, Vector.map_set, blankProgram, Bank.blankProgram]
  | false => simp [Bank.readProgram, readProgram, plainState, hlines, Vector.map_set, hprogram]

theorem foldl_readProgram_plain (namesOnly : Bool) (indices : List (Fin programCount))
    (state : Vector StoredProgram programCount × List (List Char)) :
    indices.foldl (Bank.readProgram namesOnly) (plainState state) =
      plainState (indices.foldl (readProgram namesOnly) state) :=
  List.foldl_hom plainState (readProgram_plain namesOnly)

theorem plain_load (namesOnly : Bool) (bank : StoredBank) (text : List Char) :
    (bank.load namesOnly text).plain = if namesOnly then bank.plain.loadNames text else bank.plain.load text := by
  have hstart : (bank.plain.programs, linesOf text) = plainState (bank.programs, linesOf text) := rfl
  rw [Bank.load_eq, Bank.loadNames_eq, hstart, foldl_readProgram_plain, foldl_readProgram_plain]
  cases namesOnly with
  | false => simp [load, plain, plainState]
  | true => simp [load, plain, plainState]

end StoredBank

/-! ### What all stored programs are like -/

namespace StoredProgram

variable {stored : StoredProgram}

/-- Whether the short name and the section are those of the name and the body. -/
structure IsFresh (stored : StoredProgram) : Prop where
  shortName : stored.shortName = stored.plain.shortName
  text : stored.text = stored.plain.write

theorem isFresh_refresh (stored : StoredProgram) : stored.refresh.IsFresh := by
  refine ⟨rfl, ?_⟩
  show stored.body.foldl (fun text line => text ++ line ++ lineEnd) _ = (header :: _ :: stored.body).flatMap _
  rw [List.flatMap_cons, List.flatMap_cons]
  simp only [List.append_assoc, List.foldl_append_eq_append, List.flatMap_def]
  rfl

/-- What is stored of a program is fresh and its names and lines are those of a program. -/
structure IsSound (stored : StoredProgram) : Prop where
  isFresh : stored.IsFresh
  wellFormed : stored.plain.WellFormed

theorem isSound_ofText (name defaultName text : List Char) : (ofText name defaultName text).IsSound :=
  ⟨isFresh_refresh _, plain_ofText name defaultName text ▸ Program.wellFormed_ofText name defaultName text⟩

theorem IsSound.rename (h : stored.IsSound) (text : List Char) : (stored.rename text).IsSound :=
  ⟨isFresh_refresh _, Program.wellFormed_rename h.wellFormed.defaultName h.wellFormed.body text⟩

theorem IsSound.load (h : stored.IsSound) (text : List Char) : (stored.load text).IsSound :=
  ⟨isFresh_refresh _, stored.plain_load text ▸ h.wellFormed.load text⟩

theorem IsSound.readNext (h : stored.IsSound) (namesOnly : Bool) {lines : List (List Char)}
    (hlines : ∀ line ∈ lines, Text.IsLine lineMax line) : (stored.readNext namesOnly lines).1.IsSound := by
  refine ⟨isFresh_refresh _, ?_⟩
  have hread := h.wellFormed.readSection hlines
  rw [plain_readNext]
  cases namesOnly with
  | false => exact hread
  | true => exact hread.withoutBody

end StoredProgram

namespace StoredBank

variable {state : Vector StoredProgram programCount × List (List Char)}

theorem forall_get_set {P : StoredProgram → Prop} {programs : Vector StoredProgram programCount}
    (h : ∀ other : Fin programCount, P (programs.get other)) (index : Fin programCount) {stored : StoredProgram}
    (hstored : P stored) (other : Fin programCount) : P ((programs.set index stored index.isLt).get other) := by
  show P (programs.set index stored index.isLt)[other.val]
  rw [Vector.getElem_set]
  split
  · exact hstored
  · exact h other

/-- Where the reading of a bank stands: all its programs are sound, and what is left to be read are lines. -/
structure IsReading (state : Vector StoredProgram programCount × List (List Char)) : Prop where
  isSound : ∀ index : Fin programCount, (state.1.get index).IsSound
  isLine : ∀ line ∈ state.2, Text.IsLine lineMax line

theorem IsReading.readProgram (h : IsReading state) (namesOnly : Bool) (index : Fin programCount) :
    IsReading (readProgram namesOnly state index) := by
  obtain ⟨programs, lines⟩ := state
  rw [StoredBank.readProgram]
  dsimp only
  split
  · refine ⟨forall_get_set h.isSound index (StoredProgram.isSound_ofText _ _ _), fun line hline => ?_⟩
    cases hline
  · refine ⟨forall_get_set h.isSound index ((h.isSound index).readNext namesOnly h.isLine), fun line hline => ?_⟩
    rw [StoredProgram.snd_readNext] at hline
    exact h.isLine line (Program.mem_of_mem_readSection hline)

theorem IsReading.foldl (h : IsReading state) (namesOnly : Bool) (indices : List (Fin programCount)) :
    IsReading (indices.foldl (StoredBank.readProgram namesOnly) state) :=
  List.foldlRecOn indices _ h fun _ hstate index _ => hstate.readProgram namesOnly index

theorem isSound_load {bank : StoredBank} (h : ∀ index : Fin programCount, (bank.programs.get index).IsSound)
    (namesOnly : Bool) (text : List Char) (index : Fin programCount) :
    ((bank.load namesOnly text).programs.get index).IsSound := by
  have hstart : IsReading (bank.programs, linesOf text) := ⟨h, fun _ => Text.isLine_of_mem_lines (by decide)⟩
  have hread := (hstart.foldl namesOnly (List.finRange programCount)).isSound index
  simpa only [load] using hread

theorem get_initial (index : Fin programCount) : initial.programs.get index =
    if index.val = 0 then .ofText "Default".toList (Bank.defaultName 0) header else blankProgram index.val :=
  Vector.getElem_ofFn index.isLt

end StoredBank

namespace StoredProgram

/-- The programs that can be made, and changed by naming, by reading, and by reading a bank they are in, with any
texts. -/
inductive Reachable : StoredProgram → Prop
  | ofText (name defaultName text : List Char) : Reachable (.ofText name defaultName text)
  | rename {stored : StoredProgram} (h : Reachable stored) (text : List Char) : Reachable (stored.rename text)
  | load {stored : StoredProgram} (h : Reachable stored) (text : List Char) : Reachable (stored.load text)
  | inBank {bank : StoredBank} (h : ∀ index : Fin programCount, Reachable (bank.programs.get index))
      (namesOnly : Bool) (text : List Char) (index : Fin programCount) :
      Reachable ((bank.load namesOnly text).programs.get index)

theorem Reachable.isSound {stored : StoredProgram} (h : stored.Reachable) : stored.IsSound := by
  induction h with
  | ofText name defaultName text => exact isSound_ofText name defaultName text
  | rename _ text ih => exact ih.rename text
  | load _ text ih => exact ih.load text
  | inBank _ namesOnly text index ih => exact StoredBank.isSound_load ih namesOnly text index

end StoredProgram

/-- The banks that come of the initial one by reading texts, by putting programs in places, and by selecting. -/
inductive StoredBank.Reachable : StoredBank → Prop
  | initial : Reachable .initial
  | load {bank : StoredBank} (h : Reachable bank) (namesOnly : Bool) (text : List Char) :
      Reachable (bank.load namesOnly text)
  | put {bank : StoredBank} (h : Reachable bank) (index : Fin programCount) {stored : StoredProgram}
      (hstored : stored.Reachable) : Reachable (bank.put index stored)
  | select {bank : StoredBank} (h : Reachable bank) (index : ℕ) : Reachable (bank.select index)

theorem StoredBank.Reachable.program {bank : StoredBank} (h : bank.Reachable) :
    ∀ index : Fin programCount, (bank.programs.get index).Reachable := by
  induction h with
  | initial =>
      intro index
      rw [get_initial]
      split <;> exact .ofText _ _ _
  | load _ namesOnly text ih => exact .inBank ih namesOnly text
  | put _ index hstored ih => exact forall_get_set ih index hstored
  | select _ _ ih => exact ih

namespace StoredProgram

/-- What holds of every stored program. -/
structure IsKept (stored : StoredProgram) : Prop where
  name : programName stored.name = stored.name
  defaultName : programName stored.defaultName = stored.defaultName
  defaultName_eq_nil : stored.name = [] → stored.defaultName = []
  shortName : stored.shortName =
    if stored.name.length ≤ 7 then stored.name else stored.name.take 4 ++ ['.', '.'] ++ stored.name.getLast?.toList
  abbreviateAt : abbreviateAt shortNameMax stored.name = .ok stored.shortName
  text : stored.text =
    ("[mpeemulator]".toList :: ("NAME = ".toList ++ stored.name) :: stored.body).flatMap (· ++ ['\r', '\n'])
  body : ∀ line ∈ stored.body, line ≠ [] ∧ '\r' ∉ line ∧ '\n' ∉ line ∧ sectionHeader? line = none
    ∧ ∀ value, splitSetting? line ≠ some ("NAME".toList, value)

theorem IsSound.isKept {stored : StoredProgram} (h : stored.IsSound) : stored.IsKept := by
  have hname : IsProgramName stored.name := h.wellFormed.name
  refine {
    name := programName_eq hname
    defaultName := programName_eq h.wellFormed.defaultName
    defaultName_eq_nil := h.wellFormed.defaultName_eq_nil
    shortName := h.isFresh.shortName.trans (abbreviate_shortNameMax stored.name)
    abbreviateAt := ?_
    text := h.isFresh.text
    body := fun line hline => ?_ }
  · rw [h.isFresh.shortName]
    exact abbreviateAt_eq shortNameMax fun c hc => lt_of_isProgramNameChar (hname.chars c hc)
  · have hbody : Program.IsBodyLine line := h.wellFormed.body line hline
    refine ⟨hbody.isLine.ne_nil, fun hreturn => ?_, fun hfeed => ?_, Option.isNone_iff_eq_none.mp hbody.isInner,
      fun value hsplit => ?_⟩
    · exact Bool.noConfusion (hbody.isLine.isLineBreak_eq_false _ hreturn)
    · exact Bool.noConfusion (hbody.isLine.isLineBreak_eq_false _ hfeed)
    · have hnone := hbody.nameIn?_eq_none
      rw [Program.nameIn?, hsplit] at hnone
      cases hnone

/-- **Stored programs.** Cleaning makes of any text a name of at most 23 printable ASCII characters without brackets,
backslashes and blanks at its ends, without a fault, and leaves a name as it is. However a stored program has come
about, also by the reading of banks, what is stored of it belongs together; and what is done to it is done to the
program that it stores. -/
theorem clean_and_fresh :
    (∀ text, (programName text).length ≤ 23
      ∧ (∀ c ∈ programName text, ' ' ≤ c ∧ c ≤ '~' ∧ c ≠ '[' ∧ c ≠ ']' ∧ c ≠ '\\')
      ∧ (programName text).head? ≠ some ' ' ∧ (programName text).getLast? ≠ some ' '
      ∧ programName (programName text) = programName text ∧ programNameAt text = .ok (programName text))
      ∧ (∀ stored : StoredProgram, stored.Reachable → stored.IsKept ∧ stored.IsFresh)
      ∧ (∀ bank : StoredBank, bank.Reachable → ∀ index : Fin programCount, (bank.programs.get index).Reachable)
      ∧ (∀ name defaultName text, (ofText name defaultName text).plain = .ofText name defaultName text)
      ∧ (∀ (stored : StoredProgram) (text : List Char), (stored.rename text).plain = stored.plain.rename text
        ∧ (stored.load text).plain = stored.plain.load text)
      ∧ StoredBank.initial.plain = .initial
      ∧ ∀ (namesOnly : Bool) (bank : StoredBank) (text : List Char), (bank.load namesOnly text).plain =
        if namesOnly then bank.plain.loadNames text else bank.plain.load text := by
  refine ⟨fun text => ?_, fun stored h => ⟨h.isSound.isKept, h.isSound.isFresh⟩, fun bank h => h.program, plain_ofText,
    fun stored text => ⟨stored.plain_rename text, stored.plain_load text⟩, StoredBank.plain_initial,
    StoredBank.plain_load⟩
  have hname : IsProgramName (programName text) := isProgramName_programName text
  exact ⟨hname.length_le, fun c hc => isProgramNameChar_iff.mp (hname.chars c hc), hname.head?_ne, hname.getLast?_ne,
    programName_eq hname, programNameAt_eq text⟩

/-- A bank is read for its names while a program from elsewhere is in two of its places. One takes the name of the
section at its place and loses its body; the other finds lines but no section and takes its own default name. -/
theorem clean_and_fresh_foreign :
    let foreign := ofText "[Solo]".toList "Somewhere else".toList "[mpeemulator]\nA = 1\n".toList
    let text := "[mpeemulator]\nNAME =  é a name that is too long for it \nA = 1\n[y]\nB = 2\n".toList
    let bank := ((StoredBank.initial.put ⟨0, by decide⟩ foreign).put ⟨1, by decide⟩ foreign).load true text
    let first := bank.programs.get ⟨0, by decide⟩
    let second := bank.programs.get ⟨1, by decide⟩
    bank.Reachable ∧ first.IsKept ∧ first.name = "a name that is too l..t".toList ∧ first.shortName = "a na..t".toList
      ∧ first.text = "[mpeemulator]\r\nNAME = a name that is too l..t\r\n".toList
      ∧ second.IsKept ∧ second.name = "Somewhere else".toList := by
  intro foreign text bank first second
  have hforeign : foreign.Reachable := .ofText _ _ _
  have hbank : bank.Reachable := .load (.put (.put .initial _ hforeign) _ hforeign) true text
  obtain ⟨-, hkept, hprogram, -⟩ := clean_and_fresh
  exact ⟨hbank, (hkept first (hprogram bank hbank _)).1, by decide +kernel, by decide +kernel, by decide +kernel,
    (hkept second (hprogram bank hbank _)).1, by decide +kernel⟩

end StoredProgram

end PolyExpression
