import PolyExpression.Proofs.Grammar
import PolyExpression.Proofs.Lines

/-!
Lines read byte by byte. A cursor stands at a place in a line, looks at one byte of UTF-8 and moves on; what it has
passed is cut out of the line by places. A cut beyond the end of the line or inside a character is a fault. Main
statement: from any line the cursor reads what the grammar says, and no cut is a fault.
-/

namespace PolyExpression.Settings

/-- What is wrong with a place at which a line is cut. -/
inductive CutFault where
  | outOfRange (place : Nat)
  | insideCharacter (place : Nat)
  deriving DecidableEq, Repr

/-- A place in a line, counted in bytes. -/
structure LineCursor where
  line : List Char
  place : Nat

namespace LineCursor

/-! ### The cursor -/

def bytes (line : List Char) : List UInt8 := line.flatMap String.utf8EncodeChar

section Steps

variable (cursor : LineCursor)

def peek? : Option UInt8 := (bytes cursor.line)[cursor.place]?

def isAtEnd : Bool := (bytes cursor.line).length ≤ cursor.place

def next : LineCursor := { cursor with place := cursor.place + 1 }

def eat? (expected : UInt8) : Option LineCursor := if cursor.peek? = some expected then some cursor.next else none

/-- How many bytes are left. -/
def left : Nat := (bytes cursor.line).length - cursor.place

theorem left_next_lt {b : UInt8} (h : cursor.peek? = some b) : cursor.next.left < cursor.left := by
  obtain ⟨hlt, -⟩ := List.getElem?_eq_some_iff.mp h
  show (bytes cursor.line).length - (cursor.place + 1) < (bytes cursor.line).length - cursor.place
  omega

end Steps

/-- Passes bytes as long as they pass a test. -/
def skipWhile (p : UInt8 → Bool) (cursor : LineCursor) : LineCursor :=
  match _ : cursor.peek? with
  | none => cursor
  | some b => if p b then skipWhile p cursor.next else cursor
termination_by cursor.left
decreasing_by exact cursor.left_next_lt ‹_›

def isBlankByte (b : UInt8) : Bool := b == 0x20 || b == 0x09

def isDigitByte (b : UInt8) : Bool := 0x30 ≤ b && b ≤ 0x39

def isLetterByte (b : UInt8) : Bool := (0x41 ≤ b && b ≤ 0x5A) || (0x61 ≤ b && b ≤ 0x7A)

def isNameByte (b : UInt8) : Bool := isLetterByte b || isDigitByte b

/-- Passes blanks, and a comment if one follows; says whether nothing is left of the line. -/
def skipBlanksOrComment (cursor : LineCursor) : Bool × LineCursor :=
  let cursor := cursor.skipWhile isBlankByte
  let cursor := if cursor.peek? = some 0x3B then { cursor with place := (bytes cursor.line).length } else cursor
  (cursor.isAtEnd, cursor)

/-- The capital letter, or the digit, that a byte stands for. -/
def upperChar (b : UInt8) : Char := Char.ofNat (if 0x61 ≤ b && b ≤ 0x7A then b - 0x20 else b).toNat

/-- Passes a name, of which some letters have been passed. It must not be too long and must not end the line. -/
def nameFrom? (name : List Char) (cursor : LineCursor) : Option (List Char × LineCursor) :=
  match _ : cursor.peek?.filter isNameByte with
  | none => if name.isEmpty then none else some (name, cursor)
  | some b =>
      let name := name ++ [upperChar b]
      if name.length = nameLimit || cursor.next.isAtEnd then none else nameFrom? name cursor.next
termination_by cursor.left
decreasing_by exact cursor.left_next_lt (Option.filter_eq_some_iff.mp ‹_›).1

/-- Passes a name and an equals sign. -/
def nameUntilValue? (cursor : LineCursor) : Option (List Char × LineCursor) :=
  let start := cursor.skipBlanksOrComment
  if start.1 then none
  else match start.2.nameFrom? [] with
    | none => none
    | some (name, cursor) =>
        let behind := cursor.skipBlanksOrComment
        if behind.1 then none else (behind.2.eat? 0x3D).map fun cursor => (name, cursor)

/-- Passes digits and a point; there must be no second one. -/
def numberEnd? (hasPoint : Bool) (cursor : LineCursor) : Option LineCursor :=
  match _ : cursor.peek? with
  | none => some cursor
  | some b =>
      if b == 0x2E then if hasPoint then none else numberEnd? true cursor.next
      else if isDigitByte b then numberEnd? hasPoint cursor.next
      else some cursor
termination_by cursor.left
decreasing_by all_goals exact cursor.left_next_lt ‹_›

/-! ### Cuts -/

/-- The characters in front of a place and those behind it. -/
def cutAt : List Char → Nat → Except CutFault (List Char × List Char)
  | text, 0 => return ([], text)
  | [], place + 1 => throw (.outOfRange (place + 1))
  | c :: rest, place + 1 =>
      if c.utf8Size ≤ place + 1 then do
        let parts ← cutAt rest (place + 1 - c.utf8Size)
        return (c :: parts.1, parts.2)
      else throw (.insideCharacter (place + 1))

/-- The characters from a place on, up to another one. -/
def slice (line : List Char) (first last : Nat) : Except CutFault (List Char) := do
  let front ← cutAt line last
  return (← cutAt front.1 first).2

def number (cursor : LineCursor) : Except CutFault (Option (Float × LineCursor)) :=
  match cursor.numberEnd? false with
  | none => return none
  | some stop => do
      let numeral ← slice cursor.line cursor.place stop.place
      return (Decimal.read? numeral).map fun number => (unitClamp number, stop)

/-! ### Lines -/

/-- The name in a section header, cut to `sectionNameMax` letters. -/
def header? (line : List Char) : Except CutFault (Option (List Char)) :=
  let start := skipBlanksOrComment ⟨line, 0⟩
  if start.1 then return none
  else match start.2.eat? 0x5B with
    | none => return none
    | some cursor =>
        let first := cursor.skipWhile isBlankByte
        let last := first.skipWhile isNameByte
        match (last.skipWhile isBlankByte).eat? 0x5D with
        | none => return none
        | some cursor =>
            if cursor.skipBlanksOrComment.1 then do
              return some (← slice line first.place (min last.place (first.place + sectionNameMax)))
            else return none

def startsSection (line : List Char) : Except CutFault Bool := do
  return (← header? line) == some sectionName

/-- The name in front of an equals sign, and what follows the sign. -/
def assignment? (line : List Char) : Except CutFault (Option (List Char × List Char)) :=
  match nameUntilValue? ⟨line, 0⟩ with
  | none => return none
  | some (name, cursor) => do
      let parts ← cutAt line cursor.place
      return some (name, parts.2)

def setting? (line : List Char) : Except CutFault (Option (List Char × Float)) :=
  match nameUntilValue? ⟨line, 0⟩ with
  | none => return none
  | some (name, cursor) =>
      let start := cursor.skipBlanksOrComment
      if start.1 then return none
      else do
        match ← start.2.number with
        | none => return none
        | some (number, cursor) => return if cursor.skipBlanksOrComment.1 then some (name, number) else none

/-! ### Characters and their bytes -/

/-- The first byte of a character. -/
def lead (c : Char) : UInt8 := (String.utf8EncodeChar c).head (String.utf8EncodeChar_ne_nil)

theorem utf8Size_eq_one {c : Char} (hc : c.toNat < 128) : c.utf8Size = 1 :=
  Char.utf8Size_eq_one_iff.mpr (UInt32.le_iff_toNat_le.mpr (Nat.le_of_lt_succ hc))

theorem lead_of_lt {c : Char} (hc : c.toNat < 128) : lead c = UInt8.ofNat c.toNat := by
  have hcode : String.utf8EncodeChar c = [UInt8.ofNat c.toNat] := if_pos (Nat.le_of_lt_succ hc)
  simp only [lead, hcode, List.head_cons]

/-- A character that is no ASCII character starts with a byte that is none either. -/
theorem le_lead {c : Char} (hc : 128 ≤ c.toNat) : 128 ≤ lead c := by
  have hfirst : ∃ n rest, String.utf8EncodeChar c = UInt8.ofNat n :: rest ∧ 128 ≤ n ∧ n < 256 := by
    unfold String.utf8EncodeChar
    dsimp only
    have hlarge : ¬c.val.toNat ≤ 127 := Nat.not_le.mpr hc
    rw [if_neg hlarge]
    split
    · exact ⟨_, _, rfl, by omega, by omega⟩
    · split
      · exact ⟨_, _, rfl, by omega, by omega⟩
      · exact ⟨_, _, rfl, by omega, by omega⟩
  obtain ⟨n, rest, hcode, hlow, hhigh⟩ := hfirst
  simp only [lead, hcode, List.head_cons]
  rw [UInt8.le_iff_toNat_le, UInt8.toNat_ofNat', Nat.mod_eq_of_lt hhigh]
  exact hlow

/-- A test of bytes and a test of characters that say the same of ASCII characters and are false of all others. -/
structure Tells (p : UInt8 → Bool) (q : Char → Bool) : Prop where
  ascii : ∀ n < 128, p (UInt8.ofNat n) = q (Char.ofNat n)
  lt_of_byte : ∀ b, p b = true → b < 128
  lt_of_char : ∀ c, q c = true → c.toNat < 128

theorem Tells.lead {p : UInt8 → Bool} {q : Char → Bool} (h : Tells p q) (c : Char) : p (lead c) = q c := by
  rcases Nat.lt_or_ge c.toNat 128 with hc | hc
  · rw [lead_of_lt hc, h.ascii _ hc, Char.ofNat_toNat]
  · have hbyte : p (LineCursor.lead c) = false := Bool.eq_false_iff.mpr fun hp =>
      absurd (h.lt_of_byte _ hp) (UInt8.not_lt.mpr (le_lead hc))
    have hchar : q c = false := Bool.eq_false_iff.mpr fun hq => absurd (h.lt_of_char c hq) (Nat.not_lt.mpr hc)
    rw [hbyte, hchar]

theorem tells_blank : Tells isBlankByte isBlank := by
  refine ⟨by decide, by decide +kernel, fun c hc => ?_⟩
  rcases isBlank_iff.mp hc with rfl | rfl <;> decide

theorem tells_name : Tells isNameByte isNameChar := by
  refine ⟨by decide, by decide +kernel, fun c hc => ?_⟩
  have hle : c.toNat ≤ 'Z'.toNat ∨ c.toNat ≤ 'z'.toNat ∨ c.toNat ≤ '9'.toNat :=
    (isNameChar_iff.mp hc).imp And.right (.imp And.right And.right)
  have hZ : 'Z'.toNat = 90 := rfl
  have hz : 'z'.toNat = 122 := rfl
  have h9 : '9'.toNat = 57 := rfl
  omega

theorem tells_digit : Tells isDigitByte Decimal.isDigit := by
  refine ⟨by decide, by decide +kernel, fun c hc => ?_⟩
  have hle : c.toNat ≤ '9'.toNat := (Decimal.isDigit_iff.mp hc).2
  have h9 : '9'.toNat = 57 := rfl
  omega

/-- An ASCII character is told by its byte. -/
theorem lead_eq_iff {c d : Char} (hd : d.toNat < 128) : lead c = lead d ↔ c = d := by
  refine ⟨fun h => ?_, fun h => h ▸ rfl⟩
  rcases Nat.lt_or_ge c.toNat 128 with hc | hc
  · rw [lead_of_lt hc, lead_of_lt hd] at h
    have hcode := congrArg UInt8.toNat h
    rw [UInt8.toNat_ofNat', UInt8.toNat_ofNat', Nat.mod_eq_of_lt (by omega), Nat.mod_eq_of_lt (by omega)] at hcode
    exact Char.toNat_inj.mp hcode
  · have hlow := UInt8.le_iff_toNat_le.mp (le_lead hc)
    rw [h, lead_of_lt hd, UInt8.toNat_ofNat', Nat.mod_eq_of_lt (by omega)] at hlow
    exact absurd hd (Nat.not_lt.mpr hlow)

/-! ### Cursors between characters -/

/-- The cursor behind the first of two parts of a line. -/
def between (before after : List Char) : LineCursor := ⟨before ++ after, Text.byteLength before⟩

variable {before after middle : List Char}

theorem length_bytes (line : List Char) : (bytes line).length = Text.byteLength line := by
  induction line with
  | nil => rfl
  | cons c line ih =>
      rw [Text.byteLength_cons, ← ih, bytes, List.flatMap_cons, List.length_append, String.length_utf8EncodeChar]
      rfl

theorem bytes_append (first second : List Char) : bytes (first ++ second) = bytes first ++ bytes second :=
  List.flatMap_append

theorem byteLength_append (first second : List Char) :
    Text.byteLength (first ++ second) = Text.byteLength first + Text.byteLength second := by
  rw [← length_bytes, ← length_bytes, ← length_bytes, bytes_append, List.length_append]

theorem start_eq (line : List Char) : (⟨line, 0⟩ : LineCursor) = between [] line := rfl

theorem peek?_between : (between before after).peek? = after.head?.map lead := by
  have hplace : (bytes (before ++ after))[Text.byteLength before]? = (bytes after)[0]? := by
    rw [← length_bytes, bytes_append, List.getElem?_append_right (Nat.le_refl _), Nat.sub_self]
  rw [peek?, between, hplace]
  cases after with
  | nil => rfl
  | cons c after =>
      obtain ⟨b, rest, hcode⟩ := List.exists_cons_of_ne_nil (String.utf8EncodeChar_ne_nil (c := c))
      simp [bytes, lead, hcode]

theorem peek?_between_eq_some_iff {c : Char} {b : UInt8} (hc : c.toNat < 128) (hb : lead c = b) :
    (between before after).peek? = some b ↔ after.head? = some c := by
  rw [peek?_between, ← hb]
  cases after with
  | nil => exact ⟨nofun, nofun⟩
  | cons d after =>
      show some (lead d) = some (lead c) ↔ some d = some c
      rw [Option.some.injEq, Option.some.injEq, lead_eq_iff hc]

theorem isAtEnd_between : (between before after).isAtEnd = after.isEmpty := by
  show decide ((bytes (before ++ after)).length ≤ Text.byteLength before) = _
  rw [length_bytes, byteLength_append]
  cases after with
  | nil => simp [Text.byteLength]
  | cons c after =>
      have hsize : 0 < c.utf8Size := c.utf8Size_pos
      rw [Text.byteLength_cons]
      exact decide_eq_false (by omega)

/-- Behind an ASCII character is the next place. -/
theorem next_between {c : Char} (hc : c.toNat < 128) :
    (between before (c :: after)).next = between (before ++ [c]) after := by
  have hlength : Text.byteLength (before ++ [c]) = Text.byteLength before + 1 := by
    rw [byteLength_append, Text.byteLength_cons, utf8Size_eq_one hc]
    rfl
  rw [between, between, next, hlength, List.append_assoc]
  rfl

theorem skipWhile_between {p : UInt8 → Bool} {q : Char → Bool} (h : Tells p q) :
    (between before after).skipWhile p = between (before ++ after.takeWhile q) (after.dropWhile q) := by
  induction after generalizing before with
  | nil =>
      rw [skipWhile, peek?_between, List.takeWhile_nil, List.append_nil]
      rfl
  | cons c after ih =>
      rw [skipWhile, peek?_between]
      show (if p (lead c) then _ else _) = _
      rw [h.lead c]
      split
      · next hc =>
        rw [next_between (h.lt_of_char c hc), ih, List.takeWhile_cons_of_pos hc, List.dropWhile_cons_of_pos hc,
          List.append_assoc]
        rfl
      · next hc =>
        rw [List.takeWhile_cons_of_neg hc, List.dropWhile_cons_of_neg hc, List.append_nil]

theorem skipBlanks_between : (between before after).skipWhile isBlankByte =
    between (before ++ after.takeWhile isBlank) (skipBlanks after) :=
  skipWhile_between tells_blank

theorem eat?_between {c : Char} {b : UInt8} (hc : c.toNat < 128) (hb : lead c = b) : (between before after).eat? b =
    if after.head? = some c then some (between (before ++ [c]) after.tail) else none := by
  unfold eat?
  by_cases hhead : after.head? = some c
  · obtain ⟨rest, rfl⟩ : ∃ rest, after = c :: rest := List.head?_eq_some_iff.mp hhead
    rw [if_pos ((peek?_between_eq_some_iff hc hb).mpr hhead), if_pos hhead, next_between hc]
    rfl
  · rw [if_neg ((peek?_between_eq_some_iff hc hb).not.mpr hhead), if_neg hhead]

theorem peek?_semicolon (before after : List Char) :
    (between before after).peek? = some 0x3B ↔ after.head? = some ';' :=
  peek?_between_eq_some_iff (by decide) rfl

theorem fst_skipBlanksOrComment : (between before after).skipBlanksOrComment.1 = isBlankOrComment after := by
  have hcomment := peek?_semicolon (before ++ after.takeWhile isBlank) (after.dropWhile isBlank)
  unfold skipBlanksOrComment isBlankOrComment skipBlanks
  dsimp only
  rw [skipWhile_between tells_blank]
  generalize after.dropWhile isBlank = rest at hcomment ⊢
  by_cases hhead : rest.head? = some ';'
  · obtain ⟨comment, rfl⟩ := List.head?_eq_some_iff.mp hhead
    rw [if_pos (hcomment.mpr hhead)]
    exact decide_eq_true (Nat.le_refl _)
  · rw [if_neg (hcomment.not.mpr hhead), isAtEnd_between]
    cases rest with
    | nil => rfl
    | cons c rest => exact (beq_eq_false_iff_ne.mpr fun hc => hhead (congrArg some hc)).symm

/-- If something is left of a line only blanks are passed. -/
theorem snd_skipBlanksOrComment (h : isBlankOrComment after = false) : (between before after).skipBlanksOrComment.2 =
    between (before ++ after.takeWhile isBlank) (skipBlanks after) := by
  have hcomment := peek?_semicolon (before ++ after.takeWhile isBlank) (after.dropWhile isBlank)
  unfold isBlankOrComment skipBlanks at h
  unfold skipBlanksOrComment skipBlanks
  dsimp only
  rw [skipWhile_between tells_blank]
  refine if_neg (hcomment.not.mpr fun hhead => ?_)
  obtain ⟨comment, hrest⟩ := List.head?_eq_some_iff.mp hhead
  rw [hrest] at h
  cases h

/-! ### Cuts between characters -/

theorem cutAt_byteLength (before after : List Char) :
    cutAt (before ++ after) (Text.byteLength before) = .ok (before, after) := by
  induction before with
  | nil => cases after <;> rfl
  | cons c before ih =>
      obtain ⟨k, hk⟩ : ∃ k, c.utf8Size + Text.byteLength before = k + 1 :=
        Nat.exists_eq_add_one.mpr (Nat.add_pos_left c.utf8Size_pos _)
      have hrest : k + 1 - c.utf8Size = Text.byteLength before := by omega
      rw [Text.byteLength_cons, hk, List.cons_append, cutAt, if_pos (by omega), hrest, ih]
      rfl

theorem slice_byteLength (before middle after : List Char) :
    slice (before ++ (middle ++ after)) (Text.byteLength before) (Text.byteLength (before ++ middle)) = .ok middle := by
  rw [slice, ← List.append_assoc, cutAt_byteLength]
  show (do return (← cutAt (before ++ middle) (Text.byteLength before)).2) = _
  rw [cutAt_byteLength]
  rfl

/-! ### Names -/

theorem upperChar_lead {c : Char} (hc : isNameChar c = true) : upperChar (lead c) = c.toUpper := by
  have hall : ∀ n < 128, upperChar (UInt8.ofNat n) = (Char.ofNat n).toUpper := by decide
  have hlt := tells_name.lt_of_char c hc
  rw [lead_of_lt hlt, hall _ hlt, Char.ofNat_toNat]

/-- A run of letters and digits becomes part of the name, unless the name gets too long or ends the line. -/
theorem nameFrom?_between (name : List Char) (hname : name.length < nameLimit) :
    nameFrom? name (between before after) =
      let run := after.takeWhile isNameChar
      let rest := after.dropWhile isNameChar
      if name ++ run = [] ∨ nameLimit ≤ (name ++ run).length ∨ run ≠ [] ∧ rest = [] then none
      else some (name ++ run.map Char.toUpper, between (before ++ run) rest) := by
  have hshort : ¬nameLimit ≤ name.length := Nat.not_le.mpr hname
  induction after generalizing before name with
  | nil =>
      rw [nameFrom?, peek?_between]
      simp [hshort]
  | cons c after ih =>
      rw [nameFrom?, peek?_between]
      cases hc : isNameChar c with
      | false =>
          have hnone : Option.filter isNameByte ((c :: after).head?.map lead) = none := by
            simp [tells_name.lead, hc]
          rw [hnone]
          simp [hc, hshort]
      | true =>
          have hsome : Option.filter isNameByte ((c :: after).head?.map lead) = some (lead c) := by
            simp [tells_name.lead, hc]
          rw [hsome]
          dsimp only
          rw [next_between (tells_name.lt_of_char c hc), isAtEnd_between, upperChar_lead hc,
            List.takeWhile_cons_of_pos hc, List.dropWhile_cons_of_pos hc]
          have hlength : (name ++ [c.toUpper]).length = name.length + 1 := List.length_append
          split
          · next hstop =>
            rw [Bool.or_eq_true, decide_eq_true_eq, List.isEmpty_iff, hlength] at hstop
            rcases hstop with hlong | rfl
            · have hlimit : nameLimit ≤ (name ++ c :: after.takeWhile isNameChar).length := by
                rw [List.length_append, List.length_cons]
                omega
              exact (if_pos (.inr (.inl hlimit))).symm
            · exact (if_pos (.inr (.inr ⟨List.cons_ne_nil _ _, rfl⟩))).symm
          · next hgoes =>
            rw [Bool.or_eq_true, decide_eq_true_eq, List.isEmpty_iff, hlength, not_or] at hgoes
            have hsplit := List.takeWhile_append_dropWhile (p := isNameChar) (l := after)
            have hrun : after.takeWhile isNameChar = [] → after.dropWhile isNameChar ≠ [] := fun hempty hend =>
              hgoes.2 (by rw [← hsplit, hempty, hend, List.append_nil])
            rw [ih _ (by omega) (by omega)]
            refine if_congr ?_ rfl ?_
            · simp only [List.append_assoc, List.singleton_append, List.append_eq_nil_iff, List.cons_ne_nil, and_false,
                List.length_append, List.length_cons, ne_eq, not_false_eq_true, true_and, false_or]
              refine or_congr_right ⟨And.right, fun hend => ⟨fun hempty => hrun hempty hend, hend⟩⟩
            · simp

/-- Where nothing but a comment is left there is no name and no numeral. -/
theorem takeWhile_skipBlanks_eq_nil {p : Char → Bool} (hp : p ';' = false) (h : isBlankOrComment after = true) :
    (skipBlanks after).takeWhile p = [] := by
  unfold isBlankOrComment at h
  cases hrest : skipBlanks after with
  | nil => rfl
  | cons c rest =>
      rw [hrest] at h
      exact List.takeWhile_cons_of_neg (by rw [eq_of_beq h, hp]; exact Bool.false_ne_true)

/-- What stands in front of the equals sign is found, and the cursor is behind the sign. -/
theorem nameUntilValue?_cases (line : List Char) :
    (splitSetting? line = none ∧ nameUntilValue? ⟨line, 0⟩ = none)
      ∨ ∃ name front value, line = front ++ value ∧ splitSetting? line = some (name, value)
        ∧ nameUntilValue? ⟨line, 0⟩ = some (name, between front value) := by
  have hline : line.takeWhile isBlank ++ skipBlanks line = line := List.takeWhile_append_dropWhile
  rw [start_eq]
  unfold nameUntilValue? splitSetting?
  dsimp only
  rw [fst_skipBlanksOrComment]
  cases hempty : isBlankOrComment line with
  | true =>
      rw [takeWhile_skipBlanks_eq_nil rfl hempty]
      exact .inl ⟨rfl, rfl⟩
  | false =>
      rw [if_neg Bool.false_ne_true, snd_skipBlanksOrComment hempty, nameFrom?_between [] (by decide)]
      have hstart := List.takeWhile_append_dropWhile (p := isNameChar) (l := skipBlanks line)
      generalize (skipBlanks line).takeWhile isNameChar = run at hstart
      generalize (skipBlanks line).dropWhile isNameChar = rest at hstart
      rw [← hstart] at hline
      dsimp only
      rw [List.nil_append, List.nil_append, List.nil_append]
      by_cases hname : run = [] ∨ nameLimit ≤ run.length
      · rw [if_pos (by simpa using hname), if_pos (hname.imp_right Or.inl)]
        exact .inl ⟨rfl, rfl⟩
      rw [if_neg (by simpa using hname)]
      by_cases hrest : rest = []
      · -- A name that ends the line is no name; there is no equals sign either.
        rw [if_pos (.inr (.inr ⟨fun hrun => hname (.inl hrun), hrest⟩)), hrest]
        exact .inl ⟨rfl, rfl⟩
      rw [if_neg (by tauto)]
      dsimp only
      rw [fst_skipBlanksOrComment]
      have hbehind : rest.takeWhile isBlank ++ skipBlanks rest = rest := List.takeWhile_append_dropWhile
      rw [← hbehind] at hline
      by_cases hsign : (skipBlanks rest).head? = some '='
      · obtain ⟨value, hvalue⟩ := List.head?_eq_some_iff.mp hsign
        have hend : isBlankOrComment rest = false := by
          unfold isBlankOrComment
          rw [hvalue]
          rfl
        rw [if_neg (Bool.eq_false_iff.mp hend), snd_skipBlanksOrComment hend,
          eat?_between (c := '=') (b := 0x3D) (by decide) rfl, if_pos hsign, hvalue]
        refine .inr ⟨_, _, value, hline.symm.trans ?_, rfl, rfl⟩
        simp [hvalue]
      · refine .inl ⟨?_, ?_⟩
        · split
          · next value hvalue => exact absurd (congrArg List.head? hvalue) hsign
          · rfl
        · split
          · rfl
          · next hend =>
            rw [snd_skipBlanksOrComment (Bool.eq_false_iff.mpr hend),
              eat?_between (c := '=') (b := 0x3D) (by decide) rfl, if_neg hsign]
            rfl

/-! ### Numbers -/

theorem numberEnd?_between (hasPoint : Bool) : numberEnd? hasPoint (between before after) =
    if (after.takeWhile Decimal.isNumeralChar).count '.' + hasPoint.toNat ≤ 1 then
      some (between (before ++ after.takeWhile Decimal.isNumeralChar) (after.dropWhile Decimal.isNumeralChar))
    else none := by
  induction after generalizing before hasPoint with
  | nil =>
      have hone : hasPoint.toNat ≤ 1 := hasPoint.toNat_le
      rw [numberEnd?, peek?_between]
      simp [hone]
  | cons c after ih =>
      have hone : hasPoint.toNat ≤ 1 := hasPoint.toNat_le
      have hpoint : lead c = 0x2E ↔ c = '.' := lead_eq_iff (d := '.') (by decide)
      rw [numberEnd?, peek?_between]
      show (if lead c == 0x2E then _ else _) = _
      rw [tells_digit.lead]
      by_cases hdot : c = '.'
      · subst hdot
        rw [if_pos (beq_iff_eq.mpr (hpoint.mpr rfl)), List.takeWhile_cons_of_pos rfl, List.dropWhile_cons_of_pos rfl,
          List.count_cons_self]
        cases hasPoint with
        | true =>
            rw [if_pos rfl, if_neg]
            show ¬_ + 1 + 1 ≤ 1
            omega
        | false =>
            rw [if_neg Bool.false_ne_true, next_between (by decide), ih, List.append_assoc]
            rfl
      · rw [if_neg (by rw [beq_iff_eq, hpoint]; exact hdot)]
        cases hdigit : Decimal.isDigit c with
        | true =>
            have hchar : Decimal.isNumeralChar c = true := Bool.or_eq_true_iff.mpr (.inl hdigit)
            rw [if_pos rfl, next_between (tells_digit.lt_of_char c hdigit), ih, List.takeWhile_cons_of_pos hchar,
              List.dropWhile_cons_of_pos hchar, List.count_cons_of_ne hdot, List.append_assoc]
            rfl
        | false =>
            have hchar : ¬Decimal.isNumeralChar c = true := by
              rw [Decimal.isNumeralChar, hdigit, Bool.false_or, beq_iff_eq]
              exact hdot
            rw [if_neg Bool.false_ne_true, List.takeWhile_cons_of_neg hchar, List.dropWhile_cons_of_neg hchar,
              List.append_nil]
            exact (if_pos (by rw [List.count_nil, Nat.zero_add]; exact hone)).symm

/-- A numeral has no second point. -/
theorem count_point_le {numeral : List Char} (hchars : ∀ c ∈ numeral, Decimal.isNumeralChar c = true) {x : Float}
    (h : Decimal.read? numeral = some x) : numeral.count '.' ≤ 1 := by
  obtain ⟨whole, fraction, hnumeral, -⟩ := (Decimal.read?_eq_some_iff hchars).mp h
  have hwhole : whole.count '.' = 0 :=
    List.count_eq_zero_of_not_mem fun hc => Bool.false_ne_true (hnumeral.isDigit_whole '.' hc)
  have hfraction : fraction.count '.' = 0 :=
    List.count_eq_zero_of_not_mem fun hc => Bool.false_ne_true (hnumeral.isDigit_fraction '.' hc)
  obtain ⟨rfl, -⟩ | rfl := hnumeral.shape
  · omega
  · rw [List.count_append, List.count_cons_self]
    omega

theorem number_between : (between before after).number = .ok
    ((Decimal.read? (after.takeWhile Decimal.isNumeralChar)).map fun number => (unitClamp number,
      between (before ++ after.takeWhile Decimal.isNumeralChar) (after.dropWhile Decimal.isNumeralChar))) := by
  have hchars : ∀ c ∈ after.takeWhile Decimal.isNumeralChar, Decimal.isNumeralChar c = true :=
    fun c hc => List.mem_takeWhile_imp hc
  have hsplit := List.takeWhile_append_dropWhile (p := Decimal.isNumeralChar) (l := after)
  unfold number
  rw [numberEnd?_between]
  generalize after.takeWhile Decimal.isNumeralChar = numeral at hchars hsplit
  generalize after.dropWhile Decimal.isNumeralChar = rest at hsplit
  by_cases hcount : numeral.count '.' ≤ 1
  · rw [if_pos (show numeral.count '.' + false.toNat ≤ 1 from hcount)]
    have hslice := slice_byteLength before numeral rest
    rw [hsplit] at hslice
    show (slice (before ++ after) (Text.byteLength before) (Text.byteLength (before ++ numeral)) >>= _) = _
    rw [hslice]
    rfl
  · have hnone : Decimal.read? numeral = none :=
      Option.eq_none_iff_forall_ne_some.mpr fun x hx => hcount (count_point_le hchars hx)
    rw [if_neg (show ¬numeral.count '.' + false.toNat ≤ 1 from hcount), hnone]
    rfl

/-! ### Lines and their grammar -/

theorem assignment?_eq (line : List Char) : assignment? line = .ok (splitSetting? line) := by
  unfold assignment?
  obtain ⟨hnone, hcursor⟩ | ⟨name, front, value, rfl, hsome, hcursor⟩ := nameUntilValue?_cases line
  · rw [hnone, hcursor]
    rfl
  · rw [hsome, hcursor]
    show (cutAt (front ++ value) (Text.byteLength front) >>= _) = _
    rw [cutAt_byteLength]
    rfl

theorem setting?_eq (line : List Char) : setting? line = .ok (Settings.setting? line) := by
  unfold setting? Settings.setting?
  obtain ⟨hnone, hcursor⟩ | ⟨name, front, value, -, hsome, hcursor⟩ := nameUntilValue?_cases line
  · rw [hnone, hcursor]
    rfl
  rw [hsome, hcursor]
  dsimp only
  rw [fst_skipBlanksOrComment]
  cases hempty : isBlankOrComment value with
  | true =>
      have hnone : Decimal.read? ((skipBlanks value).takeWhile Decimal.isNumeralChar) = none := by
        rw [takeWhile_skipBlanks_eq_nil rfl hempty]
        rfl
      rw [if_pos rfl, hnone, Option.map_none, ite_self]
      rfl
  | false =>
      rw [if_neg Bool.false_ne_true, snd_skipBlanksOrComment hempty, number_between]
      have hchars : ∀ c ∈ (skipBlanks value).takeWhile Decimal.isNumeralChar, Decimal.isNumeralChar c = true :=
        fun c hc => List.mem_takeWhile_imp hc
      cases hread : Decimal.read? ((skipBlanks value).takeWhile Decimal.isNumeralChar) with
      | none =>
          rw [Option.map_none, Option.map_none, ite_self]
          rfl
      | some number =>
          obtain ⟨whole, fraction, hnumeral, rfl⟩ := (Decimal.read?_eq_some_iff hchars).mp hread
          rw [Option.map_some, Option.map_some, ← hnumeral.isReading.unitClamp_eq]
          show Except.ok (if (between _ _).skipBlanksOrComment.1 then _ else _) = _
          rw [fst_skipBlanksOrComment]

theorem byteLength_of_ascii {text : List Char} (htext : ∀ c ∈ text, c.toNat < 128) :
    Text.byteLength text = text.length := by
  induction text with
  | nil => rfl
  | cons c text ih =>
      rw [Text.byteLength_cons, utf8Size_eq_one (htext c List.mem_cons_self),
        ih fun d hd => htext d (List.mem_cons_of_mem _ hd), List.length_cons, Nat.add_comm]

theorem byteLength_eq_length {run : List Char} (hrun : ∀ c ∈ run, isNameChar c = true) :
    Text.byteLength run = run.length :=
  byteLength_of_ascii fun c hc => tells_name.lt_of_char c (hrun c hc)

/-- A name is cut out of a line, and may be cut short. -/
theorem slice_name (front rest : List Char) {run : List Char} (hrun : ∀ c ∈ run, isNameChar c = true) (limit : ℕ) :
    slice (front ++ (run ++ rest)) (Text.byteLength front)
      (min (Text.byteLength (front ++ run)) (Text.byteLength front + limit)) = .ok (run.take limit) := by
  have hlast : min (Text.byteLength (front ++ run)) (Text.byteLength front + limit) =
      Text.byteLength (front ++ run.take limit) := by
    have htaken : Text.byteLength (run.take limit) = (run.take limit).length :=
      byteLength_eq_length fun c hc => hrun c (List.mem_of_mem_take hc)
    rw [byteLength_append, byteLength_append, byteLength_eq_length hrun, htaken, List.length_take]
    omega
  have hslice := slice_byteLength front (run.take limit) (run.drop limit ++ rest)
  rw [← List.append_assoc (run.take limit), List.take_append_drop] at hslice
  rw [hlast, hslice]

theorem header?_eq (line : List Char) : header? line = .ok (sectionHeader? line) := by
  unfold header?
  rw [start_eq]
  dsimp only
  rw [fst_skipBlanksOrComment]
  by_cases hopen : (skipBlanks line).head? = some '['
  · obtain ⟨rest, hrest⟩ := List.head?_eq_some_iff.mp hopen
    have hempty : isBlankOrComment line = false := by
      unfold isBlankOrComment
      rw [hrest]
      rfl
    -- The line, split in front of its name and behind it.
    have hline : line.takeWhile isBlank ++ ['['] ++ rest.takeWhile isBlank
        ++ ((skipBlanks rest).takeWhile isNameChar ++ (skipBlanks rest).dropWhile isNameChar) = line := by
      have hrest' : rest.takeWhile isBlank ++ skipBlanks rest = rest := List.takeWhile_append_dropWhile
      have hline' : line.takeWhile isBlank ++ skipBlanks line = line := List.takeWhile_append_dropWhile
      rw [List.takeWhile_append_dropWhile, List.append_assoc, hrest', List.append_assoc, List.singleton_append,
        ← hrest, hline']
    have hrun : ∀ c ∈ (skipBlanks rest).takeWhile isNameChar, isNameChar c = true :=
      fun c hc => List.mem_takeWhile_imp hc
    have hslice := slice_name (line.takeWhile isBlank ++ ['['] ++ rest.takeWhile isBlank)
      ((skipBlanks rest).dropWhile isNameChar) hrun sectionNameMax
    rw [hline] at hslice
    rw [sectionHeader?_of_eq hrest, if_neg (Bool.eq_false_iff.mp hempty), snd_skipBlanksOrComment hempty,
      eat?_between (c := '[') (b := 0x5B) (by decide) rfl, if_pos hopen, hrest]
    dsimp only
    rw [List.tail_cons, skipBlanks_between, skipWhile_between tells_name, skipBlanks_between,
      eat?_between (c := ']') (b := 0x5D) (by decide) rfl]
    by_cases hclose : (skipBlanks ((skipBlanks rest).dropWhile isNameChar)).head? = some ']'
    · rw [if_pos hclose]
      dsimp only
      rw [fst_skipBlanksOrComment]
      by_cases htail : isBlankOrComment (skipBlanks ((skipBlanks rest).dropWhile isNameChar)).tail = true
      · rw [if_pos htail, if_pos ⟨hclose, htail⟩]
        show (slice line (Text.byteLength _) (min (Text.byteLength _) (Text.byteLength _ + _)) >>= _) = _
        rw [List.nil_append, hslice]
        rfl
      · rw [if_neg htail, if_neg fun h => htail h.2]
        rfl
    · rw [if_neg hclose, if_neg fun h => hclose h.1]
      rfl
  · rw [sectionHeader?_of_ne hopen]
    split
    · rfl
    · next hempty =>
      rw [snd_skipBlanksOrComment (Bool.eq_false_iff.mpr hempty),
        eat?_between (c := '[') (b := 0x5B) (by decide) rfl, if_neg hopen]
      rfl

theorem startsSection_eq (line : List Char) : startsSection line = .ok (isSectionStart line) := by
  rw [startsSection, header?_eq]
  rfl

end LineCursor

/-- A line is read without a faulty cut, and what is read of it is what it looks like. -/
structure IsReadByGrammar (line : List Char) : Prop where
  setting : LineCursor.setting? line = .ok (setting? line)
  /-- The name is read in capitals, and the number as the float nearest to it, inside the unit interval. -/
  setting_iff : ∀ name ratio, setting? line = some (name, ratio) ↔
    ∃ written whole fraction, IsSetting line written whole fraction ∧ name = written.map Char.toUpper
      ∧ ratio = unitClamp (Decimal.toFloat whole fraction)
      ∧ IsNearest ratio (min (Decimal.numberOf whole fraction) 1)
  assignment : LineCursor.assignment? line = .ok (splitSetting? line)
  assignment_iff : ∀ name value, splitSetting? line = some (name, value) ↔
    ∃ written, IsAssignment line written value ∧ name = written.map Char.toUpper
  header : LineCursor.header? line = .ok (sectionHeader? line)
  header_iff : ∀ name, sectionHeader? line = some name ↔
    ∃ written, IsHeader line written ∧ name = written.take sectionNameMax
  sectionStart : LineCursor.startsSection line = .ok (isSectionStart line)
  sectionStart_iff : isSectionStart line = true ↔ IsHeader line "mpeemulator".toList

theorem isReadByGrammar (line : List Char) : IsReadByGrammar line where
  setting := LineCursor.setting?_eq line
  setting_iff name ratio := by
    rw [setting?_eq_some_iff]
    constructor
    · rintro ⟨written, whole, fraction, hsetting, hname, rfl⟩
      have ⟨_, _, _, _, _, hnumeral, _⟩ := hsetting
      exact ⟨written, whole, fraction, hsetting, hname, rfl, hnumeral.isReading.isNearest_unitClamp⟩
    · rintro ⟨written, whole, fraction, hsetting, hname, hratio, -⟩
      exact ⟨written, whole, fraction, hsetting, hname, hratio⟩
  assignment := LineCursor.assignment?_eq line
  assignment_iff _ _ := splitSetting?_eq_some_iff
  header := LineCursor.header?_eq line
  header_iff _ := sectionHeader?_eq_some_iff
  sectionStart := LineCursor.startsSection_eq line
  sectionStart_iff := isSectionStart_iff

end PolyExpression.Settings
