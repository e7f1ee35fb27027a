import PolyExpression.Proofs.Encoding
import PolyExpression.Proofs.Settling

/-!
Settings files that are upgraded in their place. An upgrade can make a file larger than files may be, by the line ends
behind its comments, by the characters that stand for bytes that are no text, and by the settings. Main statement: it
makes a file at most three times as large and adds at most the settings; a file that has become too large is refused
the next time, and one that has not never will be.
-/

namespace PolyExpression.Settings

open LineCursor

/-! ### Comments -/

/-- A comment begins with a character of one byte, so that there is room for a line end. -/
theorem byteLength_add_two_le_room {line : List Char} (hne : line ≠ []) (h : isBlankOrComment line = true) :
    Text.byteLength line + 2 ≤ Text.room line := by
  obtain ⟨c, rest, rfl⟩ := List.exists_cons_of_ne_nil hne
  have hone : c.utf8Size = 1 := by
    cases hblank : isBlank c with
    | true => exact utf8Size_eq_one (tells_blank.lt_of_char c hblank)
    | false =>
        rw [isBlankOrComment, skipBlanks, List.dropWhile_cons_of_neg (Bool.eq_false_iff.mp hblank)] at h
        rw [eq_of_beq h]
        rfl
  have hrest := Text.byteLength_le_room rest
  rw [Text.byteLength_cons, Text.room_cons, hone]
  omega

theorem byteLength_flatMap {α : Type} (f : α → List Char) (items : List α) :
    Text.byteLength (items.flatMap f) = (items.map fun item => Text.byteLength (f item)).sum := by
  induction items with
  | nil => rfl
  | cons item items ih => rw [List.flatMap_cons, byteLength_append, List.map_cons, List.sum_cons, ih]

/-- The comments and their line ends fit into the room of the text. -/
theorem byteLength_comments_le (text : List Char) :
    Text.byteLength ((comments text).flatMap (· ++ lineEnd)) ≤ Text.room text := by
  have hline : ∀ line ∈ comments text, Text.byteLength (line ++ lineEnd) ≤ Text.room line := by
    intro line hline
    obtain ⟨hmem, hcomment⟩ := List.mem_filter.mp hline
    rw [byteLength_append]
    exact byteLength_add_two_le_room (Text.isLine_of_mem_lines (by decide) hmem).ne_nil hcomment
  calc Text.byteLength ((comments text).flatMap (· ++ lineEnd))
      = ((comments text).map fun line => Text.byteLength (line ++ lineEnd)).sum := byteLength_flatMap _ _
    _ ≤ ((comments text).map Text.room).sum := List.sum_le_sum hline
    _ ≤ ((linesOf text).map Text.room).sum := (List.filter_sublist.map _).sum_le_sum fun _ _ => Nat.zero_le _
    _ ≤ Text.room text := Text.sum_room_lines_le lineMax text

/-! ### Settings -/

/-- Room for the header and a line of every parameter. -/
def writtenMax : ℕ := 15 + 99 * 28

theorem lt_of_isNumeralChar {c : Char} (hc : Decimal.isNumeralChar c = true) : c.toNat < 128 := by
  rcases Bool.or_eq_true_iff.mp hc with hdigit | hpoint
  · exact tells_digit.lt_of_char c hdigit
  · rw [eq_of_beq hpoint]
    decide

/-- A line takes six bytes for the name, three for the sign between, seventeen for the numeral and two for its end. -/
theorem byteLength_lineOf_le {published : Published} {id : ParameterId}
    (hplain : IsPlainFraction (published.ratioOf id)) : Text.byteLength (lineOf published id) ≤ 28 := by
  obtain ⟨-, hshort, hname, -, -⟩ := id.name_spec
  obtain ⟨y, -, hchars, -, -⟩ := numeral_of_read?_numeral hplain
  obtain ⟨hlength, -⟩ := numeral_spec hplain.isFraction
  have hlimit : nameLimit = 7 := rfl
  have hsign : Text.byteLength [' ', '=', ' '] = 3 := rfl
  have hend : Text.byteLength lineEnd = 2 := rfl
  have hnumeral : Text.byteLength (numeral (published.ratioOf id)) ≤ 17 :=
    (byteLength_of_ascii fun c hc => lt_of_isNumeralChar (hchars c hc)).trans_le hlength
  have hline : settingLine published id = id.name.toList ++ ([' ', '=', ' '] ++ numeral (published.ratioOf id)) := rfl
  rw [lineOf_eq]
  split
  · exact Nat.zero_le 28
  · rw [hline, byteLength_append, byteLength_append, byteLength_append, byteLength_eq_length hname, hsign, hend]
    omega

theorem byteLength_write (published : Published) : Text.byteLength (write published) =
    15 + (ParameterId.all.map fun id => Text.byteLength (lineOf published id)).sum := by
  rw [write, byteLength_append, byteLength_flatMap]
  rfl

theorem byteLength_write_le {published : Published} (hfraction : ∀ id, IsPlainFraction (published.ratioOf id)) :
    Text.byteLength (write published) ≤ writtenMax := by
  have hlines : (ParameterId.all.map fun id => Text.byteLength (lineOf published id)).sum ≤ 99 * 28 := by
    have hsum := List.sum_le_card_nsmul (ParameterId.all.map fun id => Text.byteLength (lineOf published id)) 28
    rw [List.length_map] at hsum
    refine hsum fun size hsize => ?_
    obtain ⟨id, -, rfl⟩ := List.mem_map.mp hsize
    exact byteLength_lineOf_le (hfraction id)
  rw [byteLength_write]
  exact Nat.add_le_add_left hlines 15

/-! ### Upgraded texts -/

variable {text : List Char}

theorem byteLength_upgraded_le (text : List Char) :
    Text.byteLength (upgraded text) ≤ Text.room text + writtenMax := by
  have hfraction (id : ParameterId) : IsPlainFraction ((imported text).ratioOf id) := by
    rw [ratioOf_imported]
    exact isPlainFraction_fractionOf text id
  rw [upgraded, byteLength_append]
  exact Nat.add_le_add (byteLength_comments_le text) (byteLength_write_le hfraction)

/-- Another upgrade writes no line that is not there. -/
theorem byteLength_lineOf_upgraded_le (text : List Char) (id : ParameterId) :
    Text.byteLength (lineOf (imported (upgraded text)) id) ≤ Text.byteLength (lineOf (imported text) id) := by
  cases hsecond : isOmitted (imported (upgraded text)) id with
  | true =>
      rw [lineOf_eq, if_pos hsecond]
      exact Nat.zero_le _
  | false =>
      rw [lineOf_upgraded (hsecond.trans (isOmitted_of_upgraded hsecond).symm)]

theorem byteLength_upgraded_upgraded_le (text : List Char) :
    Text.byteLength (upgraded (upgraded text)) ≤ Text.byteLength (upgraded text) := by
  have hwrite : Text.byteLength (write (imported (upgraded text))) ≤ Text.byteLength (write (imported text)) := by
    rw [byteLength_write, byteLength_write]
    exact Nat.add_le_add_left (List.sum_le_sum fun id _ => byteLength_lineOf_upgraded_le text id) 15
  rw [upgraded, comments_upgraded, byteLength_append, upgraded, byteLength_append]
  exact Nat.add_le_add_left hwrite _

/-! ### Files -/

theorem upgradeFile_of_le {content : List UInt8} (hsize : content.length ≤ fileSizeMax) :
    upgradeFile (some content) = .ok (upgraded (Text.decodeUtf8 content)) := by
  have hread : ofFile (some content) = .ok (Text.decodeUtf8 content) := if_neg hsize.not_gt
  rw [upgradeFile, hread, ← upgrade_eq]
  rfl

theorem upgradeFile_bytes_of_le (hsize : Text.byteLength text ≤ fileSizeMax) :
    upgradeFile (some (bytes text)) = .ok (upgraded text) := by
  rw [← length_bytes] at hsize
  rw [upgradeFile_of_le hsize, Text.decodeUtf8_bytes]

theorem upgradeFile_bytes_of_lt (hsize : fileSizeMax < Text.byteLength text) :
    upgradeFile (some (bytes text)) = .error (.fileTooLarge (Text.byteLength text)) := by
  have hread : ofFile (some (bytes text)) = .error (.fileTooLarge (bytes text).length) :=
    if_pos (by rwa [length_bytes])
  rw [upgradeFile, hread, length_bytes]
  rfl

/-- The upgrade of a file takes at most three times the room of the file and that of the settings. A file that has
become too large is refused by another upgrade; any other gets no larger, and from then on stays as it is. -/
theorem upgradeFile_again {content : List UInt8} (hsize : content.length ≤ fileSizeMax) :
    ∃ once, upgradeFile (some content) = .ok once
      ∧ Text.byteLength once ≤ 3 * content.length + writtenMax
      ∧ (fileSizeMax < Text.byteLength once →
        upgradeFile (some (bytes once)) = .error (.fileTooLarge (Text.byteLength once)))
      ∧ (Text.byteLength once ≤ fileSizeMax →
        ∃ twice, upgradeFile (some (bytes once)) = .ok twice ∧ Text.byteLength twice ≤ Text.byteLength once
          ∧ upgradeFile (some (bytes twice)) = .ok twice) := by
  have hroom := Text.room_decodeUtf8_le content
  generalize htext : Text.decodeUtf8 content = text at hroom
  have honce := byteLength_upgraded_le text
  have htwice := byteLength_upgraded_upgraded_le text
  have hsettled := (upgraded_upgraded_eq_iff (upgraded text)).mpr (isOmitted_upgraded_upgraded text)
  refine ⟨upgraded text, htext ▸ upgradeFile_of_le hsize, by omega, upgradeFile_bytes_of_lt, fun hfits => ?_⟩
  refine ⟨_, upgradeFile_bytes_of_le hfits, htwice, ?_⟩
  rw [upgradeFile_bytes_of_le (htwice.trans hfits), hsettled]

/-- A comment with a byte that is no text, and a blank line without an end. -/
def garbled : List UInt8 := [0x3B, 0xFF, 0x0A, 0x20]

theorem upgradeFile_again_garbled : garbled.length ≤ fileSizeMax ∧ ∃ once twice,
    upgradeFile (some garbled) = .ok once ∧ Text.byteLength once ≤ 12 + writtenMax
      ∧ upgradeFile (some (bytes once)) = .ok twice ∧ Text.byteLength twice ≤ Text.byteLength once
      ∧ upgradeFile (some (bytes twice)) = .ok twice := by
  have hsize : garbled.length ≤ fileSizeMax := by decide
  obtain ⟨once, hfirst, honce, -, hfits⟩ := upgradeFile_again hsize
  obtain ⟨twice, hsecond, hshorter, hthird⟩ := hfits (honce.trans (by decide))
  exact ⟨hsize, once, twice, hfirst, honce, hsecond, hshorter, hthird⟩

/-! ### A file that outgrows the limit -/

/-- A line of blanks. -/
def blankLine (n : ℕ) : List Char := List.replicate n ' ' ++ lineEnd

theorem byteLength_replicate (n : ℕ) : Text.byteLength (List.replicate n ' ') = n := by
  have hascii : ∀ c ∈ List.replicate n ' ', c.toNat < 128 := by
    intro c hc
    rw [List.eq_of_mem_replicate hc]
    decide
  rw [byteLength_of_ascii hascii, List.length_replicate]

theorem byteLength_blankLine (n : ℕ) : Text.byteLength (blankLine n) = n + 2 := by
  rw [blankLine, byteLength_append, byteLength_replicate]
  rfl

theorem comments_blankLine {n : ℕ} (hpos : n ≠ 0) (hn : n ≤ lineMax) :
    comments (blankLine n) = [List.replicate n ' '] := by
  have hline : Text.IsLine lineMax (List.replicate n ' ') := by
    refine ⟨fun hnil => hpos ((List.replicate_eq_nil_iff _).mp hnil), fun c hc => ?_, ?_⟩
    · rw [List.eq_of_mem_replicate hc]
      rfl
    · rw [byteLength_replicate]
      exact hn
  have hblank : isBlankOrComment (List.replicate n ' ') = true := by
    have hskip : skipBlanks (List.replicate n ' ') = [] := by
      refine List.dropWhile_eq_nil_iff.mpr fun c hc => ?_
      rw [List.eq_of_mem_replicate hc]
      rfl
    rw [isBlankOrComment, hskip]
  have hlines : linesOf (blankLine n) = [List.replicate n ' '] := Text.lines_append hline []
  rw [comments, hlines, List.filter_cons_of_pos hblank, List.filter_nil]

/-- A header is written behind the blanks. -/
theorem le_byteLength_upgraded_blankLine {n : ℕ} (hpos : n ≠ 0) (hn : n ≤ lineMax) :
    n + 17 ≤ Text.byteLength (upgraded (blankLine n)) := by
  have hcomment : Text.byteLength ([List.replicate n ' '].flatMap (· ++ lineEnd)) = n + 2 := by
    rw [List.flatMap_singleton, ← byteLength_blankLine, blankLine]
  rw [upgraded, comments_blankLine hpos hn, byteLength_append, hcomment, byteLength_write]
  omega

/-- A file of the largest size is upgraded to one that is larger, and that is refused. -/
theorem blankLine_outgrows : (bytes (blankLine 262142)).length = fileSizeMax ∧ ∃ once,
    upgradeFile (some (bytes (blankLine 262142))) = .ok once ∧ fileSizeMax < Text.byteLength once
      ∧ upgradeFile (some (bytes once)) = .error (.fileTooLarge (Text.byteLength once)) := by
  have hmax : fileSizeMax = 262144 := rfl
  have hline : lineMax = 262143 := rfl
  have hsize := byteLength_blankLine 262142
  have honce := le_byteLength_upgraded_blankLine (n := 262142) (by omega) (by omega)
  have hlarge : fileSizeMax < Text.byteLength (upgraded (blankLine 262142)) := by omega
  refine ⟨(length_bytes _).trans hsize, upgraded (blankLine 262142), ?_, hlarge, upgradeFile_bytes_of_lt hlarge⟩
  exact upgradeFile_bytes_of_le (by omega)

end PolyExpression.Settings
