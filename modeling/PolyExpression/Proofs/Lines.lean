import Mathlib.Data.List.Basic
import PolyExpression.Text.Lines

/-!
Lines that are written and read back. A line that is not empty, holds no line break and is not too long is found again
as it is. Main statements: the lines of a text are such lines, and reading finds exactly the lines that were written.
-/

namespace PolyExpression.Text

/-- A line that a reader with this limit leaves as it is. -/
structure IsLine (limit : ℕ) (line : List Char) : Prop where
  ne_nil : line ≠ []
  isLineBreak_eq_false : ∀ c ∈ line, isLineBreak c = false
  byteLength_le : byteLength line ≤ limit

/-- Characters of a kind that leaves out the line breaks. -/
theorem isLineBreak_eq_false_of {p : Char → Bool} (hreturn : p '\r' = false) (hfeed : p '\n' = false) {c : Char}
    (hc : p c = true) : isLineBreak c = false := by
  refine Bool.eq_false_iff.mpr fun hbreak => ?_
  rcases Bool.or_eq_true_iff.mp hbreak with h | h
  · rw [eq_of_beq h, hreturn] at hc
    exact Bool.false_ne_true hc
  · rw [eq_of_beq h, hfeed] at hc
    exact Bool.false_ne_true hc

theorem isLineBreak_eq_false_of_all {text : List Char} (h : text.all (!isLineBreak ·) = true) :
    ∀ c ∈ text, isLineBreak c = false :=
  fun c hc => Bool.not_eq_eq_eq_not.mp (List.all_eq_true.mp h c hc)

/-! ### Length -/

theorem byteLength_cons (c : Char) (text : List Char) : byteLength (c :: text) = c.utf8Size + byteLength text := by
  have hshift : ∀ n, text.foldl (fun n c => n + c.utf8Size) n = n + byteLength text := by
    unfold byteLength
    induction text with
    | nil => exact fun n => rfl
    | cons d text ih =>
        intro n
        rw [List.foldl_cons, List.foldl_cons, ih, ih (0 + d.utf8Size)]
        omega
  rw [byteLength, List.foldl_cons, hshift, Nat.zero_add]

/-- No character takes more than four bytes. -/
theorem byteLength_le_mul_length (text : List Char) : byteLength text ≤ 4 * text.length := by
  induction text with
  | nil => exact Nat.le_refl 0
  | cons c text ih =>
      have hsize : c.utf8Size ≤ 4 := c.utf8Size_le_four
      rw [byteLength_cons, List.length_cons]
      omega

/-! ### Cutting -/

theorem fitting_eq_add (limit : ℕ) (line : List Char) (count : ℕ) :
    fitting limit line count = count + fitting limit line 0 := by
  induction line generalizing limit count with
  | nil => rfl
  | cons c line ih =>
      unfold fitting
      by_cases hfits : c.utf8Size ≤ limit
      · rw [if_pos hfits, if_pos hfits, ih, ih _ (0 + 1)]
        omega
      · rw [if_neg hfits, if_neg hfits]
        rfl

theorem cut_cons (limit : ℕ) (c : Char) (line : List Char) :
    cut limit (c :: line) = if c.utf8Size ≤ limit then c :: cut (limit - c.utf8Size) line else [] := by
  unfold cut
  rw [fitting]
  by_cases hfits : c.utf8Size ≤ limit
  · rw [if_pos hfits, if_pos hfits, fitting_eq_add, Nat.zero_add, Nat.add_comm, List.take_succ_cons]
  · rw [if_neg hfits, if_neg hfits]
    rfl

theorem byteLength_cut_le (limit : ℕ) (line : List Char) : byteLength (cut limit line) ≤ limit := by
  induction line generalizing limit with
  | nil => exact Nat.zero_le limit
  | cons c line ih =>
      rw [cut_cons]
      split
      · have hrest := ih (limit - c.utf8Size)
        rw [byteLength_cons]
        omega
      · exact Nat.zero_le limit

/-- Lines that are not too long are not cut. -/
theorem cut_eq {limit : ℕ} {line : List Char} (h : byteLength line ≤ limit) : cut limit line = line := by
  induction line generalizing limit with
  | nil => rfl
  | cons c line ih =>
      rw [byteLength_cons] at h
      rw [cut_cons, if_pos (by omega), ih (by omega)]

/-- A limit that lets any character pass leaves something of every line. -/
theorem cut_ne_nil {limit : ℕ} (hlimit : 4 ≤ limit) {line : List Char} (hne : line ≠ []) : cut limit line ≠ [] := by
  obtain ⟨c, rest, rfl⟩ := List.exists_cons_of_ne_nil hne
  rw [cut_cons, if_pos (Nat.le_trans c.utf8Size_le_four hlimit)]
  exact List.cons_ne_nil c _

theorem isLine_of_mem_lines {limit : ℕ} (hlimit : 4 ≤ limit) {text line : List Char}
    (hline : line ∈ lines limit text) : IsLine limit line := by
  refine ⟨?_, fun c hc => not_isLineBreak_of_mem_lines hline hc, ?_⟩
  · obtain ⟨piece, hpiece, rfl⟩ := List.mem_map.mp hline
    exact cut_ne_nil hlimit (by simpa using (List.mem_filter.mp hpiece).2)
  · obtain ⟨piece, -, rfl⟩ := List.mem_map.mp hline
    exact byteLength_cut_le limit piece

/-! ### Writing -/

theorem split_cons (c : Char) (rest : List Char) : split (c :: rest) =
    if isLineBreak c then [] :: split rest
    else match split rest with
      | [] => [[c]]
      | piece :: pieces => (c :: piece) :: pieces := rfl

theorem split_append {line : List Char} (hline : ∀ c ∈ line, isLineBreak c = false) (rest : List Char) :
    split (line ++ '\r' :: '\n' :: rest) = line :: [] :: split rest := by
  induction line with
  | nil => rfl
  | cons c line ih =>
      have hc : isLineBreak c = false := hline c List.mem_cons_self
      rw [List.cons_append, split_cons, hc, ih fun d hd => hline d (List.mem_cons_of_mem _ hd)]
      rfl

theorem lines_append {limit : ℕ} {line : List Char} (h : IsLine limit line) (rest : List Char) :
    lines limit (line ++ '\r' :: '\n' :: rest) = line :: lines limit rest := by
  have hkept : (line :: [] :: split rest).filter (fun line => !line.isEmpty) =
      line :: (split rest).filter fun line => !line.isEmpty := by
    simp [h.ne_nil]
  unfold lines
  rw [split_append h.isLineBreak_eq_false, hkept, List.map_cons, cut_eq h.byteLength_le]

/-- Lines that are written one after the other are found again. -/
theorem lines_flatMap {limit : ℕ} {written : List (List Char)} (h : ∀ line ∈ written, IsLine limit line)
    (rest : List Char) :
    lines limit (written.flatMap (· ++ ['\r', '\n']) ++ rest) = written ++ lines limit rest := by
  induction written with
  | nil => rfl
  | cons line written ih =>
      have hline := h line List.mem_cons_self
      have hwritten := ih fun other hother => h other (List.mem_cons_of_mem _ hother)
      rw [List.flatMap_cons, List.append_assoc, List.append_assoc]
      exact (lines_append hline _).trans (congrArg (line :: ·) hwritten)

end PolyExpression.Text
