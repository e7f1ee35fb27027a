/-!
Text as lines. Either line break character ends a line, so that a pair of them makes an empty line;
empty lines are dropped, and an overlong line is cut between two characters. Main statements: the
lines of a text hold no line break and are not empty.
-/

namespace PolyExpression.Text

def isLineBreak (c : Char) : Bool := c == '\r' || c == '\n'

/-- The pieces of a text between its line breaks, empty ones included. -/
def split (text : List Char) : List (List Char) :=
  text.foldr (fun c pieces =>
    if isLineBreak c then [] :: pieces
    else match pieces with
      | [] => [[c]]
      | piece :: rest => (c :: piece) :: rest) [[]]

/-- How many leading characters fit into `limit` bytes of UTF-8, added to `count`. -/
def fitting (limit : Nat) : List Char → Nat → Nat
  | [], count => count
  | c :: rest, count =>
      if c.utf8Size ≤ limit then fitting (limit - c.utf8Size) rest (count + 1) else count

/-- The longest beginning of a line that takes at most `limit` bytes. -/
def cut (limit : Nat) (line : List Char) : List Char := line.take (fitting limit line 0)

/-- The non-empty lines of a text, each cut to at most `limit` bytes. -/
def lines (limit : Nat) (text : List Char) : List (List Char) :=
  ((split text).filter fun line => !line.isEmpty).map (cut limit)

/-- Length of a text in bytes of UTF-8. -/
def byteLength (text : List Char) : Nat :=
  text.foldl (fun n c => n + c.utf8Size) 0

theorem not_isLineBreak_of_mem_split {text piece : List Char} (hpiece : piece ∈ split text)
    {c : Char} (hc : c ∈ piece) : isLineBreak c = false := by
  induction text generalizing piece with
  | nil => simp_all [split]
  | cons d rest ih =>
      rw [split, List.foldr_cons] at hpiece
      change piece ∈ (if isLineBreak d then [] :: split rest else _) at hpiece
      split at hpiece
      · rcases List.mem_cons.mp hpiece with rfl | h
        · simp at hc
        · exact ih h hc
      · rename_i hd
        change piece ∈ (match split rest with
          | [] => [[d]]
          | first :: others => (d :: first) :: others) at hpiece
        split at hpiece
        · obtain rfl := List.mem_singleton.mp hpiece
          obtain rfl := List.mem_singleton.mp hc
          simpa using hd
        · rename_i first others hsplit
          rcases List.mem_cons.mp hpiece with rfl | h
          · rcases List.mem_cons.mp hc with rfl | hc
            · simpa using hd
            · exact ih (hsplit ▸ List.mem_cons_self) hc
          · exact ih (hsplit ▸ List.mem_cons_of_mem _ h) hc

theorem not_isLineBreak_of_mem_lines {limit : Nat} {text line : List Char} (hline : line ∈ lines limit text)
    {c : Char} (hc : c ∈ line) : isLineBreak c = false := by
  obtain ⟨piece, hpiece, rfl⟩ := List.mem_map.mp hline
  exact not_isLineBreak_of_mem_split (List.mem_filter.mp hpiece).1 (List.mem_of_mem_take hc)

end PolyExpression.Text
