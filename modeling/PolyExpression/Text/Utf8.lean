/-!
UTF-8 decoding that accepts any bytes. A byte sequence that is no character, or the beginning of one
that breaks off, becomes one replacement character; a beginning that breaks off is replaced as a whole
and decoding goes on at the byte that broke it.
-/

namespace PolyExpression.Text

/-- The character shown in place of bytes that are no text. -/
def replacement : Char := '\uFFFD'

/-- What the first byte of a longer sequence says: its payload, how many bytes follow, and the range of
the first of them. The ranges leave out overlong forms, surrogates and what is beyond Unicode. -/
structure LeadByte where
  payload : Nat
  following : Nat
  low : UInt8
  high : UInt8

namespace LeadByte

def ofByte? (b : UInt8) : Option LeadByte :=
  if b < 0xC2 then none
  else if b < 0xE0 then some ⟨b.toNat - 0xC0, 1, 0x80, 0xBF⟩
  else if b == 0xE0 then some ⟨0, 2, 0xA0, 0xBF⟩
  else if b == 0xED then some ⟨13, 2, 0x80, 0x9F⟩
  else if b < 0xF0 then some ⟨b.toNat - 0xE0, 2, 0x80, 0xBF⟩
  else if b == 0xF0 then some ⟨0, 3, 0x90, 0xBF⟩
  else if b < 0xF4 then some ⟨b.toNat - 0xF0, 3, 0x80, 0xBF⟩
  else if b == 0xF4 then some ⟨4, 3, 0x80, 0x8F⟩
  else none

end LeadByte

/-- Reads `following` continuation bytes, the first in the given range, onto a payload. The result is
none where the sequence breaks off; the rest starts at the byte that broke it. -/
def continuation : (following payload : Nat) → (low high : UInt8) → List UInt8 → Option Nat × List UInt8
  | 0, payload, _, _, bytes => (some payload, bytes)
  | _ + 1, _, _, _, [] => (none, [])
  | following + 1, payload, low, high, b :: rest =>
      if low ≤ b && b ≤ high then
        continuation following (64 * payload + (b.toNat - 0x80)) 0x80 0xBF rest
      else (none, b :: rest)

theorem length_continuation_le (following payload : Nat) (low high : UInt8) (bytes : List UInt8) :
    (continuation following payload low high bytes).2.length ≤ bytes.length := by
  fun_induction continuation following payload low high bytes with
  | case1 => exact Nat.le_refl _
  | case2 => exact Nat.le_refl _
  | case3 _ _ _ _ _ _ _ ih => exact Nat.le_succ_of_le ih
  | case4 => exact Nat.le_refl _

/-- The character at the front of a non-empty list of bytes, and the bytes after it. -/
def decodeFirst (first : UInt8) (rest : List UInt8) : Char × List UInt8 :=
  if first < 0x80 then (Char.ofNat first.toNat, rest)
  else match LeadByte.ofByte? first with
    | none => (replacement, rest)
    | some lead =>
        match continuation lead.following lead.payload lead.low lead.high rest with
        | (some code, after) => (Char.ofNat code, after)
        | (none, after) => (replacement, after)

theorem length_decodeFirst_le (first : UInt8) (rest : List UInt8) :
    (decodeFirst first rest).2.length ≤ rest.length := by
  unfold decodeFirst
  split
  · exact Nat.le_refl _
  · split
    · exact Nat.le_refl _
    · rename_i lead _
      have h := length_continuation_le lead.following lead.payload lead.low lead.high rest
      split <;> rename_i heq <;> rw [heq] at h <;> exact h

/-- Decodes bytes in front of the characters already decoded, which are given last first. -/
def decodeOnto (decoded : List Char) : List UInt8 → List Char
  | [] => decoded.reverse
  | first :: rest => decodeOnto ((decodeFirst first rest).1 :: decoded) (decodeFirst first rest).2
termination_by bytes => bytes.length
decreasing_by exact Nat.lt_succ_of_le (length_decodeFirst_le first rest)

/-- The text of any bytes. -/
def decodeUtf8 (bytes : List UInt8) : List Char := decodeOnto [] bytes

end PolyExpression.Text
