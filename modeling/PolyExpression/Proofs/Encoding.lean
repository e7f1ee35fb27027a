import Mathlib.Algebra.Order.BigOperators.Group.List
import PolyExpression.Proofs.LineCursor
import PolyExpression.Text.Utf8

/-!
Text and its bytes. Main statements: a text is decoded from its own bytes; and the text of any bytes takes at most three
times their room, even if every character of one byte is given two bytes more.
-/

namespace PolyExpression.Text

open Settings.LineCursor

deriving instance DecidableEq for LeadByte

/-! ### Decoding what was encoded -/

/-- Bytes are taken from the front, those of one character at a time. -/
@[elab_as_elim]
theorem decoding_induction {P : List UInt8 → Prop} (nil : P [])
    (cons : ∀ first rest, P (decodeFirst first rest).2 → P (first :: rest)) (code : List UInt8) : P code := by
  induction hlength : code.length using Nat.strong_induction_on generalizing code with
  | _ n ih =>
    cases code with
    | nil => exact nil
    | cons first rest =>
        have hafter := length_decodeFirst_le first rest
        rw [List.length_cons] at hlength
        exact cons first rest (ih _ (by omega) _ rfl)

theorem decodeOnto_eq (decoded : List Char) (code : List UInt8) :
    decodeOnto decoded code = decoded.reverse ++ decodeUtf8 code := by
  unfold decodeUtf8
  induction code using decoding_induction generalizing decoded with
  | nil => rw [decodeOnto, decodeOnto, List.reverse_nil, List.append_nil]
  | cons first rest ih =>
      rw [decodeOnto, decodeOnto, ih, ih [_], List.reverse_cons, List.append_assoc]
      rfl

theorem decodeUtf8_cons (first : UInt8) (rest : List UInt8) :
    decodeUtf8 (first :: rest) = (decodeFirst first rest).1 :: decodeUtf8 (decodeFirst first rest).2 := by
  rw [decodeUtf8, decodeOnto, decodeOnto_eq]
  rfl

/-- A byte of six bits goes onto the payload. -/
theorem continuation_cons (following payload : ℕ) {low high : UInt8} {bits : ℕ} (hbits : bits < 64)
    (hlow : low.toNat ≤ bits + 128) (hhigh : bits + 128 ≤ high.toNat) (rest : List UInt8) :
    continuation (following + 1) payload low high (UInt8.ofNat (bits + 128) :: rest) =
      continuation following (64 * payload + bits) 0x80 0xBF rest := by
  have hbyte : (UInt8.ofNat (bits + 128)).toNat = bits + 128 :=
    UInt8.toNat_ofNat_of_lt' (show _ < 256 by omega)
  have hin : (low ≤ UInt8.ofNat (bits + 128) && UInt8.ofNat (bits + 128) ≤ high) = true := by
    rw [Bool.and_eq_true, decide_eq_true_iff, decide_eq_true_iff, UInt8.le_iff_toNat_le, UInt8.le_iff_toNat_le, hbyte]
    exact ⟨hlow, hhigh⟩
  rw [continuation, if_pos hin, hbyte, Nat.add_sub_cancel]

/-- Behind the second byte any six bits will do. -/
theorem continuation_cons_rest (following payload : ℕ) {bits : ℕ} (hbits : bits < 64) (rest : List UInt8) :
    continuation (following + 1) payload 0x80 0xBF (UInt8.ofNat (bits + 128) :: rest) =
      continuation following (64 * payload + bits) 0x80 0xBF rest := by
  have hhigh : (0xBF : UInt8).toNat = 191 := rfl
  have hlow : (0x80 : UInt8).toNat = 128 := rfl
  exact continuation_cons following payload hbits (by omega) (by omega) rest

theorem toNat_ite (p : Prop) [Decidable p] (a b : UInt8) :
    (if p then a else b).toNat = b.toNat ∨ p ∧ (if p then a else b).toNat = a.toNat := by
  split
  · next hp => exact .inr ⟨hp, rfl⟩
  · exact .inl rfl

theorem ofByte?_two : ∀ n < 32, 2 ≤ n → LeadByte.ofByte? (UInt8.ofNat (n + 192)) = some ⟨n, 1, 0x80, 0xBF⟩ := by decide

/-- After the first of three bytes overlong forms and surrogates are left out. -/
theorem ofByte?_three {n : ℕ} (hn : n < 16) :
    ∃ low high, LeadByte.ofByte? (UInt8.ofNat (n + 224)) = some ⟨n, 2, low, high⟩
      ∧ (low.toNat = 128 ∨ n = 0 ∧ low.toNat = 160) ∧ (high.toNat = 191 ∨ n = 13 ∧ high.toNat = 159) := by
  have hall : ∀ n < 16, LeadByte.ofByte? (UInt8.ofNat (n + 224)) =
      some ⟨n, 2, if n = 0 then 0xA0 else 0x80, if n = 13 then 0x9F else 0xBF⟩ := by decide
  exact ⟨_, _, hall n hn, toNat_ite _ _ _, toNat_ite _ _ _⟩

/-- After the first of four bytes overlong forms and what is beyond Unicode are left out. -/
theorem ofByte?_four {n : ℕ} (hn : n < 5) :
    ∃ low high, LeadByte.ofByte? (UInt8.ofNat (n + 240)) = some ⟨n, 3, low, high⟩
      ∧ (low.toNat = 128 ∨ n = 0 ∧ low.toNat = 144) ∧ (high.toNat = 191 ∨ n = 4 ∧ high.toNat = 143) := by
  have hall : ∀ n < 5, LeadByte.ofByte? (UInt8.ofNat (n + 240)) =
      some ⟨n, 3, if n = 0 then 0x90 else 0x80, if n = 4 then 0x8F else 0xBF⟩ := by decide
  exact ⟨_, _, hall n hn, toNat_ite _ _ _, toNat_ite _ _ _⟩

theorem decodeFirst_of_lead {first low high : UInt8} {payload following : ℕ}
    (hlead : LeadByte.ofByte? first = some ⟨payload, following, low, high⟩) {code after : List UInt8} {c : Char}
    (hread : continuation following payload low high code = (some c.toNat, after)) :
    decodeFirst first code = (c, after) := by
  have hlarge : ¬first < 0x80 := fun hsmall => by
    have hnone : LeadByte.ofByte? first = none := if_pos (UInt8.lt_trans hsmall (by decide))
    rw [hnone] at hlead
    cases hlead
  rw [decodeFirst, if_neg hlarge, hlead]
  dsimp only
  rw [hread]
  dsimp only
  rw [Char.ofNat_toNat]

/-- The first character of a text is read from its bytes, and no byte behind them. -/
theorem decodeFirst_encoded {c : Char} {first : UInt8} {tail : List UInt8} (h : String.utf8EncodeChar c = first :: tail)
    (rest : List UInt8) : decodeFirst first (tail ++ rest) = (c, rest) := by
  have hvalid : c.toNat < 55296 ∨ 57343 < c.toNat ∧ c.toNat < 1114112 := c.valid
  unfold String.utf8EncodeChar at h
  dsimp only at h
  rw [show c.val.toNat = c.toNat from rfl] at h
  -- One case for each number of bytes; every byte behind the first has six bits of the character.
  split at h
  · next hone =>
    obtain ⟨rfl, rfl⟩ := List.cons.inj h
    have hbyte : (UInt8.ofNat c.toNat).toNat = c.toNat := UInt8.toNat_ofNat_of_lt' (show _ < 256 by omega)
    have hsmall : UInt8.ofNat c.toNat < 0x80 := by
      rw [UInt8.lt_iff_toNat_lt, hbyte]
      exact Nat.lt_succ_of_le hone
    rw [decodeFirst, if_pos hsmall, hbyte, Char.ofNat_toNat]
    rfl
  · split at h
    · obtain ⟨rfl, rfl⟩ := List.cons.inj h
      refine decodeFirst_of_lead (ofByte?_two (c.toNat / 64 % 32) (by omega) (by omega)) ?_
      rw [List.cons_append, continuation_cons_rest 0 _ (by omega), continuation]
      congr 2
      omega
    · split at h
      · obtain ⟨rfl, rfl⟩ := List.cons.inj h
        obtain ⟨low, high, hlead, hlow, hhigh⟩ := ofByte?_three (n := c.toNat / 4096 % 16) (by omega)
        refine decodeFirst_of_lead hlead ?_
        rw [List.cons_append, List.cons_append, continuation_cons 1 _ (by omega) (by omega) (by omega),
          continuation_cons_rest 0 _ (by omega), continuation]
        congr 2
        omega
      · obtain ⟨rfl, rfl⟩ := List.cons.inj h
        obtain ⟨low, high, hlead, hlow, hhigh⟩ := ofByte?_four (n := c.toNat / 262144 % 8) (by omega)
        refine decodeFirst_of_lead hlead ?_
        rw [List.cons_append, List.cons_append, List.cons_append,
          continuation_cons 2 _ (by omega) (by omega) (by omega), continuation_cons_rest 1 _ (by omega),
          continuation_cons_rest 0 _ (by omega), continuation]
        congr 2
        omega

/-- A text is decoded from its own bytes. -/
theorem decodeUtf8_bytes (text : List Char) : decodeUtf8 (bytes text) = text := by
  induction text with
  | nil => rw [bytes, List.flatMap_nil, decodeUtf8, decodeOnto, List.reverse_nil]
  | cons c text ih =>
      obtain ⟨first, tail, hcode⟩ := List.exists_cons_of_ne_nil (String.utf8EncodeChar_ne_nil (c := c))
      have hbytes : bytes (c :: text) = first :: (tail ++ bytes text) := by
        rw [bytes, List.flatMap_cons, hcode]
        rfl
      rw [hbytes, decodeUtf8_cons, decodeFirst_encoded hcode, ih]

/-! ### The room of decoded text -/

/-- Bytes that a text may come to take: its own, and two more with every character of one byte. -/
def room (text : List Char) : ℕ := (text.map fun c => max 3 c.utf8Size).sum

theorem room_cons (c : Char) (text : List Char) : room (c :: text) = max 3 c.utf8Size + room text := by
  rw [room, List.map_cons, List.sum_cons]
  rfl

theorem byteLength_le_room (text : List Char) : byteLength text ≤ room text := by
  induction text with
  | nil => exact Nat.le_refl 0
  | cons c text ih =>
      rw [byteLength_cons, room_cons]
      exact Nat.add_le_add (Nat.le_max_right _ _) ih

theorem room_le_of_sublist {first second : List Char} (h : first.Sublist second) : room first ≤ room second :=
  (h.map _).sum_le_sum fun _ _ => Nat.zero_le _

theorem following_pos {first : UInt8} {lead : LeadByte} (h : LeadByte.ofByte? first = some lead) :
    0 < lead.following := by
  unfold LeadByte.ofByte? at h
  split_ifs at h
  all_goals
    obtain rfl := Option.some.inj h
    dsimp
    omega

/-- A sequence that does not break off uses up the bytes that follow. -/
theorem length_of_continuation {following payload : ℕ} {low high : UInt8} {code after : List UInt8} {n : ℕ}
    (h : continuation following payload low high code = (some n, after)) :
    code.length = following + after.length := by
  fun_induction continuation following payload low high code with
  | case1 payload low high code =>
      obtain ⟨-, rfl⟩ := Prod.mk.inj h
      rw [Nat.zero_add]
  | case2 => cases h
  | case3 low high following payload b rest hin ih =>
      rw [List.length_cons, ih h]
      omega
  | case4 => cases h

/-- A character of more than one byte uses up at least two. -/
theorem room_decodeFirst_le (first : UInt8) (rest : List UInt8) :
    max 3 (decodeFirst first rest).1.utf8Size + 3 * (decodeFirst first rest).2.length ≤ 3 * (rest.length + 1) := by
  have hreplacement : replacement.utf8Size = 3 := by decide
  unfold decodeFirst
  split
  · next hsmall =>
    have hall : ∀ n < 128, (Char.ofNat n).utf8Size = 1 := by decide
    have hone := hall first.toNat (UInt8.lt_iff_toNat_lt.mp hsmall)
    dsimp only
    omega
  · split
    · dsimp only
      omega
    · next lead hlead =>
      have hafter := length_continuation_le lead.following lead.payload lead.low lead.high rest
      split
      · next code after hread =>
        have hlength := length_of_continuation hread
        have hpos := following_pos hlead
        have hsize := (Char.ofNat code).utf8Size_le_four
        dsimp only
        omega
      · next after hread =>
        rw [hread] at hafter
        dsimp only at hafter ⊢
        omega

theorem room_decodeUtf8_le (code : List UInt8) : room (decodeUtf8 code) ≤ 3 * code.length := by
  induction code using decoding_induction with
  | nil =>
      rw [decodeUtf8, decodeOnto]
      exact Nat.zero_le _
  | cons first rest ih =>
      have hfirst := room_decodeFirst_le first rest
      rw [decodeUtf8_cons, room_cons, List.length_cons]
      omega

/-! ### The room of lines -/

/-- The pieces of a text take no more room than the text. -/
theorem sum_room_split_le (text : List Char) : ((split text).map room).sum ≤ room text := by
  induction text with
  | nil => exact Nat.le_refl 0
  | cons c text ih =>
      rw [split_cons, room_cons]
      split
      · rw [List.map_cons, List.sum_cons]
        exact (Nat.zero_add _).trans_le (ih.trans (Nat.le_add_left _ _))
      · split
        · rw [List.map_singleton, List.sum_singleton, room_cons]
          exact Nat.add_le_add_left (Nat.zero_le _) _
        · next piece pieces hsplit =>
          rw [hsplit, List.map_cons, List.sum_cons] at ih
          rw [List.map_cons, List.sum_cons, room_cons]
          omega

theorem sum_room_lines_le (limit : ℕ) (text : List Char) : ((lines limit text).map room).sum ≤ room text := by
  unfold lines
  calc (((split text).filter fun line => !line.isEmpty).map (cut limit) |>.map room).sum
      ≤ (((split text).filter fun line => !line.isEmpty).map room).sum := by
        rw [List.map_map]
        exact List.sum_le_sum fun line _ => room_le_of_sublist (List.take_sublist _ line)
    _ ≤ ((split text).map room).sum := (List.filter_sublist.map _).sum_le_sum fun _ _ => Nat.zero_le _
    _ ≤ room text := sum_room_split_le text

end PolyExpression.Text
