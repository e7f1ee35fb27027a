import PolyExpression.Midi.Stream
import PolyExpression.Proofs.Checked

/-!
Decoding bytes by their places in a chunk. A cursor goes through the bytes of a message, and the next message is decoded
in the slice behind it. Main statement: with every place checked, decoding comes to the end of any chunk and makes the
messages and the running status that decoding from the front makes.
-/

namespace PolyExpression.Midi

open Checked

/-- A place in a chunk of bytes. -/
structure Cursor where
  bytes : List UInt8
  next : Nat

namespace Cursor

def byteAt (bytes : List UInt8) (place : Nat) : Checked UInt8 :=
  if h : place < bytes.length then .ok bytes[place] else .error (.outOfBounds place bytes.length)

/-- The bytes from a place on. -/
def slice (bytes : List UInt8) (place : Nat) : Checked (List UInt8) :=
  if place ≤ bytes.length then .ok (bytes.drop place) else .error (.outOfBounds place bytes.length)

/-- The data byte at the cursor, if there is one, and the cursor behind it. -/
def dataByte? (cursor : Cursor) : Option (UInt8 × Cursor) :=
  match cursor.bytes[cursor.next]? with
  | none => none
  | some b => if isStatusByte b then none else some (b, { cursor with next := cursor.next + 1 })

/-- Moves the cursor past the data bytes, in as many steps as there may be. -/
def skipData : Nat → Cursor → Checked Cursor
  | bound, cursor =>
      if cursor.next < cursor.bytes.length then do
        if isStatusByte (← byteAt cursor.bytes cursor.next) then return cursor
        else match bound with
          | 0 => throw .unfinished
          | bound + 1 => skipData bound { cursor with next := cursor.next + 1 }
      else return cursor

/-- The outcome of decoding at the front of a chunk, with the number of bytes that have been consumed. -/
structure Step where
  call? : Option Call
  status : UInt8
  consumed : Nat

def decodeBody (status : UInt8) (cursor : Cursor) : Checked Step :=
  match Command.ofStatus? status with
  | none => return ⟨none, status, (← skipData cursor.bytes.length cursor).next⟩
  | some command =>
      let channel := status &&& 0x0F
      match cursor.dataByte? with
      | none => return ⟨none, status, cursor.next⟩
      | some (data1, cursor) =>
          if command.dataLength = 1 then return ⟨some (.ofData command channel data1 0), status, cursor.next⟩
          else match cursor.dataByte? with
            | none => return ⟨none, status, cursor.next⟩
            | some (data2, cursor) => return ⟨some (.ofData command channel data1 data2), status, cursor.next⟩

/-- Decodes one message at the front of a chunk, or skips what is none. -/
def decodeOne (running : UInt8) (bytes : List UInt8) : Checked Step :=
  match bytes.head? with
  | none => return ⟨none, running, 0⟩
  | some first => if isStatusByte first then decodeBody first ⟨bytes, 1⟩ else decodeBody running ⟨bytes, 0⟩

/-- The messages from a place on, after the ones already decoded, which are given last first, in as many steps as there
may be. Decoding ends early if a step consumes nothing. -/
def decodeFrom (bytes : List UInt8) : Nat → UInt8 → List Call → Nat → Checked (List Call × UInt8)
  | bound, running, calls, next =>
      if next < bytes.length then
        match bound with
        | 0 => throw .unfinished
        | bound + 1 => do
            let step ← decodeOne running (← slice bytes next)
            let calls := step.call?.elim calls (· :: calls)
            if step.consumed = 0 then return (calls.reverse, step.status)
            else decodeFrom bytes bound step.status calls (next + step.consumed)
      else return (calls.reverse, running)

def decode (running : UInt8) (bytes : List UInt8) : Checked (List Call × UInt8) :=
  decodeFrom bytes bytes.length running [] 0

/-! ### Places and what is left -/

variable {bytes : List UInt8} {next : Nat}

/-- Whether a step is the one that leaves the rest of a chunk. -/
structure Step.Leaves (step : Step) (bytes : List UInt8) (left : Stream.Step) : Prop where
  call? : step.call? = left.call?
  status : step.status = left.status
  consumed_le : step.consumed ≤ bytes.length
  rest : bytes.drop step.consumed = left.rest

theorem dataByte?_cases (bytes : List UInt8) (next : Nat) :
    (dataByte? ⟨bytes, next⟩ = none ∧ Stream.dataByte? (bytes.drop next) = none)
      ∨ ∃ b, dataByte? ⟨bytes, next⟩ = some (b, ⟨bytes, next + 1⟩)
        ∧ Stream.dataByte? (bytes.drop next) = some (b, bytes.drop (next + 1)) ∧ next < bytes.length := by
  unfold dataByte?
  by_cases hlt : next < bytes.length
  · rw [List.getElem?_eq_getElem hlt, List.drop_eq_getElem_cons hlt, Stream.dataByte?]
    dsimp only
    by_cases hstatus : isStatusByte bytes[next] = true
    · exact .inl ⟨if_pos hstatus, if_pos hstatus⟩
    · exact .inr ⟨bytes[next], if_neg hstatus, if_neg hstatus, hlt⟩
  · have hge : bytes.length ≤ next := Nat.not_lt.mp hlt
    rw [List.getElem?_eq_none hge, List.drop_eq_nil_of_le hge]
    exact .inl ⟨rfl, rfl⟩

theorem skipData_leaves (bytes : List UInt8) (bound next : Nat) (hbound : bytes.length ≤ next + bound)
    (hnext : next ≤ bytes.length) : Yields (skipData bound ⟨bytes, next⟩) fun cursor =>
      cursor.next ≤ bytes.length
        ∧ bytes.drop cursor.next = (bytes.drop next).dropWhile fun b => !isStatusByte b := by
  induction bound generalizing next with
  | zero =>
      have hend : bytes.length ≤ next := hbound
      rw [skipData, if_neg (Nat.not_lt.mpr hend), List.drop_eq_nil_of_le hend]
      exact .ok ⟨hnext, List.drop_eq_nil_of_le hend⟩
  | succ bound ih =>
      rcases Nat.lt_or_ge next bytes.length with hlt | hend
      · have hbyte : byteAt bytes next = .ok bytes[next] := dif_pos hlt
        rw [skipData, if_pos hlt, hbyte, ok_bind, List.drop_eq_getElem_cons hlt]
        by_cases hstatus : isStatusByte bytes[next] = true
        · rw [if_pos hstatus, List.dropWhile_cons_of_neg (by simp [hstatus]), ← List.drop_eq_getElem_cons hlt]
          exact .ok ⟨hnext, rfl⟩
        · rw [if_neg hstatus, List.dropWhile_cons_of_pos (by simpa using hstatus)]
          exact ih (next + 1) (by omega) hlt
      · rw [skipData, if_neg (Nat.not_lt.mpr hend), List.drop_eq_nil_of_le hend]
        exact .ok ⟨hnext, List.drop_eq_nil_of_le hend⟩

theorem decodeBody_leaves (status : UInt8) (hnext : next ≤ bytes.length) :
    Yields (decodeBody status ⟨bytes, next⟩) (·.Leaves bytes (Stream.decodeBody status (bytes.drop next))) := by
  unfold decodeBody Stream.decodeBody
  cases Command.ofStatus? status with
  | none =>
      refine (skipData_leaves bytes bytes.length next (Nat.le_add_left _ _) hnext).bind fun cursor hcursor => ?_
      exact .ok ⟨rfl, rfl, hcursor.1, hcursor.2⟩
  | some command =>
      dsimp only
      obtain ⟨hnone, hnone'⟩ | ⟨data1, hfirst, hfirst', hlt⟩ := dataByte?_cases bytes next
      · rw [hnone, hnone']
        exact .ok ⟨rfl, rfl, hnext, rfl⟩
      rw [hfirst, hfirst']
      dsimp only
      split
      · exact .ok ⟨rfl, rfl, hlt, rfl⟩
      obtain ⟨hnone, hnone'⟩ | ⟨data2, hsecond, hsecond', hlt'⟩ := dataByte?_cases bytes (next + 1)
      · rw [hnone, hnone']
        exact .ok ⟨rfl, rfl, hlt, rfl⟩
      · rw [hsecond, hsecond']
        exact .ok ⟨rfl, rfl, hlt', rfl⟩

theorem decodeOne_leaves (running first : UInt8) (rest : List UInt8) :
    Yields (decodeOne running (first :: rest)) (·.Leaves (first :: rest) (Stream.decodeFirst running first rest)) := by
  unfold decodeOne Stream.decodeFirst
  show Yields (if isStatusByte first then _ else _) _
  split
  · exact decodeBody_leaves first (Nat.succ_le_succ (Nat.zero_le _))
  · exact decodeBody_leaves running (Nat.zero_le _)

/-- Each step consumes a byte, so that there are no more steps than bytes. -/
theorem decodeFrom_eq (bytes : List UInt8) (bound : Nat) (running : UInt8) (calls : List Call) (next : Nat)
    (hbound : bytes.length ≤ next + bound) (hnext : next ≤ bytes.length) :
    decodeFrom bytes bound running calls next = .ok (Stream.decodeOnto running calls (bytes.drop next)) := by
  induction bound generalizing running calls next with
  | zero =>
      have hend : bytes.length ≤ next := hbound
      rw [decodeFrom, if_neg (Nat.not_lt.mpr hend), List.drop_eq_nil_of_le hend, Stream.decodeOnto]
      rfl
  | succ bound ih =>
      rcases Nat.lt_or_ge next bytes.length with hlt | hend
      · have hslice : slice bytes next = .ok (bytes.drop next) := if_pos hnext
        have hdrop := List.drop_eq_getElem_cons hlt
        generalize hfirst : bytes[next] = first at hdrop
        generalize hrest : bytes.drop (next + 1) = rest at hdrop
        obtain ⟨step, hstep, hcall, hstatus, hle, hleft⟩ := decodeOne_leaves running first rest
        have hconsumed : step.consumed ≠ 0 := by
          intro hzero
          have hshort := Stream.length_decodeFirst_le running first rest
          rw [← hleft, hzero, List.drop_zero, List.length_cons] at hshort
          exact Nat.not_succ_le_self _ hshort
        have hfits : next + step.consumed ≤ bytes.length := by
          rw [← hdrop, List.length_drop] at hle
          omega
        have hbehind : bytes.drop (next + step.consumed) = (Stream.decodeFirst running first rest).rest := by
          rw [← hleft, ← hdrop, List.drop_drop]
        rw [decodeFrom, if_pos hlt]
        dsimp only
        rw [hslice, ok_bind, hdrop, hstep, ok_bind, if_neg hconsumed, ih _ _ _ (by omega) hfits, hbehind,
          Stream.decodeOnto, hcall, hstatus]
      · rw [decodeFrom, if_neg (Nat.not_lt.mpr hend), List.drop_eq_nil_of_le hend, Stream.decodeOnto]
        rfl

theorem decode_eq (running : UInt8) (bytes : List UInt8) : decode running bytes = .ok (Stream.decode running bytes) :=
  decodeFrom_eq bytes bytes.length running [] 0 (Nat.le_add_left _ _) (Nat.zero_le _)

end Cursor

end PolyExpression.Midi
