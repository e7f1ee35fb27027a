import PolyExpression.Midi.Command

/-!
Decoding a MIDI byte stream. A status byte opens a message; while messages of one status follow each
other the status byte may be left out, so the last one seen, the running status, is part of the
decoder's state. Data bytes without a status they could belong to are skipped, and a message that
breaks off is dropped. Main statement: every step consumes at least one byte, so a chunk is always read
to its end.
-/

namespace PolyExpression.Midi

/-- A decoded message. A note started with velocity zero is a release, and the controller numbers from
`firstChannelMode` on are channel mode messages. -/
inductive Call where
  | noteOff (channel note velocity : UInt8)
  | noteOn (channel note velocity : UInt8)
  | aftertouch (channel note pressure : UInt8)
  | controlChange (channel controller value : UInt8)
  | channelMode (channel message data : UInt8)
  | programChange (channel program : UInt8)
  | channelPressure (channel pressure : UInt8)
  | pitchBend (channel : UInt8) (bend : UInt16)
  deriving DecidableEq, Repr

namespace Call

/-- The message of a command and its data bytes; commands with one data byte ignore the second. -/
def ofData (command : Command) (channel data1 data2 : UInt8) : Call :=
  match command with
  | .noteOff => .noteOff channel data1 data2
  | .noteOn => if data2 = 0 then .noteOff channel data1 defaultVelocity else .noteOn channel data1 data2
  | .aftertouch => .aftertouch channel data1 data2
  | .controlChange =>
      if data1 < firstChannelMode then .controlChange channel data1 data2 else .channelMode channel data1 data2
  | .programChange => .programChange channel data1
  | .channelPressure => .channelPressure channel data1
  | .pitchBend => .pitchBend channel (data2.toUInt16 <<< 7 ||| data1.toUInt16)

end Call

namespace Stream

/-- A data byte at the front of a chunk, and the bytes after it. -/
def dataByte? : List UInt8 → Option (UInt8 × List UInt8)
  | [] => none
  | b :: rest => if isStatusByte b then none else some (b, rest)

/-- The outcome of decoding at the front of a chunk: the message if one is complete, the running status,
and what has not been consumed. -/
structure Step where
  call? : Option Call
  status : UInt8
  rest : List UInt8

/-- Decodes the data bytes of a message whose status is known. Data that cannot belong to it is
skipped; a missing byte ends the message where it breaks off. -/
def decodeBody (status : UInt8) (body : List UInt8) : Step :=
  match Command.ofStatus? status with
  | none => ⟨none, status, body.dropWhile fun b => !isStatusByte b⟩
  | some command =>
      let channel := status &&& 0x0F
      match dataByte? body with
      | none => ⟨none, status, body⟩
      | some (data1, rest) =>
          if command.dataLength = 1 then ⟨some (.ofData command channel data1 0), status, rest⟩
          else match dataByte? rest with
            | none => ⟨none, status, rest⟩
            | some (data2, rest) => ⟨some (.ofData command channel data1 data2), status, rest⟩

/-- Decodes at the front of a non-empty chunk under a running status. -/
def decodeFirst (running first : UInt8) (rest : List UInt8) : Step :=
  if isStatusByte first then decodeBody first rest else decodeBody running (first :: rest)

/-- Decodes one message, or skips what is none. -/
def decodeOne (running : UInt8) : List UInt8 → Step
  | [] => ⟨none, running, []⟩
  | first :: rest => decodeFirst running first rest

theorem length_dataByte?_lt {bytes rest : List UInt8} {b : UInt8} (h : dataByte? bytes = some (b, rest)) :
    rest.length < bytes.length := by
  cases bytes with
  | nil => simp [dataByte?] at h
  | cons c cs =>
      simp only [dataByte?] at h
      split at h
      · simp at h
      · obtain ⟨rfl, rfl⟩ := Prod.mk.inj (Option.some.inj h)
        exact Nat.lt_succ_self _

theorem length_decodeBody_le (status : UInt8) (body : List UInt8) :
    (decodeBody status body).rest.length ≤ body.length := by
  unfold decodeBody
  split
  · exact (List.dropWhile_suffix _).length_le
  · split
    · exact Nat.le_refl _
    · rename_i h
      have h1 := length_dataByte?_lt h
      split
      · exact Nat.le_of_lt h1
      · split
        · exact Nat.le_of_lt h1
        · rename_i h'
          exact Nat.le_of_lt (Nat.lt_trans (length_dataByte?_lt h') h1)

theorem length_decodeBody_lt {running first : UInt8} (rest : List UInt8) (hfirst : isStatusByte first = false) :
    (decodeBody running (first :: rest)).rest.length < (first :: rest).length := by
  have hdata : dataByte? (first :: rest) = some (first, rest) := by simp [dataByte?, hfirst]
  unfold decodeBody
  split
  · rw [List.dropWhile_cons_of_pos (by simp [hfirst])]
    exact Nat.lt_succ_of_le (List.dropWhile_suffix _).length_le
  · simp only [hdata]
    split
    · exact Nat.lt_succ_self _
    · split
      · exact Nat.lt_succ_self _
      · rename_i h
        exact Nat.lt_succ_of_lt (length_dataByte?_lt h)

theorem length_decodeFirst_le (running first : UInt8) (rest : List UInt8) :
    (decodeFirst running first rest).rest.length ≤ rest.length := by
  unfold decodeFirst
  split
  · exact length_decodeBody_le _ _
  · rename_i h
    exact Nat.le_of_lt_succ (length_decodeBody_lt rest (by simpa using h))

/-- The messages of a chunk after the ones already decoded, which are given last first, with the running
status after the chunk. -/
def decodeOnto (running : UInt8) (calls : List Call) : List UInt8 → List Call × UInt8
  | [] => (calls.reverse, running)
  | first :: rest =>
      let step := decodeFirst running first rest
      decodeOnto step.status (step.call?.elim calls (· :: calls)) step.rest
termination_by bytes => bytes.length
decreasing_by exact Nat.lt_succ_of_le (length_decodeFirst_le running first rest)

/-- The messages of a chunk in order, and the running status after it. -/
def decode (running : UInt8) (bytes : List UInt8) : List Call × UInt8 := decodeOnto running [] bytes

end Stream

end PolyExpression.Midi
