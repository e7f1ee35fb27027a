import PolyExpression.Engine.Run

/-!
A receiver that takes a MIDI stream byte by byte. A status byte opens a message and throws away what was pending;
data bytes are pending until their message is complete; data bytes under no status that could own them are
skipped. Main statement: decoding a chunk message by message makes the calls of this receiver, reads the chunk to
its end and keeps the last status byte.
-/

namespace PolyExpression.Midi

/-- The running status, and the data bytes that are pending, in order. -/
structure Receiver where
  status : UInt8
  pending : List UInt8

namespace Receiver

/-- The call for a status and its data bytes, if these are all the bytes that belong to it. -/
def complete? (status : UInt8) (data : List UInt8) : Option Call :=
  let channel := status % 16
  match status.toNat / 16, data with
  | 0x8, [note, velocity] => some (.noteOff channel note velocity)
  | 0x9, [note, velocity] => some (if velocity = 0 then .noteOff channel note 64 else .noteOn channel note velocity)
  | 0xA, [note, pressure] => some (.aftertouch channel note pressure)
  | 0xB, [number, value] =>
      some (if 120 ≤ number then .channelMode channel number value else .controlChange channel number value)
  | 0xC, [program] => some (.programChange channel program)
  | 0xD, [pressure] => some (.channelPressure channel pressure)
  | 0xE, [low, high] => some (.pitchBend channel (high.toNat * 128 + low.toNat).toUInt16)
  | _, _ => none

/-- Takes one byte; makes at most one call. -/
def take (receiver : Receiver) (byte : UInt8) : Receiver × Option Call :=
  if 0x80 ≤ byte then (⟨byte, []⟩, none)
  else if receiver.status < 0x80 ∨ 0xF0 ≤ receiver.status then (receiver, none)
  else
    let data := receiver.pending ++ [byte]
    match complete? receiver.status data with
    | some call => ({ receiver with pending := [] }, some call)
    | none => ({ receiver with pending := data }, none)

/-- The calls for a chunk in order, and the running status after it. -/
def hear (receiver : Receiver) : List UInt8 → List Call × UInt8
  | [] => ([], receiver.status)
  | byte :: bytes =>
      let later := (receiver.take byte).1.hear bytes
      ((receiver.take byte).2.toList ++ later.1, later.2)

variable {status byte : UInt8} {command : Command}

theorem hear_cons (receiver : Receiver) (byte : UInt8) (bytes : List UInt8) : receiver.hear (byte :: bytes) =
    ((receiver.take byte).2.toList ++ ((receiver.take byte).1.hear bytes).1, ((receiver.take byte).1.hear bytes).2) :=
  rfl

theorem hear_cons_of_take {receiver next : Receiver} {call? : Option Call} (h : receiver.take byte = (next, call?))
    (bytes : List UInt8) :
    receiver.hear (byte :: bytes) = (call?.toList ++ (next.hear bytes).1, (next.hear bytes).2) := by
  rw [hear_cons, h]

/-! ### One byte -/

theorem take_of_isStatusByte (receiver : Receiver) (h : isStatusByte byte = true) :
    receiver.take byte = (⟨byte, []⟩, none) :=
  if_pos (of_decide_eq_true h)

/-- A status byte makes what was pending before it irrelevant. -/
theorem hear_status_congr (a b : Receiver) (h : isStatusByte byte = true) (bytes : List UInt8) :
    a.hear (byte :: bytes) = b.hear (byte :: bytes) := by
  rw [hear_cons_of_take (a.take_of_isStatusByte h), hear_cons_of_take (b.take_of_isStatusByte h)]

theorem channel_eq (status : UInt8) : status &&& 0x0F = status % 16 := by
  apply UInt8.toNat.inj
  rw [UInt8.toNat_and, UInt8.toNat_mod]
  exact Nat.and_two_pow_sub_one_eq_mod status.toNat 4

/-- The high four bits of a status byte are those of its command. -/
theorem div_of_ofStatus? (h : Command.ofStatus? status = some command) :
    status.toNat / 16 = command.code.toNat / 16 := by
  unfold Command.ofStatus? at h
  split at h
  case h_8 => cases h
  all_goals
    rename_i hdiv
    cases h
    exact hdiv

/-- The statuses that own data are those from the first command's to the last one's. -/
theorem ofStatus?_eq_none_iff : Command.ofStatus? status = none ↔ status < 0x80 ∨ 0xF0 ≤ status := by
  have hlt := status.toNat_lt
  rw [UInt8.lt_iff_toNat_lt, UInt8.le_iff_toNat_le]
  constructor
  · intro h
    refine Decidable.byContradiction fun hrange => ?_
    obtain ⟨hlow, hhigh⟩ := not_or.mp hrange
    have hcases : status.toNat / 16 = 8 ∨ status.toNat / 16 = 9 ∨ status.toNat / 16 = 10 ∨ status.toNat / 16 = 11
        ∨ status.toNat / 16 = 12 ∨ status.toNat / 16 = 13 ∨ status.toNat / 16 = 14 := by
      simp only [UInt8.reduceToNat] at hlow hhigh
      omega
    rcases hcases with hdiv | hdiv | hdiv | hdiv | hdiv | hdiv | hdiv
    all_goals
      rw [Command.ofStatus?, hdiv] at h
      cases h
  · intro h
    cases hcommand : Command.ofStatus? status with
    | none => rfl
    | some command =>
        have hdiv := div_of_ofStatus? hcommand
        cases command <;> simp only [Command.code, UInt8.reduceToNat] at hdiv h <;> omega

theorem take_of_ofStatus?_eq_none (receiver : Receiver) (hstatus : Command.ofStatus? receiver.status = none)
    (hbyte : isStatusByte byte = false) : receiver.take byte = (receiver, none) := by
  unfold take
  rw [if_neg (of_decide_eq_false hbyte), if_pos (ofStatus?_eq_none_iff.mp hstatus)]

theorem take_of_ofStatus?_eq_some (receiver : Receiver) (hstatus : Command.ofStatus? receiver.status = some command)
    (hbyte : isStatusByte byte = false) : receiver.take byte =
      match complete? receiver.status (receiver.pending ++ [byte]) with
      | some call => ({ receiver with pending := [] }, some call)
      | none => ({ receiver with pending := receiver.pending ++ [byte] }, none) := by
  have hsome : ¬(receiver.status < 0x80 ∨ 0xF0 ≤ receiver.status) := fun hnone => by
    rw [ofStatus?_eq_none_iff.mpr hnone] at hstatus
    cases hstatus
  unfold take
  rw [if_neg (of_decide_eq_false hbyte), if_neg hsome]

/-! ### One message -/

theorem bend_eq {low : UInt8} (h : isStatusByte low = false) (high : UInt8) :
    (high.toNat * 128 + low.toNat).toUInt16 = high.toUInt16 <<< 7 ||| low.toUInt16 := by
  have hlow : low.toNat < 2 ^ 7 := by
    have hnot := of_decide_eq_false h
    rw [UInt8.le_iff_toNat_le] at hnot
    exact Nat.not_le.mp hnot
  have hhigh := high.toNat_lt
  apply UInt16.toNat.inj
  have hsmall : high.toNat * 2 ^ 7 < 2 ^ 16 := by omega
  rw [UInt16.toNat_or, UInt16.toNat_shiftLeft, UInt8.toNat_toUInt16, UInt8.toNat_toUInt16]
  show (high.toNat * 128 + low.toNat) % 2 ^ 16 = high.toNat <<< 7 % 2 ^ 16 ||| low.toNat
  rw [Nat.shiftLeft_eq, Nat.mod_eq_of_lt hsmall, Nat.mod_eq_of_lt (by omega), ← Nat.shiftLeft_eq,
    ← Nat.shiftLeft_add_eq_or_of_lt hlow, Nat.shiftLeft_eq]

/-- One data byte completes the commands that have one. -/
theorem complete?_one (h : Command.ofStatus? status = some command) (data : UInt8) :
    complete? status [data] =
      if command.dataLength = 1 then some (.ofData command (status &&& 0x0F) data 0) else none := by
  have hdiv := div_of_ofStatus? h
  rw [channel_eq]
  cases command <;> simp only [Command.code, UInt8.reduceToNat, Nat.reduceDiv] at hdiv <;>
    simp [complete?, hdiv, Command.dataLength, Call.ofData]

/-- Two data bytes complete the others. -/
theorem complete?_two (h : Command.ofStatus? status = some command) (hlength : command.dataLength ≠ 1)
    {first : UInt8} (hfirst : isStatusByte first = false) (second : UInt8) :
    complete? status [first, second] = some (.ofData command (status &&& 0x0F) first second) := by
  have hdiv := div_of_ofStatus? h
  rw [channel_eq]
  cases command <;> simp only [Command.code, UInt8.reduceToNat, Nat.reduceDiv] at hdiv <;>
    simp [complete?, hdiv, Command.dataLength, Call.ofData, bend_eq hfirst, defaultVelocity] at hlength ⊢
  case controlChange =>
    by_cases hmode : firstChannelMode ≤ first
    · exact (if_pos hmode).trans (if_neg (UInt8.not_lt.mpr hmode)).symm
    · exact (if_neg hmode).trans (if_pos (UInt8.not_le.mp hmode)).symm

theorem status_take_of_data (receiver : Receiver) (h : isStatusByte byte = false) :
    (receiver.take byte).1.status = receiver.status := by
  unfold take
  rw [if_neg (of_decide_eq_false h)]
  split
  · rfl
  · dsimp only
    split <;> rfl

/-- The running status is the last status byte that has come in. -/
theorem status_hear (receiver : Receiver) (bytes : List UInt8) :
    (receiver.hear bytes).2 = (bytes.filter isStatusByte).getLast?.getD receiver.status := by
  induction bytes generalizing receiver with
  | nil => rfl
  | cons byte bytes ih =>
      rw [hear_cons, ih]
      cases hbyte : isStatusByte byte with
      | true =>
          rw [take_of_isStatusByte receiver hbyte, List.filter_cons_of_pos hbyte, List.getLast?_cons]
          rfl
      | false =>
          rw [status_take_of_data receiver hbyte, List.filter_cons_of_neg (Bool.eq_false_iff.mp hbyte)]

/-- Without a status that owns them, data bytes are skipped. -/
theorem hear_dropWhile (h : Command.ofStatus? status = none) (body : List UInt8) :
    hear ⟨status, []⟩ body = hear ⟨status, []⟩ (body.dropWhile fun byte => !isStatusByte byte) := by
  induction body with
  | nil => rfl
  | cons byte body ih =>
      by_cases hbyte : isStatusByte byte = true
      · rw [List.dropWhile_cons_of_neg (by simp [hbyte])]
      · have hdata : isStatusByte byte = false := Bool.eq_false_iff.mpr hbyte
        have htake := take_of_ofStatus?_eq_none ⟨status, []⟩ h hdata
        rw [List.dropWhile_cons_of_pos (by simp [hdata]), hear_cons_of_take htake, ← ih]
        rfl

end Receiver

namespace Stream

open Receiver

variable {status : UInt8} {command : Command}

/-- A data byte at the front is a byte that is no status byte; otherwise there is none. -/
theorem dataByte?_cases (body : List UInt8) :
    (dataByte? body = none ∧ (body = [] ∨ ∃ byte rest, body = byte :: rest ∧ isStatusByte byte = true))
      ∨ ∃ byte rest, body = byte :: rest ∧ isStatusByte byte = false ∧ dataByte? body = some (byte, rest) := by
  cases body with
  | nil => exact .inl ⟨rfl, .inl rfl⟩
  | cons byte rest =>
      cases hbyte : isStatusByte byte with
      | true => exact .inl ⟨if_pos hbyte, .inr ⟨byte, rest, rfl, hbyte⟩⟩
      | false => exact .inr ⟨byte, rest, rfl, hbyte, if_neg (Bool.eq_false_iff.mp hbyte)⟩

/-- What has been heard when a step has been taken and the receiver goes on with the rest. -/
def Step.heard (step : Step) : List Call × UInt8 :=
  (step.call?.toList ++ (hear ⟨step.status, []⟩ step.rest).1, (hear ⟨step.status, []⟩ step.rest).2)

theorem hear_decodeBody (status : UInt8) (body : List UInt8) :
    hear ⟨status, []⟩ body = (decodeBody status body).heard := by
  unfold decodeBody
  cases hcommand : Command.ofStatus? status with
  | none => exact hear_dropWhile hcommand body
  | some command =>
      dsimp only
      rcases dataByte?_cases body with ⟨hnone, -⟩ | ⟨first, rest, rfl, hfirst, hsome⟩
      · rw [hnone]
        rfl
      · rw [hsome]
        dsimp only
        have htake := take_of_ofStatus?_eq_some ⟨status, []⟩ hcommand hfirst
        rw [List.nil_append, complete?_one hcommand] at htake
        by_cases hlength : command.dataLength = 1
        · rw [if_pos hlength] at htake ⊢
          exact hear_cons_of_take htake rest
        · rw [if_neg hlength] at htake ⊢
          rw [hear_cons_of_take htake]
          rcases dataByte?_cases rest with ⟨hnone, hend⟩ | ⟨second, tail, rfl, hsecond, hsome⟩
          · -- the message breaks off, so its first data byte is lost
            rw [hnone]
            rcases hend with rfl | ⟨byte, tail, rfl, hbyte⟩
            · rfl
            · rw [hear_status_congr _ ⟨status, []⟩ hbyte]
              rfl
          · have htwo := take_of_ofStatus?_eq_some ⟨status, [first]⟩ hcommand hsecond
            rw [List.singleton_append, complete?_two hcommand hlength hfirst] at htwo
            rw [hsome, hear_cons_of_take htwo]
            rfl

theorem hear_decodeFirst (running first : UInt8) (rest : List UInt8) :
    hear ⟨running, []⟩ (first :: rest) = (decodeFirst running first rest).heard := by
  unfold decodeFirst
  by_cases hfirst : isStatusByte first = true
  · rw [if_pos hfirst, hear_cons_of_take (take_of_isStatusByte _ hfirst)]
    exact hear_decodeBody first rest
  · rw [if_neg hfirst]
    exact hear_decodeBody running (first :: rest)

theorem decodeOnto_eq_hear (running : UInt8) (calls : List Call) (bytes : List UInt8) :
    decodeOnto running calls bytes =
      (calls.reverse ++ (hear ⟨running, []⟩ bytes).1, (hear ⟨running, []⟩ bytes).2) := by
  induction running, calls, bytes using decodeOnto.induct with
  | case1 running calls => simp [decodeOnto, hear]
  | case2 running calls first rest step ih =>
      rw [decodeOnto, ih, hear_decodeFirst]
      show _ = (calls.reverse ++ step.heard.1, step.heard.2)
      cases hcall : step.call? with
      | none => simp [Step.heard, hcall]
      | some call => simp [Step.heard, hcall]

theorem decode_eq_hear (running : UInt8) (bytes : List UInt8) :
    decode running bytes = hear ⟨running, []⟩ bytes :=
  decodeOnto_eq_hear running [] bytes

/-! ### How much is consumed -/

theorem dataByte?_suffix {bytes rest : List UInt8} {byte : UInt8} (h : dataByte? bytes = some (byte, rest)) :
    rest <:+ bytes := by
  rcases dataByte?_cases bytes with ⟨hnone, -⟩ | ⟨first, tail, rfl, -, hsome⟩
  · rw [hnone] at h
    cases h
  · rw [hsome] at h
    cases h
    exact List.suffix_cons byte rest

theorem decodeBody_suffix (status : UInt8) (body : List UInt8) : (decodeBody status body).rest <:+ body := by
  unfold decodeBody
  split
  · exact List.dropWhile_suffix _
  · split
    · exact List.suffix_refl body
    · rename_i hfirst
      split
      · exact dataByte?_suffix hfirst
      · split
        · exact dataByte?_suffix hfirst
        · rename_i hsecond
          exact (dataByte?_suffix hsecond).trans (dataByte?_suffix hfirst)

/-- A step leaves an end of the chunk, and not all of it. -/
theorem decodeFirst_suffix (running first : UInt8) (rest : List UInt8) :
    (decodeFirst running first rest).rest <:+ first :: rest := by
  unfold decodeFirst
  split
  · exact (decodeBody_suffix first rest).trans (List.suffix_cons first rest)
  · exact decodeBody_suffix running (first :: rest)

/-- How many bytes a step consumes of a chunk. -/
def Step.consumed (step : Step) (bytes : List UInt8) : Nat := bytes.length - step.rest.length

/-- Decodes message after message and stops at the first step that consumes nothing: the calls, the running
status, and how many bytes have been consumed. -/
def dispatch (running : UInt8) : List UInt8 → List Call × UInt8 × Nat
  | [] => ([], running, 0)
  | first :: rest =>
      let bytes := first :: rest
      let step := decodeFirst running first rest
      if step.consumed bytes = 0 then (step.call?.toList, step.status, 0)
      else
        let later := dispatch step.status (bytes.drop (step.consumed bytes))
        (step.call?.toList ++ later.1, later.2.1, step.consumed bytes + later.2.2)
termination_by bytes => bytes.length
decreasing_by
  rename_i hsome
  rw [List.length_drop]
  exact Nat.sub_lt (Nat.succ_pos _) (Nat.pos_of_ne_zero hsome)

theorem consumed_pos (running first : UInt8) (rest : List UInt8) :
    0 < (decodeFirst running first rest).consumed (first :: rest) :=
  Nat.sub_pos_of_lt (Nat.lt_succ_of_le (length_decodeFirst_le running first rest))

/-- Every step consumes something, so that a chunk is read to its end. -/
theorem dispatch_eq (running : UInt8) (bytes : List UInt8) :
    dispatch running bytes = ((hear ⟨running, []⟩ bytes).1, (hear ⟨running, []⟩ bytes).2, bytes.length) := by
  induction running, bytes using dispatch.induct with
  | case1 running => simp [dispatch, hear]
  | case2 running first rest bytes step hnone => exact absurd hnone (Nat.ne_of_gt (consumed_pos running first rest))
  | case3 running first rest bytes step hsome ih =>
      have hrest : bytes.drop (step.consumed bytes) = step.rest :=
        (List.suffix_iff_eq_drop.mp (decodeFirst_suffix running first rest)).symm
      have hlength : step.consumed bytes + step.rest.length = bytes.length :=
        Nat.sub_add_cancel (decodeFirst_suffix running first rest).length_le
      rw [hrest] at ih
      rw [dispatch, if_neg hsome, hear_decodeFirst]
      show (step.call?.toList ++ (dispatch step.status (bytes.drop (step.consumed bytes))).1,
        (dispatch step.status (bytes.drop (step.consumed bytes))).2.1,
        step.consumed bytes + (dispatch step.status (bytes.drop (step.consumed bytes))).2.2) = _
      rw [hrest, ih, hlength]
      rfl

/-- Decoding makes the calls of a receiver that takes the chunk byte by byte, consumes the whole chunk and leaves
the last status byte in it, if there is one, as the running status. So it is for the bytes an engine is given: it
carries out these calls in order, all at the time of the chunk. -/
theorem dispatch_eq_hear (running : UInt8) (bytes : List UInt8) :
    dispatch running bytes =
        ((hear ⟨running, []⟩ bytes).1, (bytes.filter isStatusByte).getLast?.getD running, bytes.length)
      ∧ decode running bytes = ((hear ⟨running, []⟩ bytes).1, (bytes.filter isStatusByte).getLast?.getD running)
      ∧ ∀ (engine : Engine) (time : Float), engine.receiveBytes time bytes =
        (hear ⟨engine.runningStatus, []⟩ bytes).1.foldl (fun engine call => engine.receive time call)
          { engine with runningStatus := (bytes.filter isStatusByte).getLast?.getD engine.runningStatus } := by
  have hstatus := fun status => status_hear ⟨status, []⟩ bytes
  have hdecode := fun status => decode_eq_hear status bytes
  refine ⟨?_, ?_, fun engine time => ?_⟩
  · rw [dispatch_eq, hstatus]
  · rw [hdecode, ← hstatus]
  · unfold Engine.receiveBytes
    dsimp only
    rw [hdecode, hstatus]

end Stream

end PolyExpression.Midi
