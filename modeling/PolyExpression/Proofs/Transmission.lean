import PolyExpression.Midi.Event
import PolyExpression.Proofs.Receiver

/-!
Events sent to a decoder. An event may be sent without its status byte where this is the status of the event before
it, or the running status at the beginning. Main statement: whichever of these bytes are left out, the decoder makes
one call for each event, in order.
-/

namespace PolyExpression.Midi

theorem Command.dataLength_eq (command : Command) : command.dataLength = 1 ∨ command.dataLength = 2 := by
  cases command <;> decide

namespace Event

/-- The status byte of the event's message. -/
def status (event : Event) : UInt8 := event.command.status event.channel

/-- The event's message behind the status byte. -/
def payload (event : Event) : List UInt8 :=
  if event.command.dataLength = 2 then [dataBits event.data1, dataBits event.data2] else [dataBits event.data1]

/-- Whether the event's channel exists and its data bytes may travel as they are. -/
structure IsPlain (event : Event) : Prop where
  channel_le : event.channel ≤ 15
  data1_le : event.data1 ≤ 127
  data2_le : event.data2 ≤ 127

/-- The call that tells a receiver of the event. -/
def call (event : Event) : Call :=
  match event.command with
  | .noteOff => .noteOff event.channel event.data1 event.data2
  | .noteOn =>
      if event.data2 = 0 then .noteOff event.channel event.data1 64
      else .noteOn event.channel event.data1 event.data2
  | .aftertouch => .aftertouch event.channel event.data1 event.data2
  | .controlChange =>
      if 120 ≤ event.data1 then .channelMode event.channel event.data1 event.data2
      else .controlChange event.channel event.data1 event.data2
  | .programChange => .programChange event.channel event.data1
  | .channelPressure => .channelPressure event.channel event.data1
  | .pitchBend => .pitchBend event.channel event.bendWord

/-- The bytes that some events can be sent as under a running status. -/
inductive Sent : UInt8 → List Event → List UInt8 → Prop
  | nil (running : UInt8) : Sent running [] []
  | whole {running : UInt8} {event : Event} {events : List Event} {bytes : List UInt8}
      (later : Sent event.status events bytes) : Sent running (event :: events) (event.bytes ++ bytes)
  | bare {running : UInt8} {event : Event} {events : List Event} {bytes : List UInt8}
      (same : event.status = running) (later : Sent event.status events bytes) :
      Sent running (event :: events) (event.bytes.tail ++ bytes)

/-- The running status behind some events. -/
def lastStatus (running : UInt8) (events : List Event) : UInt8 := (events.getLast?.map status).getD running

variable {event : Event}

theorem lastStatus_cons (running : UInt8) (event : Event) (events : List Event) :
    lastStatus running (event :: events) = lastStatus event.status events := by
  rw [lastStatus, lastStatus, List.getLast?_cons]
  cases events.getLast? <;> rfl

theorem sent_flatMap_bytes (running : UInt8) (events : List Event) : Sent running events (events.flatMap bytes) := by
  induction events generalizing running with
  | nil => exact .nil running
  | cons event events ih => exact .whole (ih event.status)

theorem bytes_eq (event : Event) : event.bytes = event.status :: event.payload := by
  unfold bytes payload
  dsimp only
  split <;> rfl

/-! ### What is kept in a message -/

theorem dataBits_of_le {b : UInt8} (h : b ≤ 127) : dataBits b = b := by
  apply UInt8.toNat.inj
  rw [UInt8.le_iff_toNat_le] at h
  rw [dataBits, UInt8.toNat_and]
  exact (Nat.and_two_pow_sub_one_eq_mod b.toNat 7).trans (Nat.mod_eq_of_lt (Nat.lt_succ_of_le h))

theorem isStatusByte_dataBits (b : UInt8) : isStatusByte (dataBits b) = false := by
  refine decide_eq_false fun h => ?_
  rw [UInt8.le_iff_toNat_le, dataBits, UInt8.toNat_and] at h
  exact absurd (Nat.le_trans h Nat.and_le_right) (by decide)

theorem ofStatus?_status (event : Event) : Command.ofStatus? event.status = some event.command :=
  Command.ofStatus?_status event.command event.channel

theorem isStatusByte_status (event : Event) : isStatusByte event.status = true := by
  refine decide_eq_true (UInt8.not_lt.mp fun hlow => ?_)
  have hnone := Receiver.ofStatus?_eq_none_iff.mpr (.inl hlow)
  rw [ofStatus?_status] at hnone
  cases hnone

theorem status_channel (h : event.channel ≤ 15) : event.status &&& 0x0F = event.channel := by
  have hall : ∀ (command : Command) (n : Fin 16), command.status (UInt8.ofNat n) &&& 0x0F = UInt8.ofNat n := by
    intro command
    cases command <;> decide
  rw [UInt8.le_iff_toNat_le] at h
  have hchannel := hall event.command ⟨event.channel.toNat, Nat.lt_succ_of_le h⟩
  rwa [UInt8.ofNat_toNat] at hchannel

/-! ### One message -/

theorem dataByte?_dataBits (b : UInt8) (rest : List UInt8) :
    Stream.dataByte? (dataBits b :: rest) = some (dataBits b, rest) := by
  rw [Stream.dataByte?, isStatusByte_dataBits]
  rfl

theorem ofData_eq_call (h : event.IsPlain) (data2 : UInt8)
    (hdata2 : event.command.dataLength = 2 → data2 = event.data2) :
    Call.ofData event.command (event.status &&& 0x0F) (dataBits event.data1) data2 = event.call := by
  rw [status_channel h.channel_le, dataBits_of_le h.data1_le]
  unfold call
  cases hcommand : event.command <;> rw [hcommand] at hdata2
  case programChange | channelPressure => rfl
  all_goals obtain rfl := hdata2 rfl
  case noteOff | noteOn | aftertouch => rfl
  case controlChange =>
    by_cases hmode : firstChannelMode ≤ event.data1
    · exact (if_neg (UInt8.not_lt.mpr hmode)).trans (if_pos hmode).symm
    · exact (if_pos (UInt8.not_le.mp hmode)).trans (if_neg hmode).symm
  case pitchBend =>
    unfold Call.ofData bendWord
    rw [dataBits_of_le h.data1_le, dataBits_of_le h.data2_le]

/-- Behind its status byte an event is read as its call and to its end. -/
theorem decodeBody_payload (h : event.IsPlain) (rest : List UInt8) :
    Stream.decodeBody event.status (event.payload ++ rest) = ⟨some event.call, event.status, rest⟩ := by
  unfold Stream.decodeBody payload
  rw [ofStatus?_status]
  dsimp only
  rcases event.command.dataLength_eq with hlength | hlength
  · have hcall := ofData_eq_call h 0 fun htwo => by omega
    rw [if_neg (by omega), List.singleton_append, dataByte?_dataBits]
    dsimp only
    rw [if_pos hlength, hcall]
  · have hcall := ofData_eq_call h (dataBits event.data2) fun _ => dataBits_of_le h.data2_le
    rw [if_pos hlength, List.cons_append, List.singleton_append, dataByte?_dataBits]
    dsimp only
    rw [if_neg (by omega), dataByte?_dataBits]
    dsimp only
    rw [hcall]

theorem hear_payload (h : event.IsPlain) (rest : List UInt8) :
    Receiver.hear ⟨event.status, []⟩ (event.payload ++ rest) =
      (event.call :: (Receiver.hear ⟨event.status, []⟩ rest).1, (Receiver.hear ⟨event.status, []⟩ rest).2) := by
  rw [Stream.hear_decodeBody, decodeBody_payload h]
  rfl

theorem hear_bytes (receiver : Receiver) (event : Event) (rest : List UInt8) :
    receiver.hear (event.bytes ++ rest) = Receiver.hear ⟨event.status, []⟩ (event.payload ++ rest) := by
  have htake := receiver.take_of_isStatusByte (isStatusByte_status event)
  rw [bytes_eq, List.cons_append, Receiver.hear_cons_of_take htake]
  rfl

/-! ### Many messages -/

theorem hear_sent {running : UInt8} {events : List Event} {bytes : List UInt8} (hsent : Sent running events bytes)
    (h : ∀ event ∈ events, event.IsPlain) :
    Receiver.hear ⟨running, []⟩ bytes = (events.map call, lastStatus running events) := by
  induction hsent with
  | nil running => rfl
  | @whole running event events bytes later ih =>
      have hlater := ih fun other hother => h other (List.mem_cons_of_mem _ hother)
      have hevent := h event List.mem_cons_self
      rw [hear_bytes, hear_payload hevent, hlater, lastStatus_cons]
      rfl
  | @bare running event events bytes same later ih =>
      have hlater := ih fun other hother => h other (List.mem_cons_of_mem _ hother)
      have hevent := h event List.mem_cons_self
      rw [← same, bytes_eq, List.tail_cons, hear_payload hevent, hlater, lastStatus_cons]
      rfl

end Event

namespace Stream

/-- From the messages of some events, sent one after the other, exactly one call for each event is decoded, in order.
It is the same when status bytes that equal the running status are left out. An engine that is given the bytes at some
time carries out these calls, all at this time. -/
theorem decode_bytes_of_events (events : List Event) (h : ∀ event ∈ events, event.IsPlain) (running : UInt8) :
    decode running (events.flatMap Event.bytes) = (events.map Event.call, Event.lastStatus running events)
      ∧ (∀ bytes, Event.Sent running events bytes →
        decode running bytes = (events.map Event.call, Event.lastStatus running events))
      ∧ ∀ (engine : Engine) (time : Float) (bytes : List UInt8), Event.Sent engine.runningStatus events bytes →
        engine.receiveBytes time bytes =
          (events.map Event.call).foldl (fun engine call => engine.receive time call)
            { engine with runningStatus := Event.lastStatus engine.runningStatus events } := by
  have hdecode : ∀ running bytes, Event.Sent running events bytes →
      decode running bytes = (events.map Event.call, Event.lastStatus running events) := by
    intro running bytes hsent
    rw [decode_eq_hear, Event.hear_sent hsent h]
  refine ⟨hdecode running _ (Event.sent_flatMap_bytes running events), hdecode running, ?_⟩
  intro engine time bytes hsent
  unfold Engine.receiveBytes
  dsimp only
  rw [hdecode engine.runningStatus bytes hsent]

/-- The first event is sent without the initial running status, and the second one without that of the first. -/
theorem decode_bytes_of_events_bare :
    ∃ events : List Event, (∀ event ∈ events, event.IsPlain)
      ∧ Event.Sent 0x93 events [60, 0, 62, 100, 0xE3, 0x10, 0x4E, 0xDF, 30, 0xB3, 121, 0]
      ∧ decode 0x93 [60, 0, 62, 100, 0xE3, 0x10, 0x4E, 0xDF, 30, 0xB3, 121, 0] =
        ([.noteOff 3 60 64, .noteOn 3 62 100, .pitchBend 3 10000, .channelPressure 15 30, .channelMode 3 121 0], 0xB3)
      ∧ events.length = 5 := by
  let events : List Event :=
    [⟨0.0, 0.0, .noteOn, 3, 60, 0, false⟩, ⟨0.0, 1.0, .noteOn, 3, 62, 100, false⟩,
      ⟨0.0, 0.0, .pitchBend, 3, 0x10, 0x4E, true⟩, ⟨0.0, 0.0, .channelPressure, 15, 30, 0, false⟩,
      ⟨0.0, 0.0, .controlChange, 3, 121, 0, false⟩]
  have hplain : ∀ event ∈ events, event.IsPlain := by
    simp only [events, List.mem_cons, List.not_mem_nil, or_false]
    rintro event (rfl | rfl | rfl | rfl | rfl) <;> exact ⟨by decide, by decide, by decide⟩
  have hsent : Event.Sent 0x93 events [60, 0, 62, 100, 0xE3, 0x10, 0x4E, 0xDF, 30, 0xB3, 121, 0] :=
    .bare rfl (.bare rfl (.whole (.whole (.whole (.nil _)))))
  exact ⟨events, hplain, hsent, (decode_bytes_of_events events hplain 0x93).2.1 _ hsent, rfl⟩

end Stream

end PolyExpression.Midi
