import Mathlib.Data.List.Forall2
import PolyExpression.Midi.Block
import PolyExpression.Midi.Outbox
import PolyExpression.Voice.ChannelQueue

/-!
The two ways out of a block. The events of a block are gone through once, and each message that comes of them is handed
on at once: to a buffer, or to a queue between threads, of which no more is known than that it is bounded and first in,
first out. Main statement: both ways lead the same messages, one for each event whose channel exists and none outside
the block, and what a queue has no room for is counted.
-/

namespace PolyExpression.Midi

/-! ### Going through a block -/

theorem PlacedMessage.ofEvent_eq_error {event : Event} (h : ¬event.channel ≤ 15) (frame : ℕ) :
    ofEvent event frame = .error (.invalidChannel event.channel) := by
  rw [UInt8.le_iff_toNat_le] at h
  exact dif_neg fun hlt => h (Nat.le_of_lt_succ hlt)

theorem PlacedMessage.ofEvent_eq_ok {event : Event} (h : event.channel ≤ 15) (frame : ℕ) :
    ∃ channel : Channel, channel.val = event.channel.toNat
      ∧ ofEvent event frame = .ok ⟨frame, channel, .ofEvent event⟩ := by
  rw [UInt8.le_iff_toNat_le] at h
  exact ⟨⟨event.channel.toNat, Nat.lt_succ_of_le h⟩, rfl, dif_pos (Nat.lt_succ_of_le h)⟩

namespace Block

variable {σ : Type} (block : Block)

/-- Goes through the events of a block and hands on what comes of them. -/
def renderWith (emit : σ → PlacedMessage → σ) (events : List Event) (state : σ) : σ :=
  if block.length = 0 then state
  else
    let last := block.length - 1
    events.foldl (fun state event =>
      let offset := event.sampleOffset block.sampleRate last
      let offset :=
        if block.nudge ∧ event.command.isController ∧ ¬event.isSetup ∧ offset < last then offset + 1 else offset
      match PlacedMessage.ofEvent event offset with
      | .ok message => emit state message
      | .error _ => state) state

/-- Appends the messages of a block to a buffer. -/
def renderInto (events : List Event) (buffer : List PlacedMessage) : List PlacedMessage :=
  block.renderWith (fun buffer message => buffer ++ [message]) events buffer

/-- How a message shows an event: as it is, and inside the block at the event's sample, or one later if controllers are
moved, the event is one of them and prepares no note, and there is a later one. -/
structure Shows (event : Event) (placed : PlacedMessage) : Prop where
  channel : placed.channel.val = event.channel.toNat
  message : placed.message = .ofEvent event
  frame_lt : placed.frame < block.length
  frame : placed.frame = event.sampleOffset block.sampleRate (block.length - 1) +
    if block.nudge ∧ event.command.isController ∧ ¬event.isSetup
      ∧ event.sampleOffset block.sampleRate (block.length - 1) < block.length - 1 then 1 else 0

theorem frame_eq (last : ℕ) (event : Event) : block.frame last event =
    let offset := event.sampleOffset block.sampleRate last
    if block.nudge ∧ event.command.isController ∧ ¬event.isSetup ∧ offset < last then offset + 1 else offset := by
  simp only [frame, Bool.and_eq_true, Bool.not_eq_true', decide_eq_true_eq, Bool.not_eq_true, and_assoc]

/-- Messages are handed on in the order in which they are listed. -/
theorem renderWith_eq (emit : σ → PlacedMessage → σ) (events : List Event) (state : σ) :
    block.renderWith emit events state = (block.render events).foldl emit state := by
  unfold renderWith render
  cases hlength : block.length with
  | zero => rfl
  | succ last =>
      rw [if_neg (Nat.succ_ne_zero last), Nat.add_sub_cancel]
      simp only [← frame_eq]
      induction events generalizing state with
      | nil => rfl
      | cons event events ih =>
          rw [List.foldl_cons, List.filterMap_cons]
          cases PlacedMessage.ofEvent event (block.frame last event) with
          | ok message => exact ih (emit state message)
          | error _ => exact ih state

theorem renderInto_eq (events : List Event) (buffer : List PlacedMessage) :
    block.renderInto events buffer = buffer ++ block.render events := by
  rw [renderInto, renderWith_eq, List.foldl_append_eq_append, ← List.flatMap_def, List.flatMap_singleton']

theorem shows_render (events : List Event) : List.Forall₂ block.Shows
    (if block.length = 0 then [] else events.filter fun event => event.channel ≤ 15) (block.render events) := by
  unfold render
  cases hlength : block.length with
  | zero => exact .nil
  | succ last =>
      rw [if_neg (Nat.succ_ne_zero last)]
      dsimp only
      induction events with
      | nil => exact .nil
      | cons event events ih =>
          rw [List.filterMap_cons]
          by_cases hchannel : event.channel ≤ 15
          · obtain ⟨channel, hnumber, hmessage⟩ := PlacedMessage.ofEvent_eq_ok hchannel (block.frame last event)
            have hlast : block.length - 1 = last := by rw [hlength, Nat.add_sub_cancel]
            rw [List.filter_cons_of_pos (by simpa using hchannel), hmessage]
            refine .cons ⟨hnumber, rfl, ?_, ?_⟩ ih
            · rw [hlength]
              exact Nat.lt_succ_of_le (block.frame_le last event)
            · rw [hlast, frame_eq]
              dsimp only
              split <;> rfl
          · rw [List.filter_cons_of_neg (by simpa using hchannel), PlacedMessage.ofEvent_eq_error hchannel]
            exact ih

end Block

/-! ### A queue between threads -/

/-- The operations of a queue between threads: adding a message, which can fail, taking the oldest one, and counting
the free places. -/
structure Transport (Queue : Type) where
  tryPush : Queue → PlacedMessage → Bool × Queue
  tryPop : Queue → Option PlacedMessage × Queue
  vacant : Queue → ℕ

/-- The end of a queue to which messages are sent, with the number of those that were dropped. -/
structure Producer (Queue : Type) where
  queue : Queue
  dropped : ℕ

namespace Transport

variable {Queue : Type} (transport : Transport Queue)

/-- Adds a message to the queue, or counts it as dropped; says whether it was added. -/
def send (producer : Producer Queue) (message : PlacedMessage) : Bool × Producer Queue :=
  let pushed := transport.tryPush producer.queue message
  if pushed.1 then (true, { producer with queue := pushed.2 })
  else (false, { queue := pushed.2, dropped := producer.dropped + 1 })

/-- Sends one message of several, and counts it if it was added. -/
def sendCounted (state : ℕ × Producer Queue) (message : PlacedMessage) : ℕ × Producer Queue :=
  let (added, producer) := transport.send state.2 message
  (if added then state.1 + 1 else state.1, producer)

/-- Sends the messages of a block; says how many were added. -/
def renderTo (block : Block) (events : List Event) (producer : Producer Queue) : ℕ × Producer Queue :=
  block.renderWith transport.sendCounted events (0, producer)

theorem sendCounted_eq (count : ℕ) (producer : Producer Queue) (message : PlacedMessage) :
    transport.sendCounted (count, producer) message =
      (count + (transport.send producer message).1.toNat, (transport.send producer message).2) := by
  rw [sendCounted]
  rcases transport.send producer message with ⟨added, after⟩
  cases added <;> rfl

/-- The messages that are taken from a queue until there are none. -/
inductive Drains : Queue → List PlacedMessage → Prop
  | done {queue : Queue} (h : (transport.tryPop queue).1 = none) : Drains queue []
  | next {queue : Queue} {message : PlacedMessage} {messages : List PlacedMessage}
      (h : (transport.tryPop queue).1 = some message) (later : Drains (transport.tryPop queue).2 messages) :
      Drains queue (message :: messages)

/-- What is relied on: the queue holds messages up to its capacity, adds a message behind the others as long as there
is room and otherwise refuses it, and takes the first one. -/
structure IsFifo (capacity : ℕ) (items : Queue → List PlacedMessage) : Prop where
  length_le : ∀ queue, (items queue).length ≤ capacity
  vacant_eq : ∀ queue, transport.vacant queue = capacity - (items queue).length
  push_of_lt : ∀ queue message, (items queue).length < capacity →
    (transport.tryPush queue message).1 = true ∧ items (transport.tryPush queue message).2 = items queue ++ [message]
  push_of_full : ∀ queue message, (items queue).length = capacity →
    (transport.tryPush queue message).1 = false ∧ items (transport.tryPush queue message).2 = items queue
  pop : ∀ queue, (transport.tryPop queue).1 = (items queue).head? ∧ items (transport.tryPop queue).2 = (items queue).tail

namespace IsFifo

variable {transport} {capacity : ℕ} {items : Queue → List PlacedMessage}

/-- What is sent and not yet received. -/
def box (h : transport.IsFifo capacity items) (producer : Producer Queue) : Outbox :=
  ⟨capacity, items producer.queue, producer.dropped, h.length_le producer.queue⟩

theorem vacant_box (h : transport.IsFifo capacity items) (producer : Producer Queue) :
    (h.box producer).vacant = transport.vacant producer.queue :=
  (h.vacant_eq producer.queue).symm

theorem drains_iff (h : transport.IsFifo capacity items) {queue : Queue} {received : List PlacedMessage} :
    transport.Drains queue received ↔ received = items queue := by
  constructor
  · intro hdrains
    induction hdrains with
    | done hnone => exact (List.head?_eq_none_iff.mp ((h.pop _).1.symm.trans hnone)).symm
    | @next queue message messages hsome _ ih =>
        obtain ⟨hhead, htail⟩ := h.pop queue
        obtain ⟨rest, hitems⟩ := List.head?_eq_some_iff.mp (hhead.symm.trans hsome)
        rw [ih, htail, hitems, List.tail_cons]
  · rintro rfl
    generalize hitems : items queue = waiting
    induction waiting generalizing queue with
    | nil => exact .done (by rw [(h.pop queue).1, hitems, List.head?_nil])
    | cons message messages ih =>
        have htail : items (transport.tryPop queue).2 = messages := by rw [(h.pop queue).2, hitems, List.tail_cons]
        exact .next (by rw [(h.pop queue).1, hitems, List.head?_cons]) (ih htail)

/-- The queue and the count of a producer change as an outbox does. -/
theorem send_box (h : transport.IsFifo capacity items) (producer : Producer Queue) (message : PlacedMessage) :
    (h.box producer).send message =
      ((transport.send producer message).1, h.box (transport.send producer message).2) := by
  rw [Outbox.send, Transport.send]
  by_cases hroom : (h.box producer).size < (h.box producer).capacity
  · obtain ⟨hpushed, hitems⟩ := h.push_of_lt producer.queue message hroom
    rw [dif_pos hroom, if_pos hpushed]
    simp only [box, hitems]
  · have hfull := Nat.le_antisymm (h.length_le producer.queue) (Nat.not_lt.mp hroom)
    obtain ⟨hrefused, hitems⟩ := h.push_of_full producer.queue message hfull
    rw [dif_neg hroom, if_neg (by rw [hrefused]; exact Bool.false_ne_true)]
    simp only [box, hitems]

/-- Messages that are sent one by one end up where they do when they are sent together. -/
theorem foldl_sendCounted (h : transport.IsFifo capacity items) (messages : List PlacedMessage) (count : ℕ)
    (producer : Producer Queue) :
    let after := messages.foldl transport.sendCounted (count, producer)
    after.1 = count + ((h.box producer).sendAll messages).1
      ∧ h.box after.2 = ((h.box producer).sendAll messages).2 := by
  induction messages generalizing count producer with
  | nil =>
      rw [Outbox.sendAll_nil]
      exact ⟨rfl, rfl⟩
  | cons message messages ih =>
      obtain ⟨hcount, hbox⟩ := ih (count + (transport.send producer message).1.toNat) (transport.send producer message).2
      rw [Outbox.sendAll_cons, h.send_box, List.foldl_cons, sendCounted_eq]
      refine ⟨hcount.trans ?_, hbox⟩
      rw [Nat.add_assoc, Nat.add_comm (Bool.toNat _)]

theorem renderTo_eq (h : transport.IsFifo capacity items) (block : Block) (events : List Event)
    (producer : Producer Queue) : (h.box producer).sendAll (block.render events) =
      ((transport.renderTo block events producer).1, h.box (transport.renderTo block events producer).2) := by
  obtain ⟨hcount, hbox⟩ := h.foldl_sendCounted (block.render events) 0 producer
  rw [renderTo, Block.renderWith_eq, hcount, hbox, Nat.zero_add]

end IsFifo

end Transport

/-- A ring as a queue between threads. -/
def Transport.ofRing (capacity : ℕ) : Transport (Ring PlacedMessage capacity) where
  tryPush := Ring.push
  tryPop := Ring.pop
  vacant ring := capacity - ring.size

theorem Transport.isFifo_ofRing (capacity : ℕ) : (ofRing capacity).IsFifo capacity Ring.toList where
  length_le ring := by
    rw [Ring.length_toList]
    exact ring.size_le
  vacant_eq ring := by
    rw [Ring.length_toList]
    rfl
  push_of_lt ring message hlt := by
    rw [Ring.length_toList] at hlt
    exact Ring.push_of_lt hlt message
  push_of_full ring message hfull := by
    rw [Ring.length_toList] at hfull
    have hpush := Ring.push_of_full hfull message
    exact ⟨congrArg Prod.fst hpush, congrArg (fun pushed => pushed.2.toList) hpush⟩
  pop := Ring.pop_toList

/-- **The two ways out of a block.** What is appended to a buffer shows the events whose channel exists, one message
for each, in order, and nothing if the block has no frames. The queue is sent the same messages: as many of them as
there are free places are added behind those that wait, they are counted in the result, and the others are counted as
dropped. -/
theorem Block.renderings_agree {Queue : Type} {transport : Transport Queue} {capacity : ℕ}
    {items : Queue → List PlacedMessage} (h : transport.IsFifo capacity items) (block : Block) (events : List Event)
    (buffer : List PlacedMessage) (producer : Producer Queue) :
    let rendered := block.render events
    let sent := min (transport.vacant producer.queue) rendered.length
    let after := transport.renderTo block events producer
    block.renderInto events buffer = buffer ++ rendered
      ∧ List.Forall₂ block.Shows (if block.length = 0 then [] else events.filter fun event => event.channel ≤ 15) rendered
      ∧ after.1 = sent ∧ after.2.dropped = producer.dropped + (rendered.length - sent)
      ∧ (∀ received, transport.Drains producer.queue received ↔ received = items producer.queue)
      ∧ (∀ received, transport.Drains after.2.queue received ↔ received = items producer.queue ++ rendered.take sent)
      ∧ (h.box producer).sendAll rendered = (after.1, h.box after.2) := by
  intro rendered sent after
  have hsend : (h.box producer).sendAll rendered = (after.1, h.box after.2) := h.renderTo_eq block events producer
  have htake : rendered.take (h.box producer).vacant = rendered.take sent := by
    rw [h.vacant_box, List.take_eq_take_min]
  have hlength : (rendered.take sent).length = sent := by
    rw [List.length_take]
    exact Nat.min_eq_left (Nat.min_le_right _ _)
  have hcount : after.1 = sent := by
    have hfirst : (rendered.take (h.box producer).vacant).length = after.1 := congrArg Prod.fst hsend
    rw [← hfirst, htake, hlength]
  have hbox : ((h.box producer).sendAll rendered).2 = h.box after.2 := congrArg Prod.snd hsend
  refine ⟨block.renderInto_eq events buffer, block.shows_render events, hcount, ?_, fun received => h.drains_iff,
    fun received => ?_, hsend⟩
  · have hdropped : producer.dropped + (rendered.length - (rendered.take (h.box producer).vacant).length) =
        after.2.dropped := congrArg Outbox.dropped hbox
    rw [← hdropped, htake, hlength]
  · have hitems : items producer.queue ++ rendered.take (h.box producer).vacant = items after.2.queue :=
      congrArg Outbox.messages hbox
    rw [h.drains_iff, ← hitems, htake]

/-- Of three places behind a wrapped head one is taken. An event has no time, one has an endless one, one has no
channel, and the controllers among them are moved where there is a later sample. -/
theorem Block.renderings_agree_crowded :
    let waiting : PlacedMessage := ⟨0, 5, .programChange 1⟩
    let ring : Ring PlacedMessage 3 := ((((Ring.empty waiting (by decide)).push waiting).2.push waiting).2.pop.2)
    let event (time : Float) (command : Command) (channel : UInt8) : Event := ⟨time, 0.0, command, channel, 60, 1, false⟩
    let events := [event (0.0 / 0.0) .noteOn 0, event 0.25 .noteOff 16, event (-1.0) .controlChange 3,
      event (1.0 / 0.0) .channelPressure 15]
    let block : Block := ⟨8.0, 4, true⟩
    let rendered : List PlacedMessage :=
      [⟨0, 0, .noteOn 60 1⟩, ⟨1, 3, .controlChange 60 1⟩, ⟨3, 15, .channelPressure 60⟩]
    let after := (Transport.ofRing 3).renderTo block events ⟨ring, 7⟩
    (Transport.ofRing 3).IsFifo 3 Ring.toList ∧ block.render events = rendered
      ∧ block.renderInto events [waiting] = waiting :: rendered
      ∧ after.1 = 2 ∧ after.2.dropped = 8 ∧ (Transport.ofRing 3).Drains after.2.queue (waiting :: rendered.take 2) := by
  intro waiting ring event events block rendered after
  have hrendered : block.render events = rendered := by decide +kernel
  have hwaiting : ring.toList = [waiting] := by decide +kernel
  have hvacant : (Transport.ofRing 3).vacant ring = 2 := by decide +kernel
  obtain ⟨hinto, -, hcount, hdropped, -, hdrains, -⟩ :=
    Block.renderings_agree (Transport.isFifo_ofRing 3) block events [waiting] ⟨ring, 7⟩
  rw [hrendered] at hinto
  simp only [hrendered, hvacant] at hcount hdropped hdrains
  rw [hwaiting] at hdrains
  exact ⟨Transport.isFifo_ofRing 3, hrendered, hinto, hcount, hdropped, (hdrains _).mpr rfl⟩

end PolyExpression.Midi
