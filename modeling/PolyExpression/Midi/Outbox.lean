import PolyExpression.Midi.VoiceMessage

/-!
The hand-off of rendered messages to an output thread: a first-in first-out queue of fixed capacity.
A message that does not fit is dropped and counted. There is always room for at least one message.
-/

namespace PolyExpression.Midi

structure Outbox where
  capacity : Nat
  messages : List PlacedMessage
  dropped : Nat
  size_le : messages.length ≤ capacity

namespace Outbox

def empty (capacity : Nat) : Outbox := ⟨max capacity 1, [], 0, Nat.zero_le _⟩

def size (box : Outbox) : Nat := box.messages.length

def isEmpty (box : Outbox) : Bool := box.messages.isEmpty

/-- Free places. -/
def vacant (box : Outbox) : Nat := box.capacity - box.size

/-- Adds a message behind the others, or counts it as dropped; says whether it was added. -/
def send (box : Outbox) (message : PlacedMessage) : Bool × Outbox :=
  if h : box.size < box.capacity then
    (true, { box with
      messages := box.messages ++ [message]
      size_le := by simpa [Nat.succ_le_iff, size] using h })
  else (false, { box with dropped := box.dropped + 1 })

/-- Takes the oldest message. -/
def receive (box : Outbox) : Option PlacedMessage × Outbox :=
  (box.messages.head?, { box with
    messages := box.messages.tail
    size_le := by have := box.size_le; simp only [List.length_tail]; omega })

/-- Takes all messages, oldest first. -/
def receiveAll (box : Outbox) : List PlacedMessage × Outbox :=
  (box.messages, { box with messages := [], size_le := Nat.zero_le _ })

/-- Sends messages in order, as many as there is room for; says how many were added. -/
def sendAll (box : Outbox) (messages : List PlacedMessage) : Nat × Outbox :=
  let sent := messages.take box.vacant
  (sent.length, { box with
    messages := box.messages ++ sent
    dropped := box.dropped + (messages.length - sent.length)
    size_le := by
      have := box.size_le
      simp only [sent, vacant, size, List.length_append, List.length_take]
      omega })

theorem sendAll_nil (box : Outbox) : box.sendAll [] = (0, box) := by
  simp [sendAll]

/-- Sending messages together is sending them one by one. -/
theorem sendAll_cons (box : Outbox) (message : PlacedMessage) (messages : List PlacedMessage) :
    box.sendAll (message :: messages) =
      (((box.send message).2.sendAll messages).1 + (box.send message).1.toNat,
        ((box.send message).2.sendAll messages).2) := by
  by_cases h : box.size < box.capacity
  · have hlt : box.messages.length < box.capacity := h
    obtain ⟨n, hn⟩ : ∃ n, box.capacity - box.messages.length = n + 1 :=
      ⟨box.capacity - box.messages.length - 1, by omega⟩
    have hn' : box.capacity - (box.messages.length + 1) = n := by omega
    rw [send, dif_pos h]
    simp [sendAll, hn, hn', vacant, size]
  · have hzero : box.capacity - box.messages.length = 0 := by simp only [size] at h; omega
    rw [send, dif_neg h]
    simp [sendAll, hzero, vacant, size]
    omega

end Outbox

end PolyExpression.Midi
