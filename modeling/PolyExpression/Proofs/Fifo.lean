import PolyExpression.Proofs.Storage

/-!
A ring of slots as a bounded list. Items are added behind the list unless it is full, and taken at its front, however
often the head has gone round and whatever older items are left in the slots. Main statement: after any operations a new
ring and its slots hold the list and answer as it does, and no access leaves the slots.
-/

namespace PolyExpression

open Checked

variable {α : Type} {capacity : ℕ}

/-- What is done to a queue. -/
inductive QueueOperation (α : Type) where
  | push (item : α)
  | pop
  | clear
  deriving DecidableEq, Repr

/-! ### What a ring says of itself -/

namespace Ring

variable (ring : Ring α capacity)

theorem isEmpty_eq : ring.isEmpty = ring.toList.isEmpty := by
  rw [isEmpty, ← length_toList]
  cases ring.toList <;> rfl

theorem push_fst_eq (item : α) : (ring.push item).1 = !decide (ring.toList.length = capacity) := by
  rw [length_toList]
  by_cases hfull : ring.size = capacity
  · rw [push_of_full hfull, decide_eq_true hfull]
    rfl
  · rw [(push_of_lt (Nat.lt_of_le_of_ne ring.size_le hfull) item).1, decide_eq_false hfull]
    rfl

/-- What a ring refuses leaves it as it is. -/
theorem push_eq_iff (item : α) : ring.push item = (false, ring) ↔ ring.toList.length = capacity := by
  constructor
  · intro hrefused
    have hfst := ring.push_fst_eq item
    rw [hrefused] at hfst
    simpa using hfst
  · intro hfull
    rw [length_toList] at hfull
    exact push_of_full hfull item

end Ring

/-! ### Slots that say whether there was room -/

namespace Slots

/-- No items; every slot holds the same. -/
def new (fill : α) : Slots α capacity := ⟨Vector.replicate capacity fill, 0, 0⟩

def isEmpty (queue : Slots α capacity) : Bool := queue.size == 0

/-- Adds an item behind the others if there is a slot for it, and says whether there was one. -/
def offer (queue : Slots α capacity) (item : α) : Checked (Bool × Slots α capacity) :=
  if queue.size = capacity then .ok (false, queue)
  else do
    let slots ← write queue.slots ((queue.head + queue.size) % capacity) item
    return (true, { queue with slots, size := queue.size + 1 })

def itemAt (queue : Slots α capacity) (distance : ℕ) : Checked α :=
  read queue.slots ((queue.head + distance) % capacity)

/-- The items from the head on. -/
def items (queue : Slots α capacity) : Checked (List α) := (List.range queue.size).mapM queue.itemAt

theorem offer_eq (queue : Slots α capacity) (item : α) :
    queue.offer item = queue.push item >>= fun after => .ok (!decide (queue.size = capacity), after) := by
  rw [offer, push]
  split
  · next hfull => rw [ok_bind, decide_eq_true hfull, Bool.not_true]
  · next hroom =>
    rw [decide_eq_false hroom, Bool.not_false]
    cases write queue.slots ((queue.head + queue.size) % capacity) item <;> rfl

variable (ring : Ring α capacity)

theorem offer_ofRing (item : α) :
    (ofRing ring).offer item = .ok ((ring.push item).1, ofRing (ring.push item).2) := by
  rw [offer_eq, push_ofRing, ok_bind, ring.push_fst_eq, Ring.length_toList]
  rfl

/-- The slot of any distance is one of the ring's. -/
theorem itemAt_ofRing (distance : ℕ) : (ofRing ring).itemAt distance = .ok (ring.slots.get (ring.slot distance)) :=
  read_of_lt ring.slots (ring.slot distance).isLt

theorem items_ofRing : (ofRing ring).items = .ok ring.toList := by
  have hitems : (ofRing ring).itemAt = fun distance => pure (ring.slots.get (ring.slot distance)) :=
    funext fun distance => itemAt_ofRing ring distance
  rw [items, hitems, List.mapM_pure]
  rfl

end Slots

/-! ### One operation -/

namespace QueueOperation

/-- The queued items after an operation. An item that is pushed onto a full list is refused. -/
def onList (capacity : ℕ) (queued : List α) : QueueOperation α → List α
  | .push item => if queued.length = capacity then queued else queued ++ [item]
  | .pop => queued.tail
  | .clear => []

def onRing (ring : Ring α capacity) : QueueOperation α → Ring α capacity
  | .push item => (ring.push item).2
  | .pop => ring.pop.2
  | .clear => ring.clear

def onSlots (queue : Slots α capacity) : QueueOperation α → Checked (Slots α capacity)
  | .push item => do return (← queue.offer item).2
  | .pop => do return (← queue.pop).2
  | .clear => return queue.clear

theorem length_onList_le {queued : List α} (h : queued.length ≤ capacity) (operation : QueueOperation α) :
    (operation.onList capacity queued).length ≤ capacity := by
  cases operation with
  | push item =>
      rw [onList]
      split
      · exact h
      · rw [List.length_append, List.length_singleton]
        omega
  | pop =>
      rw [onList, List.length_tail]
      omega
  | clear => exact Nat.zero_le capacity

theorem toList_onRing (ring : Ring α capacity) (operation : QueueOperation α) :
    (operation.onRing ring).toList = operation.onList capacity ring.toList := by
  cases operation with
  | push item =>
      rw [onRing, onList, Ring.length_toList]
      split
      · next hfull => rw [Ring.push_of_full hfull]
      · next hroom => exact (Ring.push_of_lt (Nat.lt_of_le_of_ne ring.size_le hroom) item).2
  | pop => exact ring.pop_toList.2
  | clear => rfl

theorem onSlots_ofRing (ring : Ring α capacity) (operation : QueueOperation α) :
    operation.onSlots (.ofRing ring) = .ok (.ofRing (operation.onRing ring)) := by
  cases operation with
  | push item =>
      rw [onSlots, Slots.offer_ofRing]
      rfl
  | pop =>
      rw [onSlots, Slots.pop_ofRing]
      rfl
  | clear => rfl

end QueueOperation

/-! ### What is answered -/

/-- A ring holds a list of items, and answers as the list does. -/
structure Ring.Answers (ring : Ring α capacity) (queued : List α) : Prop where
  toList : ring.toList = queued
  size : ring.size = queued.length
  isEmpty : ring.isEmpty = queued.isEmpty
  push_eq_iff : ∀ item, ring.push item = (false, ring) ↔ queued.length = capacity
  push_fst : ∀ item, (ring.push item).1 = !decide (queued.length = capacity)
  pop_fst : ring.pop.1 = queued.head?

/-- Slots hold a list of items and answer as the list does, and no access is at fault. -/
structure Slots.Answers (queue : Slots α capacity) (queued : List α) : Prop where
  items : queue.items = .ok queued
  size : queue.size = queued.length
  isEmpty : queue.isEmpty = queued.isEmpty
  head_lt : queue.head < capacity
  offer_eq_iff : ∀ item, queue.offer item = .ok (false, queue) ↔ queued.length = capacity
  offer : ∀ item, Yields (queue.offer item) (·.1 = !decide (queued.length = capacity))
  pop : Yields queue.pop (·.1 = queued.head?)

theorem Ring.answers_toList (ring : Ring α capacity) : ring.Answers ring.toList where
  toList := rfl
  size := ring.length_toList.symm
  isEmpty := ring.isEmpty_eq
  push_eq_iff := ring.push_eq_iff
  push_fst := ring.push_fst_eq
  pop_fst := ring.pop_toList.1

theorem Slots.ofRing_injective {a b : Ring α capacity} (h : ofRing a = ofRing b) : a = b := by
  obtain ⟨slots, head, size, hhead, hsize⟩ := a
  obtain ⟨slots', head', size', hhead', hsize'⟩ := b
  obtain ⟨rfl, rfl, rfl⟩ := Slots.mk.inj h
  rfl

theorem Slots.answers_ofRing (ring : Ring α capacity) : (ofRing ring).Answers ring.toList where
  items := items_ofRing ring
  size := ring.length_toList.symm
  isEmpty := ring.isEmpty_eq
  head_lt := ring.head_lt
  offer_eq_iff item := by
    rw [offer_ofRing, ← ring.push_eq_iff item]
    constructor
    · intro hrefused
      obtain ⟨hfst, hsnd⟩ := Prod.mk.inj (Except.ok.inj hrefused)
      exact Prod.ext hfst (ofRing_injective hsnd)
    · intro hrefused
      rw [hrefused]
  offer item := ⟨_, offer_ofRing ring item, ring.push_fst_eq item⟩
  pop := ⟨_, pop_ofRing ring, ring.pop_toList.1⟩

/-! ### Any operations -/

namespace QueueOperation

/-- The items that are queued after operations on an empty list. -/
def queuedAfter (capacity : ℕ) (operations : List (QueueOperation α)) : List α :=
  operations.foldl (onList capacity) []

theorem length_queuedAfter_le (capacity : ℕ) (operations : List (QueueOperation α)) :
    (queuedAfter capacity operations).length ≤ capacity := by
  induction operations using List.reverseRecOn with
  | nil => exact Nat.zero_le capacity
  | append_singleton operations operation ih =>
      rw [queuedAfter, List.foldl_append]
      exact length_onList_le ih operation

theorem toList_foldl_onRing (operations : List (QueueOperation α)) (ring : Ring α capacity) :
    (operations.foldl onRing ring).toList = operations.foldl (onList capacity) ring.toList := by
  symm
  apply List.foldl_hom
  intro ring operation
  exact (toList_onRing ring operation).symm

theorem foldlM_onSlots_ofRing (operations : List (QueueOperation α)) (ring : Ring α capacity) :
    operations.foldlM onSlots (.ofRing ring) = .ok (.ofRing (operations.foldl onRing ring)) :=
  foldlM_eq_ok Slots.ofRing onSlots_ofRing operations ring

/-- **Any operations.** A new ring for the channels of a zone, and its slots, hold the list that comes of the operations.
They refuse an item, and stay as they are, exactly if the list has as many items as there are slots; they give out the
item at its front, and nothing exactly if there is none. -/
theorem answers_queuedAfter (fill : α) (operations : List (QueueOperation α)) :
    (queuedAfter memberMax operations).length ≤ memberMax
      ∧ (operations.foldl onRing (Ring.empty fill (show 0 < memberMax by decide))).Answers (queuedAfter memberMax operations)
      ∧ Yields (operations.foldlM onSlots (.new fill)) fun queue : Slots α memberMax =>
        queue.Answers (queuedAfter memberMax operations) := by
  let ring : Ring α memberMax := .empty fill (by decide)
  have hqueued : queuedAfter memberMax operations = (operations.foldl onRing ring).toList :=
    (toList_foldl_onRing operations ring).symm
  have hslots : operations.foldlM onSlots (.new fill) = .ok (.ofRing (operations.foldl onRing ring)) :=
    foldlM_onSlots_ofRing operations ring
  refine ⟨length_queuedAfter_le memberMax operations, ?_, ?_⟩
  · rw [hqueued]
    exact Ring.answers_toList _
  · rw [hslots, hqueued]
    exact .ok (Slots.answers_ofRing _)

/-- The head goes round a ring of three slots, an item is refused, and older ones are left in the slots. -/
example : queuedAfter 3 [.push 'a', .push 'b', .push 'c', .push 'd', .pop, .pop, .push 'e', .push 'f', .pop] =
    ['e', 'f'] := rfl

end QueueOperation

end PolyExpression
