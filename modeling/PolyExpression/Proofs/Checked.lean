import PolyExpression.Voice.Voices

/-!
Computations on arrays that check what they do. An access beyond the end of an array, a difference below zero and a loop
that does not come to an end are faults, and a computation with a fault has no result. Main statement: a loop has a
result, and is at its end, if each round keeps an invariant that says how many more are needed.
-/

namespace PolyExpression

/-- What can go wrong with arrays, counts and loops. -/
inductive Fault where
  | outOfBounds (index length : Nat)
  | underflow
  /-- A loop has not come to its end in as many rounds as it has. -/
  | unfinished
  /-- A note has no channel. -/
  | noChannel
  deriving DecidableEq, Repr

/-- A result, if nothing has gone wrong. -/
abbrev Checked := Except Fault

namespace Checked

variable {α β : Type} {n : Nat}

def read (slots : Vector α n) (index : Nat) : Checked α :=
  if h : index < n then .ok slots[index] else .error (.outOfBounds index n)

def write (slots : Vector α n) (index : Nat) (value : α) : Checked (Vector α n) :=
  if h : index < n then .ok (slots.set index value) else .error (.outOfBounds index n)

/-- The first few slots. -/
def front (slots : Vector α n) (count : Nat) : Checked (List α) :=
  if count ≤ n then .ok (slots.toList.take count) else .error (.outOfBounds count n)

def minus (a b : Nat) : Checked Nat := if b ≤ a then .ok (a - b) else .error .underflow

/-- Rounds of a loop until it is done, as many as there may be. -/
def loop (done : α → Bool) (round : α → Checked α) : Nat → α → Checked α
  | 0, a => if done a then .ok a else .error .unfinished
  | bound + 1, a => if done a then .ok a else round a >>= loop done round bound

theorem ok_bind (a : α) (f : α → Checked β) : (.ok a : Checked α) >>= f = f a := rfl

theorem pure_eq_ok (a : α) : (pure a : Checked α) = .ok a := rfl

theorem read_of_lt (slots : Vector α n) {index : Nat} (h : index < n) : read slots index = .ok slots[index] :=
  dif_pos h

/-- The byte that stands for no note is not an index of the notes. -/
example : read (Vector.replicate 128 0) 255 = .error (.outOfBounds 255 128) := rfl

theorem write_of_lt (slots : Vector α n) {index : Nat} (h : index < n) (value : α) :
    write slots index value = .ok (slots.set index value) :=
  dif_pos h

theorem minus_of_le {a b : Nat} (h : b ≤ a) : minus a b = .ok (a - b) := if_pos h

theorem front_of_le (slots : Vector α n) {count : Nat} (h : count ≤ n) :
    front slots count = .ok (slots.toList.take count) :=
  if_pos h

/-- A fold that takes, of what is seen of a state, the steps that another fold takes of the state, ends with what is
seen of its result. -/
theorem foldlM_eq_ok {σ : Type} (view : σ → α) {step : α → β → Checked α} {model : σ → β → σ}
    (hstep : ∀ s item, step (view s) item = .ok (view (model s item))) (items : List β) (s : σ) :
    items.foldlM step (view s) = .ok (view (items.foldl model s)) := by
  induction items generalizing s with
  | nil => rfl
  | cons item items ih => rw [List.foldlM_cons, hstep, ok_bind, ih, List.foldl_cons]

/-- Whether there is a result, and it is as it should be. -/
def Yields (outcome : Checked α) (P : α → Prop) : Prop := ∃ a, outcome = .ok a ∧ P a

namespace Yields

variable {P Q : α → Prop} {outcome : Checked α}

theorem ok {a : α} (h : P a) : Yields (.ok a) P := ⟨a, rfl, h⟩

theorem mono (h : Yields outcome P) (himp : ∀ a, P a → Q a) : Yields outcome Q := by
  obtain ⟨a, ha, hP⟩ := h
  exact ⟨a, ha, himp a hP⟩

theorem bind {f : α → Checked β} {R : β → Prop} (h : Yields outcome P) (hf : ∀ a, P a → Yields (f a) R) :
    Yields (outcome >>= f) R := by
  obtain ⟨a, rfl, hP⟩ := h
  exact hf a hP

/-- A fold keeps what holds between its states and those of another fold. -/
theorem foldlM {σ : Type} {step : α → β → Checked α} {model : σ → β → σ} {R : α → σ → Prop}
    (hstep : ∀ a s item, R a s → Yields (step a item) (R · (model s item))) (items : List β) {a : α} {s : σ}
    (h : R a s) : Yields (items.foldlM step a) (R · (items.foldl model s)) := by
  induction items generalizing a s with
  | nil => exact .ok h
  | cons item items ih =>
      rw [List.foldlM_cons, List.foldl_cons]
      exact (hstep a s item h).bind fun _ hnext => ih hnext

/-- An invariant that says how many rounds are left leads a loop to its end. -/
theorem loop {done : α → Bool} {round : α → Checked α} {Inv : Nat → α → Prop}
    (hdone : ∀ a, Inv 0 a → done a = true)
    (hround : ∀ left a, Inv (left + 1) a → done a = false ∧ Yields (round a) (Inv left)) {left bound : Nat}
    (hbound : left ≤ bound) {a : α} (h : Inv left a) : Yields (loop done round bound a) (Inv 0) := by
  induction left generalizing a bound with
  | zero =>
      refine ⟨a, ?_, h⟩
      cases bound <;> exact if_pos (hdone a h)
  | succ left ih =>
      cases bound with
      | zero => exact absurd hbound (Nat.not_succ_le_zero left)
      | succ bound =>
          obtain ⟨hgoes, hnext⟩ := hround left a h
          rw [Checked.loop, hgoes, if_neg Bool.false_ne_true]
          exact hnext.bind fun b hb => ih (Nat.le_of_succ_le_succ hbound) hb

end Yields

end Checked

end PolyExpression
