import PolyExpression.Zone

/-!
A first-in first-out queue in a fixed number of slots. The slots form a ring: items are added behind the
last one and taken at the head, and both places wrap around. Slots outside the queue keep what was in
them. Main statements: what each operation does to the list of queued items.
-/

namespace PolyExpression

structure Ring (α : Type) (capacity : Nat) where
  slots : Vector α capacity
  head : Nat
  size : Nat
  head_lt : head < capacity
  size_le : size ≤ capacity

namespace Ring

variable {α : Type} {capacity : Nat}

/-- The slot at a distance behind the head. -/
def slot (ring : Ring α capacity) (distance : Nat) : Fin capacity :=
  ⟨(ring.head + distance) % capacity, Nat.mod_lt _ (Nat.zero_lt_of_lt ring.head_lt)⟩

/-- An empty ring whose slots all hold `fill`. -/
def empty (fill : α) (h : 0 < capacity) : Ring α capacity :=
  ⟨Vector.replicate capacity fill, 0, 0, h, Nat.zero_le _⟩

def isEmpty (ring : Ring α capacity) : Bool := ring.size == 0

/-- The queued items, first the one that is taken next. -/
def toList (ring : Ring α capacity) : List α :=
  (List.range ring.size).map fun distance => ring.slots[ring.slot distance]

def clear (ring : Ring α capacity) : Ring α capacity :=
  { ring with head := 0, size := 0, head_lt := Nat.zero_lt_of_lt ring.head_lt, size_le := Nat.zero_le _ }

/-- Adds an item behind the others; a full ring refuses it and says so. -/
def push (ring : Ring α capacity) (item : α) : Bool × Ring α capacity :=
  if h : ring.size < capacity then
    (true, { ring with
      slots := ring.slots.set (ring.slot ring.size) item (ring.slot ring.size).isLt
      size := ring.size + 1
      size_le := h })
  else (false, ring)

/-- Takes the item at the head. -/
def pop (ring : Ring α capacity) : Option α × Ring α capacity :=
  if ring.size = 0 then (none, ring)
  else (some ring.slots[ring.slot 0], { ring with
    head := (ring.slot 1).val
    size := ring.size - 1
    head_lt := (ring.slot 1).isLt
    size_le := Nat.le_trans (Nat.sub_le _ _) ring.size_le })

@[simp] theorem length_toList (ring : Ring α capacity) : ring.toList.length = ring.size := by simp [toList]

@[simp] theorem toList_empty (fill : α) (h : 0 < capacity) : (empty fill h).toList = [] := rfl

@[simp] theorem toList_clear (ring : Ring α capacity) : ring.clear.toList = [] := rfl

private theorem slot_ne (ring : Ring α capacity) {i j : Nat} (hi : i < capacity) (hj : j < capacity)
    (hne : i ≠ j) : (ring.slot i).val ≠ (ring.slot j).val := by
  have hhead := ring.head_lt
  simp only [slot]
  intro h
  rcases Nat.lt_or_ge (ring.head + i) capacity with h1 | h1 <;>
    rcases Nat.lt_or_ge (ring.head + j) capacity with h2 | h2
  · rw [Nat.mod_eq_of_lt h1, Nat.mod_eq_of_lt h2] at h
    omega
  · rw [Nat.mod_eq_of_lt h1, Nat.mod_eq_sub_mod h2, Nat.mod_eq_of_lt (by omega)] at h
    omega
  · rw [Nat.mod_eq_sub_mod h1, Nat.mod_eq_of_lt (by omega), Nat.mod_eq_of_lt h2] at h
    omega
  · rw [Nat.mod_eq_sub_mod h1, Nat.mod_eq_of_lt (by omega), Nat.mod_eq_sub_mod h2,
      Nat.mod_eq_of_lt (by omega)] at h
    omega

theorem push_of_lt {ring : Ring α capacity} (h : ring.size < capacity) (item : α) :
    (ring.push item).1 = true ∧ (ring.push item).2.toList = ring.toList ++ [item] := by
  simp only [push, dif_pos h, toList, List.range_succ, List.map_append, List.map_cons, List.map_nil, true_and]
  congr 1
  · refine List.map_congr_left fun i hi => ?_
    have hi := List.mem_range.mp hi
    have hne := slot_ne ring (Nat.lt_trans hi h) h (Nat.ne_of_lt hi)
    simp only [Fin.getElem_fin, slot] at hne ⊢
    exact Vector.getElem_set_ne _ _ (Ne.symm hne)
  · simp [slot]

theorem push_of_full {ring : Ring α capacity} (h : ring.size = capacity) (item : α) :
    ring.push item = (false, ring) := by
  simp [push, h]

theorem pop_toList (ring : Ring α capacity) :
    ring.pop.1 = ring.toList.head? ∧ ring.pop.2.toList = ring.toList.tail := by
  unfold pop
  split
  · rename_i h
    simp [toList, h]
  · rename_i h
    obtain ⟨n, hn⟩ := Nat.exists_eq_succ_of_ne_zero h
    simp only [toList, hn, List.range_succ_eq_map, List.map_cons, List.map_map, List.head?_cons, List.tail_cons,
      Nat.succ_eq_add_one, Nat.add_sub_cancel, true_and]
    refine List.map_congr_left fun i _ => ?_
    simp only [slot, Function.comp_apply, Fin.getElem_fin]
    congr 1
    rw [Nat.mod_add_mod]
    congr 1
    omega

end Ring

/-- The free member channels; the one that has been free for longest is taken next. -/
abbrev ChannelQueue := Ring Channel memberMax

namespace ChannelQueue

def empty : ChannelQueue := Ring.empty ZoneSide.lower.manager (by decide)

end ChannelQueue

end PolyExpression
