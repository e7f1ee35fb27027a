import PolyExpression.Voice.ChannelQueue

/-!
Pushing several items into a ring. As long as they fit they are queued in order behind the others and none
is refused; that they fit is a matter of counting.
-/

namespace PolyExpression.Ring

variable {α : Type} {capacity : Nat}

/-- Items pushed one after another. -/
def pushAll (ring : Ring α capacity) (items : List α) : Ring α capacity :=
  items.foldl (fun ring item => (ring.push item).2) ring

/-- Whether of items pushed one after another none is refused. -/
def Accepts (ring : Ring α capacity) : List α → Prop
  | [] => True
  | item :: items => (ring.push item).1 = true ∧ (ring.push item).2.Accepts items

theorem size_lt_of_length {ring : Ring α capacity} {item : α} {items : List α}
    (h : ring.toList.length + (item :: items).length ≤ capacity) : ring.size < capacity := by
  rw [length_toList, List.length_cons] at h
  omega

theorem length_push {ring : Ring α capacity} {item : α} {items : List α}
    (h : ring.toList.length + (item :: items).length ≤ capacity) :
    (ring.push item).2.toList.length + items.length ≤ capacity := by
  rw [(push_of_lt (size_lt_of_length h) item).2, List.length_append, List.length_singleton]
  rw [List.length_cons] at h
  omega

theorem accepts_of_length {ring : Ring α capacity} {items : List α}
    (h : ring.toList.length + items.length ≤ capacity) : ring.Accepts items := by
  induction items generalizing ring with
  | nil => trivial
  | cons item items ih => exact ⟨(push_of_lt (size_lt_of_length h) item).1, ih (length_push h)⟩

theorem toList_pushAll {ring : Ring α capacity} {items : List α}
    (h : ring.toList.length + items.length ≤ capacity) :
    (ring.pushAll items).toList = ring.toList ++ items := by
  induction items generalizing ring with
  | nil => simp [pushAll]
  | cons item items ih =>
      have hpush := (push_of_lt (size_lt_of_length h) item).2
      calc (ring.pushAll (item :: items)).toList
          = ((ring.push item).2.pushAll items).toList := rfl
        _ = (ring.push item).2.toList ++ items := ih (length_push h)
        _ = ring.toList ++ item :: items := by rw [hpush, List.append_assoc, List.singleton_append]

/-- What is taken from a ring was at its head. -/
theorem toList_of_pop {ring : Ring α capacity} {item : α} (h : ring.pop.1 = some item) :
    ring.toList = item :: ring.pop.2.toList := by
  obtain ⟨hhead, htail⟩ := ring.pop_toList
  obtain ⟨items, hitems⟩ := List.head?_eq_some_iff.mp (hhead.symm.trans h)
  rw [htail, hitems, List.tail_cons]

end PolyExpression.Ring
