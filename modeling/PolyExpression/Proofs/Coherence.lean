import PolyExpression.Engine.Basic

/-!
What starting and ending notes does to the voices. The stacks of the two sides of the anchor list what the
stack of all held notes lists on that side, in the same order, and the channels kept for the roles are the
ones that a search would find. Main statements: starting a note that is not held and ending a note keep
the voices coherent.
-/

namespace PolyExpression

theorem NoteStack.mem_of_withRole? {stack : NoteStack} {role : Role} {note : Note}
    (h : stack.withRole? role = some note) : note ∈ stack.notes := by
  cases role with
  | lowest => exact (isOrder_upward.first?_eq_some_iff.mp (stack.lowest?_eq ▸ h)).1
  | highest => exact (isOrder_downward.first?_eq_some_iff.mp (stack.highest?_eq ▸ h)).1
  | oldest => exact List.mem_of_getLast? h
  | newest => exact List.mem_of_head? h

theorem NoteStack.isEmpty_iff (stack : NoteStack) : stack.isEmpty = true ↔ stack.notes = [] :=
  List.isEmpty_iff

theorem NoteStack.contains_iff {stack : NoteStack} {note : Note} :
    stack.contains note = true ↔ note ∈ stack.notes :=
  List.contains_iff_mem

/-- A note without a role leaves a stack's role where it is. -/
theorem NoteStack.withRole?_erase {stack : NoteStack} {note : Note} {role : Role}
    (h : stack.withRole? role ≠ some note) : (stack.erase note).withRole? role = stack.withRole? role := by
  cases role with
  | lowest =>
      show (stack.erase note).lowest? = stack.lowest?
      rw [lowest?_eq, lowest?_eq, notes_erase]
      exact isOrder_upward.first?_erase_of_ne (stack.lowest?_eq ▸ h)
  | highest =>
      show (stack.erase note).highest? = stack.highest?
      rw [highest?_eq, highest?_eq, notes_erase]
      exact isOrder_downward.first?_erase_of_ne (stack.highest?_eq ▸ h)
  | oldest =>
      have hlast : stack.notes.getLast? ≠ some note := h
      show (stack.erase note).notes.getLast? = stack.notes.getLast?
      rw [notes_erase]
      rcases List.eq_nil_or_concat stack.notes with hnil | ⟨front, last, hfront⟩
      · rw [hnil]
        rfl
      · rw [List.concat_eq_append] at hfront
        rw [hfront, List.getLast?_concat] at hlast ⊢
        have hne : ¬(last == note) = true := fun heq => hlast (congrArg some (beq_iff_eq.mp heq))
        by_cases hmem : note ∈ front
        · rw [List.erase_append_left _ hmem, List.getLast?_concat]
        · rw [List.erase_append_right _ hmem, List.erase_cons_tail hne, List.erase_nil, List.getLast?_concat]
  | newest =>
      have hfirst : stack.notes.head? ≠ some note := h
      show (stack.erase note).notes.head? = stack.notes.head?
      rw [notes_erase]
      cases hnotes : stack.notes with
      | nil => rfl
      | cons first rest =>
          rw [hnotes] at hfirst
          have hne : ¬(first == note) = true := fun heq => hfirst (congrArg some (beq_iff_eq.mp heq))
          rw [List.erase_cons_tail hne]
          rfl

theorem Pedal.notes_forget (pedal : Pedal) (note : Note) :
    (pedal.forget note).deferred.notes = pedal.deferred.notes.erase note :=
  pedal.deferred.notes_erase note

theorem Pedal.notes_hold (pedal : Pedal) (note : Note) (velocity : UInt8) :
    (pedal.hold note velocity).deferred.notes = note :: pedal.deferred.notes.erase note :=
  pedal.deferred.notes_push note

namespace Voices

/-- The side stacks and the roles agree with the held notes. -/
structure Coherent (voices : Voices) (layout : ZoneLayout) : Prop where
  below : voices.below.notes = voices.held.notes.filter fun note => !layout.isAbove note
  above : voices.above.notes = voices.held.notes.filter fun note => layout.isAbove note
  roles : voices.roles = voices.withRoles.roles

section start

variable (voices : Voices) (note : Note) (channel : Channel) (velocity : UInt8) (isAbove : Bool)

@[simp] theorem held_start :
    (voices.start note channel velocity isAbove).held.notes = note :: voices.held.notes.erase note :=
  voices.held.notes_push note

theorem below_start : (voices.start note channel velocity isAbove).below.notes =
    if isAbove then voices.below.notes else note :: voices.below.notes.erase note := by
  cases isAbove with
  | false => exact voices.below.notes_push note
  | true => rfl

theorem above_start : (voices.start note channel velocity isAbove).above.notes =
    if isAbove then note :: voices.above.notes.erase note else voices.above.notes := by
  cases isAbove with
  | false => rfl
  | true => exact voices.above.notes_push note

theorem channelOf_start (other : Note) : (voices.start note channel velocity isAbove).channelOf other =
    if note = other then channel else voices.channelOf other :=
  PerNote.get_set _ _ _ _

theorem velocityOf_start (other : Note) : (voices.start note channel velocity isAbove).velocityOf other =
    if note = other then velocity else voices.velocityOf other :=
  PerNote.get_set _ _ _ _

end start

@[simp] theorem held_stop (voices : Voices) (note : Note) :
    (voices.stop note).held.notes = voices.held.notes.erase note :=
  voices.held.notes_erase note

@[simp] theorem channelOf_stop (voices : Voices) (note : Note) :
    (voices.stop note).channelOf = voices.channelOf :=
  rfl

@[simp] theorem velocityOf_stop (voices : Voices) (note : Note) :
    (voices.stop note).velocityOf = voices.velocityOf :=
  rfl

@[simp] theorem held_silence (voices : Voices) : voices.silence.held.notes = [] := rfl

theorem coherent_empty (layout : ZoneLayout) : empty.Coherent layout := ⟨rfl, rfl, rfl⟩

theorem coherent_silence (voices : Voices) (layout : ZoneLayout) : voices.silence.Coherent layout :=
  ⟨rfl, rfl, rfl⟩

variable {voices : Voices} {layout : ZoneLayout}

theorem Coherent.start (h : voices.Coherent layout) {note : Note} (hnote : note ∉ voices.held.notes)
    (channel : Channel) (velocity : UInt8) :
    (voices.start note channel velocity (layout.isAbove note)).Coherent layout where
  below := by
    have hbelow : note ∉ voices.below.notes := fun hmem => hnote (List.mem_filter.mp (h.below ▸ hmem)).1
    rw [below_start, held_start, List.erase_of_not_mem hnote, List.erase_of_not_mem hbelow, List.filter_cons,
      h.below]
    cases layout.isAbove note <;> rfl
  above := by
    have habove : note ∉ voices.above.notes := fun hmem => hnote (List.mem_filter.mp (h.above ▸ hmem)).1
    rw [above_start, held_start, List.erase_of_not_mem hnote, List.erase_of_not_mem habove, List.filter_cons,
      h.above]
  roles := rfl

theorem Coherent.stop (h : voices.Coherent layout) (note : Note) : (voices.stop note).Coherent layout where
  below := by
    have hbelow : (voices.stop note).below.notes = voices.below.notes.erase note := voices.below.notes_erase note
    rw [hbelow, held_stop, h.below, List.erase_filter]
  above := by
    have habove : (voices.stop note).above.notes = voices.above.notes.erase note := voices.above.notes_erase note
    rw [habove, held_stop, h.above, List.erase_filter]
  roles := rfl

/-- The channel kept for a role is that of the note with the role. -/
theorem Coherent.channel?_eq (h : voices.Coherent layout) (region : Region) (role : Role) :
    voices.roles.channel? region role = ((voices.stack region).withRole? role).map voices.channelOf := by
  rw [h.roles]
  cases region <;> cases role <;> rfl

theorem Coherent.mem_held (h : voices.Coherent layout) {region : Region} {note : Note}
    (hmem : note ∈ (voices.stack region).notes) : note ∈ voices.held.notes := by
  cases region with
  | all => exact hmem
  | below => exact (List.mem_filter.mp (h.below ▸ hmem)).1
  | above => exact (List.mem_filter.mp (h.above ▸ hmem)).1

/-- The note with a role in a region. -/
def holder? (voices : Voices) (region : Region) (role : Role) : Option Note :=
  (voices.stack region).withRole? role

theorem Coherent.mem_of_holder? (h : voices.Coherent layout) {region : Region} {role : Role} {note : Note}
    (hholder : voices.holder? region role = some note) : note ∈ voices.held.notes :=
  h.mem_held (NoteStack.mem_of_withRole? hholder)

/-- A note that ends without a role leaves it where it is. -/
theorem holder?_stop {note : Note} {region : Region} {role : Role}
    (h : voices.holder? region role ≠ some note) :
    (voices.stop note).holder? region role = voices.holder? region role := by
  cases region with
  | all => exact NoteStack.withRole?_erase h
  | below => exact NoteStack.withRole?_erase h
  | above => exact NoteStack.withRole?_erase h

end Voices

end PolyExpression
