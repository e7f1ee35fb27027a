import Mathlib.Data.Fintype.Card
import Mathlib.Data.List.Infix
import Mathlib.Data.List.Nodup
import PolyExpression.Proofs.Checked
import PolyExpression.Proofs.Coherence

/-!
A stack of notes as a doubly linked list in two arrays. Each note has a slot for the next older note and one for the
next newer note; the first and the last note, the lowest and the highest one and the number of notes are kept beside the
arrays, and a byte that is no note stands for none. Main statements: with every access, difference and walk checked,
each operation on the arrays of a list of distinct notes makes the arrays of the list it should lead to.
-/

namespace PolyExpression

open Checked

/-! ### Bytes as notes -/

theorem noteToByte_injective : Function.Injective noteToByte := by
  intro a b h
  have htoNat := congrArg UInt8.toNat h
  rw [toNat_noteToByte, toNat_noteToByte] at htoNat
  exact Fin.ext htoNat

theorem noteToByte_ne_noNote (note : Note) : noteToByte note ≠ noNote := by
  intro h
  have htoNat := congrArg UInt8.toNat h
  rw [toNat_noteToByte] at htoNat
  exact absurd note.isLt (by rw [htoNat]; decide)

theorem NoteStack.byteOf_eq_noNote_iff {note? : Option Note} : byteOf note? = noNote ↔ note? = none := by
  cases note? with
  | none => exact ⟨fun _ => rfl, fun _ => rfl⟩
  | some note => exact ⟨fun h => absurd h (noteToByte_ne_noNote note), nofun⟩

theorem NoteStack.noteToByte_eq_byteOf_iff {note : Note} {note? : Option Note} :
    noteToByte note = byteOf note? ↔ note? = some note := by
  cases note? with
  | none => exact ⟨fun h => absurd h (noteToByte_ne_noNote note), nofun⟩
  | some other =>
      exact noteToByte_injective.eq_iff.trans ⟨fun h => congrArg some h.symm, fun h => (Option.some.inj h).symm⟩

theorem NoteStack.withRole?_eq_none_iff {stack : NoteStack} {role : Role} :
    stack.withRole? role = none ↔ stack.notes = [] := by
  cases role with
  | lowest => rw [withRole?, stack.lowest?_eq, first?_eq_none_iff]
  | highest => rw [withRole?, stack.highest?_eq, first?_eq_none_iff]
  | oldest => exact List.getLast?_eq_none_iff
  | newest => exact List.head?_eq_none_iff

/-- A byte is the byte of a note, or no note at all. -/
theorem byte_cases (byte : UInt8) :
    (127 < byte ∧ noteOfByte? byte = none) ∨ ∃ note, byte = noteToByte note ∧ noteOfByte? byte = some note := by
  rw [UInt8.lt_iff_toNat_lt]
  by_cases hlt : byte.toNat < 128
  · have hbyte : byte = noteToByte ⟨byte.toNat, hlt⟩ :=
      UInt8.toNat.inj (toNat_noteToByte ⟨byte.toNat, hlt⟩).symm
    exact .inr ⟨⟨byte.toNat, hlt⟩, hbyte, dif_pos hlt⟩
  · exact .inl ⟨Nat.not_lt.mp hlt, dif_neg hlt⟩

namespace PerNote

variable {α : Type}

/-- The values of a function. -/
def ofFn (f : Note → α) : PerNote α := ⟨Vector.ofFn f⟩

@[simp] theorem get_ofFn (f : Note → α) (note : Note) : (ofFn f).get note = f note :=
  Vector.getElem_ofFn note.isLt

theorem ext_get {a b : PerNote α} (h : ∀ note, a.get note = b.get note) : a = b := by
  cases a with | mk a =>
  cases b with | mk b =>
  exact congrArg mk (Vector.ext fun i hi => h ⟨i, hi⟩)

/-- The value at a byte, if it is a note. -/
def read (table : PerNote α) (byte : UInt8) : Checked α := Checked.read table.values byte.toNat

/-- A value is put at a byte, if it is a note. -/
def write (table : PerNote α) (byte : UInt8) (value : α) : Checked (PerNote α) :=
  return ⟨← Checked.write table.values byte.toNat value⟩

theorem read_note (table : PerNote α) (note : Note) : table.read (noteToByte note) = .ok (table.get note) := by
  have hlt : (noteToByte note).toNat < 128 := by
    rw [toNat_noteToByte]
    exact note.isLt
  rw [read, Checked.read_of_lt _ hlt]
  simp only [toNat_noteToByte]
  rfl

theorem write_note (table : PerNote α) (note : Note) (value : α) :
    table.write (noteToByte note) value = .ok (table.set note value) := by
  have hlt : (noteToByte note).toNat < 128 := by
    rw [toNat_noteToByte]
    exact note.isLt
  rw [write, Checked.write_of_lt _ hlt, ok_bind, pure_eq_ok]
  simp only [toNat_noteToByte]
  rfl

end PerNote

/-! ### Neighbours in a list -/

/-- The note behind a note in a list. -/
def after? (note : Note) : List Note → Option Note
  | [] => none
  | first :: rest => if first = note then rest.head? else after? note rest

section neighbours

variable {notes : List Note} {note other : Note}

theorem after?_of_not_mem (h : note ∉ notes) : after? note notes = none := by
  induction notes with
  | nil => rfl
  | cons first rest ih =>
      obtain ⟨hfirst, hrest⟩ := List.ne_and_not_mem_of_not_mem_cons h
      rw [after?, if_neg (Ne.symm hfirst), ih hrest]

/-- Neighbours are those that stand side by side somewhere in the list. -/
theorem after?_eq_some_iff (hnodup : notes.Nodup) : after? note notes = some other ↔ [note, other] <:+: notes := by
  induction notes with
  | nil => simp [after?]
  | cons first rest ih =>
      obtain ⟨hfirst, hrest⟩ := List.nodup_cons.mp hnodup
      have hfront : [note, other] <+: first :: rest ↔ note = first ∧ rest.head? = some other := by
        rw [List.cons_prefix_cons]
        cases rest <;> simp [List.cons_prefix_cons, eq_comm]
      rw [List.infix_cons_iff, hfront, ← ih hrest, after?]
      by_cases hnote : first = note
      · have hnone : after? note rest = none := after?_of_not_mem (hnote ▸ hfirst)
        simp [hnote, hnone]
      · simp [hnote, Ne.symm hnote]

/-- The neighbours of a list are those of the reversed list, the other way round. -/
theorem after?_reverse_eq_some_iff (hnodup : notes.Nodup) :
    after? note notes.reverse = some other ↔ after? other notes = some note := by
  have hpair : [note, other] = [other, note].reverse := rfl
  rw [after?_eq_some_iff (List.nodup_reverse.mpr hnodup), after?_eq_some_iff hnodup, hpair, List.reverse_infix]

theorem mem_of_after?_eq_some (h : after? note notes = some other) : other ∈ notes := by
  induction notes with
  | nil => cases h
  | cons first rest ih =>
      rw [after?] at h
      split at h
      · exact List.mem_cons_of_mem _ (List.mem_of_head? h)
      · exact List.mem_cons_of_mem _ (ih h)

theorem after?_append_cons {front : List Note} (h : note ∉ front) (rest : List Note) :
    after? note (front ++ note :: rest) = rest.head? := by
  induction front with
  | nil => exact if_pos rfl
  | cons first front ih =>
      obtain ⟨hfirst, hfront⟩ := List.ne_and_not_mem_of_not_mem_cons h
      rw [List.cons_append, after?, if_neg (Ne.symm hfirst), ih hfront]

/-- The last note of a list has none behind it. -/
theorem after?_of_getLast? (hnodup : notes.Nodup) (h : notes.getLast? = some note) : after? note notes = none := by
  obtain ⟨front, rfl⟩ := List.getLast?_eq_some_iff.mp h
  have hnot : note ∉ front := fun hmem => List.disjoint_of_nodup_append hnodup hmem (List.mem_singleton_self note)
  exact after?_append_cons hnot []

theorem after?_eq_none_iff (hnodup : notes.Nodup) :
    after? note notes = none ↔ (note ∈ notes → notes.getLast? = some note) := by
  constructor
  · intro h hmem
    obtain ⟨front, rest, rfl, hnot⟩ := List.eq_append_cons_of_mem hmem
    rw [after?_append_cons hnot] at h
    rw [List.head?_eq_none_iff.mp h, List.getLast?_concat]
  · intro h
    by_cases hmem : note ∈ notes
    · exact after?_of_getLast? hnodup (h hmem)
    · exact after?_of_not_mem hmem

/-- In front of the first note of a list comes the one that is put there. -/
theorem after?_reverse_cons (hnodup : (note :: notes).Nodup) (other : Note) : after? other (note :: notes).reverse =
    if notes.head? = some other then some note else after? other notes.reverse := by
  obtain ⟨hnote, hnotes⟩ := List.nodup_cons.mp hnodup
  have hsplit : after? other (note :: notes).reverse = after? other (notes.reverse ++ [note]) := by
    rw [List.reverse_cons]
  by_cases hhead : notes.head? = some other
  · obtain ⟨rest, rfl⟩ := List.head?_eq_some_iff.mp hhead
    have hnot : other ∉ rest.reverse := mt List.mem_reverse.mp (List.nodup_cons.mp hnotes).1
    rw [hsplit, if_pos hhead, List.reverse_cons, List.append_assoc, List.singleton_append, after?_append_cons hnot]
    rfl
  · rw [if_neg hhead]
    ext third
    rw [after?_reverse_eq_some_iff hnodup, after?_reverse_eq_some_iff hnotes, after?]
    by_cases hthird : note = third
    · have hnone : after? third notes = none := after?_of_not_mem (hthird ▸ hnote)
      rw [if_pos hthird, hnone]
      exact ⟨fun h => absurd h hhead, nofun⟩
    · rw [if_neg hthird]

theorem head?_erase (note : Note) (notes : List Note) :
    (notes.erase note).head? = if notes.head? = some note then after? note notes else notes.head? := by
  cases notes with
  | nil => rfl
  | cons first rest =>
      by_cases hfirst : first = note
      · simp [hfirst, after?]
      · simp [hfirst, List.erase_cons_tail]

/-- When a note is taken out, the note in front of it gets the one behind it as a neighbour. -/
theorem after?_erase (hnodup : notes.Nodup) (note other : Note) : after? other (notes.erase note) =
    if note = other then none
    else if after? other notes = some note then after? note notes
    else after? other notes := by
  by_cases hsame : note = other
  · rw [if_pos hsame]
    exact after?_of_not_mem (hsame ▸ hnodup.not_mem_erase)
  rw [if_neg hsame]
  induction notes with
  | nil => simp [after?]
  | cons first rest ih =>
      obtain ⟨hfirst, hrest⟩ := List.nodup_cons.mp hnodup
      by_cases hnote : first = note
      · have hnot : after? other rest ≠ some note := fun h => hfirst (hnote ▸ mem_of_after?_eq_some h)
        have hskip : after? other (first :: rest) = after? other rest :=
          if_neg fun hother => hsame (hnote.symm.trans hother)
        rw [hskip, if_neg hnot, hnote, List.erase_cons_head]
      · have herase : (first :: rest).erase note = first :: rest.erase note :=
          List.erase_cons_tail (by simpa using hnote)
        have hskip : after? note (first :: rest) = after? note rest := if_neg hnote
        rw [herase, hskip, after?, after?]
        by_cases hother : first = other
        · rw [if_pos hother, if_pos hother, head?_erase]
        · rw [if_neg hother, if_neg hother, ih hrest]

theorem reverse_erase (hnodup : notes.Nodup) (note : Note) :
    (notes.erase note).reverse = notes.reverse.erase note := by
  rw [hnodup.erase_eq_filter, (List.nodup_reverse.mpr hnodup).erase_eq_filter, List.filter_reverse]

theorem getLast?_erase (hnodup : notes.Nodup) (note : Note) : (notes.erase note).getLast? =
    if notes.getLast? = some note then after? note notes.reverse else notes.getLast? := by
  rw [← List.head?_reverse, reverse_erase hnodup, head?_erase, List.head?_reverse]

/-- The first of some notes under an order depends only on which they are. -/
theorem IsOrder.first?_congr {notAfter : Note → Note → Bool} (order : IsOrder notAfter) {others : List Note}
    (h : ∀ note, note ∈ notes ↔ note ∈ others) : first? notAfter notes = first? notAfter others := by
  ext note
  simp only [order.first?_eq_some_iff, h]

theorem IsOrder.first?_append_singleton {notAfter : Note → Note → Bool} (order : IsOrder notAfter)
    (notes : List Note) (note : Note) : first? notAfter (notes ++ [note]) = first? notAfter (note :: notes) :=
  order.first?_congr fun _ => by rw [List.mem_append, List.mem_singleton, or_comm, List.mem_cons]

end neighbours

/-! ### The arrays of a stack -/

/-- A stack of notes as two arrays of links. -/
structure Links where
  /-- The next older note of each note. -/
  next : PerNote UInt8
  /-- The next newer note of each note. -/
  previous : PerNote UInt8
  head : UInt8
  oldest : UInt8
  lowest : UInt8
  highest : UInt8
  size : Nat

namespace Links

open NoteStack (byteOf)

def empty : Links where
  next := .replicate noNote
  previous := .replicate noNote
  head := noNote
  oldest := noNote
  lowest := noNote
  highest := noNote
  size := 0

def isEmpty (links : Links) : Bool := links.head == noNote

/-- Whether a note is in the stack. All notes of a stack but the first one have a newer one. -/
def contains (links : Links) (note : UInt8) : Checked Bool :=
  if links.head = note then .ok true
  else do return (← links.previous.read note) != noNote

/-- Whether a byte is a note in the stack. -/
def find (links : Links) (note : UInt8) : Checked Bool :=
  if 127 < note then .ok false else links.contains note

/-- Links a note to another one, if it is a note. -/
def relink (table : PerNote UInt8) (note other : UInt8) : Checked (PerNote UInt8) :=
  if note = noNote then .ok table else table.write note other

/-- Takes a note out of the links. -/
def unlink (links : Links) (note : UInt8) : Checked Links := do
  let older ← links.next.read note
  let newer ← links.previous.read note
  let previous ← relink links.previous older newer
  let next ← (if note = links.head then .ok links.next else relink links.next newer older)
  let next ← next.write note noNote
  let previous ← previous.write note noNote
  let size ← minus links.size 1
  return { links with
    next, previous, size
    head := if note = links.head then older else links.head
    oldest := if note = links.oldest then newer else links.oldest }

def lower (lowest note : UInt8) : UInt8 := if lowest = noNote ∨ note < lowest then note else lowest

def higher (highest note : UInt8) : UInt8 := if highest = noNote ∨ highest < note then note else highest

/-- Where a walk from the newest note to the oldest one is, and the extremes of the notes it has passed. -/
structure Walk where
  note : UInt8
  lowest : UInt8
  highest : UInt8

/-- One step of a walk. -/
def Walk.step (links : Links) (walk : Walk) : Checked Walk := do
  let next ← links.next.read walk.note
  return ⟨next, lower walk.lowest walk.note, higher walk.highest walk.note⟩

/-- Looks for the extremes again if one of them has been taken out. -/
def refreshExtremes (links : Links) (removed : UInt8) : Checked Links :=
  if links.isEmpty then .ok { links with lowest := noNote, highest := noNote }
  else if removed ≠ links.lowest ∧ removed ≠ links.highest then .ok links
  else do
    let walk ← loop (·.note == noNote) (Walk.step links) 128 ⟨links.head, noNote, noNote⟩
    return { links with lowest := walk.lowest, highest := walk.highest }

/-- Takes out a note that is in the stack. -/
def takeOut (links : Links) (note : UInt8) : Checked Links := do
  let links ← links.unlink note
  links.refreshExtremes note

/-- Makes a note the newest. -/
def push (links : Links) (note : UInt8) : Checked Links :=
  if 127 < note then .ok links
  else do
    let links ← (if ← links.contains note then links.takeOut note else .ok links)
    let previous ← relink links.previous links.head note
    let next ← links.next.write note links.head
    let previous ← previous.write note noNote
    return {
      next, previous
      head := note
      oldest := if links.oldest = noNote then note else links.oldest
      lowest := lower links.lowest note
      highest := higher links.highest note
      size := links.size + 1 }

def remove (links : Links) (note : UInt8) : Checked Links := do
  if ← links.find note then links.takeOut note else return links

/-- Takes the newest note out, if there is one. -/
def pop (links : Links) : Checked (UInt8 × Links) := do
  if links.head = noNote then return (noNote, links)
  else return (links.head, ← links.remove links.head)

/-- The arrays of a list of notes. -/
def ofNotes (notes : List Note) : Links where
  next := .ofFn fun note => byteOf (after? note notes)
  previous := .ofFn fun note => byteOf (after? note notes.reverse)
  head := byteOf notes.head?
  oldest := byteOf notes.getLast?
  lowest := byteOf (first? upward notes)
  highest := byteOf (first? downward notes)
  size := notes.length

variable {notes : List Note} {note : Note}

theorem ofNotes_nil : ofNotes [] = empty := by
  have hnone : ∀ note : Note, (PerNote.ofFn fun note => byteOf (after? note [])).get note =
      (PerNote.replicate noNote).get note := by
    intro note
    rw [PerNote.get_ofFn, PerNote.get_replicate]
    rfl
  simp only [ofNotes, empty, List.reverse_nil, PerNote.ext_get hnone]
  rfl

theorem isEmpty_ofNotes : (ofNotes notes).isEmpty = notes.isEmpty := by
  cases notes with
  | nil => rfl
  | cons first rest => exact beq_false_of_ne (noteToByte_ne_noNote first)

theorem not_lt_noteToByte (note : Note) : ¬127 < noteToByte note := by
  rw [UInt8.lt_iff_toNat_lt, toNat_noteToByte]
  exact Nat.not_lt.mpr (Nat.le_of_lt_succ note.isLt)

theorem read_next (note : Note) : (ofNotes notes).next.read (noteToByte note) = .ok (byteOf (after? note notes)) := by
  rw [PerNote.read_note, ofNotes, PerNote.get_ofFn]

theorem read_previous (note : Note) :
    (ofNotes notes).previous.read (noteToByte note) = .ok (byteOf (after? note notes.reverse)) := by
  rw [PerNote.read_note, ofNotes, PerNote.get_ofFn]

/-- A note of a list is the newest one or has a newer one. -/
theorem contains_ofNotes (hnodup : notes.Nodup) (note : Note) :
    (ofNotes notes).contains (noteToByte note) = .ok (decide (note ∈ notes)) := by
  have hhead : (ofNotes notes).head = noteToByte note ↔ notes.head? = some note :=
    eq_comm.trans NoteStack.noteToByte_eq_byteOf_iff
  have hnewer : byteOf (after? note notes.reverse) = noNote ↔ (note ∈ notes → notes.head? = some note) := by
    rw [NoteStack.byteOf_eq_noNote_iff, after?_eq_none_iff (List.nodup_reverse.mpr hnodup), List.mem_reverse,
      List.getLast?_reverse]
  rw [contains]
  by_cases hfirst : notes.head? = some note
  · rw [if_pos (hhead.mpr hfirst), decide_eq_true (List.mem_of_head? hfirst)]
  · rw [if_neg (mt hhead.mp hfirst), read_previous, ok_bind, pure_eq_ok]
    by_cases hmem : note ∈ notes
    · have hsome := mt hnewer.mp fun h => hfirst (h hmem)
      rw [decide_eq_true hmem, bne_iff_ne.mpr hsome]
    · have hnone := hnewer.mpr fun h => absurd h hmem
      rw [decide_eq_false hmem, hnone, bne_self_eq_false]

theorem find_ofNotes (hnodup : notes.Nodup) (note : Note) :
    (ofNotes notes).find (noteToByte note) = .ok (decide (note ∈ notes)) := by
  rw [find, if_neg (not_lt_noteToByte note), contains_ofNotes hnodup]

/-! ### Taking a note out -/

theorem relink_byteOf (table : PerNote UInt8) (note? : Option Note) (byte : UInt8) :
    ∃ relinked, relink table (byteOf note?) byte = .ok relinked
      ∧ ∀ other, relinked.get other = if note? = some other then byte else table.get other := by
  cases note? with
  | none => exact ⟨table, if_pos rfl, fun _ => rfl⟩
  | some note =>
      refine ⟨table.set note byte, ?_, fun other => ?_⟩
      · rw [relink]
        exact (if_neg (noteToByte_ne_noNote note)).trans (table.write_note note byte)
      · rw [PerNote.get_set]
        simp only [Option.some.injEq]

/-- The older note of a note becomes that of its newer one; the newest note has none. -/
theorem relink_next (hnodup : notes.Nodup) (note : Note) : ∃ relinked,
    (if noteToByte note = (ofNotes notes).head then .ok (ofNotes notes).next
      else relink (ofNotes notes).next (byteOf (after? note notes.reverse)) (byteOf (after? note notes))) =
        .ok relinked
      ∧ ∀ other, relinked.get other =
        byteOf (if after? other notes = some note then after? note notes else after? other notes) := by
  have hnext : ∀ other, (ofNotes notes).next.get other = byteOf (after? other notes) := fun other =>
    PerNote.get_ofFn _ other
  by_cases hhead : noteToByte note = (ofNotes notes).head
  · have hfirst : notes.reverse.getLast? = some note := by
      rw [List.getLast?_reverse]
      exact NoteStack.noteToByte_eq_byteOf_iff.mp hhead
    have hnone : after? note notes.reverse = none := after?_of_getLast? (List.nodup_reverse.mpr hnodup) hfirst
    refine ⟨_, if_pos hhead, fun other => ?_⟩
    have hnot : after? other notes ≠ some note := fun h =>
      absurd ((after?_reverse_eq_some_iff hnodup).mpr h) (by rw [hnone]; nofun)
    rw [hnext, if_neg hnot]
  · obtain ⟨relinked, hrelink, hget⟩ :=
      relink_byteOf (ofNotes notes).next (after? note notes.reverse) (byteOf (after? note notes))
    refine ⟨relinked, (if_neg hhead).trans hrelink, fun other => ?_⟩
    simp only [hget, hnext, after?_reverse_eq_some_iff hnodup]
    split <;> rfl

theorem unlink_ofNotes (hnodup : notes.Nodup) (hmem : note ∈ notes) :
    (ofNotes notes).unlink (noteToByte note) = .ok { ofNotes (notes.erase note) with
      lowest := byteOf (first? upward notes), highest := byteOf (first? downward notes) } := by
  obtain ⟨previous, hprevious, hgetPrevious⟩ :=
    relink_byteOf (ofNotes notes).previous (after? note notes) (byteOf (after? note notes.reverse))
  obtain ⟨next, hnext, hgetNext⟩ := relink_next hnodup note
  have hsize : minus (ofNotes notes).size 1 = .ok (notes.erase note).length := by
    rw [List.length_erase_of_mem hmem]
    exact minus_of_le (List.length_pos_of_mem hmem)
  have hnextOf : next.set note noNote = (ofNotes (notes.erase note)).next := by
    refine PerNote.ext_get fun other => ?_
    rw [PerNote.get_set, hgetNext, ofNotes, PerNote.get_ofFn, after?_erase hnodup]
    split <;> rfl
  have hpreviousOf : previous.set note noNote = (ofNotes (notes.erase note)).previous := by
    refine PerNote.ext_get fun other => ?_
    simp only [PerNote.get_set, hgetPrevious, ofNotes, PerNote.get_ofFn, reverse_erase hnodup,
      after?_erase (List.nodup_reverse.mpr hnodup), after?_reverse_eq_some_iff hnodup]
    split
    · rfl
    · split <;> rfl
  have hhead : (if noteToByte note = (ofNotes notes).head then byteOf (after? note notes) else (ofNotes notes).head) =
      (ofNotes (notes.erase note)).head := by
    rw [ofNotes, ofNotes, head?_erase]
    simp only [NoteStack.noteToByte_eq_byteOf_iff]
    split <;> rfl
  have holdest : (if noteToByte note = (ofNotes notes).oldest then byteOf (after? note notes.reverse)
      else (ofNotes notes).oldest) = (ofNotes (notes.erase note)).oldest := by
    rw [ofNotes, ofNotes, getLast?_erase hnodup]
    simp only [NoteStack.noteToByte_eq_byteOf_iff]
    split <;> rfl
  rw [unlink, read_next, ok_bind, read_previous, ok_bind, hprevious, ok_bind, hnext, ok_bind, PerNote.write_note,
    ok_bind, PerNote.write_note, ok_bind, hsize, ok_bind, pure_eq_ok, hnextOf, hpreviousOf, hhead, holdest]
  rfl

theorem lower_byteOf (notes : List Note) (note : Note) :
    lower (byteOf (first? upward notes)) (noteToByte note) = byteOf (first? upward (note :: notes)) := by
  rw [lower, first?]
  cases first? upward notes with
  | none => exact if_pos (.inl rfl)
  | some lowest =>
      have hlt : noteToByte note < noteToByte lowest ↔ note.val < lowest.val := by
        rw [UInt8.lt_iff_toNat_lt, toNat_noteToByte, toNat_noteToByte]
      have hnone : noteToByte lowest ≠ noNote := noteToByte_ne_noNote lowest
      simp only [byteOf, Option.elim_some, hnone, hlt, false_or, upward, decide_eq_true_eq]
      rcases Nat.lt_trichotomy note.val lowest.val with hless | hsame | hmore
      · rw [if_pos hless, if_pos hless.le]
      · rw [if_neg hsame.not_lt, if_pos hsame.le, Fin.ext hsame]
      · rw [if_neg hmore.not_gt, if_neg hmore.not_ge]

theorem higher_byteOf (notes : List Note) (note : Note) :
    higher (byteOf (first? downward notes)) (noteToByte note) = byteOf (first? downward (note :: notes)) := by
  rw [higher, first?]
  cases first? downward notes with
  | none => exact if_pos (.inl rfl)
  | some highest =>
      have hlt : noteToByte highest < noteToByte note ↔ highest.val < note.val := by
        rw [UInt8.lt_iff_toNat_lt, toNat_noteToByte, toNat_noteToByte]
      have hnone : noteToByte highest ≠ noNote := noteToByte_ne_noNote highest
      simp only [byteOf, Option.elim_some, hnone, hlt, false_or, downward, decide_eq_true_eq]
      rcases Nat.lt_trichotomy highest.val note.val with hless | hsame | hmore
      · rw [if_pos hless, if_pos hless.le]
      · rw [if_neg hsame.not_lt, if_pos hsame.le, Fin.ext hsame]
      · rw [if_neg hmore.not_gt, if_neg hmore.not_ge]

theorem length_le_of_nodup (hnodup : notes.Nodup) : notes.length ≤ 128 :=
  hnodup.length_le_card.trans (Fintype.card_fin 128).le

/-- A loop that goes along the links of a list, one note a round, comes to the end of the list or to its limit, if each
round keeps what holds between the notes that are passed, those that are left and the state of the loop. -/
theorem loop_along {σ : Type} {done : σ → Bool} {round : σ → Checked σ} {Inv : List Note → List Note → σ → Prop}
    {limit bound : ℕ} (hbound : min notes.length limit ≤ bound)
    (hdone : ∀ seen rest state, notes = seen ++ rest → seen.length ≤ limit → Inv seen rest state →
      done state = (rest.isEmpty || seen.length == limit))
    (hround : ∀ seen note rest state, notes = seen ++ note :: rest → seen.length < limit →
      Inv seen (note :: rest) state → Yields (round state) (Inv (seen ++ [note]) rest))
    {start : σ} (h : Inv [] notes start) :
    Yields (loop done round bound start) (Inv (notes.take limit) (notes.drop limit)) := by
  let Along (left : ℕ) (state : σ) : Prop := ∃ seen rest, notes = seen ++ rest ∧ seen.length ≤ limit
    ∧ left = min rest.length (limit - seen.length) ∧ Inv seen rest state
  have hend : ∀ state, Along 0 state → done state = true := by
    rintro state ⟨seen, rest, hnotes, hroom, hleft, hinv⟩
    rw [hdone seen rest state hnotes hroom hinv, Bool.or_eq_true, List.isEmpty_iff, beq_iff_eq,
      ← List.length_eq_zero_iff]
    omega
  have hnext : ∀ left state, Along (left + 1) state → done state = false ∧ Yields (round state) (Along left) := by
    rintro left state ⟨seen, rest, hnotes, hroom, hleft, hinv⟩
    obtain ⟨note, rest, rfl⟩ : ∃ note later, rest = note :: later := List.exists_cons_of_length_pos (by omega)
    have hlt : seen.length < limit := by omega
    refine ⟨?_, (hround seen note rest state hnotes hlt hinv).mono fun after hafter => ⟨seen ++ [note], rest, ?_⟩⟩
    · rw [hdone seen _ state hnotes hroom hinv, List.isEmpty_cons, Bool.false_or]
      exact beq_false_of_ne hlt.ne
    · rw [List.length_append, List.length_singleton, List.append_assoc, List.singleton_append]
      rw [List.length_cons] at hleft
      exact ⟨hnotes, hlt, by omega, hafter⟩
  have hstart : Along (min notes.length limit) start := ⟨[], notes, rfl, Nat.zero_le _, rfl, h⟩
  refine (Yields.loop hend hnext hbound hstart).mono ?_
  rintro after ⟨seen, rest, hnotes, hroom, hleft, hinv⟩
  have htake : notes.take limit = seen := by
    rw [hnotes]
    rcases Nat.eq_zero_or_pos rest.length with hrest | hrest
    · rw [List.length_eq_zero_iff.mp hrest, List.append_nil, List.take_of_length_le hroom]
    · exact List.take_left' (by omega)
  have hsplit : seen ++ notes.drop limit = seen ++ rest := by
    rw [← hnotes, ← htake, List.take_append_drop]
  have hdrop : notes.drop limit = rest := List.append_cancel_left hsplit
  rw [htake, hdrop]
  exact hinv

/-- The link of a note that a loop comes to leads to the notes that are left. -/
theorem read_next_append (hnodup : notes.Nodup) {seen rest : List Note} {note : Note}
    (hnotes : notes = seen ++ note :: rest) :
    (ofNotes notes).next.read (noteToByte note) = .ok (byteOf rest.head?) := by
  have hseen : note ∉ seen := by
    rw [hnotes] at hnodup
    exact fun hmem => List.disjoint_of_nodup_append hnodup hmem List.mem_cons_self
  rw [read_next, hnotes, after?_append_cons hseen]

theorem byteOf_head?_beq (notes : List Note) : (byteOf notes.head? == noNote) = notes.isEmpty := by
  cases notes with
  | nil => rfl
  | cons first rest => exact beq_false_of_ne (noteToByte_ne_noNote first)

/-- A walk along the links passes every note of the list and comes to an end. -/
theorem walk_ofNotes {links : Links} (hnodup : notes.Nodup) (hnext : links.next = (ofNotes notes).next) :
    loop (·.note == noNote) (Walk.step links) 128 ⟨byteOf notes.head?, noNote, noNote⟩ =
      .ok ⟨noNote, byteOf (first? upward notes), byteOf (first? downward notes)⟩ := by
  let Inv (seen rest : List Note) (walk : Walk) : Prop :=
    walk = ⟨byteOf rest.head?, byteOf (first? upward seen), byteOf (first? downward seen)⟩
  have hdone : ∀ seen rest walk, notes = seen ++ rest → seen.length ≤ notes.length → Inv seen rest walk →
      (walk.note == noNote) = (rest.isEmpty || seen.length == notes.length) := by
    rintro seen rest _ hnotes - rfl
    rw [byteOf_head?_beq, hnotes]
    cases rest with
    | nil => rfl
    | cons note rest => simp
  have hround : ∀ seen note rest walk, notes = seen ++ note :: rest → seen.length < notes.length →
      Inv seen (note :: rest) walk → Yields (walk.step links) (Inv (seen ++ [note]) rest) := by
    rintro seen note rest _ hnotes - rfl
    have hread : links.next.read (noteToByte note) = .ok (byteOf rest.head?) := by
      rw [hnext, read_next_append hnodup hnotes]
    refine ⟨_, ?_, rfl⟩
    rw [Walk.step]
    show (links.next.read (noteToByte note) >>= _) = _
    rw [hread, ok_bind, pure_eq_ok, isOrder_upward.first?_append_singleton,
      isOrder_downward.first?_append_singleton, ← lower_byteOf, ← higher_byteOf]
    rfl
  have hbound : min notes.length notes.length ≤ 128 := (Nat.min_le_left _ _).trans (length_le_of_nodup hnodup)
  have hstart : Inv [] notes ⟨byteOf notes.head?, noNote, noNote⟩ := rfl
  obtain ⟨walk, hwalk, rfl⟩ := loop_along hbound hdone hround hstart
  rw [List.take_length, List.drop_length] at hwalk
  exact hwalk

theorem takeOut_ofNotes (hnodup : notes.Nodup) (hmem : note ∈ notes) :
    (ofNotes notes).takeOut (noteToByte note) = .ok (ofNotes (notes.erase note)) := by
  let others := notes.erase note
  let links : Links := { ofNotes others with
    lowest := byteOf (first? upward notes), highest := byteOf (first? downward notes) }
  have hnone : links.isEmpty = others.isEmpty := isEmpty_ofNotes
  rw [takeOut, unlink_ofNotes hnodup hmem, ok_bind, refreshExtremes]
  by_cases hempty : others = []
  · rw [if_pos (hnone.trans (List.isEmpty_iff.mpr hempty))]
    simp only [ofNotes, show notes.erase note = [] from hempty]
    rfl
  rw [if_neg fun h => hempty (List.isEmpty_iff.mp (hnone.symm.trans h))]
  by_cases hinner : noteToByte note ≠ links.lowest ∧ noteToByte note ≠ links.highest
  · have hlowest : first? upward others = first? upward notes :=
      isOrder_upward.first?_erase_of_ne (mt NoteStack.noteToByte_eq_byteOf_iff.mpr hinner.1)
    have hhighest : first? downward others = first? downward notes :=
      isOrder_downward.first?_erase_of_ne (mt NoteStack.noteToByte_eq_byteOf_iff.mpr hinner.2)
    rw [if_pos hinner, ← hlowest, ← hhighest]
    rfl
  · have hnext : links.next = (ofNotes others).next := rfl
    have hwalk := walk_ofNotes (hnodup.erase note) hnext
    have hhead : links.head = byteOf others.head? := rfl
    rw [if_neg hinner]
    show loop (·.note == noNote) (Walk.step links) 128 ⟨links.head, noNote, noNote⟩ >>= _ = _
    rw [hhead, hwalk]
    rfl

/-- There is nothing to take out of empty links; the count would fall below zero. -/
example : empty.takeOut 60 = .error .underflow := rfl

/-! ### The operations -/

theorem push_ofNotes (hnodup : notes.Nodup) (note : Note) :
    (ofNotes notes).push (noteToByte note) = .ok (ofNotes (note :: notes.erase note)) := by
  let others := notes.erase note
  have hothers : (if decide (note ∈ notes) = true then (ofNotes notes).takeOut (noteToByte note)
      else .ok (ofNotes notes)) = .ok (ofNotes others) := by
    by_cases hmem : note ∈ notes
    · rw [if_pos (decide_eq_true hmem), takeOut_ofNotes hnodup hmem]
    · have hsame : others = notes := List.erase_of_not_mem hmem
      rw [if_neg (by rw [decide_eq_true_eq]; exact hmem), hsame]
  have hnot : note ∉ others := hnodup.not_mem_erase
  obtain ⟨previous, hprevious, hget⟩ := relink_byteOf (ofNotes others).previous others.head? (noteToByte note)
  have hnextOf : (ofNotes others).next.set note (byteOf others.head?) = (ofNotes (note :: others)).next := by
    refine PerNote.ext_get fun other => ?_
    simp only [PerNote.get_set, ofNotes, PerNote.get_ofFn, after?]
    split <;> rfl
  have hcons : (note :: others).Nodup := List.nodup_cons.mpr ⟨hnot, hnodup.erase note⟩
  have hpreviousOf : previous.set note noNote = (ofNotes (note :: others)).previous := by
    refine PerNote.ext_get fun other => ?_
    have hfirst : note = other → after? other (note :: others).reverse = none := fun hsame =>
      after?_of_getLast? (List.nodup_reverse.mpr hcons) (by rw [List.getLast?_reverse, ← hsame]; rfl)
    rw [PerNote.get_set, hget]
    simp only [ofNotes, PerNote.get_ofFn]
    by_cases hsame : note = other
    · rw [if_pos hsame, hfirst hsame]
      rfl
    · rw [if_neg hsame, after?_reverse_cons hcons]
      split <;> rfl
  have holdest : (if (ofNotes others).oldest = noNote then noteToByte note else (ofNotes others).oldest) =
      (ofNotes (note :: others)).oldest := by
    simp only [ofNotes, NoteStack.byteOf_eq_noNote_iff, List.getLast?_eq_none_iff, List.getLast?_cons]
    cases hlast : others.getLast? with
    | none => exact if_pos (List.getLast?_eq_none_iff.mp hlast)
    | some oldest => exact if_neg fun hnil => absurd hlast (by rw [hnil]; nofun)
  rw [push, if_neg (not_lt_noteToByte note), contains_ofNotes hnodup, ok_bind, hothers, ok_bind]
  show (relink (ofNotes others).previous (byteOf others.head?) (noteToByte note) >>= _) = _
  rw [hprevious, ok_bind, PerNote.write_note, ok_bind, PerNote.write_note, ok_bind, pure_eq_ok, hpreviousOf, holdest]
  show Except.ok (Links.mk ((ofNotes others).next.set note (byteOf others.head?)) _ _ _
    (lower (byteOf (first? upward others)) _) (higher (byteOf (first? downward others)) _) _) = _
  rw [hnextOf, lower_byteOf, higher_byteOf]
  rfl

theorem remove_ofNotes (hnodup : notes.Nodup) (note : Note) :
    (ofNotes notes).remove (noteToByte note) = .ok (ofNotes (notes.erase note)) := by
  rw [remove, find_ofNotes hnodup, ok_bind]
  by_cases hmem : note ∈ notes
  · rw [if_pos (decide_eq_true hmem), takeOut_ofNotes hnodup hmem]
  · rw [if_neg (by rw [decide_eq_true_eq]; exact hmem), List.erase_of_not_mem hmem]
    rfl

theorem pop_ofNotes (hnodup : notes.Nodup) :
    (ofNotes notes).pop = .ok (byteOf notes.head?, ofNotes notes.tail) := by
  cases notes with
  | nil => exact if_pos rfl
  | cons first rest =>
      have hhead : (ofNotes (first :: rest)).head = noteToByte first := rfl
      rw [pop, hhead, if_neg (noteToByte_ne_noNote first), remove_ofNotes hnodup, List.erase_cons_head]
      rfl

/-! ### Values of the notes -/

/-- Where a walk that gathers the values of notes is, and how many it has gathered. -/
structure Gathering (α : Type) where
  note : UInt8
  count : Nat
  values : Vector α 16

variable {α : Type}

/-- One step of a walk that gathers values. -/
def Gathering.step (links : Links) (table : PerNote α) (gathering : Gathering α) : Checked (Gathering α) := do
  let value ← table.read gathering.note
  let values ← Checked.write gathering.values gathering.count value
  let next ← links.next.read gathering.note
  return ⟨next, gathering.count + 1, values⟩

/-- Gathers the values of the newest notes, as many as there is room for, and how many these are. -/
def gather (links : Links) (table : PerNote α) (values : Vector α 16) : Checked (Nat × Vector α 16) := do
  let gathering ← loop (fun gathering => gathering.note == noNote || gathering.count == 16)
    (Gathering.step links table) 16 ⟨links.head, 0, values⟩
  return (gathering.count, gathering.values)

/-- What is gathered takes the place of the first values; the others stay. -/
theorem gather_ofNotes (hnodup : notes.Nodup) (table : PerNote α) (values : Vector α 16) :
    Yields ((ofNotes notes).gather table values) fun gathered => gathered.1 = (notes.take 16).length
      ∧ gathered.2.toList = (notes.take 16).map table.get ++ values.toList.drop (notes.take 16).length := by
  let Inv (seen rest : List Note) (gathering : Gathering α) : Prop := gathering.note = byteOf rest.head?
    ∧ gathering.count = seen.length ∧ gathering.values.toList = seen.map table.get ++ values.toList.drop seen.length
  have hdone : ∀ seen rest gathering, notes = seen ++ rest → seen.length ≤ 16 → Inv seen rest gathering →
      (gathering.note == noNote || gathering.count == 16) = (rest.isEmpty || seen.length == 16) := by
    rintro seen rest gathering - - ⟨hnote, hcount, -⟩
    rw [hnote, hcount, byteOf_head?_beq]
  have hround : ∀ seen note rest gathering, notes = seen ++ note :: rest → seen.length < 16 →
      Inv seen (note :: rest) gathering →
      Yields (gathering.step (ofNotes notes) table) (Inv (seen ++ [note]) rest) := by
    rintro seen note rest gathering hnotes hlt ⟨hnote, hcount, hvalues⟩
    have hbyte : gathering.note = noteToByte note := hnote
    refine ⟨⟨byteOf rest.head?, seen.length + 1, gathering.values.set seen.length (table.get note)⟩, ?_, rfl, ?_, ?_⟩
    · simp only [Gathering.step, hbyte, hcount, PerNote.read_note, ok_bind, Checked.write_of_lt _ hlt,
        read_next_append hnodup hnotes, pure_eq_ok]
    · rw [List.length_append, List.length_singleton]
    · have hroom : seen.length < values.toList.length := by
        rw [Vector.length_toList]
        exact hlt
      have hfront : (seen.map table.get).length = seen.length := List.length_map _
      rw [Vector.toList_set, hvalues, List.set_append_right _ _ hfront.le, hfront, Nat.sub_self,
        List.drop_eq_getElem_cons hroom, List.set_cons_zero, List.map_append, List.length_append,
        List.append_assoc]
      rfl
  have hstart : Inv [] notes ⟨byteOf notes.head?, 0, values⟩ := ⟨rfl, rfl, rfl⟩
  refine (loop_along (Nat.min_le_right _ _) hdone hround hstart).bind fun gathering hgathering => ?_
  exact .ok hgathering.2

/-- The values that are gathered are in front. -/
theorem front_gather_ofNotes (hnodup : notes.Nodup) (table : PerNote α) (values : Vector α 16) :
    Yields ((ofNotes notes).gather table values) fun gathered =>
      front gathered.2 gathered.1 = .ok ((notes.take 16).map table.get) := by
  refine (gather_ofNotes hnodup table values).mono fun gathered hgathered => ?_
  obtain ⟨hcount, hvalues⟩ := hgathered
  have hlength : ((notes.take 16).map table.get).length = (notes.take 16).length := List.length_map _
  rw [hcount, front_of_le _ (List.length_take_le _ _), hvalues, ← hlength, List.take_left]

/-- The note with a role, or the byte for none. -/
def withRole (links : Links) : Role → UInt8
  | .lowest => links.lowest
  | .highest => links.highest
  | .oldest => links.oldest
  | .newest => links.head

theorem withRole_ofNotes (stack : NoteStack) (role : Role) :
    (ofNotes stack.notes).withRole role = byteOf (stack.withRole? role) := by
  cases role with
  | lowest => exact congrArg byteOf stack.lowest?_eq.symm
  | highest => exact congrArg byteOf stack.highest?_eq.symm
  | oldest => rfl
  | newest => rfl

/-- The channels of the notes with a role. -/
def roleChannels (links : Links) (channels : PerNote (Option Channel)) : Checked RoleChannels :=
  if links.isEmpty then .ok .empty
  else do
    let lowest ← channels.read links.lowest
    let highest ← channels.read links.highest
    let oldest ← channels.read links.oldest
    let newest ← channels.read links.head
    return ⟨lowest, highest, oldest, newest⟩

theorem roleChannels_ofNotes {channels : PerNote (Option Channel)} {stack : NoteStack} {channelOf : Note → Channel}
    (h : ∀ note ∈ stack.notes, channels.get note = some (channelOf note)) :
    (ofNotes stack.notes).roleChannels channels = .ok (.ofStack stack channelOf) := by
  by_cases hempty : stack.notes = []
  · have hnone : ∀ role, (stack.withRole? role).map channelOf = none := fun role =>
      Option.map_eq_none_iff.mpr (NoteStack.withRole?_eq_none_iff.mpr hempty)
    have hroles : RoleChannels.ofStack stack channelOf = .empty :=
      RoleChannels.mk.injEq .. ▸ ⟨hnone .lowest, hnone .highest, hnone .oldest, hnone .newest⟩
    rw [roleChannels, isEmpty_ofNotes, if_pos (List.isEmpty_iff.mpr hempty), hroles]
  · have hread : ∀ role, channels.read ((ofNotes stack.notes).withRole role) =
        .ok ((stack.withRole? role).map channelOf) := by
      intro role
      obtain ⟨note, hnote⟩ := Option.ne_none_iff_exists'.mp (mt NoteStack.withRole?_eq_none_iff.mp hempty)
      rw [withRole_ofNotes, hnote]
      exact (channels.read_note note).trans (congrArg Except.ok (h note (NoteStack.mem_of_withRole? hnote)))
    have hlowest := hread .lowest
    have hhighest := hread .highest
    have holdest := hread .oldest
    have hnewest := hread .newest
    simp only [withRole] at hlowest hhighest holdest hnewest
    rw [roleChannels, isEmpty_ofNotes, if_neg (mt List.isEmpty_iff.mp hempty), hlowest, ok_bind, hhighest, ok_bind,
      holdest, ok_bind, hnewest]
    rfl

end Links

end PolyExpression
