import PolyExpression.Controller

/-!
The held notes, newest first. A note is in the stack at most once; starting it again makes it the newest.
The lowest and the highest note are kept beside the list, so that reading them takes no walk, and are
looked for again only when one of them leaves. Main statements: what each operation does to `notes`.
-/

namespace PolyExpression

/-- The byte that stands for no note. -/
def noNote : UInt8 := 255

/-- The note of a byte, if it is one. -/
def noteOfByte? (b : UInt8) : Option Note :=
  if h : b.toNat < 128 then some ⟨b.toNat, h⟩ else none

def noteToByte (note : Note) : UInt8 := note.val.toUInt8

theorem toNat_noteToByte (note : Note) : (noteToByte note).toNat = note.val :=
  Nat.mod_eq_of_lt (Nat.lt_trans note.isLt (by decide))

/-! ### Extremes of a list of notes -/

/-- The note of a list that is not after any other, under a total order given as a comparison. -/
def first? (notAfter : Note → Note → Bool) : List Note → Option Note
  | [] => none
  | note :: rest =>
      some ((first? notAfter rest).elim note fun other => if notAfter note other then note else other)

/-- A comparison that orders the notes, each two of them one way. -/
structure IsOrder (notAfter : Note → Note → Bool) : Prop where
  total : ∀ a b, notAfter a b = true ∨ notAfter b a = true
  trans : ∀ a b c, notAfter a b = true → notAfter b c = true → notAfter a c = true
  antisymm : ∀ a b, notAfter a b = true → notAfter b a = true → a = b

theorem first?_eq_none_iff {notAfter : Note → Note → Bool} {notes : List Note} :
    first? notAfter notes = none ↔ notes = [] := by
  cases notes <;> simp [first?]

theorem IsOrder.first?_eq_some_iff {notAfter : Note → Note → Bool} (order : IsOrder notAfter)
    {notes : List Note} {note : Note} :
    first? notAfter notes = some note ↔ note ∈ notes ∧ ∀ other ∈ notes, notAfter note other = true := by
  have hrefl : ∀ a, notAfter a a = true := fun a => (order.total a a).elim id id
  have hsound : ∀ (notes : List Note) (note : Note), first? notAfter notes = some note →
      note ∈ notes ∧ ∀ other ∈ notes, notAfter note other = true := by
    intro notes
    induction notes with
    | nil => simp [first?]
    | cons head rest ih =>
        intro note h
        cases hrest : first? notAfter rest with
        | none =>
            obtain rfl := first?_eq_none_iff.mp hrest
            simp_all [first?]
        | some best =>
            obtain ⟨hmem, hall⟩ := ih best hrest
            simp only [first?, hrest, Option.elim_some, Option.some.injEq] at h
            split at h
            · subst h
              rename_i hle
              refine ⟨List.mem_cons_self, fun other hother => ?_⟩
              rcases List.mem_cons.mp hother with rfl | hother
              · exact hrefl _
              · exact order.trans _ _ _ hle (hall other hother)
            · subst h
              rename_i hle
              refine ⟨List.mem_cons_of_mem _ hmem, fun other hother => ?_⟩
              rcases List.mem_cons.mp hother with rfl | hother
              · exact (order.total _ _).resolve_left hle
              · exact hall other hother
  refine ⟨hsound notes note, fun ⟨hmem, hall⟩ => ?_⟩
  cases hfirst : first? notAfter notes with
  | none => simp_all [first?_eq_none_iff]
  | some best =>
      obtain ⟨hbest, hbestAll⟩ := hsound notes best hfirst
      rw [order.antisymm _ _ (hall best hbest) (hbestAll note hmem)]

theorem IsOrder.first?_erase_of_ne {notAfter : Note → Note → Bool} (order : IsOrder notAfter)
    {notes : List Note} {note : Note} (hne : first? notAfter notes ≠ some note) :
    first? notAfter (notes.erase note) = first? notAfter notes := by
  cases hfirst : first? notAfter notes with
  | none => simp [first?_eq_none_iff.mp hfirst, first?]
  | some best =>
      have h := order.first?_eq_some_iff.mp hfirst
      refine order.first?_eq_some_iff.mpr ⟨?_, fun other hother => h.2 other (List.mem_of_mem_erase hother)⟩
      exact (List.mem_erase_of_ne fun e => hne (by rw [hfirst, e])).mpr h.1

/-- Lower notes come first. -/
def upward (a b : Note) : Bool := a.val ≤ b.val

/-- Higher notes come first. -/
def downward (a b : Note) : Bool := b.val ≤ a.val

theorem isOrder_upward : IsOrder upward where
  total a b := by
    simp only [upward, decide_eq_true_eq]
    exact Nat.le_total a.val b.val
  trans a b c := by
    simp only [upward, decide_eq_true_eq]
    exact fun h1 h2 => Nat.le_trans h1 h2
  antisymm a b := by
    simp only [upward, decide_eq_true_eq]
    exact fun h1 h2 => Fin.ext (Nat.le_antisymm h1 h2)

theorem isOrder_downward : IsOrder downward where
  total a b := by
    simp only [downward, decide_eq_true_eq]
    exact Nat.le_total b.val a.val
  trans a b c := by
    simp only [downward, decide_eq_true_eq]
    exact fun h1 h2 => Nat.le_trans h2 h1
  antisymm a b := by
    simp only [downward, decide_eq_true_eq]
    exact fun h1 h2 => Fin.ext (Nat.le_antisymm h2 h1)

/-! ### The stack -/

structure NoteStack where
  notes : List Note
  lowest? : Option Note
  highest? : Option Note
  nodup : notes.Nodup
  lowest?_eq : lowest? = first? upward notes
  highest?_eq : highest? = first? downward notes

namespace NoteStack

def empty : NoteStack := ⟨[], none, none, List.nodup_nil, rfl, rfl⟩

def isEmpty (stack : NoteStack) : Bool := stack.notes.isEmpty

def size (stack : NoteStack) : Nat := stack.notes.length

/-- The note started last. -/
def newest? (stack : NoteStack) : Option Note := stack.notes.head?

/-- The note started first. -/
def oldest? (stack : NoteStack) : Option Note := stack.notes.getLast?

def contains (stack : NoteStack) (note : Note) : Bool := stack.notes.contains note

/-- The stack of a list of distinct notes, the extremes looked for. -/
def ofNotes (notes : List Note) (nodup : notes.Nodup) : NoteStack :=
  ⟨notes, first? upward notes, first? downward notes, nodup, rfl, rfl⟩

/-- Takes a note out; the extremes are looked for again only if it was one of them. -/
def erase (stack : NoteStack) (note : Note) : NoteStack :=
  if h : stack.lowest? ≠ some note ∧ stack.highest? ≠ some note then
    { notes := stack.notes.erase note
      lowest? := stack.lowest?
      highest? := stack.highest?
      nodup := stack.nodup.erase note
      lowest?_eq := by
        rw [isOrder_upward.first?_erase_of_ne (stack.lowest?_eq ▸ h.1), stack.lowest?_eq]
      highest?_eq := by
        rw [isOrder_downward.first?_erase_of_ne (stack.highest?_eq ▸ h.2), stack.highest?_eq] }
  else ofNotes (stack.notes.erase note) (stack.nodup.erase note)

@[simp] theorem notes_erase (stack : NoteStack) (note : Note) :
    (stack.erase note).notes = stack.notes.erase note := by
  unfold erase
  split <;> rfl

/-- Makes a note the newest, whether it was held or not. -/
def push (stack : NoteStack) (note : Note) : NoteStack :=
  let others := stack.erase note
  { notes := note :: others.notes
    lowest? := some (others.lowest?.elim note fun other => if upward note other then note else other)
    highest? := some (others.highest?.elim note fun other => if downward note other then note else other)
    nodup := List.nodup_cons.mpr ⟨by
      rw [notes_erase]
      exact stack.nodup.not_mem_erase, others.nodup⟩
    lowest?_eq := by rw [others.lowest?_eq]; rfl
    highest?_eq := by rw [others.highest?_eq]; rfl }

@[simp] theorem notes_empty : empty.notes = [] := rfl

@[simp] theorem notes_push (stack : NoteStack) (note : Note) :
    (stack.push note).notes = note :: stack.notes.erase note := by
  simp [push]

/-- Takes the newest note out. -/
def pop (stack : NoteStack) : Option Note × NoteStack :=
  match stack.newest? with
  | none => (none, stack)
  | some note => (some note, stack.erase note)

/-- The held note with a role. -/
def withRole? (stack : NoteStack) : Role → Option Note
  | .lowest => stack.lowest?
  | .highest => stack.highest?
  | .oldest => stack.oldest?
  | .newest => stack.newest?

/-! ### Bytes as notes

Callers may hand in any byte. Bytes that are no notes change nothing and are never held; the byte for no
note is at the top of an empty stack. -/

def pushByte (stack : NoteStack) (b : UInt8) : NoteStack :=
  (noteOfByte? b).elim stack stack.push

def eraseByte (stack : NoteStack) (b : UInt8) : NoteStack :=
  (noteOfByte? b).elim stack stack.erase

def containsByte (stack : NoteStack) (b : UInt8) : Bool :=
  (noteOfByte? b).any stack.contains

/-- The byte of a note that may be missing. -/
def byteOf (note? : Option Note) : UInt8 := note?.elim noNote noteToByte

def isTopByte (stack : NoteStack) (b : UInt8) : Bool := byteOf stack.newest? == b

/-- The channels of the newest notes, as many as there are channels. -/
def channels {α : Type} (stack : NoteStack) (channelOf : Note → α) : List α :=
  (stack.notes.take 16).map channelOf

end NoteStack

end PolyExpression
