import PolyExpression.Proofs.Links

/-!
A stack of notes as the list of the bytes of its notes, the newest first. Each operation on the stack, and each one on
the arrays that store it, does to the list what its name says, whatever byte it is given. Main statement: after any
operations a new stack and its arrays answer every question as the list does.
-/

namespace PolyExpression

open Checked
open NoteStack (byteOf)

/-- What is done to a stack of notes. Any byte may be given for a note. -/
inductive StackOperation where
  | push (byte : UInt8)
  | remove (byte : UInt8)
  | pop
  | clear
  deriving DecidableEq, Repr

namespace StackOperation

/-- A note that is pushed comes to the front of the list, whether it was in it or not. What is no note changes
nothing. -/
def onList (held : List UInt8) : StackOperation → List UInt8
  | .push byte => if byte ≤ 127 then byte :: held.erase byte else held
  | .remove byte => if byte ≤ 127 then held.erase byte else held
  | .pop => held.tail
  | .clear => []

def onStack (stack : NoteStack) : StackOperation → NoteStack
  | .push byte => stack.pushByte byte
  | .remove byte => stack.eraseByte byte
  | .pop => stack.pop.2
  | .clear => .empty

def onLinks (links : Links) : StackOperation → Checked Links
  | .push byte => links.push byte
  | .remove byte => links.remove byte
  | .pop => do return (← links.pop).2
  | .clear => return .empty

end StackOperation

/-! ### Going through the notes -/

namespace Links

/-- Where an iterator is, and the notes that it has passed, the last one first. -/
structure Passing where
  note : UInt8
  passed : List UInt8

/-- One step of an iterator. -/
def Passing.step (links : Links) (passing : Passing) : Checked Passing := do
  let next ← links.next.read passing.note
  return ⟨next, passing.note :: passing.passed⟩

/-- The notes that an iterator passes, the newest first. -/
def listed (links : Links) : Checked (List UInt8) := do
  let passing ← loop (·.note == noNote) (Passing.step links) 128 ⟨links.head, []⟩
  return passing.passed.reverse

theorem listed_ofNotes {notes : List Note} (hnodup : notes.Nodup) :
    (ofNotes notes).listed = .ok (notes.map noteToByte) := by
  let Inv (seen rest : List Note) (passing : Passing) : Prop :=
    passing = ⟨byteOf rest.head?, (seen.map noteToByte).reverse⟩
  have hdone : ∀ seen rest passing, notes = seen ++ rest → seen.length ≤ notes.length → Inv seen rest passing →
      (passing.note == noNote) = (rest.isEmpty || seen.length == notes.length) := by
    rintro seen rest _ hnotes - rfl
    rw [byteOf_head?_beq, hnotes]
    cases rest with
    | nil => rfl
    | cons note rest => simp
  have hround : ∀ seen note rest passing, notes = seen ++ note :: rest → seen.length < notes.length →
      Inv seen (note :: rest) passing → Yields (passing.step (ofNotes notes)) (Inv (seen ++ [note]) rest) := by
    rintro seen note rest _ hnotes - rfl
    have hpassed : ((seen ++ [note]).map noteToByte).reverse = noteToByte note :: (seen.map noteToByte).reverse := by
      rw [List.map_append, List.reverse_append]
      rfl
    refine ⟨_, ?_, congrArg (Passing.mk (byteOf rest.head?)) hpassed.symm⟩
    rw [Passing.step]
    show ((ofNotes notes).next.read (noteToByte note) >>= _) = _
    rw [read_next_append hnodup hnotes]
    rfl
  have hbound : min notes.length notes.length ≤ 128 := (Nat.min_le_left _ _).trans (length_le_of_nodup hnodup)
  have hstart : Inv [] notes ⟨byteOf notes.head?, []⟩ := rfl
  obtain ⟨passing, hpassing, rfl⟩ := loop_along hbound hdone hround hstart
  rw [List.take_length] at hpassing
  have hlisted : (ofNotes notes).listed = loop (·.note == noNote) (Passing.step (ofNotes notes)) 128
      ⟨byteOf notes.head?, []⟩ >>= fun passing => .ok passing.passed.reverse := rfl
  rw [hlisted, hpassing, ok_bind, List.reverse_reverse]

end Links

/-! ### The bytes of a stack -/

namespace NoteStack

variable (stack : NoteStack)

/-- The bytes of the notes, the newest first. -/
def bytes : List UInt8 := stack.notes.map noteToByte

theorem nodup_bytes : stack.bytes.Nodup := stack.nodup.map noteToByte_injective

theorem le_of_mem_bytes {byte : UInt8} (h : byte ∈ stack.bytes) : byte ≤ 127 := by
  obtain ⟨note, -, rfl⟩ := List.mem_map.mp h
  exact UInt8.not_lt.mp (Links.not_lt_noteToByte note)

theorem mem_bytes_iff {note : Note} : noteToByte note ∈ stack.bytes ↔ note ∈ stack.notes :=
  List.mem_map_of_injective noteToByte_injective

theorem bytes_erase (note : Note) : (stack.erase note).bytes = stack.bytes.erase (noteToByte note) := by
  rw [bytes, notes_erase, bytes, List.map_erase noteToByte_injective]

theorem notes_pop : stack.pop.2.notes = stack.notes.tail := by
  cases hnotes : stack.notes with
  | nil => simp [pop, newest?, hnotes]
  | cons first rest => simp [pop, newest?, hnotes]

theorem byteOf_eq_getD (note? : Option Note) : byteOf note? = (note?.map noteToByte).getD noNote := by
  cases note? <;> rfl

theorem byteOf_head? (notes : List Note) : byteOf notes.head? = (notes.map noteToByte).head?.getD noNote := by
  rw [byteOf_eq_getD, List.head?_map]

theorem byteOf_getLast? (notes : List Note) :
    byteOf notes.getLast? = (notes.map noteToByte).getLast?.getD noNote := by
  rw [byteOf_eq_getD, List.getLast?_map]

/-- The first note upward is the least byte. -/
theorem byteOf_first?_upward (notes : List Note) :
    byteOf (first? upward notes) = (notes.map noteToByte).min?.getD noNote := by
  cases hfirst : first? upward notes with
  | none =>
      rw [first?_eq_none_iff.mp hfirst]
      rfl
  | some lowest =>
      obtain ⟨hmem, hall⟩ := isOrder_upward.first?_eq_some_iff.mp hfirst
      have hmin : (notes.map noteToByte).min? = some (noteToByte lowest) := by
        refine List.min?_eq_some_iff.mpr ⟨List.mem_map_of_mem hmem, fun byte hbyte => ?_⟩
        obtain ⟨note, hnote, rfl⟩ := List.mem_map.mp hbyte
        rw [UInt8.le_iff_toNat_le, toNat_noteToByte, toNat_noteToByte]
        exact of_decide_eq_true (hall note hnote)
      rw [hmin]
      rfl

/-- Of two bytes `max` is the larger one. -/
theorem lawfulOrderMax_byte : Std.LawfulOrderMax UInt8 := by
  have hmax (a b : UInt8) : max a b = if a ≤ b then b else a := rfl
  refine .of_max_le_iff (fun a b c => ?_) fun a b => ?_
  · rw [hmax]
    simp only [UInt8.le_iff_toNat_le]
    split <;> omega
  · rw [hmax]
    split <;> simp

/-- The first note downward is the greatest byte. -/
theorem byteOf_first?_downward (notes : List Note) :
    byteOf (first? downward notes) = (notes.map noteToByte).max?.getD noNote := by
  cases hfirst : first? downward notes with
  | none =>
      rw [first?_eq_none_iff.mp hfirst]
      rfl
  | some highest =>
      obtain ⟨hmem, hall⟩ := isOrder_downward.first?_eq_some_iff.mp hfirst
      have := lawfulOrderMax_byte
      have hmax : (notes.map noteToByte).max? = some (noteToByte highest) := by
        refine List.max?_eq_some_iff.mpr ⟨List.mem_map_of_mem hmem, fun byte hbyte => ?_⟩
        obtain ⟨note, hnote, rfl⟩ := List.mem_map.mp hbyte
        rw [UInt8.le_iff_toNat_le, toNat_noteToByte, toNat_noteToByte]
        exact of_decide_eq_true (hall note hnote)
      rw [hmax]
      rfl

/-! ### One operation -/

theorem bytes_onStack (operation : StackOperation) :
    (operation.onStack stack).bytes = operation.onList stack.bytes := by
  cases operation with
  | push byte =>
      obtain ⟨hlarge, hnone⟩ | ⟨note, rfl, hsome⟩ := byte_cases byte
      · rw [StackOperation.onStack, pushByte, hnone, StackOperation.onList, if_neg (UInt8.not_le.mpr hlarge)]
        rfl
      · have hle : noteToByte note ≤ 127 := UInt8.not_lt.mp (Links.not_lt_noteToByte note)
        rw [StackOperation.onStack, pushByte, hsome, StackOperation.onList, if_pos hle, ← bytes_erase]
        rfl
  | remove byte =>
      obtain ⟨hlarge, hnone⟩ | ⟨note, rfl, hsome⟩ := byte_cases byte
      · rw [StackOperation.onStack, eraseByte, hnone, StackOperation.onList, if_neg (UInt8.not_le.mpr hlarge)]
        rfl
      · have hle : noteToByte note ≤ 127 := UInt8.not_lt.mp (Links.not_lt_noteToByte note)
        rw [StackOperation.onStack, eraseByte, hsome, StackOperation.onList, if_pos hle, ← bytes_erase]
        rfl
  | pop => rw [StackOperation.onStack, bytes, notes_pop, List.map_tail, StackOperation.onList, bytes]
  | clear => rfl

/-- The arrays of a stack become those of the stack that the operation makes. -/
theorem onLinks_ofNotes (operation : StackOperation) :
    operation.onLinks (.ofNotes stack.notes) = .ok (.ofNotes (operation.onStack stack).notes) := by
  cases operation with
  | push byte =>
      obtain ⟨hlarge, hnone⟩ | ⟨note, rfl, hsome⟩ := byte_cases byte
      · rw [StackOperation.onLinks, StackOperation.onStack, pushByte, hnone]
        exact if_pos hlarge
      · rw [StackOperation.onLinks, StackOperation.onStack, pushByte, hsome, Links.push_ofNotes stack.nodup,
          Option.elim_some, notes_push]
  | remove byte =>
      obtain ⟨hlarge, hnone⟩ | ⟨note, rfl, hsome⟩ := byte_cases byte
      · have hfind : (Links.ofNotes stack.notes).find byte = .ok false := if_pos hlarge
        rw [StackOperation.onLinks, StackOperation.onStack, eraseByte, hnone, Links.remove, hfind]
        rfl
      · rw [StackOperation.onLinks, StackOperation.onStack, eraseByte, hsome, Links.remove_ofNotes stack.nodup,
          Option.elim_some, notes_erase]
  | pop =>
      rw [StackOperation.onLinks, StackOperation.onStack, Links.pop_ofNotes stack.nodup, notes_pop]
      rfl
  | clear =>
      rw [StackOperation.onLinks, StackOperation.onStack, notes_empty, Links.ofNotes_nil]
      rfl

/-! ### What is answered -/

/-- The stack answers as a list of bytes does. -/
structure Answers (held : List UInt8) : Prop where
  bytes : stack.bytes = held
  size : stack.size = held.length
  isEmpty : stack.isEmpty = held.isEmpty
  newest : byteOf stack.newest? = held.head?.getD noNote
  oldest : byteOf stack.oldest? = held.getLast?.getD noNote
  lowest : byteOf stack.lowest? = held.min?.getD noNote
  highest : byteOf stack.highest? = held.max?.getD noNote
  contains : ∀ byte, stack.containsByte byte = decide (byte ∈ held)
  pop : byteOf stack.pop.1 = held.head?.getD noNote
  channels : ∀ {α : Type} (channelOf : UInt8 → α),
    stack.channels (channelOf ∘ noteToByte) = (held.take 16).map channelOf

theorem containsByte_eq (byte : UInt8) : stack.containsByte byte = decide (byte ∈ stack.bytes) := by
  obtain ⟨hlarge, hnone⟩ | ⟨note, rfl, hsome⟩ := byte_cases byte
  · have hnot : byte ∉ stack.bytes := fun h => UInt8.not_le.mpr hlarge (stack.le_of_mem_bytes h)
    rw [containsByte, hnone, decide_eq_false hnot]
    rfl
  · rw [containsByte, hsome, Option.any_some, decide_eq_decide.mpr stack.mem_bytes_iff]
    exact List.contains_eq_mem note stack.notes

theorem answers_bytes : stack.Answers stack.bytes where
  bytes := rfl
  size := (List.length_map _).symm
  isEmpty := List.isEmpty_map.symm
  newest := byteOf_head? stack.notes
  oldest := byteOf_getLast? stack.notes
  lowest := by rw [stack.lowest?_eq, byteOf_first?_upward, bytes]
  highest := by rw [stack.highest?_eq, byteOf_first?_downward, bytes]
  contains := stack.containsByte_eq
  pop := by
    have hnewest : stack.pop.1 = stack.newest? := by
      unfold pop
      split <;> exact Eq.symm ‹_›
    rw [hnewest]
    exact byteOf_head? stack.notes
  channels channelOf := by rw [channels, bytes, ← List.map_take, List.map_map]

end NoteStack

namespace Links

/-- Arrays answer as a list of bytes does, and none of their accesses, differences and loops is at fault. -/
structure Answers (links : Links) (held : List UInt8) : Prop where
  listed : links.listed = .ok held
  size : links.size = held.length
  isEmpty : links.isEmpty = held.isEmpty
  newest : links.head = held.head?.getD noNote
  oldest : links.oldest = held.getLast?.getD noNote
  lowest : links.lowest = held.min?.getD noNote
  highest : links.highest = held.max?.getD noNote
  find : ∀ byte, links.find byte = .ok (decide (byte ∈ held))
  pop : Yields links.pop (·.1 = held.head?.getD noNote)
  /-- The values of the newest notes come first, as many as there is room for; behind them nothing changes. -/
  gather : ∀ {α : Type} (table : PerNote α) (values : Vector α 16), Yields (links.gather table values) fun gathered =>
    gathered.1 = min 16 held.length
      ∧ (gathered.2.toList.take gathered.1).map .ok = (held.take 16).map table.read
      ∧ gathered.2.toList.drop gathered.1 = values.toList.drop gathered.1

theorem answers_ofNotes (stack : NoteStack) : (ofNotes stack.notes).Answers stack.bytes where
  listed := listed_ofNotes stack.nodup
  size := (List.length_map _).symm
  isEmpty := isEmpty_ofNotes.trans List.isEmpty_map.symm
  newest := NoteStack.byteOf_head? stack.notes
  oldest := NoteStack.byteOf_getLast? stack.notes
  lowest := NoteStack.byteOf_first?_upward stack.notes
  highest := NoteStack.byteOf_first?_downward stack.notes
  find byte := by
    obtain ⟨hlarge, -⟩ | ⟨note, rfl, -⟩ := byte_cases byte
    · have hnot : byte ∉ stack.bytes := fun h => UInt8.not_le.mpr hlarge (stack.le_of_mem_bytes h)
      rw [decide_eq_false hnot]
      exact if_pos hlarge
    · rw [find_ofNotes stack.nodup, decide_eq_decide.mpr stack.mem_bytes_iff]
  pop := ⟨_, pop_ofNotes stack.nodup, NoteStack.byteOf_head? stack.notes⟩
  gather table values := by
    refine (gather_ofNotes stack.nodup table values).mono fun gathered hgathered => ?_
    obtain ⟨hcount, hvalues⟩ := hgathered
    have hlength : ((stack.notes.take 16).map table.get).length = gathered.1 := by rw [List.length_map, hcount]
    have hread : table.read ∘ noteToByte = .ok ∘ table.get := funext table.read_note
    rw [← hcount] at hvalues
    refine ⟨?_, ?_, ?_⟩
    · rw [hcount, List.length_take, NoteStack.bytes, List.length_map]
    · rw [hvalues, List.take_left' hlength, NoteStack.bytes, ← List.map_take, List.map_map, List.map_map, hread]
    · rw [hvalues, List.drop_left' hlength]

end Links

/-! ### Any operations -/

namespace StackOperation

/-- The bytes that are held after operations on a new stack. -/
def heldAfter (operations : List StackOperation) : List UInt8 := operations.foldl onList []

theorem bytes_foldl (operations : List StackOperation) (stack : NoteStack) :
    (operations.foldl onStack stack).bytes = operations.foldl onList stack.bytes := by
  symm
  apply List.foldl_hom
  intro stack operation
  exact (stack.bytes_onStack operation).symm

theorem foldlM_ofNotes (operations : List StackOperation) (stack : NoteStack) :
    operations.foldlM onLinks (.ofNotes stack.notes) = .ok (.ofNotes (operations.foldl onStack stack).notes) :=
  foldlM_eq_ok (fun stack : NoteStack => Links.ofNotes stack.notes) NoteStack.onLinks_ofNotes operations stack

/-- **Any operations.** With any bytes, what a new stack and its arrays hold is a list of notes without repetition, to
which each operation did what its name says, and they answer every question as the list does. -/
theorem answers_heldAfter (operations : List StackOperation) :
    (heldAfter operations).Nodup ∧ (heldAfter operations).all (· ≤ 127) = true
      ∧ (operations.foldl onStack .empty).Answers (heldAfter operations)
      ∧ Yields (operations.foldlM onLinks .empty) fun links => links.Answers (heldAfter operations) := by
  have hheld : heldAfter operations = (operations.foldl onStack .empty).bytes := (bytes_foldl operations .empty).symm
  have hlinks := foldlM_ofNotes operations .empty
  rw [NoteStack.notes_empty, Links.ofNotes_nil] at hlinks
  rw [hheld, hlinks]
  have hnotes : (operations.foldl onStack .empty).bytes.all (· ≤ 127) = true :=
    List.all_eq_true.mpr fun byte hbyte => decide_eq_true (NoteStack.le_of_mem_bytes _ hbyte)
  exact ⟨NoteStack.nodup_bytes _, hnotes, NoteStack.answers_bytes _, .ok (Links.answers_ofNotes _)⟩

/-- A note comes again, the middle one is taken out, and bytes that are no notes are given. -/
example : heldAfter [.push 60, .push 200, .push 64, .push 67, .push 60, .remove 64, .remove 255, .push 48, .pop] =
    [60, 67] := rfl

end StackOperation

end PolyExpression
