import PolyExpression.Proofs.Machine
import PolyExpression.Proofs.Restart

/-!
What the arrays of a machine store. Main statements: when a machine stores an engine, each of its operations on notes
has a result, which stores what the engine's operation makes; in particular the loop that carries out the releases that
wait has as many rounds as there are such releases, and leaves none.
-/

namespace PolyExpression

open Checked
open Midi (Call)
open NoteStack (byteOf)
open Engine

/-- Stacks of the same notes are the same. -/
theorem NoteStack.ext_notes {a b : NoteStack} (h : a.notes = b.notes) : a = b := by
  obtain ⟨notes, lowest, highest, nodup, hlowest, hhighest⟩ := a
  obtain ⟨others, lowest', highest', nodup', hlowest', hhighest'⟩ := b
  obtain rfl : notes = others := h
  subst hlowest hhighest hlowest' hhighest'
  rfl

namespace Slots

variable {α : Type} {capacity : Nat}

/-- The slots of a ring. -/
def ofRing (ring : Ring α capacity) : Slots α capacity := ⟨ring.slots, ring.head, ring.size⟩

theorem push_ofRing (ring : Ring α capacity) (item : α) :
    (ofRing ring).push item = .ok (ofRing (ring.push item).2) := by
  rw [push]
  by_cases hfull : ring.size = capacity
  · rw [Ring.push_of_full hfull]
    exact if_pos hfull
  · have hlt : ring.size < capacity := Nat.lt_of_le_of_ne ring.size_le hfull
    have hslot : (ring.head + ring.size) % capacity < capacity := (ring.slot ring.size).isLt
    rw [Ring.push, dif_pos hlt]
    show (if ring.size = capacity then _ else write ring.slots ((ring.head + ring.size) % capacity) item >>= _) = _
    rw [if_neg hfull, write_of_lt _ hslot]
    rfl

theorem pop_ofRing (ring : Ring α capacity) : (ofRing ring).pop = .ok (ring.pop.1, ofRing ring.pop.2) := by
  rw [pop, Ring.pop]
  by_cases hempty : ring.size = 0
  · rw [if_pos hempty]
    exact if_pos hempty
  · have hhead : ring.slot 0 = ⟨ring.head, ring.head_lt⟩ := Fin.ext (Nat.mod_eq_of_lt ring.head_lt)
    have hitem : ring.slots[ring.slot 0] = ring.slots.get ⟨ring.head, ring.head_lt⟩ :=
      congrArg (fun place : Fin capacity => ring.slots[place]) hhead
    rw [if_neg hempty]
    show (if ring.size = 0 then _ else read ring.slots ring.head >>= fun item => minus ring.size 1 >>= _) = _
    rw [if_neg hempty, read_of_lt _ ring.head_lt, ok_bind, minus_of_le (Nat.pos_of_ne_zero hempty), ok_bind, hitem]
    rfl

theorem foldlM_push_ofRing (ring : Ring α capacity) (items : List α) :
    items.foldlM push (ofRing ring) = .ok (ofRing (items.foldl (fun ring item => (ring.push item).2) ring)) :=
  foldlM_eq_ok ofRing push_ofRing items ring

end Slots

theorem ZoneLayout.isAboveByte_note (layout : ZoneLayout) (note : Note) :
    layout.isAboveByte (noteToByte note) = layout.isAbove note := by
  rw [isAboveByte, toNat_noteToByte, isAbove]

theorem ZoneLayout.transposeByte_note (layout : ZoneLayout) (note : Note) (isAbove : Bool) :
    layout.transposeByte (noteToByte note) isAbove = layout.transpose note isAbove := by
  rw [transposeByte, toNat_noteToByte, transpose]

/-- A zone has room below its manager for all its members. -/
theorem Zone.checkMember_eq (zone : Zone) (channel : Channel) :
    zone.checkMember channel = .ok (zone.isMember channel.val.toUInt8) := by
  have hbyte : channel.val.toUInt8.toNat = channel.val :=
    Nat.mod_eq_of_lt (Nat.lt_trans channel.isLt (by decide))
  rw [checkMember, isMember, hbyte]
  cases zone.side with
  | lower => rfl
  | upper =>
      have hroom : minus 15 zone.memberCount = .ok (15 - zone.memberCount) := minus_of_le zone.memberCount_le
      dsimp only
      rw [hroom]
      rfl

namespace Engine

theorem resetGained_eq (engine : Engine) (time : Float) (isAbove : Bool) (before : Roles) :
    engine.resetGained time isAbove before = engine.emitAll ((List.finRange ruleCount).flatMap fun i =>
      if (engine.rule i).needsReset isAbove then
        (engine.rule i).displacement time none engine.voices.roles before
      else []) := by
  let output (e : Engine) (i : RuleIndex) : List Midi.Event :=
    if (e.rule i).needsReset isAbove then (e.rule i).displacement time none e.voices.roles before else []
  have hstep : ∀ (e : Engine) (i : RuleIndex), (if (e.rule i).needsReset isAbove then
      e.resetDisplaced (e.rule i) time none e.voices.roles before else e) = e.emitAll (output e i) := by
    intro e i
    rw [resetDisplaced_eq, emitAll_ite]
  exact foldl_emitAll hstep (fun _ _ _ => rfl) engine _

/-- The releases that wait are kept in arrays. -/
theorem core_withPedal {engine : Engine} {pedal : Pedal} (h : pedal.isDown = engine.pedal.isDown) :
    core { engine with pedal } = engine.core := by
  simp only [core, h]

/-- What starting a note does beside the arrays. -/
theorem core_startNote (engine : Engine) (time : Float) (channel : Channel) (note : Note) (velocity : UInt8) :
    (engine.startNote time channel note velocity).core =
      ((((engine.core.withRoles (engine.voices.start note channel velocity (engine.isAbove note)).roles).prepare
        (engine.noteStart time channel note) true).emit
          (noteEvent time .noteOn channel (engine.layout.transpose note (engine.isAbove note)) velocity)).prepare
            (engine.noteStart time channel note) false).publishCount
              (engine.voices.start note channel velocity (engine.isAbove note)).held.size := by
  rw [startNote_eq]
  simp only [prepare_eq, emit_eq, emitAll_emitAll, startEvents, List.append_assoc, List.singleton_append]
  rfl

/-- What ending a note does beside the arrays. -/
theorem core_stopNote (engine : Engine) (time : Float) (channel : Channel) (note : Note) (velocity : UInt8) :
    (engine.stopNote time channel note velocity).core =
      (((engine.core.emit (noteEvent time .noteOff channel (engine.layout.transpose note (engine.isAbove note))
        (engine.releaseVelocity note velocity))).withRoles (engine.voices.stop note).roles).resetGained time
          (engine.isAbove note) engine.voices.roles).publishCount (engine.voices.stop note).held.size := by
  rw [stopNote_eq, stopEvents, ← List.singleton_append, ← emitAll_emitAll]
  simp only [resetGained_eq, emit_eq]
  rfl

end Engine

/-- Whether a machine stores the notes and channels of an engine. The channels of notes that are not held are left
over from earlier ones and mean nothing. -/
structure Machine.Stores (machine : Machine) (engine : Engine) : Prop where
  core : machine.core = engine.core
  held : machine.held = .ofNotes engine.voices.held.notes
  below : machine.below = .ofNotes engine.voices.below.notes
  above : machine.above = .ofNotes engine.voices.above.notes
  deferred : machine.deferred = .ofNotes engine.pedal.deferred.notes
  channels : ∀ note ∈ engine.voices.held.notes, machine.channels.get note = some (engine.voices.channelOf note)
  velocities : machine.velocities = engine.voices.velocities
  releases : machine.releases = engine.pedal.velocities
  free : machine.free = .ofRing engine.free
  recent : machine.recent = engine.recent
  coherent : engine.voices.Coherent engine.layout
  waiting : ∀ note ∈ engine.pedal.deferred.notes, note ∈ engine.voices.held.notes

namespace Machine.Stores

variable {machine : Machine} {engine : Engine} {note : Note}

theorem channelAt (h : machine.Stores engine) (hnote : note ∈ engine.voices.held.notes) :
    machine.channelAt (noteToByte note) = .ok (engine.voices.channelOf note) := by
  rw [Machine.channelAt, PerNote.read_note, h.channels note hnote]
  rfl

/-- What is read beside the arrays is what the engine has there. -/
theorem reads (h : machine.Stores engine) {α : Type} (f : Engine → α) (hf : f engine.core = f engine) :
    f machine.core = f engine :=
  (congrArg f h.core).trans hf

theorem layout (h : machine.Stores engine) : machine.core.layout = engine.layout :=
  h.reads Engine.layout rfl

theorem parameters (h : machine.Stores engine) : machine.core.parameters = engine.parameters :=
  h.reads Engine.parameters rfl

theorem isDown (h : machine.Stores engine) : machine.core.pedal.isDown = engine.pedal.isDown :=
  h.reads (fun core => core.pedal.isDown) rfl

theorem find_held (h : machine.Stores engine) (note : Note) :
    machine.held.find (noteToByte note) = .ok (engine.voices.held.contains note) := by
  rw [h.held, Links.find_ofNotes engine.voices.held.nodup, NoteStack.contains, List.contains_eq_mem]

theorem isEmpty_held (h : machine.Stores engine) : machine.held.isEmpty = engine.voices.held.isEmpty := by
  rw [h.held, Links.isEmpty_ofNotes]
  rfl

/-! ### Notes -/

/-- The roles are those of the stored stacks. -/
theorem lookUpRoles (machine : Machine) (voices : Voices) (hheld : machine.held = .ofNotes voices.held.notes)
    (hbelow : machine.below = .ofNotes voices.below.notes) (habove : machine.above = .ofNotes voices.above.notes)
    (hchannels : ∀ region, ∀ note ∈ (voices.stack region).notes,
      machine.channels.get note = some (voices.channelOf note)) :
    machine.lookUpRoles = .ok (machine.update (·.withRoles voices.withRoles.roles)) := by
  have hall := Links.roleChannels_ofNotes (hchannels .all)
  have hlow := Links.roleChannels_ofNotes (hchannels .below)
  have hhigh := Links.roleChannels_ofNotes (hchannels .above)
  simp only [Voices.stack] at hall hlow hhigh
  rw [Machine.lookUpRoles, hheld, hbelow, habove, hall, ok_bind, hlow, ok_bind, hhigh]
  rfl

theorem startNote (h : machine.Stores engine) (time : Float) (channel : Channel)
    (hnote : note ∉ engine.voices.held.notes) (velocity : UInt8) :
    Yields (machine.startNote time channel (noteToByte note) velocity) fun after =>
      after.Stores (engine.startNote time channel note velocity) := by
  let voices := engine.voices.start note channel velocity (engine.isAbove note)
  have hcoherent : voices.Coherent engine.layout := h.coherent.start hnote channel velocity
  have hheld : machine.held.push (noteToByte note) = .ok (.ofNotes voices.held.notes) := by
    rw [h.held, Links.push_ofNotes engine.voices.held.nodup, Voices.held_start]
  have hchannels := machine.channels.write_note note (some channel)
  have hvelocities : machine.velocities.write (noteToByte note) velocity = .ok voices.velocities := by
    rw [h.velocities]
    exact engine.voices.velocities.write_note note velocity
  have hbelow : (if engine.layout.isAbove note then .ok machine.below else machine.below.push (noteToByte note)) =
      .ok (.ofNotes voices.below.notes) := by
    rw [Voices.below_start, h.below, Links.push_ofNotes engine.voices.below.nodup, isAbove]
    cases engine.layout.isAbove note <;> rfl
  have habove : (if engine.layout.isAbove note then machine.above.push (noteToByte note) else .ok machine.above) =
      .ok (.ofNotes voices.above.notes) := by
    rw [Voices.above_start, h.above, Links.push_ofNotes engine.voices.above.nodup, isAbove]
    cases engine.layout.isAbove note <;> rfl
  have hgiven : ∀ other ∈ voices.held.notes,
      (machine.channels.set note (some channel)).get other = some (voices.channelOf other) := by
    intro other hother
    rw [PerNote.get_set, Voices.channelOf_start]
    by_cases hsame : note = other
    · rw [if_pos hsame, if_pos hsame]
    · have hmem : other ∈ engine.voices.held.notes := by
        rw [Voices.held_start] at hother
        exact List.mem_of_mem_erase ((List.mem_cons.mp hother).resolve_left (Ne.symm hsame))
      rw [if_neg hsame, if_neg hsame, h.channels other hmem]
  have hroles := lookUpRoles { machine with
      held := .ofNotes voices.held.notes
      channels := machine.channels.set note (some channel)
      velocities := voices.velocities
      below := .ofNotes voices.below.notes
      above := .ofNotes voices.above.notes } voices
    rfl rfl rfl fun region other hother => hgiven other (hcoherent.mem_held hother)
  rw [Machine.startNote, h.layout, engine.layout.isAboveByte_note, engine.layout.transposeByte_note, hheld, ok_bind,
    hchannels, ok_bind, hvelocities, ok_bind, hbelow, ok_bind, habove, ok_bind, hroles, ok_bind, pure_eq_ok]
  have hwaiting : ∀ other ∈ engine.pedal.deferred.notes, other ∈ voices.held.notes := by
    intro other hother
    have hmem : other ∈ engine.voices.held.notes := h.waiting other hother
    have hne : other ≠ note := fun heq => hnote (heq ▸ hmem)
    rw [Voices.held_start]
    exact List.mem_cons_of_mem _ ((List.mem_erase_of_ne hne).mpr hmem)
  simp only [Machine.publishVoices, Machine.update]
  rw [startNote_eq]
  refine .ok {
    core := ?_
    held := rfl
    below := rfl
    above := rfl
    deferred := h.deferred
    channels := hgiven
    velocities := rfl
    releases := h.releases
    free := h.free
    recent := h.recent
    coherent := hcoherent
    waiting := hwaiting }
  have hstart : engine.noteStart time channel note = ⟨time, channel, engine.voices.held.isEmpty,
    engine.layout.isAbove note, engine.core.voices.roles⟩ := rfl
  dsimp only
  rw [← startNote_eq, engine.core_startNote, h.core, h.isEmpty_held, hstart]
  rfl

theorem stopNote (h : machine.Stores engine) (time : Float) (channel : Channel) (note : Note) (velocity : UInt8) :
    Yields (machine.stopNote time channel (noteToByte note) velocity) fun after =>
      after.Stores (engine.stopNote time channel note velocity) := by
  let voices := engine.voices.stop note
  have hcoherent : voices.Coherent engine.layout := h.coherent.stop note
  have hvelocity : (if machine.core.parameters.overridesRelease then machine.velocities.read (noteToByte note)
      else .ok velocity) = .ok (engine.releaseVelocity note velocity) := by
    rw [h.parameters, releaseVelocity, h.velocities, PerNote.read_note]
    split <;> rfl
  have hheld : machine.held.remove (noteToByte note) = .ok (.ofNotes voices.held.notes) := by
    rw [h.held, Links.remove_ofNotes engine.voices.held.nodup, Voices.held_stop]
  have habove : machine.above.remove (noteToByte note) = .ok (.ofNotes voices.above.notes) := by
    rw [h.above, Links.remove_ofNotes engine.voices.above.nodup, ← NoteStack.notes_erase]
    rfl
  have hbelow : machine.below.remove (noteToByte note) = .ok (.ofNotes voices.below.notes) := by
    rw [h.below, Links.remove_ofNotes engine.voices.below.nodup, ← NoteStack.notes_erase]
    rfl
  have hdeferred : machine.deferred.remove (noteToByte note) =
      .ok (.ofNotes (engine.pedal.forget note).deferred.notes) := by
    rw [h.deferred, Links.remove_ofNotes engine.pedal.deferred.nodup, ← NoteStack.notes_erase]
    rfl
  have hgiven : ∀ other ∈ voices.held.notes, machine.channels.get other = some (voices.channelOf other) := by
    intro other hother
    rw [Voices.held_stop] at hother
    exact h.channels other (List.mem_of_mem_erase hother)
  let event := noteEvent time .noteOff channel (engine.layout.transpose note (engine.layout.isAbove note))
    (engine.releaseVelocity note velocity)
  have hroles := lookUpRoles { machine.update (·.emit event) with
      held := .ofNotes voices.held.notes
      above := .ofNotes voices.above.notes
      below := .ofNotes voices.below.notes } voices
    rfl rfl rfl fun region other hother => hgiven other (hcoherent.mem_held hother)
  rw [Machine.stopNote, h.layout, engine.layout.isAboveByte_note, engine.layout.transposeByte_note, hvelocity, ok_bind,
    hheld, ok_bind, habove, ok_bind, hbelow, ok_bind, hroles, ok_bind]
  simp only [Machine.publishVoices, Machine.update, hdeferred, ok_bind, pure_eq_ok]
  have hwaiting : ∀ other ∈ (engine.pedal.forget note).deferred.notes, other ∈ voices.held.notes := by
    intro other hother
    rw [Pedal.notes_forget] at hother
    obtain ⟨hne, hwaits⟩ := engine.pedal.deferred.nodup.mem_erase_iff.mp hother
    rw [Voices.held_stop]
    exact (List.mem_erase_of_ne hne).mpr (h.waiting other hwaits)
  rw [stopNote_eq]
  refine .ok {
    core := ?_
    held := rfl
    below := rfl
    above := rfl
    deferred := rfl
    channels := hgiven
    velocities := h.velocities
    releases := h.releases
    free := h.free
    recent := h.recent
    coherent := hcoherent
    waiting := hwaiting }
  dsimp only
  rw [← stopNote_eq, engine.core_stopNote, h.core]
  rfl

theorem giveBack (h : machine.Stores engine) (channel : Channel) :
    Yields (machine.giveBack channel) fun after => after.Stores (engine.giveBack channel) := by
  rw [Machine.giveBack, h.layout, Zone.checkMember_eq, ok_bind, Engine.giveBack]
  split
  · rw [h.free, Slots.push_ofRing, ok_bind, pure_eq_ok]
    exact .ok { h with core := h.core, free := rfl }
  · exact .ok h

theorem releaseNote (h : machine.Stores engine) (time : Float) (hnote : note ∈ engine.voices.held.notes)
    (velocity : UInt8) : Yields (machine.releaseNote time (noteToByte note) velocity) fun after =>
      after.Stores (engine.releaseNote time note velocity) := by
  rw [Machine.releaseNote, h.channelAt hnote, ok_bind, releaseNote_eq]
  exact (h.stopNote time _ note velocity).bind fun stopped hstopped => hstopped.giveBack _

/-- The release that is taken from those that wait is not there when it is carried out. -/
theorem releaseNote_forget (engine : Engine) (time : Float) (note : Note) (velocity : UInt8) :
    Engine.releaseNote { engine with pedal := engine.pedal.forget note } time note velocity =
      engine.releaseNote time note velocity := by
  have hforget : (engine.pedal.forget note).forget note = engine.pedal.forget note := by
    have hnot : note ∉ (engine.pedal.forget note).deferred.notes :=
      engine.pedal.notes_forget note ▸ engine.pedal.deferred.nodup.not_mem_erase
    have hnotes : ((engine.pedal.deferred.erase note).erase note).notes = (engine.pedal.deferred.erase note).notes := by
      rw [NoteStack.notes_erase]
      exact List.erase_of_not_mem hnot
    simp only [Pedal.forget, NoteStack.ext_notes hnotes]
  rw [releaseNote_eq, releaseNote_eq, stopNote_eq, stopNote_eq]
  simp only [Engine.withoutVoice, hforget]
  rfl

theorem releaseNext (h : machine.Stores engine) (time : Float) {rest : List Note}
    (hdeferred : engine.pedal.deferred.notes = note :: rest) : Yields (machine.releaseNext time) fun after =>
      after.Stores (engine.releaseNote time note (engine.pedal.velocityOf note)) := by
  have hnote : note ∈ engine.voices.held.notes := h.waiting note (hdeferred ▸ List.mem_cons_self)
  have hpop : machine.deferred.pop = .ok (noteToByte note, .ofNotes rest) := by
    rw [h.deferred, Links.pop_ofNotes engine.pedal.deferred.nodup, hdeferred]
    rfl
  have hvelocity : machine.releases.read (noteToByte note) = .ok (engine.pedal.velocityOf note) := by
    rw [h.releases, PerNote.read_note]
    rfl
  have hrest : (engine.pedal.forget note).deferred.notes = rest := by
    rw [Pedal.notes_forget, hdeferred, List.erase_cons_head]
  have htaken : Stores { machine with deferred := .ofNotes rest }
      { engine with pedal := engine.pedal.forget note } :=
    { h with
      core := h.core.trans (core_withPedal rfl).symm
      deferred := congrArg Links.ofNotes hrest.symm
      waiting := fun other hother => h.waiting other (by
        rw [hdeferred]
        exact List.mem_cons_of_mem _ (hrest ▸ hother)) }
  rw [Machine.releaseNext, hpop, ok_bind]
  show Yields (machine.releases.read (noteToByte note) >>= _) _
  rw [hvelocity, ok_bind, ← releaseNote_forget]
  exact htaken.releaseNote time hnote _

/-- A loop that takes the notes of a stack one by one comes to its end with the last of them. -/
theorem loop_notes {done : Machine → Bool} {next : Machine → Checked Machine} {stack : Engine → NoteStack}
    {step : Engine → Note → Engine}
    (hdone : ∀ machine e, machine.Stores e → done machine = (stack e).notes.isEmpty)
    (hnext : ∀ machine e note rest, machine.Stores e → (stack e).notes = note :: rest →
      Yields (next machine) (·.Stores (step e note)))
    (hrest : ∀ e note rest, (stack e).notes = note :: rest → (stack (step e note)).notes = rest)
    (h : machine.Stores engine) : Yields (loop done next 128 machine) fun after =>
      after.Stores ((stack engine).notes.foldl step engine) ∧ done after = true := by
  let Inv (left : Nat) (machine : Machine) : Prop := ∃ e : Engine, machine.Stores e
    ∧ (stack e).notes.length = left ∧ (stack e).notes.foldl step e = (stack engine).notes.foldl step engine
  have hend : ∀ machine, Inv 0 machine → done machine = true := by
    rintro machine ⟨e, he, hlength, -⟩
    rw [hdone machine e he, List.length_eq_zero_iff.mp hlength]
    rfl
  have hround : ∀ left machine, Inv (left + 1) machine →
      done machine = false ∧ Yields (next machine) (Inv left) := by
    rintro left machine ⟨e, he, hlength, hfinal⟩
    obtain ⟨note, rest, hnotes⟩ := List.exists_cons_of_length_eq_add_one hlength
    have hafter : (stack (step e note)).notes = rest := hrest e note rest hnotes
    rw [hnotes] at hlength
    rw [hnotes, List.foldl_cons] at hfinal
    refine ⟨?_, (hnext machine e note rest he hnotes).mono fun after hstores => ⟨step e note, hstores, ?_, ?_⟩⟩
    · rw [hdone machine e he, hnotes]
      rfl
    · rw [hafter]
      exact Nat.succ_injective hlength
    · rw [hafter]
      exact hfinal
  have hbound := Links.length_le_of_nodup (stack engine).nodup
  refine (Yields.loop hend hround hbound ⟨engine, h, rfl, rfl⟩).mono fun after hafter => ?_
  obtain ⟨e, he, hlength, hfinal⟩ := id hafter
  rw [List.length_eq_zero_iff.mp hlength] at hfinal
  exact ⟨hfinal ▸ he, hend after hafter⟩

/-- As many rounds as there are releases that wait carry them out and leave none. -/
theorem releaseDeferred (h : machine.Stores engine) (time : Float) :
    Yields (machine.releaseDeferred time) fun after =>
      after.Stores (engine.releaseDeferred time) ∧ after.deferred.isEmpty = true := by
  refine loop_notes (fun machine e he => ?_) (fun _ _ _ _ he hnotes => he.releaseNext time hnotes)
    (fun e note rest hnotes => ?_) h
  · rw [he.deferred, Links.isEmpty_ofNotes]
  · rw [pedal_releaseNote, Pedal.notes_forget, hnotes, List.erase_cons_head]

theorem replaceNote (h : machine.Stores engine) (time : Float) {old new : Note}
    (hold : old ∈ engine.voices.held.notes) (hnew : new ∉ engine.voices.held.notes.erase old) (velocity : UInt8) :
    Yields (machine.replaceNote time (noteToByte old) (noteToByte new) velocity) fun after =>
      after.Stores (engine.replaceNote time old new velocity) := by
  rw [Machine.replaceNote, h.channelAt hold, ok_bind]
  refine (h.stopNote time _ old Midi.defaultVelocity).bind fun stopped hstopped => ?_
  refine hstopped.startNote time _ ?_ velocity
  rw [voices_stopNote, Voices.held_stop]
  exact hnew

theorem stolenNote?_eq (h : machine.Stores engine) : machine.stolenNote? = engine.stolenNote?.map noteToByte := by
  rw [Machine.stolenNote?, Engine.stolenNote?, h.parameters]
  cases engine.parameters.excessNotes with
  | ignore => rfl
  | steal role =>
      dsimp only
      rw [h.held, Links.withRole_ofNotes]
      cases engine.voices.held.withRole? role with
      | none => rfl
      | some note => exact if_pos (UInt8.not_lt.mp (Links.not_lt_noteToByte note))

theorem noteOn (h : machine.Stores engine) (time : Float) (byte velocity : UInt8) :
    Yields (machine.noteOn time byte velocity) fun after =>
      after.Stores ((noteOfByte? byte).elim engine fun note => engine.strike time note velocity) := by
  obtain ⟨hlarge, hnone⟩ | ⟨note, rfl, hsome⟩ := byte_cases byte
  · rw [hnone]
    exact ⟨machine, if_pos hlarge, h⟩
  rw [hsome, Machine.noteOn, if_neg (Links.not_lt_noteToByte note), h.find_held, ok_bind, Option.elim_some, strike]
  by_cases hheld : engine.voices.held.contains note = true
  · rw [if_pos hheld, if_pos hheld, h.parameters]
    cases engine.parameters.excessNotes with
    | ignore => exact .ok h
    | steal role =>
        exact h.replaceNote time (NoteStack.contains_iff.mp hheld) engine.voices.held.nodup.not_mem_erase velocity
  · have hnot : note ∉ engine.voices.held.notes := mt NoteStack.contains_iff.mpr hheld
    rw [if_neg hheld, if_neg hheld, h.free, Slots.pop_ofRing, ok_bind]
    rcases hpop : engine.free.pop with ⟨channel?, free⟩
    cases channel? with
    | some channel =>
        have htaken : Stores { machine with free := .ofRing free } { engine with free } := { h with free := rfl }
        exact htaken.startNote time channel hnot velocity
    | none =>
        dsimp only
        rw [h.stolenNote?_eq]
        cases hstolen : engine.stolenNote? with
        | none => exact .ok h
        | some stolen =>
            have hnew : note ∉ engine.voices.held.notes.erase stolen := mt List.mem_of_mem_erase hnot
            exact h.replaceNote time (engine.stolenNote?_mem hstolen) hnew velocity

theorem noteOff (h : machine.Stores engine) (time : Float) (byte velocity : UInt8) :
    Yields (machine.noteOff time byte velocity) fun after =>
      after.Stores ((noteOfByte? byte).elim engine fun note => engine.lift time note velocity) := by
  obtain ⟨hlarge, hnone⟩ | ⟨note, rfl, hsome⟩ := byte_cases byte
  · have hfind : machine.held.find byte = .ok false := if_pos hlarge
    rw [hnone, Machine.noteOff, hfind]
    exact .ok h
  rw [hsome, Machine.noteOff, h.find_held, ok_bind, Option.elim_some, lift, h.parameters, h.isDown]
  by_cases hheld : engine.voices.held.contains note = true
  · have hnote : note ∈ engine.voices.held.notes := NoteStack.contains_iff.mp hheld
    rw [if_pos hheld, if_pos hheld]
    split
    · have hpush : machine.deferred.push (noteToByte note) =
          .ok (.ofNotes (engine.pedal.hold note velocity).deferred.notes) := by
        rw [h.deferred, Links.push_ofNotes engine.pedal.deferred.nodup, ← NoteStack.notes_push]
        rfl
      have hwrite : machine.releases.write (noteToByte note) velocity =
          .ok (engine.pedal.hold note velocity).velocities := by
        rw [h.releases]
        exact engine.pedal.velocities.write_note note velocity
      rw [hpush, ok_bind, hwrite, ok_bind, pure_eq_ok]
      exact .ok { h with
        core := h.core.trans (core_withPedal rfl).symm
        deferred := rfl
        releases := rfl
        waiting := fun other hother => by
          obtain rfl | hbefore := List.mem_cons.mp (engine.pedal.notes_hold note velocity ▸ hother)
          · exact hnote
          · exact h.waiting other (List.mem_of_mem_erase hbefore) }
    · exact h.releaseNote time hnote velocity
  · rw [if_neg hheld, if_neg hheld]
    exact .ok h

end Machine.Stores

end PolyExpression
