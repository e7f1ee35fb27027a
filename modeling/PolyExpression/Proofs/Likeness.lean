import PolyExpression.Proofs.Mode
import PolyExpression.Proofs.Restart

/-!
Engines that differ in leftovers only: in table entries of notes that are neither held nor waiting for the pedal, in
where the free channels lie in their ring, and in what is published. Main statement: each part of an operation
sends the same from both of two such engines and leaves them alike.
-/

namespace PolyExpression

open Midi (Event)

/-! ### Voices -/

theorem RoleChannels.ofStack_congr {stack : NoteStack} {f g : Note → Channel}
    (h : ∀ note ∈ stack.notes, f note = g note) : ofStack stack f = ofStack stack g := by
  have hrole : ∀ role, (stack.withRole? role).map f = (stack.withRole? role).map g := by
    intro role
    cases hnote : stack.withRole? role with
    | none => rfl
    | some note => exact congrArg some (h note (NoteStack.mem_of_withRole? hnote))
  unfold ofStack
  rw [show stack.lowest?.map f = _ from hrole .lowest, show stack.highest?.map f = _ from hrole .highest,
    show stack.oldest?.map f = _ from hrole .oldest, show stack.newest?.map f = _ from hrole .newest]
  rfl

namespace Voices

/-- Whether a note is in one of the stacks. -/
def Lists (voices : Voices) (note : Note) : Prop :=
  note ∈ voices.held.notes ∨ note ∈ voices.below.notes ∨ note ∈ voices.above.notes

/-- Voices with the same stacks and roles that agree on the channels and velocities of the notes in the stacks and
of some others. -/
structure Agree (others : List Note) (a b : Voices) : Prop where
  held : b.held = a.held
  below : b.below = a.below
  above : b.above = a.above
  roles : b.roles = a.roles
  channelOf : ∀ note, a.Lists note ∨ note ∈ others → b.channelOf note = a.channelOf note
  velocityOf : ∀ note, a.Lists note ∨ note ∈ others → b.velocityOf note = a.velocityOf note

theorem lists_start {voices : Voices} {note other : Note} {channel : Channel} {velocity : UInt8} {isAbove : Bool}
    (h : (voices.start note channel velocity isAbove).Lists other) : other = note ∨ voices.Lists other := by
  have hcons : ∀ {notes : List Note}, other ∈ note :: notes.erase note → other = note ∨ other ∈ notes :=
    fun hmem => (List.mem_cons.mp hmem).imp_right List.mem_of_mem_erase
  rcases h with h | h | h
  · rw [held_start] at h
    exact (hcons h).imp_right .inl
  · rw [below_start] at h
    split at h
    · exact .inr (.inr (.inl h))
    · exact (hcons h).imp_right fun hmem => .inr (.inl hmem)
  · rw [above_start] at h
    split at h
    · exact (hcons h).imp_right fun hmem => .inr (.inr hmem)
    · exact .inr (.inr (.inr h))

theorem lists_stop {voices : Voices} {note other : Note} (h : (voices.stop note).Lists other) :
    voices.Lists other := by
  have herase : ∀ {stack : NoteStack}, other ∈ (stack.erase note).notes → other ∈ stack.notes := by
    intro stack hmem
    rw [NoteStack.notes_erase] at hmem
    exact List.mem_of_mem_erase hmem
  exact h.imp herase (Or.imp herase herase)

/-- The roles follow from the stacks and the channels of the notes in them. -/
theorem roles_withRoles_congr {a b : Voices} (hheld : b.held = a.held) (hbelow : b.below = a.below)
    (habove : b.above = a.above) (hchannels : ∀ note, a.Lists note → b.channelOf note = a.channelOf note) :
    b.withRoles.roles = a.withRoles.roles := by
  unfold withRoles
  rw [hheld, hbelow, habove, RoleChannels.ofStack_congr fun note hnote => hchannels note (.inl hnote),
    RoleChannels.ofStack_congr fun note hnote => hchannels note (.inr (.inl hnote)),
    RoleChannels.ofStack_congr fun note hnote => hchannels note (.inr (.inr hnote))]

namespace Agree

variable {others : List Note} {a b : Voices}

theorem others_of_subset (h : Agree others a b) {fewer : List Note}
    (hfewer : ∀ note ∈ fewer, a.Lists note ∨ note ∈ others) : Agree fewer a b :=
  { h with
    channelOf := fun note hnote => h.channelOf note (hnote.elim .inl (hfewer note))
    velocityOf := fun note hnote => h.velocityOf note (hnote.elim .inl (hfewer note)) }

theorem start (h : Agree others a b) (note : Note) (channel : Channel) (velocity : UInt8) (isAbove : Bool) :
    Agree others (a.start note channel velocity isAbove) (b.start note channel velocity isAbove) := by
  have hlive : ∀ other, (a.start note channel velocity isAbove).Lists other ∨ other ∈ others →
      note ≠ other → a.Lists other ∨ other ∈ others := fun other hother hne =>
    hother.imp_left fun hlists => (lists_start hlists).resolve_left hne.symm
  have hchannels : ∀ other, (a.start note channel velocity isAbove).Lists other ∨ other ∈ others →
      (b.start note channel velocity isAbove).channelOf other =
        (a.start note channel velocity isAbove).channelOf other := by
    intro other hother
    rw [channelOf_start, channelOf_start]
    split
    · rfl
    · rename_i hne
      exact h.channelOf other (hlive other hother hne)
  have hheld : (b.start note channel velocity isAbove).held = (a.start note channel velocity isAbove).held :=
    congrArg (fun stack => stack.push note) h.held
  have hbelow : (b.start note channel velocity isAbove).below =
      (a.start note channel velocity isAbove).below := by
    show (if isAbove then b.below else b.below.push note) = if isAbove then a.below else a.below.push note
    rw [h.below]
  have habove : (b.start note channel velocity isAbove).above =
      (a.start note channel velocity isAbove).above := by
    show (if isAbove then b.above.push note else b.above) = if isAbove then a.above.push note else a.above
    rw [h.above]
  refine ⟨hheld, hbelow, habove, ?_, hchannels, fun other hother => ?_⟩
  · exact roles_withRoles_congr hheld hbelow habove fun other hother => hchannels other (.inl hother)
  · rw [velocityOf_start, velocityOf_start]
    split
    · rfl
    · rename_i hne
      exact h.velocityOf other (hlive other hother hne)

theorem stop (h : Agree others a b) (note : Note) : Agree others (a.stop note) (b.stop note) := by
  have hheld : (b.stop note).held = (a.stop note).held := congrArg (fun stack => stack.erase note) h.held
  have hbelow : (b.stop note).below = (a.stop note).below := congrArg (fun stack => stack.erase note) h.below
  have habove : (b.stop note).above = (a.stop note).above := congrArg (fun stack => stack.erase note) h.above
  have hchannels : ∀ other, (a.stop note).Lists other ∨ other ∈ others →
      (b.stop note).channelOf other = (a.stop note).channelOf other :=
    fun other hother => h.channelOf other (hother.imp_left lists_stop)
  refine ⟨hheld, hbelow, habove, ?_, hchannels, fun other hother => ?_⟩
  · exact roles_withRoles_congr hheld hbelow habove fun other hother => hchannels other (.inl hother)
  · exact h.velocityOf other (hother.imp_left lists_stop)

theorem targets (h : Agree others a b) (manager : Channel) (target : Target) :
    b.targets manager target = a.targets manager target := by
  cases target with
  | global => rfl
  | allBelow =>
      show b.below.channels b.channelOf = a.below.channels a.channelOf
      rw [h.below]
      exact List.map_congr_left fun note hnote =>
        h.channelOf note (.inl (.inr (.inl (List.mem_of_mem_take hnote))))
  | allAbove =>
      show b.above.channels b.channelOf = a.above.channels a.channelOf
      rw [h.above]
      exact List.map_congr_left fun note hnote =>
        h.channelOf note (.inl (.inr (.inr (List.mem_of_mem_take hnote))))
  | voice region role =>
      have hstack : b.stack region = a.stack region := by
        cases region with
        | all => exact h.held
        | below => exact h.below
        | above => exact h.above
      have hlists : ∀ note ∈ (a.stack region).notes, a.Lists note := by
        cases region with
        | all => exact fun note hnote => .inl hnote
        | below => exact fun note hnote => .inr (.inl hnote)
        | above => exact fun note hnote => .inr (.inr hnote)
      show (((b.stack region).withRole? role).map b.channelOf).toList =
        (((a.stack region).withRole? role).map a.channelOf).toList
      rw [hstack]
      cases hnote : (a.stack region).withRole? role with
      | none => rfl
      | some note =>
          have hmem := hlists note (NoteStack.mem_of_withRole? hnote)
          rw [Option.map_some, Option.map_some, h.channelOf note (.inl hmem)]

end Agree

/-- Of silent voices nothing but leftovers remains. -/
theorem agree_silence (a b : Voices) : Agree [] a.silence b.silence := by
  have hnone : ∀ note, ¬(a.silence.Lists note ∨ note ∈ ([] : List Note)) := by
    rintro note ((h | h | h) | h)
    all_goals exact absurd h List.not_mem_nil
  exact ⟨rfl, rfl, rfl, rfl, fun note hnote => absurd hnote (hnone note), fun note hnote => absurd hnote (hnone note)⟩

end Voices

/-! ### Free channels -/

namespace Ring

variable {α : Type} {capacity : Nat} {a b : Ring α capacity}

theorem fst_pop_congr (h : b.toList = a.toList) : b.pop.1 = a.pop.1 := by
  rw [b.pop_toList.1, a.pop_toList.1, h]

theorem toList_snd_pop_congr (h : b.toList = a.toList) : b.pop.2.toList = a.pop.2.toList := by
  rw [b.pop_toList.2, a.pop_toList.2, h]

theorem toList_push (ring : Ring α capacity) (item : α) : (ring.push item).2.toList =
    if ring.toList.length < capacity then ring.toList ++ [item] else ring.toList := by
  rw [length_toList]
  split
  · rename_i hlt
    exact (push_of_lt hlt item).2
  · rename_i hge
    have hfull : ring.size = capacity := Nat.le_antisymm ring.size_le (Nat.le_of_not_lt hge)
    rw [push_of_full hfull]

theorem toList_push_congr (h : b.toList = a.toList) (item : α) :
    (b.push item).2.toList = (a.push item).2.toList := by
  rw [toList_push, toList_push, h]

end Ring

/-! ### Engines -/

namespace Engine

variable {isRaw : Prop} {a b : Engine} {note : Note}

/-- Engines that differ in leftovers only. Of the running status this is asked if raw bytes come in. -/
structure Alike (isRaw : Prop) (a b : Engine) : Prop where
  config : b.config = a.config
  parameters : b.parameters = a.parameters
  pending : b.pending = a.pending
  events : b.events = a.events
  layout : b.layout = a.layout
  recent : b.recent = a.recent
  isSuspended : b.isSuspended = a.isSuspended
  hasReset : b.hasReset = a.hasReset
  voices : a.voices.Agree a.pedal.deferred.notes b.voices
  free : b.free.toList = a.free.toList
  isDown : b.pedal.isDown = a.pedal.isDown
  deferred : b.pedal.deferred = a.pedal.deferred
  velocities : ∀ note ∈ a.pedal.deferred.notes, b.pedal.velocityOf note = a.pedal.velocityOf note
  runningStatus : isRaw → b.runningStatus = a.runningStatus

namespace Alike

/-- Engines stay alike when their output no longer counts as a reset's. -/
theorem forgetReset (h : Alike isRaw a b) :
    Alike isRaw { a with hasReset := false } { b with hasReset := false } :=
  { h with hasReset := rfl }

theorem emitAll (h : Alike isRaw a b) {sent sent' : List Event} (hsent : sent' = sent) :
    Alike isRaw (a.emitAll sent) (b.emitAll sent') :=
  { h with
    events := by
      show b.events ++ sent'.toArray = a.events ++ sent.toArray
      rw [h.events, hsent] }

theorem isAbove (h : Alike isRaw a b) (note : Note) : b.isAbove note = a.isAbove note := by
  unfold Engine.isAbove
  rw [h.layout]

theorem rule (h : Alike isRaw a b) (i : RuleIndex) : b.rule i = a.rule i := by
  unfold Engine.rule
  rw [h.parameters]

theorem manager (h : Alike isRaw a b) : b.manager = a.manager := by
  unfold Engine.manager
  rw [h.layout]

/-! ### Notes -/

theorem withVoice (h : Alike isRaw a b) (channel : Channel) (note : Note) (velocity : UInt8) :
    Alike isRaw (a.withVoice channel note velocity) (b.withVoice channel note velocity) :=
  { h with
    voices := by
      show (a.voices.start note channel velocity (a.isAbove note)).Agree a.pedal.deferred.notes
        (b.voices.start note channel velocity (b.isAbove note))
      rw [h.isAbove]
      exact h.voices.start note channel velocity _ }

theorem setupEvents (h : Alike isRaw a b) (start : NoteStart) (isSetup : Bool) :
    b.setupEvents start isSetup = a.setupEvents start isSetup := by
  unfold Engine.setupEvents
  rw [h.manager, h.voices.roles]
  simp only [h.rule]

theorem startEvents (h : Alike isRaw a b) (time : Float) (channel : Channel) (note : Note) (velocity : UInt8) :
    b.startEvents time channel note velocity = a.startEvents time channel note velocity := by
  have hvoice := h.withVoice channel note velocity
  have hstart : b.noteStart time channel note = a.noteStart time channel note := by
    unfold noteStart
    rw [h.isAbove, h.voices.held, h.voices.roles]
  unfold Engine.startEvents
  rw [hvoice.setupEvents, hvoice.setupEvents, hstart, h.layout, h.isAbove]

theorem startNote (h : Alike isRaw a b) (time : Float) (channel : Channel) (note : Note) (velocity : UInt8) :
    Alike isRaw (a.startNote time channel note velocity) (b.startNote time channel note velocity) := by
  have hvoice := h.withVoice channel note velocity
  have hpublished : Alike isRaw (a.withVoice channel note velocity).publishVoices
      (b.withVoice channel note velocity).publishVoices := { hvoice with }
  rw [startNote_eq, startNote_eq]
  exact hpublished.emitAll (h.startEvents time channel note velocity)

theorem withoutVoice (h : Alike isRaw a b) (note : Note) : Alike isRaw (a.withoutVoice note) (b.withoutVoice note) := by
  have hnotes : (a.pedal.forget note).deferred.notes = a.pedal.deferred.notes.erase note :=
    a.pedal.deferred.notes_erase note
  have hfewer : ∀ other ∈ (a.pedal.forget note).deferred.notes, other ∈ a.pedal.deferred.notes := by
    intro other hother
    rw [hnotes] at hother
    exact List.mem_of_mem_erase hother
  exact
    { h with
      voices := (h.voices.stop note).others_of_subset fun other hother => .inr (hfewer other hother)
      deferred := congrArg (fun stack => stack.erase note) h.deferred
      velocities := fun other hother => h.velocities other (hfewer other hother) }

theorem stopEvents (h : Alike isRaw a b) (hnote : b.voices.velocityOf note = a.voices.velocityOf note)
    (time : Float) (channel : Channel) (velocity : UInt8) :
    b.stopEvents time channel note velocity = a.stopEvents time channel note velocity := by
  unfold Engine.stopEvents releaseVelocity
  rw [h.layout, h.isAbove, h.parameters, hnote, h.voices.roles, (h.voices.stop note).roles]
  simp only [h.rule]

theorem stopNote (h : Alike isRaw a b) (hnote : a.voices.Lists note ∨ note ∈ a.pedal.deferred.notes) (time : Float)
    (channel : Channel) (velocity : UInt8) :
    Alike isRaw (a.stopNote time channel note velocity) (b.stopNote time channel note velocity) := by
  have hended := h.withoutVoice note
  have hpublished : Alike isRaw (a.withoutVoice note).publishVoices (b.withoutVoice note).publishVoices :=
    { hended with }
  rw [stopNote_eq, stopNote_eq]
  exact hpublished.emitAll (h.stopEvents (h.voices.velocityOf note hnote) time channel velocity)

theorem giveBack (h : Alike isRaw a b) (channel : Channel) : Alike isRaw (a.giveBack channel) (b.giveBack channel) := by
  have hmember : b.layout.zone.isMember channel.val.toUInt8 = a.layout.zone.isMember channel.val.toUInt8 := by
    rw [h.layout]
  unfold Engine.giveBack
  rw [hmember]
  split
  · exact { h with free := Ring.toList_push_congr h.free channel }
  · exact h

theorem releaseNote (h : Alike isRaw a b) (hnote : a.voices.Lists note ∨ note ∈ a.pedal.deferred.notes)
    (time : Float) (velocity : UInt8) :
    Alike isRaw (a.releaseNote time note velocity) (b.releaseNote time note velocity) := by
  rw [releaseNote_eq, releaseNote_eq, h.voices.channelOf note hnote]
  exact (h.stopNote hnote time _ velocity).giveBack _

theorem replaceNote (h : Alike isRaw a b) {old : Note} (hold : old ∈ a.voices.held.notes) (time : Float)
    (new : Note) (velocity : UInt8) :
    Alike isRaw (a.replaceNote time old new velocity) (b.replaceNote time old new velocity) := by
  have hlists : a.voices.Lists old ∨ old ∈ a.pedal.deferred.notes := .inl (.inl hold)
  unfold Engine.replaceNote
  dsimp only
  rw [h.voices.channelOf old hlists]
  exact (h.stopNote hlists time _ _).startNote time _ new velocity

theorem strike (h : Alike isRaw a b) (time : Float) (note : Note) (velocity : UInt8) :
    Alike isRaw (a.strike time note velocity) (b.strike time note velocity) := by
  have hstolen : b.stolenNote? = a.stolenNote? := by
    unfold stolenNote?
    rw [h.parameters, h.voices.held]
  have hpolicy : b.parameters.excessNotes = a.parameters.excessNotes := by rw [h.parameters]
  have hpop := Ring.fst_pop_congr h.free
  have hrest := Ring.toList_snd_pop_congr h.free
  unfold Engine.strike
  rw [h.voices.held, hpolicy, hstolen]
  by_cases hheld : a.voices.held.contains note = true
  · rw [if_pos hheld, if_pos hheld]
    cases a.parameters.excessNotes with
    | ignore => exact h
    | steal role => exact h.replaceNote (NoteStack.contains_iff.mp hheld) time note velocity
  · rw [if_neg hheld, if_neg hheld]
    generalize a.free.pop = popped at hpop hrest
    generalize b.free.pop = popped' at hpop hrest
    obtain ⟨channel?, free⟩ := popped
    obtain ⟨channel?', free'⟩ := popped'
    obtain rfl : channel?' = channel? := hpop
    cases channel?' with
    | some channel =>
        have htaken : Alike isRaw { a with free } { b with free := free' } := { h with free := hrest }
        exact htaken.startNote time channel note velocity
    | none =>
        cases hnote : a.stolenNote? with
        | none => exact h
        | some stolen => exact h.replaceNote (stolenNote?_mem hnote) time note velocity

theorem hold (h : Alike isRaw a b) (hnote : note ∈ a.voices.held.notes) (velocity : UInt8) :
    Alike isRaw { a with pedal := a.pedal.hold note velocity } { b with pedal := b.pedal.hold note velocity } := by
  have hnotes : ∀ other ∈ (a.pedal.hold note velocity).deferred.notes,
      other = note ∨ other ∈ a.pedal.deferred.notes := by
    intro other hother
    have hcons : other ∈ note :: a.pedal.deferred.notes.erase note :=
      a.pedal.deferred.notes_push note ▸ hother
    exact (List.mem_cons.mp hcons).imp_right List.mem_of_mem_erase
  have hvelocity : ∀ (pedal : Pedal) (other : Note), (pedal.hold note velocity).velocityOf other =
      if note = other then velocity else pedal.velocityOf other :=
    fun pedal other => PerNote.get_set _ _ _ _
  exact
    { h with
      voices := h.voices.others_of_subset fun other hother => by
        rcases hnotes other hother with rfl | hmem
        · exact .inl (.inl hnote)
        · exact .inr hmem
      deferred := congrArg (fun stack => stack.push note) h.deferred
      velocities := fun other hother => by
        show (b.pedal.hold note velocity).velocityOf other = (a.pedal.hold note velocity).velocityOf other
        rw [hvelocity, hvelocity]
        split
        · rfl
        · rename_i hne
          exact h.velocities other ((hnotes other hother).resolve_left (Ne.symm hne)) }

theorem lift (h : Alike isRaw a b) (time : Float) (note : Note) (velocity : UInt8) :
    Alike isRaw (a.lift time note velocity) (b.lift time note velocity) := by
  have hholds : (b.parameters.holdsOnSustain && b.pedal.isDown) =
      (a.parameters.holdsOnSustain && a.pedal.isDown) := by
    rw [h.parameters, h.isDown]
  unfold Engine.lift
  rw [h.voices.held, hholds]
  by_cases hheld : a.voices.held.contains note = true
  · have hnote := NoteStack.contains_iff.mp hheld
    rw [if_pos hheld, if_pos hheld]
    split
    · exact h.hold hnote velocity
    · exact h.releaseNote (.inl (.inl hnote)) time velocity
  · rw [if_neg hheld, if_neg hheld]
    exact h

/-- The releases that wait are carried out in the same order, and each note waits until its turn comes. -/
theorem releaseDeferred (h : Alike isRaw a b) (time : Float) :
    Alike isRaw (a.releaseDeferred time) (b.releaseDeferred time) := by
  have hall : ∀ (notes : List Note) (a b : Engine), notes.Nodup → (∀ note ∈ notes, note ∈ a.pedal.deferred.notes) →
      Alike isRaw a b →
      Alike isRaw (notes.foldl (fun e note => e.releaseNote time note (e.pedal.velocityOf note)) a)
        (notes.foldl (fun e note => e.releaseNote time note (e.pedal.velocityOf note)) b) := by
    intro notes
    induction notes with
    | nil => exact fun _ _ _ _ h => h
    | cons first rest ih =>
        intro a b hnodup hwaits h
        obtain ⟨hfirst, hrest⟩ := List.nodup_cons.mp hnodup
        have hnote := hwaits first List.mem_cons_self
        rw [List.foldl_cons, List.foldl_cons, h.velocities first hnote]
        refine ih _ _ hrest (fun other hother => ?_) (h.releaseNote (.inr hnote) time _)
        have hne : other ≠ first := fun heq => hfirst (heq ▸ hother)
        have hforget : (a.pedal.forget first).deferred.notes = a.pedal.deferred.notes.erase first :=
          a.pedal.deferred.notes_erase first
        rw [pedal_releaseNote, hforget]
        exact (List.mem_erase_of_ne hne).mpr (hwaits other (List.mem_cons_of_mem _ hother))
  unfold Engine.releaseDeferred
  rw [h.deferred]
  exact hall _ a b a.pedal.deferred.nodup (fun _ hnote => hnote) h

theorem foldl {α : Type} {step : Engine → α → Engine}
    (hstep : ∀ {a b : Engine} (item : α), Alike isRaw a b → Alike isRaw (step a item) (step b item))
    (h : Alike isRaw a b) (items : List α) : Alike isRaw (items.foldl step a) (items.foldl step b) := by
  induction items generalizing a b with
  | nil => exact h
  | cons item items ih => exact ih (hstep item h)

/-! ### Controllers -/

theorem modifyRule (h : Alike isRaw a b) (i : RuleIndex) (f : Rule → Rule) :
    Alike isRaw (a.modifyRule i f) (b.modifyRule i f) :=
  { h with parameters := congrArg (fun store => store.modifyRule i f) h.parameters }

theorem withInput (h : Alike isRaw a b) (controller : ControllerId) (value : Float) (i : RuleIndex) :
    Alike isRaw (a.withInput controller value i) (b.withInput controller value i) := by
  have hrule := h.rule i
  unfold Engine.withInput learn
  rw [hrule]
  split
  · have hlearned := h.modifyRule i fun rule => rule.modify .input fun input => input.set controller.index.val
    have hpublished : Alike isRaw
        ((a.modifyRule i fun rule => rule.modify .input fun input => input.set controller.index.val).publish
          (.rule i .input)).markDirty
        ((b.modifyRule i fun rule => rule.modify .input fun input => input.set controller.index.val).publish
          (.rule i .input)).markDirty := { hlearned with }
    exact hpublished.modifyRule i _
  · exact h.modifyRule i _

theorem routeEvents (h : Alike isRaw a b) (time value : Float) (i : RuleIndex) :
    b.routeEvents time value i = a.routeEvents time value i := by
  unfold Engine.routeEvents outputChannels
  rw [h.rule, h.voices.held, h.manager, h.voices.targets]

theorem routeRule (h : Alike isRaw a b) (time : Float) (controller : ControllerId) (value : Float) (i : RuleIndex) :
    Alike isRaw (Engine.routeRule time controller value a i) (Engine.routeRule time controller value b i) := by
  have hinput := h.withInput controller value i
  rw [routeRule_eq, routeRule_eq]
  exact hinput.emitAll (hinput.routeEvents time value i)

theorem route (h : Alike isRaw a b) (time : Float) (controller : ControllerId) (value : Float) :
    Alike isRaw (a.route time controller value) (b.route time controller value) := by
  have hlistens : b.listens controller = a.listens controller := by
    funext i
    unfold listens
    rw [h.rule]
  unfold Engine.route
  dsimp only
  rw [hlistens]
  split
  · rw [sendController_eq, sendController_eq, h.manager]
    exact h.emitAll rfl
  · exact h.foldl (fun i h => h.routeRule time controller value i) _

theorem movePedal (h : Alike isRaw a b) (time value : Float) :
    Alike isRaw (a.movePedal time value) (b.movePedal time value) := by
  have hholds : b.parameters.holdsOnSustain = a.parameters.holdsOnSustain := by rw [h.parameters]
  have hmoved : Alike isRaw { a with pedal := { a.pedal with isDown := 0.5 ≤ value } }
      { b with pedal := { b.pedal with isDown := 0.5 ≤ value } } := { h with isDown := rfl }
  unfold Engine.movePedal
  dsimp only
  rw [hholds]
  split
  · split
    · exact hmoved
    · exact hmoved.releaseDeferred time
  · exact h

theorem moveController (h : Alike isRaw a b) (time : Float) (controller : ControllerId) (raw : UInt16)
    (value : Float) :
    Alike isRaw (a.moveController time controller raw value) (b.moveController time controller raw value) := by
  have hlast : b.recent[controller.index] = a.recent[controller.index] := by rw [h.recent]
  have hstamped : Alike isRaw { a with recent := a.recent.set controller.index ⟨time, raw⟩ }
      { b with recent := b.recent.set controller.index ⟨time, raw⟩ } :=
    { h with recent := congrArg (fun recent => recent.set controller.index ⟨time, raw⟩) h.recent }
  have hrouted := hstamped.route time controller value
  unfold Engine.moveController
  dsimp only
  rw [hlast]
  split
  · exact h
  · split
    · exact hrouted.movePedal time value
    · exact hrouted

theorem receive (h : Alike isRaw a b) (time : Float) (call : Midi.Call) :
    Alike isRaw (a.receive time call) (b.receive time call) := by
  have hsuspended := h.isSuspended
  unfold Engine.receive
  rw [hsuspended]
  split
  · exact h
  · cases call with
    | noteOn channel note velocity =>
        dsimp only
        cases noteOfByte? note with
        | none => exact h
        | some note => exact h.strike time note velocity
    | noteOff channel note velocity =>
        dsimp only
        cases noteOfByte? note with
        | none => exact h
        | some note => exact h.lift time note velocity
    | controlChange channel number value =>
        dsimp only
        cases ControllerId.ofByte? number with
        | none => exact h
        | some controller =>
            dsimp only
            split
            · exact h.moveController time controller _ _
            · exact h
    | channelPressure channel pressure => exact h.moveController time _ _ _
    | pitchBend channel bend => exact h.moveController time _ _ _
    | _ => exact h

/-- Raw bytes mean the same if they come in under the same running status. -/
theorem receiveBytes (h : Alike isRaw a b) (hraw : isRaw) (time : Float) (bytes : List UInt8) :
    Alike isRaw (a.receiveBytes time bytes) (b.receiveBytes time bytes) := by
  have hstatus := h.runningStatus hraw
  have hdecoded : Alike isRaw { a with runningStatus := (Midi.Stream.decode a.runningStatus bytes).2 }
      { b with runningStatus := (Midi.Stream.decode a.runningStatus bytes).2 } :=
    { h with runningStatus := fun _ => rfl }
  unfold Engine.receiveBytes
  dsimp only
  rw [hstatus]
  exact hdecoded.foldl (fun call h => h.receive time call) _

/-! ### Resets -/

theorem silencing (h : Alike isRaw a b) : b.silencing = a.silencing := by
  -- Notes that have been ended leave their channels and velocities behind, so those stay the same.
  have hendings : ∀ (notes : List Note) {a b : Engine}, Alike isRaw a b →
      (∀ note ∈ notes, b.voices.channelOf note = a.voices.channelOf note) →
      (∀ note ∈ notes, b.voices.velocityOf note = a.voices.velocityOf note) →
      b.endings notes = a.endings notes := by
    intro notes
    induction notes with
    | nil => exact fun _ _ _ => rfl
    | cons first rest ih =>
        intro a b h hchannels hvelocities
        have hrest : (b.withoutVoice first).endings rest = (a.withoutVoice first).endings rest :=
          ih (h.withoutVoice first) (fun note hnote => hchannels note (List.mem_cons_of_mem _ hnote))
            fun note hnote => hvelocities note (List.mem_cons_of_mem _ hnote)
        unfold endings silenceEvents
        rw [hrest, hchannels first List.mem_cons_self,
          h.stopEvents (hvelocities first List.mem_cons_self)]
  unfold Engine.silencing
  rw [h.voices.held, h.manager, hendings a.voices.held.notes h
    (fun note hnote => h.voices.channelOf note (.inl (.inl hnote)))
    fun note hnote => h.voices.velocityOf note (.inl (.inl hnote))]

end Alike

/-- Engines that start over with the same parameters are alike, whatever notes they held. -/
theorem alike_restarted (hconfig : b.config = a.config) (hpending : b.pending = a.pending)
    (hrecent : b.recent = a.recent) (hsuspended : b.isSuspended = a.isSuspended)
    (hparameters : b.parameters.forgetInputs (List.finRange ruleCount) =
      a.parameters.forgetInputs (List.finRange ruleCount))
    (hstatus : isRaw → b.runningStatus = a.runningStatus) : Alike isRaw a.restarted b.restarted := by
  have hwanted : b.wantedLayout = a.wantedLayout := by
    refine wantedLayout_congr fun id => ?_
    have hget := congrArg (fun store => store.get id) hparameters
    rw [ParameterStore.get_forgetInputs, ParameterStore.get_forgetInputs] at hget
    exact hget
  have hfree : ∀ e : Engine, (e.free.clear.pushAll e.wantedLayout.zone.members).toList =
      e.wantedLayout.zone.members := by
    intro e
    have hfit : e.free.clear.toList.length + e.wantedLayout.zone.members.length ≤ memberMax := by
      rw [Ring.toList_clear, List.length_nil, Nat.zero_add, Zone.length_members]
      exact e.wantedLayout.zone.memberCount_le
    rw [Ring.toList_pushAll hfit, Ring.toList_clear, List.nil_append]
  unfold restarted
  exact
    { config := hconfig
      parameters := hparameters
      pending := hpending
      events := rfl
      layout := hwanted
      recent := hrecent
      isSuspended := hsuspended
      hasReset := rfl
      voices := Voices.agree_silence a.voices b.voices
      free := by rw [hfree, hfree, hwanted]
      isDown := rfl
      deferred := rfl
      velocities := fun _ hnote => absurd hnote List.not_mem_nil
      runningStatus := hstatus }

namespace Alike

theorem reset (h : Alike isRaw a b) : Alike isRaw a.reset b.reset := by
  have hrestarted : Alike isRaw a.restarted b.restarted :=
    alike_restarted h.config h.pending h.recent h.isSuspended (by rw [h.parameters]) h.runningStatus
  have hopenings : b.restarted.openings = a.restarted.openings :=
    openings_congr (fun id => by rw [hrestarted.parameters]) hrestarted.layout
  rw [reset_eq, reset_eq]
  exact hrestarted.emitAll (by rw [h.silencing, hopenings])

/-! ### Messages -/

theorem apply (h : Alike isRaw a b) (message : Message) : Alike isRaw (a.apply message) (b.apply message) := by
  obtain ⟨parameters, published, ha⟩ := a.apply_eq message
  obtain ⟨parameters', published', hb⟩ := b.apply_eq message
  have hparameters : (b.apply message).parameters = (a.apply message).parameters := by
    rw [parameters_apply, parameters_apply, h.parameters]
  rw [ha, hb] at hparameters ⊢
  exact { h with parameters := hparameters }

theorem takeMessages (h : Alike isRaw a b) : Alike isRaw a.takeMessages b.takeMessages := by
  have htaken : Alike isRaw { a with pending := [] } { b with pending := [] } := { h with pending := rfl }
  have hpending := h.pending
  unfold Engine.takeMessages
  rw [hpending]
  exact htaken.foldl (fun message h => h.apply message) _

theorem offer (h : Alike isRaw a b) (message : Message) : Alike isRaw (a.offer message) (b.offer message) := by
  have hroom : (b.pending.length < b.config.queueCapacity) = (a.pending.length < a.config.queueCapacity) := by
    rw [h.pending, h.config]
  rw [offer_eq, offer_eq]
  by_cases hfits : a.pending.length < a.config.queueCapacity
  · rw [if_pos hfits, if_pos (hroom ▸ hfits)]
    exact { h with pending := congrArg (fun pending => pending ++ [message]) h.pending }
  · rw [if_neg hfits, if_neg (hroom ▸ hfits)]
    exact h

/-! ### Operations -/

theorem openBlock (h : Alike isRaw a b) : Alike isRaw a.openBlock b.openBlock := by
  have hstale : b.isLayoutStale = a.isLayoutStale := by
    unfold isLayoutStale wantedLayout
    rw [h.parameters, h.layout]
  have hchanges : b.changesLayout = a.changesLayout := by
    unfold changesLayout
    rw [h.isSuspended, hstale]
  have hkeeps : b.keepsOutput = a.keepsOutput := by
    unfold keepsOutput
    rw [h.isSuspended, hstale, h.hasReset]
  rw [openBlock_eq, openBlock_eq, hchanges, hkeeps]
  split
  · exact h.reset.forgetReset
  · split
    · exact h.forgetReset
    · exact { h with events := rfl }

theorem beginBlock (h : Alike isRaw a b) : Alike isRaw a.beginBlock b.beginBlock := by
  have htaken := h.takeMessages
  have htold : Alike isRaw a.told b.told := { htaken with recent := rfl }
  exact htold.openBlock

end Alike

end Engine

/-- Whether an operation brings in raw bytes. -/
def Operation.isRaw : Operation → Bool
  | .bytes .. => true
  | _ => false

namespace Engine

variable {isRaw : Prop} {a b : Engine}

theorem Alike.perform (h : Alike isRaw a b) {operation : Operation} (hraw : operation.isRaw = true → isRaw) :
    Alike isRaw (a.perform operation) (b.perform operation) := by
  cases operation with
  | beginBlock => exact h.beginBlock
  | call time call => exact h.receive time call
  | bytes time bytes => exact h.receiveBytes (hraw rfl) time bytes
  | apply message => exact h.apply message
  | post message => exact h.offer message
  | takeMessages => exact h.takeMessages
  | reset => exact h.reset
  | suspend => exact { h with isSuspended := rfl }
  | resume =>
      have hopened : Alike isRaw { a with isSuspended := false } { b with isSuspended := false } :=
        { h with isSuspended := rfl }
      exact hopened.reset
  | clearDirty => exact { h with }

/-- Engines that are alike but for their output send the same in all runs. -/
theorem Alike.transcript (h : Alike isRaw a.clearEvents b.clearEvents) {operations : List Operation}
    (hraw : ∀ operation ∈ operations, operation.isRaw = true → isRaw) :
    a.transcript operations = b.transcript operations := by
  induction operations generalizing a b with
  | nil => rfl
  | cons operation operations ih =>
      have hstep := h.perform (hraw operation List.mem_cons_self)
      have hevents : b.emitted operation = a.emitted operation := congrArg Array.toList hstep.events
      have hcleared : ∀ e : Engine,
          (e.perform operation).clearEvents = (e.clearEvents.perform operation).clearEvents := by
        intro e
        obtain ⟨kept, hkept⟩ := e.perform_eq operation
        rw [hkept]
        rfl
      have hnext : Alike isRaw (a.perform operation).clearEvents (b.perform operation).clearEvents := by
        rw [hcleared a, hcleared b]
        exact { hstep with events := rfl }
      rw [Engine.transcript, Engine.transcript, hevents,
        ih hnext fun later hlater => hraw later (List.mem_cons_of_mem _ hlater)]

end Engine

end PolyExpression
