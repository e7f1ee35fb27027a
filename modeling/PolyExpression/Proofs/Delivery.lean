import Mathlib.Data.List.Induction
import PolyExpression.Proofs.Mode
import PolyExpression.Proofs.Pairing
import PolyExpression.Proofs.Restart

/-!
What a host reads. A host reads the output once a block, when all input of the block has come in; between that
and the next block it may reset, suspend and resume the engine and put messages into its queue. Main statement:
the starts and ends of notes it has read match the held notes after every block exactly if no reset that ends
notes is followed, before its block starts, by something that empties the output again.
-/

namespace PolyExpression

open Midi (Event)

/-! ### What sounds for a reader -/

/-- The starts and ends of notes on a channel. -/
def noteEventsOn (channel : UInt8) (events : List Event) : List Event :=
  events.filter fun event => event.isNote && event.channel == channel

/-- Whether a channel sounds after a start or an end of a note; nothing if it comes out of turn. -/
def Midi.Event.turn (isSounding : Bool) (event : Event) : Option Bool :=
  if event.command = (if isSounding then .noteOff else .noteOn) then some !isSounding else none

/-- Whether a channel sounds after starts and ends of notes, given whether it sounded before; nothing if one of them
comes out of turn. -/
def soundingFrom (isSounding : Bool) (events : List Event) : Option Bool := events.foldlM Event.turn isSounding

theorem noteEventsOn_append (channel : UInt8) (first second : List Event) :
    noteEventsOn channel (first ++ second) = noteEventsOn channel first ++ noteEventsOn channel second :=
  List.filter_append ..

theorem noteEventsOn_eq_nil {events : List Event} (h : ∀ event ∈ events, event.isNote = false)
    (channel : UInt8) : noteEventsOn channel events = [] := by
  refine List.filter_eq_nil_iff.mpr fun event hevent => ?_
  rw [h event hevent]
  exact Bool.false_ne_true

theorem map_notesOn (channel : UInt8) (log : List Entry) :
    (notesOn channel log).map Prod.fst = noteEventsOn channel (log.map Prod.fst) := by
  unfold noteEventsOn
  rw [List.filter_map]
  rfl

theorem soundingFrom_append (isSounding : Bool) (first second : List Event) :
    soundingFrom isSounding (first ++ second) =
      (soundingFrom isSounding first).bind fun next => soundingFrom next second :=
  List.foldlM_append

theorem Paired.soundingFrom {log : List Entry} {unmatched : Option Event} (h : Paired log unmatched) :
    soundingFrom false (log.map Prod.fst) = some unmatched.isSome := by
  induction h with
  | silent => rfl
  | start _ hon ih =>
      rw [List.map_append, soundingFrom_append, ih]
      simp [PolyExpression.soundingFrom, Event.turn, hon]
  | stop _ hoff _ _ ih =>
      rw [List.map_append, soundingFrom_append, ih]
      simp [PolyExpression.soundingFrom, Event.turn, hoff]

/-- A channel cannot go on in one way both from sounding and from silence, unless nothing happens on it. -/
theorem eq_nil_of_soundingFrom {events : List Event} {last last' : Bool}
    (h : soundingFrom true events = some last) (h' : soundingFrom false events = some last') : events = [] := by
  cases events with
  | nil => rfl
  | cons event events =>
      obtain ⟨next, hoff, -⟩ := Option.bind_eq_some_iff.mp h
      obtain ⟨next', hon, -⟩ := Option.bind_eq_some_iff.mp h'
      have hoff : event.command = .noteOff := by
        by_contra hother
        simp [Event.turn, hother] at hoff
      simp [Event.turn, hoff] at hon

/-! ### Hosts -/

/-- What a host can do between reading the output and starting the next block. -/
inductive Preparation where
  | reset
  | suspend
  | resume
  | post (message : Message)

namespace Preparation

def operation : Preparation → Operation
  | reset => .reset
  | suspend => .suspend
  | resume => .resume
  | post message => .post message

/-- Whether the engine starts over. -/
def isReset : Preparation → Bool
  | reset | resume => true
  | suspend | post _ => false

end Preparation

/-- What comes in during a block. -/
inductive Input where
  | call (time : Float) (call : Midi.Call)
  | bytes (time : Float) (bytes : List UInt8)

def Input.operation : Input → Operation
  | call time message => .call time message
  | bytes time message => .bytes time message

/-- A block as a host goes through it: what it does before it starts the block, and what comes in during the
block. Then it reads the output. -/
structure HostBlock where
  preparations : List Preparation
  inputs : List Input

namespace HostBlock

def preparing (block : HostBlock) : List Operation := block.preparations.map Preparation.operation

def processing (block : HostBlock) : List Operation := block.inputs.map Input.operation

def operations (block : HostBlock) : List Operation := block.preparing ++ .beginBlock :: block.processing

/-- How often the engine starts over before the block. -/
def resets (block : HostBlock) : Nat := block.preparations.countP Preparation.isReset

end HostBlock

namespace Engine

variable {engine after start : Engine}

def runBlocks (engine : Engine) (blocks : List HostBlock) : Engine :=
  engine.run (blocks.flatMap HostBlock.operations)

/-- What a host reads, one output after the other. -/
def readings (engine : Engine) : List HostBlock → List Event
  | [] => []
  | block :: blocks =>
      (engine.run block.operations).events.toList ++ (engine.run block.operations).readings blocks

/-- Whether a held note is on a channel. -/
def soundsOn (engine : Engine) (channel : UInt8) : Bool :=
  engine.voices.held.notes.any fun note => (engine.voices.channelOf note).val.toUInt8 == channel

/-- On each channel the starts and ends of notes among some events alternate, a start first, and those channels are
left sounding on which there is a held note. -/
def MatchesHeld (engine : Engine) (events : List Event) : Prop :=
  ∀ channel, soundingFrom false (noteEventsOn channel events) = some (engine.soundsOn channel)

/-- Whether nothing that ends notes before a block is lost. The output of a reset is read if the block takes it
over, that is if there is no other reset and the block starts neither suspended nor with a change of layout. -/
def Delivers (engine : Engine) (block : HostBlock) : Prop :=
  engine.voices.held.notes = [] ∨ block.resets = 0
    ∨ block.resets = 1 ∧ (engine.run block.preparing).isSuspended = false
      ∧ (engine.run block.preparing).takeMessages.isLayoutStale = false

/-! ### Runs in parts -/

theorem run_append (engine : Engine) (first second : List Operation) :
    engine.run (first ++ second) = (engine.run first).run second :=
  List.foldl_append

theorem transcript_append (engine : Engine) (first second : List Operation) :
    engine.transcript (first ++ second) = engine.transcript first ++ (engine.run first).transcript second := by
  induction first generalizing engine with
  | nil => rfl
  | cons operation first ih =>
      rw [List.cons_append, transcript, transcript, ih, List.append_assoc]
      rfl

theorem transcript_singleton (engine : Engine) (operation : Operation) :
    engine.transcript [operation] = engine.emitted operation :=
  List.append_nil _

theorem readings_append (engine : Engine) (first second : List HostBlock) :
    engine.readings (first ++ second) = engine.readings first ++ (engine.runBlocks first).readings second := by
  induction first generalizing engine with
  | nil => rfl
  | cons block first ih =>
      have hrest : (engine.run block.operations).runBlocks first = engine.runBlocks (block :: first) := by
        unfold runBlocks
        rw [List.flatMap_cons, run_append]
      rw [List.cons_append, readings, readings, ih, hrest, List.append_assoc]

theorem runBlocks_append (engine : Engine) (blocks : List HostBlock) (block : HostBlock) :
    engine.runBlocks (blocks ++ [block]) = (engine.runBlocks blocks).run block.operations := by
  unfold runBlocks
  rw [List.flatMap_append, List.flatMap_singleton, run_append]

/-! ### What sounds in a run -/

theorem map_log (engine : Engine) (operations : List Operation) :
    (engine.log operations).map Prod.fst = engine.transcript operations := by
  induction operations generalizing engine with
  | nil => rfl
  | cons operation operations ih =>
      rw [log, transcript, List.map_append, ih, entries, List.map_map]
      exact congrArg (· ++ _) (List.map_id _)

theorem Sounding.soundingFrom {log : List Entry} (h : Sounding log engine) (channel : UInt8) :
    soundingFrom false (noteEventsOn channel (log.map Prod.fst)) = some (engine.soundsOn channel) := by
  rw [← map_notesOn]
  cases hsounds : engine.soundsOn channel with
  | true =>
      obtain ⟨note, hnote, hchannel⟩ := List.any_eq_true.mp hsounds
      obtain rfl := beq_iff_eq.mp hchannel
      obtain ⟨on, hpaired, -⟩ := h.held note hnote
      exact hpaired.soundingFrom
  | false =>
      refine (h.silent channel fun note hnote heq => ?_).soundingFrom
      have hother := List.any_eq_false.mp hsounds note hnote
      exact hother (beq_iff_eq.mpr heq)

theorem Reachable.sounding (h : Reachable engine) : ∃ log, Sounding log engine := by
  induction h with
  | create h => exact ⟨[], sounding_of_create h⟩
  | perform h operation ih =>
      obtain ⟨log, hlog⟩ := ih
      exact ⟨_, hlog.perform h.balanced operation⟩

/-- What happens on a channel from a moment on goes on from whether it sounds then. -/
theorem soundingFrom_transcript (h : Reachable engine) (operations : List Operation) (channel : UInt8) :
    soundingFrom (engine.soundsOn channel) (noteEventsOn channel (engine.transcript operations)) =
      some ((engine.run operations).soundsOn channel) := by
  obtain ⟨log, hlog⟩ := h.sounding
  have hbefore := hlog.soundingFrom channel
  have hafter := (hlog.run h.balanced operations).soundingFrom channel
  rw [List.map_append, map_log, noteEventsOn_append, soundingFrom_append, hbefore] at hafter
  exact hafter

theorem soundsOn_of_held_eq_nil (h : engine.voices.held.notes = []) (channel : UInt8) :
    engine.soundsOn channel = false := by
  unfold soundsOn
  rw [h]
  rfl

/-! ### Preparations -/

theorem isNote_openings {event : Event} (h : event ∈ engine.openings) : event.isNote = false := by
  rcases List.mem_append.mp h with h | h
  · exact isNote_announcements h
  · obtain ⟨i, -, hevent⟩ := List.mem_flatMap.mp h
    exact isNote_resetEvents hevent

/-- A reset without held notes sends controllers only. -/
theorem isNote_events_reset (h : engine.voices.held.notes = []) :
    ∀ event ∈ engine.reset.events.toList, event.isNote = false := by
  rw [events_reset, silencing_eq_nil_iff.mpr h, List.nil_append]
  exact fun _ => isNote_openings

/-- What preparations with a number of resets have made of an engine, and what they have sent. -/
structure Prepared (before after : Engine) (resets : Nat) (sent : List Event) : Prop where
  untouched : resets = 0 → after.voices = before.voices ∧ after.events = before.events
    ∧ after.hasReset = before.hasReset ∧ sent = [] ∧ (after.isSuspended = false → before.isSuspended = false)
  restarted : 0 < resets → after.voices.held.notes = [] ∧ after.hasReset = true
  /-- The output of the only reset is left. -/
  once : resets = 1 → after.events.toList = sent
  /-- A reset that does not end notes leaves nothing else. -/
  again : before.voices.held.notes = [] ∧ 0 < resets ∨ 1 < resets →
    ∀ event ∈ after.events.toList, event.isNote = false
  silent : before.voices.held.notes = [] → ∀ event ∈ sent, event.isNote = false

namespace Prepared

variable {before : Engine} {resets : Nat} {sent : List Event}

theorem held (h : Prepared before after resets sent) (hheld : before.voices.held.notes = []) :
    after.voices.held.notes = [] := by
  rcases Nat.eq_zero_or_pos resets with hzero | hpos
  · rw [(h.untouched hzero).1]
    exact hheld
  · exact (h.restarted hpos).1

/-- Suspending the engine and putting messages into its queue. -/
theorem wait {next : Engine} (h : Prepared before after resets sent) (hvoices : next.voices = after.voices)
    (hevents : next.events = after.events) (hreset : next.hasReset = after.hasReset)
    (hsuspended : next.isSuspended = false → after.isSuspended = false) : Prepared before next resets sent where
  untouched hzero := by
    obtain ⟨hv, he, hr, hs, hactive⟩ := h.untouched hzero
    exact ⟨hvoices.trans hv, hevents.trans he, hreset.trans hr, hs, fun hnext => hactive (hsuspended hnext)⟩
  restarted hpos := by
    rw [hvoices, hreset]
    exact h.restarted hpos
  once hone := by
    rw [hevents]
    exact h.once hone
  again hagain := by
    rw [hevents]
    exact h.again hagain
  silent := h.silent

/-- Starting over, with the engine as it is or no longer suspended. -/
theorem startOver {next : Engine} (h : Prepared before after resets sent) (hvoices : next.voices = after.voices) :
    Prepared before next.reset (resets + 1) (sent ++ next.reset.events.toList) where
  untouched hzero := absurd hzero (Nat.succ_ne_zero resets)
  restarted _ := by
    rw [voices_reset]
    exact ⟨rfl, next.hasReset_reset⟩
  once hone := by
    rw [(h.untouched (Nat.succ.inj hone)).2.2.2.1, List.nil_append]
  again hagain := by
    refine isNote_events_reset ?_
    rw [hvoices]
    rcases hagain with ⟨hheld, -⟩ | htwice
    · exact h.held hheld
    · exact (h.restarted (by omega)).1
  silent hheld event hevent := by
    rcases List.mem_append.mp hevent with hevent | hevent
    · exact h.silent hheld event hevent
    · exact isNote_events_reset (hvoices.symm ▸ h.held hheld) event hevent

end Prepared

theorem prepared (engine : Engine) (preparations : List Preparation) :
    Prepared engine (engine.run (preparations.map Preparation.operation))
      (preparations.countP Preparation.isReset)
      (engine.transcript (preparations.map Preparation.operation)) := by
  induction preparations using List.reverseRecOn with
  | nil => exact ⟨fun _ => ⟨rfl, rfl, rfl, rfl, id⟩, nofun, nofun, by simp, fun _ _ h => absurd h List.not_mem_nil⟩
  | append_singleton preparations preparation ih =>
      rw [List.map_append, run_append, transcript_append, List.countP_append]
      generalize engine.run (preparations.map Preparation.operation) = last at ih ⊢
      generalize engine.transcript (preparations.map Preparation.operation) = sent at ih ⊢
      rw [List.map_singleton, transcript_singleton, List.countP_singleton]
      cases preparation with
      | reset => exact ih.startOver rfl
      | suspend =>
          have hsent : sent ++ last.emitted .suspend = sent := List.append_nil sent
          rw [Preparation.operation, hsent]
          exact ih.wait rfl rfl rfl nofun
      | resume =>
          let opened : Engine := { last with isSuspended := false }
          have hopened : opened.voices = last.voices := rfl
          exact ih.startOver hopened
      | post message =>
          have hoffer : ∀ e : Engine, ∃ pending, e.offer message = { e with pending } := by
            intro e
            rw [offer_eq]
            split
            · exact ⟨_, rfl⟩
            · exact ⟨e.pending, rfl⟩
          have hsent : sent ++ last.emitted (.post message) = sent := by
            obtain ⟨pending, hposted⟩ := hoffer last.clearEvents
            unfold emitted perform
            dsimp only
            rw [hposted]
            exact List.append_nil sent
          obtain ⟨pending, hposted⟩ := hoffer last
          have hlast : last.run [.post message] = { last with pending } := hposted
          rw [Preparation.operation, hsent, hlast]
          exact ih.wait rfl rfl rfl id

/-! ### Inputs -/

/-- Inputs append what they send, and leave alone whether the output belongs to a reset. -/
theorem run_inputs (engine : Engine) (inputs : List Input) :
    (engine.run (inputs.map Input.operation)).events.toList =
        engine.events.toList ++ engine.transcript (inputs.map Input.operation)
      ∧ SameMode engine (engine.run (inputs.map Input.operation)) := by
  have hstep : ∀ (e : Engine) (input : Input),
      (e.perform input.operation).events.toList = e.events.toList ++ e.emitted input.operation
        ∧ SameMode e (e.perform input.operation) := by
    intro e input
    have hignores : IgnoresOutput fun engine => engine.perform input.operation := by
      cases input with
      | call time call => exact ignoresOutput_receive time call
      | bytes time bytes => exact ignoresOutput_receiveBytes time bytes
    have hmode : SameMode e (e.perform input.operation) := by
      cases input with
      | call time call => exact e.sameMode_receive time call
      | bytes time bytes => exact e.sameMode_receiveBytes time bytes
    have hperform := hignores e.clearEvents e.events
    dsimp only at hperform
    rw [clearEvents_after] at hperform
    refine ⟨?_, hmode⟩
    rw [hperform]
    exact Array.toList_append
  induction inputs generalizing engine with
  | nil => exact ⟨(List.append_nil _).symm, .refl engine⟩
  | cons input inputs ih =>
      obtain ⟨hevents, hmode⟩ := hstep engine input
      obtain ⟨hrest, hrestMode⟩ := ih (engine.perform input.operation)
      refine ⟨?_, hmode.trans hrestMode⟩
      rw [hevents, List.append_assoc] at hrest
      exact hrest

/-! ### The start of a block -/

theorem events_openBlock (engine : Engine) : engine.openBlock.events.toList =
    (if engine.keepsOutput then engine.events.toList else []) ++ engine.clearEvents.openBlock.events.toList := by
  have hchanges : engine.clearEvents.changesLayout = engine.changesLayout := rfl
  have hkeeps : engine.clearEvents.keepsOutput = engine.keepsOutput := rfl
  have hreset : engine.clearEvents.reset = engine.reset := rfl
  rw [openBlock_eq, openBlock_eq, hchanges, hkeeps, hreset]
  split
  · rename_i hchanged
    have hstale : engine.keepsOutput = false := by
      unfold changesLayout at hchanged
      unfold keepsOutput
      rw [(Bool.and_eq_true_iff.mp hchanged).2, Bool.not_true, Bool.and_false, Bool.false_and]
    rw [hstale]
    rfl
  · split
    · exact (List.append_nil _).symm
    · rfl

/-- Without held notes the start of a block starts and ends none. -/
theorem openBlock_of_held_eq_nil (h : engine.voices.held.notes = []) :
    engine.openBlock.voices.held.notes = []
      ∧ ∀ event ∈ engine.clearEvents.openBlock.events.toList, event.isNote = false := by
  rw [openBlock_eq, openBlock_eq]
  refine ⟨?_, ?_⟩
  · split
    · show engine.reset.voices.held.notes = []
      rw [voices_reset]
      rfl
    · split
      · exact h
      · exact h
  · split
    · have hheld : engine.clearEvents.voices.held.notes = [] := h
      exact isNote_events_reset hheld
    · split
      · exact nofun
      · exact nofun

/-- When a block has started, the output belongs to a reset only if the engine is suspended. -/
theorem isSuspended_of_hasReset_openBlock (h : engine.openBlock.hasReset = true) :
    engine.openBlock.isSuspended = true := by
  rw [openBlock_eq] at h ⊢
  split at h
  · exact absurd h Bool.false_ne_true
  · split at h
    · exact absurd h Bool.false_ne_true
    · rename_i hchanges hkeeps
      rw [if_neg hchanges, if_neg hkeeps]
      have hhas : engine.hasReset = true := h
      show engine.isSuspended = true
      by_contra hsuspended
      have hactive : engine.isSuspended = false := Bool.eq_false_iff.mpr hsuspended
      cases hstale : engine.isLayoutStale with
      | true => exact hchanges (by rw [changesLayout, hactive, hstale]; rfl)
      | false => exact hkeeps (by rw [keepsOutput, hactive, hstale, hhas]; rfl)

theorem takeMessages_clearEvents (engine : Engine) :
    engine.clearEvents.takeMessages = engine.takeMessages.clearEvents := by
  have htake := ignoresOutput_takeMessages engine.clearEvents engine.events
  obtain ⟨parameters, published, hcleared⟩ := engine.clearEvents.takeMessages_eq
  rw [clearEvents_after] at htake
  rw [htake, hcleared]
  rfl

theorem emitted_beginBlock (engine : Engine) :
    engine.emitted .beginBlock = engine.told.clearEvents.openBlock.events.toList := by
  show engine.clearEvents.beginBlock.events.toList = _
  rw [beginBlock_eq, takeMessages_clearEvents]
  rfl

theorem events_beginBlock (engine : Engine) : engine.beginBlock.events.toList =
    (if engine.told.keepsOutput then engine.events.toList else []) ++ engine.emitted .beginBlock := by
  have hevents : engine.told.events = engine.events := by
    obtain ⟨parameters, published, recent, htold⟩ := engine.told_eq
    rw [htold]
  rw [emitted_beginBlock, ← hevents]
  exact engine.told.events_openBlock

theorem beginBlock_of_held_eq_nil (h : engine.voices.held.notes = []) :
    engine.beginBlock.voices.held.notes = [] ∧ ∀ event ∈ engine.emitted .beginBlock, event.isNote = false := by
  have hheld : engine.told.voices.held.notes = [] := by
    obtain ⟨parameters, published, recent, htold⟩ := engine.told_eq
    rw [htold]
    exact h
  rw [emitted_beginBlock]
  exact openBlock_of_held_eq_nil hheld

/-! ### Blocks -/

/-- What is left in the output of what was sent before a block, and all that is sent when the block starts and
during it, is what the host reads. -/
theorem events_run_operations (engine : Engine) (block : HostBlock) :
    (engine.run block.operations).events.toList =
      (if (engine.run block.preparing).told.keepsOutput then (engine.run block.preparing).events.toList else [])
        ++ (engine.run block.preparing).transcript (.beginBlock :: block.processing) := by
  let ready := engine.run block.preparing
  have hrun : engine.run block.operations = ready.beginBlock.run (block.inputs.map Input.operation) :=
    run_append engine block.preparing (.beginBlock :: block.processing)
  rw [hrun, (run_inputs _ _).1, events_beginBlock, List.append_assoc]
  rfl

/-- A block before which nothing is lost is read as it was sent. -/
theorem noteEventsOn_read (hsettled : engine.hasReset = true → engine.isSuspended = true) {block : HostBlock}
    (h : engine.Delivers block) (channel : UInt8) :
    noteEventsOn channel (engine.run block.operations).events.toList =
      noteEventsOn channel (engine.transcript block.operations) := by
  let ready := engine.run block.preparing
  have hready : Prepared engine ready block.resets (engine.transcript block.preparing) :=
    prepared engine block.preparations
  have hkept : noteEventsOn channel (if ready.told.keepsOutput then ready.events.toList else []) =
      noteEventsOn channel (engine.transcript block.preparing) := by
    rcases Nat.eq_zero_or_pos block.resets with hzero | hpos
    · obtain ⟨-, -, hreset, hsent, hactive⟩ := hready.untouched hzero
      have hdropped : ¬ready.told.keepsOutput = true := by
        intro hkeeps
        obtain ⟨hsuspended, -, hhas⟩ := keepsOutput_told_iff.mp hkeeps
        rw [hreset] at hhas
        exact Bool.false_ne_true ((hactive hsuspended).symm.trans (hsettled hhas))
      rw [if_neg hdropped, hsent]
    · rcases h with hheld | hzero | ⟨hone, hsuspended, hstale⟩
      · rw [noteEventsOn_eq_nil (hready.silent hheld)]
        split
        · exact noteEventsOn_eq_nil (hready.again (.inl ⟨hheld, hpos⟩)) channel
        · rfl
      · omega
      · rw [if_pos (keepsOutput_told_iff.mpr ⟨hsuspended, hstale, (hready.restarted hpos).2⟩), hready.once hone]
  have hsent : engine.transcript block.operations = _ :=
    transcript_append engine block.preparing (.beginBlock :: block.processing)
  rw [events_run_operations, hsent, noteEventsOn_append, hkept, noteEventsOn_append]

/-- After a loss the notes of a block start from silence. -/
theorem soundingFrom_read (h : Reachable engine) {block : HostBlock} (hlost : ¬engine.Delivers block)
    (channel : UInt8) :
    soundingFrom false (noteEventsOn channel (engine.run block.operations).events.toList) =
      some ((engine.run block.operations).soundsOn channel) := by
  let ready := engine.run block.preparing
  have hready : Prepared engine ready block.resets (engine.transcript block.preparing) :=
    prepared engine block.preparations
  have hpos : 0 < block.resets := Nat.pos_of_ne_zero fun hzero => hlost (.inr (.inl hzero))
  obtain ⟨hheld, hhas⟩ := hready.restarted hpos
  have hkept : noteEventsOn channel (if ready.told.keepsOutput then ready.events.toList else []) = [] := by
    split
    · rename_i hkeeps
      obtain ⟨hsuspended, hstale, -⟩ := keepsOutput_told_iff.mp hkeeps
      have htwice : 1 < block.resets := by
        have hnot : block.resets ≠ 1 := fun hone => hlost (.inr (.inr ⟨hone, hsuspended, hstale⟩))
        omega
      exact noteEventsOn_eq_nil (hready.again (.inr htwice)) channel
    · rfl
  obtain ⟨hopened, hopening⟩ := beginBlock_of_held_eq_nil hheld
  have hrun : engine.run block.operations = ready.beginBlock.run block.processing :=
    run_append engine block.preparing (.beginBlock :: block.processing)
  have hrest := soundingFrom_transcript ((h.run block.preparing).perform .beginBlock) block.processing channel
  have hsilent : (ready.perform .beginBlock).soundsOn channel = false := soundsOn_of_held_eq_nil hopened channel
  rw [hsilent] at hrest
  rw [events_run_operations, noteEventsOn_append, hkept, List.nil_append, transcript, noteEventsOn_append,
    noteEventsOn_eq_nil hopening, List.nil_append, hrest, hrun]
  rfl

/-- If what has been read matches the held notes, so it does with one more block exactly if nothing is lost before
that. -/
theorem matchesHeld_append_iff (h : Reachable engine)
    (hsettled : engine.hasReset = true → engine.isSuspended = true) {events : List Event}
    (hevents : engine.MatchesHeld events) (block : HostBlock) :
    (engine.run block.operations).MatchesHeld (events ++ (engine.run block.operations).events.toList)
      ↔ engine.Delivers block := by
  constructor
  · intro hmatches
    by_contra hlost
    -- The end of a held note has been lost: its channel sounded, and now it starts from silence.
    have hheld : engine.voices.held.notes ≠ [] := fun hnone => hlost (.inl hnone)
    obtain ⟨note, hnote⟩ := List.exists_mem_of_ne_nil _ hheld
    let channel : UInt8 := (engine.voices.channelOf note).val.toUInt8
    have hsounds : engine.soundsOn channel = true := List.any_eq_true.mpr ⟨note, hnote, beq_self_eq_true _⟩
    have hread := soundingFrom_read h hlost channel
    have hboth := hmatches channel
    rw [noteEventsOn_append, soundingFrom_append, hevents channel, hsounds] at hboth
    have hnothing := eq_nil_of_soundingFrom hboth hread
    rw [hnothing] at hboth hread
    exact Bool.false_ne_true (Option.some.inj (hread.trans hboth.symm))
  · intro hdelivers channel
    rw [noteEventsOn_append, soundingFrom_append, hevents channel, noteEventsOn_read hsettled hdelivers]
    exact soundingFrom_transcript h block.operations channel

/-- When the host reads, the output belongs to a reset only if the engine is suspended. -/
theorem isSuspended_of_hasReset_run (engine : Engine) (block : HostBlock)
    (h : (engine.run block.operations).hasReset = true) : (engine.run block.operations).isSuspended = true := by
  have hrun : engine.run block.operations = (engine.run block.preparing).told.openBlock.run block.processing :=
    run_append engine block.preparing (.beginBlock :: block.processing)
  obtain ⟨-, hmode⟩ := run_inputs (engine.run block.preparing).told.openBlock block.inputs
  rw [hrun] at h ⊢
  rw [HostBlock.processing, hmode.hasReset] at h
  rw [HostBlock.processing, hmode.isSuspended]
  exact isSuspended_of_hasReset_openBlock h

/-- What a host reads matches the held notes after every block exactly if nothing that ends notes is lost before
any of them. -/
theorem reads_match_iff {config : Configuration} (h : create config = .ok start) (blocks : List HostBlock) :
    (∀ read, read <+: blocks → (start.runBlocks read).MatchesHeld (start.readings read)) ↔
      ∀ earlier block, earlier ++ [block] <+: blocks → (start.runBlocks earlier).Delivers block := by
  have hsettled : ∀ blocks, (start.runBlocks blocks).hasReset = true →
      (start.runBlocks blocks).isSuspended = true := by
    intro blocks
    rcases List.eq_nil_or_concat blocks with rfl | ⟨earlier, block, rfl⟩
    · obtain ⟨config, rfl⟩ := create_frame h
      exact nofun
    · rw [List.concat_eq_append, runBlocks_append]
      exact isSuspended_of_hasReset_run _ block
  induction blocks using List.reverseRecOn with
  | nil =>
      refine ⟨fun _ earlier block hprefix => ?_, fun _ read hread channel => ?_⟩
      · have hnil := List.prefix_nil.mp hprefix
        exact absurd hnil (by simp)
      · obtain rfl := List.prefix_nil.mp hread
        have hheld : start.voices.held.notes = [] := by
          rw [(create_eq h).1]
          rfl
        exact congrArg some (soundsOn_of_held_eq_nil hheld channel).symm
  | append_singleton blocks block ih =>
      have hreachable : Reachable (start.runBlocks blocks) := (Reachable.create h).run _
      have hlast : (start.runBlocks blocks).MatchesHeld (start.readings blocks) →
          ((start.runBlocks (blocks ++ [block])).MatchesHeld (start.readings (blocks ++ [block])) ↔
            (start.runBlocks blocks).Delivers block) := by
        intro hmatches
        have hreadings : start.readings (blocks ++ [block]) = start.readings blocks
            ++ ((start.runBlocks blocks).run block.operations).events.toList := by
          rw [readings_append, readings, readings, List.append_nil]
        rw [runBlocks_append, hreadings]
        exact matchesHeld_append_iff hreachable (hsettled blocks) hmatches block
      constructor
      · intro hmatches earlier next hprefix
        have hbefore := fun read hread => hmatches read (List.IsPrefix.trans hread (List.prefix_append _ _))
        rcases List.prefix_concat_iff.mp hprefix with heq | hprefix
        · obtain ⟨rfl, rfl⟩ := List.append_inj' heq rfl |>.imp id List.singleton_inj.mp
          exact (hlast (hbefore _ List.prefix_rfl)).mp (hmatches _ List.prefix_rfl)
        · exact ih.mp hbefore earlier next hprefix
      · intro hdelivers read hread
        have hbefore := ih.mpr fun earlier next hprefix =>
          hdelivers earlier next (List.IsPrefix.trans hprefix (List.prefix_append _ _))
        rcases List.prefix_concat_iff.mp hread with rfl | hread
        · exact (hlast (hbefore _ List.prefix_rfl)).mpr (hdelivers blocks block List.prefix_rfl)
        · exact hbefore read hread

/-- A held note is ended by a reset, whose output the next block takes over. -/
def resetByResume : List HostBlock := [⟨[], [.call 0.0 (.noteOn 0 60 100)]⟩, ⟨[.suspend, .resume], []⟩]

theorem reads_match_iff_resetByResume : create {} = .ok standard
    ∧ (noteEventsOn 1 (standard.readings resetByResume)).map Midi.Event.command = [.noteOn, .noteOff]
    ∧ ((∀ read, read <+: resetByResume → (standard.runBlocks read).MatchesHeld (standard.readings read)) ↔
      ∀ earlier block, earlier ++ [block] <+: resetByResume → (standard.runBlocks earlier).Delivers block) :=
  ⟨create_standard, by decide +kernel, reads_match_iff create_standard resetByResume⟩

/-- A held note is ended by a reset, whose output is gone after another one. -/
def resetTwice : List HostBlock := [⟨[], [.call 0.0 (.noteOn 0 60 100)]⟩, ⟨[.reset, .reset], []⟩]

/-- Hosts can be left with a note that they take to sound. -/
theorem reads_lose_ends : ¬∀ (config : Configuration) (start : Engine), create config = .ok start →
    ∀ blocks, (start.runBlocks blocks).MatchesHeld (start.readings blocks) := by
  intro h
  have hsilent : (standard.runBlocks resetTwice).soundsOn 1 = false := by decide +kernel
  have hsounds : soundingFrom false (noteEventsOn 1 (standard.readings resetTwice)) = some true := by decide +kernel
  have hmatches := h {} standard create_standard resetTwice 1
  rw [hsilent, hsounds] at hmatches
  exact Bool.false_ne_true (Option.some.inj hmatches).symm

end Engine

end PolyExpression
