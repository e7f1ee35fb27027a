import PolyExpression.Proofs.Storage

/-!
No fault. The arrays of a machine store the notes and channels of an engine, and each operation of the machine has a
result that stores what the engine's operation makes. Main statement: so it is for every run of a new engine, whatever
comes in; no access leaves an array, no count falls below zero, every walk along links ends, and the loops that end the
held notes and that carry out the releases that wait leave none.
-/

namespace PolyExpression

open Checked
open Midi (Call)

/-! ### Steps beside the arrays -/

namespace Engine

/-- The engine with what is kept in arrays, and the layout, taken from another one. -/
def withArrays (engine source : Engine) : Engine :=
  { engine with
    voices := source.voices
    free := source.free
    pedal := source.pedal
    recent := source.recent
    layout := source.layout }

/-- Whether a step neither reads nor changes what is kept in arrays, and leaves the layout as it is. -/
def Aside (f : Engine → Engine) : Prop := ∀ engine, f engine = (f engine.core).withArrays engine

theorem Aside.core_eq {f : Engine → Engine} (hf : Aside f) (engine : Engine) : (f engine).core = f engine.core := by
  have hkept : f engine.core = (f engine.core).withArrays engine.core := hf engine.core
  rw [hf engine]
  generalize f engine.core = after at hkept
  rw [hkept]
  rfl

theorem Aside.comp {f g : Engine → Engine} (hf : Aside f) (hg : Aside g) : Aside (f ∘ g) := by
  intro engine
  have hkept : ∀ after : Engine, after.withArrays (g engine) = after.withArrays engine := by
    intro after
    rw [hg engine]
    rfl
  rw [Function.comp_apply, Function.comp_apply, hf (g engine), hg.core_eq, hkept]

theorem Aside.foldl {α : Type} {step : Engine → α → Engine} (hstep : ∀ item, Aside (step · item))
    (items : List α) : Aside (items.foldl step) := by
  induction items with
  | nil => exact fun _ => rfl
  | cons item items ih => exact ih.comp (hstep item)

theorem Aside.ite {p : Engine → Prop} [DecidablePred p] {f g : Engine → Engine}
    (hp : ∀ engine, p engine.core ↔ p engine) (hf : Aside f) (hg : Aside g) :
    Aside fun engine => if p engine then f engine else g engine := by
  intro engine
  dsimp only
  by_cases h : p engine
  · rw [if_pos h, if_pos ((hp engine).mpr h)]
    exact hf engine
  · rw [if_neg h, if_neg (mt (hp engine).mp h)]
    exact hg engine

/-- What is sent goes into no array. -/
theorem aside_emitAll {f : Engine → Engine} {events : Engine → List Midi.Event}
    (hf : ∀ engine, f engine = engine.emitAll (events engine))
    (hevents : ∀ engine, events engine.core = events engine) : Aside f := by
  intro engine
  rw [hf, hf, hevents]
  rfl

theorem aside_sendController (time : Float) (channel : Channel) (controller : ControllerId) (value : Float) :
    Aside (sendController · time channel controller value false) :=
  aside_emitAll (fun engine => engine.sendController_eq time channel controller value false) fun _ => rfl

theorem aside_sendManager (time : Float) (controller : ControllerId) (value : Float) :
    Aside fun engine => engine.sendController time engine.manager controller value false :=
  aside_emitAll (fun engine => engine.sendController_eq time engine.manager controller value false) fun _ => rfl

theorem aside_withInput (controller : ControllerId) (value : Float) (i : RuleIndex) :
    Aside (withInput · controller value i) := by
  have hlearn : Aside (learn · i controller) := .ite (fun _ => Iff.rfl) (fun _ => rfl) (fun _ => rfl)
  have htake : Aside (modifyRule · i fun rule => { rule with lastInput := value }) := fun _ => rfl
  exact htake.comp hlearn

theorem answer_eq (engine : Engine) (time value : Float) (i : RuleIndex) (channels : List Channel) :
    engine.answer time value i (channels.map some) = engine.emitAll (channels.flatMap fun channel =>
      controllerEvents time channel (engine.rule i).output ((engine.rule i).shape value) false) := by
  rw [answer, List.foldl_map]
  exact foldl_emitAll (fun e channel => e.sendController_eq time channel _ _ false) (fun _ _ _ => rfl) engine channels

theorem aside_apply (message : Message) : Aside (apply · message) := by
  cases message with
  | setParameter id ratio => exact .ite (fun _ => Iff.rfl) (fun _ => rfl) (fun _ => rfl)
  | refresh id => exact fun _ => rfl
  | clear => exact .ite (fun _ => Iff.rfl) (fun _ => rfl) (fun _ => rfl)
  | clearDirty => exact fun _ => rfl

theorem aside_takeMessages : Aside takeMessages := by
  intro engine
  have hnone : Aside fun engine => { engine with pending := [] } := fun _ => rfl
  exact (Aside.foldl aside_apply engine.pending).comp hnone engine

theorem aside_offer (message : Message) : Aside (offer · message) := by
  have hoffer : (offer · message) = fun engine : Engine =>
      if engine.pending.length < engine.config.queueCapacity then
        { engine with pending := engine.pending ++ [message] }
      else engine := funext fun engine => engine.offer_eq message
  rw [hoffer]
  exact .ite (fun _ => Iff.rfl) (fun _ => rfl) (fun _ => rfl)

/-- Announcing the zone and resetting the rules. -/
theorem aside_announceZone_resetRules : Aside fun engine => engine.announceZone.resetRules := by
  intro engine
  have hopenings : engine.core.openings = engine.openings := openings_congr (fun _ => rfl) rfl
  dsimp only
  rw [announceZone_resetRules_openings, announceZone_resetRules_openings, hopenings]
  rfl

/-- The engine when its held notes have been ended one by one. -/
def endNotes (engine : Engine) : Engine :=
  let engine :=
    if engine.voices.held.isEmpty then engine
    else engine.sendController 0.0 engine.manager .sustainPedal 0.0 false
  engine.voices.held.notes.foldl silenceNote engine

theorem silence_eq_endNotes (engine : Engine) : engine.silence = publishVoices { engine.endNotes with
    voices := engine.endNotes.voices.silence
    pedal := engine.endNotes.pedal.release } :=
  rfl

end Engine

namespace Machine.Stores

variable {machine : Machine} {engine : Engine} {note : Note}

theorem update (h : machine.Stores engine) {f : Engine → Engine} (hf : Engine.Aside f) :
    (machine.update f).Stores (f engine) := by
  have hcore : f machine.core = (f engine).core := by rw [hf.core_eq, h.core]
  rw [hf engine] at hcore ⊢
  exact ⟨hcore, h.held, h.below, h.above, h.deferred, h.channels, h.velocities, h.releases, h.free, h.recent,
    h.coherent, h.waiting⟩

theorem manager (h : machine.Stores engine) : machine.core.manager = engine.manager :=
  h.reads Engine.manager rfl

theorem isSuspended (h : machine.Stores engine) : machine.core.isSuspended = engine.isSuspended :=
  h.reads Engine.isSuspended rfl

theorem isLayoutStale (h : machine.Stores engine) : machine.core.isLayoutStale = engine.isLayoutStale :=
  h.reads Engine.isLayoutStale rfl

/-! ### Controllers -/

/-- The slots that a target's channels are put into hold those of the engine. -/
theorem collectTargets (h : machine.Stores engine) (target : Target) (slots : Vector (Option Channel) 16) :
    Yields (machine.collectTargets target slots) fun gathered =>
      front gathered.2 gathered.1 = .ok ((engine.voices.targets engine.manager target).map some) := by
  -- One channel goes into the first slot.
  have hone : ∀ channel : Option Channel, ∃ written, write slots 0 channel = .ok written
      ∧ front written 1 = .ok [channel] := by
    intro channel
    refine ⟨_, write_of_lt slots (by decide) channel, ?_⟩
    rw [front_of_le _ (by decide), Vector.toList_set, List.take_succ_eq_append_getElem (by simp)]
    simp
  have hgiven : ∀ region, ∀ note ∈ (engine.voices.stack region).notes,
      machine.channels.get note = some (engine.voices.channelOf note) :=
    fun region note hnote => h.channels note (h.coherent.mem_held hnote)
  have hside : ∀ region, ((engine.voices.stack region).notes.take 16).map machine.channels.get =
      ((engine.voices.stack region).channels engine.voices.channelOf).map some := by
    intro region
    rw [NoteStack.channels, List.map_map]
    exact List.map_congr_left fun note hnote => hgiven region note (List.mem_of_mem_take hnote)
  cases target with
  | global =>
      obtain ⟨written, hwritten, hfront⟩ := hone (some engine.manager)
      rw [Machine.collectTargets, h.manager, hwritten]
      exact .ok hfront
  | allBelow =>
      rw [Machine.collectTargets, h.below]
      have hgather := Links.front_gather_ofNotes engine.voices.below.nodup machine.channels slots
      exact hgather.mono fun gathered hfront => hfront.trans (congrArg Except.ok (hside .below))
  | allAbove =>
      rw [Machine.collectTargets, h.above]
      have hgather := Links.front_gather_ofNotes engine.voices.above.nodup machine.channels slots
      exact hgather.mono fun gathered hfront => hfront.trans (congrArg Except.ok (hside .above))
  | voice region role =>
      let stack := engine.voices.stack region
      have hstack : machine.stack region = .ofNotes stack.notes := by
        cases region with
        | all => exact h.held
        | below => exact h.below
        | above => exact h.above
      rw [Machine.collectTargets, hstack, Links.isEmpty_ofNotes]
      by_cases hempty : stack.notes = []
      · have hnone : stack.withRole? role = none := NoteStack.withRole?_eq_none_iff.mpr hempty
        have htargets : engine.voices.targets engine.manager (.voice region role) = [] :=
          congrArg (fun holder : Option Note => (holder.map engine.voices.channelOf).toList) hnone
        rw [if_pos (List.isEmpty_iff.mpr hempty), htargets]
        exact .ok (front_of_le slots (Nat.zero_le 16))
      · obtain ⟨note, hnote⟩ := Option.ne_none_iff_exists'.mp (mt NoteStack.withRole?_eq_none_iff.mp hempty)
        have htargets : engine.voices.targets engine.manager (.voice region role) = [engine.voices.channelOf note] :=
          congrArg (fun holder : Option Note => (holder.map engine.voices.channelOf).toList) hnote
        have hread : machine.channels.read ((Links.ofNotes stack.notes).withRole role) =
            .ok (some (engine.voices.channelOf note)) := by
          rw [Links.withRole_ofNotes, hnote]
          exact (machine.channels.read_note note).trans
            (congrArg Except.ok (hgiven region note (NoteStack.mem_of_withRole? hnote)))
        obtain ⟨written, hwritten, hfront⟩ := hone (some (engine.voices.channelOf note))
        rw [if_neg (mt List.isEmpty_iff.mp hempty), hread, ok_bind, hwritten, htargets]
        exact .ok hfront

theorem collectOutput (h : machine.Stores engine) (rule : Rule) (slots : Vector (Option Channel) 16) :
    Yields (machine.collectOutput rule slots) fun gathered =>
      front gathered.2 gathered.1 = .ok ((engine.outputChannels rule).map some) := by
  rw [Machine.collectOutput, Engine.outputChannels, h.isEmpty_held]
  split
  · exact h.collectTargets .global slots
  · exact h.collectTargets rule.target slots

theorem routeRule {state : Machine × Vector (Option Channel) 16} (h : state.1.Stores engine) (time : Float)
    (controller : ControllerId) (value : Float) (i : RuleIndex) :
    Yields (Machine.routeRule time controller value state i) fun after =>
      after.1.Stores (engine.routeRule time controller value i) := by
  let taken := engine.withInput controller value i
  have htaken : (state.1.update (·.withInput controller value i)).Stores taken :=
    h.update (Engine.aside_withInput controller value i)
  have hrule : (state.1.update (·.withInput controller value i)).core.rule i = taken.rule i := by
    rw [htaken.core]
    rfl
  have hanswer : Engine.Aside (·.answer time value i ((taken.outputChannels (taken.rule i)).map some)) :=
    Engine.aside_emitAll (fun e => e.answer_eq time value i _) fun _ => rfl
  have hroute : engine.routeRule time controller value i =
      taken.answer time value i ((taken.outputChannels (taken.rule i)).map some) := by
    rw [Engine.routeRule_eq, Engine.answer_eq]
    rfl
  rw [Machine.routeRule, hrule, hroute]
  refine (htaken.collectOutput (taken.rule i) state.2).bind fun gathered hfront => ?_
  show Yields (front gathered.2 gathered.1 >>= _) _
  rw [hfront]
  exact .ok (htaken.update hanswer)

theorem route (h : machine.Stores engine) (time : Float) (controller : ControllerId) (value : Float) :
    Yields (machine.route time controller value) fun after =>
      after.Stores (engine.route time controller value) := by
  have hlisteners : machine.core.listens controller = engine.listens controller :=
    h.reads (fun core => core.listens controller) rfl
  rw [Machine.route, hlisteners, Engine.route]
  dsimp only
  split
  · exact .ok (h.update (Engine.aside_sendManager time controller value))
  · have hstep : ∀ (state : Machine × Vector (Option Channel) 16) (engine : Engine) (i : RuleIndex),
        state.1.Stores engine → Yields (Machine.routeRule time controller value state i) fun after =>
          after.1.Stores (engine.routeRule time controller value i) :=
      fun state engine i hstate => routeRule hstate time controller value i
    have hstart : (machine, noTargets).1.Stores engine := h
    exact (Yields.foldlM hstep _ hstart).bind fun state hstate => .ok hstate

theorem movePedal (h : machine.Stores engine) (time value : Float) :
    Yields (machine.movePedal time value) fun after => after.Stores (engine.movePedal time value) := by
  rw [Machine.movePedal, h.parameters, Engine.movePedal]
  split
  · let isDown : Bool := 0.5 ≤ value
    let move (e : Engine) : Engine := { e with pedal := { e.pedal with isDown } }
    have hmoved : (machine.update move).Stores (move engine) :=
      { h with core := congrArg move h.core }
    dsimp only
    split
    · exact .ok hmoved
    · exact (hmoved.releaseDeferred time).mono fun _ hafter => hafter.1
  · exact .ok h

theorem moveController (h : machine.Stores engine) (time : Float) (controller : ControllerId) (raw : UInt16)
    (value : Float) : Yields (machine.moveController time controller raw value) fun after =>
      after.Stores (engine.moveController time controller raw value) := by
  have hread : read machine.recent controller.index.val = .ok engine.recent[controller.index] := by
    rw [h.recent]
    exact read_of_lt _ controller.index.isLt
  have hwrite : ∀ stamp, write machine.recent controller.index.val stamp =
      .ok (engine.recent.set controller.index stamp) := by
    intro stamp
    rw [h.recent]
    exact write_of_lt _ controller.index.isLt stamp
  rw [Machine.moveController, hread, ok_bind, Engine.moveController]
  dsimp only
  split
  · exact .ok h
  · rw [hwrite, ok_bind]
    have hstamped : Stores { machine with recent := engine.recent.set controller.index ⟨time, raw⟩ }
        { engine with recent := engine.recent.set controller.index ⟨time, raw⟩ } :=
      { h with recent := rfl }
    refine (hstamped.route time controller value).bind fun routed hrouted => ?_
    split
    · exact hrouted.movePedal time value
    · exact .ok hrouted

theorem receive (h : machine.Stores engine) (time : Float) (call : Call) :
    Yields (machine.receive time call) fun after => after.Stores (engine.receive time call) := by
  unfold Machine.receive Engine.receive
  rw [h.isSuspended]
  split
  · exact .ok h
  cases call with
  | noteOn channel note velocity => exact h.noteOn time note velocity
  | noteOff channel note velocity => exact h.noteOff time note velocity
  | controlChange channel number value =>
      dsimp only
      cases ControllerId.ofByte? number with
      | none => exact .ok h
      | some controller =>
          dsimp only
          split
          · exact h.moveController time controller _ _
          · exact .ok h
  | channelPressure channel pressure => exact h.moveController time _ _ _
  | pitchBend channel bend => exact h.moveController time _ _ _
  | _ => exact .ok h

theorem receiveBytes (h : machine.Stores engine) (time : Float) (bytes : List UInt8) :
    Yields (machine.receiveBytes time bytes) fun after => after.Stores (engine.receiveBytes time bytes) := by
  have hstatus : machine.core.runningStatus = engine.runningStatus := h.reads Engine.runningStatus rfl
  rw [Machine.receiveBytes, Engine.receiveBytes, hstatus, Midi.Cursor.decode_eq, ok_bind]
  exact Yields.foldlM (fun _ _ call hstate => hstate.receive time call) _ (h.update fun _ => rfl)

/-! ### Resets -/

theorem silenceNext (h : machine.Stores engine) {rest : List Note} (hheld : engine.voices.held.notes = note :: rest) :
    Yields machine.silenceNext fun after => after.Stores (engine.silenceNote note) := by
  have hnote : note ∈ engine.voices.held.notes := hheld ▸ List.mem_cons_self
  have hhead : machine.held.head = noteToByte note := by
    rw [h.held, hheld]
    rfl
  let channel := engine.voices.channelOf note
  have hsent : (machine.update (·.sendController 0.0 channel .sustainPedal 0.0 false)).Stores
      (engine.sendController 0.0 channel .sustainPedal 0.0 false) :=
    h.update (Engine.aside_sendController 0.0 channel .sustainPedal 0.0)
  rw [Machine.silenceNext, hhead, h.channelAt hnote, ok_bind]
  exact hsent.stopNote 0.0 channel note Midi.defaultVelocity

/-- As many rounds as there are held notes end them and leave none. -/
theorem endNotes (h : machine.Stores engine) :
    Yields machine.endNotes fun after => after.Stores engine.endNotes ∧ after.held.isEmpty = true := by
  let opened : Engine := if engine.voices.held.isEmpty then engine
    else engine.sendController 0.0 engine.manager .sustainPedal 0.0 false
  have hopened : (if machine.held.isEmpty then machine
      else machine.update fun core => core.sendController 0.0 core.manager .sustainPedal 0.0 false).Stores opened := by
    rw [h.isEmpty_held]
    dsimp only [opened]
    split
    · exact h
    · exact h.update (Engine.aside_sendManager 0.0 .sustainPedal 0.0)
  refine loop_notes (fun machine e he => he.isEmpty_held) (fun _ _ _ _ he hnotes => he.silenceNext hnotes)
    (fun e note rest hnotes => ?_) hopened
  rw [Engine.voices_silenceNote, Voices.held_stop, hnotes, List.erase_cons_head]

theorem silence (h : machine.Stores engine) : Yields machine.silence fun after => after.Stores engine.silence := by
  rw [Machine.silence, Engine.silence_eq_endNotes]
  refine h.endNotes.bind fun ended hended => ?_
  obtain ⟨hstores, -⟩ := hended
  have hnone : Links.empty = Links.ofNotes [] := Links.ofNotes_nil.symm
  refine .ok { hstores with
    core := ?_
    held := hnone
    below := hnone
    above := hnone
    deferred := hnone
    channels := fun _ hnote => absurd hnote List.not_mem_nil
    coherent := Voices.coherent_silence _ _
    waiting := fun _ hnote => absurd hnote List.not_mem_nil }
  simp only [Machine.publishVoices, Machine.update]
  rw [hstores.core]
  rfl

theorem refillChannels (h : machine.Stores engine) :
    Yields machine.refillChannels fun after => after.Stores engine.refillChannels := by
  have hclear : machine.free.clear = .ofRing engine.free.clear := by
    rw [h.free]
    rfl
  rw [Machine.refillChannels, h.layout, hclear, Slots.foldlM_push_ofRing, ok_bind]
  exact .ok { h with core := h.core, free := rfl }

theorem clearEvents (h : machine.Stores engine) : (machine.update (·.clearEvents)).Stores engine.clearEvents :=
  h.update fun _ => rfl

/-- The layout can change while no note is held. -/
theorem applyLayout (h : machine.Stores engine) :
    Yields machine.applyLayout fun after => after.Stores engine.applyLayout := by
  have hwanted : machine.core.wantedLayout = engine.wantedLayout := h.reads Engine.wantedLayout rfl
  rw [Machine.applyLayout, hwanted]
  refine h.clearEvents.silence.bind fun silent hsilent => ?_
  let move (e : Engine) : Engine := { e with
    layout := engine.wantedLayout
    published := { e.published with channelCount := engine.wantedLayout.zone.memberCount } }
  have hmoved : (silent.update move).Stores (move engine.clearEvents.silence) :=
    { hsilent with
      core := congrArg move hsilent.core
      coherent := Voices.coherent_silence _ _ }
  refine hmoved.refillChannels.bind fun refilled hrefilled => .ok ?_
  have hfinish : Engine.Aside fun e => { e with hasReset := true } := fun _ => rfl
  exact hrefilled.update (hfinish.comp Engine.aside_announceZone_resetRules)

theorem reset (h : machine.Stores engine) : Yields machine.reset fun after => after.Stores engine.reset := by
  have hfinish : Engine.Aside fun e => { e with hasReset := true } := fun _ => rfl
  rw [Machine.reset, h.isLayoutStale, Engine.reset]
  split
  · exact h.applyLayout
  · refine h.clearEvents.silence.bind fun silent hsilent => ?_
    refine (hsilent.update Engine.aside_announceZone_resetRules).refillChannels.bind fun refilled hrefilled => ?_
    exact .ok (hrefilled.update hfinish)

/-! ### Operations -/

theorem openBlock (h : machine.Stores engine) :
    Yields machine.openBlock fun after => after.Stores engine.openBlock := by
  have hleave : Engine.Aside Engine.leaveReset := .ite (fun _ => Iff.rfl) (fun _ => rfl) (fun _ => rfl)
  rw [Machine.openBlock, Engine.openBlock, h.isSuspended, h.isLayoutStale]
  split
  · exact .ok h.clearEvents
  · refine Yields.bind (P := (·.Stores (if engine.isLayoutStale then engine.applyLayout else engine))) ?_
      fun applied hstores => .ok (hstores.update hleave)
    split
    · exact h.applyLayout
    · exact .ok h

theorem beginBlock (h : machine.Stores engine) :
    Yields machine.beginBlock fun after => after.Stores engine.beginBlock := by
  let opened : Machine := { machine.update (·.takeMessages) with recent := Vector.replicate 124 .never }
  have hopened : opened.Stores { engine.takeMessages with recent := Vector.replicate 124 .never } :=
    { h.update Engine.aside_takeMessages with recent := rfl }
  rw [Engine.beginBlock_eq]
  exact hopened.openBlock

theorem perform (h : machine.Stores engine) (operation : Operation) :
    Yields (machine.perform operation) fun after => after.Stores (engine.perform operation) := by
  cases operation with
  | beginBlock => exact h.beginBlock
  | call time call => exact h.receive time call
  | bytes time bytes => exact h.receiveBytes time bytes
  | apply message => exact .ok (h.update (Engine.aside_apply message))
  | post message => exact .ok (h.update (Engine.aside_offer message))
  | takeMessages => exact .ok (h.update Engine.aside_takeMessages)
  | reset => exact h.reset
  | suspend => exact .ok (h.update fun _ => rfl)
  | resume =>
      have hresumed : (machine.update fun core => { core with isSuspended := false }).Stores
          { engine with isSuspended := false } := h.update fun _ => rfl
      exact hresumed.reset
  | clearDirty => exact .ok (h.update fun _ => rfl)

theorem run (h : machine.Stores engine) (operations : List Operation) :
    Yields (machine.run operations) fun after => after.Stores (engine.run operations) :=
  Yields.foldlM (fun _ _ operation hstate => hstate.perform operation) operations h

end Machine.Stores

/-- The machine of a new engine stores it. -/
theorem Machine.boot_stores {config : Configuration} {engine : Engine} (h : Engine.create config = .ok engine) :
    Yields (boot engine) fun machine => machine.Stores engine := by
  obtain ⟨config, rfl⟩ := Engine.create_frame h
  let emptied : Engine := { Engine.standard with config, free := .empty }
  have hrefill : emptied.refillChannels = { Engine.standard with config } := by
    dsimp only [emptied, Engine.standard, Engine.refillChannels]
  have hnone : Links.empty = Links.ofNotes [] := Links.ofNotes_nil.symm
  have hstart : ∀ machine : Machine, machine.Stores emptied →
      Yields machine.refillChannels (·.Stores emptied.refillChannels) := fun _ hstores => hstores.refillChannels
  rw [← hrefill, boot]
  refine hstart _ ⟨rfl, hnone, hnone, hnone, hnone, ?_, rfl, rfl, rfl, rfl, Voices.coherent_empty _, ?_⟩
  · exact fun note hnote => absurd hnote List.not_mem_nil
  · exact fun note hnote => absurd hnote List.not_mem_nil

namespace Engine

/-- **No fault.** Whatever is done with a new engine, its arrays take it, and store the engine that comes out. From
there the loop that ends the held notes and the loop that carries out the releases that wait come to their ends, where
no note is held and no release waits. -/
theorem run_faultless {config : Configuration} {start : Engine} (h : create config = .ok start)
    (operations : List Operation) :
    Yields (Machine.boot start >>= fun machine => machine.run operations) fun machine =>
      machine.Stores (start.run operations)
      ∧ Yields machine.endNotes (fun ended =>
          ended.Stores (start.run operations).endNotes ∧ ended.held.isEmpty = true)
      ∧ ∀ time, Yields (machine.releaseDeferred time) fun released =>
          released.Stores ((start.run operations).releaseDeferred time) ∧ released.deferred.isEmpty = true := by
  refine (Machine.boot_stores h).bind fun machine hboot => ?_
  exact (hboot.run operations).mono fun after hafter =>
    ⟨hafter, hafter.endNotes, fun time => hafter.releaseDeferred time⟩

/-- More notes come in than there are channels, and bytes that are no notes; one release waits. -/
def notesAndStrayBytes : List Operation :=
  [.apply (.setParameter (.zone .holdOnSustain) 1.0), .beginBlock, .call 0.0 (.noteOn 200 255 255)]
    ++ ((List.range 17).map fun i => .call 0.0 (.noteOn 0 (40 + i).toUInt8 100))
    ++ [.call 0.0 (.controlChange 0 64 127), .call 0.0 (.pitchBend 0 65535), .bytes 0.0 [0x32, 0xF8, 0x80, 50, 0, 51]]

theorem run_faultless_notesAndStrayBytes : create {} = .ok standard
    ∧ (standard.run notesAndStrayBytes).voices.held.size = 15
    ∧ (standard.run notesAndStrayBytes).pedal.deferred.notes = [50]
    ∧ Yields (Machine.boot standard >>= fun machine => machine.run notesAndStrayBytes) fun machine =>
      machine.Stores (standard.run notesAndStrayBytes)
      ∧ Yields machine.endNotes (fun ended =>
          ended.Stores (standard.run notesAndStrayBytes).endNotes ∧ ended.held.isEmpty = true)
      ∧ ∀ time, Yields (machine.releaseDeferred time) fun released =>
          released.Stores ((standard.run notesAndStrayBytes).releaseDeferred time)
            ∧ released.deferred.isEmpty = true :=
  ⟨create_standard, by decide +kernel, by decide +kernel, run_faultless create_standard notesAndStrayBytes⟩

end Engine

end PolyExpression
