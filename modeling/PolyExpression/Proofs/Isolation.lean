import PolyExpression.Proofs.Handover

/-!
What the note with a role has heard of a rule's input, followed through runs. A note that takes the role has
heard nothing; a value that comes in is heard; a note that ends loses the role, even if it is struck again at
once. Main statement: in every run in which no parameter changes, the last value sent of the rule's output to
the note with the role is the last one it has heard, and all other held notes have last been sent the
initial value.
-/

namespace PolyExpression

open Midi (Event Call)

/-- The controller that a message moves, with its value as it came in and as a fraction. -/
def Midi.Call.move? : Call → Option (ControllerId × UInt16 × Float)
  | .controlChange _ number value =>
      match ControllerId.ofByte? number with
      | none => none
      | some controller =>
          if controller.midiNumber?.isSome then some (controller, value.toUInt16, Midi.fractionOfByte value)
          else none
  | .channelPressure _ pressure => some (.channelPressure, pressure.toUInt16, Midi.fractionOfByte pressure)
  | .pitchBend _ bend => some (.pitchWheel, bend, Midi.fractionOfWord bend)
  | _ => none

namespace Engine

variable {origin engine after : Engine} {i : RuleIndex} {region : Region} {role : Role}
  {note : Note} {earlier log : List Event} {heard : Option Float}

/-- The value that a message brings to a rule, if the engine does not drop it. -/
def valueFor? (engine : Engine) (i : RuleIndex) (time : Float) (call : Call) : Option Float :=
  match call.move? with
  | none => none
  | some (controller, raw, value) =>
      if !engine.isSuspended && !(engine.recent.get controller.index).isSame ⟨time, raw⟩
          && (engine.rule i).input == controller then some value
      else none

/-- Whether a message ends a held note and starts it again. -/
def restrikes (engine : Engine) (call : Call) (note : Note) : Bool :=
  match call with
  | .noteOn _ byte _ =>
      !engine.isSuspended && noteOfByte? byte == some note && engine.parameters.excessNotes != .ignore
  | _ => false

/-- What the note with a role has heard of a rule's input after a message: the value that came in, or else what
it had heard before; but nothing if it has only just taken the role or has been struck again. -/
def heardOf (engine : Engine) (i : RuleIndex) (region : Region) (role : Role) (heard : Option Float)
    (time : Float) (call : Call) : Option Float :=
  if (engine.voices.holder? region role).any (engine.restrikes call) then none
  else kept region role engine (engine.receive time call) ((engine.valueFor? i time call).or heard)

/-- What the note with a role has heard of a rule's input after messages that come in together. -/
def heardOfAll (engine : Engine) (i : RuleIndex) (region : Region) (role : Role) (heard : Option Float)
    (time : Float) : List Call → Option Float
  | [] => heard
  | call :: calls => (engine.receive time call).heardOfAll i region role
      (engine.heardOf i region role heard time call) time calls

/-- What the note with a role has heard of a rule's input after an operation. -/
def heardIn (engine : Engine) (i : RuleIndex) (region : Region) (role : Role) (heard : Option Float) :
    Operation → Option Float
  | .call time call => engine.heardOf i region role heard time call
  | .bytes time bytes =>
      let decoded := Midi.Stream.decode engine.runningStatus bytes
      heardOfAll { engine with runningStatus := decoded.2 } i region role heard time decoded.1
  | operation => kept region role engine (engine.perform operation) heard

/-- What the note with a role has heard of a rule's input after a run, given what it had heard before. -/
def lastHeard (engine : Engine) (i : RuleIndex) (region : Region) (role : Role) (earlier : Option Float) :
    List Operation → Option Float
  | [] => earlier
  | operation :: operations =>
      (engine.perform operation).lastHeard i region role (engine.heardIn i region role earlier operation)
        operations

/-- What is followed through an operation: an engine of the same settings as `origin`, in which the note with
the role has been sent what it has heard. -/
structure Watched (origin : Engine) (i : RuleIndex) (region : Region) (role : Role) (earlier : List Event)
    (heard : Option Float) (engine : Engine) : Prop where
  balanced : Balanced ([], engine)
  settings : origin.SameSettings engine
  isolated : Isolated origin i region role heard (earlier ++ engine.events.toList) engine

theorem heardOf_of_not_restrikes {time : Float} {call : Call} (h : ∀ note, engine.restrikes call note = false) :
    engine.heardOf i region role heard time call =
      kept region role engine (engine.receive time call) ((engine.valueFor? i time call).or heard) := by
  unfold heardOf
  cases engine.voices.holder? region role with
  | none => rfl
  | some note =>
      rw [Option.any_some, h, if_neg Bool.false_ne_true]

theorem valueFor?_or {time value : Float} {raw : UInt16} {controller : ControllerId} {call : Call}
    (hmove : call.move? = some (controller, raw, value)) (hsuspended : engine.isSuspended = false) :
    (engine.valueFor? i time call).or heard =
      if (engine.recent.get controller.index).isSame ⟨time, raw⟩ = false ∧ (engine.rule i).input = controller then
        some value
      else heard := by
  unfold valueFor?
  rw [hmove, hsuspended]
  simp only [Bool.not_false, Bool.true_and, Bool.and_eq_true, Bool.not_eq_true', beq_iff_eq]
  split
  · rfl
  · rfl

theorem SameSettings.acts {before after : Moment} (h : origin.SameSettings before.2)
    (hlearn : ∀ j, (origin.rule j).input ≠ .learn) (hacts : Acts before after) :
    origin.SameSettings after.2 := by
  induction hacts with
  | refl => exact h
  | tail _ hact ih => exact ih.act hlearn hact

namespace Watched

/-- What acts send is judged by what it does to the held notes. -/
theorem acts {next : Option Float} {sent : List Event} (h : Watched origin i region role earlier heard engine)
    (hrole : origin.TakesRole i region role) (hacts : Acts ([], engine) ([], after))
    (hsent : after.events.toList = engine.events.toList ++ sent)
    (hisolated : Isolated origin i region role next (earlier ++ engine.events.toList ++ sent) after) :
    Watched origin i region role earlier next after where
  balanced := hacts.balanced h.balanced
  settings := by
    have hbefore : origin.SameSettings (([], engine) : Moment).2 := h.settings
    exact hbefore.acts hrole.input_ne hacts
  isolated := by
    rw [hsent, ← List.append_assoc]
    exact hisolated

/-- A quiet step makes no difference to what has been heard. -/
theorem quiet (h : Watched origin i region role earlier heard engine) (hquiet : Quiet engine after) :
    Watched origin i region role earlier heard after where
  balanced := h.balanced.quiet hquiet
  settings := fun id => (congrArg (fun store => store.get id) hquiet.parameters).trans (h.settings id)
  isolated := by
    rw [hquiet.events]
    exact h.isolated.congr hquiet.voices

/-! ### Notes -/

theorem release (h : Watched origin i region role earlier heard engine) (hrole : origin.TakesRole i region role)
    (hnote : note ∈ engine.voices.held.notes) (time : Float) (velocity : UInt8) :
    Watched origin i region role earlier
      (kept region role engine (engine.releaseNote time note velocity) heard)
      (engine.releaseNote time note velocity) := by
  have hisolated := h.isolated.stop hrole h.settings h.balanced hnote time velocity
  have hsent := engine.events_stopNote time (engine.voices.channelOf note) note velocity
  have hacts : Acts ([], engine) ([], engine.releaseNote time note velocity) :=
    releaseNote_acts time velocity hnote
  rw [releaseNote_eq] at hacts ⊢
  obtain ⟨stopped, hstop⟩ : ∃ stopped,
    engine.stopNote time (engine.voices.channelOf note) note velocity = stopped := ⟨_, rfl⟩
  rw [hstop] at hisolated hsent hacts ⊢
  obtain ⟨free, hfree⟩ := stopped.giveBack_frame (engine.voices.channelOf note)
  rw [hfree] at hacts ⊢
  exact h.acts hrole hacts hsent (hisolated.congr rfl)

theorem replace (h : Watched origin i region role earlier heard engine) (hrole : origin.TakesRole i region role)
    {old new : Note} (hold : old ∈ engine.voices.held.notes) (hnew : new ∉ engine.voices.held.notes.erase old)
    (time : Float) (velocity : UInt8) :
    Watched origin i region role earlier
      (if engine.voices.holder? region role = some old then none
        else kept region role engine (engine.replaceNote time old new velocity) heard)
      (engine.replaceNote time old new velocity) := by
  obtain ⟨stopped, hstop⟩ : ∃ stopped,
    engine.stopNote time (engine.voices.channelOf old) old Midi.defaultVelocity = stopped := ⟨_, rfl⟩
  have hsent : (engine.replaceNote time old new velocity).events.toList = engine.events.toList ++
      (engine.stopEvents time (engine.voices.channelOf old) old Midi.defaultVelocity
        ++ stopped.startEvents time (engine.voices.channelOf old) new velocity) := by
    have hstart := stopped.events_startNote time (engine.voices.channelOf old) new velocity
    have hended := engine.events_stopNote time (engine.voices.channelOf old) old Midi.defaultVelocity
    rw [hstop] at hended
    rw [hended, List.append_assoc] at hstart
    rw [← hstart, ← hstop]
    rfl
  exact h.acts hrole (replaceNote_acts time velocity hold hnew) hsent
    (h.isolated.replace hrole h.settings h.balanced hold hnew time velocity hstop)

/-- A note that starts on a free channel takes the role or leaves it where it is. -/
theorem start (h : Watched origin i region role earlier heard engine) (hrole : origin.TakesRole i region role)
    {channel : Channel} (hpop : engine.free.pop.1 = some channel) (hnot : note ∉ engine.voices.held.notes)
    (time : Float) (velocity : UInt8) {taken : Engine}
    (htake : { engine with free := engine.free.pop.2 } = taken) :
    Watched origin i region role earlier
      (kept region role engine (taken.startNote time channel note velocity) heard)
      (taken.startNote time channel note velocity) := by
  have hacts : Acts ([], engine) (channel :: [], { engine with free := engine.free.pop.2 }) := .single (.take hpop)
  have hsettings : origin.SameSettings { engine with free := engine.free.pop.2 } := h.settings
  have hvoices : ({ engine with free := engine.free.pop.2 } : Engine).voices = engine.voices := rfl
  have hevents : ({ engine with free := engine.free.pop.2 } : Engine).events = engine.events := rfl
  rw [htake] at hacts hsettings hvoices hevents
  have hfree : note ∉ taken.voices.held.notes := hvoices ▸ hnot
  have hstart := (h.isolated.congr hvoices).start hrole hsettings (hacts.balanced h.balanced) hfree time velocity
  have hsent := taken.events_startNote time channel note velocity
  rw [kept_congr hvoices] at hstart
  rw [hevents] at hsent
  exact h.acts hrole (hacts.tail (.start time channel velocity hfree)) hsent hstart

/-- A note that takes the channel of another one takes the role or leaves it where it is; the other one cannot have
it afterwards. -/
theorem steal (h : Watched origin i region role earlier heard engine) (hrole : origin.TakesRole i region role)
    {stolen : Note} (hstolen : stolen ∈ engine.voices.held.notes) (hnot : note ∉ engine.voices.held.notes)
    (time : Float) (velocity : UInt8) :
    Watched origin i region role earlier
      (kept region role engine (engine.replaceNote time stolen note velocity) heard)
      (engine.replaceNote time stolen note velocity) := by
  have hreplace := h.replace hrole hstolen (fun hmem => hnot (List.mem_of_mem_erase hmem)) time velocity
  by_cases hholder : engine.voices.holder? region role = some stolen
  · have hended : (engine.replaceNote time stolen note velocity).voices.holder? region role ≠
        engine.voices.holder? region role := by
      intro hstill
      have hmem := hreplace.balanced.mem_of_holder? (hstill.trans hholder)
      rw [held_replaceNote] at hmem
      rcases List.mem_cons.mp hmem with rfl | hmem
      · exact hnot hstolen
      · exact engine.voices.held.nodup.not_mem_erase (List.mem_of_mem_erase hmem)
    rw [if_pos hholder] at hreplace
    rw [kept_of_ne hended]
    exact hreplace
  · rw [if_neg hholder] at hreplace
    exact hreplace

/-- A note that is struck makes a difference only if it has the role and ends, or takes the role. -/
theorem strike (h : Watched origin i region role earlier heard engine) (hrole : origin.TakesRole i region role)
    (time : Float) (note : Note) (velocity : UInt8) :
    Watched origin i region role earlier
      (if engine.voices.holder? region role = some note ∧ engine.parameters.excessNotes ≠ .ignore then none
        else kept region role engine (engine.strike time note velocity) heard)
      (engine.strike time note velocity) := by
  have hheld : engine.voices.holder? region role = some note → note ∈ engine.voices.held.notes :=
    h.balanced.mem_of_holder?
  obtain ⟨hignore, hstrike⟩ | ⟨hnote, hpolicy, hstrike⟩ | ⟨hnot, channel, hpop, hstrike⟩
    | ⟨hnot, stolen, hstolen, hstrike⟩ := engine.strike_cases time note velocity
  · rw [hstrike, if_neg fun hended => hended.2 (hignore (hheld hended.1)), kept_of_eq rfl]
    exact h
  · rw [hstrike, if_congr (and_iff_left hpolicy) rfl rfl]
    exact h.replace hrole hnote engine.voices.held.nodup.not_mem_erase time velocity
  · rw [hstrike, if_neg fun hended => hnot (hheld hended.1)]
    exact h.start hrole hpop hnot time velocity rfl
  · rw [hstrike, if_neg fun hended => hnot (hheld hended.1)]
    exact h.steal hrole hstolen hnot time velocity

theorem lift (h : Watched origin i region role earlier heard engine) (hrole : origin.TakesRole i region role)
    (time : Float) (note : Note) (velocity : UInt8) :
    Watched origin i region role earlier (kept region role engine (engine.lift time note velocity) heard)
      (engine.lift time note velocity) := by
  unfold Engine.lift
  by_cases hheld : engine.voices.held.contains note = true
  · have hnote := NoteStack.contains_iff.mp hheld
    rw [if_pos hheld]
    split
    · have hwaits : Watched origin i region role earlier heard
          { engine with pedal := engine.pedal.hold note velocity } := by
        refine h.acts hrole (.single (.hold velocity hnote)) (List.append_nil _).symm ?_
        rw [List.append_nil]
        exact h.isolated.congr rfl
      rw [kept_of_eq (by rfl)]
      exact hwaits
    · exact h.release hrole hnote time velocity
  · rw [if_neg hheld, kept_of_eq rfl]
    exact h

/-- The releases that wait take the role from a note for good, or leave it where it is. -/
theorem releaseDeferred (h : Watched origin i region role earlier heard engine)
    (hrole : origin.TakesRole i region role) (time : Float) :
    Watched origin i region role earlier (kept region role engine (engine.releaseDeferred time) heard)
      (engine.releaseDeferred time) := by
  -- So far the role has stayed where it was, or the note that had it is no longer held and cannot get it back.
  let P : Engine → Prop := fun e =>
    (e.voices.holder? region role = engine.voices.holder? region role
      ∧ Watched origin i region role earlier heard e)
    ∨ ∃ last, engine.voices.holder? region role = some last ∧ last ∉ e.voices.held.notes
      ∧ Watched origin i region role earlier none e
  have hstep : ∀ e note velocity, note ∈ e.voices.held.notes → P e → P (e.releaseNote time note velocity) := by
    intro e note velocity hnote hP
    have hheld : (e.releaseNote time note velocity).voices.held.notes = e.voices.held.notes.erase note := by
      rw [voices_releaseNote, Voices.held_stop]
    rcases hP with ⟨hholder, hwatched⟩ | ⟨last, hlast, hnot, hwatched⟩
    · have hreleased := hwatched.release hrole hnote time velocity
      by_cases hends : e.voices.holder? region role = some note
      · have hnot : note ∉ (e.releaseNote time note velocity).voices.held.notes := by
          rw [hheld]
          exact e.voices.held.nodup.not_mem_erase
        have hended : (e.releaseNote time note velocity).voices.holder? region role ≠
            e.voices.holder? region role :=
          fun hstill => hnot (hreleased.balanced.mem_of_holder? (hstill.trans hends))
        rw [kept_of_ne hended] at hreleased
        exact .inr ⟨note, hholder.symm.trans hends, hnot, hreleased⟩
      · have hstays : (e.releaseNote time note velocity).voices.holder? region role =
            e.voices.holder? region role := by
          rw [voices_releaseNote]
          exact Voices.holder?_stop hends
        rw [kept_of_eq hstays] at hreleased
        exact .inl ⟨hstays.trans hholder, hreleased⟩
    · have hreleased := hwatched.release hrole hnote time velocity
      rw [show kept region role e _ none = none from ite_self none] at hreleased
      refine .inr ⟨last, hlast, fun hmem => hnot ?_, hreleased⟩
      rw [hheld] at hmem
      exact List.mem_of_mem_erase hmem
  rcases releaseDeferred_induction hstep h.balanced.deferred (.inl ⟨rfl, h⟩) with
    ⟨hholder, hwatched⟩ | ⟨last, hlast, hnot, hwatched⟩
  · rw [kept_of_eq hholder]
    exact hwatched
  · rw [kept_of_ne fun hstill => hnot (hwatched.balanced.mem_of_holder? (hstill.trans hlast))]
    exact hwatched

/-! ### Controllers -/

theorem routeRule (h : Watched origin i region role earlier heard engine)
    (hrole : origin.TakesRole i region role) (time : Float) (controller : ControllerId) (value : Float)
    (j : RuleIndex) :
    Watched origin i region role earlier (if j = i then some value else heard)
      (Engine.routeRule time controller value engine j) := by
  have hacts : Acts ([], engine) ([], Engine.routeRule time controller value engine j) := .single (.route ..)
  have hsent := events_routeRule time controller value engine j
  by_cases hj : j = i
  · subst hj
    rw [if_pos rfl]
    exact h.acts hrole hacts hsent (h.isolated.route hrole h.settings h.balanced time controller value)
  · rw [if_neg hj]
    exact h.acts hrole hacts hsent (h.isolated.route_other hrole h.settings hj time controller value)

/-- A value that no rule listens to goes to the manager and is not heard. -/
theorem report (h : Watched origin i region role earlier heard engine) (hrole : origin.TakesRole i region role)
    (time : Float) (controller : ControllerId) (value : Float) :
    Watched origin i region role earlier heard
      (engine.sendController time engine.manager controller value false) := by
  have hacts : Acts ([], engine) ([], engine.sendController time engine.manager controller value false) :=
    .single (.report [] engine time controller value)
  have hsent := engine.events_sendController time engine.manager controller value
  have hvoices : (engine.sendController time engine.manager controller value false).voices = engine.voices := by
    rw [sendController_eq]
    rfl
  refine h.acts hrole hacts hsent (h.isolated.send hvoices fun note hnote => ?_)
  exact settings_controllerEvents_of_ne (.inr (h.balanced.manager_ne_channelOf hnote))

theorem foldl_routeRule (h : Watched origin i region role earlier heard engine)
    (hrole : origin.TakesRole i region role) (time : Float) (controller : ControllerId) (value : Float)
    (rules : List RuleIndex) :
    Watched origin i region role earlier (if rules.contains i then some value else heard)
      (rules.foldl (Engine.routeRule time controller value) engine) := by
  induction rules generalizing engine heard with
  | nil => exact h
  | cons j rules ih =>
      have hrest := ih (h.routeRule hrole time controller value j)
      by_cases hmem : rules.contains i = true
      · have hlater : (j :: rules).contains i = true := by
          rw [List.contains_cons, hmem, Bool.or_true]
        rw [if_pos hmem] at hrest
        rw [if_pos hlater]
        exact hrest
      · have hfirst : (j :: rules).contains i = true ↔ j = i := by
          rw [List.contains_cons, Bool.or_eq_true, or_iff_left hmem, beq_iff_eq]
          exact eq_comm
        rw [if_neg hmem] at hrest
        rw [if_congr hfirst rfl rfl]
        exact hrest

/-- A value that comes in is heard if the rule listens to its controller. -/
theorem route (h : Watched origin i region role earlier heard engine) (hrole : origin.TakesRole i region role)
    (time : Float) (controller : ControllerId) (value : Float) :
    Watched origin i region role earlier (if (engine.rule i).input = controller then some value else heard)
      (engine.route time controller value) := by
  have hlisteners : ((List.finRange ruleCount).filter (engine.listens controller)).contains i = true ↔
      (engine.rule i).input = controller := by
    have hlearn := (hrole.sameSettings h.settings).input_ne i
    unfold listens
    rw [List.contains_iff_mem, List.mem_filter, and_iff_right (List.mem_finRange i), Bool.or_eq_true, beq_iff_eq,
      beq_iff_eq]
    exact or_iff_right hlearn
  unfold Engine.route
  dsimp only
  by_cases hempty : ((List.finRange ruleCount).filter (engine.listens controller)).isEmpty = true
  · have hnobody : (engine.rule i).input ≠ controller := by
      intro hinput
      have hmem := hlisteners.mpr hinput
      rw [List.isEmpty_iff.mp hempty] at hmem
      exact Bool.false_ne_true hmem
    rw [if_pos hempty, if_neg hnobody]
    exact h.report hrole time controller value
  · rw [if_neg hempty, ← if_congr hlisteners rfl rfl]
    exact h.foldl_routeRule hrole time controller value _

theorem movePedal (h : Watched origin i region role earlier heard engine)
    (hrole : origin.TakesRole i region role) (time value : Float) : Watched origin i region role earlier
      (kept region role engine (engine.movePedal time value) heard) (engine.movePedal time value) := by
  have hmoved : Watched origin i region role earlier heard
      { engine with pedal := { engine.pedal with isDown := 0.5 ≤ value } } :=
    h.quiet ⟨rfl, rfl, rfl, rfl, rfl, rfl⟩
  unfold Engine.movePedal
  dsimp only
  by_cases hholds : engine.parameters.holdsOnSustain = true
  · rw [if_pos hholds]
    split
    · rw [kept_of_eq (by rfl)]
      exact hmoved
    · exact hmoved.releaseDeferred hrole time
  · rw [if_neg hholds, kept_of_eq rfl]
    exact h

theorem moveController (h : Watched origin i region role earlier heard engine)
    (hrole : origin.TakesRole i region role) (time : Float) (controller : ControllerId) (raw : UInt16)
    (value : Float) : Watched origin i region role earlier
      (kept region role engine (engine.moveController time controller raw value)
        (if (engine.recent.get controller.index).isSame ⟨time, raw⟩ = false
            ∧ (engine.rule i).input = controller then
          some value
        else heard))
      (engine.moveController time controller raw value) := by
  have hstamp : engine.recent[controller.index] = engine.recent.get controller.index := rfl
  unfold Engine.moveController
  dsimp only
  rw [hstamp]
  cases hsame : (engine.recent.get controller.index).isSame ⟨time, raw⟩ with
  | true =>
      rw [if_pos rfl, kept_of_eq rfl, if_neg fun hheard => Bool.false_ne_true hheard.1.symm]
      exact h
  | false =>
      have hstamped : Watched origin i region role earlier heard
          { engine with recent := engine.recent.set controller.index ⟨time, raw⟩ } :=
        h.quiet ⟨rfl, rfl, rfl, rfl, rfl, rfl⟩
      have hvoices : ({ engine with recent := engine.recent.set controller.index ⟨time, raw⟩ } : Engine).voices =
          engine.voices := rfl
      have hrule : ({ engine with recent := engine.recent.set controller.index ⟨time, raw⟩ } : Engine).rule i =
          engine.rule i := rfl
      obtain ⟨stamped, hstamp⟩ : ∃ stamped,
        { engine with recent := engine.recent.set controller.index ⟨time, raw⟩ } = stamped := ⟨_, rfl⟩
      rw [hstamp] at hstamped hvoices hrule ⊢
      have hrouted := hstamped.route hrole time controller value
      have hkept := (stamped.voices_route time controller value).trans hvoices
      rw [hrule] at hrouted
      rw [if_neg Bool.false_ne_true, if_congr (and_iff_right rfl) rfl rfl]
      split
      · rw [← kept_congr hkept]
        exact hrouted.movePedal hrole time value
      · rw [kept_of_eq (congrArg (fun voices => voices.holder? region role) hkept)]
        exact hrouted

/-! ### Messages -/

/-- A message that does nothing is not heard. -/
theorem ignore (h : Watched origin i region role earlier heard engine) {time : Float} {call : Call}
    (hreceive : engine.receive time call = engine) (hvalue : engine.valueFor? i time call = none)
    (hrestrikes : ∀ note, engine.restrikes call note = false) :
    Watched origin i region role earlier (engine.heardOf i region role heard time call)
      (engine.receive time call) := by
  rw [heardOf_of_not_restrikes hrestrikes, hvalue, Option.none_or, hreceive, kept_of_eq rfl]
  exact h

theorem move (h : Watched origin i region role earlier heard engine) (hrole : origin.TakesRole i region role)
    {time value : Float} {raw : UInt16} {controller : ControllerId} {call : Call}
    (hmove : call.move? = some (controller, raw, value)) (hsuspended : engine.isSuspended = false)
    (hreceive : engine.receive time call = engine.moveController time controller raw value)
    (hrestrikes : ∀ note, engine.restrikes call note = false) :
    Watched origin i region role earlier (engine.heardOf i region role heard time call)
      (engine.receive time call) := by
  rw [heardOf_of_not_restrikes hrestrikes, valueFor?_or hmove hsuspended, hreceive]
  exact h.moveController hrole time controller raw value

theorem receive_suspended (h : Watched origin i region role earlier heard engine)
    (hsuspended : engine.isSuspended = true) (time : Float) (call : Call) :
    Watched origin i region role earlier
      (engine.heardOf i region role heard time call) (engine.receive time call) := by
  refine h.ignore (if_pos hsuspended) ?_ fun note => ?_
  · unfold valueFor?
    rw [hsuspended]
    split
    · rfl
    · rfl
  · unfold restrikes
    rw [hsuspended]
    split
    · rfl
    · rfl

theorem receive_noteOn (h : Watched origin i region role earlier heard engine)
    (hrole : origin.TakesRole i region role) (hactive : engine.isSuspended = false) (time : Float)
    (channel byte velocity : UInt8) : Watched origin i region role earlier
      (engine.heardOf i region role heard time (.noteOn channel byte velocity))
      (engine.receive time (.noteOn channel byte velocity)) := by
  have hreceive : engine.receive time (.noteOn channel byte velocity) =
      (noteOfByte? byte).elim engine fun note => engine.strike time note velocity :=
    if_neg (hactive ▸ Bool.false_ne_true)
  have hrestrikes : ∀ note, engine.restrikes (.noteOn channel byte velocity) note = true ↔
      noteOfByte? byte = some note ∧ engine.parameters.excessNotes ≠ .ignore := by
    intro note
    unfold restrikes
    dsimp only
    rw [hactive, Bool.not_false, Bool.true_and, Bool.and_eq_true, beq_iff_eq, bne_iff_ne]
  cases hbyte : noteOfByte? byte with
  | none =>
      refine h.ignore ?_ rfl fun note => ?_
      · rw [hreceive, hbyte]
        rfl
      · refine Bool.eq_false_iff.mpr fun hrestrike => ?_
        exact absurd (hbyte.symm.trans ((hrestrikes note).mp hrestrike).1) nofun
  | some note =>
      have hended : (engine.voices.holder? region role).any
          (engine.restrikes (.noteOn channel byte velocity)) = true ↔
            engine.voices.holder? region role = some note ∧ engine.parameters.excessNotes ≠ .ignore := by
        rw [Option.any_eq_true]
        constructor
        · rintro ⟨other, hholder, hrestrike⟩
          obtain ⟨hother, hpolicy⟩ := (hrestrikes other).mp hrestrike
          exact ⟨hholder.trans (hother.symm.trans hbyte), hpolicy⟩
        · rintro ⟨hholder, hpolicy⟩
          exact ⟨note, hholder, (hrestrikes note).mpr ⟨hbyte, hpolicy⟩⟩
      unfold heardOf
      rw [hreceive, hbyte, if_congr hended rfl rfl]
      exact h.strike hrole time note velocity

theorem receive_noteOff (h : Watched origin i region role earlier heard engine)
    (hrole : origin.TakesRole i region role) (hactive : engine.isSuspended = false) (time : Float)
    (channel byte velocity : UInt8) : Watched origin i region role earlier
      (engine.heardOf i region role heard time (.noteOff channel byte velocity))
      (engine.receive time (.noteOff channel byte velocity)) := by
  have hreceive : engine.receive time (.noteOff channel byte velocity) =
      (noteOfByte? byte).elim engine fun note => engine.lift time note velocity :=
    if_neg (hactive ▸ Bool.false_ne_true)
  cases hbyte : noteOfByte? byte with
  | none =>
      refine h.ignore ?_ rfl fun _ => rfl
      rw [hreceive, hbyte]
      rfl
  | some note =>
      rw [heardOf_of_not_restrikes fun _ => rfl, hreceive, hbyte]
      exact h.lift hrole time note velocity

theorem receive_controlChange (h : Watched origin i region role earlier heard engine)
    (hrole : origin.TakesRole i region role) (hactive : engine.isSuspended = false) (time : Float)
    (channel number value : UInt8) : Watched origin i region role earlier
      (engine.heardOf i region role heard time (.controlChange channel number value))
      (engine.receive time (.controlChange channel number value)) := by
  have hreceive : engine.receive time (.controlChange channel number value) =
      (Call.move? (.controlChange channel number value)).elim engine
        fun (controller, raw, value) => engine.moveController time controller raw value := by
    refine (if_neg (hactive ▸ Bool.false_ne_true)).trans ?_
    unfold Call.move?
    dsimp only
    cases ControllerId.ofByte? number with
    | none => rfl
    | some controller =>
        dsimp only
        split
        · rfl
        · rfl
  cases hmove : Call.move? (.controlChange channel number value) with
  | none =>
      refine h.ignore ?_ ?_ fun _ => rfl
      · rw [hreceive, hmove]
        rfl
      · unfold valueFor?
        rw [hmove]
  | some moved =>
      refine h.move hrole hmove hactive ?_ fun _ => rfl
      rw [hreceive, hmove]
      rfl

/-- What a message brings is heard by the note that has the role before and after it. -/
theorem receive (h : Watched origin i region role earlier heard engine) (hrole : origin.TakesRole i region role)
    (time : Float) (call : Call) : Watched origin i region role earlier
      (engine.heardOf i region role heard time call) (engine.receive time call) := by
  cases hactive : engine.isSuspended with
  | true => exact h.receive_suspended hactive time call
  | false =>
      have hreceive : ¬engine.isSuspended = true := hactive ▸ Bool.false_ne_true
      cases call with
      | noteOn channel byte velocity => exact h.receive_noteOn hrole hactive time channel byte velocity
      | noteOff channel byte velocity => exact h.receive_noteOff hrole hactive time channel byte velocity
      | controlChange channel number value =>
          exact h.receive_controlChange hrole hactive time channel number value
      | channelPressure channel pressure => exact h.move hrole rfl hactive (if_neg hreceive) fun _ => rfl
      | pitchBend channel bend => exact h.move hrole rfl hactive (if_neg hreceive) fun _ => rfl
      | _ => exact h.ignore (if_neg hreceive) rfl fun _ => rfl

theorem receiveAll (h : Watched origin i region role earlier heard engine)
    (hrole : origin.TakesRole i region role) (time : Float) (calls : List Call) :
    Watched origin i region role earlier (engine.heardOfAll i region role heard time calls)
      (calls.foldl (fun e call => e.receive time call) engine) := by
  induction calls generalizing engine heard with
  | nil => exact h
  | cons call calls ih => exact ih (h.receive hrole time call)

theorem receiveBytes (h : Watched origin i region role earlier heard engine)
    (hrole : origin.TakesRole i region role) (time : Float) (bytes : List UInt8) :
    Watched origin i region role earlier
      (engine.heardIn i region role heard (.bytes time bytes)) (engine.receiveBytes time bytes) := by
  have hstatus : ∀ status, Watched origin i region role earlier heard { engine with runningStatus := status } :=
    fun status => h.quiet ⟨rfl, rfl, rfl, rfl, rfl, rfl⟩
  exact (hstatus _).receiveAll hrole time _

end Watched

/-! ### The output does not matter -/

theorem heardOf_after (engine : Engine) (i : RuleIndex) (region : Region) (role : Role) (heard : Option Float)
    (time : Float) (call : Call) (front : Array Event) :
    (engine.after front).heardOf i region role heard time call =
      engine.heardOf i region role heard time call := by
  have hreceive := ignoresOutput_receive time call engine front
  dsimp only at hreceive
  unfold heardOf
  rw [hreceive]
  rfl

theorem heardOfAll_after (engine : Engine) (i : RuleIndex) (region : Region) (role : Role) (heard : Option Float)
    (time : Float) (calls : List Call) (front : Array Event) :
    (engine.after front).heardOfAll i region role heard time calls =
      engine.heardOfAll i region role heard time calls := by
  induction calls generalizing engine heard with
  | nil => rfl
  | cons call calls ih =>
      have hreceive := ignoresOutput_receive time call engine front
      dsimp only at hreceive
      rw [heardOfAll, heardOfAll, heardOf_after, hreceive]
      exact ih (engine.receive time call) _

theorem heardIn_bytes_after (engine : Engine) (i : RuleIndex) (region : Region) (role : Role)
    (heard : Option Float) (time : Float) (bytes : List UInt8) (front : Array Event) :
    (engine.after front).heardIn i region role heard (.bytes time bytes) =
      engine.heardIn i region role heard (.bytes time bytes) :=
  heardOfAll_after
    { engine with runningStatus := (Midi.Stream.decode engine.runningStatus bytes).2 } i region role heard time
    _ front

/-! ### Operations -/

theorem voices_announceZone_resetRules (engine : Engine) :
    engine.announceZone.resetRules.voices = engine.voices := by
  obtain ⟨parameters, sent, heq, -, -⟩ := engine.announceZone_resetRules_eq
  rw [heq]
  rfl

theorem held_applyLayout (engine : Engine) : engine.applyLayout.voices.held.notes = [] := by
  unfold applyLayout
  dsimp only
  rw [voices_announceZone_resetRules]
  rfl

theorem held_reset (engine : Engine) : engine.reset.voices.held.notes = [] := by
  unfold reset
  split
  · exact engine.held_applyLayout
  · have hrefill : ∀ e : Engine, ({ e.refillChannels with hasReset := true } : Engine).voices = e.voices :=
      fun _ => rfl
    rw [hrefill, voices_announceZone_resetRules]
    rfl

/-- Whether a step from an engine with an empty output ends all notes, or leaves them as they are and sends
nothing. -/
def Idle (before after : Engine) : Prop :=
  after.voices.held.notes = [] ∨ (after.voices = before.voices ∧ after.events = #[])

theorem idle_openBlock (hevents : engine.events = #[]) : Idle engine engine.openBlock := by
  cases hsuspended : engine.isSuspended with
  | true =>
      rw [openBlock_of_isSuspended hsuspended]
      exact .inr ⟨rfl, rfl⟩
  | false =>
      cases hstale : engine.isLayoutStale with
      | true =>
          rw [openBlock_of_isLayoutStale hsuspended hstale]
          have hread : ∀ e : Engine, e.voices.held.notes = [] → Idle engine { e with hasReset := false } :=
            fun _ hheld => .inl hheld
          exact hread _ engine.held_applyLayout
      | false =>
          rw [openBlock_of_current hsuspended hstale]
          split
          · exact .inr ⟨rfl, hevents⟩
          · exact .inr ⟨rfl, rfl⟩

/-- Messages to the parameters do nothing to the notes and send nothing. -/
theorem idle_briefed (hevents : engine.events = #[]) (operation : Operation) :
    Idle engine (engine.briefed operation) := by
  obtain ⟨parameters, published, pending, heq⟩ := engine.briefed_eq operation
  rw [heq]
  exact .inr ⟨rfl, hevents⟩

theorem idle_beginBlock (hevents : engine.events = #[]) : Idle engine engine.beginBlock := by
  obtain ⟨parameters, published, heq⟩ := engine.takeMessages_eq
  rw [beginBlock_eq, heq]
  exact idle_openBlock (by exact hevents)

theorem Isolated.idle (h : Isolated origin i region role heard log engine) {operation : Operation}
    (hidle : Idle engine (engine.clearEvents.perform operation)) :
    Isolated origin i region role (kept region role engine (engine.perform operation) heard)
      (log ++ engine.emitted operation) (engine.perform operation) := by
  have hvoices := engine.voices_perform operation
  rcases hidle with hnone | ⟨hsame, hsent⟩
  · intro note hnote
    rw [hvoices, hnone] at hnote
    exact absurd hnote List.not_mem_nil
  · have hsame := hvoices.trans hsame
    rw [kept_of_eq (congrArg (fun voices => voices.holder? region role) hsame), emitted, hsent, List.append_nil]
    exact h.congr hsame

theorem Isolated.perform (h : Isolated origin i region role heard log engine)
    (hbalanced : Balanced ([], engine)) (hrole : origin.TakesRole i region role)
    (hsame : origin.SameSettings engine) (operation : Operation) :
    Isolated origin i region role (engine.heardIn i region role heard operation)
      (log ++ engine.emitted operation) (engine.perform operation) := by
  have hclear : Watched origin i region role log heard engine.clearEvents := by
    refine ⟨hbalanced.clearEvents, hsame, ?_⟩
    rw [show engine.clearEvents.events.toList = [] from rfl, List.append_nil]
    exact h.congr rfl
  have hvoices := engine.voices_perform operation
  cases operation with
  | call time call =>
      have hreceived := (hclear.receive hrole time call).isolated
      have hheard := engine.clearEvents.heardOf_after i region role heard time call engine.events
      rw [clearEvents_after] at hheard
      rw [← hheard] at hreceived
      exact hreceived.congr hvoices
  | bytes time bytes =>
      have hreceived := (hclear.receiveBytes hrole time bytes).isolated
      have hheard := engine.clearEvents.heardIn_bytes_after i region role heard time bytes engine.events
      rw [clearEvents_after] at hheard
      rw [← hheard] at hreceived
      exact hreceived.congr hvoices
  | beginBlock => exact h.idle (idle_beginBlock rfl)
  | apply message => exact h.idle (idle_briefed rfl (.apply message))
  | post message => exact h.idle (idle_briefed rfl (.post message))
  | takeMessages => exact h.idle (idle_briefed rfl .takeMessages)
  | reset => exact h.idle (.inl (held_reset _))
  | suspend => exact h.idle (.inr ⟨rfl, rfl⟩)
  | resume => exact h.idle (.inl (held_reset _))
  | clearDirty => exact h.idle (.inr ⟨rfl, rfl⟩)

theorem Isolated.run {operations : List Operation} (h : Isolated origin i region role heard log engine)
    (hbalanced : Balanced ([], engine)) (hrole : origin.TakesRole i region role)
    (hsame : origin.SameSettings engine) (hsteady : engine.Steady operations) :
    Isolated origin i region role (engine.lastHeard i region role heard operations)
      (log ++ engine.transcript operations) (engine.run operations) := by
  induction operations generalizing engine log heard with
  | nil =>
      rw [transcript, List.append_nil]
      exact h
  | cons operation operations ih =>
      have hnext : origin.SameSettings (engine.perform operation) :=
        fun id => (hsteady.sameSettings id).trans (hsame id)
      rw [transcript, ← List.append_assoc]
      exact ih (h.perform hbalanced hrole hsame operation) (hbalanced.perform operation) hnext hsteady.tail

/-- Without changes of parameters, what has last been sent of a rule's output to the note with the role of its
target is the last value that the note has heard of the rule's input, or the initial value if it has heard
none, and to all other held notes the initial value. -/
theorem expression_isolated (h : Reachable engine) (hheld : engine.voices.held.notes = [])
    (hrole : engine.TakesRole i region role) {operations : List Operation} (hsteady : engine.Steady operations) :
    ∀ note ∈ (engine.run operations).voices.held.notes,
      ((engine.run operations).voices.roles.channel? region role ≠
          some ((engine.run operations).voices.channelOf note) →
        Carries (engine.rule i).output ((engine.run operations).voices.channelOf note)
          (engine.transcript operations) ((engine.rule i).shape (engine.initialInput i)))
      ∧ ((engine.run operations).voices.holder? region role = some note →
        Carries (engine.rule i).output ((engine.run operations).voices.channelOf note)
          (engine.transcript operations) ((engine.rule i).shape
            ((engine.lastHeard i region role none operations).getD (engine.initialInput i)))) := by
  have hstart : Isolated engine i region role none [] engine := by
    intro note hnote
    rw [hheld] at hnote
    exact absurd hnote List.not_mem_nil
  have hrun := hstart.run h.balanced hrole (fun _ => rfl) hsteady
  intro note hnote
  have hsent := hrun note hnote
  have hchannel := (h.run operations).balanced.channel?_eq_iff hnote region role
  refine ⟨fun hother => ?_, fun hholder => ?_⟩
  · rw [if_neg fun hholder => hother (hchannel.mpr hholder)] at hsent
    exact hsent
  · rw [if_pos hholder] at hsent
    exact hsent

/-- Three notes become the newest one after the other and the last of them ends, while the controller moves. -/
def newestChanges : List Operation :=
  [.call 0.0 (.noteOn 0 48 100), .call 0.1 (.controlChange 0 74 90), .call 0.2 (.noteOn 0 60 100),
    .bytes 0.3 [0xB0, 74, 20], .call 0.4 (.noteOn 0 64 100), .call 0.5 (.noteOff 0 64 0),
    .call 0.6 (.controlChange 0 74 30)]

theorem standard_takesRole : standard.TakesRole ⟨2, by decide⟩ .all .newest where
  input_ne := by decide +kernel
  isSendable := .inl (by decide +kernel)
  output_ne := by decide +kernel
  target := by decide +kernel
  resetPolicy := by decide +kernel

theorem expression_isolated_newestChanges : Reachable standard ∧ standard.voices.held.notes = []
    ∧ standard.TakesRole ⟨2, by decide⟩ .all .newest ∧ standard.Steady newestChanges
    ∧ (standard.run newestChanges).voices.held.notes = [60, 48]
    ∧ standard.lastHeard ⟨2, by decide⟩ .all .newest none newestChanges = some (Midi.fractionOfByte 30)
    ∧ Carries (standard.rule ⟨2, by decide⟩).output ((standard.run newestChanges).voices.channelOf 48)
      (standard.transcript newestChanges)
      ((standard.rule ⟨2, by decide⟩).shape (standard.initialInput ⟨2, by decide⟩))
    ∧ Carries (standard.rule ⟨2, by decide⟩).output ((standard.run newestChanges).voices.channelOf 60)
      (standard.transcript newestChanges) ((standard.rule ⟨2, by decide⟩).shape (Midi.fractionOfByte 30)) := by
  have hheld : standard.voices.held.notes = [] := by decide +kernel
  have hsteady : standard.Steady newestChanges :=
    steady_of_not_isBriefing reachable_standard.balanced standard_takesRole.input_ne (by decide +kernel)
  have hheard : standard.lastHeard ⟨2, by decide⟩ .all .newest none newestChanges =
      some (Midi.fractionOfByte 30) := by
    decide +kernel
  have hsent := expression_isolated reachable_standard hheld standard_takesRole hsteady
  have hfirst := (hsent 48 (by decide +kernel)).1 (by decide +kernel)
  have hsecond := (hsent 60 (by decide +kernel)).2 (by decide +kernel)
  rw [hheard] at hsecond
  exact ⟨reachable_standard, hheld, standard_takesRole, hsteady, by decide +kernel, hheard, hfirst, hsecond⟩

end Engine

end PolyExpression
