import PolyExpression.Proofs.Isolation
import PolyExpression.Proofs.Mode
import PolyExpression.Proofs.Restart

/-!
Moves of controllers that come more than once, as they do when a host sends one stream on every channel. Main
statement: of the messages of a block the engine acts on all but those that repeat the last move of their
controller; the ones it drops could as well not have come. A copy of an earlier move is acted on again.
-/

namespace PolyExpression

open Midi (Call)
open Float.Model (UnpackedFloat)

/-! ### Equal times -/

theorem sign_eq_of_compare {s t : UnpackedFloat.Sign} (h : compare s t = .eq) : s = t := by
  cases s <;> cases t <;> first | rfl | cases h

theorem finite_eq_of_compare {s t : UnpackedFloat.Sign} {m n : Nat} {e f : Int} {hm : 0 < m} {hn : 0 < n}
    (h : UnpackedFloat.compare (.finite s m e hm) (.finite t n f hn) = some .eq) :
    UnpackedFloat.finite s m e hm = .finite t n f hn := by
  have hboth : ∀ {o : Ordering}, o = (compare e f).then (compare m n) → o = .eq → e = f ∧ m = n := by
    rintro _ rfl heq
    obtain ⟨hexponent, hmantissa⟩ := Ordering.then_eq_eq.mp heq
    exact ⟨Std.LawfulEqCmp.eq_of_compare hexponent, Std.LawfulEqCmp.eq_of_compare hmantissa⟩
  cases s with
  | negative =>
      cases t with
      | negative =>
          obtain ⟨rfl, rfl⟩ := hboth rfl (Ordering.swap_eq_eq.mp (Option.some.inj h))
          rfl
      | positive => cases h
  | positive =>
      cases t with
      | negative => cases h
      | positive =>
          obtain ⟨rfl, rfl⟩ := hboth rfl (Option.some.inj h)
          rfl

/-- Equal floats compare alike with any other; they differ at most in the sign of a zero. -/
theorem compare_congr_left {a b : UnpackedFloat} (h : a.compare b = some .eq) (x : UnpackedFloat) :
    a.compare x = b.compare x := by
  cases a with
  | notANumber => cases b <;> cases h
  | infinity s =>
      cases b with
      | infinity t => rw [sign_eq_of_compare (Option.some.inj h)]
      | _ => cases s <;> cases h
  | zero s =>
      cases b with
      | notANumber => cases h
      | infinity t => cases t <;> cases h
      | finite t => cases t <;> cases h
      | zero t =>
          cases x with
          | infinity r => cases r <;> rfl
          | finite r => cases r <;> rfl
          | _ => rfl
  | finite s =>
      cases b with
      | notANumber => cases s <;> cases h
      | infinity t => cases s <;> cases t <;> cases h
      | zero => cases s <;> cases h
      | finite => rw [finite_eq_of_compare h]

theorem beq_congr_left {a b : Float} (h : (a == b) = true) (x : Float) : (a == x) = (b == x) := by
  have hcompare : a.toModel.unpack.compare b.toModel.unpack = some .eq := eq_of_beq h
  exact congrArg (· == some .eq) (compare_congr_left hcompare x.toModel.unpack)

namespace ControllerStamp

theorem isSame_congr_left {a b : ControllerStamp} (h : a.isSame b = true) (x : ControllerStamp) :
    a.isSame x = b.isSame x := by
  obtain ⟨htime, hvalue⟩ := Bool.and_eq_true_iff.mp h
  unfold isSame
  rw [beq_congr_left htime, eq_of_beq hvalue]

/-- No event with a time is like the one that stands for none. -/
theorem never_isSame {stamp : ControllerStamp} (h : stamp.time.isFinite = true) : never.isSame stamp = false := by
  have hnever : (-(1.0 / 0.0) : Float).toModel.unpack = .infinity .negative := rfl
  have htime : (never.time == stamp.time) = false := by
    show ((-(1.0 / 0.0) : Float).toModel.unpack.compare stamp.time.toModel.unpack == some .eq) = false
    have hfinite : stamp.time.toModel.unpack.isFinite = true := h
    rw [hnever]
    cases hunpacked : stamp.time.toModel.unpack with
    | notANumber => rfl
    | infinity s =>
        rw [hunpacked] at hfinite
        cases hfinite
    | zero => rfl
    | finite s => cases s <;> rfl
  unfold isSame
  rw [htime, Bool.false_and]

end ControllerStamp

/-! ### Messages that come again -/

/-- A message with its time. -/
structure Midi.TimedCall where
  time : Float
  call : Call

namespace Midi.TimedCall

/-- The controller that a message moves, with the time and the value. -/
def move? (input : TimedCall) : Option (ControllerId × ControllerStamp) :=
  input.call.move?.map fun (controller, raw, _) => (controller, ⟨input.time, raw⟩)

/-- The last move of a controller among messages, the newest of which come first. -/
def lastMove? (controller : ControllerId) : List TimedCall → Option ControllerStamp
  | [] => none
  | input :: earlier =>
      match input.move? with
      | none => lastMove? controller earlier
      | some (moved, stamp) => if moved = controller then some stamp else lastMove? controller earlier

variable {input : TimedCall} {earlier : List TimedCall} {moved : ControllerId} {stamp : ControllerStamp}

theorem lastMove?_cons_of_none (h : input.move? = none) (controller : ControllerId) :
    lastMove? controller (input :: earlier) = lastMove? controller earlier := by
  conv_lhs => unfold lastMove?
  rw [h]

theorem lastMove?_cons_of_some (h : input.move? = some (moved, stamp)) (controller : ControllerId) :
    lastMove? controller (input :: earlier) =
      if moved = controller then some stamp else lastMove? controller earlier := by
  conv_lhs => unfold lastMove?
  rw [h]

/-- Whether a message is like the last move of its controller. -/
def repeatsLast (input : TimedCall) (earlier : List TimedCall) : Bool :=
  match input.move? with
  | none => false
  | some (controller, stamp) => (lastMove? controller earlier).any (·.isSame stamp)

theorem repeatsLast_of_none (h : input.move? = none) : input.repeatsLast earlier = false := by
  unfold repeatsLast
  rw [h]

theorem repeatsLast_of_some (h : input.move? = some (moved, stamp)) :
    input.repeatsLast earlier = (lastMove? moved earlier).any (·.isSame stamp) := by
  unfold repeatsLast
  rw [h]

/-- Whether a message is like any earlier move of its controller. -/
def repeatsAny (input : TimedCall) (earlier : List TimedCall) : Bool :=
  match input.move? with
  | none => false
  | some (controller, stamp) => earlier.any fun other =>
      other.move?.any fun (moved, last) => decide (moved = controller) && last.isSame stamp

/-- Messages without those that are dropped in view of the ones before them, the newest of which come first. -/
def sift (drops : TimedCall → List TimedCall → Bool) (earlier : List TimedCall) : List TimedCall → List TimedCall
  | [] => []
  | input :: inputs =>
      if drops input earlier then sift drops (input :: earlier) inputs
      else input :: sift drops (input :: earlier) inputs

end Midi.TimedCall

theorem ControllerId.index_lt (controller : ControllerId) : controller.index.val < 124 := controller.index.isLt

namespace Engine

open Midi (TimedCall)

variable {engine : Engine} {earlier : List TimedCall} {input : TimedCall}

def feed (engine : Engine) (input : TimedCall) : Engine := engine.receive input.time input.call

/-- A controller moves, whatever moves came before. -/
def moveAnyway (engine : Engine) (time : Float) (controller : ControllerId) (raw : UInt16) (value : Float) : Engine :=
  let engine := { engine with recent := engine.recent.set controller.index ⟨time, raw⟩ controller.index_lt }
  let engine := engine.route time controller value
  if controller = .sustainPedal then engine.movePedal time value else engine

/-- A message acts, whatever messages came before. -/
def feedAnyway (engine : Engine) (input : TimedCall) : Engine :=
  if engine.isSuspended then engine
  else match input.call.move? with
    | none => engine.feed input
    | some (controller, raw, value) => engine.moveAnyway input.time controller raw value

/-! ### What the engine remembers of controllers -/

theorem recent_startNote (engine : Engine) (time : Float) (channel : Channel) (note : Note) (velocity : UInt8) :
    (engine.startNote time channel note velocity).recent = engine.recent := by
  rw [startNote_eq]
  rfl

theorem recent_stopNote (engine : Engine) (time : Float) (channel : Channel) (note : Note) (velocity : UInt8) :
    (engine.stopNote time channel note velocity).recent = engine.recent := by
  rw [stopNote_eq]
  rfl

theorem recent_releaseNote (engine : Engine) (time : Float) (note : Note) (velocity : UInt8) :
    (engine.releaseNote time note velocity).recent = engine.recent := by
  obtain ⟨free, hfree⟩ := giveBack_frame
    (engine.stopNote time (engine.voices.channelOf note) note velocity) (engine.voices.channelOf note)
  rw [releaseNote_eq, hfree, recent_stopNote]

theorem recent_strike (engine : Engine) (time : Float) (note : Note) (velocity : UInt8) :
    (engine.strike time note velocity).recent = engine.recent := by
  have hreplace : ∀ old, (engine.replaceNote time old note velocity).recent = engine.recent :=
    fun old => (recent_startNote ..).trans (recent_stopNote ..)
  obtain ⟨-, h⟩ | ⟨-, -, h⟩ | ⟨-, channel, -, h⟩ | ⟨-, stolen, -, h⟩ :=
    engine.strike_cases time note velocity
  · rw [h]
  · rw [h, hreplace]
  · rw [h, recent_startNote]
  · rw [h, hreplace]

theorem recent_lift (engine : Engine) (time : Float) (note : Note) (velocity : UInt8) :
    (engine.lift time note velocity).recent = engine.recent := by
  unfold lift
  split
  · split
    · rfl
    · exact engine.recent_releaseNote time note velocity
  · rfl

theorem recent_movePedal (engine : Engine) (time value : Float) :
    (engine.movePedal time value).recent = engine.recent := by
  unfold movePedal
  dsimp only
  split
  · split
    · rfl
    · exact List.foldlRecOn _ _ (motive := fun e : Engine => e.recent = engine.recent) rfl
        fun e he note _ => (e.recent_releaseNote time note _).trans he
  · rfl

theorem recent_moveAnyway (engine : Engine) (time : Float) (controller : ControllerId) (raw : UInt16)
    (value : Float) : (engine.moveAnyway time controller raw value).recent =
      engine.recent.set controller.index ⟨time, raw⟩ controller.index_lt := by
  let stamped : Engine := { engine with recent := engine.recent.set controller.index ⟨time, raw⟩ }
  have hroute : (stamped.route time controller value).recent = engine.recent.set controller.index ⟨time, raw⟩ := by
    obtain ⟨parameters, published, events, hroute⟩ := stamped.route_frame time controller value
    rw [hroute]
  unfold moveAnyway
  dsimp only
  split
  · rw [recent_movePedal]
    exact hroute
  · exact hroute

theorem recent_reset (engine : Engine) : engine.reset.recent = engine.recent := by
  rw [reset_eq]
  dsimp only [emitAll, restarted]

theorem recent_beginBlock (engine : Engine) : engine.beginBlock.recent = Vector.replicate 124 .never := by
  have htold : engine.told.recent = Vector.replicate 124 .never := rfl
  rw [beginBlock_eq_openBlock, openBlock_eq]
  split
  · exact engine.told.recent_reset.trans htold
  · split
    · exact htold
    · exact htold

/-! ### Messages that act -/

theorem receive_of_move {time value : Float} {call : Call} {controller : ControllerId} {raw : UInt16}
    (hactive : engine.isSuspended = false) (hmove : call.move? = some (controller, raw, value)) :
    engine.receive time call = engine.moveController time controller raw value := by
  have hreceive : ¬engine.isSuspended = true := hactive ▸ Bool.false_ne_true
  unfold receive
  rw [if_neg hreceive]
  cases call with
  | channelPressure | pitchBend =>
      cases hmove
      rfl
  | controlChange channel number byte =>
      unfold Call.move? at hmove
      dsimp only at hmove ⊢
      cases hid : ControllerId.ofByte? number with
      | none =>
          rw [hid] at hmove
          cases hmove
      | some moved =>
          rw [hid] at hmove
          dsimp only at hmove ⊢
          split at hmove
          · next hmidi =>
              cases hmove
              exact if_pos hmidi
          · cases hmove
  | _ => cases hmove

theorem recent_receive_of_not_move {time : Float} {call : Call} (hmove : call.move? = none) :
    (engine.receive time call).recent = engine.recent := by
  unfold receive
  split
  · rfl
  · cases call with
    | noteOn channel byte velocity =>
        dsimp only
        cases noteOfByte? byte with
        | none => rfl
        | some note => exact engine.recent_strike time note velocity
    | noteOff channel byte velocity =>
        dsimp only
        cases noteOfByte? byte with
        | none => rfl
        | some note => exact engine.recent_lift time note velocity
    | controlChange channel number byte =>
        unfold Call.move? at hmove
        dsimp only at hmove ⊢
        cases hid : ControllerId.ofByte? number with
        | none => rfl
        | some moved =>
            rw [hid] at hmove
            dsimp only at hmove ⊢
            split at hmove
            · cases hmove
            · next hmidi => rw [if_neg hmidi]
    | channelPressure | pitchBend => cases hmove
    | _ => rfl

/-- The engine remembers of each controller a move like the last one of the block. -/
def Tracks (engine : Engine) (earlier : List TimedCall) : Prop :=
  ∀ (controller : ControllerId) (stamp : ControllerStamp), stamp.time.isFinite = true →
    (engine.recent.get controller.index).isSame stamp =
      (TimedCall.lastMove? controller earlier).any (·.isSame stamp)

theorem tracks_beginBlock (engine : Engine) : engine.beginBlock.Tracks [] := by
  intro controller stamp hfinite
  have hnever : engine.beginBlock.recent.get controller.index = .never := by
    rw [recent_beginBlock]
    exact Vector.getElem_replicate _
  rw [hnever, ControllerStamp.never_isSame hfinite]
  rfl

/-- A message that repeats its controller's last move is dropped, and any other acts. -/
theorem feed_eq (h : engine.Tracks earlier) (hactive : engine.isSuspended = false)
    (hfinite : input.time.isFinite = true) :
    engine.feed input = if input.repeatsLast earlier then engine else engine.feedAnyway input := by
  cases hmove : input.call.move? with
  | none =>
      have hnone : input.move? = none := by rw [TimedCall.move?, hmove, Option.map_none]
      rw [TimedCall.repeatsLast_of_none hnone, if_neg Bool.false_ne_true]
      unfold feedAnyway
      rw [hactive, hmove, if_neg Bool.false_ne_true]
  | some move =>
      obtain ⟨controller, raw, value⟩ := move
      have hsome : input.move? = some (controller, ⟨input.time, raw⟩) := by
        rw [TimedCall.move?, hmove, Option.map_some]
      have hstamp : engine.recent[controller.index] = engine.recent.get controller.index := rfl
      rw [TimedCall.repeatsLast_of_some hsome, ← h controller ⟨input.time, raw⟩ hfinite, ← hstamp]
      unfold feedAnyway
      rw [hactive, hmove, if_neg Bool.false_ne_true]
      exact receive_of_move hactive hmove

theorem tracks_feed (h : engine.Tracks earlier) (hactive : engine.isSuspended = false)
    (hfinite : input.time.isFinite = true) : (engine.feed input).Tracks (input :: earlier) := by
  intro controller stamp hstamp
  cases hmove : input.call.move? with
  | none =>
      have hnone : input.move? = none := by rw [TimedCall.move?, hmove, Option.map_none]
      have hrecent : (engine.feed input).recent = engine.recent := recent_receive_of_not_move hmove
      rw [hrecent, TimedCall.lastMove?_cons_of_none hnone]
      exact h controller stamp hstamp
  | some move =>
      obtain ⟨moved, raw, value⟩ := move
      have hsome : input.move? = some (moved, ⟨input.time, raw⟩) := by
        rw [TimedCall.move?, hmove, Option.map_some]
      rw [TimedCall.lastMove?_cons_of_some hsome, feed_eq h hactive hfinite,
        TimedCall.repeatsLast_of_some hsome, ← h moved ⟨input.time, raw⟩ hfinite]
      cases hsame : (engine.recent.get moved.index).isSame ⟨input.time, raw⟩ with
      | true =>
          rw [if_pos rfl]
          by_cases hcontroller : moved = controller
          · rw [if_pos hcontroller, ← hcontroller]
            exact ControllerStamp.isSame_congr_left hsame stamp
          · rw [if_neg hcontroller]
            exact h controller stamp hstamp
      | false =>
          have hrecent : (engine.feedAnyway input).recent = engine.recent.set moved.index ⟨input.time, raw⟩ := by
            unfold feedAnyway
            rw [hactive, hmove, if_neg Bool.false_ne_true]
            exact recent_moveAnyway ..
          have hget : (engine.feedAnyway input).recent.get controller.index =
              if moved = controller then ⟨input.time, raw⟩ else engine.recent.get controller.index := by
            rw [hrecent]
            refine (Vector.getElem_set _ _).trans (if_congr ?_ rfl rfl)
            exact ⟨fun hindex => congrArg ControllerId.mk (Fin.ext hindex), fun heq => heq ▸ rfl⟩
          rw [if_neg Bool.false_ne_true, hget]
          by_cases hcontroller : moved = controller
          · rw [if_pos hcontroller, if_pos hcontroller]
            rfl
          · rw [if_neg hcontroller, if_neg hcontroller]
            exact h controller stamp hstamp

/-! ### Blocks -/

theorem foldl_of_isSuspended {step : Engine → TimedCall → Engine}
    (hstep : ∀ input, step engine input = engine) (inputs : List TimedCall) : inputs.foldl step engine = engine := by
  induction inputs with
  | nil => rfl
  | cons input inputs ih => rw [List.foldl_cons, hstep, ih]

/-- From a point in a block on, dropping the messages that repeat their controller's last move changes nothing, and
all the others act. -/
theorem foldl_sift_of_tracks (h : engine.Tracks earlier) (hactive : engine.isSuspended = false)
    {inputs : List TimedCall} (hfinite : ∀ input ∈ inputs, input.time.isFinite = true) :
    (TimedCall.sift TimedCall.repeatsLast earlier inputs).foldl feed engine = inputs.foldl feed engine
    ∧ (TimedCall.sift TimedCall.repeatsLast earlier inputs).foldl feedAnyway engine = inputs.foldl feed engine := by
  induction inputs generalizing engine earlier with
  | nil => exact ⟨rfl, rfl⟩
  | cons input inputs ih =>
      have hinput := hfinite input List.mem_cons_self
      have hfeed := feed_eq h hactive hinput
      have hactive' : (engine.feed input).isSuspended = false :=
        (engine.sameMode_receive input.time input.call).isSuspended.trans hactive
      obtain ⟨hsift, hact⟩ := ih (tracks_feed h hactive hinput) hactive'
        fun other hother => hfinite other (List.mem_cons_of_mem input hother)
      unfold TimedCall.sift
      cases hrepeats : input.repeatsLast earlier with
      | true =>
          rw [hrepeats, if_pos rfl] at hfeed
          rw [if_pos rfl, List.foldl_cons]
          rw [hfeed] at hsift hact ⊢
          exact ⟨hsift, hact⟩
      | false =>
          rw [hrepeats, if_neg Bool.false_ne_true] at hfeed
          rw [if_neg Bool.false_ne_true, List.foldl_cons, List.foldl_cons, List.foldl_cons, ← hfeed]
          exact ⟨hsift, hact⟩

/-- In a block the engine acts on all messages but those that repeat the last move of their controller, and those
could as well not have come. -/
theorem foldl_feed_beginBlock (engine : Engine) {inputs : List TimedCall}
    (hfinite : ∀ input ∈ inputs, input.time.isFinite = true) :
    inputs.foldl feed engine.beginBlock = (TimedCall.sift TimedCall.repeatsLast [] inputs).foldl feed engine.beginBlock
    ∧ inputs.foldl feed engine.beginBlock =
      (TimedCall.sift TimedCall.repeatsLast [] inputs).foldl feedAnyway engine.beginBlock := by
  cases hactive : engine.beginBlock.isSuspended with
  | true =>
      have hfeed : ∀ input, engine.beginBlock.feed input = engine.beginBlock := fun _ => if_pos hactive
      have hact : ∀ input, engine.beginBlock.feedAnyway input = engine.beginBlock := fun _ => if_pos hactive
      rw [foldl_of_isSuspended hfeed, foldl_of_isSuspended hfeed, foldl_of_isSuspended hact]
      exact ⟨rfl, rfl⟩
  | false =>
      obtain ⟨hsift, hact⟩ := foldl_sift_of_tracks engine.tracks_beginBlock hactive hfinite
      exact ⟨hsift.symm, hact.symm⟩

/-- Two positions of a wheel come on two channels, with a note between them, and then the first one again. -/
def wheelReturns : List TimedCall :=
  [⟨0.0, .controlChange 0 1 64⟩, ⟨0.0, .controlChange 1 1 64⟩, ⟨0.0, .noteOn 0 60 100⟩,
    ⟨0.0, .controlChange 0 1 65⟩, ⟨0.0, .controlChange 1 1 65⟩, ⟨0.0, .controlChange 0 1 64⟩]

theorem foldl_feed_beginBlock_wheelReturns : (∀ input ∈ wheelReturns, input.time.isFinite = true)
    ∧ (TimedCall.sift TimedCall.repeatsLast [] wheelReturns).length = 4
    ∧ wheelReturns.foldl feed standard.beginBlock =
      (TimedCall.sift TimedCall.repeatsLast [] wheelReturns).foldl feedAnyway standard.beginBlock := by
  have hfinite : ∀ input ∈ wheelReturns, input.time.isFinite = true := by decide +kernel
  exact ⟨hfinite, by decide +kernel, (standard.foldl_feed_beginBlock hfinite).2⟩

/-- A copy of a move is acted on again if its controller has moved in between. -/
theorem copy_acts_again : ¬∀ (engine : Engine) (inputs : List TimedCall),
    (∀ input ∈ inputs, input.time.isFinite = true) →
      inputs.foldl feed engine.beginBlock =
        (TimedCall.sift TimedCall.repeatsAny [] inputs).foldl feed engine.beginBlock := by
  intro h
  have hsame := congrArg (fun e => e.events.size) (h standard wheelReturns (by decide +kernel))
  have hdiffer : (wheelReturns.foldl feed standard.beginBlock).events.size ≠
      ((TimedCall.sift TimedCall.repeatsAny [] wheelReturns).foldl feed standard.beginBlock).events.size := by
    decide +kernel
  exact hdiffer hsame

end Engine

end PolyExpression
