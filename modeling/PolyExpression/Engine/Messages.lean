import PolyExpression.Engine.Basic

/-!
Messages. Parameters are edited by messages, which wait in a queue of fixed capacity until the engine takes
them at the start of a block, or act at once when the engine's own thread sends them. Every edit is
published.
-/

namespace PolyExpression

namespace Engine

/-- Sets a parameter's fraction. Only another integer counts as an edit. -/
def setParameter (engine : Engine) (id : ParameterId) (ratio : Float) : Engine :=
  let edited := { engine with parameters := engine.parameters.modify id (·.setRatio ratio) }.publish id
  if (edited.parameters.get id).value = (engine.parameters.get id).value then edited else edited.markDirty

/-- All parameters back at their initial values. -/
def clearParameters (engine : Engine) : Engine :=
  let parameters := engine.parameters.reset
  let cleared := { engine with parameters, published := engine.published.setAll parameters }
  if engine.parameters.differs parameters then cleared.markDirty else cleared

/-- Carries out a message. -/
def apply (engine : Engine) : Message → Engine
  | .setParameter id ratio => engine.setParameter id ratio
  | .refresh id => engine.publish id
  | .clear => engine.clearParameters
  | .clearDirty => engine.clearDirty

/-- Puts a message behind those that wait, if there is room. -/
def post (engine : Engine) (message : Message) : Except Error Engine :=
  if engine.pending.length < engine.config.queueCapacity then
    .ok { engine with pending := engine.pending ++ [message] }
  else .error (.queueFull engine.config.queueCapacity)

/-- Puts a message behind those that wait; if there is no room it is lost. -/
def offer (engine : Engine) (message : Message) : Engine :=
  match engine.post message with
  | .ok engine => engine
  | .error _ => engine

/-- Puts messages behind those that wait, in order and as many as there is room for; the others are lost. -/
def offerAll (engine : Engine) (messages : List Message) : Engine :=
  { engine with
    pending := engine.pending ++ messages.take (engine.config.queueCapacity - engine.pending.length) }

theorem offerAll_nil (engine : Engine) : engine.offerAll [] = engine := by
  simp [offerAll]

/-- Offering messages together is offering them one by one. -/
theorem offerAll_cons (engine : Engine) (message : Message) (messages : List Message) :
    engine.offerAll (message :: messages) = (engine.offer message).offerAll messages := by
  by_cases h : engine.pending.length < engine.config.queueCapacity
  · obtain ⟨n, hn⟩ : ∃ n, engine.config.queueCapacity - engine.pending.length = n + 1 :=
      ⟨engine.config.queueCapacity - engine.pending.length - 1, by omega⟩
    have hn' : engine.config.queueCapacity - (engine.pending.length + 1) = n := by omega
    simp [offerAll, offer, post, h, hn, hn']
  · have hzero : engine.config.queueCapacity - engine.pending.length = 0 := by omega
    simp [offerAll, offer, post, h, hzero]

/-- Carries out the messages that wait. -/
def takeMessages (engine : Engine) : Engine :=
  engine.pending.foldl apply { engine with pending := [] }

end Engine

end PolyExpression
