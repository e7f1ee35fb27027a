import PolyExpression.Parameter.Id

/-!
Controller rules. A rule listens to one controller, shapes its value and sends the result as another
controller to the channels of its target. It remembers the last value that came in, because channels that
join the target later are brought up to date with it.
-/

namespace PolyExpression

structure Rule where
  parameters : Vector Parameter 10
  lastInput : Float

namespace Rule

def get (rule : Rule) (parameter : RuleParameter) : Parameter := rule.parameters[parameter.place]

def modify (rule : Rule) (parameter : RuleParameter) (f : Parameter → Parameter) : Rule :=
  { rule with parameters := rule.parameters.set parameter.place (f (rule.get parameter)) }

/-- The last input set back to the initial value. -/
def resetLastInput (rule : Rule) : Rule := { rule with lastInput := (rule.get .initialValue).ratio }

/-- The rule at an index with every parameter at its initial value. -/
def initial (i : RuleIndex) : Rule :=
  resetLastInput
    { parameters := Vector.ofFn fun place => .ofRange (ParameterId.rule i (.ofPlace place)).range
      lastInput := 0.0 }

def input (rule : Rule) : ControllerId := .ofValue (rule.get .input).value

def output (rule : Rule) : ControllerId := .ofValue (rule.get .output).value

def target (rule : Rule) : Target := .ofIndex (rule.get .target).value

def resetPolicy (rule : Rule) : ResetPolicy := .ofIndex (rule.get .reset).value

def curve (rule : Rule) : Curve := .ofIndex (rule.get .curve).value

/-- Whether the manager channel stands in for the target while no note is held. -/
def hasFallback (rule : Rule) : Bool := (rule.get .fallback).isOn

/-- The value sent for a value that came in. -/
def shape (rule : Rule) (x : Float) : Float :=
  PolyExpression.shape rule.curve.table (rule.get .level).ratio (rule.get .midpoint).ratio (rule.get .invert).isOn x

/-- Whether a note that starts or ends on one side of the anchor calls for a reset. -/
def needsReset (rule : Rule) (isAbove : Bool) : Bool :=
  rule.resetPolicy != .off &&
    match rule.target with
    | .global => false
    | .allBelow => !isAbove
    | .allAbove => isAbove
    | .voice _ _ => true

/-- The value a channel is reset to. Rules that target a side of the anchor keep all of its channels at the
last input. -/
def resetValue (rule : Rule) : Float :=
  let fromLast := rule.resetPolicy == .last || rule.target == .allBelow || rule.target == .allAbove
  rule.shape (if fromLast then rule.lastInput else (rule.get .initialValue).ratio)

/-- A rule shapes with the curve, the level, the midpoint and the inversion that its parameters name. -/
theorem shape_eq (rule : Rule) (x : Float) :
    rule.shape x =
      PolyExpression.shape rule.curve.table (rule.get .level).ratio (rule.get .midpoint).ratio (rule.get .invert).isOn x :=
  rfl

theorem get_modify (rule : Rule) (a b : RuleParameter) (f : Parameter → Parameter) :
    (rule.modify a f).get b = if a = b then f (rule.get b) else rule.get b := by
  unfold get modify
  split
  · rename_i h
    subst h
    simp [get]
  · rename_i h
    have hne : (a.place : Fin 10).val ≠ b.place.val := fun e => h (by
      rw [← RuleParameter.ofPlace_place a, Fin.ext e, RuleParameter.ofPlace_place])
    simp [hne]

end Rule

end PolyExpression
