import PolyExpression.Rule

/-!
All parameters together. The store gives every parameter by its identifier and the views the engine acts
on. Main statement: changing one parameter leaves every other one alone.
-/

namespace PolyExpression

structure ParameterStore where
  zone : Vector Parameter 9
  rules : Vector Rule ruleCount

namespace ParameterStore

def initial : ParameterStore where
  zone := Vector.ofFn fun place => .ofRange (ParameterId.zone (.ofPlace place)).range
  rules := Vector.ofFn Rule.initial

def rule (store : ParameterStore) (i : RuleIndex) : Rule := store.rules[i]

def modifyRule (store : ParameterStore) (i : RuleIndex) (f : Rule → Rule) : ParameterStore :=
  { store with rules := store.rules.set i (f (store.rule i)) }

def get (store : ParameterStore) : ParameterId → Parameter
  | .zone parameter => store.zone.get parameter.place
  | .rule i parameter => (store.rule i).get parameter

def modify (store : ParameterStore) (id : ParameterId) (f : Parameter → Parameter) : ParameterStore :=
  match id with
  | .zone parameter => { store with zone := store.zone.set parameter.place (f (store.zone.get parameter.place)) parameter.place.isLt }
  | .rule i parameter => store.modifyRule i fun rule => rule.modify parameter f

/-- Every parameter back at its initial value. What the rules remember of their input stays. -/
def reset (store : ParameterStore) : ParameterStore :=
  ParameterId.all.foldl (fun store id => store.modify id Parameter.reset) store

/-- Whether some parameter has different integers in two stores. -/
def differs (a b : ParameterStore) : Bool :=
  ParameterId.all.any fun id => (a.get id).value != (b.get id).value

/-! ### Views -/

def side (store : ParameterStore) : ZoneSide := .ofIndex (store.get (.zone .side)).value

def excessNotes (store : ParameterStore) : ExcessNotes := .ofIndex (store.get (.zone .excessNotes)).value

/-- How many member channels are asked for. -/
def members (store : ParameterStore) : Nat := max 1 (min (store.get (.zone .members)).value.toNat memberMax)

/-- Semitones by which notes below the anchor are moved. -/
def transposeBelow (store : ParameterStore) : Int := (store.get (.zone .transposeBelow)).value - 48

/-- Semitones by which the anchor and notes above it are moved. -/
def transposeAbove (store : ParameterStore) : Int := (store.get (.zone .transposeAbove)).value - 48

/-- Whether the zone is announced to the receiver. -/
def announces (store : ParameterStore) : Bool := (store.get (.zone .announce)).isOn

/-- Whether releases carry the velocity with which the note was started. -/
def overridesRelease (store : ParameterStore) : Bool := (store.get (.zone .overrideRelease)).isOn

/-- Whether releases wait for the sustain pedal. -/
def holdsOnSustain (store : ParameterStore) : Bool := (store.get (.zone .holdOnSustain)).isOn

theorem rule_modifyRule (store : ParameterStore) (i j : RuleIndex) (f : Rule → Rule) :
    (store.modifyRule i f).rule j = if i = j then f (store.rule j) else store.rule j := by
  unfold rule modifyRule
  split
  · rename_i h
    subst h
    simp [rule]
  · rename_i h
    simp [Fin.val_ne_of_ne h]

theorem get_modify (store : ParameterStore) (a b : ParameterId) (f : Parameter → Parameter) :
    (store.modify a f).get b = if a = b then f (store.get b) else store.get b := by
  cases a with
  | zone p =>
      cases b with
      | zone q =>
          have hget (xs : Vector Parameter 9) (i : Fin 9) : xs.get i = xs[i.val] := rfl
          simp only [get, modify, ParameterId.zone.injEq, hget]
          split
          · rename_i h
            subst h
            simp
          · rename_i h
            have hne : (p.place : Fin 9).val ≠ q.place.val := fun e => h (by
              rw [← ZoneParameter.ofPlace_place p, Fin.ext e, ZoneParameter.ofPlace_place])
            simp [hne]
      | rule j q => rfl
  | rule i p =>
      cases b with
      | zone q => rfl
      | rule j q =>
          simp only [get, modify, rule_modifyRule, ParameterId.rule.injEq]
          by_cases hij : i = j
          · simp [hij, Rule.get_modify]
          · simp [hij]

end ParameterStore

end PolyExpression
