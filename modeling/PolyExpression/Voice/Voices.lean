import PolyExpression.Voice.NoteStack

/-!
The sounding notes. One stack holds all of them and two hold those below and not below the anchor; the
channels on which the notes with a role sound are kept beside the stacks. A note's channel and velocity
are remembered by note and mean something while the note is held.
-/

namespace PolyExpression

/-- A value for every note. -/
structure PerNote (α : Type) where
  values : Vector α 128

namespace PerNote

variable {α : Type}

/-- The same value for all notes. -/
def replicate (value : α) : PerNote α := ⟨Vector.replicate 128 value⟩

def get (table : PerNote α) (note : Note) : α := table.values.get note

def set (table : PerNote α) (note : Note) (value : α) : PerNote α :=
  ⟨table.values.set note value note.isLt⟩

@[simp] theorem get_replicate (value : α) (note : Note) : (replicate value).get note = value :=
  Vector.getElem_replicate note.isLt

theorem get_set (table : PerNote α) (a b : Note) (value : α) :
    (table.set a value).get b = if a = b then value else table.get b := by
  have hget (xs : Vector α 128) (note : Note) : xs.get note = xs[note.val] := rfl
  simp only [get, set, hget, Vector.getElem_set, Fin.ext_iff]

end PerNote

/-- The channels of the notes with each role in one stack; none when it is empty. -/
structure RoleChannels where
  lowest : Option Channel
  highest : Option Channel
  oldest : Option Channel
  newest : Option Channel
  deriving DecidableEq, Repr

namespace RoleChannels

def ofStack (stack : NoteStack) (channelOf : Note → Channel) : RoleChannels where
  lowest := stack.lowest?.map channelOf
  highest := stack.highest?.map channelOf
  oldest := stack.oldest?.map channelOf
  newest := stack.newest?.map channelOf

def get (roles : RoleChannels) : Role → Option Channel
  | .lowest => roles.lowest
  | .highest => roles.highest
  | .oldest => roles.oldest
  | .newest => roles.newest

def empty : RoleChannels := ⟨none, none, none, none⟩

end RoleChannels

/-- The channels of the notes with each role in each region. -/
structure Roles where
  all : RoleChannels
  below : RoleChannels
  above : RoleChannels
  deriving DecidableEq, Repr

namespace Roles

def empty : Roles := ⟨.empty, .empty, .empty⟩

def channel? (roles : Roles) (region : Region) (role : Role) : Option Channel :=
  match region with
  | .all => roles.all.get role
  | .below => roles.below.get role
  | .above => roles.above.get role

end Roles

structure Voices where
  held : NoteStack
  below : NoteStack
  above : NoteStack
  channels : PerNote Channel
  velocities : PerNote UInt8
  roles : Roles

namespace Voices

def empty : Voices where
  held := .empty
  below := .empty
  above := .empty
  channels := .replicate 0
  velocities := .replicate 0
  roles := .empty

def channelOf (voices : Voices) (note : Note) : Channel := voices.channels.get note

def velocityOf (voices : Voices) (note : Note) : UInt8 := voices.velocities.get note

def stack (voices : Voices) : Region → NoteStack
  | .all => voices.held
  | .below => voices.below
  | .above => voices.above

/-- The voices with the channels of all roles looked up anew. -/
def withRoles (voices : Voices) : Voices :=
  { voices with
    roles :=
      { all := .ofStack voices.held voices.channelOf
        below := .ofStack voices.below voices.channelOf
        above := .ofStack voices.above voices.channelOf } }

/-- A note starts on a channel. -/
def start (voices : Voices) (note : Note) (channel : Channel) (velocity : UInt8) (isAbove : Bool) : Voices :=
  withRoles
    { voices with
      held := voices.held.push note
      below := if isAbove then voices.below else voices.below.push note
      above := if isAbove then voices.above.push note else voices.above
      channels := voices.channels.set note channel
      velocities := voices.velocities.set note velocity }

/-- A note ends. -/
def stop (voices : Voices) (note : Note) : Voices :=
  withRoles
    { voices with
      held := voices.held.erase note
      below := voices.below.erase note
      above := voices.above.erase note }

/-- No note is held any more. -/
def silence (voices : Voices) : Voices :=
  { voices with held := .empty, below := .empty, above := .empty, roles := .empty }

/-- The channels of the held notes a target stands for; for the whole zone that is its manager. -/
def targets (voices : Voices) (manager : Channel) : Target → List Channel
  | .global => [manager]
  | .allBelow => voices.below.channels voices.channelOf
  | .allAbove => voices.above.channels voices.channelOf
  | .voice region role => (((voices.stack region).withRole? role).map voices.channelOf).toList

end Voices

end PolyExpression
