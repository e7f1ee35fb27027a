import PolyExpression.Midi.Command

/-!
Zones. A zone has a manager channel at one end of the sixteen channels and up to fifteen member channels
next to it, on which the notes sound. Main statement: a channel number is a member's exactly if it is in
the list of member channels.
-/

namespace PolyExpression

/-- The end of the channels at which a zone starts. -/
inductive ZoneSide where
  | lower
  | upper
  deriving DecidableEq, Repr

namespace ZoneSide

/-- The side of a parameter value; anything but one means the lower side. -/
def ofIndex (index : Int) : ZoneSide := if index = 1 then .upper else .lower

def manager : ZoneSide → Channel
  | .lower => ⟨0, by decide⟩
  | .upper => ⟨15, by decide⟩

/-- The manager channel of the other side. -/
def oppositeManager : ZoneSide → Channel
  | .lower => ⟨15, by decide⟩
  | .upper => ⟨0, by decide⟩

/-- The step from one member channel to the next. -/
def increment : ZoneSide → Int
  | .lower => 1
  | .upper => -1

def name : ZoneSide → String
  | .lower => "Lower"
  | .upper => "Upper"

end ZoneSide

/-- Most member channels a zone can have. -/
def memberMax : Nat := 15

structure Zone where
  side : ZoneSide
  memberCount : Nat
  memberCount_pos : 0 < memberCount
  memberCount_le : memberCount ≤ memberMax
  deriving DecidableEq

namespace Zone

/-- The zone with as many members as asked for, at least one and at most fifteen. -/
def ofCount (side : ZoneSide) (count : Nat) : Zone where
  side := side
  memberCount := max 1 (min count memberMax)
  memberCount_pos := by omega
  memberCount_le := by simp only [memberMax]; omega

/-- All fifteen members above channel zero. -/
def initial : Zone := ofCount .lower memberMax

def manager (zone : Zone) : Channel := zone.side.manager

def oppositeManager (zone : Zone) : Channel := zone.side.oppositeManager

/-- The member channel at a place counted from the manager. -/
def member (zone : Zone) (place : Fin zone.memberCount) : Channel :=
  have hplace := place.isLt
  have hcount := zone.memberCount_le
  match zone.side with
  | .lower => ⟨place.val + 1, by simp only [memberMax] at hcount; omega⟩
  | .upper => ⟨14 - place.val, by omega⟩

/-- The member channels in the order in which they are handed out. -/
def members (zone : Zone) : List Channel := (List.finRange zone.memberCount).map zone.member

/-- Whether a channel number is a member's. -/
def isMember (zone : Zone) (channel : UInt8) : Bool :=
  match zone.side with
  | .lower => 1 ≤ channel.toNat && channel.toNat ≤ zone.memberCount
  | .upper => 15 - zone.memberCount ≤ channel.toNat && channel.toNat < 15

theorem length_members (zone : Zone) : zone.members.length = zone.memberCount := by simp [members]

theorem isMember_iff (zone : Zone) (channel : Channel) :
    zone.isMember channel.val.toUInt8 = true ↔ channel ∈ zone.members := by
  have hlt := channel.isLt
  have hbyte : channel.val.toUInt8.toNat = channel.val := Nat.mod_eq_of_lt (by omega)
  have hcount := zone.memberCount_le
  simp only [memberMax] at hcount
  simp only [isMember, members, List.mem_map, List.mem_finRange, true_and, member, hbyte]
  cases zone.side with
  | lower =>
      simp only [Bool.and_eq_true, decide_eq_true_eq]
      constructor
      · intro h
        exact ⟨⟨channel.val - 1, by omega⟩, Fin.ext (by simp only; omega)⟩
      · rintro ⟨place, hplace⟩
        have := place.isLt
        have := congrArg Fin.val hplace
        simp only at this
        omega
  | upper =>
      simp only [Bool.and_eq_true, decide_eq_true_eq]
      constructor
      · intro h
        exact ⟨⟨14 - channel.val, by omega⟩, Fin.ext (by simp only; omega)⟩
      · rintro ⟨place, hplace⟩
        have := place.isLt
        have := congrArg Fin.val hplace
        simp only at this
        omega

end Zone

end PolyExpression
