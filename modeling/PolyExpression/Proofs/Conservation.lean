import PolyExpression.Proofs.Operations

/-!
Conservation of channels. In every engine that operations lead to, each member channel of the zone in use is
either free or the channel of one held note, and no channel that is given back finds the free channels full.
-/

namespace PolyExpression

namespace Engine

/-- The free channels and those of the held notes are the zone's members, each once, and there is room for
every channel that comes back. -/
structure ChannelsConserved (engine : Engine) : Prop where
  perm : (engine.free.toList ++ engine.voices.held.notes.map engine.voices.channelOf).Perm
    engine.layout.zone.members
  /-- Held notes do not share a channel. -/
  distinct : ∀ a ∈ engine.voices.held.notes, ∀ b ∈ engine.voices.held.notes,
    engine.voices.channelOf a = engine.voices.channelOf b → a = b
  /-- The channel of a held note is not free. -/
  disjoint : ∀ note ∈ engine.voices.held.notes, engine.voices.channelOf note ∉ engine.free.toList
  nodup : (engine.free.toList ++ engine.voices.held.notes.map engine.voices.channelOf).Nodup
  mem_iff : ∀ channel, channel ∈ engine.layout.zone.members ↔
    channel ∈ engine.free.toList ∨ ∃ note ∈ engine.voices.held.notes, engine.voices.channelOf note = channel
  size : engine.free.size + engine.voices.held.size = engine.layout.zone.memberCount
  /-- Held notes can be released in any order, in particular those that wait for the pedal. -/
  accepts : ∀ notes : List Note, notes.Nodup → (∀ note ∈ notes, note ∈ engine.voices.held.notes) →
    engine.free.Accepts (notes.map engine.voices.channelOf)
  deferred : engine.free.Accepts (engine.pedal.deferred.notes.map engine.voices.channelOf)
  /-- At no point inside an operation a channel in hand is refused. -/
  give : ∀ channel hand inside, Acts ([], engine) (channel :: hand, inside) → (inside.free.push channel).1 = true
  /-- A reset can free the members of any zone. -/
  refill : ∀ zone : Zone, engine.free.clear.Accepts zone.members

variable {hand : List Channel} {channel : Channel} {engine : Engine}

theorem Balanced.push_accepted (h : Balanced (channel :: hand, engine)) : (engine.free.push channel).1 = true :=
  (Ring.push_of_lt h.size_free_lt channel).1

theorem Balanced.nodup (h : Balanced ([], engine)) : (engine.free.toList ++ engine.voices.heldChannels).Nodup :=
  h.perm.nodup_iff.mpr engine.layout.zone.nodup_members

theorem Balanced.accepts (h : Balanced ([], engine)) {notes : List Note} (hnodup : notes.Nodup)
    (hheld : ∀ note ∈ notes, note ∈ engine.voices.held.notes) :
    engine.free.Accepts (notes.map engine.voices.channelOf) := by
  have hlength : notes.length ≤ engine.voices.held.notes.length := hnodup.length_le_of_subset hheld
  have hcount := h.length_free
  have hmax := engine.layout.zone.memberCount_le
  apply Ring.accepts_of_length
  rw [List.length_map]
  rw [List.length_nil] at hcount
  omega

/-- Whatever sequence of operations made it, an engine has all its zone's channels, each free or held once. -/
theorem channels_conserved (h : Reachable engine) : engine.ChannelsConserved := by
  have hbalanced := h.balanced
  have hperm : (engine.free.toList ++ engine.voices.held.notes.map engine.voices.channelOf).Perm
      engine.layout.zone.members := hbalanced.perm
  refine ⟨hperm, fun a ha b hb => hbalanced.channelOf_injective ha hb, ?_, hbalanced.nodup, ?_, ?_, ?_, ?_,
    ?_, ?_⟩
  · intro note hnote hfree
    exact (List.nodup_append.mp hbalanced.nodup).2.2 _ hfree _ (List.mem_map_of_mem hnote) rfl
  · intro channel
    rw [← hperm.mem_iff, List.mem_append, List.mem_map]
  · have hcount := hbalanced.length_free
    rw [List.length_nil, Nat.zero_add, Ring.length_toList] at hcount
    exact hcount
  · exact fun notes hnodup hheld => hbalanced.accepts hnodup hheld
  · exact hbalanced.accepts engine.pedal.deferred.nodup hbalanced.deferred
  · exact fun channel hand inside hacts => (hacts.balanced hbalanced).push_accepted
  · intro zone
    have hmax := zone.memberCount_le
    apply Ring.accepts_of_length
    rw [Ring.toList_clear, List.length_nil, Nat.zero_add, Zone.length_members]
    exact hmax

/-- Seventeen notes start on fifteen channels, and one of them is released while the pedal is down. -/
def seventeenNotes : List Operation :=
  [.apply (.setParameter (.zone .holdOnSustain) 1.0)]
    ++ ((List.range 17).map fun i => .call 0.0 (.noteOn 0 (40 + i).toUInt8 100))
    ++ [.call 0.0 (.controlChange 0 64 127), .bytes 0.0 [0x80, 50, 0]]

theorem channels_conserved_seventeenNotes : Reachable (standard.run seventeenNotes)
    ∧ (standard.run seventeenNotes).voices.held.size = 15
    ∧ (standard.run seventeenNotes).pedal.deferred.notes = [50]
    ∧ (standard.run seventeenNotes).ChannelsConserved :=
  ⟨reachable_standard.run seventeenNotes, by decide +kernel, by decide +kernel,
    channels_conserved (reachable_standard.run seventeenNotes)⟩

end Engine

end PolyExpression
