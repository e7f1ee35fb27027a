import PolyExpression.Proofs.Operations

/-!
How long notes have been held and channels have been free. A life of an engine lists the moments it has gone through,
each made from the one before by the smallest thing that can happen to held notes and free channels. Main statement: in
every engine that operations lead to, the held notes are listed latest start first, and the channels in the queue
longest wait first.
-/

namespace PolyExpression

/-! ### Longer than -/

section longer

variable {α : Type} {p q : α → Prop} {last before : α} {earlier : List α}

/-- Whether, looking back through moments that are listed latest first, something is true of more of them in a row than
something else. -/
def Longer (p q : α → Prop) (moments : List α) : Prop :=
  ∃ count, (∀ moment ∈ moments.take count, p moment) ∧ ∃ moment ∈ moments.take count, ¬q moment

theorem Longer.cons (h : Longer p q earlier) (hlast : p last) : Longer p q (last :: earlier) := by
  obtain ⟨count, hall, moment, hmoment, hnot⟩ := h
  refine ⟨count + 1, fun other hother => ?_, moment, List.mem_cons_of_mem last hmoment, hnot⟩
  rcases List.mem_cons.mp hother with rfl | hmem
  · exact hlast
  · exact hall other hmem

/-- What has only just become true has been true for less long than what was true before. -/
theorem longer_of_new (hlast : p last) (hbefore : p before) (hnew : ¬q before) :
    Longer p q (last :: before :: earlier) := by
  refine ⟨2, fun moment hmoment => ?_, before, List.mem_cons_of_mem _ List.mem_cons_self, hnew⟩
  rcases List.mem_cons.mp hmoment with rfl | hmem
  · exact hlast
  · obtain rfl := List.mem_singleton.mp hmem
    exact hbefore

end longer

/-- How those who stand in line can change: some leave, or a new one comes in behind the others. -/
inductive Queues {α : Type} (before : List α) : List α → Prop where
  | leave {after : List α} (h : after.Sublist before) : Queues before after
  | join {item : α} (h : item ∉ before) : Queues before (before ++ [item])

/-- Those in line stay in the order in which they came. -/
theorem Queues.pairwise {α β : Type} {view : α → List β} {before after : α} {earlier : List α}
    (hqueues : Queues (view before) (view after))
    (h : (view before).Pairwise fun a b => Longer (a ∈ view ·) (b ∈ view ·) (before :: earlier)) :
    (view after).Pairwise fun a b => Longer (a ∈ view ·) (b ∈ view ·) (after :: before :: earlier) := by
  generalize hview : view after = line at hqueues
  cases hqueues with
  | leave hsub =>
      refine (h.sublist hsub).imp_of_mem fun ha _ hlonger => hlonger.cons ?_
      exact hview.symm ▸ ha
  | @join item hnew =>
      refine List.pairwise_append.mpr ⟨?_, List.pairwise_singleton _ _, ?_⟩
      · refine h.imp_of_mem fun ha _ hlonger => hlonger.cons ?_
        exact hview.symm ▸ List.mem_append_left _ ha
      · intro a ha b hb
        obtain rfl := List.mem_singleton.mp hb
        exact longer_of_new (hview.symm ▸ List.mem_append_left _ ha) ha hnew

namespace Engine

variable {engine before after : Engine} {earlier : List Engine}

/-! ### Lives -/

/-- The smallest things that can happen to held notes and free channels. -/
inductive Move (engine : Engine) : Engine → Prop where
  | start {note : Note} (time : Float) (channel : Channel) (velocity : UInt8)
      (h : note ∉ engine.voices.held.notes) : Move engine (engine.startNote time channel note velocity)
  | stop (time : Float) (channel : Channel) (note : Note) (velocity : UInt8) :
      Move engine (engine.stopNote time channel note velocity)
  | take : Move engine { engine with free := engine.free.pop.2 }
  | give {channel : Channel} (h : channel ∉ engine.free.toList) :
      Move engine { engine with free := (engine.free.push channel).2 }
  | clear : Move engine { engine with free := engine.free.clear }
  | aside {after : Engine} (hheld : after.voices.held.notes = engine.voices.held.notes)
      (hfree : after.free.toList = engine.free.toList) : Move engine after

/-- Moves one after another. -/
def Moves : Engine → Engine → Prop := Relation.ReflTransGen Move

/-- The moments an engine has gone through, latest first. The first one is that of a new engine whose channels have not
been put into the queue yet. -/
inductive Life : List Engine → Prop where
  | create {config : Configuration} {engine : Engine} (h : Engine.create config = .ok engine) :
      Life [{ engine with free := .empty }]
  | move {before after : Engine} {earlier : List Engine} (h : Life (before :: earlier)) (hmove : Move before after) :
      Life (after :: before :: earlier)

theorem Life.moves (h : Life (before :: earlier)) (hmoves : Moves before after) :
    ∃ later, Life (after :: later) := by
  induction hmoves with
  | refl => exact ⟨earlier, h⟩
  | @tail between after _ hlast ih =>
      obtain ⟨later, hlater⟩ := ih
      exact ⟨between :: later, hlater.move hlast⟩

/-! ### Operations as moves -/

theorem pushAll_moves (engine : Engine) (channels : List Channel)
    (hnodup : (engine.free.toList ++ channels).Nodup)
    (hfit : engine.free.toList.length + channels.length ≤ memberMax) :
    Moves engine { engine with free := engine.free.pushAll channels } := by
  induction channels generalizing engine with
  | nil => exact .refl
  | cons first rest ih =>
      have hpush := (Ring.push_of_lt (Ring.size_lt_of_length hfit) first).2
      have hnew : first ∉ engine.free.toList :=
        fun hmem => (List.nodup_append.mp hnodup).2.2 _ hmem _ List.mem_cons_self rfl
      refine .head (.give hnew) (ih { engine with free := (engine.free.push first).2 } ?_ (Ring.length_push hfit))
      rw [hpush, List.append_assoc, List.singleton_append]
      exact hnodup

/-- A queue that is emptied and filled with a zone's members. -/
theorem refill_moves (engine : Engine) (zone : Zone) :
    Moves engine { engine with free := engine.free.clear.pushAll zone.members } := by
  have hfit : engine.free.clear.toList.length + zone.members.length ≤ memberMax := by
    rw [Ring.toList_clear, List.length_nil, Nat.zero_add, Zone.length_members]
    exact zone.memberCount_le
  refine .head .clear (pushAll_moves { engine with free := engine.free.clear } zone.members ?_ hfit)
  rw [Ring.toList_clear, List.nil_append]
  exact zone.nodup_members

theorem toList_clear_pushAll (free : ChannelQueue) (zone : Zone) :
    (free.clear.pushAll zone.members).toList = zone.members := by
  refine Ring.toList_pushAll ?_
  rw [Ring.toList_clear, List.length_nil, Nat.zero_add, Zone.length_members]
  exact zone.memberCount_le

theorem Act.moves {before after : Moment} (hact : Act before after) (h : Balanced before) :
    Moves before.2 after.2 := by
  cases hact with
  | quiet hquiet => exact .single (.aside (by rw [hquiet.voices]) (by rw [hquiet.free]))
  | hold velocity hnote => exact .single (.aside rfl rfl)
  | take hpop => exact .single .take
  | give hand channel engine =>
      have hnodup := h.perm.nodup_iff.mpr engine.layout.zone.nodup_members
      have hnew : channel ∉ engine.free.toList := fun hmem =>
        (List.nodup_cons.mp hnodup).1 (List.mem_append_right _ (List.mem_append_left _ hmem))
      rw [h.giveBack_eq]
      exact .single (.give hnew)
  | @start hand engine note time channel velocity hnote =>
      have hstart : Move engine (engine.startNote time channel note velocity) := .start time channel velocity hnote
      exact .single hstart
  | @stop hand engine note time velocity hnote =>
      have hstop : Move engine (engine.stopNote time (engine.voices.channelOf note) note velocity) := .stop ..
      exact .single hstop
  | @silence hand engine note hnote =>
      let channel := engine.voices.channelOf note
      let lowered := engine.sendController 0.0 channel .sustainPedal 0.0 false
      have hlowered : Move engine lowered := by
        dsimp only [lowered]
        rw [sendController_eq]
        exact .aside rfl rfl
      have hsilence : engine.silenceNote note = lowered.stopNote 0.0 channel note Midi.defaultVelocity := rfl
      have hstop : Move lowered (engine.silenceNote note) := by
        rw [hsilence]
        exact .stop ..
      exact (Relation.ReflTransGen.single hlowered).tail hstop
  | report =>
      rw [sendController_eq]
      exact .single (.aside rfl rfl)
  | route hand engine time controller value i =>
      obtain ⟨parameters, published, hinput⟩ := engine.withInput_frame controller value i
      rw [routeRule_eq, hinput]
      exact .single (.aside rfl rfl)
  | @restart hand engine after hrestart =>
      refine .tail (engine.refill_moves after.layout.zone) (.aside ?_ ?_)
      · rw [hrestart.voices, hrestart.held]
        rfl
      · rw [hrestart.free]
        exact (toList_clear_pushAll _ _).symm

theorem Acts.moves {before after : Moment} (hacts : Acts before after) (h : Balanced before) :
    Moves before.2 after.2 := by
  induction hacts with
  | refl => exact .refl
  | tail hacts hlast ih => exact ih.trans (hlast.moves (Acts.balanced hacts h))

theorem perform_moves (h : Balanced ([], engine)) (operation : Operation) :
    Moves engine (engine.perform operation) := by
  obtain ⟨parameters, published, pending, hbriefed⟩ := engine.clearEvents.briefed_eq operation
  obtain ⟨kept, hkept⟩ := engine.perform_eq operation
  have hbefore : Move engine (engine.clearEvents.briefed operation) := by
    rw [hbriefed]
    exact .aside rfl rfl
  have hacts : Moves (engine.clearEvents.briefed operation) (engine.clearEvents.perform operation) :=
    (perform_acts h.clearEvents rfl operation).moves (h.clearEvents.briefed operation)
  have hafter : Move (engine.clearEvents.perform operation) (engine.perform operation) := by
    rw [hkept]
    exact .aside rfl rfl
  exact .head hbefore (hacts.tail hafter)

/-- Every engine that operations lead to has had a life. -/
theorem Reachable.exists_life (h : Reachable engine) : ∃ earlier, Life (engine :: earlier) := by
  induction h with
  | @create config engine h =>
      let unfilled : Engine := { engine with free := .empty }
      have hfilled : Move { unfilled with free := unfilled.free.clear.pushAll engine.layout.zone.members } engine :=
        .aside rfl ((create_eq h).2.1.trans (toList_clear_pushAll _ _).symm)
      exact (Life.create h).moves ((unfilled.refill_moves engine.layout.zone).tail hfilled)
  | perform h operation ih =>
      obtain ⟨earlier, hlife⟩ := ih
      exact hlife.moves (perform_moves h.balanced operation)

/-! ### Order -/

theorem Move.held_queues (h : Move before after) :
    Queues before.voices.held.notes.reverse after.voices.held.notes.reverse := by
  cases h with
  | start time channel velocity hnote =>
      rw [voices_startNote, Voices.held_start, List.erase_of_not_mem hnote, List.reverse_cons]
      exact .join fun hmem => hnote (List.mem_reverse.mp hmem)
  | stop time channel note velocity =>
      rw [voices_stopNote, Voices.held_stop]
      exact .leave (List.reverse_sublist.mpr List.erase_sublist)
  | aside hheld hfree =>
      rw [hheld]
      exact .leave (List.Sublist.refl _)
  | _ => exact .leave (List.Sublist.refl _)

theorem Move.free_queues (h : Move before after) : Queues before.free.toList after.free.toList := by
  cases h with
  | start time channel velocity hnote =>
      rw [startNote_eq]
      exact .leave (List.Sublist.refl _)
  | stop time channel note velocity =>
      rw [stopNote_eq]
      exact .leave (List.Sublist.refl _)
  | take =>
      rw [before.free.pop_toList.2]
      exact .leave (List.tail_sublist _)
  | @give channel hnew =>
      by_cases hroom : before.free.size < memberMax
      · rw [(Ring.push_of_lt hroom channel).2]
        exact .join hnew
      · have hfull : before.free.size = memberMax := Nat.le_antisymm before.free.size_le (Nat.le_of_not_lt hroom)
        rw [Ring.push_of_full hfull]
        exact .leave (List.Sublist.refl _)
  | clear =>
      rw [Ring.toList_clear]
      exact .leave (List.nil_sublist _)
  | aside hheld hfree =>
      rw [hfree]
      exact .leave (List.Sublist.refl _)

/-- Those who stand in line from a new engine on are in the order in which they came. -/
theorem Life.pairwise {α : Type} (view : Engine → List α)
    (hcreate : ∀ {config engine}, Engine.create config = .ok engine → view { engine with free := .empty } = [])
    (hmove : ∀ {before after}, Move before after → Queues (view before) (view after))
    (h : Life (engine :: earlier)) :
    (view engine).Pairwise fun a b => Longer (a ∈ view ·) (b ∈ view ·) (engine :: earlier) := by
  generalize hlife : engine :: earlier = life at h
  induction h generalizing engine earlier with
  | create h =>
      obtain ⟨rfl, -⟩ := List.cons.inj hlife
      rw [hcreate h]
      exact .nil
  | move _ hlast ih =>
      obtain ⟨rfl, rfl⟩ := List.cons.inj hlife
      exact (hmove hlast).pairwise (ih rfl)

/-- The order in which an engine lists its notes and channels is that of time. -/
structure InOrder (engine : Engine) : Prop where
  lived : ∃ earlier, Life (engine :: earlier)
  /-- Of two held notes the one that is listed first has been held for less long: it started later, or started again. -/
  held : ∀ earlier, Life (engine :: earlier) → engine.voices.held.notes.Pairwise fun later sooner =>
    Longer (sooner ∈ ·.voices.held.notes) (later ∈ ·.voices.held.notes) (engine :: earlier)
  /-- Of two free channels the one in front has been in the queue for longer. -/
  free : ∀ earlier, Life (engine :: earlier) → engine.free.toList.Pairwise fun front behind =>
    Longer (front ∈ ·.free.toList) (behind ∈ ·.free.toList) (engine :: earlier)

theorem Reachable.inOrder (h : Reachable engine) : engine.InOrder where
  lived := h.exists_life
  held := by
    intro earlier hlife
    have hreverse := hlife.pairwise (fun e => e.voices.held.notes.reverse)
      (fun hcreate => by rw [(create_eq hcreate).1]; rfl) Move.held_queues
    simpa only [List.mem_reverse, List.pairwise_reverse] using hreverse
  free := fun earlier hlife => hlife.pairwise (fun e => e.free.toList) (fun _ => rfl) Move.free_queues

end Engine

end PolyExpression
