/-
This file proves that the egress queues deliver video in whole units: a unit
whose every queued copy left before any of its packets was sent stays unsent
until its first packet arrives again, in every run in which no packet of the
unit arrives before its first packet while an older unit is remembered as
queued or sent. Without that condition it fails.

Every operation but an arrival and a departure only sheds units, and what is
known of the packets of one unit survives that.
-/

import Throcc.Queues

namespace Throcc

/-! ### Units of packets -/

/-- How the tracks' sequence numbers fall into units, which are named by their first. -/
structure Units where
  kind : MediaId → TrackKind
  /-- The first `seq` of the unit a `seq` belongs to. -/
  start : MediaId → Nat → Nat
  start_le : ∀ mediaId seq, start mediaId seq ≤ seq
  start_between : ∀ mediaId seq other, start mediaId seq ≤ other → other ≤ seq →
    start mediaId other = start mediaId seq

namespace Units

variable (units : Units)

/-- The unit a datagram belongs to. -/
def unitOf (header : Header) : MediaId × Nat :=
  (header.mediaId, units.start header.mediaId header.seq)

/-- The datagram is a packet of the unit. -/
def Carries (unit : MediaId × Nat) (bytes : Datagram) : Prop :=
  ∃ header, Header.parse bytes = .ok header ∧ units.unitOf header = unit

instance (unit : MediaId × Nat) (bytes : Datagram) : Decidable (units.Carries unit bytes) :=
  match parsed : Header.parse bytes with
  | .ok header =>
    decidable_of_iff (units.unitOf header = unit)
      ⟨fun same => ⟨header, parsed, same⟩, fun ⟨_, parsed', same⟩ => by
        cases parsed.symm.trans parsed'
        exact same⟩
  | .error _ => isFalse fun ⟨_, parsed', _⟩ => by cases parsed.symm.trans parsed'

/-- What arrives is the datagram its header was parsed from, of a track's one kind, and only
the first packet of a video unit is marked as the first. -/
structure Sound (packet : Packet) : Prop where
  parsed : Header.parse packet.bytes = .ok packet.header
  kind : packet.kind = units.kind packet.header.mediaId
  first : packet.kind = .video → (packet.header.flags.contains .first = true ↔
    units.start packet.header.mediaId packet.header.seq = packet.header.seq)

instance (packet : Packet) : Decidable (units.Sound packet) :=
  decidable_of_iff (Header.parse packet.bytes = .ok packet.header ∧
      packet.kind = units.kind packet.header.mediaId ∧
      (packet.kind = .video → (packet.header.flags.contains .first = true ↔
        units.start packet.header.mediaId packet.header.seq = packet.header.seq)))
    ⟨fun ⟨parsed, kind, first⟩ => ⟨parsed, kind, first⟩, fun sound =>
      ⟨sound.parsed, sound.kind, sound.first⟩⟩

/-- What arrives in the queues is sound. -/
def Allows : Queues.Input → Prop
  | .push packet _ _ => units.Sound packet
  | _ => True

instance : DecidablePred units.Allows
  | .push packet _ _ => inferInstanceAs (Decidable (units.Sound packet))
  | .lose _ | .enforceBudget _ | .forgetQuietTracks | .takeStats | .pop => .isTrue True.intro

/-- The input is the arrival of the first packet of the unit. -/
def Restarts (unit : MediaId × Nat) : Queues.Input → Prop
  | .push packet _ _ => units.unitOf packet.header = unit ∧
      packet.header.flags.contains .first = true
  | _ => False

instance (unit : MediaId × Nat) : DecidablePred (units.Restarts unit)
  | .push packet _ _ => inferInstanceAs (Decidable (units.unitOf packet.header = unit ∧
      packet.header.flags.contains .first = true))
  | .lose _ | .enforceBudget _ | .forgetQuietTracks | .takeStats | .pop => .isFalse id

/-- The input is the arrival of a later packet of the unit while the closest unit start
remembered is an older unit's, which isn't dropped. -/
def Misplaces (unit : MediaId × Nat) (queues : Queues) : Queues.Input → Prop
  | .push packet _ _ => units.unitOf packet.header = unit ∧
      packet.header.flags.contains .first = false ∧
      ∃ known ∈ queues.unitAt packet.header.mediaId packet.header.seq,
        known.1 < unit.2 ∧ known.2 ≠ .dropped
  | _ => False

instance (unit : MediaId × Nat) (queues : Queues) : DecidablePred (units.Misplaces unit queues)
  | .push packet _ _ => inferInstanceAs (Decidable (units.unitOf packet.header = unit ∧
      packet.header.flags.contains .first = false ∧
      ∃ known ∈ queues.unitAt packet.header.mediaId packet.header.seq,
        known.1 < unit.2 ∧ known.2 ≠ .dropped))
  | .lose _ | .enforceBudget _ | .forgetQuietTracks | .takeStats | .pop => .isFalse id

end Units

/-! ### Audio packets -/

namespace AudioQueues

/-- The packet is queued. -/
def Holds (audio : AudioQueues) (bytes : Datagram) : Prop :=
  ∃ track queue, audio.tracks.lookup track = some queue ∧ bytes ∈ queue

theorem holds_of_queueOf {audio : AudioQueues} {mediaId : MediaId} {bytes : Datagram}
    (member : bytes ∈ audio.queueOf mediaId) : audio.Holds bytes := by
  unfold queueOf at member
  cases found : audio.tracks.lookup mediaId with
  | none =>
    rw [found] at member
    cases member
  | some queue =>
    rw [found] at member
    exact ⟨mediaId, queue, found, member⟩

/-- A map of queues with one of them replaced holds what that one holds or what was held. -/
theorem holds_insert {audio next : AudioQueues} {mediaId : MediaId} {queue : List Datagram}
    {bytes : Datagram} (same : next.tracks = audio.tracks.insert mediaId queue)
    (holds : next.Holds bytes) : bytes ∈ queue ∨ audio.Holds bytes := by
  obtain ⟨track, held, found, member⟩ := holds
  rw [same, Map.lookup_insert_ite] at found
  split at found
  · cases found
    exact Or.inl member
  · exact Or.inr ⟨track, held, found, member⟩

theorem holds_erase {audio next : AudioQueues} {mediaId : MediaId} {bytes : Datagram}
    (same : next.tracks = audio.tracks.erase mediaId) (holds : next.Holds bytes) :
    audio.Holds bytes := by
  obtain ⟨track, held, found, member⟩ := holds
  rw [same, Map.lookup_erase_ite] at found
  split at found
  · cases found
  · exact ⟨track, held, found, member⟩

theorem holds_evict {audio : AudioQueues} {choice : MediaId} {bytes : Datagram}
    (holds : (audio.evictFromLongest choice).2.Holds bytes) : audio.Holds bytes := by
  unfold evictFromLongest at holds
  split at holds
  · exact holds
  · simp only at holds
    split at holds
    · exact holds_erase rfl holds
    · rcases holds_insert rfl holds with member | holds
      · exact holds_of_queueOf (List.mem_of_mem_tail member)
      · exact holds

theorem holds_push {audio : AudioQueues} {mediaId choice : MediaId} {bytes pushed : Datagram}
    (holds : (audio.push mediaId pushed choice).2.Holds bytes) :
    bytes = pushed ∨ audio.Holds bytes := by
  have evicted : ∀ bytes, Holds (if maxQueuedAudio ≤ audio.len then audio.evictFromLongest choice
      else (none, audio)).2 bytes → audio.Holds bytes := by
    intro bytes holds
    split at holds
    · exact holds_evict holds
    · exact holds
  unfold push at holds
  generalize (if maxQueuedAudio ≤ audio.len then audio.evictFromLongest choice
    else (none, audio)) = outcome at holds evicted
  obtain ⟨lost, left⟩ := outcome
  rcases holds_insert rfl holds with member | holds
  · rcases List.mem_append.mp member with member | last
    · exact Or.inr (evicted bytes (holds_of_queueOf member))
    · exact Or.inl (List.mem_singleton.mp last)
  · exact Or.inr (evicted bytes holds)

/-- Serving a packet leaves packets that were queued, and the packet was one of them. -/
theorem holds_pop {audio : AudioQueues} {bytes : Datagram} :
    (audio.pop.2.Holds bytes → audio.Holds bytes) ∧
      ∀ mediaId, audio.pop.1 = some (mediaId, bytes) → audio.Holds bytes := by
  unfold pop
  split
  · exact ⟨id, fun _ none => by cases none⟩
  · rename_i mediaId turns served
    split
    · exact ⟨id, fun _ none => by cases none⟩
    · exact ⟨id, fun _ none => by cases none⟩
    · rename_i first rest found
      split
      · refine ⟨holds_erase rfl, fun _ served => ?_⟩
        cases served
        exact ⟨mediaId, _, found, List.mem_cons_self⟩
      · refine ⟨fun holds => ?_, fun _ served => ?_⟩
        · rcases holds_insert rfl holds with member | holds
          · exact ⟨mediaId, _, found, List.mem_cons_of_mem _ member⟩
          · exact holds
        · cases served
          exact ⟨mediaId, _, found, List.mem_cons_self⟩

end AudioQueues

/-! ### Shedding units -/

namespace Queues

/-- Units leave and settle, and nothing else changes but what is counted. -/
structure Sheds (queues next : Queues) : Prop where
  started : ∀ id unit, next.started.lookup id = some unit →
    ∃ before, queues.started.lookup id = some before ∧ before.Same unit ∧
      unit.packets ⊆ before.packets
  waiting : ∀ id unit, next.waiting.lookup id = some unit →
    ∃ before, queues.waiting.lookup id = some before ∧ before.Same unit ∧
      unit.packets = before.packets
  copies : ∀ key id, Listed next.copies key id → Listed queues.copies key id
  history : ∀ mediaId seq fate, (next.historyOf mediaId).lookup seq = some fate →
    fate = .dropped ∨ (queues.historyOf mediaId).lookup seq = some fate ∨
      (fate = .sent ∧ ∃ id unit, queues.started.lookup id = some unit ∧ unit.stray = false ∧
        unit.mediaId = mediaId ∧ unit.firstSeq = seq)
  audio : next.audio = queues.audio

variable {queues next last : Queues}

theorem Sheds.of_eq (same : next.toVideoQueues = queues.toVideoQueues)
    (audio : next.audio = queues.audio) : queues.Sheds next := by
  obtain ⟨video, _, _, _, _⟩ := queues
  obtain ⟨video', _, _, _, _⟩ := next
  cases same
  exact {
    started := fun _ unit found => ⟨unit, found, .refl _, List.Subset.refl _⟩
    waiting := fun _ unit found => ⟨unit, found, .refl _, rfl⟩
    copies := fun _ _ listed => listed
    history := fun _ _ _ known => Or.inr (Or.inl known)
    audio := audio }

theorem Sheds.refl (queues : Queues) : queues.Sheds queues := of_eq rfl rfl

theorem Sheds.trans (first : queues.Sheds next) (second : next.Sheds last) : queues.Sheds last where
  started := fun id unit found => by
    obtain ⟨between, there, alike, packets⟩ := second.started id unit found
    obtain ⟨before, here, alike', packets'⟩ := first.started id between there
    exact ⟨before, here, alike'.trans alike, List.Subset.trans packets packets'⟩
  waiting := fun id unit found => by
    obtain ⟨between, there, alike, packets⟩ := second.waiting id unit found
    obtain ⟨before, here, alike', packets'⟩ := first.waiting id between there
    exact ⟨before, here, alike'.trans alike, packets.trans packets'⟩
  copies := fun key id listed => first.copies key id (second.copies key id listed)
  history := fun mediaId seq fate known => by
    rcases second.history mediaId seq fate known with dropped | known | ⟨sent, id, unit, running, own⟩
    · exact Or.inl dropped
    · exact first.history mediaId seq fate known
    · obtain ⟨before, here, alike, -⟩ := first.started id unit running
      refine Or.inr (Or.inr ⟨sent, id, before, here, ?_⟩)
      rw [← alike.stray, ← alike.mediaId, ← alike.firstSeq]
      exact own
  audio := second.audio.trans first.audio

theorem Sheds.modifyUnit {id : Nat} {unit : VideoUnit} {update : VideoUnit → VideoUnit}
    (found : queues.unit id = some unit) (alike : unit.Same (update unit))
    (same : (update unit).packets = unit.packets) : queues.Sheds (queues.modifyUnit id update) := by
  rcases Option.or_eq_some_iff.mp found with running | ⟨missing, resting⟩
  · rw [modifyUnit_started update running]
    refine { Sheds.refl queues with started := fun other after there => ?_ }
    rw [Map.lookup_insert_ite] at there
    split at there
    · rename_i here
      cases there
      exact ⟨unit, here ▸ running, alike, fun _ member => same ▸ member⟩
    · exact (Sheds.refl queues).started other after there
  · rw [modifyUnit_waiting update missing resting]
    refine { Sheds.refl queues with waiting := fun other after there => ?_ }
    rw [Map.lookup_insert_ite] at there
    split at there
    · rename_i here
      cases there
      exact ⟨unit, here ▸ resting, alike, same⟩
    · exact (Sheds.refl queues).waiting other after there

/-- A unit leaves, as sent only if it was started. -/
theorem Sheds.finish (consistent : queues.Consistent) (id : Nat) {fate : Fate}
    (settles : fate = .dropped ∨
      (fate = .sent ∧ ∀ unit, queues.unit id = some unit → queues.started.lookup id = some unit)) :
    queues.Sheds (queues.finish id fate) := by
  cases found : queues.unit id with
  | none =>
    unfold Queues.finish
    rw [found]
    exact Sheds.refl queues
  | some unit =>
    have erased : ∀ (units : Map Nat VideoUnit) (other : Nat) (after : VideoUnit),
        (units.erase id).lookup other = some after → units.lookup other = some after := by
      intro units other after there
      rw [Map.lookup_erase_ite] at there
      split at there
      · cases there
      · exact there
    have shed : (queues.remove id unit fate).started = queues.started.erase id ∧
        (queues.remove id unit fate).waiting = queues.waiting.erase id := ⟨rfl, rfl⟩
    have audio : (queues.finish id fate).audio = queues.audio := by
      unfold Queues.finish
      rw [found]
    have video := consistent.finish_eq found fate
    generalize queues.finish id fate = next at audio video
    obtain ⟨_, _, _, _, _⟩ := next
    cases video
    exact {
      started := fun other after there => by
        have there : (queues.started.erase id).lookup other = some after := there
        exact ⟨after, erased _ other after there, .refl _, List.Subset.refl _⟩
      waiting := fun other after there => by
        have there : (queues.waiting.erase id).lookup other = some after := there
        exact ⟨after, erased _ other after there, .refl _, rfl⟩
      copies := fun key other listed => by
        have listed : Listed (if unit.stray then queues.copies
          else removeCopy queues.copies (unit.mediaId, unit.firstSeq) id) key other := listed
        split at listed
        · exact listed
        · exact ((listed_removeCopy _ _ _ _ _).mp listed).2
      history := fun mediaId seq known remembered => by
        obtain ⟨past, there, remembered⟩ := VideoQueues.lookup_historyOf remembered
        obtain ⟨before, here, -, settled⟩ := VideoQueues.of_lookup_settle there remembered
        have past : queues.historyOf mediaId = before := by
          unfold VideoQueues.historyOf
          rw [here, Option.getD_some]
        rw [past]
        rcases settled with ⟨track, start, queued, same⟩ | ⟨same, -⟩
        · rcases settles with dropped | ⟨sent, running⟩
          · exact Or.inl (same.trans dropped)
          · obtain ⟨held, there, own, track', start'⟩ :=
              consistent.history mediaId before here seq id queued
            have only := VideoQueues.Consistent.unique consistent there
              (VideoQueues.queued_of_unit found)
            rw [← only] at own track' start'
            exact Or.inr (Or.inr ⟨same.trans sent, id, unit, running unit found, own, track',
              start'⟩)
        · exact Or.inr (Or.inl same)
      audio := audio }

theorem Sheds.countUnit (queues : Queues) (unit : VideoUnit) :
    queues.Sheds (queues.countUnit unit) := by
  unfold Queues.countUnit
  split
  · rename_i twin known
    obtain ⟨-, queued⟩ := Option.filter_eq_some_iff.mp known
    obtain ⟨other, there⟩ := Option.isSome_iff_exists.mp queued
    have alike : other.Same { other with copy := false } := ⟨rfl, rfl, rfl, rfl⟩
    exact Sheds.modifyUnit there alike rfl
  · split
    · exact Sheds.refl queues
    · exact Sheds.of_eq rfl rfl

theorem Sheds.dropUnit (consistent : queues.Consistent) (id : Nat) :
    queues.Sheds (queues.dropUnit id) := by
  unfold Queues.dropUnit
  split
  · exact Sheds.refl queues
  · exact (Sheds.finish consistent id (Or.inl rfl)).trans (Sheds.countUnit _ _)

/-- A history that says what it said or that something was dropped. -/
theorem Sheds.record (queues : Queues) (mediaId : MediaId) (seq : Nat) :
    queues.Sheds (queues.record mediaId seq .dropped) where
  started := (Sheds.refl queues).started
  waiting := (Sheds.refl queues).waiting
  copies := fun _ _ listed => listed
  history := fun track start fate known => by
    obtain ⟨past, there, known⟩ := VideoQueues.lookup_historyOf known
    have there : (queues.history.insert mediaId
      (remember (queues.historyOf mediaId) seq .dropped)).lookup track = some past := there
    rw [Map.lookup_insert_ite] at there
    split at there
    · rename_i same
      cases there
      subst same
      rcases of_lookup_remember known with ⟨-, dropped⟩ | known
      · exact Or.inl dropped
      · exact Or.inr (Or.inl known)
    · refine Or.inr (Or.inl ?_)
      unfold VideoQueues.historyOf
      rw [there]
      exact known
  audio := rfl

theorem Sheds.countDrop (queues : Queues) (mediaId : MediaId) :
    queues.Sheds (queues.countDrop mediaId) := of_eq rfl rfl

theorem Sheds.lose (consistent : queues.Consistent) (lost : Lost) :
    queues.Sheds (queues.lose lost) := by
  have active : queues.Sheds
      { queues with
        activeTracks := insert lost.mediaId queues.activeTracks
        history := queues.history.insert lost.mediaId (queues.historyOf lost.mediaId) } := by
    refine { Sheds.refl queues with history := fun track start fate known => ?_ }
    obtain ⟨past, there, known⟩ := VideoQueues.lookup_historyOf known
    refine Or.inr (Or.inl ?_)
    rw [Map.lookup_insert_ite] at there
    split at there
    · rename_i same
      cases there
      exact same ▸ known
    · unfold VideoQueues.historyOf
      rw [there]
      exact known
  have kept := consistent.enter lost.mediaId
  unfold Queues.lose
  split
  · exact Sheds.countDrop _ _
  · simp only
    split
    · split
      · exact active
      · exact (active.trans (Sheds.record _ _ _)).trans (Sheds.countDrop _ _)
    · split
      · exact active.trans (Sheds.dropUnit kept _)
      · exact (active.trans (Sheds.record _ _ _)).trans (Sheds.countDrop _ _)
      · exact active
      · exact (active.trans (Sheds.record _ _ _)).trans (Sheds.countDrop _ _)

theorem Sheds.skipStrays (queues : Queues) : queues.Sheds queues.skipStrays :=
  { Sheds.refl queues with }

theorem Sheds.giveUpIdleUnits (consistent : queues.Consistent) (now : Instant) :
    queues.Sheds (queues.giveUpIdleUnits now) := by
  have settled : ∀ id, Fate.sent ≠ .queued id := fun _ => Fate.noConfusion
  have all : ∀ (ids : List Nat) (queues : Queues), queues.Consistent →
      (∀ id ∈ ids, queues.waiting.lookup id = none) →
      queues.Sheds (ids.foldl (fun queues id => queues.finish id .sent) queues) := by
    intro ids
    induction ids with
    | nil => exact fun queues _ _ => Sheds.refl queues
    | cons id rest inductionHypothesis =>
      intro queues consistent running
      have shed := Sheds.finish consistent id (Or.inr ⟨rfl, fun unit found => by
        rcases Option.or_eq_some_iff.mp found with running | ⟨-, resting⟩
        · exact running
        · rw [running id List.mem_cons_self] at resting
          cases resting⟩)
      refine shed.trans (inductionHypothesis _ (consistent.finish id settled) fun other member => ?_)
      refine Option.eq_none_iff_forall_ne_some.mpr fun unit resting => ?_
      obtain ⟨before, resting, -⟩ := shed.waiting other unit resting
      rw [running other (List.mem_cons_of_mem _ member)] at resting
      cases resting
  unfold Queues.giveUpIdleUnits
  split
  · exact Sheds.refl queues
  · have checked : queues.Sheds { queues with nextIdleCheck := some (now + idleCheck) } := of_eq rfl rfl
    refine checked.trans (all _ _ consistent fun id member => ?_)
    obtain ⟨unit, idle, same⟩ := List.mem_map.mp member
    obtain ⟨⟨key, held⟩, listed, rfl⟩ := List.mem_map.mp (List.mem_filter.mp idle).1
    have running := (Map.mem_toList _ _ _).mp listed
    refine Option.eq_none_iff_forall_ne_some.mpr fun other resting => ?_
    rw [← same, (consistent.known key held (Or.inl running)).1] at resting
    exact consistent.disjoint running resting

theorem Sheds.dropLate (consistent : queues.Consistent) {now : Instant}
    (dropped : queues.dropLate now = some next) : queues.Sheds next := by
  unfold Queues.dropLate at dropped
  split at dropped
  · obtain ⟨victim, -, rfl⟩ := Option.map_eq_some_iff.mp dropped
    exact (Sheds.skipStrays queues).trans (Sheds.dropUnit consistent.skipStrays victim)
  · cases dropped

theorem Sheds.dropExcess (consistent : queues.Consistent)
    (dropped : queues.dropExcess = some next) : queues.Sheds next := by
  unfold Queues.dropExcess at dropped
  split at dropped
  · obtain ⟨victim, -, rfl⟩ := Option.map_eq_some_iff.mp dropped
    exact (Sheds.skipStrays queues).trans (Sheds.dropUnit consistent.skipStrays victim)
  · cases dropped

theorem Sheds.dropAllLate (consistent : queues.Consistent) (now : Instant) :
    queues.Sheds (queues.dropAllLate now) :=
  (loop_invariant (fun after => after.Consistent ∧ queues.Sheds after)
    ⟨consistent, Sheds.refl queues⟩
    (fun _ _ before dropped => ⟨before.1.dropLate dropped,
      before.2.trans (Sheds.dropLate before.1 dropped)⟩) _).2

theorem Sheds.dropAllExcess (consistent : queues.Consistent) :
    queues.Sheds queues.dropAllExcess :=
  (loop_invariant (fun after => after.Consistent ∧ queues.Sheds after)
    ⟨consistent, Sheds.refl queues⟩
    (fun _ _ before dropped => ⟨before.1.dropExcess dropped,
      before.2.trans (Sheds.dropExcess before.1 dropped)⟩) _).2

theorem Sheds.enforceBudget (consistent : queues.Consistent) (now : Instant) :
    queues.Sheds (queues.enforceBudget now) := by
  have idle := consistent.giveUpIdleUnits now
  have dropped := ((Sheds.giveUpIdleUnits consistent now).trans
    (Sheds.dropAllLate idle now)).trans (Sheds.dropAllExcess (idle.dropAllLate now))
  unfold Queues.enforceBudget
  simp only
  split
  · exact dropped.trans (Sheds.skipStrays _)
  · exact dropped

theorem Sheds.forgetQuietTracks (queues : Queues) : queues.Sheds queues.forgetQuietTracks := by
  refine { Sheds.refl queues with history := fun track start fate known => ?_ }
  obtain ⟨past, there, known⟩ := VideoQueues.lookup_historyOf known
  have there : (queues.history.retain fun mediaId _ => mediaId ∈ queues.activeTracks ||
    mediaId ∈ queues.units.map (·.mediaId)).lookup track = some past := there
  rw [Map.lookup_retain, Option.filter_eq_some_iff] at there
  refine Or.inr (Or.inl ?_)
  unfold VideoQueues.historyOf
  rw [there.1]
  exact known

/-! ### The packets of one unit -/

/-- What is known of the packets of a video unit: they wait in copies of the unit, or some of
the unit was sent (`begun`). -/
structure Placed (units : Units) (unit : MediaId × Nat) (begun : Prop) (queues : Queues) : Prop where
  heads : ∀ id copy, queues.waiting.lookup id = some copy → copy.stray = false →
    (copy.mediaId, copy.firstSeq) = unit →
    ∃ bytes, copy.packets.head? = some bytes ∧ units.Carries unit bytes
  own : ∀ id copy, queues.Queued id copy → ∀ bytes ∈ copy.packets, units.Carries unit bytes →
    begun ∨ (copy.stray = false ∧ (copy.mediaId, copy.firstSeq) = unit)
  firsts : ∀ id copy, queues.Queued id copy → copy.stray = false →
    units.start copy.mediaId copy.firstSeq = copy.firstSeq
  running : ∀ id copy, queues.started.lookup id = some copy → copy.stray = false →
    (copy.mediaId, copy.firstSeq) = unit → begun
  sent : (queues.historyOf unit.1).lookup unit.2 = some .sent → begun
  starts : ∀ seq fate, (queues.historyOf unit.1).lookup seq = some fate →
    units.start unit.1 seq = unit.2 → seq ≠ unit.2 → fate = .dropped
  audio : ∀ bytes, queues.audio.Holds bytes → ¬ units.Carries unit bytes

variable {units : Units} {unit : MediaId × Nat} {begun : Prop}

theorem Placed.mono {later : Prop} (implies : begun → later)
    (placed : queues.Placed units unit begun) : queues.Placed units unit later where
  heads := placed.heads
  own := fun id copy queued bytes member carries =>
    (placed.own id copy queued bytes member carries).imp_left implies
  firsts := placed.firsts
  running := fun id copy found own same => implies (placed.running id copy found own same)
  sent := fun known => implies (placed.sent known)
  starts := placed.starts
  audio := placed.audio

theorem Sheds.queued (sheds : queues.Sheds next) {id : Nat} {copy : VideoUnit}
    (queued : next.Queued id copy) :
    ∃ before, queues.Queued id before ∧ before.Same copy ∧ copy.packets ⊆ before.packets := by
  rcases queued with running | resting
  · obtain ⟨before, here, rest⟩ := sheds.started id copy running
    exact ⟨before, Or.inl here, rest⟩
  · obtain ⟨before, here, alike, packets⟩ := sheds.waiting id copy resting
    exact ⟨before, Or.inr here, alike, fun _ member => packets ▸ member⟩

theorem Placed.sheds (placed : queues.Placed units unit begun) (sheds : queues.Sheds next) :
    next.Placed units unit begun where
  heads := fun id copy found own same => by
    obtain ⟨before, here, alike, packets⟩ := sheds.waiting id copy found
    rw [alike.stray] at own
    rw [alike.mediaId, alike.firstSeq] at same
    rw [packets]
    exact placed.heads id before here own same
  own := fun id copy queued bytes member carries => by
    obtain ⟨before, here, alike, packets⟩ := sheds.queued queued
    rw [alike.stray, alike.mediaId, alike.firstSeq]
    exact placed.own id before here bytes (packets member) carries
  firsts := fun id copy queued own => by
    obtain ⟨before, here, alike, -⟩ := sheds.queued queued
    rw [alike.stray] at own
    rw [alike.mediaId, alike.firstSeq]
    exact placed.firsts id before here own
  running := fun id copy found own same => by
    obtain ⟨before, here, alike, -⟩ := sheds.started id copy found
    rw [alike.stray] at own
    rw [alike.mediaId, alike.firstSeq] at same
    exact placed.running id before here own same
  sent := fun known => by
    rcases sheds.history _ _ _ known with dropped | known | ⟨-, id, copy, found, own, track, start⟩
    · cases dropped
    · exact placed.sent known
    · exact placed.running id copy found own (by rw [track, start])
  starts := fun seq fate known start different => by
    rcases sheds.history _ _ _ known with dropped | known | ⟨sent, id, copy, found, own, track, first⟩
    · exact dropped
    · exact placed.starts seq fate known start different
    · have alone := placed.firsts id copy (Or.inl found) own
      rw [track, first] at alone
      exact absurd (alone.symm.trans start) different
  audio := fun bytes holds => placed.audio bytes (sheds.audio ▸ holds)

/-! ### Arrivals -/

/-- A new unit waits, and the history changes at most by a unit start that isn't sent. -/
theorem Placed.add (placed : queues.Placed units unit begun) (copy : VideoUnit)
    (started : next.started = queues.started)
    (waiting : next.waiting = queues.waiting.insert copy.id copy)
    (audio : next.audio = queues.audio)
    (history : ∀ seq fate, (next.historyOf unit.1).lookup seq = some fate →
      (queues.historyOf unit.1).lookup seq = some fate ∨
        (fate ≠ .sent ∧ units.start unit.1 seq = seq))
    (head : copy.stray = false → (copy.mediaId, copy.firstSeq) = unit →
      ∃ bytes, copy.packets.head? = some bytes ∧ units.Carries unit bytes)
    (own : ∀ bytes ∈ copy.packets, units.Carries unit bytes →
      begun ∨ (copy.stray = false ∧ (copy.mediaId, copy.firstSeq) = unit))
    (alone : copy.stray = false → units.start copy.mediaId copy.firstSeq = copy.firstSeq) :
    next.Placed units unit begun := by
  have resting : ∀ id other, next.waiting.lookup id = some other →
      other = copy ∨ queues.waiting.lookup id = some other := by
    intro id other found
    rw [waiting, Map.lookup_insert_ite] at found
    split at found
    · exact Or.inl (Option.some.inj found).symm
    · exact Or.inr found
  have queued : ∀ id other, next.Queued id other → other = copy ∨ queues.Queued id other := by
    rintro id other (found | found)
    · exact Or.inr (Or.inl (started ▸ found))
    · exact (resting id other found).imp_right Or.inr
  exact {
    heads := fun id other found mine same => by
      rcases resting id other found with rfl | found
      · exact head mine same
      · exact placed.heads id other found mine same
    own := fun id other found bytes member carries => by
      rcases queued id other found with rfl | found
      · exact own bytes member carries
      · exact placed.own id other found bytes member carries
    firsts := fun id other found mine => by
      rcases queued id other found with rfl | found
      · exact alone mine
      · exact placed.firsts id other found mine
    running := fun id other found => placed.running id other (started ▸ found)
    sent := fun known => by
      rcases history _ _ known with known | ⟨unsent, -⟩
      · exact placed.sent known
      · exact absurd rfl unsent
    starts := fun seq fate known start different => by
      rcases history _ _ known with known | ⟨-, alone⟩
      · exact placed.starts seq fate known start different
      · exact absurd (alone.symm.trans start) different
    audio := fun bytes holds => placed.audio bytes (audio ▸ holds) }

theorem Placed.pushFirst (placed : queues.Placed units unit begun) {packet : Packet}
    (sound : units.Sound packet) (video : packet.kind = .video)
    (first : packet.header.flags.contains .first = true) (now : Instant) :
    (queues.pushFirst packet now).Placed units unit begun := by
  have alone := (sound.first video).mp first
  let seen := (queues.historyOf packet.header.mediaId).lookup packet.header.seq
  let copy : VideoUnit :=
    { VideoUnit.new queues.nextId packet.header.mediaId packet.header.seq packet.bytes now with
      complete := packet.header.flags.contains .last
      copy := seen.isSome && seen ≠ some .dropped }
  have carries : units.Carries unit packet.bytes ↔ (copy.mediaId, copy.firstSeq) = unit := by
    have name : units.unitOf packet.header = (copy.mediaId, copy.firstSeq) := by
      exact congrArg (Prod.mk packet.header.mediaId) alone
    constructor
    · rintro ⟨header, parsed, same⟩
      cases sound.parsed.symm.trans parsed
      exact name ▸ same
    · exact fun same => ⟨packet.header, sound.parsed, name.trans same⟩
  refine placed.add copy rfl rfl rfl (fun seq fate known => ?_) (fun _ same => ?_)
    (fun bytes member carried => ?_) fun _ => alone
  · obtain ⟨past, there, known⟩ := VideoQueues.lookup_historyOf known
    have there : (queues.history.insert packet.header.mediaId
      (remember (queues.historyOf packet.header.mediaId) packet.header.seq
        (.queued queues.nextId))).lookup unit.1 = some past := there
    rw [Map.lookup_insert_ite] at there
    split at there
    · rename_i same
      cases there
      rcases of_lookup_remember known with ⟨rfl, rfl⟩ | known
      · exact Or.inr ⟨Fate.noConfusion, same ▸ alone⟩
      · exact Or.inl (same ▸ known)
    · refine Or.inl ?_
      unfold VideoQueues.historyOf
      rw [there]
      exact known
  · exact ⟨packet.bytes, rfl, carries.mpr same⟩
  · cases List.mem_singleton.mp member
    exact Or.inr ⟨rfl, carries.mp carried⟩

theorem Placed.pushStray (placed : queues.Placed units unit begun) {packet : Packet}
    (late : units.Carries unit packet.bytes → begun) (now : Instant) :
    (queues.pushStray packet now).Placed units unit begun := by
  let copy : VideoUnit :=
    { VideoUnit.new queues.nextId packet.header.mediaId packet.header.seq packet.bytes now with
      complete := true
      stray := true }
  refine placed.add copy rfl rfl rfl (fun _ _ known => Or.inl known) (fun own => ?_)
    (fun bytes member carried => ?_) fun own => ?_
  · cases own
  · cases List.mem_singleton.mp member
    exact Or.inl (late carried)
  · cases own

/-- A queued unit gets another packet. -/
theorem Placed.grow (placed : queues.Placed units unit begun) {id : Nat} {copy after : VideoUnit}
    (queued : queues.Queued id copy) (alike : copy.Same after)
    (head : ∀ bytes, copy.packets.head? = some bytes → after.packets.head? = some bytes)
    (own : ∀ bytes ∈ after.packets, units.Carries unit bytes →
      begun ∨ (copy.stray = false ∧ (copy.mediaId, copy.firstSeq) = unit))
    (started : ∀ other found, next.started.lookup other = some found →
      queues.started.lookup other = some found ∨
        (found = after ∧ queues.started.lookup id = some copy))
    (waiting : ∀ other found, next.waiting.lookup other = some found →
      queues.waiting.lookup other = some found ∨
        (found = after ∧ queues.waiting.lookup id = some copy))
    (history : next.history = queues.history) (audio : next.audio = queues.audio) :
    next.Placed units unit begun := by
  have past : next.historyOf unit.1 = queues.historyOf unit.1 := by
    rw [VideoQueues.historyOf, history, VideoQueues.historyOf]
  have held : ∀ other found, next.Queued other found →
      queues.Queued other found ∨ found = after := by
    rintro other found (running | resting)
    · exact (started other found running).imp Or.inl And.left
    · exact (waiting other found resting).imp Or.inr And.left
  exact {
    heads := fun other found there mine same => by
      rcases waiting other found there with there | ⟨rfl, resting⟩
      · exact placed.heads other found there mine same
      · rw [alike.stray] at mine
        rw [alike.mediaId, alike.firstSeq] at same
        obtain ⟨bytes, first, carries⟩ := placed.heads id copy resting mine same
        exact ⟨bytes, head bytes first, carries⟩
    own := fun other found there bytes member carries => by
      rcases held other found there with there | rfl
      · exact placed.own other found there bytes member carries
      · rw [alike.stray, alike.mediaId, alike.firstSeq]
        exact own bytes member carries
    firsts := fun other found there mine => by
      rcases held other found there with there | rfl
      · exact placed.firsts other found there mine
      · rw [alike.stray] at mine
        rw [alike.mediaId, alike.firstSeq]
        exact placed.firsts id copy queued mine
    running := fun other found there mine same => by
      rcases started other found there with there | ⟨rfl, running⟩
      · exact placed.running other found there mine same
      · rw [alike.stray] at mine
        rw [alike.mediaId, alike.firstSeq] at same
        exact placed.running id copy running mine same
    sent := fun known => placed.sent (past ▸ known)
    starts := fun seq fate known => placed.starts seq fate (past ▸ known)
    audio := fun bytes holds => placed.audio bytes (audio ▸ holds) }

theorem Placed.pushFragment (placed : queues.Placed units unit begun)
    (consistent : queues.Consistent) (id : Nat) {packet : Packet} (now : Instant)
    (own : ∀ copy, queues.Queued id copy → units.Carries unit packet.bytes →
      copy.stray = false ∧ (copy.mediaId, copy.firstSeq) = unit) :
    (queues.pushFragment id packet now).Placed units unit begun := by
  unfold Queues.pushFragment
  split
  · exact placed
  · rename_i copy found
    split
    · exact placed.sheds (Sheds.dropUnit consistent id)
    · have queued := VideoQueues.queued_of_unit found
      have joined : ∀ bytes ∈ copy.packets ++ [packet.bytes], units.Carries unit bytes →
          begun ∨ (copy.stray = false ∧ (copy.mediaId, copy.firstSeq) = unit) := by
        intro bytes member carries
        rcases List.mem_append.mp member with member | last
        · exact placed.own id copy queued bytes member carries
        · cases List.mem_singleton.mp last
          exact Or.inr (own copy queued carries)
      let after : VideoUnit :=
        { copy with
          packets := copy.packets ++ [packet.bytes]
          received := copy.received + 1
          lastFragment := now
          complete := copy.complete || packet.header.flags.contains .last }
      have alike : copy.Same after := ⟨rfl, rfl, rfl, rfl⟩
      have head : ∀ bytes, copy.packets.head? = some bytes → after.packets.head? = some bytes := by
        intro bytes first
        show (copy.packets ++ [packet.bytes]).head? = some bytes
        rw [List.head?_append, first, Option.some_or]
      have put : ∀ (units : Map Nat VideoUnit) (other : Nat) (held : VideoUnit),
          units.lookup id = some copy → (units.insert id after).lookup other = some held →
          units.lookup other = some held ∨ (held = after ∧ units.lookup id = some copy) := by
        intro units other held here there
        rw [Map.lookup_insert_ite] at there
        split at there
        · exact Or.inr ⟨(Option.some.inj there).symm, here⟩
        · exact Or.inl there
      rcases Option.or_eq_some_iff.mp found with running | ⟨missing, resting⟩
      · rw [modifyUnit_started _ running]
        exact placed.grow queued alike head joined (fun other held => put _ other held running)
          (fun _ _ there => Or.inl there) rfl rfl
      · rw [modifyUnit_waiting _ missing resting]
        exact placed.grow queued alike head joined (fun _ _ there => Or.inl there)
          (fun other held => put _ other held resting) rfl rfl

/-- A packet that isn't misplaced joins its own unit, if it joins one. -/
theorem Placed.joins (placed : queues.Placed units unit begun) {packet : Packet} {now : Instant}
    {choice : MediaId} (sound : units.Sound packet)
    (late : packet.header.flags.contains .first = false)
    (apart : ¬ units.Misplaces unit queues (.push packet now choice)) {firstSeq : Nat} {fate : Fate}
    (found : queues.unitAt packet.header.mediaId packet.header.seq = some (firstSeq, fate))
    (kept : fate ≠ .dropped) (carries : units.Carries unit packet.bytes) :
    packet.header.mediaId = unit.1 ∧ firstSeq = unit.2 := by
  obtain ⟨header, parsed, name⟩ := carries
  cases sound.parsed.symm.trans parsed
  have track : packet.header.mediaId = unit.1 := congrArg Prod.fst name
  have start : units.start packet.header.mediaId packet.header.seq = unit.2 :=
    congrArg Prod.snd name
  refine ⟨track, ?_⟩
  have above : unit.2 ≤ firstSeq := by
    by_contra below
    exact apart ⟨name, late, (firstSeq, fate), found, not_le.mp below, kept⟩
  obtain ⟨known, below⟩ := VideoQueues.of_unitAt found
  have start' : units.start unit.1 firstSeq = unit.2 := by
    rw [track] at start
    rw [← start]
    exact units.start_between _ _ _ (start ▸ above) below
  by_contra different
  exact kept (placed.starts firstSeq fate (track ▸ known) start' different)

theorem Placed.pushVideo (placed : queues.Placed units unit begun)
    (consistent : queues.Consistent) {packet : Packet} (sound : units.Sound packet)
    (video : packet.kind = .video) {now : Instant} {choice : MediaId}
    (apart : ¬ units.Misplaces unit queues (.push packet now choice)) :
    (queues.pushVideo packet now).Placed units unit begun := by
  have active : Placed units unit begun
      { queues with activeTracks := insert packet.header.mediaId queues.activeTracks } :=
    placed.sheds (Sheds.of_eq rfl rfl)
  have kept : Consistent
      { queues with activeTracks := insert packet.header.mediaId queues.activeTracks } := consistent
  unfold Queues.pushVideo
  simp only
  split
  · rename_i first
    exact active.pushFirst sound video first now
  · rename_i late
    have late := Bool.eq_false_iff.mpr late
    split
    · rename_i firstSeq id found
      refine active.pushFragment kept id now fun copy queued carries => ?_
      obtain ⟨track, rfl⟩ := placed.joins sound late apart found Fate.noConfusion carries
      obtain ⟨past, there, known⟩ := VideoQueues.lookup_historyOf (VideoQueues.of_unitAt found).1
      obtain ⟨held, there, own, track', start⟩ := consistent.history _ past there _ id known
      cases VideoQueues.Consistent.unique consistent there queued
      exact ⟨own, Prod.ext (track'.trans track) start⟩
    · rename_i firstSeq found
      refine active.pushStray (fun carries => placed.sent ?_) now
      obtain ⟨track, rfl⟩ := placed.joins sound late apart found Fate.noConfusion carries
      exact track ▸ (VideoQueues.of_unitAt found).1
    · exact active
    · exact active

theorem Placed.push (placed : queues.Placed units unit begun) (consistent : queues.Consistent)
    (video : units.kind unit.1 = .video) {packet : Packet} {now : Instant} {choice : MediaId}
    (sound : units.Sound packet)
    (apart : ¬ units.Misplaces unit queues (.push packet now choice)) :
    (queues.push packet now choice).Placed units unit begun := by
  unfold Queues.push
  split
  · rename_i kind
    have other : ¬ units.Carries unit packet.bytes := by
      rintro ⟨header, parsed, name⟩
      cases sound.parsed.symm.trans parsed
      have track : packet.header.mediaId = unit.1 := congrArg Prod.fst name
      rw [← track, ← sound.kind, kind] at video
      cases video
    have held := fun bytes => @AudioQueues.holds_push queues.audio packet.header.mediaId choice
      bytes packet.bytes
    generalize queues.audio.push packet.header.mediaId packet.bytes choice = pushed at held
    obtain ⟨evicted, audio⟩ := pushed
    have queued : Placed units unit begun { queues with audio := audio } :=
      { placed with
        audio := fun bytes holds => by
          rcases held bytes holds with rfl | holds
          · exact other
          · exact placed.audio bytes holds }
    cases evicted with
    | none => exact queued
    | some lost => exact queued.sheds (Sheds.countDrop _ _)
  · rename_i kind
    exact placed.pushVideo consistent sound kind apart

/-! ### Departures -/

theorem Sheds.takeOff {id : Nat} {copy : VideoUnit} {bytes : Datagram} {rest : List Datagram}
    (found : queues.started.lookup id = some copy) (packets : copy.packets = bytes :: rest) :
    queues.Sheds (queues.takeOff id copy bytes rest) := by
  refine { Sheds.refl queues with started := fun other after there => ?_ }
  have there : (queues.started.insert id { copy with packets := rest }).lookup other = some after :=
    there
  rw [Map.lookup_insert_ite] at there
  split at there
  · rename_i same
    cases there
    refine ⟨copy, same ▸ found, ⟨rfl, rfl, rfl, rfl⟩, fun bytes member => ?_⟩
    rw [packets]
    exact List.mem_cons_of_mem _ member
  · exact (Sheds.refl queues).started other after there

/-- The first packet of a unit that starts is the unit's own. -/
theorem Placed.launch (placed : queues.Placed units unit begun) {id : Nat} {copy : VideoUnit}
    {bytes : Datagram} {rest : List Datagram} (found : queues.waiting.lookup id = some copy)
    (packets : copy.packets = bytes :: rest)
    (started : next.started = queues.started.insert id { copy with started := true })
    (waiting : next.waiting = queues.waiting.erase id) (history : next.history = queues.history)
    (audio : next.audio = queues.audio) :
    next.Placed units unit (begun ∨ units.Carries unit bytes) := by
  have past : next.historyOf unit.1 = queues.historyOf unit.1 := by
    rw [VideoQueues.historyOf, history, VideoQueues.historyOf]
  have running : ∀ other held, next.started.lookup other = some held →
      held = { copy with started := true } ∨ queues.started.lookup other = some held := by
    intro other held there
    rw [started, Map.lookup_insert_ite] at there
    split at there
    · exact Or.inl (Option.some.inj there).symm
    · exact Or.inr there
  have resting : ∀ other held, next.waiting.lookup other = some held →
      queues.waiting.lookup other = some held := by
    intro other held there
    rw [waiting, Map.lookup_erase_ite] at there
    split at there
    · cases there
    · exact there
  have queued : ∀ other held, next.Queued other held →
      held = { copy with started := true } ∨ queues.Queued other held := by
    rintro other held (there | there)
    · exact (running other held there).imp_right Or.inl
    · exact Or.inr (Or.inr (resting other held there))
  exact {
    heads := fun other held there => placed.heads other held (resting other held there)
    own := fun other held there packet member carries => by
      rcases queued other held there with rfl | there
      · exact (placed.own id copy (Or.inr found) packet member carries).imp_left Or.inl
      · exact (placed.own other held there packet member carries).imp_left Or.inl
    firsts := fun other held there mine => by
      rcases queued other held there with rfl | there
      · exact placed.firsts id copy (Or.inr found) mine
      · exact placed.firsts other held there mine
    running := fun other held there mine same => by
      rcases running other held there with rfl | there
      · obtain ⟨head, first, carries⟩ := placed.heads id copy found mine same
        rw [packets] at first
        cases first
        exact Or.inr carries
      · exact Or.inl (placed.running other held there mine same)
    sent := fun known => Or.inl (placed.sent (past ▸ known))
    starts := fun seq fate known => placed.starts seq fate (past ▸ known)
    audio := fun held holds => placed.audio held (audio ▸ holds) }

theorem Placed.start (placed : queues.Placed units unit begun) {id : Nat} {copy : VideoUnit}
    {bytes : Datagram} {rest : List Datagram} (started : queues.start = (some id, next))
    (found : next.started.lookup id = some copy) (packets : copy.packets = bytes :: rest) :
    next.Placed units unit (begun ∨ units.Carries unit bytes) := by
  unfold Queues.start at started
  split at started
  · cases started
    exact placed.mono Or.inl
  · split at started
    · cases started
    · rename_i first resting least
      obtain ⟨other, _, entry⟩ := Option.bind_eq_some_iff.mp least
      obtain ⟨_, held, same⟩ := Option.map_eq_some_iff.mp entry
      cases same
      have launched : ∀ last : Queues,
          last.started = queues.started.insert first { resting with started := true } →
          last.waiting = queues.waiting.erase first → last.history = queues.history →
          last.audio = queues.audio → last.started.lookup first = some copy →
          last.Placed units unit (begun ∨ units.Carries unit bytes) := by
        intro last started waiting history audio found
        rw [started, Finmap.lookup_insert] at found
        cases found
        exact placed.launch held packets started waiting history audio
      simp only at started
      split at started
      · cases started
        exact launched _ rfl rfl rfl rfl found
      · cases started
        exact launched _ rfl rfl rfl rfl found

/-- A unit to send from was queued before, with the packets it has. -/
theorem queued_start {id : Nat} {copy : VideoUnit} (started : queues.start = (some id, next))
    (found : next.started.lookup id = some copy) :
    ∃ before, queues.Queued id before ∧ before.Same copy ∧ copy.packets = before.packets := by
  unfold Queues.start at started
  split at started
  · cases started
    exact ⟨copy, Or.inl found, .refl _, rfl⟩
  · split at started
    · cases started
    · rename_i first resting least
      obtain ⟨other, _, entry⟩ := Option.bind_eq_some_iff.mp least
      obtain ⟨_, held, same⟩ := Option.map_eq_some_iff.mp entry
      cases same
      have alike : resting.Same { resting with started := true } := ⟨rfl, rfl, rfl, rfl⟩
      simp only at started
      split at started
      · cases started
        cases (Finmap.lookup_insert _).symm.trans found
        exact ⟨resting, Or.inr held, alike, rfl⟩
      · cases started
        cases (Finmap.lookup_insert _).symm.trans found
        exact ⟨resting, Or.inr held, alike, rfl⟩

/-- Starting a unit leaves the index of copies as it is. -/
theorem copies_start {id : Nat} (started : queues.start = (some id, next)) :
    next.copies = queues.copies := by
  unfold Queues.start at started
  split at started
  · cases started
    rfl
  · split at started
    · cases started
    · simp only at started
      split at started
      · cases started
        rfl
      · cases started
        rfl

/-- What a step does to what is known of a unit's packets: the unit is begun if the packet it
sends is one of its own, which was so only if it was begun or a copy of it queued. A copy is
queued only where the step restarts the unit. -/
structure Sends (units : Units) (unit : MediaId × Nat) (begun restarts : Prop) (queues : Queues)
    (outcome : Option Datagram × Queues) : Prop where
  placed : outcome.2.Placed units unit (begun ∨ ∃ bytes ∈ outcome.1, units.Carries unit bytes)
  own : ∀ bytes ∈ outcome.1, units.Carries unit bytes → begun ∨ ∃ id, Listed queues.copies unit id
  copies : ∀ id, Listed outcome.2.copies unit id → restarts ∨ Listed queues.copies unit id

theorem Placed.popVideo (placed : queues.Placed units unit begun) (consistent : queues.Consistent) :
    queues.Sends units unit begun False queues.popVideo := by
  rcases consistent.popVideo_cases with
    same | ⟨id, next, copy, bytes, rest, started, found, packets, taken, same⟩
  · rw [same]
    exact {
      placed := placed.mono Or.inl
      own := fun _ sent => by cases sent
      copies := fun _ listed => Or.inr listed }
  · have sheds : next.Sheds queues.popVideo.2 := by
      have running : (next.takeOff id copy bytes rest).started.lookup id =
          some { copy with packets := rest } := Finmap.lookup_insert _
      rw [same]
      simp only
      split
      · refine (Sheds.takeOff found packets).trans (Sheds.finish taken id (Or.inr ⟨rfl, ?_⟩))
        intro after found
        rw [VideoQueues.unit, running, Option.some_or] at found
        exact running.trans found
      · exact Sheds.takeOff found packets
    have ready := placed.start started found packets
    have carried : ∀ other ∈ queues.popVideo.1, other = bytes := by
      rw [same]
      exact fun other sent => (Option.mem_some.mp sent).symm
    have there : bytes ∈ queues.popVideo.1 := by
      rw [same]
      rfl
    have listed := copies_start started
    exact {
      placed := (ready.sheds sheds).mono fun known => known.imp_right fun carries =>
        ⟨bytes, there, carries⟩
      own := fun other sent carries => by
        rw [carried other sent] at carries
        obtain ⟨before, queued, alike, same⟩ := queued_start started found
        have member : bytes ∈ before.packets := by
          rw [← same, packets]
          exact List.mem_cons_self
        exact (placed.own id before queued bytes member carries).imp_right fun mine =>
          ⟨id, (consistent.copies unit id).mpr ⟨before, queued, mine⟩⟩
      copies := fun other there => Or.inr (listed ▸ sheds.copies unit other there) }

theorem Placed.pop (placed : queues.Placed units unit begun) (consistent : queues.Consistent) :
    queues.Sends units unit begun False queues.pop := by
  have held := fun bytes => @AudioQueues.holds_pop queues.audio bytes
  unfold Queues.pop
  generalize queues.audio.pop = popped at held
  obtain ⟨served, audio⟩ := popped
  have left : Placed units unit begun { queues with audio := audio } :=
    { placed with audio := fun bytes holds => placed.audio bytes ((held bytes).1 holds) }
  cases served with
  | none =>
    have same : Consistent { queues with audio := audio } := consistent
    exact { left.popVideo same with }
  | some served =>
    obtain ⟨mediaId, bytes⟩ := served
    have counted : Placed units unit begun
        ({ queues with audio := audio }.countForwarded mediaId) := left.sheds (Sheds.of_eq rfl rfl)
    exact {
      placed := counted.mono Or.inl
      own := fun other sent carries => by
        cases Option.mem_some.mp sent
        exact absurd carries (placed.audio bytes ((held bytes).2 mediaId rfl))
      copies := fun _ listed => Or.inr listed }

/-! ### The budget and the units being sent -/

/-- One round of the checks of the budget. -/
def Round (now : Instant) (queues next : Queues) : Prop :=
  queues.dropLate now = some next ∨ queues.dropExcess = some next

theorem mem_started_finish {id victim : Nat} {fate : Fate} (member : id ∈ queues.started.keys)
    (other : id ≠ victim) : id ∈ (queues.finish victim fate).started.keys := by
  unfold finish
  split
  · exact member
  · show id ∈ (queues.started.erase victim).keys
    rw [Finmap.keys_erase]
    exact Finset.mem_erase.mpr ⟨other, member⟩

theorem mem_started_dropUnit {id victim : Nat} (member : id ∈ queues.started.keys)
    (other : id ≠ victim) : id ∈ (queues.dropUnit victim).started.keys := by
  unfold dropUnit
  split
  · exact member
  · have finished : id ∈ (queues.finish victim .dropped).started.keys :=
      mem_started_finish member other
    unfold countUnit modifyUnit
    split
    · split
      · show id ∈ Finmap.keys (Map.modify _ _ _)
        rw [Map.keys_modify]
        exact finished
      · exact finished
    · split
      · exact finished
      · exact finished

theorem waiting_of_unstartedVictim {victim : Nat} (found : queues.unstartedVictim = some victim) :
    victim ∈ queues.waiting.keys := by
  unfold unstartedVictim at found
  rcases Option.or_eq_some_iff.mp found with stray | ⟨-, first⟩
  · have kept : ¬ (decide (victim ∉ queues.waiting)) = true := by
      have test := List.head?_dropWhile_not (fun id => decide (id ∉ queues.waiting)) queues.strays
      have stray : (queues.strays.dropWhile fun id => decide (id ∉ queues.waiting)).head? =
          some victim := stray
      rw [stray] at test
      simpa using test
    rw [decide_eq_true_eq, not_not] at kept
    exact Finmap.mem_keys.mpr kept
  · obtain ⟨unit, there⟩ := (Map.firstKey_eq_some first).1
    exact (Map.mem_keys_iff _ _).mpr ⟨unit, there⟩

/-- A started unit is dropped only where nothing waits and the queued bytes exceed the cap. -/
theorem Consistent.round_started (consistent : queues.Consistent) {now : Instant} {id : Nat}
    (round : Round now queues next) (member : id ∈ queues.started.keys)
    (dropped : id ∉ next.started.keys) :
    next = queues.skipStrays.dropUnit id ∧ queues.waiting = ∅ ∧
      maxQueuedVideoBytes < queues.videoBytes := by
  have running : ∀ victim ∈ queues.waiting.keys, id ≠ victim := by
    rintro victim waiting rfl
    exact lt_irrefl id (consistent.older id member id waiting)
  rcases round with late | excess
  · unfold Queues.dropLate at late
    split at late
    · obtain ⟨victim, found, rfl⟩ := Option.map_eq_some_iff.mp late
      have kept : id ∈ queues.skipStrays.started.keys := member
      exact absurd (mem_started_dropUnit kept (running victim (waiting_of_unstartedVictim found)))
        dropped
    · cases late
  · unfold Queues.dropExcess at excess
    split at excess
    · rename_i much
      obtain ⟨victim, found, rfl⟩ := Option.map_eq_some_iff.mp excess
      have kept : id ∈ queues.skipStrays.started.keys := member
      have same : id = victim := by
        by_contra other
        exact dropped (mem_started_dropUnit kept other)
      rcases Option.or_eq_some_iff.mp found with unstarted | ⟨none, -⟩
      · exact absurd same (running victim (waiting_of_unstartedVictim unstarted))
      · unfold unstartedVictim at none
        exact ⟨by rw [same], Map.firstKey_eq_none.mp (Option.or_eq_none_iff.mp none).2, much⟩
    · cases excess

theorem Consistent.rounds (consistent : queues.Consistent) {now : Instant}
    (steps : Relation.ReflTransGen (Round now) queues last) : last.Consistent := by
  induction steps with
  | refl => exact consistent
  | tail _ round inductionHypothesis =>
    rcases round with late | excess
    · exact inductionHypothesis.dropLate late
    · exact inductionHypothesis.dropExcess excess

/-- Every started unit that `enforceBudget` drops is dropped in a round before which nothing
waits and the queued bytes exceed the cap. -/
theorem Consistent.enforceBudget_started (consistent : queues.Consistent) {now : Instant} {id : Nat}
    (member : id ∈ (queues.giveUpIdleUnits now).started.keys)
    (dropped : id ∉ (queues.enforceBudget now).started.keys) :
    ∃ between, Relation.ReflTransGen (Round now) (queues.giveUpIdleUnits now) between ∧
      id ∈ between.started.keys ∧ Round now between (between.skipStrays.dropUnit id) ∧
      between.waiting = ∅ ∧ maxQueuedVideoBytes < between.videoBytes := by
  have dropped : id ∉ ((queues.giveUpIdleUnits now).dropAllLate now).dropAllExcess.started.keys := by
    unfold Queues.enforceBudget at dropped
    simp only at dropped
    split at dropped
    · exact dropped
    · exact dropped
  have start := consistent.giveUpIdleUnits now
  have late : ∀ before after, Relation.ReflTransGen
      (fun queues next => Queues.dropLate queues now = some next) before after →
      Relation.ReflTransGen (Round now) before after := fun before after steps =>
    Relation.ReflTransGen.mono (fun _ _ => Or.inl) before after steps
  have excess : ∀ before after, Relation.ReflTransGen
      (fun queues next => Queues.dropExcess queues = some next) before after →
      Relation.ReflTransGen (Round now) before after := fun before after steps =>
    Relation.ReflTransGen.mono (fun _ _ => Or.inr) before after steps
  have found : ∃ between next, Relation.ReflTransGen (Round now) (queues.giveUpIdleUnits now) between ∧
      Round now between next ∧ id ∈ between.started.keys ∧ id ∉ next.started.keys := by
    by_cases kept : id ∈ ((queues.giveUpIdleUnits now).dropAllLate now).started.keys
    · obtain ⟨between, next, steps, round, rest⟩ :=
        loop_changes (fun queues : Queues => id ∈ queues.started.keys) kept dropped
      exact ⟨between, next, (late _ _ (loop_steps _ _ _)).trans (excess _ _ steps), Or.inr round,
        rest⟩
    · obtain ⟨between, next, steps, round, rest⟩ :=
        loop_changes (fun queues : Queues => id ∈ queues.started.keys) member kept
      exact ⟨between, next, late _ _ steps, Or.inl round, rest⟩
  obtain ⟨between, next, steps, round, running, gone⟩ := found
  obtain ⟨rfl, empty, much⟩ := (start.rounds steps).round_started round running gone
  exact ⟨between, steps, running, round, empty, much⟩

/-! ### Runs -/

/-- A push queues a copy only of the unit whose first packet arrives. -/
theorem listed_push {packet : Packet} {now : Instant} {choice : MediaId} {id : Nat}
    (consistent : queues.Consistent) (sound : units.Sound packet)
    (listed : Listed (queues.push packet now choice).copies unit id) :
    units.Restarts unit (.push packet now choice) ∨ Listed queues.copies unit id := by
  unfold Queues.push at listed
  split at listed
  · generalize queues.audio.push packet.header.mediaId packet.bytes choice = pushed at listed
    obtain ⟨evicted, audio⟩ := pushed
    cases evicted with
    | none => exact Or.inr listed
    | some lost => exact Or.inr listed
  · rename_i video
    unfold Queues.pushVideo at listed
    simp only at listed
    split at listed
    · rename_i first
      have alone := (sound.first video).mp first
      have added : Listed (addCopy queues.copies (packet.header.mediaId, packet.header.seq)
        queues.nextId) unit id := listed
      rcases (listed_addCopy _ _ _ _ _).mp added with ⟨same, -⟩ | listed
      · refine Or.inl ⟨?_, first⟩
        rw [Units.unitOf, alone, same]
      · exact Or.inr listed
    · refine Or.inr ?_
      split at listed
      · rename_i firstSeq other found
        unfold Queues.pushFragment at listed
        split at listed
        · exact listed
        · rename_i copy there
          split at listed
          · have kept : Consistent { queues with
              activeTracks := insert packet.header.mediaId queues.activeTracks } := consistent
            exact (Sheds.dropUnit kept other).copies unit id listed
          · rcases Option.or_eq_some_iff.mp there with running | ⟨missing, resting⟩
            · rw [modifyUnit_started _ running] at listed
              exact listed
            · rw [modifyUnit_waiting _ missing resting] at listed
              exact listed
      · exact listed
      · exact listed
      · exact listed

/-- What one step does to what is known of a unit's packets. -/
theorem Placed.step (placed : queues.Placed units unit begun) (consistent : queues.Consistent)
    (video : units.kind unit.1 = .video) {input : Input} (allowed : units.Allows input)
    (apart : ¬ units.Misplaces unit queues input) :
    queues.Sends units unit begun (units.Restarts unit input) (queues.apply input) := by
  have kept : ∀ next, queues.Sheds next →
      queues.Sends units unit begun (units.Restarts unit input) (none, next) := fun next sheds => {
    placed := (placed.sheds sheds).mono Or.inl
    own := fun _ sent => by cases sent
    copies := fun id listed => Or.inr (sheds.copies unit id listed) }
  cases input with
  | push packet now choice =>
    exact {
      placed := (placed.push consistent video allowed apart).mono Or.inl
      own := fun _ sent => by cases sent
      copies := fun _ listed => listed_push consistent allowed listed }
  | lose lost => exact kept _ (Sheds.lose consistent lost)
  | enforceBudget now => exact kept _ (Sheds.enforceBudget consistent now)
  | forgetQuietTracks => exact kept _ (Sheds.forgetQuietTracks queues)
  | takeStats => exact kept _ (Sheds.of_eq rfl rfl)
  | pop => exact placed.pop consistent

theorem placed_empty : ({} : Queues).Placed units unit begun where
  heads := by simp
  own := by simp [VideoQueues.Queued]
  firsts := by simp [VideoQueues.Queued]
  running := by simp
  sent := by simp [VideoQueues.historyOf]
  starts := by simp [VideoQueues.historyOf]
  audio := by simp [AudioQueues.Holds]

/-- What is known of a unit's packets after a run, in which it begins once one of them is
sent. -/
theorem Placed.run (placed : queues.Placed units unit begun) (consistent : queues.Consistent)
    (video : units.kind unit.1 = .video) {inputs : List Input}
    (allowed : ∀ input ∈ inputs, units.Allows input)
    (apart : Along Queues.step (fun queues input => ¬ units.Misplaces unit queues input) queues inputs) :
    (Throcc.run Queues.step queues inputs).Placed units unit
      (begun ∨ ∃ bytes ∈ Queues.sent queues inputs, units.Carries unit bytes) := by
  induction inputs generalizing queues begun with
  | nil => exact placed.mono Or.inl
  | cons input rest inductionHypothesis =>
    have next := placed.step consistent video (allowed input List.mem_cons_self) apart.1
    refine (inductionHypothesis next.placed (consistent.step input)
      (fun other member => allowed other (List.mem_cons_of_mem _ member)) apart.2).mono ?_
    rintro ((earlier | ⟨bytes, there, carries⟩) | ⟨bytes, there, carries⟩)
    · exact Or.inl earlier
    · exact Or.inr ⟨bytes, List.mem_append_left _ (Option.mem_toList.mpr there), carries⟩
    · exact Or.inr ⟨bytes, List.mem_append_right _ there, carries⟩

/-- A unit that isn't begun and has no copy queued stays unsent until its first packet
arrives. -/
theorem Placed.run_unsent (placed : queues.Placed units unit False)
    (consistent : queues.Consistent) (video : units.kind unit.1 = .video) {inputs : List Input}
    (allowed : ∀ input ∈ inputs, units.Allows input)
    (apart : Along Queues.step (fun queues input => ¬ units.Misplaces unit queues input) queues inputs)
    (gone : ∀ id, ¬ Listed queues.copies unit id)
    (fresh : ∀ input ∈ inputs, ¬ units.Restarts unit input) :
    ∀ bytes ∈ Queues.sent queues inputs, ¬ units.Carries unit bytes := by
  induction inputs generalizing queues with
  | nil => simp [Queues.sent]
  | cons input rest inductionHypothesis =>
    have next := placed.step consistent video (allowed input List.mem_cons_self) apart.1
    have silent : ∀ bytes ∈ (queues.apply input).1, ¬ units.Carries unit bytes := by
      intro bytes there carries
      rcases next.own bytes there carries with begun | ⟨id, listed⟩
      · exact begun
      · exact gone id listed
    intro bytes member
    rcases List.mem_append.mp member with here | later
    · exact silent bytes (Option.mem_toList.mp here)
    · refine inductionHypothesis (next.placed.mono ?_) (consistent.step input)
        (fun other member => allowed other (List.mem_cons_of_mem _ member)) apart.2 ?_
        (fun other member => fresh other (List.mem_cons_of_mem _ member)) bytes later
      · rintro (begun | ⟨bytes, there, carries⟩)
        · exact begun
        · exact silent bytes there carries
      · intro id listed
        rcases next.copies id listed with restarts | listed
        · exact fresh input List.mem_cons_self restarts
        · exact gone id listed

/-- In every run in which no packet of a video unit is misplaced: once no copy of the unit is
queued and none of its packets was sent, none is sent until its first packet arrives again. And
in every run `enforceBudget` drops a started unit only in a round before which nothing waits
and the queued bytes exceed the cap. -/
theorem run_wholeUnits (units : Units) (unit : MediaId × Nat) (video : units.kind unit.1 = .video) :
    (∀ before after : List Input, (∀ input ∈ before ++ after, units.Allows input) →
      Along step (fun queues input => ¬ units.Misplaces unit queues input) {} (before ++ after) →
      (∀ bytes ∈ sent {} before, ¬ units.Carries unit bytes) →
      (∀ id, ¬ Listed (run step {} before).copies unit id) →
      (∀ input ∈ after, ¬ units.Restarts unit input) →
      ∀ bytes ∈ sent (run step {} before) after, ¬ units.Carries unit bytes) ∧
    ∀ (inputs : List Input) (now : Instant), let queues := run step {} inputs
      ∀ id ∈ (queues.giveUpIdleUnits now).started.keys,
        id ∉ (queues.enforceBudget now).started.keys → ∃ between,
          Relation.ReflTransGen (Round now) (queues.giveUpIdleUnits now) between ∧
          id ∈ between.started.keys ∧ Round now between (between.skipStrays.dropUnit id) ∧
          between.waiting = ∅ ∧ maxQueuedVideoBytes < between.videoBytes := by
  constructor
  · intro before after allowed apart unsent gone fresh
    rw [Along.append] at apart
    rw [List.forall_mem_append] at allowed
    have start : ({} : Queues).Placed units unit False := placed_empty
    have placed := (start.run consistent_empty video allowed.1 apart.1).mono fun begun => by
      rcases begun with begun | ⟨bytes, member, carries⟩
      · exact begun
      · exact unsent bytes member carries
    exact placed.run_unsent (consistent_empty.run before) video allowed.2 apart.2 gone fresh
  · intro inputs now queues id member dropped
    exact (consistent_empty.run inputs).enforceBudget_started member dropped

/-- Two video units of track 1 that start at 0 and 2. -/
def twoUnits : Units where
  kind := fun _ => .video
  start := fun _ seq => if seq < 2 then 0 else 2
  start_le := fun _ seq => by
    split
    · exact Nat.zero_le seq
    · rename_i late
      exact Nat.le_of_not_lt late
  start_between := fun _ seq other above below => by
    by_cases early : seq < 2
    · rw [if_pos early, if_pos (lt_of_le_of_lt below early)]
    · rw [if_neg early] at above
      rw [if_neg early, if_neg (Nat.not_lt.mpr above)]

/-- A packet of track 1. -/
def packetOf (seq : Nat) (flags : Flags) : Packet :=
  let header : Header := { mediaId := 1, epoch := 0, seq := seq, flags := flags }
  { kind := .video, header := header, bytes := header.encode }

/-- The first packet of the later unit arrives after its last, which has joined the earlier
unit and is sent with it once the later unit is dropped. -/
theorem run_wholeUnits_overtaken :
    let before : List Input := [.push (packetOf 0 .first) 0 0, .push (packetOf 3 .last) 0 0, .pop,
      .push (packetOf 2 .first) 0 0, .enforceBudget (fromMillis 200)]
    let after : List Input := [.pop]
    (∀ input ∈ before ++ after, twoUnits.Allows input) ∧
      (∀ bytes ∈ sent {} before, ¬ twoUnits.Carries (1, 2) bytes) ∧
      Listed (run step {} (before.take 4)).copies (1, 2) 1 ∧
      (∀ id, ¬ Listed (run step {} before).copies (1, 2) id) ∧
      (∀ input ∈ after, ¬ twoUnits.Restarts (1, 2) input) ∧
      ∃ bytes ∈ sent (run step {} before) after, twoUnits.Carries (1, 2) bytes := by
  intro before after
  have gone : (run step {} before).copies.lookup (1, 2) = none := by decide +kernel
  refine ⟨by decide, by decide +kernel, ⟨{1}, by decide +kernel, by decide⟩, ?_, by decide,
    by decide +kernel⟩
  rintro id ⟨ids, found, -⟩
  rw [gone] at found
  cases found

/-- In its order the later unit stays unsent. -/
theorem run_wholeUnits_inOrder :
    let before : List Input := [.push (packetOf 0 (.first ||| .last)) 0 0, .push (packetOf 2 .first) 0 0,
      .pop, .enforceBudget (fromMillis 200)]
    let after : List Input := [.push (packetOf 3 .last) 0 0, .pop]
    ∀ bytes ∈ sent (run step {} before) after, ¬ twoUnits.Carries (1, 2) bytes := by
  intro before after
  have gone : (run step {} before).copies.lookup (1, 2) = none := by decide +kernel
  refine (run_wholeUnits twoUnits (1, 2) rfl).1 before after (by decide) (by decide +kernel)
    (by decide +kernel) ?_ (by decide)
  rintro id ⟨ids, found, -⟩
  rw [gone] at found
  cases found

end Queues

end Throcc
