/-
This file compares a video track's count of dropped units with the units whose
drop was counted and that were not queued again since. A unit's fate says
whether it was dropped, but a drop that isn't counted (of a copy of a unit sent
before, or while another copy is queued) leaves the same fate; so a packet that
starts the unit once more takes back the count of another unit.
-/

import Throcc.AudioTurns
import Throcc.Budget

namespace Throcc

/-! ### Fates -/

namespace VideoQueues

variable (video : VideoQueues)

/-- What a track's history says of a unit. -/
def fateOf (unit : MediaId × Nat) : Option Fate := (video.historyOf unit.1).lookup unit.2

/-- A copy of the unit waits to be started. -/
def Resting (unit : MediaId × Nat) : Prop :=
  ∃ id copy, video.waiting.lookup id = some copy ∧ copy.stray = false ∧
    (copy.mediaId, copy.firstSeq) = unit

variable {video}

theorem fateOf_of_history {next : VideoQueues} (same : next.history = video.history)
    (unit : MediaId × Nat) : next.fateOf unit = video.fateOf unit := by
  rw [fateOf, historyOf, same]
  rfl

/-- While there is room, recording a fate forgets no other. -/
theorem remember_eq {history : Map Nat Fate} (room : history.keys.card < historyLimit)
    (firstSeq : Nat) (fate : Fate) : remember history firstSeq fate = history.insert firstSeq fate := by
  have few : (Finmap.insert firstSeq fate history).keys.card ≤ historyLimit := by
    rw [Map.keys_insert]
    exact (Finset.card_insert_le _ _).trans room
  refine loop_of_ended ?_ _
  rw [forgetFirst, if_neg (not_lt.mpr few)]

end VideoQueues

namespace Queues

variable {queues next : Queues}

theorem fateOf_record {mediaId : MediaId}
    (room : (queues.historyOf mediaId).keys.card < historyLimit) (firstSeq : Nat) (fate : Fate)
    (unit : MediaId × Nat) : (queues.record mediaId firstSeq fate).fateOf unit =
      if unit = (mediaId, firstSeq) then some fate else queues.fateOf unit := by
  obtain ⟨track, seq⟩ := unit
  unfold VideoQueues.fateOf VideoQueues.historyOf Queues.record
  simp only [Map.lookup_insert_ite, VideoQueues.remember_eq room, Prod.mk.injEq]
  by_cases same : track = mediaId
  · subst same
    simp only [if_true, Option.getD_some, Map.lookup_insert_ite, true_and]
    rfl
  · simp [same]

/-- A fate names only a copy of its own unit. -/
theorem Consistent.named (consistent : queues.Consistent) {unit : MediaId × Nat} {id : Nat}
    (known : queues.fateOf unit = some (.queued id)) :
    ∃ copy, queues.Queued id copy ∧ copy.stray = false ∧ (copy.mediaId, copy.firstSeq) = unit := by
  obtain ⟨past, there, remembered⟩ := VideoQueues.lookup_historyOf known
  obtain ⟨copy, held, own, track, start⟩ := consistent.history unit.1 past there unit.2 id remembered
  exact ⟨copy, held, own, Prod.ext track start⟩

theorem Consistent.unit_of_queued (consistent : queues.Consistent) {id : Nat} {copy : VideoUnit}
    (held : queues.Queued id copy) : queues.unit id = some copy := by
  rcases held with running | resting
  · exact Option.or_eq_some_iff.mpr (Or.inl running)
  · refine Option.or_eq_some_iff.mpr (Or.inr ⟨?_, resting⟩)
    exact Option.eq_none_iff_forall_ne_some.mpr fun _ running => consistent.disjoint running resting

/-- A unit that leaves settles the fate that names it. -/
theorem Consistent.fateOf_finish (consistent : queues.Consistent) (id : Nat) (fate : Fate)
    (unit : MediaId × Nat) : (queues.finish id fate).fateOf unit =
      (queues.fateOf unit).map fun known => if known = .queued id then fate else known := by
  have others : (∀ copy, queues.unit id = some copy → (copy.mediaId, copy.firstSeq) ≠ unit) →
      queues.fateOf unit =
        (queues.fateOf unit).map fun known => if known = .queued id then fate else known := by
    intro elsewhere
    cases known : queues.fateOf unit with
    | none => rfl
    | some settled =>
      rw [Option.map_some, if_neg]
      rintro rfl
      obtain ⟨copy, held, -, same⟩ := consistent.named known
      exact elsewhere copy (consistent.unit_of_queued held) same
  cases found : queues.unit id with
  | none =>
    rw [← others fun copy there => by rw [found] at there; cases there]
    unfold Queues.finish
    rw [found]
  | some copy =>
    by_cases same : (copy.mediaId, copy.firstSeq) = unit
    · subst same
      unfold VideoQueues.fateOf VideoQueues.historyOf Queues.finish
      rw [found]
      simp only [Map.lookup_modify_self]
      cases queues.history.lookup copy.mediaId with
      | none => rfl
      | some past => exact Map.lookup_modify_self _ _ _
    · rw [← others fun other there => by cases found.symm.trans there; exact same]
      unfold VideoQueues.fateOf VideoQueues.historyOf Queues.finish
      rw [found]
      simp only [Map.lookup_modify]
      by_cases track : unit.1 = copy.mediaId
      · have start : unit.2 ≠ copy.firstSeq := fun start => same (Prod.ext track.symm start.symm)
        rw [if_pos track]
        cases known : queues.history.lookup unit.1 with
        | none => rfl
        | some past =>
          simp only [Option.map_some, Option.getD_some]
          rw [Map.lookup_modify, if_neg start]
      · rw [if_neg track]

end Queues

/-! ### The tracks of the audio queues -/

namespace AudioQueues

variable (audio : AudioQueues)

/-- Making room takes a packet of a queued track and queues no other. -/
theorem keys_evictFromLongest (choice : MediaId) :
    (∀ track, (audio.evictFromLongest choice).1 = some track → track ∈ audio.tracks.keys) ∧
      (audio.evictFromLongest choice).2.tracks.keys ⊆ audio.tracks.keys := by
  unfold evictFromLongest
  split
  · exact ⟨nofun, Finset.Subset.refl _⟩
  · rename_i mediaId chosen
    have member : mediaId ∈ audio.tracks.keys :=
      Finset.mem_of_mem_filter _ (longestTrack_eq_some chosen)
    simp only
    split
    · refine ⟨fun track same => by cases same; exact member, ?_⟩
      rw [Finmap.keys_erase]
      exact Finset.erase_subset _ _
    · refine ⟨fun track same => by cases same; exact member, ?_⟩
      rw [Map.keys_insert, Finset.insert_eq_of_mem member]

theorem keys_push (mediaId : MediaId) (bytes : Datagram) (choice : MediaId) :
    (∀ track, (audio.push mediaId bytes choice).1 = some track → track ∈ audio.tracks.keys) ∧
      (audio.push mediaId bytes choice).2.tracks.keys ⊆ insert mediaId audio.tracks.keys := by
  have evicted : (∀ track, (if maxQueuedAudio ≤ audio.len then audio.evictFromLongest choice
      else (none, audio)).1 = some track → track ∈ audio.tracks.keys) ∧
      (if maxQueuedAudio ≤ audio.len then audio.evictFromLongest choice
        else (none, audio)).2.tracks.keys ⊆ audio.tracks.keys := by
    split
    · exact audio.keys_evictFromLongest choice
    · exact ⟨nofun, Finset.Subset.refl _⟩
  unfold push
  generalize (if maxQueuedAudio ≤ audio.len then audio.evictFromLongest choice
    else (none, audio)) = outcome at evicted
  obtain ⟨lost, left⟩ := outcome
  simp only
  rw [Map.keys_insert]
  exact ⟨evicted.1, Finset.insert_subset_insert _ evicted.2⟩

theorem keys_pop : audio.pop.2.tracks.keys ⊆ audio.tracks.keys := by
  unfold pop
  split
  · exact Finset.Subset.refl _
  · split
    · exact Finset.Subset.refl _
    · exact Finset.Subset.refl _
    · rename_i mediaId turns _ bytes rest found
      split
      · rw [Finmap.keys_erase]
        exact Finset.erase_subset _ _
      · rw [Map.keys_insert, Finset.insert_eq_of_mem ((Map.mem_keys_iff _ _).mpr ⟨_, found⟩)]

end AudioQueues

namespace Queues

/-! ### Which drops are counted -/

/-- The dropped units a track's counters say. -/
def droppedUnits (queues : Queues) (mediaId : MediaId) : Nat :=
  ((queues.stats.lookup mediaId).getD {}).droppedUnits

/-- The unit counted when a queued unit is dropped. -/
def dropCounts (queues : Queues) (id : Nat) : Finset (MediaId × Nat) :=
  match queues.unit id with
  | none => ∅
  | some unit =>
    match (queues.finish id .dropped).twinOf unit with
    | some _ => ∅
    | none => if unit.stray || unit.copy then ∅ else {(unit.mediaId, unit.firstSeq)}

/-- The unit counted when a fragment is one too many for it. -/
def fragmentCounts (queues : Queues) (id : Nat) : Finset (MediaId × Nat) :=
  match queues.unit id with
  | none => ∅
  | some unit => if maxUnitFragments ≤ unit.received then queues.dropCounts id else ∅

/-- The unit counted when a packet arrives. -/
def pushCounts (queues : Queues) (packet : Packet) : Finset (MediaId × Nat) :=
  if packet.kind = .audio ∨ packet.header.flags.contains .first = true then ∅
  else
    let queues :=
      { queues with activeTracks := insert packet.header.mediaId queues.activeTracks }
    match queues.unitAt packet.header.mediaId packet.header.seq with
    | some (_, .queued id) => queues.fragmentCounts id
    | some (_, .sent) | some (_, .dropped) | none => ∅

/-- The unit counted when a packet is lost. -/
def loseCounts (queues : Queues) (lost : Lost) : Finset (MediaId × Nat) :=
  if lost.kind = .audio then ∅
  else
    let queues :=
      { queues with
        activeTracks := insert lost.mediaId queues.activeTracks
        history := queues.history.insert lost.mediaId (queues.historyOf lost.mediaId) }
    if lost.first then
      if lost.seq ∈ (queues.historyOf lost.mediaId).keys then ∅ else {(lost.mediaId, lost.seq)}
    else
      match queues.unitAt lost.mediaId lost.seq with
      | some (_, .queued id) => queues.dropCounts id
      | some (firstSeq, .sent) => {(lost.mediaId, firstSeq)}
      | some (_, .dropped) => ∅
      | none => {(lost.mediaId, lost.seq)}

/-- The unit counted in a round of dropping what waits too long. -/
def lateCounts (queues : Queues) : Finset (MediaId × Nat) :=
  queues.unstartedVictim.elim ∅ queues.skipStrays.dropCounts

/-- The unit counted in a round of dropping what is too much. -/
def excessCounts (queues : Queues) : Finset (MediaId × Nat) :=
  (queues.unstartedVictim.or queues.started.firstKey).elim ∅ queues.skipStrays.dropCounts

/-- The units counted in a check of the budget, round by round. -/
def budgetCounts (queues : Queues) (now : Instant) : Finset (MediaId × Nat) :=
  let idle := queues.giveUpIdleUnits now
  let inTime := idle.dropAllLate now
  let late := (loop
    (beside (fun queues => dropLate queues now) fun queues counted => counted ∪ queues.lateCounts)
    idle.unitCount (idle, ∅)).2
  (loop (beside dropExcess fun queues counted => counted ∪ queues.excessCounts)
    inTime.unitCount (inTime, late)).2

/-- The units whose drop is counted in a step. -/
def counts (queues : Queues) : Input → Finset (MediaId × Nat)
  | .push packet _ _ => queues.pushCounts packet
  | .lose lost => queues.loseCounts lost
  | .enforceBudget now => queues.budgetCounts now
  | .forgetQuietTracks | .takeStats | .pop => ∅

/-- The unit an input queues, perhaps again. -/
def Input.requeues : Input → Finset (MediaId × Nat)
  | .push packet _ _ =>
    if packet.kind = .video ∧ packet.header.flags.contains .first = true then
      {(packet.header.mediaId, packet.header.seq)}
    else ∅
  | .lose _ | .enforceBudget _ | .forgetQuietTracks | .takeStats | .pop => ∅

end Queues

/-- The queues, and beside them the units whose drop was counted and that were not queued
again since. -/
structure Tally where
  queues : Queues := {}
  counted : Finset (MediaId × Nat) := ∅

namespace Tally

open Queues

variable (tally : Tally)

def step (tally : Tally) (input : Queues.Input) : Tally where
  queues := tally.queues.step input
  counted := (tally.counted \ input.requeues) ∪ tally.queues.counts input

/-- The count that stands beside a track's dropped units. -/
def countedOn (counted : Finset (MediaId × Nat)) (mediaId : MediaId) : Nat :=
  (counted.filter fun unit => unit.1 = mediaId).card

theorem queues_run (inputs : List Queues.Input) :
    (run step tally inputs).queues = run Queues.step tally.queues inputs := by
  induction inputs generalizing tally with
  | nil => rfl
  | cons input rest inductionHypothesis => exact inductionHypothesis (tally.step input)

/-- The packet starts a unit whose last drop wasn't counted, so that the count it takes back is
another unit's. -/
def TakesAnother (packet : Packet) : Prop :=
  let unit := (packet.header.mediaId, packet.header.seq)
  packet.kind = .video ∧ packet.header.flags.contains .first = true ∧
    tally.queues.fateOf unit = some .dropped ∧ unit ∉ tally.counted ∧
    tally.queues.droppedUnits packet.header.mediaId ≠ 0

instance (packet : Packet) : Decidable (tally.TakesAnother packet) :=
  inferInstanceAs (Decidable (_ ∧ _ ∧ _ ∧ _ ∧ _))

/-- Started units alone exceed the cap, and one of them is a copy of a unit that was sent or
whose drop was counted. -/
def DropsSettled : Prop :=
  maxQueuedVideoBytes < tally.queues.started.total VideoUnit.len ∧
    ∃ id ∈ tally.queues.started.keys, ∃ copy ∈ tally.queues.started.lookup id,
      copy.stray = false ∧
        (tally.queues.fateOf (copy.mediaId, copy.firstSeq) = some .sent ∨
          (copy.mediaId, copy.firstSeq) ∈ tally.counted)

instance : Decidable tally.DropsSettled := inferInstanceAs (Decidable (_ ∧ _))

/-- What a step must not do, beside a report, for the counts to agree: a media id is of one
kind, the history has room for another unit, no packet takes back the count of another unit,
no check of the budget may drop a copy of a settled unit, and no track with a counted unit is
forgotten. -/
def Fair (kind : MediaId → TrackKind) (tally : Tally) : Queues.Input → Prop
  | .push packet _ _ => kind packet.header.mediaId = packet.kind ∧
      (tally.queues.historyOf packet.header.mediaId).keys.card < historyLimit ∧
      ¬ tally.TakesAnother packet
  | .lose lost => kind lost.mediaId = lost.kind ∧
      (tally.queues.historyOf lost.mediaId).keys.card < historyLimit
  | .enforceBudget now => ¬ DropsSettled { tally with queues := tally.queues.giveUpIdleUnits now }
  | .forgetQuietTracks => ∀ unit ∈ tally.counted, unit.1 ∈ tally.queues.activeTracks ∨
      unit.1 ∈ tally.queues.units.map (·.mediaId)
  | .takeStats => False
  | .pop => True

instance (kind : MediaId → TrackKind) : ∀ input, Decidable (tally.Fair kind input)
  | .push _ _ _ => inferInstanceAs (Decidable (_ ∧ _ ∧ ¬ _))
  | .lose _ => inferInstanceAs (Decidable (_ ∧ _))
  | .enforceBudget _ => inferInstanceAs (Decidable (¬ _))
  | .forgetQuietTracks => inferInstanceAs (Decidable (∀ unit ∈ tally.counted, _ ∨ _))
  | .takeStats => .isFalse id
  | .pop => .isTrue trivial

/-! ### What holds of the counts -/

theorem countedOn_insert {counted : Finset (MediaId × Nat)} {unit : MediaId × Nat}
    (fresh : unit ∉ counted) (mediaId : MediaId) :
    countedOn (counted ∪ {unit}) mediaId =
      countedOn counted mediaId + if unit.1 = mediaId then 1 else 0 := by
  have absent : unit ∉ counted.filter fun unit => unit.1 = mediaId := fun member =>
    fresh (Finset.mem_filter.mp member).1
  unfold countedOn
  rw [Finset.union_singleton, Finset.filter_insert]
  split
  · exact Finset.card_insert_of_notMem absent
  · rfl

theorem countedOn_erase {counted : Finset (MediaId × Nat)} {unit : MediaId × Nat}
    (member : unit ∈ counted) (mediaId : MediaId) :
    countedOn (counted \ {unit}) mediaId =
      countedOn counted mediaId - if unit.1 = mediaId then 1 else 0 := by
  unfold countedOn
  rw [Finset.sdiff_singleton_eq_erase, Finset.filter_erase]
  split
  · rename_i same
    exact Finset.card_erase_of_mem (Finset.mem_filter.mpr ⟨member, same⟩)
  · rename_i elsewhere
    have absent : unit ∉ counted.filter fun unit => unit.1 = mediaId := fun there =>
      elsewhere (Finset.mem_filter.mp there).2
    rw [Finset.erase_eq_of_notMem absent]
    rfl

/-- A track's count is that of the units beside it: these were dropped, no copy of them waits, and
of every queued unit the history knows the latest copy. -/
structure Agrees (kind : MediaId → TrackKind) (queues : Queues)
    (counted : Finset (MediaId × Nat)) : Prop where
  consistent : queues.Consistent
  audio : ∀ mediaId ∈ queues.audio.tracks.keys, kind mediaId = .audio
  counts : ∀ mediaId, kind mediaId = .video →
    queues.droppedUnits mediaId = countedOn counted mediaId
  dropped : ∀ unit ∈ counted, queues.fateOf unit = some .dropped
  known : ∀ unit id, Listed queues.copies unit id → queues.fateOf unit ≠ none
  latest : ∀ unit id last, Listed queues.copies unit id →
    queues.fateOf unit = some (.queued last) → id ≤ last
  unsent : ∀ unit, queues.Resting unit → queues.fateOf unit ≠ some .sent
  resting : ∀ unit, queues.Resting unit → unit ∉ counted

variable {kind : MediaId → TrackKind} {queues next : Queues} {counted : Finset (MediaId × Nat)}

/-- Where the fates stay and nothing is queued. -/
theorem Agrees.frame (agrees : Agrees kind queues counted) (consistent : next.Consistent)
    (fates : ∀ unit, next.fateOf unit = queues.fateOf unit)
    (copies : ∀ unit id, Listed next.copies unit id → Listed queues.copies unit id)
    (resting : ∀ unit, next.Resting unit → queues.Resting unit)
    (drops : ∀ mediaId, kind mediaId = .video →
      next.droppedUnits mediaId = queues.droppedUnits mediaId)
    (audio : ∀ mediaId ∈ next.audio.tracks.keys, kind mediaId = .audio) :
    Agrees kind next counted where
  consistent := consistent
  audio := audio
  counts := fun mediaId video => (drops mediaId video).trans (agrees.counts mediaId video)
  dropped := fun unit member => (fates unit).trans (agrees.dropped unit member)
  known := fun unit id listed => by
    rw [fates]
    exact agrees.known unit id (copies unit id listed)
  latest := fun unit id last listed named => by
    rw [fates] at named
    exact agrees.latest unit id last (copies unit id listed) named
  unsent := fun unit rests => by
    rw [fates]
    exact agrees.unsent unit (resting unit rests)
  resting := fun unit rests => agrees.resting unit (resting unit rests)

theorem resting_of_sheds (sheds : queues.Sheds next) {unit : MediaId × Nat}
    (rests : next.Resting unit) : queues.Resting unit := by
  obtain ⟨id, copy, found, own, rfl⟩ := rests
  obtain ⟨before, here, alike, -⟩ := sheds.waiting id copy found
  exact ⟨id, before, here, alike.stray.symm.trans own, by rw [alike.mediaId, alike.firstSeq]⟩

theorem Agrees.listed_of_resting (agrees : Agrees kind queues counted) {unit : MediaId × Nat}
    (rests : queues.Resting unit) :
    ∃ id ∈ queues.waiting.keys, Listed queues.copies unit id := by
  obtain ⟨id, copy, found, own, same⟩ := rests
  exact ⟨id, (Map.mem_keys_iff _ _).mpr ⟨copy, found⟩,
    (VideoQueues.Consistent.copies agrees.consistent unit id).mpr ⟨copy, Or.inr found, own, same⟩⟩

/-- A unit leaves, sent only if it was started. -/
theorem Agrees.finish (agrees : Agrees kind queues counted) (id : Nat) {fate : Fate}
    (settles : fate = .dropped ∨
      (fate = .sent ∧ ∀ copy, queues.unit id = some copy → queues.started.lookup id = some copy)) :
    Agrees kind (queues.finish id fate) counted := by
  have consistent := agrees.consistent
  have settled : ∀ other, fate ≠ .queued other := by
    rintro other rfl
    rcases settles with same | ⟨same, -⟩
    · cases same
    · cases same
  have sheds := Sheds.finish consistent id settles
  have fates := consistent.fateOf_finish id fate
  have stats : (queues.finish id fate).stats = queues.stats := by
    unfold Queues.finish
    split
    · rfl
    · rfl
  exact {
    consistent := consistent.finish id settled
    audio := sheds.audio ▸ agrees.audio
    counts := fun mediaId video => by
      rw [droppedUnits, stats]
      exact agrees.counts mediaId video
    dropped := fun unit member => by
      rw [fates, agrees.dropped unit member]
      rfl
    known := fun unit other listed => by
      rw [fates, ne_eq, Option.map_eq_none_iff]
      exact agrees.known unit other (sheds.copies unit other listed)
    latest := fun unit other last listed named => by
      rw [fates] at named
      obtain ⟨before, named, same⟩ := Option.map_eq_some_iff.mp named
      split at same
      · exact absurd same (settled last)
      · exact agrees.latest unit other last (sheds.copies unit other listed) (same ▸ named)
    unsent := fun unit rests sent => by
      have rested := resting_of_sheds sheds rests
      rw [fates] at sent
      obtain ⟨before, was, same⟩ := Option.map_eq_some_iff.mp sent
      split at same
      · -- The unit that leaves is older than what waits, so a later copy would be named.
        rename_i named
        subst named
        obtain ⟨later, member, listed⟩ := agrees.listed_of_resting rested
        obtain ⟨copy, held, -⟩ := consistent.named was
        rcases settles with dropped | ⟨-, running⟩
        · exact Fate.noConfusion (dropped.symm.trans same)
        · have started := running copy (consistent.unit_of_queued held)
          have older := consistent.older id ((Map.mem_keys_iff _ _).mpr ⟨copy, started⟩) later member
          exact absurd (agrees.latest unit later id listed was) (not_le_of_gt older)
      · exact agrees.unsent unit rested (same ▸ was)
    resting := fun unit rests => agrees.resting unit (resting_of_sheds sheds rests) }

/-- Where no twin is found, no copy is listed. -/
theorem resting_of_no_twin (consistent : queues.Consistent) {copy : VideoUnit}
    (none : queues.twinOf copy = none) (id : Nat) :
    ¬ Listed queues.copies (copy.mediaId, copy.firstSeq) id := by
  rintro ⟨ids, found, member⟩
  obtain ⟨twin, least⟩ := Finset.min_of_mem member
  have listed : Listed queues.copies (copy.mediaId, copy.firstSeq) twin :=
    ⟨ids, found, Finset.mem_of_min least⟩
  obtain ⟨other, held, -⟩ := (VideoQueues.Consistent.copies consistent _ _).mp listed
  have first : (ids.min : Option Nat) = some twin := least
  unfold twinOf at none
  rw [found] at none
  have none : Option.filter (fun twin => (queues.unit twin).isSome) (ids.min : Option Nat) =
      Option.none := none
  rw [first, Option.filter_some, Consistent.unit_of_queued consistent held] at none
  cases none

theorem droppedUnits_countDrop (queues : Queues) (track mediaId : MediaId) :
    (queues.countDrop track).droppedUnits mediaId =
      queues.droppedUnits mediaId + if track = mediaId then 1 else 0 := by
  unfold droppedUnits countDrop Queues.count
  rw [Map.lookup_insert_ite]
  by_cases same : track = mediaId
  · rw [if_pos same.symm, if_pos same, same]
    rfl
  · rw [if_neg (Ne.symm same), if_neg same]
    rfl

/-- The drop of a unit is counted, of which no copy waits. -/
theorem Agrees.countDrop (agrees : Agrees kind queues counted) {unit : MediaId × Nat}
    (fresh : unit ∉ counted) (dropped : queues.fateOf unit = some .dropped)
    (gone : ¬ queues.Resting unit) : Agrees kind (queues.countDrop unit.1) (counted ∪ {unit}) where
  consistent := agrees.consistent
  audio := agrees.audio
  counts := fun mediaId video => by
    rw [droppedUnits_countDrop, countedOn_insert fresh, agrees.counts mediaId video]
  dropped := fun other member => by
    rcases Finset.mem_union.mp member with before | now
    · exact agrees.dropped other before
    · rw [Finset.mem_singleton.mp now]
      exact dropped
  known := agrees.known
  latest := agrees.latest
  unsent := agrees.unsent
  resting := fun other rests member => by
    rcases Finset.mem_union.mp member with before | now
    · exact agrees.resting other rests before
    · rw [Finset.mem_singleton.mp now] at rests
      exact gone rests

theorem fateOf_countUnit (queues : Queues) (copy : VideoUnit) (unit : MediaId × Nat) :
    (queues.countUnit copy).fateOf unit = queues.fateOf unit := by
  refine VideoQueues.fateOf_of_history ?_ unit
  unfold Queues.countUnit modifyUnit
  split
  · split
    · rfl
    · rfl
  · split
    · rfl
    · rfl

/-- A queued unit is dropped. Its fate, if no other copy is left to count, is that it was
dropped. -/
theorem Agrees.dropUnit (agrees : Agrees kind queues counted) (id : Nat)
    (unsettled : ∀ copy, queues.unit id = some copy → copy.stray = false →
      queues.fateOf (copy.mediaId, copy.firstSeq) ≠ some .sent ∧
        (copy.mediaId, copy.firstSeq) ∉ counted) :
    Agrees kind (queues.dropUnit id) (counted ∪ queues.dropCounts id) := by
  have consistent := agrees.consistent
  have finished := agrees.finish id (Or.inl rfl)
  unfold Queues.dropUnit dropCounts
  cases found : queues.unit id with
  | none =>
    rw [Finset.union_empty]
    exact agrees
  | some copy =>
    have counted := Consistent.countUnit finished.consistent copy
    have sheds := Sheds.countUnit (queues.finish id .dropped) copy
    simp only
    cases twin : (queues.finish id .dropped).twinOf copy with
    | some other =>
      rw [Finset.union_empty]
      refine finished.frame counted (fateOf_countUnit _ copy) sheds.copies
        (fun _ => resting_of_sheds sheds) (fun mediaId _ => ?_) (sheds.audio ▸ finished.audio)
      unfold Queues.countUnit modifyUnit
      rw [twin]
      simp only
      split
      · rfl
      · rfl
    | none =>
      unfold Queues.countUnit
      rw [twin]
      simp only
      split
      · rw [Finset.union_empty]
        exact finished
      · rename_i own
        rw [Bool.or_eq_true, not_or, Bool.not_eq_true] at own
        have left := resting_of_no_twin finished.consistent twin
        have listed : ∀ other, other ≠ id → Listed queues.copies (copy.mediaId, copy.firstSeq) other →
            Listed (queues.finish id .dropped).copies (copy.mediaId, copy.firstSeq) other := by
          intro other different listed
          rw [congrArg VideoQueues.copies (consistent.finish_eq found .dropped), VideoQueues.remove]
          simp only [own.1, Bool.false_eq_true, if_false]
          exact (listed_removeCopy _ _ _ _ _).mpr ⟨fun same => different same.2, listed⟩
        refine finished.countDrop (unsettled copy found own.1).2 ?_ ?_
        · rw [consistent.fateOf_finish]
          have held := (VideoQueues.Consistent.copies consistent _ id).mpr
            ⟨copy, VideoQueues.queued_of_unit found, own.1, rfl⟩
          cases known : queues.fateOf (copy.mediaId, copy.firstSeq) with
          | none => exact absurd known (agrees.known _ id held)
          | some fate =>
            cases fate with
            | queued other =>
              by_cases same : other = id
              · rw [same, Option.map_some, if_pos rfl]
              · obtain ⟨later, there, rest⟩ := consistent.named known
                exact absurd (listed other same
                  ((VideoQueues.Consistent.copies consistent _ other).mpr ⟨later, there, rest⟩))
                  (left other)
            | sent => exact absurd known (unsettled copy found own.1).1
            | dropped => rfl
        · intro rests
          obtain ⟨other, -, there⟩ := finished.listed_of_resting rests
          exact left other there

/-- What the history names is neither sent nor counted. -/
theorem Agrees.unsettled_of_named (agrees : Agrees kind queues counted) {unit : MediaId × Nat}
    {id : Nat} (named : queues.fateOf unit = some (.queued id)) (copy : VideoUnit)
    (found : queues.unit id = some copy) (_ : copy.stray = false) :
    queues.fateOf (copy.mediaId, copy.firstSeq) ≠ some .sent ∧
      (copy.mediaId, copy.firstSeq) ∉ counted := by
  obtain ⟨other, held, -, same⟩ := agrees.consistent.named named
  have only := VideoQueues.Consistent.unique agrees.consistent held (VideoQueues.queued_of_unit found)
  rw [only, same, named]
  refine ⟨nofun, fun member => ?_⟩
  have dropped := agrees.dropped unit member
  rw [named] at dropped
  cases dropped

/-! ### Arrivals -/

theorem resting_insert {unit : MediaId × Nat} {copy : VideoUnit}
    (waiting : next.waiting = queues.waiting.insert copy.id copy) (rests : next.Resting unit) :
    (copy.stray = false ∧ (copy.mediaId, copy.firstSeq) = unit) ∨ queues.Resting unit := by
  obtain ⟨id, held, found, own, same⟩ := rests
  rw [waiting, Map.lookup_insert_ite] at found
  split at found
  · cases found
    exact Or.inl ⟨own, same⟩
  · exact Or.inr ⟨id, held, found, own, same⟩

theorem droppedUnits_pushFirst (queues : Queues) (packet : Packet) (now : Instant)
    (mediaId : MediaId) : (queues.pushFirst packet now).droppedUnits mediaId =
      if queues.fateOf (packet.header.mediaId, packet.header.seq) = some .dropped ∧
          packet.header.mediaId = mediaId then
        queues.droppedUnits mediaId - 1
      else queues.droppedUnits mediaId := by
  have stats : (queues.pushFirst packet now).stats =
      if queues.fateOf (packet.header.mediaId, packet.header.seq) = some .dropped then
        (queues.count packet.header.mediaId fun counters =>
          { counters with droppedUnits := counters.droppedUnits - 1 }).stats
      else queues.stats := rfl
  unfold droppedUnits
  rw [stats]
  by_cases dropped : queues.fateOf (packet.header.mediaId, packet.header.seq) = some .dropped
  · rw [if_pos dropped]
    unfold Queues.count
    rw [Map.lookup_insert_ite]
    by_cases same : packet.header.mediaId = mediaId
    · rw [if_pos same.symm, if_pos ⟨dropped, same⟩, same]
      rfl
    · rw [if_neg (Ne.symm same), if_neg fun both => same both.2]
  · rw [if_neg dropped, if_neg fun both => dropped both.1]

/-- The start of a unit is queued. A count that is taken back is the unit's own, or the track's
count stays at zero. -/
theorem Agrees.pushFirst (agrees : Agrees kind queues counted) {packet : Packet} (now : Instant)
    (room : (queues.historyOf packet.header.mediaId).keys.card < historyLimit)
    (own : queues.fateOf (packet.header.mediaId, packet.header.seq) = some .dropped →
      (packet.header.mediaId, packet.header.seq) ∉ counted →
      queues.droppedUnits packet.header.mediaId = 0) :
    Agrees kind (queues.pushFirst packet now)
      (counted \ {(packet.header.mediaId, packet.header.seq)}) := by
  generalize same : (packet.header.mediaId, packet.header.seq) = unit at own ⊢
  have consistent := agrees.consistent
  have fates : ∀ other, (queues.pushFirst packet now).fateOf other =
      if other = unit then some (.queued queues.nextId) else queues.fateOf other := by
    intro other
    rw [← same]
    exact fateOf_record room packet.header.seq (.queued queues.nextId) other
  have copies : ∀ other id, Listed (queues.pushFirst packet now).copies other id →
      (other = unit ∧ id = queues.nextId) ∨ Listed queues.copies other id := by
    intro other id listed
    rw [← same]
    exact (listed_addCopy _ _ _ _ _).mp listed
  have rested : ∀ other, (queues.pushFirst packet now).Resting other →
      other = unit ∨ queues.Resting other := by
    intro other rests
    rcases resting_insert rfl rests with ⟨-, new⟩ | before
    · exact Or.inl (new.symm.trans same)
    · exact Or.inr before
  exact {
    consistent := consistent.pushFirst packet now
    audio := agrees.audio
    counts := fun mediaId isVideo => by
      rw [droppedUnits_pushFirst, agrees.counts mediaId isVideo, same]
      by_cases member : unit ∈ counted
      · rw [countedOn_erase member, agrees.dropped unit member, ← same]
        simp only [true_and]
        split
        · rfl
        · rfl
      · rw [Finset.sdiff_singleton_eq_erase, Finset.erase_eq_of_notMem member]
        split
        · rename_i both
          have none := own both.1 member
          rw [both.2, agrees.counts mediaId isVideo] at none
          rw [none]
        · rfl
    dropped := fun other member => by
      obtain ⟨member, different⟩ := Finset.mem_sdiff.mp member
      rw [fates, if_neg fun same => different (Finset.mem_singleton.mpr same)]
      exact agrees.dropped other member
    known := fun other id listed => by
      rw [fates]
      split
      · exact Option.some_ne_none _
      · rename_i different
        rcases copies other id listed with ⟨same, -⟩ | listed
        · exact absurd same different
        · exact agrees.known other id listed
    latest := fun other id last listed named => by
      rw [fates] at named
      rcases copies other id listed with ⟨rfl, rfl⟩ | listed
      · rw [if_pos rfl] at named
        cases named
        exact le_rfl
      · split at named
        · cases named
          obtain ⟨copy, held, -⟩ := (VideoQueues.Consistent.copies consistent other id).mp listed
          exact (consistent.known id copy held).2.le
        · exact agrees.latest other id last listed named
    unsent := fun other rests => by
      rw [fates]
      split
      · exact fun sent => by cases sent
      · rename_i different
        exact agrees.unsent other ((rested other rests).resolve_left different)
    resting := fun other rests member => by
      obtain ⟨member, different⟩ := Finset.mem_sdiff.mp member
      rcases rested other rests with same | before
      · exact different (Finset.mem_singleton.mpr same)
      · exact agrees.resting other before member }

theorem modifyUnit_keeps (queues : Queues) (id : Nat) (update : VideoUnit → VideoUnit) :
    (queues.modifyUnit id update).history = queues.history ∧
      (queues.modifyUnit id update).copies = queues.copies ∧
      (queues.modifyUnit id update).stats = queues.stats ∧
      (queues.modifyUnit id update).audio = queues.audio := by
  unfold modifyUnit
  split
  · exact ⟨rfl, rfl, rfl, rfl⟩
  · exact ⟨rfl, rfl, rfl, rfl⟩

theorem resting_modifyUnit {id : Nat} {update : VideoUnit → VideoUnit}
    (alike : ∀ copy : VideoUnit, copy.Same (update copy)) {unit : MediaId × Nat}
    (rests : (queues.modifyUnit id update).Resting unit) : queues.Resting unit := by
  obtain ⟨other, copy, found, own, rfl⟩ := rests
  unfold modifyUnit at found
  split at found
  · exact ⟨other, copy, found, own, rfl⟩
  · simp only at found
    rw [Map.lookup_modify] at found
    split at found
    · obtain ⟨before, here, rfl⟩ := Option.map_eq_some_iff.mp found
      have same := alike before
      exact ⟨other, before, here, same.stray.symm.trans own, by rw [same.mediaId, same.firstSeq]⟩
    · exact ⟨other, copy, found, own, rfl⟩

/-- A fragment joins the copy that the history names, or is one too many for it. -/
theorem Agrees.pushFragment (agrees : Agrees kind queues counted) {id : Nat} {packet : Packet}
    (now : Instant) {unit : MediaId × Nat} (named : queues.fateOf unit = some (.queued id)) :
    Agrees kind (queues.pushFragment id packet now) (counted ∪ queues.fragmentCounts id) := by
  have consistent := agrees.consistent.pushFragment id packet now
  have unsettled := agrees.unsettled_of_named named
  unfold Queues.pushFragment at consistent
  unfold Queues.pushFragment fragmentCounts
  cases found : queues.unit id with
  | none =>
    rw [Finset.union_empty]
    exact agrees
  | some copy =>
    rw [found] at consistent
    simp only at consistent ⊢
    split
    · exact agrees.dropUnit id unsettled
    · rename_i few
      rw [if_neg few] at consistent
      rw [Finset.union_empty]
      let update : VideoUnit → VideoUnit := fun unit =>
        { unit with
          packets := unit.packets ++ [packet.bytes]
          received := unit.received + 1
          lastFragment := now
          complete := unit.complete || packet.header.flags.contains .last }
      have alike : ∀ copy : VideoUnit, copy.Same (update copy) := fun _ => ⟨rfl, rfl, rfl, rfl⟩
      have keeps := modifyUnit_keeps queues id update
      exact agrees.frame consistent (VideoQueues.fateOf_of_history keeps.1)
        (fun _ _ listed => keeps.2.1 ▸ listed)
        (fun _ rests => resting_modifyUnit alike rests)
        (fun mediaId _ => congrArg (fun stats => ((Finmap.lookup mediaId stats).getD {}).droppedUnits)
          keeps.2.2.1)
        (keeps.2.2.2 ▸ agrees.audio)

theorem Agrees.pushVideo (agrees : Agrees kind queues counted) {packet : Packet} (now : Instant)
    (isVideo : packet.kind = .video)
    (room : (queues.historyOf packet.header.mediaId).keys.card < historyLimit)
    (own : packet.header.flags.contains .first = true →
      queues.fateOf (packet.header.mediaId, packet.header.seq) = some .dropped →
      (packet.header.mediaId, packet.header.seq) ∉ counted →
      queues.droppedUnits packet.header.mediaId = 0) (choice : MediaId) :
    Agrees kind (queues.pushVideo packet now)
      (counted \ (Input.push packet now choice).requeues ∪ queues.pushCounts packet) := by
  have active : Agrees kind
      { queues with activeTracks := insert packet.header.mediaId queues.activeTracks } counted :=
    agrees.frame agrees.consistent (fun _ => rfl) (fun _ _ listed => listed) (fun _ rests => rests)
      (fun _ _ => rfl) agrees.audio
  unfold Queues.pushVideo pushCounts Input.requeues
  simp only [isVideo, true_and, reduceCtorEq, false_or]
  split
  · rw [Finset.union_empty]
    exact active.pushFirst now room (own (by assumption))
  · rw [Finset.sdiff_empty]
    cases found : queues.unitAt packet.header.mediaId packet.header.seq with
    | none =>
      simp only [Finset.union_empty]
      exact active
    | some unit =>
      obtain ⟨start, fate⟩ := unit
      cases fate with
      | queued id =>
        have named : queues.fateOf (packet.header.mediaId, start) = some (.queued id) :=
          (VideoQueues.of_unitAt found).1
        exact active.pushFragment now named
      | sent =>
        simp only [Finset.union_empty]
        exact active.frame (active.consistent.pushStray packet now) (fun _ => rfl)
          (fun _ _ listed => listed)
          (fun _ rests => (resting_insert rfl rests).resolve_left fun stray => by cases stray.1)
          (fun _ _ => rfl) active.audio
      | dropped =>
        simp only [Finset.union_empty]
        exact active

/-- Audio packets count on audio tracks alone. -/
theorem Agrees.pushAudio (agrees : Agrees kind queues counted) {packet : Packet}
    (isAudio : packet.kind = .audio) (audio : kind packet.header.mediaId = .audio) (now : Instant)
    (choice : MediaId) : Agrees kind (queues.push packet now choice)
      (counted \ (Input.push packet now choice).requeues ∪ queues.pushCounts packet) := by
  have keys := queues.audio.keys_push packet.header.mediaId packet.bytes choice
  unfold Queues.push pushCounts Input.requeues
  simp only [isAudio, true_or, if_true, reduceCtorEq, false_and, if_false, Finset.sdiff_empty,
    Finset.union_empty]
  generalize queues.audio.push packet.header.mediaId packet.bytes choice = pushed at keys
  obtain ⟨evicted, left⟩ := pushed
  have tracks : ∀ mediaId ∈ left.tracks.keys, kind mediaId = .audio := by
    intro mediaId member
    rcases Finset.mem_insert.mp (keys.2 member) with rfl | before
    · exact audio
    · exact agrees.audio mediaId before
  have pushed : Agrees kind { queues with audio := left } counted :=
    agrees.frame agrees.consistent (fun _ => rfl) (fun _ _ listed => listed) (fun _ rests => rests)
      (fun _ _ => rfl) tracks
  cases evicted with
  | none => exact pushed
  | some track =>
    refine pushed.frame pushed.consistent (fun _ => rfl) (fun _ _ listed => listed)
      (fun _ rests => rests) (fun mediaId video => ?_) tracks
    have other : track ≠ mediaId := by
      rintro rfl
      rw [agrees.audio track (keys.1 track rfl)] at video
      cases video
    simp only [Option.elim]
    rw [droppedUnits_countDrop, if_neg other]
    rfl

/-! ### Losses -/

theorem unknown_of_keys {video : VideoQueues} {mediaId : MediaId} {seq : Nat}
    (unknown : seq ∉ (video.historyOf mediaId).keys) : video.fateOf (mediaId, seq) = none :=
  Finmap.lookup_eq_none.mpr fun member => unknown (Finmap.mem_keys.mpr member)

theorem unknown_of_unitAt {mediaId : MediaId} {seq : Nat}
    (none : queues.unitAt mediaId seq = none) : queues.fateOf (mediaId, seq) = Option.none := by
  refine unknown_of_keys fun member => ?_
  unfold VideoQueues.unitAt at none
  cases greatest : greatestIn (queues.historyOf mediaId).keys 0 seq with
  | none => exact greatestIn_eq_none.mp greatest seq member (Nat.zero_le seq) le_rfl
  | some first =>
    obtain ⟨fate, found⟩ := (Map.mem_keys_iff _ _).mp (greatestIn_eq_some.mp greatest).1.1
    rw [greatest, Option.bind_some, found] at none
    cases none

/-- A unit that is unknown or sent isn't counted, and no copy of it waits. -/
theorem Agrees.free (agrees : Agrees kind queues counted) {unit : MediaId × Nat}
    (settled : queues.fateOf unit = none ∨ queues.fateOf unit = some .sent) :
    unit ∉ counted ∧ ¬ queues.Resting unit := by
  constructor
  · intro member
    rw [agrees.dropped unit member] at settled
    rcases settled with none | sent
    · cases none
    · cases sent
  · intro rests
    obtain ⟨id, -, listed⟩ := agrees.listed_of_resting rests
    rcases settled with none | sent
    · exact agrees.known unit id listed none
    · exact agrees.unsent unit rests sent

/-- A unit is recorded as dropped and counted, of which no copy waits. -/
theorem Agrees.recordDrop (agrees : Agrees kind queues counted) {mediaId : MediaId} {seq : Nat}
    (room : (queues.historyOf mediaId).keys.card < historyLimit)
    (fresh : (mediaId, seq) ∉ counted) (gone : ¬ queues.Resting (mediaId, seq)) :
    Agrees kind ((queues.record mediaId seq .dropped).countDrop mediaId)
      (counted ∪ {(mediaId, seq)}) := by
  have fates := fateOf_record room seq .dropped
  have recorded : Agrees kind (queues.record mediaId seq .dropped) counted := {
    consistent := agrees.consistent.recordFate mediaId seq fun _ => Fate.noConfusion
    audio := agrees.audio
    counts := agrees.counts
    dropped := fun unit member => by
      rw [fates, agrees.dropped unit member, ite_self]
    known := fun unit id listed => by
      rw [fates]
      split
      · exact Option.some_ne_none _
      · exact agrees.known unit id listed
    latest := fun unit id last listed named => by
      rw [fates] at named
      split at named
      · cases named
      · exact agrees.latest unit id last listed named
    unsent := fun unit rests => by
      rw [fates]
      split
      · exact nofun
      · exact agrees.unsent unit rests
    resting := agrees.resting }
  exact recorded.countDrop fresh (by rw [fates, if_pos rfl]) gone

theorem Agrees.lose (agrees : Agrees kind queues counted) {lost : Lost}
    (ofKind : kind lost.mediaId = lost.kind)
    (room : (queues.historyOf lost.mediaId).keys.card < historyLimit) :
    Agrees kind (queues.lose lost) (counted ∪ queues.loseCounts lost) := by
  unfold Queues.lose loseCounts
  split
  · rename_i isAudio
    rw [Finset.union_empty]
    refine agrees.frame agrees.consistent (fun _ => rfl) (fun _ _ listed => listed)
      (fun _ rests => rests) (fun mediaId video => ?_) agrees.audio
    have other : lost.mediaId ≠ mediaId := by
      rintro rfl
      rw [ofKind, isAudio] at video
      cases video
    rw [droppedUnits_countDrop, if_neg other]
    rfl
  · have past : VideoQueues.historyOf
        { queues.toVideoQueues with
          history := queues.history.insert lost.mediaId (queues.historyOf lost.mediaId) }
        lost.mediaId = queues.historyOf lost.mediaId := by
      rw [VideoQueues.historyOf, Finmap.lookup_insert, Option.getD_some]
    have entered : Agrees kind
        { queues with
          activeTracks := insert lost.mediaId queues.activeTracks
          history := queues.history.insert lost.mediaId (queues.historyOf lost.mediaId) } counted := by
      refine agrees.frame (agrees.consistent.enter lost.mediaId) (fun unit => ?_)
        (fun _ _ listed => listed) (fun _ rests => rests) (fun _ _ => rfl) agrees.audio
      unfold VideoQueues.fateOf
      by_cases same : unit.1 = lost.mediaId
      · rw [same]
        exact congrArg (Finmap.lookup unit.2) past
      · unfold VideoQueues.historyOf
        rw [Map.lookup_insert_ite, if_neg same]
    rw [← past] at room
    simp only
    split
    · split
      · rw [Finset.union_empty]
        exact entered
      · rename_i unknown
        have free := entered.free (Or.inl (unknown_of_keys unknown))
        exact entered.recordDrop room free.1 free.2
    · cases found : VideoQueues.unitAt
          { queues.toVideoQueues with
            history := queues.history.insert lost.mediaId (queues.historyOf lost.mediaId) }
          lost.mediaId lost.seq with
      | none =>
        have free := entered.free (Or.inl (unknown_of_unitAt found))
        exact entered.recordDrop room free.1 free.2
      | some unit =>
        obtain ⟨start, fate⟩ := unit
        have fated : VideoQueues.fateOf _ (lost.mediaId, start) = some fate :=
          (VideoQueues.of_unitAt found).1
        cases fate with
        | queued id => exact entered.dropUnit id (entered.unsettled_of_named fated)
        | sent =>
          have free := entered.free (Or.inr fated)
          exact entered.recordDrop room free.1 free.2
        | dropped =>
          simp only [Finset.union_empty]
          exact entered

/-! ### The budget -/

theorem Agrees.giveUpIdleUnits (agrees : Agrees kind queues counted) (now : Instant) :
    Agrees kind (queues.giveUpIdleUnits now) counted := by
  have all : ∀ (ids : List Nat) (queues : Queues), Agrees kind queues counted →
      (∀ id ∈ ids, queues.waiting.lookup id = none) →
      Agrees kind (ids.foldl (fun queues id => queues.finish id .sent) queues) counted := by
    intro ids
    induction ids with
    | nil => exact fun _ agrees _ => agrees
    | cons id rest inductionHypothesis =>
      intro queues agrees running
      have started : ∀ copy, queues.unit id = some copy → queues.started.lookup id = some copy := by
        intro copy found
        rcases Option.or_eq_some_iff.mp found with started | ⟨-, resting⟩
        · exact started
        · rw [running id List.mem_cons_self] at resting
          cases resting
      refine inductionHypothesis _ (agrees.finish id (Or.inr ⟨rfl, started⟩)) fun other member => ?_
      have spares := Spares.finish (List.mem_singleton_self id) .sent
        (running id List.mem_cons_self)
      rw [spares.waiting]
      exact running other (List.mem_cons_of_mem _ member)
  unfold Queues.giveUpIdleUnits
  split
  · exact agrees
  · have checked : Agrees kind { queues with nextIdleCheck := some (now + idleCheck) } counted :=
      agrees.frame agrees.consistent (fun _ => rfl) (fun _ _ listed => listed)
        (fun _ rests => rests) (fun _ _ => rfl) agrees.audio
    refine all _ _ checked fun id member => ?_
    obtain ⟨unit, idle, same⟩ := List.mem_map.mp member
    obtain ⟨⟨key, held⟩, listed, rfl⟩ := List.mem_map.mp (List.mem_filter.mp idle).1
    have running := (Map.mem_toList _ _ _).mp listed
    refine Option.eq_none_iff_forall_ne_some.mpr fun other resting => ?_
    rw [← same, (agrees.consistent.known key held (Or.inl running)).1] at resting
    exact agrees.consistent.disjoint running resting

/-- Started units fit the cap, or none of them is a copy of a settled unit. -/
def Unsettled (queues : Queues) (counted : Finset (MediaId × Nat)) : Prop :=
  maxQueuedVideoBytes < queues.started.total VideoUnit.len →
    ∀ id copy, queues.started.lookup id = some copy → copy.stray = false →
      queues.fateOf (copy.mediaId, copy.firstSeq) ≠ some .sent ∧
        (copy.mediaId, copy.firstSeq) ∉ counted

theorem Unsettled.of_not {tally : Tally} (none : ¬ tally.DropsSettled) :
    Unsettled tally.queues tally.counted := by
  intro much id copy found own
  constructor
  · exact fun sent => none ⟨much, id, (Map.mem_keys_iff _ _).mpr ⟨copy, found⟩, copy, found, own,
      Or.inl sent⟩
  · exact fun member => none ⟨much, id, (Map.mem_keys_iff _ _).mpr ⟨copy, found⟩, copy, found, own,
      Or.inr member⟩

theorem total_started_dropUnit (queues : Queues) (id : Nat) :
    (queues.dropUnit id).started.total VideoUnit.len ≤ queues.started.total VideoUnit.len := by
  have finished : (queues.finish id .dropped).started.total VideoUnit.len ≤
      queues.started.total VideoUnit.len := by
    unfold Queues.finish
    split
    · exact le_rfl
    · show Map.total _ (queues.started.erase id) ≤ _
      cases found : queues.started.lookup id with
      | none => rw [Map.erase_of_missing found]
      | some copy =>
        have counted := copy.len_nonneg
        rw [Map.total_erase _ found]
        omega
  unfold Queues.dropUnit
  split
  · exact le_rfl
  · refine le_trans (le_of_eq ?_) finished
    unfold Queues.countUnit modifyUnit
    split
    · split
      · rename_i running
        obtain ⟨other, there⟩ := Finmap.mem_iff.mp running
        exact (Map.total_modify _ _ there).trans (sub_add_cancel _ _)
      · rfl
    · split
      · rfl
      · rfl

/-- No copy is left of a unit that is counted when one of them is dropped. -/
theorem Agrees.not_listed_of_counted (agrees : Agrees kind queues counted) {id : Nat}
    {unit : MediaId × Nat} (counts : unit ∈ queues.dropCounts id) (other : Nat) :
    ¬ Listed (queues.dropUnit id).copies unit other := by
  have finished := agrees.finish id (Or.inl rfl)
  unfold dropCounts at counts
  unfold Queues.dropUnit
  cases found : queues.unit id with
  | none =>
    rw [found] at counts
    cases counts
  | some copy =>
    rw [found] at counts
    simp only at counts ⊢
    intro listed
    have listed := (Sheds.countUnit (queues.finish id .dropped) copy).copies unit other listed
    cases twin : (queues.finish id .dropped).twinOf copy with
    | some _ =>
      rw [twin] at counts
      cases counts
    | none =>
      rw [twin] at counts
      simp only at counts
      split at counts
      · cases counts
      · rw [Finset.mem_singleton.mp counts] at listed
        exact resting_of_no_twin finished.consistent twin other listed

theorem fateOf_dropUnit (consistent : queues.Consistent) (id : Nat) {unit : MediaId × Nat}
    (sent : (queues.dropUnit id).fateOf unit = some .sent) : queues.fateOf unit = some .sent := by
  unfold Queues.dropUnit at sent
  split at sent
  · exact sent
  · rw [fateOf_countUnit, consistent.fateOf_finish] at sent
    obtain ⟨before, was, same⟩ := Option.map_eq_some_iff.mp sent
    split at same
    · cases same
    · rw [was, same]

theorem Unsettled.dropUnit (unsettled : Unsettled queues counted)
    (agrees : Agrees kind queues counted) (id : Nat)
    (consistent : (queues.dropUnit id).Consistent) :
    Unsettled (queues.dropUnit id) (counted ∪ queues.dropCounts id) := by
  intro much other copy found own
  obtain ⟨before, here, alike, -⟩ := (Sheds.dropUnit agrees.consistent id).started other copy found
  have settled := unsettled (much.trans_le (total_started_dropUnit queues id)) other before here
    (alike.stray.symm.trans own)
  rw [← alike.mediaId, ← alike.firstSeq] at settled
  refine ⟨fun sent => settled.1 (fateOf_dropUnit agrees.consistent id sent), fun member => ?_⟩
  rcases Finset.mem_union.mp member with before | now
  · exact settled.2 before
  · exact agrees.not_listed_of_counted now other
      ((VideoQueues.Consistent.copies consistent _ other).mpr ⟨copy, Or.inl found, own, rfl⟩)

theorem Agrees.skipStrays (agrees : Agrees kind queues counted) :
    Agrees kind queues.skipStrays counted :=
  agrees.frame agrees.consistent.skipStrays (fun _ => rfl) (fun _ _ listed => listed)
    (fun _ rests => rests) (fun _ _ => rfl) agrees.audio

/-- Dropping a unit that waits, or any if none of the started ones is settled. -/
theorem Agrees.dropVictim (agrees : Agrees kind queues counted)
    (unsettled : Unsettled queues counted) {victim : Nat}
    (may : victim ∈ queues.waiting.keys ∨
      maxQueuedVideoBytes < queues.started.total VideoUnit.len) :
    Agrees kind (queues.skipStrays.dropUnit victim)
        (counted ∪ queues.skipStrays.dropCounts victim) ∧
      Unsettled (queues.skipStrays.dropUnit victim)
        (counted ∪ queues.skipStrays.dropCounts victim) := by
  have skipped := agrees.skipStrays
  have same : Unsettled queues.skipStrays counted := unsettled
  have dropped := skipped.dropUnit victim fun copy found own => by
    rcases VideoQueues.queued_of_unit found with running | resting
    · rcases may with waits | much
      · obtain ⟨other, there⟩ := (Map.mem_keys_iff _ _).mp waits
        exact absurd there fun there => agrees.consistent.disjoint running there
      · exact unsettled much victim copy running own
    · have rests : queues.Resting (copy.mediaId, copy.firstSeq) := ⟨victim, copy, resting, own, rfl⟩
      exact ⟨agrees.unsent _ rests, agrees.resting _ rests⟩
  exact ⟨dropped, same.dropUnit skipped victim dropped.consistent⟩

/-- One round of either loop. -/
theorem Agrees.dropLate (agrees : Agrees kind queues counted)
    (unsettled : Unsettled queues counted) {now : Instant} (dropped : queues.dropLate now = some next) :
    Agrees kind next (counted ∪ queues.lateCounts) ∧
      Unsettled next (counted ∪ queues.lateCounts) := by
  unfold Queues.dropLate at dropped
  unfold lateCounts
  split at dropped
  · obtain ⟨victim, found, rfl⟩ := Option.map_eq_some_iff.mp dropped
    rw [found]
    exact agrees.dropVictim unsettled (Or.inl (waiting_of_unstartedVictim found))
  · cases dropped

theorem Agrees.dropExcess (agrees : Agrees kind queues counted)
    (unsettled : Unsettled queues counted) (dropped : queues.dropExcess = some next) :
    Agrees kind next (counted ∪ queues.excessCounts) ∧
      Unsettled next (counted ∪ queues.excessCounts) := by
  unfold Queues.dropExcess at dropped
  unfold excessCounts
  split at dropped
  · rename_i much
    obtain ⟨victim, found, rfl⟩ := Option.map_eq_some_iff.mp dropped
    rw [found]
    refine agrees.dropVictim unsettled ?_
    rcases Option.or_eq_some_iff.mp found with unstarted | ⟨none, -⟩
    · exact Or.inl (waiting_of_unstartedVictim unstarted)
    · -- Nothing waits, so what is too much is in the started units.
      have bytes := VideoQueues.Consistent.bytes agrees.consistent
      rw [waiting_of_no_victim none, Map.total_empty, add_zero] at bytes
      exact Or.inr (bytes ▸ much)
  · cases dropped

theorem Agrees.enforceBudget (agrees : Agrees kind queues counted) (now : Instant)
    (unsettled : Unsettled (queues.giveUpIdleUnits now) counted) :
    Agrees kind (queues.enforceBudget now) (counted ∪ queues.budgetCounts now) := by
  let holds : Queues → Finset (MediaId × Nat) → Prop := fun queues counts =>
    Agrees kind queues (counted ∪ counts) ∧ Unsettled queues (counted ∪ counts)
  have initially : holds (queues.giveUpIdleUnits now) ∅ := by
    dsimp only [holds]
    rw [Finset.union_empty]
    exact ⟨agrees.giveUpIdleUnits now, unsettled⟩
  have late : holds ((queues.giveUpIdleUnits now).dropAllLate now) _ :=
    loop_beside holds initially
      (fun _ _ counts before dropped => by
        dsimp only [holds]
        rw [← Finset.union_assoc]
        exact before.1.dropLate before.2 dropped) _
  have excess : holds ((queues.giveUpIdleUnits now).dropAllLate now).dropAllExcess _ :=
    loop_beside holds late
      (fun _ _ counts before dropped => by
        dsimp only [holds]
        rw [← Finset.union_assoc]
        exact before.1.dropExcess before.2 dropped) _
  unfold Queues.enforceBudget budgetCounts
  simp only
  split
  · exact excess.1.skipStrays
  · exact excess.1

/-! ### Forgetting and sending -/

theorem mem_units {id : Nat} {copy : VideoUnit} (held : queues.Queued id copy) :
    copy ∈ queues.units := by
  unfold units
  rcases held with running | resting
  · exact List.mem_append_left _ (List.mem_map.mpr ⟨(id, copy), (Map.mem_toList _ _ _).mpr running, rfl⟩)
  · exact List.mem_append_right _ (List.mem_map.mpr ⟨(id, copy), (Map.mem_toList _ _ _).mpr resting, rfl⟩)

/-- Tracks with a counted unit or a queued one keep their history. -/
theorem Agrees.forgetQuietTracks (agrees : Agrees kind queues counted)
    (kept : ∀ unit ∈ counted, unit.1 ∈ queues.activeTracks ∨
      unit.1 ∈ queues.units.map (·.mediaId)) :
    Agrees kind queues.forgetQuietTracks counted := by
  have fates : ∀ unit, queues.forgetQuietTracks.fateOf unit =
      if unit.1 ∈ queues.activeTracks ∨ unit.1 ∈ queues.units.map (·.mediaId) then
        queues.fateOf unit
      else none := by
    intro unit
    unfold VideoQueues.fateOf VideoQueues.historyOf Queues.forgetQuietTracks
    simp only [Map.lookup_retain]
    cases known : queues.history.lookup unit.1 with
    | none =>
      rw [Option.filter_none]
      exact (ite_self _).symm
    | some past =>
      rw [Option.filter_some]
      by_cases keeps : unit.1 ∈ queues.activeTracks ∨ unit.1 ∈ queues.units.map (·.mediaId)
      · rw [if_pos keeps, if_pos]
        simpa using keeps
      · rw [if_neg keeps, if_neg]
        · rfl
        · simpa using keeps
  exact {
    consistent := agrees.consistent.forgetQuietTracks
    audio := agrees.audio
    counts := agrees.counts
    dropped := fun unit member => by
      rw [fates, if_pos (kept unit member)]
      exact agrees.dropped unit member
    known := fun unit id listed => by
      obtain ⟨copy, held, -, same⟩ :=
        (VideoQueues.Consistent.copies agrees.consistent unit id).mp listed
      have queued : unit.1 ∈ queues.units.map (·.mediaId) :=
        List.mem_map.mpr ⟨copy, mem_units held, congrArg Prod.fst same⟩
      rw [fates, if_pos (Or.inr queued)]
      exact agrees.known unit id listed
    latest := fun unit id last listed named => by
      rw [fates] at named
      split at named
      · exact agrees.latest unit id last listed named
      · cases named
    unsent := fun unit rests => by
      rw [fates]
      split
      · exact agrees.unsent unit rests
      · exact nofun
    resting := agrees.resting }

theorem droppedUnits_countForwarded (queues : Queues) (track mediaId : MediaId) :
    (queues.countForwarded track).droppedUnits mediaId = queues.droppedUnits mediaId := by
  unfold droppedUnits countForwarded Queues.count
  rw [Map.lookup_insert_ite]
  split
  · rename_i same
    rw [same]
    rfl
  · rfl

/-- Starting a unit changes no fate and no count of dropped units. -/
theorem start_keeps {id : Nat} (started : queues.start = (some id, next)) :
    next.history = queues.history ∧ next.audio = queues.audio ∧
      (∀ mediaId, next.droppedUnits mediaId = queues.droppedUnits mediaId) ∧
      ∀ unit, next.Resting unit → queues.Resting unit := by
  have left : ∀ (first : Nat) (unit : MediaId × Nat),
      VideoQueues.Resting { queues.toVideoQueues with waiting := queues.waiting.erase first } unit →
        queues.Resting unit := by
    rintro first unit ⟨other, copy, found, rest⟩
    rw [Map.lookup_erase_ite] at found
    split at found
    · cases found
    · exact ⟨other, copy, found, rest⟩
  unfold Queues.start at started
  split at started
  · cases started
    exact ⟨rfl, rfl, fun _ => rfl, fun _ rests => rests⟩
  · split at started
    · cases started
    · rename_i first unit _
      simp only at started
      split at started
      · cases started
        exact ⟨rfl, rfl, fun _ => rfl, left _⟩
      · cases started
        exact ⟨rfl, rfl, droppedUnits_countForwarded queues unit.mediaId, left _⟩

theorem Agrees.popVideo (agrees : Agrees kind queues counted) :
    Agrees kind queues.popVideo.2 counted := by
  rcases agrees.consistent.popVideo_cases with
    same | ⟨id, next, copy, bytes, rest, started, found, packets, taken, same⟩
  · rw [same]
    exact agrees
  · obtain ⟨history, audio, drops, resting⟩ := start_keeps started
    have copies := copies_start started
    have sent : Agrees kind (next.takeOff id copy bytes rest) counted :=
      agrees.frame taken (VideoQueues.fateOf_of_history history)
        (fun _ _ listed => copies ▸ listed) resting (fun mediaId _ => drops mediaId)
        (audio ▸ agrees.audio)
    have running : (next.takeOff id copy bytes rest).started.lookup id =
        some { copy with packets := rest } := Finmap.lookup_insert _
    rw [same]
    simp only
    split
    · refine sent.finish id (Or.inr ⟨rfl, fun after found => ?_⟩)
      rw [VideoQueues.unit, running, Option.some_or] at found
      exact running.trans found
    · exact sent

theorem Agrees.pop (agrees : Agrees kind queues counted) : Agrees kind queues.pop.2 counted := by
  have keys := queues.audio.keys_pop
  unfold Queues.pop
  generalize queues.audio.pop = popped at keys
  obtain ⟨served, audio⟩ := popped
  have left : Agrees kind { queues with audio := audio } counted :=
    agrees.frame agrees.consistent (fun _ => rfl) (fun _ _ listed => listed) (fun _ rests => rests)
      (fun _ _ => rfl) fun mediaId member => agrees.audio mediaId (keys member)
  cases served with
  | none => exact left.popVideo
  | some served =>
    exact left.frame left.consistent (fun _ => rfl) (fun _ _ listed => listed)
      (fun _ rests => rests) (fun mediaId _ => droppedUnits_countForwarded _ _ mediaId) left.audio

/-! ### Runs -/

theorem counted_step (tally : Tally) {input : Queues.Input} (none : input.requeues = ∅) :
    (tally.step input).counted = tally.counted ∪ tally.queues.counts input := by
  unfold Tally.step
  rw [none, Finset.sdiff_empty]

theorem Agrees.step {tally : Tally} (agrees : Agrees kind tally.queues tally.counted)
    {input : Queues.Input} (fair : tally.Fair kind input) :
    Agrees kind (tally.step input).queues (tally.step input).counted := by
  cases input with
  | push packet now choice =>
    obtain ⟨ofKind, room, own⟩ := fair
    cases isKind : packet.kind with
    | audio => exact agrees.pushAudio isKind (ofKind.trans isKind) now choice
    | video =>
      have pushed := agrees.pushVideo now isKind room
        (fun first dropped uncounted => by
          by_contra some_
          exact own ⟨isKind, first, dropped, uncounted, some_⟩) choice
      unfold Tally.step Queues.step Queues.apply Queues.push
      simp only [isKind]
      exact pushed
  | lose lost =>
    rw [counted_step tally rfl]
    exact agrees.lose fair.1 fair.2
  | enforceBudget now =>
    have none : ¬ DropsSettled { tally with queues := tally.queues.giveUpIdleUnits now } := fair
    have unsettled := Unsettled.of_not none
    rw [counted_step tally rfl]
    exact agrees.enforceBudget now unsettled
  | forgetQuietTracks =>
    have forgot := agrees.forgetQuietTracks fair
    rw [← Finset.union_empty tally.counted] at forgot
    rw [counted_step tally rfl]
    exact forgot
  | takeStats => exact fair.elim
  | pop =>
    have popped := agrees.pop
    rw [← Finset.union_empty tally.counted] at popped
    rw [counted_step tally rfl]
    exact popped

theorem agrees_empty (kind : MediaId → TrackKind) : Agrees kind {} ∅ where
  consistent := consistent_empty
  audio := by simp
  counts := fun _ _ => rfl
  dropped := by simp
  known := by simp [Listed]
  latest := by simp [Listed]
  unsent := by simp [VideoQueues.Resting]
  resting := by simp

theorem Agrees.run {inputs : List Queues.Input} (fair : Along Tally.step (Fair kind) {} inputs) :
    Agrees kind (Throcc.run Tally.step {} inputs).queues
      (Throcc.run Tally.step {} inputs).counted :=
  fair.invariant (fun tally => Agrees kind tally.queues tally.counted) (agrees_empty kind)
    fun _ _ agrees fair => agrees.step fair

/-- A count that is taken back for another unit is missing from then on. -/
theorem Agrees.takesAnother {tally : Tally} (agrees : Agrees kind tally.queues tally.counted)
    {packet : Packet} (video : kind packet.header.mediaId = .video)
    (takes : tally.TakesAnother packet) (now : Instant) (choice : MediaId) :
    (tally.step (.push packet now choice)).queues.droppedUnits packet.header.mediaId <
      countedOn (tally.step (.push packet now choice)).counted packet.header.mediaId := by
  obtain ⟨isVideo, first, dropped, uncounted, some_⟩ := takes
  have pushed : ((tally.queues.pushVideo packet now).droppedUnits packet.header.mediaId) =
      tally.queues.droppedUnits packet.header.mediaId - 1 := by
    unfold Queues.pushVideo
    simp only
    rw [if_pos first, droppedUnits_pushFirst, if_pos]
    · rfl
    · exact ⟨dropped, rfl⟩
  have counted : (tally.step (.push packet now choice)).counted = tally.counted := by
    unfold Tally.step Input.requeues Queues.counts pushCounts
    simp only
    rw [if_pos ⟨isVideo, first⟩, if_pos (Or.inr first), Finset.union_empty,
      Finset.sdiff_singleton_eq_erase, Finset.erase_eq_of_notMem uncounted]
  have same := agrees.counts packet.header.mediaId video
  rw [counted]
  unfold Tally.step Queues.step Queues.apply Queues.push
  simp only [isVideo]
  omega

/-- In every run without a report, with fewer units than are remembered, in which no packet takes
back the count of another unit, no copy of a settled unit may be dropped and no track with a
counted unit is forgotten: a video track's dropped units are the units whose drop was counted
and that were not queued again since. A packet that takes back another's count ends that. -/
theorem run_droppedUnits (kind : MediaId → TrackKind) (inputs : List Queues.Input)
    (fair : Along Tally.step (Fair kind) {} inputs) :
    let tally := run Tally.step {} inputs
    (∀ mediaId, kind mediaId = .video →
      (run Queues.step {} inputs).droppedUnits mediaId = countedOn tally.counted mediaId) ∧
    ∀ packet now choice, kind packet.header.mediaId = .video → tally.TakesAnother packet →
      ((run Queues.step {} inputs).step (.push packet now choice)).droppedUnits
          packet.header.mediaId ≠
        countedOn (tally.step (.push packet now choice)).counted packet.header.mediaId := by
  intro tally
  have agrees := Agrees.run fair
  have same : tally.queues = run Queues.step {} inputs := queues_run {} inputs
  rw [← same]
  exact ⟨agrees.counts, fun packet now choice video takes =>
    ne_of_lt (agrees.takesAnother video takes now choice)⟩

/-- A packet of track 1 that is a unit of its own. -/
def wholeUnit (seq : Nat) : Packet := packetOf seq (.first ||| .last)

/-- A unit is lost. Another is sent, is sent by its sender again, which is dropped as a copy, and
once more. -/
def sentThrice : List Queues.Input :=
  [.lose ⟨.video, 1, 0, true⟩, .push (wholeUnit 2) 0 0, .pop, .push (wholeUnit 2) 0 0,
    .enforceBudget (fromMillis 200), .push (wholeUnit 2) (fromMillis 200) 0]

/-- The third copy takes back the count of the unit that is lost. -/
theorem run_droppedUnits_sentThrice :
    (∀ input ∈ sentThrice, input ≠ .takeStats ∧ input ≠ .forgetQuietTracks) ∧
      ((run Queues.step {} sentThrice).historyOf 1).keys.card < historyLimit ∧
      (run Tally.step {} sentThrice).counted = {(1, 0)} ∧
      (run Queues.step {} sentThrice).droppedUnits 1 = 0 ∧
      (run Queues.step {} sentThrice).droppedUnits 1 ≠
        countedOn (run Tally.step {} sentThrice).counted 1 := by
  have counted : (run Tally.step {} sentThrice).counted = {(1, 0)} := by decide +kernel
  have dropped : (run Queues.step {} sentThrice).droppedUnits 1 = 0 := by decide +kernel
  refine ⟨by decide, by decide +kernel, counted, dropped, ?_⟩
  rw [counted, dropped]
  decide

/-- A second copy takes back its own. -/
theorem run_droppedUnits_sentTwice :
    let inputs : List Queues.Input := [.lose ⟨.video, 1, 0, true⟩, .push (wholeUnit 2) 0 0,
      .enforceBudget (fromMillis 200), .push (wholeUnit 2) (fromMillis 200) 0]
    (run Queues.step {} inputs).droppedUnits 1 = 1 := by
  intro inputs
  have fair : Along Tally.step (Fair fun _ => .video) {} inputs := by decide +kernel
  have counted : (run Tally.step {} inputs).counted = {(1, 0)} := by decide +kernel
  rw [(run_droppedUnits (fun _ => .video) inputs fair).1 1 rfl, counted]
  decide

end Tally

end Throcc
