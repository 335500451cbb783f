/-
This file proves what a check of the egress budget leaves behind, in every run
whose times don't go back. Units wait in the order they arrived, since a new
one goes last and nothing changes when a unit arrived; so once the first one
waits no longer than the budget allows, none does. Every round of the check
drops a queued unit, so both of its loops end by their own test.
-/

import Mathlib.Algebra.Order.BigOperators.Group.List
import Throcc.Delivery

namespace Throcc

/-- All that may have changed is whether the unit is a copy. -/
def VideoUnit.Uncopied (unit after : VideoUnit) : Prop := after = { unit with copy := after.copy }

theorem VideoUnit.Uncopied.trans {unit other last : VideoUnit} (first : unit.Uncopied other)
    (second : other.Uncopied last) : unit.Uncopied last := by
  unfold VideoUnit.Uncopied at first second ⊢
  rw [second, first]

theorem VideoUnit.Uncopied.arrived {unit after : VideoUnit} (alike : unit.Uncopied after) :
    after.arrived = unit.arrived := by
  unfold VideoUnit.Uncopied at alike
  rw [alike]

theorem VideoUnit.Uncopied.packets {unit after : VideoUnit} (alike : unit.Uncopied after) :
    after.packets = unit.packets := by
  unfold VideoUnit.Uncopied at alike
  rw [alike]

theorem VideoUnit.len_nonneg (unit : VideoUnit) : 0 ≤ unit.len := by
  refine List.sum_nonneg fun len member => ?_
  obtain ⟨bytes, -, rfl⟩ := List.mem_map.mp member
  exact Int.natCast_nonneg _

namespace Queues

variable {queues next last : Queues}

/-! ### Units leave -/

/-- The units left are units from before, but for which of them are copies. -/
structure Thins (queues next : Queues) : Prop where
  started : ∀ id unit, next.started.lookup id = some unit →
    ∃ before, queues.started.lookup id = some before ∧ before.Uncopied unit
  waiting : ∀ id unit, next.waiting.lookup id = some unit →
    ∃ before, queues.waiting.lookup id = some before ∧ before.Uncopied unit

theorem Thins.of_eq (started : next.started = queues.started)
    (waiting : next.waiting = queues.waiting) : queues.Thins next where
  started := fun _ unit found => ⟨unit, started ▸ found, rfl⟩
  waiting := fun _ unit found => ⟨unit, waiting ▸ found, rfl⟩

theorem Thins.refl (queues : Queues) : queues.Thins queues := of_eq rfl rfl

theorem Thins.trans (first : queues.Thins next) (second : next.Thins last) : queues.Thins last where
  started := fun id unit found => by
    obtain ⟨between, there, alike⟩ := second.started id unit found
    obtain ⟨before, here, alike'⟩ := first.started id between there
    exact ⟨before, here, alike'.trans alike⟩
  waiting := fun id unit found => by
    obtain ⟨between, there, alike⟩ := second.waiting id unit found
    obtain ⟨before, here, alike'⟩ := first.waiting id between there
    exact ⟨before, here, alike'.trans alike⟩

theorem Thins.finish (queues : Queues) (id : Nat) (fate : Fate) :
    queues.Thins (queues.finish id fate) := by
  have erased : ∀ (units : Map Nat VideoUnit) (other : Nat) (after : VideoUnit),
      (units.erase id).lookup other = some after →
        ∃ before, units.lookup other = some before ∧ before.Uncopied after := by
    intro units other after there
    rw [Map.lookup_erase_ite] at there
    split at there
    · cases there
    · exact ⟨after, there, rfl⟩
  unfold Queues.finish
  split
  · exact Thins.refl queues
  · refine ⟨erased queues.started, fun other after there => ?_⟩
    simp only at there
    split at there
    · exact ⟨after, there, rfl⟩
    · exact erased queues.waiting other after there

/-- The twin of a unit that left is no copy any more. -/
theorem Thins.countUnit (queues : Queues) (unit : VideoUnit) :
    queues.Thins (queues.countUnit unit) := by
  have modified : ∀ (units : Map Nat VideoUnit) (twin other : Nat) (after : VideoUnit),
      (units.modify twin fun unit => { unit with copy := false }).lookup other = some after →
        ∃ before, units.lookup other = some before ∧ before.Uncopied after := by
    intro units twin other after there
    rw [Map.lookup_modify] at there
    split at there
    · obtain ⟨before, here, rfl⟩ := Option.map_eq_some_iff.mp there
      exact ⟨before, here, rfl⟩
    · exact ⟨after, there, rfl⟩
  unfold Queues.countUnit
  split
  · rename_i twin _
    unfold Queues.modifyUnit
    split
    · exact ⟨modified queues.started twin, (Thins.refl queues).waiting⟩
    · exact ⟨(Thins.refl queues).started, modified queues.waiting twin⟩
  · split
    · exact Thins.refl queues
    · exact Thins.of_eq rfl rfl

theorem Thins.dropUnit (queues : Queues) (id : Nat) : queues.Thins (queues.dropUnit id) := by
  unfold Queues.dropUnit
  split
  · exact Thins.refl queues
  · exact (Thins.finish queues id .dropped).trans (Thins.countUnit _ _)

theorem Thins.lose (queues : Queues) (lost : Lost) : queues.Thins (queues.lose lost) := by
  have entered : queues.Thins
      { queues with
        activeTracks := insert lost.mediaId queues.activeTracks
        history := queues.history.insert lost.mediaId (queues.historyOf lost.mediaId) } :=
    Thins.of_eq rfl rfl
  unfold Queues.lose
  split
  · exact Thins.of_eq rfl rfl
  · simp only
    split
    · split
      · exact entered
      · exact Thins.of_eq rfl rfl
    · split
      · exact entered.trans (Thins.dropUnit _ _)
      · exact Thins.of_eq rfl rfl
      · exact entered
      · exact Thins.of_eq rfl rfl

theorem Thins.giveUpIdleUnits (queues : Queues) (now : Instant) :
    queues.Thins (queues.giveUpIdleUnits now) := by
  have all : ∀ (ids : List Nat) (queues : Queues),
      queues.Thins (ids.foldl (fun queues id => queues.finish id .sent) queues) := by
    intro ids
    induction ids with
    | nil => exact Thins.refl
    | cons id rest inductionHypothesis =>
      exact fun queues => (Thins.finish queues id .sent).trans (inductionHypothesis _)
  unfold Queues.giveUpIdleUnits
  split
  · exact Thins.refl queues
  · have checked : queues.Thins { queues with nextIdleCheck := some (now + idleCheck) } :=
      Thins.of_eq rfl rfl
    exact checked.trans (all _ _)

theorem Thins.skipStrays (queues : Queues) : queues.Thins queues.skipStrays := Thins.of_eq rfl rfl

/-- A round of either loop drops one unit. -/
theorem Thins.round (now : Instant) (round : Round now queues next) : queues.Thins next := by
  rcases round with late | excess
  · unfold Queues.dropLate at late
    split at late
    · obtain ⟨victim, -, rfl⟩ := Option.map_eq_some_iff.mp late
      exact (Thins.skipStrays queues).trans (Thins.dropUnit _ victim)
    · cases late
  · unfold Queues.dropExcess at excess
    split at excess
    · obtain ⟨victim, -, rfl⟩ := Option.map_eq_some_iff.mp excess
      exact (Thins.skipStrays queues).trans (Thins.dropUnit _ victim)
    · cases excess

theorem Thins.dropAllLate (queues : Queues) (now : Instant) :
    queues.Thins (queues.dropAllLate now) :=
  loop_invariant queues.Thins (Thins.refl queues)
    (fun _ _ thins dropped => thins.trans (Thins.round now (Or.inl dropped))) _

theorem Thins.dropAllExcess (queues : Queues) : queues.Thins queues.dropAllExcess :=
  loop_invariant queues.Thins (Thins.refl queues)
    (fun _ _ thins dropped => thins.trans (Thins.round 0 (Or.inr dropped))) _

theorem Thins.enforceBudget (queues : Queues) (now : Instant) :
    queues.Thins (queues.enforceBudget now) := by
  have dropped := ((Thins.giveUpIdleUnits queues now).trans (Thins.dropAllLate _ now)).trans
    (Thins.dropAllExcess _)
  unfold Queues.enforceBudget
  simp only
  split
  · exact dropped.trans (Thins.skipStrays _)
  · exact dropped

/-! ### Units wait in the order they arrived -/

/-- The time an input happens at, if it reads the clock. -/
def Input.time : Input → Option Instant
  | .push _ now _ | .enforceBudget now => some now
  | .lose _ | .forgetQuietTracks | .takeStats | .pop => none

/-- Units wait in the order they arrived, and none has arrived after `time`. -/
structure InArrivalOrder (queues : Queues) (time : Instant) : Prop where
  ordered : ∀ id unit other later, queues.waiting.lookup id = some unit →
    queues.waiting.lookup other = some later → id ≤ other → unit.arrived ≤ later.arrived
  past : ∀ id unit, queues.waiting.lookup id = some unit → unit.arrived ≤ time

variable {time now : Instant}

theorem InArrivalOrder.mono (order : queues.InArrivalOrder time) (later : time ≤ now) :
    queues.InArrivalOrder now where
  ordered := order.ordered
  past := fun id unit found => (order.past id unit found).trans later

/-- Units that waited before wait in the same order. -/
theorem InArrivalOrder.of_waiting (order : queues.InArrivalOrder time)
    (waited : ∀ id unit, next.waiting.lookup id = some unit →
      ∃ before, queues.waiting.lookup id = some before ∧ unit.arrived = before.arrived) :
    next.InArrivalOrder time where
  ordered := fun id unit other later found found' ahead => by
    obtain ⟨before, here, same⟩ := waited id unit found
    obtain ⟨before', here', same'⟩ := waited other later found'
    rw [same, same']
    exact order.ordered id before other before' here here' ahead
  past := fun id unit found => by
    obtain ⟨before, here, same⟩ := waited id unit found
    rw [same]
    exact order.past id before here

theorem InArrivalOrder.thins (order : queues.InArrivalOrder time) (thins : queues.Thins next) :
    next.InArrivalOrder time := by
  refine order.of_waiting fun id unit found => ?_
  obtain ⟨before, here, alike⟩ := thins.waiting id unit found
  exact ⟨before, here, alike.arrived⟩

/-- A unit that arrives now goes behind all others. -/
theorem InArrivalOrder.queueUnit (order : queues.InArrivalOrder time)
    (consistent : queues.Consistent) {unit : VideoUnit} (fresh : unit.id = queues.nextId)
    (arrived : unit.arrived = time) (waiting : next.waiting = queues.waiting.insert unit.id unit) :
    next.InArrivalOrder time := by
  have found : ∀ id other, next.waiting.lookup id = some other →
      (id = queues.nextId ∧ other = unit) ∨ queues.waiting.lookup id = some other := by
    intro id other there
    rw [waiting, Map.lookup_insert_ite] at there
    split at there
    · rename_i same
      cases there
      exact Or.inl ⟨same.trans fresh, rfl⟩
    · exact Or.inr there
  have below : ∀ id other, queues.waiting.lookup id = some other → id < queues.nextId :=
    fun id other there => (VideoQueues.Consistent.known consistent id other (Or.inr there)).2
  constructor
  · intro id other id' later there there' ahead
    rcases found id' later there' with ⟨rfl, rfl⟩ | waited'
    · rw [arrived]
      rcases found id other there with ⟨-, rfl⟩ | waited
      · exact arrived.le
      · exact order.past id other waited
    · rcases found id other there with ⟨rfl, -⟩ | waited
      · exact absurd ahead (Nat.not_le_of_lt (below id' later waited'))
      · exact order.ordered id other id' later waited waited' ahead
  · intro id other there
    rcases found id other there with ⟨-, rfl⟩ | waited
    · exact arrived.le
    · exact order.past id other waited

theorem InArrivalOrder.modifyUnit (order : queues.InArrivalOrder time) (id : Nat)
    {update : VideoUnit → VideoUnit} (same : ∀ unit, (update unit).arrived = unit.arrived) :
    (queues.modifyUnit id update).InArrivalOrder time := by
  refine order.of_waiting fun other after there => ?_
  unfold Queues.modifyUnit at there
  split at there
  · exact ⟨after, there, rfl⟩
  · simp only at there
    rw [Map.lookup_modify] at there
    split at there
    · obtain ⟨before, here, rfl⟩ := Option.map_eq_some_iff.mp there
      exact ⟨before, here, same before⟩
    · exact ⟨after, there, rfl⟩

theorem InArrivalOrder.pushVideo (order : queues.InArrivalOrder now)
    (consistent : queues.Consistent) (packet : Packet) :
    (queues.pushVideo packet now).InArrivalOrder now := by
  have active : InArrivalOrder
      { queues with activeTracks := insert packet.header.mediaId queues.activeTracks } now :=
    order.thins (Thins.of_eq rfl rfl)
  unfold Queues.pushVideo
  simp only
  split
  · exact active.queueUnit consistent rfl rfl rfl
  · split
    · unfold Queues.pushFragment
      split
      · exact active
      · split
        · exact active.thins (Thins.dropUnit _ _)
        · refine InArrivalOrder.thins (active.modifyUnit _ fun _ => ?_) (Thins.of_eq rfl rfl)
          rfl
    · exact active.queueUnit consistent rfl rfl rfl
    · exact active
    · exact active

theorem InArrivalOrder.push (order : queues.InArrivalOrder now) (consistent : queues.Consistent)
    (packet : Packet) (choice : MediaId) : (queues.push packet now choice).InArrivalOrder now := by
  unfold Queues.push
  split
  · generalize queues.audio.push packet.header.mediaId packet.bytes choice = pushed
    obtain ⟨evicted, audio⟩ := pushed
    cases evicted with
    | none => exact order.thins (Thins.of_eq rfl rfl)
    | some evicted => exact order.thins (Thins.of_eq rfl rfl)
  · exact order.pushVideo consistent packet

theorem InArrivalOrder.start (order : queues.InArrivalOrder time) :
    queues.start.2.InArrivalOrder time := by
  unfold Queues.start
  split
  · exact order
  · split
    · exact order
    · rename_i first unit _
      refine order.of_waiting fun id after there => ?_
      have there : (queues.waiting.erase first).lookup id = some after := by
        simp only at there
        split at there
        · exact there
        · exact there
      rw [Map.lookup_erase_ite] at there
      split at there
      · cases there
      · exact ⟨after, there, rfl⟩

theorem InArrivalOrder.takePacket (order : queues.InArrivalOrder time) (id : Nat) :
    (queues.takePacket id).2.InArrivalOrder time := by
  unfold Queues.takePacket
  split
  · exact order
  · rename_i unit _
    split
    · exact order
    · rename_i bytes rest _
      have taken : (queues.takeOff id unit bytes rest).InArrivalOrder time :=
        order.of_waiting fun _ after there => ⟨after, there, rfl⟩
      simp only
      split
      · exact taken.thins (Thins.finish _ _ _)
      · exact taken

theorem InArrivalOrder.popVideo (order : queues.InArrivalOrder time) :
    queues.popVideo.2.InArrivalOrder time := by
  have started := order.start
  unfold Queues.popVideo
  generalize queues.start = start at started
  obtain ⟨id, next⟩ := start
  cases id with
  | none => exact started
  | some id => exact started.takePacket id

theorem InArrivalOrder.pop (order : queues.InArrivalOrder time) :
    queues.pop.2.InArrivalOrder time := by
  unfold Queues.pop
  generalize queues.audio.pop = popped
  obtain ⟨served, audio⟩ := popped
  cases served with
  | some served => exact order.thins (Thins.of_eq rfl rfl)
  | none =>
    have same : InArrivalOrder { queues with audio := audio } time :=
      order.thins (Thins.of_eq rfl rfl)
    exact same.popVideo

theorem InArrivalOrder.step (order : queues.InArrivalOrder time) (consistent : queues.Consistent)
    (input : Input) (later : ∀ now, input.time = some now → time ≤ now) :
    (queues.step input).InArrivalOrder (input.time.getD time) := by
  cases input with
  | push packet now choice => exact (order.mono (later now rfl)).push consistent packet choice
  | lose lost => exact order.thins (Thins.lose queues lost)
  | enforceBudget now =>
    exact (order.mono (later now rfl)).thins (Thins.enforceBudget queues now)
  | forgetQuietTracks => exact order.thins (Thins.of_eq rfl rfl)
  | takeStats => exact order.thins (Thins.of_eq rfl rfl)
  | pop => exact order.pop

/-- Units wait in the order they arrived after every run whose times don't go back. -/
theorem InArrivalOrder.run (order : queues.InArrivalOrder time) (consistent : queues.Consistent)
    {inputs : List Input}
    (forward : (time :: inputs.filterMap Input.time ++ [now]).Pairwise (· ≤ ·)) :
    (Throcc.run Queues.step queues inputs).InArrivalOrder now := by
  induction inputs generalizing queues time with
  | nil => exact order.mono (List.pairwise_pair.mp forward)
  | cons input rest inductionHypothesis =>
    have next := fun later => order.step consistent input later
    rw [run_cons]
    rw [List.filterMap_cons] at forward
    cases reads : input.time with
    | none =>
      rw [reads] at forward next
      exact inductionHypothesis (next fun _ same => by cases same) (consistent.step input) forward
    | some now =>
      rw [reads] at forward next
      have later := (List.pairwise_cons.mp forward).1 now List.mem_cons_self
      exact inductionHypothesis (next fun _ same => by cases same; exact later)
        (consistent.step input) (List.pairwise_cons.mp forward).2

theorem inArrivalOrder_empty : ({} : Queues).InArrivalOrder 0 where
  ordered := by simp
  past := by simp

/-! ### The loops end -/

theorem unitCount_countUnit (queues : Queues) (unit : VideoUnit) :
    (queues.countUnit unit).unitCount = queues.unitCount := by
  unfold Queues.countUnit
  split
  · unfold Queues.modifyUnit unitCount
    split
    · simp only [Map.keys_modify]
    · simp only [Map.keys_modify]
  · split
    · rfl
    · rfl

theorem Consistent.unitCount_finish (consistent : queues.Consistent) {id : Nat} {unit : VideoUnit}
    (found : queues.unit id = some unit) (fate : Fate) :
    (queues.finish id fate).unitCount < queues.unitCount := by
  have left := consistent.finish_eq found fate
  have started : (queues.finish id fate).started.keys = queues.started.keys.erase id := by
    rw [congrArg VideoQueues.started left, VideoQueues.remove, Finmap.keys_erase]
  have waiting : (queues.finish id fate).waiting.keys = queues.waiting.keys.erase id := by
    rw [congrArg VideoQueues.waiting left, VideoQueues.remove, Finmap.keys_erase]
  have fewer : (queues.started.keys.erase id).card ≤ queues.started.keys.card :=
    Finset.card_erase_le
  have fewer' : (queues.waiting.keys.erase id).card ≤ queues.waiting.keys.card :=
    Finset.card_erase_le
  unfold unitCount
  rw [started, waiting]
  rcases VideoQueues.queued_of_unit found with running | resting
  · have member := Finset.card_erase_lt_of_mem ((Map.mem_keys_iff _ _).mpr ⟨unit, running⟩)
    omega
  · have member := Finset.card_erase_lt_of_mem ((Map.mem_keys_iff _ _).mpr ⟨unit, resting⟩)
    omega

theorem Consistent.unitCount_dropUnit (consistent : queues.Consistent) {id : Nat}
    {unit : VideoUnit} (found : queues.unit id = some unit) :
    (queues.dropUnit id).unitCount < queues.unitCount := by
  unfold Queues.dropUnit
  rw [found]
  simp only
  rw [unitCount_countUnit]
  exact consistent.unitCount_finish found .dropped

theorem Consistent.unit_of_waiting (consistent : queues.Consistent) {id : Nat}
    (member : id ∈ queues.waiting.keys) : ∃ unit, queues.unit id = some unit := by
  obtain ⟨unit, resting⟩ := (Map.mem_keys_iff _ _).mp member
  refine ⟨unit, Option.or_eq_some_iff.mpr (Or.inr ⟨?_, resting⟩)⟩
  exact Option.eq_none_iff_forall_ne_some.mpr fun _ running => consistent.disjoint running resting

/-- Every round drops a queued unit. -/
theorem Consistent.unitCount_round (consistent : queues.Consistent) (now : Instant)
    (round : Round now queues next) : next.unitCount < queues.unitCount := by
  have drops : ∀ victim, (∃ unit, queues.unit victim = some unit) →
      (queues.skipStrays.dropUnit victim).unitCount < queues.unitCount := by
    rintro victim ⟨unit, found⟩
    have found : queues.skipStrays.unit victim = some unit := found
    exact consistent.skipStrays.unitCount_dropUnit found
  rcases round with late | excess
  · unfold Queues.dropLate at late
    split at late
    · obtain ⟨victim, found, rfl⟩ := Option.map_eq_some_iff.mp late
      exact drops victim (consistent.unit_of_waiting (waiting_of_unstartedVictim found))
    · cases late
  · unfold Queues.dropExcess at excess
    split at excess
    · obtain ⟨victim, found, rfl⟩ := Option.map_eq_some_iff.mp excess
      rcases Option.or_eq_some_iff.mp found with unstarted | ⟨-, first⟩
      · exact drops victim (consistent.unit_of_waiting (waiting_of_unstartedVictim unstarted))
      · obtain ⟨unit, running⟩ := (Map.firstKey_eq_some first).1
        exact drops victim ⟨unit, Option.or_eq_some_iff.mpr (Or.inl running)⟩
    · cases excess

theorem Consistent.dropAllLate_ends (consistent : queues.Consistent) (now : Instant) :
    (queues.dropAllLate now).dropLate now = none :=
  loop_stops Queues.Consistent unitCount (fun _ _ consistent dropped => consistent.dropLate dropped)
    (fun _ _ consistent dropped => consistent.unitCount_round now (Or.inl dropped)) consistent le_rfl

theorem Consistent.dropAllExcess_ends (consistent : queues.Consistent) :
    queues.dropAllExcess.dropExcess = none :=
  loop_stops Queues.Consistent unitCount
    (fun _ _ consistent dropped => consistent.dropExcess dropped)
    (fun _ _ consistent dropped => consistent.unitCount_round 0 (Or.inr dropped))
    consistent le_rfl

/-- While a unit waits there is a victim. -/
theorem waiting_of_no_victim (none : queues.unstartedVictim = none) : queues.waiting = ∅ :=
  Map.firstKey_eq_none.mp (Option.or_eq_none_iff.mp none).2

/-- The loop over late units ends once the first unit isn't late. -/
theorem overBudget_of_ended (ended : queues.dropLate now = none) :
    queues.overBudget now = false := by
  by_contra late
  rw [Bool.not_eq_false] at late
  unfold Queues.dropLate at ended
  rw [if_pos late, Option.map_eq_none_iff] at ended
  unfold overBudget at late
  rw [waiting_of_no_victim ended, Map.firstKey_eq_none.mpr rfl] at late
  cases late

/-- The loop over excess bytes ends once they fit. -/
theorem Consistent.bytes_of_ended (consistent : queues.Consistent)
    (ended : queues.dropExcess = none) : queues.videoBytes ≤ maxQueuedVideoBytes := by
  by_contra much
  rw [not_le] at much
  unfold Queues.dropExcess at ended
  rw [if_pos much, Option.map_eq_none_iff, Option.or_eq_none_iff] at ended
  have bytes := VideoQueues.Consistent.bytes consistent
  rw [waiting_of_no_victim ended.1, Map.firstKey_eq_none.mp ended.2] at bytes
  rw [bytes] at much
  exact absurd much (by decide)

/-- Nothing that waits has waited too long if the first hasn't. -/
theorem InArrivalOrder.young (order : queues.InArrivalOrder time)
    (inTime : queues.overBudget now = false) (id : Nat) (unit : VideoUnit)
    (found : queues.waiting.lookup id = some unit) : now - unit.arrived ≤ videoBudget := by
  cases least : queues.waiting.firstKey with
  | none =>
    rw [Map.firstKey_eq_none.mp least] at found
    cases found
  | some first =>
    obtain ⟨⟨oldest, here⟩, before⟩ := Map.firstKey_eq_some least
    have ahead := before id ((Map.mem_keys_iff _ _).mpr ⟨unit, found⟩)
    unfold overBudget at inTime
    rw [least, Option.bind_some, here, Option.any_some, decide_eq_false_iff_not, not_lt] at inTime
    exact (Nat.sub_le_sub_left (order.ordered first oldest id unit here found ahead) now).trans
      inTime

/-! ### Idle units leave no packet behind -/

/-- Units that don't wait leave without a change of those that do, or of other started units. -/
structure Spares (ids : List Nat) (queues next : Queues) : Prop where
  waiting : next.waiting = queues.waiting
  bytes : next.videoBytes ≤ queues.videoBytes
  started : ∀ id ∉ ids, next.started.lookup id = queues.started.lookup id

theorem Spares.finish {ids : List Nat} {id : Nat} (member : id ∈ ids) (fate : Fate)
    (resting : queues.waiting.lookup id = none) : Spares ids queues (queues.finish id fate) := by
  unfold Queues.finish
  split
  · exact ⟨rfl, le_rfl, fun _ _ => rfl⟩
  · rename_i unit _
    constructor
    · simp only
      split
      · rfl
      · exact Map.erase_of_missing resting
    · have counted := unit.len_nonneg
      simp only
      omega
    · intro other elsewhere
      simp only
      rw [Map.lookup_erase_ite, if_neg]
      rintro rfl
      exact elsewhere member

theorem Spares.trans {ids : List Nat} (first : Spares ids queues next)
    (second : Spares ids next last) : Spares ids queues last where
  waiting := second.waiting.trans first.waiting
  bytes := second.bytes.trans first.bytes
  started := fun id elsewhere => (second.started id elsewhere).trans (first.started id elsewhere)

theorem Spares.foldl {ids left : List Nat} (within : left ⊆ ids)
    (resting : ∀ id ∈ ids, queues.waiting.lookup id = none) :
    Spares ids queues (left.foldl (fun queues id => queues.finish id .sent) queues) := by
  induction left generalizing queues with
  | nil => exact ⟨rfl, le_rfl, fun _ _ => rfl⟩
  | cons id rest inductionHypothesis =>
    obtain ⟨member, within⟩ := List.cons_subset.mp within
    have finished := Spares.finish member .sent (resting id member)
    exact finished.trans (inductionHypothesis within fun other there => by
      rw [finished.waiting]
      exact resting other there)

/-- Giving up on idle units leaves those that wait and those with packets as they are. -/
theorem Consistent.giveUpIdleUnits_spares (consistent : queues.Consistent) (now : Instant) :
    (queues.giveUpIdleUnits now).waiting = queues.waiting ∧
      (queues.giveUpIdleUnits now).videoBytes ≤ queues.videoBytes ∧
      ∀ id unit, queues.started.lookup id = some unit → unit.packets ≠ [] →
        (queues.giveUpIdleUnits now).started.lookup id = some unit := by
  unfold Queues.giveUpIdleUnits
  split
  · exact ⟨rfl, le_rfl, fun _ _ found _ => found⟩
  · simp only
    generalize idles : (((queues.started.toList.map Prod.snd).filter _).map _ : List Nat) = ids
    have empty : ∀ id ∈ ids, ∃ unit, queues.started.lookup id = some unit ∧ unit.packets = [] := by
      intro id member
      rw [← idles] at member
      obtain ⟨unit, idle, rfl⟩ := List.mem_map.mp member
      obtain ⟨held, test⟩ := List.mem_filter.mp idle
      obtain ⟨⟨key, entry⟩, listed, rfl⟩ := List.mem_map.mp held
      have running := (Map.mem_toList _ _ _).mp listed
      rw [(VideoQueues.Consistent.known consistent key entry (Or.inl running)).1]
      rw [Bool.and_eq_true, decide_eq_true_eq] at test
      exact ⟨entry, running, test.1⟩
    have spares : Spares ids { queues with nextIdleCheck := some (now + idleCheck) } _ :=
      Spares.foldl (List.Subset.refl ids) fun id member => by
        obtain ⟨unit, running, -⟩ := empty id member
        exact Option.eq_none_iff_forall_ne_some.mpr fun _ resting =>
          consistent.disjoint running resting
    refine ⟨spares.waiting, spares.bytes, fun id unit found full => ?_⟩
    rw [spares.started id, found]
    intro member
    obtain ⟨other, running, none⟩ := empty id member
    cases found.symm.trans running
    exact full none

/-! ### What a check does -/

/-- What a check of the budget does. Both loops end by their own test; then no waiting unit is
late and the queued bytes fit. A started unit with packets is kept, unless it is dropped in a
round before which nothing waits and the queued bytes exceed the cap. Where the oldest waiting
unit isn't late and the bytes fit, every waiting unit is kept. -/
structure FitsBudget (queues : Queues) (now : Instant) : Prop where
  lateEnds : ((queues.giveUpIdleUnits now).dropAllLate now).dropLate now = none
  excessEnds : ((queues.giveUpIdleUnits now).dropAllLate now).dropAllExcess.dropExcess = none
  young : ∀ id unit, (queues.enforceBudget now).waiting.lookup id = some unit →
    now - unit.arrived ≤ videoBudget
  bytes : (queues.enforceBudget now).videoBytes ≤ maxQueuedVideoBytes
  sending : ∀ id unit, queues.started.lookup id = some unit → unit.packets ≠ [] →
    (∃ after, (queues.enforceBudget now).started.lookup id = some after ∧
      after.packets = unit.packets) ∨
    ∃ between, Relation.ReflTransGen (Round now) (queues.giveUpIdleUnits now) between ∧
      id ∈ between.started.keys ∧ Round now between (between.skipStrays.dropUnit id) ∧
      between.waiting = ∅ ∧ maxQueuedVideoBytes < between.videoBytes
  untouched :
    (∀ id unit, queues.waiting.lookup id = some unit →
      (∀ other later, queues.waiting.lookup other = some later → unit.arrived ≤ later.arrived) →
      now - unit.arrived ≤ videoBudget) →
    queues.videoBytes ≤ maxQueuedVideoBytes →
    (queues.enforceBudget now).waiting = queues.waiting

/-- The last search for a victim only skips strays. -/
theorem enforceBudget_skips (queues : Queues) (now : Instant) :
    let dropped := ((queues.giveUpIdleUnits now).dropAllLate now).dropAllExcess
    (queues.enforceBudget now).started = dropped.started ∧
      (queues.enforceBudget now).waiting = dropped.waiting ∧
      (queues.enforceBudget now).videoBytes = dropped.videoBytes := by
  unfold Queues.enforceBudget
  simp only
  split
  · exact ⟨rfl, rfl, rfl⟩
  · exact ⟨rfl, rfl, rfl⟩

/-- Started units are kept while something waits or the bytes fit. -/
theorem Consistent.sending_kept (consistent : queues.Consistent) (now : Instant) (id : Nat)
    (unit : VideoUnit) (found : queues.started.lookup id = some unit) (full : unit.packets ≠ []) :
    (∃ after, (queues.enforceBudget now).started.lookup id = some after ∧
      after.packets = unit.packets) ∨
    ∃ between, Relation.ReflTransGen (Round now) (queues.giveUpIdleUnits now) between ∧
      id ∈ between.started.keys ∧ Round now between (between.skipStrays.dropUnit id) ∧
      between.waiting = ∅ ∧ maxQueuedVideoBytes < between.videoBytes := by
  have running := (consistent.giveUpIdleUnits_spares now).2.2 id unit found full
  by_cases kept : id ∈ (queues.enforceBudget now).started.keys
  · obtain ⟨after, there⟩ := (Map.mem_keys_iff _ _).mp kept
    obtain ⟨before, here, alike⟩ := (Thins.enforceBudget queues now).started id after there
    cases found.symm.trans here
    exact Or.inl ⟨after, there, alike.packets⟩
  · have member := (Map.mem_keys_iff _ _).mpr ⟨unit, running⟩
    exact Or.inr (consistent.enforceBudget_started member kept)

/-- Where the oldest waiting unit isn't late and the bytes fit, neither loop does anything. -/
theorem Consistent.waiting_untouched (consistent : queues.Consistent)
    (order : queues.InArrivalOrder time)
    (inTime : ∀ id unit, queues.waiting.lookup id = some unit →
      (∀ other later, queues.waiting.lookup other = some later → unit.arrived ≤ later.arrived) →
      now - unit.arrived ≤ videoBudget)
    (fits : queues.videoBytes ≤ maxQueuedVideoBytes) :
    (queues.enforceBudget now).waiting = queues.waiting := by
  obtain ⟨waiting, bytes, -⟩ := consistent.giveUpIdleUnits_spares now
  have onTime : (queues.giveUpIdleUnits now).overBudget now = false := by
    unfold overBudget
    rw [waiting]
    cases least : queues.waiting.firstKey with
    | none => rfl
    | some first =>
      obtain ⟨⟨oldest, here⟩, before⟩ := Map.firstKey_eq_some least
      rw [Option.bind_some, here, Option.any_some, decide_eq_false_iff_not, not_lt]
      refine inTime first oldest here fun other later there => ?_
      exact order.ordered first oldest other later here there
        (before other ((Map.mem_keys_iff _ _).mpr ⟨later, there⟩))
  have late : (queues.giveUpIdleUnits now).dropAllLate now = queues.giveUpIdleUnits now := by
    refine loop_of_ended ?_ _
    unfold Queues.dropLate
    rw [if_neg (by rw [onTime]; exact Bool.false_ne_true)]
  have excess : (queues.giveUpIdleUnits now).dropAllExcess = queues.giveUpIdleUnits now := by
    refine loop_of_ended ?_ _
    unfold Queues.dropExcess
    rw [if_neg (not_lt.mpr (bytes.trans fits))]
  rw [(enforceBudget_skips queues now).2.1, late, excess, waiting]

/-- In every run whose times don't go back, every check of the budget at the end of it ends and
leaves what fits: whatever was pushed, lost, sent, forgotten and checked before. -/
theorem run_fitsBudget (inputs : List Input) (now : Instant)
    (forward : (inputs.filterMap Input.time ++ [now]).Pairwise (· ≤ ·)) :
    (run step {} inputs).FitsBudget now := by
  have consistent : (run step {} inputs).Consistent := run_queuesAgree inputs
  have order : (run step {} inputs).InArrivalOrder now :=
    inArrivalOrder_empty.run consistent_empty
      (List.pairwise_cons.mpr ⟨fun later _ => Nat.zero_le later, forward⟩)
  generalize run step {} inputs = queues at consistent order
  have idle := consistent.giveUpIdleUnits now
  have late := idle.dropAllLate now
  have ended := late.dropAllExcess_ends
  have skips := enforceBudget_skips queues now
  exact {
    lateEnds := idle.dropAllLate_ends now
    excessEnds := ended
    young := fun id unit found => by
      rw [skips.2.1] at found
      have ordered := (order.thins (Thins.giveUpIdleUnits queues now)).thins
        (Thins.dropAllLate _ now)
      obtain ⟨before, here, alike⟩ := (Thins.dropAllExcess _).waiting id unit found
      rw [alike.arrived]
      exact ordered.young (overBudget_of_ended (idle.dropAllLate_ends now)) id before here
    bytes := by
      rw [skips.2.2]
      exact late.dropAllExcess.bytes_of_ended ended
    sending := consistent.sending_kept now
    untouched := consistent.waiting_untouched order }

/-- Of two units that arrived 100 ms apart only the later is left 200 ms after the first. -/
theorem run_fitsBudget_late :
    let inputs : List Input := [.push (packetOf 0 .first) 0 0,
      .push (packetOf 2 .first) (fromMillis 100) 0]
    (run step {} inputs).FitsBudget (fromMillis 200) ∧
      ((run step {} inputs).enforceBudget (fromMillis 200)).waiting.keys = {1} :=
  ⟨run_fitsBudget _ _ (by decide), by decide +kernel⟩

end Queues

end Throcc
