/-
This file bounds how long a unit waits in the reorder stage. The timer belongs
to the first gap: a unit waits no longer than the window as long as the timer
never starts again for a further gap that units already wait behind. Otherwise
such a unit waits out one window for every gap before it.
-/

import Throcc.InOrder

namespace Throcc

namespace Reorder

/-! ### Further gaps -/

/-- Units are missing between two neighbours among the waiting ones, the later of which starts
at `first` or before. -/
def GapBehind (waiting : Map Nat AccessUnit) (first : Nat) : Prop :=
  ∃ earlier ∈ waiting.keys, ∃ later ∈ waiting.keys, later ≤ first ∧ earlier < later ∧
    (∀ between ∈ waiting.keys, between ≤ earlier ∨ later ≤ between) ∧
    ∃ unit ∈ waiting.lookup earlier, unit.lastSeq + 1 < later

instance : DecidableRel GapBehind := fun waiting _ =>
  inferInstanceAs (Decidable (∃ earlier ∈ waiting.keys, ∃ later ∈ waiting.keys, _))

/-- The units that are left are behind all that are gone. -/
structure Partway (start reorder : Reorder) : Prop where
  kept : ∀ first unit, reorder.waiting.lookup first = some unit →
    start.waiting.lookup first = some unit
  behind : ∀ gone ∈ start.waiting.keys, gone ∉ reorder.waiting.keys →
    ∀ first ∈ reorder.waiting.keys, gone < first

/-- A unit was emitted, and the wait that ended for it is over. -/
structure Advanced (now : Instant) (start reorder : Reorder) : Prop where
  passed : ∀ first ∈ start.waiting.firstKey, start.waitsFor first now = false
  ended : reorder.gapSince = none
  last : ∃ earlier unit, start.waiting.lookup earlier = some unit ∧
    earlier ∉ reorder.waiting.keys ∧ reorder.next = addU32 unit.lastSeq 1 ∧
    ∀ gone ∈ start.waiting.keys, gone ∉ reorder.waiting.keys → gone ≤ earlier

theorem Partway.refl (start : Reorder) : Partway start start where
  kept _ _ found := found
  behind _ member missing := absurd member missing

theorem Partway.emitFirst {start : Reorder} {now : Instant}
    {sofar next : List ReorderOutput × Reorder} (partway : Partway start sofar.2)
    (passed : ∀ first ∈ start.waiting.firstKey, start.waitsFor first now = false)
    (turned : Reorder.emitFirst now sofar = some next) :
    Partway start next.2 ∧ Advanced now start next.2 := by
  obtain ⟨first, unit, least, found, -, -, after⟩ := emitFirst_eq_some turned
  obtain ⟨_, lowest⟩ := Map.firstKey_eq_some least
  have keys : next.2.waiting.keys = sofar.2.waiting.keys.erase first := by
    rw [after]
    exact Finmap.keys_erase _ _
  have left (other : Nat) : other ∈ next.2.waiting.keys ↔
      other ≠ first ∧ other ∈ sofar.2.waiting.keys := by
    rw [keys, Finset.mem_erase]
  refine ⟨⟨fun other waiting there => ?_, fun gone member missing other there => ?_⟩, passed, ?_,
    first, unit, partway.kept first unit found, ?_, ?_, fun gone member missing => ?_⟩
  · rw [after] at there
    exact partway.kept other waiting (Map.erase_eq_some there).2
  · obtain ⟨different, there⟩ := (left other).mp there
    by_cases before : gone ∈ sofar.2.waiting.keys
    · have same : gone = first := by
        by_contra other
        exact missing ((left gone).mpr ⟨other, before⟩)
      rw [same]
      exact Nat.lt_of_le_of_ne (lowest other there) different.symm
    · exact partway.behind gone member before other there
  · rw [after]
  · rw [left]
    exact fun member => member.1 rfl
  · rw [after]
  · by_cases before : gone ∈ sofar.2.waiting.keys
    · by_contra above
      exact missing ((left gone).mpr ⟨fun same => above same.le, before⟩)
    · exact (partway.behind gone member before first
        ((Map.mem_keys_iff _ _).mpr ⟨unit, found⟩)).le

/-- Where emitting stops at a gap, everything left waits behind a further one. -/
theorem Advanced.gapBehind {now : Instant} {start reorder : Reorder}
    (advanced : Advanced now start reorder) (partway : Partway start reorder) {first : Nat}
    (least : reorder.waiting.firstKey = some first) (gap : reorder.gapBefore first = true)
    {other : Nat} (member : other ∈ reorder.waiting.keys) : GapBehind start.waiting other := by
  obtain ⟨earlier, unit, found, gone, next, latest⟩ := advanced.last
  obtain ⟨⟨waiting, there⟩, lowest⟩ := Map.firstKey_eq_some least
  have was : earlier ∈ start.waiting.keys := (Map.mem_keys_iff _ _).mpr ⟨unit, found⟩
  have here : first ∈ reorder.waiting.keys := (Map.mem_keys_iff _ _).mpr ⟨waiting, there⟩
  refine ⟨earlier, was, first, (Map.mem_keys_iff _ _).mpr ⟨waiting, partway.kept _ _ there⟩,
    lowest other member, partway.behind earlier was gone first here, fun between among => ?_,
    unit, found, ?_⟩
  · by_cases stays : between ∈ reorder.waiting.keys
    · exact Or.inr (lowest between stays)
    · exact Or.inl (latest between among stays)
  · unfold gapBefore at gap
    rw [next] at gap
    unfold addU32 at gap
    split at gap
    · exact of_decide_eq_true gap
    · exact absurd (of_decide_eq_true gap) (lt_irrefl first)

/-! ### Polling -/

theorem emitFirst_removes {now : Instant} {sofar next : List ReorderOutput × Reorder}
    (turned : emitFirst now sofar = some next) :
    next.2.waiting.keys.card < sofar.2.waiting.keys.card := by
  obtain ⟨first, unit, -, found, -, -, after⟩ := emitFirst_eq_some turned
  rw [after]
  dsimp only
  rw [Finmap.keys_erase]
  exact Finset.card_erase_lt_of_mem ((Map.mem_keys_iff _ _).mpr ⟨unit, found⟩)

/-- Polling emits nothing, or it ends the first wait. Either way it stops only at a gap that is
waited for. -/
theorem loop_emitFirst (reorder : Reorder) (now : Instant) :
    let polled := (loop (emitFirst now) reorder.waiting.keys.card ([], reorder)).2
    (∀ first, polled.waiting.firstKey = some first → polled.waitsFor first now = true) ∧
      (polled = reorder ∨ Partway reorder polled ∧ Advanced now reorder polled) := by
  intro polled
  have stopped : emitFirst now (loop (emitFirst now) reorder.waiting.keys.card ([], reorder)) =
      none :=
    loop_stops (fun _ => True)
      (fun sofar : List ReorderOutput × Reorder => sofar.2.waiting.keys.card)
      (fun _ _ _ _ => trivial) (fun _ _ _ turned => emitFirst_removes turned) trivial (le_refl _)
  refine ⟨fun first least => emitFirst_eq_none stopped least, ?_⟩
  refine loop_invariant (fun sofar : List ReorderOutput × Reorder =>
    sofar.2 = reorder ∨ Partway reorder sofar.2 ∧ Advanced now reorder sofar.2)
    (Or.inl rfl) ?_ _
  rintro sofar next (start | ⟨partway, advanced⟩) turned
  · have passed : ∀ first ∈ reorder.waiting.firstKey, reorder.waitsFor first now = false := by
      intro first least
      obtain ⟨first', unit, least', -, notWaiting, -⟩ := emitFirst_eq_some turned
      rw [start] at least' notWaiting
      rw [Option.mem_def, least', Option.some_inj] at least
      exact least ▸ notWaiting
    have partway : Partway reorder sofar.2 := by
      rw [start]
      exact Partway.refl reorder
    exact Or.inr (partway.emitFirst passed turned)
  · exact Or.inr (partway.emitFirst advanced.passed turned)

/-- Every waiting unit arrived when the timer started or later. -/
def TimedFrom (since : Instant) (waiting : Map Nat AccessUnit) (arrived : Map Nat Instant) : Prop :=
  ∀ first ∈ waiting.keys, ∃ arrival, arrived.lookup first = some arrival ∧ since ≤ arrival

/-- The timer of the first gap covers every waiting unit. -/
structure Timed (reorder : Reorder) (arrived : Map Nat Instant) (now : Instant) : Prop where
  since : ∀ since, reorder.gapSince = some since → since ≤ now
  waiting : ∀ first ∈ reorder.waiting.keys, ∃ since arrival, reorder.gapSince = some since ∧
    arrived.lookup first = some arrival ∧ since ≤ arrival

/-- Polling leaves every unit covered by a timer that has not run out, unless it ends a wait
while older units wait behind a further gap. -/
theorem Timed.poll {reorder : Reorder} {arrived : Map Nat Instant} {now : Instant}
    (since : ∀ since, reorder.gapSince = some since → since ≤ now)
    (covered : TimedFrom (reorder.gapSince.getD now) reorder.waiting arrived)
    (fresh : (∀ first ∈ reorder.waiting.firstKey, reorder.waitsFor first now = false) →
      ∀ first ∈ reorder.waiting.keys, GapBehind reorder.waiting first →
        ∀ arrival ∈ arrived.lookup first, now ≤ arrival) :
    Timed (reorder.poll now).2 arrived now ∧ ∀ first ∈ (reorder.poll now).2.waiting.keys,
      ∀ arrival ∈ arrived.lookup first, now < arrival + reorderWindow := by
  obtain ⟨stopped, reached⟩ := loop_emitFirst reorder now
  unfold Reorder.poll
  generalize loop (emitFirst now) reorder.waiting.keys.card ([], reorder) = looped
    at stopped reached
  obtain ⟨outputs, polled⟩ := looped
  dsimp only at stopped reached ⊢
  have sinceStill : ∀ since, polled.gapSince = some since → since ≤ now := by
    rcases reached with rfl | ⟨-, advanced⟩
    · exact since
    · intro since running
      rw [advanced.ended] at running
      cases running
  have coveredStill : (∃ first, polled.waiting.firstKey = some first) →
      TimedFrom (polled.gapSince.getD now) polled.waiting arrived := by
    rintro ⟨first, least⟩
    rcases reached with rfl | ⟨partway, advanced⟩
    · exact covered
    · intro other member
      obtain ⟨unit, found⟩ := (Map.mem_keys_iff _ _).mp member
      have was : other ∈ reorder.waiting.keys :=
        (Map.mem_keys_iff _ _).mpr ⟨unit, partway.kept _ _ found⟩
      have waited := stopped first least
      unfold waitsFor at waited
      rw [Bool.and_eq_true] at waited
      have behind := advanced.gapBehind partway least waited.1 member
      obtain ⟨arrival, arrives, -⟩ := covered other was
      rw [advanced.ended]
      exact ⟨arrival, arrives, fresh advanced.passed other was behind arrival arrives⟩
  unfold startGap
  cases least : polled.waiting.firstKey with
  | none =>
    have empty := Map.firstKey_eq_none.mp least
    rw [Option.any_none, if_neg Bool.false_ne_true]
    have missing : ∀ first, first ∉ polled.waiting.keys := by
      rw [empty]
      exact fun first => Finset.notMem_empty first
    exact ⟨⟨sinceStill, fun first member => absurd member (missing first)⟩,
      fun first member => absurd member (missing first)⟩
  | some first =>
    have waited := stopped first least
    unfold waitsFor at waited
    rw [Bool.and_eq_true, decide_eq_true_iff] at waited
    rw [Option.any_some, if_pos waited.1]
    refine ⟨⟨fun since running => ?_, fun other member => ?_⟩, fun other member arrival there => ?_⟩
    · cases running
      cases gap : polled.gapSince with
      | none => exact le_refl now
      | some since => exact sinceStill since gap
    · obtain ⟨arrival, there, after⟩ := coveredStill ⟨first, least⟩ other member
      exact ⟨_, arrival, rfl, there, after⟩
    · obtain ⟨arrival', there', after⟩ := coveredStill ⟨first, least⟩ other member
      rw [Option.mem_def, there', Option.some_inj] at there
      rw [← there]
      exact waited.2.trans_le (Nat.add_le_add_right after _)

/-! ### Histories -/

namespace History

variable (history : History)

/-- The stage as an input finds it when it starts to emit. -/
def joined : Input → Option Reorder
  | .push unit _ =>
    if history.reorder.isLate unit then none else some (history.reorder.enqueue unit)
  | .poll _ => some history.reorder

/-- When the units arrived that wait once an input has joined them. -/
def arrivals : Input → Map Nat Instant
  | .push unit now => history.arrived.insert unit.firstSeq now
  | .poll _ => history.arrived

/-- The wait for the first gap ends while a unit that arrived earlier waits behind a further
one, for which the timer starts again. -/
def Restarts (input : Input) : Prop :=
  ∃ reorder ∈ history.joined input,
    (∀ first ∈ reorder.waiting.firstKey, reorder.waitsFor first input.now = false) ∧
    ∃ first ∈ reorder.waiting.keys, GapBehind reorder.waiting first ∧
      ∃ arrival ∈ (history.arrivals input).lookup first, arrival < input.now

instance (input : Input) : Decidable (history.Restarts input) :=
  inferInstanceAs (Decidable (∃ reorder ∈ history.joined input, _ ∧ _))

end History

open History

theorem Timed.push {history : History} (timed : Timed history.reorder history.arrived history.now)
    {unit : AccessUnit} {now : Instant} (later : history.now ≤ now)
    (notRestarts : ¬ history.Restarts (.push unit now)) :
    Timed (history.step (.push unit now)).reorder (history.step (.push unit now)).arrived now := by
  cases late : history.reorder.isLate unit with
  | true =>
    rw [step_late late now]
    exact ⟨fun since running => (timed.since since running).trans later, timed.waiting⟩
  | false =>
    rw [step_enqueue late now]
    have since : ∀ since, (history.reorder.enqueue unit).gapSince = some since → since ≤ now :=
      fun since running => (timed.since since running).trans later
    have covered : TimedFrom ((history.reorder.enqueue unit).gapSince.getD now)
        (history.reorder.enqueue unit).waiting (history.arrived.insert unit.firstSeq now) := by
      intro first member
      rw [Map.lookup_insert_ite]
      split
      · refine ⟨now, rfl, ?_⟩
        cases gap : (history.reorder.enqueue unit).gapSince with
        | none => exact le_refl now
        | some before => exact since before gap
      · rename_i different
        obtain ⟨waiting, found⟩ := (Map.mem_keys_iff _ _).mp member
        have was : first ∈ history.reorder.waiting.keys := by
          rcases lookup_enqueue found with ⟨same, -⟩ | found
          · exact absurd same different
          · exact (Map.mem_keys_iff _ _).mpr ⟨waiting, found⟩
        obtain ⟨start, arrival, running, there, after⟩ := timed.waiting first was
        refine ⟨arrival, there, ?_⟩
        have same : (history.reorder.enqueue unit).gapSince = some start := running
        rw [same]
        exact after
    refine (Timed.poll since covered fun passed first member behind arrival there => ?_).1
    by_contra early
    have joined : history.joined (.push unit now) = some (history.reorder.enqueue unit) := by
      unfold joined
      dsimp only
      rw [late]
      rfl
    exact notRestarts ⟨_, joined, passed, first, member, behind, arrival, there, not_le.mp early⟩

theorem Timed.polled {history : History} (timed : Timed history.reorder history.arrived history.now)
    {now : Instant} (later : history.now ≤ now) (notRestarts : ¬ history.Restarts (.poll now)) :
    Timed (history.step (.poll now)).reorder (history.step (.poll now)).arrived now ∧
      ∀ first ∈ (history.step (.poll now)).reorder.waiting.keys,
        ∀ arrival ∈ (history.step (.poll now)).arrived.lookup first,
          now < arrival + reorderWindow := by
  refine Timed.poll (fun since running => (timed.since since running).trans later)
    (fun first member => ?_) fun passed first member behind arrival there => ?_
  · obtain ⟨since, arrival, running, there, after⟩ := timed.waiting first member
    rw [running]
    exact ⟨arrival, there, after⟩
  · by_contra early
    exact notRestarts ⟨_, rfl, passed, first, member, behind, arrival, there, not_le.mp early⟩

theorem Timed.step {history : History} (timed : Timed history.reorder history.arrived history.now)
    {input : Input} (later : history.now ≤ input.now) (notRestarts : ¬ history.Restarts input) :
    Timed (history.step input).reorder (history.step input).arrived (history.step input).now := by
  cases input with
  | poll now => exact (timed.polled later notRestarts).1
  | push unit now =>
    have advanced : (history.step (.push unit now)).now = now := by
      cases late : history.reorder.isLate unit with
      | true => rw [step_late late now]
      | false => rw [step_enqueue late now]
    rw [advanced]
    exact timed.push later notRestarts

/-! ### Runs -/

namespace History

/-- In every run at times that don't fall, in which the timer never starts again while units
that came earlier wait behind a further gap: after a poll no unit waits that was pushed a
whole window before. -/
theorem run_waitsWithinWindow (inputs : List Input) (now : Instant)
    (rising : Along step (fun history input => history.now ≤ input.now) {}
      (inputs ++ [.poll now]))
    (along : Along step (fun history input => ¬ history.Restarts input) {}
      (inputs ++ [.poll now])) :
    let after := Throcc.run step {} (inputs ++ [.poll now])
    ∀ first unit, after.reorder.waiting.lookup first = some unit →
      ∀ arrival, after.arrived.lookup first = some arrival → now < arrival + reorderWindow := by
  intro after first unit found arrival there
  obtain ⟨before, last⟩ := Along.append.mp (rising.and along)
  have timed := before.invariant
    (fun history => Timed history.reorder history.arrived history.now)
    ⟨(fun _ running => by cases running), fun _ member => absurd member (Finset.notMem_empty _)⟩
    (fun history input timed met => timed.step met.1 met.2)
  have same : after = step (Throcc.run step {} inputs) (.poll now) := run_concat _ _ _ _
  rw [same] at found there
  exact (timed.polled last.1.1 last.1.2).2 first ((Map.mem_keys_iff _ _).mpr ⟨unit, found⟩)
    arrival there

/-- Unit 5 waits out the window for the four before it while unit 10 comes, which waits from
then on. -/
def gapAfterGap : List Input :=
  [ .push (unitAt 0 0) 0, .push (unitAt 5 5) 0, .push (unitAt 10 10) (fromMillis 50) ]

theorem run_waitsWithinWindow_gapAfterGap :
    let after := Throcc.run step {} (gapAfterGap ++ [.poll (fromMillis 99)])
    after.reorder.waiting.lookup 10 = some (unitAt 10 10) ∧
      fromMillis 99 < fromMillis 50 + reorderWindow :=
  ⟨by decide +kernel, run_waitsWithinWindow gapAfterGap (fromMillis 99) (by decide +kernel)
    (by decide +kernel) 10 (unitAt 10 10) (by decide +kernel) (fromMillis 50)
    (by decide +kernel)⟩

/-- Two gaps at once: the unit behind the second still waits after the window, for which the
timer starts again. -/
theorem waits_anotherWindow :
    let inputs := [Input.push (unitAt 0 0) 0, .push (unitAt 5 5) 0, .push (unitAt 10 10) 0]
    let after := Throcc.run step {} (inputs ++ [.poll (fromMillis 50)])
    Along step (fun history input => history.now ≤ input.now) {}
      (inputs ++ [.poll (fromMillis 50)]) ∧
    after.reorder.waiting.lookup 10 = some (unitAt 10 10) ∧
      after.arrived.lookup 10 = some 0 ∧ ¬ fromMillis 50 < 0 + reorderWindow := by
  decide +kernel

end History

end Reorder

end Throcc
