/-
This file proves what the reorder stage answers: units come out in the order of
their sequence numbers, each skip is announced just before, and every unit is
emitted, late, evicted or waiting. It holds until a unit that ends at the last
sequence number of all has been emitted: what is pushed after that is taken for
the first unit of a new track.
-/

import Throcc.Reorder

namespace Throcc

namespace Reorder

/-! ### Outputs -/

def ReorderOutput.emitted : ReorderOutput → Option AccessUnit
  | .unit unit => some unit
  | .abandoned _ => none
  | .late => none

/-- The units among the outputs. -/
def emitted (outputs : List ReorderOutput) : List AccessUnit :=
  outputs.filterMap ReorderOutput.emitted

@[simp] theorem emitted_append (outputs more : List ReorderOutput) :
    emitted (outputs ++ more) = emitted outputs ++ emitted more := List.filterMap_append

@[simp] theorem emitted_late : emitted [.late] = [] := rfl

@[simp] theorem emitted_abandoned (first : Nat) : emitted [.abandoned first] = [] := rfl

@[simp] theorem emitted_unit (unit : AccessUnit) : emitted [.unit unit] = [unit] := rfl

/-- Where a unit doesn't start right after the one emitted before it, the first `seq` skipped
was announced just before it. -/
def Announced (outputs : List ReorderOutput) : Prop :=
  ∀ before unit after, outputs = before ++ .unit unit :: after →
    ∀ previous, (emitted before).getLast? = some previous →
      unit.firstSeq = previous.lastSeq + 1 ∨
        before.getLast? = some (.abandoned (previous.lastSeq + 1))

/-- What follows the outputs so far. -/
theorem Announced.concat {outputs : List ReorderOutput} (announced : Announced outputs)
    (output : ReorderOutput)
    (follows : ∀ unit, output = .unit unit →
      ∀ previous, (emitted outputs).getLast? = some previous →
        unit.firstSeq = previous.lastSeq + 1 ∨
          outputs.getLast? = some (.abandoned (previous.lastSeq + 1))) :
    Announced (outputs ++ [output]) := by
  intro before unit after same previous last
  rcases List.eq_nil_or_concat after with rfl | ⟨rest, final, rfl⟩
  · obtain ⟨rfl, new⟩ := List.append_inj' same rfl
    exact follows unit (List.cons.inj new).1 previous last
  · rw [List.concat_eq_append, ← List.cons_append, ← List.append_assoc] at same
    exact announced before unit rest (List.append_inj' same rfl).1 previous last

/-! ### One turn of the loop -/

/-- Two units share no sequence number. -/
def Apart (unit other : AccessUnit) : Prop :=
  unit.lastSeq < other.firstSeq ∨ other.lastSeq < unit.firstSeq

/-- A unit's sequence numbers are a range of 32-bit numbers. -/
def Ranges (unit : AccessUnit) : Prop := unit.firstSeq ≤ unit.lastSeq ∧ unit.lastSeq ≤ u32Max

instance : DecidableRel Apart := fun _ _ => inferInstanceAs (Decidable (_ ∨ _))

instance : DecidablePred Ranges := fun _ => inferInstanceAs (Decidable (_ ∧ _))

/-- What was emitted is in order and behind everything that waits. -/
structure Ordered (outputs : List ReorderOutput) (reorder : Reorder) : Prop where
  rising : (emitted outputs).Pairwise fun unit other => unit.lastSeq < other.firstSeq
  keyed : ∀ first unit, reorder.waiting.lookup first = some unit →
    unit.firstSeq = first ∧ Ranges unit
  apart : ∀ first unit other waiting, reorder.waiting.lookup first = some unit →
    reorder.waiting.lookup other = some waiting → first < other → unit.lastSeq < other
  ahead : ∀ unit ∈ emitted outputs, ∀ first waiting,
    reorder.waiting.lookup first = some waiting → unit.lastSeq < first
  next : ∀ unit, (emitted outputs).getLast? = some unit → reorder.next = addU32 unit.lastSeq 1
  announced : Announced outputs

/-- Whether a unit waits, as a number. -/
def waits (waiting : Map Nat AccessUnit) (unit : AccessUnit) : Nat :=
  if waiting.lookup unit.firstSeq = some unit then 1 else 0

theorem waits_erase {waiting : Map Nat AccessUnit} {out : AccessUnit}
    (found : waiting.lookup out.firstSeq = some out) (unit : AccessUnit) :
    waits (waiting.erase out.firstSeq) unit + [out].count unit = waits waiting unit := by
  unfold waits
  rw [Map.lookup_erase_ite, List.count_singleton]
  by_cases here : unit.firstSeq = out.firstSeq
  · rw [if_pos here, here, found]
    simp
  · have different : out ≠ unit := fun equal => here (equal ▸ rfl)
    rw [if_neg here]
    simp [different]

theorem waits_insert {waiting : Map Nat AccessUnit} {new : AccessUnit}
    (missing : waiting.lookup new.firstSeq = none) (unit : AccessUnit) :
    waits (waiting.insert new.firstSeq new) unit = waits waiting unit + [new].count unit := by
  unfold waits
  rw [Map.lookup_insert_ite, List.count_singleton]
  by_cases here : unit.firstSeq = new.firstSeq
  · rw [if_pos here, here, missing]
    simp
  · have different : new ≠ unit := fun equal => here (equal ▸ rfl)
    rw [if_neg here]
    simp [different]

theorem emitFirst_eq_some {now : Instant} {sofar next : List ReorderOutput × Reorder}
    (turned : emitFirst now sofar = some next) :
    ∃ first unit, sofar.2.waiting.firstKey = some first ∧
      sofar.2.waiting.lookup first = some unit ∧ sofar.2.waitsFor first now = false ∧
      next.1 = sofar.1 ++
        (if sofar.2.gapBefore first then [.abandoned (sofar.2.next.getD first)] else []) ++
        [.unit unit] ∧
      next.2 = ⟨addU32 unit.lastSeq 1, sofar.2.waiting.erase first, none⟩ := by
  unfold emitFirst at turned
  obtain ⟨first, least, turned⟩ := Option.bind_eq_some_iff.mp turned
  obtain ⟨unit, found, turned⟩ := Option.bind_eq_some_iff.mp turned
  dsimp only at turned
  split at turned
  · cases turned
  · rename_i notWaiting
    cases turned
    exact ⟨first, unit, least, found, Bool.eq_false_iff.mpr notWaiting, rfl, rfl⟩

theorem emitFirst_eq_none {now : Instant} {sofar : List ReorderOutput × Reorder}
    (stopped : emitFirst now sofar = none) {first : Nat}
    (least : sofar.2.waiting.firstKey = some first) : sofar.2.waitsFor first now = true := by
  obtain ⟨⟨unit, found⟩, _⟩ := Map.firstKey_eq_some least
  unfold emitFirst at stopped
  dsimp only at stopped
  rw [least] at stopped
  simp only [Option.bind_eq_bind, Option.bind_some, found] at stopped
  by_contra notWaiting
  rw [if_neg notWaiting] at stopped
  cases stopped

theorem Map.erase_eq_some {map : Map Nat AccessUnit} {key other : Nat} {unit : AccessUnit}
    (found : (map.erase key).lookup other = some unit) :
    other ≠ key ∧ map.lookup other = some unit := by
  rw [Map.lookup_erase_ite] at found
  split at found
  · cases found
  · rename_i different
    exact ⟨different, found⟩

/-- The next unit starts at the next number, or the gap before it is announced. -/
theorem Ordered.follows {outputs : List ReorderOutput} {reorder : Reorder}
    (ordered : Ordered outputs reorder) {first : Nat} {unit previous : AccessUnit}
    (found : reorder.waiting.lookup first = some unit)
    (last : (emitted outputs).getLast? = some previous) :
    if reorder.gapBefore first then reorder.next.getD first = previous.lastSeq + 1
    else unit.firstSeq = previous.lastSeq + 1 := by
  obtain ⟨same, ordered', bounded⟩ := ordered.keyed first unit found
  have behind := ordered.ahead previous (List.mem_of_getLast? last) first unit found
  have next : reorder.next = some (previous.lastSeq + 1) :=
    (ordered.next previous last).trans (if_pos (by omega))
  unfold gapBefore
  rw [next, Option.getD_some]
  split
  · rfl
  · rename_i noGap
    rw [decide_eq_true_iff] at noGap
    omega

theorem Ordered.emitFirst {before : List ReorderOutput} {now : Instant}
    {sofar next : List ReorderOutput × Reorder} (ordered : Ordered (before ++ sofar.1) sofar.2)
    (turned : emitFirst now sofar = some next) : Ordered (before ++ next.1) next.2 := by
  obtain ⟨first, unit, least, found, notWaiting, outputs, reorder⟩ := emitFirst_eq_some turned
  obtain ⟨_, lowest⟩ := Map.firstKey_eq_some least
  obtain ⟨same, range⟩ := ordered.keyed first unit found
  have follows (previous : AccessUnit)
      (last : (emitted (before ++ sofar.1)).getLast? = some previous) := ordered.follows found last
  have new : emitted (before ++ next.1) = emitted (before ++ sofar.1) ++ [unit] := by
    rw [outputs]
    split
    · simp only [emitted_append, emitted_abandoned, emitted_unit, List.append_assoc, List.nil_append]
    · simp only [emitted_append, emitted_unit, List.append_assoc, List.append_nil]
  have behind : ∀ previous ∈ emitted (before ++ sofar.1), previous.lastSeq < unit.firstSeq := by
    intro previous member
    rw [same]
    exact ordered.ahead previous member first unit found
  rw [reorder]
  constructor
  · rw [new]
    refine List.pairwise_append.mpr ⟨ordered.rising, List.pairwise_singleton _ _, ?_⟩
    intro previous member other last
    rw [List.mem_singleton] at last
    exact last ▸ behind previous member
  · intro other waiting there
    exact ordered.keyed other waiting (Map.erase_eq_some there).2
  · intro other waiting another waiting' there there'
    exact ordered.apart other waiting another waiting' (Map.erase_eq_some there).2
      (Map.erase_eq_some there').2
  · intro previous member other waiting there
    obtain ⟨different, there⟩ := Map.erase_eq_some there
    rw [new] at member
    rcases List.mem_append.mp member with old | last
    · exact ordered.ahead previous old other waiting there
    · rw [List.mem_singleton] at last
      have above := lowest other ((Map.mem_keys_iff _ _).mpr ⟨waiting, there⟩)
      exact last ▸ ordered.apart first unit other waiting found there
        (Nat.lt_of_le_of_ne above different.symm)
  · intro previous last
    rw [new, List.getLast?_concat, Option.some_inj] at last
    rw [← last]
  · rw [outputs]
    by_cases gap : sofar.2.gapBefore first = true
    · rw [if_pos gap, ← List.append_assoc, ← List.append_assoc]
      refine (ordered.announced.concat _ fun _ other => by cases other).concat _ ?_
      rintro _ ⟨⟩ previous last
      rw [emitted_append, emitted_abandoned, List.append_nil] at last
      have skipped := follows previous last
      rw [if_pos gap] at skipped
      rw [List.getLast?_concat, skipped]
      exact Or.inr rfl
    · rw [if_neg gap, List.append_nil, ← List.append_assoc]
      refine ordered.announced.concat _ ?_
      rintro _ ⟨⟩ previous last
      have next := follows previous last
      rw [if_neg gap] at next
      exact Or.inl next

/-- What a turn emits no longer waits. -/
theorem waits_emitFirst {now : Instant} {sofar next : List ReorderOutput × Reorder}
    (keyed : ∀ first unit, sofar.2.waiting.lookup first = some unit → unit.firstSeq = first)
    (turned : Reorder.emitFirst now sofar = some next) (unit : AccessUnit) :
    (emitted next.1).count unit + waits next.2.waiting unit =
      (emitted sofar.1).count unit + waits sofar.2.waiting unit := by
  obtain ⟨first, out, -, found, -, outputs, reorder⟩ := emitFirst_eq_some turned
  have same := keyed first out found
  subst same
  have new : emitted next.1 = emitted sofar.1 ++ [out] := by
    rw [outputs]
    split
    · simp only [emitted_append, emitted_abandoned, emitted_unit, List.append_nil]
    · simp only [emitted_append, emitted_unit, List.append_nil]
  have erased := waits_erase found unit
  rw [new, reorder, List.count_append]
  dsimp only
  omega

/-! ### Polling and pushing -/

theorem Ordered.startGap {outputs : List ReorderOutput} {reorder : Reorder}
    (ordered : Ordered outputs reorder) (now : Instant) :
    Ordered outputs (reorder.startGap now) := by
  unfold Reorder.startGap
  split
  · exact ⟨ordered.rising, ordered.keyed, ordered.apart, ordered.ahead, ordered.next,
      ordered.announced⟩
  · exact ordered

theorem waiting_startGap (reorder : Reorder) (now : Instant) :
    (reorder.startGap now).waiting = reorder.waiting := by
  unfold Reorder.startGap
  split <;> rfl

theorem Ordered.poll {outputs : List ReorderOutput} {reorder : Reorder}
    (ordered : Ordered outputs reorder) (now : Instant) :
    Ordered (outputs ++ (reorder.poll now).1) (reorder.poll now).2 ∧
      ∀ unit, (emitted (reorder.poll now).1).count unit + waits (reorder.poll now).2.waiting unit =
        waits reorder.waiting unit := by
  have looped : ∀ fuel, Ordered
      (outputs ++ (loop (Reorder.emitFirst now) fuel ([], reorder)).1)
      (loop (Reorder.emitFirst now) fuel ([], reorder)).2 ∧
      ∀ unit, (emitted (loop (Reorder.emitFirst now) fuel ([], reorder)).1).count unit +
        waits (loop (Reorder.emitFirst now) fuel ([], reorder)).2.waiting unit =
          waits reorder.waiting unit := by
    refine loop_invariant (fun sofar : List ReorderOutput × Reorder =>
      Ordered (outputs ++ sofar.1) sofar.2 ∧ ∀ unit,
        (emitted sofar.1).count unit + waits sofar.2.waiting unit = waits reorder.waiting unit)
      ⟨by rwa [List.append_nil], fun unit => Nat.zero_add _⟩ ?_
    rintro sofar next ⟨kept, counted⟩ turned
    refine ⟨kept.emitFirst turned, fun unit => ?_⟩
    rw [waits_emitFirst (fun first unit found => (kept.keyed first unit found).1) turned unit]
    exact counted unit
  have looped := looped reorder.waiting.keys.card
  unfold Reorder.poll
  generalize loop (Reorder.emitFirst now) reorder.waiting.keys.card ([], reorder) = polled
    at looped
  obtain ⟨answers, after⟩ := polled
  refine ⟨looped.1.startGap now, fun unit => ?_⟩
  dsimp only
  rw [waiting_startGap]
  exact looped.2 unit

/-- The waiting units once room is made for another. -/
def roomy (reorder : Reorder) : Map Nat AccessUnit :=
  if maxWaiting ≤ reorder.waiting.keys.card then
    reorder.waiting.firstKey.elim reorder.waiting reorder.waiting.erase
  else
    reorder.waiting

theorem lookup_roomy {reorder : Reorder} {first : Nat} {unit : AccessUnit}
    (found : (roomy reorder).lookup first = some unit) :
    reorder.waiting.lookup first = some unit := by
  unfold roomy at found
  split at found
  · cases least : reorder.waiting.firstKey with
    | none =>
      rw [least] at found
      exact found
    | some gone =>
      rw [least] at found
      exact (Map.erase_eq_some found).2
  · exact found

/-- What waits once a unit was let in is that unit, or it waited before. -/
theorem lookup_enqueue {reorder : Reorder} {unit waiting : AccessUnit} {first : Nat}
    (found : (reorder.enqueue unit).waiting.lookup first = some waiting) :
    first = unit.firstSeq ∧ waiting = unit ∨ reorder.waiting.lookup first = some waiting := by
  have admitted : (reorder.enqueue unit).waiting = (roomy reorder).insert unit.firstSeq unit := rfl
  rw [admitted, Map.lookup_insert_ite] at found
  split at found
  · rename_i same
    exact Or.inl ⟨same, (Option.some.inj found).symm⟩
  · exact Or.inr (lookup_roomy found)

theorem waits_roomy {reorder : Reorder}
    (keyed : ∀ first unit, reorder.waiting.lookup first = some unit → unit.firstSeq = first)
    (unit : AccessUnit) :
    waits (roomy reorder) unit + reorder.victim.toList.count unit =
      waits reorder.waiting unit := by
  unfold roomy victim
  split
  · cases least : reorder.waiting.firstKey with
    | none => rfl
    | some first =>
      obtain ⟨⟨out, found⟩, _⟩ := Map.firstKey_eq_some least
      have same := keyed first out found
      subst same
      rw [Option.bind_some, found]
      exact waits_erase found unit
  · rfl

/-- A unit behind which nothing was emitted may wait. -/
theorem Ordered.enqueue {outputs : List ReorderOutput} {reorder : Reorder}
    (ordered : Ordered outputs reorder) {unit : AccessUnit} (ranges : Ranges unit)
    (ahead : ∀ previous ∈ emitted outputs, previous.lastSeq < unit.firstSeq)
    (apart : ∀ first waiting, reorder.waiting.lookup first = some waiting → Apart waiting unit)
    (started : emitted outputs ≠ [] → reorder.next.isSome) :
    Ordered outputs (reorder.enqueue unit) ∧
      ∀ other, waits (reorder.enqueue unit).waiting other + reorder.victim.toList.count other =
        waits reorder.waiting other + [unit].count other := by
  have keyed (first : Nat) (waiting : AccessUnit)
      (found : reorder.waiting.lookup first = some waiting) :=
    (ordered.keyed first waiting found).1
  have missing : (roomy reorder).lookup unit.firstSeq = none := by
    refine Option.eq_none_iff_forall_ne_some.mpr fun waiting there => ?_
    obtain ⟨same, range⟩ := ordered.keyed _ waiting (lookup_roomy there)
    have different := apart _ waiting (lookup_roomy there)
    unfold Apart at different
    have first := range.1
    have last := ranges.1
    omega
  constructor
  · constructor
    · exact ordered.rising
    · intro first waiting found
      rcases lookup_enqueue found with ⟨rfl, rfl⟩ | old
      · exact ⟨rfl, ranges⟩
      · exact ordered.keyed first waiting old
    · intro first waiting other waiting' found found' below
      rcases lookup_enqueue found with ⟨rfl, rfl⟩ | old
      · rcases lookup_enqueue found' with ⟨rfl, rfl⟩ | old'
        · exact absurd below (lt_irrefl _)
        · have different := apart other waiting' old'
          have same := ordered.keyed other waiting' old'
          unfold Apart at different
          have := same.2.1
          omega
      · rcases lookup_enqueue found' with ⟨rfl, rfl⟩ | old'
        · have different := apart first waiting old
          have same := ordered.keyed first waiting old
          unfold Apart at different
          have := ranges.1
          omega
        · exact ordered.apart first waiting other waiting' old old' below
    · intro previous member first waiting found
      rcases lookup_enqueue found with ⟨rfl, rfl⟩ | old
      · exact ahead previous member
      · exact ordered.ahead previous member first waiting old
    · intro previous last
      have nonempty : emitted outputs ≠ [] := List.ne_nil_of_mem (List.mem_of_getLast? last)
      obtain ⟨next, some⟩ := Option.isSome_iff_exists.mp (started nonempty)
      rw [← ordered.next previous last, some]
      show Option.some (reorder.next.getD unit.firstSeq) = _
      rw [some]
      rfl
    · exact ordered.announced
  · intro other
    have admitted : (reorder.enqueue unit).waiting = (roomy reorder).insert unit.firstSeq unit := rfl
    rw [admitted, waits_insert missing other]
    have before := waits_roomy keyed other
    omega

/-! ### Histories -/

namespace History

/-- What holds of every history until a unit is pushed after the last of all. -/
structure Sound (history : History) : Prop where
  ordered : Ordered history.outputs history.reorder
  ranges : ∀ unit ∈ history.pushed, Ranges unit
  counted : ∀ unit, history.pushed.count unit = (emitted history.outputs).count unit +
    history.late.count unit + history.evicted.count unit + waits history.reorder.waiting unit

theorem sound_empty : ({} : History).Sound where
  ordered :=
    { rising := .nil
      keyed := fun _ _ found => by cases found
      apart := fun _ _ _ _ found => by cases found
      ahead := fun _ member => absurd member List.not_mem_nil
      next := fun _ last => by cases last
      announced := fun before _ _ same => absurd same.symm (by simp) }
  ranges _ member := absurd member List.not_mem_nil
  counted _ := rfl

variable {history : History}

theorem Sound.mem_of_emitted (sound : history.Sound) {unit : AccessUnit}
    (member : unit ∈ emitted history.outputs) : unit ∈ history.pushed := by
  have positive := List.count_pos_iff.mpr member
  have counted := sound.counted unit
  exact List.count_pos_iff.mp (by omega)

theorem Sound.mem_of_waiting (sound : history.Sound) {first : Nat} {unit : AccessUnit}
    (found : history.reorder.waiting.lookup first = some unit) : unit ∈ history.pushed := by
  have same := (sound.ordered.keyed first unit found).1
  have one : waits history.reorder.waiting unit = 1 := if_pos (same ▸ found)
  have counted := sound.counted unit
  exact List.count_pos_iff.mp (by omega)

/-- The unit is pushed after one that ends at the last `seq` of all was emitted. -/
def AfterLast (history : History) : Input → Prop
  | .push _ _ => ∃ unit ∈ emitted history.outputs, unit.lastSeq = u32Max
  | .poll _ => False

instance (history : History) (input : Input) : Decidable (history.AfterLast input) :=
  match input with
  | .push _ _ =>
    inferInstanceAs (Decidable (∃ unit ∈ emitted history.outputs, unit.lastSeq = u32Max))
  | .poll _ => .isFalse nofun

theorem Sound.poll (sound : history.Sound) (now : Instant) : (history.step (.poll now)).Sound := by
  obtain ⟨ordered, counted⟩ := sound.ordered.poll now
  refine ⟨ordered, sound.ranges, fun unit => ?_⟩
  have before := sound.counted unit
  have polled := counted unit
  show history.pushed.count unit =
    (emitted (history.outputs ++ (history.reorder.poll now).1)).count unit + history.late.count unit +
      history.evicted.count unit + waits (history.reorder.poll now).2.waiting unit
  rw [emitted_append, List.count_append]
  omega

/-- A unit that isn't late starts behind everything emitted. -/
theorem Sound.ahead (sound : history.Sound) {unit : AccessUnit}
    (apart : ∀ other ∈ history.pushed, Apart other unit)
    (notLast : ∀ other ∈ emitted history.outputs, other.lastSeq ≠ u32Max)
    (inTime : history.reorder.isLate unit = false) :
    (∀ previous ∈ emitted history.outputs, previous.lastSeq < unit.firstSeq) ∧
      (emitted history.outputs ≠ [] → history.reorder.next.isSome) := by
  rcases List.eq_nil_or_concat (emitted history.outputs) with none | ⟨rest, last, same⟩
  · rw [none]
    exact ⟨fun _ member => absurd member List.not_mem_nil, fun some => absurd rfl some⟩
  · rw [List.concat_eq_append] at same
    have member : last ∈ emitted history.outputs := by rw [same]; simp
    have there := sound.mem_of_emitted member
    have range := sound.ranges last there
    have notMax := notLast last member
    have next : history.reorder.next = some (last.lastSeq + 1) := by
      have bounded : last.lastSeq + 1 ≤ u32Max := by
        have := range.2
        omega
      exact (sound.ordered.next last (by rw [same, List.getLast?_concat])).trans (if_pos bounded)
    have behind : last.lastSeq < unit.firstSeq := by
      have reaches : ¬ unit.lastSeq < last.lastSeq + 1 := by
        unfold isLate at inTime
        rw [next] at inTime
        exact of_decide_eq_false inTime
      rcases apart last there with before | after
      · exact before
      · have := range.1
        omega
    refine ⟨fun previous old => ?_, fun _ => by rw [next]; rfl⟩
    have rising := sound.ordered.rising
    rw [same] at rising old
    rcases List.mem_append.mp old with earlier | same
    · have below := (List.pairwise_append.mp rising).2.2 previous earlier last
        (List.mem_singleton_self last)
      exact (below.trans_le range.1).trans behind
    · rw [List.mem_singleton] at same
      exact same ▸ behind

theorem step_late {unit : AccessUnit} (late : history.reorder.isLate unit = true) (now : Instant) :
    history.step (.push unit now) = { history with
      outputs := history.outputs ++ [.late]
      pushed := history.pushed ++ [unit]
      late := history.late ++ [unit]
      now } := by
  unfold step push
  simp only [late, if_true]

theorem step_enqueue {unit : AccessUnit} (inTime : history.reorder.isLate unit = false)
    (now : Instant) :
    history.step (.push unit now) = { history with
      reorder := ((history.reorder.enqueue unit).poll now).2
      outputs := history.outputs ++ ((history.reorder.enqueue unit).poll now).1
      pushed := history.pushed ++ [unit]
      evicted := history.evicted ++ history.reorder.victim.toList
      arrived := history.arrived.insert unit.firstSeq now
      now } := by
  unfold step push
  simp only [inTime, Bool.false_eq_true, if_false]

theorem Sound.push (sound : history.Sound) {unit : AccessUnit} (ranges : Ranges unit)
    (apart : ∀ other ∈ history.pushed, Apart other unit) (now : Instant)
    (notAfter : ¬ history.AfterLast (.push unit now)) :
    (history.step (.push unit now)).Sound := by
  have rangesAll : ∀ other ∈ history.pushed ++ [unit], Ranges other := by
    intro other member
    rcases List.mem_append.mp member with old | new
    · exact sound.ranges other old
    · rw [List.mem_singleton] at new
      exact new ▸ ranges
  cases late : history.reorder.isLate unit with
  | true =>
    rw [step_late late now]
    have same : emitted (history.outputs ++ [.late]) = emitted history.outputs := by
      rw [emitted_append, emitted_late, List.append_nil]
    refine ⟨?_, rangesAll, fun other => ?_⟩
    · have kept := sound.ordered
      show Ordered (history.outputs ++ [.late]) history.reorder
      constructor
      · rw [same]
        exact kept.rising
      · exact kept.keyed
      · exact kept.apart
      · rw [same]
        exact kept.ahead
      · rw [same]
        exact kept.next
      · exact kept.announced.concat _ fun _ other => by cases other
    · have before := sound.counted other
      show (history.pushed ++ [unit]).count other =
        (emitted (history.outputs ++ [.late])).count other + (history.late ++ [unit]).count other +
          history.evicted.count other + waits history.reorder.waiting other
      rw [same, List.count_append, List.count_append]
      omega
  | false =>
    rw [step_enqueue late now]
    obtain ⟨ahead, started⟩ := sound.ahead apart
      (fun other member last => notAfter ⟨other, member, last⟩) late
    obtain ⟨admitted, entered⟩ := sound.ordered.enqueue ranges ahead
      (fun first waiting found => apart waiting (sound.mem_of_waiting found)) started
    obtain ⟨ordered, counted⟩ := admitted.poll now
    refine ⟨ordered, rangesAll, fun other => ?_⟩
    have before := sound.counted other
    have entering := entered other
    have polled := counted other
    show (history.pushed ++ [unit]).count other =
      (emitted (history.outputs ++ ((history.reorder.enqueue unit).poll now).1)).count other +
        history.late.count other +
        (history.evicted ++ history.reorder.victim.toList).count other +
        waits ((history.reorder.enqueue unit).poll now).2.waiting other
    rw [emitted_append, List.count_append, List.count_append, List.count_append]
    omega

/-! ### Runs -/

/-- The units pushed in a run. -/
def pushes (inputs : List Input) : List AccessUnit :=
  inputs.filterMap fun input =>
    match input with
    | .push unit _ => some unit
    | .poll _ => none

theorem Sound.run (sound : history.Sound) {inputs : List Input}
    (ranges : ∀ unit ∈ pushes inputs, Ranges unit)
    (apart : (history.pushed ++ pushes inputs).Pairwise Apart)
    (along : Along step (fun history input => ¬ history.AfterLast input) history inputs) :
    (Throcc.run step history inputs).Sound ∧
      (Throcc.run step history inputs).pushed = history.pushed ++ pushes inputs := by
  induction inputs generalizing history with
  | nil => exact ⟨sound, (List.append_nil _).symm⟩
  | cons input rest inductionHypothesis =>
    cases input with
    | poll now => exact inductionHypothesis (sound.poll now) ranges apart along.2
    | push unit now =>
      have pushed : (history.step (.push unit now)).pushed = history.pushed ++ [unit] := by
        cases late : history.reorder.isLate unit with
        | true => rw [step_late late now]
        | false => rw [step_enqueue late now]
      have together : history.pushed ++ pushes (.push unit now :: rest) =
          (history.step (.push unit now)).pushed ++ pushes rest := by
        rw [pushed, List.append_assoc]
        rfl
      have others : ∀ other ∈ history.pushed, Apart other unit := fun other member =>
        (List.pairwise_append.mp apart).2.2 other member unit List.mem_cons_self
      have stepped := sound.push (ranges unit List.mem_cons_self) others now along.1
      rw [together] at apart ⊢
      exact inductionHypothesis stepped
        (fun other member => ranges other (List.mem_cons_of_mem _ member)) apart along.2

/-- In every run that pushes units with ranges of their own, none of them after one that ends
at the last `seq` of all was emitted: the units come out in order, every unit pushed is
exactly one of emitted, late, evicted or still waiting, and every unit that doesn't start
right after the one emitted before it is announced. -/
theorem run_inOrder (inputs : List Input) (ranges : ∀ unit ∈ pushes inputs, Ranges unit)
    (apart : (pushes inputs).Pairwise Apart)
    (along : Along step (fun history input => ¬ history.AfterLast input) {} inputs) :
    let after := Throcc.run step {} inputs
    ((emitted after.outputs).Pairwise fun unit other => unit.lastSeq < other.firstSeq) ∧
    (∀ unit ∈ pushes inputs,
      (emitted after.outputs).count unit + after.late.count unit + after.evicted.count unit +
        (if after.reorder.waiting.lookup unit.firstSeq = some unit then 1 else 0) = 1) ∧
    ∀ before unit following, after.outputs = before ++ .unit unit :: following →
      ∀ previous, (emitted before).getLast? = some previous →
        unit.firstSeq = previous.lastSeq + 1 ∨
          before.getLast? = some (.abandoned (previous.lastSeq + 1)) := by
  intro after
  obtain ⟨sound, pushed⟩ := sound_empty.run ranges apart along
  refine ⟨sound.ordered.rising, fun unit member => ?_, sound.ordered.announced⟩
  have once : (pushes inputs).count unit = 1 := by
    refine List.count_eq_one_of_mem (apart.imp_of_mem fun member' _ different same => ?_) member
    have range := ranges _ member'
    subst same
    unfold Apart at different
    have := range.1
    omega
  have counted := sound.counted unit
  rw [pushed] at counted
  exact counted.symm.trans once

/-- A unit of the sequence numbers from `first` to `last`. -/
def unitAt (first last : Nat) : AccessUnit where
  firstSeq := first
  lastSeq := last
  timestamp := 0
  flags := {}
  data := []

/-- Units 1 to 4 are lost, and the unit after them waits out the window; unit 1 is late. -/
def losing : List Input :=
  [ .push (unitAt 0 0) 0, .push (unitAt 5 6) 0, .poll (fromMillis 50),
    .push (unitAt 1 4) (fromMillis 50), .push (unitAt 7 u32Max) (fromMillis 50) ]

theorem run_inOrder_losing :
    let after := Throcc.run step {} losing
    after.outputs = [.unit (unitAt 0 0), .abandoned 1, .unit (unitAt 5 6), .late,
      .unit (unitAt 7 u32Max)] ∧
    (emitted after.outputs).Pairwise fun unit other => unit.lastSeq < other.firstSeq :=
  ⟨by decide +kernel, (run_inOrder losing (by decide +kernel) (by decide +kernel)
    (by decide +kernel)).1⟩

/-- Once the last `seq` of all was emitted, a unit that comes late is emitted too. -/
theorem emitted_backwards :
    let inputs := [Input.push (unitAt u32Max u32Max) 0, .push (unitAt 3 3) 0]
    (∀ unit ∈ pushes inputs, Ranges unit) ∧ (pushes inputs).Pairwise Apart ∧
      emitted (Throcc.run step {} inputs).outputs = [unitAt u32Max u32Max, unitAt 3 3] := by
  decide +kernel

end History

end Reorder

end Throcc
