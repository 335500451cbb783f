/-
This file compares two runs of a jitter buffer on packets whose timestamps
differ by a constant. They decode, recover and conceal alike as long as adding
the constant keeps the order of the timestamps that are buffered together: the
buffer compares timestamps by their serial order, but takes its first and last
packet by the plain order of the numbers, which a wrap reverses.
-/

import Throcc.Jitter
import Mathlib.Algebra.Group.Fin.Basic
import Mathlib.Algebra.Group.Basic

namespace Throcc

/-- Adding `offset` keeps the order of the timestamps of packets. -/
def KeepsOrder (offset : Timestamp) (packets : Map Timestamp (List UInt8)) : Prop :=
  ∀ key ∈ packets.keys, ∀ other ∈ packets.keys, key ≤ other → key + offset ≤ other + offset

theorem KeepsOrder.mono {offset : Timestamp} {packets fewer : Map Timestamp (List UInt8)}
    (keepsOrder : KeepsOrder offset packets) (within : fewer.keys ⊆ packets.keys) :
    KeepsOrder offset fewer :=
  fun key member other there => keepsOrder key (within member) other (within there)

theorem KeepsOrder.insert {offset : Timestamp} {packets : Map Timestamp (List UInt8)}
    (keepsOrder : KeepsOrder offset packets) {timestamp : Timestamp} (payload : List UInt8)
    (same : ∀ key ∈ packets.keys, (key ≤ timestamp ↔ key + offset ≤ timestamp + offset)) :
    KeepsOrder offset (packets.insert timestamp payload) := by
  intro key member other there below
  rw [Map.keys_insert, Finset.mem_insert] at member there
  rcases member with rfl | member
  · rcases there with rfl | there
    · exact le_refl _
    · rcases eq_or_lt_of_le below with rfl | above
      · exact le_refl _
      · by_contra reversed
        exact absurd ((same other there).mpr (le_of_not_ge reversed)) (not_le.mpr above)
  · rcases there with rfl | there
    · exact (same key member).mp below
    · exact keepsOrder key member other there below

@[simp] theorem timestampBefore_shift (left right offset : Timestamp) :
    timestampBefore (left + offset) (right + offset) = timestampBefore left right := by
  simp only [timestampBefore, ne_eq, add_left_inj, add_sub_add_right_eq_sub]

namespace JitterBuffer

/-- The buffer as it is with `offset` added to every timestamp. -/
def shift (offset : Timestamp) (buffer : JitterBuffer) : JitterBuffer :=
  { buffer with
    packets := buffer.packets.mapKeys (Equiv.addRight offset)
    nextTs := buffer.nextTs.map (· + offset) }

section Shift

variable (offset : Timestamp) {buffer : JitterBuffer}

@[simp] theorem lookup_shift (buffer : JitterBuffer) (timestamp : Timestamp) :
    (buffer.shift offset).packets.lookup (timestamp + offset) = buffer.packets.lookup timestamp := by
  show (buffer.packets.mapKeys _).lookup _ = _
  rw [Map.lookup_mapKeys]
  exact congrArg buffer.packets.lookup ((Equiv.addRight offset).symm_apply_apply timestamp)

@[simp] theorem card_shift (buffer : JitterBuffer) :
    (buffer.shift offset).packets.keys.card = buffer.packets.keys.card := by
  show (buffer.packets.mapKeys _).keys.card = _
  rw [Map.keys_mapKeys, Finset.card_map]

@[simp] theorem concealedInARow_shift (buffer : JitterBuffer) :
    (buffer.shift offset).concealedInARow = buffer.concealedInARow := rfl

@[simp] theorem nextTs_shift (buffer : JitterBuffer) :
    (buffer.shift offset).nextTs = buffer.nextTs.map (· + offset) := rfl

theorem firstKey_shift (keepsOrder : KeepsOrder offset buffer.packets) :
    (buffer.shift offset).packets.firstKey = buffer.packets.firstKey.map (· + offset) :=
  Map.firstKey_mapKeys keepsOrder

theorem lastKey_shift (keepsOrder : KeepsOrder offset buffer.packets) :
    (buffer.shift offset).packets.lastKey = buffer.packets.lastKey.map (· + offset) :=
  Map.lastKey_mapKeys keepsOrder

/-! ### Inserting -/

theorem isLate_shift (buffer : JitterBuffer) (timestamp : Timestamp) :
    (buffer.shift offset).isLate (timestamp + offset) = buffer.isLate timestamp := by
  unfold isLate
  show (buffer.playing && (buffer.nextTs.map (· + offset)).any _) = _
  cases buffer.nextTs with
  | none => rfl
  | some next => simp

theorem startsAt_shift (buffer : JitterBuffer) (timestamp : Timestamp) :
    (buffer.shift offset).startsAt (timestamp + offset) = buffer.startsAt timestamp := by
  unfold startsAt
  rw [card_shift]
  show (!buffer.playing && (buffer.nextTs.map (· + offset)).all _) = _
  cases buffer.nextTs with
  | none => rfl
  | some next => simp

theorem kept_shift (keepsOrder : KeepsOrder offset buffer.packets) :
    (buffer.shift offset).kept = buffer.kept.mapKeys (Equiv.addRight offset) := by
  unfold kept
  rw [card_shift, firstKey_shift offset keepsOrder]
  split
  · cases buffer.packets.firstKey with
    | none => rfl
    | some first => exact (Map.mapKeys_erase _ _ _).symm
  · rfl

theorem insert_shift (keepsOrder : KeepsOrder offset buffer.packets) (timestamp : Timestamp)
    (payload : List UInt8) :
    (buffer.shift offset).insert (timestamp + offset) payload =
      (buffer.insert timestamp payload).shift offset := by
  unfold insert
  rw [isLate_shift, startsAt_shift, kept_shift offset keepsOrder, card_shift]
  split
  · rfl
  · unfold shift
    dsimp only
    rw [Map.mapKeys_insert]
    congr 1
    split <;> rfl

/-! ### Decoding -/

theorem undecoded_shift (keepsOrder : KeepsOrder offset buffer.packets) :
    (buffer.shift offset).undecoded = buffer.undecoded := by
  unfold undecoded
  rw [lastKey_shift offset keepsOrder, nextTs_shift]
  cases buffer.nextTs with
  | none => rfl
  | some next =>
    cases buffer.packets.lastKey with
    | none => rfl
    | some last => simp

theorem buffered_shift (keepsOrder : KeepsOrder offset buffer.packets) :
    (buffer.shift offset).buffered = buffer.buffered := by
  unfold buffered
  rw [undecoded_shift offset keepsOrder]
  rfl

theorem realigned_shift (keepsOrder : KeepsOrder offset buffer.packets) (next : Timestamp) :
    (buffer.shift offset).realigned (next + offset) = (buffer.realigned next).map (· + offset) := by
  unfold realigned
  rw [lookup_shift, firstKey_shift offset keepsOrder]
  split
  · cases buffer.packets.firstKey with
    | none => rfl
    | some first => simp [Option.filter_some, apply_ite]
  · rfl

theorem frame_shift (next : Timestamp) : next + offset + frameTicks = next + frameTicks + offset :=
  add_right_comm next offset frameTicks

theorem advance_shift (buffer : JitterBuffer) (next : Timestamp) :
    (buffer.shift offset).advance (next + offset) = (buffer.advance next).shift offset := by
  have packets : (buffer.packets.retain fun timestamp _ =>
      !timestampBefore timestamp (next + frameTicks)).mapKeys (Equiv.addRight offset) =
        (buffer.packets.mapKeys (Equiv.addRight offset)).retain fun timestamp _ =>
          !timestampBefore timestamp (next + offset + frameTicks) := by
    refine Map.mapKeys_retain _ _ fun timestamp _ => ?_
    rw [frame_shift]
    exact congrArg _ (timestampBefore_shift timestamp (next + frameTicks) offset)
  unfold advance shift
  dsimp only
  rw [packets, frame_shift, Option.map_some]

theorem firstPacketWithinTarget_shift (keepsOrder : KeepsOrder offset buffer.packets) (target : Nat)
    (next : Timestamp) :
    (buffer.shift offset).firstPacketWithinTarget target (next + offset) =
      buffer.firstPacketWithinTarget target next := by
  unfold firstPacketWithinTarget
  rw [firstKey_shift offset keepsOrder]
  cases buffer.packets.firstKey with
  | none => rfl
  | some first => simp

theorem decodeFrame_shift (keepsOrder : KeepsOrder offset buffer.packets) (target : Nat)
    (next : Timestamp) :
    (buffer.shift offset).decodeFrame target (next + offset) =
      ((buffer.decodeFrame target next).1, (buffer.decodeFrame target next).2.shift offset) := by
  unfold decodeFrame
  rw [lookup_shift, frame_shift, lookup_shift, card_shift,
    firstPacketWithinTarget_shift offset keepsOrder, firstKey_shift offset keepsOrder]
  cases buffer.packets.lookup next with
  | some packet =>
    dsimp only
    rw [← advance_shift]
    unfold shift
    dsimp only
    rw [Map.mapKeys_erase]
    rfl
  | none =>
    cases buffer.packets.lookup (next + frameTicks) with
    | some packet =>
      dsimp only
      rw [← advance_shift]
      rfl
    | none =>
      dsimp only
      by_cases starved : buffer.packets.keys.card = 0 ∧ buffer.concealedInARow < maxConcealed
      · rw [concealedInARow_shift, if_pos starved, if_pos starved]
        rfl
      · rw [concealedInARow_shift, if_neg starved, if_neg starved]
        by_cases conceals : buffer.concealedInARow < maxConcealed ∨
            buffer.firstPacketWithinTarget target next = true
        · rw [if_pos conceals, if_pos conceals, ← advance_shift]
          rfl
        · rw [if_neg conceals, if_neg conceals]
          rfl

theorem decodeNext_shift (keepsOrder : KeepsOrder offset buffer.packets) (target : Nat) :
    (buffer.shift offset).decodeNext target =
      ((buffer.decodeNext target).1, (buffer.decodeNext target).2.shift offset) := by
  unfold decodeNext
  rw [nextTs_shift]
  cases buffer.nextTs with
  | none => rfl
  | some next =>
    dsimp only [Option.map_some]
    rw [realigned_shift offset keepsOrder]
    cases buffer.realigned next with
    | none => exact decodeFrame_shift offset keepsOrder target next
    | some first =>
      have counted : (buffer.shift offset).countRealigned = buffer.countRealigned.shift offset := rfl
      dsimp only [Option.map_some]
      have keepsOrder' : KeepsOrder offset buffer.countRealigned.packets := keepsOrder
      rw [counted]
      exact decodeFrame_shift offset keepsOrder' target first

theorem accelerate_shift (keepsOrder : KeepsOrder offset buffer.packets) :
    (buffer.shift offset).accelerate = buffer.accelerate.shift offset := by
  unfold accelerate
  rw [buffered_shift offset keepsOrder, nextTs_shift]
  dsimp only
  by_cases early : buffer.pullsSinceAccelerate + 1 < accelerateEvery
  · rw [if_pos early]
    exact if_pos early
  · rw [if_neg early]
    refine (if_neg early).trans ?_
    by_cases low : min buffer.lowest buffer.buffered ≤ spare
    · rw [if_pos low]
      exact if_pos low
    · rw [if_neg low]
      refine (if_neg low).trans ?_
      cases buffer.nextTs with
      | none => rfl
      | some next =>
        dsimp only [Option.map_some]
        rw [lookup_shift]
        by_cases there : (buffer.packets.lookup next).isSome = true
        · rw [if_pos there, if_pos there, frame_shift]
          unfold shift
          dsimp only
          rw [Map.mapKeys_erase]
          rfl
        · rw [if_neg there, if_neg there]
          rfl

/-! ### What playing leaves -/

theorem keys_advance (buffer : JitterBuffer) (next : Timestamp) :
    (buffer.advance next).packets.keys ⊆ buffer.packets.keys := by
  intro timestamp member
  exact ((Map.mem_keys_retain buffer.packets (fun timestamp =>
    !timestampBefore timestamp (next + frameTicks)) timestamp).mp member).1

theorem keys_erase (packets : Map Timestamp (List UInt8)) (timestamp : Timestamp) :
    (packets.erase timestamp).keys ⊆ packets.keys := by
  rw [Finmap.keys_erase]
  exact Finset.erase_subset _ _

theorem keys_decodeFrame (buffer : JitterBuffer) (target : Nat) (next : Timestamp) :
    (buffer.decodeFrame target next).2.packets.keys ⊆ buffer.packets.keys := by
  unfold decodeFrame
  dsimp only
  split
  · exact (keys_advance _ _).trans (keys_erase _ _)
  · split
    · exact keys_advance _ _
    · split
      · exact Finset.Subset.refl _
      · split
        · exact keys_advance _ _
        · exact Finset.Subset.refl _

theorem keys_decodeNext (buffer : JitterBuffer) (target : Nat) :
    (buffer.decodeNext target).2.packets.keys ⊆ buffer.packets.keys := by
  unfold decodeNext
  split
  · exact Finset.Subset.refl _
  · split
    · exact keys_decodeFrame _ _ _
    · exact keys_decodeFrame _ _ _

theorem keys_accelerate (buffer : JitterBuffer) :
    buffer.accelerate.packets.keys ⊆ buffer.packets.keys := by
  unfold accelerate
  dsimp only
  split
  · exact Finset.Subset.refl _
  · split
    · exact Finset.Subset.refl _
    · split
      · exact Finset.Subset.refl _
      · split
        · exact keys_erase _ _
        · exact Finset.Subset.refl _

/-! ### Pulling -/

def Filling.shift (filling : Filling) : Filling :=
  { filling with buffer := filling.buffer.shift offset }

theorem Filling.decoded_shift {filling : Filling}
    (keepsOrder : KeepsOrder offset filling.buffer.packets) (target : Nat) :
    (filling.shift offset).decoded target =
      ((filling.decoded target).1, (filling.decoded target).2.shift offset) := by
  have decoded := decodeNext_shift offset keepsOrder target
  unfold Filling.decoded
  show (if filling.buffer.framePos = frameSamples then
      (((filling.buffer.shift offset).decodeNext target).1.map _,
        ((filling.buffer.shift offset).decodeNext target).2)
    else _) = _
  rw [decoded]
  split
  · rfl
  · rfl

theorem Filling.turn_shift {filling : Filling}
    (keepsOrder : KeepsOrder offset filling.buffer.packets) (target : Nat) :
    (filling.shift offset).turn target = (filling.turn target).map (Filling.shift offset) := by
  unfold turn
  rw [decoded_shift offset keepsOrder]
  show (if filling.stopped = false ∧ filling.filled < pullSamples then _ else _) = _
  by_cases continues : filling.stopped = false ∧ filling.filled < pullSamples
  · rw [if_pos continues, if_pos continues]
    obtain ⟨decodes, buffer⟩ := filling.decoded target
    cases decodes with
    | none => rfl
    | some decodes => rfl
  · rw [if_neg continues, if_neg continues]
    rfl

theorem Filling.keys_turn {target : Nat} {filling next : Filling}
    (turned : filling.turn target = some next) :
    next.buffer.packets.keys ⊆ filling.buffer.packets.keys := by
  have decoded : (filling.decoded target).2.packets.keys ⊆ filling.buffer.packets.keys := by
    unfold Filling.decoded
    split
    · exact keys_decodeNext _ _
    · exact Finset.Subset.refl _
  unfold turn at turned
  split at turned
  · split at turned
    · rename_i same
      cases turned
      rw [same] at decoded
      exact decoded
    · rename_i same
      cases turned
      rw [same] at decoded
      exact decoded
  · cases turned

/-- How a pull starts to fill its output. -/
def filling (buffer : JitterBuffer) : Filling :=
  ⟨0, [], false,
    if buffer.playing then buffer else { buffer with playing := true, framePos := frameSamples }⟩

theorem pull_eq (buffer : JitterBuffer) (target : Nat) :
    buffer.pull target =
      if buffer.playing = false ∧ (buffer.buffered < target ∨ buffer.nextTs = none) then ([], buffer)
      else
        let filled := loop (Filling.turn target) (pullSamples + 1) buffer.filling
        (filled.decodes, if filled.stopped then filled.buffer else filled.buffer.accelerate) := rfl

theorem keys_filled (buffer : JitterBuffer) (target fuel : Nat) :
    (loop (Filling.turn target) fuel buffer.filling).buffer.packets.keys ⊆ buffer.packets.keys := by
  refine loop_invariant (fun filling => filling.buffer.packets.keys ⊆ buffer.packets.keys) ?_
    (fun filling next within turned => (Filling.keys_turn turned).trans within) fuel
  unfold filling
  dsimp only
  split
  · exact Finset.Subset.refl _
  · exact Finset.Subset.refl _

theorem keys_pull (buffer : JitterBuffer) (target : Nat) :
    (buffer.pull target).2.packets.keys ⊆ buffer.packets.keys := by
  have filled := keys_filled buffer target (pullSamples + 1)
  rw [pull_eq]
  split
  · exact Finset.Subset.refl _
  · dsimp only
    split
    · exact filled
    · exact (keys_accelerate _).trans filled

theorem pull_shift (keepsOrder : KeepsOrder offset buffer.packets) (target : Nat) :
    (buffer.shift offset).pull target =
      ((buffer.pull target).1, (buffer.pull target).2.shift offset) := by
  have starts : (buffer.shift offset).filling = buffer.filling.shift offset := by
    unfold filling Filling.shift
    show Filling.mk 0 [] false (if buffer.playing then _ else _) = _
    split <;> rfl
  have fillings := loop_map (Filling.shift offset)
    (fun filling : Filling => filling.buffer.packets.keys ⊆ buffer.packets.keys)
    (fun filling next within turned => (Filling.keys_turn turned).trans within)
    (fun filling within => Filling.turn_shift offset (keepsOrder.mono within) target)
    (keys_filled buffer target 0) (pullSamples + 1)
  have filled := keys_filled buffer target (pullSamples + 1)
  have idle : ((buffer.shift offset).playing = false ∧
      ((buffer.shift offset).buffered < target ∨ (buffer.shift offset).nextTs = none)) ↔
        (buffer.playing = false ∧ (buffer.buffered < target ∨ buffer.nextTs = none)) := by
    rw [buffered_shift offset keepsOrder, nextTs_shift, Option.map_eq_none_iff]
    rfl
  rw [pull_eq, pull_eq, starts]
  by_cases waits : buffer.playing = false ∧ (buffer.buffered < target ∨ buffer.nextTs = none)
  · rw [if_pos waits, if_pos (idle.mpr waits)]
  · rw [if_neg waits, if_neg (idle.not.mpr waits)]
    dsimp only
    have same : loop (Filling.turn target) (pullSamples + 1) (buffer.filling.shift offset) =
        (loop (Filling.turn target) (pullSamples + 1) buffer.filling).shift offset := fillings
    rw [same]
    generalize loop (Filling.turn target) (pullSamples + 1) buffer.filling = after at filled ⊢
    show (after.decodes, if after.stopped then after.buffer.shift offset
      else (after.buffer.shift offset).accelerate) = _
    rw [accelerate_shift offset (keepsOrder.mono filled)]
    split <;> rfl

end Shift

/-! ### Playouts -/

def Input.shift (offset : Timestamp) : Input → Input
  | insert timestamp payload => .insert (timestamp + offset) payload
  | pull => .pull

/-- The packet is buffered beside one whose timestamp it changes places with when `offset` is
added to both. -/
def Reorders (offset : Timestamp) (buffer : JitterBuffer) : Input → Prop
  | .insert timestamp _ => buffer.isLate timestamp = false ∧ ∃ key ∈ buffer.kept.keys,
    ¬ (key ≤ timestamp ↔ key + offset ≤ timestamp + offset)
  | .pull => False

instance (offset : Timestamp) (buffer : JitterBuffer) (input : Input) :
    Decidable (buffer.Reorders offset input) :=
  match input with
  | .insert timestamp _ =>
    -- Not the instance that tries all timestamps.
    have : Decidable (∃ key ∈ buffer.kept.keys,
        ¬ (key ≤ timestamp ↔ key + offset ≤ timestamp + offset)) :=
      Finset.decidableExistsAndFinset
    inferInstanceAs (Decidable (buffer.isLate timestamp = false ∧ _))
  | .pull => .isFalse fun reorders => reorders

theorem keys_kept (buffer : JitterBuffer) : buffer.kept.keys ⊆ buffer.packets.keys := by
  unfold kept
  split
  · cases buffer.packets.firstKey with
    | none => exact Finset.Subset.refl _
    | some first => exact keys_erase _ _
  · exact Finset.Subset.refl _

theorem keepsOrder_insert {offset : Timestamp} {buffer : JitterBuffer}
    (keepsOrder : KeepsOrder offset buffer.packets) {timestamp : Timestamp} {payload : List UInt8}
    (alike : ¬ buffer.Reorders offset (.insert timestamp payload)) :
    KeepsOrder offset (buffer.insert timestamp payload).packets := by
  unfold JitterBuffer.insert
  split
  · exact keepsOrder
  · rename_i inTime
    refine (keepsOrder.mono (keys_kept buffer)).insert payload fun key member => ?_
    by_contra reversed
    exact alike ⟨Bool.eq_false_iff.mpr inTime, key, member, reversed⟩

namespace Playout

variable {target : Nat} {offset : Timestamp}

/-- The playout of the packets with `offset` added to every timestamp. -/
def shift (offset : Timestamp) (playout : Playout) : Playout :=
  { playout with buffer := playout.buffer.shift offset }

theorem step_shift {playout : Playout} (keepsOrder : KeepsOrder offset playout.buffer.packets)
    (input : Input) :
    step target (playout.shift offset) (input.shift offset) =
      (step target playout input).shift offset := by
  cases input with
  | insert timestamp payload =>
    show Playout.mk ((playout.buffer.shift offset).insert _ payload) _ = _
    rw [insert_shift offset keepsOrder]
    rfl
  | pull =>
    unfold step shift
    show Playout.mk ((playout.buffer.shift offset).pull target).2 (playout.pulls ++
      [((playout.buffer.shift offset).pull target).1]) = _
    rw [pull_shift offset keepsOrder]

theorem run_shift {playout : Playout} (keepsOrder : KeepsOrder offset playout.buffer.packets)
    (inputs : List Input)
    (along : Along (step target) (fun playout input => ¬ playout.buffer.Reorders offset input)
      playout inputs) :
    run (step target) (playout.shift offset) (inputs.map (Input.shift offset)) =
      (run (step target) playout inputs).shift offset := by
  induction inputs generalizing playout with
  | nil => rfl
  | cons input rest inductionHypothesis =>
    rw [List.map_cons, run_cons, run_cons, step_shift keepsOrder]
    refine inductionHypothesis ?_ along.2
    cases input with
    | insert timestamp payload => exact keepsOrder_insert keepsOrder along.1
    | pull => exact keepsOrder.mono (keys_pull playout.buffer target)

/-- For every sequence of inserts and pulls with the delay target held, and any offset that never
makes a packet change places with one that is buffered when it comes: with the offset added to
every packet's timestamp the same packets are decoded, recovered and concealed in the same
pulls, with the same counts. -/
theorem run_blindToClock (target : Nat) (offset : Timestamp) (inputs : List Input)
    (along : Along (step target) (fun playout input => ¬ playout.buffer.Reorders offset input) {}
      inputs) :
    (run (step target) {} (inputs.map (Input.shift offset))).pulls =
        (run (step target) {} inputs).pulls ∧
      (run (step target) {} (inputs.map (Input.shift offset))).buffer.stats =
        (run (step target) {} inputs).buffer.stats := by
  have start : ({} : Playout).shift offset = {} := by
    unfold shift JitterBuffer.shift
    congr 2
  have empty : KeepsOrder offset ({} : Playout).buffer.packets :=
    fun key member => absurd member (Finset.notMem_empty key)
  have shifted := run_shift empty inputs along
  rw [start] at shifted
  rw [shifted]
  exact ⟨rfl, rfl⟩

/-- A packet is played before the second comes, whose timestamp wraps with the offset. -/
def talk : List Input := [.insert 0 [1], .pull, .insert 960 [2], .pull, .pull]

theorem run_blindToClock_talk :
    (run (step 960) {} (talk.map (Input.shift (-960)))).pulls =
      [[⟨[1], .normal⟩], [], [⟨[2], .normal⟩]] :=
  (run_blindToClock 960 (-960) talk (by decide +kernel)).1.trans (by decide +kernel)

/-- Two packets that straddle the wrap don't start playout. -/
theorem silent_acrossWrap :
    let inputs : List Input := [.insert 0 [1], .insert 960 [2], .pull]
    (run (step 1920) {} inputs).pulls = [[⟨[1], .normal⟩]] ∧
      (run (step 1920) {} (inputs.map (Input.shift (-960)))).pulls = [[]] := by
  decide +kernel

end Playout

end JitterBuffer

end Throcc
