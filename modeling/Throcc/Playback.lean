/-
This file proves when the playback of a track never goes back. A packet that is
buffered lies behind every packet decoded normally and isn't before the next
timestamp to play; every step keeps that but two: while playback waits for more
audio nothing rejects a packet older than what was played, and an acceleration
steps over a packet that lies within the frame it skips.
-/

import Throcc.Wrap

namespace Throcc

/-! ### Timestamps within half the circle -/

/-- The timestamps lie within half the circle of one another and don't cross its wrap. -/
def HalfCircle (within : Timestamp → Prop) : Prop :=
  ∀ first second, within first → within second → second.val - first.val < 2 ^ 31

theorem timestampBefore_iff {left right : Timestamp} (near : left.val - right.val < 2 ^ 31)
    (near' : right.val - left.val < 2 ^ 31) :
    timestampBefore left right = true ↔ left < right := by
  unfold timestampBefore
  rw [decide_eq_true_eq, Fin.lt_def, ne_eq, Fin.ext_iff, Fin.val_sub]
  omega

theorem HalfCircle.not_before {within : Timestamp → Prop} (half : HalfCircle within)
    {left right : Timestamp} (inside : within left) (inside' : within right) :
    timestampBefore left right = false ↔ right ≤ left := by
  rw [← Bool.not_eq_true, timestampBefore_iff (half right left inside' inside)
    (half left right inside inside'), not_lt]

/-- A frame after a timestamp nothing is before it that was a frame ahead of it. -/
theorem HalfCircle.not_before_next {within : Timestamp → Prop} (half : HalfCircle within)
    {next timestamp : Timestamp} (inside : within next) (inside' : within timestamp)
    (ahead : next.val + frameSamples ≤ timestamp.val) :
    timestampBefore timestamp (next + frameTicks) = false := by
  have near := half next timestamp inside inside'
  have ticks : frameTicks.val = 960 := rfl
  unfold frameSamples at ahead
  unfold timestampBefore
  rw [decide_eq_false_iff_not, ne_eq, Fin.ext_iff, Fin.val_sub, Fin.val_add, ticks]
  omega

namespace JitterBuffer

variable (buffer : JitterBuffer)

/-! ### What is decoded normally -/

/-- The timestamp of the packet that is decoded normally next, if one is. -/
def normalNext : Option Timestamp :=
  buffer.nextTs.bind fun next =>
    let timestamp := (buffer.realigned next).getD next
    (buffer.packets.lookup timestamp).map fun _ => timestamp

/-- The timestamp of the packet that a turn decodes normally. -/
def Filling.normals (filling : Filling) : List Timestamp :=
  if filling.stopped = false ∧ filling.filled < pullSamples ∧
      filling.buffer.framePos = frameSamples then
    filling.buffer.normalNext.toList
  else []

/-- The timestamps of the packets that a pull decodes normally. -/
def pullNormals (target : Nat) : List Timestamp :=
  if buffer.playing = false ∧ (buffer.buffered < target ∨ buffer.nextTs = none) then []
  else
    (loop (beside (Filling.turn target) fun filling normals => normals ++ filling.normals)
      (pullSamples + 1) (buffer.filling, [])).2

/-- A jitter buffer and the timestamps of the packets it has decoded normally. -/
structure Playback where
  buffer : JitterBuffer := {}
  normals : List Timestamp := []

namespace Playback

/-- The delay target of a pull is whatever the estimate is then. -/
inductive Input where
  | insert (timestamp : Timestamp) (payload : List UInt8)
  | pull (target : Nat)
deriving DecidableEq, Repr

def step (playback : Playback) : Input → Playback
  | .insert timestamp payload =>
    { playback with buffer := playback.buffer.insert timestamp payload }
  | .pull target =>
    { buffer := (playback.buffer.pull target).2
      normals := playback.normals ++ playback.buffer.pullNormals target }

end Playback

/-- The decoder is called with the packet that is decoded normally, and it is counted. -/
theorem decodeNext_normalNext (target : Nat) :
    (∀ timestamp, buffer.normalNext = some timestamp → ∃ packet,
      buffer.packets.lookup timestamp = some packet ∧
      (buffer.decodeNext target).1 = some ⟨packet, .normal⟩) ∧
    (buffer.decodeNext target).2.stats.normal =
      buffer.stats.normal + buffer.normalNext.toList.length := by
  have frame : ∀ (buffer : JitterBuffer) (timestamp : Timestamp),
      (∀ packet, buffer.packets.lookup timestamp = some packet →
        (buffer.decodeFrame target timestamp).1 = some ⟨packet, .normal⟩) ∧
      (buffer.decodeFrame target timestamp).2.stats.normal = buffer.stats.normal +
        ((buffer.packets.lookup timestamp).map fun _ => timestamp).toList.length := by
    intro buffer timestamp
    unfold decodeFrame
    cases found : buffer.packets.lookup timestamp with
    | some packet => exact ⟨fun other same => by cases same; rfl, rfl⟩
    | none =>
      refine ⟨nofun, ?_⟩
      simp only
      split
      · rfl
      · split
        · rfl
        · split
          · rfl
          · rfl
  unfold normalNext decodeNext
  cases buffer.nextTs with
  | none => exact ⟨nofun, rfl⟩
  | some next =>
    have decoded : ∀ (other : JitterBuffer) (timestamp : Timestamp),
        other.packets = buffer.packets → other.stats.normal = buffer.stats.normal →
        (∀ at_, ((buffer.packets.lookup timestamp).map fun _ => timestamp) = some at_ → ∃ packet,
          buffer.packets.lookup at_ = some packet ∧
          (other.decodeFrame target timestamp).1 = some ⟨packet, .normal⟩) ∧
        (other.decodeFrame target timestamp).2.stats.normal = buffer.stats.normal +
          ((buffer.packets.lookup timestamp).map fun _ => timestamp).toList.length := by
      intro other timestamp packets counted
      obtain ⟨normal, stats⟩ := frame other timestamp
      rw [packets] at normal stats
      rw [counted] at stats
      refine ⟨fun at_ same => ?_, stats⟩
      obtain ⟨packet, found, rfl⟩ := Option.map_eq_some_iff.mp same
      exact ⟨packet, found, normal packet found⟩
    simp only [Option.bind_some]
    cases buffer.realigned next with
    | none => exact decoded buffer next rfl rfl
    | some first => exact decoded buffer.countRealigned first rfl rfl

/-! ### Going forward -/

/-- What is buffered lies behind every packet decoded normally, which were decoded in order.
While it plays nothing buffered is before the next timestamp to play, and while it waits that is
the first one buffered. -/
structure Forward (within : Timestamp → Prop) (buffer : JitterBuffer) (normals : List Timestamp) :
    Prop where
  held : ∀ timestamp ∈ buffer.packets.keys, within timestamp
  increasing : normals.Pairwise (· < ·)
  after : ∀ normal ∈ normals, ∀ timestamp ∈ buffer.packets.keys, normal < timestamp
  counted : buffer.stats.normal = normals.length
  playing : buffer.playing = true → ∀ next, buffer.nextTs = some next →
    ∀ timestamp ∈ buffer.packets.keys, timestampBefore timestamp next = false
  waiting : buffer.playing = false → (buffer.nextTs = none → buffer.packets.keys = ∅) ∧
    ∀ next, buffer.nextTs = some next →
      within next ∧ ∀ timestamp ∈ buffer.packets.keys, next ≤ timestamp

variable {buffer} {within : Timestamp → Prop} {normals : List Timestamp}

theorem forward_empty (within : Timestamp → Prop) : Forward within {} [] where
  held := by simp
  increasing := List.Pairwise.nil
  after := by simp
  counted := rfl
  playing := nofun
  waiting := fun _ => ⟨fun _ => Finmap.keys_empty, nofun⟩

/-- While it waits, playback is to start with the first packet. -/
theorem Forward.first_insert (forward : Forward within buffer normals) (half : HalfCircle within)
    {timestamp : Timestamp} (inside : within timestamp) (waits : buffer.playing = false) :
    (if buffer.startsAt timestamp = true then some timestamp else buffer.nextTs) ≠ none ∧
      ∀ next, (if buffer.startsAt timestamp = true then some timestamp else buffer.nextTs) =
        some next → within next ∧ next ≤ timestamp ∧
          ∀ other ∈ buffer.packets.keys, next ≤ other := by
  obtain ⟨empty, first⟩ := forward.waiting waits
  have starts : buffer.startsAt timestamp = buffer.nextTs.all fun next =>
      buffer.packets.keys.card = 0 || timestampBefore timestamp next := by
    unfold startsAt
    rw [waits]
    rfl
  rw [starts]
  cases known : buffer.nextTs with
  | none =>
    refine ⟨Option.some_ne_none _, fun next same => ?_⟩
    cases same
    refine ⟨inside, le_rfl, fun other member => ?_⟩
    rw [empty known] at member
    exact absurd member (Finset.notMem_empty other)
  | some next =>
    obtain ⟨insideNext, least⟩ := first next known
    rw [Option.all_some]
    split
    · rename_i earlier
      refine ⟨Option.some_ne_none _, fun other same => ?_⟩
      cases same
      refine ⟨inside, le_rfl, fun other member => ?_⟩
      rw [Bool.or_eq_true, decide_eq_true_eq, Finset.card_eq_zero] at earlier
      rcases earlier with none | before
      · rw [none] at member
        exact absurd member (Finset.notMem_empty other)
      · have ahead : ¬ next ≤ timestamp := fun behind => by
          rw [(half.not_before inside insideNext).mpr behind] at before
          cases before
        exact (le_of_not_ge ahead).trans (least other member)
    · rename_i later
      refine ⟨Option.some_ne_none _, fun other same => ?_⟩
      cases same
      rw [Bool.not_eq_true, Bool.or_eq_false_iff] at later
      exact ⟨insideNext, (half.not_before inside insideNext).mp later.2, least⟩

theorem Forward.insert (forward : Forward within buffer normals) (half : HalfCircle within)
    {timestamp : Timestamp} (inside : within timestamp) (payload : List UInt8)
    (fresh : buffer.isLate timestamp = true ∨ ∀ normal ∈ normals, normal < timestamp) :
    Forward within (buffer.insert timestamp payload) normals := by
  unfold JitterBuffer.insert
  split
  · exact { forward with }
  · rename_i inTime
    have fresh := fresh.resolve_left inTime
    have keys : ∀ other ∈ (Finmap.insert timestamp payload buffer.kept).keys,
        other = timestamp ∨ other ∈ buffer.packets.keys := by
      intro other member
      rw [Map.keys_insert, Finset.mem_insert] at member
      exact member.imp_right fun before => keys_kept buffer before
    exact {
      held := fun other member => by
        rcases keys other member with rfl | before
        · exact inside
        · exact forward.held other before
      increasing := forward.increasing
      after := fun normal member other there => by
        rcases keys other there with rfl | before
        · exact fresh normal member
        · exact forward.after normal member other before
      counted := by
        rw [← forward.counted]
        simp only
        split
        · rfl
        · rfl
      playing := fun plays next same other member => by
        have plays : buffer.playing = true := plays
        have keeps : buffer.startsAt timestamp = false := by
          unfold startsAt
          rw [plays]
          rfl
        have named : (if buffer.startsAt timestamp = true then some timestamp
          else buffer.nextTs) = some next := same
        rw [keeps, if_neg Bool.false_ne_true] at named
        rcases keys other member with rfl | before
        · unfold isLate at inTime
          rw [plays, named] at inTime
          exact Bool.eq_false_iff.mpr inTime
        · exact forward.playing plays next named other before
      waiting := fun waits => by
        have waits : buffer.playing = false := waits
        obtain ⟨some_, first⟩ := forward.first_insert half inside waits
        refine ⟨fun none => absurd none some_, fun next same => ?_⟩
        obtain ⟨insideNext, ahead, others⟩ := first next same
        refine ⟨insideNext, fun other member => ?_⟩
        rcases keys other member with rfl | before
        · exact ahead
        · exact others other before }

/-! ### Decoding goes forward -/

/-- Behind a frame only packets after it are kept. -/
theorem Forward.advance (plays : buffer.playing = true)
    (held : ∀ other ∈ buffer.packets.keys, within other) (increasing : normals.Pairwise (· < ·))
    (after : ∀ normal ∈ normals, ∀ other ∈ buffer.packets.keys, normal < other)
    (counted : buffer.stats.normal = normals.length) (timestamp : Timestamp) :
    Forward within (buffer.advance timestamp) normals where
  held := fun other member => held other (keys_advance buffer timestamp member)
  increasing := increasing
  after := fun normal member other there =>
    after normal member other (keys_advance buffer timestamp there)
  counted := counted
  playing := fun _ next same other member => by
    have same := Option.some.inj (show some (timestamp + frameTicks) = some next from same)
    rw [← same]
    have kept := ((Map.mem_keys_retain buffer.packets (fun other =>
      !timestampBefore other (timestamp + frameTicks)) other).mp member).2
    rw [Bool.not_eq_true'] at kept
    exact kept
  waiting := fun waits => by
    have waits : buffer.playing = false := waits
    rw [plays] at waits
    cases waits

/-- A frame is decoded before which nothing is buffered. -/
theorem Forward.decodeFrame (forward : Forward within buffer normals) (half : HalfCircle within)
    (plays : buffer.playing = true) (target : Nat) {timestamp : Timestamp}
    (ahead : ∀ other ∈ buffer.packets.keys, timestampBefore other timestamp = false) :
    Forward within (buffer.decodeFrame target timestamp).2
      (normals ++ ((buffer.packets.lookup timestamp).map fun _ => timestamp).toList) := by
  unfold JitterBuffer.decodeFrame
  cases found : buffer.packets.lookup timestamp with
  | some packet =>
    have member : timestamp ∈ buffer.packets.keys := (Map.mem_keys_iff _ _).mpr ⟨packet, found⟩
    refine Forward.advance ?_ (fun other there => ?_) ?_ (fun normal decoded other there => ?_) ?_
      timestamp
    · exact plays
    · exact forward.held other (keys_erase _ _ there)
    · refine List.pairwise_append.mpr ⟨forward.increasing, List.pairwise_singleton _ _, ?_⟩
      intro normal before last same
      rw [List.mem_singleton.mp same]
      exact forward.after normal before timestamp member
    · have there : other ∈ (buffer.packets.erase timestamp).keys := there
      rw [Finmap.keys_erase, Finset.mem_erase] at there
      rcases List.mem_append.mp decoded with before | now
      · exact forward.after normal before other there.2
      · rw [List.mem_singleton.mp now]
        exact lt_of_le_of_ne ((half.not_before (forward.held other there.2)
          (forward.held timestamp member)).mp (ahead other there.2)) (Ne.symm there.1)
    · rw [List.length_append]
      exact congrArg (· + 1) forward.counted
  | none =>
    simp only [Option.map_none, Option.toList_none, List.append_nil]
    split
    · refine Forward.advance ?_ ?_ forward.increasing ?_ ?_ timestamp
      · exact plays
      · exact forward.held
      · exact forward.after
      · exact forward.counted
    · split
      · exact { forward with }
      · split
        · refine Forward.advance ?_ ?_ forward.increasing ?_ ?_ timestamp
          · exact plays
          · exact forward.held
          · exact forward.after
          · exact forward.counted
        · exact {
            held := forward.held
            increasing := forward.increasing
            after := forward.after
            counted := forward.counted
            playing := nofun
            waiting := fun _ => by
              refine ⟨fun none => ?_, fun next first => ?_⟩
              · rw [show buffer.packets = ∅ from Map.firstKey_eq_none.mp none]
                exact Finmap.keys_empty
              · obtain ⟨member, least⟩ := Map.firstKey_iff.mp first
                exact ⟨forward.held next member, least⟩ }

theorem Forward.decodeNext (forward : Forward within buffer normals) (half : HalfCircle within)
    (plays : buffer.playing = true) (target : Nat) :
    Forward within (buffer.decodeNext target).2 (normals ++ buffer.normalNext.toList) := by
  unfold JitterBuffer.decodeNext normalNext
  cases known : buffer.nextTs with
  | none =>
    simp only [Option.bind_none, Option.toList_none, List.append_nil]
    exact forward
  | some next =>
    simp only [Option.bind_some]
    cases jumps : buffer.realigned next with
    | none => exact forward.decodeFrame half plays target (forward.playing plays next known)
    | some first =>
      have least : buffer.packets.firstKey = some first := by
        unfold realigned at jumps
        split at jumps
        · exact (Option.filter_eq_some_iff.mp jumps).1
        · cases jumps
      obtain ⟨member, least⟩ := Map.firstKey_iff.mp least
      have counted : Forward within buffer.countRealigned normals := { forward with }
      refine counted.decodeFrame half plays target fun other there => ?_
      exact (half.not_before (forward.held other there) (forward.held first member)).mpr
        (least other there)

/-! ### A pull goes forward -/

/-- Decoding leaves the window of the accelerations, and stops playing only with no frame. -/
theorem decodeFrame_keeps (buffer : JitterBuffer) (target : Nat) (timestamp : Timestamp) :
    (buffer.decodeFrame target timestamp).2.pullsSinceAccelerate = buffer.pullsSinceAccelerate ∧
      (buffer.decodeFrame target timestamp).2.lowest = buffer.lowest ∧
      ((buffer.decodeFrame target timestamp).1 ≠ none →
        (buffer.decodeFrame target timestamp).2.playing = buffer.playing) := by
  unfold JitterBuffer.decodeFrame
  simp only
  split
  · exact ⟨rfl, rfl, fun _ => rfl⟩
  · split
    · exact ⟨rfl, rfl, fun _ => rfl⟩
    · split
      · exact ⟨rfl, rfl, fun _ => rfl⟩
      · split
        · exact ⟨rfl, rfl, fun _ => rfl⟩
        · exact ⟨rfl, rfl, fun decodes => absurd rfl decodes⟩

theorem decodeNext_keeps (buffer : JitterBuffer) (target : Nat) :
    (buffer.decodeNext target).2.pullsSinceAccelerate = buffer.pullsSinceAccelerate ∧
      (buffer.decodeNext target).2.lowest = buffer.lowest ∧
      ((buffer.decodeNext target).1 ≠ none →
        (buffer.decodeNext target).2.playing = buffer.playing) := by
  unfold JitterBuffer.decodeNext
  split
  · exact ⟨rfl, rfl, fun _ => rfl⟩
  · split
    · exact decodeFrame_keeps buffer.countRealigned target _
    · exact decodeFrame_keeps buffer target _

/-- What holds while a pull fills its output. -/
structure Filling.Forward (within : Timestamp → Prop) (buffer : JitterBuffer)
    (normals : List Timestamp) (filling : Filling) (decoded : List Timestamp) : Prop where
  forward : JitterBuffer.Forward within filling.buffer (normals ++ decoded)
  playing : filling.stopped = false → filling.buffer.playing = true
  keys : filling.buffer.packets.keys ⊆ buffer.packets.keys
  pulls : filling.buffer.pullsSinceAccelerate = buffer.pullsSinceAccelerate
  lowest : filling.buffer.lowest = buffer.lowest

theorem Filling.Forward.turn {filling next : Filling} {decoded : List Timestamp}
    (forward : filling.Forward within buffer normals decoded) (half : HalfCircle within)
    {target : Nat} (turned : filling.turn target = some next) :
    next.Forward within buffer normals (decoded ++ filling.normals) := by
  have keys := (Filling.keys_turn turned).trans forward.keys
  unfold Filling.turn at turned
  split at turned
  · rename_i continues
    have plays := forward.playing continues.1
    have outcome : JitterBuffer.Forward within (filling.decoded target).2
          (normals ++ (decoded ++ filling.normals)) ∧
        (filling.decoded target).2.pullsSinceAccelerate = buffer.pullsSinceAccelerate ∧
        (filling.decoded target).2.lowest = buffer.lowest ∧
        ((filling.decoded target).1 ≠ none → (filling.decoded target).2.playing = true) := by
      unfold Filling.decoded Filling.normals
      by_cases done : filling.buffer.framePos = frameSamples
      · obtain ⟨pulls, lowest, playing⟩ := decodeNext_keeps filling.buffer target
        rw [if_pos done, if_pos ⟨continues.1, continues.2, done⟩, ← List.append_assoc]
        refine ⟨forward.forward.decodeNext half plays target, pulls.trans forward.pulls,
          lowest.trans forward.lowest, fun decodes => (playing fun none => decodes ?_).trans plays⟩
        simp only [none, Option.map_none]
      · rw [if_neg done, if_neg fun all => done all.2.2, List.append_nil]
        exact ⟨forward.forward, forward.pulls, forward.lowest, fun _ => plays⟩
    generalize filling.decoded target = result at turned outcome
    obtain ⟨decodes, after⟩ := result
    obtain ⟨forwards, pulls, lowest, playing⟩ := outcome
    cases decodes with
    | none =>
      cases turned
      exact ⟨forwards, nofun, keys, pulls, lowest⟩
    | some decodes =>
      cases turned
      exact ⟨{ forwards with }, fun _ => playing (Option.some_ne_none _), keys, pulls, lowest⟩
  · cases turned

/-- Two packets are buffered less than a frame apart. -/
def Crowded (buffer : JitterBuffer) : Prop :=
  ∃ first ∈ buffer.packets.keys, ∃ second ∈ buffer.packets.keys,
    first < second ∧ second.val - first.val < frameSamples

instance (buffer : JitterBuffer) : Decidable buffer.Crowded :=
  have (first : Timestamp) : Decidable (∃ second ∈ buffer.packets.keys,
      first < second ∧ second.val - first.val < frameSamples) := Finset.decidableExistsAndFinset
  Finset.decidableExistsAndFinset

/-- Skipping a frame steps over no other packet if none is less than a frame behind it. -/
theorem Forward.accelerate (forward : Forward within buffer normals) (half : HalfCircle within)
    (plays : buffer.playing = true)
    (apart : buffer.pullsSinceAccelerate + 1 < accelerateEvery ∨ buffer.lowest ≤ spare ∨
      ¬ buffer.Crowded) : Forward within buffer.accelerate normals := by
  unfold JitterBuffer.accelerate
  simp only
  split
  · exact { forward with }
  · rename_i ends
    split
    · exact { forward with }
    · rename_i much
      have apart : ¬ buffer.Crowded := by
        refine (apart.resolve_left ends).resolve_left fun low => much ?_
        exact (min_le_left _ _).trans low
      split
      · exact { forward with }
      · rename_i next known
        split
        · rename_i found
          obtain ⟨packet, found⟩ := Option.isSome_iff_exists.mp found
          have member : next ∈ buffer.packets.keys := (Map.mem_keys_iff _ _).mpr ⟨packet, found⟩
          have keys : ∀ other ∈ (buffer.packets.erase next).keys,
              other ≠ next ∧ other ∈ buffer.packets.keys := by
            intro other there
            rw [Finmap.keys_erase, Finset.mem_erase] at there
            exact there
          exact {
            held := fun other there => forward.held other (keys other there).2
            increasing := forward.increasing
            after := fun normal decoded other there =>
              forward.after normal decoded other (keys other there).2
            counted := forward.counted
            playing := fun _ later same other there => by
              have same := Option.some.inj (show some (next + frameTicks) = some later from same)
              obtain ⟨different, there⟩ := keys other there
              have behind := (half.not_before (forward.held other there)
                (forward.held next member)).mp (forward.playing plays next known other there)
              have above := lt_of_le_of_ne behind (Ne.symm different)
              rw [← same]
              refine half.not_before_next (forward.held next member) (forward.held other there) ?_
              by_contra close
              refine apart ⟨next, member, other, there, above, ?_⟩
              have above : next.val < other.val := above
              omega
            waiting := fun waits => by
              have waits : buffer.playing = false := waits
              rw [plays] at waits
              cases waits }
        · exact { forward with }

theorem Crowded.mono {fewer : JitterBuffer} (crowded : fewer.Crowded)
    (keys : fewer.packets.keys ⊆ buffer.packets.keys) : buffer.Crowded := by
  obtain ⟨first, member, second, there, close⟩ := crowded
  exact ⟨first, keys member, second, keys there, close⟩

theorem Forward.filling (forward : Forward within buffer normals) (half : HalfCircle within) :
    buffer.filling.Forward within buffer normals [] := by
  unfold JitterBuffer.filling
  cases plays : buffer.playing with
  | true =>
    refine ⟨?_, fun _ => plays, Finset.Subset.refl _, rfl, rfl⟩
    rw [List.append_nil]
    exact forward
  | false =>
    refine ⟨?_, fun _ => rfl, Finset.Subset.refl _, rfl, rfl⟩
    rw [List.append_nil]
    refine { forward with playing := fun _ next known other member => ?_, waiting := nofun }
    obtain ⟨inside, least⟩ := (forward.waiting plays).2 next known
    exact (half.not_before (forward.held other member) inside).mpr (least other member)

theorem Forward.pull (forward : Forward within buffer normals) (half : HalfCircle within)
    (target : Nat)
    (apart : buffer.pullsSinceAccelerate + 1 < accelerateEvery ∨ buffer.lowest ≤ spare ∨
      ¬ buffer.Crowded) :
    Forward within (buffer.pull target).2 (normals ++ buffer.pullNormals target) := by
  rw [pull_eq]
  unfold pullNormals
  split
  · rw [List.append_nil]
    exact forward
  · have filled : Filling.Forward within buffer normals
        (loop (Filling.turn target) (pullSamples + 1) buffer.filling) _ :=
      loop_beside (Filling.Forward within buffer normals) (forward.filling half)
        (fun _ _ _ forward turned => forward.turn half turned) _
    simp only
    split
    · exact filled.forward
    · rename_i plays
      refine filled.forward.accelerate half (filled.playing (Bool.eq_false_iff.mpr plays)) ?_
      rw [filled.pulls, filled.lowest]
      exact apart.imp_right (Or.imp_right fun spaced crowded => spaced (crowded.mono filled.keys))

/-! ### Runs -/

namespace Playback

/-- A packet that isn't rejected as late lies behind every packet decoded normally, and no
window of accelerations ends while packets are buffered less than a frame apart. -/
def Straight (playback : Playback) : Input → Prop
  | .insert timestamp _ => playback.buffer.isLate timestamp = true ∨
      ∀ normal ∈ playback.normals, normal < timestamp
  | .pull _ => playback.buffer.pullsSinceAccelerate + 1 < accelerateEvery ∨
      playback.buffer.lowest ≤ spare ∨ ¬ playback.buffer.Crowded

instance (playback : Playback) : ∀ input, Decidable (playback.Straight input)
  | .insert timestamp _ =>
    have := List.decidableBAll (· < timestamp) playback.normals
    inferInstanceAs (Decidable (playback.buffer.isLate timestamp = true ∨
      ∀ normal ∈ playback.normals, normal < timestamp))
  | .pull _ => inferInstanceAs (Decidable (playback.buffer.pullsSinceAccelerate + 1 <
      accelerateEvery ∨ playback.buffer.lowest ≤ spare ∨ ¬ playback.buffer.Crowded))

/-- The timestamp is one of the packets'. -/
def Inserted (inputs : List Input) (timestamp : Timestamp) : Prop :=
  ∃ payload, .insert timestamp payload ∈ inputs

theorem step_forward {playback : Playback} (half : HalfCircle within)
    (forward : Forward within playback.buffer playback.normals) {input : Input}
    (inside : ∀ timestamp payload, input = .insert timestamp payload → within timestamp)
    (straight : playback.Straight input) :
    Forward within (playback.step input).buffer (playback.step input).normals := by
  cases input with
  | insert timestamp payload =>
    exact forward.insert half (inside timestamp payload rfl) payload straight
  | pull target => exact forward.pull half target straight

/-- For packets within half the circle, in a run in which none is buffered that lies before one
decoded normally, and no acceleration may step over one: the packets decoded normally are in
order, and nothing buffered is before the next timestamp to play. -/
theorem run_forward (inputs : List Input) (half : HalfCircle (Inserted inputs))
    (straight : Along step Straight {} inputs) :
    let playback := run step {} inputs
    playback.normals.Pairwise (· < ·) ∧
      (playback.buffer.playing = true → ∀ next, playback.buffer.nextTs = some next →
        ∀ timestamp ∈ playback.buffer.packets.keys, timestampBefore timestamp next = false) ∧
      playback.buffer.stats.normal = playback.normals.length := by
  have inside : Along step (fun _ input => ∀ timestamp payload,
      input = .insert timestamp payload → Inserted inputs timestamp) {} inputs :=
    Along.of_forall fun input member timestamp payload same => ⟨payload, same ▸ member⟩
  have forward := (inside.and straight).invariant
    (fun playback => Forward (Inserted inputs) playback.buffer playback.normals)
    (forward_empty _) fun _ _ forward both => step_forward half forward both.1 both.2
  exact ⟨forward.increasing, forward.playing, forward.counted⟩

theorem run_forward_reordered :
    let inputs := [.insert 960 [1], .insert 0 [2], .pull 1140, .pull 1140, .pull 1140]
    (run step {} inputs).normals = [0, 960] ∧
      (run step {} inputs).normals.Pairwise (· < ·) := by
  intro inputs
  refine ⟨by decide +kernel, (run_forward inputs ?_ (by decide +kernel)).1⟩
  rintro first second ⟨payload, member⟩ ⟨payload', member'⟩
  simp [inputs] at member member'
  rcases member with ⟨rfl, -⟩ | ⟨rfl, -⟩ <;> rcases member' with ⟨rfl, -⟩ | ⟨rfl, -⟩ <;> decide

/-- After a pause nothing rejects a straggler that is older than the packet played before it. -/
theorem run_forward_straggler :
    let inputs := .insert 1920 [] :: List.replicate 9 (.pull 960) ++
      [.insert 960 [], .insert 2880 [], .pull 2248]
    HalfCircle (Inserted inputs) ∧ (run step {} inputs).normals = [1920, 960] ∧
      ¬ (run step {} inputs).normals.Pairwise (· < ·) := by
  refine ⟨?_, by decide +kernel, by decide +kernel⟩
  rintro first second ⟨payload, member⟩ ⟨payload', member'⟩
  simp at member member'
  rcases member with ⟨rfl, -⟩ | ⟨rfl, -⟩ | ⟨rfl, -⟩ <;>
    rcases member' with ⟨rfl, -⟩ | ⟨rfl, -⟩ | ⟨rfl, -⟩ <;>
    decide

end Playback

end JitterBuffer

end Throcc
