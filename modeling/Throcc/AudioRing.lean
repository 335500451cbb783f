/-
This file embeds the ring that carries captured audio from the capture thread
to the share thread: the samples in one bounded queue, each buffer's time and
length in another, and no lock around the two.

A push and a pop are each several operations on the queues, and those of the one
may fall anywhere between those of the other. The samples enter before their
buffer does, and the buffer leaves before its samples do, so whatever the order,
the buffers that are taken come out whole, each with its own samples, in the
order they went in.
-/

import Throcc.Run
import Mathlib.Algebra.GroupWithZero.Nat

namespace Throcc

/-- A queue that holds at most `capacity` items. -/
structure Ring (Item : Type) (capacity : Nat) where
  items : List Item := []
  fits : items.length ≤ capacity := by exact Nat.zero_le _

namespace Ring

variable {Item : Type} {capacity : Nat} (ring : Ring Item capacity)

/-- Appends all of the items, or none of them where they don't fit. -/
def write (more : List Item) : Option (Ring Item capacity) :=
  if room : (ring.items ++ more).length ≤ capacity then
    some { items := ring.items ++ more, fits := room }
  else none

def isFull : Bool := ring.items.length = capacity

def push (item : Item) : Option (Ring Item capacity) := ring.write [item]

/-- The ring without its oldest items. -/
def commit (count : Nat) : Ring Item capacity where
  items := ring.items.drop count
  fits := Nat.le_trans (List.drop_sublist count ring.items).length_le ring.fits

/-- The oldest items, which stay in the ring until they are committed. -/
def read (count : Nat) : Option (List Item) :=
  if count ≤ ring.items.length then some (ring.items.take count) else none

def pop : Option Item × Ring Item capacity := (ring.items.head?, ring.commit 1)

theorem write_of_fits {more : List Item} (room : ring.items.length + more.length ≤ capacity) :
    ∃ next, ring.write more = some next ∧ next.items = ring.items ++ more := by
  have fits : (ring.items ++ more).length ≤ capacity := by rwa [List.length_append]
  exact ⟨_, dif_pos fits, rfl⟩

end Ring

/-- Captured samples waiting for the share thread: one second of stereo. -/
def sampleRing : Nat := 48000 * 2
/-- Captured buffers waiting for the share thread. -/
def bufferRing : Nat := 64

/-- One buffer in the sample ring and the time it was captured at. -/
structure Captured where
  time : Int
  frames : Nat
deriving DecidableEq

/-- A buffer as it is pushed: cut to its frames, or padded with silence. -/
structure Buffer (Sample : Type) extends Captured where
  samples : List Sample
  whole : samples.length = frames * 2

/-- What `fill_from_iter` makes of the samples. -/
def Buffer.of {Sample : Type} (silence : Sample) (time : Int) (frames : Nat)
    (samples : List Sample) : Buffer Sample where
  time
  frames
  samples := (samples ++ List.replicate (frames * 2) silence).take (frames * 2)
  whole := by
    rw [List.length_take, List.length_append, List.length_replicate]
    exact Nat.min_eq_left (Nat.le_add_left _ _)

/-- How far the capture thread is with a push. -/
inductive Producer (Sample : Type) where
  | idle
  | called (buffer : Buffer Sample)
  /-- There are slots for its samples. -/
  | reserved (buffer : Buffer Sample)
  /-- There is a place for the buffer too. -/
  | ready (buffer : Buffer Sample)
  /-- Its samples are in the ring. -/
  | filled (buffer : Buffer Sample)

/-- How far the share thread is with a pop. -/
inductive Consumer (Sample : Type) where
  | idle
  | holds (captured : Captured)
  | reads (captured : Captured) (chunk : List Sample)

/-- The ring, what its two threads are doing, and what became of the pushes. -/
structure AudioRing (Sample : Type) where
  buffers : Ring Captured bufferRing := {}
  samples : Ring Sample sampleRing := {}
  producer : Producer Sample := .idle
  consumer : Consumer Sample := .idle
  accepted : List (Buffer Sample) := []
  refused : List (Buffer Sample) := []
  /-- What `consume` was called with. -/
  handed : List (Int × List Sample) := []
  /-- A push or a pop failed half way. -/
  broken : Bool := false

namespace AudioRing

variable {Sample : Type}

/-- What a thread does next. -/
inductive Turn (Sample : Type) where
  | push (time : Int) (frames : Nat) (samples : List Sample)
  | produce
  | consume

def refuse (ring : AudioRing Sample) (buffer : Buffer Sample) : AudioRing Sample :=
  { ring with producer := .idle, refused := ring.refused ++ [buffer] }

/-- The next operation of `AudioProducer::push`. -/
def produce (ring : AudioRing Sample) : AudioRing Sample :=
  match ring.producer with
  | .idle => ring
  | .called buffer =>
    if ring.samples.items.length + buffer.frames * 2 ≤ sampleRing then
      { ring with producer := .reserved buffer }
    else ring.refuse buffer
  | .reserved buffer =>
    if ring.buffers.isFull then ring.refuse buffer
    else { ring with producer := .ready buffer }
  | .ready buffer =>
    match ring.samples.write buffer.samples with
    | some samples => { ring with samples, producer := .filled buffer }
    | none => { ring with producer := .idle, broken := true }
  | .filled buffer =>
    match ring.buffers.push buffer.toCaptured with
    | some buffers =>
      { ring with buffers, producer := .idle, accepted := ring.accepted ++ [buffer] }
    | none => { ring with producer := .idle, broken := true }

/-- The next operation of `AudioConsumer::pop`. -/
def consume (ring : AudioRing Sample) : AudioRing Sample :=
  match ring.consumer with
  | .idle =>
    match ring.buffers.pop with
    | (some captured, buffers) => { ring with buffers, consumer := .holds captured }
    | (none, _) => ring
  | .holds captured =>
    match ring.samples.read (captured.frames * 2) with
    | some chunk => { ring with consumer := .reads captured chunk }
    | none => { ring with consumer := .idle, broken := true }
  | .reads captured chunk =>
    { ring with
      samples := ring.samples.commit (captured.frames * 2)
      consumer := .idle
      handed := ring.handed ++ [(captured.time, chunk)] }

variable (silence : Sample)

/-- A push of no frames does nothing, and one comes after the other. -/
def call (ring : AudioRing Sample) (time : Int) (frames : Nat) (samples : List Sample) :
    AudioRing Sample :=
  match ring.producer with
  | .idle =>
    if frames = 0 then ring
    else { ring with producer := .called (.of silence time frames samples) }
  | _ => ring

def step (ring : AudioRing Sample) : Turn Sample → AudioRing Sample
  | .push time frames samples => ring.call silence time frames samples
  | .produce => ring.produce
  | .consume => ring.consume

/-! ### What is in the ring -/

/-- A buffer as it is handed over. -/
def handOver (buffer : Buffer Sample) : Int × List Sample := (buffer.time, buffer.samples)

/-- Its buffer's samples are in the ring, and the buffer isn't yet. -/
def written (ring : AudioRing Sample) : List Sample :=
  match ring.producer with
  | .filled buffer => buffer.samples
  | _ => []

/-- Its buffer has left the ring, and the samples have not. -/
def inHand (ring : AudioRing Sample) : List Captured :=
  match ring.consumer with
  | .idle => []
  | .holds captured => [captured]
  | .reads captured _ => [captured]

/-- What the checks of a push have found, which a pop can't undo. -/
def Granted (ring : AudioRing Sample) : Prop :=
  match ring.producer with
  | .idle => True
  | .called _ => True
  | .reserved buffer => ring.samples.items.length + buffer.frames * 2 ≤ sampleRing
  | .ready buffer => ring.samples.items.length + buffer.frames * 2 ≤ sampleRing ∧
      ring.buffers.items.length < bufferRing
  | .filled _ => ring.buffers.items.length < bufferRing

/-- The chunk that is read is what stands first in the ring. -/
def Reads (ring : AudioRing Sample) : Prop :=
  match ring.consumer with
  | .reads captured chunk =>
    chunk.length = captured.frames * 2 ∧ chunk <+: ring.samples.items
  | _ => True

/-- The accepted buffers that have not been handed over. -/
structure Sound (ring : AudioRing Sample) (waiting : List (Buffer Sample)) : Prop where
  intact : ring.broken = false
  order : ∃ gone, ring.accepted = gone ++ waiting ∧ ring.handed = gone.map handOver
  buffers : waiting.map Buffer.toCaptured = ring.inHand ++ ring.buffers.items
  samples : ring.samples.items = waiting.flatMap Buffer.samples ++ ring.written
  granted : ring.Granted
  reads : ring.Reads

variable {silence} {ring : AudioRing Sample} {waiting : List (Buffer Sample)}

theorem Sound.call (sound : Sound ring waiting) (time : Int) (frames : Nat)
    (samples : List Sample) : Sound (ring.call silence time frames samples) waiting := by
  unfold AudioRing.call
  cases producer : ring.producer with
  | idle =>
    dsimp only
    split
    · exact sound
    · have held := sound.samples
      unfold written at held
      rw [producer] at held
      exact ⟨sound.intact, sound.order, sound.buffers, held, trivial, sound.reads⟩
  | _ => exact sound

/-- A push that is refused leaves the rings as they are. -/
theorem Sound.refuse (sound : Sound ring waiting) (buffer : Buffer Sample)
    (unwritten : ring.written = []) : Sound (ring.refuse buffer) waiting := by
  have held := sound.samples
  rw [unwritten] at held
  exact ⟨sound.intact, sound.order, sound.buffers, held, trivial, sound.reads⟩

theorem Sound.produce (sound : Sound ring waiting) :
    ∃ more, Sound ring.produce (waiting ++ more) := by
  have held := sound.samples
  have granted := sound.granted
  unfold AudioRing.produce
  unfold written at held
  unfold Granted at granted
  cases producer : ring.producer with
  | idle => exact ⟨[], by rwa [List.append_nil]⟩
  | called buffer =>
    rw [producer] at held
    refine ⟨[], ?_⟩
    rw [List.append_nil]
    dsimp only
    split
    · rename_i room
      exact ⟨sound.intact, sound.order, sound.buffers, held, room, sound.reads⟩
    · exact sound.refuse buffer (by rw [written, producer])
  | reserved buffer =>
    rw [producer] at held granted
    refine ⟨[], ?_⟩
    rw [List.append_nil]
    dsimp only
    split
    · exact sound.refuse buffer (by rw [written, producer])
    · rename_i notFull
      have place := Nat.lt_of_le_of_ne ring.buffers.fits fun full => notFull (decide_eq_true full)
      exact ⟨sound.intact, sound.order, sound.buffers, held, ⟨granted, place⟩, sound.reads⟩
  | ready buffer =>
    rw [producer] at held granted
    have room : ring.samples.items.length + buffer.samples.length ≤ sampleRing := by
      rw [buffer.whole]
      exact granted.1
    obtain ⟨next, written, items⟩ := ring.samples.write_of_fits room
    dsimp only
    rw [written]
    refine ⟨[], ?_⟩
    rw [List.append_nil]
    refine ⟨sound.intact, sound.order, sound.buffers, ?_, granted.2, ?_⟩
    · show next.items = _
      rw [items, held, List.append_nil]
      rfl
    · have reads := sound.reads
      unfold Reads at reads ⊢
      cases consumer : ring.consumer with
      | reads captured chunk =>
        rw [consumer] at reads
        show chunk.length = _ ∧ chunk <+: next.items
        rw [items]
        exact ⟨reads.1, reads.2.trans (List.prefix_append _ _)⟩
      | _ => trivial
  | filled buffer =>
    rw [producer] at held granted
    have place : ring.buffers.items.length + [buffer.toCaptured].length ≤ bufferRing := granted
    obtain ⟨next, pushed, items⟩ := ring.buffers.write_of_fits place
    dsimp only
    rw [Ring.push, pushed]
    obtain ⟨gone, accepted, handed⟩ := sound.order
    refine ⟨[buffer], sound.intact, ⟨gone, ?_, handed⟩, ?_, ?_, trivial, sound.reads⟩
    · show ring.accepted ++ [buffer] = _
      rw [accepted, List.append_assoc]
    · show _ = ring.inHand ++ next.items
      rw [items, List.map_append, sound.buffers, List.append_assoc]
      rfl
    · show ring.samples.items = _ ++ []
      rw [held, List.flatMap_append, List.flatMap_singleton, List.append_nil]

/-- The first buffer that waits has its samples first in the ring. -/
theorem Sound.first (sound : Sound ring waiting) {captured : Captured} {rest : List Captured}
    (inHand : ring.inHand ++ ring.buffers.items = captured :: rest) :
    ∃ first others, waiting = first :: others ∧ first.toCaptured = captured ∧
      ring.samples.items =
        first.samples ++ (others.flatMap Buffer.samples ++ ring.written) := by
  have buffers := sound.buffers
  rw [inHand] at buffers
  cases waiting with
  | nil => cases buffers
  | cons first others =>
    rw [List.map_cons, List.cons.injEq] at buffers
    refine ⟨first, others, rfl, buffers.1, ?_⟩
    rw [sound.samples, List.flatMap_cons, List.append_assoc]

/-- A pop leaves all the room a push has found. -/
theorem Granted.shrink (granted : ring.Granted) {next : AudioRing Sample}
    (producer : next.producer = ring.producer)
    (samples : next.samples.items.length ≤ ring.samples.items.length)
    (buffers : next.buffers.items.length ≤ ring.buffers.items.length) : next.Granted := by
  unfold Granted at granted ⊢
  rw [producer]
  split at granted
  · trivial
  · trivial
  · exact Nat.le_trans (Nat.add_le_add_right samples _) granted
  · exact ⟨Nat.le_trans (Nat.add_le_add_right samples _) granted.1,
      Nat.lt_of_le_of_lt buffers granted.2⟩
  · exact Nat.lt_of_le_of_lt buffers granted

/-- How many of the three operations of a pop are done. -/
def popped (ring : AudioRing Sample) : Nat :=
  match ring.consumer with
  | .idle => 0
  | .holds _ => 1
  | .reads _ _ => 2

/-- How many operations hand over all that waits. -/
def left (ring : AudioRing Sample) (waiting : List (Buffer Sample)) : Nat :=
  3 * waiting.length - ring.popped

theorem Sound.consume (sound : Sound ring waiting) :
    ∃ rest, Sound ring.consume rest ∧ ring.consume.left rest = ring.left waiting - 1 := by
  have buffers := sound.buffers
  have reads := sound.reads
  unfold AudioRing.consume left popped
  unfold inHand at buffers
  unfold Reads at reads
  cases consumer : ring.consumer with
  | idle =>
    rw [consumer] at buffers
    dsimp only [Ring.pop]
    cases items : ring.buffers.items with
    | nil =>
      have none : waiting = [] := by
        rw [items] at buffers
        exact List.map_eq_nil_iff.mp buffers
      subst none
      refine ⟨[], sound, ?_⟩
      rw [List.head?_nil, consumer]
      rfl
    | cons captured others =>
      rw [items] at buffers
      refine ⟨waiting, ⟨sound.intact, sound.order, ?_, sound.samples, ?_, trivial⟩, rfl⟩
      · show _ = [captured] ++ ring.buffers.items.drop 1
        rw [items]
        exact buffers
      · exact sound.granted.shrink rfl Nat.le.refl (List.drop_sublist 1 _).length_le
  | holds captured =>
    rw [consumer] at buffers
    have inHand : ring.inHand ++ ring.buffers.items = captured :: ring.buffers.items := by
      rw [AudioRing.inHand, consumer]
      rfl
    obtain ⟨first, others, rfl, rfl, items⟩ := sound.first inHand
    have whole : first.samples.length = first.frames * 2 := first.whole
    have enough : first.frames * 2 ≤ ring.samples.items.length := by
      rw [items, List.length_append, whole]
      exact Nat.le_add_right _ _
    dsimp only [Ring.read]
    rw [if_pos enough]
    refine ⟨_, ⟨sound.intact, sound.order, buffers, sound.samples, sound.granted, ?_⟩, ?_⟩
    · exact ⟨List.length_take_of_le enough, List.take_prefix _ _⟩
    · simp only [List.length_cons]
      omega
  | reads captured chunk =>
    rw [consumer] at buffers reads
    have inHand : ring.inHand ++ ring.buffers.items = captured :: ring.buffers.items := by
      rw [AudioRing.inHand, consumer]
      rfl
    obtain ⟨first, others, rfl, rfl, items⟩ := sound.first inHand
    have whole : first.samples.length = first.frames * 2 := first.whole
    have same : chunk = first.samples := by
      refine List.IsPrefix.eq_of_length ?_ (reads.1.trans whole.symm)
      refine List.prefix_of_prefix_length_le reads.2 ?_ (Nat.le_of_eq (reads.1.trans whole.symm))
      rw [items]
      exact List.prefix_append _ _
    subst same
    refine ⟨others, ⟨sound.intact, ?_, ?_, ?_, ?_, trivial⟩, ?_⟩
    · obtain ⟨gone, accepted, handed⟩ := sound.order
      refine ⟨gone ++ [first], ?_, ?_⟩
      · rw [List.append_assoc]
        exact accepted
      · show ring.handed ++ [handOver first] = _
        rw [handed, List.map_append]
        rfl
    · rw [List.map_cons, List.singleton_append, List.cons.injEq] at buffers
      exact buffers.2
    · show ring.samples.items.drop (first.frames * 2) = _ ++ ring.written
      rw [items, ← whole, List.drop_left]
    · exact sound.granted.shrink rfl (List.drop_sublist _ _).length_le Nat.le.refl
    · simp only [List.length_cons]
      omega

theorem Sound.turn (sound : Sound ring waiting) (turn : Turn Sample) :
    ∃ next, Sound (step silence ring turn) next := by
  cases turn with
  | push time frames samples => exact ⟨waiting, sound.call time frames samples⟩
  | produce =>
    obtain ⟨more, after⟩ := sound.produce
    exact ⟨waiting ++ more, after⟩
  | consume =>
    obtain ⟨rest, after, -⟩ := sound.consume
    exact ⟨rest, after⟩

theorem sound_empty : Sound ({} : AudioRing Sample) [] where
  intact := rfl
  order := ⟨[], rfl, rfl⟩
  buffers := rfl
  samples := rfl
  granted := trivial
  reads := trivial

theorem sound_run (turns : List (Turn Sample)) :
    ∃ waiting, Sound (run (step silence) {} turns) waiting :=
  run_invariant (step silence) (fun ring => ∃ waiting, Sound ring waiting) ⟨[], sound_empty⟩
    (fun _ turn ⟨_, sound⟩ => sound.turn turn) turns

theorem accepted_consume (ring : AudioRing Sample) : ring.consume.accepted = ring.accepted := by
  unfold AudioRing.consume
  repeat' split
  all_goals rfl

/-- A consumer that goes on popping gets all that waits. -/
theorem Sound.drain (sound : Sound ring waiting) {count : Nat}
    (enough : ring.left waiting ≤ count) :
    (run (step silence) ring (List.replicate count .consume)).handed =
      ring.accepted.map handOver := by
  induction count generalizing ring waiting with
  | zero =>
    have none : waiting = [] := by
      have few : ring.popped ≤ 2 := by
        unfold popped
        split <;> decide
      unfold left at enough
      exact List.length_eq_zero_iff.mp (by omega)
    obtain ⟨gone, accepted, handed⟩ := sound.order
    rw [accepted, none, List.append_nil]
    exact handed
  | succ count inductionHypothesis =>
    obtain ⟨rest, after, fewer⟩ := sound.consume
    rw [List.replicate_succ, run_cons]
    refine (inductionHypothesis after (by omega)).trans ?_
    rw [accepted_consume]

/-! ### Nothing is lost or mixed up -/

/-- The accepted buffers that have not been handed over. -/
def pending (ring : AudioRing Sample) : List (Buffer Sample) :=
  ring.accepted.drop ring.handed.length

/-- What the two threads rely on. -/
structure Lossless (silence : Sample) (ring : AudioRing Sample) : Prop where
  /-- No push or pop fails half way. -/
  intact : ring.broken = false
  /-- Buffers are handed over in the order they were accepted, whole and with their samples. -/
  order : ring.handed <+: ring.accepted.map handOver
  /-- Popping on hands over every accepted buffer. -/
  drains : (run (step silence) ring (List.replicate (3 * ring.pending.length) .consume)).handed =
    ring.accepted.map handOver
  /-- A push is refused at once exactly if its samples don't fit beside those that wait, -/
  full : ∀ buffer, ring.producer = .called buffer →
    (ring.produce.refused = ring.refused ↔
      (ring.pending.map fun other => other.frames * 2).sum + buffer.frames * 2 ≤ sampleRing)
  /-- and after that exactly if as many buffers wait as may. -/
  crowded : ∀ buffer, ring.producer = .reserved buffer →
    (ring.produce.refused = ring.refused ↔
      ring.pending.length < bufferRing + ring.inHand.length)

theorem Sound.pending_eq (sound : Sound ring waiting) : ring.pending = waiting := by
  obtain ⟨gone, accepted, handed⟩ := sound.order
  rw [AudioRing.pending, accepted, handed, List.length_map, List.drop_left]

theorem refused_refuse (ring : AudioRing Sample) (buffer : Buffer Sample) :
    (ring.refuse buffer).refused ≠ ring.refused := by
  show ring.refused ++ [buffer] ≠ ring.refused
  exact fun same => List.cons_ne_nil _ _ (List.append_right_eq_self.mp same)

theorem Sound.length_samples (sound : Sound ring waiting) (unwritten : ring.written = []) :
    ring.samples.items.length = (waiting.map fun other => other.frames * 2).sum := by
  rw [sound.samples, unwritten, List.append_nil, List.length_flatMap]
  exact congrArg List.sum (List.map_congr_left fun other _ => other.whole)

theorem Sound.lossless (sound : Sound ring waiting) : Lossless silence ring where
  intact := sound.intact
  order := by
    obtain ⟨gone, accepted, handed⟩ := sound.order
    rw [accepted, handed, List.map_append]
    exact List.prefix_append _ _
  drains := by
    rw [sound.pending_eq]
    exact sound.drain (Nat.sub_le _ _)
  full buffer called := by
    rw [sound.pending_eq, ← sound.length_samples (by rw [written, called])]
    unfold AudioRing.produce
    rw [called]
    dsimp only
    split
    · rename_i room
      exact ⟨fun _ => room, fun _ => rfl⟩
    · rename_i noRoom
      exact ⟨fun same => absurd same (refused_refuse ring buffer), fun room => absurd room noRoom⟩
  crowded buffer reserved := by
    have count := congrArg List.length sound.buffers
    rw [List.length_map, List.length_append] at count
    have most := ring.buffers.fits
    rw [sound.pending_eq, count]
    unfold AudioRing.produce Ring.isFull
    rw [reserved]
    dsimp only
    split
    · rename_i full
      have full := of_decide_eq_true full
      refine ⟨fun same => absurd same (refused_refuse ring buffer), fun room => ?_⟩
      omega
    · rename_i notFull
      have place : ring.buffers.items.length ≠ bufferRing := fun full =>
        notFull (decide_eq_true full)
      refine ⟨fun _ => ?_, fun _ => rfl⟩
      omega

/-- However pushes and pops overlap. -/
theorem run_lossless (silence : Sample) (turns : List (Turn Sample)) :
    Lossless silence (run (step silence) {} turns) := by
  obtain ⟨_, sound⟩ := sound_run turns
  exact sound.lossless

end AudioRing

end Throcc
