/-
This file embeds the cutting of captured audio into frames of 20 ms and shows
that it keeps time.

The chunker moves samples and never looks at them, so it is run here on samples
that say which buffer they came from and where they stood in it. Every pending
sample has a time by where it lies; a buffer is appended only where that time is
within half a frame of its own, and anything else puts it exactly at its own.
-/

import Throcc.Run
import Throcc.FrameLimiter

namespace Throcc

/-- 20 ms at 48 kHz. -/
def audioFrame : Nat := 960
/-- The samples of a stereo frame. -/
def stereoFrame : Nat := 2 * audioFrame
/-- An audio buffer further than this from where the previous one ended starts afresh. -/
def slip : Int := 480

/-- Cuts timestamped interleaved stereo into 20 ms frames on the 48 kHz share clock. -/
structure AudioChunker (Sample : Type) where
  pending : List Sample := []
  /-- Timestamp of the first pending sample, in 48 kHz ticks from the zero, once any came. -/
  pendingAt : Option Int := none

namespace AudioChunker

variable {Sample : Type}

def needsMore (chunker : AudioChunker Sample) : Bool := chunker.pending.length < stereoFrame

/-- Appends `samples`, whose first frame is at `ticks`. A buffer that slipped from where the
pending audio ends restarts the chunking on the same grid, padded with silence. -/
def push (silence : Sample) (ticks : Int) (samples : List Sample)
    (chunker : AudioChunker Sample) : AudioChunker Sample :=
  match chunker.pendingAt with
  | none => { pending := chunker.pending ++ samples, pendingAt := some ticks }
  | some start =>
    let expected := start + (chunker.pending.length / 2 : Nat)
    if |ticks - expected| ≤ slip then { chunker with pending := chunker.pending ++ samples }
    else
      let grid := start + (ticks - start) / audioFrame * audioFrame
      if grid ≥ start then
        { pending := List.replicate (2 * (ticks - grid).toNat) silence ++ samples,
          pendingAt := some grid }
      else { chunker with pending := samples.drop (2 * (start - ticks).toNat) }

/-- Moves the oldest 20 ms out and returns it with its timestamp. A frame that starts before
the zero is discarded and gives nothing, as does too little audio. -/
def take (chunker : AudioChunker Sample) :
    Option (BitVec 32 × List Sample) × AudioChunker Sample :=
  if chunker.needsMore then (none, chunker)
  else
    match chunker.pendingAt with
    | none => (none, chunker)
    | some start =>
      let next : AudioChunker Sample :=
        { pending := chunker.pending.drop stereoFrame, pendingAt := some (start + audioFrame) }
      if start < 0 then (none, next)
      else (some (FrameLimiter.stamp start, chunker.pending.take stereoFrame), next)

/-- The chunker with every pending sample seen through a function. -/
def map {Other : Type} (seen : Sample → Other) (chunker : AudioChunker Sample) :
    AudioChunker Other where
  pending := chunker.pending.map seen
  pendingAt := chunker.pendingAt

/-- Samples are moved and never looked at, so that what samples say of themselves tells where
those of a real buffer go. -/
theorem push_map {Other : Type} (seen : Sample → Other) (silence : Sample) (ticks : Int)
    (samples : List Sample) (chunker : AudioChunker Sample) :
    (chunker.map seen).push (seen silence) ticks (samples.map seen) =
      (chunker.push silence ticks samples).map seen := by
  unfold push map
  cases pendingAt : chunker.pendingAt with
  | none => simp only [List.map_append]
  | some start =>
    dsimp only
    rw [List.length_map]
    split
    · simp only [List.map_append]
    split
    · simp only [List.map_append, List.map_replicate]
    · simp only [List.map_drop]

theorem take_map {Other : Type} (seen : Sample → Other) (chunker : AudioChunker Sample) :
    (chunker.map seen).take =
      (chunker.take.1.map fun frame => (frame.1, frame.2.map seen), chunker.take.2.map seen) := by
  have same : (chunker.map seen).needsMore = chunker.needsMore := by
    rw [needsMore, map, List.length_map]
    rfl
  unfold take
  rw [same]
  split
  · rfl
  · cases pendingAt : chunker.pendingAt with
    | none =>
      simp only [map, pendingAt]
      rfl
    | some start =>
      simp only [map, pendingAt]
      split
      · simp only [List.map_drop, Option.map_none]
      · simp only [List.map_drop, List.map_take, Option.map_some]

end AudioChunker

namespace Chunking

/-! ### Runs -/

/-- A sample by the buffer it was captured in and where it stood there. -/
structure Captured where
  buffer : Nat
  index : Nat
deriving DecidableEq, Repr

/-- A captured sample, or silence. -/
abbrev Tagged := Option Captured

/-- A frame that was taken, with its time before it is cut to 32 bits. -/
structure Taken where
  start : Int
  timestamp : BitVec 32
  samples : List Tagged

/-- A chunker, the capture times of the buffers pushed into it and the frames taken from it. -/
structure Run where
  chunker : AudioChunker Tagged := {}
  buffers : List Int := []
  frames : List Taken := []

inductive Call where
  /-- A buffer of whole stereo samples captured at a time. -/
  | push (ticks : Int) (count : Nat)
  | take

/-- The samples of a buffer of `count` stereo samples. -/
def samplesOf (buffer count : Nat) : List Tagged :=
  (List.range (2 * count)).map fun index => some ⟨buffer, index⟩

def step (run : Run) : Call → Run
  | .push ticks count =>
    { run with
      chunker := run.chunker.push none ticks (samplesOf run.buffers.length count)
      buffers := run.buffers ++ [ticks] }
  | .take =>
    let start := run.chunker.pendingAt.getD 0
    let (taken, chunker) := run.chunker.take
    { run with
      chunker
      frames := run.frames ++ taken.toList.map fun frame => ⟨start, frame.1, frame.2⟩ }

/-! ### Order -/

/-- Pushed ahead of: in an earlier buffer, or earlier in the same one. -/
def Captured.Before (first second : Captured) : Prop :=
  first.buffer < second.buffer ∨ first.buffer = second.buffer ∧ first.index < second.index

/-- The captured samples among some samples. -/
def captured (samples : List Tagged) : List Captured := samples.filterMap id

/-- The captured samples stand in the order they were pushed, none of them twice. -/
def Ordered (samples : List Tagged) : Prop := (captured samples).Pairwise Captured.Before

/-- All captured samples are of the first buffers. -/
def Among (buffers : Nat) (samples : List Tagged) : Prop :=
  ∀ sample ∈ captured samples, sample.buffer < buffers

theorem captured_append (first second : List Tagged) :
    captured (first ++ second) = captured first ++ captured second := List.filterMap_append

theorem captured_samplesOf (buffer count : Nat) :
    captured (samplesOf buffer count) = (List.range (2 * count)).map (Captured.mk buffer) := by
  rw [captured, samplesOf, List.filterMap_map]
  exact List.filterMap_eq_map ▸ rfl

theorem captured_silence (count : Nat) : captured (List.replicate count none) = [] :=
  List.filterMap_replicate_of_none rfl

theorem ordered_samplesOf (buffer count : Nat) : Ordered (samplesOf buffer count) := by
  rw [Ordered, captured_samplesOf, List.pairwise_map]
  exact List.pairwise_lt_range.imp fun less => .inr ⟨rfl, less⟩

theorem Ordered.sublist {samples others : List Tagged} (ordered : Ordered samples)
    (part : others.Sublist samples) : Ordered others :=
  List.Pairwise.sublist (part.filterMap _) ordered

theorem Among.sublist {buffers : Nat} {samples others : List Tagged} (among : Among buffers samples)
    (part : others.Sublist samples) : Among buffers others :=
  fun sample member => among sample ((part.filterMap _).subset member)

/-- A part of the next buffer, behind silence or not, follows what came before it. -/
theorem Ordered.append_next {samples more : List Tagged} {buffer count : Nat}
    (ordered : Ordered samples) (among : Among buffer samples)
    (part : (captured more).Sublist (captured (samplesOf buffer count))) :
    Ordered (samples ++ more) ∧ Among (buffer + 1) (samples ++ more) := by
  have own : ∀ sample ∈ captured more, sample.buffer = buffer := by
    intro sample member
    have of := part.subset member
    rw [captured_samplesOf] at of
    obtain ⟨_, _, rfl⟩ := List.mem_map.mp of
    rfl
  unfold Ordered Among
  rw [captured_append]
  refine ⟨List.pairwise_append.mpr ⟨ordered, List.Pairwise.sublist part (ordered_samplesOf ..), ?_⟩, ?_⟩
  · intro first inFirst second inSecond
    exact .inl (own second inSecond ▸ among first inFirst)
  · intro sample member
    rcases List.mem_append.mp member with old | new
    · exact Nat.lt_succ_of_lt (among sample old)
    · exact own sample new ▸ Nat.lt_succ_self _

/-! ### Time -/

/-- Samples that lie, from a time on, within half a frame of where their buffers' capture times
put them, left and right as they were captured. -/
def InTime (buffers : List Int) (start : Int) (samples : List Tagged) : Prop :=
  ∀ (position : Nat) (sample : Captured), samples[position]? = some (some sample) →
    ∃ ticks, buffers[sample.buffer]? = some ticks ∧ position % 2 = sample.index % 2 ∧
      |start + (position / 2 : Nat) - (ticks + (sample.index / 2 : Nat))| ≤ slip

theorem InTime.mono {buffers : List Int} {start : Int} {samples : List Tagged}
    (inTime : InTime buffers start samples) (ticks : Int) :
    InTime (buffers ++ [ticks]) start samples := by
  intro position sample found
  obtain ⟨own, isOwn, channel, near⟩ := inTime position sample found
  exact ⟨own, List.getElem?_append_left (List.getElem?_eq_some_iff.mp isOwn).1 ▸ isOwn, channel, near⟩

theorem InTime.append {buffers : List Int} {start : Int} {samples more : List Tagged}
    (inTime : InTime buffers start samples) (even : 2 ∣ samples.length)
    (later : InTime buffers (start + (samples.length / 2 : Nat)) more) :
    InTime buffers start (samples ++ more) := by
  intro position sample found
  by_cases within : position < samples.length
  · rw [List.getElem?_append_left within] at found
    exact inTime position sample found
  · rw [List.getElem?_append_right (Nat.le_of_not_lt within)] at found
    obtain ⟨ticks, own, channel, near⟩ := later _ sample found
    obtain ⟨half, length⟩ := even
    have shifted : start + (position / 2 : Nat) =
        start + (samples.length / 2 : Nat) + ((position - samples.length) / 2 : Nat) := by
      omega
    refine ⟨ticks, own, by omega, ?_⟩
    rwa [shifted]

theorem InTime.take {buffers : List Int} {start : Int} {samples : List Tagged}
    (inTime : InTime buffers start samples) (count : Nat) :
    InTime buffers start (samples.take count) := by
  intro position sample found
  have within : position < count := by
    have lt := (List.getElem?_eq_some_iff.mp found).1
    rw [List.length_take] at lt
    omega
  rw [List.getElem?_take_of_lt within] at found
  exact inTime position sample found

theorem InTime.drop {buffers : List Int} {start : Int} {samples : List Tagged}
    (inTime : InTime buffers start samples) (ticks : Nat) :
    InTime buffers (start + ticks) (samples.drop (2 * ticks)) := by
  intro position sample found
  rw [List.getElem?_drop] at found
  obtain ⟨own, isOwn, channel, near⟩ := inTime _ sample found
  have shifted : start + ((2 * ticks + position) / 2 : Nat) = start + ticks + (position / 2 : Nat) := by
    omega
  exact ⟨own, isOwn, by omega, shifted ▸ near⟩

theorem inTime_silence (buffers : List Int) (start : Int) (count : Nat) :
    InTime buffers start (List.replicate count none) := by
  intro position sample found
  have none := List.eq_of_mem_replicate (List.mem_of_getElem? found)
  cases none

/-- A buffer is in time from wherever is within half a frame of its capture time. -/
theorem inTime_samplesOf (buffers : List Int) {start ticks : Int} (near : |start - ticks| ≤ slip)
    (count : Nat) : InTime (buffers ++ [ticks]) start (samplesOf buffers.length count) := by
  intro position sample found
  rw [samplesOf, List.getElem?_map] at found
  obtain ⟨index, isIndex, spelled⟩ := Option.map_eq_some_iff.mp found
  cases spelled
  obtain ⟨within, isPosition⟩ := List.getElem?_eq_some_iff.mp isIndex
  rw [List.getElem_range] at isPosition
  subst isPosition
  refine ⟨ticks, List.getElem?_concat_length .., rfl, ?_⟩
  rwa [add_sub_add_right_eq_sub]

/-! ### What holds of every run -/

/-- The samples of all frames taken. -/
def Run.out (run : Run) : List Tagged := run.frames.flatMap Taken.samples

structure Sound (run : Run) : Prop where
  even : 2 ∣ run.chunker.pending.length
  fresh : run.chunker.pendingAt = none → run.chunker.pending = [] ∧ run.frames = []
  ordered : Ordered (run.out ++ run.chunker.pending)
  among : Among run.buffers.length (run.out ++ run.chunker.pending)
  pendingInTime : ∀ start, run.chunker.pendingAt = some start →
    InTime run.buffers start run.chunker.pending
  framesInTime : ∀ frame ∈ run.frames, InTime run.buffers frame.start frame.samples
  framesWhole : ∀ frame ∈ run.frames, frame.samples.length = stereoFrame ∧
    frame.timestamp = FrameLimiter.stamp frame.start
  grid : ∀ start, run.chunker.pendingAt = some start → ∀ frame ∈ run.frames,
    (audioFrame : Int) ∣ start - frame.start ∧ frame.start < start
  increasing : run.frames.Pairwise fun first second =>
    (audioFrame : Int) ∣ second.start - first.start ∧ first.start < second.start

theorem start_sound : Sound {} where
  even := ⟨0, rfl⟩
  fresh _ := ⟨rfl, rfl⟩
  ordered := .nil
  among _ member := absurd member List.not_mem_nil
  pendingInTime _ none := nomatch none
  framesInTime _ member := absurd member List.not_mem_nil
  framesWhole _ member := absurd member List.not_mem_nil
  grid _ none := nomatch none
  increasing := .nil

/-- A push leaves the frames alone and gives the chunker samples in time and in order, on the
grid. -/
theorem Sound.pushed {run : Run} (sound : Sound run) {ticks start : Int} {pending : List Tagged}
    (even : 2 ∣ pending.length)
    (follows : Ordered (run.out ++ pending) ∧ Among (run.buffers.length + 1) (run.out ++ pending))
    (inTime : InTime (run.buffers ++ [ticks]) start pending)
    (grid : ∀ frame ∈ run.frames, (audioFrame : Int) ∣ start - frame.start ∧ frame.start < start) :
    Sound { run with chunker := ⟨pending, some start⟩, buffers := run.buffers ++ [ticks] } where
  even := even
  fresh none := nomatch none
  ordered := follows.1
  among := by
    rw [List.length_append]
    exact follows.2
  pendingInTime _ isStart := by
    cases isStart
    exact inTime
  framesInTime frame member := (sound.framesInTime frame member).mono ticks
  framesWhole := sound.framesWhole
  grid _ isStart := by
    cases isStart
    exact grid
  increasing := sound.increasing

theorem length_samplesOf (buffer count : Nat) : (samplesOf buffer count).length = 2 * count := by
  rw [samplesOf, List.length_map, List.length_range]

theorem Sound.out_follows {run : Run} (sound : Sound run) {more : List Tagged} {count : Nat}
    (part : (captured more).Sublist (captured (samplesOf run.buffers.length count))) :
    Ordered (run.out ++ more) ∧ Among (run.buffers.length + 1) (run.out ++ more) :=
  (sound.ordered.sublist (List.sublist_append_left ..)).append_next
    (sound.among.sublist (List.sublist_append_left ..)) part

theorem Sound.push {run : Run} (sound : Sound run) (ticks : Int) (count : Nat) :
    Sound (step run (.push ticks count)) := by
  have exact : |ticks - ticks| ≤ slip := by
    rw [sub_self, abs_zero]
    decide
  unfold step AudioChunker.push
  cases pendingAt : run.chunker.pendingAt with
  | none =>
    obtain ⟨empty, noFrames⟩ := sound.fresh pendingAt
    refine sound.pushed ?_ ?_ ?_ ?_
    · rw [empty, List.nil_append, length_samplesOf]
      exact ⟨count, rfl⟩
    · rw [empty, List.nil_append]
      exact sound.out_follows (List.Sublist.refl _)
    · rw [empty, List.nil_append]
      exact inTime_samplesOf _ exact count
    · rw [noFrames]
      exact fun frame member => absurd member List.not_mem_nil
  | some start =>
    have onGrid := sound.grid start pendingAt
    have inTime := sound.pendingInTime start pendingAt
    obtain ⟨half, length⟩ := sound.even
    dsimp only
    split
    case isTrue near =>
      -- the buffer lies where the pending audio ends
      refine sound.pushed ?_ ?_ ?_ onGrid
      · rw [List.length_append, length_samplesOf, length]
        exact ⟨half + count, (Nat.mul_add ..).symm⟩
      · rw [← List.append_assoc]
        exact sound.ordered.append_next sound.among (List.Sublist.refl _)
      · refine (inTime.mono ticks).append sound.even (inTime_samplesOf _ ?_ count)
        rwa [abs_sub_comm]
    split
    case isFalse.isTrue ahead =>
      generalize quotient : (ticks - start) / audioFrame = steps at ahead ⊢
      have padded : start + steps * audioFrame + (ticks - (start + steps * audioFrame)).toNat = ticks := by
        unfold audioFrame at *
        omega
      refine sound.pushed ?_ ?_ ?_ fun frame member => ?_
      · rw [List.length_append, List.length_replicate, length_samplesOf]
        exact ⟨_, (Nat.mul_add ..).symm⟩
      · refine @Sound.out_follows run sound _ count ?_
        rw [captured_append, captured_silence, List.nil_append]
      · refine InTime.append (inTime_silence _ _ _) ?_ ?_
        · rw [List.length_replicate]
          exact ⟨_, rfl⟩
        · rw [List.length_replicate, Nat.mul_div_cancel_left _ (by decide), padded]
          exact inTime_samplesOf _ exact count
      · obtain ⟨⟨whole, apart⟩, before⟩ := onGrid frame member
        exact ⟨⟨whole + steps, by rw [mul_add, ← apart]; ring⟩, by omega⟩
    case isFalse.isFalse behind =>
      -- what was already sent is skipped
      have skipped : ticks + (start - ticks).toNat = start := by
        unfold audioFrame at behind
        omega
      refine sound.pushed ?_ ?_ ?_ onGrid
      · rw [List.length_drop, length_samplesOf]
        exact ⟨count - (start - ticks).toNat, (Nat.mul_sub ..).symm⟩
      · exact sound.out_follows ((List.drop_sublist ..).filterMap _)
      · have inTime := (inTime_samplesOf run.buffers exact count).drop (start - ticks).toNat
        rwa [skipped] at inTime

theorem Sound.take {run : Run} (sound : Sound run) : Sound (step run .take) := by
  unfold step AudioChunker.take
  dsimp only
  split
  case isTrue needsMore =>
    rw [Option.toList_none, List.map_nil, List.append_nil]
    exact sound
  case isFalse enough =>
  replace enough : stereoFrame ≤ run.chunker.pending.length := by
    simpa [AudioChunker.needsMore] using enough
  cases pendingAt : run.chunker.pendingAt with
  | none =>
    obtain ⟨empty, _⟩ := sound.fresh pendingAt
    rw [empty] at enough
    exact absurd enough (by decide)
  | some start =>
    have inTime := sound.pendingInTime start pendingAt
    have onGrid := sound.grid start pendingAt
    have even : 2 ∣ (run.chunker.pending.drop stereoFrame).length := by
      rw [List.length_drop]
      exact Nat.dvd_sub sound.even ⟨audioFrame, rfl⟩
    have later : InTime run.buffers (start + audioFrame) (run.chunker.pending.drop stereoFrame) :=
      inTime.drop audioFrame
    have next : ∀ frame ∈ run.frames, (audioFrame : Int) ∣ start + audioFrame - frame.start ∧
        frame.start < start + audioFrame := by
      intro frame member
      obtain ⟨⟨whole, apart⟩, before⟩ := onGrid frame member
      exact ⟨⟨whole + 1, by rw [mul_add, ← apart]; ring⟩, by unfold audioFrame; omega⟩
    dsimp only
    split
    case isTrue early =>
      rw [Option.toList_none, List.map_nil, List.append_nil]
      have part : (run.out ++ run.chunker.pending.drop stereoFrame).Sublist
          (run.out ++ run.chunker.pending) := (List.Sublist.refl _).append (List.drop_sublist ..)
      exact ⟨even, nofun, sound.ordered.sublist part, sound.among.sublist part,
        fun _ isStart => Option.some.inj isStart ▸ later, sound.framesInTime, sound.framesWhole,
        fun _ isStart => Option.some.inj isStart ▸ next, sound.increasing⟩
    case isFalse onTime =>
      let taken : Taken :=
        ⟨start, FrameLimiter.stamp start, run.chunker.pending.take stereoFrame⟩
      show Sound { run with
        chunker := ⟨run.chunker.pending.drop stereoFrame, some (start + audioFrame)⟩
        frames := run.frames ++ [taken] }
      have out : (run.frames ++ [taken]).flatMap Taken.samples ++
          run.chunker.pending.drop stereoFrame = run.out ++ run.chunker.pending := by
        rw [List.flatMap_append, List.flatMap_singleton, List.append_assoc,
          List.take_append_drop]
        rfl
      refine ⟨even, nofun, out ▸ sound.ordered, out ▸ sound.among,
        fun _ isStart => Option.some.inj isStart ▸ later, ?_, ?_, ?_, ?_⟩
      · exact List.forall_mem_append.mpr ⟨sound.framesInTime,
          List.forall_mem_singleton.mpr (inTime.take stereoFrame)⟩
      · exact List.forall_mem_append.mpr ⟨sound.framesWhole,
          List.forall_mem_singleton.mpr ⟨List.length_take_of_le enough, rfl⟩⟩
      · rintro _ ⟨⟩
        refine List.forall_mem_append.mpr ⟨next, List.forall_mem_singleton.mpr ⟨⟨1, ?_⟩, ?_⟩⟩
        · dsimp only [taken]
          ring
        · dsimp only [taken]
          unfold audioFrame
          omega
      · refine List.pairwise_append.mpr ⟨sound.increasing, List.pairwise_singleton .., ?_⟩
        intro frame member last isLast
        rw [List.mem_singleton.mp isLast]
        exact onGrid frame member

theorem chunker_sound (calls : List Call) : Sound (run step {} calls) := by
  refine run_invariant step Sound start_sound (fun run call sound => ?_) calls
  cases call with
  | push ticks count => exact sound.push ticks count
  | take => exact sound.take

theorem Ordered.nodup {samples : List Tagged} (ordered : Ordered samples) :
    (captured samples).Nodup := by
  refine List.Pairwise.imp (fun before => ?_) ordered
  rintro rfl
  rcases before with less | ⟨_, less⟩ <;> exact Nat.lt_irrefl _ less

/-- Whatever is pushed and however it is taken: the frames lie on one grid and each after the
last, captured samples come out once and in order, and each within half a frame of its time. -/
theorem run_keepsTime (calls : List Call) :
    (run step {} calls).frames.Pairwise (fun first second =>
      (audioFrame : Int) ∣ second.start - first.start ∧ first.start < second.start) ∧
    Ordered (run step {} calls).out ∧ (captured (run step {} calls).out).Nodup ∧
    ∀ frame ∈ (run step {} calls).frames, frame.samples.length = stereoFrame ∧
      frame.timestamp = FrameLimiter.stamp frame.start ∧
      InTime (run step {} calls).buffers frame.start frame.samples := by
  have sound := chunker_sound calls
  have ordered := sound.ordered.sublist (List.sublist_append_left ..)
  exact ⟨sound.increasing, ordered, ordered.nodup,
    fun frame member => ⟨(sound.framesWhole frame member).1, (sound.framesWhole frame member).2,
      sound.framesInTime frame member⟩⟩

end Chunking

end Throcc
