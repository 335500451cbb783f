/-
This file embeds the limiter of a share's frame rate and bounds what it admits.

The limiter keeps when the next frame is due, as a timestamp of 32 bits that
wraps. Behind it stands a schedule in true time: every admitted frame moves it
at least one interval on, leaves it after the frame, and comes no more than a
quarter interval before it. A pause so long that the schedule's timestamp is
misread only ever moves the schedule further on.
-/

import Mathlib.Data.List.Infix
import Mathlib.Tactic.Ring

namespace Throcc

/-- `VIDEO_CLOCK_HZ`. -/
def videoClockHz : Nat := 90000

/-- Lets captured frames through at no more than the share's frame rate on average, judged by
their 90 kHz timestamps. -/
structure FrameLimiter where
  interval : Nat
  next : Option (BitVec 32)
deriving DecidableEq, Repr

namespace FrameLimiter

def new (fps : Nat) : FrameLimiter where
  interval := videoClockHz / max fps 1
  next := none

/-- Whether to keep a frame stamped `timestamp`. -/
def admits (limiter : FrameLimiter) (timestamp : BitVec 32) : Bool × FrameLimiter :=
  let afresh := timestamp + BitVec.ofNat 32 limiter.interval
  match limiter.next with
  | none => (true, { limiter with next := some afresh })
  | some next =>
    let interval : Int := limiter.interval
    -- read as a signed difference, so that it wraps
    let early := (next - timestamp).toInt
    if early > 2 * interval then (true, { limiter with next := some afresh })
    else if early > interval / 4 then (false, limiter)
    else if early > -interval then
      (true, { limiter with next := some (next + BitVec.ofNat 32 limiter.interval) })
    else (true, { limiter with next := some afresh })

/-- The timestamp of a true time. -/
def stamp (time : Int) : BitVec 32 := BitVec.ofInt 32 time

/-- The true times of the frames that are admitted. -/
def admitted (limiter : FrameLimiter) : List Int → List Int
  | [] => []
  | time :: rest =>
    let (keep, limiter) := limiter.admits (stamp time)
    if keep then time :: admitted limiter rest else admitted limiter rest

/-! ### Timestamps -/

theorem stamp_add (time : Int) (interval : Nat) :
    stamp time + BitVec.ofNat 32 interval = stamp (time + interval) := by
  rw [stamp, stamp, BitVec.ofInt_add, BitVec.ofInt_natCast]

theorem toInt_stamp_sub (due time : Int) :
    (stamp due - stamp time).toInt = (due - time).bmod (2 ^ 32) := by
  rw [BitVec.toInt_sub, stamp, stamp, BitVec.toInt_ofInt, BitVec.toInt_ofInt,
    Int.bmod_sub_bmod, Int.sub_bmod_bmod]

/-- What is read as the lead of the schedule over a time leads to the schedule's timestamp. -/
theorem stamp_add_lead (due time : Int) :
    stamp (time + (due - time).bmod (2 ^ 32)) = stamp due := by
  refine BitVec.eq_of_toInt_eq ?_
  rw [stamp, stamp, BitVec.toInt_ofInt, BitVec.toInt_ofInt, Int.add_bmod_bmod, add_sub_cancel]

/-- A schedule that is not far behind a time is read as it is. -/
theorem lead_eq {due time : Int} (ahead : due - time < 2 ^ 31) (behind : -2 ^ 31 ≤ due - time) :
    (due - time).bmod (2 ^ 32) = due - time :=
  Int.bmod_eq_of_le (by omega) (by omega)

/-! ### The schedule -/

/-- The next frame is due after the last admitted one, by at most 1¼ intervals. -/
structure Due (limiter : FrameLimiter) (last due : Int) : Prop where
  next : limiter.next = some (stamp due)
  after : last < due
  ahead : due ≤ last + limiter.interval + (limiter.interval : Int) / 4

/-- The interval of a limiter between one and 90000 frames a second. -/
def Ticks (limiter : FrameLimiter) : Prop := 0 < limiter.interval ∧ limiter.interval ≤ videoClockHz

theorem new_ticks {fps : Nat} (positive : 1 ≤ fps) (most : fps ≤ videoClockHz) :
    (new fps).Ticks := by
  unfold Ticks new
  rw [Nat.max_eq_left positive]
  exact ⟨Nat.div_pos most positive, Nat.div_le_self ..⟩

/-- A limiter that admitted nothing yet admits a frame and is due an interval after it. -/
theorem Ticks.of_interval {limiter after : FrameLimiter} (ticks : limiter.Ticks)
    (same : after.interval = limiter.interval) : after.Ticks := by
  unfold Ticks
  rwa [same]

theorem admits_first {limiter : FrameLimiter} (ticks : limiter.Ticks) (fresh : limiter.next = none)
    (time : Int) : ∃ after, limiter.admits (stamp time) = (true, after) ∧
      after.interval = limiter.interval ∧ after.Due time (time + limiter.interval) := by
  refine ⟨{ limiter with next := some (stamp (time + limiter.interval)) }, ?_, rfl, rfl, ?_, ?_⟩
  · rw [admits, fresh, stamp_add]
  · have := ticks.1
    omega
  · dsimp only
    omega

/-- A frame no earlier than the last admitted one is turned down, at most two intervals before
it is due and more than a quarter of one, or moves the schedule on by an interval at least. -/
theorem admits_spec {limiter : FrameLimiter} {last due time : Int} (ticks : limiter.Ticks)
    (schedule : limiter.Due last due) (later : last ≤ time) :
    limiter.admits (stamp time) = (false, limiter) ∧
        ((limiter.interval : Int) / 4 < due - time ∨ due + 2 ^ 31 ≤ time) ∨
      ∃ after due', limiter.admits (stamp time) = (true, after) ∧
        after.interval = limiter.interval ∧ after.Due time due' ∧ due + limiter.interval ≤ due' ∧
        due ≤ time + (limiter.interval : Int) / 4 ∧
        (due' = due + limiter.interval ∨ due' = time + limiter.interval ∨ due + 2 ^ 31 ≤ time) := by
  obtain ⟨next, after, ahead⟩ := schedule
  obtain ⟨positive, most⟩ := ticks
  unfold videoClockHz at most
  -- either the schedule's lead is read as it is, or the pause was too long for that
  have read : (due - time).bmod (2 ^ 32) = due - time ∨ due + 2 ^ 31 < time := by
    by_cases near : -2 ^ 31 ≤ due - time
    · exact .inl (lead_eq (by omega) near)
    · exact .inr (by omega)
  have moved := stamp_add_lead due time
  have fresh : ({ limiter with next := some (stamp (time + limiter.interval)) } : FrameLimiter).Due
      time (time + limiter.interval) := ⟨rfl, by omega, by dsimp only; omega⟩
  unfold admits
  rw [next]
  dsimp only
  rw [toInt_stamp_sub, stamp_add, stamp_add]
  generalize (due - time).bmod (2 ^ 32) = early at *
  by_cases far : early > 2 * limiter.interval
  · rw [if_pos far]
    exact .inr ⟨_, _, rfl, rfl, fresh, by omega, by omega, .inr (.inl rfl)⟩
  rw [if_neg far]
  by_cases soon : early > (limiter.interval : Int) / 4
  · rw [if_pos soon]
    exact .inl ⟨rfl, by omega⟩
  rw [if_neg soon]
  right
  by_cases late : early > -limiter.interval
  · rw [if_pos late]
    refine ⟨_, time + early + limiter.interval, rfl, rfl, ⟨?_, by omega, by dsimp only; omega⟩,
      by omega, by omega, by omega⟩
    dsimp only
    rw [← stamp_add, ← stamp_add, moved]
  · rw [if_neg late]
    exact ⟨_, _, rfl, rfl, fresh, by omega, by omega, .inr (.inl rfl)⟩

/-! ### What is admitted -/

/-- Frames that come no more than a quarter interval before they are due, each moving what is
due on by an interval at least, to after the frame. -/
def Paced (interval : Nat) : Int → List Int → Prop
  | _, [] => True
  | due, time :: rest => due ≤ time + (interval : Int) / 4 ∧
      ∃ due', time < due' ∧ due + interval ≤ due' ∧ Paced interval due' rest

theorem admitted_paced {limiter : FrameLimiter} {last due : Int} (ticks : limiter.Ticks)
    (schedule : limiter.Due last due) {times : List Int} (sorted : times.Pairwise (· ≤ ·))
    (later : ∀ time ∈ times, last ≤ time) :
    Paced limiter.interval due (admitted limiter times) := by
  induction times generalizing limiter last due with
  | nil => trivial
  | cons time rest inductionHypothesis =>
    obtain ⟨first, sorted⟩ := List.pairwise_cons.mp sorted
    obtain ⟨now, later⟩ := List.forall_mem_cons.mp later
    rcases admits_spec ticks schedule now with ⟨turned, _⟩ | ⟨after, due', kept, same, next, moved, early, _⟩
    · rw [admitted, turned]
      exact inductionHypothesis ticks schedule sorted later
    · rw [admitted, kept]
      refine ⟨early, due', next.after, moved, ?_⟩
      exact same ▸ inductionHypothesis (ticks.of_interval same) next sorted first

theorem Paced.infix {interval : Nat} {due : Int} {before stretch after : List Int}
    (paced : Paced interval due (before ++ stretch ++ after)) :
    ∃ due', Paced interval due' stretch := by
  induction before generalizing due with
  | nil =>
    refine ⟨due, ?_⟩
    rw [List.nil_append] at paced
    -- what follows the stretch does not matter
    induction stretch generalizing due with
    | nil => trivial
    | cons time rest inductionHypothesis =>
      obtain ⟨early, due', later, moved, paced⟩ := paced
      exact ⟨early, due', later, moved, inductionHypothesis paced⟩
  | cons time rest inductionHypothesis =>
    obtain ⟨_, due', _, _, paced⟩ := paced
    exact inductionHypothesis paced

/-- The last of paced frames comes no more than a quarter interval before the time due, moved
on by an interval for each frame ahead of it. -/
theorem Paced.le_last {interval : Nat} {due time last : Int} {rest : List Int}
    (paced : Paced interval due (time :: rest)) (isLast : (time :: rest).getLast? = some last) :
    due + rest.length * interval ≤ last + (interval : Int) / 4 := by
  induction rest generalizing due time with
  | nil =>
    obtain rfl : time = last := Option.some.inj isLast
    have early := paced.1
    rw [List.length_nil]
    omega
  | cons next rest inductionHypothesis =>
    obtain ⟨_, due', _, moved, paced⟩ := paced
    have bound := inductionHypothesis paced (List.getLast?_cons_cons ▸ isLast)
    rw [List.length_cons, Int.natCast_add, Int.natCast_one, Int.add_mul, Int.one_mul]
    omega

/-- A stretch of paced frames takes long enough. -/
theorem Paced.span {interval : Nat} {due first last : Int} {stretch : List Int}
    (positive : 0 < interval) (paced : Paced interval due stretch)
    (isFirst : stretch.head? = some first) (isLast : stretch.getLast? = some last) :
    ((stretch.length : Int) - 2) * interval - (interval : Int) / 4 < last - first := by
  cases stretch with
  | nil => cases isFirst
  | cons time rest =>
    obtain rfl : time = first := Option.some.inj isFirst
    obtain ⟨_, due', later, _, paced⟩ := paced
    cases rest with
    | nil =>
      obtain rfl : time = last := Option.some.inj isLast
      rw [List.length_singleton]
      omega
    | cons next rest =>
      have bound := paced.le_last (List.getLast?_cons_cons ▸ isLast)
      have count : ((time :: next :: rest).length : Int) - 2 = rest.length := by
        rw [List.length_cons, List.length_cons]
        omega
      rw [count]
      omega

/-- Any frames admitted one after the other, at times that never go back, span more than two
intervals less than they are many, but for a quarter interval. -/
theorem admitted_span {fps : Nat} (positive : 1 ≤ fps) (most : fps ≤ videoClockHz)
    {times : List Int} (sorted : times.Pairwise (· ≤ ·)) {stretch : List Int}
    (consecutive : stretch <:+: admitted (new fps) times) {first last : Int}
    (isFirst : stretch.head? = some first) (isLast : stretch.getLast? = some last) :
    ((stretch.length : Int) - 2) * (new fps).interval - ((new fps).interval : Int) / 4 <
      last - first := by
  have ticks := new_ticks positive most
  cases times with
  | nil =>
    cases List.eq_nil_of_infix_nil consecutive
    cases isFirst
  | cons time rest =>
    obtain ⟨later, sorted⟩ := List.pairwise_cons.mp sorted
    obtain ⟨after, kept, same, schedule⟩ := admits_first ticks rfl time
    replace consecutive : stretch <:+: time :: admitted after rest := by
      rw [admitted, kept] at consecutive
      exact consecutive
    have paced : Paced (new fps).interval time (time :: admitted after rest) :=
      ⟨by omega, _, schedule.after, le_rfl, same ▸ admitted_paced (ticks.of_interval same) schedule sorted later⟩
    obtain ⟨before, following, spelled⟩ := consecutive
    rw [← spelled] at paced
    obtain ⟨due, paced⟩ := paced.infix
    exact paced.span ticks.1 isFirst isLast

/-! ### What loses nothing -/

/-- The frames still to come, each no more than a quarter interval before the time due, moved
on by an interval for each frame ahead of it. -/
def Follows (interval : Nat) (due : Int) (times : List Int) : Prop :=
  ∀ (index : Nat) (time : Int), times[index]? = some time →
    due + index * interval ≤ time + (interval : Int) / 4

/-- Every two frames are as far apart as the intervals between them, but for a quarter one. -/
def Spaced (interval : Nat) (times : List Int) : Prop :=
  ∀ (earlier later : Nat) (first second : Int), times[earlier]? = some first →
    times[later]? = some second → earlier < later →
    ((later : Int) - earlier) * interval - (interval : Int) / 4 ≤ second - first

theorem Spaced.tail {interval : Nat} {time : Int} {rest : List Int}
    (spaced : Spaced interval (time :: rest)) : Spaced interval rest := by
  intro earlier later first second isFirst isSecond less
  have apart := spaced (earlier + 1) (later + 1) first second isFirst isSecond (by omega)
  rwa [Int.natCast_add, Int.natCast_add, add_sub_add_right_eq_sub] at apart

theorem Spaced.follows {interval : Nat} {time : Int} {rest : List Int}
    (spaced : Spaced interval (time :: rest)) : Follows interval (time + interval) rest := by
  intro index later found
  have apart := spaced 0 (index + 1) time later rfl found (Nat.succ_pos index)
  rw [Int.natCast_zero, sub_zero, Int.natCast_add, Int.natCast_one, Int.add_mul, Int.one_mul]
    at apart
  omega

theorem Spaced.forward {interval : Nat} {times : List Int} (spaced : Spaced interval times) :
    times.IsChain (· ≤ ·) := by
  induction times with
  | nil => exact .nil
  | cons time rest inductionHypothesis =>
    cases rest with
    | nil => exact .singleton time
    | cons next rest =>
      have apart := spaced 0 1 time next rfl rfl Nat.one_pos
      rw [Int.natCast_one, Int.natCast_zero, sub_zero, Int.one_mul] at apart
      exact .cons_cons (by omega) (inductionHypothesis spaced.tail)

/-- A source that keeps the rate has every frame admitted. -/
theorem admitted_eq {limiter : FrameLimiter} {last due : Int} (ticks : limiter.Ticks)
    (schedule : limiter.Due last due) {times : List Int} (follows : Follows limiter.interval due times)
    (spaced : Spaced limiter.interval times)
    (pauses : (last :: times).IsChain fun earlier later => later - earlier < 2 ^ 31)
    (forward : (last :: times).IsChain (· ≤ ·)) :
    admitted limiter times = times := by
  induction times generalizing limiter last due with
  | nil => rfl
  | cons time rest inductionHypothesis =>
    obtain ⟨short, pauses⟩ := List.isChain_cons_cons.mp pauses
    obtain ⟨later, forward⟩ := List.isChain_cons_cons.mp forward
    have early := follows 0 time rfl
    have after := schedule.after
    rw [Int.natCast_zero, Int.zero_mul] at early
    rcases admits_spec ticks schedule later with ⟨_, apart⟩ | ⟨next, due', kept, same, schedule', _, _, moved⟩
    · omega
    · have follows' : Follows limiter.interval due' rest := by
        rcases moved with rfl | rfl | far
        · intro index found isFound
          have bound := follows (index + 1) found isFound
          rw [Int.natCast_add, Int.natCast_one, Int.add_mul, Int.one_mul] at bound
          omega
        · exact spaced.follows
        · omega
      have others := inductionHypothesis (ticks.of_interval same) schedule' (same ▸ follows') (same ▸ spaced.tail)
        pauses forward
      rw [admitted, kept]
      exact congrArg (time :: ·) others

/-- The limiter's rate: frames it admits one after the other span more than two intervals less
than they are many, but for a quarter interval; and a source whose frames are that far apart,
without pauses of half the circle, loses none. -/
theorem admitted_rate (fps : Nat) (positive : 1 ≤ fps) (most : fps ≤ videoClockHz) :
    (∀ times : List Int, times.Pairwise (· ≤ ·) →
      ∀ stretch, stretch <:+: admitted (new fps) times → ∀ first last,
        stretch.head? = some first → stretch.getLast? = some last →
        ((stretch.length : Int) - 2) * (new fps).interval - ((new fps).interval : Int) / 4 <
          last - first) ∧
    ∀ times : List Int, Spaced (new fps).interval times →
      times.IsChain (fun earlier later => later - earlier < 2 ^ 31) →
        admitted (new fps) times = times := by
  refine ⟨fun times sorted stretch consecutive first last =>
    admitted_span positive most sorted consecutive, fun times spaced pauses => ?_⟩
  have ticks := new_ticks positive most
  cases times with
  | nil => rfl
  | cons time rest =>
    obtain ⟨after, kept, same, schedule⟩ := admits_first ticks rfl time
    have others := admitted_eq (ticks.of_interval same) schedule (same ▸ spaced.follows) (same ▸ spaced.tail) pauses
      spaced.forward
    rw [admitted, kept]
    exact congrArg (time :: ·) others

/-- At 60 frames a second, two frames a quarter interval early. -/
theorem spaced_sixty : Spaced (new 60).interval [0, 1125] := by
  intro earlier later first second isFirst isSecond less
  rcases earlier with _ | _ | earlier
  · rcases later with _ | _ | later
    · exact absurd less (Nat.lt_irrefl 0)
    · cases isFirst
      cases isSecond
      decide
    · cases isSecond
  · rcases later with _ | _ | later
    · cases less
    · exact absurd less (Nat.lt_irrefl 1)
    · cases isSecond
  · cases isFirst

theorem admitted_rate_sixty :
    admitted (new 60) [0, 1125] = [0, 1125] ∧ (2 - 2) * 1500 - 375 < (1125 : Int) - 0 :=
  have rate := admitted_rate 60 (by decide) (by decide)
  ⟨rate.2 _ spaced_sixty (by decide),
    rate.1 [0, 1125] (by decide) [0, 1125] (by decide) 0 1125 rfl rfl⟩

end FrameLimiter

end Throcc
