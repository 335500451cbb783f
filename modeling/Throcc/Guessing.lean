/-
This file proves how long a user who guesses a room's password wrong has to
wait. The wait depends on nothing but their own wrong guesses at that room, and
only a right guess or a long pause ends it. So in any number of hours they guess
wrong little more often than once an hour.
-/

import Throcc.Limits
import Throcc.Run
import Mathlib.Data.List.Chain
import Mathlib.Tactic.IntervalCases

namespace Throcc

/-! ### Waits -/

def hour : Duration := fromSecs (60 * 60)

/-- How long a user waits after this many wrong guesses: the first wait doubled with each guess
past the free ones, up to the longest. -/
def delay (count : Nat) : Duration :=
  if count < freeFailures then 0 else min (firstWait * 2 ^ (count - freeFailures)) longestWait

theorem nextTry_eq (failures : Failures) : failures.nextTry = failures.last + delay failures.count := by
  unfold Failures.nextTry delay
  split
  · rfl
  · congr 1
    by_cases few : failures.count - freeFailures ≤ 16
    · rw [min_eq_left few]
    · -- Past sixteen doublings the wait is the longest anyway.
      have more : 16 ≤ failures.count - freeFailures := (not_le.mp few).le
      have long : longestWait ≤ firstWait * 2 ^ 16 := by decide
      rw [min_eq_right more, min_eq_right long, min_eq_right]
      exact long.trans (Nat.mul_le_mul_left _ (Nat.pow_le_pow_right (by decide) more))

theorem delay_mono {count other : Nat} (le : count ≤ other) : delay count ≤ delay other := by
  unfold delay
  by_cases free : count < freeFailures
  · rw [if_pos free]
    exact Nat.zero_le _
  · rw [if_neg free, if_neg (not_lt.mpr ((not_lt.mp free).trans le))]
    refine min_le_min_right _ (Nat.mul_le_mul_left _ (Nat.pow_le_pow_right (by decide) ?_))
    exact Nat.sub_le_sub_right le _

theorem delay_le_hour (count : Nat) : delay count ≤ hour := by
  unfold delay
  split
  · exact Nat.zero_le _
  · exact min_le_right _ _

/-- The time that this many wrong guesses in a row save over one an hour. -/
def excess : Nat → Duration
  | 0 => 0
  | count + 1 => excess count + (hour - delay count)

theorem delay_of_many {count : Nat} (many : 14 ≤ count) : delay count = hour := by
  refine le_antisymm (delay_le_hour count) ?_
  have longest : delay 14 = hour := by decide
  rw [← longest]
  exact delay_mono many

theorem excess_mono {count other : Nat} (le : count ≤ other) : excess count ≤ excess other :=
  monotone_nat_of_le_succ (fun _ => Nat.le_add_right _ _) le

theorem excess_le (count : Nat) : excess count ≤ 13 * hour := by
  have few : excess 14 ≤ 13 * hour := by decide
  rcases Nat.le_total count 14 with less | more
  · exact (excess_mono less).trans few
  · refine (Nat.le_induction ?_ ?_ count more)
    · exact few
    · intro next many le
      rw [excess, delay_of_many many, Nat.sub_self, Nat.add_zero]
      exact le

/-! ### What is remembered of a user at a room -/

namespace Guesses

variable (guesses : Guesses)

def entry (user : UserId) (room : RoomId) : Option Failures := guesses.users.lookup (user, room)

/-- What a failed guess at some time may forget. -/
def Forgets (now : Instant) (before after : Option Failures) : Prop :=
  after = before ∨
    after = none ∧ ∀ failures, before = some failures → failureMemory ≤ now - failures.last

theorem entry_check (user other : UserId) (room room' : RoomId) (now : Instant) :
    (guesses.check user room now).2.entry other room' = guesses.entry other room' := by
  unfold check
  split
  · rfl
  · split <;> rfl

theorem check_of_none {user : UserId} {room : RoomId} (none_ : guesses.entry user room = none)
    (now : Instant) : (guesses.check user room now).1 = .ok () := by
  unfold entry at none_
  unfold check
  rw [none_]

/-- A user is refused for their own guesses exactly until their next try. -/
theorem check_of_some {user : UserId} {room : RoomId} {failures : Failures}
    (found : guesses.entry user room = some failures) (now : Instant) :
    (now < failures.nextTry →
      (guesses.check user room now).1 = .error (.user (failures.nextTry - now))) ∧
    (failures.nextTry ≤ now →
      (guesses.check user room now).1 = .ok () ∨ (guesses.check user room now).1 = .error .room) := by
  unfold entry at found
  unfold check
  rw [found]
  dsimp only
  constructor
  · intro early
    rw [if_pos early]
  · intro late
    rw [if_neg (not_lt.mpr late)]
    split
    · exact .inl rfl
    · exact .inr rfl

theorem entry_succeeded (user other : UserId) (room room' : RoomId) :
    (guesses.succeeded user room).entry other room' =
      if (other, room') = (user, room) then none else guesses.entry other room' :=
  Map.lookup_erase_ite guesses.users (user, room) (other, room')

theorem entry_failed (user other : UserId) (room room' : RoomId) (now : Instant) :
    ∃ kept, Forgets now (guesses.entry other room') kept ∧
      (guesses.failed user room now).entry other room' =
        if (other, room') = (user, room) then some ⟨(kept.map (·.count)).getD 0 + 1, now⟩
        else kept := by
  let swept : Guesses :=
    if guesses.nextSweep.all (· ≤ now) then
      { guesses with
        users := guesses.users.retain fun _ failures => now - failures.last < failureMemory
        nextSweep := some (now + failureSweep) }
    else
      guesses
  refine ⟨swept.entry other room', ?_, ?_⟩
  · dsimp only [swept]
    split
    · unfold entry
      dsimp only
      rw [Map.lookup_retain]
      cases found : guesses.users.lookup (other, room') with
      | none => exact .inl rfl
      | some failures =>
        by_cases fresh : now - failures.last < failureMemory
        · exact .inl (by simp [fresh])
        · refine .inr ⟨by simpa using fresh, fun _ same => ?_⟩
          obtain rfl := Option.some.inj same
          exact not_lt.mp fresh
    · exact .inl rfl
  · have failed : (guesses.failed user room now).users = swept.users.insert (user, room)
        ⟨((swept.users.lookup (user, room)).map (·.count)).getD 0 + 1, now⟩ := rfl
    unfold entry
    rw [failed, Map.lookup_insert_ite]
    split
    · rename_i same
      rw [same]
    · rfl

end Guesses

/-! ### Runs -/

/-- The guesses at room passwords, with the room whose password each user is guessing. -/
structure Guessing where
  guesses : Guesses := {}
  flights : UserId → Option RoomId := fun _ => none
  now : Instant := 0

namespace Guessing

inductive Input where
  | check (user : UserId) (room : RoomId) (now : Instant)
  | failed (user : UserId) (room : RoomId) (now : Instant)
  | succeeded (user : UserId) (room : RoomId)
  /-- A guess that comes to nothing, as the user has left meanwhile. -/
  | dropped (user : UserId)
deriving DecidableEq, Repr

def step (guessing : Guessing) : Input → Guessing
  | .check user room now =>
    let (checked, guesses) := guessing.guesses.check user room now
    { guesses
      flights :=
        if checked.isOk then Function.update guessing.flights user (some room)
        else guessing.flights
      now }
  | .failed user room now =>
    { guesses := guessing.guesses.failed user room now
      flights := Function.update guessing.flights user none
      now }
  | .succeeded user room =>
    { guessing with
      guesses := guessing.guesses.succeeded user room
      flights := Function.update guessing.flights user none }
  | .dropped user => { guessing with flights := Function.update guessing.flights user none }

/-- Time does not go back, and at most one guess of a user is in flight. -/
def OneInFlight (guessing : Guessing) : Input → Prop
  | .check user _ now => guessing.now ≤ now ∧ guessing.flights user = none
  | .failed user room now => guessing.now ≤ now ∧ guessing.flights user = some room
  | .succeeded user room => guessing.flights user = some room
  | .dropped _ => True

instance OneInFlight.decidable (guessing : Guessing) :
    ∀ input, Decidable (guessing.OneInFlight input)
  | .check _ _ _ => inferInstanceAs (Decidable (_ ∧ _))
  | .failed _ _ _ => inferInstanceAs (Decidable (_ ∧ _))
  | .succeeded user room => inferInstanceAs (Decidable (guessing.flights user = some room))
  | .dropped _ => inferInstanceAs (Decidable True)

/-- The times of a user's wrong guesses at a room. -/
def wrongTimes (user : UserId) (room : RoomId) (inputs : List Input) : List Instant :=
  inputs.filterMap fun
    | .failed other room' now => if (user, room) = (other, room') then some now else none
    | _ => none

/-- No pause between wrong guesses is long enough for them to be forgotten. -/
def Steady (times : List Instant) : Prop :=
  times.IsChain fun time next => next - time < failureMemory

instance Steady.decidable (times : List Instant) : Decidable (Steady times) :=
  inferInstanceAs (Decidable (times.IsChain fun time next => next - time < failureMemory))

variable {guessing : Guessing} {user : UserId} {room : RoomId}

theorem wrongTimes_failed (user : UserId) (room : RoomId) (now : Instant) :
    wrongTimes user room [.failed user room now] = [now] := by
  simp [wrongTimes]

/-- A wrong guess is no longer in flight. -/
theorem flights_failed (guessing : Guessing) (user : UserId) (room : RoomId) (now : Instant) :
    (guessing.step (.failed user room now)).flights user ≠ some room := by
  unfold step
  dsimp only
  rw [Function.update_self]
  nofun

/-- What a step makes of what is remembered of a user at a room. -/
inductive Remembers (user : UserId) (room : RoomId) (before : Option Failures) :
    Input → Option Failures → Prop where
  | same (input : Input) (other : wrongTimes user room [input] = [])
    (guessed : input ≠ .succeeded user room) : Remembers user room before input before
  | forgotten (input : Input) (other : wrongTimes user room [input] = []) (now : Instant)
    (old : ∀ failures, before = some failures → failureMemory ≤ now - failures.last)
    (guessed : ∃ user room, input = .failed user room now) : Remembers user room before input none
  | wrong (now : Instant) (kept : Option Failures) (forgets : Guesses.Forgets now before kept) :
    Remembers user room before (.failed user room now)
      (some ⟨(kept.map (·.count)).getD 0 + 1, now⟩)
  | right : Remembers user room before (.succeeded user room) none

theorem step_remembers (guessing : Guessing) (input : Input) :
    Remembers user room (guessing.guesses.entry user room) input
      ((guessing.step input).guesses.entry user room) := by
  cases input with
  | check other room' now =>
    have same := guessing.guesses.entry_check other user room' room now
    unfold step
    dsimp only
    rw [same]
    exact .same _ rfl nofun
  | failed other room' now =>
    obtain ⟨kept, forgets, same⟩ := guessing.guesses.entry_failed other user room' room now
    unfold step
    dsimp only
    rw [same]
    split
    · rename_i mine
      obtain ⟨rfl, rfl⟩ := Prod.mk.inj mine
      exact .wrong now kept forgets
    · rename_i others
      have none_ : wrongTimes user room [.failed other room' now] = [] := by
        simp only [wrongTimes, List.filterMap_cons, if_neg others, List.filterMap_nil]
      obtain rfl | ⟨rfl, old⟩ := forgets
      · exact .same _ none_ nofun
      · exact .forgotten _ none_ now old ⟨other, room', rfl⟩
  | succeeded other room' =>
    have same := guessing.guesses.entry_succeeded other user room' room
    unfold step
    dsimp only
    rw [same]
    split
    · rename_i mine
      obtain ⟨rfl, rfl⟩ := Prod.mk.inj mine
      exact .right
    · rename_i others
      refine .same _ rfl fun mine => others ?_
      obtain ⟨rfl, rfl⟩ := Input.succeeded.inj mine
      rfl
  | dropped other => exact .same _ rfl nofun

theorem now_le_step {input : Input} (ordered : guessing.OneInFlight input) :
    guessing.now ≤ (guessing.step input).now := by
  cases input with
  | check user room now => exact ordered.1
  | failed user room now => exact ordered.1
  | succeeded user room => exact Nat.le_refl _
  | dropped user => exact Nat.le_refl _

theorem wrongTimes_append (user : UserId) (room : RoomId) (first second : List Input) :
    wrongTimes user room (first ++ second) =
      wrongTimes user room first ++ wrongTimes user room second :=
  List.filterMap_append

/-- Without a wrong guess nothing comes to be remembered. -/
theorem entry_of_none {inputs : List Input} (along : Along step OneInFlight guessing inputs)
    (none_ : guessing.guesses.entry user room = none)
    (right : wrongTimes user room inputs = []) :
    (run step guessing inputs).guesses.entry user room = none := by
  induction inputs generalizing guessing with
  | nil => exact none_
  | cons input inputs inductionHypothesis =>
    rw [← List.singleton_append, wrongTimes_append, List.append_eq_nil_iff] at right
    refine inductionHypothesis along.2 ?_ right.2
    have remembers : Remembers user room _ input _ := step_remembers guessing input
    generalize (step guessing input).guesses.entry user room = after at remembers ⊢
    cases remembers with
    | same => exact none_
    | forgotten => rfl
    | wrong now =>
      simp [wrongTimes] at right
    | right => rfl

/-- Where the wrong guesses pause for too short to be forgotten, all of them are remembered. -/
theorem entry_after {inputs : List Input} (along : Along step OneInFlight guessing inputs)
    (guessed : Input.succeeded user room ∉ inputs)
    (steady : Steady (wrongTimes user room inputs)) {last : Instant}
    (latest : (wrongTimes user room inputs).getLast? = some last)
    (recent : (run step guessing inputs).now - last < failureMemory) :
    ∃ count, (run step guessing inputs).guesses.entry user room = some ⟨count, last⟩ ∧
      (wrongTimes user room inputs).length ≤ count ∧
      (guessing.guesses.entry user room = none →
        count = (wrongTimes user room inputs).length) := by
  induction inputs using List.reverseRecOn generalizing last with
  | nil => cases latest
  | append_singleton inputs input inductionHypothesis =>
    obtain ⟨earlier, ordered, _⟩ := Along.append.mp along
    rw [List.mem_append, not_or, List.mem_singleton] at guessed
    have later := now_le_step ordered
    have remembers : Remembers user room _ input _ :=
      step_remembers (run step guessing inputs) input
    rw [run_concat] at recent ⊢
    rw [wrongTimes_append] at steady latest ⊢
    generalize (step (run step guessing inputs) input).guesses.entry user room = after at remembers ⊢
    -- A guess of someone else leaves everything as it was, and too little time has passed to forget.
    have kept : wrongTimes user room [input] = [] →
        ∃ count, (run step guessing inputs).guesses.entry user room = some ⟨count, last⟩ ∧
          (wrongTimes user room inputs).length ≤ count ∧
          (guessing.guesses.entry user room = none →
            count = (wrongTimes user room inputs).length) := by
      intro other
      rw [other, List.append_nil] at steady latest
      exact inductionHypothesis earlier guessed.1 steady latest
        ((Nat.sub_le_sub_right later last).trans_lt recent)
    cases remembers with
    | same _ other _ =>
      rw [other, List.append_nil]
      exact kept other
    | forgotten _ other now old isGuess =>
      obtain ⟨count, found, _⟩ := kept other
      obtain ⟨_, _, rfl⟩ := isGuess
      exact absurd recent (not_lt.mpr (old _ found))
    | wrong now before forgets =>
      rw [wrongTimes_failed] at steady latest ⊢
      rw [List.getLast?_concat] at latest
      obtain rfl := Option.some.inj latest
      refine ⟨_, rfl, ?_⟩
      rw [List.length_append, List.length_singleton]
      rcases List.eq_nil_or_concat (wrongTimes user room inputs) with none_ | ⟨first, time, some_⟩
      · rw [none_]
        refine ⟨Nat.le_add_left _ _, fun unknown => ?_⟩
        have unknown := entry_of_none earlier unknown none_
        obtain rfl | ⟨rfl, _⟩ := forgets
        · rw [unknown]
          rfl
        · rfl
      · rw [List.concat_eq_append] at some_
        rw [some_] at steady inductionHypothesis ⊢
        rw [Steady, List.isChain_append] at steady
        have close : now - time < failureMemory :=
          steady.2.2 time List.getLast?_concat now rfl
        obtain ⟨count, found, more, exact_⟩ :=
          inductionHypothesis earlier guessed.1 steady.1
          List.getLast?_concat ((Nat.sub_le_sub_right ordered.1 time).trans_lt close)
        obtain rfl | ⟨_, old⟩ := forgets
        · rw [found]
          exact ⟨Nat.add_le_add_right more 1, fun unknown => congrArg (· + 1) (exact_ unknown)⟩
        · exact absurd close (not_lt.mpr (old _ found))
    | right => exact absurd rfl guessed.2

/-! ### The pace of wrong guesses -/

/-- A guess that is in flight waited for its turn. -/
theorem waited_of_flight {input : Input} {failures : Failures}
    (found : guessing.guesses.entry user room = some failures)
    (flies : (step guessing input).flights user = some room) :
    guessing.flights user = some room ∨
      failures.last + delay failures.count ≤ (step guessing input).now := by
  unfold step at flies ⊢
  cases input with
  | check other room' now =>
    dsimp only at flies ⊢
    by_cases accepted : (guessing.guesses.check other room' now).1.isOk = true
    · rw [if_pos accepted, Function.update_apply] at flies
      split at flies
      · rename_i same
        subst same
        obtain rfl := Option.some.inj flies
        rw [← nextTry_eq]
        by_contra early
        rw [not_or, not_le] at early
        rw [(guessing.guesses.check_of_some found now).1 early.2] at accepted
        cases accepted
      · exact .inl flies
    · rw [if_neg accepted] at flies
      exact .inl flies
  | failed other room' now =>
    dsimp only at flies
    rw [Function.update_apply] at flies
    split at flies
    · cases flies
    · exact .inl flies
  | succeeded other room' =>
    dsimp only at flies
    rw [Function.update_apply] at flies
    split at flies
    · cases flies
    · exact .inl flies
  | dropped other =>
    dsimp only at flies
    rw [Function.update_apply] at flies
    split at flies
    · cases flies
    · exact .inl flies

/-- This many wrong guesses between two times were paced by the waits between them. -/
def Paced (user : UserId) (room : RoomId) (since til : Instant) (guesses : Nat)
    (guessing : Guessing) : Prop :=
  ∃ count last, guesses * hour ≤ excess count + (last - since) ∧ since ≤ last ∧ last ≤ til ∧
    last ≤ guessing.now ∧
    ((∃ failures, guessing.guesses.entry user room = some failures ∧ failures.last = last ∧
        count ≤ failures.count ∧
        (guessing.flights user = some room → last + delay failures.count ≤ guessing.now)) ∨
      guessing.guesses.entry user room = none ∧ last + failureMemory ≤ guessing.now)

theorem add_elapsed {since last pause now : Nat} (started : since ≤ last)
    (waits : last + pause ≤ now) : last - since + pause ≤ now - since := by
  omega

theorem paced_next {guesses count : Nat} {since last now : Instant}
    (paced : guesses * hour ≤ excess count + (last - since)) (started : since ≤ last)
    (waits : last + delay count ≤ now) :
    (guesses + 1) * hour ≤ excess (count + 1) + (now - since) := by
  have saved : hour - delay count + delay count = hour := Nat.sub_add_cancel (delay_le_hour count)
  rw [excess, Nat.add_mul, Nat.one_mul]
  calc guesses * hour + hour ≤ excess count + (last - since) + hour :=
        Nat.add_le_add_right paced hour
    _ = excess count + (hour - delay count) + (last - since + delay count) := by
        nth_rewrite 1 [← saved]
        exact Nat.add_add_add_comm _ _ _ _
    _ ≤ excess count + (hour - delay count) + (now - since) :=
        Nat.add_le_add_left (add_elapsed started waits) _

/-- A pause that is long enough to forget guesses makes up for all they were early. -/
theorem paced_again {guesses count : Nat} {since last now : Instant}
    (paced : guesses * hour ≤ excess count + (last - since)) (started : since ≤ last)
    (waits : last + failureMemory ≤ now) : (guesses + 1) * hour ≤ excess 1 + (now - since) := by
  have early : excess count ≤ failureMemory := (excess_le count).trans (by decide)
  have one : excess 1 = hour := rfl
  rw [one, Nat.add_mul, Nat.one_mul, Nat.add_comm]
  refine Nat.add_le_add_left (paced.trans ?_) hour
  rw [Nat.add_comm]
  exact (Nat.add_le_add_left early _).trans (add_elapsed started waits)

theorem Paced.step {since til : Instant} {guesses : Nat}
    (paced : Paced user room since til guesses guessing) {input : Input}
    (ordered : guessing.OneInFlight input) (guessed : input ≠ .succeeded user room)
    (within : ∀ time ∈ wrongTimes user room [input], time ≤ til) :
    Paced user room since til (guesses + (wrongTimes user room [input]).length)
      (guessing.step input) := by
  obtain ⟨count, last, most, started, ended, past, known⟩ := paced
  have later := now_le_step ordered
  have remembers : Remembers user room _ input _ := step_remembers guessing input
  generalize kept : (Guessing.step guessing input).guesses.entry user room = after at remembers
  cases remembers with
  | same _ other _ =>
    rw [other]
    refine ⟨count, last, most, started, ended, past.trans later, ?_⟩
    rw [kept]
    rcases known with ⟨failures, found, rfl, counted, waited⟩ | ⟨none_, rested⟩
    · refine .inl ⟨failures, found, rfl, counted, fun flies => ?_⟩
      rcases waited_of_flight found flies with already | waits
      · exact (waited already).trans later
      · exact waits
    · exact .inr ⟨none_, rested.trans later⟩
  | forgotten _ other now old isGuess =>
    rw [other]
    refine ⟨count, last, most, started, ended, past.trans later, .inr ⟨kept, ?_⟩⟩
    obtain ⟨_, _, rfl⟩ := isGuess
    rcases known with ⟨failures, found, rfl, _, _⟩ | ⟨_, rested⟩
    · exact (Nat.le_sub_iff_add_le' (past.trans ordered.1)).mp (old _ found)
    · exact rested.trans later
  | wrong now before forgets =>
    rw [wrongTimes_failed] at within ⊢
    rw [List.length_singleton]
    have ends := within now (List.mem_singleton_self now)
    have landed := guessing.flights_failed user room now
    -- Either the wait was over, or everything was forgotten, now or before.
    have either : (∃ failures, before = some failures ∧ count ≤ failures.count ∧
        last + delay failures.count ≤ now) ∨ before = none ∧ last + failureMemory ≤ now := by
      rcases known with ⟨failures, found, rfl, counted, waited⟩ | ⟨none_, rested⟩
      · obtain rfl | ⟨rfl, old⟩ := forgets
        · exact .inl ⟨failures, found, counted, (waited ordered.2).trans ordered.1⟩
        · exact .inr ⟨rfl, (Nat.le_sub_iff_add_le' (past.trans ordered.1)).mp (old _ found)⟩
      · obtain rfl | ⟨rfl, _⟩ := forgets
        · exact .inr ⟨none_, rested.trans ordered.1⟩
        · exact .inr ⟨rfl, rested.trans ordered.1⟩
    rcases either with ⟨failures, rfl, counted, waits⟩ | ⟨rfl, rested⟩
    · have most : guesses * hour ≤ excess failures.count + (last - since) :=
        most.trans (Nat.add_le_add_right (excess_mono counted) _)
      exact ⟨failures.count + 1, now, paced_next most started waits,
        started.trans (past.trans ordered.1), ends, Nat.le_refl now,
        .inl ⟨_, kept, rfl, Nat.le_refl _, fun flies => absurd flies landed⟩⟩
    · exact ⟨1, now, paced_again most started rested, started.trans (past.trans ordered.1),
        ends, Nat.le_refl now, .inl ⟨_, kept, rfl, Nat.le_refl _, fun flies => absurd flies landed⟩⟩
  | right => exact absurd rfl guessed

theorem paced_run {inputs : List Input} (along : Along step OneInFlight guessing inputs)
    (guessed : Input.succeeded user room ∉ inputs) {since til : Instant}
    (within : ∀ time ∈ wrongTimes user room inputs, since ≤ time ∧ time ≤ til) :
    wrongTimes user room inputs = [] ∨
      Paced user room since til (wrongTimes user room inputs).length (run step guessing inputs) := by
  induction inputs using List.reverseRecOn with
  | nil => exact .inl rfl
  | append_singleton inputs input inductionHypothesis =>
    obtain ⟨earlier, ordered, _⟩ := Along.append.mp along
    rw [List.mem_append, not_or, List.mem_singleton] at guessed
    rw [wrongTimes_append, List.forall_mem_append] at within
    rw [wrongTimes_append, List.length_append, run_concat]
    rcases inductionHypothesis earlier guessed.1 within.1 with none_ | paced
    · have remembers : Remembers user room _ input _ :=
        step_remembers (run step guessing inputs) input
      rw [none_, List.nil_append, List.length_nil, Nat.zero_add]
      generalize kept : (step (run step guessing inputs) input).guesses.entry user room = after
        at remembers
      cases remembers with
      | same _ other _ => exact .inl other
      | forgotten _ other _ _ _ => exact .inl other
      | wrong now before _ =>
        -- The first wrong guess may come right at the start.
        rw [wrongTimes_failed] at within ⊢
        have landed := (run step guessing inputs).flights_failed user room now
        have first : 1 * hour ≤ excess 1 + (now - since) := by
          rw [Nat.one_mul]
          exact Nat.le_add_right _ _
        obtain ⟨begins, ends⟩ := within.2 now (List.mem_singleton_self now)
        exact .inr ⟨1, now, first, begins, ends, Nat.le_refl now,
          .inl ⟨_, kept, rfl, Nat.le_add_left _ _, fun flies => absurd flies landed⟩⟩
      | right => exact absurd rfl guessed.2
    · exact .inr (paced.step ordered (Ne.symm guessed.2) fun time isTime =>
        (within.2 time isTime).2)

/-- What others guess changes nothing of what is remembered of a user at a room. -/
theorem entry_of_others {inputs : List Input} (along : Along step OneInFlight guessing inputs)
    (guessed : Input.succeeded user room ∉ inputs) (right : wrongTimes user room inputs = [])
    {failures : Failures} (found : guessing.guesses.entry user room = some failures) :
    (run step guessing inputs).guesses.entry user room = some failures ∨
      (run step guessing inputs).guesses.entry user room = none ∧
        failureMemory ≤ (run step guessing inputs).now - failures.last := by
  induction inputs using List.reverseRecOn with
  | nil => exact .inl found
  | append_singleton inputs input inductionHypothesis =>
    obtain ⟨earlier, ordered, _⟩ := Along.append.mp along
    rw [List.mem_append, not_or, List.mem_singleton] at guessed
    rw [wrongTimes_append, List.append_eq_nil_iff] at right
    have later := Nat.sub_le_sub_right (now_le_step ordered) failures.last
    have remembers : Remembers user room _ input _ :=
      step_remembers (run step guessing inputs) input
    rw [run_concat]
    generalize (step (run step guessing inputs) input).guesses.entry user room = after
      at remembers ⊢
    have kept := inductionHypothesis earlier guessed.1 right.1
    cases remembers with
    | same => exact kept.imp id (And.imp id later.trans')
    | forgotten _ _ now old isGuess =>
      obtain ⟨_, _, rfl⟩ := isGuess
      refine .inr ⟨rfl, ?_⟩
      rcases kept with same | ⟨_, rested⟩
      · exact old _ same
      · exact rested.trans later
    | wrong now =>
      rw [wrongTimes_failed] at right
      cases right.2
    | right => exact absurd rfl guessed.2

/-- After some wrong guesses in a row at a room, a user is refused there for as long as the number
of these guesses says, whatever others guess. Only a right guess or a long pause makes up for wrong
guesses, so a user has little more than one an hour. Who guessed nothing wrong is not refused. -/
theorem run_backs_off {before streak : List Input}
    (along : Along step OneInFlight {} (before ++ streak)) (user : UserId) (room : RoomId)
    (guessed : .succeeded user room ∉ streak) :
    (∀ last, Steady (wrongTimes user room streak) →
      (wrongTimes user room streak).getLast? = some last →
      ∀ now, (run step {} (before ++ streak)).now ≤ now →
        now < last + delay (wrongTimes user room streak).length →
        ∃ wait,
          ((run step {} (before ++ streak)).guesses.check user room now).1 =
            .error (.user wait) ∧
          last + delay (wrongTimes user room streak).length ≤ now + wait) ∧
    (∀ last, (run step {} before).guesses.entry user room = none →
      Steady (wrongTimes user room streak) →
      (wrongTimes user room streak).getLast? = some last →
      (run step {} (before ++ streak)).now - last < failureMemory → ∀ now,
        (now < last + delay (wrongTimes user room streak).length →
          ((run step {} (before ++ streak)).guesses.check user room now).1 =
            .error (.user (last + delay (wrongTimes user room streak).length - now))) ∧
        (last + delay (wrongTimes user room streak).length ≤ now → ∀ wait,
          ((run step {} (before ++ streak)).guesses.check user room now).1 ≠
            .error (.user wait))) ∧
    (∀ failures, (run step {} before).guesses.entry user room = some failures →
      wrongTimes user room streak = [] →
      (run step {} (before ++ streak)).guesses.entry user room = some failures ∨
        (run step {} (before ++ streak)).guesses.entry user room = none ∧
          failureMemory ≤ (run step {} (before ++ streak)).now - failures.last) ∧
    (∀ since til, (∀ time ∈ wrongTimes user room streak, since ≤ time ∧ time ≤ til) →
      (wrongTimes user room streak).length * hour ≤ 15 * hour + (til - since)) ∧
    ((run step {} before).guesses.entry user room = none → wrongTimes user room streak = [] →
      ∀ now, ((run step {} (before ++ streak)).guesses.check user room now).1 = .ok ()) := by
  rw [run_append]
  obtain ⟨_, along⟩ := Along.append.mp along
  generalize run step {} before = guessing at along ⊢
  refine ⟨fun last steady latest now later early => ?_,
    fun last unknown steady latest recent now => ?_,
    fun failures found right => entry_of_others along guessed right found,
    fun since til within => ?_,
    fun unknown right now => Guesses.check_of_none _ (entry_of_none along unknown right) now⟩
  · have recent : (run step guessing streak).now - last < failureMemory := by
      have most := (Nat.sub_le_sub_right later last).trans
        (Nat.sub_le_of_le_add (early.le.trans_eq (Nat.add_comm _ _)))
      exact (most.trans (delay_le_hour _)).trans_lt (by decide)
    obtain ⟨count, found, more, _⟩ := entry_after along guessed steady latest recent
    have more : last + delay (wrongTimes user room streak).length ≤ last + delay count :=
      Nat.add_le_add_left (delay_mono more) last
    have refused := (Guesses.check_of_some _ found now).1
    rw [nextTry_eq] at refused
    refine ⟨_, refused (early.trans_le more), more.trans ?_⟩
    exact Nat.le_add_of_sub_le (Nat.le_refl _) |>.trans_eq (Nat.add_comm _ _)
  · obtain ⟨count, found, _, exact_⟩ := entry_after along guessed steady latest recent
    obtain rfl := exact_ unknown
    obtain ⟨refused, accepted⟩ := Guesses.check_of_some _ found now
    rw [nextTry_eq] at refused accepted
    refine ⟨refused, fun late wait same => ?_⟩
    rcases accepted late with passed | full
    · rw [passed] at same
      cases same
    · rw [full] at same
      cases same
  · rcases paced_run along guessed within with none_ | ⟨count, last, most, _, ended, _⟩
    · rw [none_, List.length_nil, Nat.zero_mul]
      exact Nat.zero_le _
    · have saved : excess count ≤ 15 * hour := (excess_le count).trans (by decide)
      exact most.trans (Nat.add_le_add saved (Nat.sub_le_sub_right ended since))

/-- Five wrong guesses in a row, and in between one of someone else at another room. -/
def fiveWrong : List Input :=
  [.check 1 7 0, .failed 1 7 0, .check 1 7 0, .failed 1 7 0, .check 2 8 0, .check 1 7 0,
    .failed 1 7 0, .failed 2 8 0, .check 1 7 0, .failed 1 7 0, .check 1 7 0, .failed 1 7 0]

theorem run_backs_off_fiveWrong :
    ((run step {} fiveWrong).guesses.check 1 7 (fromSecs 9)).1 =
      .error (.user (fromSecs 1)) := by
  have along : Along step OneInFlight {} ([] ++ fiveWrong) := by
    decide +kernel
  have times : wrongTimes 1 7 fiveWrong = [0, 0, 0, 0, 0] := by decide
  obtain ⟨_, refused, _⟩ := run_backs_off along 1 7 (by decide)
  rw [times] at refused
  exact (refused 0 (by decide) (by decide) rfl (by decide +kernel) (fromSecs 9)).1 (by decide)

end Guessing

end Throcc
