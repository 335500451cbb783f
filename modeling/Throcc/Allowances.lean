/-
This file proves that forgetting full token buckets changes nothing: buckets,
the allowances of audio tracks and those of new connections answer as if every
key had kept its bucket from the start. So a key never takes more in a stretch
of time than what its bucket holds and refills, and what is checked against two
buckets takes from both or from neither.
-/

import Throcc.Forgetting
import Throcc.Sources
import Mathlib.Algebra.Order.Field.Basic
import Mathlib.Tactic.Linarith
import Mathlib.Tactic.NormNum
import Mathlib.Tactic.Positivity
import Mathlib.Tactic.Ring

namespace Throcc

/-- A time in seconds. -/
def seconds (time : Nat) : ℚ := (time : ℚ) / 1000000000

namespace TokenBucket

/-! ### Refilling -/

@[simp] theorem refill_capacity (bucket : TokenBucket) (now : Instant) :
    (bucket.refill now).capacity = bucket.capacity := rfl

@[simp] theorem refill_perSecond (bucket : TokenBucket) (now : Instant) :
    (bucket.refill now).perSecond = bucket.perSecond := rfl

@[simp] theorem refill_updated (bucket : TokenBucket) (now : Instant) :
    (bucket.refill now).updated = now := rfl

theorem refill_tokens (bucket : TokenBucket) (now : Instant) :
    (bucket.refill now).tokens =
      min (bucket.tokens + seconds (now - bucket.updated) * bucket.perSecond) bucket.capacity := rfl

theorem seconds_nonneg (time : Nat) : 0 ≤ seconds time := by
  unfold seconds
  positivity

theorem seconds_add (first second : Nat) : seconds (first + second) = seconds first + seconds second := by
  unfold seconds
  push_cast
  ring

theorem seconds_sub_add {first second third : Nat} (le : first ≤ second) (le' : second ≤ third) :
    seconds (second - first) + seconds (third - second) = seconds (third - first) := by
  rw [← seconds_add]
  congr 1
  omega

/-- Refilling in two steps is refilling in one. -/
theorem refill_refill {bucket : TokenBucket} (refills : 0 ≤ bucket.perSecond) {now next : Instant}
    (known : bucket.updated ≤ now) (later : now ≤ next) :
    (bucket.refill now).refill next = bucket.refill next := by
  have more : 0 ≤ seconds (next - now) * bucket.perSecond :=
    mul_nonneg (seconds_nonneg _) refills
  have both := seconds_sub_add known later
  have tokens : ((bucket.refill now).refill next).tokens = (bucket.refill next).tokens := by
    rw [refill_tokens, refill_tokens, refill_tokens, refill_capacity, refill_perSecond,
      refill_updated, ← both, add_mul, ← add_assoc, ← min_add_add_right, min_assoc,
      min_eq_right (le_add_of_nonneg_right more)]
  unfold refill at tokens ⊢
  simp only [TokenBucket.mk.injEq, true_and, and_true]
  exact tokens

/-- Refilling again at the same time changes nothing. -/
theorem refill_self (bucket : TokenBucket) (now : Instant) :
    (bucket.refill now).refill now = bucket.refill now := by
  have tokens : ((bucket.refill now).refill now).tokens = (bucket.refill now).tokens := by
    rw [refill_tokens (bucket.refill now), refill_updated, Nat.sub_self, refill_capacity]
    have zero : seconds 0 = 0 := by norm_num [seconds]
    rw [zero, zero_mul, add_zero]
    exact min_eq_left (min_le_right _ _)
  unfold refill at tokens ⊢
  simp only [TokenBucket.mk.injEq, true_and, and_true]
  exact tokens

/-- From a time on, two buckets are the same once refilled. -/
structure Alike (capacity perSecond : ℚ) (now : Instant) (bucket other : TokenBucket) : Prop where
  size : bucket.capacity = capacity
  rate : bucket.perSecond = perSecond
  updated : bucket.updated ≤ now
  otherRate : other.perSecond = perSecond
  otherUpdated : other.updated ≤ now
  same : ∀ next, now ≤ next → bucket.refill next = other.refill next

variable {capacity perSecond : ℚ} {now next : Instant} {bucket other : TokenBucket}

theorem Alike.later (alike : Alike capacity perSecond now bucket other) (later : now ≤ next) :
    Alike capacity perSecond next bucket other where
  size := alike.size
  rate := alike.rate
  updated := alike.updated.trans later
  otherRate := alike.otherRate
  otherUpdated := alike.otherUpdated.trans later
  same _ after := alike.same _ (later.trans after)

theorem Alike.refill (refills : 0 ≤ perSecond)
    (alike : Alike capacity perSecond now bucket other) :
    Alike capacity perSecond now (bucket.refill now) other where
  size := alike.size
  rate := alike.rate
  updated := Nat.le_refl now
  otherRate := alike.otherRate
  otherUpdated := alike.otherUpdated
  same next later := by
    rw [refill_refill (alike.rate ▸ refills) alike.updated later]
    exact alike.same next later

/-- A bucket that is full is like a new one. -/
theorem Alike.of_full (refills : 0 ≤ perSecond)
    (alike : Alike capacity perSecond now bucket other) (later : now ≤ next)
    (full : (bucket.isFull now).1 = true) :
    Alike capacity perSecond next (.full capacity perSecond next) other where
  size := rfl
  rate := rfl
  updated := Nat.le_refl next
  otherRate := alike.otherRate
  otherUpdated := alike.otherUpdated.trans later
  same final after := by
    have full : bucket.capacity ≤ (bucket.refill now).tokens := of_decide_eq_true full
    have tokens : (bucket.refill now).tokens = capacity :=
      le_antisymm (alike.size ▸ min_le_right _ _) (alike.size ▸ full)
    have more : ∀ time, 0 ≤ seconds time * perSecond :=
      fun time => mul_nonneg (seconds_nonneg _) refills
    rw [← alike.same final (later.trans after),
      ← refill_refill (alike.rate ▸ refills) alike.updated (later.trans after)]
    unfold TokenBucket.refill at tokens ⊢
    dsimp only [TokenBucket.full] at tokens ⊢
    rw [tokens, alike.size, alike.rate]
    have stays : ∀ time : Nat, min (capacity + (time : ℚ) / 1000000000 * perSecond) capacity =
        capacity := fun time => min_eq_right (le_add_of_nonneg_right (more time))
    rw [stays, stays]

theorem alike_full (refills : 0 ≤ perSecond) (later : now ≤ next) :
    Alike capacity perSecond next (.full capacity perSecond next) (.full capacity perSecond now) := by
  have same : Alike capacity perSecond now (.full capacity perSecond now)
      (.full capacity perSecond now) := ⟨rfl, rfl, Nat.le_refl now, rfl, Nat.le_refl now, fun _ _ => rfl⟩
  refine same.of_full refills later ?_
  have tokens : (refill (.full capacity perSecond now) now).tokens = capacity := by
    rw [refill_tokens]
    exact min_eq_right (le_add_of_nonneg_right (mul_nonneg (seconds_nonneg _) refills))
  exact decide_eq_true tokens.ge

theorem Alike.holds (alike : Alike capacity perSecond now bucket other) (cost : ℚ) :
    bucket.holds cost now = other.holds cost now ∧
      Alike capacity perSecond now (bucket.holds cost now).2 (other.holds cost now).2 := by
  have same := alike.same now (Nat.le_refl now)
  have both : bucket.holds cost now = other.holds cost now := by
    unfold TokenBucket.holds
    rw [same]
  refine ⟨both, ?_⟩
  rw [← both]
  exact ⟨alike.size, alike.rate, Nat.le_refl now, alike.rate, Nat.le_refl now,
    fun _ _ => rfl⟩

theorem Alike.take (alike : Alike capacity perSecond now bucket other) (cost : ℚ) :
    bucket.take cost now = other.take cost now ∧
      Alike capacity perSecond now (bucket.take cost now).2 (other.take cost now).2 := by
  have both : bucket.take cost now = other.take cost now := by
    unfold TokenBucket.take
    rw [(alike.holds cost).1]
  refine ⟨both, ?_⟩
  rw [← both]
  unfold TokenBucket.take TokenBucket.holds
  dsimp only
  split
  · exact ⟨alike.size, alike.rate, Nat.le_refl now, alike.rate, Nat.le_refl now,
      fun _ _ => rfl⟩
  · exact ⟨alike.size, alike.rate, Nat.le_refl now, alike.rate, Nat.le_refl now,
      fun _ _ => rfl⟩

/-! ### Taking -/

/-- What a request may do to a bucket, and how many tokens it takes. -/
inductive Draws (now : Instant) (bucket : TokenBucket) : ℚ → TokenBucket → Prop where
  | same : Draws now bucket 0 bucket
  | refilled : Draws now bucket 0 (bucket.refill now)
  | taken (cost : ℚ) (enough : cost ≤ (bucket.refill now).tokens) :
    Draws now bucket cost { bucket.refill now with tokens := (bucket.refill now).tokens - cost }

theorem take_refill {cost : ℚ} (enough : cost ≤ (bucket.refill now).tokens) :
    (bucket.refill now).take cost now =
      (true, { bucket.refill now with tokens := (bucket.refill now).tokens - cost }) := by
  unfold take holds
  rw [refill_self]
  simp only [enough, decide_true, if_true]

/-- What has been taken between two times, and what is left of what it may be. -/
structure Spent (capacity perSecond : ℚ) (since til now : Instant) (sum : ℚ)
    (bucket : TokenBucket) : Prop where
  holds : bucket.capacity = capacity
  fills : bucket.perSecond = perSecond
  tokens : 0 ≤ bucket.tokens
  updated : bucket.updated ≤ now
  most : sum ≤ capacity + perSecond * seconds (til - since)
  left : now ≤ til → sum = 0 ∨ since ≤ bucket.updated ∧
    bucket.tokens + sum ≤ capacity + perSecond * seconds (bucket.updated - since)

variable {since til : Instant} {sum counted : ℚ} {after : TokenBucket}

theorem spent_full (room : 0 ≤ capacity) (refills : 0 ≤ perSecond) :
    Spent capacity perSecond since til now 0 (.full capacity perSecond now) where
  holds := rfl
  fills := rfl
  tokens := room
  updated := Nat.le_refl now
  most := add_nonneg room (mul_nonneg refills (seconds_nonneg _))
  left _ := .inl rfl

theorem Spent.wait (spent : Spent capacity perSecond since til now sum bucket)
    (later : now ≤ next) : Spent capacity perSecond since til next sum bucket :=
  { spent with
    updated := spent.updated.trans later
    left := fun within => spent.left (later.trans within) }

theorem Spent.refill (room : 0 ≤ capacity) (refills : 0 ≤ perSecond)
    (spent : Spent capacity perSecond since til now sum bucket) :
    Spent capacity perSecond since til now sum (bucket.refill now) := by
  have more : 0 ≤ seconds (now - bucket.updated) * bucket.perSecond :=
    mul_nonneg (seconds_nonneg _) (spent.fills ▸ refills)
  refine ⟨spent.holds, spent.fills, ?_, Nat.le_refl now, spent.most, fun within => ?_⟩
  · rw [refill_tokens]
    exact le_min (add_nonneg spent.tokens more) (spent.holds ▸ room)
  · refine (spent.left within).imp_right fun ⟨started, left⟩ => ?_
    refine ⟨started.trans spent.updated, ?_⟩
    have refilled : (bucket.refill now).tokens ≤
        bucket.tokens + seconds (now - bucket.updated) * bucket.perSecond := min_le_left _ _
    rw [refill_updated, ← seconds_sub_add started spent.updated]
    rw [spent.fills] at refilled
    linarith

theorem Spent.take (room : 0 ≤ capacity) (refills : 0 ≤ perSecond)
    (spent : Spent capacity perSecond since til now sum bucket) (cost : ℚ)
    (enough : cost ≤ (bucket.refill now).tokens) :
    Spent capacity perSecond since til now
      (sum + if since ≤ now ∧ now ≤ til then cost else 0)
      { bucket.refill now with tokens := (bucket.refill now).tokens - cost } := by
  have refilled := spent.refill room refills
  have full : (bucket.refill now).tokens ≤ capacity := spent.holds ▸ min_le_right _ _
  by_cases within : since ≤ now ∧ now ≤ til
  · rw [if_pos within]
    -- Whatever was taken before, what is taken now was refilled or held at first.
    have left : (bucket.refill now).tokens + sum ≤ capacity + perSecond * seconds (now - since) := by
      obtain zero | ⟨_, left⟩ := refilled.left within.2
      · rw [zero, add_zero]
        exact full.trans (le_add_of_nonneg_right (mul_nonneg refills (seconds_nonneg _)))
      · exact left
    have longer : perSecond * seconds (now - since) ≤ perSecond * seconds (til - since) := by
      rw [← seconds_sub_add within.1 within.2, mul_add]
      exact le_add_of_nonneg_right (mul_nonneg refills (seconds_nonneg _))
    refine ⟨spent.holds, spent.fills, sub_nonneg.mpr enough, Nat.le_refl now, ?_, fun _ => ?_⟩
    · have := refilled.tokens
      linarith
    · refine .inr ⟨within.1, ?_⟩
      dsimp only
      rw [refill_updated]
      linarith
  · rw [if_neg within, add_zero]
    refine ⟨spent.holds, spent.fills, sub_nonneg.mpr enough, Nat.le_refl now, spent.most,
      fun before => ?_⟩
    refine (refilled.left before).imp_right fun ⟨started, _⟩ => ?_
    exact absurd ⟨started, before⟩ within

theorem Spent.draws (room : 0 ≤ capacity) (refills : 0 ≤ perSecond)
    (spent : Spent capacity perSecond since til now sum bucket) (later : now ≤ next)
    (draws : bucket.Draws next counted after) :
    Spent capacity perSecond since til next
      (sum + if since ≤ next ∧ next ≤ til then counted else 0) after := by
  have waited := spent.wait later
  cases draws with
  | same =>
    rw [ite_self, add_zero]
    exact waited
  | refilled =>
    rw [ite_self, add_zero]
    exact waited.refill room refills
  | taken cost enough => exact waited.take room refills counted enough

end TokenBucket

namespace Meter

variable {Key Cell Request Answer : Type} [DecidableEq Key]

/-- What the answers to the calls for a key between two times count. -/
def counted (counts : Request → Answer → ℚ) (key : Key) (since til : Instant) :
    List (Query Key Request) → List Answer → ℚ
  | call :: calls, answer :: answers =>
    (if call.key = key ∧ since ≤ call.now ∧ call.now ≤ til then counts call.request answer else 0) +
      counted counts key since til calls answers
  | _, _ => 0

/-- A bucket of each cell gives out no more than it holds and refills. -/
theorem counted_le (meter : Meter Cell Request Answer) (bucketOf : Cell → TokenBucket)
    (counts : Request → Answer → ℚ)
    (draws : ∀ request now cell, (bucketOf cell).Draws now
      (counts request (meter.ask request now cell).1) (bucketOf (meter.ask request now cell).2))
    {capacity perSecond : ℚ} (room : 0 ≤ capacity) (refills : 0 ≤ perSecond) {key : Key}
    {since til now : Instant} {sum : ℚ} {eternal : Key → Cell}
    (spent : TokenBucket.Spent capacity perSecond since til now sum (bucketOf (eternal key)))
    {calls : List (Query Key Request)} (after : ∀ call ∈ calls, now ≤ call.now)
    (inTime : InTime calls) :
    sum + counted counts key since til calls (meter.eternalAnswers eternal calls) ≤
      capacity + perSecond * seconds (til - since) := by
  induction calls generalizing now sum eternal with
  | nil =>
    rw [counted, add_zero]
    · exact spent.most
    · simp
  | cons call calls inductionHypothesis =>
    have later := after call List.mem_cons_self
    rw [eternalAnswers, counted, ← add_assoc]
    refine inductionHypothesis ?_ (List.pairwise_cons.mp inTime).1 (List.pairwise_cons.mp inTime).2
    unfold askEternal
    dsimp only
    rw [Function.update_apply]
    by_cases mine : key = call.key
    · subst mine
      rw [if_pos rfl]
      have drawn := spent.draws room refills later (draws call.request call.now (eternal call.key))
      simpa only [true_and] using drawn
    · rw [if_neg mine, if_neg (fun same => mine same.1.symm), add_zero]
      exact spent.wait later

end Meter

/-! ### Buckets by key -/

/-- What buckets are asked. -/
inductive BucketRequest where
  | take (cost : ℚ)
  | holds (cost : ℚ)

namespace BucketRequest

def ask (request : BucketRequest) (now : Instant) (bucket : TokenBucket) : Bool × TokenBucket :=
  match request with
  | take cost => bucket.take cost now
  | holds cost => bucket.holds cost now

/-- The tokens a request takes with an answer. -/
def takes (request : BucketRequest) (answer : Bool) : ℚ :=
  match request with
  | take cost => if answer then cost else 0
  | holds _ => 0

theorem draws (request : BucketRequest) (now : Instant) (bucket : TokenBucket) :
    bucket.Draws now (request.takes (request.ask now bucket).1) (request.ask now bucket).2 := by
  cases request with
  | take cost =>
    unfold ask takes TokenBucket.take TokenBucket.holds
    by_cases enough : cost ≤ (bucket.refill now).tokens
    · simp only [enough, decide_true, if_true]
      exact .taken cost enough
    · simp only [enough, decide_false, Bool.false_eq_true, if_false]
      exact .refilled
  | holds cost => exact .refilled

end BucketRequest

variable {Key : Type} [DecidableEq Key]

/-- A bucket for every key. -/
def bucketMeter (capacity perSecond : ℚ) : Meter TokenBucket BucketRequest Bool where
  fresh := .full capacity perSecond
  ask := BucketRequest.ask
  isFull now bucket := bucket.isFull now

theorem bucketMeter_forgets (capacity : ℚ) {perSecond : ℚ} (refills : 0 ≤ perSecond) :
    (bucketMeter capacity perSecond).Forgets (TokenBucket.Alike capacity perSecond) where
  later later alike := alike.later later
  fresh later := TokenBucket.alike_full refills later
  ask request now bucket other alike := by
    cases request with
    | take cost => exact ⟨congrArg Prod.fst (alike.take cost).1, (alike.take cost).2⟩
    | holds cost => exact ⟨congrArg Prod.fst (alike.holds cost).1, (alike.holds cost).2⟩
  sweep alike := alike.refill refills
  full later alike full := alike.of_full refills later full

namespace Buckets

def ask (buckets : Buckets Key) (call : Query Key BucketRequest) : Bool × Buckets Key :=
  match call.request with
  | .take cost => buckets.take call.key cost call.now
  | .holds cost => buckets.holds call.key cost call.now

/-- The answers to calls one after the other. -/
def answers : Buckets Key → List (Query Key BucketRequest) → List Bool
  | _, [] => []
  | buckets, call :: calls => (buckets.ask call).1 :: answers (buckets.ask call).2 calls

/-- The buckets there are, and when the full ones are forgotten next. -/
def toCells (buckets : Buckets Key) : Cells Key TokenBucket where
  cells := buckets.buckets
  nextSweep := buckets.nextSweep

theorem ask_eq (buckets : Buckets Key) (call : Query Key BucketRequest) :
    (buckets.ask call).1 =
        ((bucketMeter buckets.capacity buckets.perSecond).askKept bucketSweep call buckets.toCells).1 ∧
      (buckets.ask call).2.toCells =
        ((bucketMeter buckets.capacity buckets.perSecond).askKept bucketSweep call buckets.toCells).2 ∧
      (buckets.ask call).2.capacity = buckets.capacity ∧
      (buckets.ask call).2.perSecond = buckets.perSecond := by
  obtain ⟨key, request, now⟩ := call
  have swept : (buckets.bucket key now).2.toCells = (bucketMeter buckets.capacity
      buckets.perSecond).swept bucketSweep now buckets.toCells ∧
      (buckets.bucket key now).2.capacity = buckets.capacity ∧
      (buckets.bucket key now).2.perSecond = buckets.perSecond := by
    unfold Buckets.bucket Meter.swept toCells
    dsimp only
    split
    · exact ⟨rfl, rfl, rfl⟩
    · exact ⟨rfl, rfl, rfl⟩
  have found : (buckets.bucket key now).1 = (bucketMeter buckets.capacity
      buckets.perSecond).cellOf (buckets.bucket key now).2.toCells key now := by
    unfold Buckets.bucket Meter.cellOf toCells
    dsimp only
    split <;> rfl
  unfold Meter.askKept
  rw [← swept.1]
  dsimp only
  rw [← found]
  cases request with
  | take cost => exact ⟨rfl, rfl, swept.2⟩
  | holds cost => exact ⟨rfl, rfl, swept.2⟩

theorem answers_eq_kept (buckets : Buckets Key) (calls : List (Query Key BucketRequest)) :
    buckets.answers calls = (bucketMeter buckets.capacity buckets.perSecond).keptAnswers
      bucketSweep buckets.toCells calls := by
  induction calls generalizing buckets with
  | nil => rfl
  | cons call calls inductionHypothesis =>
    obtain ⟨answer, cells, capacity, perSecond⟩ := buckets.ask_eq call
    rw [answers, Meter.keptAnswers, inductionHypothesis, answer, cells, capacity, perSecond]

end Buckets

/-- The answers of one bucket for every key, full at first and never forgotten. -/
def unforgotten (capacity perSecond : ℚ) (calls : List (Query Key BucketRequest)) : List Bool :=
  (bucketMeter capacity perSecond).eternalAnswers (fun _ => .full capacity perSecond 0) calls

theorem answers_eq_unforgotten {capacity perSecond : ℚ} (refills : 0 ≤ perSecond)
    {calls : List (Query Key BucketRequest)} (inTime : Meter.InTime calls) :
    (Buckets.new capacity perSecond).answers calls = unforgotten capacity perSecond calls := by
  rw [Buckets.answers_eq_kept]
  have forgets := bucketMeter_forgets capacity refills
  exact (Meter.follows_fresh forgets 0).answers bucketSweep forgets (fun _ _ => Nat.zero_le _) inTime

theorem unforgotten_le {capacity perSecond : ℚ} (room : 0 ≤ capacity) (refills : 0 ≤ perSecond)
    {calls : List (Query Key BucketRequest)} (inTime : Meter.InTime calls) (key : Key)
    (since til : Instant) :
    Meter.counted BucketRequest.takes key since til calls (unforgotten capacity perSecond calls) ≤
      capacity + perSecond * seconds (til - since) := by
  let full : Key → TokenBucket := fun _ => .full capacity perSecond 0
  have spent : TokenBucket.Spent capacity perSecond since til 0 0 (id (full key)) :=
    TokenBucket.spent_full room refills
  have le := (bucketMeter capacity perSecond).counted_le id BucketRequest.takes BucketRequest.draws room
    refills spent (fun call _ => Nat.zero_le call.now) inTime
  rw [zero_add] at le
  exact le

/-! ### Audio tracks -/

theorem audioPacketsPerSecond_nonneg : 0 ≤ audioPacketsPerSecond := by norm_num [audioPacketsPerSecond]

theorem audioBytesPerSecond_nonneg : 0 ≤ audioBytesPerSecond := by norm_num [audioBytesPerSecond]

namespace AudioAllowance

/-- From a time on, two allowances are the same once refilled. -/
structure Alike (now : Instant) (allowance other : AudioAllowance) : Prop where
  packets : TokenBucket.Alike audioBurstPackets audioPacketsPerSecond now allowance.packets
    other.packets
  bytes : TokenBucket.Alike audioBurstBytes audioBytesPerSecond now allowance.bytes other.bytes

/-- An allowance gives from both buckets or from neither. -/
theorem admits_draws (allowance : AudioAllowance) (len : Nat) (now : Instant) :
    allowance.packets.Draws now (if (allowance.admits len now).1 then 1 else 0)
        (allowance.admits len now).2.packets ∧
      allowance.bytes.Draws now (if (allowance.admits len now).1 then (len : ℚ) else 0)
        (allowance.admits len now).2.bytes := by
  unfold admits TokenBucket.holds
  by_cases packets : 1 ≤ (allowance.packets.refill now).tokens
  · by_cases bytes : (len : ℚ) ≤ (allowance.bytes.refill now).tokens
    · have taken := TokenBucket.take_refill packets
      have taken' := TokenBucket.take_refill bytes
      simp only [packets, bytes, taken, taken', decide_true, if_true]
      exact ⟨.taken 1 packets, .taken len bytes⟩
    · simp only [packets, bytes, decide_true, decide_false, if_true, Bool.false_eq_true, if_false]
      exact ⟨.refilled, .refilled⟩
  · simp only [packets, decide_false, Bool.false_eq_true, if_false]
    exact ⟨.refilled, .same⟩

theorem Alike.isFull {now : Instant} {allowance other : AudioAllowance}
    (alike : allowance.Alike now other) : (allowance.isFull now).2.Alike now other := by
  have packets := alike.packets.refill audioPacketsPerSecond_nonneg
  have bytes := alike.bytes.refill audioBytesPerSecond_nonneg
  unfold AudioAllowance.isFull TokenBucket.isFull
  dsimp only
  split
  · exact ⟨packets, bytes⟩
  · exact ⟨packets, alike.bytes⟩

theorem isFull_both {now : Instant} {allowance : AudioAllowance}
    (full : (allowance.isFull now).1 = true) :
    (allowance.packets.isFull now).1 = true ∧ (allowance.bytes.isFull now).1 = true := by
  unfold isFull at full
  dsimp only at full
  split at full
  · rename_i packets
    exact ⟨packets, full⟩
  · cases full

theorem Alike.admits {now : Instant} {allowance other : AudioAllowance}
    (alike : allowance.Alike now other) (len : Nat) :
    (allowance.admits len now).1 = (other.admits len now).1 ∧
      (allowance.admits len now).2.Alike now (other.admits len now).2 := by
  obtain ⟨packets, packets'⟩ := alike.packets.holds 1
  obtain ⟨bytes, bytes'⟩ := alike.bytes.holds len
  unfold AudioAllowance.admits
  rw [packets] at packets' ⊢
  rw [bytes] at bytes' ⊢
  generalize other.packets.holds 1 now = held at packets' ⊢
  generalize other.bytes.holds len now = held' at bytes' ⊢
  dsimp only
  split
  · split
    · split
      · exact ⟨rfl, (packets'.take 1).2, (bytes'.take len).2⟩
      · exact ⟨rfl, (packets'.take 1).2, bytes'⟩
    · exact ⟨rfl, packets', bytes'⟩
  · exact ⟨rfl, packets', alike.bytes⟩

end AudioAllowance

/-- An allowance for every audio track. -/
def audioMeter : Meter AudioAllowance Nat Bool where
  fresh := .full
  ask len now allowance := allowance.admits len now
  isFull now allowance := allowance.isFull now

theorem audioMeter_forgets : audioMeter.Forgets AudioAllowance.Alike where
  later later alike := ⟨alike.packets.later later, alike.bytes.later later⟩
  fresh later :=
    ⟨TokenBucket.alike_full audioPacketsPerSecond_nonneg later,
      TokenBucket.alike_full audioBytesPerSecond_nonneg later⟩
  ask len now allowance other alike := alike.admits len
  sweep alike := alike.isFull
  full later alike full := by
    obtain ⟨packets, bytes⟩ := AudioAllowance.isFull_both full
    exact ⟨alike.packets.of_full audioPacketsPerSecond_nonneg later packets,
      alike.bytes.of_full audioBytesPerSecond_nonneg later bytes⟩

namespace AudioPolicer

/-- Whether the packets of these lengths are admitted, one after the other. -/
def answers : AudioPolicer → List (Query MediaId Nat) → List Bool
  | _, [] => []
  | policer, call :: calls =>
    (policer.admits call.key call.request call.now).1 ::
      answers (policer.admits call.key call.request call.now).2 calls

/-- The allowances there are, and when the full ones are forgotten next. -/
def toCells (policer : AudioPolicer) : Cells MediaId AudioAllowance where
  cells := policer.tracks
  nextSweep := policer.nextSweep

theorem admits_eq (policer : AudioPolicer) (call : Query MediaId Nat) :
    (policer.admits call.key call.request call.now).1 =
        (audioMeter.askKept allowanceSweep call policer.toCells).1 ∧
      (policer.admits call.key call.request call.now).2.toCells =
        (audioMeter.askKept allowanceSweep call policer.toCells).2 := by
  unfold AudioPolicer.admits Meter.askKept Meter.swept toCells
  dsimp only
  split
  · exact ⟨rfl, rfl⟩
  · exact ⟨rfl, rfl⟩

theorem answers_eq_kept (policer : AudioPolicer) (calls : List (Query MediaId Nat)) :
    policer.answers calls = audioMeter.keptAnswers allowanceSweep policer.toCells calls := by
  induction calls generalizing policer with
  | nil => rfl
  | cons call calls inductionHypothesis =>
    obtain ⟨answer, cells⟩ := policer.admits_eq call
    rw [answers, Meter.keptAnswers, inductionHypothesis, answer, cells]

end AudioPolicer

/-- The answers of one allowance for every track, full at first and never forgotten. -/
def unforgottenAudio (calls : List (Query MediaId Nat)) : List Bool :=
  audioMeter.eternalAnswers (fun _ => .full 0) calls

theorem audio_eq_unforgotten {calls : List (Query MediaId Nat)} (inTime : Meter.InTime calls) :
    ({} : AudioPolicer).answers calls = unforgottenAudio calls := by
  rw [AudioPolicer.answers_eq_kept]
  exact (Meter.follows_fresh audioMeter_forgets 0).answers allowanceSweep audioMeter_forgets
    (fun _ _ => Nat.zero_le _) inTime

/-- The packets, or the bytes, that are admitted. -/
def admittedPackets (_ : Nat) (admitted : Bool) : ℚ := if admitted then 1 else 0
def admittedBytes (len : Nat) (admitted : Bool) : ℚ := if admitted then len else 0

theorem unforgottenAudio_le {calls : List (Query MediaId Nat)} (inTime : Meter.InTime calls)
    (mediaId : MediaId) (since til : Instant) :
    Meter.counted admittedPackets mediaId since til calls (unforgottenAudio calls) ≤
        audioBurstPackets + audioPacketsPerSecond * seconds (til - since) ∧
      Meter.counted admittedBytes mediaId since til calls (unforgottenAudio calls) ≤
        audioBurstBytes + audioBytesPerSecond * seconds (til - since) := by
  let full : MediaId → AudioAllowance := fun _ => .full 0
  have after : ∀ call ∈ calls, 0 ≤ call.now := fun call _ => Nat.zero_le call.now
  have packets : TokenBucket.Spent audioBurstPackets audioPacketsPerSecond since til 0 0
      (full mediaId).packets :=
    TokenBucket.spent_full (by norm_num [audioBurstPackets]) audioPacketsPerSecond_nonneg
  have bytes : TokenBucket.Spent audioBurstBytes audioBytesPerSecond since til 0 0
      (full mediaId).bytes :=
    TokenBucket.spent_full (by norm_num [audioBurstBytes]) audioBytesPerSecond_nonneg
  have packets_le := audioMeter.counted_le AudioAllowance.packets admittedPackets
    (fun len now allowance => (allowance.admits_draws len now).1) (by norm_num [audioBurstPackets])
    audioPacketsPerSecond_nonneg packets after inTime
  have bytes_le := audioMeter.counted_le AudioAllowance.bytes admittedBytes
    (fun len now allowance => (allowance.admits_draws len now).2) (by norm_num [audioBurstBytes])
    audioBytesPerSecond_nonneg bytes after inTime
  rw [zero_add] at packets_le bytes_le
  exact ⟨packets_le, bytes_le⟩

/-! ### New connections -/

namespace Buckets

/-- From a time on, the buckets answer like those that are never forgotten. -/
structure Matches (capacity perSecond : ℚ) (now : Instant) (buckets : Buckets Key)
    (eternal : Key → TokenBucket) : Prop where
  size : buckets.capacity = capacity
  rate : buckets.perSecond = perSecond
  follows : (bucketMeter capacity perSecond).Follows (TokenBucket.Alike capacity perSecond) now
    buckets.toCells eternal

variable {capacity perSecond : ℚ} {now next : Instant} {buckets : Buckets Key}
variable {eternal : Key → TokenBucket}

theorem matches_new (refills : 0 ≤ perSecond) (now : Instant) :
    (Buckets.new capacity perSecond : Buckets Key).Matches capacity perSecond now
      fun _ => .full capacity perSecond now :=
  ⟨rfl, rfl, Meter.follows_fresh (bucketMeter_forgets capacity refills) now⟩

theorem Matches.wait (same : buckets.Matches capacity perSecond now eternal) (later : now ≤ next) :
    buckets.Matches capacity perSecond next eternal :=
  ⟨same.size, same.rate, fun key final after => same.follows key final (later.trans after)⟩

theorem Matches.ask (refills : 0 ≤ perSecond)
    (same : buckets.Matches capacity perSecond now eternal) (key : Key) (request : BucketRequest) :
    (buckets.ask ⟨key, request, now⟩).1 = (request.ask now (eternal key)).1 ∧
      (buckets.ask ⟨key, request, now⟩).2.Matches capacity perSecond now
        (Function.update eternal key (request.ask now (eternal key)).2) := by
  let call : Query Key BucketRequest := ⟨key, request, now⟩
  have later : now ≤ call.now := Nat.le_refl now
  obtain ⟨answer, cells, size, rate⟩ := buckets.ask_eq call
  have asked := same.follows.ask bucketSweep (bucketMeter_forgets capacity refills) later
  rw [same.size, same.rate] at answer cells
  refine ⟨answer.trans asked.1, size.trans same.size, rate.trans same.rate, ?_⟩
  rw [cells]
  exact asked.2

theorem Matches.holds (refills : 0 ≤ perSecond)
    (same : buckets.Matches capacity perSecond now eternal) (key : Key) (cost : ℚ) :
    (buckets.holds key cost now).1 = decide (cost ≤ ((eternal key).refill now).tokens) ∧
      (buckets.holds key cost now).2.Matches capacity perSecond now eternal := by
  obtain ⟨answer, asked⟩ := same.ask refills key (.holds cost)
  refine ⟨answer, asked.size, asked.rate, fun other next later => ?_⟩
  have alike := asked.follows other next later
  rw [Function.update_apply] at alike
  split at alike
  · rename_i mine
    subst mine
    have before := same.follows other now (Nat.le_refl now)
    refine ⟨alike.size, alike.rate, alike.updated, before.otherRate,
      before.otherUpdated.trans later, fun final after => ?_⟩
    refine (alike.same final after).trans ?_
    exact TokenBucket.refill_refill (before.otherRate ▸ refills) before.otherUpdated
      (later.trans after)
  · exact alike

theorem Matches.take (refills : 0 ≤ perSecond)
    (same : buckets.Matches capacity perSecond now eternal) (key : Key) {cost : ℚ}
    (enough : cost ≤ ((eternal key).refill now).tokens) :
    (buckets.take key cost now).1 = true ∧
      (buckets.take key cost now).2.Matches capacity perSecond now
        (Function.update eternal key
          { (eternal key).refill now with tokens := ((eternal key).refill now).tokens - cost }) := by
  obtain ⟨answer, asked⟩ := same.ask refills key (.take cost)
  have taken : (BucketRequest.take cost).ask now (eternal key) = (true,
      { (eternal key).refill now with tokens := ((eternal key).refill now).tokens - cost }) := by
    unfold BucketRequest.ask TokenBucket.take TokenBucket.holds
    simp only [enough, decide_true, if_true]
  rw [taken] at answer asked
  exact ⟨answer, asked⟩

end Buckets

/-- Allowances of new connections in which no bucket is ever forgotten. -/
structure UnforgottenArrivals where
  sources : SourceKey → TokenBucket := fun _ => .full sourceArrivals sourceArrivalsPerSecond 0
  networks : SourceKey → TokenBucket := fun _ => .full networkArrivals networkArrivalsPerSecond 0

/-- Takes from both buckets if both hold enough, and from neither otherwise. -/
def UnforgottenArrivals.admits (arrivals : UnforgottenArrivals) (source : SourceKey)
    (now : Instant) : Bool × UnforgottenArrivals :=
  let bucket := (arrivals.sources source).refill now
  let network := (arrivals.networks source.network).refill now
  if 1 ≤ bucket.tokens ∧ 1 ≤ network.tokens then
    (true,
      { sources :=
          Function.update arrivals.sources source { bucket with tokens := bucket.tokens - 1 }
        networks :=
          Function.update arrivals.networks source.network
            { network with tokens := network.tokens - 1 } })
  else
    (false, arrivals)

def UnforgottenArrivals.answers : UnforgottenArrivals → List (SourceKey × Instant) → List Bool
  | _, [] => []
  | arrivals, (source, now) :: rest =>
    (arrivals.admits source now).1 :: answers (arrivals.admits source now).2 rest

namespace ArrivalLimiter

/-- Whether new connections are admitted, one after the other. -/
def answers : ArrivalLimiter → List (SourceKey × Instant) → List Bool
  | _, [] => []
  | limiter, (source, now) :: rest =>
    (limiter.admits source now).1 :: answers (limiter.admits source now).2 rest

/-- From a time on, a limiter answers like one that forgets nothing. -/
structure Matches (now : Instant) (limiter : ArrivalLimiter) (arrivals : UnforgottenArrivals) :
    Prop where
  sources : limiter.sources.Matches sourceArrivals sourceArrivalsPerSecond now arrivals.sources
  networks : limiter.networks.Matches networkArrivals networkArrivalsPerSecond now arrivals.networks

theorem sourceArrivalsPerSecond_nonneg : 0 ≤ sourceArrivalsPerSecond := by
  norm_num [sourceArrivalsPerSecond]

theorem networkArrivalsPerSecond_nonneg : 0 ≤ networkArrivalsPerSecond := by
  norm_num [networkArrivalsPerSecond]

theorem Matches.admits {now : Instant} {limiter : ArrivalLimiter} {arrivals : UnforgottenArrivals}
    (same : limiter.Matches now arrivals) (source : SourceKey) :
    (limiter.admits source now).1 = (arrivals.admits source now).1 ∧
      (limiter.admits source now).2.Matches now (arrivals.admits source now).2 := by
  obtain ⟨holds, sources⟩ := same.sources.holds sourceArrivalsPerSecond_nonneg source 1
  obtain ⟨holds', networks⟩ :=
    same.networks.holds networkArrivalsPerSecond_nonneg source.network 1
  unfold ArrivalLimiter.admits UnforgottenArrivals.admits
  by_cases enough : 1 ≤ ((arrivals.sources source).refill now).tokens
  · by_cases enough' : 1 ≤ ((arrivals.networks source.network).refill now).tokens
    · obtain ⟨taken, sources⟩ := sources.take sourceArrivalsPerSecond_nonneg source enough
      obtain ⟨taken', networks⟩ :=
        networks.take networkArrivalsPerSecond_nonneg source.network enough'
      simp only [holds, holds', enough, enough', decide_true, if_true, and_self, taken, taken']
      exact ⟨trivial, sources, networks⟩
    · simp only [holds, holds', enough, enough', decide_true, decide_false, if_true, and_false,
        Bool.false_eq_true, if_false]
      exact ⟨trivial, sources, networks⟩
  · simp only [holds, enough, decide_false, false_and, Bool.false_eq_true, if_false]
    exact ⟨trivial, sources, same.networks⟩

theorem answers_eq {now : Instant} {limiter : ArrivalLimiter} {arrivals : UnforgottenArrivals}
    (same : limiter.Matches now arrivals) {calls : List (SourceKey × Instant)}
    (after : ∀ call ∈ calls, now ≤ call.2) (inTime : calls.Pairwise fun call later => call.2 ≤ later.2) :
    limiter.answers calls = arrivals.answers calls := by
  induction calls generalizing now limiter arrivals with
  | nil => rfl
  | cons call calls inductionHypothesis =>
    obtain ⟨source, later⟩ := call
    have waited : limiter.Matches later arrivals :=
      ⟨same.sources.wait (after _ List.mem_cons_self), same.networks.wait (after _ List.mem_cons_self)⟩
    obtain ⟨answer, next⟩ := waited.admits source
    rw [answers, UnforgottenArrivals.answers, answer, inductionHypothesis next
      (List.pairwise_cons.mp inTime).1 (List.pairwise_cons.mp inTime).2]

end ArrivalLimiter

/-! ### The main result -/

/-- Whatever is asked at times that don't go back: buckets answer as if none was ever forgotten,
and so do the allowances of audio tracks and of new connections, which take from both of their
buckets or from neither. Between two times no key takes more than its bucket holds and refills. -/
theorem forgetting_changes_nothing {capacity perSecond : ℚ} (room : 0 ≤ capacity)
    (refills : 0 ≤ perSecond) {calls : List (Query Key BucketRequest)}
    (inTime : Meter.InTime calls) {audio : List (Query MediaId Nat)} (audioInTime : Meter.InTime audio)
    {arrivals : List (SourceKey × Instant)}
    (arrivalsInTime : arrivals.Pairwise fun call later => call.2 ≤ later.2) :
    ((Buckets.new capacity perSecond).answers calls = unforgotten capacity perSecond calls ∧
      ∀ key since til, Meter.counted BucketRequest.takes key since til calls
          ((Buckets.new capacity perSecond).answers calls) ≤
        capacity + perSecond * seconds (til - since)) ∧
    (({} : AudioPolicer).answers audio = unforgottenAudio audio ∧
      (∀ mediaId since til, Meter.counted admittedPackets mediaId since til audio
          (({} : AudioPolicer).answers audio) ≤
        audioBurstPackets + audioPacketsPerSecond * seconds (til - since)) ∧
      (∀ mediaId since til, Meter.counted admittedBytes mediaId since til audio
          (({} : AudioPolicer).answers audio) ≤
        audioBurstBytes + audioBytesPerSecond * seconds (til - since)) ∧
      ∀ (allowance : AudioAllowance) len now,
        allowance.packets.Draws now (if (allowance.admits len now).1 then 1 else 0)
            (allowance.admits len now).2.packets ∧
          allowance.bytes.Draws now (if (allowance.admits len now).1 then (len : ℚ) else 0)
            (allowance.admits len now).2.bytes) ∧
    ({} : ArrivalLimiter).answers arrivals = ({} : UnforgottenArrivals).answers arrivals := by
  refine ⟨⟨answers_eq_unforgotten refills inTime, fun key since til => ?_⟩,
    ⟨audio_eq_unforgotten audioInTime, fun mediaId since til => ?_, fun mediaId since til => ?_,
      AudioAllowance.admits_draws⟩, ?_⟩
  · rw [answers_eq_unforgotten refills inTime]
    exact unforgotten_le room refills inTime key since til
  · rw [audio_eq_unforgotten audioInTime]
    exact (unforgottenAudio_le audioInTime mediaId since til).1
  · rw [audio_eq_unforgotten audioInTime]
    exact (unforgottenAudio_le audioInTime mediaId since til).2
  · refine ArrivalLimiter.answers_eq ⟨?_, ?_⟩ (fun call _ => Nat.zero_le call.2) arrivalsInTime
    · exact Buckets.matches_new ArrivalLimiter.sourceArrivalsPerSecond_nonneg 0
    · exact Buckets.matches_new ArrivalLimiter.networkArrivalsPerSecond_nonneg 0

/-- Two users send a request at once, and one of them again a second later. -/
def threeRequests : List (Query UserId BucketRequest) :=
  [⟨1, .take 1, 0⟩, ⟨2, .take 1, 0⟩, ⟨1, .take 1, 1000000000⟩]

theorem forgetting_changes_nothing_threeRequests :
    (Buckets.new 1 1).answers threeRequests = unforgotten 1 1 threeRequests ∧
      ({} : AudioPolicer).answers [⟨1, 100, 0⟩] = unforgottenAudio [⟨1, 100, 0⟩] ∧
      ({} : ArrivalLimiter).answers [(.v4 7, 0)] = ({} : UnforgottenArrivals).answers [(.v4 7, 0)] := by
  have inTime : Meter.InTime threeRequests := by
    unfold Meter.InTime threeRequests
    decide
  have one : (0 : ℚ) ≤ 1 := zero_le_one
  have same := forgetting_changes_nothing one one inTime (List.pairwise_singleton _ ⟨1, 100, 0⟩)
    (List.pairwise_singleton _ (.v4 7, 0))
  exact ⟨same.1.1, same.2.1.1, same.2.2⟩

end Throcc
