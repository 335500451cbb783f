/-
This file embeds the server's allowances: token buckets, one per key, the
backoff of wrong room passwords and the pacing of keyframe requests.

Tokens are rationals where the source counts in floating point.
-/

import Throcc.Map
import Throcc.Proto
import Mathlib.Data.Rat.Defs
import Mathlib.Algebra.Order.Ring.Rat

namespace Throcc

/-- How often `Buckets` forgets its full buckets. -/
def bucketSweep : Duration := fromSecs 1

/-- Holds up to `capacity` tokens and refills `perSecond` of them. -/
structure TokenBucket where
  capacity : ℚ
  perSecond : ℚ
  tokens : ℚ
  updated : Instant
deriving DecidableEq

namespace TokenBucket

def full (capacity perSecond : ℚ) (now : Instant) : TokenBucket where
  capacity := capacity
  perSecond := perSecond
  tokens := capacity
  updated := now

def refill (bucket : TokenBucket) (now : Instant) : TokenBucket :=
  let elapsed : ℚ := (now - bucket.updated : Nat) / 1000000000
  { bucket with
    tokens := min (bucket.tokens + elapsed * bucket.perSecond) bucket.capacity
    updated := now }

/-- Whether the bucket holds `cost` tokens, without taking them. -/
def holds (bucket : TokenBucket) (cost : ℚ) (now : Instant) : Bool × TokenBucket :=
  let bucket := bucket.refill now
  (cost ≤ bucket.tokens, bucket)

/-- Takes `cost` tokens if the bucket holds that many. -/
def take (bucket : TokenBucket) (cost : ℚ) (now : Instant) : Bool × TokenBucket :=
  let (enough, bucket) := bucket.holds cost now
  if enough then (true, { bucket with tokens := bucket.tokens - cost }) else (false, bucket)

def isFull (bucket : TokenBucket) (now : Instant) : Bool × TokenBucket :=
  let bucket := bucket.refill now
  (bucket.capacity ≤ bucket.tokens, bucket)

end TokenBucket

/-- One token bucket per key. Buckets that have refilled completely are forgotten. -/
structure Buckets (Key : Type) where
  capacity : ℚ
  perSecond : ℚ
  buckets : Map Key TokenBucket
  nextSweep : Option Instant

namespace Buckets

variable {Key : Type} [DecidableEq Key]

def new (capacity perSecond : ℚ) : Buckets Key where
  capacity := capacity
  perSecond := perSecond
  buckets := ∅
  nextSweep := none

/-- The bucket of a key, a full one if there is none yet, after a sweep that is due. The
sweep refills every bucket it keeps. -/
def bucket (buckets : Buckets Key) (key : Key) (now : Instant) : TokenBucket × Buckets Key :=
  let buckets :=
    if buckets.nextSweep.all (· ≤ now) then
      { buckets with
        buckets :=
          (buckets.buckets.retain fun _ bucket => !(bucket.isFull now).1).mapValues
            fun _ bucket => (bucket.isFull now).2
        nextSweep := some (now + bucketSweep) }
    else
      buckets
  ((buckets.buckets.lookup key).getD (.full buckets.capacity buckets.perSecond now), buckets)

def take (buckets : Buckets Key) (key : Key) (cost : ℚ) (now : Instant) : Bool × Buckets Key :=
  let (bucket, buckets) := buckets.bucket key now
  let (taken, bucket) := bucket.take cost now
  (taken, { buckets with buckets := buckets.buckets.insert key bucket })

/-- Whether `key`'s bucket holds `cost` tokens, without taking them. -/
def holds (buckets : Buckets Key) (key : Key) (cost : ℚ) (now : Instant) : Bool × Buckets Key :=
  let (bucket, buckets) := buckets.bucket key now
  let (enough, bucket) := bucket.holds cost now
  (enough, { buckets with buckets := buckets.buckets.insert key bucket })

end Buckets

/-! ### Wrong room passwords -/

/-- Wrong guesses a user gets at one room before each next one has to wait. -/
def freeFailures : Nat := 5
/-- The wait after the last free failure, doubling with each failure after it. -/
def firstWait : Duration := fromSecs 10
def longestWait : Duration := fromSecs (60 * 60)
/-- How long a user's wrong guesses at a room are remembered. -/
def failureMemory : Duration := fromSecs (24 * 60 * 60)
def failureSweep : Duration := fromSecs 60
/-- Wrong guesses at one room, from everyone together, per hour. -/
def roomFailures : ℚ := 100
def roomFailuresPerSecond : ℚ := roomFailures / 3600

/-- Why a guess at a room's password has to wait. -/
inductive Wait where
  | user (wait : Duration)
  | room
deriving DecidableEq, Repr

structure Failures where
  count : Nat
  last : Instant
deriving DecidableEq, Repr

def Failures.nextTry (failures : Failures) : Instant :=
  if failures.count < freeFailures then failures.last
  else
    failures.last +
      min (firstWait * 2 ^ min (failures.count - freeFailures) 16) longestWait

/-- Wrong room-password guesses: an exponential backoff per user and room, and an allowance
per room. -/
structure Guesses where
  users : Map (UserId × RoomId) Failures := ∅
  rooms : Buckets RoomId := .new roomFailures roomFailuresPerSecond
  nextSweep : Option Instant := none

namespace Guesses

def check (guesses : Guesses) (user : UserId) (room : RoomId) (now : Instant) :
    Except Wait Unit × Guesses :=
  match guesses.users.lookup (user, room) with
  | none => (.ok (), guesses)
  | some failures =>
    if now < failures.nextTry then
      (.error (.user (failures.nextTry - now)), guesses)
    else
      let (enough, rooms) := guesses.rooms.holds room 1 now
      (if enough then .ok () else .error .room, { guesses with rooms })

/-- Records a wrong guess. -/
def failed (guesses : Guesses) (user : UserId) (room : RoomId) (now : Instant) : Guesses :=
  let guesses :=
    if guesses.nextSweep.all (· ≤ now) then
      { guesses with
        users := guesses.users.retain fun _ failures => now - failures.last < failureMemory
        nextSweep := some (now + failureSweep) }
    else
      guesses
  let (_, rooms) := guesses.rooms.take room 1 now
  let count := ((guesses.users.lookup (user, room)).map (·.count)).getD 0
  { guesses with rooms, users := guesses.users.insert (user, room) { count := count + 1, last := now } }

def succeeded (guesses : Guesses) (user : UserId) (room : RoomId) : Guesses :=
  { guesses with users := guesses.users.erase (user, room) }

end Guesses

/-! ### Keyframe requests -/

/-- Keyframe requests for one track are forwarded at most this often. -/
def keyframeInterval : Duration := fromSecs 1

structure PendingKeyframe where
  lastSent : Option Instant := none
  wanted : Option Recovery := none
deriving DecidableEq, Repr

/-- An instant decoder refresh outranks an intra refresh. -/
def Recovery.max (first second : Recovery) : Recovery :=
  if first = .idr ∨ second = .idr then .idr else .refresh

def PendingKeyframe.takeIfDue (pending : PendingKeyframe) (now : Instant) :
    Option Recovery × PendingKeyframe :=
  if pending.lastSent.all fun sent => keyframeInterval ≤ now - sent then
    match pending.wanted with
    | some kind => (some kind, { lastSent := some now, wanted := none })
    | none => (none, pending)
  else
    (none, pending)

/-- Keyframe requests waiting for their track's interval to pass. -/
structure KeyframeAggregator where
  tracks : Map MediaId PendingKeyframe := ∅

namespace KeyframeAggregator

/-- Records a request. Returns the request to forward now, if the track is due. -/
def request (keyframes : KeyframeAggregator) (mediaId : MediaId) (kind : Recovery)
    (now : Instant) : Option Recovery × KeyframeAggregator :=
  let pending := (keyframes.tracks.lookup mediaId).getD {}
  let wanted := match pending.wanted with
    | some other => other.max kind
    | none => kind
  let (due, pending) := { pending with wanted := some wanted }.takeIfDue now
  (due, { tracks := keyframes.tracks.insert mediaId pending })

/-- Requests whose interval has passed since the last one was forwarded. -/
def due (keyframes : KeyframeAggregator) (now : Instant) :
    List (MediaId × Recovery) × KeyframeAggregator :=
  (keyframes.tracks.toList.filterMap fun entry =>
      (entry.2.takeIfDue now).1.map fun kind => (entry.1, kind),
    { tracks := keyframes.tracks.mapValues fun _ pending => (pending.takeIfDue now).2 })

def forget (keyframes : KeyframeAggregator) (mediaId : MediaId) : KeyframeAggregator :=
  { tracks := keyframes.tracks.erase mediaId }

end KeyframeAggregator

end Throcc
