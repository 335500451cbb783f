/-
This file embeds the allowances the server keeps of addresses and of audio
tracks: new connections and enrollment runs per source, network and region, and
the packets and bytes of an audio track.
-/

import Throcc.Limits

namespace Throcc

/-! ### Sources -/

/-- A source address for rate limiting: the full IPv4 address, or the IPv6 /64. -/
inductive SourceKey where
  | v4 (address : BitVec 32)
  | v6 (top : BitVec 64)
deriving DecidableEq, Repr

/-- The network around this source: its IPv4 /24, or its IPv6 /48. -/
def SourceKey.network : SourceKey → SourceKey
  | v4 address => v4 (address &&& ~~~0xff)
  | v6 top => v6 (top &&& ~~~0xffff)

/-- The wider region around this source: its IPv4 /16, or its IPv6 /32. -/
def SourceKey.region : SourceKey → SourceKey
  | v4 address => v4 (address &&& ~~~0xffff)
  | v6 top => v6 (top &&& ~~~0xffffffff)

/-! ### New connections -/

def sourceArrivals : ℚ := 32
def sourceArrivalsPerSecond : ℚ := 1
def networkArrivals : ℚ := 64
def networkArrivalsPerSecond : ℚ := 2

/-- New connections allowed per source and per network. -/
structure ArrivalLimiter where
  sources : Buckets SourceKey := .new sourceArrivals sourceArrivalsPerSecond
  networks : Buckets SourceKey := .new networkArrivals networkArrivalsPerSecond

/-- Counts a new connection from `source`, or returns false if its source or network has used up
its allowance. -/
def ArrivalLimiter.admits (limiter : ArrivalLimiter) (source : SourceKey) (now : Instant) :
    Bool × ArrivalLimiter :=
  let network := source.network
  let (enough, sources) := limiter.sources.holds source 1 now
  if enough then
    let (enough, networks) := limiter.networks.holds network 1 now
    if enough then
      let (taken, sources) := sources.take source 1 now
      if taken then
        let (taken, networks) := networks.take network 1 now
        (taken, { sources, networks })
      else
        (false, { sources, networks })
    else
      (false, { sources, networks })
  else
    (false, { limiter with sources })

/-! ### Enrollment runs -/

def sourceRuns : Nat := 10
def networkRuns : Nat := 30
def regionRuns : Nat := 100
def sourceWindow : Duration := fromSecs (10 * 60)
/-- How often `SourceLimiter` forgets sources whose runs have all left the window. -/
def runSweep : Duration := fromSecs 60

/-- Drops the runs that have left the window. -/
def expire (times : List Instant) (now : Instant) : List Instant :=
  times.dropWhile fun time => sourceWindow < now - time

/-- The times runs began at, by key. -/
structure RunWindow where
  times : Map SourceKey (List Instant) := ∅

namespace RunWindow

variable (window : RunWindow)

def expireAll (now : Instant) : RunWindow where
  times :=
    (window.times.mapValues fun _ times => expire times now).retain fun _ times => times ≠ []

/-- Runs of `key` still in the window. -/
def count (key : SourceKey) (now : Instant) : Nat × RunWindow :=
  ((window.times.lookup key).elim 0 fun times => (expire times now).length,
    { times := window.times.modify key fun times => expire times now })

def record (key : SourceKey) (now : Instant) : RunWindow where
  times := window.times.insert key ((window.times.lookup key).getD [] ++ [now])

def forgive (key : SourceKey) : RunWindow where
  times := window.times.modify key List.dropLast

end RunWindow

/-- Counts enrollment runs per source, network and region in a sliding window. -/
structure SourceLimiter where
  sources : RunWindow := {}
  networks : RunWindow := {}
  regions : RunWindow := {}
  nextSweep : Option Instant := none

namespace SourceLimiter

variable (limiter : SourceLimiter)

/-- Forgets the runs that have left the window, if that is due. -/
def sweep (now : Instant) : SourceLimiter :=
  if limiter.nextSweep.all (· ≤ now) then
    { sources := limiter.sources.expireAll now
      networks := limiter.networks.expireAll now
      regions := limiter.regions.expireAll now
      nextSweep := some (now + runSweep) }
  else
    limiter

/-- Records the start of a run of a source that is below its limits. -/
def record (source : SourceKey) (now : Instant) : SourceLimiter :=
  { limiter with
    sources := limiter.sources.record source now
    networks := limiter.networks.record source.network now
    regions := limiter.regions.record source.region now }

/-- Records the start of a run, or returns false if its source, network or region is over its
limit. -/
def begin (source : SourceKey) (now : Instant) : Bool × SourceLimiter :=
  let limiter := limiter.sweep now
  let (runs, sources) := limiter.sources.count source now
  let limiter := { limiter with sources }
  if sourceRuns ≤ runs then (false, limiter)
  else
    let (runs, networks) := limiter.networks.count source.network now
    let limiter := { limiter with networks }
    if networkRuns ≤ runs then (false, limiter)
    else
      let (runs, regions) := limiter.regions.count source.region now
      let limiter := { limiter with regions }
      if regionRuns ≤ runs then (false, limiter) else (true, limiter.record source now)

def forgive (source : SourceKey) : SourceLimiter :=
  { limiter with
    sources := limiter.sources.forgive source
    networks := limiter.networks.forgive source.network
    regions := limiter.regions.forgive source.region }

end SourceLimiter

/-! ### Audio tracks -/

def audioPacketsPerSecond : ℚ := 150
def audioBurstPackets : ℚ := 2500
def audioBytesPerSecond : ℚ := 80 * 1024
def audioBurstBytes : ℚ := 256 * 1024
/-- How often `AudioPolicer` forgets its full allowances. -/
def allowanceSweep : Duration := fromSecs 10

/-- One audio track's packet and byte allowance at ingress. -/
structure AudioAllowance where
  packets : TokenBucket
  bytes : TokenBucket

namespace AudioAllowance

def full (now : Instant) : AudioAllowance where
  packets := .full audioBurstPackets audioPacketsPerSecond now
  bytes := .full audioBurstBytes audioBytesPerSecond now

/-- Takes one packet of `len` bytes if both buckets hold enough. -/
def admits (allowance : AudioAllowance) (len : Nat) (now : Instant) : Bool × AudioAllowance :=
  let (enough, packets) := allowance.packets.holds 1 now
  if enough then
    let (enough, bytes) := allowance.bytes.holds len now
    if enough then
      let (taken, packets) := packets.take 1 now
      if taken then
        let (taken, bytes) := bytes.take len now
        (taken, { packets, bytes })
      else
        (false, { packets, bytes })
    else
      (false, { packets, bytes })
  else
    (false, { allowance with packets })

def isFull (allowance : AudioAllowance) (now : Instant) : Bool × AudioAllowance :=
  let (full, packets) := allowance.packets.isFull now
  if full then
    let (full, bytes) := allowance.bytes.isFull now
    (full, { packets, bytes })
  else
    (false, { allowance with packets })

end AudioAllowance

/-- The allowances of one connection's audio tracks. -/
structure AudioPolicer where
  tracks : Map MediaId AudioAllowance := ∅
  nextSweep : Option Instant := none

def AudioPolicer.admits (policer : AudioPolicer) (mediaId : MediaId) (len : Nat) (now : Instant) :
    Bool × AudioPolicer :=
  let policer : AudioPolicer :=
    if policer.nextSweep.all (· ≤ now) then
      { tracks :=
          (policer.tracks.retain fun _ allowance => !(allowance.isFull now).1).mapValues
            fun _ allowance => (allowance.isFull now).2
        nextSweep := some (now + allowanceSweep) }
    else
      policer
  let (admitted, allowance) :=
    ((policer.tracks.lookup mediaId).getD (.full now)).admits len now
  (admitted, { policer with tracks := policer.tracks.insert mediaId allowance })

end Throcc
