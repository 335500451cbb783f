/-
This file embeds the jitter buffer of an audio track: which packets it holds
and decodes, recovers or conceals in which pull. What the decoder makes of them
isn't modelled, only what it is called with; the delay target is given instead
of estimated, and the timestamp that playout is at, which nothing here reads,
is left out.
-/

import Throcc.Map
import Throcc.Run
import Mathlib.Data.Fin.Basic
import Mathlib.Data.ZMod.Defs

namespace Throcc

/-- A media timestamp, which wraps. -/
abbrev Timestamp := Fin (2 ^ 32)

instance Timestamp.neZero : NeZero (2 ^ 32) := ⟨by decide⟩

/-- Serial-number comparison for media timestamps (RFC 1982, 32-bit). -/
def timestampBefore (left right : Timestamp) : Bool :=
  left ≠ right ∧ (right - left).val < 2 ^ 31

/-- Samples of one channel in a frame, and in what a pull fills. -/
def frameSamples : Nat := 960
def pullSamples : Nat := 480

/-- A frame's length in timestamps. -/
def frameTicks : Timestamp := 960

def maxConcealed : Nat := 3
def maxPackets : Nat := 64
def accelerateEvery : Nat := 20
def spare : Nat := 2 * frameSamples
def u32Top : Nat := 2 ^ 32 - 1

structure JitterStats where
  normal : Nat := 0
  fec : Nat := 0
  concealed : Nat := 0
  late : Nat := 0
  overflow : Nat := 0
  accelerated : Nat := 0
  rebuffered : Nat := 0
  stretched : Nat := 0
  realigned : Nat := 0
deriving DecidableEq, Repr

inductive DecodeMode where
  | normal
  | fec
deriving DecidableEq, Repr

/-- A call of the decoder; one without a packet conceals. -/
structure Decode where
  packet : List UInt8
  mode : DecodeMode
deriving DecidableEq, Repr

/-- The decoder's call that conceals a frame. -/
def Decode.conceal : Decode := ⟨[], .normal⟩

structure JitterBuffer where
  packets : Map Timestamp (List UInt8) := ∅
  /-- Media timestamp of the next frame to decode. -/
  nextTs : Option Timestamp := none
  playing : Bool := false
  framePos : Nat := frameSamples
  concealedInARow : Nat := 0
  pullsSinceAccelerate : Nat := 0
  /-- The least audio buffered after a pull since the last acceleration window began. -/
  lowest : Nat := u32Top
  stats : JitterStats := {}

namespace JitterBuffer

variable (buffer : JitterBuffer)

/-! ### Inserting -/

def isLate (timestamp : Timestamp) : Bool :=
  buffer.playing && buffer.nextTs.any (timestampBefore timestamp)

/-- Whether playout is to start with a packet. -/
def startsAt (timestamp : Timestamp) : Bool :=
  !buffer.playing &&
    buffer.nextTs.all fun next => buffer.packets.keys.card = 0 || timestampBefore timestamp next

/-- The packets there are once the first of too many is dropped. -/
def kept : Map Timestamp (List UInt8) :=
  if maxPackets ≤ buffer.packets.keys.card then
    buffer.packets.firstKey.elim buffer.packets buffer.packets.erase
  else
    buffer.packets

/-- Adds a packet with its media timestamp. -/
def insert (timestamp : Timestamp) (payload : List UInt8) : JitterBuffer :=
  if buffer.isLate timestamp then
    { buffer with stats := { buffer.stats with late := buffer.stats.late + 1 } }
  else
    { buffer with
      nextTs := if buffer.startsAt timestamp then some timestamp else buffer.nextTs
      packets := buffer.kept.insert timestamp payload
      stats :=
        if maxPackets ≤ buffer.packets.keys.card then
          { buffer.stats with overflow := buffer.stats.overflow + 1 }
        else
          buffer.stats }

/-! ### Decoding -/

def undecoded : Nat :=
  match buffer.nextTs, buffer.packets.lastKey with
  | some next, some last =>
    if timestampBefore last next then 0 else (last - next).val + frameSamples
  | _, _ => 0

/-- Buffered audio ahead of playout, in samples. -/
def buffered : Nat :=
  buffer.undecoded + if buffer.playing then frameSamples - buffer.framePos else 0

/-- The frame that is to come now: the next one, or the first packet's off its grid. -/
def realigned (next : Timestamp) : Option Timestamp :=
  if buffer.packets.lookup next = none then
    buffer.packets.firstKey.filter fun first => (first - next).val % frameSamples ≠ 0
  else
    none

/-- Steps on to the frame behind the one at `next`, which was decoded. -/
def advance (next : Timestamp) : JitterBuffer :=
  { buffer with
    framePos := 0
    nextTs := some (next + frameTicks)
    packets := buffer.packets.retain fun timestamp _ =>
      !timestampBefore timestamp (next + frameTicks) }

def firstPacketWithinTarget (target : Nat) (next : Timestamp) : Bool :=
  buffer.packets.firstKey.any fun first => (first - next).val ≤ target

/-- Decodes, recovers or conceals the frame at `next`, or stops playout to rebuffer. -/
def decodeFrame (target : Nat) (next : Timestamp) : Option Decode × JitterBuffer :=
  let stats := buffer.stats
  match buffer.packets.lookup next with
  | some packet =>
    (some ⟨packet, .normal⟩,
      { buffer with
        packets := buffer.packets.erase next
        concealedInARow := 0
        stats := { stats with normal := stats.normal + 1 } }.advance next)
  | none =>
    match buffer.packets.lookup (next + frameTicks) with
    | some packet =>
      (some ⟨packet, .fec⟩,
        { buffer with
          concealedInARow := 0
          stats := { stats with fec := stats.fec + 1 } }.advance next)
    | none =>
      if buffer.packets.keys.card = 0 ∧ buffer.concealedInARow < maxConcealed then
        (some .conceal,
          { buffer with
            concealedInARow := buffer.concealedInARow + 1
            stats := { stats with stretched := stats.stretched + 1 }
            framePos := 0 })
      else if buffer.concealedInARow < maxConcealed ∨ buffer.firstPacketWithinTarget target next then
        (some .conceal,
          { buffer with
            concealedInARow := buffer.concealedInARow + 1
            stats := { stats with concealed := stats.concealed + 1 } }.advance next)
      else
        (none,
          { buffer with
            playing := false
            nextTs := buffer.packets.firstKey
            stats := { stats with rebuffered := stats.rebuffered + 1 } })

def countRealigned : JitterBuffer :=
  { buffer with stats := { buffer.stats with realigned := buffer.stats.realigned + 1 } }

/-- Decodes, recovers or conceals the next frame; no call of the decoder when playout stopped to
rebuffer. -/
def decodeNext (target : Nat) : Option Decode × JitterBuffer :=
  match buffer.nextTs with
  | none => (none, buffer)
  | some next =>
    match buffer.realigned next with
    | some first => buffer.countRealigned.decodeFrame target first
    | none => buffer.decodeFrame target next

/-! ### Pulling -/

/-- Skips one frame when the buffer stayed over `spare` for a whole 200 ms window. -/
def accelerate : JitterBuffer :=
  let pulls := buffer.pullsSinceAccelerate + 1
  let lowest := min buffer.lowest buffer.buffered
  if pulls < accelerateEvery then { buffer with pullsSinceAccelerate := pulls, lowest }
  else
    let window := { buffer with pullsSinceAccelerate := 0, lowest := u32Top }
    if lowest ≤ spare then window
    else
      match buffer.nextTs with
      | none => window
      | some next =>
        if (buffer.packets.lookup next).isSome then
          { window with
            packets := buffer.packets.erase next
            nextTs := some (next + frameTicks)
            stats := { buffer.stats with accelerated := buffer.stats.accelerated + 1 } }
        else
          window

/-- How far a pull has got. -/
structure Filling where
  filled : Nat
  decodes : List Decode
  /-- Whether playout stopped to rebuffer. -/
  stopped : Bool
  buffer : JitterBuffer

/-- Decodes the next frame once one was played; no calls of the decoder when playout stopped. -/
def Filling.decoded (target : Nat) (filling : Filling) : Option (List Decode) × JitterBuffer :=
  if filling.buffer.framePos = frameSamples then
    let (decode, buffer) := filling.buffer.decodeNext target
    (decode.map fun decode => filling.decodes ++ [decode], buffer)
  else
    (some filling.decodes, filling.buffer)

/-- One turn of the loop that fills a pull's output. -/
def Filling.turn (target : Nat) (filling : Filling) : Option Filling :=
  if filling.stopped = false ∧ filling.filled < pullSamples then
    match filling.decoded target with
    | (none, buffer) => some { filling with stopped := true, buffer }
    | (some decodes, buffer) =>
      let take := min (pullSamples - filling.filled) (frameSamples - buffer.framePos)
      some
        { filling with
          filled := filling.filled + take
          decodes
          buffer := { buffer with framePos := buffer.framePos + take } }
  else
    none

/-- Fills 10 ms of output; the decoder's calls it makes. -/
def pull (target : Nat) : List Decode × JitterBuffer :=
  if buffer.playing = false ∧ (buffer.buffered < target ∨ buffer.nextTs = none) then ([], buffer)
  else
    let started :=
      if buffer.playing then buffer else { buffer with playing := true, framePos := frameSamples }
    let filling := loop (Filling.turn target) (pullSamples + 1) ⟨0, [], false, started⟩
    (filling.decodes,
      if filling.stopped then filling.buffer else filling.buffer.accelerate)

/-! ### Playouts -/

inductive Input where
  | insert (timestamp : Timestamp) (payload : List UInt8)
  | pull
deriving DecidableEq, Repr

/-- A jitter buffer and the calls of the decoder in each pull so far. -/
structure Playout where
  buffer : JitterBuffer := {}
  pulls : List (List Decode) := []

def Playout.step (target : Nat) (playout : Playout) : Input → Playout
  | .insert timestamp payload =>
    { playout with buffer := playout.buffer.insert timestamp payload }
  | .pull =>
    let (decodes, buffer) := playout.buffer.pull target
    { buffer, pulls := playout.pulls ++ [decodes] }

end JitterBuffer

end Throcc
