/-
This file embeds the receiving task of one remote track: it opens datagrams,
drops repeats, reassembles and reorders, and holds what no key opens yet until
the generation of the key manager says that another try may help.

A call of the task takes the locks of the key manager and of the sinks one after
another. What other tasks do may fall in between, so a call goes on lock by lock.
The numbers of arrivals, the generations noted with them and the arrivals opened
are records for the proofs only.
-/

import Throcc.Reorder
import Throcc.Sealer
import Throcc.Window

namespace Throcc

/-- How long ciphertext waits for a sender key that opens it. -/
def pendingKeyWait : Duration := fromMillis 500
def maxPending : Nat := 512
def tickEvery : Duration := fromMillis 20
/-- Fragments this far behind the newest audio unit are kept for an earlier one. -/
def audioStragglerSeqs : Nat := 64
def maxVideoUnitFragments : Nat := 4096
def maxAudioUnitFragments : Nat := 4

inductive Kind where
  | audio
  | video
deriving DecidableEq, Repr

def Kind.maxUnitFragments : Kind → Nat
  | audio => maxAudioUnitFragments
  | video => maxVideoUnitFragments

/-- One remote track's replay window, and the bytes it let through. -/
structure Sink where
  window : ReplayWindow := {}
  bytes : Nat := 0

/-- Records an authenticated datagram of `length` bytes, unless it was seen before. -/
def Sink.accept (sink : Sink) (seq length : Nat) : Seen × Sink :=
  let (seen, window) := sink.window.check seq
  (seen, { window, bytes := if seen = .new then sink.bytes + length else sink.bytes })

/-- A datagram that arrived. -/
structure Arrival where
  arrived : Instant
  epoch : Epoch
  datagram : List UInt8
  /-- Its place among all that arrived. -/
  number : Nat
  /-- The generation of the key manager when it arrived. -/
  since : Nat
deriving DecidableEq, Repr

/-- An arrival that no key we hold opens yet. -/
structure Held where
  arrival : Arrival
  /-- The generation of the key manager when it was last tried. -/
  triedAt : Nat
deriving DecidableEq, Repr

/-- The channel to the consumer of a track. -/
structure Outlet where
  capacity : Nat
  units : List AccessUnit := []
  closed : Bool := false

structure Track where
  mediaId : MediaId
  kind : Kind
  out : Outlet
  /-- Oldest first. -/
  pending : List Held := []
  nextTick : Option Instant := none
  /-- The key generation the pending datagrams were last tried against. -/
  triedGeneration : Nat := 0
  reassembler : Reassembler := .new kind.maxUnitFragments
  reorder : Reorder := {}
  lastUnitOverflowed : Bool := false
  /-- How often the sender was asked for a refresh. -/
  refreshes : Nat := 0
  /-- The task has returned. -/
  ended : Bool := false

namespace Track

variable (track : Track)

def askRefresh : Track := { track with refreshes := track.refreshes + 1 }

/-- Passes a unit to the consumer. The first video unit dropped in a run of full-channel drops
requests a refresh from the sender. -/
def deliver (unit : AccessUnit) : Track :=
  let out := track.out
  if ¬ out.closed ∧ out.units.length < out.capacity then
    { track with out := { out with units := out.units ++ [unit] }, lastUnitOverflowed := false }
  else
    let full := !out.closed
    let asking := if full ∧ track.kind = .video ∧ ¬ track.lastUnitOverflowed then track.askRefresh
      else track
    { asking with lastUnitOverflowed := full }

def emitOne (track : Track) : ReorderOutput → Track
  | .unit unit =>
    { track with reassembler := track.reassembler.forgetBefore unit.firstSeq }.deliver unit
  | .abandoned _ => track.askRefresh
  | .late => track

def emit (outputs : List ReorderOutput) : Track := outputs.foldl emitOne track

/-- Reassembles an opened datagram; the task ends if that goes wrong. -/
def push (header : Header) (plaintext : List UInt8) (now : Instant) : Track :=
  match track.reassembler.push header.seq header.flags plaintext with
  | none => { track with ended := true }
  | some (none, reassembler) => { track with reassembler }
  | some (some unit, reassembler) =>
    match track.kind with
    | .audio =>
      { track with
        reassembler :=
          reassembler.forgetBefore (unit.firstSeq - audioStragglerSeqs) }.deliver unit
    | .video =>
      let (outputs, reorder) := track.reorder.push unit now
      { track with reassembler, reorder }.emit outputs

def hold (arrival : Arrival) (generation : Nat) (now : Instant) : Track :=
  if track.pending.length < maxPending then
    { track with
      pending := track.pending ++ [{ arrival, triedAt := generation }]
      nextTick := some (track.nextTick.getD (now + tickEvery)) }
  else
    track

/-- Drops what has waited too long. -/
def expire (now : Instant) : Track :=
  { track with
    pending := track.pending.dropWhile fun held => pendingKeyWait ≤ now - held.arrival.arrived }

/-- What `tick` does after it retried. -/
def afterRetry (now : Instant) : Track :=
  let (outputs, reorder) := track.reorder.poll now
  { track with
    nextTick := if track.pending.isEmpty then none else some (now + tickEvery)
    reorder }.emit outputs

end Track

/-! ### Opening -/

/-- What comes of opening a datagram with the key of its epoch. -/
inductive Opening where
  /-- No key opens it yet. -/
  | waits
  | fails
  | opens (header : Header) (plaintext : List UInt8)
deriving DecidableEq, Repr

/-- A datagram the key doesn't open waits like one that has no key, as its sender may have
replaced its secret. -/
def Aead.opening {crypto : Crypto} (aead : Aead crypto) (key : Option crypto.TrackKey)
    (datagram : List UInt8) : Opening :=
  match key with
  | none => .waits
  | some key =>
    match aead.open_ key datagram with
    | .ok (header, plaintext) => .opens header plaintext
    | .error .auth => .waits
    | .error _ => .fails

/-! ### Calls -/

/-- How far a call of the task has come. -/
inductive Progress (crypto : Crypto) where
  /-- It looks at the generation next, then handles what just arrived. -/
  | retry (fresh : List Arrival)
  /-- It looks up the key of the first arrival next. -/
  | lookUp (arrivals : List Arrival)
  /-- It looked up the key of an arrival, at a generation, and takes the lock of the sinks next. -/
  | looked (arrival : Arrival) (key : Option crypto.TrackKey) (generation : Nat)
      (rest : List Arrival)

/-- What the call still has to handle. -/
def Progress.arrivals {crypto : Crypto} : Progress crypto → List Arrival
  | retry fresh => fresh
  | lookUp arrivals => arrivals
  | looked arrival _ _ rest => arrival :: rest

structure Call (crypto : Crypto) where
  now : Instant
  /-- It is a tick, not a datagram that arrived. -/
  ticking : Bool
  progress : Progress crypto

/-- A track's task with the locked state it shares. -/
structure Listening (crypto : Crypto) where
  keys : KeyManager crypto
  sinks : Map MediaId Sink
  track : Track
  call : Option (Call crypto)
  /-- How many datagrams arrived. -/
  arrivals : Nat
  opened : List Arrival

namespace Listening

variable {crypto : Crypto} (aead : Aead crypto)

/-- A track just subscribed to. -/
def new (keys : KeyManager crypto) (sinks : Map MediaId Sink) (mediaId : MediaId) (kind : Kind)
    (capacity : Nat) : Listening crypto where
  keys := keys
  sinks := sinks
  track := { mediaId, kind, out := { capacity } }
  call := none
  arrivals := 0
  opened := []

def receive (listening : Listening crypto) (datagram : List UInt8) (now : Instant) :
    Listening crypto :=
  if listening.track.out.closed then
    { listening with track := { listening.track with ended := true } }
  else
    let fresh : List Arrival :=
      match Header.parseStrict datagram with
      | .ok header =>
        [{ arrived := now, epoch := header.epoch, datagram, number := listening.arrivals,
           since := listening.keys.generation }]
      | .error _ => []
    { listening with
      call := some { now, ticking := false, progress := .retry fresh }
      arrivals := listening.arrivals + 1 }

def tick (listening : Listening crypto) (now : Instant) : Listening crypto :=
  { listening with
    track := listening.track.expire now
    call := some { now, ticking := true, progress := .retry [] } }

/-- Takes the pending datagrams, oldest first, if keys changed since the last try. -/
def retryPending (listening : Listening crypto) (call : Call crypto) (fresh : List Arrival) :
    Listening crypto :=
  let track := listening.track
  let generation := listening.keys.generation
  if track.pending.isEmpty ∨ generation = track.triedGeneration then
    { listening with call := some { call with progress := .lookUp fresh } }
  else
    { listening with
      track := { track with pending := [], triedGeneration := generation }
      call := some
        { call with progress := .lookUp (track.pending.map Held.arrival ++ fresh) } }

/-- The first half of `handle`, under the lock of the key manager. -/
def recvKey (listening : Listening crypto) (call : Call crypto) (arrival : Arrival)
    (rest : List Arrival) : Listening crypto :=
  let (key, keys) := listening.keys.recvKey listening.track.mediaId arrival.epoch
  { listening with
    keys
    call := some { call with progress := .looked arrival key keys.generation rest } }

/-- The rest of `handle` once a datagram is opened. -/
def accept (listening : Listening crypto) (header : Header) (plaintext : List UInt8)
    (length : Nat) (now : Instant) : Listening crypto :=
  match listening.sinks.lookup listening.track.mediaId with
  | none => listening
  | some sink =>
    let (seen, sink) := sink.accept header.seq length
    let listening :=
      { listening with sinks := listening.sinks.insert listening.track.mediaId sink }
    if seen = .new then { listening with track := listening.track.push header plaintext now }
    else listening

/-- The rest of `handle`. -/
def handle (listening : Listening crypto) (call : Call crypto) (arrival : Arrival)
    (key : Option crypto.TrackKey) (generation : Nat) (rest : List Arrival) : Listening crypto :=
  let listening :=
    { listening with call := some { call with progress := .lookUp rest } }
  match aead.opening key arrival.datagram with
  | .waits =>
    { listening with track := listening.track.hold arrival generation call.now }
  | .fails => listening
  | .opens header plaintext =>
    { listening with opened := listening.opened ++ [arrival] }.accept header plaintext
      arrival.datagram.length call.now

/-- The end of a call. -/
def finish (listening : Listening crypto) (call : Call crypto) : Listening crypto :=
  { listening with
    track := if call.ticking then listening.track.afterRetry call.now else listening.track
    call := none }

/-- Takes a call on to its next lock. -/
def resume (listening : Listening crypto) (call : Call crypto) : Listening crypto :=
  match call.progress with
  | .retry fresh => listening.retryPending call fresh
  | .lookUp [] => listening.finish call
  | .lookUp (arrival :: rest) => listening.recvKey call arrival rest
  | .looked arrival key generation rest => listening.handle aead call arrival key generation rest

inductive Input (crypto : Crypto) where
  /-- Another task uses the key manager. -/
  | perform (clock : Clock) (op : KeyOp crypto)
  /-- Other tasks change the sinks. -/
  | setSinks (sinks : Map MediaId Sink)
  /-- The consumer takes a unit, or drops its end. -/
  | consume
  | drop
  /-- The inbox closes. -/
  | close
  | receive (datagram : List UInt8) (now : Instant)
  | tick (now : Instant)
  | resume

/-- The task takes nothing new while a call goes on or after it returned. -/
def step (listening : Listening crypto) (input : Input crypto) : Listening crypto :=
  let track := listening.track
  let busy := listening.call.isSome || track.ended
  match input with
  | .perform clock op => { listening with keys := (listening.keys.perform clock op).2 }
  | .setSinks sinks => { listening with sinks }
  | .consume => { listening with track := { track with out.units := track.out.units.tail } }
  | .drop => { listening with track := { track with out.closed := true } }
  | .close => if busy then listening else { listening with track := { track with ended := true } }
  | .receive datagram now => if busy then listening else listening.receive datagram now
  | .tick now => if busy then listening else listening.tick now
  | .resume =>
    match listening.call with
    | none => listening
    | some call => if track.ended then listening else listening.resume aead call

end Listening

end Throcc
