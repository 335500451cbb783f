/-
This file embeds the receiving half of the media engine: the loop that hands
datagrams to the tracks' inboxes, subscriptions, placements with the clearing of
the replay windows, and the connections of a client, whose key managers share
the epoch floors.

A placement and the clearing it causes are one step. The calls of the tracks'
tasks go on lock by lock, and what a replaced connection has left to do may be
done after its successor started. Every datagram that reaches a reassembler is
put on record for the proofs only.
-/

import Throcc.Changes
import Throcc.Run
import Throcc.Track

namespace Throcc

/-- How many datagrams wait for a track's task. -/
def trackInbox : Nat := 1024

/-- A subscription: its track's task and the datagrams in its inbox. -/
structure Listener (crypto : Crypto) where
  track : Track
  inbox : List (List UInt8) := []
  call : Option (Call crypto) := none
  arrivals : Nat := 0
  opened : List Arrival := []

/-- The receiving half of one connection. -/
structure Receiver (crypto : Crypto) where
  keys : KeyManager crypto
  sinks : Map MediaId Sink := ∅
  /-- The subscription whose inbox a sink feeds, while it feeds one. -/
  inboxes : Map MediaId Nat := ∅
  listeners : List (Listener crypto) := []

namespace Listener

variable {crypto : Crypto}

/-- The task of a subscription with the locked state it shares. -/
def listening (listener : Listener crypto) (keys : KeyManager crypto) (sinks : Map MediaId Sink) :
    Listening crypto where
  keys := keys
  sinks := sinks
  track := listener.track
  call := listener.call
  arrivals := listener.arrivals
  opened := listener.opened

/-- The subscription after its task went on. -/
def resumed (listener : Listener crypto) (after : Listening crypto) : Listener crypto :=
  { listener with
    track := after.track
    call := after.call
    arrivals := after.arrivals
    opened := after.opened }

end Listener

namespace Listening

variable {crypto : Crypto} (aead : Aead crypto)

/-- The datagram that the rest of `handle` passes on to the reassembler, if it does: one it
opens, whose number is new to the track's window. -/
def handles (listening : Listening crypto) (arrival : Arrival) (key : Option crypto.TrackKey) :
    Option (List UInt8) :=
  match aead.opening key arrival.datagram with
  | .opens header _ =>
    match listening.sinks.lookup listening.track.mediaId with
    | some sink =>
      if sink.window.peek header.seq = .new then some arrival.datagram else none
    | none => none
  | .waits | .fails => none

/-- The datagram that a step of a task passes on to its reassembler, if it does. -/
def passes (listening : Listening crypto) : Input crypto → Option (List UInt8)
  | .resume =>
    match listening.call with
    | none => none
    | some call =>
      if listening.track.ended then none
      else
        match call.progress with
        | .looked arrival key _ _ => listening.handles aead arrival key
        | .retry _ | .lookUp _ => none
  | _ => none

end Listening

namespace Receiver

variable {crypto : Crypto} (aead : Aead crypto)

/-- Uses the key manager. A placement in another room forgets the sinks. -/
def perform (receiver : Receiver crypto) (clock : Clock) (op : KeyOp crypto) : Receiver crypto :=
  let keys := (receiver.keys.perform clock op).2
  match op with
  | .placement room _ _ _ =>
    if receiver.keys.room ≠ room then { receiver with keys, sinks := ∅, inboxes := ∅ }
    else { receiver with keys }
  | _ => { receiver with keys }

/-- Starts receiving a track. -/
def subscribe (receiver : Receiver crypto) (mediaId : MediaId) (kind : Kind) (capacity : Nat) :
    Receiver crypto :=
  { receiver with
    sinks := receiver.sinks.insert mediaId ((receiver.sinks.lookup mediaId).getD {})
    inboxes := receiver.inboxes.insert mediaId receiver.listeners.length
    listeners := receiver.listeners ++ [{ track := { mediaId, kind, out := { capacity } } }] }

def unsubscribe (receiver : Receiver crypto) (mediaId : MediaId) : Receiver crypto :=
  { receiver with inboxes := receiver.inboxes.erase mediaId }

/-- One turn of the receive loop. -/
def receive (receiver : Receiver crypto) (datagram : List UInt8) : Receiver crypto :=
  match Header.parseStrict datagram with
  | .error _ => receiver
  | .ok header =>
    match receiver.sinks.lookup header.mediaId, receiver.inboxes.lookup header.mediaId with
    | some sink, some index =>
      match receiver.listeners[index]? with
      | some listener =>
        if sink.window.peek header.seq ≠ .new then receiver
        else if listener.track.ended then
          { receiver with inboxes := receiver.inboxes.erase header.mediaId }
        else if listener.inbox.length < trackInbox then
          { receiver with
            listeners := receiver.listeners.set index
              { listener with inbox := listener.inbox ++ [datagram] } }
        else receiver
      | none => receiver
    | _, _ => receiver

/-- What a subscription's task and its consumer do. -/
inductive TaskInput where
  /-- The task takes the first datagram of its inbox. -/
  | take (now : Instant)
  /-- The inbox is closed and empty. -/
  | close
  | tick (now : Instant)
  | resume
  | consume
  | drop
deriving DecidableEq, Repr

/-- Whether a sink feeds the inbox of a subscription. -/
def feeds (receiver : Receiver crypto) (index : Nat) (listener : Listener crypto) : Bool :=
  receiver.inboxes.lookup listener.track.mediaId = some index

/-- The step of the task that it is, with what waits in its inbox. -/
def TaskInput.listening (inbox : List (List UInt8)) (fed : Bool) :
    TaskInput → Option (Listening.Input crypto)
  | .take now => inbox.head?.map fun datagram => .receive datagram now
  | .close => if fed ∨ inbox ≠ [] then none else some .close
  | .tick now => some (.tick now)
  | .resume => some .resume
  | .consume => some .consume
  | .drop => some .drop

/-- What is left in the inbox. A task that handles a datagram or has returned takes none. -/
def TaskInput.inbox (listener : Listener crypto) : TaskInput → List (List UInt8)
  | .take _ =>
    if listener.call.isSome ∨ listener.track.ended then listener.inbox else listener.inbox.tail
  | _ => listener.inbox

def task (receiver : Receiver crypto) (index : Nat) (input : TaskInput) : Receiver crypto :=
  match receiver.listeners[index]? with
  | none => receiver
  | some listener =>
    match input.listening listener.inbox (receiver.feeds index listener) with
    | none => receiver
    | some step =>
      let after := (listener.listening receiver.keys receiver.sinks).step aead step
      { receiver with
        keys := after.keys
        sinks := after.sinks
        listeners := receiver.listeners.set index
          { listener.resumed after with inbox := input.inbox listener } }

inductive Input (crypto : Crypto) where
  | perform (clock : Clock) (op : KeyOp crypto)
  | subscribe (mediaId : MediaId) (kind : Kind) (capacity : Nat)
  | unsubscribe (mediaId : MediaId)
  | receive (datagram : List UInt8)
  | task (index : Nat) (input : TaskInput)

def step (receiver : Receiver crypto) : Input crypto → Receiver crypto
  | .perform clock op => receiver.perform clock op
  | .subscribe mediaId kind capacity => receiver.subscribe mediaId kind capacity
  | .unsubscribe mediaId => receiver.unsubscribe mediaId
  | .receive datagram => receiver.receive datagram
  | .task index input => receiver.task aead index input

/-- The datagram that a step passes on to a reassembler, if it does. -/
def passes (receiver : Receiver crypto) : Input crypto → Option (List UInt8)
  | .task index input =>
    receiver.listeners[index]?.bind fun listener =>
      (input.listening listener.inbox (receiver.feeds index listener)).bind fun step =>
        (listener.listening receiver.keys receiver.sinks).passes aead step
  | .perform _ _ | .subscribe _ _ _ | .unsubscribe _ | .receive _ => none

end Receiver

/-! ### A client's connections -/

/-- The connections a client has made one after another to one server. -/
structure Receiving (crypto : Crypto) where
  me : UserId
  server : Fingerprint
  floors : EpochFloors
  drawn : Nat
  receivers : List (Receiver crypto)
  /-- Every datagram that reached a reassembler. -/
  reached : List (List UInt8)

namespace Receiving

variable {crypto : Crypto} (aead : Aead crypto)

def new (me : UserId) (server : Fingerprint) (floors : EpochFloors) (drawn : Nat) :
    Receiving crypto where
  me := me
  server := server
  floors := floors
  drawn := drawn
  receivers := []
  reached := []

inductive Input (crypto : Crypto) where
  /-- Connects, with a new key manager and no replay windows yet. -/
  | connect (encryption : crypto.KeyPair) (now : Instant)
  | on (connection : Nat) (input : Receiver.Input crypto)

/-- A receiver with the floors its client has now. -/
def shared (receiving : Receiving crypto) (receiver : Receiver crypto) : Receiver crypto :=
  { receiver with
    keys := { receiver.keys with floors := receiving.floors, drawn := receiving.drawn } }

def step (receiving : Receiving crypto) : Input crypto → Receiving crypto
  | .connect encryption now =>
    let keys := .new receiving.me encryption receiving.server receiving.floors now receiving.drawn
    { receiving with receivers := receiving.receivers ++ [{ keys }] }
  | .on index input =>
    match receiving.receivers[index]? with
    | none => receiving
    | some receiver =>
      let after := (receiving.shared receiver).step aead input
      { receiving with
        floors := after.keys.floors
        drawn := after.keys.drawn
        receivers := receiving.receivers.set index after
        reached := receiving.reached ++ (receiver.passes aead input).toList }

end Receiving

end Throcc
