/-
This file takes the key manager's operations apart into stages: the points at
which one has changed whom we trust or what we hold, with the sender keys
accepted on the way there. An operation that applies two room states goes
through a stage for each.
-/

import Throcc.KeyManager

namespace Throcc

/-- A sender secret accepted: in which room, from whom under which identity key, and of which
epoch. -/
structure Acceptance (crypto : Crypto) where
  room : RoomId
  sender : UserId
  epoch : Epoch
  identityKey : PublicKey
  secret : crypto.Secret

structure Stage (crypto : Crypto) where
  /-- The key manager just before it wraps its secret for a room, if it does. -/
  wrapping : Option (KeyManager crypto × RoomId)
  accepted : List (Acceptance crypto)
  after : KeyManager crypto

namespace KeyManager

variable {crypto : Crypto}

/-! ### Sender keys -/

/-- What `senderKeyAt` accepts of a sender key. -/
def accepts (keys : KeyManager crypto) (sender : UserId) (epoch : Epoch) (wrapped : List UInt8)
    (now : Instant) : Option (Acceptance crypto) :=
  match keys.room, keys.peers.lookup sender with
  | some room, some peer =>
    if keys.belowFloor epoch ∨ keys.epoch < epoch ∨
        epoch < keys.epoch ∧ keys.epochSince + oldKeyGrace ≤ now then
      none
    else
      (keys.unwrapWith peer.encryptionKey (keys.context room epoch sender keys.me) wrapped).map
        fun secret => { room, sender, epoch, identityKey := peer.identityKey, secret }
  | _, _ => none

/-- One turn of the loop over the sender keys held early. -/
def replayOne (now : Instant) (keys : KeyManager crypto)
    (held : (UserId ×ₗ Epoch) × Instant × List UInt8) : KeyManager crypto :=
  if now - held.2.1 < oldKeyGrace then
    (keys.senderKeyAt (ofLex held.1).1 (ofLex held.1).2 held.2.2 held.2.1 now).2
  else
    keys

/-- What that turn accepts. -/
def replayOneAccepts (now : Instant) (keys : KeyManager crypto)
    (held : (UserId ×ₗ Epoch) × Instant × List UInt8) : Option (Acceptance crypto) :=
  if now - held.2.1 < oldKeyGrace then
    keys.accepts (ofLex held.1).1 (ofLex held.1).2 held.2.2 now
  else
    none

/-- `replayEarly` when the map yields what it holds in `order`. -/
def replayIn (keys : KeyManager crypto)
    (order : List ((UserId ×ₗ Epoch) × Instant × List UInt8)) (now : Instant) :
    KeyManager crypto :=
  order.foldl (replayOne now) { keys with early := ∅ }

theorem replayEarly_eq (keys : KeyManager crypto) (now : Instant) :
    keys.replayEarly now = keys.replayIn keys.early.toList now := rfl

/-- What the turns of the loop accept one after another. -/
def replayAccepts (now : Instant) :
    KeyManager crypto → List ((UserId ×ₗ Epoch) × Instant × List UInt8) →
      List (Acceptance crypto)
  | _, [] => []
  | keys, held :: rest =>
    (keys.replayOneAccepts now held).toList ++ replayAccepts now (keys.replayOne now held) rest

/-! ### Room states -/

/-- Trusts whom a room state makes trusted. -/
def trusting (keys : KeyManager crypto) (room : RoomId) (peers : List Peer) (clock : Clock) :
    KeyManager crypto :=
  let trust := keys.trustOf room peers clock.unixNow
  { trust.keys with roomPeers := peers }.replacePeers trust.trusted clock.now

/-- A room state of our room applied. -/
def applied (keys : KeyManager crypto) (room : RoomId) (epoch : Epoch) (peers : List Peer)
    (clock : Clock) : Stage crypto :=
  let keyed := (keys.trusting room peers clock).rekey epoch clock.now
  let wrapped := (keyed.wrapForNewPeers room).2
  { wrapping := some (keyed, room)
    accepted := replayAccepts clock.now { wrapped with early := ∅ } wrapped.early.toList
    after := (keys.applyPeers room epoch peers clock).2 }

/-- A stage without any room state applied or sender key accepted. -/
def quiet (keys : KeyManager crypto) : Stage crypto :=
  { wrapping := none, accepted := [], after := keys }

def changed (keys : KeyManager crypto) (room : RoomId) (epoch : Epoch) (peers : List Peer)
    (clock : Clock) : Stage crypto :=
  if some room = keys.room ∧ keys.epoch ≤ epoch then keys.applied room epoch peers clock
  else quiet (keys.peersChanged room epoch peers clock).2

def unstashed (keys : KeyManager crypto) (room : RoomId) (epoch : Epoch) (clock : Clock) :
    Stage crypto :=
  match keys.stashed with
  | some (stashedRoom, stashedEpoch, stashedPeers) =>
    if stashedRoom = room ∧ epoch < stashedEpoch then
      { keys with stashed := none }.changed room stashedEpoch stashedPeers clock
    else
      quiet { keys with stashed := none }
  | none => quiet { keys with stashed := none }

def reapplied (keys : KeyManager crypto) (clock : Clock) : Stage crypto :=
  match keys.room with
  | none => quiet keys
  | some room => keys.changed room keys.epoch keys.roomPeers clock

/-! ### Operations -/

/-- The stages an operation goes through. -/
def stages (keys : KeyManager crypto) (clock : Clock) : KeyOp crypto → List (Stage crypto)
  | .placement room epoch tracks peers =>
    if room.isSome ∧ room = keys.room ∧ epoch < keys.epoch then
      [quiet keys]
    else
      let taken := (keys.changeRoom room).takePlace room tracks
      match room with
      | none => [quiet { taken with stashed := none }]
      | some room =>
        let first := taken.changed room epoch peers clock
        [quiet taken, first, first.after.unstashed room epoch clock]
  | .peers room epoch peers => [keys.changed room epoch peers clock]
  | .presence user room =>
    let (shown, keys) := keys.setPresence user room
    if shown then [quiet keys, keys.reapplied clock] else [quiet keys]
  | .senderKey sender epoch wrapped =>
    let accepted :=
      if wrapped.length ≠ wrappedBytes then [] else (keys.accepts sender epoch wrapped clock.now).toList
    [{ wrapping := none, accepted, after := (keys.senderKey sender epoch wrapped clock.now).2 }]
  | op => [quiet (keys.perform clock op).2]

end KeyManager

end Throcc
