/-
This file embeds the client's key manager: the per-epoch sender secrets of one
room, ours wrapped to every trusted peer and theirs as they arrive.

The cryptography is a parameter. A key manager draws its secrets from an
enumeration `random`, counting in `drawn` how many it has taken, so that two
draws are told apart by their positions. Two records are kept for the proofs
only: `wraps`, what every entry of every published request seals and to whom,
and `stores`, every sender key stored and when.
-/

import Throcc.Map
import Throcc.Proto
import Mathlib.Data.Prod.Lex

namespace Throcc

/-- How long a sender's previous epoch key stays usable after it moves on. -/
def oldKeyGrace : Duration := fromSecs 2

/-- How long our encryption key still unwraps secrets after a renewal replaced it. -/
def retiredEncryptionKept : Duration := oldKeyGrace * 5

/-- Sender keys kept from senders the room state hasn't named yet. -/
def maxEarly : Nat := 2 * maxRoomMembers

/-- A wrapped sender secret: the encapsulated key, then the sealed secret and its tag. -/
def wrappedBytes : Nat := 32 + 32 + 16

/-- Binds a wrapped sender secret to one room generation, sender and recipient. -/
structure WrapContext where
  server : Fingerprint
  room : RoomId
  epoch : Epoch
  sender : UserId
  recipient : UserId
deriving DecidableEq

/-- The cryptography the key manager calls. -/
structure Crypto where
  KeyPair : Type
  Secret : Type
  TrackKey : Type
  publicKey : KeyPair → PublicKey
  wrap : KeyPair → PublicKey → WrapContext → Secret → Option (List UInt8)
  unwrap : KeyPair → PublicKey → WrapContext → List UInt8 → Option Secret
  verify : PublicKey → List UInt8 → Signature → Bool
  derive : Secret → MediaId → TrackKey
  random : Nat → Secret

/-- The newest epoch we took part in, per user of ours and room, on one server. -/
structure EpochFloors where
  epochs : Map (UserId × RoomId) Epoch := ∅
  unsaved : Bool := false

namespace EpochFloors

def get (floors : EpochFloors) (user : UserId) (room : RoomId) : Option Epoch :=
  floors.epochs.lookup (user, room)

def raise (floors : EpochFloors) (user : UserId) (room : RoomId) (epoch : Epoch) : EpochFloors :=
  if (floors.get user room).all (· < epoch) then
    { epochs := floors.epochs.insert (user, room) epoch, unsaved := true }
  else
    floors

end EpochFloors

inductive KeyNotice where
  | badEncryptionKey (user : UserId)
  | clashingTracks
  | tooManyPeers
  | oldEpoch
deriving DecidableEq, Repr

inductive KeyError where
  | stale
  | length
  | unwrap
deriving DecidableEq, Repr

structure KeyPeer where
  identityKey : PublicKey
  encryptionKey : PublicKey
  tracks : Tracks
deriving DecidableEq, Repr

structure Received (crypto : Crypto) where
  secret : crypto.Secret
  retireAt : Option Instant

/-- What one entry of a published request seals, and to which key. -/
structure Wrap (crypto : Crypto) where
  user : UserId
  encryptionKey : PublicKey
  context : WrapContext
  secret : crypto.Secret
  blob : List UInt8

/-- A sender key stored: in which room, while at which epoch since when, and of which epoch. -/
structure Stored where
  room : RoomId
  current : Epoch
  since : Instant
  sender : UserId
  epoch : Epoch
  storedAt : Instant
deriving DecidableEq, Repr

structure KeyManager (crypto : Crypto) where
  me : UserId
  encryption : crypto.KeyPair
  /-- Our encryption key before the last renewal, until the time it is dropped. -/
  retiredEncryption : Option (crypto.KeyPair × Instant)
  server : Fingerprint
  /-- The room each user's presence shows them in. -/
  present : Map UserId RoomId
  /-- The peers of the room state last applied, as the server sent them. -/
  roomPeers : List Peer
  room : Option RoomId
  epoch : Epoch
  epochSince : Instant
  floors : EpochFloors
  /-- The newest epoch we took part in for this room before we were placed in it. -/
  floor : Option Epoch
  myTracks : Option Tracks
  peers : Map UserId KeyPeer
  owners : Map MediaId UserId
  mySecret : Option crypto.Secret
  /-- Who our current secret was wrapped to, by the encryption key it was wrapped to. -/
  wrappedTo : Finset (UserId × PublicKey)
  /-- Peers whose encryption key HPKE refused to wrap to, with that key. -/
  unwrappable : Map UserId PublicKey
  checkedSignatures : Map UserId (PublicKey × SignedEncryptionKey × Bool)
  sendKeys : Map MediaId crypto.TrackKey
  received : Map (UserId × Epoch) (Received crypto)
  recvKeys : Map (MediaId × Epoch) (UserId × crypto.TrackKey)
  /-- Sender keys that arrived before the room state they belong to. -/
  early : Map (UserId ×ₗ Epoch) (Instant × List UInt8)
  /-- The newest room state for a room we haven't been placed in yet. -/
  stashed : Option (RoomId × Epoch × List Peer)
  generation : Nat
  drawn : Nat
  wraps : List (Wrap crypto)
  stores : List Stored

namespace KeyManager

variable {crypto : Crypto}

/-- `KeyManager::new`, made at `now` by a client that has drawn `drawn` secrets before. -/
def new (me : UserId) (encryption : crypto.KeyPair) (server : Fingerprint) (floors : EpochFloors)
    (now : Instant) (drawn : Nat) : KeyManager crypto where
  me := me
  encryption := encryption
  retiredEncryption := none
  server := server
  present := ∅
  roomPeers := []
  room := none
  epoch := 0
  epochSince := now
  floors := floors
  floor := none
  myTracks := none
  peers := ∅
  owners := ∅
  mySecret := none
  wrappedTo := ∅
  unwrappable := ∅
  checkedSignatures := ∅
  sendKeys := ∅
  received := ∅
  recvKeys := ∅
  early := ∅
  stashed := none
  generation := 0
  drawn := drawn
  wraps := []
  stores := []

/-! ### Sender keys -/

/-- True for an epoch whose sender keys and media can only be a replay: one at or before
the floor, or before the one preceding ours. -/
def belowFloor (keys : KeyManager crypto) (epoch : Epoch) : Bool :=
  keys.floor.any (epoch ≤ ·) ∨ min (epoch + 1) u32Max < keys.epoch

def context (keys : KeyManager crypto) (room : RoomId) (epoch : Epoch) (sender recipient : UserId) :
    WrapContext :=
  { server := keys.server, room, epoch, sender, recipient }

/-- Starts the grace period of the received secrets `which` picks, unless one has started. -/
def retireReceived (keys : KeyManager crypto) (now : Instant) (which : UserId → Epoch → Bool) :
    KeyManager crypto :=
  { keys with
    received := keys.received.mapValues fun key received =>
      if which key.1 key.2 ∧ received.retireAt.isNone then
        { received with retireAt := some (now + oldKeyGrace) }
      else
        received }

/-- Unwraps with our encryption key, or else with the one a renewal replaced. -/
def unwrapWith (keys : KeyManager crypto) (encryptionKey : PublicKey) (context : WrapContext)
    (wrapped : List UInt8) : Option crypto.Secret :=
  (crypto.unwrap keys.encryption encryptionKey context wrapped).or
    (keys.retiredEncryption.bind fun retired =>
      crypto.unwrap retired.1 encryptionKey context wrapped)

/-- Stores a secret unwrapped from `sender`, retiring the ones it replaces. -/
def store (keys : KeyManager crypto) (room : RoomId) (sender : UserId) (epoch : Epoch)
    (received : Received crypto) (now : Instant) : KeyManager crypto :=
  let keys := keys.retireReceived now fun user old => user = sender ∧ old < epoch
  { keys with
    stores := keys.stores ++
      [{ room, current := keys.epoch, since := keys.epochSince, sender, epoch, storedAt := now }]
    received := keys.received.insert (sender, epoch) received
    recvKeys := keys.recvKeys.retain fun key cached => !(cached.1 = sender ∧ key.2 = epoch)
    generation := keys.generation + 1 }

/-- Holds a sender key until its room state arrives, while there is space. -/
def holdEarly (keys : KeyManager crypto) (sender : UserId) (epoch : Epoch) (wrapped : List UInt8)
    (arrived : Instant) : KeyManager crypto :=
  if keys.early.keys.card < maxEarly ∨ toLex (sender, epoch) ∈ keys.early then
    { keys with early := keys.early.insert (toLex (sender, epoch)) (arrived, wrapped) }
  else
    keys

def senderKeyAt (keys : KeyManager crypto) (sender : UserId) (epoch : Epoch)
    (wrapped : List UInt8) (arrived now : Instant) : Except KeyError Unit × KeyManager crypto :=
  if keys.belowFloor epoch then
    (.error .stale, keys)
  else
    match keys.room, keys.peers.lookup sender with
    | some room, some peer =>
      if epoch ≤ keys.epoch then
        let ends := keys.epochSince + oldKeyGrace
        if epoch < keys.epoch ∧ ends ≤ now then
          (.error .stale, keys)
        else
          match keys.unwrapWith peer.encryptionKey (keys.context room epoch sender keys.me)
            wrapped with
          | none => (.error .unwrap, keys)
          | some secret =>
            let retireAt := if epoch < keys.epoch then some ends else none
            (.ok (), keys.store room sender epoch { secret, retireAt } now)
      else
        (.ok (), keys.holdEarly sender epoch wrapped arrived)
    | _, _ => (.ok (), keys.holdEarly sender epoch wrapped arrived)

/-- Stores a peer's sender secret. One that arrives before its room state is held for up to
`oldKeyGrace`. One for an earlier epoch is accepted only within the grace period after our
epoch moved on, and expires with it. -/
def senderKey (keys : KeyManager crypto) (sender : UserId) (epoch : Epoch) (wrapped : List UInt8)
    (now : Instant) : Except KeyError Unit × KeyManager crypto :=
  if wrapped.length ≠ wrappedBytes then
    (.error .length, keys)
  else
    keys.senderKeyAt sender epoch wrapped now now

/-- Tries every sender key held early again, except those held past their time. -/
def replayEarly (keys : KeyManager crypto) (now : Instant) : KeyManager crypto :=
  keys.early.toList.foldl
    (fun keys held =>
      if now - held.2.1 < oldKeyGrace then
        (keys.senderKeyAt (ofLex held.1).1 (ofLex held.1).2 held.2.2 held.2.1 now).2
      else
        keys)
    { keys with early := ∅ }

/-! ### Room states -/

/-- True when a user or a media id appears twice, counting our own tracks. -/
def clashingTracks (keys : KeyManager crypto) (peers : List Peer) : Bool :=
  let others := peers.filter (·.user ≠ keys.me)
  let theirs := others.flatMap fun peer => trackIds peer.tracks
  let mine := (keys.myTracks.map trackIds).getD []
  ¬ (others.map (·.user)).Nodup ∨ ¬ (mine ++ theirs).Nodup

/-- Whether `peer`'s identity key signed its encryption key, for `server` and its user. -/
def vouched (crypto : Crypto) (server : Fingerprint) (peer : Peer) : Bool :=
  crypto.verify peer.identityKey
    (encryptionKeyMessage server peer.user peer.encryptionKey.notAfter peer.encryptionKey.key)
    peer.encryptionKey.sig

/-- Whether `peer`'s encryption key is signed by its identity key, verified unless the same
keys were before. -/
def signedByIdentity (keys : KeyManager crypto) (peer : Peer) : Bool × KeyManager crypto :=
  let holds := vouched crypto keys.server peer
  let checked :=
    { keys with
      checkedSignatures :=
        keys.checkedSignatures.insert peer.user (peer.identityKey, peer.encryptionKey, holds) }
  match keys.checkedSignatures.lookup peer.user with
  | some (identityKey, encryptionKey, held) =>
    if identityKey = peer.identityKey ∧ encryptionKey = peer.encryptionKey then (held, keys)
    else (holds, checked)
  | none => (holds, checked)

/-- What is kept of a trusted peer. -/
def keyPeer (peer : Peer) : KeyPeer where
  identityKey := peer.identityKey
  encryptionKey := peer.encryptionKey.key
  tracks := peer.tracks

/-- What the loop of `trustedPeers` has built so far. -/
structure Trusting (crypto : Crypto) where
  trusted : Map UserId KeyPeer
  notices : List KeyNotice
  keys : KeyManager crypto

/-- One turn of the loop of `trustedPeers`. -/
def trustPeer (unixNow : Nat) (sofar : Trusting crypto) (peer : Peer) : Trusting crypto :=
  let distrusted (keys : KeyManager crypto) : Trusting crypto :=
    { sofar with notices := sofar.notices ++ [.badEncryptionKey peer.user], keys }
  if peer.encryptionKey.notAfter ≤ unixNow then
    distrusted sofar.keys
  else
    let (signed, keys) := sofar.keys.signedByIdentity peer
    if ¬ signed then
      distrusted keys
    else if keys.unwrappable.lookup peer.user = some peer.encryptionKey.key then
      { sofar with keys }
    else
      { sofar with trusted := sofar.trusted.insert peer.user (keyPeer peer), keys }

/-- Whether `peer` is someone else whose presence shows them in `room`. -/
def shows (keys : KeyManager crypto) (room : RoomId) (peer : Peer) : Bool :=
  peer.user ≠ keys.me ∧ keys.present.lookup peer.user = some room

/-- Peers shown in `room` by their presence whose encryption key is current and validly
signed by the identity key they present, leaving out those HPKE refused before. -/
def trustedPeers (keys : KeyManager crypto) (room : RoomId) (peers : List Peer) (unixNow : Nat) :
    Trusting crypto :=
  let listed (user : UserId) : Bool := user ∈ peers.map (·.user)
  let keys :=
    { keys with
      checkedSignatures := keys.checkedSignatures.retain fun user _ => listed user
      unwrappable := keys.unwrappable.retain fun user _ => listed user }
  (peers.filter (keys.shows room)).foldl (trustPeer unixNow) { trusted := ∅, notices := [], keys }

/-- Moves to `epoch`, if that is another one, and raises the room's floor to it. -/
def moveTo (keys : KeyManager crypto) (epoch : Epoch) (now : Instant) : KeyManager crypto :=
  if epoch ≠ keys.epoch then
    { keys.retireReceived now fun _ old => old < epoch with
      epoch
      epochSince := now
      floors :=
        match keys.room with
        | some room => keys.floors.raise keys.me room epoch
        | none => keys.floors }
  else
    keys

/-- Draws a new secret and derives the keys of our tracks from it. -/
def newSecret (keys : KeyManager crypto) : KeyManager crypto :=
  let secret := crypto.random keys.drawn
  { keys with
    drawn := keys.drawn + 1
    sendKeys :=
      Map.ofList (((keys.myTracks.map trackIds).getD []).map fun id => (id, crypto.derive secret id))
    mySecret := some secret
    wrappedTo := ∅ }

def startEpoch (keys : KeyManager crypto) (epoch : Epoch) (now : Instant) : KeyManager crypto :=
  (keys.moveTo epoch now).newSecret

/-- The peers that lack our secret. -/
def lacking (keys : KeyManager crypto) : List (UserId × KeyPeer) :=
  keys.peers.toList.filter fun entry => (entry.1, entry.2.encryptionKey) ∉ keys.wrappedTo

/-- What HPKE makes of wrapping `secret` to a peer. -/
def wrapTo (keys : KeyManager crypto) (room : RoomId) (secret : crypto.Secret)
    (entry : UserId × KeyPeer) : Option (List UInt8) :=
  crypto.wrap keys.encryption entry.2.encryptionKey
    (keys.context room keys.epoch keys.me entry.1) secret

/-- The wraps HPKE makes of `secret` for the peers that lack ours. -/
def newWraps (keys : KeyManager crypto) (room : RoomId) (secret : crypto.Secret) :
    List (Wrap crypto) :=
  keys.lacking.filterMap fun entry => (keys.wrapTo room secret entry).map fun blob =>
    { user := entry.1
      encryptionKey := entry.2.encryptionKey
      context := keys.context room keys.epoch keys.me entry.1
      secret
      blob }

/-- The peers that lack our secret and whose key HPKE refuses. -/
def refused (keys : KeyManager crypto) (room : RoomId) (secret : crypto.Secret) :
    List (UserId × KeyPeer) :=
  keys.lacking.filter fun entry => (keys.wrapTo room secret entry).isNone

/-- Wraps our secret to the peers that lack it. Returns the request, and the peers whose key
HPKE refused, who are left out from now on. -/
def wrapForNewPeers (keys : KeyManager crypto) (room : RoomId) :
    (Option Request × List UserId) × KeyManager crypto :=
  match keys.mySecret with
  | none => ((none, []), keys)
  | some secret =>
    let wrapped := keys.newWraps room secret
    let refused := keys.refused room secret
    let out (user : UserId) : Bool := user ∈ refused.map Prod.fst
    let peers := keys.peers.retain fun user _ => !out user
    let request :=
      if wrapped.isEmpty then none
      else some (.publishSenderKey keys.epoch (wrapped.map fun wrap => (wrap.user, wrap.blob)))
    ((request, refused.map Prod.fst),
      { keys with
        unwrappable :=
          refused.foldl (fun map entry => map.insert entry.1 entry.2.encryptionKey) keys.unwrappable
        peers
        owners := keys.owners.retain fun _ owner => !out owner
        wrappedTo :=
          keys.wrappedTo ∪ (wrapped.filterMap fun wrap =>
            (peers.lookup wrap.user).map fun peer => (wrap.user, peer.encryptionKey)).toFinset
        wraps := keys.wraps ++ wrapped })

/-- The set of trusted peers with their encryption keys. -/
def peerSet (peers : Map UserId KeyPeer) : Finset (UserId × PublicKey) :=
  (peers.toList.map fun entry => (entry.1, entry.2.encryptionKey)).toFinset

/-- Whose tracks each media id is. -/
def ownersOf (peers : Map UserId KeyPeer) : Map MediaId UserId :=
  Map.ofList (peers.toList.flatMap fun entry => (trackIds entry.2.tracks).map fun id => (id, entry.1))

/-- Why a room state can't be one the server means, if it can't. -/
def invalid (keys : KeyManager crypto) (peers : List Peer) : Option KeyNotice :=
  if peers.length > maxRoomMembers then some .tooManyPeers
  else if keys.clashingTracks peers then some .clashingTracks
  else none

/-- Whom a room state makes trusted: nobody if it is invalid. -/
def trustOf (keys : KeyManager crypto) (room : RoomId) (peers : List Peer) (unixNow : Nat) :
    Trusting crypto :=
  match keys.invalid peers with
  | some notice =>
    { trusted := ∅, notices := if keys.roomPeers = peers then [] else [notice], keys }
  | none => keys.trustedPeers room peers unixNow

/-- Replaces the trusted peers, retiring the secrets of those no longer trusted under the
identity key they had. -/
def replacePeers (keys : KeyManager crypto) (trusted : Map UserId KeyPeer) (now : Instant) :
    KeyManager crypto :=
  let departed (user : UserId) : Bool :=
    (keys.peers.lookup user).any fun old =>
      (trusted.lookup user).all fun new => new.identityKey ≠ old.identityKey
  let keys := keys.retireReceived now fun user _ => departed user
  { keys with peers := trusted, owners := ownersOf trusted }

/-- Starts a new epoch or a new secret where the trusted peers or the epoch call for one. -/
def rekey (keys : KeyManager crypto) (epoch : Epoch) (now : Instant) : KeyManager crypto :=
  if epoch ≠ keys.epoch ∨ keys.mySecret.isNone ∨ peerSet keys.peers ≠ keys.wrappedTo then
    keys.startEpoch epoch now
  else
    keys

/-- Keeps a room state of a room we haven't been placed in, unless a newer one is kept. -/
def stash (keys : KeyManager crypto) (room : RoomId) (epoch : Epoch) (peers : List Peer) :
    KeyManager crypto :=
  if keys.stashed.all fun kept => kept.1 ≠ room ∨ kept.2.1 < epoch then
    { keys with stashed := some (room, epoch, peers) }
  else
    keys

/-- Applies a room state of the room we are in, no older than the one applied last. -/
def applyPeers (keys : KeyManager crypto) (room : RoomId) (epoch : Epoch) (peers : List Peer)
    (clock : Clock) : (Option Request × List KeyNotice) × KeyManager crypto :=
  let trust := keys.trustOf room peers clock.unixNow
  let keys := { trust.keys with roomPeers := peers }
  let keys := (keys.replacePeers trust.trusted clock.now).rekey epoch clock.now
  let ((request, refused), keys) := keys.wrapForNewPeers room
  let keys := keys.replayEarly clock.now
  ((request, trust.notices ++ refused.map .badEncryptionKey),
    { keys with generation := keys.generation + 1 })

/-- Applies a `PeersChanged`. -/
def peersChanged (keys : KeyManager crypto) (room : RoomId) (epoch : Epoch) (peers : List Peer)
    (clock : Clock) : (Option Request × List KeyNotice) × KeyManager crypto :=
  if some room ≠ keys.room then
    ((none, []), keys.stash room epoch peers)
  else if epoch < keys.epoch then
    ((none, []), keys)
  else
    keys.applyPeers room epoch peers clock

/-! ### Placements and presence -/

/-- Forgets what belonged to the room we were in, if we change rooms. -/
def changeRoom (keys : KeyManager crypto) (room : Option RoomId) : KeyManager crypto :=
  if room ≠ keys.room then
    { keys with
      received := ∅
      recvKeys := ∅
      peers := ∅
      owners := ∅
      roomPeers := []
      unwrappable := ∅
      epoch := 0
      floor := room.bind (keys.floors.get keys.me) }
  else
    keys

/-- Takes the place a placement gives us, without a secret yet. -/
def takePlace (keys : KeyManager crypto) (room : Option RoomId) (tracks : Option Tracks) :
    KeyManager crypto :=
  { keys with room, myTracks := tracks, mySecret := none, sendKeys := ∅, wrappedTo := ∅ }

/-- Takes the stashed room state and applies it if it is a later one of `room`. -/
def unstash (keys : KeyManager crypto) (room : RoomId) (epoch : Epoch) (clock : Clock) :
    (Option Request × List KeyNotice) × KeyManager crypto :=
  match keys.stashed with
  | some (stashedRoom, stashedEpoch, stashedPeers) =>
    if stashedRoom = room ∧ epoch < stashedEpoch then
      { keys with stashed := none }.peersChanged room stashedEpoch stashedPeers clock
    else
      ((none, []), { keys with stashed := none })
  | none => ((none, []), { keys with stashed := none })

/-- Applies our placement after `JoinRoom` or `LeaveRoom`. Returns the `PublishSenderKey`
requests to send. -/
def applyPlacement (keys : KeyManager crypto) (room : Option RoomId) (epoch : Epoch)
    (tracks : Option Tracks) (peers : List Peer) (clock : Clock) :
    (List Request × List KeyNotice) × KeyManager crypto :=
  if room.isSome ∧ room = keys.room ∧ epoch < keys.epoch then
    (([], []), keys)
  else
    let keys := keys.changeRoom room
    let notices := if room.isSome ∧ keys.belowFloor epoch then [KeyNotice.oldEpoch] else []
    let keys := keys.takePlace room tracks
    match room with
    | none => (([], notices), { keys with stashed := none })
    | some room =>
      let (first, keys) := keys.peersChanged room epoch peers clock
      let (later, keys) := keys.unstash room epoch clock
      ((first.1.toList ++ later.1.toList, notices ++ first.2 ++ later.2), keys)

/-- Records the room `user`'s presence shows them in. True when that changes who is shown in
our room, so the current room state should be applied again. -/
def setPresence (keys : KeyManager crypto) (user : UserId) (room : Option RoomId) :
    Bool × KeyManager crypto :=
  let before := keys.present.lookup user
  let answer : Bool :=
    user ≠ keys.me ∧ keys.room.isSome ∧ (before = keys.room ↔ ¬ room = keys.room)
  match room with
  | some place =>
    if maxSignedIn ≤ keys.present.keys.card ∧ user ∉ keys.present then (false, keys)
    else (answer, { keys with present := keys.present.insert user place })
  | none => (answer, { keys with present := keys.present.erase user })

/-- Applies the room state last applied again, after a presence changed. -/
def reapplyPeers (keys : KeyManager crypto) (clock : Clock) :
    (Option Request × List KeyNotice) × KeyManager crypto :=
  match keys.room with
  | none => ((none, []), keys)
  | some room => keys.peersChanged room keys.epoch keys.roomPeers clock

/-- Switches to a renewed encryption key, keeping the old one for a short while. -/
def replaceEncryption (keys : KeyManager crypto) (encryption : crypto.KeyPair) (now : Instant) :
    KeyManager crypto :=
  { keys with
    encryption
    retiredEncryption := some (keys.encryption, now + retiredEncryptionKept) }

/-- The peers our key is wrapped to, as the server described them. -/
def trustedRoomPeers (keys : KeyManager crypto) : List Peer :=
  keys.roomPeers.filter fun peer => peer.user ∈ keys.peers

/-! ### Keys in use -/

/-- The key and epoch to send on one of our tracks. -/
def sendKey (keys : KeyManager crypto) (mediaId : MediaId) : Option (Epoch × crypto.TrackKey) :=
  (keys.sendKeys.lookup mediaId).map fun key => (keys.epoch, key)

/-- The key for `mediaId` at `epoch`, from the secret of whoever the room state last applied
says sends on it. A cached key counts only while that is still who it was derived for. -/
def recvKey (keys : KeyManager crypto) (mediaId : MediaId) (epoch : Epoch) :
    Option crypto.TrackKey × KeyManager crypto :=
  if keys.belowFloor epoch then
    (none, keys)
  else
    match keys.owners.lookup mediaId with
    | none => (none, keys)
    | some owner =>
      let derived : Option crypto.TrackKey × KeyManager crypto :=
        match keys.received.lookup (owner, epoch) with
        | none => (none, keys)
        | some received =>
          let key := crypto.derive received.secret mediaId
          (some key, { keys with recvKeys := keys.recvKeys.insert (mediaId, epoch) (owner, key) })
      match keys.recvKeys.lookup (mediaId, epoch) with
      | some (cachedFor, key) => if cachedFor = owner then (some key, keys) else derived
      | none => derived

/-- Drops keys whose grace period has ended, and sender keys held past their time. -/
def tick (keys : KeyManager crypto) (now : Instant) : KeyManager crypto :=
  let received := keys.received.retain fun _ received => received.retireAt.all (now < ·)
  { keys with
    retiredEncryption := keys.retiredEncryption.filter fun retired => now < retired.2
    received
    recvKeys := keys.recvKeys.retain fun key cached => (cached.1, key.2) ∈ received
    early := keys.early.retain fun _ held => now - held.1 < oldKeyGrace }

end KeyManager

/-! ### Operations -/

/-- What a client does with its key manager. -/
inductive KeyOp (crypto : Crypto) where
  | placement (room : Option RoomId) (epoch : Epoch) (tracks : Option Tracks) (peers : List Peer)
  | peers (room : RoomId) (epoch : Epoch) (peers : List Peer)
  | presence (user : UserId) (room : Option RoomId)
  | senderKey (sender : UserId) (epoch : Epoch) (wrapped : List UInt8)
  | renew (encryption : crypto.KeyPair)
  | receive (mediaId : MediaId) (epoch : Epoch)
  | tick

/-- Performs an operation, reapplying the room state after a presence that calls for it.
Returns the requests to send. -/
def KeyManager.perform {crypto : Crypto} (keys : KeyManager crypto) (clock : Clock) :
    KeyOp crypto → List Request × KeyManager crypto
  | .placement room epoch tracks peers =>
    let ((requests, _), keys) := keys.applyPlacement room epoch tracks peers clock
    (requests, keys)
  | .peers room epoch peers =>
    let ((request, _), keys) := keys.peersChanged room epoch peers clock
    (request.toList, keys)
  | .presence user room =>
    let (shown, keys) := keys.setPresence user room
    if shown then
      let ((request, _), keys) := keys.reapplyPeers clock
      (request.toList, keys)
    else
      ([], keys)
  | .senderKey sender epoch wrapped => ([], (keys.senderKey sender epoch wrapped clock.now).2)
  | .renew encryption => ([], keys.replaceEncryption encryption clock.now)
  | .receive mediaId epoch => ([], (keys.recvKey mediaId epoch).2)
  | .tick => ([], keys.tick clock.now)

/-! ### A cryptography to compute with -/

/-- The 16 bytes that tie a wrap of `openCrypto` to its context and its recipient's key. -/
def openTag (context : WrapContext) (recipientKey : PublicKey) : List UInt8 :=
  bytesBe 2 context.server.toNat ++ bytesBe 2 context.room ++ bytesBe 4 context.epoch ++
    bytesBe 2 context.sender ++ bytesBe 2 context.recipient ++ bytesBe 4 recipientKey.toNat

/-- A cryptography that ties what it wraps to both keys and the context, as the real one
does, but hides nothing, so that runs can be computed. It refuses the zero key; its only
valid signature is one. -/
def openCrypto : Crypto where
  KeyPair := Nat
  Secret := Nat
  TrackKey := Nat × MediaId
  publicKey pair := BitVec.ofNat 256 pair
  wrap own recipientKey context secret :=
    if recipientKey = 0 then none
    else some (bytesBe 32 own ++ openTag context recipientKey ++ bytesBe 32 secret)
  unwrap own senderKey context wrapped :=
    if wrapped.take 48 = bytesBe 32 senderKey.toNat ++ openTag context (BitVec.ofNat 256 own) then
      some ((wrapped.drop 48).foldl (fun value byte => 256 * value + byte.toNat) 0)
    else none
  verify _ _ signature := signature = 1
  derive secret id := (secret, id)
  random draw := draw

instance : DecidableEq openCrypto.Secret := inferInstanceAs (DecidableEq Nat)

instance : DecidableEq openCrypto.TrackKey := inferInstanceAs (DecidableEq (Nat × MediaId))

/-- A peer of `openCrypto` whose key pair is its user id plus 200. -/
def openPeer (user : UserId) : Peer where
  user := user
  tracks := { mic := 10 * user, shares := [{ video := 10 * user + 1, audio := 10 * user + 2 }] }
  share := none
  identityKey := BitVec.ofNat 256 (100 + user)
  encryptionKey := { key := BitVec.ofNat 256 (200 + user), notAfter := 1000, sig := 1 }

/-- The key manager of that peer. -/
def openKeys (user : UserId) (floors : EpochFloors) : KeyManager openCrypto :=
  .new user (200 + user : Nat) 7 floors 0 0

/-- What that peer sends another one in room 1 of a secret. -/
def openSenderKey (sender recipient : UserId) (epoch : Epoch) (secret : Nat) : List UInt8 :=
  (openCrypto.wrap (200 + sender : Nat) (openPeer recipient).encryptionKey.key
    { server := 7, room := 1, epoch, sender, recipient } secret).getD []

end Throcc
