/-
This file embeds the sending half of the media engine: the encryption of media
datagrams, the sealer that numbers and seals the fragments of a unit, and the
connections of a client, each with a key manager and a sealer of its own.

The authenticated encryption is a parameter, like the rest of the cryptography.
The keys and sealed datagrams of a client are put on record for the proofs only.
-/

import Throcc.Fragment
import Throcc.KeyManager

namespace Throcc

/-! ### Media keys -/

/-- The authenticated encryption of media, whose tag is detached from the ciphertext. -/
structure Aead (crypto : Crypto) where
  encrypt (key : crypto.TrackKey) (nonce aad plaintext : List UInt8) :
    Option (List UInt8 × List UInt8)
  decrypt (key : crypto.TrackKey) (nonce aad ciphertext tag : List UInt8) : Option (List UInt8)

inductive MediaError where
  | header (error : HeaderError)
  /-- The plaintext exceeds the body. -/
  | tooLong (length : Nat)
  | seal
  /-- The datagram is too short for a tag. -/
  | short
  | auth
deriving DecidableEq, Repr

namespace Aead

variable {crypto : Crypto} (aead : Aead crypto)

/-- Seals a plaintext under a header. The caller guarantees that the nonce is fresh. -/
def seal_ (key : crypto.TrackKey) (header : Header) (plaintext : List UInt8) :
    Except MediaError (List UInt8) :=
  if bodyBytes < plaintext.length then
    .error (.tooLong plaintext.length)
  else
    match aead.encrypt key header.nonce header.encode plaintext with
    | none => .error .seal
    | some (ciphertext, tag) => .ok (header.encode ++ ciphertext ++ tag)

/-- Opens a datagram: its header and its plaintext. -/
def open_ (key : crypto.TrackKey) (datagram : List UInt8) :
    Except MediaError (Header × List UInt8) :=
  match Header.parseStrict datagram with
  | .error error => .error (.header error)
  | .ok header =>
    if datagram.length < headerBytes + tagBytes then
      .error .short
    else
      let tagAt := datagram.length - tagBytes
      let aad := datagram.take headerBytes
      let ciphertext := (datagram.take tagAt).drop headerBytes
      match aead.decrypt key header.nonce aad ciphertext (datagram.drop tagAt) with
      | none => .error .auth
      | some plaintext => .ok (header, plaintext)

end Aead

/-! ### The sealer -/

/-- An access unit to send on one of our tracks. -/
structure Outgoing where
  mediaId : MediaId
  data : List UInt8
  timestamp : UInt32
  keyframe : Bool
deriving DecidableEq, Repr

def Outgoing.fragments (unit : Outgoing) : List Fragment :=
  fragment unit.data unit.timestamp unit.keyframe

/-- The next `seq` of each of our tracks. -/
structure Sealer where
  seqs : Map MediaId Nat := ∅

namespace Sealer

variable {crypto : Crypto} (aead : Aead crypto)

/-- The next `seq` of a track, which starts at 0. -/
def seq (sealer : Sealer) (mediaId : MediaId) : Nat := (sealer.seqs.lookup mediaId).getD 0

/-- The turns of the loop of `seal` from a `seq` on: the datagrams they seal and the `seq`
they end at. -/
def sealFragments (key : crypto.TrackKey) (mediaId : MediaId) (epoch : Epoch) :
    Nat → List Fragment → List (List UInt8) × Nat
  | seq, [] => ([], seq)
  | seq, fragment :: rest =>
    match addU32 seq 1 with
    | none => ([], seq)
    | some next =>
      let header : Header := { mediaId, epoch, seq, flags := fragment.flags }
      let (datagrams, last) := sealFragments key mediaId epoch next rest
      match aead.seal_ key header fragment.plaintext with
      | .ok datagram => (datagram :: datagrams, last)
      | .error _ => (datagrams, last)

/-- Seals one access unit into datagrams. Stops early if the track's `seq` is exhausted. -/
def seal_ (sealer : Sealer) (unit : Outgoing) (epoch : Epoch) (key : crypto.TrackKey) :
    List (List UInt8) × Sealer :=
  let (datagrams, seq) :=
    sealFragments aead key unit.mediaId epoch (sealer.seq unit.mediaId) unit.fragments
  (datagrams, { seqs := sealer.seqs.insert unit.mediaId seq })

end Sealer

/-! ### A client's connections -/

/-- The sending half of one connection. -/
structure Connection (crypto : Crypto) where
  keys : KeyManager crypto
  sealer : Sealer
  /-- The unit about to be sealed, with the epoch and key taken from the key manager for it. -/
  taken : Option (Outgoing × Epoch × crypto.TrackKey)

/-- The connections a client has made one after another to one server. What an earlier one
still has to seal may be sealed after a later one was made. -/
structure Sending (crypto : Crypto) where
  me : UserId
  server : Fingerprint
  floors : EpochFloors
  drawn : Nat
  connections : List (Connection crypto)
  /-- Every datagram sealed, with the key it was sealed under. -/
  sealedUnder : List (crypto.TrackKey × List UInt8)

namespace Sending

variable {crypto : Crypto} (aead : Aead crypto)

def new (me : UserId) (server : Fingerprint) (floors : EpochFloors) (drawn : Nat) :
    Sending crypto where
  me := me
  server := server
  floors := floors
  drawn := drawn
  connections := []
  sealedUnder := []

inductive Input (crypto : Crypto) where
  /-- Connects, with a new key manager and a new sealer. -/
  | connect (encryption : crypto.KeyPair) (now : Instant)
  | perform (connection : Nat) (clock : Clock) (op : KeyOp crypto)
  /-- The first half of `seal`, under the lock of the key manager. -/
  | sendKey (connection : Nat) (unit : Outgoing)
  /-- The rest of `seal`, without the lock. -/
  | sealUnit (connection : Nat)

def step (sending : Sending crypto) : Input crypto → Sending crypto
  | .connect encryption now =>
    let keys :=
      .new sending.me encryption sending.server sending.floors now sending.drawn
    { sending with connections := sending.connections ++ [{ keys, sealer := {}, taken := none }] }
  | .perform index clock op =>
    match sending.connections[index]? with
    | none => sending
    | some connection =>
      let shared := { connection.keys with floors := sending.floors, drawn := sending.drawn }
      let keys := (shared.perform clock op).2
      { sending with
        floors := keys.floors
        drawn := keys.drawn
        connections := sending.connections.set index { connection with keys } }
  | .sendKey index unit =>
    match sending.connections[index]? with
    | none => sending
    | some connection =>
      let taken := (connection.keys.sendKey unit.mediaId).map fun key => (unit, key)
      { sending with connections := sending.connections.set index { connection with taken } }
  | .sealUnit index =>
    match sending.connections[index]? with
    | none => sending
    | some connection =>
      match connection.taken with
      | none => sending
      | some (unit, epoch, key) =>
        let (datagrams, sealer) := connection.sealer.seal_ aead unit epoch key
        { sending with
          connections :=
            sending.connections.set index { connection with sealer, taken := none }
          sealedUnder := sending.sealedUnder ++ datagrams.map fun datagram => (key, datagram) }

end Sending

/-! ### An encryption to compute with -/

/-- An encryption for `openCrypto` that hides nothing and writes the key into the tag. It
takes keys that fit there. -/
def openAead : Aead openCrypto where
  encrypt key _ _ plaintext :=
    if key.1 < 256 ^ 8 ∧ key.2 < 256 ^ 8 then
      some (plaintext, bytesBe 8 key.1 ++ bytesBe 8 key.2)
    else
      none
  decrypt key _ _ ciphertext tag :=
    if key.1 < 256 ^ 8 ∧ key.2 < 256 ^ 8 ∧ tag = bytesBe 8 key.1 ++ bytesBe 8 key.2 then
      some ciphertext
    else
      none

end Throcc
