/-
This file splits a key manager by what moves which part of it. `Standing` is
where it stands: its room, the epoch, the room state applied last and the
floors. `Inbox` is what it holds of others' secrets. Room states, placements
and presences move the standing as `Standing`'s own operations do, whatever the
cryptography; sender keys move the inbox alone.
-/

import Throcc.KeyManager

namespace Throcc

/-- Where a key manager stands. -/
structure Standing where
  me : UserId
  server : Fingerprint
  present : Map UserId RoomId
  roomPeers : List Peer
  room : Option RoomId
  epoch : Epoch
  epochSince : Instant
  floors : EpochFloors
  floor : Option Epoch
  myTracks : Option Tracks
  stashed : Option (RoomId × Epoch × List Peer)

namespace Standing

/-- Moves to an epoch, raising the room's floor if it is another one. -/
def moveTo (standing : Standing) (epoch : Epoch) (now : Instant) : Standing :=
  if epoch ≠ standing.epoch then
    { standing with
      epoch
      epochSince := now
      floors :=
        match standing.room with
        | some room => standing.floors.raise standing.me room epoch
        | none => standing.floors }
  else
    standing

/-- Everything but the epoch and the floors it raised. -/
def withoutEpoch (standing : Standing) : Standing :=
  { standing with epoch := 0, epochSince := 0, floors := {} }

theorem withoutEpoch_moveTo (standing : Standing) (epoch : Epoch) (now : Instant) :
    (standing.moveTo epoch now).withoutEpoch = standing.withoutEpoch := by
  unfold moveTo
  split <;> rfl

/-- Applies a room state. -/
def applyPeers (standing : Standing) (epoch : Epoch) (peers : List Peer) (now : Instant) :
    Standing :=
  { standing with roomPeers := peers }.moveTo epoch now

def stash (standing : Standing) (room : RoomId) (epoch : Epoch) (peers : List Peer) : Standing :=
  if standing.stashed.all fun kept => kept.1 ≠ room ∨ kept.2.1 < epoch then
    { standing with stashed := some (room, epoch, peers) }
  else
    standing

def peersChanged (standing : Standing) (room : RoomId) (epoch : Epoch) (peers : List Peer)
    (now : Instant) : Standing :=
  if some room ≠ standing.room then standing.stash room epoch peers
  else if epoch < standing.epoch then standing
  else standing.applyPeers epoch peers now

/-- Takes the place a placement gives, at no epoch yet if it is in another room. -/
def enter (standing : Standing) (room : Option RoomId) (tracks : Option Tracks) : Standing :=
  if room ≠ standing.room then
    { standing with
      room
      roomPeers := []
      epoch := 0
      floor := room.bind (standing.floors.get standing.me)
      myTracks := tracks }
  else
    { standing with myTracks := tracks }

/-- Applies the stashed room state if it is a later one of the room placed in. -/
def unstash (standing : Standing) (room : RoomId) (epoch : Epoch) (now : Instant) : Standing :=
  match standing.stashed with
  | some (stashedRoom, stashedEpoch, stashedPeers) =>
    if stashedRoom = room ∧ epoch < stashedEpoch then
      { standing with stashed := none }.peersChanged room stashedEpoch stashedPeers now
    else
      { standing with stashed := none }
  | none => { standing with stashed := none }

def applyPlacement (standing : Standing) (room : Option RoomId) (epoch : Epoch)
    (tracks : Option Tracks) (peers : List Peer) (now : Instant) : Standing :=
  if room.isSome ∧ room = standing.room ∧ epoch < standing.epoch then
    standing
  else
    match room with
    | none => { standing.enter none tracks with stashed := none }
    | some room =>
      ((standing.enter (some room) tracks).peersChanged room epoch peers now).unstash room epoch now

def setPresence (standing : Standing) (user : UserId) (room : Option RoomId) : Standing :=
  match room with
  | some place =>
    if maxSignedIn ≤ standing.present.keys.card ∧ user ∉ standing.present then standing
    else { standing with present := standing.present.insert user place }
  | none => { standing with present := standing.present.erase user }

end Standing

/-- What a key manager holds of others' secrets. -/
structure Inbox (crypto : Crypto) where
  received : Map (UserId × Epoch) (Received crypto)
  recvKeys : Map (MediaId × Epoch) (UserId × crypto.TrackKey)
  early : Map (UserId ×ₗ Epoch) (Instant × List UInt8)
  generation : Nat
  stores : List Stored

namespace KeyManager

variable {crypto : Crypto}

def standing (keys : KeyManager crypto) : Standing where
  me := keys.me
  server := keys.server
  present := keys.present
  roomPeers := keys.roomPeers
  room := keys.room
  epoch := keys.epoch
  epochSince := keys.epochSince
  floors := keys.floors
  floor := keys.floor
  myTracks := keys.myTracks
  stashed := keys.stashed

def withInbox (keys : KeyManager crypto) (inbox : Inbox crypto) : KeyManager crypto :=
  { keys with
    received := inbox.received
    recvKeys := inbox.recvKeys
    early := inbox.early
    generation := inbox.generation
    stores := inbox.stores }

/-! ### Sender keys move the inbox alone -/

theorem store_frame (keys : KeyManager crypto) (room : RoomId) (sender : UserId) 
    (epoch : Epoch) (received : Received crypto) (now : Instant) :
    ∃ inbox, keys.store room sender epoch received now = keys.withInbox inbox :=
  ⟨⟨_, _, keys.early, keys.generation + 1, _⟩, rfl⟩

theorem holdEarly_frame (keys : KeyManager crypto) (sender : UserId) (epoch : Epoch)
    (wrapped : List UInt8) (arrived : Instant) :
    ∃ inbox, keys.holdEarly sender epoch wrapped arrived = keys.withInbox inbox := by
  unfold holdEarly
  split
  · exact ⟨⟨keys.received, keys.recvKeys, _, keys.generation, keys.stores⟩, rfl⟩
  · exact ⟨⟨keys.received, keys.recvKeys, keys.early, keys.generation, keys.stores⟩, rfl⟩

theorem withInbox_self (keys : KeyManager crypto) : ∃ inbox, keys = keys.withInbox inbox :=
  ⟨⟨keys.received, keys.recvKeys, keys.early, keys.generation, keys.stores⟩, rfl⟩

theorem senderKeyAt_frame (keys : KeyManager crypto) (sender : UserId) (epoch : Epoch)
    (wrapped : List UInt8) (arrived now : Instant) :
    ∃ inbox, (keys.senderKeyAt sender epoch wrapped arrived now).2 = keys.withInbox inbox := by
  unfold senderKeyAt
  split
  · exact keys.withInbox_self
  · split
    · split
      · dsimp only
        split
        · exact keys.withInbox_self
        · split
          · exact keys.withInbox_self
          · exact keys.store_frame ..
      · exact keys.holdEarly_frame ..
    · exact keys.holdEarly_frame ..

theorem senderKey_frame (keys : KeyManager crypto) (sender : UserId) (epoch : Epoch)
    (wrapped : List UInt8) (now : Instant) :
    ∃ inbox, (keys.senderKey sender epoch wrapped now).2 = keys.withInbox inbox := by
  unfold senderKey
  split
  · exact keys.withInbox_self
  · exact keys.senderKeyAt_frame ..

theorem replayEarly_frame (keys : KeyManager crypto) (now : Instant) :
    ∃ inbox, keys.replayEarly now = keys.withInbox inbox := by
  unfold replayEarly
  have all : ∀ (held : List ((UserId ×ₗ Epoch) × Instant × List UInt8)) (inbox : Inbox crypto),
      ∃ after, held.foldl (fun keys held =>
        if now - held.2.1 < oldKeyGrace then
          (keys.senderKeyAt (ofLex held.1).1 (ofLex held.1).2 held.2.2 held.2.1 now).2
        else
          keys) (keys.withInbox inbox) = keys.withInbox after := by
    intro held
    induction held with
    | nil => exact fun inbox => ⟨inbox, rfl⟩
    | cons first rest inductionHypothesis =>
      intro inbox
      rw [List.foldl_cons]
      split
      · obtain ⟨after, same⟩ := (keys.withInbox inbox).senderKeyAt_frame (ofLex first.1).1
          (ofLex first.1).2 first.2.2 first.2.1 now
        rw [same]
        exact inductionHypothesis after
      · exact inductionHypothesis inbox
  exact all keys.early.toList ⟨keys.received, keys.recvKeys, ∅, keys.generation, keys.stores⟩

/-- Looking a key up caches it and does nothing else. -/
theorem recvKey_cache (keys : KeyManager crypto) (mediaId : MediaId) (epoch : Epoch) :
    ∃ recvKeys, (keys.recvKey mediaId epoch).2 = { keys with recvKeys := recvKeys } := by
  unfold recvKey
  split
  · exact ⟨keys.recvKeys, rfl⟩
  · split
    · exact ⟨keys.recvKeys, rfl⟩
    · dsimp only
      split
      · split
        · exact ⟨keys.recvKeys, rfl⟩
        · split
          · exact ⟨keys.recvKeys, rfl⟩
          · exact ⟨_, rfl⟩
      · split
        · exact ⟨keys.recvKeys, rfl⟩
        · exact ⟨_, rfl⟩

theorem recvKey_frame (keys : KeyManager crypto) (mediaId : MediaId) (epoch : Epoch) :
    ∃ inbox, (keys.recvKey mediaId epoch).2 = keys.withInbox inbox := by
  obtain ⟨recvKeys, same⟩ := keys.recvKey_cache mediaId epoch
  exact ⟨⟨keys.received, recvKeys, keys.early, keys.generation, keys.stores⟩, same⟩

@[simp] theorem standing_withInbox (keys : KeyManager crypto) (inbox : Inbox crypto) :
    (keys.withInbox inbox).standing = keys.standing := rfl

@[simp] theorem standing_senderKey (keys : KeyManager crypto) (sender : UserId) (epoch : Epoch)
    (wrapped : List UInt8) (now : Instant) :
    (keys.senderKey sender epoch wrapped now).2.standing = keys.standing := by
  obtain ⟨inbox, same⟩ := keys.senderKey_frame sender epoch wrapped now
  rw [same, standing_withInbox]

@[simp] theorem standing_recvKey (keys : KeyManager crypto) (mediaId : MediaId) (epoch : Epoch) :
    (keys.recvKey mediaId epoch).2.standing = keys.standing := by
  obtain ⟨inbox, same⟩ := keys.recvKey_frame mediaId epoch
  rw [same, standing_withInbox]

@[simp] theorem standing_replayEarly (keys : KeyManager crypto) (now : Instant) :
    (keys.replayEarly now).standing = keys.standing := by
  obtain ⟨inbox, same⟩ := keys.replayEarly_frame now
  rw [same, standing_withInbox]

@[simp] theorem standing_tick (keys : KeyManager crypto) (now : Instant) :
    (keys.tick now).standing = keys.standing := rfl

@[simp] theorem standing_replaceEncryption (keys : KeyManager crypto) (encryption : crypto.KeyPair)
    (now : Instant) : (keys.replaceEncryption encryption now).standing = keys.standing := rfl

/-! ### Room states -/

theorem signedByIdentity_frame (keys : KeyManager crypto) (peer : Peer) :
    ∃ checked, (keys.signedByIdentity peer).2 = { keys with checkedSignatures := checked } := by
  unfold signedByIdentity
  split
  · dsimp only
    split
    · exact ⟨keys.checkedSignatures, rfl⟩
    · exact ⟨_, rfl⟩
  · exact ⟨_, rfl⟩

theorem trustPeer_frame (unixNow : Nat) (sofar : Trusting crypto) (peer : Peer) :
    ∃ checked, (trustPeer unixNow sofar peer).keys =
      { sofar.keys with checkedSignatures := checked } := by
  obtain ⟨checked, same⟩ := sofar.keys.signedByIdentity_frame peer
  unfold trustPeer
  dsimp only
  split
  · exact ⟨sofar.keys.checkedSignatures, rfl⟩
  · split
    · exact ⟨checked, same⟩
    · split
      · exact ⟨checked, same⟩
      · exact ⟨checked, same⟩

/-- Deciding whom to trust moves only the checked signatures and the refused keys. -/
theorem trustOf_frame (keys : KeyManager crypto) (room : RoomId) (peers : List Peer)
    (unixNow : Nat) :
    ∃ checked refused, (keys.trustOf room peers unixNow).keys =
      { keys with checkedSignatures := checked, unwrappable := refused } := by
  unfold trustOf
  split
  · exact ⟨keys.checkedSignatures, keys.unwrappable, rfl⟩
  · unfold trustedPeers
    have all : ∀ (shown : List Peer) (sofar : Trusting crypto),
        (∃ checked refused, sofar.keys =
          { keys with checkedSignatures := checked, unwrappable := refused }) →
        ∃ checked refused, (shown.foldl (trustPeer unixNow) sofar).keys =
          { keys with checkedSignatures := checked, unwrappable := refused } := by
      intro shown
      induction shown with
      | nil => exact fun _ same => same
      | cons peer rest inductionHypothesis =>
        rintro sofar ⟨checked, refused, same⟩
        rw [List.foldl_cons]
        obtain ⟨next, turned⟩ := trustPeer_frame unixNow sofar peer
        exact inductionHypothesis _ ⟨next, refused, by rw [turned, same]⟩
    exact all _ _ ⟨_, _, rfl⟩

theorem standing_trustOf (keys : KeyManager crypto) (room : RoomId) (peers : List Peer)
    (unixNow : Nat) : (keys.trustOf room peers unixNow).keys.standing = keys.standing := by
  obtain ⟨checked, refused, same⟩ := keys.trustOf_frame room peers unixNow
  rw [same]
  rfl

@[simp] theorem standing_replacePeers (keys : KeyManager crypto) (trusted : Map UserId KeyPeer)
    (now : Instant) : (keys.replacePeers trusted now).standing = keys.standing := rfl

theorem standing_startEpoch (keys : KeyManager crypto) (epoch : Epoch) (now : Instant) :
    (keys.startEpoch epoch now).standing = keys.standing.moveTo epoch now :=
  apply_ite standing _ _ _

theorem standing_rekey (keys : KeyManager crypto) (epoch : Epoch) (now : Instant) :
    (keys.rekey epoch now).standing = keys.standing.moveTo epoch now := by
  unfold rekey
  split
  · exact keys.standing_startEpoch epoch now
  · rename_i settled
    have same : epoch = keys.standing.epoch := by
      by_contra different
      exact settled (Or.inl different)
    rw [Standing.moveTo, if_neg (not_not.mpr same)]

@[simp] theorem standing_wrapForNewPeers (keys : KeyManager crypto) (room : RoomId) :
    (keys.wrapForNewPeers room).2.standing = keys.standing := by
  unfold wrapForNewPeers
  split <;> rfl

theorem standing_applyPeers (keys : KeyManager crypto) (room : RoomId) (epoch : Epoch)
    (peers : List Peer) (clock : Clock) :
    (keys.applyPeers room epoch peers clock).2.standing =
      keys.standing.applyPeers epoch peers clock.now := by
  have applied (keys' : KeyManager crypto) (trusted : Map UserId KeyPeer) :
      ((({ keys' with roomPeers := peers }.replacePeers trusted clock.now).rekey epoch
        clock.now).wrapForNewPeers room).2.standing =
        keys'.standing.applyPeers epoch peers clock.now := by
    rw [standing_wrapForNewPeers, standing_rekey, standing_replacePeers]
    rfl
  rw [← keys.standing_trustOf room peers clock.unixNow, ← applied _
    (keys.trustOf room peers clock.unixNow).trusted]
  exact standing_replayEarly _ _

theorem standing_stash (keys : KeyManager crypto) (room : RoomId) (epoch : Epoch)
    (peers : List Peer) :
    (keys.stash room epoch peers).standing = keys.standing.stash room epoch peers :=
  apply_ite standing _ _ _

theorem standing_peersChanged (keys : KeyManager crypto) (room : RoomId) (epoch : Epoch)
    (peers : List Peer) (clock : Clock) :
    (keys.peersChanged room epoch peers clock).2.standing =
      keys.standing.peersChanged room epoch peers clock.now := by
  unfold peersChanged
  rw [apply_ite Prod.snd, apply_ite Prod.snd, apply_ite standing, apply_ite standing, standing_stash,
    standing_applyPeers]
  rfl

theorem standing_reapplyPeers (keys : KeyManager crypto) (clock : Clock) :
    (keys.reapplyPeers clock).2.standing = keys.standing := by
  unfold reapplyPeers
  split
  · rfl
  · rename_i room inRoom
    have there : keys.standing.room = some room := inRoom
    have same : keys.standing.moveTo keys.epoch clock.now = keys.standing :=
      if_neg (not_not.mpr rfl)
    rw [standing_peersChanged, Standing.peersChanged, if_neg (not_not.mpr there.symm)]
    exact (if_neg (lt_irrefl keys.epoch)).trans same

/-! ### Placements and presences -/

theorem standing_takePlace (keys : KeyManager crypto) (room : Option RoomId)
    (tracks : Option Tracks) :
    ((keys.changeRoom room).takePlace room tracks).standing = keys.standing.enter room tracks := by
  unfold changeRoom Standing.enter
  by_cases other : room ≠ keys.room
  · rw [if_pos other]
    exact (if_pos other).symm
  · rw [if_neg other]
    refine Eq.trans ?_ (if_neg other).symm
    rw [not_not] at other
    rw [other]
    rfl

theorem standing_unstash (keys : KeyManager crypto) (room : RoomId) (epoch : Epoch)
    (clock : Clock) :
    (keys.unstash room epoch clock).2.standing =
      keys.standing.unstash room epoch clock.now := by
  have same : keys.standing.stashed = keys.stashed := rfl
  unfold unstash Standing.unstash
  rw [same]
  rcases keys.stashed with _ | ⟨stashedRoom, stashedEpoch, stashedPeers⟩
  · rfl
  · by_cases later : stashedRoom = room ∧ epoch < stashedEpoch
    · simp only [if_pos later]
      exact standing_peersChanged _ room stashedEpoch stashedPeers clock
    · simp only [if_neg later]
      rfl

theorem standing_applyPlacement (keys : KeyManager crypto) (room : Option RoomId) (epoch : Epoch)
    (tracks : Option Tracks) (peers : List Peer) (clock : Clock) :
    (keys.applyPlacement room epoch tracks peers clock).2.standing =
      keys.standing.applyPlacement room epoch tracks peers clock.now := by
  unfold applyPlacement
  rw [apply_ite Prod.snd, apply_ite standing]
  refine ite_congr rfl (fun _ => rfl) fun _ => ?_
  have entered := keys.standing_takePlace room tracks
  cases room with
  | none => exact congrArg (fun standing => { standing with stashed := none }) entered
  | some room =>
    dsimp only
    rw [standing_unstash, standing_peersChanged, entered]

theorem setPresence_frame (keys : KeyManager crypto) (user : UserId) (room : Option RoomId) :
    ∃ present, (keys.setPresence user room).2 = { keys with present := present } := by
  unfold setPresence
  split
  · split
    · exact ⟨keys.present, rfl⟩
    · exact ⟨_, rfl⟩
  · exact ⟨_, rfl⟩

end KeyManager

end Throcc
