/-
This file proves where the keys come from that media is opened with: a receive
key is derived from the secret most recently accepted, for that epoch and in the
room the client is in, from the one user the last room state says sends on that
track. It also bounds how long a secret outlives its epoch, how many sender keys
are held early, and says that their order doesn't matter.
-/

import Throcc.EarlyOrder
import Throcc.Register

namespace Throcc

namespace KeyManager

variable {crypto : Crypto}

/-! ### What a change does to the secrets held -/

@[simp] theorem secret_retired (now : Instant) (departs : Bool) (received : Received crypto) :
    (retired now departs received).secret = received.secret := by
  unfold retired
  split <;> rfl

/-- A secret keeps the retirement time it has, or gets one if it departs. -/
theorem retireAt_retired (now : Instant) (departs : Bool) (received : Received crypto) :
    (retired now departs received).retireAt =
      received.retireAt.or (if departs then some (now + oldKeyGrace) else none) := by
  obtain ⟨secret, retireAt⟩ := received
  cases departs <;> cases retireAt <;> rfl

/-- The secrets held after are those held before, some of them with a retirement time now. -/
def Retires (now : Instant) (before after : KeyManager crypto) : Prop :=
  ∀ key, ∃ departs, after.received.lookup key = (before.received.lookup key).map (retired now departs)

theorem Retires.of_eq {now : Instant} {before after : KeyManager crypto}
    (same : after.received = before.received) : before.Retires now after := by
  refine fun key => ⟨false, ?_⟩
  have nothing : @retired crypto now false = id := by
    funext received
    exact if_neg fun departs => Bool.false_ne_true departs.1
  rw [same, nothing, Option.map_id]
  rfl

theorem Retires.found {now : Instant} {before after : KeyManager crypto}
    (retires : before.Retires now after) {key : UserId × Epoch} {received : Received crypto}
    (found : after.received.lookup key = some received) :
    ∃ departs old, before.received.lookup key = some old ∧ received = retired now departs old := by
  obtain ⟨departs, same⟩ := retires key
  rw [found] at same
  obtain ⟨old, there, same⟩ := Option.map_eq_some_iff.mp same.symm
  exact ⟨departs, old, there, same.symm⟩

/-- Whether a peer is no longer trusted under the identity key they have. -/
def departs (keys : KeyManager crypto) (trusted : Map UserId KeyPeer) (user : UserId) : Bool :=
  (keys.peers.lookup user).any fun old =>
    (trusted.lookup user).all fun new => new.identityKey ≠ old.identityKey

theorem lookup_replacePeers (keys : KeyManager crypto) (trusted : Map UserId KeyPeer)
    (now : Instant) (key : UserId × Epoch) :
    (keys.replacePeers trusted now).received.lookup key =
      (keys.received.lookup key).map (retired now (keys.departs trusted key.1)) :=
  Map.lookup_mapValues keys.received _ key

theorem trusting_frame (keys : KeyManager crypto) (room : RoomId) (peers : List Peer)
    (clock : Clock) :
    ∃ checked refused, keys.trusting room peers clock =
      { keys with
        checkedSignatures := checked
        unwrappable := refused
        roomPeers := peers }.replacePeers (keys.trustOf room peers clock.unixNow).trusted
          clock.now := by
  obtain ⟨checked, refused, frame⟩ := keys.trustOf_frame room peers clock.unixNow
  unfold trusting
  dsimp only
  rw [frame]
  exact ⟨checked, refused, rfl⟩

theorem lookup_trusting (keys : KeyManager crypto) (room : RoomId) (peers : List Peer)
    (clock : Clock) (key : UserId × Epoch) :
    (keys.trusting room peers clock).received.lookup key = (keys.received.lookup key).map
      (retired clock.now (keys.departs (keys.trustOf room peers clock.unixNow).trusted key.1)) := by
  obtain ⟨checked, refused, frame⟩ := keys.trusting_frame room peers clock
  rw [frame, lookup_replacePeers]
  rfl

theorem retires_trusting (keys : KeyManager crypto) (room : RoomId) (peers : List Peer)
    (clock : Clock) : keys.Retires clock.now (keys.trusting room peers clock) :=
  fun key => ⟨_, keys.lookup_trusting room peers clock key⟩

/-- Moving on to another epoch starts the grace period of all earlier ones. -/
theorem lookup_moveTo (keys : KeyManager crypto) {epoch : Epoch} (now : Instant)
    (other : epoch ≠ keys.epoch) (key : UserId × Epoch) :
    (keys.moveTo epoch now).received.lookup key =
      (keys.received.lookup key).map (retired now (key.2 < epoch)) := by
  unfold moveTo
  rw [if_pos other]
  exact Map.lookup_mapValues keys.received _ key

theorem moveTo_self (keys : KeyManager crypto) (now : Instant) : keys.moveTo keys.epoch now = keys :=
  if_neg (not_not.mpr rfl)

theorem retires_moveTo (keys : KeyManager crypto) (epoch : Epoch) (now : Instant) :
    keys.Retires now (keys.moveTo epoch now) := by
  by_cases other : epoch ≠ keys.epoch
  · exact fun key => ⟨_, keys.lookup_moveTo now other key⟩
  · rw [not_not] at other
    rw [other, moveTo_self]
    exact .of_eq rfl

/-! ### Secrets and the keys derived from them -/

/-- Every secret held is the one last accepted from its sender for its epoch, in the room we
are in; every cached key is derived from the secret held of its owner. -/
structure Sources (entries : List (Entry crypto)) (keys : KeyManager crypto) : Prop where
  source : ∀ key received, keys.received.lookup key = some received →
    ∃ room entry, keys.room = some room ∧ Entry.last entries room key.1 key.2 = some entry ∧
      entry.acceptance.secret = received.secret
  cached : ∀ key owner trackKey, keys.recvKeys.lookup key = some (owner, trackKey) →
    ∃ received, keys.received.lookup (owner, key.2) = some received ∧
      trackKey = crypto.derive received.secret key.1

theorem Sources.retires {entries : List (Entry crypto)} {before after : KeyManager crypto}
    {now : Instant} (sources : before.Sources entries) (retires : before.Retires now after)
    (room : after.room = before.room) (recvKeys : after.recvKeys = before.recvKeys) :
    after.Sources entries := by
  constructor
  · intro key received found
    obtain ⟨departs, old, there, rfl⟩ := retires.found found
    rw [room, secret_retired]
    exact sources.source key old there
  · intro key owner trackKey found
    rw [recvKeys] at found
    obtain ⟨received, there, derived⟩ := sources.cached key owner trackKey found
    obtain ⟨departs, same⟩ := retires (owner, key.2)
    rw [there, Option.map_some] at same
    exact ⟨_, same, by rw [secret_retired]; exact derived⟩

/-- What is found when a key is looked up: nothing, the key cached for the track's owner, or
one derived from the owner's secret and then cached. -/
inductive Finds (keys : KeyManager crypto) (id : MediaId) (epoch : Epoch) :
    Option crypto.TrackKey → KeyManager crypto → Prop where
  | nothing : Finds keys id epoch none keys
  | cached (owner : UserId) (key : crypto.TrackKey) (owned : keys.owners.lookup id = some owner)
      (found : keys.recvKeys.lookup (id, epoch) = some (owner, key)) :
      Finds keys id epoch (some key) keys
  | derived (owner : UserId) (received : Received crypto)
      (owned : keys.owners.lookup id = some owner)
      (found : keys.received.lookup (owner, epoch) = some received) :
      Finds keys id epoch (some (crypto.derive received.secret id))
        { keys with
          recvKeys :=
            keys.recvKeys.insert (id, epoch) (owner, crypto.derive received.secret id) }

theorem recvKey_finds (keys : KeyManager crypto) (id : MediaId) (epoch : Epoch) :
    keys.Finds id epoch (keys.recvKey id epoch).1 (keys.recvKey id epoch).2 := by
  unfold recvKey
  split
  · exact .nothing
  · split
    · exact .nothing
    · rename_i owner owned
      dsimp only
      split
      · rename_i cachedFor key found
        split
        · rename_i same
          exact .cached owner key owned (same ▸ found)
        · split
          · exact .nothing
          · rename_i received found'
            exact .derived owner received owned found'
      · split
        · exact .nothing
        · rename_i received found'
          exact .derived owner received owned found'

theorem Sources.recvKey {entries : List (Entry crypto)} {keys : KeyManager crypto}
    (sources : keys.Sources entries) (id : MediaId) (epoch : Epoch) :
    (keys.recvKey id epoch).2.Sources entries := by
  have finds := keys.recvKey_finds id epoch
  generalize keys.recvKey id epoch = found at finds
  obtain ⟨key, after⟩ := found
  dsimp only at finds ⊢
  cases finds with
  | nothing => exact sources
  | cached => exact sources
  | derived owner received owned found =>
    refine ⟨sources.source, fun key user trackKey cached => ?_⟩
    dsimp only at cached
    rw [Map.lookup_insert_ite] at cached
    split at cached
    · rename_i same
      cases cached
      rw [same]
      exact ⟨received, found, rfl⟩
    · exact sources.cached key user trackKey cached

theorem Sources.tick {entries : List (Entry crypto)} {keys : KeyManager crypto}
    (sources : keys.Sources entries) (now : Instant) : (keys.tick now).Sources entries := by
  constructor
  · intro key received found
    have found : (keys.received.retain _).lookup key = some received := found
    rw [Map.lookup_retain, Option.filter_eq_some_iff] at found
    exact sources.source key received found.1
  · intro key owner trackKey found
    have found : (keys.recvKeys.retain _).lookup key = some (owner, trackKey) := found
    rw [Map.lookup_retain, Option.filter_eq_some_iff, decide_eq_true_eq, ← Finmap.lookup_isSome,
      Option.isSome_iff_exists] at found
    obtain ⟨there, received, still⟩ := found
    obtain ⟨received', before, derived⟩ := sources.cached key owner trackKey there
    have still' := still
    rw [Map.lookup_retain, Option.filter_eq_some_iff, before, Option.some_inj] at still'
    exact ⟨received, still, still'.1 ▸ derived⟩

theorem Sources.store {entries : List (Entry crypto)} {keys : KeyManager crypto}
    (sources : keys.Sources entries) {acceptance : Acceptance crypto} {retireAt : Option Instant}
    {now : Instant} (admits : keys.Admits acceptance retireAt now) :
    (keys.store acceptance.room acceptance.sender acceptance.epoch
      { secret := acceptance.secret, retireAt } now).Sources (entries ++ [Entry.new acceptance]) := by
  constructor
  · intro key received found
    rw [lookup_store] at found
    rw [show (keys.store ..).room = keys.room from rfl]
    split at found
    · rename_i same
      cases found
      refine ⟨acceptance.room, Entry.new acceptance, admits.inRoom, ?_, rfl⟩
      rw [Entry.last_concat, if_pos ⟨rfl, by rw [same]; exact ⟨rfl, rfl⟩⟩]
    · rename_i other
      obtain ⟨old, there, rfl⟩ := Option.map_eq_some_iff.mp found
      obtain ⟨room, entry, inRoom, last, secret⟩ := sources.source key old there
      refine ⟨room, entry, inRoom, ?_, secret.trans (secret_retired ..).symm⟩
      rw [Entry.last_concat, if_neg]
      · exact last
      · rintro ⟨-, sameSender, sameEpoch⟩
        exact other (Prod.ext sameSender.symm sameEpoch.symm)
  · intro key owner trackKey found
    rw [recvKeys_store, Map.lookup_retain, Option.filter_eq_some_iff] at found
    obtain ⟨there, kept⟩ := found
    obtain ⟨received, held, derived⟩ := sources.cached key owner trackKey there
    have other : (owner, key.2) ≠ (acceptance.sender, acceptance.epoch) := by
      intro same
      obtain ⟨sameOwner, sameEpoch⟩ := Prod.mk.inj same
      simp [sameOwner, sameEpoch] at kept
    refine ⟨_, by rw [lookup_store, if_neg other, held]; rfl, ?_⟩
    rw [secret_retired]
    exact derived

/-- Taking another place forgets everything received; taking the same one again nothing. -/
theorem Sources.takePlace {entries : List (Entry crypto)} {keys : KeyManager crypto}
    (sources : keys.Sources entries) (room : Option RoomId) (tracks : Option Tracks) :
    ((keys.changeRoom room).takePlace room tracks).Sources entries := by
  unfold changeRoom
  split
  · constructor
    · intro key received found
      cases found
    · intro key owner trackKey found
      cases found
  · rename_i same
    rw [not_not] at same
    subst same
    exact ⟨sources.source, sources.cached⟩

theorem Change.sources {now : Instant} {wraps : KeyManager crypto → RoomId → Prop}
    {before after : KeyManager crypto} {acceptance : Option (Acceptance crypto)}
    (change : Change now wraps before acceptance after) {entries : List (Entry crypto)}
    (sources : before.Sources entries) :
    after.Sources (entries ++ acceptance.toList.map Entry.new) := by
  have quiet : ∀ keys : KeyManager crypto, keys.Sources entries →
      keys.Sources (entries ++ (none : Option (Acceptance crypto)).toList.map Entry.new) := by
    intro keys held
    rwa [Option.toList_none, List.map_nil, List.append_nil]
  cases change with
  | store acceptance retireAt admits => exact sources.store admits
  | trust room peers clock atNow there =>
    refine quiet _ (sources.retires (atNow ▸ before.retires_trusting room peers clock) ?_ ?_)
    · exact congrArg Standing.room (before.standing_trusting room peers clock)
    · obtain ⟨checked, refused, frame⟩ := before.trusting_frame room peers clock
      rw [frame]
      rfl
  | moveTo epoch =>
    refine quiet _ (sources.retires (before.retires_moveTo epoch now) ?_ ?_)
    · exact apply_ite KeyManager.room _ _ _ |>.trans (ite_self _)
    · exact apply_ite KeyManager.recvKeys _ _ _ |>.trans (ite_self _)
  | wrap room =>
    refine quiet _ ?_
    unfold wrapForNewPeers
    split
    · exact sources
    · exact ⟨sources.source, sources.cached⟩
  | holdEarly sender epoch wrapped arrived =>
    refine quiet _ ?_
    unfold KeyManager.holdEarly
    split
    · exact ⟨sources.source, sources.cached⟩
    · exact sources
  | takePlace room tracks => exact quiet _ (sources.takePlace room tracks)
  | recvKey id epoch => exact quiet _ (sources.recvKey id epoch)
  | tick => exact quiet _ (sources.tick now)
  | newSecret => exact quiet _ ⟨sources.source, sources.cached⟩
  | takeEarly => exact quiet _ ⟨sources.source, sources.cached⟩
  | advance => exact quiet _ ⟨sources.source, sources.cached⟩
  | stash => exact quiet _ ⟨sources.source, sources.cached⟩
  | present => exact quiet _ ⟨sources.source, sources.cached⟩
  | replaceEncryption => exact quiet _ ⟨sources.source, sources.cached⟩

theorem Sources.note {entries : List (Entry crypto)} {keys : KeyManager crypto}
    (sources : keys.Sources entries) (now : Instant) :
    keys.Sources (entries.map (Entry.note now keys)) := by
  refine ⟨fun key received found => ?_, sources.cached⟩
  obtain ⟨room, entry, inRoom, last, secret⟩ := sources.source key received found
  refine ⟨room, entry.note now keys, inRoom, ?_, ?_⟩
  · rw [Entry.last_note, last]
    rfl
  · rw [Entry.acceptance_note]
    exact secret

/-! ### Retirement times -/

/-- The epoch began by now, no secret is kept longer than the grace period from now on, and
none of an earlier epoch longer than that from the beginning of ours. -/
structure Timely (now : Instant) (keys : KeyManager crypto) : Prop where
  since : keys.epochSince ≤ now
  bounded : ∀ key received time, keys.received.lookup key = some received →
    received.retireAt = some time → time ≤ now + oldKeyGrace
  retiring : ∀ key received, keys.received.lookup key = some received → key.2 < keys.epoch →
    ∃ time, received.retireAt = some time ∧ time ≤ keys.epochSince + oldKeyGrace

theorem Timely.mono {now later : Instant} {keys : KeyManager crypto} (timely : keys.Timely now)
    (notEarlier : now ≤ later) : keys.Timely later where
  since := timely.since.trans notEarlier
  bounded key received time found retires :=
    (timely.bounded key received time found retires).trans (Nat.add_le_add_right notEarlier _)
  retiring := timely.retiring

/-- A retirement time set now is bounded like those before. -/
theorem Timely.bounded_retired {now : Instant} {keys : KeyManager crypto}
    (timely : keys.Timely now) {key : UserId × Epoch} {received : Received crypto}
    (found : keys.received.lookup key = some received) (departs : Bool) {time : Instant}
    (retires : (retired now departs received).retireAt = some time) : time ≤ now + oldKeyGrace := by
  rw [retireAt_retired] at retires
  cases before : received.retireAt with
  | some earlier =>
    rw [before] at retires
    cases retires
    exact timely.bounded key received time found before
  | none =>
    rw [before] at retires
    cases departs with
    | false => cases retires
    | true =>
      cases retires
      exact le_rfl

theorem Timely.retires {now : Instant} {before after : KeyManager crypto}
    (timely : before.Timely now) (retires : before.Retires now after)
    (since : after.epochSince = before.epochSince) (epoch : after.epoch = before.epoch) :
    after.Timely now := by
  refine ⟨since ▸ timely.since, fun key received time found retireAt => ?_,
    fun key received found earlier => ?_⟩
  · obtain ⟨departs, old, there, rfl⟩ := retires.found found
    exact timely.bounded_retired there departs retireAt
  · obtain ⟨departs, old, there, rfl⟩ := retires.found found
    rw [epoch] at earlier
    obtain ⟨time, retiring, inTime⟩ := timely.retiring key old there earlier
    rw [since]
    exact ⟨time, by rw [retireAt_retired, retiring]; rfl, inTime⟩

theorem Timely.moveTo {now : Instant} {keys : KeyManager crypto} (timely : keys.Timely now)
    (epoch : Epoch) : (keys.moveTo epoch now).Timely now := by
  by_cases other : epoch ≠ keys.epoch
  · have moved : (keys.moveTo epoch now).epochSince = now ∧ (keys.moveTo epoch now).epoch = epoch := by
      unfold KeyManager.moveTo
      rw [if_pos other]
      exact ⟨rfl, rfl⟩
    refine ⟨moved.1.le, fun key received time found retireAt => ?_,
      fun key received found earlier => ?_⟩
    · rw [lookup_moveTo _ _ other] at found
      obtain ⟨old, there, rfl⟩ := Option.map_eq_some_iff.mp found
      exact timely.bounded_retired there _ retireAt
    · rw [lookup_moveTo _ _ other] at found
      obtain ⟨old, there, rfl⟩ := Option.map_eq_some_iff.mp found
      rw [moved.2] at earlier
      rw [moved.1, retireAt_retired, decide_eq_true earlier, if_pos rfl]
      cases before : old.retireAt with
      | none => exact ⟨_, rfl, le_rfl⟩
      | some time => exact ⟨time, rfl, timely.bounded key old time there before⟩
  · rw [not_not] at other
    rw [other, moveTo_self]
    exact timely

theorem Timely.store {now : Instant} {keys : KeyManager crypto} (timely : keys.Timely now)
    {acceptance : Acceptance crypto} {retireAt : Option Instant}
    (admits : keys.Admits acceptance retireAt now) :
    (keys.store acceptance.room acceptance.sender acceptance.epoch
      { secret := acceptance.secret, retireAt } now).Timely now := by
  have ends : ∀ time, retireAt = some time → time = keys.epochSince + oldKeyGrace := by
    intro time retires
    rw [admits.retires] at retires
    split at retires
    · exact (Option.some_inj.mp retires).symm
    · cases retires
  refine ⟨timely.since, fun key received time found retires => ?_,
    fun key received found earlier => ?_⟩
  · rw [lookup_store] at found
    split at found
    · cases found
      rw [ends time retires]
      exact Nat.add_le_add_right timely.since _
    · obtain ⟨old, there, rfl⟩ := Option.map_eq_some_iff.mp found
      exact timely.bounded_retired there _ retires
  · rw [lookup_store] at found
    have earlier : key.2 < keys.epoch := earlier
    split at found
    · rename_i same
      cases found
      rw [same] at earlier
      exact ⟨_, admits.retires.trans (if_pos earlier), le_rfl⟩
    · obtain ⟨old, there, rfl⟩ := Option.map_eq_some_iff.mp found
      obtain ⟨time, retiring, inTime⟩ := timely.retiring key old there earlier
      exact ⟨time, by rw [retireAt_retired, retiring]; rfl, inTime⟩

theorem Change.timely {now : Instant} {wraps : KeyManager crypto → RoomId → Prop}
    {before after : KeyManager crypto} {acceptance : Option (Acceptance crypto)}
    (change : Change now wraps before acceptance after) (timely : before.Timely now) :
    after.Timely now := by
  have kept : before.Timely now := timely
  obtain ⟨since, bounded, retiring⟩ := kept
  cases change with
  | store acceptance retireAt admits => exact timely.store admits
  | trust room peers clock atNow there =>
    have stood := before.standing_trusting room peers clock
    exact timely.retires (atNow ▸ before.retires_trusting room peers clock)
      (congrArg Standing.epochSince stood) (congrArg Standing.epoch stood)
  | moveTo epoch => exact timely.moveTo epoch
  | wrap room =>
    unfold wrapForNewPeers
    split
    · exact timely
    · exact ⟨since, bounded, retiring⟩
  | holdEarly sender epoch wrapped arrived =>
    unfold KeyManager.holdEarly
    split
    · exact ⟨since, bounded, retiring⟩
    · exact timely
  | takePlace room tracks =>
    unfold changeRoom
    split
    · exact ⟨since, fun _ _ _ found => (by cases found), fun _ _ found => (by cases found)⟩
    · exact ⟨since, bounded, retiring⟩
  | recvKey id epoch =>
    obtain ⟨recvKeys, same⟩ := before.recvKey_cache id epoch
    rw [same]
    exact ⟨since, bounded, retiring⟩
  | tick =>
    have kept : ∀ key received, (before.tick now).received.lookup key = some received →
        before.received.lookup key = some received := by
      intro key received found
      have found : (before.received.retain _).lookup key = some received := found
      rw [Map.lookup_retain, Option.filter_eq_some_iff] at found
      exact found.1
    exact ⟨since, fun key received time found => bounded key received time (kept key received found),
      fun key received found => retiring key received (kept key received found)⟩
  | newSecret => exact ⟨since, bounded, retiring⟩
  | takeEarly => exact ⟨since, bounded, retiring⟩
  | advance => exact ⟨since, bounded, retiring⟩
  | stash => exact ⟨since, bounded, retiring⟩
  | present => exact ⟨since, bounded, retiring⟩
  | replaceEncryption => exact ⟨since, bounded, retiring⟩

/-! ### Who sends on a track -/

/-- Only one user other than us is listed with the track. -/
def Sends (keys : KeyManager crypto) (id : MediaId) (user : UserId) : Prop :=
  user ≠ keys.me ∧
    (∃ peer ∈ keys.roomPeers, peer.user = user ∧ id ∈ trackIds peer.tracks) ∧
    ∀ peer ∈ keys.roomPeers, peer.user ≠ keys.me → id ∈ trackIds peer.tracks → peer.user = user

def Owning (keys : KeyManager crypto) : Prop :=
  ∀ id user, keys.owners.lookup id = some user → keys.Sends id user

theorem lookup_ownersOf {peers : Map UserId KeyPeer} {id : MediaId} {user : UserId}
    (owned : (ownersOf peers).lookup id = some user) :
    ∃ peer, peers.lookup user = some peer ∧ id ∈ trackIds peer.tracks := by
  have entry := Map.mem_of_lookup_ofList owned
  rw [List.mem_flatMap] at entry
  obtain ⟨⟨owner, peer⟩, listed, mapped⟩ := entry
  obtain ⟨track, tracked, same⟩ := List.mem_map.mp mapped
  cases same
  exact ⟨peer, (Map.mem_toList peers _ _).mp listed, tracked⟩

theorem trustPeer_listed (unixNow : Nat) (sofar : Trusting crypto) (peer : Peer) {user : UserId}
    {trusted : KeyPeer} (found : (trustPeer unixNow sofar peer).trusted.lookup user = some trusted) :
    sofar.trusted.lookup user = some trusted ∨ peer.user = user ∧ keyPeer peer = trusted := by
  unfold trustPeer at found
  dsimp only at found
  split at found
  · exact Or.inl found
  · split at found
    · exact Or.inl found
    · split at found
      · exact Or.inl found
      · dsimp only at found
        rw [Map.lookup_insert_ite] at found
        split at found
        · rename_i same
          cases found
          exact Or.inr ⟨same.symm, rfl⟩
        · exact Or.inl found

/-- Who is trusted was listed in a valid room state, and someone else than us. -/
theorem trustOf_listed (keys : KeyManager crypto) (room : RoomId) (peers : List Peer)
    (unixNow : Nat) {user : UserId} {trusted : KeyPeer}
    (found : (keys.trustOf room peers unixNow).trusted.lookup user = some trusted) :
    keys.invalid peers = none ∧
      ∃ peer ∈ peers, peer.user ≠ keys.me ∧ peer.user = user ∧ keyPeer peer = trusted := by
  unfold trustOf at found
  split at found
  · cases found
  · rename_i valid
    refine ⟨valid, ?_⟩
    have all : ∀ (shown : List Peer) (sofar : Trusting crypto),
        (shown.foldl (trustPeer unixNow) sofar).trusted.lookup user = some trusted →
        sofar.trusted.lookup user = some trusted ∨
          ∃ peer ∈ shown, peer.user = user ∧ keyPeer peer = trusted := by
      intro shown
      induction shown with
      | nil => exact fun sofar found => Or.inl found
      | cons first rest inductionHypothesis =>
        intro sofar found
        rcases inductionHypothesis _ found with before | ⟨peer, member, listed⟩
        · rcases trustPeer_listed unixNow sofar first before with earlier | listed
          · exact Or.inl earlier
          · exact Or.inr ⟨first, List.mem_cons_self, listed⟩
        · exact Or.inr ⟨peer, List.mem_cons_of_mem _ member, listed⟩
    rcases all _ _ found with nothing | ⟨peer, member, listed⟩
    · cases nothing
    · rw [List.mem_filter] at member
      have shown : peer.user ≠ keys.me ∧ keys.present.lookup peer.user = some room := by
        simpa [shows] using member.2
      exact ⟨peer, member.1, shown.1, listed⟩

/-- In a valid room state no two users other than us have a track of one id. -/
theorem sends_alone {keys : KeyManager crypto} {peers : List Peer}
    (valid : keys.invalid peers = none) {peer other : Peer} (member : peer ∈ peers)
    (member' : other ∈ peers) (notMe : peer.user ≠ keys.me) (notMe' : other.user ≠ keys.me)
    {id : MediaId} (sends : id ∈ trackIds peer.tracks) (sends' : id ∈ trackIds other.tracks) :
    other = peer := by
  have clear : keys.clashingTracks peers = false := by
    unfold invalid at valid
    split at valid
    · cases valid
    · split at valid
      · cases valid
      · rename_i clear
        exact Bool.eq_false_iff.mpr clear
  unfold clashingTracks at clear
  dsimp only at clear
  rw [decide_eq_false_iff_not, not_or, not_not, not_not] at clear
  have distinct := (List.nodup_flatMap.mp (List.Nodup.of_append_right clear.2)).2
  by_contra different
  have inside : ∀ peer ∈ peers, peer.user ≠ keys.me →
      peer ∈ peers.filter (fun peer => peer.user ≠ keys.me) :=
    fun peer member notMe => List.mem_filter.mpr ⟨member, decide_eq_true notMe⟩
  have symmetric : Std.Symm (Function.onFun List.Disjoint fun peer : Peer => trackIds peer.tracks) :=
    ⟨fun _ _ disjoint => List.Disjoint.symm disjoint⟩
  have disjoint := distinct.forall (inside other member' notMe') (inside peer member notMe) different
  exact disjoint sends' sends

theorem owning_trusting (keys : KeyManager crypto) (room : RoomId) (peers : List Peer)
    (clock : Clock) : (keys.trusting room peers clock).Owning := by
  obtain ⟨checked, refused, frame⟩ := keys.trusting_frame room peers clock
  rw [frame]
  intro id user owned
  obtain ⟨trusted, found, tracked⟩ := lookup_ownersOf owned
  obtain ⟨valid, peer, member, notMe, sameUser, samePeer⟩ :=
    keys.trustOf_listed room peers clock.unixNow found
  have sends : id ∈ trackIds peer.tracks := by
    rw [← samePeer] at tracked
    exact tracked
  refine ⟨sameUser ▸ notMe, ⟨peer, member, sameUser, sends⟩, fun other member' notMe' sends' => ?_⟩
  rw [sends_alone valid member member' notMe notMe' sends sends', sameUser]

theorem Change.owning {now : Instant} {wraps : KeyManager crypto → RoomId → Prop}
    {before after : KeyManager crypto} {acceptance : Option (Acceptance crypto)}
    (change : Change now wraps before acceptance after) (owning : before.Owning) :
    after.Owning := by
  cases change with
  | trust room peers clock => exact before.owning_trusting room peers clock
  | moveTo epoch =>
    unfold KeyManager.moveTo
    split
    · exact owning
    · exact owning
  | wrap room =>
    unfold wrapForNewPeers
    split
    · exact owning
    · intro id user owned
      have owned : (before.owners.retain _).lookup id = some user := owned
      rw [Map.lookup_retain, Option.filter_eq_some_iff] at owned
      exact owning id user owned.1
  | holdEarly sender epoch wrapped arrived =>
    unfold KeyManager.holdEarly
    split
    · exact owning
    · exact owning
  | takePlace room tracks =>
    unfold changeRoom
    split
    · exact fun _ _ owned => (by cases owned)
    · exact owning
  | recvKey id epoch =>
    obtain ⟨recvKeys, same⟩ := before.recvKey_cache id epoch
    rw [same]
    exact owning
  | store => exact owning
  | tick => exact owning
  | newSecret => exact owning
  | takeEarly => exact owning
  | advance => exact owning
  | stash => exact owning
  | present => exact owning
  | replaceEncryption => exact owning

/-! ### Sender keys held early -/

theorem Change.fewEarly {now : Instant} {wraps : KeyManager crypto → RoomId → Prop}
    {before after : KeyManager crypto} {acceptance : Option (Acceptance crypto)}
    (change : Change now wraps before acceptance after)
    (few : before.early.keys.card ≤ maxEarly) : after.early.keys.card ≤ maxEarly := by
  cases change with
  | trust room peers clock =>
    obtain ⟨checked, refused, frame⟩ := before.trusting_frame room peers clock
    rw [frame]
    exact few
  | moveTo epoch =>
    unfold KeyManager.moveTo
    split
    · exact few
    · exact few
  | wrap room =>
    unfold wrapForNewPeers
    split
    · exact few
    · exact few
  | takeEarly => exact Nat.zero_le _
  | holdEarly sender epoch wrapped arrived =>
    unfold KeyManager.holdEarly
    split
    · rename_i space
      dsimp only
      rw [Map.keys_insert]
      rcases space with space | held
      · exact (Finset.card_insert_le _ _).trans space
      · rw [Finset.insert_eq_self.mpr (Finmap.mem_keys.mpr held)]
        exact few
    · exact few
  | takePlace room tracks =>
    unfold changeRoom
    split
    · exact few
    · exact few
  | recvKey id epoch =>
    obtain ⟨recvKeys, same⟩ := before.recvKey_cache id epoch
    rw [same]
    exact few
  | tick => exact (Map.card_keys_retain_le _ _).trans few
  | store => exact few
  | newSecret => exact few
  | advance => exact few
  | stash => exact few
  | present => exact few
  | replaceEncryption => exact few

/-! ### The register is complete -/

/-- Exactly the sender keys stored are entered, in that order. -/
def Entered (entries : List (Entry crypto)) (keys : KeyManager crypto) : Prop :=
  keys.stores.map (fun stored => (stored.room, stored.sender, stored.epoch)) =
    entries.map fun entry =>
      (entry.acceptance.room, entry.acceptance.sender, entry.acceptance.epoch)

theorem Change.entered {now : Instant} {wraps : KeyManager crypto → RoomId → Prop}
    {before after : KeyManager crypto} {acceptance : Option (Acceptance crypto)}
    (change : Change now wraps before acceptance after) {entries : List (Entry crypto)}
    (entered : before.Entered entries) :
    after.Entered (entries ++ acceptance.toList.map Entry.new) := by
  have quiet : ∀ keys : KeyManager crypto, keys.stores = before.stores →
      keys.Entered (entries ++ (none : Option (Acceptance crypto)).toList.map Entry.new) := by
    intro keys same
    unfold Entered
    rw [Option.toList_none, List.map_nil, List.append_nil, same]
    exact entered
  cases change with
  | store acceptance retireAt admits =>
    unfold Entered at entered ⊢
    rw [List.map_append, ← entered]
    exact List.map_append
  | trust room peers clock =>
    obtain ⟨checked, refused, frame⟩ := before.trusting_frame room peers clock
    refine quiet _ ?_
    rw [frame]
    rfl
  | moveTo epoch => exact quiet _ ((apply_ite KeyManager.stores _ _ _).trans (ite_self _))
  | wrap room =>
    refine quiet _ ?_
    unfold wrapForNewPeers
    split <;> rfl
  | holdEarly => exact quiet _ ((apply_ite KeyManager.stores _ _ _).trans (ite_self _))
  | takePlace room tracks =>
    refine quiet _ ?_
    unfold changeRoom
    split <;> rfl
  | recvKey id epoch =>
    obtain ⟨recvKeys, same⟩ := before.recvKey_cache id epoch
    refine quiet _ ?_
    rw [same]
  | takeEarly => exact quiet _ rfl
  | newSecret => exact quiet _ rfl
  | advance => exact quiet _ rfl
  | stash => exact quiet _ rfl
  | present => exact quiet _ rfl
  | replaceEncryption => exact quiet _ rfl
  | tick => exact quiet _ rfl

/-- What a lookup returns is derived from the secret held of the track's owner. -/
theorem Sources.of_recvKey {entries : List (Entry crypto)} {keys : KeyManager crypto}
    (sources : keys.Sources entries) {id : MediaId} {epoch : Epoch} {key : crypto.TrackKey}
    (returned : (keys.recvKey id epoch).1 = some key) :
    ∃ owner received, keys.owners.lookup id = some owner ∧
      keys.received.lookup (owner, epoch) = some received ∧
      key = crypto.derive received.secret id := by
  have finds := keys.recvKey_finds id epoch
  generalize keys.recvKey id epoch = found at finds returned
  obtain ⟨result, after⟩ := found
  dsimp only at finds returned
  subst returned
  cases finds with
  | cached owner key owned found =>
    obtain ⟨received, held, derived⟩ := sources.cached (id, epoch) owner key found
    exact ⟨owner, received, owned, held, derived⟩
  | derived owner received owned found => exact ⟨owner, received, owned, found, rfl⟩

end KeyManager

namespace Register

variable {crypto : Crypto}

open KeyManager

/-- The invariant of a key manager and its register. -/
structure Traces (now : Instant) (entries : List (Entry crypto)) (keys : KeyManager crypto) :
    Prop where
  entered : keys.Entered entries
  sources : keys.Sources entries
  timely : keys.Timely now
  owning : keys.Owning
  few : keys.early.keys.card ≤ maxEarly

theorem Traces.mono {now later : Instant} {entries : List (Entry crypto)}
    {keys : KeyManager crypto} (traces : Traces now entries keys) (notEarlier : now ≤ later) :
    Traces later entries keys :=
  { traces with timely := traces.timely.mono notEarlier }

theorem Traces.change {now : Instant} {wraps : KeyManager crypto → RoomId → Prop}
    {before after : KeyManager crypto} {acceptance : Option (Acceptance crypto)}
    {entries : List (Entry crypto)} (traces : Traces now entries before)
    (change : Change now wraps before acceptance after) :
    Traces now (entries ++ acceptance.toList.map Entry.new) after where
  entered := change.entered traces.entered
  sources := change.sources traces.sources
  timely := change.timely traces.timely
  owning := change.owning traces.owning
  few := change.fewEarly traces.few

theorem Traces.note {now : Instant} {entries : List (Entry crypto)} {keys : KeyManager crypto}
    (traces : Traces now entries keys) (time : Instant) :
    Traces now (entries.map (Entry.note time keys)) keys := by
  refine { traces with entered := ?_, sources := traces.sources.note time }
  unfold Entered
  rw [List.map_map, traces.entered]
  simp [Function.comp_def]

theorem Traces.step {register : Register crypto}
    (traces : Traces register.now register.entries register.keys) {input : Clock × KeyOp crypto}
    (inOrder : register.InOrder input) :
    Traces (register.step input).now (register.step input).entries (register.step input).keys :=
  stages_keep (fun _ _ => True) (Traces input.1.now)
    (fun _ _ _ _ change traces => traces.change change)
    (fun _ _ traces => traces.note input.1.now)
    (register.keys.perform_leads input.1 input.2) (fun _ _ _ _ _ => trivial) (traces.mono inOrder)

theorem traces_start (me : UserId) (encryption : crypto.KeyPair) (server : Fingerprint)
    (floors : EpochFloors) (now : Instant) (drawn : Nat) :
    Traces now [] (.new me encryption server floors now drawn) where
  entered := rfl
  sources := ⟨fun _ _ found => (by cases found), fun _ _ _ found => (by cases found)⟩
  timely := ⟨le_rfl, fun _ _ _ found => (by cases found), fun _ _ found => (by cases found)⟩
  owning := fun _ _ owned => by cases owned
  few := Nat.zero_le _

/-- Wherever an operation wraps our secret, few sender keys are held early. -/
theorem few_wrapping {now : Instant} {stages : List (Stage crypto)}
    {before after : KeyManager crypto} (leads : Leads now stages before after)
    (few : before.early.keys.card ≤ maxEarly) :
    ∀ stage ∈ stages, ∀ keyed room, stage.wrapping = some (keyed, room) →
      keyed.early.keys.card ≤ maxEarly := by
  induction stages generalizing before with
  | nil => exact fun stage member => by cases member
  | cons stage rest inductionHypothesis =>
    have kept : ∀ {wraps accepted after}, Changes now wraps accepted before after →
        after.early.keys.card ≤ maxEarly := fun changes =>
      changes.keeps (fun _ keys => keys.early.keys.card ≤ maxEarly)
        (fun _ _ _ _ change few => change.fewEarly few) [] few
    refine List.forall_mem_cons.mpr ⟨fun keyed room named => ?_, ?_⟩
    · exact kept (leads.1.reaches keyed room named)
    · exact inductionHypothesis leads.2 (kept leads.1.changes)

theorem early_wrapForNewPeers (keys : KeyManager crypto) (room : RoomId) :
    (keys.wrapForNewPeers room).2.early = keys.early := by
  unfold wrapForNewPeers
  split <;> rfl

/-- Whatever a server sends, in whatever order and at any times that don't run back: every key
returned to open media with is derived from the secret last accepted for that epoch, in the
room we are in, from the one user the last room state says sends on that track. A secret of an
earlier epoch than ours is retired within the grace period after ours began, few sender keys
are held early, and it doesn't matter in which order the map yields these. -/
theorem run_provenance (me : UserId) (encryption : crypto.KeyPair) (server : Fingerprint)
    (floors : EpochFloors) (now : Instant) (drawn : Nat) (inputs : List (Clock × KeyOp crypto))
    (inOrder : Along step InOrder (start (.new me encryption server floors now drawn) now) inputs) :
    let after : Register crypto :=
      run step (start (.new me encryption server floors now drawn) now) inputs
    let keys := after.keys
    keys.Entered after.entries ∧
    (∀ id epoch key, (keys.recvKey id epoch).1 = some key → ∃ room sender entry,
      keys.room = some room ∧ keys.Sends id sender ∧
      Entry.last after.entries room sender epoch = some entry ∧
      key = crypto.derive entry.acceptance.secret id) ∧
    (∀ sender epoch received, keys.received.lookup (sender, epoch) = some received →
      epoch < keys.epoch →
      ∃ time, received.retireAt = some time ∧ time ≤ keys.epochSince + oldKeyGrace) ∧
    keys.early.keys.card ≤ maxEarly ∧
    ∀ clock op, ∀ stage ∈ keys.stages clock op, ∀ keyed room,
      stage.wrapping = some (keyed, room) →
      let wrapped := (keyed.wrapForNewPeers room).2
      ∀ order : List EarlyKey, order.Perm wrapped.early.toList →
        (wrapped.replayIn order clock.now).forget = (wrapped.replayEarly clock.now).forget := by
  intro after keys
  have traces : Traces after.now after.entries keys :=
    inOrder.invariant (fun register => Traces register.now register.entries register.keys)
      (traces_start ..) fun _ _ traces inOrder => traces.step inOrder
  refine ⟨traces.entered, fun id epoch key returned => ?_,
    fun sender epoch received found earlier => traces.timely.retiring _ received found earlier,
    traces.few, fun clock op stage member keyed room named => ?_⟩
  · obtain ⟨owner, received, owned, held, derived⟩ := traces.sources.of_recvKey returned
    obtain ⟨room, entry, inRoom, last, secret⟩ := traces.sources.source _ received held
    exact ⟨room, owner, entry, inRoom, traces.owning id owner owned, last, by rw [secret, derived]⟩
  · have few := few_wrapping (keys.perform_leads clock op) traces.few stage member keyed room named
    intro wrapped order perm
    refine wrapped.replayIn_order ?_ perm clock.now
    rw [early_wrapForNewPeers]
    exact few

/-- User 2 replaces its secret while a key of the first is cached, and sends one for the next
epoch early. -/
def replacedSecret : List (Clock × KeyOp openCrypto) :=
  [ (⟨0, 500⟩, .presence 2 (some 1)),
    (⟨1, 500⟩, .placement (some 1) 1 (some (openPeer 1).tracks) [openPeer 1, openPeer 2]),
    (⟨2, 500⟩, .senderKey 2 1 (openSenderKey 2 1 1 5)),
    (⟨3, 500⟩, .receive 20 1),
    (⟨4, 500⟩, .senderKey 2 1 (openSenderKey 2 1 1 6)),
    (⟨5, 500⟩, .senderKey 2 2 (openSenderKey 2 1 2 7)),
    (⟨6, 500⟩, .peers 1 2 [openPeer 1, openPeer 2]) ]

instance (register : Register openCrypto) (input : Clock × KeyOp openCrypto) :
    Decidable (register.InOrder input) :=
  inferInstanceAs (Decidable (register.now ≤ input.1.now))

theorem run_provenance_replacedSecret :
    let after := run step (start (.new 1 (200 + 1 : Nat) 7 {} 0 0) 0) replacedSecret
    (after.keys.recvKey 20 1).1 = some (openCrypto.derive (6 : Nat) 20) ∧
    (after.keys.recvKey 20 2).1 = some (openCrypto.derive (7 : Nat) 20) ∧
    ∃ room sender entry, after.keys.room = some room ∧ after.keys.Sends 20 sender ∧
      Entry.last after.entries room sender 2 = some entry ∧
      openCrypto.derive (7 : Nat) 20 = openCrypto.derive entry.acceptance.secret 20 := by
  have current : ((run step (start (.new 1 (200 + 1 : Nat) 7 {} 0 0) 0) replacedSecret).keys.recvKey
      20 2).1 = some (openCrypto.derive (7 : Nat) 20) := by decide +kernel
  exact ⟨by decide +kernel, current, (@run_provenance openCrypto 1 (200 + 1 : Nat) 7 {} 0 0
    replacedSecret (by decide +kernel)).2.1 20 2 _ current⟩

end Register

end Throcc
