/-
This file embeds what clients ask of the hub besides moving between rooms, the
dispatch of requests, the hub's part of enrollments, and the server as a state
machine: its hub and the password work in flight, one input at a time.
-/

import Throcc.Rooms

namespace Throcc

def inviteLifetime : Nat := 24 * 60 * 60
/-- An account not signed in to for this long is removed. Whoever it invited stays. -/
def inactiveAccountLifetime : Nat := 365 * 24 * 60 * 60
def profileInterval : Duration := fromSecs 10
def mintAttempts : Nat := 64
/-- Clients rotate encryption keys every 30 days; a day of slack covers clock skew. -/
def maxEncryptionKeyLifetime : Nat := 31 * 24 * 60 * 60
def maxWrappedBytes : Nat := 256
/-- Bytes charged for an upload smaller than this. -/
def minUploadCost : Nat := 4096
/-- How long an uploaded picture that nothing refers to is kept. -/
def unusedBlobGrace : Nat := 10 * 60
/-- Sender keys a member may publish for one epoch outside the request allowance. -/
def freeKeyPublishes : Nat := 2
def inviteTries : Nat := 3

namespace Hub

open Attempt

/-- Changes a user's session. -/
def modifySession (user : UserId) (update : Session → Session) (hub : Hub) : Hub :=
  { hub with sessions := hub.sessions.modify user update }

/-! ### Profiles and pictures -/

def setProfile (user : UserId) (name : String) (avatar : Option Hash) (clock : Clock) :
    HubM Response := do
  let name ← checkedName name
  requirePicture avatar
  let session ← session user
  let seconds := profileInterval / 1000000000
  require (session.lastProfile.all fun last => profileInterval ≤ clock.now - last)
    ⟨.rateLimited, s!"one profile change per {seconds} seconds"⟩
  write (Database.setProfile user name avatar)
  change <| modifySession user fun session =>
    { session with row := { session.row with name, avatar }, lastProfile := some clock.now }
  change (announcePresence user)
  pure .ok

def announceServerProfile : HubM Response := do
  let profile ← read (·.serverProfile)
  change (emitAll (.serverProfileChanged profile))
  pure .ok

/-- The server name a request asks for; an empty one is none. -/
def checkedServerName (name : Option String) : HubM (Option String) :=
  match name.map trimWhitespace with
  | none => pure none
  | some name => if name = "" then pure none else some <$> checkedName name

def setServerName (user : UserId) (name : Option String) : HubM Response := do
  permit (canEditServer (← role user))
  let name ← checkedServerName name
  write (Database.setServerName name)
  announceServerProfile

def setServerAvatar (user : UserId) (avatar : Option Hash) : HubM Response := do
  permit (canEditServer (← role user))
  requirePicture avatar
  write (Database.setServerAvatar avatar)
  announceServerProfile

def setAvatar (primitives : Primitives) (user : UserId) (bytes : List UInt8) (clock : Clock) :
    HubM Response := do
  let limit := maxAvatarBytes / 1024
  require (bytes.length ≤ maxAvatarBytes) ⟨.tooLarge, s!"avatars are at most {limit} KiB"⟩
  mustTake .uploads user (max bytes.length minUploadCost : Nat) clock.now
    ⟨.rateLimited, "too many pictures; try again in a minute"⟩
  write (Database.deleteUnusedBlobs (clock.unixNow - unusedBlobGrace))
  let hash := primitives.hashOf bytes
  write (Database.putBlob hash bytes clock.unixNow)
  pure (.avatarHash hash)

def getAvatar (hash : Hash) : HubM Response := do
  .avatar <$> okOr (← read (Database.blob hash)) ⟨.notFound, "no such avatar"⟩

/-! ### Encryption keys and media -/

/-- Puts a stored encryption key into its user's session. -/
def takeKey (user : UserId) (encryptionKey : SignedEncryptionKey) : Hub → Hub :=
  modifySession user fun session =>
    { session with row := { session.row with encryptionKey := some encryptionKey } }

/-- Stores a user's encryption key. Only a new key re-keys their room; the same key again,
which clients send at every sign-in, changes nothing. -/
def setEncryptionKey (primitives : Primitives) (user : UserId)
    (encryptionKey : SignedEncryptionKey) (clock : Clock) : HubM Response := do
  let session ← session user
  require
    (clock.unixNow < encryptionKey.notAfter ∧
      encryptionKey.notAfter ≤ clock.unixNow + maxEncryptionKeyLifetime)
    ⟨.invalid, "the encryption key's expiry is out of range"⟩
  let stored := session.row.encryptionKey
  if stored = some encryptionKey then
    pure .ok
  else do
    let message :=
      encryptionKeyMessage (← current).fingerprint user encryptionKey.notAfter encryptionKey.key
    require (primitives.verify session.row.pubkey message encryptionKey.sig)
      ⟨.invalid, "the encryption key's signature is wrong"⟩
    onlyIf stored.isSome <|
      mustTake .encryptionKeyChanges user 1 clock.now
        ⟨.rateLimited, "the encryption key changes too often"⟩
    write (Database.setEncryptionKey user encryptionKey)
    change (takeKey user encryptionKey)
    match session.room with
    | none => pure .ok
    | some room => do
      -- The same key with a new expiry needs no new sender keys; peers only learn it.
      onlyIf (stored.all fun stored => stored.key ≠ encryptionKey.key) (bumpEpochs [room])
      change (broadcastPeers room none)
      pure .ok

/-- Applies the media state of a member of `room` and tells everyone who needs to know. -/
def applyMedia (user : UserId) (room : RoomId) (stored applied : MediaState) (hub : Hub) : Hub :=
  let hub := hub.modifySession user fun session => { session with media := applied }
  let hub := if applied.share ≠ stored.share then hub.broadcastPeers room none else hub
  -- Audiences list only running shares, so a share starting or ending changes them.
  let hub :=
    if applied.deafened ≠ stored.deafened ∨ applied.share.isSome ≠ stored.share.isSome then
      hub.rebuildRoutes
    else
      hub
  hub.announcePresence user

/-- Whether a new share is one too many for its room. -/
def sharesFull (hub : Hub) (room : RoomId) (stored media : MediaState) : Bool :=
  let starting := media.share.isSome ∧ stored.share.isNone
  starting ∧ maxRoomShares ≤ hub.seating.sharesIn room

/-- Whether a share that counts against its owner's allowance is refused. -/
def limitShare (counted : Bool) (user : UserId) (now : Instant) (hub : Hub) : Bool × Hub :=
  if counted then
    let (taken, hub) := hub.takeFrom .shareChanges user 1 now
    (!taken, hub)
  else
    (false, hub)

/-- Applies a media state, without its share if that is refused, and says so. -/
def finishMedia (user : UserId) (room : RoomId) (stored media : MediaState)
    (full limited : Bool) : HubM Response := do
  let share := if full ∨ limited then stored.share else media.share
  change (applyMedia user room stored { media with share })
  require (!full) ⟨.full, s!"this room already has {maxRoomShares} screen shares running"⟩
  require (!limited)
    ⟨.rateLimited, "too many share starts; the share stays as it was, try again in a moment"⟩
  pure .ok

/-- Mic and deafen always apply. A share that would be one too many for the room, or that
changes too often, is refused, and the rest still applies. -/
def setMedia (user : UserId) (media : MediaState) (clock : Clock) : HubM Response := do
  let room ← currentRoom user
  let stored := (← session user).media
  let full := (← current).sharesFull room stored media
  let counted : Bool := media.share.isSome ∧ media.share ≠ stored.share ∧ ¬ full
  let limited ← take (limitShare counted user clock.now)
  finishMedia user room stored media full limited

/-- Forwards a request for a keyframe of a picture, if it is due. -/
def askKeyframe (mediaId : MediaId) (kind : Recovery) (now : Instant) (hub : Hub) : Hub :=
  match hub.seating.shareTrack mediaId with
  | some (owner, .video) =>
    let (due, keyframes) := hub.keyframes.request mediaId kind now
    let hub := { hub with keyframes }
    match due with
    | some kind => hub.emitTo owner (.keyframeRequested mediaId kind)
    | none => hub
  | _ => hub

/-- Whether `user`, in `room`, may watch a track: it is another member's share. -/
def watchable (hub : Hub) (user : UserId) (room : RoomId) (mediaId : MediaId) : Bool :=
  (hub.seating.shareTrack mediaId).any fun found =>
    found.1 ≠ user ∧ (hub.sessions.lookup found.1).any fun session => session.room = some room

def setWatched (user : UserId) (ids : List MediaId) (clock : Clock) : HubM Response := do
  require (ids.length ≤ maxWatched) ⟨.tooLarge, "watching too many tracks"⟩
  let room ← currentRoom user
  let hub ← current
  require (ids.all (hub.watchable user room)) ⟨.invalid, "not a share in your room"⟩
  let session ← session user
  let started := ids.filter fun id => id ∉ session.watching
  change (modifySession user fun session => { session with watching := ids })
  change rebuildRoutes
  change fun hub => started.foldl (fun hub id => hub.askKeyframe id .idr clock.now) hub
  pure .ok

def requestKeyframe (user : UserId) (mediaId : MediaId) (kind : Recovery) (clock : Clock) :
    HubM Response := do
  require (mediaId ∈ (← session user).watching) ⟨.invalid, "you aren't watching that track"⟩
  let found := (← current).seating.shareTrack mediaId
  require (found.any fun found => found.2 = .video) ⟨.invalid, "not a video track"⟩
  change (askKeyframe mediaId kind clock.now)
  pure .ok

/-- Forwards keyframe requests that waited out their interval. -/
def flushKeyframes (clock : Clock) (hub : Hub) : Hub :=
  let (due, keyframes) := hub.keyframes.due clock.now
  due.foldl
    (fun hub request =>
      match hub.seating.shareTrack request.1 with
      | some (owner, _) => hub.emitTo owner (.keyframeRequested request.1 request.2)
      | none => { hub with keyframes := hub.keyframes.forget request.1 })
    { hub with keyframes }

/-- Checks the recipients of a sender key one by one; `seen` are those before. -/
def checkWrapped (user : UserId) (members : Finset UserId) :
    Finset UserId → List (UserId × List UInt8) → HubM Unit
  | _, [] => pure ()
  | seen, (recipient, blob) :: rest => do
    require (recipient ≠ user ∧ recipient ∈ members ∧ recipient ∉ seen)
      ⟨.invalid, "every recipient must be another member of the room, once"⟩
    require (blob.length ≤ maxWrappedBytes) ⟨.tooLarge, "wrapped key too large"⟩
    checkWrapped user members (insert recipient seen) rest

def publishKey (user : UserId) (epoch : Epoch) (wrapped : List (UserId × List UInt8)) :
    HubM Response := do
  let entry ← roomEntry (← currentRoom user)
  require (epoch = entry.epoch) ⟨.staleEpoch, "the room has moved to a newer epoch"⟩
  checkWrapped user entry.members ∅ wrapped
  change fun hub =>
    wrapped.foldl (fun hub to_ => hub.emitTo to_.1 (.senderKeyPublished user epoch to_.2)) hub
  pure .ok

/-! ### Rooms -/

/-- Checks that `user` may create a room called `name`, and returns the name to use. -/
def roomToCreate (user : UserId) (name : String) : HubM String := do
  permit (canManageRooms (← role user))
  let name ← checkedName name
  require ((← current).rooms.keys.card < maxRooms)
    ⟨.tooLarge, s!"a server holds at most {maxRooms} rooms"⟩
  pure name

/-- Opens the room the database has just created. -/
def openRoom (room : RoomId) (name : String) (passwordHash : Option String) (hub : Hub) : Hub :=
  { hub with
    rooms := hub.rooms.insert room { name, epoch := 0, passwordHash, members := ∅ } }

def addRoom (name : String) (passwordHash : Option String) : HubM Response := do
  let room ← call (Database.createRoom name passwordHash)
  change (openRoom room name passwordHash)
  change (emitAll (.roomCreated { id := room, name, locked := passwordHash.isSome }))
  pure .ok

def createRoom (user : UserId) (name : String) (password : Option String) : HubM Handled := do
  let name ← roomToCreate user name
  match password with
  | some password => do
    checkPasswordLength password
    pure (.pending (.createRoom name password))
  | none => .done <$> addRoom name none

def modifyRoom (room : RoomId) (update : RoomEntry → RoomEntry) (hub : Hub) : Hub :=
  { hub with rooms := hub.rooms.modify room update }

def renameRoom (user : UserId) (room : RoomId) (name : String) : HubM Response := do
  permit (canManageRooms (← role user))
  let name ← checkedName name
  let _ ← roomEntry room
  write (Database.renameRoom room name)
  change (modifyRoom room fun entry => { entry with name })
  change (emitAll (.roomRenamed room name))
  pure .ok

def mayManageRoom (user : UserId) (room : RoomId) : HubM Unit := do
  permit (canManageRooms (← role user))
  let _ ← roomEntry room
  pure ()

/-- Takes over a stored password. Whoever is not in the room now has to give it to enter. -/
def lockWith (room : RoomId) (hash : Option String) (members : Finset UserId) (hub : Hub) : Hub :=
  { hub.modifyRoom room fun entry => { entry with passwordHash := hash } with
    lastJoined := hub.lastJoined.retain fun user joined => joined ≠ room ∨ user ∈ members }

def storeRoomPassword (room : RoomId) (hash : Option String) : HubM Response := do
  let entry ← roomEntry room
  write (Database.setRoomPasswordHash room hash)
  change (lockWith room hash entry.members)
  change (emitAll (.roomLockChanged room hash.isSome))
  pure .ok

def setRoomPassword (user : UserId) (room : RoomId) (password : Option String) :
    HubM Handled := do
  mayManageRoom user room
  match password with
  | some password => do
    checkPasswordLength password
    pure (.pending (.setRoomPassword room password))
  | none => .done <$> storeRoomPassword room none

/-- Whether another member of a room ranks too high for `actor` to kick them. -/
def outranked (hub : Hub) (user : UserId) (actor : Role) (members : Finset UserId) : Bool :=
  ((ascending members).filter (· ≠ user)).any fun member =>
    (hub.seats.lookup member).any fun seat => !canKickFromRoom actor seat.row.role

/-- Forgets a room that has been deleted. -/
def dropRoom (room : RoomId) (hub : Hub) : Hub :=
  { hub with
    rooms := hub.rooms.erase room
    lastJoined := hub.lastJoined.retain fun _ joined => joined ≠ room }

/-- Moves everyone out of a room that is about to be deleted. -/
def clearRoom (members : Finset UserId) (clock : Clock) : HubM Unit :=
  forEach (fun member => do let _ ← place member none clock) (ascending members)

/-- Deleting a room moves its members out, so a manager may delete only rooms whose other
members they could kick. Admins may delete any. -/
def deleteRoom (user : UserId) (room : RoomId) (clock : Clock) : HubM Response := do
  let actor ← role user
  permit (canManageRooms actor)
  let members := (← roomEntry room).members
  require (actor = .admin ∨ ¬ (← current).outranked user actor members)
    ⟨.forbidden, "someone in this room outranks you; it can be deleted once they leave"⟩
  clearRoom members clock
  write (Database.deleteRoom room)
  change (dropRoom room)
  change (emitAll (.roomDeleted room))
  pure .ok

/-! ### Invites and users -/

/-- Records an invite as minted. -/
def noteMinted (invite : InviteRow) (hub : Hub) : Hub :=
  { hub with minted := hub.minted ++ [invite] }

/-- Tries codes until one's id is free. -/
def insertFresh (mintedBy : Option UserId) (expiresAt : Nat)
    (draws : Nat → Fin (idChars + secretChars) → UInt8) : Nat → HubM InviteCode
  | 0 => fail .internal
  | attempts + 1 => do
    let code := InviteCode.fromRandom (draws attempts)
    let invite : InviteRow :=
      { codeId := code.id, secret := code.secret, mintedBy, expiresAt, failures := 0 }
    if ← call (Database.insertInvite invite) then do
      change (noteMinted invite)
      pure code
    else
      insertFresh mintedBy expiresAt draws attempts

/-- Mints and stores a fresh single-use invite that lasts a day. One without a minter enrolls
an admin. -/
def mintInvite (mintedBy : Option UserId) (draws : Nat → Fin (idChars + secretChars) → UInt8)
    (now : Nat) : HubM (InviteCode × Nat) := do
  write (Database.purgeExpiredInvites now)
  let code ← insertFresh mintedBy (now + inviteLifetime) draws mintAttempts
  pure (code, now + inviteLifetime)

/-- Refuses a user who has used up their invites of the day. -/
def checkInviteCap (user : UserId) (cap : Option Nat) (now : Nat) : HubM Unit :=
  match cap with
  | none => pure ()
  | some cap => do
    require ((← read (Database.invitesUsed user now (now - inviteLifetime))) < cap)
      ⟨.rateLimited, s!"{cap} invites per day"⟩

def createInvite (user : UserId) (draws : Nat → Fin (idChars + secretChars) → UInt8)
    (clock : Clock) : HubM Response := do
  checkInviteCap user (inviteCap (← role user)) clock.unixNow
  let minted ← mintInvite (some user) draws clock.unixNow
  let id := minted.1.id
  let secret := minted.1.secret
  pure (.invite s!"{id}-{secret}" minted.2)

def listUsers (user : UserId) : HubM Response := do
  permit (canListUsers (← role user))
  let users ← read Database.allUsers
  pure (.users (users.map UserRow.toUser))

/-- Whether `target` last joined a room that is locked now. -/
def lastJoinedLocked (hub : Hub) (target : UserId) : Bool :=
  (hub.lastJoined.lookup target).any fun room =>
    (hub.rooms.lookup room).any fun entry => entry.passwordHash.isSome

/-- Applies a role already stored for `target` to their session and tells everyone who needs
to know. A manager enters locked rooms without their password; once demoted, a reconnect must
not return them to one. -/
def roleChanged (target : UserId) (role : Role) (hub : Hub) : Hub :=
  let hub := hub.modifySession target fun session =>
    { session with row := { session.row with role } }
  let hub :=
    if ¬ canManageRooms role ∧ hub.lastJoinedLocked target then hub.remember target none else hub
  let hub := hub.announcePresence target
  let hub := hub.emitUserListChange (.roleChanged target role)
  if canListUsers role then hub else hub.emitTo target (.roleChanged target role)

def setRole (user target : UserId) (role : Role) : HubM Response := do
  let actor ← Hub.role user
  -- Checked before the lookup too, so a refusal says nothing about who exists.
  permit (canSetRole actor .user role)
  let row ← storedUser target
  permit (canSetRole actor row.role role)
  write (Database.setRole target role)
  change (roleChanged target role)
  pure .ok

/-- Takes `target` out of the room they are in and tells them who did it. -/
def kick (user target : UserId) (room : RoomId) (clock : Clock) (hub : Hub) : Hub :=
  let hub := hub.remember target none
  let hub := hub.leaveRoom target clock
  hub.emitTo target (.kickedFromRoom user room)

def kickFromRoom (user target : UserId) (room : RoomId) (clock : Clock) : HubM Response := do
  let actor ← role user
  let found := ((← current).sessions.lookup target).filter fun session => session.room = some room
  let session ← okOr found ⟨.notFound, "they aren't in that room"⟩
  permit (canKickFromRoom actor session.row.role)
  change (kick user target room clock)
  pure .ok

/-- Ends the session of an account that has been removed. -/
def dropAccount (clock : Clock) (hub : Hub) (id : UserId) : Hub :=
  let hub := hub.remember id none
  let hub := hub.evict id "you were removed from this server" clock
  hub.emitUserListChange (.userRemoved id)

/-- Removes accounts and ends their sessions. -/
def removeAccounts (ids : List UserId) (clock : Clock) : HubM Unit := do
  write (Database.removeUsers ids)
  change fun hub => ids.foldl (dropAccount clock) hub

/-- The accounts a removal takes. -/
def accountsToRemove (target : UserId) (cascade : Bool) : HubM (List UserId) :=
  if cascade then read (Database.inviteTree target) else pure [target]

def removeUser (user target : UserId) (cascade : Bool) (clock : Clock) : HubM Response := do
  let actor ← role user
  let leaving : Bool := target = user ∧ ¬ cascade
  onlyIf (leaving && decide (actor = .admin)) do
    require ((← read Database.adminCount) ≠ 1)
      ⟨.forbidden, "you are the server's only admin, so you can't leave it"⟩
  -- Checked before the lookup too, so a refusal says nothing about who exists.
  permit (leaving || canRemove actor .user)
  let removed ← accountsToRemove target cascade
  forEach
    (fun id => do
      let row ← storedUser id
      permit (leaving || canRemove actor row.role))
    removed
  removeAccounts removed clock
  pure .ok

/-- Removes every account not signed in to for `inactiveAccountLifetime`. -/
def removeInactive (clock : Clock) : HubM Unit := do
  let inactive ← read (Database.unseenSince (clock.unixNow - inactiveAccountLifetime))
  onlyIf (!inactive.isEmpty) (removeAccounts inactive clock)

/-! ### Dispatch -/

/-- Counts a sender-key publish for the room's current epoch, and says whether it is still
within `freeKeyPublishes`. -/
def freeKeyPublish (user : UserId) (epoch : Epoch) (hub : Hub) : Bool × Hub :=
  match hub.sessions.lookup user with
  | none => (false, hub)
  | some session =>
    match session.room with
    | none => (false, hub)
    | some room =>
      if (hub.rooms.lookup room).any fun entry => entry.epoch = epoch then
        let before := match session.keyPublishes with
          | some (counted, at_, count) => if counted = room ∧ at_ = epoch then count else 0
          | none => 0
        (before + 1 ≤ freeKeyPublishes,
          hub.modifySession user fun session =>
            { session with keyPublishes := some (room, epoch, before + 1) })
      else
        (false, hub)

/-- Whether a request needs nothing from the request allowance. -/
def isFree (user : UserId) (request : Request) (hub : Hub) : Bool × Hub :=
  match request with
  | .publishSenderKey epoch _ => hub.freeKeyPublish user epoch
  | _ => (false, hub)

/-- The allowance a request takes from. -/
def allowanceOf : Request → Allowance
  | .requestKeyframe _ _ | .fetchAvatar _ => .cheapRequests
  | _ => .requests

/-- What a request does, once admitted. -/
def perform (primitives : Primitives) (user : UserId) (request : Request)
    (draws : Nat → Fin (idChars + secretChars) → UInt8) (clock : Clock) : HubM Handled :=
  match request with
  | .joinRoom room password => join user (some room) password clock
  | .leaveRoom => join user none none clock
  | .createRoom name password => createRoom user name password
  | .setRoomPassword room password => setRoomPassword user room password
  | .setProfile name avatar => .done <$> setProfile user name avatar clock
  | .uploadAvatar bytes => .done <$> setAvatar primitives user bytes clock
  | .fetchAvatar hash => .done <$> getAvatar hash
  | .setEncryptionKey encryptionKey =>
    .done <$> setEncryptionKey primitives user encryptionKey clock
  | .setMedia media => .done <$> setMedia user media clock
  | .renameRoom room name => .done <$> renameRoom user room name
  | .deleteRoom room => .done <$> deleteRoom user room clock
  | .createInvite => .done <$> createInvite user draws clock
  | .listUsers => .done <$> listUsers user
  | .setRole target role => .done <$> setRole user target role
  | .removeUser target cascade => .done <$> removeUser user target cascade clock
  | .setWatched ids => .done <$> setWatched user ids clock
  | .requestKeyframe mediaId kind => .done <$> requestKeyframe user mediaId kind clock
  | .publishSenderKey epoch wrapped => .done <$> publishKey user epoch wrapped
  | .setServerName name => .done <$> setServerName user name
  | .setServerAvatar avatar => .done <$> setServerAvatar user avatar
  | .kickFromRoom target room => .done <$> kickFromRoom user target room clock

/-- Handles a request from connection `conn`. A connection that has been replaced by a newer
one of the same user is refused. -/
def dispatch (primitives : Primitives) (user : UserId) (conn : ConnId) (request : Request)
    (draws : Nat → Fin (idChars + secretChars) → UInt8) (clock : Clock) : HubM Handled := do
  requireCurrent user conn
  let free ← take (isFree user request)
  onlyIf (!free) <|
    mustTake (allowanceOf request) user 1 clock.now
      ⟨.rateLimited, "too many requests; slow down"⟩
  perform primitives user request draws clock

/-- Finishes a request after its password work. The hub may have changed while the work ran,
so everything the request relies on is checked again. -/
def finish (user : UserId) (conn : ConnId) (done : PasswordDone) (clock : Clock) :
    HubM Response := do
  requireCurrent user conn
  match done with
  | .join room hash matched => finishJoin user room hash matched clock
  | .createRoom name hash => do
    let hash ← okOr hash .internal
    let name ← roomToCreate user name
    addRoom name (some hash)
  | .setRoomPassword room hash => do
    let hash ← okOr hash .internal
    mayManageRoom user room
    storeRoomPassword room (some hash)

/-! ### Enrollments -/

/-- Looks up the invite and uses up one of its tries before the run begins. -/
def claimTry (codeId : String) (now : Nat) : HubM (Option InviteRow) := do
  if codeId.toList.length = idChars then do
    let found ← read (Database.invite codeId)
    match found.filter fun invite => now < invite.expiresAt ∧ invite.failures < inviteTries with
    | none => pure none
    | some invite => do
      write (Database.consumeInviteTry codeId)
      change fun hub =>
        { hub with
          inviteRuns :=
            hub.inviteRuns.insert codeId ((hub.inviteRuns.lookup codeId).getD 0 + 1) }
      pure (some invite)
  else
    pure none

/-- Ends one run. Tells whether no other run of this invite is in flight. -/
def finishRun (codeId : String) (hub : Hub) : Bool × Hub :=
  match hub.inviteRuns.lookup codeId with
  | none => (true, hub)
  | some runs =>
    if 0 < runs - 1 then
      (false, { hub with inviteRuns := hub.inviteRuns.insert codeId (runs - 1) })
    else
      (true, { hub with inviteRuns := hub.inviteRuns.erase codeId })

/-- Ends a run of a live invite. The last run of an invite that has used up its tries burns
it, whether or not the deletion succeeds. -/
def endRun (codeId : String) (mintedBy : Option UserId) (hub : Hub) : Hub :=
  let (last, hub) := hub.finishRun codeId
  if last then
    match read (Database.invite codeId) hub with
    | (.ok (some invite), hub) =>
      if inviteTries ≤ invite.failures then
        let hub := (write (Database.deleteInvite codeId) hub).2
        match mintedBy with
        | some minter => hub.emitTo minter (.inviteSpent codeId)
        | none => hub
      else
        hub
    | (_, hub) => hub
  else
    hub

/-- Enrolls a key whose run has proved the invite's secret, and returns the user it signs
in. `startedAt` is when the run began. -/
def enroll (pubkey : PublicKey) (codeId name : String) (startedAt : Nat) :
    HubM (Option UserRow) := do
  let enrolled ← call (Database.enroll pubkey codeId name startedAt)
  match enrolled with
  | none => pure none
  | some enrolled => do
    let row := (← current).db.users.lookup enrolled.id
    change fun hub =>
      match enrolled, row with
      | .added _, some row => hub.emitUserListChange (.userAdded row.toUser)
      | .promoted id, some row => hub.roleChanged id row.role
      | _, _ => hub
    pure row

/-! ### Starting -/

/-- The hub of a server that starts with a database. A start that fails leaves no server
running, and the next one repeats what it did. -/
def start (clock : Clock) (hub : Hub) : Hub :=
  let db := (hub.db.deleteUnusedBlobs (clock.unixNow - unusedBlobGrace)).deleteSpentInvites
    inviteTries
  { db
    fingerprint := hub.fingerprint
    rooms := db.rooms.mapValues fun _ row =>
      { name := row.name, epoch := row.epoch, passwordHash := row.passwordHash, members := ∅ }
    log := hub.log
    given := hub.given
    minted := hub.minted }

end Hub

/-! ### The server as a state machine -/

/-- Password work in flight, and the connection it answers. -/
structure Pending where
  user : UserId
  conn : ConnId
  work : PasswordWork
deriving DecidableEq, Repr

structure Server where
  hub : Hub
  pending : List Pending := []

inductive Action where
  | connect (row : UserRow) (wantRoom : Option RoomId)
  | disconnect (user : UserId) (conn : ConnId)
  | request (user : UserId) (conn : ConnId) (request : Request)
  /-- Finishes a pending piece of password work; `hashed` is a new password's hash. -/
  | finish (index : Nat) (hashed : Option String)
  | removeInactive
  | flushKeyframes
  | claimTry (codeId : String)
  | enroll (pubkey : PublicKey) (codeId name : String) (startedAt : Nat)
  | endRun (codeId : String) (mintedBy : Option UserId)
  /-- `throcc-server admin-invite`, which opens the database beside the server. -/
  | adminInvite
  | restart

/-- What happens to the server, and what its clocks, the database and the random source do
meanwhile. -/
structure Input where
  action : Action
  clock : Clock
  /-- Which of the action's calls of the database fail. -/
  faults : List Bool := []
  draws : Nat → Fin (idChars + secretChars) → UInt8 := fun _ _ => 0

namespace Server

variable (primitives : Primitives)

def step (server : Server) (input : Input) : Server :=
  let clock := input.clock
  let hub := { server.hub with faults := input.faults }
  match input.action with
  | .connect row wantRoom => { server with hub := (hub.connect row wantRoom clock).2 }
  | .disconnect user conn => { server with hub := hub.disconnect user conn clock }
  | .request user conn request =>
    match Hub.dispatch primitives user conn request input.draws clock hub with
    | (.ok (.pending work), hub) => { hub, pending := server.pending ++ [⟨user, conn, work⟩] }
    | (_, hub) => { server with hub }
  | .finish index hashed =>
    match server.pending[index]? with
    | none => server
    | some pending =>
      let done := pending.work.run primitives hashed
      { hub := (Hub.finish pending.user pending.conn done clock hub).2
        pending := server.pending.eraseIdx index }
  | .removeInactive => { server with hub := (Hub.removeInactive clock hub).2 }
  | .flushKeyframes => { server with hub := hub.flushKeyframes clock }
  | .claimTry codeId => { server with hub := (Hub.claimTry codeId clock.unixNow hub).2 }
  | .enroll pubkey codeId name startedAt =>
    { server with hub := (Hub.enroll pubkey codeId name startedAt hub).2 }
  | .endRun codeId mintedBy => { server with hub := hub.endRun codeId mintedBy }
  | .adminInvite =>
    { server with hub := (Hub.mintInvite none input.draws clock.unixNow hub).2 }
  | .restart => { hub := hub.start clock, pending := [] }

/-- A server started for the first time. -/
def fresh (fingerprint : Fingerprint) (clock : Clock) : Server where
  hub := Hub.start clock { db := {}, fingerprint }

end Server

end Throcc
