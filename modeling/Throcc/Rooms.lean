/-
This file embeds how users come into rooms and out of them: joining with its
password check, moving in one step, rejoining on a reconnect, and eviction.
-/

import Throcc.Hub

namespace Throcc

/-- Argon2 work a request waits on, which runs without the hub lock. -/
inductive PasswordWork where
  | join (room : RoomId) (password hash : String)
  | createRoom (name password : String)
  | setRoomPassword (room : RoomId) (password : String)
deriving DecidableEq, Repr

/-- The result of `PasswordWork`. A hash that could not be made is `none`. -/
inductive PasswordDone where
  /-- `hash` is what the password was checked against. -/
  | join (room : RoomId) (hash : String) (matched : Bool)
  | createRoom (name : String) (hash : Option String)
  | setRoomPassword (room : RoomId) (hash : Option String)
deriving DecidableEq, Repr

/-- Runs the work; `hashed` is the hash of a new password with its fresh salt. -/
def PasswordWork.run (primitives : Primitives) (hashed : Option String) :
    PasswordWork → PasswordDone
  | join room password hash => .join room hash (primitives.passwordMatches password hash)
  | createRoom name _ => .createRoom name hashed
  | setRoomPassword room _ => .setRoomPassword room hashed

/-- What the hub makes of a request. -/
inductive Handled where
  | done (response : Response)
  | pending (work : PasswordWork)
deriving DecidableEq, Repr

def tracksPerMembership : Nat := 3

/-- The tracks of a membership whose media ids start at `first`. -/
def tracksAt (first : MediaId) : Tracks where
  mic := first
  shares := [{ video := first + 1, audio := first + 2 }]

/-- The seat in `room` with `tracks`, that sends no share and watches nothing. -/
def Seat.placed (seat : Seat) (room : Option RoomId) (tracks : Option Tracks) : Seat :=
  { seat with room, tracks, media := { seat.media with share := none }, watching := [] }

namespace Hub

open Attempt

def changingRoomsTooFast : Refusal :=
  ⟨.rateLimited, "you are changing rooms too fast; wait a moment"⟩

def roomFull : Refusal := ⟨.full, s!"this room is full; it holds {maxRoomMembers} people"⟩

/-- Refuses unless the allowance holds `cost`. -/
def mustHold (allowance : Allowance) (user : UserId) (cost : ℚ) (now : Instant)
    (refusal : Refusal) : HubM Unit := do
  require (← take (holdsIn allowance user cost now)) refusal

/-- Refuses unless `cost` can be taken from the allowance. -/
def mustTake (allowance : Allowance) (user : UserId) (cost : ℚ) (now : Instant)
    (refusal : Refusal) : HubM Unit := do
  require (← take (takeFrom allowance user cost now)) refusal

/-! ### Moving between rooms -/

/-- The next epoch of each of `rooms`. -/
def nextEpochs : List RoomId → HubM (List (RoomId × Epoch))
  | [] => pure []
  | room :: rest => do
    let entry ← roomEntry room
    require (entry.epoch + 1 ≤ u32Max) ⟨.internal, "room epoch exhausted"⟩
    let others ← nextEpochs rest
    pure ((room, entry.epoch + 1) :: others)

/-- Takes over epochs the database has stored. -/
def storeEpochs (epochs : List (RoomId × Epoch)) (hub : Hub) : Hub :=
  { hub with
    rooms :=
      epochs.foldl
        (fun rooms stored => rooms.modify stored.1 fun entry => { entry with epoch := stored.2 })
        hub.rooms
    log := hub.log ++ [.stored epochs] }

/-- Moves each of `rooms` to its next epoch, all or none. -/
def bumpEpochs (rooms : List RoomId) : HubM Unit := do
  let epochs ← nextEpochs rooms
  write (Database.setEpochs epochs)
  change (storeEpochs epochs)

/-- Records the media ids of new tracks as given. -/
def give (tracks : Tracks) (hub : Hub) : Hub := { hub with given := hub.given ++ trackIds tracks }

def allocateTracks : HubM Tracks := do
  let first ← okOr (← call (Database.allocateMediaIds tracksPerMembership))
    ⟨.internal, "this server has run out of media ids"⟩
  change (give (tracksAt first))
  pure (tracksAt first)

/-- Allocates tracks for a move into a room. -/
def allocateFor (target : Option RoomId) : HubM (Option Tracks) :=
  match target with
  | none => pure none
  | some _ => some <$> allocateTracks

def removeMember (room : RoomId) (user : UserId) (hub : Hub) : Hub :=
  { hub with
    rooms := hub.rooms.modify room fun entry => { entry with members := entry.members.erase user } }

def insertMember (room : RoomId) (user : UserId) (hub : Hub) : Hub :=
  { hub with
    rooms := hub.rooms.modify room fun entry => { entry with members := insert user entry.members } }

/-- Puts `user`'s session in `room` with `tracks`, ending what it sent and watched. -/
def setMembership (user : UserId) (room : Option RoomId) (tracks : Option Tracks) (hub : Hub) :
    Hub :=
  match hub.sessions.lookup user with
  | none => hub
  | some session =>
    let oldShares := (session.tracks.map (·.shares)).getD []
    { hub with
      sessions :=
        hub.sessions.insert user { session with toSeat := session.toSeat.placed room tracks }
      keyframes :=
        oldShares.foldl (fun keyframes share => keyframes.forget share.video) hub.keyframes }

/-- Announces where a move has taken `user`. -/
def announceMove (user : UserId) (hub : Hub) : Hub :=
  match (hub.seats.lookup user).bind presence with
  | some presence => hub.emitAll (.presenceChanged presence)
  | none => hub.emitAll (.presenceEnded user)

/-- Moves `user` and tells everyone, once the epochs are raised. -/
def moved (user : UserId) (current target : Option RoomId) (tracks : Option Tracks) (hub : Hub) :
    Hub :=
  let hub := current.toList.foldl (fun hub room => hub.removeMember room user) hub
  let hub := target.toList.foldl (fun hub room => hub.insertMember room user) hub
  let hub := hub.setMembership user target tracks
  let hub := current.toList.foldl (fun hub room => hub.broadcastPeers room none) hub
  let hub := target.toList.foldl (fun hub room => hub.broadcastPeers room (some user)) hub
  (hub.announceMove user).rebuildRoutes

/-- Refuses a room that is full, and a user whose encryption key is missing or has expired. -/
def checkTarget (session : Session) (target : Option RoomId) (unixNow : Nat) : HubM Unit :=
  match target with
  | none => pure ()
  | some room => do
    require ((← roomEntry room).members.card < maxRoomMembers) roomFull
    require (session.row.encryptionKey.any fun key => unixNow < key.notAfter)
      ⟨.invalid, "set an encryption key before joining a room"⟩

/-- Moves `user` to `target` in one step. On failure the user stays where they were. -/
def place (user : UserId) (target : Option RoomId) (clock : Clock) : HubM Placement := do
  let session ← session user
  if session.room = target then
    take (placement user)
  else do
    checkTarget session target clock.unixNow
    let tracks ← allocateFor target
    bumpEpochs (session.room.toList ++ target.toList)
    change (moved user session.room target tracks)
    take (placement user)

/-- Takes `user` out of `room` at its old epoch. -/
def expel (user : UserId) (room : RoomId) (hub : Hub) : Hub :=
  let hub := hub.removeMember room user
  let hub := hub.setMembership user none none
  let hub := hub.broadcastPeers room none
  (hub.emitAll (.presenceEnded user)).rebuildRoutes

/-- Takes `user` out of their room even when the room's epoch can't be bumped. -/
def leaveRoom (user : UserId) (clock : Clock) (hub : Hub) : Hub :=
  match hub.sessions.lookup user with
  | none => hub
  | some _ =>
    match place user none clock hub with
    | (.ok _, hub) => hub
    | (.error _, hub) =>
      match (hub.sessions.lookup user).bind (·.room) with
      | none => hub
      | some room => hub.expel user room

/-- Ends a session that is in no room. -/
def endSession (user : UserId) (hub : Hub) : Hub := { hub with sessions := hub.sessions.erase user }

def evict (user : UserId) (reason : String) (clock : Clock) (hub : Hub) : Hub :=
  let hub := hub.leaveRoom user clock
  match hub.sessions.lookup user with
  | none => hub
  | some session =>
    let hub := hub.endSession user
    { hub with log := hub.log ++ [.kicked session.connId reason] }

/-! ### Joining -/

/-- Whether moving `user` to `target` enters a room they aren't in, which counts against their
room changes. -/
def entersAnotherRoom (user : UserId) (target : Option RoomId) : HubM Bool :=
  match target with
  | none => pure false
  | some room => do pure ((← session user).room ≠ some room)

/-- The hash of the password `user` needs to enter `room`, if they need one. Members already
in it and those who manage rooms enter without one. -/
def passwordToEnter (user : UserId) (room : RoomId) : HubM (Option String) := do
  match (← roomEntry room).passwordHash with
  | none => pure none
  | some hash => do
    let session ← session user
    pure (if session.room = some room ∨ canManageRooms session.row.role then none else some hash)

/-- Hands a client the placement made for it. -/
def handOver (user : UserId) (placement : Placement) (hub : Hub) : Hub :=
  { hub with
    log :=
      hub.log ++ (hub.seats.lookup user).toList.map fun seat => .placed seat.connId placement }

/-- Notes the room a user has moved into, or that they left. -/
def remember (user : UserId) (target : Option RoomId) (hub : Hub) : Hub :=
  match target with
  | some room => { hub with lastJoined := hub.lastJoined.insert user room }
  | none => { hub with lastJoined := hub.lastJoined.erase user }

def enter (user : UserId) (target : Option RoomId) (clock : Clock) : HubM Response := do
  let moving ← entersAnotherRoom user target
  onlyIf moving (mustTake .roomChanges user 1 clock.now changingRoomsTooFast)
  let placement ← place user target clock
  change (handOver user placement)
  change (remember user target)
  pure (.placement placement)

/-- Refuses a guess at a room's password that has to wait. -/
def mayGuess (user : UserId) (room : RoomId) (now : Instant) : HubM Unit := do
  let waits ← take fun hub =>
    let (checked, guesses) := hub.guesses.check user room now
    (checked, { hub with guesses })
  match waits with
  | .ok () => pure ()
  | .error (.user wait) =>
    let seconds := max (wait / 1000000000) 1
    fail ⟨.rateLimited, s!"too many wrong passwords; try again in {seconds} seconds"⟩
  | .error .room =>
    fail ⟨.rateLimited, "this room has had too many wrong passwords; try again later"⟩

/-- Refuses a room that is full, before any password work. -/
def requireSpace (user : UserId) (room : RoomId) : HubM Unit := do
  let session ← session user
  onlyIf (session.room ≠ some room) do
    require ((← roomEntry room).members.card < maxRoomMembers) roomFull

/-- Starts the check of a password given for a locked room. -/
def askPassword (user : UserId) (room : RoomId) (password : Option String) (hash : String)
    (now : Instant) : HubM Handled :=
  match password with
  | none => fail ⟨.wrongPassword, "this room needs a password"⟩
  | some password => do
    mayGuess user room now
    mustTake .passwordTries user 1 now
      ⟨.rateLimited, "too many password attempts; wait a few seconds"⟩
    pure (.pending (.join room password hash))

/-- Enters `room`, or starts the check of the password it needs. -/
def joinRoom (user : UserId) (room : RoomId) (password : Option String) (clock : Clock) :
    HubM Handled := do
  requireSpace user room
  match ← passwordToEnter user room with
  | none => .done <$> enter user (some room) clock
  | some hash => askPassword user room password hash clock.now

def join (user : UserId) (target : Option RoomId) (password : Option String) (clock : Clock) :
    HubM Handled := do
  let moving ← entersAnotherRoom user target
  onlyIf moving (mustHold .roomChanges user 1 clock.now changingRoomsTooFast)
  match target with
  | none => .done <$> enter user none clock
  | some room => joinRoom user room password clock

/-- Enters `room` once a password checked against `hash` matched, if the room still asks for
that same password. -/
def finishJoin (user : UserId) (room : RoomId) (hash : String) (matched : Bool) (clock : Clock) :
    HubM Response :=
  if matched then do
    change fun hub => { hub with guesses := hub.guesses.succeeded user room }
    let needed ← passwordToEnter user room
    require (needed.all (· = hash)) ⟨.wrongPassword, "the room's password has just changed"⟩
    enter user (some room) clock
  else do
    change fun hub => { hub with guesses := hub.guesses.failed user room clock.now }
    fail ⟨.wrongPassword, "wrong password"⟩

/-! ### Connecting -/

/-- Whether a reconnect may put `user` back into `room` without its password. -/
def mayRejoin (hub : Hub) (user : UserId) (room : RoomId) : Bool :=
  (hub.rooms.lookup room).any (·.passwordHash.isNone) ∨
    (hub.sessions.lookup user).any (fun session => canManageRooms session.row.role) ∨
    hub.lastJoined.lookup user = some room

/-- Puts a reconnecting `user` back into `room`. Returning to the room they last joined takes
from an allowance of its own; any other room counts as a room change. -/
def rejoin (user : UserId) (room : RoomId) (clock : Clock) (hub : Hub) : Option Placement × Hub :=
  let allowance :=
    if hub.lastJoined.lookup user = some room then Allowance.rejoins else Allowance.roomChanges
  let (enough, hub) := hub.holdsIn allowance user 1 clock.now
  if enough then
    match place user (some room) clock hub with
    | (.ok placement, hub) => (some placement, (hub.takeFrom allowance user 1 clock.now).2)
    | (.error _, hub) => (none, hub)
  else
    (none, hub)

/-- Registers a connection. -/
def openSession (row : UserRow) (hub : Hub) : Hub :=
  { hub with
    nextConn := hub.nextConn + 1
    sessions := hub.sessions.insert row.id { connId := hub.nextConn + 1, row } }

/-- The placement a connection starts with: the room it wants, if it may return there. -/
def startingPlacement (user : UserId) (wantRoom : Option RoomId) (clock : Clock) (hub : Hub) :
    Placement × Hub :=
  match wantRoom.filter (hub.mayRejoin user) with
  | none => (lobby, hub)
  | some room =>
    let (placement, hub) := hub.rejoin user room clock
    (placement.getD lobby, hub)

/-- The server's profile, or an empty one when it can't be read. -/
def profileOrDefault (hub : Hub) : ServerProfile × Hub :=
  match read (·.serverProfile) hub with
  | (.ok profile, hub) => (profile, hub)
  | (.error _, hub) => ({}, hub)

/-- Why no further connection of `row`'s user is admitted: `maxOnline` others are signed in
and they aren't an admin, or `maxSignedIn` are. -/
def refusesConnection (hub : Hub) (row : UserRow) : Bool :=
  (maxSignedIn ≤ hub.sessions.keys.card ∨ (row.role ≠ .admin ∧ hub.isFull)) ∧
    row.id ∉ hub.sessions

/-- Signs `row`'s user in, in place of a previous connection, and welcomes them. -/
def welcome (row : UserRow) (wantRoom : Option RoomId) (clock : Clock) (hub : Hub) :
    (ConnId × Welcome) × Hub :=
  let user := row.id
  let hub := hub.evict user "you signed in from somewhere else" clock
  let hub := hub.openSession row
  let conn := hub.nextConn
  let (placement, hub) := hub.startingPlacement user wantRoom clock
  let hub := hub.handOver user placement
  let (server, hub) := hub.profileOrDefault
  ((conn,
      { me := user
        role := row.role
        rooms := hub.roomList
        presence := hub.seats.toList.filterMap fun entry => presence entry.2
        placement
        server
        profile := { name := row.name, avatar := row.avatar } }),
    hub)

/-- Registers a connection that has authenticated as `row`, and notes that its user was seen.
A previous connection of the same user is kicked. -/
def connect (row : UserRow) (wantRoom : Option RoomId) (clock : Clock) :
    HubM (Except AuthError (ConnId × Welcome)) := do
  let stored ← read (Database.user row.id)
  match stored.filter fun current => current.pubkey = row.pubkey with
  | none => pure (.error .unknownKey)
  | some current => do
    write (Database.markSeen row.id clock.unixNow)
    if (← Attempt.current).refusesConnection current then
      pure (.error .serverFull)
    else
      .ok <$> take (welcome current wantRoom clock)

/-- Leaving the room already rebuilds the routes, and a session outside a room has none. -/
def disconnect (user : UserId) (conn : ConnId) (clock : Clock) (hub : Hub) : Hub :=
  if hub.isCurrent user conn then (hub.leaveRoom user clock).endSession user else hub

end Hub

end Throcc
