/-
This file embeds the state of the server: its sessions and rooms beside its
database, what it sends to whom, and the routes and audiences it derives from
who sits where.

Maps whose order the source leaves open are gone through in ascending order.
Four fields stand for what lies outside the hub: `faults`, which of the coming
calls of the database fail, `log`, everything sent and stored in order, `given`,
every media id ever taken from the database, and `minted`, every invite ever
added to it.
-/

import Throcc.Attempt
import Throcc.Database
import Throcc.Limits

namespace Throcc

/-- One connection of a user. -/
abbrev ConnId := Nat

inductive TrackKind where
  | audio
  | video
deriving DecidableEq, Repr

structure Route where
  owner : ConnId
  kind : TrackKind
  subscribers : List ConnId
deriving DecidableEq, Repr

/-- The part of a session that its room, its routes and its peers depend on. -/
structure Seat where
  connId : ConnId
  row : UserRow
  room : Option RoomId := none
  tracks : Option Tracks := none
  media : MediaState := {}
  watching : List MediaId := []
deriving DecidableEq, Repr

structure Session extends Seat where
  lastProfile : Option Instant := none
  /-- Sender keys published for the room's current epoch, outside the request allowance. -/
  keyPublishes : Option (RoomId × Epoch × Nat) := none
  /-- The `seq` of the last `Audiences` made for this connection. -/
  audienceSeq : Nat := 0
deriving DecidableEq, Repr

structure RoomEntry where
  name : String
  epoch : Epoch
  passwordHash : Option String
  members : Finset UserId
deriving DecidableEq

/-- Who sits where: the rooms with their members, and every session's seat. -/
structure Seating where
  rooms : Map RoomId RoomEntry
  seats : Map UserId Seat

/-- What rate limits are kept for; the source has a field for each. -/
inductive Allowance where
  | requests
  | cheapRequests
  | uploads
  | passwordTries
  | roomChanges
  | rejoins
  | encryptionKeyChanges
  | shareChanges
deriving DecidableEq, Repr

/-- An allowance nobody has taken from yet. -/
def Allowance.unused : Allowance → Buckets UserId
  | requests => .new 100 20
  | cheapRequests => .new 1000 500
  | uploads => .new (1024 * 1024) (maxAvatarBytes / 10)
  | passwordTries => .new 5 (1 / 5)
  | roomChanges => .new 5 (1 / 2)
  | rejoins => .new 10 (1 / 10)
  | encryptionKeyChanges => .new 3 (1 / 60)
  | shareChanges => .new 5 1

/-- What leaves the hub. -/
inductive Effect where
  | sent (conn : ConnId) (event : Event)
  /-- A placement handed to a client, in a response or a welcome. -/
  | placed (conn : ConnId) (placement : Placement)
  | kicked (conn : ConnId) (reason : String)
  /-- A committed write of room epochs. -/
  | stored (epochs : List (RoomId × Epoch))
deriving DecidableEq, Repr

/-- Rooms, presence and every connected session. -/
structure Hub where
  db : Database
  fingerprint : Fingerprint
  /-- The forwarding table as last published. -/
  table : Map MediaId Route := ∅
  keyframes : KeyframeAggregator := {}
  sessions : Map UserId Session := ∅
  rooms : Map RoomId RoomEntry := ∅
  nextConn : ConnId := 0
  allowances : Allowance → Buckets UserId := Allowance.unused
  guesses : Guesses := {}
  /-- The room each user last moved into themselves, which a reconnect may return them to
  without its password. -/
  lastJoined : Map UserId RoomId := ∅
  /-- Who receives each share of every room where anyone does, as last announced to it. -/
  audiences : Map RoomId (List Audience) := ∅
  inviteRuns : Map String Nat := ∅
  faults : List Bool := []
  log : List Effect := []
  given : List MediaId := []
  minted : List InviteRow := []

structure Refusal where
  code : ErrorCode
  message : String
deriving DecidableEq, Repr

def Refusal.internal : Refusal := ⟨.internal, "internal server error"⟩

/-- An operation of the hub that may be refused. -/
abbrev HubM := Attempt Hub Refusal

/-- The functions the hub calls outside the repository. -/
structure Primitives where
  verify : PublicKey → List UInt8 → Signature → Bool
  hashOf : List UInt8 → Hash
  passwordMatches : String → String → Bool

def presence (seat : Seat) : Option Presence :=
  seat.room.map fun room =>
    { user := seat.row.id
      name := seat.row.name
      avatar := seat.row.avatar
      room := some room
      mic := seat.media.mic
      deafened := seat.media.deafened
      sharing := seat.media.share.isSome
      role := seat.row.role }

def peer (seat : Seat) : Option Peer :=
  match seat.tracks, seat.row.encryptionKey with
  | some tracks, some encryptionKey =>
    some
      { user := seat.row.id
        tracks
        share := seat.media.share
        identityKey := seat.row.pubkey
        encryptionKey }
  | _, _ => none

def lobby : Placement where
  room := none
  epoch := 0
  tracks := none
  peers := []
  audiences := {}

/-! ### Routes and audiences -/

/-- Who receives a share's picture. -/
def sees (share : ShareTracks) (seat : Seat) : Bool := share.video ∈ seat.watching

/-- Who receives a share's sound. -/
def hears (share : ShareTracks) (seat : Seat) : Bool :=
  share.audio ∈ seat.watching ∧ ¬ seat.media.deafened

def route (owner : ConnId) (kind : TrackKind) (subscribers : List Seat) : Route where
  owner := owner
  kind := kind
  subscribers := subscribers.map (·.connId)

/-- The members of a room other than `sender`. -/
def others (members : List Seat) (sender : Seat) : List Seat :=
  members.filter fun member => member.row.id ≠ sender.row.id

/-- The routes of one member's tracks. -/
def routesOf (members : List Seat) (sender : Seat) : List (MediaId × Route) :=
  match sender.tracks with
  | none => []
  | some tracks =>
    let owner := sender.connId
    let hearing := (others members sender).filter fun member => !member.media.deafened
    (tracks.mic, route owner .audio hearing) ::
      tracks.shares.flatMap fun share =>
        [(share.video, route owner .video ((others members sender).filter (sees share))),
          (share.audio, route owner .audio ((others members sender).filter (hears share)))]

/-- The audiences of one member's shares. A share that ended can keep watchers until they
unwatch it, but it has no audience to show. -/
def audiencesOf (members : List Seat) (sender : Seat) : List Audience :=
  match sender.tracks with
  | none => []
  | some tracks =>
    tracks.shares.filterMap fun share =>
      let receivers :=
        ((others members sender).filter fun member => sees share member || hears share member).map
          (·.row.id)
      if sender.media.share.isSome ∧ receivers ≠ [] then
        some { video := share.video, receivers }
      else
        none

namespace Seating

variable (seating : Seating)

/-- The seats of a room's members, by user id. -/
def seatsIn (entry : RoomEntry) : List Seat :=
  (ascending entry.members).filterMap fun member => seating.seats.lookup member

def peers (room : RoomId) : List Peer :=
  match seating.rooms.lookup room with
  | none => []
  | some entry => (seating.seatsIn entry).filterMap peer

/-- The connections of a room's members but `except`. -/
def membersExcept (room : RoomId) (except : Option UserId) : List ConnId :=
  match seating.rooms.lookup room with
  | none => []
  | some entry =>
    ((ascending entry.members).filter fun member => some member ≠ except).filterMap fun member =>
      (seating.seats.lookup member).map (·.connId)

/-- How many screen shares run in `room`. -/
def sharesIn (room : RoomId) : Nat :=
  match seating.rooms.lookup room with
  | none => 0
  | some entry => ((seating.seatsIn entry).filter fun seat => seat.media.share.isSome).length

/-- The owner and kind of a share track. -/
def shareTrack (mediaId : MediaId) : Option (UserId × TrackKind) :=
  seating.seats.toList.findSome? fun entry => do
    let tracks ← entry.2.tracks
    let share ← tracks.shares.find? fun share => share.video = mediaId ∨ share.audio = mediaId
    pure (entry.2.row.id, if share.video = mediaId then .video else .audio)

/-- The forwarding table of the rooms and sessions. -/
def routes : Map MediaId Route :=
  .ofList <| seating.rooms.toList.flatMap fun entry =>
    let members := seating.seatsIn entry.2
    members.flatMap (routesOf members)

/-- Who receives each running share of a room. -/
def audiencesNow (entry : RoomEntry) : List Audience :=
  let members := seating.seatsIn entry
  members.flatMap (audiencesOf members)

end Seating

namespace Hub

def seating (hub : Hub) : Seating where
  rooms := hub.rooms
  seats := hub.sessions.mapValues fun _ session => session.toSeat

def seats (hub : Hub) : Map UserId Seat := hub.seating.seats

def roomList (hub : Hub) : List Room :=
  hub.rooms.toList.map fun entry =>
    { id := entry.1, name := entry.2.name, locked := entry.2.passwordHash.isSome }

/-! ### Sending -/

/-- Queues an event on every one of these connections. -/
def send (connections : List ConnId) (event : Event) (hub : Hub) : Hub :=
  { hub with log := hub.log ++ connections.map fun conn => .sent conn event }

def emitTo (user : UserId) (event : Event) (hub : Hub) : Hub :=
  hub.send ((hub.seats.lookup user).toList.map (·.connId)) event

/-- Sends a change of the user list to everyone who may list users. -/
def emitUserListChange (event : Event) (hub : Hub) : Hub :=
  let listers := hub.seats.toList.filter fun entry => canListUsers entry.2.row.role
  hub.send (listers.map (·.2.connId)) event

def emitAll (event : Event) (hub : Hub) : Hub :=
  hub.send (hub.seats.toList.map (·.2.connId)) event

def emitRoom (room : RoomId) (event : Event) (except : Option UserId) (hub : Hub) : Hub :=
  hub.send (hub.seating.membersExcept room except) event

def announcePresence (user : UserId) (hub : Hub) : Hub :=
  match (hub.seats.lookup user).bind presence with
  | some presence => hub.emitAll (.presenceChanged presence)
  | none => hub

def broadcastPeers (room : RoomId) (except : Option UserId) (hub : Hub) : Hub :=
  match hub.rooms.lookup room with
  | none => hub
  | some entry => hub.emitRoom room (.peersChanged room entry.epoch (hub.seating.peers room)) except

/-! ### Publishing routes -/

/-- Who receives each share in `room` as last announced, under the next `seq` of `user`'s
session. -/
def audiencesIn (room : RoomId) (user : UserId) (hub : Hub) : Audiences × Hub :=
  let seq := ((hub.sessions.lookup user).map (·.audienceSeq)).getD 0 + 1
  ({ seq, shares := (hub.audiences.lookup room).getD [] },
    { hub with
      sessions := hub.sessions.modify user fun session => { session with audienceSeq := seq } })

/-- Tells a member of `room` who receives its shares. -/
def tellAudiences (room : RoomId) (hub : Hub) (member : UserId) : Hub :=
  match hub.sessions.lookup member with
  | none => hub
  | some session =>
    let (audiences, hub) := hub.audiencesIn room member
    hub.send [session.connId] (.audiencesChanged audiences)

/-- Recomputes who receives what and publishes it to the ingress loops. Tells each room whose
audiences changed since it was last told who receives each of its shares. -/
def rebuildRoutes (hub : Hub) : Hub :=
  let now := hub.rooms.toList.map fun entry => (entry.1, hub.seating.audiencesNow entry.2)
  let changed := now.filter fun entry => entry.2 ≠ (hub.audiences.lookup entry.1).getD []
  let hub :=
    { hub with
      table := hub.seating.routes
      audiences := .ofList (now.filter fun entry => entry.2 ≠ []) }
  changed.foldl
    (fun hub entry =>
      ((hub.rooms.lookup entry.1).map fun entry => ascending entry.members).getD []
        |>.foldl (tellAudiences entry.1) hub)
    hub

def placement (user : UserId) (hub : Hub) : Placement × Hub :=
  match hub.sessions.lookup user with
  | none => (lobby, hub)
  | some session =>
    match session.room with
    | none => (lobby, hub)
    | some room =>
      let (audiences, after) := hub.audiencesIn room user
      ({ room := some room
         epoch := ((hub.rooms.lookup room).map (·.epoch)).getD 0
         tracks := session.tracks
         peers := hub.seating.peers room
         audiences },
        after)

/-! ### Calls of the database -/

variable {Result : Type}

/-- Calls the database. A call that fails has no effect. -/
def call (statement : Database → Result × Database) : HubM Result := fun hub =>
  match hub.faults with
  | true :: faults => (.error .internal, { hub with faults })
  | faults =>
    let (result, db) := statement hub.db
    (.ok result, { hub with db, faults := faults.tail })

def read (query : Database → Result) : HubM Result := call fun db => (query db, db)

def write (statement : Database → Database) : HubM Unit := call fun db => ((), statement db)

/-! ### Lookups and allowances -/

open Attempt

def session (user : UserId) : HubM Session := do
  okOr ((← current).sessions.lookup user) ⟨.internal, "no session"⟩

def role (user : UserId) : HubM Role := do
  pure (← session user).row.role

def currentRoom (user : UserId) : HubM RoomId := do
  okOr (← session user).room ⟨.invalid, "join a room first"⟩

def noSuchRoom : Refusal := ⟨.notFound, "no such room"⟩

def roomEntry (room : RoomId) : HubM RoomEntry := do
  okOr ((← current).rooms.lookup room) noSuchRoom

def storedUser (user : UserId) : HubM UserRow := do
  okOr (← read (Database.user user)) ⟨.notFound, "no such user"⟩

/-- Refuses a picture that hasn't been uploaded. -/
def requirePicture (avatar : Option Hash) : HubM Unit :=
  match avatar with
  | none => pure ()
  | some hash => do
    require (← read (Database.hasBlob hash)) ⟨.notFound, "no such picture"⟩

def permit (allowed : Bool) : HubM Unit := require allowed ⟨.forbidden, "you can't do that"⟩

def checkedName (name : String) : HubM String :=
  okOr (validName name)
    ⟨.invalid, s!"names are 1 to {maxNameChars} characters, with nothing hidden or reversed"⟩

def checkPasswordLength (password : String) : HubM Unit :=
  require (validPassword password) ⟨.invalid, s!"passwords are 1 to {maxPasswordChars} characters"⟩

/-- Replaces an allowance. -/
def withAllowance (allowance : Allowance) (buckets : Buckets UserId) (hub : Hub) : Hub :=
  { hub with allowances := Function.update hub.allowances allowance buckets }

def takeFrom (allowance : Allowance) (user : UserId) (cost : ℚ) (now : Instant) (hub : Hub) :
    Bool × Hub :=
  let (taken, buckets) := (hub.allowances allowance).take user cost now
  (taken, hub.withAllowance allowance buckets)

def holdsIn (allowance : Allowance) (user : UserId) (cost : ℚ) (now : Instant) (hub : Hub) :
    Bool × Hub :=
  let (enough, buckets) := (hub.allowances allowance).holds user cost now
  (enough, hub.withAllowance allowance buckets)

def isCurrent (hub : Hub) (user : UserId) (conn : ConnId) : Bool :=
  (hub.sessions.lookup user).any fun session => session.connId = conn

def requireCurrent (user : UserId) (conn : ConnId) : HubM Unit := do
  require ((← current).isCurrent user conn) ⟨.forbidden, "this connection was replaced"⟩

/-- Whether `maxOnline` people are signed in. -/
def isFull (hub : Hub) : Bool := maxOnline ≤ hub.sessions.keys.card

end Hub

end Throcc
