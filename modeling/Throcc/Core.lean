/-
This file abstracts the server to what decides who is where: the stored users
and rooms, the seats, the rooms in memory, the rooms users last joined, the
published routes, and the room states sent and epochs stored so far.

What the hub does to this part is a sequence of `Turn`s. Each says what it
changes and what is true before it, so that an invariant is proved turn by turn
and holds after every operation whose core a chain of turns explains.
-/

import Throcc.Requests

namespace Throcc

/-- What the room epochs are about: a room state sent to one member, or a committed write. -/
inductive Notice where
  | listed (room : RoomId) (epoch : Epoch) (peers : List Peer)
  | stored (epochs : List (RoomId × Epoch))
deriving DecidableEq, Repr

def Effect.notice : Effect → Option Notice
  | sent _ (.peersChanged room epoch peers) => some (.listed room epoch peers)
  | sent _ _ => none
  | placed _ placement =>
    placement.room.map fun room => .listed room placement.epoch placement.peers
  | kicked _ _ => none
  | stored epochs => some (.stored epochs)

structure Core extends Seating where
  users : Map UserId UserRow
  lastUser : UserId
  stored : Map RoomId RoomRow
  lastRoom : RoomId
  nextMediaId : MediaId
  given : List MediaId
  nextConn : ConnId
  lastJoined : Map UserId RoomId
  table : Map MediaId Route
  notices : List Notice

def Hub.core (hub : Hub) : Core where
  toSeating := hub.seating
  users := hub.db.users
  lastUser := hub.db.lastUser
  stored := hub.db.rooms
  lastRoom := hub.db.lastRoom
  nextMediaId := hub.db.nextMediaId
  given := hub.given
  nextConn := hub.nextConn
  lastJoined := hub.lastJoined
  table := hub.table
  notices := hub.log.filterMap Effect.notice

namespace Core

variable (core : Core)

/-! ### Changes of one part -/

/-- The room a user's seat is in. -/
def roomOf (user : UserId) : Option RoomId := (core.seats.lookup user).bind (·.room)

def withSeat (user : UserId) (update : Seat → Seat) : Core :=
  { core with seats := core.seats.modify user update }

def withUser (user : UserId) (update : UserRow → UserRow) : Core :=
  { core with users := core.users.modify user update }

def withRoom (room : RoomId) (update : RoomEntry → RoomEntry) : Core :=
  { core with rooms := core.rooms.modify room update }

/-- Recomputes the published routes. -/
def rebuild : Core := { core with table := core.routes }

/-- The state of a room, as members see it. -/
def stateOf (room : RoomId) : Notice :=
  .listed room (((core.rooms.lookup room).map (·.epoch)).getD 0) (core.peers room)

/-- Sends the state of a room to its members but `except`. -/
def broadcast (room : RoomId) (except : Option UserId) : Core :=
  { core with
    notices := core.notices ++ (core.membersExcept room except).map fun _ => core.stateOf room }

/-- Hands a user the state of the room they are in. -/
def hand (user : UserId) : Core :=
  { core with
    notices := core.notices ++ (core.roomOf user).toList.map fun room => core.stateOf room }

def remember (user : UserId) (target : Option RoomId) : Core :=
  match target with
  | some room => { core with lastJoined := core.lastJoined.insert user room }
  | none => { core with lastJoined := core.lastJoined.erase user }

/-! ### Moving -/

def nextEpochs (rooms : List RoomId) : List (RoomId × Epoch) :=
  rooms.filterMap fun room => (core.rooms.lookup room).map fun entry => (room, entry.epoch + 1)

/-- Raises and stores the epochs of rooms. -/
def raise (rooms : List RoomId) : Core :=
  let epochs := core.nextEpochs rooms
  { core with
    stored :=
      epochs.foldl
        (fun stored next => stored.modify next.1 fun row => { row with epoch := next.2 })
        core.stored
    rooms :=
      epochs.foldl
        (fun rooms next => rooms.modify next.1 fun entry => { entry with epoch := next.2 })
        core.rooms
    notices := core.notices ++ [.stored epochs] }

def removeMember (room : RoomId) (user : UserId) : Core :=
  core.withRoom room fun entry => { entry with members := entry.members.erase user }

def insertMember (room : RoomId) (user : UserId) : Core :=
  core.withRoom room fun entry => { entry with members := insert user entry.members }

/-- Moves `user` from `current` to `target` and tells both rooms. -/
def moved (user : UserId) (current target : Option RoomId) (tracks : Option Tracks) : Core :=
  let core := current.toList.foldl (fun core room => core.removeMember room user) core
  let core := target.toList.foldl (fun core room => core.insertMember room user) core
  let core := core.withSeat user fun seat => seat.placed target tracks
  let core := current.toList.foldl (fun core room => core.broadcast room none) core
  let core := target.toList.foldl (fun core room => core.broadcast room (some user)) core
  core.rebuild

/-- Takes the media ids of one membership. -/
def allocate : Core :=
  { core with
    nextMediaId := core.nextMediaId + tracksPerMembership
    given := core.given ++ trackIds (tracksAt core.nextMediaId) }

/-- Moves `user` to `target`, at a new epoch of the rooms left and entered. -/
def place (user : UserId) (target : Option RoomId) : Core :=
  let current := core.roomOf user
  let tracks := target.map fun _ => tracksAt core.nextMediaId
  let core := if target.isSome then core.allocate else core
  (core.raise (current.toList ++ target.toList)).moved user current target tracks

def expel (user : UserId) (room : RoomId) : Core :=
  let core := core.removeMember room user
  let core := core.withSeat user fun seat => seat.placed none none
  (core.broadcast room none).rebuild

/-! ### What moving leaves -/

theorem seats_moved (user : UserId) (current target : Option RoomId) (tracks : Option Tracks) :
    (core.moved user current target tracks).seats =
      core.seats.modify user fun seat => seat.placed target tracks := by
  cases current <;> cases target <;> rfl

theorem seats_place (user : UserId) (target : Option RoomId) :
    (core.place user target).seats =
      core.seats.modify user fun seat =>
        seat.placed target (target.map fun _ => tracksAt core.nextMediaId) := by
  unfold place
  rw [seats_moved]
  cases target <;> rfl

theorem roomOf_eq_none_of_modify (seats : Map UserId Seat) {user : UserId}
    (same : core.seats = seats.modify user fun seat => seat.placed none none) :
    core.roomOf user = none := by
  rw [roomOf, same, Map.lookup_modify_self]
  cases seats.lookup user <;> rfl

theorem roomOf_place_none (user : UserId) : (core.place user none).roomOf user = none :=
  roomOf_eq_none_of_modify _ core.seats (core.seats_place user none)

theorem roomOf_place {user : UserId} {target : Option RoomId}
    (seated : (core.seats.lookup user).isSome) :
    (core.place user target).roomOf user = target := by
  rw [roomOf, seats_place, Map.lookup_modify_self]
  obtain ⟨seat, found⟩ := Option.isSome_iff_exists.mp seated
  rw [found]
  rfl

theorem roomOf_expel (user : UserId) (room : RoomId) :
    (core.expel user room).roomOf user = none :=
  roomOf_eq_none_of_modify _ core.seats rfl

/-- Handing a user who is in no room their placement sends no state. -/
theorem hand_eq_self {user : UserId} (outside : core.roomOf user = none) :
    core.hand user = core := by
  unfold hand
  rw [outside]
  exact congrArg (fun notices => { core with notices }) (List.append_nil _)

end Core

/-- One change of the core. -/
inductive Turn where
  | allocate
  | enter (user : UserId) (room : RoomId)
  | leave (user : UserId)
  /-- Takes a user out of their room at its old epoch. -/
  | expel (user : UserId)
  /-- Hands a user their placement once more. -/
  | hand (user : UserId)
  | remember (user : UserId) (target : Option RoomId)
  | signIn (row : UserRow)
  | signOut (user : UserId)
  /-- Stores an encryption key of a user who is in no room. -/
  | storeKey (user : UserId) (encryptionKey : SignedEncryptionKey)
  /-- Stores a member's new key, whose room is not told because its epoch can't be raised. -/
  | halfKey (user : UserId) (encryptionKey : SignedEncryptionKey)
  /-- Stores the key a member has with a new expiry, and tells the room. -/
  | renewKey (user : UserId) (encryptionKey : SignedEncryptionKey)
  /-- Stores a member's new key, at a new epoch of the room. -/
  | rekey (user : UserId) (encryptionKey : SignedEncryptionKey)
  | media (user : UserId) (media : MediaState)
  | watch (user : UserId) (ids : List MediaId)
  | profile (user : UserId) (name : String) (avatar : Option Hash)
  | role (user : UserId) (role : Role)
  | addRoom (name : String) (passwordHash : Option String)
  | renameRoom (room : RoomId) (name : String)
  | lock (room : RoomId) (passwordHash : Option String)
  | dropRoom (room : RoomId)
  | removeUsers (ids : List UserId)
  | addUser (row : UserRow)
  | restart

/-- The turns that take users out of rooms and off the server, and forget where they were. -/
def Turn.ousts : Turn → Prop
  | .leave _ => True
  | .expel _ => True
  | .signOut _ => True
  | .remember _ none => True
  | _ => False

/-- The turns after which every session is a stored user's and shows its room what is stored. -/
def Turn.sound : Turn → Prop
  | .removeUsers _ => False
  | .halfKey _ _ => False
  | _ => True

theorem Turn.ousts.sound {turn : Turn} (ousts : turn.ousts) : turn.sound := by
  cases turn with
  | removeUsers ids => exact ousts
  | halfKey user encryptionKey => exact ousts
  | _ => trivial

namespace Core

/-- Stores a key for a user and puts it into their seat. -/
def storeKey (core : Core) (user : UserId) (encryptionKey : SignedEncryptionKey) : Core :=
  (core.withUser user fun row => { row with encryptionKey := some encryptionKey }).withSeat user
    fun seat => { seat with row := { seat.row with encryptionKey := some encryptionKey } }

/-- Applies a member's media state, tells the room of a changed share, and rebuilds the routes
if that or the deafening matters to them. -/
def setMedia (core : Core) (user : UserId) (media : MediaState) : Core :=
  let before := ((core.seats.lookup user).map (·.media)).getD {}
  let room := core.roomOf user
  let core := core.withSeat user fun seat => { seat with media }
  let core :=
    if media.share ≠ before.share then
      room.toList.foldl (fun core room => core.broadcast room none) core
    else
      core
  if media.deafened ≠ before.deafened ∨ media.share.isSome ≠ before.share.isSome then core.rebuild
  else core

/-- Whether a user last joined a room that is locked. -/
def lastJoinedLocked (core : Core) (user : UserId) : Bool :=
  (core.lastJoined.lookup user).any fun room =>
    (core.rooms.lookup room).any fun entry => entry.passwordHash.isSome

/-- Puts a stored role into its user's seat. -/
def takeRole (core : Core) (user : UserId) (role : Role) : Core :=
  let core := core.withSeat user fun seat => { seat with row := { seat.row with role } }
  if ¬ canManageRooms role ∧ core.lastJoinedLocked user then core.remember user none else core

/-- Removes one user, clearing `invitedBy` on anyone they invited. -/
def removeRow (users : Map UserId UserRow) (id : UserId) : Map UserId UserRow :=
  (users.mapValues fun _ row =>
    if row.invitedBy = some id then { row with invitedBy := none } else row).erase id

/-- Changes a room's password; whoever is not in the room now has to give it to enter. -/
def lock (core : Core) (room : RoomId) (passwordHash : Option String) : Core :=
  let members := ((core.rooms.lookup room).map (·.members)).getD ∅
  { core.withRoom room fun entry => { entry with passwordHash } with
    stored := core.stored.modify room fun row => { row with passwordHash }
    lastJoined := core.lastJoined.retain fun user joined => joined ≠ room ∨ user ∈ members }

def apply (core : Core) : Turn → Core
  | .allocate => core.allocate
  | .enter user room => (core.place user (some room)).hand user
  | .leave user => core.place user none
  | .expel user =>
    match core.roomOf user with
    | none => core
    | some room => core.expel user room
  | .hand user => core.hand user
  | .remember user target => core.remember user target
  | .signIn row =>
    { core with
      nextConn := core.nextConn + 1
      seats := core.seats.insert row.id { connId := core.nextConn + 1, row } }
  | .signOut user => { core with seats := core.seats.erase user }
  | .storeKey user encryptionKey => core.storeKey user encryptionKey
  | .halfKey user encryptionKey => core.storeKey user encryptionKey
  | .renewKey user encryptionKey =>
    (core.roomOf user).toList.foldl (fun core room => core.broadcast room none)
      (core.storeKey user encryptionKey)
  | .rekey user encryptionKey =>
    (core.roomOf user).toList.foldl (fun core room => core.broadcast room none)
      ((core.storeKey user encryptionKey).raise (core.roomOf user).toList)
  | .media user media => core.setMedia user media
  | .watch user ids => (core.withSeat user fun seat => { seat with watching := ids }).rebuild
  | .profile user name avatar =>
    (core.withUser user fun row => { row with name, avatar }).withSeat user
      fun seat => { seat with row := { seat.row with name, avatar } }
  | .role user role => (core.withUser user fun row => { row with role }).takeRole user role
  | .addRoom name passwordHash =>
    { core with
      lastRoom := core.lastRoom + 1
      stored := core.stored.insert (core.lastRoom + 1) { name, epoch := 0, passwordHash }
      rooms :=
        core.rooms.insert (core.lastRoom + 1) { name, epoch := 0, passwordHash, members := ∅ } }
  | .renameRoom room name =>
    { core.withRoom room fun entry => { entry with name } with
      stored := core.stored.modify room fun row => { row with name } }
  | .lock room passwordHash => core.lock room passwordHash
  | .dropRoom room =>
    { core with
      stored := core.stored.erase room
      rooms := core.rooms.erase room
      lastJoined := core.lastJoined.retain fun _ joined => joined ≠ room }
  | .removeUsers ids => { core with users := ids.foldl removeRow core.users }
  | .addUser row =>
    { core with lastUser := core.lastUser + 1, users := core.users.insert row.id row }
  | .restart =>
    { core with
      rooms :=
        core.stored.mapValues fun _ row =>
          { name := row.name, epoch := row.epoch, passwordHash := row.passwordHash, members := ∅ }
      seats := ∅
      nextConn := 0
      lastJoined := ∅
      table := ∅ }

/-- The epochs of these rooms can be raised. -/
def CanRaise (core : Core) (rooms : List RoomId) : Prop :=
  ∀ room ∈ rooms, ∃ entry, core.rooms.lookup room = some entry ∧ entry.epoch + 1 ≤ u32Max

/-- A user sits outside `target` and may be moved there. -/
def CanPlace (core : Core) (user : UserId) (target : Option RoomId) : Prop :=
  (∃ seat, core.seats.lookup user = some seat ∧ seat.room ≠ target ∧
    (target.isSome → seat.row.encryptionKey.isSome)) ∧
    (∀ room, target = some room →
      (∃ entry, core.rooms.lookup room = some entry ∧ entry.members.card < maxRoomMembers) ∧
        core.nextMediaId + tracksPerMembership - 1 ≤ u32Max) ∧
    core.CanRaise ((core.roomOf user).toList ++ target.toList)

/-- What is true before a turn. -/
def Allows (core : Core) : Turn → Prop
  | .allocate => core.nextMediaId + tracksPerMembership - 1 ≤ u32Max
  | .enter user room => core.CanPlace user (some room)
  | .leave user => core.CanPlace user none
  | .expel user => ∃ room, core.roomOf user = some room
  | .hand _ => True
  | .remember user target => ∀ room, target = some room → core.roomOf user = some room
  | .signIn row => core.users.lookup row.id = some row ∧ row.id ∉ core.seats
  | .signOut user => core.roomOf user = none
  | .storeKey user _ => core.roomOf user = none
  | .halfKey user encryptionKey =>
    ∃ seat, core.seats.lookup user = some seat ∧ seat.room.isSome ∧
      ∀ stored, seat.row.encryptionKey = some stored → stored.key ≠ encryptionKey.key
  | .renewKey user encryptionKey =>
    ∃ seat stored, core.seats.lookup user = some seat ∧ seat.row.encryptionKey = some stored ∧
      stored.key = encryptionKey.key
  | .rekey user _ => core.CanRaise (core.roomOf user).toList
  | .media user media =>
    ∃ seat room, core.seats.lookup user = some seat ∧ seat.room = some room ∧
      (media.share.isSome → seat.media.share.isSome ∨ core.sharesIn room < maxRoomShares)
  | .watch user ids =>
    ∃ seat room, core.seats.lookup user = some seat ∧ seat.room = some room ∧
      ∀ id ∈ ids, ∃ owner kind, core.shareTrack id = some (owner, kind) ∧ owner ≠ user ∧
        core.roomOf owner = some room
  | .profile _ _ _ => True
  | .role _ _ => True
  | .addRoom _ _ => True
  | .renameRoom _ _ => True
  | .lock _ _ => True
  | .dropRoom room => ∃ entry, core.rooms.lookup room = some entry ∧ entry.members = ∅
  | .removeUsers _ => True
  | .addUser row => row.id = core.lastUser + 1
  | .restart => True

/-- A turn has led to `next`. -/
def Does (core : Core) (turn : Turn) (next : Core) : Prop :=
  core.Allows turn ∧ next = core.apply turn

/-- A chain of turns, all of a kind that `may` happen, leads from one core to another. -/
inductive Leads (may : Turn → Prop) : Core → Core → Prop where
  | done (core : Core) : Leads may core core
  | turn {before between : Core} (leads : Leads may before between) (turn : Turn) (kind : may turn)
      (allowed : between.Allows turn) : Leads may before (between.apply turn)

/-- Users are removed, and every session of theirs has ended. -/
def Removes (core : Core) (ids : List UserId) (next : Core) : Prop :=
  Leads Turn.ousts (core.apply (.removeUsers ids)) next ∧ ∀ id ∈ ids, id ∉ next.seats

/-- What a user has to show to enter a room: nothing if they are in it, manage rooms or the
room is open, and else the hash their password matched. -/
def MayEnter (core : Core) (user : UserId) (room : RoomId) (proved : Option String) : Prop :=
  ∃ entry, core.rooms.lookup room = some entry ∧
    ∀ hash, entry.passwordHash = some hash →
      core.roomOf user = some room ∨
        (∃ seat, core.seats.lookup user = some seat ∧ canManageRooms seat.row.role) ∨
        proved = some hash

/-- Whether a reconnect may put a user back into a room without its password. -/
def MayRejoin (core : Core) (user : UserId) (room : RoomId) : Prop :=
  (∃ entry, core.rooms.lookup room = some entry ∧ entry.passwordHash = none) ∨
    (∃ seat, core.seats.lookup user = some seat ∧ canManageRooms seat.row.role) ∨
    core.lastJoined.lookup user = some room

/-- A join of `target` has led to `next`. -/
def Joins (core : Core) (user : UserId) (target : Option RoomId) (next : Core) : Prop :=
  (core.roomOf user = target ∨ core.CanPlace user target) ∧
    next =
      ((if core.roomOf user = target then core else core.place user target).hand user).remember
        user target

/-- A user who has just signed in has come to `next`, back in a room or not. -/
def Settles (core : Core) (user : UserId) (next : Core) : Prop :=
  next = core ∨ core.Allows .allocate ∧ next = core.allocate ∨
    ∃ room, core.MayRejoin user room ∧ core.CanPlace user (some room) ∧
      next = core.apply (.enter user room)

/-- Every stored user is stored under their id. -/
def Keyed (core : Core) : Prop := ∀ id row, core.users.lookup id = some row → row.id = id

namespace Leads

variable {may weaker : Turn → Prop} {first second third : Core}

theorem one (turn : Turn) (kind : may turn) (allowed : first.Allows turn) :
    Leads may first (first.apply turn) := .turn (.done first) turn kind allowed

theorem trans (before : Leads may first second) (after : Leads may second third) :
    Leads may first third := by
  induction after with
  | done => exact before
  | turn _ turn kind allowed inductionHypothesis =>
    exact .turn inductionHypothesis turn kind allowed

theorem mono (leads : Leads may first second) (implies : ∀ turn, may turn → weaker turn) :
    Leads weaker first second := by
  induction leads with
  | done => exact .done _
  | turn _ turn kind allowed inductionHypothesis =>
    exact .turn inductionHypothesis turn (implies turn kind) allowed

/-- What every turn of the chain keeps, the chain keeps. -/
theorem invariant (leads : Leads may first second) (holds : Core → Prop) (start : holds first)
    (kept : ∀ core turn, holds core → may turn → core.Allows turn → holds (core.apply turn)) :
    holds second := by
  induction leads with
  | done => exact start
  | turn _ turn kind allowed inductionHypothesis =>
    exact kept _ turn inductionHypothesis kind allowed

end Leads

/-! ### What ousting leaves -/

/-- An ousting turn takes seats away or moves them out of their rooms. -/
theorem lookup_seats_of_ousts (core : Core) {turn : Turn} (ousts : turn.ousts) (user : UserId) :
    (core.apply turn).seats.lookup user = core.seats.lookup user ∨
      (core.apply turn).seats.lookup user = none ∨
      (core.apply turn).seats.lookup user =
        (core.seats.lookup user).map fun seat => seat.placed none none := by
  have moves : ∀ mover : UserId, (core.seats.modify mover fun seat => seat.placed none none).lookup
      user = core.seats.lookup user ∨ (core.seats.modify mover fun seat => seat.placed none none).lookup
        user = (core.seats.lookup user).map fun seat => seat.placed none none := by
    intro mover
    rw [Map.lookup_modify]
    split
    · exact .inr rfl
    · exact .inl rfl
  cases turn with
  | leave mover =>
    have same : (core.apply (.leave mover)).seats =
        core.seats.modify mover fun seat => seat.placed none none := core.seats_place mover none
    rw [same]
    exact (moves mover).imp_right .inr
  | expel mover =>
    unfold apply
    dsimp only
    split
    · exact .inl rfl
    · exact (moves mover).imp_right .inr
  | signOut leaver =>
    have same : (core.apply (.signOut leaver)).seats = core.seats.erase leaver := rfl
    rw [same, Map.lookup_erase_ite]
    split
    · exact .inr (.inl rfl)
    · exact .inl rfl
  | remember user target =>
    cases target with
    | none => exact .inl rfl
    | some room => exact ousts.elim
  | _ => exact ousts.elim

theorem Leads.notMem_seats {core next : Core} (leads : Leads Turn.ousts core next) {user : UserId}
    (absent : user ∉ core.seats) : user ∉ next.seats := by
  refine leads.invariant (user ∉ ·.seats) absent fun core turn absent ousts _ => ?_
  have missing := Finmap.lookup_eq_none.mpr absent
  refine Finmap.lookup_eq_none.mp ?_
  obtain same | gone | moved := lookup_seats_of_ousts core ousts user
  · rw [same, missing]
  · exact gone
  · rw [moved, missing, Option.map_none]

theorem Leads.roomOf_eq_none {core next : Core} (leads : Leads Turn.ousts core next)
    {user : UserId} (outside : core.roomOf user = none) : next.roomOf user = none := by
  refine leads.invariant (·.roomOf user = none) outside fun core turn outside ousts _ => ?_
  unfold roomOf at outside ⊢
  obtain same | gone | moved := lookup_seats_of_ousts core ousts user
  · rw [same, outside]
  · rw [gone, Option.bind_none]
  · rw [moved]
    cases core.seats.lookup user <;> rfl

end Core

end Throcc
