/-
This file embeds the server's database: its tables as maps and every statement
the server runs as a function of them. Ids of users and rooms come from counters
that never go back, as `AUTOINCREMENT` makes them.
-/

import Throcc.Map
import Throcc.Proto

namespace Throcc

structure UserRow where
  id : UserId
  pubkey : PublicKey
  encryptionKey : Option SignedEncryptionKey
  name : String
  avatar : Option Hash
  role : Role
  invitedBy : Option UserId
  createdAt : Nat
deriving DecidableEq, Repr

def UserRow.toUser (row : UserRow) : User where
  id := row.id
  name := row.name
  role := row.role
  invitedBy := row.invitedBy
  identityKey := row.pubkey
  createdAt := row.createdAt

structure RoomRow where
  name : String
  epoch : Epoch
  passwordHash : Option String
deriving DecidableEq, Repr

structure InviteRow where
  codeId : String
  secret : String
  mintedBy : Option UserId
  expiresAt : Nat
  failures : Nat
deriving DecidableEq, Repr

structure Blob where
  bytes : List UInt8
  uploadedAt : Nat
deriving DecidableEq, Repr

/-- The user an enrollment signed in, and what it did to them. -/
inductive Enrolled where
  | added (id : UserId)
  /-- An existing user whom an admin invite made an admin. -/
  | promoted (id : UserId)
  /-- An existing user, left as they were. -/
  | returning (id : UserId)
deriving DecidableEq, Repr

def Enrolled.id : Enrolled → UserId
  | added id => id
  | promoted id => id
  | returning id => id

structure Database where
  users : Map UserId UserRow := ∅
  lastSeen : Map UserId Nat := ∅
  /-- The last user id given out. -/
  lastUser : UserId := 0
  rooms : Map RoomId RoomRow := ∅
  /-- The last room id given out. -/
  lastRoom : RoomId := 0
  invites : Map String InviteRow := ∅
  blobs : Map Hash Blob := ∅
  nextMediaId : MediaId := 1
  serverProfile : ServerProfile := {}

namespace Database

/-- Reserves `count` consecutive media ids, or returns `none` once they are exhausted. -/
def allocateMediaIds (count : Nat) (db : Database) : Option MediaId × Database :=
  let first := db.nextMediaId
  let next := first + count
  if u32Max < next - 1 then (none, db) else (some first, { db with nextMediaId := next })

def adminCount (db : Database) : Nat :=
  (db.users.retain fun _ row => row.role = .admin).keys.card

def user (id : UserId) (db : Database) : Option UserRow := db.users.lookup id

/-- Every user, by id. -/
def allUsers (db : Database) : List UserRow := db.users.toList.map Prod.snd

def changeUser (id : UserId) (change : UserRow → UserRow) (db : Database) : Database :=
  { db with users := db.users.modify id change }

def setEncryptionKey (id : UserId) (encryptionKey : SignedEncryptionKey) : Database → Database :=
  changeUser id fun row => { row with encryptionKey := some encryptionKey }

def setProfile (id : UserId) (name : String) (avatar : Option Hash) : Database → Database :=
  changeUser id fun row => { row with name, avatar }

def setRole (id : UserId) (role : Role) : Database → Database :=
  changeUser id fun row => { row with role }

/-- Notes that `id` signed in at `now`. -/
def markSeen (id : UserId) (now : Nat) (db : Database) : Database :=
  { db with lastSeen := db.lastSeen.modify id fun _ => now }

/-- Everyone last seen before `before`, by id. -/
def unseenSince (before : Nat) (db : Database) : List UserId :=
  (db.lastSeen.toList.filter fun entry => entry.2 < before).map Prod.fst

/-- The users `id` invited, by id. -/
def invitedBy (db : Database) (id : UserId) : List UserId :=
  (db.users.toList.filter fun entry => entry.2.invitedBy = some id).map Prod.fst

/-- Takes users off the queue of a recursive query, adding whom they invited. -/
def inviteTreeFrom (db : Database) : Nat → List UserId → List UserId → List UserId
  | 0, _, found => found
  | _ + 1, [], found => found
  | turns + 1, id :: queue, found =>
    let invited := (db.invitedBy id).filter fun other => other ∉ found ∧ other ∉ id :: queue
    inviteTreeFrom db turns (queue ++ invited) (found ++ [id])

/-- `id` and everyone they invited, transitively. Every turn takes another user. -/
def inviteTree (id : UserId) (db : Database) : List UserId :=
  db.inviteTreeFrom (db.users.keys.card + 1) [id] []

/-- Removes one user, clearing `invitedBy` on anyone they invited. -/
def removeOne (db : Database) (id : UserId) : Database :=
  { db with
    users :=
      (db.users.mapValues fun _ row =>
        if row.invitedBy = some id then { row with invitedBy := none } else row).erase id
    lastSeen := db.lastSeen.erase id
    invites := db.invites.retain fun _ invite => invite.mintedBy ≠ some id }

def removeUsers (ids : List UserId) (db : Database) : Database := ids.foldl removeOne db

def createRoom (name : String) (passwordHash : Option String) (db : Database) :
    RoomId × Database :=
  let id := db.lastRoom + 1
  (id, { db with rooms := db.rooms.insert id { name, epoch := 0, passwordHash }, lastRoom := id })

def changeRoom (room : RoomId) (change : RoomRow → RoomRow) (db : Database) : Database :=
  { db with rooms := db.rooms.modify room change }

def renameRoom (room : RoomId) (name : String) : Database → Database :=
  changeRoom room fun row => { row with name }

def setRoomPasswordHash (room : RoomId) (passwordHash : Option String) : Database → Database :=
  changeRoom room fun row => { row with passwordHash }

def deleteRoom (room : RoomId) (db : Database) : Database :=
  { db with rooms := db.rooms.erase room }

/-- Sets the epochs of several rooms. -/
def setEpochs (epochs : List (RoomId × Epoch)) (db : Database) : Database :=
  epochs.foldl (fun db entry => db.changeRoom entry.1 fun row => { row with epoch := entry.2 }) db

/-! ### Invites -/

/-- Adds an invite unless its code id is taken. -/
def insertInvite (invite : InviteRow) (db : Database) : Bool × Database :=
  if invite.codeId ∈ db.invites then (false, db)
  else (true, { db with invites := db.invites.insert invite.codeId invite })

def invite (codeId : String) (db : Database) : Option InviteRow := db.invites.lookup codeId

def consumeInviteTry (codeId : String) (db : Database) : Database :=
  { db with
    invites := db.invites.modify codeId fun invite => { invite with failures := invite.failures + 1 } }

def deleteInvite (codeId : String) (db : Database) : Database :=
  { db with invites := db.invites.erase codeId }

/-- Deletes invites that have used up their `tries`. -/
def deleteSpentInvites (tries : Nat) (db : Database) : Database :=
  { db with invites := db.invites.retain fun _ invite => invite.failures < tries }

def purgeExpiredInvites (now : Nat) (db : Database) : Database :=
  { db with invites := db.invites.retain fun _ invite => now < invite.expiresAt }

/-- Live invites minted by `id` plus users they enrolled since `since`. -/
def invitesUsed (id : UserId) (now since : Nat) (db : Database) : Nat :=
  (db.invites.retain fun _ invite =>
      invite.mintedBy = some id ∧ now < invite.expiresAt).keys.card +
    (db.users.retain fun _ row => row.invitedBy = some id ∧ since < row.createdAt).keys.card

/-- Consumes the invite and adds its user. Returns `none`, changing nothing, when the invite
is gone or expired. An invite without a minter enrolls an admin, and promotes an existing
key to admin; any other leaves an existing key's user as they are. -/
def enroll (pubkey : PublicKey) (codeId name : String) (now : Nat) (db : Database) :
    Option Enrolled × Database :=
  match (db.invites.lookup codeId).filter fun invite => now < invite.expiresAt with
  | none => (none, db)
  | some invite =>
    let db := db.deleteInvite codeId
    let role : Role := if invite.mintedBy.isNone then .admin else .user
    match db.users.toList.find? fun entry => entry.2.pubkey = pubkey with
    | some (id, row) =>
      if row.role.rank < role.rank then (some (.promoted id), db.setRole id role)
      else (some (.returning id), db)
    | none =>
      let id := db.lastUser + 1
      (some (.added id),
        { db with
          lastUser := id
          users :=
            db.users.insert id
              { id, pubkey, encryptionKey := none, name, avatar := none, role
                invitedBy := invite.mintedBy, createdAt := now }
          lastSeen := db.lastSeen.insert id now })

/-! ### Pictures and the server's profile -/

/-- Adds a blob, or only refreshes its time if it is there. -/
def putBlob (hash : Hash) (bytes : List UInt8) (now : Nat) (db : Database) : Database :=
  { db with
    blobs :=
      db.blobs.insert hash
        { bytes := ((db.blobs.lookup hash).map (·.bytes)).getD bytes, uploadedAt := now } }

/-- Deletes blobs uploaded before `before` that no user or server profile uses. -/
def deleteUnusedBlobs (before : Nat) (db : Database) : Database :=
  { db with
    blobs := db.blobs.retain fun hash blob =>
      before ≤ blob.uploadedAt ∨ db.allUsers.any (·.avatar = some hash) ∨
        db.serverProfile.avatar = some hash }

def setServerName (name : Option String) (db : Database) : Database :=
  { db with serverProfile := { db.serverProfile with name } }

def setServerAvatar (avatar : Option Hash) (db : Database) : Database :=
  { db with serverProfile := { db.serverProfile with avatar } }

def hasBlob (hash : Hash) (db : Database) : Bool := hash ∈ db.blobs

def blob (hash : Hash) (db : Database) : Option (List UInt8) :=
  (db.blobs.lookup hash).map (·.bytes)

end Database

end Throcc
