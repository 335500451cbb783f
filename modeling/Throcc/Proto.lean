/-
This file embeds the protocol the server and its clients share: the ids, the
limits, who may do what, and the messages of the control stream.

Ids and epochs are the integers their newtypes wrap. Fixed-width integers are
naturals; the width shows where the code checks or saturates at it. Fixed-size
byte arrays are bit vectors, and times are nanoseconds (monotonic instants and
durations) or whole seconds (unix time).
-/

import Mathlib.Data.Finset.Basic
import Mathlib.Order.Basic

namespace Throcc

/-! ### Ids -/

abbrev UserId := Nat
abbrev RoomId := Nat
/-- One track of one membership session. -/
abbrev MediaId := Nat
/-- A room's generation. -/
abbrev Epoch := Nat

abbrev PublicKey := BitVec 256
abbrev Signature := BitVec 512
abbrev Hash := BitVec 256
abbrev Fingerprint := BitVec 256

abbrev Instant := Nat
abbrev Duration := Nat

/-- `Duration::from_secs`. -/
def fromSecs (seconds : Nat) : Duration := seconds * 1000000000

/-- `Duration::from_millis`. -/
def fromMillis (millis : Nat) : Duration := millis * 1000000

/-- `u32::MAX`. -/
def u32Max : Nat := 4294967295

/-- The two clocks an operation reads. -/
structure Clock where
  now : Instant
  unixNow : Nat
deriving DecidableEq, Repr

inductive Role where
  | user
  | manager
  | admin
deriving DecidableEq, Repr

namespace Role

def rank : Role → Nat
  | user => 0
  | manager => 1
  | admin => 2

def fromRank : Nat → Option Role
  | 0 => some user
  | 1 => some manager
  | 2 => some admin
  | _ => none

theorem fromRank_rank (role : Role) : fromRank role.rank = some role := by
  cases role <;> rfl

end Role

/-! ### Limits -/

def maxRoomMembers : Nat := 30
def maxRoomShares : Nat := 5
/-- A share is two tracks, its picture and its sound. -/
def maxWatched : Nat := 2 * maxRoomShares
def maxRooms : Nat := 50
def maxOnline : Nat := 250
def adminHeadroom : Nat := 10
def maxSignedIn : Nat := maxOnline + adminHeadroom

def maxAvatarBytes : Nat := 64 * 1024
def maxNameChars : Nat := 32
def maxPasswordChars : Nat := 128

/-! ### Permissions -/

def dailyInvites : Nat := 3

def canManageRooms (actor : Role) : Bool := Role.manager.rank ≤ actor.rank

def canListUsers (actor : Role) : Bool := actor = .admin

def canEditServer (actor : Role) : Bool := actor = .admin

def inviteCap (actor : Role) : Option Nat := if actor ≠ .admin then some dailyInvites else none

/-- Only admins change roles, only on strictly lower ranks, and only to a strictly lower rank. -/
def canSetRole (actor target new : Role) : Bool :=
  actor = .admin ∧ target.rank < actor.rank ∧ new.rank < actor.rank

def canKickFromRoom (actor target : Role) : Bool :=
  Role.manager.rank ≤ actor.rank ∧ target.rank < actor.rank

def canRemove (actor target : Role) : Bool := actor = .admin ∧ target.rank < actor.rank

/-! ### Names and passwords -/

/-- `char::is_whitespace`. -/
def isWhitespace (c : Char) : Bool :=
  let n := c.toNat
  (0x9 ≤ n ∧ n ≤ 0xD) ∨ n = 0x20 ∨ n = 0x85 ∨ n = 0xA0 ∨ n = 0x1680 ∨ (0x2000 ≤ n ∧ n ≤ 0x200A) ∨
    n = 0x2028 ∨ n = 0x2029 ∨ n = 0x202F ∨ n = 0x205F ∨ n = 0x3000

/-- `char::is_control`. -/
def isControl (c : Char) : Bool :=
  let n := c.toNat
  n ≤ 0x1F ∨ (0x7F ≤ n ∧ n ≤ 0x9F)

/-- Control characters, and the invisible, bidi and line-breaking characters that let one
name pose as another. -/
def hidesText (c : Char) : Bool :=
  let n := c.toNat
  isControl c ∨ n = 0xAD ∨ n = 0x34F ∨ n = 0x61C ∨ n = 0x115F ∨ n = 0x1160 ∨ n = 0x17B4 ∨
    n = 0x17B5 ∨ n = 0x180E ∨ n = 0x200B ∨ (0x200E ≤ n ∧ n ≤ 0x200F) ∨ (0x2028 ≤ n ∧ n ≤ 0x202E) ∨
    (0x2060 ≤ n ∧ n ≤ 0x206F) ∨ n = 0x3164 ∨ n = 0xFEFF ∨ n = 0xFFA0 ∨ (0xFFF9 ≤ n ∧ n ≤ 0xFFFB)

/-- Characters a name may contain but that draw nothing on their own. -/
def blank (c : Char) : Bool :=
  let n := c.toNat
  n = 0x200C ∨ n = 0x200D ∨ n = 0x2800 ∨ (0xFE00 ≤ n ∧ n ≤ 0xFE0F) ∨ (0xE0000 ≤ n ∧ n ≤ 0xE007F) ∨
    (0xE0100 ≤ n ∧ n ≤ 0xE01EF)

/-- `str::trim`. -/
def trimWhitespace (name : String) : String :=
  String.ofList
    (((name.toList.dropWhile isWhitespace).reverse.dropWhile isWhitespace).reverse)

def showsSomething (name : String) : Bool :=
  name.toList.any fun c => !blank c && !isWhitespace c

/-- `name` without surrounding whitespace, if that is 1 to `maxNameChars` characters, has
nothing that hides or reorders text and shows at least one visible character. -/
def validName (name : String) : Option String :=
  let name := trimWhitespace name
  let chars := name.toList.length
  if (1 ≤ chars ∧ chars ≤ maxNameChars) ∧ showsSomething name ∧ ¬ name.toList.any hidesText then
    some name
  else
    none

def validPassword (password : String) : Bool :=
  1 ≤ password.toList.length ∧ password.toList.length ≤ maxPasswordChars

/-! ### Messages -/

structure ShareTracks where
  video : MediaId
  audio : MediaId
deriving DecidableEq, Repr

structure Tracks where
  mic : MediaId
  shares : List ShareTracks
deriving DecidableEq, Repr

inductive Codec where
  | av1
  | hevc
  | h264
  | vp9
deriving DecidableEq, Repr

structure ShareConfig where
  audio : Bool
  kbps : Nat
  codec : Codec
  width : Nat
  height : Nat
  fps : Nat
deriving DecidableEq, Repr

structure MediaState where
  mic : Bool := false
  deafened : Bool := false
  share : Option ShareConfig := none
deriving DecidableEq, Repr

inductive Recovery where
  | refresh
  | idr
deriving DecidableEq, Repr

/-- An X25519 encryption key, signed by its owner's identity key for one server and user,
valid until `notAfter` (unix seconds). -/
structure SignedEncryptionKey where
  key : PublicKey
  notAfter : Nat
  sig : Signature
deriving DecidableEq, Repr

structure Peer where
  user : UserId
  tracks : Tracks
  share : Option ShareConfig
  identityKey : PublicKey
  encryptionKey : SignedEncryptionKey
deriving DecidableEq, Repr

structure Presence where
  user : UserId
  name : String
  avatar : Option Hash
  room : Option RoomId
  mic : Bool
  deafened : Bool
  sharing : Bool
  role : Role
deriving DecidableEq, Repr

/-- The room members who receive the picture or the sound of the share sent on `video`. -/
structure Audience where
  video : MediaId
  receivers : List UserId
deriving DecidableEq, Repr

structure Audiences where
  seq : Nat := 0
  shares : List Audience := []
deriving DecidableEq, Repr

structure Placement where
  room : Option RoomId
  epoch : Epoch
  tracks : Option Tracks
  peers : List Peer
  audiences : Audiences
deriving DecidableEq, Repr

structure Room where
  id : RoomId
  name : String
  locked : Bool
deriving DecidableEq, Repr

structure User where
  id : UserId
  name : String
  role : Role
  invitedBy : Option UserId
  identityKey : PublicKey
  createdAt : Nat
deriving DecidableEq, Repr

structure UserProfile where
  name : String
  avatar : Option Hash
deriving DecidableEq, Repr

structure ServerProfile where
  name : Option String := none
  avatar : Option Hash := none
deriving DecidableEq, Repr

structure Welcome where
  me : UserId
  role : Role
  rooms : List Room
  presence : List Presence
  placement : Placement
  server : ServerProfile
  profile : UserProfile
deriving DecidableEq, Repr

inductive AuthError where
  | unknownKey
  | badSignature
  | badInvite
  | protocolMismatch
  | banned
  | rateLimited
  | serverFull
  | badName
deriving DecidableEq, Repr

inductive Request where
  | joinRoom (room : RoomId) (password : Option String)
  | leaveRoom
  | setProfile (name : String) (avatar : Option Hash)
  | uploadAvatar (bytes : List UInt8)
  | fetchAvatar (hash : Hash)
  | setEncryptionKey (encryptionKey : SignedEncryptionKey)
  | setMedia (media : MediaState)
  | setWatched (ids : List MediaId)
  | requestKeyframe (mediaId : MediaId) (kind : Recovery)
  | publishSenderKey (epoch : Epoch) (wrapped : List (UserId × List UInt8))
  | createRoom (name : String) (password : Option String)
  | renameRoom (room : RoomId) (name : String)
  | deleteRoom (room : RoomId)
  | setRoomPassword (room : RoomId) (password : Option String)
  | createInvite
  | listUsers
  | setRole (user : UserId) (role : Role)
  | removeUser (user : UserId) (cascade : Bool)
  | setServerName (name : Option String)
  | setServerAvatar (avatar : Option Hash)
  | kickFromRoom (user : UserId) (room : RoomId)
deriving DecidableEq, Repr

inductive ErrorCode where
  | forbidden
  | notFound
  | rateLimited
  | invalid
  | tooLarge
  | staleEpoch
  | internal
  | wrongPassword
  | full
deriving DecidableEq, Repr

inductive Response where
  | ok
  | err (code : ErrorCode) (message : String)
  | placement (placement : Placement)
  | invite (code : String) (expires : Nat)
  | users (users : List User)
  | avatarHash (hash : Hash)
  | avatar (bytes : List UInt8)
deriving DecidableEq, Repr

inductive Event where
  | presenceChanged (presence : Presence)
  | presenceEnded (user : UserId)
  | roomCreated (room : Room)
  | roomRenamed (room : RoomId) (name : String)
  | roomDeleted (room : RoomId)
  | roomLockChanged (room : RoomId) (locked : Bool)
  | peersChanged (room : RoomId) (epoch : Epoch) (peers : List Peer)
  | senderKeyPublished (sender : UserId) (epoch : Epoch) (wrapped : List UInt8)
  | keyframeRequested (mediaId : MediaId) (kind : Recovery)
  | userAdded (user : User)
  | roleChanged (user : UserId) (role : Role)
  | userRemoved (user : UserId)
  | inviteSpent (codeId : String)
  | removedFromServer (reason : String)
  | serverProfileChanged (profile : ServerProfile)
  | kickedFromRoom (by_ : UserId) (room : RoomId)
  | audiencesChanged (audiences : Audiences)
deriving DecidableEq, Repr

/-- The media ids of a membership: the microphone's, then each share's. -/
def trackIds (tracks : Tracks) : List MediaId :=
  tracks.mic :: tracks.shares.flatMap fun share => [share.video, share.audio]

/-! ### Invites -/

def idChars : Nat := 3
def secretChars : Nat := 5

/-- An invite such as `K7Q-M2XPD`: a public lookup id and a secret, in Crockford base32. -/
structure InviteCode where
  id : String
  secret : String
deriving DecidableEq, Repr

/-- Builds a code from 8 random bytes, one character per byte. -/
def InviteCode.fromRandom (bytes : Fin (idChars + secretChars) → UInt8) : InviteCode :=
  let alphabet := "0123456789ABCDEFGHJKMNPQRSTVWXYZ".toList
  let chars := (List.ofFn bytes).map fun byte => alphabet.getD (byte.toNat % 32) '0'
  { id := String.ofList (chars.take idChars), secret := String.ofList (chars.drop idChars) }

def normalizeChar (c : Char) : Option Char :=
  let alphabet := "0123456789ABCDEFGHJKMNPQRSTVWXYZ".toList
  match c.toUpper with
  | 'O' => some '0'
  | 'I' | 'L' => some '1'
  | c => if alphabet.contains c then some c else none

/-- Upper-cases, maps O to 0 and I, L to 1, and drops anything outside the alphabet. -/
def normalize (input : String) : String := String.ofList (input.toList.filterMap normalizeChar)

/-! ### What identity keys sign -/

/-- The low `count` bytes of a number, the most significant first. -/
def bytesBe : (count : Nat) → Nat → List UInt8
  | 0, _ => []
  | count + 1, value => bytesBe count (value / 256) ++ [UInt8.ofNat (value % 256)]

/-- The bytes of an ASCII label. -/
def labelBytes (label : String) : List UInt8 := label.toList.map fun c => UInt8.ofNat c.toNat

/-- What an identity key signs to vouch for an X25519 encryption key: bound to one server,
one user and an expiry. -/
def encryptionKeyMessage (server : Fingerprint) (user : UserId) (notAfter : Nat)
    (encryptionKey : PublicKey) : List UInt8 :=
  labelBytes "throcc/enc-key/1" ++ bytesBe 32 server.toNat ++ bytesBe 8 user ++
    bytesBe 8 notAfter ++ bytesBe 32 encryptionKey.toNat

end Throcc
