/-
This file says how users come into rooms. Each step of the server leaves
everyone where they were or takes them out, joins someone to a room that they
may enter, or settles someone who has signed in where they may return. Only
joining a room notes it as the one that was last joined.
-/

import Throcc.Ranks

namespace Throcc

namespace Core

variable {core next : Core}

/-! ### Coming into rooms -/

/-- A user is in a room on a seat that wasn't there before. -/
def Comes (core next : Core) (user : UserId) (room : RoomId) : Prop :=
  ∃ seat, next.seats.lookup user = some seat ∧ seat.room = some room ∧
    ∀ earlier, core.seats.lookup user = some earlier → earlier.room = some room →
      earlier.connId ≠ seat.connId

/-- Nobody comes into a room, and nobody is noted to have joined one. -/
structure Calm (core next : Core) : Prop where
  recalls : ∀ user room, next.lastJoined.lookup user = some room →
    core.lastJoined.lookup user = some room
  stays : ∀ user seat room, next.seats.lookup user = some seat → seat.room = some room →
    ∃ earlier, core.seats.lookup user = some earlier ∧ earlier.room = some room ∧
      earlier.connId = seat.connId

theorem Calm.same (same : next = core) : core.Calm next := by
  rw [same]
  exact ⟨fun _ _ found => found, fun _ seat _ found inside => ⟨seat, found, inside, rfl⟩⟩

theorem Calm.trans {last : Core} (first : core.Calm next) (second : next.Calm last) :
    core.Calm last := by
  refine ⟨fun user room found => first.recalls user room (second.recalls user room found), ?_⟩
  intro user seat room found inside
  obtain ⟨between, there, inside, same⟩ := second.stays user seat room found inside
  obtain ⟨earlier, before, inside, same'⟩ := first.stays user between room there inside
  exact ⟨earlier, before, inside, same'.trans same⟩

theorem Calm.not_comes (calm : core.Calm next) (user : UserId) (room : RoomId) :
    ¬ core.Comes next user room := by
  rintro ⟨seat, found, inside, new⟩
  obtain ⟨earlier, before, inside, same⟩ := calm.stays user seat room found inside
  exact new earlier before inside same

end Core

/-- The turns after which nobody is in a room they weren't in. -/
def Turn.calm : Turn → Prop
  | .enter _ _ => False
  | .remember _ (some _) => False
  | _ => True

theorem Turn.ousts.calm {turn : Turn} (ousts : turn.ousts) : turn.calm := by
  cases turn with
  | enter user room => exact ousts
  | remember user target =>
    cases target with
    | none => trivial
    | some room => exact ousts
  | _ => trivial

namespace Core

variable {core next : Core}

/-- A changed seat is in the room it was in, or in none. -/
theorem stays_modify {user other : UserId} {update : Seat → Seat} {seat : Seat} {room : RoomId}
    (seats : next.seats = core.seats.modify user update)
    (conn : ∀ seat, (update seat).connId = seat.connId)
    (kept : ∀ seat, (update seat).room = seat.room ∨ (update seat).room = none)
    (found : next.seats.lookup other = some seat) (inside : seat.room = some room) :
    ∃ earlier, core.seats.lookup other = some earlier ∧ earlier.room = some room ∧
      earlier.connId = seat.connId := by
  rw [seats, Map.lookup_modify] at found
  split at found
  · obtain ⟨earlier, there, rfl⟩ := Option.map_eq_some_iff.mp found
    rcases kept earlier with same | out
    · exact ⟨earlier, there, same ▸ inside, (conn earlier).symm⟩
    · rw [out] at inside
      cases inside
  · exact ⟨seat, found, inside, rfl⟩

theorem lookup_of_retain {Key Value : Type} [DecidableEq Key] {map : Map Key Value}
    {keep : Key → Value → Bool} {key : Key} {value : Value}
    (found : (map.retain keep).lookup key = some value) : map.lookup key = some value := by
  rw [Map.lookup_retain] at found
  exact (Option.filter_eq_some_iff.mp found).1

theorem lookup_of_erase {Key Value : Type} [DecidableEq Key] {map : Map Key Value}
    {erased key : Key} {value : Value} (found : (map.erase erased).lookup key = some value) :
    map.lookup key = some value := by
  rw [Map.lookup_erase_ite] at found
  split at found
  · cases found
  · exact found

/-- A room is remembered after a calm turn only if it was before. -/
theorem recalls_apply {turn : Turn} (calm : turn.calm) (user : UserId) (room : RoomId)
    (found : (core.apply turn).lastJoined.lookup user = some room) :
    core.lastJoined.lookup user = some room := by
  cases turn with
  | enter mover target => exact calm.elim
  | leave mover =>
    obtain ⟨rooms, table, notices, same⟩ := core.place_frame mover none
    rw [apply, same] at found
    exact found
  | expel mover =>
    unfold apply at found
    dsimp only at found
    split at found
    · exact found
    · exact found
  | remember mover target =>
    cases target with
    | none => exact lookup_of_erase found
    | some target => exact calm.elim
  | renewKey mover encryptionKey =>
    obtain ⟨notices, same⟩ := core.apply_renewKey mover encryptionKey
    rw [same] at found
    exact found
  | rekey mover encryptionKey =>
    obtain ⟨notices, same⟩ := core.apply_rekey mover encryptionKey
    rw [same] at found
    exact found
  | media mover media =>
    obtain ⟨table, notices, same⟩ := core.apply_media mover media
    rw [same] at found
    exact found
  | role target role =>
    unfold apply takeRole at found
    dsimp only at found
    split at found
    · exact lookup_of_erase found
    · exact found
  | lock locked passwordHash => exact lookup_of_retain found
  | dropRoom dropped => exact lookup_of_retain found
  | restart => cases found
  | _ => exact found

theorem stays_apply {turn : Turn} (calm : turn.calm) (user : UserId) (seat : Seat) (room : RoomId)
    (found : (core.apply turn).seats.lookup user = some seat) (inside : seat.room = some room) :
    ∃ earlier, core.seats.lookup user = some earlier ∧ earlier.room = some room ∧
      earlier.connId = seat.connId := by
  cases turn with
  | enter mover target => exact calm.elim
  | leave mover =>
    exact stays_modify (core.seats_place mover none) (fun _ => by rfl) (fun _ => .inr (by rfl)) found inside
  | expel mover =>
    unfold apply at found
    dsimp only at found
    split at found
    · exact ⟨seat, found, inside, rfl⟩
    · exact stays_modify rfl (fun _ => by rfl) (fun _ => .inr (by rfl)) found inside
  | remember mover target =>
    cases target with
    | none => exact ⟨seat, found, inside, rfl⟩
    | some target => exact calm.elim
  | signIn row =>
    have found : (core.seats.insert row.id _).lookup user = some seat := found
    rw [Map.lookup_insert_ite] at found
    split at found
    · cases found
      cases inside
    · exact ⟨seat, found, inside, rfl⟩
  | signOut leaver => exact ⟨seat, lookup_of_erase found, inside, rfl⟩
  | storeKey owner encryptionKey =>
    exact stays_modify rfl (fun _ => by rfl) (fun _ => .inl (by rfl)) found inside
  | halfKey owner encryptionKey =>
    exact stays_modify rfl (fun _ => by rfl) (fun _ => .inl (by rfl)) found inside
  | renewKey owner encryptionKey =>
    obtain ⟨notices, same⟩ := core.apply_renewKey owner encryptionKey
    rw [same] at found
    exact stays_modify rfl (fun _ => by rfl) (fun _ => .inl (by rfl)) found inside
  | rekey owner encryptionKey =>
    obtain ⟨notices, same⟩ := core.apply_rekey owner encryptionKey
    rw [same] at found
    exact stays_modify rfl (fun _ => by rfl) (fun _ => .inl (by rfl)) found inside
  | media owner media =>
    obtain ⟨table, notices, same⟩ := core.apply_media owner media
    rw [same] at found
    exact stays_modify rfl (fun _ => by rfl) (fun _ => .inl (by rfl)) found inside
  | watch owner ids => exact stays_modify rfl (fun _ => by rfl) (fun _ => .inl (by rfl)) found inside
  | profile owner name avatar =>
    exact stays_modify rfl (fun _ => by rfl) (fun _ => .inl (by rfl)) found inside
  | role target role =>
    obtain ⟨lastJoined, same⟩ := core.apply_role target role
    rw [same] at found
    exact stays_modify rfl (fun _ => by rfl) (fun _ => .inl (by rfl)) found inside
  | restart => cases found
  | _ => exact ⟨seat, found, inside, rfl⟩

theorem Calm.apply {turn : Turn} (calm : turn.calm) : core.Calm (core.apply turn) :=
  ⟨recalls_apply calm, stays_apply calm⟩

theorem Calm.leads {may : Turn → Prop} (leads : Leads may core next)
    (calm : ∀ turn, may turn → turn.calm) : core.Calm next :=
  leads.invariant core.Calm (.same rfl) fun _ turn kept kind _ => kept.trans (.apply (calm turn kind))

theorem Calm.ousts (leads : Leads Turn.ousts core next) : core.Calm next :=
  .leads leads fun _ => Turn.ousts.calm

theorem Calm.removes {ids : List UserId} (removes : core.Removes ids next) : core.Calm next :=
  (@Calm.apply core (.removeUsers ids) trivial).trans (.ousts removes.1)

theorem Calm.does {turn : Turn} (does : core.Does turn next) (calm : turn.calm) :
    core.Calm next := by
  rw [does.2]
  exact .apply calm

/-! ### Locks -/

/-- The hash of a room's password. -/
def lockOf (core : Core) (room : RoomId) : Option String :=
  (core.rooms.lookup room).bind (·.passwordHash)

/-- Whether a user is signed in with a role that manages rooms. -/
def Manages (core : Core) (user : UserId) : Prop :=
  ∃ seat, core.seats.lookup user = some seat ∧ canManageRooms seat.row.role = true

instance (user : UserId) : Decidable (core.Manages user) :=
  decidable_of_iff ((core.seats.lookup user).any fun seat => canManageRooms seat.row.role) <| by
    rw [Option.any_eq_true]
    rfl

theorem lockOf_withRoom (core : Core) (changed room : RoomId) {update : RoomEntry → RoomEntry}
    (kept : ∀ entry, (update entry).passwordHash = entry.passwordHash) :
    (core.withRoom changed update).lockOf room = core.lockOf room := by
  show ((core.rooms.modify changed update).lookup room).bind _ = _
  rw [Map.lookup_modify]
  unfold lockOf
  split
  · cases core.rooms.lookup room with
    | none => rfl
    | some entry => exact kept entry
  · rfl

theorem lockOf_raise (core : Core) (rooms : List RoomId) (room : RoomId) :
    (core.raise rooms).lockOf room = core.lockOf room := by
  rw [lockOf, lookup_rooms_raise]
  unfold lockOf
  cases core.rooms.lookup room <;> rfl

/-- Moving someone locks and unlocks no room. -/
theorem lockOf_place (core : Core) (user : UserId) (target : Option RoomId) (room : RoomId) :
    (core.place user target).lockOf room = core.lockOf room := by
  have moved : ∀ (core : Core) (current target : Option RoomId) (tracks : Option Tracks),
      (core.moved user current target tracks).lockOf room = core.lockOf room := by
    intro core current target tracks
    cases current with
    | none =>
      cases target with
      | none => rfl
      | some entered => exact lockOf_withRoom core entered room fun _ => rfl
    | some left =>
      cases target with
      | none => exact lockOf_withRoom core left room fun _ => rfl
      | some entered =>
        exact (lockOf_withRoom (core.removeMember left user) entered room fun _ => by rfl).trans
          (lockOf_withRoom core left room fun _ => by rfl)
  unfold place
  rw [moved, lockOf_raise]
  cases target <;> rfl

/-- Whoever comes in when a user joins a room is that user, from outside. -/
theorem Joins.comes {user other : UserId} {target room : RoomId}
    (joins : core.Joins user (some target) next) (comes : core.Comes next other room) :
    other = user ∧ room = target ∧ core.roomOf user ≠ some target := by
  obtain ⟨_, rfl⟩ := joins
  obtain ⟨seat, found, inside, new⟩ := comes
  by_cases there : core.roomOf user = some target
  · rw [if_pos there] at found
    exact absurd rfl (new seat found inside)
  · rw [if_neg there] at found
    have found : (core.place user (some target)).seats.lookup other = some seat := found
    rw [seats_place, Map.lookup_modify] at found
    split at found
    · obtain ⟨earlier, _, rfl⟩ := Option.map_eq_some_iff.mp found
      exact ⟨‹other = user›, (Option.some.inj inside).symm, there⟩
    · exact absurd rfl (new seat found inside)

/-- A join notes the room that was joined and leaves the other users' alone. -/
theorem Joins.recalls {user other : UserId} {target room : RoomId}
    (joins : core.Joins user (some target) next)
    (found : next.lastJoined.lookup other = some room) :
    other = user ∧ room = target ∨ core.lastJoined.lookup other = some room := by
  obtain ⟨_, rfl⟩ := joins
  have found : (((if core.roomOf user = some target then core else
      core.place user (some target)).lastJoined).insert user target).lookup other = some room := found
  rw [Map.lookup_insert_ite] at found
  split at found
  · exact .inl ⟨‹other = user›, (Option.some.inj found).symm⟩
  · right
    split at found
    · exact found
    · obtain ⟨rooms, table, notices, same⟩ := core.place_frame user (some target)
      rw [same] at found
      exact found

theorem Joins.lockOf {user : UserId} {target : Option RoomId} (joins : core.Joins user target next)
    (room : RoomId) : next.lockOf room = core.lockOf room := by
  obtain ⟨_, rfl⟩ := joins
  have same : Core.lockOf (if core.roomOf user = target then core else core.place user target)
      room = core.lockOf room := by
    split
    · rfl
    · exact lockOf_place core user target room
  cases target <;> exact same

theorem manages_place (user : UserId) (target : Option RoomId) {other : UserId}
    (manages : core.Manages other) : (core.place user target).Manages other := by
  obtain ⟨seat, found, role⟩ := manages
  unfold Manages
  rw [seats_place, Map.lookup_modify, found]
  split
  · exact ⟨_, rfl, role⟩
  · exact ⟨seat, rfl, role⟩

/-- A user has the role after a join that they had before it. -/
theorem Joins.manages {user : UserId} {target : Option RoomId} (joins : core.Joins user target next)
    (other : UserId) (manages : core.Manages other) : next.Manages other := by
  obtain ⟨_, rfl⟩ := joins
  have same : Core.Manages (if core.roomOf user = target then core else core.place user target)
      other := by
    split
    · exact manages
    · exact manages_place user target manages
  cases target <;> exact same

/-- Who is in a room after joining it, having come from outside, was asked for the password and
gave it, manages rooms, or found the room open. -/
theorem MayEnter.of_comes {user : UserId} {target room : RoomId} {proved : Option String}
    {hash : String} (may : core.MayEnter user target proved)
    (joins : core.Joins user (some target) next) {other : UserId}
    (comes : core.Comes next other room) (locked : next.lockOf room = some hash)
    (plain : ¬ next.Manages other) : other = user ∧ room = target ∧ proved = some hash := by
  obtain ⟨rfl, rfl, outside⟩ := joins.comes comes
  refine ⟨rfl, rfl, ?_⟩
  obtain ⟨entry, found, shown⟩ := may
  rw [joins.lockOf, lockOf, found, Option.bind_some] at locked
  obtain inside | manages | proved := shown hash locked
  · exact absurd inside outside
  · exact absurd (joins.manages _ manages) plain
  · exact proved

theorem Joins.calm {user : UserId} (joins : core.Joins user none next) : core.Calm next := by
  obtain ⟨_, rfl⟩ := joins
  have handed : ∀ between : Core, core.Calm between →
      core.Calm ((between.hand user).remember user none) := fun between calm =>
    (calm.trans (@Calm.apply _ (.hand user) trivial)).trans (@Calm.apply _ (.remember user none) trivial)
  split
  · exact handed core (.same rfl)
  · exact handed _ (@Calm.apply _ (.leave user) trivial)

theorem Joins.roomOf {user : UserId} {target : Option RoomId}
    (joins : core.Joins user target next) : next.roomOf user = target := by
  obtain ⟨may, rfl⟩ := joins
  have there : (if core.roomOf user = target then core else core.place user target).roomOf user =
      target := by
    split
    · assumption
    · rename_i elsewhere
      obtain ⟨⟨seat, found, _⟩, _⟩ := may.resolve_left elsewhere
      exact core.roomOf_place (by rw [found]; rfl)
  cases target <;> exact there

/-- Whoever comes into a room when a user has signed in is that user, who was let in. -/
theorem Settles.comes {user other : UserId} {room : RoomId} (settles : core.Settles user next)
    (comes : core.Comes next other room) : other = user ∧ core.MayRejoin user room := by
  obtain rfl | ⟨_, rfl⟩ | ⟨target, may, canPlace, rfl⟩ := settles
  · exact absurd comes ((Calm.same rfl).not_comes other room)
  · exact absurd comes ((@Calm.apply _ .allocate trivial).not_comes other room)
  · obtain ⟨seat, found, inside, new⟩ := comes
    have found : (core.place user (some target)).seats.lookup other = some seat := found
    rw [seats_place, Map.lookup_modify] at found
    split at found
    · obtain ⟨earlier, _, rfl⟩ := Option.map_eq_some_iff.mp found
      obtain rfl := Option.some.inj inside
      exact ⟨‹other = user›, may⟩
    · exact absurd rfl (new seat found inside)

/-- Settling in a room leaves the rooms' locks, the roles and what is noted of joins alone. -/
theorem Settles.keeps {user : UserId} (settles : core.Settles user next) :
    next.lastJoined = core.lastJoined ∧ (∀ room, next.lockOf room = core.lockOf room) ∧
      ∀ other, core.Manages other → next.Manages other := by
  obtain rfl | ⟨_, rfl⟩ | ⟨target, _, _, rfl⟩ := settles
  · exact ⟨rfl, fun _ => rfl, fun _ => id⟩
  · exact ⟨rfl, fun _ => rfl, fun _ => id⟩
  · refine ⟨?_, core.lockOf_place user (some target), fun other => ?_⟩
    · obtain ⟨rooms, table, notices, same⟩ := core.place_frame user (some target)
      show (core.place user (some target)).lastJoined = _
      rw [same]
      rfl
    · exact manages_place user (some target)

end Core

/-! ### Requests -/

namespace Hub

open Attempt

variable {clock : Clock} {base hub : Hub}

theorem Refused.calm {after : Hub} (refused : Refused clock base after) :
    base.core.Calm after.core := by
  obtain same | does := refused.core
  · exact .same same
  · exact .does ⟨does.1, does.2⟩ trivial

/-- Requests that don't join a room leave everyone where they were or take them out. -/
theorem perform_calm (primitives : Primitives) (clock : Clock) (hub : Hub) (user : UserId)
    (request : Request)
    (other : ∀ room password, request ≠ .joinRoom room password)
    (draws : Nat → Fin (idChars + secretChars) → UInt8) :
    (perform primitives user request draws clock).Ends
      (fun _ after => hub.core.Calm after.core) (fun _ after => hub.core.Calm after.core) hub := by
  have idle : Idle clock hub hub := Idle.refl hub
  have unchanged : ∀ after : Hub, after.core = hub.core → hub.core.Calm after.core :=
    fun _ => .same
  have idled : ∀ after : Hub, Idle clock hub after → hub.core.Calm after.core :=
    fun _ idle => .same idle.core
  cases request with
  | joinRoom room password => exact absurd rfl (other room password)
  | leaveRoom =>
    refine (join_ends idle user none none).mono ?_ fun _ _ refused => refused.calm
    intro handled after ends
    cases handled with
    | done response => exact ends.1.calm
    | pending work => exact idled after ends.1
  | setProfile name avatar =>
    refine .map ((setProfile_ends idle user name avatar).mono ?_ fun _ => idled)
    exact fun _ _ ⟨name, does⟩ => .does does trivial
  | uploadAvatar bytes =>
    exact .map ((setAvatar_ends primitives idle user bytes).mono (fun _ => unchanged) fun _ => idled)
  | fetchAvatar hash =>
    exact .map ((getAvatar_ends idle hash).mono (fun _ => unchanged) fun _ => idled)
  | setEncryptionKey encryptionKey =>
    refine .map ((setEncryptionKey_ends primitives hub user encryptionKey).mono ?_ ?_)
    · rintro _ after (same | does | does | does)
      · exact unchanged after same
      · exact .does does trivial
      · exact .does does trivial
      · exact .does does trivial
    · rintro _ after (⟨_, idle⟩ | ⟨half, does⟩)
      · exact idled after idle
      · exact .does does trivial
  | setMedia media =>
    refine .map ((setMedia_ends idle user media).mono ?_ ?_)
    · exact fun _ _ ⟨applied, does⟩ => .does does trivial
    · rintro _ after (idle | ⟨applied, does⟩)
      · exact idled after idle
      · exact .does does trivial
  | setWatched ids =>
    exact .map ((setWatched_ends idle user ids).mono (fun _ _ does => .does does trivial)
      fun _ => idled)
  | requestKeyframe mediaId kind =>
    exact .map ((requestKeyframe_ends idle user mediaId kind).mono (fun _ => unchanged)
      fun _ => idled)
  | publishSenderKey epoch wrapped =>
    exact .map ((publishKey_ends idle user epoch wrapped).mono (fun _ => unchanged) fun _ => idled)
  | createRoom name password =>
    refine (createRoom_ends idle user name password).mono ?_ fun _ => idled
    rintro _ after (same | ⟨name, passwordHash, does⟩)
    · exact unchanged after same
    · exact .does does trivial
  | renameRoom room name =>
    refine .map ((renameRoom_ends idle user room name).mono ?_ fun _ => idled)
    exact fun _ _ ⟨name, does⟩ => .does does trivial
  | deleteRoom room =>
    refine .map ((deleteRoom_ends idle user room).mono ?_ fun _ _ leads => .ousts leads)
    rintro _ after ⟨entry, cleared, found, leads, out, same⟩
    rw [same]
    exact (Core.Calm.ousts leads).trans (@Core.Calm.apply _ (.dropRoom room) trivial)
  | setRoomPassword room password =>
    refine (setRoomPassword_ends idle user room password).mono ?_ fun _ => idled
    intro handled after ends
    cases handled with
    | done response => exact .does ends trivial
    | pending work => exact unchanged after ends
  | createInvite =>
    exact .map ((createInvite_ends idle user draws).mono (fun _ => unchanged) fun _ => idled)
  | listUsers => exact .map ((listUsers_ends idle user).mono (fun _ => unchanged) fun _ => idled)
  | setRole target role =>
    refine .map ((setRole_ends idle user target role).mono ?_ fun _ => idled)
    exact fun _ _ ⟨does, _⟩ => .does does trivial
  | removeUser target cascade =>
    refine .map ((removeUser_ends idle user target cascade).mono ?_ fun _ => idled)
    exact fun _ _ ⟨ids, removes, _⟩ => .removes removes
  | setServerName name =>
    exact .map ((setServerName_ends idle user name).mono (fun _ => unchanged) fun _ => unchanged)
  | setServerAvatar avatar =>
    exact .map ((setServerAvatar_ends idle user avatar).mono (fun _ => unchanged)
      fun _ => unchanged)
  | kickFromRoom target room =>
    refine .map ((kickFromRoom_ends idle user target room).mono ?_ fun _ => idled)
    rintro _ after ⟨_, leads, _⟩
    exact (@Core.Calm.apply _ (.remember target none) trivial).trans (.ousts leads)

end Hub

/-! ### Steps of the server -/

namespace Server

open Attempt

variable (primitives : Primitives) (server : Server) (input : Input)

/-- A request to join a room is taken up, or the password that was given with it has matched. -/
def Asks (user : UserId) (room : RoomId) : Prop :=
  (∃ conn password, input.action = .request user conn (.joinRoom room password) ∧
    (server.working input).Admits input.clock user conn (.joinRoom room password)) ∨
  ∃ index hashed conn password hash, input.action = .finish index hashed ∧
    server.pending[index]? = some ⟨user, conn, .join room password hash⟩ ∧
    (server.working input).isCurrent user conn = true ∧
    primitives.passwordMatches password hash = true

/-- The password a user gave for a room has matched a hash. -/
def Proves (user : UserId) (room : RoomId) (hash : String) : Prop :=
  ∃ index hashed conn password, input.action = .finish index hashed ∧
    server.pending[index]? = some ⟨user, conn, .join room password hash⟩ ∧
    primitives.passwordMatches password hash = true

/-- What a step does about who is in which room. -/
inductive Settling (after : Core) : Prop where
  | calm (calm : server.hub.core.Calm after)
  | joins (user : UserId) (room : RoomId) (proved : Option String)
      (joins : server.hub.core.Joins user (some room) after)
      (may : server.hub.core.MayEnter user room proved)
      (asks : server.Asks primitives input user room)
      (proves : ∀ hash, proved = some hash → server.Proves primitives input user room hash)
  | connects (row : UserRow) (wantRoom : Option RoomId) (left : Core)
      (action : input.action = .connect row wantRoom) (calm : server.hub.core.Calm left)
      (settles : left.Settles row.id after)
      (wants : ∀ room, after.roomOf row.id = some room → wantRoom = some room)

theorem finish_settles {index : Nat} {hashed : Option String} {pending : Pending}
    (action : input.action = .finish index hashed)
    (found : server.pending[index]? = some pending) :
    Settling primitives server input (Hub.finish pending.user pending.conn
      (pending.work.run primitives hashed) input.clock (server.working input)).2.core := by
  have idle : Hub.Idle input.clock (server.working input) (server.working input) :=
    Hub.Idle.refl _
  let settles (after : Hub) : Prop := Settling primitives server input after.core
  have refused : ∀ after, Hub.Refused input.clock (server.working input) after → settles after :=
    fun _ refused => .calm refused.calm
  suffices both : (Hub.finish pending.user pending.conn (pending.work.run primitives hashed)
      input.clock).Ends (fun _ => settles) (fun _ => settles) (server.working input) from both.after
  refine .bind (Hub.requireCurrent_ends (fun current => ?_) fun _ => refused _ idle.refused)
  obtain ⟨user, conn, work⟩ := pending
  cases work with
  | join room password hash =>
    refine (Hub.finishJoin_ends idle user room hash _).mono ?_ fun _ => refused
    rintro _ after ⟨joins, _, matched, may⟩
    refine .joins user room (some hash) joins may ?_ fun other same => ?_
    · exact .inr ⟨index, hashed, conn, password, hash, action, found, current, matched⟩
    · obtain rfl := Option.some.inj same
      exact ⟨index, hashed, conn, password, action, found, matched⟩
  | createRoom name password =>
    refine .bind (.okOr (fun hash _ => ?_) (refused _ idle.refused))
    refine .bind (Hub.roomToCreate_ends idle ?_ fun _ => refused _ idle.refused)
    intro name
    refine (Hub.addRoom_ends idle name (some hash)).mono ?_ fun _ after idle => refused _ idle.refused
    exact fun _ _ does => .calm (.does does trivial)
  | setRoomPassword room password =>
    refine .bind (.okOr (fun hash _ => ?_) (refused _ idle.refused))
    refine .bind (Hub.mayManageRoom_ends idle ?_ fun _ => refused _ idle.refused)
    refine (Hub.storeRoomPassword_ends idle room (some hash)).mono ?_ fun _ after idle =>
      refused _ idle.refused
    exact fun _ _ does => .calm (.does does trivial)

theorem dispatch_settles {user : UserId} {conn : ConnId} {request : Request}
    (action : input.action = .request user conn request) :
    Settling primitives server input (Hub.dispatch primitives user conn request input.draws
      input.clock (server.working input)).2.core := by
  let hub := server.working input
  let settles (after : Hub) : Prop := Settling primitives server input after.core
  have core : (hub.admitted input.clock user request).core = server.hub.core :=
    (Hub.idle_admitted input.clock hub user request).core
  suffices both : (Hub.dispatch primitives user conn request input.draws input.clock).Ends
      (fun _ => settles) (fun _ => settles) hub from both.after
  refine Hub.dispatch_ends (fun admits => ?_) fun _ after _ idle => .calm (.same idle.core)
  by_cases other : ∀ room password, request ≠ .joinRoom room password
  · have calm := Hub.perform_calm primitives input.clock (hub.admitted input.clock user request)
      user request other input.draws
    rw [core] at calm
    exact calm.mono (fun _ _ => .calm) fun _ _ => .calm
  · push Not at other
    obtain ⟨room, password, rfl⟩ := other
    have idle := Hub.idle_admitted input.clock hub user (.joinRoom room password)
    refine (Hub.join_ends idle user (some room) password).mono ?_ fun _ _ refused =>
      .calm refused.calm
    intro handled after ends
    cases handled with
    | done response =>
      have asks : server.Asks primitives input user room :=
        .inl ⟨conn, password, action, admits⟩
      exact .joins user room none ends.1 (ends.2.2 room rfl) asks nofun
    | pending work => exact .calm (.same ends.1.core)

theorem connect_settles (keyed : server.hub.core.Keyed) {row : UserRow} {wantRoom : Option RoomId}
    (action : input.action = .connect row wantRoom) :
    Settling primitives server input
      (Hub.connect row wantRoom input.clock (server.working input)).2.core := by
  let settles (after : Hub) : Prop := Settling primitives server input after.core
  suffices both : (Hub.connect row wantRoom input.clock).Ends (fun _ => settles)
      (fun _ => settles) (server.working input) from both.after
  refine (Hub.connect_ends (server.working input) row wantRoom input.clock).mono ?_
    fun _ after same => .calm (.same same)
  rintro _ after (same | ⟨current, left, found, leads, _, connects, wants⟩)
  · exact .calm (.same same)
  · have mine : current.id = row.id := keyed row.id current found
    rw [mine] at connects wants
    have calm : server.hub.core.Calm (left.apply (.signIn current)) :=
      (Core.Calm.ousts leads).trans (.apply trivial)
    exact .connects row wantRoom _ action calm connects wants

/-- Every step leaves everyone where they were or takes them out, joins someone to a room who may
enter it, or settles someone who has signed in. -/
theorem settling (keyed : server.hub.core.Keyed) :
    Settling primitives server input (step primitives server input).hub.core := by
  let hub := server.working input
  have idle : Hub.Idle input.clock hub hub := Hub.Idle.refl hub
  let settles (after : Hub) : Prop := Settling primitives server input after.core
  have unchanged : ∀ after : Hub, after.core = hub.core → settles after :=
    fun _ same => .calm (.same same)
  have idled : ∀ after : Hub, Hub.Idle input.clock hub after → settles after :=
    fun _ idle => unchanged _ idle.core
  unfold step
  dsimp only
  cases action : input.action with
  | connect row wantRoom => exact connect_settles primitives server input keyed action
  | disconnect user conn => exact .calm (.ousts (Hub.core_disconnect hub user conn input.clock))
  | request user conn request =>
    have settles := dispatch_settles primitives server input action
    unfold working at settles
    dsimp only
    generalize Hub.dispatch primitives user conn request input.draws input.clock _ = outcome at settles ⊢
    split <;> exact settles
  | finish index hashed =>
    dsimp only
    split
    · exact .calm (.same rfl)
    · exact finish_settles primitives server input action ‹_›
  | removeInactive =>
    refine ((Hub.removeInactive_ends idle).mono ?_ fun _ => idled).after
    rintro _ after (same | ⟨ids, removes⟩)
    · exact unchanged after same
    · exact .calm (.removes removes)
  | flushKeyframes => exact unchanged _ (Hub.core_flushKeyframes hub input.clock)
  | claimTry codeId =>
    exact ((Hub.claimTry_ends idle codeId input.clock.unixNow).mono (fun _ => unchanged)
      fun _ => idled).after
  | enroll pubkey codeId name startedAt =>
    have both : (Hub.enroll pubkey codeId name startedAt).Ends (fun _ => settles)
        (fun _ => settles) hub := by
      refine (Hub.enroll_ends idle pubkey codeId name startedAt).mono ?_ fun _ => idled
      rintro _ after (same | ⟨row, does⟩ | ⟨user, does⟩)
      · exact unchanged after same
      · exact .calm (.does does trivial)
      · exact .calm (.does does trivial)
    exact both.after
  | endRun codeId mintedBy => exact unchanged _ (Hub.core_endRun hub codeId mintedBy)
  | adminInvite =>
    exact ((Hub.mintInvite_ends idle none input.draws).mono (fun _ => unchanged)
      fun _ => idled).after
  | restart =>
    have does : hub.core.Does .restart (hub.start input.clock).core :=
      ⟨trivial, Hub.core_start hub input.clock⟩
    exact .calm (.does does trivial)

end Server

end Throcc
