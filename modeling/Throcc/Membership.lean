/-
This file says once what a turn can do to the seats and to who is in which
room: it touches one seat, moves one user, lets one arrive or depart, adds or
drops an empty room, or restarts. The invariants of membership are proved from
that.
-/

import Throcc.Core

namespace Throcc

namespace Core

variable (core : Core)

/-! ### Rooms and seats after a move -/

/-- The members of a room; a room there is not has none. -/
def occupants (room : RoomId) : Finset UserId :=
  ((core.rooms.lookup room).map (·.members)).getD ∅

theorem occupants_of_lookup {room : RoomId} {entry : RoomEntry}
    (found : core.rooms.lookup room = some entry) : core.occupants room = entry.members := by
  rw [occupants, found]
  rfl

theorem exists_of_mem_occupants {room : RoomId} {user : UserId}
    (member : user ∈ core.occupants room) :
    ∃ entry, core.rooms.lookup room = some entry ∧ user ∈ entry.members := by
  unfold occupants at member
  cases found : core.rooms.lookup room with
  | none =>
    rw [found] at member
    exact absurd member (Finset.notMem_empty user)
  | some entry =>
    rw [found] at member
    exact ⟨entry, rfl, member⟩

/-- Writing epochs one after another gives a room the last one written for it. -/
theorem lookup_foldl_epochs (epochs : List (RoomId × Epoch)) (rooms : Map RoomId RoomEntry)
    (room : RoomId) :
    (epochs.foldl
      (fun rooms next => rooms.modify next.1 fun entry => { entry with epoch := next.2 })
      rooms).lookup room =
      (rooms.lookup room).map fun entry =>
        epochs.foldl
          (fun entry next => if room = next.1 then { entry with epoch := next.2 } else entry)
          entry := by
  induction epochs generalizing rooms with
  | nil => exact Option.map_id'.symm
  | cons next rest inductionHypothesis =>
    rw [List.foldl_cons, inductionHypothesis, Map.lookup_modify]
    split
    · rename_i same
      rw [Option.map_map]
      refine congrArg (fun change => (rooms.lookup room).map change) (funext fun entry => ?_)
      rw [Function.comp_apply, List.foldl_cons, if_pos same]
    · rename_i different
      refine congrArg (fun change => (rooms.lookup room).map change) (funext fun entry => ?_)
      rw [List.foldl_cons, if_neg different]

theorem lookup_rooms_raise (rooms : List RoomId) (room : RoomId) :
    (core.raise rooms).rooms.lookup room =
      (core.rooms.lookup room).map fun entry =>
        { entry with epoch := if room ∈ rooms then entry.epoch + 1 else entry.epoch } := by
  refine (lookup_foldl_epochs _ _ _).trans ?_
  cases found : core.rooms.lookup room with
  | none => rfl
  | some entry =>
    rw [Option.map_some, Option.map_some]
    -- The list writes the one next epoch of `room`, if any.
    have written : ∀ (rooms : List RoomId) (current : RoomEntry),
        (core.nextEpochs rooms).foldl
          (fun entry next => if room = next.1 then { entry with epoch := next.2 } else entry)
          current =
            { current with epoch := if room ∈ rooms then entry.epoch + 1 else current.epoch } := by
      intro rooms
      induction rooms with
      | nil => exact fun _ => rfl
      | cons other rest inductionHypothesis =>
        intro current
        by_cases same : room = other
        · subst same
          have next : core.nextEpochs (room :: rest) =
              (room, entry.epoch + 1) :: core.nextEpochs rest := by
            unfold nextEpochs
            rw [List.filterMap_cons, found]
            rfl
          rw [next, List.foldl_cons, if_pos rfl, inductionHypothesis,
            if_pos (List.mem_cons_self : room ∈ room :: rest)]
          split <;> rfl
        · have skipped : ∀ current : RoomEntry, (core.nextEpochs (other :: rest)).foldl
              (fun entry next => if room = next.1 then { entry with epoch := next.2 } else entry)
              current = (core.nextEpochs rest).foldl
              (fun entry next => if room = next.1 then { entry with epoch := next.2 } else entry)
              current := by
            intro current
            unfold nextEpochs
            rw [List.filterMap_cons]
            cases core.rooms.lookup other with
            | none => rfl
            | some _ =>
              rw [Option.map_some, List.foldl_cons, if_neg same]
          rw [skipped, inductionHypothesis]
          simp only [List.mem_cons, same, false_or]
    exact congrArg some (written rooms entry)

theorem occupants_raise (rooms : List RoomId) (room : RoomId) :
    (core.raise rooms).occupants room = core.occupants room := by
  rw [occupants, lookup_rooms_raise, Option.map_map]
  rfl

theorem occupants_removeMember (room other : RoomId) (user : UserId) :
    (core.removeMember room user).occupants other =
      if other = room then (core.occupants other).erase user else core.occupants other := by
  show (((core.rooms.modify room _).lookup other).map _).getD ∅ = _
  rw [Map.lookup_modify]
  unfold occupants
  split
  · cases core.rooms.lookup other with
    | none => exact (Finset.erase_empty user).symm
    | some entry => rfl
  · rfl

theorem occupants_insertMember {room : RoomId} (there : (core.rooms.lookup room).isSome)
    (other : RoomId) (user : UserId) :
    (core.insertMember room user).occupants other =
      if other = room then insert user (core.occupants other) else core.occupants other := by
  show (((core.rooms.modify room _).lookup other).map _).getD ∅ = _
  rw [Map.lookup_modify]
  unfold occupants
  split
  · rename_i same
    obtain ⟨entry, found⟩ := Option.isSome_iff_exists.mp there
    rw [same, found]
    rfl
  · rfl

/-- A move from one room to another changes rooms, seats, routes and notices only. -/
theorem moved_frame (user : UserId) (current target : Option RoomId) (tracks : Option Tracks) :
    ∃ rooms table notices,
      core.moved user current target tracks =
        { core with
          rooms
          seats := core.seats.modify user fun seat => seat.placed target tracks
          table
          notices } := by
  cases current <;> cases target <;> exact ⟨_, _, _, rfl⟩

/-- The members of a room after `user` has moved from `current` to `target`. -/
def movedMembers (user : UserId) (current target : Option RoomId) (room : RoomId)
    (members : Finset UserId) : Finset UserId :=
  let members := if current = some room then members.erase user else members
  if target = some room then insert user members else members

theorem occupants_moved (user : UserId) (current : Option RoomId) {target : Option RoomId}
    (there : ∀ room, target = some room → (core.rooms.lookup room).isSome)
    (tracks : Option Tracks) (room : RoomId) :
    (core.moved user current target tracks).occupants room =
      movedMembers user current target room (core.occupants room) := by
  let left := current.toList.foldl (fun core room => core.removeMember room user) core
  have removed : left.occupants room =
      if current = some room then (core.occupants room).erase user else core.occupants room := by
    cases current with
    | none => rfl
    | some old =>
      refine (occupants_removeMember core old room user).trans ?_
      simp only [Option.some.injEq, eq_comm]
  have still : ∀ room, (left.rooms.lookup room).isSome = (core.rooms.lookup room).isSome := by
    intro room
    cases current with
    | none => rfl
    | some old =>
      show ((core.rooms.modify old _).lookup room).isSome = _
      rw [Map.lookup_modify]
      split
      · rw [Option.isSome_map]
      · rfl
  have inserted : (target.toList.foldl (fun core room => core.insertMember room user)
      left).occupants room =
        if target = some room then insert user (left.occupants room) else left.occupants room := by
    cases target with
    | none => rfl
    | some new =>
      refine (occupants_insertMember left ((still new).trans (there new rfl)) room user).trans ?_
      simp only [Option.some.injEq, eq_comm]
  have rooms : (core.moved user current target tracks).rooms =
      (target.toList.foldl (fun core room => core.insertMember room user) left).rooms := by
    cases current <;> cases target <;> rfl
  unfold movedMembers
  rw [← removed, ← inserted, occupants, rooms]
  rfl

theorem occupants_place (user : UserId) {target : Option RoomId}
    (there : ∀ room, target = some room → (core.rooms.lookup room).isSome) (room : RoomId) :
    (core.place user target).occupants room =
      movedMembers user (core.roomOf user) target room (core.occupants room) := by
  unfold place
  rw [occupants_moved, occupants_raise]
  · cases target <;> rfl
  · intro room same
    rw [lookup_rooms_raise, Option.isSome_map]
    cases target <;> exact there room same

/-- A placement changes rooms, seats, routes, notices and the media ids given out only. -/
theorem place_frame (user : UserId) (target : Option RoomId) :
    ∃ rooms table notices,
      core.place user target =
        { (if target.isSome then core.allocate else core) with
          rooms
          stored := ((if target.isSome then core.allocate else core).raise
            ((core.roomOf user).toList ++ target.toList)).stored
          seats := core.seats.modify user fun seat =>
            seat.placed target (target.map fun _ => tracksAt core.nextMediaId)
          table
          notices } := by
  obtain ⟨rooms, table, notices, same⟩ := moved_frame
    ((if target.isSome then core.allocate else core).raise
      ((core.roomOf user).toList ++ target.toList)) user (core.roomOf user) target
    (target.map fun _ => tracksAt core.nextMediaId)
  refine ⟨rooms, table, notices, same.trans ?_⟩
  cases target <;> rfl

theorem occupants_expel (user : UserId) (room other : RoomId) :
    (core.expel user room).occupants other =
      movedMembers user (some room) none other (core.occupants other) := by
  refine (occupants_removeMember core room other user).trans ?_
  unfold movedMembers
  simp only [Option.some.injEq, eq_comm, reduceCtorEq, if_false]

/-- Telling a room changes the notices only. -/
theorem broadcasts_frame (room : Option RoomId) (except : Option UserId) :
    ∃ notices, room.toList.foldl (fun core room => core.broadcast room except) core =
      { core with notices } := by
  cases room <;> exact ⟨_, rfl⟩

theorem setMedia_frame (user : UserId) (media : MediaState) :
    ∃ table notices, core.setMedia user media =
      { core with
        seats := core.seats.modify user fun seat => { seat with media }
        table
        notices } := by
  unfold setMedia
  dsimp only
  obtain ⟨notices, told⟩ :=
    broadcasts_frame (core.withSeat user fun seat => { seat with media }) (core.roomOf user) none
  rw [told]
  split <;> split <;> exact ⟨_, _, rfl⟩

theorem takeRole_frame (user : UserId) (role : Role) :
    ∃ lastJoined, core.takeRole user role =
      { core with
        seats := core.seats.modify user fun seat => { seat with row := { seat.row with role } }
        lastJoined } := by
  unfold takeRole
  dsimp only
  split <;> exact ⟨_, rfl⟩

/-- The turn of expelling a user from their room. -/
theorem apply_expel {user : UserId} {room : RoomId} (inside : core.roomOf user = some room) :
    core.apply (.expel user) = core.expel user room := by
  unfold Core.apply
  dsimp only
  rw [inside]

theorem apply_renewKey (user : UserId) (encryptionKey : SignedEncryptionKey) :
    ∃ notices, core.apply (.renewKey user encryptionKey) =
      { core.storeKey user encryptionKey with notices } :=
  broadcasts_frame (core.storeKey user encryptionKey) (core.roomOf user) none

theorem apply_rekey (user : UserId) (encryptionKey : SignedEncryptionKey) :
    ∃ notices, core.apply (.rekey user encryptionKey) =
      { (core.storeKey user encryptionKey).raise (core.roomOf user).toList with notices } :=
  broadcasts_frame ((core.storeKey user encryptionKey).raise (core.roomOf user).toList)
    (core.roomOf user) none

theorem apply_media (user : UserId) (media : MediaState) :
    ∃ table notices, core.apply (.media user media) =
      { core with
        seats := core.seats.modify user fun seat => { seat with media }
        table
        notices } :=
  core.setMedia_frame user media

theorem apply_role (user : UserId) (role : Role) :
    ∃ lastJoined, core.apply (.role user role) =
      { core with
        seats := core.seats.modify user fun seat => { seat with row := { seat.row with role } }
        users := core.users.modify user fun row => { row with role }
        lastJoined } :=
  (core.withUser user fun row => { row with role }).takeRole_frame user role

/-! ### What a turn does to seats and members -/

/-- What may change of a seat that stays where it is. -/
structure Touches (core : Core) (user : UserId) (update : Seat → Seat) : Prop where
  conn : ∀ seat, (update seat).connId = seat.connId
  named : ∀ seat, (update seat).row.id = seat.row.id
  room : ∀ seat, (update seat).room = seat.room
  tracks : ∀ seat, (update seat).tracks = seat.tracks
  keyed : ∀ seat, seat.row.encryptionKey.isSome → (update seat).row.encryptionKey.isSome
  outside : core.roomOf user = none → ∀ seat,
    (update seat).media.share = seat.media.share ∧ (update seat).watching = seat.watching
  share : ∀ seat, core.seats.lookup user = some seat → (update seat).media.share.isSome →
    seat.media.share.isSome ∨ ∃ room, seat.room = some room ∧ core.sharesIn room < maxRoomShares

/-- Media ids are given out for `tracks`, or none. -/
structure Deals (core next : Core) (tracks : Option Tracks) : Prop where
  fresh : ∀ new, tracks = some new → new = tracksAt core.nextMediaId
  given : next.given = core.given ++ (tracks.map trackIds).getD []
  nextId : next.nextMediaId =
    core.nextMediaId + (tracks.map fun _ => tracksPerMembership).getD 0

theorem Deals.nothing {core next : Core} (given : next.given = core.given)
    (nextId : next.nextMediaId = core.nextMediaId) : core.Deals next none :=
  ⟨nofun, given.trans (List.append_nil _).symm, nextId⟩

/-- What a turn does to the seats, to who is in which room, and to what ids are given out. -/
inductive Shift (core next : Core) : Prop where
  | touch (user : UserId) (update : Seat → Seat) (touches : core.Touches user update)
      (seats : next.seats = core.seats.modify user update)
      (members : ∀ room, next.occupants room = core.occupants room)
      (conn : next.nextConn = core.nextConn) (deals : core.Deals next none)
  | allot (seats : next.seats = core.seats)
      (members : ∀ room, next.occupants room = core.occupants room)
      (conn : next.nextConn = core.nextConn)
      (deals : core.Deals next (some (tracksAt core.nextMediaId)))
  | move (user : UserId) (target : Option RoomId) (tracks : Option Tracks)
      (sits : ∃ seat, core.seats.lookup user = some seat ∧
        (target.isSome → seat.row.encryptionKey.isSome))
      (space : ∀ room, target = some room → (core.occupants room).card < maxRoomMembers)
      (given : tracks.isSome = target.isSome)
      (seats : next.seats = core.seats.modify user fun seat => seat.placed target tracks)
      (members : ∀ room, next.occupants room =
        movedMembers user (core.roomOf user) target room (core.occupants room))
      (conn : next.nextConn = core.nextConn) (deals : core.Deals next tracks)
  | arrive (row : UserRow) (stored : core.users.lookup row.id = some row)
      (absent : row.id ∉ core.seats)
      (seats : next.seats = core.seats.insert row.id { connId := core.nextConn + 1, row })
      (members : ∀ room, next.occupants room = core.occupants room)
      (conn : next.nextConn = core.nextConn + 1) (deals : core.Deals next none)
  | depart (user : UserId) (outside : core.roomOf user = none)
      (seats : next.seats = core.seats.erase user)
      (members : ∀ room, next.occupants room = core.occupants room)
      (conn : next.nextConn = core.nextConn) (deals : core.Deals next none)
  | restart (seats : next.seats = ∅) (members : ∀ room, next.occupants room = ∅)
      (deals : core.Deals next none)

/-- Rooms get ids above every room there is. -/
def Numbered (core : Core) : Prop := ∀ room, room ∈ core.rooms → room ≤ core.lastRoom

/-- A room that is added is empty. -/
theorem occupants_addRoom (numbered : core.Numbered) (name : String)
    (passwordHash : Option String) (room : RoomId) :
    (core.apply (.addRoom name passwordHash)).occupants room = core.occupants room := by
  show (((core.rooms.insert _ _).lookup room).map _).getD ∅ = _
  rw [Map.lookup_insert_ite]
  split
  · rename_i same
    have fresh : core.rooms.lookup room = none := by
      rw [same]
      refine Finmap.lookup_eq_none.mpr fun member => ?_
      exact absurd (numbered _ member) (Nat.not_succ_le_self _)
    rw [occupants, fresh]
    rfl
  · rfl

/-- A change of a room that keeps its members. -/
theorem occupants_withRoom (room : RoomId) (update : RoomEntry → RoomEntry)
    (same : ∀ entry, (update entry).members = entry.members) (other : RoomId) :
    (core.withRoom room update).occupants other = core.occupants other := by
  show (((core.rooms.modify room update).lookup other).map _).getD ∅ = _
  rw [Map.lookup_modify, occupants]
  split
  · rw [Option.map_map]
    exact congrArg (fun change => ((core.rooms.lookup other).map change).getD ∅) (funext same)
  · rfl

/-- A room that is dropped was empty. -/
theorem occupants_dropRoom {room : RoomId} (allowed : core.Allows (.dropRoom room))
    (other : RoomId) : (core.apply (.dropRoom room)).occupants other = core.occupants other := by
  obtain ⟨entry, found, empty⟩ := allowed
  show (((core.rooms.erase room).lookup other).map _).getD ∅ = _
  rw [Map.lookup_erase_ite]
  split
  · rename_i same
    rw [same, occupants_of_lookup core found, empty]
    rfl
  · rfl

/-- Nobody is in a room after a restart. -/
theorem occupants_restart (room : RoomId) : (core.apply .restart).occupants room = ∅ := by
  show (((core.stored.mapValues _).lookup room).map _).getD ∅ = _
  rw [Map.lookup_mapValues, Option.map_map]
  cases core.stored.lookup room <;> rfl

/-- A turn that changes neither seats nor members. -/
theorem Shift.stays {core next : Core} (seats : next.seats = core.seats)
    (members : ∀ room, next.occupants room = core.occupants room)
    (conn : next.nextConn = core.nextConn) (deals : core.Deals next none) : core.Shift next := by
  refine .touch 0 (fun seat => seat) ?_ (seats.trans (Map.modify_id _ _).symm) members conn deals
  exact ⟨fun _ => rfl, fun _ => rfl, fun _ => rfl, fun _ => rfl, fun _ has => has,
    fun _ _ => ⟨rfl, rfl⟩, fun _ _ has => .inl has⟩

/-- A turn that changes a seat's row alone, and no id or key that is there. -/
theorem Shift.row {core next : Core} {user : UserId} (update : UserRow → UserRow)
    (named : ∀ row, (update row).id = row.id)
    (keyed : ∀ row, row.encryptionKey.isSome → (update row).encryptionKey.isSome)
    (seats : next.seats = core.seats.modify user fun seat => { seat with row := update seat.row })
    (members : ∀ room, next.occupants room = core.occupants room)
    (conn : next.nextConn = core.nextConn) (deals : core.Deals next none) : core.Shift next := by
  refine .touch user _ ?_ seats members conn deals
  exact ⟨fun _ => rfl, fun _ => named _, fun _ => rfl, fun _ => rfl, fun _ => keyed _,
    fun _ _ => ⟨rfl, rfl⟩, fun _ _ has => .inl has⟩

theorem Shift.place {core : Core} {user : UserId} {target : Option RoomId}
    (canPlace : core.CanPlace user target) : core.Shift (core.place user target) := by
  obtain ⟨⟨seat, found, _, keyed⟩, space, _⟩ := canPlace
  have there : ∀ room, target = some room → (core.rooms.lookup room).isSome := by
    intro room same
    obtain ⟨⟨entry, present, _⟩, _⟩ := space room same
    rw [present]
    rfl
  refine .move user target _ ⟨seat, found, keyed⟩ (fun room same => ?_) ?_
    (core.seats_place user target) (core.occupants_place user there) ?_ ?_
  · obtain ⟨⟨entry, present, enough⟩, _⟩ := space room same
    rw [occupants_of_lookup core present]
    exact enough
  · rw [Option.isSome_map]
  · obtain ⟨rooms, table, notices, same⟩ := place_frame core user target
    rw [same]
    cases target <;> rfl
  · obtain ⟨rooms, table, notices, same⟩ := place_frame core user target
    rw [same]
    cases target with
    | none => exact .nothing rfl rfl
    | some room => exact ⟨fun _ same => (Option.some.inj same).symm, rfl, rfl⟩

/-- A stored key. -/
theorem Shift.storeKey {core next : Core} {user : UserId} {encryptionKey : SignedEncryptionKey}
    (seats : next.seats = (core.storeKey user encryptionKey).seats)
    (members : ∀ room, next.occupants room = core.occupants room)
    (conn : next.nextConn = core.nextConn) (deals : core.Deals next none) : core.Shift next :=
  .row (fun row => { row with encryptionKey := some encryptionKey }) (fun _ => rfl)
    (fun _ _ => rfl) seats members conn deals

/-- Every turn is such a change of seats and members. -/
theorem shift {turn : Turn} (numbered : core.Numbered) (allowed : core.Allows turn) :
    core.Shift (core.apply turn) := by
  cases turn with
  | allocate =>
    exact .allot rfl (fun _ => rfl) rfl ⟨fun _ same => (Option.some.inj same).symm, rfl, rfl⟩
  | enter user room =>
    cases Shift.place allowed with
    | touch user update touches seats members conn deals =>
      exact .touch user update touches seats members conn ⟨deals.1, deals.2, deals.3⟩
    | allot seats members conn deals =>
      exact .allot seats members conn ⟨deals.1, deals.2, deals.3⟩
    | move user target tracks sits space given seats members conn deals =>
      exact .move user target tracks sits space given seats members conn
        ⟨deals.1, deals.2, deals.3⟩
    | arrive row stored absent seats members conn deals =>
      exact .arrive row stored absent seats members conn ⟨deals.1, deals.2, deals.3⟩
    | depart user outside seats members conn deals =>
      exact .depart user outside seats members conn ⟨deals.1, deals.2, deals.3⟩
    | restart seats members deals => exact .restart seats members ⟨deals.1, deals.2, deals.3⟩
  | leave user => exact Shift.place allowed
  | expel user =>
    obtain ⟨room, inside⟩ := allowed
    rw [apply_expel core inside]
    refine .move user none none ?_ nofun rfl rfl ?_ rfl (.nothing rfl rfl)
    · unfold roomOf at inside
      obtain ⟨seat, found, _⟩ := Option.bind_eq_some_iff.mp inside
      exact ⟨seat, found, nofun⟩
    · rw [inside]
      exact core.occupants_expel user room
  | hand user => exact .stays rfl (fun _ => rfl) rfl (.nothing rfl rfl)
  | remember user target => cases target <;> exact .stays rfl (fun _ => rfl) rfl (.nothing rfl rfl)
  | signIn row => exact .arrive row allowed.1 allowed.2 rfl (fun _ => rfl) rfl (.nothing rfl rfl)
  | signOut user => exact .depart user allowed rfl (fun _ => rfl) rfl (.nothing rfl rfl)
  | storeKey user encryptionKey => exact .storeKey rfl (fun _ => rfl) rfl (.nothing rfl rfl)
  | halfKey user encryptionKey => exact .storeKey rfl (fun _ => rfl) rfl (.nothing rfl rfl)
  | renewKey user encryptionKey =>
    obtain ⟨notices, same⟩ := core.apply_renewKey user encryptionKey
    rw [same]
    exact .storeKey rfl (fun _ => rfl) rfl (.nothing rfl rfl)
  | rekey user encryptionKey =>
    obtain ⟨notices, same⟩ := core.apply_rekey user encryptionKey
    rw [same]
    exact .storeKey rfl (occupants_raise _ _) rfl (.nothing rfl rfl)
  | media user media =>
    obtain ⟨seat, room, found, inside, space⟩ := allowed
    obtain ⟨table, notices, same⟩ := core.apply_media user media
    rw [same]
    refine .touch user _ ?_ rfl (fun _ => rfl) rfl (.nothing rfl rfl)
    refine ⟨fun _ => rfl, fun _ => rfl, fun _ => rfl, fun _ => rfl, fun _ has => has, ?_, ?_⟩
    · intro outside
      rw [roomOf, found, Option.bind_some, inside] at outside
      cases outside
    · intro other found' shares
      rw [found] at found'
      cases found'
      exact (space shares).imp_right fun enough => ⟨room, inside, enough⟩
  | watch user ids =>
    obtain ⟨seat, room, found, inside, _⟩ := allowed
    refine .touch user _ ?_ rfl (fun _ => rfl) rfl (.nothing rfl rfl)
    refine ⟨fun _ => rfl, fun _ => rfl, fun _ => rfl, fun _ => rfl, fun _ has => has, ?_,
      fun _ _ has => .inl has⟩
    intro outside
    rw [roomOf, found, Option.bind_some, inside] at outside
    cases outside
  | profile user name avatar =>
    exact .row (fun row => { row with name, avatar }) (fun _ => rfl) (fun _ has => has) rfl
      (fun _ => rfl) rfl (.nothing rfl rfl)
  | role user role =>
    obtain ⟨lastJoined, same⟩ := core.apply_role user role
    rw [same]
    exact .row (fun row => { row with role }) (fun _ => rfl) (fun _ has => has) rfl
      (fun _ => rfl) rfl (.nothing rfl rfl)
  | addRoom name passwordHash =>
    exact .stays rfl (core.occupants_addRoom numbered name passwordHash) rfl (.nothing rfl rfl)
  | renameRoom room name =>
    exact .stays rfl (core.occupants_withRoom room _ fun _ => rfl) rfl (.nothing rfl rfl)
  | lock room passwordHash =>
    exact .stays rfl (core.occupants_withRoom room _ fun _ => rfl) rfl (.nothing rfl rfl)
  | dropRoom room => exact .stays rfl (core.occupants_dropRoom allowed) rfl (.nothing rfl rfl)
  | removeUsers ids => exact .stays rfl (fun _ => rfl) rfl (.nothing rfl rfl)
  | addUser row => exact .stays rfl (fun _ => rfl) rfl (.nothing rfl rfl)
  | restart => exact .restart rfl core.occupants_restart (.nothing rfl rfl)

end Core

end Throcc
