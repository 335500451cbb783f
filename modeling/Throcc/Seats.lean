/-
This file proves the invariants of membership: seats and members agree, every
seat has what its place asks for, no room holds too many people or shares, and
no two connections share an id.
-/

import Throcc.Membership

namespace Throcc

/-- A seat has tracks exactly in a room, and shares, watches and is listed only there. -/
structure Seat.Fits (seat : Seat) : Prop where
  tracks : seat.tracks.isSome = seat.room.isSome
  quiet : seat.room = none → seat.media.share = none ∧ seat.watching = []
  keyed : seat.room.isSome → seat.row.encryptionKey.isSome

/-- A user's row but for who invited them, which removing the inviter clears. -/
def UserRow.kept (row : UserRow) : UserRow := { row with invitedBy := none }

namespace Core

variable {core next : Core}

/-! ### Who sits where -/

/-- Seats and members agree: a user sits in a room exactly if they are one of its members. -/
structure Seated (core : Core) : Prop where
  named : ∀ user seat, core.seats.lookup user = some seat → seat.row.id = user
  member : ∀ user room, core.roomOf user = some room ↔ user ∈ core.occupants room

theorem Seated.notMem_occupants (seated : core.Seated) {user : UserId}
    (outside : core.roomOf user = none) (room : RoomId) : user ∉ core.occupants room := by
  rw [← seated.member, outside]
  exact nofun

theorem roomOf_eq_none_of_notMem {user : UserId} (absent : user ∉ core.seats) :
    core.roomOf user = none := by
  rw [roomOf, Finmap.lookup_eq_none.mpr absent]
  rfl

/-- The room of a user after one seat has changed. -/
theorem roomOf_of_modify {user other : UserId} {update : Seat → Seat}
    (seats : next.seats = core.seats.modify user update) :
    next.roomOf other =
      if other = user then (core.seats.lookup user).bind fun seat => (update seat).room
      else core.roomOf other := by
  rw [roomOf, seats, Map.lookup_modify]
  split
  · rename_i same
    rw [same, Option.bind_map]
    rfl
  · rfl

/-- After a move a user is one of a room's members exactly if it is where they went. -/
theorem Seated.mem_movedMembers (seated : core.Seated) (user other : UserId)
    (target : Option RoomId) (room : RoomId) :
    other ∈ movedMembers user (core.roomOf user) target room (core.occupants room) ↔
      (if other = user then target else core.roomOf other) = some room := by
  unfold movedMembers
  by_cases same : other = user
  · subst same
    rw [if_pos rfl]
    by_cases enters : target = some room
    · simp [enters]
    · by_cases inside : core.roomOf other = some room
      · simp [enters, inside]
      · simp [enters, inside, (seated.member other room).not.mp inside]
  · rw [if_neg same, seated.member other room]
    split <;> split <;> simp [same]

theorem Seated.shift (seated : core.Seated) (shift : core.Shift next) : next.Seated := by
  have renamed : ∀ user update, (∀ seat : Seat, (update seat).row.id = seat.row.id) →
      next.seats = core.seats.modify user update →
      ∀ other seat, next.seats.lookup other = some seat → seat.row.id = other := by
    intro user update named seats other seat found
    rw [seats, Map.lookup_modify] at found
    split at found
    · obtain ⟨before, there, rfl⟩ := Option.map_eq_some_iff.mp found
      exact (named before).trans (seated.named other before there)
    · exact seated.named other seat found
  cases shift with
  | touch user update touches seats members conn deals =>
    refine ⟨renamed user update touches.named seats, fun other room => ?_⟩
    have stays : next.roomOf other = core.roomOf other := by
      rw [roomOf_of_modify seats]
      split
      · rename_i same
        subst same
        simp only [touches.room, roomOf]
      · rfl
    rw [stays, members]
    exact seated.member other room
  | allot seats members conn deals =>
    refine ⟨fun other seat found => seated.named other seat (seats ▸ found), fun other room => ?_⟩
    rw [members, roomOf, seats]
    exact seated.member other room
  | move user target tracks sits space given seats members conn deals =>
    refine ⟨renamed user (·.placed target tracks) (fun _ => rfl) seats, fun other room => ?_⟩
    obtain ⟨seat, found, _⟩ := sits
    rw [members, seated.mem_movedMembers, roomOf_of_modify seats, found]
    rfl
  | arrive row stored absent seats members conn deals =>
    constructor
    · intro other seat found
      rw [seats, Map.lookup_insert_ite] at found
      split at found
      · rename_i same
        cases found
        exact same.symm
      · exact seated.named other seat found
    · intro other room
      have stays : next.roomOf other = core.roomOf other := by
        rw [roomOf, seats, Map.lookup_insert_ite]
        split
        · rename_i same
          rw [same, roomOf_eq_none_of_notMem absent]
          rfl
        · rfl
      rw [stays, members]
      exact seated.member other room
  | depart user outside seats members conn deals =>
    constructor
    · intro other seat found
      rw [seats, Map.lookup_erase_ite] at found
      split at found
      · cases found
      · exact seated.named other seat found
    · intro other room
      have stays : next.roomOf other = core.roomOf other := by
        rw [roomOf, seats, Map.lookup_erase_ite]
        split
        · rename_i same
          rw [same, outside]
          rfl
        · rfl
      rw [stays, members]
      exact seated.member other room
  | restart seats members deals =>
    constructor
    · intro user seat found
      rw [seats] at found
      cases found
    · intro user room
      rw [roomOf, seats, members]
      simp

/-! ### What a seat has -/

/-- Every seat has what its place asks for. -/
def Fitting (core : Core) : Prop :=
  ∀ user seat, core.seats.lookup user = some seat → seat.Fits

theorem Fitting.shift (fitting : core.Fitting) (shift : core.Shift next) : next.Fitting := by
  intro other seat found
  cases shift with
  | touch user update touches seats members conn deals =>
    rw [seats, Map.lookup_modify] at found
    split at found
    · rename_i same
      obtain ⟨before, there, rfl⟩ := Option.map_eq_some_iff.mp found
      have fits := fitting other before there
      refine ⟨?_, fun outside => ?_, fun inside => ?_⟩
      · rw [touches.tracks, touches.room]
        exact fits.tracks
      · rw [touches.room] at outside
        have none : core.roomOf user = none := by
          rw [roomOf, ← same, there, Option.bind_some, outside]
        obtain ⟨share, watching⟩ := touches.outside none before
        rw [share, watching]
        exact fits.quiet outside
      · rw [touches.room] at inside
        exact touches.keyed before (fits.keyed inside)
    · exact fitting other seat found
  | allot seats members conn deals => exact fitting other seat (seats ▸ found)
  | move user target tracks sits space given seats members conn deals =>
    rw [seats, Map.lookup_modify] at found
    split at found
    · rename_i same
      obtain ⟨before, there, rfl⟩ := Option.map_eq_some_iff.mp found
      obtain ⟨seat, found, keyed⟩ := sits
      rw [same, found] at there
      cases there
      exact ⟨given, fun _ => ⟨rfl, rfl⟩, keyed⟩
    · exact fitting other seat found
  | arrive row stored absent seats members conn deals =>
    rw [seats, Map.lookup_insert_ite] at found
    split at found
    · cases found
      exact ⟨rfl, fun _ => ⟨rfl, rfl⟩, fun placed => by cases placed⟩
    · exact fitting other seat found
  | depart user outside seats members conn deals =>
    rw [seats, Map.lookup_erase_ite] at found
    split at found
    · cases found
    · exact fitting other seat found
  | restart seats members deals =>
    rw [seats] at found
    cases found

/-! ### How many fit -/

/-- No room has more members than fit. -/
def Spacious (core : Core) : Prop := ∀ room, (core.occupants room).card ≤ maxRoomMembers

theorem Spacious.shift (spacious : core.Spacious) (shift : core.Shift next) : next.Spacious := by
  intro room
  cases shift with
  | touch user update touches seats members conn deals => exact members room ▸ spacious room
  | allot seats members conn deals => exact members room ▸ spacious room
  | move user target tracks sits space given seats members conn deals =>
    rw [members, movedMembers]
    have fewer : (if core.roomOf user = some room then (core.occupants room).erase user
        else core.occupants room).card ≤ (core.occupants room).card := by
      split
      · exact Finset.card_erase_le
      · exact Nat.le_refl _
    split
    · rename_i enters
      calc
        _ ≤ _ + 1 := Finset.card_insert_le _ _
        _ ≤ (core.occupants room).card + 1 := Nat.succ_le_succ fewer
        _ ≤ maxRoomMembers := space room enters
    · exact fewer.trans (spacious room)
  | arrive row stored absent seats members conn deals => exact members room ▸ spacious room
  | depart user outside seats members conn deals => exact members room ▸ spacious room
  | restart seats members deals =>
    rw [members]
    exact Nat.zero_le _

/-- The members of a room who share. -/
def sharers (core : Core) (room : RoomId) : Finset UserId :=
  (core.occupants room).filter fun user =>
    (core.seats.lookup user).any fun seat => seat.media.share.isSome

theorem mem_sharers {user : UserId} {room : RoomId} :
    user ∈ core.sharers room ↔ user ∈ core.occupants room ∧
      ∃ seat, core.seats.lookup user = some seat ∧ seat.media.share.isSome := by
  rw [sharers, Finset.mem_filter, Option.any_eq_true]

theorem length_filter_ascending (members : Finset UserId) (keep : UserId → Bool) :
    ((ascending members).filter keep).length = (members.filter fun user => keep user).card := by
  rw [Finset.card_def, Finset.filter_val, ← ascending_coe, Multiset.filter_coe, Multiset.coe_card]
  simp only [Bool.decide_eq_true]

theorem sharesIn_eq_card (core : Core) (room : RoomId) :
    core.sharesIn room = (core.sharers room).card := by
  unfold Seating.sharesIn sharers occupants
  cases core.rooms.lookup room with
  | none => rfl
  | some entry =>
    refine Eq.trans ?_ (length_filter_ascending entry.members _)
    unfold Seating.seatsIn
    dsimp only
    generalize ascending entry.members = members
    induction members with
    | nil => rfl
    | cons member rest inductionHypothesis =>
      rw [List.filterMap_cons, List.filter_cons]
      cases core.seats.lookup member with
      | none => exact inductionHypothesis
      | some seat =>
        dsimp only [Option.any_some]
        rw [List.filter_cons]
        split
        · exact congrArg Nat.succ inductionHypothesis
        · exact inductionHypothesis

/-- No room has more running shares than are allowed. -/
def FewShare (core : Core) : Prop := ∀ room, (core.sharers room).card ≤ maxRoomShares

theorem FewShare.of_subset (few : core.FewShare)
    (fewer : ∀ room, next.sharers room ⊆ core.sharers room) : next.FewShare :=
  fun room => (Finset.card_le_card (fewer room)).trans (few room)

theorem FewShare.shift (few : core.FewShare) (seated : core.Seated) (shift : core.Shift next) :
    next.FewShare := by
  cases shift with
  | touch user update touches seats members conn deals =>
    intro room
    have others : next.sharers room ⊆ insert user (core.sharers room) := by
      intro other member
      obtain ⟨inside, seat, found, shares⟩ := mem_sharers.mp member
      rw [seats, Map.lookup_modify] at found
      rw [Finset.mem_insert]
      split at found
      · exact .inl ‹other = user›
      · exact .inr (mem_sharers.mpr ⟨members room ▸ inside, seat, found, shares⟩)
    by_cases starts : user ∈ next.sharers room ∧ user ∉ core.sharers room
    · -- Only a member of a room that has space starts to share.
      obtain ⟨⟨inside, seat, found, shares⟩, before⟩ :=
        (starts.imp_left mem_sharers.mp :)
      rw [seats, Map.lookup_modify_self] at found
      obtain ⟨was, there, rfl⟩ := Option.map_eq_some_iff.mp found
      rw [members] at inside
      obtain had | ⟨place, sits, space⟩ := touches.share was there shares
      · exact absurd (mem_sharers.mpr ⟨inside, was, there, had⟩) before
      · have same : place = room := by
          have at_ := (seated.member user room).mpr inside
          rw [roomOf, there, Option.bind_some, sits] at at_
          exact Option.some.inj at_
        rw [same, sharesIn_eq_card] at space
        exact (Finset.card_le_card others).trans
          ((Finset.card_insert_le _ _).trans space)
    · refine (Finset.card_le_card fun other member => ?_).trans (few room)
      rcases Finset.mem_insert.mp (others member) with rfl | still
      · by_contra before
        exact starts ⟨member, before⟩
      · exact still
  | allot seats members conn deals =>
    refine few.of_subset fun room => ?_
    rw [sharers, members, seats]
    exact Finset.Subset.refl _
  | move user target tracks sits space given seats members conn deals =>
    refine few.of_subset fun room other member => ?_
    obtain ⟨inside, seat, found, shares⟩ := mem_sharers.mp member
    rw [seats, Map.lookup_modify] at found
    split at found
    · obtain ⟨before, _, rfl⟩ := Option.map_eq_some_iff.mp found
      cases shares
    · rename_i different
      rw [members, seated.mem_movedMembers, if_neg different] at inside
      exact mem_sharers.mpr ⟨(seated.member other room).mp inside, seat, found, shares⟩
  | arrive row stored absent seats members conn deals =>
    refine few.of_subset fun room other member => ?_
    obtain ⟨inside, seat, found, shares⟩ := mem_sharers.mp member
    rw [seats, Map.lookup_insert_ite] at found
    split at found
    · cases found
      cases shares
    · exact mem_sharers.mpr ⟨members room ▸ inside, seat, found, shares⟩
  | depart user outside seats members conn deals =>
    refine few.of_subset fun room other member => ?_
    obtain ⟨inside, seat, found, shares⟩ := mem_sharers.mp member
    rw [seats, Map.lookup_erase_ite] at found
    split at found
    · cases found
    · exact mem_sharers.mpr ⟨members room ▸ inside, seat, found, shares⟩
  | restart seats members deals =>
    refine few.of_subset fun room other member => ?_
    have inside := (mem_sharers.mp member).1
    rw [members] at inside
    exact absurd inside (Finset.notMem_empty other)

/-! ### Connections -/

/-- Connections get ids one after another, so no two seats have one. -/
structure Connected (core : Core) : Prop where
  known : ∀ user seat, core.seats.lookup user = some seat → seat.connId ≤ core.nextConn
  distinct : ∀ user other seat seat', core.seats.lookup user = some seat →
    core.seats.lookup other = some seat' → seat.connId = seat'.connId → user = other

/-- A connection after one seat has changed is one from before. -/
theorem Connected.of_modify (connected : core.Connected) (user : UserId) (update : Seat → Seat)
    (conn : ∀ seat, (update seat).connId = seat.connId)
    (seats : next.seats = core.seats.modify user update)
    (nextConn : next.nextConn = core.nextConn) : next.Connected := by
  have before : ∀ other seat, next.seats.lookup other = some seat →
      ∃ was, core.seats.lookup other = some was ∧ was.connId = seat.connId := by
    intro other seat found
    rw [seats, Map.lookup_modify] at found
    split at found
    · obtain ⟨was, there, rfl⟩ := Option.map_eq_some_iff.mp found
      exact ⟨was, there, (conn was).symm⟩
    · exact ⟨seat, found, rfl⟩
  constructor
  · intro other seat found
    obtain ⟨was, there, same⟩ := before other seat found
    rw [← same, nextConn]
    exact connected.known other was there
  · intro first second seat seat' found found' same
    obtain ⟨was, there, conn⟩ := before first seat found
    obtain ⟨was', there', conn'⟩ := before second seat' found'
    exact connected.distinct first second was was' there there' (by rw [conn, conn', same])

theorem Connected.shift (connected : core.Connected) (shift : core.Shift next) :
    next.Connected := by
  cases shift with
  | touch user update touches seats members conn deals =>
    exact connected.of_modify user update touches.conn seats conn
  | allot seats members conn deals =>
    exact connected.of_modify 0 (fun seat => seat) (fun _ => rfl)
      (seats.trans (Map.modify_id _ _).symm) conn
  | move user target tracks sits space given seats members conn deals =>
    exact connected.of_modify user (·.placed target tracks) (fun _ => rfl) seats conn
  | arrive row stored absent seats members conn deals =>
    have before : ∀ other seat, next.seats.lookup other = some seat →
        other = row.id ∧ seat.connId = core.nextConn + 1 ∨
          core.seats.lookup other = some seat ∧ seat.connId ≤ core.nextConn := by
      intro other seat found
      rw [seats, Map.lookup_insert_ite] at found
      split at found
      · cases found
        exact .inl ⟨‹_›, rfl⟩
      · exact .inr ⟨found, connected.known other seat found⟩
    constructor
    · intro other seat found
      rw [conn]
      obtain ⟨_, new⟩ | ⟨_, old⟩ := before other seat found
      · exact new.le
      · exact old.trans (Nat.le_succ _)
    · intro first second seat seat' found found' same
      obtain ⟨name, new⟩ | ⟨there, old⟩ := before first seat found
      · obtain ⟨name', _⟩ | ⟨_, old'⟩ := before second seat' found'
        · exact name.trans name'.symm
        · rw [← same, new] at old'
          exact absurd old' (Nat.not_succ_le_self _)
      · obtain ⟨_, new'⟩ | ⟨there', _⟩ := before second seat' found'
        · rw [same, new'] at old
          exact absurd old (Nat.not_succ_le_self _)
        · exact connected.distinct first second seat seat' there there' same
  | depart user outside seats members conn deals =>
    have before : ∀ other seat, next.seats.lookup other = some seat →
        core.seats.lookup other = some seat := by
      intro other seat found
      rw [seats, Map.lookup_erase_ite] at found
      split at found
      · cases found
      · exact found
    constructor
    · exact fun other seat found => conn ▸ connected.known other seat (before other seat found)
    · exact fun first second seat seat' found found' =>
        connected.distinct first second seat seat' (before _ _ found) (before _ _ found')
  | restart seats members deals =>
    constructor
    · intro user seat found
      rw [seats] at found
      cases found
    · intro user other seat seat' found
      rw [seats] at found
      cases found

/-! ### Stored users -/

/-- What a turn does to the stored users. -/
theorem users_apply (core : Core) (turn : Turn) :
    (core.apply turn).users =
      match turn with
      | .storeKey user encryptionKey | .halfKey user encryptionKey
      | .renewKey user encryptionKey | .rekey user encryptionKey =>
        core.users.modify user fun row => { row with encryptionKey := some encryptionKey }
      | .profile user name avatar => core.users.modify user fun row => { row with name, avatar }
      | .role user role => core.users.modify user fun row => { row with role }
      | .removeUsers ids => ids.foldl removeRow core.users
      | .addUser row => core.users.insert row.id row
      | _ => core.users := by
  have placed : ∀ user target, (core.place user target).users = core.users := by
    intro user target
    obtain ⟨rooms, table, notices, same⟩ := core.place_frame user target
    rw [same]
    cases target <;> rfl
  cases turn with
  | enter user room => exact placed user (some room)
  | leave user => exact placed user none
  | expel user =>
    unfold Core.apply
    dsimp only
    split <;> rfl
  | remember user target => cases target <;> rfl
  | renewKey user encryptionKey =>
    obtain ⟨notices, same⟩ := core.apply_renewKey user encryptionKey
    rw [same]
    rfl
  | rekey user encryptionKey =>
    obtain ⟨notices, same⟩ := core.apply_rekey user encryptionKey
    rw [same]
    rfl
  | media user media =>
    obtain ⟨table, notices, same⟩ := core.apply_media user media
    rw [same]
  | role user role =>
    obtain ⟨lastJoined, same⟩ := core.apply_role user role
    rw [same]
  | _ => rfl

theorem lookup_removeRow (users : Map UserId UserRow) (id user : UserId) :
    (removeRow users id).lookup user =
      if user = id then none
      else (users.lookup user).map fun row =>
        if row.invitedBy = some id then { row with invitedBy := none } else row := by
  unfold removeRow
  rw [Map.lookup_erase_ite, Map.lookup_mapValues]

theorem Keyed.foldl_removeRow {users : Map UserId UserRow}
    (keyed : ∀ id row, users.lookup id = some row → row.id = id) (ids : List UserId) :
    ∀ id row, (ids.foldl removeRow users).lookup id = some row → row.id = id := by
  induction ids generalizing users with
  | nil => exact keyed
  | cons removed rest inductionHypothesis =>
    refine inductionHypothesis fun id row found => ?_
    rw [lookup_removeRow] at found
    split at found
    · cases found
    · obtain ⟨before, there, rfl⟩ := Option.map_eq_some_iff.mp found
      split <;> exact keyed id before there

theorem Keyed.apply (keyed : core.Keyed) (turn : Turn) : (core.apply turn).Keyed := by
  have modified : ∀ (user : UserId) (update : UserRow → UserRow),
      (∀ row, (update row).id = row.id) → ∀ id row,
      (core.users.modify user update).lookup id = some row → row.id = id := by
    intro user update named id row found
    rw [Map.lookup_modify] at found
    split at found
    · obtain ⟨before, there, rfl⟩ := Option.map_eq_some_iff.mp found
      exact (named before).trans (keyed id before there)
    · exact keyed id row found
  unfold Keyed
  rw [users_apply]
  cases turn with
  | storeKey user encryptionKey => exact modified user _ fun _ => rfl
  | halfKey user encryptionKey => exact modified user _ fun _ => rfl
  | renewKey user encryptionKey => exact modified user _ fun _ => rfl
  | rekey user encryptionKey => exact modified user _ fun _ => rfl
  | profile user name avatar => exact modified user _ fun _ => rfl
  | role user role => exact modified user _ fun _ => rfl
  | removeUsers ids => exact Keyed.foldl_removeRow keyed ids
  | addUser new =>
    intro id row found
    dsimp only at found
    rw [Map.lookup_insert_ite] at found
    split at found
    · rename_i same
      cases found
      exact same.symm
    · exact keyed id row found
  | _ => exact keyed

/-- Every session is a stored user's. -/
def Enrolled (core : Core) : Prop := ∀ user, user ∈ core.seats → user ∈ core.users

/-- Whoever has a session after a turn had one before or has just signed in. -/
theorem Shift.mem_seats (shift : core.Shift next) {user : UserId} (member : user ∈ next.seats) :
    user ∈ core.seats ∨ user ∈ core.users := by
  have modified : ∀ mover update, next.seats = core.seats.modify mover update →
      user ∈ core.seats := by
    intro mover update seats
    rw [seats, ← Finmap.mem_keys, Map.keys_modify, Finmap.mem_keys] at member
    exact member
  cases shift with
  | touch mover update touches seats members conn deals => exact .inl (modified mover update seats)
  | allot seats members conn deals => exact .inl (seats ▸ member)
  | move mover target tracks sits space given seats members conn deals =>
    exact .inl (modified mover _ seats)
  | arrive row stored absent seats members conn deals =>
    rw [seats, Finmap.mem_insert] at member
    refine member.symm.imp_right fun same => ?_
    rw [same]
    exact Finmap.mem_of_lookup_eq_some stored
  | depart leaver outside seats members conn deals =>
    rw [seats, Finmap.mem_erase] at member
    exact .inl member.2
  | restart seats members deals =>
    rw [seats] at member
    exact absurd member Finmap.notMem_empty

theorem mem_users_apply {turn : Turn} (sound : turn.sound) {user : UserId}
    (member : user ∈ core.users) : user ∈ (core.apply turn).users := by
  have modified : ∀ (other : UserId) (update : UserRow → UserRow),
      user ∈ core.users.modify other update := by
    intro other update
    rw [← Finmap.mem_keys, Map.keys_modify, Finmap.mem_keys]
    exact member
  rw [users_apply]
  cases turn with
  | storeKey other encryptionKey => exact modified other _
  | halfKey other encryptionKey => exact modified other _
  | renewKey other encryptionKey => exact modified other _
  | rekey other encryptionKey => exact modified other _
  | profile other name avatar => exact modified other _
  | role other role => exact modified other _
  | removeUsers ids => exact sound.elim
  | addUser row => exact (Finmap.mem_insert).mpr (.inr member)
  | _ => exact member

theorem Enrolled.shift (enrolled : core.Enrolled) (shift : core.Shift next)
    (kept : ∀ user, user ∈ core.users → user ∈ next.users) : next.Enrolled := fun user member =>
  kept user ((shift.mem_seats member).elim (enrolled user) id)

theorem mem_foldl_removeRow (users : Map UserId UserRow) {ids : List UserId} {user : UserId}
    (stays : user ∉ ids) : user ∈ ids.foldl removeRow users ↔ user ∈ users := by
  induction ids generalizing users with
  | nil => exact Iff.rfl
  | cons removed rest inductionHypothesis =>
    rw [List.mem_cons, not_or] at stays
    rw [List.foldl_cons, inductionHypothesis _ stays.2, ← Finmap.lookup_isSome,
      ← Finmap.lookup_isSome, lookup_removeRow, if_neg stays.1, Option.isSome_map]

/-- Once the sessions of removed users have ended, every session is a stored user's again. -/
theorem Enrolled.removes (enrolled : core.Enrolled) {ids : List UserId}
    (removes : core.Removes ids next) : next.Enrolled := by
  obtain ⟨leads, gone⟩ := removes
  intro user member
  have users : next.users = ids.foldl removeRow core.users := by
    refine leads.invariant (·.users = ids.foldl removeRow core.users) rfl ?_
    intro between turn same ousts _
    rw [users_apply]
    cases turn with
    | leave _ => exact same
    | expel _ => exact same
    | signOut _ => exact same
    | remember _ _ => exact same
    | _ => exact ousts.elim
  have stays : user ∉ ids := fun removed => gone user removed member
  rw [users, mem_foldl_removeRow _ stays]
  refine enrolled user ?_
  by_contra absent
  exact leads.notMem_seats absent member

/-- Users get ids above every user there is, and a session says of its user what is stored. -/
structure Recorded (core : Core) : Prop where
  numbered : ∀ user, user ∈ core.users → user ≤ core.lastUser
  current : ∀ user seat row, core.seats.lookup user = some seat →
    core.users.lookup user = some row → seat.row.kept = row.kept

theorem lastUser_apply (core : Core) (turn : Turn) :
    (core.apply turn).lastUser =
      match turn with
      | .addUser _ => core.lastUser + 1
      | _ => core.lastUser := by
  have placed : ∀ user target, (core.place user target).lastUser = core.lastUser := by
    intro user target
    obtain ⟨rooms, table, notices, same⟩ := core.place_frame user target
    rw [same]
    cases target <;> rfl
  cases turn with
  | enter user room => exact placed user (some room)
  | leave user => exact placed user none
  | expel user =>
    unfold Core.apply
    dsimp only
    split <;> rfl
  | remember user target => cases target <;> rfl
  | renewKey user encryptionKey =>
    obtain ⟨notices, same⟩ := core.apply_renewKey user encryptionKey
    rw [same]
    rfl
  | rekey user encryptionKey =>
    obtain ⟨notices, same⟩ := core.apply_rekey user encryptionKey
    rw [same]
    rfl
  | media user media =>
    obtain ⟨table, notices, same⟩ := core.apply_media user media
    rw [same]
  | role user role =>
    obtain ⟨lastJoined, same⟩ := core.apply_role user role
    rw [same]
  | _ => rfl

theorem mem_of_mem_foldl_removeRow {users : Map UserId UserRow} {ids : List UserId} {user : UserId}
    (member : user ∈ ids.foldl removeRow users) : user ∈ users := by
  induction ids generalizing users with
  | nil => exact member
  | cons removed rest inductionHypothesis =>
    have still := inductionHypothesis member
    rw [← Finmap.lookup_isSome, lookup_removeRow] at still
    split at still
    · cases still
    · rw [Option.isSome_map, Finmap.lookup_isSome] at still
      exact still

theorem kept_of_foldl_removeRow {users : Map UserId UserRow} {ids : List UserId} {user : UserId}
    {row : UserRow} (found : (ids.foldl removeRow users).lookup user = some row) :
    ∃ before, users.lookup user = some before ∧ before.kept = row.kept := by
  induction ids generalizing users with
  | nil => exact ⟨row, found, rfl⟩
  | cons removed rest inductionHypothesis =>
    obtain ⟨between, there, same⟩ := inductionHypothesis found
    rw [lookup_removeRow] at there
    split at there
    · cases there
    · obtain ⟨before, present, rfl⟩ := Option.map_eq_some_iff.mp there
      refine ⟨before, present, Eq.trans ?_ same⟩
      split <;> rfl

/-- A turn that changes no row, of a seat or stored. -/
theorem Recorded.same (recorded : core.Recorded) (users : next.users = core.users)
    (lastUser : next.lastUser = core.lastUser)
    (rows : ∀ user seat, next.seats.lookup user = some seat →
      ∃ before, core.seats.lookup user = some before ∧ before.row = seat.row) :
    next.Recorded where
  numbered := by
    rw [users, lastUser]
    exact recorded.numbered
  current user seat row found stored := by
    obtain ⟨before, there, same⟩ := rows user seat found
    rw [users] at stored
    exact same ▸ recorded.current user before row there stored

/-- A turn that changes at most one seat, and not its row. -/
theorem Recorded.modify (recorded : core.Recorded) {user : UserId} {update : Seat → Seat}
    (users : next.users = core.users) (lastUser : next.lastUser = core.lastUser)
    (seats : next.seats = core.seats.modify user update)
    (row : ∀ seat, (update seat).row = seat.row) : next.Recorded := by
  refine recorded.same users lastUser fun other seat found => ?_
  rw [seats, Map.lookup_modify] at found
  split at found
  · obtain ⟨before, there, rfl⟩ := Option.map_eq_some_iff.mp found
    exact ⟨before, there, (row before).symm⟩
  · exact ⟨seat, found, rfl⟩

/-- A turn that changes one user's row, in their seat and stored alike. -/
theorem Recorded.both (recorded : core.Recorded) {user : UserId} {update : UserRow → UserRow}
    (users : next.users = core.users.modify user update)
    (lastUser : next.lastUser = core.lastUser)
    (seats : next.seats = core.seats.modify user fun seat => { seat with row := update seat.row })
    (alike : ∀ first second : UserRow, first.kept = second.kept →
      (update first).kept = (update second).kept) : next.Recorded where
  numbered other member := by
    rw [users, ← Finmap.mem_keys, Map.keys_modify, Finmap.mem_keys] at member
    exact lastUser ▸ recorded.numbered other member
  current other seat row found stored := by
    rw [seats, Map.lookup_modify] at found
    rw [users, Map.lookup_modify] at stored
    split at found
    · rename_i same
      rw [if_pos same] at stored
      obtain ⟨before, there, rfl⟩ := Option.map_eq_some_iff.mp found
      obtain ⟨old, was, rfl⟩ := Option.map_eq_some_iff.mp stored
      exact alike _ _ (recorded.current other before old there was)
    · rename_i different
      rw [if_neg different] at stored
      exact recorded.current other seat row found stored

theorem kept_withKey (encryptionKey : SignedEncryptionKey) (first second : UserRow)
    (same : first.kept = second.kept) :
    ({ first with encryptionKey := some encryptionKey } : UserRow).kept =
      ({ second with encryptionKey := some encryptionKey } : UserRow).kept :=
  congrArg (fun row : UserRow => { row with encryptionKey := some encryptionKey }) same

theorem Recorded.apply (recorded : core.Recorded) {turn : Turn}
    (enrolled : ∀ row, turn = .addUser row → core.Enrolled) (allowed : core.Allows turn) :
    (core.apply turn).Recorded := by
  have users := core.users_apply turn
  have lastUser := core.lastUser_apply turn
  cases turn with
  | enter user room =>
    exact recorded.modify users lastUser (core.seats_place user (some room)) fun _ => rfl
  | leave user => exact recorded.modify users lastUser (core.seats_place user none) fun _ => rfl
  | expel user =>
    obtain ⟨room, inside⟩ := allowed
    rw [apply_expel core inside] at users lastUser ⊢
    exact recorded.modify users lastUser rfl fun _ => rfl
  | remember user target =>
    cases target <;> exact recorded.same rfl rfl fun _ seat found => ⟨seat, found, rfl⟩
  | signIn row =>
    refine ⟨recorded.numbered, fun user seat stored found there => ?_⟩
    have found : (core.seats.insert row.id _).lookup user = some seat := found
    rw [Map.lookup_insert_ite] at found
    split at found
    · rename_i same
      cases found
      have present : core.users.lookup user = some stored := there
      rw [same, allowed.1] at present
      cases present
      rfl
    · exact recorded.current user seat stored found there
  | signOut user =>
    refine recorded.same rfl rfl fun other seat found => ?_
    have found : (core.seats.erase user).lookup other = some seat := found
    rw [Map.lookup_erase_ite] at found
    split at found
    · cases found
    · exact ⟨seat, found, rfl⟩
  | storeKey user encryptionKey =>
    exact recorded.both users lastUser rfl (kept_withKey encryptionKey)
  | halfKey user encryptionKey =>
    exact recorded.both users lastUser rfl (kept_withKey encryptionKey)
  | renewKey user encryptionKey =>
    obtain ⟨notices, same⟩ := core.apply_renewKey user encryptionKey
    rw [same] at users lastUser ⊢
    exact recorded.both users lastUser rfl (kept_withKey encryptionKey)
  | rekey user encryptionKey =>
    obtain ⟨notices, same⟩ := core.apply_rekey user encryptionKey
    rw [same] at users lastUser ⊢
    exact recorded.both users lastUser rfl (kept_withKey encryptionKey)
  | media user media =>
    obtain ⟨table, notices, same⟩ := core.apply_media user media
    rw [same]
    exact recorded.modify rfl rfl rfl fun _ => rfl
  | watch user ids => exact recorded.modify rfl rfl rfl fun _ => rfl
  | profile user name avatar =>
    exact recorded.both users lastUser rfl fun first second same =>
      congrArg (fun row : UserRow => { row with name, avatar }) same
  | role user role =>
    obtain ⟨lastJoined, same⟩ := core.apply_role user role
    rw [same] at users lastUser ⊢
    exact recorded.both users lastUser rfl fun first second same =>
      congrArg (fun row : UserRow => { row with role }) same
  | removeUsers ids =>
    constructor
    · intro user member
      rw [users] at member
      exact recorded.numbered user (mem_of_mem_foldl_removeRow member)
    · intro user seat row found stored
      rw [users] at stored
      obtain ⟨before, there, same⟩ := kept_of_foldl_removeRow stored
      exact (recorded.current user seat before found there).trans same
  | addUser new =>
    have fresh : new.id = core.lastUser + 1 := allowed
    constructor
    · intro user member
      rw [users] at member
      rw [lastUser]
      rcases Finmap.mem_insert.mp member with rfl | old
      · exact fresh.le
      · exact (recorded.numbered user old).trans (Nat.le_succ _)
    · intro user seat row found stored
      rw [users] at stored
      dsimp only at stored
      rw [Map.lookup_insert_ite] at stored
      split at stored
      · rename_i same
        -- Nobody sits under an id that is only given out now.
        have there := enrolled new rfl user (Finmap.mem_of_lookup_eq_some found)
        have known := recorded.numbered user there
        rw [same, fresh] at known
        exact absurd known (Nat.not_succ_le_self _)
      · exact recorded.current user seat row found stored
  | restart =>
    refine ⟨recorded.numbered, fun user seat row found _ => ?_⟩
    have found : (∅ : Map UserId Seat).lookup user = some seat := found
    cases found
  | _ => exact recorded.same rfl rfl fun _ seat found => ⟨seat, found, rfl⟩

/-! ### Media ids -/

def tracksOf (core : Core) (user : UserId) : Option Tracks :=
  (core.seats.lookup user).bind (·.tracks)

/-- A user's session has a track of this id. -/
def Holds (core : Core) (user : UserId) (id : MediaId) : Prop :=
  ∃ tracks, core.tracksOf user = some tracks ∧ id ∈ trackIds tracks

theorem mem_trackIds_tracksAt {first id : MediaId} :
    id ∈ trackIds (tracksAt first) ↔ id = first ∨ id = first + 1 ∨ id = first + 2 := by
  simp [trackIds, tracksAt]

theorem nodup_trackIds_tracksAt (first : MediaId) : (trackIds (tracksAt first)).Nodup := by
  simp [trackIds, tracksAt]

/-- A turn leaves a user's tracks, takes them away, or gives one user fresh ones. -/
theorem Shift.dealt (shift : core.Shift next) :
    ∃ holder tracks, core.Deals next tracks ∧ ∀ user,
      next.tracksOf user = core.tracksOf user ∨ next.tracksOf user = none ∨
        user = holder ∧ next.tracksOf user = tracks := by
  have untouched : next.seats = core.seats → ∀ user, next.tracksOf user = core.tracksOf user := by
    intro seats user
    rw [tracksOf, seats]
    rfl
  cases shift with
  | touch user update touches seats members conn deals =>
    refine ⟨user, none, deals, fun other => .inl ?_⟩
    rw [tracksOf, seats, Map.lookup_modify]
    split
    · rename_i same
      rw [same, Option.bind_map]
      exact congrArg (fun change => (core.seats.lookup user).bind change) (funext touches.tracks)
    · rfl
  | allot seats members conn deals =>
    exact ⟨0, _, deals, fun other => .inl (untouched seats other)⟩
  | move user target tracks sits space given seats members conn deals =>
    refine ⟨user, tracks, deals, fun other => ?_⟩
    by_cases same : other = user
    · obtain ⟨seat, found, _⟩ := sits
      refine .inr (.inr ⟨same, ?_⟩)
      rw [tracksOf, seats, same, Map.lookup_modify_self, found]
      rfl
    · left
      rw [tracksOf, seats, Map.lookup_modify_of_ne _ _ same]
      rfl
  | arrive row stored absent seats members conn deals =>
    refine ⟨row.id, none, deals, fun other => ?_⟩
    rw [tracksOf, seats, Map.lookup_insert_ite]
    split
    · exact .inr (.inl rfl)
    · exact .inl rfl
  | depart user outside seats members conn deals =>
    refine ⟨user, none, deals, fun other => ?_⟩
    rw [tracksOf, seats, Map.lookup_erase_ite]
    split
    · exact .inr (.inl rfl)
    · exact .inl rfl
  | restart seats members deals =>
    refine ⟨0, none, deals, fun other => .inr (.inl ?_)⟩
    rw [tracksOf, seats]
    rfl

/-- Every media id is given out once, and each is held by one user at most. -/
structure Allotted (core : Core) : Prop where
  below : ∀ id ∈ core.given, id < core.nextMediaId
  once : core.given.Nodup
  made : ∀ user tracks, core.tracksOf user = some tracks → ∃ first, tracks = tracksAt first
  held : ∀ user id, core.Holds user id → id ∈ core.given
  apart : ∀ user other id, core.Holds user id → core.Holds other id → user = other

theorem Allotted.shift (allotted : core.Allotted) (shift : core.Shift next) : next.Allotted := by
  obtain ⟨holder, tracks, deals, dealt⟩ := shift.dealt
  cases tracks with
  | none =>
    have given : next.given = core.given := deals.given.trans (List.append_nil _)
    have kept : ∀ user tracks, next.tracksOf user = some tracks →
        core.tracksOf user = some tracks := by
      intro user tracks has
      obtain same | gone | ⟨_, gone⟩ := dealt user
      · exact same ▸ has
      · exact nomatch gone.symm.trans has
      · exact nomatch gone.symm.trans has
    have holds : ∀ user id, next.Holds user id → core.Holds user id :=
      fun user id ⟨tracks, has, member⟩ => ⟨tracks, kept user tracks has, member⟩
    constructor
    · rw [given, deals.nextId]
      exact allotted.below
    · rw [given]
      exact allotted.once
    · exact fun user tracks has => allotted.made user tracks (kept user tracks has)
    · exact fun user id has => given ▸ allotted.held user id (holds user id has)
    · exact fun user other id has has' =>
        allotted.apart user other id (holds user id has) (holds other id has')
  | some new =>
    obtain rfl := deals.fresh new rfl
    have given : next.given = core.given ++ trackIds (tracksAt core.nextMediaId) := deals.given
    have nextId : next.nextMediaId = core.nextMediaId + 3 := deals.nextId
    have fresh : ∀ id ∈ trackIds (tracksAt core.nextMediaId), core.nextMediaId ≤ id ∧
        id < core.nextMediaId + 3 := by
      intro id member
      rw [mem_trackIds_tracksAt] at member
      unfold MediaId at *
      omega
    have kept : ∀ user tracks, next.tracksOf user = some tracks →
        core.tracksOf user = some tracks ∨
          user = holder ∧ tracks = tracksAt core.nextMediaId := by
      intro user tracks has
      obtain same | gone | ⟨name, same⟩ := dealt user
      · exact .inl (same ▸ has)
      · exact nomatch gone.symm.trans has
      · exact .inr ⟨name, Option.some.inj (has.symm.trans same)⟩
    have holds : ∀ user id, next.Holds user id →
        core.Holds user id ∨ user = holder ∧ id ∈ trackIds (tracksAt core.nextMediaId) := by
      rintro user id ⟨tracks, has, member⟩
      obtain same | ⟨name, rfl⟩ := kept user tracks has
      · exact .inl ⟨tracks, same, member⟩
      · exact .inr ⟨name, member⟩
    have notBoth : ∀ id, id ∈ core.given → id ∉ trackIds (tracksAt core.nextMediaId) :=
      fun id old new => absurd (allotted.below id old) (Nat.not_lt.mpr (fresh id new).1)
    constructor
    · intro id member
      rw [given, List.mem_append] at member
      rw [nextId]
      obtain old | new := member
      · exact (allotted.below id old).trans_le (Nat.le_add_right _ _)
      · exact (fresh id new).2
    · rw [given, List.nodup_append']
      exact ⟨allotted.once, nodup_trackIds_tracksAt _, fun id => notBoth id⟩
    · intro user tracks has
      obtain same | ⟨_, rfl⟩ := kept user tracks has
      · exact allotted.made user tracks same
      · exact ⟨_, rfl⟩
    · intro user id has
      rw [given, List.mem_append]
      exact (holds user id has).imp (allotted.held user id) And.right
    · intro user other id has has'
      obtain old | ⟨name, new⟩ := holds user id has
      · obtain old' | ⟨_, new'⟩ := holds other id has'
        · exact allotted.apart user other id old old'
        · exact absurd new' (notBoth id (allotted.held user id old))
      · obtain old' | ⟨name', _⟩ := holds other id has'
        · exact absurd new (notBoth id (allotted.held other id old'))
        · exact name.trans name'.symm

/-- Media ids are only ever added to those given out, and whoever comes to hold one holds a
new one. -/
structure Renews (core next : Core) : Prop where
  given : core.given <+: next.given
  fresh : ∀ user id, next.Holds user id → core.Holds user id ∨ id ∉ core.given

theorem Renews.refl (core : Core) : core.Renews core :=
  ⟨List.prefix_refl _, fun _ _ has => .inl has⟩

theorem Renews.trans {last : Core} (first : core.Renews next) (second : next.Renews last) :
    core.Renews last where
  given := first.given.trans second.given
  fresh user id has := by
    obtain still | new := second.fresh user id has
    · exact first.fresh user id still
    · exact .inr fun old => new (first.given.subset old)

theorem Shift.renews (shift : core.Shift next) (allotted : core.Allotted) : core.Renews next := by
  obtain ⟨holder, tracks, deals, dealt⟩ := shift.dealt
  constructor
  · rw [deals.given]
    exact List.prefix_append _ _
  · rintro user id ⟨tracks, has, member⟩
    obtain same | gone | ⟨_, same⟩ := dealt user
    · exact .inl ⟨tracks, same ▸ has, member⟩
    · exact nomatch gone.symm.trans has
    · right
      intro old
      obtain rfl := deals.fresh tracks (same.symm.trans has)
      rw [mem_trackIds_tracksAt] at member
      have below := allotted.below id old
      unfold MediaId at *
      omega

end Core

end Throcc
