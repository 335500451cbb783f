/-
This file computes the core of a hub after each thing the hub does: what it
sends, apart from room states, leaves the core alone, and every change of its
sessions, rooms and database is the core's own change of that name.

It also says when two hubs differ in nothing a refused request may not change.
-/

import Throcc.Core

namespace Throcc

namespace Hub

variable (hub : Hub)

@[simp] theorem core_toSeating : hub.core.toSeating = hub.seating := rfl

theorem core_seats : hub.core.seats = hub.seats := rfl

theorem core_rooms : hub.core.rooms = hub.rooms := rfl

theorem seats_lookup (user : UserId) :
    hub.seats.lookup user = (hub.sessions.lookup user).map (·.toSeat) := by
  unfold seats seating
  rw [Map.lookup_mapValues]

/-! ### Sending -/

/-- An event that is no room state leaves the core as it is. -/
theorem core_send (connections : List ConnId) {event : Event}
    (quiet : ∀ conn, (Effect.sent conn event).notice = none) :
    (hub.send connections event).core = hub.core := by
  have nothing : (connections.map fun conn => Effect.sent conn event).filterMap Effect.notice = [] := by
    rw [List.filterMap_eq_nil_iff]
    intro effect member
    obtain ⟨conn, _, rfl⟩ := List.mem_map.mp member
    exact quiet conn
  unfold send core
  rw [List.filterMap_append, nothing, List.append_nil]
  rfl

theorem core_emitTo (user : UserId) {event : Event}
    (quiet : ∀ conn, (Effect.sent conn event).notice = none) :
    (hub.emitTo user event).core = hub.core := core_send hub _ quiet

theorem core_emitAll {event : Event} (quiet : ∀ conn, (Effect.sent conn event).notice = none) :
    (hub.emitAll event).core = hub.core := core_send hub _ quiet

theorem core_emitUserListChange {event : Event}
    (quiet : ∀ conn, (Effect.sent conn event).notice = none) :
    (hub.emitUserListChange event).core = hub.core := core_send hub _ quiet

@[simp] theorem core_announcePresence (user : UserId) :
    (hub.announcePresence user).core = hub.core := by
  unfold announcePresence
  split
  · exact core_emitAll hub fun _ => rfl
  · rfl

@[simp] theorem core_announceMove (user : UserId) : (hub.announceMove user).core = hub.core := by
  unfold announceMove
  split
  · exact core_emitAll hub fun _ => rfl
  · exact core_emitAll hub fun _ => rfl

@[simp] theorem core_broadcastPeers (room : RoomId) (except : Option UserId) :
    (hub.broadcastPeers room except).core = hub.core.broadcast room except := by
  unfold broadcastPeers
  split
  · rename_i missing
    have nobody : hub.core.membersExcept room except = [] := by
      unfold Seating.membersExcept
      rw [core_rooms, missing]
    unfold Core.broadcast
    rw [nobody, List.map_nil, List.append_nil]
  · rename_i entry found
    have state : hub.core.stateOf room = .listed room entry.epoch (hub.seating.peers room) := by
      unfold Core.stateOf
      rw [core_rooms, found]
      rfl
    have told : ∀ connections : List ConnId,
        (connections.map fun conn =>
          Effect.sent conn (.peersChanged room entry.epoch (hub.seating.peers room))).filterMap
            Effect.notice = connections.map fun _ => hub.core.stateOf room := by
      intro connections
      rw [state, List.filterMap_map]
      exact congrFun List.filterMap_eq_map' connections
    unfold emitRoom send Core.broadcast
    rw [← told]
    unfold core
    rw [List.filterMap_append]
    rfl

/-! ### Publishing routes -/

/-- Counting an audience's `seq` changes nothing of a session's seat. -/
@[simp] theorem seats_audiencesIn (room : RoomId) (user : UserId) :
    (hub.audiencesIn room user).2.seats = hub.seats := by
  unfold seats seating audiencesIn
  exact Map.mapValues_modify_of_same hub.sessions (·.toSeat) user fun _ => rfl

@[simp] theorem core_audiencesIn (room : RoomId) (user : UserId) :
    (hub.audiencesIn room user).2.core = hub.core := by
  have same := seats_audiencesIn hub room user
  unfold core seating
  exact congrArg (fun seats => Core.mk ⟨hub.rooms, seats⟩ _ _ _ _ _ _ _ _ _ _) same

@[simp] theorem core_tellAudiences (room : RoomId) (member : UserId) :
    (tellAudiences room hub member).core = hub.core := by
  unfold tellAudiences
  split
  · rfl
  · exact (core_send _ _ fun _ => rfl).trans (core_audiencesIn hub room member)

theorem core_foldl_tellAudiences (room : RoomId) (members : List UserId) :
    (members.foldl (tellAudiences room) hub).core = hub.core := by
  induction members generalizing hub with
  | nil => rfl
  | cons member rest inductionHypothesis =>
    exact (inductionHypothesis _).trans (core_tellAudiences hub room member)

@[simp] theorem core_rebuildRoutes : hub.rebuildRoutes.core = hub.core.rebuild := by
  have told : ∀ (changed : List (RoomId × List Audience)) (start : Hub),
      (changed.foldl
        (fun hub entry =>
          ((hub.rooms.lookup entry.1).map fun entry => ascending entry.members).getD []
            |>.foldl (tellAudiences entry.1) hub)
        start).core = start.core := by
    intro changed
    induction changed with
    | nil => intro start; rfl
    | cons entry rest inductionHypothesis =>
      intro start
      exact (inductionHypothesis _).trans (core_foldl_tellAudiences start _ _)
  exact told _ _

@[simp] theorem core_placement (user : UserId) : (hub.placement user).2.core = hub.core := by
  unfold placement
  split
  · rfl
  · split
    · rfl
    · rename_i room _
      exact core_audiencesIn hub room user

theorem notice_placement (user : UserId) :
    (hub.placement user).1.room.map
        (fun room => Notice.listed room (hub.placement user).1.epoch (hub.placement user).1.peers) =
      (hub.core.roomOf user).map hub.core.stateOf := by
  unfold placement Core.roomOf
  rw [core_seats, seats_lookup]
  split
  · rename_i missing
    rw [missing]
    rfl
  · rename_i session found
    rw [found]
    show _ = Option.map hub.core.stateOf session.room
    split
    · rename_i outside
      rw [outside]
      rfl
    · rename_i room inside
      rw [inside]
      rfl

theorem room_placement (user : UserId) : (hub.placement user).1.room = hub.core.roomOf user := by
  unfold placement Core.roomOf
  rw [core_seats, seats_lookup]
  split
  · rename_i missing
    rw [missing]
    rfl
  · rename_i session found
    rw [found]
    show _ = session.room
    split
    · rename_i outside
      rw [outside]
      rfl
    · rename_i room inside
      rw [inside]

/-! ### Moving -/

theorem seats_modifySession (user : UserId) {update : Session → Session} {update' : Seat → Seat}
    (agree : ∀ session, (update session).toSeat = update' session.toSeat) :
    (hub.modifySession user update).seats = hub.seats.modify user update' :=
  Map.mapValues_modify hub.sessions (·.toSeat) user agree

theorem core_modifySession (user : UserId) {update : Session → Session} (update' : Seat → Seat)
    (agree : ∀ session, (update session).toSeat = update' session.toSeat) :
    (hub.modifySession user update).core = hub.core.withSeat user update' := by
  have same := seats_modifySession hub user agree
  exact congrArg (fun seats => Core.mk ⟨hub.rooms, seats⟩ _ _ _ _ _ _ _ _ _ _) same

@[simp] theorem core_removeMember (room : RoomId) (user : UserId) :
    (hub.removeMember room user).core = hub.core.removeMember room user := rfl

@[simp] theorem core_insertMember (room : RoomId) (user : UserId) :
    (hub.insertMember room user).core = hub.core.insertMember room user := rfl

@[simp] theorem core_setMembership (user : UserId) (room : Option RoomId) (tracks : Option Tracks) :
    (hub.setMembership user room tracks).core =
      hub.core.withSeat user fun seat => seat.placed room tracks := by
  unfold setMembership
  split
  · rename_i missing
    have none : hub.seats.lookup user = .none := by rw [seats_lookup, missing, Option.map_none]
    have same : hub.seats.modify user (fun seat => seat.placed room tracks) = hub.seats := by
      unfold Map.modify
      rw [none]
    exact (congrArg (fun seats => Core.mk ⟨hub.rooms, seats⟩ _ _ _ _ _ _ _ _ _ _) same).symm
  · rename_i session found
    have there : hub.seats.lookup user = some session.toSeat := by
      rw [seats_lookup, found, Option.map_some]
    have same : Map.mapValues (fun _ session => session.toSeat)
        (hub.sessions.insert user { session with toSeat := session.toSeat.placed room tracks }) =
          hub.seats.modify user fun seat => seat.placed room tracks := by
      unfold Map.modify
      rw [there, Map.mapValues_insert]
      rfl
    exact congrArg (fun seats => Core.mk ⟨hub.rooms, seats⟩ _ _ _ _ _ _ _ _ _ _) same

/-- A loop over a room there may be, computed in the core. -/
theorem core_foldl_toList {step : Hub → RoomId → Hub} (step' : Core → RoomId → Core)
    (agree : ∀ hub room, (step hub room).core = step' hub.core room) (room : Option RoomId) :
    (room.toList.foldl step hub).core = room.toList.foldl step' hub.core := by
  cases room with
  | none => rfl
  | some room => exact agree hub room

@[simp] theorem core_moved (user : UserId) (current target : Option RoomId)
    (tracks : Option Tracks) :
    (hub.moved user current target tracks).core = hub.core.moved user current target tracks := by
  unfold moved Core.moved
  dsimp only
  rw [core_rebuildRoutes, core_announceMove,
    core_foldl_toList _ (fun core room => core.broadcast room (some user))
      fun hub room => core_broadcastPeers hub room (some user),
    core_foldl_toList _ (fun core room => core.broadcast room none)
      fun hub room => core_broadcastPeers hub room none,
    core_setMembership,
    core_foldl_toList _ (fun core room => core.insertMember room user)
      fun hub room => core_insertMember hub room user,
    core_foldl_toList _ (fun core room => core.removeMember room user)
      fun hub room => core_removeMember hub room user]

@[simp] theorem core_expel (user : UserId) (room : RoomId) :
    (hub.expel user room).core = hub.core.expel user room := by
  unfold expel Core.expel
  rw [core_rebuildRoutes, core_emitAll _ fun _ => rfl, core_broadcastPeers, core_setMembership,
    core_removeMember]

theorem seats_endSession (user : UserId) : (hub.endSession user).seats = hub.seats.erase user :=
  Map.mapValues_erase hub.sessions (·.toSeat) user

theorem core_endSession (user : UserId) :
    (hub.endSession user).core = hub.core.apply (.signOut user) := by
  have same := seats_endSession hub user
  exact congrArg (fun seats => Core.mk ⟨hub.rooms, seats⟩ _ _ _ _ _ _ _ _ _ _) same

theorem core_openSession (row : UserRow) :
    (hub.openSession row).core = hub.core.apply (.signIn row) := by
  have same : (hub.openSession row).seats =
      hub.seats.insert row.id { connId := hub.nextConn + 1, row } :=
    Map.mapValues_insert hub.sessions (·.toSeat) row.id _
  exact congrArg (fun seats => Core.mk ⟨hub.rooms, seats⟩ _ _ _ _ _ _ _ _ _ _) same

@[simp] theorem core_remember (user : UserId) (target : Option RoomId) :
    (hub.remember user target).core = hub.core.remember user target := by
  unfold remember Core.remember
  split <;> rfl

theorem core_log (effects : List Effect) :
    ({ hub with log := hub.log ++ effects } : Hub).core =
      { hub.core with notices := hub.core.notices ++ effects.filterMap Effect.notice } := by
  unfold core
  rw [List.filterMap_append]
  rfl

@[simp] theorem core_handOver_lobby (user : UserId) :
    (hub.handOver user lobby).core = hub.core := by
  refine (core_log hub _).trans ?_
  have nothing : ((hub.seats.lookup user).toList.map fun seat =>
      Effect.placed seat.connId lobby).filterMap Effect.notice = [] := by
    rw [List.filterMap_map]
    exact List.filterMap_eq_nil_iff.mpr fun _ _ => rfl
  rw [nothing, List.append_nil]

/-- A placement handed over as it was made shows its room's state. -/
theorem core_handOver_placement (user : UserId) :
    ((hub.placement user).2.handOver user (hub.placement user).1).core = hub.core.hand user := by
  refine (core_log _ _).trans ?_
  rw [core_placement, ← core_seats, core_placement, List.filterMap_map]
  unfold Core.hand
  refine congrArg (fun notices => { hub.core with notices := hub.core.notices ++ notices }) ?_
  cases found : hub.core.seats.lookup user with
  | none =>
    rw [Core.roomOf, found]
    rfl
  | some seat =>
    have state := notice_placement hub user
    have one : ∀ notice : Seat → Option Notice, [seat].filterMap notice = (notice seat).toList := by
      intro notice
      cases made : notice seat <;> simp [made]
    refine (one _).trans ?_
    show (Option.map _ _).toList = _
    rw [state]
    cases hub.core.roomOf user <;> rfl

/-! ### Writing the database -/

theorem setEpochs_eq (epochs : List (RoomId × Epoch)) (db : Database) :
    Database.setEpochs epochs db =
      { db with
        rooms :=
          epochs.foldl
            (fun stored next => stored.modify next.1 fun row => { row with epoch := next.2 })
            db.rooms } := by
  unfold Database.setEpochs
  induction epochs generalizing db with
  | nil => rfl
  | cons next rest inductionHypothesis =>
    rw [List.foldl_cons, inductionHypothesis]
    rfl

theorem core_storeEpochs (rooms : List RoomId) :
    (storeEpochs (hub.core.nextEpochs rooms)
      { hub with db := Database.setEpochs (hub.core.nextEpochs rooms) hub.db }).core =
        hub.core.raise rooms := by
  unfold storeEpochs Core.raise core
  dsimp only
  rw [List.filterMap_append, setEpochs_eq]
  rfl

theorem core_removeUsers (ids : List UserId) :
    ({ hub with db := Database.removeUsers ids hub.db } : Hub).core =
      hub.core.apply (.removeUsers ids) := by
  unfold Database.removeUsers
  show _ = { hub.core with users := ids.foldl Core.removeRow hub.core.users }
  induction ids generalizing hub with
  | nil => rfl
  | cons id rest inductionHypothesis =>
    exact inductionHypothesis { hub with db := hub.db.removeOne id }

@[simp] theorem core_lastJoinedLocked (target : UserId) :
    hub.core.lastJoinedLocked target = hub.lastJoinedLocked target := rfl

theorem core_roleChanged (target : UserId) (role : Role) :
    (hub.roleChanged target role).core = hub.core.takeRole target role := by
  have seat : (hub.modifySession target fun session =>
      { session with row := { session.row with role } }).core =
        hub.core.withSeat target fun seat => { seat with row := { seat.row with role } } :=
    core_modifySession hub target _ fun _ => rfl
  unfold roleChanged Core.takeRole
  dsimp only
  rw [← seat]
  generalize hub.modifySession target _ = hub
  have forgotten : ∀ forgets : Prop, [Decidable forgets] →
      (if forgets then hub.remember target none else hub).core =
        if forgets then hub.core.remember target none else hub.core := by
    intro forgets _
    split
    · exact core_remember hub target none
    · rfl
  have announced : ∀ hub : Hub,
      ((hub.announcePresence target).emitUserListChange (.roleChanged target role)).core =
        hub.core := fun hub =>
    (core_emitUserListChange _ fun _ => rfl).trans (core_announcePresence hub target)
  split
  · rw [announced, forgotten]
    rfl
  · rw [core_emitTo _ _ fun _ => rfl, announced, forgotten]
    rfl

/-! ### Starting -/

theorem core_start (clock : Clock) : (hub.start clock).core = hub.core.apply .restart := rfl

end Hub

end Throcc
