/-
This file goes through everything the server does and shows that what it tells
each connection meanwhile brings a client that shows the server's state along.
Most steps change nothing that a client shows. The others are a move, a
departure, a change of what is said of a user and a change of the rooms, and
the server tells everyone of each.
-/

import Throcc.Silence

namespace Throcc

namespace Hub

open Attempt

variable {receivers hidden : Set UserId} {Result : Type} (hub : Hub)

/-! ### Moving -/

/-- What a move or a departure comes to: nothing that is shown, or a change of where `user` is
that everyone is told of right then. -/
def Announces (user : UserId) (before after : Hub) : Prop :=
  Silent ∅ before after ∨
    ∃ moved, Silent {user} before moved ∧ Silent ∅ (moved.announceMove user) after

theorem announces_moved (user : UserId) (current target : Option RoomId)
    (tracks : Option Tracks) : Announces user hub (hub.moved user current target tracks) := by
  unfold moved
  dsimp only
  refine .inr ⟨_, ?_, silent_rebuildRoutes _⟩
  have removed := fun hub : Hub => related_foldl hub (Silent {user})
    (fun hub room => hub.silent_removeMember room user) current.toList
  have inserted := fun hub : Hub => related_foldl hub (Silent {user})
    (fun hub room => hub.silent_insertMember room user) target.toList
  have told := fun hub : Hub => related_foldl hub (Silent {user})
    (fun hub room => hub.silent_broadcastPeers room none) current.toList
  have others := fun hub : Hub => related_foldl hub (Silent {user})
    (fun hub room => hub.silent_broadcastPeers room (some user)) target.toList
  refine trans_of (Silent {user}) ?_ (others _)
  refine trans_of (Silent {user}) ?_ (told _)
  refine trans_of (Silent {user}) ?_ (silent_setMembership _ (Set.mem_singleton user) target tracks)
  exact trans_of (Silent {user}) (removed hub) (inserted _)

variable {hub} in
theorem Announces.within {user : UserId} {start middle after : Hub}
    (announces : Announces user middle after) (before : Silent ∅ start middle)
    {last : Hub} (later : Silent ∅ after last) : Announces user start last := by
  obtain still | ⟨moved, left, told⟩ := announces
  · exact .inl (trans_of (Silent ∅) before (trans_of (Silent ∅) still later))
  · exact .inr ⟨moved, trans_of (Silent {user}) (before.mono (Set.empty_subset _)) left,
      trans_of (Silent ∅) told later⟩

/-- A computation that shows and says nothing, followed by a move. -/
theorem Announces.bind {Found : Type} {user : UserId} {first : HubM Found} {next : Found → HubM Result}
    (silent : first.Follows (Silent ∅)) (announces : ∀ found, (next found).Follows (Announces user)) :
    (first >>= next).Follows (Announces user) := by
  intro hub
  refine (Ends.bind ((silent.ends hub).mono (fun found between before => ?_) ?_)).after
  · refine ((announces found).ends between).mono ?_ ?_ <;>
    exact fun _ after moves => moves.within before (refl_of (Silent ∅) after)
  · exact fun _ _ before => .inl before

/-- A move followed by a computation that shows and says nothing. -/
theorem Announces.followed {Found : Type} {user : UserId} {first : HubM Found}
    {next : Found → HubM Result} (announces : first.Follows (Announces user))
    (silent : ∀ found, (next found).Follows (Silent ∅)) :
    (first >>= next).Follows (Announces user) := by
  intro hub
  refine (Ends.bind ((announces.ends hub).mono (fun found between before => ?_) ?_)).after
  · refine ((silent found).ends between).mono ?_ ?_ <;>
      exact fun _ after later => before.within (refl_of (Silent ∅) hub) later
  · exact fun _ _ before => before

theorem announces_place {user : UserId} {target : Option RoomId} {clock : Clock} :
    (place user target clock).Follows (Announces user) := by
  refine Announces.bind looks_session fun session => ?_
  split
  · exact .take fun hub => .inl (hub.silent_placement user)
  · refine Announces.bind silent_checkTarget fun _ => Announces.bind silent_allocateFor fun tracks =>
      Announces.bind silent_bumpEpochs fun _ => Announces.followed (.change fun hub => ?_) fun _ =>
        .take fun hub => hub.silent_placement user
    exact hub.announces_moved user session.room target tracks

variable {hub} in
theorem Announces.relays {user : UserId} {after : Hub} (announces : Announces user hub after) :
    Relays receivers hub after := by
  obtain silent | ⟨moved, silent, told⟩ := announces
  · exact silent.brings
  · exact (silent.brings.mono (Set.empty_subset _)).trans
      ((moved.brings_announceMove user).trans told.brings)

theorem relays_of_silent {computation : HubM Result} (silent : computation.Follows (Silent ∅)) :
    computation.Follows (Relays receivers) := fun hub => (silent hub).brings

theorem relays_place {user : UserId} {target : Option RoomId} {clock : Clock} :
    (place user target clock).Follows (Relays receivers) := fun hub => (announces_place hub).relays

theorem presenceOf_outside {user : UserId} (outside : hub.core.roomOf user = none) :
    hub.presenceOf user = none := by
  unfold presenceOf
  rw [Core.roomOf, core_seats] at outside
  cases found : hub.seats.lookup user with
  | none => rfl
  | some seat =>
    rw [found, Option.bind_some] at outside
    rw [Option.bind_some, presence, outside, Option.map_none]

theorem presenceOf_setMembership (user : UserId) (tracks : Option Tracks) :
    (hub.setMembership user none tracks).presenceOf user = none := by
  rw [presenceOf_eq]
  unfold setMembership
  split
  · rename_i missing
    rw [missing]
    rfl
  · dsimp only
    rw [Finmap.lookup_insert]
    rfl

theorem relays_expel (user : UserId) (room : RoomId) :
    Relays receivers hub (hub.expel user room) := by
  unfold expel
  dsimp only
  refine Brings.trans ?_ (silent_rebuildRoutes _).brings
  have left : Silent {user} hub ((hub.removeMember room user).setMembership user none none) :=
    trans_of (Silent {user}) (hub.silent_removeMember room user)
      (silent_setMembership _ (Set.mem_singleton user) none none)
  have gone := (hub.removeMember room user).presenceOf_setMembership user none
  generalize (hub.removeMember room user).setMembership user none none = moved at left gone ⊢
  have told : Silent ∅ moved (moved.broadcastPeers room none) :=
    moved.silent_broadcastPeers room none
  refine ((trans_of (Silent {user}) left (told.mono (Set.empty_subset _))).brings.mono
    (Set.empty_subset _)).trans (brings_presenceEnded _ ?_)
  rw [told.presence user (Set.notMem_empty user)]
  exact gone

theorem relays_leaveRoom (user : UserId) (clock : Clock) :
    Relays receivers hub (hub.leaveRoom user clock) := by
  have placed : Relays receivers hub (place user none clock hub).2 := relays_place hub
  unfold leaveRoom
  split
  · exact refl_of (Relays receivers) hub
  · generalize place user none clock hub = outcome at placed
    obtain ⟨failure | result, after⟩ := outcome
    · dsimp only
      split
      · exact placed
      · exact placed.trans (after.relays_expel user _)
    · exact placed

/-- Whoever is in no room isn't shown, so that their session may end without a word. -/
theorem relays_endSession {user : UserId} (outside : hub.core.roomOf user = none) :
    Relays receivers hub (hub.endSession user) := by
  have found : ∀ other, (hub.endSession user).sessions.lookup other =
      if other = user then none else hub.sessions.lookup other :=
    fun other => Map.lookup_erase_ite hub.sessions user other
  have nowhere := hub.presenceOf_outside outside
  have presence : (hub.endSession user).presenceOf = hub.presenceOf := by
    funext other
    rw [presenceOf_eq, found]
    split
    · rename_i mine
      rw [mine, nowhere]
      rfl
    · rw [presenceOf_eq]
  have line : ∀ other, (hub.endSession user).lineOf other =
      if other = user then none else hub.lineOf other := by
    intro other
    rw [lineOf_eq, lineOf_eq, found]
    split <;> rfl
  have stays : ∀ other place, (hub.endSession user).lineOf other = some place →
      hub.lineOf other = some place := by
    intro other place sits
    rw [line] at sits
    split at sits
    · cases sits
    · exact sits
  refine ⟨fun capped => ⟨?_, ?_, capped.fewRooms⟩, fun capped other _ place sits => ?_⟩
  · exact fun other conn account sits => capped.named other conn account (stays other _ sits)
  · refine (Finset.card_le_card fun other member => ?_).trans capped.fewUsers
    rw [Finmap.mem_keys, mem_seats_iff] at member ⊢
    obtain ⟨place, sits⟩ := Option.isSome_iff_exists.mp member
    rw [stays other place sits]
    rfl
  · refine ⟨stays other place sits, [], (List.append_nil _).symm, fun view mirrors => ?_⟩
    refine { mirrors with people := fun other shown => ?_, known := fun other listed => ?_ }
    · rw [presence]
      exact mirrors.people other shown
    · have signedIn := mirrors.known other listed
      have remains : other ≠ user := by
        rintro rfl
        have gone := mirrors.people other (Set.notMem_empty other)
        rw [nowhere] at gone
        exact Finmap.lookup_eq_none.mp gone listed
      rw [mem_seats_iff] at signedIn ⊢
      rw [line, if_neg remains]
      exact signedIn

theorem relays_evict (user : UserId) (reason : String) (clock : Clock) :
    Relays receivers hub (hub.evict user reason clock) := by
  have left := @relays_leaveRoom receivers hub user clock
  have outside := (core_leaveRoom hub user clock).2
  unfold evict
  generalize hub.leaveRoom user clock = after at left outside
  dsimp only
  split
  · exact left
  · refine left.trans ((after.relays_endSession outside).trans (silent_log _ ?_).brings)
    intro effect member _
    rw [List.mem_singleton.mp member]
    rfl

theorem relays_disconnect (user : UserId) (conn : ConnId) (clock : Clock) :
    Relays receivers hub (hub.disconnect user conn clock) := by
  unfold disconnect
  split
  · exact (hub.relays_leaveRoom user clock).trans
      (relays_endSession _ (core_leaveRoom hub user clock).2)
  · exact refl_of (Relays receivers) hub

/-! ### Joining -/

theorem relays_enter {user : UserId} {target : Option RoomId} {clock : Clock} :
    (enter user target clock).Follows (Relays receivers) :=
  (relays_of_silent silent_entersAnotherRoom).bind fun _ =>
    .bind (.onlyIf (relays_of_silent silent_mustTake)) fun _ => relays_place.bind fun placement =>
      .bind (.change fun hub => (hub.silent_handOver user placement).brings) fun _ =>
        .bind (.change fun hub => (hub.silent_remember user target).brings) fun _ => .pure

theorem relays_joinRoom {user : UserId} {room : RoomId} {password : Option String}
    {clock : Clock} : (joinRoom user room password clock).Follows (Relays receivers) := by
  refine (relays_of_silent silent_requireSpace).bind fun _ =>
    (relays_of_silent silent_passwordToEnter).bind fun needed => ?_
  split
  · exact .map relays_enter
  · exact relays_of_silent silent_askPassword

theorem relays_join {user : UserId} {target : Option RoomId} {password : Option String}
    {clock : Clock} : (join user target password clock).Follows (Relays receivers) := by
  refine (relays_of_silent silent_entersAnotherRoom).bind fun _ =>
    .bind (.onlyIf (relays_of_silent silent_mustHold)) fun _ => ?_
  cases target with
  | none => exact .map relays_enter
  | some room => exact relays_joinRoom

theorem relays_finishJoin {user : UserId} {room : RoomId} {hash : String} {matched : Bool}
    {clock : Clock} : (finishJoin user room hash matched clock).Follows (Relays receivers) := by
  have guessed : ∀ guesses : Hub → Guesses, (change fun hub : Hub =>
      { hub with guesses := guesses hub } : HubM Unit).Follows (Relays receivers) :=
    fun guesses => .change fun hub =>
      @Silent.brings receivers ∅ hub { hub with guesses := guesses hub } (.of_same rfl rfl rfl)
  unfold finishJoin
  split
  · exact (guessed _).bind fun _ => (relays_of_silent silent_passwordToEnter).bind fun _ =>
      .bind .require fun _ => relays_enter
  · exact (guessed _).bind fun _ => .fail

/-! ### What is said of a user -/

/-- Everyone is told of a user right after a change of what is said of them. -/
theorem relays_changeSession {user : UserId} {update : Session → Session}
    (kept : ∀ session, (update session).connId = session.connId ∧
      (update session).row.id = session.row.id ∧ (update session).room = session.room)
    {after : Hub} (silent : Silent ∅ (hub.modifySession user update) after) :
    Relays receivers hub (after.announcePresence user) := by
  have changed : Silent {user} hub (hub.modifySession user update) :=
    hub.silent_modifySession (fun session => ⟨(kept session).1, (kept session).2.1⟩)
      (.inl (Set.mem_singleton user))
  refine (trans_of (Silent {user}) changed (silent.mono (Set.empty_subset _))).announcePresence ?_
  intro nowhere
  rw [silent.presence user (Set.notMem_empty user), presenceOf_eq] at nowhere
  rw [presenceOf_eq]
  have found : (hub.modifySession user update).sessions.lookup user =
      (hub.sessions.lookup user).map update := Map.lookup_modify_self hub.sessions user update
  rw [found] at nowhere
  cases there : hub.sessions.lookup user with
  | none => rfl
  | some session =>
    rw [there] at nowhere
    have outside : (update session).room = none := Option.map_eq_none_iff.mp nowhere
    rw [(kept session).2.2] at outside
    exact Option.map_eq_none_iff.mpr outside

theorem relays_setProfile {user : UserId} {name : String} {avatar : Option Hash} {clock : Clock} :
    (setProfile user name avatar clock).Follows (Relays receivers) :=
  .bind .okOr fun _ => (relays_of_silent silent_requirePicture).bind fun _ =>
    looks_session.bind fun _ => .bind .require fun _ =>
      (relays_of_silent silent_call).bind fun _ hub =>
        hub.relays_changeSession (by exact fun _ => ⟨rfl, rfl, rfl⟩) (refl_of (Silent ∅) _)

theorem relays_applyMedia (user : UserId) (room : RoomId) (stored applied : MediaState) :
    Relays receivers hub (hub.applyMedia user room stored applied) := by
  unfold applyMedia
  dsimp only
  let update (session : Session) : Session := { session with media := applied }
  refine @relays_changeSession receivers hub user update (fun _ => ⟨rfl, rfl, rfl⟩) _ ?_
  show Silent ∅ (hub.modifySession user update) (if _ then
    (if _ then (hub.modifySession user update).broadcastPeers room none
      else hub.modifySession user update).rebuildRoutes
    else if _ then (hub.modifySession user update).broadcastPeers room none
      else hub.modifySession user update)
  generalize hub.modifySession user update = changed
  have told : Silent ∅ changed
      (if applied.share ≠ stored.share then changed.broadcastPeers room none else changed) := by
    split
    · exact changed.silent_broadcastPeers room none
    · exact refl_of (Silent ∅) changed
  split
  · exact trans_of (Silent ∅) told (silent_rebuildRoutes _)
  · exact told

theorem relays_setMedia {user : UserId} {media : MediaState} {clock : Clock} :
    (setMedia user media clock).Follows (Relays receivers) := by
  refine .bind (looks_session.bind fun _ => .okOr) fun room => looks_session.bind fun session =>
    .bind .current fun _ => .bind (.take fun hub => ?_) fun limited => ?_
  · unfold limitShare
    split
    · exact @Silent.brings receivers ∅ hub (hub.takeFrom .shareChanges user 1 clock.now).2
        (.of_same rfl rfl rfl)
    · exact refl_of (Relays receivers) hub
  · exact .bind (.change fun hub => hub.relays_applyMedia user room _ _) fun _ =>
      .bind .require fun _ => .bind .require fun _ => .pure

theorem relays_roleChanged (target : UserId) (role : Role) :
    Relays receivers hub (hub.roleChanged target role) := by
  unfold roleChanged
  dsimp only
  generalize changes : (fun session : Session =>
    { session with row := { session.row with role } }) = update
  have forgot : Silent ∅ (hub.modifySession target update)
      (if ¬ canManageRooms role ∧ (hub.modifySession target update).lastJoinedLocked target then
        (hub.modifySession target update).remember target none
      else hub.modifySession target update) := by
    split
    · exact silent_remember _ target none
    · exact refl_of (Silent ∅) _
  have announced := @relays_changeSession receivers hub target update
    (fun session => by rw [← changes]; exact ⟨rfl, rfl, rfl⟩) _ forgot
  replace announced :=
    announced.trans (@silent_emitUserListChange ∅ _ (.roleChanged target role) rfl).brings
  split
  · exact announced
  · exact announced.trans (silent_emitTo _ target rfl).brings

theorem relays_setRole {user target : UserId} {role : Role} :
    (setRole user target role).Follows (Relays receivers) :=
  looks_role.bind fun _ => .bind .require fun _ =>
    .bind (.bind (relays_of_silent silent_call) fun _ => .okOr) fun _ => .bind .require fun _ =>
      (relays_of_silent silent_call).bind fun _ =>
        .bind (.change fun hub => hub.relays_roleChanged target role) fun _ => .pure

/-! ### Rooms -/

/-- A room that is opened while there is space for it. -/
theorem relays_addRoom (name : String) (passwordHash : Option String)
    (space : hub.rooms.keys.card < maxRooms) :
    (addRoom name passwordHash).Ends (fun _ => Relays receivers hub)
      (fun _ => Relays receivers hub) hub := by
  refine .bind (call_ends (fun works => ?_) fun _ => ?_)
  rotate_left
  · exact @Silent.brings receivers ∅ hub { hub with faults := hub.faults.tail } (.of_same rfl rfl rfl)
  refine .bind (.change (.bind (.change (.pure ?_))))
  generalize (Database.createRoom name passwordHash hub.db).1 = room
  generalize (Database.createRoom name passwordHash hub.db).2 = db
  let called : Hub := { hub with db, faults := hub.faults.tail }
  have silent : Silent ∅ hub called := .of_same rfl rfl rfl
  refine silent.brings.trans ?_
  let said : Room := { id := room, name, locked := passwordHash.isSome }
  have found : ∀ other, (called.openRoom room name passwordHash).shownRoom other =
      if other = room then some said else called.shownRoom other := by
    intro other
    show ((Finmap.insert room _ called.rooms).lookup other).map _ = _
    rw [Map.lookup_insert_ite]
    split
    · rename_i same
      rw [same]
      rfl
    · rfl
  have few : (called.openRoom room name passwordHash).rooms.keys.card ≤ maxRooms := by
    show (Finmap.insert room _ hub.rooms).keys.card ≤ _
    rw [Map.keys_insert]
    exact (Finset.card_insert_le room hub.rooms.keys).trans space
  have elsewhere : ∀ other, other ≠ said.id →
      (called.openRoom room name passwordHash).shownRoom other = called.shownRoom other :=
    fun other different => (found other).trans (if_neg different)
  have made : (called.openRoom room name passwordHash).shownRoom said.id = some said :=
    (found room).trans (if_pos rfl)
  refine .emitAll (fun capped => ⟨capped.named, capped.fewUsers, few⟩) rfl rfl ?_ ?_
  · exact fun view _ mirrors => mirrors.roomCreated rfl elsewhere few made
  · exact fun view _ mirrors => mirrors.roomCreated rfl (fun _ _ => rfl) few made

/-- Whoever may create a room finds space for it. -/
theorem roomToCreate_spaced (user : UserId) (name : String) :
    (roomToCreate user name).Ends (fun _ after => after = hub ∧ hub.rooms.keys.card < maxRooms)
      (fun _ after => after = hub) hub := by
  have idle : Idle ⟨0, 0⟩ hub hub := Idle.refl hub
  refine .bind (idle.role_ends (fun seat _ => ?_) rfl)
  refine .bind (.require (fun _ => ?_) rfl)
  refine .bind (.okOr (fun name _ => .bind (.current (.bind (.require (fun space => ?_) rfl)))) rfl)
  exact .pure ⟨rfl, of_decide_eq_true space⟩

theorem relays_createRoom {user : UserId} {name : String} {password : Option String} :
    (createRoom user name password).Follows (Relays receivers) := by
  intro hub
  have same := refl_of (Relays receivers) hub
  refine Ends.after (.bind ((hub.roomToCreate_spaced user name).mono ?_ fun _ _ still => still ▸ same))
  rintro name _ ⟨rfl, space⟩
  cases password with
  | none => exact .map (relays_addRoom _ name none space)
  | some password => exact .bind (.require (fun _ => .pure same) same)

/-- A change of what is said of a room that everyone is told of. -/
theorem relays_modifyRoom {room : RoomId} {event : Event} {update : RoomEntry → RoomEntry}
    {shown : Room → Room} {view : RoomView → RoomView}
    (said : ∀ entry, Room.mk room (update entry).name (update entry).passwordHash.isSome =
      shown (Room.mk room entry.name entry.passwordHash.isSome))
    (hears : ∀ shows : ClientView,
      shows.serverEvent event = { shows with rooms := updateRoom room view shows.rooms })
    (kept : ∀ listed : RoomView, listed.id = room → (view listed).id = room)
    (agree : ∀ said : Room, said.id = room → view (.of said) = .of (shown said))
    (again : ∀ said : Room, shown (shown said) = shown said) :
    Relays receivers hub ((hub.modifyRoom room update).emitAll event) := by
  have found : ∀ other, (hub.modifyRoom room update).shownRoom other =
      if other = room then (hub.shownRoom other).map shown else hub.shownRoom other := by
    intro other
    show ((hub.rooms.modify room update).lookup other).map _ = _
    rw [Map.lookup_modify]
    split
    · rename_i same
      rw [same, shownRoom, Option.map_map, Option.map_map]
      exact congrArg (Option.map · _) (funext said)
    · rfl
  have changed : (hub.modifyRoom room update).shownRoom room = (hub.shownRoom room).map shown :=
    (found room).trans (if_pos rfl)
  refine .emitAll (fun capped => ⟨capped.named, capped.fewUsers, ?_⟩) rfl rfl
    (fun shows _ mirrors => ?_) fun shows _ mirrors => ?_
  · show (hub.rooms.modify room update).keys.card ≤ _
    rw [Map.keys_modify]
    exact capped.fewRooms
  · rw [hears]
    exact mirrors.roomUpdated rfl (fun other different => (found other).trans (if_neg different))
      changed kept agree
  · rw [hears]
    refine mirrors.roomUpdated rfl (fun _ _ => rfl) ?_ kept agree
    rw [changed, Option.map_map]
    exact congrArg (Option.map · _) (funext fun said => (again said).symm)

theorem relays_renameRoom {user : UserId} {room : RoomId} {name : String} :
    (renameRoom user room name).Follows (Relays receivers) := by
  refine looks_role.bind fun _ => .bind .require fun _ => .bind .okOr fun name =>
    looks_roomEntry.bind fun _ => (relays_of_silent silent_call).bind fun _ hub => ?_
  exact @relays_modifyRoom receivers hub room _ _ (fun said => { said with name })
    (fun listed => { listed with name := roomName room name }) (fun _ => rfl) (fun _ => rfl)
    (fun _ same => same) (by rintro said rfl; rfl) fun _ => rfl

theorem relays_storeRoomPassword {room : RoomId} {hash : Option String} :
    (storeRoomPassword room hash).Follows (Relays receivers) := by
  refine looks_roomEntry.bind fun entry => (relays_of_silent silent_call).bind fun _ hub => ?_
  let forgetful : Hub :=
    { hub with
      lastJoined := hub.lastJoined.retain fun user joined => joined ≠ room ∨ user ∈ entry.members }
  have forgot : Silent ∅ hub forgetful := .of_same rfl rfl rfl
  let update (entry : RoomEntry) : RoomEntry := { entry with passwordHash := hash }
  have locked : hub.lockWith room hash entry.members = forgetful.modifyRoom room update := rfl
  show Relays receivers hub ((hub.lockWith room hash entry.members).emitAll _)
  rw [locked]
  refine forgot.brings.trans ?_
  exact @relays_modifyRoom receivers forgetful room _ update
    (fun said => { said with locked := hash.isSome })
    (fun listed => { listed with locked := hash.isSome }) (fun _ => rfl) (fun _ => rfl)
    (fun _ same => same) (fun _ _ => by simp only [RoomView.of]) fun _ => rfl

theorem relays_setRoomPassword {user : UserId} {room : RoomId} {password : Option String} :
    (setRoomPassword user room password).Follows (Relays receivers) := by
  refine (relays_of_silent silent_mayManageRoom).bind fun _ => ?_
  cases password with
  | none => exact .map relays_storeRoomPassword
  | some password => exact .bind .require fun _ => .pure

theorem relays_dropRoom (room : RoomId) :
    Relays receivers hub ((hub.dropRoom room).emitAll (.roomDeleted room)) := by
  have found : ∀ other, (hub.dropRoom room).shownRoom other =
      if other = room then none else hub.shownRoom other := by
    intro other
    show ((hub.rooms.erase room).lookup other).map _ = _
    rw [Map.lookup_erase_ite]
    split <;> rfl
  have gone : (hub.dropRoom room).shownRoom room = none := (found room).trans (if_pos rfl)
  refine .emitAll (fun capped => ⟨capped.named, capped.fewUsers, ?_⟩) rfl rfl
    (fun view _ mirrors => ?_) fun view _ mirrors => ?_
  · refine (Finset.card_le_card fun other member => ?_).trans capped.fewRooms
    rw [Finmap.mem_keys] at member ⊢
    exact (Finmap.mem_erase.mp member).2
  · exact mirrors.roomDeleted rfl (fun other different => (found other).trans (if_neg different)) gone
  · exact mirrors.roomDeleted rfl (fun _ _ => rfl) gone

theorem relays_deleteRoom {user : UserId} {room : RoomId} {clock : Clock} :
    (deleteRoom user room clock).Follows (Relays receivers) :=
  looks_role.bind fun _ => .bind .require fun _ => looks_roomEntry.bind fun _ =>
    .bind .current fun _ => .bind .require fun _ =>
      .bind (.forEach fun _ _ => relays_place.bind fun _ => .pure) fun _ =>
        (relays_of_silent silent_call).bind fun _ hub => hub.relays_dropRoom room

/-! ### Users -/

theorem relays_kick (actor target : UserId) (room : RoomId) (clock : Clock) :
    Relays receivers hub (hub.kick actor target room clock) :=
  ((hub.silent_remember target none).brings.trans (relays_leaveRoom _ target clock)).trans
    (silent_emitTo _ target rfl).brings

theorem relays_kickFromRoom {user target : UserId} {room : RoomId} {clock : Clock} :
    (kickFromRoom user target room clock).Follows (Relays receivers) :=
  looks_role.bind fun _ => .bind .current fun _ => .bind .okOr fun _ => .bind .require fun _ =>
    .bind (.change fun hub => hub.relays_kick user target room clock) fun _ => .pure

theorem relays_dropAccount (clock : Clock) (id : UserId) :
    Relays receivers hub (dropAccount clock hub id) :=
  ((hub.silent_remember id none).brings.trans (relays_evict _ id _ clock)).trans
    (silent_emitUserListChange _ rfl).brings

theorem relays_removeAccounts {ids : List UserId} {clock : Clock} :
    (removeAccounts ids clock).Follows (Relays receivers) :=
  (relays_of_silent silent_call).bind fun _ => .change fun hub =>
    related_foldl hub (Relays receivers) (fun hub id => hub.relays_dropAccount clock id) ids

theorem relays_removeUser {user target : UserId} {cascade : Bool} {clock : Clock} :
    (removeUser user target cascade clock).Follows (Relays receivers) :=
  looks_role.bind fun _ =>
    .bind (.onlyIf ((relays_of_silent silent_call).bind fun _ => .require)) fun _ =>
      .bind .require fun _ => (relays_of_silent silent_accountsToRemove).bind fun _ =>
        .bind (.forEach fun _ _ => .bind (.bind (relays_of_silent silent_call) fun _ => .okOr)
          fun _ => .require) fun _ => relays_removeAccounts.bind fun _ => .pure

theorem relays_removeInactive {clock : Clock} :
    (removeInactive clock).Follows (Relays receivers) :=
  (relays_of_silent silent_call).bind fun _ => .onlyIf relays_removeAccounts

theorem relays_enroll {pubkey : PublicKey} {codeId name : String} {startedAt : Nat} :
    (enroll pubkey codeId name startedAt).Follows (Relays receivers) := by
  refine (relays_of_silent silent_call).bind fun enrolled => ?_
  split
  · exact .pure
  · refine .bind .current fun _ => .bind (.change fun hub => ?_) fun _ => .pure
    split
    · exact (silent_emitUserListChange hub rfl).brings
    · exact hub.relays_roleChanged _ _
    · exact refl_of (Relays receivers) hub

/-! ### Dispatch -/

theorem relays_perform {primitives : Primitives} {user : UserId} {request : Request}
    {draws : Nat → Fin (idChars + secretChars) → UInt8} {clock : Clock} :
    (perform primitives user request draws clock).Follows (Relays receivers) := by
  cases request with
  | joinRoom room password => exact relays_join
  | leaveRoom => exact @relays_join receivers user none none clock
  | createRoom name password => exact relays_createRoom
  | setRoomPassword room password => exact relays_setRoomPassword
  | setProfile name avatar => exact .map relays_setProfile
  | uploadAvatar bytes => exact .map (relays_of_silent silent_setAvatar)
  | fetchAvatar hash =>
    exact .map (.bind (relays_of_silent silent_call) fun _ => .map .okOr)
  | setEncryptionKey encryptionKey => exact .map (relays_of_silent silent_setEncryptionKey)
  | setMedia media => exact .map relays_setMedia
  | renameRoom room name => exact .map relays_renameRoom
  | deleteRoom room => exact .map relays_deleteRoom
  | createInvite => exact .map (relays_of_silent silent_createInvite)
  | listUsers =>
    exact .map (looks_role.bind fun _ => .bind .require fun _ =>
      .bind (relays_of_silent silent_call) fun _ => .pure)
  | setRole target role => exact .map relays_setRole
  | removeUser target cascade => exact .map relays_removeUser
  | setWatched ids => exact .map (relays_of_silent silent_setWatched)
  | requestKeyframe mediaId kind => exact .map (relays_of_silent silent_requestKeyframe)
  | publishSenderKey epoch wrapped => exact .map (relays_of_silent silent_publishKey)
  | setServerName name => exact .map (relays_of_silent silent_setServerName)
  | setServerAvatar avatar => exact .map (relays_of_silent silent_setServerAvatar)
  | kickFromRoom target room => exact .map relays_kickFromRoom

theorem relays_dispatch {primitives : Primitives} {user : UserId} {conn : ConnId}
    {request : Request} {draws : Nat → Fin (idChars + secretChars) → UInt8} {clock : Clock} :
    (dispatch primitives user conn request draws clock).Follows (Relays receivers) :=
  .bind (.bind .current fun _ => .require) fun _ =>
    .bind (.take fun hub => (hub.silent_isFree user request).brings) fun _ =>
      .bind (.onlyIf (relays_of_silent silent_mustTake)) fun _ => relays_perform

theorem relays_finish {user : UserId} {conn : ConnId} {done : PasswordDone} {clock : Clock} :
    (finish user conn done clock).Follows (Relays receivers) := by
  refine .bind (.bind .current fun _ => .require) fun _ => ?_
  cases done with
  | join room hash matched => exact relays_finishJoin
  | createRoom name hash =>
    refine .bind .okOr fun hash hub => ?_
    have same := refl_of (Relays receivers) hub
    refine Ends.after (.bind ((hub.roomToCreate_spaced user name).mono ?_ fun _ _ still =>
      still ▸ same))
    rintro name _ ⟨rfl, space⟩
    exact relays_addRoom _ name (some hash) space
  | setRoomPassword room hash =>
    exact .bind .okOr fun _ => (relays_of_silent silent_mayManageRoom).bind fun _ =>
      relays_storeRoomPassword

/-! ### Connecting -/

/-- Nobody comes onto a connection that nobody sits on, and nothing is sent to it. -/
def Spares (conn : ConnId) (before after : Hub) : Prop :=
  before.Unseated conn → after.Unseated conn ∧ after.sentTo conn = before.sentTo conn

instance (conn : ConnId) : IsPreorder Hub (Spares conn) where
  refl _ unseated := ⟨unseated, rfl⟩
  trans _ _ _ first second unseated :=
    have ⟨between, sent⟩ := first unseated
    have ⟨after, sent'⟩ := second between
    ⟨after, sent'.trans sent⟩

variable {hub} {conn : ConnId}

theorem Silent.spares {after : Hub} (silent : Silent hidden hub after) : Spares conn hub after := by
  refine fun unseated => ⟨fun user account => ?_, silent.elsewhere conn unseated⟩
  rw [silent.line]
  exact unseated user account

variable (hub)

theorem spares_emitAll (event : Event) : Spares conn hub (hub.emitAll event) := by
  intro unseated
  refine ⟨unseated, ?_⟩
  rw [emitAll, sentTo_send, List.count_eq_zero.mpr, List.replicate_zero, List.append_nil]
  intro member
  obtain ⟨⟨user, seat⟩, found, rfl⟩ := List.mem_map.mp member
  refine unseated user seat.row.id ?_
  rw [lineOf, (Map.mem_toList _ _ _).mp found]
  rfl

theorem spares_announceMove (user : UserId) : Spares conn hub (hub.announceMove user) := by
  unfold announceMove
  split
  · exact hub.spares_emitAll _
  · exact hub.spares_emitAll _

theorem spares_place {user : UserId} {target : Option RoomId} {clock : Clock} :
    (place user target clock).Follows (Spares conn) := by
  intro hub
  obtain silent | ⟨moved, silent, told⟩ := announces_place hub
  · exact silent.spares
  · exact trans_of (Spares conn) silent.spares
      (trans_of (Spares conn) (moved.spares_announceMove user) told.spares)

theorem spares_expel (user : UserId) (room : RoomId) : Spares conn hub (hub.expel user room) := by
  have left : Silent {user} hub
      (((hub.removeMember room user).setMembership user none none).broadcastPeers room none) :=
    trans_of (Silent {user}) (hub.silent_removeMember room user) (trans_of (Silent {user})
      (silent_setMembership _ (Set.mem_singleton user) none none) (silent_broadcastPeers _ room none))
  exact trans_of (Spares conn) left.spares (trans_of (Spares conn) (spares_emitAll _ _)
    (silent_rebuildRoutes _ : Silent ∅ _ _).spares)

theorem spares_leaveRoom (user : UserId) (clock : Clock) :
    Spares conn hub (hub.leaveRoom user clock) := by
  have placed : Spares conn hub (place user none clock hub).2 := spares_place hub
  unfold leaveRoom
  split
  · exact refl_of (Spares conn) hub
  · generalize place user none clock hub = outcome at placed
    obtain ⟨failure | result, after⟩ := outcome
    · dsimp only
      split
      · exact placed
      · exact trans_of (Spares conn) placed (after.spares_expel user _)
    · exact placed

theorem spares_evict (user : UserId) (reason : String) (clock : Clock) :
    Spares conn hub (hub.evict user reason clock) := by
  have left := @spares_leaveRoom hub conn user clock
  unfold evict
  generalize hub.leaveRoom user clock = after at left
  dsimp only
  split
  · exact left
  · refine trans_of (Spares conn) left fun unseated => ⟨fun other account sits => ?_, ?_⟩
    · refine unseated other account ?_
      rw [lineOf_eq] at sits ⊢
      rw [show (after.endSession user).sessions.lookup other =
        if other = user then none else after.sessions.lookup other from
          Map.lookup_erase_ite after.sessions user other] at sits
      split at sits
      · cases sits
      · exact sits
    · unfold sentTo
      rw [List.filterMap_append]
      exact List.append_nil _

/-- Whoever has just signed in is in no room, and isn't shown. -/
theorem relays_openSession {row : UserRow} (absent : row.id ∉ hub.seats)
    (space : hub.seats.keys.card < maxSignedIn) :
    Relays {user | user ≠ row.id} hub (hub.openSession row) := by
  have found : ∀ other, (hub.openSession row).sessions.lookup other =
      if other = row.id then some { connId := hub.nextConn + 1, row } else hub.sessions.lookup other :=
    fun other => Map.lookup_insert_ite hub.sessions row.id other _
  have line : ∀ other, (hub.openSession row).lineOf other =
      if other = row.id then some (hub.nextConn + 1, row.id) else hub.lineOf other := by
    intro other
    rw [lineOf_eq, lineOf_eq, found]
    split <;> rfl
  have presence : (hub.openSession row).presenceOf = hub.presenceOf := by
    funext other
    rw [presenceOf_eq, found]
    split
    · rename_i mine
      rw [mine, presenceOf, Finmap.lookup_eq_none.mpr absent]
      rfl
    · rw [presenceOf_eq]
  refine ⟨fun capped => ⟨?_, ?_, capped.fewRooms⟩, fun capped user other place sits => ?_⟩
  · intro other conn account sits
    rw [line] at sits
    split at sits
    · rename_i mine
      exact (congrArg Prod.snd (Option.some.inj sits)).symm.trans mine.symm
    · exact capped.named other conn account sits
  · refine (Finset.card_le_card (t := insert row.id hub.seats.keys) fun other member => ?_).trans
      ((Finset.card_insert_le _ _).trans space)
    rw [Finset.mem_insert, Finmap.mem_keys, mem_seats_iff]
    rw [Finmap.mem_keys, mem_seats_iff, line] at member
    split at member
    · rename_i mine
      exact .inl mine
    · exact .inr member
  · rw [line, if_neg other] at sits
    refine ⟨sits, [], (List.append_nil _).symm, fun view mirrors => ?_⟩
    refine { mirrors with people := fun other shown => ?_, known := fun other listed => ?_ }
    · rw [presence]
      exact mirrors.people other shown
    · have signedIn := mirrors.known other listed
      rw [mem_seats_iff] at signedIn ⊢
      rw [line]
      split
      · rfl
      · exact signedIn

theorem announces_startingPlacement (user : UserId) (wantRoom : Option RoomId) (clock : Clock) :
    Announces user hub (hub.startingPlacement user wantRoom clock).2 := by
  unfold startingPlacement
  split
  · exact .inl (refl_of (Silent ∅) hub)
  rename_i room wanted
  dsimp only
  unfold rejoin
  generalize (if hub.lastJoined.lookup user = some room then Allowance.rejoins
    else Allowance.roomChanges) = allowance
  have held : Silent ∅ hub (hub.holdsIn allowance user 1 clock.now).2 := .of_same rfl rfl rfl
  dsimp only
  generalize hub.holdsIn allowance user 1 clock.now = looked at held
  obtain ⟨enough, waiting⟩ := looked
  dsimp only at held ⊢
  split
  · have placed : Announces user waiting (place user (some room) clock waiting).2 :=
      announces_place waiting
    generalize place user (some room) clock waiting = outcome at placed
    obtain ⟨failure | placement, after⟩ := outcome
    · exact placed.within held (refl_of (Silent ∅) after)
    · exact placed.within held (.of_same rfl rfl rfl)
  · exact .inl held

/-- From the moment it is registered, what a connection is told of its own user's move says where
the server has them in the end. -/
theorem announces_welcome (row : UserRow) (wantRoom : Option RoomId) (clock : Clock) :
    Announces row.id
      ((hub.evict row.id "you signed in from somewhere else" clock).openSession row)
      (hub.welcome row wantRoom clock).2 := by
  refine (announces_startingPlacement _ row.id wantRoom clock).within (refl_of (Silent ∅) _) ?_
  exact trans_of (Silent ∅) (silent_handOver _ row.id _) (silent_profileOrDefault _)

variable {hub} in
/-- Hearing of a move that the server's state has in it changes nothing. -/
theorem Announces.again {user : UserId} {after : Hub} (announces : Announces user hub after)
    (capped : after.Capped) (conn : ConnId) :
    ∃ events, after.sentTo conn = hub.sentTo conn ++ events ∧
      ∀ view, Mirrors view after → Mirrors (view.hear events) after := by
  obtain silent | ⟨moved, silent, told⟩ := announces
  · obtain ⟨effects, sends, quiet⟩ := silent.log
    obtain ⟨events, sent, deaf⟩ := hear_sentTo sends quiet conn
    refine ⟨events, sent, fun view mirrors => ?_⟩
    rw [deaf]
    exact mirrors
  · obtain ⟨effects, sends, quiet⟩ := silent.log
    obtain ⟨events, sent, deaf⟩ := hear_sentTo sends quiet conn
    obtain ⟨effects', sends', quiet'⟩ := told.log
    obtain ⟨events', sent', deaf'⟩ := hear_sentTo sends' quiet' conn
    obtain ⟨event, same, kept⟩ : ∃ event, moved.announceMove user = moved.emitAll event ∧
        ∀ view, Mirrors view after → Mirrors (view.serverEvent event) after := by
      have presence := told.presence user (Set.notMem_empty user)
      unfold announceMove at presence ⊢
      split at presence
      · rename_i said shown
        refine ⟨.presenceChanged said, rfl, fun view mirrors => ?_⟩
        exact (mirrors.presenceChanged capped (presence.trans shown)).mono Set.sdiff_subset
      · rename_i gone
        refine ⟨.presenceEnded user, rfl, fun view mirrors => ?_⟩
        exact (mirrors.presenceEnded (presence.trans gone)).mono Set.sdiff_subset
    rw [same, emitAll, sentTo_send, sent] at sent'
    refine ⟨_, by rw [sent', List.append_assoc, List.append_assoc], fun view mirrors => ?_⟩
    show Mirrors ((events ++ (_ ++ events')).foldl _ view) after
    rw [List.foldl_append, List.foldl_append]
    show Mirrors (ClientView.hear (ClientView.hear (view.hear events) _) events') after
    rw [deaf, deaf']
    exact MirrorsBut.hear_replicate mirrors kept _

theorem lineOf_evict (capped : hub.Capped) (user : UserId) (reason : String) (clock : Clock)
    {other : UserId} (stays : other ∈ (hub.evict user reason clock).seats) :
    other ∈ hub.seats ∧ other ≠ user := by
  have gone := (core_evict hub user reason clock).2
  refine ⟨?_, fun same => gone (same ▸ stays)⟩
  rw [mem_seats_iff] at stays ⊢
  obtain ⟨line, sits⟩ := Option.isSome_iff_exists.mp stays
  rw [((@relays_evict Set.univ hub user reason clock).told capped other trivial line sits).1]
  rfl

/-- A server that doesn't refuse a connection has space for one more user. -/
theorem space_evict (capped : hub.Capped) {row : UserRow}
    (accepted : hub.refusesConnection row = false) (reason : String) (clock : Clock) :
    (hub.evict row.id reason clock).seats.keys.card < maxSignedIn := by
  have sessions : ∀ user, user ∈ hub.sessions ↔ user ∈ hub.seats := by
    intro user
    rw [← Finmap.lookup_isSome, ← Finmap.lookup_isSome, seats_lookup, Option.isSome_map]
  have same : hub.sessions.keys = hub.seats.keys := by
    ext user
    rw [Finmap.mem_keys, Finmap.mem_keys, sessions]
  have fewer : (hub.evict row.id reason clock).seats.keys ⊆ hub.seats.keys.erase row.id := by
    intro user member
    obtain ⟨there, other⟩ := hub.lineOf_evict capped row.id reason clock (Finmap.mem_keys.mp member)
    exact Finset.mem_erase.mpr ⟨other, Finmap.mem_keys.mpr there⟩
  refine (Finset.card_le_card fewer).trans_lt ?_
  by_cases member : row.id ∈ hub.seats.keys
  · exact (Finset.card_erase_lt_of_mem member).trans_le capped.fewUsers
  · rw [Finset.erase_eq_of_notMem member]
    by_contra full
    have refused : hub.refusesConnection row = true := by
      unfold refusesConnection
      refine decide_eq_true ⟨.inl ?_, fun there => member ?_⟩
      · rw [same]
        exact Nat.not_lt.mp full
      · exact Finmap.mem_keys.mpr ((sessions row.id).mp there)
    rw [accepted] at refused
    cases refused

/-- Everyone else is told of a user who signs in, and of their moves. -/
theorem relays_welcome (capped : hub.Capped) {row : UserRow}
    (accepted : hub.refusesConnection row = false) (wantRoom : Option RoomId) (clock : Clock) :
    Relays {user | user ≠ row.id} hub (hub.welcome row wantRoom clock).2 := by
  have absent := (core_evict hub row.id "you signed in from somewhere else" clock).2
  have space := hub.space_evict capped accepted "you signed in from somewhere else" clock
  exact (hub.relays_evict row.id _ clock).trans ((relays_openSession _ absent space).trans
    (hub.announces_welcome row wantRoom clock).relays)

/-- A connection that is let in shows all that the server holds, once it has heard what it was
sent meanwhile. -/
theorem mirrors_welcome (capped : hub.Capped) (orderly : hub.core.Orderly) {row : UserRow}
    (accepted : hub.refusesConnection row = false) (wantRoom : Option RoomId) (clock : Clock) :
    let welcomed := hub.welcome row wantRoom clock
    welcomed.2.Capped ∧ ∃ events,
      welcomed.2.sentTo welcomed.1.1 = hub.sentTo welcomed.1.1 ++ events ∧
        Mirrors ((ClientView.applyWelcome welcomed.1.2).hear events) welcomed.2 := by
  intro welcomed
  have bounded := (hub.relays_welcome capped accepted wantRoom clock).capped capped
  refine ⟨bounded, ?_⟩
  obtain ⟨leads, gone⟩ := core_evict hub row.id "you signed in from somewhere else" clock
  have next : (hub.evict row.id "you signed in from somewhere else" clock).nextConn = hub.nextConn :=
    Core.nextConn_of_ousts leads
  have conn : welcomed.1.1 = hub.nextConn + 1 := congrArg (· + 1) next
  have unseated : hub.Unseated welcomed.1.1 := by
    intro user account sits
    obtain ⟨seat, found, same⟩ := Option.map_eq_some_iff.mp sits
    have known := orderly.connected.known user seat found
    rw [show seat.connId = welcomed.1.1 from congrArg Prod.fst same, conn] at known
    exact absurd known (Nat.not_succ_le_self _)
  obtain ⟨_, spared⟩ :=
    hub.spares_evict row.id "you signed in from somewhere else" clock unseated
  obtain ⟨events, sent, again⟩ := (hub.announces_welcome row wantRoom clock).again bounded
    welcomed.1.1
  refine ⟨events, sent.trans (congrArg (· ++ events) spared), again _ ?_⟩
  exact applyWelcome_mirrors bounded rfl rfl

/-- The users who sit on the connection they sat on before. -/
def stayers (before after : Hub) : Set UserId :=
  {user | ∃ line, before.lineOf user = some line ∧ after.lineOf user = some line}

theorem Brings.of_subset {fewer hidden still : Set UserId} {before after : Hub}
    (brings : Brings receivers hidden still before after) (less : fewer ⊆ receivers) :
    Brings fewer hidden still before after :=
  ⟨brings.capped, fun capped user receives => brings.told capped user (less receives)⟩

/-- Whoever stays on their connection while someone connects shows what the server holds. -/
theorem relays_connect (capped : hub.Capped) (orderly : hub.core.Orderly) (row : UserRow)
    (wantRoom : Option RoomId) (clock : Clock) :
    (connect row wantRoom clock).Ends
      (fun result after => Relays (stayers hub after) hub after ∧
        ∀ conn welcome, result = .ok (conn, welcome) → ∃ events,
          after.sentTo conn = hub.sentTo conn ++ events ∧
            Mirrors ((ClientView.applyWelcome welcome).hear events) after)
      (fun _ after => Relays (stayers hub after) hub after) hub := by
  have idle : Idle clock hub hub := Idle.refl hub
  have still : ∀ after, Idle clock hub after → Relays (stayers hub after) hub after :=
    fun after idle => (Silent.of_idle idle : Silent ∅ hub after).brings
  refine .bind (idle.read_ends (fun after idle => ?_) fun _ idle => still _ idle)
  split
  · exact .pure ⟨still _ idle, nofun⟩
  · rename_i current found
    refine .bind (idle.write_ends (fun between idle => .bind (.current ?_)) fun _ idle => still _ idle)
    let seen : Hub := { between with db := between.db.markSeen row.id clock.unixNow }
    have silent : Silent ∅ hub seen :=
      trans_of (Silent ∅) (.of_idle idle) (.of_same rfl rfl rfl : Silent ∅ between seen)
    split
    · exact .pure ⟨silent.brings, nofun⟩
    · rename_i space
      have bounded : seen.Capped := (silent.brings : Relays Set.univ hub seen).capped capped
      have accepted : seen.refusesConnection current = false := Bool.eq_false_iff.mpr space
      have core : seen.core = hub.core := idle.core
      have log := congrArg Hub.log idle.same
      refine .map (.take ⟨?_, ?_⟩)
      · refine silent.brings.trans
          ((seen.relays_welcome bounded accepted wantRoom clock).of_subset ?_)
        rintro user ⟨line, was, is⟩ rfl
        obtain ⟨seat, found, rfl⟩ := Option.map_eq_some_iff.mp was
        obtain ⟨seat', found', same⟩ := Option.map_eq_some_iff.mp is
        have old := orderly.connected.known current.id seat found
        have new := conn_welcome seen current wantRoom clock
        have same : seat'.connId = seat.connId := congrArg Prod.fst same
        rw [Core.connOf, core_seats, found', Option.map_some, Option.some.injEq, same,
          show seen.nextConn = hub.nextConn from congrArg Core.nextConn core] at new
        exact absurd (new ▸ old) (Nat.not_succ_le_self _)
      · intro conn welcome same
        have given : (seen.welcome current wantRoom clock).1 = (conn, welcome) := Except.ok.inj same
        obtain ⟨_, mirrored⟩ :=
          seen.mirrors_welcome bounded (core ▸ orderly) accepted wantRoom clock
        rw [given] at mirrored
        obtain ⟨events, sent, mirrors⟩ := mirrored
        refine ⟨events, sent.trans (congrArg (· ++ events) ?_), mirrors⟩
        exact congrArg (List.filterMap (Effect.eventTo conn)) log

/-- Nobody sits anywhere once the server starts. -/
theorem relays_start (orderly : hub.core.Orderly) (clock : Clock) :
    Relays (stayers hub (hub.start clock)) hub (hub.start clock) := by
  have empty : (hub.start clock).seats = ∅ := by
    refine Finmap.ext_lookup fun user => ?_
    rw [seats_lookup]
    rfl
  have nobody : ∀ user, (hub.start clock).lineOf user = none := by
    intro user
    rw [lineOf, empty]
    rfl
  refine ⟨fun capped => ⟨fun user conn account sits => ?_, ?_, ?_⟩, fun _ user stays => ?_⟩
  · rw [nobody] at sits
    cases sits
  · rw [empty]
    exact Nat.zero_le _
  · have stored : (hub.start clock).rooms.keys = hub.rooms.keys := by
      have same : hub.db.rooms = hub.rooms.mapValues fun _ entry => entry.stored := orderly.mirrored
      have rooms : (hub.start clock).rooms.keys = hub.db.rooms.keys := Map.keys_mapValues _ _
      rw [rooms, same, Map.keys_mapValues]
    rw [stored]
    exact capped.fewRooms
  · obtain ⟨line, _, sits⟩ := stays
    rw [nobody] at sits
    cases sits

theorem isCurrent_iff_lineOf {user : UserId} {conn : ConnId} :
    hub.isCurrent user conn = true ↔ ∃ account, hub.lineOf user = some (conn, account) := by
  unfold isCurrent
  rw [Option.any_eq_true, lineOf_eq]
  constructor
  · rintro ⟨session, found, same⟩
    rw [found]
    exact ⟨session.row.id, congrArg (fun conn => some (conn, session.row.id)) (of_decide_eq_true same)⟩
  · rintro ⟨account, sits⟩
    obtain ⟨session, found, same⟩ := Option.map_eq_some_iff.mp sits
    exact ⟨session, found, decide_eq_true (congrArg Prod.fst same)⟩

end Hub

/-! ### Steps of the server -/

namespace Server

variable (primitives : Primitives)

/-- Whoever stays on their connection while the server takes a step is sent what brings a client
along with the server. -/
theorem step_relays (server : Server) (consistent : server.hub.core.Consistent)
    (capped : server.hub.Capped) (input : Input) :
    Hub.Relays (Hub.stayers server.hub (step primitives server input).hub) server.hub
      (step primitives server input).hub := by
  have orderly := consistent.toOrderly
  let hub := server.working input
  have silent : Hub.Silent ∅ server.hub hub := .of_same rfl rfl rfl
  have started : ∀ receivers after, Hub.Relays receivers hub after →
      Hub.Relays receivers server.hub after :=
    fun _ _ relays => silent.brings.trans relays
  cases action : input.action with
  | connect row wantRoom =>
    unfold step
    dsimp only
    rw [action]
    have ends := hub.relays_connect (capped.of_same rfl rfl) orderly row wantRoom input.clock
    have relays : Hub.Relays (hub.stayers (hub.connect row wantRoom input.clock).2) hub
        (hub.connect row wantRoom input.clock).2 := by
      unfold Attempt.Ends at ends
      generalize hub.connect row wantRoom input.clock = outcome at ends ⊢
      obtain ⟨failure | result, after⟩ := outcome
      · exact ends
      · exact ends.1
    exact started _ _ relays
  | disconnect asker origin =>
    unfold step
    dsimp only
    rw [action]
    exact started _ _ (hub.relays_disconnect asker origin input.clock)
  | request asker origin request =>
    rw [hub_step_request primitives server input action]
    exact started _ _ (Hub.relays_dispatch hub)
  | finish index hashed =>
    cases found : server.pending[index]? with
    | none =>
      unfold step
      dsimp only
      rw [action]
      dsimp only
      rw [found]
      exact refl_of (Hub.Relays _) server.hub
    | some pending =>
      rw [hub_step_finish primitives server input action found]
      exact started _ _ (Hub.relays_finish hub)
  | removeInactive =>
    unfold step
    dsimp only
    rw [action]
    exact started _ _ (Hub.relays_removeInactive hub)
  | flushKeyframes =>
    unfold step
    dsimp only
    rw [action]
    exact started _ _ (hub.silent_flushKeyframes input.clock).brings
  | claimTry codeId =>
    unfold step
    dsimp only
    rw [action]
    exact started _ _ (Hub.silent_claimTry hub).brings
  | enroll pubkey codeId name startedAt =>
    unfold step
    dsimp only
    rw [action]
    exact started _ _ (Hub.relays_enroll hub)
  | endRun codeId mintedBy =>
    unfold step
    dsimp only
    rw [action]
    exact started _ _ (hub.silent_endRun codeId mintedBy).brings
  | adminInvite =>
    unfold step
    dsimp only
    rw [action]
    exact started _ _ (Hub.silent_mintInvite hub).brings
  | restart =>
    unfold step
    dsimp only
    rw [action]
    exact started _ _ (hub.relays_start orderly input.clock)

theorem fresh_capped (fingerprint : Fingerprint) (clock : Clock) :
    (fresh fingerprint clock).hub.Capped := by
  have empty : (fresh fingerprint clock).hub.seats = ∅ := by
    refine Finmap.ext_lookup fun user => ?_
    rw [Hub.seats_lookup]
    rfl
  refine ⟨fun user conn account sits => ?_, ?_, Nat.zero_le _⟩
  · rw [Hub.lineOf, empty] at sits
    cases sits
  · rw [empty]
    exact Nat.zero_le _

/-- Every server a run reaches has at most as many rooms and users as a client shows. -/
theorem capped_run (fingerprint : Fingerprint) (clock : Clock) (inputs : List Input) :
    (run (step primitives) (fresh fingerprint clock) inputs).hub.Capped := by
  refine (run_invariant (step primitives) (fun server => server.hub.core.Consistent ∧ server.hub.Capped)
    ⟨fresh_consistent fingerprint clock, fresh_capped fingerprint clock⟩ ?_ inputs).2
  rintro server input ⟨consistent, capped⟩
  exact ⟨consistent.steps (server.steps primitives consistent.toOrderly input),
    (server.step_relays primitives consistent capped input).capped capped⟩

/-- A server never has more than `maxRooms` rooms, stored or opened, nor more than `maxSignedIn`
sessions. -/
theorem run_bounds (fingerprint : Fingerprint) (clock : Clock) (inputs : List Input) :
    let hub := (run (step primitives) (fresh fingerprint clock) inputs).hub
    hub.rooms.keys.card ≤ maxRooms ∧ hub.db.rooms.keys = hub.rooms.keys ∧
      hub.sessions.keys.card ≤ maxSignedIn := by
  intro hub
  have capped : hub.Capped := capped_run primitives fingerprint clock inputs
  have consistent := run_consistent primitives fingerprint clock inputs
  refine ⟨capped.fewRooms, ?_, ?_⟩
  · have same : hub.db.rooms = hub.rooms.mapValues fun _ entry => entry.stored :=
      consistent.mirrored
    rw [same, Map.keys_mapValues]
  · have seats : hub.seats.keys = hub.sessions.keys := Map.keys_mapValues _ _
    rw [← seats]
    exact capped.fewUsers

/-- A client on `conn` that has heard what was sent there since `server` shows what `now` holds. -/
def Follows (server : Server) (conn : ConnId) (welcome : Welcome) (now : Server) : Prop :=
  ∃ events, now.hub.sentTo conn = server.hub.sentTo conn ++ events ∧
    Mirrors ((ClientView.applyWelcome welcome).hear events) now.hub

variable {primitives} {server : Server} {input : Input} {conn : ConnId} {welcome : Welcome}

/-- A client shows what the server holds once it has connected. -/
theorem follows_connect (consistent : server.hub.core.Consistent) (capped : server.hub.Capped)
    {row : UserRow} {wantRoom : Option RoomId} (action : input.action = .connect row wantRoom)
    (accepted : (Hub.connect row wantRoom input.clock (server.working input)).1 =
      .ok (.ok (conn, welcome))) :
    server.Follows conn welcome (step primitives server input) := by
  have ends := (server.working input).relays_connect (capped.of_same rfl rfl)
    consistent.toOrderly row wantRoom input.clock
  have same : (step primitives server input).hub =
      (Hub.connect row wantRoom input.clock (server.working input)).2 := by
    unfold step
    dsimp only
    rw [action]
    rfl
  unfold Attempt.Ends at ends
  unfold Follows
  rw [same]
  generalize Hub.connect row wantRoom input.clock (server.working input) = outcome at ends accepted
  obtain ⟨result, after⟩ := outcome
  obtain rfl : result = _ := accepted
  exact ends.2 conn welcome rfl

/-- A client that stays on its connection hears what a step of the server changes. -/
theorem Follows.step {now : Server} (follows : server.Follows conn welcome now)
    (consistent : now.hub.core.Consistent) (capped : now.hub.Capped) {user : UserId}
    (was : now.hub.isCurrent user conn = true)
    (is : (step primitives now input).hub.isCurrent user conn = true) :
    server.Follows conn welcome (step primitives now input) := by
  obtain ⟨events, sent, mirrors⟩ := follows
  have relays := now.step_relays primitives consistent capped input
  obtain ⟨account, was⟩ := now.hub.isCurrent_iff_lineOf.mp was
  obtain ⟨account', is⟩ := (Hub.isCurrent_iff_lineOf _).mp is
  have stays : user ∈ now.hub.stayers (Server.step primitives now input).hub := by
    refine ⟨(conn, account), was, is.trans ?_⟩
    rw [(relays.capped capped).named _ _ _ is, capped.named _ _ _ was]
  obtain ⟨_, later, sent', mirrors'⟩ := relays.told capped user stays _ is
  refine ⟨events ++ later, by rw [sent', sent, List.append_assoc], ?_⟩
  show Mirrors ((events ++ later).foldl _ _) _
  rw [List.foldl_append]
  exact mirrors' _ mirrors

variable (primitives)

/-- A client that has heard all that was sent to its connection shows what the server holds. -/
theorem run_mirrors (fingerprint : Fingerprint) (clock : Clock) (earlier : List Input)
    {input : Input} {row : UserRow} {wantRoom : Option RoomId} {conn : ConnId} {welcome : Welcome}
    (action : input.action = .connect row wantRoom)
    (accepted : (Hub.connect row wantRoom input.clock ((run (step primitives)
      (fresh fingerprint clock) earlier).working input)).1 = .ok (.ok (conn, welcome)))
    (inputs : List Input) :
    let server := run (step primitives) (fresh fingerprint clock) earlier
    let first := step primitives server input
    let last := run (step primitives) first inputs
    Along (step primitives) (fun server _ => server.hub.isCurrent welcome.me conn = true) first
      inputs → last.hub.isCurrent welcome.me conn = true →
    ∃ events, last.hub.sentTo conn = server.hub.sentTo conn ++ events ∧
      Mirrors ((ClientView.applyWelcome welcome).hear events) last.hub := by
  intro server first last along stays
  have kept : ∀ now, now.hub.core.Consistent ∧ now.hub.Capped → ∀ input,
      (step primitives now input).hub.core.Consistent ∧ (step primitives now input).hub.Capped :=
    fun now ⟨consistent, capped⟩ input =>
      ⟨consistent.steps (now.steps primitives consistent.toOrderly input),
        (now.step_relays primitives consistent capped input).capped capped⟩
  have consistent := run_consistent primitives fingerprint clock earlier
  have capped := capped_run primitives fingerprint clock earlier
  refine (along.invariant (fun now : Server => (now.hub.core.Consistent ∧ now.hub.Capped) ∧
    (now.hub.isCurrent welcome.me conn = true → server.Follows conn welcome now)) ?_ ?_).2 stays
  · exact ⟨kept server ⟨consistent, capped⟩ input, fun _ =>
      follows_connect consistent capped action accepted⟩
  · rintro now input ⟨both, follows⟩ was
    exact ⟨kept now both input, fun is => (follows was).step both.1 both.2 was is⟩

/-- What the first user is welcomed with. -/
def firstWelcome : Welcome where
  me := 1
  role := .admin
  rooms := []
  presence := []
  placement := lobby
  server := {}
  profile := ⟨"admin", none⟩

/-- The first user opens a room, enters it and renames it. -/
def renamesRoom : List Input :=
  [atOnce (.request 1 1 (.setEncryptionKey ⟨1, 1000, 0⟩)),
    atOnce (.request 1 1 (.createRoom "room" none)), atOnce (.request 1 1 (.joinRoom 1 none)),
    atOnce (.request 1 1 (.renameRoom 1 "hall"))]

theorem run_mirrors_renamesRoom :
    let server := run (step openPrimitives) (fresh 0 ⟨0, 0⟩) adminSignsIn.dropLast
    let last := run (step openPrimitives)
      (step openPrimitives server (atOnce (.connect firstAdmin none))) renamesRoom
    ∃ events, last.hub.sentTo 1 = server.hub.sentTo 1 ++ events ∧
      Mirrors ((ClientView.applyWelcome firstWelcome).hear events) last.hub := by
  have accepted : (Hub.connect firstAdmin none ⟨fromSecs 1, 1⟩
      ((run (step openPrimitives) (fresh 0 ⟨0, 0⟩) adminSignsIn.dropLast).working
        (atOnce (.connect firstAdmin none)))).1 = .ok (.ok (1, firstWelcome)) := by
    decide +kernel
  have mirrors := @run_mirrors openPrimitives 0 ⟨0, 0⟩ adminSignsIn.dropLast
    (atOnce (.connect firstAdmin none)) firstAdmin none 1 firstWelcome rfl accepted renamesRoom
  dsimp only at mirrors ⊢
  refine mirrors ?_ ?_
  all_goals decide +kernel

/-- What the first user then shows. -/
example :
    let server := run (step openPrimitives) (fresh 0 ⟨0, 0⟩) (adminSignsIn ++ renamesRoom)
    let view := (ClientView.applyWelcome firstWelcome).hear (server.hub.sentTo 1)
    view.rooms = [⟨1, "hall", false⟩] ∧
      view.people.lookup 1 = some ⟨"admin", none, some 1, false, false, .admin⟩ := by
  decide +kernel

end Server

end Throcc
