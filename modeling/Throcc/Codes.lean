/-
This file says which operations of the hub reach its invites: the stored ones,
the runs in flight on them and the list of all that were minted. It also says
which tell someone that they are out of a room, and whose session each moves.
Every other operation leaves the invites as they are, tells nobody so and moves
nobody else.
-/

import Throcc.Requests

namespace Throcc

/-- What enrollments rest on: the stored invites, the runs in flight on each and all invites
ever minted. -/
structure Codes where
  invites : Map String InviteRow
  runs : Map String Nat
  minted : List InviteRow

/-- The room an event tells its receiver they are out of. -/
def Event.out : Event → Option RoomId
  | .kickedFromRoom _ room => some room
  | .roomDeleted room => some room
  | _ => none

/-- The room an effect tells someone they are out of. -/
def Effect.out : Effect → Option RoomId
  | .sent _ event => event.out
  | _ => none

namespace Hub

def codes (hub : Hub) : Codes where
  invites := hub.db.invites
  runs := hub.inviteRuns
  minted := hub.minted

/-- What goes out between two hubs tells nobody that they are out of a room. -/
def Hushed (before after : Hub) : Prop :=
  ∃ effects, after.log = before.log ++ effects ∧ effects.filterMap Effect.out = []

theorem Hushed.refl (hub : Hub) : hub.Hushed hub := ⟨[], (List.append_nil _).symm, rfl⟩

theorem Hushed.trans {first second third : Hub} (before : first.Hushed second)
    (after : second.Hushed third) : first.Hushed third := by
  obtain ⟨effects, sends, quiet⟩ := before
  obtain ⟨others, sends', quiet'⟩ := after
  refine ⟨effects ++ others, by rw [sends', sends, List.append_assoc], ?_⟩
  rw [List.filterMap_append, quiet, quiet', List.append_nil]

/-- The connection a user is on and the room they are in. -/
def sits (hub : Hub) (user : UserId) : Option (ConnId × Option RoomId) :=
  (hub.sessions.lookup user).map fun session => (session.connId, session.room)

/-- The invites are the same, nobody is told that they are out of a room, and everyone sits where
they did but those who `may` move. -/
structure Quiet (may : UserId → Prop) (before after : Hub) : Prop where
  codes : after.codes = before.codes
  hushed : before.Hushed after
  sits : ∀ user, ¬ may user → after.sits user = before.sits user

theorem Quiet.trans {may : UserId → Prop} {first second third : Hub}
    (before : Quiet may first second) (after : Quiet may second third) : Quiet may first third where
  codes := after.codes.trans before.codes
  hushed := before.hushed.trans after.hushed
  sits user other := (after.sits user other).trans (before.sits user other)

theorem Quiet.same {may : UserId → Prop} {before after : Hub} (codes : after.codes = before.codes)
    (log : after.log = before.log) (sits : after.sits = before.sits) : Quiet may before after :=
  ⟨codes, ⟨[], log.trans (List.append_nil _).symm, rfl⟩, fun user _ => congrFun sits user⟩

instance : IsPreorder Hub Hushed where
  refl := .refl
  trans _ _ _ := .trans

instance (may : UserId → Prop) : IsPreorder Hub (Quiet may) where
  refl _ := .same rfl rfl rfl
  trans _ _ _ := .trans

open Attempt

variable {Result : Type}

/-- The computation leaves the invites alone. -/
def KeepsCodes (computation : HubM Result) : Prop := Keeps codes computation

/-- The computation leaves the invites alone, tells nobody that they are out of a room and moves
only those who `may` move. -/
def KeepsQuiet (may : UserId → Prop) (computation : HubM Result) : Prop :=
  computation.Follows (Quiet may)

/-- Whoever it moves, a quiet computation leaves the invites alone. -/
theorem KeepsQuiet.codes {computation : HubM Result}
    (keeps : KeepsQuiet (fun _ => True) computation) : KeepsCodes computation :=
  fun hub => (keeps hub).codes

variable {may : UserId → Prop}

/-! ### Checks -/

section Looking

variable {View : Type} {view : Hub → View}
  (blind : ∀ (hub : Hub) (faults : List Bool), view { hub with faults } = view hub)

include blind

/-- A read changes only which calls of the database fail. -/
theorem reads {query : Database → Result} : Keeps view (read query) := by
  intro hub
  unfold read call
  split
  · exact blind hub _
  · exact blind hub _

theorem reads_storedUser {user : UserId} : Keeps view (storedUser user) :=
  (reads blind).bind fun _ => .okOr

theorem reads_accountsToRemove {target : UserId} {cascade : Bool} :
    Keeps view (accountsToRemove target cascade) := by
  unfold accountsToRemove
  split
  · exact reads blind
  · exact .pure

end Looking

theorem looks_session {relation : Hub → Hub → Prop} [IsPreorder Hub relation] {user : UserId} :
    (session user).Follows relation := Follows.current.bind fun _ => .okOr

theorem looks_role {relation : Hub → Hub → Prop} [IsPreorder Hub relation] {user : UserId} :
    (role user).Follows relation := looks_session.bind fun _ => .pure

theorem looks_roomEntry {relation : Hub → Hub → Prop} [IsPreorder Hub relation] {room : RoomId} :
    (roomEntry room).Follows relation := Follows.current.bind fun _ => .okOr

theorem keeps_call {statement : Database → Result × Database}
    (same : ∀ db, (statement db).2.invites = db.invites) : KeepsQuiet may (call statement) := by
  intro hub
  unfold call
  split
  · exact .same rfl rfl rfl
  · exact .same (congrArg (Codes.mk · hub.inviteRuns hub.minted) (same hub.db)) rfl rfl

theorem keeps_read {query : Database → Result} : KeepsQuiet may (read query) :=
  keeps_call fun _ => rfl

theorem keeps_write {statement : Database → Database}
    (same : ∀ db, (statement db).invites = db.invites) : KeepsQuiet may (write statement) :=
  keeps_call same

theorem keeps_session {user : UserId} : KeepsQuiet may (session user) := looks_session

theorem keeps_role {user : UserId} : KeepsQuiet may (role user) := looks_role

theorem keeps_currentRoom {user : UserId} : KeepsQuiet may (currentRoom user) :=
  keeps_session.bind fun _ => .okOr

theorem keeps_roomEntry {room : RoomId} : KeepsQuiet may (roomEntry room) := looks_roomEntry

theorem keeps_storedUser {user : UserId} : KeepsQuiet may (storedUser user) :=
  keeps_read.bind fun _ => .okOr

theorem keeps_requirePicture {avatar : Option Hash} : KeepsQuiet may (requirePicture avatar) := by
  cases avatar with
  | none => exact .pure
  | some hash => exact keeps_read.bind fun _ => .require

theorem keeps_requireCurrent {user : UserId} {conn : ConnId} :
    KeepsQuiet may (requireCurrent user conn) := Follows.current.bind fun _ => .require

theorem keeps_mustTake {allowance : Allowance} {user : UserId} {cost : ℚ} {now : Instant}
    {refusal : Refusal} : KeepsQuiet may (mustTake allowance user cost now refusal) :=
  .bind (.take fun _ => .same rfl rfl rfl) fun _ => .require

theorem keeps_mustHold {allowance : Allowance} {user : UserId} {cost : ℚ} {now : Instant}
    {refusal : Refusal} : KeepsQuiet may (mustHold allowance user cost now refusal) :=
  .bind (.take fun _ => .same rfl rfl rfl) fun _ => .require

/-! ### Sending and publishing -/

variable (hub : Hub)

/-- A change of what else a session holds moves nobody. -/
theorem quiet_modifySession (user : UserId) {update : Session → Session}
    (kept : ∀ session, (update session).connId = session.connId ∧
      (update session).room = session.room) : Quiet may hub (hub.modifySession user update) := by
  refine .same rfl rfl (funext fun other => ?_)
  show ((hub.sessions.modify user update).lookup other).map _ = _
  rw [Map.lookup_modify]
  split
  · rename_i same
    rw [Option.map_map]
    refine congrArg (Option.map · _) (funext fun session => ?_)
    exact Prod.ext (kept session).1 (kept session).2
  · rfl

theorem quiet_log {effects : List Effect} (quiet : effects.filterMap Effect.out = []) :
    Quiet may hub { hub with log := hub.log ++ effects } :=
  ⟨rfl, ⟨effects, rfl, quiet⟩, fun _ _ => rfl⟩

theorem quiet_send (connections : List ConnId) {event : Event} (quiet : event.out = none) :
    Quiet may hub (hub.send connections event) := by
  refine quiet_log hub ?_
  rw [List.filterMap_map, List.filterMap_eq_nil_iff]
  exact fun _ _ => quiet

theorem quiet_announcePresence (user : UserId) : Quiet may hub (hub.announcePresence user) := by
  unfold announcePresence
  split
  · exact quiet_send hub _ rfl
  · exact .same rfl rfl rfl

theorem quiet_broadcastPeers (room : RoomId) (except : Option UserId) :
    Quiet may hub (hub.broadcastPeers room except) := by
  unfold broadcastPeers
  split
  · exact .same rfl rfl rfl
  · exact quiet_send hub _ rfl

theorem quiet_tellAudiences (room : RoomId) (member : UserId) :
    Quiet may hub (tellAudiences room hub member) := by
  unfold tellAudiences
  split
  · exact .same rfl rfl rfl
  · have counted : Quiet may hub (hub.audiencesIn room member).2 :=
      quiet_modifySession hub member fun _ => ⟨rfl, rfl⟩
    exact counted.trans (quiet_send _ _ rfl)

/-- What every step of a fold keeps quiet about, the fold does. -/
theorem quiet_foldl {Item : Type} {step : Hub → Item → Hub}
    {items : List Item} (quiet : ∀ (hub : Hub), ∀ item ∈ items, Quiet may hub (step hub item)) :
    Quiet may hub (items.foldl step hub) := by
  induction items generalizing hub with
  | nil => exact .same rfl rfl rfl
  | cons item rest inductionHypothesis =>
    refine (quiet hub item List.mem_cons_self).trans (inductionHypothesis _ ?_)
    exact fun hub other member => quiet hub other (List.mem_cons_of_mem _ member)

theorem quiet_rebuildRoutes : Quiet may hub hub.rebuildRoutes := by
  have told : ∀ (changed : List (RoomId × List Audience)) (start : Hub), Quiet may start
      (changed.foldl
        (fun hub entry =>
          ((hub.rooms.lookup entry.1).map fun entry => ascending entry.members).getD []
            |>.foldl (tellAudiences entry.1) hub)
        start) := by
    intro changed start
    refine quiet_foldl start fun hub entry _ => quiet_foldl hub fun hub member _ => ?_
    exact quiet_tellAudiences hub entry.1 member
  have published : Quiet may hub
      { hub with
        table := hub.seating.routes
        audiences := .ofList ((hub.rooms.toList.map fun entry =>
          (entry.1, hub.seating.audiencesNow entry.2)).filter fun entry => entry.2 ≠ []) } :=
    .same rfl rfl rfl
  exact published.trans (told _ _)

theorem quiet_placement (user : UserId) : Quiet may hub (hub.placement user).2 := by
  unfold placement
  split
  · exact .same rfl rfl rfl
  · split
    · exact .same rfl rfl rfl
    · exact quiet_modifySession hub user fun _ => ⟨rfl, rfl⟩

/-! ### Moving -/

theorem keeps_nextEpochs {rooms : List RoomId} : KeepsQuiet may (nextEpochs rooms) := by
  induction rooms with
  | nil => exact .pure
  | cons room rest inductionHypothesis =>
    exact keeps_roomEntry.bind fun _ => .bind .require fun _ => inductionHypothesis.bind fun _ => .pure

theorem invites_setEpochs (epochs : List (RoomId × Epoch)) (db : Database) :
    (Database.setEpochs epochs db).invites = db.invites := by
  unfold Database.setEpochs
  induction epochs generalizing db with
  | nil => rfl
  | cons entry rest inductionHypothesis => exact inductionHypothesis _

theorem keeps_bumpEpochs {rooms : List RoomId} : KeepsQuiet may (bumpEpochs rooms) :=
  keeps_nextEpochs.bind fun _ => .bind (keeps_write fun db => invites_setEpochs _ db) fun _ =>
    .change fun _ => ⟨rfl, ⟨[.stored _], rfl, rfl⟩, fun _ _ => rfl⟩

theorem keeps_allocateFor {target : Option RoomId} : KeepsQuiet may (allocateFor target) := by
  cases target with
  | none => exact .pure
  | some room =>
    refine .map (.bind (keeps_call fun db => ?_) fun _ => .bind .okOr fun _ =>
      .bind (.change fun _ => .same rfl rfl rfl) fun _ => .pure)
    unfold Database.allocateMediaIds
    dsimp only
    split <;> rfl

theorem quiet_removeMember (room : RoomId) (user : UserId) :
    Quiet may hub (hub.removeMember room user) := .same rfl rfl rfl

theorem quiet_insertMember (room : RoomId) (user : UserId) :
    Quiet may hub (hub.insertMember room user) := .same rfl rfl rfl

theorem quiet_setMembership {user : UserId} (moves : may user) (room : Option RoomId)
    (tracks : Option Tracks) : Quiet may hub (hub.setMembership user room tracks) := by
  unfold setMembership
  split
  · exact .same rfl rfl rfl
  · refine ⟨rfl, .refl hub, fun other still => ?_⟩
    have elsewhere : other ≠ user := fun same => still (same ▸ moves)
    show ((hub.sessions.insert user _).lookup other).map _ = _
    rw [Finmap.lookup_insert_of_ne _ elsewhere]
    rfl

theorem quiet_announceMove (user : UserId) : Quiet may hub (hub.announceMove user) := by
  unfold announceMove
  split
  · exact quiet_send hub _ rfl
  · exact quiet_send hub _ rfl

theorem quiet_moved {user : UserId} (moves : may user) (current target : Option RoomId) (tracks : Option Tracks) :
    Quiet may hub (hub.moved user current target tracks) := by
  unfold moved
  dsimp only
  refine Quiet.trans ?_ (quiet_rebuildRoutes _)
  refine Quiet.trans ?_ (quiet_announceMove _ user)
  refine Quiet.trans ?_ (quiet_foldl _ fun hub room _ => quiet_broadcastPeers hub room _)
  refine Quiet.trans ?_ (quiet_foldl _ fun hub room _ => quiet_broadcastPeers hub room _)
  refine Quiet.trans ?_ (quiet_setMembership _ moves target tracks)
  refine Quiet.trans ?_ (quiet_foldl _ fun hub room _ => quiet_insertMember hub room user)
  exact quiet_foldl hub fun hub room _ => quiet_removeMember hub room user

theorem keeps_checkTarget {session : Session} {target : Option RoomId} {unixNow : Nat} :
    KeepsQuiet may (checkTarget session target unixNow) := by
  cases target with
  | none => exact .pure
  | some room => exact keeps_roomEntry.bind fun _ => .bind .require fun _ => .require

theorem keeps_place {user : UserId} {target : Option RoomId} {clock : Clock} (moves : may user) :
    KeepsQuiet may (place user target clock) := by
  refine keeps_session.bind fun session => ?_
  split
  · exact .take fun hub => quiet_placement hub user
  · exact keeps_checkTarget.bind fun _ => keeps_allocateFor.bind fun _ =>
      keeps_bumpEpochs.bind fun _ => .bind (.change fun hub => quiet_moved hub moves _ _ _) fun _ =>
        .take fun hub => quiet_placement hub user

theorem quiet_expel {user : UserId} (moves : may user) (room : RoomId) :
    Quiet may hub (hub.expel user room) := by
  unfold expel
  dsimp only
  refine Quiet.trans ?_ (quiet_rebuildRoutes _)
  refine Quiet.trans ?_ (quiet_send _ _ rfl)
  refine Quiet.trans ?_ (quiet_broadcastPeers _ room none)
  exact (quiet_removeMember hub room user).trans (quiet_setMembership _ moves none none)

theorem quiet_leaveRoom {user : UserId} (moves : may user) (clock : Clock) :
    Quiet may hub (hub.leaveRoom user clock) := by
  have placed : Quiet may hub (place user none clock hub).2 := keeps_place moves hub
  unfold leaveRoom
  split
  · exact .same rfl rfl rfl
  · generalize place user none clock hub = outcome at placed
    obtain ⟨failure | result, after⟩ := outcome
    · dsimp only
      split
      · exact placed
      · exact placed.trans (quiet_expel after moves _)
    · exact placed

theorem quiet_endSession {user : UserId} (moves : may user) :
    Quiet may hub (hub.endSession user) := by
  refine ⟨rfl, .refl hub, fun other still => ?_⟩
  have elsewhere : other ≠ user := fun same => still (same ▸ moves)
  show ((hub.sessions.erase user).lookup other).map _ = _
  rw [Finmap.lookup_erase_ne elsewhere]
  rfl

theorem quiet_evict {user : UserId} (moves : may user) (reason : String) (clock : Clock) :
    Quiet may hub (hub.evict user reason clock) := by
  have left : Quiet may hub (hub.leaveRoom user clock) := quiet_leaveRoom hub moves clock
  unfold evict
  generalize hub.leaveRoom user clock = after at left
  dsimp only
  split
  · exact left
  · exact left.trans ((quiet_endSession after moves).trans (quiet_log _ rfl))

/-- A placement is handed over without telling anyone that they are out of a room. -/
theorem quiet_handOver (user : UserId) (placement : Placement) :
    Quiet may hub (hub.handOver user placement) := by
  refine quiet_log hub ?_
  cases hub.seats.lookup user <;> rfl

theorem quiet_remember (user : UserId) (target : Option RoomId) :
    Quiet may hub (hub.remember user target) := by
  unfold remember
  split
  · exact .same rfl rfl rfl
  · exact .same rfl rfl rfl

/-! ### Joining and connecting -/

theorem keeps_entersAnotherRoom {user : UserId} {target : Option RoomId} :
    KeepsQuiet may (entersAnotherRoom user target) := by
  cases target with
  | none => exact .pure
  | some room => exact keeps_session.bind fun _ => .pure

theorem keeps_passwordToEnter {user : UserId} {room : RoomId} :
    KeepsQuiet may (passwordToEnter user room) := by
  refine keeps_roomEntry.bind fun entry => ?_
  split
  · exact .pure
  · exact keeps_session.bind fun _ => .pure

theorem keeps_enter {user : UserId} {target : Option RoomId} {clock : Clock} (moves : may user) :
    KeepsQuiet may (enter user target clock) :=
  keeps_entersAnotherRoom.bind fun _ => .bind (.onlyIf keeps_mustTake) fun _ =>
    (keeps_place moves).bind fun _ => .bind (.change fun hub => quiet_handOver hub user _) fun _ =>
      .bind (.change fun hub => quiet_remember hub user target) fun _ => .pure

theorem keeps_mayGuess {user : UserId} {room : RoomId} {now : Instant} :
    KeepsQuiet may (mayGuess user room now) := by
  refine .bind (.take fun _ => .same rfl rfl rfl) fun waits => ?_
  split
  · exact .pure
  · exact .fail
  · exact .fail

theorem keeps_requireSpace {user : UserId} {room : RoomId} : KeepsQuiet may (requireSpace user room) :=
  keeps_session.bind fun _ => .onlyIf (keeps_roomEntry.bind fun _ => .require)

theorem keeps_askPassword {user : UserId} {room : RoomId} {password : Option String}
    {hash : String} {now : Instant} : KeepsQuiet may (askPassword user room password hash now) := by
  cases password with
  | none => exact .fail
  | some password => exact keeps_mayGuess.bind fun _ => keeps_mustTake.bind fun _ => .pure

theorem keeps_joinRoom {user : UserId} {room : RoomId} {password : Option String}
    {clock : Clock} (moves : may user) : KeepsQuiet may (joinRoom user room password clock) := by
  refine keeps_requireSpace.bind fun _ => keeps_passwordToEnter.bind fun needed => ?_
  split
  · exact .map (keeps_enter moves)
  · exact keeps_askPassword

theorem keeps_join {user : UserId} {target : Option RoomId} {password : Option String}
    {clock : Clock} (moves : may user) : KeepsQuiet may (join user target password clock) := by
  refine keeps_entersAnotherRoom.bind fun _ => .bind (.onlyIf keeps_mustHold) fun _ => ?_
  cases target with
  | none => exact .map (keeps_enter moves)
  | some room => exact keeps_joinRoom moves

theorem keeps_finishJoin {user : UserId} {room : RoomId} {hash : String} {matched : Bool}
    {clock : Clock} (moves : may user) :
    KeepsQuiet may (finishJoin user room hash matched clock) := by
  unfold finishJoin
  split
  · exact .bind (.change fun _ => .same rfl rfl rfl) fun _ => keeps_passwordToEnter.bind fun _ =>
      .bind .require fun _ => keeps_enter moves
  · exact .bind (.change fun _ => .same rfl rfl rfl) fun _ => .fail

theorem quiet_rejoin {user : UserId} (moves : may user) (room : RoomId) (clock : Clock) :
    Quiet may hub (hub.rejoin user room clock).2 := by
  unfold rejoin
  generalize (if hub.lastJoined.lookup user = some room then Allowance.rejoins
    else Allowance.roomChanges) = allowance
  have held : Quiet may hub (hub.holdsIn allowance user 1 clock.now).2 := .same rfl rfl rfl
  dsimp only
  generalize hub.holdsIn allowance user 1 clock.now = looked at held
  obtain ⟨enough, waiting⟩ := looked
  dsimp only at held ⊢
  split
  · have placed : Quiet may waiting (place user (some room) clock waiting).2 :=
      keeps_place moves waiting
    generalize place user (some room) clock waiting = outcome at placed
    obtain ⟨failure | placement, after⟩ := outcome
    · exact held.trans placed
    · exact (held.trans placed).trans (.same rfl rfl rfl)
  · exact held

theorem quiet_startingPlacement {user : UserId} (moves : may user) (wantRoom : Option RoomId) (clock : Clock) :
    Quiet may hub (hub.startingPlacement user wantRoom clock).2 := by
  unfold startingPlacement
  split
  · exact .same rfl rfl rfl
  · exact quiet_rejoin hub moves _ clock

theorem quiet_profileOrDefault : Quiet may hub hub.profileOrDefault.2 := by
  have looked : Quiet may hub (read (·.serverProfile) hub).2 := keeps_read hub
  unfold profileOrDefault
  generalize read (·.serverProfile) hub = outcome at looked
  obtain ⟨failure | profile, after⟩ := outcome
  · exact looked
  · exact looked

theorem quiet_openSession {row : UserRow} (moves : may row.id) :
    Quiet may hub (hub.openSession row) := by
  refine ⟨rfl, .refl hub, fun other still => ?_⟩
  have elsewhere : other ≠ row.id := fun same => still (same ▸ moves)
  show ((hub.sessions.insert row.id _).lookup other).map _ = _
  rw [Finmap.lookup_insert_of_ne _ elsewhere]
  rfl

theorem quiet_welcome {row : UserRow} (moves : may row.id) (wantRoom : Option RoomId)
    (clock : Clock) :
    Quiet may hub (hub.welcome row wantRoom clock).2 := by
  unfold welcome
  dsimp only
  refine Quiet.trans ?_ (quiet_profileOrDefault _)
  refine Quiet.trans ?_ (quiet_handOver _ row.id _)
  refine Quiet.trans ?_ (quiet_startingPlacement _ moves wantRoom clock)
  refine (quiet_evict hub moves "you signed in from somewhere else" clock).trans ?_
  exact quiet_openSession _ moves

theorem keeps_connect {row : UserRow} {wantRoom : Option RoomId} {clock : Clock}
    (moves : ∀ user, may user) : KeepsQuiet may (connect row wantRoom clock) := by
  refine keeps_read.bind fun stored => ?_
  split
  · exact .pure
  · refine .bind (keeps_write fun _ => rfl) fun _ => .bind .current fun _ => ?_
    split
    · exact .pure
    · exact .map (.take fun hub => quiet_welcome hub (moves _) wantRoom clock)

theorem quiet_disconnect {user : UserId} (moves : may user) (conn : ConnId) (clock : Clock) :
    Quiet may hub (hub.disconnect user conn clock) := by
  unfold disconnect
  split
  · exact (quiet_leaveRoom hub moves clock).trans (quiet_endSession _ moves)
  · exact .same rfl rfl rfl

/-! ### Requests -/

theorem keeps_checkedName {name : String} : KeepsQuiet may (checkedName name) := .okOr

theorem keeps_setProfile {user : UserId} {name : String} {avatar : Option Hash} {clock : Clock} :
    KeepsQuiet may (setProfile user name avatar clock) :=
  keeps_checkedName.bind fun _ => keeps_requirePicture.bind fun _ => keeps_session.bind fun _ =>
    .bind .require fun _ => .bind (keeps_write fun _ => rfl) fun _ =>
      .bind (.change fun hub => quiet_modifySession hub user fun _ => ⟨rfl, rfl⟩) fun _ =>
        .bind (.change fun hub => quiet_announcePresence hub user) fun _ => .pure

theorem keeps_announceServerProfile : KeepsQuiet may announceServerProfile :=
  keeps_read.bind fun _ => .bind (.change fun hub => quiet_send hub _ rfl) fun _ => .pure

theorem keeps_checkedServerName {name : Option String} :
    KeepsQuiet may (checkedServerName name) := by
  unfold checkedServerName
  split
  · exact .pure
  · split
    · exact .pure
    · exact .map keeps_checkedName

theorem keeps_setServerName {user : UserId} {name : Option String} :
    KeepsQuiet may (setServerName user name) :=
  keeps_role.bind fun _ => .bind .require fun _ => keeps_checkedServerName.bind fun _ =>
    .bind (keeps_write fun _ => rfl) fun _ => keeps_announceServerProfile

theorem keeps_setServerAvatar {user : UserId} {avatar : Option Hash} :
    KeepsQuiet may (setServerAvatar user avatar) :=
  keeps_role.bind fun _ => .bind .require fun _ => keeps_requirePicture.bind fun _ =>
    .bind (keeps_write fun _ => rfl) fun _ => keeps_announceServerProfile

theorem keeps_setAvatar {primitives : Primitives} {user : UserId} {bytes : List UInt8}
    {clock : Clock} : KeepsQuiet may (setAvatar primitives user bytes clock) :=
  .bind .require fun _ => keeps_mustTake.bind fun _ => .bind (keeps_write fun _ => rfl) fun _ =>
    .bind (keeps_write fun _ => rfl) fun _ => .pure

theorem keeps_getAvatar {hash : Hash} : KeepsQuiet may (getAvatar hash) :=
  keeps_read.bind fun _ => .map .okOr

theorem keeps_setEncryptionKey {primitives : Primitives} {user : UserId}
    {encryptionKey : SignedEncryptionKey} {clock : Clock} :
    KeepsQuiet may (setEncryptionKey primitives user encryptionKey clock) := by
  refine keeps_session.bind fun session => .bind .require fun _ => ?_
  dsimp only
  split
  · exact .pure
  · refine .bind .current fun _ => .bind .require fun _ => .bind (.onlyIf keeps_mustTake) fun _ =>
      .bind (keeps_write fun _ => rfl) fun _ =>
        .bind (.change fun hub => quiet_modifySession hub user fun _ => ⟨rfl, rfl⟩) fun _ => ?_
    split
    · exact .pure
    · exact .bind (.onlyIf keeps_bumpEpochs) fun _ =>
        .bind (.change fun hub => quiet_broadcastPeers hub _ none) fun _ => .pure

theorem quiet_applyMedia (user : UserId) (room : RoomId) (stored applied : MediaState) :
    Quiet may hub (hub.applyMedia user room stored applied) := by
  unfold applyMedia
  dsimp only
  refine Quiet.trans ?_ (quiet_announcePresence _ user)
  have stored : Quiet may hub
      (hub.modifySession user fun session => { session with media := applied }) :=
    quiet_modifySession hub user fun _ => ⟨rfl, rfl⟩
  split
  · refine Quiet.trans ?_ (quiet_rebuildRoutes _)
    split
    · exact stored.trans (quiet_broadcastPeers _ room none)
    · exact stored
  · split
    · exact stored.trans (quiet_broadcastPeers _ room none)
    · exact stored

theorem keeps_setMedia {user : UserId} {media : MediaState} {clock : Clock} :
    KeepsQuiet may (setMedia user media clock) := by
  refine keeps_currentRoom.bind fun room => keeps_session.bind fun session =>
    .bind .current fun _ => .bind (.take fun hub => ?_) fun limited => ?_
  · unfold limitShare
    split
    · exact .same rfl rfl rfl
    · exact .same rfl rfl rfl
  · exact .bind (.change fun hub => quiet_applyMedia hub user room _ _) fun _ =>
      .bind .require fun _ => .bind .require fun _ => .pure

theorem quiet_withKeyframes (keyframes : KeyframeAggregator) : Quiet may hub { hub with keyframes } :=
  .same rfl rfl rfl

theorem quiet_askKeyframe (mediaId : MediaId) (kind : Recovery) (now : Instant) :
    Quiet may hub (hub.askKeyframe mediaId kind now) := by
  unfold askKeyframe
  split
  · dsimp only
    split
    · exact (quiet_withKeyframes hub _).trans (quiet_send _ _ rfl)
    · exact quiet_withKeyframes hub _
  · exact .same rfl rfl rfl

theorem keeps_setWatched {user : UserId} {ids : List MediaId} {clock : Clock} :
    KeepsQuiet may (setWatched user ids clock) :=
  .bind .require fun _ => keeps_currentRoom.bind fun _ => .bind .current fun _ =>
    .bind .require fun _ => keeps_session.bind fun _ =>
      .bind (.change fun hub => quiet_modifySession hub user fun _ => ⟨rfl, rfl⟩) fun _ =>
      .bind (.change fun hub => quiet_rebuildRoutes hub) fun _ =>
        .bind (.change fun hub =>
          quiet_foldl hub fun hub id _ => quiet_askKeyframe hub id .idr clock.now) fun _ => .pure

theorem keeps_requestKeyframe {user : UserId} {mediaId : MediaId} {kind : Recovery}
    {clock : Clock} : KeepsQuiet may (requestKeyframe user mediaId kind clock) :=
  keeps_session.bind fun _ => .bind .require fun _ => .bind .current fun _ =>
    .bind .require fun _ =>
      .bind (.change fun hub => quiet_askKeyframe hub mediaId kind clock.now) fun _ => .pure

theorem quiet_flushKeyframes (clock : Clock) : Quiet may hub (hub.flushKeyframes clock) := by
  unfold flushKeyframes
  dsimp only
  refine (quiet_withKeyframes hub _).trans (quiet_foldl _ fun hub request _ => ?_)
  split
  · exact quiet_send hub _ rfl
  · exact quiet_withKeyframes hub _

theorem keeps_checkWrapped {user : UserId} {members seen : Finset UserId}
    {wrapped : List (UserId × List UInt8)} : KeepsQuiet may (checkWrapped user members seen wrapped) := by
  induction wrapped generalizing seen with
  | nil => exact .pure
  | cons entry rest inductionHypothesis =>
    exact .bind .require fun _ => .bind .require fun _ => inductionHypothesis

theorem keeps_publishKey {user : UserId} {epoch : Epoch} {wrapped : List (UserId × List UInt8)} :
    KeepsQuiet may (publishKey user epoch wrapped) :=
  keeps_currentRoom.bind fun _ => keeps_roomEntry.bind fun _ => .bind .require fun _ =>
    keeps_checkWrapped.bind fun _ =>
      .bind (.change fun hub => quiet_foldl hub fun hub _ _ => quiet_send hub _ rfl)
        fun _ => .pure

theorem keeps_roomToCreate {user : UserId} {name : String} :
    KeepsQuiet may (roomToCreate user name) :=
  keeps_role.bind fun _ => .bind .require fun _ => keeps_checkedName.bind fun _ =>
    .bind .current fun _ => .bind .require fun _ => .pure

theorem keeps_addRoom {name : String} {passwordHash : Option String} :
    KeepsQuiet may (addRoom name passwordHash) :=
  .bind (keeps_call fun _ => rfl) fun _ => .bind (.change fun _ => .same rfl rfl rfl) fun _ =>
    .bind (.change fun hub => quiet_send hub _ rfl) fun _ => .pure

theorem keeps_createRoom {user : UserId} {name : String} {password : Option String} :
    KeepsQuiet may (createRoom user name password) := by
  refine keeps_roomToCreate.bind fun name => ?_
  cases password with
  | none => exact .map keeps_addRoom
  | some password => exact .bind .require fun _ => .pure

theorem keeps_renameRoom {user : UserId} {room : RoomId} {name : String} :
    KeepsQuiet may (renameRoom user room name) :=
  keeps_role.bind fun _ => .bind .require fun _ => keeps_checkedName.bind fun _ =>
    keeps_roomEntry.bind fun _ => .bind (keeps_write fun _ => rfl) fun _ =>
      .bind (.change fun _ => .same rfl rfl rfl) fun _ => .bind (.change fun hub => quiet_send hub _ rfl)
        fun _ => .pure

theorem keeps_mayManageRoom {user : UserId} {room : RoomId} :
    KeepsQuiet may (mayManageRoom user room) :=
  keeps_role.bind fun _ => .bind .require fun _ => keeps_roomEntry.bind fun _ => .pure

theorem keeps_storeRoomPassword {room : RoomId} {hash : Option String} :
    KeepsQuiet may (storeRoomPassword room hash) :=
  keeps_roomEntry.bind fun _ => .bind (keeps_write fun _ => rfl) fun _ =>
    .bind (.change fun _ => .same rfl rfl rfl) fun _ => .bind (.change fun hub => quiet_send hub _ rfl)
      fun _ => .pure

theorem keeps_setRoomPassword {user : UserId} {room : RoomId} {password : Option String} :
    KeepsQuiet may (setRoomPassword user room password) := by
  refine keeps_mayManageRoom.bind fun _ => ?_
  cases password with
  | none => exact .map keeps_storeRoomPassword
  | some password => exact .bind .require fun _ => .pure

/-- Moving users out tells none of them. -/
theorem keeps_clearRoom {members : Finset UserId} {clock : Clock}
    (moves : ∀ member ∈ members, may member) : KeepsQuiet may (clearRoom members clock) :=
  .forEach fun _ inside => .bind (keeps_place (moves _ ((mem_ascending members _).mp inside)))
    fun _ => .pure

theorem codes_deleteRoom {user : UserId} {room : RoomId} {clock : Clock} :
    KeepsCodes (deleteRoom user room clock) :=
  looks_role.bind fun _ => .bind .require fun _ => looks_roomEntry.bind fun _ =>
    .bind .current fun _ => .bind .require fun _ =>
      (keeps_clearRoom fun _ _ => trivial).codes.bind fun _ =>
        .bind (KeepsQuiet.codes (keeps_write fun _ => rfl)) fun _ => .bind (.change fun _ => rfl)
          fun _ => .bind (.change fun _ => rfl) fun _ => .pure

theorem keeps_listUsers {user : UserId} : KeepsQuiet may (listUsers user) :=
  keeps_role.bind fun _ => .bind .require fun _ => keeps_read.bind fun _ => .pure

theorem quiet_roleChanged (target : UserId) (role : Role) :
    Quiet may hub (hub.roleChanged target role) := by
  unfold roleChanged
  dsimp only
  have stored : Quiet may hub (hub.modifySession target fun session =>
      { session with row := { session.row with role } }) :=
    quiet_modifySession hub target fun _ => ⟨rfl, rfl⟩
  have announced : ∀ hub : Hub, Quiet may hub ((hub.announcePresence target).emitUserListChange
      (.roleChanged target role)) :=
    fun hub => (quiet_announcePresence hub target).trans (quiet_send _ _ rfl)
  have forgot : Quiet may hub (if ¬ canManageRooms role ∧ (hub.modifySession target fun session =>
      { session with row := { session.row with role } }).lastJoinedLocked target then
        (hub.modifySession target fun session =>
          { session with row := { session.row with role } }).remember target none
      else hub.modifySession target fun session =>
        { session with row := { session.row with role } }) := by
    split
    · exact stored.trans (quiet_remember _ target none)
    · exact stored
  split
  · exact forgot.trans (announced _)
  · exact (forgot.trans (announced _)).trans (quiet_send _ _ rfl)

theorem keeps_setRole {user target : UserId} {role : Role} :
    KeepsQuiet may (setRole user target role) :=
  keeps_role.bind fun _ => .bind .require fun _ => keeps_storedUser.bind fun _ =>
    .bind .require fun _ => .bind (keeps_write fun _ => rfl) fun _ =>
      .bind (.change fun hub => quiet_roleChanged hub target role) fun _ => .pure

theorem codes_kickFromRoom {user target : UserId} {room : RoomId} {clock : Clock} :
    KeepsCodes (kickFromRoom user target room clock) :=
  looks_role.bind fun _ => .bind .current fun _ => .bind .okOr fun _ => .bind .require fun _ =>
    .bind (.change fun hub =>
      (@quiet_leaveRoom (fun _ => True) (hub.remember target none) target trivial clock).codes)
      fun _ => .pure

theorem quiet_freeKeyPublish (user : UserId) (epoch : Epoch) :
    Quiet may hub (hub.freeKeyPublish user epoch).2 := by
  unfold freeKeyPublish
  split
  · exact .same rfl rfl rfl
  · split
    · exact .same rfl rfl rfl
    · split
      · exact quiet_modifySession hub user fun _ => ⟨rfl, rfl⟩
      · exact .same rfl rfl rfl

theorem quiet_isFree (user : UserId) (request : Request) :
    Quiet may hub (hub.isFree user request).2 := by
  unfold isFree
  split
  · exact quiet_freeKeyPublish hub user _
  · exact .same rfl rfl rfl

/-- The request asks to move its user. -/
def asksToMove : Request → Bool
  | .joinRoom _ _ => true
  | .leaveRoom => true
  | _ => false

/-- The request mints no invite, removes nobody and puts nobody else out of a room. -/
def isPlain : Request → Bool
  | .createInvite => false
  | .removeUser _ _ => false
  | .deleteRoom _ => false
  | .kickFromRoom _ _ => false
  | _ => true

/-- A plain request moves at most its user. -/
theorem keeps_perform {primitives : Primitives} {user : UserId} {request : Request}
    {draws : Nat → Fin (idChars + secretChars) → UInt8} {clock : Clock}
    (plain : isPlain request = true) (moves : asksToMove request = true → may user) :
    KeepsQuiet may (perform primitives user request draws clock) := by
  cases request with
  | createInvite => cases plain
  | removeUser target cascade => cases plain
  | deleteRoom room => cases plain
  | kickFromRoom target room => cases plain
  | joinRoom room password => exact keeps_join (moves rfl)
  | leaveRoom => exact @keeps_join _ user none none clock (moves rfl)
  | createRoom name password => exact keeps_createRoom
  | setRoomPassword room password => exact keeps_setRoomPassword
  | setProfile name avatar => exact .map keeps_setProfile
  | uploadAvatar bytes => exact .map keeps_setAvatar
  | fetchAvatar hash => exact .map keeps_getAvatar
  | setEncryptionKey encryptionKey => exact .map keeps_setEncryptionKey
  | setMedia media => exact .map keeps_setMedia
  | renameRoom room name => exact .map keeps_renameRoom
  | listUsers => exact .map keeps_listUsers
  | setRole target role => exact .map keeps_setRole
  | setWatched ids => exact .map keeps_setWatched
  | requestKeyframe mediaId kind => exact .map keeps_requestKeyframe
  | publishSenderKey epoch wrapped => exact .map keeps_publishKey
  | setServerName name => exact .map keeps_setServerName
  | setServerAvatar avatar => exact .map keeps_setServerAvatar

theorem keeps_finish {user : UserId} {conn : ConnId} {done : PasswordDone} {clock : Clock}
    (moves : ∀ room hash matched, done = .join room hash matched → may user) :
    KeepsQuiet may (finish user conn done clock) := by
  refine keeps_requireCurrent.bind fun _ => ?_
  cases done with
  | join room hash matched => exact keeps_finishJoin (moves room hash matched rfl)
  | createRoom name hash =>
    exact .bind .okOr fun _ => keeps_roomToCreate.bind fun _ => keeps_addRoom
  | setRoomPassword room hash =>
    exact .bind .okOr fun _ => keeps_mayManageRoom.bind fun _ => keeps_storeRoomPassword

end Hub

/-! ### What happens to invites -/

namespace Codes

variable (codes : Codes)

/-- Deletes the invites that have expired. -/
def purged (now : Nat) : Codes :=
  { codes with invites := codes.invites.retain fun _ invite => now < invite.expiresAt }

/-- Adds an invite. -/
def mint (invite : InviteRow) : Codes :=
  { codes with
    invites := codes.invites.insert invite.codeId invite
    minted := codes.minted ++ [invite] }

/-- Deletes the invites that removed users minted. -/
def without (ids : List UserId) : Codes :=
  { codes with
    invites :=
      ids.foldl (fun invites id => invites.retain fun _ invite => invite.mintedBy ≠ some id)
        codes.invites }

/-- Uses up one try of an invite, for a run that begins. -/
def claim (codeId : String) : Codes :=
  { codes with
    invites :=
      codes.invites.modify codeId fun invite => { invite with failures := invite.failures + 1 }
    runs := codes.runs.insert codeId ((codes.runs.lookup codeId).getD 0 + 1) }

/-- Deletes an invite that has been used, or burned. -/
def spend (codeId : String) : Codes := { codes with invites := codes.invites.erase codeId }

/-- Whether no other run is in flight on an invite of which one ends. -/
def last (codeId : String) : Bool := ((codes.runs.lookup codeId).getD 0 - 1 = 0 : Bool)

/-- Ends one run. -/
def leave (codeId : String) : Codes :=
  { codes with
    runs :=
      if codes.last codeId then codes.runs.erase codeId
      else codes.runs.insert codeId ((codes.runs.lookup codeId).getD 0 - 1) }

/-- Drops every run and deletes the invites that have used up their tries. -/
def restart : Codes :=
  { codes with
    invites := codes.invites.retain fun _ invite => invite.failures < inviteTries
    runs := ∅ }

theorem lookup_without (ids : List UserId) (codeId : String) :
    (codes.without ids).invites.lookup codeId =
      (codes.invites.lookup codeId).filter fun invite => ∀ id ∈ ids, invite.mintedBy ≠ some id := by
  unfold without
  dsimp only
  generalize codes.invites = invites
  induction ids generalizing invites with
  | nil =>
    rw [List.foldl_nil]
    cases invites.lookup codeId <;> simp [Option.filter]
  | cons id rest inductionHypothesis =>
    rw [List.foldl_cons, inductionHypothesis, Map.lookup_retain]
    cases invites.lookup codeId with
    | none => rfl
    | some invite =>
      by_cases minter : invite.mintedBy = some id
      · simp [Option.filter, minter]
      · simp [Option.filter, minter]

end Codes

end Throcc
