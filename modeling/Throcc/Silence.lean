/-
This file goes through what the server does that changes nothing a client shows
of the rooms and of who is in them. Such a step says nothing of it either, and
sends nothing to a connection that nobody sits on.
-/

import Throcc.Replica

namespace Throcc

namespace Hub

open Attempt

variable {hidden : Set UserId} {Result : Type} (hub : Hub)

/-! ### Calls, sends and routes -/

theorem Silent.of_same {before after : Hub} (log : after.log = before.log)
    (seats : after.seats = before.seats) (rooms : after.rooms = before.rooms) :
    Silent hidden before after := by
  refine ⟨⟨[], log.trans (List.append_nil _).symm, List.forall_mem_nil _⟩, fun _ _ => ?_, ?_,
    fun user _ => ?_, ?_⟩
  · unfold sentTo
    rw [log]
  · unfold lineOf
    rw [seats]
  · unfold presenceOf
    rw [seats]
  · unfold shownRoom
    rw [rooms]

theorem Silent.mono {fewer : Set UserId} {before after : Hub} (silent : Silent fewer before after)
    (less : fewer ⊆ hidden) : Silent hidden before after :=
  { silent with presence := fun user shown => silent.presence user fun member => shown (less member) }

theorem Silent.of_idle {clock : Clock} {before after : Hub} (idle : Idle clock before after) :
    Silent hidden before after := by
  have log := congrArg Hub.log idle.same
  have core := idle.core
  exact .of_same log (congrArg (fun core => core.seats) core) (congrArg (fun core => core.rooms) core)

theorem silent_call {statement : Database → Result × Database} :
    (call statement).Follows (Silent hidden) := by
  intro hub
  unfold call
  split
  · exact .of_same rfl rfl rfl
  · exact .of_same rfl rfl rfl

theorem presenceOf_eq (user : UserId) :
    hub.presenceOf user = (hub.sessions.lookup user).bind fun session => presence session.toSeat := by
  rw [presenceOf, seats_lookup]
  cases hub.sessions.lookup user <;> rfl

theorem lineOf_eq (user : UserId) :
    hub.lineOf user =
      (hub.sessions.lookup user).map fun session => (session.connId, session.row.id) := by
  rw [lineOf, seats_lookup, Option.map_map]
  rfl

/-- A change of one session that keeps its connection and whose it is. -/
theorem Silent.of_session {before after : Hub} {user : UserId} {update : Session → Session}
    (log : after.log = before.log) (rooms : after.rooms = before.rooms)
    (found : ∀ other, after.sessions.lookup other =
      if other = user then (before.sessions.lookup other).map update
      else before.sessions.lookup other)
    (kept : ∀ session, (update session).connId = session.connId ∧
      (update session).row.id = session.row.id)
    (same : user ∈ hidden ∨
      ∀ session, Throcc.presence (update session).toSeat = Throcc.presence session.toSeat) :
    Silent hidden before after := by
  refine ⟨⟨[], log.trans (List.append_nil _).symm, List.forall_mem_nil _⟩,
    fun _ _ => by unfold sentTo; rw [log], funext fun other => ?_, fun other shown => ?_,
    by unfold shownRoom; rw [rooms]⟩
  · rw [lineOf_eq, lineOf_eq, found]
    split
    · rw [Option.map_map]
      exact congrArg (Option.map · _) (funext fun session => Prod.ext (kept session).1 (kept session).2)
    · rfl
  · rw [presenceOf_eq, presenceOf_eq, found]
    split
    · rename_i mine
      obtain member | same := same
      · exact absurd (mine ▸ member) shown
      · cases before.sessions.lookup other with
        | none => rfl
        | some session => exact same session
    · rfl

theorem silent_modifySession {user : UserId} {update : Session → Session}
    (kept : ∀ session, (update session).connId = session.connId ∧
      (update session).row.id = session.row.id)
    (same : user ∈ hidden ∨ ∀ session, presence (update session).toSeat = presence session.toSeat) :
    Silent hidden hub (hub.modifySession user update) :=
  .of_session rfl rfl (fun other => Map.lookup_modify hub.sessions user other update) kept same

/-- What leaves the hub without being sent to anyone. -/
theorem silent_log {effects : List Effect}
    (unsent : ∀ effect ∈ effects, ∀ conn, effect.eventTo conn = none) :
    Silent hidden hub { hub with log := hub.log ++ effects } := by
  refine ⟨⟨effects, rfl, fun effect member => ?_⟩, fun conn _ => ?_, rfl, fun _ _ => rfl, rfl⟩
  · cases effect with
    | sent conn event =>
      have sent : (if conn = conn then some event else none) = none := unsent _ member conn
      rw [if_pos rfl] at sent
      cases sent
    | _ => rfl
  · unfold sentTo
    rw [List.filterMap_append,
      List.filterMap_eq_nil_iff.mpr fun effect member => unsent effect member conn, List.append_nil]

theorem silent_send {connections : List ConnId} {event : Event}
    (seated : ∀ conn ∈ connections, ∃ user seat, hub.seats.lookup user = some seat ∧ seat.connId = conn)
    (quiet : event.shows = false) : Silent hidden hub (hub.send connections event) := by
  refine ⟨⟨_, rfl, fun effect member => ?_⟩, fun conn unseated => ?_, rfl, fun _ _ => rfl, rfl⟩
  · obtain ⟨_, _, rfl⟩ := List.mem_map.mp member
    exact quiet
  · rw [sentTo_send, List.count_eq_zero.mpr, List.replicate_zero, List.append_nil]
    intro member
    obtain ⟨user, seat, found, rfl⟩ := seated conn member
    refine unseated user seat.row.id ?_
    rw [lineOf, found]
    rfl

theorem silent_emitTo (user : UserId) {event : Event} (quiet : event.shows = false) :
    Silent hidden hub (hub.emitTo user event) := by
  refine hub.silent_send (fun conn member => ?_) quiet
  obtain ⟨seat, found, same⟩ := List.mem_map.mp member
  exact ⟨user, seat, Option.mem_toList.mp found, same⟩

theorem silent_emitAll {event : Event} (quiet : event.shows = false) :
    Silent hidden hub (hub.emitAll event) := by
  refine hub.silent_send (fun conn member => ?_) quiet
  obtain ⟨⟨user, seat⟩, found, same⟩ := List.mem_map.mp member
  exact ⟨user, seat, (Map.mem_toList _ _ _).mp found, same⟩

theorem silent_emitUserListChange {event : Event} (quiet : event.shows = false) :
    Silent hidden hub (hub.emitUserListChange event) := by
  refine hub.silent_send (fun conn member => ?_) quiet
  obtain ⟨⟨user, seat⟩, listed, same⟩ := List.mem_map.mp member
  exact ⟨user, seat, (Map.mem_toList _ _ _).mp (List.mem_of_mem_filter listed), same⟩

theorem silent_emitRoom (room : RoomId) (except : Option UserId) {event : Event}
    (quiet : event.shows = false) : Silent hidden hub (hub.emitRoom room event except) := by
  refine hub.silent_send (fun conn member => ?_) quiet
  unfold Seating.membersExcept at member
  split at member
  · cases member
  · obtain ⟨user, _, found⟩ := List.mem_filterMap.mp member
    obtain ⟨seat, found, same⟩ := Option.map_eq_some_iff.mp found
    exact ⟨user, seat, found, same⟩

theorem silent_broadcastPeers (room : RoomId) (except : Option UserId) :
    Silent hidden hub (hub.broadcastPeers room except) := by
  unfold broadcastPeers
  split
  · exact refl_of (Silent hidden) hub
  · exact hub.silent_emitRoom room except rfl

theorem silent_audiencesIn (room : RoomId) (user : UserId) :
    Silent hidden hub (hub.audiencesIn room user).2 :=
  hub.silent_modifySession (fun _ => ⟨rfl, rfl⟩) (.inr fun _ => rfl)

theorem silent_tellAudiences (room : RoomId) (member : UserId) :
    Silent hidden hub (tellAudiences room hub member) := by
  unfold tellAudiences
  split
  · exact refl_of (Silent hidden) hub
  · rename_i session found
    refine trans_of (Silent hidden) (hub.silent_audiencesIn room member) (silent_send _ ?_ rfl)
    intro conn listed
    rw [List.mem_singleton.mp listed]
    refine ⟨member, session.toSeat, ?_, rfl⟩
    rw [seats_lookup]
    unfold audiencesIn
    rw [Map.lookup_modify_self, found]
    rfl

/-- A fold leads where its steps lead. -/
theorem related_foldl (relation : Hub → Hub → Prop) [IsPreorder Hub relation] {Item : Type}
    {step : Hub → Item → Hub} (related : ∀ hub item, relation hub (step hub item))
    (items : List Item) : relation hub (items.foldl step hub) :=
  run_invariant step (relation hub) (refl_of relation hub)
    (fun between item before => trans_of relation before (related between item)) items

theorem silent_rebuildRoutes : Silent hidden hub hub.rebuildRoutes := by
  unfold rebuildRoutes
  dsimp only
  refine trans_of (Silent hidden) ?_ (related_foldl _ (Silent hidden) (fun hub entry => ?_) _)
  · exact .of_same rfl rfl rfl
  · exact related_foldl hub (Silent hidden) (fun hub member => hub.silent_tellAudiences entry.1 member) _

theorem silent_placement (user : UserId) : Silent hidden hub (hub.placement user).2 := by
  unfold placement
  split
  · exact refl_of (Silent hidden) hub
  · split
    · exact refl_of (Silent hidden) hub
    · rename_i room _
      exact hub.silent_audiencesIn room user

/-- A change of a room that keeps what is said of it. -/
theorem shownRoom_modify {rooms : Map RoomId RoomEntry} {room : RoomId}
    {update : RoomEntry → RoomEntry}
    (kept : ∀ entry, (update entry).name = entry.name ∧
      (update entry).passwordHash = entry.passwordHash) :
    shownRoom { hub with rooms := rooms.modify room update } = shownRoom { hub with rooms } := by
  funext other
  show ((rooms.modify room update).lookup other).map _ = (rooms.lookup other).map _
  rw [Map.lookup_modify]
  split
  · rw [Option.map_map]
    refine congrArg (Option.map · _) (funext fun entry => ?_)
    show Room.mk other (update entry).name (update entry).passwordHash.isSome = _
    rw [(kept entry).1, (kept entry).2]
  · rfl

theorem silent_modifyRoom (room : RoomId) {update : RoomEntry → RoomEntry}
    (kept : ∀ entry, (update entry).name = entry.name ∧
      (update entry).passwordHash = entry.passwordHash) :
    Silent hidden hub (hub.modifyRoom room update) :=
  ⟨⟨[], (List.append_nil _).symm, List.forall_mem_nil _⟩, fun _ _ => rfl, rfl, fun _ _ => rfl,
    hub.shownRoom_modify kept⟩

theorem shownRoom_storeEpochs (epochs : List (RoomId × Epoch)) (rooms : Map RoomId RoomEntry) :
    shownRoom
      { hub with
        rooms :=
          epochs.foldl
            (fun rooms stored =>
              rooms.modify stored.1 fun entry => { entry with epoch := stored.2 })
            rooms } = shownRoom { hub with rooms } := by
  induction epochs generalizing rooms with
  | nil => rfl
  | cons stored rest inductionHypothesis =>
    exact (inductionHypothesis _).trans (hub.shownRoom_modify fun _ => ⟨rfl, rfl⟩)

theorem silent_storeEpochs (epochs : List (RoomId × Epoch)) :
    Silent hidden hub (hub.storeEpochs epochs) := by
  have noted : Silent hidden hub { hub with log := hub.log ++ [.stored epochs] } := by
    refine hub.silent_log fun effect member _ => ?_
    rw [List.mem_singleton.mp member]
    rfl
  exact { noted with rooms := hub.shownRoom_storeEpochs epochs hub.rooms }

/-! ### Moving -/

theorem silent_nextEpochs {rooms : List RoomId} : (nextEpochs rooms).Follows (Silent hidden) := by
  induction rooms with
  | nil => exact .pure
  | cons room rest inductionHypothesis =>
    exact looks_roomEntry.bind fun _ => .bind .require fun _ => inductionHypothesis.bind fun _ => .pure

theorem silent_bumpEpochs {rooms : List RoomId} : (bumpEpochs rooms).Follows (Silent hidden) :=
  silent_nextEpochs.bind fun _ => .bind silent_call fun _ =>
    .change fun hub => hub.silent_storeEpochs _

theorem silent_allocateFor {target : Option RoomId} :
    (allocateFor target).Follows (Silent hidden) := by
  cases target with
  | none => exact .pure
  | some room =>
    refine .map (.bind silent_call fun _ => .bind .okOr fun _ => .bind (.change fun hub => ?_) fun _ =>
      .pure)
    exact .of_same rfl rfl rfl

theorem silent_checkTarget {session : Session} {target : Option RoomId} {unixNow : Nat} :
    (checkTarget session target unixNow).Follows (Silent hidden) := by
  cases target with
  | none => exact .pure
  | some room => exact looks_roomEntry.bind fun _ => .bind .require fun _ => .require

theorem silent_setMembership {user : UserId} (moves : user ∈ hidden) (room : Option RoomId)
    (tracks : Option Tracks) : Silent hidden hub (hub.setMembership user room tracks) := by
  unfold setMembership
  split
  · exact refl_of (Silent hidden) hub
  · rename_i session found
    let update (session : Session) : Session :=
      { session with toSeat := session.toSeat.placed room tracks }
    refine @Silent.of_session hidden hub _ user update rfl rfl (fun other => ?_)
      (fun _ => ⟨rfl, rfl⟩) (.inl moves)
    dsimp only
    rw [Map.lookup_insert_ite]
    split
    · rename_i mine
      rw [mine, found]
      rfl
    · rfl

theorem silent_removeMember (room : RoomId) (user : UserId) :
    Silent hidden hub (hub.removeMember room user) := hub.silent_modifyRoom room fun _ => ⟨rfl, rfl⟩

theorem silent_insertMember (room : RoomId) (user : UserId) :
    Silent hidden hub (hub.insertMember room user) := hub.silent_modifyRoom room fun _ => ⟨rfl, rfl⟩

/-! ### Joining -/

theorem silent_mustTake {allowance : Allowance} {user : UserId} {cost : ℚ} {now : Instant}
    {refusal : Refusal} : (mustTake allowance user cost now refusal).Follows (Silent hidden) :=
  .bind (.take fun _ => .of_same rfl rfl rfl) fun _ => .require

theorem silent_mustHold {allowance : Allowance} {user : UserId} {cost : ℚ} {now : Instant}
    {refusal : Refusal} : (mustHold allowance user cost now refusal).Follows (Silent hidden) :=
  .bind (.take fun _ => .of_same rfl rfl rfl) fun _ => .require

theorem silent_handOver (user : UserId) (placement : Placement) :
    Silent hidden hub (hub.handOver user placement) := by
  refine hub.silent_log fun effect member _ => ?_
  obtain ⟨seat, _, rfl⟩ := List.mem_map.mp member
  rfl

theorem silent_remember (user : UserId) (target : Option RoomId) :
    Silent hidden hub (hub.remember user target) := by
  cases target <;> exact .of_same rfl rfl rfl

theorem silent_entersAnotherRoom {user : UserId} {target : Option RoomId} :
    (entersAnotherRoom user target).Follows (Silent hidden) := by
  cases target with
  | none => exact .pure
  | some room => exact looks_session.bind fun _ => .pure

theorem silent_passwordToEnter {user : UserId} {room : RoomId} :
    (passwordToEnter user room).Follows (Silent hidden) := by
  refine looks_roomEntry.bind fun entry => ?_
  split
  · exact .pure
  · exact looks_session.bind fun _ => .pure

theorem silent_mayGuess {user : UserId} {room : RoomId} {now : Instant} :
    (mayGuess user room now).Follows (Silent hidden) := by
  refine .bind (.take fun _ => .of_same rfl rfl rfl) fun waits => ?_
  split
  · exact .pure
  · exact .fail
  · exact .fail

theorem silent_requireSpace {user : UserId} {room : RoomId} :
    (requireSpace user room).Follows (Silent hidden) :=
  looks_session.bind fun _ => .onlyIf (looks_roomEntry.bind fun _ => .require)

theorem silent_askPassword {user : UserId} {room : RoomId} {password : Option String}
    {hash : String} {now : Instant} :
    (askPassword user room password hash now).Follows (Silent hidden) := by
  cases password with
  | none => exact .fail
  | some password => exact silent_mayGuess.bind fun _ => silent_mustTake.bind fun _ => .pure

theorem silent_requirePicture {avatar : Option Hash} :
    (requirePicture avatar).Follows (Silent hidden) := by
  cases avatar with
  | none => exact .pure
  | some hash => exact silent_call.bind fun _ => .require

/-! ### Looking things up -/

theorem silent_mayManageRoom {user : UserId} {room : RoomId} :
    (mayManageRoom user room).Follows (Silent hidden) :=
  looks_role.bind fun _ => .bind .require fun _ => looks_roomEntry.bind fun _ => .pure

theorem silent_accountsToRemove {target : UserId} {cascade : Bool} :
    (accountsToRemove target cascade).Follows (Silent hidden) := by
  unfold accountsToRemove
  split
  · exact silent_call
  · exact .pure

/-! ### Requests -/

theorem silent_announceServerProfile : announceServerProfile.Follows (Silent hidden) :=
  silent_call.bind fun _ => .bind (.change fun hub => hub.silent_emitAll rfl) fun _ => .pure

theorem silent_setServerName {user : UserId} {name : Option String} :
    (setServerName user name).Follows (Silent hidden) := by
  refine looks_role.bind fun _ => .bind .require fun _ => .bind ?_ fun _ =>
    silent_call.bind fun _ => silent_announceServerProfile
  unfold checkedServerName
  split
  · exact .pure
  · split
    · exact .pure
    · exact .map .okOr

theorem silent_setServerAvatar {user : UserId} {avatar : Option Hash} :
    (setServerAvatar user avatar).Follows (Silent hidden) :=
  looks_role.bind fun _ => .bind .require fun _ => silent_requirePicture.bind fun _ =>
    silent_call.bind fun _ => silent_announceServerProfile

theorem silent_setAvatar {primitives : Primitives} {user : UserId} {bytes : List UInt8}
    {clock : Clock} : (setAvatar primitives user bytes clock).Follows (Silent hidden) :=
  .bind .require fun _ => silent_mustTake.bind fun _ => silent_call.bind fun _ =>
    silent_call.bind fun _ => .pure

theorem silent_setEncryptionKey {primitives : Primitives} {user : UserId}
    {encryptionKey : SignedEncryptionKey} {clock : Clock} :
    (setEncryptionKey primitives user encryptionKey clock).Follows (Silent hidden) := by
  refine looks_session.bind fun session => .bind .require fun _ => ?_
  dsimp only
  split
  · exact .pure
  · refine .bind .current fun _ => .bind .require fun _ => .bind (.onlyIf silent_mustTake) fun _ =>
      silent_call.bind fun _ => .bind (.change fun hub => ?_) fun _ => ?_
    · exact hub.silent_modifySession (fun _ => ⟨rfl, rfl⟩) (.inr fun _ => rfl)
    split
    · exact .pure
    · exact .bind (.onlyIf silent_bumpEpochs) fun _ =>
        .bind (.change fun hub => hub.silent_broadcastPeers _ none) fun _ => .pure

theorem silent_askKeyframe (mediaId : MediaId) (kind : Recovery) (now : Instant) :
    Silent hidden hub (hub.askKeyframe mediaId kind now) := by
  have noted : ∀ keyframes, Silent hidden hub { hub with keyframes } := fun _ => .of_same rfl rfl rfl
  unfold askKeyframe
  split
  · dsimp only
    split
    · exact trans_of (Silent hidden) (noted _) (silent_emitTo _ _ rfl)
    · exact noted _
  · exact refl_of (Silent hidden) hub

theorem silent_setWatched {user : UserId} {ids : List MediaId} {clock : Clock} :
    (setWatched user ids clock).Follows (Silent hidden) := by
  refine .bind .require fun _ => .bind (looks_session.bind fun _ => .okOr) fun _ =>
    .bind .current fun _ => .bind .require fun _ => looks_session.bind fun session =>
      .bind (.change fun hub => ?_) fun _ => .bind (.change fun hub => hub.silent_rebuildRoutes) fun _ =>
        .bind (.change fun hub => ?_) fun _ => .pure
  · exact hub.silent_modifySession (fun _ => ⟨rfl, rfl⟩) (.inr fun _ => rfl)
  · exact related_foldl hub (Silent hidden) (fun hub id => hub.silent_askKeyframe id .idr clock.now) _

theorem silent_requestKeyframe {user : UserId} {mediaId : MediaId} {kind : Recovery}
    {clock : Clock} : (requestKeyframe user mediaId kind clock).Follows (Silent hidden) :=
  looks_session.bind fun _ => .bind .require fun _ => .bind .current fun _ => .bind .require fun _ =>
    .bind (.change fun hub => hub.silent_askKeyframe mediaId kind clock.now) fun _ => .pure

theorem silent_flushKeyframes (clock : Clock) : Silent hidden hub (hub.flushKeyframes clock) := by
  unfold flushKeyframes
  dsimp only
  refine trans_of (Silent hidden) ?_ (related_foldl _ (Silent hidden) (fun hub request => ?_) _)
  · exact .of_same rfl rfl rfl
  · split
    · exact hub.silent_emitTo _ rfl
    · exact .of_same rfl rfl rfl

theorem silent_checkWrapped {user : UserId} {members seen : Finset UserId}
    {wrapped : List (UserId × List UInt8)} :
    (checkWrapped user members seen wrapped).Follows (Silent hidden) := by
  induction wrapped generalizing seen with
  | nil => exact .pure
  | cons entry rest inductionHypothesis =>
    exact .bind .require fun _ => .bind .require fun _ => inductionHypothesis

theorem silent_publishKey {user : UserId} {epoch : Epoch}
    {wrapped : List (UserId × List UInt8)} :
    (publishKey user epoch wrapped).Follows (Silent hidden) := by
  refine .bind (looks_session.bind fun _ => .okOr) fun _ => looks_roomEntry.bind fun _ =>
    .bind .require fun _ => silent_checkWrapped.bind fun _ =>
      .bind (.change fun hub => ?_) fun _ => .pure
  exact related_foldl hub (Silent hidden) (fun hub _ => hub.silent_emitTo _ rfl) wrapped

theorem silent_insertFresh {mintedBy : Option UserId} {expiresAt : Nat}
    {draws : Nat → Fin (idChars + secretChars) → UInt8} {attempts : Nat} :
    (insertFresh mintedBy expiresAt draws attempts).Follows (Silent hidden) := by
  induction attempts with
  | zero => exact .fail
  | succ attempts inductionHypothesis =>
    refine silent_call.bind fun inserted => ?_
    split
    · exact .bind (.change fun hub => .of_same rfl rfl rfl) fun _ => .pure
    · exact inductionHypothesis

theorem silent_mintInvite {mintedBy : Option UserId}
    {draws : Nat → Fin (idChars + secretChars) → UInt8} {now : Nat} :
    (mintInvite mintedBy draws now).Follows (Silent hidden) :=
  .bind silent_call fun _ => silent_insertFresh.bind fun _ => .pure

theorem silent_createInvite {user : UserId} {draws : Nat → Fin (idChars + secretChars) → UInt8}
    {clock : Clock} : (createInvite user draws clock).Follows (Silent hidden) := by
  refine looks_role.bind fun role => .bind ?_ fun _ => silent_mintInvite.bind fun _ => .pure
  unfold checkInviteCap
  split
  · exact .pure
  · exact silent_call.bind fun _ => .require

theorem silent_isFree (user : UserId) (request : Request) :
    Silent hidden hub (hub.isFree user request).2 := by
  unfold isFree
  split
  · unfold freeKeyPublish
    split
    · exact refl_of (Silent hidden) hub
    · split
      · exact refl_of (Silent hidden) hub
      · split
        · exact hub.silent_modifySession (fun _ => ⟨rfl, rfl⟩) (.inr fun _ => rfl)
        · exact refl_of (Silent hidden) hub
  · exact refl_of (Silent hidden) hub

theorem silent_claimTry {codeId : String} {now : Nat} :
    (claimTry codeId now).Follows (Silent hidden) := by
  unfold claimTry
  split
  · refine silent_call.bind fun _ => ?_
    split
    · exact .pure
    · exact silent_call.bind fun _ => .bind (.change fun hub => .of_same rfl rfl rfl) fun _ => .pure
  · exact .pure

theorem silent_endRun (codeId : String) (mintedBy : Option UserId) :
    Silent hidden hub (hub.endRun codeId mintedBy) := by
  have left : Silent hidden hub (hub.finishRun codeId).2 := by
    unfold finishRun
    split
    · exact refl_of (Silent hidden) hub
    · split
      · exact .of_same rfl rfl rfl
      · exact .of_same rfl rfl rfl
  unfold endRun
  generalize hub.finishRun codeId = ended at left
  obtain ⟨last, between⟩ := ended
  dsimp only at left ⊢
  have looked : Silent hidden between (read (Database.invite codeId) between).2 := silent_call between
  split
  · generalize read (Database.invite codeId) between = found at looked
    replace looked := trans_of (Silent hidden) left looked
    split
    · rename_i invite after
      split
      · have burned := trans_of (Silent hidden) looked
          (silent_call after : Silent hidden after (write (Database.deleteInvite codeId) after).2)
        split
        · exact trans_of (Silent hidden) burned (silent_emitTo _ _ rfl)
        · exact burned
      · exact looked
    · exact looked
  · exact left

theorem silent_profileOrDefault : Silent hidden hub hub.profileOrDefault.2 := by
  have looked : Silent hidden hub (read (·.serverProfile) hub).2 := silent_call hub
  unfold profileOrDefault
  generalize read (·.serverProfile) hub = outcome at looked
  obtain ⟨failure | profile, after⟩ := outcome
  · exact looked
  · exact looked

end Hub

end Throcc
