/-
This file says what a step of the server does to a session: which room it leaves
its user in, and what it tells its connection about rooms the user is out of.
Whoever is put out of a room is told so, except by a deletion that is cut off
after it has moved them.
-/

import Throcc.Enrollments
import Throcc.Refusals
import Throcc.Rejoins

namespace Throcc

/-! ### Hearing of partings -/

/-- The room of a session in `room` that has heard events: an event about the room it is in takes
it out. -/
def settle (room : Option RoomId) (events : List Event) : Option RoomId :=
  events.foldl (fun room event => if event.out = room then none else room) room

theorem settle_append (room : Option RoomId) (first second : List Event) :
    settle room (first ++ second) = settle (settle room first) second := List.foldl_append

theorem settle_none (events : List Event) : settle none events = none := by
  induction events with
  | nil => rfl
  | cons event rest inductionHypothesis =>
    show settle (if event.out = none then none else none) rest = none
    rw [ite_self, inductionHypothesis]

/-- Events about one room, if about any, take a session out of that room alone. -/
theorem settle_about {room : RoomId} {events : List Event}
    (about : ∀ event ∈ events, event.out = none ∨ event.out = some room) (inside : Option RoomId) :
    settle inside events =
      if inside = some room ∧ ∃ event ∈ events, event.out = some room then none else inside := by
  induction events with
  | nil => simp [settle]
  | cons event rest inductionHypothesis =>
    have later := inductionHypothesis fun other member => about other (List.mem_cons_of_mem _ member)
    show settle (if event.out = inside then none else inside) rest = _
    by_cases here : event.out = inside
    · rw [if_pos here, settle_none]
      cases inside with
      | none => simp
      | some place =>
        have same : place = room := by
          obtain quiet | out := about event List.mem_cons_self
          · exact nomatch quiet.symm.trans here
          · exact Option.some.inj (here.symm.trans out)
        rw [if_pos ⟨congrArg some same, event, List.mem_cons_self, here.trans (congrArg some same)⟩]
    · rw [if_neg here, later]
      by_cases there : inside = some room
      · have other : event.out ≠ some room := fun out => here (out.trans there.symm)
        simp [there, other]
      · simp [there]

theorem settle_quiet {events : List Event} (quiet : ∀ event ∈ events, event.out = none)
    (room : Option RoomId) : settle room events = room := by
  rw [@settle_about 0 events (fun event member => .inl (quiet event member)) room]
  refine if_neg fun ⟨_, event, member, out⟩ => ?_
  exact nomatch (quiet event member).symm.trans out

/-! ### What a connection is sent -/

/-- The event that goes to a connection. -/
def Effect.eventTo (conn : ConnId) : Effect → Option Event
  | .sent receiver event => if receiver = conn then some event else none
  | _ => none

namespace Hub

open Attempt

/-- Every event sent to a connection so far. -/
def sentTo (hub : Hub) (conn : ConnId) : List Event := hub.log.filterMap (Effect.eventTo conn)

theorem Hushed.sentTo {before after : Hub} (hushed : before.Hushed after) (conn : ConnId) :
    ∃ events, after.sentTo conn = before.sentTo conn ++ events ∧
      ∀ event ∈ events, event.out = none := by
  obtain ⟨effects, sends, quiet⟩ := hushed
  refine ⟨effects.filterMap (Effect.eventTo conn), ?_, fun event member => ?_⟩
  · rw [Hub.sentTo, sends, List.filterMap_append]
    rfl
  · obtain ⟨effect, sent, same⟩ := List.mem_filterMap.mp member
    have silent := List.filterMap_eq_nil_iff.mp quiet effect sent
    cases effect with
    | sent receiver other =>
      unfold Effect.eventTo at same
      dsimp only at same
      split at same
      · obtain rfl := Option.some.inj same
        exact silent
      · cases same
    | _ => cases same

theorem sentTo_send (hub : Hub) (connections : List ConnId) (event : Event) (conn : ConnId) :
    (hub.send connections event).sentTo conn =
      hub.sentTo conn ++ List.replicate (connections.count conn) event := by
  unfold sentTo send
  rw [List.filterMap_append, List.filterMap_map]
  refine congrArg (_ ++ ·) ?_
  induction connections with
  | nil => rfl
  | cons receiver rest inductionHypothesis =>
    rw [List.filterMap_cons, inductionHypothesis, List.count_cons]
    by_cases same : receiver = conn
    · simp [Effect.eventTo, same, List.replicate_succ]
    · simp [Effect.eventTo, same]

/-- What a session that stays on its connection is told takes it to the room it is left in. -/
def Told (user : UserId) (conn : ConnId) (before after : Hub) : Prop :=
  ∀ room room', before.sits user = some (conn, room) → after.sits user = some (conn, room') →
    ∃ events, after.sentTo conn = before.sentTo conn ++ events ∧ settle room events = room'

variable {user : UserId} {conn : ConnId} {before after : Hub}

theorem Told.of_sits (hushed : before.Hushed after) (same : after.sits user = before.sits user) :
    Told user conn before after := by
  intro room room' was is
  obtain ⟨events, sent, quiet⟩ := hushed.sentTo conn
  obtain rfl := congrArg Prod.snd (Option.some.inj (was.symm.trans (same.symm.trans is)))
  exact ⟨events, sent, settle_quiet quiet room⟩

theorem Told.of_quiet {may : UserId → Prop} (quiet : Quiet may before after) (still : ¬ may user) :
    Told user conn before after := .of_sits quiet.hushed (quiet.sits user still)

theorem Told.of_gone (gone : after.sits user = none) : Told user conn before after :=
  fun _ _ _ is => nomatch gone.symm.trans is

theorem seat_of_sits {hub : Hub} {room : Option RoomId} (sits : hub.sits user = some (conn, room)) :
    ∃ seat, hub.core.seats.lookup user = some seat ∧ seat.connId = conn ∧ seat.room = room := by
  obtain ⟨session, found, same⟩ := Option.map_eq_some_iff.mp sits
  refine ⟨session.toSeat, ?_, congrArg Prod.fst same, congrArg Prod.snd same⟩
  rw [core_seats, seats_lookup, found, Option.map_some]

theorem roomOf_of_sits {hub : Hub} {room : Option RoomId}
    (sits : hub.sits user = some (conn, room)) : hub.core.roomOf user = room := by
  obtain ⟨seat, found, _, inside⟩ := seat_of_sits sits
  rw [Core.roomOf, found]
  exact inside

theorem sits_eq_none {hub : Hub} (gone : user ∉ hub.core.seats) : hub.sits user = none := by
  have missing := Finmap.lookup_eq_none.mpr gone
  rw [core_seats, seats_lookup, Option.map_eq_none_iff] at missing
  rw [sits, missing, Option.map_none]

/-! ### Kicking -/

theorem mem_connections {hub : Hub} {room : Option RoomId} (sits : hub.sits user = some (conn, room)) :
    conn ∈ (hub.seats.lookup user).toList.map (·.connId) := by
  obtain ⟨seat, found, same, _⟩ := seat_of_sits sits
  rw [core_seats] at found
  rw [found, Option.toList_some, List.map_singleton, List.mem_singleton]
  exact same.symm

/-- Whoever is kicked is told, and nobody else. -/
theorem kick_told (orderly : before.core.Orderly) (actor target : UserId) {room : RoomId}
    (clock : Clock) (inside : before.core.roomOf target = some room) :
    Told user conn before (before.kick actor target room clock) := by
  intro start stop was is
  have quiet : Quiet (· = target) before ((before.remember target none).leaveRoom target clock) := by
    refine (quiet_remember before target none).trans (quiet_leaveRoom _ ?_ clock)
    rfl
  obtain ⟨leads, outside⟩ := core_leaveRoom (before.remember target none) target clock
  have orderly := (orderly.apply (show before.core.Allows (.remember target none) from nofun)).leads
    (core_remember before target none ▸ leads)
  unfold kick at is ⊢
  dsimp only at is ⊢
  generalize (before.remember target none).leaveRoom target clock = left at quiet outside orderly is ⊢
  have is : left.sits user = some (conn, stop) := is
  obtain ⟨events, sent, silent⟩ := quiet.hushed.sentTo conn
  have sentMore : (left.emitTo target (.kickedFromRoom actor room)).sentTo conn =
      before.sentTo conn ++ (events ++ List.replicate
        (((left.seats.lookup target).toList.map (·.connId)).count conn)
        (.kickedFromRoom actor room)) := by
    rw [emitTo, sentTo_send, sent, List.append_assoc]
  refine ⟨_, sentMore, ?_⟩
  rw [settle_append, settle_quiet silent]
  by_cases mine : user = target
  · rw [mine] at is was
    have told := List.count_pos_iff.mpr (mem_connections is)
    rw [@settle_about room, if_pos]
    · exact outside.symm.trans (roomOf_of_sits is)
    · refine ⟨(roomOf_of_sits was).symm.trans inside, .kickedFromRoom actor room, ?_, rfl⟩
      exact List.mem_replicate.mpr ⟨Nat.pos_iff_ne_zero.mp told, rfl⟩
    · exact fun event member => .inr (List.eq_of_mem_replicate member ▸ rfl)
  · have elsewhere : conn ∉ (left.seats.lookup target).toList.map (·.connId) := by
      intro member
      obtain ⟨seat, found, same⟩ := List.mem_map.mp member
      obtain ⟨own, there, connection, _⟩ := seat_of_sits is
      refine mine (orderly.connected.distinct user target own seat there ?_ ?_)
      · exact Option.mem_toList.mp found
      · exact connection.trans same.symm
    rw [List.count_eq_zero.mpr elsewhere, List.replicate_zero]
    have still := quiet.sits user mine
    rw [was, is] at still
    exact (congrArg Prod.snd (Option.some.inj still)).symm

theorem kickFromRoom_told (orderly : before.core.Orderly) (actor target : UserId) (room : RoomId)
    (clock : Clock) :
    (kickFromRoom actor target room clock).Ends (fun _ => Told user conn before)
      (fun _ => Told user conn before) before := by
  have idle : Idle clock before before := Idle.refl before
  have unmoved : Told user conn before before := .of_sits (.refl before) rfl
  refine .bind (idle.role_ends (fun _ _ => .bind (.current (.bind (.okOr ?_ unmoved)))) unmoved)
  intro session found
  refine .bind (.require (fun _ => .bind (.change (.pure ?_))) unmoved)
  refine kick_told orderly actor target clock ?_
  obtain ⟨found, inside⟩ := Option.filter_eq_some_iff.mp found
  rw [Core.roomOf, core_seats, seats_lookup, found]
  exact of_decide_eq_true inside

/-! ### Deleting a room -/

theorem sits_eq (hub : Hub) (user : UserId) :
    hub.sits user = (hub.core.seats.lookup user).map fun seat => (seat.connId, seat.room) := by
  rw [core_seats, seats_lookup, Option.map_map]
  rfl

theorem sits_of_core (same : after.core = before.core) : after.sits = before.sits := by
  funext user
  rw [sits_eq, sits_eq, same]

theorem roomOf_eq_sits (hub : Hub) (user : UserId) :
    hub.core.roomOf user = (hub.sits user).bind Prod.snd := by
  rw [sits_eq, Core.roomOf]
  cases hub.core.seats.lookup user <;> rfl

/-- The first `count` members of a room can be moved out: each time its epoch can be raised, and
the database works. -/
def Clears (hub : Hub) (entry : RoomEntry) (count : Nat) : Prop :=
  ∀ move < count, entry.epoch + move + 1 ≤ u32Max ∧ hub.faults[move]? ≠ some true

theorem clears_one {hub : Hub} {room : RoomId} {entry : RoomEntry}
    (found : hub.rooms.lookup room = some entry) :
    hub.Clears entry 1 ↔ ¬ EpochsStuck hub [room] hub.faults := by
  have raises : hub.core.CanRaise [room] ↔ entry.epoch + 1 ≤ u32Max := by
    unfold Core.CanRaise
    rw [List.forall_mem_singleton, core_rooms, found]
    exact ⟨fun ⟨_, same, enough⟩ => Option.some.inj same ▸ enough, fun enough => ⟨entry, rfl, enough⟩⟩
  unfold Clears EpochsStuck
  rw [raises, List.head?_eq_getElem?, Classical.not_imp]
  simp

theorem clears_succ {hub after : Hub} {entry entry' : RoomEntry} (count : Nat)
    (epoch : entry'.epoch = entry.epoch + 1) (faults : after.faults = hub.faults.tail) :
    hub.Clears entry (count + 1) ↔ hub.Clears entry 1 ∧ after.Clears entry' count := by
  have shifted : ∀ move, entry'.epoch + move + 1 = entry.epoch + (move + 1) + 1 := by
    intro move
    rw [epoch, Nat.add_right_comm entry.epoch 1 move, Nat.add_assoc entry.epoch move 1]
  unfold Clears
  simp only [shifted, faults, List.getElem?_tail]
  constructor
  · intro clears
    refine ⟨fun move first => ?_, fun move below => clears (move + 1) (by omega)⟩
    exact clears move (by omega)
  · rintro ⟨first, later⟩ move below
    cases move with
    | zero => exact first 0 Nat.one_pos
    | succ move => exact later move (by omega)

/-- Moving members out one after another goes through, or stops at the first whose move is
refused. -/
theorem placeOut_cut {clock : Clock} {room : RoomId} {list : List UserId} (distinct : list.Nodup)
    {hub : Hub} {entry : RoomEntry} (found : hub.rooms.lookup room = some entry)
    (inside : ∀ member ∈ list, hub.core.roomOf member = some room) :
    (forEach (fun member => do let _ ← place member none clock) list).Ends
      (fun _ after => hub.Clears entry list.length ∧ after.faults = hub.faults.drop list.length)
      (fun _ after => ∃ done next later, list = done ++ next :: later ∧
        hub.Clears entry done.length ∧ ¬ hub.Clears entry (done.length + 1) ∧
        ∀ member ∈ next :: later, after.sits member = hub.sits member) hub := by
  induction list generalizing hub entry with
  | nil => exact .pure ⟨nofun, rfl⟩
  | cons member rest inductionHypothesis =>
    obtain ⟨elsewhere, distinct⟩ := List.nodup_cons.mp distinct
    have there : hub.core.roomOf member = some room := inside member List.mem_cons_self
    have spared : KeepsQuiet (· = member) (place member none clock) := keeps_place rfl
    have placed := (place_none_ends there).and (spared.ends hub)
    refine .bind (.bind (placed.mono ?_ ?_))
    · rintro _ after ⟨⟨free, _, core, faults⟩, quiet⟩
      have first : hub.Clears entry 1 := (clears_one found).mpr free
      obtain ⟨entry', found', epoch⟩ : ∃ entry', after.rooms.lookup room = some entry' ∧
          entry'.epoch = entry.epoch + 1 := by
        have epochs := hub.core.epochOf_place member none room
        have left : room ∈ (some room).toList ++ (none : Option RoomId).toList := by simp
        simp only [← core, there, left, if_true] at epochs
        unfold Core.epochOf at epochs
        rw [core_rooms, core_rooms, found] at epochs
        exact Option.map_eq_some_iff.mp epochs
      have still : ∀ other ∈ rest, after.sits other = hub.sits other := fun other later =>
        quiet.sits other fun same => elsewhere (same ▸ later)
      have stay : ∀ other ∈ rest, after.core.roomOf other = some room := by
        intro other later
        rw [roomOf_eq_sits, still other later, ← roomOf_eq_sits]
        exact inside other (List.mem_cons_of_mem _ later)
      refine .pure ((inductionHypothesis distinct found' stay).mono ?_ ?_)
      · rintro _ last ⟨clears, left⟩
        refine ⟨(clears_succ _ epoch faults).mpr ⟨first, clears⟩, ?_⟩
        rw [left, faults, List.drop_tail]
        rfl
      · rintro _ last ⟨done, next, later, rfl, clears, stuck, same⟩
        refine ⟨member :: done, next, later, rfl, ?_, ?_, fun other left => ?_⟩
        · exact (clears_succ _ epoch faults).mpr ⟨first, clears⟩
        · exact fun clears => stuck ((clears_succ _ epoch faults).mp clears).2
        · exact (same other left).trans (still other (List.mem_append_right _ left))
    · rintro _ after ⟨⟨stuck, idle⟩, _⟩
      refine ⟨[], member, rest, rfl, nofun, ?_, fun other _ => ?_⟩
      · rw [List.length_nil, Nat.zero_add, clears_one found, not_not]
        exact stuck
      · exact congrFun (sits_of_core idle.core) other

/-- A deletion passes its checks and moves a user out, and is then cut off: another member can't
be moved out, or the room can't be deleted from the database. -/
def CutsOff (hub : Hub) (actor : UserId) (room : RoomId) (user : UserId) : Prop :=
  ∃ session ∈ hub.sessions.lookup actor, ∃ entry ∈ hub.rooms.lookup room,
    canManageRooms session.row.role = true ∧
    (session.row.role = .admin ∨ hub.outranked actor session.row.role entry.members = false) ∧
    user ∈ entry.members ∧ hub.Clears entry ((ascending entry.members).idxOf user + 1) ∧
    ¬ (hub.Clears entry entry.members.card ∧ hub.faults[entry.members.card]? ≠ some true)

theorem Clears.mono {hub : Hub} {entry : RoomEntry} {count fewer : Nat}
    (clears : hub.Clears entry count) (le : fewer ≤ count) : hub.Clears entry fewer :=
  fun move below => clears move (Nat.lt_of_lt_of_le below le)

theorem Told.of_idle {clock : Clock} (idle : Idle clock before after) : Told user conn before after := by
  refine .of_sits ⟨[], ?_, rfl⟩ (congrFun (sits_of_core idle.core) user)
  exact (congrArg Hub.log idle.same).trans (List.append_nil _).symm

/-- Everyone hears of a deletion, and whoever it has moved out was in the room. -/
theorem deleted_told {cleared : Hub} {room : RoomId} {members : Finset UserId}
    (occupied : ∀ member, member ∈ members ↔ before.core.roomOf member = some room)
    (quiet : Quiet (· ∈ members) before cleared)
    (out : ∀ member ∈ members, cleared.core.roomOf member = none) :
    Told user conn before ((cleared.dropRoom room).emitAll (.roomDeleted room)) := by
  intro start stop was is
  have is : cleared.sits user = some (conn, stop) := is
  obtain ⟨events, sent, silent⟩ := quiet.hushed.sentTo conn
  have sentMore : ((cleared.dropRoom room).emitAll (.roomDeleted room)).sentTo conn =
      before.sentTo conn ++ (events ++ List.replicate
        ((cleared.seats.toList.map (·.2.connId)).count conn) (.roomDeleted room)) := by
    rw [emitAll, sentTo_send, ← List.append_assoc, ← sent]
    rfl
  refine ⟨_, sentMore, ?_⟩
  rw [settle_append, settle_quiet silent, @settle_about room]
  rotate_left
  · exact fun event member => .inr (List.eq_of_mem_replicate member ▸ rfl)
  by_cases mine : user ∈ members
  · have inside : start = some room :=
      (roomOf_of_sits was).symm.trans ((occupied user).mp mine)
    obtain ⟨seat, found, same, _⟩ := seat_of_sits is
    have hears : conn ∈ cleared.seats.toList.map (·.2.connId) :=
      List.mem_map.mpr ⟨(user, seat), (Map.mem_toList _ _ _).mpr found, same⟩
    have told := List.count_pos_iff.mpr hears
    rw [if_pos ⟨inside, .roomDeleted room, List.mem_replicate.mpr ⟨told.ne', rfl⟩, rfl⟩]
    exact (out user mine).symm.trans (roomOf_of_sits is)
  · have outside : start ≠ some room := fun inside =>
      mine ((occupied user).mpr ((roomOf_of_sits was).trans inside))
    rw [if_neg fun told => outside told.1]
    have still := quiet.sits user mine
    rw [was, is] at still
    exact (congrArg Prod.snd (Option.some.inj still)).symm

/-- Whoever a deletion moves out is told, unless it is cut off. -/
theorem deleteRoom_told (seated : before.core.Seated) (actor : UserId) (room : RoomId)
    (clock : Clock) :
    (deleteRoom actor room clock).Ends (fun _ => Told user conn before)
      (fun _ after => before.CutsOff actor room user ∨ Told user conn before after) before := by
  have idle : Idle clock before before := Idle.refl before
  have unmoved : Told user conn before before := .of_idle idle
  refine permitted_cases (fun session found allowed => ?_) fun _ _ => .inr unmoved
  refine .bind (.bind (.current (.okOr (fun entry there => ?_) (.inr unmoved))))
  refine .bind (.current (.bind (.require (fun ranks => ?_) (.inr unmoved))))
  have occupied : ∀ member, member ∈ entry.members ↔ before.core.roomOf member = some room := by
    intro member
    rw [seated.member, Core.occupants_of_lookup _ there]
  have ranks : session.row.role = .admin ∨
      before.outranked actor session.row.role entry.members = false :=
    (of_decide_eq_true ranks).imp_right Bool.eq_false_iff.mpr
  have cut : user ∈ entry.members →
      before.Clears entry ((ascending entry.members).idxOf user + 1) →
      ¬ (before.Clears entry entry.members.card ∧
        before.faults[entry.members.card]? ≠ some true) →
      before.CutsOff actor room user :=
    fun mine clears stuck => ⟨session, found, entry, there, allowed, ranks, mine, clears, stuck⟩
  have spared : KeepsQuiet (· ∈ entry.members) (clearRoom entry.members clock) :=
    keeps_clearRoom fun _ member => member
  have inside : ∀ member ∈ ascending entry.members, before.core.roomOf member = some room :=
    fun member listed => (occupied member).mp ((mem_ascending _ _).mp listed)
  have moves := @placeOut_cut clock room _ (nodup_ascending entry.members) before entry there inside
  refine .bind ((((clearRoom_ends before entry.members clock).and moves).and (spared.ends before)).mono
    ?_ ?_)
  · rintro _ cleared ⟨⟨⟨_, out⟩, clears, faults⟩, quiet⟩
    rw [length_ascending] at clears faults
    refine .bind (call_ends (fun works => ?_) fun fails => ?_)
    · refine .bind (.change (.bind (.change (.pure ?_))))
      exact deleted_told occupied (quiet.trans (.same rfl rfl rfl)) out
    · by_cases mine : user ∈ entry.members
      · refine .inl (cut mine (clears.mono ?_) fun whole => whole.2 ?_)
        · rw [← length_ascending]
          exact List.idxOf_lt_length_iff.mpr ((mem_ascending _ _).mpr mine)
        · rw [faults, List.head?_drop] at fails
          exact fails
      · exact .inr (.of_quiet (quiet.trans (.same rfl rfl rfl)) mine)
  · rintro _ after ⟨⟨_, done, next, later, parts, clears, stuck, same⟩, quiet⟩
    by_cases mine : user ∈ entry.members
    · by_cases moved : user ∈ done
      · refine .inl (cut mine (clears.mono ?_) fun whole => stuck (whole.1.mono ?_))
        · rw [parts, List.idxOf_append_of_mem moved]
          exact List.idxOf_lt_length_iff.mpr moved
        · rw [← length_ascending, parts, List.length_append, List.length_cons]
          omega
      · refine .inr (.of_sits quiet.hushed (same user ?_))
        have listed := (mem_ascending _ _).mpr mine
        rw [parts] at listed
        exact (List.mem_append.mp listed).resolve_left moved
    · exact .inr (.of_quiet quiet mine)

/-! ### Staying or going -/

/-- A user who stays sits where they did, and nobody is told that they are out of a room. -/
structure Stays (user : UserId) (before after : Hub) : Prop where
  hushed : before.Hushed after
  sits : after.sits user = none ∨ after.sits user = before.sits user

instance (user : UserId) : IsPreorder Hub (Stays user) where
  refl hub := ⟨.refl hub, .inr rfl⟩
  trans _ _ _ first second := by
    refine ⟨first.hushed.trans second.hushed, ?_⟩
    obtain gone | same := second.sits
    · exact .inl gone
    · rw [same]
      exact first.sits

theorem Quiet.stays {may : UserId → Prop} (quiet : Quiet may before after) (still : ¬ may user) :
    Stays user before after := ⟨quiet.hushed, .inr (quiet.sits user still)⟩

theorem Told.of_stays (stays : Stays user before after) : Told user conn before after := by
  obtain gone | same := stays.sits
  · exact .of_gone gone
  · exact .of_sits stays.hushed same

theorem KeepsQuiet.stays {Result : Type} {may : UserId → Prop} {computation : HubM Result}
    (keeps : KeepsQuiet may computation) (still : ¬ may user) :
    computation.Follows (Stays user) := fun hub => (keeps hub).stays still

/-- Whatever a call does to the database, it moves nobody. -/
theorem stays_call {Result : Type} {statement : Database → Result × Database} :
    (call statement).Follows (Stays user) := by
  intro hub
  unfold call
  split
  · exact ⟨.refl hub, .inr rfl⟩
  · exact ⟨.refl hub, .inr rfl⟩

theorem stays_send (hub : Hub) (connections : List ConnId) {event : Event} (quiet : event.out = none) :
    Stays user hub (hub.send connections event) :=
  (@quiet_send (fun _ => False) hub connections event quiet).stays not_false

theorem stays_insertFresh {mintedBy : Option UserId} {expiresAt : Nat}
    {draws : Nat → Fin (idChars + secretChars) → UInt8} {attempts : Nat} :
    (insertFresh mintedBy expiresAt draws attempts).Follows (Stays user) := by
  induction attempts with
  | zero => exact .fail
  | succ attempts inductionHypothesis =>
    refine stays_call.bind fun inserted => ?_
    split
    · exact .bind (.change fun hub => ⟨.refl hub, .inr rfl⟩) fun _ => .pure
    · exact inductionHypothesis

theorem stays_mintInvite {mintedBy : Option UserId}
    {draws : Nat → Fin (idChars + secretChars) → UInt8} {now : Nat} :
    (mintInvite mintedBy draws now).Follows (Stays user) :=
  .bind stays_call fun _ => stays_insertFresh.bind fun _ => .pure

theorem stays_createInvite {asker : UserId} {draws : Nat → Fin (idChars + secretChars) → UInt8}
    {clock : Clock} : (createInvite asker draws clock).Follows (Stays user) := by
  refine looks_role.bind fun role => .bind ?_ fun _ => stays_mintInvite.bind fun _ => .pure
  unfold checkInviteCap
  split
  · exact .pure
  · exact stays_call.bind fun _ => .require

theorem stays_evict (hub : Hub) (gone : UserId) (reason : String) (clock : Clock) :
    Stays user hub (hub.evict gone reason clock) := by
  have quiet := @quiet_evict (· = gone) hub gone rfl reason clock
  refine ⟨quiet.hushed, ?_⟩
  by_cases mine : user = gone
  · rw [mine]
    exact .inl (sits_eq_none (core_evict hub gone reason clock).2)
  · exact .inr (quiet.sits user mine)

theorem stays_foldl {Item : Type} {step : Hub → Item → Hub} (items : List Item)
    (stays : ∀ hub item, Stays user hub (step hub item)) (hub : Hub) :
    Stays user hub (items.foldl step hub) :=
  run_invariant step (Stays user hub) (refl_of (Stays user) hub)
    (fun _ item before => trans_of (Stays user) before (stays _ item)) items

theorem stays_removeAccounts {ids : List UserId} {clock : Clock} :
    (removeAccounts ids clock).Follows (Stays user) := by
  refine .bind stays_call fun _ => .change fun hub => stays_foldl ids (fun hub id => ?_) hub
  have forgotten : Quiet (fun _ => False) hub (hub.remember id none) := quiet_remember hub id none
  refine trans_of (Stays user) (forgotten.stays not_false) ?_
  refine trans_of (Stays user) (stays_evict _ id "you were removed from this server" clock) ?_
  exact (stays_send _ _ rfl)

theorem stays_removeUser {asker target : UserId} {cascade : Bool} {clock : Clock} :
    (removeUser asker target cascade clock).Follows (Stays user) := by
  refine looks_role.bind fun role => .bind (.onlyIf (stays_call.bind fun _ => .require)) fun _ =>
    .bind .require fun _ => .bind ?_ fun removed => .bind (.forEach fun _ _ => ?_) fun _ =>
      stays_removeAccounts.bind fun _ => .pure
  · unfold accountsToRemove
    split
    · exact stays_call
    · exact .pure
  · exact .bind (stays_call.bind fun _ => .okOr) fun _ => .require

theorem stays_removeInactive {clock : Clock} : (removeInactive clock).Follows (Stays user) :=
  .bind stays_call fun _ => .onlyIf stays_removeAccounts

theorem stays_disconnect (hub : Hub) (asker : UserId) (origin : ConnId) (clock : Clock) :
    Stays user hub (hub.disconnect asker origin clock) := by
  have quiet := @quiet_disconnect (· = asker) hub asker rfl origin clock
  by_cases mine : user = asker
  · refine ⟨quiet.hushed, ?_⟩
    unfold disconnect
    split
    · rw [mine]
      refine .inl (Option.map_eq_none_iff.mpr ?_)
      exact Finmap.lookup_erase asker _
    · exact .inr rfl
  · exact quiet.stays mine

theorem stays_claimTry {codeId : String} {now : Nat} :
    (claimTry codeId now).Follows (Stays user) := by
  unfold claimTry
  split
  · refine stays_call.bind fun _ => ?_
    split
    · exact .pure
    · exact stays_call.bind fun _ => .bind (.change fun hub => ⟨.refl hub, .inr rfl⟩) fun _ => .pure
  · exact .pure

theorem stays_enroll {pubkey : PublicKey} {codeId name : String} {startedAt : Nat} :
    (enroll pubkey codeId name startedAt).Follows (Stays user) := by
  refine stays_call.bind fun enrolled => ?_
  split
  · exact .pure
  · refine .bind .current fun _ => .bind (.change fun hub => ?_) fun _ => .pure
    split
    · exact stays_send hub _ rfl
    · exact (@quiet_roleChanged (fun _ => False) hub _ _).stays not_false
    · exact refl_of (Stays user) hub

theorem stays_endRun (hub : Hub) (codeId : String) (mintedBy : Option UserId) :
    Stays user hub (hub.endRun codeId mintedBy) := by
  have left : Stays user hub (hub.finishRun codeId).2 := by
    unfold finishRun
    split
    · exact refl_of (Stays user) hub
    · split
      · exact ⟨.refl hub, .inr rfl⟩
      · exact ⟨.refl hub, .inr rfl⟩
  unfold endRun
  generalize hub.finishRun codeId = ended at left
  obtain ⟨last, between⟩ := ended
  dsimp only at left ⊢
  have looked : Stays user between (read (Database.invite codeId) between).2 := stays_call between
  split
  · generalize read (Database.invite codeId) between = found at looked
    replace looked := trans_of (Stays user) left looked
    split
    · rename_i invite after
      split
      · have burned := trans_of (Stays user) looked
          (stays_call after : Stays user after (write (Database.deleteInvite codeId) after).2)
        split
        · exact trans_of (Stays user) burned (stays_send _ _ rfl)
        · exact burned
      · exact looked
    · exact looked
  · exact left

end Hub

/-! ### Connecting -/

namespace Core

variable {core next : Core}

theorem nextConn_of_ousts (leads : Leads Turn.ousts core next) : next.nextConn = core.nextConn := by
  refine leads.invariant (·.nextConn = core.nextConn) rfl fun between turn same ousts _ => ?_
  cases turn with
  | leave user =>
    unfold apply place moved
    dsimp only
    cases between.roomOf user <;> exact same
  | expel user =>
    unfold apply
    dsimp only
    split
    · exact same
    · exact same
  | signOut user => exact same
  | remember user target =>
    cases target with
    | none => exact same
    | some room => exact ousts.elim
  | _ => exact ousts.elim

/-- Settling a user keeps them on their connection. -/
theorem connOf_settles {user : UserId} (settles : core.Settles user next) (other : UserId) :
    next.connOf other = core.connOf other := by
  obtain rfl | ⟨_, rfl⟩ | ⟨room, _, _, rfl⟩ := settles
  · rfl
  · rfl
  · have seats : (core.apply (.enter user room)).seats =
        core.seats.modify user fun seat =>
          seat.placed (some room) (some (tracksAt core.nextMediaId)) :=
      core.seats_place user (some room)
    unfold connOf
    rw [seats, Map.lookup_modify]
    split
    · rw [Option.map_map]
      rfl
    · rfl

end Core

namespace Hub

open Attempt

variable {user : UserId} {conn : ConnId} {before after : Hub}

theorem connOf_of_sits {room : Option RoomId} (sits : before.sits user = some (conn, room)) :
    before.core.connOf user = some conn := by
  obtain ⟨seat, found, same, _⟩ := seat_of_sits sits
  rw [Core.connOf, found, Option.map_some, same]

/-- Signing in puts a user on the next connection. -/
theorem conn_welcome (hub : Hub) (row : UserRow) (wantRoom : Option RoomId) (clock : Clock) :
    (hub.welcome row wantRoom clock).2.core.connOf row.id = some (hub.nextConn + 1) := by
  obtain ⟨left, leads, _, settles, _⟩ := core_welcome hub row wantRoom clock
  rw [Core.connOf_settles settles, ← show left.nextConn = hub.nextConn from Core.nextConn_of_ousts leads]
  show ((left.seats.insert row.id _).lookup row.id).map _ = _
  rw [Finmap.lookup_insert]
  rfl

/-- What changes neither the seats nor what is sent may come first. -/
theorem Told.of_same_start {between : Hub} (log : between.log = before.log)
    (sits : between.sits user = before.sits user) (told : Told user conn between after) :
    Told user conn before after := by
  intro room room' was is
  obtain ⟨events, sent, settled⟩ := told room room' (sits.trans was) is
  refine ⟨events, ?_, settled⟩
  rw [sent, sentTo, sentTo, log]

/-- Whoever stays on their connection while someone connects stays where they are. -/
theorem connect_told (orderly : before.core.Orderly) (row : UserRow) (wantRoom : Option RoomId)
    (clock : Clock) :
    (connect row wantRoom clock).Ends (fun _ => Told user conn before)
      (fun _ => Told user conn before) before := by
  have idle : Idle clock before before := Idle.refl before
  refine .bind (idle.read_ends (fun after idle => ?_) fun _ idle => .of_idle idle)
  split
  · exact .pure (.of_idle idle)
  · rename_i current found
    refine .bind (idle.write_ends (fun between idle => .bind (.current ?_)) fun _ idle => .of_idle idle)
    have unmoved : Told user conn before between := .of_idle idle
    let seen : Hub := { between with db := between.db.markSeen row.id clock.unixNow }
    split
    · exact .pure unmoved
    · refine .map (.take (@Told.of_same_start user conn before _ seen ?_ ?_ ?_))
      · have log := congrArg Hub.log idle.same
        exact log
      · exact congrFun (sits_of_core idle.core) user
      by_cases mine : user = current.id
      · intro room room' was is
        rw [mine] at was is
        obtain ⟨seat, there, same, _⟩ := seat_of_sits was
        have orderly : between.core.Orderly := idle.core ▸ orderly
        have old := orderly.connected.known current.id seat there
        have new := (connOf_of_sits is).symm.trans (conn_welcome seen current wantRoom clock)
        rw [same, Option.some.inj new] at old
        exact absurd old (Nat.not_succ_le_self _)
      · exact .of_quiet (@quiet_welcome (· = current.id) seen current rfl wantRoom clock) mine

/-! ### Requests -/

theorem isCurrent_iff {hub : Hub} {asker : UserId} {origin : ConnId} :
    hub.isCurrent asker origin = true ↔ ∃ room, hub.sits asker = some (origin, room) := by
  unfold isCurrent sits
  rw [Option.any_eq_true]
  constructor
  · rintro ⟨session, found, same⟩
    rw [found]
    exact ⟨session.room, congrArg (fun conn => some (conn, session.room)) (of_decide_eq_true same)⟩
  · rintro ⟨room, sits⟩
    obtain ⟨session, found, same⟩ := Option.map_eq_some_iff.mp sits
    exact ⟨session, found, decide_eq_true (congrArg Prod.fst same)⟩

/-- An admitted request is cut off after it has moved a user out. -/
def CutOff (clock : Clock) (hub : Hub) (asker : UserId) (origin : ConnId) (request : Request)
    (user : UserId) : Prop :=
  match request with
  | .deleteRoom room => hub.Admits clock asker origin request ∧ hub.CutsOff asker room user
  | _ => False

/-- Whoever a request moves is told, but if they asked for it themselves or it is cut off. -/
theorem dispatch_told (orderly : before.core.Orderly) (primitives : Primitives)
    (asker : UserId) (origin : ConnId) (request : Request)
    (draws : Nat → Fin (idChars + secretChars) → UInt8) (clock : Clock)
    (was : before.isCurrent user conn = true)
    (other : asksToMove request = true → ¬ (asker = user ∧ origin = conn)) :
    (dispatch primitives asker origin request draws clock).Ends (fun _ => Told user conn before)
      (fun _ after => before.CutOff clock asker origin request user ∨ Told user conn before after)
      before := by
  refine dispatch_ends (fun admits => ?_) fun _ after _ idle => .inr (.of_idle idle)
  have idle := idle_admitted clock before asker request
  have started : ∀ after, Told user conn (before.admitted clock asker request) after →
      Told user conn before after := by
    intro after told
    refine told.of_same_start ?_ (congrFun (sits_of_core idle.core) user)
    have log := congrArg Hub.log idle.same
    exact log
  have admittedOrderly : (before.admitted clock asker request).core.Orderly := idle.core ▸ orderly
  have stayed : ∀ {computation : HubM Handled}, computation.Follows (Stays user) →
      computation.Ends (fun _ => Told user conn before)
        (fun _ after => before.CutOff clock asker origin request user ∨ Told user conn before after)
        (before.admitted clock asker request) := by
    intro computation stays
    refine (stays.ends _).mono (fun _ after stays => ?_) fun _ after stays => .inr ?_
    · exact started after (.of_stays stays)
    · exact started after (.of_stays stays)
  by_cases plain : isPlain request = true
  · have keeps := @keeps_perform (fun mover => mover = asker ∧ asksToMove request = true) primitives
      asker request draws clock plain fun moves => ⟨rfl, moves⟩
    refine stayed (keeps.stays ?_)
    rintro ⟨rfl, moves⟩
    obtain ⟨room, is⟩ := isCurrent_iff.mp was
    obtain ⟨room', is'⟩ := isCurrent_iff.mp admits.1
    exact other moves ⟨rfl, congrArg Prod.fst (Option.some.inj (is'.symm.trans is))⟩
  · cases request with
    | createInvite => exact stayed (.map stays_createInvite)
    | removeUser target cascade => exact stayed (.map stays_removeUser)
    | kickFromRoom target room =>
      have told := @kickFromRoom_told user conn _ admittedOrderly asker target room clock
      refine .map (told.mono ?_ ?_)
      · exact fun _ after told => started after told
      · exact fun _ after told => .inr (started after told)
    | deleteRoom room =>
      have told := @deleteRoom_told user conn _ admittedOrderly.seated asker room clock
      refine .map (told.mono ?_ ?_)
      · exact fun _ after told => started after told
      · exact fun _ after ends => ends.imp (fun cut => ⟨admits, cut⟩) (started after)
    | _ => exact absurd rfl plain

/-- Finishing another's password work, or work of one's own that moves nobody, moves nobody
without their knowledge. -/
theorem finish_told (asker : UserId) (origin : ConnId) (done : PasswordDone) (clock : Clock)
    (was : before.isCurrent user conn = true)
    (other : ∀ room hash matched, done = .join room hash matched → ¬ (asker = user ∧ origin = conn)) :
    Told user conn before (finish asker origin done clock before).2 := by
  by_cases current : before.isCurrent asker origin = true
  · let may : UserId → Prop := fun mover =>
      mover = asker ∧ ∃ room hash matched, done = .join room hash matched
    have keeps := @keeps_finish may asker origin done clock fun room hash matched same =>
      ⟨rfl, room, hash, matched, same⟩
    refine .of_quiet (keeps before) ?_
    rintro ⟨rfl, room, hash, matched, same⟩
    obtain ⟨room, is⟩ := isCurrent_iff.mp was
    obtain ⟨room', is'⟩ := isCurrent_iff.mp current
    exact other _ hash matched same ⟨rfl, congrArg Prod.fst (Option.some.inj (is'.symm.trans is))⟩
  · have refused : (finish asker origin done clock before).2 = before := by
      have ends : (finish asker origin done clock).Ends (fun _ after => after = before)
          (fun _ after => after = before) before :=
        .bind (.bind (.current (.require (fun is => absurd is current) rfl)))
      exact ends.after
    rw [refused]
    exact .of_sits (.refl before) rfl

/-! ### A session's own requests to move -/

/-- What an answer to a session's own request to move says of it. Nobody is told that they are
out of a room. -/
def Answers (user : UserId) (before : Hub) (answer : Except Refusal Response) (after : Hub) : Prop :=
  before.Hushed after ∧
    match answer with
    | .ok (.placement placement) => after.core.roomOf user = placement.room
    | _ => after.sits user = before.sits user

theorem Refused.sits {clock : Clock} (refused : Refused clock before after) :
    after.sits = before.sits := by
  funext user
  rw [sits_eq, sits_eq, refused.seats_profile.1]

/-- A request to move is granted, refused, or waits for its password work. -/
theorem dispatch_answers (primitives : Primitives) (request : Request)
    (draws : Nat → Fin (idChars + secretChars) → UInt8) (clock : Clock)
    (asks : asksToMove request = true) :
    (dispatch primitives user conn request draws clock).Ends
      (fun handled after => match handled with
        | .done response => Answers user before (.ok response) after
        | .pending work => (∃ room password hash, work = .join room password hash) ∧
            before.Hushed after ∧ after.sits user = before.sits user)
      (fun refusal after => Answers user before (.error refusal) after) before := by
  refine dispatch_ends (fun _ => ?_) fun _ after _ idle => ?_
  rotate_left
  · have log := congrArg Hub.log idle.same
    exact ⟨⟨[], log.trans (List.append_nil _).symm, rfl⟩, congrFun (sits_of_core idle.core) user⟩
  have idle := idle_admitted clock before user request
  have log := congrArg Hub.log idle.same
  have began : before.Hushed (before.admitted clock user request) :=
    ⟨[], log.trans (List.append_nil _).symm, rfl⟩
  obtain ⟨target, password, same⟩ : ∃ target password,
      perform primitives user request draws clock = join user target password clock := by
    cases request with
    | joinRoom room password => exact ⟨some room, password, rfl⟩
    | leaveRoom => exact ⟨none, none, rfl⟩
    | _ => cases asks
  rw [same]
  have keeps : KeepsQuiet (· = user) (join user target password clock) := keeps_join rfl
  refine ((join_ends idle user target password).and (keeps.ends _)).mono ?_ ?_
  · rintro handled after ⟨ends, quiet⟩
    cases handled with
    | done response =>
      obtain ⟨joins, ⟨placement, rfl, room⟩, _⟩ := ends
      exact ⟨began.trans quiet.hushed, joins.roomOf.trans room.symm⟩
    | pending work =>
      obtain ⟨idle, room, password, hash, _, rfl⟩ := ends
      exact ⟨⟨room, password, hash, rfl⟩, began.trans quiet.hushed,
        congrFun (sits_of_core idle.core) user⟩
  · exact fun refusal after ⟨refused, quiet⟩ =>
      ⟨began.trans quiet.hushed, congrFun refused.sits user⟩

/-- Once its password work is done, a request to move is granted or refused. -/
theorem finish_answers (room : RoomId) (hash : String) (matched : Bool) (clock : Clock) :
    (finish user conn (.join room hash matched) clock).Ends
      (fun response after => Answers user before (.ok response) after)
      (fun refusal after => Answers user before (.error refusal) after) before := by
  have idle : Idle clock before before := Idle.refl before
  refine .bind (.bind (.current (.require (fun _ => ?_) ⟨.refl before, rfl⟩)))
  have keeps : KeepsQuiet (· = user) (finishJoin user room hash matched clock) := keeps_finishJoin rfl
  refine ((finishJoin_ends idle user room hash matched).and (keeps.ends _)).mono ?_ ?_
  · rintro response after ⟨⟨joins, ⟨placement, rfl, there⟩, _⟩, quiet⟩
    exact ⟨quiet.hushed, joins.roomOf.trans there.symm⟩
  · exact fun refusal after ⟨refused, quiet⟩ => ⟨quiet.hushed, congrFun refused.sits user⟩

end Hub

/-! ### Steps of the server -/

namespace Server

/-- The step serves a request of this session to move. -/
def ServesMove (server : Server) (user : UserId) (conn : ConnId) (input : Input) : Prop :=
  match input.action with
  | .request asker origin request =>
    asker = user ∧ origin = conn ∧ Hub.asksToMove request = true
  | .finish index _ => ∃ pending ∈ server.pending[index]?, pending.user = user ∧
      pending.conn = conn ∧ ∃ room password hash, pending.work = .join room password hash
  | _ => False

/-- The step deletes a room and is cut off after it has moved `user` out. -/
def CutsOff (server : Server) (user : UserId) (input : Input) : Prop :=
  match input.action with
  | .request asker origin request =>
    (server.working input).CutOff input.clock asker origin request user
  | _ => False

/-- Whoever stays on their connection is told of the rooms a step takes them out of, but if they
asked for it themselves or a deletion is cut off. -/
theorem step_told (primitives : Primitives) (server : Server) (orderly : server.hub.core.Orderly)
    (input : Input) {user : UserId} {conn : ConnId}
    (was : server.hub.isCurrent user conn = true)
    (other : ¬ server.ServesMove user conn input) (whole : ¬ server.CutsOff user input) :
    Hub.Told user conn server.hub (step primitives server input).hub := by
  let hub := server.working input
  have started : ∀ after, Hub.Told user conn hub after → Hub.Told user conn server.hub after :=
    fun _ told => told
  have stayed : ∀ after, Hub.Stays user hub after → Hub.Told user conn server.hub after :=
    fun _ stays => started _ (.of_stays stays)
  cases action : input.action with
  | connect row wantRoom =>
    unfold step
    dsimp only
    rw [action]
    exact (@Hub.connect_told user conn hub orderly row wantRoom input.clock).after
  | disconnect asker origin =>
    unfold step
    dsimp only
    rw [action]
    exact stayed _ (Hub.stays_disconnect hub asker origin input.clock)
  | request asker origin request =>
    rw [hub_step_request primitives server input action]
    unfold ServesMove at other
    unfold CutsOff at whole
    rw [action] at other whole
    have told := @Hub.dispatch_told user conn hub orderly primitives asker origin request
      input.draws input.clock was fun asks same => other ⟨same.1, same.2, asks⟩
    refine (told.mono (fun _ _ told => told) fun _ after ends => ?_).after
    exact ends.resolve_left whole
  | finish index hashed =>
    cases found : server.pending[index]? with
    | none =>
      unfold step
      dsimp only
      rw [action]
      dsimp only
      rw [found]
      exact .of_sits (.refl server.hub) rfl
    | some pending =>
      rw [hub_step_finish primitives server input action found]
      refine @Hub.finish_told user conn hub pending.user pending.conn _ input.clock was ?_
      intro room hash matched same mine
      unfold ServesMove at other
      rw [action] at other
      refine other ⟨pending, found, mine.1, mine.2, ?_⟩
      cases work : pending.work with
      | join room password hash => exact ⟨room, password, hash, rfl⟩
      | createRoom name password =>
        rw [work] at same
        cases same
      | setRoomPassword room password =>
        rw [work] at same
        cases same
  | removeInactive =>
    unfold step
    dsimp only
    rw [action]
    exact stayed _ (Hub.stays_removeInactive hub)
  | flushKeyframes =>
    unfold step
    dsimp only
    rw [action]
    exact stayed _ ((@Hub.quiet_flushKeyframes (fun _ => False) hub input.clock).stays not_false)
  | claimTry codeId =>
    unfold step
    dsimp only
    rw [action]
    exact stayed _ (Hub.stays_claimTry hub)
  | enroll pubkey codeId name startedAt =>
    unfold step
    dsimp only
    rw [action]
    exact stayed _ (Hub.stays_enroll hub)
  | endRun codeId mintedBy =>
    unfold step
    dsimp only
    rw [action]
    exact stayed _ (Hub.stays_endRun hub codeId mintedBy)
  | adminInvite =>
    unfold step
    dsimp only
    rw [action]
    exact stayed _ (Hub.stays_mintInvite hub)
  | restart =>
    unfold step
    dsimp only
    rw [action]
    exact .of_gone rfl

end Server

end Throcc
