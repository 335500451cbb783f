/-
This file proves who comes into a locked room. A user who may not manage rooms
has given the very password the room has, or reconnects to it and has been
neither kicked from it, nor demoted while it was locked, nor absent when its
password was set since they last came in. One thing undoes that: a user who has
been demoted in a locked room asks to join that very room, and the hub notes
again that they may return.
-/

import Throcc.Locks

namespace Throcc

namespace Core

variable {core next : Core}

/-! ### Coming in and being barred -/

/-- The connection a user is signed in on. -/
def connOf (core : Core) (user : UserId) : Option ConnId :=
  (core.seats.lookup user).map (·.connId)

/-- A user has become a member of a room, or is one on another connection than before. -/
def Enters (core next : Core) (user : UserId) (room : RoomId) : Prop :=
  user ∈ next.occupants room ∧
    (user ∈ core.occupants room → core.connOf user ≠ next.connOf user)

instance (user : UserId) (room : RoomId) : Decidable (core.Enters next user room) :=
  inferInstanceAs (Decidable (_ ∧ _))

/-- A user has lost a role that enters locked rooms without a password. -/
def Demoted (core next : Core) (user : UserId) : Prop :=
  ∃ role role', core.roleOf user = some role ∧ canManageRooms role = true ∧
    next.roleOf user = some role' ∧ canManageRooms role' = false

theorem seat_of_roomOf {user : UserId} {room : RoomId} (inside : core.roomOf user = some room) :
    ∃ seat, core.seats.lookup user = some seat ∧ seat.room = some room :=
  Option.bind_eq_some_iff.mp inside

theorem enters_iff (before : core.Seated) (after : next.Seated) {user : UserId} {room : RoomId} :
    core.Enters next user room ↔ core.Comes next user room := by
  unfold Enters
  rw [← before.member, ← after.member]
  constructor
  · rintro ⟨inside, new⟩
    obtain ⟨seat, found, there⟩ := seat_of_roomOf inside
    refine ⟨seat, found, there, fun earlier was there' same => ?_⟩
    refine new ?_ ?_
    · rw [roomOf, was]
      exact there'
    · rw [connOf, connOf, was, found]
      exact congrArg some same
  · rintro ⟨seat, found, there, new⟩
    refine ⟨?_, fun inside same => ?_⟩
    · rw [roomOf, found]
      exact there
    · obtain ⟨earlier, was, there'⟩ := seat_of_roomOf inside
      rw [connOf, connOf, was, found] at same
      exact new earlier was there' (Option.some.inj same)

/-- A demoted user is no longer noted to have joined a room that is locked. -/
theorem forgets_of_role {user : UserId} {role : Role} {room : RoomId}
    (plain : canManageRooms role = false) (locked : (core.lockOf room).isSome) :
    (core.apply (.role user role)).lastJoined.lookup user ≠ some room := by
  intro found
  have was := @recalls_apply core (.role user role) trivial user room found
  have closed : core.lastJoinedLocked user = true := by
    unfold lockOf at locked
    obtain ⟨hash, same⟩ := Option.isSome_iff_exists.mp locked
    obtain ⟨entry, there, has⟩ := Option.bind_eq_some_iff.mp same
    rw [lastJoinedLocked, was, Option.any_some, there, Option.any_some, has]
    rfl
  unfold apply takeRole at found
  dsimp only at found
  split at found
  · exact nomatch (Finmap.lookup_erase ..).symm.trans found
  · rename_i kept
    exact kept ⟨by simp [plain], closed⟩

/-- A demotion leaves no room that is locked noted as the one the user last joined. -/
theorem forgets_of_demoted {may : May} (consistent : core.Consistent)
    (steps : Steps may core next) {user : UserId} {room : RoomId}
    (demoted : core.Demoted next user) (locked : (core.lockOf room).isSome) :
    next.lastJoined.lookup user ≠ some room := by
  obtain ⟨role, role', was, manages, is, plain⟩ := demoted
  have moved : next.roleOf user ≠ some role := by
    rw [is]
    rintro same
    rw [Option.some.inj same, manages] at plain
    cases plain
  cases steps with
  | leads leads => exact absurd (KeepsRoles.leads consistent leads user role was) moved
  | adds name passwordHash does =>
    rw [does.2] at moved
    exact absurd was moved
  | appoints other given _ does =>
    have roles := core.roleOf_role other user given
    rw [← does.2] at roles
    by_cases same : user = other
    · rw [if_pos same, was, is] at roles
      obtain rfl := Option.some.inj roles
      rw [does.2, ← same]
      exact forgets_of_role plain locked
    · rw [if_neg same] at roles
      exact absurd (roles.trans was) moved
  | removes ids _ removes =>
    have roles := roleOf_removes removes user
    split at roles
    · exact nomatch roles.symm.trans is
    · exact absurd (roles.trans was) moved
  | half _ other encryptionKey does =>
    have keeps : core.KeepsRoles next := by
      rw [does.2]
      exact roleOf_modify (core.users_apply _) fun _ => by rfl
    exact absurd (keeps user role was) moved

/-- Whoever is outside a room when its password changes is not noted to have joined it. -/
theorem forgets_of_lock {user : UserId} {room : RoomId} {passwordHash : Option String}
    (outside : user ∉ core.occupants room) :
    (core.apply (.lock room passwordHash)).lastJoined.lookup user ≠ some room := by
  intro found
  have found : (core.lastJoined.retain fun user joined =>
      joined ≠ room ∨ user ∈ core.occupants room).lookup user = some room := found
  rw [Map.lookup_retain] at found
  obtain ⟨_, kept⟩ := Option.filter_eq_some_iff.mp found
  simp [outside] at kept

end Core

/-! ### Steps that bar a user -/

namespace Server

open Attempt

variable (primitives : Primitives)

/-- The password of a room is set, changed or removed. -/
def Relocks (server : Server) (input : Input) (room : RoomId) : Prop :=
  (∃ user conn, input.action = .request user conn (.setRoomPassword room none) ∧
    (Hub.dispatch primitives user conn (.setRoomPassword room none) input.draws input.clock
      (server.working input)).1.isOk = true) ∨
  ∃ index hashed user conn password, input.action = .finish index hashed ∧
    server.pending[index]? = some ⟨user, conn, .setRoomPassword room password⟩ ∧
    (Hub.finish user conn (.setRoomPassword room hashed) input.clock
      (server.working input)).1.isOk = true

/-- A step after which a user may not return to a room without its password: they are kicked from
it, demoted while it is locked, or outside when its password is set. -/
inductive Bars (server : Server) (input : Input) (user : UserId) (room : RoomId) : Prop where
  | kicked (actor : UserId) (conn : ConnId)
      (action : input.action = .request actor conn (.kickFromRoom user room))
      (inside : user ∈ server.hub.core.occupants room)
      (out : user ∉ (step primitives server input).hub.core.occupants room)
  | demoted (demoted : server.hub.core.Demoted (step primitives server input).hub.core user)
      (locked : (server.hub.core.lockOf room).isSome)
  | relocked (relocks : server.Relocks primitives input room)
      (outside : user ∉ server.hub.core.occupants room)

theorem lock_of_relocks {server : Server} {input : Input} {room : RoomId}
    (relocks : server.Relocks primitives input room) :
    ∃ passwordHash, server.hub.core.Does (.lock room passwordHash)
      (step primitives server input).hub.core := by
  have idle : Hub.Idle input.clock (server.working input) (server.working input) :=
    Hub.Idle.refl _
  obtain ⟨user, conn, action, success⟩ | ⟨index, hashed, user, conn, password, action, found,
    success⟩ := relocks
  · rw [hub_step_request primitives server input action]
    have ends : (Hub.dispatch primitives user conn (.setRoomPassword room none) input.draws
        input.clock).Ends
        (fun _ after => server.hub.core.Does (.lock room none) after.core) (fun _ _ => True)
        (server.working input) := by
      refine Hub.dispatch_ends (fun _ => ?_) fun _ _ _ _ => trivial
      have idle := Hub.idle_admitted input.clock (server.working input) user
        (.setRoomPassword room none)
      refine .bind (Hub.mayManageRoom_ends idle ?_ fun _ => trivial)
      refine .map ((Hub.storeRoomPassword_ends idle room none).mono ?_ fun _ _ _ => trivial)
      exact fun _ _ does => does
    obtain ⟨_, does⟩ := ends.of_success success
    exact ⟨none, does⟩
  · rw [hub_step_finish primitives server input action found]
    have ends : (Hub.finish user conn (.setRoomPassword room hashed) input.clock).Ends
        (fun _ after => ∃ passwordHash, server.hub.core.Does (.lock room passwordHash) after.core)
        (fun _ _ => True) (server.working input) := by
      refine .bind (Hub.requireCurrent_ends (fun _ => ?_) fun _ => trivial)
      refine .bind (.okOr (fun hash _ => ?_) trivial)
      refine .bind (Hub.mayManageRoom_ends idle ?_ fun _ => trivial)
      refine (Hub.storeRoomPassword_ends idle room (some hash)).mono ?_ fun _ _ _ => trivial
      exact fun _ _ does => ⟨some hash, does⟩
    obtain ⟨_, does⟩ := ends.of_success success
    exact does

theorem forgets_of_kick {server : Server} {input : Input} {actor user : UserId} {conn : ConnId} {room : RoomId}
    (action : input.action = .request actor conn (.kickFromRoom user room))
    (inside : user ∈ server.hub.core.occupants room)
    (out : user ∉ (step primitives server input).hub.core.occupants room) (target : RoomId) :
    (step primitives server input).hub.core.lastJoined.lookup user ≠ some target := by
  rw [hub_step_request primitives server input action] at out ⊢
  let forgets (after : Hub) : Prop :=
    after.core = server.hub.core ∨ ∀ target, after.core.lastJoined.lookup user ≠ some target
  have ends : (Hub.dispatch primitives actor conn (.kickFromRoom user room) input.draws
      input.clock).Ends (fun _ => forgets) (fun _ => forgets) (server.working input) := by
    refine Hub.dispatch_ends (fun _ => ?_) fun _ _ _ idle => .inl idle.core
    have idle := Hub.idle_admitted input.clock (server.working input) actor
      (.kickFromRoom user room)
    refine .map ((Hub.kickFromRoom_ends idle actor user room).mono ?_ fun _ _ idle => .inl idle.core)
    rintro _ after ⟨_, leads, _⟩
    refine .inr fun target found => ?_
    have was := (Core.Calm.ousts leads).recalls user target found
    exact nomatch (Finmap.lookup_erase ..).symm.trans was
  obtain same | forgets := ends.after
  · rw [same] at out
    exact absurd inside out
  · exact forgets target

/-- What bars a user from a room makes the hub forget that they joined it. -/
theorem forgets_of_bars {server : Server} (consistent : server.hub.core.Consistent)
    {input : Input} {user : UserId} {room : RoomId} (bars : server.Bars primitives input user room) :
    (step primitives server input).hub.core.lastJoined.lookup user ≠ some room := by
  cases bars with
  | kicked actor conn action inside out =>
    exact forgets_of_kick primitives action inside out room
  | demoted demoted locked =>
    exact Core.forgets_of_demoted consistent (server.steps primitives consistent.toOrderly input)
      demoted locked
  | relocked relocks outside =>
    obtain ⟨passwordHash, _, same⟩ := lock_of_relocks primitives relocks
    rw [same]
    exact Core.forgets_of_lock outside

/-! ### What one step allows -/

variable {primitives}

/-- Who is noted after a step to have joined a room isn't barred from it in the step, and has come
in, was noted before it, or asks to join the room they are in. -/
theorem noted_step {server : Server} (consistent : server.hub.core.Consistent) {input : Input}
    {user : UserId} {room : RoomId}
    (found : (step primitives server input).hub.core.lastJoined.lookup user = some room) :
    ¬ server.Bars primitives input user room ∧
      (server.hub.core.Enters (step primitives server input).hub.core user room ∨
        server.hub.core.lastJoined.lookup user = some room ∨
        server.Asks primitives input user room ∧ user ∈ server.hub.core.occupants room) := by
  refine ⟨fun bars => forgets_of_bars primitives consistent bars found, ?_⟩
  cases settling primitives server input consistent.keyed with
  | calm calm => exact .inr (.inl (calm.recalls user room found))
  | joins mover target proved joins may asks proves =>
    obtain ⟨rfl, rfl⟩ | was := joins.recalls found
    · by_cases inside : user ∈ server.hub.core.occupants room
      · exact .inr (.inr ⟨asks, inside⟩)
      · have after := consistent.steps (server.steps primitives consistent.toOrderly input)
        exact .inl ⟨(after.seated.member user room).mp joins.roomOf, fun there => absurd there inside⟩
    · exact .inr (.inl was)
  | connects row wantRoom left action calm settles wants =>
    rw [settles.keeps.1] at found
    exact .inr (.inl (calm.recalls user room found))

/-- Whoever comes into a locked room has given its password, manages rooms, or reconnects to the
room they are noted to have joined. -/
theorem entering_step {server : Server} (consistent : server.hub.core.Consistent) {input : Input}
    {user : UserId} {room : RoomId} {hash : String}
    (enters : server.hub.core.Enters (step primitives server input).hub.core user room)
    (locked : (step primitives server input).hub.core.lockOf room = some hash)
    (plain : ¬ (step primitives server input).hub.core.Manages user) :
    server.Proves primitives input user room hash ∨
      (∃ row, input.action = .connect row (some room) ∧ row.id = user) ∧
        server.hub.core.lastJoined.lookup user = some room := by
  have after := consistent.steps (server.steps primitives consistent.toOrderly input)
  have comes := (Core.enters_iff consistent.seated after.seated).mp enters
  cases settling primitives server input consistent.keyed with
  | calm calm => exact absurd comes (calm.not_comes user room)
  | joins mover target proved joins may asks proves =>
    obtain ⟨rfl, rfl, shown⟩ := may.of_comes joins comes locked plain
    exact .inl (proves hash shown)
  | connects row wantRoom left action calm settles wants =>
    obtain ⟨lastJoined, locks, manages⟩ := settles.keeps
    obtain ⟨seat, found, inside, new⟩ := comes
    have late : left.Comes (step primitives server input).hub.core user room := by
      refine ⟨seat, found, inside, fun between there inside' same => ?_⟩
      obtain ⟨earlier, was, inside, conn⟩ := calm.stays user between room there inside'
      exact new earlier was inside (conn.trans same)
    obtain ⟨rfl, open' | manager | noted⟩ := settles.comes late
    · obtain ⟨entry, there, unlocked⟩ := open'
      rw [locks, Core.lockOf, there, Option.bind_some, unlocked] at locked
      cases locked
    · exact absurd (manages _ manager) plain
    · have mine := wants room ((after.seated.member row.id room).mpr enters.1)
      exact .inr ⟨⟨row, mine ▸ action, rfl⟩, calm.recalls row.id room noted⟩

/-! ### Runs -/

variable (primitives) (fingerprint : Fingerprint) (clock : Clock)

/-- The server a run leads to. -/
def reach (inputs : List Input) : Server := run (step primitives) (fresh fingerprint clock) inputs

/-- Since a user last came into a room, nothing has barred them from it. -/
def Unbarred (inputs : List Input) (user : UserId) (room : RoomId) : Prop :=
  Since (step primitives)
    (fun server input =>
      server.hub.core.Enters (step primitives server input).hub.core user room)
    (fun server input => server.Bars primitives input user room) (fresh fingerprint clock) inputs

/-- A user who has been barred from the room they are still in asks to join it. -/
def Resumes (inputs : List Input) (input : Input) : Prop :=
  ∃ user room, (reach primitives fingerprint clock inputs).Asks primitives input user room ∧
    user ∈ (reach primitives fingerprint clock inputs).hub.core.occupants room ∧
    ¬ Unbarred primitives fingerprint clock inputs user room

/-- Whoever comes into a locked room, and may not manage rooms, has given the password whose hash
the room has, or reconnects to the room and hasn't been barred from it. -/
def Guarded (inputs : List Input) (input : Input) : Prop :=
  let before := reach primitives fingerprint clock inputs
  let after := step primitives before input
  ∀ user room hash, before.hub.core.Enters after.hub.core user room →
    after.hub.core.lockOf room = some hash → ¬ after.hub.core.Manages user →
    before.Proves primitives input user room hash ∨
      ∃ row, input.action = .connect row (some room) ∧ row.id = user ∧
        Unbarred primitives fingerprint clock inputs user room

/-- In a run in which nobody who has been barred from the room they are in asks to join it,
whoever comes into a locked room without managing rooms has given the password it has, or
reconnects to it and hasn't been barred from it since they last came in. -/
theorem run_locked (inputs : List Input) (input : Input)
    (held : Along (fun earlier input => earlier ++ [input])
      (fun earlier input => ¬ Resumes primitives fingerprint clock earlier input) [] inputs) :
    Guarded primitives fingerprint clock inputs input := by
  let reached (inputs : List Input) : Server := reach primitives fingerprint clock inputs
  have consistent : ∀ inputs, (reached inputs).hub.core.Consistent :=
    run_consistent primitives fingerprint clock
  -- Whoever is noted to have joined a room may return to it.
  have trusted := held.invariant (fun inputs => ∀ user room,
    (reached inputs).hub.core.lastJoined.lookup user = some room →
      Unbarred primitives fingerprint clock inputs user room) ?_ ?_
  · rw [run_record, List.nil_append] at trusted
    intro user room hash enters locked plain
    refine (entering_step (consistent inputs) enters locked plain).imp_right ?_
    rintro ⟨⟨row, action, mine⟩, noted⟩
    exact ⟨row, action, mine, trusted user room noted⟩
  · exact fun user room found => nomatch (Finmap.lookup_empty user).symm.trans found
  · intro earlier input trusted held user room found
    have reaches : reached (earlier ++ [input]) = step primitives (reached earlier) input :=
      run_concat ..
    rw [reaches] at found
    obtain ⟨free, entered | noted | ⟨asks, inside⟩⟩ := noted_step (consistent earlier) found
    · exact since_concat.mpr (.inl entered)
    · exact since_concat.mpr (.inr ⟨trusted user room noted, free⟩)
    · refine since_concat.mpr (.inr ⟨by_contra fun barred => ?_, free⟩)
      exact held ⟨user, room, asks, inside, barred⟩

/-! ### Returning to a locked room -/

variable {primitives fingerprint clock}

/-- The user who asks to join a room or whose password for it has been checked, and the room. -/
def asker (server : Server) (input : Input) : Option (UserId × RoomId) :=
  match input.action with
  | .request user _ (.joinRoom room _) => some (user, room)
  | .finish index _ => server.pending[index]?.bind fun pending =>
    match pending.work with
    | .join room _ _ => some (pending.user, room)
    | _ => none
  | _ => none

theorem asker_of_asks {server : Server} {input : Input} {user : UserId} {room : RoomId}
    (asks : server.Asks primitives input user room) : server.asker input = some (user, room) := by
  unfold asker
  obtain ⟨conn, password, action, _⟩ | ⟨index, hashed, conn, password, hash, action, found, _⟩ := asks
  · rw [action]
  · rw [action]
    dsimp only
    rw [found, Option.bind_some]

/-- Nobody resumes a room in a run in which nobody asks to join the room they are in. -/
theorem held_of_outside {inputs : List Input}
    (outside : Along (step primitives)
      (fun server input => ∀ asked ∈ server.asker input,
        asked.1 ∉ server.hub.core.occupants asked.2) (fresh fingerprint clock) inputs) :
    Along (fun earlier input => earlier ++ [input])
      (fun earlier input => ¬ Resumes primitives fingerprint clock earlier input) [] inputs := by
  refine Along.mono ?_ (@Along.record _ _ _ _ _ [] inputs outside)
  rintro earlier input outside ⟨user, room, asks, inside, _⟩
  exact outside _ (asker_of_asks asks) inside

/-- A second user, as invited by the first. -/
def plainUser : UserRow where
  id := 2
  pubkey := 8
  encryptionKey := none
  name := "user"
  avatar := none
  role := .user
  invitedBy := some 1
  createdAt := 1

/-- There is a locked room and a second user outside it. -/
def outsideLocked : List Input :=
  adminSignsIn ++
    [atOnce (.request 1 1 (.createRoom "room" (some "password"))),
      atOnce (.finish 0 (some "password")), atOnce (.request 1 1 .createInvite),
      atOnce (.claimTry "000"), atOnce (.enroll 8 "000" "user" 1), atOnce (.endRun "000" (some 1)),
      atOnce (.connect plainUser none), atOnce (.request 2 2 (.setEncryptionKey ⟨1, 1000, 0⟩))]

/-- The second user gives the password, and then their connection is lost. -/
def passwordGiven : List Input :=
  outsideLocked ++
    [atOnce (.request 2 2 (.joinRoom 1 (some "password"))), atOnce (.finish 0 none),
      atOnce (.disconnect 2 2)]

/-- The second user comes in as a manager, is demoted, asks to join the room they are in, and
then their connection is lost. -/
def managerEnters : List Input :=
  outsideLocked ++ [atOnce (.request 1 1 (.setRole 2 .manager)), atOnce (.request 2 2 (.joinRoom 1 none))]

def demotion : Input := atOnce (.request 1 1 (.setRole 2 .user))

def resumption : Input := atOnce (.request 2 2 (.joinRoom 1 none))

def loss : Input := atOnce (.disconnect 2 2)

def reconnection : Input := atOnce (.connect plainUser (some 1))

theorem run_locked_given :
    (reach openPrimitives 0 ⟨0, 0⟩ (passwordGiven ++ [reconnection])).hub.core.roomOf 2 = some 1 ∧
      Guarded openPrimitives 0 ⟨0, 0⟩ passwordGiven reconnection := by
  refine ⟨by decide +kernel, run_locked openPrimitives 0 ⟨0, 0⟩ passwordGiven reconnection
    (held_of_outside ?_)⟩
  decide +kernel

/-- A demoted user who asks to join the room they are in is let back into it later. -/
theorem run_locked_demoted :
    ¬ Guarded openPrimitives 0 ⟨0, 0⟩ (managerEnters ++ [demotion] ++ [resumption] ++ [loss])
      reconnection := by
  intro guarded
  have demoted : (reach openPrimitives 0 ⟨0, 0⟩ managerEnters).Bars openPrimitives demotion 2 1 := by
    refine .demoted ⟨.manager, .user, ?_, rfl, ?_, rfl⟩ ?_ <;> decide +kernel
  have barred : ¬ Unbarred openPrimitives 0 ⟨0, 0⟩
      (managerEnters ++ [demotion] ++ [resumption] ++ [loss]) 2 1 := by
    intro unbarred
    obtain entered | ⟨unbarred, _⟩ := since_concat.mp unbarred
    · revert entered
      decide +kernel
    obtain entered | ⟨unbarred, _⟩ := since_concat.mp unbarred
    · revert entered
      decide +kernel
    obtain entered | ⟨_, free⟩ := since_concat.mp unbarred
    · revert entered
      decide +kernel
    · exact free demoted
  obtain ⟨_, _, _, _, action, _⟩ | ⟨row, _, _, unbarred⟩ :=
    guarded 2 1 "password" (by decide +kernel) (by decide +kernel) (by decide +kernel)
  · cases action
  · exact barred unbarred

end Server

end Throcc
