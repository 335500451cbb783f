/-
This file proves who changes ranks: sessions have the role stored for their
user, only an admin's request changes another user's role or removes them, and
nothing that clients ask for takes the last admin.
-/

import Throcc.Reachable

namespace Throcc

namespace Core

variable {core next : Core}

/-! ### Stored roles -/

/-- The role stored for a user. -/
def roleOf (core : Core) (user : UserId) : Option Role := (core.users.lookup user).map (·.role)

/-- Everyone there has the role they had. -/
def KeepsRoles (core next : Core) : Prop :=
  ∀ user role, core.roleOf user = some role → next.roleOf user = some role

theorem KeepsRoles.same (users : next.users = core.users) : core.KeepsRoles next := by
  intro user role found
  rw [roleOf, users]
  exact found

theorem KeepsRoles.trans {last : Core} (first : core.KeepsRoles next)
    (second : next.KeepsRoles last) : core.KeepsRoles last :=
  fun user role found => second user role (first user role found)

theorem roleOf_modify {user : UserId} {update : UserRow → UserRow}
    (users : next.users = core.users.modify user update)
    (kept : ∀ row, (update row).role = row.role) : core.KeepsRoles next := by
  intro other role found
  rw [roleOf, users, Map.lookup_modify]
  split
  · rw [Option.map_map]
    exact (congrArg (Option.map · (core.users.lookup other)) (funext kept)).trans found
  · exact found

theorem roleOf_role (core : Core) (user other : UserId) (role : Role) :
    (core.apply (.role user role)).roleOf other =
      if other = user then (core.roleOf other).map fun _ => role else core.roleOf other := by
  rw [roleOf, users_apply]
  dsimp only
  rw [Map.lookup_modify]
  split
  · rw [roleOf, Option.map_map, Option.map_map]
    rfl
  · rfl

theorem roleOf_removeUsers (core : Core) (ids : List UserId) (user : UserId) :
    (core.apply (.removeUsers ids)).roleOf user = if user ∈ ids then none else core.roleOf user := by
  rw [roleOf, users_apply]
  dsimp only
  unfold roleOf
  generalize core.users = users
  induction ids generalizing users with
  | nil => rfl
  | cons removed rest inductionHypothesis =>
    rw [List.foldl_cons, inductionHypothesis, lookup_removeRow]
    by_cases same : user = removed
    · rw [if_pos same, if_pos (List.mem_cons.mpr (.inl same))]
      exact ite_self none
    · rw [if_neg same, Option.map_map]
      have member : user ∈ removed :: rest ↔ user ∈ rest := by
        rw [List.mem_cons]
        exact or_iff_right same
      simp only [member]
      refine congrArg (ite _ none) (congrArg (Option.map · (users.lookup user)) (funext ?_))
      intro row
      show (if row.invitedBy = some removed then _ else row).role = row.role
      split <;> rfl

theorem KeepsRoles.apply (recorded : core.Recorded) {turn : Turn} (sound : turn.sound)
    (appoints : ¬ turn.appoints) (allowed : core.Allows turn) :
    core.KeepsRoles (core.apply turn) := by
  have users := core.users_apply turn
  cases turn with
  | storeKey user encryptionKey => exact roleOf_modify users fun _ => rfl
  | halfKey user encryptionKey => exact sound.elim
  | renewKey user encryptionKey => exact roleOf_modify users fun _ => rfl
  | rekey user encryptionKey => exact roleOf_modify users fun _ => rfl
  | profile user name avatar => exact roleOf_modify users fun _ => rfl
  | role user role => exact (appoints trivial).elim
  | removeUsers ids => exact sound.elim
  | addUser row =>
    intro user role found
    obtain ⟨stored, there, _⟩ := Option.map_eq_some_iff.mp found
    have different : user ≠ row.id := by
      have known := recorded.numbered user (Finmap.mem_of_lookup_eq_some there)
      have new : row.id = core.lastUser + 1 := allowed
      unfold UserId at *
      omega
    rw [roleOf, users]
    dsimp only
    rw [Finmap.lookup_insert_of_ne _ different]
    exact found
  | _ => exact KeepsRoles.same users

theorem users_of_ousts (leads : Leads Turn.ousts core next) : next.users = core.users := by
  refine leads.invariant (·.users = core.users) rfl fun between turn same ousts _ => ?_
  rw [users_apply]
  cases turn with
  | leave _ => exact same
  | expel _ => exact same
  | signOut _ => exact same
  | remember _ _ => exact same
  | _ => exact ousts.elim

theorem KeepsRoles.leads (consistent : core.Consistent) (leads : Leads Turn.steady core next) :
    core.KeepsRoles next := by
  refine (leads.invariant (fun between => between.Consistent ∧ core.KeepsRoles between)
    ⟨consistent, .same rfl⟩ ?_).2
  intro between turn ⟨consistent, keeps⟩ steady allowed
  exact ⟨consistent.apply steady.1 allowed,
    keeps.trans (.apply consistent.recorded steady.1 steady.2.2 allowed)⟩

theorem roleOf_removes {ids : List UserId} (removes : core.Removes ids next) (user : UserId) :
    next.roleOf user = if user ∈ ids then none else core.roleOf user := by
  rw [← roleOf_removeUsers, roleOf, users_of_ousts removes.1]
  rfl

/-- A step keeps all roles, gives one user another, or removes users. -/
theorem Steps.roles {may : May} (consistent : core.Consistent) (steps : Steps may core next) :
    core.KeepsRoles next ∨
      (∃ user role, may.appoints user role ∧ ∀ other, next.roleOf other =
        if other = user then (core.roleOf other).map fun _ => role else core.roleOf other) ∨
      ∃ ids, may.removes ids ∧ ∀ other,
        next.roleOf other = if other ∈ ids then none else core.roleOf other := by
  cases steps with
  | leads leads => exact .inl (.leads consistent leads)
  | adds name passwordHash does =>
    rw [does.2]
    exact .inl (.same rfl)
  | appoints user role may does =>
    rw [does.2]
    exact .inr (.inl ⟨user, role, may, fun other => core.roleOf_role user other role⟩)
  | removes ids may removes => exact .inr (.inr ⟨ids, may, roleOf_removes removes⟩)
  | half may user encryptionKey does =>
    rw [does.2]
    exact .inl (roleOf_modify (core.users_apply _) fun _ => rfl)

end Core

namespace Hub

/-- Sessions have the role stored for their user, and whoever isn't stored has no session and is
in no room. -/
structure RolesAgree (hub : Hub) : Prop where
  current : ∀ user session, hub.sessions.lookup user = some session →
    ∃ row, hub.db.users.lookup user = some row ∧ session.row.role = row.role
  removed : ∀ user, user ∉ hub.db.users →
    user ∉ hub.sessions ∧ ∀ room entry, hub.rooms.lookup room = some entry → user ∉ entry.members

/-- A user's role has changed. -/
def Reassigned (before after : Hub) (user : UserId) : Prop :=
  ∃ row row', before.db.users.lookup user = some row ∧ after.db.users.lookup user = some row' ∧
    row'.role ≠ row.role

/-- A user has been removed. -/
def Expelled (before after : Hub) (user : UserId) : Prop :=
  user ∈ before.db.users ∧ user ∉ after.db.users

/-- If any role has changed or anyone but `user` has been removed, `user` is signed in as an
admin, and whoever it has happened to ranked below them. -/
def Governs (before : Hub) (user : UserId) (after : Hub) : Prop :=
  (∃ target, Reassigned before after target ∨ (Expelled before after target ∧ target ≠ user)) →
    ∃ session, before.sessions.lookup user = some session ∧ session.row.role = .admin ∧
      ∀ target, Reassigned before after target ∨ Expelled before after target →
        ∃ row, before.db.users.lookup target = some row ∧
          row.role.rank < session.row.role.rank

/-- Some stored user is an admin. -/
def HasAdmin (hub : Hub) : Prop :=
  ∃ user row, hub.db.users.lookup user = some row ∧ row.role = .admin

theorem session_of_seat {hub : Hub} {user : UserId} {seat : Seat}
    (found : hub.core.seats.lookup user = some seat) :
    ∃ session, hub.sessions.lookup user = some session ∧ session.toSeat = seat := by
  rw [core_seats, seats_lookup] at found
  exact Option.map_eq_some_iff.mp found

theorem rolesAgree {hub : Hub} (consistent : hub.core.Consistent) : hub.RolesAgree where
  current user session found := by
    have seated := core_seats_of_session found
    obtain ⟨row, stored⟩ := Finmap.mem_iff.mp
      (consistent.enrolled user (Finmap.mem_of_lookup_eq_some seated))
    have kept := consistent.recorded.current user session.toSeat row seated stored
    have role : session.row.kept.role = row.kept.role := congrArg UserRow.role kept
    exact ⟨row, stored, role⟩
  removed user absent := by
    have unseated : user ∉ hub.core.seats := fun seated => absent (consistent.enrolled user seated)
    refine ⟨fun present => ?_, fun room entry there inside => ?_⟩
    · obtain ⟨session, found⟩ := Finmap.mem_iff.mp present
      exact unseated (Finmap.mem_of_lookup_eq_some (core_seats_of_session found))
    · have outside := consistent.seated.notMem_occupants
        (Core.roomOf_eq_none_of_notMem unseated) room
      rw [Core.occupants_of_lookup hub.core there] at outside
      exact outside inside

theorem roleOf_eq_some {hub : Hub} {user : UserId} {role : Role} :
    hub.core.roleOf user = some role ↔
      ∃ row, hub.db.users.lookup user = some row ∧ row.role = role :=
  Option.map_eq_some_iff

theorem roleOf_eq_none {hub : Hub} {user : UserId} :
    hub.core.roleOf user = none ↔ user ∉ hub.db.users :=
  Option.map_eq_none_iff.trans Finmap.lookup_eq_none

theorem hasAdmin_iff {hub : Hub} : hub.HasAdmin ↔ ∃ user, hub.core.roleOf user = some .admin := by
  simp only [roleOf_eq_some]
  rfl

theorem reassigned_iff {before after : Hub} {user : UserId} :
    Reassigned before after user ↔ ∃ role role', before.core.roleOf user = some role ∧
      after.core.roleOf user = some role' ∧ role' ≠ role := by
  constructor
  · rintro ⟨row, row', found, found', different⟩
    exact ⟨row.role, row'.role, roleOf_eq_some.mpr ⟨row, found, rfl⟩,
      roleOf_eq_some.mpr ⟨row', found', rfl⟩, different⟩
  · rintro ⟨role, role', found, found', different⟩
    obtain ⟨row, there, rfl⟩ := roleOf_eq_some.mp found
    obtain ⟨row', there', rfl⟩ := roleOf_eq_some.mp found'
    exact ⟨row, row', there, there', different⟩

theorem expelled_iff {before after : Hub} {user : UserId} :
    Expelled before after user ↔
      (before.core.roleOf user).isSome ∧ after.core.roleOf user = none := by
  rw [roleOf_eq_none]
  refine and_congr_left fun _ => ?_
  rw [← Finmap.lookup_isSome]
  exact (Option.isSome_map ..).symm ▸ Iff.rfl

/-- Nobody changes role or goes while all roles are kept. -/
theorem not_touched_of_keepsRoles {before after : Hub}
    (keeps : before.core.KeepsRoles after.core) (user : UserId) :
    ¬ (Reassigned before after user ∨ Expelled before after user) := by
  rw [reassigned_iff, expelled_iff]
  rintro (⟨role, role', found, found', different⟩ | ⟨there, gone⟩)
  · exact different (Option.some.inj (found'.symm.trans (keeps user role found)))
  · obtain ⟨role, found⟩ := Option.isSome_iff_exists.mp there
    exact nomatch gone.symm.trans (keeps user role found)

/-- Only an appointed user changes role. -/
theorem touched_of_appointed {before after : Hub} {user target : UserId} {role : Role}
    (roles : ∀ other, after.core.roleOf other =
      if other = user then (before.core.roleOf other).map fun _ => role
      else before.core.roleOf other)
    (touched : Reassigned before after target ∨ Expelled before after target) : target = user := by
  by_contra different
  have same := roles target
  rw [if_neg different] at same
  rw [reassigned_iff, expelled_iff, same] at touched
  obtain ⟨role, role', found, found', unlike⟩ | ⟨there, gone⟩ := touched
  · exact unlike (Option.some.inj (found'.symm.trans found))
  · rw [gone] at there
    cases there

/-- Removing users changes no role and removes no one else. -/
theorem touched_of_removed {before after : Hub} {ids : List UserId} {target : UserId}
    (roles : ∀ other, after.core.roleOf other =
      if other ∈ ids then none else before.core.roleOf other) :
    ¬ Reassigned before after target ∧ (Expelled before after target → target ∈ ids) := by
  rw [reassigned_iff, expelled_iff, roles]
  split
  · rename_i member
    refine ⟨?_, fun _ => member⟩
    rintro ⟨role, role', found, found', different⟩
    cases found'
  · refine ⟨?_, fun ⟨there, gone⟩ => by rw [gone] at there; cases there⟩
    rintro ⟨role, role', found, found', different⟩
    exact different (Option.some.inj (found'.symm.trans found))

theorem Outranks.governs {before after : Hub} {user : UserId} {targets : List UserId}
    (outranks : Outranks before.core user targets)
    (touched : ∀ target, Reassigned before after target ∨ Expelled before after target →
      target ∈ targets) : before.Governs user after := by
  obtain ⟨seat, seated, admin, below⟩ := outranks
  obtain ⟨session, found, rfl⟩ := session_of_seat seated
  refine fun _ => ⟨session, found, admin, fun target happened => ?_⟩
  rw [admin]
  exact below target (touched target happened)

end Hub

namespace Server

variable (primitives : Primitives)

theorem governs_of_request (server : Server) (consistent : server.hub.core.Consistent)
    (input : Input) {user : UserId} {conn : ConnId} {request : Request}
    (action : input.action = .request user conn request) :
    server.hub.Governs user (step primitives server input).hub := by
  obtain keeps | ⟨target, role, may, roles⟩ | ⟨ids, may, roles⟩ :=
    (server.steps primitives consistent.toOrderly input).roles consistent
  · rintro ⟨target, touched⟩
    exact absurd (touched.imp_right And.left) (Hub.not_touched_of_keepsRoles keeps target)
  · obtain ⟨user', conn', same, outranks, _⟩ | ⟨⟨_, _, _, _, same⟩, _⟩ := may
    · rw [action] at same
      cases same
      exact outranks.governs fun _ touched =>
        List.mem_singleton.mpr (Hub.touched_of_appointed roles touched)
    · rw [action] at same
      cases same
  · have gone : ∀ target, ¬ Hub.Reassigned server.hub (step primitives server input).hub target ∧
        (Hub.Expelled server.hub (step primitives server input).hub target → target ∈ ids) :=
      fun _ => Hub.touched_of_removed roles
    obtain ⟨user', conn', target, cascade, same, quits | outranks⟩ | same := may
    · rw [action] at same
      cases same
      rintro ⟨other, reassigned | ⟨expelled, different⟩⟩
      · exact absurd reassigned (gone other).1
      · have member := (gone other).2 expelled
        rw [quits.1, List.mem_singleton] at member
        exact absurd member different
    · rw [action] at same
      cases same
      exact outranks.governs fun other touched =>
        (gone other).2 (touched.resolve_left (gone other).1)
    · rw [action] at same
      cases same

theorem keepsRoles_of_finish (server : Server) (consistent : server.hub.core.Consistent)
    (input : Input) {index : Nat} {hashed : Option String}
    (action : input.action = .finish index hashed) :
    server.hub.core.KeepsRoles (step primitives server input).hub.core := by
  obtain keeps | ⟨target, role, may, _⟩ | ⟨ids, may, _⟩ :=
    (server.steps primitives consistent.toOrderly input).roles consistent
  · exact keeps
  · obtain ⟨_, _, same, _⟩ | ⟨⟨_, _, _, _, same⟩, _⟩ := may <;>
    · rw [action] at same
      cases same
  · obtain ⟨_, _, _, _, same, _⟩ | same := may <;>
    · rw [action] at same
      cases same

/-- With another admin than `user` there are more than one. -/
theorem exists_admin_ne {core : Core} {user : UserId} (admin : core.roleOf user = some .admin)
    (others : Hub.admins core ≠ 1) : ∃ other, other ≠ user ∧ core.roleOf other = some .admin := by
  by_contra alone
  push Not at alone
  refine others (Finset.card_eq_one.mpr ⟨user, Finset.ext fun other => ?_⟩)
  have stored : other ∈ (core.users.retain fun _ row => row.role = .admin).keys ↔
      core.roleOf other = some .admin := by
    rw [Finmap.mem_keys, ← Finmap.lookup_isSome, Map.lookup_retain, Core.roleOf]
    cases core.users.lookup other with
    | none => simp
    | some row => simp [Option.filter, Option.isSome_ite]
  rw [stored, Finset.mem_singleton]
  refine ⟨fun also => by_contra fun different => alone other different also, ?_⟩
  rintro rfl
  exact admin

theorem hasAdmin_step (server : Server) (consistent : server.hub.core.Consistent) (input : Input)
    (asked : input.action ≠ .removeInactive) (before : server.hub.HasAdmin) :
    (step primitives server input).hub.HasAdmin := by
  rw [Hub.hasAdmin_iff] at before ⊢
  obtain ⟨admin, found⟩ := before
  obtain keeps | ⟨target, role, may, roles⟩ | ⟨ids, may, roles⟩ :=
    (server.steps primitives consistent.toOrderly input).roles consistent
  · exact ⟨admin, keeps admin .admin found⟩
  · refine ⟨admin, ?_⟩
    rw [roles]
    split
    · rename_i same
      obtain ⟨user, conn, _, ⟨seat, seated, _, below⟩, _⟩ | ⟨_, rfl⟩ := may
      · -- The appointed user ranked below an admin, so they were none.
        obtain ⟨row, stored, lower⟩ := below target (List.mem_singleton.mpr rfl)
        rw [same, Core.roleOf, stored] at found
        cases row with
        | mk id pubkey encryptionKey name avatar role invitedBy createdAt =>
          cases found
          exact absurd lower (Nat.lt_irrefl _)
      · rw [found]
        rfl
    · exact found
  · obtain ⟨user, conn, target, cascade, _, quits | outranks⟩ | same := may
    · obtain ⟨rfl, seat, seated, others⟩ := quits
      by_cases self : admin = user
      · obtain ⟨session, there, rfl⟩ := Hub.session_of_seat seated
        obtain ⟨row, stored, same⟩ := (Hub.rolesAgree consistent).current user session there
        have role : session.row.role = .admin := by
          obtain ⟨row', stored', admin⟩ := Hub.roleOf_eq_some.mp (self ▸ found)
          rw [stored] at stored'
          cases stored'
          exact same.trans admin
        obtain ⟨other, different, found⟩ := exists_admin_ne (self ▸ found) (others role)
        refine ⟨other, ?_⟩
        rw [roles, if_neg (by simpa using different)]
        exact found
      · refine ⟨admin, ?_⟩
        rw [roles, if_neg (by simpa using self)]
        exact found
    · obtain ⟨seat, seated, _, below⟩ := outranks
      refine ⟨admin, ?_⟩
      rw [roles, if_neg fun member => ?_]
      · exact found
      · obtain ⟨row, stored, lower⟩ := below admin member
        obtain ⟨row', stored', role⟩ := Hub.roleOf_eq_some.mp found
        have same : row = row' := Option.some.inj (stored.symm.trans stored')
        rw [same, role] at lower
        exact Nat.lt_irrefl _ lower
    · exact absurd same asked

/-- In every server a run reaches, sessions have their users' stored roles and whoever has been
removed is nowhere. A request changes roles and removes others only for an admin and only of
lower rank, whether it is answered at once or finished later, and a server that has an admin
keeps one whatever happens but the removal of inactive accounts. -/
theorem run_ranks (fingerprint : Fingerprint) (clock : Clock) (earlier later : List Input) :
    let before := run (step primitives) (fresh fingerprint clock) earlier
    let after := run (step primitives) (fresh fingerprint clock) (earlier ++ later)
    before.hub.RolesAgree ∧
      (∀ input user conn request, input.action = .request user conn request →
        before.hub.Governs user (step primitives before input).hub) ∧
      (∀ input index hashed, input.action = .finish index hashed → ∀ target,
        ¬ (Hub.Reassigned before.hub (step primitives before input).hub target ∨
          Hub.Expelled before.hub (step primitives before input).hub target)) ∧
      ((∀ input ∈ later, input.action ≠ .removeInactive) → before.hub.HasAdmin →
        after.hub.HasAdmin) := by
  dsimp only
  have consistent := run_consistent primitives fingerprint clock earlier
  refine ⟨Hub.rolesAgree consistent, fun input user conn request action => ?_,
    fun input index hashed action => ?_, fun asked admin => ?_⟩
  · exact governs_of_request primitives _ consistent input action
  · exact Hub.not_touched_of_keepsRoles (keepsRoles_of_finish primitives _ consistent input action)
  · rw [run_append]
    generalize run (step primitives) (fresh fingerprint clock) earlier = server at consistent admin
    induction later generalizing server with
    | nil => exact admin
    | cons input rest inductionHypothesis =>
      refine inductionHypothesis (fun input member => asked input (List.mem_cons_of_mem _ member)) _
        (consistent.steps (server.steps primitives consistent.toOrderly input)) ?_
      exact hasAdmin_step primitives server consistent input (asked input List.mem_cons_self) admin

end Server

end Throcc
