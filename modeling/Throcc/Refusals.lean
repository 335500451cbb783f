/-
This file proves exactly when a refused request has changed nothing. Four
requests change something before their last call of the database may fail: an
encryption key that is new to its user's room, the deletion of a room with
members, and the name and the picture of the server.
-/

import Throcc.Reachable

namespace Throcc

namespace Hub

open Attempt

variable {clock : Clock} {hub : Hub}

/-! ### Calls that are to fail -/

theorem faults_foldl {Item : Type} {step : Hub → Item → Hub}
    (same : ∀ hub item, (step hub item).faults = hub.faults) (items : List Item) (hub : Hub) :
    (items.foldl step hub).faults = hub.faults :=
  run_invariant step (·.faults = hub.faults) rfl (fun hub item kept => (same hub item).trans kept)
    items

theorem faults_broadcastPeers (hub : Hub) (room : RoomId) (except : Option UserId) :
    (hub.broadcastPeers room except).faults = hub.faults := by
  unfold broadcastPeers
  split <;> rfl

theorem faults_setMembership (hub : Hub) (user : UserId) (room : Option RoomId)
    (tracks : Option Tracks) : (hub.setMembership user room tracks).faults = hub.faults := by
  unfold setMembership
  split <;> rfl

theorem faults_announceMove (hub : Hub) (user : UserId) :
    (hub.announceMove user).faults = hub.faults := by
  unfold announceMove
  split <;> rfl

theorem faults_tellAudiences (room : RoomId) (hub : Hub) (member : UserId) :
    (tellAudiences room hub member).faults = hub.faults := by
  unfold tellAudiences
  split <;> rfl

theorem faults_rebuildRoutes (hub : Hub) : hub.rebuildRoutes.faults = hub.faults := by
  unfold rebuildRoutes
  dsimp only
  rw [faults_foldl fun hub entry => faults_foldl (faults_tellAudiences _) _ hub]

/-- Moving a user calls the database no more. -/
theorem faults_moved (hub : Hub) (user : UserId) (current target : Option RoomId)
    (tracks : Option Tracks) : (hub.moved user current target tracks).faults = hub.faults := by
  unfold moved
  dsimp only
  rw [faults_rebuildRoutes, faults_announceMove]
  rw [faults_foldl fun hub room => faults_broadcastPeers hub room (some user)]
  rw [faults_foldl fun hub room => faults_broadcastPeers hub room none, faults_setMembership]
  rw [faults_foldl fun hub room => (rfl : (hub.insertMember room user).faults = hub.faults)]
  rw [faults_foldl fun hub room => (rfl : (hub.removeMember room user).faults = hub.faults)]

theorem faults_placement (hub : Hub) (user : UserId) : (hub.placement user).2.faults = hub.faults := by
  unfold placement
  split
  · rfl
  · split <;> rfl

/-! ### Deleting a room -/

/-- A member leaves their room exactly when its epoch can be raised. -/
theorem place_none_ends {user : UserId} {room : RoomId}
    (inside : hub.core.roomOf user = some room) :
    (place user none clock).Ends
      (fun _ after => ¬ EpochsStuck hub [room] hub.faults ∧ hub.core.CanRaise [room] ∧
        after.core = hub.core.place user none ∧ after.faults = hub.faults.tail)
      (fun _ after => EpochsStuck hub [room] hub.faults ∧ Idle clock hub after) hub := by
  have idle : Idle clock hub hub := Idle.refl hub
  obtain ⟨seat, seated, there⟩ := Option.bind_eq_some_iff.mp inside
  refine .bind (.bind (.current (.okOr_cases (fun session found => ?_) fun missing => ?_)))
  · rw [core_seats, seats_lookup, found] at seated
    cases seated
    have same : session.room = some room := there
    rw [same]
    refine .bind (.pure (.bind (.pure (.bind ((bumpEpochs_exactly clock hub [room]).mono ?_ ?_)))))
    · rintro _ raised ⟨notStuck, canRaise, core, faults⟩
      refine .bind (.change (.take ⟨notStuck, canRaise, ?_, ?_⟩))
      · rw [core_placement, core_moved, core, Core.place, inside]
        rfl
      · rw [faults_placement, faults_moved, faults]
    · exact fun _ after refused => refused.symm
  · rw [core_seats, seats_lookup, missing] at seated
    cases seated

/-- A room with members is cleared, if only in part, exactly when its epoch can be raised. -/
theorem clearRoom_refused {members : Finset UserId} {room : RoomId} (some_ : members.Nonempty)
    (inside : ∀ member ∈ members, hub.core.roomOf member = some room) :
    (clearRoom members clock).Ends
      (fun _ after => ¬ EpochsStuck hub [room] hub.faults ∧
        ∃ member, hub.core.roomOf member = some room ∧ after.core.roomOf member = none)
      (fun _ after => EpochsStuck hub [room] hub.faults ∧ Idle clock hub after ∨
        ¬ EpochsStuck hub [room] hub.faults ∧
          ∃ member, hub.core.roomOf member = some room ∧ after.core.roomOf member = none) hub := by
  unfold clearRoom
  cases listed : ascending members with
  | nil =>
    obtain ⟨member, isMember⟩ := some_
    rw [← mem_ascending, listed] at isMember
    cases isMember
  | cons first rest =>
    have there : hub.core.roomOf first = some room := by
      refine inside first ?_
      rw [← mem_ascending, listed]
      exact List.mem_cons_self
    refine .bind (.bind ((place_none_ends there).mono ?_ fun _ _ => .inl))
    rintro _ moved ⟨notStuck, _, core, _⟩
    have out : moved.core.roomOf first = none := core ▸ Core.roomOf_place_none _ first
    refine .pure ((placeOut_ends rest moved).mono ?_ ?_)
    · exact fun _ after others => ⟨notStuck, first, there, others.1.roomOf_eq_none out⟩
    · exact fun _ after others => .inr ⟨notStuck, first, there, others.roomOf_eq_none out⟩

/-- A request that only some roles may make goes on for a session with such a role. -/
theorem permitted_cases {Result : Type} {may : Role → Bool} {next : Role → HubM Result}
    {ok : Result → Hub → Prop} {failed : Refusal → Hub → Prop} {user : UserId}
    (onAllowed : ∀ session, hub.sessions.lookup user = some session →
      may session.row.role = true → (next session.row.role).Ends ok failed hub)
    (onRefused : (∀ session, hub.sessions.lookup user = some session →
      ¬ may session.row.role = true) → ∀ refusal, failed refusal hub) :
    (do let actor ← role user; permit (may actor); next actor).Ends ok failed hub := by
  refine .bind (.bind (.bind (.current (.okOr_cases (fun session found => ?_) fun missing => ?_))))
  · refine .pure (.bind (.require_cases (onAllowed session found) fun forbidden => ?_))
    refine onRefused (fun other there => ?_) _
    obtain rfl := Option.some.inj (found.symm.trans there)
    exact Bool.eq_false_iff.mp forbidden
  · exact onRefused (fun session found => nomatch missing.symm.trans found) _

/-- A deletion passes its checks and moves the first member out. -/
def ClearsPartly (hub : Hub) (user : UserId) (room : RoomId) : Prop :=
  ∃ session entry, hub.sessions.lookup user = some session ∧
    canManageRooms session.row.role = true ∧ hub.rooms.lookup room = some entry ∧
    (session.row.role = .admin ∨ hub.outranked user session.row.role entry.members = false) ∧
    entry.members.Nonempty ∧ ¬ EpochsStuck hub [room] hub.faults

theorem deleteRoom_refused (seated : hub.core.Seated) (user : UserId) (room : RoomId) :
    (deleteRoom user room clock).Ends (fun _ _ => True)
      (fun _ after => ¬ ClearsPartly hub user room ∧ Idle clock hub after ∨
        ClearsPartly hub user room ∧
          ∃ member, hub.core.roomOf member = some room ∧ after.core.roomOf member = none) hub := by
  have idle : Idle clock hub hub := Idle.refl hub
  refine permitted_cases (fun session found allowed => ?_) fun forbidden _ => ?_
  rotate_left
  · exact .inl ⟨fun ⟨session, _, found, allowed, _⟩ => forbidden session found allowed, idle⟩
  have checked : ClearsPartly hub user room → ∃ entry, hub.rooms.lookup room = some entry ∧
      (session.row.role = .admin ∨ hub.outranked user session.row.role entry.members = false) ∧
      entry.members.Nonempty ∧ ¬ EpochsStuck hub [room] hub.faults := by
    rintro ⟨other, entry, there, _, rest⟩
    rw [found] at there
    obtain rfl := Option.some.inj there
    exact ⟨entry, rest⟩
  refine .bind (.bind (.current (.okOr_cases (fun entry there => ?_) fun missing => ?_)))
  rotate_left
  · refine .inl ⟨fun clears => ?_, idle⟩
    obtain ⟨entry, there, _⟩ := checked clears
    rw [missing] at there
    cases there
  have entered : ClearsPartly hub user room →
      (session.row.role = .admin ∨ hub.outranked user session.row.role entry.members = false) ∧
        entry.members.Nonempty ∧ ¬ EpochsStuck hub [room] hub.faults := by
    intro clears
    obtain ⟨other, there', rest⟩ := checked clears
    rw [there] at there'
    exact Option.some.inj there' ▸ rest
  refine .bind (.current (.bind (.require_cases (fun ranks => ?_) fun outranked => ?_)))
  rotate_left
  · refine .inl ⟨fun clears => ?_, idle⟩
    have ranks := (entered clears).1.imp_right fun ranks => ranks ▸ Bool.false_ne_true
    exact absurd (decide_eq_true ranks) (Bool.eq_false_iff.mp outranked)
  have ranks : session.row.role = .admin ∨
      hub.outranked user session.row.role entry.members = false :=
    (of_decide_eq_true ranks).imp_right Bool.eq_false_iff.mpr
  by_cases some_ : entry.members.Nonempty
  · have inside : ∀ member ∈ entry.members, hub.core.roomOf member = some room := by
      intro member isMember
      rw [seated.member, Core.occupants_of_lookup _ there]
      exact isMember
    refine .bind ((clearRoom_refused some_ inside).mono ?_ ?_)
    · rintro _ cleared ⟨notStuck, member, was, out⟩
      refine .bind ((Idle.refl cleared : Idle clock _ _).write_ends (fun before _ => ?_)
        fun after idle => ?_)
      · exact .bind (.change (.bind (.change (.pure trivial))))
      · refine .inr ⟨⟨session, entry, found, allowed, there, ranks, some_, notStuck⟩, member, was, ?_⟩
        rw [idle.core]
        exact out
    · rintro _ after (⟨stuck, idle⟩ | ⟨notStuck, out⟩)
      · exact .inl ⟨fun clears => (entered clears).2.2 stuck, idle⟩
      · exact .inr ⟨⟨session, entry, found, allowed, there, ranks, some_, notStuck⟩, out⟩
  · have none_ : entry.members = ∅ := Finset.not_nonempty_iff_eq_empty.mp some_
    have notClears : ¬ ClearsPartly hub user room := fun clears => some_ (entered clears).2.1
    rw [none_]
    refine .bind (.pure (.bind (idle.write_ends (fun before _ => ?_) fun after idle => ?_)))
    · exact .bind (.change (.bind (.change (.pure trivial))))
    · exact .inl ⟨notClears, idle⟩

/-! ### The server's profile -/

/-- A change of the server's profile that is stored, whether or not it is announced. -/
theorem storeProfile_refused (hub : Hub) {statement : Database → Database}
    {profile : ServerProfile} (stores : statement hub.db = { hub.db with serverProfile := profile }) :
    Ends (do write statement; announceServerProfile) (fun _ _ => True)
      (fun _ after =>
        (hub.faults.head? = some true ∨ profile = hub.db.serverProfile) ∧ Idle clock hub after ∨
        (hub.faults.head? ≠ some true ∧ profile ≠ hub.db.serverProfile) ∧
          after.db.serverProfile = profile) hub := by
  refine .bind (call_ends (fun works => ?_) fun fails => ?_)
  · rw [stores]
    refine .bind (call_ends (fun _ => .bind (.change (.pure trivial))) fun _ => ?_)
    by_cases same : profile = hub.db.serverProfile
    · rw [same]
      exact .inl ⟨.inr rfl, ⟨rfl⟩⟩
    · exact .inr ⟨⟨works, same⟩, rfl⟩
  · exact .inl ⟨.inl fails, (Idle.refl hub).withFaults _⟩

/-- A new name of the server passes its checks and is stored. -/
def NamesServer (hub : Hub) (user : UserId) (name : Option String) : Prop :=
  ∃ session stored, hub.sessions.lookup user = some session ∧
    canEditServer session.row.role = true ∧ (checkedServerName name hub).1 = .ok stored ∧
    hub.faults.head? ≠ some true ∧ stored ≠ hub.db.serverProfile.name

theorem checkedServerName_ends (hub : Hub) (name : Option String) :
    (checkedServerName name).Ends
      (fun stored after => after = hub ∧ (checkedServerName name hub).1 = .ok stored)
      (fun refusal after => after = hub ∧ (checkedServerName name hub).1 = .error refusal) hub := by
  have ends : (checkedServerName name).Ends (fun _ after => after = hub)
      (fun _ after => after = hub) hub := by
    unfold checkedServerName
    split
    · exact .pure rfl
    · split
      · exact .pure rfl
      · exact .map (checkedName_ends (fun _ => rfl) fun _ => rfl)
  have unmoved := ends.after
  unfold Ends
  generalize checkedServerName name hub = outcome at unmoved
  obtain ⟨refusal | stored, after⟩ := outcome
  · exact ⟨unmoved, rfl⟩
  · exact ⟨unmoved, rfl⟩

theorem setServerName_refused (hub : Hub) (user : UserId) (name : Option String) :
    (setServerName user name).Ends (fun _ _ => True)
      (fun _ after => ¬ NamesServer hub user name ∧ Idle clock hub after ∨
        NamesServer hub user name ∧ after.db.serverProfile ≠ hub.db.serverProfile) hub := by
  have idle : Idle clock hub hub := Idle.refl hub
  refine permitted_cases (fun session found allowed => ?_) fun forbidden _ => ?_
  rotate_left
  · exact .inl ⟨fun ⟨session, _, found, allowed, _⟩ => forbidden session found allowed, idle⟩
  refine .bind ((checkedServerName_ends hub name).mono ?_ ?_)
  · rintro stored after ⟨same, valid⟩
    obtain rfl := same.symm
    let profile : ServerProfile := { hub.db.serverProfile with name := stored }
    refine (@storeProfile_refused clock hub _ profile rfl).mono (fun _ _ done => done) ?_
    rintro _ after (⟨unstored, idle⟩ | ⟨⟨works, other⟩, stores⟩)
    · refine .inl ⟨?_, idle⟩
      rintro ⟨_, other, _, _, valid', works, differs⟩
      rw [valid] at valid'
      obtain rfl := Except.ok.inj valid'
      exact unstored.elim works fun same => differs (congrArg ServerProfile.name same)
    · refine .inr ⟨⟨session, stored, found, allowed, valid, works, fun same => other ?_⟩, ?_⟩
      · dsimp only [profile]
        rw [same]
      · rw [stores]
        exact other
  · rintro refusal after ⟨same, invalid⟩
    obtain rfl := same.symm
    refine .inl ⟨?_, idle⟩
    rintro ⟨_, stored, _, _, valid, _⟩
    rw [invalid] at valid
    cases valid

/-- A new picture of the server passes its checks and is stored. -/
def PicturesServer (hub : Hub) (user : UserId) (avatar : Option Hash) : Prop :=
  ∃ session checked, hub.sessions.lookup user = some session ∧
    canEditServer session.row.role = true ∧ requirePicture avatar hub = (.ok (), checked) ∧
    checked.faults.head? ≠ some true ∧ avatar ≠ hub.db.serverProfile.avatar

theorem requirePicture_exactly (clock : Clock) (hub : Hub) (avatar : Option Hash) :
    (requirePicture avatar).Ends
      (fun _ after => requirePicture avatar hub = (.ok (), after) ∧ after.db = hub.db ∧
        Idle clock hub after)
      (fun _ after => (∀ checked, requirePicture avatar hub ≠ (.ok (), checked)) ∧
        Idle clock hub after) hub := by
  have ends : (requirePicture avatar).Ends (fun _ after => after.db = hub.db ∧ Idle clock hub after)
      (fun _ after => Idle clock hub after) hub := by
    have idle : Idle clock hub hub := Idle.refl hub
    unfold requirePicture
    split
    · exact .pure ⟨rfl, idle⟩
    · refine .bind (call_ends (fun _ => ?_) fun _ => idle.withFaults _)
      exact .require (fun _ => ⟨rfl, idle.withFaults _⟩) (idle.withFaults _)
  unfold Ends at ends ⊢
  generalize requirePicture avatar hub = outcome at ends
  obtain ⟨refusal | done, after⟩ := outcome
  · exact ⟨nofun, ends⟩
  · exact ⟨rfl, ends⟩

theorem setServerAvatar_refused (hub : Hub) (user : UserId) (avatar : Option Hash) :
    (setServerAvatar user avatar).Ends (fun _ _ => True)
      (fun _ after => ¬ PicturesServer hub user avatar ∧ Idle clock hub after ∨
        PicturesServer hub user avatar ∧ after.db.serverProfile ≠ hub.db.serverProfile) hub := by
  have idle : Idle clock hub hub := Idle.refl hub
  refine permitted_cases (fun session found allowed => ?_) fun forbidden _ => ?_
  rotate_left
  · exact .inl ⟨fun ⟨session, _, found, allowed, _⟩ => forbidden session found allowed, idle⟩
  refine .bind ((requirePicture_exactly clock hub avatar).mono ?_ ?_)
  · rintro _ checked ⟨passes, db, idle⟩
    let profile : ServerProfile := { checked.db.serverProfile with avatar }
    refine (@storeProfile_refused clock checked _ profile rfl).mono (fun _ _ done => done) ?_
    rintro _ after (⟨unstored, idle'⟩ | ⟨⟨works, other⟩, stores⟩)
    · refine .inl ⟨?_, idle.trans idle'⟩
      rintro ⟨_, checked', _, _, passes', works, differs⟩
      rw [passes] at passes'
      obtain rfl := (Prod.mk.inj passes').2
      refine unstored.elim works fun same => differs ?_
      rw [← db]
      exact congrArg ServerProfile.avatar same
    · rw [← db, stores]
      refine .inr ⟨⟨session, checked, found, allowed, passes, works, fun same => other ?_⟩, other⟩
      dsimp only [profile]
      rw [same, ← db]
  · rintro _ after ⟨fails, idle⟩
    refine .inl ⟨?_, idle⟩
    rintro ⟨_, checked, _, _, passes, _⟩
    exact fails checked passes

/-! ### Every refusal -/

/-- A request changes something before its last call of the database. -/
def ChangesEarly (primitives : Primitives) (clock : Clock) (hub : Hub) (user : UserId) :
    Request → Prop
  | .setEncryptionKey encryptionKey => HalfRekeys primitives clock hub user encryptionKey
  | .deleteRoom room => ClearsPartly hub user room
  | .setServerName name => NamesServer hub user name
  | .setServerAvatar avatar => PicturesServer hub user avatar
  | _ => False

/-- A refused request has changed nothing, or `early` and something has. -/
def Unless (clock : Clock) (base : Hub) (early : Prop) (after : Hub) : Prop :=
  ¬ early ∧ Refused clock base after ∨ early ∧ ¬ Refused clock base after

/-- What a refused request that changed nothing leaves of the seats and the server's profile. -/
theorem Refused.seats_profile {base after : Hub} (refused : Refused clock base after) :
    after.core.seats = base.core.seats ∧ after.db.serverProfile = base.db.serverProfile := by
  constructor
  · obtain same | ⟨_, same⟩ := refused.core
    · rw [same]
    · rw [same]
      rfl
  · obtain idle | ⟨_, idle⟩ := refused
    · exact congrArg (fun hub => hub.db.serverProfile) idle.same
    · exact congrArg (fun hub => hub.db.serverProfile) idle.same

theorem halfKey_changes {primitives : Primitives} {user : UserId}
    {encryptionKey : SignedEncryptionKey} {after : Hub}
    (half : HalfRekeys primitives clock hub user encryptionKey)
    (does : hub.core.Does (.halfKey user encryptionKey) after.core) :
    ¬ Refused clock hub after := by
  obtain ⟨session, _, found, _, _, stores, _⟩ := half
  intro refused
  have seat := congrArg (fun seats => seats.lookup user) refused.seats_profile.1
  have kept : (hub.core.storeKey user encryptionKey).seats.lookup user =
      hub.core.seats.lookup user := by
    rw [← seat, does.2]
    rfl
  rw [core_seats, seats_lookup, found] at kept
  have stored : (hub.core.storeKey user encryptionKey).seats.lookup user =
      (hub.seats.lookup user).map fun seat =>
        { seat with row := { seat.row with encryptionKey := some encryptionKey } } :=
    Map.lookup_modify_self hub.seats user _
  rw [stored, seats_lookup, found] at kept
  exact stores.other (congrArg (fun seat => seat.row.encryptionKey) (Option.some.inj kept)).symm

theorem perform_refused (primitives : Primitives) (seated : hub.core.Seated) (user : UserId)
    (request : Request) (notMedia : ∀ media, request ≠ .setMedia media)
    (draws : Nat → Fin (idChars + secretChars) → UInt8) :
    (perform primitives user request draws clock).Ends (fun _ _ => True)
      (fun _ after => Unless clock hub (ChangesEarly primitives clock hub user request) after)
      hub := by
  have idle : Idle clock hub hub := Idle.refl hub
  have nothing : ∀ after, Refused clock hub after → Unless clock hub False after :=
    fun _ refused => .inl ⟨id, refused⟩
  have idled : ∀ {Result : Type} {ok : Result → Hub → Prop} {computation : HubM Result},
      computation.Ends ok (fun _ after => Idle clock hub after) hub →
      computation.Ends (fun _ _ => True) (fun _ after => Unless clock hub False after) hub :=
    fun ends => ends.mono (fun _ _ _ => trivial) fun _ after idle => nothing after idle.refused
  cases request with
  | setMedia media => exact absurd rfl (notMedia media)
  | joinRoom room password =>
    exact (join_ends idle user (some room) password).mono (fun _ _ _ => trivial) fun _ => nothing
  | leaveRoom =>
    exact (join_ends idle user none none).mono (fun _ _ _ => trivial) fun _ => nothing
  | setEncryptionKey encryptionKey =>
    refine .map ((setEncryptionKey_ends primitives hub user encryptionKey).mono
      (fun _ _ _ => trivial) ?_)
    rintro _ after (⟨whole, idle⟩ | ⟨half, does⟩)
    · exact .inl ⟨whole, idle.refused⟩
    · exact .inr ⟨half, halfKey_changes half does⟩
  | deleteRoom room =>
    refine .map ((deleteRoom_refused seated user room).mono (fun _ _ _ => trivial) ?_)
    rintro _ after (⟨whole, idle⟩ | ⟨partly, member, was, out⟩)
    · exact .inl ⟨whole, idle.refused⟩
    · refine .inr ⟨partly, fun refused => ?_⟩
      rw [Core.roomOf, refused.seats_profile.1] at out
      rw [Core.roomOf, out] at was
      cases was
  | setServerName name =>
    refine .map ((@setServerName_refused clock hub user name).mono (fun _ _ _ => trivial) ?_)
    rintro _ after (⟨whole, idle⟩ | ⟨early, other⟩)
    · exact .inl ⟨whole, idle.refused⟩
    · exact .inr ⟨early, fun refused => other refused.seats_profile.2⟩
  | setServerAvatar avatar =>
    refine .map ((@setServerAvatar_refused clock hub user avatar).mono (fun _ _ _ => trivial) ?_)
    rintro _ after (⟨whole, idle⟩ | ⟨early, other⟩)
    · exact .inl ⟨whole, idle.refused⟩
    · exact .inr ⟨early, fun refused => other refused.seats_profile.2⟩
  | setProfile name avatar => exact .map (idled (setProfile_ends idle user name avatar))
  | uploadAvatar bytes => exact .map (idled (setAvatar_ends primitives idle user bytes))
  | fetchAvatar hash => exact .map (idled (getAvatar_ends idle hash))
  | setWatched ids => exact .map (idled (setWatched_ends idle user ids))
  | requestKeyframe mediaId kind => exact .map (idled (requestKeyframe_ends idle user mediaId kind))
  | publishSenderKey epoch wrapped => exact .map (idled (publishKey_ends idle user epoch wrapped))
  | createRoom name password => exact idled (createRoom_ends idle user name password)
  | renameRoom room name => exact .map (idled (renameRoom_ends idle user room name))
  | setRoomPassword room password => exact idled (setRoomPassword_ends idle user room password)
  | createInvite => exact .map (idled (createInvite_ends idle user draws))
  | listUsers => exact .map (idled (listUsers_ends idle user))
  | setRole target role => exact .map (idled (setRole_ends idle user target role))
  | removeUser target cascade => exact .map (idled (removeUser_ends idle user target cascade))
  | kickFromRoom target room => exact .map (idled (kickFromRoom_ends idle user target room))

/-- A refused request has changed nothing once it is known that those admitted have. -/
theorem Idle.unless {before after : Hub} {early : Prop} (idle : Idle clock hub before)
    (ends : Unless clock before early after) : Unless clock hub early after := by
  have refused : Refused clock before after ↔ Refused clock hub after := by
    have allows : before.core.Allows .allocate ↔ hub.core.Allows .allocate := by rw [idle.core]
    refine or_congr ⟨fun same => idle.trans same, fun same => ?_⟩ (and_congr allows ?_)
    · exact ⟨same.same.trans idle.same.symm⟩
    · exact ⟨fun same => idle.allocated.trans same,
        fun same => ⟨same.same.trans idle.allocated.same.symm⟩⟩
  unfold Unless at ends ⊢
  rw [← refused]
  exact ends

/-- An admitted request changes something before its last call of the database. -/
def ChangesBefore (primitives : Primitives) (clock : Clock) (hub : Hub) (user : UserId)
    (conn : ConnId) (request : Request) : Prop :=
  hub.Admits clock user conn request ∧
    ChangesEarly primitives clock (hub.admitted clock user request) user request

theorem dispatch_refused (primitives : Primitives) (seated : hub.core.Seated) (user : UserId)
    (conn : ConnId) (request : Request) (notMedia : ∀ media, request ≠ .setMedia media)
    (draws : Nat → Fin (idChars + secretChars) → UInt8) :
    (dispatch primitives user conn request draws clock).Ends (fun _ _ => True)
      (fun _ after =>
        (Refused clock hub after ↔ ¬ hub.ChangesBefore primitives clock user conn request)) hub := by
  refine dispatch_ends (fun admits => ?_) fun _ after notAdmitted idle => ?_
  · have idle := idle_admitted clock hub user request
    have seated : (hub.admitted clock user request).core.Seated := idle.core ▸ seated
    refine (perform_refused primitives seated user request notMedia draws).mono
      (fun _ _ done => done) fun _ after ends => ?_
    obtain ⟨whole, refused⟩ | ⟨early, changed⟩ := idle.unless ends
    · exact ⟨fun _ changes => whole changes.2, fun _ => refused⟩
    · exact ⟨fun refused => absurd refused changed, fun whole => absurd ⟨admits, early⟩ whole⟩
  · exact ⟨fun _ changes => notAdmitted changes.1, fun _ => idle.refused⟩

end Hub

namespace Server

variable (primitives : Primitives)

/-- In every server a run reaches, a refused request other than a media state has changed
nothing, unless it changes something before its last call of the database. What is refused once
its password work is done has changed nothing. -/
theorem run_refused (fingerprint : Fingerprint) (clock : Clock) (inputs : List Input)
    (input : Input) :
    let hub := { (run (step primitives) (fresh fingerprint clock) inputs).hub with
      faults := input.faults }
    (∀ user conn request, (∀ media, request ≠ .setMedia media) →
      let (result, after) := Hub.dispatch primitives user conn request input.draws input.clock hub
      result.isOk = false →
        (Hub.Refused input.clock hub after ↔
          ¬ hub.ChangesBefore primitives input.clock user conn request)) ∧
    ∀ user conn done,
      let (result, after) := Hub.finish user conn done input.clock hub
      result.isOk = false → Hub.Refused input.clock hub after := by
  have consistent := run_consistent primitives fingerprint clock inputs
  generalize (run (step primitives) (fresh fingerprint clock) inputs).hub = hub at consistent
  dsimp only
  refine ⟨fun user conn request notMedia isError => ?_, fun user conn done isError => ?_⟩
  · have ends := @Hub.dispatch_refused input.clock { hub with faults := input.faults } primitives
      consistent.seated user conn request notMedia input.draws
    exact ends.of_isOk isError
  · let may : Core.May := ⟨False, fun _ _ => False, fun _ => False⟩
    have ends := @Hub.finish_acts may input.clock { hub with faults := input.faults } user conn done
    exact (ends.mono (fun _ _ _ => trivial) fun _ _ refused => refused).of_isOk isError

/-- A member's new key is stored, their request is refused, and the key stays. -/
theorem refused_keeps_key :
    let hub := (run (step openPrimitives) (fresh 0 ⟨0, 0⟩) adminEntersRoom).hub
    let (result, after) := Hub.dispatch openPrimitives 1 1 (.setEncryptionKey ⟨2, 1000, 0⟩)
      keyStoredEpochNot.draws keyStoredEpochNot.clock
      { hub with faults := keyStoredEpochNot.faults }
    result.isOk = false ∧
      (hub.db.users.lookup 1).bind (·.encryptionKey) = some ⟨1, 1000, 0⟩ ∧
      (after.db.users.lookup 1).bind (·.encryptionKey) = some ⟨2, 1000, 0⟩ := by
  decide +kernel

/-- A request of a connection that is not its user's current one changes nothing. -/
theorem run_refused_leaveRoom :
    let hub := { (run (step openPrimitives) (fresh 0 ⟨0, 0⟩) adminEntersRoom).hub with faults := [] }
    let (result, after) := Hub.dispatch openPrimitives 1 2 .leaveRoom (fun _ _ => 0) ⟨1000, 1⟩ hub
    result.isOk = false ∧ Hub.Refused ⟨1000, 1⟩ hub after ∧
      Hub.Refused ⟨1000, 1⟩ hub (Hub.finish 1 2 (.join 1 "" true) ⟨1000, 1⟩ hub).2 := by
  have refused := run_refused openPrimitives 0 ⟨0, 0⟩ adminEntersRoom
    { action := .removeInactive, clock := ⟨1000, 1⟩ }
  refine ⟨by decide +kernel, (refused.1 1 2 .leaveRoom nofun ?_).mpr fun changes => changes.2, ?_⟩
  · decide +kernel
  · exact refused.2 1 2 (.join 1 "" true) (by decide +kernel)

end Server

end Throcc
