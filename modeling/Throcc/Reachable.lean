/-
This file says of the hub itself what the turns of its core preserve, in every
server a run reaches: who is a member of which room, which media ids sessions
hold, that the published routes are those of the rooms and sessions, and how
room epochs grow.
-/

import Throcc.Forwarding
import Throcc.Listings
import Throcc.Steps

namespace Throcc

namespace Core

variable {core next : Core}

/-- A chain of turns that adds no room and leaves no rekeying half done tells rooms only what is
covered. -/
theorem Listed.leads {may : Turn → Prop} (listed : core.Listed) (orderly : core.Orderly)
    (whole : ∀ turn, may turn → ∀ user encryptionKey, turn ≠ .halfKey user encryptionKey)
    (steady : ∀ turn, may turn → ¬ turn.addsRoom) (leads : Leads may core next) :
    next.Listed ∧ core.Tells next := by
  have all := leads.invariant (fun between => between.Orderly ∧ between.Listed ∧
      core.Tells between ∧ ∀ room epoch, between.epochOf room = some epoch →
        ∃ before, core.epochOf room = some before ∧ before ≤ epoch)
    ⟨orderly, listed, .same rfl, fun _ epoch found => ⟨epoch, found, Nat.le_refl _⟩⟩ ?_
  · exact ⟨all.2.1, all.2.2.1⟩
  · rintro between turn ⟨orderly, listed, tells, grows⟩ kind allowed
    obtain ⟨listed', tells'⟩ :=
      listed.apply orderly.seated orderly.numbered (whole turn kind) allowed
    refine ⟨orderly.apply allowed, listed', tells.trans tells' grows, fun room epoch found => ?_⟩
    obtain ⟨middle, there, same⟩ := between.epochOf_apply orderly.mirrored (steady turn kind) found
    obtain ⟨before, there', le⟩ := grows room middle there
    refine ⟨before, there', le.trans ?_⟩
    rw [same]
    split
    · exact Nat.le_succ _
    · exact Nat.le_refl _

theorem Listed.steps {may : May} (listed : core.Listed) (orderly : core.Orderly)
    (steps : Steps may core next) (whole : ¬ may.half) : next.Listed ∧ core.Tells next := by
  cases steps with
  | leads leads =>
    refine listed.leads orderly (fun turn kind user encryptionKey same => ?_)
      (fun turn kind => kind.2.1) leads
    rw [same] at kind
    exact kind.1
  | adds name passwordHash does =>
    rw [does.2]
    exact listed.apply orderly.seated orderly.numbered (fun _ _ => nofun) does.1
  | appoints user role _ does =>
    rw [does.2]
    exact listed.apply orderly.seated orderly.numbered (fun _ _ => nofun) does.1
  | removes ids _ removes =>
    have allowed : core.Allows (.removeUsers ids) := True.intro
    obtain ⟨listed', tells⟩ :=
      listed.apply orderly.seated orderly.numbered (fun _ _ same => by cases same) allowed
    obtain ⟨listed'', tells'⟩ := listed'.leads (orderly.apply allowed)
      (fun turn kind user encryptionKey same => by rw [same] at kind; exact kind)
      (fun turn kind => kind.steady.2.1) removes.1
    exact ⟨listed'', tells.trans tells' fun _ epoch found => ⟨epoch, found, Nat.le_refl _⟩⟩
  | half may user encryptionKey does => exact absurd may whole

end Core

namespace Hub

/-- A session of a user has a track of this id. -/
def HasTrack (hub : Hub) (user : UserId) (id : MediaId) : Prop :=
  ∃ session tracks, hub.sessions.lookup user = some session ∧ session.tracks = some tracks ∧
    id ∈ trackIds tracks

/-- Sessions and rooms agree on who is where, and every session has what its place asks for. -/
structure MembersAgree (hub : Hub) : Prop where
  seated : ∀ user session, hub.sessions.lookup user = some session → ∀ room,
    session.room = some room ↔
      ∃ entry, hub.rooms.lookup room = some entry ∧ user ∈ entry.members
  live : ∀ room entry user, hub.rooms.lookup room = some entry → user ∈ entry.members →
    user ∈ hub.sessions ∧ user ∈ hub.db.users
  oneRoom : ∀ room other entry entry' user, hub.rooms.lookup room = some entry →
    hub.rooms.lookup other = some entry' → user ∈ entry.members → user ∈ entry'.members →
    room = other
  tracks : ∀ user session, hub.sessions.lookup user = some session →
    (session.tracks.isSome ↔ session.room.isSome)
  quiet : ∀ user session, hub.sessions.lookup user = some session → session.room = none →
    session.media.share = none ∧ session.watching = []
  members : ∀ room entry, hub.rooms.lookup room = some entry →
    entry.members.card ≤ maxRoomMembers
  shares : ∀ room, hub.seating.sharesIn room ≤ maxRoomShares
  apart : ∀ user other id, hub.HasTrack user id → hub.HasTrack other id → user = other

/-- Media ids are given out once each, and sessions hold only ids that were given out. -/
structure IdsGivenOnce (hub : Hub) : Prop where
  once : hub.given.Nodup
  held : ∀ user id, hub.HasTrack user id → id ∈ hub.given

theorem core_seats_of_session {hub : Hub} {user : UserId} {session : Session}
    (found : hub.sessions.lookup user = some session) :
    hub.core.seats.lookup user = some session.toSeat := by
  rw [core_seats, seats_lookup, found, Option.map_some]

theorem core_holds {hub : Hub} {user : UserId} {id : MediaId} :
    hub.core.Holds user id ↔ hub.HasTrack user id := by
  have seat : hub.core.tracksOf user = (hub.sessions.lookup user).bind fun session =>
      session.tracks := by
    rw [Core.tracksOf, core_seats, seats_lookup, Option.bind_map]
    rfl
  constructor
  · rintro ⟨tracks, has, member⟩
    rw [seat] at has
    obtain ⟨session, found, has⟩ := Option.bind_eq_some_iff.mp has
    exact ⟨session, tracks, found, has, member⟩
  · rintro ⟨session, tracks, found, has, member⟩
    refine ⟨tracks, ?_, member⟩
    rw [seat, found]
    exact has

theorem membersAgree {hub : Hub} (consistent : hub.core.Consistent) : hub.MembersAgree where
  seated user session found room := by
    have member := consistent.seated.member user room
    rw [Core.roomOf, core_seats_of_session found] at member
    refine member.trans ⟨fun inside => Core.exists_of_mem_occupants hub.core inside, ?_⟩
    · rintro ⟨entry, there, inside⟩
      rw [Core.occupants_of_lookup hub.core there]
      exact inside
  live room entry user there inside := by
    have occupies : user ∈ hub.core.occupants room := by
      rw [Core.occupants_of_lookup hub.core there]
      exact inside
    have sits : user ∈ hub.core.seats := by
      by_contra absent
      exact consistent.seated.notMem_occupants (Core.roomOf_eq_none_of_notMem absent) room occupies
    refine ⟨?_, consistent.enrolled user sits⟩
    obtain ⟨seat, found⟩ := Finmap.mem_iff.mp sits
    rw [core_seats, seats_lookup] at found
    obtain ⟨session, found, _⟩ := Option.map_eq_some_iff.mp found
    exact Finmap.mem_of_lookup_eq_some found
  oneRoom room other entry entry' user there there' inside inside' := by
    have first : hub.core.roomOf user = some room := by
      rw [consistent.seated.member, Core.occupants_of_lookup hub.core there]
      exact inside
    have second : hub.core.roomOf user = some other := by
      rw [consistent.seated.member, Core.occupants_of_lookup hub.core there']
      exact inside'
    exact Option.some.inj (first.symm.trans second)
  tracks user session found := by
    rw [(consistent.fitting user session.toSeat (core_seats_of_session found)).tracks]
  quiet user session found outside :=
    (consistent.fitting user session.toSeat (core_seats_of_session found)).quiet outside
  members room entry there := by
    have spacious := consistent.spacious room
    rw [Core.occupants_of_lookup hub.core there] at spacious
    exact spacious
  shares room := (hub.core.sharesIn_eq_card room).trans_le (consistent.few room)
  apart user other id has has' :=
    consistent.allotted.apart user other id (core_holds.mpr has) (core_holds.mpr has')

theorem idsGivenOnce {hub : Hub} (allotted : hub.core.Allotted) : hub.IdsGivenOnce where
  once := allotted.once
  held user id has := allotted.held user id (core_holds.mpr has)

/-! ### Epochs -/

/-- Memory and the database agree on the epoch of every room. -/
def EpochsStored (hub : Hub) : Prop :=
  ∀ room, (hub.rooms.lookup room).map (·.epoch) = (hub.db.rooms.lookup room).map (·.epoch)

/-- No room there at both times has fallen back to a lower epoch, and no room id that had been
given out has come to be used again. -/
structure EpochsGrow (before after : Hub) : Prop where
  known : ∀ room ∈ before.rooms, room ≤ before.db.lastRoom
  lastRoom : before.db.lastRoom ≤ after.db.lastRoom
  raised : ∀ room entry entry', before.rooms.lookup room = some entry →
    after.rooms.lookup room = some entry' → entry.epoch ≤ entry'.epoch
  gone : ∀ room, room ≤ before.db.lastRoom → room ∉ before.rooms → room ∉ after.rooms

theorem epochsStored {hub : Hub} (mirrored : hub.core.Mirrored) : hub.EpochsStored := by
  intro room
  have same : hub.db.rooms = hub.core.rows := mirrored
  rw [same, Core.rows, Map.lookup_mapValues, Option.map_map]
  rfl

theorem epochsGrow {before after : Hub} (numbered : before.core.Numbered)
    (grows : before.core.Grows after.core) : before.EpochsGrow after where
  known := numbered
  lastRoom := grows.lastRoom
  raised room entry entry' found found' := by
    have known := numbered room (Finmap.mem_of_lookup_eq_some found)
    have there : after.core.epochOf room = some entry'.epoch := by
      rw [Core.epochOf, core_rooms, found', Option.map_some]
    obtain ⟨epoch, there', le⟩ := grows.epoch room entry'.epoch known there
    rw [Core.epochOf, core_rooms, found, Option.map_some] at there'
    cases there'
    exact le
  gone room known absent there := by
    have there : room ∈ after.core.rooms := there
    obtain ⟨epoch, there⟩ := Core.mem_rooms_iff.mp there
    obtain ⟨before', there', _⟩ := grows.epoch room epoch known there
    exact absent (Core.mem_rooms_iff.mpr ⟨before', there'⟩)

end Hub

namespace Server

variable (primitives : Primitives)

theorem run_renews (server : Server) (consistent : server.hub.core.Consistent)
    (inputs : List Input) :
    server.hub.core.Renews (run (step primitives) server inputs).hub.core := by
  refine (run_invariant (step primitives)
    (fun after => after.hub.core.Consistent ∧ server.hub.core.Renews after.hub.core)
    ⟨consistent, .refl _⟩ ?_ inputs).2
  rintro between input ⟨consistent, renews⟩
  have steps := between.steps primitives consistent.toOrderly input
  refine ⟨consistent.steps steps, renews.trans ?_⟩
  refine steps.invariant between.hub.core.Renews consistent.toOrderly (.refl _) ?_
  intro core turn orderly _ allowed renews
  exact renews.trans ((core.shift orderly.numbered allowed).renews orderly.allotted)

/-- In every server a run reaches, sessions and rooms agree and media ids are given out once.
However the run goes on, the ids given out stay given out, and a session that has one of them
had it all along: an id that was given out and is not held is never held again. -/
theorem run_membersAgree (fingerprint : Fingerprint) (clock : Clock) (earlier later : List Input) :
    let before := (run (step primitives) (fresh fingerprint clock) earlier).hub
    let after := (run (step primitives) (fresh fingerprint clock) (earlier ++ later)).hub
    after.MembersAgree ∧ after.IdsGivenOnce ∧ before.given <+: after.given ∧
      ∀ user id, after.HasTrack user id → before.HasTrack user id ∨ id ∉ before.given := by
  dsimp only
  have consistent := run_consistent primitives fingerprint clock earlier
  rw [run_append]
  have renews := run_renews primitives _ consistent later
  have consistent' := run_consistent primitives fingerprint clock (earlier ++ later)
  rw [run_append] at consistent'
  refine ⟨Hub.membersAgree consistent', Hub.idsGivenOnce consistent'.allotted, renews.given, ?_⟩
  intro user id has
  have fresh := renews.fresh user id (Hub.core_holds.mpr has)
  exact fresh.imp_left Hub.core_holds.mp

theorem run_grows (server : Server) (consistent : server.hub.core.Consistent)
    (inputs : List Input) :
    server.hub.core.Grows (run (step primitives) server inputs).hub.core := by
  refine (run_invariant (step primitives)
    (fun after => after.hub.core.Consistent ∧ server.hub.core.Grows after.hub.core)
    ⟨consistent, .refl _⟩ ?_ inputs).2
  rintro between input ⟨consistent, grows⟩
  have steps := between.steps primitives consistent.toOrderly input
  refine ⟨consistent.steps steps, grows.trans ?_⟩
  refine steps.invariant between.hub.core.Grows consistent.toOrderly (.refl _) ?_
  intro core turn orderly _ _ grows
  exact grows.trans (.apply orderly.mirrored turn)

theorem listed_of_along (fingerprint : Fingerprint) (clock : Clock) {inputs : List Input}
    (whole : Along (step primitives) (fun server input => ¬ server.HalfRekeyed primitives input)
      (fresh fingerprint clock) inputs) :
    (run (step primitives) (fresh fingerprint clock) inputs).hub.core.Listed := by
  have start : (fresh fingerprint clock).hub.core.Listed := by
    intro room epoch found
    have missing : (fresh fingerprint clock).hub.core.epochOf room = none := rfl
    rw [missing] at found
    cases found
  refine (whole.invariant (fun server => server.hub.core.Consistent ∧ server.hub.core.Listed)
    ⟨fresh_consistent fingerprint clock, start⟩ ?_).2
  rintro server input ⟨consistent, listed⟩ whole
  have steps := server.steps primitives consistent.toOrderly input
  exact ⟨consistent.steps steps, (listed.steps consistent.toOrderly steps whole).1⟩

/-- In every run the epoch of every room is stored, no epoch falls and no room id is used twice.
As long as no rekeying is left half done, every room state that lists a user or a key its epoch
has not listed yet comes after the epoch was raised and stored. -/
theorem run_epochs (fingerprint : Fingerprint) (clock : Clock) (earlier later : List Input) :
    let before := run (step primitives) (fresh fingerprint clock) earlier
    let after := run (step primitives) (fresh fingerprint clock) (earlier ++ later)
    after.hub.EpochsStored ∧ before.hub.EpochsGrow after.hub ∧
      ∀ input,
        Along (step primitives) (fun server input => ¬ server.HalfRekeyed primitives input)
          (fresh fingerprint clock) (earlier ++ [input]) →
        before.hub.core.Tells (step primitives before input).hub.core := by
  dsimp only
  have consistent := run_consistent primitives fingerprint clock earlier
  have consistent' := run_consistent primitives fingerprint clock (earlier ++ later)
  refine ⟨Hub.epochsStored consistent'.mirrored, ?_, fun input whole => ?_⟩
  · rw [run_append]
    exact Hub.epochsGrow consistent.numbered (run_grows primitives _ consistent later)
  · obtain ⟨whole, last, _⟩ := Along.append.mp whole
    have listed := listed_of_along primitives fingerprint clock whole
    have steps := Server.steps primitives _ consistent.toOrderly input
    exact (listed.steps consistent.toOrderly steps last).2

/-! ### A rekeying left half done -/

/-- Primitives that compute: passwords are their own hashes. -/
def openPrimitives : Primitives where
  verify _ _ _ := true
  hashOf bytes := .ofNat 256 bytes.length
  passwordMatches password hash := password = hash

/-- An action in the first second, whose calls of the database succeed. -/
def atOnce (action : Action) : Input where
  action := action
  clock := ⟨fromSecs 1, 1⟩

/-- The first user, as enrolled by an admin invite. -/
def firstAdmin : UserRow where
  id := 1
  pubkey := 7
  encryptionKey := none
  name := "admin"
  avatar := none
  role := .admin
  invitedBy := none
  createdAt := 1

/-- The first admin enrolls and signs in. -/
def adminSignsIn : List Input :=
  [atOnce .adminInvite, atOnce (.claimTry "000"), atOnce (.enroll 7 "000" "admin" 1),
    atOnce (.endRun "000" none),
    atOnce (.connect firstAdmin none)]

/-- The admin creates a room and enters it. -/
def adminEntersRoom : List Input :=
  adminSignsIn ++
    [atOnce (.request 1 1 (.setEncryptionKey ⟨1, 1000, 0⟩)),
      atOnce (.request 1 1 (.createRoom "room" none)), atOnce (.request 1 1 (.joinRoom 1 none))]

/-- A member's new key is stored, and then the epoch of their room can't be. -/
def keyStoredEpochNot : Input :=
  { atOnce (.request 1 1 (.setEncryptionKey ⟨2, 1000, 0⟩)) with faults := [false, true] }

def shareStarts : Input :=
  atOnce (.request 1 1 (.setMedia { share := some ⟨false, 1000, .av1, 1280, 720, 30⟩ }))

/-- The admin in their room, as others see them. -/
def adminPeer (key : PublicKey) (share : Option ShareConfig) : Peer where
  user := 1
  tracks := tracksAt 1
  share := share
  identityKey := 7
  encryptionKey := ⟨key, 1000, 0⟩

/-- A room state is sent that lists a key its epoch has not listed, and the epoch is not raised. -/
theorem epoch_not_raised :
    let before := run (step openPrimitives) (fresh 0 ⟨0, 0⟩) (adminEntersRoom ++ [keyStoredEpochNot])
    ¬ before.hub.core.Tells (step openPrimitives before shareStarts).hub.core := by
  dsimp only
  have before : (run (step openPrimitives) (fresh 0 ⟨0, 0⟩)
      (adminEntersRoom ++ [keyStoredEpochNot])).hub.core.notices =
      [.stored [(1, 1)], .listed 1 1 [adminPeer 1 none]] := by decide +kernel
  have after : (step openPrimitives (run (step openPrimitives) (fresh 0 ⟨0, 0⟩)
      (adminEntersRoom ++ [keyStoredEpochNot])) shareStarts).hub.core.notices =
      [.stored [(1, 1)], .listed 1 1 [adminPeer 1 none]] ++
        [.listed 1 1 [adminPeer 2 (some ⟨false, 1000, .av1, 1280, 720, 30⟩)]] := by decide +kernel
  rintro ⟨news, said, told⟩
  rw [before, after, List.append_cancel_left_eq] at said
  obtain ⟨peers, other, member, listed, alike⟩ | ⟨_, _, _, _, stored, _⟩ :=
    told [] [] 1 1 _ said.symm _ (List.mem_singleton.mpr rfl)
  · rw [before, List.append_nil, List.mem_cons, List.mem_singleton] at member
    obtain same | same := member
    · cases same
    · cases same
      rw [List.mem_singleton] at listed
      rw [listed] at alike
      exact absurd alike.2 (by decide)
  · cases stored

theorem run_epochs_adminSignsIn :
    let before := run (step openPrimitives) (fresh 0 ⟨0, 0⟩) (adminSignsIn.take 4)
    before.hub.core.Tells
      (step openPrimitives before (atOnce (.connect firstAdmin none))).hub.core := by
  refine (run_epochs openPrimitives 0 ⟨0, 0⟩ (adminSignsIn.take 4) []).2.2 _ ?_
  refine ⟨?_, ?_, ?_, ?_, ?_, True.intro⟩
  all_goals
    rintro ⟨user, conn, encryptionKey, same, _⟩
    cases same

/-! ### Routes -/

end Server

end Throcc
