/-
This file says what a step of the server does to the core: a chain of turns, a
room more, the removal of users with all their sessions, or, where a member's
new key is stored and the epoch of their room can't be raised, half a rekeying.
What all of these keep holds in every state a run reaches.
-/

import Throcc.Forwarding
import Throcc.Listings
import Throcc.Operations
import Throcc.Run

namespace Throcc

/-- The turn that gives a user another role. -/
def Turn.appoints : Turn → Prop
  | .role _ _ => True
  | _ => False

/-- The turns of which a step may take many. -/
def Turn.steady (turn : Turn) : Prop := turn.sound ∧ ¬ turn.addsRoom ∧ ¬ turn.appoints

/-- The turn that stores a new user. -/
def Turn.enrolls : Turn → Prop
  | .addUser _ => True
  | _ => False

/-- The turns of which a step that enrolls nobody may take many. -/
def Turn.settled (turn : Turn) : Prop := turn.steady ∧ ¬ turn.enrolls

theorem Turn.ousts.settled {turn : Turn} (ousts : turn.ousts) : turn.settled := by
  refine ⟨⟨ousts.sound, fun adds => ?_, fun appoints => ?_⟩, fun enrolls => ?_⟩
  · cases turn with
    | addRoom name passwordHash => exact ousts
    | _ => exact adds
  · cases turn with
    | role user role => exact ousts
    | _ => exact appoints
  · cases turn with
    | addUser row => exact ousts
    | _ => exact enrolls

theorem Turn.ousts.steady {turn : Turn} (ousts : turn.ousts) : turn.steady := ousts.settled.1

namespace Core

variable {core next : Core}

/-! ### What every turn keeps -/

/-- The rooms, seats and stored rooms are in order, whatever is true of the stored users. -/
structure Orderly (core : Core) : Prop where
  seated : core.Seated
  fitting : core.Fitting
  spacious : core.Spacious
  few : core.FewShare
  connected : core.Connected
  allotted : core.Allotted
  keyed : core.Keyed
  numbered : core.Numbered
  mirrored : core.Mirrored
  routed : core.Routed

theorem Orderly.apply (orderly : core.Orderly) {turn : Turn} (allowed : core.Allows turn) :
    (core.apply turn).Orderly := by
  have shift := core.shift orderly.numbered allowed
  exact {
    seated := orderly.seated.shift shift
    fitting := orderly.fitting.shift shift
    spacious := orderly.spacious.shift shift
    few := orderly.few.shift orderly.seated shift
    connected := orderly.connected.shift shift
    allotted := orderly.allotted.shift shift
    keyed := orderly.keyed.apply turn
    numbered := orderly.numbered.apply orderly.mirrored turn
    mirrored := orderly.mirrored.apply turn
    routed := orderly.routed.apply orderly.seated orderly.numbered allowed }

theorem Orderly.leads {may : Turn → Prop} (orderly : core.Orderly)
    (leads : Leads may core next) : next.Orderly :=
  leads.invariant Orderly orderly fun _ _ orderly _ allowed => orderly.apply allowed

/-- The rooms and seats are in order, and so are the stored users: every session is of one of
them and says of them what is stored. -/
structure Consistent (core : Core) : Prop extends Orderly core where
  enrolled : core.Enrolled
  recorded : core.Recorded

theorem Consistent.apply (consistent : core.Consistent) {turn : Turn} (sound : turn.sound)
    (allowed : core.Allows turn) : (core.apply turn).Consistent where
  toOrderly := consistent.toOrderly.apply allowed
  enrolled := consistent.enrolled.shift (core.shift consistent.numbered allowed)
    fun _ => mem_users_apply sound
  recorded := consistent.recorded.apply (fun _ _ => consistent.enrolled) allowed

theorem Consistent.removes (consistent : core.Consistent) {ids : List UserId}
    (removes : core.Removes ids next) : next.Consistent where
  toOrderly := by
    have allowed : core.Allows (.removeUsers ids) := True.intro
    have removed : (core.apply (.removeUsers ids)).Orderly := consistent.toOrderly.apply allowed
    exact removed.leads removes.1
  enrolled := consistent.enrolled.removes removes
  recorded := by
    have allowed : core.Allows (.removeUsers ids) := True.intro
    have removed : (core.apply (.removeUsers ids)).Recorded :=
      consistent.recorded.apply (fun _ same => by cases same) allowed
    refine removes.1.invariant Recorded removed fun _ turn recorded ousts allowed => ?_
    refine recorded.apply (fun row same => ?_) allowed
    rw [same] at ousts
    exact ousts.elim

/-! ### What ousting leaves of the rooms -/

theorem roomOf_of_ousts (leads : Leads Turn.ousts core next) {user : UserId} {room : RoomId}
    (inside : next.roomOf user = some room) : core.roomOf user = some room := by
  refine leads.invariant (fun next => next.roomOf user = some room → core.roomOf user = some room)
    id ?_ inside
  intro between turn still ousts _ inside
  refine still ?_
  unfold roomOf at inside ⊢
  obtain same | gone | moved := lookup_seats_of_ousts between ousts user
  · exact same ▸ inside
  · rw [gone] at inside
    cases inside
  · rw [moved, Option.bind_map] at inside
    cases found : between.seats.lookup user with
    | none =>
      rw [found] at inside
      cases inside
    | some seat =>
      rw [found] at inside
      cases inside

theorem exists_of_ousts (leads : Leads Turn.ousts core next) {room : RoomId}
    (there : (core.epochOf room).isSome) : (next.epochOf room).isSome := by
  refine leads.invariant (fun next => (next.epochOf room).isSome) there ?_
  intro between turn there ousts _
  cases turn with
  | leave user =>
    show ((between.place user none).epochOf room).isSome
    rw [epochOf_place, Option.isSome_map]
    exact there
  | expel user =>
    unfold Core.apply
    dsimp only
    split
    · exact there
    · rename_i left _
      have same : (between.expel user left).epochOf room = between.epochOf room :=
        between.epochOf_withRoom left room fun _ => rfl
      exact same ▸ there
  | signOut user => exact there
  | remember user target =>
    cases target with
    | none => exact there
    | some room => exact ousts.elim
  | _ => exact ousts.elim

/-- A room may be dropped once everyone who was in it is out. -/
theorem allows_dropRoom (orderly : core.Orderly) (leads : Leads Turn.ousts core next)
    {room : RoomId} {entry : RoomEntry} (found : core.rooms.lookup room = some entry)
    (out : ∀ member ∈ entry.members, next.roomOf member = none) :
    next.Allows (.dropRoom room) := by
  have there : (core.epochOf room).isSome := by
    rw [epochOf, found]
    rfl
  obtain ⟨_, same⟩ := Option.isSome_iff_exists.mp (exists_of_ousts leads there)
  obtain ⟨left, found', _⟩ := Option.map_eq_some_iff.mp same
  refine ⟨left, found', Finset.eq_empty_of_forall_notMem fun user member => ?_⟩
  have inside : next.roomOf user = some room := by
    rw [(orderly.leads leads).seated.member, occupants_of_lookup next found']
    exact member
  have was := (orderly.seated.member user room).mp (roomOf_of_ousts leads inside)
  rw [occupants_of_lookup core found] at was
  rw [out user was] at inside
  cases inside

/-! ### Steps -/

/-- What a step may do besides steady turns and adding a room. -/
structure May where
  half : Prop
  appoints : UserId → Role → Prop
  removes : List UserId → Prop

/-- What a step does. -/
inductive Steps (may : May) (core next : Core) : Prop where
  | leads (leads : Leads Turn.steady core next)
  | adds (name : String) (passwordHash : Option String)
      (does : core.Does (.addRoom name passwordHash) next)
  | appoints (user : UserId) (role : Role) (may : may.appoints user role)
      (does : core.Does (.role user role) next)
  | removes (ids : List UserId) (may : may.removes ids) (removes : core.Removes ids next)
  | half (may : may.half) (user : UserId) (encryptionKey : SignedEncryptionKey)
      (does : core.Does (.halfKey user encryptionKey) next)

namespace Steps

variable {may : May}

theorem same (unchanged : next = core) : Steps may core next := by
  rw [unchanged]
  exact .leads (.done core)

theorem one {turn : Turn} (does : core.Does turn next) (steady : turn.steady) :
    Steps may core next := by
  rw [does.2]
  exact .leads (.one turn steady does.1)

end Steps

/-- What a step that enrolls nobody does. -/
inductive Acts (may : May) (core next : Core) : Prop where
  | leads (leads : Leads Turn.settled core next)
  | adds (name : String) (passwordHash : Option String)
      (does : core.Does (.addRoom name passwordHash) next)
  | appoints (user : UserId) (role : Role) (may : may.appoints user role)
      (does : core.Does (.role user role) next)
  | removes (ids : List UserId) (may : may.removes ids) (removes : core.Removes ids next)
  | half (may : may.half) (user : UserId) (encryptionKey : SignedEncryptionKey)
      (does : core.Does (.halfKey user encryptionKey) next)

namespace Acts

variable {may : May}

theorem steps (acts : Acts may core next) : Steps may core next := by
  cases acts with
  | leads leads => exact .leads (leads.mono fun _ settled => settled.1)
  | adds name passwordHash does => exact .adds name passwordHash does
  | appoints user role may does => exact .appoints user role may does
  | removes ids may removes => exact .removes ids may removes
  | half may user encryptionKey does => exact .half may user encryptionKey does

theorem same (unchanged : next = core) : Acts may core next := by
  rw [unchanged]
  exact .leads (.done core)

theorem one {turn : Turn} (does : core.Does turn next) (settled : turn.settled) :
    Acts may core next := by
  rw [does.2]
  exact .leads (.one turn settled does.1)

theorem mono {other : May} (acts : Acts may core next) (half : may.half → other.half)
    (appoints : ∀ user role, may.appoints user role → other.appoints user role)
    (removes : ∀ ids, may.removes ids → other.removes ids) : Acts other core next := by
  cases acts with
  | leads leads => exact .leads leads
  | adds name passwordHash does => exact .adds name passwordHash does
  | appoints user role may does => exact .appoints user role (appoints user role may) does
  | removes ids may does => exact .removes ids (removes ids may) does
  | half may user encryptionKey does => exact .half (half may) user encryptionKey does

theorem ousts (leads : Leads Turn.ousts core next) : Acts may core next :=
  .leads (leads.mono fun _ => Turn.ousts.settled)

end Acts

/-- What every turn keeps, every step keeps. -/
theorem Steps.invariant {may : May} (steps : Steps may core next) (holds : Core → Prop)
    (orderly : core.Orderly) (initially : holds core)
    (kept : ∀ (between : Core) (turn : Turn), between.Orderly →
      (¬ may.half → ∀ user encryptionKey, turn ≠ .halfKey user encryptionKey) →
      between.Allows turn → holds between → holds (between.apply turn)) : holds next := by
  have steady : ∀ {may : Turn → Prop} {first second : Core},
      (∀ turn, may turn → ∀ user encryptionKey, turn ≠ .halfKey user encryptionKey) →
      Leads may first second → first.Orderly → holds first → holds second := by
    intro may first second whole leads orderly initially
    refine (leads.invariant (fun core => core.Orderly ∧ holds core) ⟨orderly, initially⟩ ?_).2
    exact fun between turn both kind allowed =>
      ⟨both.1.apply allowed, kept between turn both.1 (fun _ => whole turn kind) allowed both.2⟩
  cases steps with
  | leads leads =>
    refine steady (fun turn kind user encryptionKey same => ?_) leads orderly initially
    rw [same] at kind
    exact kind.1
  | adds name passwordHash does =>
    rw [does.2]
    exact kept core _ orderly (fun _ _ _ => nofun) does.1 initially
  | appoints user role _ does =>
    rw [does.2]
    exact kept core _ orderly (fun _ _ _ => nofun) does.1 initially
  | removes ids _ removes =>
    have allowed : core.Allows (.removeUsers ids) := True.intro
    refine steady (fun turn kind user encryptionKey same => ?_) removes.1 (orderly.apply allowed)
      (kept core _ orderly (fun _ _ _ => nofun) allowed initially)
    rw [same] at kind
    exact kind
  | half may user encryptionKey does =>
    rw [does.2]
    exact kept core _ orderly (fun whole => absurd may whole) does.1 initially

theorem Consistent.steps {may : May} (consistent : core.Consistent)
    (steps : Steps may core next) : next.Consistent := by
  cases steps with
  | leads leads =>
    exact leads.invariant Consistent consistent
      fun _ _ consistent steady allowed => consistent.apply steady.1 allowed
  | adds name passwordHash does =>
    rw [does.2]
    exact consistent.apply trivial does.1
  | appoints user role _ does =>
    rw [does.2]
    exact consistent.apply trivial does.1
  | removes ids _ removes => exact consistent.removes removes
  | half may user encryptionKey does =>
    rw [does.2]
    exact {
      toOrderly := consistent.toOrderly.apply does.1
      enrolled := consistent.enrolled.shift (core.shift consistent.numbered does.1) fun user => by
        rw [users_apply, ← Finmap.mem_keys, ← Finmap.mem_keys, Map.keys_modify]
        exact id
      recorded := consistent.recorded.apply (fun _ _ => consistent.enrolled) does.1 }

theorem Joins.leads {core next : Core} {user : UserId} {target : Option RoomId}
    (joins : core.Joins user target next) : Leads Turn.settled core next := by
  obtain ⟨may, rfl⟩ := joins
  have remembered : ∀ between : Core, Leads Turn.settled core between →
      between.roomOf user = target → Leads Turn.settled core (between.remember user target) :=
    fun between leads there => .turn leads (.remember user target) ⟨⟨trivial, id, id⟩, id⟩
      fun room same => there.trans same
  split
  · rename_i inside
    exact remembered _ (.one (.hand user) ⟨⟨trivial, id, id⟩, id⟩ trivial) inside
  · rename_i elsewhere
    have canPlace : core.CanPlace user target := may.resolve_left elsewhere
    obtain ⟨⟨seat, found, _⟩, _⟩ := id canPlace
    have there : (core.place user target).roomOf user = target :=
      core.roomOf_place (by rw [found]; rfl)
    refine remembered _ ?_ there
    cases target with
    | none =>
      rw [Core.hand_eq_self _ there]
      exact .one (.leave user) ⟨⟨trivial, id, id⟩, id⟩ canPlace
    | some room => exact .one (.enter user room) ⟨⟨trivial, id, id⟩, id⟩ canPlace

theorem Settles.leads {core next : Core} {user : UserId} (settles : core.Settles user next) :
    Leads Turn.settled core next := by
  obtain rfl | ⟨enough, rfl⟩ | ⟨room, _, canPlace, rfl⟩ := settles
  · exact .done _
  · exact .one .allocate ⟨⟨trivial, id, id⟩, id⟩ enough
  · exact .one (.enter user room) ⟨⟨trivial, id, id⟩, id⟩ canPlace

end Core

namespace Hub

open Attempt

variable {clock : Clock} {base hub : Hub}

theorem Refused.acts {after : Hub} {may : Core.May} (refused : Refused clock base after) :
    Core.Acts may base.core after.core := by
  obtain same | ⟨enough, core⟩ := refused.core
  · exact .same same
  · exact .one ⟨enough, core⟩ ⟨⟨trivial, id, id⟩, id⟩

/-! ### Dispatch -/

/-- A request of its user's current connection that the allowances cover. -/
def Admits (clock : Clock) (hub : Hub) (user : UserId) (conn : ConnId) (request : Request) :
    Prop :=
  hub.isCurrent user conn = true ∧
    ((hub.isFree user request).1 = true ∨
      ((hub.allowances (allowanceOf request)).take user 1 clock.now).1 = true)

/-- The hub once a request is admitted. -/
def admitted (clock : Clock) (hub : Hub) (user : UserId) (request : Request) : Hub :=
  if (hub.isFree user request).1 then (hub.isFree user request).2
  else ((hub.isFree user request).2.takeFrom (allowanceOf request) user 1 clock.now).2

theorem Idle.freeKeyPublish (idle : Idle clock base hub) (user : UserId) (epoch : Epoch) :
    Idle clock base (hub.freeKeyPublish user epoch).2 := by
  unfold Hub.freeKeyPublish
  split
  · exact idle
  · split
    · exact idle
    · split
      · exact idle.countPublishes user _
      · exact idle

theorem Idle.isFree (idle : Idle clock base hub) (user : UserId) (request : Request) :
    Idle clock base (hub.isFree user request).2 := by
  unfold Hub.isFree
  split
  · exact idle.freeKeyPublish user _
  · exact idle

theorem idle_admitted (clock : Clock) (hub : Hub) (user : UserId) (request : Request) :
    Idle clock hub (hub.admitted clock user request) := by
  unfold admitted
  have free := (Idle.refl hub : Idle clock hub hub).isFree user request
  split
  · exact free
  · exact free.withAllowance _ _

theorem isFree_allowances (hub : Hub) (user : UserId) (request : Request) :
    (hub.isFree user request).2.allowances = hub.allowances := by
  unfold isFree
  split
  · unfold freeKeyPublish
    split
    · rfl
    · split
      · rfl
      · split <;> rfl
  · rfl

theorem dispatch_ends {primitives : Primitives} {user : UserId} {conn : ConnId}
    {request : Request} {draws : Nat → Fin (idChars + secretChars) → UInt8}
    {ok : Handled → Hub → Prop} {failed : Refusal → Hub → Prop}
    (onAdmitted : hub.Admits clock user conn request →
      (perform primitives user request draws clock).Ends ok failed
        (hub.admitted clock user request))
    (onRefused : ∀ refusal after, ¬ hub.Admits clock user conn request → Idle clock hub after →
      failed refusal after) :
    (dispatch primitives user conn request draws clock).Ends ok failed hub := by
  have free := (Idle.refl hub : Idle clock hub hub).isFree user request
  refine .bind (.bind (.current (.require_cases (fun current => ?_) fun replaced => ?_)))
  rotate_left
  · refine onRefused _ _ (fun admits => ?_) (Idle.refl hub)
    exact absurd admits.1 (Bool.eq_false_iff.mp replaced)
  refine .bind (.take (.bind (.onlyIf (fun paid => ?_) fun free => ?_)))
  · have paid : (hub.isFree user request).1 = false := by simpa using paid
    have same := isFree_allowances hub user request
    refine .bind (.take (.require_cases (fun taken => ?_) fun empty => ?_))
    · have admits := onAdmitted ⟨current, .inr ?_⟩
      · unfold admitted at admits
        rw [if_neg (by simp [paid])] at admits
        exact admits
      · rw [← same]
        exact taken
    · refine onRefused _ _ (fun admits => ?_) (free.withAllowance _ _)
      obtain free | taken := admits.2
      · exact absurd free (Bool.eq_false_iff.mp paid)
      · rw [← same] at taken
        exact absurd taken (Bool.eq_false_iff.mp empty)
  · have free : (hub.isFree user request).1 = true := by simpa using free
    have admits := onAdmitted ⟨current, .inl free⟩
    unfold admitted at admits
    rw [if_pos free] at admits
    exact admits

/-- What a request may do, once admitted. -/
def mayDo (primitives : Primitives) (clock : Clock) (hub : Hub) (user : UserId)
    (request : Request) : Core.May where
  half := ∃ encryptionKey, request = .setEncryptionKey encryptionKey ∧
    HalfRekeys primitives clock hub user encryptionKey
  appoints target role :=
    request = .setRole target role ∧ Outranks hub.core user [target] ∧ role ≠ .admin
  removes ids :=
    ∃ target cascade, request = .removeUser target cascade ∧
      (Quits hub.core user ids ∨ Outranks hub.core user ids)

/-- What a request does to the core, whether it is answered or refused. -/
theorem perform_acts (primitives : Primitives) (clock : Clock) (hub : Hub)
    (orderly : hub.core.Orderly) (user : UserId) (request : Request)
    (draws : Nat → Fin (idChars + secretChars) → UInt8) :
    (perform primitives user request draws clock).Ends
      (fun _ after => Core.Acts (hub.mayDo primitives clock user request) hub.core after.core)
      (fun _ after => Core.Acts (hub.mayDo primitives clock user request) hub.core after.core)
      hub := by
  have idle : Idle clock hub hub := Idle.refl hub
  let stepsTo (after : Hub) : Prop :=
    Core.Acts (hub.mayDo primitives clock user request) hub.core after.core
  have unchanged : ∀ after : Hub, after.core = hub.core → stepsTo after := fun _ => .same
  have idled : ∀ after : Hub, Idle clock hub after → stepsTo after := fun _ idle => .same idle.core
  have joined : ∀ target password, Ends (join user target password clock)
      (fun _ => stepsTo) (fun _ => stepsTo) hub := by
    intro target password
    refine (join_ends idle user target password).mono ?_ fun _ _ refused => refused.acts
    intro handled after ends
    cases handled with
    | done response => exact .leads ends.1.leads
    | pending work => exact idled after ends.1
  cases request with
  | joinRoom room password => exact joined (some room) password
  | leaveRoom => exact joined none none
  | setProfile name avatar =>
    refine .map ((setProfile_ends idle user name avatar).mono ?_ fun _ => idled)
    exact fun _ _ ⟨name, does⟩ => .one does ⟨⟨trivial, id, id⟩, id⟩
  | uploadAvatar bytes =>
    exact .map ((setAvatar_ends primitives idle user bytes).mono (fun _ => unchanged) fun _ => idled)
  | fetchAvatar hash =>
    exact .map ((getAvatar_ends idle hash).mono (fun _ => unchanged) fun _ => idled)
  | setEncryptionKey encryptionKey =>
    refine .map ((setEncryptionKey_ends primitives hub user encryptionKey).mono ?_ ?_)
    · rintro _ after (same | does | does | does)
      · exact unchanged after same
      · exact .one does ⟨⟨trivial, id, id⟩, id⟩
      · exact .one does ⟨⟨trivial, id, id⟩, id⟩
      · exact .one does ⟨⟨trivial, id, id⟩, id⟩
    · rintro _ after (⟨_, idle⟩ | ⟨half, does⟩)
      · exact idled after idle
      · exact .half ⟨encryptionKey, rfl, half⟩ user encryptionKey does
  | setMedia media =>
    refine .map ((setMedia_ends idle user media).mono ?_ ?_)
    · exact fun _ _ ⟨applied, does⟩ => .one does ⟨⟨trivial, id, id⟩, id⟩
    · rintro _ after (idle | ⟨applied, does⟩)
      · exact idled after idle
      · exact .one does ⟨⟨trivial, id, id⟩, id⟩
  | setWatched ids =>
    exact .map ((setWatched_ends idle user ids).mono (fun _ _ does => .one does ⟨⟨trivial, id, id⟩, id⟩)
      fun _ => idled)
  | requestKeyframe mediaId kind =>
    exact .map ((requestKeyframe_ends idle user mediaId kind).mono (fun _ => unchanged)
      fun _ => idled)
  | publishSenderKey epoch wrapped =>
    exact .map ((publishKey_ends idle user epoch wrapped).mono (fun _ => unchanged) fun _ => idled)
  | createRoom name password =>
    refine (createRoom_ends idle user name password).mono ?_ fun _ => idled
    rintro _ after (same | ⟨name, passwordHash, does⟩)
    · exact unchanged after same
    · exact .adds name passwordHash does
  | renameRoom room name =>
    refine .map ((renameRoom_ends idle user room name).mono ?_ fun _ => idled)
    exact fun _ _ ⟨name, does⟩ => .one does ⟨⟨trivial, id, id⟩, id⟩
  | deleteRoom room =>
    refine .map ((deleteRoom_ends idle user room).mono ?_ fun _ _ => .ousts)
    rintro _ after ⟨entry, cleared, found, leads, out, same⟩
    rw [same]
    have empty := Core.allows_dropRoom orderly leads found out
    exact .leads (.turn (leads.mono fun _ => Turn.ousts.settled) (.dropRoom room)
      ⟨⟨trivial, id, id⟩, id⟩ empty)
  | setRoomPassword room password =>
    refine (setRoomPassword_ends idle user room password).mono ?_ fun _ => idled
    intro handled after ends
    cases handled with
    | done response => exact .one ends ⟨⟨trivial, id, id⟩, id⟩
    | pending work => exact unchanged after ends
  | createInvite =>
    exact .map ((createInvite_ends idle user draws).mono (fun _ => unchanged) fun _ => idled)
  | listUsers => exact .map ((listUsers_ends idle user).mono (fun _ => unchanged) fun _ => idled)
  | setRole target role =>
    refine .map ((setRole_ends idle user target role).mono ?_ fun _ => idled)
    exact fun _ _ ⟨does, outranks, lower⟩ => .appoints target role ⟨rfl, outranks, lower⟩ does
  | removeUser target cascade =>
    refine .map ((removeUser_ends idle user target cascade).mono ?_ fun _ => idled)
    exact fun _ _ ⟨ids, removes, fair⟩ => .removes ids ⟨target, cascade, rfl, fair⟩ removes
  | setServerName name =>
    exact .map ((setServerName_ends idle user name).mono (fun _ => unchanged) fun _ => unchanged)
  | setServerAvatar avatar =>
    exact .map ((setServerAvatar_ends idle user avatar).mono (fun _ => unchanged)
      fun _ => unchanged)
  | kickFromRoom target room =>
    refine .map ((kickFromRoom_ends idle user target room).mono ?_ fun _ => idled)
    rintro _ after ⟨_, leads, _⟩
    exact .ousts ((Core.Leads.one (.remember target none) trivial nofun).trans leads)

theorem requireCurrent_ends {ok : Unit → Hub → Prop} {failed : Refusal → Hub → Prop}
    {user : UserId} {conn : ConnId} (onOk : hub.isCurrent user conn = true → ok () hub)
    (onError : ∀ refusal, failed refusal hub) :
    (requireCurrent user conn).Ends ok failed hub :=
  .bind (.current (.require onOk (onError _)))

/-- What finishing a request does to the core once its password work is done. -/
theorem finish_acts {may : Core.May} (clock : Clock) (hub : Hub) (user : UserId) (conn : ConnId)
    (done : PasswordDone) :
    (finish user conn done clock).Ends (fun _ after => Core.Acts may hub.core after.core)
      (fun _ after => Refused clock hub after) hub := by
  have idle : Idle clock hub hub := Idle.refl hub
  refine .bind (requireCurrent_ends (fun _ => ?_) fun _ => idle.refused)
  cases done with
  | join room hash matched =>
    refine (finishJoin_ends idle user room hash matched).mono ?_ fun _ _ refused => refused
    exact fun _ _ joins => .leads joins.1.leads
  | createRoom name hash =>
    refine .bind (.okOr (fun hash _ => ?_) idle.refused)
    refine .bind (roomToCreate_ends idle ?_ fun _ => idle.refused)
    intro name
    refine (addRoom_ends idle name (some hash)).mono ?_ fun _ _ idle => idle.refused
    exact fun _ _ does => .adds name (some hash) does
  | setRoomPassword room hash =>
    refine .bind (.okOr (fun hash _ => ?_) idle.refused)
    refine .bind (mayManageRoom_ends idle ?_ fun _ => idle.refused)
    refine (storeRoomPassword_ends idle room (some hash)).mono ?_ fun _ _ idle => idle.refused
    exact fun _ _ does => .one does ⟨⟨trivial, id, id⟩, id⟩

theorem connect_acts {may : Core.May} (clock : Clock) (hub : Hub) (orderly : hub.core.Orderly)
    (row : UserRow) (wantRoom : Option RoomId) :
    (connect row wantRoom clock).Ends (fun _ after => Core.Acts may hub.core after.core)
      (fun _ after => Core.Acts may hub.core after.core) hub := by
  refine (connect_ends hub row wantRoom clock).mono ?_ fun _ _ => .same
  rintro _ after (same | ⟨current, left, found, leads, gone, settles, _⟩)
  · exact .same same
  · have users : left.users = hub.core.users := by
      refine leads.invariant (·.users = hub.core.users) rfl fun core turn same ousts _ => ?_
      rw [Core.users_apply]
      cases turn with
      | leave _ => exact same
      | expel _ => exact same
      | signOut _ => exact same
      | remember _ _ => exact same
      | _ => exact ousts.elim
    have allowed : left.Allows (.signIn current) := by
      refine ⟨?_, gone⟩
      rw [users, orderly.keyed row.id current found]
      exact found
    have signedIn : Core.Leads Turn.settled hub.core (left.apply (.signIn current)) :=
      .turn (leads.mono fun _ => Turn.ousts.settled) (.signIn current) ⟨⟨trivial, id, id⟩, id⟩ allowed
    exact .leads (signedIn.trans settles.leads)

end Hub

/-! ### Steps of the server -/

/-- The step asks for an enrollment. -/
def Input.enrolls (input : Input) : Prop :=
  ∃ pubkey codeId name startedAt, input.action = .enroll pubkey codeId name startedAt

namespace Server

open Attempt

variable (primitives : Primitives)

/-- The hub a step of the server works on. -/
def working (server : Server) (input : Input) : Hub := { server.hub with faults := input.faults }

theorem hub_step_request (server : Server) (input : Input) {user : UserId} {conn : ConnId}
    {request : Request} (action : input.action = .request user conn request) :
    (step primitives server input).hub =
      (Hub.dispatch primitives user conn request input.draws input.clock
        (server.working input)).2 := by
  unfold step working
  dsimp only
  rw [action]
  dsimp only
  generalize Hub.dispatch primitives user conn request input.draws input.clock _ = outcome
  split <;> rfl

theorem hub_step_finish (server : Server) (input : Input) {index : Nat} {hashed : Option String}
    {pending : Pending} (action : input.action = .finish index hashed)
    (found : server.pending[index]? = some pending) :
    (step primitives server input).hub =
      (Hub.finish pending.user pending.conn (pending.work.run primitives hashed) input.clock
        (server.working input)).2 := by
  unfold step working
  dsimp only
  rw [action]
  dsimp only
  rw [found]

/-- A member's new encryption key is stored, but the epoch of their room can't be raised: it is
exhausted, or the database fails. -/
def HalfRekeyed (server : Server) (input : Input) : Prop :=
  let hub := { server.hub with faults := input.faults }
  ∃ user conn encryptionKey, input.action = .request user conn (.setEncryptionKey encryptionKey) ∧
    hub.Admits input.clock user conn (.setEncryptionKey encryptionKey) ∧
    Hub.HalfRekeys primitives input.clock
      (hub.admitted input.clock user (.setEncryptionKey encryptionKey)) user encryptionKey

/-- What a step may do. -/
def mayDo (server : Server) (input : Input) : Core.May where
  half := server.HalfRekeyed primitives input
  appoints target role :=
    (∃ user conn, input.action = .request user conn (.setRole target role) ∧
        Hub.Outranks server.hub.core user [target] ∧ role ≠ .admin) ∨
      (∃ pubkey codeId name startedAt, input.action = .enroll pubkey codeId name startedAt) ∧
        role = .admin
  removes ids :=
    (∃ user conn target cascade, input.action = .request user conn (.removeUser target cascade) ∧
        (Hub.Quits server.hub.core user ids ∨ Hub.Outranks server.hub.core user ids)) ∨
      input.action = .removeInactive

theorem dispatch_acts (server : Server) (orderly : server.hub.core.Orderly) (input : Input)
    (user : UserId) (conn : ConnId) (request : Request)
    (action : input.action = .request user conn request) :
    let hub : Hub := { server.hub with faults := input.faults }
    (Hub.dispatch primitives user conn request input.draws input.clock).Ends
      (fun _ after => Core.Acts (server.mayDo primitives input) server.hub.core after.core)
      (fun _ after => Core.Acts (server.mayDo primitives input) server.hub.core after.core)
      hub := by
  intro hub
  have core : (hub.admitted input.clock user request).core = server.hub.core :=
    (Hub.idle_admitted input.clock hub user request).core
  refine Hub.dispatch_ends (fun admits => ?_) fun _ after _ idle => .same idle.core
  have performed := Hub.perform_acts primitives input.clock
    (hub.admitted input.clock user request) (core ▸ orderly) user request input.draws
  rw [core] at performed
  have steps : ∀ after : Hub, Core.Acts
      ((hub.admitted input.clock user request).mayDo primitives input.clock user request)
      server.hub.core after.core →
      Core.Acts (server.mayDo primitives input) server.hub.core after.core := by
    intro after steps
    refine steps.mono ?_ ?_ ?_
    · rintro ⟨encryptionKey, rfl, half⟩
      exact ⟨user, conn, encryptionKey, action, admits, half⟩
    · rintro target role ⟨rfl, outranks⟩
      rw [core] at outranks
      exact .inl ⟨user, conn, action, outranks⟩
    · rintro ids ⟨target, cascade, rfl, fair⟩
      rw [core] at fair
      exact .inl ⟨user, conn, target, cascade, action, fair⟩
  exact performed.mono (fun _ => steps) fun _ => steps

theorem acts (server : Server) (orderly : server.hub.core.Orderly) (input : Input)
    (other : ¬ input.enrolls) :
    Core.Acts (server.mayDo primitives input) server.hub.core
      (step primitives server input).hub.core := by
  let hub : Hub := { server.hub with faults := input.faults }
  have idle : Hub.Idle input.clock hub hub := Hub.Idle.refl hub
  let stepsTo (after : Hub) : Prop :=
    Core.Acts (server.mayDo primitives input) server.hub.core after.core
  have unchanged : ∀ after : Hub, after.core = hub.core → stepsTo after := fun _ => .same
  have idled : ∀ after : Hub, Hub.Idle input.clock hub after → stepsTo after :=
    fun _ idle => .same idle.core
  unfold step
  dsimp only
  cases action : input.action with
  | connect row wantRoom => exact (Hub.connect_acts input.clock hub orderly row wantRoom).after
  | disconnect user conn => exact .ousts (Hub.core_disconnect hub user conn input.clock)
  | request user conn request =>
    have steps := (dispatch_acts primitives server orderly input user conn request action).after
    dsimp only at steps ⊢
    generalize Hub.dispatch primitives user conn request input.draws input.clock _ = outcome at steps ⊢
    split <;> exact steps
  | finish index hashed =>
    dsimp only
    split
    · exact .same rfl
    · rename_i pending _
      have both : (Hub.finish pending.user pending.conn (pending.work.run primitives hashed)
          input.clock).Ends (fun _ => stepsTo) (fun _ => stepsTo) hub :=
        (Hub.finish_acts input.clock hub pending.user pending.conn
          (pending.work.run primitives hashed)).mono (fun _ _ steps => steps)
            fun _ _ refused => refused.acts
      exact both.after
  | removeInactive =>
    refine ((Hub.removeInactive_ends idle).mono ?_ fun _ => idled).after
    rintro _ after (same | ⟨ids, removes⟩)
    · exact unchanged after same
    · exact .removes ids (.inr action) removes
  | flushKeyframes => exact .same (Hub.core_flushKeyframes hub input.clock)
  | claimTry codeId =>
    exact ((Hub.claimTry_ends idle codeId input.clock.unixNow).mono (fun _ => unchanged)
      fun _ => idled).after
  | enroll pubkey codeId name startedAt =>
    exact absurd ⟨pubkey, codeId, name, startedAt, action⟩ other
  | endRun codeId mintedBy => exact .same (Hub.core_endRun hub codeId mintedBy)
  | adminInvite =>
    exact ((Hub.mintInvite_ends idle none input.draws).mono (fun _ => unchanged)
      fun _ => idled).after
  | restart =>
    have does : hub.core.Does .restart (hub.start input.clock).core :=
      ⟨trivial, Hub.core_start hub input.clock⟩
    exact .one does ⟨⟨trivial, id, id⟩, id⟩

theorem steps (server : Server) (orderly : server.hub.core.Orderly) (input : Input) :
    Core.Steps (server.mayDo primitives input) server.hub.core
      (step primitives server input).hub.core := by
  by_cases enrolls : input.enrolls
  · obtain ⟨pubkey, codeId, name, startedAt, action⟩ := id enrolls
    let hub : Hub := { server.hub with faults := input.faults }
    have idle : Hub.Idle input.clock hub hub := Hub.Idle.refl hub
    let stepsTo (after : Hub) : Prop :=
      Core.Steps (server.mayDo primitives input) server.hub.core after.core
    unfold step
    dsimp only
    rw [action]
    have both : (Hub.enroll pubkey codeId name startedAt).Ends (fun _ => stepsTo)
        (fun _ => stepsTo) hub := by
      refine (Hub.enroll_ends idle pubkey codeId name startedAt).mono ?_ ?_
      · rintro _ after (same | ⟨row, does⟩ | ⟨user, does⟩)
        · exact .same same
        · exact .one does ⟨trivial, id, id⟩
        · exact .appoints user .admin (.inr ⟨enrolls, rfl⟩) does
      · exact fun _ after idle => .same idle.core
    exact both.after
  · exact (server.acts primitives orderly input enrolls).steps

/-! ### Reachable servers -/

theorem empty_consistent (fingerprint : Fingerprint) :
    ({ db := {}, fingerprint } : Hub).core.Consistent := by
  let core := ({ db := {}, fingerprint } : Hub).core
  have noSeat : ∀ user seat, core.seats.lookup user ≠ some seat := by
    intro user seat found
    rw [show core.seats.lookup user = none from Finmap.lookup_empty _] at found
    cases found
  have noUser : ∀ user row, core.users.lookup user ≠ some row := by
    intro user row found
    rw [show core.users.lookup user = none from Finmap.lookup_empty _] at found
    cases found
  have noMember : ∀ room, core.occupants room = ∅ := fun _ => rfl
  have outside : ∀ user, core.roomOf user = none := fun _ => rfl
  have noTracks : ∀ user, core.tracksOf user = none := fun _ => rfl
  exact {
    seated := {
      named := fun user seat found => (noSeat user seat found).elim
      member := fun user room => by rw [outside, noMember]; exact ⟨nofun, nofun⟩ }
    fitting := fun user seat found => (noSeat user seat found).elim
    spacious := fun room => by rw [noMember]; exact Nat.zero_le _
    few := fun room => Nat.zero_le _
    connected := {
      known := fun user seat found => (noSeat user seat found).elim
      distinct := fun user _ seat _ found => (noSeat user seat found).elim }
    allotted := {
      below := nofun
      once := List.nodup_nil
      made := fun user _ found => by rw [noTracks] at found; cases found
      held := fun user _ ⟨_, found, _⟩ => by rw [noTracks] at found; cases found
      apart := fun user _ _ ⟨_, found, _⟩ => by rw [noTracks] at found; cases found }
    keyed := fun user row found => (noUser user row found).elim
    numbered := fun room member => (Finmap.notMem_empty member).elim
    mirrored := rfl
    routed := rfl
    enrolled := fun user member => (Finmap.notMem_empty member).elim
    recorded := {
      numbered := fun user member => (Finmap.notMem_empty member).elim
      current := fun user seat _ found => (noSeat user seat found).elim } }

theorem fresh_consistent (fingerprint : Fingerprint) (clock : Clock) :
    (fresh fingerprint clock).hub.core.Consistent := by
  have allowed : ({ db := {}, fingerprint } : Hub).core.Allows .restart := True.intro
  have sound : Turn.sound .restart := True.intro
  exact (empty_consistent fingerprint).apply sound allowed

/-- Every server a run reaches is consistent. -/
theorem run_consistent (fingerprint : Fingerprint) (clock : Clock) (inputs : List Input) :
    (run (step primitives) (fresh fingerprint clock) inputs).hub.core.Consistent :=
  run_invariant (step primitives) (·.hub.core.Consistent) (fresh_consistent fingerprint clock)
    (fun server input consistent =>
      consistent.steps (server.steps primitives consistent.toOrderly input)) inputs

end Server

end Throcc
