/-
This file proves that the published routes are always those of the rooms and
seats: a turn that changes what they depend on publishes them anew.
-/

import Throcc.Epochs

namespace Throcc

/-! ### What routes depend on -/

/-- A seat with what no route depends on blanked. -/
def Seat.heard (seat : Seat) : Seat :=
  { seat with
    row := { seat.row with encryptionKey := none, name := "", avatar := none, role := .user }
    room := none
    media := { deafened := seat.media.deafened } }

theorem others_heard (members : List Seat) (sender : Seat) :
    others (members.map Seat.heard) sender.heard = (others members sender).map Seat.heard := by
  unfold others
  rw [List.filter_map]
  rfl

/-- The routes of a member's tracks depend on what is heard of the members only. -/
theorem routesOf_heard (members : List Seat) (sender : Seat) :
    routesOf (members.map Seat.heard) sender.heard = routesOf members sender := by
  have shown : ∀ (owner : ConnId) (kind : TrackKind) (keep keep' : Seat → Bool),
      (∀ seat, keep' seat.heard = keep seat) →
      route owner kind ((others (members.map Seat.heard) sender.heard).filter keep') =
        route owner kind ((others members sender).filter keep) := by
    intro owner kind keep keep' same
    unfold route
    rw [others_heard, List.filter_map, List.map_map]
    congr 2
    exact List.filter_congr fun seat _ => same seat
  have same : sender.heard.tracks = sender.tracks := rfl
  unfold routesOf
  rw [same]
  cases sender.tracks with
  | none => rfl
  | some tracks =>
    refine congrArg₂ List.cons (congrArg (Prod.mk tracks.mic) ?_) ?_
    · exact shown _ _ (fun member => !member.media.deafened) _ fun _ => rfl
    · refine congrArg (fun give => tracks.shares.flatMap give) (funext fun share => ?_)
      refine congrArg₂ List.cons (congrArg (Prod.mk share.video) ?_)
        (congrArg (fun route => [(share.audio, route)]) ?_)
      · exact shown _ _ (sees share) _ fun _ => rfl
      · exact shown _ _ (hears share) _ fun _ => rfl

namespace Core

variable {core next : Core}

/-- The seats of a room's members. -/
def seatsOf (core : Core) (room : RoomId) : List Seat :=
  (ascending (core.occupants room)).filterMap fun user => core.seats.lookup user

/-- The routes of a room's members. -/
def routesIn (core : Core) (room : RoomId) : List (MediaId × Route) :=
  (core.seatsOf room).flatMap (routesOf (core.seatsOf room))

theorem routesIn_eq_nil {room : RoomId} (empty : core.occupants room = ∅) :
    core.routesIn room = [] := by
  rw [routesIn, seatsOf, empty]
  rfl

/-- Members who are heard alike have the same routes. -/
theorem routesIn_congr {room : RoomId} (members : next.occupants room = core.occupants room)
    (alike : ∀ user ∈ core.occupants room,
      (next.seats.lookup user).map Seat.heard = (core.seats.lookup user).map Seat.heard) :
    next.routesIn room = core.routesIn room := by
  have heard : (next.seatsOf room).map Seat.heard = (core.seatsOf room).map Seat.heard := by
    unfold seatsOf
    rw [members, List.map_filterMap, List.map_filterMap]
    exact List.filterMap_congr fun user member => alike user ((mem_ascending _ _).mp member)
  have blank : ∀ seats : List Seat, seats.flatMap (routesOf seats) =
      (seats.map Seat.heard).flatMap (routesOf (seats.map Seat.heard)) := by
    intro seats
    rw [List.flatMap_map]
    simp only [routesOf_heard]
  rw [routesIn, routesIn, blank, heard, ← blank]

end Core

/-! ### Gathering over ascending keys -/

theorem filter_ascending (keys : Finset RoomId) (keep : RoomId → Bool) :
    (ascending keys).filter keep = ascending (keys.filter fun key => keep key) := by
  have sorted : ∀ keys : Finset RoomId, (ascending keys).Pairwise (· ≤ ·) := by
    intro keys
    obtain ⟨⟨list⟩, distinct⟩ := keys
    exact List.pairwise_insertionSort _ list
  have permuted : ((ascending keys).filter keep).Perm (ascending (keys.filter fun key => keep key)) := by
    rw [← Multiset.coe_eq_coe, ascending_coe, Finset.filter_val, ← ascending_coe,
      Multiset.filter_coe]
    simp only [Bool.decide_eq_true]
  exact permuted.eq_of_pairwise' ((sorted keys).filter keep) (sorted _)

/-- Keys that give nothing may be left out. -/
theorem flatMap_ascending_of_subset {Result : Type} {few many : Finset RoomId} (subset : few ⊆ many)
    (give : RoomId → List Result) (nothing : ∀ key ∈ many, key ∉ few → give key = []) :
    (ascending many).flatMap give = (ascending few).flatMap give := by
  have kept : (ascending many).filter (fun key => key ∈ few) = ascending few := by
    rw [filter_ascending]
    refine congrArg ascending (Finset.ext fun key => ?_)
    simp only [Finset.mem_filter, decide_eq_true_eq]
    exact ⟨And.right, fun member => ⟨subset member, member⟩⟩
  rw [← kept]
  have gathered : ∀ keys : List RoomId, (∀ key ∈ keys, key ∈ many) →
      keys.flatMap give = (keys.filter (fun key => key ∈ few)).flatMap give := by
    intro keys within
    induction keys with
    | nil => rfl
    | cons key rest inductionHypothesis =>
      have later := inductionHypothesis fun key member => within key (List.mem_cons_of_mem _ member)
      rw [List.flatMap_cons, List.filter_cons]
      split
      · rw [List.flatMap_cons, later]
      · rename_i left
        rw [nothing key (within key List.mem_cons_self) (by simpa using left), List.nil_append,
          later]
  exact gathered _ fun key member => (mem_ascending _ _).mp member

namespace Core

variable {core next : Core}

theorem routes_eq (core : Core) :
    core.routes = Map.ofList ((ascending core.rooms.keys).flatMap core.routesIn) := by
  unfold Seating.routes Map.toList
  refine congrArg Map.ofList ?_
  induction ascending core.rooms.keys with
  | nil => rfl
  | cons room rest inductionHypothesis =>
    rw [List.filterMap_cons, List.flatMap_cons, ← inductionHypothesis]
    cases found : core.rooms.lookup room with
    | none =>
      rw [routesIn_eq_nil (by rw [occupants, found]; rfl)]
      rfl
    | some entry =>
      rw [routesIn, seatsOf, occupants_of_lookup core found]
      rfl

/-- The routes are those of each room, whatever empty rooms there are. -/
theorem routes_congr (same : ∀ room, next.routesIn room = core.routesIn room) :
    next.routes = core.routes := by
  have missing : ∀ (core : Core) (room : RoomId), room ∉ core.rooms.keys →
      core.routesIn room = [] := by
    intro core room absent
    refine routesIn_eq_nil ?_
    rw [occupants, Finmap.lookup_eq_none.mpr (Finmap.mem_keys.not.mp absent)]
    rfl
  rw [routes_eq, routes_eq]
  refine congrArg Map.ofList ?_
  calc
    _ = (ascending (next.rooms.keys ∪ core.rooms.keys)).flatMap next.routesIn :=
      (flatMap_ascending_of_subset Finset.subset_union_left next.routesIn
        fun key _ absent => missing next key absent).symm
    _ = (ascending (next.rooms.keys ∪ core.rooms.keys)).flatMap core.routesIn := by
      rw [funext same]
    _ = _ := flatMap_ascending_of_subset Finset.subset_union_right core.routesIn
      fun key _ absent => missing core key absent

/-- The published routes are those of the rooms and seats. -/
def Routed (core : Core) : Prop := core.table = core.routes

/-- A turn that publishes nothing and changes nothing that is heard of a member. -/
theorem Routed.quiet (routed : core.Routed) (table : next.table = core.table)
    (members : ∀ room, next.occupants room = core.occupants room)
    (alike : ∀ room, ∀ user ∈ core.occupants room,
      (next.seats.lookup user).map Seat.heard = (core.seats.lookup user).map Seat.heard) :
    next.Routed := by
  unfold Routed
  rw [table, routes_congr fun room => routesIn_congr (members room) (alike room)]
  exact routed

theorem Routed.withSeat (routed : core.Routed) {user : UserId} {update : Seat → Seat}
    (table : next.table = core.table) (seats : next.seats = core.seats.modify user update)
    (members : ∀ room, next.occupants room = core.occupants room)
    (alike : ∀ seat, core.seats.lookup user = some seat → (update seat).heard = seat.heard) :
    next.Routed := by
  refine routed.quiet table members fun room other _ => ?_
  rw [seats, Map.lookup_modify]
  split
  · rename_i same
    subst same
    rw [Option.map_map]
    cases found : core.seats.lookup other with
    | none => rfl
    | some seat => exact congrArg some (alike seat found)
  · rfl

/-- What is published anew is what is there. -/
theorem Routed.rebuild (core : Core) : core.rebuild.Routed := rfl

theorem Routed.place (core : Core) (user : UserId) (target : Option RoomId) :
    (core.place user target).Routed := Routed.rebuild _

theorem Routed.apply (routed : core.Routed) (seated : core.Seated) (numbered : core.Numbered)
    {turn : Turn} (allowed : core.Allows turn) : (core.apply turn).Routed := by
  have stays : ∀ next : Core, next.table = core.table → next.seats = core.seats →
      (∀ room, next.occupants room = core.occupants room) → next.Routed := by
    intro next table seats members
    exact routed.quiet table members fun room user _ => by rw [seats]
  cases turn with
  | enter user room => exact Routed.place core user (some room)
  | leave user => exact Routed.place core user none
  | expel user =>
    obtain ⟨room, inside⟩ := allowed
    rw [apply_expel core inside]
    exact Routed.rebuild _
  | remember user target => cases target <;> exact stays _ rfl rfl fun _ => rfl
  | signIn row =>
    refine routed.quiet rfl (fun _ => rfl) fun room user member => ?_
    have different : user ≠ row.id := by
      rintro rfl
      exact seated.notMem_occupants (roomOf_eq_none_of_notMem allowed.2) room member
    exact congrArg (Option.map Seat.heard) (Finmap.lookup_insert_of_ne _ different)
  | signOut leaver =>
    refine routed.quiet rfl (fun _ => rfl) fun room user member => ?_
    have different : user ≠ leaver := by
      rintro rfl
      exact seated.notMem_occupants allowed room member
    exact congrArg (Option.map Seat.heard) (Finmap.lookup_erase_ne different)
  | storeKey user encryptionKey => exact routed.withSeat rfl rfl (fun _ => rfl) fun _ _ => rfl
  | halfKey user encryptionKey => exact routed.withSeat rfl rfl (fun _ => rfl) fun _ _ => rfl
  | renewKey user encryptionKey =>
    obtain ⟨notices, same⟩ := core.apply_renewKey user encryptionKey
    rw [same]
    exact routed.withSeat rfl rfl (fun _ => rfl) fun _ _ => rfl
  | rekey user encryptionKey =>
    obtain ⟨notices, same⟩ := core.apply_rekey user encryptionKey
    rw [same]
    exact routed.withSeat rfl rfl (occupants_raise _ _) fun _ _ => rfl
  | media user media =>
    obtain ⟨seat, room, found, inside, _⟩ := allowed
    show (core.setMedia user media).Routed
    unfold setMedia
    dsimp only
    split
    · exact Routed.rebuild _
    · rename_i unheard
      rw [not_or, not_not, found] at unheard
      obtain ⟨notices, told⟩ :=
        broadcasts_frame (core.withSeat user fun seat => { seat with media }) (core.roomOf user) none
      rw [told]
      have heard : ∀ seat', core.seats.lookup user = some seat' →
          ({ seat' with media } : Seat).heard = seat'.heard := by
        intro seat' found'
        rw [found] at found'
        cases found'
        have deafened : media.deafened = seat.media.deafened := unheard.1
        unfold Seat.heard
        rw [deafened]
      split <;> exact routed.withSeat rfl rfl (fun _ => rfl) heard
  | watch user ids => exact Routed.rebuild _
  | profile user name avatar => exact routed.withSeat rfl rfl (fun _ => rfl) fun _ _ => rfl
  | role user role =>
    obtain ⟨lastJoined, same⟩ := core.apply_role user role
    rw [same]
    exact routed.withSeat rfl rfl (fun _ => rfl) fun _ _ => rfl
  | addRoom name passwordHash =>
    exact stays _ rfl rfl (core.occupants_addRoom numbered name passwordHash)
  | renameRoom room name => exact stays _ rfl rfl (core.occupants_withRoom room _ fun _ => rfl)
  | lock room passwordHash => exact stays _ rfl rfl (core.occupants_withRoom room _ fun _ => rfl)
  | dropRoom room => exact stays _ rfl rfl (core.occupants_dropRoom allowed)
  | restart =>
    unfold Routed
    rw [routes_eq]
    have empty : (ascending (core.apply .restart).rooms.keys).flatMap
        (core.apply .restart).routesIn = [] :=
      List.flatMap_eq_nil_iff.mpr fun room _ => routesIn_eq_nil (core.occupants_restart room)
    rw [empty]
    rfl
  | _ => exact stays _ rfl rfl fun _ => rfl

/-! ### Who receives what -/

/-- `listener` may receive track `id` of `owner`, one of their `tracks`: they are another session
in the same room, hear it unless deafened, and see or hear a share only while watching it. -/
structure Receives (id : MediaId) (owner : Seat) (tracks : Tracks) (listener : Seat) : Prop where
  room : listener.room = owner.room
  other : listener.row.id ≠ owner.row.id
  hears : id = tracks.mic ∨ (∃ share ∈ tracks.shares, id = share.audio) →
    listener.media.deafened = false
  watches : (∃ share ∈ tracks.shares, id = share.video ∨ id = share.audio) →
    id ∈ listener.watching

/-- The route of one track: it is its owner's, and only those who may receive it do. -/
theorem receives_of_mem_routesOf {members : List Seat} {sender : Seat} {id : MediaId}
    {route : Route} (made : ∀ tracks, sender.tracks = some tracks → ∃ first, tracks = tracksAt first)
    (together : ∀ member ∈ members, member.room = sender.room)
    (member : (id, route) ∈ routesOf members sender) :
    ∃ tracks, sender.tracks = some tracks ∧ id ∈ trackIds tracks ∧ sender.connId = route.owner ∧
      ∀ conn ∈ route.subscribers, ∃ listener ∈ members,
        listener.connId = conn ∧ Receives id sender tracks listener := by
  unfold routesOf at member
  cases has : sender.tracks with
  | none =>
    rw [has] at member
    cases member
  | some tracks =>
    obtain ⟨first, rfl⟩ := made tracks has
    rw [has] at member
    have listeners : ∀ (keep : Seat → Bool) (conn : ConnId),
        conn ∈ ((others members sender).filter keep).map (·.connId) →
        ∃ listener ∈ members, listener.connId = conn ∧ listener.room = sender.room ∧
          listener.row.id ≠ sender.row.id ∧ keep listener = true := by
      intro keep conn subscribed
      obtain ⟨listener, kept, rfl⟩ := List.mem_map.mp subscribed
      obtain ⟨other, keeps⟩ := List.mem_filter.mp kept
      obtain ⟨inside, different⟩ := List.mem_filter.mp other
      exact ⟨listener, inside, rfl, together listener inside, of_decide_eq_true different, keeps⟩
    refine ⟨tracksAt first, rfl, ?_⟩
    simp only [tracksAt, List.flatMap_cons, List.flatMap_nil, List.append_nil, List.mem_cons,
      List.not_mem_nil, or_false, Prod.mk.injEq] at member
    obtain ⟨rfl, rfl⟩ | ⟨rfl, rfl⟩ | ⟨rfl, rfl⟩ := member
    · refine ⟨mem_trackIds_tracksAt.mpr (.inl rfl), rfl, fun conn subscribed => ?_⟩
      obtain ⟨listener, inside, conn, room, other, keeps⟩ := listeners _ conn subscribed
      refine ⟨listener, inside, conn, room, other, fun _ => by simpa using keeps, ?_⟩
      simp [tracksAt]
    · refine ⟨mem_trackIds_tracksAt.mpr (.inr (.inl rfl)), rfl, fun conn subscribed => ?_⟩
      obtain ⟨listener, inside, conn, room, other, keeps⟩ := listeners _ conn subscribed
      refine ⟨listener, inside, conn, room, other, ?_, fun _ => of_decide_eq_true keeps⟩
      simp [tracksAt]
    · refine ⟨mem_trackIds_tracksAt.mpr (.inr (.inr rfl)), rfl, fun conn subscribed => ?_⟩
      obtain ⟨listener, inside, conn, room, other, keeps⟩ := listeners _ conn subscribed
      obtain ⟨watching, hearing⟩ := of_decide_eq_true keeps
      exact ⟨listener, inside, conn, room, other, fun _ => by simpa using hearing,
        fun _ => watching⟩

theorem mem_seatsOf {room : RoomId} {seat : Seat} (member : seat ∈ core.seatsOf room) :
    ∃ user ∈ core.occupants room, core.seats.lookup user = some seat := by
  obtain ⟨user, there, found⟩ := List.mem_filterMap.mp member
  exact ⟨user, (mem_ascending _ _).mp there, found⟩

/-- Every published route is of a track somebody holds, and gives it to those who may receive
it. -/
theorem Routed.receives (routed : core.Routed) (seated : core.Seated) (allotted : core.Allotted)
    {id : MediaId} {route : Route} (found : core.table.lookup id = some route) :
    ∃ user owner tracks room, core.seats.lookup user = some owner ∧ owner.room = some room ∧
      owner.tracks = some tracks ∧ id ∈ trackIds tracks ∧ owner.connId = route.owner ∧
      ∀ conn ∈ route.subscribers, ∃ other listener, core.seats.lookup other = some listener ∧
        listener.connId = conn ∧ Receives id owner tracks listener := by
  rw [show core.table = core.routes from routed, routes_eq] at found
  obtain ⟨room, _, published⟩ := List.mem_flatMap.mp (Map.mem_of_lookup_ofList found)
  obtain ⟨owner, sends, published⟩ := List.mem_flatMap.mp published
  have inRoom : ∀ seat ∈ core.seatsOf room, ∃ user, core.seats.lookup user = some seat ∧
      seat.room = some room := by
    intro seat member
    obtain ⟨user, inside, there⟩ := mem_seatsOf member
    have at_ := (seated.member user room).mpr inside
    rw [roomOf, there] at at_
    exact ⟨user, there, at_⟩
  obtain ⟨user, there, inside⟩ := inRoom owner sends
  have made : ∀ tracks, owner.tracks = some tracks → ∃ first, tracks = tracksAt first :=
    fun tracks has => allotted.made user tracks (by rw [tracksOf, there]; exact has)
  have together : ∀ member ∈ core.seatsOf room, member.room = owner.room := by
    intro member listens
    obtain ⟨_, _, same⟩ := inRoom member listens
    rw [same, inside]
  obtain ⟨tracks, has, held, owns, subscribers⟩ :=
    receives_of_mem_routesOf made together published
  refine ⟨user, owner, tracks, room, there, inside, has, held, owns, fun conn subscribed => ?_⟩
  obtain ⟨listener, listens, same, receives⟩ := subscribers conn subscribed
  obtain ⟨other, there', _⟩ := inRoom listener listens
  exact ⟨other, listener, there', same, receives⟩

end Core

end Throcc
