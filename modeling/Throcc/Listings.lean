/-
This file proves what the room states sent to members list: whoever a room
state lists, with whatever key, an earlier state of that epoch listed, or the
epoch has just been raised and stored.
-/

import Throcc.Epochs

namespace Throcc

/-- One user with one encryption key, whatever else of them has changed. -/
def Peer.Alike (first second : Peer) : Prop :=
  first.user = second.user ∧ first.encryptionKey.key = second.encryptionKey.key

/-- Some room state of this epoch lists a user with their key. -/
def Covered (notices : List Notice) (room : RoomId) (epoch : Epoch) (peer : Peer) : Prop :=
  ∃ peers other, .listed room epoch peers ∈ notices ∧ other ∈ peers ∧ peer.Alike other

theorem Covered.mono {notices more : List Notice} {room : RoomId} {epoch : Epoch} {peer : Peer}
    (covered : Covered notices room epoch peer) (subset : notices ⊆ more) :
    Covered more room epoch peer := by
  obtain ⟨peers, other, member, listed, alike⟩ := covered
  exact ⟨peers, other, subset member, listed, alike⟩

namespace Core

variable {core next : Core}

/-! ### The peers of a room -/

theorem mem_peers {room : RoomId} {listed : Peer} :
    listed ∈ core.peers room ↔ ∃ user ∈ core.occupants room, ∃ seat,
      core.seats.lookup user = some seat ∧ Throcc.peer seat = some listed := by
  unfold Seating.peers
  cases found : core.rooms.lookup room with
  | none =>
    have empty : core.occupants room = ∅ := by
      rw [occupants, found]
      rfl
    simp [empty]
  | some entry =>
    rw [occupants_of_lookup core found]
    dsimp only
    rw [List.mem_filterMap]
    unfold Seating.seatsIn
    constructor
    · rintro ⟨seat, there, same⟩
      obtain ⟨user, member, found⟩ := List.mem_filterMap.mp there
      exact ⟨user, (mem_ascending _ _).mp member, seat, found, same⟩
    · rintro ⟨user, member, seat, found, same⟩
      exact ⟨seat, List.mem_filterMap.mpr ⟨user, (mem_ascending _ _).mpr member, found⟩, same⟩

/-- A room with a peer has someone to tell. -/
theorem membersExcept_ne_nil {room : RoomId} {listed : Peer} (member : listed ∈ core.peers room) :
    core.membersExcept room none ≠ [] := by
  obtain ⟨user, inside, seat, found, _⟩ := mem_peers.mp member
  obtain ⟨entry, there, inside⟩ := exists_of_mem_occupants core inside
  have conn : seat.connId ∈ core.membersExcept room none := by
    unfold Seating.membersExcept
    rw [there]
    refine List.mem_filterMap.mpr ⟨user, List.mem_filter.mpr ⟨?_, rfl⟩, ?_⟩
    · exact (mem_ascending _ _).mpr inside
    · rw [found]
      rfl
  exact List.ne_nil_of_mem conn

/-! ### What is said of a room -/

/-- Every user of a room, with the key they have there, has been listed at its epoch. -/
def Listed (core : Core) : Prop :=
  ∀ room epoch, core.epochOf room = some epoch → ∀ listed ∈ core.peers room,
    Covered core.notices room epoch listed

/-- The epoch was raised from the one before, and stored, before it is first used. -/
def RaisedFirst (core : Core) (room : RoomId) (epoch : Epoch) (earlier : List Notice) : Prop :=
  ∃ before, core.epochOf room = some before ∧ before < epoch ∧
    ∃ epochs, .stored epochs ∈ earlier ∧ (room, epoch) ∈ epochs

/-- What is said on the way from `core` to `next`: every room state lists only whom an earlier
state of its epoch listed with the same key, or comes after its epoch was raised and stored. -/
def Tells (core next : Core) : Prop :=
  ∃ news, next.notices = core.notices ++ news ∧
    ∀ earlier later room epoch peers, news = earlier ++ .listed room epoch peers :: later →
      ∀ listed ∈ peers, Covered (core.notices ++ earlier) room epoch listed ∨
        core.RaisedFirst room epoch earlier

theorem Tells.same (unsaid : next.notices = core.notices) : core.Tells next :=
  ⟨[], unsaid.trans (List.append_nil _).symm, fun earlier later room epoch peers split => by
    simp at split⟩

theorem Tells.trans {last : Core} (first : core.Tells next) (second : next.Tells last)
    (grows : ∀ room epoch, next.epochOf room = some epoch →
      ∃ before, core.epochOf room = some before ∧ before ≤ epoch) : core.Tells last := by
  obtain ⟨news, said, told⟩ := first
  obtain ⟨news', said', told'⟩ := second
  refine ⟨news ++ news', by rw [said', said, List.append_assoc], ?_⟩
  intro earlier later room epoch peers split listed member
  obtain ⟨rest, rfl, following⟩ | ⟨rest, same, following⟩ := List.append_eq_append_iff.mp split
  · -- The state is among the later news.
    have covers := told' rest later room epoch peers following listed member
    rw [said, List.append_assoc] at covers
    refine covers.imp_right ?_
    rintro ⟨before, found, lower, epochs, stored, raised⟩
    obtain ⟨first, there, le⟩ := grows room before found
    exact ⟨first, there, le.trans_lt lower, epochs, List.mem_append_right _ stored, raised⟩
  · cases rest with
    | nil =>
      rw [List.append_nil] at same
      rw [List.nil_append] at following
      have covers := told' [] later room epoch peers following.symm listed member
      rw [said, List.append_nil, same] at covers
      refine covers.imp_right ?_
      rintro ⟨_, _, _, _, stored, _⟩
      cases stored
    | cons head rest =>
      rw [List.cons_append, List.cons.injEq] at following
      obtain ⟨rfl, _⟩ := following
      exact told earlier rest room epoch peers same listed member

/-! ### One turn -/

/-- One room state is said fairly: it lists only whom the room has, with their keys, at its
epoch, or the news begin with the write of its epoch, raised from the one before. -/
def Fair (core : Core) (news : List Notice) : Notice → Prop
  | .stored _ => True
  | .listed room epoch peers =>
    (core.epochOf room = some epoch ∧
        ∀ listed ∈ peers, ∃ other ∈ core.peers room, listed.Alike other) ∨
      ∃ before epochs, core.epochOf room = some before ∧ before < epoch ∧
        news.head? = some (.stored epochs) ∧ (room, epoch) ∈ epochs

/-- Fair news keep every room listed, if whoever is in a room afterwards was there before at the
same epoch, or is in the news. -/
theorem Listed.step (listed : core.Listed) {news : List Notice}
    (said : next.notices = core.notices ++ news) (fair : ∀ notice ∈ news, core.Fair news notice)
    (covers : ∀ room epoch, next.epochOf room = some epoch → ∀ peer ∈ next.peers room,
      (core.epochOf room = some epoch ∧ ∃ other ∈ core.peers room, peer.Alike other) ∨
        Covered news room epoch peer) :
    next.Listed ∧ core.Tells next := by
  have before : ∀ room epoch peer other, core.epochOf room = some epoch →
      other ∈ core.peers room → peer.Alike other → Covered core.notices room epoch peer := by
    intro room epoch peer other found member alike
    obtain ⟨peers, earlier, said, there, same⟩ := listed room epoch found other member
    exact ⟨peers, earlier, said, there, alike.1.trans same.1, alike.2.trans same.2⟩
  constructor
  · intro room epoch found peer member
    rw [said]
    obtain ⟨there, other, present, alike⟩ | new := covers room epoch found peer member
    · exact (before room epoch peer other there present alike).mono (List.subset_append_left _ _)
    · exact new.mono (List.subset_append_right _ _)
  · refine ⟨news, said, fun earlier later room epoch peers split peer member => ?_⟩
    have fair := fair (.listed room epoch peers) (split ▸ by simp)
    obtain ⟨there, shown⟩ | ⟨old, epochs, there, lower, first, stored⟩ := fair
    · obtain ⟨other, present, alike⟩ := shown peer member
      exact .inl ((before room epoch peer other there present alike).mono
        (List.subset_append_left _ _))
    · refine .inr ⟨old, there, lower, epochs, ?_, stored⟩
      rw [split] at first
      cases earlier with
      | nil => cases first
      | cons head rest =>
        cases first
        exact List.mem_cons_self

/-- A turn that says nothing, after which a room has only whom it had at its epoch. -/
theorem Listed.quiet (listed : core.Listed) (unsaid : next.notices = core.notices)
    (covers : ∀ room epoch, next.epochOf room = some epoch → ∀ peer ∈ next.peers room,
      core.epochOf room = some epoch ∧ ∃ other ∈ core.peers room, peer.Alike other) :
    next.Listed ∧ core.Tells next :=
  listed.step (unsaid.trans (List.append_nil _).symm) nofun
    fun room epoch found peer member => .inl (covers room epoch found peer member)

/-! ### What turns say -/

theorem notices_broadcasts (core : Core) (room : Option RoomId) (except : Option UserId) :
    (room.toList.foldl (fun core room => core.broadcast room except) core).notices =
      core.notices ++ room.toList.flatMap fun room =>
        (core.membersExcept room except).map fun _ => core.stateOf room := by
  cases room with
  | none => exact (List.append_nil _).symm
  | some room =>
    rw [Option.toList_some, List.flatMap_singleton]
    rfl

theorem stateOf_eq {room : RoomId} {epoch : Epoch} (found : core.epochOf room = some epoch) :
    core.stateOf room = .listed room epoch (core.peers room) := by
  unfold stateOf
  rw [show (core.rooms.lookup room).map (·.epoch) = some epoch from found]
  rfl

/-- A turn that tells some of a room its state, at its epoch, and leaves every room only whom it
had. -/
theorem Listed.told (listed : core.Listed) {room : RoomId} {Told : Type} (told : List Told)
    (said : next.notices = core.notices ++ told.map fun _ => next.stateOf room)
    (there : told ≠ [] → ∃ epoch, next.epochOf room = some epoch)
    (epochs : ∀ room epoch, next.epochOf room = some epoch → core.epochOf room = some epoch)
    (alike : ∀ room, ∀ peer ∈ next.peers room, ∃ other ∈ core.peers room, peer.Alike other) :
    next.Listed ∧ core.Tells next := by
  refine listed.step said (fun notice member => ?_) fun room epoch found peer member =>
    .inl ⟨epochs room epoch found, alike room peer member⟩
  obtain ⟨_, some, rfl⟩ := List.mem_map.mp member
  obtain ⟨epoch, found⟩ := there (List.ne_nil_of_mem some)
  rw [stateOf_eq found]
  exact .inl ⟨epochs room epoch found, alike room⟩

theorem mem_nextEpochs {rooms : List RoomId} {room : RoomId} {epoch : Epoch} (member : room ∈ rooms)
    (found : core.epochOf room = some epoch) : (room, epoch + 1) ∈ core.nextEpochs rooms := by
  obtain ⟨entry, there, rfl⟩ := Option.map_eq_some_iff.mp found
  refine List.mem_filterMap.mpr ⟨room, member, ?_⟩
  rw [there]
  rfl

/-- A turn that raises the epochs of rooms, then tells them their states, and leaves every other
room only whom it had. -/
theorem Listed.raised (listed : core.Listed) {rooms : List RoomId} {states : List Notice}
    (said : next.notices = core.notices ++ .stored (core.nextEpochs rooms) :: states)
    (states_ : ∀ notice ∈ states, ∃ room ∈ rooms, notice = next.stateOf room)
    (there : ∀ room ∈ rooms, ∃ epoch, core.epochOf room = some epoch)
    (epochs : ∀ room, next.epochOf room =
      (core.epochOf room).map fun epoch => if room ∈ rooms then epoch + 1 else epoch)
    (told : ∀ room ∈ rooms, next.peers room ≠ [] → next.stateOf room ∈ states)
    (alike : ∀ room, room ∉ rooms →
      ∀ peer ∈ next.peers room, ∃ other ∈ core.peers room, peer.Alike other) :
    next.Listed ∧ core.Tells next := by
  refine listed.step said (fun notice member => ?_) fun room epoch found peer member => ?_
  · rcases List.mem_cons.mp member with rfl | member
    · trivial
    · obtain ⟨room, inside, rfl⟩ := states_ notice member
      obtain ⟨before, found⟩ := there room inside
      have raised : next.epochOf room = some (before + 1) := by
        rw [epochs, found, Option.map_some, if_pos inside]
      rw [stateOf_eq raised]
      exact .inr ⟨before, core.nextEpochs rooms, found, Nat.lt_succ_self _, rfl,
        mem_nextEpochs inside found⟩
  · by_cases inside : room ∈ rooms
    · right
      have said := told room inside (List.ne_nil_of_mem member)
      rw [stateOf_eq found] at said
      exact ⟨next.peers room, peer, List.mem_cons_of_mem _ said, member, rfl, rfl⟩
    · left
      have same := epochs room
      simp only [inside, if_false, Option.map_id'] at same
      exact ⟨same ▸ found, alike room inside peer member⟩

/-- After a change of seats and members, a room has only whom it had. -/
theorem alike_peers {room : RoomId} (fewer : next.occupants room ⊆ core.occupants room)
    (seats : ∀ user ∈ next.occupants room, ∀ seat, next.seats.lookup user = some seat →
      ∃ before, core.seats.lookup user = some before ∧
        ∀ shown, peer seat = some shown → ∃ other, peer before = some other ∧ shown.Alike other) :
    ∀ shown ∈ next.peers room, ∃ other ∈ core.peers room, shown.Alike other := by
  intro shown member
  obtain ⟨user, inside, seat, found, same⟩ := mem_peers.mp member
  obtain ⟨before, there, alike⟩ := seats user inside seat found
  obtain ⟨other, same', alike⟩ := alike shown same
  exact ⟨other, mem_peers.mpr ⟨user, fewer inside, before, there, same'⟩, alike⟩

/-- One seat that shows the same user and key, or nothing, in place of another. -/
theorem alike_peers_of_modify {room : RoomId} {user : UserId} {update : Seat → Seat}
    (fewer : next.occupants room ⊆ core.occupants room)
    (seats : next.seats = core.seats.modify user update)
    (shows : user ∈ next.occupants room → ∀ seat, core.seats.lookup user = some seat →
      ∀ shown, peer (update seat) = some shown →
        ∃ other, peer seat = some other ∧ shown.Alike other) :
    ∀ shown ∈ next.peers room, ∃ other ∈ core.peers room, shown.Alike other := by
  refine alike_peers fewer fun other inside seat found => ?_
  rw [seats, Map.lookup_modify] at found
  split at found
  · rename_i same
    subst same
    obtain ⟨before, there, rfl⟩ := Option.map_eq_some_iff.mp found
    exact ⟨before, there, shows inside before there⟩
  · exact ⟨seat, found, fun shown same => ⟨shown, same, rfl, rfl⟩⟩

/-- A seat that stores another expiry of its key shows the same key. -/
theorem peer_withKey {seat : Seat} {stored encryptionKey : SignedEncryptionKey}
    (has : seat.row.encryptionKey = some stored) (same : stored.key = encryptionKey.key)
    {shown : Peer}
    (shows : peer { seat with row := { seat.row with encryptionKey := some encryptionKey } } =
      some shown) : ∃ other, peer seat = some other ∧ shown.Alike other := by
  unfold peer at shows ⊢
  dsimp only at shows
  rw [has]
  cases tracks : seat.tracks with
  | none =>
    rw [tracks] at shows
    cases shows
  | some tracks' =>
    rw [tracks] at shows
    cases shows
    exact ⟨_, rfl, rfl, same.symm⟩

theorem notices_moved (core : Core) (user : UserId) (current target : Option RoomId)
    (tracks : Option Tracks) :
    (core.moved user current target tracks).notices =
      core.notices ++ ((current.toList.flatMap fun room =>
          ((core.moved user current target tracks).membersExcept room none).map fun _ =>
            (core.moved user current target tracks).stateOf room) ++
        target.toList.flatMap fun room =>
          ((core.moved user current target tracks).membersExcept room (some user)).map fun _ =>
            (core.moved user current target tracks).stateOf room) := by
  cases current <;> cases target <;>
    simp only [Option.toList_none, Option.toList_some, List.flatMap_nil, List.flatMap_singleton,
      List.append_nil, List.nil_append, ← List.append_assoc] <;> rfl

/-- The room states a placement sends: to all of the room left, and to the others in the room
entered. -/
def placeStates (core : Core) (user : UserId) (target : Option RoomId) : List Notice :=
  ((core.roomOf user).toList.flatMap fun room =>
      ((core.place user target).membersExcept room none).map fun _ =>
        (core.place user target).stateOf room) ++
    target.toList.flatMap fun room =>
      ((core.place user target).membersExcept room (some user)).map fun _ =>
        (core.place user target).stateOf room

theorem notices_place (core : Core) (user : UserId) (target : Option RoomId) :
    (core.place user target).notices =
      core.notices ++ .stored (core.nextEpochs ((core.roomOf user).toList ++ target.toList)) ::
        core.placeStates user target := by
  have said := notices_moved
    ((if target.isSome then core.allocate else core).raise
      ((core.roomOf user).toList ++ target.toList)) user (core.roomOf user) target
    (target.map fun _ => tracksAt core.nextMediaId)
  have raised : ((if target.isSome then core.allocate else core).raise
      ((core.roomOf user).toList ++ target.toList)).notices =
        core.notices ++
          [.stored (core.nextEpochs ((core.roomOf user).toList ++ target.toList))] := by
    cases target <;> rfl
  rw [raised, List.append_assoc] at said
  exact said

/-- Where the seats and members of a placement agree with those before. -/
theorem alike_place (seated : core.Seated) {user : UserId} {target : Option RoomId}
    (canPlace : core.CanPlace user target) {room : RoomId}
    (other : room ∉ (core.roomOf user).toList ++ target.toList) :
    ∀ shown ∈ (core.place user target).peers room,
      ∃ before ∈ core.peers room, shown.Alike before := by
  rw [List.mem_append, not_or, Option.mem_toList, Option.mem_toList] at other
  obtain ⟨⟨seat, found, _⟩, space, _⟩ := canPlace
  have there : ∀ room, target = some room → (core.rooms.lookup room).isSome := by
    intro room same
    obtain ⟨⟨entry, present, _⟩, _⟩ := space room same
    rw [present]
    rfl
  have members : (core.place user target).occupants room = core.occupants room := by
    rw [occupants_place core user there, movedMembers, if_neg other.1, if_neg other.2]
  refine alike_peers_of_modify members.subset (core.seats_place user target) fun inside => ?_
  rw [members] at inside
  exact absurd ((seated.member user room).mpr inside) other.1

theorem Listed.place (listed : core.Listed) (seated : core.Seated) {user : UserId}
    {target : Option RoomId} (canPlace : core.CanPlace user target) (handed : List Notice)
    (handed_ : ∀ notice ∈ handed, ∃ room, target = some room ∧
      notice = (core.place user target).stateOf room)
    (hands : ∀ room, target = some room → (core.place user target).stateOf room ∈ handed) :
    Listed { core.place user target with notices := (core.place user target).notices ++ handed } ∧
      core.Tells
        { core.place user target with notices := (core.place user target).notices ++ handed } := by
  have raise := canPlace.2.2
  have said : (core.place user target).notices ++ handed =
      core.notices ++ .stored (core.nextEpochs ((core.roomOf user).toList ++ target.toList)) ::
        (core.placeStates user target ++ handed) := by
    rw [notices_place, List.append_assoc, List.cons_append]
  refine listed.raised said ?_ ?_ (core.epochOf_place user target) ?_ ?_
  · intro notice member
    rcases List.mem_append.mp member with told | given
    · rcases List.mem_append.mp told with left | entered
      · obtain ⟨room, inside, said⟩ := List.mem_flatMap.mp left
        obtain ⟨_, _, rfl⟩ := List.mem_map.mp said
        exact ⟨room, List.mem_append_left _ inside, rfl⟩
      · obtain ⟨room, inside, said⟩ := List.mem_flatMap.mp entered
        obtain ⟨_, _, rfl⟩ := List.mem_map.mp said
        exact ⟨room, List.mem_append_right _ inside, rfl⟩
    · obtain ⟨room, same, rfl⟩ := handed_ notice given
      exact ⟨room, List.mem_append_right _ (Option.mem_toList.mpr same), rfl⟩
  · intro room inside
    obtain ⟨entry, found, _⟩ := raise room inside
    exact ⟨entry.epoch, by rw [epochOf, found]; rfl⟩
  · intro room inside occupied
    refine List.mem_append.mpr ?_
    rcases List.mem_append.mp inside with left | entered
    · refine .inl (List.mem_append_left _ (List.mem_flatMap.mpr ⟨room, left, ?_⟩))
      obtain ⟨peer, member⟩ := List.exists_mem_of_ne_nil _ occupied
      obtain ⟨conn, told⟩ := List.exists_mem_of_ne_nil _ (membersExcept_ne_nil member)
      exact List.mem_map.mpr ⟨conn, told, rfl⟩
    · exact .inr (hands room (Option.mem_toList.mp entered))
  · exact fun room other => alike_place seated canPlace other

theorem Listed.enter (listed : core.Listed) (seated : core.Seated) {user : UserId} {room : RoomId}
    (canPlace : core.CanPlace user (some room)) :
    (core.apply (.enter user room)).Listed ∧ core.Tells (core.apply (.enter user room)) := by
  obtain ⟨⟨seat, found, _⟩, _⟩ := id canPlace
  have inside : (core.place user (some room)).roomOf user = some room :=
    core.roomOf_place (by rw [found]; rfl)
  have same : core.apply (.enter user room) =
      { core.place user (some room) with
        notices := (core.place user (some room)).notices ++
          [(core.place user (some room)).stateOf room] } := by
    show (core.place user (some room)).hand user = _
    unfold hand
    rw [inside]
    rfl
  rw [same]
  refine listed.place seated canPlace [(core.place user (some room)).stateOf room] ?_ ?_
  · intro notice member
    exact ⟨room, rfl, List.mem_singleton.mp member⟩
  · intro other same
    cases same
    exact List.mem_singleton_self _

theorem Listed.leave (listed : core.Listed) (seated : core.Seated) {user : UserId}
    (canPlace : core.CanPlace user none) :
    (core.apply (.leave user)).Listed ∧ core.Tells (core.apply (.leave user)) := by
  have placed := listed.place seated canPlace [] nofun nofun
  rw [List.append_nil] at placed
  exact placed

theorem Listed.expel (listed : core.Listed) {user : UserId} {room : RoomId}
    (inside : core.roomOf user = some room) (seated : core.Seated) :
    (core.expel user room).Listed ∧ core.Tells (core.expel user room) := by
  have epochs : ∀ other, (core.expel user room).epochOf other = core.epochOf other :=
    fun other => core.epochOf_withRoom room other fun _ => rfl
  have fewer : ∀ other, (core.expel user room).occupants other ⊆ core.occupants other := by
    intro other
    rw [occupants_expel]
    unfold movedMembers
    rw [if_neg nofun]
    split
    · exact Finset.erase_subset _ _
    · exact Finset.Subset.refl _
  refine listed.told ((core.expel user room).membersExcept room none) rfl (fun _ => ?_)
    (fun other epoch found => epochs other ▸ found) fun other => ?_
  · obtain ⟨entry, found, _⟩ :=
      exists_of_mem_occupants core ((seated.member user room).mp inside)
    exact ⟨entry.epoch, by rw [epochs, epochOf, found]; rfl⟩
  · refine alike_peers_of_modify (fewer other) rfl fun _ seat found shown shows => ?_
    cases shows

theorem Listed.hand (listed : core.Listed) (seated : core.Seated) (user : UserId) :
    (core.hand user).Listed ∧ core.Tells (core.hand user) := by
  cases inside : core.roomOf user with
  | none =>
    rw [hand_eq_self core inside]
    exact ⟨listed, .same rfl⟩
  | some room =>
    have said : (core.hand user).notices =
        core.notices ++ [()].map fun _ => (core.hand user).stateOf room := by
      unfold Core.hand
      rw [inside]
      rfl
    refine listed.told [()] said (fun _ => ?_) (fun _ _ found => found)
      fun other shown member => ⟨shown, member, rfl, rfl⟩
    obtain ⟨entry, found, _⟩ :=
      exists_of_mem_occupants core ((seated.member user room).mp inside)
    exact ⟨entry.epoch, by rw [epochOf]; exact congrArg (Option.map _) found⟩

/-- A member's row changes, as their peers see it or not, and their room is told or not. -/
theorem Listed.broadcast (listed : core.Listed) (seated : core.Seated) (user : UserId)
    (tells : Bool) (rooms : next.rooms = core.rooms) {update : Seat → Seat}
    (seats : next.seats = core.seats.modify user update)
    (said : next.notices = core.notices ++
      (if tells then (core.roomOf user).toList else []).flatMap fun room =>
        (next.membersExcept room none).map fun _ => next.stateOf room)
    (shows : ∀ seat, core.seats.lookup user = some seat → ∀ shown,
      peer (update seat) = some shown → ∃ other, peer seat = some other ∧ shown.Alike other) :
    next.Listed ∧ core.Tells next := by
  have members : ∀ room, next.occupants room = core.occupants room := by
    intro room
    rw [occupants, rooms]
    rfl
  have epochs : ∀ room, next.epochOf room = core.epochOf room := by
    intro room
    rw [epochOf, rooms]
    rfl
  have alike : ∀ room, ∀ shown ∈ next.peers room, ∃ other ∈ core.peers room, shown.Alike other :=
    fun room => alike_peers_of_modify (members room).subset seats fun _ => shows
  cases inside : core.roomOf user with
  | none =>
    rw [inside] at said
    refine listed.quiet (said.trans ?_) fun room epoch found shown member =>
      ⟨epochs room ▸ found, alike room shown member⟩
    split <;> exact List.append_nil _
  | some room =>
    have there : ∃ epoch, next.epochOf room = some epoch := by
      obtain ⟨entry, found, _⟩ :=
        exists_of_mem_occupants core ((seated.member user room).mp inside)
      exact ⟨entry.epoch, by rw [epochs, epochOf, found]; rfl⟩
    rw [inside] at said
    refine listed.told (if tells then next.membersExcept room none else []) ?_
      (fun _ => there) (fun other epoch found => epochs other ▸ found) alike
    rw [said]
    cases tells with
    | true => rw [if_pos rfl, if_pos rfl, Option.toList_some, List.flatMap_singleton]
    | false => rfl

theorem Listed.rekey (listed : core.Listed) (seated : core.Seated) {user : UserId}
    (encryptionKey : SignedEncryptionKey)
    (canRaise : core.CanRaise (core.roomOf user).toList) :
    (core.apply (.rekey user encryptionKey)).Listed ∧
      core.Tells (core.apply (.rekey user encryptionKey)) := by
  obtain ⟨notices, same⟩ := core.apply_rekey user encryptionKey
  have said := notices_broadcasts
    ((core.storeKey user encryptionKey).raise (core.roomOf user).toList) (core.roomOf user) none
  have told : (core.apply (.rekey user encryptionKey)).notices =
      core.notices ++ .stored (core.nextEpochs (core.roomOf user).toList) ::
        (core.roomOf user).toList.flatMap fun room =>
          ((core.apply (.rekey user encryptionKey)).membersExcept room none).map fun _ =>
            (core.apply (.rekey user encryptionKey)).stateOf room := by
    refine said.trans ?_
    rw [same]
    exact List.append_assoc _ _ _
  have members : ∀ room, (core.apply (.rekey user encryptionKey)).occupants room =
      core.occupants room := by
    rw [same]
    exact occupants_raise _ _
  have seats : (core.apply (.rekey user encryptionKey)).seats =
      (core.storeKey user encryptionKey).seats := by
    rw [same]
    rfl
  refine listed.raised told ?_ ?_ ?_ ?_ ?_
  · intro notice member
    obtain ⟨room, inside, said⟩ := List.mem_flatMap.mp member
    obtain ⟨_, _, rfl⟩ := List.mem_map.mp said
    exact ⟨room, inside, rfl⟩
  · intro room inside
    obtain ⟨entry, found, _⟩ := canRaise room inside
    exact ⟨entry.epoch, by rw [epochOf, found]; rfl⟩
  · intro room
    rw [same]
    exact (core.storeKey user encryptionKey).epochOf_raise _ room
  · intro room inside occupied
    obtain ⟨shown, member⟩ := List.exists_mem_of_ne_nil _ occupied
    obtain ⟨conn, tells⟩ := List.exists_mem_of_ne_nil _ (membersExcept_ne_nil member)
    exact List.mem_flatMap.mpr ⟨room, inside, List.mem_map.mpr ⟨conn, tells, rfl⟩⟩
  · intro room other
    refine alike_peers_of_modify (members room).subset seats fun inside => ?_
    rw [members, ← seated.member] at inside
    exact absurd (Option.mem_toList.mpr inside) other

theorem Listed.renewKey (listed : core.Listed) (seated : core.Seated) {user : UserId}
    {encryptionKey : SignedEncryptionKey} (allowed : core.Allows (.renewKey user encryptionKey)) :
    (core.apply (.renewKey user encryptionKey)).Listed ∧
      core.Tells (core.apply (.renewKey user encryptionKey)) := by
  obtain ⟨seat, stored, found, has, known⟩ := allowed
  obtain ⟨notices, told⟩ := core.apply_renewKey user encryptionKey
  have said := notices_broadcasts (core.storeKey user encryptionKey) (core.roomOf user) none
  have rooms : (core.apply (.renewKey user encryptionKey)).rooms = core.rooms := by
    rw [told]
    rfl
  have seats : (core.apply (.renewKey user encryptionKey)).seats =
      (core.storeKey user encryptionKey).seats := by
    rw [told]
  refine listed.broadcast seated user true rooms seats ?_ ?_
  · refine said.trans ?_
    rw [told]
    rfl
  · intro other found' shown shows
    rw [found] at found'
    cases found'
    exact peer_withKey has known shows

theorem Listed.media (listed : core.Listed) (seated : core.Seated) {user : UserId}
    {media : MediaState} (allowed : core.Allows (.media user media)) :
    (core.apply (.media user media)).Listed ∧ core.Tells (core.apply (.media user media)) := by
  obtain ⟨seat, room, found, inside, _⟩ := allowed
  obtain ⟨table, notices, told⟩ := core.apply_media user media
  have shows : ∀ other, core.seats.lookup user = some other → ∀ shown,
      peer { other with media } = some shown →
        ∃ before, peer other = some before ∧ shown.Alike before := by
    intro other _ shown shows
    unfold peer at shows ⊢
    dsimp only at shows
    split at shows
    · cases shows
      exact ⟨_, rfl, rfl, rfl⟩
    · cases shows
  have rooms : (core.apply (.media user media)).rooms = core.rooms := by rw [told]
  have seats : (core.apply (.media user media)).seats =
      core.seats.modify user fun seat => { seat with media } := by rw [told]
  let before := ((core.seats.lookup user).map fun seat : Seat => seat.media).getD {}
  refine listed.broadcast seated user (decide (media.share ≠ before.share)) rooms seats ?_ shows
  have seating : (core.apply (.media user media)).toSeating =
      (core.withSeat user fun seat => { seat with media }).toSeating := by
    rw [told]
    rfl
  have states : ∀ room, (core.apply (.media user media)).stateOf room =
      (core.withSeat user fun seat => { seat with media }).stateOf room := by
    intro room
    unfold stateOf
    rw [seating]
  simp only [seating, states]
  have said := notices_broadcasts (core.withSeat user fun seat => { seat with media })
    (core.roomOf user) none
  show (core.setMedia user media).notices = _
  unfold setMedia
  dsimp only
  rw [apply_ite Core.notices]
  rw [show ∀ core : Core, core.rebuild.notices = core.notices from fun _ => rfl, ite_self]
  rw [apply_ite Core.notices, said]
  simp only [decide_eq_true_eq]
  split
  · rfl
  · exact (List.append_nil _).symm

/-- Every turn but half a rekeying keeps every room listed and says only what is covered. -/
theorem Listed.apply (listed : core.Listed) (seated : core.Seated)
    (numbered : core.Numbered) {turn : Turn}
    (whole : ∀ user encryptionKey, turn ≠ .halfKey user encryptionKey)
    (allowed : core.Allows turn) :
    (core.apply turn).Listed ∧ core.Tells (core.apply turn) := by
  have same : ∀ next : Core, next.toSeating = core.toSeating → next.notices = core.notices →
      next.Listed ∧ core.Tells next := by
    intro next seating unsaid
    have rooms : next.rooms = core.rooms := congrArg Seating.rooms seating
    refine listed.quiet unsaid fun room epoch found shown member => ⟨?_, shown, ?_, rfl, rfl⟩
    · rw [epochOf, rooms] at found
      exact found
    · rw [seating] at member
      exact member
  have still : ∀ (next : Core) {room : RoomId} {epoch : Epoch}, next.seats = core.seats →
      next.epochOf room = core.epochOf room → next.occupants room = core.occupants room →
      next.epochOf room = some epoch → ∀ shown ∈ next.peers room,
        core.epochOf room = some epoch ∧ ∃ other ∈ core.peers room, shown.Alike other := by
    intro next room epoch seats epochs members found shown member
    refine ⟨epochs ▸ found, alike_peers members.subset (fun user _ seat there => ?_) shown member⟩
    rw [seats] at there
    exact ⟨seat, there, fun shown same => ⟨shown, same, rfl, rfl⟩⟩
  have seatOf : ∀ (next : Core) (user : UserId) (update : Seat → Seat), next.rooms = core.rooms →
      next.seats = core.seats.modify user update → next.notices = core.notices →
      (∀ seat, peer (update seat) = peer seat) → next.Listed ∧ core.Tells next := by
    intro next user update rooms seats unsaid shows
    refine listed.broadcast seated user false rooms seats (unsaid.trans (List.append_nil _).symm)
      fun seat _ shown same => ⟨shown, (shows seat) ▸ same, rfl, rfl⟩
  cases turn with
  | enter user room => exact listed.enter seated allowed
  | leave user => exact listed.leave seated allowed
  | expel user =>
    obtain ⟨room, inside⟩ := allowed
    rw [apply_expel core inside]
    exact listed.expel inside seated
  | hand user => exact listed.hand seated user
  | remember user target => cases target <;> exact same _ rfl rfl
  | signIn row =>
    refine listed.quiet rfl fun room epoch found shown member => ⟨found, ?_⟩
    have fewer : (core.apply (.signIn row)).occupants room ⊆ core.occupants room :=
      Finset.Subset.refl _
    refine alike_peers fewer ?_ shown member
    intro user inside seat found
    have different : user ≠ row.id := by
      rintro rfl
      exact seated.notMem_occupants (roomOf_eq_none_of_notMem allowed.2) room inside
    exact ⟨seat, (Finmap.lookup_insert_of_ne _ different).symm.trans found,
      fun shown same => ⟨shown, same, rfl, rfl⟩⟩
  | signOut leaver =>
    refine listed.quiet rfl fun room epoch found shown member => ⟨found, ?_⟩
    have fewer : (core.apply (.signOut leaver)).occupants room ⊆ core.occupants room :=
      Finset.Subset.refl _
    refine alike_peers fewer ?_ shown member
    intro user inside seat found
    have different : user ≠ leaver := by
      rintro rfl
      exact seated.notMem_occupants allowed room inside
    exact ⟨seat, (Finmap.lookup_erase_ne different).symm.trans found,
      fun shown same => ⟨shown, same, rfl, rfl⟩⟩
  | storeKey user encryptionKey =>
    refine listed.quiet rfl fun room epoch found shown member => ⟨found, ?_⟩
    have fewer : (core.apply (.storeKey user encryptionKey)).occupants room ⊆
        core.occupants room := Finset.Subset.refl _
    refine alike_peers_of_modify fewer rfl (fun inside => ?_) shown member
    exact absurd inside (seated.notMem_occupants allowed room)
  | halfKey user encryptionKey => exact absurd rfl (whole user encryptionKey)
  | renewKey user encryptionKey => exact listed.renewKey seated allowed
  | rekey user encryptionKey => exact listed.rekey seated encryptionKey allowed
  | media user media => exact listed.media seated allowed
  | watch user ids => exact seatOf _ user _ rfl rfl rfl fun _ => rfl
  | profile user name avatar => exact seatOf _ user _ rfl rfl rfl fun _ => rfl
  | role user role =>
    obtain ⟨lastJoined, told⟩ := core.apply_role user role
    rw [told]
    exact seatOf _ user _ rfl rfl rfl fun _ => rfl
  | addRoom name passwordHash =>
    refine listed.quiet rfl fun room epoch found shown member => ?_
    have members := core.occupants_addRoom numbered name passwordHash room
    have alike := alike_peers members.subset
      (fun user _ seat found => ⟨seat, found, fun shown same => ⟨shown, same, rfl, rfl⟩⟩)
      shown member
    refine ⟨?_, alike⟩
    rw [epochOf_apply_addRoom] at found
    split at found
    · rename_i new
      obtain ⟨user, inside, _⟩ := mem_peers.mp member
      rw [members] at inside
      obtain ⟨entry, there, _⟩ := exists_of_mem_occupants core inside
      have known := numbered room (Finmap.mem_of_lookup_eq_some there)
      rw [new] at known
      exact absurd known (Nat.not_succ_le_self _)
    · exact found
  | renameRoom room name =>
    refine listed.quiet rfl fun other epoch found => still _ rfl ?_ ?_ found
    · exact core.epochOf_withRoom room other fun _ => rfl
    · exact core.occupants_withRoom room (fun entry => { entry with name }) (fun _ => rfl) other
  | lock room passwordHash =>
    refine listed.quiet rfl fun other epoch found => still _ rfl ?_ ?_ found
    · exact core.epochOf_withRoom room other fun _ => rfl
    · exact core.occupants_withRoom room (fun entry => { entry with passwordHash }) (fun _ => rfl) other
  | dropRoom room =>
    refine listed.quiet rfl fun other epoch found => ?_
    refine still _ rfl ?_ (core.occupants_dropRoom allowed other) found
    have erased : ((core.rooms.erase room).lookup other).map (·.epoch) = some epoch := found
    show ((core.rooms.erase room).lookup other).map (·.epoch) = core.epochOf other
    rw [Map.lookup_erase_ite] at erased ⊢
    split at erased
    · cases erased
    · rename_i different
      rw [if_neg different]
      rfl
  | restart =>
    refine listed.quiet rfl fun room epoch found shown member => ?_
    obtain ⟨user, inside, _⟩ := mem_peers.mp member
    rw [occupants_restart] at inside
    exact absurd inside (Finset.notMem_empty user)
  | _ => exact same _ rfl rfl

end Core

end Throcc
