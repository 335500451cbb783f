/-
This file proves that what a client shows of the rooms and of who is in them is
what the server holds. A client starts from its welcome and follows the events
it is sent, in order. Each change of the rooms or of someone's presence is
followed by its event before the server does anything else, so hearing every
event brings the client to the server's state, and the caps a client puts on
what it shows never bite.
-/

import Throcc.Partings

namespace Throcc

/-! ### What a client shows -/

/-- A name from the server as shown: as given if an honest server would have taken it. -/
def shownName (name : String) : Option String := validName name

structure RoomView where
  id : RoomId
  name : String
  locked : Bool
deriving DecidableEq, Repr

def roomName (room : RoomId) (name : String) : String := (shownName name).getD s!"Room {room}"

def RoomView.of (room : Room) : RoomView :=
  { id := room.id, name := roomName room.id room.name, locked := room.locked }

/-- What a client shows of someone that the server said. -/
structure Person where
  name : String
  avatar : Option Hash
  room : Option RoomId
  mic : Bool
  deafened : Bool
  role : Role
deriving DecidableEq, Repr

def personName (user : UserId) (name : String) : String := (shownName name).getD s!"User {user}"

def Person.of (presence : Presence) : Person where
  name := personName presence.user presence.name
  avatar := presence.avatar
  room := presence.room
  mic := presence.mic
  deafened := presence.deafened
  role := presence.role

/-- The rooms and the people that a client shows. -/
structure ClientView where
  rooms : List RoomView := []
  people : Map UserId Person := ∅

/-- Changes the first room with this id. -/
def updateRoom (room : RoomId) (update : RoomView → RoomView) : List RoomView → List RoomView
  | [] => []
  | view :: rest =>
    if view.id = room then update view :: rest else view :: updateRoom room update rest

namespace ClientView

def room (view : ClientView) (room : RoomId) : Option RoomView :=
  view.rooms.find? fun listed => listed.id = room

/-- Lists a room, or updates it if it is listed already. -/
def addRoom (view : ClientView) (room : RoomView) : ClientView :=
  if (view.room room.id).isSome then
    { view with rooms := updateRoom room.id (fun _ => room) view.rooms }
  else if view.rooms.length < maxRooms then
    { view with rooms := view.rooms ++ [room] }
  else
    view

/-- Shows `person` as `user`, unless that would show more than `maxSignedIn`. -/
def addPerson (view : ClientView) (user : UserId) (person : Person) : ClientView :=
  if view.people.keys.card < maxSignedIn ∨ user ∈ view.people then
    { view with people := view.people.insert user person }
  else
    view

/-- What an event changes of it. -/
def serverEvent (view : ClientView) : Event → ClientView
  | .presenceChanged presence => view.addPerson presence.user (.of presence)
  | .presenceEnded user => { view with people := view.people.erase user }
  | .roomCreated room => view.addRoom (.of room)
  | .roomLockChanged room locked =>
    { view with rooms := updateRoom room (fun listed => { listed with locked }) view.rooms }
  | .roomRenamed room name =>
    { view with
      rooms := updateRoom room (fun listed => { listed with name := roomName room name }) view.rooms }
  | .roomDeleted room =>
    { view with rooms := view.rooms.filter fun listed => listed.id ≠ room }
  | _ => view

/-- What it is after some events. -/
def hear (view : ClientView) (events : List Event) : ClientView :=
  events.foldl serverEvent view

/-- What a welcome shows. -/
def applyWelcome (welcome : Welcome) : ClientView :=
  let rooms := welcome.rooms.foldl (fun view room => view.addRoom (.of room)) ({} : ClientView)
  welcome.presence.foldl (fun view presence => view.addPerson presence.user (.of presence)) rooms

/-! ### Finding rooms -/

variable (view : ClientView)

theorem find_updateRoom (room other : RoomId) {update : RoomView → RoomView}
    (kept : ∀ listed : RoomView, listed.id = room → (update listed).id = room)
    (rooms : List RoomView) :
    (updateRoom room update rooms).find? (fun listed => listed.id = other) =
      if other = room then (rooms.find? fun listed => listed.id = other).map update
      else rooms.find? fun listed => listed.id = other := by
  induction rooms with
  | nil =>
    split <;> rfl
  | cons listed rest inductionHypothesis =>
    unfold updateRoom
    by_cases here : listed.id = room
    · rw [if_pos here, List.find?_cons, List.find?_cons]
      rw [kept listed here, here]
      by_cases same : other = room
      · simp [same]
      · simp [Ne.symm same, same]
    · rw [if_neg here, List.find?_cons, List.find?_cons, inductionHypothesis]
      by_cases there : listed.id = other
      · have different : other ≠ room := fun same => here (there.trans same)
        simp [there, different]
      · simp [there]

theorem ids_updateRoom (room : RoomId) {update : RoomView → RoomView}
    (kept : ∀ listed : RoomView, listed.id = room → (update listed).id = room)
    (rooms : List RoomView) :
    (updateRoom room update rooms).map (·.id) = rooms.map (·.id) := by
  induction rooms with
  | nil => rfl
  | cons listed rest inductionHypothesis =>
    unfold updateRoom
    split
    · rename_i here
      rw [List.map_cons, List.map_cons, kept listed here, here]
    · rw [List.map_cons, List.map_cons, inductionHypothesis]

theorem room_isSome_iff (room : RoomId) :
    (view.room room).isSome = true ↔ room ∈ view.rooms.map (·.id) := by
  unfold ClientView.room
  rw [List.find?_isSome]
  simp [eq_comm]

end ClientView

/-! ### What the server holds -/

namespace Hub

variable (hub : Hub)

/-- What is said of a user. -/
def presenceOf (user : UserId) : Option Presence := (hub.seats.lookup user).bind presence

/-- What is said of a room. -/
def shownRoom (room : RoomId) : Option Room :=
  (hub.rooms.lookup room).map fun entry =>
    { id := room, name := entry.name, locked := entry.passwordHash.isSome }

/-- The connection a user is on, and the account its seat is of. -/
def lineOf (user : UserId) : Option (ConnId × UserId) :=
  (hub.seats.lookup user).map fun seat => (seat.connId, seat.row.id)

theorem mem_seats_iff {user : UserId} : user ∈ hub.seats ↔ (hub.lineOf user).isSome := by
  rw [lineOf, Option.isSome_map, Finmap.lookup_isSome]

theorem mem_rooms_iff {room : RoomId} : room ∈ hub.rooms ↔ (hub.shownRoom room).isSome := by
  rw [shownRoom, Option.isSome_map, Finmap.lookup_isSome]

/-- Who is shown is signed in. -/
theorem mem_seats_of_presence {user : UserId} {presence : Presence}
    (shown : hub.presenceOf user = some presence) : user ∈ hub.seats := by
  obtain ⟨seat, found, _⟩ := Option.bind_eq_some_iff.mp shown
  exact Finmap.mem_of_lookup_eq_some found

end Hub

/-- Everyone who is signed in sits under their own id, and there are at most as many of them and
of the rooms as a client shows. -/
structure Hub.Capped (hub : Hub) : Prop where
  named : ∀ user conn account, hub.lineOf user = some (conn, account) → account = user
  fewUsers : hub.seats.keys.card ≤ maxSignedIn
  fewRooms : hub.rooms.keys.card ≤ maxRooms

/-- A client shows what the server holds, but of the users in `hidden`. -/
structure MirrorsBut (hidden : Set UserId) (view : ClientView) (hub : Hub) : Prop where
  people : ∀ user ∉ hidden, view.people.lookup user = (hub.presenceOf user).map .of
  known : ∀ user ∈ view.people, user ∈ hub.seats
  rooms : ∀ room, view.room room = (hub.shownRoom room).map .of
  once : (view.rooms.map (·.id)).Nodup

/-- A client shows all that the server holds. -/
def Mirrors (view : ClientView) (hub : Hub) : Prop := MirrorsBut ∅ view hub

/-- Only who sits on which connection and which rooms there are count. -/
theorem Hub.Capped.of_same {hub other : Hub} (capped : hub.Capped)
    (line : other.lineOf = hub.lineOf) (rooms : other.shownRoom = hub.shownRoom) :
    other.Capped := by
  constructor
  · rw [line]
    exact capped.named
  · refine (Finset.card_le_card fun user member => ?_).trans capped.fewUsers
    rw [Finmap.mem_keys, Hub.mem_seats_iff] at member ⊢
    exact line ▸ member
  · refine (Finset.card_le_card fun room member => ?_).trans capped.fewRooms
    rw [Finmap.mem_keys, Hub.mem_rooms_iff] at member ⊢
    exact rooms ▸ member

namespace MirrorsBut

variable {hidden : Set UserId} {view : ClientView} {hub : Hub}

theorem mono {fewer : Set UserId} (mirrors : MirrorsBut fewer view hub) (less : fewer ⊆ hidden) :
    MirrorsBut hidden view hub :=
  { mirrors with people := fun user shown => mirrors.people user fun member => shown (less member) }

theorem of_same {other : Hub} (mirrors : MirrorsBut hidden view hub)
    (line : other.lineOf = hub.lineOf)
    (presence : ∀ user ∉ hidden, other.presenceOf user = hub.presenceOf user)
    (rooms : other.shownRoom = hub.shownRoom) : MirrorsBut hidden view other := by
  constructor
  · intro user shown
    rw [presence user shown]
    exact mirrors.people user shown
  · intro user listed
    have signedIn := mirrors.known user listed
    rw [Hub.mem_seats_iff] at signedIn ⊢
    exact line ▸ signedIn
  · rw [rooms]
    exact mirrors.rooms
  · exact mirrors.once

theorem card_rooms (mirrors : MirrorsBut hidden view hub) :
    view.rooms.length ≤ hub.rooms.keys.card := by
  rw [← List.length_map (f := (·.id)), ← List.toFinset_card_of_nodup mirrors.once]
  refine Finset.card_le_card fun room member => ?_
  rw [List.mem_toFinset, ← ClientView.room_isSome_iff, mirrors.rooms, Option.isSome_map] at member
  exact Finmap.mem_keys.mpr (hub.mem_rooms_iff.mpr member)

/-- Saying where a user is reveals them. -/
theorem presenceChanged {user : UserId} {presence : Presence}
    (mirrors : MirrorsBut hidden view hub) (capped : hub.Capped)
    (shown : hub.presenceOf user = some presence) :
    MirrorsBut (hidden \ {user}) (view.serverEvent (.presenceChanged presence)) hub := by
  obtain ⟨seat, found, made⟩ := Option.bind_eq_some_iff.mp shown
  have signedIn := Finmap.mem_of_lookup_eq_some found
  have same : presence.user = user := by
    obtain ⟨room, _, rfl⟩ := Option.map_eq_some_iff.mp made
    exact capped.named user seat.connId _ (by rw [Hub.lineOf, found]; rfl)
  have space : view.people.keys.card < maxSignedIn ∨ user ∈ view.people := by
    by_cases listed : user ∈ view.people
    · exact .inr listed
    · refine .inl ((Finset.card_lt_card ?_).trans_le capped.fewUsers)
      refine Finset.ssubset_iff.mpr ⟨user, fun member => listed (Finmap.mem_keys.mp member), ?_⟩
      intro other member
      obtain rfl | member := Finset.mem_insert.mp member
      · exact Finmap.mem_keys.mpr signedIn
      · exact Finmap.mem_keys.mpr (mirrors.known other (Finmap.mem_keys.mp member))
  have becomes : view.serverEvent (.presenceChanged presence) =
      { view with people := view.people.insert user (.of presence) } := by
    show view.addPerson presence.user _ = _
    rw [same]
    exact if_pos space
  rw [becomes]
  refine { mirrors with people := fun other clear => ?_, known := fun other listed => ?_ }
  · dsimp only
    rw [Map.lookup_insert_ite]
    split
    · rename_i here
      rw [here, shown, Option.map_some]
    · rename_i elsewhere
      exact mirrors.people other fun member => clear ⟨member, elsewhere⟩
  · obtain rfl | listed := Finmap.mem_insert.mp listed
    · exact signedIn
    · exact mirrors.known other listed

/-- Saying that a user is nowhere reveals them. -/
theorem presenceEnded {user : UserId} (mirrors : MirrorsBut hidden view hub)
    (gone : hub.presenceOf user = none) :
    MirrorsBut (hidden \ {user}) (view.serverEvent (.presenceEnded user)) hub := by
  refine { mirrors with people := fun other clear => ?_, known := fun other listed => ?_ }
  · show (view.people.erase user).lookup other = _
    rw [Map.lookup_erase_ite]
    split
    · rename_i here
      rw [here, gone]
      rfl
    · rename_i elsewhere
      exact mirrors.people other fun member => clear ⟨member, elsewhere⟩
  · exact mirrors.known other (Finmap.mem_erase.mp listed).2

/-- One room changes, in the view as in the hub. -/
theorem changeRoom {after : Hub} {room : RoomId} {rooms : List RoomView}
    (mirrors : MirrorsBut hidden view hub) (seats : after.seats = hub.seats)
    (elsewhere : ∀ other, other ≠ room → after.shownRoom other = hub.shownRoom other)
    (found : ∀ other, rooms.find? (fun listed => listed.id = other) =
      if other = room then (after.shownRoom room).map .of else view.room other)
    (once : (rooms.map (·.id)).Nodup) :
    MirrorsBut hidden { view with rooms } after := by
  have presence : after.presenceOf = hub.presenceOf := by unfold Hub.presenceOf; rw [seats]
  constructor
  · rw [presence]
    exact mirrors.people
  · rw [seats]
    exact mirrors.known
  · intro other
    refine (found other).trans ?_
    split
    · rename_i here
      rw [here]
    · rename_i different
      rw [mirrors.rooms, elsewhere other different]
  · exact once

theorem roomCreated {after : Hub} {room : Room} (mirrors : MirrorsBut hidden view hub)
    (seats : after.seats = hub.seats)
    (elsewhere : ∀ other, other ≠ room.id → after.shownRoom other = hub.shownRoom other)
    (few : after.rooms.keys.card ≤ maxRooms) (made : after.shownRoom room.id = some room) :
    MirrorsBut hidden (view.serverEvent (.roomCreated room)) after := by
  have becomes : view.serverEvent (.roomCreated room) =
      if (view.room room.id).isSome then
        { view with rooms := updateRoom room.id (fun _ => .of room) view.rooms }
      else if view.rooms.length < maxRooms then { view with rooms := view.rooms ++ [.of room] }
      else view := rfl
  rw [becomes]
  by_cases listed : (view.room room.id).isSome = true
  · rw [if_pos listed]
    have kept : ∀ old : RoomView, old.id = room.id → (RoomView.of room).id = room.id :=
      fun _ _ => rfl
    obtain ⟨old, found⟩ := Option.isSome_iff_exists.mp listed
    refine mirrors.changeRoom seats elsewhere (fun other => ?_) ?_
    · rw [ClientView.find_updateRoom room.id other kept, made]
      refine if_ctx_congr Iff.rfl (fun here => ?_) fun _ => rfl
      show (view.room other).map _ = _
      rw [here, found]
      rfl
    · rw [ClientView.ids_updateRoom room.id kept]
      exact mirrors.once
  · rw [if_neg listed]
    have absent : room.id ∉ hub.rooms := by
      rw [hub.mem_rooms_iff, ← Option.isSome_map, ← mirrors.rooms]
      exact listed
    have space : view.rooms.length < maxRooms := by
      refine mirrors.card_rooms.trans_lt ((Finset.card_lt_card ?_).trans_le few)
      refine Finset.ssubset_iff.mpr ⟨room.id, fun member => absent (Finmap.mem_keys.mp member), ?_⟩
      intro other member
      rw [Finmap.mem_keys, after.mem_rooms_iff]
      obtain rfl | member := Finset.mem_insert.mp member
      · rw [made]
        rfl
      · have member := Finmap.mem_keys.mp member
        have different : other ≠ room.id := fun same => absent (same ▸ member)
        rw [elsewhere other different]
        exact hub.mem_rooms_iff.mp member
    rw [if_pos space]
    refine mirrors.changeRoom seats elsewhere (fun other => ?_) ?_
    · rw [List.find?_append, made]
      show (view.room other).or _ = _
      split
      · rename_i here
        rw [here, Option.not_isSome_iff_eq_none.mp listed, Option.none_or, List.find?_singleton]
        exact if_pos (decide_eq_true rfl)
      · rename_i different
        have new : (RoomView.of room).id ≠ other := Ne.symm different
        rw [List.find?_singleton, if_neg (mt of_decide_eq_true new), Option.or_none]
    · rw [List.map_append, List.nodup_append]
      refine ⟨mirrors.once, List.nodup_singleton _, ?_⟩
      intro id member new fresh same
      rw [same, List.mem_singleton.mp fresh] at member
      exact listed ((view.room_isSome_iff room.id).mpr member)

theorem roomDeleted {after : Hub} {room : RoomId} (mirrors : MirrorsBut hidden view hub)
    (seats : after.seats = hub.seats)
    (elsewhere : ∀ other, other ≠ room → after.shownRoom other = hub.shownRoom other)
    (gone : after.shownRoom room = none) :
    MirrorsBut hidden (view.serverEvent (.roomDeleted room)) after := by
  refine mirrors.changeRoom seats elsewhere (fun other => ?_) ?_
  · rw [List.find?_filter, gone]
    split
    · rename_i here
      rw [here, Option.map_none, List.find?_eq_none]
      simp
    · rename_i different
      refine congrArg (fun test => view.rooms.find? test) (funext fun listed => ?_)
      by_cases there : listed.id = other
      · simp [there, different]
      · simp [there]
  · exact (List.filter_sublist.map _).nodup mirrors.once

/-- A change of what is said of a room. -/
theorem roomUpdated {after : Hub} {room : RoomId} {update : RoomView → RoomView}
    {update' : Room → Room} (mirrors : MirrorsBut hidden view hub)
    (seats : after.seats = hub.seats)
    (elsewhere : ∀ other, other ≠ room → after.shownRoom other = hub.shownRoom other)
    (changed : after.shownRoom room = (hub.shownRoom room).map update')
    (kept : ∀ listed : RoomView, listed.id = room → (update listed).id = room)
    (agree : ∀ said : Room, said.id = room → update (.of said) = .of (update' said)) :
    MirrorsBut hidden { view with rooms := updateRoom room update view.rooms } after := by
  refine mirrors.changeRoom seats elsewhere (fun other => ?_) ?_
  · rw [ClientView.find_updateRoom _ _ kept]
    split
    · rename_i here
      show Option.map _ (view.room other) = _
      rw [here, mirrors.rooms, changed]
      cases said : hub.shownRoom room with
      | none => rfl
      | some said' =>
        obtain ⟨entry, _, rfl⟩ := Option.map_eq_some_iff.mp said
        exact congrArg some (agree _ rfl)
    · rfl
  · rw [ClientView.ids_updateRoom _ kept]
    exact mirrors.once

/-- Hearing again and again what changes nothing. -/
theorem hear_replicate {event : Event} (mirrors : MirrorsBut hidden view hub)
    (again : ∀ view, MirrorsBut hidden view hub → MirrorsBut hidden (view.serverEvent event) hub)
    (copies : Nat) : MirrorsBut hidden (view.hear (List.replicate copies event)) hub := by
  induction copies generalizing view with
  | zero => exact mirrors
  | succ copies inductionHypothesis => exact inductionHypothesis (again view mirrors)

end MirrorsBut

/-! ### Welcomes -/

/-- The item with a key, where keys are distinct. -/
theorem find_key {Item Key : Type} [DecidableEq Key] {key : Item → Key} {items : List Item}
    (once : (items.map key).Nodup) {item : Item} (member : item ∈ items) :
    items.find? (fun other => key other = key item) = some item := by
  induction items with
  | nil => cases member
  | cons first rest inductionHypothesis =>
    obtain ⟨fresh, once⟩ := List.nodup_cons.mp once
    rw [List.find?_cons]
    obtain rfl | later := List.mem_cons.mp member
    · simp
    · have different : key first ≠ key item := fun same => fresh (same ▸ List.mem_map_of_mem later)
      simp only [different, decide_false]
      exact inductionHypothesis once later

namespace ClientView

theorem addRooms (rooms : List Room) (view : ClientView)
    (once : (view.rooms.map (·.id) ++ rooms.map (·.id)).Nodup)
    (few : view.rooms.length + rooms.length ≤ maxRooms) :
    rooms.foldl (fun view room => view.addRoom (.of room)) view =
      { view with rooms := view.rooms ++ rooms.map .of } := by
  induction rooms generalizing view with
  | nil =>
    rw [List.map_nil, List.append_nil]
    rfl
  | cons room rest inductionHypothesis =>
    have missing : (view.room room.id).isSome = false := by
      rw [Bool.eq_false_iff, Ne, room_isSome_iff]
      exact fun listed => List.disjoint_of_nodup_append once listed List.mem_cons_self
    rw [List.length_cons] at few
    have space : view.rooms.length < maxRooms := by omega
    have added : view.addRoom (.of room) = { view with rooms := view.rooms ++ [.of room] } := by
      show (if (view.room room.id).isSome = true then _ else if _ then _ else _) = _
      rw [missing, if_neg Bool.false_ne_true, if_pos space]
    rw [List.foldl_cons, added, inductionHypothesis]
    · simp
    · simpa [RoomView.of] using once
    · simp
      omega

theorem addPeople (presences : List Presence) (view : ClientView)
    (once : (presences.map (·.user)).Nodup)
    (few : view.people.keys.card + presences.length ≤ maxSignedIn) :
    let shown := presences.foldl
      (fun view presence => view.addPerson presence.user (.of presence)) view
    shown.rooms = view.rooms ∧ ∀ user, shown.people.lookup user =
      ((presences.find? fun presence => presence.user = user).map .of).or
        (view.people.lookup user) := by
  induction presences generalizing view with
  | nil => exact ⟨rfl, fun _ => rfl⟩
  | cons presence rest inductionHypothesis =>
    obtain ⟨fresh, once⟩ := List.nodup_cons.mp once
    rw [List.length_cons] at few
    have space : view.people.keys.card < maxSignedIn ∨ presence.user ∈ view.people :=
      .inl (by omega)
    have added : view.addPerson presence.user (.of presence) =
        { view with people := view.people.insert presence.user (.of presence) } := if_pos space
    have card : (Finmap.insert presence.user (Person.of presence) view.people).keys.card ≤
        view.people.keys.card + 1 := by
      rw [Map.keys_insert]
      exact Finset.card_insert_le _ _
    dsimp only
    rw [List.foldl_cons, added]
    obtain ⟨rooms, people⟩ := inductionHypothesis
      { view with people := view.people.insert presence.user (.of presence) } once (by dsimp only; omega)
    refine ⟨rooms, fun user => (people user).trans ?_⟩
    dsimp only
    rw [Map.lookup_insert_ite, List.find?_cons]
    by_cases mine : user = presence.user
    · have later : rest.find? (fun other => other.user = user) = none := by
        rw [List.find?_eq_none]
        intro other member same
        exact fresh (List.mem_map.mpr ⟨other, member, (of_decide_eq_true same).trans mine⟩)
      rw [later, mine]
      simp
    · have other : presence.user ≠ user := Ne.symm mine
      simp [mine, other]

end ClientView

namespace Hub

variable {hub : Hub}

theorem ids_roomList : hub.roomList.map (·.id) = ascending hub.rooms.keys := by
  rw [← Map.toList_keys, roomList, List.map_map]
  rfl

theorem mem_roomList {room : Room} : room ∈ hub.roomList ↔ hub.shownRoom room.id = some room := by
  unfold roomList shownRoom
  rw [List.mem_map, Option.map_eq_some_iff]
  constructor
  · rintro ⟨⟨id, entry⟩, listed, rfl⟩
    exact ⟨entry, (Map.mem_toList _ _ _).mp listed, rfl⟩
  · rintro ⟨entry, found, same⟩
    exact ⟨(room.id, entry), (Map.mem_toList _ _ _).mpr found, same⟩

/-- What is said of whoever is signed in. -/
def presences (hub : Hub) : List Presence :=
  hub.seats.toList.filterMap fun entry => presence entry.2

/-- What is said of someone is said under their own id. -/
theorem Capped.user_presence (capped : hub.Capped) {user : UserId} {seat : Seat}
    {said : Presence} (found : hub.seats.lookup user = some seat) (made : presence seat = some said) :
    said.user = user := by
  obtain ⟨room, _, rfl⟩ := Option.map_eq_some_iff.mp made
  exact capped.named user seat.connId _ (by rw [lineOf, found]; rfl)

theorem Capped.mem_presences (capped : hub.Capped) {said : Presence} :
    said ∈ hub.presences ↔ hub.presenceOf said.user = some said := by
  unfold presences presenceOf
  rw [List.mem_filterMap, Option.bind_eq_some_iff]
  constructor
  · rintro ⟨⟨user, seat⟩, listed, made⟩
    have found := (Map.mem_toList _ _ _).mp listed
    exact ⟨seat, capped.user_presence found made ▸ found, made⟩
  · rintro ⟨seat, found, made⟩
    exact ⟨(said.user, seat), (Map.mem_toList _ _ _).mpr found, made⟩

theorem Capped.users_presences (capped : hub.Capped) :
    (hub.presences.map (·.user)).Sublist (ascending hub.seats.keys) := by
  have listed : ∀ entries : List (UserId × Seat), (∀ entry ∈ entries, ∀ said,
      presence entry.2 = some said → said.user = entry.1) →
      ((entries.filterMap fun entry => presence entry.2).map (·.user)).Sublist
        (entries.map Prod.fst) := by
    intro entries named
    induction entries with
    | nil => exact .slnil
    | cons entry rest inductionHypothesis =>
      have later := inductionHypothesis fun other member => named other (List.mem_cons_of_mem _ member)
      rw [List.filterMap_cons, List.map_cons]
      cases made : presence entry.2 with
      | none => exact later.cons entry.1
      | some said =>
        rw [List.map_cons, named entry List.mem_cons_self said made]
        exact later.cons_cons entry.1
  rw [← Map.toList_keys]
  refine listed _ fun entry member said made => ?_
  exact capped.user_presence ((Map.mem_toList _ _ _).mp member) made

end Hub

/-- A welcome shows all that the server holds. -/
theorem applyWelcome_mirrors {hub : Hub} (capped : hub.Capped) {welcome : Welcome}
    (rooms : welcome.rooms = hub.roomList) (presences : welcome.presence = hub.presences) :
    Mirrors (.applyWelcome welcome) hub := by
  have ids : (hub.roomList.map (·.id)).Nodup := Hub.ids_roomList ▸ nodup_ascending _
  have users := capped.users_presences
  have once : (hub.presences.map (·.user)).Nodup := users.nodup (nodup_ascending _)
  have added := ClientView.addRooms hub.roomList {} ids (by
    have length := congrArg List.length hub.ids_roomList
    rw [List.length_map, length_ascending] at length
    simpa [length] using capped.fewRooms)
  have shown := ClientView.addPeople hub.presences { rooms := hub.roomList.map .of } once (by
    have length := users.length_le
    rw [List.length_map, length_ascending] at length
    simpa using length.trans capped.fewUsers)
  have same : ClientView.applyWelcome welcome = hub.presences.foldl
      (fun view presence => view.addPerson presence.user (.of presence))
      { rooms := hub.roomList.map .of } := by
    unfold ClientView.applyWelcome
    rw [rooms, presences, added]
    rfl
  rw [← same] at shown
  obtain ⟨listed, people⟩ := shown
  have found : ∀ user, (ClientView.applyWelcome welcome).people.lookup user =
      (hub.presenceOf user).map .of := by
    intro user
    rw [people, show Finmap.lookup user (∅ : Map UserId Person) = none from rfl, Option.or_none]
    cases there : hub.presenceOf user with
    | none =>
      refine Option.map_eq_none_iff.mpr (List.find?_eq_none.mpr fun said member mine => ?_)
      have said := capped.mem_presences.mp member
      rw [of_decide_eq_true mine, there] at said
      cases said
    | some said =>
      obtain ⟨seat, sits, made⟩ := Option.bind_eq_some_iff.mp there
      obtain rfl := capped.user_presence sits made
      rw [find_key once (capped.mem_presences.mpr there)]
  refine ⟨fun user _ => found user, fun user member => ?_, fun room => ?_, ?_⟩
  · obtain ⟨person, there⟩ := Finmap.mem_iff.mp member
    rw [found] at there
    obtain ⟨said, there, _⟩ := Option.map_eq_some_iff.mp there
    exact hub.mem_seats_of_presence there
  · unfold ClientView.room
    rw [listed]
    cases there : hub.shownRoom room with
    | none =>
      refine List.find?_eq_none.mpr fun view member mine => ?_
      obtain ⟨said, known, rfl⟩ := List.mem_map.mp member
      have held := Hub.mem_roomList.mp known
      rw [show said.id = room from of_decide_eq_true mine, there] at held
      cases held
    | some said =>
      obtain rfl : said.id = room := by
        obtain ⟨entry, _, rfl⟩ := Option.map_eq_some_iff.mp there
        rfl
      have member : said ∈ hub.roomList := Hub.mem_roomList.mpr there
      have ids' : ((hub.roomList.map RoomView.of).map (·.id)).Nodup := by
        rw [List.map_map]
        exact ids
      exact find_key ids' (List.mem_map_of_mem member)
  · rw [listed, List.map_map]
    exact ids

/-! ### Changes and their events -/

/-- The event says something of the rooms or of someone's presence. -/
def Event.shows : Event → Bool
  | .presenceChanged _ | .presenceEnded _ => true
  | .roomCreated _ | .roomRenamed _ _ | .roomDeleted _ | .roomLockChanged _ _ => true
  | _ => false

theorem ClientView.serverEvent_of_not_shows {event : Event} (quiet : event.shows = false)
    (view : ClientView) : view.serverEvent event = view := by
  cases event <;> first | rfl | cases quiet

theorem ClientView.hear_of_not_shows {events : List Event}
    (quiet : ∀ event ∈ events, event.shows = false) (view : ClientView) :
    view.hear events = view := by
  induction events with
  | nil => rfl
  | cons event rest inductionHypothesis =>
    show (view.serverEvent event).hear rest = view
    rw [ClientView.serverEvent_of_not_shows (quiet event List.mem_cons_self)]
    exact inductionHypothesis fun other member => quiet other (List.mem_cons_of_mem _ member)

/-- The effect sends an event that shows something. -/
def Effect.shows : Effect → Bool
  | .sent _ event => event.shows
  | _ => false

namespace Hub

/-- Nobody sits on the connection. -/
def Unseated (hub : Hub) (conn : ConnId) : Prop :=
  ∀ user account, hub.lineOf user ≠ some (conn, account)

/-- Nothing that is shown changes, but of the users in `hidden`, nothing of it is said, and nothing
is sent to a connection nobody sits on. -/
structure Silent (hidden : Set UserId) (before after : Hub) : Prop where
  log : ∃ effects, after.log = before.log ++ effects ∧ ∀ effect ∈ effects, effect.shows = false
  elsewhere : ∀ conn, before.Unseated conn → after.sentTo conn = before.sentTo conn
  line : after.lineOf = before.lineOf
  presence : ∀ user ∉ hidden, after.presenceOf user = before.presenceOf user
  rooms : after.shownRoom = before.shownRoom

/-- Whatever a user in `receivers` is sent while their connection stays brings a client that
shows the server's state before, but of the users in `hidden`, to one that shows it after, but of
those in `still`. -/
structure Brings (receivers hidden still : Set UserId) (before after : Hub) : Prop where
  capped : before.Capped → after.Capped
  told : before.Capped → ∀ user ∈ receivers, ∀ line, after.lineOf user = some line →
    before.lineOf user = some line ∧
      ∃ events, after.sentTo line.1 = before.sentTo line.1 ++ events ∧
        ∀ view, MirrorsBut hidden view before → MirrorsBut still (view.hear events) after

/-- Whatever a user in `receivers` is sent while their connection stays brings a client that
shows the server's state before to one that shows it after. -/
abbrev Relays (receivers : Set UserId) : Hub → Hub → Prop := Brings receivers ∅ ∅

variable {receivers hidden still : Set UserId} {before after : Hub}

instance (hidden : Set UserId) : IsPreorder Hub (Silent hidden) where
  refl hub := ⟨⟨[], (List.append_nil _).symm, nofun⟩, fun _ _ => rfl, rfl, fun _ _ => rfl, rfl⟩
  trans := by
    rintro first second third ⟨⟨effects, sends, quiet⟩, elsewhere, line, presence, rooms⟩
      ⟨⟨others, sends', quiet'⟩, elsewhere', line', presence', rooms'⟩
    refine ⟨⟨effects ++ others, by rw [sends', sends, List.append_assoc], ?_⟩, ?_, line'.trans line,
      fun user shown => (presence' user shown).trans (presence user shown), rooms'.trans rooms⟩
    · intro effect member
      exact (List.mem_append.mp member).elim (quiet effect) (quiet' effect)
    · intro conn unseated
      refine (elsewhere' conn fun user account => ?_).trans (elsewhere conn unseated)
      rw [line]
      exact unseated user account

theorem Brings.trans {between : Set UserId} {first second third : Hub}
    (brings : Brings receivers hidden between first second)
    (brings' : Brings receivers between still second third) :
    Brings receivers hidden still first third := by
  refine ⟨fun capped => brings'.capped (brings.capped capped), ?_⟩
  intro capped user receives line found
  obtain ⟨found, later, sent', mirrors'⟩ :=
    brings'.told (brings.capped capped) user receives line found
  obtain ⟨found, events, sent, mirrors⟩ := brings.told capped user receives line found
  refine ⟨found, events ++ later, by rw [sent', sent, List.append_assoc], fun view shown => ?_⟩
  show MirrorsBut still ((events ++ later).foldl _ view) third
  rw [List.foldl_append]
  exact mirrors' _ (mirrors view shown)

theorem Brings.mono {fewer : Set UserId} (brings : Brings receivers hidden still before after)
    (less : fewer ⊆ hidden) : Brings receivers fewer still before after := by
  refine ⟨brings.capped, fun capped user receives line found => ?_⟩
  obtain ⟨found, events, sent, mirrors⟩ := brings.told capped user receives line found
  exact ⟨found, events, sent, fun view shown => mirrors view (shown.mono less)⟩

/-- What is sent that shows nothing changes nothing that is shown. -/
theorem hear_sentTo {effects : List Effect} (sends : after.log = before.log ++ effects)
    (quiet : ∀ effect ∈ effects, effect.shows = false) (conn : ConnId) :
    ∃ events, after.sentTo conn = before.sentTo conn ++ events ∧
      ∀ view : ClientView, view.hear events = view := by
  refine ⟨effects.filterMap (Effect.eventTo conn), ?_, fun view => ?_⟩
  · rw [Hub.sentTo, sends, List.filterMap_append]
    rfl
  refine ClientView.hear_of_not_shows (fun event member => ?_) view
  obtain ⟨effect, sent, same⟩ := List.mem_filterMap.mp member
  have silent := quiet effect sent
  cases effect with
  | sent receiver other =>
    unfold Effect.eventTo at same
    dsimp only at same
    split at same
    · exact Option.some.inj same ▸ silent
    · cases same
  | _ => cases same

theorem Silent.brings (silent : Silent hidden before after) :
    Brings receivers hidden hidden before after := by
  obtain ⟨⟨effects, sends, quiet⟩, _, line, presence, rooms⟩ := silent
  refine ⟨fun capped => capped.of_same line rooms, fun _ user _ place found => ?_⟩
  obtain ⟨events, sent, deaf⟩ := hear_sentTo sends quiet place.1
  refine ⟨line ▸ found, events, sent, fun view mirrors => ?_⟩
  rw [deaf]
  exact mirrors.of_same line presence rooms

instance (receivers : Set UserId) : IsPreorder Hub (Relays receivers) where
  refl hub := (refl_of (Silent ∅) hub).brings
  trans _ _ _ := Brings.trans

theorem mem_lines {hub : Hub} {user : UserId} {line : ConnId × UserId}
    (found : hub.lineOf user = some line) : line.1 ∈ hub.seats.toList.map (·.2.connId) := by
  obtain ⟨seat, there, rfl⟩ := Option.map_eq_some_iff.mp found
  exact List.mem_map.mpr ⟨(user, seat), (Map.mem_toList _ _ _).mpr there, rfl⟩

/-- What everyone is told right after a change tells them of it. Telling them again changes
nothing. -/
theorem Brings.emitAll {between : Hub} {event : Event}
    (capped : before.Capped → between.Capped) (line : between.lineOf = before.lineOf)
    (log : between.log = before.log)
    (first : ∀ view, before.Capped → MirrorsBut hidden view before →
      MirrorsBut still (view.serverEvent event) between)
    (again : ∀ view, between.Capped → MirrorsBut still view between →
      MirrorsBut still (view.serverEvent event) between) :
    Brings receivers hidden still before (between.emitAll event) := by
  refine ⟨fun bounded => (capped bounded).of_same rfl rfl, fun bounded user _ place found => ?_⟩
  have found : between.lineOf user = some place := found
  obtain ⟨count, some⟩ := Nat.exists_eq_succ_of_ne_zero
    (List.count_pos_iff.mpr (mem_lines found)).ne'
  refine ⟨line ▸ found, List.replicate (count + 1) event, ?_, fun view mirrors => ?_⟩
  · rw [Hub.emitAll, sentTo_send, some, sentTo, sentTo, log]
  have shown : MirrorsBut still (view.hear (List.replicate (count + 1) event)) between :=
    (first view bounded mirrors).hear_replicate (fun view => again view (capped bounded)) count
  exact shown.of_same rfl (fun _ _ => rfl) rfl

/-! ### Telling of presence -/

/-- Telling everyone where a user is reveals them. -/
theorem brings_presenceChanged (hub : Hub) {user : UserId} {presence : Presence}
    (shown : hub.presenceOf user = some presence) :
    Brings receivers {user} ∅ hub (hub.emitAll (.presenceChanged presence)) := by
  have reveals : ∀ hidden view, hub.Capped → MirrorsBut hidden view hub →
      MirrorsBut (hidden \ {user}) (view.serverEvent (.presenceChanged presence)) hub :=
    fun _ _ capped mirrors => mirrors.presenceChanged capped shown
  refine .emitAll (fun capped => capped) rfl rfl (fun view capped mirrors => ?_)
    fun view capped mirrors => ?_
  · exact (reveals {user} view capped mirrors).mono (Set.sdiff_self.le)
  · exact (reveals ∅ view capped mirrors).mono Set.sdiff_subset

/-- Telling everyone that a user is nowhere reveals them. -/
theorem brings_presenceEnded (hub : Hub) {user : UserId} (gone : hub.presenceOf user = none) :
    Brings receivers {user} ∅ hub (hub.emitAll (.presenceEnded user)) := by
  refine .emitAll (fun capped => capped) rfl rfl (fun view _ mirrors => ?_)
    fun view _ mirrors => ?_
  · exact (mirrors.presenceEnded gone).mono (Set.sdiff_self.le)
  · exact (mirrors.presenceEnded gone).mono Set.sdiff_subset

/-- Telling everyone where a move has taken a user reveals them. -/
theorem brings_announceMove (hub : Hub) (user : UserId) :
    Brings receivers {user} ∅ hub (hub.announceMove user) := by
  unfold announceMove
  split
  · rename_i presence shown
    exact hub.brings_presenceChanged shown
  · rename_i gone
    exact hub.brings_presenceEnded gone

/-- Telling everyone of a user, if they are anywhere, after a change of what is said of them. A
user who is nowhere before and after isn't shown. -/
theorem Silent.announcePresence {user : UserId} (silent : Silent {user} before after)
    (nowhere : after.presenceOf user = none → before.presenceOf user = none) :
    Relays receivers before (after.announcePresence user) := by
  unfold Hub.announcePresence
  split
  · rename_i presence shown
    exact silent.brings.mono (Set.empty_subset _) |>.trans (after.brings_presenceChanged shown)
  · rename_i gone
    refine Silent.brings { silent with presence := fun other _ => ?_ }
    by_cases mine : other = user
    · rw [mine, nowhere gone]
      exact gone
    · exact silent.presence other mine

end Hub

end Throcc
