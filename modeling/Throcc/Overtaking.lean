/-
This file proves what becomes of room states that overtake a placement. A link
joins what an honest server makes for one connection with the key manager that
processes it: room states in order, and the answer to a join or a leave any
number of room states late.

A client keeps the room it is in and its epoch in step with the server however
late a placement is. The peers it can lose: of room states of one epoch the
client stashes the first, and a placement of that epoch replaces them all.
`Underway.kept` says when this loses nothing, and `Link.agrees_iff` that
nothing else does.
-/

import Throcc.Run
import Throcc.Standing

namespace Throcc

/-- A room state as the server made it. -/
structure RoomState where
  epoch : Epoch
  peers : List Peer
deriving DecidableEq, Repr

/-- Of room states in the order they were made, the first of the epoch of the last. -/
def newest (states : List RoomState) : Option RoomState :=
  states.getLast?.bind fun last => states.find? (·.epoch = last.epoch)

/-- A placement on its way to the client, with the room states that overtook it. -/
structure Underway where
  room : Option RoomId
  epoch : Epoch
  tracks : Option Tracks
  peers : List Peer
  overtaken : List RoomState

/-- Whether a client in room `current` ends with the last room state when the placement
arrives: the placement must not replace a room state of its own epoch by another, nor may
the stash of a client that moves have kept another room state of the last one's epoch. -/
def Underway.kept (placement : Underway) (current : Option RoomId) : Bool :=
  placement.overtaken.getLast?.all fun last =>
    if last.epoch = placement.epoch then last.peers = placement.peers
    else current = placement.room ∨ (newest placement.overtaken).all (·.peers = last.peers)

/-- The last state the server made for a connection. -/
structure Made where
  room : Option RoomId
  epoch : Epoch
  peers : List Peer
deriving DecidableEq, Repr

/-- What the server makes of a connection outside rooms. -/
def Made.lobby : Made where
  room := none
  epoch := 0
  peers := []

/-- An honest server's side of one connection, and the client's key manager. -/
structure Link (crypto : Crypto) where
  /-- The newest epoch of every room, as the server told the connection. -/
  epochs : Map RoomId Epoch
  made : Made
  underway : Option Underway
  client : KeyManager crypto
  /-- Whether the client holds the peers of an older room state. -/
  lost : Bool

inductive LinkInput (crypto : Crypto) where
  /-- The server places the connection, as a join, a repeated join or a leave asks. -/
  | place (room : Option RoomId) (epoch : Epoch) (tracks : Option Tracks) (peers : List Peer)
  /-- The server makes a room state, and the client processes it. -/
  | peers (epoch : Epoch) (peers : List Peer) (clock : Clock)
  /-- The client processes the placement under way. -/
  | arrive (clock : Clock)
  /-- The client does something else: a presence, a sender key, a renewal, a tick. -/
  | other (op : KeyOp crypto) (clock : Clock)

namespace Link

variable {crypto : Crypto}

def start (client : KeyManager crypto) : Link crypto where
  epochs := ∅
  made := .lobby
  underway := none
  client := client
  lost := false

/-- One placement is under way at a time, and no room's epoch decreases. -/
def place (link : Link crypto) (room : Option RoomId) (epoch : Epoch) (tracks : Option Tracks)
    (peers : List Peer) : Link crypto :=
  match link.underway, room with
  | some _, _ => link
  | none, none =>
    { link with
      made := .lobby
      underway := some { room := none, epoch := 0, tracks := none, peers := [], overtaken := [] } }
  | none, some room =>
    if (link.epochs.lookup room).getD 0 ≤ epoch then
      { link with
        epochs := link.epochs.insert room epoch
        made := { room := some room, epoch, peers }
        underway := some { room := some room, epoch, tracks, peers, overtaken := [] } }
    else
      link

/-- Room states are made for connections in a room, and processed in order. -/
def peers (link : Link crypto) (epoch : Epoch) (peers : List Peer) (clock : Clock) :
    Link crypto :=
  match link.made.room with
  | none => link
  | some room =>
    if link.made.epoch ≤ epoch then
      { epochs := link.epochs.insert room epoch
        made := { room := some room, epoch, peers }
        underway := link.underway.map fun placement =>
          { placement with overtaken := placement.overtaken ++ [{ epoch, peers }] }
        client := (link.client.peersChanged room epoch peers clock).2
        lost := link.lost && link.underway.isSome }
    else
      link

def arrive (link : Link crypto) (clock : Clock) : Link crypto :=
  match link.underway with
  | none => link
  | some placement =>
    { link with
      underway := none
      client :=
        (link.client.applyPlacement placement.room placement.epoch placement.tracks
          placement.peers clock).2
      lost := !placement.kept link.client.room }

def other (link : Link crypto) (op : KeyOp crypto) (clock : Clock) : Link crypto :=
  match op with
  | .placement .. => link
  | .peers .. => link
  | op => { link with client := (link.client.perform clock op).2 }

def step (link : Link crypto) : LinkInput crypto → Link crypto
  | .place room epoch tracks peers => link.place room epoch tracks peers
  | .peers epoch peers clock => link.peers epoch peers clock
  | .arrive clock => link.arrive clock
  | .other op clock => link.other op clock

end Link

/-! ### The newest of room states in order -/

/-- The epochs of room states never decrease from `epoch` on. -/
def Ascends (epoch : Epoch) (states : List RoomState) : Prop :=
  (epoch :: states.map (·.epoch)).Pairwise (· ≤ ·)

theorem newest_of_getLast {states : List RoomState} {last : RoomState}
    (ends : states.getLast? = some last) :
    ∃ first, newest states = some first ∧ first.epoch = last.epoch := by
  unfold newest
  rw [ends, Option.bind_some]
  have member := List.mem_of_getLast? ends
  cases found : states.find? (·.epoch = last.epoch) with
  | none =>
    rw [List.find?_eq_none] at found
    exact absurd (decide_eq_true rfl) (found last member)
  | some first => exact ⟨first, rfl, of_decide_eq_true (List.find?_some found :)⟩

theorem Ascends.le_last {epoch : Epoch} {states : List RoomState} (ascends : Ascends epoch states)
    {last : RoomState} (ends : states.getLast? = some last) :
    epoch ≤ last.epoch ∧ ∀ state ∈ states, state.epoch ≤ last.epoch := by
  obtain ⟨rest, rfl⟩ := List.getLast?_eq_some_iff.mp ends
  unfold Ascends at ascends
  rw [List.pairwise_cons, List.map_append, List.pairwise_append] at ascends
  refine ⟨ascends.1 last.epoch (by simp), fun state member => ?_⟩
  rcases List.mem_append.mp member with early | late
  · exact ascends.2.2.2 state.epoch (List.mem_map.mpr ⟨state, early, rfl⟩) last.epoch (by simp)
  · rw [List.mem_singleton] at late
    rw [late]

theorem Ascends.concat {epoch : Epoch} {states : List RoomState} (ascends : Ascends epoch states)
    (next : RoomState) (later : ∀ last, states.getLast? = some last → last.epoch ≤ next.epoch)
    (first : states = [] → epoch ≤ next.epoch) : Ascends epoch (states ++ [next]) := by
  have below : ∀ bound ∈ epoch :: states.map (·.epoch), bound ≤ next.epoch := by
    intro bound member
    cases ends : states.getLast? with
    | none =>
      rw [List.getLast?_eq_none_iff] at ends
      subst ends
      rw [List.map_nil, List.mem_singleton] at member
      exact member ▸ first rfl
    | some last =>
      obtain ⟨start, all⟩ := ascends.le_last ends
      rcases List.mem_cons.mp member with rfl | there
      · exact start.trans (later last ends)
      · obtain ⟨state, inStates, rfl⟩ := List.mem_map.mp there
        exact (all state inStates).trans (later last ends)
  unfold Ascends at ascends ⊢
  rw [List.map_append, ← List.cons_append, List.pairwise_append]
  refine ⟨ascends, List.pairwise_singleton _ _, fun bound member other last => ?_⟩
  rw [List.map_singleton, List.mem_singleton] at last
  exact last ▸ below bound member

/-- A later room state is the newest only if its epoch is. -/
theorem newest_concat {epoch : Epoch} {states : List RoomState} (ascends : Ascends epoch states)
    (next : RoomState) (later : ∀ last, states.getLast? = some last → last.epoch ≤ next.epoch) :
    newest (states ++ [next]) =
      if (newest states).all (·.epoch < next.epoch) then some next else newest states := by
  have ends : (states ++ [next]).getLast? = some next := by simp
  cases found : states.getLast? with
  | none =>
    rw [List.getLast?_eq_none_iff] at found
    subst found
    simp [newest]
  | some last =>
    obtain ⟨first, isNewest, sameEpoch⟩ := newest_of_getLast found
    rw [isNewest, Option.all_some]
    unfold newest at isNewest ⊢
    rw [ends, Option.bind_some, List.find?_append]
    rw [found, Option.bind_some] at isNewest
    split
    · rename_i newer
      rw [sameEpoch, decide_eq_true_iff] at newer
      have none : states.find? (·.epoch = next.epoch) = none := by
        rw [List.find?_eq_none]
        intro state member same
        have bounded := (ascends.le_last found).2 state member
        rw [of_decide_eq_true same] at bounded
        exact Nat.not_lt.mpr bounded newer
      rw [none]
      simp
    · rename_i notNewer
      rw [sameEpoch, decide_eq_true_iff, Nat.not_lt] at notNewer
      rw [le_antisymm notNewer (later last found), isNewest, Option.some_or]

namespace Standing

/-! ### What room states and placements make of a standing -/

theorem applyPeers_view (standing : Standing) (epoch : Epoch) (peers : List Peer)
    (now : Instant) :
    (standing.applyPeers epoch peers now).room = standing.room ∧
      (standing.applyPeers epoch peers now).epoch = epoch ∧
      (standing.applyPeers epoch peers now).roomPeers = peers ∧
      (standing.applyPeers epoch peers now).stashed = standing.stashed := by
  unfold applyPeers moveTo
  split
  · exact ⟨rfl, rfl, rfl, rfl⟩
  · rename_i same
    exact ⟨rfl, (not_not.mp same).symm, rfl, rfl⟩

/-- In its own room a standing follows a room state of no lower epoch. -/
theorem peersChanged_here (standing : Standing) {room : RoomId} (here : standing.room = some room)
    {epoch : Epoch} (peers : List Peer) (now : Instant) (notOlder : standing.epoch ≤ epoch) :
    standing.peersChanged room epoch peers now = standing.applyPeers epoch peers now := by
  unfold peersChanged
  rw [if_neg (not_not.mpr here.symm), if_neg (Nat.not_lt.mpr notOlder)]

theorem peersChanged_elsewhere (standing : Standing) {room : RoomId}
    (elsewhere : standing.room ≠ some room) (epoch : Epoch) (peers : List Peer) (now : Instant) :
    standing.peersChanged room epoch peers now = standing.stash room epoch peers := by
  unfold peersChanged
  rw [if_pos (Ne.symm elsewhere)]

theorem enter_elsewhere (standing : Standing) {room : RoomId}
    (elsewhere : standing.room ≠ some room) (tracks : Option Tracks) :
    (standing.enter (some room) tracks).room = some room ∧
      (standing.enter (some room) tracks).epoch = 0 ∧
      (standing.enter (some room) tracks).stashed = standing.stashed := by
  unfold enter
  rw [if_pos (Ne.symm elsewhere)]
  exact ⟨rfl, rfl, rfl⟩

/-- Where a placement leaves a client that is in another room and stashed room states of the
room it moves to. -/
theorem applyPlacement_moved (standing : Standing) {room : RoomId}
    (elsewhere : standing.room ≠ some room) (epoch : Epoch) (tracks : Option Tracks)
    (peers : List Peer) (now : Instant) (states : List RoomState)
    (stashed : standing.stashed = (newest states).map fun state => (room, state.epoch, state.peers)) :
    let after := standing.applyPlacement (some room) epoch tracks peers now
    let last := ((newest states).filter (epoch < ·.epoch)).getD { epoch, peers }
    after.room = some room ∧ after.epoch = last.epoch ∧ after.roomPeers = last.peers ∧
      after.stashed = none := by
  intro after last
  obtain ⟨entered, atZero, keeping⟩ := standing.enter_elsewhere elsewhere tracks
  have applied : after = ((standing.enter (some room) tracks).applyPeers epoch peers now).unstash
      room epoch now := by
    show standing.applyPlacement (some room) epoch tracks peers now = _
    unfold applyPlacement
    rw [if_neg fun stale => elsewhere stale.2.1.symm]
    dsimp only
    rw [peersChanged_here _ entered peers now (by rw [atZero]; exact Nat.zero_le epoch)]
  obtain ⟨inRoom, atEpoch, withPeers, kept⟩ :=
    (standing.enter (some room) tracks).applyPeers_view epoch peers now
  have inRoom := inRoom.trans entered
  have kept := (kept.trans keeping).trans stashed
  rw [applied]
  have last_def : last = ((newest states).filter (epoch < ·.epoch)).getD { epoch, peers } := rfl
  generalize (standing.enter (some room) tracks).applyPeers epoch peers now = placed at *
  unfold unstash
  rw [kept]
  cases found : newest states with
  | none =>
    rw [found] at last_def
    rw [last_def]
    exact ⟨inRoom, atEpoch, withPeers, rfl⟩
  | some first =>
    rw [found] at last_def
    dsimp only [Option.map_some]
    by_cases later : epoch < first.epoch
    · rw [Option.filter_some, if_pos (decide_eq_true later), Option.getD_some] at last_def
      rw [if_pos ⟨rfl, later⟩, last_def]
      have emptied : { placed with stashed := none }.epoch ≤ first.epoch := by
        rw [← atEpoch] at later
        exact later.le
      rw [peersChanged_here _ (by exact inRoom) first.peers now emptied]
      obtain ⟨sameRoom, sameEpoch, samePeers, noStash⟩ :=
        applyPeers_view { placed with stashed := none } first.epoch first.peers now
      exact ⟨sameRoom.trans inRoom, sameEpoch, samePeers, noStash⟩
    · rw [Option.filter_some, if_neg (by simpa using later), Option.getD_none] at last_def
      rw [if_neg fun stale => later stale.2, last_def]
      exact ⟨inRoom, atEpoch, withPeers, rfl⟩

/-- Where a placement of no lower epoch leaves a client that is in the room already. -/
theorem applyPlacement_again (standing : Standing) {room : RoomId}
    (here : standing.room = some room) {epoch : Epoch} (tracks : Option Tracks)
    (peers : List Peer) (now : Instant) (notOlder : standing.epoch ≤ epoch)
    (stashed : standing.stashed = none) :
    let after := standing.applyPlacement (some room) epoch tracks peers now
    after.room = some room ∧ after.epoch = epoch ∧ after.roomPeers = peers ∧
      after.stashed = none := by
  have entered : standing.enter (some room) tracks = { standing with myTracks := tracks } := by
    rw [enter, if_neg (not_not.mpr here.symm)]
  dsimp only
  unfold applyPlacement
  rw [if_neg fun stale => Nat.not_lt.mpr notOlder stale.2.2]
  dsimp only
  rw [entered, peersChanged_here _ (by exact here) peers now (by exact notOlder)]
  obtain ⟨inRoom, atEpoch, withPeers, kept⟩ :=
    applyPeers_view { standing with myTracks := tracks } epoch peers now
  have inRoom := inRoom.trans here
  have kept := kept.trans stashed
  generalize applyPeers { standing with myTracks := tracks } epoch peers now = placed at *
  unfold unstash
  rw [kept]
  exact ⟨inRoom, atEpoch, withPeers, rfl⟩

theorem applyPlacement_lobby (standing : Standing) (epoch : Epoch) (tracks : Option Tracks)
    (peers : List Peer) (now : Instant)
    (outside : standing.room = none → standing.epoch = 0 ∧ standing.roomPeers = []) :
    let after := standing.applyPlacement none epoch tracks peers now
    after.room = none ∧ after.epoch = 0 ∧ after.roomPeers = [] ∧ after.stashed = none := by
  dsimp only
  unfold applyPlacement
  rw [if_neg (by simp)]
  dsimp only
  unfold enter
  split
  · exact ⟨rfl, rfl, rfl, rfl⟩
  · rename_i here
    have here : standing.room = none := (not_not.mp here).symm
    exact ⟨here, (outside here).1, (outside here).2, rfl⟩

end Standing

namespace Link

variable {crypto : Crypto}

/-! ### What every step keeps -/

/-- How far the client is while a placement is under way. -/
structure Awaiting (link : Link crypto) (placement : Underway) : Prop where
  sameRoom : link.made.room = placement.room
  last : { epoch := link.made.epoch, peers := link.made.peers : RoomState } =
    placement.overtaken.getLast?.getD { epoch := placement.epoch, peers := placement.peers }
  ascends : Ascends placement.epoch placement.overtaken
  lobby : placement.room = none → placement.epoch = 0 ∧ placement.peers = [] ∧
    placement.overtaken = []
  /-- A client that moves stashes the newest of the room states that overtook the placement. -/
  moves : ∀ room, placement.room = some room → link.client.room ≠ some room →
    link.client.stashed =
      (newest placement.overtaken).map fun state => (room, state.epoch, state.peers)
  /-- A client in the room already follows them. -/
  stays : ∀ room, placement.room = some room → link.client.room = some room →
    link.client.stashed = none ∧
      match placement.overtaken.getLast? with
      | none => link.client.epoch ≤ placement.epoch
      | some last => link.client.epoch = last.epoch ∧ link.client.roomPeers = last.peers

/-- How client and server compare. -/
structure InStep (link : Link crypto) : Prop where
  known : ∀ room, link.made.room = some room → link.epochs.lookup room = some link.made.epoch
  outside : link.made.room = none → link.made.epoch = 0 ∧ link.made.peers = []
  clientOutside : link.client.room = none → link.client.epoch = 0 ∧ link.client.roomPeers = []
  settled : link.underway = none →
    link.client.room = link.made.room ∧ link.client.epoch = link.made.epoch ∧
      link.client.stashed = none ∧ (link.client.roomPeers = link.made.peers ↔ link.lost = false)
  awaiting : ∀ placement, link.underway = some placement → link.Awaiting placement

theorem InStep.place {link : Link crypto} (inStep : link.InStep) (room : Option RoomId)
    (epoch : Epoch) (tracks : Option Tracks) (peers : List Peer) :
    (link.place room epoch tracks peers).InStep := by
  unfold Link.place
  split
  · exact inStep
  · rename_i nothing
    obtain ⟨sameRoom, sameEpoch, stashed, _⟩ := inStep.settled nothing
    refine ⟨nofun, fun _ => ⟨rfl, rfl⟩, inStep.clientOutside, nofun, fun placement same => ?_⟩
    cases same
    exact ⟨rfl, rfl, List.pairwise_singleton _ _, fun _ => ⟨rfl, rfl, rfl⟩, nofun, nofun⟩
  · rename_i room nothing
    obtain ⟨sameRoom, sameEpoch, stashed, _⟩ := inStep.settled nothing
    split
    · rename_i notOlder
      refine ⟨fun other same => ?_, nofun, inStep.clientOutside, nofun, fun placement same => ?_⟩
      · cases same
        rw [Map.lookup_insert_ite, if_pos rfl]
      · cases same
        refine ⟨rfl, rfl, List.pairwise_singleton _ _, nofun, fun _ _ _ => stashed,
          fun other same there => ⟨stashed, ?_⟩⟩
        cases same
        dsimp only at there
        rw [sameRoom] at there
        rw [inStep.known room there, Option.getD_some] at notOlder
        dsimp only [List.getLast?_nil]
        rw [sameEpoch]
        exact notOlder
    · exact inStep

theorem Awaiting.made_of_last {link : Link crypto} {placement : Underway}
    (awaiting : link.Awaiting placement) {last : RoomState}
    (ends : placement.overtaken.getLast? = some last) :
    link.made.epoch = last.epoch ∧ link.made.peers = last.peers := by
  have same := awaiting.last
  rw [ends, Option.getD_some] at same
  exact ⟨congrArg RoomState.epoch same, congrArg RoomState.peers same⟩

theorem Awaiting.made_of_none {link : Link crypto} {placement : Underway}
    (awaiting : link.Awaiting placement) (nothing : placement.overtaken.getLast? = none) :
    link.made.epoch = placement.epoch ∧ link.made.peers = placement.peers := by
  have same := awaiting.last
  rw [nothing, Option.getD_none] at same
  exact ⟨congrArg RoomState.epoch same, congrArg RoomState.peers same⟩

/-- A stash keeps the newest of the room states that overtook a placement. -/
theorem stashed_peersChanged (standing : Standing) {room : RoomId}
    (elsewhere : standing.room ≠ some room) {bound : Epoch} {states : List RoomState}
    (ascends : Ascends bound states) (next : RoomState)
    (later : ∀ last, states.getLast? = some last → last.epoch ≤ next.epoch) (now : Instant)
    (stashed : standing.stashed = (newest states).map fun state => (room, state.epoch, state.peers)) :
    let after := standing.peersChanged room next.epoch next.peers now
    after.room = standing.room ∧ after.epoch = standing.epoch ∧
      after.roomPeers = standing.roomPeers ∧
      after.stashed =
        (newest (states ++ [next])).map fun state => (room, state.epoch, state.peers) := by
  dsimp only
  rw [Standing.peersChanged_elsewhere _ elsewhere, newest_concat ascends next later]
  have newer : (standing.stashed.all fun kept => kept.1 ≠ room ∨ kept.2.1 < next.epoch) =
      (newest states).all (·.epoch < next.epoch) := by
    rw [stashed]
    cases newest states <;> simp
  unfold Standing.stash
  rw [newer]
  split
  · exact ⟨rfl, rfl, rfl, rfl⟩
  · exact ⟨rfl, rfl, rfl, stashed⟩

theorem InStep.peers {link : Link crypto} (inStep : link.InStep) (epoch : Epoch)
    (peers : List Peer) (clock : Clock) : (link.peers epoch peers clock).InStep := by
  unfold Link.peers
  split
  · exact inStep
  · rename_i room inRoom
    split
    · rename_i notOlder
      have client := link.client.standing_peersChanged room epoch peers clock
      have known : ∀ other, some room = some other →
          (link.epochs.insert room epoch).lookup other = some epoch := by
        intro other same
        cases same
        rw [Map.lookup_insert_ite, if_pos rfl]
      cases waits : link.underway with
      | none =>
        obtain ⟨sameRoom, sameEpoch, stashed, _⟩ := inStep.settled waits
        have here : link.client.standing.room = some room := sameRoom.trans inRoom
        have reached : link.client.standing.epoch ≤ epoch := sameEpoch.le.trans notOlder
        rw [Standing.peersChanged_here _ here peers clock.now reached] at client
        obtain ⟨stays, atEpoch, withPeers, kept⟩ :=
          link.client.standing.applyPeers_view epoch peers clock.now
        rw [← client] at stays atEpoch withPeers kept
        refine ⟨known, nofun, fun outside => ?_, fun _ => ⟨stays.trans here, atEpoch,
          kept.trans stashed, iff_of_true withPeers ?_⟩, nofun⟩
        · exact absurd ((stays.trans here).symm.trans outside) nofun
        · exact Bool.and_false _
      | some placement =>
        have awaiting := inStep.awaiting placement waits
        have placed : placement.room = some room := awaiting.sameRoom.symm.trans inRoom
        have later : ∀ last, placement.overtaken.getLast? = some last → last.epoch ≤ epoch :=
          fun last ends => (awaiting.made_of_last ends).1.ge.trans notOlder
        have first : placement.overtaken = [] → placement.epoch ≤ epoch := by
          intro nothing
          have none : placement.overtaken.getLast? = none := by rw [nothing]; rfl
          exact (awaiting.made_of_none none).1.ge.trans notOlder
        have ascends := awaiting.ascends.concat { epoch, peers } later first
        have ends : (placement.overtaken ++ [(⟨epoch, peers⟩ : RoomState)]).getLast? =
            some ⟨epoch, peers⟩ := List.getLast?_concat ..
        by_cases here : link.client.standing.room = some room
        · have reached : link.client.standing.epoch ≤ epoch := by
            have stays := (awaiting.stays room placed here).2
            cases last : placement.overtaken.getLast? with
            | none =>
              rw [last] at stays
              exact stays.trans ((awaiting.made_of_none last).1.ge.trans notOlder)
            | some state =>
              rw [last] at stays
              exact stays.1.le.trans (later state last)
          rw [Standing.peersChanged_here _ here peers clock.now reached] at client
          obtain ⟨stays, atEpoch, withPeers, kept⟩ :=
            link.client.standing.applyPeers_view epoch peers clock.now
          rw [← client] at stays atEpoch withPeers kept
          refine ⟨known, nofun, fun outside => ?_, nofun, fun after same => ?_⟩
          · exact absurd ((stays.trans here).symm.trans outside) nofun
          · cases same
            refine ⟨placed.symm, by rw [ends]; rfl, ascends, fun none => ?_,
              fun other same elsewhere => ?_, fun other same _ => ⟨?_, ?_⟩⟩
            · exact absurd (placed.symm.trans none) nofun
            · rw [placed] at same
              cases same
              exact absurd (stays.trans here) elsewhere
            · exact kept.trans (awaiting.stays room placed here).1
            · dsimp only
              rw [ends]
              exact ⟨atEpoch, withPeers⟩
        · obtain ⟨stays, atEpoch, withPeers, stashed⟩ := stashed_peersChanged link.client.standing
            here awaiting.ascends { epoch, peers } later clock.now (awaiting.moves room placed here)
          rw [← client] at stays atEpoch withPeers stashed
          refine ⟨known, nofun, fun outside => ?_, nofun, fun after same => ?_⟩
          · obtain ⟨zero, nobody⟩ := inStep.clientOutside (stays.symm.trans outside)
            exact ⟨atEpoch.trans zero, withPeers.trans nobody⟩
          · cases same
            refine ⟨placed.symm, by rw [ends]; rfl, ascends, fun none => ?_,
              fun other same _ => ?_, fun other same there => ?_⟩
            · exact absurd (placed.symm.trans none) nofun
            · rw [placed] at same
              cases same
              exact stashed
            · rw [placed] at same
              cases same
              exact absurd (stays.symm.trans there) here
    · exact inStep

/-- Where a placement leaves the client when it arrives, as `Underway.kept` foresees. -/
theorem Awaiting.arrives {link : Link crypto} {placement : Underway}
    (awaiting : link.Awaiting placement)
    (outside : link.client.room = none → link.client.epoch = 0 ∧ link.client.roomPeers = [])
    (now : Instant) :
    let after := link.client.standing.applyPlacement placement.room placement.epoch
      placement.tracks placement.peers now
    after.room = placement.room ∧ after.epoch = link.made.epoch ∧ after.stashed = none ∧
      (after.roomPeers = link.made.peers ↔ placement.kept link.client.room = true) := by
  have made_of_none := awaiting.made_of_none
  have made_of_last := fun last => @Awaiting.made_of_last _ _ _ awaiting last
  obtain ⟨_, _, ascends, lobby, moves, stays⟩ := awaiting
  obtain ⟨room, epoch, tracks, peers, overtaken⟩ := placement
  dsimp only at ascends lobby moves stays made_of_none made_of_last ⊢
  cases room with
  | none =>
    obtain ⟨rfl, rfl, rfl⟩ := lobby rfl
    obtain ⟨there, atEpoch, alone, stashed⟩ :=
      link.client.standing.applyPlacement_lobby 0 tracks [] now outside
    obtain ⟨sameEpoch, samePeers⟩ := made_of_none rfl
    exact ⟨there, atEpoch.trans sameEpoch.symm, stashed,
      iff_of_true (alone.trans samePeers.symm) rfl⟩
  | some room =>
    by_cases here : link.client.room = some room
    · obtain ⟨stashed, follows⟩ := stays room rfl here
      cases ends : overtaken.getLast? with
      | none =>
        rw [ends] at follows
        obtain ⟨sameEpoch, samePeers⟩ := made_of_none ends
        obtain ⟨there, atEpoch, withPeers, kept⟩ :=
          link.client.standing.applyPlacement_again here tracks peers now follows stashed
        refine ⟨there, atEpoch.trans sameEpoch.symm, kept,
          iff_of_true (withPeers.trans samePeers.symm) ?_⟩
        rw [Underway.kept, ends, Option.all_none]
      | some last =>
        rw [ends] at follows
        obtain ⟨sameEpoch, samePeers⟩ := made_of_last last ends
        have bound := (ascends.le_last ends).1
        by_cases same : last.epoch = epoch
        · obtain ⟨there, atEpoch, withPeers, kept⟩ :=
            link.client.standing.applyPlacement_again here tracks peers now
              (follows.1.trans same).le stashed
          refine ⟨there, atEpoch.trans (sameEpoch.trans same).symm, kept, ?_⟩
          rw [withPeers, samePeers, Underway.kept, ends, Option.all_some, if_pos same,
            decide_eq_true_iff, eq_comm]
        · have stale : link.client.standing.applyPlacement (some room) epoch tracks peers now =
              link.client.standing := by
            refine if_pos ⟨rfl, here.symm, ?_⟩
            exact lt_of_lt_of_eq (lt_of_le_of_ne bound (Ne.symm same)) follows.1.symm
          rw [stale]
          refine ⟨here, follows.1.trans sameEpoch.symm, stashed,
            iff_of_true (follows.2.trans samePeers.symm) ?_⟩
          rw [Underway.kept, ends, Option.all_some, if_neg same, decide_eq_true_iff]
          exact Or.inl here
    · obtain ⟨there, atEpoch, withPeers, kept⟩ := link.client.standing.applyPlacement_moved here
        epoch tracks peers now overtaken (moves room rfl here)
      cases ends : overtaken.getLast? with
      | none =>
        obtain ⟨sameEpoch, samePeers⟩ := made_of_none ends
        have nothing : newest overtaken = none := by rw [newest, ends, Option.bind_none]
        rw [nothing] at atEpoch withPeers
        refine ⟨there, atEpoch.trans sameEpoch.symm, kept,
          iff_of_true (withPeers.trans samePeers.symm) ?_⟩
        rw [Underway.kept, ends, Option.all_none]
      | some last =>
        obtain ⟨sameEpoch, samePeers⟩ := made_of_last last ends
        obtain ⟨first, isNewest, firstEpoch⟩ := newest_of_getLast ends
        have bound := (ascends.le_last ends).1
        rw [isNewest, Option.filter_some, firstEpoch] at atEpoch withPeers
        refine ⟨there, ?_, kept, ?_⟩
        · rw [atEpoch, sameEpoch]
          split
          · exact firstEpoch
          · rename_i notLater
            rw [decide_eq_true_iff, Nat.not_lt] at notLater
            exact le_antisymm bound notLater
        · rw [withPeers, samePeers, Underway.kept, ends, Option.all_some, isNewest, Option.all_some]
          by_cases same : last.epoch = epoch
          · rw [if_neg (by simp [same]), if_pos same, decide_eq_true_iff, Option.getD_none, eq_comm]
          · rw [if_pos (by simpa using lt_of_le_of_ne bound (Ne.symm same)), if_neg same,
              decide_eq_true_iff, Option.getD_some, decide_eq_true_iff]
            exact (or_iff_right here).symm

theorem InStep.arrive {link : Link crypto} (inStep : link.InStep) (clock : Clock) :
    (link.arrive clock).InStep := by
  unfold Link.arrive
  split
  · exact inStep
  · rename_i placement waits
    have awaiting := inStep.awaiting placement waits
    obtain ⟨there, epoch, stashed, kept⟩ := awaiting.arrives inStep.clientOutside clock.now
    rw [← KeyManager.standing_applyPlacement] at there epoch stashed kept
    have sameRoom := there.trans awaiting.sameRoom.symm
    refine ⟨inStep.known, inStep.outside, fun outside => ?_, fun _ => ⟨sameRoom, epoch, stashed,
      kept.trans ?_⟩, nofun⟩
    · obtain ⟨zero, nobody⟩ := inStep.outside (sameRoom.symm.trans outside)
      refine ⟨epoch.trans zero, (kept.mpr ?_).trans nobody⟩
      have lobby := awaiting.lobby (there.symm.trans outside)
      rw [Underway.kept, lobby.2.2]
      rfl
    · rw [Bool.not_eq_false']

/-- What a client does on its own account leaves the room state it holds alone. -/
theorem standing_other (client : KeyManager crypto) (op : KeyOp crypto) (clock : Clock)
    (placement : ∀ room epoch tracks peers, op ≠ .placement room epoch tracks peers)
    (roomState : ∀ room epoch peers, op ≠ .peers room epoch peers) :
    ∃ present, (client.perform clock op).2.standing = { client.standing with present } := by
  cases op with
  | placement room epoch tracks peers => exact absurd rfl (placement room epoch tracks peers)
  | peers room epoch peers => exact absurd rfl (roomState room epoch peers)
  | presence user room =>
    obtain ⟨present, frame⟩ := client.setPresence_frame user room
    refine ⟨present, ?_⟩
    dsimp only [KeyManager.perform]
    generalize client.setPresence user room = shown at frame
    obtain ⟨shown, after⟩ := shown
    dsimp only at frame ⊢
    subst frame
    split
    · exact KeyManager.standing_reapplyPeers _ clock
    · rfl
  | senderKey sender epoch wrapped =>
    exact ⟨client.present, client.standing_senderKey sender epoch wrapped clock.now⟩
  | renew encryption => exact ⟨client.present, rfl⟩
  | receive mediaId epoch => exact ⟨client.present, client.standing_recvKey mediaId epoch⟩
  | tick => exact ⟨client.present, rfl⟩

theorem InStep.other {link : Link crypto} (inStep : link.InStep) (op : KeyOp crypto)
    (clock : Clock) : (link.other op clock).InStep := by
  unfold Link.other
  split
  · exact inStep
  · exact inStep
  · rename_i placement roomState
    obtain ⟨present, same⟩ := standing_other link.client op clock placement roomState
    have room : (link.client.perform clock op).2.room = link.client.room :=
      congrArg Standing.room same
    have epoch : (link.client.perform clock op).2.epoch = link.client.epoch :=
      congrArg Standing.epoch same
    have roomPeers : (link.client.perform clock op).2.roomPeers = link.client.roomPeers :=
      congrArg Standing.roomPeers same
    have stashed : (link.client.perform clock op).2.stashed = link.client.stashed :=
      congrArg Standing.stashed same
    obtain ⟨known, outside, clientOutside, settled, awaiting⟩ := inStep
    refine ⟨known, outside, ?_, ?_, fun placement waits => ?_⟩
    · dsimp only
      rw [room, epoch, roomPeers]
      exact clientOutside
    · dsimp only
      rw [room, epoch, roomPeers, stashed]
      exact settled
    · obtain ⟨sameRoom, last, ascends, lobby, moves, stays⟩ := awaiting placement waits
      refine ⟨sameRoom, last, ascends, lobby, ?_, ?_⟩
      · dsimp only
        rw [room, stashed]
        exact moves
      · dsimp only
        rw [room, epoch, roomPeers, stashed]
        exact stays

theorem InStep.step {link : Link crypto} (inStep : link.InStep) (input : LinkInput crypto) :
    (link.step input).InStep := by
  cases input with
  | place room epoch tracks peers => exact inStep.place room epoch tracks peers
  | peers epoch peers clock => exact inStep.peers epoch peers clock
  | arrive clock => exact inStep.arrive clock
  | other op clock => exact inStep.other op clock

theorem start_inStep (me : UserId) (encryption : crypto.KeyPair) (server : Fingerprint)
    (floors : EpochFloors) (now : Instant) (drawn : Nat) :
    (start (.new me encryption server floors now drawn)).InStep where
  known := nofun
  outside := fun _ => ⟨rfl, rfl⟩
  clientOutside := fun _ => ⟨rfl, rfl⟩
  settled := fun _ => ⟨rfl, rfl, rfl, iff_of_true rfl rfl⟩
  awaiting := nofun

/-- Whenever no placement is under way, the client is in the room the server last made for it,
at its epoch, and holds the peers of the last room state exactly if no placement that arrived
since then has lost them. -/
theorem agrees_iff (me : UserId) (encryption : crypto.KeyPair) (server : Fingerprint)
    (floors : EpochFloors) (now : Instant) (drawn : Nat) (inputs : List (LinkInput crypto)) :
    let link := run step (start (.new me encryption server floors now drawn)) inputs
    link.underway = none →
      (link.client.room = link.made.room ∧ link.client.epoch = link.made.epoch) ∧
        (link.client.roomPeers = link.made.peers ↔ link.lost = false) := by
  intro link settled
  have inStep : link.InStep := run_invariant step InStep
    (start_inStep me encryption server floors now drawn) (fun _ input inStep => inStep.step input)
    inputs
  obtain ⟨room, epoch, _, peers⟩ := inStep.settled settled
  exact ⟨⟨room, epoch⟩, peers⟩

/-! ### Room states lost -/

/-- A join answered at epoch 5, with a room state of that epoch overtaking the answer. -/
def overtakenAtItsEpoch : List (LinkInput openCrypto) :=
  [ .place (some 1) 5 (some (openPeer 1).tracks) [openPeer 1],
    .peers 5 [openPeer 1, openPeer 2] ⟨1, 500⟩,
    .arrive ⟨2, 500⟩ ]

/-- A join overtaken by two room states of one later epoch. -/
def overtakenTwice : List (LinkInput openCrypto) :=
  [ .place (some 1) 5 (some (openPeer 1).tracks) [openPeer 1],
    .peers 6 [openPeer 1, openPeer 2] ⟨1, 500⟩,
    .peers 6 [openPeer 1, openPeer 2, openPeer 3] ⟨2, 500⟩,
    .arrive ⟨3, 500⟩ ]

/-- A repeated join of a room, with a room state of its epoch overtaking the answer. -/
def joinedAgain : List (LinkInput openCrypto) :=
  [ .place (some 1) 5 (some (openPeer 1).tracks) [openPeer 1],
    .arrive ⟨1, 500⟩,
    .place (some 1) 5 (some (openPeer 1).tracks) [openPeer 1],
    .peers 5 [openPeer 1, openPeer 2] ⟨2, 500⟩,
    .arrive ⟨3, 500⟩ ]

theorem agrees_iff_joinedAgain :
    let link := run step (start (.new 1 (200 + 1 : Nat) 7 {} 0 0)) joinedAgain
    link.underway.isNone ∧ link.lost = true ∧ link.client.room = link.made.room ∧
      link.client.roomPeers ≠ link.made.peers := by
  refine ⟨by decide +kernel, by decide +kernel, ?_⟩
  have agrees := @agrees_iff openCrypto 1 (200 + 1 : Nat) 7 {} 0 0 joinedAgain
    (Option.isNone_iff_eq_none.mp (by decide +kernel))
  refine ⟨agrees.1.1, fun same => ?_⟩
  exact absurd (agrees.2.mp same) (by decide +kernel)

/-- A client can be left with older peers than the last room state lists: those of a placement
that a room state of its epoch overtook, those of the first of two room states of one epoch
that overtook it, and those of a repeated join's placement. -/
theorem room_state_lost :
    let first := run step (start (openKeys 1 {})) overtakenAtItsEpoch
    let second := run step (start (openKeys 1 {})) overtakenTwice
    let third := run step (start (openKeys 1 {})) joinedAgain
    (first.underway.isNone ∧ first.client.roomPeers = [openPeer 1] ∧
      first.made.peers = [openPeer 1, openPeer 2]) ∧
    (second.underway.isNone ∧ second.client.roomPeers = [openPeer 1, openPeer 2] ∧
      second.made.peers = [openPeer 1, openPeer 2, openPeer 3]) ∧
    (third.underway.isNone ∧ third.client.roomPeers = [openPeer 1] ∧
      third.made.peers = [openPeer 1, openPeer 2]) := by
  decide +kernel

end Link

end Throcc
