/-
This file joins a client's session to the server and proves when the two agree
on the room it is in. Answers to the session's own requests and the events that
put it out of rooms reach it apart: the connection's events wait in a queue
while the session awaits an answer, and an answer overtakes the events sent
before it. An event about a room that its user has come back into meanwhile
takes the session out of that room, though the server leaves them in it.
-/

import Throcc.Partings
import Throcc.Repeats

namespace Throcc

variable {crypto : Crypto}

/-! ### The session of a client -/

/-- The room of a session and the keys of its media engine. -/
structure ClientSession (crypto : Crypto) where
  room : Option RoomId := none
  keys : KeyManager crypto

namespace ClientSession

/-- Moves where the server answered, as `Call::join` and the session after it do. -/
def joined (session : ClientSession crypto) (placement : Placement) (clock : Clock) :
    ClientSession crypto where
  room := placement.room
  keys := (session.keys.perform clock
    (.placement placement.room placement.epoch placement.tracks placement.peers)).2

/-- Leaves our room here after the server took us out of it. -/
def putOutOfRoom (session : ClientSession crypto) (clock : Clock) : ClientSession crypto where
  room := none
  keys := (session.keys.perform clock (.placement none 0 none [])).2

/-- What a session does with an event, as far as its room goes. -/
def serverEvent (session : ClientSession crypto) (event : Event) (clock : Clock) :
    ClientSession crypto :=
  match event with
  | .roomDeleted room => if session.room = some room then session.putOutOfRoom clock else session
  | .kickedFromRoom _ room =>
    if session.room = some room then session.putOutOfRoom clock else session
  | _ => session

/-- What the media engine does with an event before the session hears of it. -/
def engineEvent (session : ClientSession crypto) (event : Event) (clock : Clock) :
    ClientSession crypto :=
  let perform op := { session with keys := (session.keys.perform clock op).2 }
  match event with
  | .peersChanged room epoch peers => perform (.peers room epoch peers)
  | .senderKeyPublished sender epoch wrapped => perform (.senderKey sender epoch wrapped)
  | .presenceChanged presence => perform (.presence presence.user presence.room)
  | .presenceEnded user => perform (.presence user none)
  | _ => session

/-- The session of a new connection: its engine learns who is where before it takes its place. -/
def start (welcome : Welcome) (keys : KeyManager crypto) (clock : Clock) : ClientSession crypto :=
  let keys := welcome.presence.foldl (fun keys presence =>
    (keys.perform clock (.presence presence.user presence.room)).2) keys
  if welcome.placement.room.isSome then
    ({ keys } : ClientSession crypto).joined welcome.placement clock
  else
    { keys }

/-! ### The engine's room -/

/-- The engine is in the room the session is in. -/
def Agrees (session : ClientSession crypto) : Prop := session.keys.room = session.room

theorem room_perform_placement (keys : KeyManager crypto) (clock : Clock) (room : Option RoomId)
    (epoch : Epoch) (tracks : Option Tracks) (peers : List Peer) :
    (keys.perform clock (.placement room epoch tracks peers)).2.room = room := by
  by_cases other : room = keys.room
  · obtain stays | ⟨elsewhere, _, _, _, same, moves⟩ :=
      keys.bar_perform clock (.placement room epoch tracks peers)
    · exact (Prod.mk.inj stays).1.trans other.symm
    · cases same
      exact absurd other moves
  · exact keys.room_placement clock epoch tracks peers other

theorem room_perform (keys : KeyManager crypto) (clock : Clock) {op : KeyOp crypto}
    (stays : ∀ room epoch tracks peers, op ≠ .placement room epoch tracks peers) :
    (keys.perform clock op).2.room = keys.room := by
  obtain same | ⟨room, epoch, tracks, peers, same, _⟩ := keys.bar_perform clock op
  · exact (Prod.mk.inj same).1
  · exact absurd same (stays room epoch tracks peers)

variable (session : ClientSession crypto) (clock : Clock)

theorem agrees_joined (placement : Placement) : (session.joined placement clock).Agrees :=
  room_perform_placement ..

theorem agrees_putOutOfRoom : (session.putOutOfRoom clock).Agrees :=
  room_perform_placement session.keys clock none 0 none []

/-- An event about the room the session is in takes it out, and no other event does. -/
theorem room_serverEvent (event : Event) :
    (session.serverEvent event clock).room =
      if event.out = session.room then none else session.room := by
  have about : ∀ room, (if session.room = some room then session.putOutOfRoom clock
      else session).room = if some room = session.room then none else session.room := by
    intro room
    by_cases inside : session.room = some room
    · rw [if_pos inside, if_pos inside.symm]
      rfl
    · rw [if_neg inside, if_neg (Ne.symm inside)]
  cases event with
  | roomDeleted room => exact about room
  | kickedFromRoom actor room => exact about room
  | _ => cases inside : session.room <;> exact inside

variable {session}

theorem Agrees.serverEvent (agrees : session.Agrees) (event : Event) :
    (session.serverEvent event clock).Agrees := by
  have about : ∀ room, (if session.room = some room then session.putOutOfRoom clock
      else session).Agrees := by
    intro room
    split
    · exact agrees_putOutOfRoom session clock
    · exact agrees
  cases event with
  | roomDeleted room => exact about room
  | kickedFromRoom actor room => exact about room
  | _ => exact agrees

@[simp] theorem room_engineEvent (event : Event) :
    (session.engineEvent event clock).room = session.room := by
  cases event <;> rfl

theorem Agrees.engineEvent (agrees : session.Agrees) (event : Event) :
    (session.engineEvent event clock).Agrees := by
  cases event with
  | peersChanged room epoch peers => exact (room_perform _ clock fun _ _ _ _ => by nofun).trans agrees
  | senderKeyPublished sender epoch wrapped =>
    exact (room_perform _ clock fun _ _ _ _ => by nofun).trans agrees
  | presenceChanged presence => exact (room_perform _ clock fun _ _ _ _ => by nofun).trans agrees
  | presenceEnded user => exact (room_perform _ clock fun _ _ _ _ => by nofun).trans agrees
  | _ => exact agrees

theorem start_agrees (welcome : Welcome) (keys : KeyManager crypto) (clock : Clock)
    (outside : keys.room = none) :
    (start welcome keys clock).Agrees ∧
      (start welcome keys clock).room = welcome.placement.room := by
  unfold start
  dsimp only
  generalize shown : welcome.presence.foldl _ keys = placed
  split
  · exact ⟨agrees_joined _ clock welcome.placement, rfl⟩
  · rename_i lobby
    have still : placed.room = none := by
      rw [← shown, ← outside]
      refine @List.foldlRecOn _ _ (fun shown : KeyManager crypto => shown.room = keys.room)
        welcome.presence _ _ rfl ?_
      exact fun _ same _ _ => (room_perform _ clock fun _ _ _ _ => by nofun).trans same
    exact ⟨still, (Option.not_isSome_iff_eq_none.mp lobby).symm⟩

end ClientSession

/-! ### Settling in a room -/

theorem settle_eq_some {inside : Option RoomId} {events : List Event} {room : RoomId} :
    settle inside events = some room ↔
      inside = some room ∧ ∀ event ∈ events, event.out ≠ some room := by
  induction events generalizing inside with
  | nil => simp [settle]
  | cons event rest inductionHypothesis =>
    show settle (if event.out = inside then none else inside) rest = some room ↔ _
    rw [inductionHypothesis, List.forall_mem_cons]
    constructor
    · rintro ⟨still, later⟩
      split at still
      · cases still
      · rename_i other
        exact ⟨still, fun out => other (out.trans still.symm), later⟩
    · rintro ⟨rfl, other, later⟩
      exact ⟨if_neg other, later⟩

/-! ### Where a connection starts -/

namespace Hub

open Attempt

theorem room_startingPlacement (hub : Hub) (user : UserId) (wantRoom : Option RoomId)
    (clock : Clock) (outside : hub.core.roomOf user = none) :
    (hub.startingPlacement user wantRoom clock).1.room =
      (hub.startingPlacement user wantRoom clock).2.core.roomOf user := by
  unfold startingPlacement
  split
  · exact outside.symm
  rename_i room wanted
  dsimp only
  unfold rejoin
  generalize (if hub.lastJoined.lookup user = some room then Allowance.rejoins
    else Allowance.roomChanges) = allowance
  have idle : Idle clock hub (hub.holdsIn allowance user 1 clock.now).2 :=
    (Idle.refl hub).withAllowance _ _
  dsimp only
  generalize (hub.holdsIn allowance user 1 clock.now).2 = held at idle ⊢
  have ends := place_ends idle user (some room)
  split
  · split
    · rename_i placement after same
      obtain ⟨⟨there, _⟩, _⟩ := ends.of_ok same
      rw [Option.getD_some, there]
      rfl
    · rename_i refusal after same
      obtain core | ⟨_, core⟩ := (ends.of_error same).1.core <;>
      · rw [core]
        exact outside.symm
  · rw [idle.core, outside]
    rfl

/-- A welcome says where its user is. -/
theorem room_welcome (hub : Hub) (row : UserRow) (wantRoom : Option RoomId) (clock : Clock) :
    (hub.welcome row wantRoom clock).1.2.placement.room =
      (hub.welcome row wantRoom clock).2.core.roomOf row.id := by
  have outside : ((hub.evict row.id "you signed in from somewhere else" clock).openSession
      row).core.roomOf row.id = none := by
    rw [core_openSession]
    show ((Finmap.insert row.id _ _).lookup row.id).bind _ = none
    rw [Finmap.lookup_insert]
    rfl
  have starts := room_startingPlacement _ row.id wantRoom clock outside
  show _ = (profileOrDefault _).2.core.roomOf row.id
  rw [core_profileOrDefault]
  exact starts

/-- A connection that is let in starts where its welcome puts it. -/
theorem connect_starts (hub : Hub) (row : UserRow) (wantRoom : Option RoomId) (clock : Clock) :
    (connect row wantRoom clock).Ends
      (fun result after => ∀ signedIn, result = .ok signedIn →
        after.core.roomOf signedIn.2.me = signedIn.2.placement.room)
      (fun _ _ => True) hub := by
  have idle : Idle clock hub hub := Idle.refl hub
  refine .bind (idle.read_ends (fun after idle => ?_) fun _ _ => trivial)
  split
  · exact .pure nofun
  · rename_i current found
    refine .bind (idle.write_ends (fun between idle => .bind (.current ?_)) fun _ _ => trivial)
    split
    · exact .pure nofun
    · refine .map (.take ?_)
      intro signedIn same
      obtain rfl := Except.ok.inj same
      exact (room_welcome _ current wantRoom clock).symm

end Hub

/-! ### What the server answers -/

namespace Server

variable (primitives : Primitives)

/-- The answer that a step of the server gives to the request it serves or finishes. -/
def answer (server : Server) (input : Input) : Option (Except Refusal Response) :=
  match input.action with
  | .request user conn request =>
    match (Hub.dispatch primitives user conn request input.draws input.clock
      (server.working input)).1 with
    | .ok (.done response) => some (.ok response)
    | .ok (.pending _) => none
    | .error refusal => some (.error refusal)
  | .finish index hashed => server.pending[index]?.map fun pending =>
      (Hub.finish pending.user pending.conn (pending.work.run primitives hashed) input.clock
        (server.working input)).1
  | _ => none

/-- What an answer, or none yet, tells of where its user is. They are told of no room they are
out of. -/
def Places (user : UserId) (before : Hub) (answer : Option (Except Refusal Response))
    (after : Hub) : Prop :=
  before.Hushed after ∧
    match answer with
    | some (.ok (.placement placement)) => after.core.roomOf user = placement.room
    | _ => after.sits user = before.sits user

variable {server : Server} {input : Input} {user : UserId} {conn : ConnId}

theorem places_of_answers {answer : Except Refusal Response} {after : Hub}
    (answers : Hub.Answers user (server.working input) answer after) :
    Places user server.hub (some answer) after := by
  obtain ⟨hushed, place⟩ := answers
  refine ⟨hushed, ?_⟩
  cases answer with
  | error refusal => exact place
  | ok response => cases response <;> exact place

/-- A session that asks to move is told of no room it is out of, and its answer says where it
is. Without an answer nobody moves. -/
theorem step_places (serves : server.ServesMove user conn input) :
    Places user server.hub (server.answer primitives input) (step primitives server input).hub := by
  unfold ServesMove at serves
  cases action : input.action with
  | request asker origin request =>
    rw [action] at serves
    obtain ⟨rfl, rfl, asks⟩ := serves
    have ends := @Hub.dispatch_answers asker origin (server.working input) primitives request
      input.draws input.clock asks
    rw [hub_step_request primitives server input action]
    unfold answer
    rw [action]
    dsimp only
    unfold Attempt.Ends at ends
    generalize Hub.dispatch primitives asker origin request input.draws input.clock
      (server.working input) = outcome at ends
    obtain ⟨result, after⟩ := outcome
    cases result with
    | error refusal => exact places_of_answers ends
    | ok handled =>
      cases handled with
      | done response => exact places_of_answers ends
      | pending work => exact ends.2
  | finish index hashed =>
    rw [action] at serves
    obtain ⟨pending, found, rfl, rfl, room, password, hash, work⟩ := serves
    have found : server.pending[index]? = some pending := found
    rw [hub_step_finish primitives server input action found]
    unfold answer
    rw [action]
    dsimp only
    rw [found]
    dsimp only [Option.map_some]
    rw [work]
    have ends := @Hub.finish_answers pending.user pending.conn (server.working input) room hash
      (primitives.passwordMatches password hash) input.clock
    unfold Attempt.Ends at ends
    dsimp only [PasswordWork.run]
    generalize Hub.finish pending.user pending.conn (.join room hash _) input.clock
      (server.working input) = outcome at ends
    obtain ⟨result, after⟩ := outcome
    cases result with
    | error refusal => exact places_of_answers ends
    | ok response => exact places_of_answers ends
  | _ =>
    rw [action] at serves
    exact serves.elim

end Server

def PasswordWork.isJoin : PasswordWork → Bool
  | .join _ _ _ => true
  | _ => false

theorem PasswordWork.isJoin_iff {work : PasswordWork} :
    work.isJoin = true ↔ ∃ room password hash, work = .join room password hash := by
  cases work with
  | join room password hash => exact iff_of_true rfl ⟨room, password, hash, rfl⟩
  | createRoom name password => exact iff_of_false nofun fun ⟨_, _, _, same⟩ => nomatch same
  | setRoomPassword room password => exact iff_of_false nofun fun ⟨_, _, _, same⟩ => nomatch same

/-- The step serves a request of this session to move, or finishes one. -/
def Server.moves (server : Server) (user : UserId) (conn : ConnId) (input : Input) : Bool :=
  match input.action with
  | .request asker origin request => asker = user ∧ origin = conn ∧ Hub.asksToMove request = true
  | .finish index _ => server.pending[index]?.any fun pending =>
      pending.user = user ∧ pending.conn = conn ∧ pending.work.isJoin = true
  | _ => false

theorem Server.moves_iff {server : Server} {input : Input} {user : UserId} {conn : ConnId} :
    server.moves user conn input = true ↔ server.ServesMove user conn input := by
  unfold moves ServesMove
  cases input.action with
  | request asker origin request => exact decide_eq_true_iff
  | finish index hashed =>
    dsimp only
    rw [Option.any_eq_true]
    refine exists_congr fun pending => and_congr_right fun _ => ?_
    rw [decide_eq_true_iff, PasswordWork.isJoin_iff]
  | _ => exact Bool.false_eq_true.to_iff

/-! ### A session and its server -/

/-- A server and one session of it, with what is on its way between them. -/
structure Dialogue (crypto : Crypto) where
  server : Server
  session : ClientSession crypto
  /-- How many of the events sent to the connection the media engine has taken. -/
  taken : Nat
  /-- How many of them the session has heard. -/
  heard : Nat
  /-- The requests to move that the server has yet to read. -/
  line : List Request := []
  /-- The server works on the password of the request it read last. -/
  working : Bool := false
  /-- The session awaits the answer to its last request to move. -/
  awaits : Bool := false
  /-- How many requests the session has given up on that the server is yet to answer. -/
  abandoned : Nat := 0
  /-- The answer to the request the session awaits, on its way to it. -/
  reply : Option (Except Refusal Response) := none

namespace Dialogue

inductive Input (crypto : Crypto) where
  | ask (request : Request)
  | serve (input : Throcc.Input)
  | take (clock : Clock)
  | hear (clock : Clock)
  | join (clock : Clock)
  | giveUp
  | use (clock : Clock) (op : KeyOp crypto)

/-- An answer reaches the session unless it has given up on that request. -/
def deliver (dialogue : Dialogue crypto) (answer : Option (Except Refusal Response)) :
    Dialogue crypto :=
  match answer with
  | none => dialogue
  | some answer =>
    if dialogue.abandoned = 0 then { dialogue with reply := some answer }
    else { dialogue with abandoned := dialogue.abandoned - 1 }

/-- Whether it is the turn of this request to move, or of this password work. The server reads
requests in order and none while it works on the last one's password. -/
def inTurn (dialogue : Dialogue crypto) (action : Action) : Bool :=
  match action with
  | .request _ _ request => dialogue.line.head? = some request ∧ dialogue.working = false
  | _ => dialogue.working

variable (primitives : Primitives) (user : UserId) (conn : ConnId)

/-- A step of the server. A request of the session to move is served in its turn. -/
def serve (dialogue : Dialogue crypto) (input : Throcc.Input) : Dialogue crypto :=
  let next := { dialogue with server := dialogue.server.step primitives input }
  if dialogue.server.moves user conn input then
    if dialogue.inTurn input.action then
      let answer := dialogue.server.answer primitives input
      let line := if dialogue.working then dialogue.line else dialogue.line.tail
      { next with line, working := answer.isNone }.deliver answer
    else
      dialogue
  else
    next

/-- What happens while the session's connection is there. -/
def act (dialogue : Dialogue crypto) (input : Input crypto) : Dialogue crypto :=
  let events := dialogue.server.hub.sentTo conn
  match input with
  | .ask request =>
    if Hub.asksToMove request ∧ dialogue.awaits = false then
      { dialogue with line := dialogue.line ++ [request], awaits := true }
    else
      dialogue
  | .serve input => dialogue.serve primitives user conn input
  | .take clock =>
    match events[dialogue.taken]? with
    | none => dialogue
    | some event =>
      { dialogue with
        session := dialogue.session.engineEvent event clock
        taken := dialogue.taken + 1 }
  | .hear clock =>
    if dialogue.heard < dialogue.taken ∧ dialogue.awaits = false then
      match events[dialogue.heard]? with
      | none => dialogue
      | some event =>
        { dialogue with
          session := dialogue.session.serverEvent event clock
          heard := dialogue.heard + 1 }
    else
      dialogue
  | .join clock =>
    match dialogue.reply with
    | none => dialogue
    | some (.ok (.placement placement)) =>
      { dialogue with
        session := dialogue.session.joined placement clock
        awaits := false
        reply := none }
    | some _ => { dialogue with awaits := false, reply := none }
  | .giveUp =>
    if dialogue.awaits then
      { dialogue with
        awaits := false
        abandoned := dialogue.abandoned + if dialogue.reply.isSome then 0 else 1
        reply := none }
    else
      dialogue
  | .use clock op =>
    if op.applies then dialogue
    else
      { dialogue with
        session := { dialogue.session with keys := (dialogue.session.keys.perform clock op).2 } }

/-- Once another connection has taken its place or it has ended, nothing more happens here. -/
def step (dialogue : Dialogue crypto) (input : Input crypto) : Dialogue crypto :=
  if dialogue.server.hub.isCurrent user conn then dialogue.act primitives user conn input
  else dialogue

/-- A session that has just been welcomed, and the server before and after. What the log holds
for a connection of this number is an older one's, from before a restart. -/
def start (before after : Server) (welcome : Welcome) (keys : KeyManager crypto) (clock : Clock) :
    Dialogue crypto where
  server := after
  session := .start welcome keys clock
  taken := (before.hub.sentTo conn).length
  heard := (before.hub.sentTo conn).length

/-- The server lets the session into a room that it is yet to hear it is out of. -/
def Overtakes (dialogue : Dialogue crypto) (input : Throcc.Input) : Prop :=
  ∃ event ∈ (dialogue.server.hub.sentTo conn).drop dialogue.heard, ∃ room ∈ event.out,
    dialogue.server.hub.core.Enters (dialogue.server.step primitives input).hub.core user room

instance (dialogue : Dialogue crypto) (input : Throcc.Input) :
    Decidable (dialogue.Overtakes primitives user conn input) :=
  inferInstanceAs (Decidable (∃ _ ∈ _, _))

/-- What strands a session in another room than the server has it in: the server's answer
overtakes that it is out of the room it now enters, a deletion is cut off after moving it, or it
gives up on a request to move. -/
def Strands (dialogue : Dialogue crypto) (input : Input crypto) : Prop :=
  match input with
  | .serve input =>
    dialogue.Overtakes primitives user conn input ∨ dialogue.server.CutsOff user input
  | .giveUp => dialogue.awaits = true
  | _ => False

/-! ### What holds while the session's connection is there -/

/-- The room a session goes to that was in another and gets an answer, if it gets one. -/
def landing (inside : Option RoomId) : Option (Except Refusal Response) → Option RoomId
  | some (.ok (.placement placement)) => placement.room
  | _ => inside

/-- The events the session is yet to hear take it to where the server has it. -/
structure Sound (dialogue : Dialogue crypto) : Prop where
  agrees : dialogue.session.Agrees
  kept : dialogue.abandoned = 0
  one : dialogue.line.length + dialogue.working.toNat + dialogue.reply.toList.length =
    dialogue.awaits.toNat
  settles : ∀ room, dialogue.server.hub.sits user = some (conn, room) →
    dialogue.heard ≤ (dialogue.server.hub.sentTo conn).length ∧
      settle (landing dialogue.session.room dialogue.reply)
        ((dialogue.server.hub.sentTo conn).drop dialogue.heard) = room

variable {primitives user conn} {dialogue : Dialogue crypto}

theorem settle_drop_append {inside room : Option RoomId} {events more : List Event} {heard : Nat}
    (within : heard ≤ events.length) (settled : settle inside (events.drop heard) = room) :
    settle inside ((events ++ more).drop heard) = settle room more := by
  rw [List.drop_append_of_le_length within, settle_append, settled]

/-- The session hears one more event. -/
theorem settle_hear {inside : Option RoomId} {events : List Event} {heard : Nat} {event : Event}
    (next : events[heard]? = some event) :
    settle inside (events.drop heard) =
      settle (if event.out = inside then none else inside) (events.drop (heard + 1)) := by
  obtain ⟨bound, rfl⟩ := List.getElem?_eq_some_iff.mp next
  rw [List.drop_eq_getElem_cons bound]
  rfl

/-- What the server does on its own it tells the session. -/
theorem Sound.told (sound : dialogue.Sound user conn) (orderly : dialogue.server.hub.core.Orderly)
    (input : Throcc.Input) (was : dialogue.server.hub.isCurrent user conn = true)
    (other : ¬ dialogue.server.ServesMove user conn input)
    (whole : ¬ dialogue.server.CutsOff user input) :
    ({ dialogue with server := dialogue.server.step primitives input } : Dialogue crypto).Sound
      user conn where
  agrees := sound.agrees
  kept := sound.kept
  one := sound.one
  settles room is := by
    obtain ⟨room', was'⟩ := Hub.isCurrent_iff.mp was
    obtain ⟨within, settled⟩ := sound.settles room' was'
    obtain ⟨events, sent, there⟩ := Server.step_told primitives dialogue.server orderly input was
      other whole room' room was' is
    dsimp only at is ⊢
    rw [sent]
    refine ⟨within.trans ?_, (settle_drop_append within settled).trans there⟩
    rw [List.length_append]
    exact Nat.le_add_right _ _

theorem sits_of_not_enters {before after : Hub} {room : RoomId} (seated : before.core.Seated)
    (seated' : after.core.Seated) (still : ¬ before.core.Enters after.core user room)
    (is : after.sits user = some (conn, some room)) : before.core.roomOf user = some room := by
  have inside := (seated'.member user room).mp (Hub.roomOf_of_sits is)
  refine (seated.member user room).mpr ?_
  by_contra outside
  exact still ⟨inside, fun before => absurd before outside⟩

/-- An answer lands the session where the server has it, if it overtakes no event about a room
it enters. -/
theorem settles_answer {before after : Hub} {answer : Option (Except Refusal Response)}
    {inside room room' : Option RoomId} {heard : Nat} (seated : before.core.Seated)
    (seated' : after.core.Seated) (places : Server.Places user before answer after)
    (clear : ∀ room, before.core.Enters after.core user room →
      ∀ event ∈ (before.sentTo conn).drop heard, event.out ≠ some room)
    (was : before.sits user = some (conn, room)) (is : after.sits user = some (conn, room'))
    (within : heard ≤ (before.sentTo conn).length)
    (settled : settle inside ((before.sentTo conn).drop heard) = room) :
    heard ≤ (after.sentTo conn).length ∧
      settle (landing inside answer) ((after.sentTo conn).drop heard) = room' := by
  obtain ⟨hushed, place⟩ := places
  obtain ⟨events, sent, quiet⟩ := hushed.sentTo conn
  rw [sent]
  refine ⟨within.trans ?_, ?_⟩
  · rw [List.length_append]
    exact Nat.le_add_right _ _
  rw [settle_drop_append within rfl, settle_quiet quiet]
  by_cases placed : ∃ placement, answer = some (.ok (.placement placement))
  · obtain ⟨placement, rfl⟩ := placed
    have there : placement.room = room' := place.symm.trans (Hub.roomOf_of_sits is)
    show settle placement.room _ = room'
    rw [there]
    cases room' with
    | none => exact settle_none _
    | some room' =>
      refine settle_eq_some.mpr ⟨rfl, ?_⟩
      by_cases enters : before.core.Enters after.core user room'
      · exact clear room' enters
      · have stayed := sits_of_not_enters seated seated' enters is
        rw [Hub.roomOf_of_sits was] at stayed
        exact (settle_eq_some.mp (settled.trans stayed)).2
  · have still : after.sits user = before.sits user := by
      split at place
      · exact absurd ⟨_, rfl⟩ placed
      · exact place
    have same : room = room' := congrArg Prod.snd (Option.some.inj (was.symm.trans (still.symm.trans is)))
    have lands : landing inside answer = inside := by
      unfold landing
      split
      · exact absurd ⟨_, rfl⟩ placed
      · rfl
    rw [lands, settled, same]

theorem deliver_of_kept (kept : dialogue.abandoned = 0)
    (answer : Option (Except Refusal Response)) :
    dialogue.deliver answer = { dialogue with reply := answer.or dialogue.reply } := by
  cases answer with
  | none => rfl
  | some answer =>
    unfold deliver
    dsimp only
    rw [if_pos kept]
    rfl

theorem server_deliver (answer : Option (Except Refusal Response)) :
    (dialogue.deliver answer).server = dialogue.server := by
  unfold deliver
  split
  · rfl
  · split
    · rfl
    · rfl

/-- The request that is served is the only one under way. -/
theorem Sound.turn (sound : dialogue.Sound user conn) {action : Action}
    (turn : dialogue.inTurn action = true) :
    dialogue.reply = none ∧
      (if dialogue.working then dialogue.line else dialogue.line.tail).length + 1 =
        dialogue.awaits.toNat := by
  have one := sound.one
  have awaits : dialogue.awaits.toNat ≤ 1 := Bool.toNat_le _
  have under : 1 ≤ (if dialogue.working then dialogue.line else dialogue.line.tail).length + 1 ∧
      dialogue.line.length + dialogue.working.toNat =
        (if dialogue.working then dialogue.line else dialogue.line.tail).length + 1 := by
    refine ⟨Nat.le_add_left _ _, ?_⟩
    by_cases working : dialogue.working = true
    · rw [if_pos working, working]
      rfl
    · rw [if_neg working, Bool.not_eq_true _ |>.mp working]
      unfold inTurn at turn
      cases action with
      | request asker origin request =>
        obtain ⟨head, _⟩ := of_decide_eq_true turn
        obtain ⟨rest, same⟩ := List.head?_eq_some_iff.mp head
        rw [same]
        rfl
      | _ => exact absurd turn working
  have none : dialogue.reply.toList.length = 0 := by omega
  refine ⟨?_, by omega⟩
  cases answer : dialogue.reply with
  | none => rfl
  | some answer =>
    rw [answer] at none
    cases none

/-- The server answers a request of the session to move, or sets about its password. -/
theorem Sound.served (sound : dialogue.Sound user conn)
    (consistent : dialogue.server.hub.core.Consistent) (input : Throcc.Input)
    (was : dialogue.server.hub.isCurrent user conn = true)
    (moves : dialogue.server.moves user conn input = true)
    (clear : ¬ dialogue.Strands primitives user conn (.serve input)) :
    (dialogue.serve primitives user conn input).Sound user conn := by
  unfold serve
  dsimp only
  rw [if_pos moves]
  split
  · rename_i turn
    obtain ⟨none, one⟩ := sound.turn turn
    obtain ⟨room', was'⟩ := Hub.isCurrent_iff.mp was
    obtain ⟨within, settled⟩ := sound.settles room' was'
    rw [none] at settled
    rw [deliver_of_kept]
    rotate_left
    · exact sound.kept
    dsimp only
    rw [none, Option.or_none]
    refine ⟨sound.agrees, sound.kept, ?_, fun room is => ?_⟩
    · dsimp only
      rw [← one, Nat.add_assoc]
      cases dialogue.server.answer primitives input <;> rfl
    · refine settles_answer consistent.seated ?_
        (Server.step_places primitives (Server.moves_iff.mp moves))
        (fun room enters event member out => ?_) was' is within settled
      · exact (consistent.steps (dialogue.server.steps primitives consistent.toOrderly input)).seated
      · exact clear (.inl ⟨event, member, room, out, enters⟩)
  · exact sound

theorem Sound.act (sound : dialogue.Sound user conn)
    (consistent : dialogue.server.hub.core.Consistent) {input : Input crypto}
    (was : dialogue.server.hub.isCurrent user conn = true)
    (clear : ¬ dialogue.Strands primitives user conn input) :
    (dialogue.act primitives user conn input).Sound user conn := by
  cases input with
  | ask request =>
    unfold Dialogue.act
    dsimp only
    split
    · rename_i asks
      refine ⟨sound.agrees, sound.kept, ?_, sound.settles⟩
      have one := sound.one
      rw [asks.2, Bool.toNat_false] at one
      dsimp only
      rw [List.length_append, List.length_singleton, Bool.toNat_true]
      omega
    · exact sound
  | serve input =>
    by_cases moves : dialogue.server.moves user conn input = true
    · exact sound.served consistent input was moves clear
    · show (dialogue.serve primitives user conn input).Sound user conn
      unfold serve
      dsimp only
      rw [if_neg moves]
      exact sound.told consistent.toOrderly input was (fun serves => moves (Server.moves_iff.mpr serves))
        fun cut => clear (.inr cut)
  | take clock =>
    unfold Dialogue.act
    dsimp only
    split
    · exact sound
    · refine ⟨sound.agrees.engineEvent clock _, sound.kept, sound.one, ?_⟩
      dsimp only
      rw [ClientSession.room_engineEvent]
      exact sound.settles
  | hear clock =>
    unfold Dialogue.act
    dsimp only
    split
    · rename_i idle
      split
      · exact sound
      · rename_i event next
        refine ⟨sound.agrees.serverEvent clock event, sound.kept, sound.one, fun room is => ?_⟩
        obtain ⟨_, settled⟩ := sound.settles room is
        have none : dialogue.reply = none := by
          have one := sound.one
          rw [idle.2, Bool.toNat_false] at one
          rw [← Option.toList_eq_nil_iff, ← List.length_eq_zero_iff]
          omega
        refine ⟨(List.getElem?_eq_some_iff.mp next).1, ?_⟩
        dsimp only
        rw [none] at settled ⊢
        show settle (ClientSession.serverEvent _ _ _).room _ = room
        rw [ClientSession.room_serverEvent, ← settle_hear next]
        exact settled
    · exact sound
  | join clock =>
    have arrived : dialogue.reply.isSome = true →
        dialogue.line.length + dialogue.working.toNat + ([] : List (Except Refusal Response)).length =
          false.toNat := by
      intro some
      have one := sound.one
      have awaits : dialogue.awaits.toNat ≤ 1 := Bool.toNat_le _
      obtain ⟨answer, same⟩ := Option.isSome_iff_exists.mp some
      rw [same, Option.toList_some, List.length_singleton] at one
      rw [List.length_nil, Bool.toNat_false]
      omega
    unfold Dialogue.act
    dsimp only
    split
    · exact sound
    · rename_i placement reply
      refine ⟨ClientSession.agrees_joined _ clock placement, sound.kept, ?_, fun room is => ?_⟩
      · exact arrived (by rw [reply]; rfl)
      · have settles := sound.settles room is
        rw [reply] at settles
        exact settles
    · rename_i answer other reply
      refine ⟨sound.agrees, sound.kept, arrived (by rw [reply]; rfl), fun room is => ?_⟩
      have settles := sound.settles room is
      rw [reply] at settles
      have lands : landing dialogue.session.room (some answer) = dialogue.session.room := by
        unfold landing
        split
        · rename_i placement same
          exact absurd (Option.some.inj same) (other placement)
        · rfl
      rw [lands] at settles
      exact settles
  | giveUp =>
    unfold Dialogue.act
    dsimp only
    exact (if_neg clear).symm ▸ sound
  | use clock op =>
    unfold Dialogue.act
    dsimp only
    split
    · exact sound
    · rename_i idle
      refine ⟨(ClientSession.room_perform _ clock ?_).trans sound.agrees, sound.kept, sound.one,
        sound.settles⟩
      rintro room epoch tracks peers rfl
      exact idle rfl

theorem consistent_act (consistent : dialogue.server.hub.core.Consistent) (input : Input crypto) :
    (dialogue.act primitives user conn input).server.hub.core.Consistent := by
  unfold act
  cases input with
  | serve input =>
    have next := consistent.steps (dialogue.server.steps primitives consistent.toOrderly input)
    dsimp only
    unfold serve
    dsimp only
    split
    · split
      · rw [server_deliver]
        exact next
      · exact consistent
    · exact next
  | _ =>
    dsimp only
    repeat' split
    all_goals exact consistent

/-- A session that is welcomed starts in the room the server put it in. -/
theorem sound_start {before : Server} {welcome : Welcome} {row : UserRow}
    {wantRoom : Option RoomId} {input : Throcc.Input} {keys : KeyManager crypto} {clock : Clock}
    (outside : keys.room = none) (action : input.action = .connect row wantRoom)
    (accepted : (Hub.connect row wantRoom input.clock (before.working input)).1 =
      .ok (.ok (conn, welcome))) :
    (start conn before (before.step primitives input) welcome keys clock).Sound welcome.me conn := by
  obtain ⟨agrees, there⟩ := ClientSession.start_agrees welcome keys clock outside
  have same : (before.step primitives input).hub =
      (Hub.connect row wantRoom input.clock (before.working input)).2 := by
    unfold Server.step Server.working
    dsimp only
    rw [action]
  refine ⟨agrees, rfl, rfl, fun room is => ?_⟩
  have quiet := @Hub.keeps_connect (fun _ => True) row wantRoom input.clock (fun _ => trivial)
    (before.working input)
  have starts := Hub.connect_starts (before.working input) row wantRoom input.clock
  unfold Attempt.Ends at starts
  obtain ⟨events, sent, silent⟩ := quiet.hushed.sentTo conn
  dsimp only [start] at is ⊢
  rw [same] at is ⊢
  generalize Hub.connect row wantRoom input.clock (before.working input) = outcome at *
  obtain ⟨result, hub⟩ := outcome
  dsimp only at accepted sent is ⊢
  subst accepted
  have began : (before.working input).sentTo conn = before.hub.sentTo conn := rfl
  rw [sent, began, List.length_append, List.drop_left]
  refine ⟨Nat.le_add_right _ _, (settle_quiet silent _).trans ?_⟩
  rw [← Hub.roomOf_of_sits is, starts (conn, welcome) rfl]
  exact there

variable (primitives) in
/-- A session that isn't stranded is in the room the server has it in, and so are its keys, once
it awaits no answer and has heard what it was sent. -/
theorem run_rooms (fingerprint : Fingerprint) (clock : Clock) (earlier : List Throcc.Input)
    {input : Throcc.Input} {row : UserRow} {wantRoom : Option RoomId} {conn : ConnId}
    {welcome : Welcome} (keys : KeyManager crypto) (started : Clock)
    (action : input.action = .connect row wantRoom)
    (accepted : (Hub.connect row wantRoom input.clock ((run (Server.step primitives)
      (Server.fresh fingerprint clock) earlier).working input)).1 = .ok (.ok (conn, welcome)))
    (outside : keys.room = none) (inputs : List (Input crypto)) :
    let server := run (Server.step primitives) (Server.fresh fingerprint clock) earlier
    let first := start conn server (server.step primitives input) welcome keys started
    Along (step primitives welcome.me conn)
      (fun dialogue input => ¬ dialogue.Strands primitives welcome.me conn input) first inputs →
    let dialogue := run (step primitives welcome.me conn) first inputs
    ∀ room, dialogue.server.hub.sits welcome.me = some (conn, room) → dialogue.awaits = false →
      (dialogue.server.hub.sentTo conn).length ≤ dialogue.heard →
      dialogue.session.room = room ∧ dialogue.session.keys.room = room := by
  intro server first along dialogue
  have consistent := Server.run_consistent primitives fingerprint clock earlier
  have sound : dialogue.Sound welcome.me conn ∧ dialogue.server.hub.core.Consistent := by
    refine along.invariant (fun dialogue => dialogue.Sound welcome.me conn ∧
      dialogue.server.hub.core.Consistent) ⟨sound_start outside action accepted, ?_⟩ ?_
    · exact consistent.steps (server.steps primitives consistent.toOrderly input)
    · rintro dialogue input ⟨sound, consistent⟩ clear
      unfold step
      split
      · rename_i was
        exact ⟨sound.act consistent was clear, consistent_act consistent input⟩
      · exact ⟨sound, consistent⟩
  intro room is idle heard
  obtain ⟨_, settled⟩ := sound.1.settles room is
  have none : dialogue.reply = none := by
    have one := sound.1.one
    rw [idle, Bool.toNat_false] at one
    rw [← Option.toList_eq_nil_iff, ← List.length_eq_zero_iff]
    omega
  rw [none, List.drop_eq_nil_of_le heard] at settled
  exact ⟨settled, sound.1.agrees.trans settled⟩

/-! ### A kick and a return -/

variable (primitives user conn) in
/-- No room is deleted, no answer overtakes an event and the session gives up on no request. -/
def calm (dialogue : Dialogue crypto) : Input crypto → Bool
  | .serve input =>
    (match input.action with
      | .request _ _ (.deleteRoom _) => false
      | _ => true) && decide (¬ dialogue.Overtakes primitives user conn input)
  | .giveUp => !dialogue.awaits
  | _ => true

theorem not_strands_of_calm {input : Input crypto}
    (calm : dialogue.calm primitives user conn input = true) :
    ¬ dialogue.Strands primitives user conn input := by
  cases input with
  | serve input =>
    obtain ⟨whole, clear⟩ := Bool.and_eq_true_iff.mp calm
    rintro (overtakes | cut)
    · exact of_decide_eq_true clear overtakes
    · unfold Server.CutsOff Hub.CutOff at cut
      split at cut
      · rename_i asker origin request action
        split at cut
        · rw [action] at whole
          cases whole
        · exact cut
      · exact cut
  | giveUp =>
    intro awaits
    have awaits : dialogue.awaits = true := awaits
    unfold Dialogue.calm at calm
    rw [awaits] at calm
    cases calm
  | _ => exact id

/-- A first user has created a room and invited a second. -/
def invited : List Throcc.Input :=
  Server.adminSignsIn ++
    [Server.atOnce (.request 1 1 (.createRoom "room" none)),
      Server.atOnce (.request 1 1 .createInvite), Server.atOnce (.claimTry "000"),
      Server.atOnce (.enroll 8 "000" "user" 1), Server.atOnce (.endRun "000" (some 1))]

/-- What the second user is welcomed with. -/
def plainWelcome : Welcome where
  me := 2
  role := .user
  rooms := [⟨1, "room", false⟩]
  presence := []
  placement := lobby
  server := {}
  profile := ⟨"user", none⟩

/-- The second user signs in. -/
def signedIn : Dialogue openCrypto :=
  let server := run (Server.step Server.openPrimitives) (Server.fresh 0 ⟨0, 0⟩) invited
  start 2 server (server.step Server.openPrimitives (Server.atOnce (.connect Server.plainUser none)))
    plainWelcome (openKeys 2 {}) ⟨fromSecs 1, 1⟩

def serveAtOnce (action : Action) : Input openCrypto := .serve (Server.atOnce action)

/-- The second user enters the room and is kicked from it. -/
def kickedOut : List (Input openCrypto) :=
  [serveAtOnce (.request 2 2 (.setEncryptionKey ⟨1, 1000, 0⟩)), .ask (.joinRoom 1 none),
    serveAtOnce (.request 2 2 (.joinRoom 1 none)), .join ⟨fromSecs 1, 1⟩,
    serveAtOnce (.request 1 1 (.kickFromRoom 2 1))]

/-- The session enters the room again. -/
def comesBack : List (Input openCrypto) :=
  [.ask (.joinRoom 1 none), serveAtOnce (.request 2 2 (.joinRoom 1 none)), .join ⟨fromSecs 1, 1⟩]

/-- The session hears some events. -/
def hears (count : Nat) : List (Input openCrypto) :=
  List.replicate count (.take ⟨fromSecs 1, 1⟩) ++ List.replicate count (.hear ⟨fromSecs 1, 1⟩)

theorem run_rooms_comesBack :
    let dialogue := run (step Server.openPrimitives plainWelcome.me 2) signedIn
      (kickedOut ++ hears 3 ++ comesBack ++ hears 1)
    dialogue.session.room = some 1 ∧ dialogue.session.keys.room = some 1 := by
  have accepted : (Hub.connect Server.plainUser none ⟨fromSecs 1, 1⟩
      ((run (Server.step Server.openPrimitives) (Server.fresh 0 ⟨0, 0⟩) invited).working
        (Server.atOnce (.connect Server.plainUser none)))).1 = .ok (.ok (2, plainWelcome)) := by
    decide +kernel
  have along : Along (step Server.openPrimitives plainWelcome.me 2)
      (fun dialogue input => dialogue.calm Server.openPrimitives plainWelcome.me 2 input = true)
      signedIn (kickedOut ++ hears 3 ++ comesBack ++ hears 1) := by decide +kernel
  have rooms := @run_rooms openCrypto Server.openPrimitives 0 ⟨0, 0⟩ invited
    (Server.atOnce (.connect Server.plainUser none)) Server.plainUser none 2 plainWelcome
    (openKeys 2 {}) ⟨fromSecs 1, 1⟩ rfl accepted rfl
    (kickedOut ++ hears 3 ++ comesBack ++ hears 1) (along.mono fun _ _ => not_strands_of_calm)
    (some 1)
  unfold signedIn
  dsimp only at rooms ⊢
  refine rooms ?_ ?_ ?_
  all_goals decide +kernel

/-- A session that comes back before it hears that it was kicked is put out again by that. -/
example :
    let dialogue := run (step Server.openPrimitives 2 2) signedIn (kickedOut ++ comesBack ++ hears 4)
    dialogue.server.hub.sits 2 = some (2, some 1) ∧
      (dialogue.server.hub.sentTo 2).length ≤ dialogue.heard ∧ dialogue.session.room = none := by
  decide +kernel

end Dialogue

end Throcc
