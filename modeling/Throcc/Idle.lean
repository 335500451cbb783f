/-
This file says when two hubs differ in nothing a refused request may change:
only in allowances, password guesses, publish counters and the coming faults of
the database, and in what the clean-ups of the database would delete anyway.

Every check an operation makes before its first change keeps a hub idle. Each
rule below is one such check: it asks for the rest of the operation from an
idle hub, with what the check has found out said of the core.
-/

import Throcc.Projection

namespace Throcc

namespace Hub

/-! ### Calls of the database -/

theorem call_of_fault {Result : Type} {statement : Database → Result × Database} {hub : Hub}
    (fails : hub.faults.head? = some true) :
    call statement hub = (.error .internal, { hub with faults := hub.faults.tail }) := by
  obtain ⟨faults, same⟩ := List.head?_eq_some_iff.mp fails
  unfold call
  rw [same]
  rfl

theorem call_of_no_fault {Result : Type} {statement : Database → Result × Database} {hub : Hub}
    (works : hub.faults.head? ≠ some true) :
    call statement hub =
      (.ok (statement hub.db).1,
        { hub with db := (statement hub.db).2, faults := hub.faults.tail }) := by
  unfold call
  split
  · rename_i faults same
    rw [same] at works
    exact absurd rfl works
  · rfl

theorem call_ends {Result : Type} {ok : Result → Hub → Prop} {failed : Refusal → Hub → Prop}
    {statement : Database → Result × Database} {hub : Hub}
    (onOk : hub.faults.head? ≠ some true → ok (statement hub.db).1
      { hub with db := (statement hub.db).2, faults := hub.faults.tail })
    (onError : hub.faults.head? = some true →
      failed .internal { hub with faults := hub.faults.tail }) :
    (call statement).Ends ok failed hub := by
  unfold Attempt.Ends
  by_cases fails : hub.faults.head? = some true
  · rw [call_of_fault fails]
    exact onError fails
  · rw [call_of_no_fault fails]
    exact onOk fails

/-! ### Idle hubs -/

/-- A hub without what comes and goes: its database cleaned up, and its allowances, guesses,
publish counters and coming faults reset. -/
def settled (clock : Clock) (hub : Hub) : Hub :=
  { hub with
    db :=
      (hub.db.purgeExpiredInvites clock.unixNow).deleteUnusedBlobs
        (clock.unixNow - unusedBlobGrace)
    sessions := hub.sessions.mapValues fun _ session => { session with keyPublishes := none }
    allowances := Allowance.unused
    guesses := {}
    faults := [] }

/-- Nothing has changed between two hubs but what comes and goes. -/
structure Idle (clock : Clock) (base hub : Hub) : Prop where
  same : hub.settled clock = base.settled clock

theorem core_settled (clock : Clock) (hub : Hub) : (hub.settled clock).core = hub.core := by
  have seats : (hub.settled clock).seats = hub.seats := by
    refine Finmap.ext_lookup fun user => ?_
    rw [seats_lookup, seats_lookup]
    unfold settled
    rw [Map.lookup_mapValues, Option.map_map]
    rfl
  exact congrArg (fun seats => Core.mk ⟨hub.rooms, seats⟩ _ _ _ _ _ _ _ _ _ _) seats

namespace Idle

open Attempt

variable {clock : Clock} {base hub : Hub} {Result : Type}

theorem refl (hub : Hub) : Idle clock hub hub := ⟨rfl⟩

theorem trans {after : Hub} (first : Idle clock base hub) (second : Idle clock hub after) :
    Idle clock base after := ⟨second.same.trans first.same⟩

theorem core (idle : Idle clock base hub) : hub.core = base.core := by
  rw [← core_settled clock hub, idle.same, core_settled]

theorem withFaults (idle : Idle clock base hub) (faults : List Bool) :
    Idle clock base { hub with faults } := ⟨idle.same⟩

theorem withAllowance (idle : Idle clock base hub) (allowance : Allowance)
    (buckets : Buckets UserId) : Idle clock base (hub.withAllowance allowance buckets) := ⟨idle.same⟩

theorem withGuesses (idle : Idle clock base hub) (guesses : Guesses) :
    Idle clock base { hub with guesses } := ⟨idle.same⟩

theorem countPublishes (idle : Idle clock base hub) (user : UserId)
    (publishes : Option (RoomId × Epoch × Nat)) :
    Idle clock base (hub.modifySession user fun session =>
      { session with keyPublishes := publishes }) := by
  refine ⟨Eq.trans ?_ idle.same⟩
  have same : Map.mapValues (fun _ (session : Session) => { session with keyPublishes := none })
      (hub.sessions.modify user fun session => { session with keyPublishes := publishes }) =
        hub.sessions.mapValues fun _ session => { session with keyPublishes := none } :=
    Map.mapValues_modify_of_same hub.sessions _ user (by intro session; rfl)
  exact congrArg (fun sessions => { hub.settled clock with sessions }) same

theorem purgeExpiredInvites (idle : Idle clock base hub) :
    Idle clock base { hub with db := hub.db.purgeExpiredInvites clock.unixNow } := by
  refine ⟨Eq.trans ?_ idle.same⟩
  have same : (hub.db.purgeExpiredInvites clock.unixNow).purgeExpiredInvites clock.unixNow =
      hub.db.purgeExpiredInvites clock.unixNow :=
    congrArg (fun invites => { hub.db with invites }) (Map.retain_retain _ _)
  exact congrArg
    (fun db => { hub.settled clock with
      db := Database.deleteUnusedBlobs (clock.unixNow - unusedBlobGrace) db }) same

theorem deleteUnusedBlobs (idle : Idle clock base hub) :
    Idle clock base
      { hub with db := hub.db.deleteUnusedBlobs (clock.unixNow - unusedBlobGrace) } := by
  refine ⟨Eq.trans ?_ idle.same⟩
  have same : ∀ (now cutoff : Nat) (db : Database),
      ((db.deleteUnusedBlobs cutoff).purgeExpiredInvites now).deleteUnusedBlobs cutoff =
        (db.purgeExpiredInvites now).deleteUnusedBlobs cutoff := fun now cutoff db =>
    congrArg (fun blobs => { db.purgeExpiredInvites now with blobs }) (Map.retain_retain _ _)
  exact congrArg (fun db => { hub.settled clock with db }) (same _ _ hub.db)

/-! ### Checks -/

variable {ok : Result → Hub → Prop} {failed : Refusal → Hub → Prop}

theorem call_ends {statement : Database → Result × Database} (idle : Idle clock base hub)
    (onOk : ∀ before, Idle clock base before →
      ok (statement before.db).1 { before with db := (statement before.db).2 })
    (onError : ∀ after, Idle clock base after → failed .internal after) :
    (call statement).Ends ok failed hub := by
  refine Hub.call_ends (fun _ => ?_) fun _ => onError _ (idle.withFaults _)
  exact onOk { hub with faults := hub.faults.tail } (idle.withFaults _)

theorem read_ends {query : Database → Result} (idle : Idle clock base hub)
    (onOk : ∀ after, Idle clock base after → ok (query after.db) after)
    (onError : ∀ after, Idle clock base after → failed .internal after) :
    (read query).Ends ok failed hub := idle.call_ends onOk onError

theorem write_ends {statement : Database → Database} {ok : Unit → Hub → Prop}
    (idle : Idle clock base hub)
    (onOk : ∀ before, Idle clock base before → ok () { before with db := statement before.db })
    (onError : ∀ after, Idle clock base after → failed .internal after) :
    (write statement).Ends ok failed hub := idle.call_ends onOk onError

theorem session_ends {ok : Session → Hub → Prop} (idle : Idle clock base hub) {user : UserId}
    (onOk : ∀ session, base.core.seats.lookup user = some session.toSeat → ok session hub)
    (onError : failed ⟨.internal, "no session"⟩ hub) :
    (session user).Ends ok failed hub := by
  refine .bind (.current (.okOr ?_ onError))
  intro session found
  refine onOk session ?_
  rw [← idle.core, core_seats, seats_lookup, found, Option.map_some]

theorem role_ends {ok : Role → Hub → Prop} (idle : Idle clock base hub) {user : UserId}
    (onOk : ∀ seat, base.core.seats.lookup user = some seat → ok seat.row.role hub)
    (onError : failed ⟨.internal, "no session"⟩ hub) : (role user).Ends ok failed hub := by
  refine .bind (idle.session_ends ?_ onError)
  exact fun session found => .pure (onOk session.toSeat found)

theorem currentRoom_ends {ok : RoomId → Hub → Prop} (idle : Idle clock base hub) {user : UserId}
    (onOk : ∀ room, base.core.roomOf user = some room → ok room hub)
    (onError : ∀ refusal, failed refusal hub) : (currentRoom user).Ends ok failed hub := by
  refine .bind (idle.session_ends (fun session found => .okOr (fun room inside => ?_) ?_) ?_)
  · refine onOk room ?_
    rw [Core.roomOf, found, Option.bind_some, inside]
  · exact onError _
  · exact onError _

theorem roomEntry_ends {ok : RoomEntry → Hub → Prop} (idle : Idle clock base hub) {room : RoomId}
    (onOk : ∀ entry, base.core.rooms.lookup room = some entry → ok entry hub)
    (onError : failed noSuchRoom hub) : (roomEntry room).Ends ok failed hub := by
  refine .bind (.current (.okOr ?_ onError))
  intro entry found
  refine onOk entry ?_
  rw [← idle.core, core_rooms, found]

theorem storedUser_ends {ok : UserRow → Hub → Prop} (idle : Idle clock base hub) {user : UserId}
    (onOk : ∀ after row, Idle clock base after → base.core.users.lookup user = some row →
      ok row after)
    (onError : ∀ refusal after, Idle clock base after → failed refusal after) :
    (storedUser user).Ends ok failed hub := by
  refine .bind (idle.read_ends (fun after idle => .okOr (fun row found => ?_) ?_) ?_)
  · refine onOk after row idle ?_
    rw [← idle.core]
    exact found
  · exact onError _ after idle
  · exact onError _

theorem requirePicture_ends {ok : Unit → Hub → Prop} (idle : Idle clock base hub)
    {avatar : Option Hash} (onOk : ∀ after, Idle clock base after → ok () after)
    (onError : ∀ refusal after, Idle clock base after → failed refusal after) :
    (requirePicture avatar).Ends ok failed hub := by
  unfold requirePicture
  split
  · exact .pure (onOk _ idle)
  · refine .bind (idle.read_ends (fun after idle => .require (fun _ => onOk after idle) ?_) ?_)
    · exact onError _ after idle
    · exact onError _

theorem mustHold_ends {ok : Unit → Hub → Prop} (idle : Idle clock base hub)
    {allowance : Allowance} {user : UserId} {cost : ℚ} {now : Instant} {refusal : Refusal}
    (onOk : ∀ after, Idle clock base after → ok () after)
    (onError : ∀ after, Idle clock base after → failed refusal after) :
    (mustHold allowance user cost now refusal).Ends ok failed hub :=
  .bind (.take (.require (fun _ => onOk _ (idle.withAllowance _ _))
    (onError _ (idle.withAllowance _ _))))

theorem mustTake_ends {ok : Unit → Hub → Prop} (idle : Idle clock base hub)
    {allowance : Allowance} {user : UserId} {cost : ℚ} {now : Instant} {refusal : Refusal}
    (onOk : ∀ after, Idle clock base after → ok () after)
    (onError : ∀ after, Idle clock base after → failed refusal after) :
    (mustTake allowance user cost now refusal).Ends ok failed hub :=
  .bind (.take (.require (fun _ => onOk _ (idle.withAllowance _ _))
    (onError _ (idle.withAllowance _ _))))

end Idle

end Hub

end Throcc
