/-
This file says how the moves between rooms end: a move that succeeds is a turn
of the core, and one that is refused leaves the hub idle, except that it may
have used up media ids.
-/

import Throcc.Idle

namespace Throcc

namespace Hub

open Attempt

variable {clock : Clock} {base hub : Hub}

/-- The hub after the media ids of one membership are taken. -/
def allocated (hub : Hub) : Hub :=
  { hub with
    db := { hub.db with nextMediaId := hub.db.nextMediaId + tracksPerMembership }
    given := hub.given ++ trackIds (tracksAt hub.db.nextMediaId) }

theorem Idle.allocated (idle : Idle clock base hub) : Idle clock base.allocated hub.allocated :=
  ⟨congrArg Hub.allocated idle.same⟩

/-- A refusal has changed nothing but, at most, the media ids that come next. -/
def Refused (clock : Clock) (base after : Hub) : Prop :=
  Idle clock base after ∨
    base.core.Allows .allocate ∧ Idle clock base.allocated after

theorem Idle.refused (idle : Idle clock base hub) : Refused clock base hub := .inl idle

theorem Refused.core {after : Hub} (refused : Refused clock base after) :
    after.core = base.core ∨ base.core.Allows .allocate ∧ after.core = base.core.allocate := by
  obtain idle | ⟨enough, idle⟩ := refused
  · exact .inl idle.core
  · exact .inr ⟨enough, idle.core⟩

/-- A placement in the room its user is in, that shows them its state once handed over. -/
def Shows (after : Hub) (user : UserId) (placement : Placement) : Prop :=
  placement.room = after.core.roomOf user ∧
    (after.handOver user placement).core = after.core.hand user

theorem shows_placement (hub : Hub) (user : UserId) :
    Shows (hub.placement user).2 user (hub.placement user).1 := by
  unfold Shows
  rw [core_handOver_placement, core_placement]
  exact ⟨room_placement hub user, rfl⟩

theorem allocateTracks_ends (idle : Idle clock base hub) :
    allocateTracks.Ends
      (fun tracks after => tracks = tracksAt base.core.nextMediaId ∧
        base.core.Allows .allocate ∧ Idle clock base.allocated after)
      (fun _ after => Idle clock base after) hub := by
  refine .bind (idle.call_ends (fun before idle => .bind ?_) fun _ idle => idle)
  have next : before.core.nextMediaId = base.core.nextMediaId := congrArg Core.nextMediaId idle.core
  by_cases exhausted : u32Max < before.db.nextMediaId + tracksPerMembership - 1
  · unfold Database.allocateMediaIds
    dsimp only
    rw [if_pos exhausted]
    exact .fail idle
  · unfold Database.allocateMediaIds
    dsimp only
    rw [if_neg exhausted]
    refine Ends.pure (.bind (.change (.pure ?_)))
    refine ⟨congrArg tracksAt next, ?_, idle.allocated⟩
    show base.core.nextMediaId + tracksPerMembership - 1 ≤ u32Max
    rw [← next]
    exact Nat.not_lt.mp exhausted

theorem nextEpochs_ends (rooms : List RoomId) :
    (nextEpochs rooms).Ends
      (fun epochs after => after = hub ∧ epochs = hub.core.nextEpochs rooms ∧
        hub.core.CanRaise rooms)
      (fun _ after => after = hub ∧ ¬ hub.core.CanRaise rooms) hub := by
  induction rooms with
  | nil => exact .pure ⟨rfl, rfl, fun _ member => nomatch member⟩
  | cons room rest inductionHypothesis =>
    unfold nextEpochs roomEntry okOr
    refine .bind (.bind (.current ?_))
    split
    · rename_i entry found
      refine .pure (.bind ?_)
      unfold require
      split
      · rename_i enough
        refine .pure (.bind (inductionHypothesis.mono ?_ ?_))
        · rintro epochs after ⟨rfl, rfl, canRaise⟩
          refine .pure ⟨rfl, ?_, ?_⟩
          · unfold Core.nextEpochs
            rw [List.filterMap_cons, core_rooms, found]
            rfl
          · intro other member
            rcases List.mem_cons.mp member with rfl | later
            · exact ⟨entry, found, of_decide_eq_true enough⟩
            · exact canRaise other later
        · rintro _ _ ⟨rfl, stuck⟩
          exact ⟨rfl, fun canRaise => stuck fun other member =>
            canRaise other (List.mem_cons_of_mem _ member)⟩
      · rename_i exhausted
        refine .fail ⟨rfl, fun canRaise => exhausted ?_⟩
        obtain ⟨entry', found', enough⟩ := canRaise room List.mem_cons_self
        rw [core_rooms, found] at found'
        cases found'
        exact decide_eq_true enough
    · rename_i missing
      refine .fail ⟨rfl, fun canRaise => ?_⟩
      obtain ⟨entry, found, _⟩ := canRaise room List.mem_cons_self
      rw [core_rooms, missing] at found
      cases found

/-- Why the epochs of rooms could not be raised: one is exhausted or its room is gone, or the
database failed. -/
def EpochsStuck (hub : Hub) (rooms : List RoomId) (faults : List Bool) : Prop :=
  hub.core.CanRaise rooms → faults.head? = some true

theorem bumpEpochs_exactly (clock : Clock) (hub : Hub) (rooms : List RoomId) :
    (bumpEpochs rooms).Ends
      (fun _ after => ¬ EpochsStuck hub rooms hub.faults ∧ hub.core.CanRaise rooms ∧
        after.core = hub.core.raise rooms ∧ after.faults = hub.faults.tail)
      (fun _ after => Idle clock hub after ∧ EpochsStuck hub rooms hub.faults) hub := by
  refine .bind ((nextEpochs_ends rooms).mono ?_ ?_)
  · rintro epochs after ⟨rfl, rfl, canRaise⟩
    refine .bind (call_ends (fun works => .change ⟨?_, canRaise, ?_, rfl⟩) fun fails => ?_)
    · exact fun stuck => works (stuck canRaise)
    · exact core_storeEpochs { after with faults := after.faults.tail } rooms
    · exact ⟨(Idle.refl after).withFaults _, fun _ => fails⟩
  · rintro _ _ ⟨rfl, stuck⟩
    exact ⟨Idle.refl _, fun canRaise => absurd canRaise stuck⟩

theorem bumpEpochs_ends (idle : Idle clock base hub) (rooms : List RoomId) :
    (bumpEpochs rooms).Ends
      (fun _ after => base.core.CanRaise rooms ∧ after.core = base.core.raise rooms)
      (fun _ after => Idle clock base after) hub := by
  rw [← idle.core]
  exact (bumpEpochs_exactly clock hub rooms).mono
    (fun _ _ ⟨_, canRaise, raised, _⟩ => ⟨canRaise, raised⟩)
    fun _ _ idleAfter => idle.trans idleAfter.1

theorem checkTarget_ends (idle : Idle clock base hub) (session : Session)
    (target : Option RoomId) :
    (checkTarget session target clock.unixNow).Ends
      (fun _ after => after = hub ∧ (target.isSome → session.row.encryptionKey.isSome) ∧
        ∀ room, target = some room →
          ∃ entry, base.core.rooms.lookup room = some entry ∧ entry.members.card < maxRoomMembers)
      (fun _ after => after = hub) hub := by
  unfold checkTarget
  split
  · exact .pure ⟨rfl, nofun, nofun⟩
  · rename_i room
    refine .bind (idle.roomEntry_ends (fun entry found => ?_) rfl)
    refine .bind (.require (fun space => .require (fun valid => ?_) rfl) rfl)
    refine ⟨rfl, fun _ => ?_, fun other same => ?_⟩
    · obtain ⟨key, has, _⟩ := Option.any_eq_true _ _ |>.mp valid
      rw [has]
      rfl
    · cases same
      exact ⟨entry, found, of_decide_eq_true space⟩

theorem allocateFor_ends (idle : Idle clock base hub) (target : Option RoomId) :
    (allocateFor target).Ends
      (fun tracks after => tracks = (target.map fun _ => tracksAt base.core.nextMediaId) ∧
        (target.isSome → base.core.Allows .allocate) ∧
        Idle clock (if target.isSome then base.allocated else base) after)
      (fun _ after => Idle clock base after) hub := by
  unfold allocateFor
  split
  · exact .pure ⟨rfl, nofun, idle⟩
  · refine .bind ((allocateTracks_ends idle).mono ?_ fun _ _ idle => idle)
    rintro tracks after ⟨rfl, enough, idle⟩
    exact .pure ⟨rfl, fun _ => enough, idle⟩

/-- Moving a user to `target` is the core's own move, or shows them the room they are in. -/
theorem place_ends (idle : Idle clock base hub) (user : UserId) (target : Option RoomId) :
    (place user target clock).Ends
      (fun placement after => Shows after user placement ∧
        (base.core.roomOf user = target ∧ after.core = base.core ∨
          base.core.CanPlace user target ∧ after.core = base.core.place user target))
      (fun _ after => Refused clock base after ∧ (target = none → Idle clock base after)) hub := by
  refine .bind (idle.session_ends (fun session found => ?_) ⟨idle.refused, fun _ => idle⟩)
  have seated : base.core.roomOf user = session.room := by
    rw [Core.roomOf, found, Option.bind_some]
  split
  · rename_i same
    refine .take ⟨shows_placement hub user, .inl ⟨seated.trans same, ?_⟩⟩
    rw [core_placement, idle.core]
  · rename_i elsewhere
    refine .bind ((checkTarget_ends idle session target).mono ?_ ?_)
    · rintro _ _ ⟨rfl, keyed, space⟩
      refine .bind ((allocateFor_ends idle target).mono ?_ ?_)
      · rintro tracks after ⟨rfl, enough, idleAfter⟩
        have core : (if target.isSome then base.allocated else base).core =
            if target.isSome then base.core.allocate else base.core :=
          apply_ite Hub.core _ base.allocated base
        refine .bind ((bumpEpochs_ends idleAfter _).mono ?_ ?_)
        · rintro _ raised ⟨canRaise, sameRaised⟩
          refine .bind (.change (.take ⟨shows_placement _ user, .inr ⟨⟨⟨session.toSeat, found,
            elsewhere, keyed⟩, fun room same => ⟨space room same, ?_⟩, ?_⟩, ?_⟩⟩))
          · exact enough (by rw [same]; rfl)
          · have rooms : (if target.isSome then base.allocated else base).core.rooms =
                base.core.rooms := by
              split <;> rfl
            unfold Core.CanRaise at canRaise ⊢
            rw [rooms] at canRaise
            rw [seated]
            exact canRaise
          · rw [core_placement, core_moved, sameRaised, core]
            unfold Core.place
            rw [seated]
        · intro _ after idleAfter
          cases target with
          | none => exact ⟨.inl idleAfter, fun _ => idleAfter⟩
          | some room => exact ⟨.inr ⟨enough rfl, idleAfter⟩, fun same => by cases same⟩
      · exact fun _ _ idle => ⟨idle.refused, fun _ => idle⟩
    · rintro _ _ rfl
      exact ⟨idle.refused, fun _ => idle⟩

/-! ### Leaving -/

theorem core_leaveRoom (hub : Hub) (user : UserId) (clock : Clock) :
    Core.Leads Turn.ousts hub.core (hub.leaveRoom user clock).core ∧
      (hub.leaveRoom user clock).core.roomOf user = none := by
  have ends := place_ends (Idle.refl hub : Idle clock hub hub) user none
  unfold leaveRoom
  split
  · rename_i missing
    refine ⟨.done _, ?_⟩
    rw [Core.roomOf, core_seats, seats_lookup, missing]
    rfl
  · split
    · rename_i placement after same
      obtain ⟨_, ⟨outside, same⟩ | ⟨canPlace, same⟩⟩ := ends.of_ok same
      · rw [same]
        exact ⟨.done _, outside⟩
      · rw [same]
        exact ⟨.one (.leave user) trivial canPlace, Core.roomOf_place_none _ user⟩
    · rename_i refusal after same
      have idle := ((ends.of_error same).2 rfl).core
      have room : after.core.roomOf user = (after.sessions.lookup user).bind (·.room) := by
        rw [Core.roomOf, core_seats, seats_lookup, Option.bind_map]
        rfl
      split
      · rename_i outside
        rw [← idle]
        exact ⟨.done _, room.trans outside⟩
      · rename_i left inside
        have turn : after.core.apply (.expel user) = after.core.expel user left := by
          unfold Core.apply
          dsimp only
          rw [room.trans inside]
        rw [core_expel, ← turn, ← idle]
        refine ⟨.one (.expel user) trivial ⟨_, room.trans inside⟩, ?_⟩
        rw [turn]
        exact Core.roomOf_expel _ user left

theorem core_evict (hub : Hub) (user : UserId) (reason : String) (clock : Clock) :
    Core.Leads Turn.ousts hub.core (hub.evict user reason clock).core ∧
      user ∉ (hub.evict user reason clock).core.seats := by
  obtain ⟨leads, outside⟩ := core_leaveRoom hub user clock
  unfold evict
  generalize hub.leaveRoom user clock = hub at leads outside
  dsimp only
  split
  · rename_i missing
    refine ⟨leads, ?_⟩
    rw [← Finmap.lookup_eq_none, core_seats, seats_lookup, missing, Option.map_none]
  · rename_i session _
    have same : ({ hub.endSession user with
        log := (hub.endSession user).log ++ [.kicked session.connId reason] } : Hub).core =
          hub.core.apply (.signOut user) := by
      rw [core_log, core_endSession]
      exact congrArg (fun notices => { hub.core.apply (.signOut user) with notices })
        (List.append_nil _)
    rw [same]
    refine ⟨.turn leads (.signOut user) trivial outside, ?_⟩
    exact Finmap.lookup_eq_none.mp (Finmap.lookup_erase user hub.core.seats)

/-! ### Joining -/

theorem entersAnotherRoom_ends {ok : Bool → Hub → Prop} {failed : Refusal → Hub → Prop}
    {user : UserId} {target : Option RoomId} (onOk : ∀ moving, ok moving hub)
    (onError : ∀ refusal, failed refusal hub) :
    (entersAnotherRoom user target).Ends ok failed hub := by
  unfold entersAnotherRoom
  split
  · exact .pure (onOk _)
  · exact .bind (.bind (.current (.okOr (fun session _ => .pure (onOk _)) (onError _))))

theorem enter_ends (idle : Idle clock base hub) (user : UserId) (target : Option RoomId) :
    (enter user target clock).Ends
      (fun response after => base.core.Joins user target after.core ∧
        ∃ placement, response = .placement placement ∧ placement.room = target)
      (fun _ after => Refused clock base after) hub := by
  refine .bind (entersAnotherRoom_ends (fun moving => ?_) fun _ => idle.refused)
  have placing : ∀ hub, Idle clock base hub → Ends (do
      let placement ← place user target clock
      change (handOver user placement)
      change (remember user target)
      pure (Response.placement placement))
      (fun response after => base.core.Joins user target after.core ∧
        ∃ placement, response = .placement placement ∧ placement.room = target)
      (fun _ after => Refused clock base after) hub := by
    intro hub idle
    refine .bind ((place_ends idle user target).mono ?_ fun _ _ refused => refused.1)
    rintro placement after ⟨⟨room, shown⟩, moved⟩
    refine .bind (.change (.bind (.change (.pure ⟨⟨?_, ?_⟩, placement, rfl, ?_⟩))))
    · exact moved.imp And.left And.left
    · rw [core_remember, shown]
      obtain ⟨same, unmoved⟩ | ⟨canPlace, moved⟩ := moved
      · rw [if_pos same, unmoved]
      · obtain ⟨⟨seat, found, elsewhere, _⟩, _⟩ := canPlace
        rw [if_neg (by rw [Core.roomOf, found]; exact elsewhere), moved]
    · rw [room]
      obtain ⟨same, unmoved⟩ | ⟨canPlace, moved⟩ := moved
      · rw [unmoved, same]
      · obtain ⟨⟨seat, found, _⟩, _⟩ := canPlace
        rw [moved, Core.roomOf_place _ (by rw [found]; rfl)]
  refine .bind (.onlyIf (fun _ => ?_) fun _ => placing hub idle)
  exact idle.mustTake_ends placing fun _ idle => idle.refused

theorem passwordToEnter_ends {ok : Option String → Hub → Prop} {failed : Refusal → Hub → Prop}
    (idle : Idle clock base hub) {user : UserId} {room : RoomId}
    (onFree : base.core.MayEnter user room none → ok none hub)
    (onLocked : ∀ entry hash, base.core.rooms.lookup room = some entry →
      entry.passwordHash = some hash → ok (some hash) hub)
    (onError : ∀ refusal, failed refusal hub) :
    (passwordToEnter user room).Ends ok failed hub := by
  refine .bind (idle.roomEntry_ends (fun entry found => ?_) (onError _))
  split
  · rename_i unlocked
    refine .pure (onFree ⟨entry, found, fun hash locked => ?_⟩)
    rw [unlocked] at locked
    cases locked
  · rename_i hash locked
    refine .bind (idle.session_ends (fun session seated => .pure ?_) (onError _))
    split
    · rename_i free
      refine onFree ⟨entry, found, fun other _ => ?_⟩
      rcases free with inside | manages
      · left
        rw [Core.roomOf, seated, Option.bind_some, inside]
      · exact .inr (.inl ⟨_, seated, manages⟩)
    · exact onLocked entry hash found locked

theorem mayGuess_ends {ok : Unit → Hub → Prop} {failed : Refusal → Hub → Prop}
    (idle : Idle clock base hub) {user : UserId} {room : RoomId} {now : Instant}
    (onOk : ∀ after, Idle clock base after → ok () after)
    (onError : ∀ refusal after, Idle clock base after → failed refusal after) :
    (mayGuess user room now).Ends ok failed hub := by
  refine .bind (.take ?_)
  split
  · exact .pure (onOk _ (idle.withGuesses _))
  · exact .fail (onError _ _ (idle.withGuesses _))
  · exact .fail (onError _ _ (idle.withGuesses _))

/-- What a request to join has come to. -/
def JoinEnds (clock : Clock) (base : Hub) (user : UserId) (target : Option RoomId)
    (handled : Handled) (after : Hub) : Prop :=
  match handled with
  | .done response =>
    base.core.Joins user target after.core ∧
      (∃ placement, response = .placement placement ∧ placement.room = target) ∧
      ∀ room, target = some room → base.core.MayEnter user room none
  | .pending work =>
    Idle clock base after ∧
      ∃ room password hash, target = some room ∧ work = .join room password hash

theorem requireSpace_ends {ok : Unit → Hub → Prop} {failed : Refusal → Hub → Prop}
    {user : UserId} {room : RoomId} (onOk : ok () hub) (onError : ∀ refusal, failed refusal hub) :
    (requireSpace user room).Ends ok failed hub := by
  refine .bind (.bind (.current (.okOr (fun session _ => ?_) (onError _))))
  refine .onlyIf (fun _ => .bind (.bind (.current (.okOr (fun entry _ => ?_) (onError _))))) ?_
  · exact .require (fun _ => onOk) (onError _)
  · exact fun _ => onOk

theorem joinRoom_ends (idle : Idle clock base hub) (user : UserId) (room : RoomId)
    (password : Option String) :
    (joinRoom user room password clock).Ends
      (fun handled after => JoinEnds clock base user (some room) handled after)
      (fun _ after => Refused clock base after) hub := by
  refine .bind (requireSpace_ends ?_ fun _ => idle.refused)
  refine .bind (passwordToEnter_ends idle (fun free => ?_) (fun entry hash found locked => ?_)
    fun _ => idle.refused)
  · refine .map ((enter_ends idle user (some room)).mono ?_ fun _ _ refused => refused)
    rintro response after ⟨joins, placed⟩
    exact ⟨joins, placed, fun other same => Option.some.inj same ▸ free⟩
  · show Ends (askPassword user room password hash clock.now) _ _ _
    unfold askPassword
    split
    · exact .fail idle.refused
    · refine .bind (mayGuess_ends idle (fun _ idle => ?_) fun _ _ idle => idle.refused)
      refine .bind (idle.mustTake_ends (fun _ idle => ?_) fun _ idle => idle.refused)
      exact .pure ⟨idle, room, _, hash, rfl, rfl⟩

theorem join_ends (idle : Idle clock base hub) (user : UserId) (target : Option RoomId)
    (password : Option String) :
    (join user target password clock).Ends
      (fun handled after => JoinEnds clock base user target handled after)
      (fun _ after => Refused clock base after) hub := by
  refine .bind (entersAnotherRoom_ends (fun moving => ?_) fun _ => idle.refused)
  cases target with
  | none =>
    have leaving : ∀ hub, Idle clock base hub → Ends (Handled.done <$> enter user none clock)
        (fun handled after => JoinEnds clock base user none handled after)
        (fun _ after => Refused clock base after) hub := by
      intro hub idle
      refine .map ((enter_ends idle user none).mono ?_ fun _ _ refused => refused)
      exact fun response after joins => ⟨joins.1, joins.2, fun room same => by cases same⟩
    refine .bind (.onlyIf (fun _ => ?_) fun _ => leaving hub idle)
    exact idle.mustHold_ends leaving fun _ idle => idle.refused
  | some room =>
    refine .bind (.onlyIf (fun _ => ?_) fun _ => joinRoom_ends idle user room password)
    exact idle.mustHold_ends (fun _ idle => joinRoom_ends idle user room password)
      fun _ idle => idle.refused

theorem finishJoin_ends (idle : Idle clock base hub) (user : UserId) (room : RoomId)
    (hash : String) (matched : Bool) :
    (finishJoin user room hash matched clock).Ends
      (fun response after => base.core.Joins user (some room) after.core ∧
        (∃ placement, response = .placement placement ∧ placement.room = some room) ∧
        matched = true ∧ base.core.MayEnter user room (some hash))
      (fun _ after => Refused clock base after) hub := by
  unfold finishJoin
  split
  · rename_i right
    refine .bind (.change ?_)
    have entering : ∀ hub, Idle clock base hub → base.core.MayEnter user room (some hash) →
        Ends (enter user (some room) clock)
          (fun response after => base.core.Joins user (some room) after.core ∧
            (∃ placement, response = .placement placement ∧ placement.room = some room) ∧
            matched = true ∧ base.core.MayEnter user room (some hash))
          (fun _ after => Refused clock base after) hub := by
      intro hub idle may
      refine (enter_ends idle user (some room)).mono ?_ fun _ _ refused => refused
      exact fun response after joins => ⟨joins.1, joins.2, right, may⟩
    have idle := idle.withGuesses (hub.guesses.succeeded user room)
    refine .bind (passwordToEnter_ends idle (fun free => ?_) (fun entry current found locked => ?_)
      fun _ => idle.refused)
    · refine .bind (.require (fun _ => entering _ idle ?_) idle.refused)
      obtain ⟨entry, found, shown⟩ := free
      refine ⟨entry, found, fun current locked => ?_⟩
      exact (shown current locked).imp_right fun shown => shown.imp_right nofun
    · refine .bind (.require
        (fun same => entering _ idle ⟨entry, found, fun other has => ?_⟩) idle.refused)
      rw [locked] at has
      cases has
      rw [Option.all_some, decide_eq_true_iff] at same
      rw [same]
      exact .inr (.inr rfl)
  · exact .bind (.change (.fail (idle.withGuesses _).refused))

/-! ### Connecting -/

theorem core_rejoin (hub : Hub) (user : UserId) (room : RoomId) (clock : Clock)
    (outside : hub.core.roomOf user = none) :
    ((hub.rejoin user room clock).1 = none ∧
        ((hub.rejoin user room clock).2.core = hub.core ∨
          hub.core.Allows .allocate ∧ (hub.rejoin user room clock).2.core = hub.core.allocate)) ∨
      ∃ placement, (hub.rejoin user room clock).1 = some placement ∧
        hub.core.CanPlace user (some room) ∧
        ((hub.rejoin user room clock).2.handOver user placement).core =
          hub.core.apply (.enter user room) := by
  unfold rejoin
  generalize (if hub.lastJoined.lookup user = some room then Allowance.rejoins
    else Allowance.roomChanges) = allowance
  have idle : Idle clock hub (hub.holdsIn allowance user 1 clock.now).2 :=
    (Idle.refl hub).withAllowance _ _
  dsimp only
  generalize (hub.holdsIn allowance user 1 clock.now).2 = held at idle ⊢
  have ends := place_ends idle user (some room)
  split
  · split
    · rename_i placement after same
      right
      obtain ⟨⟨_, shown⟩, ⟨inside, _⟩ | ⟨canPlace, moved⟩⟩ := ends.of_ok same
      · rw [outside] at inside
        cases inside
      · refine ⟨placement, rfl, canPlace, ?_⟩
        show _ = (hub.core.place user (some room)).hand user
        rw [← moved]
        exact shown
    · rename_i refusal after same
      exact .inl ⟨rfl, (ends.of_error same).1.core⟩
  · exact .inl ⟨rfl, .inl idle.core⟩

theorem mayRejoin_core {hub : Hub} {user : UserId} {room : RoomId}
    (may : hub.mayRejoin user room = true) : hub.core.MayRejoin user room := by
  unfold mayRejoin at may
  rw [decide_eq_true_iff] at may
  obtain unlocked | manages | last := may
  · obtain ⟨entry, found, unlocked⟩ := (Option.any_eq_true _ _).mp unlocked
    exact .inl ⟨entry, found, Option.isNone_iff_eq_none.mp unlocked⟩
  · obtain ⟨session, found, manages⟩ := (Option.any_eq_true _ _).mp manages
    refine .inr (.inl ⟨session.toSeat, ?_, manages⟩)
    rw [core_seats, seats_lookup, found, Option.map_some]
  · exact .inr (.inr last)

theorem core_startingPlacement (hub : Hub) (user : UserId) (wantRoom : Option RoomId)
    (clock : Clock) (outside : hub.core.roomOf user = none) :
    let after := ((hub.startingPlacement user wantRoom clock).2.handOver user
      (hub.startingPlacement user wantRoom clock).1).core
    hub.core.Settles user after ∧ ∀ room, after.roomOf user = some room → wantRoom = some room := by
  dsimp only
  unfold startingPlacement
  split
  · rw [core_handOver_lobby]
    exact ⟨.inl rfl, fun room inside => nomatch outside.symm.trans inside⟩
  · rename_i room wanted
    obtain ⟨wanted, may⟩ := Option.filter_eq_some_iff.mp wanted
    obtain ⟨none, core⟩ | ⟨placement, made, canPlace, core⟩ :=
      core_rejoin hub user room clock outside
    · show Core.Settles _ _ (Hub.handOver user (Option.getD _ lobby) _).core ∧
        ∀ room, (Hub.handOver user (Option.getD _ lobby) _).core.roomOf user = some room → _
      rw [none, Option.getD_none, core_handOver_lobby]
      refine ⟨core.imp_right .inl, fun other inside => ?_⟩
      have still : (hub.rejoin user room clock).2.core.roomOf user = Option.none := by
        obtain same | ⟨_, same⟩ := core <;>
        · rw [same]
          exact outside
      exact nomatch still.symm.trans inside
    · show Core.Settles _ _ (Hub.handOver user (Option.getD _ lobby) _).core ∧
        ∀ room, (Hub.handOver user (Option.getD _ lobby) _).core.roomOf user = some room → _
      rw [made, Option.getD_some, core]
      refine ⟨.inr (.inr ⟨room, mayRejoin_core may, canPlace, rfl⟩), fun other inside => ?_⟩
      obtain ⟨⟨seat, found, _⟩, _⟩ := id canPlace
      have there : (hub.core.apply (.enter user room)).roomOf user = some room :=
        hub.core.roomOf_place (by rw [found]; rfl)
      exact wanted.trans (there.symm.trans inside)

theorem core_profileOrDefault (hub : Hub) : hub.profileOrDefault.2.core = hub.core := by
  have ends : Ends (read (·.serverProfile)) (fun _ after => after.core = hub.core)
      (fun _ after => after.core = hub.core) hub :=
    (Idle.refl hub : Idle ⟨0, 0⟩ hub hub).read_ends (fun _ idle => idle.core) fun _ idle => idle.core
  unfold profileOrDefault
  split
  · rename_i same
    exact ends.of_ok same
  · rename_i same
    exact ends.of_error same

/-- Signing in takes the user out of where they were and settles them anew. -/
theorem core_welcome (hub : Hub) (row : UserRow) (wantRoom : Option RoomId) (clock : Clock) :
    let after := (hub.welcome row wantRoom clock).2.core
    ∃ left, Core.Leads Turn.ousts hub.core left ∧ row.id ∉ left.seats ∧
      (left.apply (.signIn row)).Settles row.id after ∧
      ∀ room, after.roomOf row.id = some room → wantRoom = some room := by
  obtain ⟨leads, gone⟩ := core_evict hub row.id "you signed in from somewhere else" clock
  refine ⟨_, leads, gone, ?_⟩
  have outside : ((hub.evict row.id "you signed in from somewhere else" clock).openSession
      row).core.roomOf row.id = none := by
    rw [core_openSession]
    show ((Finmap.insert row.id _ _).lookup row.id).bind _ = none
    rw [Finmap.lookup_insert]
    rfl
  have settles := core_startingPlacement _ row.id wantRoom clock outside
  rw [core_openSession] at settles
  show Core.Settles _ _ (profileOrDefault _).2.core ∧
    ∀ room, (profileOrDefault _).2.core.roomOf row.id = some room → _
  rw [core_profileOrDefault]
  exact settles

theorem connect_ends (hub : Hub) (row : UserRow) (wantRoom : Option RoomId) (clock : Clock) :
    (connect row wantRoom clock).Ends
      (fun _ after => after.core = hub.core ∨
        ∃ current left, hub.core.users.lookup row.id = some current ∧
          Core.Leads Turn.ousts hub.core left ∧ current.id ∉ left.seats ∧
          (left.apply (.signIn current)).Settles current.id after.core ∧
          ∀ room, after.core.roomOf current.id = some room → wantRoom = some room)
      (fun _ after => after.core = hub.core) hub := by
  have idle : Idle clock hub hub := Idle.refl hub
  refine .bind (idle.read_ends (fun after idle => ?_) fun _ idle => idle.core)
  split
  · exact .pure (.inl idle.core)
  · rename_i current found
    have stored : hub.core.users.lookup row.id = some current := by
      rw [← idle.core]
      exact (Option.filter_eq_some_iff.mp found).1
    refine .bind (idle.write_ends (fun before idle => .bind (.current ?_)) fun _ idle => idle.core)
    have seen : ({ before with db := before.db.markSeen row.id clock.unixNow } : Hub).core =
        hub.core := idle.core
    split
    · exact .pure (.inl seen)
    · refine .map (.take (.inr ⟨current, ?_⟩))
      rw [← seen]
      obtain ⟨left, leads, gone, settles⟩ := core_welcome
        { before with db := before.db.markSeen row.id clock.unixNow } current wantRoom clock
      exact ⟨left, seen ▸ stored, leads, gone, settles⟩

theorem core_disconnect (hub : Hub) (user : UserId) (conn : ConnId) (clock : Clock) :
    Core.Leads Turn.ousts hub.core (hub.disconnect user conn clock).core := by
  unfold disconnect
  split
  · obtain ⟨leads, outside⟩ := core_leaveRoom hub user clock
    rw [core_endSession]
    exact .turn leads (.signOut user) trivial outside
  · exact .done _

end Hub

end Throcc
