/-
This file proves that epochs left behind stay refused. A sender key is stored
only for the current epoch or, for the length of the grace period, the one
before it; and once a client has left a room, nothing of the epochs it took part
in there is stored or used again, through the lobby, other rooms and reconnects.

Every operation is a chain of turns (`Ledger.Turn`): it moves to an epoch, enters
a room, notes something, or stores a sender key where it stands. The floors
carry the argument. Moving to an epoch raises the room's floor to it
(`Ledger.Raised`), floors only rise, and entering a room takes its floor as the
bar for everything stored there (`Ledger.Past`). Epoch 0 is where a stay begins
before it moves anywhere, so a stay that never moves raises no floor:
`recorded_key_stored_again` is the replay that this lets through.
-/

import Throcc.Run
import Throcc.Standing
import Mathlib.Logic.Relation

namespace Throcc

namespace Stored

/-- A key of the current epoch, or of the one before within the grace period. -/
def InTime (stored : Stored) : Prop :=
  stored.epoch = stored.current ∨
    stored.epoch + 1 = stored.current ∧ stored.storedAt < stored.since + oldKeyGrace

end Stored

namespace EpochFloors

/-- A raised floor is at least what it was raised to. -/
theorem get_raise (floors : EpochFloors) (user : UserId) (room : RoomId) (epoch : Epoch) :
    ∃ floor, (floors.raise user room epoch).get user room = some floor ∧ epoch ≤ floor := by
  unfold raise
  split
  · refine ⟨epoch, ?_, le_rfl⟩
    unfold get
    rw [Map.lookup_insert_ite, if_pos rfl]
  · rename_i enough
    cases kept : floors.get user room with
    | none =>
      rw [kept] at enough
      exact absurd rfl enough
    | some floor =>
      rw [kept, Option.all_some, decide_eq_true_iff] at enough
      exact ⟨floor, rfl, Nat.le_of_not_lt enough⟩

/-- Raising a floor lowers none. -/
theorem raise_mono (floors : EpochFloors) (user : UserId) (room : RoomId) (epoch : Epoch)
    {bound : Epoch} {otherUser : UserId} {otherRoom : RoomId}
    (raised : ∃ floor, floors.get otherUser otherRoom = some floor ∧ bound ≤ floor) :
    ∃ floor, (floors.raise user room epoch).get otherUser otherRoom = some floor ∧
      bound ≤ floor := by
  obtain ⟨floor, kept, enough⟩ := raised
  by_cases same : (otherUser, otherRoom) = (user, room)
  · cases same
    unfold raise
    split
    · rename_i lower
      rw [kept, Option.all_some, decide_eq_true_iff] at lower
      refine ⟨epoch, ?_, enough.trans lower.le⟩
      unfold get
      rw [Map.lookup_insert_ite, if_pos rfl]
    · exact ⟨floor, kept, enough⟩
  · refine ⟨floor, ?_, enough⟩
    unfold raise
    split
    · unfold get at kept ⊢
      rw [Map.lookup_insert_ite, if_neg same, kept]
    · exact kept

end EpochFloors

/-! ### The turns of a key manager -/

/-- Where a key manager stands and every sender key it stored. -/
structure Ledger where
  standing : Standing
  stores : List Stored

/-- What a standing lets be stored. -/
structure Standing.Admits (standing : Standing) (stored : Stored) : Prop where
  inRoom : standing.room = some stored.room
  aboveFloor : ∀ floor, standing.floor = some floor → floor < stored.epoch
  inTime : stored.InTime

namespace Ledger

/-- What an operation is made of. -/
inductive Turn : Ledger → Ledger → Prop where
  | moveTo (ledger : Ledger) (epoch : Epoch) (now : Instant) :
      Turn ledger { ledger with standing := ledger.standing.moveTo epoch now }
  | enter (ledger : Ledger) (room : Option RoomId) (tracks : Option Tracks) :
      Turn ledger { ledger with standing := ledger.standing.enter room tracks }
  | note (ledger : Ledger) (roomPeers : List Peer)
      (stashed : Option (RoomId × Epoch × List Peer)) (present : Map UserId RoomId) :
      Turn ledger { ledger with standing := { ledger.standing with roomPeers, stashed, present } }
  | store (ledger : Ledger) (stored : Stored) (admits : ledger.standing.Admits stored) :
      Turn ledger { ledger with stores := ledger.stores ++ [stored] }
  | reconnect (ledger : Ledger) (now : Instant) :
      Turn ledger
        { ledger with
          standing :=
            { me := ledger.standing.me
              server := ledger.standing.server
              present := ∅
              roomPeers := []
              room := none
              epoch := 0
              epochSince := now
              floors := ledger.standing.floors
              floor := none
              myTracks := none
              stashed := none } }

/-- A chain of turns. -/
abbrev Turns : Ledger → Ledger → Prop := Relation.ReflTransGen Turn

/-- What every turn keeps, every chain of turns keeps. -/
theorem Turns.keeps {holds : Ledger → Prop}
    (kept : ∀ before after, Turn before after → holds before → holds after)
    {before after : Ledger} (turns : Turns before after) (start : holds before) : holds after := by
  induction turns with
  | refl => exact start
  | tail _ turn inductionHypothesis => exact kept _ _ turn inductionHypothesis

/-! ### What turns keep -/

/-- The room's floor is at the epoch, unless the stay hasn't moved past epoch 0. -/
def Raised (ledger : Ledger) : Prop :=
  ∀ room, ledger.standing.room = some room → ledger.standing.epoch ≠ 0 →
    ∃ floor, ledger.standing.floors.get ledger.standing.me room = some floor ∧
      ledger.standing.epoch ≤ floor

theorem Raised.turn {before after : Ledger} (turn : Turn before after) (raised : before.Raised) :
    after.Raised := by
  cases turn with
  | moveTo epoch now =>
    intro room there moved
    dsimp only [Standing.moveTo] at there moved ⊢
    by_cases other : epoch ≠ before.standing.epoch
    · rw [if_pos other] at there moved ⊢
      dsimp only at there ⊢
      rw [there]
      exact before.standing.floors.get_raise _ room epoch
    · rw [if_neg other] at there moved ⊢
      exact raised room there moved
  | enter room tracks =>
    intro other there moved
    dsimp only [Standing.enter] at there moved ⊢
    by_cases elsewhere : room ≠ before.standing.room
    · rw [if_pos elsewhere] at moved
      exact absurd rfl moved
    · rw [if_neg elsewhere] at there moved ⊢
      exact raised other there moved
  | note => exact raised
  | store => exact raised
  | reconnect now => exact fun _ there => absurd there nofun

/-- Every sender key stored was one of the epoch it was stored at, or of the epoch before
within the grace period. -/
def StoredInTime (ledger : Ledger) : Prop := ∀ stored ∈ ledger.stores, stored.InTime

theorem StoredInTime.turn {before after : Ledger} (turn : Turn before after)
    (inTime : before.StoredInTime) : after.StoredInTime := by
  cases turn with
  | store stored admits =>
    intro other member
    rcases List.mem_append.mp member with early | late
    · exact inTime other early
    · rw [List.mem_singleton] at late
      exact late ▸ admits.inTime
  | moveTo => exact inTime
  | enter => exact inTime
  | note => exact inTime
  | reconnect => exact inTime

/-- The floor of `room` is at `epoch` or above. -/
def Floored (room : RoomId) (epoch : Epoch) (ledger : Ledger) : Prop :=
  ∃ floor, ledger.standing.floors.get ledger.standing.me room = some floor ∧ epoch ≤ floor

theorem Floored.turn {room : RoomId} {epoch : Epoch} {before after : Ledger}
    (turn : Turn before after) (floored : Floored room epoch before) :
    Floored room epoch after := by
  cases turn with
  | moveTo next now =>
    unfold Floored
    dsimp only [Standing.moveTo]
    split
    · dsimp only
      split
      · exact before.standing.floors.raise_mono _ _ _ floored
      · exact floored
    · exact floored
  | enter place tracks =>
    unfold Floored
    dsimp only [Standing.enter]
    split <;> exact floored
  | note => exact floored
  | store => exact floored
  | reconnect => exact floored

/-- The floor of `room` is at `epoch` or above, also as the bar of a stay there now, and
nothing of that room was stored at the epoch or before it since `base`. -/
structure Past (room : RoomId) (epoch : Epoch) (base : List Stored) (ledger : Ledger) : Prop where
  floored : Floored room epoch ledger
  barred : ledger.standing.room = some room →
    ∃ floor, ledger.standing.floor = some floor ∧ epoch ≤ floor
  stored : ∃ later, ledger.stores = base ++ later ∧
    ∀ stored ∈ later, stored.room = room → epoch < stored.epoch

theorem Past.turn {room : RoomId} {epoch : Epoch} {base : List Stored} {before after : Ledger}
    (turn : Turn before after) (past : Past room epoch base before) :
    Past room epoch base after := by
  have floored := past.floored.turn turn
  obtain ⟨atFloor, barred, stored⟩ := past
  cases turn with
  | moveTo next now =>
    refine ⟨floored, fun there => ?_, stored⟩
    dsimp only [Standing.moveTo] at there ⊢
    by_cases other : next ≠ before.standing.epoch
    · rw [if_pos other] at there ⊢
      exact barred there
    · rw [if_neg other] at there ⊢
      exact barred there
  | enter place tracks =>
    refine ⟨floored, fun there => ?_, stored⟩
    dsimp only [Standing.enter] at there ⊢
    by_cases elsewhere : place ≠ before.standing.room
    · rw [if_pos elsewhere] at there ⊢
      dsimp only at there ⊢
      rw [there]
      exact atFloor
    · rw [if_neg elsewhere] at there ⊢
      exact barred there
  | note => exact ⟨floored, barred, stored⟩
  | reconnect now => exact ⟨floored, nofun, stored⟩
  | store new admits =>
    obtain ⟨later, same, above⟩ := stored
    refine ⟨floored, barred, later ++ [new], by rw [same, List.append_assoc], ?_⟩
    intro other member there
    rcases List.mem_append.mp member with early | late
    · exact above other early there
    · rw [List.mem_singleton] at late
      subst late
      obtain ⟨floor, bar, enough⟩ := barred (there ▸ admits.inRoom)
      exact enough.trans_lt (admits.aboveFloor floor bar)

end Ledger

namespace KeyManager

variable {crypto : Crypto}

/-! ### Every operation is a chain of turns -/

def ledger (keys : KeyManager crypto) : Ledger where
  standing := keys.standing
  stores := keys.stores

theorem senderKeyAt_turns (keys : KeyManager crypto) (sender : UserId) (epoch : Epoch)
    (wrapped : List UInt8) (arrived now : Instant) :
    Ledger.Turns keys.ledger (keys.senderKeyAt sender epoch wrapped arrived now).2.ledger := by
  have held : (keys.holdEarly sender epoch wrapped arrived).ledger = keys.ledger := by
    unfold holdEarly
    split <;> rfl
  unfold senderKeyAt
  split
  · exact .refl
  · rename_i notBelow
    rw [belowFloor, decide_eq_true_iff, not_or] at notBelow
    obtain ⟨aboveFloor, notLong⟩ := notBelow
    split
    · rename_i room peer there _
      split
      · rename_i notLater
        dsimp only
        split
        · exact .refl
        · rename_i inTime
          split
          · exact .refl
          · refine .single (.store keys.ledger
              ⟨room, keys.epoch, keys.epochSince, sender, epoch, now⟩ ⟨there, ?_, ?_⟩)
            · intro floor barred
              have barred : keys.floor = some floor := barred
              rw [barred, Option.any_some, decide_eq_true_iff] at aboveFloor
              exact Nat.lt_of_not_le aboveFloor
            · rcases Nat.lt_or_eq_of_le notLater with earlier | same
              · refine Or.inr ⟨?_, Nat.lt_of_not_le fun late => inTime ⟨earlier, late⟩⟩
                exact le_antisymm earlier ((Nat.le_of_not_lt notLong).trans (min_le_left _ _))
              · exact Or.inl same
      · rw [held]
    · rw [held]

theorem replayEarly_turns (keys : KeyManager crypto) (now : Instant) :
    Ledger.Turns keys.ledger (keys.replayEarly now).ledger := by
  unfold replayEarly
  have all : ∀ (held : List ((UserId ×ₗ Epoch) × Instant × List UInt8)) (sofar : KeyManager crypto),
      Ledger.Turns sofar.ledger (held.foldl (fun keys held =>
        if now - held.2.1 < oldKeyGrace then
          (keys.senderKeyAt (ofLex held.1).1 (ofLex held.1).2 held.2.2 held.2.1 now).2
        else
          keys) sofar).ledger := by
    intro held
    induction held with
    | nil => exact fun _ => .refl
    | cons first rest inductionHypothesis =>
      intro sofar
      rw [List.foldl_cons]
      split
      · exact .trans (sofar.senderKeyAt_turns ..) (inductionHypothesis _)
      · exact inductionHypothesis sofar
  exact all keys.early.toList { keys with early := ∅ }

theorem stores_rekey (keys : KeyManager crypto) (epoch : Epoch) (now : Instant) :
    (keys.rekey epoch now).stores = keys.stores := by
  unfold rekey startEpoch newSecret moveTo
  split
  · split <;> rfl
  · rfl

theorem stores_wrapForNewPeers (keys : KeyManager crypto) (room : RoomId) :
    (keys.wrapForNewPeers room).2.stores = keys.stores := by
  unfold wrapForNewPeers
  split <;> rfl

theorem applyPeers_turns (keys : KeyManager crypto) (room : RoomId) (epoch : Epoch)
    (peers : List Peer) (clock : Clock) :
    Ledger.Turns keys.ledger (keys.applyPeers room epoch peers clock).2.ledger := by
  obtain ⟨checked, refused, frame⟩ := keys.trustOf_frame room peers clock.unixNow
  unfold applyPeers
  dsimp only
  generalize keys.trustOf room peers clock.unixNow = trust at frame
  obtain ⟨trusted, notices, trusting⟩ := trust
  dsimp only at frame ⊢
  have moved (other : KeyManager crypto) :
      (((other.replacePeers trusted clock.now).rekey epoch clock.now).wrapForNewPeers
        room).2.ledger =
        { standing := other.standing.moveTo epoch clock.now, stores := other.stores } := by
    unfold ledger
    rw [standing_wrapForNewPeers, standing_rekey, stores_wrapForNewPeers, stores_rekey]
    rfl
  have replayed := replayEarly_turns ((({ trusting with roomPeers := peers }.replacePeers trusted
    clock.now).rekey epoch clock.now).wrapForNewPeers room).2 clock.now
  rw [moved, frame] at replayed
  rw [frame]
  exact .head (.note keys.ledger peers keys.stashed keys.present)
    (.head (.moveTo _ epoch clock.now) replayed)

theorem peersChanged_turns (keys : KeyManager crypto) (room : RoomId) (epoch : Epoch)
    (peers : List Peer) (clock : Clock) :
    Ledger.Turns keys.ledger (keys.peersChanged room epoch peers clock).2.ledger := by
  unfold peersChanged
  split
  · unfold stash
    split
    · exact .single (.note keys.ledger keys.roomPeers _ keys.present)
    · exact .refl
  · split
    · exact .refl
    · exact keys.applyPeers_turns room epoch peers clock

theorem withoutStashed_turns (keys : KeyManager crypto) :
    Ledger.Turns keys.ledger ({ keys with stashed := none } : KeyManager crypto).ledger :=
  .single (.note keys.ledger keys.roomPeers none keys.present)

theorem unstash_turns (keys : KeyManager crypto) (room : RoomId) (epoch : Epoch)
    (clock : Clock) : Ledger.Turns keys.ledger (keys.unstash room epoch clock).2.ledger := by
  unfold unstash
  split
  · split
    · exact keys.withoutStashed_turns.trans (peersChanged_turns _ _ _ _ clock)
    · exact keys.withoutStashed_turns
  · exact keys.withoutStashed_turns

theorem takePlace_turns (keys : KeyManager crypto) (room : Option RoomId)
    (tracks : Option Tracks) :
    Ledger.Turns keys.ledger ((keys.changeRoom room).takePlace room tracks).ledger := by
  have same : ((keys.changeRoom room).takePlace room tracks).stores = keys.stores := by
    unfold changeRoom
    split <;> rfl
  unfold ledger
  rw [standing_takePlace, same]
  exact .single (.enter keys.ledger room tracks)

theorem applyPlacement_turns (keys : KeyManager crypto) (room : Option RoomId) (epoch : Epoch)
    (tracks : Option Tracks) (peers : List Peer) (clock : Clock) :
    Ledger.Turns keys.ledger (keys.applyPlacement room epoch tracks peers clock).2.ledger := by
  unfold applyPlacement
  split
  · exact .refl
  · have taken := keys.takePlace_turns room tracks
    cases room with
    | none => exact taken.trans (withoutStashed_turns _)
    | some room =>
      exact (taken.trans (peersChanged_turns _ room epoch peers clock)).trans
        (unstash_turns _ room epoch clock)

theorem presence_turns (keys : KeyManager crypto) (user : UserId) (room : Option RoomId)
    (clock : Clock) :
    Ledger.Turns keys.ledger (keys.perform clock (.presence user room)).2.ledger := by
  obtain ⟨present, frame⟩ := keys.setPresence_frame user room
  dsimp only [perform]
  generalize keys.setPresence user room = shown at frame
  obtain ⟨shown, after⟩ := shown
  dsimp only at frame ⊢
  subst frame
  have noted : Ledger.Turns keys.ledger ({ keys with present := present } : KeyManager crypto).ledger :=
    .single (.note keys.ledger keys.roomPeers keys.stashed present)
  split
  · unfold reapplyPeers
    split
    · exact noted
    · exact noted.trans (peersChanged_turns _ _ _ _ clock)
  · exact noted

theorem perform_turns (keys : KeyManager crypto) (clock : Clock) (op : KeyOp crypto) :
    Ledger.Turns keys.ledger (keys.perform clock op).2.ledger := by
  cases op with
  | placement room epoch tracks peers => exact keys.applyPlacement_turns room epoch tracks peers clock
  | peers room epoch peers => exact keys.peersChanged_turns room epoch peers clock
  | presence user room => exact keys.presence_turns user room clock
  | senderKey sender epoch wrapped =>
    dsimp only [perform]
    unfold senderKey
    split
    · exact .refl
    · exact keys.senderKeyAt_turns sender epoch wrapped clock.now clock.now
  | renew encryption => exact .refl
  | receive mediaId epoch =>
    obtain ⟨recvKeys, same⟩ := keys.recvKey_cache mediaId epoch
    dsimp only [perform]
    rw [same]
    exact .refl
  | tick => exact .refl

/-- A new key manager after a reconnect, with the floors kept. -/
def reconnect (keys : KeyManager crypto) (encryption : crypto.KeyPair) (now : Instant) :
    KeyManager crypto :=
  { new keys.me encryption keys.server keys.floors now keys.drawn with
    wraps := keys.wraps
    stores := keys.stores }

end KeyManager

/-! ### Runs across reconnects -/

/-- What happens to a client: an operation of its key manager, or a reconnect. -/
inductive ClientInput (crypto : Crypto) where
  | perform (clock : Clock) (op : KeyOp crypto)
  | reconnect (encryption : crypto.KeyPair) (now : Instant)

namespace ClientInput

variable {crypto : Crypto}

def apply (keys : KeyManager crypto) : ClientInput crypto → KeyManager crypto
  | perform clock op => (keys.perform clock op).2
  | reconnect encryption now => keys.reconnect encryption now

theorem apply_turns (keys : KeyManager crypto) (input : ClientInput crypto) :
    Ledger.Turns keys.ledger (apply keys input).ledger := by
  cases input with
  | perform clock op => exact keys.perform_turns clock op
  | reconnect encryption now => exact .single (.reconnect keys.ledger now)

theorem run_turns (keys : KeyManager crypto) (inputs : List (ClientInput crypto)) :
    Ledger.Turns keys.ledger (run apply keys inputs).ledger :=
  run_invariant apply (fun after => Ledger.Turns keys.ledger after.ledger) .refl
    (fun after input turns => turns.trans (apply_turns after input)) inputs

/-- Once a client has been in a room at an epoch other than 0 and has left it, no sender key
of that room is stored again at that epoch or an earlier one, and no such epoch has a key to
receive with, whatever happens in between. And whatever a client stores is a sender key of
the epoch it is at, or, within the grace period, of the one before. -/
theorem left_epoch_refused (me : UserId) (encryption : crypto.KeyPair) (server : Fingerprint)
    (floors : EpochFloors) (now : Instant) (drawn : Nat)
    (before during after : List (ClientInput crypto)) (room : RoomId) :
    let placed := run apply (.new me encryption server floors now drawn) before
    let left := run apply placed during
    let later := run apply left after
    (∀ stored ∈ later.stores, stored.InTime) ∧
    (placed.room = some room → placed.epoch ≠ 0 → left.room ≠ some room →
      (∃ more, later.stores = left.stores ++ more ∧
        ∀ stored ∈ more, stored.room = room → placed.epoch < stored.epoch) ∧
      (later.room = some room → ∀ id epoch, epoch ≤ placed.epoch →
        (later.recvKey id epoch).1 = none)) := by
  intro placed left later
  have beforeTurns := run_turns (.new me encryption server floors now drawn) before
  have duringTurns := run_turns placed during
  have afterTurns := run_turns left after
  refine ⟨?_, fun there moved gone => ?_⟩
  · exact Ledger.Turns.keeps (fun _ _ => Ledger.StoredInTime.turn)
      ((beforeTurns.trans duringTurns).trans afterTurns) nofun
  · have raised : placed.ledger.Raised :=
      Ledger.Turns.keeps (fun _ _ => Ledger.Raised.turn) beforeTurns
        fun _ there => absurd there nofun
    have floored : Ledger.Floored room placed.epoch left.ledger :=
      Ledger.Turns.keeps (fun _ _ => Ledger.Floored.turn) duringTurns (raised room there moved)
    have past : Ledger.Past room placed.epoch left.stores left.ledger :=
      ⟨floored, fun here => absurd here gone, [], (List.append_nil _).symm, nofun⟩
    obtain ⟨_, barred, stored⟩ := Ledger.Turns.keeps (fun _ _ => Ledger.Past.turn) afterTurns past
    refine ⟨stored, fun here id epoch old => ?_⟩
    obtain ⟨floor, bar, enough⟩ := barred here
    unfold KeyManager.recvKey
    refine congrArg Prod.fst (if_pos ?_)
    rw [KeyManager.belowFloor, decide_eq_true_iff]
    refine Or.inl ?_
    rw [show later.floor = some floor from bar, Option.any_some, decide_eq_true_iff]
    exact old.trans enough

/-! ### A recorded sender key, replayed -/

/-- A sender key of user 2 for user 1 in room 1 at an epoch, as the server may record it. -/
def recordedKey (epoch : Epoch) : List UInt8 :=
  (openCrypto.wrap (200 + 2 : Nat) (openPeer 1).encryptionKey.key
    { server := 7, room := 1, epoch, sender := 2, recipient := 1 } (9 : Nat)).getD []

/-- User 1 is placed in room 1, with user 2, at an epoch. -/
def stay (epoch : Epoch) : List (ClientInput openCrypto) :=
  [ perform ⟨1, 500⟩ (.presence 2 (some 1)),
    perform ⟨2, 500⟩
      (.placement (some 1) epoch (some (openPeer 1).tracks) [openPeer 1, openPeer 2]),
    perform ⟨3, 500⟩ (.senderKey 2 epoch (recordedKey epoch)) ]

def leave : List (ClientInput openCrypto) := [perform ⟨4, 500⟩ (.placement none 0 none [])]

theorem left_epoch_refused_stay :
    let placed := run apply (.new 1 (200 + 1 : Nat) 7 {} 0 0) (stay 1)
    let left := run apply placed leave
    let later := run apply left (stay 1)
    placed.stores.length = 1 ∧ later.room = some 1 ∧ (later.recvKey 20 1).1 = none := by
  refine ⟨by decide +kernel, by decide +kernel, ?_⟩
  exact ((@left_epoch_refused openCrypto 1 (200 + 1 : Nat) 7 {} 0 0 (stay 1) leave (stay 1) 1).2
    (by decide +kernel) (by decide +kernel) (by decide +kernel)).2 (by decide +kernel) 20 1
    (by decide +kernel)

/-- At epoch 0 no floor is raised: a sender key recorded during a stay is stored and used
again when the server places the client there once more. -/
theorem recorded_key_stored_again :
    let placed := run apply (openKeys 1 {}) (stay 0)
    let left := run apply placed leave
    let later := run apply left (stay 0)
    placed.room = some 1 ∧ placed.epoch = 0 ∧ placed.floor = none ∧ left.room = none ∧
      later.room = some 1 ∧
      later.stores = left.stores ++
        [{ room := 1, current := 0, since := 0, sender := 2, epoch := 0, storedAt := 3 }] ∧
      (later.recvKey 20 0).1 = some (openCrypto.derive (9 : Nat) 20) := by
  decide +kernel

end ClientInput

end Throcc
