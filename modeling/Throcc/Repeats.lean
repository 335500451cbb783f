/-
This file proves when no media datagram is accepted twice. A sender's secret
belongs to one epoch of one room. A client that holds it stays in that room past
the room's floor, and when it leaves or reconnects the floor that bars it from
then on is at that epoch. So one stay alone can open what the secret sealed, and
in that stay the track's window remembers what it let through.

A task that opened a datagram before the windows were cleared may record it
after, and a replaced connection may still apply what the server sent it: the
runs considered leave out these two.
-/

import Throcc.Provenance
import Throcc.Receiving
import Throcc.Replay
import Throcc.Wakeups

namespace Throcc

/-! ### The room and the bar of a stay -/

namespace Standing

variable (standing : Standing)

/-- The room and what bars its old epochs. -/
def bar : Option RoomId × Option Epoch := (standing.room, standing.floor)

theorem bar_moveTo (epoch : Epoch) (now : Instant) :
    (standing.moveTo epoch now).bar = standing.bar := by
  unfold moveTo
  split
  · rfl
  · rfl

theorem bar_peersChanged (room : RoomId) (epoch : Epoch) (peers : List Peer) (now : Instant) :
    (standing.peersChanged room epoch peers now).bar = standing.bar := by
  unfold peersChanged
  split
  · unfold stash
    split
    · rfl
    · rfl
  · split
    · rfl
    · exact bar_moveTo _ epoch now

theorem bar_unstash (room : RoomId) (epoch : Epoch) (now : Instant) :
    (standing.unstash room epoch now).bar = standing.bar := by
  unfold unstash
  split
  · split
    · exact bar_peersChanged _ _ _ _ now
    · rfl
  · rfl

theorem bar_applyPlacement (room : Option RoomId) (epoch : Epoch) (tracks : Option Tracks)
    (peers : List Peer) (now : Instant) :
    (standing.applyPlacement room epoch tracks peers now).bar = (standing.enter room tracks).bar ∨
      room = standing.room ∧
        (standing.applyPlacement room epoch tracks peers now).bar = standing.bar := by
  unfold applyPlacement
  split
  · rename_i stale
    exact Or.inr ⟨stale.2.1, rfl⟩
  · cases room with
    | none => exact Or.inl rfl
    | some room => exact Or.inl ((bar_unstash _ room epoch now).trans (bar_peersChanged _ _ _ _ now))

end Standing

namespace KeyManager

variable {crypto : Crypto}

theorem room_placement (keys : KeyManager crypto) (clock : Clock) {room : Option RoomId}
    (epoch : Epoch) (tracks : Option Tracks) (peers : List Peer) (other : room ≠ keys.room) :
    (keys.perform clock (.placement room epoch tracks peers)).2.room = room := by
  have bars := keys.standing.bar_applyPlacement room epoch tracks peers clock.now
  rw [← keys.standing_applyPlacement room epoch tracks peers clock] at bars
  have entered := bars.resolve_right fun same => other same.1
  unfold Standing.enter at entered
  rw [if_pos (show room ≠ keys.standing.room from other)] at entered
  exact (Prod.mk.inj entered).1

/-- A placement in another room leaves the room; every other operation stays with its bar. -/
theorem bar_perform (keys : KeyManager crypto) (clock : Clock) (op : KeyOp crypto) :
    (keys.perform clock op).2.standing.bar = keys.standing.bar ∨
      ∃ room epoch tracks peers, op = .placement room epoch tracks peers ∧ room ≠ keys.room := by
  cases op with
  | placement room epoch tracks peers =>
    by_cases other : room ≠ keys.standing.room
    · exact Or.inr ⟨room, epoch, tracks, peers, rfl, other⟩
    · have bars := keys.standing.bar_applyPlacement room epoch tracks peers clock.now
      rw [← keys.standing_applyPlacement room epoch tracks peers clock] at bars
      refine Or.inl ?_
      rcases bars with entered | same
      · unfold Standing.enter at entered
        rw [if_neg other] at entered
        exact entered
      · exact same.2
  | peers room epoch peers =>
    refine Or.inl ((congrArg Standing.bar (keys.standing_peersChanged room epoch peers clock)).trans ?_)
    exact keys.standing.bar_peersChanged room epoch peers clock.now
  | presence user room =>
    obtain ⟨present, frame⟩ := keys.setPresence_frame user room
    refine Or.inl ?_
    dsimp only [perform]
    generalize keys.setPresence user room = shown at frame
    obtain ⟨shown, after⟩ := shown
    dsimp only at frame ⊢
    subst frame
    split
    · unfold reapplyPeers
      split
      · rfl
      · exact (congrArg Standing.bar (standing_peersChanged _ _ _ _ clock)).trans
          (Standing.bar_peersChanged _ _ _ _ clock.now)
    · rfl
  | senderKey sender epoch wrapped =>
    exact Or.inl (congrArg Standing.bar (keys.standing_senderKey sender epoch wrapped clock.now))
  | renew encryption => exact Or.inl rfl
  | receive mediaId epoch =>
    exact Or.inl (congrArg Standing.bar (keys.standing_recvKey mediaId epoch))
  | tick => exact Or.inl rfl

/-! ### Secrets and the keys derived from them -/

/-- Every secret held, and every secret that a cached key is derived from, is an allowed one. -/
structure Derives (allowed : crypto.Secret → Prop) (keys : KeyManager crypto) : Prop where
  received : ∀ key received, keys.received.lookup key = some received → allowed received.secret
  cached : ∀ key owner trackKey, keys.recvKeys.lookup key = some (owner, trackKey) →
    ∃ secret, allowed secret ∧ trackKey = crypto.derive secret key.1

variable {allowed : crypto.Secret → Prop} {keys before after : KeyManager crypto}

theorem Derives.retires {now : Instant} (derives : before.Derives allowed)
    (retires : before.Retires now after) (recvKeys : after.recvKeys = before.recvKeys) :
    after.Derives allowed where
  received := fun key received found => by
    obtain ⟨departs, old, there, rfl⟩ := retires.found found
    rw [secret_retired]
    exact derives.received key old there
  cached := fun key owner trackKey found => by
    rw [recvKeys] at found
    exact derives.cached key owner trackKey found

theorem Derives.recvKey (derives : keys.Derives allowed) (id : MediaId) (epoch : Epoch) :
    (keys.recvKey id epoch).2.Derives allowed ∧
      ∀ key, (keys.recvKey id epoch).1 = some key →
        ∃ secret, allowed secret ∧ key = crypto.derive secret id := by
  have finds := keys.recvKey_finds id epoch
  generalize keys.recvKey id epoch = result at finds
  obtain ⟨key, after⟩ := result
  dsimp only at finds ⊢
  cases finds with
  | nothing => exact ⟨derives, nofun⟩
  | cached owner key owned found =>
    refine ⟨derives, fun other same => ?_⟩
    cases same
    exact derives.cached (id, epoch) owner key found
  | derived owner received owned found =>
    have held := derives.received (owner, epoch) received found
    refine ⟨⟨derives.received, fun key user trackKey cached => ?_⟩, fun other same => ?_⟩
    · dsimp only at cached
      rw [Map.lookup_insert_ite] at cached
      split at cached
      · rename_i same
        cases cached
        rw [same]
        exact ⟨received.secret, held, rfl⟩
      · exact derives.cached key user trackKey cached
    · cases same
      exact ⟨received.secret, held, rfl⟩

theorem Derives.store (derives : keys.Derives allowed) (room : RoomId) (sender : UserId)
    (epoch : Epoch) {received : Received crypto} (secret : allowed received.secret)
    (now : Instant) : (keys.store room sender epoch received now).Derives allowed where
  received := fun key other found => by
    rw [lookup_store] at found
    split at found
    · cases found
      exact secret
    · obtain ⟨old, there, rfl⟩ := Option.map_eq_some_iff.mp found
      rw [secret_retired]
      exact derives.received key old there
  cached := fun key owner trackKey found => by
    rw [recvKeys_store, Map.lookup_retain, Option.filter_eq_some_iff] at found
    exact derives.cached key owner trackKey found.1

theorem Derives.tick (derives : keys.Derives allowed) (now : Instant) :
    (keys.tick now).Derives allowed where
  received := fun key received found => by
    have found : (keys.received.retain _).lookup key = some received := found
    rw [Map.lookup_retain, Option.filter_eq_some_iff] at found
    exact derives.received key received found.1
  cached := fun key owner trackKey found => by
    have found : (keys.recvKeys.retain _).lookup key = some (owner, trackKey) := found
    rw [Map.lookup_retain, Option.filter_eq_some_iff] at found
    exact derives.cached key owner trackKey found.1

/-- A change brings in no secret but the one it accepts. -/
theorem Change.derives {now : Instant} {wraps : KeyManager crypto → RoomId → Prop}
    {acceptance : Option (Acceptance crypto)} (change : Change now wraps before acceptance after)
    (derives : before.Derives allowed)
    (accepts : ∀ accepted, acceptance = some accepted → allowed accepted.secret) :
    after.Derives allowed := by
  cases change with
  | store acceptance retireAt admits =>
    exact derives.store _ _ _ (accepts acceptance rfl) now
  | trust room peers clock atNow there =>
    refine derives.retires (before.retires_trusting room peers clock) ?_
    obtain ⟨checked, refused, frame⟩ := before.trusting_frame room peers clock
    rw [frame]
    rfl
  | moveTo epoch =>
    refine derives.retires (before.retires_moveTo epoch now) ?_
    exact apply_ite KeyManager.recvKeys _ _ _ |>.trans (ite_self _)
  | wrap room =>
    unfold wrapForNewPeers
    split
    · exact derives
    · exact ⟨derives.received, derives.cached⟩
  | holdEarly sender epoch wrapped arrived =>
    unfold KeyManager.holdEarly
    split
    · exact ⟨derives.received, derives.cached⟩
    · exact derives
  | takePlace room tracks =>
    unfold changeRoom
    split
    · refine ⟨fun key received found => ?_, fun key owner trackKey found => ?_⟩
      · cases found
      · cases found
    · exact ⟨derives.received, derives.cached⟩
  | recvKey id epoch => exact (derives.recvKey id epoch).1
  | tick => exact derives.tick now
  | newSecret => exact ⟨derives.received, derives.cached⟩
  | takeEarly => exact ⟨derives.received, derives.cached⟩
  | advance => exact ⟨derives.received, derives.cached⟩
  | stash => exact ⟨derives.received, derives.cached⟩
  | present => exact ⟨derives.received, derives.cached⟩
  | replaceEncryption => exact ⟨derives.received, derives.cached⟩

/-! ### Changes and where they leave a key manager -/

theorem Change.turns {now : Instant} {wraps : KeyManager crypto → RoomId → Prop}
    {acceptance : Option (Acceptance crypto)}
    (change : Change now wraps before acceptance after) :
    Ledger.Turns before.ledger after.ledger := by
  have noted : ∀ {keys : KeyManager crypto}, keys.standing = before.standing →
      keys.stores = before.stores → Ledger.Turns before.ledger keys.ledger := by
    intro keys standing stores
    unfold ledger
    rw [standing, stores]
  cases change with
  | trust room peers clock atNow there =>
    obtain ⟨checked, refused, frame⟩ := before.trusting_frame room peers clock
    rw [frame]
    exact .single (.note before.ledger peers before.stashed before.present)
  | moveTo epoch notEarlier =>
    have same : (before.moveTo epoch now).ledger =
        { before.ledger with standing := before.ledger.standing.moveTo epoch now } := by
      unfold KeyManager.moveTo ledger Standing.moveTo
      by_cases other : epoch ≠ before.epoch
      · rw [if_pos other, if_pos (show epoch ≠ before.standing.epoch from other)]
        rfl
      · rw [if_neg other, if_neg (show ¬ epoch ≠ before.standing.epoch from other)]
    rw [same]
    exact .single (.moveTo before.ledger epoch now)
  | newSecret => exact .refl
  | wrap room there named =>
    exact noted (before.standing_wrapForNewPeers room) (before.stores_wrapForNewPeers room)
  | takeEarly => exact .refl
  | holdEarly sender epoch wrapped arrived =>
    unfold KeyManager.holdEarly
    split
    · exact .refl
    · exact .refl
  | store acceptance retireAt admits =>
    refine .single (.store before.ledger ⟨acceptance.room, before.epoch, before.epochSince,
      acceptance.sender, acceptance.epoch, now⟩ ⟨admits.inRoom, fun floor barred => ?_, ?_⟩)
    · have above := admits.aboveFloor
      have barred : before.floor = some floor := barred
      rw [belowFloor, decide_eq_false_iff_not, barred, Option.any_some, decide_eq_true_iff] at above
      exact Nat.lt_of_not_le fun below => above (Or.inl below)
    · rcases Nat.lt_or_eq_of_le admits.notLater with earlier | same
      · have above := admits.aboveFloor
        rw [belowFloor, decide_eq_false_iff_not, not_or, Nat.not_lt] at above
        exact Or.inr ⟨le_antisymm earlier (above.2.trans (min_le_left _ _)), admits.inTime earlier⟩
      · exact Or.inl same
  | advance => exact .refl
  | stash stashed => exact .single (.note before.ledger before.roomPeers stashed before.present)
  | takePlace room tracks => exact before.takePlace_turns room tracks
  | present present => exact .single (.note before.ledger before.roomPeers before.stashed present)
  | replaceEncryption encryption => exact .refl
  | recvKey mediaId epoch =>
    obtain ⟨recvKeys, same⟩ := before.recvKey_cache mediaId epoch
    rw [same]
    exact .refl
  | tick => exact .refl

/-- A change stays in the room with its bar and goes back to no earlier epoch, or takes a place
in another room. -/
theorem Change.stands {now : Instant} {wraps : KeyManager crypto → RoomId → Prop}
    {acceptance : Option (Acceptance crypto)}
    (change : Change now wraps before acceptance after) :
    (after.room = before.room ∧ after.floor = before.floor ∧ before.epoch ≤ after.epoch) ∨
      ∃ room tracks, room ≠ before.room ∧ after = (before.changeRoom room).takePlace room tracks := by
  have same : ∀ {keys : KeyManager crypto}, keys.standing = before.standing →
      keys.room = before.room ∧ keys.floor = before.floor ∧ before.epoch ≤ keys.epoch := by
    intro keys standing
    exact ⟨congrArg Standing.room standing, congrArg Standing.floor standing,
      (congrArg Standing.epoch standing).ge⟩
  cases change with
  | trust room peers clock atNow there =>
    obtain ⟨checked, refused, frame⟩ := before.trusting_frame room peers clock
    rw [frame]
    exact Or.inl ⟨rfl, rfl, le_rfl⟩
  | moveTo epoch notEarlier =>
    unfold KeyManager.moveTo
    split
    · exact Or.inl ⟨rfl, rfl, notEarlier⟩
    · exact Or.inl ⟨rfl, rfl, le_rfl⟩
  | wrap room there named => exact Or.inl (same (before.standing_wrapForNewPeers room))
  | holdEarly sender epoch wrapped arrived =>
    unfold KeyManager.holdEarly
    split
    · exact Or.inl ⟨rfl, rfl, le_rfl⟩
    · exact Or.inl ⟨rfl, rfl, le_rfl⟩
  | takePlace room tracks =>
    by_cases other : room ≠ before.room
    · exact Or.inr ⟨room, tracks, other, rfl⟩
    · refine Or.inl ?_
      unfold changeRoom
      rw [if_neg other]
      exact ⟨not_not.mp other, rfl, le_rfl⟩
  | recvKey mediaId epoch => exact Or.inl (same (before.standing_recvKey mediaId epoch))
  | newSecret => exact Or.inl ⟨rfl, rfl, le_rfl⟩
  | takeEarly => exact Or.inl ⟨rfl, rfl, le_rfl⟩
  | store acceptance retireAt admits => exact Or.inl ⟨rfl, rfl, le_rfl⟩
  | advance => exact Or.inl ⟨rfl, rfl, le_rfl⟩
  | stash stashed => exact Or.inl ⟨rfl, rfl, le_rfl⟩
  | present present => exact Or.inl ⟨rfl, rfl, le_rfl⟩
  | replaceEncryption encryption => exact Or.inl ⟨rfl, rfl, le_rfl⟩
  | tick => exact Or.inl ⟨rfl, rfl, le_rfl⟩

/-! ### One stay holds a secret -/

/-- It holds neither the secret nor a key derived from it. -/
abbrev Lacks (secret : crypto.Secret) : KeyManager crypto → Prop := Derives (· ≠ secret)

/-- It is in the room, in a stay that began below the epoch and has reached it. -/
structure Stays (room : RoomId) (epoch : Epoch) (keys : KeyManager crypto) : Prop where
  inRoom : keys.room = some room
  reached : epoch ≤ keys.epoch
  above : ∀ floor, keys.floor = some floor → floor < epoch

/-- In the room it would refuse the epoch. -/
def Barred (room : RoomId) (epoch : Epoch) (keys : KeyManager crypto) : Prop :=
  keys.room = some room → ∃ floor, keys.floor = some floor ∧ epoch ≤ floor

/-- The secret may be held: the room's floor has reached its epoch. -/
structure Home (room : RoomId) (epoch : Epoch) (keys : KeyManager crypto) : Prop where
  stays : keys.Stays room epoch
  floored : Ledger.Floored room epoch keys.ledger

/-- The secret isn't held, and never will be. -/
structure Away (secret : crypto.Secret) (room : RoomId) (epoch : Epoch)
    (keys : KeyManager crypto) : Prop where
  lacks : keys.Lacks secret
  floored : Ledger.Floored room epoch keys.ledger
  barred : keys.Barred room epoch

/-- The secret is one of an epoch of a room, above 0, and is unwrapped as such only. -/
structure Belongs (secret : crypto.Secret) (room : RoomId) (epoch : Epoch) : Prop where
  started : 0 < epoch
  unwraps : ∀ pair senderKey context wrapped,
    crypto.unwrap pair senderKey context wrapped = some secret →
      context.room = room ∧ context.epoch = epoch

variable {secret : crypto.Secret} {room : RoomId} {epoch : Epoch} {now : Instant}
  {wraps : KeyManager crypto → RoomId → Prop} {acceptance : Option (Acceptance crypto)}

theorem Belongs.of_admits (belongs : Belongs secret room epoch) {accepted : Acceptance crypto}
    {retireAt : Option Instant} (admits : before.Admits accepted retireAt now)
    (same : accepted.secret = secret) :
    accepted.room = room ∧ accepted.epoch = epoch ∧ before.Stays room epoch := by
  obtain ⟨peer, wrapped, _, _, unwrapped⟩ := admits.trusted
  rw [same] at unwrapped
  have bound : accepted.room = room ∧ accepted.epoch = epoch := by
    unfold unwrapWith at unwrapped
    rcases Option.or_eq_some_iff.mp unwrapped with own | ⟨_, retired⟩
    · exact belongs.unwraps _ _ _ _ own
    · obtain ⟨old, _, retired⟩ := Option.bind_eq_some_iff.mp retired
      exact belongs.unwraps _ _ _ _ retired
  obtain ⟨rfl, rfl⟩ := bound
  refine ⟨rfl, rfl, admits.inRoom, admits.notLater, fun floor barred => ?_⟩
  have above := admits.aboveFloor
  rw [belowFloor, decide_eq_false_iff_not, barred, Option.any_some, decide_eq_true_iff] at above
  exact Nat.lt_of_not_le fun below => above (Or.inl below)

/-- Where the secret comes in, it stays. -/
theorem Change.lacks (change : Change now wraps before acceptance after)
    (belongs : Belongs secret room epoch) (raised : before.ledger.Raised)
    (lacks : before.Lacks secret) : after.Lacks secret ∨ after.Home room epoch := by
  by_cases accepts : ∃ accepted, acceptance = some accepted ∧ accepted.secret = secret
  · obtain ⟨accepted, rfl, same⟩ := accepts
    have floored : before.Stays room epoch → Ledger.Floored room epoch before.ledger := by
      intro stays
      have moved : before.epoch ≠ 0 := (belongs.started.trans_le stays.reached).ne'
      obtain ⟨floor, kept, enough⟩ := raised room stays.inRoom moved
      exact ⟨floor, kept, stays.reached.trans enough⟩
    have turns := change.turns
    cases change with
    | store _ retireAt admits =>
      obtain ⟨_, _, stays⟩ := belongs.of_admits admits same
      exact Or.inr ⟨⟨stays.inRoom, stays.reached, stays.above⟩,
        Ledger.Turns.keeps (fun _ _ => Ledger.Floored.turn) turns (floored stays)⟩
  · exact Or.inl (change.derives lacks fun accepted some_ same => accepts ⟨accepted, some_, same⟩)

/-- The secret stays home until the room is left, and with the room it is gone for good. -/
theorem Change.home (change : Change now wraps before acceptance after)
    (home : before.Home room epoch) : after.Home room epoch ∨ after.Away secret room epoch := by
  have floored := Ledger.Turns.keeps (fun _ _ => Ledger.Floored.turn) change.turns home.floored
  rcases change.stands with ⟨sameRoom, sameFloor, notEarlier⟩ | ⟨place, tracks, other, same⟩
  · refine Or.inl ⟨⟨sameRoom.trans home.stays.inRoom, home.stays.reached.trans notEarlier, ?_⟩, floored⟩
    rw [sameFloor]
    exact home.stays.above
  · refine Or.inr ⟨?_, floored, ?_⟩
    · rw [same]
      unfold changeRoom
      rw [if_pos other]
      refine ⟨fun key received found => ?_, fun key owner trackKey found => ?_⟩
      · cases found
      · cases found
    · intro there
      have same' : after.room = place := by
        rw [same]
        rfl
      rw [same'] at there
      rw [there, home.stays.inRoom] at other
      exact absurd rfl other

theorem Change.away (change : Change now wraps before acceptance after)
    (belongs : Belongs secret room epoch) (away : before.Away secret room epoch) :
    after.Away secret room epoch := by
  refine ⟨change.derives away.lacks fun accepted some_ same => ?_,
    Ledger.Turns.keeps (fun _ _ => Ledger.Floored.turn) change.turns away.floored, ?_⟩
  · subst some_
    cases change with
    | store _ retireAt admits =>
      obtain ⟨_, _, stays⟩ := belongs.of_admits admits same
      obtain ⟨floor, barred, enough⟩ := away.barred stays.inRoom
      exact absurd (stays.above floor barred) (Nat.not_lt.mpr enough)
  · rcases change.stands with ⟨sameRoom, sameFloor, _⟩ | ⟨place, tracks, other, same⟩
    · unfold Barred
      rw [sameRoom, sameFloor]
      exact away.barred
    · intro there
      obtain ⟨floor, kept, enough⟩ := away.floored
      refine ⟨floor, ?_, enough⟩
      rw [same] at there ⊢
      have there : place = some room := there
      unfold changeRoom
      rw [if_pos other, there]
      exact kept

theorem raised_perform (clock : Clock) (op : KeyOp crypto) (raised : keys.ledger.Raised) :
    (keys.perform clock op).2.ledger.Raised :=
  Ledger.Turns.keeps (fun _ _ => Ledger.Raised.turn) (keys.perform_turns clock op) raised

theorem Away.perform (away : keys.Away secret room epoch) (belongs : Belongs secret room epoch)
    (clock : Clock) (op : KeyOp crypto) : (keys.perform clock op).2.Away secret room epoch :=
  perform_keeps _ (fun _ _ _ _ _ change away => change.away belongs away) clock op away

theorem Home.perform (home : keys.Home room epoch) (belongs : Belongs secret room epoch)
    (clock : Clock) (op : KeyOp crypto) :
    (keys.perform clock op).2.Home room epoch ∨ (keys.perform clock op).2.Away secret room epoch := by
  refine perform_keeps (fun keys => keys.Home room epoch ∨ keys.Away secret room epoch)
    (fun _ _ _ _ _ change holds => ?_) clock op (Or.inl home)
  rcases holds with home | away
  · exact change.home home
  · exact Or.inr (change.away belongs away)

/-- What becomes of a key manager without the secret. -/
theorem Derives.perform (lacks : keys.Lacks secret) (belongs : Belongs secret room epoch)
    (raised : keys.ledger.Raised) (clock : Clock) (op : KeyOp crypto) :
    (keys.perform clock op).2.Lacks secret ∨ (keys.perform clock op).2.Home room epoch := by
  have held := perform_keeps (fun keys => keys.ledger.Raised ∧
      (keys.Lacks secret ∨ keys.Home room epoch))
    (fun _ _ _ _ after change holds => ?_) clock op ⟨raised, Or.inl lacks⟩
  · exact held.2
  · obtain ⟨raised, holds⟩ := holds
    refine ⟨Ledger.Turns.keeps (fun _ _ => Ledger.Raised.turn) change.turns raised, ?_⟩
    rcases holds with lacks | home
    · exact change.lacks belongs raised lacks
    · have stays : after.Home room epoch ∨ after.Away secret room epoch := change.home home
      rcases stays with home | away
      · exact Or.inr home
      · exact Or.inl away.lacks

end KeyManager

/-! ### What a task does -/

/-- The track's window has the number, or has left it behind. -/
def Marks (sinks : Map MediaId Sink) (id : MediaId) (seq : Nat) : Prop :=
  ∃ sink, sinks.lookup id = some sink ∧ sink.window.Marks seq

namespace Waiting

variable {crypto : Crypto} {aead : Aead crypto} {allowed : crypto.Secret → Prop}
  {before after : Waiting crypto}

/-- The key that a datagram in hand is opened with is derived from an allowed secret. -/
def Derives (allowed : crypto.Secret → Prop) (waiting : Waiting crypto) : Prop :=
  ∀ arrival key generation rest, waiting.progress = .looked arrival (some key) generation rest →
    ∃ secret, allowed secret ∧ key = crypto.derive secret waiting.mediaId

theorem Turn.mediaId (turn : Turn aead before after) : after.mediaId = before.mediaId := by
  cases turn with
  | _ => rfl

theorem Turn.derives (turn : Turn aead before after) (derives : before.Derives allowed)
    (keys : before.keys.Derives allowed) : after.Derives allowed := by
  cases turn with
  | stay => exact derives
  | rekey keys follows => exact derives
  | lookUp arrival rest at_ =>
    intro other key generation later looked
    injection looked with _ returned
    exact (keys.recvKey before.mediaId arrival.epoch).2 key returned
  | arrive => exact nofun
  | malformed => exact nofun
  | expire => exact nofun
  | skip => exact nofun
  | retake => exact nofun
  | hold => exact nofun
  | discard => exact nofun
  | opens => exact nofun

end Waiting

namespace Listening

variable {crypto : Crypto} {aead : Aead crypto}

/-- It is a step of the task or its consumer. -/
def Input.Own : Input crypto → Prop
  | .perform _ _ | .setSinks _ => False
  | _ => True

variable (listening : Listening crypto)

theorem accept_spec (header : Header) (plaintext : List UInt8) (length : Nat) (now : Instant) :
    let after := listening.accept header plaintext length now
    after.keys = listening.keys ∧
      (∀ id seq, Marks listening.sinks id seq → Marks after.sinks id seq) ∧
      ((listening.sinks.lookup listening.track.mediaId).isSome →
        Marks after.sinks listening.track.mediaId header.seq) := by
  intro after
  cases found : listening.sinks.lookup listening.track.mediaId with
  | none =>
    have same : after = listening := by
      unfold after accept
      rw [found]
    rw [same]
    exact ⟨rfl, fun _ _ marks => marks, nofun⟩
  | some sink =>
    have recorded : after.keys = listening.keys ∧ after.sinks =
        listening.sinks.insert listening.track.mediaId (sink.accept header.seq length).2 := by
      unfold after accept
      rw [found]
      dsimp only
      split
      · exact ⟨rfl, rfl⟩
      · exact ⟨rfl, rfl⟩
    have window : (sink.accept header.seq length).2.window = (sink.window.check header.seq).2 := rfl
    refine ⟨recorded.1, fun id seq ⟨other, there, marks⟩ => ?_, fun _ => ?_⟩
    · rw [recorded.2]
      by_cases same : id = listening.track.mediaId
      · subst same
        rw [found, Option.some_inj] at there
        subst there
        exact ⟨_, Finmap.lookup_insert _, window ▸ marks.check header.seq⟩
      · exact ⟨other, (Finmap.lookup_insert_of_ne _ same).trans there, marks⟩
    · rw [recorded.2]
      exact ⟨_, Finmap.lookup_insert _, window ▸ sink.window.marks_check header.seq⟩

theorem handle_spec (call : Call crypto) (arrival : Arrival) (key : Option crypto.TrackKey)
    (generation : Nat) (rest : List Arrival) :
    let after := listening.handle aead call arrival key generation rest
    after.keys = listening.keys ∧
      (∀ id seq, Marks listening.sinks id seq → Marks after.sinks id seq) ∧
      ∀ datagram, listening.handles aead arrival key = some datagram →
        arrival.datagram = datagram ∧ ∃ header plaintext trackKey, key = some trackKey ∧
          aead.open_ trackKey datagram = .ok (header, plaintext) ∧
          ¬ Marks listening.sinks listening.track.mediaId header.seq ∧
          Marks after.sinks listening.track.mediaId header.seq := by
  intro after
  unfold after handle handles
  dsimp only
  cases opened : aead.opening key arrival.datagram with
  | waits => exact ⟨rfl, fun _ _ marks => marks, nofun⟩
  | fails => exact ⟨rfl, fun _ _ marks => marks, nofun⟩
  | opens header plaintext =>
    dsimp only
    obtain ⟨keys, kept, recorded⟩ := accept_spec
      { listening with
        call := some { call with progress := .lookUp rest }
        opened := listening.opened ++ [arrival] }
      header plaintext arrival.datagram.length call.now
    refine ⟨keys, kept, fun datagram passes => ?_⟩
    cases found : listening.sinks.lookup listening.track.mediaId with
    | none =>
      rw [found] at passes
      cases passes
    | some sink =>
      rw [found] at passes
      dsimp only at passes
      split at passes
      · rename_i new
        cases passes
        obtain ⟨trackKey, rfl, ok⟩ : ∃ trackKey, key = some trackKey ∧
            aead.open_ trackKey arrival.datagram = .ok (header, plaintext) := by
          unfold Aead.opening at opened
          split at opened
          · cases opened
          · rename_i trackKey
            refine ⟨trackKey, rfl, ?_⟩
            split at opened
            · rename_i opens
              cases opened
              exact opens
            · cases opened
            · cases opened
        refine ⟨rfl, header, plaintext, trackKey, rfl, ok, fun ⟨other, there, marks⟩ => ?_,
          recorded (by rw [found]; rfl)⟩
        rw [found, Option.some_inj] at there
        subst there
        exact (sink.window.peek_ne_new header.seq).mpr marks new
      · cases passes

/-- A step of a task only looks up keys, and forgets nothing that a window has. -/
theorem step_own {input : Input crypto} (own : input.Own) :
    let after := listening.step aead input
    (after.keys = listening.keys ∨
      ∃ id epoch, after.keys = (listening.keys.recvKey id epoch).2) ∧
      ∀ id seq, Marks listening.sinks id seq → Marks after.sinks id seq := by
  intro after
  have stays : ∀ {after : Listening crypto}, after.keys = listening.keys →
      after.sinks = listening.sinks → (after.keys = listening.keys ∨
        ∃ id epoch, after.keys = (listening.keys.recvKey id epoch).2) ∧
        ∀ id seq, Marks listening.sinks id seq → Marks after.sinks id seq :=
    fun keys sinks => ⟨Or.inl keys, fun _ _ marks => sinks ▸ marks⟩
  cases input with
  | perform clock op => exact own.elim
  | setSinks sinks => exact own.elim
  | consume => exact stays rfl rfl
  | drop => exact stays rfl rfl
  | close =>
    unfold after step
    dsimp only
    split
    · exact stays rfl rfl
    · exact stays rfl rfl
  | receive datagram now =>
    unfold after step
    dsimp only
    split
    · exact stays rfl rfl
    · unfold receive
      split
      · exact stays rfl rfl
      · exact stays rfl rfl
  | tick now =>
    unfold after step
    dsimp only
    split
    · exact stays rfl rfl
    · exact stays rfl rfl
  | resume =>
    unfold after step
    dsimp only
    cases listening.call with
    | none => exact stays rfl rfl
    | some call =>
      dsimp only
      split
      · exact stays rfl rfl
      · unfold resume
        cases call.progress with
        | retry fresh =>
          unfold retryPending
          dsimp only
          split
          · exact stays rfl rfl
          · exact stays rfl rfl
        | lookUp arrivals =>
          cases arrivals with
          | nil => exact stays rfl rfl
          | cons arrival rest => exact ⟨Or.inr ⟨_, _, rfl⟩, fun _ _ marks => marks⟩
        | looked arrival key generation rest =>
          obtain ⟨keys, kept, _⟩ := @handle_spec _ aead listening call arrival key
            generation rest
          exact ⟨Or.inl keys, kept⟩

/-- What a step passes on is opened with the key the task looked up, and its number is new to
the window, which has it afterwards. -/
theorem passes_spec {input : Input crypto} {datagram : List UInt8}
    (passes : listening.passes aead input = some datagram) :
    ∃ arrival key generation rest header plaintext,
      listening.waiting.progress = .looked arrival (some key) generation rest ∧
      aead.open_ key datagram = .ok (header, plaintext) ∧
      ¬ Marks listening.sinks listening.track.mediaId header.seq ∧
      Marks (listening.step aead input).sinks listening.track.mediaId header.seq := by
  cases input with
  | resume =>
    unfold Listening.passes step at *
    dsimp only at passes ⊢
    cases calling : listening.call with
    | none =>
      rw [calling] at passes
      cases passes
    | some call =>
      rw [calling] at passes
      dsimp only at passes ⊢
      split at passes
      · cases passes
      · rename_i running
        rw [if_neg running]
        unfold resume
        cases progress : call.progress with
        | retry fresh =>
          rw [progress] at passes
          cases passes
        | lookUp arrivals =>
          rw [progress] at passes
          cases passes
        | looked arrival key generation rest =>
          rw [progress] at passes
          obtain ⟨_, _, spec⟩ := @handle_spec _ aead listening call arrival key generation
            rest
          obtain ⟨_, header, plaintext, trackKey, rfl, ok, unmarked, marked⟩ :=
            spec datagram passes
          refine ⟨arrival, trackKey, generation, rest, header, plaintext, ?_, ok, unmarked, marked⟩
          unfold waiting
          rw [calling]
          exact progress
  | perform clock op => cases passes
  | setSinks sinks => cases passes
  | consume => cases passes
  | drop => cases passes
  | close => cases passes
  | receive other now => cases passes
  | tick now => cases passes

end Listening

/-! ### What a connection does -/

/-- It may bring in sender keys. -/
def KeyOp.applies {crypto : Crypto} : KeyOp crypto → Bool
  | .placement _ _ _ _ | .peers _ _ _ | .presence _ _ | .senderKey _ _ _ => true
  | .renew _ | .receive _ _ | .tick => false

namespace Receiver

variable {crypto : Crypto} {aead : Aead crypto} {allowed : crypto.Secret → Prop}

def Input.applies : Input crypto → Bool
  | .perform _ op => op.applies
  | _ => false

/-- Every secret held, and every secret that a key in use is derived from, is an allowed one. -/
structure Derives (allowed : crypto.Secret → Prop) (receiver : Receiver crypto) : Prop where
  keys : receiver.keys.Derives allowed
  looked : ∀ listener ∈ receiver.listeners,
    (listener.listening receiver.keys receiver.sinks).waiting.Derives allowed

variable (receiver : Receiver crypto)

theorem own_of_listening {listener : Listener crypto} {fed : Bool} {input : TaskInput}
    {step : Listening.Input crypto} (same : input.listening listener.inbox fed = some step) :
    step.Own := by
  cases input with
  | take now =>
    obtain ⟨datagram, _, rfl⟩ := Option.map_eq_some_iff.mp same
    trivial
  | close =>
    unfold TaskInput.listening at same
    dsimp only at same
    split at same
    · cases same
    · cases same
      trivial
  | tick => cases same; trivial
  | resume => cases same; trivial
  | consume => cases same; trivial
  | drop => cases same; trivial

/-- What a connection does without applying anything of the server's. -/
structure Calm (before after : Receiver crypto) : Prop where
  standing : after.keys.standing = before.keys.standing
  derives : ∀ allowed, before.Derives allowed → after.Derives allowed
  marks : ∀ id seq, Marks before.sinks id seq → Marks after.sinks id seq

theorem Calm.refl : receiver.Calm receiver := ⟨rfl, fun _ derives => derives, fun _ _ marks => marks⟩

theorem calm_task (index : Nat) (input : TaskInput) :
    receiver.Calm (receiver.task aead index input) := by
  unfold task
  split
  · exact .refl receiver
  · rename_i listener at_
    split
    · exact .refl receiver
    · rename_i step same
      have member := List.mem_of_getElem? at_
      obtain ⟨keys, marks⟩ := @Listening.step_own _ aead
        (listener.listening receiver.keys receiver.sinks) _ (own_of_listening same)
      have turn := @Listening.step_turns _ aead
        (listener.listening receiver.keys receiver.sinks) step
      refine ⟨?_, fun allowed derives => ⟨?_, ?_⟩, marks⟩
      · rcases keys with same | ⟨id, epoch, same⟩
        · exact congrArg KeyManager.standing same
        · exact (congrArg KeyManager.standing same).trans (receiver.keys.standing_recvKey id epoch)
      · have kept : ((listener.listening receiver.keys receiver.sinks).step aead step).keys.Derives
            allowed := by
          rcases keys with same | ⟨id, epoch, same⟩
          · rw [same]
            exact derives.keys
          · rw [same]
            exact (derives.keys.recvKey id epoch).1
        exact kept
      · intro other there
        rcases List.mem_or_eq_of_mem_set there with before | rfl
        · exact derives.looked other before
        · exact turn.derives (derives.looked listener member) derives.keys

theorem calm_receive (datagram : List UInt8) : receiver.Calm (receiver.receive datagram) := by
  unfold receive
  split
  · exact .refl receiver
  · split
    · split
      · rename_i index _ _ listener at_
        split
        · exact .refl receiver
        · split
          · exact ⟨rfl, fun _ derives => ⟨derives.keys, derives.looked⟩, fun _ _ marks => marks⟩
          · split
            · refine ⟨rfl, fun allowed derives => ⟨derives.keys, fun other there => ?_⟩,
                fun _ _ marks => marks⟩
              rcases List.mem_or_eq_of_mem_set there with before | rfl
              · exact derives.looked other before
              · exact derives.looked listener (List.mem_of_getElem? at_)
            · exact .refl receiver
      · exact .refl receiver
    · exact .refl receiver

theorem calm_subscribe (mediaId : MediaId) (kind : Kind) (capacity : Nat) :
    receiver.Calm (receiver.subscribe mediaId kind capacity) := by
  refine ⟨rfl, fun allowed derives => ⟨derives.keys, fun other there => ?_⟩,
    fun id seq ⟨sink, there, marks⟩ => ?_⟩
  · rcases List.mem_append.mp there with before | now
    · exact derives.looked other before
    · rw [List.mem_singleton.mp now]
      exact nofun
  · unfold subscribe
    by_cases same : id = mediaId
    · subst same
      refine ⟨sink, ?_, marks⟩
      rw [there]
      exact Finmap.lookup_insert _
    · exact ⟨sink, (Finmap.lookup_insert_of_ne _ same).trans there, marks⟩

theorem calm_step {input : Input crypto} (quiet : input.applies = false) :
    receiver.Calm (receiver.step aead input) := by
  cases input with
  | perform clock op =>
    cases op with
    | placement => cases quiet
    | peers => cases quiet
    | presence => cases quiet
    | senderKey => cases quiet
    | renew encryption =>
      exact ⟨rfl, fun _ derives => ⟨⟨derives.keys.received, derives.keys.cached⟩, derives.looked⟩,
        fun _ _ marks => marks⟩
    | receive mediaId epoch =>
      exact ⟨receiver.keys.standing_recvKey mediaId epoch,
        fun _ derives => ⟨(derives.keys.recvKey mediaId epoch).1, derives.looked⟩,
        fun _ _ marks => marks⟩
    | tick =>
      exact ⟨rfl, fun _ derives => ⟨derives.keys.tick clock.now, derives.looked⟩,
        fun _ _ marks => marks⟩
  | subscribe mediaId kind capacity => exact receiver.calm_subscribe mediaId kind capacity
  | unsubscribe mediaId =>
    exact ⟨rfl, fun _ derives => ⟨derives.keys, derives.looked⟩, fun _ _ marks => marks⟩
  | receive datagram => exact receiver.calm_receive datagram
  | task index input => exact receiver.calm_task index input

/-- What a step passes on is opened with a key derived from a secret in use, and its number is
new to the window of that key's track, which has it afterwards. -/
theorem passes_spec {input : Input crypto} {datagram : List UInt8}
    (passes : receiver.passes aead input = some datagram) :
    ∃ id key header plaintext,
      (∀ allowed, receiver.Derives allowed →
        ∃ secret, allowed secret ∧ key = crypto.derive secret id) ∧
      aead.open_ key datagram = .ok (header, plaintext) ∧
      ¬ Marks receiver.sinks id header.seq ∧ Marks (receiver.step aead input).sinks id header.seq := by
  cases input with
  | task index input =>
    unfold Receiver.passes step task at *
    dsimp only at passes ⊢
    obtain ⟨listener, at_, passes⟩ := Option.bind_eq_some_iff.mp passes
    obtain ⟨step, same, passes⟩ := Option.bind_eq_some_iff.mp passes
    obtain ⟨arrival, key, generation, rest, header, plaintext, looked, ok, unmarked, marked⟩ :=
      Listening.passes_spec _ passes
    refine ⟨listener.track.mediaId, key, header, plaintext, fun allowed derives => ?_, ok,
      unmarked, ?_⟩
    · exact derives.looked listener (List.mem_of_getElem? at_) arrival key generation rest looked
    · rw [at_]
      dsimp only
      rw [same]
      exact marked
  | perform clock op => cases passes
  | subscribe => cases passes
  | unsubscribe => cases passes
  | receive => cases passes

/-- A placement in another room forgets the windows; nothing else does. -/
theorem perform_spec (clock : Clock) (op : KeyOp crypto) :
    (receiver.perform clock op).keys = (receiver.keys.perform clock op).2 ∧
      (receiver.perform clock op).listeners = receiver.listeners ∧
      ((receiver.keys.perform clock op).2.standing.bar = receiver.keys.standing.bar →
        (receiver.perform clock op).sinks = receiver.sinks) := by
  cases op with
  | placement room epoch tracks peers =>
    unfold perform
    dsimp only
    split
    · rename_i other
      refine ⟨rfl, rfl, fun same => absurd ?_ other⟩
      rw [← receiver.keys.room_placement clock epoch tracks peers (Ne.symm other)]
      exact (Prod.mk.inj same).1.symm
    · exact ⟨rfl, rfl, fun _ => rfl⟩
  | _ => exact ⟨rfl, rfl, fun _ => rfl⟩

end Receiver

namespace Ledger

theorem Turn.me {before after : Ledger} (turn : Turn before after) :
    after.standing.me = before.standing.me := by
  cases turn with
  | moveTo epoch now =>
    dsimp only [Standing.moveTo]
    split
    · rfl
    · rfl
  | enter room tracks =>
    dsimp only [Standing.enter]
    split
    · rfl
    · rfl
  | note => rfl
  | store => rfl
  | reconnect => rfl

theorem Turns.me {before after : Ledger} (turns : Turns before after) :
    after.standing.me = before.standing.me :=
  @Turns.keeps (fun ledger => ledger.standing.me = before.standing.me)
    (fun _ _ turn same => turn.me.trans same) before after turns rfl

end Ledger

/-! ### The connections of a client -/

/-- It has a key for a datagram and hasn't recorded that one yet. -/
def Listener.decides {crypto : Crypto} (listener : Listener crypto) : Bool :=
  listener.call.any fun call =>
    match call.progress with
    | .looked _ key _ _ => key.isSome
    | .retry _ | .lookUp _ => false

/-- A call that has no key to use may use any. -/
theorem Listener.derives_of_undecided {crypto : Crypto} {listener : Listener crypto}
    (undecided : listener.decides = false) {keys : KeyManager crypto} {sinks : Map MediaId Sink}
    {allowed : crypto.Secret → Prop} :
    (listener.listening keys sinks).waiting.Derives allowed := by
  intro arrival key generation rest progress
  unfold Listener.decides at undecided
  unfold Listening.waiting Listener.listening at progress
  dsimp only at progress
  cases calling : listener.call with
  | none =>
    rw [calling] at progress
    cases progress
  | some call =>
    rw [calling] at progress undecided
    have progress : call.progress = .looked arrival (some key) generation rest := progress
    rw [Option.any_some, progress] at undecided
    cases undecided

/-- It leaves the room. -/
def Receiver.leaves {crypto : Crypto} (receiver : Receiver crypto) : Receiver.Input crypto → Bool
  | .perform _ (.placement room _ _ _) => room ≠ receiver.keys.room
  | _ => false

namespace Receiving

variable {crypto : Crypto} {aead : Aead crypto}

/-- Only the last connection applies what the server sends, and it leaves a room while no task
has yet to record a datagram that it has the key of. -/
def Undisturbed (receiving : Receiving crypto) : Input crypto → Prop
  | .connect _ _ => True
  | .on index input => ∀ receiver ∈ receiving.receivers[index]?,
    (input.applies = true → index + 1 = receiving.receivers.length) ∧
      (receiver.leaves input = true → ∀ listener ∈ receiver.listeners, listener.decides = false)

instance (receiving : Receiving crypto) : ∀ input, Decidable (receiving.Undisturbed input)
  | .connect _ _ => .isTrue trivial
  | .on index input => inferInstanceAs (Decidable (∀ receiver ∈ receiving.receivers[index]?,
      (input.applies = true → index + 1 = receiving.receivers.length) ∧
        (receiver.leaves input = true → ∀ listener ∈ receiver.listeners, listener.decides = false)))

/-- What a sender sealed under one of its secrets: nothing but the key derived from that secret
for its track opens the datagram. -/
structure Sealed (aead : Aead crypto) (datagram : List UInt8) (secret : crypto.Secret)
    (id : MediaId) (room : RoomId) (epoch : Epoch) : Prop where
  belongs : KeyManager.Belongs secret room epoch
  opens : ∀ other otherId header plaintext,
    aead.open_ (crypto.derive other otherId) datagram = .ok (header, plaintext) →
      other = secret ∧ otherId = id

/-- What every connection keeps. -/
structure Sound (receiving : Receiving crypto) : Prop where
  me : ∀ receiver ∈ receiving.receivers, receiver.keys.me = receiving.me
  raised : ∀ receiver ∈ receiving.receivers, (receiving.shared receiver).keys.ledger.Raised
  derives : ∀ receiver ∈ receiving.receivers, receiver.Derives fun _ => True

/-- The floor of the room has reached the epoch. -/
def Floored (room : RoomId) (epoch : Epoch) (receiving : Receiving crypto) : Prop :=
  ∃ floor, receiving.floors.get receiving.me room = some floor ∧ epoch ≤ floor

section

variable (aead) (datagram : List UInt8) (secret : crypto.Secret) (id : MediaId) (room : RoomId)
  (epoch : Epoch) (receiving : Receiving crypto)

/-- The last connection would refuse the epoch in the room. -/
def Shut : Prop :=
  ∀ receiver, receiving.receivers[receiving.receivers.length - 1]? = some receiver →
    receiver.keys.Barred room epoch

/-- It hasn't reached a reassembler, or it has once and the window knows its number. -/
def Once (receiver : Receiver crypto) : Prop :=
  receiving.reached.count datagram = 0 ∨ receiving.reached.count datagram = 1 ∧
    ∃ header plaintext, aead.open_ (crypto.derive secret id) datagram = .ok (header, plaintext) ∧
      Marks receiver.sinks id header.seq

/-- The secret has come nowhere yet, or one connection has its home, or none ever will again. -/
inductive Phase : Prop where
  | untouched (lacks : ∀ receiver ∈ receiving.receivers, receiver.Derives (· ≠ secret))
      (unreached : receiving.reached.count datagram = 0) : Phase
  | home (index : Nat) (receiver : Receiver crypto)
      (at_ : receiving.receivers[index]? = some receiver)
      (stays : receiver.keys.Stays room epoch) (floored : receiving.Floored room epoch)
      (lacks : ∀ other receiver', other ≠ index →
        receiving.receivers[other]? = some receiver' → receiver'.Derives (· ≠ secret))
      (shut : index + 1 ≠ receiving.receivers.length → receiving.Shut room epoch)
      (once : receiving.Once aead datagram secret id receiver) : Phase
  | away (lacks : ∀ receiver ∈ receiving.receivers, receiver.Derives (· ≠ secret))
      (floored : receiving.Floored room epoch) (shut : receiving.Shut room epoch)
      (once : receiving.reached.count datagram ≤ 1) : Phase

end

/-! ### A step on one connection -/

variable {datagram : List UInt8} {secret : crypto.Secret} {id : MediaId} {room : RoomId}
  {epoch : Epoch} {receiving : Receiving crypto}

/-- A connection without the secret doesn't pass the datagram on. -/
theorem Sealed.passes_ne (sealed_ : Sealed aead datagram secret id room epoch)
    {receiver : Receiver crypto} (lacks : receiver.Derives (· ≠ secret))
    (input : Receiver.Input crypto) : receiver.passes aead input ≠ some datagram := by
  intro passes
  obtain ⟨other, key, header, plaintext, derived, ok, _⟩ := receiver.passes_spec passes
  obtain ⟨held, different, rfl⟩ := derived _ lacks
  exact different (sealed_.opens held other header plaintext ok).1

theorem count_reached (other : Option (List UInt8)) :
    (receiving.reached ++ other.toList).count datagram =
      receiving.reached.count datagram + if other = some datagram then 1 else 0 := by
  rw [List.count_append]
  cases other with
  | none => rfl
  | some found =>
    simp only [Option.toList_some, List.count_singleton, beq_iff_eq, Option.some.injEq]

/-- The window that passed the datagram on doesn't do so again. -/
theorem Sealed.once_step (sealed_ : Sealed aead datagram secret id room epoch)
    {receiver : Receiver crypto} (derives : receiver.Derives fun _ => True)
    {input : Receiver.Input crypto} (calm : receiver.Calm (receiver.step aead input))
    (once : receiving.Once aead datagram secret id receiver) (after : Receiving crypto)
    (reached : after.reached = receiving.reached ++ (receiver.passes aead input).toList) :
    after.Once aead datagram secret id (receiver.step aead input) := by
  unfold Once
  rw [reached, count_reached]
  by_cases passes : receiver.passes aead input = some datagram
  · rw [if_pos passes]
    obtain ⟨other, key, header, plaintext, derived, ok, unmarked, marked⟩ :=
      receiver.passes_spec passes
    obtain ⟨held, _, rfl⟩ := derived _ derives
    obtain ⟨rfl, rfl⟩ := sealed_.opens held other header plaintext ok
    rcases once with none | ⟨_, header', plaintext', ok', marks⟩
    · exact Or.inr ⟨by rw [none], header, plaintext, ok, marked⟩
    · rw [ok] at ok'
      cases ok'
      exact absurd marks unmarked
  · rw [if_neg passes, Nat.add_zero]
    exact once.imp_right fun ⟨one, header, plaintext, ok, marks⟩ =>
      ⟨one, header, plaintext, ok, calm.marks id header.seq marks⟩

/-- The client after one connection did something. -/
def withReceiver (receiving : Receiving crypto) (index : Nat) (after : Receiver crypto)
    (reached : Option (List UInt8)) : Receiving crypto :=
  { receiving with
    floors := after.keys.floors
    drawn := after.keys.drawn
    receivers := receiving.receivers.set index after
    reached := receiving.reached ++ reached.toList }

theorem step_on {index : Nat} {receiver : Receiver crypto}
    (at_ : receiving.receivers[index]? = some receiver) (input : Receiver.Input crypto) :
    receiving.step aead (.on index input) =
      receiving.withReceiver index ((receiving.shared receiver).step aead input)
        ((receiving.shared receiver).passes aead input) := by
  unfold step
  dsimp only
  rw [at_]
  rfl

theorem lookup_set {index : Nat} {receiver : Receiver crypto}
    (at_ : receiving.receivers[index]? = some receiver) (after : Receiver crypto) (other : Nat) :
    (receiving.receivers.set index after)[other]? =
      if other = index then some after else receiving.receivers[other]? := by
  obtain ⟨inside, _⟩ := List.getElem?_eq_some_iff.mp at_
  rw [List.getElem?_set]
  by_cases same : other = index
  · subst same
    rw [if_pos rfl, if_pos rfl, if_pos inside]
  · rw [if_neg (Ne.symm same), if_neg same]

variable {index : Nat} {receiver after : Receiver crypto} {reached : Option (List UInt8)}

/-- A connection does something of its own, and no floor falls. -/
structure Rises (receiving : Receiving crypto) (receiver after : Receiver crypto) : Prop where
  me : after.keys.me = receiver.keys.me
  raised : (receiving.shared receiver).keys.ledger.Raised → after.keys.ledger.Raised
  derives : receiver.Derives (fun _ => True) → after.Derives fun _ => True
  rises : receiver.keys.me = receiving.me → ∀ room epoch, receiving.Floored room epoch →
    ∃ floor, after.keys.floors.get receiving.me room = some floor ∧ epoch ≤ floor

theorem Sound.withReceiver (sound : receiving.Sound)
    (at_ : receiving.receivers[index]? = some receiver) (rises : receiving.Rises receiver after) :
    (receiving.withReceiver index after reached).Sound := by
  have member := List.mem_of_getElem? at_
  have me := sound.me receiver member
  have cases' : ∀ other ∈ (receiving.withReceiver index after reached).receivers,
      other = after ∨ other ∈ receiving.receivers :=
    fun other there => (List.mem_or_eq_of_mem_set there).symm
  refine ⟨fun other there => ?_, fun other there => ?_, fun other there => ?_⟩
  · rcases cases' other there with rfl | before
    · exact rises.me.trans me
    · exact sound.me other before
  · rcases cases' other there with rfl | before
    · exact rises.raised (sound.raised receiver member)
    · intro place inRoom moved
      have mine := sound.me other before
      obtain ⟨floor, kept, enough⟩ := sound.raised other before place inRoom moved
      have floored : receiving.Floored place other.keys.epoch := ⟨floor, mine ▸ kept, enough⟩
      obtain ⟨floor, kept, enough⟩ := rises.rises me place _ floored
      exact ⟨floor, by rw [← mine] at kept; exact kept, enough⟩
  · rcases cases' other there with rfl | before
    · exact rises.derives (sound.derives receiver member)
    · exact sound.derives other before

theorem shared_derives {allowed : crypto.Secret → Prop} (derives : receiver.Derives allowed) :
    (receiving.shared receiver).Derives allowed :=
  ⟨⟨derives.keys.received, derives.keys.cached⟩, derives.looked⟩

theorem rises_calm (calm : (receiving.shared receiver).Calm after) :
    receiving.Rises receiver after where
  me := congrArg Standing.me calm.standing
  raised := fun raised => by
    unfold Ledger.Raised at raised ⊢
    rw [show after.keys.ledger.standing = (receiving.shared receiver).keys.ledger.standing from
      calm.standing]
    exact raised
  derives := fun derives => calm.derives _ (shared_derives derives)
  rises := fun _ room epoch floored => by
    rw [show after.keys.floors = receiving.floors from congrArg Standing.floors calm.standing]
    exact floored

theorem rises_perform (clock : Clock) (op : KeyOp crypto) :
    receiving.Rises receiver ((receiving.shared receiver).perform clock op) := by
  obtain ⟨keys, listeners, _⟩ := (receiving.shared receiver).perform_spec clock op
  have turns := (receiving.shared receiver).keys.perform_turns clock op
  refine ⟨?_, fun raised => ?_, fun derives => ⟨?_, ?_⟩, fun me room epoch floored => ?_⟩
  · rw [keys]
    exact turns.me
  · rw [keys]
    exact KeyManager.raised_perform clock op raised
  · rw [keys]
    exact KeyManager.perform_keeps _ (fun _ _ _ _ _ change derives =>
      change.derives derives fun _ _ => trivial) clock op (shared_derives derives).keys
  · intro listener member
    rw [listeners] at member
    exact derives.looked listener member
  · have start : Ledger.Floored room epoch (receiving.shared receiver).keys.ledger := by
      obtain ⟨floor, kept, enough⟩ := floored
      exact ⟨floor, by rw [← me] at kept; exact kept, enough⟩
    obtain ⟨floor, kept, enough⟩ := Ledger.Turns.keeps (fun _ _ => Ledger.Floored.turn) turns start
    refine ⟨floor, ?_, enough⟩
    rw [keys, ← me]
    rw [show (KeyManager.perform _ clock op).2.ledger.standing.me = receiver.keys.me from turns.me]
      at kept
    exact kept

/-! ### What becomes of a secret's home -/

/-- The other connections still lack the secret. -/
theorem lacks_withReceiver
    (lacks : ∀ other ∈ receiving.receivers, other.Derives (· ≠ secret))
    (mine : after.Derives (· ≠ secret)) :
    ∀ other ∈ (receiving.withReceiver index after reached).receivers,
      other.Derives (· ≠ secret) := by
  intro other there
  rcases List.mem_or_eq_of_mem_set there with before | rfl
  · exact lacks other before
  · exact mine

theorem shut_withReceiver (at_ : receiving.receivers[index]? = some receiver)
    (shut : receiving.Shut room epoch)
    (mine : index + 1 = receiving.receivers.length → receiver.keys.Barred room epoch →
      after.keys.Barred room epoch) :
    (receiving.withReceiver index after reached).Shut room epoch := by
  intro last found
  have inside := (List.getElem?_eq_some_iff.mp at_).1
  unfold withReceiver at found
  dsimp only at found
  rw [List.length_set, lookup_set at_] at found
  by_cases same : receiving.receivers.length - 1 = index
  · rw [if_pos same] at found
    cases found
    exact mine (by omega) (shut receiver (same ▸ at_))
  · rw [if_neg same] at found
    exact shut last found

theorem Phase.calm (phase : Phase aead datagram secret id room epoch receiving)
    (sealed_ : Sealed aead datagram secret id room epoch)
    (at_ : receiving.receivers[index]? = some receiver)
    (derives : receiver.Derives fun _ => True) {input : Receiver.Input crypto}
    (calm : (receiving.shared receiver).Calm ((receiving.shared receiver).step aead input)) :
    Phase aead datagram secret id room epoch (receiving.step aead (.on index input)) := by
  rw [step_on at_]
  have floors : ((receiving.shared receiver).step aead input).keys.floors = receiving.floors :=
    congrArg Standing.floors calm.standing
  have floored' : receiving.Floored room epoch → (receiving.withReceiver index
      ((receiving.shared receiver).step aead input)
      ((receiving.shared receiver).passes aead input)).Floored room epoch := by
    intro floored
    unfold Floored withReceiver
    rw [floors]
    exact floored
  have barred : receiver.keys.Barred room epoch →
      ((receiving.shared receiver).step aead input).keys.Barred room epoch := by
    intro barred
    unfold KeyManager.Barred
    rw [show ((receiving.shared receiver).step aead input).keys.room = receiver.keys.room from
        congrArg Standing.room calm.standing,
      show ((receiving.shared receiver).step aead input).keys.floor = receiver.keys.floor from
        congrArg Standing.floor calm.standing]
    exact barred
  have unreached : receiver.Derives (· ≠ secret) →
      (receiving.withReceiver index ((receiving.shared receiver).step aead input)
        ((receiving.shared receiver).passes aead input)).reached.count datagram =
        receiving.reached.count datagram := by
    intro lacks
    unfold withReceiver
    rw [count_reached, if_neg (sealed_.passes_ne (shared_derives lacks) input), Nat.add_zero]
  have member := List.mem_of_getElem? at_
  cases phase with
  | untouched lacks none =>
    refine .untouched (lacks_withReceiver lacks ?_) ?_
    · exact calm.derives _ (shared_derives (lacks receiver member))
    · exact (unreached (lacks receiver member)).trans none
  | home home mine atHome stays floored lacks shut once =>
    by_cases same : index = home
    · subst same
      rw [at_, Option.some_inj] at atHome
      subst atHome
      have after_ := lookup_set at_ ((receiving.shared receiver).step aead input)
      refine .home index _ ((after_ index).trans (if_pos rfl)) ⟨?_, ?_, ?_⟩ (floored' floored) ?_ ?_ ?_
      · exact (congrArg Standing.room calm.standing).trans stays.inRoom
      · exact stays.reached.trans (congrArg Standing.epoch calm.standing).ge
      · rw [show ((receiving.shared receiver).step aead input).keys.floor = receiver.keys.floor from
          congrArg Standing.floor calm.standing]
        exact stays.above
      · intro other receiver' different found
        have found := (after_ other).symm.trans found
        rw [if_neg different] at found
        exact lacks other receiver' different found
      · intro notLast
        rw [show (receiving.withReceiver index _ _).receivers.length = _ from List.length_set]
          at notLast
        exact shut_withReceiver at_ (shut notLast) fun last _ => absurd last notLast
      · exact sealed_.once_step (shared_derives derives) calm once _ rfl
    · have away := lacks index receiver same at_
      have after_ := lookup_set at_ ((receiving.shared receiver).step aead input)
      refine .home home mine ?_ stays (floored' floored) ?_ ?_ ?_
      · exact (after_ home).trans ((if_neg (Ne.symm same)).trans atHome)
      · intro other receiver' different found
        have found := (after_ other).symm.trans found
        split at found
        · cases found
          exact calm.derives _ (shared_derives away)
        · exact lacks other receiver' different found
      · intro notLast
        rw [show (receiving.withReceiver index _ _).receivers.length = _ from List.length_set]
          at notLast
        exact shut_withReceiver at_ (shut notLast) fun _ => barred
      · unfold Once
        rw [unreached away]
        exact once
  | away lacks floored shut once =>
    refine .away (lacks_withReceiver lacks ?_) (floored' floored)
      (shut_withReceiver at_ shut fun _ => barred) ?_
    · exact calm.derives _ (shared_derives (lacks receiver member))
    · exact (unreached (lacks receiver member)).trans_le once

/-- Room states, placements and sender keys on the last connection. -/
theorem Phase.perform (phase : Phase aead datagram secret id room epoch receiving)
    (sealed_ : Sealed aead datagram secret id room epoch) (sound : receiving.Sound)
    (at_ : receiving.receivers[index]? = some receiver)
    (isLast : index + 1 = receiving.receivers.length) (clock : Clock) (op : KeyOp crypto)
    (decided : receiver.leaves (.perform clock op) = true →
      ∀ listener ∈ receiver.listeners, listener.decides = false) :
    Phase aead datagram secret id room epoch (receiving.step aead (.on index (.perform clock op))) := by
  rw [step_on at_]
  show Phase aead datagram secret id room epoch
    (receiving.withReceiver index ((receiving.shared receiver).perform clock op) none)
  have member := List.mem_of_getElem? at_
  have me := sound.me receiver member
  have rises := @rises_perform _ receiving receiver clock op
  obtain ⟨keys, listeners, sinks⟩ := (receiving.shared receiver).perform_spec clock op
  have belongs := sealed_.belongs
  have raised := sound.raised receiver member
  have floored' : receiving.Floored room epoch → (receiving.withReceiver index
      ((receiving.shared receiver).perform clock op) none).Floored room epoch :=
    rises.rises me room epoch
  have shut' : receiver.keys.Barred room epoch → receiving.Shut room epoch := by
    intro barred last found
    rw [← isLast, Nat.add_sub_cancel, at_, Option.some_inj] at found
    exact found ▸ barred
  have length : ∀ {after : Receiver crypto},
      (receiving.withReceiver index after none).receivers.length = receiving.receivers.length :=
    List.length_set
  have unreached : (receiving.withReceiver index
      ((receiving.shared receiver).perform clock op) none).reached = receiving.reached :=
    List.append_nil _
  have looked : receiver.Derives (· ≠ secret) →
      ((receiving.shared receiver).perform clock op).keys.Lacks secret →
      ((receiving.shared receiver).perform clock op).Derives (· ≠ secret) := by
    intro lacks mine
    refine ⟨mine, fun listener there => ?_⟩
    rw [listeners] at there
    exact lacks.looked listener there
  have after_ := lookup_set at_ ((receiving.shared receiver).perform clock op)
  cases phase with
  | untouched lacks none =>
    rcases (shared_derives (lacks receiver member)).keys.perform belongs raised clock op with
      mine | mine
    · rw [← keys] at mine
      refine .untouched (lacks_withReceiver lacks (looked (lacks receiver member) mine)) ?_
      exact (congrArg (List.count datagram) unreached).trans none
    · rw [← keys] at mine
      refine .home index _ ((after_ index).trans (if_pos rfl)) mine.stays ?_ ?_ ?_ (Or.inl ?_)
      · obtain ⟨floor, kept, enough⟩ := mine.floored
        have kept : ((receiving.shared receiver).perform clock op).keys.floors.get
            ((receiving.shared receiver).perform clock op).keys.me room = some floor := kept
        rw [rises.me, me] at kept
        exact ⟨floor, kept, enough⟩
      · intro other receiver' different found
        have found := (after_ other).symm.trans found
        rw [if_neg different] at found
        exact lacks receiver' (List.mem_of_getElem? found)
      · intro notLast
        exact absurd (isLast.trans length.symm) notLast
      · exact (congrArg (List.count datagram) unreached).trans none
  | home home mine atHome stays floored lacks shut once =>
    by_cases same : index = home
    · subst same
      rw [at_, Option.some_inj] at atHome
      subst atHome
      have started : (receiving.shared receiver).keys.Home room epoch := by
        obtain ⟨floor, kept, enough⟩ := floored
        exact ⟨⟨stays.inRoom, stays.reached, stays.above⟩, floor,
          by rw [← me] at kept; exact kept, enough⟩
      have result := started.perform belongs clock op
      rw [← keys] at result
      by_cases stayed : (receiving.shared receiver).keys.standing.bar =
          ((receiving.shared receiver).keys.perform clock op).2.standing.bar
      · have sinks := sinks stayed.symm
        rw [← keys] at stayed
        have home := result.resolve_right fun away => by
          have sameRoom := (Prod.mk.inj stayed).1
          have sameFloor := (Prod.mk.inj stayed).2
          obtain ⟨floor, bar, enough⟩ := away.barred (sameRoom.symm.trans stays.inRoom)
          exact absurd (stays.above floor (sameFloor.trans bar)) (Nat.not_lt.mpr enough)
        refine .home index _ ((after_ index).trans (if_pos rfl)) home.stays (floored' floored)
          ?_ ?_ ?_
        · intro other receiver' different found
          have found := (after_ other).symm.trans found
          rw [if_neg different] at found
          exact lacks other receiver' different found
        · intro notLast
          exact absurd (isLast.trans length.symm) notLast
        · unfold Once
          rw [unreached, sinks]
          exact once
      · obtain ⟨place, next, tracks, peers, rfl, other⟩ :=
          ((receiving.shared receiver).keys.bar_perform clock op).resolve_left
            fun same => stayed same.symm
        have away := result.resolve_left fun home => by
          have left := (receiving.shared receiver).keys.room_placement clock next tracks peers other
          rw [← keys, home.stays.inRoom] at left
          exact other (left.symm.trans stays.inRoom.symm)
        have leaves : receiver.leaves (.perform clock (.placement place next tracks peers)) = true :=
          decide_eq_true other
        refine .away (fun other' there => ?_) (floored' floored)
          (fun last found => ?_) ?_
        · obtain ⟨at', found⟩ := List.getElem?_of_mem there
          have found := (after_ at').symm.trans found
          split at found
          · cases found
            refine ⟨away.lacks, fun listener there => ?_⟩
            rw [listeners] at there
            exact Listener.derives_of_undecided (decided leaves listener there)
          · rename_i different
            exact lacks at' other' different found
        · rw [length, ← isLast, Nat.add_sub_cancel] at found
          have found := (after_ index).symm.trans found
          rw [if_pos rfl] at found
          cases found
          exact away.barred
        · rw [unreached]
          rcases once with none | ⟨one, _⟩
          · exact none.trans_le (Nat.zero_le 1)
          · exact one.le
    · have mine' := lacks index receiver same at_
      have notLast : home + 1 ≠ receiving.receivers.length := fun last => same (by omega)
      have started : (receiving.shared receiver).keys.Away secret room epoch := by
        obtain ⟨floor, kept, enough⟩ := floored
        refine ⟨(shared_derives mine').keys, ⟨floor, by rw [← me] at kept; exact kept, enough⟩, ?_⟩
        refine shut notLast receiver ?_
        rw [← isLast, Nat.add_sub_cancel]
        exact at_
      have away := started.perform belongs clock op
      rw [← keys] at away
      refine .home home mine ?_ stays (floored' floored) ?_ ?_ ?_
      · exact (after_ home).trans ((if_neg (Ne.symm same)).trans atHome)
      · intro other receiver' different found
        have found := (after_ other).symm.trans found
        split at found
        · cases found
          exact looked mine' away.lacks
        · exact lacks other receiver' different found
      · exact fun _ => shut_withReceiver at_ (shut notLast) fun _ _ => away.barred
      · unfold Once
        rw [unreached]
        exact once
  | away lacks floored shut once =>
    have started : (receiving.shared receiver).keys.Away secret room epoch := by
      obtain ⟨floor, kept, enough⟩ := floored
      refine ⟨(shared_derives (lacks receiver member)).keys,
        ⟨floor, by rw [← me] at kept; exact kept, enough⟩, ?_⟩
      refine shut receiver ?_
      rw [← isLast, Nat.add_sub_cancel]
      exact at_
    have away := started.perform belongs clock op
    rw [← keys] at away
    refine .away (lacks_withReceiver lacks (looked (lacks receiver member) away.lacks))
      (floored' floored) (shut_withReceiver at_ shut fun _ _ => away.barred) ?_
    exact (congrArg (List.count datagram) unreached).trans_le once

theorem Phase.connect (phase : Phase aead datagram secret id room epoch receiving)
    (encryption : crypto.KeyPair) (now : Instant) :
    Phase aead datagram secret id room epoch (receiving.step aead (.connect encryption now)) := by
  unfold step
  dsimp only
  let fresh : Receiver crypto :=
    { keys := .new receiving.me encryption receiving.server receiving.floors now receiving.drawn }
  have lacksFresh : fresh.Derives (· ≠ secret) := by
    refine ⟨⟨fun _ _ found => ?_, fun _ _ _ found => ?_⟩, fun _ member => ?_⟩
    · cases found
    · cases found
    · cases member
  have either : ∀ other ∈ receiving.receivers ++ [fresh],
      other ∈ receiving.receivers ∨ other = fresh :=
    fun other there => (List.mem_append.mp there).imp_right List.mem_singleton.mp
  have shut : Shut room epoch { receiving with receivers := receiving.receivers ++ [fresh] } := by
    intro last found
    dsimp only at found
    rw [List.length_append, List.length_singleton, Nat.add_sub_cancel,
      List.getElem?_concat_length] at found
    cases found
    exact nofun
  cases phase with
  | untouched lacks none =>
    refine .untouched (fun other there => ?_) none
    rcases either other there with before | rfl
    · exact lacks other before
    · exact lacksFresh
  | home index receiver at_ stays floored lacks _ once =>
    have inside := (List.getElem?_eq_some_iff.mp at_).1
    refine .home index receiver ((List.getElem?_append_left inside).trans at_) stays floored
      (fun other receiver' different found => ?_) (fun _ => shut) once
    by_cases before : other < receiving.receivers.length
    · rw [List.getElem?_append_left before] at found
      exact lacks other receiver' different found
    · rcases either receiver' (List.mem_of_getElem? found) with _ | rfl
      · rw [List.getElem?_append_right (Nat.le_of_not_lt before)] at found
        rw [List.mem_singleton.mp (List.mem_of_getElem? found)]
        exact lacksFresh
      · exact lacksFresh
  | away lacks floored _ once =>
    refine .away (fun other there => ?_) floored shut once
    rcases either other there with before | rfl
    · exact lacks other before
    · exact lacksFresh

theorem Sound.connect (sound : receiving.Sound) (encryption : crypto.KeyPair) (now : Instant) :
    (receiving.step aead (.connect encryption now)).Sound := by
  refine ⟨fun other there => ?_, fun other there => ?_, fun other there => ?_⟩
  · rcases List.mem_append.mp there with before | fresh
    · exact sound.me other before
    · rw [List.mem_singleton.mp fresh]
      rfl
  · rcases List.mem_append.mp there with before | fresh
    · exact sound.raised other before
    · rw [List.mem_singleton.mp fresh]
      exact fun _ inRoom => nomatch inRoom
  · rcases List.mem_append.mp there with before | fresh
    · exact sound.derives other before
    · rw [List.mem_singleton.mp fresh]
      refine ⟨⟨fun _ _ found => ?_, fun _ _ _ found => ?_⟩, fun _ member => ?_⟩
      · cases found
      · cases found
      · cases member

/-! ### Every run -/

theorem step_keeps (sealed_ : Sealed aead datagram secret id room epoch)
    (sound : receiving.Sound) (phase : Phase aead datagram secret id room epoch receiving)
    {input : Input crypto} (undisturbed : receiving.Undisturbed input) :
    (receiving.step aead input).Sound ∧
      Phase aead datagram secret id room epoch (receiving.step aead input) := by
  cases input with
  | connect encryption now => exact ⟨sound.connect encryption now, phase.connect encryption now⟩
  | on index input =>
    cases at_ : receiving.receivers[index]? with
    | none =>
      have same : receiving.step aead (.on index input) = receiving := by
        unfold step
        dsimp only
        rw [at_]
      rw [same]
      exact ⟨sound, phase⟩
    | some receiver =>
      have member := List.mem_of_getElem? at_
      obtain ⟨newest, decided⟩ := undisturbed receiver at_
      by_cases applies : input.applies = true
      · obtain ⟨clock, op, rfl⟩ : ∃ clock op, input = .perform clock op := by
          cases input with
          | perform clock op => exact ⟨clock, op, rfl⟩
          | subscribe => cases applies
          | unsubscribe => cases applies
          | receive => cases applies
          | task => cases applies
        refine ⟨?_, phase.perform sealed_ sound at_ (newest applies) clock op decided⟩
        rw [step_on at_]
        exact sound.withReceiver at_ (receiving.rises_perform clock op)
      · have calm := @Receiver.calm_step _ aead (receiving.shared receiver) _
          (Bool.eq_false_iff.mpr applies)
        refine ⟨?_, phase.calm sealed_ at_ (sound.derives receiver member) calm⟩
        rw [step_on at_]
        exact sound.withReceiver at_ (rises_calm calm)

/-- In a run in which only the last connection applies what the server sends, and no room is
left while a task has yet to record what it has the key of, no datagram that a sender sealed
reaches a reassembler twice. -/
theorem run_reachesOnce (aead : Aead crypto) (me : UserId) (server : Fingerprint)
    (floors : EpochFloors) (drawn : Nat) (inputs : List (Input crypto)) (datagram : List UInt8)
    (secret : crypto.Secret) (id : MediaId) (room : RoomId) (epoch : Epoch)
    (sealed_ : Sealed aead datagram secret id room epoch)
    (undisturbed : Along (step aead) Undisturbed (new me server floors drawn) inputs) :
    (run (step aead) (new me server floors drawn) inputs).reached.count datagram ≤ 1 := by
  have nothing : ∀ receiver, receiver ∉ (new me server floors drawn : Receiving crypto).receivers :=
    fun _ => List.not_mem_nil
  have start : (new me server floors drawn : Receiving crypto).Sound :=
    ⟨fun _ member => absurd member (nothing _), fun _ member => absurd member (nothing _),
      fun _ member => absurd member (nothing _)⟩
  have untouched : Phase aead datagram secret id room epoch (new me server floors drawn) :=
    .untouched (fun _ member => absurd member (nothing _)) rfl
  have phase := (undisturbed.invariant (fun receiving => receiving.Sound ∧
      Phase aead datagram secret id room epoch receiving) ⟨start, untouched⟩
    fun receiving input holds undisturbed =>
      step_keeps sealed_ holds.1 holds.2 undisturbed).2
  cases phase with
  | untouched lacks none => exact none.trans_le (Nat.zero_le 1)
  | home _ _ _ _ _ _ _ once =>
    rcases once with none | ⟨one, _⟩
    · exact none.trans_le (Nat.zero_le 1)
    · exact one.le
  | away _ _ _ once => exact once

/-! ### A datagram replayed -/

/-- A cryptography whose secrets have the room and the epoch they belong to written in them. -/
def tiedCrypto : Crypto :=
  { openCrypto with
    unwrap := fun own senderKey context wrapped =>
      (openCrypto.unwrap own senderKey context wrapped).filter fun secret : Nat =>
        secret / 256 = context.room ∧ secret % 256 = context.epoch }

def tiedAead : Aead tiedCrypto where
  encrypt := openAead.encrypt
  decrypt := openAead.decrypt

/-- What user 2 sends in room 1 at epoch 1 on track 20. -/
def recordedDatagram : List UInt8 :=
  ((tiedAead.seal_ ((257, 20) : Nat × MediaId) { mediaId := 20, epoch := 1, seq := 0, flags := .first }
    [1, 2, 3]).toOption).getD []

theorem sealed_recordedDatagram :
    Sealed tiedAead recordedDatagram (257 : Nat) 20 1 1 where
  belongs :=
    { started := Nat.one_pos
      unwraps := fun own senderKey context wrapped same => by
        obtain ⟨_, tied⟩ := Option.filter_eq_some_iff.mp same
        rw [decide_eq_true_eq] at tied
        exact ⟨tied.1.symm, tied.2.symm⟩ }
  opens := fun other otherId header plaintext same => by
    have parsed : Header.parseStrict recordedDatagram =
        .ok { mediaId := 20, epoch := 1, seq := 0, flags := .first } := by decide +kernel
    have long : ¬ recordedDatagram.length < headerBytes + tagBytes := by decide +kernel
    have tag : recordedDatagram.drop (recordedDatagram.length - tagBytes) =
        bytesBe 8 257 ++ bytesBe 8 20 := by decide +kernel
    unfold Aead.open_ at same
    rw [parsed] at same
    simp only [if_neg long, tag, tiedAead, openAead] at same
    split at same
    · cases same
    · rename_i opened
      split at opened
      · rename_i written
        obtain ⟨small, small', written⟩ := written
        obtain ⟨secret, id⟩ := List.append_inj written (by rw [length_bytesBe, length_bytesBe])
        exact ⟨(bytesBe_inj (by decide) small secret).symm, (bytesBe_inj (by decide) small' id).symm⟩
      · cases opened

/-- User 1 is placed in room 1, at an epoch that user 2's sender key is for. -/
def placedWithKey (epoch : Epoch) : List (Input tiedCrypto) :=
  [ .on 0 (.perform ⟨1, 500⟩ (.presence 2 (some 1))),
    .on 0 (.perform ⟨2, 500⟩
      (.placement (some 1) epoch (some (openPeer 1).tracks) [openPeer 1, openPeer 2])),
    .on 0 (.subscribe 20 .audio 8) ]

/-- Two copies arrive, one is handled, and the key for the other is looked up. -/
def twoCopies : List (Input tiedCrypto) :=
  .connect (201 : Nat) 0 :: placedWithKey 1 ++
  [ .on 0 (.perform ⟨3, 500⟩ (.senderKey 2 1 (openSenderKey 2 1 1 257))),
    .on 0 (.receive recordedDatagram), .on 0 (.receive recordedDatagram),
    .on 0 (.task 0 (.take 4)), .on 0 (.task 0 .resume), .on 0 (.task 0 .resume),
    .on 0 (.task 0 .resume), .on 0 (.task 0 .resume),
    .on 0 (.task 0 (.take 4)), .on 0 (.task 0 .resume), .on 0 (.task 0 .resume) ]

theorem run_reachesOnce_twoCopies :
    let receiving := run (step tiedAead) (new 1 7 {} 0) (twoCopies ++ [.on 0 (.task 0 .resume)])
    recordedDatagram ∈ receiving.reached ∧ receiving.reached.count recordedDatagram ≤ 1 :=
  ⟨by decide +kernel, run_reachesOnce tiedAead 1 7 {} 0 _ recordedDatagram (257 : Nat) 20 1 1
    sealed_recordedDatagram (by decide +kernel)⟩

/-- The client leaves the room between the opening and the recording of the second copy, and
subscribes to the track anew: the window it is recorded in doesn't know it. -/
theorem run_reachesOnce_moved :
    let moved := .on 0 (.perform ⟨5, 500⟩ (.placement none 0 none [])) :: placedWithKey 2 ++
      [.on 0 (.task 0 .resume)]
    Sealed tiedAead recordedDatagram (257 : Nat) 20 1 1 ∧
      (run (step tiedAead) (new 1 7 {} 0) (twoCopies ++ moved)).reached =
        [recordedDatagram, recordedDatagram] :=
  ⟨sealed_recordedDatagram, by decide +kernel⟩

end Receiving

end Throcc
