/-
This file takes the key manager's operations apart further. Each stage is a
chain of changes (`KeyManager.Change`), which say what they change and what is
true before them, so that an invariant of the key manager is proved change by
change and holds after every stage and operation.
-/

import Throcc.Stages
import Throcc.Standing

namespace Throcc

namespace KeyManager

variable {crypto : Crypto}

/-- What lets a key manager store a sender key. -/
structure Admits (keys : KeyManager crypto) (acceptance : Acceptance crypto)
    (retireAt : Option Instant) (now : Instant) : Prop where
  inRoom : keys.room = some acceptance.room
  aboveFloor : keys.belowFloor acceptance.epoch = false
  notLater : acceptance.epoch ≤ keys.epoch
  inTime : acceptance.epoch < keys.epoch → now < keys.epochSince + oldKeyGrace
  retires : retireAt =
    if acceptance.epoch < keys.epoch then some (keys.epochSince + oldKeyGrace) else none
  trusted : ∃ peer wrapped, keys.peers.lookup acceptance.sender = some peer ∧
    peer.identityKey = acceptance.identityKey ∧
    keys.unwrapWith peer.encryptionKey
      (keys.context acceptance.room acceptance.epoch acceptance.sender keys.me) wrapped =
      some acceptance.secret

/-- What an operation at `now` is made of, with what it accepts. Our secret is wrapped only in
the states that `wraps` names. -/
inductive Change (now : Instant) (wraps : KeyManager crypto → RoomId → Prop) :
    KeyManager crypto → Option (Acceptance crypto) → KeyManager crypto → Prop where
  | trust (keys : KeyManager crypto) (room : RoomId) (peers : List Peer) (clock : Clock)
      (atNow : clock.now = now) (there : keys.room = some room) :
      Change now wraps keys none (keys.trusting room peers clock)
  | moveTo (keys : KeyManager crypto) (epoch : Epoch) (notEarlier : keys.epoch ≤ epoch) :
      Change now wraps keys none (keys.moveTo epoch now)
  | newSecret (keys : KeyManager crypto) : Change now wraps keys none keys.newSecret
  | wrap (keys : KeyManager crypto) (room : RoomId) (there : keys.room = some room)
      (named : wraps keys room) : Change now wraps keys none (keys.wrapForNewPeers room).2
  | takeEarly (keys : KeyManager crypto) : Change now wraps keys none { keys with early := ∅ }
  | holdEarly (keys : KeyManager crypto) (sender : UserId) (epoch : Epoch)
      (wrapped : List UInt8) (arrived : Instant) :
      Change now wraps keys none (keys.holdEarly sender epoch wrapped arrived)
  | store (keys : KeyManager crypto) (acceptance : Acceptance crypto) (retireAt : Option Instant)
      (admits : keys.Admits acceptance retireAt now) :
      Change now wraps keys (some acceptance)
        (keys.store acceptance.room acceptance.sender acceptance.epoch
          { secret := acceptance.secret, retireAt } now)
  | advance (keys : KeyManager crypto) :
      Change now wraps keys none { keys with generation := keys.generation + 1 }
  | stash (keys : KeyManager crypto) (stashed : Option (RoomId × Epoch × List Peer)) :
      Change now wraps keys none { keys with stashed }
  | takePlace (keys : KeyManager crypto) (room : Option RoomId) (tracks : Option Tracks) :
      Change now wraps keys none ((keys.changeRoom room).takePlace room tracks)
  | present (keys : KeyManager crypto) (present : Map UserId RoomId) :
      Change now wraps keys none { keys with present }
  | replaceEncryption (keys : KeyManager crypto) (encryption : crypto.KeyPair) :
      Change now wraps keys none (keys.replaceEncryption encryption now)
  | recvKey (keys : KeyManager crypto) (mediaId : MediaId) (epoch : Epoch) :
      Change now wraps keys none (keys.recvKey mediaId epoch).2
  | tick (keys : KeyManager crypto) : Change now wraps keys none (keys.tick now)

/-- A chain of changes. -/
inductive Changes (now : Instant) (wraps : KeyManager crypto → RoomId → Prop) :
    List (Acceptance crypto) → KeyManager crypto → KeyManager crypto → Prop where
  | refl (keys : KeyManager crypto) : Changes now wraps [] keys keys
  | tail {accepted : List (Acceptance crypto)} {acceptance : Option (Acceptance crypto)}
      {before middle after : KeyManager crypto} (changes : Changes now wraps accepted before middle)
      (change : Change now wraps middle acceptance after) :
      Changes now wraps (accepted ++ acceptance.toList) before after

namespace Changes

variable {now : Instant} {wraps : KeyManager crypto → RoomId → Prop}
  {accepted more : List (Acceptance crypto)} {acceptance : Option (Acceptance crypto)}
  {before middle after : KeyManager crypto}

theorem single (change : Change now wraps before acceptance after) :
    Changes now wraps acceptance.toList before after :=
  .tail (.refl before) change

theorem quietly (changes : Changes now wraps accepted before middle)
    (change : Change now wraps middle none after) : Changes now wraps accepted before after := by
  have longer := changes.tail change
  rwa [Option.toList_none, List.append_nil] at longer

theorem trans (changes : Changes now wraps accepted before middle)
    (later : Changes now wraps more middle after) :
    Changes now wraps (accepted ++ more) before after := by
  induction later with
  | refl => rwa [List.append_nil]
  | tail _ change inductionHypothesis =>
    rw [← List.append_assoc]
    exact (inductionHypothesis changes).tail change

theorem mono {wraps' : KeyManager crypto → RoomId → Prop}
    (changes : Changes now wraps accepted before after)
    (implies : ∀ keys room, wraps keys room → wraps' keys room) :
    Changes now wraps' accepted before after := by
  induction changes with
  | refl => exact .refl _
  | tail _ change inductionHypothesis =>
    refine inductionHypothesis.tail ?_
    cases change with
    | wrap room there named => exact .wrap _ room there (implies _ _ named)
    | trust room peers clock atNow there => exact .trust _ room peers clock atNow there
    | moveTo epoch notEarlier => exact .moveTo _ epoch notEarlier
    | newSecret => exact .newSecret _
    | takeEarly => exact .takeEarly _
    | holdEarly sender epoch wrapped arrived => exact .holdEarly _ sender epoch wrapped arrived
    | store acceptance retireAt admits => exact .store _ acceptance retireAt admits
    | advance => exact .advance _
    | stash stashed => exact .stash _ stashed
    | takePlace room tracks => exact .takePlace _ room tracks
    | present present => exact .present _ present
    | replaceEncryption encryption => exact .replaceEncryption _ encryption
    | recvKey mediaId epoch => exact .recvKey _ mediaId epoch
    | tick => exact .tick _

/-- What every change keeps, every chain of changes keeps. -/
theorem keeps (holds : List (Acceptance crypto) → KeyManager crypto → Prop)
    (kept : ∀ accepted before acceptance after, Change now wraps before acceptance after →
      holds accepted before → holds (accepted ++ acceptance.toList) after)
    (changes : Changes now wraps more before after) (accepted : List (Acceptance crypto))
    (start : holds accepted before) : holds (accepted ++ more) after := by
  induction changes with
  | refl => rwa [List.append_nil]
  | tail _ change inductionHypothesis =>
    rw [← List.append_assoc]
    exact kept _ _ _ _ change (inductionHypothesis start)

end Changes

/-- A stage at `now` is a chain of changes, which comes to where our secret is wrapped. -/
structure Passes (now : Instant) (before : KeyManager crypto) (stage : Stage crypto) : Prop where
  changes : Changes now (fun keys room => stage.wrapping = some (keys, room)) stage.accepted before
    stage.after
  reaches : ∀ keys room, stage.wrapping = some (keys, room) →
    Changes now (fun _ _ => True) [] before keys

/-- An operation at `now` is the chains of changes of its stages. -/
def Leads (now : Instant) : List (Stage crypto) → KeyManager crypto → KeyManager crypto → Prop
  | [], before, after => before = after
  | stage :: rest, before, after => Passes now before stage ∧ Leads now rest stage.after after

/-- A stage that applies nothing. -/
theorem quiet_passes {now : Instant} {before after : KeyManager crypto}
    (changes : ∀ wraps, Changes now wraps [] before after) : Passes now before (quiet after) :=
  ⟨changes _, fun _ _ named => by cases named⟩

/-! ### Every operation is a chain of changes -/

section

variable {wraps : KeyManager crypto → RoomId → Prop}

theorem senderKeyAt_changes (keys : KeyManager crypto) (sender : UserId) (epoch : Epoch)
    (wrapped : List UInt8) (arrived now : Instant) :
    Changes now wraps (keys.accepts sender epoch wrapped now).toList keys
      (keys.senderKeyAt sender epoch wrapped arrived now).2 := by
  have held : Changes now wraps [] keys (keys.holdEarly sender epoch wrapped arrived) :=
    .single (.holdEarly keys sender epoch wrapped arrived)
  by_cases below : keys.belowFloor epoch = true
  · have nothing : keys.accepts sender epoch wrapped now = none := by
      unfold accepts
      split
      · exact if_pos (Or.inl below)
      · rfl
    rw [nothing, senderKeyAt, if_pos below]
    exact .refl keys
  · unfold senderKeyAt accepts
    rw [if_neg below]
    cases there : keys.room with
    | none => exact held
    | some room =>
      cases known : keys.peers.lookup sender with
      | none => exact held
      | some peer =>
        dsimp only
        by_cases notLater : epoch ≤ keys.epoch
        · rw [if_pos notLater]
          by_cases late : epoch < keys.epoch ∧ keys.epochSince + oldKeyGrace ≤ now
          · rw [if_pos late, if_pos (Or.inr (Or.inr late))]
            exact .refl keys
          · have timely : ¬ (keys.belowFloor epoch = true ∨ keys.epoch < epoch ∨
                epoch < keys.epoch ∧ keys.epochSince + oldKeyGrace ≤ now) := by
              rintro (floored | later | ended)
              · exact below floored
              · exact absurd notLater (Nat.not_le.mpr later)
              · exact late ended
            rw [if_neg late, if_neg timely]
            cases unwrapped : keys.unwrapWith peer.encryptionKey
              (keys.context room epoch sender keys.me) wrapped with
            | none => exact .refl keys
            | some secret =>
              refine .single (.store keys ⟨room, sender, epoch, peer.identityKey, secret⟩ _ ?_)
              exact {
                inRoom := there
                aboveFloor := Bool.eq_false_iff.mpr below
                notLater
                inTime := fun earlier => Nat.lt_of_not_le fun ended => late ⟨earlier, ended⟩
                retires := rfl
                trusted := ⟨peer, wrapped, known, rfl, unwrapped⟩ }
        · rw [if_neg notLater, if_pos (Or.inr (Or.inl (Nat.lt_of_not_le notLater)))]
          exact held

theorem replayOne_changes (keys : KeyManager crypto) (now : Instant)
    (held : (UserId ×ₗ Epoch) × Instant × List UInt8) :
    Changes now wraps (keys.replayOneAccepts now held).toList keys (keys.replayOne now held) := by
  unfold replayOne replayOneAccepts
  split
  · exact keys.senderKeyAt_changes ..
  · exact .refl keys

theorem replayEarly_changes (keys : KeyManager crypto) (now : Instant) :
    Changes now wraps (replayAccepts now { keys with early := ∅ } keys.early.toList) keys
      (keys.replayEarly now) := by
  have all : ∀ (order : List ((UserId ×ₗ Epoch) × Instant × List UInt8)) (sofar : KeyManager crypto),
      Changes now wraps (replayAccepts now sofar order) sofar
        (order.foldl (replayOne now) sofar) := by
    intro order
    induction order with
    | nil => exact fun sofar => .refl sofar
    | cons held rest inductionHypothesis =>
      exact fun sofar => (sofar.replayOne_changes now held).trans (inductionHypothesis _)
  exact (Changes.single (.takeEarly keys)).trans (all _ _)

theorem rekey_changes (keys : KeyManager crypto) (epoch : Epoch) (now : Instant)
    (notEarlier : keys.epoch ≤ epoch) : Changes now wraps [] keys (keys.rekey epoch now) := by
  unfold rekey
  split
  · exact (Changes.single (.moveTo keys epoch notEarlier)).quietly (.newSecret _)
  · exact .refl keys

end

theorem standing_trusting (keys : KeyManager crypto) (room : RoomId) (peers : List Peer)
    (clock : Clock) :
    (keys.trusting room peers clock).standing = { keys.standing with roomPeers := peers } := by
  rw [← keys.standing_trustOf room peers clock.unixNow]
  rfl

theorem room_keyed (keys : KeyManager crypto) (room : RoomId) (epoch : Epoch)
    (peers : List Peer) (clock : Clock) :
    ((keys.trusting room peers clock).rekey epoch clock.now).room = keys.room := by
  refine (congrArg Standing.room (standing_rekey _ epoch clock.now)).trans ?_
  rw [keys.standing_trusting room peers clock]
  unfold Standing.moveTo
  split
  · rfl
  · rfl

/-- A room state applied, up to where our secret is wrapped. -/
theorem keyed_changes {wraps : KeyManager crypto → RoomId → Prop} (keys : KeyManager crypto)
    (room : RoomId) (epoch : Epoch) (peers : List Peer) (clock : Clock)
    (there : keys.room = some room) (notEarlier : keys.epoch ≤ epoch) :
    Changes clock.now wraps [] keys
      ((keys.trusting room peers clock).rekey epoch clock.now) := by
  have stood := congrArg Standing.epoch (keys.standing_trusting room peers clock)
  exact (Changes.single (.trust keys room peers clock rfl there)).trans
    (rekey_changes _ epoch clock.now (stood.trans_le notEarlier))

/-- A room state applied, but for the generation it counts. -/
theorem wrapped_changes {wraps : KeyManager crypto → RoomId → Prop} (keys : KeyManager crypto)
    (room : RoomId) (epoch : Epoch) (peers : List Peer) (clock : Clock)
    (there : keys.room = some room) (notEarlier : keys.epoch ≤ epoch)
    (named : wraps ((keys.trusting room peers clock).rekey epoch clock.now) room) :
    Changes clock.now wraps (keys.applied room epoch peers clock).accepted keys
      ((((keys.trusting room peers clock).rekey epoch clock.now).wrapForNewPeers room).2.replayEarly
        clock.now) := by
  have keyed := (keys.keyed_changes room epoch peers clock there notEarlier).quietly
    (.wrap _ room ((keys.room_keyed room epoch peers clock).trans there) named)
  exact keyed.trans (replayEarly_changes _ clock.now)

theorem applied_passes (keys : KeyManager crypto) (room : RoomId) (epoch : Epoch)
    (peers : List Peer) (clock : Clock) (there : keys.room = some room)
    (notEarlier : keys.epoch ≤ epoch) :
    Passes clock.now keys (keys.applied room epoch peers clock) := by
  constructor
  · exact (keys.wrapped_changes room epoch peers clock there notEarlier rfl).quietly (.advance _)
  · intro other place named
    cases named
    exact keys.keyed_changes room epoch peers clock there notEarlier

theorem changed_passes (keys : KeyManager crypto) (room : RoomId) (epoch : Epoch)
    (peers : List Peer) (clock : Clock) :
    Passes clock.now keys (keys.changed room epoch peers clock) := by
  unfold changed
  split
  · rename_i applies
    exact keys.applied_passes room epoch peers clock applies.1.symm applies.2
  · rename_i ignored
    refine quiet_passes fun wraps => ?_
    unfold peersChanged
    split
    · unfold KeyManager.stash
      split
      · exact .single (.stash keys _)
      · exact .refl keys
    · rename_i here
      rw [if_pos (Nat.lt_of_not_le fun notEarlier => ignored ⟨not_not.mp here, notEarlier⟩)]
      exact .refl keys

theorem peersChanged_of_applies (keys : KeyManager crypto) {room : RoomId} {epoch : Epoch}
    (peers : List Peer) (clock : Clock) (applies : some room = keys.room ∧ keys.epoch ≤ epoch) :
    keys.peersChanged room epoch peers clock = keys.applyPeers room epoch peers clock := by
  unfold peersChanged
  rw [if_neg (not_not.mpr applies.1), if_neg (Nat.not_lt.mpr applies.2)]

theorem after_changed (keys : KeyManager crypto) (room : RoomId) (epoch : Epoch)
    (peers : List Peer) (clock : Clock) :
    (keys.changed room epoch peers clock).after = (keys.peersChanged room epoch peers clock).2 := by
  unfold changed
  split
  · rename_i applies
    rw [keys.peersChanged_of_applies peers clock applies]
    rfl
  · rfl

theorem unstashed_passes (keys : KeyManager crypto) (room : RoomId) (epoch : Epoch)
    (clock : Clock) : Passes clock.now keys (keys.unstashed room epoch clock) := by
  have emptied : ∀ wraps, Changes clock.now wraps [] keys { keys with stashed := none } :=
    fun wraps => .single (.stash keys none)
  unfold unstashed
  split
  · split
    · have applied := { keys with stashed := none }.changed_passes
      exact ⟨(emptied _).trans (applied ..).changes, fun other place named =>
        (emptied _).trans ((applied ..).reaches other place named)⟩
    · exact quiet_passes emptied
  · exact quiet_passes emptied

theorem after_unstashed (keys : KeyManager crypto) (room : RoomId) (epoch : Epoch)
    (clock : Clock) :
    (keys.unstashed room epoch clock).after = (keys.unstash room epoch clock).2 := by
  unfold unstashed unstash
  rcases keys.stashed with _ | ⟨stashedRoom, stashedEpoch, stashedPeers⟩
  · rfl
  · dsimp only
    split
    · exact after_changed _ _ _ _ clock
    · rfl

theorem reapplied_passes (keys : KeyManager crypto) (clock : Clock) :
    Passes clock.now keys (keys.reapplied clock) := by
  unfold reapplied
  split
  · exact quiet_passes fun wraps => .refl keys
  · exact keys.changed_passes _ _ _ clock

theorem after_reapplied (keys : KeyManager crypto) (clock : Clock) :
    (keys.reapplied clock).after = (keys.reapplyPeers clock).2 := by
  unfold reapplied reapplyPeers
  cases keys.room with
  | none => rfl
  | some room => exact keys.after_changed _ _ _ clock

theorem placement_leads (keys : KeyManager crypto) (room : Option RoomId) (epoch : Epoch)
    (tracks : Option Tracks) (peers : List Peer) (clock : Clock) :
    Leads clock.now (keys.stages clock (.placement room epoch tracks peers)) keys
      (keys.applyPlacement room epoch tracks peers clock).2 := by
  unfold stages applyPlacement
  dsimp only
  split
  · exact ⟨quiet_passes fun wraps => .refl keys, rfl⟩
  · have taken : ∀ wraps, Changes clock.now wraps [] keys
        ((keys.changeRoom room).takePlace room tracks) :=
      fun wraps => .single (.takePlace keys room tracks)
    cases room with
    | none => exact ⟨quiet_passes fun wraps => (taken wraps).quietly (.stash _ none), rfl⟩
    | some room =>
      dsimp only
      refine ⟨quiet_passes taken, changed_passes _ room epoch peers clock,
        unstashed_passes _ room epoch clock, ?_⟩
      rw [after_unstashed, after_changed]
      rfl

theorem presence_leads (keys : KeyManager crypto) (user : UserId) (room : Option RoomId)
    (clock : Clock) :
    Leads clock.now (keys.stages clock (.presence user room)) keys
      (keys.perform clock (.presence user room)).2 := by
  obtain ⟨present, frame⟩ := keys.setPresence_frame user room
  dsimp only [stages, perform]
  generalize keys.setPresence user room = shown at frame
  obtain ⟨shown, after⟩ := shown
  dsimp only at frame ⊢
  subst frame
  have noted : Passes clock.now keys (quiet { keys with present := present }) :=
    quiet_passes fun wraps => .single (.present keys present)
  split
  · exact ⟨noted, reapplied_passes _ clock, after_reapplied _ clock⟩
  · exact ⟨noted, rfl⟩

/-- An operation leads through its stages to where it ends. -/
theorem perform_leads (keys : KeyManager crypto) (clock : Clock) (op : KeyOp crypto) :
    Leads clock.now (keys.stages clock op) keys (keys.perform clock op).2 := by
  cases op with
  | placement room epoch tracks peers =>
    exact keys.placement_leads room epoch tracks peers clock
  | peers room epoch peers =>
    exact ⟨keys.changed_passes room epoch peers clock, keys.after_changed room epoch peers clock⟩
  | presence user room => exact keys.presence_leads user room clock
  | senderKey sender epoch wrapped =>
    refine ⟨⟨?_, fun _ _ named => by cases named⟩, rfl⟩
    dsimp only
    unfold senderKey
    split
    · exact .refl keys
    · exact keys.senderKeyAt_changes sender epoch wrapped clock.now clock.now
  | renew encryption =>
    exact ⟨quiet_passes fun wraps => .single (.replaceEncryption keys encryption), rfl⟩
  | receive mediaId epoch =>
    exact ⟨quiet_passes fun wraps => .single (.recvKey keys mediaId epoch), rfl⟩
  | tick => exact ⟨quiet_passes fun wraps => .single (.tick keys), rfl⟩

/-- What every change keeps, every operation keeps. -/
theorem perform_keeps (holds : KeyManager crypto → Prop)
    (kept : ∀ now wraps before acceptance after, Change now wraps before acceptance after →
      holds before → holds after)
    {keys : KeyManager crypto} (clock : Clock) (op : KeyOp crypto) (start : holds keys) :
    holds (keys.perform clock op).2 := by
  have all : ∀ (stages : List (Stage crypto)) (before after : KeyManager crypto),
      Leads clock.now stages before after → holds before → holds after := by
    intro stages
    induction stages with
    | nil => exact fun before after same start => same ▸ start
    | cons stage rest inductionHypothesis =>
      rintro before after ⟨passes, leads⟩ start
      exact inductionHypothesis _ _ leads
        (passes.changes.keeps (fun _ => holds) (fun _ _ _ _ change => kept _ _ _ _ _ change) [] start)
  exact all _ _ _ (keys.perform_leads clock op) start

end KeyManager

end Throcc
