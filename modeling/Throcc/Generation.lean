/-
This file proves that the key manager counts every time a receive key may have
become available: as long as the generation stays, no operation makes a lookup
return a key that it did not return before.
-/

import Throcc.Changes

namespace Throcc

namespace KeyManager

variable {crypto : Crypto}

/-! ### What a lookup returns -/

/-- The key a lookup returns, without what it caches. -/
def returned (keys : KeyManager crypto) (id : MediaId) (epoch : Epoch) : Option crypto.TrackKey :=
  if keys.belowFloor epoch then none
  else
    (keys.owners.lookup id).bind fun owner =>
      ((keys.recvKeys.lookup (id, epoch)).filter fun cached => cached.1 = owner).elim
        ((keys.received.lookup (owner, epoch)).map fun received => crypto.derive received.secret id)
        fun cached => some cached.2

theorem recvKey_returned (keys : KeyManager crypto) (id : MediaId) (epoch : Epoch) :
    (keys.recvKey id epoch).1 = keys.returned id epoch := by
  unfold recvKey returned
  split
  · rfl
  · cases keys.owners.lookup id with
    | none => rfl
    | some owner =>
      dsimp only
      rw [Option.bind_some]
      cases keys.recvKeys.lookup (id, epoch) with
      | none =>
        cases keys.received.lookup (owner, epoch) with
        | none => rfl
        | some received => rfl
      | some cached =>
        obtain ⟨cachedFor, key⟩ := cached
        dsimp only
        rw [Option.filter_some]
        by_cases same : cachedFor = owner
        · rw [if_pos same, if_pos (decide_eq_true same)]
          rfl
        · rw [if_neg same, if_neg (mt of_decide_eq_true same)]
          cases keys.received.lookup (owner, epoch) with
          | none => rfl
          | some received => rfl

/-- Nothing that was not returned before is returned after. -/
def ReturnsNothingNew (before after : KeyManager crypto) : Prop :=
  ∀ id epoch, after.returned id epoch = none ∨ after.returned id epoch = before.returned id epoch

theorem ReturnsNothingNew.of_eq {before after : KeyManager crypto}
    (same : after.returned = before.returned) : before.ReturnsNothingNew after :=
  fun id epoch => Or.inr (congrFun (congrFun same id) epoch)

theorem ReturnsNothingNew.trans {first second third : KeyManager crypto}
    (one : first.ReturnsNothingNew second) (two : second.ReturnsNothingNew third) :
    first.ReturnsNothingNew third := by
  intro id epoch
  rcases two id epoch with none | same
  · exact Or.inl none
  · rw [same]
    exact one id epoch

/-! ### The generation only rises -/

theorem Change.generation_le {now : Instant} {wraps : KeyManager crypto → RoomId → Prop}
    {before after : KeyManager crypto} {acceptance : Option (Acceptance crypto)}
    (change : Change now wraps before acceptance after) : before.generation ≤ after.generation := by
  cases change with
  | trust room peers clock =>
    obtain ⟨checked, refused, frame⟩ := before.trustOf_frame room peers clock.unixNow
    unfold trusting
    dsimp only
    rw [frame]
    exact le_rfl
  | moveTo epoch =>
    unfold KeyManager.moveTo
    split
    · exact le_rfl
    · exact le_rfl
  | wrap room =>
    unfold wrapForNewPeers
    split
    · exact le_rfl
    · exact le_rfl
  | holdEarly =>
    unfold KeyManager.holdEarly
    split
    · exact le_rfl
    · exact le_rfl
  | takePlace room tracks =>
    unfold changeRoom
    split
    · exact le_rfl
    · exact le_rfl
  | recvKey id epoch =>
    obtain ⟨recvKeys, same⟩ := before.recvKey_cache id epoch
    rw [same]
  | store => exact Nat.le_succ _
  | advance => exact Nat.le_succ _
  | newSecret => exact le_rfl
  | takeEarly => exact le_rfl
  | stash => exact le_rfl
  | present => exact le_rfl
  | replaceEncryption => exact le_rfl
  | tick => exact le_rfl

theorem Changes.generation_le {now : Instant} {wraps : KeyManager crypto → RoomId → Prop}
    {accepted : List (Acceptance crypto)} {before after : KeyManager crypto}
    (changes : Changes now wraps accepted before after) : before.generation ≤ after.generation :=
  changes.keeps (fun _ keys => before.generation ≤ keys.generation)
    (fun _ _ _ _ change below => below.trans change.generation_le) [] le_rfl

theorem generation_le_perform (keys : KeyManager crypto) (clock : Clock) (op : KeyOp crypto) :
    keys.generation ≤ (keys.perform clock op).2.generation :=
  perform_keeps (fun after => keys.generation ≤ after.generation)
    (fun _ _ _ _ _ change below => below.trans change.generation_le) clock op le_rfl

/-- Applying a room state counts. -/
theorem generation_lt_applyPeers (keys : KeyManager crypto) (room : RoomId) (epoch : Epoch)
    (peers : List Peer) (clock : Clock) (there : keys.room = some room)
    (notEarlier : keys.epoch ≤ epoch) :
    keys.generation < (keys.applyPeers room epoch peers clock).2.generation := by
  have wrapped : Changes clock.now (fun _ _ => True) _ keys _ :=
    keys.wrapped_changes room epoch peers clock there notEarlier trivial
  exact Nat.lt_succ_of_le wrapped.generation_le

/-! ### What a lookup returns comes with the generation -/

/-- What a lookup goes by. -/
theorem returned_congr {before after : KeyManager crypto} (floor : after.floor = before.floor)
    (epoch : after.epoch = before.epoch) (owners : after.owners = before.owners)
    (recvKeys : after.recvKeys = before.recvKeys) (received : after.received = before.received) :
    before.ReturnsNothingNew after := by
  refine .of_eq ?_
  unfold returned belowFloor
  rw [floor, epoch, owners, recvKeys, received]

theorem applyPeers_returns (keys : KeyManager crypto) (room : RoomId) (epoch : Epoch)
    (peers : List Peer) (clock : Clock) (there : keys.room = some room)
    (notEarlier : keys.epoch ≤ epoch)
    (same : (keys.applyPeers room epoch peers clock).2.generation = keys.generation) :
    keys.ReturnsNothingNew (keys.applyPeers room epoch peers clock).2 :=
  absurd same (keys.generation_lt_applyPeers room epoch peers clock there notEarlier).ne'

theorem peersChanged_returns (keys : KeyManager crypto) (room : RoomId) (epoch : Epoch)
    (peers : List Peer) (clock : Clock)
    (same : (keys.peersChanged room epoch peers clock).2.generation = keys.generation) :
    keys.ReturnsNothingNew (keys.peersChanged room epoch peers clock).2 := by
  unfold peersChanged at same ⊢
  split
  · unfold KeyManager.stash
    split
    · exact returned_congr rfl rfl rfl rfl rfl
    · exact .of_eq rfl
  · rename_i here
    rw [if_neg here] at same
    split
    · exact .of_eq rfl
    · rename_i notEarlier
      rw [if_neg notEarlier] at same
      exact keys.applyPeers_returns room epoch peers clock (not_not.mp here).symm
        (Nat.le_of_not_lt notEarlier) same

/-- A placement that is not late leaves us in its room at its epoch or an earlier one. -/
theorem epoch_changeRoom_le (keys : KeyManager crypto) {room : RoomId} {epoch : Epoch}
    (onTime : ¬ (some room = keys.room ∧ epoch < keys.epoch)) :
    (keys.changeRoom (some room)).epoch ≤ epoch := by
  unfold changeRoom
  by_cases moves : some room ≠ keys.room
  · rw [if_pos moves]
    exact Nat.zero_le epoch
  · rw [if_neg moves]
    exact Nat.le_of_not_lt fun late => onTime ⟨not_not.mp moves, late⟩

theorem generation_lt_applyPlacement (keys : KeyManager crypto) {room : RoomId} {epoch : Epoch}
    (tracks : Option Tracks) (peers : List Peer) (clock : Clock)
    (onTime : ¬ (some room = keys.room ∧ epoch < keys.epoch)) :
    keys.generation <
      (keys.applyPlacement (some room) epoch tracks peers clock).2.generation := by
  let taken := (keys.changeRoom (some room)).takePlace (some room) tracks
  have taking : Changes clock.now (fun _ _ => True) [] keys taken := .single (.takePlace keys _ _)
  have notEarlier : taken.epoch ≤ epoch := keys.epoch_changeRoom_le onTime
  let applied := (taken.peersChanged room epoch peers clock).2
  have applies : applied = (taken.applyPeers room epoch peers clock).2 :=
    congrArg Prod.snd (taken.peersChanged_of_applies peers clock ⟨rfl, notEarlier⟩)
  have unstashes := (applied.unstashed_passes room epoch clock).changes.generation_le
  rw [after_unstashed] at unstashes
  have all : (keys.applyPlacement (some room) epoch tracks peers clock).2 =
      (applied.unstash room epoch clock).2 := by
    unfold applyPlacement
    rw [if_neg fun stale => onTime stale.2]
  calc keys.generation
      ≤ taken.generation := taking.generation_le
    _ < applied.generation :=
        applies ▸ taken.generation_lt_applyPeers room epoch peers clock rfl notEarlier
    _ ≤ (applied.unstash room epoch clock).2.generation := unstashes
    _ = (keys.applyPlacement (some room) epoch tracks peers clock).2.generation := by rw [all]

theorem applyPlacement_returns (keys : KeyManager crypto) (room : Option RoomId) (epoch : Epoch)
    (tracks : Option Tracks) (peers : List Peer) (clock : Clock)
    (same : (keys.applyPlacement room epoch tracks peers clock).2.generation = keys.generation) :
    keys.ReturnsNothingNew (keys.applyPlacement room epoch tracks peers clock).2 := by
  cases room with
  | some room =>
    by_cases stale : some room = keys.room ∧ epoch < keys.epoch
    · unfold applyPlacement
      rw [if_pos ⟨rfl, stale⟩]
      exact .of_eq rfl
    · exact absurd same (keys.generation_lt_applyPlacement tracks peers clock stale).ne'
  | none =>
    unfold applyPlacement
    rw [if_neg fun stale => Bool.false_ne_true stale.1]
    by_cases moves : none ≠ keys.room
    · intro id epoch
      dsimp only [changeRoom]
      rw [if_pos moves]
      exact Or.inl (ite_self none)
    · dsimp only [changeRoom]
      rw [if_neg moves]
      exact returned_congr rfl rfl rfl rfl rfl

theorem senderKeyAt_returns (keys : KeyManager crypto) (sender : UserId) (epoch : Epoch)
    (wrapped : List UInt8) (arrived now : Instant)
    (same : (keys.senderKeyAt sender epoch wrapped arrived now).2.generation = keys.generation) :
    keys.ReturnsNothingNew (keys.senderKeyAt sender epoch wrapped arrived now).2 := by
  have held : keys.ReturnsNothingNew (keys.holdEarly sender epoch wrapped arrived) := by
    unfold KeyManager.holdEarly
    split
    · exact returned_congr rfl rfl rfl rfl rfl
    · exact .of_eq rfl
  unfold senderKeyAt at same ⊢
  by_cases below : keys.belowFloor epoch = true
  · rw [if_pos below]
    exact .of_eq rfl
  · rw [if_neg below] at same ⊢
    cases there : keys.room with
    | none => exact held
    | some room =>
      cases known : keys.peers.lookup sender with
      | none => exact held
      | some peer =>
        rw [there, known] at same
        dsimp only at same ⊢
        by_cases notLater : epoch ≤ keys.epoch
        · rw [if_pos notLater] at same ⊢
          by_cases late : epoch < keys.epoch ∧ keys.epochSince + oldKeyGrace ≤ now
          · rw [if_pos late]
            exact .of_eq rfl
          · rw [if_neg late] at same ⊢
            cases unwrapped : keys.unwrapWith peer.encryptionKey
              (keys.context room epoch sender keys.me) wrapped with
            | none => exact .of_eq rfl
            | some secret =>
              rw [unwrapped] at same
              exact absurd same (Nat.succ_ne_self keys.generation)
        · rw [if_neg notLater]
          exact held

/-- Caching a key that a lookup derived changes no lookup. -/
theorem cached_returns (keys : KeyManager crypto) {id : MediaId} {epoch : Epoch} {owner : UserId}
    {received : Received crypto} (owned : keys.owners.lookup id = some owner)
    (found : keys.received.lookup (owner, epoch) = some received)
    (uncached : (keys.recvKeys.lookup (id, epoch)).filter (fun cached => cached.1 = owner) = none) :
    keys.ReturnsNothingNew
      { keys with
        recvKeys := keys.recvKeys.insert (id, epoch) (owner, crypto.derive received.secret id) } := by
  intro otherId otherEpoch
  refine Or.inr ?_
  unfold returned
  by_cases same : (otherId, otherEpoch) = (id, epoch)
  · obtain ⟨rfl, rfl⟩ := Prod.mk.inj same
    dsimp only
    rw [owned, Option.bind_some, Option.bind_some, found, uncached, Finmap.lookup_insert,
      Option.filter_some, if_pos (decide_eq_true rfl)]
    rfl
  · dsimp only
    rw [Finmap.lookup_insert_of_ne _ same]
    rfl

theorem recvKey_returns (keys : KeyManager crypto) (id : MediaId) (epoch : Epoch) :
    keys.ReturnsNothingNew (keys.recvKey id epoch).2 := by
  have unchanged : keys.ReturnsNothingNew keys := .of_eq rfl
  unfold recvKey
  split
  · exact unchanged
  · cases owned : keys.owners.lookup id with
    | none => exact unchanged
    | some owner =>
      dsimp only
      cases cached : keys.recvKeys.lookup (id, epoch) with
      | none =>
        cases found : keys.received.lookup (owner, epoch) with
        | none => exact unchanged
        | some received => exact keys.cached_returns owned found (by rw [cached]; rfl)
      | some entry =>
        dsimp only
        by_cases same : entry.1 = owner
        · rw [if_pos same]
          exact unchanged
        · rw [if_neg same]
          cases found : keys.received.lookup (owner, epoch) with
          | none => exact unchanged
          | some received =>
            refine keys.cached_returns owned found ?_
            rw [cached, Option.filter_some, if_neg (mt of_decide_eq_true same)]

/-- A key whose secret is dropped goes with it. -/
theorem tick_returns (keys : KeyManager crypto) (now : Instant) :
    keys.ReturnsNothingNew (keys.tick now) := by
  intro id epoch
  unfold returned
  by_cases below : keys.belowFloor epoch = true
  · rw [if_pos (show (keys.tick now).belowFloor epoch = true from below)]
    exact Or.inl rfl
  · rw [if_neg below, if_neg (show ¬ (keys.tick now).belowFloor epoch = true from below)]
    dsimp only [tick]
    cases keys.owners.lookup id with
    | none => exact Or.inl rfl
    | some owner =>
      rw [Option.bind_some, Option.bind_some, Map.lookup_retain, Option.filter_filter]
      set received := keys.received.retain fun _ received => received.retireAt.all (now < ·)
        with retained
      have ofOwner : ∀ cached : UserId × crypto.TrackKey,
          (decide ((cached.1, epoch) ∈ received) && decide (cached.1 = owner)) =
            (decide ((owner, epoch) ∈ received) && decide (cached.1 = owner)) := by
        intro cached
        by_cases same : cached.1 = owner
        · rw [same]
        · rw [decide_eq_false same, Bool.and_false, Bool.and_false]
      rw [funext ofOwner]
      cases found : received.lookup (owner, epoch) with
      | none =>
        have dropped : (owner, epoch) ∉ received := Finmap.lookup_eq_none.mp found
        rw [decide_eq_false dropped]
        cases keys.recvKeys.lookup (id, epoch) with
        | none => exact Or.inl rfl
        | some cached => exact Or.inl rfl
      | some unexpired =>
        have kept : (owner, epoch) ∈ received := Finmap.mem_iff.mpr ⟨unexpired, found⟩
        have before : keys.received.lookup (owner, epoch) = some unexpired := by
          rw [retained, Map.lookup_retain] at found
          exact (Option.filter_eq_some_iff.mp found).1
        rw [before, decide_eq_true kept]
        exact Or.inr rfl

theorem reapplyPeers_returns (keys : KeyManager crypto) (clock : Clock)
    (same : (keys.reapplyPeers clock).2.generation = keys.generation) :
    keys.ReturnsNothingNew (keys.reapplyPeers clock).2 := by
  unfold reapplyPeers at same ⊢
  cases there : keys.room with
  | none => exact .of_eq rfl
  | some room =>
    rw [there] at same
    exact keys.peersChanged_returns room keys.epoch keys.roomPeers clock same

theorem presence_returns (keys : KeyManager crypto) (user : UserId) (room : Option RoomId)
    (clock : Clock)
    (same : (keys.perform clock (.presence user room)).2.generation = keys.generation) :
    keys.ReturnsNothingNew (keys.perform clock (.presence user room)).2 := by
  obtain ⟨present, frame⟩ := keys.setPresence_frame user room
  have noted : keys.ReturnsNothingNew { keys with present := present } :=
    returned_congr rfl rfl rfl rfl rfl
  dsimp only [perform] at same ⊢
  generalize keys.setPresence user room = shown at frame same
  obtain ⟨shown, after⟩ := shown
  dsimp only at frame same ⊢
  subst frame
  cases shown with
  | false => exact noted
  | true => exact noted.trans (reapplyPeers_returns _ clock same)

/-- While the generation stays, no operation makes a lookup return what it did not return. -/
theorem perform_returns (keys : KeyManager crypto) (clock : Clock) (op : KeyOp crypto)
    (same : (keys.perform clock op).2.generation = keys.generation) :
    keys.ReturnsNothingNew (keys.perform clock op).2 := by
  cases op with
  | placement room epoch tracks peers =>
    exact keys.applyPlacement_returns room epoch tracks peers clock same
  | peers room epoch peers => exact keys.peersChanged_returns room epoch peers clock same
  | presence user room => exact keys.presence_returns user room clock same
  | senderKey sender epoch wrapped =>
    dsimp only [perform, senderKey] at same ⊢
    split
    · exact .of_eq rfl
    · rename_i rightLength
      rw [if_neg rightLength] at same
      exact keys.senderKeyAt_returns sender epoch wrapped clock.now clock.now same
  | renew encryption => exact returned_congr rfl rfl rfl rfl rfl
  | receive mediaId epoch => exact keys.recvKey_returns mediaId epoch
  | tick => exact keys.tick_returns clock.now

/-- What every run leads to: the generation only rises, and while it stays no lookup returns
what it did not return before. -/
structure Follows (before after : KeyManager crypto) : Prop where
  rises : before.generation ≤ after.generation
  nothingNew : after.generation = before.generation → before.ReturnsNothingNew after

theorem Follows.refl (keys : KeyManager crypto) : keys.Follows keys := ⟨le_rfl, fun _ => .of_eq rfl⟩

theorem Follows.trans {first second third : KeyManager crypto} (one : first.Follows second)
    (two : second.Follows third) : first.Follows third := by
  refine ⟨one.rises.trans two.rises, fun same => ?_⟩
  have early : second.generation = first.generation :=
    le_antisymm (two.rises.trans same.le) one.rises
  exact (one.nothingNew early).trans (two.nothingNew (same.trans early.symm))

theorem perform_follows (keys : KeyManager crypto) (clock : Clock) (op : KeyOp crypto) :
    keys.Follows (keys.perform clock op).2 :=
  ⟨keys.generation_le_perform clock op, keys.perform_returns clock op⟩

theorem recvKey_follows (keys : KeyManager crypto) (id : MediaId) (epoch : Epoch) :
    keys.Follows (keys.recvKey id epoch).2 := keys.perform_follows ⟨0, 0⟩ (.receive id epoch)

end KeyManager

end Throcc
