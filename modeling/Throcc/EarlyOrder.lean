/-
This file proves that the order in which the sender keys held early are tried
again doesn't matter. What becomes of a held key depends on nothing that trying
another one changes, and two of them settle alike in either order.
-/

import Throcc.Stages
import Throcc.Standing

namespace Throcc

/-- A sender key held early: from whom, of which epoch, since when, and wrapped. -/
abbrev EarlyKey := (UserId ×ₗ Epoch) × Instant × List UInt8

/-- What becomes of a sender key held early that is tried again. -/
inductive KeyFate (crypto : Crypto) where
  | stored (room : RoomId) (received : Received crypto)
  | kept
  | refused

namespace KeyManager

variable {crypto : Crypto}

/-- The key manager without the record of what it stored. -/
def forget (keys : KeyManager crypto) : KeyManager crypto := { keys with stores := [] }

theorem forget_congr {keys first second : KeyManager crypto}
    (frame : ∃ inbox, first = keys.withInbox inbox)
    (frame' : ∃ inbox, second = keys.withInbox inbox) (received : first.received = second.received)
    (recvKeys : first.recvKeys = second.recvKeys) (early : first.early = second.early)
    (generation : first.generation = second.generation) : first.forget = second.forget := by
  obtain ⟨inbox, rfl⟩ := frame
  obtain ⟨inbox', rfl⟩ := frame'
  cases inbox
  cases inbox'
  dsimp only [withInbox] at received recvKeys early generation
  subst received recvKeys early generation
  rfl

/-! ### What becomes of a held key -/

def fate (keys : KeyManager crypto) (now : Instant) (held : EarlyKey) : KeyFate crypto :=
  let sender := (ofLex held.1).1
  let epoch := (ofLex held.1).2
  if oldKeyGrace ≤ now - held.2.1 ∨ keys.belowFloor epoch then
    .refused
  else
    match keys.room, keys.peers.lookup sender with
    | some room, some peer =>
      if keys.epoch < epoch then
        .kept
      else if epoch < keys.epoch ∧ keys.epochSince + oldKeyGrace ≤ now then
        .refused
      else
        let ends := keys.epochSince + oldKeyGrace
        match keys.unwrapWith peer.encryptionKey (keys.context room epoch sender keys.me)
          held.2.2 with
        | none => .refused
        | some secret =>
          .stored room { secret, retireAt := if epoch < keys.epoch then some ends else none }
    | _, _ => .kept

/-- Holds a sender key on. -/
def keep (keys : KeyManager crypto) (held : EarlyKey) : KeyManager crypto :=
  { keys with early := keys.early.insert held.1 held.2 }

/-- What a fate makes of the key manager. -/
def befall (now : Instant) (keys : KeyManager crypto) (held : EarlyKey) :
    KeyFate crypto → KeyManager crypto
  | .stored room received => keys.store room (ofLex held.1).1 (ofLex held.1).2 received now
  | .kept => keys.keep held
  | .refused => keys

/-- Trying a held key again, when there is space to keep it. -/
def settle (now : Instant) (keys : KeyManager crypto) (held : EarlyKey) : KeyManager crypto :=
  befall now keys held (keys.fate now held)

@[simp] theorem fate_withInbox (keys : KeyManager crypto) (inbox : Inbox crypto) (now : Instant)
    (held : EarlyKey) : (keys.withInbox inbox).fate now held = keys.fate now held := rfl

theorem settle_frame (keys : KeyManager crypto) (now : Instant) (held : EarlyKey) :
    ∃ inbox, keys.settle now held = keys.withInbox inbox := by
  unfold settle
  cases keys.fate now held with
  | stored => exact keys.store_frame ..
  | kept => exact ⟨⟨keys.received, keys.recvKeys, _, keys.generation, keys.stores⟩, rfl⟩
  | refused => exact keys.withInbox_self

theorem fate_settle (keys : KeyManager crypto) (now : Instant) (held other : EarlyKey) :
    (keys.settle now held).fate now other = keys.fate now other := by
  obtain ⟨inbox, same⟩ := keys.settle_frame now held
  rw [same, fate_withInbox]

theorem settle_forget (keys : KeyManager crypto) (now : Instant) (held : EarlyKey) :
    (keys.forget.settle now held).forget = (keys.settle now held).forget := by
  have same : keys.forget.fate now held = keys.fate now held := rfl
  unfold settle
  rw [same]
  cases keys.fate now held <;> rfl

theorem replayOne_eq (keys : KeyManager crypto) (now : Instant) (held : EarlyKey)
    (space : keys.early.keys.card < maxEarly) : keys.replayOne now held = keys.settle now held := by
  have kept : keys.holdEarly (ofLex held.1).1 (ofLex held.1).2 held.2.2 held.2.1 =
      keys.keep held := if_pos (Or.inl space)
  unfold replayOne settle fate
  dsimp only
  by_cases young : now - held.2.1 < oldKeyGrace
  · rw [if_pos young]
    unfold senderKeyAt
    by_cases below : keys.belowFloor (ofLex held.1).2 = true
    · rw [if_pos below, if_pos (Or.inr below)]
      rfl
    · have settles : ¬ (oldKeyGrace ≤ now - held.2.1 ∨ keys.belowFloor (ofLex held.1).2 = true) := by
        rintro (old | floored)
        · exact absurd young (Nat.not_lt.mpr old)
        · exact below floored
      rw [if_neg below, if_neg settles]
      cases keys.room with
      | none => exact kept
      | some room =>
        cases keys.peers.lookup (ofLex held.1).1 with
        | none => exact kept
        | some peer =>
          dsimp only
          by_cases later : keys.epoch < (ofLex held.1).2
          · rw [if_neg (Nat.not_le.mpr later), if_pos later]
            exact kept
          · rw [if_pos (Nat.le_of_not_lt later), if_neg later]
            split
            · rfl
            · cases keys.unwrapWith peer.encryptionKey
                (keys.context room (ofLex held.1).2 (ofLex held.1).1 keys.me) held.2.2 <;> rfl
  · rw [if_neg young, if_pos (Or.inl (Nat.le_of_not_lt young))]
    rfl

theorem card_settle_le (keys : KeyManager crypto) (now : Instant) (held : EarlyKey) :
    (keys.settle now held).early.keys.card ≤ keys.early.keys.card + 1 := by
  unfold settle
  cases keys.fate now held with
  | stored => exact Nat.le_succ _
  | kept =>
    show (keys.early.insert held.1 held.2).keys.card ≤ _
    rw [Map.keys_insert]
    exact Finset.card_insert_le _ _
  | refused => exact Nat.le_succ _

/-- While the held keys all fit, trying them again is settling them. -/
theorem foldl_replayOne (now : Instant) (order : List EarlyKey) {keys : KeyManager crypto}
    (fits : keys.early.keys.card + order.length ≤ maxEarly) :
    order.foldl (replayOne now) keys = order.foldl (settle now) keys := by
  induction order generalizing keys with
  | nil => rfl
  | cons held rest inductionHypothesis =>
    rw [List.length_cons] at fits
    have grows := keys.card_settle_le now held
    rw [List.foldl_cons, List.foldl_cons, replayOne_eq keys now held (by omega)]
    exact inductionHypothesis (by omega)

/-! ### Two held keys settle alike in either order -/

/-- A secret stored for an epoch before ours has a retirement time. -/
theorem fate_retires {keys : KeyManager crypto} {now : Instant} {held : EarlyKey} {room : RoomId}
    {received : Received crypto} (stores : keys.fate now held = .stored room received) :
    (ofLex held.1).2 ≤ keys.epoch ∧
      ((ofLex held.1).2 < keys.epoch → received.retireAt.isSome = true) := by
  unfold fate at stores
  dsimp only at stores
  split at stores
  · cases stores
  · split at stores
    · split at stores
      · cases stores
      · rename_i notLater
        split at stores
        · cases stores
        · split at stores
          · cases stores
          · cases stores
            refine ⟨Nat.le_of_not_lt notLater, fun earlier => ?_⟩
            rw [if_pos earlier]
            rfl
    · cases stores

/-- A received secret whose grace period starts at `now`, if it `departs` and none has started. -/
def retired (now : Instant) (departs : Bool) (received : Received crypto) : Received crypto :=
  if departs ∧ received.retireAt.isNone then
    { received with retireAt := some (now + oldKeyGrace) }
  else
    received

theorem retired_of_some (now : Instant) (departs : Bool) {received : Received crypto}
    (some : received.retireAt.isSome = true) : retired now departs received = received := by
  refine if_neg fun retires => ?_
  rw [Option.isNone_iff_eq_none] at retires
  rw [retires.2] at some
  cases some

theorem retired_retired (now : Instant) (departs departs' : Bool) (received : Received crypto) :
    retired now departs (retired now departs' received) =
      retired now departs' (retired now departs received) := by
  obtain ⟨secret, retireAt⟩ := received
  cases departs <;> cases departs' <;> cases retireAt <;> rfl

theorem lookup_retireReceived (keys : KeyManager crypto) (now : Instant)
    (which : UserId → Epoch → Bool) (key : UserId × Epoch) :
    (keys.retireReceived now which).received.lookup key =
      (keys.received.lookup key).map (retired now (which key.1 key.2)) :=
  Map.lookup_mapValues _ _ _

theorem lookup_store (keys : KeyManager crypto) (room : RoomId) (sender : UserId) (epoch : Epoch)
    (received : Received crypto) (now : Instant) (key : UserId × Epoch) :
    (keys.store room sender epoch received now).received.lookup key =
      if key = (sender, epoch) then some received
      else (keys.received.lookup key).map (retired now (key.1 = sender ∧ key.2 < epoch)) := by
  show (Finmap.insert _ _ _).lookup key = _
  rw [Map.lookup_insert_ite, lookup_retireReceived]

theorem recvKeys_store (keys : KeyManager crypto) (room : RoomId) (sender : UserId) (epoch : Epoch)
    (received : Received crypto) (now : Instant) :
    (keys.store room sender epoch received now).recvKeys =
      keys.recvKeys.retain fun key cached => !(cached.1 = sender ∧ key.2 = epoch) := rfl

section Swap

variable (keys : KeyManager crypto) (now : Instant) (room place : RoomId) {sender user : UserId}
  {epoch old : Epoch} {received other : Received crypto}

/-- Two secrets stored one after the other leave the same in either order, if the one of an
earlier epoch of one sender has a retirement time. -/
theorem received_store_store (different : (sender, epoch) ≠ (user, old))
    (retires : sender = user → epoch < old → received.retireAt.isSome = true)
    (retires' : sender = user → old < epoch → other.retireAt.isSome = true) :
    ((keys.store room sender epoch received now).store place user old other now).received =
      ((keys.store place user old other now).store room sender epoch received now).received := by
  refine Finmap.ext_lookup fun key => ?_
  rw [lookup_store, lookup_store, lookup_store, lookup_store]
  by_cases first : key = (sender, epoch)
  · rw [first, if_neg different, if_pos rfl, if_pos rfl, Option.map_some]
    by_cases departs : sender = user ∧ epoch < old
    · rw [retired_of_some _ _ (retires departs.1 departs.2)]
    · rw [decide_eq_false departs]
      rfl
  · by_cases second : key = (user, old)
    · rw [second, if_pos rfl, if_neg different.symm, if_pos rfl, Option.map_some]
      by_cases departs : user = sender ∧ old < epoch
      · rw [retired_of_some _ _ (retires' departs.1.symm departs.2)]
      · rw [decide_eq_false departs]
        rfl
    · rw [if_neg first, if_neg second, if_neg second, if_neg first, Option.map_map, Option.map_map]
      exact congrArg (fun change => (keys.received.lookup key).map change)
        (funext fun kept => retired_retired ..)

theorem store_store_frame :
    ∃ inbox, (keys.store room sender epoch received now).store place user old other now =
      keys.withInbox inbox := by
  obtain ⟨inbox, same⟩ := keys.store_frame room sender epoch received now
  obtain ⟨inbox', same'⟩ := (keys.withInbox inbox).store_frame place user old other now
  exact ⟨inbox', by rw [same, same']; rfl⟩

theorem store_store (different : (sender, epoch) ≠ (user, old))
    (retires : sender = user → epoch < old → received.retireAt.isSome = true)
    (retires' : sender = user → old < epoch → other.retireAt.isSome = true) :
    ((keys.store room sender epoch received now).store place user old other now).forget =
      ((keys.store place user old other now).store room sender epoch received now).forget := by
  refine forget_congr (store_store_frame ..) (store_store_frame ..)
    (received_store_store keys now room place different retires retires') ?_ rfl rfl
  rw [recvKeys_store, recvKeys_store, recvKeys_store, recvKeys_store, Map.retain_comm]

end Swap

/-- Two held keys settle alike in either order. -/
theorem settle_settle (keys : KeyManager crypto) (now : Instant) {held other : EarlyKey}
    (different : held.1 ≠ other.1) :
    ((keys.settle now held).settle now other).forget =
      ((keys.settle now other).settle now held).forget := by
  have apart : ((ofLex held.1).1, (ofLex held.1).2) ≠ ((ofLex other.1).1, (ofLex other.1).2) :=
    fun same => different (ofLex.injective same)
  have first : (keys.settle now held).settle now other =
      befall now (keys.settle now held) other (keys.fate now other) := by
    rw [← keys.fate_settle now held other]
    rfl
  have second : (keys.settle now other).settle now held =
      befall now (keys.settle now other) held (keys.fate now held) := by
    rw [← keys.fate_settle now other held]
    rfl
  rw [first, second]
  unfold settle
  cases fated : keys.fate now held with
  | refused => rfl
  | kept =>
    cases keys.fate now other with
    | refused => rfl
    | stored => rfl
    | kept =>
      refine congrArg (fun early => { keys.forget with early := early }) ?_
      exact Finmap.insert_insert_of_ne _ different
  | stored room received =>
    cases fated' : keys.fate now other with
    | refused => rfl
    | kept => rfl
    | stored place received' =>
      obtain ⟨notLater, retires⟩ := fate_retires fated
      obtain ⟨notLater', retires'⟩ := fate_retires fated'
      exact store_store keys now room place apart
        (fun _ earlier => retires (earlier.trans_le notLater'))
        (fun _ earlier => retires' (earlier.trans_le notLater))

/-- Settling one held key after another, without the record of what is stored. -/
theorem foldl_settle_forget (now : Instant) (order : List EarlyKey) (keys : KeyManager crypto) :
    (order.foldl (settle now) keys).forget =
      order.foldl (fun keys held => (keys.settle now held).forget) keys.forget := by
  induction order generalizing keys with
  | nil => rfl
  | cons held rest inductionHypothesis =>
    rw [List.foldl_cons, List.foldl_cons, inductionHypothesis, settle_forget]

/-- The result of trying the held keys again, apart from the record of what was stored, doesn't
depend on the order in which the map yields them. -/
theorem replayIn_order (keys : KeyManager crypto) (few : keys.early.keys.card ≤ maxEarly)
    {order : List EarlyKey} (perm : order.Perm keys.early.toList) (now : Instant) :
    (keys.replayIn order now).forget = (keys.replayEarly now).forget := by
  have keyed : keys.early.toList.map Prod.fst = ascending keys.early.keys := keys.early.toList_keys
  have length : keys.early.toList.length = keys.early.keys.card := by
    rw [← length_ascending, ← keyed, List.length_map]
  have settles : ∀ other : List EarlyKey, other.Perm keys.early.toList →
      keys.replayIn other now = other.foldl (settle now) { keys with early := ∅ } := by
    intro other perm'
    refine foldl_replayOne now other ?_
    rw [perm'.length_eq, length]
    exact (Nat.zero_add _).trans_le few
  have distinct : ∀ held ∈ order, ∀ other ∈ order, held.1 = other.1 → held = other := by
    intro held member other member' same
    have nodup : (order.map Prod.fst).Nodup := by
      rw [(perm.map Prod.fst).nodup_iff, keyed]
      exact nodup_ascending _
    exact List.inj_on_of_nodup_map nodup member member' same
  rw [replayEarly_eq, settles order perm, settles _ (List.Perm.refl _), foldl_settle_forget,
    foldl_settle_forget]
  refine perm.foldl_eq' (fun held member other member' sofar => ?_) _
  by_cases same : held.1 = other.1
  · rw [distinct held member other member' same]
  · rw [settle_forget, settle_forget]
    exact sofar.settle_settle now same

end KeyManager

end Throcc
