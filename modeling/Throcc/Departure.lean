/-
This file asks what becomes of a sender's secrets when the sender stops being a
trusted peer under the identity key they had. They expire, unless it is HPKE
that refuses the peer: wrapping our secret leaves such a peer out without
retiring what they sent, and a later room state can then put someone else in
their place. Where that doesn't happen, no key comes from a secret whose sender
was gone for the grace period at the last tick.
-/

import Throcc.Provenance
import Throcc.Secrecy

namespace Throcc

namespace KeyManager

variable {crypto : Crypto}

theorem trusts_iff {keys : KeyManager crypto} {acceptance : Acceptance crypto} :
    keys.trusts acceptance = true ↔ ∃ peer, keys.peers.lookup acceptance.sender = some peer ∧
      peer.identityKey = acceptance.identityKey := by
  unfold trusts
  cases keys.peers.lookup acceptance.sender with
  | none => simp
  | some peer => simp

theorem stays_iff {keys : KeyManager crypto} {trusted : Map UserId KeyPeer} {user : UserId}
    {old : KeyPeer} (known : keys.peers.lookup user = some old) :
    keys.departs trusted user = false ↔
      ∃ new, trusted.lookup user = some new ∧ new.identityKey = old.identityKey := by
  unfold departs
  rw [known]
  cases trusted.lookup user with
  | none => simp
  | some new => simp

/-- HPKE refuses nobody whose secret we hold without a retirement time. -/
def SparesSenders (keys : KeyManager crypto) (room : RoomId) : Prop :=
  ∀ secret, keys.mySecret = some secret → ∀ refused ∈ keys.refused room secret,
    ∀ epoch received, keys.received.lookup (refused.1, epoch) = some received →
      received.retireAt.isSome = true

/-- A secret held without a retirement time is from a trusted peer, under the identity key they
had; one whose sender is no longer trusted is retired within the grace period from then on; and
the last tick left none that had to go. -/
structure Expires (ticked : Option Instant) (entries : List (Entry crypto))
    (keys : KeyManager crypto) : Prop where
  trusted : ∀ key received room entry, keys.received.lookup key = some received →
    received.retireAt = none → keys.room = some room →
    Entry.last entries room key.1 key.2 = some entry → keys.trusts entry.acceptance = true
  lapsed : ∀ key received room entry time, keys.received.lookup key = some received →
    keys.room = some room → Entry.last entries room key.1 key.2 = some entry →
    entry.lapsed = some time → ∃ retire, received.retireAt = some retire ∧
      retire ≤ time + oldKeyGrace
  unticked : ∀ key received retire time, keys.received.lookup key = some received →
    received.retireAt = some retire → ticked = some time → time < retire

/-- A retirement time set now is after the last tick too. -/
theorem Expires.unticked_retired {ticked : Option Instant} {entries : List (Entry crypto)}
    {keys : KeyManager crypto} {now : Instant} (expires : keys.Expires ticked entries)
    (past : ∀ time, ticked = some time → time ≤ now) {key : UserId × Epoch}
    {received : Received crypto} (found : keys.received.lookup key = some received)
    {departs : Bool} {retire time : Instant}
    (retiring : (retired now departs received).retireAt = some retire)
    (atTick : ticked = some time) : time < retire := by
  rw [retireAt_retired] at retiring
  cases before : received.retireAt with
  | some earlier =>
    rw [before] at retiring
    cases retiring
    exact expires.unticked key received retire time found before atTick
  | none =>
    rw [before] at retiring
    cases departs with
    | false => cases retiring
    | true =>
      cases retiring
      exact (past time atTick).trans_lt (Nat.lt_add_of_pos_right (by decide))

/-- One that has a retirement time keeps it. -/
theorem Expires.lapsed_retired {ticked : Option Instant} {entries : List (Entry crypto)}
    {keys : KeyManager crypto} (expires : keys.Expires ticked entries) {key : UserId × Epoch}
    {received : Received crypto} (found : keys.received.lookup key = some received)
    {room : RoomId} {entry : Entry crypto} {time : Instant} (there : keys.room = some room)
    (last : Entry.last entries room key.1 key.2 = some entry) (lapsed : entry.lapsed = some time)
    (now : Instant) (departs : Bool) :
    ∃ retire, (retired now departs received).retireAt = some retire ∧
      retire ≤ time + oldKeyGrace := by
  obtain ⟨retire, retiring, inTime⟩ := expires.lapsed key received room entry time found there last lapsed
  exact ⟨retire, by rw [retireAt_retired, retiring]; rfl, inTime⟩

/-- Secrets retired now keep what is true of them, if those left without a retirement time are
still from trusted peers. -/
theorem Expires.retires {ticked : Option Instant} {entries : List (Entry crypto)}
    {before after : KeyManager crypto} {now : Instant} (expires : before.Expires ticked entries)
    (past : ∀ time, ticked = some time → time ≤ now) (retires : before.Retires now after)
    (room : after.room = before.room)
    (trusted : ∀ key received room entry, after.received.lookup key = some received →
      received.retireAt = none → after.room = some room →
      Entry.last entries room key.1 key.2 = some entry →
      before.trusts entry.acceptance = true → after.trusts entry.acceptance = true) :
    after.Expires ticked entries := by
  constructor
  · intro key received place entry found none there last
    refine trusted key received place entry found none there last ?_
    obtain ⟨departs, old, found', rfl⟩ := retires.found found
    rw [retireAt_retired, Option.or_eq_none_iff] at none
    exact expires.trusted key old place entry found' none.1 (room ▸ there) last
  · intro key received place entry time found there last lapsed
    obtain ⟨departs, old, found', rfl⟩ := retires.found found
    exact expires.lapsed_retired found' (room ▸ there) last lapsed now departs
  · intro key received retire time found retiring atTick
    obtain ⟨departs, old, found', rfl⟩ := retires.found found
    exact expires.unticked_retired past found' retiring atTick

section Changes

variable {ticked : Option Instant} {entries : List (Entry crypto)} {keys : KeyManager crypto}
  {now : Instant}

/-- Whoever isn't retired when the peers are replaced is still trusted, under the same identity
key. -/
theorem Expires.trusting (expires : keys.Expires ticked entries)
    (room : RoomId) (peers : List Peer) (clock : Clock)
    (past : ∀ time, ticked = some time → time ≤ clock.now) :
    (keys.trusting room peers clock).Expires ticked entries := by
  have there : (keys.trusting room peers clock).room = keys.room :=
    congrArg Standing.room (keys.standing_trusting room peers clock)
  refine expires.retires past (keys.retires_trusting room peers clock) there ?_
  intro key received place entry found none _ last trusts
  obtain ⟨-, -, sender, -⟩ := Entry.last_spec last
  rw [lookup_trusting] at found
  obtain ⟨old, -, rfl⟩ := Option.map_eq_some_iff.mp found
  rw [retireAt_retired, Option.or_eq_none_iff] at none
  have stays : keys.departs (keys.trustOf room peers clock.unixNow).trusted key.1 = false := by
    by_contra departs
    rw [Bool.not_eq_false] at departs
    rw [departs] at none
    cases none.2
  obtain ⟨peer, known, identity⟩ := trusts_iff.mp trusts
  rw [← sender, stays_iff known] at stays
  obtain ⟨new, still, same⟩ := stays
  exact trusts_iff.mpr ⟨new, still, same.trans identity⟩

theorem Expires.wrapForNewPeers (expires : keys.Expires ticked entries) (room : RoomId)
    (spares : keys.SparesSenders room) : (keys.wrapForNewPeers room).2.Expires ticked entries := by
  cases held : keys.mySecret with
  | none =>
    unfold KeyManager.wrapForNewPeers
    rw [held]
    exact expires
  | some secret =>
    have received : (keys.wrapForNewPeers room).2.received = keys.received := by
      unfold KeyManager.wrapForNewPeers
      split <;> rfl
    have there : (keys.wrapForNewPeers room).2.room = keys.room :=
      congrArg Standing.room (keys.standing_wrapForNewPeers room)
    refine ⟨fun key kept place entry found none inRoom last => ?_,
      fun key kept place entry time found inRoom last => ?_,
      fun key kept retire time found => ?_⟩
    · rw [received] at found
      rw [there] at inRoom
      have trusts := expires.trusted key kept place entry found none inRoom last
      obtain ⟨-, -, sender, -⟩ := Entry.last_spec last
      obtain ⟨peer, known, identity⟩ := trusts_iff.mp trusts
      refine trusts_iff.mpr ⟨peer, ?_, identity⟩
      rw [lookup_peers_wrapForNewPeers _ _ secret held]
      refine ⟨known, fun refused => ?_⟩
      have retires := spares secret held _ (List.mem_filter.mpr
        ⟨refused.1, Option.isNone_iff_eq_none.mpr refused.2⟩) key.2 kept (by rw [sender]; exact found)
      rw [none] at retires
      cases retires
    · rw [received] at found
      rw [there] at inRoom
      exact expires.lapsed key kept place entry time found inRoom last
    · rw [received] at found
      exact expires.unticked key kept retire time found

variable (entries) in
/-- A secret held after another is stored is that one, entered last, or was held before. -/
theorem store_cases {acceptance : Acceptance crypto} {retireAt : Option Instant}
    {key : UserId × Epoch} {received : Received crypto}
    (found : (keys.store acceptance.room acceptance.sender acceptance.epoch
      { secret := acceptance.secret, retireAt } now).received.lookup key = some received) :
    key = (acceptance.sender, acceptance.epoch) ∧ received = { secret := acceptance.secret, retireAt } ∧
      Entry.last (entries ++ [Entry.new acceptance]) acceptance.room key.1 key.2 =
        some (Entry.new acceptance) ∨
    ∃ departs old, keys.received.lookup key = some old ∧ received = retired now departs old ∧
      ∀ room, Entry.last (entries ++ [Entry.new acceptance]) room key.1 key.2 =
        Entry.last entries room key.1 key.2 := by
  rw [lookup_store] at found
  split at found
  · rename_i same
    cases found
    refine Or.inl ⟨same, rfl, ?_⟩
    rw [Entry.last_concat, same]
    exact if_pos ⟨rfl, rfl, rfl⟩
  · rename_i other
    obtain ⟨old, there, rfl⟩ := Option.map_eq_some_iff.mp found
    refine Or.inr ⟨_, old, there, rfl, fun room => ?_⟩
    rw [Entry.last_concat]
    refine if_neg ?_
    rintro ⟨-, sameSender, sameEpoch⟩
    exact other (Prod.ext sameSender.symm sameEpoch.symm)

theorem Expires.store (expires : keys.Expires ticked entries)
    (past : ∀ time, ticked = some time → time ≤ now) {acceptance : Acceptance crypto}
    {retireAt : Option Instant} (admits : keys.Admits acceptance retireAt now) :
    (keys.store acceptance.room acceptance.sender acceptance.epoch
      { secret := acceptance.secret, retireAt } now).Expires ticked
        (entries ++ [Entry.new acceptance]) := by
  have inRoom := admits.inRoom
  have place : ∀ room, keys.room = some room → room = acceptance.room := by
    intro room there
    rw [inRoom] at there
    exact (Option.some_inj.mp there).symm
  constructor
  · intro key received room entry found none there last
    have there : keys.room = some room := there
    rw [place room there] at last there
    rcases store_cases entries found with ⟨-, -, new⟩ | ⟨departs, old, found', rfl, same⟩
    · rw [new, Option.some_inj] at last
      obtain ⟨peer, wrapped, known, identity, -⟩ := admits.trusted
      exact last ▸ trusts_iff.mpr ⟨peer, known, identity⟩
    · rw [retireAt_retired, Option.or_eq_none_iff] at none
      rw [same] at last
      exact expires.trusted key old _ entry found' none.1 there last
  · intro key received room entry time found there last lapsed
    have there : keys.room = some room := there
    rw [place room there] at last there
    rcases store_cases entries found with ⟨-, -, new⟩ | ⟨departs, old, found', rfl, same⟩
    · rw [new, Option.some_inj] at last
      rw [← last] at lapsed
      cases lapsed
    · rw [same] at last
      exact expires.lapsed_retired found' there last lapsed now departs
  · intro key received retire time found retiring atTick
    rcases store_cases entries found with ⟨-, rfl, -⟩ | ⟨departs, old, found', rfl, -⟩
    · have retiring : retireAt = some retire := retiring
      rw [admits.retires] at retiring
      split at retiring
      · rename_i earlier
        cases retiring
        exact (past time atTick).trans_lt (admits.inTime earlier)
      · cases retiring
    · exact expires.unticked_retired past found' retiring atTick

theorem Expires.tick (expires : keys.Expires ticked entries) (now : Instant) :
    (keys.tick now).Expires ticked entries := by
  have before : ∀ key received, (keys.tick now).received.lookup key = some received →
      keys.received.lookup key = some received := by
    intro key received found
    have found : (keys.received.retain _).lookup key = some received := found
    rw [Map.lookup_retain, Option.filter_eq_some_iff] at found
    exact found.1
  exact ⟨fun key received room entry found => expires.trusted key received room entry
      (before key received found),
    fun key received room entry time found => expires.lapsed key received room entry time
      (before key received found),
    fun key received retire time found => expires.unticked key received retire time
      (before key received found)⟩

theorem Expires.takePlace (expires : keys.Expires ticked entries) (room : Option RoomId)
    (tracks : Option Tracks) :
    ((keys.changeRoom room).takePlace room tracks).Expires ticked entries := by
  unfold changeRoom
  split
  · exact ⟨fun _ _ _ _ found => (by cases found), fun _ _ _ _ _ found => (by cases found),
      fun _ _ _ _ found => (by cases found)⟩
  · rename_i same
    rw [not_not] at same
    subst same
    exact ⟨expires.trusted, expires.lapsed, expires.unticked⟩

theorem Change.expires {before after : KeyManager crypto} {acceptance : Option (Acceptance crypto)}
    (change : Change now SparesSenders before acceptance after)
    (expires : before.Expires ticked entries) (past : ∀ time, ticked = some time → time ≤ now) :
    after.Expires ticked (entries ++ acceptance.toList.map Entry.new) := by
  have quiet : ∀ keys : KeyManager crypto, keys.Expires ticked entries →
      keys.Expires ticked (entries ++ (none : Option (Acceptance crypto)).toList.map Entry.new) := by
    intro keys held
    rwa [Option.toList_none, List.map_nil, List.append_nil]
  have same : before.Expires ticked entries := expires
  obtain ⟨trusted, lapsed, unticked⟩ := same
  cases change with
  | store acceptance retireAt admits => exact expires.store past admits
  | trust room peers clock atNow there =>
    exact quiet _ (expires.trusting room peers clock (atNow ▸ past))
  | moveTo epoch =>
    refine quiet _ (expires.retires past (before.retires_moveTo epoch now) ?_ ?_)
    · exact (apply_ite KeyManager.room _ _ _).trans (ite_self _)
    · intro key received room entry _ _ _ _ trusts
      have peers : (before.moveTo epoch now).peers = before.peers :=
        (apply_ite KeyManager.peers _ _ _).trans (ite_self _)
      unfold KeyManager.trusts at trusts ⊢
      rw [peers]
      exact trusts
  | wrap room there spares => exact quiet _ (expires.wrapForNewPeers room spares)
  | holdEarly sender epoch wrapped arrived =>
    refine quiet _ ?_
    unfold KeyManager.holdEarly
    split
    · exact ⟨trusted, lapsed, unticked⟩
    · exact expires
  | takePlace room tracks => exact quiet _ (expires.takePlace room tracks)
  | recvKey id epoch =>
    obtain ⟨recvKeys, same⟩ := before.recvKey_cache id epoch
    rw [same]
    exact quiet _ ⟨trusted, lapsed, unticked⟩
  | tick => exact quiet _ (expires.tick now)
  | newSecret => exact quiet _ ⟨trusted, lapsed, unticked⟩
  | takeEarly => exact quiet _ ⟨trusted, lapsed, unticked⟩
  | advance => exact quiet _ ⟨trusted, lapsed, unticked⟩
  | stash => exact quiet _ ⟨trusted, lapsed, unticked⟩
  | present => exact quiet _ ⟨trusted, lapsed, unticked⟩
  | replaceEncryption => exact quiet _ ⟨trusted, lapsed, unticked⟩

/-- Whoever is trusted no more now leaves nothing without a retirement time. -/
theorem Expires.note (expires : keys.Expires ticked entries) (timely : keys.Timely now) :
    keys.Expires ticked (entries.map (Entry.note now keys)) := by
  have noted : ∀ {room : RoomId} {key : UserId × Epoch} {entry : Entry crypto},
      Entry.last (entries.map (Entry.note now keys)) room key.1 key.2 = some entry →
      ∃ old, Entry.last entries room key.1 key.2 = some old ∧ entry = old.note now keys := by
    intro room key entry last
    rw [Entry.last_note] at last
    obtain ⟨old, there, same⟩ := Option.map_eq_some_iff.mp last
    exact ⟨old, there, same.symm⟩
  refine ⟨fun key received room entry found none there last => ?_,
    fun key received room entry time found there last lapsed => ?_, expires.unticked⟩
  · obtain ⟨old, last', rfl⟩ := noted last
    rw [Entry.acceptance_note]
    exact expires.trusted key received room old found none there last'
  · obtain ⟨old, last', rfl⟩ := noted last
    unfold Entry.note at lapsed
    split at lapsed
    · rename_i departs
      cases lapsed
      cases retiring : received.retireAt with
      | none => exact absurd (expires.trusted key received room old found retiring there last') departs.2
      | some retire => exact ⟨retire, rfl, timely.bounded key received retire found retiring⟩
    · exact expires.lapsed key received room old time found there last' lapsed

end Changes

end KeyManager

/-! ### Runs -/

namespace Register

variable {crypto : Crypto}

open KeyManager

/-- In every room state the operation applies, HPKE refuses nobody whose secret is held then
without a retirement time. -/
def Spares (register : Register crypto) (input : Clock × KeyOp crypto) : Prop :=
  ∀ stage ∈ register.keys.stages input.1 input.2, ∀ keyed room,
    stage.wrapping = some (keyed, room) → keyed.SparesSenders room

/-- Whoever isn't entered as gone is trusted, under the identity key they had. -/
def Noted (entries : List (Entry crypto)) (keys : KeyManager crypto) : Prop :=
  ∀ entry ∈ entries, entry.lapsed = none → keys.trusts entry.acceptance = true

theorem noted_note (now : Instant) (entries : List (Entry crypto)) (keys : KeyManager crypto) :
    Noted (entries.map (Entry.note now keys)) keys := by
  intro entry member stays
  obtain ⟨old, -, rfl⟩ := List.mem_map.mp member
  rw [Entry.acceptance_note]
  unfold Entry.note at stays
  split at stays
  · cases stays
  · rename_i here
    by_contra gone
    exact here ⟨Option.isNone_iff_eq_none.mpr stays, gone⟩

theorem Noted.stages {now : Instant} {stages : List (Stage crypto)}
    {before after : KeyManager crypto} (leads : Leads now stages before after)
    {entries : List (Entry crypto)} (noted : Noted entries before) :
    Noted (stages.foldl (enter now) entries) after := by
  induction stages generalizing before entries with
  | nil => exact leads ▸ noted
  | cons stage rest inductionHypothesis =>
    exact inductionHypothesis leads.2 (noted_note now _ stage.after)

/-- The invariant of runs in which HPKE spares those whose secrets we hold. -/
structure Expiring (register : Register crypto) : Prop where
  noted : Noted register.entries register.keys
  traces : Traces register.now register.entries register.keys
  expires : register.keys.Expires register.ticked register.entries
  past : ∀ time, register.ticked = some time → time ≤ register.now

theorem Expiring.step {register : Register crypto} (expiring : register.Expiring)
    {input : Clock × KeyOp crypto} (inOrder : register.InOrder input)
    (spares : register.Spares input) : (register.step input).Expiring := by
  have past : ∀ time, register.ticked = some time → time ≤ input.1.now := fun time atTick =>
    (expiring.past time atTick).trans inOrder
  have kept := stages_keep SparesSenders
    (fun entries keys => Traces input.1.now entries keys ∧ keys.Expires register.ticked entries)
    (fun _ _ _ _ change held => ⟨held.1.change change, change.expires held.2 past⟩)
    (fun _ _ held => ⟨held.1.note input.1.now, held.2.note held.1.timely⟩)
    (register.keys.perform_leads input.1 input.2) spares
    ⟨expiring.traces.mono inOrder, expiring.expires⟩
  have noted := expiring.noted.stages (register.keys.perform_leads input.1 input.2)
  obtain ⟨clock, op⟩ := input
  cases op with
  | tick =>
    refine ⟨noted, kept.1, { kept.2 with unticked := ?_ }, fun time atTick => ?_⟩
    · intro key received retire time found retiring atTick
      have found : (register.keys.received.retain _).lookup key = some received := found
      rw [Map.lookup_retain, Option.filter_eq_some_iff, retiring, Option.all_some,
        decide_eq_true_eq] at found
      have atTick : some clock.now = some time := atTick
      cases atTick
      exact found.2
    · have atTick : some clock.now = some time := atTick
      cases atTick
      exact le_rfl
  | _ => exact ⟨noted, kept.1, kept.2, past⟩

/-- In every run in which HPKE refuses nobody whose secret is held without a retirement time,
whatever the server sends at times that don't run back: whoever isn't entered as gone is a
trusted peer under the identity key they had; the secret held of someone gone is retired within
the grace period from then on; and no key returned to open media with comes from a secret whose
sender had been gone for the grace period at the last tick. -/
theorem run_departed (me : UserId) (encryption : crypto.KeyPair) (server : Fingerprint)
    (floors : EpochFloors) (now : Instant) (drawn : Nat) (inputs : List (Clock × KeyOp crypto))
    (spares : Along step (fun register input => register.InOrder input ∧ register.Spares input)
      (start (.new me encryption server floors now drawn) now) inputs) :
    let after : Register crypto :=
      run step (start (.new me encryption server floors now drawn) now) inputs
    let keys := after.keys
    (∀ entry ∈ after.entries, entry.lapsed = none → keys.trusts entry.acceptance = true) ∧
    (∀ sender epoch received, keys.received.lookup (sender, epoch) = some received →
      ∃ room entry, keys.room = some room ∧
        Entry.last after.entries room sender epoch = some entry ∧
        entry.acceptance.secret = received.secret ∧
        ∀ time, entry.lapsed = some time → ∃ retire, received.retireAt = some retire ∧
          retire ≤ time + oldKeyGrace) ∧
    ∀ id epoch key, (keys.recvKey id epoch).1 = some key → ∃ room sender entry,
      keys.room = some room ∧ keys.Sends id sender ∧
      Entry.last after.entries room sender epoch = some entry ∧
      key = crypto.derive entry.acceptance.secret id ∧
      ∀ time tick, entry.lapsed = some time → after.ticked = some tick →
        tick < time + oldKeyGrace := by
  intro after keys
  have expiring : after.Expiring := by
    refine spares.invariant Expiring
      ⟨fun _ member => (by cases member), traces_start .., ?_, fun _ atTick => by cases atTick⟩
      fun _ _ expiring held => expiring.step held.1 held.2
    exact ⟨fun _ _ _ _ found => (by cases found), fun _ _ _ _ _ found => (by cases found),
      fun _ _ _ _ found => (by cases found)⟩
  refine ⟨expiring.noted, fun sender epoch received found => ?_, fun id epoch key returned => ?_⟩
  · obtain ⟨room, entry, inRoom, last, secret⟩ := expiring.traces.sources.source _ received found
    exact ⟨room, entry, inRoom, last, secret, fun time lapsed =>
      expiring.expires.lapsed _ received room entry time found inRoom last lapsed⟩
  · obtain ⟨owner, received, owned, held, derived⟩ := expiring.traces.sources.of_recvKey returned
    obtain ⟨room, entry, inRoom, last, secret⟩ := expiring.traces.sources.source _ received held
    refine ⟨room, owner, entry, inRoom, expiring.traces.owning id owner owned, last,
      by rw [secret, derived], fun time tick lapsed atTick => ?_⟩
    obtain ⟨retire, retiring, inTime⟩ :=
      expiring.expires.lapsed _ received room entry time held inRoom last lapsed
    exact (expiring.expires.unticked _ received retire tick held retiring atTick).trans_le inTime

/-! ### A peer that comes back under another identity key -/

/-- User 2 with other keys. -/
def renamed : Peer :=
  { openPeer 2 with
    identityKey := 999
    encryptionKey := { key := 300, notAfter := 1000, sig := 1 } }

/-- User 1 stores a secret of user 2 in room 1. -/
def acquainted : List (Clock × KeyOp openCrypto) :=
  [ (⟨0, 500⟩, .presence 2 (some 1)),
    (⟨1, 500⟩, .placement (some 1) 1 (some (openPeer 1).tracks) [openPeer 1, openPeer 2]),
    (⟨2, 500⟩, .senderKey 2 1 (openSenderKey 2 1 1 5)) ]

/-- User 2 is shown under another identity key, and sends a secret once the first one expired. -/
def replaced : List (Clock × KeyOp openCrypto) :=
  acquainted ++
    [ (⟨fromSecs 10, 500⟩, .peers 1 1 [openPeer 1, renamed]),
      (⟨fromSecs 20, 500⟩, .tick),
      (⟨fromSecs 21, 500⟩, .senderKey 2 1 ((openCrypto.wrap (300 : Nat)
        (openPeer 1).encryptionKey.key
        { server := 7, room := 1, epoch := 1, sender := 2, recipient := 1 } (6 : Nat)).getD [])) ]

/-- HPKE refuses nobody at all in the room states an operation applies. -/
def refusesNobody (register : Register crypto) (input : Clock × KeyOp crypto) : Bool :=
  (register.keys.stages input.1 input.2).all fun stage => stage.wrapping.all fun wrapping =>
    wrapping.1.mySecret.all fun secret => (wrapping.1.refused wrapping.2 secret).isEmpty

theorem spares_of_refusesNobody {register : Register crypto} {input : Clock × KeyOp crypto}
    (nobody : register.refusesNobody input = true) : register.Spares input := by
  intro stage member keyed room named secret held refused listed
  have none := List.all_eq_true.mp nobody stage member
  rw [named, Option.all_some, held, Option.all_some, List.isEmpty_iff] at none
  rw [none] at listed
  cases listed

theorem run_departed_replaced :
    let after := run step (start (.new 1 (200 + 1 : Nat) 7 {} 0 0) 0) replaced
    after.entries.map Entry.lapsed = [some (fromSecs 10), none] ∧
    (after.keys.recvKey 20 1).1 = some (openCrypto.derive (6 : Nat) 20) ∧
    ∃ room sender entry, after.keys.room = some room ∧ after.keys.Sends 20 sender ∧
      Entry.last after.entries room sender 1 = some entry ∧
      openCrypto.derive (6 : Nat) 20 = openCrypto.derive entry.acceptance.secret 20 ∧
      ∀ time tick, entry.lapsed = some time → after.ticked = some tick →
        tick < time + oldKeyGrace := by
  have current : ((run step (start (.new 1 (200 + 1 : Nat) 7 {} 0 0) 0) replaced).keys.recvKey
      20 1).1 = some (openCrypto.derive (6 : Nat) 20) := by decide +kernel
  have meets : Along step (fun register input =>
      register.InOrder input ∧ register.refusesNobody input = true)
      (start (.new 1 (200 + 1 : Nat) 7 {} 0 0) 0) replaced := by decide +kernel
  exact ⟨by decide +kernel, current, (@run_departed openCrypto 1 (200 + 1 : Nat) 7 {} 0 0 replaced
    (meets.mono fun _ _ held => ⟨held.1, spares_of_refusesNobody held.2⟩)).2.2 20 1 _ current⟩

/-- User 2 is listed with an encryption key HPKE refuses, and then under another identity key. -/
def refusedThenReplaced : List (Clock × KeyOp openCrypto) :=
  acquainted ++
    [ (⟨fromSecs 10, 500⟩, .peers 1 1 [openPeer 1, { openPeer 2 with
        encryptionKey := { key := 0, notAfter := 1000, sig := 1 } }]),
      (⟨fromSecs 20, 500⟩, .peers 1 1 [openPeer 1, renamed]),
      (⟨fromSecs 30, 500⟩, .tick) ]

/-- The secret stored before never gets a retirement time, and media sent under user 2's other
identity key is opened with a key derived from it. -/
theorem refused_never_retired :
    let after := run step (start (.new 1 (200 + 1 : Nat) 7 {} 0 0) 0) refusedThenReplaced
    after.entries.map (fun entry => (entry.acceptance.sender, entry.acceptance.epoch,
      entry.lapsed)) = [(2, 1, some (fromSecs 10))] ∧
    after.entries.map (fun entry => openCrypto.derive entry.acceptance.secret 20) =
      [openCrypto.derive (5 : Nat) 20] ∧
    after.ticked = some (fromSecs 30) ∧ fromSecs 10 + oldKeyGrace ≤ fromSecs 30 ∧
    (after.keys.received.lookup (2, 1)).map Received.retireAt = some none ∧
    (after.keys.peers.lookup 2).map KeyPeer.identityKey = some 999 ∧
    (after.keys.recvKey 20 1).1 = some (openCrypto.derive (5 : Nat) 20) := by
  decide +kernel

end Register

end Throcc
