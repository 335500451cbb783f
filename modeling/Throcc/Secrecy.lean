/-
This file proves whom a client's sender secret reaches. Whatever the server
sends and in whatever order, the peers our current secret was ever wrapped to
are the peers trusted now, under the encryption keys they have now, and nothing
is sent under a key of another secret.

The invariant is `Sealing`: it ties the current secret to every wrap on record.
Re-keying draws a secret no record names, so the invariant survives it, and
`wrapForNewPeers` closes the gap between the peers wrapped to and the peers
trusted. `Trusting` says what a trusted peer is: listed by the last room state,
shown in the room, vouched for by a signature.
-/

import Throcc.Run
import Throcc.Standing

namespace Throcc

namespace KeyManager

variable {crypto : Crypto}

/-! ### Wrapping to the peers that lack our secret -/

theorem mem_peerSet (peers : Map UserId KeyPeer) (user : UserId) (key : PublicKey) :
    (user, key) ∈ peerSet peers ↔
      ∃ peer, peers.lookup user = some peer ∧ peer.encryptionKey = key := by
  unfold peerSet
  rw [List.mem_toFinset, List.mem_map]
  constructor
  · rintro ⟨⟨other, peer⟩, member, same⟩
    cases same
    exact ⟨peer, (Map.mem_toList _ _ _).mp member, rfl⟩
  · rintro ⟨peer, found, rfl⟩
    exact ⟨(user, peer), (Map.mem_toList _ _ _).mpr found, rfl⟩

theorem mem_lacking (keys : KeyManager crypto) (user : UserId) (peer : KeyPeer) :
    (user, peer) ∈ keys.lacking ↔
      keys.peers.lookup user = some peer ∧ (user, peer.encryptionKey) ∉ keys.wrappedTo := by
  unfold lacking
  rw [List.mem_filter, Map.mem_toList, decide_eq_true_iff]

theorem mem_newWraps (keys : KeyManager crypto) (room : RoomId) (secret : crypto.Secret)
    (wrap : Wrap crypto) :
    wrap ∈ keys.newWraps room secret ↔
      ∃ peer, (wrap.user, peer) ∈ keys.lacking ∧ wrap.encryptionKey = peer.encryptionKey ∧
        wrap.context = keys.context room keys.epoch keys.me wrap.user ∧ wrap.secret = secret ∧
        keys.wrapTo room secret (wrap.user, peer) = some wrap.blob := by
  unfold newWraps
  rw [List.mem_filterMap]
  constructor
  · rintro ⟨⟨user, peer⟩, member, made⟩
    obtain ⟨blob, wrapped, rfl⟩ := Option.map_eq_some_iff.mp made
    exact ⟨peer, member, rfl, rfl, rfl, wrapped⟩
  · rintro ⟨peer, member, sameKey, sameContext, sameSecret, wrapped⟩
    refine ⟨(wrap.user, peer), member, ?_⟩
    rw [wrapped, Option.map_some, ← sameKey, ← sameContext, ← sameSecret]

theorem mem_refused (keys : KeyManager crypto) (room : RoomId) (secret : crypto.Secret)
    (user : UserId) :
    user ∈ (keys.refused room secret).map Prod.fst ↔
      ∃ peer, (user, peer) ∈ keys.lacking ∧ keys.wrapTo room secret (user, peer) = none := by
  unfold refused
  rw [List.mem_map]
  constructor
  · rintro ⟨⟨other, peer⟩, member, rfl⟩
    rw [List.mem_filter, Option.isNone_iff_eq_none] at member
    exact ⟨peer, member⟩
  · rintro ⟨peer, member, none⟩
    exact ⟨(user, peer), List.mem_filter.mpr ⟨member, Option.isNone_iff_eq_none.mpr none⟩, rfl⟩

/-- The peers left after wrapping are those not just refused. -/
theorem lookup_peers_wrapForNewPeers (keys : KeyManager crypto) (room : RoomId)
    (secret : crypto.Secret) (held : keys.mySecret = some secret) (user : UserId)
    (peer : KeyPeer) :
    (keys.wrapForNewPeers room).2.peers.lookup user = some peer ↔
      keys.peers.lookup user = some peer ∧
        ¬ ((user, peer) ∈ keys.lacking ∧ keys.wrapTo room secret (user, peer) = none) := by
  unfold wrapForNewPeers
  rw [held]
  dsimp only
  rw [Map.lookup_retain, Option.filter_eq_some_iff, Bool.not_eq_true', decide_eq_false_iff_not,
    mem_refused]
  refine and_congr_right fun found => not_congr ⟨?_, fun refused => ⟨peer, refused⟩⟩
  rintro ⟨other, lacks, none⟩
  have same : other = peer := by
    have there := ((keys.mem_lacking user other).mp lacks).1
    rw [found] at there
    exact (Option.some.inj there).symm
  rw [← same]
  exact ⟨lacks, none⟩

/-- Wrapping adds the peers that lacked our secret and took it. -/
theorem mem_wrappedTo_wrapForNewPeers (keys : KeyManager crypto) (room : RoomId)
    (secret : crypto.Secret) (held : keys.mySecret = some secret) (user : UserId)
    (key : PublicKey) :
    (user, key) ∈ (keys.wrapForNewPeers room).2.wrappedTo ↔
      (user, key) ∈ keys.wrappedTo ∨
        ∃ wrap ∈ keys.newWraps room secret, wrap.user = user ∧ wrap.encryptionKey = key := by
  have left := keys.lookup_peers_wrapForNewPeers room secret held
  unfold wrapForNewPeers at left ⊢
  rw [held] at left ⊢
  dsimp only at left ⊢
  rw [Finset.mem_union, List.mem_toFinset, List.mem_filterMap]
  refine or_congr_right ⟨?_, ?_⟩
  · rintro ⟨wrap, member, found⟩
    obtain ⟨peer, there, same⟩ := Option.map_eq_some_iff.mp found
    cases same
    refine ⟨wrap, member, rfl, ?_⟩
    obtain ⟨other, lacks, sameKey, -⟩ := (keys.mem_newWraps room secret wrap).mp member
    have before := ((left _ _).mp there).1
    rw [((keys.mem_lacking _ _).mp lacks).1] at before
    rw [sameKey, Option.some.inj before]
  · rintro ⟨wrap, member, rfl, rfl⟩
    obtain ⟨peer, lacks, sameKey, -, -, wrapped⟩ := (keys.mem_newWraps room secret wrap).mp member
    refine ⟨wrap, member, Option.map_eq_some_iff.mpr ⟨peer, (left _ _).mpr ⟨?_, ?_⟩, ?_⟩⟩
    · exact ((keys.mem_lacking _ _).mp lacks).1
    · rintro ⟨_, none⟩
      rw [none] at wrapped
      cases wrapped
    · rw [sameKey]

/-- After wrapping, the peers wrapped to are the peers trusted, provided nobody else was
wrapped to before. -/
theorem wrappedTo_wrapForNewPeers (keys : KeyManager crypto) (room : RoomId)
    (holding : keys.mySecret.isSome) (within : keys.wrappedTo ⊆ peerSet keys.peers) :
    (keys.wrapForNewPeers room).2.wrappedTo = peerSet (keys.wrapForNewPeers room).2.peers := by
  obtain ⟨secret, held⟩ := Option.isSome_iff_exists.mp holding
  ext ⟨user, key⟩
  rw [keys.mem_wrappedTo_wrapForNewPeers room secret held, mem_peerSet]
  simp only [keys.lookup_peers_wrapForNewPeers room secret held, mem_newWraps]
  constructor
  · rintro (before | ⟨wrap, ⟨peer, lacks, sameKey, -, -, wrapped⟩, rfl, rfl⟩)
    · obtain ⟨peer, found, rfl⟩ := (mem_peerSet _ _ _).mp (within before)
      exact ⟨peer, ⟨found, fun refused => ((keys.mem_lacking _ _).mp refused.1).2 before⟩, rfl⟩
    · refine ⟨peer, ⟨((keys.mem_lacking _ _).mp lacks).1, ?_⟩, sameKey.symm⟩
      rintro ⟨_, none⟩
      rw [none] at wrapped
      cases wrapped
  · rintro ⟨peer, ⟨found, took⟩, rfl⟩
    by_cases before : (user, peer.encryptionKey) ∈ keys.wrappedTo
    · exact Or.inl before
    · have lacks := (keys.mem_lacking user peer).mpr ⟨found, before⟩
      obtain ⟨blob, wrapped⟩ := Option.ne_none_iff_exists'.mp fun none => took ⟨lacks, none⟩
      exact Or.inr ⟨⟨user, peer.encryptionKey, keys.context room keys.epoch keys.me user, secret, blob⟩,
        ⟨peer, lacks, rfl, rfl, rfl, wrapped⟩, rfl, rfl⟩

/-! ### The current secret and the wraps on record -/

/-- What the record of wraps says of our current secret. -/
structure Sealing (keys : KeyManager crypto) : Prop where
  made : ∀ wrap ∈ keys.wraps, wrap.context.recipient = wrap.user ∧
    ∃ own, crypto.wrap own wrap.encryptionKey wrap.context wrap.secret = some wrap.blob
  drawnBefore : ∀ wrap ∈ keys.wraps, ∃ draw < keys.drawn, wrap.secret = crypto.random draw
  current : ∀ secret, keys.mySecret = some secret →
    ∃ draw < keys.drawn, secret = crypto.random draw
  wrapped : ∀ secret, keys.mySecret = some secret → ∀ user key,
    (user, key) ∈ keys.wrappedTo ↔
      ∃ wrap ∈ keys.wraps, wrap.user = user ∧ wrap.encryptionKey = key ∧ wrap.secret = secret
  placed : ∀ secret, keys.mySecret = some secret → ∀ wrap ∈ keys.wraps, wrap.secret = secret →
    ∃ room, keys.room = some room ∧ wrap.context = keys.context room keys.epoch keys.me wrap.user
  derived : ∀ id key, keys.sendKeys.lookup id = some key →
    ∃ secret, keys.mySecret = some secret ∧ key = crypto.derive secret id

/-- A client in a room holds a secret, wrapped to exactly the peers it trusts. -/
def Settled (keys : KeyManager crypto) : Prop :=
  keys.room.isSome → keys.mySecret.isSome ∧ keys.wrappedTo = peerSet keys.peers

/-- Taking a place forgets our secret, so nothing is left to say of it. -/
theorem Sealing.takePlace {keys : KeyManager crypto} (seals : keys.Sealing)
    (room place : Option RoomId) (tracks : Option Tracks) :
    ((keys.changeRoom room).takePlace place tracks).Sealing := by
  have forgets (other : KeyManager crypto) (sameWraps : other.wraps = keys.wraps)
      (sameDrawn : other.drawn = keys.drawn) : (other.takePlace place tracks).Sealing := by
    refine ⟨?_, ?_, nofun, nofun, nofun, fun _ _ found => by cases found⟩
    · show ∀ wrap ∈ other.wraps, _
      rw [sameWraps]
      exact seals.made
    · show ∀ wrap ∈ other.wraps, ∃ draw < other.drawn, _
      rw [sameWraps, sameDrawn]
      exact seals.drawnBefore
  unfold changeRoom
  split
  · exact forgets _ rfl rfl
  · exact forgets _ rfl rfl

theorem mem_sendKeys_newSecret (keys : KeyManager crypto) (id : MediaId) (key : crypto.TrackKey)
    (found : keys.newSecret.sendKeys.lookup id = some key) :
    key = crypto.derive (crypto.random keys.drawn) id := by
  obtain ⟨other, _, same⟩ := List.mem_map.mp (Map.mem_of_lookup_ofList found)
  cases same
  rfl

/-- A secret just drawn is on no record. -/
theorem Sealing.newSecret {keys : KeyManager crypto} (fresh : Function.Injective crypto.random)
    (made : ∀ wrap ∈ keys.wraps, wrap.context.recipient = wrap.user ∧
      ∃ own, crypto.wrap own wrap.encryptionKey wrap.context wrap.secret = some wrap.blob)
    (drawnBefore : ∀ wrap ∈ keys.wraps, ∃ draw < keys.drawn, wrap.secret = crypto.random draw) :
    keys.newSecret.Sealing := by
  have unused : ∀ wrap ∈ keys.wraps, wrap.secret ≠ crypto.random keys.drawn := by
    intro wrap member same
    obtain ⟨draw, before, drawn⟩ := drawnBefore wrap member
    rw [same] at drawn
    exact absurd (fresh drawn) (Nat.ne_of_gt before)
  refine ⟨made, ?_, ?_, ?_, ?_, ?_⟩
  · intro wrap member
    obtain ⟨draw, before, drawn⟩ := drawnBefore wrap member
    exact ⟨draw, Nat.lt_succ_of_lt before, drawn⟩
  · intro secret held
    exact ⟨keys.drawn, Nat.lt_succ_self _, (Option.some.inj held).symm⟩
  · intro secret held user key
    refine iff_of_false (Finset.notMem_empty _) ?_
    rintro ⟨wrap, member, _, _, same⟩
    exact unused wrap member (same.trans (Option.some.inj held).symm)
  · intro secret held wrap member same
    exact absurd (same.trans (Option.some.inj held).symm) (unused wrap member)
  · intro id key found
    exact ⟨_, rfl, keys.mem_sendKeys_newSecret id key found⟩

theorem moveTo_secret (keys : KeyManager crypto) (epoch : Epoch) (now : Instant) :
    (keys.moveTo epoch now).wraps = keys.wraps ∧ (keys.moveTo epoch now).drawn = keys.drawn ∧
      (keys.moveTo epoch now).peers = keys.peers := by
  unfold moveTo
  split <;> exact ⟨rfl, rfl, rfl⟩

/-- Re-keying keeps the record straight and leaves a secret wrapped to trusted peers only. -/
theorem Sealing.rekey {keys : KeyManager crypto} (fresh : Function.Injective crypto.random)
    (seals : keys.Sealing) (epoch : Epoch) (now : Instant) :
    (keys.rekey epoch now).Sealing ∧ (keys.rekey epoch now).mySecret.isSome ∧
      (keys.rekey epoch now).wrappedTo ⊆ peerSet (keys.rekey epoch now).peers := by
  unfold KeyManager.rekey
  split
  · obtain ⟨sameWraps, sameDrawn, -⟩ := keys.moveTo_secret epoch now
    refine ⟨Sealing.newSecret fresh ?_ ?_, rfl, Finset.empty_subset _⟩
    · rw [sameWraps]
      exact seals.made
    · rw [sameWraps, sameDrawn]
      exact seals.drawnBefore
  · rename_i keep
    rw [not_or, not_or, not_not, Option.isNone_iff_eq_none, ← ne_eq,
      Option.ne_none_iff_isSome] at keep
    exact ⟨seals, keep.2.1, (not_not.mp keep.2.2).ge⟩

theorem Sealing.wrapForNewPeers {keys : KeyManager crypto} (seals : keys.Sealing) (room : RoomId)
    (there : keys.room = some room) : (keys.wrapForNewPeers room).2.Sealing := by
  cases held : keys.mySecret with
  | none =>
    have same : (keys.wrapForNewPeers room).2 = keys := by
      unfold KeyManager.wrapForNewPeers
      rw [held]
    rw [same]
    exact seals
  | some secret =>
    have wrappedTo := keys.mem_wrappedTo_wrapForNewPeers room secret held
    obtain ⟨draw, before, drawn⟩ := seals.current secret held
    have onRecord : (keys.wrapForNewPeers room).2.wraps =
        keys.wraps ++ keys.newWraps room secret := by
      unfold KeyManager.wrapForNewPeers
      rw [held]
    have others : (keys.wrapForNewPeers room).2.drawn = keys.drawn ∧
        (keys.wrapForNewPeers room).2.mySecret = some secret ∧
        (keys.wrapForNewPeers room).2.sendKeys = keys.sendKeys := by
      unfold KeyManager.wrapForNewPeers
      rw [held]
      exact ⟨rfl, rfl, rfl⟩
    have standing := keys.standing_wrapForNewPeers room
    have sameContext (user : UserId) :
        (keys.wrapForNewPeers room).2.context room (keys.wrapForNewPeers room).2.epoch
          (keys.wrapForNewPeers room).2.me user = keys.context room keys.epoch keys.me user := by
      show WrapContext.mk (keys.wrapForNewPeers room).2.standing.server room
        (keys.wrapForNewPeers room).2.standing.epoch (keys.wrapForNewPeers room).2.standing.me
        user = _
      rw [standing]
      rfl
    have stillThere : (keys.wrapForNewPeers room).2.room = some room :=
      (congrArg Standing.room standing).trans there
    constructor
    · intro wrap member
      rw [onRecord, List.mem_append, mem_newWraps] at member
      rcases member with old | ⟨_, _, sameKey, context, same, wrapped⟩
      · exact seals.made wrap old
      · rw [sameKey, context, same]
        exact ⟨rfl, keys.encryption, wrapped⟩
    · intro wrap member
      rw [onRecord, List.mem_append, mem_newWraps] at member
      rw [others.1]
      rcases member with old | ⟨_, _, _, _, same, _⟩
      · exact seals.drawnBefore wrap old
      · exact ⟨draw, before, same.trans drawn⟩
    · intro other same
      rw [others.2.1] at same
      cases same
      rw [others.1]
      exact ⟨draw, before, drawn⟩
    · intro other same user key
      rw [others.2.1] at same
      cases same
      rw [wrappedTo, seals.wrapped secret held, onRecord]
      constructor
      · rintro (⟨wrap, member, found⟩ | ⟨wrap, member, found⟩)
        · exact ⟨wrap, List.mem_append_left _ member, found⟩
        · obtain ⟨_, _, _, _, same, _⟩ := (keys.mem_newWraps room secret wrap).mp member
          exact ⟨wrap, List.mem_append_right _ member, found.1, found.2, same⟩
      · rintro ⟨wrap, member, sameUser, sameKey, same⟩
        rcases List.mem_append.mp member with old | new
        · exact Or.inl ⟨wrap, old, sameUser, sameKey, same⟩
        · exact Or.inr ⟨wrap, new, sameUser, sameKey⟩
    · intro other same wrap member named
      rw [others.2.1] at same
      cases same
      refine ⟨room, stillThere, ?_⟩
      rw [sameContext]
      rw [onRecord, List.mem_append, mem_newWraps] at member
      rcases member with old | ⟨_, _, _, context, _⟩
      · obtain ⟨other, inRoom, context⟩ := seals.placed secret held wrap old named
        rw [there] at inRoom
        cases inRoom
        exact context
      · exact context
    · intro id key found
      rw [others.2.2] at found
      rw [others.2.1]
      obtain ⟨other, same, derived⟩ := seals.derived id key found
      rw [held] at same
      exact ⟨other, same, derived⟩

/-! ### Requests and the record of wraps -/

/-- What a request seals: the epoch, the recipient and the sealed secret of every entry. -/
def sealedBy : Request → List (Epoch × UserId × List UInt8)
  | .publishSenderKey epoch wrapped => wrapped.map fun entry => (epoch, entry.1, entry.2)
  | _ => []

/-- What the record of wraps holds of what was sealed. -/
def onRecord (keys : KeyManager crypto) : List (Epoch × UserId × List UInt8) :=
  keys.wraps.map fun wrap => (wrap.context.epoch, wrap.user, wrap.blob)

theorem onRecord_wrapForNewPeers (keys : KeyManager crypto) (room : RoomId) :
    (keys.wrapForNewPeers room).2.onRecord =
      keys.onRecord ++ (keys.wrapForNewPeers room).1.1.toList.flatMap sealedBy := by
  unfold wrapForNewPeers
  cases keys.mySecret with
  | none => exact (List.append_nil _).symm
  | some secret =>
    have sameEpoch : ∀ wrap ∈ keys.newWraps room secret, wrap.context.epoch = keys.epoch := by
      intro wrap member
      obtain ⟨_, _, _, context, _⟩ := (keys.mem_newWraps room secret wrap).mp member
      rw [context]
      rfl
    dsimp only [onRecord]
    rw [List.map_append]
    refine congrArg _ ?_
    split
    · rename_i nothing
      rw [List.isEmpty_iff.mp nothing]
      rfl
    · simp only [Option.toList_some, List.flatMap_cons, List.flatMap_nil, List.append_nil, sealedBy,
        List.map_map]
      exact List.map_congr_left fun wrap member =>
        congrArg (·, wrap.user, wrap.blob) (sameEpoch wrap member)

theorem onRecord_rekey (keys : KeyManager crypto) (epoch : Epoch) (now : Instant) :
    (keys.rekey epoch now).onRecord = keys.onRecord := by
  unfold rekey
  split
  · exact congrArg (List.map _) (keys.moveTo_secret epoch now).1
  · rfl

/-! ### Who is trusted -/

/-- The signatures on record are what verifying them again would find. -/
def Checked (keys : KeyManager crypto) : Prop :=
  ∀ peer : Peer, ∀ holds,
    keys.checkedSignatures.lookup peer.user = some (peer.identityKey, peer.encryptionKey, holds) →
      holds = vouched crypto keys.server peer

theorem Checked.signedByIdentity {keys : KeyManager crypto} (checked : keys.Checked)
    (peer : Peer) :
    (keys.signedByIdentity peer).1 = vouched crypto keys.server peer ∧
      (keys.signedByIdentity peer).2.Checked := by
  have recorded : ({ keys with
      checkedSignatures := keys.checkedSignatures.insert peer.user
        (peer.identityKey, peer.encryptionKey, vouched crypto keys.server peer) } :
      KeyManager crypto).Checked := by
    intro other holds found
    dsimp only at found
    rw [Map.lookup_insert_ite] at found
    split at found
    · rename_i same
      simp only [Option.some.injEq, Prod.mk.injEq] at found
      rw [← found.2.2]
      unfold vouched
      rw [same, found.1, found.2.1]
    · exact checked other holds found
  unfold KeyManager.signedByIdentity
  split
  · rename_i identityKey encryptionKey held found
    dsimp only
    split
    · rename_i same
      rw [same.1, same.2] at found
      exact ⟨checked peer held found, checked⟩
    · exact ⟨rfl, recorded⟩
  · exact ⟨rfl, recorded⟩

/-- Why the loop of `trustedPeers` trusts a peer. -/
def Vouched (crypto : Crypto) (server : Fingerprint) (unixNow : Nat) (peer : Peer)
    (user : UserId) (trusted : KeyPeer) : Prop :=
  peer.user = user ∧ keyPeer peer = trusted ∧ unixNow < peer.encryptionKey.notAfter ∧
    vouched crypto server peer

theorem trustPeer_spec (unixNow : Nat) (sofar : Trusting crypto) (checked : sofar.keys.Checked)
    (peer : Peer) :
    (trustPeer unixNow sofar peer).keys.Checked ∧
      ∀ user trusted, (trustPeer unixNow sofar peer).trusted.lookup user = some trusted →
        sofar.trusted.lookup user = some trusted ∨
          Vouched crypto sofar.keys.server unixNow peer user trusted := by
  obtain ⟨holds, still⟩ := checked.signedByIdentity peer
  unfold trustPeer
  dsimp only
  split
  · exact ⟨checked, fun _ _ found => Or.inl found⟩
  · rename_i current
    split
    · exact ⟨still, fun _ _ found => Or.inl found⟩
    · rename_i signed
      split
      · exact ⟨still, fun _ _ found => Or.inl found⟩
      · refine ⟨still, fun user trusted found => ?_⟩
        dsimp only at found
        rw [Map.lookup_insert_ite] at found
        split at found
        · rename_i same
          cases found
          rw [not_not, holds] at signed
          exact Or.inr ⟨same.symm, rfl, Nat.lt_of_not_le current, signed⟩
        · exact Or.inl found

theorem trustOf_spec (keys : KeyManager crypto) (checked : keys.Checked) (room : RoomId)
    (peers : List Peer) (unixNow : Nat) :
    (keys.trustOf room peers unixNow).keys.Checked ∧
      ∀ user trusted, (keys.trustOf room peers unixNow).trusted.lookup user = some trusted →
        ∃ peer ∈ peers, keys.shows room peer ∧
          Vouched crypto keys.server unixNow peer user trusted := by
  unfold trustOf
  split
  · exact ⟨checked, fun _ _ found => by cases found⟩
  · unfold trustedPeers
    have all : ∀ (shown : List Peer) (sofar : Trusting crypto), sofar.keys.Checked →
        sofar.keys.server = keys.server →
        (shown.foldl (trustPeer unixNow) sofar).keys.Checked ∧
          ∀ user trusted,
            (shown.foldl (trustPeer unixNow) sofar).trusted.lookup user = some trusted →
              sofar.trusted.lookup user = some trusted ∨ ∃ peer ∈ shown,
                Vouched crypto keys.server unixNow peer user trusted := by
      intro shown
      induction shown with
      | nil => exact fun _ checked _ => ⟨checked, fun _ _ found => Or.inl found⟩
      | cons peer rest inductionHypothesis =>
        intro sofar checked sameServer
        rw [List.foldl_cons]
        obtain ⟨turned, spec⟩ := trustPeer_spec unixNow sofar checked peer
        obtain ⟨_, frame⟩ := trustPeer_frame unixNow sofar peer
        have server : (trustPeer unixNow sofar peer).keys.server = keys.server := by
          rw [frame]
          exact sameServer
        refine ⟨(inductionHypothesis _ turned server).1, fun user trusted found => ?_⟩
        rcases (inductionHypothesis _ turned server).2 user trusted found with
          found | ⟨other, member, vouched⟩
        · rcases spec user trusted found with found | vouched
          · exact Or.inl found
          · rw [sameServer] at vouched
            exact Or.inr ⟨peer, List.mem_cons_self, vouched⟩
        · exact Or.inr ⟨other, List.mem_cons_of_mem _ member, vouched⟩
    have start := all (peers.filter (keys.shows room))
      { trusted := ∅
        notices := []
        keys :=
          { keys with
            checkedSignatures := keys.checkedSignatures.retain fun user _ =>
              user ∈ peers.map (·.user)
            unwrappable := keys.unwrappable.retain fun user _ => user ∈ peers.map (·.user) } }
      (fun peer holds found => by
        dsimp only at found
        rw [Map.lookup_retain, Option.filter_eq_some_iff] at found
        exact checked peer holds found.1) rfl
    refine ⟨start.1, fun user trusted found => ?_⟩
    rcases start.2 user trusted found with nothing | ⟨peer, member, vouched⟩
    · cases nothing
    · rw [List.mem_filter] at member
      exact ⟨peer, member.1, member.2, vouched⟩

/-- Every trusted peer is someone else whom the last room state lists, whose presence shows
them in our room, under an encryption key their identity key vouches for. -/
def TrustsListed (keys : KeyManager crypto) : Prop :=
  ∀ user trusted, keys.peers.lookup user = some trusted →
    user ≠ keys.me ∧ keys.room.isSome ∧ keys.present.lookup user = keys.room ∧
      ∃ peer ∈ keys.roomPeers, peer.user = user ∧ keyPeer peer = trusted ∧
        vouched crypto keys.server peer

theorem TrustsListed.of_subset {keys after : KeyManager crypto} (trusts : keys.TrustsListed)
    (within : ∀ user peer, after.peers.lookup user = some peer →
      keys.peers.lookup user = some peer)
    (same : after.standing.withoutEpoch = keys.standing.withoutEpoch) : after.TrustsListed := by
  have sameMe : after.me = keys.me := congrArg Standing.me same
  have sameRoom : after.room = keys.room := congrArg Standing.room same
  have samePresent : after.present = keys.present := congrArg Standing.present same
  have sameRoomPeers : after.roomPeers = keys.roomPeers := congrArg Standing.roomPeers same
  have sameServer : after.server = keys.server := congrArg Standing.server same
  intro user trusted found
  rw [sameMe, sameRoom, samePresent, sameRoomPeers, sameServer]
  exact trusts user trusted (within user trusted found)

theorem Checked.of_eq {keys after : KeyManager crypto} (checked : keys.Checked)
    (same : after.checkedSignatures = keys.checkedSignatures)
    (sameServer : after.server = keys.server) : after.Checked := by
  unfold Checked
  rw [same, sameServer]
  exact checked

/-! ### What every operation keeps -/

/-- The invariant of a key manager's runs. -/
structure Guarded (keys : KeyManager crypto) : Prop where
  sealing : keys.Sealing
  settled : keys.Settled
  checked : keys.Checked
  trusts : keys.TrustsListed

/-- The invariant says nothing of the inbox, our key pair or the stashed room state. -/
theorem Guarded.elsewhere {keys : KeyManager crypto} (guarded : keys.Guarded)
    (inbox : Inbox crypto) (encryption : crypto.KeyPair)
    (retiredEncryption : Option (crypto.KeyPair × Instant))
    (stashed : Option (RoomId × Epoch × List Peer)) :
    ({ keys.withInbox inbox with encryption, retiredEncryption, stashed } :
      KeyManager crypto).Guarded where
  sealing :=
    { made := guarded.sealing.made
      drawnBefore := guarded.sealing.drawnBefore
      current := guarded.sealing.current
      wrapped := guarded.sealing.wrapped
      placed := guarded.sealing.placed
      derived := guarded.sealing.derived }
  settled := guarded.settled
  checked := guarded.checked
  trusts := guarded.trusts

theorem Guarded.withInbox {keys : KeyManager crypto} (guarded : keys.Guarded)
    (inbox : Inbox crypto) : (keys.withInbox inbox).Guarded :=
  guarded.elsewhere inbox keys.encryption keys.retiredEncryption keys.stashed

theorem Guarded.withStashed {keys : KeyManager crypto} (guarded : keys.Guarded)
    (stashed : Option (RoomId × Epoch × List Peer)) :
    ({ keys with stashed } : KeyManager crypto).Guarded :=
  guarded.elsewhere ⟨keys.received, keys.recvKeys, keys.early, keys.generation, keys.stores⟩
    keys.encryption keys.retiredEncryption stashed

theorem withoutEpoch_rekey (keys : KeyManager crypto) (epoch : Epoch) (now : Instant) :
    (keys.rekey epoch now).standing.withoutEpoch = keys.standing.withoutEpoch := by
  rw [standing_rekey, Standing.withoutEpoch_moveTo]

theorem peers_rekey (keys : KeyManager crypto) (epoch : Epoch) (now : Instant) :
    (keys.rekey epoch now).peers = keys.peers ∧
      (keys.rekey epoch now).checkedSignatures = keys.checkedSignatures := by
  unfold rekey startEpoch newSecret moveTo
  split
  · split <;> exact ⟨rfl, rfl⟩
  · exact ⟨rfl, rfl⟩

theorem peers_wrapForNewPeers (keys : KeyManager crypto) (room : RoomId) :
    (∀ user peer, (keys.wrapForNewPeers room).2.peers.lookup user = some peer →
      keys.peers.lookup user = some peer) ∧
      (keys.wrapForNewPeers room).2.checkedSignatures = keys.checkedSignatures ∧
      (keys.wrapForNewPeers room).2.mySecret = keys.mySecret := by
  unfold wrapForNewPeers
  split
  · exact ⟨fun _ _ found => found, rfl, rfl⟩
  · refine ⟨fun user peer found => ?_, rfl, rfl⟩
    dsimp only at found
    rw [Map.lookup_retain, Option.filter_eq_some_iff] at found
    exact found.1

/-- Re-keying and wrapping lead to the invariant from any peers that may be trusted. -/
theorem rekeyed_guarded {keys : KeyManager crypto} (fresh : Function.Injective crypto.random)
    (seals : keys.Sealing) (checked : keys.Checked) (trusts : keys.TrustsListed) (room : RoomId)
    (there : keys.room = some room) (epoch : Epoch) (now : Instant) :
    ((keys.rekey epoch now).wrapForNewPeers room).2.Guarded := by
  obtain ⟨seals, holding, within⟩ := seals.rekey fresh epoch now
  have rest := keys.withoutEpoch_rekey epoch now
  obtain ⟨samePeers, sameChecked⟩ := keys.peers_rekey epoch now
  have checked := checked.of_eq sameChecked (congrArg Standing.server rest)
  have trusts : (keys.rekey epoch now).TrustsListed :=
    trusts.of_subset (fun _ _ found => by rwa [samePeers] at found) rest
  have there : (keys.rekey epoch now).room = some room := (congrArg Standing.room rest).trans there
  generalize keys.rekey epoch now = rekeyed at *
  obtain ⟨fewer, sameChecked, sameSecret⟩ := rekeyed.peers_wrapForNewPeers room
  have same := rekeyed.standing_wrapForNewPeers room
  constructor
  · exact seals.wrapForNewPeers room there
  · intro _
    rw [sameSecret]
    exact ⟨holding, rekeyed.wrappedTo_wrapForNewPeers room holding within⟩
  · exact checked.of_eq sameChecked (congrArg Standing.server same)
  · exact trusts.of_subset fewer (congrArg Standing.withoutEpoch same)

/-- Applying a room state restores the invariant, whatever secret and trust there was before,
and publishes what it puts on record. -/
theorem applyPeers_guarded {keys : KeyManager crypto} (fresh : Function.Injective crypto.random)
    (seals : keys.Sealing) (checked : keys.Checked) (room : RoomId)
    (there : keys.room = some room) (epoch : Epoch) (peers : List Peer) (clock : Clock) :
    (keys.applyPeers room epoch peers clock).2.Guarded ∧
      (keys.applyPeers room epoch peers clock).2.onRecord =
        keys.onRecord ++
          (keys.applyPeers room epoch peers clock).1.1.toList.flatMap sealedBy := by
  obtain ⟨stillChecked, trusts⟩ := keys.trustOf_spec checked room peers clock.unixNow
  obtain ⟨_, _, frame⟩ := keys.trustOf_frame room peers clock.unixNow
  unfold applyPeers
  dsimp only
  generalize keys.trustOf room peers clock.unixNow = trust at stillChecked trusts frame
  obtain ⟨trusted, notices, trusting⟩ := trust
  dsimp only at stillChecked trusts frame ⊢
  -- the new room state and trusted peers, under the old secret
  have before : ({ trusting with roomPeers := peers }.replacePeers trusted clock.now).Sealing := by
    rw [frame]
    exact ⟨seals.made, seals.drawnBefore, seals.current, seals.wrapped, seals.placed,
      seals.derived⟩
  have listed :
      ({ trusting with roomPeers := peers }.replacePeers trusted clock.now).TrustsListed := by
    rw [frame]
    intro user peer found
    obtain ⟨listing, member, shown, sameUser, same, -, vouched⟩ := trusts user peer found
    obtain ⟨someoneElse, present⟩ := of_decide_eq_true shown
    rw [sameUser] at someoneElse present
    refine ⟨someoneElse, ?_, ?_, listing, member, sameUser, same, vouched⟩
    · exact Option.isSome_iff_exists.mpr ⟨room, there⟩
    · exact present.trans there.symm
  have record : ({ trusting with roomPeers := peers }.replacePeers trusted clock.now).onRecord =
      keys.onRecord := by
    rw [frame]
    rfl
  have stillThere :
      ({ trusting with roomPeers := peers }.replacePeers trusted clock.now).room = some room := by
    rw [frame]
    exact there
  have stillChecked :
      ({ trusting with roomPeers := peers }.replacePeers trusted clock.now).Checked := stillChecked
  generalize { trusting with roomPeers := peers }.replacePeers trusted clock.now = replaced at *
  -- re-keying, wrapping and replaying
  have guarded := rekeyed_guarded fresh before stillChecked listed room stillThere epoch clock.now
  have published := (replaced.rekey epoch clock.now).onRecord_wrapForNewPeers room
  rw [onRecord_rekey, record] at published
  generalize (replaced.rekey epoch clock.now).wrapForNewPeers room = wrapped at *
  obtain ⟨⟨request, refused⟩, wrapped⟩ := wrapped
  obtain ⟨inbox, replayed⟩ := wrapped.replayEarly_frame clock.now
  dsimp only at published ⊢
  rw [replayed]
  exact ⟨guarded.withInbox { inbox with generation := inbox.generation + 1 }, published⟩

/-- What an operation keeps of the invariant, and what it publishes. -/
def Publishes (keys after : KeyManager crypto) (requests : List Request) : Prop :=
  after.Guarded ∧ after.onRecord = keys.onRecord ++ requests.flatMap sealedBy

theorem Guarded.publishes_nothing {after : KeyManager crypto} (guarded : after.Guarded)
    {keys : KeyManager crypto} (same : after.wraps = keys.wraps) : keys.Publishes after [] := by
  refine ⟨guarded, ?_⟩
  unfold onRecord
  rw [same, List.flatMap_nil, List.append_nil]

theorem Publishes.trans {first second third : KeyManager crypto} {requests more : List Request}
    (one : first.Publishes second requests) (two : second.Publishes third more) :
    first.Publishes third (requests ++ more) := by
  refine ⟨two.1, ?_⟩
  rw [two.2, one.2, List.flatMap_append, List.append_assoc]

theorem Guarded.peersChanged {keys : KeyManager crypto} (fresh : Function.Injective crypto.random)
    (guarded : keys.Guarded) (room : RoomId) (epoch : Epoch) (peers : List Peer) (clock : Clock) :
    keys.Publishes (keys.peersChanged room epoch peers clock).2
      (keys.peersChanged room epoch peers clock).1.1.toList := by
  unfold KeyManager.peersChanged
  split
  · unfold stash
    split
    · exact (guarded.withStashed _).publishes_nothing rfl
    · exact guarded.publishes_nothing rfl
  · rename_i there
    split
    · exact guarded.publishes_nothing rfl
    · exact applyPeers_guarded fresh guarded.sealing guarded.checked room (not_not.mp there).symm
        epoch peers clock

theorem Guarded.unstash {keys : KeyManager crypto} (fresh : Function.Injective crypto.random)
    (guarded : keys.Guarded) (room : RoomId) (epoch : Epoch) (clock : Clock) :
    keys.Publishes (keys.unstash room epoch clock).2
      (keys.unstash room epoch clock).1.1.toList := by
  have emptied := guarded.withStashed none
  unfold KeyManager.unstash
  split
  · split
    · exact emptied.peersChanged fresh room _ _ clock
    · exact emptied.publishes_nothing rfl
  · exact emptied.publishes_nothing rfl

theorem Checked.takePlace {keys : KeyManager crypto} (checked : keys.Checked)
    (room place : Option RoomId) (tracks : Option Tracks) :
    ((keys.changeRoom room).takePlace place tracks).Checked := by
  unfold changeRoom
  split
  · exact checked
  · exact checked

/-- Outside a room nobody is trusted. -/
theorem TrustsListed.alone {keys : KeyManager crypto} (trusts : keys.TrustsListed)
    (outside : keys.room = none) (user : UserId) : keys.peers.lookup user = none := by
  cases found : keys.peers.lookup user with
  | none => rfl
  | some trusted =>
    have inRoom := (trusts user trusted found).2.1
    rw [outside] at inRoom
    cases inRoom

theorem Guarded.leave {keys : KeyManager crypto} (guarded : keys.Guarded)
    (tracks : Option Tracks) :
    ({ (keys.changeRoom none).takePlace none tracks with stashed := none } :
      KeyManager crypto).Guarded := by
  have seals := guarded.sealing.takePlace none none tracks
  have nobody (user : UserId) : (keys.changeRoom none).peers.lookup user = none := by
    unfold changeRoom
    split
    · rfl
    · rename_i outside
      exact guarded.trusts.alone (not_not.mp outside).symm user
  refine ⟨⟨seals.made, seals.drawnBefore, nofun, nofun, nofun, seals.derived⟩, nofun,
    guarded.checked.takePlace none none tracks, fun user trusted found => ?_⟩
  exact absurd ((nobody user).symm.trans found) nofun

theorem wraps_takePlace (keys : KeyManager crypto) (room place : Option RoomId)
    (tracks : Option Tracks) :
    ((keys.changeRoom room).takePlace place tracks).wraps = keys.wraps := by
  unfold changeRoom
  split <;> rfl

/-- In a room a placement applies the room state it brings; outside any, nothing is trusted. -/
theorem Guarded.applyPlacement {keys : KeyManager crypto}
    (fresh : Function.Injective crypto.random) (guarded : keys.Guarded) (room : Option RoomId)
    (epoch : Epoch) (tracks : Option Tracks) (peers : List Peer) (clock : Clock) :
    keys.Publishes (keys.applyPlacement room epoch tracks peers clock).2
      (keys.applyPlacement room epoch tracks peers clock).1.1 := by
  unfold KeyManager.applyPlacement
  split
  · exact guarded.publishes_nothing rfl
  · rename_i newer
    cases room with
    | none => exact (guarded.leave tracks).publishes_nothing (keys.wraps_takePlace none none tracks)
    | some room =>
      have seals := guarded.sealing.takePlace (some room) (some room) tracks
      have checked := guarded.checked.takePlace (some room) (some room) tracks
      have entered := keys.standing_takePlace (some room) tracks
      have same := keys.wraps_takePlace (some room) (some room) tracks
      have there : ((keys.changeRoom (some room)).takePlace (some room) tracks).room =
          some room := rfl
      have notOlder :
          ¬ epoch < ((keys.changeRoom (some room)).takePlace (some room) tracks).standing.epoch := by
        rw [entered, Standing.enter]
        split
        · exact Nat.not_lt_zero epoch
        · rename_i here
          exact fun older => newer ⟨rfl, not_not.mp here, older⟩
      dsimp only
      generalize (keys.changeRoom (some room)).takePlace (some room) tracks = taken at *
      have applied := applyPeers_guarded fresh seals checked room there epoch peers clock
      have branch : taken.peersChanged room epoch peers clock =
          taken.applyPeers room epoch peers clock := by
        unfold KeyManager.peersChanged
        rw [if_neg (not_not.mpr there.symm)]
        exact if_neg notOlder
      rw [branch]
      refine Publishes.trans ⟨applied.1, ?_⟩ (applied.1.unstash fresh room epoch clock)
      rw [applied.2, onRecord, onRecord, same]

/-- A presence that leaves who is shown in our room alone leaves the trusted peers shown. -/
theorem TrustsListed.setPresence {keys : KeyManager crypto} (trusts : keys.TrustsListed)
    (user : UserId) (room : Option RoomId) (unchanged : (keys.setPresence user room).1 = false) :
    (keys.setPresence user room).2.TrustsListed := by
  have shownSame : ∀ trusted, keys.peers.lookup user = some trusted →
      ¬ (user ≠ keys.me ∧ keys.room.isSome ∧
        (keys.present.lookup user = keys.room ↔ ¬ room = keys.room)) → room = keys.room := by
    intro trusted found still
    obtain ⟨someoneElse, inRoom, present, -⟩ := trusts user trusted found
    by_contra elsewhere
    exact still ⟨someoneElse, inRoom, iff_of_true present elsewhere⟩
  have moved (present : Map UserId RoomId)
      (others : ∀ other, other ≠ user → present.lookup other = keys.present.lookup other)
      (self : present.lookup user = room)
      (still : ¬ (user ≠ keys.me ∧ keys.room.isSome ∧
        (keys.present.lookup user = keys.room ↔ ¬ room = keys.room))) :
      ({ keys with present := present } : KeyManager crypto).TrustsListed := by
    intro other trusted found
    obtain ⟨someoneElse, inRoom, shown, listed⟩ := trusts other trusted found
    refine ⟨someoneElse, inRoom, ?_, listed⟩
    by_cases same : other = user
    · subst same
      exact self.trans (shownSame trusted found still)
    · exact (others other same).trans shown
  unfold KeyManager.setPresence at unchanged ⊢
  cases room with
  | none =>
    dsimp only at unchanged ⊢
    refine moved _ (fun other different => ?_) ?_ (of_decide_eq_false unchanged)
    · rw [Map.lookup_erase_ite, if_neg different]
    · rw [Map.lookup_erase_ite, if_pos rfl]
  | some place =>
    dsimp only at unchanged ⊢
    split
    · exact trusts
    · rename_i space
      rw [if_neg space] at unchanged
      refine moved _ (fun other different => ?_) ?_ (of_decide_eq_false unchanged)
      · rw [Map.lookup_insert_ite, if_neg different]
      · rw [Map.lookup_insert_ite, if_pos rfl]

theorem Guarded.presence {keys : KeyManager crypto} (fresh : Function.Injective crypto.random)
    (guarded : keys.Guarded) (user : UserId) (room : Option RoomId) (clock : Clock) :
    keys.Publishes (keys.perform clock (.presence user room)).2
      (keys.perform clock (.presence user room)).1 := by
  obtain ⟨made, drawnBefore, current, wrapped, placed, derived⟩ := guarded.sealing
  have trusts := guarded.trusts.setPresence user room
  obtain ⟨present, frame⟩ := keys.setPresence_frame user room
  dsimp only [perform]
  generalize keys.setPresence user room = shown at trusts frame
  obtain ⟨shown, after⟩ := shown
  dsimp only at trusts frame ⊢
  subst frame
  have seals : ({ keys with present := present } : KeyManager crypto).Sealing :=
    ⟨made, drawnBefore, current, wrapped, placed, derived⟩
  split
  · unfold reapplyPeers
    split
    · rename_i outside
      refine Guarded.publishes_nothing ⟨seals, guarded.settled, guarded.checked, ?_⟩ rfl
      intro other trusted found
      exact absurd ((guarded.trusts.alone outside other).symm.trans found) nofun
    · rename_i place there
      have applied := applyPeers_guarded fresh seals guarded.checked place there keys.epoch
        keys.roomPeers clock
      unfold KeyManager.peersChanged
      rw [if_neg (not_not.mpr there.symm), if_neg (lt_irrefl keys.epoch)]
      exact applied
  · rename_i same
    exact Guarded.publishes_nothing
      ⟨seals, guarded.settled, guarded.checked, trusts (Bool.eq_false_iff.mpr same)⟩ rfl

/-- Every operation keeps the invariant and publishes what it puts on record. -/
theorem Guarded.perform {keys : KeyManager crypto} (fresh : Function.Injective crypto.random)
    (guarded : keys.Guarded) (clock : Clock) (op : KeyOp crypto) :
    keys.Publishes (keys.perform clock op).2 (keys.perform clock op).1 := by
  cases op with
  | placement room epoch tracks peers =>
    exact guarded.applyPlacement fresh room epoch tracks peers clock
  | peers room epoch peers => exact guarded.peersChanged fresh room epoch peers clock
  | presence user room => exact guarded.presence fresh user room clock
  | senderKey sender epoch wrapped =>
    obtain ⟨inbox, frame⟩ := keys.senderKey_frame sender epoch wrapped clock.now
    dsimp only [KeyManager.perform]
    rw [frame]
    exact (guarded.withInbox inbox).publishes_nothing rfl
  | renew encryption =>
    have kept : (keys.replaceEncryption encryption clock.now).Guarded :=
      guarded.elsewhere ⟨keys.received, keys.recvKeys, keys.early, keys.generation, keys.stores⟩
        encryption _ keys.stashed
    exact kept.publishes_nothing rfl
  | receive mediaId epoch =>
    obtain ⟨inbox, frame⟩ := keys.recvKey_frame mediaId epoch
    dsimp only [KeyManager.perform]
    rw [frame]
    exact (guarded.withInbox inbox).publishes_nothing rfl
  | tick =>
    have kept : (keys.tick clock.now).Guarded :=
      guarded.elsewhere ⟨(keys.tick clock.now).received, (keys.tick clock.now).recvKeys,
        (keys.tick clock.now).early, keys.generation, keys.stores⟩ keys.encryption
        (keys.tick clock.now).retiredEncryption keys.stashed
    exact kept.publishes_nothing rfl

theorem new_guarded (me : UserId) (encryption : crypto.KeyPair) (server : Fingerprint)
    (floors : EpochFloors) (now : Instant) (drawn : Nat) :
    (new me encryption server floors now drawn).Guarded where
  sealing := ⟨nofun, nofun, nofun, nofun, nofun, fun _ _ found => by cases found⟩
  settled := nofun
  checked := fun _ _ found => by cases found
  trusts := fun _ _ found => by cases found

/-- Whom a secret was ever wrapped to, with the encryption keys it was wrapped to. -/
def wrappedEver (keys : KeyManager crypto) (secret : crypto.Secret) : Set (UserId × PublicKey) :=
  {entry | ∃ wrap ∈ keys.wraps,
    wrap.user = entry.1 ∧ wrap.encryptionKey = entry.2 ∧ wrap.secret = secret}

/-- The peers trusted now, with their encryption keys. -/
def trustedNow (keys : KeyManager crypto) : Set (UserId × PublicKey) :=
  {entry | ∃ peer, keys.peers.lookup entry.1 = some peer ∧ peer.encryptionKey = entry.2}

theorem Guarded.wrappedEver_eq {keys : KeyManager crypto} (guarded : keys.Guarded)
    (inRoom : keys.room.isSome) (secret : crypto.Secret) (held : keys.mySecret = some secret) :
    keys.wrappedEver secret = keys.trustedNow := by
  ext ⟨user, key⟩
  show (∃ wrap ∈ keys.wraps, wrap.user = user ∧ wrap.encryptionKey = key ∧ wrap.secret = secret) ↔
    ∃ peer, keys.peers.lookup user = some peer ∧ peer.encryptionKey = key
  rw [← guarded.sealing.wrapped secret held, (guarded.settled inRoom).2, mem_peerSet]

end KeyManager

/-! ### Runs -/

/-- A key manager with every request it asked to send. -/
structure KeyHistory (crypto : Crypto) where
  keys : KeyManager crypto
  sent : List Request

namespace KeyHistory

variable {crypto : Crypto}

def start (keys : KeyManager crypto) : KeyHistory crypto where
  keys := keys
  sent := []

def step (history : KeyHistory crypto) (input : Clock × KeyOp crypto) : KeyHistory crypto :=
  let (requests, keys) := history.keys.perform input.1 input.2
  { keys, sent := history.sent ++ requests }

theorem run_guarded (fresh : Function.Injective crypto.random) (keys : KeyManager crypto)
    (guarded : keys.Guarded) (nothing : keys.wraps = []) (inputs : List (Clock × KeyOp crypto)) :
    (run step (start keys) inputs).keys.Guarded ∧
      (run step (start keys) inputs).sent.flatMap KeyManager.sealedBy =
        (run step (start keys) inputs).keys.onRecord := by
  refine run_invariant step (fun history : KeyHistory crypto =>
    history.keys.Guarded ∧ history.sent.flatMap KeyManager.sealedBy = history.keys.onRecord)
    ⟨guarded, ?_⟩ ?_ inputs
  · show [] = keys.wraps.map _
    rw [nothing]
    rfl
  · rintro history ⟨clock, op⟩ ⟨guarded, sent⟩
    obtain ⟨still, published⟩ := guarded.perform fresh clock op
    refine ⟨still, ?_⟩
    show (history.sent ++ _).flatMap _ = _
    rw [List.flatMap_append, sent]
    exact published.symm

/-- Whatever a server sends and in whatever order, while a client is in a room it holds a
secret that was wrapped, ever, to exactly the peers it trusts now under their encryption keys
now, always for the room and epoch it is in; every key it sends with is derived from that
secret. The wraps on record are what it published, made by HPKE for their recipients. -/
theorem secret_reaches_trusted (fresh : Function.Injective crypto.random) (me : UserId)
    (encryption : crypto.KeyPair) (server : Fingerprint) (floors : EpochFloors) (now : Instant)
    (drawn : Nat) (inputs : List (Clock × KeyOp crypto)) :
    let after := run step (start (.new me encryption server floors now drawn)) inputs
    let keys := after.keys
    after.sent.flatMap KeyManager.sealedBy = keys.onRecord ∧
    (∀ wrap ∈ keys.wraps, wrap.context.recipient = wrap.user ∧
      ∃ own, crypto.wrap own wrap.encryptionKey wrap.context wrap.secret = some wrap.blob) ∧
    ∀ room, keys.room = some room → ∃ secret,
      keys.mySecret = some secret ∧
      keys.wrappedEver secret = keys.trustedNow ∧
      (∀ wrap ∈ keys.wraps, wrap.secret = secret →
        wrap.context = keys.context room keys.epoch keys.me wrap.user) ∧
      (∀ id epoch key, keys.sendKey id = some (epoch, key) →
        epoch = keys.epoch ∧ key = crypto.derive secret id) ∧
      ∀ user trusted, keys.peers.lookup user = some trusted →
        user ≠ keys.me ∧ keys.present.lookup user = some room ∧
          ∃ peer ∈ keys.roomPeers, peer.user = user ∧ KeyManager.keyPeer peer = trusted ∧
            KeyManager.vouched crypto keys.server peer := by
  intro after keys
  obtain ⟨guarded, sent⟩ := run_guarded fresh (.new me encryption server floors now drawn)
    (KeyManager.new_guarded ..) rfl inputs
  refine ⟨sent, guarded.sealing.made, fun room there => ?_⟩
  have inRoom : keys.room.isSome := Option.isSome_iff_exists.mpr ⟨room, there⟩
  obtain ⟨secret, held⟩ := Option.isSome_iff_exists.mp (guarded.settled inRoom).1
  refine ⟨secret, held, guarded.wrappedEver_eq inRoom secret held, ?_, ?_, ?_⟩
  · intro wrap member same
    obtain ⟨other, here, context⟩ := guarded.sealing.placed secret held wrap member same
    rw [show keys.room = some other from here] at there
    cases there
    exact context
  · intro id epoch key found
    obtain ⟨sent, derived, same⟩ := Option.map_eq_some_iff.mp found
    cases same
    obtain ⟨other, current, derived⟩ := guarded.sealing.derived id _ derived
    rw [show keys.mySecret = some other from current] at held
    cases held
    exact ⟨rfl, derived⟩
  · intro user trusted found
    obtain ⟨someoneElse, _, present, listed⟩ := guarded.trusts user trusted found
    exact ⟨someoneElse, present.trans there, listed⟩

/-- A stay in which a peer is listed before it is shown. -/
def listedThenShown : List (Clock × KeyOp openCrypto) :=
  [ (⟨0, 500⟩, .presence 2 (some 1)),
    (⟨1, 500⟩, .placement (some 1) 1 (some (openPeer 1).tracks) [openPeer 1, openPeer 2]),
    (⟨2, 500⟩, .peers 1 2 [openPeer 1, openPeer 2, openPeer 3]),
    (⟨3, 500⟩, .presence 3 (some 1)) ]

theorem secret_reaches_trusted_listedThenShown :
    let keys := (run step (start (.new 1 (200 + 1 : Nat) 7 {} 0 0)) listedThenShown).keys
    keys.wraps.map (fun wrap => (wrap.user, wrap.context.epoch)) = [(2, 1), (2, 2), (2, 2), (3, 2)] ∧
      ∃ secret, keys.mySecret = some secret ∧ keys.wrappedEver secret = keys.trustedNow := by
  refine ⟨by decide +kernel, ?_⟩
  obtain ⟨secret, held, same, -⟩ := (@secret_reaches_trusted openCrypto
    (fun _ _ same => same) 1 (200 + 1 : Nat) 7 {} 0 0 listedThenShown).2.2 1 (by decide +kernel)
  exact ⟨secret, held, same⟩

end KeyHistory

end Throcc
