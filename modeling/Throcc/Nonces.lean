/-
This file proves that no nonce repeats under a key: of all the datagrams a
client ever seals, over any connections and whatever the server makes its key
managers do, no two are sealed under the same key with the same nonce.

Every draw of a secret belongs to the connection that made it, so one key is
used by one connection alone, on one track alone. There the sealer's counter
only rises, and stops at its last value.
-/

import Throcc.Changes
import Throcc.Run
import Throcc.Sealer
import Throcc.Secrecy

namespace Throcc

/-! ### The nonce of a datagram -/

/-- The nonce a datagram was sealed with: its first 12 bytes. -/
def nonceOf (datagram : List UInt8) : List UInt8 := datagram.take 12

theorem Header.length_nonce (header : Header) : header.nonce.length = 12 := by
  unfold nonce encode
  rw [List.dropLast_concat]
  simp

theorem Header.encode_eq (header : Header) : header.encode = header.nonce ++ [header.flags.bits] := by
  unfold nonce encode
  rw [List.dropLast_concat]

/-- Two headers with one nonce have one `seq`. -/
theorem Header.seq_of_nonce {header other : Header} (small : header.seq ≤ u32Max)
    (small' : other.seq ≤ u32Max) (same : header.nonce = other.nonce) : header.seq = other.seq := by
  unfold nonce encode at same
  rw [List.dropLast_concat, List.dropLast_concat] at same
  exact bytesBe_inj (Nat.lt_succ_of_le small) (Nat.lt_succ_of_le small')
    (List.append_inj same (by simp)).2

/-- A sealed datagram starts with its header. -/
theorem Aead.nonceOf_seal {crypto : Crypto} {aead : Aead crypto} {key : crypto.TrackKey}
    {header : Header} {plaintext datagram : List UInt8}
    (sealed_ : aead.seal_ key header plaintext = .ok datagram) : nonceOf datagram = header.nonce := by
  unfold seal_ at sealed_
  split at sealed_
  · cases sealed_
  · split at sealed_
    · cases sealed_
    · cases sealed_
      unfold nonceOf
      rw [header.encode_eq, List.append_assoc, List.append_assoc]
      exact List.take_left' header.length_nonce

/-! ### The sealer's counter -/

namespace Sealer

variable {crypto : Crypto} (aead : Aead crypto)

/-- What the loop of `seal` seals: datagrams under headers of one track and epoch, whose
`seq`s rise from the first `seq` on and stay below the one it ends at. -/
structure Numbers (mediaId : MediaId) (seq last : Nat) (datagrams : List (List UInt8))
    (headers : List Header) : Prop where
  nonces : datagrams.map nonceOf = headers.map Header.nonce
  rising : headers.Pairwise fun header other => header.seq < other.seq
  within : ∀ header ∈ headers, header.mediaId = mediaId ∧ seq ≤ header.seq ∧ header.seq < last

/-- The counter rises by one a fragment and stops at its last value. -/
theorem sealFragments_last (key : crypto.TrackKey) (mediaId : MediaId) (epoch : Epoch)
    (fragments : List Fragment) {seq : Nat} (small : seq ≤ u32Max) :
    (sealFragments aead key mediaId epoch seq fragments).2 =
      min (seq + fragments.length) u32Max := by
  induction fragments generalizing seq with
  | nil => exact (min_eq_left small).symm
  | cons fragment rest inductionHypothesis =>
    unfold sealFragments addU32
    rw [List.length_cons]
    by_cases room : seq + 1 ≤ u32Max
    · have last := inductionHypothesis room
      rw [if_pos room]
      dsimp only
      split
      · rw [last]
        omega
      · rw [last]
        omega
    · rw [if_neg room]
      show seq = _
      omega

theorem sealFragments_numbers (key : crypto.TrackKey) (mediaId : MediaId) (epoch : Epoch)
    (fragments : List Fragment) {seq : Nat} (small : seq ≤ u32Max) :
    ∃ headers, Numbers mediaId seq (sealFragments aead key mediaId epoch seq fragments).2
      (sealFragments aead key mediaId epoch seq fragments).1 headers := by
  induction fragments generalizing seq with
  | nil => exact ⟨[], rfl, .nil, nofun⟩
  | cons fragment rest inductionHypothesis =>
    unfold sealFragments addU32
    by_cases room : seq + 1 ≤ u32Max
    · rw [if_pos room]
      obtain ⟨headers, nonces, rising, within⟩ := inductionHypothesis room
      have last := sealFragments_last aead key mediaId epoch rest room
      dsimp only
      have later : ∀ header ∈ headers, header.mediaId = mediaId ∧ seq < header.seq ∧
          header.seq < (sealFragments aead key mediaId epoch (seq + 1) rest).2 := within
      split
      · rename_i datagram sealed_
        refine ⟨{ mediaId, epoch, seq, flags := fragment.flags } :: headers, ?_, ?_, ?_⟩
        · rw [List.map_cons, List.map_cons, nonces, Aead.nonceOf_seal sealed_]
        · exact List.pairwise_cons.mpr ⟨fun other member => (later other member).2.1, rising⟩
        · refine List.forall_mem_cons.mpr ⟨⟨rfl, le_rfl, ?_⟩, fun other member => ?_⟩
          · rw [last]
            show seq < _
            omega
          · obtain ⟨sameTrack, above, below⟩ := later other member
            exact ⟨sameTrack, above.le, below⟩
      · refine ⟨headers, nonces, rising, fun other member => ?_⟩
        obtain ⟨sameTrack, above, below⟩ := later other member
        exact ⟨sameTrack, above.le, below⟩
    · rw [if_neg room]
      exact ⟨[], rfl, .nil, nofun⟩

section Seal

variable (sealer : Sealer) (unit : Outgoing) (epoch : Epoch) (key : crypto.TrackKey)

/-- The counter of the unit's track rises by one a fragment and stops at its last value. -/
theorem seq_seal (small : sealer.seq unit.mediaId ≤ u32Max) :
    (sealer.seal_ aead unit epoch key).2.seq unit.mediaId =
      min (sealer.seq unit.mediaId + unit.fragments.length) u32Max := by
  rw [← sealFragments_last aead key unit.mediaId epoch unit.fragments small]
  unfold seal_ seq
  dsimp only
  rw [Finmap.lookup_insert]
  rfl

theorem seq_seal_other {other : MediaId} (different : other ≠ unit.mediaId) :
    (sealer.seal_ aead unit epoch key).2.seq other = sealer.seq other := by
  unfold seal_ seq
  dsimp only
  rw [Finmap.lookup_insert_of_ne _ different]

theorem seq_le_seal (small : sealer.seq unit.mediaId ≤ u32Max) (id : MediaId) :
    sealer.seq id ≤ (sealer.seal_ aead unit epoch key).2.seq id := by
  by_cases same : id = unit.mediaId
  · rw [same, sealer.seq_seal aead unit epoch key small]
    omega
  · rw [sealer.seq_seal_other aead unit epoch key same]

theorem seal_numbers (small : sealer.seq unit.mediaId ≤ u32Max) :
    ∃ headers, Numbers unit.mediaId (sealer.seq unit.mediaId)
      ((sealer.seal_ aead unit epoch key).2.seq unit.mediaId)
      (sealer.seal_ aead unit epoch key).1 headers := by
  rw [sealer.seq_seal aead unit epoch key small,
    ← sealFragments_last aead key unit.mediaId epoch unit.fragments small]
  exact sealFragments_numbers aead key unit.mediaId epoch unit.fragments small

end Seal

end Sealer

/-! ### What a key manager draws -/

namespace KeyManager

variable {crypto : Crypto}

/-- The keys to send with stay as they are, or come from secrets drawn since. -/
structure Renews (keys after : KeyManager crypto) : Prop where
  drawn : keys.drawn ≤ after.drawn
  sendKeys : ∀ id key, after.sendKeys.lookup id = some key → keys.sendKeys.lookup id = some key ∨
    ∃ draw, keys.drawn ≤ draw ∧ draw < after.drawn ∧ key = crypto.derive (crypto.random draw) id

theorem Renews.of_eq {keys after : KeyManager crypto} (drawn : after.drawn = keys.drawn)
    (sendKeys : after.sendKeys = keys.sendKeys) : keys.Renews after :=
  ⟨drawn.ge, fun _ _ found => Or.inl (sendKeys ▸ found)⟩

theorem Renews.trans {first second third : KeyManager crypto} (one : first.Renews second)
    (two : second.Renews third) : first.Renews third := by
  refine ⟨one.drawn.trans two.drawn, fun id key found => ?_⟩
  rcases two.sendKeys id key found with before | ⟨draw, since, until_, same⟩
  · rcases one.sendKeys id key before with before | ⟨draw, since, until_, same⟩
    · exact Or.inl before
    · exact Or.inr ⟨draw, since, until_.trans_le two.drawn, same⟩
  · exact Or.inr ⟨draw, one.drawn.trans since, until_, same⟩

theorem renews_takePlace (keys : KeyManager crypto) (room : Option RoomId)
    (tracks : Option Tracks) : keys.Renews ((keys.changeRoom room).takePlace room tracks) := by
  have same : ((keys.changeRoom room).takePlace room tracks).drawn = keys.drawn := by
    unfold changeRoom
    split <;> rfl
  exact ⟨same.ge, fun _ _ found => by cases found⟩

theorem renews_newSecret (keys : KeyManager crypto) : keys.Renews keys.newSecret :=
  ⟨Nat.le_succ _, fun id key found =>
    Or.inr ⟨keys.drawn, le_rfl, Nat.lt_succ_self _, keys.mem_sendKeys_newSecret id key found⟩⟩

theorem renews_trusting (keys : KeyManager crypto) (room : RoomId) (peers : List Peer)
    (clock : Clock) : keys.Renews (keys.trusting room peers clock) := by
  obtain ⟨checked, refused, frame⟩ := keys.trustOf_frame room peers clock.unixNow
  unfold trusting
  dsimp only
  rw [frame]
  exact .of_eq rfl rfl

theorem Change.renews {now : Instant} {wraps : KeyManager crypto → RoomId → Prop}
    {before after : KeyManager crypto} {acceptance : Option (Acceptance crypto)}
    (change : Change now wraps before acceptance after) : before.Renews after := by
  cases change with
  | trust room peers clock => exact before.renews_trusting room peers clock
  | moveTo epoch =>
    unfold KeyManager.moveTo
    split
    · exact .of_eq rfl rfl
    · exact .of_eq rfl rfl
  | newSecret => exact before.renews_newSecret
  | wrap room =>
    unfold wrapForNewPeers
    split
    · exact .of_eq rfl rfl
    · exact .of_eq rfl rfl
  | holdEarly sender epoch wrapped arrived =>
    obtain ⟨inbox, same⟩ := before.holdEarly_frame sender epoch wrapped arrived
    rw [same]
    exact .of_eq rfl rfl
  | takePlace room tracks => exact before.renews_takePlace room tracks
  | recvKey mediaId epoch =>
    obtain ⟨inbox, same⟩ := before.recvKey_frame mediaId epoch
    rw [same]
    exact .of_eq rfl rfl
  | takeEarly => exact .of_eq rfl rfl
  | store => exact .of_eq rfl rfl
  | advance => exact .of_eq rfl rfl
  | stash => exact .of_eq rfl rfl
  | present => exact .of_eq rfl rfl
  | replaceEncryption => exact .of_eq rfl rfl
  | tick => exact .of_eq rfl rfl

/-- Whatever a key manager does, the keys it then sends with are those it had or come from
secrets just drawn. -/
theorem renews_perform (keys : KeyManager crypto) (clock : Clock) (op : KeyOp crypto) :
    keys.Renews (keys.perform clock op).2 :=
  perform_keeps keys.Renews (fun _ _ _ _ _ change renews => renews.trans change.renews) clock op
    (.of_eq rfl rfl)

end KeyManager

/-! ### Runs of a client -/

namespace Sending

variable {crypto : Crypto} {aead : Aead crypto}

/-- The key comes from a secret that connection `index` drew, for track `id`. -/
def Keyed (owner : Nat → Nat) (drawn index : Nat) (id : MediaId) (key : crypto.TrackKey) : Prop :=
  ∃ draw < drawn, owner draw = index ∧ key = crypto.derive (crypto.random draw) id

/-- What a connection sends with comes from its own draws. -/
structure Owns (owner : Nat → Nat) (drawn index : Nat) (connection : Connection crypto) :
    Prop where
  sendKeys : ∀ id key, connection.keys.sendKeys.lookup id = some key →
    Keyed owner drawn index id key
  taken : ∀ unit epoch key, connection.taken = some (unit, epoch, key) →
    Keyed owner drawn index unit.mediaId key
  bounded : ∀ id, connection.sealer.seq id ≤ u32Max

/-- A datagram was sealed by a connection, under a key of its own and a `seq` its sealer
has passed. -/
def Spent (owner : Nat → Nat) (sending : Sending crypto)
    (sealed_ : crypto.TrackKey × List UInt8) : Prop :=
  ∃ draw < sending.drawn, ∃ (connection : Connection crypto) (header : Header),
    sending.connections[owner draw]? = some connection ∧
    sealed_.1 = crypto.derive (crypto.random draw) header.mediaId ∧
    nonceOf sealed_.2 = header.nonce ∧ header.seq < connection.sealer.seq header.mediaId

/-- Two datagrams differ in key or nonce. -/
def Apart (sealed_ other : crypto.TrackKey × List UInt8) : Prop :=
  sealed_.1 = other.1 → nonceOf sealed_.2 ≠ nonceOf other.2

structure Fresh (owner : Nat → Nat) (sending : Sending crypto) : Prop where
  owns : ∀ index connection, sending.connections[index]? = some connection →
    Owns owner sending.drawn index connection
  spent : ∀ sealed_ ∈ sending.sealedUnder, Spent owner sending sealed_
  apart : sending.sealedUnder.Pairwise Apart

section Extend

variable {owner owner' : Nat → Nat} {drawn drawn' : Nat}

theorem Keyed.extend (agree : ∀ draw < drawn, owner' draw = owner draw) (grows : drawn ≤ drawn')
    {index : Nat} {id : MediaId} {key : crypto.TrackKey} (keyed : Keyed owner drawn index id key) :
    Keyed owner' drawn' index id key := by
  obtain ⟨draw, before, owned, same⟩ := keyed
  exact ⟨draw, before.trans_le grows, (agree draw before).trans owned, same⟩

theorem Owns.extend (agree : ∀ draw < drawn, owner' draw = owner draw) (grows : drawn ≤ drawn')
    {index : Nat} {connection : Connection crypto} (owns : Owns owner drawn index connection) :
    Owns owner' drawn' index connection where
  sendKeys id key found := (owns.sendKeys id key found).extend agree grows
  taken unit epoch key held := (owns.taken unit epoch key held).extend agree grows
  bounded := owns.bounded

/-- One connection changes: it still owns what it sends with, and its counters only rise. -/
theorem Fresh.set {before : Sending crypto} (fresh : Fresh owner before)
    (after : Sending crypto)
    (agree : ∀ draw < before.drawn, owner' draw = owner draw) (grows : before.drawn ≤ after.drawn)
    {index : Nat} {connection next : Connection crypto}
    (found : before.connections[index]? = some connection)
    (connections : after.connections = before.connections.set index next)
    (rises : ∀ id, connection.sealer.seq id ≤ next.sealer.seq id)
    (owns : Owns owner' after.drawn index next) :
    (∀ other connection, after.connections[other]? = some connection →
      Owns owner' after.drawn other connection) ∧
    ∀ sealed_ ∈ before.sealedUnder, Spent owner' after sealed_ := by
  have inside : index < before.connections.length := (List.getElem?_eq_some_iff.mp found).1
  constructor
  · intro other connection' found'
    rw [connections, List.getElem?_set] at found'
    by_cases same : index = other
    · rw [if_pos same, if_pos inside, Option.some_inj] at found'
      rw [← same, ← found']
      exact owns
    · rw [if_neg same] at found'
      exact (fresh.owns other connection' found').extend agree grows
  · intro sealed_ member
    obtain ⟨draw, drawnBefore, used, header, there, rest⟩ := fresh.spent sealed_ member
    refine ⟨draw, drawnBefore.trans_le grows, ?_⟩
    rw [connections, agree draw drawnBefore, List.getElem?_set]
    by_cases same : index = owner draw
    · rw [← same, found, Option.some_inj] at there
      rw [if_pos same, if_pos inside]
      subst there
      exact ⟨next, header, rfl, rest.1, rest.2.1, rest.2.2.trans_le (rises header.mediaId)⟩
    · rw [if_neg same]
      exact ⟨used, header, there, rest⟩

end Extend

/-! ### What each step keeps -/

section Steps

variable {owner : Nat → Nat} {sending : Sending crypto}

theorem Fresh.connect (fresh : Fresh owner sending) (encryption : crypto.KeyPair)
    (now : Instant) : Fresh owner (step aead sending (.connect encryption now)) := by
  constructor
  · intro index connection found
    have found : (sending.connections ++ [_])[index]? = some connection := found
    rw [List.getElem?_append] at found
    split at found
    · exact fresh.owns index connection found
    · have new := List.mem_of_getElem? found
      rw [List.mem_singleton] at new
      rw [new]
      refine ⟨fun id key found' => ?_, nofun, fun _ => Nat.zero_le _⟩
      cases found'
  · intro sealed_ member
    obtain ⟨draw, drawnBefore, connection, header, there, rest⟩ := fresh.spent sealed_ member
    refine ⟨draw, drawnBefore, connection, header, ?_, rest⟩
    have inside := (List.getElem?_eq_some_iff.mp there).1
    exact (List.getElem?_append_left inside).trans there
  · exact fresh.apart

theorem Fresh.perform (fresh : Fresh owner sending) (index : Nat) (clock : Clock)
    (op : KeyOp crypto) :
    ∃ owner', Fresh owner' (step aead sending (.perform index clock op)) := by
  dsimp only [step]
  split
  · exact ⟨owner, fresh⟩
  · rename_i connection found
    have owns := fresh.owns index connection found
    have renews := KeyManager.renews_perform
      { connection.keys with floors := sending.floors, drawn := sending.drawn } clock op
    generalize ({ connection.keys with floors := sending.floors, drawn := sending.drawn } :
      KeyManager crypto).perform clock op = performed at renews
    -- the connection owns what its key manager has just drawn
    let owner' (draw : Nat) : Nat := if draw < sending.drawn then owner draw else index
    have agree : ∀ draw < sending.drawn, owner' draw = owner draw := fun _ before => if_pos before
    have kept := owns.extend agree renews.drawn
    have ownsNext : Owns owner' performed.2.drawn index { connection with keys := performed.2 } := by
      refine ⟨fun id key found => ?_, kept.taken, kept.bounded⟩
      rcases renews.sendKeys id key found with before | ⟨draw, since, until_, same⟩
      · exact kept.sendKeys id key before
      · exact ⟨draw, until_, if_neg (Nat.not_lt.mpr since), same⟩
    have rest := fresh.set { sending with
        floors := performed.2.floors
        drawn := performed.2.drawn
        connections := sending.connections.set index { connection with keys := performed.2 } }
      agree renews.drawn found rfl (fun _ => le_rfl) ownsNext
    exact ⟨owner', rest.1, rest.2, fresh.apart⟩

theorem Fresh.sendKey (fresh : Fresh owner sending) (index : Nat) (unit : Outgoing) :
    Fresh owner (step aead sending (.sendKey index unit)) := by
  dsimp only [step]
  split
  · exact fresh
  · rename_i connection found
    have owns := fresh.owns index connection found
    have ownsNext : Owns owner sending.drawn index { connection with
        taken := (connection.keys.sendKey unit.mediaId).map fun key => (unit, key) } := by
      refine ⟨owns.sendKeys, fun unit' epoch key held => ?_, owns.bounded⟩
      obtain ⟨⟨epoch', key'⟩, sends, same⟩ := Option.map_eq_some_iff.mp held
      obtain ⟨key'', found', same'⟩ := Option.map_eq_some_iff.mp sends
      cases same
      cases same'
      exact owns.sendKeys unit.mediaId key found'
    have rest := fresh.set { sending with
        connections := sending.connections.set index { connection with
          taken := (connection.keys.sendKey unit.mediaId).map fun key => (unit, key) } }
      (fun _ _ => rfl) le_rfl found rfl (fun _ => le_rfl) ownsNext
    exact ⟨rest.1, rest.2, fresh.apart⟩

/-- Datagrams numbered one after another differ in their nonces. -/
theorem apart_of_numbers {mediaId : MediaId} {seq last : Nat} {datagrams : List (List UInt8)}
    {headers : List Header} (numbers : Sealer.Numbers mediaId seq last datagrams headers)
    (small : last ≤ u32Max) (key : crypto.TrackKey) :
    (datagrams.map fun datagram => (key, datagram)).Pairwise Apart := by
  have distinct : (headers.map Header.nonce).Pairwise (· ≠ ·) := by
    refine List.pairwise_map.mpr (numbers.rising.imp_of_mem fun member member' below same => ?_)
    have first := (numbers.within _ member).2.2.le.trans small
    have second := (numbers.within _ member').2.2.le.trans small
    exact absurd (Header.seq_of_nonce first second same) below.ne
  rw [← numbers.nonces] at distinct
  refine List.pairwise_map.mpr ((List.pairwise_map.mp distinct).imp ?_)
  exact fun different _ => different

/-- Sealing a unit numbers its datagrams with `seq`s no datagram under that key has. -/
theorem Fresh.sealUnit (random : Function.Injective crypto.random)
    (derives : ∀ secret id secret' id', crypto.derive secret id = crypto.derive secret' id' →
      secret = secret' ∧ id = id')
    (fresh : Fresh owner sending) (index : Nat) :
    Fresh owner (step aead sending (.sealUnit index)) := by
  dsimp only [step]
  split
  · exact fresh
  · rename_i connection found
    split
    · exact fresh
    · rename_i unit epoch key held
      have owns := fresh.owns index connection found
      obtain ⟨draw, drawnBefore, owned, sameKey⟩ := owns.taken unit epoch key held
      have inside : index < sending.connections.length := (List.getElem?_eq_some_iff.mp found).1
      have small := owns.bounded unit.mediaId
      have last := connection.sealer.seq_seal aead unit epoch key small
      obtain ⟨headers, numbers⟩ :=
        connection.sealer.seal_numbers aead unit epoch key small
      have rises := connection.sealer.seq_le_seal aead unit epoch key small
      have others : ∀ id, id ≠ unit.mediaId → _ := fun id =>
        connection.sealer.seq_seal_other aead unit epoch key
      generalize connection.sealer.seal_ aead unit epoch key = sealed_ at last numbers rises others
      obtain ⟨datagrams, sealer⟩ := sealed_
      dsimp only at last numbers rises others ⊢
      have bounded : sealer.seq unit.mediaId ≤ u32Max := last.trans_le (min_le_right _ _)
      have ownsNext : Owns owner sending.drawn index { connection with sealer, taken := none } := by
        refine ⟨owns.sendKeys, nofun, fun id => ?_⟩
        by_cases same : id = unit.mediaId
        · rw [same]
          exact bounded
        · exact (others id same).trans_le (owns.bounded id)
      have rest := fresh.set { sending with
          connections := sending.connections.set index { connection with sealer, taken := none }
          sealedUnder :=
            sending.sealedUnder ++ datagrams.map fun datagram => (key, datagram) }
        (fun _ _ => rfl) le_rfl found rfl rises ownsNext
      have headed : ∀ sealed_ ∈ datagrams.map fun datagram => (key, datagram),
          sealed_.1 = key ∧ ∃ header ∈ headers, nonceOf sealed_.2 = header.nonce := by
        intro sealed_ member
        obtain ⟨datagram, sealing, rfl⟩ := List.mem_map.mp member
        have nonce : nonceOf datagram ∈ datagrams.map nonceOf := List.mem_map_of_mem sealing
        rw [numbers.nonces] at nonce
        obtain ⟨header, there, same⟩ := List.mem_map.mp nonce
        exact ⟨rfl, header, there, same.symm⟩
      refine ⟨rest.1, fun sealed_ member => ?_, List.pairwise_append.mpr
        ⟨fresh.apart, apart_of_numbers numbers bounded key, fun before old new recent => ?_⟩⟩
      · rcases List.mem_append.mp member with old | recent
        · exact rest.2 sealed_ old
        · obtain ⟨under, header, there, nonce⟩ := headed sealed_ recent
          obtain ⟨sameTrack, -, below⟩ := numbers.within header there
          refine ⟨draw, drawnBefore, { connection with sealer, taken := none }, header, ?_, ?_,
            nonce, ?_⟩
          · rw [owned]
            exact List.getElem?_set_self inside
          · rw [under, sameKey, sameTrack]
          · rw [sameTrack]
            exact below
      · intro sameKeys sameNonces
        obtain ⟨under, header, there, nonce⟩ := headed new recent
        obtain ⟨sameTrack, above, below⟩ := numbers.within header there
        obtain ⟨draw', -, connection', header', there', key', nonce', below'⟩ :=
          fresh.spent before old
        have both : crypto.derive (crypto.random draw') header'.mediaId =
            crypto.derive (crypto.random draw) unit.mediaId := by
          rw [← key', sameKeys, under, sameKey]
        obtain ⟨sameSecret, sameTrack'⟩ := derives _ _ _ _ both
        rw [random sameSecret, owned, found, Option.some_inj] at there'
        rw [sameTrack', ← there'] at below'
        have seqs := Header.seq_of_nonce (below'.le.trans small) (below.le.trans bounded)
          (nonce'.symm.trans (sameNonces.trans nonce))
        omega

end Steps

theorem Fresh.step (random : Function.Injective crypto.random)
    (derives : ∀ secret id secret' id', crypto.derive secret id = crypto.derive secret' id' →
      secret = secret' ∧ id = id')
    {sending : Sending crypto} (fresh : ∃ owner, Fresh owner sending) (input : Input crypto) :
    ∃ owner, Fresh owner (step aead sending input) := by
  obtain ⟨owner, fresh⟩ := fresh
  cases input with
  | connect encryption now => exact ⟨owner, fresh.connect encryption now⟩
  | perform index clock op => exact fresh.perform index clock op
  | sendKey index unit => exact ⟨owner, fresh.sendKey index unit⟩
  | sealUnit index => exact ⟨owner, fresh.sealUnit random derives index⟩

theorem fresh_run (random : Function.Injective crypto.random)
    (derives : ∀ secret id secret' id', crypto.derive secret id = crypto.derive secret' id' →
      secret = secret' ∧ id = id')
    (me : UserId) (server : Fingerprint) (floors : EpochFloors) (drawn : Nat)
    (inputs : List (Input crypto)) :
    ∃ owner, Fresh owner (run (Sending.step aead) (.new me server floors drawn) inputs) :=
  run_invariant (Sending.step aead) (fun sending => ∃ owner, Fresh owner sending)
    ⟨fun _ => 0, ⟨fun _ _ found => (by cases found), fun _ member => (by cases member), .nil⟩⟩
    (fun _ input fresh => Fresh.step random derives fresh input) inputs

/-- No two datagrams a client ever seals have the same key and the same nonce, whatever its
connections' key managers go through and however sealing interleaves with that. And no
counter wraps: sealing a unit raises its track's counter by the unit's fragments, but never
past its last value, and no other counter. -/
theorem run_noncesApart (random : Function.Injective crypto.random)
    (derives : ∀ secret id secret' id', crypto.derive secret id = crypto.derive secret' id' →
      secret = secret' ∧ id = id')
    (me : UserId) (server : Fingerprint) (floors : EpochFloors) (drawn : Nat)
    (inputs : List (Input crypto)) :
    let after := run (Sending.step aead) (.new me server floors drawn) inputs
    (after.sealedUnder.Pairwise fun first second =>
      first.1 = second.1 → nonceOf first.2 ≠ nonceOf second.2) ∧
    ∀ connection ∈ after.connections, ∀ unit epoch key,
      let sealer := (connection.sealer.seal_ aead unit epoch key).2
      sealer.seq unit.mediaId =
        min (connection.sealer.seq unit.mediaId + unit.fragments.length) u32Max ∧
      ∀ other, other ≠ unit.mediaId → sealer.seq other = connection.sealer.seq other := by
  intro after
  obtain ⟨owner, fresh⟩ := @fresh_run crypto aead random derives me server floors drawn inputs
  refine ⟨fresh.apart, fun connection member unit epoch key => ?_⟩
  obtain ⟨index, found⟩ := List.mem_iff_getElem?.mp member
  have owns := fresh.owns index connection found
  exact ⟨connection.sealer.seq_seal aead unit epoch key (owns.bounded unit.mediaId), fun other =>
    connection.sealer.seq_seal_other aead unit epoch key⟩

/-- A client seals a unit in room 1, is placed there again at the same epoch, seals the unit
again, reconnects and seals it there once more. -/
def resealing : List (Input openCrypto) :=
  let unit : Outgoing := { mediaId := 10, data := [1, 2, 3], timestamp := 5, keyframe := true }
  let place (index : Nat) : Input openCrypto :=
    .perform index ⟨2, 500⟩ (.placement (some 1) 1 (some (openPeer 1).tracks) [openPeer 1])
  [ .connect (201 : Nat) 0, place 0, .sendKey 0 unit, .sealUnit 0, place 0, .sendKey 0 unit,
    .sealUnit 0, .connect (201 : Nat) 3, place 1, .sendKey 1 unit, .sealUnit 1 ]

theorem run_noncesApart_resealing :
    let after := run (Sending.step openAead) (.new 1 7 {} 0) resealing
    (after.sealedUnder.map fun sealed_ => ofBytesBe (nonceOf sealed_.2)) =
      [2 ^ 64 * 10 + 2 ^ 32, 2 ^ 64 * 10 + 2 ^ 32 + 1, 2 ^ 64 * 10 + 2 ^ 32] ∧
    after.sealedUnder.Pairwise fun first second =>
      first.1 = second.1 → nonceOf first.2 ≠ nonceOf second.2 :=
  ⟨by decide +kernel, (@run_noncesApart openCrypto openAead Function.injective_id
    (fun _ _ _ _ same => Prod.mk.inj same) 1 7 {} 0 resealing).1⟩

end Sending

end Throcc
