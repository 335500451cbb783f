/-
This file says how the other operations end: what they do is a turn of the
core or a chain of them, and what they refuse leaves the hub idle, but for the
requests that change something before their last call of the database.
-/

import Throcc.Moves

namespace Throcc

namespace Hub

open Attempt

variable {clock : Clock} {base hub : Hub}

/-! ### Profiles and pictures -/

theorem checkedName_ends {ok : String → Hub → Prop} {failed : Refusal → Hub → Prop}
    {name : String} (onOk : ∀ name, ok name hub) (onError : ∀ refusal, failed refusal hub) :
    (checkedName name).Ends ok failed hub := by
  unfold checkedName
  refine Ends.okOr ?_ ?_
  · exact fun name _ => onOk name
  · exact onError _

theorem setProfile_ends (idle : Idle clock base hub) (user : UserId) (name : String)
    (avatar : Option Hash) :
    (setProfile user name avatar clock).Ends
      (fun _ after => ∃ name, base.core.Does (.profile user name avatar) after.core)
      (fun _ after => Idle clock base after) hub := by
  refine .bind (checkedName_ends ?_ fun _ => idle)
  intro name
  refine .bind (idle.requirePicture_ends (fun _ idle => ?_) fun _ _ idle => idle)
  refine .bind (idle.session_ends (fun session _ => ?_) idle)
  refine .bind (.require (fun _ => ?_) idle)
  refine .bind (idle.write_ends (fun before idle => ?_) fun _ idle => idle)
  refine .bind (.change (.bind (.change (.pure ⟨name, trivial, ?_⟩))))
  rw [core_announcePresence]
  refine (core_modifySession _ user
    (fun seat => { seat with row := { seat.row with name, avatar } }) fun _ => rfl).trans ?_
  rw [← idle.core]
  rfl

theorem announceServerProfile_ends (idle : Idle clock base hub) :
    announceServerProfile.Ends (fun _ after => after.core = base.core)
      (fun _ after => Idle clock base after) hub := by
  refine .bind (idle.read_ends (fun after idle => ?_) fun _ idle => idle)
  refine .bind (.change (.pure ?_))
  rw [core_emitAll _ fun _ => rfl, idle.core]

theorem setServerName_ends (idle : Idle clock base hub) (user : UserId) (name : Option String) :
    (setServerName user name).Ends (fun _ after => after.core = base.core)
      (fun _ after => after.core = base.core) hub := by
  refine .bind (idle.role_ends (fun seat _ => ?_) idle.core)
  refine .bind (.require (fun _ => ?_) idle.core)
  have storing : ∀ name : Option String, Ends (do
      write (Database.setServerName name)
      announceServerProfile) (fun _ after => after.core = base.core)
      (fun _ after => after.core = base.core) hub := by
    intro name
    refine .bind (idle.write_ends (fun before idle => ?_) fun _ idle => idle.core)
    exact (announceServerProfile_ends (Idle.refl _ : Idle clock _ _)).mono
      (fun _ _ same => same.trans idle.core) fun _ _ after => after.core.trans idle.core
  refine .bind ?_
  unfold checkedServerName
  split
  · exact .pure (storing none)
  · split
    · exact .pure (storing none)
    · refine .map (checkedName_ends ?_ ?_)
      · exact fun name => storing (some name)
      · exact fun _ => idle.core

theorem setServerAvatar_ends (idle : Idle clock base hub) (user : UserId)
    (avatar : Option Hash) :
    (setServerAvatar user avatar).Ends (fun _ after => after.core = base.core)
      (fun _ after => after.core = base.core) hub := by
  refine .bind (idle.role_ends (fun seat _ => ?_) idle.core)
  refine .bind (.require (fun _ => ?_) idle.core)
  refine .bind (idle.requirePicture_ends (fun _ idle => ?_) fun _ _ idle => idle.core)
  refine .bind (idle.write_ends (fun before idle => ?_) fun _ idle => idle.core)
  exact (announceServerProfile_ends (Idle.refl _ : Idle clock _ _)).mono
    (fun _ _ same => same.trans idle.core) fun _ _ after => after.core.trans idle.core

theorem setAvatar_ends (primitives : Primitives) (idle : Idle clock base hub) (user : UserId)
    (bytes : List UInt8) :
    (setAvatar primitives user bytes clock).Ends (fun _ after => after.core = base.core)
      (fun _ after => Idle clock base after) hub := by
  refine .bind (.require (fun _ => ?_) idle)
  refine .bind (idle.mustTake_ends (fun _ idle => ?_) fun _ idle => idle)
  refine .bind (idle.write_ends (fun before idle => ?_) fun _ idle => idle)
  have idle := idle.deleteUnusedBlobs
  refine .bind (idle.write_ends (fun before idle => .pure idle.core) fun _ idle => idle)

theorem getAvatar_ends (idle : Idle clock base hub) (hash : Hash) :
    (getAvatar hash).Ends (fun _ after => after.core = base.core)
      (fun _ after => Idle clock base after) hub := by
  refine .bind (idle.read_ends (fun after idle => ?_) fun _ idle => idle)
  exact .map (.okOr (fun _ _ => idle.core) idle)

/-! ### Encryption keys and media -/

/-- What storing a user's encryption key has come to, told to their room or not. -/
def Rekeys (core : Core) (user : UserId) (encryptionKey : SignedEncryptionKey) (next : Core) :
    Prop :=
  core.Does (.storeKey user encryptionKey) next ∨ core.Does (.renewKey user encryptionKey) next ∨
    core.Does (.rekey user encryptionKey) next

/-- The key a user sends passes every check, and the database stores it. -/
structure StoresKey (primitives : Primitives) (clock : Clock) (hub : Hub) (session : Session)
    (user : UserId) (encryptionKey : SignedEncryptionKey) : Prop where
  inRange : clock.unixNow < encryptionKey.notAfter ∧
    encryptionKey.notAfter ≤ clock.unixNow + maxEncryptionKeyLifetime
  other : session.row.encryptionKey ≠ some encryptionKey
  signed : primitives.verify session.row.pubkey
    (encryptionKeyMessage hub.fingerprint user encryptionKey.notAfter encryptionKey.key)
    encryptionKey.sig = true
  allowed : session.row.encryptionKey.isSome →
    ((hub.allowances .encryptionKeyChanges).take user 1 clock.now).1 = true
  written : hub.faults.head? ≠ some true

/-- A member's key is stored but new to their room, whose epoch then can't be raised. -/
def HalfRekeys (primitives : Primitives) (clock : Clock) (hub : Hub) (user : UserId)
    (encryptionKey : SignedEncryptionKey) : Prop :=
  ∃ session room, hub.sessions.lookup user = some session ∧ session.room = some room ∧
    (∀ stored, session.row.encryptionKey = some stored → stored.key ≠ encryptionKey.key) ∧
    StoresKey primitives clock hub session user encryptionKey ∧
    EpochsStuck hub [room] hub.faults.tail

/-- How a stored key reaches its user's room, whose epoch a `fresh` one raises. -/
def tellKey (room : Option RoomId) (fresh : Bool) : HubM Response :=
  match room with
  | none => pure .ok
  | some room => do
    onlyIf fresh (bumpEpochs [room])
    change (broadcastPeers room none)
    pure .ok

/-- A refused encryption key is stored exactly when it is a new one and the epoch of its
user's room could not be raised. -/
theorem setEncryptionKey_ends (primitives : Primitives) (hub : Hub) (user : UserId)
    (encryptionKey : SignedEncryptionKey) :
    (setEncryptionKey primitives user encryptionKey clock).Ends
      (fun _ after => after.core = hub.core ∨ Rekeys hub.core user encryptionKey after.core)
      (fun _ after =>
        ¬ HalfRekeys primitives clock hub user encryptionKey ∧ Idle clock hub after ∨
        HalfRekeys primitives clock hub user encryptionKey ∧
          hub.core.Does (.halfKey user encryptionKey) after.core) hub := by
  have idle : Idle clock hub hub := Idle.refl hub
  refine .bind (.bind (.current (.okOr_cases (fun session present => ?_) fun missing => ?_)))
  rotate_left
  · refine .inl ⟨fun ⟨session, _, there, _⟩ => ?_, idle⟩
    rw [missing] at there
    cases there
  have stores : HalfRekeys primitives clock hub user encryptionKey →
      StoresKey primitives clock hub session user encryptionKey := by
    rintro ⟨other, _, there, _, _, stores, _⟩
    rw [present] at there
    exact Option.some.inj there ▸ stores
  have found : hub.core.seats.lookup user = some session.toSeat := by
    rw [core_seats, seats_lookup, present, Option.map_some]
  refine .bind (.require_cases (fun inRange => ?_) fun outside => .inl ⟨fun half => ?_, idle⟩)
  rotate_left
  · exact absurd (decide_eq_true (stores half).inRange) (Bool.eq_false_iff.mp outside)
  dsimp only
  split
  · exact .pure (Or.inl idle.core)
  rename_i other
  refine .bind (.current (.bind (.require_cases (fun signed => ?_) fun unsigned =>
    Or.inl ⟨fun half => ?_, idle⟩)))
  rotate_left
  · exact absurd (stores half).signed (Bool.eq_false_iff.mp unsigned)
  have storing : ∀ taken : Hub, Idle clock hub taken → taken.faults = hub.faults →
      (session.row.encryptionKey.isSome →
        ((hub.allowances .encryptionKeyChanges).take user 1 clock.now).1 = true) → Ends (do
      write (Database.setEncryptionKey user encryptionKey)
      change (takeKey user encryptionKey)
      tellKey session.room
        (session.row.encryptionKey.all fun stored => stored.key ≠ encryptionKey.key))
      (fun _ after => after.core = hub.core ∨ Rekeys hub.core user encryptionKey after.core)
      (fun _ after =>
        ¬ HalfRekeys primitives clock hub user encryptionKey ∧ Idle clock hub after ∨
        HalfRekeys primitives clock hub user encryptionKey ∧
          hub.core.Does (.halfKey user encryptionKey) after.core) taken := by
    intro taken idle sameFaults allowed
    refine .bind (call_ends (fun works => .bind (.change ?_)) fun fails =>
      .inl ⟨fun half => (stores half).written (sameFaults ▸ fails), idle.withFaults _⟩)
    have stored : (takeKey user encryptionKey
        { taken with
          db := taken.db.setEncryptionKey user encryptionKey
          faults := taken.faults.tail }).core = hub.core.storeKey user encryptionKey := by
      refine (core_modifySession _ user (fun seat =>
        { seat with row := { seat.row with encryptionKey := some encryptionKey } })
        fun _ => rfl).trans ?_
      rw [← idle.core]
      rfl
    have faults : (takeKey user encryptionKey
        { taken with
          db := taken.db.setEncryptionKey user encryptionKey
          faults := taken.faults.tail }).faults = hub.faults.tail :=
      congrArg List.tail sameFaults
    generalize takeKey user encryptionKey _ = after at stored faults
    have seated : hub.core.roomOf user = session.room := by
      rw [Core.roomOf, found, Option.bind_some]
    unfold tellKey
    split
    · rename_i outside
      exact .pure (.inr (.inl ⟨seated.trans outside, stored⟩))
    · rename_i room inside
      have seated : hub.core.roomOf user = some room := seated.trans inside
      refine .bind (.onlyIf (fun fresh => ?_) fun known => .bind (.change (.pure ?_)))
      · have fresh : ∀ stored, session.row.encryptionKey = some stored →
            stored.key ≠ encryptionKey.key := by
          intro stored has same
          rw [has] at fresh
          simp [same] at fresh
        refine (bumpEpochs_exactly clock after [room]).mono ?_ ?_
        · rintro _ raised ⟨_, canRaise, core, _⟩
          refine .bind (.change (.pure (Or.inr (.inr (.inr ⟨?_, ?_⟩)))))
          · show hub.core.CanRaise (hub.core.roomOf user).toList
            rw [seated]
            rw [stored] at canRaise
            exact canRaise
          · rw [core_broadcastPeers, core, stored]
            show _ = (hub.core.roomOf user).toList.foldl _ _
            rw [seated]
            rfl
        · rintro _ left ⟨idle, stuck⟩
          refine .inr ⟨⟨session, room, present, inside, fresh, ?_, ?_⟩, ?_⟩
          · exact ⟨of_decide_eq_true inRange, other, signed, allowed, sameFaults ▸ works⟩
          · unfold EpochsStuck at stuck ⊢
            rw [stored, faults] at stuck
            exact stuck
          · refine ⟨⟨_, found, by rw [inside]; rfl, fresh⟩, ?_⟩
            rw [idle.core, stored]
            rfl
      · refine .inr (.inr (.inl ⟨?_, ?_⟩))
        · cases has : session.row.encryptionKey with
          | none =>
            rw [has] at known
            cases known
          | some other =>
            rw [has] at known
            exact ⟨_, other, found, has, by simpa using known⟩
        · rw [core_broadcastPeers, stored]
          show _ = (hub.core.roomOf user).toList.foldl _ _
          rw [seated]
          rfl
  refine .bind (.onlyIf (fun has => ?_) fun new => storing hub idle rfl fun has => ?_)
  · refine .bind (.take (.require_cases (fun taken => ?_) fun refused =>
      .inl ⟨fun half => ?_, idle.withAllowance _ _⟩))
    rotate_left
    · exact absurd ((stores half).allowed has) (Bool.eq_false_iff.mp refused)
    exact storing _ (idle.withAllowance _ _) rfl fun _ => taken
  · rw [new] at has
    cases has

theorem core_applyMedia {hub : Hub} {user : UserId} {room : RoomId} {seat : Seat}
    (found : hub.core.seats.lookup user = some seat) (inside : seat.room = some room)
    (applied : MediaState) :
    (hub.applyMedia user room seat.media applied).core = hub.core.apply (.media user applied) := by
  have seated : (hub.modifySession user fun session => { session with media := applied }).core =
      hub.core.withSeat user fun seat => { seat with media := applied } :=
    core_modifySession hub user _ fun _ => rfl
  have room : hub.core.roomOf user = some room := by
    rw [Core.roomOf, found, Option.bind_some, inside]
  unfold applyMedia Core.apply Core.setMedia
  dsimp only
  rw [core_announcePresence, found, room, Option.map_some, Option.getD_some, ← seated]
  generalize hub.modifySession user _ = hub
  rw [apply_ite core, core_rebuildRoutes, apply_ite core, core_broadcastPeers]
  rfl

theorem finishMedia_ends (idle : Idle clock base hub) {user : UserId} {room : RoomId} {seat : Seat}
    (found : base.core.seats.lookup user = some seat) (inside : seat.room = some room)
    {media : MediaState} {full : Bool} (limited : Bool)
    (space : media.share.isSome → seat.media.share.isNone → full = false →
      base.core.sharesIn room < maxRoomShares) :
    (finishMedia user room seat.media media full limited).Ends
      (fun _ after => ∃ applied, base.core.Does (.media user applied) after.core)
      (fun _ after => ∃ applied, base.core.Does (.media user applied) after.core) hub := by
  unfold finishMedia
  dsimp only
  generalize applies : (if full ∨ limited then seat.media.share else media.share) = share
  have does : base.core.Does (.media user { media with share })
      (hub.applyMedia user room seat.media { media with share }).core := by
    refine ⟨⟨seat, room, found, inside, fun shares => ?_⟩, ?_⟩
    · by_cases had : seat.media.share.isSome
      · exact .inl had
      · right
        rw [← applies] at shares
        split at shares
        · exact absurd shares had
        · rename_i accepted
          rw [not_or, Bool.not_eq_true] at accepted
          exact space shares (by simpa using had) accepted.1
    · rw [← idle.core] at found ⊢
      exact core_applyMedia found inside _
  refine .bind (.change (.bind (.require (fun _ => .bind (.require (fun _ => .pure ?_) ?_)) ?_)))
  · exact ⟨_, does⟩
  · exact ⟨_, does⟩
  · exact ⟨_, does⟩

theorem Idle.limitShare (idle : Idle clock base hub) (counted : Bool) (user : UserId)
    (now : Instant) : Idle clock base (hub.limitShare counted user now).2 := by
  unfold Hub.limitShare
  split
  · exact idle.withAllowance _ _
  · exact idle

/-- Whatever of a media state is refused, the rest has applied. -/
theorem setMedia_ends (idle : Idle clock base hub) (user : UserId) (media : MediaState) :
    (setMedia user media clock).Ends
      (fun _ after => ∃ applied, base.core.Does (.media user applied) after.core)
      (fun _ after => Idle clock base after ∨
        ∃ applied, base.core.Does (.media user applied) after.core) hub := by
  refine .bind (idle.currentRoom_ends (fun room inside => ?_) fun _ => .inl idle)
  refine .bind (idle.session_ends (fun session found => .bind (.current (.bind (.take ?_))))
    (.inl idle))
  have seated : session.room = some room := by
    rw [Core.roomOf, found, Option.bind_some] at inside
    exact inside
  refine (finishMedia_ends (idle.limitShare _ user clock.now) found seated _ ?_).mono
    (fun _ _ done => done) fun _ _ done => .inr done
  intro shares fresh space
  unfold sharesFull at space
  rw [← idle.core]
  simp only [shares, fresh, true_and, decide_eq_false_iff_not, Nat.not_le] at space
  exact space

theorem core_askKeyframe (hub : Hub) (mediaId : MediaId) (kind : Recovery) (now : Instant) :
    (hub.askKeyframe mediaId kind now).core = hub.core := by
  unfold askKeyframe
  split
  · dsimp only
    split
    · exact core_emitTo _ _ fun _ => rfl
    · rfl
  · rfl

/-- A loop whose steps leave the core alone leaves it alone. -/
theorem core_foldl {Item : Type} {step : Hub → Item → Hub}
    (quiet : ∀ hub item, (step hub item).core = hub.core) (items : List Item) (hub : Hub) :
    (items.foldl step hub).core = hub.core := by
  induction items generalizing hub with
  | nil => rfl
  | cons item rest inductionHypothesis => exact (inductionHypothesis _).trans (quiet hub item)

theorem setWatched_ends (idle : Idle clock base hub) (user : UserId) (ids : List MediaId) :
    (setWatched user ids clock).Ends
      (fun _ after => base.core.Does (.watch user ids) after.core)
      (fun _ after => Idle clock base after) hub := by
  refine .bind (.require (fun _ => ?_) idle)
  refine .bind (idle.currentRoom_ends (fun room inside => .bind (.current ?_)) fun _ => idle)
  refine .bind (.require (fun allowed => ?_) idle)
  refine .bind (idle.session_ends (fun session found => ?_) idle)
  refine .bind (.change (.bind (.change (.bind (.change (.pure ⟨?_, ?_⟩))))))
  · have seated : session.room = some room := by
      rw [Core.roomOf, found, Option.bind_some] at inside
      exact inside
    refine ⟨_, room, found, seated, fun id member => ?_⟩
    obtain ⟨⟨owner, kind⟩, track, both⟩ :=
      (Option.any_eq_true _ _).mp (List.all_eq_true.mp allowed id member)
    obtain ⟨other, there⟩ := of_decide_eq_true both
    obtain ⟨sharer, present, here⟩ := (Option.any_eq_true _ _).mp there
    refine ⟨owner, kind, ?_, other, ?_⟩
    · rw [← idle.core]
      exact track
    · rw [← idle.core, Core.roomOf, core_seats, seats_lookup, present]
      exact of_decide_eq_true here
  · rw [core_foldl fun hub id => core_askKeyframe hub id .idr clock.now, core_rebuildRoutes,
      core_modifySession _ user (fun seat => { seat with watching := ids }) fun _ => rfl, idle.core]
    rfl

theorem requestKeyframe_ends (idle : Idle clock base hub) (user : UserId) (mediaId : MediaId)
    (kind : Recovery) :
    (requestKeyframe user mediaId kind clock).Ends (fun _ after => after.core = base.core)
      (fun _ after => Idle clock base after) hub := by
  refine .bind (idle.session_ends (fun session found => ?_) idle)
  refine .bind (.require (fun _ => .bind (.current (.bind (.require (fun _ => ?_) idle)))) idle)
  refine .bind (.change (.pure ?_))
  rw [core_askKeyframe, idle.core]

theorem core_flushKeyframes (hub : Hub) (clock : Clock) :
    (hub.flushKeyframes clock).core = hub.core := by
  unfold flushKeyframes
  dsimp only
  rw [core_foldl]
  · rfl
  · intro hub request
    split
    · exact core_emitTo hub _ fun _ => rfl
    · rfl

theorem checkWrapped_ends (user : UserId) (members seen : Finset UserId)
    (wrapped : List (UserId × List UInt8)) :
    (checkWrapped user members seen wrapped).Ends (fun _ after => after = hub)
      (fun _ after => after = hub) hub := by
  induction wrapped generalizing seen with
  | nil => exact .pure rfl
  | cons entry rest inductionHypothesis =>
    exact .bind (.require (fun _ => .bind (.require (fun _ => inductionHypothesis _) rfl)) rfl)

theorem publishKey_ends (idle : Idle clock base hub) (user : UserId) (epoch : Epoch)
    (wrapped : List (UserId × List UInt8)) :
    (publishKey user epoch wrapped).Ends (fun _ after => after.core = base.core)
      (fun _ after => Idle clock base after) hub := by
  refine .bind (idle.currentRoom_ends (fun room _ => ?_) fun _ => idle)
  refine .bind (idle.roomEntry_ends (fun entry _ => ?_) idle)
  refine .bind (.require (fun _ => ?_) idle)
  refine .bind ((checkWrapped_ends user entry.members ∅ wrapped).mono ?_ ?_)
  · rintro _ _ rfl
    refine .bind (.change (.pure ?_))
    rw [core_foldl fun hub _ => core_emitTo hub _ fun _ => rfl, idle.core]
  · rintro _ _ rfl
    exact idle

/-! ### Rooms -/

theorem roomToCreate_ends {ok : String → Hub → Prop} {failed : Refusal → Hub → Prop}
    (idle : Idle clock base hub) {user : UserId} {name : String} (onOk : ∀ name, ok name hub)
    (onError : ∀ refusal, failed refusal hub) :
    (roomToCreate user name).Ends ok failed hub := by
  refine .bind (idle.role_ends (fun _ _ => .bind (.require (fun _ => ?_) (onError _))) (onError _))
  refine .bind (checkedName_ends ?_ onError)
  exact fun name => .bind (.current (.bind (.require (fun _ => .pure (onOk name)) (onError _))))

theorem addRoom_ends (idle : Idle clock base hub) (name : String)
    (passwordHash : Option String) :
    (addRoom name passwordHash).Ends
      (fun _ after => base.core.Does (.addRoom name passwordHash) after.core)
      (fun _ after => Idle clock base after) hub := by
  refine .bind (idle.call_ends (fun before idle => ?_) fun _ idle => idle)
  refine .bind (.change (.bind (.change (.pure ⟨trivial, ?_⟩))))
  rw [core_emitAll _ fun _ => rfl, ← idle.core]
  rfl

theorem createRoom_ends (idle : Idle clock base hub) (user : UserId) (name : String)
    (password : Option String) :
    (createRoom user name password).Ends
      (fun _ after => after.core = base.core ∨
        ∃ name passwordHash, base.core.Does (.addRoom name passwordHash) after.core)
      (fun _ after => Idle clock base after) hub := by
  refine .bind (roomToCreate_ends idle ?_ fun _ => idle)
  intro name
  split
  · exact .bind (.require (fun _ => .pure (.inl idle.core)) idle)
  · refine .map ((addRoom_ends idle name none).mono ?_ fun _ _ idle => idle)
    exact fun _ _ does => .inr ⟨name, none, does⟩

theorem renameRoom_ends (idle : Idle clock base hub) (user : UserId) (room : RoomId)
    (name : String) :
    (renameRoom user room name).Ends
      (fun _ after => ∃ name, base.core.Does (.renameRoom room name) after.core)
      (fun _ after => Idle clock base after) hub := by
  refine .bind (idle.role_ends (fun _ _ => .bind (.require (fun _ => ?_) idle)) idle)
  refine .bind (checkedName_ends ?_ fun _ => idle)
  intro name
  refine .bind (idle.roomEntry_ends (fun entry _ => ?_) idle)
  refine .bind (idle.write_ends (fun before idle => ?_) fun _ idle => idle)
  refine .bind (.change (.bind (.change (.pure ⟨name, trivial, ?_⟩))))
  rw [core_emitAll _ fun _ => rfl, ← idle.core]
  rfl

theorem storeRoomPassword_ends (idle : Idle clock base hub) (room : RoomId)
    (passwordHash : Option String) :
    (storeRoomPassword room passwordHash).Ends
      (fun _ after => base.core.Does (.lock room passwordHash) after.core)
      (fun _ after => Idle clock base after) hub := by
  refine .bind (idle.roomEntry_ends (fun entry found => ?_) idle)
  refine .bind (idle.write_ends (fun before idle => ?_) fun _ idle => idle)
  refine .bind (.change (.bind (.change (.pure ⟨trivial, ?_⟩))))
  rw [core_emitAll _ fun _ => rfl]
  rw [← idle.core] at found ⊢
  show _ = before.core.lock room passwordHash
  unfold Core.lock
  rw [found]
  rfl

theorem mayManageRoom_ends {ok : Unit → Hub → Prop} {failed : Refusal → Hub → Prop}
    (idle : Idle clock base hub) {user : UserId} {room : RoomId} (onOk : ok () hub)
    (onError : ∀ refusal, failed refusal hub) :
    (mayManageRoom user room).Ends ok failed hub := by
  refine .bind (idle.role_ends (fun _ _ => .bind (.require (fun _ => ?_) (onError _))) (onError _))
  exact .bind (idle.roomEntry_ends (fun _ _ => .pure onOk) (onError _))

theorem setRoomPassword_ends (idle : Idle clock base hub) (user : UserId) (room : RoomId)
    (password : Option String) :
    (setRoomPassword user room password).Ends
      (fun handled after => match handled with
        | .done _ => base.core.Does (.lock room none) after.core
        | .pending _ => after.core = base.core)
      (fun _ after => Idle clock base after) hub := by
  refine .bind (mayManageRoom_ends idle ?_ fun _ => idle)
  split
  · exact .bind (.require (fun _ => .pure idle.core) idle)
  · exact .map (storeRoomPassword_ends idle room none)

/-- Moving users out one after another ousts them, as far as it comes. -/
theorem placeOut_ends (list : List UserId) (hub : Hub) :
    (forEach (fun member => do let _ ← place member none clock) list).Ends
      (fun _ after => Core.Leads Turn.ousts hub.core after.core ∧
        ∀ member ∈ list, after.core.roomOf member = none)
      (fun _ after => Core.Leads Turn.ousts hub.core after.core) hub := by
  induction list generalizing hub with
  | nil => exact .pure ⟨.done _, nofun⟩
  | cons member rest inductionHypothesis =>
    refine .bind (.bind ((place_ends (Idle.refl hub : Idle clock hub hub) member none).mono ?_ ?_))
    · rintro placement moved ⟨_, out⟩
      have first : Core.Leads Turn.ousts hub.core moved.core ∧
          moved.core.roomOf member = none := by
        obtain ⟨outside, same⟩ | ⟨canPlace, same⟩ := out
        · rw [same]
          exact ⟨.done _, outside⟩
        · rw [same]
          exact ⟨.one (.leave member) trivial canPlace, Core.roomOf_place_none _ member⟩
      refine .pure ((inductionHypothesis moved).mono ?_ ?_)
      · rintro _ after ⟨others, out⟩
        refine ⟨first.1.trans others, fun other member' => ?_⟩
        rcases List.mem_cons.mp member' with rfl | later
        · exact others.roomOf_eq_none first.2
        · exact out other later
      · exact fun _ after others => first.1.trans others
    · rintro _ after ⟨_, idle⟩
      rw [(idle rfl).core]
      exact .done _

theorem clearRoom_ends (hub : Hub) (members : Finset UserId) (clock : Clock) :
    (clearRoom members clock).Ends
      (fun _ after => Core.Leads Turn.ousts hub.core after.core ∧
        ∀ member ∈ members, after.core.roomOf member = none)
      (fun _ after => Core.Leads Turn.ousts hub.core after.core) hub := by
  refine (placeOut_ends (ascending members) hub).mono ?_ fun _ _ leads => leads
  exact fun _ after out => ⟨out.1, fun member inside =>
    out.2 member ((mem_ascending members member).mpr inside)⟩

theorem deleteRoom_ends (idle : Idle clock base hub) (user : UserId) (room : RoomId) :
    (deleteRoom user room clock).Ends
      (fun _ after => ∃ entry cleared, base.core.rooms.lookup room = some entry ∧
        Core.Leads Turn.ousts base.core cleared ∧
        (∀ member ∈ entry.members, cleared.roomOf member = none) ∧
        after.core = cleared.apply (.dropRoom room))
      (fun _ after => Core.Leads Turn.ousts base.core after.core) hub := by
  have unmoved : Core.Leads Turn.ousts base.core hub.core := idle.core ▸ .done _
  refine .bind (idle.role_ends (fun seat _ => .bind (.require (fun _ => ?_) unmoved)) unmoved)
  refine .bind (idle.roomEntry_ends (fun entry found => .bind (.current ?_)) unmoved)
  refine .bind (.require (fun _ => ?_) unmoved)
  refine .bind ((clearRoom_ends hub entry.members clock).mono ?_ ?_)
  · rintro _ cleared ⟨leads, out⟩
    rw [idle.core] at leads
    refine .bind ((Idle.refl cleared : Idle clock _ _).write_ends (fun before idle => ?_)
      fun _ idle => ?_)
    · refine .bind (.change (.bind (.change (.pure ⟨entry, _, found, leads, out, ?_⟩))))
      rw [core_emitAll _ fun _ => rfl, ← idle.core]
      rfl
    · rw [idle.core]
      exact leads
  · intro _ after leads
    rw [idle.core] at leads
    exact leads

/-! ### Invites and users -/

theorem insertFresh_ends (idle : Idle clock base hub) (mintedBy : Option UserId)
    (expiresAt : Nat) (draws : Nat → Fin (idChars + secretChars) → UInt8) (attempts : Nat) :
    (insertFresh mintedBy expiresAt draws attempts).Ends (fun _ after => after.core = base.core)
      (fun _ after => Idle clock base after) hub := by
  induction attempts generalizing hub with
  | zero => exact .fail idle
  | succ attempts inductionHypothesis =>
    refine .bind (idle.call_ends (fun before idle => ?_) fun _ idle => idle)
    unfold Database.insertInvite
    split
    · exact inductionHypothesis idle
    · exact .bind (.change (.pure idle.core))

theorem mintInvite_ends (idle : Idle clock base hub) (mintedBy : Option UserId)
    (draws : Nat → Fin (idChars + secretChars) → UInt8) :
    (mintInvite mintedBy draws clock.unixNow).Ends (fun _ after => after.core = base.core)
      (fun _ after => Idle clock base after) hub := by
  refine .bind (idle.write_ends (fun before idle => ?_) fun _ idle => idle)
  refine .bind ((insertFresh_ends idle.purgeExpiredInvites _ _ _ _).mono ?_ fun _ _ idle => idle)
  exact fun _ _ same => .pure same

theorem createInvite_ends (idle : Idle clock base hub) (user : UserId)
    (draws : Nat → Fin (idChars + secretChars) → UInt8) :
    (createInvite user draws clock).Ends (fun _ after => after.core = base.core)
      (fun _ after => Idle clock base after) hub := by
  refine .bind (idle.role_ends (fun seat _ => .bind ?_) idle)
  have minting : ∀ hub, Idle clock base hub → Ends (do
      let minted ← mintInvite (some user) draws clock.unixNow
      let id := minted.1.id
      let secret := minted.1.secret
      pure (Response.invite s!"{id}-{secret}" minted.2))
      (fun _ after => after.core = base.core) (fun _ after => Idle clock base after) hub := by
    intro hub idle
    refine .bind ((mintInvite_ends idle (some user) draws).mono ?_ fun _ _ idle => idle)
    exact fun _ _ same => .pure same
  unfold checkInviteCap
  split
  · exact .pure (minting hub idle)
  · exact .bind (idle.read_ends (fun _ idle => .require (fun _ => minting _ idle) idle)
      fun _ idle => idle)

theorem listUsers_ends (idle : Idle clock base hub) (user : UserId) :
    (listUsers user).Ends (fun _ after => after.core = base.core)
      (fun _ after => Idle clock base after) hub := by
  refine .bind (idle.role_ends (fun _ _ => .bind (.require (fun _ => ?_) idle)) idle)
  exact .bind (idle.read_ends (fun _ idle => .pure idle.core) fun _ idle => idle)

/-- `user` is signed in as an admin, and each of `targets` is a stored user of lower rank. -/
def Outranks (core : Core) (user : UserId) (targets : List UserId) : Prop :=
  ∃ seat, core.seats.lookup user = some seat ∧ seat.row.role = .admin ∧
    ∀ target ∈ targets, ∃ row, core.users.lookup target = some row ∧
      row.role.rank < Role.admin.rank

theorem setRole_ends (idle : Idle clock base hub) (user target : UserId) (role : Role) :
    (setRole user target role).Ends
      (fun _ after => base.core.Does (.role target role) after.core ∧
        Outranks base.core user [target] ∧ role ≠ .admin)
      (fun _ after => Idle clock base after) hub := by
  refine .bind (idle.role_ends (fun seat seated => .bind (.require (fun _ => ?_) idle)) idle)
  refine .bind (idle.storedUser_ends (fun _ row idle stored => ?_) fun _ _ idle => idle)
  refine .bind (.require (fun allowed => ?_) idle)
  refine .bind (idle.write_ends (fun before idle => ?_) fun _ idle => idle)
  obtain ⟨admin, below, lower⟩ := of_decide_eq_true allowed
  rw [admin] at below lower
  refine .bind (.change (.pure ⟨⟨trivial, ?_⟩, ⟨seat, seated, admin, ?_⟩, ?_⟩))
  · rw [core_roleChanged, ← idle.core]
    rfl
  · exact fun _ member => List.mem_singleton.mp member ▸ ⟨row, stored, below⟩
  · rintro rfl
    exact absurd lower (Nat.lt_irrefl _)

theorem kickFromRoom_ends (idle : Idle clock base hub) (user target : UserId) (room : RoomId) :
    (kickFromRoom user target room clock).Ends
      (fun _ after => base.core.roomOf target = some room ∧
        Core.Leads Turn.ousts (base.core.remember target none) after.core ∧
        after.core.roomOf target = none)
      (fun _ after => Idle clock base after) hub := by
  refine .bind (idle.role_ends (fun _ _ => .bind (.current (.bind (.okOr ?_ idle)))) idle)
  intro session found
  refine .bind (.require (fun _ => .bind (.change (.pure ⟨?_, ?_⟩))) idle)
  · obtain ⟨found, inside⟩ := Option.filter_eq_some_iff.mp found
    rw [← idle.core, Core.roomOf, core_seats, seats_lookup, found]
    exact of_decide_eq_true inside
  · have left := core_leaveRoom (hub.remember target none) target clock
    rw [core_remember, idle.core] at left
    show Core.Leads _ _ (emitTo _ _ _).core ∧ (emitTo _ _ _).core.roomOf target = none
    rw [core_emitTo _ _ fun _ => rfl]
    exact left

theorem core_dropAccount (hub : Hub) (id : UserId) (clock : Clock) :
    Core.Leads Turn.ousts hub.core (dropAccount clock hub id).core ∧
      id ∉ (dropAccount clock hub id).core.seats := by
  obtain ⟨leads, gone⟩ :=
    core_evict (hub.remember id none) id "you were removed from this server" clock
  unfold dropAccount
  dsimp only
  rw [core_emitUserListChange _ fun _ => rfl]
  rw [core_remember] at leads
  refine ⟨?_, gone⟩
  exact (Core.Leads.one (.remember id none) trivial nofun).trans leads

/-- Removing accounts takes every one of them off the server. -/
theorem core_dropAccounts (hub : Hub) (ids : List UserId) (clock : Clock) :
    Core.Leads Turn.ousts hub.core (ids.foldl (dropAccount clock) hub).core ∧
      ∀ id ∈ ids, id ∉ (ids.foldl (dropAccount clock) hub).core.seats := by
  induction ids generalizing hub with
  | nil => exact ⟨.done _, nofun⟩
  | cons id rest inductionHypothesis =>
    obtain ⟨first, gone⟩ := core_dropAccount hub id clock
    obtain ⟨others, allGone⟩ := inductionHypothesis (dropAccount clock hub id)
    refine ⟨first.trans others, fun other member => ?_⟩
    rcases List.mem_cons.mp member with rfl | later
    · exact others.notMem_seats gone
    · exact allGone other later

theorem removeAccounts_ends (idle : Idle clock base hub) (ids : List UserId) :
    (removeAccounts ids clock).Ends (fun _ after => base.core.Removes ids after.core)
      (fun _ after => Idle clock base after) hub := by
  refine .bind (idle.write_ends (fun before idle => .change ?_) fun _ idle => idle)
  have removed := core_dropAccounts
    { before with db := Database.removeUsers ids before.db } ids clock
  rw [core_removeUsers, idle.core] at removed
  exact removed

/-- How many stored users are admins. -/
def admins (core : Core) : Nat := (core.users.retain fun _ row => row.role = .admin).keys.card

/-- A user removes their own account, and isn't the only admin. -/
def Quits (core : Core) (user : UserId) (ids : List UserId) : Prop :=
  ids = [user] ∧ ∃ seat, core.seats.lookup user = some seat ∧
    (seat.row.role = .admin → admins core ≠ 1)

theorem removeUser_ends (idle : Idle clock base hub) (user target : UserId) (cascade : Bool) :
    (removeUser user target cascade clock).Ends
      (fun _ after => ∃ ids, base.core.Removes ids after.core ∧
        (Quits base.core user ids ∨ Outranks base.core user ids))
      (fun _ after => Idle clock base after) hub := by
  refine .bind (idle.role_ends (fun seat seated => ?_) idle)
  have removing : ∀ (leaving : Bool) (hub : Hub), Idle clock base hub →
      (leaving = true → target = user ∧ cascade = false ∧
        (seat.row.role = .admin → admins base.core ≠ 1)) → Ends (do
      permit (leaving || canRemove seat.row.role .user)
      let removed ← accountsToRemove target cascade
      forEach
        (fun id => do
          let row ← storedUser id
          permit (leaving || canRemove seat.row.role row.role))
        removed
      removeAccounts removed clock
      pure Response.ok)
      (fun _ after => ∃ ids, base.core.Removes ids after.core ∧
        (Quits base.core user ids ∨ Outranks base.core user ids))
      (fun _ after => Idle clock base after) hub := by
    intro leaving hub idle fair
    refine .bind (.require (fun permitted => .bind ?_) idle)
    have checked : ∀ (removed : List UserId) (hub : Hub), Idle clock base hub →
        (leaving = true → removed = [user]) → Ends (do
        forEach
          (fun id => do
            let row ← storedUser id
            permit (leaving || canRemove seat.row.role row.role))
          removed
        removeAccounts removed clock
        pure Response.ok)
        (fun _ after => ∃ ids, base.core.Removes ids after.core ∧
          (Quits base.core user ids ∨ Outranks base.core user ids))
        (fun _ after => Idle clock base after) hub := by
      intro removed hub idle own
      have each : (forEach (fun id => do
            let row ← storedUser id
            permit (leaving || canRemove seat.row.role row.role)) removed).Ends
          (fun _ after => Idle clock base after ∧ ∀ id ∈ removed, leaving = true ∨
            ∃ row, base.core.users.lookup id = some row ∧ canRemove seat.row.role row.role = true)
          (fun _ => Idle clock base) hub := by
        refine .forEach_all (fun id hub idle => .bind (idle.storedUser_ends (fun _ row idle stored =>
          .require (fun passed => ⟨idle, ?_⟩) idle) fun _ _ idle => idle)) removed idle
        rw [Bool.or_eq_true] at passed
        exact passed.imp (fun left => left) fun allowed => ⟨row, stored, allowed⟩
      refine .bind (each.mono ?_ fun _ _ idle => idle)
      rintro _ after ⟨idle, shown⟩
      refine .bind ((removeAccounts_ends idle removed).mono ?_ fun _ _ idle => idle)
      refine fun _ _ removes => .pure ⟨removed, removes, ?_⟩
      cases left : leaving with
      | true => exact .inl ⟨own left, seat, seated, (fair left).2.2⟩
      | false =>
        rw [left] at permitted shown
        refine .inr ⟨seat, seated, (of_decide_eq_true permitted).1, fun id member => ?_⟩
        obtain ⟨row, stored, below⟩ := (shown id member).resolve_left nofun
        have below := of_decide_eq_true below
        exact ⟨row, stored, below.1 ▸ below.2⟩
    unfold accountsToRemove
    cases alone : cascade with
    | true =>
      refine idle.read_ends (fun _ idle => checked _ _ idle fun left => ?_) fun _ idle => idle
      exact absurd ((fair left).2.1.symm.trans alone) nofun
    | false => exact .pure (checked _ _ idle fun left => by rw [(fair left).1])
  refine .bind (.onlyIf (fun leavingAdmin => ?_) fun notLeavingAdmin => removing _ hub idle ?_)
  · refine .bind (idle.read_ends (fun after idle => .require (fun others => ?_) idle)
      fun _ idle => idle)
    refine removing _ _ idle fun leaving => ?_
    obtain ⟨same, alone⟩ := of_decide_eq_true leaving
    refine ⟨same, by simpa using alone, fun _ => ?_⟩
    rw [← idle.core]
    exact of_decide_eq_true others
  · intro leaving
    obtain ⟨same, alone⟩ := of_decide_eq_true leaving
    refine ⟨same, by simpa using alone, fun admin => absurd notLeavingAdmin ?_⟩
    rw [leaving, admin]
    exact nofun

theorem removeInactive_ends (idle : Idle clock base hub) :
    (removeInactive clock).Ends
      (fun _ after => after.core = base.core ∨ ∃ ids, base.core.Removes ids after.core)
      (fun _ after => Idle clock base after) hub := by
  refine .bind (idle.read_ends (fun _ idle => ?_) fun _ idle => idle)
  refine .onlyIf (fun _ => ?_) fun _ => .inl idle.core
  refine (removeAccounts_ends idle _).mono ?_ fun _ _ idle => idle
  exact fun _ _ removes => .inr ⟨_, removes⟩

/-! ### Enrollments -/

theorem claimTry_ends (idle : Idle clock base hub) (codeId : String) (now : Nat) :
    (claimTry codeId now).Ends (fun _ after => after.core = base.core)
      (fun _ after => Idle clock base after) hub := by
  unfold claimTry
  split
  · refine .bind (idle.read_ends (fun _ idle => ?_) fun _ idle => idle)
    split
    · exact .pure idle.core
    · refine .bind (idle.write_ends (fun _ idle => ?_) fun _ idle => idle)
      exact .bind (.change (.pure idle.core))
  · exact .pure idle.core

theorem core_finishRun (hub : Hub) (codeId : String) : (hub.finishRun codeId).2.core = hub.core := by
  unfold finishRun
  split
  · rfl
  · split <;> rfl

theorem core_endRun (hub : Hub) (codeId : String) (mintedBy : Option UserId) :
    (hub.endRun codeId mintedBy).core = hub.core := by
  have ended := core_finishRun hub codeId
  unfold endRun
  generalize hub.finishRun codeId = finished at ended
  obtain ⟨last, hub'⟩ := finished
  dsimp only at ended ⊢
  have idle : Idle ⟨0, 0⟩ hub' hub' := Idle.refl hub'
  have looked : Ends (read (Database.invite codeId)) (fun _ after => Idle ⟨0, 0⟩ hub' after)
      (fun _ after => Idle ⟨0, 0⟩ hub' after) hub' :=
    idle.read_ends (fun _ idle => idle) fun _ idle => idle
  split
  · split
    · rename_i found
      have idle := looked.of_ok found
      split
      · have deleted : Ends (write (Database.deleteInvite codeId))
            (fun _ after => after.core = hub.core) (fun _ after => after.core = hub.core) _ :=
          idle.write_ends (fun _ idle => idle.core.trans ended) fun _ idle => idle.core.trans ended
        have core := deleted.after
        split
        · rw [core_emitTo _ _ fun _ => rfl, core]
        · exact core
      · exact idle.core.trans ended
    · rename_i found
      have idle := looked.after
      rw [found] at idle
      exact idle.core.trans ended
  · exact ended

/-- An enrollment adds a user, makes one an admin, or leaves them as they were. -/
def Enrolls (core next : Core) : Prop :=
  next = core ∨ (∃ row, core.Does (.addUser row) next) ∨
    ∃ id, core.Does (.role id .admin) next

/-- What an enrollment does to the database. -/
theorem enroll_cases (pubkey : PublicKey) (codeId name : String) (now : Nat) (db : Database) :
    (Database.enroll pubkey codeId name now db = (none, db)) ∨
      (∃ id row, db.users.lookup id = some row ∧ Database.enroll pubkey codeId name now db =
        (some (.promoted id), Database.setRole id .admin (db.deleteInvite codeId))) ∨
      (∃ id, Database.enroll pubkey codeId name now db =
        (some (.returning id), db.deleteInvite codeId)) ∨
      ∃ row, row.id = db.lastUser + 1 ∧ Database.enroll pubkey codeId name now db =
        (some (.added row.id),
          { db.deleteInvite codeId with
            lastUser := db.lastUser + 1
            users := db.users.insert row.id row
            lastSeen := db.lastSeen.insert row.id now }) := by
  unfold Database.enroll
  split
  · exact .inl rfl
  · rename_i invite _
    dsimp only
    split
    · rename_i id row found
      have stored : db.users.lookup id = some row :=
        (Map.mem_toList _ _ _).mp (List.mem_of_find?_eq_some found)
      cases invite.mintedBy with
      | none =>
        by_cases lower : row.role.rank < Role.admin.rank
        · exact .inr (.inl ⟨id, row, stored, if_pos lower⟩)
        · exact .inr (.inr (.inl ⟨id, if_neg lower⟩))
      | some minter => exact .inr (.inr (.inl ⟨id, if_neg (Nat.not_lt_zero _)⟩))
    · let role : Role := if invite.mintedBy.isNone then .admin else .user
      exact .inr (.inr (.inr
        ⟨{ id := db.lastUser + 1, pubkey, encryptionKey := none, name, avatar := none, role
           invitedBy := invite.mintedBy, createdAt := now }, rfl, rfl⟩))

theorem enroll_ends (idle : Idle clock base hub) (pubkey : PublicKey) (codeId name : String)
    (startedAt : Nat) :
    (enroll pubkey codeId name startedAt).Ends (fun _ after => Enrolls base.core after.core)
      (fun _ after => Idle clock base after) hub := by
  refine .bind (idle.call_ends (fun before idle => ?_) fun _ idle => idle)
  rw [← idle.core]
  obtain same | ⟨id, row, found, same⟩ | ⟨id, same⟩ | ⟨row, next, same⟩ :=
    enroll_cases pubkey codeId name startedAt before.db
  · rw [same]
    exact .pure (.inl rfl)
  · rw [same]
    have stored : (Database.setRole id .admin (before.db.deleteInvite codeId)).users.lookup id =
        some { row with role := .admin } := by
      show (before.db.users.modify id _).lookup id = _
      rw [Map.lookup_modify_self, found, Option.map_some]
    refine .bind (.current (.bind (.change (.pure (.inr (.inr ⟨id, trivial, ?_⟩))))))
    dsimp only [Enrolled.id]
    rw [stored]
    exact core_roleChanged _ id .admin
  · rw [same]
    exact .bind (.current (.bind (.change (.pure (.inl rfl)))))
  · rw [same]
    have stored : (before.db.users.insert row.id row).lookup row.id = some row :=
      Finmap.lookup_insert _
    refine .bind (.current (.bind (.change (.pure (.inr (.inl ⟨row, next, ?_⟩))))))
    dsimp only [Enrolled.id]
    rw [stored]
    exact core_emitUserListChange _ fun _ => rfl

end Hub

end Throcc
