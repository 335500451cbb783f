/-
This file says what a step of the server does to its invites, and embeds the
enrollment runs: each claims a try of an invite, exchanges messages without the
hub lock, and enrolls by the invite's short code id before it ends.
-/

import Throcc.Codes
import Throcc.Ranks

namespace Throcc

namespace Hub

open Attempt

/-! ### Minting -/

/-- An invite under a drawn code. -/
def drawnInvite (mintedBy : Option UserId) (expiresAt : Nat)
    (code : Fin (idChars + secretChars) → UInt8) : InviteRow where
  codeId := (InviteCode.fromRandom code).id
  secret := (InviteCode.fromRandom code).secret
  mintedBy := mintedBy
  expiresAt := expiresAt
  failures := 0

/-- `attempt` draws the first code whose id is free. -/
def FirstFree (codes : Codes) (draws : Nat → Fin (idChars + secretChars) → UInt8)
    (attempts attempt : Nat) : Prop :=
  attempt < attempts ∧ (InviteCode.fromRandom (draws attempt)).id ∉ codes.invites ∧
    ∀ earlier, attempt < earlier → earlier < attempts →
      (InviteCode.fromRandom (draws earlier)).id ∈ codes.invites

theorem insertFresh_codes (mintedBy : Option UserId) (expiresAt : Nat)
    (draws : Nat → Fin (idChars + secretChars) → UInt8) (attempts : Nat) (hub : Hub) :
    (insertFresh mintedBy expiresAt draws attempts).Ends
      (fun _ after => ∃ attempt, FirstFree hub.codes draws attempts attempt ∧
        after.codes = hub.codes.mint (drawnInvite mintedBy expiresAt (draws attempt)))
      (fun _ after => after.codes = hub.codes) hub := by
  induction attempts generalizing hub with
  | zero => exact .fail rfl
  | succ attempts inductionHypothesis =>
    refine .bind (call_ends (fun _ => ?_) fun _ => rfl)
    unfold Database.insertInvite
    split
    · rename_i taken
      have inserted := inductionHypothesis { hub with faults := hub.faults.tail }
      refine inserted.mono ?_ fun _ _ same => same
      rintro _ after ⟨attempt, ⟨within, free, before⟩, same⟩
      refine ⟨attempt, ⟨Nat.lt_succ_of_lt within, free, fun earlier later below => ?_⟩, same⟩
      obtain least | same := Nat.lt_succ_iff_lt_or_eq.mp below
      · exact before earlier later least
      · exact same ▸ taken
    · rename_i free
      refine .bind (.change (.pure ⟨attempts, ⟨Nat.lt_succ_self _, free, ?_⟩, rfl⟩))
      exact fun earlier later below => absurd below (Nat.not_lt.mpr later)

theorem mintInvite_codes (mintedBy : Option UserId)
    (draws : Nat → Fin (idChars + secretChars) → UInt8) (now : Nat) (hub : Hub) :
    (mintInvite mintedBy draws now).Ends
      (fun _ after => ∃ attempt, FirstFree (hub.codes.purged now) draws mintAttempts attempt ∧
        after.codes = (hub.codes.purged now).mint
          (drawnInvite mintedBy (now + inviteLifetime) (draws attempt)))
      (fun _ after => after.codes = hub.codes ∨ after.codes = hub.codes.purged now) hub := by
  refine .bind (call_ends (fun _ => ?_) fun _ => .inl rfl)
  refine .bind ((insertFresh_codes mintedBy _ draws mintAttempts _).mono ?_ ?_)
  · exact fun _ _ minted => .pure minted
  · exact fun _ _ same => .inr same

theorem createInvite_codes (user : UserId) (draws : Nat → Fin (idChars + secretChars) → UInt8)
    (clock : Clock) (hub : Hub) :
    (createInvite user draws clock).Ends
      (fun _ after => ∃ attempt,
        FirstFree (hub.codes.purged clock.unixNow) draws mintAttempts attempt ∧
        after.codes = (hub.codes.purged clock.unixNow).mint
          (drawnInvite (some user) (clock.unixNow + inviteLifetime) (draws attempt)))
      (fun _ after => after.codes = hub.codes ∨ after.codes = hub.codes.purged clock.unixNow)
      hub := by
  have checked : ∀ cap : Option Nat, KeepsCodes (checkInviteCap user cap clock.unixNow) := by
    intro cap
    unfold checkInviteCap
    split
    · exact .pure
    · exact keeps_read.codes.bind fun _ => .require
  refine .bind ((keeps_role.codes.ends hub).mono (fun role after same => ?_) fun _ _ => .inl)
  refine .bind (((checked _).ends after).mono (fun _ last same' => ?_) fun _ _ same' =>
    .inl (same'.trans same))
  have minted := mintInvite_codes (some user) draws clock.unixNow last
  rw [same'.trans same] at minted
  exact .bind (minted.mono (fun _ _ minted => .pure minted) fun _ _ same => same)

/-! ### Removing users -/

/-- What removing users comes to: nothing, or their rows and their invites are gone. -/
def RemovesUsers (hub after : Hub) : Prop :=
  after.codes = hub.codes ∨ ∃ ids, after.codes = hub.codes.without ids ∧
    ∀ id ∈ ids, id ∉ after.db.users

/-- The invites and the stored users. -/
def accounts (hub : Hub) : Codes × Map UserId UserRow := (hub.codes, hub.db.users)

theorem invites_removeUsers (ids : List UserId) (db : Database) :
    (Database.removeUsers ids db).invites =
      ids.foldl (fun invites id => invites.retain fun _ invite => invite.mintedBy ≠ some id)
        db.invites := by
  unfold Database.removeUsers
  induction ids generalizing db with
  | nil => rfl
  | cons id rest inductionHypothesis => exact inductionHypothesis _

theorem quiet_dropAccounts {may : UserId → Prop} (hub : Hub) {ids : List UserId}
    (moves : ∀ id ∈ ids, may id) (clock : Clock) :
    Quiet may hub (ids.foldl (dropAccount clock) hub) := by
  refine quiet_foldl hub (fun hub id member => Quiet.trans ?_ (quiet_send _ _ rfl))
  refine (quiet_remember hub id none).trans ?_
  exact quiet_evict _ (moves id member) "you were removed from this server" clock

theorem removeAccounts_codes (ids : List UserId) (clock : Clock) (hub : Hub) :
    (removeAccounts ids clock).Ends (fun _ => RemovesUsers hub) (fun _ => RemovesUsers hub) hub := by
  refine .bind (call_ends (fun _ => .change ?_) fun _ => .inl rfl)
  refine .inr ⟨ids, ?_, fun id member => ?_⟩
  · refine (@quiet_dropAccounts (fun _ => True) _ ids (fun _ _ => trivial) clock).codes.trans ?_
    exact congrArg (fun invites => { hub.codes with invites }) (invites_removeUsers ids hub.db)
  · let removed : Hub := { hub with
      db := Database.removeUsers ids hub.db
      faults := hub.faults.tail }
    have users := Core.users_of_ousts (core_dropAccounts removed ids clock).1
    have core : removed.core = hub.core.apply (.removeUsers ids) := core_removeUsers hub ids
    have gone := hub.core.roleOf_removeUsers ids id
    rw [if_pos member, ← core] at gone
    have same : (ids.foldl (dropAccount clock) removed).db.users = removed.db.users := users
    rw [same]
    exact roleOf_eq_none.mp gone

/-- A computation that only looks, followed by one that may remove users. -/
theorem removesUsers_bind {Found Result : Type} {looking : HubM Found} {next : Found → HubM Result}
    {base hub : Hub} (looks : Keeps accounts looking) (same : accounts hub = accounts base)
    (removes : ∀ found after, accounts after = accounts base →
      (next found).Ends (fun _ => RemovesUsers base) (fun _ => RemovesUsers base) after) :
    (looking >>= next).Ends (fun _ => RemovesUsers base) (fun _ => RemovesUsers base) hub := by
  refine .bind ((looks.ends hub).mono (fun found after kept => ?_) fun _ _ kept => ?_)
  · exact removes found after (kept.trans same)
  · exact .inl (congrArg Prod.fst (kept.trans same))

theorem removeUser_codes (user target : UserId) (cascade : Bool) (clock : Clock) (hub : Hub) :
    (removeUser user target cascade clock).Ends (fun _ => RemovesUsers hub)
      (fun _ => RemovesUsers hub) hub := by
  have blind : ∀ (hub : Hub) (faults : List Bool),
      accounts { hub with faults } = accounts hub := fun _ _ => rfl
  refine removesUsers_bind looks_role rfl fun actor after same => ?_
  refine removesUsers_bind (.onlyIf ((reads blind).bind fun _ => .require)) same
    fun _ after same => ?_
  refine removesUsers_bind .require same fun _ after same => ?_
  refine removesUsers_bind (reads_accountsToRemove blind) same fun removed after same => ?_
  refine removesUsers_bind (.forEach fun _ _ => (reads_storedUser blind).bind fun _ => .require)
    same fun _ after same => ?_
  have removes := removeAccounts_codes removed clock after
  have based : ∀ last, RemovesUsers after last → RemovesUsers hub last := by
    unfold RemovesUsers
    rw [show after.codes = hub.codes from congrArg Prod.fst same]
    exact fun _ => id
  exact .bind (removes.mono (fun _ last removes => .pure (based last removes))
    fun _ last removes => based last removes)

theorem removeInactive_codes (clock : Clock) (hub : Hub) :
    (removeInactive clock).Ends (fun _ => RemovesUsers hub) (fun _ => RemovesUsers hub) hub := by
  have blind : ∀ (hub : Hub) (faults : List Bool),
      accounts { hub with faults } = accounts hub := fun _ _ => rfl
  refine removesUsers_bind (reads blind) rfl fun inactive after same => ?_
  have based : ∀ last, RemovesUsers after last → RemovesUsers hub last := by
    unfold RemovesUsers
    rw [show after.codes = hub.codes from congrArg Prod.fst same]
    exact fun _ => id
  refine .onlyIf (fun _ => ?_) fun _ => .inl (congrArg Prod.fst same)
  exact (removeAccounts_codes inactive clock after).mono (fun _ => based) fun _ => based

/-! ### Runs -/

theorem claimTry_codes (codeId : String) (now : Nat) (hub : Hub) :
    (claimTry codeId now).Ends
      (fun found after => match found with
        | none => after.codes = hub.codes
        | some invite => hub.codes.invites.lookup codeId = some invite ∧ now < invite.expiresAt ∧
            invite.failures < inviteTries ∧ after.codes = hub.codes.claim codeId)
      (fun _ after => after.codes = hub.codes) hub := by
  unfold claimTry
  split
  · refine .bind (call_ends (fun _ => ?_) fun _ => rfl)
    split
    · exact .pure rfl
    · rename_i invite found
      obtain ⟨found, live⟩ := Option.filter_eq_some_iff.mp found
      have live := of_decide_eq_true live
      refine .bind (call_ends (fun _ => ?_) fun _ => rfl)
      exact .bind (.change (.pure ⟨found, live.1, live.2, rfl⟩))
  · exact .pure rfl

theorem finishRun_codes (codeId : String) (hub : Hub) :
    (hub.finishRun codeId).1 = hub.codes.last codeId ∧
      (hub.codes.runs.lookup codeId ≠ none →
        (hub.finishRun codeId).2.codes = hub.codes.leave codeId) ∧
      (hub.finishRun codeId).2.codes.invites = hub.codes.invites ∧
      (hub.finishRun codeId).2.codes.minted = hub.codes.minted ∧
      (hub.finishRun codeId).2.faults = hub.faults := by
  unfold finishRun Codes.leave Codes.last
  cases found : hub.inviteRuns.lookup codeId with
  | none =>
    have runs : hub.codes.runs.lookup codeId = none := found
    rw [runs]
    exact ⟨rfl, fun absent => absurd rfl absent, rfl, rfl, rfl⟩
  | some runs =>
    have there : hub.codes.runs.lookup codeId = some runs := found
    rw [there, Option.getD_some]
    dsimp only
    by_cases others : 0 < runs - 1
    · rw [if_pos others, decide_eq_false (Nat.pos_iff_ne_zero.mp others)]
      exact ⟨rfl, fun _ => rfl, rfl, rfl, rfl⟩
    · have alone : runs - 1 = 0 := Nat.le_zero.mp (Nat.not_lt.mp others)
      rw [if_neg others, decide_eq_true alone]
      exact ⟨rfl, fun _ => rfl, rfl, rfl, rfl⟩

/-- A run of a live invite ends: it leaves, and an invite that has no tries and no other run
left is burned if the database lets it. -/
theorem endRun_codes (codeId : String) (mintedBy : Option UserId) (hub : Hub)
    (flies : hub.codes.runs.lookup codeId ≠ none) :
    let burns := hub.codes.last codeId = true ∧
      ∃ invite, hub.codes.invites.lookup codeId = some invite ∧ inviteTries ≤ invite.failures
    (burns ∧ (hub.endRun codeId mintedBy).codes = (hub.codes.leave codeId).spend codeId) ∨
      ((burns → true ∈ hub.faults) ∧
        (hub.endRun codeId mintedBy).codes = hub.codes.leave codeId) := by
  dsimp only
  obtain ⟨last, left, invites, _, faults⟩ := finishRun_codes codeId hub
  have left := left flies
  unfold endRun
  generalize hub.finishRun codeId = outcome at last left invites faults
  obtain ⟨alone, after⟩ := outcome
  dsimp only at last left invites faults ⊢
  cases alone with
  | false =>
    refine .inr ⟨fun burns => ?_, left⟩
    rw [← last] at burns
    exact absurd burns.1 nofun
  | true =>
    rw [if_pos rfl]
    have faulty : ∀ hub' : Hub, hub'.faults.head? = some true → hub'.faults ⊆ hub.faults →
        true ∈ hub.faults := fun hub' fails within => within (List.mem_of_mem_head? fails)
    by_cases fails : after.faults.head? = some true
    · unfold read
      rw [call_of_fault fails]
      exact .inr ⟨fun _ => faulty after fails (faults ▸ List.Subset.refl _), left⟩
    · unfold read
      rw [call_of_no_fault fails]
      dsimp only
      have stored : after.db.invites.lookup codeId = hub.codes.invites.lookup codeId :=
        congrArg (Finmap.lookup codeId) invites
      unfold Database.invite
      rw [stored]
      cases found : hub.codes.invites.lookup codeId with
      | none =>
        refine .inr ⟨?_, left⟩
        rintro ⟨_, invite, same, _⟩
        cases same
      | some invite =>
        dsimp only
        by_cases spent : inviteTries ≤ invite.failures
        · rw [if_pos spent]
          let checked : Hub := { after with faults := after.faults.tail }
          have ends : ∀ last : Hub,
              last.codes = (write (Database.deleteInvite codeId) checked).2.codes →
              ((hub.codes.last codeId = true ∧ ∃ other, some invite = some other ∧
                  inviteTries ≤ other.failures) ∧
                  last.codes = (hub.codes.leave codeId).spend codeId) ∨
                (((hub.codes.last codeId = true ∧ ∃ other, some invite = some other ∧
                  inviteTries ≤ other.failures) → true ∈ hub.faults) ∧
                  last.codes = hub.codes.leave codeId) := by
            intro final same
            rw [same]
            unfold write
            by_cases fails : checked.faults.head? = some true
            · rw [call_of_fault fails]
              refine .inr ⟨fun _ => faulty checked fails ?_, left⟩
              rw [← faults]
              exact List.tail_subset _
            · rw [call_of_no_fault fails]
              refine .inl ⟨⟨last.symm, invite, rfl, spent⟩, ?_⟩
              rw [← left]
              rfl
          refine ends _ ?_
          cases mintedBy <;> rfl
        · rw [if_neg spent]
          refine .inr ⟨?_, left⟩
          rintro ⟨_, other, same, spent'⟩
          cases same
          exact absurd spent' spent

/-- An enrollment spends a live invite and signs in a stored user, or changes nothing. -/
theorem enroll_spends (pubkey : PublicKey) (codeId name : String) (now : Nat) (db : Database) :
    Database.enroll pubkey codeId name now db = (none, db) ∨
      ∃ enrolled next invite row,
        Database.enroll pubkey codeId name now db = (some enrolled, next) ∧
        db.invites.lookup codeId = some invite ∧ now < invite.expiresAt ∧
        next.invites = db.invites.erase codeId ∧ next.users.lookup enrolled.id = some row := by
  unfold Database.enroll
  split
  · exact .inl rfl
  · rename_i invite found
    obtain ⟨found, live⟩ := Option.filter_eq_some_iff.mp found
    have live := of_decide_eq_true live
    right
    dsimp only
    generalize (if invite.mintedBy.isNone = true then Role.admin else Role.user) = role
    split
    · rename_i id row same
      have stored : db.users.lookup id = some row :=
        (Map.mem_toList _ _ _).mp (List.mem_of_find?_eq_some same)
      split
      · refine ⟨_, _, invite, { row with role }, rfl, found, live, ?_, ?_⟩
        · rfl
        show (db.users.modify id _).lookup id = _
        rw [Map.lookup_modify_self, stored, Option.map_some]
      · refine ⟨_, _, invite, row, rfl, found, live, ?_, stored⟩
        rfl
    · let row : UserRow :=
        { id := db.lastUser + 1, pubkey, encryptionKey := none, name, avatar := none, role
          invitedBy := invite.mintedBy, createdAt := now }
      refine ⟨_, _, invite, row, rfl, found, live, ?_, ?_⟩
      · rfl
      · exact Finmap.lookup_insert _

theorem enroll_codes (pubkey : PublicKey) (codeId name : String) (startedAt : Nat) (hub : Hub) :
    (enroll pubkey codeId name startedAt).Ends
      (fun found after =>
        (found = none ∧ after.codes = hub.codes) ∨
          found ≠ none ∧ ∃ invite, hub.codes.invites.lookup codeId = some invite ∧
            startedAt < invite.expiresAt ∧ after.codes = hub.codes.spend codeId)
      (fun _ after => after.codes = hub.codes) hub := by
  refine .bind (call_ends (fun _ => ?_) fun _ => rfl)
  obtain same | ⟨enrolled, next, invite, row, same, found, live, spent, stored⟩ :=
    enroll_spends pubkey codeId name startedAt hub.db
  · rw [same]
    exact .pure (.inl ⟨rfl, rfl⟩)
  · rw [same]
    refine .bind (.current (.bind (.change (.pure (.inr ⟨?_, invite, found, live, ?_⟩)))))
    · rw [stored]
      exact nofun
    · have spends := congrArg (fun invites => { hub.codes with invites }) spent
      rw [stored]
      cases enrolled with
      | added id => exact spends
      | promoted id => exact (@quiet_roleChanged (fun _ => True) _ id row.role).codes.trans spends
      | returning id => exact spends

end Hub

/-! ### Steps of the server -/

/-- The step asks for an invite to be minted. -/
def Input.mints (input : Input) : Prop :=
  input.action = .adminInvite ∨ ∃ user conn, input.action = .request user conn .createInvite

/-- What a step of the server that is no part of an enrollment run does to the invites; `users`
are the users stored after it. -/
inductive Codes.Change (input : Input) (users : Map UserId UserRow) (before : Codes) :
    Codes → Prop where
  | same : Change input users before before
  | purged (mints : input.mints) : Change input users before (before.purged input.clock.unixNow)
  | minted (mints : input.mints) (mintedBy : Option UserId) (attempt : Nat)
      (free : Hub.FirstFree (before.purged input.clock.unixNow) input.draws mintAttempts attempt) :
      Change input users before ((before.purged input.clock.unixNow).mint
        (Hub.drawnInvite mintedBy (input.clock.unixNow + inviteLifetime) (input.draws attempt)))
  | without (ids : List UserId) (gone : ∀ id ∈ ids, id ∉ users) :
      Change input users before (before.without ids)
  | restarted (restarts : input.action = .restart) : Change input users before before.restart

theorem Codes.Change.of_eq {input : Input} {users : Map UserId UserRow} {before after : Codes}
    (same : after = before) : before.Change input users after := by
  rw [same]
  exact .same

theorem Hub.RemovesUsers.change {input : Input} {hub after : Hub}
    (removes : RemovesUsers hub after) : hub.codes.Change input after.db.users after.codes := by
  obtain same | ⟨ids, same, gone⟩ := removes
  · exact .of_eq same
  · rw [same]
    exact .without ids gone

namespace Codes.Change

variable {input : Input} {users : Map UserId UserRow} {before after : Codes}

theorem lookup_purged (codes : Codes) (now : Nat) (codeId : String) :
    (codes.purged now).invites.lookup codeId =
      (codes.invites.lookup codeId).filter fun invite => now < invite.expiresAt :=
  Map.lookup_retain _ _ _

/-- The runs stay, no stored invite changes, and at most one is minted. -/
theorem traces (change : before.Change input users after) (goes : input.action ≠ .restart) :
    after.runs = before.runs ∧
      ((after.minted = before.minted ∧ ∀ codeId invite,
          after.invites.lookup codeId = some invite → before.invites.lookup codeId = some invite) ∨
        ∃ minted, minted.failures = 0 ∧ after.minted = before.minted ++ [minted] ∧
          ∀ codeId invite, after.invites.lookup codeId = some invite →
            if codeId = minted.codeId then invite = minted
            else before.invites.lookup codeId = some invite) := by
  have kept : ∀ codeId invite,
      (before.purged input.clock.unixNow).invites.lookup codeId = some invite →
        before.invites.lookup codeId = some invite := by
    intro codeId invite stored
    rw [lookup_purged] at stored
    exact (Option.filter_eq_some_iff.mp stored).1
  cases change with
  | same => exact ⟨rfl, .inl ⟨rfl, fun _ _ => id⟩⟩
  | purged mints => exact ⟨rfl, .inl ⟨rfl, kept⟩⟩
  | minted mints mintedBy attempt free =>
    refine ⟨rfl, .inr ⟨_, rfl, rfl, fun codeId invite stored => ?_⟩⟩
    unfold mint at stored
    dsimp only at stored
    rw [Map.lookup_insert_ite] at stored
    split at stored
    · rename_i same
      rw [if_pos same]
      exact (Option.some.inj stored).symm
    · rename_i other
      rw [if_neg other]
      exact kept codeId invite stored
  | without ids gone =>
    refine ⟨rfl, .inl ⟨rfl, fun codeId invite stored => ?_⟩⟩
    rw [lookup_without] at stored
    exact (Option.filter_eq_some_iff.mp stored).1
  | restarted restarts => exact absurd restarts goes

/-- An invite is deleted because it has expired or because its minter was removed. -/
theorem deletes (change : before.Change input users after) (goes : input.action ≠ .restart)
    {codeId : String} {invite : InviteRow} (stored : before.invites.lookup codeId = some invite)
    (gone : after.invites.lookup codeId = none) :
    input.mints ∧ invite.expiresAt ≤ input.clock.unixNow ∨
      ∃ minter, invite.mintedBy = some minter ∧ minter ∉ users := by
  have expired : (before.purged input.clock.unixNow).invites.lookup codeId = none →
      invite.expiresAt ≤ input.clock.unixNow := by
    intro purged
    rw [lookup_purged, stored] at purged
    have ended := Option.filter_eq_none_iff.mp purged invite rfl
    exact Nat.le_of_not_lt fun live => ended (decide_eq_true live)
  cases change with
  | same =>
    rw [stored] at gone
    cases gone
  | purged mints => exact .inl ⟨mints, expired gone⟩
  | minted mints mintedBy attempt free =>
    refine .inl ⟨mints, expired ?_⟩
    unfold mint at gone
    dsimp only at gone
    rw [Map.lookup_insert_ite] at gone
    split at gone
    · cases gone
    · exact gone
  | without ids removed =>
    rw [lookup_without, stored] at gone
    have ended := Option.filter_eq_none_iff.mp gone invite rfl
    rw [decide_eq_true_eq] at ended
    push Not at ended
    obtain ⟨minter, member, same⟩ := ended
    exact .inr ⟨minter, same, removed minter member⟩
  | restarted restarts => exact absurd restarts goes

end Codes.Change

/-- The actions that are no part of an enrollment run. -/
def Action.plain : Action → Bool
  | claimTry _ => false
  | enroll _ _ _ _ => false
  | endRun _ _ => false
  | _ => true

/-- The action starts the server anew, which ends every run. -/
def Action.restarts : Action → Bool
  | restart => true
  | _ => false

namespace Server

open Attempt

variable (primitives : Primitives)

theorem dispatch_change (server : Server) (input : Input) {user : UserId} {conn : ConnId}
    {request : Request} (action : input.action = .request user conn request) :
    let hub : Hub := { server.hub with faults := input.faults }
    (Hub.dispatch primitives user conn request input.draws input.clock).Ends
      (fun _ after => server.hub.codes.Change input after.db.users after.codes)
      (fun _ after => server.hub.codes.Change input after.db.users after.codes) hub := by
  intro hub
  have kept : ∀ after : Hub, after.codes = server.hub.codes →
      server.hub.codes.Change input after.db.users after.codes := fun _ => .of_eq
  have keeps : ∀ {computation : HubM Handled} (before : Hub), before.codes = server.hub.codes →
      Hub.KeepsCodes computation → computation.Ends
        (fun _ after => server.hub.codes.Change input after.db.users after.codes)
        (fun _ after => server.hub.codes.Change input after.db.users after.codes) before :=
    fun before same keeps => (keeps.ends before).mono
      (fun _ after same' => kept after (same'.trans same))
      fun _ after same' => kept after (same'.trans same)
  refine .bind ((Hub.keeps_requireCurrent.codes.ends hub).mono (fun _ after same => ?_)
    fun _ after => kept after)
  refine .bind (.take ?_)
  have freed := (@Hub.quiet_isFree (fun _ => True) after user request).codes.trans same
  refine .bind (((Hub.KeepsQuiet.codes (.onlyIf Hub.keeps_mustTake)).ends _).mono (fun _ before took => ?_)
    fun _ last took => kept last (took.trans freed))
  have same : before.codes = server.hub.codes := took.trans freed
  clear freed
  have removed : ∀ last, Hub.RemovesUsers before last →
      server.hub.codes.Change input last.db.users last.codes :=
    fun last removes => same ▸ removes.change
  cases request with
  | deleteRoom room => exact keeps before same (.map Hub.codes_deleteRoom)
  | kickFromRoom target room => exact keeps before same (.map Hub.codes_kickFromRoom)
  | removeUser target cascade =>
    exact .map ((Hub.removeUser_codes user target cascade input.clock before).mono
      (fun _ => removed) fun _ => removed)
  | createInvite =>
    have mints : input.mints := .inr ⟨user, conn, action⟩
    refine .map ((Hub.createInvite_codes user input.draws input.clock before).mono ?_ ?_)
    · rintro _ after ⟨attempt, free, minted⟩
      rw [minted, same]
      exact .minted mints (some user) attempt (same ▸ free)
    · rintro _ after (same' | purged)
      · exact kept after (same'.trans same)
      · rw [purged, same]
        exact .purged mints
  | _ => exact keeps before same (Hub.KeepsQuiet.codes (Hub.keeps_perform rfl fun _ => trivial))

/-- What a step that is no part of an enrollment run does to the invites. -/
theorem change (server : Server) (input : Input) (plain : input.action.plain = true) :
    server.hub.codes.Change input (step primitives server input).hub.db.users
      (step primitives server input).hub.codes := by
  let hub : Hub := { server.hub with faults := input.faults }
  let changes (after : Hub) : Prop := server.hub.codes.Change input after.db.users after.codes
  have kept : ∀ after : Hub, after.codes = hub.codes → changes after := fun _ => .of_eq
  unfold step
  dsimp only
  cases action : input.action with
  | connect row wantRoom => exact kept _ ((Hub.keeps_connect fun _ => trivial).codes hub)
  | disconnect user conn => exact kept _ (@Hub.quiet_disconnect (fun _ => True) hub user trivial conn input.clock).codes
  | request user conn request =>
    have both := (dispatch_change primitives server input action).after
    dsimp only at both ⊢
    generalize Hub.dispatch primitives user conn request input.draws input.clock _ = outcome at both
    split <;> exact both
  | finish index hashed =>
    dsimp only
    split
    · exact .same
    · exact kept _ ((Hub.keeps_finish fun _ _ _ _ => trivial).codes hub)
  | removeInactive =>
    have both : (Hub.removeInactive input.clock).Ends (fun _ => changes) (fun _ => changes) hub :=
      (Hub.removeInactive_codes input.clock hub).mono (fun _ _ removes => removes.change)
        fun _ _ removes => removes.change
    exact both.after
  | flushKeyframes => exact kept _ (@Hub.quiet_flushKeyframes (fun _ => True) hub input.clock).codes
  | claimTry codeId =>
    rw [action] at plain
    cases plain
  | enroll pubkey codeId name startedAt =>
    rw [action] at plain
    cases plain
  | endRun codeId mintedBy =>
    rw [action] at plain
    cases plain
  | adminInvite =>
    have mints : input.mints := .inl action
    have both : (Hub.mintInvite none input.draws input.clock.unixNow).Ends (fun _ => changes)
        (fun _ => changes) hub := by
      refine (Hub.mintInvite_codes none input.draws input.clock.unixNow hub).mono ?_ ?_
      · rintro _ after ⟨attempt, free, minted⟩
        show server.hub.codes.Change input after.db.users after.codes
        rw [minted]
        exact .minted mints none attempt free
      · rintro _ after (same | purged)
        · exact kept after same
        · show server.hub.codes.Change input after.db.users after.codes
          rw [purged]
          exact .purged mints
    exact both.after
  | restart => exact .restarted action

end Server

end Throcc
