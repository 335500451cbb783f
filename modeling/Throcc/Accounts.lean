/-
This file follows the stored users and invites through a step of the server:
who brought each user in and when, and who minted each invite. A step mints an
invite, turns one into a user, removes users, or leaves everyone's admission as it
was and adds no invite.
-/

import Throcc.Enrollments
import Throcc.Ranks

namespace Throcc

/-! ### Admissions -/

/-- Who brought a user in, and when. -/
structure Admission where
  invitedBy : Option UserId
  createdAt : Nat
deriving DecidableEq, Repr

def UserRow.admission (row : UserRow) : Admission where
  invitedBy := row.invitedBy
  createdAt := row.createdAt

/-- What stays of an admission once a user is removed. -/
def Admission.forget (id : UserId) (admission : Admission) : Admission :=
  if admission.invitedBy = some id then { admission with invitedBy := none } else admission

/-- What invitations rest on. -/
structure Roll where
  invites : Map String InviteRow
  admissions : Map UserId Admission
  lastUser : UserId

def Database.roll (db : Database) : Roll where
  invites := db.invites
  admissions := db.users.mapValues fun _ row => row.admission
  lastUser := db.lastUser

namespace Roll

variable (roll : Roll)

def removeOne (id : UserId) : Roll :=
  { roll with
    invites := roll.invites.retain fun _ invite => invite.mintedBy ≠ some id
    admissions := (roll.admissions.mapValues fun _ admission => admission.forget id).erase id }

def without (ids : List UserId) : Roll := ids.foldl removeOne roll

/-- An invite has become a user. -/
def enroll (codeId : String) (admission : Admission) : Roll where
  invites := roll.invites.erase codeId
  admissions := roll.admissions.insert (roll.lastUser + 1) admission
  lastUser := roll.lastUser + 1

/-- An invite is minted, and those that have expired are deleted. -/
def mint (now : Nat) (invite : InviteRow) : Roll :=
  { roll with
    invites :=
      (roll.invites.retain fun _ invite => now < invite.expiresAt).insert invite.codeId invite }

/-- Every invite was there before, as far as its minter and its expiry go. -/
def Fewer (before after : Map String InviteRow) : Prop :=
  ∀ codeId invite, after.lookup codeId = some invite →
    ∃ stored, before.lookup codeId = some stored ∧ invite.mintedBy = stored.mintedBy ∧
      invite.expiresAt = stored.expiresAt

variable {roll}

theorem Fewer.refl (invites : Map String InviteRow) : Fewer invites invites :=
  fun _ invite found => ⟨invite, found, rfl, rfl⟩

theorem Fewer.retain (invites : Map String InviteRow) (keep : String → InviteRow → Bool) :
    Fewer invites (invites.retain keep) := by
  intro codeId invite found
  rw [Map.lookup_retain] at found
  exact ⟨invite, (Option.filter_eq_some_iff.mp found).1, rfl, rfl⟩

theorem Fewer.erase (invites : Map String InviteRow) (codeId : String) :
    Fewer invites (invites.erase codeId) := by
  intro other invite found
  rw [Map.lookup_erase_ite] at found
  split at found
  · cases found
  · exact ⟨invite, found, rfl, rfl⟩

theorem lookup_admissions_without (ids : List UserId) (user : UserId) :
    (roll.without ids).admissions.lookup user =
      if user ∈ ids then none
      else (roll.admissions.lookup user).map fun admission =>
        if ∃ id ∈ ids, admission.invitedBy = some id then { admission with invitedBy := none }
        else admission := by
  unfold without
  induction ids generalizing roll with
  | nil => simp
  | cons id rest inductionHypothesis =>
    rw [List.foldl_cons, inductionHypothesis]
    unfold removeOne
    dsimp only
    rw [Map.lookup_erase_ite, Map.lookup_mapValues]
    by_cases same : user = id
    · simp [same]
    · have member : user ∈ id :: rest ↔ user ∈ rest := by
        rw [List.mem_cons]
        exact or_iff_right same
      rw [if_neg same, Option.map_map]
      simp only [member]
      refine congrArg (ite _ none)
        (congrArg (Option.map · (roll.admissions.lookup user)) (funext fun admission => ?_))
      dsimp only [Function.comp]
      unfold Admission.forget
      by_cases inviter : admission.invitedBy = some id
      · simp [inviter]
      · simp [inviter]

theorem lookup_invites_without (ids : List UserId) (codeId : String) :
    (roll.without ids).invites.lookup codeId =
      (roll.invites.lookup codeId).filter fun invite =>
        ∀ id ∈ ids, invite.mintedBy ≠ some id := by
  unfold without
  induction ids generalizing roll with
  | nil =>
    rw [List.foldl_nil]
    cases roll.invites.lookup codeId <;> simp [Option.filter]
  | cons id rest inductionHypothesis =>
    rw [List.foldl_cons, inductionHypothesis]
    unfold removeOne
    dsimp only
    rw [Map.lookup_retain, Option.filter_filter]
    refine congrArg (Option.filter · _) (funext fun invite => ?_)
    simp

theorem lastUser_without (ids : List UserId) : (roll.without ids).lastUser = roll.lastUser := by
  unfold without
  induction ids generalizing roll with
  | nil => rfl
  | cons id rest inductionHypothesis => exact inductionHypothesis

end Roll

theorem Database.roll_removeUsers (ids : List UserId) (db : Database) :
    (Database.removeUsers ids db).roll = db.roll.without ids := by
  unfold Database.removeUsers Roll.without
  induction ids generalizing db with
  | nil => rfl
  | cons id rest inductionHypothesis =>
    rw [List.foldl_cons, List.foldl_cons, inductionHypothesis]
    have one : (db.removeOne id).roll = db.roll.removeOne id := by
      unfold Database.removeOne Database.roll Roll.removeOne
      dsimp only
      congr 1
      refine Finmap.ext_lookup fun user => ?_
      rw [Map.lookup_mapValues, Map.lookup_erase_ite, Map.lookup_erase_ite, Map.lookup_mapValues,
        Map.lookup_mapValues, Map.lookup_mapValues]
      split
      · rfl
      · rw [Option.map_map, Option.map_map]
        refine congrArg (Option.map · _) (funext fun row => ?_)
        dsimp only [Function.comp]
        unfold UserRow.admission Admission.forget
        dsimp only
        split <;> rfl
    rw [one]

/-! ### What keeps admissions -/

namespace Core

variable {core next : Core}

def admissions (core : Core) : Map UserId Admission :=
  core.users.mapValues fun _ row => row.admission

/-- Nobody arrives, nobody goes, and nobody's admission changes. -/
def KeepsAdmissions (core next : Core) : Prop :=
  next.admissions = core.admissions ∧ next.lastUser = core.lastUser

theorem KeepsAdmissions.apply {turn : Turn} (stays : ∀ ids, turn ≠ .removeUsers ids)
    (enrolls : ¬ turn.enrolls) : core.KeepsAdmissions (core.apply turn) := by
  have users := core.users_apply turn
  have lastUser := core.lastUser_apply turn
  have modified : ∀ user (update : UserRow → UserRow),
      (core.apply turn).users = core.users.modify user update →
      (∀ row, (update row).admission = row.admission) →
      (core.apply turn).admissions = core.admissions := by
    intro user update same kept
    unfold admissions
    rw [same]
    exact Map.mapValues_modify_of_same core.users _ user kept
  have unchanged : (core.apply turn).users = core.users →
      (core.apply turn).admissions = core.admissions := congrArg (Map.mapValues _)
  cases turn with
  | storeKey user encryptionKey => exact ⟨modified user _ users fun _ => rfl, lastUser⟩
  | halfKey user encryptionKey => exact ⟨modified user _ users fun _ => rfl, lastUser⟩
  | renewKey user encryptionKey => exact ⟨modified user _ users fun _ => rfl, lastUser⟩
  | rekey user encryptionKey => exact ⟨modified user _ users fun _ => rfl, lastUser⟩
  | profile user name avatar => exact ⟨modified user _ users fun _ => rfl, lastUser⟩
  | role user role => exact ⟨modified user _ users fun _ => rfl, lastUser⟩
  | removeUsers ids => exact absurd rfl (stays ids)
  | addUser row => exact absurd trivial enrolls
  | _ => exact ⟨unchanged users, lastUser⟩

theorem KeepsAdmissions.leads {may : Turn → Prop} (leads : Leads may core next)
    (stays : ∀ turn, may turn → (∀ ids, turn ≠ .removeUsers ids) ∧ ¬ turn.enrolls) :
    core.KeepsAdmissions next := by
  refine leads.invariant core.KeepsAdmissions ⟨rfl, rfl⟩ fun between turn keeps kind _ => ?_
  obtain ⟨admissions, lastUser⟩ : between.KeepsAdmissions (between.apply turn) :=
    .apply (stays turn kind).1 (stays turn kind).2
  exact ⟨admissions.trans keeps.1, lastUser.trans keeps.2⟩

theorem KeepsAdmissions.ousts (leads : Leads Turn.ousts core next) : core.KeepsAdmissions next := by
  refine .leads leads fun turn ousts => ⟨fun ids same => ?_, ousts.settled.2⟩
  rw [same] at ousts
  exact ousts

/-- A step that enrolls and removes nobody keeps all admissions. -/
theorem Acts.keepsAdmissions {may : May} (acts : Acts may core next)
    (stays : ∀ ids, ¬ may.removes ids) : core.KeepsAdmissions next := by
  cases acts with
  | leads leads =>
    refine .leads leads fun turn settled => ⟨fun ids same => ?_, settled.2⟩
    rw [same] at settled
    exact settled.1.1
  | adds name passwordHash does =>
    rw [does.2]
    exact .apply nofun id
  | appoints user role _ does =>
    rw [does.2]
    exact .apply nofun id
  | removes ids may _ => exact absurd may (stays ids)
  | half _ user encryptionKey does =>
    rw [does.2]
    exact .apply nofun id

end Core

namespace Hub

open Attempt

/-! ### Removing users -/

theorem roll_eq {before after : Hub} (invites : after.db.invites = before.db.invites)
    (keeps : before.core.KeepsAdmissions after.core) : after.db.roll = before.db.roll := by
  have admissions : after.db.roll.admissions = before.db.roll.admissions := keeps.1
  have lastUser : after.db.roll.lastUser = before.db.roll.lastUser := keeps.2
  unfold Database.roll at admissions lastUser ⊢
  dsimp only at admissions lastUser
  rw [invites, admissions, lastUser]

theorem removeAccounts_roll (ids : List UserId) (clock : Clock) (hub : Hub) :
    (removeAccounts ids clock).Ends (fun _ after => after.db.roll = hub.db.roll.without ids)
      (fun _ after => after.db = hub.db) hub := by
  refine .bind (call_ends (fun _ => .change ?_) fun _ => rfl)
  rw [← Database.roll_removeUsers]
  refine roll_eq ?_ (.ousts (core_dropAccounts _ ids clock).1)
  exact congrArg (·.invites)
    (@quiet_dropAccounts (fun _ => True) _ ids (fun _ _ => trivial) clock).codes

/-- The accounts a removal takes. -/
def taken (db : Database) (target : UserId) (cascade : Bool) : List UserId :=
  if cascade then db.inviteTree target else [target]

/-- A user may remove an account: it is there, and it is their own and they leave, or they rank
above it. -/
def MayRemove (hub : Hub) (user target : UserId) (leaving : Bool) (id : UserId) : Prop :=
  ∃ seat row, hub.core.seats.lookup user = some seat ∧ hub.db.users.lookup id = some row ∧
    (leaving = true ∧ target = user ∨ canRemove seat.row.role row.role = true)

theorem role_cases {ok : Role → Hub → Prop} {failed : Refusal → Hub → Prop} {user : UserId}
    {hub : Hub}
    (onOk : ∀ session, hub.sessions.lookup user = some session → ok session.row.role hub)
    (onError : failed ⟨.internal, "no session"⟩ hub) : (role user).Ends ok failed hub := by
  refine .bind (.bind (.current (.okOr (fun session found => ?_) onError)))
  exact .pure (onOk session found)

/-- A removal takes the target, and with them everyone they brought in if that is asked. -/
theorem removeUser_roll (user target : UserId) (cascade : Bool) (clock : Clock) (hub : Hub) :
    (removeUser user target cascade clock).Ends
      (fun _ after =>
        (∀ id ∈ taken hub.db target cascade, hub.MayRemove user target (!cascade) id) ∧
          after.db.roll = hub.db.roll.without (taken hub.db target cascade))
      (fun _ after => after.db = hub.db) hub := by
  have reads : ∀ {Result : Type} {query : Database → Result}, Keeps (·.db) (read query) :=
    Hub.reads fun _ _ => rfl
  refine .bind (role_cases (fun session found => ?_) rfl)
  dsimp only
  generalize leaves : decide (target = user ∧ ¬cascade = true) = leaving
  have checked : Keeps (·.db) (onlyIf (leaving && decide (session.row.role = .admin)) do
      require ((← read Database.adminCount) ≠ 1)
        ⟨.forbidden, "you are the server's only admin, so you can't leave it"⟩) :=
    .onlyIf (reads.bind fun _ => .require)
  refine .bind ((checked.ends hub).mono (fun _ before same => ?_) fun _ _ same => same)
  refine .bind (.require (fun _ => ?_) same)
  have removing : ∀ before : Hub, before.db = hub.db →
      (∀ removed, removed = taken hub.db target cascade → Ends (do
        forEach
          (fun id => do
            let row ← storedUser id
            permit (leaving || canRemove session.row.role row.role))
          removed
        removeAccounts removed clock
        pure Response.ok)
      (fun _ after =>
        (∀ id ∈ taken hub.db target cascade, hub.MayRemove user target (!cascade) id) ∧
          after.db.roll = hub.db.roll.without (taken hub.db target cascade))
      (fun _ after => after.db = hub.db) before) := by
    rintro before same _ rfl
    have each : (forEach (fun id => do
          let row ← storedUser id
          permit (leaving || canRemove session.row.role row.role))
          (taken hub.db target cascade)).Ends
        (fun _ after => after.db = hub.db ∧ ∀ id ∈ taken hub.db target cascade,
          hub.MayRemove user target (!cascade) id)
        (fun _ after => after.db = hub.db) before := by
      refine .forEach_all (fun id hub' same => ?_) _ same
      refine .bind (.bind (call_ends (fun _ => .okOr (fun row stored => ?_) same) fun _ => same))
      refine .require (fun passed => ⟨same, session.toSeat, row, core_seats_of_session found, ?_, ?_⟩)
        same
      · rw [← same]
        exact stored
      · rw [Bool.or_eq_true] at passed
        refine passed.imp (fun left => ?_) fun allowed => allowed
        rw [← leaves, decide_eq_true_eq] at left
        exact ⟨by simpa using left.2, left.1⟩
    refine .bind (each.mono ?_ fun _ _ same => same)
    rintro _ after ⟨same, may⟩
    refine .bind ((removeAccounts_roll _ clock after).mono (fun _ last removed => ?_) ?_)
    · rw [same] at removed
      exact .pure ⟨may, removed⟩
    · exact fun _ last kept => kept.trans same
  refine .bind ?_
  unfold accountsToRemove
  cases asked : cascade with
  | true =>
    rw [if_pos rfl]
    refine call_ends (fun _ => ?_) fun _ => same
    rw [asked] at removing
    refine removing { before with faults := before.faults.tail } same _ ?_
    exact congrArg (Database.inviteTree target) same
  | false =>
    rw [asked] at removing
    exact .pure (removing _ same _ rfl)

/-- Removing inactive accounts removes some users or nobody. -/
theorem removeInactive_roll (clock : Clock) (hub : Hub) :
    (removeInactive clock).Ends
      (fun _ after => ∃ ids, after.db.roll = hub.db.roll.without ids)
      (fun _ after => after.db = hub.db) hub := by
  refine .bind (call_ends (fun _ => .onlyIf (fun _ => ?_) fun _ => ⟨[], rfl⟩) fun _ => rfl)
  refine (removeAccounts_roll _ clock _).mono (fun _ after removed => ⟨_, removed⟩) ?_
  exact fun _ _ same => same

/-! ### Minting and enrolling -/

/-- A user may have another invite minted: they have no cap or are below it. -/
def MayMint (hub : Hub) (user : UserId) (now : Nat) : Prop :=
  ∃ seat, hub.core.seats.lookup user = some seat ∧ ∀ cap, inviteCap seat.row.role = some cap →
    hub.db.invitesUsed user now (now - inviteLifetime) < cap

theorem createInvite_mayMint (user : UserId) (draws : Nat → Fin (idChars + secretChars) → UInt8)
    (clock : Clock) (hub : Hub) :
    (createInvite user draws clock).Ends (fun _ _ => hub.MayMint user clock.unixNow)
      (fun _ _ => True) hub := by
  refine .bind (role_cases (fun session found => ?_) trivial)
  have seated := core_seats_of_session found
  refine .bind ?_
  unfold checkInviteCap
  cases capped : inviteCap session.row.role with
  | none =>
    refine .pure (.of_all (fun _ _ => ⟨_, seated, fun cap same => ?_⟩) fun _ _ => trivial)
    exact absurd (capped.symm.trans same) nofun
  | some limit =>
    refine .bind (call_ends (fun _ => .require (fun below => ?_) trivial) fun _ => trivial)
    refine .of_all (fun _ _ => ⟨_, seated, fun cap same => ?_⟩) fun _ _ => trivial
    obtain rfl := Option.some.inj (capped.symm.trans same)
    exact of_decide_eq_true below

/-- What minting an invite comes to. -/
def Mints (now : Nat) (mintedBy : Option UserId) (hub after : Hub) : Prop :=
  ∃ invite, invite.mintedBy = mintedBy ∧ invite.expiresAt = now + inviteLifetime ∧
    after.db.roll = hub.db.roll.mint now invite

theorem mints_of_codes {now : Nat} {mintedBy : Option UserId} {hub after : Hub}
    (same : after.core = hub.core) {draw : Fin (idChars + secretChars) → UInt8}
    (minted : after.codes = (hub.codes.purged now).mint
      (drawnInvite mintedBy (now + inviteLifetime) draw)) : Mints now mintedBy hub after := by
  refine ⟨drawnInvite mintedBy (now + inviteLifetime) draw, rfl, rfl, ?_⟩
  have invites := congrArg Codes.invites minted
  have admissions : after.db.roll.admissions = hub.db.roll.admissions :=
    congrArg Core.admissions same
  have lastUser : after.db.roll.lastUser = hub.db.roll.lastUser :=
    congrArg Core.lastUser same
  unfold Database.roll Roll.mint at *
  dsimp only at *
  rw [admissions, lastUser]
  exact congrArg (Roll.mk · _ _) invites

/-- An enrollment turns an invite into a user, or adds neither. -/
theorem database_enroll (pubkey : PublicKey) (codeId name : String) (now : Nat) (db : Database) :
    (Roll.Fewer db.invites (Database.enroll pubkey codeId name now db).2.invites ∧
      (Database.enroll pubkey codeId name now db).2.roll.admissions = db.roll.admissions ∧
      (Database.enroll pubkey codeId name now db).2.lastUser = db.lastUser) ∨
    ∃ invite, db.invites.lookup codeId = some invite ∧
      (Database.enroll pubkey codeId name now db).2.roll =
        db.roll.enroll codeId ⟨invite.mintedBy, now⟩ := by
  unfold Database.enroll
  split
  · exact .inl ⟨.refl _, rfl, rfl⟩
  · rename_i invite found
    dsimp only
    generalize (if invite.mintedBy.isNone = true then Role.admin else Role.user) = role
    split
    · left
      split
      · refine ⟨.erase _ codeId, ?_, rfl⟩
        exact Map.mapValues_modify_of_same db.users _ _ fun _ => rfl
      · exact ⟨.erase _ codeId, rfl, rfl⟩
    · refine .inr ⟨invite, (Option.filter_eq_some_iff.mp found).1, ?_⟩
      unfold Database.roll Roll.enroll
      dsimp only
      congr 1
      exact Map.mapValues_insert db.users UserRow.admission _ _

theorem db_roleChanged (hub : Hub) (target : UserId) (role : Role) :
    (hub.roleChanged target role).db = hub.db := by
  have announced : ∀ hub : Hub, (hub.announcePresence target).db = hub.db := by
    intro hub
    unfold announcePresence
    split <;> rfl
  unfold roleChanged
  dsimp only
  split
  · refine (announced _).trans ?_
    split <;> rfl
  · refine (announced _).trans ?_
    split <;> rfl

theorem enroll_db (pubkey : PublicKey) (codeId name : String) (startedAt : Nat) (hub : Hub) :
    (enroll pubkey codeId name startedAt).Ends
      (fun _ after => after.db = (Database.enroll pubkey codeId name startedAt hub.db).2)
      (fun _ after => after.db = hub.db) hub := by
  refine .bind (call_ends (fun _ => ?_) fun _ => rfl)
  generalize Database.enroll pubkey codeId name startedAt hub.db = outcome
  obtain ⟨enrolled, db⟩ := outcome
  cases enrolled with
  | none => exact .pure rfl
  | some enrolled =>
    refine .bind (.current (.bind (.change (.pure ?_))))
    dsimp only
    split
    · rfl
    · exact db_roleChanged _ _ _
    · rfl

theorem claimTry_invites (codeId : String) (now : Nat) (hub : Hub) :
    (claimTry codeId now).Ends (fun _ after => Roll.Fewer hub.db.invites after.db.invites)
      (fun _ after => Roll.Fewer hub.db.invites after.db.invites) hub := by
  have same : ∀ after : Hub, after.codes = hub.codes →
      Roll.Fewer hub.db.invites after.db.invites := by
    intro after kept
    rw [show after.db.invites = hub.db.invites from congrArg Codes.invites kept]
    exact .refl _
  refine (claimTry_codes codeId now hub).mono (fun found after claimed => ?_) fun _ => same
  cases found with
  | none => exact same after claimed
  | some invite =>
    have invites : after.db.invites = hub.db.invites.modify codeId fun invite =>
        { invite with failures := invite.failures + 1 } := congrArg Codes.invites claimed.2.2.2
    intro other row found
    rw [invites, Map.lookup_modify] at found
    split at found
    · obtain ⟨stored, there, rfl⟩ := Option.map_eq_some_iff.mp found
      exact ⟨stored, there, rfl, rfl⟩
    · exact ⟨row, found, rfl, rfl⟩

theorem endRun_invites (codeId : String) (mintedBy : Option UserId) (hub : Hub) :
    Roll.Fewer hub.db.invites (hub.endRun codeId mintedBy).db.invites := by
  have finished : (hub.finishRun codeId).2.db = hub.db := by
    unfold finishRun
    split
    · rfl
    · split <;> rfl
  unfold endRun
  generalize hub.finishRun codeId = outcome at finished
  obtain ⟨last, after⟩ := outcome
  dsimp only at finished ⊢
  have looked : (read (Database.invite codeId)).Ends (fun _ before => before.db = hub.db)
      (fun _ before => before.db = hub.db) after :=
    call_ends (fun _ => finished) fun _ => finished
  have kept : ∀ last : Hub, last.db = hub.db →
      Roll.Fewer hub.db.invites last.db.invites := by
    intro last same
    rw [same]
    exact .refl _
  split
  · split
    · rename_i found
      have same := looked.of_ok found
      split
      · have deleted : (write (Database.deleteInvite codeId)).Ends
            (fun _ last => Roll.Fewer hub.db.invites last.db.invites)
            (fun _ last => Roll.Fewer hub.db.invites last.db.invites) _ :=
          call_ends
            (fun _ => by
              rw [same]
              exact .erase _ codeId)
            fun _ => kept _ same
        have fewer := deleted.after
        split <;> exact fewer
      · exact kept _ same
    · rename_i found
      have same := looked.after
      rw [found] at same
      exact kept _ same
  · exact kept _ finished

/-! ### Requests -/

/-- Admitting a request changes neither who is where nor what is stored. -/
theorem dispatch_performs {primitives : Primitives} {user : UserId} {conn : ConnId}
    {request : Request} {draws : Nat → Fin (idChars + secretChars) → UInt8} {clock : Clock}
    {hub : Hub} {ok : Handled → Hub → Prop} {failed : Refusal → Hub → Prop}
    (performs : ∀ before : Hub, before.core = hub.core → before.db = hub.db →
      (perform primitives user request draws clock).Ends ok failed before)
    (refuses : ∀ refusal (after : Hub), after.core = hub.core → after.db = hub.db →
      failed refusal after) :
    (dispatch primitives user conn request draws clock).Ends ok failed hub := by
  have core : (hub.isFree user request).2.core = hub.core :=
    ((Idle.refl hub : Idle clock hub hub).isFree user request).core
  have db : (hub.isFree user request).2.db = hub.db := by
    unfold isFree freeKeyPublish
    split
    · split
      · rfl
      · split
        · rfl
        · split <;> rfl
    · rfl
  refine .bind (requireCurrent_ends (fun _ => ?_) fun refusal => refuses refusal hub rfl rfl)
  refine .bind (.take (.bind (.onlyIf (fun _ => ?_) fun _ => performs _ core db)))
  exact .bind (.take (.require (fun _ => performs _ core db) (refuses _ _ core db)))

end Hub

/-! ### Steps of the server -/

/-- What a step makes of the roll. -/
inductive Roll.Change (hub : Hub) (input : Input) (before : Roll) : Roll → Prop where
  | fewer (invites : Map String InviteRow) (fewer : Fewer before.invites invites) :
      Change hub input before { before with invites }
  | minted (invite : InviteRow) (mints : input.mints)
      (expires : invite.expiresAt = input.clock.unixNow + inviteLifetime)
      (may : ∀ user, invite.mintedBy = some user → hub.MayMint user input.clock.unixNow) :
      Change hub input before (before.mint input.clock.unixNow invite)
  | enrolled (codeId : String) (invite : InviteRow) (startedAt : Nat)
      (found : before.invites.lookup codeId = some invite) :
      Change hub input before (before.enroll codeId ⟨invite.mintedBy, startedAt⟩)
  | removed (ids : List UserId) : Change hub input before (before.without ids)

/-- The step asks for users to be removed. -/
def Input.removes (input : Input) : Prop :=
  input.action = .removeInactive ∨
    ∃ user conn target cascade, input.action = .request user conn (.removeUser target cascade)

namespace Roll.Change

variable {hub after : Hub} {input : Input}

theorem of_kept {db : Database} (invites : Fewer hub.db.invites db.invites)
    (admissions : db.roll.admissions = hub.db.roll.admissions)
    (lastUser : db.lastUser = hub.db.lastUser) :
    hub.db.roll.Change hub input db.roll := by
  have same : db.roll = { hub.db.roll with invites := db.invites } := by
    unfold Database.roll at *
    dsimp only at *
    rw [admissions, lastUser]
  rw [same]
  exact .fewer _ invites

theorem of_db (same : after.db = hub.db) : hub.db.roll.Change hub input after.db.roll := by
  rw [same]
  exact .fewer _ (.refl _)

end Roll.Change

/-- What does not mint adds no invite. -/
theorem Codes.Change.fewer {input : Input} {users : Map UserId UserRow} {before after : Codes}
    (change : before.Change input users after) (keeps : ¬ input.mints) :
    Roll.Fewer before.invites after.invites := by
  cases change with
  | same => exact .refl _
  | purged mints => exact absurd mints keeps
  | minted mints => exact absurd mints keeps
  | without ids gone =>
    intro codeId invite found
    rw [Codes.lookup_without] at found
    exact ⟨invite, (Option.filter_eq_some_iff.mp found).1, rfl, rfl⟩
  | restarted restarts => exact .retain _ _

namespace Server

open Attempt

variable (primitives : Primitives)

/-- A step that neither mints, enrolls nor removes adds no invite and keeps all admissions. -/
theorem roll_other (server : Server) (orderly : server.hub.core.Orderly) (input : Input)
    (plain : input.action.plain = true) (mints : ¬ input.mints) (removes : ¬ input.removes) :
    server.hub.db.roll.Change server.hub input (step primitives server input).hub.db.roll := by
  have enrolls : ¬ input.enrolls := by
    rintro ⟨pubkey, codeId, name, startedAt, action⟩
    rw [action] at plain
    cases plain
  have keeps := (server.acts primitives orderly input enrolls).keepsAdmissions ?_
  · exact .of_kept ((server.change primitives input plain).fewer mints) keeps.1 keeps.2
  rintro ids (⟨user, conn, target, cascade, action, _⟩ | action)
  · exact removes (.inr ⟨user, conn, target, cascade, action⟩)
  · exact removes (.inl action)

/-- What is minted or purged is in the roll. -/
theorem change_of_mint {hub before after : Hub} {input : Input} {mintedBy : Option UserId}
    (core : before.core = hub.core) (db : before.db = hub.db) (mints : input.mints)
    (may : ∀ user, mintedBy = some user → before.MayMint user input.clock.unixNow)
    (minted : Hub.Mints input.clock.unixNow mintedBy before after) :
    hub.db.roll.Change hub input after.db.roll := by
  obtain ⟨invite, minter, expires, roll⟩ := minted
  rw [roll, db]
  refine .minted invite mints expires fun user same => ?_
  have may := may user (minter.symm.trans same)
  unfold Hub.MayMint at may ⊢
  rw [core, db] at may
  exact may

theorem change_of_purge {hub before after : Hub} {input : Input} (core : after.core = hub.core)
    (db : before.db = hub.db)
    (codes : after.codes = before.codes ∨ after.codes = before.codes.purged input.clock.unixNow) :
    hub.db.roll.Change hub input after.db.roll := by
  refine .of_kept ?_ (congrArg Core.admissions core) (congrArg Core.lastUser core)
  rw [← db]
  obtain same | purged := codes
  · rw [show after.db.invites = before.db.invites from congrArg Codes.invites same]
    exact .refl _
  · rw [show after.db.invites = _ from congrArg Codes.invites purged]
    exact .retain _ _

/-- What a request comes to is what dispatching it does. -/
theorem step_of_request (server : Server) {input : Input} {user : UserId} {conn : ConnId}
    {request : Request} (action : input.action = .request user conn request) (holds : Hub → Prop)
    (ends : (Hub.dispatch primitives user conn request input.draws input.clock).Ends
      (fun _ => holds) (fun _ => holds) { server.hub with faults := input.faults }) :
    holds (step primitives server input).hub := by
  rw [hub_step_request primitives server input action]
  exact ends.after

/-- The accounts a removal takes are gone, and they all might be removed. -/
def Takes (server : Server) (user target : UserId) (cascade : Bool) (after : Hub) : Prop :=
  (∀ id ∈ Hub.taken server.hub.db target cascade,
    server.hub.MayRemove user target (!cascade) id) ∧
  after.db.roll = server.hub.db.roll.without (Hub.taken server.hub.db target cascade)

/-- An answered removal takes everyone it is meant to, and a refused one nobody. -/
theorem dispatch_removeUser (server : Server) (user target : UserId) (conn : ConnId)
    (cascade : Bool) (draws : Nat → Fin (idChars + secretChars) → UInt8) (clock : Clock)
    (faults : List Bool) :
    (Hub.dispatch primitives user conn (.removeUser target cascade) draws clock).Ends
      (fun _ => server.Takes user target cascade) (fun _ after => after.db = server.hub.db)
      { server.hub with faults } := by
  refine Hub.dispatch_performs (fun before core db => ?_) fun _ _ _ db => db
  have removed := Hub.removeUser_roll user target cascade clock before
  refine .map (removed.mono ?_ fun _ after same => same.trans db)
  rintro _ after ⟨may, roll⟩
  rw [db] at may roll
  refine ⟨fun id member => ?_, roll⟩
  have may := may id member
  unfold Hub.MayRemove at may ⊢
  rw [core, db] at may
  exact may

theorem db_removeUser (server : Server) {input : Input} {user target : UserId} {conn : ConnId}
    {cascade : Bool} (action : input.action = .request user conn (.removeUser target cascade)) :
    (step primitives server input).hub.db = server.hub.db ∨
      server.Takes user target cascade (step primitives server input).hub :=
  step_of_request primitives server action
    (fun after => after.db = server.hub.db ∨ server.Takes user target cascade after)
    ((dispatch_removeUser primitives server user target conn cascade input.draws input.clock
      input.faults).mono (fun _ _ => .inr) fun _ _ => .inl)

theorem roll_remove (server : Server) (input : Input) (removes : input.removes) :
    server.hub.db.roll.Change server.hub input (step primitives server input).hub.db.roll := by
  obtain action | ⟨user, conn, target, cascade, action⟩ := removes
  · let changes (after : Hub) : Prop := server.hub.db.roll.Change server.hub input after.db.roll
    unfold step
    dsimp only
    rw [action]
    have both : (Hub.removeInactive input.clock).Ends (fun _ => changes) (fun _ => changes)
        { server.hub with faults := input.faults } := by
      refine (Hub.removeInactive_roll input.clock _).mono ?_ fun _ _ same => .of_db same
      rintro _ after ⟨ids, removed⟩
      show server.hub.db.roll.Change server.hub input after.db.roll
      rw [removed]
      exact .removed ids
    exact both.after
  · obtain same | ⟨_, roll⟩ := db_removeUser primitives server action
    · exact .of_db same
    · rw [roll]
      exact .removed _

theorem roll_mint (server : Server) (input : Input) (mints : input.mints) :
    server.hub.db.roll.Change server.hub input (step primitives server input).hub.db.roll := by
  let hub : Hub := { server.hub with faults := input.faults }
  let changes (after : Hub) : Prop := server.hub.db.roll.Change server.hub input after.db.roll
  obtain action | ⟨user, conn, action⟩ := id mints
  · unfold step
    dsimp only
    rw [action]
    have both : (Hub.mintInvite none input.draws input.clock.unixNow).Ends (fun _ => changes)
        (fun _ => changes) hub := by
      refine ((Hub.mintInvite_codes none input.draws input.clock.unixNow hub).and
        (Hub.mintInvite_ends (Hub.Idle.refl hub) none input.draws)).mono ?_ ?_
      · rintro _ after ⟨⟨attempt, _, codes⟩, core⟩
        refine change_of_mint rfl rfl mints (fun user same => ?_) (Hub.mints_of_codes core codes)
        cases same
      · rintro _ after ⟨codes, idle⟩
        exact change_of_purge idle.core rfl codes
    exact both.after
  · refine step_of_request primitives server action changes
      (Hub.dispatch_performs (fun before core db => ?_) fun _ _ _ db => .of_db db)
    refine .map ((((Hub.createInvite_codes user input.draws input.clock before).and
      (Hub.createInvite_mayMint user input.draws input.clock before)).and
      (Hub.createInvite_ends (Hub.Idle.refl before) user input.draws)).mono ?_ ?_)
    · rintro _ after ⟨⟨⟨attempt, _, codes⟩, may⟩, same⟩
      refine change_of_mint core db mints (fun other minter => ?_) (Hub.mints_of_codes same codes)
      obtain rfl := Option.some.inj minter
      exact may
    · rintro _ after ⟨⟨codes, _⟩, idle⟩
      exact change_of_purge (idle.core.trans core) db codes

/-- What an enrollment run does to the roll. -/
theorem roll_run (server : Server) (input : Input) (runs : input.action.plain = false) :
    server.hub.db.roll.Change server.hub input (step primitives server input).hub.db.roll := by
  let hub : Hub := { server.hub with faults := input.faults }
  let changes (after : Hub) : Prop := server.hub.db.roll.Change server.hub input after.db.roll
  have idle : Hub.Idle input.clock hub hub := Hub.Idle.refl hub
  have kept : ∀ after : Hub, Roll.Fewer hub.db.invites after.db.invites →
      after.core = hub.core → changes after := fun after fewer core =>
    .of_kept fewer (congrArg Core.admissions core) (congrArg Core.lastUser core)
  unfold step
  dsimp only
  cases action : input.action with
  | claimTry codeId =>
    have both : (Hub.claimTry codeId input.clock.unixNow).Ends (fun _ => changes)
        (fun _ => changes) hub :=
      ((Hub.claimTry_invites codeId input.clock.unixNow hub).and
        (Hub.claimTry_ends idle codeId input.clock.unixNow)).mono
          (fun _ after both => kept after both.1 both.2)
          fun _ after both => kept after both.1 both.2.core
    exact both.after
  | enroll pubkey codeId name startedAt =>
    have both : (Hub.enroll pubkey codeId name startedAt).Ends (fun _ => changes)
        (fun _ => changes) hub := by
      refine (Hub.enroll_db pubkey codeId name startedAt hub).mono ?_ fun _ _ same => .of_db same
      intro _ after same
      show server.hub.db.roll.Change server.hub input after.db.roll
      rw [same]
      obtain ⟨fewer, admissions, lastUser⟩ | ⟨invite, found, roll⟩ :=
        Hub.database_enroll pubkey codeId name startedAt server.hub.db
      · exact .of_kept fewer admissions lastUser
      · rw [roll]
        exact .enrolled codeId invite startedAt found
    exact both.after
  | endRun codeId mintedBy =>
    exact kept _ (Hub.endRun_invites codeId mintedBy hub) (Hub.core_endRun hub codeId mintedBy)
  | _ =>
    rw [action] at runs
    cases runs

theorem roll_change (server : Server) (orderly : server.hub.core.Orderly) (input : Input) :
    server.hub.db.roll.Change server.hub input (step primitives server input).hub.db.roll := by
  by_cases removes : input.removes
  · exact roll_remove primitives server input removes
  · by_cases mints : input.mints
    · exact roll_mint primitives server input mints
    · cases plain : input.action.plain with
      | true => exact roll_other primitives server orderly input plain mints removes
      | false => exact roll_run primitives server input plain

end Server

end Throcc
