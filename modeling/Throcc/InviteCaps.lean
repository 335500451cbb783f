/-
This file proves how many invites a user has who was never an admin: together
with the users they brought in during the last day no more than their cap. An
enrollment turns an invite into a user, so it never raises the two together, and
whoever mints is checked against the cap right before.
-/

import Throcc.Accounts
import Throcc.Reachable

namespace Throcc

namespace Roll

variable {roll : Roll} {user : UserId}

/-- The code ids of the invites a user minted. -/
def mintedBy (roll : Roll) (user : UserId) : Finset String :=
  (roll.invites.retain fun _ invite => invite.mintedBy = some user).keys

/-- The users a user brought in since some time. -/
def broughtSince (roll : Roll) (user : UserId) (since : Nat) : Finset UserId :=
  (roll.admissions.retain fun _ admission =>
    admission.invitedBy = some user ∧ since < admission.createdAt).keys

/-- How many invites and users count for a user. -/
def counted (roll : Roll) (user : UserId) (since : Nat) : Nat :=
  (roll.mintedBy user).card + (roll.broughtSince user since).card

theorem mem_mintedBy (codeId : String) :
    codeId ∈ roll.mintedBy user ↔
      ∃ invite, roll.invites.lookup codeId = some invite ∧ invite.mintedBy = some user := by
  unfold mintedBy
  simp only [Map.mem_keys_iff, Map.lookup_retain, Option.filter_eq_some_iff, decide_eq_true_eq]

theorem mem_broughtSince (since : Nat) (id : UserId) :
    id ∈ roll.broughtSince user since ↔ ∃ admission, roll.admissions.lookup id = some admission ∧
      admission.invitedBy = some user ∧ since < admission.createdAt := by
  unfold broughtSince
  simp only [Map.mem_keys_iff, Map.lookup_retain, Option.filter_eq_some_iff, decide_eq_true_eq]

/-- What takes invites and users away lowers the count. -/
theorem counted_le {after : Roll} {since since' : Nat}
    (invites : after.mintedBy user ⊆ roll.mintedBy user)
    (users : after.broughtSince user since' ⊆ roll.broughtSince user since) :
    after.counted user since' ≤ roll.counted user since :=
  Nat.add_le_add (Finset.card_le_card invites) (Finset.card_le_card users)

theorem broughtSince_anti {since since' : Nat} (le : since ≤ since') :
    roll.broughtSince user since' ⊆ roll.broughtSince user since := by
  intro id member
  obtain ⟨admission, found, invited, later⟩ := (mem_broughtSince since' id).mp member
  exact (mem_broughtSince since id).mpr ⟨admission, found, invited, le.trans_lt later⟩

theorem counted_fewer {invites : Map String InviteRow} (fewer : Fewer roll.invites invites)
    (since : Nat) : counted { roll with invites } user since ≤ roll.counted user since := by
  refine counted_le (fun codeId member => ?_) fun _ => id
  obtain ⟨invite, found, minted⟩ := (mem_mintedBy codeId).mp member
  obtain ⟨stored, there, same, _⟩ := fewer codeId invite found
  exact (mem_mintedBy codeId).mpr ⟨stored, there, same.symm.trans minted⟩

theorem counted_without (ids : List UserId) (since : Nat) :
    (roll.without ids).counted user since ≤ roll.counted user since := by
  refine counted_le (fun codeId member => ?_) fun id member => ?_
  · obtain ⟨invite, found, minted⟩ := (mem_mintedBy codeId).mp member
    rw [lookup_invites_without] at found
    exact (mem_mintedBy codeId).mpr ⟨invite, (Option.filter_eq_some_iff.mp found).1, minted⟩
  · obtain ⟨admission, found, invited, later⟩ := (mem_broughtSince since id).mp member
    rw [lookup_admissions_without] at found
    split at found
    · cases found
    · obtain ⟨stored, there, rfl⟩ := Option.map_eq_some_iff.mp found
      split at invited
      · cases invited
      · rename_i kept
        rw [if_neg kept] at later
        exact (mem_broughtSince since id).mpr ⟨stored, there, invited, later⟩

/-- An invite is gone before its user counts, and they count for no one else. -/
theorem counted_enroll {codeId : String} {invite : InviteRow}
    (found : roll.invites.lookup codeId = some invite) (startedAt since : Nat) :
    (roll.enroll codeId ⟨invite.mintedBy, startedAt⟩).counted user since ≤
      roll.counted user since := by
  let after := roll.enroll codeId ⟨invite.mintedBy, startedAt⟩
  have invites : ∀ other, other ∈ after.mintedBy user →
      other ≠ codeId ∧ other ∈ roll.mintedBy user := by
    intro other member
    obtain ⟨stored, there, minted⟩ := (mem_mintedBy other).mp member
    have there : (roll.invites.erase codeId).lookup other = some stored := there
    rw [Map.lookup_erase_ite] at there
    split at there
    · cases there
    · rename_i different
      exact ⟨different, (mem_mintedBy other).mpr ⟨stored, there, minted⟩⟩
  have users : ∀ id, id ∈ after.broughtSince user since →
      id = roll.lastUser + 1 ∧ invite.mintedBy = some user ∨
        id ∈ roll.broughtSince user since := by
    intro id member
    obtain ⟨admission, there, invited, later⟩ := (mem_broughtSince since id).mp member
    have there : (roll.admissions.insert (roll.lastUser + 1)
      ⟨invite.mintedBy, startedAt⟩).lookup id = some admission := there
    rw [Map.lookup_insert_ite] at there
    split at there
    · rename_i new
      obtain rfl := Option.some.inj there
      exact .inl ⟨new, invited⟩
    · exact .inr ((mem_broughtSince since id).mpr ⟨admission, there, invited, later⟩)
  by_cases own : invite.mintedBy = some user
  · have one : codeId ∈ roll.mintedBy user := (mem_mintedBy codeId).mpr ⟨invite, found, own⟩
    have fewer : (after.mintedBy user).card + 1 ≤ (roll.mintedBy user).card := by
      rw [← Finset.card_erase_add_one one]
      refine Nat.add_le_add_right (Finset.card_le_card fun other member => ?_) 1
      exact Finset.mem_erase.mpr (invites other member)
    have more : (after.broughtSince user since).card ≤
        (roll.broughtSince user since).card + 1 := by
      refine (Finset.card_le_card fun id member => ?_).trans
        (Finset.card_insert_le (roll.lastUser + 1) _)
      rcases users id member with ⟨new, _⟩ | before
      · exact new ▸ Finset.mem_insert_self _ _
      · exact Finset.mem_insert_of_mem before
    have sum := Nat.add_le_add fewer more
    show (after.mintedBy user).card + (after.broughtSince user since).card ≤ _
    unfold counted
    omega
  · refine counted_le (fun other member => (invites other member).2) fun id member => ?_
    exact (users id member).resolve_left fun new => own new.2

theorem mintedBy_mint (now : Nat) (invite : InviteRow) {codeId : String}
    (member : codeId ∈ (roll.mint now invite).mintedBy user) :
    codeId = invite.codeId ∧ invite.mintedBy = some user ∨
      ∃ stored, roll.invites.lookup codeId = some stored ∧ stored.mintedBy = some user ∧
        now < stored.expiresAt := by
  obtain ⟨stored, there, minted⟩ := (mem_mintedBy codeId).mp member
  unfold mint at there
  dsimp only at there
  rw [Map.lookup_insert_ite] at there
  split at there
  · rename_i new
    obtain rfl := Option.some.inj there
    exact .inl ⟨new, minted⟩
  · rw [Map.lookup_retain, Option.filter_eq_some_iff] at there
    exact .inr ⟨stored, there.1, minted, of_decide_eq_true there.2⟩

/-- Minting for someone else raises no count. -/
theorem counted_mint_other {invite : InviteRow} (other : invite.mintedBy ≠ some user)
    (now since : Nat) : (roll.mint now invite).counted user since ≤ roll.counted user since := by
  refine counted_le (fun codeId member => ?_) fun _ => id
  rcases mintedBy_mint now invite member with ⟨_, own⟩ | ⟨stored, there, minted, _⟩
  · exact absurd own other
  · exact (mem_mintedBy codeId).mpr ⟨stored, there, minted⟩

/-- Whoever is below their cap when they mint is within it afterwards. -/
theorem counted_mint {db : Database} (now : Nat) (invite : InviteRow) {cap : Nat}
    (below : db.invitesUsed user now (now - inviteLifetime) < cap) {later : Nat} (le : now ≤ later) :
    (db.roll.mint now invite).counted user (later - inviteLifetime) ≤ cap := by
  have invites : ((db.roll.mint now invite).mintedBy user).card ≤
      (db.invites.retain fun _ invite =>
        invite.mintedBy = some user ∧ now < invite.expiresAt).keys.card + 1 := by
    refine (Finset.card_le_card fun codeId member => ?_).trans
      (Finset.card_insert_le invite.codeId _)
    rcases mintedBy_mint now invite member with ⟨new, _⟩ | ⟨stored, there, minted, live⟩
    · exact new ▸ Finset.mem_insert_self _ _
    · refine Finset.mem_insert_of_mem ((Map.mem_keys_iff _ _).mpr ⟨stored, ?_⟩)
      rw [Map.lookup_retain, Option.filter_eq_some_iff]
      exact ⟨there, decide_eq_true ⟨minted, live⟩⟩
  have users : ((db.roll.mint now invite).broughtSince user (later - inviteLifetime)).card ≤
      (db.users.retain fun _ row =>
        row.invitedBy = some user ∧ now - inviteLifetime < row.createdAt).keys.card := by
    refine Finset.card_le_card fun id member => ?_
    have member := broughtSince_anti (Nat.sub_le_sub_right le inviteLifetime) member
    obtain ⟨admission, there, invited, since⟩ := (mem_broughtSince _ id).mp member
    have there : (db.users.mapValues fun _ row => row.admission).lookup id = some admission := there
    rw [Map.lookup_mapValues] at there
    obtain ⟨row, stored, rfl⟩ := Option.map_eq_some_iff.mp there
    refine (Map.mem_keys_iff _ _).mpr ⟨row, ?_⟩
    rw [Map.lookup_retain, Option.filter_eq_some_iff]
    exact ⟨stored, decide_eq_true ⟨invited, since⟩⟩
  unfold Database.invitesUsed at below
  unfold counted
  omega

end Roll

/-! ### Runs -/

namespace Server

variable (primitives : Primitives)

/-- The user is no admin. -/
def NoAdmin (server : Server) (user : UserId) : Prop :=
  ∀ row, server.hub.db.users.lookup user = some row → row.role ≠ .admin

theorem counted_change {server : Server} {input : Input} {after : Roll} {user : UserId}
    (consistent : server.hub.core.Consistent) (never : server.NoAdmin user) {now : Nat}
    (read : input.clock.unixNow ≤ now)
    (capped : server.hub.db.roll.counted user (now - inviteLifetime) ≤ dailyInvites)
    (change : server.hub.db.roll.Change server.hub input after) :
    after.counted user (now - inviteLifetime) ≤ dailyInvites := by
  cases change with
  | fewer invites fewer => exact (Roll.counted_fewer fewer _).trans capped
  | minted invite mints expires may =>
    by_cases own : invite.mintedBy = some user
    · obtain ⟨seat, seated, below⟩ := may user own
      obtain ⟨row, stored⟩ := Finmap.mem_iff.mp
        (consistent.enrolled user (Finmap.mem_of_lookup_eq_some seated))
      have role : seat.row.kept.role = row.kept.role :=
        congrArg UserRow.role (consistent.recorded.current user seat row seated stored)
      have role : seat.row.role = row.role := role
      have cap : inviteCap seat.row.role = some dailyInvites :=
        if_pos (role ▸ never row stored)
      exact Roll.counted_mint _ invite (below dailyInvites cap) read
    · exact (Roll.counted_mint_other own _ _).trans capped
  | enrolled codeId invite startedAt found =>
    exact (Roll.counted_enroll found startedAt _).trans capped
  | removed ids => exact (Roll.counted_without ids _).trans capped

/-- A user who was never an admin has no more unexpired invites, together with the stored users
they brought in during the last day, than a day's cap, at any moment after the clock readings so
far. -/
theorem run_inviteCap (fingerprint : Fingerprint) (clock : Clock) (inputs : List Input)
    (user : UserId)
    (never : ∀ earlier, earlier <+: inputs →
      (run (step primitives) (fresh fingerprint clock) earlier).NoAdmin user)
    {now : Nat} (read : ∀ input ∈ inputs, input.clock.unixNow ≤ now) :
    (run (step primitives) (fresh fingerprint clock) inputs).hub.db.invitesUsed user now
      (now - inviteLifetime) ≤ dailyInvites := by
  have counted : ∀ server : Server,
      server.hub.db.invitesUsed user now (now - inviteLifetime) ≤
        server.hub.db.roll.counted user (now - inviteLifetime) := by
    intro server
    refine Nat.add_le_add (Finset.card_le_card fun codeId member => ?_)
      (Finset.card_le_card fun id member => ?_)
    · obtain ⟨invite, found⟩ := (Map.mem_keys_iff _ _).mp member
      rw [Map.lookup_retain, Option.filter_eq_some_iff] at found
      exact (Roll.mem_mintedBy codeId).mpr ⟨invite, found.1, (of_decide_eq_true found.2).1⟩
    · obtain ⟨row, found⟩ := (Map.mem_keys_iff _ _).mp member
      rw [Map.lookup_retain, Option.filter_eq_some_iff] at found
      refine (Roll.mem_broughtSince _ id).mpr ⟨row.admission, ?_, of_decide_eq_true found.2⟩
      show (Map.mapValues _ server.hub.db.users).lookup id = _
      rw [Map.lookup_mapValues, found.1, Option.map_some]
  refine (counted _).trans ?_
  induction inputs using List.reverseRecOn with
  | nil => exact Nat.zero_le _
  | append_singleton inputs input inductionHypothesis =>
    rw [List.forall_mem_append, List.forall_mem_singleton] at read
    have consistent := run_consistent primitives fingerprint clock inputs
    have capped := inductionHypothesis
      (fun earlier isPrefix => never earlier (isPrefix.trans (List.prefix_append _ _))) read.1
    rw [run_concat]
    exact counted_change consistent (never inputs (List.prefix_append _ _)) read.2 capped
      (roll_change primitives _ consistent.toOrderly input)

/-- The second user, whom the admin invited. -/
def secondUser : UserRow where
  id := 2
  pubkey := 8
  encryptionKey := none
  name := "user"
  avatar := none
  role := .user
  invitedBy := some 1
  createdAt := 1

/-- The admin invites another user, who signs in and mints an invite too. -/
def userMints : List Input :=
  adminSignsIn ++
    [atOnce (.request 1 1 .createInvite), atOnce (.enroll 8 "000" "user" 1),
      atOnce (.connect secondUser none), atOnce (.request 2 2 .createInvite)]

theorem run_inviteCap_userMints :
    (run (step openPrimitives) (fresh 0 ⟨0, 0⟩) userMints).hub.db.invitesUsed 2 1
      (1 - inviteLifetime) ≤ dailyInvites := by
  refine run_inviteCap openPrimitives 0 ⟨0, 0⟩ userMints 2 (fun earlier isPrefix row found => ?_)
    (by decide)
  have never : ∀ earlier ∈ userMints.inits,
      ((run (step openPrimitives) (fresh 0 ⟨0, 0⟩) earlier).hub.db.users.lookup 2).all
        (·.role ≠ .admin) = true := by
    decide +kernel
  have none_ := never earlier ((List.mem_inits _ _).mpr isPrefix)
  rw [found] at none_
  exact of_decide_eq_true none_

end Server

end Throcc
