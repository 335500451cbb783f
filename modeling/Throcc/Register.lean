/-
This file keeps a register of the sender secrets a key manager accepts over a
run of operations. An entry also says since when its sender is no longer a
trusted peer under the identity key they had when the secret was accepted.
-/

import Throcc.Changes
import Throcc.Run

namespace Throcc

namespace KeyManager

variable {crypto : Crypto}

/-- Whether the sender of an accepted secret is a trusted peer under the identity key they had
then. -/
def trusts (keys : KeyManager crypto) (acceptance : Acceptance crypto) : Bool :=
  (keys.peers.lookup acceptance.sender).any fun peer => peer.identityKey = acceptance.identityKey

end KeyManager

/-- An accepted secret, and when its sender stopped being trusted under that identity key. -/
structure Entry (crypto : Crypto) where
  acceptance : Acceptance crypto
  lapsed : Option Instant

namespace Entry

variable {crypto : Crypto}

def new (acceptance : Acceptance crypto) : Entry crypto := { acceptance, lapsed := none }

/-- Notes at `now` whether the sender is trusted no more. -/
def note (now : Instant) (keys : KeyManager crypto) (entry : Entry crypto) : Entry crypto :=
  if entry.lapsed.isNone ∧ ¬ keys.trusts entry.acceptance then
    { entry with lapsed := some now }
  else
    entry

@[simp] theorem acceptance_note (now : Instant) (keys : KeyManager crypto) (entry : Entry crypto) :
    (entry.note now keys).acceptance = entry.acceptance := by
  unfold note
  split <;> rfl

/-- The secret last accepted in a room from a user for an epoch. -/
def last (entries : List (Entry crypto)) (room : RoomId) (sender : UserId) (epoch : Epoch) :
    Option (Entry crypto) :=
  (entries.filter fun entry => entry.acceptance.room = room ∧ entry.acceptance.sender = sender ∧
    entry.acceptance.epoch = epoch).getLast?

theorem last_spec {entries : List (Entry crypto)} {room : RoomId} {sender : UserId}
    {epoch : Epoch} {entry : Entry crypto} (found : last entries room sender epoch = some entry) :
    entry ∈ entries ∧ entry.acceptance.room = room ∧ entry.acceptance.sender = sender ∧
      entry.acceptance.epoch = epoch := by
  have member := List.mem_of_getLast? found
  rw [List.mem_filter, decide_eq_true_eq] at member
  exact member

theorem last_note (now : Instant) (keys : KeyManager crypto) (entries : List (Entry crypto))
    (room : RoomId) (sender : UserId) (epoch : Epoch) :
    last (entries.map (note now keys)) room sender epoch =
      (last entries room sender epoch).map (note now keys) := by
  unfold last
  rw [List.filter_map, List.getLast?_map]
  refine congrArg (fun keep => ((entries.filter keep).getLast?).map _) (funext fun entry => ?_)
  simp

theorem last_concat (entries : List (Entry crypto)) (entry : Entry crypto) (room : RoomId)
    (sender : UserId) (epoch : Epoch) :
    last (entries ++ [entry]) room sender epoch =
      if entry.acceptance.room = room ∧ entry.acceptance.sender = sender ∧
        entry.acceptance.epoch = epoch then some entry
      else last entries room sender epoch := by
  unfold last
  rw [List.filter_append]
  by_cases same : entry.acceptance.room = room ∧ entry.acceptance.sender = sender ∧
      entry.acceptance.epoch = epoch
  · rw [if_pos same]
    simp [same]
  · rw [if_neg same]
    simp [same]

end Entry

/-- A key manager with the secrets it accepted so far, and the times of its last operation and
its last tick. -/
structure Register (crypto : Crypto) where
  keys : KeyManager crypto
  entries : List (Entry crypto)
  ticked : Option Instant
  now : Instant

namespace Register

variable {crypto : Crypto}

def start (keys : KeyManager crypto) (now : Instant) : Register crypto where
  keys := keys
  entries := []
  ticked := none
  now := now

/-- Enters what a stage of an operation accepts, and notes whom it leaves untrusted. -/
def enter (now : Instant) (entries : List (Entry crypto)) (stage : Stage crypto) :
    List (Entry crypto) :=
  (entries ++ stage.accepted.map Entry.new).map (Entry.note now stage.after)

def tickedAt (ticked : Option Instant) (clock : Clock) : KeyOp crypto → Option Instant
  | .tick => some clock.now
  | _ => ticked

def step (register : Register crypto) (input : Clock × KeyOp crypto) : Register crypto where
  keys := (register.keys.perform input.1 input.2).2
  entries := (register.keys.stages input.1 input.2).foldl (enter input.1.now) register.entries
  ticked := tickedAt register.ticked input.1 input.2
  now := input.1.now

/-- The operation comes no earlier than the one before it. -/
def InOrder (register : Register crypto) (input : Clock × KeyOp crypto) : Prop :=
  register.now ≤ input.1.now

open KeyManager

/-- What every change keeps, and noting who is trusted no more, every operation keeps. -/
theorem stages_keep {now : Instant} (wraps : KeyManager crypto → RoomId → Prop)
    (holds : List (Entry crypto) → KeyManager crypto → Prop)
    (kept : ∀ entries before acceptance after, Change now wraps before acceptance after →
      holds entries before →
      holds (entries ++ acceptance.toList.map Entry.new) after)
    (noted : ∀ entries keys, holds entries keys → holds (entries.map (Entry.note now keys)) keys)
    {stages : List (Stage crypto)} {before after : KeyManager crypto}
    (leads : Leads now stages before after)
    (named : ∀ stage ∈ stages, ∀ keys room, stage.wrapping = some (keys, room) → wraps keys room)
    {entries : List (Entry crypto)} (start : holds entries before) :
    holds (stages.foldl (enter now) entries) after := by
  induction stages generalizing before entries with
  | nil => exact leads ▸ start
  | cons stage rest inductionHypothesis =>
    rw [List.forall_mem_cons] at named
    have followed := (leads.1.changes.mono named.1).keeps
      (fun accepted keys => holds (entries ++ accepted.map Entry.new) keys)
      (fun accepted before acceptance after change held => by
        rw [List.map_append, ← List.append_assoc]
        exact kept _ _ _ _ change held) [] (by rwa [List.map_nil, List.append_nil])
    exact inductionHypothesis leads.2 named.2 (noted _ _ followed)

end Register

end Throcc
