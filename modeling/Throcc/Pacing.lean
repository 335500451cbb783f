/-
This file holds a pacer: it merges requests, of which the greater kind wins, and
grants them some spacing apart. A request is granted as it was asked for or as a
greater one, or it waits; nothing is granted that wasn't asked for.

Pacers may feed one another, so what is said of a request is said of every
pacer on its way: `Wants` is what a pacer still has to grant, and it goes with
the grant or it stays.
-/

import Mathlib.Order.MinMax
import Mathlib.Data.List.Chain

namespace Throcc

/-- What is asked for and not granted yet, and the time of the last grant. -/
structure Pacer (Kind Time : Type) where
  wanted : Option Kind := none
  last : Option Time := none

namespace Pacer

variable {Kind Time : Type}

/-! ### Requests are merged -/

section Asking

variable [LinearOrder Kind] {pacer : Pacer Kind Time} {kind other : Kind}

def ask (pacer : Pacer Kind Time) (kind : Kind) : Pacer Kind Time :=
  { pacer with wanted := some (pacer.wanted.elim kind fun wanted => max wanted kind) }

/-- The pacer still has to grant this kind or a greater one. -/
def Wants (pacer : Pacer Kind Time) (kind : Kind) : Prop := ∃ wanted ∈ pacer.wanted, kind ≤ wanted

theorem wants_ask (pacer : Pacer Kind Time) (kind : Kind) : (pacer.ask kind).Wants kind := by
  refine ⟨_, rfl, ?_⟩
  cases pacer.wanted with
  | none => exact le_refl kind
  | some wanted => exact le_max_right wanted kind

theorem Wants.ask (wants : pacer.Wants kind) (other : Kind) : (pacer.ask other).Wants kind := by
  obtain ⟨wanted, found, most⟩ := wants
  refine ⟨_, rfl, ?_⟩
  rw [Option.mem_def.mp found]
  exact most.trans (le_max_left wanted other)

/-- A pacer wants only what was asked of it. -/
theorem wanted_ask (found : other ∈ (pacer.ask kind).wanted) :
    other = kind ∨ other ∈ pacer.wanted := by
  unfold Pacer.ask at found
  cases wanted : pacer.wanted with
  | none =>
    rw [wanted] at found
    exact .inl (Option.some.inj found).symm
  | some before =>
    rw [wanted] at found
    have same : max before kind = other := Option.some.inj found
    obtain greater | greater := max_choice before kind
    · exact .inr (congrArg some (greater.symm.trans same))
    · exact .inl (same.symm.trans greater)

end Asking

/-! ### Grants are spaced -/

section Granting

variable [Add Time] [LE Time] {pacer : Pacer Kind Time} {spacing now : Time}

/-- The last grant is far enough back. -/
def Ready (pacer : Pacer Kind Time) (spacing now : Time) : Prop :=
  ∀ last ∈ pacer.last, last + spacing ≤ now

/-- The grants so far are spaced, and the pacer knows the last of them. -/
structure Spaced (spacing : Time) (grants : List (Time × Kind)) (pacer : Pacer Kind Time) :
    Prop where
  spaced : grants.IsChain fun first second => first.1 + spacing ≤ second.1
  last : pacer.last = grants.getLast?.map Prod.fst

theorem Spaced.ready {grants : List (Time × Kind)} (spaced : Spaced spacing grants pacer)
    (due : ∀ last ∈ grants.getLast?, last.1 + spacing ≤ now) : pacer.Ready spacing now := by
  intro time found
  rw [spaced.last, Option.mem_def, Option.map_eq_some_iff] at found
  obtain ⟨last, granted, rfl⟩ := found
  exact due last granted

theorem spaced_nil : Spaced spacing [] ({} : Pacer Kind Time) := ⟨.nil, rfl⟩

variable [DecidableLE Time]

instance (pacer : Pacer Kind Time) (spacing now : Time) : Decidable (pacer.Ready spacing now) :=
  inferInstanceAs (Decidable (∀ last ∈ pacer.last, last + spacing ≤ now))

/-- Grants what is wanted, if it is time. -/
def poll (pacer : Pacer Kind Time) (spacing now : Time) : Option Kind × Pacer Kind Time :=
  if pacer.Ready spacing now then
    match pacer.wanted with
    | some kind => (some kind, { wanted := none, last := some now })
    | none => (none, pacer)
  else (none, pacer)

/-- The two outcomes of a poll. -/
theorem poll_cases (pacer : Pacer Kind Time) (spacing now : Time) :
    (∃ kind ∈ pacer.wanted, pacer.Ready spacing now ∧
      pacer.poll spacing now = (some kind, { wanted := none, last := some now })) ∨
    (pacer.poll spacing now = (none, pacer) ∧
      (pacer.Ready spacing now → pacer.wanted = none)) := by
  unfold poll
  by_cases ready : pacer.Ready spacing now
  · rw [if_pos ready]
    cases wanted : pacer.wanted with
    | none => exact .inr ⟨rfl, fun _ => rfl⟩
    | some kind => exact .inl ⟨kind, rfl, ready, rfl⟩
  · rw [if_neg ready]
    exact .inr ⟨rfl, fun yes => absurd yes ready⟩

theorem poll_of_unwanted (unwanted : pacer.wanted = none) :
    pacer.poll spacing now = (none, pacer) := by
  obtain ⟨kind, found, -⟩ | ⟨polled, -⟩ := pacer.poll_cases spacing now
  · rw [unwanted] at found
    cases found
  · exact polled

/-- What is granted was wanted, and what is wanted after a poll was before. -/
theorem wanted_poll (pacer : Pacer Kind Time) (spacing now : Time) :
    (∀ granted ∈ (pacer.poll spacing now).1, granted ∈ pacer.wanted) ∧
      ∀ wanted ∈ (pacer.poll spacing now).2.wanted, wanted ∈ pacer.wanted := by
  obtain ⟨kind, found, -, polled⟩ | ⟨polled, -⟩ := pacer.poll_cases spacing now
  · rw [polled]
    constructor
    · rintro _ ⟨⟩
      exact found
    · rintro _ ⟨⟩
  · rw [polled]
    constructor
    · rintro _ ⟨⟩
    · exact fun _ wanted => wanted

theorem Spaced.poll {grants : List (Time × Kind)} (spaced : Spaced spacing grants pacer)
    (now : Time) :
    Spaced spacing (grants ++ (pacer.poll spacing now).1.toList.map fun kind => (now, kind))
      (pacer.poll spacing now).2 := by
  obtain ⟨kind, -, ready, polled⟩ | ⟨polled, -⟩ := pacer.poll_cases spacing now
  · rw [polled]
    refine ⟨?_, ?_⟩
    · refine List.IsChain.append spaced.spaced (List.isChain_singleton _) ?_
      rintro before last _ ⟨⟩
      refine ready before.1 ?_
      rw [spaced.last, Option.mem_def.mp last]
      rfl
    · show some now = Option.map Prod.fst (grants ++ [(now, kind)]).getLast?
      rw [List.getLast?_concat]
      rfl
  · rw [polled, Option.toList_none, List.map_nil, List.append_nil]
    exact spaced

variable [LinearOrder Kind] {kind : Kind}

omit [DecidableLE Time] in
theorem Spaced.ask {grants : List (Time × Kind)} (spaced : Spaced spacing grants pacer)
    (kind : Kind) : Spaced spacing grants (pacer.ask kind) := ⟨spaced.spaced, spaced.last⟩

theorem Wants.poll (wants : pacer.Wants kind) (spacing now : Time) :
    (∃ granted ∈ (pacer.poll spacing now).1, kind ≤ granted) ∨
      (pacer.poll spacing now).2.Wants kind := by
  obtain ⟨granted, found, -, polled⟩ | ⟨polled, -⟩ := pacer.poll_cases spacing now
  · rw [polled]
    obtain ⟨wanted, found', most⟩ := wants
    rw [Option.mem_unique found' found] at most
    exact .inl ⟨granted, rfl, most⟩
  · rw [polled]
    exact .inr wants

/-- A poll in time grants what is wanted. -/
theorem Wants.granted (wants : pacer.Wants kind) (ready : pacer.Ready spacing now) :
    ∃ granted ∈ (pacer.poll spacing now).1, kind ≤ granted := by
  obtain ⟨wanted, found, most⟩ := wants
  obtain ⟨granted, found', -, polled⟩ | ⟨-, empty⟩ := pacer.poll_cases spacing now
  · rw [Option.mem_unique found found'] at most
    rw [polled]
    exact ⟨granted, rfl, most⟩
  · rw [empty ready] at found
    cases found

end Granting

end Pacer

end Throcc
