/-
This file holds what a reservoir that refills at a steady rate, up to a limit, gives
out: draws never take more over a stretch of time than the limit and what is
refilled in it, and if what is asked for keeps to that over every stretch, then
all of it is given.
-/

import Mathlib.Algebra.Order.Field.Basic
import Mathlib.Data.List.Infix
import Mathlib.Tactic.Linarith
import Mathlib.Tactic.Ring

namespace Throcc

variable {Number : Type} [Field Number]

/-- A cost at a time. -/
structure Draw (Number : Type) where
  cost : Number
  time : Number

def costOf (draws : List (Draw Number)) : Number := (draws.map Draw.cost).sum

theorem costOf_cons (draw : Draw Number) (draws : List (Draw Number)) :
    costOf (draw :: draws) = draw.cost + costOf draws := List.sum_cons

/-- What a reservoir holds, and since when. -/
structure Reservoir (Number : Type) where
  level : Number
  since : Number

namespace Reservoir

variable [LinearOrder Number] (limit rate : Number)

def refilled (reservoir : Reservoir Number) (time : Number) : Reservoir Number where
  level := min (reservoir.level + (time - reservoir.since) * rate) limit
  since := time

/-- Takes the cost from what the reservoir holds by then. -/
def drawn (reservoir : Reservoir Number) (draw : Draw Number) : Reservoir Number :=
  { reservoir.refilled limit rate draw.time with
    level := (reservoir.refilled limit rate draw.time).level - draw.cost }

/-- The reservoir may give these draws one after the other, and wait in between. -/
inductive Gives : Reservoir Number → List (Draw Number) → Prop
  | nil (reservoir : Reservoir Number) : Gives reservoir []
  | wait {reservoir : Reservoir Number} {draws : List (Draw Number)} (time : Number)
    (later : Gives (reservoir.refilled limit rate time) draws) : Gives reservoir draws
  | draw {reservoir : Reservoir Number} {draw : Draw Number} {draws : List (Draw Number)}
    (enough : draw.cost ≤ (reservoir.refilled limit rate draw.time).level)
    (later : Gives (reservoir.drawn limit rate draw) draws) : Gives reservoir (draw :: draws)

end Reservoir

/-! ### Draws that keep to a limit and a rate -/

variable [LinearOrder Number]

/-- However far they go, the draws take no more than `level` and what is refilled from `since`
until then. -/
def Affords (rate level since : Number) (draws : List (Draw Number)) : Prop :=
  ∀ first rest, first :: rest <+: draws → ∀ last ∈ (first :: rest).getLast?,
    costOf (first :: rest) ≤ level + (last.time - since) * rate

/-- In every stretch of time the draws take no more than the limit and what is refilled in it. -/
def Conforms (limit rate : Number) (draws : List (Draw Number)) : Prop :=
  ∀ first rest, first :: rest <:+: draws → ∀ last ∈ (first :: rest).getLast?,
    costOf (first :: rest) ≤ limit + (last.time - first.time) * rate

variable {limit rate level since time : Number} {draws : List (Draw Number)}

theorem affords_nil : Affords rate level since [] := by
  intro first rest none
  cases List.prefix_nil.mp none

theorem conforms_nil : Conforms limit rate [] := by
  intro first rest none
  cases List.infix_nil.mp none

/-- Waiting and drawing later takes from what has been refilled. -/
theorem affords_shift :
    Affords rate (level + (time - since) * rate) time draws ↔ Affords rate level since draws := by
  refine forall₃_congr fun first rest _ => forall₂_congr fun last _ => ?_
  rw [show level + (time - since) * rate + (last.time - time) * rate =
    level + (last.time - since) * rate from by ring]

theorem conforms_cons (draw : Draw Number) : Conforms limit rate (draw :: draws) ↔
    Affords rate limit draw.time (draw :: draws) ∧ Conforms limit rate draws := by
  constructor
  · intro conforms
    refine ⟨fun first rest part last ends => ?_, fun first rest part last ends =>
      conforms first rest (part.trans (List.suffix_cons draw draws).isInfix) last ends⟩
    obtain ⟨rfl, _⟩ := List.cons_prefix_cons.mp part
    exact conforms first rest part.isInfix last ends
  · rintro ⟨affords, conforms⟩ first rest part last ends
    obtain part | part := List.infix_cons_iff.mp part
    · obtain ⟨rfl, _⟩ := List.cons_prefix_cons.mp part
      exact affords first rest part last ends
    · exact conforms first rest part last ends

variable [IsStrictOrderedRing Number]

theorem affords_min {other : Number} : Affords rate (min level other) since draws ↔
    Affords rate level since draws ∧ Affords rate other since draws := by
  have both : ∀ cost more : Number, cost ≤ min level other + more ↔
      cost ≤ level + more ∧ cost ≤ other + more := by
    intro cost more
    rw [← min_add_add_right, le_min_iff]
  simp only [Affords, both]
  exact ⟨fun affords => ⟨fun first rest part last ends => (affords first rest part last ends).1,
      fun first rest part last ends => (affords first rest part last ends).2⟩,
    fun ⟨one, two⟩ first rest part last ends =>
      ⟨one first rest part last ends, two first rest part last ends⟩⟩

theorem affords_cons (draw : Draw Number) : Affords rate level draw.time (draw :: draws) ↔
    draw.cost ≤ level ∧ Affords rate (level - draw.cost) draw.time draws := by
  constructor
  · intro affords
    refine ⟨?_, fun first rest part last ends => ?_⟩
    · have one := affords draw [] (List.prefix_append [draw] draws) draw rfl
      rw [costOf_cons, sub_self, zero_mul, add_zero] at one
      exact (le_add_of_nonneg_right le_rfl).trans one
    · have more := affords draw (first :: rest) ((List.prefix_cons_inj draw).mpr part) last
        (by rw [List.getLast?_cons_cons]; exact ends)
      rw [costOf_cons] at more
      linarith
  · rintro ⟨enough, affords⟩ first rest whole last ends
    obtain ⟨rfl, part⟩ := List.cons_prefix_cons.mp whole
    rw [costOf_cons]
    cases rest with
    | nil =>
      obtain rfl : first = last := Option.some.inj ends
      rw [sub_self, zero_mul, add_zero]
      exact (add_zero first.cost).le.trans enough
    | cons second rest =>
      rw [List.getLast?_cons_cons] at ends
      have more := affords second rest part last ends
      linarith

/-! ### What a reservoir gives -/

namespace Reservoir

variable {reservoir : Reservoir Number}

/-- Whatever is asked for, what is given keeps to the limit and the rate. -/
theorem Gives.conforms (gives : reservoir.Gives limit rate draws) :
    Affords rate reservoir.level reservoir.since draws ∧ Conforms limit rate draws := by
  induction gives with
  | nil reservoir => exact ⟨affords_nil, conforms_nil⟩
  | wait time _ inductionHypothesis =>
    obtain ⟨affords, conforms⟩ := inductionHypothesis
    unfold refilled at affords
    rw [affords_min, affords_shift] at affords
    exact ⟨affords.1, conforms⟩
  | draw enough _ inductionHypothesis =>
    obtain ⟨affords, conforms⟩ := inductionHypothesis
    have both := (affords_cons _).mpr ⟨enough, affords⟩
    unfold refilled at both
    rw [affords_min, affords_shift] at both
    exact ⟨both.1, (conforms_cons _).mpr ⟨both.2, conforms⟩⟩

variable (limit rate reservoir) in
/-- The draws keep to what the reservoir holds, and to its limit and rate. -/
structure Suits (draws : List (Draw Number)) : Prop where
  affords : Affords rate reservoir.level reservoir.since draws
  conforms : Conforms limit rate draws

/-- The first of draws that keep to the limit and the rate is given, and leaves enough for the
others. -/
theorem Suits.draw {draw : Draw Number} (suits : reservoir.Suits limit rate (draw :: draws)) :
    draw.cost ≤ (reservoir.refilled limit rate draw.time).level ∧
      (reservoir.drawn limit rate draw).Suits limit rate draws := by
  obtain ⟨limited, conforms⟩ := (conforms_cons draw).mp suits.conforms
  have both := affords_min.mpr ⟨affords_shift.mpr suits.affords, limited⟩
  obtain ⟨enough, affords⟩ := (affords_cons draw).mp both
  exact ⟨enough, affords, conforms⟩

/-- What keeps to the limit and the rate suits a reservoir that was full before. -/
theorem suits_full (refills : 0 ≤ rate) (conforms : Conforms limit rate draws)
    (after : ∀ draw ∈ draws, since ≤ draw.time) :
    Suits limit rate ⟨limit, since⟩ draws := by
  refine ⟨fun first rest part last ends => ?_, conforms⟩
  have started := after first (part.subset List.mem_cons_self)
  have more : (last.time - first.time) * rate ≤ (last.time - since) * rate :=
    mul_le_mul_of_nonneg_right (sub_le_sub_left started _) refills
  exact (conforms first rest part.isInfix last ends).trans (add_le_add_right more limit)

end Reservoir

end Throcc
