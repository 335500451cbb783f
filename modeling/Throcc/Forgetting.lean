/-
This file is about maps that keep a cell for every key and forget the cells that
have become like fresh ones. As long as time does not go back they answer like
cells that are never forgotten.
-/

import Throcc.Map

namespace Throcc

/-- How cells answer requests as time passes. -/
structure Meter (Cell Request Answer : Type) where
  fresh : Nat → Cell
  ask : Request → Nat → Cell → Answer × Cell
  /-- Whether a cell has become like a fresh one. -/
  isFull : Nat → Cell → Bool × Cell

/-- A request for a key at a time. -/
structure Query (Key Request : Type) where
  key : Key
  request : Request
  now : Nat

/-- Cells by key, and when those that are full are forgotten next. -/
structure Cells (Key Cell : Type) where
  cells : Map Key Cell := ∅
  nextSweep : Option Nat := none

namespace Meter

variable {Key Cell Request Answer : Type} [DecidableEq Key]
variable (meter : Meter Cell Request Answer) (every : Nat)

/-! ### Cells that are forgotten -/

/-- Forgets the full cells, if that is due. -/
def swept (now : Nat) (kept : Cells Key Cell) : Cells Key Cell :=
  if kept.nextSweep.all (· ≤ now) then
    { cells :=
        (kept.cells.retain fun _ cell => !(meter.isFull now cell).1).mapValues
          fun _ cell => (meter.isFull now cell).2
      nextSweep := some (now + every) }
  else
    kept

def cellOf (kept : Cells Key Cell) (key : Key) (now : Nat) : Cell :=
  (kept.cells.lookup key).getD (meter.fresh now)

/-- Asks the cell of a key, a fresh one if there is none. -/
def askKept (call : Query Key Request) (kept : Cells Key Cell) : Answer × Cells Key Cell :=
  let kept := meter.swept every call.now kept
  let (answer, cell) := meter.ask call.request call.now (meter.cellOf kept call.key call.now)
  (answer, { kept with cells := kept.cells.insert call.key cell })

def keptAnswers : Cells Key Cell → List (Query Key Request) → List Answer
  | _, [] => []
  | kept, call :: calls =>
    (meter.askKept every call kept).1 :: keptAnswers (meter.askKept every call kept).2 calls

/-! ### Cells that are never forgotten -/

/-- Asks the cell of a key, where every key has one. -/
def askEternal (call : Query Key Request) (eternal : Key → Cell) : Answer × (Key → Cell) :=
  let (answer, cell) := meter.ask call.request call.now (eternal call.key)
  (answer, Function.update eternal call.key cell)

def eternalAnswers : (Key → Cell) → List (Query Key Request) → List Answer
  | _, [] => []
  | eternal, call :: calls =>
    (meter.askEternal call eternal).1 :: eternalAnswers (meter.askEternal call eternal).2 calls

/-! ### Both answer alike -/

/-- Calls in the order of time. -/
def InTime (calls : List (Query Key Request)) : Prop :=
  calls.Pairwise fun call later => call.now ≤ later.now

/-- A relation of cells that answer alike from a time on, in which a full cell is like a fresh
one. -/
structure Forgets (alike : Nat → Cell → Cell → Prop) : Prop where
  later : ∀ {now next cell other}, now ≤ next → alike now cell other → alike next cell other
  fresh : ∀ {now next}, now ≤ next → alike next (meter.fresh next) (meter.fresh now)
  ask : ∀ request {now cell other}, alike now cell other →
    (meter.ask request now cell).1 = (meter.ask request now other).1 ∧
      alike now (meter.ask request now cell).2 (meter.ask request now other).2
  sweep : ∀ {now cell other}, alike now cell other → alike now (meter.isFull now cell).2 other
  full : ∀ {now next cell other}, now ≤ next → alike now cell other →
    (meter.isFull now cell).1 = true → alike next (meter.fresh next) other

variable {meter} {alike : Nat → Cell → Cell → Prop}

/-- From a time on, the kept cells answer like those that are never forgotten. -/
def Follows (meter : Meter Cell Request Answer) (alike : Nat → Cell → Cell → Prop) (now : Nat)
    (kept : Cells Key Cell) (eternal : Key → Cell) : Prop :=
  ∀ key next, now ≤ next → alike next (meter.cellOf kept key next) (eternal key)

theorem Follows.swept (forgets : meter.Forgets alike) {now : Nat} {kept : Cells Key Cell}
    {eternal : Key → Cell} (follows : meter.Follows alike now kept eternal) :
    meter.Follows alike now (meter.swept every now kept) eternal := by
  unfold Meter.swept
  split
  · intro key next later
    have before := follows key now (Nat.le_refl now)
    unfold cellOf at before ⊢
    rw [Map.lookup_mapValues, Map.lookup_retain]
    cases found : kept.cells.lookup key with
    | none =>
      have fresh := follows key next later
      rw [cellOf, found] at fresh
      exact fresh
    | some cell =>
      rw [found, Option.getD_some] at before
      cases full : (meter.isFull now cell).1 with
      | true =>
        rw [Option.filter_some, full]
        exact forgets.full later before full
      | false =>
        rw [Option.filter_some, full]
        exact forgets.later later (forgets.sweep before)
  · exact follows

theorem Follows.ask (forgets : meter.Forgets alike) {now : Nat} {kept : Cells Key Cell}
    {eternal : Key → Cell} (follows : meter.Follows alike now kept eternal)
    {call : Query Key Request} (later : now ≤ call.now) :
    (meter.askKept every call kept).1 = (meter.askEternal call eternal).1 ∧
      meter.Follows alike call.now (meter.askKept every call kept).2
        (meter.askEternal call eternal).2 := by
  have follows : meter.Follows alike call.now kept eternal :=
    fun key next after => follows key next (later.trans after)
  have follows := follows.swept every forgets
  unfold askKept askEternal
  generalize meter.swept every call.now kept = kept at follows
  obtain ⟨same, alike'⟩ := forgets.ask call.request
    (follows call.key call.now (Nat.le_refl _))
  refine ⟨same, fun key next after => ?_⟩
  unfold cellOf
  dsimp only
  rw [Map.lookup_insert_ite, Function.update_apply]
  split
  · exact forgets.later after alike'
  · exact follows key next after

/-- Forgetting full cells changes no answer. -/
theorem Follows.answers (forgets : meter.Forgets alike) {now : Nat} {kept : Cells Key Cell}
    {eternal : Key → Cell} (follows : meter.Follows alike now kept eternal)
    {calls : List (Query Key Request)} (after : ∀ call ∈ calls, now ≤ call.now)
    (inTime : InTime calls) :
    meter.keptAnswers every kept calls = meter.eternalAnswers eternal calls := by
  induction calls generalizing now kept eternal with
  | nil => rfl
  | cons call calls inductionHypothesis =>
    obtain ⟨same, follows⟩ := follows.ask every forgets (after call List.mem_cons_self)
    unfold keptAnswers eternalAnswers
    rw [same, inductionHypothesis follows (List.pairwise_cons.mp inTime).1
      (List.pairwise_cons.mp inTime).2]

theorem follows_fresh (forgets : meter.Forgets alike) (now : Nat) :
    meter.Follows alike now ({} : Cells Key Cell) fun _ => meter.fresh now :=
  fun _ _ later => forgets.fresh later

end Meter

end Throcc
