/-
This file embeds the reorder stage of a video track: whole units come out in the
order of their sequence numbers, and a missing one is waited for. The history of
a track is kept for the proofs: what was pushed and when, what was answered,
which units came late and which were evicted.
-/

import Throcc.Fragment
import Throcc.Run

namespace Throcc

def reorderWindow : Duration := fromMillis 50
def maxWaiting : Nat := 256

inductive ReorderOutput where
  | unit (unit : AccessUnit)
  /-- Units starting at `first` never arrived in time. -/
  | abandoned (first : Nat)
  /-- A unit arrived after the ones before it were abandoned, and was dropped. -/
  | late
deriving DecidableEq, Repr

/-- Emits whole units in `seq` order, waiting at most `reorderWindow` for a missing one. -/
structure Reorder where
  next : Option Nat := none
  waiting : Map Nat AccessUnit := ∅
  gapSince : Option Instant := none

namespace Reorder

variable (reorder : Reorder)

/-- Whether units are missing before the waiting unit that starts at `first`. -/
def gapBefore (first : Nat) : Bool := reorder.next.getD first < first

/-- Whether that gap is still waited for. -/
def waitsFor (first : Nat) (now : Instant) : Bool :=
  reorder.gapBefore first && now < reorder.gapSince.getD now + reorderWindow

/-- One turn of the loop of `poll`, which emits the first waiting unit. -/
def emitFirst (now : Instant) (sofar : List ReorderOutput × Reorder) :
    Option (List ReorderOutput × Reorder) := do
  let reorder := sofar.2
  let first ← reorder.waiting.firstKey
  let unit ← reorder.waiting.lookup first
  if reorder.waitsFor first now then none
  else
    let abandoned := if reorder.gapBefore first then [.abandoned (reorder.next.getD first)] else []
    some (sofar.1 ++ abandoned ++ [.unit unit],
      { next := addU32 unit.lastSeq 1
        waiting := reorder.waiting.erase first
        gapSince := none })

/-- Starts the wait for a gap, where the loop of `poll` breaks on one. -/
def startGap (now : Instant) : Reorder :=
  if reorder.waiting.firstKey.any reorder.gapBefore then
    { reorder with gapSince := some (reorder.gapSince.getD now) }
  else
    reorder

/-- Emits what is in order, and abandons a gap whose wait has run out. -/
def poll (now : Instant) : List ReorderOutput × Reorder :=
  let (outputs, reorder) := loop (emitFirst now) reorder.waiting.keys.card ([], reorder)
  (outputs, reorder.startGap now)

def isLate (unit : AccessUnit) : Bool := reorder.next.any (unit.lastSeq < ·)

/-- The unit that has to go for another one. -/
def victim : Option AccessUnit :=
  if maxWaiting ≤ reorder.waiting.keys.card then
    reorder.waiting.firstKey.bind reorder.waiting.lookup
  else
    none

/-- Puts a unit among the waiting ones, evicting the first of too many. -/
def enqueue (unit : AccessUnit) : Reorder :=
  let waiting :=
    if maxWaiting ≤ reorder.waiting.keys.card then
      reorder.waiting.firstKey.elim reorder.waiting reorder.waiting.erase
    else
      reorder.waiting
  { reorder with
    next := some (reorder.next.getD unit.firstSeq)
    waiting := waiting.insert unit.firstSeq unit }

def push (unit : AccessUnit) (now : Instant) : List ReorderOutput × Reorder :=
  if reorder.isLate unit then ([.late], reorder) else (reorder.enqueue unit).poll now

/-! ### Histories -/

inductive Input where
  | push (unit : AccessUnit) (now : Instant)
  | poll (now : Instant)
deriving DecidableEq, Repr

def Input.now : Input → Instant
  | push _ now => now
  | poll now => now

/-- A reorder stage and all that happened to it. -/
structure History where
  reorder : Reorder := {}
  outputs : List ReorderOutput := []
  pushed : List AccessUnit := []
  late : List AccessUnit := []
  evicted : List AccessUnit := []
  /-- When the unit waiting at each first `seq` was pushed. -/
  arrived : Map Nat Instant := ∅
  now : Instant := 0

def History.step (history : History) : Input → History
  | .push unit now =>
    let (outputs, reorder) := history.reorder.push unit now
    let pushed :=
      { history with
        reorder
        outputs := history.outputs ++ outputs
        pushed := history.pushed ++ [unit]
        now }
    if history.reorder.isLate unit then { pushed with late := history.late ++ [unit] }
    else
      { pushed with
        evicted := history.evicted ++ history.reorder.victim.toList
        arrived := history.arrived.insert unit.firstSeq now }
  | .poll now =>
    let (outputs, reorder) := history.reorder.poll now
    { history with reorder, outputs := history.outputs ++ outputs, now }

end Reorder

end Throcc
