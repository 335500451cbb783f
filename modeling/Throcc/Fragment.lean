/-
This file embeds how access units are cut into datagrams and put together
again: the cut, the window that drops repeats and the reassembler, whose
fragments may arrive in any order. The subtractions and additions of 32-bit
numbers that the code doesn't check are partial here.
-/

import Throcc.Frame
import Throcc.Map
import Mathlib.Data.List.ModifyLast

namespace Throcc

/-! ### Cutting -/

/-- One datagram's worth of an access unit, before a `seq` is assigned. -/
structure Fragment where
  flags : Flags
  /-- The media timestamp, carried only by the first fragment. -/
  timestamp : Option UInt32
  body : List UInt8
deriving DecidableEq, Repr

def Fragment.plaintext (fragment : Fragment) : List UInt8 :=
  (fragment.timestamp.elim [] fun timestamp => bytesBe timestampBytes timestamp.toNat) ++
    fragment.body

/-- The fragments after the first. -/
def fragmentRest (base : Flags) (left : List UInt8) : List Fragment :=
  if left = [] then []
  else
    { flags := base, timestamp := none, body := left.take bodyBytes } ::
      fragmentRest base (left.drop bodyBytes)
termination_by left.length
decreasing_by
  rw [List.length_drop]
  exact Nat.sub_lt (List.length_pos_iff.mpr ‹_›) (by decide)

/-- Cuts an access unit into fragments that are slices of `unit`. -/
def fragment (unit : List UInt8) (timestamp : UInt32) (keyframe : Bool) : List Fragment :=
  let base := Flags.with_ {} .keyframe keyframe
  let firstLen := min unit.length (bodyBytes - timestampBytes)
  let first : Fragment :=
    { flags := base ||| .first, timestamp := some timestamp, body := unit.take firstLen }
  (first :: fragmentRest base (unit.drop firstLen)).modifyLast fun last =>
    { last with flags := last.flags ||| .last }

/-! ### Reassembly -/

/-- A reassembled access unit. -/
structure AccessUnit where
  firstSeq : Nat
  lastSeq : Nat
  timestamp : UInt32
  flags : Flags
  data : List UInt8
deriving DecidableEq, Repr

def maxBuffered : Nat := 4096
def bufferedUnits : Nat := 64

/-- The longest unit, in bytes, that fits in `maxFragments` fragments. -/
def maxUnitBytes (maxFragments : Nat) : Nat := maxFragments * bodyBytes - timestampBytes

/-- A subtraction that must not underflow. -/
def subU32 (left right : Nat) : Option Nat := if right ≤ left then some (left - right) else none

/-- An addition that must not overflow. -/
def addU32 (left right : Nat) : Option Nat :=
  if left + right ≤ u32Max then some (left + right) else none

/-- Rebuilds access units from decrypted fragments that may arrive out of order. -/
structure Reassembler where
  maxFragments : Nat
  maxBuffered : Nat
  fragments : Map Nat (Flags × List UInt8)
  firsts : Finset Nat
  lasts : Finset Nat
  /-- Each maximal run of consecutive buffered seqs, from its first seq to its last. -/
  spans : Map Nat Nat

namespace Reassembler

def new (maxFragments : Nat) : Reassembler where
  maxFragments := min (max maxFragments 1) u32Max
  maxBuffered := min Throcc.maxBuffered (max maxFragments 1 * bufferedUnits)
  fragments := ∅
  firsts := ∅
  lasts := ∅
  spans := ∅

variable (reassembler : Reassembler)

/-- The span that holds `seq`. -/
def spanOf (seq : Nat) : Option (Nat × Nat) := do
  let lo ← greatestIn reassembler.spans.keys 0 seq
  let hi ← reassembler.spans.lookup lo
  if seq ≤ hi then some (lo, hi) else none

/-- The spans without `first..=last`, which lie in one of them. -/
def cutSpans (first last : Nat) : Option (Map Nat Nat) :=
  match reassembler.spanOf first with
  | none => some reassembler.spans
  | some (lo, hi) =>
    let spans := reassembler.spans.erase lo
    let head := if lo < first then (subU32 first 1).map (spans.insert lo) else some spans
    head.bind fun spans =>
      if last < hi then (addU32 last 1).map fun start => spans.insert start hi else some spans

/-- Removes `first..=last`, which lie in one span, from the spans and flag sets. -/
def unlink (first last : Nat) : Option Reassembler :=
  (reassembler.cutSpans first last).map fun spans =>
    { reassembler with
      spans
      firsts := reassembler.firsts.filter fun seq => ¬ (first ≤ seq ∧ seq ≤ last)
      lasts := reassembler.lasts.filter fun seq => ¬ (first ≤ seq ∧ seq ≤ last) }

/-- Removes `first..=last` from the buffer. -/
def discard (first last : Nat) : Reassembler :=
  { reassembler with
    fragments := reassembler.fragments.retain fun seq _ => ¬ (first ≤ seq ∧ seq ≤ last) }

def dropRun (first last : Nat) : Option Reassembler := do
  let unlinked ← reassembler.unlink first last
  some (unlinked.discard first last)

/-- Where what follows the last LAST of the span `lo..=hi` starts. -/
def afterLast (lo hi : Nat) : Option Nat :=
  (greatestIn reassembler.lasts lo hi).elim (some lo) fun last => addU32 last 1

/-- Drops the fragments of the span `lo..=hi` that no unit can hold any more: those after
its last LAST and too far before its end to reach a LAST that comes after it. -/
def dropUnfinishable (lo hi : Nat) : Option Reassembler := do
  let afterLast ← reassembler.afterLast lo hi
  let length ← subU32 hi afterLast
  let longest ← subU32 reassembler.maxFragments 1
  if longest ≤ length then
    let last ← subU32 hi longest
    reassembler.dropRun afterLast last
  else
    some reassembler

/-- The unit that a run of fragments spells. -/
def toUnit (first last : Nat) : List (Flags × List UInt8) → Option AccessUnit
  | [] => none
  | (flags, head) :: rest =>
    if head.length < timestampBytes then none
    else
      some
        { firstSeq := first
          lastSeq := last
          timestamp := .ofNat (ofBytesBe (head.take timestampBytes))
          flags := flags ||| .last
          data := head.drop timestampBytes ++ rest.flatMap fun piece => piece.2 }

def takeUnit (first last : Nat) : Option (Option AccessUnit × Reassembler) := do
  let unlinked ← reassembler.unlink first last
  let run := (List.range' first (last + 1 - first)).filterMap unlinked.fragments.lookup
  some (toUnit first last run, unlinked.discard first last)

/-- Adds the newly buffered `seq` to the spans, merging the ones it touches. -/
def joinSpans (seq : Nat) : Reassembler :=
  let before := if seq = 0 then none else reassembler.spanOf (seq - 1)
  let lo := before.elim seq Prod.fst
  let after := if seq = u32Max then none else reassembler.spans.lookup (seq + 1)
  let hi := after.getD seq
  let spans := if seq = u32Max then reassembler.spans else reassembler.spans.erase (seq + 1)
  { reassembler with spans := spans.insert lo hi }

def insert (seq : Nat) (flags : Flags) (plaintext : List UInt8) : Reassembler :=
  let stored :=
    { reassembler with fragments := reassembler.fragments.insert seq (flags, plaintext) }
  let joined := if seq ∈ reassembler.fragments then stored else stored.joinSpans seq
  let mark (flag : Flags) (set : Finset Nat) : Finset Nat :=
    if flags.contains flag then Insert.insert seq set else set.erase seq
  { joined with firsts := mark .first joined.firsts, lasts := mark .last joined.lasts }

/-- Makes room for one more fragment by dropping the oldest. -/
def evict (seq : Nat) : Option Reassembler :=
  if reassembler.maxBuffered ≤ reassembler.fragments.keys.card ∧ seq ∉ reassembler.fragments then
    match (ascending reassembler.fragments.keys).head? with
    | some oldest => reassembler.dropRun oldest oldest
    | none => some reassembler
  else
    some reassembler

/-- Emits or drops what the fragment just buffered decides. -/
def settle (seq : Nat) : Option (Option AccessUnit × Reassembler) :=
  match reassembler.spanOf seq with
  | none => some (none, reassembler)
  | some (lo, hi) =>
    match leastIn reassembler.lasts seq hi with
    | none => (reassembler.dropUnfinishable lo hi).map fun dropped => (none, dropped)
    | some last =>
      match greatestIn reassembler.firsts lo seq with
      | some first => do
        let length ← subU32 last first
        if length < reassembler.maxFragments then
          reassembler.takeUnit first last
        else
          (reassembler.dropRun first last).map fun dropped => (none, dropped)
      | none => do
        -- A unit through `last` would have to start before `lo`, which makes it too long.
        let length ← subU32 last lo
        let longest ← subU32 reassembler.maxFragments 1
        if longest ≤ length then
          (reassembler.dropRun lo last).map fun dropped => (none, dropped)
        else
          some (none, reassembler)

/-- Buffers a fragment; `none` if its arithmetic would over- or underflow. -/
def push (seq : Nat) (flags : Flags) (plaintext : List UInt8) :
    Option (Option AccessUnit × Reassembler) := do
  let roomy ← reassembler.evict seq
  (roomy.insert seq flags plaintext).settle seq

/-- Pushes datagrams one after another; the units it emits. -/
def pushAll (reassembler : Reassembler) : List (Nat × Flags × List UInt8) →
    Option (List AccessUnit × Reassembler)
  | [] => some ([], reassembler)
  | (seq, flags, plaintext) :: rest => do
    let (unit, reassembler) ← reassembler.push seq flags plaintext
    let (units, reassembler) ← reassembler.pushAll rest
    some (unit.toList ++ units, reassembler)

/-- Drops buffered fragments older than `seq`, which can no longer complete in order. -/
def forgetBefore (seq : Nat) : Reassembler :=
  let spans := reassembler.spans.retain fun lo _ => seq ≤ lo
  { reassembler with
    fragments := reassembler.fragments.retain fun key _ => seq ≤ key
    firsts := reassembler.firsts.filter fun key => seq ≤ key
    lasts := reassembler.lasts.filter fun key => seq ≤ key
    spans :=
      match reassembler.spanOf seq with
      | some (lo, hi) => if lo < seq then spans.insert seq hi else spans
      | none => spans }

end Reassembler

end Throcc
