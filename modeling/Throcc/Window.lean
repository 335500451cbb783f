/-
This file embeds the window that drops repeats: the last 2048 sequence numbers
of one track up to the highest seen, one bit each. It proves that a number once
seen never counts as new again.
-/

import Throcc.Fragment
import Mathlib.Data.BitVec

namespace Throcc

def windowBits : Nat := 2048

inductive Seen where
  | new
  | duplicate
  | tooOld
deriving DecidableEq, Repr

/-- A 2048-bit window behind the highest `seq` seen on one track. -/
structure ReplayWindow where
  highest : Option Nat := none
  bits : Vector (BitVec 64) 32 := .replicate 32 0
  first : Nat := 0
  received : Nat := 0
  skippedByRestarts : Nat := 0
deriving DecidableEq, Repr

namespace ReplayWindow

/-- The bit of the number `behind` positions behind the highest. -/
def get (window : ReplayWindow) (behind : Nat) : Bool :=
  (window.bits[behind / 64]?.getD 0).getLsbD (behind % 64)

def set (window : ReplayWindow) (behind : Nat) : ReplayWindow :=
  let word := window.bits[behind / 64]?.getD 0 ||| BitVec.twoPow 64 (behind % 64)
  { window with bits := window.bits.setIfInBounds (behind / 64) word }

/-- Moves the window forward by `by_` positions. The code goes from the last word down, so
that each word is made of words that are still the old ones. -/
def shift (window : ReplayWindow) (by_ : Nat) : ReplayWindow :=
  if windowBits ≤ by_ then
    { window with bits := .replicate 32 0 }
  else
    let words := by_ / 64
    let bits := by_ % 64
    let old (index : Nat) : BitVec 64 := window.bits[index]?.getD 0
    { window with
      bits := .ofFn fun index =>
        let lo := if words ≤ index then old (index - words) else 0
        let carry :=
          if words + 1 ≤ index ∧ 0 < bits then old (index - (words + 1)) >>> (64 - bits) else 0
        lo <<< bits ||| carry }

/-- What `check` would say about `seq`, without recording it. -/
def peek (window : ReplayWindow) (seq : Nat) : Seen :=
  match window.highest.bind fun highest => subU32 highest seq with
  | none => .new
  | some behind =>
    if windowBits ≤ behind then .tooOld else if window.get behind then .duplicate else .new

/-- Moves the window on from `highest` to a number above it. -/
def advance (window : ReplayWindow) (highest seq : Nat) : ReplayWindow :=
  let skipped := if windowBits ≤ seq - highest then seq - highest - 1 else 0
  let counted := { window with skippedByRestarts := window.skippedByRestarts + skipped }
  { counted.shift (seq - highest) with highest := some seq }.set 0

/-- Starts the window at the first number. -/
def start (window : ReplayWindow) (seq : Nat) : ReplayWindow :=
  { window with highest := some seq, first := seq }.set 0

def record (window : ReplayWindow) (seq : Nat) : ReplayWindow :=
  let recorded :=
    match window.highest with
    | some highest =>
      if seq ≤ highest then
        { window.set (highest - seq) with first := min window.first seq }
      else
        window.advance highest seq
    | none => window.start seq
  { recorded with received := recorded.received + 1 }

/-- Whether `seq` is new, and records it if so. -/
def check (window : ReplayWindow) (seq : Nat) : Seen × ReplayWindow :=
  let seen := window.peek seq
  (seen, if seen = .new then window.record seq else window)

/-- Datagrams between the first and the highest `seq` that never arrived, not counting
forward jumps of a whole window. -/
def lost (window : ReplayWindow) : Nat :=
  window.highest.elim 0 fun highest =>
    highest - window.first + 1 - (window.received + window.skippedByRestarts)

/-! ### Bits -/

theorem get_set (window : ReplayWindow) {behind : Nat} (inside : behind < windowBits)
    (other : Nat) : (window.set behind).get other = (decide (other = behind) || window.get other) := by
  have small : behind / 64 < 32 := Nat.div_lt_of_lt_mul inside
  unfold get set
  dsimp only
  rw [Vector.getElem?_setIfInBounds]
  by_cases word : behind / 64 = other / 64
  · rw [if_pos word, if_pos small, Option.getD_some, BitVec.getLsbD_or, BitVec.getLsbD_twoPow, word,
      Bool.or_comm]
    have same : (behind % 64 < 64 ∧ behind % 64 = other % 64) ↔ other = behind := by omega
    rw [← Bool.decide_and, decide_eq_decide.mpr same]
  · have different : other ≠ behind := fun same => word (by rw [same])
    rw [if_neg word, decide_eq_false different, Bool.false_or]

theorem get_shift (window : ReplayWindow) {by_ behind : Nat} (inside : behind < windowBits) :
    (window.shift by_).get behind = (decide (by_ ≤ behind) && window.get (behind - by_)) := by
  have small : behind / 64 < 32 := Nat.div_lt_of_lt_mul inside
  unfold shift
  split
  · rename_i whole
    have later : ¬ by_ ≤ behind := by omega
    unfold get
    dsimp only
    rw [Vector.getElem?_replicate, if_pos small, decide_eq_false later, Bool.false_and]
    exact BitVec.getLsbD_zero
  · unfold get
    dsimp only
    rw [Vector.getElem?_ofFn, dif_pos small, Option.getD_some, BitVec.getLsbD_or,
      BitVec.getLsbD_shiftLeft, decide_eq_true (Nat.mod_lt behind (by decide)), Bool.true_and]
    have zero (bit : Nat) : (0 : BitVec 64).getLsbD bit = false := BitVec.getLsbD_zero
    by_cases high : by_ % 64 ≤ behind % 64
    · -- the bit comes from a lower word, moved up
      have reach : by_ / 64 ≤ behind / 64 ↔ by_ ≤ behind := by omega
      have carry (word : BitVec 64) :
          (word >>> (64 - by_ % 64)).getLsbD (behind % 64) = false := by
        rw [BitVec.getLsbD_ushiftRight]
        exact BitVec.getLsbD_of_ge _ _ (by omega)
      rw [decide_eq_false (Nat.not_lt.mpr high), Bool.not_false, Bool.true_and,
        apply_ite (fun word : BitVec 64 => word.getLsbD (behind % 64)), carry, zero,
        ite_self, Bool.or_false]
      by_cases inRange : by_ ≤ behind
      · have index : behind / 64 - by_ / 64 = (behind - by_) / 64 := by omega
        have bit : behind % 64 - by_ % 64 = (behind - by_) % 64 := by omega
        rw [if_pos (reach.mpr inRange), decide_eq_true inRange, Bool.true_and, index, bit]
      · rw [if_neg (mt reach.mp inRange), decide_eq_false inRange, Bool.false_and, zero]
    · -- the bit comes from the word below that one, carried over
      have reach : by_ / 64 + 1 ≤ behind / 64 ∧ 0 < by_ % 64 ↔ by_ ≤ behind := by omega
      rw [decide_eq_true (Nat.lt_of_not_le high), Bool.not_true, Bool.false_and, Bool.false_or]
      by_cases inRange : by_ ≤ behind
      · have index : behind / 64 - (by_ / 64 + 1) = (behind - by_) / 64 := by omega
        have bit : 64 - by_ % 64 + behind % 64 = (behind - by_) % 64 := by omega
        rw [if_pos (reach.mpr inRange), decide_eq_true inRange, Bool.true_and,
          BitVec.getLsbD_ushiftRight, index, bit]
      · rw [if_neg (mt reach.mp inRange), decide_eq_false inRange, Bool.false_and, zero]

/-! ### Seen numbers stay seen -/

/-- A number behind the window or marked in it. -/
def Marks (window : ReplayWindow) (seq : Nat) : Prop :=
  ∃ highest, window.highest = some highest ∧ seq ≤ highest ∧
    (highest - seq < windowBits → window.get (highest - seq) = true)

theorem peek_ne_new (window : ReplayWindow) (seq : Nat) :
    window.peek seq ≠ .new ↔ window.Marks seq := by
  unfold peek subU32 Marks
  rcases window.highest with _ | highest
  · simp
  · by_cases below : seq ≤ highest
    · by_cases inside : windowBits ≤ highest - seq
      · simp [below, inside, Nat.not_lt.mpr inside]
      · cases marked : window.get (highest - seq) with
        | true => simp [below, inside, marked]
        | false => simp [below, inside, marked, Nat.lt_of_not_le inside]
    · simp [below]

/-- Only the highest number and the bits say what is marked. -/
theorem Marks.of_eq {window after : ReplayWindow} {seq : Nat} (marks : window.Marks seq)
    (highest : after.highest = window.highest) (bits : after.bits = window.bits) :
    after.Marks seq := by
  unfold Marks get at marks ⊢
  rw [highest, bits]
  exact marks

/-- Marking the number at the highest position marks that number. -/
theorem marks_set_zero {window : ReplayWindow} {seq : Nat} (top : window.highest = some seq) :
    (window.set 0).Marks seq := by
  refine ⟨seq, top, le_rfl, fun _ => ?_⟩
  rw [Nat.sub_self, get_set _ (by decide), decide_eq_true rfl, Bool.true_or]

/-- A mark stays when another is set. -/
theorem Marks.set {window : ReplayWindow} {seq behind : Nat} (marks : window.Marks seq)
    (inside : behind < windowBits) : (window.set behind).Marks seq := by
  obtain ⟨highest, top, below, marked⟩ := marks
  refine ⟨highest, top, below, fun reach => ?_⟩
  rw [get_set _ inside, marked reach, Bool.or_true]

/-- A mark moves back with the window, and out of it. -/
theorem Marks.shift {window : ReplayWindow} {seq highest next : Nat} (marks : window.Marks seq)
    (top : window.highest = some highest) (forward : highest ≤ next) :
    ({ window.shift (next - highest) with highest := some next } : ReplayWindow).Marks seq := by
  obtain ⟨highest', top', below, marked⟩ := marks
  rw [top, Option.some_inj] at top'
  subst top'
  refine ⟨next, rfl, below.trans forward, fun reach => ?_⟩
  have moved : next - seq - (next - highest) = highest - seq := by omega
  refine (get_shift window reach).trans ?_
  rw [moved, marked (by omega), decide_eq_true (by omega), Bool.true_and]

theorem marks_start (window : ReplayWindow) (seq : Nat) : (window.start seq).Marks seq :=
  marks_set_zero rfl

theorem marks_advance (window : ReplayWindow) (highest seq : Nat) :
    (window.advance highest seq).Marks seq :=
  marks_set_zero rfl

theorem Marks.advance {window : ReplayWindow} {seq highest next : Nat} (marks : window.Marks seq)
    (top : window.highest = some highest) (forward : highest ≤ next) :
    (window.advance highest next).Marks seq := by
  unfold ReplayWindow.advance
  dsimp only
  generalize window.skippedByRestarts +
    (if windowBits ≤ next - highest then next - highest - 1 else 0) = skippedByRestarts
  have counted : ({ window with skippedByRestarts } : ReplayWindow).Marks seq :=
    marks.of_eq rfl rfl
  have zero : 0 < windowBits := by decide
  exact (counted.shift top forward).set zero

/-- A new number that isn't above the highest is in the window. -/
theorem inside_of_new {window : ReplayWindow} {seq highest : Nat} (new : window.peek seq = .new)
    (top : window.highest = some highest) (below : seq ≤ highest) : highest - seq < windowBits := by
  by_contra outside
  exact (window.peek_ne_new seq).mpr
    ⟨highest, top, below, fun inside => absurd inside outside⟩ new

theorem marks_record (window : ReplayWindow) {seq : Nat} (new : window.peek seq = .new) :
    (window.record seq).Marks seq := by
  unfold record
  cases top : window.highest with
  | none => exact (window.marks_start seq).of_eq rfl rfl
  | some highest =>
    dsimp only
    by_cases below : seq ≤ highest
    · have inside := inside_of_new new top below
      rw [if_pos below]
      have marked : (window.set (highest - seq)).Marks seq := by
        refine ⟨highest, top, below, fun _ => ?_⟩
        rw [get_set _ inside, decide_eq_true rfl, Bool.true_or]
      exact marked.of_eq rfl rfl
    · rw [if_neg below]
      exact (window.marks_advance highest seq).of_eq rfl rfl

theorem Marks.record {window : ReplayWindow} {seq other : Nat} (marks : window.Marks seq)
    (new : window.peek other = .new) : (window.record other).Marks seq := by
  unfold ReplayWindow.record
  cases top : window.highest with
  | none =>
    obtain ⟨highest, some, _⟩ := marks
    rw [top] at some
    cases some
  | some highest =>
    dsimp only
    by_cases below : other ≤ highest
    · rw [if_pos below]
      exact (marks.set (inside_of_new new top below)).of_eq rfl rfl
    · rw [if_neg below]
      exact (marks.advance top (Nat.le_of_not_le below)).of_eq rfl rfl

/-- What isn't new stays so, whatever is checked. -/
theorem Marks.check {window : ReplayWindow} {seq : Nat} (marks : window.Marks seq) (other : Nat) :
    (window.check other).2.Marks seq := by
  unfold ReplayWindow.check
  dsimp only
  split
  · rename_i new
    exact marks.record new
  · exact marks

/-- A number that was checked isn't new any more. -/
theorem marks_check (window : ReplayWindow) (seq : Nat) : (window.check seq).2.Marks seq := by
  unfold check
  dsimp only
  split
  · rename_i new
    exact window.marks_record new
  · rename_i seen
    exact (window.peek_ne_new seq).mp seen

end ReplayWindow

end Throcc
