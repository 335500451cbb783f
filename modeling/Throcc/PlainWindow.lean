/-
This file compares the replay window with a plain model that remembers every
accepted number. Their answers agree on every sequence of checks and peeks. The
count of losses agrees with what the plain model says exactly if no number is
accepted late from a gap written off, or nothing else was lost.
-/

import Throcc.Run
import Throcc.Window
import Mathlib.Order.Interval.Finset.Nat

namespace Throcc

/-- Every number accepted, the highest of them, and the numbers in the gaps of forward jumps
of a whole window or more. -/
structure PlainWindow where
  accepted : Finset Nat := ∅
  highest : Option Nat := none
  skipped : Finset Nat := ∅

namespace PlainWindow

def peek (plain : PlainWindow) (seq : Nat) : Seen :=
  match plain.highest with
  | none => .new
  | some highest =>
    if highest < seq then .new
    else if windowBits ≤ highest - seq then .tooOld
    else if seq ∈ plain.accepted then .duplicate
    else .new

/-- The numbers a jump from the highest to `seq` leaves out, if it is of a whole window. -/
def gap (plain : PlainWindow) (seq : Nat) : Finset Nat :=
  match plain.highest with
  | none => ∅
  | some highest => if windowBits ≤ seq - highest then Finset.Ioo highest seq else ∅

def accept (plain : PlainWindow) (seq : Nat) : PlainWindow where
  accepted := insert seq plain.accepted
  highest := some (plain.highest.elim seq (max seq))
  skipped := plain.skipped ∪ plain.gap seq

def check (plain : PlainWindow) (seq : Nat) : Seen × PlainWindow :=
  let seen := plain.peek seq
  (seen, if seen = .new then plain.accept seq else plain)

/-- The numbers from the lowest accepted to the highest. -/
def spanned (plain : PlainWindow) : Finset Nat :=
  plain.highest.elim ∅ fun highest =>
    (Finset.range (highest + 1)).filter fun seq => ∃ lowest ∈ plain.accepted, lowest ≤ seq

/-- The numbers between the lowest and the highest accepted that were not accepted, leaving
out those in the gaps of forward jumps. -/
def missing (plain : PlainWindow) : Finset Nat := plain.spanned \ (plain.accepted ∪ plain.skipped)

/-- A new number that isn't above the highest is in the window and was not accepted before. -/
theorem new_inside {plain : PlainWindow} {seq : Nat} (new : plain.peek seq = .new)
    {highest : Nat} (top : plain.highest = some highest) (notAbove : seq ≤ highest) :
    highest - seq < windowBits ∧ seq ∉ plain.accepted := by
  unfold peek at new
  rw [top] at new
  dsimp only at new
  rw [if_neg (Nat.not_lt.mpr notAbove)] at new
  by_cases far : windowBits ≤ highest - seq
  · rw [if_pos far] at new
    cases new
  · rw [if_neg far] at new
    refine ⟨Nat.lt_of_not_le far, fun member => ?_⟩
    rw [if_pos member] at new
    cases new

end PlainWindow

namespace ReplayWindow

/-- The window stands for a plain model. -/
structure Stands (window : ReplayWindow) (plain : PlainWindow) : Prop where
  highest : window.highest = plain.highest
  marked : ∀ behind < windowBits, window.get behind = true ↔
    ∃ highest, plain.highest = some highest ∧ behind ≤ highest ∧ highest - behind ∈ plain.accepted
  below : ∀ seq ∈ plain.accepted, ∃ highest, plain.highest = some highest ∧ seq ≤ highest
  top : ∀ highest, plain.highest = some highest → highest ∈ plain.accepted
  received : window.received = plain.accepted.card
  first : plain.highest.isSome →
    window.first ∈ plain.accepted ∧ ∀ seq ∈ plain.accepted, window.first ≤ seq
  skipped : window.skippedByRestarts = plain.skipped.card
  inside : ∀ seq ∈ plain.skipped, window.first < seq ∧
    ∃ highest, plain.highest = some highest ∧ seq < highest

theorem stands_empty : ({} : ReplayWindow).Stands {} where
  highest := rfl
  marked behind inside := by
    have small : behind / 64 < 32 := Nat.div_lt_of_lt_mul inside
    have blank : ({} : ReplayWindow).get behind = false := by
      unfold get
      rw [Vector.getElem?_replicate, if_pos small]
      exact BitVec.getLsbD_zero
    rw [blank]
    simp
  below _ member := absurd member (Finset.notMem_empty _)
  top _ none := nomatch none
  received := rfl
  first none := nomatch none
  skipped := rfl
  inside _ member := absurd member (Finset.notMem_empty _)

variable {window : ReplayWindow} {plain : PlainWindow}

theorem Stands.peek (stands : window.Stands plain) (seq : Nat) :
    window.peek seq = plain.peek seq := by
  unfold ReplayWindow.peek PlainWindow.peek subU32
  rw [stands.highest]
  cases top : plain.highest with
  | none => rfl
  | some highest =>
    by_cases above : highest < seq
    · simp [above, Nat.not_le.mpr above]
    · have notAbove := Nat.le_of_not_lt above
      by_cases far : windowBits ≤ highest - seq
      · simp [above, notAbove, far]
      · have marked := stands.marked (highest - seq) (Nat.lt_of_not_le far)
        have back : highest - (highest - seq) = seq := Nat.sub_sub_self notAbove
        simp only [top, Option.some_inj, exists_eq_left', Nat.sub_le, back, true_and] at marked
        simp [above, notAbove, far, marked]

/-! ### Recording a number -/

theorem get_start (seq : Nat) {behind : Nat} :
    (window.start seq).get behind = (decide (behind = 0) || window.get behind) :=
  get_set { window with highest := some seq, first := seq } (by decide) behind

theorem get_advance (highest seq : Nat) {behind : Nat} (inside : behind < windowBits) :
    (window.advance highest seq).get behind =
      (decide (behind = 0) ||
        (decide (seq - highest ≤ behind) && window.get (behind - (seq - highest)))) := by
  unfold advance
  dsimp only
  rw [get_set _ (by decide)]
  exact congrArg _ (get_shift _ inside)

/-- Recording the first number. -/
theorem Stands.start (stands : window.Stands plain) (none : plain.highest = none) (seq : Nat) :
    ({ window.start seq with received := (window.start seq).received + 1 } :
      ReplayWindow).Stands (plain.accept seq) := by
  have empty : plain.accepted = ∅ := by
    refine Finset.eq_empty_of_forall_notMem fun other member => ?_
    obtain ⟨highest, top, _⟩ := stands.below other member
    rw [none] at top
    cases top
  have noGap : plain.skipped ∪ plain.gap seq = plain.skipped := by
    unfold PlainWindow.gap
    rw [none]
    exact Finset.union_empty _
  have accept : plain.accept seq =
      { accepted := {seq}, highest := some seq, skipped := plain.skipped } := by
    unfold PlainWindow.accept
    rw [noGap, empty, none]
    rfl
  rw [accept]
  constructor
  · rfl
  · intro behind inside
    have before := stands.marked behind inside
    rw [none] at before
    refine (Bool.eq_iff_iff.mp (get_start seq)).trans ?_
    rw [Bool.or_eq_true, before]
    simp only [decide_eq_true_eq, Option.some_inj, exists_eq_left', Finset.mem_singleton, reduceCtorEq,
      false_and, exists_false, or_false]
    omega
  · intro other member
    exact ⟨seq, rfl, (Finset.mem_singleton.mp member).le⟩
  · rintro highest ⟨⟩
    exact Finset.mem_singleton_self seq
  · exact congrArg (· + 1) (stands.received.trans (by rw [empty]; rfl))
  · intro _
    exact ⟨Finset.mem_singleton_self seq, fun other member => (Finset.mem_singleton.mp member).ge⟩
  · exact stands.skipped
  · intro other member
    obtain ⟨_, highest, top, _⟩ := stands.inside other member
    rw [none] at top
    cases top

/-- Recording a number that isn't above the highest. -/
theorem Stands.set (stands : window.Stands plain) {highest seq : Nat}
    (top : plain.highest = some highest) (notAbove : seq ≤ highest)
    (inside : highest - seq < windowBits) (missing : seq ∉ plain.accepted) :
    ({ window.set (highest - seq) with
        first := min window.first seq
        received := (window.set (highest - seq)).received + 1 } :
      ReplayWindow).Stands (plain.accept seq) := by
  have noGap : plain.gap seq = ∅ := by
    unfold PlainWindow.gap
    rw [top]
    exact if_neg (Nat.not_le.mpr (by rw [Nat.sub_eq_zero_of_le notAbove]; decide))
  have accept : plain.accept seq =
      { accepted := insert seq plain.accepted, highest := some highest, skipped := plain.skipped } := by
    unfold PlainWindow.accept
    rw [noGap, top, Finset.union_empty]
    exact congrArg (fun highest => PlainWindow.mk _ (some highest) _) (max_eq_right notAbove)
  obtain ⟨firstMember, lowest⟩ := stands.first (by rw [top]; rfl)
  rw [accept]
  constructor
  · exact stands.highest.trans top
  · intro behind reach
    have back : behind ≤ highest → (highest - behind = seq ↔ behind = highest - seq) := by omega
    have before := stands.marked behind reach
    rw [top] at before
    refine (Bool.eq_iff_iff.mp (get_set window inside behind)).trans ?_
    rw [Bool.or_eq_true, before]
    simp only [decide_eq_true_eq, Option.some_inj, exists_eq_left', Finset.mem_insert]
    by_cases same : behind = highest - seq
    · have within : behind ≤ highest := same ▸ Nat.sub_le _ _
      exact iff_of_true (Or.inl same) ⟨within, Or.inl ((back within).mpr same)⟩
    · simp only [same, false_or]
      refine and_congr_right fun within => ?_
      simp only [mt (back within).mp same, false_or]
  · intro other member
    rcases Finset.mem_insert.mp member with rfl | old
    · exact ⟨highest, rfl, notAbove⟩
    · obtain ⟨highest', top', within⟩ := stands.below other old
      rw [top, Option.some_inj] at top'
      exact ⟨highest, rfl, top' ▸ within⟩
  · rintro highest' ⟨⟩
    exact Finset.mem_insert_of_mem (stands.top highest top)
  · rw [Finset.card_insert_of_notMem missing]
    exact congrArg (· + 1) stands.received
  · intro _
    refine ⟨?_, fun other member => ?_⟩
    · rcases min_choice window.first seq with first | first
      · exact Finset.mem_insert_of_mem (first.symm ▸ firstMember)
      · exact first.symm ▸ Finset.mem_insert_self seq _
    · rcases Finset.mem_insert.mp member with rfl | old
      · exact min_le_right _ _
      · exact (min_le_left _ _).trans (lowest other old)
  · exact stands.skipped
  · intro other member
    obtain ⟨above, highest', top', within⟩ := stands.inside other member
    rw [top, Option.some_inj] at top'
    exact ⟨(min_le_left _ _).trans_lt above, highest, rfl, top' ▸ within⟩

theorem shift_counts (by_ : Nat) : (window.shift by_).first = window.first ∧
    (window.shift by_).received = window.received ∧
    (window.shift by_).skippedByRestarts = window.skippedByRestarts := by
  unfold shift
  split <;> exact ⟨rfl, rfl, rfl⟩

theorem advance_counts (highest seq : Nat) : (window.advance highest seq).first = window.first ∧
    (window.advance highest seq).received = window.received ∧
    (window.advance highest seq).skippedByRestarts = window.skippedByRestarts +
      if windowBits ≤ seq - highest then seq - highest - 1 else 0 :=
  shift_counts (seq - highest)

/-- What a window counts as skipped when it moves on. -/
theorem card_gap {highest seq : Nat} (top : plain.highest = some highest) :
    (if windowBits ≤ seq - highest then seq - highest - 1 else 0) = (plain.gap seq).card := by
  unfold PlainWindow.gap
  rw [top]
  dsimp only
  split
  · rw [Nat.card_Ioo]
  · rfl

theorem mem_gap {highest seq other : Nat} (top : plain.highest = some highest)
    (member : other ∈ plain.gap seq) : highest < other ∧ other < seq := by
  unfold PlainWindow.gap at member
  rw [top] at member
  dsimp only at member
  split at member
  · exact Finset.mem_Ioo.mp member
  · cases member

/-- Recording a number above the highest. -/
theorem Stands.advance (stands : window.Stands plain) {highest seq : Nat}
    (top : plain.highest = some highest) (above : highest < seq) :
    ({ window.advance highest seq with received := (window.advance highest seq).received + 1 } :
      ReplayWindow).Stands (plain.accept seq) := by
  have accept : plain.accept seq =
      { accepted := insert seq plain.accepted
        highest := some seq
        skipped := plain.skipped ∪ plain.gap seq } := by
    unfold PlainWindow.accept
    rw [top]
    exact congrArg (fun highest => PlainWindow.mk _ (some highest) _) (max_eq_left above.le)
  have within : ∀ other ∈ plain.accepted, other ≤ highest := by
    intro other member
    obtain ⟨highest', top', below⟩ := stands.below other member
    rw [top, Option.some_inj] at top'
    exact top' ▸ below
  obtain ⟨firstMember, lowest⟩ := stands.first (by rw [top]; rfl)
  have firstBelow := within _ firstMember
  obtain ⟨sameFirst, sameReceived, skips⟩ := @advance_counts window highest seq
  rw [accept]
  constructor
  · rfl
  · intro behind inside
    have before := stands.marked (behind - (seq - highest)) (by omega)
    have moved : seq - highest ≤ behind → behind ≤ seq →
        highest - (behind - (seq - highest)) = seq - behind := by omega
    refine (Bool.eq_iff_iff.mp (get_advance highest seq inside)).trans ?_
    rw [top] at before
    simp only [Option.some_inj, exists_eq_left'] at before
    simp only [Bool.or_eq_true, Bool.and_eq_true, decide_eq_true_eq, Option.some_inj,
      exists_eq_left', Finset.mem_insert, before]
    constructor
    · rintro (rfl | ⟨reaches, below, member⟩)
      · exact ⟨Nat.zero_le _, Or.inl (Nat.sub_zero seq)⟩
      · have inRange : behind ≤ seq := by omega
        exact ⟨inRange, Or.inr (moved reaches inRange ▸ member)⟩
    · rintro ⟨inRange, same | member⟩
      · exact Or.inl (by omega)
      · have old := within _ member
        have reaches : seq - highest ≤ behind := by omega
        exact Or.inr ⟨reaches, by omega, (moved reaches inRange).symm ▸ member⟩
  · intro other member
    rcases Finset.mem_insert.mp member with rfl | old
    · exact ⟨other, rfl, le_rfl⟩
    · exact ⟨seq, rfl, (within other old).trans above.le⟩
  · rintro highest' ⟨⟩
    exact Finset.mem_insert_self _ _
  · have missing : seq ∉ plain.accepted := fun member => Nat.not_le.mpr above (within seq member)
    rw [Finset.card_insert_of_notMem missing]
    exact congrArg (· + 1) (sameReceived.trans stands.received)
  · intro _
    show (window.advance highest seq).first ∈ _ ∧ ∀ _ ∈ _, (window.advance highest seq).first ≤ _
    rw [sameFirst]
    refine ⟨Finset.mem_insert_of_mem firstMember, fun other member => ?_⟩
    rcases Finset.mem_insert.mp member with rfl | old
    · exact firstBelow.trans above.le
    · exact lowest other old
  · have apart : Disjoint plain.skipped (plain.gap seq) := by
      refine Finset.disjoint_left.mpr fun other old new => ?_
      obtain ⟨_, highest', top', below⟩ := stands.inside other old
      rw [top, Option.some_inj] at top'
      exact Nat.lt_asymm (top' ▸ below) (mem_gap top new).1
    refine skips.trans ?_
    rw [Finset.card_union_of_disjoint apart, card_gap top, stands.skipped]
  · intro other member
    show (window.advance highest seq).first < other ∧ _
    rw [sameFirst]
    rcases Finset.mem_union.mp member with old | new
    · obtain ⟨low, highest', top', below⟩ := stands.inside other old
      rw [top, Option.some_inj] at top'
      exact ⟨low, seq, rfl, (top' ▸ below).trans above⟩
    · obtain ⟨low, high⟩ := mem_gap top new
      exact ⟨firstBelow.trans_lt low, seq, rfl, high⟩

theorem Stands.record (stands : window.Stands plain) {seq : Nat} (new : plain.peek seq = .new) :
    (window.record seq).Stands (plain.accept seq) := by
  unfold ReplayWindow.record
  rw [stands.highest]
  cases top : plain.highest with
  | none => exact stands.start top seq
  | some highest =>
    dsimp only
    by_cases notAbove : seq ≤ highest
    · obtain ⟨inside, missing⟩ := PlainWindow.new_inside new top notAbove
      rw [if_pos notAbove]
      exact stands.set top notAbove inside missing
    · rw [if_neg notAbove]
      exact stands.advance top (Nat.lt_of_not_le notAbove)

theorem Stands.check (stands : window.Stands plain) (seq : Nat) :
    (window.check seq).1 = (plain.check seq).1 ∧
      (window.check seq).2.Stands (plain.check seq).2 := by
  unfold ReplayWindow.check PlainWindow.check
  dsimp only
  rw [stands.peek seq]
  refine ⟨rfl, ?_⟩
  by_cases new : plain.peek seq = .new
  · rw [if_pos new, if_pos new]
    exact stands.record new
  · rw [if_neg new, if_neg new]
    exact stands

end ReplayWindow

/-! ### Runs of checks and peeks -/

inductive WindowQuery where
  | check (seq : Nat)
  | peek (seq : Nat)
deriving DecidableEq, Repr

namespace PlainWindow

/-- The answers to queries asked one after another. -/
def answers (plain : PlainWindow) : List WindowQuery → List Seen
  | [] => []
  | .check seq :: rest => (plain.check seq).1 :: (plain.check seq).2.answers rest
  | .peek seq :: rest => plain.peek seq :: plain.answers rest

end PlainWindow

namespace ReplayWindow

/-- The answers to queries asked one after another. -/
def answers (window : ReplayWindow) : List WindowQuery → List Seen
  | [] => []
  | .check seq :: rest => (window.check seq).1 :: (window.check seq).2.answers rest
  | .peek seq :: rest => window.peek seq :: window.answers rest

/-- The numbers accepted, in order. -/
def accepts (window : ReplayWindow) : List WindowQuery → List Nat
  | [] => []
  | .check seq :: rest =>
    if (window.check seq).1 = .new then seq :: (window.check seq).2.accepts rest
    else (window.check seq).2.accepts rest
  | .peek _ :: rest => window.accepts rest

variable {window : ReplayWindow} {plain : PlainWindow}

theorem Stands.answers (stands : window.Stands plain) (queries : List WindowQuery) :
    window.answers queries = plain.answers queries := by
  induction queries generalizing window plain with
  | nil => rfl
  | cons query rest inductionHypothesis =>
    cases query with
    | check seq =>
      obtain ⟨same, after⟩ := stands.check seq
      unfold ReplayWindow.answers PlainWindow.answers
      rw [same, inductionHypothesis after]
    | peek seq =>
      unfold ReplayWindow.answers PlainWindow.answers
      rw [stands.peek seq, inductionHypothesis stands]

/-- What is accepted was not accepted before. -/
theorem Stands.accepts (stands : window.Stands plain) (queries : List WindowQuery) :
    (window.accepts queries).Nodup ∧ ∀ seq ∈ window.accepts queries, seq ∉ plain.accepted := by
  induction queries generalizing window plain with
  | nil => exact ⟨List.nodup_nil, fun _ member => absurd member List.not_mem_nil⟩
  | cons query rest inductionHypothesis =>
    cases query with
    | peek seq => exact inductionHypothesis stands
    | check seq =>
      obtain ⟨same, after⟩ := stands.check seq
      obtain ⟨nodup, apart⟩ := inductionHypothesis after
      unfold ReplayWindow.accepts
      split
      · rename_i new
        rw [same] at new
        have new : plain.peek seq = .new := new
        have grown : (plain.check seq).2.accepted = insert seq plain.accepted := by
          unfold PlainWindow.check
          dsimp only
          rw [if_pos new]
          rfl
        rw [grown] at apart
        refine ⟨List.nodup_cons.mpr ⟨fun again => ?_, nodup⟩, List.forall_mem_cons.mpr ⟨?_, ?_⟩⟩
        · exact apart seq again (Finset.mem_insert_self seq _)
        · intro member
          obtain ⟨highest, top, below⟩ := stands.below seq member
          exact (PlainWindow.new_inside new top below).2 member
        · exact fun other later old => apart other later (Finset.mem_insert_of_mem old)
      · rename_i seen
        refine ⟨nodup, ?_⟩
        unfold PlainWindow.check at apart
        dsimp only at apart
        have seen : ¬ plain.peek seq = .new := fun new => seen (same.trans new)
        rw [if_neg seen] at apart
        exact apart

/-- The window answers every check and every peek as the plain model does, and accepts no
number twice. -/
theorem run_answersPlain (queries : List WindowQuery) :
    ({} : ReplayWindow).answers queries = ({} : PlainWindow).answers queries ∧
      (({} : ReplayWindow).accepts queries).Nodup :=
  ⟨stands_empty.answers queries, (stands_empty.accepts queries).1⟩

/-! ### Counting losses -/

theorem Stands.spanned (stands : window.Stands plain) {highest : Nat}
    (top : plain.highest = some highest) : plain.spanned = Finset.Icc window.first highest := by
  obtain ⟨firstMember, lowest⟩ := stands.first (by rw [top]; rfl)
  ext seq
  unfold PlainWindow.spanned
  rw [top, Option.elim_some, Finset.mem_filter, Finset.mem_range, Finset.mem_Icc]
  constructor
  · rintro ⟨below, low, member, above⟩
    exact ⟨(lowest low member).trans above, Nat.le_of_lt_succ below⟩
  · rintro ⟨above, below⟩
    exact ⟨Nat.lt_succ_of_le below, window.first, firstMember, above⟩

/-- What is counted lost is what the plain model misses, exactly if no number was accepted
from a gap or nothing is missing. -/
theorem Stands.lost_iff (stands : window.Stands plain) :
    window.lost = plain.missing.card ↔
      Disjoint plain.accepted plain.skipped ∨ plain.missing = ∅ := by
  unfold lost PlainWindow.missing
  rw [stands.highest]
  cases top : plain.highest with
  | none =>
    have nothing : plain.spanned = ∅ := by
      unfold PlainWindow.spanned
      rw [top]
      rfl
    rw [nothing, Finset.empty_sdiff]
    simp
  | some highest =>
    obtain ⟨firstMember, lowest⟩ := stands.first (by rw [top]; rfl)
    have within : plain.accepted ∪ plain.skipped ⊆ Finset.Icc window.first highest := by
      intro seq member
      rw [Finset.mem_Icc]
      rcases Finset.mem_union.mp member with here | skipped
      · obtain ⟨highest', top', below⟩ := stands.below seq here
        rw [top, Option.some_inj] at top'
        exact ⟨lowest seq here, top' ▸ below⟩
      · obtain ⟨above, highest', top', below⟩ := stands.inside seq skipped
        rw [top, Option.some_inj] at top'
        exact ⟨above.le, top' ▸ below.le⟩
    have total := Finset.card_le_card within
    have overlap := Finset.card_union_add_card_inter plain.accepted plain.skipped
    rw [Nat.card_Icc] at total
    rw [stands.spanned top, Option.elim_some, ← Finset.card_eq_zero, Finset.card_sdiff_of_subset within,
      Nat.card_Icc, Finset.disjoint_iff_inter_eq_empty, ← Finset.card_eq_zero, stands.received,
      stands.skipped]
    have low : window.first ≤ highest := by
      obtain ⟨highest', top', below⟩ := stands.below _ firstMember
      rw [top, Option.some_inj] at top'
      exact top' ▸ below
    omega

theorem stands_run (seqs : List Nat) :
    (run (fun window seq => (window.check seq).2) ({} : ReplayWindow) seqs).Stands
      (run (fun plain seq => (plain.check seq).2) ({} : PlainWindow) seqs) := by
  induction seqs using List.reverseRecOn with
  | nil => exact stands_empty
  | append_singleton seqs seq inductionHypothesis =>
    rw [run_concat, run_concat]
    exact (inductionHypothesis.check seq).2

/-- After any checks the count of losses is the number of missing numbers, exactly if no
number accepted late lies in the gap of a jump or nothing is missing. -/
theorem run_lost_iff (seqs : List Nat) :
    let window : ReplayWindow := run (fun window seq => (window.check seq).2) {} seqs
    let plain : PlainWindow := run (fun plain seq => (plain.check seq).2) {} seqs
    window.lost = plain.missing.card ↔
      Disjoint plain.accepted plain.skipped ∨ plain.missing = ∅ :=
  (stands_run seqs).lost_iff

/-- Number 2000 comes late from the gap of a jump, and the loss of 3001 goes uncounted. -/
theorem lost_uncounted :
    let seqs := [0, 3000, 2000, 3002]
    let window := run (fun window seq => (window.check seq).2) ({} : ReplayWindow) seqs
    let plain := run (fun plain seq => (plain.check seq).2) ({} : PlainWindow) seqs
    window.lost = 0 ∧ plain.missing = {3001} := by
  intro seqs window plain
  have after : plain = ⟨{3002, 2000, 3000, 0}, some 3002, Finset.Ioo 0 3000⟩ := by
    simp [plain, seqs, run, PlainWindow.check, PlainWindow.peek, PlainWindow.accept,
      PlainWindow.gap, windowBits]
  refine ⟨by decide +kernel, ?_⟩
  rw [after]
  ext seq
  simp [PlainWindow.missing, PlainWindow.spanned]
  omega

end ReplayWindow

end Throcc
