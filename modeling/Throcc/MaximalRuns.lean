/-
This file holds a small theory of finite sets of naturals as maximal runs of
consecutive members: every member lies in exactly one run, and inserting a
member or removing a stretch of one run changes only the runs it touches.
-/

import Mathlib.Data.Finset.Max

namespace Throcc

/-- `lo` to `hi` is a stretch of consecutive members that no longer one contains. -/
structure MaximalRun (members : Finset Nat) (lo hi : Nat) : Prop where
  le : lo ≤ hi
  full : ∀ key, lo ≤ key → key ≤ hi → key ∈ members
  starts : ∀ key, key + 1 = lo → key ∉ members
  ends : hi + 1 ∉ members

namespace MaximalRun

variable {members : Finset Nat} {lo hi lo' hi' : Nat}

theorem starts_first (run : MaximalRun members lo hi) (other : MaximalRun members lo' hi')
    (meets : lo' ≤ hi) : lo' ≤ lo := by
  by_contra later
  exact other.starts (lo' - 1) (by omega) (run.full _ (by omega) (by omega))

theorem ends_last (run : MaximalRun members lo hi) (other : MaximalRun members lo' hi')
    (meets : lo' ≤ hi) : hi' ≤ hi := by
  by_contra longer
  exact run.ends (other.full _ (by omega) (by omega))

/-- Two maximal runs that share a member are one. -/
theorem unique (run : MaximalRun members lo hi) (other : MaximalRun members lo' hi') {key : Nat}
    (low : lo ≤ key) (high : key ≤ hi) (low' : lo' ≤ key) (high' : key ≤ hi') :
    lo = lo' ∧ hi = hi' := by
  have first := run.starts_first other (low'.trans high)
  have second := other.starts_first run (low.trans high')
  have third := run.ends_last other (low'.trans high)
  have fourth := other.ends_last run (low.trans high')
  exact ⟨le_antisymm second first, le_antisymm fourth third⟩

/-- A member lies in a maximal run. -/
theorem exists_of_mem {key : Nat} (member : key ∈ members) :
    ∃ lo hi, MaximalRun members lo hi ∧ lo ≤ key ∧ key ≤ hi := by
  have downward : ∃ lo ≤ key, (∀ other, lo ≤ other → other ≤ key → other ∈ members) ∧
      ∀ other, other + 1 = lo → other ∉ members := by
    induction key with
    | zero =>
      refine ⟨0, le_rfl, fun other _ low => ?_, fun other next => absurd next (Nat.succ_ne_zero _)⟩
      rw [Nat.le_zero.mp low]
      exact member
    | succ key inductionHypothesis =>
      by_cases before : key ∈ members
      · obtain ⟨lo, low, full, starts⟩ := inductionHypothesis before
        refine ⟨lo, Nat.le_succ_of_le low, fun other above below => ?_, starts⟩
        obtain below | rfl := Nat.le_succ_iff.mp below
        · exact full other above below
        · exact member
      · refine ⟨key + 1, le_rfl, fun other above below => ?_, fun other next => ?_⟩
        · rw [le_antisymm below above]
          exact member
        · rw [Nat.succ.inj next]
          exact before
  have upward : ∀ room key, members.sup id < key + room → key ∈ members →
      ∃ hi, key ≤ hi ∧ (∀ other, key ≤ other → other ≤ hi → other ∈ members) ∧
        hi + 1 ∉ members := by
    intro room
    induction room with
    | zero =>
      intro key high there
      have within : key ≤ members.sup id := Finset.le_sup (f := id) there
      omega
    | succ room inductionHypothesis =>
      intro key high there
      by_cases next : key + 1 ∈ members
      · obtain ⟨hi, above, full, ends⟩ := inductionHypothesis (key + 1) (by omega) next
        refine ⟨hi, by omega, fun other low below => ?_, ends⟩
        obtain low | rfl := Nat.lt_or_eq_of_le low
        · exact full other low below
        · exact there
      · refine ⟨key, le_rfl, fun other low below => ?_, next⟩
        rw [le_antisymm below low]
        exact there
  obtain ⟨lo, low, fullBelow, starts⟩ := downward
  obtain ⟨hi, high, fullAbove, ends⟩ := upward (members.sup id + 1) key (by omega) member
  refine ⟨lo, hi, ⟨low.trans high, fun other above below => ?_, starts, ends⟩, low, high⟩
  obtain under | atLeast := Nat.lt_or_ge other key
  · exact fullBelow other above under.le
  · exact fullAbove other atLeast below

/-- Inserting a member joins the run that ends before it and the one that starts after it. -/
theorem insert_iff {key left right : Nat} (absent : key ∉ members)
    (leftmost : (left = key ∧ ∀ other, other + 1 = key → other ∉ members) ∨
      ∃ before, before + 1 = key ∧ MaximalRun members left before)
    (rightmost : (right = key ∧ key + 1 ∉ members) ∨ MaximalRun members (key + 1) right) :
    MaximalRun (insert key members) lo hi ↔
      lo = left ∧ hi = right ∨ MaximalRun members lo hi ∧ hi + 1 ≠ key ∧ lo ≠ key + 1 := by
  have low : left ≤ key := by
    obtain ⟨rfl, _⟩ | ⟨before, rfl, run⟩ := leftmost
    · exact le_rfl
    · exact Nat.le_succ_of_le run.le
  have high : key ≤ right := by
    obtain ⟨rfl, _⟩ | run := rightmost
    · exact le_rfl
    · exact (Nat.le_succ key).trans run.le
  have joined : MaximalRun (insert key members) left right := by
    constructor
    · exact low.trans high
    · intro other above below
      rw [Finset.mem_insert]
      by_contra outside
      push Not at outside
      obtain ⟨different, missing⟩ := outside
      obtain under | beyond := Nat.lt_or_gt_of_ne different
      · obtain ⟨rfl, _⟩ | ⟨before, rfl, run⟩ := leftmost
        · omega
        · exact missing (run.full other above (by omega))
      · obtain ⟨rfl, _⟩ | run := rightmost
        · omega
        · exact missing (run.full other beyond below)
    · intro other next
      rw [Finset.mem_insert, not_or]
      refine ⟨by omega, ?_⟩
      obtain ⟨rfl, starts⟩ | ⟨before, rfl, run⟩ := leftmost
      · exact starts other next
      · exact run.starts other next
    · rw [Finset.mem_insert, not_or]
      refine ⟨by omega, ?_⟩
      obtain ⟨rfl, ends⟩ | run := rightmost
      · exact ends
      · exact run.ends
  constructor
  · intro run
    by_cases within : lo ≤ key ∧ key ≤ hi
    · exact .inl (run.unique joined within.1 within.2 low high)
    · have starts : ∀ other, other + 1 = lo → other ≠ key ∧ other ∉ members := by
        intro other next
        have missing := run.starts other next
        rw [Finset.mem_insert, not_or] at missing
        exact missing
      have ends := run.ends
      rw [Finset.mem_insert, not_or] at ends
      refine .inr ⟨⟨run.le, fun other above below => ?_, fun other next => (starts other next).2,
        ends.2⟩, ends.1, ?_⟩
      · have member := run.full other above below
        rw [Finset.mem_insert] at member
        exact member.resolve_left (by omega)
      · rintro rfl
        exact (starts key rfl).1 rfl
  · rintro (⟨rfl, rfl⟩ | ⟨run, ends, starts⟩)
    · exact joined
    · refine ⟨run.le, fun other above below => Finset.mem_insert_of_mem (run.full other above below),
        fun other next => ?_, ?_⟩
      · rw [Finset.mem_insert, not_or]
        exact ⟨by omega, run.starts other next⟩
      · rw [Finset.mem_insert, not_or]
        exact ⟨ends, run.ends⟩

/-- Removing a stretch of a run leaves what is before and what is after it. -/
theorem remove_iff {rest : Finset Nat} {first last : Nat} (run : MaximalRun members lo' hi')
    (low : lo' ≤ first) (ordered : first ≤ last) (high : last ≤ hi')
    (left : ∀ key, key ∈ rest ↔ key ∈ members ∧ ¬ (first ≤ key ∧ key ≤ last)) :
    MaximalRun rest lo hi ↔
      MaximalRun members lo hi ∧ lo ≠ lo' ∨ (lo' < first ∧ lo = lo' ∧ hi + 1 = first) ∨
        (last < hi' ∧ lo = last + 1 ∧ hi = hi') := by
  have headRun : lo' < first → MaximalRun rest lo' (first - 1) := by
    intro short
    refine ⟨by omega, fun key above below => ?_, fun key next => ?_, ?_⟩
    · exact (left key).mpr ⟨run.full key above (by omega), by omega⟩
    · exact fun member => run.starts key next ((left key).mp member).1
    · intro member
      have outside := ((left _).mp member).2
      omega
  have tailRun : last < hi' → MaximalRun rest (last + 1) hi' := by
    intro short
    refine ⟨by omega, fun key above below => ?_, fun key next => ?_, ?_⟩
    · exact (left key).mpr ⟨run.full key (by omega) below, by omega⟩
    · intro member
      have outside := ((left _).mp member).2
      omega
    · exact fun member => run.ends ((left _).mp member).1
  constructor
  · intro found
    have start := (left lo).mp (found.full lo le_rfl found.le)
    by_cases inside : lo' ≤ lo ∧ lo ≤ hi'
    · by_cases below : lo < first
      · obtain ⟨rfl, rfl⟩ := found.unique (headRun (by omega)) le_rfl found.le (by omega) (by omega)
        exact .inr (.inl ⟨by omega, rfl, by omega⟩)
      · obtain ⟨rfl, rfl⟩ := found.unique (tailRun (by omega)) le_rfl found.le (by omega) (by omega)
        exact .inr (.inr ⟨by omega, rfl, rfl⟩)
    · have apart : ∀ key, lo ≤ key → key ≤ hi → ¬ (lo' ≤ key ∧ key ≤ hi') := by
        intro key above below within
        have before : lo < lo' := by omega
        exact run.starts (lo' - 1) (by omega)
          ((left _).mp (found.full (lo' - 1) (by omega) (by omega))).1
      have back : ∀ key, key ∈ members → ¬ (lo' ≤ key ∧ key ≤ hi') → key ∈ rest :=
        fun key member outside => (left key).mpr ⟨member, by omega⟩
      refine .inl ⟨⟨found.le, fun key above below => ((left key).mp (found.full key above below)).1,
        fun key next member => ?_, fun member => ?_⟩, by omega⟩
      · refine found.starts key next (back key member fun within => ?_)
        refine run.ends ?_
        rw [show hi' + 1 = lo by omega]
        exact start.1
      · refine found.ends (back _ member fun within => ?_)
        have outside := apart hi found.le le_rfl
        refine run.starts hi (by omega) ?_
        exact ((left hi).mp (found.full hi found.le le_rfl)).1
  · rintro (⟨found, different⟩ | ⟨short, rfl, same⟩ | ⟨short, rfl, rfl⟩)
    · have apart : ∀ key, lo ≤ key → key ≤ hi → ¬ (lo' ≤ key ∧ key ≤ hi') := fun key above below
        within => different (found.unique run above below within.1 within.2).1
      refine ⟨found.le, fun key above below => ?_, fun key next member => ?_, fun member => ?_⟩
      · have outside := apart key above below
        exact (left key).mpr ⟨found.full key above below, by omega⟩
      · exact found.starts key next ((left key).mp member).1
      · exact found.ends ((left _).mp member).1
    · rw [show hi = first - 1 by omega]
      exact headRun short
    · exact tailRun short

/-- Dropping everything below a bound cuts the run that straddles it. -/
theorem from_iff {rest : Finset Nat} {bound : Nat}
    (left : ∀ key, key ∈ rest ↔ key ∈ members ∧ bound ≤ key) :
    MaximalRun rest lo hi ↔
      MaximalRun members lo hi ∧ bound ≤ lo ∨
        lo = bound ∧ ∃ start, start < bound ∧ bound ≤ hi ∧ MaximalRun members start hi := by
  constructor
  · intro found
    have start := (left lo).mp (found.full lo le_rfl found.le)
    have full : ∀ key, lo ≤ key → key ≤ hi → key ∈ members := fun key above below =>
      ((left key).mp (found.full key above below)).1
    have ends : hi + 1 ∉ members := fun member =>
      found.ends ((left _).mpr ⟨member, start.2.trans (found.le.trans (Nat.le_succ hi))⟩)
    by_cases preceded : ∃ key, key + 1 = lo ∧ key ∈ members
    · obtain ⟨key, next, member⟩ := preceded
      have same : lo = bound := by
        by_contra above
        exact found.starts key next ((left key).mpr ⟨member, by omega⟩)
      obtain ⟨begin, last, run, low, high⟩ := exists_of_mem start.1
      refine .inr ⟨same, begin, ?_, same ▸ found.le, ?_⟩
      · by_contra late
        exact run.starts key (by omega) member
      · have reached : last = hi := by
          by_contra different
          have ordered := found.le
          obtain shorter | longer := Nat.lt_or_gt_of_ne different
          · exact run.ends (full _ (by omega) (by omega))
          · exact ends (run.full _ (by omega) (by omega))
        rw [← reached]
        exact run
    · push Not at preceded
      exact .inl ⟨⟨found.le, full, preceded, ends⟩, start.2⟩
  · rintro (⟨run, above⟩ | ⟨rfl, start, short, reaches, run⟩)
    · refine ⟨run.le, fun key low high => (left key).mpr ⟨run.full key low high, by omega⟩,
        fun key next member => run.starts key next ((left key).mp member).1,
        fun member => run.ends ((left _).mp member).1⟩
    · refine ⟨reaches, fun key low high => (left key).mpr ⟨run.full key (by omega) high, low⟩,
        fun key next member => ?_, fun member => run.ends ((left _).mp member).1⟩
      have within := ((left key).mp member).2
      omega

end MaximalRun

end Throcc
