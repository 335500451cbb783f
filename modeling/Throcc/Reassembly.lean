/-
This file proves the reassembler sound for whatever is pushed into it: its
spans are the maximal runs of what it buffers, its flag sets agree with the
buffered fragments, its arithmetic stays in range and a unit it emits is an
unbroken run from its only first to its only last fragment.
-/

import Throcc.Fragment
import Throcc.MaximalRuns

namespace Throcc

namespace Reassembler

/-- The set holds exactly the buffered fragments with a flag. -/
def Marks (flag : Flags) (fragments : Map Nat (Flags × List UInt8)) (set : Finset Nat) : Prop :=
  ∀ seq, seq ∈ set ↔ ∃ piece, fragments.lookup seq = some piece ∧ piece.1.contains flag = true

/-- The spans and flag sets agree with the buffered fragments. -/
structure Linked (reassembler : Reassembler) : Prop where
  spans : ∀ lo hi, reassembler.spans.lookup lo = some hi ↔
    MaximalRun reassembler.fragments.keys lo hi
  firsts : Marks .first reassembler.fragments reassembler.firsts
  lasts : Marks .last reassembler.fragments reassembler.lasts
  bounded : ∀ seq ∈ reassembler.fragments.keys, seq ≤ u32Max

/-- No span holds a FIRST at or before a LAST. -/
def Apart (reassembler : Reassembler) : Prop :=
  ∀ lo hi, reassembler.spans.lookup lo = some hi → ∀ first ∈ reassembler.firsts,
    ∀ last ∈ reassembler.lasts, lo ≤ first → first ≤ last → ¬ last ≤ hi

/-- What holds of a reassembler after every step. -/
structure Sound (reassembler : Reassembler) : Prop extends Linked reassembler where
  apart : reassembler.Apart
  limit : reassembler.fragments.keys.card ≤ reassembler.maxBuffered
  room : 0 < reassembler.maxBuffered
  fits : 0 < reassembler.maxFragments

variable {reassembler : Reassembler}

/-! ### Flag sets -/

section Marks

variable {flag : Flags} {fragments : Map Nat (Flags × List UInt8)} {set : Finset Nat}

theorem Marks.retain (marks : Marks flag fragments set) (keep : Nat → Prop) [DecidablePred keep] :
    Marks flag (fragments.retain fun seq _ => keep seq) (set.filter keep) := by
  intro seq
  rw [Finset.mem_filter, marks seq, Map.lookup_retain]
  constructor
  · rintro ⟨⟨piece, found, flagged⟩, kept⟩
    exact ⟨piece, Option.filter_eq_some_iff.mpr ⟨found, decide_eq_true kept⟩, flagged⟩
  · rintro ⟨piece, found, flagged⟩
    obtain ⟨found, kept⟩ := Option.filter_eq_some_iff.mp found
    exact ⟨⟨piece, found, flagged⟩, of_decide_eq_true kept⟩

theorem Marks.insert (marks : Marks flag fragments set) (seq : Nat) (flags : Flags)
    (plaintext : List UInt8) :
    Marks flag (fragments.insert seq (flags, plaintext))
      (if flags.contains flag then Insert.insert seq set else set.erase seq) := by
  intro other
  rw [Map.lookup_insert_ite]
  by_cases same : other = seq
  · subst same
    rw [if_pos rfl]
    split
    · rename_i flagged
      simp [flagged]
    · rename_i flagged
      simp [flagged]
  · rw [if_neg same, ← marks other]
    split
    · simp [same]
    · simp [same]

/-- Where every buffered fragment is a known piece, the set holds those whose piece has the flag. -/
theorem Marks.mem_iff (marks : Marks flag fragments set) {piece : Nat → Flags × List UInt8}
    (stored : ∀ seq ∈ fragments.keys, fragments.lookup seq = some (piece seq)) {seq : Nat} :
    seq ∈ set ↔ seq ∈ fragments.keys ∧ (piece seq).1.contains flag = true := by
  rw [marks]
  constructor
  · rintro ⟨found, there, flagged⟩
    have member := (Map.mem_keys_iff _ _).mpr ⟨found, there⟩
    rw [stored seq member] at there
    cases there
    exact ⟨member, flagged⟩
  · exact fun both => ⟨piece seq, stored seq both.1, both.2⟩

end Marks

/-! ### Spans -/

theorem Linked.spanOf_eq_some (linked : reassembler.Linked) {seq lo hi : Nat} :
    reassembler.spanOf seq = some (lo, hi) ↔
      MaximalRun reassembler.fragments.keys lo hi ∧ lo ≤ seq ∧ seq ≤ hi := by
  unfold spanOf
  constructor
  · intro found
    obtain ⟨start, greatest, found⟩ := Option.bind_eq_some_iff.mp found
    obtain ⟨stop, stored, found⟩ := Option.bind_eq_some_iff.mp found
    split at found
    · rename_i within
      cases found
      exact ⟨(linked.spans _ _).mp stored, (greatestIn_eq_some.mp greatest).1.2.2, within⟩
    · cases found
  · rintro ⟨run, low, high⟩
    have stored := (linked.spans lo hi).mpr run
    have greatest : greatestIn reassembler.spans.keys 0 seq = some lo := by
      refine greatestIn_eq_some.mpr ⟨⟨(Map.mem_keys_iff _ _).mpr ⟨hi, stored⟩, Nat.zero_le _, low⟩,
        fun other member _ below => ?_⟩
      obtain ⟨stop, there⟩ := (Map.mem_keys_iff _ _).mp member
      exact run.starts_first ((linked.spans _ _).mp there) (below.trans high)
    rw [greatest]
    show (reassembler.spans.lookup lo).bind _ = _
    rw [stored]
    exact if_pos high

theorem Linked.spanOf_eq_none (linked : reassembler.Linked) {seq : Nat} :
    reassembler.spanOf seq = none ↔ seq ∉ reassembler.fragments.keys := by
  constructor
  · intro missing member
    obtain ⟨lo, hi, run, low, high⟩ := MaximalRun.exists_of_mem member
    rw [linked.spanOf_eq_some.mpr ⟨run, low, high⟩] at missing
    cases missing
  · intro absent
    refine Option.eq_none_iff_forall_ne_some.mpr ?_
    rintro ⟨lo, hi⟩ found
    obtain ⟨run, low, high⟩ := linked.spanOf_eq_some.mp found
    exact absent (run.full seq low high)

/-- With an empty buffer the indexes are empty too. -/
theorem Linked.empty (linked : reassembler.Linked) (none : reassembler.fragments = ∅) :
    reassembler.spans = ∅ ∧ reassembler.firsts = ∅ ∧ reassembler.lasts = ∅ := by
  refine ⟨Finmap.ext_lookup fun lo => ?_, Finset.eq_empty_of_forall_notMem fun seq member => ?_,
    Finset.eq_empty_of_forall_notMem fun seq member => ?_⟩
  · rw [Finmap.lookup_empty]
    refine Option.eq_none_iff_forall_ne_some.mpr fun hi found => ?_
    have run := (linked.spans lo hi).mp found
    rw [none] at run
    cases run.full lo le_rfl run.le
  · obtain ⟨piece, found, _⟩ := (linked.firsts seq).mp member
    rw [none] at found
    cases found
  · obtain ⟨piece, found, _⟩ := (linked.lasts seq).mp member
    rw [none] at found
    cases found

/-! ### Dropping a run -/

/-- A reassembler is left with the fragments a test keeps. -/
structure Leaves (keep : Nat → Bool) (before after : Reassembler) : Prop where
  fragments : after.fragments = before.fragments.retain fun seq _ => keep seq
  maxFragments : after.maxFragments = before.maxFragments
  maxBuffered : after.maxBuffered = before.maxBuffered

/-- Everything but a run of fragments. -/
def outside (first last seq : Nat) : Bool := ¬ (first ≤ seq ∧ seq ≤ last)

theorem outside_iff {first last seq : Nat} :
    outside first last seq = true ↔ ¬ (first ≤ seq ∧ seq ≤ last) := decide_eq_true_iff

theorem Linked.lookup_cut (linked : reassembler.Linked) {first last lo hi start stop : Nat}
    (run : MaximalRun reassembler.fragments.keys lo hi) (low : lo ≤ first)
    (ordered : first ≤ last) :
    let head := if lo < first then (reassembler.spans.erase lo).insert lo (first - 1)
      else reassembler.spans.erase lo
    let spans := if last < hi then head.insert (last + 1) hi else head
    spans.lookup start = some stop ↔
      MaximalRun reassembler.fragments.keys start stop ∧ start ≠ lo ∨
        (lo < first ∧ start = lo ∧ stop + 1 = first) ∨
          (last < hi ∧ start = last + 1 ∧ stop = hi) := by
  intro head spans
  have inHead : head.lookup start = some stop ↔
      MaximalRun reassembler.fragments.keys start stop ∧ start ≠ lo ∨
        (lo < first ∧ start = lo ∧ stop + 1 = first) := by
    rw [← linked.spans]
    unfold head
    split
    · rename_i short
      rw [Map.lookup_insert_ite, Map.lookup_erase_ite]
      by_cases same : start = lo
      · rw [if_pos same, Option.some_inj]
        omega
      · rw [if_neg same, if_neg same]
        simp [same]
    · rename_i whole
      rw [Map.lookup_erase_ite]
      by_cases same : start = lo
      · simp [same, whole]
      · simp [same]
  have beyond : last < hi → ¬ (MaximalRun reassembler.fragments.keys (last + 1) stop) := by
    intro short other
    have same := run.unique other (show lo ≤ last + 1 by omega) short le_rfl other.le
    omega
  unfold spans
  split
  · rename_i short
    rw [Map.lookup_insert_ite]
    by_cases same : start = last + 1
    · subst same
      rw [if_pos rfl, Option.some_inj]
      constructor
      · exact fun reached => .inr (.inr ⟨short, rfl, reached.symm⟩)
      · rintro (⟨other, _⟩ | ⟨_, inside, _⟩ | ⟨_, _, reached⟩)
        · exact absurd other (beyond short)
        · omega
        · exact reached.symm
    · rw [if_neg same, inHead]
      simp [same]
  · rename_i whole
    rw [inHead]
    simp [whole]

theorem Linked.unlink_spec (linked : reassembler.Linked) {first last lo hi : Nat}
    (run : MaximalRun reassembler.fragments.keys lo hi) (low : lo ≤ first) (ordered : first ≤ last)
    (high : last ≤ hi) :
    ∃ unlinked, reassembler.unlink first last = some unlinked ∧
      unlinked.fragments = reassembler.fragments ∧ (unlinked.discard first last).Linked ∧
      Leaves (outside first last) reassembler (unlinked.discard first last) := by
  have span := linked.spanOf_eq_some.mpr ⟨run, low, ordered.trans high⟩
  have bound : hi ≤ u32Max := linked.bounded hi (run.full hi run.le le_rfl)
  let head := if lo < first then (reassembler.spans.erase lo).insert lo (first - 1)
    else reassembler.spans.erase lo
  let spans := if last < hi then head.insert (last + 1) hi else head
  have cut : reassembler.cutSpans first last = some spans := by
    have headed : (if lo < first then
        (subU32 first 1).map ((reassembler.spans.erase lo).insert lo)
        else some (reassembler.spans.erase lo)) = some head := by
      unfold head subU32
      by_cases short : lo < first
      · rw [if_pos short, if_pos short, if_pos (by omega)]
        rfl
      · rw [if_neg short, if_neg short]
    unfold cutSpans
    rw [span]
    dsimp only
    rw [headed, Option.bind_some]
    unfold spans addU32
    by_cases short : last < hi
    · rw [if_pos short, if_pos short, if_pos (by omega)]
      rfl
    · rw [if_neg short, if_neg short]
  refine ⟨_, congrArg (Option.map _) cut, rfl, ?_, rfl, rfl, rfl⟩
  have left : ∀ seq, seq ∈ (reassembler.fragments.retain fun seq _ =>
      ¬ (first ≤ seq ∧ seq ≤ last)).keys ↔
        seq ∈ reassembler.fragments.keys ∧ ¬ (first ≤ seq ∧ seq ≤ last) := by
    intro seq
    rw [Map.mem_keys_retain _ fun seq => decide (¬ (first ≤ seq ∧ seq ≤ last)), decide_eq_true_iff]
  constructor
  · intro start stop
    exact (linked.lookup_cut run low ordered).trans (run.remove_iff low ordered high left).symm
  · exact linked.firsts.retain fun seq => ¬ (first ≤ seq ∧ seq ≤ last)
  · exact linked.lasts.retain fun seq => ¬ (first ≤ seq ∧ seq ≤ last)
  · exact fun seq member => linked.bounded seq ((left seq).mp member).1

theorem Linked.dropRun_spec (linked : reassembler.Linked) {first last lo hi : Nat}
    (run : MaximalRun reassembler.fragments.keys lo hi) (low : lo ≤ first) (ordered : first ≤ last)
    (high : last ≤ hi) :
    ∃ after, reassembler.dropRun first last = some after ∧ after.Linked ∧
      Leaves (outside first last) reassembler after := by
  obtain ⟨unlinked, unlinks, _, linked', leaves⟩ := linked.unlink_spec run low ordered high
  refine ⟨_, ?_, linked', leaves⟩
  unfold dropRun
  rw [unlinks]
  rfl

/-- The fragments of a run, in order. -/
def runOf (reassembler : Reassembler) (first last : Nat) : List (Flags × List UInt8) :=
  (List.range' first (last + 1 - first)).filterMap reassembler.fragments.lookup

theorem Linked.takeUnit_spec (linked : reassembler.Linked) {first last lo hi : Nat}
    (run : MaximalRun reassembler.fragments.keys lo hi) (low : lo ≤ first) (ordered : first ≤ last)
    (high : last ≤ hi) :
    ∃ after, reassembler.takeUnit first last =
        some (toUnit first last (reassembler.runOf first last), after) ∧ after.Linked ∧
      Leaves (outside first last) reassembler after := by
  obtain ⟨unlinked, unlinks, same, linked', leaves⟩ := linked.unlink_spec run low ordered high
  refine ⟨_, ?_, linked', leaves⟩
  unfold takeUnit
  rw [unlinks]
  show some (toUnit first last (unlinked.runOf first last), _) = _
  unfold runOf
  rw [same]

/-! ### Buffering a fragment -/

theorem Linked.left_of_join (linked : reassembler.Linked) {seq : Nat}
    (absent : seq ∉ reassembler.fragments.keys) :
    let before := if seq = 0 then none else reassembler.spanOf (seq - 1)
    let left := before.elim seq Prod.fst
    (left = seq ∧ ∀ other, other + 1 = seq → other ∉ reassembler.fragments.keys) ∨
      ∃ last, last + 1 = seq ∧ MaximalRun reassembler.fragments.keys left last := by
  dsimp only
  by_cases zero : seq = 0
  · rw [if_pos zero]
    exact .inl ⟨rfl, fun other next => by omega⟩
  · rw [if_neg zero]
    cases span : reassembler.spanOf (seq - 1) with
    | none =>
      refine .inl ⟨rfl, fun other next => ?_⟩
      rw [show other = seq - 1 by omega]
      exact linked.spanOf_eq_none.mp span
    | some ends =>
      obtain ⟨run, low, high⟩ := linked.spanOf_eq_some.mp span
      have reaches : ends.2 = seq - 1 := by
        by_contra further
        exact absent (run.full seq (by omega) (by omega))
      refine .inr ⟨ends.2, by omega, run⟩

theorem Linked.right_of_join (linked : reassembler.Linked) {seq : Nat}
    (absent : seq ∉ reassembler.fragments.keys) :
    let after := if seq = u32Max then none else reassembler.spans.lookup (seq + 1)
    let right := after.getD seq
    (right = seq ∧ seq + 1 ∉ reassembler.fragments.keys) ∨
      MaximalRun reassembler.fragments.keys (seq + 1) right := by
  dsimp only
  by_cases top : seq = u32Max
  · rw [if_pos top]
    refine .inl ⟨rfl, fun member => ?_⟩
    have bound := linked.bounded _ member
    omega
  · rw [if_neg top]
    cases found : reassembler.spans.lookup (seq + 1) with
    | none =>
      refine .inl ⟨rfl, fun member => ?_⟩
      obtain ⟨lo, hi, run, low, high⟩ := MaximalRun.exists_of_mem member
      have starts : lo = seq + 1 := by
        by_contra before
        exact absent (run.full seq (by omega) (by omega))
      rw [starts, ← linked.spans, found] at run
      cases run
    | some right => exact .inr ((linked.spans _ _).mp found)

theorem Linked.lookup_joinSpans (linked : reassembler.Linked) {seq : Nat}
    (absent : seq ∉ reassembler.fragments.keys) (lo hi : Nat) :
    (reassembler.joinSpans seq).spans.lookup lo = some hi ↔
      MaximalRun (Insert.insert seq reassembler.fragments.keys) lo hi := by
  have leftmost := linked.left_of_join absent
  have rightmost := linked.right_of_join absent
  unfold joinSpans
  dsimp only at leftmost rightmost ⊢
  generalize (if seq = 0 then none else reassembler.spanOf (seq - 1)).elim seq Prod.fst = left
    at leftmost ⊢
  generalize (if seq = u32Max then none else reassembler.spans.lookup (seq + 1)).getD seq = right
    at rightmost ⊢
  rw [MaximalRun.insert_iff absent leftmost rightmost, Map.lookup_insert_ite]
  by_cases same : lo = left
  · subst same
    rw [if_pos rfl, Option.some_inj]
    constructor
    · exact fun reached => .inl ⟨rfl, reached.symm⟩
    · rintro (⟨_, reached⟩ | ⟨run, short, _⟩)
      · exact reached.symm
      · obtain ⟨rfl, _⟩ | ⟨last, next, before⟩ := leftmost
        · exact absurd (run.full lo le_rfl run.le) absent
        · exact absurd ((before.unique run le_rfl before.le le_rfl run.le).2 ▸ next) short
  · have ends : MaximalRun reassembler.fragments.keys lo hi → hi + 1 ≠ seq := by
      intro run next
      obtain ⟨rfl, starts⟩ | ⟨last, next', before⟩ := leftmost
      · exact starts hi next (run.full hi run.le le_rfl)
      · have shared : hi = last := by omega
        subst shared
        exact same (run.unique before run.le le_rfl before.le le_rfl).1
    have cut : (if seq = u32Max then reassembler.spans else
        reassembler.spans.erase (seq + 1)).lookup lo = some hi ↔
          MaximalRun reassembler.fragments.keys lo hi ∧ lo ≠ seq + 1 := by
      rw [← linked.spans]
      split
      · rename_i top
        refine ⟨fun found => ⟨found, fun next => ?_⟩, And.left⟩
        have run := (linked.spans lo hi).mp found
        have bound := linked.bounded lo (run.full lo le_rfl run.le)
        omega
      · rw [Map.lookup_erase_ite]
        by_cases next : lo = seq + 1
        · simp [next]
        · simp [next]
    rw [if_neg same, cut]
    constructor
    · exact fun found => .inr ⟨found.1, ends found.1, found.2⟩
    · rintro (⟨isLeft, _⟩ | ⟨run, _, next⟩)
      · exact absurd isLeft same
      · exact ⟨run, next⟩

theorem Linked.insert (linked : reassembler.Linked) {seq : Nat} (bound : seq ≤ u32Max)
    (flags : Flags) (plaintext : List UInt8) : (reassembler.insert seq flags plaintext).Linked := by
  have fragments : (reassembler.insert seq flags plaintext).fragments =
      reassembler.fragments.insert seq (flags, plaintext) := by
    unfold Reassembler.insert
    dsimp only
    split <;> rfl
  have keys : (reassembler.insert seq flags plaintext).fragments.keys =
      Insert.insert seq reassembler.fragments.keys := by
    rw [fragments, Map.keys_insert]
  constructor
  · intro lo hi
    rw [keys]
    by_cases known : seq ∈ reassembler.fragments
    · rw [Finset.insert_eq_self.mpr (Finmap.mem_keys.mpr known), ← linked.spans]
      unfold Reassembler.insert
      dsimp only
      rw [if_pos known]
    · rw [← linked.lookup_joinSpans fun member => known (Finmap.mem_keys.mp member)]
      unfold Reassembler.insert
      dsimp only
      rw [if_neg known]
      rfl
  · rw [fragments]
    have marked := linked.firsts.insert seq flags plaintext
    unfold Reassembler.insert
    dsimp only
    by_cases known : seq ∈ reassembler.fragments
    · rw [if_pos known]
      exact marked
    · rw [if_neg known]
      exact marked
  · rw [fragments]
    have marked := linked.lasts.insert seq flags plaintext
    unfold Reassembler.insert
    dsimp only
    by_cases known : seq ∈ reassembler.fragments
    · rw [if_pos known]
      exact marked
    · rw [if_neg known]
      exact marked
  · rw [keys]
    intro other member
    obtain rfl | member := Finset.mem_insert.mp member
    · exact bound
    · exact linked.bounded other member

/-! ### What a buffered fragment decides -/

/-- What the fragment just buffered at `seq`, in the span from `lo` to `hi`, decides. -/
inductive Settles (reassembler : Reassembler) (seq lo hi : Nat) :
    Option AccessUnit → Reassembler → Prop where
  | waitsForLast (unended : ∀ last ∈ reassembler.lasts, seq ≤ last → ¬ last ≤ hi) :
      Settles reassembler seq lo hi none reassembler
  | waitsForFirst (headless : ∀ first ∈ reassembler.firsts, lo ≤ first → ¬ first ≤ seq) :
      Settles reassembler seq lo hi none reassembler
  /-- What follows the last LAST is too long for any unit to hold all of it. -/
  | dropsTail (start : Nat) (low : lo ≤ start)
      (unended : ∀ last ∈ reassembler.lasts, seq ≤ last → ¬ last ≤ hi)
      (after : ∀ last ∈ reassembler.lasts, start ≤ last → ¬ last ≤ hi)
      (long : reassembler.maxFragments ≤ hi + 1 - start) (left : Reassembler) (linked : left.Linked)
      (leaves : Leaves (outside start (hi + 1 - reassembler.maxFragments)) reassembler left) :
      Settles reassembler seq lo hi none left
  | dropsLong (first last : Nat) (isFirst : first ∈ reassembler.firsts)
      (isLast : last ∈ reassembler.lasts) (low : lo ≤ first) (before : first ≤ seq)
      (after : seq ≤ last) (high : last ≤ hi)
      (nearestFirst : ∀ other ∈ reassembler.firsts, lo ≤ other → other ≤ seq → other ≤ first)
      (nearestLast : ∀ other ∈ reassembler.lasts, seq ≤ other → other ≤ hi → last ≤ other)
      (long : reassembler.maxFragments ≤ last - first) (left : Reassembler) (linked : left.Linked)
      (leaves : Leaves (outside first last) reassembler left) :
      Settles reassembler seq lo hi none left
  | dropsHeadless (last : Nat) (isLast : last ∈ reassembler.lasts) (after : seq ≤ last)
      (high : last ≤ hi)
      (nearestLast : ∀ other ∈ reassembler.lasts, seq ≤ other → other ≤ hi → last ≤ other)
      (headless : ∀ first ∈ reassembler.firsts, lo ≤ first → ¬ first ≤ seq)
      (long : reassembler.maxFragments ≤ last + 1 - lo) (left : Reassembler) (linked : left.Linked)
      (leaves : Leaves (outside lo last) reassembler left) : Settles reassembler seq lo hi none left
  | takes (first last : Nat) (isFirst : first ∈ reassembler.firsts)
      (isLast : last ∈ reassembler.lasts) (low : lo ≤ first) (before : first ≤ seq)
      (after : seq ≤ last) (high : last ≤ hi)
      (nearestFirst : ∀ other ∈ reassembler.firsts, lo ≤ other → other ≤ seq → other ≤ first)
      (nearestLast : ∀ other ∈ reassembler.lasts, seq ≤ other → other ≤ hi → last ≤ other)
      (short : last - first < reassembler.maxFragments) (left : Reassembler) (linked : left.Linked)
      (leaves : Leaves (outside first last) reassembler left) :
      Settles reassembler seq lo hi (toUnit first last (reassembler.runOf first last)) left

theorem subU32_of_le {left right : Nat} (le : right ≤ left) :
    subU32 left right = some (left - right) := if_pos le

theorem Linked.dropUnfinishable_spec (linked : reassembler.Linked)
    (fits : 0 < reassembler.maxFragments) {seq lo hi : Nat}
    (run : MaximalRun reassembler.fragments.keys lo hi) (low : lo ≤ seq) (high : seq ≤ hi)
    (unended : ∀ last ∈ reassembler.lasts, seq ≤ last → ¬ last ≤ hi) :
    ∃ after, reassembler.dropUnfinishable lo hi = some after ∧
      Settles reassembler seq lo hi none after := by
  have bound : hi ≤ u32Max := linked.bounded hi (run.full hi run.le le_rfl)
  have found : ∃ start, reassembler.afterLast lo hi = some start ∧ lo ≤ start ∧ start ≤ seq ∧
      ∀ last ∈ reassembler.lasts, start ≤ last → ¬ last ≤ hi := by
    unfold afterLast
    cases greatest : greatestIn reassembler.lasts lo hi with
    | none => exact ⟨lo, rfl, le_rfl, low, greatestIn_eq_none.mp greatest⟩
    | some last =>
      obtain ⟨⟨isLast, above, below⟩, nearest⟩ := greatestIn_eq_some.mp greatest
      have early : last < seq := by
        by_contra late
        exact unended last isLast (by omega) below
      refine ⟨last + 1, if_pos (by omega), by omega, early, fun other isLast' later below' => ?_⟩
      have earlier := nearest other isLast' (by omega) below'
      omega
  obtain ⟨start, starts, above, early, after⟩ := found
  unfold dropUnfinishable
  have one : 1 ≤ reassembler.maxFragments := fits
  simp only [Option.bind_eq_bind, starts, Option.bind_some, subU32_of_le (early.trans high),
    subU32_of_le one]
  by_cases long : reassembler.maxFragments - 1 ≤ hi - start
  · rw [if_pos long, subU32_of_le (long.trans (Nat.sub_le _ _)), Option.bind_some]
    have last : hi - (reassembler.maxFragments - 1) = hi + 1 - reassembler.maxFragments := by omega
    rw [last]
    obtain ⟨left, drops, linked', leaves⟩ :=
      linked.dropRun_spec run above (show start ≤ hi + 1 - reassembler.maxFragments by omega)
        (by omega)
    exact ⟨left, drops, .dropsTail start above unended after (by omega) left linked' leaves⟩
  · rw [if_neg long]
    exact ⟨reassembler, rfl, .waitsForLast unended⟩

theorem Linked.settle_spec (linked : reassembler.Linked) (fits : 0 < reassembler.maxFragments)
    {seq lo hi : Nat} (run : MaximalRun reassembler.fragments.keys lo hi) (low : lo ≤ seq)
    (high : seq ≤ hi) :
    ∃ result after, reassembler.settle seq = some (result, after) ∧
      Settles reassembler seq lo hi result after := by
  unfold settle
  rw [linked.spanOf_eq_some.mpr ⟨run, low, high⟩]
  dsimp only
  cases nextLast : leastIn reassembler.lasts seq hi with
  | none =>
    obtain ⟨after, drops, settles⟩ :=
      linked.dropUnfinishable_spec fits run low high (leastIn_eq_none.mp nextLast)
    exact ⟨none, after, congrArg (Option.map _) drops, settles⟩
  | some last =>
    obtain ⟨⟨isLast, after, below⟩, nearestLast⟩ := leastIn_eq_some.mp nextLast
    cases previousFirst : greatestIn reassembler.firsts lo seq with
    | none =>
      have headless := greatestIn_eq_none.mp previousFirst
      have one : 1 ≤ reassembler.maxFragments := fits
      simp only [Option.bind_eq_bind, subU32_of_le (low.trans after), subU32_of_le one,
        Option.bind_some]
      by_cases long : reassembler.maxFragments - 1 ≤ last - lo
      · rw [if_pos long]
        obtain ⟨left, drops, linked', leaves⟩ :=
          linked.dropRun_spec run le_rfl (low.trans after) below
        exact ⟨none, left, congrArg (Option.map _) drops, .dropsHeadless last isLast after below
          nearestLast headless (by omega) left linked' leaves⟩
      · rw [if_neg long]
        exact ⟨none, reassembler, rfl, .waitsForFirst headless⟩
    | some first =>
      obtain ⟨⟨isFirst, above, before⟩, nearestFirst⟩ := greatestIn_eq_some.mp previousFirst
      simp only [Option.bind_eq_bind, subU32_of_le (before.trans after), Option.bind_some]
      by_cases short : last - first < reassembler.maxFragments
      · rw [if_pos short]
        obtain ⟨left, takes, linked', leaves⟩ :=
          linked.takeUnit_spec run above (before.trans after) below
        exact ⟨_, left, takes, .takes first last isFirst isLast above before after below
          nearestFirst nearestLast short left linked' leaves⟩
      · rw [if_neg short]
        obtain ⟨left, drops, linked', leaves⟩ :=
          linked.dropRun_spec run above (before.trans after) below
        exact ⟨none, left, congrArg (Option.map _) drops, .dropsLong first last isFirst isLast above
          before after below nearestFirst nearestLast (by omega) left linked' leaves⟩

/-! ### Runs between a FIRST and a LAST -/

/-- Every sequence from `first` to `last` is buffered. -/
def Joined (reassembler : Reassembler) (first last : Nat) : Prop :=
  ∀ seq, first ≤ seq → seq ≤ last → seq ∈ reassembler.fragments.keys

theorem Joined.within_run {first last lo hi seq : Nat} (joined : reassembler.Joined first last)
    (run : MaximalRun reassembler.fragments.keys lo hi) (low : lo ≤ seq) (high : seq ≤ hi)
    (before : first ≤ seq) (after : seq ≤ last) : lo ≤ first ∧ last ≤ hi := by
  constructor
  · by_contra early
    exact run.starts (lo - 1) (by omega) (joined _ (by omega) (by omega))
  · by_contra late
    exact run.ends (joined _ (by omega) (by omega))

theorem Linked.apart_iff (linked : reassembler.Linked) :
    reassembler.Apart ↔ ∀ first ∈ reassembler.firsts, ∀ last ∈ reassembler.lasts, first ≤ last →
      ¬ reassembler.Joined first last := by
  constructor
  · intro apart first isFirst last isLast ordered joined
    obtain ⟨lo, hi, run, low, high⟩ := MaximalRun.exists_of_mem (joined first le_rfl ordered)
    have within := joined.within_run run low high le_rfl ordered
    exact apart lo hi ((linked.spans lo hi).mpr run) first isFirst last isLast low ordered within.2
  · intro apart lo hi stored first isFirst last isLast low ordered high
    have run := (linked.spans lo hi).mp stored
    exact apart first isFirst last isLast ordered fun seq above below =>
      run.full seq (by omega) (by omega)

section Leaves

variable {keep : Nat → Bool} {before after : Reassembler}

theorem Leaves.mem_keys (leaves : Leaves keep before after) (seq : Nat) :
    seq ∈ after.fragments.keys ↔ seq ∈ before.fragments.keys ∧ keep seq = true := by
  rw [leaves.fragments, Map.mem_keys_retain]

theorem Leaves.lookup (leaves : Leaves keep before after) {seq : Nat}
    {piece : Flags × List UInt8} (found : after.fragments.lookup seq = some piece) :
    before.fragments.lookup seq = some piece := by
  rw [leaves.fragments, Map.lookup_retain] at found
  exact (Option.filter_eq_some_iff.mp found).1

theorem Leaves.joined (leaves : Leaves keep before after) {first last : Nat}
    (joined : after.Joined first last) : before.Joined first last := fun seq above below =>
  ((leaves.mem_keys seq).mp (joined seq above below)).1

theorem Leaves.marks (leaves : Leaves keep before after) {flag : Flags} {set set' : Finset Nat}
    (marks : Marks flag before.fragments set) (marks' : Marks flag after.fragments set') {seq : Nat}
    (member : seq ∈ set') : seq ∈ set := by
  obtain ⟨piece, found, flagged⟩ := (marks' seq).mp member
  exact (marks seq).mpr ⟨piece, leaves.lookup found, flagged⟩

theorem Leaves.card_le (leaves : Leaves keep before after) :
    after.fragments.keys.card ≤ before.fragments.keys.card :=
  Finset.card_le_card fun seq member => ((leaves.mem_keys seq).mp member).1

theorem Leaves.apart (leaves : Leaves keep before after) (linked : before.Linked)
    (linked' : after.Linked) (apart : before.Apart) : after.Apart := by
  rw [linked.apart_iff] at apart
  rw [linked'.apart_iff]
  intro first isFirst last isLast ordered joined
  exact apart first (leaves.marks linked.firsts linked'.firsts isFirst) last
    (leaves.marks linked.lasts linked'.lasts isLast) ordered (leaves.joined joined)

end Leaves

theorem leaves_all (reassembler : Reassembler) :
    Leaves (fun _ => true) reassembler reassembler where
  fragments := by
    refine Finmap.ext_lookup fun seq => ?_
    rw [Map.lookup_retain]
    cases reassembler.fragments.lookup seq <;> rfl
  maxFragments := rfl
  maxBuffered := rfl

/-- A FIRST and a LAST that are joined are so through `seq`. -/
def JoinedThrough (reassembler : Reassembler) (seq : Nat) : Prop :=
  ∀ first ∈ reassembler.firsts, ∀ last ∈ reassembler.lasts, first ≤ last →
    reassembler.Joined first last → first ≤ seq ∧ seq ≤ last

/-- Between the FIRST and the LAST nearest to `seq` there is no other. -/
theorem JoinedThrough.alone {seq lo hi first last : Nat} (through : reassembler.JoinedThrough seq)
    (run : MaximalRun reassembler.fragments.keys lo hi) (isFirst : first ∈ reassembler.firsts)
    (isLast : last ∈ reassembler.lasts) (low : lo ≤ first) (high : last ≤ hi)
    (nearestFirst : ∀ other ∈ reassembler.firsts, lo ≤ other → other ≤ seq → other ≤ first)
    (nearestLast : ∀ other ∈ reassembler.lasts, seq ≤ other → other ≤ hi → last ≤ other) :
    (∀ other ∈ reassembler.firsts, first ≤ other → other ≤ last → other = first) ∧
      ∀ other ∈ reassembler.lasts, first ≤ other → other ≤ last → other = last := by
  have buffered : ∀ other, first ≤ other → other ≤ last → other ∈ reassembler.fragments.keys :=
    fun other above below => run.full other (low.trans above) (below.trans high)
  constructor
  · intro other isFirst' above below
    have early := (through other isFirst' last isLast below fun key above' =>
      buffered key (above.trans above')).1
    exact le_antisymm (nearestFirst other isFirst' (low.trans above) early) above
  · intro other isLast' above below
    have late := (through first isFirst other isLast' above fun key above' below' =>
      buffered key above' (below'.trans below)).2
    exact le_antisymm below (nearestLast other isLast' late (below.trans high))

theorem Settles.leaves {seq lo hi : Nat} {result : Option AccessUnit} {after : Reassembler}
    (settles : Settles reassembler seq lo hi result after) :
    ∃ keep, Leaves keep reassembler after := by
  cases settles with
  | waitsForLast => exact ⟨_, leaves_all reassembler⟩
  | waitsForFirst => exact ⟨_, leaves_all reassembler⟩
  | dropsTail start low unended after' long left linked leaves => exact ⟨_, leaves⟩
  | dropsLong first last isFirst isLast low before after' high nearest nearest' long left linked
      leaves => exact ⟨_, leaves⟩
  | dropsHeadless last isLast after' high nearest headless long left linked leaves =>
    exact ⟨_, leaves⟩
  | takes first last isFirst isLast low before after' high nearest nearest' short left linked
      leaves => exact ⟨_, leaves⟩

theorem Settles.linked {seq lo hi : Nat} {result : Option AccessUnit} {after : Reassembler}
    (settles : Settles reassembler seq lo hi result after) (linked : reassembler.Linked) :
    after.Linked := by
  cases settles with
  | waitsForLast => exact linked
  | waitsForFirst => exact linked
  | dropsTail start low unended after' long left linked' => exact linked'
  | dropsLong first last isFirst isLast low before after' high nearest nearest' long left linked' =>
    exact linked'
  | dropsHeadless last isLast after' high nearest headless long left linked' => exact linked'
  | takes first last isFirst isLast low before after' high nearest nearest' short left linked' =>
    exact linked'

/-- Once the fragment is settled, no FIRST is joined with a LAST any more. -/
theorem Settles.apart {seq lo hi : Nat} {result : Option AccessUnit} {after : Reassembler}
    (settles : Settles reassembler seq lo hi result after) (linked : reassembler.Linked)
    (run : MaximalRun reassembler.fragments.keys lo hi) (low : lo ≤ seq) (high : seq ≤ hi)
    (through : reassembler.JoinedThrough seq) : after.Apart := by
  rw [(settles.linked linked).apart_iff]
  intro first isFirst last isLast ordered joined
  obtain ⟨keep, leaves⟩ := settles.leaves
  have isFirst := leaves.marks linked.firsts (settles.linked linked).firsts isFirst
  have isLast := leaves.marks linked.lasts (settles.linked linked).lasts isLast
  have joined' := leaves.joined joined
  obtain ⟨before, beyond⟩ := through first isFirst last isLast ordered joined'
  have within := joined'.within_run run low high before beyond
  have buffered := joined seq before beyond
  cases settles with
  | waitsForLast unended => exact unended last isLast beyond within.2
  | waitsForFirst headless => exact headless first isFirst within.1 before
  | dropsTail start low' unended => exact unended last isLast beyond within.2
  | dropsLong first' last' isFirst' isLast' low' before' after' high' nearest nearest' long left
      linked' leaves =>
    exact outside_iff.mp ((leaves.mem_keys seq).mp buffered).2 ⟨before', after'⟩
  | dropsHeadless last' isLast' after' high' nearest headless =>
    exact headless first isFirst within.1 before
  | takes first' last' isFirst' isLast' low' before' after' high' nearest nearest' short left
      linked' leaves =>
    exact outside_iff.mp ((leaves.mem_keys seq).mp buffered).2 ⟨before', after'⟩

/-! ### Pushing -/

theorem lookup_insert (reassembler : Reassembler) (seq : Nat) (flags : Flags)
    (plaintext : List UInt8) (other : Nat) :
    (reassembler.insert seq flags plaintext).fragments.lookup other =
      if other = seq then some (flags, plaintext) else reassembler.fragments.lookup other := by
  rw [← Map.lookup_insert_ite]
  unfold Reassembler.insert
  dsimp only
  split <;> rfl

theorem keys_insert (reassembler : Reassembler) (seq : Nat) (flags : Flags)
    (plaintext : List UInt8) :
    (reassembler.insert seq flags plaintext).fragments.keys =
      Insert.insert seq reassembler.fragments.keys := by
  ext other
  rw [Map.mem_keys_iff, lookup_insert, Finset.mem_insert, Map.mem_keys_iff]
  by_cases same : other = seq
  · simp [same]
  · simp [same]

theorem insert_limits (reassembler : Reassembler) (seq : Nat) (flags : Flags)
    (plaintext : List UInt8) :
    (reassembler.insert seq flags plaintext).maxFragments = reassembler.maxFragments ∧
      (reassembler.insert seq flags plaintext).maxBuffered = reassembler.maxBuffered := by
  unfold Reassembler.insert
  dsimp only
  split
  · exact ⟨rfl, rfl⟩
  · exact ⟨rfl, rfl⟩

theorem Linked.through_insert (linked : reassembler.Linked) (apart : reassembler.Apart) {seq : Nat}
    (bound : seq ≤ u32Max) (flags : Flags) (plaintext : List UInt8) :
    (reassembler.insert seq flags plaintext).JoinedThrough seq := by
  have linked' := linked.insert bound flags plaintext
  rw [linked.apart_iff] at apart
  intro first isFirst last isLast ordered joined
  by_contra around
  have elsewhere : ∀ other, first ≤ other → other ≤ last → other ≠ seq := by omega
  have old : ∀ other, first ≤ other → other ≤ last →
      (reassembler.insert seq flags plaintext).fragments.lookup other =
        reassembler.fragments.lookup other := by
    intro other above below
    rw [lookup_insert, if_neg (elsewhere other above below)]
  refine apart first ?_ last ?_ ordered fun other above below => ?_
  · rw [linked.firsts, ← old first le_rfl ordered]
    exact (linked'.firsts first).mp isFirst
  · rw [linked.lasts, ← old last ordered le_rfl]
    exact (linked'.lasts last).mp isLast
  · rw [Map.mem_keys_iff, ← old other above below]
    exact (Map.mem_keys_iff _ _).mp (joined other above below)

theorem head?_ascending {keys : Finset Nat} {least : Nat}
    (found : (ascending keys).head? = some least) : least ∈ keys :=
  (mem_ascending keys least).mp (List.mem_of_head? found)

/-- Room is made for the fragment, if it needs any. -/
theorem Sound.evict_spec (sound : reassembler.Sound) (seq : Nat) :
    ∃ roomy keep, reassembler.evict seq = some roomy ∧ roomy.Linked ∧
      Leaves keep reassembler roomy ∧
      (Insert.insert seq roomy.fragments.keys).card ≤ reassembler.maxBuffered ∧
      (reassembler.fragments.keys.card < reassembler.maxBuffered → roomy = reassembler) := by
  unfold evict
  by_cases full : reassembler.maxBuffered ≤ reassembler.fragments.keys.card ∧
      seq ∉ reassembler.fragments
  · rw [if_pos full]
    cases oldest : (ascending reassembler.fragments.keys).head? with
    | none =>
      have empty := congrArg List.length (List.head?_eq_none_iff.mp oldest)
      rw [length_ascending] at empty
      have none : reassembler.fragments.keys.card = 0 := empty
      have room := sound.room
      omega
    | some least =>
      have member := head?_ascending oldest
      obtain ⟨lo, hi, run, low, high⟩ := MaximalRun.exists_of_mem member
      obtain ⟨roomy, drops, linked, leaves⟩ :=
        sound.toLinked.dropRun_spec run low le_rfl high
      refine ⟨roomy, _, drops, linked, leaves, ?_, fun room => absurd room (by omega)⟩
      have fewer : roomy.fragments.keys.card < reassembler.fragments.keys.card := by
        refine Finset.card_lt_card ⟨fun other there => ((leaves.mem_keys other).mp there).1, ?_⟩
        intro all
        exact outside_iff.mp ((leaves.mem_keys least).mp (all member)).2 ⟨le_rfl, le_rfl⟩
      have limit := sound.limit
      have atMost := Finset.card_insert_le seq roomy.fragments.keys
      omega
  · rw [if_neg full]
    refine ⟨reassembler, _, rfl, sound.toLinked, leaves_all reassembler, ?_, fun _ => rfl⟩
    by_cases known : seq ∈ reassembler.fragments.keys
    · rw [Finset.insert_eq_self.mpr known]
      exact sound.limit
    · have room : reassembler.fragments.keys.card < reassembler.maxBuffered := by
        by_contra none
        exact full ⟨Nat.le_of_not_lt none, fun there => known (Finmap.mem_keys.mpr there)⟩
      exact (Finset.card_insert_le _ _).trans room

/-- A push makes room, buffers the fragment and settles what it decides. -/
theorem Sound.push_spec (sound : reassembler.Sound) {seq : Nat} (bound : seq ≤ u32Max)
    (flags : Flags) (plaintext : List UInt8) :
    ∃ roomy keep lo hi result after,
      reassembler.push seq flags plaintext = some (result, after) ∧ Leaves keep reassembler roomy ∧
        (reassembler.fragments.keys.card < reassembler.maxBuffered → roomy = reassembler) ∧
        (roomy.insert seq flags plaintext).Linked ∧
        (roomy.insert seq flags plaintext).JoinedThrough seq ∧
        MaximalRun (roomy.insert seq flags plaintext).fragments.keys lo hi ∧ lo ≤ seq ∧ seq ≤ hi ∧
        Settles (roomy.insert seq flags plaintext) seq lo hi result after ∧ after.Sound ∧
        after.maxFragments = reassembler.maxFragments ∧
        after.maxBuffered = reassembler.maxBuffered := by
  obtain ⟨roomy, keep, evicts, linked, leaves, room, same⟩ := sound.evict_spec seq
  have linked' := linked.insert bound flags plaintext
  have through := linked.through_insert (leaves.apart sound.toLinked linked sound.apart) bound flags
    plaintext
  have limits := roomy.insert_limits seq flags plaintext
  have keys := roomy.keys_insert seq flags plaintext
  have member : seq ∈ (roomy.insert seq flags plaintext).fragments.keys := by
    rw [keys]
    exact Finset.mem_insert_self _ _
  obtain ⟨lo, hi, run, low, high⟩ := MaximalRun.exists_of_mem member
  have fits : 0 < (roomy.insert seq flags plaintext).maxFragments := by
    rw [limits.1, leaves.maxFragments]
    exact sound.fits
  obtain ⟨result, after, settle, settles⟩ := linked'.settle_spec fits run low high
  obtain ⟨keep', leaves'⟩ := settles.leaves
  have maxFragments : after.maxFragments = reassembler.maxFragments := by
    rw [leaves'.maxFragments, limits.1, leaves.maxFragments]
  have maxBuffered : after.maxBuffered = reassembler.maxBuffered := by
    rw [leaves'.maxBuffered, limits.2, leaves.maxBuffered]
  refine ⟨roomy, keep, lo, hi, result, after, ?_, leaves, same, linked', through, run, low, high,
    settles, ⟨settles.linked linked', settles.apart linked' run low high through, ?_, ?_, ?_⟩,
    maxFragments, maxBuffered⟩
  · unfold push
    rw [evicts]
    exact settle
  · rw [maxBuffered]
    have fewer := leaves'.card_le
    rw [keys] at fewer
    exact fewer.trans room
  · rw [maxBuffered]
    exact sound.room
  · rw [maxFragments]
    exact sound.fits

theorem Sound.forgetBefore (sound : reassembler.Sound) (seq : Nat) :
    (reassembler.forgetBefore seq).Sound := by
  have linked := sound.toLinked
  have leaves : Leaves (fun key => seq ≤ key) reassembler (reassembler.forgetBefore seq) :=
    ⟨rfl, rfl, rfl⟩
  have kept : ∀ key, key ∈ (reassembler.forgetBefore seq).fragments.keys ↔
      key ∈ reassembler.fragments.keys ∧ seq ≤ key := by
    intro key
    rw [leaves.mem_keys, decide_eq_true_iff]
  have linked' : (reassembler.forgetBefore seq).Linked := by
    constructor
    · intro lo hi
      rw [MaximalRun.from_iff kept, ← linked.spans]
      have cut : (reassembler.spans.retain fun lo _ => seq ≤ lo).lookup lo = some hi ↔
          reassembler.spans.lookup lo = some hi ∧ seq ≤ lo := by
        rw [Map.lookup_retain, Option.filter_eq_some_iff, decide_eq_true_iff]
      unfold Reassembler.forgetBefore
      dsimp only
      cases span : reassembler.spanOf seq with
      | none =>
        dsimp only
        rw [cut]
        refine ⟨.inl, ?_⟩
        rintro (found | ⟨rfl, start, short, reaches, run⟩)
        · exact found
        · exact absurd (run.full lo short.le reaches) (linked.spanOf_eq_none.mp span)
      | some ends =>
        obtain ⟨start, stop⟩ := ends
        obtain ⟨run, low, high⟩ := linked.spanOf_eq_some.mp span
        dsimp only
        by_cases straddles : start < seq
        · rw [if_pos straddles, Map.lookup_insert_ite]
          by_cases same : lo = seq
          · subst same
            rw [if_pos rfl, Option.some_inj]
            constructor
            · rintro rfl
              exact .inr ⟨rfl, start, straddles, high, run⟩
            · rintro (⟨stored, _⟩ | ⟨_, other, short, reaches, run'⟩)
              · have run' := (linked.spans lo hi).mp stored
                exact absurd (run.unique run' low high le_rfl run'.le).1 straddles.ne
              · exact (run.unique run' low high short.le reaches).2
          · rw [if_neg same, cut]
            refine ⟨.inl, ?_⟩
            rintro (found | ⟨isBound, _⟩)
            · exact found
            · exact absurd isBound same
        · rw [if_neg straddles, cut]
          refine ⟨.inl, ?_⟩
          rintro (found | ⟨rfl, other, short, reaches, run'⟩)
          · exact found
          · have same := (run.unique run' low high short.le reaches).1
            omega
    · exact linked.firsts.retain fun key => seq ≤ key
    · exact linked.lasts.retain fun key => seq ≤ key
    · exact fun key member => linked.bounded key ((kept key).mp member).1
  exact ⟨linked', leaves.apart linked linked' sound.apart, leaves.card_le.trans sound.limit,
    sound.room, sound.fits⟩

/-! ### What a unit is made of -/

/-- A unit is an unbroken run of pieces, no longer than `limit`, of which only the first is a
FIRST and only the last a LAST. -/
structure Spells (unit : AccessUnit)
    (pieces : Nat → Option (Flags × List UInt8)) (limit : Nat) : Prop where
  ordered : unit.firstSeq ≤ unit.lastSeq
  short : unit.lastSeq - unit.firstSeq < limit
  unbroken : ∀ seq, unit.firstSeq ≤ seq → seq ≤ unit.lastSeq → ∃ piece, pieces seq = some piece ∧
    (piece.1.contains .first = true ↔ seq = unit.firstSeq) ∧
    (piece.1.contains .last = true ↔ seq = unit.lastSeq)
  flags : (pieces unit.firstSeq).map (fun piece => piece.1 ||| .last) = some unit.flags
  bytes : bytesBe timestampBytes unit.timestamp.toNat ++ unit.data =
    ((List.range' unit.firstSeq (unit.lastSeq + 1 - unit.firstSeq)).filterMap pieces).flatMap
      Prod.snd

theorem Spells.mono {unit : AccessUnit} {pieces pieces' : Nat → Option (Flags × List UInt8)}
    {limit : Nat} (spells : Spells unit pieces limit)
    (known : ∀ seq piece, pieces seq = some piece → pieces' seq = some piece) :
    Spells unit pieces' limit := by
  have same : ∀ seq, unit.firstSeq ≤ seq → seq ≤ unit.lastSeq → pieces seq = pieces' seq := by
    intro seq above below
    obtain ⟨piece, found, _⟩ := spells.unbroken seq above below
    rw [found, known seq piece found]
  refine ⟨spells.ordered, spells.short, fun seq above below => ?_, ?_, ?_⟩
  · rw [← same seq above below]
    exact spells.unbroken seq above below
  · rw [← same _ le_rfl spells.ordered]
    exact spells.flags
  · rw [spells.bytes]
    refine congrArg (List.flatMap Prod.snd) (List.filterMap_congr fun seq member => ?_)
    obtain ⟨above, below⟩ := List.mem_range'_1.mp member
    have ordered := spells.ordered
    exact same seq above (by omega)

theorem toUnit_eq_some {first last : Nat} {pieces : List (Flags × List UInt8)} {unit : AccessUnit}
    (found : toUnit first last pieces = some unit) :
    ∃ piece rest, pieces = piece :: rest ∧ unit.firstSeq = first ∧ unit.lastSeq = last ∧
      unit.flags = piece.1 ||| .last ∧
      bytesBe timestampBytes unit.timestamp.toNat ++ unit.data = pieces.flatMap Prod.snd := by
  cases pieces with
  | nil => cases found
  | cons piece rest =>
    obtain ⟨flags, head⟩ := piece
    unfold toUnit at found
    dsimp only at found
    split at found
    · cases found
    · rename_i long
      cases found
      refine ⟨_, rest, rfl, rfl, rfl, rfl, ?_⟩
      have length : (head.take timestampBytes).length = timestampBytes := by
        rw [List.length_take]
        exact Nat.min_eq_left (Nat.le_of_not_lt long)
      have small : ofBytesBe (head.take timestampBytes) < 2 ^ 32 := by
        have lt := ofBytesBe_lt (head.take timestampBytes)
        rw [length] at lt
        exact lt
      have stamp : bytesBe timestampBytes
          (UInt32.ofNat (ofBytesBe (head.take timestampBytes))).toNat = head.take timestampBytes := by
        rw [UInt32.toNat_ofNat_of_lt' small]
        have spelled := bytesBe_ofBytesBe (head.take timestampBytes)
        rw [length] at spelled
        exact spelled
      dsimp only
      rw [stamp, ← List.append_assoc, List.take_append_drop]
      rfl

/-- A unit is taken out of the buffer only if it is whole. -/
theorem Settles.spells {seq lo hi : Nat} {result : Option AccessUnit} {after : Reassembler}
    (settles : Settles reassembler seq lo hi result after) (linked : reassembler.Linked)
    (run : MaximalRun reassembler.fragments.keys lo hi)
    (through : reassembler.JoinedThrough seq) {unit : AccessUnit} (emits : result = some unit) :
    Spells unit reassembler.fragments.lookup reassembler.maxFragments := by
  cases settles with
  | waitsForLast => cases emits
  | waitsForFirst => cases emits
  | dropsTail => cases emits
  | dropsLong => cases emits
  | dropsHeadless => cases emits
  | takes first last isFirst isLast low before beyond high nearestFirst nearestLast short left
      linked' leaves =>
    have ordered := before.trans beyond
    have buffered : ∀ other, first ≤ other → other ≤ last → other ∈ reassembler.fragments.keys :=
      fun other above below => run.full other (low.trans above) (below.trans high)
    obtain ⟨onlyFirst, onlyLast⟩ :=
      through.alone run isFirst isLast low high nearestFirst nearestLast
    obtain ⟨piece, rest, pieces, firstSeq, lastSeq, flags, bytes⟩ := toUnit_eq_some emits
    obtain ⟨head, found⟩ := (Map.mem_keys_iff _ _).mp (buffered first le_rfl ordered)
    have starts : piece = head := by
      unfold runOf at pieces
      rw [show last + 1 - first = last - first + 1 by omega, List.range'_succ,
        List.filterMap_cons, found] at pieces
      exact (List.cons.inj pieces).1.symm
    refine ⟨?_, ?_, fun other above below => ?_, ?_, ?_⟩
    · rw [firstSeq, lastSeq]
      exact ordered
    · rw [firstSeq, lastSeq]
      exact short
    · rw [firstSeq] at above
      rw [lastSeq] at below
      obtain ⟨there, stored⟩ := (Map.mem_keys_iff _ _).mp (buffered other above below)
      rw [firstSeq, lastSeq]
      have firstIff := linked.firsts other
      have lastIff := linked.lasts other
      simp only [stored, Option.some_inj, exists_eq_left'] at firstIff lastIff
      refine ⟨there, stored, ?_, ?_⟩
      · rw [← firstIff]
        constructor
        · exact fun isFirst' => onlyFirst other isFirst' above below
        · rintro rfl
          exact isFirst
      · rw [← lastIff]
        constructor
        · exact fun isLast' => onlyLast other isLast' above below
        · rintro rfl
          exact isLast
    · rw [firstSeq, found, flags, starts]
      rfl
    · rw [firstSeq, lastSeq]
      exact bytes

/-! ### Runs -/

/-- What is done to a reassembler, with any 32-bit sequences. -/
inductive Feed where
  | push (seq : UInt32) (flags : Flags) (plaintext : List UInt8)
  | forgetBefore (seq : UInt32)

/-- One step; `none` if its arithmetic would over- or underflow. -/
def feed (reassembler : Reassembler) : Feed → Option (Option AccessUnit × Reassembler)
  | .push seq flags plaintext => reassembler.push seq.toNat flags plaintext
  | .forgetBefore seq => some (none, reassembler.forgetBefore seq.toNat)

def feedAll (reassembler : Reassembler) : List Feed → Option Reassembler
  | [] => some reassembler
  | feed :: rest => (reassembler.feed feed).bind fun outcome => outcome.2.feedAll rest

/-- What was pushed last at a sequence. -/
def latest (feeds : List Feed) (seq : Nat) : Option (Flags × List UInt8) :=
  feeds.foldl
    (fun found feed => match feed with
      | .push other flags plaintext => if seq = other.toNat then some (flags, plaintext) else found
      | .forgetBefore _ => found)
    none

/-- Every buffered fragment is the one pushed last at its sequence. -/
def Follows (feeds : List Feed) (reassembler : Reassembler) : Prop :=
  ∀ seq piece, reassembler.fragments.lookup seq = some piece → latest feeds seq = some piece

theorem latest_concat_push (feeds : List Feed) (seq : UInt32) (flags : Flags)
    (plaintext : List UInt8) (other : Nat) :
    latest (feeds ++ [.push seq flags plaintext]) other =
      if other = seq.toNat then some (flags, plaintext) else latest feeds other := by
  unfold latest
  rw [List.foldl_append]
  rfl

theorem Sound.feed_spec (sound : reassembler.Sound) {feeds : List Feed}
    (follows : reassembler.Follows feeds) (feed : Feed) :
    ∃ result after, reassembler.feed feed = some (result, after) ∧ after.Sound ∧
      after.Follows (feeds ++ [feed]) ∧ after.maxFragments = reassembler.maxFragments ∧
      after.maxBuffered = reassembler.maxBuffered ∧
      ∀ unit, result = some unit →
        Spells unit (latest (feeds ++ [feed])) reassembler.maxFragments := by
  cases feed with
  | push seq flags plaintext =>
    have bound : seq.toNat ≤ u32Max := Nat.le_of_lt_succ seq.toNat_lt
    obtain ⟨roomy, keep, lo, hi, result, after, pushes, leaves, _, linked, through, run, _, _,
      settles, sound', maxFragments, maxBuffered⟩ := sound.push_spec bound flags plaintext
    have stored : ∀ other piece,
        (roomy.insert seq.toNat flags plaintext).fragments.lookup other = some piece →
          latest (feeds ++ [.push seq flags plaintext]) other = some piece := by
      intro other piece found
      rw [lookup_insert] at found
      rw [latest_concat_push]
      split at found
      · rename_i same
        rw [if_pos same]
        exact found
      · rename_i different
        rw [if_neg different]
        exact follows other piece (leaves.lookup found)
    obtain ⟨keep', leaves'⟩ := settles.leaves
    refine ⟨result, after, pushes, sound', fun other piece found => ?_, maxFragments, maxBuffered,
      fun unit emits => ?_⟩
    · exact stored other piece (leaves'.lookup found)
    · have spells := (settles.spells linked run through emits).mono stored
      rw [(roomy.insert_limits seq.toNat flags plaintext).1, leaves.maxFragments] at spells
      exact spells
  | forgetBefore seq =>
    refine ⟨none, _, rfl, sound.forgetBefore seq.toNat, fun other piece found => ?_, rfl, rfl,
      fun unit emits => by cases emits⟩
    have leaves : Leaves (fun key => seq.toNat ≤ key) reassembler
      (reassembler.forgetBefore seq.toNat) := ⟨rfl, rfl, rfl⟩
    have known := follows other piece (leaves.lookup found)
    unfold latest at known ⊢
    rw [List.foldl_append]
    exact known

theorem new_sound (maxFragments : Nat) : (new maxFragments).Sound := by
  refine ⟨⟨fun lo hi => ?_, fun seq => ?_, fun seq => ?_, fun seq member => ?_⟩, ?_, ?_, ?_, ?_⟩
  · constructor
    · intro found
      cases found
    · intro run
      cases run.full lo le_rfl run.le
  · simp [new]
  · simp [new]
  · cases member
  · intro lo hi found
    cases found
  · exact Nat.zero_le _
  · refine Nat.lt_min.mpr ⟨by decide, Nat.mul_pos ?_ (by decide)⟩
    exact lt_max_iff.mpr (.inr Nat.one_pos)
  · exact Nat.lt_min.mpr ⟨lt_max_iff.mpr (.inr Nat.one_pos), by decide⟩

theorem Sound.feedAll_spec (sound : reassembler.Sound) {earlier : List Feed}
    (follows : reassembler.Follows earlier) (feeds : List Feed) :
    ∃ after, reassembler.feedAll feeds = some after ∧ after.Sound ∧
      after.Follows (earlier ++ feeds) ∧ after.maxFragments = reassembler.maxFragments := by
  induction feeds generalizing reassembler earlier with
  | nil =>
    rw [List.append_nil]
    exact ⟨reassembler, rfl, sound, follows, rfl⟩
  | cons feed rest inductionHypothesis =>
    obtain ⟨result, next, feeds, sound', follows', same, _⟩ := sound.feed_spec follows feed
    obtain ⟨after, all, sound'', follows'', same'⟩ := inductionHypothesis sound' follows'
    refine ⟨after, ?_, sound'', ?_, same'.trans same⟩
    · rw [feedAll, feeds]
      exact all
    · rw [List.append_assoc] at follows''
      exact follows''

/-- Whatever is pushed and forgotten, a reassembler's arithmetic stays in range, its indexes agree
with its buffer, and the next step emits at most a whole unit of what was pushed last. -/
theorem run_sound (maxFragments : Nat) (feeds : List Feed) :
    ∃ reassembler, (new maxFragments).feedAll feeds = some reassembler ∧ reassembler.Sound ∧
      ∀ feed, ∃ result after, reassembler.feed feed = some (result, after) ∧ after.Sound ∧
        ∀ unit, result = some unit →
          Spells unit (latest (feeds ++ [feed])) (new maxFragments).maxFragments := by
  have empty : (new maxFragments).Follows [] := by
    intro seq piece found
    cases found
  obtain ⟨reassembler, all, sound, follows, same⟩ :=
    (new_sound maxFragments).feedAll_spec empty feeds
  refine ⟨reassembler, all, sound, fun feed => ?_⟩
  obtain ⟨result, after, feeds, sound', _, _, _, spells⟩ := sound.feed_spec follows feed
  rw [same] at spells
  exact ⟨result, after, feeds, sound', spells⟩

end Reassembler

end Throcc
