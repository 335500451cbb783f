/-
This file proves that units cut into fragments come out of a reassembler
whole, each once and nothing else, in whatever order the fragments of all of
them are pushed.
-/

import Throcc.Reassembly
import Mathlib.Order.Interval.Finset.Nat

namespace Throcc

namespace Stream

open Reassembler (toUnit Leaves outside outside_iff lookup_insert keys_insert Settles)

/-! ### A stream of units -/

/-- The pieces of a stream from `start` up to `stop` are those of units that lie side by side,
each no longer than `limit`. -/
structure Layout (limit start stop : Nat) (piece : Nat → Flags × List UInt8)
    (units : List AccessUnit) : Prop where
  covered : ∀ seq, start ≤ seq → seq < stop →
    ∃ unit ∈ units, unit.firstSeq ≤ seq ∧ seq ≤ unit.lastSeq
  within : ∀ unit ∈ units, start ≤ unit.firstSeq ∧ unit.firstSeq ≤ unit.lastSeq ∧
    unit.lastSeq < stop
  alone : ∀ unit ∈ units, ∀ other ∈ units, ∀ seq, unit.firstSeq ≤ seq → seq ≤ unit.lastSeq →
    other.firstSeq ≤ seq → seq ≤ other.lastSeq → unit = other
  distinct : units.Nodup
  isFirst : ∀ unit ∈ units, ∀ seq, unit.firstSeq ≤ seq → seq ≤ unit.lastSeq →
    ((piece seq).1.contains .first = true ↔ seq = unit.firstSeq)
  isLast : ∀ unit ∈ units, ∀ seq, unit.firstSeq ≤ seq → seq ≤ unit.lastSeq →
    ((piece seq).1.contains .last = true ↔ seq = unit.lastSeq)
  short : ∀ unit ∈ units, unit.lastSeq - unit.firstSeq < limit
  spelled : ∀ unit ∈ units, toUnit unit.firstSeq unit.lastSeq
    ((List.range' unit.firstSeq (unit.lastSeq + 1 - unit.firstSeq)).map piece) = some unit

variable {limit start stop : Nat} {piece : Nat → Flags × List UInt8} {units : List AccessUnit}

/-- All fragments of a unit are among those pushed. -/
def Whole (pushed : Finset Nat) (unit : AccessUnit) : Prop :=
  ∀ seq, unit.firstSeq ≤ seq → seq ≤ unit.lastSeq → seq ∈ pushed

instance (pushed : Finset Nat) (unit : AccessUnit) : Decidable (Whole pushed unit) :=
  decidable_of_iff (∀ seq ∈ Finset.Icc unit.firstSeq unit.lastSeq, seq ∈ pushed) <| by
    simp only [Finset.mem_Icc, and_imp]
    rfl

/-- The reassembler buffers the fragments pushed whose unit is not whole. -/
structure Buffers (piece : Nat → Flags × List UInt8) (units : List AccessUnit)
    (pushed : Finset Nat) (reassembler : Reassembler) : Prop where
  stored : ∀ seq found, reassembler.fragments.lookup seq = some found → found = piece seq
  mem_keys : ∀ seq, seq ∈ reassembler.fragments.keys ↔ seq ∈ pushed ∧
    ∀ unit ∈ units, unit.firstSeq ≤ seq → seq ≤ unit.lastSeq → ¬ Whole pushed unit

/-! ### Pushing one fragment of a stream -/

theorem whole_insert_of_outside {pushed : Finset Nat} {seq : Nat} {unit : AccessUnit}
    (outside : ¬ (unit.firstSeq ≤ seq ∧ seq ≤ unit.lastSeq)) :
    Whole (insert seq pushed) unit ↔ Whole pushed unit := by
  refine forall₃_congr fun other above below => ?_
  rw [Finset.mem_insert]
  constructor
  · rintro (rfl | member)
    · exact absurd ⟨above, below⟩ outside
    · exact member
  · exact .inr

theorem Whole.mono {pushed more : Finset Nat} (within : pushed ⊆ more) {unit : AccessUnit}
    (whole : Whole pushed unit) : Whole more unit := fun seq above below =>
  within (whole seq above below)

section Step

variable {reassembler : Reassembler} {pushed : Finset Nat} {seq : Nat} {unit : AccessUnit}

/-- The fragments of the unit being pushed that are buffered are those pushed. -/
theorem Buffers.mem_insert (layout : Layout limit start stop piece units)
    (buffers : Buffers piece units pushed reassembler) (fresh : seq ∉ pushed)
    (member : unit ∈ units) (low : unit.firstSeq ≤ seq) (high : seq ≤ unit.lastSeq) {other : Nat}
    (above : unit.firstSeq ≤ other) (below : other ≤ unit.lastSeq) :
    other ∈ insert seq reassembler.fragments.keys ↔ other ∈ insert seq pushed := by
  rw [Finset.mem_insert, Finset.mem_insert, buffers.mem_keys]
  refine or_congr_right ⟨And.left, fun there => ⟨there, fun unit' member' above' below' => ?_⟩⟩
  rw [layout.alone unit' member' unit member other above' below' above below]
  exact fun whole => fresh (whole seq low high)

theorem Buffers.keep (layout : Layout limit start stop piece units)
    (buffers : Buffers piece units pushed reassembler) (member : unit ∈ units)
    (low : unit.firstSeq ≤ seq) (high : seq ≤ unit.lastSeq)
    (partly : ¬ Whole (insert seq pushed) unit) :
    Buffers piece units (insert seq pushed)
      (reassembler.insert seq (piece seq).1 (piece seq).2) := by
  constructor
  · intro other found there
    rw [lookup_insert] at there
    split at there
    · rename_i same
      rw [same]
      exact (Option.some.inj there).symm
    · exact buffers.stored other found there
  · intro other
    rw [keys_insert, Finset.mem_insert, Finset.mem_insert, buffers.mem_keys]
    constructor
    · rintro (rfl | ⟨there, apart⟩)
      · refine ⟨.inl rfl, fun unit' member' above below => ?_⟩
        rw [layout.alone unit' member' unit member other above below low high]
        exact partly
      · refine ⟨.inr there, fun unit' member' above below => ?_⟩
        by_cases outside : unit'.firstSeq ≤ seq ∧ seq ≤ unit'.lastSeq
        · rw [layout.alone unit' member' unit member seq outside.1 outside.2 low high]
          exact partly
        · rw [whole_insert_of_outside outside]
          exact apart unit' member' above below
    · rintro ⟨rfl | there, apart⟩
      · exact .inl rfl
      · refine .inr ⟨there, fun unit' member' above below whole => ?_⟩
        exact apart unit' member' above below (whole.mono (Finset.subset_insert _ _))

theorem Buffers.take (layout : Layout limit start stop piece units)
    (buffers : Buffers piece units pushed reassembler) (member : unit ∈ units)
    (low : unit.firstSeq ≤ seq) (high : seq ≤ unit.lastSeq)
    (whole : Whole (insert seq pushed) unit) {after : Reassembler}
    (leaves : Leaves (outside unit.firstSeq unit.lastSeq)
      (reassembler.insert seq (piece seq).1 (piece seq).2) after) :
    Buffers piece units (insert seq pushed) after := by
  constructor
  · intro other found there
    have there := leaves.lookup there
    rw [lookup_insert] at there
    split at there
    · rename_i same
      rw [same]
      exact (Option.some.inj there).symm
    · exact buffers.stored other found there
  · intro other
    rw [leaves.mem_keys, outside_iff, keys_insert, Finset.mem_insert, Finset.mem_insert,
      buffers.mem_keys]
    constructor
    · rintro ⟨rfl | ⟨there, apart⟩, beyond⟩
      · exact absurd ⟨low, high⟩ beyond
      · refine ⟨.inr there, fun unit' member' above below => ?_⟩
        have different : ¬ (unit'.firstSeq ≤ seq ∧ seq ≤ unit'.lastSeq) := by
          intro within
          have same := layout.alone unit' member' unit member seq within.1 within.2 low high
          rw [same] at above below
          exact beyond ⟨above, below⟩
        rw [whole_insert_of_outside different]
        exact apart unit' member' above below
    · rintro ⟨there, apart⟩
      have beyond : ¬ (unit.firstSeq ≤ other ∧ other ≤ unit.lastSeq) := fun within =>
        apart unit member within.1 within.2 whole
      refine ⟨?_, beyond⟩
      obtain rfl | there := there
      · exact .inl rfl
      · refine .inr ⟨there, fun unit' member' above below whole' => ?_⟩
        exact apart unit' member' above below (whole'.mono (Finset.subset_insert _ _))

/-- Everything buffered while a fragment of the stream is pushed is a piece of the stream. -/
structure Extract (piece : Nat → Flags × List UInt8) (start stop : Nat)
    (reassembler : Reassembler) : Prop where
  lookup : ∀ seq ∈ reassembler.fragments.keys, reassembler.fragments.lookup seq = some (piece seq)
  within : ∀ seq ∈ reassembler.fragments.keys, start ≤ seq ∧ seq < stop

theorem Extract.mem_firsts (extract : Extract piece start stop reassembler)
    (linked : reassembler.Linked) :
    seq ∈ reassembler.firsts ↔
      seq ∈ reassembler.fragments.keys ∧ (piece seq).1.contains .first = true :=
  linked.firsts.mem_iff extract.lookup

theorem Extract.mem_lasts (extract : Extract piece start stop reassembler)
    (linked : reassembler.Linked) :
    seq ∈ reassembler.lasts ↔
      seq ∈ reassembler.fragments.keys ∧ (piece seq).1.contains .last = true :=
  linked.lasts.mem_iff extract.lookup

/-- The nearest FIRST at or before a fragment is its own unit's, if it is in the span. -/
theorem Layout.nearest_first (layout : Layout limit start stop piece units)
    (extract : Extract piece start stop reassembler) (linked : reassembler.Linked)
    (member : unit ∈ units) (low : unit.firstSeq ≤ seq) (high : seq ≤ unit.lastSeq)
    {lo hi first : Nat} (run : MaximalRun reassembler.fragments.keys lo hi) (reaches : seq ≤ hi)
    (isFirst : first ∈ reassembler.firsts) (above : lo ≤ first) (before : first ≤ seq)
    (nearest : ∀ other ∈ reassembler.firsts, lo ≤ other → other ≤ seq → other ≤ first) :
    first = unit.firstSeq := by
  obtain ⟨there, flagged⟩ := (extract.mem_firsts linked).mp isFirst
  have late : first ≤ unit.firstSeq := by
    by_contra inside
    have same := (layout.isFirst unit member first (by omega) (by omega)).mp flagged
    omega
  refine le_antisymm late (nearest _ ?_ (above.trans late) low)
  rw [extract.mem_firsts linked]
  refine ⟨run.full _ (above.trans late) (low.trans reaches), ?_⟩
  exact (layout.isFirst unit member _ le_rfl (low.trans high)).mpr rfl

/-- The nearest LAST at or after a fragment is its own unit's, if it is in the span. -/
theorem Layout.nearest_last (layout : Layout limit start stop piece units)
    (extract : Extract piece start stop reassembler) (linked : reassembler.Linked)
    (member : unit ∈ units) (low : unit.firstSeq ≤ seq) (high : seq ≤ unit.lastSeq)
    {lo hi last : Nat} (run : MaximalRun reassembler.fragments.keys lo hi) (reaches : lo ≤ seq)
    (isLast : last ∈ reassembler.lasts) (below : last ≤ hi) (beyond : seq ≤ last)
    (nearest : ∀ other ∈ reassembler.lasts, seq ≤ other → other ≤ hi → last ≤ other) :
    last = unit.lastSeq := by
  obtain ⟨there, flagged⟩ := (extract.mem_lasts linked).mp isLast
  have early : unit.lastSeq ≤ last := by
    by_contra inside
    have same := (layout.isLast unit member last (by omega) (by omega)).mp flagged
    omega
  refine le_antisymm (nearest _ ?_ high (early.trans below)) early
  rw [extract.mem_lasts linked]
  refine ⟨run.full _ (reaches.trans high) (early.trans below), ?_⟩
  exact (layout.isLast unit member _ (low.trans high) le_rfl).mpr rfl

theorem Layout.last_beyond (layout : Layout limit start stop piece units)
    (extract : Extract piece start stop reassembler) (linked : reassembler.Linked)
    (member : unit ∈ units) (low : unit.firstSeq ≤ seq) (high : seq ≤ unit.lastSeq) {lo hi : Nat}
    (run : MaximalRun reassembler.fragments.keys lo hi) (reaches : lo ≤ seq)
    (unended : ∀ last ∈ reassembler.lasts, seq ≤ last → ¬ last ≤ hi) : hi < unit.lastSeq := by
  by_contra within
  refine unended unit.lastSeq ((extract.mem_lasts linked).mpr ⟨?_, ?_⟩) high (by omega)
  · exact run.full _ (reaches.trans high) (by omega)
  · exact (layout.isLast unit member _ (low.trans high) le_rfl).mpr rfl

theorem Layout.first_before (layout : Layout limit start stop piece units)
    (extract : Extract piece start stop reassembler) (linked : reassembler.Linked)
    (member : unit ∈ units) (low : unit.firstSeq ≤ seq) (high : seq ≤ unit.lastSeq) {lo hi : Nat}
    (run : MaximalRun reassembler.fragments.keys lo hi) (reaches : seq ≤ hi)
    (headless : ∀ first ∈ reassembler.firsts, lo ≤ first → ¬ first ≤ seq) : unit.firstSeq < lo := by
  by_contra within
  refine headless unit.firstSeq ((extract.mem_firsts linked).mpr ⟨?_, ?_⟩) (by omega) low
  · exact run.full _ (by omega) (low.trans reaches)
  · exact (layout.isFirst unit member _ le_rfl (low.trans high)).mpr rfl

/-- A run without a LAST lies in one unit. -/
theorem Layout.first_le_of_unended (layout : Layout limit start stop piece units)
    (extract : Extract piece start stop reassembler) (linked : reassembler.Linked)
    (member : unit ∈ units) (low : unit.firstSeq ≤ seq) {lo hi first : Nat}
    (run : MaximalRun reassembler.fragments.keys lo hi) (reaches : seq ≤ hi) (above : lo ≤ first)
    (unended : ∀ last ∈ reassembler.lasts, first ≤ last → ¬ last ≤ hi) :
    unit.firstSeq ≤ first := by
  by_contra early
  have there := run.full (unit.firstSeq - 1) (by omega) (by omega)
  obtain ⟨begins, ends⟩ := extract.within _ there
  obtain ⟨before, member', above', below'⟩ := layout.covered _ begins ends
  have ordered := (layout.within unit member).2.1
  have stops : before.lastSeq = unit.firstSeq - 1 := by
    by_contra longer
    have same := layout.alone before member' unit member unit.firstSeq (by omega) (by omega) le_rfl
      ordered
    rw [same] at above'
    omega
  refine unended (unit.firstSeq - 1) ((extract.mem_lasts linked).mpr ⟨there, ?_⟩) (by omega)
    (by omega)
  exact (layout.isLast before member' _ above' below').mpr stops.symm

theorem Layout.runOf_eq (layout : Layout limit start stop piece units)
    (extract : Extract piece start stop reassembler) (member : unit ∈ units)
    (whole : Whole reassembler.fragments.keys unit) :
    toUnit unit.firstSeq unit.lastSeq (reassembler.runOf unit.firstSeq unit.lastSeq) =
      some unit := by
  have pieces : reassembler.runOf unit.firstSeq unit.lastSeq =
      (List.range' unit.firstSeq (unit.lastSeq + 1 - unit.firstSeq)).map piece := by
    rw [← List.filterMap_eq_map, Reassembler.runOf]
    refine List.filterMap_congr fun other inside => ?_
    obtain ⟨above, below⟩ := List.mem_range'_1.mp inside
    have ordered := (layout.within unit member).2.1
    exact extract.lookup other (whole other above (by omega))
  rw [pieces]
  exact layout.spelled unit member

/-- A fragment of a stream completes its unit, which is then taken out, or changes nothing. -/
theorem Layout.settles (layout : Layout limit start stop piece units)
    (extract : Extract piece start stop reassembler) (linked : reassembler.Linked)
    (fits : limit ≤ reassembler.maxFragments) (member : unit ∈ units)
    (low : unit.firstSeq ≤ seq) (high : seq ≤ unit.lastSeq) {lo hi : Nat}
    (run : MaximalRun reassembler.fragments.keys lo hi) (above : lo ≤ seq) (below : seq ≤ hi)
    {result : Option AccessUnit} {after : Reassembler}
    (settles : Settles reassembler seq lo hi result after) :
    Whole reassembler.fragments.keys unit ∧ result = some unit ∧
        Leaves (outside unit.firstSeq unit.lastSeq) reassembler after ∨
      ¬ Whole reassembler.fragments.keys unit ∧ result = none ∧ after = reassembler := by
  have short := layout.short unit member
  have endless : (∀ last ∈ reassembler.lasts, seq ≤ last → ¬ last ≤ hi) →
      hi < unit.lastSeq := layout.last_beyond extract linked member low high run above
  have beginless : (∀ first ∈ reassembler.firsts, lo ≤ first → ¬ first ≤ seq) →
      unit.firstSeq < lo := layout.first_before extract linked member low high run below
  cases settles with
  | waitsForLast unended =>
    have beyond := endless unended
    exact .inr ⟨fun whole => run.ends (whole _ (by omega) (by omega)), rfl, rfl⟩
  | waitsForFirst headless =>
    have before := beginless headless
    exact .inr ⟨fun whole => run.starts (lo - 1) (by omega) (whole _ (by omega) (by omega)), rfl,
      rfl⟩
  | dropsTail begin begins unended unended' long left linked' leaves =>
    have beyond := endless unended
    have inside := layout.first_le_of_unended extract linked member low run below begins unended'
    omega
  | dropsLong first last isFirst isLast low' before after' high' nearest nearest' long left linked'
      leaves =>
    have first' := layout.nearest_first extract linked member low high run below isFirst low' before
      nearest
    have last' := layout.nearest_last extract linked member low high run above isLast high' after'
      nearest'
    omega
  | dropsHeadless last isLast after' high' nearest headless long left linked' leaves =>
    have before := beginless headless
    have last' := layout.nearest_last extract linked member low high run above isLast high' after'
      nearest
    omega
  | takes first last isFirst isLast low' before after' high' nearest nearest' short' left linked'
      leaves =>
    have first' := layout.nearest_first extract linked member low high run below isFirst low' before
      nearest
    have last' := layout.nearest_last extract linked member low high run above isLast high' after'
      nearest'
    subst first' last'
    have whole : Whole reassembler.fragments.keys unit := fun other above' below' =>
      run.full other (low'.trans above') (below'.trans high')
    exact .inl ⟨whole, layout.runOf_eq extract member whole, leaves⟩

/-- Pushing a fragment of the stream emits its unit if that is whole now, and keeps the buffer to
the fragments whose units aren't. -/
theorem Layout.push_spec (layout : Layout limit start stop piece units)
    (sound : reassembler.Sound) (buffers : Buffers piece units pushed reassembler)
    (fits : limit ≤ reassembler.maxFragments)
    (room : reassembler.fragments.keys.card < reassembler.maxBuffered)
    (range : stop ≤ u32Max + 1) (inside : ∀ other ∈ insert seq pushed, start ≤ other ∧ other < stop)
    (fresh : seq ∉ pushed) (member : unit ∈ units) (low : unit.firstSeq ≤ seq)
    (high : seq ≤ unit.lastSeq) :
    ∃ after, reassembler.push seq (piece seq).1 (piece seq).2 =
        some (if Whole (insert seq pushed) unit then some unit else none, after) ∧ after.Sound ∧
      Buffers piece units (insert seq pushed) after ∧
      after.maxFragments = reassembler.maxFragments ∧
      after.maxBuffered = reassembler.maxBuffered := by
  have bound : seq ≤ u32Max := by
    have within := inside seq (Finset.mem_insert_self _ _)
    omega
  obtain ⟨roomy, keep, lo, hi, result, after, pushes, _, same, linked, _, run, above, below,
    settles, sound', maxFragments, maxBuffered⟩ := sound.push_spec bound (piece seq).1 (piece seq).2
  rw [same room] at linked run settles
  have keys := reassembler.keys_insert seq (piece seq).1 (piece seq).2
  have extract : Extract piece start stop
      (reassembler.insert seq (piece seq).1 (piece seq).2) := by
    constructor
    · intro other there
      obtain ⟨found, stored⟩ := (Map.mem_keys_iff _ _).mp there
      rw [stored, Option.some_inj]
      rw [lookup_insert] at stored
      split at stored
      · rename_i isSeq
        rw [isSeq]
        exact (Option.some.inj stored).symm
      · exact buffers.stored other found stored
    · intro other there
      rw [keys, Finset.mem_insert, buffers.mem_keys] at there
      exact inside other (Finset.mem_insert.mpr (there.imp_right And.left))
  have whole : Whole (reassembler.insert seq (piece seq).1 (piece seq).2).fragments.keys unit ↔
      Whole (insert seq pushed) unit := by
    refine forall₃_congr fun other above' below' => ?_
    rw [keys]
    exact buffers.mem_insert layout fresh member low high above' below'
  have limits := (reassembler.insert_limits seq (piece seq).1 (piece seq).2).1
  obtain ⟨complete, emits, leaves⟩ | ⟨partly, waits, kept⟩ :=
    layout.settles extract linked (by rw [limits]; exact fits) member low high run above below
      settles
  · rw [whole] at complete
    rw [if_pos complete, ← emits]
    exact ⟨after, pushes, sound', buffers.take layout member low high complete leaves, maxFragments,
      maxBuffered⟩
  · rw [whole] at partly
    rw [if_neg partly, ← waits]
    refine ⟨after, pushes, sound', ?_, maxFragments, maxBuffered⟩
    rw [kept]
    exact buffers.keep layout member low high partly

end Step

/-! ### Pushing all fragments of a stream -/

/-- A fragment adds its own unit to the whole ones, or none. -/
theorem Layout.whole_perm (layout : Layout limit start stop piece units) {pushed : Finset Nat}
    {seq : Nat} (fresh : seq ∉ pushed) {unit : AccessUnit} (member : unit ∈ units)
    (low : unit.firstSeq ≤ seq) (high : seq ≤ unit.lastSeq) :
    ((if Whole (insert seq pushed) unit then some unit else none).toList ++
        units.filter (Whole pushed ·)).Perm (units.filter (Whole (insert seq pushed) ·)) := by
  have partly : ¬ Whole pushed unit := fun whole => fresh (whole seq low high)
  have others : ∀ other ∈ units, other ≠ unit →
      (Whole (insert seq pushed) other ↔ Whole pushed other) := by
    intro other member' different
    refine whole_insert_of_outside fun within => different ?_
    exact layout.alone other member' unit member seq within.1 within.2 low high
  have distinct := layout.distinct
  split
  · rename_i whole
    have apart : (unit :: units.filter (Whole pushed ·)).Nodup := by
      refine List.nodup_cons.mpr ⟨fun there => partly ?_, distinct.filter _⟩
      exact of_decide_eq_true (List.mem_filter.mp there).2
    refine (List.perm_ext_iff_of_nodup apart (distinct.filter _)).mpr fun other => ?_
    simp only [List.mem_cons, List.mem_filter, decide_eq_true_eq]
    by_cases same : other = unit
    · subst same
      simp [member, whole]
    · simp only [same, false_or]
      exact and_congr_right fun member' => (others other member' same).symm
  · rename_i partly'
    have same : units.filter (Whole pushed ·) = units.filter (Whole (insert seq pushed) ·) := by
      refine List.filter_congr fun other member' => ?_
      by_cases isUnit : other = unit
      · rw [isUnit, decide_eq_false partly, decide_eq_false partly']
      · exact decide_eq_decide.mpr (others other member' isUnit).symm
    rw [same]
    exact .refl _

theorem Layout.pushAll_spec (layout : Layout limit start stop piece units)
    (range : stop ≤ u32Max + 1) {reassembler : Reassembler} {pushed : Finset Nat}
    (sound : reassembler.Sound) (buffers : Buffers piece units pushed reassembler)
    (fits : limit ≤ reassembler.maxFragments) (order : List Nat) (distinct : order.Nodup)
    (fresh : ∀ seq ∈ order, seq ∉ pushed) (room : pushed.card + order.length ≤ reassembler.maxBuffered)
    (inside : ∀ seq ∈ pushed ∪ order.toFinset, start ≤ seq ∧ seq < stop) :
    ∃ emitted after, reassembler.pushAll (order.map fun seq => (seq, piece seq)) =
        some (emitted, after) ∧ after.Sound ∧
      Buffers piece units (pushed ∪ order.toFinset) after ∧
      (emitted ++ units.filter (Whole pushed ·)).Perm
        (units.filter (Whole (pushed ∪ order.toFinset) ·)) := by
  induction order generalizing reassembler pushed with
  | nil =>
    rw [List.toFinset_nil, Finset.union_empty]
    exact ⟨[], reassembler, rfl, sound, buffers, .refl _⟩
  | cons seq rest inductionHypothesis =>
    have union : pushed ∪ (seq :: rest).toFinset = insert seq pushed ∪ rest.toFinset := by
      rw [List.toFinset_cons, Finset.union_insert, Finset.insert_union]
    rw [union] at inside ⊢
    have unpushed := fresh seq List.mem_cons_self
    obtain ⟨later, distinct⟩ := List.nodup_cons.mp distinct
    have within := inside seq (Finset.mem_union_left _ (Finset.mem_insert_self _ _))
    obtain ⟨unit, member, low, high⟩ := layout.covered seq within.1 within.2
    have few : reassembler.fragments.keys.card < reassembler.maxBuffered := by
      have atMost := Finset.card_le_card fun other there => ((buffers.mem_keys other).mp there).1
      rw [List.length_cons] at room
      omega
    obtain ⟨next, pushes, sound', buffers', maxFragments, maxBuffered⟩ :=
      layout.push_spec sound buffers fits few range
        (fun other there => inside other (Finset.mem_union_left _ there)) unpushed member low high
    have fresh' : ∀ other ∈ rest, other ∉ insert seq pushed := by
      intro other there
      rw [Finset.mem_insert, not_or]
      exact ⟨fun same => later (same ▸ there), fresh other (List.mem_cons_of_mem _ there)⟩
    have room' : (insert seq pushed).card + rest.length ≤ next.maxBuffered := by
      rw [Finset.card_insert_of_notMem unpushed, maxBuffered]
      rw [List.length_cons] at room
      omega
    obtain ⟨emitted, after, all, sound'', buffers'', units'⟩ :=
      inductionHypothesis sound' buffers' (maxFragments ▸ fits) distinct fresh' room' inside
    refine ⟨(if Whole (insert seq pushed) unit then some unit else none).toList ++ emitted, after,
      ?_, sound'', buffers'', ?_⟩
    · rw [List.map_cons, Reassembler.pushAll, pushes]
      show ((next.pushAll _).bind _) = _
      rw [all]
      rfl
    · have added := layout.whole_perm unpushed member low high
      refine (List.perm_append_comm.append_right _).trans ?_
      rw [List.append_assoc]
      exact (added.append_left _).trans units'

/-! ### Cutting units into a stream -/

theorem Layout.append {middle : Nat} {others : List AccessUnit} (from_ : start ≤ middle)
    (upTo : middle ≤ stop) (first : Layout limit start middle piece units)
    (second : Layout limit middle stop piece others) :
    Layout limit start stop piece (units ++ others) := by
  have apart : ∀ unit ∈ units, ∀ other ∈ others, unit.lastSeq < other.firstSeq :=
    fun unit member other member' =>
      (first.within unit member).2.2.trans_le (second.within other member').1
  constructor
  · intro seq above below
    obtain early | late := Nat.lt_or_ge seq middle
    · obtain ⟨unit, member, inside⟩ := first.covered seq above early
      exact ⟨unit, List.mem_append_left _ member, inside⟩
    · obtain ⟨unit, member, inside⟩ := second.covered seq late below
      exact ⟨unit, List.mem_append_right _ member, inside⟩
  · intro unit member
    obtain member | member := List.mem_append.mp member
    · obtain ⟨above, ordered, below⟩ := first.within unit member
      exact ⟨above, ordered, below.trans_le upTo⟩
    · obtain ⟨above, ordered, below⟩ := second.within unit member
      exact ⟨from_.trans above, ordered, below⟩
  · intro unit member other member' seq low high low' high'
    obtain member | member := List.mem_append.mp member
    · obtain member' | member' := List.mem_append.mp member'
      · exact first.alone unit member other member' seq low high low' high'
      · have far := apart unit member other member'
        omega
    · obtain member' | member' := List.mem_append.mp member'
      · have far := apart other member' unit member
        omega
      · exact second.alone unit member other member' seq low high low' high'
  · refine first.distinct.append second.distinct fun unit member member' => ?_
    have far := apart unit member unit member'
    have ordered := (first.within unit member).2.1
    omega
  · intro unit member
    obtain member | member := List.mem_append.mp member
    · exact first.isFirst unit member
    · exact second.isFirst unit member
  · intro unit member
    obtain member | member := List.mem_append.mp member
    · exact first.isLast unit member
    · exact second.isLast unit member
  · intro unit member
    obtain member | member := List.mem_append.mp member
    · exact first.short unit member
    · exact second.short unit member
  · intro unit member
    obtain member | member := List.mem_append.mp member
    · exact first.spelled unit member
    · exact second.spelled unit member

theorem Layout.nil : Layout limit start start piece [] where
  covered _ above below := absurd below (Nat.not_lt.mpr above)
  within _ member := absurd member List.not_mem_nil
  alone _ member := absurd member List.not_mem_nil
  distinct := List.nodup_nil
  isFirst _ member := absurd member List.not_mem_nil
  isLast _ member := absurd member List.not_mem_nil
  short _ member := absurd member List.not_mem_nil
  spelled _ member := absurd member List.not_mem_nil

end Stream

/-! ### Fragments -/

theorem fragmentRest_length_le (base : Flags) (left : List UInt8) (count : Nat)
    (fits : left.length ≤ count * bodyBytes) : (fragmentRest base left).length ≤ count := by
  induction count generalizing left with
  | zero =>
    rw [Nat.zero_mul] at fits
    rw [List.length_eq_zero_iff.mp (Nat.le_zero.mp fits), fragmentRest, if_pos rfl]
    exact le_rfl
  | succ count inductionHypothesis =>
    rw [fragmentRest]
    split
    · exact Nat.zero_le _
    · rw [List.length_cons]
      refine Nat.succ_le_succ (inductionHypothesis _ ?_)
      rw [List.length_drop]
      rw [Nat.succ_mul] at fits
      omega

theorem mem_fragmentRest {base : Flags} {left : List UInt8} {piece : Fragment}
    (member : piece ∈ fragmentRest base left) : piece.flags = base ∧ piece.timestamp = none := by
  induction left using fragmentRest.induct with
  | case1 =>
    rw [fragmentRest, if_pos rfl] at member
    cases member
  | case2 left some inductionHypothesis =>
    rw [fragmentRest, if_neg some] at member
    obtain rfl | member := List.mem_cons.mp member
    · exact ⟨rfl, rfl⟩
    · exact inductionHypothesis member

theorem bodies_fragmentRest (base : Flags) (left : List UInt8) :
    (fragmentRest base left).flatMap Fragment.body = left := by
  induction left using fragmentRest.induct with
  | case1 =>
    rw [fragmentRest, if_pos rfl]
    rfl
  | case2 left some inductionHypothesis =>
    rw [fragmentRest, if_neg some, List.flatMap_cons, inductionHypothesis]
    exact List.take_append_drop _ _

/-- The flags that all fragments of a unit have. -/
def baseFlags (keyframe : Bool) : Flags := Flags.with_ {} .keyframe keyframe

theorem fragment_shape (data : List UInt8) (timestamp : UInt32) (keyframe : Bool) :
    let base := baseFlags keyframe
    fragment data timestamp keyframe = [⟨base ||| .first ||| .last, some timestamp, data⟩] ∨
      ∃ head middle tail, fragment data timestamp keyframe =
          ⟨base ||| .first, some timestamp, head⟩ :: (middle ++ [⟨base ||| .last, none, tail⟩]) ∧
        (∀ piece ∈ middle, piece.flags = base ∧ piece.timestamp = none) ∧
        head ++ middle.flatMap Fragment.body ++ tail = data := by
  intro base
  let firstLen := min data.length (bodyBytes - timestampBytes)
  have bodies := bodies_fragmentRest base (data.drop firstLen)
  have members : ∀ piece ∈ fragmentRest base (data.drop firstLen),
      piece.flags = base ∧ piece.timestamp = none := fun piece => mem_fragmentRest
  have whole := List.take_append_drop firstLen data
  unfold fragment
  dsimp only
  rw [show Flags.with_ {} .keyframe keyframe = base from rfl,
    show min data.length (bodyBytes - timestampBytes) = firstLen from rfl]
  generalize fragmentRest base (data.drop firstLen) = rest at bodies members
  rw [← bodies] at whole
  obtain rfl | ⟨middle, tail, rfl⟩ := rest.eq_nil_or_concat'
  · left
    rw [List.flatMap_nil, List.append_nil] at whole
    rw [whole]
    rfl
  · right
    rw [← List.cons_append, List.modifyLast_concat, List.cons_append]
    obtain ⟨flags, stamp⟩ := members tail (List.mem_append_right _ (List.mem_singleton.mpr rfl))
    refine ⟨data.take firstLen, middle, tail.body, ?_, fun piece member => ?_, ?_⟩
    · rw [flags, stamp]
    · exact members piece (List.mem_append_left _ member)
    · rw [List.flatMap_append, ← List.append_assoc] at whole
      simpa using whole

theorem length_modifyLast {Item : Type} (change : Item → Item) (items : List Item) :
    (items.modifyLast change).length = items.length := by
  obtain rfl | ⟨before, last, rfl⟩ := items.eq_nil_or_concat'
  · rfl
  · rw [List.modifyLast_concat, List.length_append, List.length_append]
    rfl

theorem fragment_length_le {data : List UInt8} {limit : Nat} (positive : 0 < limit)
    (fits : data.length ≤ maxUnitBytes limit) (timestamp : UInt32) (keyframe : Bool) :
    (fragment data timestamp keyframe).length ≤ limit := by
  obtain ⟨limit, rfl⟩ := Nat.exists_eq_succ_of_ne_zero positive.ne'
  unfold fragment
  dsimp only
  rw [length_modifyLast, List.length_cons]
  refine Nat.succ_le_succ (fragmentRest_length_le _ _ _ ?_)
  rw [List.length_drop]
  unfold maxUnitBytes at fits
  rw [Nat.succ_mul] at fits
  have sizes : bodyBytes = 1133 ∧ timestampBytes = 4 := ⟨rfl, rfl⟩
  omega

/-- Only the first fragment is a FIRST and only the last is a LAST. -/
theorem fragment_flags (data : List UInt8) (timestamp : UInt32) (keyframe : Bool) {index : Nat}
    {piece : Fragment} (found : (fragment data timestamp keyframe)[index]? = some piece) :
    (piece.flags.contains .first = true ↔ index = 0) ∧
      (piece.flags.contains .last = true ↔ index + 1 = (fragment data timestamp keyframe).length) := by
  have bits : (baseFlags keyframe ||| .first ||| .last).contains .first = true ∧
      (baseFlags keyframe ||| .first ||| .last).contains .last = true ∧
      (baseFlags keyframe ||| .first).contains .first = true ∧
      (baseFlags keyframe ||| .first).contains .last = false ∧
      (baseFlags keyframe).contains .first = false ∧ (baseFlags keyframe).contains .last = false ∧
      (baseFlags keyframe ||| .last).contains .first = false ∧
      (baseFlags keyframe ||| .last).contains .last = true := by
    cases keyframe <;> decide
  obtain ⟨both, both', first, first', plain, plain', last, last'⟩ := bits
  obtain shape | ⟨head, middle, tail, shape, members, _⟩ :=
    fragment_shape data timestamp keyframe
  · rw [shape] at found ⊢
    cases index with
    | zero =>
      cases found
      simp [both, both']
    | succ index => cases found
  · rw [shape] at found ⊢
    cases index with
    | zero =>
      cases found
      simp [first, first']
    | succ index =>
      rw [List.getElem?_cons_succ] at found
      rw [List.length_cons, List.length_append, List.length_singleton]
      obtain early | late := Nat.lt_or_ge index middle.length
      · rw [List.getElem?_append_left early] at found
        rw [(members piece (List.mem_of_getElem? found)).1]
        simp only [plain, plain', Bool.false_eq_true, false_iff]
        omega
      · rw [List.getElem?_append_right late] at found
        have isTail := List.mem_singleton.mp (List.mem_of_getElem? found)
        have within := (List.getElem?_eq_some_iff.mp found).1
        rw [List.length_singleton] at within
        rw [isTail]
        simp only [last, last', Bool.false_eq_true, false_iff, true_iff]
        omega

/-- The fragments of a unit spell the unit. -/
theorem toUnit_fragment (data : List UInt8) (timestamp : UInt32) (keyframe : Bool)
    (first last : Nat) :
    Reassembler.toUnit first last ((fragment data timestamp keyframe).map fun piece =>
      (piece.flags, piece.plaintext)) =
      some ⟨first, last, timestamp, baseFlags keyframe ||| .first ||| .last, data⟩ := by
  have stamp : UInt32.ofNat (ofBytesBe (bytesBe timestampBytes timestamp.toNat)) = timestamp := by
    have small : timestamp.toNat < 256 ^ timestampBytes := timestamp.toNat_lt
    rw [ofBytesBe_bytesBe, Nat.mod_eq_of_lt small, UInt32.ofNat_toNat]
  have marked : baseFlags keyframe ||| .first ||| .last ||| .last =
      baseFlags keyframe ||| .first ||| .last := by
    cases keyframe <;> decide
  have head : ∀ body : List UInt8,
      (bytesBe timestampBytes timestamp.toNat ++ body).take timestampBytes =
          bytesBe timestampBytes timestamp.toNat ∧
        (bytesBe timestampBytes timestamp.toNat ++ body).drop timestampBytes = body ∧
        ¬ (bytesBe timestampBytes timestamp.toNat ++ body).length < timestampBytes := by
    intro body
    have length := length_bytesBe timestampBytes timestamp.toNat
    refine ⟨List.take_left' length, List.drop_left' length, ?_⟩
    rw [List.length_append, length]
    omega
  obtain shape | ⟨body, middle, tail, shape, members, bodies⟩ :=
    fragment_shape data timestamp keyframe
  · obtain ⟨taken, dropped, long⟩ := head data
    rw [shape]
    unfold Reassembler.toUnit Fragment.plaintext
    dsimp only [List.map, Option.elim]
    rw [if_neg long, taken, dropped, stamp, marked]
    simp
  · obtain ⟨taken, dropped, long⟩ := head body
    have plain : ∀ pieces : List Fragment, (∀ piece ∈ pieces, piece.timestamp = none) →
        (pieces.map fun piece => (piece.flags, piece.plaintext)).flatMap Prod.snd =
          pieces.flatMap Fragment.body := by
      intro pieces unstamped
      rw [List.flatMap_map]
      refine List.flatMap_congr fun piece member => ?_
      unfold Fragment.plaintext
      rw [unstamped piece member]
      rfl
    have rest := plain (middle ++ [⟨baseFlags keyframe ||| .last, none, tail⟩]) <| by
      intro piece member
      obtain member | same := List.mem_append.mp member
      · exact (members piece member).2
      · rw [List.mem_singleton.mp same]
    rw [shape, List.map_cons]
    unfold Reassembler.toUnit
    dsimp only
    rw [rest, show Fragment.plaintext ⟨baseFlags keyframe ||| .first, some timestamp, body⟩ =
      bytesBe timestampBytes timestamp.toNat ++ body from rfl, if_neg long, taken, dropped, stamp,
      List.flatMap_append, ← List.append_assoc]
    rw [← bodies]
    simp

/-! ### The round trip -/

/-- An access unit to send. -/
structure MediaUnit where
  data : List UInt8
  timestamp : UInt32
  keyframe : Bool

def MediaUnit.fragments (unit : MediaUnit) : List Fragment :=
  fragment unit.data unit.timestamp unit.keyframe

/-- The datagrams of units cut one after another, numbered from `start`. -/
def datagrams (start : Nat) (units : List MediaUnit) : List (Nat × Flags × List UInt8) :=
  ((units.flatMap MediaUnit.fragments).zipIdx start).map fun entry =>
    (entry.2, entry.1.flags, entry.1.plaintext)

/-- The units as they come out, whose first fragment has the sequence `start`. -/
def received : (start : Nat) → List MediaUnit → List AccessUnit
  | _, [] => []
  | start, unit :: rest =>
    { firstSeq := start
      lastSeq := start + unit.fragments.length - 1
      timestamp := unit.timestamp
      flags := baseFlags unit.keyframe ||| .first ||| .last
      data := unit.data } :: received (start + unit.fragments.length) rest

namespace Stream

variable {limit start : Nat} {piece : Nat → Flags × List UInt8}

theorem fragments_pos (unit : MediaUnit) : 0 < unit.fragments.length := by
  unfold MediaUnit.fragments fragment
  dsimp only
  rw [length_modifyLast]
  exact Nat.succ_pos _

theorem layout_single (unit : MediaUnit) (fits : unit.fragments.length ≤ limit)
    (agrees : ∀ index found, unit.fragments[index]? = some found →
      piece (start + index) = (found.flags, found.plaintext)) :
    Layout limit start (start + unit.fragments.length) piece
      [{ firstSeq := start
         lastSeq := start + unit.fragments.length - 1
         timestamp := unit.timestamp
         flags := baseFlags unit.keyframe ||| .first ||| .last
         data := unit.data }] := by
  have some := fragments_pos unit
  have flagged : ∀ seq, start ≤ seq → seq ≤ start + unit.fragments.length - 1 →
      ((piece seq).1.contains .first = true ↔ seq = start) ∧
        ((piece seq).1.contains .last = true ↔ seq = start + unit.fragments.length - 1) := by
    intro seq above below
    have within : seq - start < unit.fragments.length := by omega
    have found := List.getElem?_eq_getElem within
    obtain ⟨first, last⟩ := fragment_flags unit.data unit.timestamp unit.keyframe found
    have same := agrees (seq - start) _ found
    rw [Nat.add_sub_cancel' above] at same
    rw [same]
    refine ⟨first.trans ?_, last.trans ?_⟩
    · omega
    · show seq - start + 1 = unit.fragments.length ↔ _
      omega
  constructor
  · intro seq above below
    exact ⟨_, List.mem_singleton.mpr rfl, above, by dsimp only; omega⟩
  · intro other member
    rw [List.mem_singleton.mp member]
    dsimp only
    omega
  · intro other member other' member' seq _ _ _ _
    rw [List.mem_singleton.mp member, List.mem_singleton.mp member']
  · exact List.nodup_singleton _
  · intro other member seq above below
    rw [List.mem_singleton.mp member] at above below ⊢
    exact (flagged seq above below).1
  · intro other member seq above below
    rw [List.mem_singleton.mp member] at above below ⊢
    exact (flagged seq above below).2
  · intro other member
    rw [List.mem_singleton.mp member]
    dsimp only
    omega
  · intro other member
    rw [List.mem_singleton.mp member]
    dsimp only
    have length : start + unit.fragments.length - 1 + 1 - start = unit.fragments.length := by omega
    rw [length]
    have pieces : (List.range' start unit.fragments.length).map piece =
        unit.fragments.map fun found => (found.flags, found.plaintext) := by
      refine List.ext_getElem (by simp) fun index inside inside' => ?_
      rw [List.length_map] at inside'
      rw [List.getElem_map, List.getElem_map, List.getElem_range', Nat.one_mul]
      exact agrees index _ (List.getElem?_eq_getElem inside')
    rw [pieces]
    exact toUnit_fragment unit.data unit.timestamp unit.keyframe _ _

theorem layout_received (units : List MediaUnit)
    (fits : ∀ unit ∈ units, unit.fragments.length ≤ limit)
    (agrees : ∀ index found, (units.flatMap MediaUnit.fragments)[index]? = some found →
      piece (start + index) = (found.flags, found.plaintext)) :
    Layout limit start (start + (units.flatMap MediaUnit.fragments).length) piece
      (received start units) := by
  induction units generalizing start with
  | nil => exact .nil
  | cons unit rest inductionHypothesis =>
    rw [List.flatMap_cons] at agrees ⊢
    rw [List.length_append, ← Nat.add_assoc]
    have single := layout_single unit (fits unit List.mem_cons_self) fun index found there =>
      agrees index found <| by
        rw [List.getElem?_append_left (List.getElem?_eq_some_iff.mp there).1]
        exact there
    refine single.append (Nat.le_add_right _ _) (Nat.le_add_right _ _) (inductionHypothesis ?_ ?_)
    · exact fun other member => fits other (List.mem_cons_of_mem _ member)
    · intro index found there
      rw [Nat.add_assoc]
      refine agrees _ found ?_
      rw [List.getElem?_append_right (Nat.le_add_right _ _), Nat.add_sub_cancel_left]
      exact there

end Stream

namespace Reassembler

/-- The piece of a stream at a sequence. -/
def pieceAt (start : Nat) (units : List MediaUnit) (seq : Nat) : Flags × List UInt8 :=
  ((units.flatMap MediaUnit.fragments)[seq - start]?).elim ({}, []) fun found =>
    (found.flags, found.plaintext)

theorem datagrams_eq (start : Nat) (units : List MediaUnit) :
    datagrams start units =
      (List.range' start (units.flatMap MediaUnit.fragments).length).map fun seq =>
        (seq, pieceAt start units seq) := by
  unfold datagrams
  refine List.ext_getElem (by simp) fun index inside inside' => ?_
  rw [List.length_map, List.length_zipIdx] at inside
  simp only [List.getElem_map, List.getElem_zipIdx, List.getElem_range', Nat.one_mul, pieceAt,
    Nat.add_sub_cancel_left, List.getElem?_eq_getElem inside, Option.elim]

/-- The datagrams of units that fit, pushed in any order, bring out every unit once as it was and
nothing else, and leave the reassembler empty. -/
theorem units_roundTrip (maxFragments start : Nat) (units : List MediaUnit)
    (order : List (Nat × Flags × List UInt8))
    (small : ∀ unit ∈ units, unit.data.length ≤ maxUnitBytes maxFragments)
    (buffered : (units.flatMap MediaUnit.fragments).length ≤ (new maxFragments).maxBuffered)
    (numbered : start + (units.flatMap MediaUnit.fragments).length ≤ u32Max + 1)
    (shuffled : order.Perm (datagrams start units)) :
    ∃ emitted after, (new maxFragments).pushAll order = some (emitted, after) ∧
      emitted.Perm (received start units) ∧ after.fragments = ∅ ∧ after.spans = ∅ ∧
      after.firsts = ∅ ∧ after.lasts = ∅ := by
  let stop := start + (units.flatMap MediaUnit.fragments).length
  have few : ∀ unit ∈ units, unit.fragments.length ≤ (new maxFragments).maxFragments := by
    intro unit member
    have positive : 0 < max maxFragments 1 := lt_max_iff.mpr (.inr Nat.one_pos)
    have bytes : unit.data.length ≤ maxUnitBytes (max maxFragments 1) := by
      refine (small unit member).trans (Nat.sub_le_sub_right ?_ _)
      exact Nat.mul_le_mul_right _ (le_max_left _ _)
    have total : unit.fragments.length ≤ (units.flatMap MediaUnit.fragments).length :=
      (List.sublist_flatten_of_mem (List.mem_map_of_mem member)).length_le
    have capped : (new maxFragments).maxBuffered ≤ u32Max := (Nat.min_le_left _ _).trans (by decide)
    exact Nat.le_min.mpr ⟨fragment_length_le positive bytes _ _, total.trans (buffered.trans capped)⟩
  have layout : Stream.Layout (new maxFragments).maxFragments start stop (pieceAt start units)
      (received start units) := by
    refine Stream.layout_received units few fun index found there => ?_
    rw [pieceAt, Nat.add_sub_cancel_left, there]
    rfl
  rw [datagrams_eq] at shuffled
  have numbers : (order.map Prod.fst).Perm (List.range' start
      (units.flatMap MediaUnit.fragments).length) := by
    have mapped := shuffled.map Prod.fst
    rw [List.map_map] at mapped
    simpa [Function.comp_def] using mapped
  have pieces : (order.map Prod.fst).map (fun seq => (seq, pieceAt start units seq)) = order := by
    rw [List.map_map]
    refine (List.map_congr_left fun datagram member => ?_).trans (List.map_id order)
    obtain ⟨seq, _, rfl⟩ := List.mem_map.mp (shuffled.mem_iff.mp member)
    rfl
  have buffers : Stream.Buffers (pieceAt start units) (received start units) ∅
      (new maxFragments) := by
    constructor
    · intro seq found there
      cases there
    · intro seq
      constructor
      · intro member
        cases member
      · rintro ⟨member, _⟩
        cases member
  have length : (order.map Prod.fst).length = (units.flatMap MediaUnit.fragments).length := by
    rw [numbers.length_eq, List.length_range']
  have inside : ∀ seq ∈ ∅ ∪ (order.map Prod.fst).toFinset, start ≤ seq ∧ seq < stop := by
    intro seq member
    rw [Finset.empty_union, List.mem_toFinset, numbers.mem_iff, List.mem_range'_1] at member
    exact member
  obtain ⟨emitted, after, pushes, sound, buffered', emitted'⟩ :=
    layout.pushAll_spec numbered (new_sound maxFragments) buffers le_rfl (order.map Prod.fst)
      (numbers.nodup_iff.mpr List.nodup_range') (fun _ _ => Finset.notMem_empty _)
      (by rw [Finset.card_empty, Nat.zero_add, length]; exact buffered) inside
  rw [pieces] at pushes
  have all : ∀ unit ∈ received start units, Stream.Whole (∅ ∪ (order.map Prod.fst).toFinset) unit := by
    intro unit member seq above below
    have within := layout.within unit member
    rw [Finset.empty_union, List.mem_toFinset, numbers.mem_iff, List.mem_range'_1]
    exact ⟨within.1.trans above, below.trans_lt within.2.2⟩
  have empty : after.fragments = ∅ := by
    refine Finmap.ext_lookup fun seq => ?_
    rw [Finmap.lookup_empty]
    refine Option.eq_none_iff_forall_ne_some.mpr fun found there => ?_
    obtain ⟨member, apart⟩ := (buffered'.mem_keys seq).mp ((Map.mem_keys_iff _ _).mpr ⟨found, there⟩)
    have within := inside seq member
    obtain ⟨unit, isUnit, above, below⟩ := layout.covered seq within.1 within.2
    exact apart unit isUnit above below (all unit isUnit)
  have before : (received start units).filter (Stream.Whole ∅ ·) = [] := by
    refine List.filter_eq_nil_iff.mpr fun unit member whole => ?_
    have ordered := (layout.within unit member).2.1
    exact Finset.notMem_empty _ (of_decide_eq_true whole _ le_rfl ordered)
  have since : (received start units).filter
      (Stream.Whole (∅ ∪ (order.map Prod.fst).toFinset) ·) = received start units :=
    List.filter_eq_self.mpr fun unit member => decide_eq_true (all unit member)
  rw [before, since, List.append_nil] at emitted'
  exact ⟨emitted, after, pushes, emitted', empty, sound.toLinked.empty empty⟩

/-- Two short units, one of them empty. -/
def shortUnits : List MediaUnit := [⟨[1, 2, 3], 7, true⟩, ⟨[], 8, false⟩]

theorem units_roundTrip_shortUnits :
    ∃ emitted after, (new 4).pushAll (datagrams 5 shortUnits).reverse = some (emitted, after) ∧
      emitted.Perm (received 5 shortUnits) := by
  have count : (shortUnits.flatMap MediaUnit.fragments).length = 2 := by
    simp [shortUnits, MediaUnit.fragments, fragment, fragmentRest, bodyBytes, datagramPayloadFloor,
      headerBytes, tagBytes, timestampBytes, length_modifyLast]
  obtain ⟨emitted, after, pushes, units, _⟩ := units_roundTrip 4 5 shortUnits
    (datagrams 5 shortUnits).reverse (by decide) (by rw [count]; decide) (by rw [count]; decide)
    (List.reverse_perm _)
  exact ⟨emitted, after, pushes, units⟩

end Reassembler

end Throcc
