/-
This file proves that the reassembler throws away only what can never
complete: a run of fragments from its only FIRST to its only LAST that fits the
limit is emitted exactly once, in whatever order and among whatever else its
fragments are pushed. One branch of `push` has to be left out: a stretch
without a FIRST that is too long for its last LAST goes as a whole, and with it
an earlier LAST whose unit could still start just before the stretch.
-/

import Throcc.Reassembly
import Throcc.Run

namespace Throcc

/-- A fragment as it is pushed. -/
structure Piece where
  seq : UInt32
  flags : Flags
  plaintext : List UInt8

namespace Reassembler

/-- The fragment joins a stretch without a FIRST that is too long for the next LAST, and in
which an earlier LAST ends a unit that could still start just before the stretch. -/
def Misdrops (reassembler : Reassembler) (piece : Piece) : Prop :=
  let joined := reassembler.insert piece.seq.toNat piece.flags piece.plaintext
  ∃ span ∈ joined.spanOf piece.seq.toNat, ∃ last ∈ leastIn joined.lasts piece.seq.toNat span.2,
    greatestIn joined.firsts span.1 piece.seq.toNat = none ∧
    joined.maxFragments ≤ last + 1 - span.1 ∧ 0 < span.1 ∧
    ∃ earlier ∈ joined.lasts, span.1 ≤ earlier ∧ earlier < piece.seq.toNat ∧
      earlier + 1 - span.1 < joined.maxFragments

instance (reassembler : Reassembler) (piece : Piece) : Decidable (reassembler.Misdrops piece) :=
  inferInstanceAs (Decidable (∃ _ ∈ _, ∃ _ ∈ _, _ ∧ _ ∧ _ ∧ ∃ _ ∈ _, _))

/-! ### A run that could be emitted -/

/-- The fragments from `first` to `last` make a unit: only the first is a FIRST, which carries
its timestamp, only the last a LAST, and there are no more than the limit. -/
structure Intact (piece : Nat → Flags × List UInt8) (limit first last : Nat) : Prop where
  ordered : first ≤ last
  short : last - first < limit
  isFirst : ∀ seq, first ≤ seq → seq ≤ last →
    ((piece seq).1.contains .first = true ↔ seq = first)
  isLast : ∀ seq, first ≤ seq → seq ≤ last → ((piece seq).1.contains .last = true ↔ seq = last)
  stamped : timestampBytes ≤ (piece first).2.length

section Intact

variable {piece : Nat → Flags × List UInt8} {limit first last : Nat} {reassembler : Reassembler}

theorem Intact.mem_firsts (intact : Intact piece limit first last) (linked : reassembler.Linked)
    (stored : ∀ seq ∈ reassembler.fragments.keys,
      reassembler.fragments.lookup seq = some (piece seq))
    (buffered : first ∈ reassembler.fragments.keys) : first ∈ reassembler.firsts :=
  (linked.firsts.mem_iff stored).mpr ⟨buffered, (intact.isFirst _ le_rfl intact.ordered).mpr rfl⟩

theorem Intact.mem_lasts (intact : Intact piece limit first last) (linked : reassembler.Linked)
    (stored : ∀ seq ∈ reassembler.fragments.keys,
      reassembler.fragments.lookup seq = some (piece seq))
    (buffered : last ∈ reassembler.fragments.keys) : last ∈ reassembler.lasts :=
  (linked.lasts.mem_iff stored).mpr ⟨buffered, (intact.isLast _ intact.ordered le_rfl).mpr rfl⟩

/-- A stretch from its only FIRST to its only LAST that shares a fragment with the run is the
run. -/
theorem Intact.eq_of_meets (intact : Intact piece limit first last) (linked : reassembler.Linked)
    (stored : ∀ seq ∈ reassembler.fragments.keys,
      reassembler.fragments.lookup seq = some (piece seq))
    {head tail seq : Nat} (joined : reassembler.Joined head tail)
    (isFirst : head ∈ reassembler.firsts) (isLast : tail ∈ reassembler.lasts)
    (alone : (∀ other ∈ reassembler.firsts, head ≤ other → other ≤ tail → other = head) ∧
      ∀ other ∈ reassembler.lasts, head ≤ other → other ≤ tail → other = tail)
    (within : first ≤ seq ∧ seq ≤ last) (within' : head ≤ seq ∧ seq ≤ tail) :
    head = first ∧ tail = last := by
  have headFlag := ((linked.firsts.mem_iff stored).mp isFirst).2
  have tailFlag := ((linked.lasts.mem_iff stored).mp isLast).2
  constructor
  · by_cases early : head < first
    · have buffered := joined first early.le (within.1.trans within'.2)
      exact (alone.1 first (intact.mem_firsts linked stored buffered) early.le
        (within.1.trans within'.2)).symm
    · exact (intact.isFirst head (not_lt.mp early) (within'.1.trans within.2)).mp headFlag
  · by_cases late : last < tail
    · have buffered := joined last (within'.1.trans within.2) late.le
      exact (alone.2 last (intact.mem_lasts linked stored buffered)
        (within'.1.trans within.2) late.le).symm
    · exact (intact.isLast tail (within.1.trans within'.2) (not_lt.mp late)).mp tailFlag

/-- A run that is buffered is spelled out. -/
theorem Intact.toUnit (intact : Intact piece limit first last)
    (stored : ∀ seq ∈ reassembler.fragments.keys,
      reassembler.fragments.lookup seq = some (piece seq))
    (joined : reassembler.Joined first last) :
    ∃ unit, Reassembler.toUnit first last (reassembler.runOf first last) = some unit ∧
      unit.firstSeq = first ∧ unit.lastSeq = last := by
  have found := stored first (joined first le_rfl intact.ordered)
  have starts : ∃ rest, reassembler.runOf first last = piece first :: rest := by
    unfold runOf
    rw [show last + 1 - first = last - first + 1 by have := intact.ordered; omega,
      List.range'_succ, List.filterMap_cons, found]
    exact ⟨_, rfl⟩
  obtain ⟨rest, starts⟩ := starts
  rw [starts]
  unfold Reassembler.toUnit
  dsimp only
  rw [if_neg (not_lt.mpr intact.stamped)]
  exact ⟨_, rfl, rfl, rfl⟩

/-- What becomes of the run when a fragment is settled: it is emitted as a whole, or it isn't
whole and nothing of it goes. -/
inductive Spares (first last : Nat) (reassembler : Reassembler) (result : Option AccessUnit)
    (after : Reassembler) : Prop where
  | emits (joined : reassembler.Joined first last) (unit : AccessUnit)
      (emitted : result = some unit) (firstSeq : unit.firstSeq = first)
      (lastSeq : unit.lastSeq = last)
      (gone : ∀ seq, first ≤ seq → seq ≤ last → seq ∉ after.fragments.keys)
  | keeps (broken : ¬ reassembler.Joined first last)
      (other : ∀ unit, result = some unit → unit.firstSeq ≠ first)
      (kept : ∀ seq ∈ reassembler.fragments.keys, first ≤ seq → seq ≤ last →
        seq ∈ after.fragments.keys)

theorem Intact.spares (intact : Intact piece limit first last) (linked : reassembler.Linked)
    (stored : ∀ seq ∈ reassembler.fragments.keys,
      reassembler.fragments.lookup seq = some (piece seq))
    (limited : reassembler.maxFragments = limit) {seq lo hi : Nat}
    (through : reassembler.JoinedThrough seq)
    (run : MaximalRun reassembler.fragments.keys lo hi) (low : lo ≤ seq) (high : seq ≤ hi)
    {result : Option AccessUnit} {after : Reassembler}
    (settles : Settles reassembler seq lo hi result after)
    (notMisdrops : ∀ tail ∈ reassembler.lasts, seq ≤ tail → tail ≤ hi →
      (∀ other ∈ reassembler.lasts, seq ≤ other → other ≤ hi → tail ≤ other) →
      (∀ head ∈ reassembler.firsts, lo ≤ head → ¬ head ≤ seq) →
      reassembler.maxFragments ≤ tail + 1 - lo → 0 < lo →
      ∀ earlier ∈ reassembler.lasts, lo ≤ earlier → earlier < seq →
        reassembler.maxFragments ≤ earlier + 1 - lo) :
    Spares first last reassembler result after := by
  have ordered := intact.ordered
  have short := intact.short
  -- A buffered run holds the fragment and lies in its span.
  have reaches : reassembler.Joined first last → first ∈ reassembler.firsts ∧
      last ∈ reassembler.lasts ∧ (first ≤ seq ∧ seq ≤ last) ∧ lo ≤ first ∧ last ≤ hi := by
    intro joined
    have isFirst := intact.mem_firsts linked stored (joined first le_rfl ordered)
    have isLast := intact.mem_lasts linked stored (joined last ordered le_rfl)
    have around := through first isFirst last isLast ordered joined
    exact ⟨isFirst, isLast, around, joined.within_run run low high around.1 around.2⟩
  cases settles with
  | waitsForLast unended =>
    refine .keeps (fun joined => ?_) nofun fun _ member _ _ => member
    obtain ⟨-, isLast, around, within⟩ := reaches joined
    exact unended last isLast around.2 within.2
  | waitsForFirst headless =>
    refine .keeps (fun joined => ?_) nofun fun _ member _ _ => member
    obtain ⟨isFirst, -, around, within⟩ := reaches joined
    exact headless first isFirst within.1 around.1
  | dropsTail start lowest unended ended long left linked' leaves =>
    refine .keeps (fun joined => ?_) nofun fun other member above below => ?_
    · obtain ⟨-, isLast, around, within⟩ := reaches joined
      exact unended last isLast around.2 within.2
    · refine (leaves.mem_keys other).mpr ⟨member, outside_iff.mpr fun dropped => ?_⟩
      have inside : last ≤ hi := by omega
      have buffered := run.full last (by omega) inside
      exact ended last (intact.mem_lasts linked stored buffered) (by omega) inside
  | dropsLong head tail isFirst isLast lowest before beyond highest nearest nearest' long left
      linked' leaves =>
    have alone := through.alone run isFirst isLast lowest highest nearest nearest'
    have buffered : reassembler.Joined head tail := fun other above below =>
      run.full other (lowest.trans above) (below.trans highest)
    have apart : ∀ other, first ≤ other ∧ other ≤ last → ¬ (head ≤ other ∧ other ≤ tail) := by
      intro other within within'
      obtain ⟨rfl, rfl⟩ :=
        intact.eq_of_meets linked stored buffered isFirst isLast alone within within'
      omega
    refine .keeps (fun joined => ?_) nofun fun other member above below => ?_
    · exact apart seq (reaches joined).2.2.1 ⟨before, beyond⟩
    · exact (leaves.mem_keys other).mpr
        ⟨member, outside_iff.mpr (apart other ⟨above, below⟩)⟩
  | dropsHeadless tail isLast beyond highest nearest headless long left linked' leaves =>
    refine .keeps (fun joined => ?_) nofun fun other member above below => ?_
    · obtain ⟨isFirst, -, around, within⟩ := reaches joined
      exact headless first isFirst within.1 around.1
    · refine (leaves.mem_keys other).mpr ⟨member, outside_iff.mpr fun dropped => ?_⟩
      have tailFlag := ((linked.lasts.mem_iff stored).mp isLast).2
      have inside : last ≤ tail := by
        by_contra late
        have same := (intact.isLast tail (by omega) (by omega)).mp tailFlag
        omega
      have ends := intact.mem_lasts linked stored (run.full last (by omega) (by omega))
      -- Its FIRST would be buffered behind the fragment, where no FIRST is joined with a LAST.
      have starts : first < lo := by
        by_contra within
        have joined : reassembler.Joined first last := fun key above' below' =>
          run.full key (by omega) (by omega)
        obtain ⟨isFirst, -, around, -⟩ := reaches joined
        exact headless first isFirst (by omega) around.1
      by_cases late : seq ≤ last
      · have same := nearest last ends late (by omega)
        omega
      · have fits := notMisdrops tail isLast beyond highest nearest headless long (by omega) last
          ends (by omega) (by omega)
        omega
  | takes head tail isFirst isLast lowest before beyond highest nearest nearest' fits left linked'
      leaves =>
    have alone := through.alone run isFirst isLast lowest highest nearest nearest'
    have buffered : reassembler.Joined head tail := fun other above below =>
      run.full other (lowest.trans above) (below.trans highest)
    by_cases meets : ∃ other, (first ≤ other ∧ other ≤ last) ∧ head ≤ other ∧ other ≤ tail
    · obtain ⟨other, within, within'⟩ := meets
      obtain ⟨rfl, rfl⟩ :=
        intact.eq_of_meets linked stored buffered isFirst isLast alone within within'
      obtain ⟨unit, spelled, firstSeq, lastSeq⟩ := intact.toUnit stored buffered
      refine .emits buffered unit spelled firstSeq lastSeq fun other above below member => ?_
      exact outside_iff.mp ((leaves.mem_keys other).mp member).2 ⟨above, below⟩
    · refine .keeps (fun joined => ?_) (fun unit emitted same => ?_) fun other member above below =>
        ?_
      · exact meets ⟨seq, (reaches joined).2.2.1, before, beyond⟩
      · obtain ⟨-, -, -, firstSeq, -⟩ := toUnit_eq_some emitted
        have equal : head = first := firstSeq.symm.trans same
        exact meets ⟨head, ⟨equal.ge, equal.le.trans ordered⟩, le_rfl, before.trans beyond⟩
      · exact (leaves.mem_keys other).mpr
          ⟨member, outside_iff.mpr fun within => meets ⟨other, ⟨above, below⟩, within⟩⟩

end Intact

end Reassembler

/-! ### Runs -/

/-- A reassembler and the units it emitted. -/
structure Assembly where
  reassembler : Reassembler
  emitted : List AccessUnit := []

namespace Assembly

open Reassembler

def step (assembly : Assembly) (piece : Piece) : Assembly :=
  match assembly.reassembler.push piece.seq.toNat piece.flags piece.plaintext with
  | some (unit, reassembler) => ⟨reassembler, assembly.emitted ++ unit.toList⟩
  | none => assembly

/-- How often the run from `first` to `last` was emitted. -/
def timesEmitted (assembly : Assembly) (first last : Nat) : Nat :=
  assembly.emitted.countP fun unit => unit.firstSeq = first ∧ unit.lastSeq = last

/-- How far a run has come once some fragments were pushed: it was emitted when all of it was,
and before that what was pushed of it is buffered. -/
structure Progress (piece : Nat → Flags × List UInt8) (limit first last : Nat)
    (pushed : Finset Nat) (assembly : Assembly) : Prop where
  sound : assembly.reassembler.Sound
  limited : assembly.reassembler.maxFragments = limit
  stored : ∀ seq ∈ assembly.reassembler.fragments.keys,
    assembly.reassembler.fragments.lookup seq = some (piece seq)
  known : ∀ seq ∈ assembly.reassembler.fragments.keys, seq ∈ pushed
  progress :
    (assembly.timesEmitted first last = 0 ∧ (∃ seq, first ≤ seq ∧ seq ≤ last ∧ seq ∉ pushed) ∧
      ∀ seq ∈ pushed, first ≤ seq → seq ≤ last → seq ∈ assembly.reassembler.fragments.keys) ∨
    (assembly.timesEmitted first last = 1 ∧ ∀ seq, first ≤ seq → seq ≤ last →
      seq ∈ pushed ∧ seq ∉ assembly.reassembler.fragments.keys)

variable {piece : Nat → Flags × List UInt8} {limit first last : Nat} {pushed : Finset Nat}
  {assembly : Assembly}

theorem step_eq {new : Piece} {result : Option AccessUnit} {after : Reassembler}
    (pushes : assembly.reassembler.push new.seq.toNat new.flags new.plaintext =
      some (result, after)) :
    assembly.step new = ⟨after, assembly.emitted ++ result.toList⟩ := by
  unfold step
  rw [pushes]

theorem timesEmitted_append (reassembler : Reassembler) (emitted : List AccessUnit)
    (result : Option AccessUnit) (first last : Nat) :
    timesEmitted ⟨reassembler, emitted ++ result.toList⟩ first last =
      emitted.countP (fun unit => unit.firstSeq = first ∧ unit.lastSeq = last) +
        result.toList.countP fun unit => unit.firstSeq = first ∧ unit.lastSeq = last :=
  List.countP_append

/-- What a push does to the run. -/
theorem Progress.push_spec (progress : Progress piece limit first last pushed assembly)
    (intact : Intact piece limit first last) {new : Piece}
    (spelled : piece new.seq.toNat = (new.flags, new.plaintext))
    (room : assembly.reassembler.fragments.keys.card < assembly.reassembler.maxBuffered)
    (notMisdrops : ¬ assembly.reassembler.Misdrops new) :
    ∃ result after, assembly.step new = ⟨after, assembly.emitted ++ result.toList⟩ ∧
      after.Sound ∧ after.maxFragments = limit ∧
      (∀ seq ∈ after.fragments.keys, after.fragments.lookup seq = some (piece seq) ∧
        (seq = new.seq.toNat ∨ seq ∈ assembly.reassembler.fragments.keys)) ∧
      Spares first last
        (assembly.reassembler.insert new.seq.toNat new.flags new.plaintext) result after := by
  have bound : new.seq.toNat ≤ u32Max := Nat.le_of_lt_succ new.seq.toNat_lt
  obtain ⟨roomy, _, lo, hi, result, after, pushes, _, unchanged, linked, through, run, low, high,
    settles, sound, maxFragments, _⟩ := progress.sound.push_spec bound new.flags new.plaintext
  rw [unchanged room] at linked through run settles
  have keys := assembly.reassembler.keys_insert new.seq.toNat new.flags new.plaintext
  have limits := assembly.reassembler.insert_limits new.seq.toNat new.flags new.plaintext
  have stored : ∀ seq,
      seq ∈ (assembly.reassembler.insert new.seq.toNat new.flags new.plaintext).fragments.keys →
        (assembly.reassembler.insert new.seq.toNat new.flags new.plaintext).fragments.lookup seq =
          some (piece seq) := by
    intro seq member
    rw [lookup_insert]
    rw [keys, Finset.mem_insert] at member
    split
    · rename_i same
      rw [same, spelled]
    · rename_i different
      exact progress.stored seq (member.resolve_left different)
  have spares := intact.spares linked stored (limits.1.trans progress.limited) through run low high
    settles
  obtain ⟨keep, leaves⟩ := settles.leaves
  refine ⟨result, after, step_eq pushes, sound, maxFragments.trans progress.limited,
    fun seq member => ?_, spares ?_⟩
  · have before := ((leaves.mem_keys seq).mp member).1
    obtain ⟨found, there⟩ := (Map.mem_keys_iff _ _).mp member
    have was := leaves.lookup there
    rw [stored seq before] at was
    rw [keys, Finset.mem_insert] at before
    exact ⟨there.trans was.symm, before⟩
  · intro tail isLast beyond highest nearest headless long positive earlier isLast' above before
    by_contra short
    refine notMisdrops ⟨(lo, hi), linked.spanOf_eq_some.mpr ⟨run, low, high⟩, tail,
      leastIn_eq_some.mpr ⟨⟨isLast, beyond, highest⟩, nearest⟩, greatestIn_eq_none.mpr headless,
      long, positive, earlier, isLast', above, before, not_le.mp short⟩

theorem Progress.step (progress : Progress piece limit first last pushed assembly)
    (intact : Intact piece limit first last) {new : Piece}
    (fresh : new.seq.toNat ∉ pushed) (spelled : piece new.seq.toNat = (new.flags, new.plaintext))
    (room : assembly.reassembler.fragments.keys.card < assembly.reassembler.maxBuffered)
    (notMisdrops : ¬ assembly.reassembler.Misdrops new) :
    Progress piece limit first last (insert new.seq.toNat pushed) (assembly.step new) := by
  obtain ⟨result, after, stepped, sound, limited, known, spares⟩ :=
    progress.push_spec intact spelled room notMisdrops
  have keys := assembly.reassembler.keys_insert new.seq.toNat new.flags new.plaintext
  have ordered := intact.ordered
  rw [stepped]
  refine ⟨sound, limited, fun seq member => (known seq member).1, fun seq member => ?_, ?_⟩
  · rw [Finset.mem_insert]
    exact (known seq member).2.imp id (progress.known seq)
  rw [timesEmitted_append]
  cases spares with
  | emits joined unit emitted firstSeq lastSeq gone =>
    subst emitted
    have buffered : ∀ seq, first ≤ seq → seq ≤ last → seq ∈ insert new.seq.toNat pushed := by
      intro seq above below
      have member := joined seq above below
      rw [keys, Finset.mem_insert] at member
      exact Finset.mem_insert.mpr (member.imp id (progress.known seq))
    have once : (some unit).toList.countP
        (fun unit => unit.firstSeq = first ∧ unit.lastSeq = last) = 1 := by
      simp [firstSeq, lastSeq]
    rw [once]
    rcases progress.progress with ⟨none, -, -⟩ | ⟨-, all⟩
    · exact Or.inr ⟨congrArg (· + 1) none, fun seq above below =>
        ⟨buffered seq above below, gone seq above below⟩⟩
    · have member := joined first le_rfl ordered
      rw [keys, Finset.mem_insert] at member
      rcases member with same | member
      · exact absurd (same ▸ (all first le_rfl ordered).1) fresh
      · exact absurd member (all first le_rfl ordered).2
  | keeps broken other kept =>
    have none : result.toList.countP
        (fun unit => unit.firstSeq = first ∧ unit.lastSeq = last) = 0 := by
      rw [List.countP_eq_zero]
      intro unit member same
      rw [decide_eq_true_iff] at same
      exact other unit (Option.mem_toList.mp member) same.1
    rw [none, Nat.add_zero]
    rcases progress.progress with ⟨none, missing, buffered⟩ | ⟨once, all⟩
    · have still : ∀ seq ∈ insert new.seq.toNat pushed, first ≤ seq → seq ≤ last →
          seq ∈ insert new.seq.toNat assembly.reassembler.fragments.keys := by
        intro seq member above below
        rcases Finset.mem_insert.mp member with same | member
        · exact Finset.mem_insert.mpr (Or.inl same)
        · exact Finset.mem_insert_of_mem (buffered seq member above below)
      refine Or.inl ⟨none, ?_, fun seq member above below => ?_⟩
      · by_contra whole
        push Not at whole
        refine broken fun seq above below => ?_
        rw [keys]
        exact still seq (whole seq above below) above below
      · refine kept seq ?_ above below
        rw [keys]
        exact still seq member above below
    · refine Or.inr ⟨once, fun seq above below => ?_⟩
      have done := all seq above below
      refine ⟨Finset.mem_insert_of_mem done.1, fun member => ?_⟩
      rcases (known seq member).2 with same | before
      · exact fresh (same ▸ done.1)
      · exact done.2 before

theorem Progress.run (progress : Progress piece limit first last pushed assembly)
    (intact : Intact piece limit first last) {pieces : List Piece}
    (distinct : (pieces.map fun new => new.seq.toNat).Nodup)
    (fresh : ∀ new ∈ pieces, new.seq.toNat ∉ pushed)
    (spelled : ∀ new ∈ pieces, piece new.seq.toNat = (new.flags, new.plaintext))
    (along : Along Assembly.step (fun assembly new =>
      assembly.reassembler.fragments.keys.card < assembly.reassembler.maxBuffered ∧
        ¬ assembly.reassembler.Misdrops new) assembly pieces) :
    Progress piece limit first last (pushed ∪ (pieces.map fun new => new.seq.toNat).toFinset)
      (Throcc.run Assembly.step assembly pieces) := by
  induction pieces generalizing pushed assembly with
  | nil =>
    rw [List.map_nil, List.toFinset_nil, Finset.union_empty]
    exact progress
  | cons new rest inductionHypothesis =>
    rw [List.map_cons, List.nodup_cons] at distinct
    rw [List.map_cons, List.toFinset_cons, Finset.union_insert, ← Finset.insert_union]
    have stepped := progress.step intact (fresh new List.mem_cons_self)
      (spelled new List.mem_cons_self) along.1.1 along.1.2
    refine inductionHypothesis stepped distinct.2 (fun other member => ?_)
      (fun other member => spelled other (List.mem_cons_of_mem _ member)) along.2
    rw [Finset.mem_insert, not_or]
    refine ⟨fun same => ?_, fresh other (List.mem_cons_of_mem _ member)⟩
    exact distinct.1 (same ▸ List.mem_map_of_mem member)

/-- The fragment pushed at a sequence. -/
def pieceAt (pieces : List Piece) (seq : Nat) : Flags × List UInt8 :=
  ((pieces.find? fun new => new.seq.toNat = seq).map fun new => (new.flags, new.plaintext)).getD
    ({}, [])

theorem pieceAt_of_mem {pieces : List Piece}
    (distinct : (pieces.map fun new => new.seq.toNat).Nodup) {new : Piece} (member : new ∈ pieces) :
    pieceAt pieces new.seq.toNat = (new.flags, new.plaintext) := by
  have found : (pieces.find? fun other => other.seq.toNat = new.seq.toNat) = some new := by
    induction pieces with
    | nil => cases member
    | cons head rest inductionHypothesis =>
      rw [List.map_cons, List.nodup_cons] at distinct
      rw [List.find?_cons]
      rcases List.mem_cons.mp member with rfl | later
      · rw [decide_eq_true rfl]
      · have different : ¬ head.seq.toNat = new.seq.toNat := fun same =>
          distinct.1 (same ▸ List.mem_map_of_mem later)
        rw [decide_eq_false different]
        exact inductionHypothesis distinct.2 later
  unfold pieceAt
  rw [found]
  rfl

theorem progress_new (maxFragments : Nat) {piece : Nat → Flags × List UInt8} {first last : Nat}
    (ordered : first ≤ last) :
    Progress piece (new maxFragments).maxFragments first last ∅ ⟨new maxFragments, []⟩ where
  sound := new_sound maxFragments
  limited := rfl
  stored _ member := absurd member (Finset.notMem_empty _)
  known _ member := absurd member (Finset.notMem_empty _)
  progress := Or.inl ⟨rfl, ⟨first, le_rfl, ordered, Finset.notMem_empty _⟩,
    fun _ member => absurd member (Finset.notMem_empty _)⟩

/-- In every run of pushes at distinct sequences that never fill the buffer, and that never throw
away an earlier LAST with a stretch too long for the last one: every run of fragments from its
only FIRST, with its timestamp, to its only LAST that fits the limit is emitted exactly once
when all of it was pushed. -/
theorem run_completes (maxFragments : Nat) (pieces : List Piece)
    (distinct : (pieces.map Piece.seq).Nodup)
    (room : Along step (fun assembly _ => assembly.reassembler.fragments.keys.card <
      assembly.reassembler.maxBuffered) ⟨new maxFragments, []⟩ pieces)
    (along : Along step (fun assembly new => ¬ assembly.reassembler.Misdrops new)
      ⟨new maxFragments, []⟩ pieces)
    (first last : UInt32) (ordered : first ≤ last)
    (short : last.toNat - first.toNat < (new maxFragments).maxFragments)
    (pushed : ∀ seq, first ≤ seq → seq ≤ last → ∃ new ∈ pieces, new.seq = seq ∧
      (new.flags.contains .first = true ↔ seq = first) ∧
      (new.flags.contains .last = true ↔ seq = last) ∧
      (seq = first → timestampBytes ≤ new.plaintext.length)) :
    (run step ⟨new maxFragments, []⟩ pieces).timesEmitted first.toNat last.toNat = 1 := by
  have numbers : (pieces.map fun new => new.seq.toNat).Nodup := by
    have mapped : ((pieces.map Piece.seq).map UInt32.toNat).Nodup :=
      distinct.map fun _ _ => UInt32.toNat_inj.mp
    rwa [List.map_map] at mapped
  have found : ∀ seq, first.toNat ≤ seq → seq ≤ last.toNat → ∃ new ∈ pieces,
      new.seq.toNat = seq ∧ pieceAt pieces seq = (new.flags, new.plaintext) ∧
      (new.flags.contains .first = true ↔ seq = first.toNat) ∧
      (new.flags.contains .last = true ↔ seq = last.toNat) ∧
      (seq = first.toNat → timestampBytes ≤ new.plaintext.length) := by
    intro seq above below
    have small : seq < UInt32.size := below.trans_lt last.toNat_lt
    have same : (UInt32.ofNat seq).toNat = seq := UInt32.toNat_ofNat_of_lt' small
    obtain ⟨new, member, equal, isFirst, isLast, stamped⟩ := pushed (.ofNat seq)
      (UInt32.le_iff_toNat_le.mpr (same.symm ▸ above))
      (UInt32.le_iff_toNat_le.mpr (same.symm ▸ below))
    rw [← UInt32.toNat_inj, same] at isFirst isLast stamped
    have number : new.seq.toNat = seq := by rw [equal, same]
    exact ⟨new, member, number, number ▸ pieceAt_of_mem numbers member, isFirst, isLast, stamped⟩
  have le : first.toNat ≤ last.toNat := UInt32.le_iff_toNat_le.mp ordered
  have intact : Intact (pieceAt pieces) (new maxFragments).maxFragments first.toNat last.toNat := by
    refine ⟨le, short, fun seq above below => ?_, fun seq above below => ?_, ?_⟩
    · obtain ⟨new, -, -, piece, isFirst, -⟩ := found seq above below
      rw [piece]
      exact isFirst
    · obtain ⟨new, -, -, piece, -, isLast, -⟩ := found seq above below
      rw [piece]
      exact isLast
    · obtain ⟨new, -, -, piece, -, -, stamped⟩ := found first.toNat le_rfl le
      rw [piece]
      exact stamped rfl
  have progress := (progress_new maxFragments le).run intact numbers
    (fun _ _ => Finset.notMem_empty _) (fun new member => pieceAt_of_mem numbers member)
    (room.and along)
  rcases progress.progress with ⟨-, ⟨seq, above, below, missing⟩, -⟩ | ⟨once, -⟩
  · obtain ⟨new, member, same, -⟩ := found seq above below
    refine absurd ?_ missing
    rw [Finset.empty_union, List.mem_toFinset, ← same]
    exact List.mem_map_of_mem member
  · exact once

/-- A unit of two fragments whose LAST comes first, after a fragment of a unit without a head. -/
def lastFirst : List Piece :=
  [⟨6, .last, [1]⟩, ⟨9, .last, [2]⟩, ⟨8, .first, [0, 0, 0, 7, 3]⟩]

theorem run_completes_lastFirst :
    (run step ⟨new 4, []⟩ lastFirst).timesEmitted 8 9 = 1 := by
  refine run_completes 4 lastFirst (by decide +kernel) (by decide +kernel) (by decide +kernel) 8 9
    (by decide) (by decide +kernel) fun seq above below => ?_
  by_cases isFirst : seq = 8
  · subst isFirst
    exact ⟨⟨8, .first, [0, 0, 0, 7, 3]⟩, by simp [lastFirst], rfl, by decide⟩
  · have same : seq = 9 := by
      rw [UInt32.le_iff_toNat_le] at above below
      rw [← UInt32.toNat_inj] at isFirst ⊢
      exact le_antisymm below (Nat.lt_of_le_of_ne above (Ne.symm isFirst))
    subst same
    exact ⟨⟨9, .last, [2]⟩, by simp [lastFirst], rfl, by decide⟩

/-- A LAST whose unit is late, and a headless stretch behind it that ends in another LAST. -/
def lateHead : List Piece :=
  [ ⟨10, .last, [3]⟩, ⟨11, {}, [4]⟩, ⟨12, {}, [5]⟩, ⟨13, {}, [6]⟩, ⟨14, .last, [7]⟩,
    ⟨8, .first, [0, 0, 0, 7, 1]⟩, ⟨9, {}, [2]⟩ ]

/-- The unit from 8 to 10 is never emitted: 10 went with the stretch up to 14. -/
theorem lateHead_misdropped :
    (lateHead.map Piece.seq).Nodup ∧
    Along step (fun assembly _ => assembly.reassembler.fragments.keys.card <
      assembly.reassembler.maxBuffered) ⟨new 4, []⟩ lateHead ∧
    (∀ seq ∈ [8, 9, 10], ∃ new ∈ lateHead, new.seq = seq ∧
      (new.flags.contains .first = true ↔ seq = 8) ∧
      (new.flags.contains .last = true ↔ seq = 10) ∧
      (seq = 8 → timestampBytes ≤ new.plaintext.length)) ∧
    (run step ⟨new 4, []⟩ lateHead).timesEmitted 8 10 = 0 ∧
    (run step ⟨new 4, []⟩ lateHead).reassembler.fragments.keys = {8, 9} := by
  refine ⟨by decide +kernel, by decide +kernel, ?_, by decide +kernel, by decide +kernel⟩
  rw [List.forall_mem_cons, List.forall_mem_cons, List.forall_mem_cons]
  exact ⟨by decide, by decide, by decide, nofun⟩

end Assembly

end Throcc
