/-
This file is about the enrollment runs a server admits from one source, network
or region. A run that is forgiven takes the last entry of its queues, which is
its own only if no later run has come in. Where it is, no stretch of a window's
length holds more runs than are allowed.
-/

import Throcc.Run
import Throcc.Sources
import Mathlib.Data.List.TakeWhile

namespace Throcc

/-! ### Runs -/

/-- A limiter with the runs that were admitted and not forgiven, by the time they began at. -/
structure Enrolling where
  limiter : SourceLimiter := {}
  runs : List (SourceKey × Instant) := []
  now : Instant := 0

namespace Enrolling

inductive Input where
  | begin (source : SourceKey) (now : Instant)
  /-- Forgives one of the runs. -/
  | forgive (index : Nat)
deriving DecidableEq, Repr

def step (enrolling : Enrolling) : Input → Enrolling
  | .begin source now =>
    let (admitted, limiter) := enrolling.limiter.begin source now
    { limiter, runs := if admitted then enrolling.runs ++ [(source, now)] else enrolling.runs, now }
  | .forgive index =>
    match enrolling.runs[index]? with
    | none => enrolling
    | some (source, _) =>
      { enrolling with
        limiter := enrolling.limiter.forgive source
        runs := enrolling.runs.eraseIdx index }

end Enrolling

/-- The times in the queue of a key. -/
def RunWindow.timesOf (window : RunWindow) (key : SourceKey) : List Instant :=
  (window.times.lookup key).getD []

/-- The times the runs of a key began at. -/
def timesOfRuns (keyOf : SourceKey → SourceKey) (key : SourceKey)
    (runs : List (SourceKey × Instant)) : List Instant :=
  (runs.filter fun run => keyOf run.1 = key).map Prod.snd

/-- The runs that began in a stretch of the window's length. -/
def within (since : Instant) (times : List Instant) : List Instant :=
  times.filter fun time => since ≤ time ∧ time ≤ since + sourceWindow

/-! ### Queues -/

namespace RunWindow

variable {window : RunWindow} {key other : SourceKey} {now : Instant}

theorem timesOf_expireAll :
    (window.expireAll now).timesOf key = expire (window.timesOf key) now := by
  unfold timesOf expireAll
  rw [Map.lookup_retain, Map.lookup_mapValues]
  cases window.times.lookup key with
  | none => rfl
  | some times =>
    rw [Option.map_some, Option.filter_some]
    by_cases empty : expire times now = []
    · simp [empty]
    · simp [empty]

theorem count_fst : (window.count key now).1 = (expire (window.timesOf key) now).length := by
  unfold count timesOf
  cases window.times.lookup key with
  | none => rfl
  | some times => rfl

theorem timesOf_count :
    (window.count key now).2.timesOf other =
      if other = key then expire (window.timesOf other) now else window.timesOf other := by
  unfold count timesOf
  rw [Map.lookup_modify]
  split
  · cases window.times.lookup other with
    | none => rfl
    | some times => rfl
  · rfl

theorem timesOf_record :
    (window.record key now).timesOf other =
      window.timesOf other ++ if other = key then [now] else [] := by
  unfold record timesOf
  rw [Map.lookup_insert_ite]
  split
  · rename_i same
    rw [same, Option.getD_some]
  · rw [List.append_nil]

theorem timesOf_forgive :
    (window.forgive key).timesOf other =
      if other = key then (window.timesOf other).dropLast else window.timesOf other := by
  unfold forgive timesOf
  rw [Map.lookup_modify]
  split
  · cases window.times.lookup other with
    | none => rfl
    | some times => rfl
  · rfl

end RunWindow

/-! ### Sorted times -/

theorem eq_of_perm_of_inOrder {times other : List Instant} (perm : times.Perm other)
    (inOrder : times.Pairwise (· ≤ ·)) (inOrder' : other.Pairwise (· ≤ ·)) : times = other :=
  perm.eq_of_pairwise (fun _ _ _ _ => Nat.le_antisymm) inOrder inOrder'

/-- The last time goes exactly if its own is the last, or no time is left. -/
theorem dropLast_eq_erase_iff {times : List Instant} (inOrder : times.Pairwise (· ≤ ·))
    (time : Instant) :
    times.dropLast = times.erase time ↔ times.getLast?.all (· = time) = true := by
  rcases List.eq_nil_or_concat times with rfl | ⟨rest, last, rfl⟩
  · simp
  · rw [List.concat_eq_append] at inOrder ⊢
    rw [List.dropLast_concat, List.getLast?_concat, Option.all_some, decide_eq_true_eq]
    constructor
    · intro same
      by_cases there : time ∈ rest ++ [last]
      · have perm := List.perm_cons_erase there
        rw [← same] at perm
        have perm' : (last :: rest).Perm (time :: rest) :=
          (List.perm_append_singleton last rest).symm.trans perm
        exact List.singleton_perm_singleton.mp ((List.perm_append_right_iff rest).mp perm')
      · rw [List.erase_of_not_mem there] at same
        have := congrArg List.length same
        simp at this
    · rintro rfl
      have there : last ∈ rest ++ [last] := List.mem_append_right _ (List.mem_singleton.mpr rfl)
      have perm : rest.Perm ((rest ++ [last]).erase last) :=
        ((List.perm_append_singleton last rest).symm.trans (List.perm_cons_erase there)).cons_inv
      refine eq_of_perm_of_inOrder perm (List.pairwise_append.mp inOrder).1 ?_
      exact inOrder.sublist List.erase_sublist

/-! ### Windows -/

/-- The queues of a window hold the times of the runs, but for those that have left it. -/
def RunWindow.Keeps (window : RunWindow) (keyOf : SourceKey → SourceKey)
    (runs : List (SourceKey × Instant)) (now : Instant) : Prop :=
  ∀ key, ∃ old, timesOfRuns keyOf key runs = old ++ window.timesOf key ∧
    ∀ time ∈ old, sourceWindow < now - time

/-- Every stretch of the window's length holds few of the runs of each key. -/
def Few (keyOf : SourceKey → SourceKey) (limit : Nat) (runs : List (SourceKey × Instant)) : Prop :=
  ∀ key since, (within since (timesOfRuns keyOf key runs)).length ≤ limit

theorem timesOfRuns_append (keyOf : SourceKey → SourceKey) (key : SourceKey)
    (first second : List (SourceKey × Instant)) :
    timesOfRuns keyOf key (first ++ second) =
      timesOfRuns keyOf key first ++ timesOfRuns keyOf key second := by
  rw [timesOfRuns, List.filter_append, List.map_append]
  rfl

theorem timesOfRuns_singleton (keyOf : SourceKey → SourceKey) (key source : SourceKey)
    (now : Instant) :
    timesOfRuns keyOf key [(source, now)] = if keyOf source = key then [now] else [] := by
  unfold timesOfRuns
  by_cases same : keyOf source = key
  · simp [same]
  · simp [same]

theorem inOrder_timesOfRuns {keyOf : SourceKey → SourceKey} {key : SourceKey}
    {runs : List (SourceKey × Instant)} (inOrder : (runs.map Prod.snd).Pairwise (· ≤ ·)) :
    (timesOfRuns keyOf key runs).Pairwise (· ≤ ·) :=
  inOrder.sublist (List.filter_sublist.map _)

namespace RunWindow

variable {window : RunWindow} {keyOf : SourceKey → SourceKey} {runs : List (SourceKey × Instant)}
variable {now next : Instant} {limit : Nat}

theorem keeps_expire {key : SourceKey} {old times : List Instant}
    (same : timesOfRuns keyOf key runs = old ++ times)
    (left : ∀ time ∈ old, sourceWindow < now - time) :
    ∃ old, timesOfRuns keyOf key runs = old ++ expire times now ∧
      ∀ time ∈ old, sourceWindow < now - time := by
  refine ⟨old ++ times.takeWhile fun time => sourceWindow < now - time, ?_, ?_⟩
  · rw [same, List.append_assoc, expire, List.takeWhile_append_dropWhile]
  · intro time there
    obtain there | there := List.mem_append.mp there
    · exact left time there
    · have gone := List.mem_takeWhile_imp there
      exact of_decide_eq_true gone

theorem Keeps.wait (keeps : window.Keeps keyOf runs now) (later : now ≤ next) :
    window.Keeps keyOf runs next := by
  intro key
  obtain ⟨old, same, left⟩ := keeps key
  refine ⟨old, same, fun time there => (left time there).trans_le ?_⟩
  exact Nat.sub_le_sub_right later time

theorem Keeps.expireAll (keeps : window.Keeps keyOf runs now) :
    (window.expireAll now).Keeps keyOf runs now := by
  intro key
  obtain ⟨old, same, left⟩ := keeps key
  rw [timesOf_expireAll]
  exact keeps_expire same left

theorem Keeps.count (keeps : window.Keeps keyOf runs now) (key : SourceKey) :
    (window.count key now).2.Keeps keyOf runs now := by
  intro other
  obtain ⟨old, same, left⟩ := keeps other
  rw [timesOf_count]
  split
  · exact keeps_expire same left
  · exact ⟨old, same, left⟩

theorem Keeps.record (keeps : window.Keeps keyOf runs now) (source : SourceKey) :
    (window.record (keyOf source) now).Keeps keyOf (runs ++ [(source, now)]) now := by
  intro key
  obtain ⟨old, same, left⟩ := keeps key
  refine ⟨old, ?_, left⟩
  rw [timesOfRuns_append, timesOfRuns_singleton, timesOf_record, same, List.append_assoc]
  by_cases this : keyOf source = key
  · rw [if_pos this, if_pos this.symm]
  · rw [if_neg this, if_neg (Ne.symm this)]

/-- Where a window has room for another run, so has every stretch up to now. -/
theorem Keeps.few_record (keeps : window.Keeps keyOf runs now) (few : Few keyOf limit runs)
    {source : SourceKey} (room : (window.count (keyOf source) now).1 < limit) :
    Few keyOf limit (runs ++ [(source, now)]) := by
  intro key since
  rw [timesOfRuns_append, timesOfRuns_singleton, within, List.filter_append, List.length_append]
  have before := few key since
  unfold within at before
  by_cases this : keyOf source = key ∧ since ≤ now ∧ now ≤ since + sourceWindow
  · obtain ⟨rfl, started, ends⟩ := this
    obtain ⟨old, same, left⟩ := keeps (keyOf source)
    obtain ⟨old, same, left⟩ := keeps_expire same left
    rw [count_fst] at room
    have none_ : old.filter (fun time => since ≤ time ∧ time ≤ since + sourceWindow) = [] := by
      refine List.filter_eq_nil_iff.mpr fun time there => ?_
      have gone := left time there
      rw [decide_eq_true_eq]
      rintro ⟨since_le, _⟩
      refine absurd gone (Nat.not_lt.mpr (Nat.sub_le_iff_le_add'.mpr ?_))
      exact ends.trans (Nat.add_le_add_right since_le sourceWindow)
    rw [same, List.filter_append, none_, List.nil_append, if_pos rfl]
    exact (Nat.add_le_add (List.length_filter_le _ _) (List.length_filter_le _ _)).trans room
  · have none_ : (if keyOf source = key then [now] else []).filter
        (fun time => since ≤ time ∧ time ≤ since + sourceWindow) = [] := by
      split
      · rename_i mine
        refine List.filter_eq_nil_iff.mpr fun time there => ?_
        rw [List.mem_singleton] at there
        subst there
        simp only [decide_eq_true_eq]
        exact fun inside => this ⟨mine, inside⟩
      · rfl
    rw [none_]
    exact before

/-- The last entry of a key is a run's own, if there is any. -/
def OwnLast (window : RunWindow) (key : SourceKey) (time : Instant) : Prop :=
  (window.timesOf key).getLast?.all (· = time) = true

instance (window : RunWindow) (key : SourceKey) (time : Instant) :
    Decidable (window.OwnLast key time) :=
  inferInstanceAs (Decidable (_ = true))

/-- Forgiving a run takes out its own entry, if it is still there, and no other. -/
def TakesOwn (window : RunWindow) (key : SourceKey) (time : Instant) : Prop :=
  ∀ other, (window.forgive key).timesOf other =
    if other = key then (window.timesOf other).erase time else window.timesOf other

theorem takesOwn_iff {key : SourceKey} {time : Instant}
    (inOrder : (window.timesOf key).Pairwise (· ≤ ·)) :
    window.TakesOwn key time ↔ window.OwnLast key time := by
  unfold OwnLast
  rw [← dropLast_eq_erase_iff inOrder]
  constructor
  · intro takes
    have own := takes key
    rw [timesOf_forgive, if_pos rfl, if_pos rfl] at own
    exact own
  · intro own other
    rw [timesOf_forgive]
    split
    · rename_i same
      rw [same]
      exact own
    · rfl

theorem Keeps.inOrder (keeps : window.Keeps keyOf runs now)
    (inOrder : (runs.map Prod.snd).Pairwise (· ≤ ·)) (key : SourceKey) :
    (window.timesOf key).Pairwise (· ≤ ·) := by
  obtain ⟨old, same, _⟩ := keeps key
  have all : (timesOfRuns keyOf key runs).Pairwise (· ≤ ·) := inOrder_timesOfRuns inOrder
  rw [same] at all
  exact (List.pairwise_append.mp all).2.1

theorem Keeps.forgive (keeps : window.Keeps keyOf runs now)
    (inOrder : (runs.map Prod.snd).Pairwise (· ≤ ·)) {index : Nat} {source : SourceKey}
    {time : Instant} (found : runs[index]? = some (source, time))
    (own : window.OwnLast (keyOf source) time) :
    (window.forgive (keyOf source)).Keeps keyOf (runs.eraseIdx index) now := by
  obtain ⟨inside, there⟩ := List.getElem?_eq_some_iff.mp found
  have split : runs = runs.take index ++ (source, time) :: runs.drop (index + 1) := by
    rw [← there, List.getElem_cons_drop, List.take_append_drop]
  intro key
  obtain ⟨old, same, left⟩ := keeps key
  have sorted : (timesOfRuns keyOf key runs).Pairwise (· ≤ ·) := inOrder_timesOfRuns inOrder
  have sorted' : (timesOfRuns keyOf key (runs.eraseIdx index)).Pairwise (· ≤ ·) :=
    inOrder_timesOfRuns (inOrder.sublist ((List.eraseIdx_sublist runs index).map _))
  rw [timesOf_forgive]
  split
  · rename_i mine
    subst mine
    have perm : (timesOfRuns keyOf (keyOf source) runs).Perm
        (time :: timesOfRuns keyOf (keyOf source) (runs.eraseIdx index)) := by
      conv_lhs => rw [split]
      rw [List.eraseIdx_eq_take_drop_succ, timesOfRuns_append, timesOfRuns_append,
        ← List.singleton_append, timesOfRuns_append, timesOfRuns_singleton, if_pos rfl]
      exact List.perm_middle
    rw [same] at perm sorted
    rcases List.eq_nil_or_concat (window.timesOf (keyOf source)) with empty | ⟨rest, last, ends⟩
    · rw [empty, List.append_nil] at perm
      rw [empty, List.dropLast_nil]
      refine ⟨_, (List.append_nil _).symm, fun other there => left other ?_⟩
      exact perm.mem_iff.mpr (List.mem_cons_of_mem _ there)
    · rw [List.concat_eq_append] at ends
      have last_eq : last = time := by
        rw [OwnLast, ends, List.getLast?_concat, Option.all_some, decide_eq_true_eq] at own
        exact own
      rw [ends, ← List.append_assoc] at perm sorted
      rw [last_eq] at perm
      rw [ends, List.dropLast_concat]
      refine ⟨old, ?_, left⟩
      have rest_perm := ((List.perm_append_singleton time (old ++ rest)).symm.trans perm).cons_inv
      exact eq_of_perm_of_inOrder rest_perm.symm sorted' (List.pairwise_append.mp sorted).1
  · rename_i other
    refine ⟨old, ?_, left⟩
    rw [← same]
    conv_rhs => rw [split]
    rw [List.eraseIdx_eq_take_drop_succ, timesOfRuns_append, timesOfRuns_append,
      ← List.singleton_append, timesOfRuns_append, timesOfRuns_singleton, if_neg (Ne.symm other),
      List.nil_append]

end RunWindow

theorem Few.sublist {keyOf : SourceKey → SourceKey} {limit : Nat}
    {runs fewer : List (SourceKey × Instant)} (few : Few keyOf limit runs)
    (less : fewer.Sublist runs) : Few keyOf limit fewer := by
  intro key since
  exact ((((less.filter _).map _).filter _).length_le).trans (few key since)

/-! ### Limiters -/

namespace SourceLimiter

/-- All three windows hold the runs that have not left them. -/
structure Keeps (limiter : SourceLimiter) (runs : List (SourceKey × Instant)) (now : Instant) :
    Prop where
  sources : limiter.sources.Keeps id runs now
  networks : limiter.networks.Keeps SourceKey.network runs now
  regions : limiter.regions.Keeps SourceKey.region runs now

/-- No stretch of the window's length holds more runs than are allowed. -/
structure Limited (runs : List (SourceKey × Instant)) : Prop where
  sources : Few id sourceRuns runs
  networks : Few SourceKey.network networkRuns runs
  regions : Few SourceKey.region regionRuns runs

variable {limiter : SourceLimiter} {runs : List (SourceKey × Instant)} {now : Instant}

theorem Keeps.sweep (keeps : limiter.Keeps runs now) : (limiter.sweep now).Keeps runs now := by
  unfold SourceLimiter.sweep
  split
  · exact ⟨keeps.sources.expireAll, keeps.networks.expireAll, keeps.regions.expireAll⟩
  · exact keeps

/-- A run is admitted where all three windows have room for it. -/
theorem Keeps.begin (keeps : limiter.Keeps runs now) (limited : Limited runs) (source : SourceKey) :
    let (admitted, after) := limiter.begin source now
    let runs := if admitted then runs ++ [(source, now)] else runs
    after.Keeps runs now ∧ Limited runs := by
  have keeps := keeps.sweep
  unfold SourceLimiter.begin
  generalize limiter.sweep now = limiter at keeps
  have sources := keeps.sources.count source
  have networks := keeps.networks.count source.network
  have regions := keeps.regions.count source.region
  dsimp only
  split
  · exact ⟨⟨sources, keeps.networks, keeps.regions⟩, limited⟩
  · rename_i roomAtSource
    split
    · exact ⟨⟨sources, networks, keeps.regions⟩, limited⟩
    · rename_i roomAtNetwork
      split
      · exact ⟨⟨sources, networks, regions⟩, limited⟩
      · rename_i roomAtRegion
        refine ⟨⟨sources.record source, networks.record source, regions.record source⟩, ?_⟩
        exact
          { sources := keeps.sources.few_record limited.sources (not_le.mp roomAtSource)
            networks := keeps.networks.few_record limited.networks (not_le.mp roomAtNetwork)
            regions := keeps.regions.few_record limited.regions (not_le.mp roomAtRegion) }

/-- A run's own entry is the last of all three of its queues, or they are empty. -/
structure OwnLast (limiter : SourceLimiter) (source : SourceKey) (time : Instant) : Prop where
  sources : limiter.sources.OwnLast source time
  networks : limiter.networks.OwnLast source.network time
  regions : limiter.regions.OwnLast source.region time

instance (limiter : SourceLimiter) (source : SourceKey) (time : Instant) :
    Decidable (limiter.OwnLast source time) :=
  decidable_of_iff (limiter.sources.OwnLast source time ∧
      limiter.networks.OwnLast source.network time ∧ limiter.regions.OwnLast source.region time)
    ⟨fun own => ⟨own.1, own.2.1, own.2.2⟩, fun own => ⟨own.sources, own.networks, own.regions⟩⟩

/-- Forgiving a run takes out its own entry of all three windows, and no other. -/
def TakesOwn (limiter : SourceLimiter) (source : SourceKey) (time : Instant) : Prop :=
  limiter.sources.TakesOwn source time ∧ limiter.networks.TakesOwn source.network time ∧
    limiter.regions.TakesOwn source.region time

end SourceLimiter

/-! ### The main result -/

namespace Enrolling

/-- What holds as long as every run that is forgiven has its own entry last. -/
structure Agrees (enrolling : Enrolling) : Prop where
  inOrder : (enrolling.runs.map Prod.snd).Pairwise (· ≤ ·)
  past : ∀ run ∈ enrolling.runs, run.2 ≤ enrolling.now
  keeps : enrolling.limiter.Keeps enrolling.runs enrolling.now
  limited : SourceLimiter.Limited enrolling.runs

/-- Time does not go back, and a run that is forgiven has its own entry last. -/
def Proceeds (enrolling : Enrolling) : Input → Prop
  | .begin _ now => enrolling.now ≤ now
  | .forgive index => ∀ source time, enrolling.runs[index]? = some (source, time) →
      enrolling.limiter.OwnLast source time

theorem agrees_start : ({} : Enrolling).Agrees where
  inOrder := List.Pairwise.nil
  past := nofun
  keeps := ⟨fun _ => ⟨[], rfl, nofun⟩, fun _ => ⟨[], rfl, nofun⟩, fun _ => ⟨[], rfl, nofun⟩⟩
  limited := ⟨fun _ _ => Nat.zero_le _, fun _ _ => Nat.zero_le _, fun _ _ => Nat.zero_le _⟩

theorem Agrees.step {enrolling : Enrolling} (agrees : enrolling.Agrees) (input : Input)
    (proceeds : enrolling.Proceeds input) : (enrolling.step input).Agrees := by
  cases input with
  | begin source now =>
    have later : enrolling.now ≤ now := proceeds
    have waited : enrolling.limiter.Keeps enrolling.runs now :=
      ⟨agrees.keeps.sources.wait later, agrees.keeps.networks.wait later,
        agrees.keeps.regions.wait later⟩
    have begun := waited.begin agrees.limited source
    have past : ∀ run ∈ enrolling.runs, run.2 ≤ now :=
      fun run there => (agrees.past run there).trans later
    unfold Enrolling.step
    dsimp only at begun ⊢
    refine ⟨?_, ?_, begun.1, begun.2⟩
    · split
      · rw [List.map_append, List.pairwise_append]
        refine ⟨agrees.inOrder, List.pairwise_singleton _ _, fun time there last mem => ?_⟩
        obtain ⟨run, mine, rfl⟩ := List.mem_map.mp there
        rw [List.mem_singleton.mp mem]
        exact past run mine
      · exact agrees.inOrder
    · split
      · intro run there
        obtain there | there := List.mem_append.mp there
        · exact past run there
        · rw [List.mem_singleton.mp there]
      · exact past
  | forgive index =>
    unfold Enrolling.step
    dsimp only
    cases found : enrolling.runs[index]? with
    | none => exact agrees
    | some run =>
      obtain ⟨source, time⟩ := run
      have own := proceeds source time found
      have fewer := List.eraseIdx_sublist enrolling.runs index
      refine ⟨agrees.inOrder.sublist (fewer.map _), fun run there => ?_, ?_, ?_⟩
      · exact agrees.past run (fewer.subset there)
      · exact
          { sources := agrees.keeps.sources.forgive agrees.inOrder found own.sources
            networks := agrees.keeps.networks.forgive agrees.inOrder found own.networks
            regions := agrees.keeps.regions.forgive agrees.inOrder found own.regions }
      · exact
          { sources := agrees.limited.sources.sublist fewer
            networks := agrees.limited.networks.sublist fewer
            regions := agrees.limited.regions.sublist fewer }

/-- As long as every run that is forgiven has its own entry last, every stretch of the window's
length holds at most as many runs, admitted and not forgiven, as are allowed. Forgiving a run
takes out its own entry and no other exactly if its own is the last. -/
theorem run_limited {inputs : List Input} (along : Along step Proceeds {} inputs) :
    let enrolling := run step {} inputs
    SourceLimiter.Limited enrolling.runs ∧
      ∀ (index : Nat) source time, enrolling.runs[index]? = some (source, time) →
        (enrolling.limiter.TakesOwn source time ↔ enrolling.limiter.OwnLast source time) := by
  intro enrolling
  have agrees : enrolling.Agrees :=
    along.invariant Agrees agrees_start fun _ input agrees => agrees.step input
  refine ⟨agrees.limited, fun index source time _ => ?_⟩
  have sources := agrees.keeps.sources.inOrder agrees.inOrder source
  have networks := agrees.keeps.networks.inOrder agrees.inOrder source.network
  have regions := agrees.keeps.regions.inOrder agrees.inOrder source.region
  unfold SourceLimiter.TakesOwn
  rw [RunWindow.takesOwn_iff sources, RunWindow.takesOwn_iff networks,
    RunWindow.takesOwn_iff regions]
  exact ⟨fun own => ⟨own.1, own.2.1, own.2.2⟩, fun own => ⟨own.sources, own.networks, own.regions⟩⟩

/-- A run begins, a second one as the first leaves the window, the first is forgiven, and ten
more begin. -/
def overlapping : List Input :=
  [.begin (.v4 7) 0, .begin (.v4 7) sourceWindow, .forgive 0] ++
    List.replicate 10 (.begin (.v4 7) (sourceWindow + 1))

/-- Eleven runs of one source, none of them forgiven, begin within the window. -/
theorem eleven_runs :
    (within sourceWindow
      (timesOfRuns id (.v4 7) (run step {} overlapping).runs)).length = 11 := by
  decide +kernel

/-- A run is forgiven before the next one begins. -/
theorem run_limited_forgiven :
    let inputs := [Input.begin (.v4 7) 0, .forgive 0, .begin (.v4 7) 1]
    SourceLimiter.Limited (run step {} inputs).runs ∧
      (run step {} inputs).limiter.TakesOwn (.v4 7) 1 := by
  have along : Along step Proceeds {} [Input.begin (.v4 7) 0, .forgive 0, .begin (.v4 7) 1] := by
    refine ⟨Nat.le_refl 0, ?_, Nat.zero_le 1, trivial⟩
    intro source time found
    have first : (run step {} [Input.begin (.v4 7) 0]).runs[0]? = some (.v4 7, 0) := by
      decide +kernel
    obtain ⟨rfl, rfl⟩ := Prod.mk.inj (Option.some.inj (first.symm.trans found))
    decide +kernel
  have limited := run_limited along
  exact ⟨limited.1, (limited.2 0 (.v4 7) 1 (by decide +kernel)).mpr (by decide +kernel)⟩

end Enrolling

end Throcc
