/-
This file embeds the gates that bound how many connections are handled at once,
per source, per network and in total, and proves that a gate counts exactly the
passes that are held and that nobody waits at it in vain. Whoever waits listens
for the bell before they try the gate; whoever leaves rings it after they are
counted out. So a waiter who sleeps through a free place has a bell coming.
-/

import Throcc.Run
import Throcc.Sources
import Throcc.Counter

namespace Throcc

/-! ### Gates -/

/-- How many holders a gate admits at once. -/
structure Caps where
  perSource : Nat
  perNetwork : Nat
  total : Nat
deriving DecidableEq, Repr

structure Counts where
  total : Nat := 0
  sources : Counter SourceKey := ∅
  networks : Counter SourceKey := ∅

namespace Counts

variable (caps : Caps) (counts : Counts) (source : SourceKey)

/-- Whether a cap is reached for `source`. -/
def full : Bool :=
  caps.total ≤ counts.total ∨ caps.perSource ≤ counts.sources.count source ∨
    caps.perNetwork ≤ counts.networks.count source.network

/-- Admits `source` if no cap is reached. -/
def tryEnter : Option Counts :=
  if counts.full caps source then
    none
  else
    some
      { total := counts.total + 1
        sources := counts.sources.add source
        networks := counts.networks.add source.network }

def leave : Counts where
  total := counts.total - 1
  sources := counts.sources.remove source
  networks := counts.networks.remove source.network

end Counts

/-- A task in `Gate::enter`. -/
structure Waiter where
  source : SourceKey
  /-- It has tried the gate since it began to listen, and sleeps. -/
  asleep : Bool := false
  /-- The bell has rung since it began to listen. -/
  rung : Bool := false
deriving DecidableEq, Repr

/-- A gate, the passes held, and who is coming and going. -/
structure Doorway where
  counts : Counts := {}
  held : List SourceKey := []
  /-- How many have been counted out and are yet to ring the bell. -/
  leaving : Nat := 0
  waiters : Map Nat Waiter := ∅

namespace Doorway

inductive Turn where
  /-- `Gate::try_enter` -/
  | tryEnter (source : SourceKey)
  /-- A task begins to wait: it listens for the bell. -/
  | arrive (id : Nat) (source : SourceKey)
  /-- A waiting task tries the gate, and sleeps if it isn't admitted. -/
  | attempt (id : Nat)
  /-- A task that heard the bell listens anew. -/
  | wake (id : Nat)
  /-- A waiting task is dropped. -/
  | giveUp (id : Nat)
  /-- A pass is dropped: it is counted out. -/
  | leave (source : SourceKey)
  /-- Whoever has been counted out rings the bell. -/
  | ring

variable (caps : Caps)

/-- Counts `source` in, if no cap is reached. -/
def tryEnter (doorway : Doorway) (source : SourceKey) : Option Doorway :=
  (doorway.counts.tryEnter caps source).map fun counts =>
    { doorway with counts, held := source :: doorway.held }

def step (doorway : Doorway) : Turn → Doorway
  | .tryEnter source => (doorway.tryEnter caps source).getD doorway
  | .arrive id source =>
    if id ∈ doorway.waiters then doorway
    else { doorway with waiters := doorway.waiters.insert id { source } }
  | .attempt id =>
    match doorway.waiters.lookup id with
    | none => doorway
    | some waiter =>
      if waiter.asleep then doorway
      else
        match doorway.tryEnter caps waiter.source with
        | some doorway => { doorway with waiters := doorway.waiters.erase id }
        | none =>
          { doorway with waiters := doorway.waiters.insert id { waiter with asleep := true } }
  | .wake id =>
    match doorway.waiters.lookup id with
    | none => doorway
    | some waiter =>
      if waiter.asleep ∧ waiter.rung then
        { doorway with waiters := doorway.waiters.insert id { source := waiter.source } }
      else
        doorway
  | .giveUp id => { doorway with waiters := doorway.waiters.erase id }
  | .leave source =>
    if source ∈ doorway.held then
      { doorway with
        counts := doorway.counts.leave source
        held := doorway.held.erase source
        leaving := doorway.leaving + 1 }
    else
      doorway
  | .ring =>
    if doorway.leaving = 0 then doorway
    else
      { doorway with
        leaving := doorway.leaving - 1
        waiters := doorway.waiters.mapValues fun _ waiter => { waiter with rung := true } }

/-! ### What the gate counts -/

/-- The caps leave a place for `source` beside the passes held. -/
def Free (held : List SourceKey) (source : SourceKey) : Prop :=
  held.length < caps.total ∧ held.count source < caps.perSource ∧
    (held.map SourceKey.network).count source.network < caps.perNetwork

instance (held : List SourceKey) (source : SourceKey) : Decidable (Free caps held source) :=
  inferInstanceAs (Decidable (_ ∧ _))

/-- The passes held keep to the caps. -/
structure Within (held : List SourceKey) : Prop where
  total : held.length ≤ caps.total
  source : ∀ source, held.count source ≤ caps.perSource
  network : ∀ network, (held.map SourceKey.network).count network ≤ caps.perNetwork

/-- What holds of a gate at all times. -/
structure Sound (doorway : Doorway) : Prop where
  total : doorway.counts.total = doorway.held.length
  sources : doorway.counts.sources.Counts doorway.held
  networks : doorway.counts.networks.Counts (doorway.held.map SourceKey.network)
  within : Within caps doorway.held
  woken : doorway.leaving = 0 → ∀ id waiter, doorway.waiters.lookup id = some waiter →
    waiter.asleep = true → waiter.rung = false → ¬ Free caps doorway.held waiter.source

variable {caps} {doorway : Doorway}

theorem free_iff (sound : doorway.Sound caps) (source : SourceKey) :
    doorway.counts.full caps source = false ↔ Free caps doorway.held source := by
  unfold Counts.full Free
  rw [decide_eq_false_iff_not, sound.total, sound.sources.count, sound.networks.count]
  omega

theorem admit_of_free (sound : doorway.Sound caps) {source : SourceKey}
    (free : Free caps doorway.held source) :
    ∃ next, doorway.tryEnter caps source = some next ∧ next.held = source :: doorway.held ∧
      next.leaving = doorway.leaving ∧ next.waiters = doorway.waiters := by
  unfold tryEnter Counts.tryEnter
  rw [(free_iff sound source).mpr free, if_neg Bool.false_ne_true]
  exact ⟨_, rfl, rfl, rfl, rfl⟩

theorem admit_of_not_free (sound : doorway.Sound caps) {source : SourceKey}
    (taken : ¬ Free caps doorway.held source) : doorway.tryEnter caps source = none := by
  unfold tryEnter Counts.tryEnter
  rw [if_pos (Bool.eq_true_of_not_eq_false (mt (free_iff sound source).mp taken))]
  rfl

/-- With one more pass held there are no more free places. -/
theorem Free.of_cons {held : List SourceKey} {source other : SourceKey}
    (free : Free caps (source :: held) other) : Free caps held other := by
  obtain ⟨total, count, network⟩ := free
  rw [List.map_cons] at network
  exact ⟨(Nat.lt_succ_self _).trans total, (List.count_le_count_cons).trans_lt count,
    (List.count_le_count_cons).trans_lt network⟩

theorem Free.within {held : List SourceKey} {source : SourceKey} (free : Free caps held source)
    (within : Within caps held) : Within caps (source :: held) where
  total := free.1
  source other := by
    rw [List.count_cons]
    by_cases same : source = other
    · rw [← same, beq_self_eq_true, if_pos rfl]
      exact free.2.1
    · rw [beq_eq_false_iff_ne.mpr same, if_neg Bool.false_ne_true]
      exact within.source other
  network other := by
    rw [List.map_cons, List.count_cons]
    by_cases same : source.network = other
    · rw [← same, beq_self_eq_true, if_pos rfl]
      exact free.2.2
    · rw [beq_eq_false_iff_ne.mpr same, if_neg Bool.false_ne_true]
      exact within.network other

theorem Sound.tryEnter (sound : doorway.Sound caps) {source : SourceKey} {next : Doorway}
    (admitted : doorway.tryEnter caps source = some next) :
    next.Sound caps ∧ next.waiters = doorway.waiters := by
  have free : Free caps doorway.held source := by
    by_contra taken
    rw [admit_of_not_free sound taken] at admitted
    cases admitted
  unfold Doorway.tryEnter Counts.tryEnter at admitted
  rw [(free_iff sound source).mpr free, if_neg Bool.false_ne_true] at admitted
  obtain rfl := Option.some.inj admitted
  refine ⟨⟨congrArg (· + 1) sound.total, sound.sources.add source,
    sound.networks.add source.network, free.within sound.within, ?_⟩, rfl⟩
  exact fun rung id waiter found sleeps unrung free =>
    sound.woken rung id waiter found sleeps unrung free.of_cons

/-- A waiter put in the place of another is no sleeper who could be let in. -/
theorem Sound.insert (sound : doorway.Sound caps) (id : Nat) {waiter : Waiter}
    (woken : waiter.asleep = true → ¬ Free caps doorway.held waiter.source) :
    ({ doorway with waiters := doorway.waiters.insert id waiter } : Doorway).Sound caps := by
  refine { sound with woken := fun rung other waiting found sleeps unrung => ?_ }
  dsimp only at found
  rw [Map.lookup_insert_ite] at found
  split at found
  · obtain rfl := Option.some.inj found
    exact woken sleeps
  · exact sound.woken rung other waiting found sleeps unrung

theorem Sound.erase (sound : doorway.Sound caps) (id : Nat) :
    ({ doorway with waiters := doorway.waiters.erase id } : Doorway).Sound caps := by
  refine { sound with woken := fun rung other waiting found sleeps unrung => ?_ }
  dsimp only at found
  rw [Map.lookup_erase_ite] at found
  split at found
  · cases found
  · exact sound.woken rung other waiting found sleeps unrung

theorem Sound.leave (sound : doorway.Sound caps) {source : SourceKey}
    (member : source ∈ doorway.held) :
    ({ doorway with
      counts := doorway.counts.leave source
      held := doorway.held.erase source
      leaving := doorway.leaving + 1 } : Doorway).Sound caps where
  total := by
    show doorway.counts.total - 1 = _
    rw [sound.total, List.length_erase_of_mem member]
  sources := sound.sources.remove member
  networks := sound.networks.remove_map member
  within := by
    have fewer : (doorway.held.erase source).Sublist doorway.held := List.erase_sublist
    exact ⟨fewer.length_le.trans sound.within.total,
      fun other => (fewer.count_le other).trans (sound.within.source other),
      fun other => ((fewer.map _).count_le other).trans (sound.within.network other)⟩
  woken := nofun

theorem Sound.ring (sound : doorway.Sound caps) :
    ({ doorway with
      leaving := doorway.leaving - 1
      waiters := doorway.waiters.mapValues fun _ waiter => { waiter with rung := true } } :
      Doorway).Sound caps := by
  refine { sound with woken := fun _ id waiter found _ unrung => ?_ }
  dsimp only at found
  rw [Map.lookup_mapValues] at found
  obtain ⟨before, _, rfl⟩ := Option.map_eq_some_iff.mp found
  cases unrung

theorem sound_new : ({} : Doorway).Sound caps where
  total := rfl
  sources := Counter.counts_empty
  networks := Counter.counts_empty
  within := ⟨Nat.zero_le _, fun _ => Nat.zero_le _, fun _ => Nat.zero_le _⟩
  woken _ _ _ found := by cases found

theorem Sound.step (sound : doorway.Sound caps) (turn : Turn) : (step caps doorway turn).Sound caps := by
  cases turn with
  | tryEnter source =>
    cases admitted : doorway.tryEnter caps source with
    | none =>
      show ((doorway.tryEnter caps source).getD doorway).Sound caps
      rw [admitted]
      exact sound
    | some next =>
      show ((doorway.tryEnter caps source).getD doorway).Sound caps
      rw [admitted]
      exact (sound.tryEnter admitted).1
  | arrive id source =>
    unfold Doorway.step
    dsimp only
    split
    · exact sound
    · exact sound.insert id nofun
  | attempt id =>
    unfold Doorway.step
    dsimp only
    split
    · exact sound
    · rename_i waiter found
      split
      · exact sound
      · split
        · rename_i next admitted
          exact (sound.tryEnter admitted).1.erase id
        · rename_i refused
          refine sound.insert id fun _ free => ?_
          obtain ⟨next, admitted, _⟩ := admit_of_free sound free
          exact nomatch refused.symm.trans admitted
  | wake id =>
    unfold Doorway.step
    dsimp only
    split
    · exact sound
    · split
      · exact sound.insert id nofun
      · exact sound
  | giveUp id => exact sound.erase id
  | leave source =>
    unfold Doorway.step
    dsimp only
    split
    · rename_i member
      exact sound.leave member
    · exact sound
  | ring =>
    unfold Doorway.step
    dsimp only
    split
    · exact sound
    · exact sound.ring

/-- A waiter that isn't asleep and for whom there is a place takes it. -/
theorem Sound.attempt (sound : doorway.Sound caps) {id : Nat} {waiter : Waiter}
    (waits : doorway.waiters.lookup id = some waiter) (awake : waiter.asleep = false)
    (free : Free caps doorway.held waiter.source) :
    (Doorway.step caps doorway (.attempt id)).held = waiter.source :: doorway.held ∧
      id ∉ (Doorway.step caps doorway (.attempt id)).waiters := by
  obtain ⟨next, admitted, held, _, _⟩ := admit_of_free sound free
  have same : Doorway.step caps doorway (.attempt id) =
      { next with waiters := next.waiters.erase id } := by
    unfold Doorway.step
    dsimp only
    rw [waits]
    dsimp only
    rw [awake, if_neg Bool.false_ne_true, admitted]
  rw [same]
  exact ⟨held, Finmap.notMem_erase_self⟩

/-- A waiter for whom there is a place, when no bell is still to ring, takes it once it is its
turn: it wakes if it sleeps, and tries the gate. -/
theorem Sound.gets_in (sound : doorway.Sound caps) (quiet : doorway.leaving = 0) {id : Nat}
    {waiter : Waiter} (waits : doorway.waiters.lookup id = some waiter)
    (free : Free caps doorway.held waiter.source) :
    let after := run (Doorway.step caps) doorway [.wake id, .attempt id]
    after.held = waiter.source :: doorway.held ∧ id ∉ after.waiters := by
  intro after
  rw [show after = Doorway.step caps (Doorway.step caps doorway (.wake id)) (.attempt id) from rfl]
  cases sleeps : waiter.asleep with
  | false =>
    have same : Doorway.step caps doorway (.wake id) = doorway := by
      unfold Doorway.step
      dsimp only
      rw [waits]
      dsimp only
      rw [sleeps, if_neg fun wakes => Bool.false_ne_true wakes.1]
    rw [same]
    exact sound.attempt waits sleeps free
  | true =>
    have rung : waiter.rung = true := by
      by_contra unrung
      exact sound.woken quiet id waiter waits sleeps (Bool.eq_false_iff.mpr unrung) free
    have same : Doorway.step caps doorway (.wake id) =
        { doorway with waiters := doorway.waiters.insert id { source := waiter.source } } := by
      unfold Doorway.step
      dsimp only
      rw [waits]
      dsimp only
      rw [if_pos ⟨sleeps, rung⟩]
    rw [same]
    have anew := @Sound.insert caps doorway sound id { source := waiter.source } nofun
    exact @Sound.attempt caps _ anew id { source := waiter.source } (Finmap.lookup_insert _) rfl free

theorem sound_run (turns : List Turn) : (run (step caps) {} turns).Sound caps :=
  run_invariant (step caps) (Sound caps) sound_new (fun _ turn sound => sound.step turn) turns

variable (caps) in
/-- A gate admits a source exactly if the passes held leave it a place below every cap, and
whoever waits while they do takes that place at their next turns, unless a bell is yet to ring. -/
theorem run_gate (turns : List Turn) :
    let doorway := run (step caps) {} turns
    Within caps doorway.held ∧
      (∀ source, (doorway.tryEnter caps source).isSome = true ↔ Free caps doorway.held source) ∧
      ∀ id waiter, doorway.waiters.lookup id = some waiter →
        Free caps doorway.held waiter.source → doorway.leaving = 0 →
        let after := run (step caps) doorway [.wake id, .attempt id]
        after.held = waiter.source :: doorway.held ∧ id ∉ after.waiters := by
  intro doorway
  have sound : doorway.Sound caps := sound_run turns
  refine ⟨sound.within, fun source => ⟨fun admitted => ?_, fun free => ?_⟩,
    fun id waiter waits free quiet => sound.gets_in quiet waits free⟩
  · by_contra taken
    rw [admit_of_not_free sound taken] at admitted
    cases admitted
  · obtain ⟨next, admitted, _⟩ := admit_of_free sound free
    rw [admitted]
    rfl

/-- A source waits for another one of its network, which leaves. -/
def waitsForNeighbour : List Turn :=
  [.tryEnter (.v4 1), .arrive 0 (.v4 2), .attempt 0, .leave (.v4 1), .ring]

theorem run_gate_neighbour :
    let doorway := run (step ⟨1, 1, 2⟩) {} waitsForNeighbour
    let after := run (step ⟨1, 1, 2⟩) doorway [.wake 0, .attempt 0]
    after.held = [.v4 2] ∧ 0 ∉ after.waiters :=
  (run_gate ⟨1, 1, 2⟩ waitsForNeighbour).2.2 0 ⟨.v4 2, true, true⟩ (by decide +kernel)
    (by decide +kernel) (by decide +kernel)

end Doorway

end Throcc
