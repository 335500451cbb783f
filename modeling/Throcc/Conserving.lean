/-
This file follows the datagrams through the queues of one receiver. No operation
on the queues makes a video datagram: what is queued of it afterwards and what
was taken out is at most what was queued and what was put in. None of the video
operations touches the audio queues or what is counted on an audio track.
-/

import Mathlib.Algebra.Order.BigOperators.Group.Finset
import Throcc.Budget

namespace Throcc

/-! ### Units keep what they hold -/

namespace Map

variable {Key Value : Type} [DecidableEq Key] {weigh : Value → Int} {map next : Map Key Value}

theorem total_le (positive : ∀ value, 0 ≤ weigh value)
    (less : ∀ key value, next.lookup key = some value →
      ∃ before, map.lookup key = some before ∧ weigh value ≤ weigh before) :
    next.total weigh ≤ map.total weigh := by
  have fewer : next.keys ⊆ map.keys := fun key member => by
    obtain ⟨value, found⟩ := (mem_keys_iff next key).mp member
    obtain ⟨before, found, -⟩ := less key value found
    exact (mem_keys_iff map key).mpr ⟨before, found⟩
  unfold total
  calc ∑ key ∈ next.keys, (next.lookup key).elim 0 weigh
      ≤ ∑ key ∈ next.keys, (map.lookup key).elim 0 weigh := by
        refine Finset.sum_le_sum fun key member => ?_
        obtain ⟨value, found⟩ := (mem_keys_iff next key).mp member
        obtain ⟨before, there, le⟩ := less key value found
        rw [found, there]
        exact le
    _ ≤ ∑ key ∈ map.keys, (map.lookup key).elim 0 weigh := by
        refine Finset.sum_le_sum_of_subset_of_nonneg fewer fun key _ _ => ?_
        cases map.lookup key with
        | none => exact le_refl 0
        | some value => exact positive value

end Map

/-- How often a unit holds a datagram. -/
def VideoUnit.times (bytes : Datagram) (unit : VideoUnit) : Int := unit.packets.count bytes

/-- How often a datagram is queued in video units. -/
def VideoQueues.times (video : VideoQueues) (bytes : Datagram) : Int :=
  video.started.total (VideoUnit.times bytes) + video.waiting.total (VideoUnit.times bytes)

theorem VideoUnit.times_nonneg (bytes : Datagram) (unit : VideoUnit) : 0 ≤ unit.times bytes :=
  Int.natCast_nonneg _

theorem VideoUnit.Uncopied.mediaId {unit after : VideoUnit} (alike : unit.Uncopied after) :
    after.mediaId = unit.mediaId := by
  unfold VideoUnit.Uncopied at alike
  rw [alike]

namespace Queues

/-! ### What video operations leave alone -/

/-- Only units of video tracks are queued. -/
def Filmed (kind : MediaId → TrackKind) (queues : Queues) : Prop :=
  ∀ id unit, queues.Queued id unit → kind unit.mediaId = .video

/-- The audio queues and the counters of audio tracks are the same. -/
structure Spared (kind : MediaId → TrackKind) (queues next : Queues) : Prop where
  audio : next.audio = queues.audio
  stats : ∀ track, kind track = .audio → next.stats.lookup track = queues.stats.lookup track

variable {kind : MediaId → TrackKind} {queues next last : Queues}

theorem Spared.refl (queues : Queues) : Spared kind queues queues := ⟨rfl, fun _ _ => rfl⟩

theorem Spared.trans (first : Spared kind queues next) (second : Spared kind next last) :
    Spared kind queues last where
  audio := second.audio.trans first.audio
  stats := fun track audio => (second.stats track audio).trans (first.stats track audio)

theorem Spared.of_eq (audio : next.audio = queues.audio) (stats : next.stats = queues.stats) :
    Spared kind queues next :=
  ⟨audio, fun _ _ => stats ▸ rfl⟩

theorem Filmed.thin (filmed : queues.Filmed kind) (thins : queues.Thins next) :
    next.Filmed kind := by
  rintro id unit (running | resting)
  · obtain ⟨before, found, alike⟩ := thins.started id unit running
    rw [alike.mediaId]
    exact filmed id before (.inl found)
  · obtain ⟨before, found, alike⟩ := thins.waiting id unit resting
    rw [alike.mediaId]
    exact filmed id before (.inr found)

theorem Thins.times_le (thins : queues.Thins next) (bytes : Datagram) :
    next.times bytes ≤ queues.times bytes := by
  have fewer : ∀ {units left : Map Nat VideoUnit}, (∀ id unit, left.lookup id = some unit →
      ∃ before, units.lookup id = some before ∧ before.Uncopied unit) →
      left.total (VideoUnit.times bytes) ≤ units.total (VideoUnit.times bytes) := by
    refine fun less => Map.total_le (VideoUnit.times_nonneg bytes) fun id unit found => ?_
    obtain ⟨before, found, alike⟩ := less id unit found
    refine ⟨before, found, le_of_eq ?_⟩
    unfold VideoUnit.times
    rw [alike.packets]
  exact add_le_add (fewer thins.started) (fewer thins.waiting)

/-- Counting on a video track spares audio. -/
theorem spared_count (queues : Queues) {mediaId : MediaId} (video : kind mediaId = .video)
    (update : Counters → Counters) : Spared kind queues (queues.count mediaId update) where
  audio := rfl
  stats := fun track audio => by
    have other : track ≠ mediaId := by
      rintro rfl
      rw [audio] at video
      cases video
    exact (Map.lookup_insert_ite ..).trans (if_neg other)

theorem spared_modifyUnit (queues : Queues) (id : Nat) (update : VideoUnit → VideoUnit) :
    Spared kind queues (queues.modifyUnit id update) := by
  unfold modifyUnit
  split
  · exact .of_eq rfl rfl
  · exact .of_eq rfl rfl

theorem spared_finish (queues : Queues) (id : Nat) (fate : Fate) :
    Spared kind queues (queues.finish id fate) := by
  unfold finish
  split
  · exact .refl queues
  · exact .of_eq rfl rfl

theorem spared_countUnit (queues : Queues) {unit : VideoUnit} (video : kind unit.mediaId = .video) :
    Spared kind queues (queues.countUnit unit) := by
  unfold countUnit
  split
  · exact queues.spared_modifyUnit _ _
  · split
    · exact .refl queues
    · exact queues.spared_count video _

theorem Filmed.spared_dropUnit (filmed : queues.Filmed kind) (id : Nat) :
    Spared kind queues (queues.dropUnit id) := by
  unfold Queues.dropUnit
  split
  · exact .refl queues
  · rename_i unit found
    have video := filmed id unit (VideoQueues.queued_of_unit found)
    exact (queues.spared_finish id .dropped).trans (spared_countUnit _ video)

/-- A video packet that never came counts on its own track. -/
theorem Filmed.spared_lose (filmed : queues.Filmed kind) {lost : Lost}
    (isVideo : lost.kind = .video) (video : kind lost.mediaId = .video) :
    Spared kind queues (queues.lose lost) := by
  have drops : ∀ (queues : Queues) (seq : Nat), Spared kind queues
      ((queues.record lost.mediaId seq .dropped).countDrop lost.mediaId) := fun queues seq =>
    (Spared.of_eq rfl rfl : Spared kind queues (queues.record lost.mediaId seq .dropped)).trans
      (spared_count _ video _)
  let active : Queues :=
    { queues with
      activeTracks := insert lost.mediaId queues.activeTracks
      history := queues.history.insert lost.mediaId (queues.historyOf lost.mediaId) }
  have filmed' : active.Filmed kind := filmed
  have entered : Spared kind queues active := .of_eq rfl rfl
  unfold Queues.lose
  rw [isVideo, if_neg (by decide)]
  dsimp only
  split
  · split
    · exact entered
    · exact entered.trans (drops _ _)
  · split
    · exact entered.trans (filmed'.spared_dropUnit _)
    · exact entered.trans (drops _ _)
    · exact entered
    · exact entered.trans (drops _ _)

theorem spared_giveUpIdleUnits (queues : Queues) (now : Instant) :
    Spared kind queues (queues.giveUpIdleUnits now) := by
  have all : ∀ (ids : List Nat) (queues : Queues),
      Spared kind queues (ids.foldl (fun queues id => queues.finish id .sent) queues) := by
    intro ids
    induction ids with
    | nil => exact .refl
    | cons id rest inductionHypothesis =>
      exact fun queues => (queues.spared_finish id .sent).trans (inductionHypothesis _)
  unfold giveUpIdleUnits
  split
  · exact .refl queues
  · have checked : Spared kind queues { queues with nextIdleCheck := some (now + idleCheck) } :=
      .of_eq rfl rfl
    exact checked.trans (all _ _)

theorem Filmed.spared_round (filmed : queues.Filmed kind) {now : Instant}
    (round : Round now queues next) : Spared kind queues next := by
  have skipped : queues.skipStrays.Filmed kind := filmed
  have drops : ∀ victim, Spared kind queues (queues.skipStrays.dropUnit victim) := fun victim =>
    (Spared.of_eq rfl rfl : Spared kind queues queues.skipStrays).trans
      (skipped.spared_dropUnit victim)
  obtain late | excess := round
  · unfold dropLate at late
    split at late
    · obtain ⟨victim, -, rfl⟩ := Option.map_eq_some_iff.mp late
      exact drops victim
    · cases late
  · unfold dropExcess at excess
    split at excess
    · obtain ⟨victim, -, rfl⟩ := Option.map_eq_some_iff.mp excess
      exact drops victim
    · cases excess

theorem Filmed.spared_rounds (filmed : queues.Filmed kind) {round : Queues → Option Queues}
    {now : Instant} (rounds : ∀ before after, round before = some after → Round now before after)
    (fuel : Nat) : Spared kind queues (loop round fuel queues) :=
  (loop_invariant (fun after => after.Filmed kind ∧ Spared kind queues after)
    ⟨filmed, .refl queues⟩
    (fun before after holds dropped =>
      have step := rounds before after dropped
      ⟨holds.1.thin (Thins.round now step), holds.2.trans (holds.1.spared_round step)⟩) fuel).2

theorem Filmed.spared_enforceBudget (filmed : queues.Filmed kind) (now : Instant) :
    Spared kind queues (queues.enforceBudget now) := by
  have idle : Spared kind queues (queues.giveUpIdleUnits now) := queues.spared_giveUpIdleUnits now
  have filmed := filmed.thin (Thins.giveUpIdleUnits queues now)
  have late : Spared kind queues ((queues.giveUpIdleUnits now).dropAllLate now) :=
    idle.trans (filmed.spared_rounds (fun _ _ => Or.inl) _)
  have filmed := filmed.thin (Thins.dropAllLate _ now)
  have excess : Spared kind queues ((queues.giveUpIdleUnits now).dropAllLate now).dropAllExcess :=
    late.trans (filmed.spared_rounds (fun _ _ dropped => .inr dropped : ∀ _ _, _ → Round now _ _) _)
  unfold Queues.enforceBudget
  dsimp only
  split
  · exact excess.trans (.of_eq rfl rfl)
  · exact excess

/-! ### Datagrams come and go -/

/-- A video operation: what is queued afterwards and what it takes out is at most what was
queued and what it puts in. -/
structure Conserves (kind : MediaId → TrackKind) (queues next : Queues)
    (came went : List Datagram) : Prop extends Spared kind queues next where
  filmed : next.Filmed kind
  times : ∀ bytes, next.times bytes + went.count bytes ≤ queues.times bytes + came.count bytes

theorem Thins.conserves (thins : queues.Thins next) (filmed : queues.Filmed kind)
    (spared : Spared kind queues next) : Conserves kind queues next [] [] where
  toSpared := spared
  filmed := filmed.thin thins
  times := fun bytes => add_le_add (thins.times_le bytes) le_rfl

theorem count_singleton (bytes other : Datagram) :
    List.count bytes [other] = if bytes = other then 1 else 0 := by
  by_cases same : bytes = other
  · rw [same, if_pos rfl, List.count_singleton_self]
  · rw [if_neg same]
    exact List.count_eq_zero.mpr fun member => same (List.mem_singleton.mp member)

/-- A unit of one packet is queued behind the others. -/
theorem Consistent.conserves_queueUnit (consistent : queues.Consistent)
    (filmed : queues.Filmed kind) (unit : VideoUnit) {bytes : Datagram}
    (fresh : unit.id = queues.nextId) (packets : unit.packets = [bytes])
    (video : kind unit.mediaId = .video) (started : next.started = queues.started)
    (waiting : next.waiting = queues.waiting.insert unit.id unit)
    (spared : Spared kind queues next) : Conserves kind queues next [bytes] [] where
  toSpared := spared
  filmed := by
    rintro id other (running | resting)
    · rw [started] at running
      exact filmed id other (.inl running)
    · rw [waiting, Map.lookup_insert_ite] at resting
      split at resting
      · cases resting
        exact video
      · exact filmed id other (.inr resting)
  times := fun other => by
    have missing : queues.waiting.lookup unit.id = none := by
      rw [fresh]
      exact consistent.missing.2
    have total : Map.total _ (queues.waiting.insert unit.id unit) = _ :=
      Map.total_insert_of_missing (VideoUnit.times other) missing
    unfold VideoQueues.times
    rw [started, waiting, total, VideoUnit.times, packets, List.count_nil]
    omega

theorem Consistent.conserves_pushFirst (consistent : queues.Consistent)
    (filmed : queues.Filmed kind) {packet : Packet} (video : kind packet.header.mediaId = .video)
    (now : Instant) : Conserves kind queues (queues.pushFirst packet now) [packet.bytes] [] := by
  let seen := (queues.historyOf packet.header.mediaId).lookup packet.header.seq
  let unit : VideoUnit :=
    { VideoUnit.new queues.nextId packet.header.mediaId packet.header.seq packet.bytes now with
      complete := packet.header.flags.contains .last
      copy := seen.isSome && seen ≠ some .dropped }
  refine consistent.conserves_queueUnit filmed unit rfl rfl video rfl rfl ⟨rfl, ?_⟩
  intro track audio
  have uncounted := (queues.spared_count video fun counters =>
    { counters with droppedUnits := counters.droppedUnits - 1 }).stats track audio
  show Finmap.lookup track (if _ then _ else _) = _
  split
  · exact uncounted
  · rfl

theorem Consistent.conserves_pushStray (consistent : queues.Consistent)
    (filmed : queues.Filmed kind) {packet : Packet} (video : kind packet.header.mediaId = .video)
    (now : Instant) : Conserves kind queues (queues.pushStray packet now) [packet.bytes] [] := by
  let unit : VideoUnit :=
    { VideoUnit.new queues.nextId packet.header.mediaId packet.header.seq packet.bytes now with
      complete := true
      stray := true }
  exact consistent.conserves_queueUnit filmed unit rfl rfl video rfl rfl
    ⟨rfl, fun _ _ => rfl⟩

theorem Conserves.more (conserves : Conserves kind queues next [] []) (came : List Datagram) :
    Conserves kind queues next came [] where
  toSpared := conserves.toSpared
  filmed := conserves.filmed
  times := fun bytes => by
    have le := conserves.times bytes
    rw [List.count_nil] at le ⊢
    omega

/-- A queued unit takes a packet. -/
theorem Filmed.conserves_grow (filmed : queues.Filmed kind) {id : Nat} {unit : VideoUnit}
    {bytes : Datagram} {update : VideoUnit → VideoUnit} (found : queues.unit id = some unit)
    (packets : (update unit).packets = unit.packets ++ [bytes])
    (mediaId : (update unit).mediaId = unit.mediaId)
    (started : next.started = (queues.modifyUnit id update).started)
    (waiting : next.waiting = (queues.modifyUnit id update).waiting)
    (spared : Spared kind queues next) : Conserves kind queues next [bytes] [] := by
  have video := filmed id unit (VideoQueues.queued_of_unit found)
  have times : ∀ other, (update unit).times other = unit.times other + [bytes].count other := by
    intro other
    unfold VideoUnit.times
    rw [packets, List.count_append, Nat.cast_add]
  obtain running | ⟨missing, resting⟩ := Option.or_eq_some_iff.mp found
  · rw [modifyUnit_started update running] at started waiting
    dsimp only at started waiting
    refine ⟨spared, ?_, fun other => ?_⟩
    · rintro key other (there | there)
      · rw [started, Map.lookup_insert_ite] at there
        split at there
        · cases there
          rw [mediaId]
          exact video
        · exact filmed key other (.inl there)
      · rw [waiting] at there
        exact filmed key other (.inr there)
    · have total : Map.total _ (queues.started.insert id (update unit)) = _ :=
        Map.total_insert (VideoUnit.times other) running
      unfold VideoQueues.times
      rw [started, waiting, total, times, List.count_nil]
      omega
  · rw [modifyUnit_waiting update missing resting] at started waiting
    dsimp only at started waiting
    refine ⟨spared, ?_, fun other => ?_⟩
    · rintro key other (there | there)
      · rw [started] at there
        exact filmed key other (.inl there)
      · rw [waiting, Map.lookup_insert_ite] at there
        split at there
        · cases there
          rw [mediaId]
          exact video
        · exact filmed key other (.inr there)
    · have total : Map.total _ (queues.waiting.insert id (update unit)) = _ :=
        Map.total_insert (VideoUnit.times other) resting
      unfold VideoQueues.times
      rw [started, waiting, total, times, List.count_nil]
      omega

theorem Filmed.conserves_pushFragment (filmed : queues.Filmed kind) (id : Nat) (packet : Packet)
    (now : Instant) :
    Conserves kind queues (queues.pushFragment id packet now) [packet.bytes] [] := by
  unfold Queues.pushFragment
  cases found : queues.unit id with
  | none => exact ((Thins.refl queues).conserves filmed (.refl queues)).more _
  | some unit =>
    dsimp only
    split
    · exact ((Thins.dropUnit queues id).conserves filmed (filmed.spared_dropUnit id)).more _
    · have spared : ∀ update, Spared kind queues (queues.modifyUnit id update) :=
        queues.spared_modifyUnit id
      exact filmed.conserves_grow found rfl rfl rfl rfl ⟨(spared _).audio, (spared _).stats⟩

theorem Consistent.conserves_pushVideo (consistent : queues.Consistent)
    (filmed : queues.Filmed kind) {packet : Packet} (video : kind packet.header.mediaId = .video)
    (now : Instant) : Conserves kind queues (queues.pushVideo packet now) [packet.bytes] [] := by
  let active : Queues :=
    { queues with activeTracks := insert packet.header.mediaId queues.activeTracks }
  have consistent' : active.Consistent := consistent
  have filmed' : active.Filmed kind := filmed
  have here : ∀ {next : Queues}, Conserves kind active next [packet.bytes] [] →
      Conserves kind queues next [packet.bytes] [] :=
    fun conserves => ⟨⟨conserves.audio, conserves.stats⟩, conserves.filmed, conserves.times⟩
  refine here ?_
  unfold Queues.pushVideo
  dsimp only
  split
  · exact consistent'.conserves_pushFirst filmed' video now
  · split
    · exact filmed'.conserves_pushFragment _ packet now
    · exact consistent'.conserves_pushStray filmed' video now
    · exact ((Thins.refl active).conserves filmed' (.refl active)).more _
    · exact ((Thins.refl active).conserves filmed' (.refl active)).more _

/-! ### Sending video -/

/-- Starting a unit moves it. -/
theorem Consistent.conserves_start (consistent : queues.Consistent) (filmed : queues.Filmed kind)
    {id : Nat} (started : queues.start = (some id, next)) :
    Conserves kind queues next [] [] := by
  unfold Queues.start at started
  split at started
  · cases started
    exact (Thins.refl queues).conserves filmed (.refl queues)
  · split at started
    · cases started
    · rename_i first unit least
      obtain ⟨other, _, entry⟩ := Option.bind_eq_some_iff.mp least
      obtain ⟨_, held, same⟩ := Option.map_eq_some_iff.mp entry
      cases same
      have video : kind unit.mediaId = .video := filmed _ unit (.inr held)
      have missing : queues.started.lookup first = none :=
        Option.eq_none_iff_forall_ne_some.mpr fun _ running => consistent.disjoint running held
      have launched : ∀ next : Queues, Spared kind queues next →
          next.started = queues.started.insert first { unit with started := true } →
          next.waiting = queues.waiting.erase first → Conserves kind queues next [] [] := by
        intro next spared running resting
        refine ⟨spared, ?_, fun bytes => ?_⟩
        · rintro key other (there | there)
          · rw [running, Map.lookup_insert_ite] at there
            split at there
            · cases there
              exact video
            · exact filmed key other (.inl there)
          · rw [resting, Map.lookup_erase_ite] at there
            split at there
            · cases there
            · exact filmed key other (.inr there)
        · have came : Map.total _ (queues.started.insert first { unit with started := true }) = _ :=
            Map.total_insert_of_missing (VideoUnit.times bytes) missing
          have left := Map.total_erase (VideoUnit.times bytes) held
          have same : VideoUnit.times bytes { unit with started := true } = unit.times bytes := rfl
          unfold VideoQueues.times
          rw [running, resting, came, left, same]
          omega
      dsimp only at started
      split at started
      · cases started
        exact launched _ ⟨rfl, fun _ _ => rfl⟩ rfl rfl
      · cases started
        have counted := (queues.spared_count video fun counters =>
          { counters with forwarded := counters.forwarded + 1 }).stats
        exact launched _ ⟨rfl, counted⟩ rfl rfl

theorem Filmed.conserves_takeOff (filmed : queues.Filmed kind) {id : Nat} {unit : VideoUnit}
    {bytes : Datagram} {rest : List Datagram} (found : queues.started.lookup id = some unit)
    (packets : unit.packets = bytes :: rest) :
    Conserves kind queues (queues.takeOff id unit bytes rest) [] [bytes] := by
  refine ⟨⟨rfl, fun _ _ => rfl⟩, ?_, fun other => ?_⟩
  · rintro key other (there | there)
    · have there : (queues.started.insert id { unit with packets := rest }).lookup key =
        some other := there
      rw [Map.lookup_insert_ite] at there
      split at there
      · cases there
        exact filmed id unit (.inl found)
      · exact filmed key other (.inl there)
    · exact filmed key other (.inr there)
  · have total : Map.total _ (queues.started.insert id { unit with packets := rest }) = _ :=
      Map.total_insert (VideoUnit.times other) found
    have less : unit.times other =
        VideoUnit.times other { unit with packets := rest } + [bytes].count other := by
      unfold VideoUnit.times
      rw [packets, ← List.singleton_append, List.count_append, Nat.cast_add, add_comm]
    show Map.total _ (queues.started.insert id _) + queues.waiting.total _ + _ ≤ _
    unfold VideoQueues.times
    rw [total, List.count_nil]
    omega

theorem Conserves.trans {came went : List Datagram} (first : Conserves kind queues next [] [])
    (second : Conserves kind next last came went) : Conserves kind queues last came went where
  toSpared := first.toSpared.trans second.toSpared
  filmed := second.filmed
  times := fun bytes => by
    have one := first.times bytes
    have two := second.times bytes
    rw [List.count_nil] at one
    omega

theorem Conserves.thin {came went : List Datagram} (first : Conserves kind queues next came went)
    (thins : next.Thins last) (spared : Spared kind next last) :
    Conserves kind queues last came went where
  toSpared := first.toSpared.trans spared
  filmed := first.filmed.thin thins
  times := fun bytes => by
    have one := first.times bytes
    have two := thins.times_le bytes
    omega

theorem Consistent.conserves_popVideo (consistent : queues.Consistent)
    (filmed : queues.Filmed kind) :
    Conserves kind queues queues.popVideo.2 [] queues.popVideo.1.toList := by
  obtain same | ⟨id, next, unit, bytes, rest, started, found, packets, _, same⟩ :=
    consistent.popVideo_cases
  · rw [same]
    exact (Thins.refl queues).conserves filmed (.refl queues)
  · have launched := consistent.conserves_start filmed started
    have taken := launched.trans (launched.filmed.conserves_takeOff found packets)
    rw [same]
    dsimp only [Option.toList_some]
    split
    · exact taken.thin (Thins.finish _ id .sent) (spared_finish _ id .sent)
    · exact taken

end Queues

end Throcc
