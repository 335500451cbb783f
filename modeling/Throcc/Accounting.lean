/-
This file keeps account of what the queues of one receiver do with audio. Every
operation on them is accounted for track by track: what it takes out and what it
leaves is, in order, of what was queued and what it puts in, and what is missing
then is counted as dropped.
-/

import Throcc.Conserving
import Throcc.DroppedUnits

namespace Throcc

/-- The track in the header of a datagram. -/
def trackOf (bytes : Datagram) : Option MediaId :=
  (Header.parse bytes).toOption.map fun header => header.mediaId

/-- The datagrams of one track. -/
def onTrack (track : MediaId) (datagrams : List Datagram) : List Datagram :=
  datagrams.filter fun bytes => trackOf bytes = some track

theorem onTrack_append (track : MediaId) (first second : List Datagram) :
    onTrack track (first ++ second) = onTrack track first ++ onTrack track second :=
  List.filter_append ..

theorem onTrack_singleton (track : MediaId) {mediaId : MediaId} {bytes : Datagram}
    (known : trackOf bytes = some mediaId) :
    onTrack track [bytes] = if track = mediaId then [bytes] else [] := by
  unfold onTrack
  by_cases same : track = mediaId
  · simp [known, same]
  · simp [known, same, Ne.symm same]

/-- A datagram of a video track. -/
def Shot (kind : MediaId → TrackKind) (bytes : Datagram) : Prop :=
  ∃ track, trackOf bytes = some track ∧ kind track = .video

theorem onTrack_of_shot {kind : MediaId → TrackKind} {track : MediaId} {datagrams : List Datagram}
    (audio : kind track = .audio) (shot : ∀ bytes ∈ datagrams, Shot kind bytes) :
    onTrack track datagrams = [] := by
  refine List.filter_eq_nil_iff.mpr fun bytes member here => ?_
  obtain ⟨mediaId, known, video⟩ := shot bytes member
  rw [decide_eq_true_eq, known] at here
  rw [Option.some.inj here, audio] at video
  cases video

/-- Making room costs the evicted track one packet and no other track any. -/
theorem AudioQueues.RoomMade.lost {audio next : AudioQueues} {evicted : Option MediaId}
    (made : audio.RoomMade evicted next) (track : MediaId) :
    ∃ gone : List Datagram, audio.queueOf track = gone ++ next.queueOf track ∧
      gone.length = if evicted = some track then 1 else 0 := by
  cases evicted with
  | none => exact ⟨[], by rw [made.2]; rfl, rfl⟩
  | some victim =>
    obtain ⟨-, -, bytes, loses⟩ := made
    refine ⟨if track = victim then [bytes] else [], loses.queue_eq track, ?_⟩
    by_cases same : track = victim
    · rw [if_pos same, if_pos (congrArg some same.symm)]
      rfl
    · rw [if_neg same, if_neg fun equal => same (Option.some.inj equal).symm]
      rfl

theorem AudioQueues.RoomMade.len_lt {audio next : AudioQueues} {evicted : Option MediaId}
    (made : audio.RoomMade evicted next) (bounded : audio.len ≤ maxQueuedAudio) :
    next.len < maxQueuedAudio := by
  cases evicted with
  | none =>
    obtain ⟨free, rfl⟩ := made
    exact free
  | some victim =>
    obtain ⟨-, -, bytes, loses⟩ := made
    rw [loses.len]
    omega

namespace Queues

def forwardedUnits (queues : Queues) (mediaId : MediaId) : Nat :=
  ((queues.stats.lookup mediaId).getD {}).forwarded

/-- The queues are in order, hold every datagram under its track, and no more audio than they
may. -/
structure Sorted (kind : MediaId → TrackKind) (queues : Queues) : Prop where
  consistent : queues.Consistent
  orderly : queues.audio.Orderly
  filmed : queues.Filmed kind
  shot : ∀ bytes, ¬ Shot kind bytes → queues.times bytes ≤ 0
  voiced : ∀ track, ∀ bytes ∈ queues.audio.queueOf track,
    kind track = .audio ∧ trackOf bytes = some track
  bounded : queues.audio.len ≤ maxQueuedAudio

/-- What `went` out and what is left is of what was queued and what `came`; of audio in order,
and what is missing is counted, as are `drops` of packets that never came. -/
structure Accounts (kind : MediaId → TrackKind) (queues next : Queues) (came went : List Datagram)
    (drops : MediaId → Nat) : Prop where
  sorted : next.Sorted kind
  order : ∀ track, kind track = .audio →
    (onTrack track went ++ next.audio.queueOf track).Sublist
      (queues.audio.queueOf track ++ onTrack track came)
  dropped : ∀ track, kind track = .audio →
    (onTrack track went).length + (next.audio.queueOf track).length + next.droppedUnits track =
      (queues.audio.queueOf track).length + (onTrack track came).length +
        queues.droppedUnits track + drops track
  forwarded : ∀ track, kind track = .audio →
    next.forwardedUnits track = queues.forwardedUnits track + (onTrack track went).length
  times : ∀ bytes, Shot kind bytes →
    next.times bytes + went.count bytes ≤ queues.times bytes + came.count bytes
  framed : ∀ bytes ∈ went, (trackOf bytes).isSome

variable {kind : MediaId → TrackKind} {queues next last : Queues} {came went : List Datagram}
  {drops others : MediaId → Nat}

/-- A run of operations without output, before one with. -/
theorem Accounts.trans (first : Accounts kind queues next [] [] drops)
    (second : Accounts kind next last came went others) :
    Accounts kind queues last came went fun track => drops track + others track where
  sorted := second.sorted
  order := fun track audio => by
    have left := first.order track audio
    simp only [onTrack, List.filter_nil, List.nil_append, List.append_nil] at left
    exact (second.order track audio).trans (left.append (.refl _))
  dropped := fun track audio => by
    have one := first.dropped track audio
    have two := second.dropped track audio
    simp only [onTrack, List.filter_nil, List.length_nil] at one two ⊢
    omega
  forwarded := fun track audio => by
    have one := first.forwarded track audio
    have two := second.forwarded track audio
    simp only [onTrack, List.filter_nil, List.length_nil] at one
    omega
  times := fun bytes shot => by
    have one := first.times bytes shot
    have two := second.times bytes shot
    rw [List.count_nil] at one
    omega
  framed := second.framed

theorem droppedUnits_of_stats {track : MediaId}
    (same : next.stats.lookup track = queues.stats.lookup track) :
    next.droppedUnits track = queues.droppedUnits track := by
  unfold droppedUnits
  rw [same]

theorem forwardedUnits_of_stats {track : MediaId}
    (same : next.stats.lookup track = queues.stats.lookup track) :
    next.forwardedUnits track = queues.forwardedUnits track := by
  unfold forwardedUnits
  rw [same]

theorem times_nonneg (video : VideoQueues) (bytes : Datagram) : 0 ≤ video.times bytes := by
  have positive : ∀ units : Map Nat VideoUnit, 0 ≤ units.total (VideoUnit.times bytes) := by
    refine fun units => Finset.sum_nonneg fun id _ => ?_
    cases units.lookup id with
    | none => exact le_refl 0
    | some unit => exact unit.times_nonneg bytes
  exact add_nonneg (positive _) (positive _)

/-- A video operation accounts for nothing on audio tracks, and what it takes out is video. -/
theorem Conserves.accounts (conserves : Conserves kind queues next came went)
    (sorted : queues.Sorted kind) (consistent : next.Consistent)
    (shot : ∀ bytes ∈ came, Shot kind bytes) :
    Accounts kind queues next came went fun _ => 0 := by
  have none : ∀ bytes, ¬ Shot kind bytes →
      next.times bytes + went.count bytes ≤ 0 := fun bytes other => by
    have le := conserves.times bytes
    have before := sorted.shot bytes other
    rw [List.count_eq_zero.mpr fun member => other (shot bytes member)] at le
    omega
  have film : ∀ bytes ∈ went, Shot kind bytes := by
    intro bytes member
    by_contra other
    have le := none bytes other
    have queued := times_nonneg next.toVideoQueues bytes
    have out := List.count_pos_iff.mpr member
    omega
  have same : ∀ track, next.audio.queueOf track = queues.audio.queueOf track := fun _ => by
    rw [conserves.audio]
  refine ⟨⟨consistent, ?_, conserves.filmed, fun bytes other => ?_, fun track bytes => ?_, ?_⟩,
    fun track audio => ?_, fun track audio => ?_, fun track audio => ?_, fun bytes _ => ?_,
    fun bytes member => ?_⟩
  · rw [conserves.audio]
    exact sorted.orderly
  · have le := none bytes other
    omega
  · rw [same]
    exact sorted.voiced track bytes
  · rw [conserves.audio]
    exact sorted.bounded
  · rw [onTrack_of_shot audio film, onTrack_of_shot audio shot, same, List.append_nil,
      List.nil_append]
  · rw [onTrack_of_shot audio film, onTrack_of_shot audio shot, same,
      droppedUnits_of_stats (conserves.stats track audio)]
    simp only [List.length_nil]
    omega
  · rw [onTrack_of_shot audio film, forwardedUnits_of_stats (conserves.stats track audio)]
    rfl
  · exact conserves.times bytes
  · obtain ⟨track, known, -⟩ := film bytes member
    rw [known]
    rfl

/-- Where only counters change. -/
theorem Sorted.counted (sorted : queues.Sorted kind)
    (video : next.toVideoQueues = queues.toVideoQueues) (audio : next.audio = queues.audio)
    (dropped : ∀ track, kind track = .audio →
      next.droppedUnits track = queues.droppedUnits track + drops track)
    (forwarded : ∀ track, kind track = .audio →
      next.forwardedUnits track = queues.forwardedUnits track) :
    Accounts kind queues next [] [] drops := by
  have consistent : next.Consistent := by
    unfold Queues.Consistent
    rw [video]
    exact sorted.consistent
  have filmed : next.Filmed kind := by
    unfold Filmed
    rw [video]
    exact sorted.filmed
  have same : ∀ track, next.audio.queueOf track = queues.audio.queueOf track := fun _ => by
    rw [audio]
  refine ⟨⟨consistent, audio ▸ sorted.orderly, filmed, video ▸ sorted.shot, fun track => ?_,
    audio ▸ sorted.bounded⟩, fun track _ => ?_, fun track audio => ?_, fun track audio => ?_,
    fun bytes _ => ?_, fun _ none => by cases none⟩
  · rw [same]
    exact sorted.voiced track
  · rw [same]
    exact (List.append_nil _).symm ▸ .refl _
  · rw [dropped track audio, same]
    simp only [onTrack, List.filter_nil, List.length_nil]
    omega
  · exact forwarded track audio
  · rw [video]

/-! ### Counting -/

theorem droppedUnits_count (queues : Queues) (mediaId track : MediaId)
    (update : Counters → Counters) (count : Nat)
    (adds : ∀ counters, (update counters).droppedUnits = counters.droppedUnits + count) :
    (queues.count mediaId update).droppedUnits track =
      queues.droppedUnits track + if track = mediaId then count else 0 := by
  unfold droppedUnits Queues.count
  rw [Map.lookup_insert_ite]
  by_cases same : track = mediaId
  · rw [if_pos same, if_pos same, same]
    exact adds _
  · rw [if_neg same, if_neg same]
    rfl

theorem forwardedUnits_count (queues : Queues) (mediaId track : MediaId)
    (update : Counters → Counters) (count : Nat)
    (adds : ∀ counters, (update counters).forwarded = counters.forwarded + count) :
    (queues.count mediaId update).forwardedUnits track =
      queues.forwardedUnits track + if track = mediaId then count else 0 := by
  unfold forwardedUnits Queues.count
  rw [Map.lookup_insert_ite]
  by_cases same : track = mediaId
  · rw [if_pos same, if_pos same, same]
    exact adds _
  · rw [if_neg same, if_neg same]
    rfl

/-- Drops counted on a track. -/
theorem Sorted.countDrops (sorted : queues.Sorted kind) (mediaId : MediaId) (count : Nat) :
    Accounts kind queues
      (queues.count mediaId fun counters =>
        { counters with droppedUnits := counters.droppedUnits + count })
      [] [] fun track => if track = mediaId then count else 0 := by
  refine sorted.counted rfl rfl (fun track _ => ?_) fun track _ => ?_
  · exact queues.droppedUnits_count mediaId track _ count fun _ => rfl
  · have none := queues.forwardedUnits_count mediaId track
      (fun counters => { counters with droppedUnits := counters.droppedUnits + count })
      0 fun _ => rfl
    rw [none, ite_self, Nat.add_zero]

/-! ### Losses -/

/-- How many of the losses are of a track. -/
def lossesOn (track : MediaId) (losses : List Lost) : Nat :=
  (losses.filter fun lost => lost.mediaId = track).length

theorem lossesOn_cons (track : MediaId) (lost : Lost) (losses : List Lost) :
    lossesOn track (lost :: losses) =
      (if track = lost.mediaId then 1 else 0) + lossesOn track losses := by
  unfold lossesOn
  by_cases same : track = lost.mediaId
  · simp [same, Nat.add_comm]
  · simp [same, Ne.symm same]

theorem Sorted.lose (sorted : queues.Sorted kind) {lost : Lost}
    (genuine : lost.kind = kind lost.mediaId) :
    Accounts kind queues (queues.lose lost) [] [] fun track =>
      if track = lost.mediaId then 1 else 0 := by
  by_cases audio : lost.kind = .audio
  · have counted := sorted.countDrops lost.mediaId 1
    unfold Queues.lose
    rw [if_pos audio]
    exact counted
  · have video : lost.kind = .video := by
      cases isKind : lost.kind with
      | audio => exact absurd isKind audio
      | video => rfl
    have spared := sorted.filmed.spared_lose video (genuine.symm.trans video)
    have accounts := ((Thins.lose queues lost).conserves sorted.filmed spared).accounts sorted
      (sorted.consistent.lose lost) fun _ none => by cases none
    refine { accounts with dropped := fun track audio => ?_ }
    have other : track ≠ lost.mediaId := by
      rintro rfl
      rw [← genuine, video] at audio
      cases audio
    rw [if_neg other]
    exact accounts.dropped track audio

theorem Sorted.refl (sorted : queues.Sorted kind) :
    Accounts kind queues queues [] [] fun _ => 0 :=
  sorted.counted rfl rfl (fun _ _ => rfl) fun _ _ => rfl

theorem Accounts.congr (accounts : Accounts kind queues next came went drops)
    (same : ∀ track, drops track = others track) : Accounts kind queues next came went others :=
  (funext same : drops = others) ▸ accounts

theorem Sorted.loseAll (sorted : queues.Sorted kind) {losses : List Lost}
    (genuine : ∀ lost ∈ losses, lost.kind = kind lost.mediaId) :
    Accounts kind queues (losses.foldl Queues.lose queues) [] [] fun track =>
      lossesOn track losses := by
  induction losses generalizing queues with
  | nil => exact sorted.refl
  | cons lost rest inductionHypothesis =>
    have first := sorted.lose (genuine lost List.mem_cons_self)
    have later := inductionHypothesis first.sorted fun other member =>
      genuine other (List.mem_cons_of_mem lost member)
    exact (first.trans later).congr fun track => (lossesOn_cons track lost rest).symm

theorem Sorted.enforceBudget (sorted : queues.Sorted kind) (now : Instant) :
    Accounts kind queues (queues.enforceBudget now) [] [] fun _ => 0 :=
  ((Thins.enforceBudget queues now).conserves sorted.filmed
    (sorted.filmed.spared_enforceBudget now)).accounts sorted
    (sorted.consistent.enforceBudget now) fun _ none => by cases none

theorem Sorted.forgetQuietTracks (sorted : queues.Sorted kind) :
    Accounts kind queues queues.forgetQuietTracks [] [] fun _ => 0 :=
  ((Thins.of_eq rfl rfl : queues.Thins queues.forgetQuietTracks).conserves sorted.filmed
    (.of_eq rfl rfl)).accounts sorted sorted.consistent.forgetQuietTracks
    fun _ none => by cases none

/-! ### Packets come -/

/-- What is known of a packet that ingress forwards. -/
structure Genuine (kind : MediaId → TrackKind) (packet : Packet) : Prop where
  header : Header.parse packet.bytes = .ok packet.header
  kind : packet.kind = kind packet.header.mediaId

theorem Genuine.trackOf {packet : Packet} (genuine : Genuine kind packet) :
    trackOf packet.bytes = some packet.header.mediaId := by
  unfold Throcc.trackOf
  rw [genuine.header]
  rfl

theorem Sorted.countEvicted (sorted : queues.Sorted kind) (evicted : Option MediaId) :
    Accounts kind queues (evicted.elim queues queues.countDrop) [] [] fun track =>
      if evicted = some track then 1 else 0 := by
  cases evicted with
  | none => exact sorted.refl
  | some victim =>
    refine (sorted.countDrops victim 1).congr fun track => ?_
    by_cases same : track = victim
    · rw [if_pos same, if_pos (congrArg some same.symm)]
    · rw [if_neg same, if_neg fun equal => same (Option.some.inj equal).symm]

/-- An audio packet is queued behind those of its track, and at the cap a track loses its
oldest one for it. -/
theorem Sorted.pushAudio (sorted : queues.Sorted kind) {packet : Packet}
    (genuine : Genuine kind packet) (isAudio : packet.kind = .audio) (now : Instant)
    (choice : MediaId) :
    Accounts kind queues (queues.push packet now choice) [packet.bytes] [] fun _ => 0 := by
  have voice : kind packet.header.mediaId = .audio := genuine.kind.symm.trans isAudio
  have orderly := sorted.orderly.push packet.header.mediaId packet.bytes choice
  have queued := fun track =>
    queues.audio.queueOf_push packet.header.mediaId packet.bytes choice track
  have came := fun track => onTrack_singleton track genuine.trackOf
  have room := (sorted.orderly.makeRoom choice).1
  have evicts : (queues.audio.push packet.header.mediaId packet.bytes choice).1 =
      (queues.audio.makeRoom choice).1 := rfl
  have len : (queues.audio.push packet.header.mediaId packet.bytes choice).2.len =
      (queues.audio.makeRoom choice).2.len + 1 := rfl
  unfold Queues.push
  rw [isAudio]
  dsimp only
  generalize queues.audio.push packet.header.mediaId packet.bytes choice = pushed at *
  generalize queues.audio.makeRoom choice = made at *
  obtain ⟨evicted, audio⟩ := pushed
  obtain ⟨victim, left⟩ := made
  dsimp only at *
  subst evicts
  have voiced : ∀ track, ∀ bytes ∈ audio.queueOf track,
      kind track = .audio ∧ trackOf bytes = some track := by
    intro track bytes member
    rw [queued] at member
    obtain before | new := List.mem_append.mp member
    · obtain ⟨gone, same, -⟩ := room.lost track
      exact sorted.voiced track bytes (same ▸ List.mem_append_right gone before)
    · split at new
      · rename_i same
        rw [List.mem_singleton.mp new, same]
        exact ⟨voice, genuine.trackOf⟩
      · cases new
  have bounded : audio.len ≤ maxQueuedAudio := by
    have less := room.len_lt sorted.bounded
    omega
  let stored : Queues := { queues with audio }
  have sorted' : stored.Sorted kind :=
    ⟨sorted.consistent, orderly, sorted.filmed, sorted.shot, voiced, bounded⟩
  have counted := sorted'.countEvicted evicted
  show Accounts kind queues (evicted.elim stored stored.countDrop) _ _ _
  refine ⟨counted.sorted, fun track voice => ?_, fun track voice => ?_, counted.forwarded,
    fun bytes shot => ?_, counted.framed⟩
  · obtain ⟨gone, same, -⟩ := room.lost track
    have kept := counted.order track voice
    simp only [onTrack, List.filter_nil, List.nil_append, List.append_nil] at kept
    refine kept.trans ?_
    show (audio.queueOf track).Sublist _
    rw [queued, same, came, List.append_assoc]
    exact List.sublist_append_right gone _
  · obtain ⟨gone, same, length⟩ := room.lost track
    have change := counted.dropped track voice
    have put : (stored.audio.queueOf track).length = (left.queueOf track).length +
        (onTrack track [packet.bytes]).length := by
      rw [came, ← List.length_append]
      exact congrArg _ (queued track)
    have untold : stored.droppedUnits track = queues.droppedUnits track := rfl
    have none : onTrack track [] = [] := rfl
    rw [put, untold, none, List.length_nil] at change
    rw [same, none, List.length_append, length, List.length_nil]
    omega
  · have kept := counted.times bytes shot
    have put : stored.times bytes = queues.times bytes := rfl
    rw [put] at kept
    rw [List.count_nil] at kept ⊢
    omega

theorem Sorted.push (sorted : queues.Sorted kind) {packet : Packet}
    (genuine : Genuine kind packet) (now : Instant) (choice : MediaId) :
    Accounts kind queues (queues.push packet now choice) [packet.bytes] [] fun _ => 0 := by
  cases isKind : packet.kind with
  | audio => exact sorted.pushAudio genuine isKind now choice
  | video =>
    have video : kind packet.header.mediaId = .video := genuine.kind.symm.trans isKind
    have consistent := sorted.consistent.push packet now choice
    unfold Queues.push at consistent ⊢
    rw [isKind] at consistent ⊢
    refine (sorted.consistent.conserves_pushVideo sorted.filmed video now).accounts sorted
      consistent fun bytes member => ?_
    rw [List.mem_singleton.mp member]
    exact ⟨_, genuine.trackOf, video⟩

/-! ### Packets go -/

theorem Sorted.pop (sorted : queues.Sorted kind) :
    Accounts kind queues queues.pop.2 [] queues.pop.1.toList fun _ => 0 := by
  obtain ⟨orderly, ⟨none, -, same⟩ | ⟨served, bytes, turns, some_, -, loses, -⟩⟩ :=
    sorted.orderly.pop
  · have video := (sorted.consistent.conserves_popVideo sorted.filmed).accounts sorted
      sorted.consistent.popVideo fun _ none => by cases none
    have popped : queues.pop = queues.popVideo := by
      unfold Queues.pop
      generalize queues.audio.pop = taken at none same
      obtain ⟨given, audio⟩ := taken
      cases none
      cases same
      rfl
    rw [popped]
    exact video
  · have popped : queues.pop = (some bytes,
        { queues with audio := queues.audio.pop.2 }.countForwarded served) := by
      unfold Queues.pop
      generalize queues.audio.pop = taken at some_ ⊢
      obtain ⟨given, audio⟩ := taken
      cases some_
      rfl
    rw [popped]
    generalize queues.audio.pop.2 = audio at orderly loses ⊢
    have known := sorted.voiced served bytes (by rw [loses.queue]; exact List.mem_cons_self)
    have went := fun track => onTrack_singleton track known.2
    have queue := fun track => loses.queue_eq track
    have counted := fun track => { queues with audio }.forwardedUnits_count served track
      (fun counters => { counters with forwarded := counters.forwarded + 1 }) 1 fun _ => rfl
    have spared := fun track => { queues with audio }.droppedUnits_count served track
      (fun counters => { counters with forwarded := counters.forwarded + 1 }) 0 fun _ => rfl
    refine ⟨⟨sorted.consistent, orderly, sorted.filmed, sorted.shot,
      fun track other member => ?_, ?_⟩, fun track _ => ?_, fun track _ => ?_, fun track _ => ?_,
      fun other shot => ?_, fun other member => ?_⟩
    · refine sorted.voiced track other ?_
      rw [queue]
      exact List.mem_append_right _ member
    · have before := sorted.bounded
      have less := loses.len
      show audio.len ≤ _
      omega
    · rw [Option.toList_some, went, queue]
      exact (List.append_nil _).symm ▸ .refl _
    · have same : ({ queues with audio }.countForwarded served).droppedUnits track =
          queues.droppedUnits track := by
        refine (spared track).trans ?_
        rw [ite_self]
        rfl
      rw [same, queue, Option.toList_some, went]
      simp only [onTrack, List.filter_nil, List.length_nil, List.length_append]
      show _ + (audio.queueOf track).length + _ = _
      omega
    · refine (counted track).trans ?_
      rw [Option.toList_some, went]
      split
      · rfl
      · rfl
    · have apart : other ≠ bytes := by
        rintro rfl
        obtain ⟨track, seen, video⟩ := shot
        rw [known.2] at seen
        rw [← Option.some.inj seen, known.1] at video
        cases video
      rw [Option.toList_some, count_singleton, if_neg apart, List.count_nil]
      exact le_refl _
    · rw [List.mem_singleton.mp member, known.2]
      rfl

/-- Nothing to send: no audio is queued. -/
theorem Sorted.pop_none (sorted : queues.Sorted kind) (none : queues.pop.1 = none)
    (track : MediaId) : queues.pop.2.audio.queueOf track = [] := by
  have left := sorted.pop
  obtain ⟨orderly, ⟨-, turns, same⟩ | ⟨served, bytes, turns, some_, -⟩⟩ := sorted.orderly.pop
  · have empty : queues.audio.queueOf track = [] := by
      by_contra some_
      have turn := (sorted.orderly.turns track).mpr some_
      rw [turns] at turn
      cases turn
    rw [none] at left
    by_contra some_
    obtain ⟨bytes, rest, queue⟩ := List.exists_cons_of_ne_nil some_
    have voice := (left.sorted.voiced track bytes (by rw [queue]; exact List.mem_cons_self)).1
    have order := left.order track voice
    rw [empty, queue] at order
    simp [onTrack] at order
  · unfold Queues.pop at none
    generalize queues.audio.pop = taken at some_ none
    obtain ⟨given, audio⟩ := taken
    cases some_
    cases none

end Queues

end Throcc
