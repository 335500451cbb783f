/-
This file proves that the audio queues of a receiver are fair. Every track with
packets has one turn, a track that keeps packets is served once between two
services of another that does, and a full queue loses only the oldest packet of
a track that has the most.
-/

import Throcc.Egress

namespace Throcc

namespace AudioQueues

/-! ### Runs -/

/-- What happens to the audio of a receiver. `choice` is as in `push`. -/
inductive Input where
  | push (mediaId : MediaId) (bytes : Datagram) (choice : MediaId)
  | pop
deriving DecidableEq, Repr

/-- The packet an input takes out, and the queues after it. -/
def apply (audio : AudioQueues) : Input → Option (MediaId × Datagram) × AudioQueues
  | .push mediaId bytes choice => (none, (audio.push mediaId bytes choice).2)
  | .pop => audio.pop

def step (audio : AudioQueues) (input : Input) : AudioQueues := (audio.apply input).2

/-- The packets taken out while the inputs are applied. -/
def popped : AudioQueues → List Input → List (MediaId × Datagram)
  | _, [] => []
  | audio, input :: rest => (audio.apply input).1.toList ++ popped (audio.step input) rest

/-- The packets an input puts in. -/
def Input.pushed : Input → List (MediaId × Datagram)
  | .push mediaId bytes _ => [(mediaId, bytes)]
  | .pop => []

/-- The queues once a push at the cap has made room. -/
def makeRoom (audio : AudioQueues) (choice : MediaId) : Option MediaId × AudioQueues :=
  if maxQueuedAudio ≤ audio.len then audio.evictFromLongest choice else (none, audio)

/-- A track has packets at every moment while the inputs are applied, also right after another
packet has taken the place of its own. -/
def StaysQueued (mediaId : MediaId) : AudioQueues → List Input → Prop
  | audio, [] => audio.queueOf mediaId ≠ []
  | audio, input :: rest =>
    audio.queueOf mediaId ≠ [] ∧
      (∀ pushed bytes choice, input = .push pushed bytes choice →
        (audio.makeRoom choice).2.queueOf mediaId ≠ []) ∧
      StaysQueued mediaId (audio.step input) rest

/-- The packets of one track. -/
def ofTrack (mediaId : MediaId) (packets : List (MediaId × Datagram)) : List Datagram :=
  (packets.filter fun packet => packet.1 = mediaId).map Prod.snd

variable {audio : AudioQueues}

/-! ### The turns -/

/-- Every track with packets has one turn and no other has any; the length is that of all
queues. -/
structure Orderly (audio : AudioQueues) : Prop where
  once : audio.turns.Nodup
  turns : ∀ mediaId, mediaId ∈ audio.turns ↔ audio.queueOf mediaId ≠ []
  full : ∀ mediaId queue, audio.tracks.lookup mediaId = some queue → queue ≠ []
  len : audio.len = audio.tracks.total fun queue => (queue.length : Int)

theorem orderly_empty : ({} : AudioQueues).Orderly where
  once := List.nodup_nil
  turns mediaId := by simp [queueOf]
  full mediaId queue found := by cases found
  len := rfl

theorem queueOf_insert (tracks : Map MediaId (List Datagram)) (turns : List MediaId) (len : Int)
    (mediaId other : MediaId) (queue : List Datagram) :
    queueOf ⟨tracks.insert mediaId queue, turns, len⟩ other =
      if other = mediaId then queue else queueOf ⟨tracks, turns, len⟩ other := by
  unfold queueOf
  rw [Map.lookup_insert_ite]
  split <;> rfl

theorem queueOf_erase (tracks : Map MediaId (List Datagram)) (turns : List MediaId) (len : Int)
    (mediaId other : MediaId) :
    queueOf ⟨tracks.erase mediaId, turns, len⟩ other =
      if other = mediaId then [] else queueOf ⟨tracks, turns, len⟩ other := by
  unfold queueOf
  rw [Map.lookup_erase_ite]
  split <;> rfl

/-- A track loses its first packet, and its turn with its last. -/
structure Loses (audio : AudioQueues) (mediaId : MediaId) (bytes : Datagram)
    (next : AudioQueues) : Prop where
  queue : audio.queueOf mediaId = bytes :: next.queueOf mediaId
  others : ∀ other, other ≠ mediaId → next.queueOf other = audio.queueOf other
  len : next.len = audio.len - 1

theorem Orderly.found (orderly : audio.Orderly) {mediaId : MediaId} {queue : List Datagram}
    (found : audio.tracks.lookup mediaId = some queue) : audio.queueOf mediaId = queue ∧ queue ≠ [] :=
  ⟨by rw [queueOf, found, Option.getD_some], orderly.full mediaId queue found⟩

theorem lookup_of_queueOf {mediaId : MediaId} (some_ : audio.queueOf mediaId ≠ []) :
    audio.tracks.lookup mediaId = some (audio.queueOf mediaId) := by
  unfold queueOf at some_ ⊢
  cases found : audio.tracks.lookup mediaId with
  | none => exact absurd (by rw [found]; rfl) some_
  | some queue => rfl

theorem Orderly.loses (orderly : audio.Orderly) {mediaId : MediaId} {bytes : Datagram}
    {rest : List Datagram} (queue : audio.queueOf mediaId = bytes :: rest) {turns : List MediaId}
    (once : turns.Nodup)
    (same : ∀ other, other ∈ turns ↔ other ∈ audio.turns ∧ (other = mediaId → rest ≠ [])) :
    let tracks := if rest = [] then audio.tracks.erase mediaId else audio.tracks.insert mediaId rest
    Orderly ⟨tracks, turns, audio.len - 1⟩ ∧
      audio.Loses mediaId bytes ⟨tracks, turns, audio.len - 1⟩ := by
  intro tracks
  have queues : ∀ other, queueOf ⟨tracks, turns, audio.len - 1⟩ other =
      if other = mediaId then rest else audio.queueOf other := by
    intro other
    dsimp only [tracks]
    split
    · rename_i empty
      rw [queueOf_erase, empty]
      rfl
    · exact queueOf_insert ..
  have found : audio.tracks.lookup mediaId = some (bytes :: rest) := by
    rw [← queue]
    exact lookup_of_queueOf (by rw [queue]; exact List.cons_ne_nil _ _)
  refine ⟨⟨once, fun other => ?_, fun other kept there => ?_, ?_⟩, ?_, fun other ne => ?_, rfl⟩
  · rw [same, orderly.turns, queues]
    by_cases this : other = mediaId
    · simp [this, queue]
    · simp [this]
  · dsimp only [tracks] at there
    split at there
    · rw [Map.lookup_erase_ite] at there
      split at there
      · cases there
      · exact orderly.full other kept there
    · rename_i some_
      rw [Map.lookup_insert_ite] at there
      split at there
      · rw [← Option.some.inj there]
        exact some_
      · exact orderly.full other kept there
  · dsimp only [tracks]
    split
    · rename_i empty
      rw [Map.total_erase _ found, orderly.len, empty]
      rfl
    · rw [Map.total_insert _ found, orderly.len, List.length_cons]
      push_cast
      omega
  · rw [queues, if_pos rfl, queue]
  · rw [queues, if_neg ne]

/-! ### Making room -/

theorem mem_longest {mediaId : MediaId} :
    mediaId ∈ audio.longest ↔ mediaId ∈ audio.tracks.keys ∧
      ∀ other, (audio.queueOf other).length ≤ (audio.queueOf mediaId).length := by
  rw [longest, Finset.mem_filter]
  refine and_congr_right fun _ => ⟨fun all other => ?_, fun all other _ => all other⟩
  by_cases there : other ∈ audio.tracks.keys
  · exact all other there
  · rw [Finmap.mem_keys, ← Finmap.lookup_eq_none] at there
    rw [queueOf, there, Option.getD_none, List.length_nil]
    exact Nat.zero_le _

theorem longestTrack_eq_some {choice mediaId : MediaId}
    (found : audio.longestTrack choice = some mediaId) : mediaId ∈ audio.longest := by
  by_cases chosen : choice ∈ audio.longest
  · have same : audio.longestTrack choice = some choice := if_pos chosen
    rw [same] at found
    exact Option.some.inj found ▸ chosen
  · have same : audio.longestTrack choice = audio.longest.min := if_neg chosen
    exact Finset.mem_of_min (same.symm.trans found)

theorem longestTrack_eq_none {choice : MediaId} (missing : audio.longestTrack choice = none) :
    audio.tracks.keys = ∅ := by
  by_cases chosen : choice ∈ audio.longest
  · have same : audio.longestTrack choice = some choice := if_pos chosen
    rw [same] at missing
    cases missing
  · have same : audio.longestTrack choice = audio.longest.min := if_neg chosen
    have empty : audio.longest = ∅ := Finset.min_eq_top.mp (same.symm.trans missing)
    by_contra some_
    obtain ⟨mediaId, there, most⟩ := Finset.exists_max_image audio.tracks.keys
      (fun mediaId => (audio.queueOf mediaId).length) (Finset.nonempty_iff_ne_empty.mpr some_)
    have longest : mediaId ∈ audio.longest := Finset.mem_filter.mpr ⟨there, most⟩
    rw [empty] at longest
    cases longest

/-- A track with the longest queue loses its oldest packet, and its turn with its last. -/
theorem Orderly.evictFromLongest (orderly : audio.Orderly) (some_ : audio.tracks.keys ≠ ∅)
    (choice : MediaId) :
    ∃ mediaId bytes, (audio.evictFromLongest choice).1 = some mediaId ∧
      (∀ other, (audio.queueOf other).length ≤ (audio.queueOf mediaId).length) ∧
      (audio.evictFromLongest choice).2.Orderly ∧
      audio.Loses mediaId bytes (audio.evictFromLongest choice).2 ∧
      ∃ keep, (audio.evictFromLongest choice).2.turns = audio.turns.filter keep := by
  obtain ⟨mediaId, chosen⟩ : ∃ mediaId, audio.longestTrack choice = some mediaId :=
    Option.ne_none_iff_exists'.mp fun missing => some_ (longestTrack_eq_none missing)
  obtain ⟨there, most⟩ := mem_longest.mp (longestTrack_eq_some chosen)
  obtain ⟨queue, found⟩ := Finmap.mem_iff.mp (Finmap.mem_keys.mp there)
  obtain ⟨same, full⟩ := orderly.found found
  obtain ⟨bytes, rest, rfl⟩ := List.exists_cons_of_ne_nil full
  let turns := if rest = [] then audio.turns.filter (· ≠ mediaId) else audio.turns
  have turned : ∀ other, other ∈ turns ↔ other ∈ audio.turns ∧ (other = mediaId → rest ≠ []) := by
    intro other
    dsimp only [turns]
    split
    · simp_all
    · simp_all
  have once : turns.Nodup := by
    dsimp only [turns]
    split
    · exact orderly.once.filter _
    · exact orderly.once
  obtain ⟨orderly', loses⟩ := orderly.loses same once turned
  have evicted : audio.evictFromLongest choice = (some mediaId,
      ⟨if rest = [] then audio.tracks.erase mediaId else audio.tracks.insert mediaId rest, turns,
        audio.len - 1⟩) := by
    unfold AudioQueues.evictFromLongest
    simp only [chosen, same, List.tail_cons, turns]
    split <;> rfl
  rw [evicted]
  refine ⟨mediaId, bytes, rfl, most, orderly', loses, ?_⟩
  by_cases empty : rest = []
  · exact ⟨fun other => other ≠ mediaId, if_pos empty⟩
  · exact ⟨fun _ => true, (if_neg empty).trans (List.filter_true _).symm⟩

/-- What making room for a packet does: nothing below the cap, and at the cap a track with the
most packets loses its oldest. -/
def RoomMade (audio : AudioQueues) : Option MediaId → AudioQueues → Prop
  | none, next => audio.len < maxQueuedAudio ∧ next = audio
  | some mediaId, next =>
    maxQueuedAudio ≤ audio.len ∧
      (∀ other, (audio.queueOf other).length ≤ (audio.queueOf mediaId).length) ∧
      ∃ bytes, audio.Loses mediaId bytes next

theorem Orderly.makeRoom (orderly : audio.Orderly) (choice : MediaId) :
    audio.RoomMade (audio.makeRoom choice).1 (audio.makeRoom choice).2 ∧
      (audio.makeRoom choice).2.Orderly ∧
      ∃ keep, (audio.makeRoom choice).2.turns = audio.turns.filter keep := by
  unfold AudioQueues.makeRoom
  split
  · rename_i full
    have some_ : audio.tracks.keys ≠ ∅ := by
      intro none_
      have empty : audio.tracks.total (fun queue => (queue.length : Int)) = 0 := by
        rw [Map.total, none_, Finset.sum_empty]
      rw [orderly.len, empty] at full
      exact absurd full (by decide)
    obtain ⟨mediaId, bytes, evicted, most, orderly', loses, keep, turns⟩ :=
      orderly.evictFromLongest some_ choice
    refine ⟨?_, orderly', keep, turns⟩
    rw [evicted]
    exact ⟨full, most, bytes, loses⟩
  · rename_i free
    exact ⟨⟨not_le.mp free, rfl⟩, orderly, fun _ => true, (List.filter_true _).symm⟩

/-! ### Pushing -/

theorem push_eq (mediaId : MediaId) (bytes : Datagram) (choice : MediaId) :
    audio.push mediaId bytes choice =
      ((audio.makeRoom choice).1,
        { tracks := (audio.makeRoom choice).2.tracks.insert mediaId
            ((audio.makeRoom choice).2.queueOf mediaId ++ [bytes])
          turns :=
            if (audio.makeRoom choice).2.queueOf mediaId = [] then
              (audio.makeRoom choice).2.turns ++ [mediaId]
            else
              (audio.makeRoom choice).2.turns
          len := (audio.makeRoom choice).2.len + 1 }) := rfl

theorem queueOf_push (mediaId : MediaId) (bytes : Datagram) (choice other : MediaId) :
    (audio.push mediaId bytes choice).2.queueOf other =
      (audio.makeRoom choice).2.queueOf other ++ if other = mediaId then [bytes] else [] := by
  rw [push_eq, queueOf_insert]
  split
  · rename_i same
    rw [same]
  · rw [List.append_nil]
    rfl

theorem Orderly.push (orderly : audio.Orderly) (mediaId : MediaId) (bytes : Datagram)
    (choice : MediaId) : (audio.push mediaId bytes choice).2.Orderly := by
  obtain ⟨_, between, _⟩ := orderly.makeRoom choice
  have queues := fun other => audio.queueOf_push mediaId bytes choice other
  rw [push_eq] at queues ⊢
  generalize (audio.makeRoom choice).2 = next at between queues
  refine ⟨?_, fun other => ?_, fun other queue found => ?_, ?_⟩
  · dsimp only
    split
    · rename_i empty
      refine List.nodup_append.mpr ⟨between.once, List.nodup_singleton _, ?_⟩
      rintro first turn second new rfl
      obtain rfl := List.mem_singleton.mp new
      exact (between.turns first).mp turn empty
    · exact between.once
  · rw [queues]
    dsimp only
    split
    · by_cases this : other = mediaId
      · simp [this]
      · simp [this, between.turns]
    · rename_i some_
      by_cases this : other = mediaId
      · simp [this, between.turns, some_]
      · simp [this, between.turns]
  · dsimp only at found
    rw [Map.lookup_insert_ite] at found
    split at found
    · rw [← Option.some.inj found]
      exact List.append_ne_nil_of_right_ne_nil _ (List.cons_ne_nil _ _)
    · exact between.full other queue found
  · dsimp only
    by_cases empty : next.queueOf mediaId = []
    · have missing : next.tracks.lookup mediaId = none := by
        cases found : next.tracks.lookup mediaId with
        | none => rfl
        | some queue =>
          obtain ⟨same, some_⟩ := between.found found
          exact absurd (same.symm.trans empty) some_
      rw [Map.total_insert_of_missing _ missing, between.len, empty]
      rfl
    · rw [Map.total_insert _ (lookup_of_queueOf empty), between.len, List.length_append,
        List.length_singleton]
      push_cast
      omega

/-! ### Popping -/

/-- The track whose turn it is loses its oldest packet, and waits for its next turn if it has
more. -/
theorem Orderly.pop (orderly : audio.Orderly) :
    audio.pop.2.Orderly ∧
      (audio.pop.1 = none ∧ audio.turns = [] ∧ audio.pop.2 = audio ∨
        ∃ mediaId bytes turns, audio.pop.1 = some (mediaId, bytes) ∧
          audio.turns = mediaId :: turns ∧ audio.Loses mediaId bytes audio.pop.2 ∧
          audio.pop.2.turns =
            turns ++ if audio.pop.2.queueOf mediaId = [] then [] else [mediaId]) := by
  cases turns : audio.turns with
  | nil =>
    have same : audio.pop = (none, audio) := by
      unfold AudioQueues.pop
      rw [turns]
    rw [same]
    exact ⟨orderly, .inl ⟨rfl, rfl, rfl⟩⟩
  | cons mediaId rest =>
    have some_ : audio.queueOf mediaId ≠ [] := by
      rw [← orderly.turns, turns]
      exact List.mem_cons_self
    obtain ⟨bytes, queue, same⟩ := List.exists_cons_of_ne_nil some_
    have found := lookup_of_queueOf some_
    rw [same] at found
    have once := orderly.once
    rw [turns, List.nodup_cons] at once
    let turns' := rest ++ if queue = [] then [] else [mediaId]
    have once' : turns'.Nodup := by
      dsimp only [turns']
      split
      · rw [List.append_nil]
        exact once.2
      · refine List.nodup_append.mpr ⟨once.2, List.nodup_singleton _, ?_⟩
        rintro first turn second last rfl
        obtain rfl := List.mem_singleton.mp last
        exact once.1 turn
    have turned : ∀ other, other ∈ turns' ↔
        other ∈ audio.turns ∧ (other = mediaId → queue ≠ []) := by
      intro other
      rw [turns]
      dsimp only [turns']
      by_cases this : other = mediaId
      · rw [this]
        split <;> simp_all
      · split <;> simp [this]
    obtain ⟨orderly', loses⟩ := orderly.loses same once' turned
    have popped : audio.pop = (some (mediaId, bytes),
        ⟨if queue = [] then audio.tracks.erase mediaId else audio.tracks.insert mediaId queue,
          turns', audio.len - 1⟩) := by
      unfold AudioQueues.pop
      simp only [turns, found, turns']
      split <;> simp
    have left := loses.queue
    rw [same, List.cons_inj_right] at left
    rw [popped]
    refine ⟨orderly', .inr ⟨mediaId, bytes, rest, rfl, rfl, loses, ?_⟩⟩
    rw [← left]

theorem Orderly.step (orderly : audio.Orderly) (input : Input) : (audio.step input).Orderly := by
  cases input with
  | push mediaId bytes choice => exact orderly.push mediaId bytes choice
  | pop => exact orderly.pop.1

/-! ### Order -/

theorem ofTrack_append (mediaId : MediaId) (first second : List (MediaId × Datagram)) :
    ofTrack mediaId (first ++ second) = ofTrack mediaId first ++ ofTrack mediaId second := by
  rw [ofTrack, List.filter_append, List.map_append]
  rfl

theorem Loses.queue_eq {mediaId : MediaId} {bytes : Datagram} {next : AudioQueues}
    (loses : audio.Loses mediaId bytes next) (other : MediaId) :
    audio.queueOf other = (if other = mediaId then [bytes] else []) ++ next.queueOf other := by
  split
  · rename_i same
    rw [same]
    exact loses.queue
  · rename_i ne
    exact (loses.others other ne).symm

theorem ofTrack_singleton (mediaId other : MediaId) (bytes : Datagram) :
    ofTrack other [(mediaId, bytes)] = if other = mediaId then [bytes] else [] := by
  by_cases same : other = mediaId
  · simp [ofTrack, same]
  · simp [ofTrack, same, Ne.symm same]

/-- What one input takes out and what it leaves of a track is, in order, of what was queued and
what it puts in. -/
theorem Orderly.apply_inOrder (orderly : audio.Orderly) (input : Input) (mediaId : MediaId) :
    (ofTrack mediaId (audio.apply input).1.toList ++ (audio.step input).queueOf mediaId).Sublist
      (audio.queueOf mediaId ++ ofTrack mediaId input.pushed) := by
  cases input with
  | push pushed bytes choice =>
    have queue : (audio.step (.push pushed bytes choice)).queueOf mediaId =
        (audio.makeRoom choice).2.queueOf mediaId ++ ofTrack mediaId [(pushed, bytes)] := by
      rw [ofTrack_singleton]
      exact queueOf_push ..
    have room := (orderly.makeRoom choice).1
    have shorter : ((audio.makeRoom choice).2.queueOf mediaId).Sublist (audio.queueOf mediaId) := by
      generalize audio.makeRoom choice = made at room
      obtain ⟨evicted | evicted, next⟩ := made
      · rw [room.2]
      · obtain ⟨_, _, bytes, loses⟩ := room
        rw [loses.queue_eq mediaId]
        exact List.sublist_append_right _ _
    rw [queue]
    exact shorter.append (List.Sublist.refl _)
  | pop =>
    have nothing : ofTrack mediaId Input.pop.pushed = [] := rfl
    obtain ⟨_, ⟨none_, _, same⟩ | ⟨served, bytes, turns, some_, _, loses, _⟩⟩ := orderly.pop
    · rw [nothing, List.append_nil]
      have taken : (audio.apply .pop).1 = none := none_
      have left : audio.step .pop = audio := same
      rw [taken, left]
      exact List.Sublist.refl _
    · have taken : (audio.apply .pop).1 = some (served, bytes) := some_
      rw [nothing, List.append_nil, taken, loses.queue_eq mediaId, Option.toList_some,
        ofTrack_singleton]
      exact List.Sublist.refl _

theorem Orderly.popped_inOrder (orderly : audio.Orderly) (inputs : List Input)
    (mediaId : MediaId) :
    (ofTrack mediaId (audio.popped inputs) ++ (run AudioQueues.step audio inputs).queueOf mediaId).Sublist
      (audio.queueOf mediaId ++ ofTrack mediaId (inputs.flatMap Input.pushed)) := by
  induction inputs generalizing audio with
  | nil =>
    rw [List.flatMap_nil, show ofTrack mediaId [] = [] from rfl, List.append_nil]
    exact List.Sublist.refl _
  | cons input rest inductionHypothesis =>
    have later := inductionHypothesis (orderly.step input)
    have now := orderly.apply_inOrder input mediaId
    rw [popped, ofTrack_append, List.append_assoc, run_cons, List.flatMap_cons, ofTrack_append]
    have both := now.append (List.Sublist.refl (ofTrack mediaId (rest.flatMap Input.pushed)))
    rw [List.append_assoc, List.append_assoc] at both
    exact ((List.Sublist.refl _).append later).trans both

/-! ### Fairness -/

/-- The tracks served while the inputs are applied. -/
def served (audio : AudioQueues) (inputs : List Input) : List MediaId :=
  (audio.popped inputs).map Prod.fst

theorem served_cons (audio : AudioQueues) (input : Input) (rest : List Input) :
    audio.served (input :: rest) =
      (audio.apply input).1.toList.map Prod.fst ++ (audio.step input).served rest :=
  List.map_append

theorem StaysQueued.start {mediaId : MediaId} {inputs : List Input}
    (stays : audio.StaysQueued mediaId inputs) : audio.queueOf mediaId ≠ [] := by
  cases inputs with
  | nil => exact stays
  | cons input rest => exact stays.1

/-- Until a track is served again, only the tracks whose turn comes before its own are served,
and each of them once that keeps packets. -/
theorem Orderly.served_before (orderly : audio.Orderly) {mediaId : MediaId} {inputs : List Input}
    {ahead behind : List MediaId} (turns : audio.turns = ahead ++ mediaId :: behind)
    (stays : audio.StaysQueued mediaId inputs) (waits : mediaId ∉ audio.served inputs)
    {bytes : Datagram} (served : (run AudioQueues.step audio inputs).pop.1 = some (mediaId, bytes))
    (other : MediaId) :
    (audio.served inputs).count other ≤ ahead.count other ∧
      (audio.StaysQueued other inputs → other ∈ ahead → (audio.served inputs).count other = 1) := by
  induction inputs generalizing audio ahead behind with
  | nil =>
    obtain ⟨_, ⟨none_, _⟩ | ⟨first, _, rest, some_, turns', _⟩⟩ := orderly.pop
    · have none' : audio.pop.1 = some (mediaId, bytes) := served
      rw [none_] at none'
      cases none'
    · have same : some (first, _) = some (mediaId, bytes) := some_.symm.trans served
      obtain rfl : first = mediaId := (Prod.mk.inj (Option.some.inj same)).1
      -- The track is first in turn, and its turn is the only one it has.
      have alone : ahead = [] := by
        cases ahead with
        | nil => rfl
        | cons head tail =>
          rw [turns] at turns'
          obtain rfl := (List.cons.inj turns').1
          have once := orderly.once
          rw [turns, List.cons_append, List.nodup_cons] at once
          exact absurd (List.mem_append_right _ List.mem_cons_self) once.1
      rw [alone]
      exact ⟨Nat.zero_le _, fun _ there => absurd there List.not_mem_nil⟩
  | cons input rest inductionHypothesis =>
    rw [served_cons] at waits ⊢
    cases input with
    | push pushed bytes' choice =>
      obtain ⟨_, between, keep, kept⟩ := orderly.makeRoom choice
      have nothing : (audio.apply (.push pushed bytes' choice)).1.toList.map Prod.fst = [] := rfl
      rw [nothing, List.nil_append] at waits ⊢
      have keeps : ∀ other, other ∈ audio.turns → (audio.makeRoom choice).2.queueOf other ≠ [] →
          keep other = true := by
        intro other _ some_
        rw [← between.turns, kept, List.mem_filter] at some_
        exact some_.2
      have mine : keep mediaId = true := keeps mediaId (by rw [turns]; simp)
        (stays.2.1 pushed bytes' choice rfl)
      rw [turns, List.filter_append, List.filter_cons_of_pos mine] at kept
      obtain ⟨behind', turns'⟩ : ∃ behind', (audio.step (.push pushed bytes' choice)).turns =
          ahead.filter keep ++ mediaId :: behind' := by
        have step : audio.step (.push pushed bytes' choice) =
          (audio.push pushed bytes' choice).2 := rfl
        rw [step, push_eq, kept]
        dsimp only
        split
        · exact ⟨_, List.append_assoc ..⟩
        · exact ⟨_, rfl⟩
      obtain ⟨most, once⟩ := inductionHypothesis (orderly.step _) turns' stays.2.2 waits served
      refine ⟨most.trans (List.filter_sublist.count_le other), fun stays' there => ?_⟩
      refine once stays'.2.2 (List.mem_filter.mpr ⟨there, keeps other ?_ ?_⟩)
      · rw [turns]
        exact List.mem_append_left _ there
      · exact stays'.2.1 pushed bytes' choice rfl
    | pop =>
      obtain ⟨_, ⟨_, none_, _⟩ | ⟨first, _, rest', some_, first', loses, turns'⟩⟩ := orderly.pop
      · rw [turns] at none_
        exact absurd none_ (List.append_ne_nil_of_right_ne_nil _ (List.cons_ne_nil _ _))
      · have taken : (audio.apply .pop).1.toList.map Prod.fst = [first] := by
          have some_ : (audio.apply .pop).1 = some (first, _) := some_
          rw [some_]
          rfl
        rw [taken, List.singleton_append] at waits ⊢
        rw [List.mem_cons, not_or] at waits
        cases ahead with
        | nil =>
          rw [turns, List.nil_append] at first'
          exact absurd (List.cons.inj first').1 waits.1
        | cons head tail =>
          rw [turns, List.cons_append] at first'
          obtain ⟨rfl, rfl⟩ := List.cons.inj first'
          rw [List.append_assoc, List.cons_append] at turns'
          obtain ⟨most, once⟩ :=
            inductionHypothesis (orderly.step .pop) turns' stays.2.2 waits.2 served
          rw [List.count_cons, List.count_cons]
          refine ⟨Nat.add_le_add_right most _, fun stays' there => ?_⟩
          have nodup := orderly.once
          rw [turns, List.cons_append, List.nodup_cons] at nodup
          by_cases same : head = other
          · -- It is served now, and its next turn comes after the track's own.
            subst same
            have gone : head ∉ tail := fun there => nodup.1 (List.mem_append_left _ there)
            rw [List.count_eq_zero_of_not_mem gone, Nat.le_zero] at most
            rw [most]
            simp
          · rw [once stays'.2.2 (List.mem_of_ne_of_mem (Ne.symm same) there)]
            simp [same]

/-! ### The main result -/

/-- After a track was served, every other track is served at most once until it is served again,
as long as it keeps packets; one that keeps packets too is served exactly once. -/
def ServesFairly (audio : AudioQueues) : Prop :=
  ∀ mediaId bytes bytes' inputs, audio.pop.1 = some (mediaId, bytes) →
    audio.pop.2.StaysQueued mediaId inputs → mediaId ∉ audio.pop.2.served inputs →
    (run step audio.pop.2 inputs).pop.1 = some (mediaId, bytes') →
    ∀ other, other ≠ mediaId →
      (audio.pop.2.served inputs).count other ≤ 1 ∧
        (audio.pop.2.StaysQueued other inputs → (audio.pop.2.served inputs).count other = 1)

theorem Orderly.servesFairly (orderly : audio.Orderly) : audio.ServesFairly := by
  intro mediaId bytes bytes' inputs first stays waits again other ne
  obtain ⟨orderly', ⟨none_, _⟩ | ⟨served, _, turns, some_, was, _, turns'⟩⟩ := orderly.pop
  · rw [none_] at first
    cases first
  · have same : some (served, _) = some (mediaId, bytes) := some_.symm.trans first
    obtain rfl : served = mediaId := (Prod.mk.inj (Option.some.inj same)).1
    rw [if_neg stays.start] at turns'
    have nodup := orderly.once
    rw [was, List.nodup_cons] at nodup
    obtain ⟨most, once⟩ := orderly'.served_before turns' stays waits again other
    refine ⟨most.trans (List.nodup_iff_count_le_one.mp nodup.2 other), fun stays' => ?_⟩
    refine once stays' ?_
    have turn := (orderly'.turns other).mpr stays'.start
    rw [turns', List.mem_append, List.mem_singleton] at turn
    exact turn.resolve_right ne

/-- A push makes room, and its packet then is the last of its track. -/
def Pushes (audio : AudioQueues) : Prop :=
  ∀ mediaId bytes choice, ∃ between,
    audio.RoomMade (audio.push mediaId bytes choice).1 between ∧
      ∀ other, (audio.push mediaId bytes choice).2.queueOf other =
        between.queueOf other ++ if other = mediaId then [bytes] else []

/-- A pop takes a track's oldest packet, and nothing if there are no packets. -/
def Pops (audio : AudioQueues) : Prop :=
  audio.pop.1 = none ∧ (∀ mediaId, audio.queueOf mediaId = []) ∧ audio.pop.2 = audio ∨
    ∃ mediaId bytes, audio.pop.1 = some (mediaId, bytes) ∧ audio.Loses mediaId bytes audio.pop.2

/-- Whatever is pushed and popped: the length is that of all queues, every track with packets has
one turn and no other has any, packets of a track come out in the order they went in, tracks that
keep packets are served in turns, and only a push at the cap loses a packet, which is the oldest
of a track that has the most. -/
theorem run_servesFairly (inputs : List Input) :
    let audio := run step {} inputs
    audio.Orderly ∧
      (∀ mediaId,
        (ofTrack mediaId (popped {} inputs) ++ audio.queueOf mediaId).Sublist
          (ofTrack mediaId (inputs.flatMap Input.pushed))) ∧
      audio.ServesFairly ∧ audio.Pushes ∧ audio.Pops := by
  intro audio
  have orderly : audio.Orderly :=
    run_invariant step Orderly orderly_empty (fun _ input orderly => orderly.step input) inputs
  refine ⟨orderly, orderly_empty.popped_inOrder inputs, orderly.servesFairly, ?_, ?_⟩
  · intro mediaId bytes choice
    exact ⟨_, (orderly.makeRoom choice).1, fun other => queueOf_push mediaId bytes choice other⟩
  · obtain ⟨_, ⟨none_, turns, same⟩ | ⟨mediaId, bytes, _, some_, _, loses, _⟩⟩ := orderly.pop
    · refine .inl ⟨none_, fun mediaId => ?_, same⟩
      by_contra some_
      have turn := (orderly.turns mediaId).mpr some_
      rw [turns] at turn
      cases turn
    · exact .inr ⟨mediaId, bytes, some_, loses⟩

end AudioQueues

end Throcc
