/-
This file proves that held media never misses its key. The generation of the key
manager changes whenever a lookup starts to return a key, so a track that has
tried what it holds at the present generation holds nothing that a key opens;
it handles what it holds in the order of arrival, before what arrives after a
key, and never again once it is opened.

The proof looks at a task as the queue of what it holds and what its call still
has to handle (`Waiting`). Every step of the task or of another one is a turn of
it (`Waiting.Turn`). Two invariants hold after every turn: the numbers of the
queue stay in order (`Waiting.InOrder`), and the generations at which the pending
datagrams were tried keep up with the key manager's (`Waiting.Awake`).
-/

import Throcc.Generation
import Throcc.Run
import Throcc.Track

namespace Throcc

/-! ### Turns -/

/-- Whether a datagram opens with the keys now available. -/
def KeyManager.Opens {crypto : Crypto} (aead : Aead crypto) (keys : KeyManager crypto)
    (mediaId : MediaId) (arrival : Arrival) : Prop :=
  ∃ header plaintext, aead.opening (keys.recvKey mediaId arrival.epoch).1 arrival.datagram =
    .opens header plaintext

/-- What is held and still to be handled on a track, with the keys it waits for. -/
structure Waiting (crypto : Crypto) where
  keys : KeyManager crypto
  mediaId : MediaId
  pending : List Held
  triedGeneration : Nat
  progress : Progress crypto
  opened : List Arrival
  arrivals : Nat

namespace Waiting

variable {crypto : Crypto}

/-- What is held, then what a call still has to handle. -/
def queue (waiting : Waiting crypto) : List Arrival :=
  waiting.pending.map Held.arrival ++ waiting.progress.arrivals

/-- What a step makes of it. -/
inductive Turn (aead : Aead crypto) : Waiting crypto → Waiting crypto → Prop where
  | stay (waiting : Waiting crypto) : Turn aead waiting waiting
  | rekey (waiting : Waiting crypto) (keys : KeyManager crypto)
      (follows : waiting.keys.Follows keys) : Turn aead waiting { waiting with keys }
  | arrive (waiting : Waiting crypto) (arrival : Arrival)
      (idle : waiting.progress = .lookUp []) (next : arrival.number = waiting.arrivals)
      (now : arrival.since = waiting.keys.generation) :
      Turn aead waiting
        { waiting with progress := .retry [arrival], arrivals := waiting.arrivals + 1 }
  | malformed (waiting : Waiting crypto) (idle : waiting.progress = .lookUp []) :
      Turn aead waiting { waiting with progress := .retry [], arrivals := waiting.arrivals + 1 }
  | expire (waiting : Waiting crypto) (kept : List Held) (part : kept.Sublist waiting.pending)
      (idle : waiting.progress = .lookUp []) :
      Turn aead waiting { waiting with pending := kept, progress := .retry [] }
  | skip (waiting : Waiting crypto) (fresh : List Arrival) (at_ : waiting.progress = .retry fresh)
      (tried : waiting.pending = [] ∨ waiting.keys.generation = waiting.triedGeneration) :
      Turn aead waiting { waiting with progress := .lookUp fresh }
  | retake (waiting : Waiting crypto) (fresh : List Arrival)
      (at_ : waiting.progress = .retry fresh) :
      Turn aead waiting
        { waiting with
          pending := []
          triedGeneration := waiting.keys.generation
          progress := .lookUp (waiting.pending.map Held.arrival ++ fresh) }
  | lookUp (waiting : Waiting crypto) (arrival : Arrival) (rest : List Arrival)
      (at_ : waiting.progress = .lookUp (arrival :: rest)) :
      Turn aead waiting
        { waiting with
          keys := (waiting.keys.recvKey waiting.mediaId arrival.epoch).2
          progress := .looked arrival (waiting.keys.recvKey waiting.mediaId arrival.epoch).1
            (waiting.keys.recvKey waiting.mediaId arrival.epoch).2.generation rest }
  | hold (waiting : Waiting crypto) (arrival : Arrival) (key : Option crypto.TrackKey)
      (generation : Nat) (rest : List Arrival)
      (at_ : waiting.progress = .looked arrival key generation rest)
      (waits : aead.opening key arrival.datagram = .waits) :
      Turn aead waiting
        { waiting with
          pending := waiting.pending ++ [{ arrival, triedAt := generation }]
          progress := .lookUp rest }
  | discard (waiting : Waiting crypto) (arrival : Arrival) (key : Option crypto.TrackKey)
      (generation : Nat) (rest : List Arrival)
      (at_ : waiting.progress = .looked arrival key generation rest) :
      Turn aead waiting { waiting with progress := .lookUp rest }
  | opens (waiting : Waiting crypto) (arrival : Arrival) (key : Option crypto.TrackKey)
      (generation : Nat) (rest : List Arrival)
      (at_ : waiting.progress = .looked arrival key generation rest) :
      Turn aead waiting
        { waiting with progress := .lookUp rest, opened := waiting.opened ++ [arrival] }

end Waiting

/-! ### Every step is a turn -/

namespace Track

/-- What a track holds and what it last tried it against. -/
def kept (track : Track) : MediaId × List Held × Nat :=
  (track.mediaId, track.pending, track.triedGeneration)

theorem kept_deliver (track : Track) (unit : AccessUnit) :
    (track.deliver unit).kept = track.kept := by
  unfold deliver
  dsimp only
  split
  · rfl
  · split
    · rfl
    · rfl

theorem kept_emit (track : Track) (outputs : List ReorderOutput) :
    (track.emit outputs).kept = track.kept := by
  unfold emit
  induction outputs generalizing track with
  | nil => rfl
  | cons output rest inductionHypothesis =>
    rw [List.foldl_cons, inductionHypothesis]
    cases output with
    | unit unit => exact kept_deliver _ unit
    | abandoned first => rfl
    | late => rfl

theorem kept_push (track : Track) (header : Header) (plaintext : List UInt8) (now : Instant) :
    (track.push header plaintext now).kept = track.kept := by
  unfold push
  cases track.reassembler.push header.seq header.flags plaintext with
  | none => rfl
  | some pushed =>
    obtain ⟨unit, reassembler⟩ := pushed
    cases unit with
    | none => rfl
    | some unit =>
      dsimp only
      cases track.kind with
      | audio => exact kept_deliver _ unit
      | video => exact kept_emit _ _

theorem kept_afterRetry (track : Track) (now : Instant) :
    (track.afterRetry now).kept = track.kept := kept_emit _ _

end Track

namespace Listening

variable {crypto : Crypto} {aead : Aead crypto}

def waiting (listening : Listening crypto) : Waiting crypto where
  keys := listening.keys
  mediaId := listening.track.mediaId
  pending := listening.track.pending
  triedGeneration := listening.track.triedGeneration
  progress := listening.call.elim (.lookUp []) Call.progress
  opened := listening.opened
  arrivals := listening.arrivals

/-- What becomes of a unit on a track changes nothing here. -/
theorem waiting_congr {before after : Listening crypto} (keys : after.keys = before.keys)
    (kept : after.track.kept = before.track.kept) (call : after.call = before.call)
    (opened : after.opened = before.opened) (arrivals : after.arrivals = before.arrivals) :
    after.waiting = before.waiting := by
  have mediaId : after.track.mediaId = before.track.mediaId := congrArg Prod.fst kept
  have pending : after.track.pending = before.track.pending :=
    congrArg (fun kept => kept.2.1) kept
  have tried : after.track.triedGeneration = before.track.triedGeneration :=
    congrArg (fun kept => kept.2.2) kept
  unfold waiting
  rw [keys, mediaId, pending, tried, call, opened, arrivals]

theorem waiting_accept (listening : Listening crypto) (header : Header) (plaintext : List UInt8)
    (length : Nat) (now : Instant) :
    (listening.accept header plaintext length now).waiting = listening.waiting := by
  unfold accept
  cases listening.sinks.lookup listening.track.mediaId with
  | none => rfl
  | some sink =>
    dsimp only
    split
    · exact waiting_congr rfl (Track.kept_push ..) rfl rfl rfl
    · exact waiting_congr rfl rfl rfl rfl rfl

/-- A task that takes something new is not in a call. -/
theorem idle_of_free {listening : Listening crypto}
    (free : ¬ (listening.call.isSome || listening.track.ended) = true) :
    listening.call = none := by
  cases calling : listening.call with
  | none => rfl
  | some call =>
    rw [calling] at free
    exact absurd rfl free

theorem waiting_finish (listening : Listening crypto) (call : Call crypto) :
    (listening.finish call).waiting = { listening.waiting with progress := .lookUp [] } := by
  let idle : Listening crypto := { listening with call := none }
  refine @waiting_congr _ idle _ rfl ?_ rfl rfl rfl
  unfold finish
  dsimp only
  split
  · exact Track.kept_afterRetry ..
  · rfl

theorem receive_turns (listening : Listening crypto) (idle : listening.call = none)
    (datagram : List UInt8) (now : Instant) :
    Waiting.Turn aead listening.waiting (listening.receive datagram now).waiting := by
  have waits : listening.waiting.progress = .lookUp [] := by
    unfold waiting
    rw [idle]
    rfl
  unfold receive
  split
  · exact .stay _
  · cases Header.parseStrict datagram with
    | error => exact .malformed _ waits
    | ok header => exact .arrive _ _ waits rfl rfl

theorem tick_turns (listening : Listening crypto) (idle : listening.call = none) (now : Instant) :
    Waiting.Turn aead listening.waiting (listening.tick now).waiting := by
  refine .expire _ _ (List.dropWhile_sublist _) ?_
  unfold waiting
  rw [idle]
  rfl

theorem handle_turns (listening : Listening crypto) (call : Call crypto) (arrival : Arrival)
    (key : Option crypto.TrackKey) (generation : Nat) (rest : List Arrival)
    (at_ : listening.waiting.progress = .looked arrival key generation rest) :
    Waiting.Turn aead listening.waiting
      (listening.handle aead call arrival key generation rest).waiting := by
  unfold handle
  dsimp only
  cases opened : aead.opening key arrival.datagram with
  | waits =>
    dsimp only [Track.hold]
    split
    · exact .hold _ arrival key generation rest at_ opened
    · exact .discard _ arrival key generation rest at_
  | fails => exact .discard _ arrival key generation rest at_
  | opens header plaintext =>
    dsimp only
    rw [waiting_accept]
    exact .opens _ arrival key generation rest at_

theorem resume_turns (listening : Listening crypto) {call : Call crypto}
    (calling : listening.call = some call) :
    Waiting.Turn aead listening.waiting (listening.resume aead call).waiting := by
  have at_ : listening.waiting.progress = call.progress := by
    unfold waiting
    rw [calling]
    rfl
  unfold resume
  cases progress : call.progress with
  | retry fresh =>
    rw [progress] at at_
    dsimp only [retryPending]
    split
    · rename_i tried
      exact .skip _ fresh at_ (tried.imp_left List.isEmpty_iff.mp)
    · exact .retake _ fresh at_
  | lookUp arrivals =>
    rw [progress] at at_
    cases arrivals with
    | nil =>
      have same : (listening.finish call).waiting = listening.waiting := by
        rw [listening.waiting_finish call, ← at_]
      exact same ▸ .stay _
    | cons arrival rest => exact .lookUp _ arrival rest at_
  | looked arrival key generation rest =>
    exact listening.handle_turns call arrival key generation rest (at_.trans progress)

theorem step_turns (listening : Listening crypto) (input : Input crypto) :
    Waiting.Turn aead listening.waiting (listening.step aead input).waiting := by
  cases input with
  | perform clock op => exact .rekey _ _ (listening.keys.perform_follows clock op)
  | setSinks sinks => exact .stay _
  | consume => exact .stay _
  | drop => exact .stay _
  | close =>
    dsimp only [step]
    split
    · exact .stay _
    · exact .stay _
  | receive datagram now =>
    dsimp only [step]
    split
    · exact .stay _
    · rename_i free
      exact listening.receive_turns (idle_of_free free) datagram now
  | tick now =>
    dsimp only [step]
    split
    · exact .stay _
    · rename_i free
      exact listening.tick_turns (idle_of_free free) now
  | resume =>
    dsimp only [step]
    cases calling : listening.call with
    | none => exact .stay _
    | some call =>
      dsimp only
      split
      · exact .stay _
      · exact listening.resume_turns calling

end Listening

/-! ### The queue stays in order -/

/-- The arrivals of a queue are in order, and what was opened is not among them. -/
structure Queued (queue opened : List Arrival) (arrivals : Nat) : Prop where
  ascending : (queue.map Arrival.number).Pairwise (· < ·)
  numbered : ∀ arrival ∈ queue ++ opened, arrival.number < arrivals
  once : ((queue ++ opened).map Arrival.number).Nodup

namespace Queued

variable {queue opened : List Arrival} {arrivals : Nat}

theorem sublist (queued : Queued queue opened arrivals) {kept : List Arrival}
    (part : kept.Sublist queue) : Queued kept opened arrivals := by
  have all : (kept ++ opened).Sublist (queue ++ opened) := part.append_right opened
  exact {
    ascending := queued.ascending.sublist (part.map _)
    numbered := fun arrival member => queued.numbered arrival (all.subset member)
    once := queued.once.sublist (all.map _) }

theorem arrive (queued : Queued queue opened arrivals) {arrival : Arrival}
    (next : arrival.number = arrivals) : Queued (queue ++ [arrival]) opened (arrivals + 1) := by
  have rearranged : (queue ++ [arrival] ++ opened).Perm (arrival :: (queue ++ opened)) := by
    rw [List.append_assoc]
    exact List.perm_middle
  have below : ∀ other ∈ queue ++ opened, other.number < arrival.number := fun other member =>
    (queued.numbered other member).trans_eq next.symm
  constructor
  · rw [List.map_append, List.pairwise_append]
    refine ⟨queued.ascending, List.pairwise_singleton _ _, ?_⟩
    intro number member last isLast
    obtain ⟨other, inQueue, rfl⟩ := List.mem_map.mp member
    rw [List.mem_singleton.mp isLast]
    exact below other (List.mem_append_left _ inQueue)
  · intro other member
    rcases List.mem_cons.mp (rearranged.mem_iff.mp member) with rfl | old
    · exact next.trans_lt (Nat.lt_succ_self _)
    · exact (queued.numbered other old).trans (Nat.lt_succ_self _)
  · rw [(rearranged.map _).nodup_iff, List.map_cons, List.nodup_cons]
    refine ⟨fun member => ?_, queued.once⟩
    obtain ⟨other, old, same⟩ := List.mem_map.mp member
    exact (below other old).ne same

theorem skip (queued : Queued queue opened arrivals) : Queued queue opened (arrivals + 1) where
  ascending := queued.ascending
  numbered arrival member := (queued.numbered arrival member).trans (Nat.lt_succ_self _)
  once := queued.once

theorem opens {before after : List Arrival} {arrival : Arrival}
    (queued : Queued (before ++ arrival :: after) opened arrivals) :
    Queued (before ++ after) (opened ++ [arrival]) arrivals := by
  have rearranged :
      (before ++ after ++ (opened ++ [arrival])).Perm (before ++ arrival :: after ++ opened) := by
    rw [List.append_assoc, List.append_assoc, ← List.append_assoc after]
    exact (List.perm_append_singleton arrival (after ++ opened)).append_left before
  exact {
    ascending := queued.ascending.sublist
      (((List.sublist_cons_self arrival after).append_left before).map _)
    numbered := fun other member => queued.numbered other (rearranged.mem_iff.mp member)
    once := (rearranged.map _).nodup_iff.mpr queued.once }

end Queued

namespace Waiting

variable {crypto : Crypto} {aead : Aead crypto} {before after : Waiting crypto}

def InOrder (waiting : Waiting crypto) : Prop :=
  Queued waiting.queue waiting.opened waiting.arrivals

theorem InOrder.turn (turn : Turn aead before after) (inOrder : before.InOrder) :
    after.InOrder := by
  unfold InOrder queue at inOrder
  cases turn with
  | stay => exact inOrder
  | rekey keys follows => exact inOrder
  | arrive arrival idle next now =>
    rw [idle] at inOrder
    dsimp only [Progress.arrivals] at inOrder
    rw [List.append_nil] at inOrder
    exact inOrder.arrive next
  | malformed idle =>
    rw [idle] at inOrder
    exact inOrder.skip
  | expire kept part idle =>
    rw [idle] at inOrder
    exact inOrder.sublist ((part.map _).append_right _)
  | skip fresh at_ tried =>
    rw [at_] at inOrder
    exact inOrder
  | retake fresh at_ =>
    rw [at_] at inOrder
    exact inOrder
  | lookUp arrival rest at_ =>
    rw [at_] at inOrder
    exact inOrder
  | hold arrival key generation rest at_ waits =>
    rw [at_] at inOrder
    unfold InOrder queue
    dsimp only
    rw [List.map_append, List.append_assoc]
    exact inOrder
  | discard arrival key generation rest at_ =>
    rw [at_] at inOrder
    exact inOrder.sublist ((List.sublist_cons_self arrival rest).append_left _)
  | opens arrival key generation rest at_ =>
    rw [at_] at inOrder
    exact inOrder.opens

/-! ### Nothing held misses its key -/

/-- What a call handles, once it has looked at the generation. -/
def handled : Progress crypto → List Arrival
  | .retry _ => []
  | .lookUp arrivals => arrivals
  | .looked arrival _ _ rest => arrival :: rest

/-- A key looked up at a generation is what a lookup still returns, if that is still the
generation. -/
structure Looked (waiting : Waiting crypto) (arrival : Arrival) (key : Option crypto.TrackKey)
    (generation : Nat) (rest : List Arrival) : Prop where
  tried : waiting.triedGeneration ≤ generation
  past : generation ≤ waiting.keys.generation
  since : ∀ later ∈ rest, later.since ≤ generation
  nothingNew : waiting.keys.generation = generation →
    waiting.keys.returned waiting.mediaId arrival.epoch = none ∨
      waiting.keys.returned waiting.mediaId arrival.epoch = key

/-- What is held was tried at the generation last tried or later, and with the keys now
available if that is the generation now. -/
structure Awake (aead : Aead crypto) (waiting : Waiting crypto) : Prop where
  tried : waiting.triedGeneration ≤ waiting.keys.generation
  since : ∀ arrival ∈ waiting.queue, arrival.since ≤ waiting.keys.generation
  within : ∀ held ∈ waiting.pending,
    waiting.triedGeneration ≤ held.triedAt ∧ held.triedAt ≤ waiting.keys.generation
  shut : ∀ held ∈ waiting.pending, held.triedAt = waiting.keys.generation →
    ¬ waiting.keys.Opens aead waiting.mediaId held.arrival
  served : ∀ arrival ∈ handled waiting.progress, ∀ held ∈ waiting.pending,
    arrival.since ≤ held.triedAt
  looked : ∀ arrival key generation rest,
    waiting.progress = .looked arrival key generation rest →
    waiting.Looked arrival key generation rest

theorem opens_of_returnsNothingNew {keys later : KeyManager crypto} {mediaId : MediaId}
    {arrival : Arrival} (nothingNew : keys.ReturnsNothingNew later)
    (opens : later.Opens aead mediaId arrival) : keys.Opens aead mediaId arrival := by
  obtain ⟨header, plaintext, opens⟩ := opens
  rw [KeyManager.recvKey_returned] at opens
  rcases nothingNew mediaId arrival.epoch with nothing | same
  · rw [nothing] at opens
    cases opens
  · refine ⟨header, plaintext, ?_⟩
    rw [KeyManager.recvKey_returned, ← same]
    exact opens

theorem Awake.rekey (awake : before.Awake aead) {keys : KeyManager crypto}
    (follows : before.keys.Follows keys) : Awake aead { before with keys } where
  tried := awake.tried.trans follows.rises
  since arrival member := (awake.since arrival member).trans follows.rises
  within held member := ⟨(awake.within held member).1, (awake.within held member).2.trans follows.rises⟩
  shut held member atNow opens := by
    have past := (awake.within held member).2
    have same : before.keys.generation = keys.generation :=
      le_antisymm follows.rises (atNow ▸ past)
    refine awake.shut held member (atNow.trans same.symm) ?_
    exact opens_of_returnsNothingNew (follows.nothingNew same.symm) opens
  served := awake.served
  looked arrival key generation rest at_ := by
    have looked := awake.looked arrival key generation rest at_
    refine ⟨looked.tried, looked.past.trans follows.rises, looked.since, fun atNow => ?_⟩
    have same : before.keys.generation = keys.generation :=
      le_antisymm follows.rises (atNow.trans_le looked.past)
    rcases follows.nothingNew same.symm before.mediaId arrival.epoch with nothing | returned
    · exact Or.inl nothing
    · rw [show keys.returned before.mediaId arrival.epoch = _ from returned]
      exact looked.nothingNew (same.trans atNow)

/-- What the key looked up does not open, no lookup at its generation opens. -/
theorem Looked.not_opens {arrival : Arrival} {key : Option crypto.TrackKey} {generation : Nat}
    {rest : List Arrival} (looked : before.Looked arrival key generation rest)
    (waits : aead.opening key arrival.datagram = .waits)
    (atNow : before.keys.generation = generation) :
    ¬ before.keys.Opens aead before.mediaId arrival := by
  rintro ⟨header, plaintext, opens⟩
  rw [KeyManager.recvKey_returned] at opens
  rcases looked.nothingNew atNow with nothing | same
  · rw [nothing] at opens
    cases opens
  · rw [same, waits] at opens
    cases opens

theorem Awake.moveOn (awake : before.Awake aead) {arrival : Arrival}
    {key : Option crypto.TrackKey} {generation : Nat} {rest : List Arrival}
    (at_ : before.progress = .looked arrival key generation rest) :
    Awake aead { before with progress := .lookUp rest } := by
  have since := awake.since
  have served := awake.served
  unfold queue at since
  rw [at_] at since served
  refine { awake with since := ?_, served := ?_, looked := ?_ }
  · have part := (List.sublist_cons_self arrival rest).append_left
      (before.pending.map Held.arrival)
    exact fun other member => since other (part.subset member)
  · exact fun later member => served later (List.mem_cons_of_mem arrival member)
  · exact fun _ _ _ _ at_ => by cases at_

theorem Awake.turn (turn : Turn aead before after) (awake : before.Awake aead) :
    after.Awake aead := by
  have since := awake.since
  have served := awake.served
  unfold queue at since
  cases turn with
  | stay => exact awake
  | rekey keys follows => exact awake.rekey follows
  | arrive arrival idle next now =>
    refine { awake with since := ?_, served := ?_, looked := ?_ }
    · intro other member
      rcases List.mem_append.mp member with old | fresh
      · exact since other (List.mem_append_left _ old)
      · rw [List.mem_singleton.mp fresh]
        exact now.le
    · exact fun _ member => by cases member
    · exact fun _ _ _ _ at_ => by cases at_
  | malformed idle =>
    refine { awake with since := ?_, served := ?_, looked := ?_ }
    · rw [idle] at since
      exact since
    · exact fun _ member => by cases member
    · exact fun _ _ _ _ at_ => by cases at_
  | expire kept part idle =>
    constructor
    · exact awake.tried
    · rw [idle] at since
      exact fun arrival member => since arrival (((part.map _).append_right _).subset member)
    · exact fun held member => awake.within held (part.subset member)
    · exact fun held member => awake.shut held (part.subset member)
    · exact fun _ member => by cases member
    · exact fun _ _ _ _ at_ => by cases at_
  | skip fresh at_ tried =>
    rw [at_] at since
    refine { awake with since := since, served := ?_, looked := ?_ }
    · intro arrival member held inPending
      rcases tried with empty | same
      · rw [empty] at inPending
        cases inPending
      · calc arrival.since
            ≤ before.keys.generation := since arrival (List.mem_append_right _ member)
          _ = before.triedGeneration := same
          _ ≤ held.triedAt := (awake.within held inPending).1
    · exact fun _ _ _ _ at_ => by cases at_
  | retake fresh at_ =>
    rw [at_] at since
    exact {
      tried := le_rfl
      since := since
      within := fun _ member => by cases member
      shut := fun _ member => by cases member
      served := fun _ _ _ member => by cases member
      looked := fun _ _ _ _ at_ => by cases at_ }
  | lookUp arrival rest at_ =>
    rw [at_] at since served
    have follows := before.keys.recvKey_follows before.mediaId arrival.epoch
    have rekeyed := awake.rekey follows
    refine { rekeyed with since := ?_, served := served, looked := ?_ }
    · exact fun other member => (since other member).trans follows.rises
    · rintro _ _ _ _ ⟨⟩
      refine ⟨rekeyed.tried, le_rfl, fun later member => ?_, fun _ => ?_⟩
      · have inQueue := List.mem_append_right (before.pending.map Held.arrival)
          (List.mem_cons_of_mem arrival member)
        exact (since later inQueue).trans follows.rises
      · rw [KeyManager.recvKey_returned]
        exact before.keys.recvKey_returns before.mediaId arrival.epoch before.mediaId arrival.epoch
  | hold arrival key generation rest at_ waits =>
    rw [at_] at since served
    have looked := awake.looked arrival key generation rest at_
    constructor
    · exact awake.tried
    · unfold queue
      dsimp only
      rw [List.map_append, List.append_assoc]
      exact since
    · intro held member
      rcases List.mem_append.mp member with old | new
      · exact awake.within held old
      · rw [List.mem_singleton.mp new]
        exact ⟨looked.tried, looked.past⟩
    · intro held member atNow opens
      rcases List.mem_append.mp member with old | new
      · exact awake.shut held old atNow opens
      · rw [List.mem_singleton.mp new] at atNow opens
        exact looked.not_opens waits atNow.symm opens
    · intro later member held inPending
      rcases List.mem_append.mp inPending with old | new
      · exact served later (List.mem_cons_of_mem _ member) held old
      · rw [List.mem_singleton.mp new]
        exact looked.since later member
    · exact fun _ _ _ _ at_ => by cases at_
  | discard arrival key generation rest at_ => exact awake.moveOn at_
  | opens arrival key generation rest at_ =>
    have moved := awake.moveOn at_
    exact { moved with since := moved.since, looked := fun _ _ _ _ at_ => by cases at_ }

theorem Turn.follows (turn : Turn aead before after) : before.keys.Follows after.keys := by
  cases turn with
  | rekey keys follows => exact follows
  | lookUp arrival rest at_ => exact before.keys.recvKey_follows before.mediaId arrival.epoch
  | stay => exact .refl _
  | arrive arrival idle next now => exact .refl _
  | malformed idle => exact .refl _
  | expire kept part idle => exact .refl _
  | skip fresh at_ tried => exact .refl _
  | retake fresh at_ => exact .refl _
  | hold arrival key generation rest at_ waits => exact .refl _
  | discard arrival key generation rest at_ => exact .refl _
  | opens arrival key generation rest at_ => exact .refl _

end Waiting

/-! ### Every run -/

namespace Listening

variable {crypto : Crypto}

/-- What holds after every turn holds after every run. -/
theorem run_turns (aead : Aead crypto) (holds : Waiting crypto → Prop)
    (kept : ∀ before after, Waiting.Turn aead before after → holds before → holds after)
    {listening : Listening crypto} (start : holds listening.waiting)
    (inputs : List (Input crypto)) : holds (run (step aead) listening inputs).waiting :=
  run_invariant (step aead) (fun listening => holds listening.waiting) start
    (fun listening input => kept _ _ (listening.step_turns input)) inputs

section

variable (keys : KeyManager crypto) (sinks : Map MediaId Sink) (mediaId : MediaId) (kind : Kind)
  (capacity : Nat)

end

end Listening

end Throcc
