/-
This file embeds the queues the server keeps for one receiver: audio is served
first and in turns, video goes in whole access units, and what waits too long
is dropped in whole units.

Byte and packet counts are integers, so that a subtraction below zero would
show. Where the longest audio queues are equally long the source leaves it to
its hash map which of them loses a packet; a push names that track here.
-/

import Throcc.Frame
import Throcc.Hub
import Throcc.Run

namespace Throcc

/-- Queued video beyond this is dropped, in whole units that haven't started sending. -/
def videoBudget : Duration := fromMillis 150
def maxIngressBytesPerSecond : Nat := 25000000 / 8
/-- The video budget of every share in a room at the ingress limit. -/
def maxQueuedVideoBytes : Int := maxRoomShares * maxIngressBytesPerSecond * 150 / 1000
/-- Two seconds of every audio track a full room sends one receiver, at 50 frames/s. -/
def maxQueuedAudio : Int := 2 * 50 * (maxRoomMembers - 1 + maxRoomShares)
/-- A unit's fragment limit. -/
def maxUnitFragments : Nat := 4096
/-- A started unit that gets no fragment for this long is given up on. -/
def unitIdle : Duration := fromSecs 1
def idleCheck : Duration := fromMillis 100
/-- Unit starts remembered per track, to place late fragments. -/
def historyLimit : Nat := 32

/-- The bytes of one datagram. -/
abbrev Datagram := List UInt8

structure Packet where
  kind : TrackKind
  header : Header
  bytes : Datagram
deriving DecidableEq, Repr

/-- A packet that found the inbox full. -/
structure Lost where
  kind : TrackKind
  mediaId : MediaId
  seq : Nat
  first : Bool
deriving DecidableEq, Repr

/-- What became of a unit, by its first `seq`. -/
inductive Fate where
  | queued (id : Nat)
  | sent
  | dropped
deriving DecidableEq, Repr

structure VideoUnit where
  id : Nat
  mediaId : MediaId
  packets : List Datagram
  received : Nat := 1
  arrived : Instant
  lastFragment : Instant
  started : Bool := false
  /-- The last fragment has arrived. -/
  complete : Bool := false
  /-- A fragment of a unit already sent, forwarded on its own and never counted as a drop. -/
  stray : Bool := false
  firstSeq : Nat
  /-- A resent copy of a unit seen before. Counted only once no other copy is queued. -/
  copy : Bool := false
deriving DecidableEq, Repr

def VideoUnit.new (id : Nat) (mediaId : MediaId) (firstSeq : Nat) (bytes : Datagram)
    (now : Instant) : VideoUnit where
  id := id
  mediaId := mediaId
  packets := [bytes]
  arrived := now
  lastFragment := now
  firstSeq := firstSeq

/-- The length of all packets of the unit. -/
def VideoUnit.len (unit : VideoUnit) : Int := (unit.packets.map fun bytes => (bytes.length : Int)).sum

structure Counters where
  forwarded : Nat := 0
  droppedUnits : Nat := 0
deriving DecidableEq, Repr

/-! ### Audio -/

/-- One receiver's audio, a queue per track, served one packet per track in turn. -/
structure AudioQueues where
  tracks : Map MediaId (List Datagram) := ∅
  /-- Tracks with packets queued, in the order they are served. -/
  turns : List MediaId := []
  len : Int := 0

namespace AudioQueues

variable (audio : AudioQueues)

def queueOf (mediaId : MediaId) : List Datagram := (audio.tracks.lookup mediaId).getD []

/-- The tracks with the longest queues. -/
def longest : Finset MediaId :=
  audio.tracks.keys.filter fun mediaId =>
    ∀ other ∈ audio.tracks.keys, (audio.queueOf other).length ≤ (audio.queueOf mediaId).length

/-- A track with the longest queue: `choice` if it is one. -/
def longestTrack (choice : MediaId) : Option MediaId :=
  if choice ∈ audio.longest then some choice else audio.longest.min

def evictFromLongest (choice : MediaId) : Option MediaId × AudioQueues :=
  match audio.longestTrack choice with
  | none => (none, audio)
  | some mediaId =>
    let queue := (audio.queueOf mediaId).tail
    if queue = [] then
      (some mediaId,
        { tracks := audio.tracks.erase mediaId
          turns := audio.turns.filter (· ≠ mediaId)
          len := audio.len - 1 })
    else
      (some mediaId,
        { audio with tracks := audio.tracks.insert mediaId queue, len := audio.len - 1 })

/-- Queues a packet. Returns the track that lost its oldest packet to make room, if one did. -/
def push (mediaId : MediaId) (bytes : Datagram) (choice : MediaId) : Option MediaId × AudioQueues :=
  let (evicted, audio) :=
    if maxQueuedAudio ≤ audio.len then audio.evictFromLongest choice else (none, audio)
  let queue := audio.queueOf mediaId
  (evicted,
    { tracks := audio.tracks.insert mediaId (queue ++ [bytes])
      turns := if queue = [] then audio.turns ++ [mediaId] else audio.turns
      len := audio.len + 1 })

def pop : Option (MediaId × Datagram) × AudioQueues :=
  match audio.turns with
  | [] => (none, audio)
  | mediaId :: turns =>
    match audio.tracks.lookup mediaId with
    | none | some [] => (none, { audio with turns := turns })
    | some (bytes :: rest) =>
      if rest = [] then
        (some (mediaId, bytes),
          { tracks := audio.tracks.erase mediaId, turns := turns, len := audio.len - 1 })
      else
        (some (mediaId, bytes),
          { tracks := audio.tracks.insert mediaId rest
            turns := turns ++ [mediaId]
            len := audio.len - 1 })

end AudioQueues

/-! ### Video -/

/-- The queued video units with everything that refers to them. -/
structure VideoQueues where
  started : Map Nat VideoUnit := ∅
  waiting : Map Nat VideoUnit := ∅
  /-- Started units that still hold packets. -/
  sending : Finset Nat := ∅
  /-- Waiting strays in id order. Units that have since left are skipped when met at the
  front. -/
  strays : List Nat := []
  /-- Queued units that aren't strays, by track and first `seq`, to find another copy. -/
  copies : Map (MediaId × Nat) (Finset Nat) := ∅
  history : Map MediaId (Map Nat Fate) := ∅
  nextId : Nat := 0
  videoBytes : Int := 0

/-- One receiver's queues: audio drains first, video goes in whole access units. -/
structure Queues extends VideoQueues where
  audio : AudioQueues := {}
  nextIdleCheck : Option Instant := none
  /-- Video tracks seen since the last `forgetQuietTracks`. -/
  activeTracks : Finset MediaId := ∅
  stats : Map MediaId Counters := ∅

/-- One round of forgetting the first unit start of too many. -/
def forgetFirst (history : Map Nat Fate) : Option (Map Nat Fate) :=
  if historyLimit < history.keys.card then history.firstKey.map fun first => history.erase first
  else none

/-- Records the fate of the unit starting at `firstSeq`, keeping the last `historyLimit`. -/
def remember (history : Map Nat Fate) (firstSeq : Nat) (fate : Fate) : Map Nat Fate :=
  let history : Map Nat Fate := history.insert firstSeq fate
  loop forgetFirst history.keys.card history

/-- Puts a unit into the index of copies. -/
def addCopy (copies : Map (MediaId × Nat) (Finset Nat)) (key : MediaId × Nat) (id : Nat) :
    Map (MediaId × Nat) (Finset Nat) :=
  copies.insert key (insert id ((copies.lookup key).getD ∅))

/-- Takes a unit out of the index of copies. -/
def removeCopy (copies : Map (MediaId × Nat) (Finset Nat)) (key : MediaId × Nat) (id : Nat) :
    Map (MediaId × Nat) (Finset Nat) :=
  match copies.lookup key with
  | none => copies
  | some ids => if ids.erase id = ∅ then copies.erase key else copies.insert key (ids.erase id)

namespace VideoQueues

variable (video : VideoQueues)

def unit (id : Nat) : Option VideoUnit := (video.started.lookup id).or (video.waiting.lookup id)

/-- What a track's history says, which is nothing if it has none. -/
def historyOf (mediaId : MediaId) : Map Nat Fate := (video.history.lookup mediaId).getD ∅

/-- The closest remembered unit start at or below a `seq`, and its fate. -/
def unitAt (mediaId : MediaId) (seq : Nat) : Option (Nat × Fate) :=
  (greatestIn (video.historyOf mediaId).keys 0 seq).bind fun firstSeq =>
    ((video.historyOf mediaId).lookup firstSeq).map fun fate => (firstSeq, fate)

end VideoQueues

namespace Queues

variable (queues : Queues)

/-- Changes the unit that `unit` finds. -/
def modifyUnit (id : Nat) (update : VideoUnit → VideoUnit) : Queues :=
  if id ∈ queues.started then { queues with started := queues.started.modify id update }
  else { queues with waiting := queues.waiting.modify id update }

def units : List VideoUnit :=
  queues.started.toList.map Prod.snd ++ queues.waiting.toList.map Prod.snd

/-- Changes the counters of a track, which start at zero. -/
def count (mediaId : MediaId) (update : Counters → Counters) : Queues :=
  { queues with
    stats := queues.stats.insert mediaId (update ((queues.stats.lookup mediaId).getD {})) }

def countDrop (mediaId : MediaId) : Queues :=
  queues.count mediaId fun counters =>
    { counters with droppedUnits := counters.droppedUnits + 1 }

def countForwarded (mediaId : MediaId) : Queues :=
  queues.count mediaId fun counters => { counters with forwarded := counters.forwarded + 1 }

/-- Records the fate of a unit of a track. -/
def record (mediaId : MediaId) (firstSeq : Nat) (fate : Fate) : Queues :=
  { queues with
    history := queues.history.insert mediaId (remember (queues.historyOf mediaId) firstSeq fate) }

def queueUnit (unit : VideoUnit) : Queues :=
  { queues with
    videoBytes := queues.videoBytes + unit.len
    strays := if unit.stray then queues.strays ++ [unit.id] else queues.strays
    waiting := queues.waiting.insert unit.id unit }

def finish (id : Nat) (fate : Fate) : Queues :=
  match queues.unit id with
  | none => queues
  | some unit =>
    { queues with
      started := queues.started.erase id
      waiting := if id ∈ queues.started then queues.waiting else queues.waiting.erase id
      videoBytes := queues.videoBytes - unit.len
      sending := queues.sending.erase id
      copies :=
        if unit.stray then queues.copies
        else removeCopy queues.copies (unit.mediaId, unit.firstSeq) id
      history := queues.history.modify unit.mediaId fun history : Map Nat Fate =>
        history.modify unit.firstSeq fun known => if known = .queued id then fate else known }

/-- Another queued copy of a unit that just left. -/
def twinOf (unit : VideoUnit) : Option Nat :=
  ((queues.copies.lookup (unit.mediaId, unit.firstSeq)).bind fun ids => ids.min).filter fun twin =>
    (queues.unit twin).isSome

/-- Counts the drop of a unit that just left, or leaves that to a queued copy of it. -/
def countUnit (unit : VideoUnit) : Queues :=
  match queues.twinOf unit with
  | some twin => queues.modifyUnit twin fun other => { other with copy := false }
  | none => if unit.stray || unit.copy then queues else queues.countDrop unit.mediaId

/-- Drops a unit, counting it unless another copy of it is still queued. -/
def dropUnit (id : Nat) : Queues :=
  match queues.unit id with
  | none => queues
  | some unit => (queues.finish id .dropped).countUnit unit

/-! ### Arrivals -/

/-- Queues the start of a unit. -/
def pushFirst (packet : Packet) (now : Instant) : Queues :=
  let mediaId := packet.header.mediaId
  let seq := packet.header.seq
  let id := queues.nextId
  let seen : Option Fate := (queues.historyOf mediaId).lookup seq
  let uncounted := queues.count mediaId fun counters =>
    { counters with droppedUnits := counters.droppedUnits - 1 }
  let queues :=
    { queues with
      nextId := id + 1
      stats := if seen = some Fate.dropped then uncounted.stats else queues.stats }
  let queues := queues.record mediaId seq (.queued id)
  let queues := { queues with copies := addCopy queues.copies (mediaId, seq) id }
  queues.queueUnit { VideoUnit.new id mediaId seq packet.bytes now with
    complete := packet.header.flags.contains .last
    copy := seen.isSome && seen ≠ some Fate.dropped }

/-- Adds a fragment to a queued unit. -/
def pushFragment (id : Nat) (packet : Packet) (now : Instant) : Queues :=
  match queues.unit id with
  | none => queues
  | some unit =>
    -- Forwarding only part of it would break whole-unit delivery.
    if maxUnitFragments ≤ unit.received then queues.dropUnit id
    else
      let queues := queues.modifyUnit id fun unit =>
        { unit with
          packets := unit.packets ++ [packet.bytes]
          received := unit.received + 1
          lastFragment := now
          complete := unit.complete || packet.header.flags.contains .last }
      { queues with
        sending := if unit.started then insert id queues.sending else queues.sending
        videoBytes := queues.videoBytes + packet.bytes.length }

/-- Queues a fragment of a unit already sent. -/
def pushStray (packet : Packet) (now : Instant) : Queues :=
  let id := queues.nextId
  { queues with nextId := id + 1 }.queueUnit
    { VideoUnit.new id packet.header.mediaId packet.header.seq packet.bytes now with
      complete := true
      stray := true }

/-- Places a fragment in the unit whose first `seq` is the closest at or below its own,
so fragments reordered on the way in still join the right unit. -/
def pushVideo (packet : Packet) (now : Instant) : Queues :=
  let queues :=
    { queues with activeTracks := insert packet.header.mediaId queues.activeTracks }
  if packet.header.flags.contains .first then queues.pushFirst packet now
  else
    match queues.unitAt packet.header.mediaId packet.header.seq with
    | some (_, .queued id) => queues.pushFragment id packet now
    | some (_, .sent) => queues.pushStray packet now
    | some (_, .dropped) | none => queues

def push (packet : Packet) (now : Instant) (choice : MediaId) : Queues :=
  match packet.kind with
  | .audio =>
    let (evicted, audio) := queues.audio.push packet.header.mediaId packet.bytes choice
    evicted.elim { queues with audio := audio } { queues with audio := audio }.countDrop
  | .video => queues.pushVideo packet now

/-- Accounts for a packet that never reached the queues. A lost video fragment drops the
rest of its unit, and the unit counts as dropped once. -/
def lose (lost : Lost) : Queues :=
  if lost.kind = .audio then queues.countDrop lost.mediaId
  else
    let queues :=
      { queues with
        activeTracks := insert lost.mediaId queues.activeTracks
        history := queues.history.insert lost.mediaId (queues.historyOf lost.mediaId) }
    if lost.first then
      if lost.seq ∈ (queues.historyOf lost.mediaId).keys then queues
      else (queues.record lost.mediaId lost.seq .dropped).countDrop lost.mediaId
    else
      match queues.unitAt lost.mediaId lost.seq with
      | some (_, .queued id) => queues.dropUnit id
      | some (firstSeq, .sent) =>
        (queues.record lost.mediaId firstSeq .dropped).countDrop lost.mediaId
      | some (_, .dropped) => queues
      | none => (queues.record lost.mediaId lost.seq .dropped).countDrop lost.mediaId

/-! ### The budget -/

/-- Checks at most every `idleCheck`, since a unit waits `unitIdle` anyway. -/
def giveUpIdleUnits (now : Instant) : Queues :=
  if queues.nextIdleCheck.any fun time => now < time then queues
  else
    let idle := (queues.started.toList.map Prod.snd).filter fun unit =>
      unit.packets = [] && unitIdle < now - unit.lastFragment
    (idle.map (·.id)).foldl (fun queues id => queues.finish id .sent)
      { queues with nextIdleCheck := some (now + idleCheck) }

/-- Forgets the strays at the front that have left. -/
def skipStrays : Queues :=
  { queues with strays := queues.strays.dropWhile fun id => id ∉ queues.waiting }

/-- The unit that hasn't started to drop first, once the strays that have left are skipped. -/
def unstartedVictim : Option Nat :=
  queues.skipStrays.strays.head?.or queues.waiting.firstKey

/-- Queued video is measured as the wait of the oldest unit not yet sending, which is the
first of them. -/
def overBudget (now : Instant) : Bool :=
  (queues.waiting.firstKey.bind queues.waiting.lookup).any fun unit =>
    videoBudget < now - unit.arrived

/-- One round of dropping what waits too long. -/
def dropLate (now : Instant) : Option Queues :=
  if queues.overBudget now then queues.unstartedVictim.map queues.skipStrays.dropUnit else none

/-- One round of dropping what is too much. -/
def dropExcess : Option Queues :=
  if maxQueuedVideoBytes < queues.videoBytes then
    (queues.unstartedVictim.or queues.started.firstKey).map queues.skipStrays.dropUnit
  else none

/-- The number of queued units. -/
def unitCount : Nat := queues.started.keys.card + queues.waiting.keys.card

/-- Every round drops a unit, so there are no more rounds than units. -/
def dropAllLate (now : Instant) : Queues :=
  loop (fun queues => dropLate queues now) queues.unitCount queues

def dropAllExcess : Queues := loop dropExcess queues.unitCount queues

/-- Drops video until the queue fits the budget: first strays that haven't started, then the
oldest units that haven't started. Also gives up on started units whose remaining fragments
stopped arriving. -/
def enforceBudget (now : Instant) : Queues :=
  let queues := ((queues.giveUpIdleUnits now).dropAllLate now).dropAllExcess
  -- The last search for a victim, if it found none.
  if maxQueuedVideoBytes < queues.videoBytes then queues.skipStrays else queues

/-- Forgets the history of tracks that were quiet since the last call and have nothing
queued. -/
def forgetQuietTracks : Queues :=
  { queues with
    history := queues.history.retain fun mediaId _ =>
      mediaId ∈ queues.activeTracks || mediaId ∈ queues.units.map (·.mediaId)
    activeTracks := ∅ }

/-! ### Sending -/

/-- The unit to send from, which is started if it wasn't. -/
def start : Option Nat × Queues :=
  match queues.sending.min with
  | some id => (some id, queues)
  | none =>
    match queues.waiting.firstKey.bind fun id =>
      (queues.waiting.lookup id).map fun unit => (id, unit) with
    | none => (none, queues)
    | some (id, unit) =>
      let queues :=
        { queues with
          waiting := queues.waiting.erase id
          strays := queues.strays.dropWhile (· ≤ id) }
      let queues :=
        if unit.stray || unit.copy then queues else queues.countForwarded unit.mediaId
      (some id, { queues with started := queues.started.insert id { unit with started := true } })

/-- The first packet of a started unit leaves. -/
def takeOff (id : Nat) (unit : VideoUnit) (bytes : Datagram) (rest : List Datagram) : Queues :=
  { queues with
    started := queues.started.insert id { unit with packets := rest }
    videoBytes := queues.videoBytes - bytes.length
    sending := if rest = [] then queues.sending.erase id else insert id queues.sending }

/-- Takes the next packet of a started unit. -/
def takePacket (id : Nat) : Option Datagram × Queues :=
  match queues.started.lookup id with
  | none => (none, queues)
  | some unit =>
    match unit.packets with
    | [] => (none, queues)
    | bytes :: rest =>
      let queues := queues.takeOff id unit bytes rest
      (some bytes, if rest = [] && unit.complete then queues.finish id .sent else queues)

def popVideo : Option Datagram × Queues :=
  match queues.start with
  | (none, queues) => (none, queues)
  | (some id, queues) => queues.takePacket id

def pop : Option Datagram × Queues :=
  match queues.audio.pop with
  | (some (mediaId, bytes), audio) =>
    (some bytes, { queues with audio := audio }.countForwarded mediaId)
  | (none, audio) => { queues with audio := audio }.popVideo

/-- Takes what was counted since the last report: for every track what was forwarded and
what was dropped. -/
def takeStats : List (MediaId × Counters) × Queues :=
  (queues.stats.toList, { queues with stats := ∅ })

/-! ### Runs -/

/-- What the egress task does to the queues. -/
inductive Input where
  | push (packet : Packet) (now : Instant) (choice : MediaId)
  | lose (lost : Lost)
  | enforceBudget (now : Instant)
  | forgetQuietTracks
  | takeStats
  | pop
deriving DecidableEq, Repr

/-- The packet an input sends, and the queues after it. -/
def apply (queues : Queues) : Input → Option Datagram × Queues
  | .push packet now choice => (none, queues.push packet now choice)
  | .lose lost => (none, queues.lose lost)
  | .enforceBudget now => (none, queues.enforceBudget now)
  | .forgetQuietTracks => (none, queues.forgetQuietTracks)
  | .takeStats => (none, queues.takeStats.2)
  | .pop => queues.pop

def step (queues : Queues) (input : Input) : Queues := (queues.apply input).2

/-- The packets sent while the inputs are applied. -/
def sent : Queues → List Input → List Datagram
  | _, [] => []
  | queues, input :: rest => (queues.apply input).1.toList ++ sent (queues.step input) rest

end Queues

end Throcc
