/-
This file embeds the server's ingress: the loop that takes the datagrams of one
connection, polices them and forwards them by the table published at that
moment.

A datagram that passes is forwarded as it came, exactly as it would be without
any policing. What passes keeps to the rates and the bursts of the connection
and of each audio track, and a sender that keeps to them never meets the
policing.
-/

import Throcc.Allowances
import Throcc.Bursts
import Throcc.Egress

namespace Throcc

def ingressBurstBytes : ℚ := maxIngressBytesPerSecond
/-- Datagrams a connection may send per second, over all its tracks. -/
def maxIngressPacketsPerSecond : ℚ := 6000
def ingressBurstPackets : ℚ := 2 * maxIngressPacketsPerSecond

/-- A datagram, when it arrives and the table published then. -/
structure Incoming where
  datagram : Datagram
  now : Instant
  table : Map MediaId Route

/-- What becomes of a datagram. -/
inductive Passage where
  /-- The connection is closed: it sent media too fast. -/
  | closes
  /-- It is over the connection's packets. -/
  | policed
  /-- It is over its audio track's allowance. -/
  | overdrawn
  /-- It has no header or no route of this connection. -/
  | ignored
  | forwarded (packet : Packet) (subscribers : List ConnId)
deriving DecidableEq

structure Ingress where
  bytes : TokenBucket
  packets : TokenBucket
  audio : AudioPolicer := {}

namespace Ingress

def new (start : Instant) : Ingress where
  bytes := .full ingressBurstBytes maxIngressBytesPerSecond start
  packets := .full ingressBurstPackets maxIngressPacketsPerSecond start

variable (connId : ConnId)

/-- One round of `Sfu::ingress`. -/
def receive (ingress : Ingress) (incoming : Incoming) : Passage × Ingress :=
  let { datagram, now, table } := incoming
  let (enough, bytes) := ingress.bytes.take datagram.length now
  let ingress := { ingress with bytes }
  if !enough then
    (.closes, ingress)
  else
    let (enough, packets) := ingress.packets.take 1 now
    let ingress := { ingress with packets }
    if !enough then
      (.policed, ingress)
    else
      match Header.parse datagram with
      | .error _ => (.ignored, ingress)
      | .ok header =>
        match table.lookup header.mediaId with
        | none => (.ignored, ingress)
        | some route =>
          if route.owner ≠ connId then
            (.ignored, ingress)
          else
            let packet : Packet := { kind := route.kind, header, bytes := datagram }
            if route.kind = .audio then
              let (admitted, audio) :=
                ingress.audio.admits header.mediaId datagram.length now
              let ingress := { ingress with audio }
              if admitted then (.forwarded packet route.subscribers, ingress)
              else (.overdrawn, ingress)
            else
              (.forwarded packet route.subscribers, ingress)

/-- What becomes of the datagrams until the connection is closed. -/
def log : Ingress → List Incoming → List (Incoming × Passage)
  | _, [] => []
  | ingress, incoming :: datagrams =>
    let (passage, next) := ingress.receive connId incoming
    (incoming, passage) :: if passage = .closes then [] else log next datagrams

/-! ### Without policing -/

/-- What becomes of a datagram if nothing is policed: it goes to the subscribers of its track
if this connection owns it. -/
def route (incoming : Incoming) : Passage :=
  match Header.parse incoming.datagram with
  | .error _ => .ignored
  | .ok header =>
    match incoming.table.lookup header.mediaId with
    | none => .ignored
    | some route =>
      if route.owner = connId then
        .forwarded { kind := route.kind, header, bytes := incoming.datagram } route.subscribers
      else
        .ignored

end Ingress

/-- The audio track a datagram is forwarded on. -/
def Passage.audioTrack : Passage → Option MediaId
  | .forwarded packet _ => if packet.kind = .audio then some packet.header.mediaId else none
  | _ => none

namespace Ingress

variable (connId : ConnId) (ingress : Ingress) (incoming : Incoming)

/-- What a round does with a datagram and with what polices it. -/
theorem receive_cases :
    let taken := ingress.bytes.take incoming.datagram.length incoming.now
    let counted := ingress.packets.take 1 incoming.now
    (taken.1 = false ∧
        ingress.receive connId incoming = (.closes, { ingress with bytes := taken.2 })) ∨
      taken.1 = true ∧
        ((counted.1 = false ∧ ingress.receive connId incoming =
            (.policed, { ingress with bytes := taken.2, packets := counted.2 })) ∨
          counted.1 = true ∧
            (((route connId incoming).audioTrack = none ∧ ingress.receive connId incoming =
                (route connId incoming, { ingress with bytes := taken.2, packets := counted.2 })) ∨
              ∃ id, (route connId incoming).audioTrack = some id ∧
                let admitted := ingress.audio.admits id incoming.datagram.length incoming.now
                ingress.receive connId incoming =
                  (if admitted.1 then route connId incoming else .overdrawn,
                    { bytes := taken.2, packets := counted.2, audio := admitted.2 }))) := by
  obtain ⟨datagram, now, table⟩ := incoming
  unfold receive route
  dsimp only
  generalize ingress.bytes.take datagram.length now = taken
  generalize ingress.packets.take 1 now = counted
  obtain ⟨enough, bytes⟩ := taken
  obtain ⟨counts, packets⟩ := counted
  cases enough with
  | false => exact .inl ⟨rfl, rfl⟩
  | true =>
    refine .inr ⟨rfl, ?_⟩
    cases counts with
    | false => exact .inl ⟨rfl, rfl⟩
    | true =>
      refine .inr ⟨rfl, ?_⟩
      simp only [Bool.not_true, Bool.false_eq_true, if_false]
      cases Header.parse datagram with
      | error _ => exact .inl ⟨rfl, rfl⟩
      | ok header =>
        dsimp only
        cases table.lookup header.mediaId with
        | none => exact .inl ⟨rfl, rfl⟩
        | some route =>
          dsimp only
          by_cases owns : route.owner = connId
          · rw [if_neg (not_not_intro owns), if_pos owns]
            by_cases audio : route.kind = .audio
            · rw [if_pos audio]
              refine .inr ⟨header.mediaId, if_pos audio, ?_⟩
              split <;> rfl
            · rw [if_neg audio]
              exact .inl ⟨if_neg audio, rfl⟩
          · rw [if_pos owns, if_neg owns]
            exact .inl ⟨rfl, rfl⟩

end Ingress

/-! ### Buckets as reservoirs -/

theorem seconds_sub {first second : Nat} (le : first ≤ second) :
    seconds (second - first) = seconds second - seconds first := by
  unfold seconds
  push_cast [le]
  ring

namespace TokenBucket

variable {limit rate cost : ℚ} {now later : Instant} {bucket after : TokenBucket}

def reservoir (bucket : TokenBucket) : Reservoir ℚ where
  level := bucket.tokens
  since := seconds bucket.updated

/-- A bucket of this size and rate, last filled by `now`. -/
structure Sized (limit rate : ℚ) (now : Instant) (bucket : TokenBucket) : Prop where
  size : bucket.capacity = limit
  rate : bucket.perSecond = rate
  updated : bucket.updated ≤ now

theorem sized_full : (full limit rate now).Sized limit rate now := ⟨rfl, rfl, le_rfl⟩

theorem Sized.wait (sized : bucket.Sized limit rate now) (after : now ≤ later) :
    bucket.Sized limit rate later := ⟨sized.size, sized.rate, sized.updated.trans after⟩

theorem Sized.refill (sized : bucket.Sized limit rate now) :
    (bucket.refill now).Sized limit rate now ∧
      (bucket.refill now).reservoir = bucket.reservoir.refilled limit rate (seconds now) := by
  refine ⟨⟨sized.size, sized.rate, le_rfl⟩, ?_⟩
  unfold reservoir Reservoir.refilled
  rw [refill_tokens, refill_updated, seconds_sub sized.updated, sized.size, sized.rate]

theorem Sized.taken (sized : bucket.Sized limit rate now) (cost : ℚ) :
    let taken := { bucket.refill now with tokens := (bucket.refill now).tokens - cost }
    taken.Sized limit rate now ∧
      taken.reservoir = bucket.reservoir.drawn limit rate ⟨cost, seconds now⟩ := by
  refine ⟨⟨sized.size, sized.rate, le_rfl⟩, ?_⟩
  unfold Reservoir.drawn
  rw [← sized.refill.2]
  rfl

theorem take_eq (cost : ℚ) (now : Instant) : bucket.take cost now =
    if cost ≤ (bucket.refill now).tokens then
      (true, { bucket.refill now with tokens := (bucket.refill now).tokens - cost })
    else (false, bucket.refill now) := by
  unfold take holds
  by_cases enough : cost ≤ (bucket.refill now).tokens
  · simp only [enough, decide_true, if_true]
  · simp only [enough, decide_false, Bool.false_eq_true, if_false]

theorem Sized.take (sized : bucket.Sized limit rate now) (cost : ℚ) :
    (bucket.take cost now).2.Sized limit rate now := by
  rw [take_eq]
  split
  · exact (sized.taken cost).1
  · exact sized.refill.1

/-- What is taken is given by the reservoir, and what is refused makes it wait. -/
theorem Sized.gives (sized : bucket.Sized limit rate now) {draws : List (Draw ℚ)}
    (gives : (bucket.take cost now).2.reservoir.Gives limit rate draws) :
    bucket.reservoir.Gives limit rate
      (if (bucket.take cost now).1 then ⟨cost, seconds now⟩ :: draws else draws) := by
  rw [take_eq] at gives ⊢
  have refilled := sized.refill.2
  split
  · rename_i enough
    rw [if_pos enough, (sized.taken cost).2] at gives
    refine .draw ?_ gives
    rw [← refilled]
    exact enough
  · rename_i short
    rw [if_neg short, refilled] at gives
    exact .wait _ gives

/-- What suits the reservoir is taken. -/
theorem Sized.suits (sized : bucket.Sized limit rate now) {draws : List (Draw ℚ)}
    (suits : bucket.reservoir.Suits limit rate (⟨cost, seconds now⟩ :: draws)) :
    (bucket.take cost now).1 = true ∧
      (bucket.take cost now).2.reservoir.Suits limit rate draws := by
  obtain ⟨enough, rest⟩ := suits.draw
  rw [← sized.refill.2] at enough
  have held : cost ≤ (bucket.refill now).tokens := enough
  rw [take_eq, if_pos held]
  exact ⟨rfl, (sized.taken cost).2 ▸ rest⟩

end TokenBucket

namespace AudioAllowance

variable {now later : Instant} {allowance : AudioAllowance}

structure Sized (now : Instant) (allowance : AudioAllowance) : Prop where
  packets : allowance.packets.Sized audioBurstPackets audioPacketsPerSecond now
  bytes : allowance.bytes.Sized audioBurstBytes audioBytesPerSecond now

theorem Sized.wait (sized : allowance.Sized now) (after : now ≤ later) : allowance.Sized later :=
  ⟨sized.packets.wait after, sized.bytes.wait after⟩

/-- What an allowance does: it takes from both buckets, or leaves both be. -/
theorem admits_cases (allowance : AudioAllowance) (len : Nat) (now : Instant) :
    let packets := allowance.packets.refill now
    let bytes := allowance.bytes.refill now
    (1 ≤ packets.tokens ∧ (len : ℚ) ≤ bytes.tokens ∧ allowance.admits len now =
        (true,
          { packets := { packets with tokens := packets.tokens - 1 }
            bytes := { bytes with tokens := bytes.tokens - len } })) ∨
      (¬ (1 ≤ packets.tokens ∧ (len : ℚ) ≤ bytes.tokens) ∧
        ∃ other, allowance.admits len now = (false, { packets, bytes := other }) ∧
          (other = bytes ∨ other = allowance.bytes)) := by
  unfold admits TokenBucket.holds
  by_cases packets : 1 ≤ (allowance.packets.refill now).tokens
  · by_cases bytes : (len : ℚ) ≤ (allowance.bytes.refill now).tokens
    · simp only [packets, bytes, TokenBucket.take_refill packets, TokenBucket.take_refill bytes,
        decide_true, if_true]
      exact .inl ⟨trivial, trivial, trivial⟩
    · simp only [packets, bytes, decide_true, decide_false, if_true, Bool.false_eq_true, if_false]
      exact .inr ⟨fun both => both.2, _, rfl, .inl rfl⟩
  · simp only [packets, decide_false, Bool.false_eq_true, if_false]
    exact .inr ⟨fun both => both.1, _, rfl, .inr rfl⟩

theorem Sized.admits (sized : allowance.Sized now) (len : Nat) :
    (allowance.admits len now).2.Sized now := by
  obtain ⟨_, _, same⟩ | ⟨_, other, same, bytes⟩ := allowance.admits_cases len now
  · rw [same]
    exact ⟨(sized.packets.taken 1).1, (sized.bytes.taken len).1⟩
  · rw [same]
    refine ⟨sized.packets.refill.1, ?_⟩
    obtain rfl | rfl := bytes
    · exact sized.bytes.refill.1
    · exact sized.bytes

/-- What an allowance admits is given by both of its reservoirs. -/
theorem Sized.gives (sized : allowance.Sized now) (len : Nat) {draws lengths : List (Draw ℚ)}
    (packets : (allowance.admits len now).2.packets.reservoir.Gives audioBurstPackets
      audioPacketsPerSecond draws)
    (bytes : (allowance.admits len now).2.bytes.reservoir.Gives audioBurstBytes
      audioBytesPerSecond lengths) :
    let admitted := (allowance.admits len now).1
    allowance.packets.reservoir.Gives audioBurstPackets audioPacketsPerSecond
        (if admitted then ⟨1, seconds now⟩ :: draws else draws) ∧
      allowance.bytes.reservoir.Gives audioBurstBytes audioBytesPerSecond
        (if admitted then ⟨len, seconds now⟩ :: lengths else lengths) := by
  obtain ⟨enough, enough', same⟩ | ⟨_, other, same, left⟩ := allowance.admits_cases len now
  · rw [same] at packets bytes ⊢
    dsimp only at packets bytes ⊢
    rw [(sized.packets.taken 1).2] at packets
    rw [(sized.bytes.taken len).2] at bytes
    refine ⟨.draw ?_ packets, .draw ?_ bytes⟩
    · rw [← sized.packets.refill.2]
      exact enough
    · rw [← sized.bytes.refill.2]
      exact enough'
  · rw [same] at packets bytes ⊢
    dsimp only at packets bytes ⊢
    rw [sized.packets.refill.2] at packets
    refine ⟨.wait _ packets, ?_⟩
    obtain rfl | rfl := left
    · rw [sized.bytes.refill.2] at bytes
      exact .wait _ bytes
    · exact bytes

/-- What suits both reservoirs is admitted. -/
theorem Sized.suits (sized : allowance.Sized now) (len : Nat) {draws lengths : List (Draw ℚ)}
    (packets : allowance.packets.reservoir.Suits audioBurstPackets audioPacketsPerSecond
      (⟨1, seconds now⟩ :: draws))
    (bytes : allowance.bytes.reservoir.Suits audioBurstBytes audioBytesPerSecond
      (⟨len, seconds now⟩ :: lengths)) :
    (allowance.admits len now).1 = true ∧
      (allowance.admits len now).2.packets.reservoir.Suits audioBurstPackets
        audioPacketsPerSecond draws ∧
      (allowance.admits len now).2.bytes.reservoir.Suits audioBurstBytes
        audioBytesPerSecond lengths := by
  obtain ⟨enough, packets⟩ := packets.draw
  obtain ⟨enough', bytes⟩ := bytes.draw
  rw [← sized.packets.refill.2] at enough
  rw [← sized.bytes.refill.2] at enough'
  obtain ⟨_, _, same⟩ | ⟨short, _⟩ := allowance.admits_cases len now
  · rw [same]
    exact ⟨rfl, (sized.packets.taken 1).2 ▸ packets, (sized.bytes.taken len).2 ▸ bytes⟩
  · exact absurd ⟨enough, enough'⟩ short

end AudioAllowance

/-! ### What passes -/

namespace Ingress

/-- The bytes taken from the connection's allowance. -/
def bytesOf (log : List (Incoming × Passage)) : List (Draw ℚ) :=
  log.filterMap fun entry =>
    if entry.2 = .closes then none else some ⟨entry.1.datagram.length, seconds entry.1.now⟩

/-- The datagrams that got past the first of the limits on them. -/
def packetsOf (log : List (Incoming × Passage)) : List (Draw ℚ) :=
  log.filterMap fun entry =>
    if entry.2 = .closes ∨ entry.2 = .policed then none else some ⟨1, seconds entry.1.now⟩

/-- What is forwarded on an audio track. -/
def audioOf (cost : Incoming → ℚ) (id : MediaId) (log : List (Incoming × Passage)) :
    List (Draw ℚ) :=
  log.filterMap fun entry =>
    if entry.2.audioTrack = some id then some ⟨cost entry.1, seconds entry.1.now⟩ else none

/-- It keeps to the rates and bursts of the connection and of each audio track. -/
structure Keeps (log : List (Incoming × Passage)) : Prop where
  bytes : Conforms ingressBurstBytes maxIngressBytesPerSecond (bytesOf log)
  packets : Conforms ingressBurstPackets maxIngressPacketsPerSecond (packetsOf log)
  audioPackets : ∀ id,
    Conforms audioBurstPackets audioPacketsPerSecond (audioOf (fun _ => 1) id log)
  audioBytes : ∀ id, Conforms audioBurstBytes audioBytesPerSecond
    (audioOf (fun incoming => incoming.datagram.length) id log)

/-- An ingress at a time, and the allowances of all audio tracks if none was ever forgotten. -/
structure Sound (now : Instant) (ingress : Ingress) (allowances : MediaId → AudioAllowance) :
    Prop where
  bytes : ingress.bytes.Sized ingressBurstBytes maxIngressBytesPerSecond now
  packets : ingress.packets.Sized ingressBurstPackets maxIngressPacketsPerSecond now
  follows : audioMeter.Follows AudioAllowance.Alike now ingress.audio.toCells allowances
  audio : ∀ id, (allowances id).Sized now

variable {connId : ConnId} {ingress : Ingress} {now : Instant} {incoming : Incoming}
variable {allowances : MediaId → AudioAllowance}

theorem sound_new (start : Instant) : (new start).Sound start fun _ => .full start where
  bytes := TokenBucket.sized_full
  packets := TokenBucket.sized_full
  follows := Meter.follows_fresh audioMeter_forgets start
  audio _ := ⟨TokenBucket.sized_full, TokenBucket.sized_full⟩

theorem Sound.wait (sound : ingress.Sound now allowances) {later : Instant} (after : now ≤ later) :
    ingress.Sound later allowances where
  bytes := sound.bytes.wait after
  packets := sound.packets.wait after
  follows key next following := sound.follows key next (after.trans following)
  audio id := (sound.audio id).wait after

/-- A track's allowance is asked, and answers as if none was ever forgotten. -/
theorem Sound.admits (sound : ingress.Sound now allowances) (id : MediaId) (len : Nat) :
    (ingress.audio.admits id len now).1 = ((allowances id).admits len now).1 ∧
      audioMeter.Follows AudioAllowance.Alike now (ingress.audio.admits id len now).2.toCells
        (Function.update allowances id ((allowances id).admits len now).2) := by
  obtain ⟨answer, cells⟩ := ingress.audio.admits_eq ⟨id, len, now⟩
  obtain ⟨same, follows⟩ := sound.follows.ask allowanceSweep audioMeter_forgets
    (show now ≤ (⟨id, len, now⟩ : Query MediaId Nat).now from le_rfl)
  refine ⟨answer.trans same, ?_⟩
  rw [cells]
  exact follows

/-- Datagrams in the order of time, from `now` on. -/
def InTime (now : Instant) : List Incoming → Prop
  | [] => True
  | incoming :: datagrams => now ≤ incoming.now ∧ InTime incoming.now datagrams

theorem log_cons (datagrams : List Incoming) :
    ingress.log connId (incoming :: datagrams) =
      (incoming, (ingress.receive connId incoming).1) ::
        if (ingress.receive connId incoming).1 = .closes then []
        else log connId (ingress.receive connId incoming).2 datagrams := by
  rw [log]

theorem route_passes : route connId incoming ≠ .closes ∧ route connId incoming ≠ .policed := by
  unfold route
  split
  · exact ⟨nofun, nofun⟩
  · split
    · exact ⟨nofun, nofun⟩
    · split <;> exact ⟨nofun, nofun⟩

theorem bytesOf_cons {passage : Passage} (log : List (Incoming × Passage))
    (passes : passage ≠ .closes) : bytesOf ((incoming, passage) :: log) =
      ⟨incoming.datagram.length, seconds incoming.now⟩ :: bytesOf log := by
  unfold bytesOf
  rw [List.filterMap_cons, if_neg passes]

theorem packetsOf_cons {passage : Passage} (log : List (Incoming × Passage))
    (passes : passage ≠ .closes ∧ passage ≠ .policed) :
    packetsOf ((incoming, passage) :: log) = ⟨1, seconds incoming.now⟩ :: packetsOf log := by
  unfold packetsOf
  rw [List.filterMap_cons, if_neg (not_or.mpr passes)]

theorem audioOf_cons {passage : Passage} (log : List (Incoming × Passage)) (cost : Incoming → ℚ)
    (id : MediaId) : audioOf cost id ((incoming, passage) :: log) =
      if passage.audioTrack = some id then
        ⟨cost incoming, seconds incoming.now⟩ :: audioOf cost id log
      else audioOf cost id log := by
  unfold audioOf
  rw [List.filterMap_cons]
  by_cases mine : passage.audioTrack = some id
  · rw [if_pos mine, if_pos mine]
  · rw [if_neg mine, if_neg mine]

theorem Sound.meter (sound : ingress.Sound now allowances) {bytes packets : TokenBucket}
    (sized : bytes.Sized ingressBurstBytes maxIngressBytesPerSecond now)
    (sized' : packets.Sized ingressBurstPackets maxIngressPacketsPerSecond now) :
    Sound now { ingress with bytes, packets } allowances :=
  ⟨sized, sized', sound.follows, sound.audio⟩

/-- What a track's allowance is asked changes no other track's. -/
theorem Sound.update (sound : ingress.Sound now allowances) (id : MediaId) (len : Nat)
    {bytes packets : TokenBucket}
    (sized : bytes.Sized ingressBurstBytes maxIngressBytesPerSecond now)
    (sized' : packets.Sized ingressBurstPackets maxIngressPacketsPerSecond now) :
    Sound now { bytes, packets, audio := (ingress.audio.admits id len now).2 }
      (Function.update allowances id ((allowances id).admits len now).2) := by
  refine ⟨sized, sized', (sound.admits id len).2, fun other => ?_⟩
  rw [Function.update_apply]
  split
  · exact (sound.audio id).admits len
  · exact sound.audio other

/-- The buckets' reservoirs may give what passes. -/
structure Given (ingress : Ingress) (allowances : MediaId → AudioAllowance)
    (log : List (Incoming × Passage)) : Prop where
  bytes : ingress.bytes.reservoir.Gives ingressBurstBytes maxIngressBytesPerSecond (bytesOf log)
  packets : ingress.packets.reservoir.Gives ingressBurstPackets maxIngressPacketsPerSecond
    (packetsOf log)
  audio : ∀ id,
    (allowances id).packets.reservoir.Gives audioBurstPackets audioPacketsPerSecond
        (audioOf (fun _ => 1) id log) ∧
      (allowances id).bytes.reservoir.Gives audioBurstBytes audioBytesPerSecond
        (audioOf (fun incoming => incoming.datagram.length) id log)

/-- Whatever comes, what passes is given by the buckets. -/
theorem Sound.gives (sound : ingress.Sound now allowances) {datagrams : List Incoming}
    (inTime : InTime now datagrams) : Given ingress allowances (ingress.log connId datagrams) := by
  induction datagrams generalizing now ingress allowances with
  | nil => exact ⟨.nil _, .nil _, fun _ => ⟨.nil _, .nil _⟩⟩
  | cons incoming datagrams inductionHypothesis =>
    replace sound := sound.wait inTime.1
    have sized := sound.bytes.take incoming.datagram.length
    have sized' := sound.packets.take 1
    rw [log_cons]
    obtain ⟨_, same⟩ | ⟨enough, ⟨short, same⟩ | ⟨enough', ⟨none, same⟩ | ⟨id, track, same⟩⟩⟩ :=
      ingress.receive_cases connId incoming
    · rw [same, if_pos rfl]
      exact ⟨.nil _, .nil _, fun _ => ⟨.nil _, .nil _⟩⟩
    · rw [same, if_neg nofun]
      obtain ⟨bytes, packets, audio⟩ := inductionHypothesis (sound.meter sized sized') inTime.2
      have taken := sound.bytes.gives bytes
      have counted := sound.packets.gives packets
      rw [enough, if_pos rfl] at taken
      rw [short, if_neg Bool.false_ne_true] at counted
      exact ⟨taken, counted, audio⟩
    · rw [same, if_neg route_passes.1]
      obtain ⟨bytes, packets, audio⟩ := inductionHypothesis (sound.meter sized sized') inTime.2
      have taken := sound.bytes.gives bytes
      have counted := sound.packets.gives packets
      rw [enough, if_pos rfl, ← bytesOf_cons _ route_passes.1] at taken
      rw [enough', if_pos rfl, ← packetsOf_cons _ route_passes] at counted
      refine ⟨taken, counted, fun id => ?_⟩
      rw [audioOf_cons, audioOf_cons, none, if_neg nofun, if_neg nofun]
      exact audio id
    · have updated := sound.update id incoming.datagram.length sized sized'
      have admits := (sound.admits id incoming.datagram.length).1
      dsimp only at same
      rw [admits] at same
      generalize (ingress.audio.admits id incoming.datagram.length incoming.now).2 = audio
        at same updated
      cases admitted : ((allowances id).admits incoming.datagram.length incoming.now).1 with
      | true =>
        rw [admitted, if_pos rfl] at same
        rw [same, if_neg route_passes.1]
        obtain ⟨bytes, packets, audio⟩ := inductionHypothesis updated inTime.2
        have taken := sound.bytes.gives bytes
        have counted := sound.packets.gives packets
        rw [enough, if_pos rfl, ← bytesOf_cons _ route_passes.1] at taken
        rw [enough', if_pos rfl, ← packetsOf_cons _ route_passes] at counted
        refine ⟨taken, counted, fun other => ?_⟩
        have tracked := audio other
        rw [audioOf_cons, audioOf_cons, track]
        by_cases mine : id = other
        · subst mine
          rw [Function.update_self] at tracked
          have given := (sound.audio id).gives incoming.datagram.length tracked.1 tracked.2
          dsimp only at given
          rw [admitted, if_pos rfl, if_pos rfl] at given
          rw [if_pos rfl, if_pos rfl]
          exact given
        · rw [Function.update_of_ne (Ne.symm mine)] at tracked
          rw [if_neg (mt Option.some.inj mine), if_neg (mt Option.some.inj mine)]
          exact tracked
      | false =>
        rw [admitted, if_neg Bool.false_ne_true] at same
        rw [same, if_neg nofun]
        obtain ⟨bytes, packets, audio⟩ := inductionHypothesis updated inTime.2
        have taken := sound.bytes.gives bytes
        have counted := sound.packets.gives packets
        rw [enough, if_pos rfl, ← @bytesOf_cons _ .overdrawn _ nofun] at taken
        rw [enough', if_pos rfl, ← @packetsOf_cons _ .overdrawn _ ⟨nofun, nofun⟩] at counted
        refine ⟨taken, counted, fun other => ?_⟩
        have tracked := audio other
        by_cases mine : other = id
        · subst mine
          rw [Function.update_self] at tracked
          have given := (sound.audio other).gives incoming.datagram.length tracked.1 tracked.2
          dsimp only at given
          rwa [admitted, if_neg Bool.false_ne_true, if_neg Bool.false_ne_true] at given
        · rw [Function.update_of_ne mine] at tracked
          exact tracked

/-- What would become of the datagrams if nothing was policed. -/
def routed (connId : ConnId) (datagrams : List Incoming) : List (Incoming × Passage) :=
  datagrams.map fun incoming => (incoming, route connId incoming)

/-- What would pass suits the buckets' reservoirs. -/
structure Suited (ingress : Ingress) (allowances : MediaId → AudioAllowance)
    (log : List (Incoming × Passage)) : Prop where
  bytes : ingress.bytes.reservoir.Suits ingressBurstBytes maxIngressBytesPerSecond (bytesOf log)
  packets : ingress.packets.reservoir.Suits ingressBurstPackets maxIngressPacketsPerSecond
    (packetsOf log)
  audio : ∀ id,
    (allowances id).packets.reservoir.Suits audioBurstPackets audioPacketsPerSecond
        (audioOf (fun _ => 1) id log) ∧
      (allowances id).bytes.reservoir.Suits audioBurstBytes audioBytesPerSecond
        (audioOf (fun incoming => incoming.datagram.length) id log)

/-- What suits the buckets passes. -/
theorem Sound.suits (sound : ingress.Sound now allowances) {datagrams : List Incoming}
    (inTime : InTime now datagrams) (suited : Suited ingress allowances (routed connId datagrams)) :
    ingress.log connId datagrams = routed connId datagrams := by
  induction datagrams generalizing now ingress allowances with
  | nil => rfl
  | cons incoming datagrams inductionHypothesis =>
    replace sound := sound.wait inTime.1
    have sized := sound.bytes.take incoming.datagram.length
    have sized' := sound.packets.take 1
    obtain ⟨bytes, packets, audio⟩ := suited
    rw [routed, List.map_cons, bytesOf_cons _ route_passes.1] at bytes
    rw [routed, List.map_cons, packetsOf_cons _ route_passes] at packets
    obtain ⟨taken, bytes⟩ := sound.bytes.suits bytes
    obtain ⟨counted, packets⟩ := sound.packets.suits packets
    rw [log_cons, routed, List.map_cons]
    obtain ⟨short, _⟩ | ⟨_, ⟨short, _⟩ | ⟨_, ⟨none, same⟩ | ⟨id, track, same⟩⟩⟩ :=
      ingress.receive_cases connId incoming
    · cases taken.symm.trans short
    · cases counted.symm.trans short
    · rw [same, if_neg route_passes.1]
      refine congrArg (List.cons _) (inductionHypothesis (sound.meter sized sized') inTime.2
        ⟨bytes, packets, fun id => ?_⟩)
      have tracked := audio id
      rw [routed, List.map_cons, audioOf_cons, audioOf_cons, none, if_neg nofun, if_neg nofun]
        at tracked
      exact tracked
    · have updated := sound.update id incoming.datagram.length sized sized'
      have admits := (sound.admits id incoming.datagram.length).1
      dsimp only at same
      rw [admits] at same
      generalize (ingress.audio.admits id incoming.datagram.length incoming.now).2 = policer
        at same updated
      have mine := audio id
      rw [routed, List.map_cons, audioOf_cons, audioOf_cons, track, if_pos rfl, if_pos rfl] at mine
      obtain ⟨admitted, packets', bytes'⟩ :=
        (sound.audio id).suits incoming.datagram.length mine.1 mine.2
      rw [admitted, if_pos rfl] at same
      rw [same, if_neg route_passes.1]
      refine congrArg (List.cons _) (inductionHypothesis updated inTime.2
        ⟨bytes, packets, fun other => ?_⟩)
      rw [Function.update_apply]
      split
      · rename_i here
        subst here
        exact ⟨packets', bytes'⟩
      · rename_i different
        have tracked := audio other
        rw [routed, List.map_cons, audioOf_cons, audioOf_cons, track,
          if_neg (mt Option.some.inj (Ne.symm different)),
          if_neg (mt Option.some.inj (Ne.symm different))] at tracked
        exact tracked

theorem Given.keeps {log : List (Incoming × Passage)} (given : Given ingress allowances log) :
    Keeps log where
  bytes := given.bytes.conforms.2
  packets := given.packets.conforms.2
  audioPackets id := (given.audio id).1.conforms.2
  audioBytes id := (given.audio id).2.conforms.2

theorem seconds_mono {first second : Nat} (le : first ≤ second) :
    seconds first ≤ seconds second := by
  unfold seconds
  gcongr

theorem InTime.after {start : Instant} {datagrams : List Incoming}
    (inTime : InTime start datagrams) : ∀ incoming ∈ datagrams, start ≤ incoming.now := by
  induction datagrams generalizing start with
  | nil => exact List.forall_mem_nil _
  | cons incoming datagrams inductionHypothesis =>
    exact List.forall_mem_cons.mpr ⟨inTime.1, fun other member =>
      inTime.1.trans (inductionHypothesis inTime.2 other member)⟩

/-- What is drawn for datagrams is drawn after they begin to come. -/
theorem InTime.draws {start : Instant} {datagrams : List Incoming}
    (inTime : InTime start datagrams) {drawn : Incoming × Passage → Option (Draw ℚ)}
    (time : ∀ entry draw, drawn entry = some draw → draw.time = seconds entry.1.now) :
    ∀ draw ∈ (routed connId datagrams).filterMap drawn, seconds start ≤ draw.time := by
  intro draw member
  obtain ⟨entry, listed, found⟩ := List.mem_filterMap.mp member
  obtain ⟨incoming, sent, rfl⟩ := List.mem_map.mp listed
  rw [time _ draw found]
  exact seconds_mono (inTime.after incoming sent)

/-- What keeps to the rates and bursts suits new buckets. -/
theorem Keeps.suited {start : Instant} {datagrams : List Incoming}
    (inTime : InTime start datagrams) (keeps : Keeps (routed connId datagrams)) :
    Suited (new start) (fun _ => .full start) (routed connId datagrams) := by
  have drawn : ∀ {condition : Prop} [Decidable condition] {cost : ℚ} {now : Instant}
      {draw : Draw ℚ}, (if condition then some ⟨cost, seconds now⟩ else none) = some draw →
        draw.time = seconds now := by
    intro condition _ cost now draw found
    split at found
    · obtain rfl := Option.some.inj found
      rfl
    · cases found
  refine ⟨Reservoir.suits_full (Nat.cast_nonneg _) keeps.bytes
      (inTime.draws fun entry draw found => ?_),
    Reservoir.suits_full (by norm_num [maxIngressPacketsPerSecond]) keeps.packets
      (inTime.draws fun entry draw found => ?_), fun id => ⟨?_, ?_⟩⟩
  · rw [← ite_not] at found
    exact drawn found
  · rw [← ite_not] at found
    exact drawn found
  · exact Reservoir.suits_full audioPacketsPerSecond_nonneg (keeps.audioPackets id)
      (inTime.draws fun entry draw found => drawn found)
  · exact Reservoir.suits_full audioBytesPerSecond_nonneg (keeps.audioBytes id)
      (inTime.draws fun entry draw found => drawn found)

end Ingress

end Throcc
