/-
This file embeds the task that feeds one receiver: packets are offered to its
inbox without waiting, what finds the inbox full is recorded, and the task's
loop empties the inbox into the queues, accounts for the losses, reports to the
receiver what it forwarded and dropped, and sends what the queues give out.

Whatever happens in which order, a receiver gets the packets of an audio track in
the order they were offered, and each of them that it doesn't get is counted as
dropped once. Nothing is sent that wasn't offered, nor more often.
-/

import Throcc.Accounting
import Throcc.Ingress

namespace Throcc

/-- The packets the inbox holds, and the losses listed one by one. -/
def inboxSize : Nat := 8192
def linkStatsInterval : Duration := fromSecs 2

/-- What is known of a packet that was lost. -/
def Packet.asLost (packet : Packet) : Lost where
  kind := packet.kind
  mediaId := packet.header.mediaId
  seq := packet.header.seq
  first := packet.header.flags.contains .first

structure InboxDrops where
  lost : List Lost := []
  /-- Losses beyond what `lost` holds, counted one unit per packet. -/
  overflow : Map MediaId Nat := ∅

namespace InboxDrops

variable (drops : InboxDrops)

def overflowed (mediaId : MediaId) : Nat := (drops.overflow.lookup mediaId).getD 0

def record (lost : Lost) : InboxDrops :=
  if drops.lost.length < inboxSize then { drops with lost := drops.lost ++ [lost] }
  else
    { drops with
      overflow := drops.overflow.insert lost.mediaId (drops.overflowed lost.mediaId + 1) }

end InboxDrops

/-- Where the task stands in its loop. -/
inductive EgressPhase where
  | starts
  /-- It empties the inbox. These losses wait until the starts of their units are queued. -/
  | drains (drops : InboxDrops)
  /-- It waits for the connection to take a datagram. -/
  | sends (bytes : Datagram)
  /-- It waits for a packet, but not beyond the next report. -/
  | waits
  | gone

def EgressPhase.isGone : EgressPhase → Bool
  | .gone => true
  | _ => false

/-- The egress of one receiver, with a record of what was offered, sent and reported. -/
structure Egress where
  inbox : List Packet := []
  drops : InboxDrops := {}
  /-- Nothing can be offered any more. -/
  closed : Bool := false
  queues : Queues := {}
  nextStats : Instant
  phase : EgressPhase := .starts
  offered : List Packet := []
  sent : List Datagram := []
  reports : List (Instant × List (MediaId × Counters)) := []

namespace Egress

/-- What happens to the egress of a receiver. -/
inductive Event where
  | offer (packet : Packet)
  /-- The last handle is gone. -/
  | close
  /-- The task goes on. A push at the cap evicts from the track `choice` if it may choose, and
  a report is sent if the control queue has `room`. -/
  | turn (now : Instant) (choice : MediaId) (room : Bool)
  /-- The connection has taken the datagram, or failed. -/
  | taken (ok : Bool)
deriving DecidableEq

variable (egress : Egress)

/-- A packet that doesn't fit is recorded as lost, and so is one offered to a task that is
gone. -/
def offer (packet : Packet) : Egress :=
  let egress := { egress with offered := egress.offered ++ [packet] }
  if !egress.phase.isGone && egress.inbox.length < inboxSize then
    { egress with inbox := egress.inbox ++ [packet] }
  else { egress with drops := egress.drops.record packet.asLost }

/-- A lost first fragment is placed before the drain, so the rest of its unit is discarded on
arrival. -/
def beginRound : Egress :=
  { egress with
    drops := {}
    queues := (egress.drops.lost.filter (·.first)).foldl Queues.lose egress.queues
    phase :=
      .drains { egress.drops with lost := egress.drops.lost.filter fun lost => !lost.first } }

/-- Losses that were only counted count as dropped units. -/
def addOverflow (queues : Queues) (overflow : Map MediaId Nat) : Queues :=
  overflow.toList.foldl
    (fun queues (mediaId, count) => queues.count mediaId fun counters =>
      { counters with droppedUnits := counters.droppedUnits + count })
    queues

/-- Reports what was counted since the last report, if it is time and there is room. -/
def report (now : Instant) (room : Bool) : Egress :=
  if egress.nextStats ≤ now then
    let queues := egress.queues.forgetQuietTracks
    let egress := { egress with queues, nextStats := now + linkStatsInterval }
    if room then
      let taken := queues.takeStats
      { egress with
        queues := taken.2
        reports := if taken.1 = [] then egress.reports else egress.reports ++ [(now, taken.1)] }
    else egress
  else egress

/-- The next packet goes to the connection, if there is one. -/
def send : Egress :=
  let popped := egress.queues.pop
  { egress with
    queues := popped.2
    phase := popped.1.elim .waits .sends }

/-- The inbox is empty: the losses are accounted for and the budget is enforced. -/
def account (drops : InboxDrops) (now : Instant) : Egress :=
  let queues := addOverflow (drops.lost.foldl Queues.lose egress.queues) drops.overflow
  { egress with queues := queues.enforceBudget now, phase := .drains {} }

/-- The end of a round, once the inbox is empty. -/
def endRound (drops : InboxDrops) (now : Instant) (room : Bool) : Egress :=
  ((egress.account drops now).report now room).send

def turn (now : Instant) (choice : MediaId) (room : Bool) : Egress :=
  match egress.phase with
  | .starts => egress.beginRound
  | .drains drops =>
    match egress.inbox with
    | packet :: inbox => { egress with inbox, queues := egress.queues.push packet now choice }
    | [] => egress.endRound drops now room
  | .waits =>
    match egress.inbox with
    | packet :: inbox =>
      { egress with inbox, queues := egress.queues.push packet now choice, phase := .starts }
    | [] =>
      if egress.closed then { egress with phase := .gone }
      else if egress.nextStats ≤ now then { egress with phase := .starts }
      else egress
  | .sends _ | .gone => egress

def taken (ok : Bool) : Egress :=
  match egress.phase with
  | .sends bytes =>
    if ok then { egress with sent := egress.sent ++ [bytes], phase := .starts }
    -- The receiving half goes with the task, and what it holds with it.
    else { egress with inbox := [], phase := .gone }
  | _ => egress

def step : Event → Egress
  | .offer packet => if egress.closed then egress else egress.offer packet
  | .close => { egress with closed := true }
  | .turn now choice room => egress.turn now choice room
  | .taken ok => egress.taken ok

/-! ### What a receiver gets and is told -/

/-- What a list of counters says of a track. -/
def tally {Value : Type} (measure : Value → Nat) (track : MediaId)
    (entries : List (MediaId × Value)) : Nat :=
  ((entries.filter fun entry => entry.1 = track).map fun entry => measure entry.2).sum

/-- The datagram that waits for the connection. -/
def hand : List Datagram :=
  match egress.phase with
  | .sends bytes => [bytes]
  | _ => []

/-- The losses of the round that runs. -/
def settling : InboxDrops :=
  match egress.phase with
  | .drains drops => drops
  | _ => {}

/-- The packets of a track that were lost before the queues and not counted there yet. -/
def unsettled (track : MediaId) : Nat :=
  Queues.lossesOn track egress.drops.lost + egress.drops.overflowed track +
    (Queues.lossesOn track egress.settling.lost + egress.settling.overflowed track)

/-- What the reports say of a track together. -/
def reported (measure : Counters → Nat) (track : MediaId) : Nat :=
  (egress.reports.map fun report => tally measure track report.2).sum

/-- The datagrams of a list of packets. -/
def datagrams (packets : List Packet) : List Datagram := packets.map fun packet => packet.bytes

/-- What a receiver gets of its audio tracks and is told of them. -/
structure Serves (kind : MediaId → TrackKind) (egress : Egress) : Prop where
  inOrder : ∀ track, kind track = .audio →
    (onTrack track egress.sent).Sublist (onTrack track (datagrams egress.offered))
  /-- Every packet is sent or on its way, or counted as dropped once. -/
  counted : egress.phase.isGone = false → ∀ track, kind track = .audio →
    (onTrack track (datagrams egress.offered)).length =
      (onTrack track (egress.sent ++ egress.hand)).length +
        (egress.queues.audio.queueOf track).length +
        (onTrack track (datagrams egress.inbox)).length + egress.unsettled track +
        egress.queues.droppedUnits track + egress.reported Counters.droppedUnits track
  told : egress.phase.isGone = false → ∀ track, kind track = .audio →
    egress.reported Counters.forwarded track + egress.queues.forwardedUnits track =
      (onTrack track (egress.sent ++ egress.hand)).length
  /-- While the task waits, no audio is queued. -/
  idle : egress.phase = .waits → ∀ track, egress.queues.audio.queueOf track = []
  once : ∀ bytes, egress.sent.count bytes ≤ (datagrams egress.offered).count bytes
  inbox : egress.inbox.length ≤ inboxSize
  lost : egress.drops.lost.length ≤ inboxSize ∧ egress.settling.lost.length ≤ inboxSize
  audio : egress.queues.audio.len ≤ maxQueuedAudio
  spaced : egress.reports.IsChain fun first second => first.1 + linkStatsInterval ≤ second.1

/-! ### Reports -/

theorem tally_cons {Value : Type} (measure : Value → Nat) (track : MediaId)
    (entry : MediaId × Value) (rest : List (MediaId × Value)) :
    tally measure track (entry :: rest) =
      (if track = entry.1 then measure entry.2 else 0) + tally measure track rest := by
  unfold tally
  by_cases same : track = entry.1
  · simp [same]
  · simp [same, Ne.symm same]

theorem tally_of_missing {Value : Type} (measure : Value → Nat) {track : MediaId}
    {entries : List (MediaId × Value)} (missing : track ∉ entries.map Prod.fst) :
    tally measure track entries = 0 := by
  have none : entries.filter (fun entry => entry.1 = track) = [] := by
    refine List.filter_eq_nil_iff.mpr fun entry member same => ?_
    exact missing (List.mem_map.mpr ⟨entry, member, of_decide_eq_true same⟩)
  unfold tally
  rw [none]
  rfl

theorem tally_toList {Value : Type} (measure : Value → Nat) (track : MediaId)
    (map : Map MediaId Value) :
    tally measure track map.toList = (map.lookup track).elim 0 measure := by
  have distinct : (map.toList.map Prod.fst).Nodup := by
    rw [Map.toList_keys]
    exact nodup_ascending _
  have all : ∀ entries : List (MediaId × Value), (entries.map Prod.fst).Nodup →
      ∀ value, (track, value) ∈ entries → tally measure track entries = measure value := by
    intro entries distinct value member
    induction entries with
    | nil => cases member
    | cons entry rest inductionHypothesis =>
      rw [List.map_cons, List.nodup_cons] at distinct
      rw [tally_cons]
      obtain same | later := List.mem_cons.mp member
      · subst same
        rw [if_pos rfl, tally_of_missing measure distinct.1, Nat.add_zero]
      · have other : track ≠ entry.1 := fun same =>
          distinct.1 (same ▸ List.mem_map.mpr ⟨_, later, rfl⟩)
        rw [if_neg other, Nat.zero_add]
        exact inductionHypothesis distinct.2 later
  cases found : map.lookup track with
  | none =>
    refine tally_of_missing measure fun member => ?_
    obtain ⟨⟨key, value⟩, listed, rfl⟩ := List.mem_map.mp member
    rw [Map.mem_toList, found] at listed
    cases listed
  | some value => exact all _ distinct value ((Map.mem_toList map track value).mpr found)

variable {egress next : Egress} {kind : MediaId → TrackKind}

/-! ### Losses -/

theorem unsettled_record (drops : InboxDrops) (lost : Lost) (track : MediaId) :
    Queues.lossesOn track (drops.record lost).lost + (drops.record lost).overflowed track =
      Queues.lossesOn track drops.lost + drops.overflowed track +
        if track = lost.mediaId then 1 else 0 := by
  unfold InboxDrops.record
  split
  · have new : Queues.lossesOn track (drops.lost ++ [lost]) =
        Queues.lossesOn track drops.lost + if track = lost.mediaId then 1 else 0 := by
      unfold Queues.lossesOn
      rw [List.filter_append, List.length_append]
      by_cases same : track = lost.mediaId
      · simp [same]
      · simp [same, Ne.symm same]
    show Queues.lossesOn track (drops.lost ++ [lost]) + drops.overflowed track = _
    rw [new]
    omega
  · have new : ((drops.overflow.insert lost.mediaId (drops.overflowed lost.mediaId + 1)).lookup
        track).getD 0 = drops.overflowed track + if track = lost.mediaId then 1 else 0 := by
      rw [Map.lookup_insert_ite]
      by_cases same : track = lost.mediaId
      · rw [if_pos same, if_pos same, same]
        rfl
      · rw [if_neg same, if_neg same]
        rfl
    show Queues.lossesOn track drops.lost + ((drops.overflow.insert lost.mediaId
      (drops.overflowed lost.mediaId + 1)).lookup track).getD 0 = _
    rw [new]
    omega

theorem lost_record (drops : InboxDrops) (lost : Lost) :
    (drops.record lost).lost = drops.lost ++ [lost] ∧ drops.lost.length < inboxSize ∨
      (drops.record lost).lost = drops.lost := by
  unfold InboxDrops.record
  split
  · rename_i room
    exact .inl ⟨rfl, room⟩
  · exact .inr rfl

theorem lossesOn_parts (track : MediaId) (losses : List Lost) :
    Queues.lossesOn track (losses.filter (·.first)) +
      Queues.lossesOn track (losses.filter fun lost => !lost.first) =
        Queues.lossesOn track losses := by
  induction losses with
  | nil => rfl
  | cons lost rest inductionHypothesis =>
    cases first : lost.first with
    | true =>
      simp only [List.filter_cons, first, Bool.not_true, if_true, Bool.false_eq_true, if_false,
        Queues.lossesOn_cons]
      omega
    | false =>
      simp only [List.filter_cons, first, Bool.not_false, if_true, Bool.false_eq_true, if_false,
        Queues.lossesOn_cons]
      omega

theorem accounts_addOverflow {queues : Queues} (sorted : queues.Sorted kind)
    (overflow : Map MediaId Nat) :
    Queues.Accounts kind queues (addOverflow queues overflow) [] [] fun track =>
      (overflow.lookup track).getD 0 := by
  have all : ∀ (entries : List (MediaId × Nat)) {queues : Queues}, queues.Sorted kind →
      Queues.Accounts kind queues (entries.foldl
        (fun queues entry => queues.count entry.1 fun counters =>
          { counters with droppedUnits := counters.droppedUnits + entry.2 }) queues)
        [] [] fun track => tally id track entries := by
    intro entries
    induction entries with
    | nil => exact fun sorted => sorted.refl
    | cons entry rest inductionHypothesis =>
      intro queues sorted
      have first := sorted.countDrops entry.1 entry.2
      refine (first.trans (inductionHypothesis first.sorted)).congr fun track => ?_
      exact (tally_cons id track entry rest).symm
  refine (all overflow.toList sorted).congr fun track => ?_
  rw [tally_toList]
  cases overflow.lookup track with
  | none => rfl
  | some count => rfl

/-! ### What one step preserves -/

/-- Every packet and loss that is on its way is genuine, and accounted for. -/
structure Sound (kind : MediaId → TrackKind) (egress : Egress) : Prop where
  sorted : egress.queues.Sorted kind
  genuine : ∀ packet ∈ egress.inbox, Queues.Genuine kind packet
  losses : ∀ lost ∈ egress.drops.lost ++ egress.settling.lost, lost.kind = kind lost.mediaId
  order : ∀ track, kind track = .audio →
    (onTrack track (egress.sent ++ egress.hand) ++ egress.queues.audio.queueOf track ++
      onTrack track (datagrams egress.inbox)).Sublist (onTrack track (datagrams egress.offered))
  counted : egress.phase.isGone = false → ∀ track, kind track = .audio →
    (onTrack track (datagrams egress.offered)).length =
      (onTrack track (egress.sent ++ egress.hand)).length +
        (egress.queues.audio.queueOf track).length +
        (onTrack track (datagrams egress.inbox)).length + egress.unsettled track +
        egress.queues.droppedUnits track + egress.reported Counters.droppedUnits track
  told : egress.phase.isGone = false → ∀ track, kind track = .audio →
    egress.reported Counters.forwarded track + egress.queues.forwardedUnits track =
      (onTrack track (egress.sent ++ egress.hand)).length
  idle : egress.phase = .waits → ∀ track, egress.queues.audio.queueOf track = []
  film : ∀ bytes, Shot kind bytes →
    (egress.sent ++ egress.hand).count bytes + egress.queues.times bytes +
      (datagrams egress.inbox).count bytes ≤ ((datagrams egress.offered).count bytes : Int)
  framed : ∀ bytes ∈ egress.sent ++ egress.hand, (trackOf bytes).isSome
  inbox : egress.inbox.length ≤ inboxSize
  lost : egress.drops.lost.length ≤ inboxSize ∧ egress.settling.lost.length ≤ inboxSize
  spaced : egress.reports.IsChain fun first second => first.1 + linkStatsInterval ≤ second.1
  due : ∀ last ∈ egress.reports.getLast?, last.1 + linkStatsInterval ≤ egress.nextStats

/-- The task does something with its queues: what `came` is from the inbox, what `went` is on
its way to the connection. -/
theorem Sound.advance (sound : Sound kind egress) {came went : List Datagram}
    {drops : MediaId → Nat}
    (accounts : Queues.Accounts kind egress.queues next.queues came went drops)
    (record : next.offered = egress.offered ∧ next.sent = egress.sent ∧
      next.reports = egress.reports ∧ next.nextStats = egress.nextStats)
    (inbox : datagrams egress.inbox = came ++ datagrams next.inbox)
    (kept : next.inbox.Sublist egress.inbox) (empty : egress.hand = []) (hand : next.hand = went)
    (losses : ∀ lost ∈ next.drops.lost ++ next.settling.lost,
      lost ∈ egress.drops.lost ++ egress.settling.lost)
    (lost : next.drops.lost.length ≤ inboxSize ∧ next.settling.lost.length ≤ inboxSize)
    (unsettled : ∀ track, egress.unsettled track = next.unsettled track + drops track)
    (running : egress.phase.isGone = false)
    (idle : next.phase = .waits → ∀ track, next.queues.audio.queueOf track = []) :
    Sound kind next := by
  obtain ⟨offered, sent, reports, nextStats⟩ := record
  have reported : ∀ measure track, next.reported measure track = egress.reported measure track := by
    intro measure track
    unfold Egress.reported
    rw [reports]
  refine ⟨accounts.sorted, fun packet member => sound.genuine packet (kept.subset member),
    fun lost member => sound.losses lost (losses lost member), fun track audio => ?_,
    fun _ track audio => ?_, fun _ track audio => ?_, idle, fun bytes shot => ?_,
    fun bytes member => ?_, kept.length_le.trans sound.inbox, lost, reports ▸ sound.spaced, ?_⟩
  · have before := sound.order track audio
    rw [empty, inbox, List.append_nil, onTrack_append, ← List.append_assoc] at before
    rw [offered, sent, hand, onTrack_append, List.append_assoc (onTrack track egress.sent)]
    refine List.Sublist.trans ?_ before
    refine List.Sublist.append ?_ (.refl _)
    rw [List.append_assoc (onTrack track egress.sent)]
    exact (List.Sublist.refl _).append (accounts.order track audio)
  · have before := sound.counted running track audio
    have change := accounts.dropped track audio
    have left := unsettled track
    rw [empty, inbox, List.append_nil, onTrack_append, List.length_append] at before
    rw [offered, sent, hand, onTrack_append, List.length_append, reported]
    omega
  · have before := sound.told running track audio
    have change := accounts.forwarded track audio
    rw [empty, List.append_nil] at before
    rw [sent, hand, onTrack_append, List.length_append, reported]
    omega
  · have before := sound.film bytes shot
    have change := accounts.times bytes shot
    rw [empty, inbox, List.append_nil, List.count_append] at before
    rw [offered, sent, hand, List.count_append]
    push_cast at before ⊢
    omega
  · rw [sent, hand] at member
    obtain before | now := List.mem_append.mp member
    · exact sound.framed bytes (List.mem_append_left _ before)
    · exact accounts.framed bytes now
  · rw [reports, nextStats]
    exact sound.due

theorem hand_of_phase {phase : EgressPhase} (same : egress.phase = phase) :
    egress.hand = { egress with phase }.hand := by
  unfold hand
  rw [same]

theorem settling_of_phase {phase : EgressPhase} (same : egress.phase = phase) :
    egress.settling = { egress with phase }.settling := by
  unfold settling
  rw [same]

theorem Sound.beginRound (sound : Sound kind egress) (phase : egress.phase = .starts) :
    Sound kind egress.beginRound := by
  have resting : egress.settling = {} := settling_of_phase phase
  have firsts : ∀ lost ∈ egress.drops.lost.filter (·.first), lost.kind = kind lost.mediaId :=
    fun lost member => sound.losses lost (List.mem_append_left _ (List.mem_of_mem_filter member))
  refine sound.advance (sound.sorted.loseAll firsts) ⟨rfl, rfl, rfl, rfl⟩ rfl (.refl _)
    (hand_of_phase phase) rfl (fun lost member => ?_)
    ⟨Nat.zero_le _, ?_⟩ (fun track => ?_) (by rw [phase]; rfl) fun waits => by cases waits
  · exact List.mem_append_left _ (List.mem_of_mem_filter member)
  · exact (List.length_filter_le _ _).trans sound.lost.1
  · have parts := lossesOn_parts track egress.drops.lost
    unfold unsettled
    rw [resting, ← parts]
    show _ + egress.drops.overflowed track + 0 =
      0 + (Queues.lossesOn track (egress.drops.lost.filter fun lost => !lost.first) +
        egress.drops.overflowed track) + _
    omega

/-- The task takes a packet from the inbox, in whichever of its two places. -/
theorem Sound.takeIn (sound : Sound kind egress) {packet : Packet} {inbox : List Packet}
    (waits : egress.inbox = packet :: inbox) {now : Instant} {choice : MediaId}
    (queues : next.queues = egress.queues.push packet now choice) (rest : next.inbox = inbox)
    (record : next.offered = egress.offered ∧ next.sent = egress.sent ∧
      next.reports = egress.reports ∧ next.nextStats = egress.nextStats)
    (drops : next.drops = egress.drops) (settling : next.settling = egress.settling)
    (empty : egress.hand = []) (hand : next.hand = []) (running : egress.phase.isGone = false)
    (goes : next.phase ≠ .waits) : Sound kind next := by
  have genuine := sound.genuine packet (by rw [waits]; exact List.mem_cons_self)
  have accounts := sound.sorted.push genuine now choice
  rw [← queues] at accounts
  refine sound.advance accounts record ?_ ?_ empty hand ?_ ?_ (fun track => ?_) running
    fun waits => absurd waits goes
  · rw [waits, rest]
    rfl
  · rw [waits, rest]
    exact List.sublist_cons_self packet inbox
  · rw [drops, settling]
    exact fun lost member => member
  · rw [drops, settling]
    exact sound.lost
  · unfold unsettled
    rw [drops, settling]
    omega

theorem Sound.account (sound : Sound kind egress) {drops : InboxDrops}
    (phase : egress.phase = .drains drops) (now : Instant) :
    Sound kind (egress.account drops now) := by
  have runs : egress.settling = drops := settling_of_phase phase
  have rest : ∀ lost ∈ drops.lost, lost.kind = kind lost.mediaId := fun lost member =>
    sound.losses lost (List.mem_append_right _ (runs ▸ member))
  have lost := sound.sorted.loseAll rest
  have counted := lost.trans (accounts_addOverflow lost.sorted drops.overflow)
  have accounts := counted.trans (counted.sorted.enforceBudget now)
  refine sound.advance accounts ⟨rfl, rfl, rfl, rfl⟩ rfl (.refl _)
    (hand_of_phase phase) rfl (fun lost member => ?_)
    ⟨sound.lost.1, Nat.zero_le _⟩ (fun track => ?_) (by rw [phase]; rfl) fun waits => by cases waits
  · obtain before | none := List.mem_append.mp member
    · exact List.mem_append_left _ before
    · cases none
  · have left : (egress.account drops now).unsettled track =
        Queues.lossesOn track egress.drops.lost + egress.drops.overflowed track := rfl
    have rest' : (drops.overflow.lookup track).getD 0 = drops.overflowed track := rfl
    rw [left, rest']
    unfold unsettled
    rw [runs]
    omega

/-- The next report comes later. -/
theorem Sound.delay (sound : Sound kind egress) {later : Instant}
    (after : egress.nextStats ≤ later) : Sound kind { egress with nextStats := later } :=
  { sound with due := fun last found => (sound.due last found).trans after }

theorem tally_stats (queues : Queues) (measure : Counters → Nat) (none : measure {} = 0)
    (track : MediaId) :
    tally measure track queues.takeStats.1 =
      measure ((queues.stats.lookup track).getD {}) := by
  refine (tally_toList measure track queues.stats).trans ?_
  cases queues.stats.lookup track with
  | none => exact none.symm
  | some counters => rfl

/-- The counters go into a report, unless there is nothing to say. -/
theorem Sound.takeStats (sound : Sound kind egress) {now : Instant}
    (time : ∀ last ∈ egress.reports.getLast?, last.1 + linkStatsInterval ≤ now)
    (next : now + linkStatsInterval = egress.nextStats) :
    Sound kind
      { egress with
        queues := egress.queues.takeStats.2
        reports :=
          if egress.queues.takeStats.1 = [] then egress.reports
          else egress.reports ++ [(now, egress.queues.takeStats.1)] } := by
  let reports :=
    if egress.queues.takeStats.1 = [] then egress.reports
    else egress.reports ++ [(now, egress.queues.takeStats.1)]
  have summed : ∀ (measure : Counters → Nat), measure {} = 0 → ∀ track,
      (reports.map fun report => tally measure track report.2).sum =
        egress.reported measure track + measure ((egress.queues.stats.lookup track).getD {}) := by
    intro measure none track
    have told := tally_stats egress.queues measure none track
    dsimp only [reports]
    split
    · rename_i empty
      rw [empty] at told
      rw [← told]
      rfl
    · rw [List.map_append, List.sum_append, ← told]
      rfl
  refine { sound with
    sorted := ⟨sound.sorted.consistent, sound.sorted.orderly, sound.sorted.filmed,
      sound.sorted.shot, sound.sorted.voiced, sound.sorted.bounded⟩
    counted := fun running track audio => ?_
    told := fun running track audio => ?_
    spaced := ?_
    due := ?_ }
  · have before := sound.counted running track audio
    have told := summed Counters.droppedUnits rfl track
    have regroup : ∀ {held counted earlier later : Nat}, later = earlier + counted →
        held + counted + earlier = held + 0 + later := by omega
    exact before.trans (regroup told)
  · have before := sound.told running track audio
    have told := summed Counters.forwarded rfl track
    refine Eq.trans ?_ before
    show (List.map _ reports).sum + 0 = _ + egress.queues.forwardedUnits track
    rw [told]
    rfl
  · show reports.IsChain _
    dsimp only [reports]
    split
    · exact sound.spaced
    · refine List.IsChain.append sound.spaced (List.isChain_singleton _) ?_
      rintro before last _ ⟨⟩
      exact time before last
  · show ∀ last ∈ reports.getLast?, _
    dsimp only [reports]
    split
    · exact sound.due
    · rw [List.getLast?_concat]
      rintro _ ⟨⟩
      exact next.le

/-- A report says what was counted since the last one, which is then forgotten. -/
theorem Sound.report (sound : Sound kind egress) (phase : egress.phase = .drains {})
    (now : Instant) (room : Bool) :
    Sound kind (egress.report now room) ∧ (egress.report now room).phase = .drains {} := by
  unfold Egress.report
  by_cases time : egress.nextStats ≤ now
  · rw [if_pos time]
    have forgets := sound.sorted.forgetQuietTracks
    have quiet : Sound kind { egress with queues := egress.queues.forgetQuietTracks } := by
      refine sound.advance forgets ⟨rfl, rfl, rfl, rfl⟩ rfl (.refl _)
        (hand_of_phase phase) (hand_of_phase phase) (fun _ member => member)
        sound.lost (fun _ => rfl) (by rw [phase]; rfl) fun waits => ?_
      rw [phase] at waits
      cases waits
    have later := quiet.delay (time.trans (Nat.le_add_right now linkStatsInterval))
    have passed : ∀ last ∈ egress.reports.getLast?, last.1 + linkStatsInterval ≤ now :=
      fun last found => (sound.due last found).trans time
    cases room with
    | false => exact ⟨later, phase⟩
    | true => exact ⟨later.takeStats passed rfl, phase⟩
  · rw [if_neg time]
    exact ⟨sound, phase⟩

theorem Sound.send (sound : Sound kind egress) (phase : egress.phase = .drains {}) :
    Sound kind egress.send := by
  have accounts := sound.sorted.pop
  have idle := sound.sorted.pop_none
  have settled : egress.settling = {} := settling_of_phase phase
  unfold Egress.send
  generalize egress.queues.pop = popped at accounts idle ⊢
  obtain ⟨given, queues⟩ := popped
  dsimp only
  cases given with
  | none =>
    refine sound.advance accounts ⟨rfl, rfl, rfl, rfl⟩ rfl (.refl _)
      (hand_of_phase phase) rfl ?_ ?_ (fun track => ?_)
      (by rw [phase]; rfl) fun _ => idle rfl
    · rw [settled]
      exact fun lost member => member
    · exact ⟨sound.lost.1, Nat.zero_le _⟩
    · unfold unsettled
      rw [settled]
      rfl
  | some bytes =>
    refine sound.advance accounts ⟨rfl, rfl, rfl, rfl⟩ rfl (.refl _)
      (hand_of_phase phase) rfl ?_ ?_ (fun track => ?_)
      (by rw [phase]; rfl) fun waits => by cases waits
    · rw [settled]
      exact fun lost member => member
    · exact ⟨sound.lost.1, Nat.zero_le _⟩
    · unfold unsettled
      rw [settled]
      rfl

theorem Sound.endRound (sound : Sound kind egress) {drops : InboxDrops}
    (phase : egress.phase = .drains drops) (now : Instant) (room : Bool) :
    Sound kind (egress.endRound drops now room) := by
  obtain ⟨reported, settled⟩ := (sound.account phase now).report rfl now room
  exact reported.send settled

theorem Sound.gone (sound : Sound kind egress) {inbox : List Packet}
    (kept : inbox.Sublist egress.inbox) : Sound kind { egress with inbox, phase := .gone } := by
  have fewer : (datagrams inbox).Sublist (datagrams egress.inbox) := kept.map _
  refine { sound with
    genuine := fun packet member => sound.genuine packet (kept.subset member)
    losses := fun lost member => sound.losses lost ?_
    order := fun track audio => ?_
    counted := fun running => by cases running
    told := fun running => by cases running
    idle := fun waits => by cases waits
    film := fun bytes shot => ?_
    framed := fun bytes member => sound.framed bytes ?_
    inbox := kept.length_le.trans sound.inbox
    lost := ⟨sound.lost.1, Nat.zero_le _⟩ }
  · obtain before | none := List.mem_append.mp member
    · exact List.mem_append_left _ before
    · cases none
  · refine List.Sublist.trans ?_ (sound.order track audio)
    refine List.Sublist.append (List.Sublist.append ?_ (.refl _)) (fewer.filter _)
    exact List.Sublist.filter _ (List.Sublist.append (.refl _) (List.nil_sublist _))
  · have before := sound.film bytes shot
    have less := fewer.count_le bytes
    show ((egress.sent ++ []).count bytes : Int) + egress.queues.times bytes +
      (datagrams inbox).count bytes ≤ (datagrams egress.offered).count bytes
    rw [List.append_nil]
    rw [List.count_append] at before
    push_cast at before
    omega
  · rw [List.mem_append] at member ⊢
    exact member.imp_right fun none => by cases none

theorem Sound.wake (sound : Sound kind egress) (phase : egress.phase = .waits) :
    Sound kind { egress with phase := .starts } := by
  have resting : egress.settling = {} := settling_of_phase phase
  refine sound.advance sound.sorted.refl ⟨rfl, rfl, rfl, rfl⟩ rfl (.refl _)
    (hand_of_phase phase) rfl (fun lost member => ?_)
    ⟨sound.lost.1, Nat.zero_le _⟩ (fun track => ?_) (by rw [phase]; rfl) fun waits => by cases waits
  · rw [resting]
    exact member
  · unfold unsettled
    rw [resting]
    rfl

theorem Sound.turn (sound : Sound kind egress) (now : Instant) (choice : MediaId) (room : Bool) :
    Sound kind (egress.turn now choice room) := by
  unfold Egress.turn
  cases phase : egress.phase with
  | starts => exact sound.beginRound phase
  | drains drops =>
    dsimp only
    cases waiting : egress.inbox with
    | nil => exact sound.endRound phase now room
    | cons packet inbox =>
      have empty : egress.hand = [] := hand_of_phase phase
      have same : drops = egress.settling := (settling_of_phase phase).symm
      exact sound.takeIn waiting rfl rfl ⟨rfl, rfl, rfl, rfl⟩ rfl same empty rfl
        (by rw [phase]; rfl) (by rintro ⟨⟩)
  | waits =>
    dsimp only
    cases waiting : egress.inbox with
    | nil =>
      dsimp only
      split
      · exact sound.gone (List.nil_sublist _)
      · split
        · have awake := sound.wake phase
          rw [waiting] at awake
          exact awake
        · exact sound
    | cons packet inbox =>
      have empty : egress.hand = [] := hand_of_phase phase
      have resting : egress.settling = {} := settling_of_phase phase
      exact sound.takeIn waiting rfl rfl ⟨rfl, rfl, rfl, rfl⟩ rfl resting.symm empty rfl
        (by rw [phase]; rfl) (by rintro ⟨⟩)
  | sends bytes => exact sound
  | gone => exact sound

theorem Sound.taken (sound : Sound kind egress) (ok : Bool) : Sound kind (egress.taken ok) := by
  unfold Egress.taken
  cases phase : egress.phase with
  | sends bytes =>
    have holds : egress.hand = [bytes] := hand_of_phase phase
    have resting : egress.settling = {} := settling_of_phase phase
    cases ok with
    | false => exact sound.gone (List.nil_sublist _)
    | true =>
      -- The datagram in hand has been sent, and the hand is empty.
      have same : egress.sent ++ [bytes] ++ [] = egress.sent ++ egress.hand := by
        rw [holds, List.append_nil]
      have running : egress.phase.isGone = false := by rw [phase]; rfl
      exact { sound with
        losses := fun lost member => sound.losses lost (by rw [resting]; exact member)
        order := fun track audio => by
          show (onTrack track (egress.sent ++ [bytes] ++ []) ++ _ ++ _).Sublist _
          rw [same]
          exact sound.order track audio
        counted := fun _ track audio => by
          have unsettled : egress.unsettled track =
              Queues.lossesOn track egress.drops.lost + egress.drops.overflowed track + 0 := by
            unfold Egress.unsettled
            rw [resting]
            rfl
          show _ = (onTrack track (egress.sent ++ [bytes] ++ [])).length + _ + _ +
            (Queues.lossesOn track egress.drops.lost + egress.drops.overflowed track + 0) + _ + _
          rw [same, ← unsettled]
          exact sound.counted running track audio
        told := fun _ track audio => by
          show _ = (onTrack track (egress.sent ++ [bytes] ++ [])).length
          rw [same]
          exact sound.told running track audio
        idle := fun waits => by cases waits
        film := fun other shot => by
          show ((egress.sent ++ [bytes] ++ []).count other : Int) + _ + _ ≤ _
          rw [same]
          exact sound.film other shot
        framed := fun other member => sound.framed other (same ▸ member)
        lost := ⟨sound.lost.1, Nat.zero_le _⟩ }
  | _ => exact sound

section Offering

variable {packet : Packet}

theorem onTrack_concat (track : MediaId) (packets : List Packet) (packet : Packet) :
    onTrack track (datagrams (packets ++ [packet])) =
      onTrack track (datagrams packets) ++ onTrack track [packet.bytes] := by
  rw [← onTrack_append]
  exact congrArg _ List.map_append

theorem count_concat (bytes : Datagram) (packets : List Packet) (packet : Packet) :
    (datagrams (packets ++ [packet])).count bytes =
      (datagrams packets).count bytes + [packet.bytes].count bytes := by
  rw [← List.count_append]
  exact congrArg _ List.map_append

/-- The inbox has room for the packet. -/
theorem Sound.accept (sound : Sound kind egress) (genuine : Queues.Genuine kind packet)
    (room : egress.inbox.length < inboxSize) :
    Sound kind
      { egress with
        offered := egress.offered ++ [packet]
        inbox := egress.inbox ++ [packet] } := by
  refine { sound with
    genuine := fun other member => ?_
    order := fun track audio => ?_
    counted := fun running track audio => ?_
    film := fun other shot => ?_
    inbox := ?_ }
  · obtain before | new := List.mem_append.mp member
    · exact sound.genuine other before
    · rw [List.mem_singleton.mp new]
      exact genuine
  · have before := sound.order track audio
    show (onTrack track (egress.sent ++ egress.hand) ++ egress.queues.audio.queueOf track ++
      onTrack track (datagrams (egress.inbox ++ [packet]))).Sublist
        (onTrack track (datagrams (egress.offered ++ [packet])))
    rw [onTrack_concat, onTrack_concat, ← List.append_assoc]
    exact before.append (.refl _)
  · have before := sound.counted running track audio
    show (onTrack track (datagrams (egress.offered ++ [packet]))).length =
      (onTrack track (egress.sent ++ egress.hand)).length +
        (egress.queues.audio.queueOf track).length +
        (onTrack track (datagrams (egress.inbox ++ [packet]))).length + egress.unsettled track +
        egress.queues.droppedUnits track + egress.reported _ track
    rw [onTrack_concat, onTrack_concat, List.length_append, List.length_append, before]
    omega
  · have before := sound.film other shot
    show ((egress.sent ++ egress.hand).count other : Int) + egress.queues.times other +
      (datagrams (egress.inbox ++ [packet])).count other ≤
        (datagrams (egress.offered ++ [packet])).count other
    rw [count_concat, count_concat]
    push_cast
    omega
  · show (egress.inbox ++ [packet]).length ≤ _
    rw [List.length_append]
    exact room

/-- The packet is recorded as lost. -/
theorem Sound.refuse (sound : Sound kind egress) (genuine : Queues.Genuine kind packet) :
    Sound kind
      { egress with
        offered := egress.offered ++ [packet]
        drops := egress.drops.record packet.asLost } := by
  refine { sound with
    losses := fun lost member => ?_
    order := fun track audio => ?_
    counted := fun running track audio => ?_
    film := fun other shot => ?_
    lost := ⟨?_, sound.lost.2⟩ }
  · have known : packet.asLost.kind = kind packet.asLost.mediaId := genuine.kind
    obtain new | before := List.mem_append.mp member
    · obtain ⟨more, -⟩ | same := lost_record egress.drops packet.asLost
      · rw [more] at new
        obtain before | new := List.mem_append.mp new
        · exact sound.losses lost (List.mem_append_left _ before)
        · rw [List.mem_singleton.mp new]
          exact known
      · rw [same] at new
        exact sound.losses lost (List.mem_append_left _ new)
    · exact sound.losses lost (List.mem_append_right _ before)
  · have before := sound.order track audio
    show List.Sublist _ (onTrack track (datagrams (egress.offered ++ [packet])))
    rw [onTrack_concat]
    exact before.trans (List.sublist_append_left _ _)
  · have before := sound.counted running track audio
    have recorded := unsettled_record egress.drops packet.asLost track
    have length : (onTrack track [packet.bytes]).length =
        if track = packet.asLost.mediaId then 1 else 0 := by
      rw [onTrack_singleton track genuine.trackOf]
      by_cases same : track = packet.header.mediaId
      · rw [if_pos same, if_pos (show track = packet.asLost.mediaId from same)]
        rfl
      · rw [if_neg same, if_neg (show ¬ track = packet.asLost.mediaId from same)]
        rfl
    show (onTrack track (datagrams (egress.offered ++ [packet]))).length =
      (onTrack track (egress.sent ++ egress.hand)).length +
        (egress.queues.audio.queueOf track).length +
        (onTrack track (datagrams egress.inbox)).length +
        (Queues.lossesOn track (egress.drops.record packet.asLost).lost +
          (egress.drops.record packet.asLost).overflowed track +
          (Queues.lossesOn track egress.settling.lost + egress.settling.overflowed track)) +
        egress.queues.droppedUnits track + egress.reported _ track
    unfold unsettled at before
    rw [onTrack_concat, List.length_append, length, recorded, before]
    omega
  · have before := sound.film other shot
    show _ ≤ ((datagrams (egress.offered ++ [packet])).count other : Int)
    rw [count_concat]
    push_cast
    refine before.trans ?_
    omega
  · obtain ⟨more, room⟩ | same := lost_record egress.drops packet.asLost
    · show (egress.drops.record packet.asLost).lost.length ≤ _
      rw [more, List.length_append]
      exact room
    · show (egress.drops.record packet.asLost).lost.length ≤ _
      rw [same]
      exact sound.lost.1

theorem Sound.offer (sound : Sound kind egress) (genuine : Queues.Genuine kind packet) :
    Sound kind (egress.offer packet) := by
  unfold Egress.offer
  dsimp only
  split
  · rename_i room
    rw [Bool.and_eq_true, decide_eq_true_eq] at room
    exact sound.accept genuine room.2
  · exact sound.refuse genuine

end Offering

/-! ### Runs -/

/-- Only genuine packets are offered. -/
def Event.Genuine (kind : MediaId → TrackKind) : Event → Prop
  | .offer packet => Queues.Genuine kind packet
  | _ => True

theorem Sound.step (sound : Sound kind egress) {event : Event} (genuine : event.Genuine kind) :
    Sound kind (egress.step event) := by
  cases event with
  | offer packet =>
    unfold Egress.step
    dsimp only
    split
    · exact sound
    · exact sound.offer genuine
  | close => exact { sound with }
  | turn now choice room => exact sound.turn now choice room
  | taken ok => exact sound.taken ok

theorem sound_start (kind : MediaId → TrackKind) (start : Instant) :
    Sound kind { nextStats := start + linkStatsInterval } where
  sorted :=
    { consistent := Queues.consistent_empty
      orderly := AudioQueues.orderly_empty
      filmed := fun _ _ queued => by rcases queued with found | found <;> cases found
      shot := fun _ _ => le_refl 0
      voiced := fun _ _ member => by cases member
      bounded := (by decide : (0 : Int) ≤ maxQueuedAudio) }
  genuine := fun _ member => by cases member
  losses := fun _ member => by cases member
  order := fun _ _ => .refl _
  counted := fun _ _ _ => rfl
  told := fun _ _ _ => rfl
  idle := fun waits => by cases waits
  film := fun _ _ => le_refl 0
  framed := fun _ member => by cases member
  inbox := Nat.zero_le _
  lost := ⟨Nat.zero_le _, Nat.zero_le _⟩
  spaced := .nil
  due := by rintro _ ⟨⟩

theorem Sound.once (sound : Sound kind egress) (bytes : Datagram) :
    egress.sent.count bytes ≤ (datagrams egress.offered).count bytes := by
  cases known : trackOf bytes with
  | none =>
    have unsent : bytes ∉ egress.sent := fun member => by
      have framed := sound.framed bytes (List.mem_append_left _ member)
      rw [known] at framed
      cases framed
    rw [List.count_eq_zero.mpr unsent]
    exact Nat.zero_le _
  | some track =>
    cases isKind : kind track with
    | audio =>
      have here : ∀ datagrams, (onTrack track datagrams).count bytes = datagrams.count bytes :=
        fun datagrams => List.count_filter (decide_eq_true known)
      have order := (sound.order track isKind).count_le bytes
      rw [onTrack_append, List.count_append, List.count_append, List.count_append] at order
      rw [here, here, here, here] at order
      omega
    | video =>
      have film := sound.film bytes ⟨track, known, isKind⟩
      have queued := Queues.times_nonneg egress.queues.toVideoQueues bytes
      rw [List.count_append] at film
      push_cast at film
      omega

theorem Sound.serves (sound : Sound kind egress) : Serves kind egress where
  inOrder := fun track audio => by
    have order := sound.order track audio
    rw [onTrack_append, List.append_assoc, List.append_assoc] at order
    exact (List.sublist_append_left _ _).trans order
  counted := sound.counted
  told := sound.told
  idle := sound.idle
  once := sound.once
  inbox := sound.inbox
  lost := sound.lost
  audio := sound.sorted.bounded
  spaced := sound.spaced

/-- Whatever is offered, sent and reported in which order, a receiver gets the packets of an audio
track in order, and each it doesn't get is counted as dropped once. -/
theorem run_serves (kind : MediaId → TrackKind) (start : Instant) (events : List Event)
    (genuine : ∀ event ∈ events, event.Genuine kind) :
    Serves kind (run Egress.step { nextStats := start + linkStatsInterval } events) :=
  ((Along.of_forall genuine).invariant (Sound kind) (sound_start kind start)
    fun _ _ sound genuine => sound.step genuine).serves

/-- Two packets of one track, of which the second waits behind the first. -/
def twoOffers : List Event :=
  let packetOf (seq : Nat) : Packet :=
    let header : Header := { mediaId := 7, epoch := 0, seq := seq, flags := .first ||| .last }
    { kind := .audio, header := header, bytes := header.encode }
  [.offer (packetOf 0), .offer (packetOf 1), .turn 0 0 true, .turn 0 0 true, .turn 0 0 true,
    .turn 0 0 true, .taken true]

theorem run_serves_twoOffers :
    Serves (fun _ => .audio)
      (run Egress.step { nextStats := 0 + linkStatsInterval } twoOffers) := by
  refine run_serves (fun _ => .audio) 0 twoOffers fun event member => ?_
  unfold twoOffers at member
  simp only [List.mem_cons, List.not_mem_nil, or_false] at member
  rcases member with rfl | rfl | rfl | rfl | rfl | rfl | rfl
  · exact ⟨by decide, rfl⟩
  · exact ⟨by decide, rfl⟩
  all_goals trivial

/-! ### What ingress forwards -/

end Egress

/-- What ingress forwards is genuine, where the table knows the kinds of the tracks. -/
theorem Ingress.genuine_receive {kind : MediaId → TrackKind} {connId : ConnId}
    {incoming : Incoming} (ingress : Ingress)
    (knows : ∀ mediaId route, incoming.table.lookup mediaId = some route →
      route.kind = kind mediaId)
    {packet : Packet} {subscribers : List ConnId}
    (forwarded : (ingress.receive connId incoming).1 = .forwarded packet subscribers) :
    Queues.Genuine kind packet := by
  have routed : Ingress.route connId incoming = .forwarded packet subscribers := by
    obtain ⟨-, same⟩ | ⟨-, ⟨-, same⟩ | ⟨-, ⟨-, same⟩ | ⟨id, -, same⟩⟩⟩ :=
      ingress.receive_cases connId incoming
    · rw [same] at forwarded
      cases forwarded
    · rw [same] at forwarded
      cases forwarded
    · rw [same] at forwarded
      exact forwarded
    · rw [same] at forwarded
      dsimp only at forwarded
      split at forwarded
      · exact forwarded
      · cases forwarded
  unfold Ingress.route at routed
  split at routed
  · cases routed
  · rename_i header parsed
    split at routed
    · cases routed
    · rename_i route found
      split at routed
      · cases routed
        exact ⟨parsed, knows _ route found⟩
      · cases routed

end Throcc
