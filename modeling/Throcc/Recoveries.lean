/-
This file follows a request for a keyframe from the one who watches a share to
the encoder of the one who shares it: the server merges the requests for a track
and forwards one a second, and the share thread merges what it hears and forces
the encoder once a second.

Both are pacers, and a request is at each moment with one of them, on its way
between them, or answered.
-/

import Throcc.Limits
import Throcc.Pacing
import Throcc.Run

namespace Throcc

namespace Recovery

def rank : Recovery → Nat
  | .refresh => 0
  | .idr => 1

theorem rank_injective : Function.Injective rank := by
  intro first second same
  cases first <;> cases second <;> first | rfl | cases same

/-- An instant decoder refresh is the greater. -/
instance : LinearOrder Recovery := LinearOrder.lift' rank rank_injective

theorem max_eq (first second : Recovery) : first.max second = Max.max first second := by
  cases first <;> cases second <;> decide

end Recovery

/-! ### The two pacers -/

/-- Forced recoveries are at least this far apart. -/
def recoverySpacing : Duration := fromSecs 1

/-- Merges recovery requests into one per `recoverySpacing`; `idr` wins over `refresh`. -/
structure RecoveryPacer where
  wanted : Option Recovery := none
  last : Option Instant := none

namespace RecoveryPacer

def ask (pacer : RecoveryPacer) (kind : Recovery) : RecoveryPacer :=
  { pacer with
    wanted := match pacer.wanted with
      | some other => some (other.max kind)
      | none => some kind }

def due (pacer : RecoveryPacer) (now : Instant) : Option Recovery × RecoveryPacer :=
  if pacer.last.any fun last => now - last < recoverySpacing then (none, pacer)
  else
    match pacer.wanted with
    | some kind => (some kind, { wanted := none, last := some now })
    | none => (none, pacer)

def toPacer (pacer : RecoveryPacer) : Pacer Recovery Instant where
  wanted := pacer.wanted
  last := pacer.last

theorem toPacer_ask (pacer : RecoveryPacer) (kind : Recovery) :
    (pacer.ask kind).toPacer = pacer.toPacer.ask kind := by
  obtain ⟨wanted, last⟩ := pacer
  cases wanted with
  | none => rfl
  | some other => exact congrArg (Pacer.mk · last) (congrArg some (Recovery.max_eq other kind))

/-- Durations are never negative. -/
theorem late_iff {spacing : Nat} (positive : 0 < spacing) (last now : Nat) :
    spacing ≤ now - last ↔ last + spacing ≤ now := by omega

theorem ready_iff {last : Option Instant} {wanted : Option Recovery} {now : Instant} :
    Pacer.Ready { wanted, last } recoverySpacing now ↔
      ¬ last.any (fun last => now - last < recoverySpacing) = true := by
  unfold Pacer.Ready
  cases last with
  | none => exact ⟨fun _ => Bool.false_ne_true, fun _ _ found => by cases found⟩
  | some last =>
    rw [Option.any_some, decide_eq_true_iff, Nat.not_lt]
    refine Iff.trans ?_ (late_iff (by decide : 0 < recoverySpacing) last now).symm
    exact ⟨fun ready => ready last rfl, fun ready _ found => Option.mem_some.mp found ▸ ready⟩

theorem due_eq (pacer : RecoveryPacer) (now : Instant) :
    (pacer.due now).1 = (pacer.toPacer.poll recoverySpacing now).1 ∧
      (pacer.due now).2.toPacer = (pacer.toPacer.poll recoverySpacing now).2 := by
  obtain ⟨wanted, last⟩ := pacer
  unfold due Pacer.poll
  by_cases ready : Pacer.Ready { wanted, last } recoverySpacing now
  · rw [if_neg (ready_iff.mp ready)]
    unfold toPacer
    rw [if_pos ready]
    cases wanted with
    | none => exact ⟨rfl, rfl⟩
    | some kind => exact ⟨rfl, rfl⟩
  · rw [if_pos (not_not.mp fun late => ready (ready_iff.mpr late))]
    unfold toPacer
    rw [if_neg ready]
    exact ⟨rfl, rfl⟩

end RecoveryPacer

namespace PendingKeyframe

def toPacer (pending : PendingKeyframe) : Pacer Recovery Instant where
  wanted := pending.wanted
  last := pending.lastSent

theorem ready_iff {last : Option Instant} {wanted : Option Recovery} {now : Instant} :
    Pacer.Ready { wanted, last } keyframeInterval now ↔
      (last.all fun sent => keyframeInterval ≤ now - sent) = true := by
  unfold Pacer.Ready
  cases last with
  | none => exact ⟨fun _ => rfl, fun _ _ found => by cases found⟩
  | some last =>
    rw [Option.all_some, decide_eq_true_iff]
    refine Iff.trans ?_
      (RecoveryPacer.late_iff (by decide : 0 < keyframeInterval) last now).symm
    exact ⟨fun ready => ready last rfl, fun ready _ found => Option.mem_some.mp found ▸ ready⟩

theorem takeIfDue_eq (pending : PendingKeyframe) (now : Instant) :
    (pending.takeIfDue now).1 = (pending.toPacer.poll keyframeInterval now).1 ∧
      (pending.takeIfDue now).2.toPacer = (pending.toPacer.poll keyframeInterval now).2 := by
  obtain ⟨last, wanted⟩ := pending
  unfold takeIfDue Pacer.poll
  by_cases ready : Pacer.Ready { wanted, last } keyframeInterval now
  · rw [if_pos (ready_iff.mp ready)]
    unfold toPacer
    rw [if_pos ready]
    cases wanted with
    | none => exact ⟨rfl, rfl⟩
    | some kind => exact ⟨rfl, rfl⟩
  · rw [if_neg fun late => ready (ready_iff.mpr late)]
    unfold toPacer
    rw [if_neg ready]
    exact ⟨rfl, rfl⟩

end PendingKeyframe

namespace KeyframeAggregator

/-- The pacer of one track. -/
def pacer (keyframes : KeyframeAggregator) (track : MediaId) : Pacer Recovery Instant :=
  ((keyframes.tracks.lookup track).getD {}).toPacer

variable (keyframes : KeyframeAggregator) (track : MediaId)

theorem pacer_request (kind : Recovery) (now : Instant) :
    (keyframes.request track kind now).1 =
        (((keyframes.pacer track).ask kind).poll keyframeInterval now).1 ∧
      (keyframes.request track kind now).2.pacer track =
        (((keyframes.pacer track).ask kind).poll keyframeInterval now).2 := by
  unfold request pacer
  dsimp only
  rw [Finmap.lookup_insert, Option.getD_some]
  generalize (keyframes.tracks.lookup track).getD {} = pending
  obtain ⟨last, wanted⟩ := pending
  cases wanted with
  | none => exact PendingKeyframe.takeIfDue_eq _ now
  | some other =>
    obtain ⟨grants, leaves⟩ := PendingKeyframe.takeIfDue_eq
      { lastSent := last, wanted := some (other.max kind) } now
    have asked : Pacer.ask (PendingKeyframe.toPacer { lastSent := last, wanted := some other })
        kind = PendingKeyframe.toPacer { lastSent := last, wanted := some (other.max kind) } :=
      congrArg (Pacer.mk · last) (congrArg some (Recovery.max_eq other kind).symm)
    rw [asked]
    exact ⟨grants, leaves⟩

theorem pacer_request_of_ne {other : MediaId} (different : other ≠ track) (kind : Recovery)
    (now : Instant) :
    (keyframes.request other kind now).2.pacer track = keyframes.pacer track := by
  unfold request pacer
  dsimp only
  rw [Finmap.lookup_insert_of_ne _ different.symm]

theorem pacer_forget_of_ne {other : MediaId} (different : other ≠ track) :
    (keyframes.forget other).pacer track = keyframes.pacer track := by
  unfold forget pacer
  dsimp only
  rw [Finmap.lookup_erase_ne different.symm]

theorem pacer_due (now : Instant) :
    (keyframes.due now).2.pacer track = ((keyframes.pacer track).poll keyframeInterval now).2 := by
  unfold due pacer
  dsimp only
  rw [Map.lookup_mapValues]
  cases keyframes.tracks.lookup track with
  | none => exact (congrArg Prod.snd (Pacer.poll_of_unwanted rfl)).symm
  | some pending => exact (PendingKeyframe.takeIfDue_eq pending now).2

/-- The requests of one track among those that are forwarded. -/
def forTrack (due : List (MediaId × Recovery)) : List Recovery :=
  (due.filter fun request => request.1 = track).map Prod.snd

theorem forTrack_filterMap {keys : List MediaId} (distinct : keys.Nodup)
    {entry : MediaId → Option (MediaId × Recovery)}
    (own : ∀ key, ∀ request ∈ entry key, request.1 = key) :
    forTrack track (keys.filterMap entry) =
      if track ∈ keys then ((entry track).map Prod.snd).toList else [] := by
  induction keys with
  | nil => rfl
  | cons key rest inductionHypothesis =>
    obtain ⟨absent, distinct⟩ := List.nodup_cons.mp distinct
    have later := inductionHypothesis distinct
    unfold forTrack at later ⊢
    cases found : entry key with
    | none =>
      rw [List.filterMap_cons_none found, later]
      by_cases same : track = key
      · subst same
        rw [if_neg absent, if_pos List.mem_cons_self, found]
        rfl
      · simp only [List.mem_cons, same, false_or]
    | some request =>
      have first := own key request found
      rw [List.filterMap_cons_some found, List.filter_cons]
      by_cases same : track = key
      · subst same
        rw [if_pos (decide_eq_true first), List.map_cons, later, if_neg absent,
          if_pos List.mem_cons_self, found]
        rfl
      · rw [if_neg fun same' => same ((of_decide_eq_true same').symm.trans first), later]
        simp only [List.mem_cons, same, false_or]

theorem forTrack_due (now : Instant) :
    forTrack track (keyframes.due now).1 =
      ((keyframes.pacer track).poll keyframeInterval now).1.toList := by
  unfold due Map.toList
  dsimp only
  rw [List.filterMap_filterMap, forTrack_filterMap track (nodup_ascending _)]
  · have known : track ∈ ascending keyframes.tracks.keys ↔
        ∃ pending, keyframes.tracks.lookup track = some pending :=
      (mem_ascending _ _).trans (Map.mem_keys_iff _ _)
    unfold pacer
    cases found : keyframes.tracks.lookup track with
    | none =>
      have unknown : track ∉ ascending keyframes.tracks.keys := fun member => by
        obtain ⟨_, there⟩ := known.mp member
        rw [found] at there
        cases there
      rw [if_neg unknown, Option.getD_none, Pacer.poll_of_unwanted rfl]
      rfl
    | some pending =>
      rw [if_pos (known.mpr ⟨pending, found⟩), Option.getD_some,
        ← (PendingKeyframe.takeIfDue_eq pending now).1]
      rw [Option.map_some, Option.bind_some]
      cases (pending.takeIfDue now).1 with
      | none => rfl
      | some kind => rfl
  · intro key request found
    obtain ⟨entry, there, granted⟩ := Option.bind_eq_some_iff.mp found
    obtain ⟨pending, _, rfl⟩ := Option.map_eq_some_iff.mp there
    obtain ⟨kind, _, rfl⟩ := Option.map_eq_some_iff.mp granted
    rfl

end KeyframeAggregator

/-! ### The way of a request -/

/-- A share that is being sent: the server's requests for it, those on their way, and what its
encoder was asked for. -/
structure Share where
  keyframes : KeyframeAggregator := {}
  /-- Events of the server the session has not heard. -/
  sent : List Recovery := []
  /-- What the session has told the share thread. -/
  told : List Recovery := []
  pacer : RecoveryPacer := {}
  /-- What the server forwarded, and when. -/
  forwarded : List (Instant × Recovery) := []
  /-- What the encoder was forced to, and when. -/
  recovered : List (Instant × Recovery) := []

namespace Share

inductive Input where
  /-- Someone who watches a track asks for a keyframe. -/
  | request (mediaId : MediaId) (kind : Recovery) (now : Instant)
  /-- A track has ended. -/
  | forget (mediaId : MediaId)
  /-- `Hub::flush_keyframes`. -/
  | flush (now : Instant)
  /-- The session hears the server's next event. -/
  | hear
  /-- The session asks for one itself, as its own sending dropped a unit. -/
  | lost
  /-- One turn of the share thread. -/
  | turn (now : Instant)

variable (track : MediaId)

/-- The server sends the events of the share's own track. -/
def forward (share : Share) (now : Instant) (kinds : List Recovery) : Share :=
  { share with
    sent := share.sent ++ kinds
    forwarded := share.forwarded ++ kinds.map fun kind => (now, kind) }

def step (share : Share) : Input → Share
  | .request mediaId kind now =>
    let requested := share.keyframes.request mediaId kind now
    { share with keyframes := requested.2 }.forward now
      (if mediaId = track then requested.1.toList else [])
  | .forget mediaId =>
    if mediaId = track then share
    else { share with keyframes := share.keyframes.forget mediaId }
  | .flush now =>
    let due := share.keyframes.due now
    { share with keyframes := due.2 }.forward now (KeyframeAggregator.forTrack track due.1)
  | .hear => { share with sent := share.sent.tail, told := share.told ++ share.sent.head?.toList }
  | .lost => { share with told := share.told ++ [.idr] }
  | .turn now =>
    let due := (share.told.foldl RecoveryPacer.ask share.pacer).due now
    { share with
      told := []
      pacer := due.2
      recovered := share.recovered ++ due.1.toList.map fun kind => (now, kind) }

/-- A request of this kind or a greater one has not reached the encoder yet. -/
def Owes (share : Share) (kind : Recovery) : Prop :=
  (share.keyframes.pacer track).Wants kind ∨ (∃ sent ∈ share.sent, kind ≤ sent) ∨
    (∃ told ∈ share.told, kind ≤ told) ∨ share.pacer.toPacer.Wants kind

variable {track} {share : Share} {kind : Recovery}

theorem forward_nil (share : Share) (now : Instant) : share.forward now [] = share := by
  unfold forward
  rw [List.map_nil, List.append_nil, List.append_nil]

/-- A request that comes in is owed. -/
theorem owes_request (share : Share) (kind : Recovery) (now : Instant) :
    (share.step track (.request track kind now)).Owes track kind := by
  obtain ⟨grants, leaves⟩ := share.keyframes.pacer_request track kind now
  unfold step
  dsimp only
  rw [if_pos rfl]
  obtain ⟨granted, found, most⟩ | wants :=
    (Pacer.wants_ask (share.keyframes.pacer track) kind).poll keyframeInterval now
  · rw [← grants] at found
    refine .inr (.inl ⟨granted, ?_, most⟩)
    exact List.mem_append_right _ (Option.mem_toList.mpr found)
  · rw [← leaves] at wants
    exact .inl wants

theorem owes_lost (share : Share) : (share.step track .lost).Owes track .idr :=
  .inr (.inr (.inl ⟨.idr, List.mem_append_right _ List.mem_cons_self, le_refl _⟩))

/-- What the encoder was forced to since an earlier state. -/
def since (earlier share : Share) : List (Instant × Recovery) :=
  share.recovered.drop earlier.recovered.length

def Answers (earlier share : Share) (kind : Recovery) : Prop :=
  ∃ recovery ∈ earlier.since share, kind ≤ recovery.2

theorem recovered_step (share : Share) (input : Input) :
    share.recovered <+: (share.step track input).recovered := by
  cases input with
  | turn now => exact List.prefix_append _ _
  | forget mediaId =>
    unfold step
    dsimp only
    split
    · exact List.prefix_rfl
    · exact List.prefix_rfl
  | _ => exact List.prefix_rfl

theorem toPacer_foldl (told : List Recovery) (pacer : RecoveryPacer) :
    (told.foldl RecoveryPacer.ask pacer).toPacer = told.foldl Pacer.ask pacer.toPacer := by
  induction told generalizing pacer with
  | nil => rfl
  | cons kind rest inductionHypothesis =>
    rw [List.foldl_cons, inductionHypothesis, RecoveryPacer.toPacer_ask, List.foldl_cons]

theorem wants_foldl {pacer : Pacer Recovery Instant} {told : List Recovery}
    (owed : (∃ other ∈ told, kind ≤ other) ∨ pacer.Wants kind) :
    (told.foldl Pacer.ask pacer).Wants kind := by
  induction told generalizing pacer with
  | nil =>
    obtain ⟨_, none, _⟩ | wants := owed
    · cases none
    · exact wants
  | cons first rest inductionHypothesis =>
    rw [List.foldl_cons]
    refine inductionHypothesis ?_
    obtain ⟨other, member, most⟩ | wants := owed
    · obtain rfl | later := List.mem_cons.mp member
      · obtain ⟨wanted, found, greater⟩ := Pacer.wants_ask pacer other
        exact .inr ⟨wanted, found, most.trans greater⟩
      · exact .inl ⟨other, later, most⟩
    · exact .inr (wants.ask first)

/-- A turn of the share thread answers what it has been told, or goes on owing it. -/
theorem owes_turn (owed : (∃ told ∈ share.told, kind ≤ told) ∨ share.pacer.toPacer.Wants kind)
    (now : Instant) :
    share.Answers (share.step track (.turn now)) kind ∨
      (share.step track (.turn now)).pacer.toPacer.Wants kind := by
  have wants := wants_foldl owed
  rw [← toPacer_foldl] at wants
  obtain ⟨grants, leaves⟩ := (share.told.foldl RecoveryPacer.ask share.pacer).due_eq now
  obtain ⟨granted, found, most⟩ | wants := wants.poll recoverySpacing now
  · rw [← grants] at found
    refine .inl ⟨(now, granted), ?_, most⟩
    unfold since step
    dsimp only
    rw [List.drop_left]
    exact List.mem_map_of_mem (Option.mem_toList.mpr found)
  · rw [← leaves] at wants
    exact .inr wants

/-- The server forwards a request it owes, or goes on owing it. -/
theorem owes_forward {keyframes : KeyframeAggregator} {kinds : List Recovery} (now : Instant)
    (owes : share.Owes track kind)
    (goes : (share.keyframes.pacer track).Wants kind →
      (∃ forwarded ∈ kinds, kind ≤ forwarded) ∨ (keyframes.pacer track).Wants kind) :
    (forward { share with keyframes } now kinds).Owes track kind := by
  obtain wants | ⟨sent, member, most⟩ | rest := owes
  · obtain ⟨forwarded, member, most⟩ | wants := goes wants
    · exact .inr (.inl ⟨forwarded, List.mem_append_right _ member, most⟩)
    · exact .inl wants
  · exact .inr (.inl ⟨sent, List.mem_append_left _ member, most⟩)
  · exact .inr (.inr rest)

theorem Owes.step (owes : share.Owes track kind) (input : Input) :
    share.Answers (share.step track input) kind ∨ (share.step track input).Owes track kind := by
  cases input with
  | request mediaId other now =>
    refine .inr (owes_forward now owes fun wants => ?_)
    by_cases same : mediaId = track
    · subst same
      obtain ⟨grants, leaves⟩ := share.keyframes.pacer_request mediaId other now
      rw [if_pos rfl, grants, leaves]
      refine ((wants.ask other).poll keyframeInterval now).imp_left ?_
      exact fun ⟨granted, found, most⟩ => ⟨granted, Option.mem_toList.mpr found, most⟩
    · rw [KeyframeAggregator.pacer_request_of_ne _ _ same]
      exact .inr wants
  | forget mediaId =>
    right
    unfold Share.step
    dsimp only
    split
    · exact owes
    · rename_i different
      refine owes.imp_left fun wants => ?_
      rw [KeyframeAggregator.pacer_forget_of_ne _ _ different]
      exact wants
  | flush now =>
    refine .inr (owes_forward now owes fun wants => ?_)
    rw [KeyframeAggregator.forTrack_due, KeyframeAggregator.pacer_due]
    refine (wants.poll keyframeInterval now).imp_left ?_
    exact fun ⟨granted, found, most⟩ => ⟨granted, Option.mem_toList.mpr found, most⟩
  | hear =>
    right
    obtain wants | ⟨sent, member, most⟩ | ⟨told, member, most⟩ | wants := owes
    · exact .inl wants
    · unfold Share.step Owes
      dsimp only
      cases heard : share.sent with
      | nil =>
        rw [heard] at member
        cases member
      | cons first rest =>
        rw [heard] at member
        obtain rfl | later := List.mem_cons.mp member
        · exact .inr (.inr (.inl ⟨sent, List.mem_append_right _ List.mem_cons_self, most⟩))
        · exact .inr (.inl ⟨sent, later, most⟩)
    · exact .inr (.inr (.inl ⟨told, List.mem_append_left _ member, most⟩))
    · exact .inr (.inr (.inr wants))
  | lost =>
    right
    obtain wants | sent | ⟨told, member, most⟩ | wants := owes
    · exact .inl wants
    · exact .inr (.inl sent)
    · exact .inr (.inr (.inl ⟨told, List.mem_append_left _ member, most⟩))
    · exact .inr (.inr (.inr wants))
  | turn now =>
    obtain wants | sent | owed := owes
    · exact .inr (.inl wants)
    · exact .inr (.inr (.inl sent))
    · exact (owes_turn owed now).imp_right fun wants => .inr (.inr (.inr wants))

theorem recovered_run (share : Share) (inputs : List Input) :
    share.recovered <+: (run (step track) share inputs).recovered :=
  run_invariant (step track) (fun next => share.recovered <+: next.recovered) List.prefix_rfl
    (fun next input before => before.trans (recovered_step next input)) inputs

/-- An answer stays given. -/
theorem Answers.run {earlier : Share} (answers : earlier.Answers share kind)
    (inputs : List Input) : earlier.Answers (Throcc.run (Share.step track) share inputs) kind := by
  obtain ⟨recovery, member, most⟩ := answers
  refine ⟨recovery, ?_, most⟩
  exact ((recovered_run share inputs).sublist.drop _).subset member

theorem since_mono {earlier : Share} (before : earlier.recovered <+: share.recovered)
    {next : Share} (answers : share.Answers next kind) : earlier.Answers next kind := by
  obtain ⟨recovery, member, most⟩ := answers
  refine ⟨recovery, ?_, most⟩
  exact List.drop_subset_drop_left _ before.length_le member

/-- A request is answered by the end of a run, or still owed. -/
theorem Owes.run (owes : share.Owes track kind) (inputs : List Input) :
    share.Answers (Throcc.run (Share.step track) share inputs) kind ∨
      (Throcc.run (Share.step track) share inputs).Owes track kind := by
  induction inputs generalizing share with
  | nil => exact .inr owes
  | cons input rest inductionHypothesis =>
    rw [run_cons]
    obtain answers | owes := owes.step input
    · exact .inl (answers.run rest)
    · exact (inductionHypothesis owes).imp_left (since_mono (recovered_step share input))

/-! ### Both pacers keep their spacing -/

/-- Each pacer knows its last grant, and its grants are spaced. -/
structure Paced (track : MediaId) (share : Share) : Prop where
  forwarded : Pacer.Spaced keyframeInterval share.forwarded (share.keyframes.pacer track)
  recovered : Pacer.Spaced recoverySpacing share.recovered share.pacer.toPacer

theorem Paced.foldl {recovered : List (Instant × Recovery)} {pacer : Pacer Recovery Instant}
    (spaced : Pacer.Spaced recoverySpacing recovered pacer) (told : List Recovery) :
    Pacer.Spaced recoverySpacing recovered (told.foldl Pacer.ask pacer) := by
  induction told generalizing pacer with
  | nil => exact spaced
  | cons kind rest inductionHypothesis => exact inductionHypothesis (spaced.ask kind)

theorem Paced.step (paced : Paced track share) (input : Input) :
    Paced track (share.step track input) := by
  cases input with
  | request mediaId kind now =>
    refine ⟨?_, paced.recovered⟩
    unfold Share.step forward
    dsimp only
    by_cases same : mediaId = track
    · subst same
      obtain ⟨grants, leaves⟩ := share.keyframes.pacer_request mediaId kind now
      rw [if_pos rfl, grants, leaves]
      exact (paced.forwarded.ask kind).poll now
    · rw [if_neg same, List.map_nil, List.append_nil,
        KeyframeAggregator.pacer_request_of_ne _ _ same]
      exact paced.forwarded
  | forget mediaId =>
    unfold Share.step
    dsimp only
    split
    · exact paced
    · rename_i different
      refine ⟨?_, paced.recovered⟩
      dsimp only
      rw [KeyframeAggregator.pacer_forget_of_ne _ _ different]
      exact paced.forwarded
  | flush now =>
    refine ⟨?_, paced.recovered⟩
    unfold Share.step forward
    dsimp only
    rw [KeyframeAggregator.forTrack_due, KeyframeAggregator.pacer_due]
    exact paced.forwarded.poll now
  | turn now =>
    refine ⟨paced.forwarded, ?_⟩
    obtain ⟨grants, leaves⟩ := (share.told.foldl RecoveryPacer.ask share.pacer).due_eq now
    unfold Share.step
    dsimp only
    rw [grants, leaves, toPacer_foldl]
    exact (Paced.foldl paced.recovered share.told).poll now
  | _ => exact ⟨paced.forwarded, paced.recovered⟩

theorem paced_run (inputs : List Input) : Paced track (run (step track) {} inputs) :=
  run_invariant (step track) (Paced track) ⟨Pacer.spaced_nil, Pacer.spaced_nil⟩
    (fun _ input paced => paced.step input) inputs

/-! ### Nothing is made up -/

/-- Everything that is wanted, under way or granted is of such a kind. -/
structure Only (track : MediaId) (asked : Recovery → Prop) (share : Share) : Prop where
  wanted : ∀ kind ∈ (share.keyframes.pacer track).wanted, asked kind
  sent : ∀ kind ∈ share.sent, asked kind
  told : ∀ kind ∈ share.told, asked kind
  pending : ∀ kind ∈ share.pacer.toPacer.wanted, asked kind
  recovered : ∀ recovery ∈ share.recovered, asked recovery.2

variable {asked : Recovery → Prop}

theorem only_foldl {pacer : Pacer Recovery Instant} (pending : ∀ kind ∈ pacer.wanted, asked kind)
    {told : List Recovery} (each : ∀ kind ∈ told, asked kind) :
    ∀ kind ∈ (told.foldl Pacer.ask pacer).wanted, asked kind := by
  induction told generalizing pacer with
  | nil => exact pending
  | cons first rest inductionHypothesis =>
    obtain ⟨here, later⟩ := List.forall_mem_cons.mp each
    refine inductionHypothesis (fun kind found => ?_) later
    obtain rfl | before := Pacer.wanted_ask found
    · exact here
    · exact pending kind before

/-- The server forwards only what it wants. -/
theorem Only.forward (only : Only track asked share) {pacer : Pacer Recovery Instant}
    (wanted : ∀ kind ∈ pacer.wanted, asked kind) (now : Instant)
    {keyframes : KeyframeAggregator} {kinds : List Recovery}
    (grants : ∀ kind ∈ kinds, kind ∈ (pacer.poll keyframeInterval now).1)
    (leaves : keyframes.pacer track = (pacer.poll keyframeInterval now).2) :
    Only track asked (Share.forward { share with keyframes } now kinds) := by
  obtain ⟨granted, waits⟩ := pacer.wanted_poll keyframeInterval now
  refine ⟨?_, ?_, only.told, only.pending, only.recovered⟩
  · intro kind found
    have found : kind ∈ (keyframes.pacer track).wanted := found
    rw [leaves] at found
    exact wanted kind (waits kind found)
  · intro kind member
    obtain before | new := List.mem_append.mp member
    · exact only.sent kind before
    · exact wanted kind (granted kind (grants kind new))

theorem Only.step (only : Only track asked share) {input : Input}
    (requested : ∀ kind now, input = .request track kind now → asked kind)
    (lost : input = .lost → asked .idr) : Only track asked (share.step track input) := by
  cases input with
  | request mediaId kind now =>
    by_cases same : mediaId = track
    · subst same
      obtain ⟨grants, leaves⟩ := share.keyframes.pacer_request mediaId kind now
      have wanted : ∀ other ∈ ((share.keyframes.pacer mediaId).ask kind).wanted, asked other := by
        intro other found
        obtain rfl | before := Pacer.wanted_ask found
        · exact requested other now rfl
        · exact only.wanted other before
      refine only.forward wanted now ?_ leaves
      rw [if_pos rfl, grants]
      exact fun _ => Option.mem_toList.mp
    · unfold Share.step
      dsimp only
      rw [if_neg same, forward_nil]
      refine ⟨?_, only.sent, only.told, only.pending, only.recovered⟩
      dsimp only
      rw [KeyframeAggregator.pacer_request_of_ne _ _ same]
      exact only.wanted
  | forget mediaId =>
    unfold Share.step
    dsimp only
    split
    · exact only
    · rename_i different
      refine ⟨?_, only.sent, only.told, only.pending, only.recovered⟩
      dsimp only
      rw [KeyframeAggregator.pacer_forget_of_ne _ _ different]
      exact only.wanted
  | flush now =>
    refine only.forward only.wanted now ?_ (KeyframeAggregator.pacer_due _ _ now)
    rw [KeyframeAggregator.forTrack_due]
    exact fun _ => Option.mem_toList.mp
  | hear =>
    refine ⟨only.wanted, fun kind member => only.sent kind (List.mem_of_mem_tail member), ?_,
      only.pending, only.recovered⟩
    intro kind member
    obtain before | heard := List.mem_append.mp member
    · exact only.told kind before
    · exact only.sent kind (List.mem_of_mem_head? (Option.mem_toList.mp heard))
  | lost =>
    refine ⟨only.wanted, only.sent, ?_, only.pending, only.recovered⟩
    intro kind member
    obtain before | own := List.mem_append.mp member
    · exact only.told kind before
    · rw [List.mem_singleton.mp own]
      exact lost rfl
  | turn now =>
    have wanted := only_foldl only.pending only.told
    rw [← toPacer_foldl] at wanted
    obtain ⟨grants, leaves⟩ := (share.told.foldl RecoveryPacer.ask share.pacer).due_eq now
    obtain ⟨granted, waits⟩ :=
      (share.told.foldl RecoveryPacer.ask share.pacer).toPacer.wanted_poll recoverySpacing now
    rw [← grants] at granted
    rw [← leaves] at waits
    refine ⟨only.wanted, only.sent, ?_, ?_, ?_⟩
    · rintro _ ⟨⟩
    · exact fun kind found => wanted kind (waits kind found)
    · intro recovery member
      obtain before | new := List.mem_append.mp member
      · exact only.recovered recovery before
      · obtain ⟨kind, found, rfl⟩ := List.mem_map.mp new
        exact wanted kind (granted kind (Option.mem_toList.mp found))

/-! ### Requests are answered -/

/-- Hearing on, the session tells the share thread all that was sent. -/
theorem run_hear {count : Nat} (enough : share.sent.length ≤ count) :
    run (step track) share (List.replicate count .hear) =
      { share with sent := [], told := share.told ++ share.sent } := by
  induction count generalizing share with
  | zero =>
    have none : share.sent = [] := List.length_eq_zero_iff.mp (Nat.le_zero.mp enough)
    obtain ⟨keyframes, sent, told, pacer, forwarded, recovered⟩ := share
    cases none
    rw [List.append_nil]
    rfl
  | succ count inductionHypothesis =>
    rw [List.replicate_succ, run_cons, inductionHypothesis]
    · obtain ⟨keyframes, sent, told, pacer, forwarded, recovered⟩ := share
      unfold step
      dsimp only
      cases sent with
      | nil => rw [List.tail_nil, List.append_nil, List.head?_nil, Option.toList_none,
          List.append_nil]
      | cons first rest =>
        rw [List.tail_cons, List.append_assoc]
        rfl
    · show share.sent.tail.length ≤ count
      rw [List.length_tail]
      omega

/-- One flush in time, the events it sends, and one turn in time. -/
def served (share : Share) (now later : Instant) : List Input :=
  .flush now :: List.replicate (share.sent.length + 1) .hear ++ [.turn later]

/-- A flush in time sends on what the server owes. -/
theorem Owes.flush (owes : share.Owes track kind) (paced : Paced track share) {now : Instant}
    (due : ∀ last ∈ share.forwarded.getLast?, last.1 + keyframeInterval ≤ now) :
    (share.step track (.flush now)).sent.length ≤ share.sent.length + 1 ∧
      ((∃ sent ∈ (share.step track (.flush now)).sent, kind ≤ sent) ∨
        (∃ told ∈ share.told, kind ≤ told) ∨ share.pacer.toPacer.Wants kind) := by
  have sent : (share.step track (.flush now)).sent = share.sent ++
      ((share.keyframes.pacer track).poll keyframeInterval now).1.toList :=
    congrArg (share.sent ++ ·) (KeyframeAggregator.forTrack_due _ _ now)
  rw [sent]
  constructor
  · rw [List.length_append]
    exact Nat.add_le_add_left (Option.length_toList_le) _
  · obtain wants | ⟨before, member, most⟩ | rest := owes
    · obtain ⟨granted, found, most⟩ := wants.granted (paced.forwarded.ready due)
      exact .inl ⟨granted, List.mem_append_right _ (Option.mem_toList.mpr found), most⟩
    · exact .inl ⟨before, List.mem_append_left _ member, most⟩
    · exact .inr rest

/-- A turn in time answers what the share thread owes. -/
theorem turn_answers (owed : (∃ told ∈ share.told, kind ≤ told) ∨ share.pacer.toPacer.Wants kind)
    (paced : Paced track share) {now : Instant}
    (due : ∀ last ∈ share.recovered.getLast?, last.1 + recoverySpacing ≤ now) :
    share.Answers (share.step track (.turn now)) kind := by
  have wants := wants_foldl owed
  have spaced := Paced.foldl paced.recovered share.told
  rw [← toPacer_foldl] at wants spaced
  obtain ⟨grants, -⟩ := (share.told.foldl RecoveryPacer.ask share.pacer).due_eq now
  obtain ⟨granted, found, most⟩ := wants.granted (spaced.ready due)
  rw [← grants] at found
  refine ⟨(now, granted), ?_, most⟩
  unfold since step
  dsimp only
  rw [List.drop_left]
  exact List.mem_map_of_mem (Option.mem_toList.mpr found)

theorem Owes.answered (owes : share.Owes track kind) (paced : Paced track share)
    {now later : Instant}
    (due : ∀ last ∈ share.forwarded.getLast?, last.1 + keyframeInterval ≤ now)
    (due' : ∀ last ∈ share.recovered.getLast?, last.1 + recoverySpacing ≤ later) :
    share.Answers (Throcc.run (Share.step track) share (share.served now later)) kind := by
  obtain ⟨few, owed⟩ := owes.flush paced due
  have flushed := paced.step (.flush now)
  unfold served
  rw [List.cons_append, run_cons, run_append, run_hear few, run_cons, run_nil]
  let heard : Share := { share.step track (.flush now) with
    sent := [], told := share.told ++ (share.step track (.flush now)).sent }
  have paced : Paced track heard := ⟨flushed.forwarded, flushed.recovered⟩
  refine turn_answers ?_ paced due'
  obtain ⟨sent, member, most⟩ | ⟨told, member, most⟩ | wants := owed
  · exact .inl ⟨sent, List.mem_append_right _ member, most⟩
  · exact .inl ⟨told, List.mem_append_left _ member, most⟩
  · exact .inr wants

/-! ### From the one who watches to the encoder -/

/-- Someone asks for a keyframe of the share, or its own sending does. -/
def Asks (track : MediaId) (kind : Recovery) (input : Input) : Prop :=
  (∃ now, input = .request track kind now) ∨ (input = .lost ∧ kind = .idr)

/-- What one who watches and one who shares rely on. -/
structure Recovers (track : MediaId) (inputs : List Input) (share : Share) : Prop where
  /-- The server forwards requests for the track a second apart, -/
  forwarded : share.forwarded.IsChain fun first second => first.1 + keyframeInterval ≤ second.1
  /-- and the encoder is forced a second apart, -/
  recovered : share.recovered.IsChain fun first second => first.1 + recoverySpacing ≤ second.1
  /-- only to what was asked for. -/
  caused : ∀ recovery ∈ share.recovered, ∃ input ∈ inputs, Asks track recovery.2 input
  /-- What is asked for is owed until the encoder is forced to that or more. -/
  kept : ∀ before input after kind, inputs = before ++ input :: after → Asks track kind input →
    (run (step track) {} before).Answers share kind ∨ share.Owes track kind
  /-- What is owed is granted with the next flush, the next events and the next turn in time. -/
  granted : ∀ kind now later, share.Owes track kind →
    (∀ last ∈ share.forwarded.getLast?, last.1 + keyframeInterval ≤ now) →
    (∀ last ∈ share.recovered.getLast?, last.1 + recoverySpacing ≤ later) →
    share.Answers (run (step track) share (share.served now later)) kind

theorem only_run (inputs : List Input) :
    Only track (fun kind => ∃ input ∈ inputs, Asks track kind input)
      (run (step track) {} inputs) := by
  have each : Along (step track) (fun _ input => input ∈ inputs) {} inputs :=
    Along.of_forall fun _ member => member
  refine each.invariant _ ?_ fun share input only member => ?_
  · constructor
    · rintro _ ⟨⟩
    · rintro _ ⟨⟩
    · rintro _ ⟨⟩
    · rintro _ ⟨⟩
    · rintro _ ⟨⟩
  · refine only.step (fun kind now same => ?_) fun same => ?_
    · exact ⟨input, member, .inl ⟨now, same⟩⟩
    · exact ⟨input, member, .inr ⟨same, rfl⟩⟩

/-- However requests of any tracks, flushes, events and turns follow each other. -/
theorem run_recovers (track : MediaId) (inputs : List Input) :
    Recovers track inputs (run (step track) {} inputs) where
  forwarded := (paced_run inputs).forwarded.spaced
  recovered := (paced_run inputs).recovered.spaced
  caused := (only_run inputs).recovered
  kept before input after kind same asks := by
    subst same
    rw [run_append, run_cons]
    have owes : ((run (step track) {} before).step track input).Owes track kind := by
      obtain ⟨now, rfl⟩ | ⟨rfl, rfl⟩ := asks
      · exact owes_request _ kind now
      · exact owes_lost _
    exact (owes.run after).imp_left (since_mono (recovered_step _ input))
  granted _ _ _ owes due due' := owes.answered (paced_run inputs) due due'

end Share

end Throcc
