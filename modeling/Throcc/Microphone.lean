/-
This file embeds the way of the microphone on the audio thread: the calls that
take it over from one another, the chain that cuts what it captures into frames
of 20 ms, and its gate.

The thread always stands where the commands of the newest call alone put it. A
frame goes out exactly if its gate was open for a part of it, on the track that
call asked for last, stamped with what was captured on that track before it, and
it holds nothing captured for another call or another track.
-/

import Mathlib.Algebra.Group.Nat.Defs
import Throcc.Proto
import Throcc.Run

namespace Throcc.Mic

/-- The length of a frame in ticks of the media clock. -/
def frame : Nat := 960
/-- The pulls of 10 ms in a frame. -/
def framePulls : Nat := 2
/-- Voice activation keeps sending this long after speech stops. -/
def hangoverPulls : Nat := 30

inductive Transmit where
  | pushToTalk
  | voiceActivity
deriving DecidableEq

/-- What a session tells the audio thread about its call. -/
inductive CallCommand (Engine : Type) where
  /-- Sends the mic through this media engine on this track, or nowhere. -/
  | sendOn (mic : Option (Engine × MediaId))
  | muted (muted : Bool)
  /-- One of those about what is played. -/
  | play
deriving DecidableEq

inductive Command (Engine : Type) where
  | settings (transmit : Transmit) (speechOnly : Bool)
  | openDevices
  | pushToTalk (down : Bool)
  | call (id : Nat) (command : CallCommand Engine)
  | endCall (id : Nat)
deriving DecidableEq

/-- Everything the audio thread holds for the mic of the current call. -/
structure CallState (Engine : Type) where
  id : Nat
  mic : Option (Engine × MediaId) := none
  muted : Bool := true
deriving DecidableEq

/-- 10 ms of the mic and what processing makes of them. -/
structure Pull (Audio : Type) where
  /-- Processing fails, or leaves this. -/
  processed : Option Audio
  speech : Bool
  /-- Its level is above the threshold. -/
  loud : Bool
  /-- The encoder takes the frame this pull ends, if it ends one. -/
  encodes : Bool
deriving DecidableEq

/-- Restarts the hangover while `active`, else counts it down. -/
def hold (hangover : Nat) (active : Bool) : Nat := if active then hangoverPulls else hangover - 1

/-- Mic input to frames. The media clock runs on while gated. -/
structure CaptureChain (Audio : Type) where
  transmit : Transmit
  speechOnly : Bool
  frame : List Audio := []
  frameOpen : Bool := false
  clock : Nat := 0
  hangover : Nat := 0
  muted : Bool := false
  transmitting : Bool := false
  /-- Whether the gate let the last 10 ms through, before muting. -/
  gateOpen : Bool := false

namespace CaptureChain

variable {Audio : Type} (chain : CaptureChain Audio)

def new (transmit : Transmit) (speechOnly : Bool) : CaptureChain Audio := { transmit, speechOnly }

/-- Restarts the media clock, for a new track. -/
def resetClock : CaptureChain Audio := { chain with clock := 0, frame := [], frameOpen := false }

def resetLevels : CaptureChain Audio := { chain with gateOpen := false, transmitting := false }

/-- The gate at a pull. -/
def gate (pull : Pull Audio) (pushToTalk : Bool) : CaptureChain Audio :=
  match chain.transmit with
  | .pushToTalk => { chain with gateOpen := pushToTalk }
  | .voiceActivity =>
    let hangover := hold chain.hangover ((!chain.speechOnly || pull.speech) && pull.loud)
    { chain with hangover, gateOpen := 0 < hangover }

/-- Takes 10 ms. Every 20 ms that the gate was open, returns a packet. -/
def capture (pull : Pull Audio) (pushToTalk : Bool) :
    Option (Nat × List Audio) × CaptureChain Audio :=
  match pull.processed with
  | none => (none, chain)
  | some audio =>
    let chain := chain.gate pull pushToTalk
    let isOpen := chain.frameOpen || chain.gateOpen && !chain.muted
    let filled := chain.frame ++ [audio]
    if filled.length < framePulls then (none, { chain with frame := filled, frameOpen := isOpen })
    else
      (if isOpen && pull.encodes then some (chain.clock, filled) else none,
        { chain with
          frame := []
          frameOpen := false
          clock := (chain.clock + Mic.frame) % 2 ^ 32
          transmitting := isOpen })

end CaptureChain

/-- A packet that goes out. -/
structure Sent (Audio Engine : Type) where
  engine : Engine
  track : MediaId
  timestamp : Nat
  audio : List Audio
deriving DecidableEq

/-- 10 ms that were captured: for which call, for which track of it, and whether they may go
out. -/
structure Heard (Audio : Type) where
  audio : Audio
  call : Nat
  track : Option MediaId
  passes : Bool
deriving DecidableEq

/-- The audio thread, with a record of what it captured since the media clock was restarted. -/
structure Worker (Audio Engine : Type) where
  chain : CaptureChain Audio
  call : CallState Engine := { id := 0 }
  pushToTalk : Bool := false
  heard : List (Heard Audio) := []

inductive Input (Audio Engine : Type) where
  | command (command : Command Engine)
  | pull (pull : Pull Audio)
deriving DecidableEq

namespace Worker

variable {Audio Engine : Type} (worker : Worker Audio Engine)

def new (transmit : Transmit) (speechOnly : Bool) : Worker Audio Engine :=
  { chain := CaptureChain.new transmit speechOnly }

def restart : Worker Audio Engine :=
  { worker with chain := worker.chain.resetClock, heard := [] }

def applyCall : CallCommand Engine → Worker Audio Engine
  | .sendOn mic =>
    let worker :=
      if mic.map Prod.snd ≠ worker.call.mic.map Prod.snd then worker.restart else worker
    { worker with call := { worker.call with mic } }
  | .muted muted => { worker with call := { worker.call with muted } }
  | .play => worker

def apply : Command Engine → Worker Audio Engine
  | .settings transmit speechOnly =>
    { worker with chain := { worker.chain with transmit, speechOnly } }
  | .openDevices => { worker with chain := worker.chain.resetLevels }
  | .pushToTalk down => { worker with pushToTalk := down }
  | .call id command =>
    if id < worker.call.id then worker
    else
      let worker := if worker.call.id < id then { worker with call := { id } } else worker
      worker.applyCall command
  | .endCall id => if worker.call.id ≤ id then { worker with call := { id } } else worker

/-- The call sends what it captures. -/
def transmits : Bool := !worker.call.muted && worker.call.mic.isSome

/-- Processes 10 ms of mic and sends it on the call. -/
def capture (pull : Pull Audio) : Option (Sent Audio Engine) × Worker Audio Engine :=
  let captured := { worker.chain with muted := !worker.transmits }.capture pull worker.pushToTalk
  let heard := pull.processed.toList.map fun audio =>
    { audio
      call := worker.call.id
      track := worker.call.mic.map Prod.snd
      passes := captured.2.gateOpen && worker.transmits }
  (captured.1.bind fun packet => worker.call.mic.map fun mic =>
      { engine := mic.1, track := mic.2, timestamp := packet.1, audio := packet.2 },
    { worker with chain := captured.2, heard := worker.heard ++ heard })

def step : Input Audio Engine → Option (Sent Audio Engine) × Worker Audio Engine
  | .command command => (none, worker.apply command)
  | .pull pull => worker.capture pull

end Worker

/-! ### What a call asks for -/

variable {Audio Engine : Type}

def CallState.ask (call : CallState Engine) : CallCommand Engine → CallState Engine
  | .sendOn mic => { call with mic }
  | .muted muted => { call with muted }
  | .play => call

/-- The call a command is of. -/
def Input.call? : Input Audio Engine → Option Nat
  | .command (.call id _) | .command (.endCall id) => some id
  | _ => none

/-- The newest call there was a command of. -/
def newest (inputs : List (Input Audio Engine)) : Nat :=
  inputs.foldl (fun id input => max id (input.call?.getD 0)) 0

/-- What one call asked for since it was last ended, in its own commands only. -/
def asked (id : Nat) (inputs : List (Input Audio Engine)) : CallState Engine :=
  inputs.foldl (fun call input =>
    match input with
    | .command (.call other command) => if other = id then call.ask command else call
    | .command (.endCall other) => if other = id then { id } else call
    | _ => call) { id }

/-- What is due to go out once the last of these was captured. -/
def due (call : CallState Engine) (heard : List (Heard Audio)) : Option (Sent Audio Engine) :=
  let last := heard.drop (heard.length - framePulls)
  if heard.length % framePulls = 0 ∧ ∃ part ∈ last, part.passes then
    call.mic.map fun mic =>
      { engine := mic.1
        track := mic.2
        timestamp := frame * (heard.length / framePulls - 1) % 2 ^ 32
        audio := last.map Heard.audio }
  else none

/-- What the gate has to go by: the settings, the key, and which pulls were active. -/
structure Gating where
  transmit : Transmit
  speechOnly : Bool
  pressed : Bool := false
  active : List Bool := []

namespace Gating

variable (gating : Gating)

def pull (pull : Pull Audio) : Gating :=
  match gating.transmit with
  | .pushToTalk => gating
  | .voiceActivity =>
    { gating with
      active := gating.active ++
        pull.processed.toList.map fun _ => (!gating.speechOnly || pull.speech) && pull.loud }

def hear : Input Audio Engine → Gating
  | .command (.settings transmit speechOnly) => { gating with transmit, speechOnly }
  | .command (.pushToTalk down) => { gating with pressed := down }
  | .pull pull => gating.pull pull
  | .command _ => gating

/-- The key is down, or some of the last pulls was active. -/
def opens : Bool :=
  match gating.transmit with
  | .pushToTalk => gating.pressed
  | .voiceActivity => (gating.active.drop (gating.active.length - hangoverPulls)).any id

end Gating

theorem newest_concat (inputs : List (Input Audio Engine)) (input : Input Audio Engine) :
    newest (inputs ++ [input]) = max (newest inputs) (input.call?.getD 0) := by
  unfold newest
  rw [List.foldl_append]
  rfl

namespace Worker

theorem apply_call (worker : Worker Audio Engine) (id : Nat) (command : CallCommand Engine) :
    worker.apply (.call id command) =
      if id < worker.call.id then worker
      else
        let worker := if worker.call.id < id then { worker with call := { id } } else worker
        worker.applyCall command := rfl

theorem apply_endCall (worker : Worker Audio Engine) (id : Nat) :
    worker.apply (.endCall id) =
      if worker.call.id ≤ id then { worker with call := { id } } else worker := rfl

/-- What a new call and what calls ask keep, their commands and their ends keep. -/
theorem call_keeps {worker : Worker Audio Engine} {holds : Worker Audio Engine → Prop}
    (initially : holds worker) (renewed : ∀ id, holds { worker with call := { id } })
    (heeded : ∀ worker command, holds worker → holds (worker.applyCall command)) (id : Nat) :
    (∀ command, holds (worker.apply (.call id command))) ∧
      holds (worker.apply (.endCall id)) := by
  constructor
  · intro command
    rw [apply_call]
    split
    · exact initially
    · dsimp only
      split
      · exact heeded _ _ (renewed id)
      · exact heeded _ _ initially
  · rw [apply_endCall]
    split
    · exact renewed id
    · exact initially

end Worker

/-! ### The frames of the capture chain -/

@[simp] theorem CaptureChain.gate_frame (chain : CaptureChain Audio) (pull : Pull Audio)
    (pushToTalk : Bool) : (chain.gate pull pushToTalk).frame = chain.frame := by
  unfold gate
  split <;> rfl

@[simp] theorem CaptureChain.gate_frameOpen (chain : CaptureChain Audio) (pull : Pull Audio)
    (pushToTalk : Bool) : (chain.gate pull pushToTalk).frameOpen = chain.frameOpen := by
  unfold gate
  split <;> rfl

@[simp] theorem CaptureChain.gate_clock (chain : CaptureChain Audio) (pull : Pull Audio)
    (pushToTalk : Bool) : (chain.gate pull pushToTalk).clock = chain.clock := by
  unfold gate
  split <;> rfl

@[simp] theorem CaptureChain.gate_muted (chain : CaptureChain Audio) (pull : Pull Audio)
    (pushToTalk : Bool) : (chain.gate pull pushToTalk).muted = chain.muted := by
  unfold gate
  split <;> rfl

theorem framePulls_pos : 0 < framePulls := by decide

theorem due_incomplete (call : CallState Engine) {heard : List (Heard Audio)}
    (incomplete : heard.length % framePulls ≠ 0) : due call heard = none :=
  if_neg fun holds => incomplete holds.1

theorem due_whole (call : CallState Engine) {whole part : List (Heard Audio)}
    (even : whole.length % framePulls = 0) (full : part.length = framePulls) :
    due call (whole ++ part) =
      if part.any Heard.passes then
        call.mic.map fun mic =>
          { engine := mic.1
            track := mic.2
            timestamp := frame * (whole.length / framePulls) % 2 ^ 32
            audio := part.map Heard.audio }
      else none := by
  have length : (whole ++ part).length = whole.length + framePulls := by
    rw [List.length_append, full]
  have divides : (whole.length + framePulls) % framePulls = 0 := by
    rw [Nat.add_mod_right, even]
  have before : (whole.length + framePulls) / framePulls - 1 = whole.length / framePulls := by
    rw [Nat.add_div_right _ (by decide)]
    rfl
  unfold due
  dsimp only
  rw [length, Nat.add_sub_cancel, List.drop_left, before]
  by_cases passes : ∃ part' ∈ part, part'.passes
  · rw [if_pos ⟨divides, passes⟩, if_pos (List.any_eq_true.mpr passes)]
  · rw [if_neg fun holds => passes holds.2, if_neg fun any => passes (List.any_eq_true.mp any)]

/-! ### What the audio thread keeps to -/

/-- The chain holds what was captured since the last whole frame, and its clock has counted the
whole ones. -/
def Fills (chain : CaptureChain Audio) (heard : List (Heard Audio)) : Prop :=
  ∃ whole part, heard = whole ++ part ∧ whole.length % framePulls = 0 ∧ part.length < framePulls ∧
    chain.frame = part.map Heard.audio ∧ chain.frameOpen = part.any Heard.passes ∧
    chain.clock = frame * (whole.length / framePulls) % 2 ^ 32

structure Sound (worker : Worker Audio Engine) : Prop where
  fills : Fills worker.chain worker.heard
  own : ∀ mic, worker.call.mic = some mic →
    ∀ part ∈ worker.heard, part.call = worker.call.id ∧ part.track = some mic.2

theorem fills_restarted (chain : CaptureChain Audio) : Fills chain.resetClock [] :=
  ⟨[], [], rfl, Nat.zero_mod _, framePulls_pos, rfl, rfl, by
    rw [List.length_nil, Nat.zero_div, Nat.mul_zero, Nat.zero_mod]
    rfl⟩

theorem Sound.applyCall {worker : Worker Audio Engine} (sound : Sound worker)
    (command : CallCommand Engine) : Sound (worker.applyCall command) := by
  cases command with
  | sendOn mic =>
    unfold Worker.applyCall
    dsimp only
    split
    · exact ⟨fills_restarted _, fun _ _ _ member => nomatch member⟩
    · rename_i sameTrack
      refine ⟨sound.fills, fun mic' is part member => ?_⟩
      have same : worker.call.mic.map Prod.snd = some mic'.2 := by
        rw [← not_not.mp sameTrack]
        exact congrArg (Option.map Prod.snd) is
      obtain ⟨before, had, track⟩ := Option.map_eq_some_iff.mp same
      rw [← track]
      exact sound.own before had part member
  | muted muted => exact ⟨sound.fills, sound.own⟩
  | play => exact sound

theorem Sound.apply {worker : Worker Audio Engine} (sound : Sound worker)
    (command : Command Engine) : Sound (worker.apply command) := by
  have keeps := Worker.call_keeps sound (fun _ => ⟨sound.fills, fun _ is => nomatch is⟩)
    fun _ command sound => sound.applyCall command
  cases command with
  | settings transmit speechOnly => exact ⟨sound.fills, sound.own⟩
  | openDevices => exact ⟨sound.fills, sound.own⟩
  | pushToTalk down => exact ⟨sound.fills, sound.own⟩
  | call id command => exact (keeps id).1 command
  | endCall id => exact (keeps id).2

theorem CaptureChain.capture_processed (chain : CaptureChain Audio) {pull : Pull Audio}
    (pushToTalk : Bool) {audio : Audio} (processed : pull.processed = some audio) :
    chain.capture pull pushToTalk =
      let gated := chain.gate pull pushToTalk
      let isOpen := chain.frameOpen || gated.gateOpen && !chain.muted
      if chain.frame.length + 1 < framePulls then
        (none, { gated with frame := chain.frame ++ [audio], frameOpen := isOpen })
      else
        (if isOpen && pull.encodes then some (chain.clock, chain.frame ++ [audio]) else none,
          { gated with
            frame := []
            frameOpen := false
            clock := (chain.clock + Mic.frame) % 2 ^ 32
            transmitting := isOpen }) := by
  unfold capture
  rw [processed]
  simp only [gate_frame, gate_frameOpen, gate_clock, gate_muted, List.length_append,
    List.length_singleton]

/-- 10 ms more: a frame goes out if they complete one that the gate was open for. -/
theorem Fills.capture {chain : CaptureChain Audio} {heard : List (Heard Audio)}
    (fills : Fills chain heard) {pull : Pull Audio} (pushToTalk : Bool) (new : Heard Audio)
    (processed : pull.processed = some new.audio)
    (passes : new.passes = ((chain.gate pull pushToTalk).gateOpen && !chain.muted))
    (call : CallState Engine) :
    Fills (chain.capture pull pushToTalk).2 (heard ++ [new]) ∧
      ((chain.capture pull pushToTalk).1.bind fun packet => call.mic.map fun mic =>
        ({ engine := mic.1, track := mic.2, timestamp := packet.1, audio := packet.2 } :
          Sent Audio Engine)) =
        if pull.encodes then due call (heard ++ [new]) else none := by
  obtain ⟨whole, part, rfl, even, short, frame, isOpen, clock⟩ := fills
  have isOpen' : (chain.frameOpen || (chain.gate pull pushToTalk).gateOpen && !chain.muted) =
      (part ++ [new]).any Heard.passes := by
    rw [List.any_append, isOpen, ← passes]
    simp
  have filled : chain.frame ++ [new.audio] = (part ++ [new]).map Heard.audio := by
    rw [frame, List.map_append]
    rfl
  have length : chain.frame.length = part.length := by rw [frame, List.length_map]
  rw [chain.capture_processed pushToTalk processed, List.append_assoc]
  dsimp only
  rw [isOpen', filled, length]
  by_cases shorter : part.length + 1 < framePulls
  · rw [if_pos shorter]
    have incomplete : (whole ++ (part ++ [new])).length % framePulls ≠ 0 := by
      unfold framePulls at *
      simp only [List.length_append, List.length_singleton]
      omega
    refine ⟨⟨whole, part ++ [new], rfl, even, by simpa using shorter, rfl, rfl, ?_⟩, ?_⟩
    · exact (chain.gate_clock pull pushToTalk).trans clock
    · rw [due_incomplete call incomplete, ite_self]
      rfl
  · rw [if_neg shorter]
    have full : (part ++ [new]).length = framePulls := by
      rw [List.length_append]
      exact Nat.le_antisymm short (Nat.not_lt.mp shorter)
    have whole' : (whole ++ (part ++ [new])).length = whole.length + framePulls := by
      rw [List.length_append, full]
    refine ⟨⟨whole ++ (part ++ [new]), [], (List.append_nil _).symm, ?_, framePulls_pos, rfl,
      rfl, ?_⟩, ?_⟩
    · rw [whole', Nat.add_mod_right, even]
    · dsimp only
      have count : (whole.length + framePulls) / framePulls = whole.length / framePulls + 1 :=
        Nat.add_div_right _ framePulls_pos
      rw [whole', clock, Nat.mod_add_mod, count, Nat.mul_succ]
    · rw [due_whole call even full, clock]
      cases (part ++ [new]).any Heard.passes <;> cases pull.encodes <;> rfl

theorem CaptureChain.capture_gateOpen (chain : CaptureChain Audio) {pull : Pull Audio}
    (pushToTalk : Bool) {audio : Audio} (processed : pull.processed = some audio) :
    (chain.capture pull pushToTalk).2.gateOpen = (chain.gate pull pushToTalk).gateOpen := by
  rw [chain.capture_processed pushToTalk processed]
  dsimp only
  split <;> rfl

theorem Fills.withMuted {chain : CaptureChain Audio} {heard : List (Heard Audio)}
    (fills : Fills chain heard) (muted : Bool) : Fills { chain with muted } heard :=
  fills

/-- What a pull does: what is due goes out, and the record grows by what was captured. -/
theorem Sound.capture {worker : Worker Audio Engine} (sound : Sound worker)
    (pull : Pull Audio) :
    Sound (worker.capture pull).2 ∧
      (worker.capture pull).1 =
        if pull.processed.isSome ∧ pull.encodes then
          due worker.call (worker.capture pull).2.heard
        else none := by
  cases processed : pull.processed with
  | none =>
    have idle : ({ worker.chain with muted := !worker.transmits }.capture pull
        worker.pushToTalk) = (none, { worker.chain with muted := !worker.transmits }) := by
      unfold CaptureChain.capture
      rw [processed]
    unfold Worker.capture
    rw [idle, processed]
    refine ⟨⟨?_, ?_⟩, rfl⟩
    · simpa using sound.fills.withMuted _
    · simpa using sound.own
  | some audio =>
    let new : Heard Audio :=
      { audio
        call := worker.call.id
        track := worker.call.mic.map Prod.snd
        passes := ({ worker.chain with muted := !worker.transmits }.capture pull
          worker.pushToTalk).2.gateOpen && worker.transmits }
    have heard : (worker.capture pull).2.heard = worker.heard ++ [new] := by
      unfold Worker.capture
      rw [processed]
      rfl
    obtain ⟨fills, sends⟩ := (sound.fills.withMuted (!worker.transmits)).capture
      worker.pushToTalk new processed (by
        rw [← CaptureChain.capture_gateOpen _ _ processed, Bool.not_not]) worker.call
    refine ⟨⟨heard ▸ fills, fun mic is part member => ?_⟩, ?_⟩
    · rw [heard] at member
      rcases List.mem_append.mp member with before | last
      · exact sound.own mic is part before
      · cases List.mem_singleton.mp last
        exact ⟨rfl, congrArg (Option.map Prod.snd) is⟩
    · rw [heard]
      simp only [Option.isSome_some, true_and]
      exact sends

theorem Sound.step {worker : Worker Audio Engine} (sound : Sound worker)
    (input : Input Audio Engine) : Sound (worker.step input).2 := by
  cases input with
  | command command => exact sound.apply command
  | pull pull => exact (sound.capture pull).1

/-! ### When the gate is open -/

theorem lt_foldl_hold (active : List Bool) (count : Nat) :
    count < active.foldl hold 0 ↔
      (active.drop (active.length - (hangoverPulls - count))).any id = true := by
  induction active using List.reverseRecOn generalizing count with
  | nil => simp
  | append_singleton earlier last inductionHypothesis =>
    rw [List.foldl_append, List.length_append, List.length_singleton]
    change count < hold (earlier.foldl hold 0) last ↔ _
    by_cases beyond : hangoverPulls ≤ count
    · have never : ¬ count < hold (earlier.foldl hold 0) last := by
        cases last with
        | true => exact Nat.not_lt.mpr beyond
        | false =>
          intro less
          have further := (inductionHypothesis count).mp (less.trans_le (Nat.sub_le _ _))
          rw [Nat.sub_eq_zero_of_le beyond, Nat.sub_zero, List.drop_length] at further
          cases further
      rw [Nat.sub_eq_zero_of_le beyond, Nat.sub_zero,
        List.drop_eq_nil_of_le (by rw [List.length_append]; rfl)]
      exact iff_of_false never Bool.false_ne_true
    · have window : earlier.length + 1 - (hangoverPulls - count) =
          earlier.length - (hangoverPulls - (count + 1)) := by omega
      rw [window, List.drop_append_of_le_length (Nat.sub_le _ _), List.any_append]
      cases last with
      | true =>
        simp only [List.any_cons, id, Bool.true_or, Bool.or_true, iff_true]
        exact Nat.not_le.mp beyond
      | false =>
        simp only [List.any_cons, List.any_nil, id, Bool.or_false]
        rw [← inductionHypothesis (count + 1)]
        exact Nat.lt_sub_iff_add_lt

/-- The worker's gate goes by what this says was heard. -/
structure Gated (gating : Gating) (worker : Worker Audio Engine) : Prop where
  transmit : worker.chain.transmit = gating.transmit
  speechOnly : worker.chain.speechOnly = gating.speechOnly
  pressed : worker.pushToTalk = gating.pressed
  hangover : worker.chain.hangover = gating.active.foldl hold 0

theorem CaptureChain.capture_gating (chain : CaptureChain Audio) (pull : Pull Audio)
    (pushToTalk : Bool) :
    (chain.capture pull pushToTalk).2.transmit = chain.transmit ∧
      (chain.capture pull pushToTalk).2.speechOnly = chain.speechOnly ∧
      (chain.capture pull pushToTalk).2.hangover =
        if pull.processed.isSome then (chain.gate pull pushToTalk).hangover
        else chain.hangover := by
  have gate : (chain.gate pull pushToTalk).transmit = chain.transmit ∧
      (chain.gate pull pushToTalk).speechOnly = chain.speechOnly := by
    unfold gate
    split <;> exact ⟨rfl, rfl⟩
  cases processed : pull.processed with
  | none =>
    unfold capture
    rw [processed]
    exact ⟨rfl, rfl, rfl⟩
  | some audio =>
    rw [chain.capture_processed pushToTalk processed]
    dsimp only
    split <;> exact ⟨gate.1, gate.2, rfl⟩

/-- Muting comes after the gate. -/
theorem CaptureChain.gate_withMuted (chain : CaptureChain Audio) (muted : Bool)
    (pull : Pull Audio) (pushToTalk : Bool) :
    CaptureChain.gate { chain with muted } pull pushToTalk =
      { chain.gate pull pushToTalk with muted } := by
  unfold gate
  dsimp only
  split <;> rfl

theorem Gating.pull_keeps (gating : Gating) (pull : Pull Audio) :
    (gating.pull pull).transmit = gating.transmit ∧
      (gating.pull pull).speechOnly = gating.speechOnly ∧
      (gating.pull pull).pressed = gating.pressed := by
  unfold Gating.pull
  split <;> exact ⟨rfl, rfl, rfl⟩

theorem Gating.pull_failed (gating : Gating) {pull : Pull Audio}
    (failed : pull.processed = none) : gating.pull pull = gating := by
  unfold Gating.pull
  rw [failed]
  split
  · rfl
  · rw [Option.toList_none, List.map_nil, List.append_nil]

/-- The hangover runs while one of the last pulls was active. -/
theorem Gating.opens_voiceActivity {gating : Gating} (mode : gating.transmit = .voiceActivity) :
    gating.opens = decide (0 < gating.active.foldl hold 0) := by
  rw [Bool.eq_iff_iff, decide_eq_true_iff, lt_foldl_hold]
  unfold Gating.opens
  rw [mode]
  rfl

theorem Gated.gate {gating : Gating} {worker : Worker Audio Engine} (gated : Gated gating worker)
    {pull : Pull Audio} (processed : pull.processed.isSome) :
    (worker.chain.gate pull worker.pushToTalk).hangover =
        (gating.pull pull).active.foldl hold 0 ∧
      (worker.chain.gate pull worker.pushToTalk).gateOpen = (gating.pull pull).opens := by
  obtain ⟨audio, processed⟩ := Option.isSome_iff_exists.mp processed
  cases mode : gating.transmit with
  | pushToTalk =>
    have same : gating.pull pull = gating := by
      unfold Gating.pull
      rw [mode]
    have opens : gating.opens = gating.pressed := by
      unfold Gating.opens
      rw [mode]
    unfold CaptureChain.gate
    rw [gated.transmit, mode, same, opens]
    exact ⟨gated.hangover, gated.pressed⟩
  | voiceActivity =>
    have counts : (gating.pull pull).active.foldl hold 0 =
        hold worker.chain.hangover
          ((!worker.chain.speechOnly || pull.speech) && pull.loud) := by
      unfold Gating.pull
      rw [mode]
      dsimp only
      rw [List.foldl_append, processed, gated.hangover, gated.speechOnly]
      rfl
    rw [Gating.opens_voiceActivity ((gating.pull_keeps pull).1.trans mode), counts]
    unfold CaptureChain.gate
    rw [gated.transmit, mode]
    exact ⟨rfl, rfl⟩

theorem Gated.capture {gating : Gating} {worker : Worker Audio Engine}
    (gated : Gated gating worker) (pull : Pull Audio) :
    Gated (gating.pull pull) (worker.capture pull).2 ∧
      (pull.processed.isSome →
        (worker.capture pull).2.chain.gateOpen = (gating.pull pull).opens) := by
  let chain : CaptureChain Audio := { worker.chain with muted := !worker.transmits }
  have gate : chain.gate pull worker.pushToTalk =
      { worker.chain.gate pull worker.pushToTalk with muted := !worker.transmits } :=
    worker.chain.gate_withMuted _ pull worker.pushToTalk
  obtain ⟨transmit, speechOnly, hangover⟩ := chain.capture_gating pull worker.pushToTalk
  obtain ⟨transmit', speechOnly', pressed'⟩ := gating.pull_keeps pull
  refine ⟨⟨(transmit.trans gated.transmit).trans transmit'.symm,
    (speechOnly.trans gated.speechOnly).trans speechOnly'.symm,
    gated.pressed.trans pressed'.symm, hangover.trans ?_⟩, fun processed => ?_⟩
  · split
    · rename_i processed
      rw [gate]
      exact (gated.gate processed).1
    · rename_i failed
      rw [gating.pull_failed (Option.not_isSome_iff_eq_none.mp failed)]
      exact gated.hangover
  · obtain ⟨audio, is⟩ := Option.isSome_iff_exists.mp processed
    refine (chain.capture_gateOpen worker.pushToTalk is).trans ?_
    rw [gate]
    exact (gated.gate processed).2

theorem Gated.applyCall {gating : Gating} {worker : Worker Audio Engine}
    (gated : Gated gating worker) (command : CallCommand Engine) :
    Gated gating (worker.applyCall command) := by
  obtain ⟨transmit, speechOnly, pressed, hangover⟩ := gated
  cases command with
  | sendOn mic =>
    unfold Worker.applyCall
    dsimp only
    split <;> exact ⟨transmit, speechOnly, pressed, hangover⟩
  | muted muted => exact ⟨transmit, speechOnly, pressed, hangover⟩
  | play => exact ⟨transmit, speechOnly, pressed, hangover⟩

theorem Gated.step {gating : Gating} {worker : Worker Audio Engine}
    (gated : Gated gating worker) (input : Input Audio Engine) :
    Gated (gating.hear input) (worker.step input).2 := by
  have keeps := Worker.call_keeps gated
    (fun _ => ⟨gated.transmit, gated.speechOnly, gated.pressed, gated.hangover⟩)
    fun _ command gated => gated.applyCall command
  cases input with
  | pull pull => exact (gated.capture pull).1
  | command command =>
    cases command with
    | settings transmit speechOnly => exact ⟨rfl, rfl, gated.pressed, gated.hangover⟩
    | openDevices => exact ⟨gated.transmit, gated.speechOnly, gated.pressed, gated.hangover⟩
    | pushToTalk down => exact ⟨gated.transmit, gated.speechOnly, rfl, gated.hangover⟩
    | call id command => exact (keeps id).1 command
    | endCall id => exact (keeps id).2

-- A frame that the gate was open for at first goes out whole, though its rest was muted.
example :
    let talk (audio : Nat) : Pull Nat :=
      { processed := some audio, speech := false, loud := false, encodes := true }
    let worker := run (fun worker input => (Worker.step worker input).2)
      (Worker.new .pushToTalk false)
      [.command (.pushToTalk true), .command (.call 1 (.sendOn (some (0, 7)))),
        .command (.call 1 (.muted false)), .pull (talk 10), .command (.call 1 (.muted true))]
    (worker.capture (talk 11)).1 =
      some { engine := (0 : Nat), track := 7, timestamp := 0, audio := [10, 11] } := by
  decide

end Throcc.Mic
