/-
This file embeds what a session does with commands while it reconnects, and
proves when the commands it drops make no difference. A newer command drops an
older one that sets the same thing. Setting the microphone also undeafens, and
deafening remembers the microphone, so that a dropped command can have
mattered to one that is kept.
-/

import Throcc.Proto
import Throcc.Run

namespace Throcc

def maxQueuedWhileReconnecting : Nat := 64

/-! ### The voice settings of a session -/

/-- The microphone and deafening, and the microphone that undeafening brings back. -/
structure Voice where
  mic : Bool
  deafened : Bool
  micBeforeDeafen : Bool
deriving DecidableEq, Repr

namespace Voice

variable (voice : Voice)

/-- Turning the microphone on also undeafens. -/
def setMic (on : Bool) : Voice :=
  { voice with mic := on, deafened := if on then false else voice.deafened }

/-- Deafens, which also mutes, or undeafens back to the mic state from before. -/
def setDeafened (deafened : Bool) : Voice :=
  if deafened = voice.deafened then voice
  else if deafened then { mic := false, deafened, micBeforeDeafen := voice.mic }
  else { voice with mic := voice.micBeforeDeafen, deafened }

/-- The microphone once it is undeafened. -/
def restored : Bool := if voice.deafened then voice.micBeforeDeafen else voice.mic

end Voice

/-! ### Commands -/

inductive SoundKind where
  | voice
  | share
deriving DecidableEq, Repr

/-- What a user asks of a session, with what nothing here reads as `Data`. -/
inductive UiCommand (Data : Type) where
  | join (room : Option RoomId)
  | setMic (on : Bool)
  | setDeafened (deafened : Bool)
  | setSoundLevel (user : UserId) (sound : SoundKind) (level : Data)
  | setProfile (profile : Data)
  | fetchAvatar (hash : Data)
  | other (command : Data)

variable {Data : Type}

/-- What a command does to the voice settings. -/
def Voice.command (voice : Voice) : UiCommand Data → Voice
  | .setMic on => voice.setMic on
  | .setDeafened deafened => voice.setDeafened deafened
  | .join _ => voice
  | .setSoundLevel _ _ _ => voice
  | .setProfile _ => voice
  | .fetchAvatar _ => voice
  | .other _ => voice

/-- Whether `newer` sets the same thing as `older`, so only `newer` needs replaying. -/
def supersedes : UiCommand Data → UiCommand Data → Bool
  | .setSoundLevel user sound _, .setSoundLevel other otherSound _ =>
    user = other ∧ sound = otherSound
  | .setMic _, .setMic _ => true
  | .setDeafened _, .setDeafened _ => true
  | .setProfile _, .setProfile _ => true
  | _, _ => false

/-- What a session has heard while it reconnects. -/
structure Reconnecting (Data : Type) where
  queued : List (UiCommand Data) := []
  wantRoom : Option RoomId := none
  droppedAny : Bool := false

/-- Queues a command in place of those it supersedes. -/
def Reconnecting.queue (reconnecting : Reconnecting Data) (command : UiCommand Data) :
    Reconnecting Data :=
  let queued := reconnecting.queued.filter fun older => !supersedes command older
  if queued.length < maxQueuedWhileReconnecting then
    { reconnecting with queued := queued ++ [command] }
  else
    { reconnecting with queued, droppedAny := true }

def Reconnecting.hear (reconnecting : Reconnecting Data) : UiCommand Data → Reconnecting Data
  | .join room => { reconnecting with wantRoom := room }
  | .fetchAvatar _ => reconnecting
  | .setMic on => reconnecting.queue (.setMic on)
  | .setDeafened deafened => reconnecting.queue (.setDeafened deafened)
  | .setSoundLevel user sound level => reconnecting.queue (.setSoundLevel user sound level)
  | .setProfile profile => reconnecting.queue (.setProfile profile)
  | .other command => reconnecting.queue (.other command)

/-! ### Settings -/

inductive Switch where
  | mic
  | deafened
deriving DecidableEq, Repr

/-- A command for the voice settings. -/
structure Setting where
  switch : Switch
  on : Bool
deriving DecidableEq, Repr

def UiCommand.setting : UiCommand Data → Option Setting
  | .setMic on => some ⟨.mic, on⟩
  | .setDeafened deafened => some ⟨.deafened, deafened⟩
  | .join _ => none
  | .setSoundLevel _ _ _ => none
  | .setProfile _ => none
  | .fetchAvatar _ => none
  | .other _ => none

def Voice.set (voice : Voice) (setting : Setting) : Voice :=
  match setting.switch with
  | .mic => voice.setMic setting.on
  | .deafened => voice.setDeafened setting.on

theorem run_command (voice : Voice) (commands : List (UiCommand Data)) :
    run Voice.command voice commands = run Voice.set voice (commands.filterMap UiCommand.setting) := by
  induction commands generalizing voice with
  | nil => rfl
  | cons command rest inductionHypothesis =>
    rw [run_cons, inductionHypothesis]
    cases command <;> rfl

/-- A setting takes the place of the one of the same switch. -/
def supersede (kept : List Setting) (setting : Setting) : List Setting :=
  (kept.filter fun older => older.switch ≠ setting.switch) ++ [setting]

theorem length_queue (reconnecting : Reconnecting Data) (command : UiCommand Data) :
    (reconnecting.queue command).queued.length ≤ reconnecting.queued.length + 1 := by
  have shorter := List.length_filter_le (fun older => !supersedes command older) reconnecting.queued
  unfold Reconnecting.queue
  dsimp only
  split
  · rw [List.length_append]
    exact Nat.add_le_add_right shorter 1
  · exact shorter.trans (Nat.le_succ _)

theorem length_hear (reconnecting : Reconnecting Data) (command : UiCommand Data) :
    (reconnecting.hear command).queued.length ≤ reconnecting.queued.length + 1 := by
  cases command with
  | join room => exact Nat.le_succ _
  | fetchAvatar hash => exact Nat.le_succ _
  | setMic on => exact length_queue _ _
  | setDeafened deafened => exact length_queue _ _
  | setSoundLevel user sound level => exact length_queue _ _
  | setProfile profile => exact length_queue _ _
  | other command => exact length_queue _ _

/-- A setting is superseded by the settings of its switch. -/
theorem supersedes_setting (command : UiCommand Data) {older : UiCommand Data} {setting : Setting}
    (sets : older.setting = some setting) :
    (!supersedes command older) = command.setting.all fun newer => setting.switch ≠ newer.switch := by
  cases older with
  | setMic on =>
    cases sets
    cases command <;> rfl
  | setDeafened deafened =>
    cases sets
    cases command <;> rfl
  | join room => cases sets
  | setSoundLevel user sound level => cases sets
  | setProfile profile => cases sets
  | fetchAvatar hash => cases sets
  | other command => cases sets

/-- Which settings a command drops from the queue. -/
theorem settings_filter (queued : List (UiCommand Data)) (command : UiCommand Data) :
    (queued.filter fun older => !supersedes command older).filterMap UiCommand.setting =
      (queued.filterMap UiCommand.setting).filter fun older =>
        command.setting.all fun setting => older.switch ≠ setting.switch := by
  induction queued with
  | nil => rfl
  | cons older rest inductionHypothesis =>
    cases sets : older.setting with
    | none =>
      rw [List.filterMap_cons_none sets, ← inductionHypothesis, List.filter_cons]
      split
      · exact List.filterMap_cons_none sets
      · rfl
    | some setting =>
      rw [List.filterMap_cons_some sets, List.filter_cons, List.filter_cons,
        supersedes_setting command sets]
      split
      · rw [List.filterMap_cons_some sets, inductionHypothesis]
      · exact inductionHypothesis

theorem settings_queue {reconnecting : Reconnecting Data} {command : UiCommand Data}
    (room : reconnecting.queued.length < maxQueuedWhileReconnecting) :
    (reconnecting.queue command).queued.filterMap UiCommand.setting =
      run supersede (reconnecting.queued.filterMap UiCommand.setting) command.setting.toList := by
  have shorter := List.length_filter_le (fun older => !supersedes command older) reconnecting.queued
  unfold Reconnecting.queue
  dsimp only
  rw [if_pos (shorter.trans_lt room)]
  dsimp only
  rw [List.filterMap_append, settings_filter]
  cases setting : command.setting with
  | none => simp [setting]
  | some setting' => simp [setting, supersede]

theorem settings_hear {reconnecting : Reconnecting Data} (command : UiCommand Data)
    (room : reconnecting.queued.length < maxQueuedWhileReconnecting) :
    (reconnecting.hear command).queued.filterMap UiCommand.setting =
      run supersede (reconnecting.queued.filterMap UiCommand.setting) command.setting.toList := by
  cases command with
  | join room => rfl
  | fetchAvatar hash => rfl
  | setMic on => exact settings_queue room
  | setDeafened deafened => exact settings_queue room
  | setSoundLevel user sound level => exact settings_queue room
  | setProfile profile => exact settings_queue room
  | other command => exact settings_queue room

/-- The settings left in the queue, which has room for all commands heard. -/
theorem settings_queued (reconnecting : Reconnecting Data) (commands : List (UiCommand Data))
    (room : reconnecting.queued.length + commands.length ≤ maxQueuedWhileReconnecting) :
    (run Reconnecting.hear reconnecting commands).queued.filterMap UiCommand.setting =
      run supersede (reconnecting.queued.filterMap UiCommand.setting)
        (commands.filterMap UiCommand.setting) := by
  induction commands generalizing reconnecting with
  | nil => rfl
  | cons command rest inductionHypothesis =>
    have longer := length_hear reconnecting command
    rw [List.length_cons] at room
    have heads : (command :: rest).filterMap UiCommand.setting =
        command.setting.toList ++ rest.filterMap UiCommand.setting := by
      cases sets : command.setting with
      | none => exact List.filterMap_cons_none sets
      | some setting => exact List.filterMap_cons_some sets
    rw [run_cons, inductionHypothesis _ (by omega), settings_hear command (by omega), heads,
      run_append]

/-! ### Settings of one switch in a row -/

/-- Settings of one switch, one after another. -/
def turns (switch : Switch) (values : List Bool) : List Setting := values.map (Setting.mk switch)

theorem supersede_turns (kept : List Setting) (switch : Switch) (values : List Bool) (last : Bool) :
    run supersede kept (turns switch (values ++ [last])) =
      (kept.filter fun older => older.switch ≠ switch) ++ [⟨switch, last⟩] := by
  induction values using List.reverseRecOn generalizing last with
  | nil => rfl
  | append_singleton values value inductionHypothesis =>
    unfold turns at inductionHypothesis ⊢
    rw [List.map_append, List.map_singleton, run_concat, inductionHypothesis]
    simp [supersede, List.filter_append]

/-- Of settings that end with some of one switch after another, the last of each are left. -/
theorem supersede_pair (earlier : List Setting) {first : Setting} {switch : Switch}
    (values : List Bool) (last : Bool) (different : first.switch ≠ switch) :
    run supersede [] (earlier ++ first :: turns switch (values ++ [last])) =
      [first, ⟨switch, last⟩] := by
  rw [run_append, run_cons, supersede_turns]
  generalize run supersede [] earlier = kept
  have either : ∀ older : Setting, older.switch = first.switch ∨ older.switch = switch := by
    intro older
    revert different
    generalize first.switch = one
    cases one <;> cases switch <;> cases older.switch <;> simp
  have empty : kept.filter (fun older =>
      decide (older.switch ≠ switch) && decide (older.switch ≠ first.switch)) = [] := by
    refine List.filter_eq_nil_iff.mpr fun older _ => ?_
    rcases either older with same | same
    · simp [same]
    · simp [same]
  unfold supersede
  rw [List.filter_append, List.filter_filter, empty, List.nil_append, List.filter_singleton,
    decide_eq_true different]
  rfl

theorem run_mics (voice : Voice) (values : List Bool) (last : Bool) :
    run Voice.set voice (turns .mic (values ++ [last])) =
      { voice with
        mic := last
        deafened := if true ∈ values ++ [last] then false else voice.deafened } := by
  induction values using List.reverseRecOn generalizing last with
  | nil => cases last <;> rfl
  | append_singleton values value inductionHypothesis =>
    unfold turns at inductionHypothesis ⊢
    rw [List.map_append, List.map_singleton, run_concat, inductionHypothesis]
    cases last with
    | true => simp [Voice.set, Voice.setMic]
    | false => simp [Voice.set, Voice.setMic]

/-- From the other side, deafening and undeafening undo each other. -/
theorem setDeafened_setDeafened (voice : Voice) (first second : Bool) :
    (((voice.setDeafened (!voice.deafened)).setDeafened first).setDeafened second) =
      (voice.setDeafened (!voice.deafened)).setDeafened second := by
  obtain ⟨mic, deafened, micBeforeDeafen⟩ := voice
  cases deafened <;> cases first <;> cases second <;> rfl

theorem setDeafened_eq (voice : Voice) (deafened : Bool) :
    voice.setDeafened deafened =
      if (!voice.deafened) = deafened then
        (voice.setDeafened (!voice.deafened)).setDeafened deafened
      else
        voice := by
  obtain ⟨mic, before, micBeforeDeafen⟩ := voice
  cases before <;> cases deafened <;> rfl

theorem run_deafens (voice : Voice) (values : List Bool) (last : Bool) :
    run Voice.set voice (turns .deafened (values ++ [last])) =
      if (!voice.deafened) ∈ values ++ [last] then
        (voice.setDeafened (!voice.deafened)).setDeafened last
      else
        voice := by
  induction values using List.reverseRecOn generalizing last with
  | nil =>
    show voice.setDeafened last = _
    rw [setDeafened_eq]
    refine if_congr ?_ rfl rfl
    rw [List.nil_append, List.mem_singleton]
  | append_singleton values value inductionHypothesis =>
    have before := inductionHypothesis value
    unfold turns at before ⊢
    rw [List.map_append, List.map_singleton, run_concat, before]
    show Voice.setDeafened _ last = _
    by_cases toggled : (!voice.deafened) ∈ values ++ [value]
    · rw [if_pos toggled, if_pos (List.mem_append_left _ toggled), setDeafened_setDeafened]
    · rw [if_neg toggled, setDeafened_eq]
      refine if_congr ?_ rfl rfl
      rw [List.mem_append, List.mem_singleton, or_iff_right toggled]

/-! ### When the queue keeps what matters -/

namespace Voice

variable (voice : Voice)

/-- Of the microphone settings alone the last one is enough: it undeafens as well, or none of
them does, or there is nothing to undeafen. -/
def KeepsMics (values : List Bool) : Prop :=
  true ∉ values ∨ values.getLast? = some true ∨ voice.deafened = false

/-- Of deafenings alone the last one is enough: it is the first to change anything, as none
changes anything or as it ends on the other side, or going there and back changes nothing. -/
def KeepsDeafens (values : List Bool) : Prop :=
  (!voice.deafened) ∉ values ∨ values.getLast? = some (!voice.deafened) ∨
    if voice.deafened then voice.mic = false else voice.micBeforeDeafen = voice.mic

/-- The last deafening and a later microphone setting are enough. `before` is the voice that the
deafening finds when everything before it is run. -/
def KeepsMicsAfter (before : Voice) (deafened : Bool) (values : List Bool) : Prop :=
  (deafened = false ∨ true ∉ values ∨ values.getLast? = some true) ∧
    if deafened then before.restored = voice.restored
    else before.micBeforeDeafen = voice.micBeforeDeafen

/-- The last microphone setting and a later deafening are enough. `before` is the voice that the
microphone setting finds when everything before it is run. -/
def KeepsDeafensAfter (before : Voice) (on : Bool) (values : List Bool) : Prop :=
  if on then
    values.getLast? = some true ∨
      if true ∈ values then voice.micBeforeDeafen = true
      else before.micBeforeDeafen = voice.micBeforeDeafen
  else
    (before.deafened && before.micBeforeDeafen) = (voice.deafened && voice.micBeforeDeafen) ∧
      (values.getLast? = some true ∨
        if before.deafened = false ∧ true ∈ values then voice.micBeforeDeafen = false
        else before.micBeforeDeafen = voice.micBeforeDeafen)

/-- The last setting of each switch is enough. -/
inductive Keeps : List Setting → Prop where
  | mics (values : List Bool) (keeps : voice.KeepsMics values) : Keeps (turns .mic values)
  | deafens (values : List Bool) (keeps : voice.KeepsDeafens values) :
      Keeps (turns .deafened values)
  | micsAfter (earlier : List Setting) (deafened : Bool) (values : List Bool)
      (keeps : voice.KeepsMicsAfter (run Voice.set voice earlier) deafened values)
      (nonempty : values ≠ []) : Keeps (earlier ++ ⟨.deafened, deafened⟩ :: turns .mic values)
  | deafensAfter (earlier : List Setting) (on : Bool) (values : List Bool)
      (keeps : voice.KeepsDeafensAfter (run Voice.set voice earlier) on values)
      (nonempty : values ≠ []) : Keeps (earlier ++ ⟨.mic, on⟩ :: turns .deafened values)

end Voice

/-- The settings left of some lead where all of them do. -/
def Sufficient (voice : Voice) (settings : List Setting) : Prop :=
  run Voice.set voice (run supersede [] settings) = run Voice.set voice settings

variable {voice : Voice}

theorem sufficient_mics (values : List Bool) (last : Bool) :
    Sufficient voice (turns .mic (values ++ [last])) ↔ voice.KeepsMics (values ++ [last]) := by
  unfold Sufficient Voice.KeepsMics
  rw [supersede_turns, run_mics, List.getLast?_concat]
  show voice.setMic last = _ ↔ _
  obtain ⟨mic, deafened, micBeforeDeafen⟩ := voice
  by_cases undeafens : true ∈ values ++ [last]
  · cases deafened <;> cases last <;> simp [undeafens, Voice.setMic]
  · cases last with
    | true => exact absurd (List.mem_append_right _ (List.mem_singleton_self true)) undeafens
    | false => simp [undeafens, Voice.setMic]

theorem sufficient_deafens (values : List Bool) (last : Bool) :
    Sufficient voice (turns .deafened (values ++ [last])) ↔
      voice.KeepsDeafens (values ++ [last]) := by
  unfold Sufficient Voice.KeepsDeafens
  rw [supersede_turns, run_deafens, List.getLast?_concat]
  show voice.setDeafened last = _ ↔ _
  have ends : last ∈ values ++ [last] := List.mem_append_right _ (List.mem_singleton_self last)
  generalize values ++ [last] = all at ends ⊢
  obtain ⟨mic, deafened, micBeforeDeafen⟩ := voice
  by_cases toggled : (!deafened) ∈ all
  · cases deafened <;> cases last <;> simp_all [Voice.setDeafened, eq_comm]
  · cases deafened <;> cases last <;> simp_all [Voice.setDeafened]

theorem sufficient_micsAfter (earlier : List Setting) (deafened : Bool) (values : List Bool)
    (last : Bool) :
    Sufficient voice (earlier ++ ⟨.deafened, deafened⟩ :: turns .mic (values ++ [last])) ↔
      voice.KeepsMicsAfter (run Voice.set voice earlier) deafened (values ++ [last]) := by
  have left : run supersede [] (earlier ++ ⟨.deafened, deafened⟩ :: turns .mic (values ++ [last])) =
      [⟨.deafened, deafened⟩, ⟨.mic, last⟩] :=
    supersede_pair earlier values last (fun same => by cases same)
  unfold Sufficient Voice.KeepsMicsAfter
  rw [left, run_append, run_cons, run_cons, run_nil, run_cons, run_mics, List.getLast?_concat]
  generalize run Voice.set voice earlier = before
  show (voice.setDeafened deafened).setMic last = _ ↔ _
  have ends : last ∈ values ++ [last] := List.mem_append_right _ (List.mem_singleton_self last)
  generalize values ++ [last] = all at ends ⊢
  obtain ⟨mic, deaf, micBeforeDeafen⟩ := voice
  obtain ⟨mic', deaf', micBeforeDeafen'⟩ := before
  by_cases undeafens : true ∈ all
  · cases deafened <;> cases deaf <;> cases deaf' <;> cases last <;>
      simp [undeafens, Voice.set, Voice.setDeafened, Voice.setMic, Voice.restored, eq_comm]
  · cases deafened <;> cases deaf <;> cases deaf' <;> cases last <;>
      simp_all [Voice.set, Voice.setDeafened, Voice.setMic, Voice.restored, eq_comm]

theorem sufficient_deafensAfter (earlier : List Setting) (on : Bool) (values : List Bool)
    (last : Bool) :
    Sufficient voice (earlier ++ ⟨.mic, on⟩ :: turns .deafened (values ++ [last])) ↔
      voice.KeepsDeafensAfter (run Voice.set voice earlier) on (values ++ [last]) := by
  have left : run supersede [] (earlier ++ ⟨.mic, on⟩ :: turns .deafened (values ++ [last])) =
      [⟨.mic, on⟩, ⟨.deafened, last⟩] :=
    supersede_pair earlier values last (fun same => by cases same)
  unfold Sufficient Voice.KeepsDeafensAfter
  rw [left, run_append, run_cons, run_cons, run_nil, run_cons, run_deafens, List.getLast?_concat]
  generalize run Voice.set voice earlier = before
  show (voice.setMic on).setDeafened last = _ ↔ _
  have ends : last ∈ values ++ [last] := List.mem_append_right _ (List.mem_singleton_self last)
  generalize values ++ [last] = all at ends ⊢
  obtain ⟨mic, deaf, micBeforeDeafen⟩ := voice
  obtain ⟨mic', deaf', micBeforeDeafen'⟩ := before
  by_cases deafens : true ∈ all
  · by_cases undeafens : false ∈ all
    · cases on <;> cases deaf <;> cases deaf' <;> cases last <;>
        simp [deafens, undeafens, Voice.set, Voice.setDeafened, Voice.setMic, eq_comm]
    · cases on <;> cases deaf <;> cases deaf' <;> cases last <;>
        simp_all [Voice.set, Voice.setDeafened, Voice.setMic, eq_comm]
  · cases on <;> cases deaf <;> cases deaf' <;> cases last <;>
      simp_all [Voice.set, Voice.setDeafened, Voice.setMic, eq_comm]

/-- What a list of settings ends with. -/
inductive EndsInTurns : List Setting → Prop where
  | alone (switch : Switch) (values : List Bool) : EndsInTurns (turns switch values)
  | after (earlier : List Setting) (first : Setting) (switch : Switch) (values : List Bool)
      (last : Bool) (different : first.switch ≠ switch) :
      EndsInTurns (earlier ++ first :: turns switch (values ++ [last]))

theorem ends_all (settings : List Setting) : EndsInTurns settings := by
  induction settings using List.reverseRecOn with
  | nil => exact .alone .mic []
  | append_singleton settings setting inductionHypothesis =>
    cases inductionHypothesis with
    | alone switch values =>
      by_cases same : setting.switch = switch
      · have longer : turns switch values ++ [setting] = turns switch (values ++ [setting.on]) := by
          rw [← same]
          simp [turns]
        rw [longer]
        exact .alone _ _
      · rcases List.eq_nil_or_concat values with rfl | ⟨rest, last, rfl⟩
        · exact .alone setting.switch [setting.on]
        · have split : turns switch (rest.concat last) ++ [setting] =
              turns switch rest ++ ⟨switch, last⟩ :: turns setting.switch ([] ++ [setting.on]) := by
            simp [turns]
          rw [split]
          exact .after _ _ _ _ _ fun equal => same equal.symm
    | after earlier first switch values last different =>
      by_cases same : setting.switch = switch
      · have longer : earlier ++ first :: turns switch (values ++ [last]) ++ [setting] =
            earlier ++ first :: turns switch (values ++ [last] ++ [setting.on]) := by
          rw [← same]
          simp [turns]
        rw [longer]
        exact .after _ _ _ _ _ different
      · have split : earlier ++ first :: turns switch (values ++ [last]) ++ [setting] =
            (earlier ++ first :: turns switch values) ++
              ⟨switch, last⟩ :: turns setting.switch ([] ++ [setting.on]) := by
          simp [turns]
        rw [split]
        exact .after _ _ _ _ _ fun equal => same equal.symm

theorem sufficient_iff (voice : Voice) (settings : List Setting) :
    Sufficient voice settings ↔ voice.Keeps settings := by
  constructor
  · intro sufficient
    cases ends_all settings with
    | alone switch values =>
      rcases List.eq_nil_or_concat values with rfl | ⟨rest, last, rfl⟩
      · exact .mics [] (Or.inl List.not_mem_nil)
      · rw [List.concat_eq_append] at sufficient ⊢
        cases switch with
        | mic => exact .mics _ ((sufficient_mics rest last).mp sufficient)
        | deafened => exact .deafens _ ((sufficient_deafens rest last).mp sufficient)
    | after earlier first switch values last different =>
      obtain ⟨other, on⟩ := first
      cases other with
      | mic =>
        cases switch with
        | mic => exact absurd rfl different
        | deafened =>
          exact .deafensAfter earlier on _
            ((sufficient_deafensAfter earlier on values last).mp sufficient) (by simp)
      | deafened =>
        cases switch with
        | mic =>
          exact .micsAfter earlier on _
            ((sufficient_micsAfter earlier on values last).mp sufficient) (by simp)
        | deafened => exact absurd rfl different
  · intro keeps
    cases keeps with
    | mics values keeps =>
      rcases List.eq_nil_or_concat values with rfl | ⟨rest, last, rfl⟩
      · rfl
      · rw [List.concat_eq_append] at keeps ⊢
        exact (sufficient_mics rest last).mpr keeps
    | deafens values keeps =>
      rcases List.eq_nil_or_concat values with rfl | ⟨rest, last, rfl⟩
      · rfl
      · rw [List.concat_eq_append] at keeps ⊢
        exact (sufficient_deafens rest last).mpr keeps
    | micsAfter earlier deafened values keeps nonempty =>
      rcases List.eq_nil_or_concat values with rfl | ⟨rest, last, rfl⟩
      · exact absurd rfl nonempty
      · rw [List.concat_eq_append] at keeps ⊢
        exact (sufficient_micsAfter earlier deafened rest last).mpr keeps
    | deafensAfter earlier on values keeps nonempty =>
      rcases List.eq_nil_or_concat values with rfl | ⟨rest, last, rfl⟩
      · exact absurd rfl nonempty
      · rw [List.concat_eq_append] at keeps ⊢
        exact (sufficient_deafensAfter earlier on rest last).mpr keeps

/-! ### Running the queue -/

/-- For all commands a session hears while it reconnects, no more than the queue holds: running
what the queue is left with leads to the same voice settings as running every command, exactly
if the last setting of each switch is enough. -/
theorem run_queued_iff (voice : Voice) (commands : List (UiCommand Data))
    (few : commands.length ≤ maxQueuedWhileReconnecting) :
    run Voice.command voice (run Reconnecting.hear {} commands).queued =
        run Voice.command voice commands ↔
      voice.Keeps (commands.filterMap UiCommand.setting) := by
  have left := settings_queued {} commands (by
    rw [List.length_nil, Nat.zero_add]
    exact few)
  rw [← sufficient_iff, run_command, run_command, left]
  rfl

/-- Muting twice while deafened, and undeafening in the end. -/
def muteTwice : List (UiCommand Unit) :=
  [.setMic false, .setProfile (), .setMic false, .setDeafened false]

theorem run_queued_iff_muteTwice :
    run Voice.command ⟨false, true, true⟩ (run Reconnecting.hear {} muteTwice).queued =
      run Voice.command ⟨false, true, true⟩ muteTwice :=
  (run_queued_iff ⟨false, true, true⟩ muteTwice (by decide)).mpr
    (.deafensAfter [⟨.mic, false⟩] false [false] (by unfold Voice.KeepsDeafensAfter; decide)
      (by decide))

/-- Undeafening, muting, deafening and undeafening: the queue keeps the muting and the last
undeafening, which turns the microphone on. -/
theorem mutedMic_comesBack :
    let commands : List (UiCommand Unit) :=
      [.setDeafened false, .setMic false, .setDeafened true, .setDeafened false]
    run Voice.command ⟨false, true, true⟩ commands = ⟨false, false, false⟩ ∧
      run Voice.command ⟨false, true, true⟩ (run Reconnecting.hear {} commands).queued =
        ⟨true, false, true⟩ := by
  decide

end Throcc
