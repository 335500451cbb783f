/-
This file embeds how a watched share is shown: its units are decoded, and the
pictures are held back until the share's audio that reaches the speakers has
caught up with them.

What the decoder makes of a unit is given. Pictures leave only in the order they
were decoded, the newest of those that are due is shown, and the newest picture
of all is never the one that goes.
-/

import Throcc.FrameLimiter
import Throcc.Jitter
import Throcc.Shrinking
import Mathlib.Data.List.TakeWhile

namespace Throcc

/-- `AUDIO_CLOCK_HZ`. -/
def audioClockHz : Nat := 48000

/-- Video further ahead of the share audio than this is shown anyway. -/
def maxHold : Nat := videoClockHz / 2

/-- An audio timestamp on the video clock with the same zero. -/
def audioToVideo (timestamp : Timestamp) : Timestamp :=
  Fin.ofNat (2 ^ 32) (timestamp.val * videoClockHz / audioClockHz)

/-- Whether a frame is at or behind what is heard, or too far ahead of it to wait. -/
def reached (heard frame : Timestamp) : Bool :=
  !timestampBefore heard frame || maxHold < (frame - heard).val

/-- How many of the held frames, oldest first, are due: those at or behind the audio being
heard. Without share audio playing, every frame is due. -/
def dueFrames (held : List Timestamp) (heard : Option Timestamp) : Nat :=
  match heard.map audioToVideo with
  | none => held.length
  | some heard => (held.takeWhile (reached heard)).length

/-- Decoded frames held back for the share audio, at most. -/
def maxHeld : Nat := 32
/-- Bytes of decoded frames held back for the share audio, at most. -/
def maxHeldBytes : Nat := 256 * 2 ^ 20

def frameBytes (frame : VideoFrame) : Nat := frame.y.length + frame.uv.length

def heldBytes (held : List VideoFrame) : Nat := (held.map frameBytes).sum

/-- Drops the oldest held frames until one of `incoming` bytes fits both bounds. -/
def makeRoom (incoming : Nat) : List VideoFrame → List VideoFrame
  | [] => []
  | oldest :: rest =>
    if maxHeld ≤ (oldest :: rest).length ∨ maxHeldBytes < heldBytes (oldest :: rest) + incoming
    then makeRoom incoming rest
    else oldest :: rest

/-- What the decoder makes of a unit. -/
inductive Decoded where
  | frame (frame : VideoFrame)
  | nothing
  | tooLarge
  | failed
deriving DecidableEq

/-- The decoding thread of a share, with what it has decoded, shown and asked for. -/
structure Viewer where
  /-- Oldest first. -/
  held : List VideoFrame := []
  asked : Bool := false
  decoded : List VideoFrame := []
  shown : List VideoFrame := []
  /-- How often it asked for a keyframe. -/
  asks : Nat := 0

namespace Viewer

/-- One turn of the loop: the unit that had arrived, and the audio being heard. -/
structure Turn where
  unit : Option Decoded
  heard : Option Timestamp

/-- The unit that is decoded. -/
def decode (viewer : Viewer) : Decoded → Viewer
  | .frame frame =>
    { viewer with
      asked := false
      held := makeRoom (frameBytes frame) viewer.held ++ [frame]
      decoded := viewer.decoded ++ [frame] }
  | .nothing => { viewer with asked := false }
  | .tooLarge => viewer
  | .failed =>
    if viewer.asked then viewer
    else { viewer with asked := true, asks := viewer.asks + 1 }

/-- Shows the newest frame that is due and drops the older ones. -/
def present (viewer : Viewer) (heard : Option Timestamp) : Viewer :=
  let due := dueFrames (viewer.held.map (·.timestamp.toFin)) heard
  { viewer with
    held := viewer.held.drop due
    shown := viewer.shown ++ (viewer.held.take due).getLast?.toList }

/-- With nothing held the thread waits for a unit. -/
def step (viewer : Viewer) (turn : Turn) : Viewer :=
  match turn.unit with
  | some unit => (viewer.decode unit).present turn.heard
  | none => if viewer.held = [] then viewer else viewer.present turn.heard

/-! ### The frames that are due -/

/-- A frame is due unless it lies ahead of what is heard, by no more than `maxHold`. -/
def Due (heard : Option Timestamp) (frame : Timestamp) : Prop :=
  ∀ audio ∈ heard, ¬(0 < (frame - audioToVideo audio).val ∧
    (frame - audioToVideo audio).val ≤ maxHold)

theorem due_some {audio frame : Timestamp} :
    Due (some audio) frame ↔ reached (audioToVideo audio) frame = true := by
  have due : Due (some audio) frame ↔ ¬(0 < (frame - audioToVideo audio).val ∧
      (frame - audioToVideo audio).val ≤ maxHold) := by
    refine ⟨fun due => due audio rfl, ?_⟩
    rintro due _ ⟨⟩
    exact due
  rw [due]
  generalize audioToVideo audio = heard
  unfold reached timestampBefore
  rw [Bool.or_eq_true, Bool.not_eq_true', decide_eq_true_iff, decide_eq_false_iff_not]
  have few : maxHold < 2 ^ 31 := by decide
  by_cases same : heard = frame
  · subst same
    simp
  · have ahead : 0 < (frame - heard).val := by
      refine Nat.pos_of_ne_zero fun none => same ?_
      exact (sub_eq_zero.mp (Fin.ext none)).symm
    constructor
    · intro due
      by_cases far : maxHold < (frame - heard).val
      · exact .inr far
      · exact absurd ⟨ahead, Nat.le_of_not_lt far⟩ due
    · rintro (behind | far) ⟨-, most⟩
      · exact behind ⟨same, Nat.lt_of_le_of_lt most few⟩
      · exact absurd far (Nat.not_lt_of_le most)

/-- The frames up to the first that isn't due. -/
theorem dueFrames_split (held : List Timestamp) (heard : Option Timestamp) :
    dueFrames held heard ≤ held.length ∧
      (∀ frame ∈ held.take (dueFrames held heard), Due heard frame) ∧
      ∀ frame ∈ (held.drop (dueFrames held heard)).head?, ¬ Due heard frame := by
  cases heard with
  | none =>
    refine ⟨Nat.le_refl _, fun _ _ => ?_, fun frame found => ?_⟩
    · rintro _ ⟨⟩
    · rw [show held.drop (dueFrames held none) = [] from List.drop_length] at found
      cases found
  | some audio =>
    let test := reached (audioToVideo audio)
    show (held.takeWhile test).length ≤ _ ∧
      (∀ frame ∈ held.take (held.takeWhile test).length, _) ∧
      ∀ frame ∈ (held.drop (held.takeWhile test).length).head?, _
    have reaches : held.takeWhile test <+: held := List.takeWhile_prefix test
    have dropped : held.drop (held.takeWhile test).length = held.dropWhile test :=
      List.append_cancel_left
        ((List.prefix_iff_eq_append.mp reaches).trans List.takeWhile_append_dropWhile.symm)
    rw [← List.prefix_iff_eq_take.mp reaches, dropped]
    refine ⟨reaches.length_le, fun frame member => ?_, fun frame found due => ?_⟩
    · exact due_some.mpr (List.mem_takeWhile_imp member)
    · have stops := List.head?_dropWhile_not test held
      rw [Option.mem_def.mp found] at stops
      exact Bool.false_ne_true (stops.symm.trans (due_some.mp due))

/-! ### What is held -/

theorem heldBytes_append (first second : List VideoFrame) :
    heldBytes (first ++ second) = heldBytes first + heldBytes second := by
  unfold heldBytes
  rw [List.map_append, List.sum_append]

theorem makeRoom_suffix (incoming : Nat) (held : List VideoFrame) :
    makeRoom incoming held <:+ held := by
  induction held with
  | nil => exact List.suffix_rfl
  | cons oldest rest inductionHypothesis =>
    unfold makeRoom
    split
    · exact inductionHypothesis.trans (List.suffix_cons oldest rest)
    · exact List.suffix_rfl

theorem makeRoom_fits (incoming : Nat) (held : List VideoFrame) :
    (makeRoom incoming held).length < maxHeld ∧
      (makeRoom incoming held = [] ∨
        heldBytes (makeRoom incoming held) + incoming ≤ maxHeldBytes) := by
  induction held with
  | nil => exact ⟨Nat.succ_pos 31, .inl rfl⟩
  | cons oldest rest inductionHypothesis =>
    unfold makeRoom
    split
    · exact inductionHypothesis
    · rename_i fits
      rw [not_or, Nat.not_le, Nat.not_lt] at fits
      exact ⟨fits.1, .inr fits.2⟩

/-- The bounds on what is held, the order of what is shown, and that the newest frame stays. -/
structure Sound (viewer : Viewer) : Prop where
  recent : viewer.held <:+ viewer.decoded
  order : (viewer.shown ++ viewer.held).Sublist viewer.decoded
  newest : (viewer.shown ++ viewer.held).getLast? = viewer.decoded.getLast?
  few : viewer.held.length ≤ maxHeld
  small : viewer.held.length ≤ 1 ∨ heldBytes viewer.held ≤ maxHeldBytes

variable {viewer : Viewer}

theorem Sound.decode (sound : Sound viewer) (unit : Decoded) : Sound (viewer.decode unit) := by
  cases unit with
  | frame frame =>
    have kept := makeRoom_suffix (frameBytes frame) viewer.held
    obtain ⟨few, small⟩ := makeRoom_fits (frameBytes frame) viewer.held
    refine ⟨?_, ?_, ?_, ?_, ?_⟩
    · exact List.suffix_concat_iff.mpr (.inr ⟨_, rfl, kept.trans sound.recent⟩)
    · show (viewer.shown ++ (makeRoom (frameBytes frame) viewer.held ++ [frame])).Sublist
        (viewer.decoded ++ [frame])
      rw [← List.append_assoc]
      refine List.Sublist.append_right ?_ [frame]
      exact (List.Sublist.append_left kept.sublist viewer.shown).trans sound.order
    · show (viewer.shown ++ (makeRoom (frameBytes frame) viewer.held ++ [frame])).getLast? =
        (viewer.decoded ++ [frame]).getLast?
      rw [← List.append_assoc, List.getLast?_concat, List.getLast?_concat]
    · show (makeRoom (frameBytes frame) viewer.held ++ [frame]).length ≤ maxHeld
      rw [List.length_append]
      exact few
    · show (makeRoom (frameBytes frame) viewer.held ++ [frame]).length ≤ 1 ∨
        heldBytes (makeRoom (frameBytes frame) viewer.held ++ [frame]) ≤ maxHeldBytes
      obtain none | small := small
      · rw [none]
        exact .inl (Nat.le_refl 1)
      · right
        rw [heldBytes_append]
        exact small
  | failed =>
    unfold Viewer.decode
    dsimp only
    split
    · exact sound
    · exact ⟨sound.recent, sound.order, sound.newest, sound.few, sound.small⟩
  | _ => exact ⟨sound.recent, sound.order, sound.newest, sound.few, sound.small⟩

theorem Sound.present (sound : Sound viewer) (heard : Option Timestamp) :
    Sound (viewer.present heard) := by
  unfold Viewer.present
  generalize dueFrames _ heard = due
  have split : viewer.held.take due ++ viewer.held.drop due = viewer.held :=
    List.take_append_drop due viewer.held
  have fewer := List.drop_suffix due viewer.held
  have last : (viewer.held.take due).getLast?.toList.Sublist (viewer.held.take due) := by
    cases found : (viewer.held.take due).getLast? with
    | none => exact List.nil_sublist _
    | some newest => exact List.singleton_sublist.mpr (List.mem_of_getLast? found)
  refine ⟨fewer.trans sound.recent, ?_, ?_, fewer.length_le.trans sound.few, ?_⟩
  · show (viewer.shown ++ (viewer.held.take due).getLast?.toList ++ viewer.held.drop due).Sublist _
    rw [List.append_assoc]
    refine List.Sublist.trans ?_ sound.order
    conv_rhs => rw [← split]
    exact List.Sublist.append_left (List.Sublist.append_right last _) _
  · show (viewer.shown ++ (viewer.held.take due).getLast?.toList ++
      viewer.held.drop due).getLast? = _
    have same : (viewer.held.take due).getLast?.toList.getLast? =
        (viewer.held.take due).getLast? := by
      cases (viewer.held.take due).getLast? with
      | none => rfl
      | some newest => rfl
    rw [← sound.newest]
    conv_rhs => rw [← split]
    rw [List.getLast?_append, List.getLast?_append, same, List.getLast?_append,
      List.getLast?_append, Option.or_assoc]
  · obtain one | small := sound.small
    · exact .inl (fewer.length_le.trans one)
    · rw [← split, heldBytes_append] at small
      exact .inr (Nat.le_trans (Nat.le_add_left _ _) small)

theorem Sound.step (sound : Sound viewer) (turn : Turn) : Sound (viewer.step turn) := by
  unfold Viewer.step
  cases turn.unit with
  | some unit => exact (sound.decode unit).present turn.heard
  | none =>
    dsimp only
    split
    · exact sound
    · exact sound.present turn.heard

theorem sound_run (turns : List Turn) : Sound (run step {} turns) := by
  refine run_invariant step Sound ?_ (fun _ turn sound => sound.step turn) turns
  exact ⟨List.suffix_rfl, List.Sublist.refl _, rfl, Nat.zero_le _, .inl (Nat.zero_le 1)⟩

/-! ### What is shown -/

/-- What one turn shows is due, and what it goes on holding is not. -/
structure Presents (viewer next : Viewer) (heard : Option Timestamp) : Prop where
  shows : next.shown = viewer.shown ∨
    ∃ frame, next.shown = viewer.shown ++ [frame] ∧ Due heard frame.timestamp.toFin
  holds : ∀ frame ∈ next.held.head?, ¬ Due heard frame.timestamp.toFin

theorem presents (viewer : Viewer) (heard : Option Timestamp) :
    Presents viewer (viewer.present heard) heard := by
  obtain ⟨-, due, waits⟩ := dueFrames_split (viewer.held.map (·.timestamp.toFin)) heard
  unfold Viewer.present
  dsimp only
  generalize dueFrames _ heard = count at due waits ⊢
  rw [← List.map_take] at due
  rw [← List.map_drop, List.head?_map] at waits
  constructor
  · cases last : (viewer.held.take count).getLast? with
    | none => exact .inl (List.append_nil _)
    | some frame =>
      exact .inr ⟨frame, rfl, due _ (List.mem_map_of_mem (List.mem_of_getLast? last))⟩
  · intro frame found
    exact waits _ (Option.mem_map_of_mem _ found)

theorem shown_decode (viewer : Viewer) (unit : Decoded) :
    (viewer.decode unit).shown = viewer.shown := by
  cases unit with
  | failed =>
    unfold Viewer.decode
    dsimp only
    split
    · rfl
    · rfl
  | _ => rfl

/-- A turn that doesn't wait for a unit. -/
def Goes (viewer : Viewer) (turn : Turn) : Prop := turn.unit ≠ none ∨ viewer.held ≠ []

theorem Goes.presents {turn : Turn} (goes : viewer.Goes turn) :
    Presents viewer (viewer.step turn) turn.heard := by
  unfold Viewer.step
  cases given : turn.unit with
  | some unit =>
    obtain ⟨shows, holds⟩ := Viewer.presents (viewer.decode unit) turn.heard
    rw [shown_decode] at shows
    exact ⟨shows, holds⟩
  | none =>
    dsimp only
    have holding : viewer.held ≠ [] := goes.resolve_left fun given' => given' given
    rw [if_neg holding]
    exact Viewer.presents viewer turn.heard

/-! ### What is asked for -/

/-- What became of the units, but for those that were too large. -/
def results (turns : List Turn) : List Decoded :=
  (turns.filterMap Turn.unit).filter (· ≠ .tooLarge)

/-- Every result with the one before it. -/
def pairs (results : List Decoded) : List (Decoded × Option Decoded) :=
  results.zip (none :: results.map some)

/-- How many rows of failures there are. -/
def failures (results : List Decoded) : Nat :=
  (pairs results).countP fun (result, before) => result = .failed ∧ before ≠ some .failed

theorem pairs_concat (results : List Decoded) (result : Decoded) :
    pairs (results ++ [result]) = pairs results ++ [(result, results.getLast?)] := by
  have general (first : Option Decoded) :
      (results ++ [result]).zip (first :: (results ++ [result]).map some) =
        results.zip (first :: results.map some) ++
          [(result, results.getLast?.elim first some)] := by
    induction results generalizing first with
    | nil => rfl
    | cons head rest inductionHypothesis =>
      have last : (head :: rest).getLast?.elim first some =
          rest.getLast?.elim (some head) some := by
        rw [List.getLast?_cons]
        cases rest.getLast? with
        | none => rfl
        | some _ => rfl
      rw [last]
      exact congrArg ((head, first) :: ·) (inductionHypothesis (some head))
  refine (general none).trans ?_
  cases results.getLast? with
  | none => rfl
  | some _ => rfl

theorem failures_concat (results : List Decoded) (result : Decoded) :
    failures (results ++ [result]) = failures results +
      if result = .failed ∧ results.getLast? ≠ some .failed then 1 else 0 := by
  unfold failures
  rw [pairs_concat, List.countP_append, List.countP_singleton]
  simp only [decide_eq_true_iff]

theorem results_concat (turns : List Turn) (turn : Turn) :
    results (turns ++ [turn]) =
      results turns ++ turn.unit.toList.filter (· ≠ .tooLarge) := by
  unfold results
  rw [List.filterMap_append, List.filter_append]
  cases given : turn.unit with
  | none => rw [List.filterMap_cons_none given, List.filterMap_nil, Option.toList_none]
  | some unit => rw [List.filterMap_cons_some given, List.filterMap_nil, Option.toList_some]

/-- A keyframe is asked for once in every row of failures. -/
structure Asks (viewer : Viewer) (results : List Decoded) : Prop where
  asked : viewer.asked = true ↔ results.getLast? = some .failed
  count : viewer.asks = failures results

theorem Asks.decode {results : List Decoded} (asks : Asks viewer results) (unit : Decoded) :
    Asks (viewer.decode unit) (results ++ [unit].filter (· ≠ .tooLarge)) := by
  have decodes (unit : Decoded) (well : unit ≠ .failed) {next : Viewer}
      (asked : next.asked = false) (same : next.asks = viewer.asks) :
      Asks next (results ++ [unit]) := by
    constructor
    · rw [asked, List.getLast?_concat, Option.some.injEq]
      exact ⟨fun yes => absurd yes Bool.false_ne_true, fun failed => absurd failed well⟩
    · rw [failures_concat, if_neg fun failed => well failed.1]
      exact same.trans asks.count
  cases unit with
  | frame frame => exact decodes (.frame frame) Decoded.noConfusion rfl rfl
  | nothing => exact decodes .nothing Decoded.noConfusion rfl rfl
  | tooLarge =>
    rw [show [Decoded.tooLarge].filter (· ≠ .tooLarge) = [] by decide, List.append_nil]
    exact asks
  | failed =>
    rw [show [Decoded.failed].filter (· ≠ .tooLarge) = [.failed] by decide]
    unfold Viewer.decode
    dsimp only
    split
    · rename_i asked
      refine ⟨?_, ?_⟩
      · rw [asked, List.getLast?_concat]
        exact ⟨fun _ => rfl, fun _ => rfl⟩
      · rw [failures_concat, if_neg fun first => first.2 (asks.asked.mp asked)]
        exact asks.count
    · rename_i not
      refine ⟨?_, ?_⟩
      · rw [List.getLast?_concat]
        exact ⟨fun _ => rfl, fun _ => rfl⟩
      · rw [failures_concat, if_pos ⟨rfl, fun last => not (asks.asked.mpr last)⟩]
        exact congrArg (· + 1) asks.count

theorem asks_run (turns : List Turn) : Asks (run step {} turns) (results turns) := by
  induction turns using List.reverseRecOn with
  | nil => exact ⟨⟨fun yes => absurd yes Bool.false_ne_true, fun last => by cases last⟩, rfl⟩
  | append_singleton turns turn inductionHypothesis =>
    rw [run_concat, results_concat]
    generalize run step {} turns = viewer at inductionHypothesis
    unfold step
    cases turn.unit with
    | some unit =>
      have after := inductionHypothesis.decode unit
      exact ⟨after.asked, after.count⟩
    | none =>
      rw [Option.toList_none, List.filter_nil, List.append_nil]
      dsimp only
      split
      · exact inductionHypothesis
      · exact ⟨inductionHypothesis.asked, inductionHypothesis.count⟩

/-! ### Watching a share -/

/-- What one who watches relies on, after these turns. -/
structure Watches (turns : List Turn) (viewer : Viewer) : Prop where
  /-- Pictures are shown in the order they were decoded in, each once, and those held come
  after them. -/
  order : (viewer.shown ++ viewer.held).Sublist viewer.decoded
  /-- The newest picture is shown or held, however many are dropped. -/
  newest : (viewer.shown ++ viewer.held).getLast? = viewer.decoded.getLast?
  few : viewer.held.length ≤ maxHeld
  small : viewer.held.length ≤ 1 ∨ heldBytes viewer.held ≤ maxHeldBytes
  /-- The next turn shows a picture that is due or none, and leaves none that is due first. -/
  presents : ∀ turn, viewer.Goes turn → Presents viewer (viewer.step turn) turn.heard
  asks : viewer.asks = failures (results turns)

/-- Whatever becomes of the units, and whatever is heard. -/
theorem run_viewing (turns : List Turn) : Watches turns (run step {} turns) := by
  have sound := sound_run turns
  exact {
    order := sound.order
    newest := sound.newest
    few := sound.few
    small := sound.small
    presents := fun _ goes => goes.presents
    asks := (asks_run turns).count }

end Viewer

end Throcc
