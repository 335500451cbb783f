/-
This file embeds the framing of the control stream and shows that a receiver
gets the messages back however the stream is cut.

A frame is a length of four bytes and a body. A buffer is drained by splitting
frames off its front as long as one is complete; draining more bytes goes on
from what was left, so feeding a stream in pieces comes to draining it whole.
The serializer is a parameter: all that is asked of it is that it reads back
what it wrote, to the last byte.
-/

import Throcc.Frame

namespace Throcc

def maxFrameBytes : Nat := 2 ^ 20
def lenBytes : Nat := 4

/-- The serializer, for one type of messages. -/
structure Postcard where
  Message : Type
  Error : Type
  serialize : Message → Except Error (List UInt8)
  takeFromBytes : List UInt8 → Except Error (Message × List UInt8)

/-- What is written is read back, using all of its bytes. -/
def Postcard.ReadsBack (postcard : Postcard) : Prop :=
  ∀ message body, postcard.serialize message = .ok body →
    postcard.takeFromBytes body = .ok (message, [])

inductive FrameError (Error : Type) where
  | tooLarge (bytes : Nat)
  | malformed (error : Error)
  | trailing (bytes : Nat)
deriving DecidableEq

namespace Postcard

variable (postcard : Postcard)

/-! ### Frames -/

/-- A big-endian `u32` length followed by the body. -/
def encode (message : postcard.Message) : Except (FrameError postcard.Error) (List UInt8) := do
  let body ← (postcard.serialize message).mapError .malformed
  if maxFrameBytes < body.length then .error (.tooLarge body.length)
  else .ok (bytesBe lenBytes body.length ++ body)

/-- Reads a frame header. -/
def bodyLen (header : List UInt8) : Except (FrameError postcard.Error) Nat :=
  if maxFrameBytes < ofBytesBe header then .error (.tooLarge (ofBytesBe header))
  else .ok (ofBytesBe header)

def decode (body : List UInt8) : Except (FrameError postcard.Error) postcard.Message := do
  let (message, rest) ← (postcard.takeFromBytes body).mapError .malformed
  if rest ≠ [] then .error (.trailing rest.length) else .ok message

/-- Splits one complete frame off the front of `buf`, returning its body and the remainder,
or nothing while the frame is incomplete. -/
def split (buf : List UInt8) :
    Except (FrameError postcard.Error) (Option (List UInt8 × List UInt8)) :=
  if buf.length < lenBytes then .ok none
  else do
    let rest := buf.drop lenBytes
    let len ← postcard.bodyLen (buf.take lenBytes)
    .ok (if len ≤ rest.length then some (rest.splitAt len) else none)

variable {postcard}

theorem split_short {buf : List UInt8} (short : buf.length < lenBytes) :
    postcard.split buf = .ok none := if_pos short

theorem split_append {header rest : List UInt8} (length : header.length = lenBytes) :
    postcard.split (header ++ rest) = postcard.bodyLen header >>= fun len =>
      .ok (if len ≤ rest.length then some (rest.take len, rest.drop len) else none) := by
  have enough : ¬ (header ++ rest).length < lenBytes := by
    rw [List.length_append]
    omega
  rw [split, if_neg enough, List.take_left' length, List.drop_left' length]
  simp only [List.splitAt_eq]

/-- A header and at least the body it announces are split off. -/
theorem split_complete {header body rest : List UInt8} (length : header.length = lenBytes)
    (announced : postcard.bodyLen header = .ok body.length) :
    postcard.split (header ++ (body ++ rest)) = .ok (some (body, rest)) := by
  have enough : body.length ≤ (body ++ rest).length := by
    rw [List.length_append]
    omega
  rw [split_append length, announced]
  show Except.ok (ite _ _ _) = _
  rw [if_pos enough, List.take_left, List.drop_left]

/-- A header that announces too much is an error whatever follows it. -/
theorem split_tooLarge {header : List UInt8} {error : FrameError postcard.Error}
    (length : header.length = lenBytes) (tooLarge : postcard.bodyLen header = .error error)
    (rest : List UInt8) : postcard.split (header ++ rest) = .error error := by
  rw [split_append length, tooLarge]
  rfl

theorem cut_header {buf : List UInt8} (enough : ¬ buf.length < lenBytes) :
    ∃ header rest, header.length = lenBytes ∧ buf = header ++ rest :=
  ⟨buf.take lenBytes, buf.drop lenBytes, List.length_take_of_le (Nat.le_of_not_lt enough),
    (List.take_append_drop lenBytes buf).symm⟩

theorem of_split_some {buf body rest : List UInt8}
    (found : postcard.split buf = .ok (some (body, rest))) :
    ∃ header, header.length = lenBytes ∧
      postcard.bodyLen header = .ok body.length ∧ buf = header ++ (body ++ rest) := by
  by_cases short : buf.length < lenBytes
  · rw [split_short short] at found
    cases found
  obtain ⟨header, following, length, rfl⟩ := cut_header short
  rw [split_append length] at found
  cases announced : postcard.bodyLen header with
  | error error =>
    rw [announced] at found
    cases found
  | ok len =>
    rw [announced] at found
    replace found := Except.ok.inj found
    split at found
    · cases found
      refine ⟨header, length, ?_, by rw [List.take_append_drop]⟩
      rw [announced, List.length_take_of_le ‹_›]
    · cases found

theorem of_split_error {buf : List UInt8} {error : FrameError postcard.Error}
    (found : postcard.split buf = .error error) :
    ∃ header rest, header.length = lenBytes ∧ postcard.bodyLen header = .error error ∧
      buf = header ++ rest := by
  by_cases short : buf.length < lenBytes
  · rw [split_short short] at found
    cases found
  obtain ⟨header, rest, length, rfl⟩ := cut_header short
  rw [split_append length] at found
  cases announced : postcard.bodyLen header with
  | error error =>
    rw [announced] at found
    cases found
    exact ⟨header, rest, length, announced, rfl⟩
  | ok len =>
    rw [announced] at found
    cases found

theorem split_shrinks {buf body rest : List UInt8}
    (found : postcard.split buf = .ok (some (body, rest))) :
    rest.length < buf.length := by
  obtain ⟨header, length, _, rfl⟩ := of_split_some found
  rw [List.length_append, List.length_append, length]
  unfold lenBytes
  omega

/-! ### Draining a buffer -/

variable (postcard) in
/-- Splits and decodes as long as a frame is complete: the messages, and what is left over. -/
def drain (buf : List UInt8) :
    Except (FrameError postcard.Error) (List postcard.Message × List UInt8) :=
  match _ : postcard.split buf with
  | .error error => .error error
  | .ok none => .ok ([], buf)
  | .ok (some (body, rest)) => do
    let message ← postcard.decode body
    let (messages, left) ← drain rest
    .ok (message :: messages, left)
termination_by buf.length
decreasing_by exact split_shrinks ‹_›

variable (postcard) in
/-- Feeds pieces one after the other to a buffer that is drained after each. -/
def feed (buf : List UInt8) :
    List (List UInt8) → Except (FrameError postcard.Error) (List postcard.Message × List UInt8)
  | [] => .ok ([], buf)
  | piece :: pieces => do
    let (messages, left) ← postcard.drain (buf ++ piece)
    let (later, left) ← feed left pieces
    .ok (messages ++ later, left)

theorem drain_error {buf : List UInt8} {error : FrameError postcard.Error}
    (found : postcard.split buf = .error error) : postcard.drain buf = .error error := by
  rw [drain]
  split <;> simp_all

theorem drain_none {buf : List UInt8} (found : postcard.split buf = .ok none) :
    postcard.drain buf = .ok ([], buf) := by
  rw [drain]
  split <;> simp_all

theorem drain_some {buf body rest : List UInt8}
    (found : postcard.split buf = .ok (some (body, rest))) :
    postcard.drain buf = postcard.decode body >>= fun message =>
      postcard.drain rest >>= fun drained => .ok (message :: drained.1, drained.2) := by
  rw [drain]
  split <;> simp_all

/-- More bytes behind an error or a complete frame change neither. -/
theorem split_error_append {buf : List UInt8} {error : FrameError postcard.Error}
    (found : postcard.split buf = .error error) (more : List UInt8) :
    postcard.split (buf ++ more) = .error error := by
  obtain ⟨header, rest, length, tooLarge, rfl⟩ := of_split_error found
  rw [List.append_assoc]
  exact split_tooLarge length tooLarge _

theorem split_some_append {buf body rest : List UInt8}
    (found : postcard.split buf = .ok (some (body, rest))) (more : List UInt8) :
    postcard.split (buf ++ more) = .ok (some (body, rest ++ more)) := by
  obtain ⟨header, length, announced, rfl⟩ := of_split_some found
  rw [List.append_assoc, List.append_assoc]
  exact split_complete length announced

/-- Draining more bytes goes on from what draining the first left. -/
theorem drain_append (buf more : List UInt8) :
    postcard.drain (buf ++ more) = postcard.drain buf >>= fun drained =>
      postcard.drain (drained.2 ++ more) >>= fun later => .ok (drained.1 ++ later.1, later.2) := by
  -- frame by frame off the front of `buf`, as `drain` goes
  induction length : buf.length using Nat.strongRecOn generalizing buf with
  | ind count inductionHypothesis =>
    cases found : postcard.split buf with
    | error error =>
      rw [drain_error found, drain_error (split_error_append found more)]
      rfl
    | ok frame =>
      cases frame with
      | none =>
        rw [drain_none found]
        exact (bind_pure (postcard.drain (buf ++ more))).symm
      | some frame =>
        obtain ⟨body, rest⟩ := frame
        have shorter := split_shrinks found
        rw [drain_some found, drain_some (split_some_append found more),
          inductionHypothesis rest.length (length ▸ shorter) rest rfl]
        simp only [bind_assoc]
        rfl

/-- What draining leaves holds no complete frame. -/
theorem drain_left {buf left : List UInt8} {messages : List postcard.Message}
    (drained : postcard.drain buf = .ok (messages, left)) :
    postcard.split left = .ok none := by
  induction length : buf.length using Nat.strongRecOn generalizing buf messages with
  | ind count inductionHypothesis =>
    cases found : postcard.split buf with
    | error error =>
      rw [drain_error found] at drained
      cases drained
    | ok frame =>
      cases frame with
      | none =>
        rw [drain_none found] at drained
        cases drained
        exact found
      | some frame =>
        obtain ⟨body, rest⟩ := frame
        have shorter := split_shrinks found
        rw [drain_some found] at drained
        cases decoded : postcard.decode body with
        | error error =>
          rw [decoded] at drained
          cases drained
        | ok message =>
          cases others : postcard.drain rest with
          | error error =>
            rw [decoded, others] at drained
            cases drained
          | ok later =>
            rw [decoded, others] at drained
            cases drained
            exact inductionHypothesis rest.length (length ▸ shorter) others rfl

/-- Feeding a stream in pieces comes to draining it whole. -/
theorem feed_eq_drain {buf : List UInt8} (incomplete : postcard.split buf = .ok none)
    (pieces : List (List UInt8)) :
    postcard.feed buf pieces = postcard.drain (buf ++ pieces.flatten) := by
  induction pieces generalizing buf with
  | nil => rw [feed, List.flatten_nil, List.append_nil, drain_none incomplete]
  | cons piece pieces inductionHypothesis =>
    rw [feed, List.flatten_cons, ← List.append_assoc, drain_append (buf ++ piece)]
    cases drained : postcard.drain (buf ++ piece) with
    | error error => rfl
    | ok outcome =>
      show (postcard.feed outcome.2 pieces >>= fun later => _) = postcard.drain (outcome.2 ++ _) >>= _
      rw [inductionHypothesis (drain_left drained)]

/-! ### Encoded messages -/

theorem of_encode {message : postcard.Message} {frame : List UInt8}
    (encoded : postcard.encode message = .ok frame) :
    ∃ body, postcard.serialize message = .ok body ∧ body.length ≤ maxFrameBytes ∧
      frame = bytesBe lenBytes body.length ++ body := by
  unfold encode at encoded
  cases written : postcard.serialize message with
  | error error =>
    rw [written] at encoded
    cases encoded
  | ok body =>
    rw [written] at encoded
    replace encoded : ite _ _ _ = _ := encoded
    split at encoded
    · cases encoded
    · cases encoded
      exact ⟨body, rfl, Nat.le_of_not_lt ‹_›, rfl⟩

/-- The header of a body within the limit announces its length. -/
theorem bodyLen_bytesBe {len : Nat} (within : len ≤ maxFrameBytes) :
    postcard.bodyLen (bytesBe lenBytes len) = .ok len := by
  have written : ofBytesBe (bytesBe lenBytes len) = len := by
    rw [ofBytesBe_bytesBe]
    exact Nat.mod_eq_of_lt (Nat.lt_of_le_of_lt within (by decide))
  rw [bodyLen, written, if_neg (Nat.not_lt.mpr within)]

theorem bodyLen_encoded {message : postcard.Message} {frame : List UInt8}
    (encoded : postcard.encode message = .ok frame) :
    postcard.bodyLen (frame.take lenBytes) = .ok (frame.length - lenBytes) := by
  obtain ⟨body, _, within, rfl⟩ := of_encode encoded
  rw [List.take_left' (length_bytesBe ..), bodyLen_bytesBe within, List.length_append,
    length_bytesBe, Nat.add_sub_cancel_left]

theorem split_encoded {message : postcard.Message} {frame : List UInt8}
    (encoded : postcard.encode message = .ok frame) (rest : List UInt8) :
    ∃ body, postcard.serialize message = .ok body ∧
      postcard.split (frame ++ rest) = .ok (some (body, rest)) := by
  obtain ⟨body, written, within, rfl⟩ := of_encode encoded
  refine ⟨body, written, ?_⟩
  rw [List.append_assoc]
  exact split_complete (length_bytesBe ..) (bodyLen_bytesBe within)

/-- Part of a frame is not split. -/
theorem split_part {message : postcard.Message} {frame part : List UInt8}
    (encoded : postcard.encode message = .ok frame) (starts : part <+: frame) (less : part ≠ frame) :
    postcard.split part = .ok none := by
  obtain ⟨missing, rfl⟩ := starts
  have nonempty : missing ≠ [] := fun none => less (by rw [none, List.append_nil])
  obtain ⟨body, _, complete⟩ := split_encoded encoded []
  rw [List.append_nil] at complete
  cases found : postcard.split part with
  | error error =>
    rw [split_error_append found] at complete
    cases complete
  | ok frame =>
    cases frame with
    | none => rfl
    | some frame =>
      -- a frame split off the part would leave what is missing behind it
      obtain ⟨body, rest⟩ := frame
      rw [split_some_append found] at complete
      simp_all

theorem decode_written (readsBack : postcard.ReadsBack) {message : postcard.Message}
    {body : List UInt8} (written : postcard.serialize message = .ok body) :
    postcard.decode body = .ok message := by
  rw [decode, readsBack message body written]
  rfl

theorem drain_frames (readsBack : postcard.ReadsBack) {messages : List postcard.Message}
    {frames : List (List UInt8)} (encoded : messages.mapM postcard.encode = .ok frames) :
    postcard.drain frames.flatten = .ok (messages, []) := by
  induction messages generalizing frames with
  | nil =>
    cases encoded
    exact drain_none (split_short (by decide))
  | cons message messages inductionHypothesis =>
    rw [List.mapM_cons] at encoded
    cases first : postcard.encode message with
    | error error =>
      rw [first] at encoded
      cases encoded
    | ok frame =>
      cases others : messages.mapM postcard.encode with
      | error error =>
        rw [first, others] at encoded
        cases encoded
      | ok frames =>
        rw [first, others] at encoded
        cases encoded
        obtain ⟨body, written, found⟩ := split_encoded first frames.flatten
        rw [List.flatten_cons, drain_some found, decode_written readsBack written,
          inductionHypothesis others]
        rfl

end Postcard

/-- Fed in any pieces, the frames of messages give those messages and leave nothing; a part of
a frame gives nothing; every frame's header passes; and one that announces too much is an
error whatever follows. -/
theorem framing_recovers (postcard : Postcard) (readsBack : postcard.ReadsBack) :
    (∀ (messages : List postcard.Message) (frames pieces : List (List UInt8)),
      messages.mapM postcard.encode = .ok frames → pieces.flatten = frames.flatten →
        postcard.feed [] pieces = .ok (messages, [])) ∧
    (∀ (message : postcard.Message) (frame : List UInt8), postcard.encode message = .ok frame →
      postcard.bodyLen (frame.take lenBytes) = .ok (frame.length - lenBytes) ∧
        ∀ part, part <+: frame → part ≠ frame → postcard.split part = .ok none) ∧
    ∀ header : List UInt8, header.length = lenBytes → maxFrameBytes < ofBytesBe header →
      postcard.bodyLen header = .error (.tooLarge (ofBytesBe header)) ∧
        ∀ rest, postcard.split (header ++ rest) = .error (.tooLarge (ofBytesBe header)) := by
  refine ⟨fun messages frames pieces encoded cut => ?_, fun message frame encoded =>
    ⟨postcard.bodyLen_encoded encoded, fun part => postcard.split_part encoded⟩,
    fun header length large => ?_⟩
  · rw [postcard.feed_eq_drain (postcard.split_short (by decide)), List.nil_append, cut]
    exact postcard.drain_frames readsBack encoded
  · have tooLarge : postcard.bodyLen header = .error (.tooLarge (ofBytesBe header)) := if_pos large
    exact ⟨tooLarge, postcard.split_tooLarge length tooLarge⟩

/-- The serializer for `u8`, which writes the byte itself. -/
def bytePostcard : Postcard where
  Message := UInt8
  Error := Unit
  serialize byte := .ok [byte]
  takeFromBytes
    | [] => .error ()
    | byte :: rest => .ok (byte, rest)

theorem bytePostcard_readsBack : bytePostcard.ReadsBack := by
  rintro message body written
  cases written
  rfl

theorem framing_recovers_bytes :
    bytePostcard.feed [] [[0, 0], [0, 1, 7, 0, 0], [0, 1, 9]] =
        .ok ([(7 : UInt8), (9 : UInt8)], []) ∧
      bytePostcard.split [0, 0, 0, 1] = .ok none ∧
      bytePostcard.split [1, 0, 0, 0] = .error (.tooLarge 16777216) :=
  have recovers := framing_recovers bytePostcard bytePostcard_readsBack
  ⟨recovers.1 [(7 : UInt8), (9 : UInt8)] [[0, 0, 0, 1, 7], [0, 0, 0, 1, 9]] _ rfl rfl,
    (recovers.2.1 (7 : UInt8) [0, 0, 0, 1, 7] rfl).2 _ ⟨[7], rfl⟩ (by decide),
    (recovers.2.2 [1, 0, 0, 0] rfl (by decide)).2 []⟩

end Throcc
