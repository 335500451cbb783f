/-
This file embeds the control stream past the handshake: the tasks that call
`Requester::request`, the writer and the reader of `spawn_link`, and the server's
`read_loop`, which answers one request before it reads the next.

Requests are told apart by their ids alone, and callers give up, run out of
time and queue their frames in any order. Whatever the interleaving, a reply
reaches the task whose request it answers, and a server that answers what it is
asked is never taken for one that answers what nobody asked.
-/

import Throcc.Map
import Throcc.Run

namespace Throcc

namespace ControlLink

/-- A task that calls `Requester::request`. -/
abbrev Caller := Nat

inductive LinkError (FrameError : Type) where
  | closed
  | idsExhausted
  | unsendable (error : FrameError)
  | timedOut
deriving DecidableEq

/-! ### Waiters -/

/-- The ids given, and who waits for the reply to which. -/
structure Pending where
  nextId : Nat := 0
  waiting : Map Nat Caller := ∅
  closed : Bool := false

namespace Pending

variable {FrameError : Type} (pending : Pending)

/-- Waits for the reply to the next request id, unless the stream has closed. -/
def register (waiter : Caller) : Except (LinkError FrameError) (Nat × Pending) :=
  if pending.closed then .error .closed
  else if pending.nextId + 1 < 2 ^ 32 then
    .ok (pending.nextId,
      { pending with
        nextId := pending.nextId + 1
        waiting := pending.waiting.insert pending.nextId waiter })
  else .error .idsExhausted

/-- Fails every request waiting for a reply, and every later one. -/
def close : Pending := { pending with closed := true, waiting := ∅ }

end Pending

/-! ### The stream -/

inductive Stage (FrameError Response : Type) where
  /-- It has its id, and has yet to queue its frame. -/
  | registered
  /-- Its frame is queued. -/
  | waiting
  | ended (result : Except (LinkError FrameError) Response)
  /-- Its task was dropped. -/
  | dropped

/-- A call of `Requester::request`, with what the channel to it holds. -/
structure Call (FrameError Request Response : Type) where
  request : Request
  id : Option Nat
  reply : Option Response := none
  stage : Stage FrameError Response

inductive ServerMessage (Response Event : Type) where
  | response (id : Nat) (response : Response)
  | event (event : Event)

variable (FrameError Request Response Event : Type)

/-- Both ends of a control stream and what is on its way between them. -/
structure Stream where
  pending : Pending := {}
  calls : Map Caller (Call FrameError Request Response) := ∅
  /-- The client's queue of frames. -/
  outgoing : List (Nat × Request) := []
  toServer : List (Nat × Request) := []
  /-- The request the server has read and not answered yet. -/
  serving : Option (Nat × Request) := none
  toClient : List (ServerMessage Response Event) := []
  events : List Event := []
  writing : Bool := true
  reading : Bool := true
  /-- The client has closed the connection. -/
  shut : Bool := false
  /-- The client has met a reply to a request that was never sent. -/
  unknown : Bool := false
  /-- The frames ever queued. -/
  posted : List (Nat × Request) := []
  /-- The requests the server has answered, with its answers. -/
  handled : List ((Nat × Request) × Response) := []
  /-- The replies the client has read. -/
  taken : List (Nat × Response) := []

inductive Turn where
  /-- A task calls `request`, and registers. -/
  | request (caller : Caller) (request : Request)
  /-- It encodes its frame and queues it. -/
  | post (caller : Caller)
  /-- It finds its reply, or that nobody will send one. -/
  | settle (caller : Caller)
  | timeOut (caller : Caller)
  | drop (caller : Caller)
  | write
  | writeFails
  /-- The server reads a request. -/
  | read
  /-- It answers the one it has read. -/
  | answer (response : Response)
  | tell (event : Event)
  /-- The client reads a message. -/
  | deliver
  /-- The client's reader finds the stream closed. -/
  | hangUp

variable {FrameError Request Response Event}

/-- Sends `response` down the channel, unless nobody is at its other end. -/
def Call.send (call : Call FrameError Request Response) (response : Response) :
    Call FrameError Request Response :=
  match call.stage with
  | .registered | .waiting => { call with reply := some response }
  | .ended _ | .dropped => call

namespace Stream

variable (encode : Nat × Request → Except FrameError Unit)
variable (stream : Stream FrameError Request Response Event)

def setStage (caller : Caller) (stage : Stage FrameError Response) :
    Stream FrameError Request Response Event :=
  { stream with calls := stream.calls.modify caller fun call => { call with stage } }

def close : Stream FrameError Request Response Event :=
  { stream with pending := stream.pending.close }

def register (caller : Caller) (request : Request) : Stream FrameError Request Response Event :=
  match stream.pending.register caller with
  | .ok (id, pending) =>
    { stream with
      pending
      calls := stream.calls.insert caller { request, id := some id, stage := .registered } }
  | .error error =>
    { stream with
      shut := stream.shut || error matches .idsExhausted
      calls := stream.calls.insert caller { request, id := none, stage := .ended (.error error) } }

/-- What a task that has its id does with its frame. -/
def post (caller : Caller) (id : Nat) (request : Request) :
    Stream FrameError Request Response Event :=
  match encode (id, request) with
  | .error error =>
    { stream.setStage caller (.ended (.error (.unsendable error))) with
      pending := { stream.pending with waiting := stream.pending.waiting.erase id } }
  | .ok () =>
    if stream.writing then
      { stream.setStage caller .waiting with
        outgoing := stream.outgoing ++ [(id, request)]
        posted := stream.posted ++ [(id, request)] }
    else
      stream.setStage caller (.ended (.error .closed))

/-- The reader has read a reply. -/
def reply (id : Nat) (response : Response) : Stream FrameError Request Response Event :=
  match stream.pending.waiting.lookup id with
  | some waiter =>
    { stream with
      pending := { stream.pending with waiting := stream.pending.waiting.erase id }
      calls := stream.calls.modify waiter (Call.send · response)
      taken := stream.taken ++ [(id, response)] }
  | none =>
    { stream.close with
      shut := true
      reading := false
      unknown := true
      taken := stream.taken ++ [(id, response)] }

/-- What a task does that has queued its frame, knowing its id and what its channel holds. -/
def whileWaiting (caller : Caller)
    (turn : Nat → Option Response → Stream FrameError Request Response Event) :
    Stream FrameError Request Response Event :=
  match stream.calls.lookup caller with
  | some { id := some id, reply, stage := .waiting, .. } => turn id reply
  | _ => stream

def step : Turn Request Response Event → Stream FrameError Request Response Event
  | .request caller request =>
    if caller ∈ stream.calls then stream else stream.register caller request
  | .post caller =>
    match stream.calls.lookup caller with
    | some { request, id := some id, stage := .registered, .. } =>
      stream.post encode caller id request
    | _ => stream
  | .settle caller =>
    stream.whileWaiting caller fun id reply =>
      match reply with
      | some response => stream.setStage caller (.ended (.ok response))
      | none =>
        -- Its sender is dropped with the entry that held it.
        if stream.pending.waiting.lookup id = some caller then stream
        else stream.setStage caller (.ended (.error .closed))
  | .timeOut caller =>
    stream.whileWaiting caller fun id reply =>
      if reply.isNone ∧ stream.pending.waiting.lookup id = some caller then
        stream.setStage caller (.ended (.error .timedOut))
      else
        stream
  | .drop caller =>
    match stream.calls.lookup caller with
    | some { stage := .registered, .. } | some { stage := .waiting, .. } =>
      stream.setStage caller .dropped
    | _ => stream
  | .write =>
    match stream.outgoing with
    | [] => stream
    | frame :: rest =>
      if stream.writing ∧ ¬ stream.shut then
        { stream with outgoing := rest, toServer := stream.toServer ++ [frame] }
      else
        stream
  | .writeFails =>
    if stream.writing then { stream.close with writing := false, outgoing := [] } else stream
  | .read =>
    match stream.serving, stream.toServer with
    | none, frame :: rest => { stream with serving := some frame, toServer := rest }
    | _, _ => stream
  | .answer response =>
    match stream.serving with
    | none => stream
    | some frame =>
      { stream with
        serving := none
        toClient := stream.toClient ++ [.response frame.1 response]
        handled := stream.handled ++ [(frame, response)] }
  | .tell event => { stream with toClient := stream.toClient ++ [.event event] }
  | .deliver =>
    if stream.reading ∧ ¬ stream.shut then
      match stream.toClient with
      | [] => stream
      | .event event :: rest => { stream with toClient := rest, events := stream.events ++ [event] }
      | .response id response :: rest => { stream with toClient := rest }.reply id response
    else
      stream
  | .hangUp => if stream.reading then { stream.close with reading := false } else stream

end Stream

/-! ### Calls and frames -/

variable {pending : Pending} {posted : List (Nat × Request)} {taken : List (Nat × Response)}
variable {calls : Map Caller (Call FrameError Request Response)}

/-- What holds of a call that has its id. -/
structure Kept (pending : Pending) (posted : List (Nat × Request)) (taken : List (Nat × Response))
    (caller : Caller) (id : Nat) (call : Call FrameError Request Response) : Prop where
  fresh : id < pending.nextId
  heard : ∀ response, call.reply = some response ∨ call.stage = .ended (.ok response) →
    (id, response) ∈ taken
  unposted : call.stage = .registered → id ∉ posted.map Prod.fst
  sent : call.stage = .waiting → id ∈ posted.map Prod.fst
  awaited : pending.closed = false → id ∉ taken.map Prod.fst →
    call.stage = .registered ∨ id ∈ posted.map Prod.fst → pending.waiting.lookup id = some caller
  told : pending.closed = false → call.stage = .waiting → id ∈ taken.map Prod.fst →
    call.reply.isSome = true

/-- Calls, the ids given to them, the frames queued for them and the replies read. -/
structure Matched (pending : Pending) (calls : Map Caller (Call FrameError Request Response))
    (posted : List (Nat × Request)) (taken : List (Nat × Response)) : Prop where
  kept : ∀ caller call id, calls.lookup caller = some call → call.id = some id →
    Kept pending posted taken caller id call
  alone : ∀ caller call other another id, calls.lookup caller = some call →
    calls.lookup other = some another → call.id = some id → another.id = some id → caller = other
  waits : ∀ id caller, pending.waiting.lookup id = some caller →
    ∃ call, calls.lookup caller = some call ∧ call.id = some id
  owned : ∀ frame ∈ posted, ∃ caller call, calls.lookup caller = some call ∧
    call.id = some frame.1 ∧ call.request = frame.2
  once : (posted.map Prod.fst).Nodup
  /-- A call without an id has been refused. -/
  named : ∀ caller call, calls.lookup caller = some call → call.id = none →
    ∃ error, call.stage = .ended (.error error)

/-- Changing a call keeps whose the ids are. -/
theorem Matched.modify (matched : Matched pending calls posted taken) {caller : Caller}
    {change : Call FrameError Request Response → Call FrameError Request Response}
    {after : Pending} {queued : List (Nat × Request)} {read : List (Nat × Response)}
    (named : ∀ call, calls.lookup caller = some call → call.id ≠ none)
    (same : ∀ call, (change call).id = call.id ∧ (change call).request = call.request)
    (waits : ∀ id waiter, after.waiting.lookup id = some waiter →
      pending.waiting.lookup id = some waiter)
    (owned : ∀ frame ∈ queued, frame ∈ posted ∨ ∃ call, calls.lookup caller = some call ∧
      call.id = some frame.1 ∧ call.request = frame.2)
    (once : (queued.map Prod.fst).Nodup)
    (kept : ∀ other call id, calls.lookup other = some call → call.id = some id →
      Kept pending posted taken other id call →
      Kept after queued read other id (if other = caller then change call else call)) :
    Matched after (calls.modify caller change) queued read := by
  have lookup : ∀ other, (calls.modify caller change).lookup other =
      (calls.lookup other).map fun call => if other = caller then change call else call := by
    intro other
    rw [Map.lookup_modify]
    split
    · rfl
    · exact Option.map_id'.symm
  have changed : ∀ other call, (if other = caller then change call else call).id = call.id ∧
      (if other = caller then change call else call).request = call.request := by
    intro other call
    split
    · exact same call
    · exact ⟨rfl, rfl⟩
  refine ⟨fun other call id found mine => ?_,
    fun first call second another id found found' mine mine' => ?_,
    fun id waiter waiting => ?_, fun frame member => ?_, once, fun other call found unnamed => ?_⟩
  · rw [lookup] at found
    obtain ⟨before, stored, rfl⟩ := Option.map_eq_some_iff.mp found
    rw [(changed other before).1] at mine
    exact kept other before id stored mine (matched.kept other before id stored mine)
  · rw [lookup] at found found'
    obtain ⟨one, stored, rfl⟩ := Option.map_eq_some_iff.mp found
    obtain ⟨two, stored', rfl⟩ := Option.map_eq_some_iff.mp found'
    rw [(changed first one).1] at mine
    rw [(changed second two).1] at mine'
    exact matched.alone first one second two id stored stored' mine mine'
  · obtain ⟨call, found, mine⟩ := matched.waits id waiter (waits id waiter waiting)
    refine ⟨_, (lookup waiter).trans (congrArg (Option.map _) found), ?_⟩
    rw [(changed waiter call).1, mine]
  · have mine : ∃ owner call, calls.lookup owner = some call ∧ call.id = some frame.1 ∧
        call.request = frame.2 := by
      obtain earlier | ⟨call, found, mine⟩ := owned frame member
      · exact matched.owned frame earlier
      · exact ⟨caller, call, found, mine⟩
    obtain ⟨owner, call, found, mine, asked⟩ := mine
    refine ⟨owner, _, (lookup owner).trans (congrArg (Option.map _) found), ?_, ?_⟩
    · rw [(changed owner call).1, mine]
    · rw [(changed owner call).2, asked]
  · rw [lookup] at found
    obtain ⟨before, stored, rfl⟩ := Option.map_eq_some_iff.mp found
    rw [(changed other before).1] at unnamed
    by_cases here : other = caller
    · exact absurd unnamed (named before (here ▸ stored))
    · rw [if_neg here]
      exact matched.named other before stored unnamed

theorem named_of {caller : Caller} {call : Call FrameError Request Response}
    (found : calls.lookup caller = some call) (named : call.id ≠ none) :
    ∀ another, calls.lookup caller = some another → another.id ≠ none := by
  intro another known
  rwa [← Option.some.inj (found.symm.trans known)]

/-- A call that is over has no more to keep to. -/
theorem Matched.setStage (matched : Matched pending calls posted taken) {caller : Caller}
    {call : Call FrameError Request Response} (found : calls.lookup caller = some call)
    (named : call.id ≠ none) {stage : Stage FrameError Response} (registered : stage ≠ .registered)
    (waiting : stage ≠ .waiting)
    (answered : ∀ response, stage = .ended (.ok response) → call.reply = some response) :
    Matched pending (calls.modify caller fun call => { call with stage }) posted taken := by
  refine matched.modify (named_of found named)
    (fun _ => ⟨rfl, rfl⟩) (fun _ _ waits => waits) (fun _ member => .inl member) matched.once
    fun other mine id known _ kept => ?_
  split
  · rename_i same
    subst same
    obtain rfl := Option.some.inj (found.symm.trans known)
    exact {
      fresh := kept.fresh
      heard := fun response heard =>
        kept.heard response (.inl (heard.elim (fun held => held) (answered response)))
      unposted := fun first => absurd first registered
      sent := fun waits => absurd waits waiting
      awaited := fun opened unread first =>
        kept.awaited opened unread (.inr (first.resolve_left registered))
      told := fun _ waits => absurd waits waiting }
  · exact kept

theorem Matched.close (matched : Matched pending calls posted taken)
    (replies : List (Nat × Response)) :
    Matched pending.close calls posted (taken ++ replies) where
  kept caller call id found mine :=
    have kept := matched.kept caller call id found mine
    { fresh := kept.fresh
      heard := fun response heard => List.mem_append_left _ (kept.heard response heard)
      unposted := kept.unposted
      sent := kept.sent
      awaited := nofun
      told := nofun }
  alone := matched.alone
  waits _ _ waiting := by cases waiting
  owned := matched.owned
  once := matched.once
  named := matched.named

theorem Matched.shut (matched : Matched pending calls posted taken) :
    Matched pending.close calls posted taken := by
  have closed := matched.close []
  rwa [List.append_nil] at closed

/-- Whose id it is keeps to itself what happens to a call. -/
theorem Matched.apart (matched : Matched pending calls posted taken) {caller other : Caller}
    {call another : Call FrameError Request Response} {id otherId : Nat}
    (found : calls.lookup caller = some call) (mine : call.id = some id)
    (known : calls.lookup other = some another) (its : another.id = some otherId)
    (different : other ≠ caller) : otherId ≠ id := by
  rintro rfl
  exact different (matched.alone other another caller call otherId known found its mine)

theorem lookup_erase_of_ne {id other : Nat} (different : other ≠ id) :
    (pending.waiting.erase id).lookup other = pending.waiting.lookup other := by
  rw [Map.lookup_erase_ite, if_neg different]

theorem waits_of_erase {id other : Nat} {waiter : Caller}
    (waits : (pending.waiting.erase id).lookup other = some waiter) :
    pending.waiting.lookup other = some waiter := by
  rw [Map.lookup_erase_ite] at waits
  split at waits
  · cases waits
  · exact waits

/-- A call whose frame can't be encoded is over, and nobody waits for its reply. -/
theorem Matched.unsendable (matched : Matched pending calls posted taken) {caller : Caller}
    {call : Call FrameError Request Response} (found : calls.lookup caller = some call) {id : Nat}
    (mine : call.id = some id) (registered : call.stage = .registered) {error : FrameError} :
    Matched { pending with waiting := pending.waiting.erase id }
      (calls.modify caller fun call =>
        { call with stage := .ended (.error (.unsendable error)) }) posted taken := by
  have named := named_of found (mine ▸ Option.some_ne_none id)
  refine matched.modify named (fun _ => ⟨rfl, rfl⟩) (fun _ _ => waits_of_erase)
    (fun _ member => .inl member) matched.once fun other another otherId known its kept => ?_
  split
  · rename_i same
    subst same
    obtain rfl := Option.some.inj (found.symm.trans known)
    obtain rfl := Option.some.inj (mine.symm.trans its)
    exact {
      fresh := kept.fresh
      heard := fun response heard => kept.heard response (.inl (heard.resolve_right nofun))
      unposted := nofun
      sent := nofun
      awaited := fun _ _ first =>
        absurd (first.resolve_left nofun) (kept.unposted registered)
      told := nofun }
  · rename_i different
    have apart := matched.apart found mine known its different
    exact { kept with
      awaited := fun opened unread first =>
        (lookup_erase_of_ne apart).trans (kept.awaited opened unread first) }

/-- A call queues its frame. -/
theorem Matched.post (matched : Matched pending calls posted taken) {caller : Caller}
    {call : Call FrameError Request Response} (found : calls.lookup caller = some call) {id : Nat}
    (mine : call.id = some id) (registered : call.stage = .registered)
    (unread : id ∉ taken.map Prod.fst) :
    Matched pending (calls.modify caller fun call => { call with stage := .waiting })
      (posted ++ [(id, call.request)]) taken := by
  have unposted := (matched.kept caller call id found mine).unposted registered
  have queued : ∀ other, other ∈ (posted ++ [(id, call.request)]).map Prod.fst ↔
      other ∈ posted.map Prod.fst ∨ other = id := by
    intro other
    rw [List.map_append, List.mem_append, List.map_singleton, List.mem_singleton]
  have named := named_of found (mine ▸ Option.some_ne_none id)
  refine matched.modify named (fun _ => ⟨rfl, rfl⟩) (fun _ _ waits => waits)
    (fun frame member => ?_) ?_ fun other another otherId known its kept => ?_
  · obtain earlier | here := List.mem_append.mp member
    · exact .inl earlier
    · obtain rfl := List.mem_singleton.mp here
      exact .inr ⟨call, found, mine, rfl⟩
  · rw [List.map_append, List.nodup_append]
    refine ⟨matched.once, List.nodup_singleton _, fun other earlier another here => ?_⟩
    obtain rfl := List.mem_singleton.mp here
    rintro rfl
    exact unposted earlier
  · split
    · rename_i same
      subst same
      obtain rfl := Option.some.inj (found.symm.trans known)
      obtain rfl := Option.some.inj (mine.symm.trans its)
      exact {
        fresh := kept.fresh
        heard := fun response heard => kept.heard response (.inl (heard.resolve_right nofun))
        unposted := nofun
        sent := fun _ => (queued id).mpr (.inr rfl)
        awaited := fun opened unread _ => kept.awaited opened unread (.inl registered)
        told := fun _ _ read => absurd read unread }
    · rename_i different
      have apart := matched.apart found mine known its different
      have same : otherId ∈ (posted ++ [(id, call.request)]).map Prod.fst ↔
          otherId ∈ posted.map Prod.fst := (queued otherId).trans (or_iff_left apart)
      exact {
        fresh := kept.fresh
        heard := kept.heard
        unposted := fun first => mt same.mp (kept.unposted first)
        sent := fun waits => same.mpr (kept.sent waits)
        awaited := fun opened unread first => kept.awaited opened unread (first.imp_right same.mp)
        told := kept.told }

/-- A reply is read that somebody waits for. -/
theorem Matched.reply (matched : Matched pending calls posted taken) {caller : Caller} {id : Nat}
    (waiting : pending.waiting.lookup id = some caller) (response : Response) :
    Matched { pending with waiting := pending.waiting.erase id }
      (calls.modify caller (Call.send · response)) posted (taken ++ [(id, response)]) := by
  obtain ⟨call, found, mine⟩ := matched.waits id caller waiting
  have read : ∀ other, other ∈ (taken ++ [(id, response)]).map Prod.fst ↔
      other ∈ taken.map Prod.fst ∨ other = id := by
    intro other
    rw [List.map_append, List.mem_append, List.map_singleton, List.mem_singleton]
  have same : ∀ call : Call FrameError Request Response,
      (call.send response).id = call.id ∧ (call.send response).request = call.request := by
    intro call
    unfold Call.send
    split <;> exact ⟨rfl, rfl⟩
  have named := named_of found (mine ▸ Option.some_ne_none id)
  refine matched.modify named same (fun _ _ => waits_of_erase) (fun _ member => .inl member)
    matched.once fun other another otherId known its kept => ?_
  split
  · rename_i same
    subst same
    obtain rfl := Option.some.inj (found.symm.trans known)
    obtain rfl := Option.some.inj (mine.symm.trans its)
    have stage : (call.send response).stage = call.stage := by
      unfold Call.send
      split <;> rfl
    exact {
      fresh := kept.fresh
      heard := by
        intro answer heard
        rw [List.mem_append, List.mem_singleton]
        unfold Call.send at heard
        split at heard
        · rename_i first
          exact .inr (congrArg (Prod.mk id)
            (Option.some.inj (heard.resolve_right (first ▸ nofun)).symm))
        · rename_i first
          exact .inr (congrArg (Prod.mk id)
            (Option.some.inj (heard.resolve_right (first ▸ nofun)).symm))
        · exact .inl (kept.heard answer heard)
        · exact .inl (kept.heard answer heard)
      unposted := fun first => kept.unposted (stage ▸ first)
      sent := fun waits => kept.sent (stage ▸ waits)
      awaited := fun _ unread => absurd ((read id).mpr (.inr rfl)) unread
      told := by
        intro _ waits _
        rw [stage] at waits
        unfold Call.send
        rw [waits]
        rfl }
  · rename_i different
    have apart := matched.apart found mine known its different
    have same : otherId ∈ (taken ++ [(id, response)]).map Prod.fst ↔ otherId ∈ taken.map Prod.fst :=
      (read otherId).trans (or_iff_left apart)
    exact {
      fresh := kept.fresh
      heard := fun answer heard => List.mem_append_left _ (kept.heard answer heard)
      unposted := kept.unposted
      sent := kept.sent
      awaited := fun opened unread first =>
        (lookup_erase_of_ne apart).trans (kept.awaited opened (mt same.mpr unread) first)
      told := fun opened waits read => kept.told opened waits (same.mp read) }

/-- A call that gets no id matters to no other. -/
theorem Matched.refused (matched : Matched pending calls posted taken) {caller : Caller}
    (new : caller ∉ calls) (request : Request) (error : LinkError FrameError) :
    Matched pending
      (calls.insert caller { request, id := none, stage := .ended (.error error) })
      posted taken := by
  have known : ∀ {other another}, calls.lookup other = some another → other ≠ caller := by
    rintro other another found rfl
    exact new (Finmap.mem_of_lookup_eq_some found)
  generalize new : ({ request, id := none, stage := .ended (.error error) } :
    Call FrameError Request Response) = call
  have old : ∀ other another id, (calls.insert caller call).lookup other = some another →
      another.id = some id → calls.lookup other = some another := by
    intro other another id found its
    rw [Map.lookup_insert_ite] at found
    split at found
    · rw [← new] at found
      obtain rfl := Option.some.inj found
      cases its
    · exact found
  have kept : ∀ {other another}, calls.lookup other = some another →
      (calls.insert caller call).lookup other = some another := by
    intro other another found
    rw [Map.lookup_insert_ite, if_neg (known found)]
    exact found
  refine ⟨fun other another id found its => matched.kept other another id (old _ _ _ found its) its,
    fun first one second two id found found' mine mine' => matched.alone first one second two id
      (old _ _ _ found mine) (old _ _ _ found' mine') mine mine',
    fun id waiter waiting => ?_, fun frame member => ?_, matched.once,
    fun other another found unnamed => ?_⟩
  · obtain ⟨another, found, its⟩ := matched.waits id waiter waiting
    exact ⟨another, kept found, its⟩
  · obtain ⟨owner, another, found, its⟩ := matched.owned frame member
    exact ⟨owner, another, kept found, its⟩
  · rw [Map.lookup_insert_ite] at found
    split at found
    · rw [← new] at found
      obtain rfl := Option.some.inj found
      exact ⟨error, rfl⟩
    · exact matched.named other another found unnamed

/-- A call gets the next id. -/
theorem Matched.register (matched : Matched pending calls posted taken) {caller : Caller}
    (new : caller ∉ calls) (request : Request) :
    Matched
      { pending with
        nextId := pending.nextId + 1
        waiting := pending.waiting.insert pending.nextId caller }
      (calls.insert caller { request, id := some pending.nextId, stage := .registered })
      posted taken := by
  have known : ∀ {other another}, calls.lookup other = some another → other ≠ caller := by
    rintro other another found rfl
    exact new (Finmap.mem_of_lookup_eq_some found)
  have fresh : ∀ {other another id}, calls.lookup other = some another → another.id = some id →
      id ≠ pending.nextId :=
    fun found its => (matched.kept _ _ _ found its).fresh.ne
  have unposted : pending.nextId ∉ posted.map Prod.fst := by
    intro member
    obtain ⟨frame, posted, same⟩ := List.mem_map.mp member
    obtain ⟨owner, call, found, its, _⟩ := matched.owned frame posted
    exact fresh found its same
  have kept : ∀ {other another call}, calls.lookup other = some another →
      (calls.insert caller call).lookup other = some another := by
    intro other another call found
    rw [Map.lookup_insert_ite, if_neg (known found)]
    exact found
  refine ⟨fun other another id found its => ?_,
    fun first one second two id found found' mine mine' => ?_,
    fun id waiter waiting => ?_, fun frame member => ?_, matched.once,
    fun other another found unnamed => ?_⟩
  · rw [Map.lookup_insert_ite] at found
    split at found
    · rename_i same
      obtain rfl := Option.some.inj found
      obtain rfl := Option.some.inj its
      exact {
        fresh := Nat.lt_succ_self _
        heard := fun response heard => heard.elim nofun nofun
        unposted := fun _ => unposted
        sent := nofun
        awaited := fun _ _ _ => (Finmap.lookup_insert _).trans (congrArg some same.symm)
        told := nofun }
    · have before := matched.kept other another id found its
      exact { before with
        fresh := before.fresh.trans (Nat.lt_succ_self _)
        awaited := fun opened unread first => by
          rw [Map.lookup_insert_ite, if_neg (fresh found its)]
          exact before.awaited opened unread first }
  · rw [Map.lookup_insert_ite] at found found'
    split at found <;> split at found'
    · rename_i same same'
      exact same.trans same'.symm
    · obtain rfl := Option.some.inj found
      exact absurd (Option.some.inj mine).symm (fresh found' mine')
    · obtain rfl := Option.some.inj found'
      exact absurd (Option.some.inj mine').symm (fresh found mine)
    · exact matched.alone first one second two id found found' mine mine'
  · dsimp only at waiting
    rw [Map.lookup_insert_ite] at waiting
    split at waiting
    · rename_i same
      obtain rfl := Option.some.inj waiting
      exact ⟨_, Finmap.lookup_insert _, congrArg some same.symm⟩
    · obtain ⟨another, found, its⟩ := matched.waits id waiter waiting
      exact ⟨another, kept found, its⟩
  · obtain ⟨owner, another, found, its⟩ := matched.owned frame member
    exact ⟨owner, another, kept found, its⟩
  · rw [Map.lookup_insert_ite] at found
    split at found
    · obtain rfl := Option.some.inj found
      cases unnamed
    · exact matched.named other another found unnamed

/-! ### Frames and replies on their way -/

def ServerMessage.reply : ServerMessage Response Event → Option (Nat × Response)
  | .response id answer => some (id, answer)
  | .event _ => none

namespace Stream

variable (stream : Stream FrameError Request Response Event)

/-- The frames the server has got, in their order. -/
def received : List (Nat × Request) :=
  stream.handled.map Prod.fst ++ stream.serving.toList ++ stream.toServer

/-- The replies the server has sent, as it has them. -/
def replies : List (Nat × Response) :=
  stream.handled.map fun entry => (entry.1.1, entry.2)

/-- What holds of a control stream at all times. -/
structure Sound : Prop where
  matched : Matched stream.pending stream.calls stream.posted stream.taken
  /-- The server gets what was queued, in its order, and all of it unless writing fails. -/
  inOrder : stream.received <+: stream.posted
  complete : stream.writing = true → stream.received ++ stream.outgoing = stream.posted
  answered : stream.taken ++ stream.toClient.filterMap ServerMessage.reply = stream.replies
  closed : stream.pending.closed = true →
    stream.pending.waiting = ∅ ∧ (stream.reading = true → stream.writing = false)
  failed : stream.writing = false → stream.pending.closed = true
  honest : stream.unknown = true → stream.writing = false

variable {stream}

/-- Only replies to frames that were queued are read. -/
theorem Sound.read (sound : stream.Sound) :
    ∀ id ∈ stream.taken.map Prod.fst, id ∈ stream.posted.map Prod.fst := by
  intro id member
  have replied : id ∈ stream.replies.map Prod.fst := by
    rw [← sound.answered, List.map_append]
    exact List.mem_append_left _ member
  obtain ⟨reply, sent, rfl⟩ := List.mem_map.mp replied
  obtain ⟨entry, handled, rfl⟩ := List.mem_map.mp sent
  refine List.mem_map_of_mem (sound.inOrder.subset ?_)
  exact List.mem_append_left _ (List.mem_append_left _ (List.mem_map_of_mem handled))

/-- No reply is read twice. -/
theorem Sound.unread (sound : stream.Sound) {id : Nat} {response : Response}
    {rest : List (ServerMessage Response Event)}
    (next : stream.toClient = .response id response :: rest) :
    id ∈ stream.posted.map Prod.fst ∧ id ∉ stream.taken.map Prod.fst := by
  have answered : (stream.taken ++ (id, response) :: rest.filterMap ServerMessage.reply).map
      Prod.fst = (stream.handled.map Prod.fst).map Prod.fst := by
    have answered := congrArg (List.map Prod.fst) sound.answered
    rw [next] at answered
    refine answered.trans ?_
    rw [replies, List.map_map, List.map_map]
    rfl
  have handled : stream.handled.map Prod.fst <+: stream.posted :=
    (List.prefix_append_of_prefix (List.prefix_append _ _)).trans sound.inOrder
  have once : ((stream.handled.map Prod.fst).map Prod.fst).Nodup :=
    (handled.map Prod.fst).sublist.nodup sound.matched.once
  rw [← answered, List.map_append, List.nodup_append] at once
  refine ⟨(handled.map Prod.fst).subset ?_, fun read => ?_⟩
  · rw [← answered, List.map_append]
    exact List.mem_append_right _ List.mem_cons_self
  · exact once.2.2 id read id List.mem_cons_self rfl

/-- The channel of a call is open until its reply is read, unless the stream closes. -/
theorem Sound.expected (sound : stream.Sound) (opened : stream.pending.closed = false) {id : Nat}
    (posted : id ∈ stream.posted.map Prod.fst) (unread : id ∉ stream.taken.map Prod.fst) :
    ∃ caller, stream.pending.waiting.lookup id = some caller := by
  obtain ⟨frame, member, rfl⟩ := List.mem_map.mp posted
  obtain ⟨caller, call, found, mine, _⟩ := sound.matched.owned frame member
  exact ⟨caller, (sound.matched.kept caller call frame.1 found mine).awaited opened unread
    (.inr posted)⟩

/-! ### Turns -/

variable {encode : Nat × Request → Except FrameError Unit}

theorem Sound.register (sound : stream.Sound) {caller : Caller} (new : caller ∉ stream.calls)
    (request : Request) : (stream.register caller request).Sound := by
  unfold Stream.register Pending.register
  by_cases closed : stream.pending.closed = true
  · rw [if_pos closed]
    exact { sound with matched := sound.matched.refused new request _ }
  · rw [if_neg closed]
    by_cases room : stream.pending.nextId + 1 < 2 ^ 32
    · rw [if_pos room]
      exact { sound with
        matched := sound.matched.register new request
        closed := fun opened => absurd opened closed }
    · rw [if_neg room]
      exact { sound with matched := sound.matched.refused new request _ }

theorem Sound.over (sound : stream.Sound) {caller : Caller}
    {call : Call FrameError Request Response} (found : stream.calls.lookup caller = some call)
    (named : call.id ≠ none) {stage : Stage FrameError Response} (registered : stage ≠ .registered)
    (waiting : stage ≠ .waiting)
    (answered : ∀ response, stage = .ended (.ok response) → call.reply = some response) :
    (stream.setStage caller stage).Sound :=
  { sound with matched := sound.matched.setStage found named registered waiting answered }

/-- A call that isn't over has its id. -/
theorem Sound.named (sound : stream.Sound) {caller : Caller}
    {call : Call FrameError Request Response} (found : stream.calls.lookup caller = some call)
    (underway : ∀ error, call.stage ≠ .ended (.error error)) : call.id ≠ none := by
  intro unnamed
  obtain ⟨error, refused⟩ := sound.matched.named caller call found unnamed
  exact underway error refused

theorem Sound.post (sound : stream.Sound) {caller : Caller}
    {call : Call FrameError Request Response} (found : stream.calls.lookup caller = some call)
    {id : Nat} (mine : call.id = some id) (registered : call.stage = .registered) :
    (stream.post encode caller id call.request).Sound := by
  unfold Stream.post
  split
  · exact { sound with
      matched := sound.matched.unsendable found mine registered
      closed := fun closed => by
        obtain ⟨empty, writing⟩ := sound.closed closed
        refine ⟨?_, writing⟩
        show stream.pending.waiting.erase id = ∅
        rw [empty]
        exact Map.erase_of_missing rfl }
  · split
    · have unread : id ∉ stream.taken.map Prod.fst := fun read =>
        (sound.matched.kept caller call id found mine).unposted registered (sound.read id read)
      exact { sound with
        matched := sound.matched.post found mine registered unread
        inOrder := sound.inOrder.trans (List.prefix_append _ _)
        complete := fun writing =>
          (List.append_assoc _ _ _).symm.trans (congrArg (· ++ _) (sound.complete writing)) }
    · exact sound.over found (mine ▸ Option.some_ne_none id) nofun nofun nofun

theorem Sound.write (sound : stream.Sound) {frame : Nat × Request} {rest : List (Nat × Request)}
    (next : stream.outgoing = frame :: rest) (writing : stream.writing = true) :
    Sound { stream with outgoing := rest, toServer := stream.toServer ++ [frame] } := by
  have complete : stream.received ++ [frame] ++ rest = stream.posted := by
    rw [← sound.complete writing, next, List.append_assoc, List.singleton_append]
  have received :
      received { stream with outgoing := rest, toServer := stream.toServer ++ [frame] } =
        stream.received ++ [frame] := (List.append_assoc _ _ _).symm
  exact { sound with
    inOrder := by
      rw [received, ← complete]
      exact List.prefix_append _ _
    complete := fun _ => by
      rw [received]
      exact complete }

theorem Sound.serve (sound : stream.Sound) {frame : Nat × Request} {rest : List (Nat × Request)}
    (idle : stream.serving = none) (next : stream.toServer = frame :: rest) :
    Sound { stream with serving := some frame, toServer := rest } := by
  have received : received { stream with serving := some frame, toServer := rest } =
      stream.received := by
    unfold Stream.received
    rw [idle, next]
    simp
  exact { sound with
    inOrder := received.symm ▸ sound.inOrder
    complete := fun writing => received.symm ▸ sound.complete writing }

theorem Sound.answer (sound : stream.Sound) {frame : Nat × Request} (response : Response)
    (busy : stream.serving = some frame) :
    Sound { stream with
      serving := none
      toClient := stream.toClient ++ [.response frame.1 response]
      handled := stream.handled ++ [(frame, response)] } := by
  have received : received { stream with
      serving := none
      toClient := stream.toClient ++ [.response frame.1 response]
      handled := stream.handled ++ [(frame, response)] } = stream.received := by
    unfold Stream.received
    rw [busy]
    simp
  exact { sound with
    inOrder := received.symm ▸ sound.inOrder
    complete := fun writing => received.symm ▸ sound.complete writing
    answered := by
      show _ ++ List.filterMap _ (_ ++ _) = List.map _ (_ ++ _)
      rw [List.filterMap_append, ← List.append_assoc, sound.answered, List.map_append]
      rfl }

theorem Sound.reply (sound : stream.Sound) {id : Nat} {response : Response}
    {rest : List (ServerMessage Response Event)} (reading : stream.reading = true)
    (next : stream.toClient = .response id response :: rest) :
    (Stream.reply { stream with toClient := rest } id response).Sound := by
  have answered : (stream.taken ++ [(id, response)]) ++ rest.filterMap ServerMessage.reply =
      stream.replies := by
    rw [← sound.answered, next, List.append_assoc]
    rfl
  unfold Stream.reply
  split
  · rename_i waiter waiting
    exact { sound with
      matched := sound.matched.reply waiting response
      answered
      closed := fun closed => by
        rw [(sound.closed closed).1] at waiting
        cases waiting }
  · rename_i unknown
    have closed : stream.pending.closed = true := by
      by_contra opened
      obtain ⟨posted, unread⟩ := sound.unread next
      obtain ⟨caller, waits⟩ := sound.expected (Bool.eq_false_iff.mpr opened) posted unread
      exact nomatch unknown.symm.trans waits
    exact { sound with
      matched := sound.matched.close [(id, response)]
      answered
      closed := fun _ => ⟨rfl, nofun⟩
      failed := fun _ => rfl
      honest := fun _ => (sound.closed closed).2 reading }

theorem Sound.step (sound : stream.Sound) (turn : Turn Request Response Event) :
    (stream.step encode turn).Sound := by
  cases turn with
  | request caller request =>
    unfold Stream.step
    dsimp only
    split
    · exact sound
    · rename_i new
      exact sound.register new request
  | post caller =>
    unfold Stream.step
    dsimp only
    split
    · rename_i found
      exact sound.post found rfl rfl
    · exact sound
  | settle caller =>
    unfold Stream.step whileWaiting
    dsimp only
    split
    · rename_i found
      split
      · exact sound.over found nofun nofun nofun fun _ same => by cases same; rfl
      · split
        · exact sound
        · exact sound.over found nofun nofun nofun nofun
    · exact sound
  | timeOut caller =>
    unfold Stream.step whileWaiting
    dsimp only
    split
    · rename_i found
      split
      · exact sound.over found nofun nofun nofun nofun
      · exact sound
    · exact sound
  | drop caller =>
    unfold Stream.step
    dsimp only
    split
    · rename_i found
      exact sound.over found (sound.named found nofun) nofun nofun nofun
    · rename_i found
      exact sound.over found (sound.named found nofun) nofun nofun nofun
    · exact sound
  | write =>
    unfold Stream.step
    dsimp only
    split
    · exact sound
    · rename_i next
      split
      · rename_i writing
        exact sound.write next writing.1
      · exact sound
  | writeFails =>
    unfold Stream.step
    dsimp only
    split
    · exact { sound with
        matched := sound.matched.shut
        complete := nofun
        failed := fun _ => rfl
        closed := fun _ => ⟨rfl, fun _ => rfl⟩
        honest := fun _ => rfl }
    · exact sound
  | read =>
    unfold Stream.step
    dsimp only
    split
    · rename_i idle next
      exact sound.serve idle next
    · exact sound
  | answer response =>
    unfold Stream.step
    dsimp only
    split
    · exact sound
    · rename_i busy
      exact sound.answer response busy
  | tell event =>
    exact { sound with
      answered := by
        show _ ++ List.filterMap _ (_ ++ _) = _
        rw [List.filterMap_append]
        exact (congrArg (_ ++ ·) (List.append_nil _)).trans sound.answered }
  | deliver =>
    unfold Stream.step
    dsimp only
    split
    · rename_i reads
      split
      · exact sound
      · rename_i next
        have answered := sound.answered
        rw [next] at answered
        exact { sound with answered }
      · rename_i next
        exact sound.reply reads.1 next
    · exact sound
  | hangUp =>
    unfold Stream.step
    dsimp only
    split
    · exact { sound with
        matched := sound.matched.shut
        closed := fun _ => ⟨rfl, nofun⟩
        failed := fun _ => rfl }
    · exact sound

theorem sound_new : ({} : Stream FrameError Request Response Event).Sound where
  matched := {
    kept := fun _ _ _ found => by cases found
    alone := fun _ _ _ _ _ found => by cases found
    waits := fun _ _ waiting => by cases waiting
    owned := List.forall_mem_nil _
    once := List.nodup_nil
    named := fun _ _ found => by cases found }
  inOrder := List.prefix_rfl
  complete _ := rfl
  answered := rfl
  closed := nofun
  failed := nofun
  honest := nofun

theorem sound_run (turns : List (Turn Request Response Event)) :
    (run (Stream.step encode) {} turns).Sound :=
  run_invariant _ Sound sound_new (fun _ turn sound => sound.step turn) turns

variable (stream) in
/-- Nothing is on its way. -/
def Quiet : Prop :=
  stream.outgoing = [] ∧ stream.toServer = [] ∧ stream.serving = none ∧ stream.toClient = []

/-- Who waits has the reply, unless it is on its way or the stream has closed. -/
theorem Sound.has_reply (sound : stream.Sound) (opened : stream.pending.closed = false)
    (quiet : stream.Quiet) {caller : Caller} {call : Call FrameError Request Response}
    (found : stream.calls.lookup caller = some call) {id : Nat} (mine : call.id = some id)
    (waits : call.stage = .waiting) : call.reply.isSome = true := by
  obtain ⟨outgoing, toServer, serving, toClient⟩ := quiet
  have kept := sound.matched.kept caller call id found mine
  refine kept.told opened waits ?_
  have writing : stream.writing = true :=
    Bool.eq_true_of_not_eq_false fun failed =>
      Bool.false_ne_true (opened.symm.trans (sound.failed failed))
  have posted : stream.handled.map Prod.fst = stream.posted := by
    have complete := sound.complete writing
    unfold received at complete
    rw [outgoing, toServer, serving] at complete
    simpa using complete
  have taken : stream.taken = stream.replies := by
    have answered := sound.answered
    rw [toClient] at answered
    simpa using answered
  have sent := kept.sent waits
  rw [← posted, List.map_map] at sent
  rw [taken, replies, List.map_map]
  exact sent

/-- A reply that a call ends with is the server's answer to what that call asked. -/
theorem Sound.own_reply (sound : stream.Sound) {caller : Caller}
    {call : Call FrameError Request Response} (found : stream.calls.lookup caller = some call)
    {id : Nat} (mine : call.id = some id) {response : Response}
    (ended : call.stage = .ended (.ok response)) :
    ((id, call.request), response) ∈ stream.handled := by
  have read := (sound.matched.kept caller call id found mine).heard response (.inr ended)
  have replied : (id, response) ∈ stream.replies := by
    rw [← sound.answered]
    exact List.mem_append_left _ read
  obtain ⟨entry, handled, same⟩ := List.mem_map.mp replied
  obtain ⟨⟨number, request⟩, _⟩ := entry
  obtain ⟨rfl, rfl⟩ := Prod.mk.inj same
  have posted : (number, request) ∈ stream.posted :=
    sound.inOrder.subset (List.mem_append_left _
      (List.mem_append_left _ (List.mem_map.mpr ⟨_, handled, rfl⟩)))
  obtain ⟨owner, another, known, its, asked⟩ := sound.matched.owned _ posted
  obtain rfl := sound.matched.alone _ _ _ _ _ found known mine its
  obtain rfl := Option.some.inj (found.symm.trans known)
  rwa [asked]

theorem setStage_lookup {caller : Caller} {call : Call FrameError Request Response}
    (found : stream.calls.lookup caller = some call) (stage : Stage FrameError Response) :
    (stream.setStage caller stage).calls.lookup caller = some { call with stage } := by
  show (stream.calls.modify caller _).lookup caller = _
  rw [Map.lookup_modify_self, found]
  rfl

/-- Once nothing is on its way or the stream has closed, who waits has its result. -/
theorem Sound.settles (sound : stream.Sound)
    (still : stream.Quiet ∨ stream.pending.closed = true) {caller : Caller}
    {call : Call FrameError Request Response} (found : stream.calls.lookup caller = some call)
    (waits : call.stage = .waiting) :
    ∃ result, (stream.step encode (.settle caller)).calls.lookup caller =
      some { call with stage := .ended result } := by
  obtain ⟨request, id, reply, stage⟩ := call
  obtain rfl : stage = .waiting := waits
  obtain ⟨id, rfl⟩ := Option.ne_none_iff_exists'.mp (sound.named found nofun)
  unfold Stream.step whileWaiting
  dsimp only
  rw [found]
  dsimp only
  cases reply with
  | some response => exact ⟨_, setStage_lookup found _⟩
  | none =>
    have closed : stream.pending.closed = true := by
      by_contra opened
      have quiet := still.resolve_right opened
      exact Bool.false_ne_true
        (sound.has_reply (Bool.eq_false_iff.mpr opened) quiet found rfl rfl)
    rw [(sound.closed closed).1, if_neg nofun]
    exact ⟨_, setStage_lookup found _⟩

variable (encode) in
/-- A call that ends with a reply has the server's answer to its own request; the server
gets what is queued in its order, each frame is one call's, and no two have one id; the client
finds no unknown reply unless its own writing has failed; and whoever waits while nothing is on
its way, or on a closed stream, has its result. -/
theorem run_replies (turns : List (Turn Request Response Event)) :
    let stream := run (step encode) ({} : Stream FrameError Request Response Event) turns
    (∀ caller call response, stream.calls.lookup caller = some call →
        call.stage = .ended (.ok response) →
        ∃ id, call.id = some id ∧ ((id, call.request), response) ∈ stream.handled) ∧
      stream.handled.map Prod.fst <+: stream.posted ∧
      (stream.posted.map Prod.fst).Nodup ∧
      (∀ frame ∈ stream.posted, ∃! caller, ∃ call, stream.calls.lookup caller = some call ∧
        call.id = some frame.1 ∧ call.request = frame.2) ∧
      (stream.unknown = true → stream.writing = false) ∧
      (stream.pending.closed = true → stream.pending.waiting = ∅) ∧
      (stream.Quiet ∨ stream.pending.closed = true → ∀ caller call,
        stream.calls.lookup caller = some call → call.stage = .waiting →
        ∃ result, (stream.step encode (.settle caller)).calls.lookup caller =
          some { call with stage := .ended result }) := by
  intro stream
  have sound : stream.Sound := sound_run turns
  refine ⟨fun caller call response found ended => ?_,
    (List.prefix_append_of_prefix (List.prefix_append _ _)).trans sound.inOrder,
    sound.matched.once, fun frame member => ?_, sound.honest, fun closed => (sound.closed closed).1,
    fun still caller call found waits => sound.settles still found waits⟩
  · obtain ⟨id, mine⟩ := Option.ne_none_iff_exists'.mp (sound.named found (ended ▸ nofun))
    exact ⟨id, mine, sound.own_reply found mine ended⟩
  · obtain ⟨caller, call, found, mine, asked⟩ := sound.matched.owned frame member
    refine ⟨caller, ⟨call, found, mine, asked⟩, fun other another => ?_⟩
    obtain ⟨another, known, its, _⟩ := another
    exact sound.matched.alone other another caller call frame.1 known found its mine

/-- Two tasks ask, and queue their frames the other way round. The first runs out of time, and
its late reply is dropped. -/
def overtakes : List (Turn Nat Nat Unit) :=
  [.request 0 10, .request 1 11, .post 1, .post 0, .write, .write, .timeOut 0, .read, .answer 21,
    .read, .answer 20, .deliver, .deliver, .settle 1]

theorem run_replies_overtakes :
    let stream := run (step fun _ => .ok ()) ({} : Stream Unit Nat Nat Unit) overtakes
    ∃ id, some 1 = some id ∧ ((id, 11), 21) ∈ stream.handled :=
  (run_replies (fun _ => .ok ()) overtakes).1 1
    { request := 11, id := some 1, reply := some 21, stage := .ended (.ok 21) } 21 rfl rfl

end Stream

end ControlLink

end Throcc
