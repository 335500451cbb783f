/-
This file holds computations that may fail and keep the state they reached, and
the rules to reason about them: `Ends` says what holds of the state after a
success and after a failure, and every way to build a computation has a rule
that says when that is so. `Follows` relates the state a computation leaves,
however it ends, to the one it started in.
-/

import Mathlib.Order.Defs.Unbundled

namespace Throcc

/-- A computation on a state that gives a result or fails. -/
def Attempt (State Failure Result : Type) := State → Except Failure Result × State

namespace Attempt

variable {State Failure Result Other Item : Type}

instance : Monad (Attempt State Failure) where
  pure result := fun state => (.ok result, state)
  bind first next := fun state =>
    match first state with
    | (.ok result, state) => next result state
    | (.error failure, state) => (.error failure, state)

def fail (failure : Failure) : Attempt State Failure Result := fun state => (.error failure, state)

/-- The state. -/
def current : Attempt State Failure State := fun state => (.ok state, state)

def change (update : State → State) : Attempt State Failure Unit := fun state =>
  (.ok (), update state)

/-- Updates the state and returns what the update gives. -/
def take (update : State → Result × State) : Attempt State Failure Result := fun state =>
  (.ok (update state).1, (update state).2)

def require (allowed : Bool) (failure : Failure) : Attempt State Failure Unit :=
  if allowed then pure () else fail failure

/-- `Option::ok_or`. -/
def okOr (option : Option Result) (failure : Failure) : Attempt State Failure Result :=
  match option with
  | some result => pure result
  | none => fail failure

/-- Acts only if asked to. -/
def onlyIf (asked : Bool) (action : Attempt State Failure Unit) : Attempt State Failure Unit :=
  if asked then action else pure ()

/-- Acts on every item in order, up to the first failure. -/
def forEach (action : Item → Attempt State Failure Unit) : List Item → Attempt State Failure Unit
  | [] => pure ()
  | item :: rest => do
    action item
    forEach action rest

/-! ### How computations end -/

/-- From `state`, a success ends in what `ok` asks and a failure in what `failed` asks. -/
def Ends (computation : Attempt State Failure Result) (ok : Result → State → Prop)
    (failed : Failure → State → Prop) (state : State) : Prop :=
  match computation state with
  | (.ok result, after) => ok result after
  | (.error failure, after) => failed failure after

namespace Ends

variable {ok : Result → State → Prop} {failed : Failure → State → Prop} {holds : State → Prop}
  {state : State}

theorem of_ok {computation : Attempt State Failure Result} (ends : computation.Ends ok failed state)
    {result : Result} {after : State} (same : computation state = (.ok result, after)) :
    ok result after := by
  unfold Ends at ends
  rw [same] at ends
  exact ends

theorem of_error {computation : Attempt State Failure Result}
    (ends : computation.Ends ok failed state) {failure : Failure} {after : State}
    (same : computation state = (.error failure, after)) : failed failure after := by
  unfold Ends at ends
  rw [same] at ends
  exact ends

theorem of_success {computation : Attempt State Failure Result}
    (ends : computation.Ends ok failed state) (success : (computation state).1.isOk = true) :
    ∃ result, ok result (computation state).2 := by
  unfold Ends at ends
  generalize computation state = outcome at ends success
  obtain ⟨failure | result, after⟩ := outcome
  · cases success
  · exact ⟨result, ends⟩

theorem of_isOk {computation : Attempt State Failure Result}
    (ends : computation.Ends (fun _ _ => True) (fun _ after => holds after) state)
    (isError : (computation state).1.isOk = false) : holds (computation state).2 := by
  unfold Ends at ends
  generalize computation state = outcome at ends isError
  obtain ⟨failure | result, after⟩ := outcome
  · exact ends
  · cases isError

theorem bind {first : Attempt State Failure Result} {next : Result → Attempt State Failure Other}
    {ok : Other → State → Prop}
    (ends : first.Ends (fun result after => (next result).Ends ok failed after) failed state) :
    (first >>= next).Ends ok failed state := by
  unfold Ends at ends ⊢
  show match (match first state with
    | (.ok result, state) => next result state
    | (.error failure, state) => (.error failure, state)) with
    | (.ok result, after) => ok result after
    | (.error failure, after) => failed failure after
  generalize first state = outcome at ends
  obtain ⟨failure | result, after⟩ := outcome
  · exact ends
  · exact ends

theorem pure {result : Result} (holds : ok result state) :
    (Pure.pure result : Attempt State Failure Result).Ends ok failed state := holds

theorem fail {failure : Failure} (holds : failed failure state) :
    (fail failure : Attempt State Failure Result).Ends ok failed state := holds

theorem current {ok : State → State → Prop} (holds : ok state state) :
    (Attempt.current : Attempt State Failure State).Ends ok failed state := holds

theorem change {ok : Unit → State → Prop} {update : State → State}
    (holds : ok () (update state)) : (Attempt.change update).Ends ok failed state := holds

theorem take {update : State → Result × State}
    (holds : ok (update state).1 (update state).2) :
    (Attempt.take update).Ends ok failed state := holds

theorem require_cases {ok : Unit → State → Prop} {allowed : Bool} {failure : Failure}
    (holds : allowed = true → ok () state) (fails : allowed = false → failed failure state) :
    (Attempt.require allowed failure).Ends ok failed state := by
  unfold Attempt.require
  cases allowed with
  | true => exact holds rfl
  | false => exact fails rfl

theorem require {ok : Unit → State → Prop} {allowed : Bool} {failure : Failure}
    (holds : allowed = true → ok () state) (fails : failed failure state) :
    (Attempt.require allowed failure).Ends ok failed state := require_cases holds fun _ => fails

theorem okOr_cases {option : Option Result} {failure : Failure}
    (holds : ∀ result, option = some result → ok result state)
    (fails : option = none → failed failure state) :
    (Attempt.okOr option failure).Ends ok failed state := by
  unfold Attempt.okOr
  cases option with
  | some result => exact holds result rfl
  | none => exact fails rfl

theorem okOr {option : Option Result} {failure : Failure}
    (holds : ∀ result, option = some result → ok result state)
    (fails : failed failure state) : (Attempt.okOr option failure).Ends ok failed state :=
  okOr_cases holds fun _ => fails

theorem onlyIf {ok : Unit → State → Prop} {asked : Bool} {action : Attempt State Failure Unit}
    (acts : asked = true → action.Ends ok failed state) (skips : asked = false → ok () state) :
    (Attempt.onlyIf asked action).Ends ok failed state := by
  unfold Attempt.onlyIf
  cases asked with
  | true => exact acts rfl
  | false => exact skips rfl

/-- What holds after a success and after a failure holds after the computation. -/
theorem after {computation : Attempt State Failure Result} {holds : State → Prop}
    (ends : computation.Ends (fun _ => holds) (fun _ => holds) state) :
    holds (computation state).2 := by
  unfold Ends at ends
  generalize computation state = outcome at ends
  obtain ⟨failure | result, after⟩ := outcome
  · exact ends
  · exact ends

/-- A weaker ending. -/
theorem mono {computation : Attempt State Failure Result}
    (ends : computation.Ends ok failed state) {weakerOk : Result → State → Prop}
    {weakerFailed : Failure → State → Prop}
    (onOk : ∀ result after, ok result after → weakerOk result after)
    (onError : ∀ failure after, failed failure after → weakerFailed failure after) :
    computation.Ends weakerOk weakerFailed state := by
  unfold Ends at ends ⊢
  generalize computation state = outcome at ends
  obtain ⟨failure | result, after⟩ := outcome
  · exact onError _ _ ends
  · exact onOk _ _ ends

/-- What holds of every ending. -/
theorem of_all {computation : Attempt State Failure Result}
    (onOk : ∀ result after, ok result after) (onError : ∀ failure after, failed failure after) :
    computation.Ends ok failed state := by
  unfold Ends
  split
  · exact onOk _ _
  · exact onError _ _

theorem and {computation : Attempt State Failure Result} {ok' : Result → State → Prop}
    {failed' : Failure → State → Prop} (ends : computation.Ends ok failed state)
    (ends' : computation.Ends ok' failed' state) :
    computation.Ends (fun result after => ok result after ∧ ok' result after)
      (fun failure after => failed failure after ∧ failed' failure after) state := by
  unfold Ends at ends ends' ⊢
  generalize computation state = outcome at ends ends'
  obtain ⟨failure | result, after⟩ := outcome
  · exact ⟨ends, ends'⟩
  · exact ⟨ends, ends'⟩

theorem map {computation : Attempt State Failure Result} {convert : Result → Other}
    {ok : Other → State → Prop}
    (ends : computation.Ends (fun result after => ok (convert result) after) failed state) :
    (convert <$> computation).Ends ok failed state :=
  bind (ends.mono (fun _ _ holds => pure holds) fun _ _ holds => holds)

/-- What every action keeps, the loop keeps, whether it ends or fails half way. -/
theorem forEach {holds : State → Prop} {action : Item → Attempt State Failure Unit}
    (kept : ∀ item state, holds state →
      (action item).Ends (fun _ => holds) (fun _ => holds) state)
    (items : List Item) {state : State} (start : holds state) :
    (Attempt.forEach action items).Ends (fun _ => holds) (fun _ => holds) state := by
  induction items generalizing state with
  | nil => exact start
  | cons item rest inductionHypothesis =>
    refine bind ((kept item state start).mono ?_ fun _ _ still => still)
    exact fun _ _ still => inductionHypothesis still

/-- What every action shows of its item holds of all items, if the loop ends. -/
theorem forEach_all {holds : State → Prop} {shown : Item → Prop}
    {action : Item → Attempt State Failure Unit}
    (kept : ∀ item state, holds state →
      (action item).Ends (fun _ after => holds after ∧ shown item) (fun _ => holds) state)
    (items : List Item) {state : State} (start : holds state) :
    (Attempt.forEach action items).Ends (fun _ after => holds after ∧ ∀ item ∈ items, shown item)
      (fun _ => holds) state := by
  induction items generalizing state with
  | nil => exact ⟨start, nofun⟩
  | cons item rest inductionHypothesis =>
    refine bind ((kept item state start).mono ?_ fun _ _ still => still)
    rintro _ after ⟨still, first⟩
    refine (inductionHypothesis still).mono ?_ fun _ _ still => still
    exact fun _ _ ⟨still, others⟩ => ⟨still, List.forall_mem_cons.mpr ⟨first, others⟩⟩

end Ends

attribute [irreducible] Ends

/-! ### Where computations lead -/

/-- However the computation ends, the state it leaves is related to the one it started in. -/
def Follows (relation : State → State → Prop) (computation : Attempt State Failure Result) :
    Prop := ∀ state, relation state (computation state).2

namespace Follows

variable {relation : State → State → Prop}

theorem change {update : State → State} (related : ∀ state, relation state (update state)) :
    (Attempt.change update : Attempt State Failure Unit).Follows relation := related

theorem take {update : State → Result × State}
    (related : ∀ state, relation state (update state).2) :
    (Attempt.take update : Attempt State Failure Result).Follows relation := related

theorem ends {computation : Attempt State Failure Result} (follows : computation.Follows relation)
    (state : State) :
    computation.Ends (fun _ after => relation state after) (fun _ after => relation state after)
      state := by
  have related := follows state
  unfold Ends
  generalize computation state = outcome at related
  obtain ⟨failure | result, after⟩ := outcome
  · exact related
  · exact related

variable [IsPreorder State relation]

theorem bind {first : Attempt State Failure Result} {next : Result → Attempt State Failure Other}
    (follows : first.Follows relation) (rest : ∀ result, (next result).Follows relation) :
    (first >>= next).Follows relation := by
  intro state
  have before := follows state
  show relation state (match first state with
    | (.ok result, state) => next result state
    | (.error failure, state) => (.error failure, state)).2
  generalize first state = outcome at before
  obtain ⟨failure | result, after⟩ := outcome
  · exact before
  · exact trans_of relation before (rest result after)

theorem pure {result : Result} :
    (Pure.pure result : Attempt State Failure Result).Follows relation := refl_of relation

theorem fail {failure : Failure} :
    (fail failure : Attempt State Failure Result).Follows relation := refl_of relation

theorem current : (Attempt.current : Attempt State Failure State).Follows relation :=
  refl_of relation

theorem require {allowed : Bool} {failure : Failure} :
    (Attempt.require allowed failure : Attempt State Failure Unit).Follows relation := by
  unfold Attempt.require
  split
  · exact pure
  · exact fail

theorem okOr {option : Option Result} {failure : Failure} :
    (Attempt.okOr option failure : Attempt State Failure Result).Follows relation := by
  unfold Attempt.okOr
  split
  · exact pure
  · exact fail

theorem onlyIf {asked : Bool} {action : Attempt State Failure Unit}
    (follows : action.Follows relation) : (Attempt.onlyIf asked action).Follows relation := by
  unfold Attempt.onlyIf
  split
  · exact follows
  · exact pure

theorem map {change : Result → Other} {computation : Attempt State Failure Result}
    (follows : computation.Follows relation) : (change <$> computation).Follows relation :=
  bind follows fun _ => pure

theorem forEach {action : Item → Attempt State Failure Unit} {items : List Item}
    (follows : ∀ item ∈ items, (action item).Follows relation) :
    (Attempt.forEach action items).Follows relation := by
  induction items with
  | nil => exact pure
  | cons item rest inductionHypothesis =>
    refine bind (follows item List.mem_cons_self) fun _ => inductionHypothesis ?_
    exact fun other member => follows other (List.mem_cons_of_mem _ member)

end Follows

/-! ### What computations leave alone -/

/-- The second state looks like the first. -/
def Alike {View : Type} (view : State → View) (before after : State) : Prop :=
  view after = view before

instance {View : Type} (view : State → View) : IsPreorder State (Alike view) where
  refl _ := rfl
  trans _ _ _ before after := after.trans before

/-- However the computation ends, a view of the state is what it was. -/
def Keeps {View : Type} (view : State → View) (computation : Attempt State Failure Result) : Prop :=
  computation.Follows (Alike view)

namespace Keeps

variable {View : Type} {view : State → View}

theorem ends {computation : Attempt State Failure Result} (keeps : computation.Keeps view)
    (state : State) :
    computation.Ends (fun _ after => view after = view state)
      (fun _ after => view after = view state) state := Follows.ends keeps state

end Keeps

end Attempt

end Throcc
