/-
This file holds the induction rules for runs of a deterministic step function:
an invariant of every step is an invariant of every run, and an invariant of
the steps that meet a condition is one of the runs whose steps all meet it. It
also holds those for loops, which step until the step says to stop.
-/

import Mathlib.Data.List.Basic
import Mathlib.Logic.Relation

namespace Throcc

variable {State Input : Type}

/-- The state a list of inputs leads to. -/
def run (step : State → Input → State) (start : State) (inputs : List Input) : State :=
  inputs.foldl step start

variable (step : State → Input → State)

@[simp] theorem run_nil (start : State) : run step start [] = start := rfl

@[simp] theorem run_cons (start : State) (input : Input) (inputs : List Input) :
    run step start (input :: inputs) = run step (step start input) inputs := rfl

theorem run_append (start : State) (first second : List Input) :
    run step start (first ++ second) = run step (run step start first) second :=
  List.foldl_append

theorem run_concat (start : State) (inputs : List Input) (input : Input) :
    run step start (inputs ++ [input]) = step (run step start inputs) input := by
  rw [run_append]
  rfl

/-- The run that only records its inputs. -/
theorem run_record (start inputs : List Input) :
    run (fun earlier input => earlier ++ [input]) start inputs = start ++ inputs := by
  induction inputs generalizing start with
  | nil => exact (List.append_nil start).symm
  | cons input rest inductionHypothesis =>
    rw [run_cons, inductionHypothesis, List.append_assoc, List.singleton_append]

/-- A property that holds at the start and that every step preserves holds after every run. -/
theorem run_invariant (holds : State → Prop) {start : State} (initially : holds start)
    (preserved : ∀ state input, holds state → holds (step state input)) (inputs : List Input) :
    holds (run step start inputs) := by
  induction inputs generalizing start with
  | nil => exact initially
  | cons input rest inductionHypothesis =>
    exact inductionHypothesis (preserved _ _ initially)

/-- Every step of the run meets a condition on the state before it and its input. -/
def Along (condition : State → Input → Prop) : State → List Input → Prop
  | _, [] => True
  | state, input :: rest => condition state input ∧ Along condition (step state input) rest

instance Along.decidable (condition : State → Input → Prop)
    [∀ state input, Decidable (condition state input)] :
    ∀ start inputs, Decidable (Along step condition start inputs)
  | _, [] => .isTrue True.intro
  | start, input :: rest =>
    have := Along.decidable condition (step start input) rest
    inferInstanceAs (Decidable (condition start input ∧ Along step condition (step start input) rest))

variable {step}

theorem Along.append {condition : State → Input → Prop} {start : State}
    {first second : List Input} :
    Along step condition start (first ++ second) ↔
      Along step condition start first ∧ Along step condition (run step start first) second := by
  induction first generalizing start with
  | nil => simp [Along]
  | cons input rest inductionHypothesis =>
    rw [List.cons_append, Along, Along, inductionHypothesis, run_cons, and_assoc]

/-- A condition on inputs alone holds along every run of inputs that meet it. -/
theorem Along.of_forall {condition : Input → Prop} {start : State} {inputs : List Input}
    (all : ∀ input ∈ inputs, condition input) :
    Along step (fun _ input => condition input) start inputs := by
  induction inputs generalizing start with
  | nil => trivial
  | cons input rest inductionHypothesis =>
    rw [List.forall_mem_cons] at all
    exact ⟨all.1, inductionHypothesis all.2⟩

/-- A weaker condition holds along a run too. -/
theorem Along.mono {condition weaker : State → Input → Prop} {start : State}
    {inputs : List Input} (implies : ∀ state input, condition state input → weaker state input)
    (along : Along step condition start inputs) : Along step weaker start inputs := by
  induction inputs generalizing start with
  | nil => trivial
  | cons input rest inductionHypothesis =>
    exact ⟨implies _ _ along.1, inductionHypothesis along.2⟩

/-- Two conditions that hold along a run hold along it together. -/
theorem Along.and {condition other : State → Input → Prop} {start : State} {inputs : List Input}
    (along : Along step condition start inputs) (along' : Along step other start inputs) :
    Along step (fun state input => condition state input ∧ other state input) start inputs := by
  induction inputs generalizing start with
  | nil => trivial
  | cons input rest inductionHypothesis =>
    exact ⟨⟨along.1, along'.1⟩, inductionHypothesis along.2 along'.2⟩

/-- A property that holds at the start and that every step meeting a condition preserves
holds after every run whose steps all meet the condition. -/
theorem Along.invariant {condition : State → Input → Prop} (holds : State → Prop) {start : State}
    {inputs : List Input} (along : Along step condition start inputs) (initially : holds start)
    (preserved : ∀ state input, holds state → condition state input → holds (step state input)) :
    holds (run step start inputs) := by
  induction inputs generalizing start with
  | nil => exact initially
  | cons input rest inductionHypothesis =>
    exact inductionHypothesis along.2 (preserved _ _ initially along.1)

/-- What holds along a run holds along the one that records its inputs. -/
theorem Along.record {condition : State → Input → Prop} {start : State}
    {earlier inputs : List Input} (along : Along step condition (run step start earlier) inputs) :
    Along (fun earlier input => earlier ++ [input])
      (fun earlier input => condition (run step start earlier) input) earlier inputs := by
  induction inputs generalizing earlier with
  | nil => trivial
  | cons input rest inductionHypothesis =>
    refine ⟨along.1, inductionHypothesis ?_⟩
    rw [run_concat]
    exact along.2

/-- Something has begun in the course of a run, and what would end it hasn't happened since. -/
def Since (step : State → Input → State) (begins ends : State → Input → Prop) (start : State)
    (inputs : List Input) : Prop :=
  ∃ earlier first later, inputs = earlier ++ first :: later ∧
    begins (run step start earlier) first ∧
    Along step (fun state input => ¬ ends state input) (run step start (earlier ++ [first])) later

theorem since_concat {begins ends : State → Input → Prop} {start : State} {inputs : List Input}
    {input : Input} :
    Since step begins ends start (inputs ++ [input]) ↔
      begins (run step start inputs) input ∨
        Since step begins ends start inputs ∧ ¬ ends (run step start inputs) input := by
  constructor
  · rintro ⟨earlier, first, later, same, began, along⟩
    rcases List.eq_nil_or_concat later with rfl | ⟨rest, last, rfl⟩
    · obtain ⟨rfl, last⟩ := List.append_inj' same rfl
      obtain rfl := List.singleton_injective last
      exact .inl began
    · have same : inputs ++ [input] = (earlier ++ first :: rest) ++ [last] := by
        rw [same, List.concat_eq_append, List.append_assoc, List.cons_append]
      obtain ⟨rfl, mine⟩ := List.append_inj' same rfl
      obtain rfl := List.singleton_injective mine
      rw [List.concat_eq_append] at along
      obtain ⟨along, still, _⟩ := Along.append.mp along
      rw [← run_append, List.append_assoc, List.singleton_append] at still
      exact .inr ⟨⟨earlier, first, rest, rfl, began, along⟩, still⟩
  · rintro (began | ⟨⟨earlier, first, later, rfl, began, along⟩, still⟩)
    · exact ⟨inputs, input, [], rfl, began, trivial⟩
    · refine ⟨earlier, first, later ++ [input], by simp, began, Along.append.mpr ⟨along, ?_, trivial⟩⟩
      rw [← run_append, List.append_assoc, List.singleton_append]
      exact still

/-! ### Loops -/

/-- Steps until the step says to stop, at most `fuel` times. -/
def loop (step : State → Option State) : Nat → State → State
  | 0, state => state
  | fuel + 1, state =>
    match step state with
    | some next => loop step fuel next
    | none => state

theorem loop_invariant {step : State → Option State} (holds : State → Prop) {start : State}
    (initially : holds start)
    (preserved : ∀ state next, holds state → step state = some next → holds next) (fuel : Nat) :
    holds (loop step fuel start) := by
  induction fuel generalizing start with
  | zero => exact initially
  | succ fuel inductionHypothesis =>
    unfold loop
    split
    · rename_i next stepped
      exact inductionHypothesis (preserved start next initially stepped)
    · exact initially

theorem loop_of_ended {step : State → Option State} {start : State} (ended : step start = none)
    (fuel : Nat) : loop step fuel start = start := by
  cases fuel with
  | zero => rfl
  | succ fuel =>
    unfold loop
    rw [ended]

/-- A loop whose steps make a measure smaller ends, and with as much fuel as the measure it
ends because its step says so. -/
theorem loop_stops {step : State → Option State} (holds : State → Prop) (measure : State → Nat)
    (preserved : ∀ state next, holds state → step state = some next → holds next)
    (decreases : ∀ state next, holds state → step state = some next →
      measure next < measure state)
    {start : State} {fuel : Nat} (initially : holds start) (enough : measure start ≤ fuel) :
    step (loop step fuel start) = none := by
  induction fuel generalizing start with
  | zero =>
    cases stepped : step start with
    | none => exact stepped
    | some next =>
      have smaller := decreases start next initially stepped
      omega
  | succ fuel inductionHypothesis =>
    unfold loop
    split
    · rename_i next stepped
      have smaller := decreases start next initially stepped
      exact inductionHypothesis (preserved start next initially stepped) (by omega)
    · assumption

/-- A loop follows another one step by step. -/
theorem loop_map {Other : Type} {step : State → Option State} {step' : Other → Option Other}
    (map : State → Other) (holds : State → Prop)
    (preserved : ∀ state next, holds state → step state = some next → holds next)
    (follows : ∀ state, holds state → step' (map state) = (step state).map map) {start : State}
    (initially : holds start) (fuel : Nat) :
    loop step' fuel (map start) = map (loop step fuel start) := by
  induction fuel generalizing start with
  | zero => rfl
  | succ fuel inductionHypothesis =>
    unfold loop
    rw [follows start initially]
    cases stepped : step start with
    | none => rfl
    | some next => exact inductionHypothesis (preserved start next initially stepped)

/-- A step that adds what it gains to an item beside the state. -/
def beside {Item : Type} (step : State → Option State) (gain : State → Item → Item)
    (both : State × Item) : Option (State × Item) :=
  (step both.1).map fun next => (next, gain both.1 both.2)

/-- What is beside the state doesn't change the loop, and what every step preserves of both
holds at the end. -/
theorem loop_beside {Item : Type} {step : State → Option State} {gain : State → Item → Item}
    (holds : State → Item → Prop) {start : State} {item : Item} (initially : holds start item)
    (preserved : ∀ state next item, holds state item → step state = some next →
      holds next (gain state item)) (fuel : Nat) :
    holds (loop step fuel start) (loop (beside step gain) fuel (start, item)).2 := by
  have follows : ∀ both : State × Item, True →
      step both.1 = (beside step gain both).map Prod.fst := by
    intro both _
    unfold beside
    rw [Option.map_map]
    exact Option.map_id'.symm
  have same : loop step fuel (Prod.fst (start, item)) =
      (loop (beside step gain) fuel (start, item)).1 :=
    loop_map Prod.fst (fun _ => True) (fun _ _ _ _ => trivial) follows trivial fuel
  dsimp only at same
  rw [same]
  refine loop_invariant (fun both : State × Item => holds both.1 both.2) initially
    (fun both next before stepped => ?_) fuel
  obtain ⟨state, advanced, rfl⟩ := Option.map_eq_some_iff.mp stepped
  exact preserved both.1 state both.2 before advanced

/-- What a loop ends, one of its steps ends. -/
theorem loop_changes {step : State → Option State} (holds : State → Prop) {start : State}
    {fuel : Nat} (initially : holds start) (ended : ¬ holds (loop step fuel start)) :
    ∃ state next, Relation.ReflTransGen (fun state next => step state = some next) start state ∧
      step state = some next ∧ holds state ∧ ¬ holds next := by
  induction fuel generalizing start with
  | zero => exact absurd initially ended
  | succ fuel inductionHypothesis =>
    unfold loop at ended
    split at ended
    · rename_i next stepped
      by_cases still : holds next
      · obtain ⟨state, last, steps, rest⟩ := inductionHypothesis still ended
        exact ⟨state, last, Relation.ReflTransGen.head stepped steps, rest⟩
      · exact ⟨start, next, Relation.ReflTransGen.refl, stepped, initially, still⟩
    · exact absurd initially ended

/-- A loop ends where its steps lead. -/
theorem loop_steps (step : State → Option State) (fuel : Nat) (start : State) :
    Relation.ReflTransGen (fun state next => step state = some next) start
      (loop step fuel start) := by
  induction fuel generalizing start with
  | zero => exact Relation.ReflTransGen.refl
  | succ fuel inductionHypothesis =>
    unfold loop
    split
    · rename_i next stepped
      exact Relation.ReflTransGen.head stepped (inductionHypothesis next)
    · exact Relation.ReflTransGen.refl

end Throcc
