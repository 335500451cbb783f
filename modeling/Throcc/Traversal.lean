/-
This file holds a search through a graph that takes nodes off a queue and
queues what follows them. If it may take as many turns as there are nodes to
find, it finds exactly those that a chain of steps leads to.
-/

import Mathlib.Data.Finset.Card
import Mathlib.Data.List.Nodup
import Mathlib.Logic.Relation

namespace Throcc

variable {Node : Type} [DecidableEq Node]

/-- Takes nodes off a queue, and queues those after each that are neither found nor queued. -/
def traverse (next : Node → List Node) : Nat → List Node → List Node → List Node
  | 0, _, found => found
  | _ + 1, [], found => found
  | turns + 1, node :: queue, found =>
    let fresh := (next node).filter fun other => other ∉ found ∧ other ∉ node :: queue
    traverse next turns (queue ++ fresh) (found ++ [node])

/-- A step leads from one node to another. -/
def Follows (next : Node → List Node) (node other : Node) : Prop := other ∈ next node

/-- What has been found and queued of the nodes after a start. -/
structure Searching (next : Node → List Node) (start : Node) (queue found : List Node) : Prop where
  distinct : (found ++ queue).Nodup
  starts : start ∈ found ++ queue
  reached : ∀ node ∈ found ++ queue, Relation.ReflTransGen (Follows next) start node
  closed : ∀ node ∈ found, ∀ other ∈ next node, other ∈ found ++ queue

namespace Searching

variable {next : Node → List Node} {start : Node} {queue found : List Node}

omit [DecidableEq Node] in
theorem initially (next : Node → List Node) (start : Node) : Searching next start [start] [] where
  distinct := List.nodup_singleton start
  starts := List.mem_singleton_self start
  reached node member := by
    rw [List.nil_append, List.mem_singleton] at member
    rw [member]
  closed := nofun

theorem turn {node : Node} (searching : Searching next start (node :: queue) found)
    (once : (next node).Nodup) :
    Searching next start
      (queue ++ (next node).filter fun other => other ∉ found ∧ other ∉ node :: queue)
      (found ++ [node]) := by
  generalize same : ((next node).filter fun other => other ∉ found ∧ other ∉ node :: queue) = fresh
  have freshly : ∀ other, other ∈ fresh ↔ other ∈ next node ∧ other ∉ found ++ node :: queue := by
    intro other
    rw [← same, List.mem_filter, decide_eq_true_eq, List.mem_append, not_or]
  have order : found ++ [node] ++ (queue ++ fresh) = found ++ node :: queue ++ fresh := by
    simp only [List.append_assoc, List.cons_append, List.nil_append]
  refine { distinct := ?_, starts := ?_, reached := ?_, closed := ?_ } <;> rw [order]
  · refine List.nodup_append.mpr ⟨searching.distinct, same ▸ once.filter _, ?_⟩
    rintro first isFirst second isSecond rfl
    exact ((freshly first).mp isSecond).2 isFirst
  · exact List.mem_append_left _ searching.starts
  · intro other member
    rcases List.mem_append.mp member with before | new
    · exact searching.reached other before
    · have here : node ∈ found ++ node :: queue :=
        List.mem_append_right _ List.mem_cons_self
      exact (searching.reached node here).tail ((freshly other).mp new).1
  · intro other isFound after follows
    rcases List.mem_append.mp isFound with before | here
    · exact List.mem_append_left _ (searching.closed other before after follows)
    · rw [List.mem_singleton] at here
      rw [here] at follows
      by_cases known : after ∈ found ++ node :: queue
      · exact List.mem_append_left _ known
      · exact List.mem_append_right _ ((freshly after).mpr ⟨follows, known⟩)

/-- With enough turns the queue runs empty. -/
theorem traverse (searching : Searching next start queue found)
    (once : ∀ node, (next node).Nodup) {nodes : Finset Node}
    (within : ∀ node, Relation.ReflTransGen (Follows next) start node → node ∈ nodes)
    {turns : Nat} (enough : nodes.card ≤ found.length + turns) :
    Searching next start [] (traverse next turns queue found) := by
  induction turns generalizing queue found with
  | zero =>
    have fits : (found ++ queue).toFinset ⊆ nodes := by
      intro node member
      exact within node (searching.reached node (List.mem_toFinset.mp member))
    have few := Finset.card_le_card fits
    rw [List.toFinset_card_of_nodup searching.distinct, List.length_append] at few
    have empty : queue = [] := List.eq_nil_of_length_eq_zero (by omega)
    subst empty
    exact searching
  | succ turns inductionHypothesis =>
    cases queue with
    | nil => exact searching
    | cons node queue =>
      refine inductionHypothesis (searching.turn (once node)) ?_
      rw [List.length_append, List.length_singleton]
      omega

end Searching

end Throcc
