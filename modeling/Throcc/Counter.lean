/-
This file holds counters: maps from keys to how many items of that key there are,
in which no key stands for none. A counter that follows the items that come and go
counts each key as often as the items hold it.
-/

import Throcc.Map

namespace Throcc

/-- How many items there are of each key. -/
abbrev Counter (Key : Type) := Map Key Nat

namespace Counter

variable {Key : Type} [DecidableEq Key] (counter : Counter Key)

def count (key : Key) : Nat := (counter.lookup key).getD 0

def add (key : Key) : Counter Key := counter.insert key (counter.count key + 1)

def remove (key : Key) : Counter Key :=
  match counter.lookup key with
  | none => counter
  | some count => if count - 1 = 0 then counter.erase key else counter.insert key (count - 1)

/-- The counter counts these items, and lists no key of which there is none. -/
def Counts (items : List Key) : Prop :=
  ∀ key, counter.lookup key = if items.count key = 0 then none else some (items.count key)

theorem counts_empty : Counts (∅ : Counter Key) [] := fun _ => rfl

variable {counter} {items : List Key}

@[simp] theorem Counts.count (counts : counter.Counts items) (key : Key) :
    counter.count key = items.count key := by
  unfold Counter.count
  rw [counts key]
  split
  · rename_i none
    exact none.symm
  · rfl

theorem Counts.add (counts : counter.Counts items) (key : Key) :
    (counter.add key).Counts (key :: items) := by
  intro other
  unfold Counter.add
  rw [Map.lookup_insert_ite, counts.count, List.count_cons]
  by_cases same : other = key
  · simp [same]
  · have different : (key == other) = false := beq_eq_false_iff_ne.mpr (Ne.symm same)
    rw [if_neg same, counts other, different, if_neg Bool.false_ne_true, Nat.add_zero]

theorem Counts.remove (counts : counter.Counts items) {key : Key} (member : key ∈ items) :
    (counter.remove key).Counts (items.erase key) := by
  have some := counts key
  rw [if_neg (List.count_pos_iff.mpr member).ne'] at some
  intro other
  unfold Counter.remove
  rw [some]
  dsimp only
  by_cases same : other = key
  · rw [same, List.count_erase_self]
    split
    · exact Finmap.lookup_erase key counter
    · exact Finmap.lookup_insert counter
  · rw [List.count_erase_of_ne same, ← counts other]
    split
    · exact Finmap.lookup_erase_ne same
    · exact Finmap.lookup_insert_of_ne counter same

/-- The order of the items doesn't count. -/
theorem Counts.of_perm (counts : counter.Counts items) {others : List Key}
    (perm : items.Perm others) : counter.Counts others := by
  intro key
  rw [counts key, perm.count_eq]

/-- Counting out the key of an item that goes. -/
theorem Counts.remove_map {Item : Type} [DecidableEq Item] {key : Item → Key} {items : List Item}
    (counts : counter.Counts (items.map key)) {item : Item} (member : item ∈ items) :
    (counter.remove (key item)).Counts ((items.erase item).map key) := by
  have perm : (items.map key).Perm (key item :: (items.erase item).map key) :=
    (List.perm_cons_erase member).map key
  have fewer : ((items.map key).erase (key item)).Perm ((items.erase item).map key) := by
    have fewer := perm.erase (key item)
    rwa [List.erase_cons_head] at fewer
  exact (counts.remove (List.mem_map_of_mem member)).of_perm fewer

end Counter

end Throcc
