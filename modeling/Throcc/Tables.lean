/-
This file holds what lists given by their values at the indices do under the
loops of array code: cut into whole chunks, zipped, walked over with a state,
and put together again.
-/

import Mathlib.Data.List.GetD

namespace Throcc

variable {α β : Type}

/-- The first `count` values of a function. -/
def tabulate (count : Nat) (value : Nat → α) : List α := (List.range count).map value

@[simp] theorem length_tabulate (count : Nat) (value : Nat → α) :
    (tabulate count value).length = count := by
  rw [tabulate, List.length_map, List.length_range]

theorem getElem?_tabulate {count index : Nat} (value : Nat → α) (within : index < count) :
    (tabulate count value)[index]? = some (value index) := by
  rw [tabulate, List.getElem?_map, List.getElem?_range within]
  rfl

theorem tabulate_congr {count : Nat} {value other : Nat → α}
    (same : ∀ index < count, value index = other index) :
    tabulate count value = tabulate count other :=
  List.map_congr_left fun index member => same index (List.mem_range.mp member)

/-- A list tabulates its elements. -/
theorem eq_tabulate (items : List α) (default : α) :
    items = tabulate items.length fun index => items.getD index default := by
  refine List.ext_getElem (length_tabulate ..).symm fun index within _ => ?_
  rw [← Option.some_inj, ← List.getElem?_eq_getElem, ← List.getElem?_eq_getElem,
    getElem?_tabulate _ within, List.getD_eq_getElem _ _ within, List.getElem?_eq_getElem within]

theorem replicate_eq_tabulate (count : Nat) (item : α) :
    List.replicate count item = tabulate count fun _ => item := by
  rw [tabulate, List.map_const', List.length_range]

theorem tabulate_succ (count : Nat) (value : Nat → α) :
    tabulate (count + 1) value = tabulate count value ++ [value count] := by
  rw [tabulate, tabulate, List.range_succ, List.map_append]
  rfl

theorem tabulate_add (count more : Nat) (value : Nat → α) :
    tabulate (count + more) value =
      tabulate count value ++ tabulate more fun index => value (count + index) := by
  rw [tabulate, List.range_add, List.map_append, List.map_map]
  rfl

theorem drop_tabulate (start count : Nat) (value : Nat → α) :
    (tabulate (start + count) value).drop start =
      tabulate count fun index => value (start + index) := by
  rw [tabulate_add, List.drop_left' (length_tabulate ..)]

theorem take_tabulate (count more : Nat) (value : Nat → α) :
    (tabulate (count + more) value).take count = tabulate count value := by
  rw [tabulate_add, List.take_left' (length_tabulate ..)]

/-! ### Chunks -/

/-- The whole chunks of `size` items, without what is left at the end. -/
def chunksExact (size : Nat) (items : List α) : List (List α) :=
  tabulate (items.length / size) fun index => (items.drop (index * size)).take size

theorem chunksExact_tabulate {size : Nat} (positive : 0 < size) (count : Nat) (value : Nat → α) :
    chunksExact size (tabulate (count * size) value) =
      tabulate count fun index => tabulate size fun inner => value (index * size + inner) := by
  rw [chunksExact, length_tabulate, Nat.mul_div_cancel _ positive]
  refine tabulate_congr fun index within => ?_
  obtain ⟨later, rfl⟩ := Nat.exists_eq_add_of_lt within
  have split : (index + later + 1) * size = index * size + (size + later * size) := by
    rw [Nat.add_mul, Nat.add_mul]
    omega
  rw [split, drop_tabulate, take_tabulate]

theorem flatten_tabulate (count size : Nat) (value : Nat → α) :
    (tabulate count fun index => tabulate size fun inner => value (index * size + inner)).flatten =
      tabulate (count * size) value := by
  induction count with
  | zero =>
    rw [Nat.zero_mul]
    rfl
  | succ count inductionHypothesis =>
    rw [tabulate_succ, List.flatten_append, inductionHypothesis, List.flatten_singleton,
      Nat.succ_mul, tabulate_add]

/-! ### Loops -/

/-- A loop over the values whose state before each index is known. -/
theorem foldlM_tabulate {σ : Type} {body : σ → α → Option σ} {count : Nat} {value : Nat → α}
    {start : σ} (state : Nat → σ) (initially : start = state 0)
    (each : ∀ index < count, body (state index) (value index) = some (state (index + 1))) :
    (tabulate count value).foldlM body start = some (state count) := by
  induction count with
  | zero => exact congrArg some initially
  | succ count inductionHypothesis =>
    rw [tabulate_succ, List.foldlM_append,
      inductionHypothesis fun index within => each index (Nat.lt_succ_of_lt within)]
    show (body (state count) (value count) >>= fun next => some next) = _
    rw [each count (Nat.lt_succ_self count)]
    rfl

theorem mapM_tabulate {body : α → Option β} {count : Nat} {value : Nat → α} {image : Nat → β}
    (each : ∀ index < count, body (value index) = some (image index)) :
    (tabulate count value).mapM body = some (tabulate count image) := by
  induction count with
  | zero => rfl
  | succ count inductionHypothesis =>
    rw [tabulate_succ, tabulate_succ, List.mapM_append,
      inductionHypothesis fun index within => each index (Nat.lt_succ_of_lt within),
      List.mapM_cons, each count (Nat.lt_succ_self count)]
    rfl

theorem zip_tabulate (count : Nat) (value : Nat → α) (other : Nat → β) :
    (tabulate count value).zip (tabulate count other) =
      tabulate count fun index => (value index, other index) :=
  List.zip_map' ..

/-- `for (item, other) in items.iter_mut().zip(others)`: what lies past the others is left as
it is. -/
def zipUpdate (body : α → β → Option α) (items : List α) (others : List β) : Option (List α) :=
  ((items.zip others).mapM fun pair => body pair.1 pair.2).map (· ++ items.drop others.length)

theorem zipUpdate_tabulate {body : α → β → Option α} {count : Nat} {value image : Nat → α}
    {other : Nat → β}
    (each : ∀ index < count, body (value index) (other index) = some (image index)) :
    zipUpdate body (tabulate count value) (tabulate count other) = some (tabulate count image) := by
  rw [zipUpdate, zip_tabulate, mapM_tabulate each, length_tabulate, List.drop_of_length_le
    (Nat.le_of_eq (length_tabulate ..))]
  exact congrArg some (List.append_nil _)

end Throcc
