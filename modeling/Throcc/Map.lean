/-
This file collects what a verification of a stateful program needs from finite
maps beyond Mathlib's `Finmap`: updates of one value, of all values and of the
set of entries, maps made from lists, and enumerations in ascending order of
the key. Every operation comes with the lemma that says what a lookup finds
after it, so that later proofs never open a map.
-/

import Mathlib.Algebra.BigOperators.Group.Finset.Basic
import Mathlib.Data.Finmap
import Mathlib.Data.Finset.Sort
import Mathlib.Data.List.Sort

namespace Throcc

/-- A finite map from keys to values. -/
abbrev Map (Key Value : Type) := Finmap fun _ : Key => Value

namespace Map

variable {Key Value Other : Type}

/-! ### Changing values -/

/-- Applies a function to every value. -/
def mapValues (change : Key → Value → Other) (map : Map Key Value) : Map Key Other where
  entries := map.entries.map fun entry => ⟨entry.1, change entry.1 entry.2⟩
  nodupKeys := by
    have keys := Multiset.nodup_keys.mpr map.nodupKeys
    refine Multiset.nodup_keys.mp ?_
    simpa [Multiset.keys, Multiset.map_map, Function.comp_def] using keys

/-- Keeps the entries a test accepts. -/
def retain (keep : Key → Value → Bool) (map : Map Key Value) : Map Key Value where
  entries := map.entries.filter fun entry => keep entry.1 entry.2
  nodupKeys := by
    have keys := Multiset.nodup_keys.mpr map.nodupKeys
    refine Multiset.nodup_keys.mp ?_
    exact Multiset.nodup_of_le (Multiset.map_le_map (Multiset.filter_le _ _)) keys

/-- Renames every key. -/
def mapKeys (rename : Key ≃ Other) (map : Map Key Value) : Map Other Value where
  entries := map.entries.map fun entry => ⟨rename entry.1, entry.2⟩
  nodupKeys := by
    have keys := (Multiset.nodup_keys.mpr map.nodupKeys).map rename.injective
    refine Multiset.nodup_keys.mp ?_
    simpa [Multiset.keys, Multiset.map_map, Function.comp_def] using keys

variable [DecidableEq Key]

/-- Applies a function to the value at one key, if there is one. -/
def modify (key : Key) (change : Value → Value) (map : Map Key Value) : Map Key Value :=
  match map.lookup key with
  | some value => map.insert key (change value)
  | none => map

/-- The map of a list of entries; of two entries with one key the later counts. -/
def ofList (entries : List (Key × Value)) : Map Key Value :=
  entries.foldl (fun map entry => map.insert entry.1 entry.2) ∅

/-! ### Lookups -/

theorem lookup_insert_ite (map : Map Key Value) (key other : Key) (value : Value) :
    (map.insert key value).lookup other = if other = key then some value else map.lookup other := by
  split
  · rename_i same
    rw [same, Finmap.lookup_insert]
  · rename_i different
    rw [Finmap.lookup_insert_of_ne _ different]

theorem lookup_erase_ite (map : Map Key Value) (key other : Key) :
    (map.erase key).lookup other = if other = key then none else map.lookup other := by
  split
  · rename_i same
    rw [same, Finmap.lookup_erase]
  · rename_i different
    rw [Finmap.lookup_erase_ne different]

theorem erase_of_missing {map : Map Key Value} {key : Key} (missing : map.lookup key = none) :
    map.erase key = map := by
  refine Finmap.ext_lookup fun other => ?_
  rw [lookup_erase_ite]
  split
  · rename_i same
    rw [same, missing]
  · rfl

theorem lookup_modify (map : Map Key Value) (key other : Key) (change : Value → Value) :
    (map.modify key change).lookup other =
      if other = key then (map.lookup other).map change else map.lookup other := by
  unfold modify
  split
  · rename_i value found
    rw [lookup_insert_ite]
    split
    · rename_i same
      rw [same, found, Option.map_some]
    · rfl
  · rename_i missing
    split
    · rename_i same
      rw [same, missing, Option.map_none]
    · rfl

@[simp] theorem lookup_modify_self (map : Map Key Value) (key : Key) (change : Value → Value) :
    (map.modify key change).lookup key = (map.lookup key).map change := by
  rw [lookup_modify, if_pos rfl]

theorem lookup_modify_of_ne (map : Map Key Value) {key other : Key} (change : Value → Value)
    (different : other ≠ key) : (map.modify key change).lookup other = map.lookup other := by
  rw [lookup_modify, if_neg different]

@[simp] theorem lookup_retain (map : Map Key Value) (keep : Key → Value → Bool) (key : Key) :
    (map.retain keep).lookup key = (map.lookup key).filter (keep key) := by
  refine Option.ext fun value => ?_
  have kept : (map.retain keep).lookup key = some value ↔
      map.lookup key = some value ∧ keep key value = true := by
    rw [Finmap.lookup_eq_some_iff, Finmap.lookup_eq_some_iff]
    exact Multiset.mem_filter
  rw [kept, Option.filter_eq_some_iff]

@[simp] theorem retain_retain (map : Map Key Value) (keep : Key → Value → Bool) :
    retain keep (map.retain keep) = map.retain keep := by
  refine Finmap.ext_lookup fun key => ?_
  rw [lookup_retain, lookup_retain, Option.filter_filter]
  simp

theorem retain_comm (map : Map Key Value) (keep keep' : Key → Value → Bool) :
    retain keep (map.retain keep') = retain keep' (map.retain keep) := by
  refine Finmap.ext_lookup fun key => ?_
  rw [lookup_retain, lookup_retain, lookup_retain, lookup_retain, Option.filter_filter,
    Option.filter_filter]
  simp only [Bool.and_comm]

@[simp] theorem lookup_mapValues (map : Map Key Value) (change : Key → Value → Other) (key : Key) :
    (map.mapValues change).lookup key = (map.lookup key).map (change key) := by
  refine Option.ext fun value => ?_
  rw [Finmap.lookup_eq_some_iff, Option.map_eq_some_iff]
  constructor
  · intro member
    obtain ⟨⟨found, before⟩, there, same⟩ := Multiset.mem_map.mp member
    cases same
    exact ⟨before, Finmap.lookup_eq_some_iff.mpr there, rfl⟩
  · rintro ⟨before, there, rfl⟩
    exact Multiset.mem_map.mpr ⟨⟨key, before⟩, Finmap.lookup_eq_some_iff.mp there, rfl⟩

@[simp] theorem mem_keys_retain (map : Map Key Value) (keep : Key → Bool) (key : Key) :
    key ∈ (map.retain fun key _ => keep key).keys ↔ key ∈ map.keys ∧ keep key = true := by
  rw [Finmap.mem_keys, Finmap.mem_keys, Finmap.mem_iff, Finmap.mem_iff]
  simp only [lookup_retain, Option.filter_eq_some_iff, exists_and_right]

@[simp] theorem lookup_mapKeys [DecidableEq Other] (map : Map Key Value) (rename : Key ≃ Other)
    (key : Other) : (map.mapKeys rename).lookup key = map.lookup (rename.symm key) := by
  refine Option.ext fun value => ?_
  rw [Finmap.lookup_eq_some_iff, Finmap.lookup_eq_some_iff]
  constructor
  · intro member
    obtain ⟨⟨found, there⟩, entry, same⟩ := Multiset.mem_map.mp member
    cases same
    rw [rename.symm_apply_apply]
    exact entry
  · intro member
    exact Multiset.mem_map.mpr ⟨⟨rename.symm key, value⟩, member, by rw [rename.apply_symm_apply]⟩

theorem keys_mapKeys [DecidableEq Other] (map : Map Key Value) (rename : Key ≃ Other) :
    (map.mapKeys rename).keys = map.keys.map rename.toEmbedding := by
  ext key
  rw [Finset.mem_map_equiv, Finmap.mem_keys, Finmap.mem_keys, Finmap.mem_iff, Finmap.mem_iff,
    lookup_mapKeys]

theorem mapKeys_insert [DecidableEq Other] (map : Map Key Value) (rename : Key ≃ Other) (key : Key)
    (value : Value) :
    mapKeys rename (map.insert key value) = (map.mapKeys rename).insert (rename key) value := by
  refine Finmap.ext_lookup fun other => ?_
  rw [lookup_mapKeys, lookup_insert_ite, lookup_insert_ite, lookup_mapKeys]
  exact if_congr rename.symm_apply_eq rfl rfl

theorem mapKeys_erase [DecidableEq Other] (map : Map Key Value) (rename : Key ≃ Other) (key : Key) :
    mapKeys rename (map.erase key) = (map.mapKeys rename).erase (rename key) := by
  refine Finmap.ext_lookup fun other => ?_
  rw [lookup_mapKeys, lookup_erase_ite, lookup_erase_ite, lookup_mapKeys]
  exact if_congr rename.symm_apply_eq rfl rfl

theorem mapKeys_retain [DecidableEq Other] (map : Map Key Value) (rename : Key ≃ Other)
    {keep : Key → Value → Bool} {keep' : Other → Value → Bool}
    (agree : ∀ key value, keep' (rename key) value = keep key value) :
    mapKeys rename (map.retain keep) = (map.mapKeys rename).retain keep' := by
  refine Finmap.ext_lookup fun other => ?_
  rw [lookup_mapKeys, lookup_retain, lookup_retain, lookup_mapKeys]
  refine congrArg (Option.filter · _) (funext fun value => ?_)
  rw [← agree, rename.apply_symm_apply]

theorem keys_insert (map : Map Key Value) (key : Key) (value : Value) :
    (map.insert key value).keys = insert key map.keys := by
  ext other
  rw [Finset.mem_insert, Finmap.mem_keys, Finmap.mem_keys, Finmap.mem_insert]

theorem mem_keys_iff (map : Map Key Value) (key : Key) :
    key ∈ map.keys ↔ ∃ value, map.lookup key = some value := by
  rw [Finmap.mem_keys, Finmap.mem_iff]

/-! ### Changing all values commutes with the other changes -/

theorem mapValues_insert (map : Map Key Value) (change : Value → Other) (key : Key)
    (value : Value) :
    mapValues (fun _ => change) (map.insert key value) =
      (map.mapValues fun _ => change).insert key (change value) := by
  refine Finmap.ext_lookup fun other => ?_
  rw [lookup_mapValues, lookup_insert_ite, lookup_insert_ite, lookup_mapValues]
  split <;> rfl

theorem mapValues_erase (map : Map Key Value) (change : Value → Other) (key : Key) :
    mapValues (fun _ => change) (map.erase key) = (map.mapValues fun _ => change).erase key := by
  refine Finmap.ext_lookup fun other => ?_
  rw [lookup_mapValues, lookup_erase_ite, lookup_erase_ite, lookup_mapValues]
  split <;> rfl

/-- Changing one value and then all is changing all and then one, if the two changes of that
value agree. -/
theorem mapValues_modify (map : Map Key Value) (change : Value → Other) (key : Key)
    {update : Value → Value} {update' : Other → Other}
    (agree : ∀ value, change (update value) = update' (change value)) :
    (map.modify key update).mapValues (fun _ => change) =
      (map.mapValues fun _ => change).modify key update' := by
  refine Finmap.ext_lookup fun other => ?_
  rw [lookup_mapValues, lookup_modify, lookup_modify, lookup_mapValues]
  split
  · rw [Option.map_map, Option.map_map]
    exact congrArg (fun change => (map.lookup other).map change) (funext agree)
  · rfl

theorem modify_id (map : Map Key Value) (key : Key) : map.modify key (fun value => value) = map := by
  refine Finmap.ext_lookup fun other => ?_
  rw [lookup_modify]
  split
  · exact Option.map_id'
  · rfl

/-- A change of one value that the change of all values does not see is not seen. -/
theorem mapValues_modify_of_same (map : Map Key Value) (change : Value → Other) (key : Key)
    {update : Value → Value} (same : ∀ value, change (update value) = change value) :
    mapValues (fun _ => change) (map.modify key update) = map.mapValues fun _ => change := by
  refine (mapValues_modify map change key (fun value => ?_)).trans
    (modify_id (map.mapValues fun _ => change) key)
  exact same value

/-! ### Key sets -/

@[simp] theorem keys_modify (map : Map Key Value) (key : Key) (change : Value → Value) :
    (map.modify key change).keys = map.keys := by
  ext other
  rw [Finmap.mem_keys, Finmap.mem_keys, ← Finmap.lookup_isSome, ← Finmap.lookup_isSome,
    lookup_modify]
  split <;> simp

@[simp] theorem keys_mapValues (map : Map Key Value) (change : Key → Value → Other) :
    (map.mapValues change).keys = map.keys := by
  ext other
  rw [Finmap.mem_keys, Finmap.mem_keys, ← Finmap.lookup_isSome, ← Finmap.lookup_isSome,
    lookup_mapValues, Option.isSome_map]

/-- What keeping entries leaves is no larger. -/
theorem card_keys_retain_le (map : Map Key Value) (keep : Key → Value → Bool) :
    (map.retain keep).keys.card ≤ map.keys.card := by
  refine Finset.card_le_card fun key member => ?_
  rw [Finmap.mem_keys, ← Finmap.lookup_isSome] at member ⊢
  rw [lookup_retain] at member
  cases found : map.lookup key with
  | none => simp [found] at member
  | some value => rfl

/-! ### Maps of lists -/

theorem ofList_append (first second : List (Key × Value)) :
    ofList (first ++ second) =
      second.foldl (fun map entry => map.insert entry.1 entry.2) (ofList first) := by
  unfold ofList
  rw [List.foldl_append]

@[simp] theorem ofList_nil : ofList ([] : List (Key × Value)) = ∅ := rfl

theorem ofList_concat (entries : List (Key × Value)) (key : Key) (value : Value) :
    ofList (entries ++ [(key, value)]) = (ofList entries).insert key value := by
  rw [ofList_append]
  rfl

/-- What a map of a list holds was an entry of the list. -/
theorem mem_of_lookup_ofList {entries : List (Key × Value)} {key : Key} {value : Value}
    (found : (ofList entries).lookup key = some value) : (key, value) ∈ entries := by
  induction entries using List.reverseRecOn with
  | nil => simp at found
  | append_singleton rest last inductionHypothesis =>
    obtain ⟨lastKey, lastValue⟩ := last
    rw [ofList_concat, lookup_insert_ite] at found
    split at found
    · rename_i same
      cases found
      simp [same]
    · exact List.mem_append_left _ (inductionHypothesis found)

end Map

/-! ### Totals -/

namespace Map

variable {Key Value : Type} [DecidableEq Key]

/-- What the values weigh together. -/
def total (weigh : Value → Int) (map : Map Key Value) : Int :=
  ∑ key ∈ map.keys, (map.lookup key).elim 0 weigh

variable (weigh : Value → Int) {map : Map Key Value}

@[simp] theorem total_empty : total weigh (∅ : Map Key Value) = 0 := rfl

theorem total_erase {key : Key} {value : Value} (found : map.lookup key = some value) :
    total weigh (map.erase key) = map.total weigh - weigh value := by
  have member : key ∈ map.keys := (mem_keys_iff map key).mpr ⟨value, found⟩
  have rest : ∑ other ∈ map.keys.erase key, ((map.erase key).lookup other).elim 0 weigh =
      ∑ other ∈ map.keys.erase key, (map.lookup other).elim 0 weigh := by
    refine Finset.sum_congr rfl fun other there => ?_
    rw [lookup_erase_ite, if_neg (Finset.ne_of_mem_erase there)]
  have all := Finset.add_sum_erase map.keys (fun other => (map.lookup other).elim 0 weigh) member
  simp only [found, Option.elim_some] at all
  unfold total
  rw [Finmap.keys_erase, rest, ← all, add_sub_cancel_left]

theorem total_insert_of_missing {key : Key} {value : Value} (missing : map.lookup key = none) :
    total weigh (map.insert key value) = map.total weigh + weigh value := by
  have found : (map.insert key value).lookup key = some value := Finmap.lookup_insert map
  have erased := total_erase weigh found
  have same : (map.insert key value).erase key = map := by
    refine Finmap.ext_lookup fun other => ?_
    rw [lookup_erase_ite, lookup_insert_ite]
    split
    · rename_i equal
      rw [equal, missing]
    · rfl
  rw [same] at erased
  rw [erased, sub_add_cancel]

theorem total_insert {key : Key} {value before : Value} (found : map.lookup key = some before) :
    total weigh (map.insert key value) = map.total weigh - weigh before + weigh value := by
  have missing : (map.erase key).lookup key = none := by rw [lookup_erase_ite, if_pos rfl]
  have same : (map.erase key).insert key value = map.insert key value := by
    refine Finmap.ext_lookup fun other => ?_
    rw [lookup_insert_ite, lookup_insert_ite, lookup_erase_ite]
    split <;> rfl
  rw [← same, total_insert_of_missing weigh missing, total_erase weigh found]

theorem total_modify {key : Key} {before : Value} (change : Value → Value)
    (found : map.lookup key = some before) :
    (map.modify key change).total weigh =
      map.total weigh - weigh before + weigh (change before) := by
  unfold modify
  rw [found]
  exact total_insert weigh found

end Map

/-! ### Enumerations in ascending order -/

variable {Key Value : Type} [LinearOrder Key]

/-- The elements of a finite set in ascending order. It computes like `Finset.sort`, by a
structural recursion, so that closed terms evaluate in proofs. -/
def ascending (keys : Finset Key) : List Key :=
  Quot.liftOn keys.val (fun list => list.insertionSort (· ≤ ·)) fun first second permuted =>
    (((List.perm_insertionSort _ first).trans permuted).trans
      (List.perm_insertionSort _ second).symm).eq_of_pairwise'
        (List.pairwise_insertionSort _ first) (List.pairwise_insertionSort _ second)

theorem ascending_coe (keys : Finset Key) : (ascending keys : Multiset Key) = keys.val := by
  obtain ⟨⟨list⟩, distinct⟩ := keys
  exact Quot.sound (List.perm_insertionSort _ list)

@[simp] theorem mem_ascending (keys : Finset Key) (key : Key) : key ∈ ascending keys ↔ key ∈ keys := by
  rw [← Multiset.mem_coe, ascending_coe, Finset.mem_val]

theorem nodup_ascending (keys : Finset Key) : (ascending keys).Nodup := by
  rw [← Multiset.coe_nodup, ascending_coe]
  exact keys.nodup

@[simp] theorem length_ascending (keys : Finset Key) : (ascending keys).length = keys.card := by
  rw [← Multiset.coe_card, ascending_coe, Finset.card_val]

@[simp] theorem ascending_empty : ascending (∅ : Finset Key) = [] := rfl

/-- The entries of a map in ascending order of their keys. -/
def Map.toList (map : Map Key Value) : List (Key × Value) :=
  (ascending map.keys).filterMap fun key => (map.lookup key).map fun value => (key, value)

@[simp] theorem Map.mem_toList (map : Map Key Value) (key : Key) (value : Value) :
    (key, value) ∈ map.toList ↔ map.lookup key = some value := by
  unfold Map.toList
  rw [List.mem_filterMap]
  constructor
  · rintro ⟨other, _, found⟩
    obtain ⟨value', there, same⟩ := Option.map_eq_some_iff.mp found
    cases same
    exact there
  · intro found
    refine ⟨key, ?_, by rw [found, Option.map_some]⟩
    rw [mem_ascending, Finmap.mem_keys]
    exact Finmap.mem_of_lookup_eq_some found

theorem Map.toList_keys (map : Map Key Value) : map.toList.map Prod.fst = ascending map.keys := by
  have all : ∀ keys : List Key, (∀ key ∈ keys, key ∈ map.keys) →
      (keys.filterMap fun key => (map.lookup key).map fun value => (key, value)).map Prod.fst =
        keys := by
    intro keys within
    induction keys with
    | nil => rfl
    | cons key rest inductionHypothesis =>
      obtain ⟨value, found⟩ := Finmap.mem_iff.mp
        (Finmap.mem_keys.mp (within key List.mem_cons_self))
      rw [List.filterMap_cons, found]
      simp only [Option.map_some, List.map_cons]
      rw [inductionHypothesis fun other member => within other (List.mem_cons_of_mem _ member)]
  exact all _ fun key member => (mem_ascending _ key).mp member

/-! ### Queries by order -/

/-- The least key. -/
def Map.firstKey (map : Map Key Value) : Option Key := map.keys.min

theorem Map.firstKey_eq_none {map : Map Key Value} : map.firstKey = none ↔ map = ∅ := by
  refine Finset.min_eq_top.trans ?_
  constructor
  · intro none
    refine Finmap.ext_lookup fun key => ?_
    rw [Finmap.lookup_empty, Finmap.lookup_eq_none, ← Finmap.mem_keys, none]
    exact Finset.notMem_empty key
  · rintro rfl
    rfl

theorem Map.firstKey_eq_some {map : Map Key Value} {key : Key} (found : map.firstKey = some key) :
    (∃ value, map.lookup key = some value) ∧ ∀ other ∈ map.keys, key ≤ other :=
  ⟨(Map.mem_keys_iff map key).mp (Finset.mem_of_min found), fun _ member =>
    Finset.min_le_of_eq member found⟩

/-- The greatest key. -/
def Map.lastKey (map : Map Key Value) : Option Key := map.keys.max

theorem Map.firstKey_iff {map : Map Key Value} {key : Key} :
    map.firstKey = some key ↔ key ∈ map.keys ∧ ∀ other ∈ map.keys, key ≤ other := by
  constructor
  · exact fun found => ⟨Finset.mem_of_min found, fun _ member => Finset.min_le_of_eq member found⟩
  · rintro ⟨member, least⟩
    obtain ⟨other, found⟩ := Finset.min_of_mem member
    have same := le_antisymm (least other (Finset.mem_of_min found))
      (Finset.min_le_of_eq member found)
    rw [same]
    exact found

theorem Map.lastKey_iff {map : Map Key Value} {key : Key} :
    map.lastKey = some key ↔ key ∈ map.keys ∧ ∀ other ∈ map.keys, other ≤ key := by
  constructor
  · exact fun found => ⟨Finset.mem_of_max found, fun _ member => Finset.le_max_of_eq member found⟩
  · rintro ⟨member, greatest⟩
    obtain ⟨other, found⟩ := Finset.max_of_mem member
    have same := le_antisymm (Finset.le_max_of_eq member found)
      (greatest other (Finset.mem_of_max found))
    rw [same]
    exact found

/-- Renaming that keeps the order of the keys keeps which is the least. -/
theorem Map.firstKey_mapKeys {Other : Type} [LinearOrder Other] {map : Map Key Value}
    {rename : Key ≃ Other}
    (keepsOrder : ∀ key ∈ map.keys, ∀ other ∈ map.keys, key ≤ other → rename key ≤ rename other) :
    (map.mapKeys rename).firstKey = map.firstKey.map rename := by
  refine Option.ext fun key => ?_
  rw [Option.map_eq_some_iff, Map.firstKey_iff, Map.keys_mapKeys, Finset.mem_map_equiv]
  constructor
  · rintro ⟨member, least⟩
    refine ⟨rename.symm key, Map.firstKey_iff.mpr ⟨member, fun other there => ?_⟩,
      rename.apply_symm_apply key⟩
    have above := least (rename other) (Finset.mem_map_of_mem _ there)
    by_contra below
    have other' := keepsOrder other there _ member (le_of_not_ge below)
    rw [rename.apply_symm_apply] at other'
    exact below (le_of_eq (rename.symm_apply_eq.mpr (le_antisymm above other')))
  · rintro ⟨first, found, rfl⟩
    obtain ⟨member, least⟩ := Map.firstKey_iff.mp found
    rw [rename.symm_apply_apply]
    refine ⟨member, fun other there => ?_⟩
    obtain ⟨before, was, rfl⟩ := Finset.mem_map.mp there
    exact keepsOrder first member before was (least before was)

theorem Map.lastKey_mapKeys {Other : Type} [LinearOrder Other] {map : Map Key Value}
    {rename : Key ≃ Other}
    (keepsOrder : ∀ key ∈ map.keys, ∀ other ∈ map.keys, key ≤ other → rename key ≤ rename other) :
    (map.mapKeys rename).lastKey = map.lastKey.map rename := by
  refine Option.ext fun key => ?_
  rw [Option.map_eq_some_iff, Map.lastKey_iff, Map.keys_mapKeys, Finset.mem_map_equiv]
  constructor
  · rintro ⟨member, greatest⟩
    refine ⟨rename.symm key, Map.lastKey_iff.mpr ⟨member, fun other there => ?_⟩,
      rename.apply_symm_apply key⟩
    have below := greatest (rename other) (Finset.mem_map_of_mem _ there)
    by_contra above
    have other' := keepsOrder _ member other there (le_of_not_ge above)
    rw [rename.apply_symm_apply] at other'
    exact above (le_of_eq (rename.eq_symm_apply.mpr (le_antisymm below other')))
  · rintro ⟨last, found, rfl⟩
    obtain ⟨member, greatest⟩ := Map.lastKey_iff.mp found
    rw [rename.symm_apply_apply]
    refine ⟨member, fun other there => ?_⟩
    obtain ⟨before, was, rfl⟩ := Finset.mem_map.mp there
    exact keepsOrder before was last member (greatest before was)

/-- The least key of a range. -/
def leastIn (keys : Finset Key) (low high : Key) : Option Key :=
  (keys.filter fun key => low ≤ key ∧ key ≤ high).min

/-- The greatest key of a range. -/
def greatestIn (keys : Finset Key) (low high : Key) : Option Key :=
  (keys.filter fun key => low ≤ key ∧ key ≤ high).max

theorem leastIn_eq_some {keys : Finset Key} {low high key : Key} :
    leastIn keys low high = some key ↔ (key ∈ keys ∧ low ≤ key ∧ key ≤ high) ∧
      ∀ other ∈ keys, low ≤ other → other ≤ high → key ≤ other := by
  unfold leastIn
  constructor
  · intro found
    have member := Finset.mem_of_min found
    refine ⟨Finset.mem_filter.mp member, fun other there above below => ?_⟩
    exact Finset.min_le_of_eq (Finset.mem_filter.mpr ⟨there, above, below⟩) found
  · rintro ⟨within, least⟩
    have member : key ∈ keys.filter fun key => low ≤ key ∧ key ≤ high :=
      Finset.mem_filter.mpr within
    obtain ⟨other, found⟩ := Finset.min_of_mem member
    obtain ⟨there, above, below⟩ := Finset.mem_filter.mp (Finset.mem_of_min found)
    have same := le_antisymm (least other there above below) (Finset.min_le_of_eq member found)
    rw [same]
    exact found

theorem leastIn_eq_none {keys : Finset Key} {low high : Key} :
    leastIn keys low high = none ↔ ∀ key ∈ keys, low ≤ key → ¬ key ≤ high := by
  refine Finset.min_eq_top.trans (Finset.filter_eq_empty_iff.trans ?_)
  constructor
  · exact fun outside key member above below => outside member ⟨above, below⟩
  · exact fun outside key member within => outside key member within.1 within.2

theorem greatestIn_eq_some {keys : Finset Key} {low high key : Key} :
    greatestIn keys low high = some key ↔ (key ∈ keys ∧ low ≤ key ∧ key ≤ high) ∧
      ∀ other ∈ keys, low ≤ other → other ≤ high → other ≤ key := by
  unfold greatestIn
  constructor
  · intro found
    have member := Finset.mem_of_max found
    refine ⟨Finset.mem_filter.mp member, fun other there above below => ?_⟩
    exact Finset.le_max_of_eq (Finset.mem_filter.mpr ⟨there, above, below⟩) found
  · rintro ⟨within, greatest⟩
    have member : key ∈ keys.filter fun key => low ≤ key ∧ key ≤ high :=
      Finset.mem_filter.mpr within
    obtain ⟨other, found⟩ := Finset.max_of_mem member
    obtain ⟨there, above, below⟩ := Finset.mem_filter.mp (Finset.mem_of_max found)
    have same := le_antisymm (Finset.le_max_of_eq member found) (greatest other there above below)
    rw [same]
    exact found

theorem greatestIn_eq_none {keys : Finset Key} {low high : Key} :
    greatestIn keys low high = none ↔ ∀ key ∈ keys, low ≤ key → ¬ key ≤ high := by
  refine Finset.max_eq_bot.trans (Finset.filter_eq_empty_iff.trans ?_)
  constructor
  · exact fun outside key member above below => outside member ⟨above, below⟩
  · exact fun outside key member within => outside key member within.1 within.2

end Throcc
