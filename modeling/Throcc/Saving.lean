/-
This file embeds how the epoch floors of one server are kept in a file that any
number of stores, each with any number of clones, raise, save and load, and
shows when what they report as saved is.

A save takes a snapshot under the store's lock, clears the mark that something
is unsaved, and writes afterwards; it sets the mark again where the write failed.
Between the two another save finds nothing to do and reports success. Without
such a save the invariant is that a store whose mark is clear has its floors in
the file, or in the snapshot of a save that has yet to end.
-/

import Throcc.Replay

namespace Throcc

/-- Floors by our user and room, of one server. -/
abbrev Floors := Map (UserId × RoomId) Epoch

namespace Saving

/-! ### The stores -/

/-- What the clones of one store share. With it: every floor its clones were asked to raise,
and the snapshots whose write failed. -/
structure Store where
  floors : EpochFloors
  finished : Bool := false
  raised : List ((UserId × RoomId) × Epoch) := []
  failed : List Floors := []

inductive Phase where
  /-- The snapshot is taken and not yet written. -/
  | writing
  /-- The write failed, and the mark is not yet set again. -/
  | failed
  /-- The save is done and the store is about to be finished. -/
  | finishing (ok : Bool)
deriving DecidableEq

/-- A `save` or `save_last` that hasn't returned. With it: whether its store was finished when
it was called, and the store's `raised` and `failed` then. -/
structure Call where
  store : Nat
  last : Bool
  snapshot : Floors
  phase : Phase
  finished : Bool
  raised : List ((UserId × RoomId) × Epoch)
  failed : List Floors

/-- A call that returned, and the file as it was then. -/
structure Return where
  ok : Bool
  finished : Bool
  raised : List ((UserId × RoomId) × Epoch)
  failed : List Floors
  file : Floors

structure State where
  file : Floors
  stores : Map Nat Store := ∅
  loads : Nat := 0
  calls : Map Nat Call := ∅
  started : Nat := 0
  returns : List Return := []

inductive Input where
  | load
  | raise (store : Nat) (user : UserId) (room : RoomId) (epoch : Epoch)
  /-- Calls `save` or `save_last` on a clone of a store. -/
  | save (store : Nat) (last : Bool)
  /-- The write of a call succeeds, or fails without effect. -/
  | write (call : Nat) (ok : Bool)
  /-- Marks the floors unsaved again after a failed write. -/
  | remark (call : Nat)
  /-- Finishes the store at the end of `save_last`. -/
  | finish (call : Nat)

/-- Writes floors into kept ones, of which none is lowered. -/
def merge (kept snapshot : Floors) : Floors :=
  snapshot.mapValues (fun key epoch => max ((kept.lookup key).getD epoch) epoch) ∪ kept

namespace State

def Return.of (call : Call) (ok : Bool) (file : Floors) : Return where
  ok
  finished := call.finished
  raised := call.raised
  failed := call.failed
  file

/-- Ends the save of a call: `save` returns, `save_last` has yet to finish the store. -/
def settle (state : State) (id : Nat) (call : Call) (ok : Bool) : State :=
  if call.last then
    { state with calls := state.calls.insert id { call with phase := .finishing ok } }
  else
    { state with
      calls := state.calls.erase id
      returns := state.returns ++ [Return.of call ok state.file] }

/-- The first part of `save`, under the store's lock. -/
def save (state : State) (id : Nat) (store : Store) (last : Bool) : State :=
  let call : Call :=
    { store := id, last, snapshot := store.floors.epochs, phase := .writing,
      finished := store.finished, raised := store.raised, failed := store.failed }
  let state := { state with started := state.started + 1 }
  if !store.floors.unsaved || store.finished then state.settle (state.started - 1) call true
  else
    { state with
      stores := state.stores.modify id fun store =>
        { store with floors := { store.floors with unsaved := false } }
      calls := state.calls.insert (state.started - 1) call }

/-- The write of a call. -/
def write (state : State) (id : Nat) (call : Call) (ok : Bool) : State :=
  if call.phase ≠ .writing then state
  else if ok then
    State.settle { state with file := merge state.file call.snapshot } id call true
  else
    { state with
      stores := state.stores.modify call.store fun store =>
        { store with failed := store.failed ++ [call.snapshot] }
      calls := state.calls.insert id { call with phase := .failed } }

/-- The last part of `save`, after a failed write. -/
def remark (state : State) (id : Nat) (call : Call) : State :=
  if call.phase ≠ .failed then state
  else
    State.settle
      { state with
        stores := state.stores.modify call.store fun store =>
          { store with floors := { store.floors with unsaved := true } } }
      id call false

/-- The last part of `save_last`. -/
def finish (state : State) (id : Nat) (call : Call) : State :=
  match call.phase with
  | .finishing ok =>
    { state with
      stores := state.stores.modify call.store fun store => { store with finished := true }
      calls := state.calls.erase id
      returns := state.returns ++ [Return.of call ok state.file] }
  | _ => state

def step (state : State) : Input → State
  | .load =>
    { state with
      stores := state.stores.insert state.loads { floors := { epochs := state.file } }
      loads := state.loads + 1 }
  | .raise id user room epoch =>
    { state with
      stores := state.stores.modify id fun store =>
        { store with
          floors := store.floors.raise user room epoch
          raised := store.raised ++ [((user, room), epoch)] } }
  | .save id last => (state.stores.lookup id).elim state fun store => state.save id store last
  | .write id ok => (state.calls.lookup id).elim state fun call => state.write id call ok
  | .remark id => (state.calls.lookup id).elim state fun call => state.remark id call
  | .finish id => (state.calls.lookup id).elim state fun call => state.finish id call

end State

/-! ### Floors that hold others -/

/-- Every floor of the first is in the second, no lower. -/
def Below (low high : Floors) : Prop :=
  ∀ key epoch, low.lookup key = some epoch → ∃ kept, high.lookup key = some kept ∧ epoch ≤ kept

theorem Below.refl (floors : Floors) : Below floors floors :=
  fun _ epoch found => ⟨epoch, found, le_rfl⟩

theorem Below.trans {low middle high : Floors} (below : Below low middle)
    (above : Below middle high) : Below low high := by
  intro key epoch found
  obtain ⟨between, there, le⟩ := below key epoch found
  obtain ⟨kept, isKept, le'⟩ := above key between there
  exact ⟨kept, isKept, le.trans le'⟩

theorem lookup_merge (kept snapshot : Floors) (key : UserId × RoomId) :
    (merge kept snapshot).lookup key =
      match snapshot.lookup key with
      | some epoch => some (max ((kept.lookup key).getD epoch) epoch)
      | none => kept.lookup key := by
  unfold merge
  cases found : snapshot.lookup key with
  | some epoch =>
    have there :
        key ∈ snapshot.mapValues fun key epoch => max ((kept.lookup key).getD epoch) epoch := by
      rw [Finmap.mem_iff, Map.lookup_mapValues, found]
      exact ⟨_, rfl⟩
    rw [Finmap.lookup_union_left there, Map.lookup_mapValues, found]
    rfl
  | none =>
    refine Finmap.lookup_union_right fun there => ?_
    obtain ⟨_, there⟩ := Finmap.mem_iff.mp there
    rw [Map.lookup_mapValues, found] at there
    cases there

theorem below_merge_kept (kept snapshot : Floors) : Below kept (merge kept snapshot) := by
  intro key epoch found
  rw [lookup_merge]
  cases snapshot.lookup key with
  | none => exact ⟨epoch, found, le_rfl⟩
  | some other =>
    dsimp only
    rw [found, Option.getD_some]
    exact ⟨_, rfl, le_max_left ..⟩

theorem below_merge_snapshot (kept snapshot : Floors) : Below snapshot (merge kept snapshot) := by
  intro key epoch found
  rw [lookup_merge, found]
  exact ⟨_, rfl, le_max_right ..⟩

theorem below_raise (floors : EpochFloors) (user : UserId) (room : RoomId) (epoch : Epoch) :
    Below floors.epochs (floors.raise user room epoch).epochs := by
  rintro ⟨otherUser, otherRoom⟩ bound found
  exact floors.raise_mono user room epoch ⟨bound, found, le_rfl⟩

/-- Floors that hold every floor raised and every snapshot whose write failed. -/
def Holds (floors : Floors) (raised : List ((UserId × RoomId) × Epoch)) (failed : List Floors) :
    Prop :=
  (∀ floor ∈ raised, ∃ kept, floors.lookup floor.1 = some kept ∧ floor.2 ≤ kept) ∧
    ∀ snapshot ∈ failed, Below snapshot floors

theorem Holds.mono {floors others : Floors} {raised : List ((UserId × RoomId) × Epoch)}
    {failed : List Floors} (holds : Holds floors raised failed) (below : Below floors others) :
    Holds others raised failed := by
  refine ⟨fun floor member => ?_, fun snapshot member => (holds.2 snapshot member).trans below⟩
  obtain ⟨between, there, le⟩ := holds.1 floor member
  obtain ⟨kept, isKept, le'⟩ := below floor.1 between there
  exact ⟨kept, isKept, le.trans le'⟩

/-! ### What the calls promise -/

/-- A call whose snapshot may not be in the file. -/
def Call.Pending (call : Call) : Prop := call.phase = .writing ∨ call.phase = .failed

instance (call : Call) : Decidable call.Pending :=
  inferInstanceAs (Decidable (call.phase = .writing ∨ call.phase = .failed))

theorem Call.not_pending {call : Call} {ok : Bool} (finishing : call.phase = .finishing ok) :
    ¬ call.Pending := by
  rw [Call.Pending, finishing]
  rintro (writing | failed) <;> contradiction

/-- What was promised is held: by the stores, by the snapshots on their way, and by the file
once a call succeeded. -/
structure Promised (state : State) : Prop where
  stores : ∀ id store, state.stores.lookup id = some store →
    Holds store.floors.epochs store.raised store.failed
  pending : ∀ id call, state.calls.lookup id = some call → call.Pending →
    Holds call.snapshot call.raised call.failed
  done : ∀ id call, state.calls.lookup id = some call → call.phase = .finishing true →
    call.finished = false → Holds state.file call.raised call.failed
  returns : ∀ returned ∈ state.returns, returned.ok = true → returned.finished = false →
    Holds returned.file returned.raised returned.failed
  within : ∀ id call, state.calls.lookup id = some call → call.Pending →
    ∃ store, state.stores.lookup call.store = some store ∧
      Below call.snapshot store.floors.epochs
  started : ∀ id call, state.calls.lookup id = some call → id < state.started
  loaded : ∀ id store, state.stores.lookup id = some store → id < state.loads

/-- A store with nothing marked unsaved has its floors in the file or in the snapshot of a
pending call among those that count. -/
def Covered (state : State) (counts : Nat → Prop) : Prop :=
  ∀ id store, state.stores.lookup id = some store → store.floors.unsaved = false →
    Below store.floors.epochs state.file ∨
      ∃ made call, counts made ∧ state.calls.lookup made = some call ∧ call.store = id ∧
        call.Pending ∧ Below store.floors.epochs call.snapshot

def Sound (state : State) : Prop := Promised state ∧ Covered state fun _ => True

/-- What a map holds after an insertion, by what it held. -/
theorem of_lookup_insert {Value : Type} {map : Map Nat Value} {key other : Nat}
    {value found : Value} (there : (map.insert key value).lookup other = some found) :
    other = key ∧ found = value ∨ other ≠ key ∧ map.lookup other = some found := by
  rw [Map.lookup_insert_ite] at there
  split at there
  · exact .inl ⟨‹_›, (Option.some.inj there).symm⟩
  · exact .inr ⟨‹_›, there⟩

/-- A store that was changed, by what it was. -/
theorem of_lookup_modify {stores : Map Nat Store} {id other : Nat} {change : Store → Store}
    {store : Store} (found : (stores.modify id change).lookup other = some store) :
    ∃ before, stores.lookup other = some before ∧
      (other = id ∧ store = change before ∨ other ≠ id ∧ store = before) := by
  rw [Map.lookup_modify] at found
  split at found
  · obtain ⟨before, there, changed⟩ := Option.map_eq_some_iff.mp found
    exact ⟨before, there, .inl ⟨‹_›, changed.symm⟩⟩
  · exact ⟨store, found, .inr ⟨‹_›, rfl⟩⟩

/-- What a change that leaves the floors alone leaves of them. -/
theorem of_lookup_modify_same {stores : Map Nat Store} {id other : Nat} {change : Store → Store}
    {store : Store} (found : (stores.modify id change).lookup other = some store)
    (same : ∀ store, (change store).floors = store.floors) :
    ∃ before, stores.lookup other = some before ∧ store.floors = before.floors := by
  obtain ⟨before, there, ⟨_, rfl⟩ | ⟨_, rfl⟩⟩ := of_lookup_modify found
  · exact ⟨before, there, same before⟩
  · exact ⟨_, there, rfl⟩

/-- A change that keeps the floors of a store or lets them rise leaves snapshots within them. -/
theorem within_modify {stores : Map Nat Store} {id other : Nat} {change : Store → Store}
    {snapshot : Floors}
    (grows : ∀ store, Below store.floors.epochs (change store).floors.epochs)
    (within : ∃ store, stores.lookup other = some store ∧ Below snapshot store.floors.epochs) :
    ∃ store, (stores.modify id change).lookup other = some store ∧
      Below snapshot store.floors.epochs := by
  obtain ⟨store, there, below⟩ := within
  rw [Map.lookup_modify]
  split
  · exact ⟨change store, by rw [there]; rfl, below.trans (grows store)⟩
  · exact ⟨store, there, below⟩

/-- A call that ends may be left out of account if the others cover the stores without it. -/
theorem settle_sound {state : State} {id : Nat} {call : Call} {ok : Bool}
    (promised : Promised state) (covered : Covered state (· ≠ id)) (started : id < state.started)
    (kept : ok = true → call.finished = false → Holds state.file call.raised call.failed) :
    Sound (state.settle id call ok) := by
  unfold State.settle
  split
  case isTrue last =>
    refine ⟨⟨promised.stores, fun other made found pending => ?_,
      fun other made found done fresh => ?_, promised.returns, fun other made found pending => ?_,
      fun other made found => ?_, promised.loaded⟩, fun sid store isStore saved => ?_⟩
    · rcases of_lookup_insert found with ⟨_, rfl⟩ | ⟨_, found⟩
      · exact absurd pending (Call.not_pending rfl)
      · exact promised.pending other made found pending
    · rcases of_lookup_insert found with ⟨_, rfl⟩ | ⟨_, found⟩
      · cases done
        exact kept rfl fresh
      · exact promised.done other made found done fresh
    · rcases of_lookup_insert found with ⟨_, rfl⟩ | ⟨_, found⟩
      · exact absurd pending (Call.not_pending rfl)
      · exact promised.within other made found pending
    · rcases of_lookup_insert found with ⟨rfl, _⟩ | ⟨_, found⟩
      · exact started
      · exact promised.started other made found
    · refine (covered sid store isStore saved).imp_right ?_
      rintro ⟨other, made, different, found, rest⟩
      refine ⟨other, made, trivial, ?_, rest⟩
      rw [Map.lookup_insert_ite, if_neg different, found]
  case isFalse plain =>
    have earlier : ∀ other made, (state.calls.erase id).lookup other = some made →
        state.calls.lookup other = some made := by
      intro other made found
      rw [Map.lookup_erase_ite] at found
      split at found
      · cases found
      · exact found
    refine ⟨⟨promised.stores,
      fun other made found => promised.pending other made (earlier _ _ found),
      fun other made found => promised.done other made (earlier _ _ found),
      List.forall_mem_append.mpr ⟨promised.returns, List.forall_mem_singleton.mpr kept⟩,
      fun other made found => promised.within other made (earlier _ _ found),
      fun other made found => promised.started other made (earlier _ _ found), promised.loaded⟩,
      fun sid store isStore saved => ?_⟩
    refine (covered sid store isStore saved).imp_right ?_
    rintro ⟨other, made, different, found, rest⟩
    refine ⟨other, made, trivial, ?_, rest⟩
    rw [Map.lookup_erase_ite, if_neg different, found]

/-! ### Steps -/

/-- No save of a store that isn't finished finds nothing unsaved while a snapshot of it that
holds floors the file lacks is on its way. -/
def Quiet (state : State) : Input → Prop
  | .save id _ => ∀ store, state.stores.lookup id = some store → store.finished = false →
      store.floors.unsaved = false → ∀ other call, state.calls.lookup other = some call →
        call.store = id → call.Pending → Below call.snapshot state.file
  | _ => True

theorem Sound.load {state : State} (sound : Sound state) : Sound (state.step .load) := by
  obtain ⟨promised, covered⟩ := sound
  refine ⟨⟨fun id store isStore => ?_, promised.pending, promised.done, promised.returns,
    fun id call found pending => ?_, promised.started, fun id store isStore => ?_⟩,
    fun id store isStore saved => ?_⟩
  · rcases of_lookup_insert isStore with ⟨_, rfl⟩ | ⟨_, isStore⟩
    · exact ⟨fun _ member => absurd member List.not_mem_nil,
        fun _ member => absurd member List.not_mem_nil⟩
    · exact promised.stores id store isStore
  · obtain ⟨store, there, below⟩ := promised.within id call found pending
    refine ⟨store, ?_, below⟩
    exact (Finmap.lookup_insert_of_ne _ (promised.loaded _ _ there).ne).trans there
  · rcases of_lookup_insert isStore with ⟨rfl, _⟩ | ⟨_, isStore⟩
    · exact Nat.lt_succ_self _
    · exact Nat.lt_succ_of_lt (promised.loaded id store isStore)
  · rcases of_lookup_insert isStore with ⟨_, rfl⟩ | ⟨_, isStore⟩
    · exact .inl (Below.refl _)
    · exact covered id store isStore saved

/-- What a change of one store keeps: its floors don't fall, and what it promises it holds. -/
theorem Promised.modify {state : State} (promised : Promised state) (id : Nat)
    (change : Store → Store)
    (grows : ∀ store, Below store.floors.epochs (change store).floors.epochs)
    (holds : ∀ store, state.stores.lookup id = some store →
      Holds (change store).floors.epochs (change store).raised (change store).failed) :
    Promised { state with stores := state.stores.modify id change } := by
  refine ⟨fun sid store isStore => ?_, promised.pending, promised.done, promised.returns,
    fun cid call found pending => within_modify grows (promised.within cid call found pending),
    promised.started, fun sid store isStore => ?_⟩
  · obtain ⟨before, there, ⟨rfl, rfl⟩ | ⟨_, rfl⟩⟩ := of_lookup_modify isStore
    · exact holds before there
    · exact promised.stores sid store there
  · obtain ⟨before, there, _⟩ := of_lookup_modify isStore
    exact promised.loaded sid before there

theorem Sound.raise {state : State} (sound : Sound state) (id : Nat) (user : UserId)
    (room : RoomId) (epoch : Epoch) : Sound (state.step (.raise id user room epoch)) := by
  obtain ⟨promised, covered⟩ := sound
  have grows : ∀ store : Store,
      Below store.floors.epochs (store.floors.raise user room epoch).epochs :=
    fun store => below_raise store.floors user room epoch
  refine ⟨promised.modify id _ grows fun store isStore => ?_, fun sid store isStore saved => ?_⟩
  · have grown := (promised.stores id store isStore).mono (grows store)
    refine ⟨List.forall_mem_append.mpr ⟨grown.1, List.forall_mem_singleton.mpr ?_⟩, grown.2⟩
    exact store.floors.get_raise user room epoch
  · obtain ⟨before, there, ⟨rfl, rfl⟩ | ⟨_, rfl⟩⟩ := of_lookup_modify isStore
    · -- a floor that rose is marked, one that didn't changed nothing
      dsimp only at saved ⊢
      unfold EpochFloors.raise at saved ⊢
      split at saved
      · cases saved
      · rw [if_neg ‹_›]
        exact covered sid before there saved
    · exact covered sid store there saved

theorem Sound.save {state : State} (sound : Sound state) {id : Nat} {store : Store}
    (isStore : state.stores.lookup id = some store) (last : Bool)
    (quiet : Quiet state (.save id last)) : Sound (state.save id store last) := by
  obtain ⟨promised, covered⟩ := sound
  have started : ∀ other call, state.calls.lookup other = some call → other < state.started + 1 :=
    fun other call found => Nat.lt_succ_of_lt (promised.started other call found)
  unfold State.save
  dsimp only
  rw [Nat.add_sub_cancel]
  split
  case isTrue nothing =>
    refine settle_sound ⟨promised.stores, promised.pending, promised.done, promised.returns,
      promised.within, started, promised.loaded⟩
      (fun sid other isOther saved => ?_) (Nat.lt_succ_self _) fun _ fresh => ?_
    · refine (covered sid other isOther saved).imp_right ?_
      rintro ⟨made, call, _, found, rest⟩
      exact ⟨made, call, (promised.started made call found).ne, found, rest⟩
    · dsimp only at fresh
      have saved : store.floors.unsaved = false := by
        rw [fresh, Bool.or_false, Bool.not_eq_true'] at nothing
        exact nothing
      refine (promised.stores id store isStore).mono ?_
      rcases covered id store isStore saved with below | ⟨made, call, _, found, own, pending, below⟩
      · exact below
      · exact below.trans (quiet store isStore fresh saved made call found own pending)
  case isFalse something =>
    have marked := promised.modify id
      (fun store => { store with floors := { store.floors with unsaved := false } })
      (fun _ => Below.refl _) (promised.stores id)
    refine ⟨⟨marked.stores, fun cid call found pending => ?_, fun cid call found done fresh => ?_,
      promised.returns, fun cid call found pending => ?_, fun cid call found => ?_, marked.loaded⟩,
      fun sid other isOther saved => ?_⟩
    · rcases of_lookup_insert found with ⟨_, rfl⟩ | ⟨_, found⟩
      · exact promised.stores id store isStore
      · exact promised.pending cid call found pending
    · rcases of_lookup_insert found with ⟨_, rfl⟩ | ⟨_, found⟩
      · cases done
      · exact promised.done cid call found done fresh
    · rcases of_lookup_insert found with ⟨_, rfl⟩ | ⟨_, found⟩
      · exact within_modify (fun _ => Below.refl _) ⟨store, isStore, Below.refl _⟩
      · exact marked.within cid call found pending
    · rcases of_lookup_insert found with ⟨rfl, _⟩ | ⟨_, found⟩
      · exact Nat.lt_succ_self _
      · exact started cid call found
    · obtain ⟨before, there, ⟨same, rfl⟩ | ⟨_, rfl⟩⟩ := of_lookup_modify isOther
      · subst same
        obtain rfl := Option.some.inj (isStore.symm.trans there)
        exact .inr ⟨state.started, _, trivial, by rw [Map.lookup_insert_ite, if_pos rfl], rfl,
          .inl rfl, Below.refl _⟩
      · refine (covered sid other there saved).imp_right ?_
        rintro ⟨cid, call, _, found, rest⟩
        refine ⟨cid, call, trivial, ?_, rest⟩
        rw [Map.lookup_insert_ite, if_neg (promised.started cid call found).ne, found]

/-- A call whose write failed still waits for its end. -/
theorem Promised.fails {state : State} (promised : Promised state) {id : Nat} {call : Call}
    (found : state.calls.lookup id = some call) (pending : call.Pending) :
    Promised { state with calls := state.calls.insert id { call with phase := .failed } } := by
  refine ⟨promised.stores, fun cid other isCall waits => ?_, fun cid other isCall done fresh => ?_,
    promised.returns, fun cid other isCall waits => ?_, fun cid other isCall => ?_, promised.loaded⟩
  · rcases of_lookup_insert isCall with ⟨_, rfl⟩ | ⟨_, isCall⟩
    · exact promised.pending id call found pending
    · exact promised.pending cid other isCall waits
  · rcases of_lookup_insert isCall with ⟨_, rfl⟩ | ⟨_, isCall⟩
    · cases done
    · exact promised.done cid other isCall done fresh
  · rcases of_lookup_insert isCall with ⟨_, rfl⟩ | ⟨_, isCall⟩
    · exact promised.within id call found pending
    · exact promised.within cid other isCall waits
  · rcases of_lookup_insert isCall with ⟨rfl, _⟩ | ⟨_, isCall⟩
    · exact promised.started _ call found
    · exact promised.started cid other isCall

theorem Sound.write {state : State} (sound : Sound state) {id : Nat} {call : Call}
    (found : state.calls.lookup id = some call) (ok : Bool) : Sound (state.write id call ok) := by
  obtain ⟨promised, covered⟩ := sound
  unfold State.write
  split
  case isTrue => exact ⟨promised, covered⟩
  case isFalse writing =>
    rw [not_not] at writing
    split
    case isTrue written =>
      have grown := below_merge_kept state.file call.snapshot
      refine settle_sound ⟨promised.stores, promised.pending,
        fun cid other isCall done fresh => (promised.done cid other isCall done fresh).mono grown,
        promised.returns, promised.within, promised.started, promised.loaded⟩
        (fun sid store isStore saved => ?_) (promised.started id call found) fun _ _ => ?_
      · rcases covered sid store isStore saved with below | ⟨cid, other, _, isCall, rest⟩
        · exact .inl (below.trans grown)
        · -- what only this call's snapshot held is now in the file
          rcases eq_or_ne cid id with rfl | different
          · obtain rfl := Option.some.inj (isCall.symm.trans found)
            exact .inl (rest.2.2.trans (below_merge_snapshot state.file _))
          · exact .inr ⟨cid, other, different, isCall, rest⟩
      · exact (promised.pending id call found (.inl writing)).mono
          (below_merge_snapshot state.file call.snapshot)
    case isFalse failed =>
      obtain ⟨owner, isOwner, below⟩ := promised.within id call found (.inl writing)
      have kept := promised.modify call.store
        (fun store => { store with failed := store.failed ++ [call.snapshot] })
        (fun _ => Below.refl _) fun store isStore => by
          obtain rfl := Option.some.inj (isOwner.symm.trans isStore)
          have holds := promised.stores _ _ isOwner
          exact ⟨holds.1, List.forall_mem_append.mpr
            ⟨holds.2, List.forall_mem_singleton.mpr below⟩⟩
      refine ⟨kept.fails found (.inl writing), fun sid store isStore saved => ?_⟩
      obtain ⟨before, there, same⟩ := of_lookup_modify_same isStore fun _ => rfl
      rw [same] at saved ⊢
      refine (covered sid before there saved).imp_right ?_
      rintro ⟨cid, other, _, isCall, own, pending, holds⟩
      rcases eq_or_ne cid id with rfl | different
      · obtain rfl := Option.some.inj (isCall.symm.trans found)
        exact ⟨cid, { other with phase := .failed }, trivial,
          by rw [Map.lookup_insert_ite, if_pos rfl], own, .inr rfl, holds⟩
      · exact ⟨cid, other, trivial, by rw [Map.lookup_insert_ite, if_neg different, isCall],
          own, pending, holds⟩

theorem Sound.remark {state : State} (sound : Sound state) {id : Nat} {call : Call}
    (found : state.calls.lookup id = some call) : Sound (state.remark id call) := by
  obtain ⟨promised, covered⟩ := sound
  unfold State.remark
  split
  case isTrue => exact ⟨promised, covered⟩
  case isFalse failed =>
    refine settle_sound (promised.modify call.store
      (fun store => { store with floors := { store.floors with unsaved := true } })
      (fun _ => Below.refl _) (promised.stores call.store))
      (fun sid store isStore saved => ?_) (promised.started id call found) nofun
    obtain ⟨before, there, ⟨_, rfl⟩ | ⟨elsewhere, rfl⟩⟩ := of_lookup_modify isStore
    · cases saved
    · -- the snapshot of this call is another store's
      refine (covered sid store there saved).imp_right ?_
      rintro ⟨cid, other, _, isCall, own, rest⟩
      refine ⟨cid, other, ?_, isCall, own, rest⟩
      rintro rfl
      obtain rfl := Option.some.inj (isCall.symm.trans found)
      exact elsewhere own.symm

theorem Sound.finish {state : State} (sound : Sound state) {id : Nat} {call : Call}
    (found : state.calls.lookup id = some call) : Sound (state.finish id call) := by
  obtain ⟨promised, covered⟩ := sound
  unfold State.finish
  split
  case h_2 => exact ⟨promised, covered⟩
  case h_1 ok finishing =>
    have kept := promised.modify call.store (fun store => { store with finished := true })
      (fun _ => Below.refl _) (promised.stores call.store)
    have covered' : Covered { state with
        stores := state.stores.modify call.store fun store => { store with finished := true } }
        (· ≠ id) := by
      intro sid store isStore saved
      obtain ⟨before, there, same⟩ := of_lookup_modify_same isStore fun _ => rfl
      rw [same] at saved ⊢
      refine (covered sid before there saved).imp_right ?_
      rintro ⟨cid, other, _, isCall, own, pending, rest⟩
      refine ⟨cid, other, ?_, isCall, own, pending, rest⟩
      rintro rfl
      obtain rfl := Option.some.inj (isCall.symm.trans found)
      exact Call.not_pending finishing pending
    exact @settle_sound _ id { call with last := false } ok kept covered'
      (promised.started id call found) fun isOk fresh =>
        promised.done id call found (isOk ▸ finishing) fresh

/-- A step that looks something up, by whether it is there. -/
theorem elim_rule {motive : State → Prop} {Item : Type} {item : Option Item} {state : State}
    {next : Item → State} (missing : motive state)
    (there : ∀ found, item = some found → motive (next found)) : motive (item.elim state next) := by
  cases item with
  | none => exact missing
  | some found => exact there found rfl

theorem Sound.step {state : State} (sound : Sound state) (input : Input)
    (quiet : Quiet state input) : Sound (state.step input) := by
  cases input with
  | load => exact sound.load
  | raise id user room epoch => exact sound.raise id user room epoch
  | save id last => exact elim_rule sound fun _ isStore => sound.save isStore last quiet
  | write id ok => exact elim_rule sound fun _ found => sound.write found ok
  | remark id => exact elim_rule sound fun _ found => sound.remark found
  | finish id => exact elim_rule sound fun _ found => sound.finish found

/-! ### The file -/

@[simp] theorem settle_file (state : State) (id : Nat) (call : Call) (ok : Bool) :
    (state.settle id call ok).file = state.file := by
  unfold State.settle
  split <;> rfl

@[simp] theorem settle_stores (state : State) (id : Nat) (call : Call) (ok : Bool) :
    (state.settle id call ok).stores = state.stores := by
  unfold State.settle
  split <;> rfl

@[simp] theorem save_file (state : State) (id : Nat) (store : Store) (last : Bool) :
    (state.save id store last).file = state.file := by
  unfold State.save
  dsimp only
  split
  · rw [settle_file]
  · rfl

@[simp] theorem remark_file (state : State) (id : Nat) (call : Call) :
    (state.remark id call).file = state.file := by
  unfold State.remark
  split
  · rfl
  · rw [settle_file]

@[simp] theorem finish_file (state : State) (id : Nat) (call : Call) :
    (state.finish id call).file = state.file := by
  unfold State.finish
  split <;> rfl

theorem below_write (state : State) (id : Nat) (call : Call) (ok : Bool) :
    Below state.file (state.write id call ok).file := by
  unfold State.write
  split
  · exact Below.refl _
  · split
    · rw [settle_file]
      exact below_merge_kept _ _
    · exact Below.refl _

/-- No step lowers a floor in the file. -/
theorem below_step (state : State) (input : Input) : Below state.file (state.step input).file := by
  cases input with
  | load => exact Below.refl _
  | raise id user room epoch => exact Below.refl _
  | save id last =>
    refine @elim_rule (Below state.file ·.file) _ _ _ _ (Below.refl _) fun store _ => ?_
    rw [save_file]
    exact Below.refl _
  | write id ok =>
    exact @elim_rule (Below state.file ·.file) _ _ _ _ (Below.refl _) fun call _ =>
      below_write state id call ok
  | remark id =>
    refine @elim_rule (Below state.file ·.file) _ _ _ _ (Below.refl _) fun call _ => ?_
    rw [remark_file]
    exact Below.refl _
  | finish id =>
    refine @elim_rule (Below state.file ·.file) _ _ _ _ (Below.refl _) fun call _ => ?_
    rw [finish_file]
    exact Below.refl _

theorem below_run (state : State) (inputs : List Input) :
    Below state.file (run State.step state inputs).file :=
  run_invariant State.step (fun later => Below state.file later.file) (Below.refl _)
    (fun later input below => below.trans (below_step later input)) inputs

/-! ### Where floors come from -/

/-- Every floor of a store is in the file or was raised. -/
def Store.Traced (file : Floors) (store : Store) : Prop :=
  ∀ key epoch, store.floors.epochs.lookup key = some epoch →
    (∃ kept, file.lookup key = some kept ∧ epoch ≤ kept) ∨
      ∃ floor ∈ store.raised, floor.1 = key ∧ epoch ≤ floor.2

def Traced (file : Floors) (stores : Map Nat Store) : Prop :=
  ∀ id store, stores.lookup id = some store → store.Traced file

theorem Traced.mono {file grown : Floors} {stores : Map Nat Store} (traced : Traced file stores)
    (below : Below file grown) : Traced grown stores := by
  intro id store isStore key epoch found
  refine (traced id store isStore key epoch found).imp_left ?_
  rintro ⟨between, there, le⟩
  obtain ⟨kept, isKept, le'⟩ := below key between there
  exact ⟨kept, isKept, le.trans le'⟩

theorem Traced.modify {file : Floors} {stores : Map Nat Store} (traced : Traced file stores)
    (id : Nat) (change : Store → Store)
    (kept : ∀ store, store.Traced file → (change store).Traced file) :
    Traced file (stores.modify id change) := by
  intro sid store isStore
  obtain ⟨before, there, ⟨_, rfl⟩ | ⟨_, rfl⟩⟩ := of_lookup_modify isStore
  · exact kept before (traced sid before there)
  · exact traced sid store there

theorem Store.Traced.raise {file : Floors} {store : Store} (traced : store.Traced file)
    (user : UserId) (room : RoomId) (epoch : Epoch) :
    Store.Traced file { store with
      floors := store.floors.raise user room epoch
      raised := store.raised ++ [((user, room), epoch)] } := by
  have older : ∀ key bound, store.floors.epochs.lookup key = some bound →
      (∃ kept, file.lookup key = some kept ∧ bound ≤ kept) ∨
        ∃ floor ∈ store.raised ++ [((user, room), epoch)], floor.1 = key ∧ bound ≤ floor.2 := by
    intro key bound found
    refine (traced key bound found).imp_right ?_
    rintro ⟨floor, member, rest⟩
    exact ⟨floor, List.mem_append_left _ member, rest⟩
  intro key bound found
  dsimp only at found ⊢
  unfold EpochFloors.raise at found
  split at found
  · dsimp only at found
    rw [Map.lookup_insert_ite] at found
    split at found
    · obtain rfl := Option.some.inj found
      exact .inr ⟨_, List.mem_append_right _ List.mem_cons_self, ‹key = _›.symm, le_rfl⟩
    · exact older key bound found
  · exact older key bound found

theorem Traced.step {state : State} (traced : Traced state.file state.stores) (input : Input) :
    Traced (state.step input).file (state.step input).stores := by
  refine Traced.mono ?_ (below_step state input)
  cases input with
  | load =>
    intro id store isStore
    rcases of_lookup_insert isStore with ⟨_, rfl⟩ | ⟨_, isStore⟩
    · exact fun key epoch found => .inl ⟨epoch, found, le_rfl⟩
    · exact traced id store isStore
  | raise id user room epoch =>
    exact traced.modify id _ fun store isTraced => isTraced.raise user room epoch
  | save id last =>
    refine @elim_rule (Traced state.file ·.stores) _ _ _ _ traced fun store _ => ?_
    unfold State.save
    dsimp only
    split
    · rw [settle_stores]
      exact traced
    · exact traced.modify id _ fun _ isTraced => isTraced
  | write id ok =>
    refine @elim_rule (Traced state.file ·.stores) _ _ _ _ traced fun call _ => ?_
    unfold State.write
    split
    · exact traced
    · split
      · rw [settle_stores]
        exact traced
      · exact traced.modify call.store _ fun _ isTraced => isTraced
  | remark id =>
    refine @elim_rule (Traced state.file ·.stores) _ _ _ _ traced fun call _ => ?_
    unfold State.remark
    split
    · exact traced
    · rw [settle_stores]
      exact traced.modify call.store _ fun _ isTraced => isTraced
  | finish id =>
    refine @elim_rule (Traced state.file ·.stores) _ _ _ _ traced fun call _ => ?_
    unfold State.finish
    split
    · exact traced.modify call.store _ fun _ isTraced => isTraced
    · exact traced

/-- A file that holds every floor raised holds the store's floors. -/
theorem Store.Traced.below {file : Floors} {store : Store} (traced : store.Traced file)
    (holds : Holds file store.raised store.failed) : Below store.floors.epochs file := by
  intro key epoch found
  rcases traced key epoch found with inFile | ⟨floor, member, rfl, le⟩
  · exact inFile
  · obtain ⟨kept, isKept, le'⟩ := holds.1 floor member
    exact ⟨kept, isKept, le.trans le'⟩

/-! ### Runs -/

/-- Every call that reported success on a store not yet finished left the file with each floor
raised before it and each one whose write had failed. -/
def Reported (state : State) : Prop :=
  ∀ returned ∈ state.returns, returned.ok = true → returned.finished = false →
    Holds returned.file returned.raised returned.failed

theorem sound_run {file : Floors} {inputs : List Input}
    (quiet : Along State.step Quiet { file } inputs) : Sound (run State.step { file } inputs) :=
  quiet.invariant Sound ⟨⟨nofun, nofun, nofun, nofun, nofun, nofun, nofun⟩, nofun⟩
    fun _ input sound => sound.step input

theorem Traced.start (file : Floors) : Traced file ∅ := nofun

theorem traced_run (file : Floors) (inputs : List Input) :
    Traced (run State.step { file } inputs).file (run State.step { file } inputs).stores :=
  run_invariant State.step (fun state => Traced state.file state.stores) (.start file)
    (fun _ input traced => traced.step input) inputs

/-- A save that meets the condition reports the truth, and one that doesn't claims floors
that the file lacks. -/
theorem quiet_iff_reported {state : State} (sound : Sound state)
    (traced : Traced state.file state.stores) (id : Nat) :
    Quiet state (.save id false) ↔ Reported (state.step (.save id false)) := by
  refine ⟨fun quiet => (sound.step _ quiet).1.returns, ?_⟩
  intro reported store isStore fresh saved other call found own pending
  have returns : (state.step (.save id false)).returns = state.returns ++
      [⟨true, store.finished, store.raised, store.failed, state.file⟩] := by
    change ((state.stores.lookup id).elim state fun store => state.save id store false).returns = _
    rw [isStore, Option.elim_some, State.save, saved]
    rfl
  have holds := reported _ (returns ▸ List.mem_append_right _ List.mem_cons_self) rfl fresh
  obtain ⟨owner, isOwner, below⟩ := sound.1.within other call found pending
  obtain rfl := Option.some.inj (isStore.symm.trans (own ▸ isOwner))
  exact below.trans ((traced id _ isStore).below holds)

/-- No step ever lowers a floor in the file. Where no save finds nothing unsaved while a
snapshot of its store is on its way, every success reported is true, and the first save that
isn't so reports floors that the file lacks. -/
theorem saves_report (file : Floors) (inputs : List Input)
    (quiet : Along State.step Quiet { file } inputs) :
    (∀ first second, first ++ second = inputs →
      Below (run State.step { file } first).file (run State.step { file } inputs).file) ∧
    Reported (run State.step { file } inputs) ∧
    ∀ id, Quiet (run State.step { file } inputs) (.save id false) ↔
      Reported (run State.step { file } (inputs ++ [.save id false])) := by
  refine ⟨?_, (sound_run quiet).1.returns, fun id => ?_⟩
  · rintro first second rfl
    rw [run_append]
    exact below_run _ second
  · rw [run_concat]
    exact quiet_iff_reported (sound_run quiet) (traced_run file inputs) id

/-- A floor is raised, its write fails, and the next save writes it. -/
theorem saves_report_again :
    Reported (run State.step { file := ∅ }
      [.load, .raise 0 4 1 5, .save 0 false, .write 0 false, .remark 0, .save 0 false,
        .write 1 true]) := by
  refine (saves_report ∅ _ ?_).2.1
  refine ⟨trivial, ⟨trivial, ⟨?_, ⟨trivial, ⟨trivial, ⟨?_, ⟨trivial, trivial⟩⟩⟩⟩⟩⟩⟩
  all_goals
    intro _ isStore _ saved
    cases isStore
    cases saved

/-- A last save reports success while the write of the floor is under way. That write fails, and
as the store is finished no later save writes the floor. -/
theorem save_last_overtakes :
    let state := run State.step { file := ∅ }
      [.load, .raise 0 4 1 5, .save 0 false, .save 0 true, .finish 1, .write 0 false, .remark 0,
        .save 0 false]
    ¬ Reported state ∧ state.file.lookup (4, 1) = none := by
  refine ⟨fun reported => ?_, rfl⟩
  have holds := reported ⟨true, false, [((4, 1), 5)], [], ∅⟩ List.mem_cons_self rfl rfl
  obtain ⟨kept, found, _⟩ := holds.1 _ List.mem_cons_self
  cases found

end Saving

end Throcc
