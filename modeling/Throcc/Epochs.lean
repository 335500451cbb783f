/-
This file proves what the turns keep of the rooms: memory says of each what the
database stores, ids are given to one room each, and epochs only rise.
-/

import Throcc.Seats

namespace Throcc

/-- What the database stores of a room. -/
def RoomEntry.stored (entry : RoomEntry) : RoomRow where
  name := entry.name
  epoch := entry.epoch
  passwordHash := entry.passwordHash

/-- A turn that adds a room. -/
def Turn.addsRoom : Turn → Prop
  | .addRoom _ _ => True
  | _ => False

namespace Core

variable {core next : Core}

/-! ### Memory and the database -/

/-- What the database would store of the rooms in memory. -/
def rows (core : Core) : Map RoomId RoomRow := core.rooms.mapValues fun _ entry => entry.stored

/-- The database stores of each room what memory says of it. -/
def Mirrored (core : Core) : Prop := core.stored = core.rows

/-- Writing epochs into memory and then looking at the rows is writing them into the rows. -/
theorem mapValues_foldl_epochs (epochs : List (RoomId × Epoch)) (rooms : Map RoomId RoomEntry) :
    (epochs.foldl
      (fun rooms next => rooms.modify next.1 fun entry => { entry with epoch := next.2 })
      rooms).mapValues (fun _ entry => entry.stored) =
      epochs.foldl
        (fun stored next => stored.modify next.1 fun row => { row with epoch := next.2 })
        (rooms.mapValues fun _ entry => entry.stored) := by
  induction epochs generalizing rooms with
  | nil => rfl
  | cons next rest inductionHypothesis =>
    refine (inductionHypothesis _).trans ?_
    rw [List.foldl_cons]
    refine congrArg (fun rows => rest.foldl _ rows) ?_
    exact Map.mapValues_modify rooms RoomEntry.stored next.1 fun _ => rfl

theorem Mirrored.raise (mirrored : core.Mirrored) (rooms : List RoomId) :
    (core.raise rooms).Mirrored := by
  refine Eq.trans ?_ (mapValues_foldl_epochs _ _).symm
  exact congrArg (fun stored => (core.nextEpochs rooms).foldl _ stored) mirrored

/-- A change of one room that its row does not show. -/
theorem rows_withRoom (core : Core) (room : RoomId) (update : RoomEntry → RoomEntry)
    (same : ∀ entry, (update entry).stored = entry.stored) :
    (core.withRoom room update).rows = core.rows :=
  Map.mapValues_modify_of_same core.rooms RoomEntry.stored room same

theorem rows_moved (core : Core) (user : UserId) (current target : Option RoomId)
    (tracks : Option Tracks) : (core.moved user current target tracks).rows = core.rows := by
  have removed : (current.toList.foldl (fun core room => core.removeMember room user) core).rows =
      core.rows := by
    cases current with
    | none => rfl
    | some room => exact core.rows_withRoom room _ fun _ => rfl
  have inserted : ∀ core : Core,
      (target.toList.foldl (fun core room => core.insertMember room user) core).rows =
        core.rows := by
    intro core
    cases target with
    | none => rfl
    | some room => exact core.rows_withRoom room _ fun _ => rfl
  refine Eq.trans ?_ ((inserted _).trans removed)
  cases current <;> cases target <;> rfl

theorem stored_moved (core : Core) (user : UserId) (current target : Option RoomId)
    (tracks : Option Tracks) : (core.moved user current target tracks).stored = core.stored := by
  obtain ⟨rooms, table, notices, same⟩ := core.moved_frame user current target tracks
  rw [same]

theorem Mirrored.place (mirrored : core.Mirrored) (user : UserId) (target : Option RoomId) :
    (core.place user target).Mirrored := by
  unfold Core.place Mirrored
  dsimp only
  rw [stored_moved, rows_moved]
  cases target <;> exact Mirrored.raise (by exact mirrored) _

theorem Mirrored.apply (mirrored : core.Mirrored) (turn : Turn) : (core.apply turn).Mirrored := by
  cases turn with
  | enter user room => exact mirrored.place user (some room)
  | leave user => exact mirrored.place user none
  | expel user =>
    unfold Core.apply
    dsimp only
    split
    · exact mirrored
    · rename_i room _
      have same : (core.expel user room).rows = core.rows :=
        core.rows_withRoom room (fun entry => { entry with members := entry.members.erase user })
          fun _ => rfl
      exact mirrored.trans same.symm
  | remember user target => cases target <;> exact mirrored
  | renewKey user encryptionKey =>
    obtain ⟨notices, same⟩ := core.apply_renewKey user encryptionKey
    rw [same]
    exact mirrored
  | rekey user encryptionKey =>
    obtain ⟨notices, same⟩ := core.apply_rekey user encryptionKey
    rw [same]
    have stored : (core.storeKey user encryptionKey).Mirrored := mirrored
    exact stored.raise _
  | media user media =>
    obtain ⟨table, notices, same⟩ := core.apply_media user media
    rw [same]
    exact mirrored
  | role user role =>
    obtain ⟨lastJoined, same⟩ := core.apply_role user role
    rw [same]
    exact mirrored
  | addRoom name passwordHash =>
    refine Eq.trans ?_ (Map.mapValues_insert core.rooms RoomEntry.stored _ _).symm
    exact congrArg (fun stored : Map RoomId RoomRow => stored.insert _ _) mirrored
  | renameRoom room name =>
    have stored : (core.apply (.renameRoom room name)).stored =
        core.rows.modify room fun row => { row with name } :=
      congrArg (fun stored => Map.modify room (fun row : RoomRow => { row with name }) stored)
        mirrored
    exact stored.trans (Map.mapValues_modify core.rooms RoomEntry.stored room fun _ => rfl).symm
  | lock room passwordHash =>
    have stored : (core.apply (.lock room passwordHash)).stored =
        core.rows.modify room fun row => { row with passwordHash } :=
      congrArg (fun stored => Map.modify room (fun row : RoomRow => { row with passwordHash }) stored)
        mirrored
    exact stored.trans (Map.mapValues_modify core.rooms RoomEntry.stored room fun _ => rfl).symm
  | dropRoom room =>
    refine Eq.trans ?_ (Map.mapValues_erase core.rooms RoomEntry.stored room).symm
    exact congrArg (fun stored : Map RoomId RoomRow => stored.erase _) mirrored
  | restart =>
    refine Finmap.ext_lookup fun room => ?_
    unfold rows
    rw [Map.lookup_mapValues]
    show core.stored.lookup room = ((Map.mapValues _ core.stored).lookup room).map _
    rw [Map.lookup_mapValues, Option.map_map]
    exact Option.map_id'.symm
  | _ => exact mirrored

/-! ### Epochs -/

/-- The epoch of a room there is. -/
def epochOf (core : Core) (room : RoomId) : Option Epoch :=
  (core.rooms.lookup room).map (·.epoch)

theorem epochOf_of_rows {core next : Core} (rows : next.rows = core.rows) (room : RoomId) :
    next.epochOf room = core.epochOf room := by
  have shown : ∀ core : Core, core.epochOf room = (core.rows.lookup room).map (·.epoch) := by
    intro core
    unfold Core.rows
    rw [Map.lookup_mapValues, Option.map_map]
    rfl
  rw [shown, shown, rows]

theorem epochOf_raise (core : Core) (rooms : List RoomId) (room : RoomId) :
    (core.raise rooms).epochOf room =
      (core.epochOf room).map fun epoch => if room ∈ rooms then epoch + 1 else epoch := by
  rw [epochOf, lookup_rooms_raise, epochOf, Option.map_map, Option.map_map]
  rfl

theorem epochOf_place (core : Core) (user : UserId) (target : Option RoomId) (room : RoomId) :
    (core.place user target).epochOf room =
      (core.epochOf room).map fun epoch =>
        if room ∈ (core.roomOf user).toList ++ target.toList then epoch + 1 else epoch := by
  unfold place
  dsimp only
  rw [epochOf_of_rows (rows_moved _ _ _ _ _), epochOf_raise]
  cases target <;> rfl

theorem epochOf_apply_addRoom (core : Core) (name : String) (passwordHash : Option String)
    (room : RoomId) :
    (core.apply (.addRoom name passwordHash)).epochOf room =
      if room = core.lastRoom + 1 then some 0 else core.epochOf room := by
  show ((core.rooms.insert _ _).lookup room).map _ = _
  rw [Map.lookup_insert_ite]
  split <;> rfl

theorem epochOf_withRoom (core : Core) (room other : RoomId) {update : RoomEntry → RoomEntry}
    (same : ∀ entry, (update entry).epoch = entry.epoch) :
    (core.withRoom room update).epochOf other = core.epochOf other := by
  show ((core.rooms.modify room update).lookup other).map _ = _
  rw [Map.lookup_modify, epochOf]
  split
  · rw [Option.map_map]
    exact congrArg (fun change => (core.rooms.lookup other).map change) (funext same)
  · rfl

/-- The rooms whose epoch a turn raises. -/
def raised (core : Core) : Turn → List RoomId
  | .enter user room => (core.roomOf user).toList ++ [room]
  | .leave user => (core.roomOf user).toList
  | .rekey user _ => (core.roomOf user).toList
  | _ => []

/-- A room there is after a turn that adds none was there before, at the same epoch or, if the
turn raises it, the one before. -/
theorem epochOf_apply (mirrored : core.Mirrored) {turn : Turn} (steady : ¬ turn.addsRoom)
    {room : RoomId} {epoch : Epoch} (found : (core.apply turn).epochOf room = some epoch) :
    ∃ before, core.epochOf room = some before ∧
      epoch = if room ∈ core.raised turn then before + 1 else before := by
  have kept : (core.apply turn).epochOf room = core.epochOf room → core.raised turn = [] →
      ∃ before, core.epochOf room = some before ∧
        epoch = if room ∈ core.raised turn then before + 1 else before := by
    intro same none
    refine ⟨epoch, same ▸ found, ?_⟩
    rw [none, if_neg List.not_mem_nil]
  have raises : ∀ rooms, core.raised turn = rooms → (core.apply turn).epochOf room =
      (core.epochOf room).map (fun epoch => if room ∈ rooms then epoch + 1 else epoch) →
      ∃ before, core.epochOf room = some before ∧
        epoch = if room ∈ core.raised turn then before + 1 else before := by
    intro rooms same raise
    rw [found] at raise
    obtain ⟨before, there, same'⟩ := Option.map_eq_some_iff.mp raise.symm
    exact ⟨before, there, same ▸ same'.symm⟩
  cases turn with
  | enter user target => exact raises _ rfl (core.epochOf_place user (some target) room)
  | leave user =>
    refine raises (core.roomOf user).toList rfl ((core.epochOf_place user none room).trans ?_)
    rw [Option.toList_none, List.append_nil]
  | expel user =>
    refine kept ?_ rfl
    unfold Core.apply
    dsimp only
    split
    · rfl
    · exact core.epochOf_withRoom _ room fun _ => rfl
  | remember user target => cases target <;> exact kept rfl rfl
  | renewKey user encryptionKey =>
    obtain ⟨notices, same⟩ := core.apply_renewKey user encryptionKey
    refine kept ?_ rfl
    rw [same]
    rfl
  | rekey user encryptionKey =>
    obtain ⟨notices, same⟩ := core.apply_rekey user encryptionKey
    refine raises (core.roomOf user).toList rfl ?_
    rw [same]
    exact (core.storeKey user encryptionKey).epochOf_raise _ room
  | media user media =>
    obtain ⟨table, notices, same⟩ := core.apply_media user media
    refine kept ?_ rfl
    rw [same]
    rfl
  | role user role =>
    obtain ⟨lastJoined, same⟩ := core.apply_role user role
    refine kept ?_ rfl
    rw [same]
    rfl
  | addRoom name passwordHash => exact absurd trivial steady
  | renameRoom target name => exact kept (core.epochOf_withRoom target room fun _ => rfl) rfl
  | lock target passwordHash => exact kept (core.epochOf_withRoom target room fun _ => rfl) rfl
  | dropRoom target =>
    have erased : (core.apply (.dropRoom target)).epochOf room =
        if room = target then none else core.epochOf room := by
      show ((core.rooms.erase target).lookup room).map _ = _
      rw [Map.lookup_erase_ite]
      split <;> rfl
    rw [erased] at found
    split at found
    · cases found
    · exact ⟨epoch, found, (if_neg List.not_mem_nil).symm⟩
  | restart =>
    refine kept ?_ rfl
    show ((Map.mapValues _ core.stored).lookup room).map _ = _
    rw [show core.stored = core.rows from mirrored, rows, Map.lookup_mapValues,
      Map.lookup_mapValues, Option.map_map, Option.map_map]
    rfl
  | _ => exact kept rfl rfl

theorem lastRoom_apply (core : Core) {turn : Turn} (steady : ¬ turn.addsRoom) :
    (core.apply turn).lastRoom = core.lastRoom := by
  cases turn with
  | enter user room =>
    obtain ⟨rooms, table, notices, same⟩ := core.place_frame user (some room)
    exact (congrArg Core.lastRoom same : (core.place user (some room)).lastRoom = _)
  | leave user =>
    obtain ⟨rooms, table, notices, same⟩ := core.place_frame user none
    exact (congrArg Core.lastRoom same : (core.place user none).lastRoom = _)
  | expel user =>
    unfold Core.apply
    dsimp only
    split <;> rfl
  | remember user target => cases target <;> rfl
  | renewKey user encryptionKey =>
    obtain ⟨notices, same⟩ := core.apply_renewKey user encryptionKey
    rw [same]
    rfl
  | rekey user encryptionKey =>
    obtain ⟨notices, same⟩ := core.apply_rekey user encryptionKey
    rw [same]
    rfl
  | media user media =>
    obtain ⟨table, notices, same⟩ := core.apply_media user media
    rw [same]
  | role user role =>
    obtain ⟨lastJoined, same⟩ := core.apply_role user role
    rw [same]
  | addRoom name passwordHash => exact absurd trivial steady
  | _ => rfl

theorem mem_rooms_iff {room : RoomId} :
    room ∈ core.rooms ↔ ∃ epoch, core.epochOf room = some epoch := by
  rw [← Finmap.lookup_isSome, epochOf]
  cases core.rooms.lookup room <;> simp

theorem Numbered.apply (numbered : core.Numbered) (mirrored : core.Mirrored) (turn : Turn) :
    (core.apply turn).Numbered := by
  intro room member
  obtain ⟨epoch, found⟩ := mem_rooms_iff.mp member
  by_cases adds : turn.addsRoom
  · cases turn with
    | addRoom name passwordHash =>
      rw [epochOf_apply_addRoom] at found
      show room ≤ core.lastRoom + 1
      split at found
      · rename_i same
        exact same.le
      · exact (numbered room (mem_rooms_iff.mpr ⟨epoch, found⟩)).trans (Nat.le_succ _)
    | _ => exact adds.elim
  · obtain ⟨before, there, _⟩ := epochOf_apply mirrored adds found
    rw [lastRoom_apply core adds]
    exact numbered room (mem_rooms_iff.mpr ⟨before, there⟩)

/-- Room ids are given out in ascending order, and a room numbered before is either gone for
good or at no lower an epoch. -/
structure Grows (core next : Core) : Prop where
  lastRoom : core.lastRoom ≤ next.lastRoom
  epoch : ∀ room epoch, room ≤ core.lastRoom → next.epochOf room = some epoch →
    ∃ before, core.epochOf room = some before ∧ before ≤ epoch

theorem Grows.refl (core : Core) : core.Grows core :=
  ⟨Nat.le_refl _, fun _ epoch _ found => ⟨epoch, found, Nat.le_refl _⟩⟩

theorem Grows.trans {last : Core} (first : core.Grows next) (second : next.Grows last) :
    core.Grows last where
  lastRoom := first.lastRoom.trans second.lastRoom
  epoch room epoch old found := by
    obtain ⟨between, there, le⟩ := second.epoch room epoch (old.trans first.lastRoom) found
    obtain ⟨before, there', le'⟩ := first.epoch room between old there
    exact ⟨before, there', le'.trans le⟩

theorem Grows.apply (mirrored : core.Mirrored) (turn : Turn) : core.Grows (core.apply turn) := by
  by_cases adds : turn.addsRoom
  · cases turn with
    | addRoom name passwordHash =>
      refine ⟨Nat.le_succ _, fun room epoch old found => ?_⟩
      rw [epochOf_apply_addRoom, if_neg (Nat.lt_succ_of_le old).ne] at found
      exact ⟨epoch, found, Nat.le_refl _⟩
    | _ => exact adds.elim
  · refine ⟨(lastRoom_apply core adds).ge, fun room epoch _ found => ?_⟩
    obtain ⟨before, there, same⟩ := epochOf_apply mirrored adds found
    refine ⟨before, there, ?_⟩
    rw [same]
    split
    · exact Nat.le_succ _
    · exact Nat.le_refl _

end Core

end Throcc
