/-
This file proves that the indexes of the egress queues agree with the units
they hold, whatever arrives: the byte counter, the set of units being sent, the
list of strays, the index of copies and the fates remembered per track.

`Indexed` says so of the collections by themselves, so that a change of what
they don't depend on is no step of any proof. Every operation is a sequence of
a few changes of them: a unit is added, changed, started or removed, and a fate
is recorded or forgotten.
-/

import Throcc.Egress

namespace Throcc

/-! ### The index of copies -/

/-- The unit is listed under the track and the first `seq`. -/
def Listed (copies : Map (MediaId × Nat) (Finset Nat)) (key : MediaId × Nat) (id : Nat) : Prop :=
  ∃ ids, copies.lookup key = some ids ∧ id ∈ ids

theorem listed_addCopy (copies : Map (MediaId × Nat) (Finset Nat)) (key other : MediaId × Nat)
    (id id' : Nat) :
    Listed (addCopy copies key id) other id' ↔ (other = key ∧ id' = id) ∨ Listed copies other id' := by
  unfold Listed addCopy
  rw [Map.lookup_insert_ite]
  split
  · rename_i same
    subst same
    cases known : copies.lookup other with
    | none => simp
    | some ids => simp
  · rename_i different
    simp [different]

theorem listed_removeCopy (copies : Map (MediaId × Nat) (Finset Nat)) (key other : MediaId × Nat)
    (id id' : Nat) :
    Listed (removeCopy copies key id) other id' ↔
      ¬ (other = key ∧ id' = id) ∧ Listed copies other id' := by
  unfold Listed removeCopy
  by_cases same : other = key
  · subst same
    cases known : copies.lookup other with
    | none => simp [known]
    | some ids =>
      have left : ∀ other, other ∈ ids.erase id ↔ other ≠ id ∧ other ∈ ids := fun _ =>
        Finset.mem_erase
      by_cases last : ids.erase id = ∅
      · rw [last] at left
        simp only [last, if_true, Map.lookup_erase_ite]
        simpa using left id'
      · simp only [if_neg last, Map.lookup_insert_ite]
        simp
  · cases known : copies.lookup key with
    | none => simp [same]
    | some ids =>
      by_cases last : ids.erase id = ∅
      · simp [last, same]
      · simp [last, same]

/-- No list of copies is empty. -/
def NoneEmpty (copies : Map (MediaId × Nat) (Finset Nat)) : Prop :=
  ∀ key ids, copies.lookup key = some ids → ids ≠ ∅

theorem NoneEmpty.add {copies : Map (MediaId × Nat) (Finset Nat)} (full : NoneEmpty copies)
    (key : MediaId × Nat) (id : Nat) : NoneEmpty (addCopy copies key id) := by
  intro other ids found
  rw [addCopy, Map.lookup_insert_ite] at found
  split at found
  · cases found
    exact Finset.insert_ne_empty _ _
  · exact full _ _ found

theorem NoneEmpty.remove {copies : Map (MediaId × Nat) (Finset Nat)} (full : NoneEmpty copies)
    (key : MediaId × Nat) (id : Nat) : NoneEmpty (removeCopy copies key id) := by
  intro other ids found
  unfold removeCopy at found
  split at found
  · exact full _ _ found
  · split at found
    · rw [Map.lookup_erase_ite] at found
      split at found
      · cases found
      · exact full _ _ found
    · rename_i left
      rw [Map.lookup_insert_ite] at found
      split at found
      · cases found
        exact left
      · exact full _ _ found

/-! ### Remembering -/

theorem card_remember (history : Map Nat Fate) (firstSeq : Nat) (fate : Fate) :
    (remember history firstSeq fate).keys.card ≤ historyLimit := by
  have stopped : forgetFirst (remember history firstSeq fate) = none := by
    refine loop_stops (fun _ => True) (fun history => history.keys.card) (fun _ _ _ _ => True.intro)
      (fun history next _ forgot => ?_) True.intro le_rfl
    unfold forgetFirst at forgot
    split at forgot
    · obtain ⟨first, least, same⟩ := Option.map_eq_some_iff.mp forgot
      rw [← same, Finmap.keys_erase]
      exact Finset.card_erase_lt_of_mem (Finset.mem_of_min least)
    · cases forgot
  by_contra many
  rw [not_le] at many
  rw [forgetFirst, if_pos many, Option.map_eq_none_iff, Map.firstKey_eq_none] at stopped
  rw [stopped, Finmap.keys_empty] at many
  simp [historyLimit] at many

/-- What is remembered is what was recorded now or remembered before. -/
theorem of_lookup_remember {history : Map Nat Fate} {firstSeq seq : Nat} {fate known : Fate}
    (found : (remember history firstSeq fate).lookup seq = some known) :
    (seq = firstSeq ∧ known = fate) ∨ history.lookup seq = some known := by
  have before : (history.insert firstSeq fate).lookup seq = some known := by
    revert found
    refine loop_invariant (fun left : Map Nat Fate => left.lookup seq = some known →
      (history.insert firstSeq fate).lookup seq = some known) id (fun left next kept forgot => ?_) _
    unfold forgetFirst at forgot
    split at forgot
    · obtain ⟨first, _, same⟩ := Option.map_eq_some_iff.mp forgot
      subst same
      intro found
      rw [Map.lookup_erase_ite] at found
      split at found
      · cases found
      · exact kept found
    · cases forgot
  rw [Map.lookup_insert_ite] at before
  split at before
  · rename_i same
    cases before
    exact Or.inl ⟨same, rfl⟩
  · exact Or.inr before

/-- The two are one unit, as the indexes see it. -/
structure VideoUnit.Same (unit other : VideoUnit) : Prop where
  id : other.id = unit.id
  mediaId : other.mediaId = unit.mediaId
  firstSeq : other.firstSeq = unit.firstSeq
  stray : other.stray = unit.stray

theorem VideoUnit.Same.refl (unit : VideoUnit) : unit.Same unit := ⟨rfl, rfl, rfl, rfl⟩

theorem VideoUnit.Same.trans {unit other last : VideoUnit} (first : unit.Same other)
    (second : other.Same last) : unit.Same last :=
  ⟨second.id.trans first.id, second.mediaId.trans first.mediaId,
    second.firstSeq.trans first.firstSeq, second.stray.trans first.stray⟩

namespace VideoQueues

/-! ### The queued units -/

/-- The unit is queued, started or not. -/
def Queued (video : VideoQueues) (id : Nat) (unit : VideoUnit) : Prop :=
  video.started.lookup id = some unit ∨ video.waiting.lookup id = some unit

/-- The indexes, the byte counter and the history agree with the queued units. -/
structure Consistent (video : VideoQueues) : Prop where
  bytes : video.videoBytes = video.started.total VideoUnit.len + video.waiting.total VideoUnit.len
  sending : ∀ id, id ∈ video.sending ↔
    ∃ unit, video.started.lookup id = some unit ∧ unit.packets ≠ []
  full : ∀ id unit, video.waiting.lookup id = some unit → unit.packets ≠ []
  older : ∀ id ∈ video.started.keys, ∀ other ∈ video.waiting.keys, id < other
  known : ∀ id unit, video.Queued id unit → unit.id = id ∧ id < video.nextId
  running : ∀ id unit, video.started.lookup id = some unit → unit.started = true
  resting : ∀ id unit, video.waiting.lookup id = some unit → unit.started = false
  copies : ∀ key id, Listed video.copies key id ↔ ∃ unit, video.Queued id unit ∧
    unit.stray = false ∧ (unit.mediaId, unit.firstSeq) = key
  noneEmpty : NoneEmpty video.copies
  strays : ∀ id unit, video.waiting.lookup id = some unit → unit.stray = true → id ∈ video.strays
  inOrder : video.strays.Pairwise (· < ·)
  issued : ∀ id ∈ video.strays, id < video.nextId
  history : ∀ mediaId past, video.history.lookup mediaId = some past → ∀ seq id,
    past.lookup seq = some (.queued id) → ∃ unit, video.Queued id unit ∧
      unit.stray = false ∧ unit.mediaId = mediaId ∧ unit.firstSeq = seq
  short : ∀ mediaId past, video.history.lookup mediaId = some past →
    past.keys.card ≤ historyLimit

variable {video : VideoQueues}

theorem Consistent.disjoint (consistent : video.Consistent) {id : Nat} {unit other : VideoUnit}
    (running : video.started.lookup id = some unit)
    (resting : video.waiting.lookup id = some other) : False :=
  lt_irrefl id (consistent.older id ((Map.mem_keys_iff _ _).mpr ⟨unit, running⟩) id
    ((Map.mem_keys_iff _ _).mpr ⟨other, resting⟩))

/-- One unit is queued under an id. -/
theorem Consistent.unique (consistent : video.Consistent) {id : Nat} {unit other : VideoUnit}
    (found : video.Queued id unit) (found' : video.Queued id other) : other = unit := by
  rcases found with running | resting <;> rcases found' with running' | resting'
  · exact Option.some.inj (running'.symm.trans running)
  · exact absurd resting' fun resting' => consistent.disjoint running resting'
  · exact absurd resting fun resting => consistent.disjoint running' resting
  · exact Option.some.inj (resting'.symm.trans resting)

/-- Nothing is queued under the next id. -/
theorem Consistent.missing (consistent : video.Consistent) :
    video.started.lookup video.nextId = none ∧ video.waiting.lookup video.nextId = none := by
  constructor
  · refine Option.eq_none_iff_forall_ne_some.mpr fun unit found => ?_
    exact lt_irrefl _ (consistent.known _ unit (Or.inl found)).2
  · refine Option.eq_none_iff_forall_ne_some.mpr fun unit found => ?_
    exact lt_irrefl _ (consistent.known _ unit (Or.inr found)).2

/-! ### A unit arrives -/

/-- Queues a unit behind all others and indexes it. -/
def add (video : VideoQueues) (unit : VideoUnit) : VideoQueues :=
  { video with
    waiting := video.waiting.insert unit.id unit
    strays := if unit.stray then video.strays ++ [unit.id] else video.strays
    copies :=
      if unit.stray then video.copies
      else addCopy video.copies (unit.mediaId, unit.firstSeq) unit.id
    nextId := video.nextId + 1
    videoBytes := video.videoBytes + unit.len }

theorem Consistent.queued_add (consistent : video.Consistent) {unit : VideoUnit}
    (fresh : unit.id = video.nextId) (id : Nat) (other : VideoUnit) :
    (video.add unit).Queued id other ↔ (id = unit.id ∧ other = unit) ∨ video.Queued id other := by
  obtain ⟨notStarted, notWaiting⟩ := consistent.missing
  unfold Queued add
  rw [Map.lookup_insert_ite]
  by_cases same : id = unit.id
  · rw [if_pos same, same, fresh, notStarted, notWaiting]
    simp [eq_comm]
  · rw [if_neg same]
    simp [same]

theorem Consistent.add (consistent : video.Consistent) {unit : VideoUnit}
    (fresh : unit.id = video.nextId) (full : unit.packets ≠ []) (resting : unit.started = false) :
    (video.add unit).Consistent := by
  obtain ⟨notStarted, notWaiting⟩ := consistent.missing
  have lookup : ∀ id, (video.add unit).waiting.lookup id =
      if id = unit.id then some unit else video.waiting.lookup id := fun id =>
    Map.lookup_insert_ite video.waiting unit.id id unit
  have queued := consistent.queued_add fresh
  exact {
    bytes := by
      show video.videoBytes + unit.len = _ + Map.total _ (video.waiting.insert unit.id unit)
      rw [Map.total_insert_of_missing _ (fresh ▸ notWaiting), consistent.bytes, add_assoc]
      rfl
    sending := consistent.sending
    full := fun id other found => by
      rw [lookup] at found
      split at found
      · cases found
        exact full
      · exact consistent.full id other found
    older := fun id running other member => by
      have member : other ∈ (video.waiting.insert unit.id unit).keys := member
      rw [Map.keys_insert, Finset.mem_insert] at member
      obtain ⟨known, found⟩ := (Map.mem_keys_iff _ _).mp running
      rcases member with rfl | member
      · exact fresh ▸ (consistent.known id known (Or.inl found)).2
      · exact consistent.older id running other member
    known := fun id other found => by
      show other.id = id ∧ id < video.nextId + 1
      rcases (queued id other).mp found with ⟨rfl, rfl⟩ | found
      · exact ⟨rfl, by omega⟩
      · obtain ⟨same, below⟩ := consistent.known id other found
        exact ⟨same, Nat.lt_succ_of_lt below⟩
    running := consistent.running
    resting := fun id other found => by
      rw [lookup] at found
      split at found
      · cases found
        exact resting
      · exact consistent.resting id other found
    copies := fun key id => by
      simp only [queued]
      unfold VideoQueues.add
      split
      · rename_i stray
        rw [consistent.copies]
        constructor
        · rintro ⟨other, found, rest⟩
          exact ⟨other, Or.inr found, rest⟩
        · rintro ⟨other, ⟨-, rfl⟩ | found, rest⟩
          · rw [stray] at rest
            cases rest.1
          · exact ⟨other, found, rest⟩
      · rename_i own
        rw [listed_addCopy, consistent.copies]
        constructor
        · rintro (⟨rfl, rfl⟩ | ⟨other, found, rest⟩)
          · exact ⟨unit, Or.inl ⟨rfl, rfl⟩, Bool.eq_false_iff.mpr own, rfl⟩
          · exact ⟨other, Or.inr found, rest⟩
        · rintro ⟨other, ⟨rfl, rfl⟩ | found, rest⟩
          · exact Or.inl ⟨rest.2.symm, rfl⟩
          · exact Or.inr ⟨other, found, rest⟩
    noneEmpty := by
      unfold VideoQueues.add
      split
      · exact consistent.noneEmpty
      · exact consistent.noneEmpty.add _ _
    strays := fun id other found stray => by
      rw [lookup] at found
      unfold VideoQueues.add
      split at found
      · rename_i same
        cases found
        rw [stray, same]
        exact List.mem_append_right _ List.mem_cons_self
      · have member := consistent.strays id other found stray
        split
        · exact List.mem_append_left _ member
        · exact member
    inOrder := by
      unfold VideoQueues.add
      split
      · refine List.pairwise_append.mpr ⟨consistent.inOrder, List.pairwise_singleton _ _, ?_⟩
        intro id member other last
        rw [List.mem_singleton.mp last, fresh]
        exact consistent.issued id member
      · exact consistent.inOrder
    issued := fun id member => by
      show id < video.nextId + 1
      unfold VideoQueues.add at member
      split at member
      · rcases List.mem_append.mp member with member | member
        · exact Nat.lt_succ_of_lt (consistent.issued id member)
        · rw [List.mem_singleton.mp member, fresh]
          exact Nat.lt_succ_self _
      · exact Nat.lt_succ_of_lt (consistent.issued id member)
    history := fun mediaId past found seq id remembered => by
      obtain ⟨other, found, rest⟩ := consistent.history mediaId past found seq id remembered
      exact ⟨other, (queued id other).mpr (Or.inr found), rest⟩
    short := consistent.short }

/-! ### A unit changes -/

/-- The same units are queued, by what the indexes see of them. -/
structure Keeps (video next : VideoQueues) : Prop where
  forth : ∀ id unit, video.Queued id unit → ∃ other, next.Queued id other ∧ unit.Same other
  back : ∀ id other, next.Queued id other → ∃ unit, video.Queued id unit ∧ unit.Same other

section Keeps

variable {next : VideoQueues}

theorem Keeps.known (keeps : video.Keeps next) (consistent : video.Consistent)
    (same : next.nextId = video.nextId) (id : Nat) (unit : VideoUnit)
    (found : next.Queued id unit) : unit.id = id ∧ id < next.nextId := by
  obtain ⟨before, found, alike⟩ := keeps.back id unit found
  rw [alike.id, same]
  exact consistent.known id before found

theorem Keeps.copies (keeps : video.Keeps next) (consistent : video.Consistent)
    (same : next.copies = video.copies) (key : MediaId × Nat) (id : Nat) :
    Listed next.copies key id ↔ ∃ unit, next.Queued id unit ∧
      unit.stray = false ∧ (unit.mediaId, unit.firstSeq) = key := by
  rw [same, consistent.copies]
  constructor
  · rintro ⟨unit, found, own, rfl⟩
    obtain ⟨other, found, alike⟩ := keeps.forth id unit found
    exact ⟨other, found, alike.stray.trans own, by rw [alike.mediaId, alike.firstSeq]⟩
  · rintro ⟨other, found, own, rfl⟩
    obtain ⟨unit, found, alike⟩ := keeps.back id other found
    exact ⟨unit, found, alike.stray.symm.trans own, by rw [alike.mediaId, alike.firstSeq]⟩

theorem Keeps.history (keeps : video.Keeps next) (consistent : video.Consistent)
    (same : next.history = video.history) (mediaId : MediaId) (past : Map Nat Fate)
    (found : next.history.lookup mediaId = some past) (seq id : Nat)
    (remembered : past.lookup seq = some (.queued id)) : ∃ unit, next.Queued id unit ∧
      unit.stray = false ∧ unit.mediaId = mediaId ∧ unit.firstSeq = seq := by
  rw [same] at found
  obtain ⟨unit, found, own, track, start⟩ :=
    consistent.history mediaId past found seq id remembered
  obtain ⟨other, found, alike⟩ := keeps.forth id unit found
  exact ⟨other, found, alike.stray.trans own, alike.mediaId.trans track,
    alike.firstSeq.trans start⟩

end Keeps

/-- Replaces a started unit. -/
def putStarted (video : VideoQueues) (id : Nat) (before after : VideoUnit) : VideoQueues :=
  { video with
    started := video.started.insert id after
    sending := if after.packets = [] then video.sending.erase id else insert id video.sending
    videoBytes := video.videoBytes - before.len + after.len }

theorem Consistent.putStarted (consistent : video.Consistent) {id : Nat} {before after : VideoUnit}
    (found : video.started.lookup id = some before) (alike : before.Same after)
    (running : after.started = true) : (video.putStarted id before after).Consistent := by
  have lookup : ∀ other, (video.putStarted id before after).started.lookup other =
      if other = id then some after else video.started.lookup other := fun other =>
    Map.lookup_insert_ite video.started id other after
  have keeps : video.Keeps (video.putStarted id before after) := by
    constructor
    · rintro other unit (there | there)
      · by_cases same : other = id
        · subst same
          cases there.symm.trans found
          exact ⟨after, Or.inl (by rw [lookup, if_pos rfl]), alike⟩
        · exact ⟨unit, Or.inl (by rw [lookup, if_neg same]; exact there), .refl _⟩
      · exact ⟨unit, Or.inr there, .refl _⟩
    · rintro other unit (there | there)
      · rw [lookup] at there
        split at there
        · rename_i same
          cases there
          exact ⟨before, Or.inl (same ▸ found), alike⟩
        · exact ⟨unit, Or.inl there, .refl _⟩
      · exact ⟨unit, Or.inr there, .refl _⟩
  exact {
    bytes := by
      show video.videoBytes - before.len + after.len =
        Map.total _ (video.started.insert id after) + video.waiting.total VideoUnit.len
      rw [Map.total_insert _ found, consistent.bytes]
      omega
    sending := fun other => by
      rw [lookup]
      show other ∈ (if after.packets = [] then video.sending.erase id
        else insert id video.sending) ↔ _
      by_cases same : other = id
      · subst same
        split
        · rename_i empty
          simp [empty]
        · rename_i full
          simp [full]
      · split
        · simp [same, consistent.sending]
        · simp [same, consistent.sending]
    full := consistent.full
    older := fun other member => by
      have member : other ∈ (video.started.insert id after).keys := member
      rw [Map.keys_insert, Finset.mem_insert] at member
      rcases member with rfl | member
      · exact consistent.older other ((Map.mem_keys_iff _ _).mpr ⟨before, found⟩)
      · exact consistent.older other member
    known := keeps.known consistent rfl
    running := fun other unit there => by
      rw [lookup] at there
      split at there
      · cases there
        exact running
      · exact consistent.running other unit there
    resting := consistent.resting
    copies := keeps.copies consistent rfl
    noneEmpty := consistent.noneEmpty
    strays := consistent.strays
    inOrder := consistent.inOrder
    issued := consistent.issued
    history := keeps.history consistent rfl
    short := consistent.short }

/-- Replaces a waiting unit. -/
def putWaiting (video : VideoQueues) (id : Nat) (before after : VideoUnit) : VideoQueues :=
  { video with
    waiting := video.waiting.insert id after
    videoBytes := video.videoBytes - before.len + after.len }

theorem Consistent.putWaiting (consistent : video.Consistent) {id : Nat} {before after : VideoUnit}
    (found : video.waiting.lookup id = some before) (alike : before.Same after)
    (full : after.packets ≠ []) (resting : after.started = false) :
    (video.putWaiting id before after).Consistent := by
  have lookup : ∀ other, (video.putWaiting id before after).waiting.lookup other =
      if other = id then some after else video.waiting.lookup other := fun other =>
    Map.lookup_insert_ite video.waiting id other after
  have keeps : video.Keeps (video.putWaiting id before after) := by
    constructor
    · rintro other unit (there | there)
      · exact ⟨unit, Or.inl there, .refl _⟩
      · by_cases same : other = id
        · subst same
          cases there.symm.trans found
          exact ⟨after, Or.inr (by rw [lookup, if_pos rfl]), alike⟩
        · exact ⟨unit, Or.inr (by rw [lookup, if_neg same]; exact there), .refl _⟩
    · rintro other unit (there | there)
      · exact ⟨unit, Or.inl there, .refl _⟩
      · rw [lookup] at there
        split at there
        · rename_i same
          cases there
          exact ⟨before, Or.inr (same ▸ found), alike⟩
        · exact ⟨unit, Or.inr there, .refl _⟩
  exact {
    bytes := by
      show video.videoBytes - before.len + after.len =
        video.started.total VideoUnit.len + Map.total _ (video.waiting.insert id after)
      rw [Map.total_insert _ found, consistent.bytes]
      omega
    sending := consistent.sending
    full := fun other unit there => by
      rw [lookup] at there
      split at there
      · cases there
        exact full
      · exact consistent.full other unit there
    older := fun other running id' member => by
      have member : id' ∈ (video.waiting.insert id after).keys := member
      rw [Map.keys_insert, Finset.mem_insert] at member
      rcases member with rfl | member
      · exact consistent.older other running id' ((Map.mem_keys_iff _ _).mpr ⟨before, found⟩)
      · exact consistent.older other running id' member
    known := keeps.known consistent rfl
    running := consistent.running
    resting := fun other unit there => by
      rw [lookup] at there
      split at there
      · cases there
        exact resting
      · exact consistent.resting other unit there
    copies := keeps.copies consistent rfl
    noneEmpty := consistent.noneEmpty
    strays := fun other unit there stray => by
      rw [lookup] at there
      split at there
      · rename_i same
        cases there
        exact same ▸ consistent.strays id before found (alike.stray.symm.trans stray)
      · exact consistent.strays other unit there stray
    inOrder := consistent.inOrder
    issued := consistent.issued
    history := keeps.history consistent rfl
    short := consistent.short }

/-! ### A unit starts -/

theorem mem_dropWhile {Item : Type} {test : Item → Bool} {items : List Item} {item : Item}
    (member : item ∈ items) (rejected : test item = false) : item ∈ items.dropWhile test := by
  induction items with
  | nil => cases member
  | cons head rest inductionHypothesis =>
    rw [List.dropWhile_cons]
    split
    · rename_i accepted
      rcases List.mem_cons.mp member with rfl | member
      · rw [rejected] at accepted
        cases accepted
      · exact inductionHypothesis member
    · exact member

/-- Forgets strays at the front of the list. -/
theorem Consistent.dropStrays (consistent : video.Consistent) {gone : Nat → Bool}
    (left : ∀ id ∈ video.waiting.keys, gone id = false) :
    { video with strays := video.strays.dropWhile gone }.Consistent where
  bytes := consistent.bytes
  sending := consistent.sending
  full := consistent.full
  older := consistent.older
  known := consistent.known
  running := consistent.running
  resting := consistent.resting
  copies := consistent.copies
  noneEmpty := consistent.noneEmpty
  strays := fun id unit found stray =>
    mem_dropWhile (consistent.strays id unit found stray)
      (left id ((Map.mem_keys_iff _ _).mpr ⟨unit, found⟩))
  inOrder := consistent.inOrder.sublist (List.dropWhile_sublist _)
  issued := fun id member => consistent.issued id ((List.dropWhile_sublist _).subset member)
  history := consistent.history
  short := consistent.short

/-- The first waiting unit starts. -/
def launch (video : VideoQueues) (id : Nat) (unit : VideoUnit) : VideoQueues :=
  { video with
    started := video.started.insert id { unit with started := true }
    waiting := video.waiting.erase id
    sending := insert id video.sending }

theorem Consistent.launch (consistent : video.Consistent) {id : Nat} {unit : VideoUnit}
    (found : video.waiting.lookup id = some unit) (least : ∀ other ∈ video.waiting.keys, id ≤ other) :
    (video.launch id unit).Consistent := by
  have missing : video.started.lookup id = none :=
    Option.eq_none_iff_forall_ne_some.mpr fun other there => consistent.disjoint there found
  have full := consistent.full id unit found
  have started : ∀ other, (video.launch id unit).started.lookup other =
      if other = id then some { unit with started := true } else video.started.lookup other :=
    fun other => Map.lookup_insert_ite video.started id other _
  have waiting : ∀ other, (video.launch id unit).waiting.lookup other =
      if other = id then none else video.waiting.lookup other := fun other =>
    Map.lookup_erase_ite video.waiting id other
  have keeps : video.Keeps (video.launch id unit) := by
    constructor
    · rintro other before (there | there)
      · refine ⟨before, Or.inl ?_, rfl, rfl, rfl, rfl⟩
        rw [started, if_neg, there]
        rintro rfl
        exact consistent.disjoint there found
      · by_cases same : other = id
        · subst same
          cases there.symm.trans found
          exact ⟨{ unit with started := true }, Or.inl (by rw [started, if_pos rfl]),
            rfl, rfl, rfl, rfl⟩
        · exact ⟨before, Or.inr (by rw [waiting, if_neg same]; exact there), rfl, rfl, rfl, rfl⟩
    · rintro other after (there | there)
      · rw [started] at there
        split at there
        · rename_i same
          cases there
          exact ⟨unit, Or.inr (same ▸ found), rfl, rfl, rfl, rfl⟩
        · exact ⟨after, Or.inl there, .refl _⟩
      · rw [waiting] at there
        split at there
        · cases there
        · exact ⟨after, Or.inr there, .refl _⟩
  exact {
    bytes := by
      show video.videoBytes = Map.total _ (video.started.insert id { unit with started := true }) +
        Map.total _ (video.waiting.erase id)
      have same : ({ unit with started := true } : VideoUnit).len = unit.len := rfl
      rw [Map.total_insert_of_missing _ missing, Map.total_erase _ found, consistent.bytes, same]
      omega
    sending := fun other => by
      rw [started]
      show other ∈ insert id video.sending ↔ _
      rw [Finset.mem_insert, consistent.sending]
      by_cases same : other = id
      · simp [same, full]
      · simp [same]
    full := fun other after there => by
      rw [waiting] at there
      split at there
      · cases there
      · exact consistent.full other after there
    older := fun other running later member => by
      obtain ⟨after, there⟩ := (Map.mem_keys_iff _ _).mp member
      rw [waiting] at there
      split at there
      · cases there
      · rename_i different
        have behind : later ∈ video.waiting.keys := (Map.mem_keys_iff _ _).mpr ⟨after, there⟩
        have running : other ∈ (video.started.insert id { unit with started := true }).keys :=
          running
        rw [Map.keys_insert, Finset.mem_insert] at running
        rcases running with rfl | running
        · exact lt_of_le_of_ne (least later behind) (Ne.symm different)
        · exact consistent.older other running later behind
    known := keeps.known consistent rfl
    running := fun other after there => by
      rw [started] at there
      split at there
      · cases there
        rfl
      · exact consistent.running other after there
    resting := fun other after there => by
      rw [waiting] at there
      split at there
      · cases there
      · exact consistent.resting other after there
    copies := keeps.copies consistent rfl
    noneEmpty := consistent.noneEmpty
    strays := fun other after there => by
      rw [waiting] at there
      split at there
      · cases there
      · exact consistent.strays other after there
    inOrder := consistent.inOrder
    issued := consistent.issued
    history := keeps.history consistent rfl
    short := consistent.short }

/-! ### A unit leaves -/

/-- Settles the fate of a queued unit in the history of its track. -/
def settle (history : Map MediaId (Map Nat Fate)) (id : Nat) (unit : VideoUnit) (fate : Fate) :
    Map MediaId (Map Nat Fate) :=
  history.modify unit.mediaId fun history : Map Nat Fate =>
    history.modify unit.firstSeq fun known => if known = .queued id then fate else known

/-- Takes a unit out of the queues. -/
def remove (video : VideoQueues) (id : Nat) (unit : VideoUnit) (fate : Fate) : VideoQueues :=
  { video with
    started := video.started.erase id
    waiting := video.waiting.erase id
    sending := video.sending.erase id
    copies :=
      if unit.stray then video.copies
      else removeCopy video.copies (unit.mediaId, unit.firstSeq) id
    history := settle video.history id unit fate
    videoBytes := video.videoBytes - unit.len }

/-- What a history says after a unit left is what it said before, but for that unit. -/
theorem of_lookup_settle {history : Map MediaId (Map Nat Fate)} {id : Nat} {unit : VideoUnit}
    {fate known : Fate} {mediaId : MediaId} {past : Map Nat Fate} {seq : Nat}
    (found : (settle history id unit fate).lookup mediaId = some past)
    (remembered : past.lookup seq = some known) :
    ∃ before, history.lookup mediaId = some before ∧ past.keys = before.keys ∧
      ((mediaId = unit.mediaId ∧ seq = unit.firstSeq ∧ before.lookup seq = some (.queued id) ∧
          known = fate) ∨
        (before.lookup seq = some known ∧
          (mediaId = unit.mediaId → seq = unit.firstSeq → known ≠ .queued id))) := by
  unfold settle at found
  rw [Map.lookup_modify] at found
  split at found
  · rename_i track
    obtain ⟨before, there, same⟩ := Option.map_eq_some_iff.mp found
    refine ⟨before, there, by rw [← same, Map.keys_modify], ?_⟩
    rw [← same, Map.lookup_modify] at remembered
    split at remembered
    · rename_i start
      obtain ⟨old, known', same⟩ := Option.map_eq_some_iff.mp remembered
      split at same
      · rename_i own
        exact Or.inl ⟨track, start, own ▸ known', same.symm⟩
      · rename_i other
        subst same
        exact Or.inr ⟨known', fun _ _ => other⟩
    · rename_i elsewhere
      exact Or.inr ⟨remembered, fun _ start => absurd start elsewhere⟩
  · rename_i elsewhere
    exact ⟨past, found, rfl, Or.inr ⟨remembered, fun track => absurd track elsewhere⟩⟩

theorem Consistent.remove (consistent : video.Consistent) {id : Nat} {unit : VideoUnit}
    {fate : Fate} (found : video.Queued id unit) (settled : ∀ id, fate ≠ .queued id) :
    (video.remove id unit fate).Consistent := by
  have queued : ∀ other after, (video.remove id unit fate).Queued other after ↔
      other ≠ id ∧ video.Queued other after := by
    intro other after
    unfold Queued VideoQueues.remove
    rw [Map.lookup_erase_ite, Map.lookup_erase_ite]
    by_cases same : other = id
    · simp [same]
    · simp [same]
  have only : ∀ other, video.Queued id other → other = unit := fun _ there =>
    consistent.unique found there
  have started : ∀ other after, (video.remove id unit fate).started.lookup other = some after →
      other ≠ id ∧ video.started.lookup other = some after := by
    intro other after there
    have there : (video.started.erase id).lookup other = some after := there
    rw [Map.lookup_erase_ite] at there
    split at there
    · cases there
    · exact ⟨by assumption, there⟩
  have waiting : ∀ other after, (video.remove id unit fate).waiting.lookup other = some after →
      other ≠ id ∧ video.waiting.lookup other = some after := by
    intro other after there
    have there : (video.waiting.erase id).lookup other = some after := there
    rw [Map.lookup_erase_ite] at there
    split at there
    · cases there
    · exact ⟨by assumption, there⟩
  exact {
    bytes := by
      show video.videoBytes - unit.len =
        Map.total _ (video.started.erase id) + Map.total _ (video.waiting.erase id)
      rcases found with running | resting
      · have missing : video.waiting.lookup id = none :=
          Option.eq_none_iff_forall_ne_some.mpr fun _ resting => consistent.disjoint running resting
        rw [Map.total_erase _ running, Map.erase_of_missing missing, consistent.bytes]
        omega
      · have missing : video.started.lookup id = none :=
          Option.eq_none_iff_forall_ne_some.mpr fun _ running => consistent.disjoint running resting
        rw [Map.total_erase _ resting, Map.erase_of_missing missing, consistent.bytes]
        omega
    sending := fun other => by
      show other ∈ video.sending.erase id ↔ _
      rw [Finset.mem_erase, consistent.sending]
      constructor
      · rintro ⟨different, after, there, full⟩
        refine ⟨after, ?_, full⟩
        show (video.started.erase id).lookup other = some after
        rw [Map.lookup_erase_ite, if_neg different, there]
      · rintro ⟨after, there, full⟩
        obtain ⟨different, there⟩ := started other after there
        exact ⟨different, after, there, full⟩
    full := fun other after there => consistent.full other after (waiting other after there).2
    older := fun other running later member => by
      obtain ⟨after, there⟩ := (Map.mem_keys_iff _ _).mp running
      obtain ⟨after', there'⟩ := (Map.mem_keys_iff _ _).mp member
      exact consistent.older other ((Map.mem_keys_iff _ _).mpr ⟨after, (started _ _ there).2⟩)
        later ((Map.mem_keys_iff _ _).mpr ⟨after', (waiting _ _ there').2⟩)
    known := fun other after there => consistent.known other after ((queued other after).mp there).2
    running := fun other after there =>
      consistent.running other after (started other after there).2
    resting := fun other after there =>
      consistent.resting other after (waiting other after there).2
    copies := fun key other => by
      simp only [queued]
      unfold VideoQueues.remove
      split
      · rename_i stray
        rw [consistent.copies]
        constructor
        · rintro ⟨after, there, own, same⟩
          refine ⟨after, ⟨?_, there⟩, own, same⟩
          rintro rfl
          rw [only after there, stray] at own
          cases own
        · rintro ⟨after, ⟨-, there⟩, rest⟩
          exact ⟨after, there, rest⟩
      · rw [listed_removeCopy, consistent.copies]
        constructor
        · rintro ⟨elsewhere, after, there, own, same⟩
          refine ⟨after, ⟨?_, there⟩, own, same⟩
          rintro rfl
          rw [only after there] at same
          exact elsewhere ⟨same.symm, rfl⟩
        · rintro ⟨after, ⟨different, there⟩, rest⟩
          exact ⟨fun both => different both.2, after, there, rest⟩
    noneEmpty := by
      unfold VideoQueues.remove
      split
      · exact consistent.noneEmpty
      · exact consistent.noneEmpty.remove _ _
    strays := fun other after there => consistent.strays other after (waiting other after there).2
    inOrder := consistent.inOrder
    issued := consistent.issued
    history := fun mediaId past there seq other remembered => by
      obtain ⟨before, known, -, ⟨-, -, -, same⟩ | ⟨remembered, kept⟩⟩ :=
        of_lookup_settle there remembered
      · exact absurd same.symm (settled other)
      · obtain ⟨after, held, own, track, start⟩ :=
          consistent.history mediaId before known seq other remembered
        refine ⟨after, (queued other after).mpr ⟨?_, held⟩, own, track, start⟩
        rintro rfl
        rw [only after held] at track start
        exact kept track.symm start.symm rfl
    short := fun mediaId past there => by
      have there : (settle video.history id unit fate).lookup mediaId = some past := there
      unfold settle at there
      rw [Map.lookup_modify] at there
      split at there
      · obtain ⟨before, known, same⟩ := Option.map_eq_some_iff.mp there
        rw [← same, Map.keys_modify]
        exact consistent.short mediaId before known
      · exact consistent.short mediaId past there }

/-! ### Histories change -/

/-- Histories that name no other queued units and are no longer than before. -/
theorem Consistent.withHistory (consistent : video.Consistent)
    {history : Map MediaId (Map Nat Fate)}
    (remembers : ∀ mediaId past, history.lookup mediaId = some past → ∀ seq id,
      past.lookup seq = some (.queued id) → ∃ unit, video.Queued id unit ∧
        unit.stray = false ∧ unit.mediaId = mediaId ∧ unit.firstSeq = seq)
    (short : ∀ mediaId past, history.lookup mediaId = some past →
      past.keys.card ≤ historyLimit) : { video with history := history }.Consistent where
  bytes := consistent.bytes
  sending := consistent.sending
  full := consistent.full
  older := consistent.older
  known := consistent.known
  running := consistent.running
  resting := consistent.resting
  copies := consistent.copies
  noneEmpty := consistent.noneEmpty
  strays := consistent.strays
  inOrder := consistent.inOrder
  issued := consistent.issued
  history := remembers
  short := short

theorem lookup_historyOf {mediaId : MediaId} {seq : Nat} {fate : Fate}
    (remembered : (video.historyOf mediaId).lookup seq = some fate) :
    ∃ past, video.history.lookup mediaId = some past ∧ past.lookup seq = some fate := by
  unfold historyOf at remembered
  cases found : video.history.lookup mediaId with
  | none =>
    rw [found] at remembered
    cases remembered
  | some past =>
    rw [found] at remembered
    exact ⟨past, rfl, remembered⟩

theorem of_unitAt {mediaId : MediaId} {seq firstSeq : Nat} {fate : Fate}
    (found : video.unitAt mediaId seq = some (firstSeq, fate)) :
    (video.historyOf mediaId).lookup firstSeq = some fate ∧ firstSeq ≤ seq := by
  obtain ⟨first, greatest, known⟩ := Option.bind_eq_some_iff.mp found
  obtain ⟨fate, known, same⟩ := Option.map_eq_some_iff.mp known
  cases same
  exact ⟨known, (greatestIn_eq_some.mp greatest).1.2.2⟩

/-- A fate is recorded, of a queued unit only under its own track and first `seq`. -/
theorem Consistent.record (consistent : video.Consistent) {mediaId : MediaId} {seq : Nat}
    {fate : Fate} (names : ∀ id, fate = .queued id → ∃ unit, video.Queued id unit ∧
      unit.stray = false ∧ unit.mediaId = mediaId ∧ unit.firstSeq = seq) :
    { video with
      history := video.history.insert mediaId (remember (video.historyOf mediaId) seq fate)
    }.Consistent := by
  refine consistent.withHistory ?_ ?_
  · intro track past found start id remembered
    rw [Map.lookup_insert_ite] at found
    split at found
    · rename_i same
      cases found
      subst same
      rcases of_lookup_remember remembered with ⟨rfl, same⟩ | before
      · exact names id same.symm
      · obtain ⟨past, found, before⟩ := lookup_historyOf before
        exact consistent.history track past found start id before
    · exact consistent.history track past found start id remembered
  · intro track past found
    rw [Map.lookup_insert_ite] at found
    split at found
    · cases found
      exact card_remember _ _ _
    · exact consistent.short track past found

theorem queued_of_unit {id : Nat} {unit : VideoUnit} (found : video.unit id = some unit) :
    video.Queued id unit := by
  unfold VideoQueues.unit at found
  rcases Option.or_eq_some_iff.mp found with running | ⟨-, resting⟩
  · exact Or.inl running
  · exact Or.inr resting

/-- Replacing a started unit by one with the same packets changes only that unit. -/
theorem Consistent.putStarted_eq (consistent : video.Consistent) {id : Nat}
    {before after : VideoUnit} (found : video.started.lookup id = some before)
    (same : after.packets = before.packets) : video.putStarted id before after =
      { video with started := video.started.insert id after } := by
  have len : after.len = before.len := by rw [VideoUnit.len, same, VideoUnit.len]
  have sending : (if after.packets = [] then video.sending.erase id
      else insert id video.sending) = video.sending := by
    have member := consistent.sending id
    rw [found] at member
    split
    · rename_i empty
      refine Finset.erase_eq_of_notMem fun sends => ?_
      obtain ⟨unit, there, full⟩ := member.mp sends
      cases there
      exact full (same ▸ empty)
    · rename_i full
      exact Finset.insert_eq_self.mpr (member.mpr ⟨before, rfl, same ▸ full⟩)
  rw [VideoQueues.putStarted, sending, len, sub_add_cancel]

/-- Replacing a waiting unit by one with the same packets changes only that unit. -/
theorem putWaiting_eq {id : Nat} {before after : VideoUnit}
    (same : after.packets = before.packets) : video.putWaiting id before after =
      { video with waiting := video.waiting.insert id after } := by
  have len : after.len = before.len := by rw [VideoUnit.len, same, VideoUnit.len]
  rw [putWaiting, len, sub_add_cancel]

end VideoQueues

/-! ### Every operation keeps the queues consistent -/

namespace Queues

variable {queues : Queues}

/-- The queued units, their indexes and the history agree with one another. -/
def Consistent (queues : Queues) : Prop := VideoQueues.Consistent queues.toVideoQueues

theorem modifyUnit_started {id : Nat} {unit : VideoUnit} (update : VideoUnit → VideoUnit)
    (running : queues.started.lookup id = some unit) : queues.modifyUnit id update =
      { queues with started := queues.started.insert id (update unit) } := by
  unfold modifyUnit Map.modify
  rw [if_pos (Finmap.mem_iff.mpr ⟨unit, running⟩), running]

theorem modifyUnit_waiting {id : Nat} {unit : VideoUnit} (update : VideoUnit → VideoUnit)
    (missing : queues.started.lookup id = none) (resting : queues.waiting.lookup id = some unit) :
    queues.modifyUnit id update =
      { queues with waiting := queues.waiting.insert id (update unit) } := by
  unfold modifyUnit Map.modify
  rw [if_neg (Finmap.lookup_eq_none.mp missing), resting]

theorem Consistent.modifyUnit (consistent : queues.Consistent) {id : Nat} {unit : VideoUnit}
    {update : VideoUnit → VideoUnit} (found : queues.unit id = some unit)
    (alike : unit.Same (update unit)) (phase : (update unit).started = unit.started)
    (same : (update unit).packets = unit.packets) : (queues.modifyUnit id update).Consistent := by
  rcases Option.or_eq_some_iff.mp found with running | ⟨missing, resting⟩
  · have next := VideoQueues.Consistent.putStarted consistent running alike
      (phase.trans (consistent.running id unit running))
    rw [VideoQueues.Consistent.putStarted_eq consistent running same] at next
    rw [modifyUnit_started update running]
    exact next
  · have next := VideoQueues.Consistent.putWaiting consistent resting alike
      (same ▸ consistent.full id unit resting) (phase.trans (consistent.resting id unit resting))
    rw [VideoQueues.putWaiting_eq same] at next
    rw [modifyUnit_waiting update missing resting]
    exact next

theorem Consistent.finish_eq (consistent : queues.Consistent) {id : Nat} {unit : VideoUnit}
    (found : queues.unit id = some unit) (fate : Fate) :
    (queues.finish id fate).toVideoQueues = queues.remove id unit fate := by
  have waiting : (if id ∈ queues.started then queues.waiting else queues.waiting.erase id) =
      queues.waiting.erase id := by
    split
    · rename_i running
      obtain ⟨started, running⟩ := Finmap.mem_iff.mp running
      refine (Map.erase_of_missing ?_).symm
      exact Option.eq_none_iff_forall_ne_some.mpr fun _ resting =>
        consistent.disjoint running resting
    · rfl
  unfold finish
  rw [found]
  show VideoQueues.mk _ _ _ _ _ _ _ _ = _
  rw [waiting]
  rfl

theorem Consistent.finish (consistent : queues.Consistent) (id : Nat) {fate : Fate}
    (settled : ∀ id, fate ≠ .queued id) : (queues.finish id fate).Consistent := by
  cases found : queues.unit id with
  | none =>
    unfold Queues.finish
    rw [found]
    exact consistent
  | some unit =>
    unfold Consistent
    rw [consistent.finish_eq found]
    exact VideoQueues.Consistent.remove consistent (VideoQueues.queued_of_unit found) settled

theorem Consistent.countUnit (consistent : queues.Consistent) (unit : VideoUnit) :
    (queues.countUnit unit).Consistent := by
  unfold Queues.countUnit
  split
  · rename_i twin known
    obtain ⟨-, queued⟩ := Option.filter_eq_some_iff.mp known
    obtain ⟨other, there⟩ := Option.isSome_iff_exists.mp queued
    have alike : other.Same { other with copy := false } := ⟨rfl, rfl, rfl, rfl⟩
    exact consistent.modifyUnit there alike rfl rfl
  · split
    · exact consistent
    · exact consistent

theorem Consistent.dropUnit (consistent : queues.Consistent) (id : Nat) :
    (queues.dropUnit id).Consistent := by
  unfold Queues.dropUnit
  split
  · exact consistent
  · rename_i unit found
    have settled : ∀ id, Fate.dropped ≠ .queued id := fun _ => Fate.noConfusion
    exact (consistent.finish id settled).countUnit unit

/-! ### Arrivals -/

theorem Consistent.pushFirst (consistent : queues.Consistent) (packet : Packet) (now : Instant) :
    (queues.pushFirst packet now).Consistent := by
  let seen := (queues.historyOf packet.header.mediaId).lookup packet.header.seq
  let unit : VideoUnit :=
    { VideoUnit.new queues.nextId packet.header.mediaId packet.header.seq packet.bytes now with
      complete := packet.header.flags.contains .last
      copy := seen.isSome && seen ≠ some .dropped }
  have queued : (queues.add unit).Queued queues.nextId unit :=
    (VideoQueues.Consistent.queued_add consistent rfl queues.nextId unit).mpr (Or.inl ⟨rfl, rfl⟩)
  have added : (queues.add unit).Consistent :=
    VideoQueues.Consistent.add consistent rfl (List.cons_ne_nil _ _) rfl
  have names : ∀ id, Fate.queued queues.nextId = .queued id → ∃ other,
      (queues.add unit).Queued id other ∧ other.stray = false ∧
        other.mediaId = packet.header.mediaId ∧ other.firstSeq = packet.header.seq := by
    intro id same
    cases same
    exact ⟨unit, queued, rfl, rfl, rfl⟩
  exact added.record names

theorem Consistent.pushStray (consistent : queues.Consistent) (packet : Packet) (now : Instant) :
    (queues.pushStray packet now).Consistent := by
  let unit : VideoUnit :=
    { VideoUnit.new queues.nextId packet.header.mediaId packet.header.seq packet.bytes now with
      complete := true
      stray := true }
  have next : (queues.add unit).Consistent :=
    VideoQueues.Consistent.add consistent rfl (List.cons_ne_nil _ _) rfl
  exact next

theorem Consistent.pushFragment (consistent : queues.Consistent) (id : Nat) (packet : Packet)
    (now : Instant) : (queues.pushFragment id packet now).Consistent := by
  unfold Queues.pushFragment
  split
  · exact consistent
  · rename_i unit found
    split
    · exact consistent.dropUnit id
    · let after : VideoUnit :=
        { unit with
          packets := unit.packets ++ [packet.bytes]
          received := unit.received + 1
          lastFragment := now
          complete := unit.complete || packet.header.flags.contains .last }
      have alike : unit.Same after := ⟨rfl, rfl, rfl, rfl⟩
      have full : after.packets ≠ [] := List.append_ne_nil_of_right_ne_nil _ (List.cons_ne_nil _ _)
      have len : after.len = unit.len + packet.bytes.length := by
        show (List.map _ (unit.packets ++ [packet.bytes])).sum = _
        rw [List.map_append, List.sum_append, VideoUnit.len, List.map_singleton, List.sum_singleton]
      have bytes : queues.videoBytes - unit.len + after.len =
          queues.videoBytes + packet.bytes.length := by omega
      rcases Option.or_eq_some_iff.mp found with running | ⟨missing, resting⟩
      · have phase := consistent.running id unit running
        have next := VideoQueues.Consistent.putStarted consistent running alike phase
        unfold VideoQueues.putStarted at next
        rw [if_neg full, bytes] at next
        rw [modifyUnit_started _ running]
        simp only
        split
        · exact next
        · exact absurd phase (by assumption)
      · have phase := consistent.resting id unit resting
        have next := VideoQueues.Consistent.putWaiting consistent resting alike full phase
        unfold VideoQueues.putWaiting at next
        rw [bytes] at next
        rw [modifyUnit_waiting _ missing resting]
        simp only
        split
        · exact absurd phase (Bool.eq_false_iff.not.mpr (not_not.mpr (by assumption)))
        · exact next

theorem Consistent.pushVideo (consistent : queues.Consistent) (packet : Packet) (now : Instant) :
    (queues.pushVideo packet now).Consistent := by
  have active : Consistent
      { queues with activeTracks := insert packet.header.mediaId queues.activeTracks } := consistent
  unfold Queues.pushVideo
  simp only
  split
  · exact active.pushFirst packet now
  · split
    · exact active.pushFragment _ packet now
    · exact active.pushStray packet now
    · exact active
    · exact active

theorem Consistent.push (consistent : queues.Consistent) (packet : Packet) (now : Instant)
    (choice : MediaId) : (queues.push packet now choice).Consistent := by
  unfold Queues.push
  split
  · generalize queues.audio.push packet.header.mediaId packet.bytes choice = pushed
    obtain ⟨evicted, audio⟩ := pushed
    cases evicted with
    | none => exact consistent
    | some evicted => exact consistent
  · exact consistent.pushVideo packet now

theorem Consistent.recordFate (consistent : queues.Consistent) (mediaId : MediaId) (seq : Nat)
    {fate : Fate} (settled : ∀ id, fate ≠ .queued id) :
    (queues.record mediaId seq fate).Consistent :=
  VideoQueues.Consistent.record consistent fun id same => absurd same (settled id)

/-- The history of a track is there once something of it is lost. -/
theorem Consistent.enter (consistent : queues.Consistent) (mediaId : MediaId) :
    Consistent
      { queues with
        activeTracks := insert mediaId queues.activeTracks
        history := queues.history.insert mediaId (queues.historyOf mediaId) } := by
  refine VideoQueues.Consistent.withHistory consistent ?_ ?_
  · intro track past found seq id remembered
    rw [Map.lookup_insert_ite] at found
    split at found
    · rename_i same
      cases found
      subst same
      obtain ⟨past, found, remembered⟩ := VideoQueues.lookup_historyOf remembered
      exact consistent.history _ past found seq id remembered
    · exact consistent.history track past found seq id remembered
  · intro track past found
    rw [Map.lookup_insert_ite] at found
    split at found
    · cases found
      unfold VideoQueues.historyOf
      cases known : queues.history.lookup mediaId with
      | none => exact Nat.zero_le _
      | some past => exact consistent.short _ past known
    · exact consistent.short track past found

theorem Consistent.lose (consistent : queues.Consistent) (lost : Lost) :
    (queues.lose lost).Consistent := by
  have settled : ∀ id, Fate.dropped ≠ .queued id := fun _ => Fate.noConfusion
  have active := consistent.enter lost.mediaId
  unfold Queues.lose
  split
  · exact consistent
  · simp only
    split
    · split
      · exact active
      · exact active.recordFate _ _ settled
    · split
      · exact active.dropUnit _
      · exact active.recordFate _ _ settled
      · exact active
      · exact active.recordFate _ _ settled

/-! ### The budget -/

theorem Consistent.giveUpIdleUnits (consistent : queues.Consistent) (now : Instant) :
    (queues.giveUpIdleUnits now).Consistent := by
  have settled : ∀ id, Fate.sent ≠ .queued id := fun _ => Fate.noConfusion
  have all : ∀ (ids : List Nat) (queues : Queues), queues.Consistent →
      (ids.foldl (fun queues id => queues.finish id .sent) queues).Consistent := by
    intro ids
    induction ids with
    | nil => exact fun _ consistent => consistent
    | cons id rest inductionHypothesis =>
      exact fun queues consistent => inductionHypothesis _ (consistent.finish id settled)
  unfold Queues.giveUpIdleUnits
  split
  · exact consistent
  · exact all _ _ consistent

theorem Consistent.skipStrays (consistent : queues.Consistent) : queues.skipStrays.Consistent := by
  refine VideoQueues.Consistent.dropStrays consistent fun id member => ?_
  have there : id ∈ queues.waiting := Finmap.mem_keys.mp member
  simp [there]

theorem Consistent.dropLate (consistent : queues.Consistent) {now : Instant} {next : Queues}
    (dropped : queues.dropLate now = some next) : next.Consistent := by
  unfold Queues.dropLate at dropped
  split at dropped
  · obtain ⟨victim, -, rfl⟩ := Option.map_eq_some_iff.mp dropped
    exact consistent.skipStrays.dropUnit victim
  · cases dropped

theorem Consistent.dropExcess (consistent : queues.Consistent) {next : Queues}
    (dropped : queues.dropExcess = some next) : next.Consistent := by
  unfold Queues.dropExcess at dropped
  split at dropped
  · obtain ⟨victim, -, rfl⟩ := Option.map_eq_some_iff.mp dropped
    exact consistent.skipStrays.dropUnit victim
  · cases dropped

theorem Consistent.dropAllLate (consistent : queues.Consistent) (now : Instant) :
    (queues.dropAllLate now).Consistent :=
  loop_invariant Queues.Consistent consistent
    (fun _ _ consistent dropped => consistent.dropLate dropped) _

theorem Consistent.dropAllExcess (consistent : queues.Consistent) :
    queues.dropAllExcess.Consistent :=
  loop_invariant Queues.Consistent consistent
    (fun _ _ consistent dropped => consistent.dropExcess dropped) _

theorem Consistent.enforceBudget (consistent : queues.Consistent) (now : Instant) :
    (queues.enforceBudget now).Consistent := by
  have dropped := ((consistent.giveUpIdleUnits now).dropAllLate now).dropAllExcess
  unfold Queues.enforceBudget
  simp only
  split
  · exact dropped.skipStrays
  · exact dropped

theorem Consistent.forgetQuietTracks (consistent : queues.Consistent) :
    queues.forgetQuietTracks.Consistent := by
  refine VideoQueues.Consistent.withHistory consistent ?_ ?_
  · intro mediaId past found seq id remembered
    rw [Map.lookup_retain, Option.filter_eq_some_iff] at found
    exact consistent.history mediaId past found.1 seq id remembered
  · intro mediaId past found
    rw [Map.lookup_retain, Option.filter_eq_some_iff] at found
    exact consistent.short mediaId past found.1

/-! ### Sending -/

/-- Taking a packet doesn't depend on the unit's being listed as sending before. -/
theorem takeOff_sending (queues : Queues) (id : Nat) (unit : VideoUnit) (bytes : Datagram)
    (rest : List Datagram) :
    { queues with sending := insert id queues.sending }.takeOff id unit bytes rest =
      queues.takeOff id unit bytes rest := by
  unfold takeOff
  simp only [Finset.erase_insert_eq_erase, Finset.insert_idem]

theorem Consistent.takeOff (consistent : queues.Consistent) {id : Nat} {unit : VideoUnit}
    {bytes : Datagram} {rest : List Datagram} (found : queues.started.lookup id = some unit)
    (packets : unit.packets = bytes :: rest) : (queues.takeOff id unit bytes rest).Consistent := by
  let after : VideoUnit := { unit with packets := rest }
  have alike : unit.Same after := ⟨rfl, rfl, rfl, rfl⟩
  have len : unit.len = bytes.length + after.len := by
    rw [VideoUnit.len, packets, List.map_cons, List.sum_cons]
    rfl
  have left : queues.videoBytes - unit.len + after.len = queues.videoBytes - bytes.length := by
    omega
  have next := VideoQueues.Consistent.putStarted consistent found alike
    (consistent.running id unit found)
  unfold VideoQueues.putStarted at next
  rw [left] at next
  exact next

theorem Consistent.start (consistent : queues.Consistent) {id : Nat} {next : Queues}
    (started : queues.start = (some id, next)) :
    { next with sending := insert id next.sending }.Consistent ∧
      ∃ unit, next.started.lookup id = some unit ∧ unit.packets ≠ [] := by
  unfold Queues.start at started
  split at started
  · rename_i first least
    cases started
    have member := Finset.mem_of_min least
    obtain ⟨unit, found, full⟩ := (consistent.sending id).mp member
    refine ⟨?_, unit, found, full⟩
    rw [Finset.insert_eq_self.mpr member]
    exact consistent
  · split at started
    · cases started
    · rename_i first unit least
      obtain ⟨other, least, entry⟩ := Option.bind_eq_some_iff.mp least
      obtain ⟨_, held, same⟩ := Option.map_eq_some_iff.mp entry
      cases same
      obtain ⟨-, before⟩ := Map.firstKey_eq_some least
      have launched := VideoQueues.Consistent.launch consistent held before
      have left : ∀ later ∈ (queues.launch first unit).waiting.keys, decide (later ≤ first) = false :=
        fun later member => by
          obtain ⟨after, there⟩ := (Map.mem_keys_iff _ _).mp member
          have there : (queues.waiting.erase first).lookup later = some after := there
          rw [Map.lookup_erase_ite] at there
          split at there
          · cases there
          · rename_i different
            have behind := before later ((Map.mem_keys_iff _ _).mpr ⟨after, there⟩)
            exact decide_eq_false fun ahead => different (le_antisymm ahead behind)
      have skipped := VideoQueues.Consistent.dropStrays launched left
      have full := consistent.full _ _ held
      simp only at started
      split at started
      · cases started
        exact ⟨skipped, _, Finmap.lookup_insert _, full⟩
      · cases started
        exact ⟨skipped, _, Finmap.lookup_insert _, full⟩

/-- Sending a video packet takes the first of a started unit, which is finished with its
last; without one nothing changes. -/
theorem Consistent.popVideo_cases (consistent : queues.Consistent) :
    (queues.popVideo = (none, queues)) ∨
      ∃ id next unit bytes rest, queues.start = (some id, next) ∧
        next.started.lookup id = some unit ∧ unit.packets = bytes :: rest ∧
        (next.takeOff id unit bytes rest).Consistent ∧
        queues.popVideo = (some bytes,
          if rest = [] && unit.complete then (next.takeOff id unit bytes rest).finish id .sent
          else next.takeOff id unit bytes rest) := by
  unfold Queues.popVideo
  split
  · rename_i next started
    refine Or.inl ?_
    unfold Queues.start at started
    split at started
    · cases started
    · split at started
      · cases started
        rfl
      · cases started
  · rename_i id next started
    obtain ⟨ready, unit, found, full⟩ := consistent.start started
    obtain ⟨bytes, rest, packets⟩ := List.exists_cons_of_ne_nil full
    refine Or.inr ⟨id, next, unit, bytes, rest, started, found, packets, ?_, ?_⟩
    · rw [← takeOff_sending]
      exact ready.takeOff found packets
    · unfold Queues.takePacket
      simp only [found, packets]

theorem Consistent.popVideo (consistent : queues.Consistent) : queues.popVideo.2.Consistent := by
  have settled : ∀ id, Fate.sent ≠ .queued id := fun _ => Fate.noConfusion
  rcases consistent.popVideo_cases with same | ⟨id, next, unit, bytes, rest, _, _, _, taken, same⟩
  · rw [same]
    exact consistent
  · rw [same]
    simp only
    split
    · exact taken.finish id settled
    · exact taken

theorem Consistent.pop (consistent : queues.Consistent) : queues.pop.2.Consistent := by
  unfold Queues.pop
  split
  · exact consistent
  · rename_i audio popped
    have same : Consistent { queues with audio := audio } := consistent
    exact same.popVideo

theorem Consistent.step (consistent : queues.Consistent) (input : Input) :
    (queues.step input).Consistent := by
  cases input with
  | push packet now choice => exact consistent.push packet now choice
  | lose lost => exact consistent.lose lost
  | enforceBudget now => exact consistent.enforceBudget now
  | forgetQuietTracks => exact consistent.forgetQuietTracks
  | takeStats => exact consistent
  | pop => exact consistent.pop

theorem consistent_empty : ({} : Queues).Consistent where
  bytes := rfl
  sending := by simp
  full := by simp
  older := by simp
  known := by simp [VideoQueues.Queued]
  running := by simp
  resting := by simp
  copies := by simp [VideoQueues.Queued, Listed]
  noneEmpty := by simp [NoneEmpty]
  strays := by simp
  inOrder := List.Pairwise.nil
  issued := by simp
  history := by simp
  short := by simp

theorem Consistent.run (consistent : queues.Consistent) (inputs : List Input) :
    (Throcc.run Queues.step queues inputs).Consistent :=
  run_invariant Queues.step Queues.Consistent consistent
    (fun _ input consistent => consistent.step input) inputs

/-- Whatever is pushed, lost, dropped, forgotten and sent, in any order: the byte counter, the
sending units, the index of copies, the strays and the histories agree with the queued units. -/
theorem run_queuesAgree (inputs : List Input) : (run step {} inputs).Consistent :=
  consistent_empty.run inputs

end Queues

end Throcc
