/-
This file embeds the identity keys a user verified, which every process of an
install keeps in one file, and proves what their records keep to. Each process
decides on the copy it read last and changes the file as it is then. A change
noted on a copy that is out of date may be for a pair that no key is watched
under any more, so the records are proved consistent as long as that does not
happen, and not after it does.
-/

import Throcc.Map
import Throcc.Proto
import Throcc.Run
import Mathlib.Algebra.Order.BigOperators.Group.Finset
import Mathlib.Data.BitVec

namespace Throcc

/-! ### Records -/

/-- How many server and user pairs are kept per verified key. -/
def maxSeen : Nat := 256

structure SeenAs where
  server : Fingerprint
  user : UserId
deriving DecidableEq, Repr

structure VerifiedEntry where
  /-- The name they were shown with when verified. -/
  name : String := ""
  seen : Finset SeenAs := ∅
deriving DecidableEq

structure KeyChange where
  pair : SeenAs
  /-- The key shown there last that wasn't the verified one. -/
  now : PublicKey
deriving DecidableEq, Repr

/-- The verified keys and the changes noted against them. -/
structure VerifiedRecords where
  verified : Map PublicKey VerifiedEntry := ∅
  /-- Pairs seen under a verified key that later showed another, unverified key. -/
  changed : List KeyChange := []
deriving DecidableEq

namespace VerifiedRecords

/-- Forgets a pair on every verified key but the excepted one. -/
def forgetSeen (seen : SeenAs) (except : Option PublicKey) (records : VerifiedRecords) :
    VerifiedRecords :=
  { records with
    verified := records.verified.mapValues fun key verified =>
      if some key ≠ except then { verified with seen := verified.seen.erase seen }
      else verified }

/-- Notes that a key was seen as a pair, where no other verified key was seen since. -/
def see (key : PublicKey) (seen : SeenAs) (records : VerifiedRecords) : VerifiedRecords :=
  let records := records.forgetSeen seen (some key)
  { records with
    verified := records.verified.modify key fun verified =>
      if verified.seen.card < maxSeen then { verified with seen := insert seen verified.seen }
      else verified }

def changedAt (pair : SeenAs) (records : VerifiedRecords) : Option PublicKey :=
  (records.changed.find? fun change => change.pair = pair).map (·.now)

def forgetChange (pair : SeenAs) (records : VerifiedRecords) : VerifiedRecords :=
  { records with changed := records.changed.filter fun change => change.pair ≠ pair }

end VerifiedRecords

/-! ### One process -/

/-- The verified keys as one process has them. -/
structure VerifiedKeys where
  /-- Whether a file keeps them. Otherwise they are in memory only. -/
  dir : Bool
  records : VerifiedRecords := {}
  /-- The key shown last where a change is recorded with an earlier one. -/
  shownSince : Map SeenAs PublicKey := ∅

namespace VerifiedKeys

variable (keys : VerifiedKeys)

def isVerified (key : PublicKey) : Bool := (keys.records.verified.lookup key).isSome

/-- The verified key last seen as a pair: the first in the order of the keys' bytes. -/
def verifiedAt (seen : SeenAs) : Option PublicKey :=
  let under := (keys.records.verified.retain fun _ verified => seen ∈ verified.seen).keys
  (under.image BitVec.toNat).min.map (BitVec.ofNat 256)

/-- What a change makes of the records, with the keys shown since written first. -/
def apply (change : VerifiedRecords → VerifiedRecords) (records : VerifiedRecords) :
    VerifiedRecords :=
  change { records with
    changed := records.changed.map fun changed =>
      match keys.shownSince.lookup changed.pair with
      | some key => { changed with now := key }
      | none => changed }

/-- Applies a change to the file as it is on disk, then takes what it now holds. Nothing changes
if the file cannot be read or written. -/
def change (change : VerifiedRecords → VerifiedRecords) (file : VerifiedRecords) (works : Bool) :
    VerifiedKeys × VerifiedRecords :=
  if keys.dir then
    if works then
      let written := keys.apply change file
      ({ keys with records := written, shownSince := ∅ }, written)
    else
      (keys, file)
  else
    ({ keys with records := keys.apply change keys.records, shownSince := ∅ }, file)

/-- Notes that a server shows a key as a user: where it is verified, or where it replaces a
verified key seen there. -/
def presented (pair : SeenAs) (key : PublicKey) (file : VerifiedRecords) (works : Bool) :
    VerifiedKeys × VerifiedRecords :=
  let expected := keys.verifiedAt pair
  if keys.isVerified key then
    if expected = some key then
      (keys, file)
    else
      keys.change (fun records => (records.see key pair).forgetChange pair) file works
  else if expected = none then
    (keys, file)
  else if (keys.records.changedAt pair).isSome then
    ({ keys with shownSince := keys.shownSince.insert pair key }, file)
  else
    keys.change (fun records =>
      let records := records.forgetChange pair
      { records with changed := records.changed ++ [{ pair, now := key }] }) file works

/-- Verifies a key, which a server shows as a user under a name. -/
def verify (pair : SeenAs) (key : PublicKey) (name : String) (file : VerifiedRecords)
    (works : Bool) : VerifiedKeys × VerifiedRecords :=
  keys.change (fun records =>
    let entry := (records.verified.lookup key).getD {}
    let records := { records with verified := records.verified.insert key { entry with name } }
    let records := (records.see key pair).forgetChange pair
    { records with changed := records.changed.filter fun change => change.now ≠ key }) file works

/-- Takes a key off the verified ones, on every server, with the changes noted against it. -/
def unverify (key : PublicKey) (file : VerifiedRecords) (works : Bool) :
    VerifiedKeys × VerifiedRecords :=
  keys.change (fun records =>
    match records.verified.lookup key with
    | some verified =>
      { verified := records.verified.erase key
        changed := records.changed.filter fun change => change.pair ∉ verified.seen }
    | none => records) file works

/-- Stops the warning for a user on a server. If the presented key is a verified one, the pair
stays watched under it. -/
def dismissChange (pair : SeenAs) (presented : Option PublicKey) (file : VerifiedRecords)
    (works : Bool) : VerifiedKeys × VerifiedRecords :=
  let watched := presented.filter keys.isVerified
  let keys := { keys with shownSince := keys.shownSince.erase pair }
  keys.change (fun records =>
    let records := (records.forgetSeen pair none).forgetChange pair
    match watched with
    | some key => records.see key pair
    | none => records) file works

/-- Reads the file again. When it can't be read, none count as verified. -/
def reload (file : VerifiedRecords) (works : Bool) : VerifiedKeys :=
  if keys.dir then
    if works then { dir := true, records := file } else { dir := true }
  else
    keys

end VerifiedKeys

/-! ### All processes -/

/-- The processes of one install, with the file they share. -/
structure Install where
  file : VerifiedRecords := {}
  processes : Nat → VerifiedKeys

namespace Install

/-- Every process starts with none verified, some of them without a file. -/
def start (dirs : Nat → Bool) : Install where
  processes process := { dir := dirs process }

inductive Call where
  | presented (pair : SeenAs) (key : PublicKey)
  | verify (pair : SeenAs) (key : PublicKey) (name : String)
  | unverify (key : PublicKey)
  | dismissChange (pair : SeenAs) (presented : Option PublicKey)
  | reload

structure Input where
  process : Nat
  call : Call
  /-- Whether the file can be read and written. -/
  works : Bool := true

def step (install : Install) (input : Input) : Install :=
  let keys := install.processes input.process
  let (keys, file) := match input.call with
    | .presented pair key => keys.presented pair key install.file input.works
    | .verify pair key name => keys.verify pair key name install.file input.works
    | .unverify key => keys.unverify key install.file input.works
    | .dismissChange pair presented => keys.dismissChange pair presented install.file input.works
    | .reload => (keys.reload install.file input.works, install.file)
  { file, processes := Function.update install.processes input.process keys }

end Install

/-! ### What the records keep to -/

namespace VerifiedRecords

variable {records : VerifiedRecords}

/-- The pairs a key is recorded as seen under. -/
def seen (records : VerifiedRecords) (key : PublicKey) : Finset SeenAs :=
  ((records.verified.lookup key).map (·.seen)).getD ∅

/-- Every pair is seen under at most one key, no key has too many pairs, and the changes are for
distinct pairs that are seen. -/
structure Consistent (records : VerifiedRecords) : Prop where
  once : ∀ pair key other, pair ∈ records.seen key → pair ∈ records.seen other → key = other
  few : ∀ key, (records.seen key).card ≤ maxSeen
  watched : ∀ change ∈ records.changed, ∃ key, change.pair ∈ records.seen key
  single : (records.changed.map (·.pair)).Nodup

theorem consistent_start : ({} : VerifiedRecords).Consistent where
  once := nofun
  few _ := Nat.zero_le _
  watched := nofun
  single := List.nodup_nil

/-- The changes are at most as many as the pairs of all keys. -/
theorem Consistent.length_changed_le (consistent : records.Consistent) :
    records.changed.length ≤ records.verified.keys.card * maxSeen := by
  have pairs : (records.changed.map (·.pair)).toFinset ⊆
      records.verified.keys.biUnion records.seen := by
    intro pair isChanged
    rw [List.mem_toFinset, List.mem_map] at isChanged
    obtain ⟨change, isChange, rfl⟩ := isChanged
    obtain ⟨key, isSeen⟩ := consistent.watched change isChange
    refine Finset.mem_biUnion.mpr ⟨key, ?_, isSeen⟩
    rw [Map.mem_keys_iff]
    unfold seen at isSeen
    cases found : records.verified.lookup key with
    | none =>
      rw [found] at isSeen
      cases isSeen
    | some verified => exact ⟨verified, rfl⟩
  calc records.changed.length = (records.changed.map (·.pair)).toFinset.card := by
        rw [List.toFinset_card_of_nodup consistent.single, List.length_map]
    _ ≤ (records.verified.keys.biUnion records.seen).card := Finset.card_le_card pairs
    _ ≤ records.verified.keys.card * maxSeen :=
        Finset.card_biUnion_le_card_mul _ _ _ fun key _ => consistent.few key

theorem seen_forgetSeen (records : VerifiedRecords) (pair : SeenAs) (except : Option PublicKey)
    (key : PublicKey) :
    (records.forgetSeen pair except).seen key =
      if some key ≠ except then (records.seen key).erase pair else records.seen key := by
  unfold seen forgetSeen
  dsimp only
  rw [Map.lookup_mapValues]
  cases records.verified.lookup key with
  | none => simp
  | some verified =>
    dsimp only [Option.map_some, Option.getD_some]
    split <;> rfl

/-- Only the seen key may gain a pair, and every other one loses it. -/
theorem seen_see (records : VerifiedRecords) (key : PublicKey) (pair : SeenAs)
    (other : PublicKey) :
    (records.see key pair).seen other = if other = key then
      if (records.verified.lookup key).isSome ∧ (records.seen key).card < maxSeen then
        insert pair (records.seen key)
      else records.seen key
    else (records.seen other).erase pair := by
  have forgotten := records.seen_forgetSeen pair (some key) other
  unfold see
  unfold seen at forgotten ⊢
  dsimp only
  rw [Map.lookup_modify]
  split
  · rename_i same
    subst same
    rw [if_neg (not_not.mpr rfl)] at forgotten
    unfold forgetSeen at forgotten ⊢
    dsimp only at forgotten ⊢
    rw [Map.lookup_mapValues] at forgotten ⊢
    cases records.verified.lookup other with
    | none => simp
    | some verified =>
      dsimp only [Option.map_some, Option.getD_some] at forgotten ⊢
      simp only [Option.isSome_some, true_and, ne_eq, not_true_eq_false, ↓reduceIte]
      split <;> rfl
  · rename_i different
    rw [forgotten, if_pos fun same => different (Option.some.inj same)]

namespace Consistent

/-- Only what is seen and what is changed counts. -/
theorem congr {other : VerifiedRecords} (consistent : records.Consistent)
    (same : ∀ key, other.seen key = records.seen key)
    (fewer : List.Sublist (other.changed.map (·.pair)) (records.changed.map (·.pair))) :
    other.Consistent where
  once pair key key' := by
    rw [same, same]
    exact consistent.once pair key key'
  few key := by
    rw [same]
    exact consistent.few key
  watched change isChange := by
    have isPair := fewer.subset (List.mem_map_of_mem isChange)
    obtain ⟨change', isChange', samePair⟩ := List.mem_map.mp isPair
    rw [← samePair]
    obtain ⟨key, isSeen⟩ := consistent.watched change' isChange'
    exact ⟨key, same key ▸ isSeen⟩
  single := consistent.single.sublist fewer

theorem filter (consistent : records.Consistent) (keep : KeyChange → Bool) :
    Consistent { records with changed := records.changed.filter keep } :=
  consistent.congr (fun _ => rfl) (List.filter_sublist.map _)

theorem forgetSeen (consistent : records.Consistent) {pair : SeenAs}
    (unchanged : ∀ change ∈ records.changed, change.pair ≠ pair) (except : Option PublicKey) :
    (records.forgetSeen pair except).Consistent := by
  have fewer : ∀ key, (records.forgetSeen pair except).seen key ⊆ records.seen key := by
    intro key
    rw [seen_forgetSeen]
    split
    · exact Finset.erase_subset _ _
    · exact Finset.Subset.refl _
  refine
    { once := fun pair' key other isSeen isSeen' =>
        consistent.once pair' key other (fewer key isSeen) (fewer other isSeen')
      few := fun key => (Finset.card_le_card (fewer key)).trans (consistent.few key)
      watched := fun change isChange => ?_
      single := consistent.single }
  obtain ⟨key, isSeen⟩ := consistent.watched change isChange
  refine ⟨key, ?_⟩
  rw [seen_forgetSeen]
  split
  · exact Finset.mem_erase_of_ne_of_mem (unchanged change isChange) isSeen
  · exact isSeen

theorem see (consistent : records.Consistent) {pair : SeenAs}
    (unchanged : ∀ change ∈ records.changed, change.pair ≠ pair) (key : PublicKey) :
    (records.see key pair).Consistent where
  once pair' first second isSeen isSeen' := by
    by_cases same : pair' = pair
    · subst same
      -- No other key keeps the pair.
      have only : ∀ other, pair' ∈ (records.see key pair').seen other → other = key := by
        intro other isSeen
        by_contra different
        rw [seen_see, if_neg different] at isSeen
        exact Finset.notMem_erase _ _ isSeen
      rw [only first isSeen, only second isSeen']
    · have before : ∀ other, pair' ∈ (records.see key pair).seen other →
          pair' ∈ records.seen other := by
        intro other isSeen
        rw [seen_see] at isSeen
        split at isSeen
        · rename_i equal
          subst equal
          split at isSeen
          · exact Finset.mem_of_mem_insert_of_ne isSeen same
          · exact isSeen
        · exact Finset.mem_of_mem_erase isSeen
      exact consistent.once pair' first second (before first isSeen) (before second isSeen')
  few other := by
    rw [seen_see]
    split
    · split
      · rename_i room
        exact (Finset.card_insert_le _ _).trans room.2
      · exact consistent.few key
    · exact (Finset.card_le_card (Finset.erase_subset _ _)).trans (consistent.few other)
  watched change isChange := by
    obtain ⟨other, isSeen⟩ := consistent.watched change isChange
    refine ⟨other, ?_⟩
    rw [seen_see]
    split
    · rename_i equal
      subst equal
      split
      · exact Finset.mem_insert_of_mem isSeen
      · exact isSeen
    · exact Finset.mem_erase_of_ne_of_mem (unchanged change isChange) isSeen
  single := consistent.single

end Consistent

/-- With nothing left that changed at a pair, the pair may move. -/
theorem Consistent.forgetChange (consistent : records.Consistent) (pair : SeenAs) :
    (records.forgetChange pair).Consistent ∧
      ∀ change ∈ (records.forgetChange pair).changed, change.pair ≠ pair := by
  refine ⟨consistent.filter _, fun change isChange => ?_⟩
  exact of_decide_eq_true (List.mem_filter.mp isChange).2

/-- The order of noting a pair and forgetting its change does not matter. -/
theorem see_forgetChange (records : VerifiedRecords) (key : PublicKey) (pair : SeenAs) :
    (records.see key pair).forgetChange pair = (records.forgetChange pair).see key pair := rfl

theorem Consistent.unverify (consistent : records.Consistent) {key : PublicKey}
    {verified : VerifiedEntry} (found : records.verified.lookup key = some verified) :
    Consistent
      { verified := records.verified.erase key
        changed := records.changed.filter fun change => change.pair ∉ verified.seen } := by
  have isSeen : records.seen key = verified.seen := by
    unfold seen
    rw [found]
    rfl
  have others : ∀ other, seen { records with verified := records.verified.erase key } other =
      if other = key then ∅ else records.seen other := by
    intro other
    unfold seen
    dsimp only
    rw [Map.lookup_erase_ite]
    split <;> rfl
  have fewer : ∀ other, seen { records with verified := records.verified.erase key } other ⊆
      records.seen other := by
    intro other
    rw [others]
    split
    · exact Finset.empty_subset _
    · exact Finset.Subset.refl _
  refine
    { once := fun pair first second inFirst inSecond =>
        consistent.once pair first second (fewer first inFirst) (fewer second inSecond)
      few := fun other => (Finset.card_le_card (fewer other)).trans (consistent.few other)
      watched := fun change isChange => ?_
      single := consistent.single.sublist (List.filter_sublist.map _) }
  obtain ⟨isChange, elsewhere⟩ := List.mem_filter.mp isChange
  obtain ⟨other, inOther⟩ := consistent.watched change isChange
  refine ⟨other, (others other).symm ▸ ?_⟩
  rw [if_neg]
  · exact inOther
  · rintro rfl
    exact of_decide_eq_true elsewhere (isSeen ▸ inOther)

/-- A change may be noted exactly where its pair is seen. -/
theorem consistent_push_iff (consistent : records.Consistent) {pair : SeenAs}
    (unchanged : ∀ change ∈ records.changed, change.pair ≠ pair) (now : PublicKey) :
    Consistent { records with changed := records.changed ++ [{ pair, now }] } ↔
      ∃ key, pair ∈ records.seen key := by
  constructor
  · intro pushed
    exact pushed.watched { pair, now } (List.mem_append_right _ (List.mem_singleton_self _))
  · intro isSeen
    refine
      { once := consistent.once
        few := consistent.few
        watched := fun change isChange => ?_
        single := ?_ }
    · rcases List.mem_append.mp isChange with before | new
      · exact consistent.watched change before
      · rw [List.mem_singleton] at new
        rw [new]
        exact isSeen
    · rw [List.map_append]
      refine List.nodup_append.mpr ⟨consistent.single, List.nodup_singleton _, ?_⟩
      intro first isFirst second isSecond same
      obtain ⟨change, isChange, rfl⟩ := List.mem_map.mp isFirst
      rw [List.map_singleton, List.mem_singleton] at isSecond
      exact unchanged change isChange (same.trans isSecond)

end VerifiedRecords

/-! ### What each operation keeps -/

namespace VerifiedKeys

open VerifiedRecords

variable {keys : VerifiedKeys} {file : VerifiedRecords}

/-- The records a change applies to. -/
def target (keys : VerifiedKeys) (file : VerifiedRecords) : VerifiedRecords :=
  if keys.dir then file else keys.records

/-- The copy and the file are consistent. -/
def BothConsistent (keys : VerifiedKeys) (file : VerifiedRecords) : Prop :=
  keys.records.Consistent ∧ file.Consistent

theorem mem_verifiedAt {seen : SeenAs} {key : PublicKey} (found : keys.verifiedAt seen = some key) :
    seen ∈ keys.records.seen key := by
  unfold verifiedAt at found
  obtain ⟨bytes, isMin, rfl⟩ := Option.map_eq_some_iff.mp found
  obtain ⟨key, isKey, rfl⟩ := Finset.mem_image.mp (Finset.mem_of_min isMin)
  obtain ⟨verified, kept⟩ := (Map.mem_keys_iff _ _).mp isKey
  rw [Map.lookup_retain, Option.filter_eq_some_iff] at kept
  rw [BitVec.ofNat_toNat, BitVec.setWidth_eq]
  unfold VerifiedRecords.seen
  rw [kept.1]
  exact of_decide_eq_true kept.2

/-- Writing the keys shown since changes no pair. -/
theorem written_pairs (keys : VerifiedKeys) (changed : List KeyChange) :
    (changed.map fun changed =>
      match keys.shownSince.lookup changed.pair with
      | some key => { changed with now := key }
      | none => changed).map (·.pair) = changed.map (·.pair) := by
  rw [List.map_map]
  refine List.map_congr_left fun changed _ => ?_
  dsimp only [Function.comp]
  split <;> rfl

/-- A change of consistent records that see the same pairs keeps both consistent. -/
theorem BothConsistent.change (both : keys.BothConsistent file)
    {change : VerifiedRecords → VerifiedRecords} (works : Bool)
    (keeps : ∀ records : VerifiedRecords, records.Consistent →
      records.seen = (keys.target file).seen → (keys.dir = true → works = true) →
      (change records).Consistent) :
    (keys.change change file works).1.BothConsistent (keys.change change file works).2 := by
  have applied : (keys.target file).Consistent → (keys.dir = true → works = true) →
      (keys.apply change (keys.target file)).Consistent := by
    intro consistent written
    refine keeps _ (consistent.congr (fun _ => rfl) ?_) rfl written
    dsimp only
    rw [written_pairs]
  unfold target at applied
  unfold VerifiedKeys.change
  split
  · rename_i shared
    rw [if_pos shared] at applied
    split
    · rename_i written
      exact ⟨applied both.2 fun _ => written, applied both.2 fun _ => written⟩
    · exact both
  · rename_i own
    rw [if_neg own] at applied
    exact ⟨applied both.1 fun shared => absurd shared own, both.2⟩

/-- Whether presenting a key has a change noted. -/
def NotesChange (keys : VerifiedKeys) (pair : SeenAs) (key : PublicKey) : Prop :=
  keys.isVerified key = false ∧ keys.verifiedAt pair ≠ none ∧
    (keys.records.changedAt pair).isSome = false

instance NotesChange.decidable (keys : VerifiedKeys) (pair : SeenAs) (key : PublicKey) :
    Decidable (keys.NotesChange pair key) :=
  inferInstanceAs (Decidable (_ ∧ _ ≠ _ ∧ _))

/-- Notes that a pair now shows a key. -/
def note (pair : SeenAs) (now : PublicKey) (records : VerifiedRecords) : VerifiedRecords :=
  let records := records.forgetChange pair
  { records with changed := records.changed ++ [{ pair, now }] }

theorem presented_of_notes {pair : SeenAs} {key : PublicKey} (notes : keys.NotesChange pair key)
    (file : VerifiedRecords) (works : Bool) :
    keys.presented pair key file works = keys.change (note pair key) file works := by
  obtain ⟨unverified, expected, unchanged⟩ := notes
  unfold presented
  simp only [unverified, unchanged, if_neg expected, Bool.false_eq_true, ↓reduceIte]
  rfl

theorem BothConsistent.presented (both : keys.BothConsistent file) (pair : SeenAs)
    (key : PublicKey) {works : Bool}
    (still : keys.NotesChange pair key → keys.dir = true → works = true →
      ∃ other, pair ∈ file.seen other) :
    (keys.presented pair key file works).1.BothConsistent
      (keys.presented pair key file works).2 := by
  by_cases notes : keys.NotesChange pair key
  · rw [presented_of_notes notes]
    refine both.change works fun records consistent same written => ?_
    obtain ⟨consistent, unchanged⟩ := consistent.forgetChange pair
    refine (consistent_push_iff consistent unchanged key).mpr ?_
    have kept : (records.forgetChange pair).seen = records.seen := rfl
    rw [kept, same]
    unfold target
    split
    · rename_i shared
      exact still notes shared (written shared)
    · -- In memory the pair is seen as it was when its key was looked up.
      obtain ⟨expected, found⟩ := Option.ne_none_iff_exists'.mp notes.2.1
      exact ⟨expected, mem_verifiedAt found⟩
  · unfold VerifiedKeys.presented
    dsimp only
    split
    · split
      · exact both
      · refine both.change works fun records consistent _ _ => ?_
        rw [see_forgetChange]
        obtain ⟨consistent, unchanged⟩ := consistent.forgetChange pair
        exact consistent.see unchanged key
    · rename_i unverified
      split
      · exact both
      · rename_i expected
        split
        · exact both
        · rename_i unchanged
          exact absurd ⟨Bool.eq_false_of_not_eq_true unverified, expected,
            Bool.eq_false_of_not_eq_true unchanged⟩ notes

theorem BothConsistent.verify (both : keys.BothConsistent file) (pair : SeenAs)
    (key : PublicKey) (name : String) (works : Bool) :
    (keys.verify pair key name file works).1.BothConsistent
      (keys.verify pair key name file works).2 := by
  refine both.change works fun records consistent _ _ => ?_
  refine Consistent.filter ?_ _
  rw [see_forgetChange]
  have named : Consistent { records with
      verified := records.verified.insert key
        { (records.verified.lookup key).getD {} with name } } := by
    refine consistent.congr (fun other => ?_) (List.Sublist.refl _)
    unfold seen
    dsimp only
    rw [Map.lookup_insert_ite]
    split
    · rename_i same
      rw [same]
      cases records.verified.lookup key <;> rfl
    · rfl
  obtain ⟨named, unchanged⟩ := named.forgetChange pair
  exact named.see unchanged key

theorem BothConsistent.unverify (both : keys.BothConsistent file) (key : PublicKey)
    (works : Bool) :
    (keys.unverify key file works).1.BothConsistent (keys.unverify key file works).2 := by
  refine both.change works fun records consistent _ _ => ?_
  split
  · rename_i verified found
    exact consistent.unverify found
  · exact consistent

theorem BothConsistent.dismissChange (both : keys.BothConsistent file) (pair : SeenAs)
    (presented : Option PublicKey) (works : Bool) :
    (keys.dismissChange pair presented file works).1.BothConsistent
      (keys.dismissChange pair presented file works).2 := by
  unfold VerifiedKeys.dismissChange
  have both' : BothConsistent { keys with shownSince := keys.shownSince.erase pair } file := both
  refine both'.change works fun records consistent _ _ => ?_
  obtain ⟨forgotten, unchanged⟩ := consistent.forgetChange pair
  have forgotten : ((records.forgetSeen pair none).forgetChange pair).Consistent :=
    forgotten.forgetSeen unchanged none
  dsimp only
  split
  · exact forgotten.see unchanged _
  · exact forgotten

theorem BothConsistent.reload (both : keys.BothConsistent file) (works : Bool) :
    (keys.reload file works).BothConsistent file := by
  unfold VerifiedKeys.reload
  split
  · split
    · exact ⟨both.2, both.2⟩
    · exact ⟨consistent_start, both.2⟩
  · exact both

end VerifiedKeys

/-! ### Runs -/

namespace Install

variable {install : Install}

/-- The file and every process's copy are consistent. -/
def AllConsistent (install : Install) : Prop :=
  install.file.Consistent ∧ ∀ process, (install.processes process).records.Consistent

/-- Where a change is noted in the file, the file still has its pair seen under some key. -/
def StillSeen (install : Install) (input : Input) : Prop :=
  ∀ pair key, input.call = .presented pair key →
    (install.processes input.process).NotesChange pair key →
    (install.processes input.process).dir = true → input.works = true →
    ∃ other, pair ∈ install.file.seen other

theorem AllConsistent.step (all : install.AllConsistent) {input : Input}
    (still : install.StillSeen input) : (install.step input).AllConsistent := by
  have both : (install.processes input.process).BothConsistent install.file :=
    ⟨all.2 input.process, all.1⟩
  -- Only the process at hand and the file change.
  have others : ∀ keys file, keys.BothConsistent file →
      AllConsistent { file, processes := Function.update install.processes input.process keys } := by
    intro keys file both
    refine ⟨both.2, fun process => ?_⟩
    dsimp only
    rw [Function.update_apply]
    split
    · exact both.1
    · exact all.2 process
  obtain ⟨process, call, works⟩ := input
  cases call with
  | presented pair key => exact others _ _ (both.presented pair key (still pair key rfl))
  | verify pair key name => exact others _ _ (both.verify pair key name works)
  | unverify key => exact others _ _ (both.unverify key works)
  | dismissChange pair presented => exact others _ _ (both.dismissChange pair presented works)
  | reload => exact others _ _ (both.reload works)

/-- A change that is noted for a pair nobody is watched under any more stays in the file. -/
theorem stillSeen_of_step {input : Input}
    (consistent : (install.step input).file.Consistent) : install.StillSeen input := by
  obtain ⟨process, call, works⟩ := input
  rintro pair key rfl notes shared written
  have file : (install.step ⟨process, .presented pair key, works⟩).file =
      (install.processes process).apply (VerifiedKeys.note pair key) install.file := by
    unfold Install.step
    dsimp only
    rw [VerifiedKeys.presented_of_notes notes]
    unfold VerifiedKeys.change
    dsimp only at shared written
    rw [if_pos shared, if_pos written]
  rw [file] at consistent
  exact consistent.watched { pair, now := key }
    (List.mem_append_right _ (List.mem_singleton_self _))

/-- As long as every change is noted for a pair that is still watched, the file and every copy of it
are consistent, and the file holds no more changes than the pairs that are seen. A step that
notes a change for another pair leaves the file inconsistent. -/
theorem run_keysAgree {dirs : Nat → Bool} {inputs : List Input}
    (along : Along step StillSeen (start dirs) inputs) :
    let install := run step (start dirs) inputs
    install.AllConsistent ∧
      install.file.changed.length ≤ install.file.verified.keys.card * maxSeen ∧
      ∀ input, (install.step input).file.Consistent ↔ install.StillSeen input := by
  intro install
  have all : install.AllConsistent :=
    along.invariant AllConsistent
      ⟨VerifiedRecords.consistent_start, fun _ => VerifiedRecords.consistent_start⟩
      fun _ _ all still => all.step still
  exact ⟨all, all.1.length_changed_le, fun input =>
    ⟨stillSeen_of_step, fun still => (all.step still).1⟩⟩

/-- The first process verifies a key, the second reads it, the first takes it off again, and the
second is shown another one. -/
def outOfDate : List Input :=
  [⟨0, .verify ⟨1, 4⟩ 4 "Mara", true⟩, ⟨1, .reload, true⟩, ⟨0, .unverify 4, true⟩,
    ⟨1, .presented ⟨1, 4⟩ 9, true⟩]

/-- A change is recorded for a pair that is seen under no key. -/
theorem change_of_unseen : ¬(run step (start fun _ => true) outOfDate).file.Consistent := by
  have file : (run step (start fun _ => true) outOfDate).file =
      { verified := ∅, changed := [⟨⟨1, 4⟩, 9⟩] } := by
    decide +kernel
  rw [file]
  intro consistent
  obtain ⟨key, isSeen⟩ := consistent.watched _ (List.mem_singleton_self _)
  cases isSeen

/-- The second process is shown another key while the first still watches the pair. -/
theorem run_keysAgree_watched :
    let install := run step (start fun _ => true)
      [⟨0, .verify ⟨1, 4⟩ 4 "Mara", true⟩, ⟨1, .reload, true⟩, ⟨1, .presented ⟨1, 4⟩ 9, true⟩]
    install.file.Consistent ∧ install.file.changed = [⟨⟨1, 4⟩, 9⟩] := by
  have along : Along step StillSeen (start fun _ => true)
      [⟨0, .verify ⟨1, 4⟩ 4 "Mara", true⟩, ⟨1, .reload, true⟩,
        ⟨1, .presented ⟨1, 4⟩ 9, true⟩] := by
    refine ⟨nofun, nofun, fun pair key same _ _ _ => ⟨4, ?_⟩, trivial⟩
    obtain ⟨rfl, rfl⟩ := Call.presented.inj same
    decide +kernel
  exact ⟨(run_keysAgree along).1.1, by decide +kernel⟩

end Install

end Throcc
