/-
This file embeds whom a session shows as verified or warns of, over the verified keys that all
sessions of the app share, and shows when a warning is raised and how long it stays.

A warning is a change noted for a user that is seen under a verified key. Every step that is
not one of the user's answers to it, and that does not present another verified key for that
user, leaves both facts about that user and server as they are, whatever it does elsewhere.
That a server shows an unverified key raises it only if the session had not noted that very
key already: what was noted is not compared with the verified keys again.
-/

import Throcc.Verified

namespace Throcc

/-- The unverified key shown last where a change is noted. -/
def VerifiedKeys.changedAt (keys : VerifiedKeys) (pair : SeenAs) : Option PublicKey :=
  (keys.records.changedAt pair).map fun written => (keys.shownSince.lookup pair).getD written

/-- The key shown as a user replaced one that was verified. -/
structure KeyWarning where
  user : UserId
  verified : Fingerprint
  now : Fingerprint

/-- Who is verified on one server, as one session knows it. -/
structure Trust where
  server : Fingerprint
  /-- The identity key each user last presented this session. -/
  presented : Map UserId PublicKey := ∅
deriving DecidableEq

namespace Trust

variable (trust : Trust) (keys : VerifiedKeys) (file : VerifiedRecords) (works : Bool)

/-- A user as seen here. -/
def seenAs (user : UserId) : SeenAs := ⟨trust.server, user⟩

/-- Forgets every presented key, for a new connection. -/
def forgetPresented : Trust := { trust with presented := ∅ }

/-- Presents keys one after the other. A file that can't be written is only logged. -/
def presentAll (shown : List (UserId × PublicKey)) : VerifiedKeys × VerifiedRecords :=
  shown.foldl (fun kept shown => kept.1.presented (trust.seenAs shown.1) shown.2 kept.2 works)
    (keys, file)

/-- The keys of a note that the session doesn't know yet. -/
def new (peers : List (UserId × PublicKey)) : List (UserId × PublicKey) :=
  peers.filter fun shown => trust.presented.lookup shown.1 ≠ some shown.2

/-- Notes the identity keys that peers present, and tells whether any is new. Once `maxSignedIn`
are noted, only those of the peers and of users with a changed key stay. -/
def note (peers : List (UserId × PublicKey)) : Bool × Trust × VerifiedKeys × VerifiedRecords :=
  let new := trust.new peers
  if new = [] then
    (false, trust, keys, file)
  else
    let presented :=
      if trust.presented.keys.card + new.length > maxSignedIn then
        trust.presented.retain fun user _ =>
          user ∈ peers.map (·.1) ∨ (keys.changedAt (trust.seenAs user)).isSome
      else
        trust.presented
    let presented := new.foldl (fun presented shown => presented.insert shown.1 shown.2) presented
    (true, { trust with presented }, trust.presentAll keys file works new)

/-- The warning that the key shown as a user replaced a verified one. -/
def warning (user : UserId) : Option KeyWarning := do
  let now ← keys.changedAt (trust.seenAs user)
  let before ← keys.verifiedAt (trust.seenAs user)
  return { user, verified := before, now }

/-- Verifies a key, or takes it off the verified ones, if the user still presents it. -/
def setVerified (user : UserId) (key : PublicKey) (verified : Bool) (name : String) :
    Bool × VerifiedKeys × VerifiedRecords :=
  if trust.presented.lookup user ≠ some key then
    (false, keys, file)
  else if verified then
    (true, keys.verify (trust.seenAs user) key name file works)
  else
    (true, keys.unverify key file works)

/-- Stops warning that a user's key changed, if they still present the key that was looked at. -/
def dismissChange (user : UserId) (shown : Option PublicKey) :
    Bool × VerifiedKeys × VerifiedRecords :=
  let presented := trust.presented.lookup user
  if presented ≠ shown then
    (false, keys, file)
  else
    (true, keys.dismissChange (trust.seenAs user) presented file works)

end Trust

/-! ### The app -/

/-- The sessions of one process, which share its verified keys, and the file they are kept in. -/
structure App where
  file : VerifiedRecords := {}
  keys : VerifiedKeys := { dir := true }
  sessions : Map Nat Trust := ∅

namespace App

inductive Input where
  /-- Starts again from the stored records. -/
  | restart
  | reload
  | openSession (session : Nat) (server : Fingerprint)
  /-- Connects a session anew. -/
  | reconnect (session : Nat)
  /-- The server shows a session its peers' keys. -/
  | note (session : Nat) (peers : Map UserId PublicKey)
  | setVerified (session : Nat) (user : UserId) (key : PublicKey) (verified : Bool)
      (name : String)
  /-- Takes a key off the list of verified ones. -/
  | unverify (key : PublicKey)
  | dismissChange (session : Nat) (user : UserId) (shown : Option PublicKey)

/-- One step, where the file can be read and written. -/
def step (app : App) : Input → App
  | .restart => { file := app.file, keys := { dir := true, records := app.file } }
  | .reload => { app with keys := app.keys.reload app.file true }
  | .openSession session server =>
    { app with sessions := app.sessions.insert session { server } }
  | .reconnect session =>
    { app with sessions := app.sessions.modify session Trust.forgetPresented }
  | .note session peers =>
    (app.sessions.lookup session).elim app fun trust =>
      let (_, trust, keys, file) := trust.note app.keys app.file true peers.toList
      { file, keys, sessions := app.sessions.insert session trust }
  | .setVerified session user key verified name =>
    (app.sessions.lookup session).elim app fun trust =>
      let (_, keys, file) := trust.setVerified app.keys app.file true user key verified name
      { app with keys, file }
  | .unverify key =>
    let (keys, file) := app.keys.unverify key app.file true
    { app with keys, file }
  | .dismissChange session user shown =>
    (app.sessions.lookup session).elim app fun trust =>
      let (_, keys, file) := trust.dismissChange app.keys app.file true user shown
      { app with keys, file }

end App

/-! ### One pair of the records -/

namespace VerifiedRecords

variable {records : VerifiedRecords}

/-- Two states of the records say the same of a pair. -/
structure SameAt (pair : SeenAs) (before after : VerifiedRecords) : Prop where
  seen : ∀ key, pair ∈ after.seen key ↔ pair ∈ before.seen key
  changed : pair ∈ after.changed.map (·.pair) ↔ pair ∈ before.changed.map (·.pair)

theorem SameAt.refl (pair : SeenAs) (records : VerifiedRecords) : SameAt pair records records :=
  ⟨fun _ => Iff.rfl, Iff.rfl⟩

theorem SameAt.trans {pair : SeenAs} {before between after : VerifiedRecords}
    (first : SameAt pair before between) (second : SameAt pair between after) :
    SameAt pair before after :=
  ⟨fun key => (second.seen key).trans (first.seen key), second.changed.trans first.changed⟩

variable {pair other : SeenAs}

theorem sameAt_forgetChange (elsewhere : pair ≠ other) (records : VerifiedRecords) :
    SameAt pair records (records.forgetChange other) := by
  refine ⟨fun _ => Iff.rfl, ?_⟩
  simp only [forgetChange, List.mem_map, List.mem_filter, decide_eq_true_eq]
  constructor
  · rintro ⟨change, ⟨isChange, _⟩, rfl⟩
    exact ⟨change, isChange, rfl⟩
  · rintro ⟨change, isChange, rfl⟩
    exact ⟨change, ⟨isChange, elsewhere⟩, rfl⟩

theorem sameAt_forgetSeen (elsewhere : pair ≠ other) (except : Option PublicKey)
    (records : VerifiedRecords) : SameAt pair records (records.forgetSeen other except) := by
  refine ⟨fun key => ?_, Iff.rfl⟩
  rw [seen_forgetSeen]
  split
  · rw [Finset.mem_erase, and_iff_right elsewhere]
  · rfl

theorem sameAt_see (elsewhere : pair ≠ other) (key : PublicKey) (records : VerifiedRecords) :
    SameAt pair records (records.see key other) := by
  refine ⟨fun key' => ?_, Iff.rfl⟩
  rw [seen_see]
  split
  case isTrue same =>
    subst same
    split
    · rw [Finset.mem_insert, or_iff_right elsewhere]
    · rfl
  case isFalse => rw [Finset.mem_erase, and_iff_right elsewhere]

theorem sameAt_push (elsewhere : pair ≠ other) (now : PublicKey) (records : VerifiedRecords) :
    SameAt pair records
      { records with changed := records.changed ++ [{ pair := other, now }] } := by
  refine ⟨fun _ => Iff.rfl, ?_⟩
  rw [List.map_append, List.mem_append, List.map_singleton, List.mem_singleton,
    or_iff_left elsewhere]

theorem sameAt_filter {keep : KeyChange → Bool}
    (kept : pair ∈ records.changed.map (·.pair) →
      ∃ change ∈ records.changed, change.pair = pair ∧ keep change = true) :
    SameAt pair records { records with changed := records.changed.filter keep } := by
  refine ⟨fun _ => Iff.rfl, fun isChanged => ?_, fun isChanged => ?_⟩
  · obtain ⟨change, isChange, same⟩ := List.mem_map.mp isChanged
    exact List.mem_map.mpr ⟨change, (List.mem_filter.mp isChange).1, same⟩
  · obtain ⟨change, isChange, same, keeps⟩ := kept isChanged
    exact List.mem_map.mpr ⟨change, List.mem_filter.mpr ⟨isChange, keeps⟩, same⟩

/-- Verifying a key under a name changes no pair. -/
theorem sameAt_named (pair : SeenAs) (key : PublicKey) (name : String)
    (records : VerifiedRecords) :
    SameAt pair records { records with
      verified := records.verified.insert key
        { (records.verified.lookup key).getD {} with name } } := by
  refine ⟨fun other => ?_, Iff.rfl⟩
  unfold seen
  dsimp only
  rw [Map.lookup_insert_ite]
  split
  case isTrue same =>
    rw [same]
    cases records.verified.lookup key <;> rfl
  case isFalse => rfl

/-- A pair that is not seen under a key doesn't miss it. -/
theorem sameAt_unverified {key : PublicKey} (unseen : pair ∉ records.seen key) :
    SameAt pair records (match records.verified.lookup key with
      | some verified =>
        { verified := records.verified.erase key
          changed := records.changed.filter fun change => change.pair ∉ verified.seen }
      | none => records) := by
  cases found : records.verified.lookup key with
  | none => exact SameAt.refl pair records
  | some verified =>
    have isSeen : records.seen key = verified.seen := by
      unfold seen
      rw [found]
      rfl
    have others : SameAt pair records { records with verified := records.verified.erase key } := by
      refine ⟨fun other => ?_, Iff.rfl⟩
      unfold seen
      dsimp only
      rw [Map.lookup_erase_ite]
      split
      case isTrue same =>
        subst same
        exact iff_of_false (Finset.notMem_empty pair) unseen
      case isFalse => rfl
    refine others.trans (sameAt_filter fun isChanged => ?_)
    obtain ⟨change, isChange, same⟩ := List.mem_map.mp isChanged
    refine ⟨change, isChange, same, decide_eq_true ?_⟩
    rw [← isSeen, same]
    exact unseen

theorem isSome_lookup_see (key : PublicKey) (pair : SeenAs) (records : VerifiedRecords)
    (other : PublicKey) :
    ((records.see key pair).verified.lookup other).isSome =
      (records.verified.lookup other).isSome := by
  unfold see forgetSeen
  dsimp only
  rw [Map.lookup_modify]
  split <;> simp only [Option.isSome_map, Map.lookup_mapValues]

theorem isSome_changedAt :
    (records.changedAt pair).isSome ↔ pair ∈ records.changed.map (·.pair) := by
  rw [changedAt, Option.isSome_map, List.find?_isSome, List.mem_map]
  simp only [decide_eq_true_eq]

end VerifiedRecords

/-! ### One process that keeps its copy -/

namespace VerifiedKeys

open VerifiedRecords

variable {keys : VerifiedKeys} {file : VerifiedRecords} {pair other : SeenAs}

/-- The copy is the file, as where no other process writes it. -/
structure Synced (keys : VerifiedKeys) (file : VerifiedRecords) : Prop where
  dir : keys.dir = true
  records : keys.records = file
  consistent : file.Consistent

theorem Synced.bothConsistent (synced : keys.Synced file) : keys.BothConsistent file :=
  ⟨synced.records ▸ synced.consistent, synced.consistent⟩

theorem Synced.change_eq (synced : keys.Synced file)
    (change : VerifiedRecords → VerifiedRecords) :
    keys.change change file true =
      ({ keys with records := keys.apply change file, shownSince := ∅ },
        keys.apply change file) := by
  unfold VerifiedKeys.change
  rw [if_pos synced.dir]
  rfl

theorem Synced.change (synced : keys.Synced file) {change : VerifiedRecords → VerifiedRecords}
    (consistent : (keys.change change file true).1.BothConsistent
      (keys.change change file true).2) :
    (keys.change change file true).1.Synced (keys.change change file true).2 := by
  refine ⟨?_, ?_, consistent.2⟩
  · rw [synced.change_eq]
    exact synced.dir
  · rw [synced.change_eq]

/-- Writing the keys shown since leaves every pair as it is. -/
theorem sameAt_written (pair : SeenAs) (keys : VerifiedKeys) (records : VerifiedRecords) :
    SameAt pair records { records with
      changed := records.changed.map fun changed =>
        match keys.shownSince.lookup changed.pair with
        | some key => { changed with now := key }
        | none => changed } :=
  ⟨fun _ => Iff.rfl, Iff.of_eq (congrArg (pair ∈ ·) (written_pairs keys records.changed))⟩

/-- A change that leaves a pair as it is does so also when applied to the file. -/
theorem Synced.sameAt_change (synced : keys.Synced file)
    {change : VerifiedRecords → VerifiedRecords}
    (same : ∀ records, SameAt pair records (change records)) :
    SameAt pair keys.records (keys.change change file true).1.records := by
  rw [synced.change_eq, synced.records]
  exact (sameAt_written pair keys file).trans (same _)

theorem Synced.verifiedAt_eq_some_iff (synced : keys.Synced file) {key : PublicKey} :
    keys.verifiedAt pair = some key ↔ pair ∈ file.seen key := by
  rw [← synced.records]
  refine ⟨mem_verifiedAt, fun isSeen => ?_⟩
  have single := synced.bothConsistent.1.once
  cases found : keys.verifiedAt pair with
  | some other => rw [single pair key other isSeen (mem_verifiedAt found)]
  | none =>
    exfalso
    have empty := Finset.image_eq_empty.mp (Finset.min_eq_top.mp (Option.map_eq_none_iff.mp found))
    have isKey :
        key ∈ (keys.records.verified.retain fun _ verified => pair ∈ verified.seen).keys := by
      rw [Map.mem_keys_iff, Map.lookup_retain]
      unfold seen at isSeen
      cases entry : keys.records.verified.lookup key with
      | none =>
        rw [entry] at isSeen
        cases isSeen
      | some verified =>
        rw [entry] at isSeen
        exact ⟨verified, Option.filter_some_pos (decide_eq_true isSeen)⟩
    rw [empty] at isKey
    cases isKey

/-- A user is warned of: a change is noted where a verified key was seen. -/
def Flagged (keys : VerifiedKeys) (pair : SeenAs) : Prop :=
  keys.verifiedAt pair ≠ none ∧ pair ∈ keys.records.changed.map (·.pair)

theorem Synced.verifiedAt_congr (synced : keys.Synced file) {keys' : VerifiedKeys}
    {file' : VerifiedRecords} (synced' : keys'.Synced file')
    (same : SameAt pair keys.records keys'.records) :
    keys'.verifiedAt pair = keys.verifiedAt pair := by
  refine Option.ext fun key => ?_
  rw [synced'.verifiedAt_eq_some_iff, synced.verifiedAt_eq_some_iff, ← synced.records,
    ← synced'.records]
  exact same.seen key

theorem Synced.flagged_iff (synced : keys.Synced file) {keys' : VerifiedKeys}
    {file' : VerifiedRecords} (synced' : keys'.Synced file')
    (same : SameAt pair keys.records keys'.records) : keys'.Flagged pair ↔ keys.Flagged pair := by
  unfold Flagged
  rw [synced.verifiedAt_congr synced' same, same.changed]

/-! ### What the operations leave of a pair -/

theorem Synced.presented (synced : keys.Synced file) (pair : SeenAs) (key : PublicKey) :
    (keys.presented pair key file true).1.Synced (keys.presented pair key file true).2 := by
  have both : (keys.presented pair key file true).1.BothConsistent
      (keys.presented pair key file true).2 := by
    refine synced.bothConsistent.presented pair key fun notes _ _ => ?_
    obtain ⟨expected, found⟩ := Option.ne_none_iff_exists'.mp notes.2.1
    exact ⟨expected, synced.verifiedAt_eq_some_iff.mp found⟩
  unfold VerifiedKeys.presented at both ⊢
  dsimp only at both ⊢
  split at both
  case isTrue verified =>
    rw [if_pos verified]
    split at both
    case isTrue expected =>
      rw [if_pos expected]
      exact synced
    case isFalse other =>
      rw [if_neg other]
      exact synced.change both
  case isFalse unverified =>
    rw [if_neg unverified]
    split at both
    case isTrue unseen =>
      rw [if_pos unseen]
      exact synced
    case isFalse seen =>
      rw [if_neg seen]
      split at both
      case isTrue changed =>
        rw [if_pos changed]
        exact ⟨synced.dir, synced.records, synced.consistent⟩
      case isFalse unchanged =>
        rw [if_neg unchanged]
        exact synced.change both

/-- Presenting a key verifies none and takes none off. -/
theorem Synced.isVerified_presented (synced : keys.Synced file) (pair : SeenAs)
    (key other : PublicKey) :
    (keys.presented pair key file true).1.isVerified other = keys.isVerified other := by
  have kept {change : VerifiedRecords → VerifiedRecords}
      (same : ∀ records, ((change records).verified.lookup other).isSome =
        (records.verified.lookup other).isSome) :
      (keys.change change file true).1.isVerified other = keys.isVerified other := by
    rw [synced.change_eq]
    unfold isVerified
    rw [synced.records]
    exact same _
  unfold VerifiedKeys.presented
  dsimp only
  split
  · split
    · rfl
    · exact kept fun records => isSome_lookup_see key pair records other
  · split
    · rfl
    · split
      · rfl
      · exact kept fun _ => rfl

/-- What is presented for one pair concerns no other. -/
theorem Synced.sameAt_presented (synced : keys.Synced file) (elsewhere : pair ≠ other)
    (key : PublicKey) :
    SameAt pair keys.records (keys.presented other key file true).1.records := by
  unfold VerifiedKeys.presented
  dsimp only
  split
  · split
    · exact SameAt.refl pair keys.records
    · refine synced.sameAt_change fun records => ?_
      exact (sameAt_see elsewhere key records).trans (sameAt_forgetChange elsewhere _)
  · split
    · exact SameAt.refl pair keys.records
    · split
      · exact SameAt.refl pair keys.records
      · refine synced.sameAt_change fun records => ?_
        exact (sameAt_forgetChange elsewhere records).trans (sameAt_push elsewhere key _)

/-- A pair that is warned of stays so when the verified key or an unverified one is shown. -/
theorem Flagged.sameAt_presented (flagged : keys.Flagged pair) {key : PublicKey}
    (expected : keys.isVerified key = true → keys.verifiedAt pair = some key)
    (file : VerifiedRecords) (works : Bool) :
    SameAt pair keys.records (keys.presented pair key file works).1.records := by
  unfold VerifiedKeys.presented
  dsimp only
  split
  case isTrue verified =>
    rw [if_pos (expected verified)]
    exact SameAt.refl pair keys.records
  case isFalse unverified =>
    rw [if_neg flagged.1, if_pos (isSome_changedAt.mpr flagged.2)]
    exact SameAt.refl pair keys.records

/-- An unverified key shown where a verified one was seen is warned of. -/
theorem Synced.presented_flagged (synced : keys.Synced file) {key : PublicKey}
    (unverified : keys.isVerified key = false) (seen : keys.verifiedAt pair ≠ none) :
    (keys.presented pair key file true).1.Flagged pair := by
  by_cases changed : pair ∈ keys.records.changed.map (·.pair)
  · have flagged : keys.Flagged pair := ⟨seen, changed⟩
    have same := @Flagged.sameAt_presented _ _ flagged key
      (fun verified => absurd (unverified.symm.trans verified) Bool.false_ne_true) file true
    exact (synced.flagged_iff (synced.presented pair key) same).mpr flagged
  · have notes : keys.NotesChange pair key :=
      ⟨unverified, seen, Bool.eq_false_of_not_eq_true (mt isSome_changedAt.mp changed)⟩
    have synced' := synced.presented pair key
    obtain ⟨expected, found⟩ := Option.ne_none_iff_exists'.mp seen
    have isSeen := synced.verifiedAt_eq_some_iff.mp found
    rw [presented_of_notes notes] at synced' ⊢
    have file' : (keys.change (VerifiedKeys.note pair key) file true).1.records =
        keys.apply (VerifiedKeys.note pair key) file := by
      rw [synced.change_eq]
    refine ⟨?_, ?_⟩
    · have there : pair ∈ (keys.change (VerifiedKeys.note pair key) file true).2.seen expected := by
        rw [synced.change_eq]
        exact isSeen
      rw [synced'.verifiedAt_eq_some_iff.mpr there]
      exact Option.some_ne_none _
    · rw [file']
      unfold VerifiedKeys.apply VerifiedKeys.note
      dsimp only
      rw [List.map_append]
      exact List.mem_append_right _ (List.mem_singleton_self _)

theorem Synced.verify (synced : keys.Synced file) (pair : SeenAs) (key : PublicKey)
    (name : String) :
    (keys.verify pair key name file true).1.Synced (keys.verify pair key name file true).2 :=
  synced.change (synced.bothConsistent.verify pair key name true)

theorem Synced.unverify (synced : keys.Synced file) (key : PublicKey) :
    (keys.unverify key file true).1.Synced (keys.unverify key file true).2 :=
  synced.change (synced.bothConsistent.unverify key true)

theorem Synced.dismissChange (synced : keys.Synced file) (pair : SeenAs)
    (presented : Option PublicKey) :
    (keys.dismissChange pair presented file true).1.Synced
      (keys.dismissChange pair presented file true).2 :=
  @Synced.change { keys with shownSince := keys.shownSince.erase pair } file
    ⟨synced.dir, synced.records, synced.consistent⟩ _
    (synced.bothConsistent.dismissChange pair presented true)

/-- The key shown last is the one written for its pair. -/
theorem mem_written {now : PublicKey} (found : keys.changedAt pair = some now) :
    { pair, now } ∈ keys.records.changed.map fun changed =>
      match keys.shownSince.lookup changed.pair with
      | some key => { changed with now := key }
      | none => changed := by
  unfold changedAt VerifiedRecords.changedAt at found
  rw [Option.map_map] at found
  obtain ⟨change, isFound, rfl⟩ := Option.map_eq_some_iff.mp found
  have same := List.find?_some isFound
  rw [decide_eq_true_eq] at same
  refine List.mem_map.mpr ⟨change, List.mem_of_find?_eq_some isFound, ?_⟩
  subst same
  dsimp only [Function.comp]
  cases keys.shownSince.lookup change.pair <;> rfl

/-- Verifying a key somewhere else leaves a pair as it is, unless it is the key shown there. -/
theorem Synced.sameAt_verify (synced : keys.Synced file) (elsewhere : pair ≠ other)
    {key : PublicKey} (unshown : keys.changedAt pair ≠ some key) (name : String) :
    SameAt pair keys.records (keys.verify other key name file true).1.records := by
  unfold VerifiedKeys.verify
  rw [synced.change_eq, ← synced.records]
  refine (sameAt_written pair keys keys.records).trans ?_
  refine (sameAt_named pair key name _).trans ?_
  refine (sameAt_see elsewhere key _).trans ?_
  refine (sameAt_forgetChange elsewhere _).trans ?_
  refine sameAt_filter fun isChanged => ?_
  have isChanged := (sameAt_forgetChange elsewhere _).changed.mp isChanged
  have isChanged := (sameAt_written pair keys keys.records).changed.mp isChanged
  cases found : keys.changedAt pair with
  | none =>
    have missing := Option.isSome_iff_ne_none.mp (isSome_changedAt.mpr isChanged)
    exact absurd (Option.map_eq_none_iff.mp found) missing
  | some now =>
    refine ⟨⟨pair, now⟩, List.mem_filter.mpr ⟨mem_written found, decide_eq_true elsewhere⟩, rfl, ?_⟩
    refine decide_eq_true fun same => unshown ?_
    rw [found]
    exact congrArg some same

/-- Taking off a key leaves a pair that is seen under another one as it is. -/
theorem Synced.sameAt_unverify (synced : keys.Synced file) {key : PublicKey}
    (kept : keys.verifiedAt pair ≠ some key) :
    SameAt pair keys.records (keys.unverify key file true).1.records := by
  have unseen : pair ∉ keys.records.seen key := by
    rw [synced.records]
    exact mt synced.verifiedAt_eq_some_iff.mpr kept
  unfold VerifiedKeys.unverify
  rw [synced.change_eq, ← synced.records]
  exact (sameAt_written pair keys keys.records).trans (sameAt_unverified unseen)

/-- Dismissing a change concerns no other pair. -/
theorem Synced.sameAt_dismissChange (synced : keys.Synced file) (elsewhere : pair ≠ other)
    (presented : Option PublicKey) :
    SameAt pair keys.records (keys.dismissChange other presented file true).1.records := by
  have synced' : Synced { keys with shownSince := keys.shownSince.erase other } file :=
    ⟨synced.dir, synced.records, synced.consistent⟩
  unfold VerifiedKeys.dismissChange
  dsimp only
  refine synced'.sameAt_change fun records => ?_
  have forgotten := (sameAt_forgetSeen elsewhere none records).trans
    (sameAt_forgetChange elsewhere _)
  split
  · exact forgotten.trans (sameAt_see elsewhere _ _)
  · exact forgotten

theorem Synced.reload (synced : keys.Synced file) : (keys.reload file true).Synced file := by
  unfold VerifiedKeys.reload
  rw [if_pos synced.dir]
  exact ⟨rfl, rfl, synced.consistent⟩

end VerifiedKeys

/-! ### Sessions -/

namespace Trust

variable {trust : Trust} {keys : VerifiedKeys} {file : VerifiedRecords} {pair : SeenAs}

theorem synced_presentAll (synced : keys.Synced file) (shown : List (UserId × PublicKey)) :
    (trust.presentAll keys file true shown).1.Synced (trust.presentAll keys file true shown).2 := by
  induction shown generalizing keys file with
  | nil => exact synced
  | cons first rest inductionHypothesis =>
    exact inductionHypothesis (synced.presented (trust.seenAs first.1) first.2)

/-- What is shown leaves a pair as it is where it is for others, or where the pair is warned of
and only its verified key or unverified ones are shown. -/
theorem sameAt_presentAll (synced : keys.Synced file) {shown : List (UserId × PublicKey)}
    (harmless : ∀ user key, (user, key) ∈ shown → trust.seenAs user = pair →
      keys.Flagged pair ∧ (keys.isVerified key = true → keys.verifiedAt pair = some key)) :
    VerifiedRecords.SameAt pair keys.records
      (trust.presentAll keys file true shown).1.records := by
  induction shown generalizing keys file with
  | nil => exact .refl pair keys.records
  | cons first rest inductionHypothesis =>
    obtain ⟨user, key⟩ := first
    have synced' := synced.presented (trust.seenAs user) key
    have same : VerifiedRecords.SameAt pair keys.records
        (keys.presented (trust.seenAs user) key file true).1.records := by
      by_cases here : trust.seenAs user = pair
      · obtain ⟨flagged, expected⟩ := harmless user key List.mem_cons_self here
        rw [here]
        exact flagged.sameAt_presented expected file true
      · exact synced.sameAt_presented (Ne.symm here) key
    refine same.trans (inductionHypothesis synced' fun user' key' isShown here => ?_)
    obtain ⟨flagged, expected⟩ := harmless user' key' (List.mem_cons_of_mem _ isShown) here
    refine ⟨(synced.flagged_iff synced' same).mpr flagged, fun verified => ?_⟩
    rw [synced.verifiedAt_congr synced' same]
    exact expected (synced.isVerified_presented (trust.seenAs user) key key' ▸ verified)

theorem seenAs_inj {user other : UserId} (same : trust.seenAs user = trust.seenAs other) :
    user = other :=
  congrArg SeenAs.user same

/-- A user who is warned of stays so while only unverified keys are shown of them. -/
theorem flagged_presentAll (synced : keys.Synced file) {user : UserId}
    {shown : List (UserId × PublicKey)}
    (unverified : ∀ key, (user, key) ∈ shown → keys.isVerified key = false)
    (flagged : keys.Flagged (trust.seenAs user)) :
    (trust.presentAll keys file true shown).1.Flagged (trust.seenAs user) := by
  have same : VerifiedRecords.SameAt (trust.seenAs user) keys.records
      (trust.presentAll keys file true shown).1.records := by
    refine sameAt_presentAll synced fun other key isShown here => ⟨flagged, fun verified => ?_⟩
    obtain rfl := seenAs_inj here
    exact absurd ((unverified key isShown).symm.trans verified) Bool.false_ne_true
  exact (synced.flagged_iff (synced_presentAll synced shown) same).mpr flagged

/-- A user of whom only unverified keys are shown is warned of if a verified one was seen. -/
theorem presentAll_flagged (synced : keys.Synced file) {user : UserId} {key : PublicKey}
    {shown : List (UserId × PublicKey)} (isShown : (user, key) ∈ shown)
    (unverified : ∀ other, (user, other) ∈ shown → keys.isVerified other = false)
    (seen : keys.verifiedAt (trust.seenAs user) ≠ none) :
    (trust.presentAll keys file true shown).1.Flagged (trust.seenAs user) := by
  induction shown generalizing keys file with
  | nil => cases isShown
  | cons first rest inductionHypothesis =>
    obtain ⟨shownUser, shownKey⟩ := first
    have synced' := synced.presented (trust.seenAs shownUser) shownKey
    have unverified' : ∀ other, (user, other) ∈ rest →
        (keys.presented (trust.seenAs shownUser) shownKey file true).1.isVerified other = false := by
      intro other isOther
      rw [synced.isVerified_presented]
      exact unverified other (List.mem_cons_of_mem _ isOther)
    by_cases here : shownUser = user
    · subst here
      have flagged := synced.presented_flagged (unverified shownKey List.mem_cons_self) seen
      exact flagged_presentAll synced' unverified' flagged
    · have elsewhere : trust.seenAs user ≠ trust.seenAs shownUser :=
        fun same => here (seenAs_inj same).symm
      have same := synced.sameAt_presented elsewhere shownKey
      have seen' : (keys.presented (trust.seenAs shownUser) shownKey file true).1.verifiedAt
          (trust.seenAs user) ≠ none := by
        rw [synced.verifiedAt_congr synced' same]
        exact seen
      refine inductionHypothesis synced' ?_ unverified' seen'
      exact (List.mem_cons.mp isShown).resolve_left fun same => here (congrArg Prod.fst same).symm

theorem note_kept (trust : Trust) (keys : VerifiedKeys) (file : VerifiedRecords) (works : Bool)
    (peers : List (UserId × PublicKey)) :
    (trust.note keys file works peers).2.2 =
      trust.presentAll keys file works (trust.new peers) := by
  unfold note
  dsimp only
  split
  case isTrue none =>
    rw [none]
    rfl
  case isFalse => rfl

theorem isSome_warning (user : UserId) :
    (trust.warning keys user).isSome ↔ keys.Flagged (trust.seenAs user) := by
  unfold warning VerifiedKeys.Flagged VerifiedKeys.changedAt
  rw [← VerifiedRecords.isSome_changedAt]
  cases keys.records.changedAt (trust.seenAs user) with
  | none => simp
  | some written => cases keys.verifiedAt (trust.seenAs user) <;> simp

end Trust

/-! ### Runs -/

namespace App

variable {app : App} {pair : SeenAs}

/-- Every session on the server warns of the user. -/
def Warned (app : App) (pair : SeenAs) : Prop :=
  ∀ trust : Trust, trust.server = pair.server → (trust.warning app.keys pair.user).isSome

/-- What ends a warning: the user verifies the key shown there, or the one that the user on
that server then presents, dismisses the change, or takes the old key off the verified ones, or the
server shows another verified key. -/
def Ends (pair : SeenAs) (app : App) : Input → Prop
  | .note session peers => ∃ trust, app.sessions.lookup session = some trust ∧
      trust.seenAs pair.user = pair ∧ ∃ key, peers.lookup pair.user = some key ∧
        app.keys.isVerified key = true ∧ app.keys.verifiedAt pair ≠ some key
  | .setVerified session user key verified _ => ∃ trust,
      app.sessions.lookup session = some trust ∧ trust.presented.lookup user = some key ∧
        if verified then trust.seenAs user = pair ∨ app.keys.changedAt pair = some key
        else app.keys.verifiedAt pair = some key
  | .unverify key => app.keys.verifiedAt pair = some key
  | .dismissChange session user shown => ∃ trust, app.sessions.lookup session = some trust ∧
      trust.seenAs user = pair ∧ trust.presented.lookup user = shown
  | _ => False

theorem warned_iff : app.Warned pair ↔ app.keys.Flagged pair := by
  have warning (trust : Trust) (here : trust.server = pair.server) :
      (trust.warning app.keys pair.user).isSome ↔ app.keys.Flagged pair := by
    have same : trust.seenAs pair.user = pair := by rw [Trust.seenAs, here]
    rw [Trust.isSome_warning, same]
  constructor
  · intro warned
    exact (warning { server := pair.server } rfl).mp (warned _ rfl)
  · intro flagged trust here
    exact (warning trust here).mpr flagged

theorem step_note {session : Nat} {trust : Trust}
    (found : app.sessions.lookup session = some trust) (peers : Map UserId PublicKey) :
    (app.step (.note session peers)).keys =
        (trust.presentAll app.keys app.file true (trust.new peers.toList)).1 ∧
      (app.step (.note session peers)).file =
        (trust.presentAll app.keys app.file true (trust.new peers.toList)).2 := by
  unfold step
  dsimp only
  rw [found, Option.elim_some, ← Trust.note_kept]
  exact ⟨rfl, rfl⟩

theorem synced_step (synced : app.keys.Synced app.file) (input : Input) :
    (app.step input).keys.Synced (app.step input).file := by
  cases input with
  | restart => exact ⟨rfl, rfl, synced.consistent⟩
  | reload => exact synced.reload
  | openSession session server => exact synced
  | reconnect session => exact synced
  | note session peers =>
    cases found : app.sessions.lookup session with
    | none =>
      unfold step
      dsimp only
      rw [found]
      exact synced
    | some trust =>
      obtain ⟨keys, file⟩ := step_note found peers
      rw [keys, file]
      exact Trust.synced_presentAll synced _
  | setVerified session user key verified name =>
    unfold step
    dsimp only
    cases app.sessions.lookup session with
    | none => exact synced
    | some trust =>
      rw [Option.elim_some]
      unfold Trust.setVerified
      split
      · exact synced
      · split
        · exact synced.verify (trust.seenAs user) key name
        · exact synced.unverify key
  | unverify key => exact synced.unverify key
  | dismissChange session user shown =>
    unfold step
    dsimp only
    cases app.sessions.lookup session with
    | none => exact synced
    | some trust =>
      rw [Option.elim_some]
      unfold Trust.dismissChange
      dsimp only
      split
      · exact synced
      · exact synced.dismissChange (trust.seenAs user) _

open VerifiedRecords in
/-- A step that doesn't end a warning leaves its pair as it is. -/
theorem sameAt_step (synced : app.keys.Synced app.file) (flagged : app.keys.Flagged pair)
    {input : Input} (goesOn : ¬ app.Ends pair input) :
    SameAt pair app.keys.records (app.step input).keys.records := by
  have same := SameAt.refl pair app.keys.records
  cases input with
  | restart =>
    show SameAt pair app.keys.records app.file
    rw [← synced.records]
    exact same
  | reload =>
    show SameAt pair app.keys.records (app.keys.reload app.file true).records
    rw [synced.reload.records, ← synced.records]
    exact same
  | openSession session server => exact same
  | reconnect session => exact same
  | note session peers =>
    cases found : app.sessions.lookup session with
    | none =>
      unfold step
      dsimp only
      rw [found]
      exact same
    | some trust =>
      rw [(step_note found peers).1]
      refine Trust.sameAt_presentAll synced fun user key isShown here => ⟨flagged, ?_⟩
      intro verified
      by_contra other
      have isPeer := (Map.mem_toList _ _ _).mp (List.mem_filter.mp isShown).1
      obtain rfl := here
      exact goesOn ⟨trust, found, rfl, key, isPeer, verified, other⟩
  | setVerified session user key verified name =>
    unfold step
    dsimp only
    cases found : app.sessions.lookup session with
    | none => exact same
    | some trust =>
      rw [Option.elim_some]
      unfold Trust.setVerified
      split
      case isTrue => exact same
      case isFalse presented =>
        rw [not_not] at presented
        split
        case isTrue verifies =>
          have ends : ¬ (trust.seenAs user = pair ∨ app.keys.changedAt pair = some key) :=
            fun ends => goesOn ⟨trust, found, presented, by rwa [if_pos verifies]⟩
          rw [not_or] at ends
          exact synced.sameAt_verify (Ne.symm ends.1) ends.2 name
        case isFalse takesOff =>
          exact synced.sameAt_unverify fun ends =>
            goesOn ⟨trust, found, presented, by rwa [if_neg takesOff]⟩
  | unverify key => exact synced.sameAt_unverify goesOn
  | dismissChange session user shown =>
    unfold step
    dsimp only
    cases found : app.sessions.lookup session with
    | none => exact same
    | some trust =>
      rw [Option.elim_some]
      unfold Trust.dismissChange
      dsimp only
      split
      case isTrue => exact same
      case isFalse presented =>
        rw [not_not] at presented
        exact synced.sameAt_dismissChange
          (fun here => goesOn ⟨trust, found, here.symm, presented⟩) _

/-- A warning stays until a step ends it. -/
theorem flagged_run (synced : app.keys.Synced app.file) (flagged : app.keys.Flagged pair)
    {rest : List Input} (goesOn : Along step (fun app input => ¬ app.Ends pair input) app rest) :
    (run step app rest).keys.Flagged pair := by
  refine (goesOn.invariant (fun app => app.keys.Synced app.file ∧ app.keys.Flagged pair)
    ⟨synced, flagged⟩ fun app input kept goesOn => ?_).2
  have synced' := synced_step kept.1 input
  exact ⟨synced', (kept.1.flagged_iff synced' (sameAt_step kept.1 kept.2 goesOn)).mpr kept.2⟩

theorem synced_run (inputs : List Input) :
    (run step {} inputs).keys.Synced (run step {} inputs).file :=
  run_invariant step (fun app => app.keys.Synced app.file)
    ⟨rfl, rfl, VerifiedRecords.consistent_start⟩ (fun _ input synced => synced_step synced input)
    inputs

/-- After an unverified key is shown where a verified one was seen, the user is warned of if the
key is new to the session or the warning was there before, and only then. -/
theorem flagged_note_iff (synced : app.keys.Synced app.file) {session : Nat} {trust : Trust}
    (isSession : app.sessions.lookup session = some trust) {peers : Map UserId PublicKey}
    {user : UserId} {key : PublicKey} (shown : peers.lookup user = some key)
    (unverified : app.keys.isVerified key = false)
    (seen : app.keys.verifiedAt (trust.seenAs user) ≠ none) :
    (app.step (.note session peers)).keys.Flagged (trust.seenAs user) ↔
      trust.presented.lookup user ≠ some key ∨ app.keys.Flagged (trust.seenAs user) := by
  rw [(step_note isSession peers).1]
  have synced' := @Trust.synced_presentAll trust _ _ synced (trust.new peers.toList)
  have only : ∀ other, (user, other) ∈ trust.new peers.toList → other = key := by
    intro other isNew
    have isPeer := (Map.mem_toList _ _ _).mp (List.mem_filter.mp isNew).1
    exact Option.some.inj (isPeer.symm.trans shown)
  constructor
  · intro flagged
    by_contra neither
    rw [not_or, not_not] at neither
    have same : VerifiedRecords.SameAt (trust.seenAs user) app.keys.records
        (trust.presentAll app.keys app.file true (trust.new peers.toList)).1.records := by
      refine Trust.sameAt_presentAll synced fun other key' isNew here => ?_
      -- the key shown is the one noted, so nothing of this user is new
      obtain rfl := Trust.seenAs_inj here
      obtain rfl := only key' isNew
      exact absurd neither.1 (of_decide_eq_true (List.mem_filter.mp isNew).2)
    exact neither.2 ((synced.flagged_iff synced' same).mp flagged)
  · have unverified' : ∀ other, (user, other) ∈ trust.new peers.toList →
        app.keys.isVerified other = false := by
      intro other isNew
      rw [only other isNew, unverified]
    rintro (fresh | flagged)
    · refine @Trust.presentAll_flagged _ _ _ synced user key _ ?_ unverified' seen
      exact List.mem_filter.mpr ⟨(Map.mem_toList _ _ _).mpr shown, decide_eq_true fresh⟩
    · exact Trust.flagged_presentAll synced unverified' flagged

/-- Once a server shows an unverified key for a user seen there under a verified one, the
warning is there until a step ends it, if the session had not noted that key already or the
warning was there before, and only then. -/
theorem warning_stays_iff {inputs : List Input} {session : Nat} {trust : Trust}
    {peers : Map UserId PublicKey} {user : UserId} {key : PublicKey}
    (isSession : (run step {} inputs).sessions.lookup session = some trust)
    (shown : peers.lookup user = some key)
    (unverified : (run step {} inputs).keys.isVerified key = false)
    (seen : (run step {} inputs).keys.verifiedAt (trust.seenAs user) ≠ none) :
    (∀ rest, Along step (fun app input => ¬ app.Ends (trust.seenAs user) input)
        (run step {} (inputs ++ [.note session peers])) rest →
      (run step {} (inputs ++ .note session peers :: rest)).Warned (trust.seenAs user)) ↔
    trust.presented.lookup user ≠ some key ∨
      (run step {} inputs).Warned (trust.seenAs user) := by
  have synced := synced_run inputs
  have noted := flagged_note_iff synced isSession shown unverified seen
  rw [warned_iff, ← noted, run_concat]
  constructor
  · intro stays
    have now := stays [] trivial
    rw [warned_iff, run_concat] at now
    exact now
  · intro flagged rest goesOn
    rw [warned_iff, run_append, run_cons]
    exact flagged_run (synced_step synced _) flagged goesOn

/-- Mara is verified under key 4 and the server then shows key 9 for her and for another user. The
user verifies key 9 for that one, which ends the warning for Mara, and takes it off again. -/
def verifiedElsewhere : List Input :=
  [.openSession 0 1, .note 0 (.ofList [(4, 4)]), .setVerified 0 4 4 true "Mara",
    .note 0 (.ofList [(4, 9), (5, 9)]), .setVerified 0 5 9 true "Eve", .unverify 9]

/-- Key 9 is then shown for Mara, who is seen under key 4, and nothing warns of it. -/
theorem warning_missing :
    (run step {} verifiedElsewhere).keys.isVerified 9 = false ∧
      (run step {} verifiedElsewhere).keys.verifiedAt ⟨1, 4⟩ = some 4 ∧
      ¬ (run step {} (verifiedElsewhere ++ [.note 0 (.ofList [(4, 9)])])).Warned ⟨1, 4⟩ := by
  refine ⟨by decide +kernel, by decide +kernel, ?_⟩
  rw [warned_iff]
  unfold VerifiedKeys.Flagged
  decide +kernel

/-- The verified key shown again, a third one and a restart don't end a warning. -/
theorem warning_stays_flipping :
    (run step {} ([.openSession 0 1, .note 0 (.ofList [(4, 4)]), .setVerified 0 4 4 true "Mara"] ++
      .note 0 (.ofList [(4, 9)]) :: [.note 0 (.ofList [(4, 4)]), .note 0 (.ofList [(4, 10)]),
        .restart, .openSession 0 1])).Warned ⟨1, 4⟩ := by
  refine (@warning_stays_iff [.openSession 0 1, .note 0 (.ofList [(4, 4)]),
    .setVerified 0 4 4 true "Mara"] 0 { server := 1, presented := .ofList [(4, 4)] }
    (.ofList [(4, 9)]) 4 9 (by decide +kernel) (by decide +kernel) (by decide +kernel)
    (by decide +kernel)).mpr (.inl (by decide +kernel)) _ ⟨?_, ?_, ?_, ?_, trivial⟩
  · rintro ⟨trust, isSession, here, key, isShown, verified, other⟩
    obtain rfl := Option.some.inj isShown
    exact other (by decide +kernel)
  · rintro ⟨trust, isSession, here, key, isShown, verified, other⟩
    obtain rfl := Option.some.inj isShown
    exact absurd verified (by decide +kernel)
  · exact id
  · exact id

end App

end Throcc
