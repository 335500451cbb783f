/-
This file embeds how a client keeps its identity key: in the system's keychain,
which may hide what it holds or be gone, in a file where there is none, and
never starting another while it knows servers, unless the user agrees to start
over.

Every read and every write of a start may be the last one that goes through: it
fails, or the program is cut off there. Whatever is cut off, the servers on the
list are those that know the identity the client has.
-/

import Throcc.Attempt
import Throcc.Map
import Throcc.Proto
import Throcc.Run

namespace Throcc

/-- The bytes an identity key is kept as. -/
abbrev Seed := List UInt8

/-- An identity key. -/
@[ext] structure Identity where
  seed : Seed
  size : seed.length = 32
deriving DecidableEq

/-- The encryption key, with its creation time in seconds. -/
structure EncryptionKey where
  secret : List UInt8
  created : Nat
deriving DecidableEq

def encryptionKeyLifetime : Nat := 30 * 24 * 60 * 60
/-- How long before it expires the encryption key is replaced. -/
def encryptionKeyRenewBefore : Nat := 7 * 24 * 60 * 60
/-- How far in the future a key's creation time may lie. -/
def encryptionKeyClockSkew : Nat := 24 * 60 * 60

def renewalDue (created now : Nat) : Bool :=
  now + encryptionKeyClockSkew < created ∨
    encryptionKeyLifetime ≤ now - created + encryptionKeyRenewBefore

/-- A pinned server. With it: the identity it was pinned under, and whether the user has agreed
to start over since. -/
structure Pin where
  fingerprint : Fingerprint
  under : Identity
  abandoned : Bool := false

inductive StoreError where
  /-- A step failed, or the program ended there. -/
  | stopped
  | identityMissing
  | corrupt
  | unreachable
deriving DecidableEq

/-- Whether an empty keychain may start a new identity while servers are known. -/
inductive WhenMissing where
  | refuse
  | startOver
deriving DecidableEq

/-- A start of the client. -/
structure Launch where
  whenMissing : WhenMissing
  /-- The platform has a keychain. -/
  keychain : Bool
  /-- What the keychain shows at one read after the other, and at all later ones. -/
  shows : List Bool := []
  /-- How many of its reads and writes go through, if it is cut off. -/
  steps : Option Nat := none
  /-- The file of the encryption key can be read. -/
  readsKey : Bool := true
  /-- What is made at random. -/
  generated : Identity
  secret : List UInt8
  now : Nat

/-- The encryption key a start makes. -/
def Launch.newKey (launch : Launch) : EncryptionKey where
  secret := launch.secret
  created := launch.now

/-- What a computer keeps, and the identity of the client that runs. -/
structure Computer where
  keychain : Option Seed := none
  identityFile : Option Seed := none
  encryptionKey : Option EncryptionKey := none
  known : Map String Pin := ∅
  identity : Option Identity := none

/-- The key of the identity the computer keeps. -/
def Computer.seed (computer : Computer) : Option Seed :=
  computer.keychain.or computer.identityFile

/-- Marks the servers of the identity the user has given up. -/
def Computer.abandon (computer : Computer) (known : Map String Pin) : Computer :=
  { computer with known := known.mapValues fun _ pin => { pin with abandoned := true } }

/-- A start under way: the steps and the readings that are left. -/
structure Booting extends Computer where
  steps : Option Nat
  shows : List Bool

namespace Keystore

abbrev Start (Result : Type) := Attempt Booting StoreError Result

open Attempt

/-- One read or write, if it goes through. -/
def access : Start Unit := fun booting =>
  if booting.steps = some 0 then (.error .stopped, booting)
  else (.ok (), { booting with steps := booting.steps.map (· - 1) })

def computer : Start Computer := do
  return (← current).toComputer

def alter (update : Computer → Computer) : Start Unit :=
  change fun booting => { booting with toComputer := update booting.toComputer }

def write (update : Computer → Computer) : Start Unit := do
  access
  alter update

def readKeychain : Start (Option Seed) := do
  access
  take fun booting =>
    (if booting.shows.headD true then booting.keychain else none,
      { booting with shows := booting.shows.tail })

def writeKeychain (identity : Identity) : Start Unit :=
  write fun computer => { computer with keychain := some identity.seed }

def readFile : Start (Option Seed) := do
  access
  return (← computer).identityFile

def loadKnown : Start (Map String Pin) := do
  access
  return (← computer).known

def knowsServers : Start Bool := do
  return decide ((← loadKnown).keys ≠ ∅)

def seedToKey (bytes : Seed) : Start Identity :=
  if size : bytes.length = 32 then pure { seed := bytes, size } else fail .corrupt

variable (launch : Launch)

def newEncryptionKey : Start Unit :=
  write fun computer => { computer with encryptionKey := some launch.newKey }

/-- Loads the encryption key, replacing it when it expires within a week. -/
def loadEncryptionKey : Start Unit := do
  match (← computer).encryptionKey with
  | some key =>
    if launch.readsKey ∧ ¬ renewalDue key.created launch.now then pure ()
    else newEncryptionKey launch
  | none => newEncryptionKey launch

def fileIdentity : Start Identity := do
  match ← readFile with
  | some bytes => seedToKey bytes
  | none =>
    write fun computer => { computer with identityFile := some launch.generated.seed }
    return launch.generated

/-- The identity key in the file. A missing one is created only while no server is known. -/
def fallbackIdentity : Start Identity := do
  let knows ← knowsServers
  require (!(knows && (← computer).identityFile.isNone)) .unreachable
  fileIdentity launch

/-- The identity to put in an empty keychain, and whether it is new. -/
def candidate : Start (Identity × Bool) := do
  match ← readFile with
  | some bytes => return (← seedToKey bytes, false)
  | none =>
    match launch.whenMissing with
    | .refuse =>
      require (!(← knowsServers)) .identityMissing
      return (launch.generated, true)
    | .startOver => return (launch.generated, true)

/-- Puts a new identity in the keychain and drops what belonged to the old one. -/
def replaceIdentity (identity : Identity) : Start Unit := do
  let known ← loadKnown
  newEncryptionKey launch
  writeKeychain identity
  alter fun computer => computer.abandon known
  write fun computer => { computer with known := ∅ }

/-- What a keychain that read empty holds at the second read is used, not overwritten. -/
def firstKeychainIdentity : Start (Identity × Bool) := do
  let (identity, new) ← candidate launch
  match ← readKeychain with
  | some seed => return (← seedToKey seed, false)
  | none =>
    if new ∧ launch.whenMissing = .startOver then replaceIdentity launch identity
    else writeKeychain identity
    return (identity, new)

/-- The identity key in the keychain, put there when it has none. -/
def identityIn : Start (Identity × Bool) := do
  match ← readKeychain with
  | some seed => return (← seedToKey seed, false)
  | none => firstKeychainIdentity launch

/-- The identity key, and whether it is new. -/
def findIdentity : Start (Identity × Bool) :=
  if launch.keychain then identityIn launch
  else (fun identity => (identity, false)) <$> fallbackIdentity launch

/-- Whether the identity of a start that goes through is new. -/
def openPlatform : Start Bool := do
  let (identity, new) ← findIdentity launch
  let _ ← loadKnown
  loadEncryptionKey launch
  alter fun computer => { computer with identity := some identity }
  return new

def start (computer : Computer) : Except StoreError Bool × Computer :=
  let (result, booting) := openPlatform launch
    { computer with identity := none, steps := launch.steps, shows := launch.shows }
  (result, booting.toComputer)

/-! ### The life of a computer -/

inductive Input where
  | start (launch : Launch)
  /-- The running client pins a server, and the write succeeds or fails. -/
  | trust (address : String) (fingerprint : Fingerprint) (ok : Bool)
  /-- It takes a server off the list: `KnownServers::forget` and `KnownServers::leave`. -/
  | forget (address : String) (ok : Bool)
  | renewEncryptionKey (key : EncryptionKey) (ok : Bool)

def step (computer : Computer) : Input → Computer
  | .start launch => (start launch computer).2
  | .trust address fingerprint ok =>
    match computer.identity, ok with
    | some identity, true =>
      { computer with
        known := computer.known.insert address { fingerprint, under := identity } }
    | _, _ => computer
  | .forget address ok =>
    if computer.identity.isSome ∧ ok then
      { computer with known := computer.known.erase address }
    else computer
  | .renewEncryptionKey key ok =>
    if computer.identity.isSome ∧ ok then { computer with encryptionKey := some key }
    else computer

/-! ### How the parts of a start end -/

/-- The part of a start that is left is cut off, or kept from the keychain, only if the start
is. -/
structure Under (booting : Booting) : Prop where
  goesOn : launch.steps = none → booting.steps = none
  sees : launch.shows = [] → booting.shows = []

/-- However far the start got, the attempt ends so. -/
def Leads {Result : Type} (attempt : Start Result) (ok : Result → Computer → Prop)
    (failed : StoreError → Computer → Prop) (before : Computer) : Prop :=
  ∀ booting : Booting, booting.toComputer = before → Under launch booting →
    attempt.Ends (fun result after => ok result after.toComputer ∧ Under launch after)
      (fun error after => failed error after.toComputer) booting

variable {launch}

namespace Leads

variable {Result Other : Type} {before : Computer} {failed : StoreError → Computer → Prop}

theorem bind {first : Start Result} {next : Result → Start Other}
    {ok : Other → Computer → Prop}
    (leads : Leads launch first (fun result => Leads launch (next result) ok failed) failed
      before) : Leads launch (first >>= next) ok failed before := by
  intro booting same under
  refine Ends.bind ((leads booting same under).mono ?_ fun _ _ failed => failed)
  rintro result after ⟨rest, under⟩
  exact rest after rfl under

theorem mono {attempt : Start Result} {ok weaker : Result → Computer → Prop}
    (leads : Leads launch attempt ok failed before)
    (onOk : ∀ result after, ok result after → weaker result after) :
    Leads launch attempt weaker failed before := by
  intro booting same under
  refine (leads booting same under).mono ?_ fun _ _ failed => failed
  rintro result after ⟨holds, under⟩
  exact ⟨onOk result after.toComputer holds, under⟩

theorem pure {ok : Result → Computer → Prop} {result : Result} (holds : ok result before) :
    Leads launch (Pure.pure result) ok failed before := by
  rintro booting rfl under
  exact Ends.pure ⟨holds, under⟩

theorem fail {ok : Result → Computer → Prop} {error : StoreError} (holds : failed error before) :
    Leads launch (Attempt.fail error) ok failed before := by
  rintro booting rfl _
  exact Ends.fail holds

theorem map {attempt : Start Result} {convert : Result → Other} {ok : Other → Computer → Prop}
    (leads : Leads launch attempt (fun result => ok (convert result)) failed before) :
    Leads launch (convert <$> attempt) ok failed before :=
  bind (leads.mono fun _ _ holds => pure holds)

theorem computer {ok : Computer → Computer → Prop} (holds : ok before before) :
    Leads launch Keystore.computer ok failed before := by
  rintro booting rfl under
  exact Ends.bind (Ends.current (Ends.pure ⟨holds, under⟩))

theorem require {ok : Unit → Computer → Prop} {allowed : Bool} {error : StoreError}
    (holds : allowed = true → ok () before) (fails : allowed = false → failed error before) :
    Leads launch (Attempt.require allowed error) ok failed before := by
  rintro booting rfl under
  exact Ends.require_cases (fun allowed => ⟨holds allowed, under⟩) fails

theorem access {ok : Unit → Computer → Prop} (holds : ok () before)
    (stops : launch.steps ≠ none → failed .stopped before) :
    Leads launch Keystore.access ok failed before := by
  rintro booting rfl under
  unfold Ends Keystore.access
  by_cases last : booting.steps = some 0
  · rw [if_pos last]
    refine stops fun goesOn => ?_
    rw [under.goesOn goesOn] at last
    cases last
  · rw [if_neg last]
    refine ⟨holds, ?_, under.sees⟩
    intro goesOn
    show booting.steps.map (· - 1) = none
    rw [under.goesOn goesOn]
    rfl

theorem alter {ok : Unit → Computer → Prop} {update : Computer → Computer}
    (holds : ok () (update before)) : Leads launch (Keystore.alter update) ok failed before := by
  rintro booting rfl under
  exact Ends.change ⟨holds, under.goesOn, under.sees⟩

theorem write {ok : Unit → Computer → Prop} {update : Computer → Computer}
    (holds : ok () (update before)) (stops : launch.steps ≠ none → failed .stopped before) :
    Leads launch (Keystore.write update) ok failed before :=
  bind (access (alter holds) stops)

theorem readKeychain {ok : Option Seed → Computer → Prop}
    (holds : ∀ seed ∈ before.keychain, ok (some seed) before)
    (hidden : (launch.shows = [] → before.keychain = none) → ok none before)
    (stops : launch.steps ≠ none → failed .stopped before) :
    Leads launch Keystore.readKeychain ok failed before := by
  refine bind (access ?_ stops)
  rintro booting rfl under
  refine Ends.take ⟨?_, under.goesOn, fun sees => ?_⟩
  · show ok (if booting.shows.headD true then booting.keychain else none) booting.toComputer
    by_cases shown : booting.shows.headD true = true
    · rw [if_pos shown]
      cases found : booting.keychain with
      | none => exact hidden fun _ => found
      | some seed => exact holds seed found
    · rw [if_neg shown]
      refine hidden fun sees => absurd ?_ shown
      rw [under.sees sees]
      rfl
  · show booting.shows.tail = []
    rw [under.sees sees]
    rfl

theorem readFile {ok : Option Seed → Computer → Prop} (holds : ok before.identityFile before)
    (stops : launch.steps ≠ none → failed .stopped before) :
    Leads launch Keystore.readFile ok failed before :=
  bind (access (bind (computer (pure holds))) stops)

theorem loadKnown {ok : Map String Pin → Computer → Prop} (holds : ok before.known before)
    (stops : launch.steps ≠ none → failed .stopped before) :
    Leads launch Keystore.loadKnown ok failed before :=
  bind (access (bind (computer (pure holds))) stops)

theorem knowsServers {ok : Bool → Computer → Prop}
    (holds : ok (decide (before.known.keys ≠ ∅)) before)
    (stops : launch.steps ≠ none → failed .stopped before) :
    Leads launch Keystore.knowsServers ok failed before :=
  bind (loadKnown (pure holds) stops)

theorem seedToKey {ok : Identity → Computer → Prop} {bytes : Seed}
    (holds : ∀ identity : Identity, identity.seed = bytes → ok identity before)
    (corrupt : bytes.length ≠ 32 → failed .corrupt before) :
    Leads launch (Keystore.seedToKey bytes) ok failed before := by
  unfold Keystore.seedToKey
  by_cases size : bytes.length = 32
  · rw [dif_pos size]
    exact pure (holds _ rfl)
  · rw [dif_neg size]
    exact fail (corrupt size)

end Leads

/-! ### What a start leaves -/

variable (launch) (before : Computer)

/-- Why a start fails. -/
inductive Excuse : StoreError → Prop
  | stopped (cut : launch.steps ≠ none) : Excuse .stopped
  | identityMissing (refuses : launch.whenMissing = .refuse)
    (missing : before.identityFile = none) (knows : before.known.keys ≠ ∅)
    (empty : launch.shows = [] → before.keychain = none) : Excuse .identityMissing
  | corrupt (bytes : Seed) (size : bytes.length ≠ 32)
    (kept : before.keychain = some bytes ∨ before.identityFile = some bytes) : Excuse .corrupt
  | unreachable (gone : launch.keychain = false) (missing : before.identityFile = none)
    (knows : before.known.keys ≠ ∅) : Excuse .unreachable

/-- What a start may leave, wherever it ends, but for the encryption key it loads and the
identity it runs with. -/
inductive Writes : Computer → Prop
  | nothing : Writes before
  | fromFile {seed : Seed} (file : before.identityFile = some seed) :
    Writes { before with keychain := some seed }
  | first (empty : launch.shows = [] → before.keychain = none)
    (missing : before.identityFile = none) (unknown : before.known.keys = ∅) :
    Writes { before with keychain := some launch.generated.seed }
  | fallback (gone : launch.keychain = false) (missing : before.identityFile = none)
    (unknown : before.known.keys = ∅) :
    Writes { before with identityFile := some launch.generated.seed }
  | renewed (agreed : launch.whenMissing = .startOver) (missing : before.identityFile = none) :
    Writes { before with encryptionKey := some launch.newKey }
  | startedOver (agreed : launch.whenMissing = .startOver)
    (empty : launch.shows = [] → before.keychain = none)
    (missing : before.identityFile = none) :
    Writes
      (Computer.abandon
        { before with
          encryptionKey := some launch.newKey
          keychain := some launch.generated.seed }
        before.known)
  | forgot (agreed : launch.whenMissing = .startOver)
    (empty : launch.shows = [] → before.keychain = none)
    (missing : before.identityFile = none) :
    Writes
      { before with
        encryptionKey := some launch.newKey
        keychain := some launch.generated.seed
        known := ∅ }

/-- A start that fails leaves this. -/
def Fails (error : StoreError) (after : Computer) : Prop :=
  Excuse launch before error ∧ Writes launch before after

/-- What a start has done once it has its identity. -/
structure Found (identity : Identity) (new : Bool) (after : Computer) : Prop where
  writes : Writes launch before after
  kept : after.keychain = some identity.seed ∨ after.identityFile = some identity.seed
  fresh : new = true → identity = launch.generated ∧ after.known.keys = ∅ ∧
    (launch.shows = [] → before.seed = none)
  recovered : new = false → after.known = before.known

/-- The identity for an empty keychain is that of the file, or a new one. -/
def Candidate (before : Computer) (identity : Identity) (new : Bool) : Prop :=
  (new = false ∧ before.identityFile = some identity.seed) ∨
    (new = true ∧ identity = launch.generated ∧ before.identityFile = none ∧
      (launch.whenMissing = .refuse → before.known.keys = ∅))

variable {launch before}

theorem Fails.cut (cut : launch.steps ≠ none) : Fails launch before .stopped before :=
  ⟨.stopped cut, .nothing⟩

theorem candidate_leads (empty : launch.shows = [] → before.keychain = none) :
    Leads launch (candidate launch)
      (fun (identity, new) after => after = before ∧ Candidate launch before identity new)
      (Fails launch before) before := by
  refine .bind (.readFile ?_ Fails.cut)
  cases file : before.identityFile with
  | some bytes =>
    refine .bind (.seedToKey ?_ fun size => ⟨.corrupt bytes size (.inr file), .nothing⟩)
    rintro identity rfl
    exact .pure ⟨rfl, .inl ⟨rfl, file⟩⟩
  | none =>
    dsimp only
    cases missing : launch.whenMissing with
    | refuse =>
      refine .bind (.knowsServers (.bind (.require ?_ ?_)) Fails.cut)
      · intro unknown
        rw [Bool.not_eq_true', decide_eq_false_iff_not, not_not] at unknown
        exact .pure ⟨rfl, .inr ⟨rfl, rfl, file, fun _ => unknown⟩⟩
      · intro knows
        rw [Bool.not_eq_false', decide_eq_true_iff] at knows
        exact ⟨.identityMissing missing file knows empty, .nothing⟩
    | startOver =>
      refine .pure ⟨rfl, .inr ⟨rfl, rfl, file, fun refuses => ?_⟩⟩
      rw [missing] at refuses
      cases refuses

theorem seed_of_empty (empty : launch.shows = [] → before.keychain = none)
    (missing : before.identityFile = none) (sees : launch.shows = []) : before.seed = none := by
  unfold Computer.seed
  rw [empty sees, missing]
  rfl

theorem replaceIdentity_leads (agreed : launch.whenMissing = .startOver)
    (empty : launch.shows = [] → before.keychain = none) (missing : before.identityFile = none) :
    Leads launch (replaceIdentity launch launch.generated)
      (fun _ => Found launch before launch.generated true) (Fails launch before) before := by
  refine .bind (.loadKnown ?_ Fails.cut)
  refine .bind (.write ?_ Fails.cut)
  refine .bind (.write ?_ fun cut => ⟨.stopped cut, .renewed agreed missing⟩)
  refine .bind (.alter ?_)
  refine .write ?_ fun cut => ⟨.stopped cut, .startedOver agreed empty missing⟩
  exact {
    writes := .forgot agreed empty missing
    kept := .inl rfl
    fresh := fun _ => ⟨rfl, rfl, seed_of_empty empty missing⟩
    recovered := fun old => absurd old Bool.true_eq_false.mp }

/-- An identity read from where the computer keeps it. -/
theorem Found.kept_before {identity : Identity}
    (kept : before.keychain = some identity.seed ∨ before.identityFile = some identity.seed) :
    Found launch before identity false before where
  writes := .nothing
  kept := kept
  fresh new := absurd new Bool.false_ne_true
  recovered _ := rfl

theorem readKey_leads {bytes : Seed} (found : before.keychain = some bytes) :
    Leads launch (do return (← seedToKey bytes, false))
      (fun (identity, new) => Found launch before identity new) (Fails launch before) before := by
  refine .bind (.seedToKey ?_ fun size => ⟨.corrupt bytes size (.inl found), .nothing⟩)
  rintro identity rfl
  exact .pure (.kept_before (.inl found))

theorem firstKeychainIdentity_leads (empty : launch.shows = [] → before.keychain = none) :
    Leads launch (firstKeychainIdentity launch)
      (fun (identity, new) => Found launch before identity new) (Fails launch before) before := by
  refine .bind ((candidate_leads empty).mono ?_)
  rintro ⟨identity, new⟩ _ ⟨same, is⟩
  subst same
  refine .bind (.readKeychain (fun seed found => readKey_leads found) (fun empty => ?_) Fails.cut)
  dsimp only
  split
  · rename_i both
    obtain ⟨old, -⟩ | ⟨-, rfl, missing, -⟩ := is
    · rw [both.1] at old
      cases old
    rw [both.1]
    exact .bind ((replaceIdentity_leads both.2 empty missing).mono fun _ _ found => .pure found)
  · rename_i kept
    refine .bind (.write (.pure ?_) Fails.cut)
    obtain ⟨rfl, file⟩ | ⟨rfl, rfl, missing, unknown⟩ := is
    · exact {
        writes := .fromFile file
        kept := .inl rfl
        fresh := fun new => absurd new Bool.false_ne_true
        recovered := fun _ => rfl }
    · have refuses : launch.whenMissing = .refuse := by
        cases mode : launch.whenMissing with
        | refuse => rfl
        | startOver => exact absurd ⟨rfl, mode⟩ kept
      exact {
        writes := .first empty missing (unknown refuses)
        kept := .inl rfl
        fresh := fun _ => ⟨rfl, unknown refuses, seed_of_empty empty missing⟩
        recovered := fun old => absurd old Bool.true_eq_false.mp }

theorem identityIn_leads :
    Leads launch (identityIn launch)
      (fun (identity, new) => Found launch before identity new) (Fails launch before) before :=
  .bind (.readKeychain (fun _ => readKey_leads) firstKeychainIdentity_leads Fails.cut)

theorem fallbackIdentity_leads (gone : launch.keychain = false) :
    Leads launch (fallbackIdentity launch)
      (fun identity => Found launch before identity false) (Fails launch before) before := by
  refine .bind (.knowsServers (.bind (.computer (.bind (.require ?_ ?_)))) Fails.cut)
  · intro allowed
    refine .bind (.readFile ?_ Fails.cut)
    cases file : before.identityFile with
    | some bytes =>
      refine .seedToKey ?_ fun size => ⟨.corrupt bytes size (.inr file), .nothing⟩
      rintro identity rfl
      exact .kept_before (.inr file)
    | none =>
      have unknown : before.known.keys = ∅ := by
        rw [file] at allowed
        simpa using allowed
      refine .bind (.write (.pure ?_) Fails.cut)
      exact {
        writes := .fallback gone file unknown
        kept := .inr rfl
        fresh := fun new => absurd new Bool.false_ne_true
        recovered := fun _ => rfl }
  · intro refused
    rw [Bool.not_eq_false', Bool.and_eq_true, decide_eq_true_iff, Option.isNone_iff_eq_none]
      at refused
    exact ⟨.unreachable gone refused.2 refused.1, .nothing⟩

theorem findIdentity_leads :
    Leads launch (findIdentity launch)
      (fun (identity, new) => Found launch before identity new) (Fails launch before) before := by
  unfold findIdentity
  cases gone : launch.keychain with
  | true => exact identityIn_leads
  | false => exact .map (fallbackIdentity_leads gone)

/-- The encryption key is the one kept or a new one; nothing else changes. -/
theorem loadEncryptionKey_leads {failed : StoreError → Computer → Prop}
    (stops : launch.steps ≠ none → failed .stopped before) :
    Leads launch (loadEncryptionKey launch)
      (fun _ after => after = before ∨
        after = { before with encryptionKey := some launch.newKey }) failed before := by
  refine .bind (.computer ?_)
  cases before.encryptionKey with
  | none => exact .write (.inr rfl) stops
  | some key =>
    dsimp only
    split
    · exact .pure (.inl rfl)
    · exact .write (.inr rfl) stops

variable (launch) in
/-- What a start that goes through leaves. -/
def Opened (before : Computer) (new : Bool) (after : Computer) : Prop :=
  ∃ identity left, Found launch before identity new left ∧
    (after = { left with identity := some identity } ∨
      after =
        { left with encryptionKey := some launch.newKey, identity := some identity })

theorem openPlatform_leads :
    Leads launch (openPlatform launch) (Opened launch before) (Fails launch before) before := by
  refine .bind (findIdentity_leads.mono ?_)
  rintro ⟨identity, new⟩ left found
  have stops (cut : launch.steps ≠ none) : Fails launch before .stopped left :=
    ⟨.stopped cut, found.writes⟩
  refine .bind (.loadKnown (.bind ((loadEncryptionKey_leads stops).mono ?_)) stops)
  rintro _ _ (rfl | rfl)
  · exact .bind (.alter (.pure ⟨identity, _, found, .inl rfl⟩))
  · exact .bind (.alter (.pure ⟨identity, _, found, .inr rfl⟩))

/-- What a start does, however it ends. -/
theorem start_cases (launch : Launch) (computer : Computer) :
    (∃ error, (start launch computer).1 = .error error ∧
      Fails launch { computer with identity := none } error (start launch computer).2) ∨
    ∃ new, (start launch computer).1 = .ok new ∧
      Opened launch { computer with identity := none } new (start launch computer).2 := by
  have leads := @openPlatform_leads launch _
    { computer with identity := none, steps := launch.steps, shows := launch.shows } rfl
    ⟨id, id⟩
  unfold start
  generalize outcome : openPlatform launch
    { computer with identity := none, steps := launch.steps, shows := launch.shows } = result
    at leads ⊢
  obtain ⟨error | new, after⟩ := result
  · exact .inl ⟨error, rfl, leads.of_error outcome⟩
  · exact .inr ⟨new, rfl, (leads.of_ok outcome).1⟩


/-! ### What runs keep -/

/-- The invariant of every run. -/
structure Sound (computer : Computer) : Prop where
  agree : ∀ seed ∈ computer.keychain, ∀ bytes ∈ computer.identityFile, seed = bytes
  sized : ∀ seed ∈ computer.seed, seed.length = 32
  pinned : ∀ address pin, computer.known.lookup address = some pin →
    computer.seed ≠ none ∧ (pin.abandoned = false → computer.seed = some pin.under.seed)
  running : ∀ identity ∈ computer.identity, computer.seed = some identity.seed

variable {computer after : Computer}

/-- What keeps the key keeps the invariant. -/
theorem Sound.of_seed (sound : Sound computer) (same : after.seed = computer.seed)
    (agree : ∀ seed ∈ after.keychain, ∀ bytes ∈ after.identityFile, seed = bytes)
    (known : after.known = computer.known)
    (identity : ∀ identity ∈ after.identity, after.seed = some identity.seed) : Sound after where
  agree := agree
  sized seed kept := sound.sized seed (same ▸ kept)
  pinned address pin found := by
    rw [same]
    exact sound.pinned address pin (known ▸ found)
  running := identity

/-- A new key is kept while no server is known by the old one. -/
theorem Sound.of_generated {generated : Identity} (kept : after.seed = some generated.seed)
    (agree : ∀ seed ∈ after.keychain, ∀ bytes ∈ after.identityFile, seed = bytes)
    (given : ∀ address pin, after.known.lookup address = some pin → pin.abandoned = true)
    (identity : after.identity = none) : Sound after where
  agree := agree
  sized seed found := by
    rw [kept] at found
    cases found
    exact generated.size
  pinned address pin found := by
    rw [kept]
    refine ⟨Option.some_ne_none _, fun not => ?_⟩
    rw [given address pin found] at not
    cases not
  running running found := by
    rw [identity] at found
    cases found

theorem lookup_of_unknown {address : String} {pin : Pin} (unknown : computer.known.keys = ∅)
    (found : computer.known.lookup address = some pin) : False := by
  have member := (Map.mem_keys_iff computer.known address).mpr ⟨pin, found⟩
  rw [unknown] at member
  exact absurd member (Finset.notMem_empty _)

/-- A start without a keychain makes an identity, though the keychain it lacks holds one. -/
def Splits (computer : Computer) : Input → Prop
  | .start launch => launch.keychain = false ∧ computer.identityFile = none ∧
    computer.known.keys = ∅ ∧ computer.keychain ≠ none
  | _ => False

theorem not_splits (reachable : launch.keychain = true) :
    ¬ Splits computer (.start launch) := fun splits =>
  Bool.false_ne_true (splits.1.symm.trans reachable)

theorem Sound.seed_of_file (sound : Sound computer) {seed : Seed}
    (file : computer.identityFile = some seed) : computer.seed = some seed := by
  unfold Computer.seed
  cases held : computer.keychain with
  | none => rw [file, Option.none_or]
  | some kept => rw [sound.agree kept held seed file, Option.some_or]

/-- Putting the file's identity in the keychain changes no identity. -/
theorem Sound.seed_fromFile (sound : Sound computer) {seed : Seed}
    (file : computer.identityFile = some seed) :
    Computer.seed { computer with keychain := some seed } = computer.seed :=
  (sound.seed_of_file file).symm

theorem Sound.writes (sound : Sound computer) (stopped : computer.identity = none)
    (whole : ¬ Splits computer (.start launch)) (writes : Writes launch computer after) :
    Sound after := by
  have noIdentity {after : Computer} (same : after.identity = none) :
      ∀ identity ∈ after.identity, after.seed = some identity.seed := by
    intro identity found
    rw [same] at found
    cases found
  have noFile {after : Computer} (missing : after.identityFile = none) :
      ∀ seed ∈ after.keychain, ∀ bytes ∈ after.identityFile, seed = bytes := by
    intro _ _ bytes found
    rw [missing] at found
    cases found
  cases writes with
  | nothing => exact sound
  | @fromFile seed file =>
    refine sound.of_seed ?_ ?_ rfl (noIdentity stopped)
    · exact sound.seed_fromFile file
    · rintro _ ⟨⟩ bytes found
      rw [Option.mem_def, file] at found
      exact Option.some.inj found
  | first _ missing unknown =>
    exact .of_generated rfl (noFile missing)
      (fun _ _ found => (lookup_of_unknown unknown found).elim) stopped
  | fallback gone missing unknown =>
    have empty : computer.keychain = none := by
      by_contra held
      exact whole ⟨gone, missing, unknown, held⟩
    have kept : Computer.seed { computer with identityFile := some launch.generated.seed } =
        some launch.generated.seed := by
      unfold Computer.seed
      rw [empty]
      rfl
    refine .of_generated kept ?_
      (fun _ _ found => (lookup_of_unknown unknown found).elim) stopped
    · intro seed found
      rw [empty] at found
      cases found
  | renewed _ _ => exact sound.of_seed rfl sound.agree rfl (noIdentity stopped)
  | startedOver _ _ missing =>
    refine .of_generated rfl (noFile missing) ?_ stopped
    intro address pin found
    have given : (computer.known.mapValues fun _ pin =>
        { pin with abandoned := true }).lookup address = some pin := found
    rw [Map.lookup_mapValues, Option.map_eq_some_iff] at given
    obtain ⟨_, _, rfl⟩ := given
    rfl
  | forgot _ _ missing =>
    exact .of_generated rfl (noFile missing) (fun _ _ found => by cases found) stopped

/-- A client that isn't running. -/
theorem Sound.stopped (sound : Sound computer) : Sound { computer with identity := none } :=
  sound.of_seed rfl sound.agree rfl fun _ found => by cases found

/-- The identity a start has found is the one the computer keeps. -/
theorem Found.seed {identity : Identity} {new : Bool} {left : Computer}
    (found : Found launch computer identity new left) (sound : Sound left) :
    left.seed = some identity.seed := by
  obtain kept | kept := found.kept
  · exact Option.or_eq_some_iff.mpr (.inl kept)
  · exact sound.seed_of_file kept

theorem Sound.started (sound : Sound computer) (whole : ¬ Splits computer (.start launch)) :
    Sound (start launch computer).2 := by
  obtain ⟨_, -, -, writes⟩ | ⟨new, -, identity, left, found, opened⟩ :=
    start_cases launch computer
  · exact sound.stopped.writes rfl whole writes
  · have kept : Sound left := sound.stopped.writes rfl whole found.writes
    have runs : ∀ running ∈ some identity, left.seed = some running.seed := by
      rintro _ ⟨⟩
      exact found.seed kept
    obtain same | same := opened
    · rw [same]
      exact kept.of_seed rfl kept.agree rfl runs
    · rw [same]
      exact kept.of_seed rfl kept.agree rfl runs

theorem Sound.step {input : Input} (sound : Sound computer) (whole : ¬ Splits computer input) :
    Sound (step computer input) := by
  cases input with
  | start launch => exact sound.started whole
  | trust address fingerprint ok =>
    unfold Keystore.step
    dsimp only
    cases running : computer.identity with
    | none => exact sound
    | some identity =>
      cases ok with
      | false => exact sound
      | true =>
        have kept := sound.running identity running
        refine ⟨sound.agree, sound.sized, fun other pin found => ?_, ?_⟩
        · rw [Map.lookup_insert_ite] at found
          by_cases same : other = address
          · rw [if_pos same] at found
            cases found
            refine ⟨?_, fun _ => kept⟩
            show computer.seed ≠ none
            rw [kept]
            exact Option.some_ne_none _
          · rw [if_neg same] at found
            exact sound.pinned other pin found
        · rintro _ ⟨⟩
          exact kept
  | forget address ok =>
    unfold Keystore.step
    dsimp only
    split
    · refine ⟨sound.agree, sound.sized, ?_, sound.running⟩
      intro other pin found
      rw [Map.lookup_erase_ite] at found
      split at found
      · cases found
      · exact sound.pinned other pin found
    · exact sound
  | renewEncryptionKey key ok =>
    unfold Keystore.step
    dsimp only
    split
    · exact sound.of_seed rfl sound.agree rfl sound.running
    · exact sound

theorem sound_run {inputs : List Input}
    (whole : Along step (fun computer input => ¬ Splits computer input) {} inputs) :
    Sound (run step {} inputs) := by
  refine whole.invariant Sound ?_ fun _ _ sound whole => sound.step whole
  constructor
  · rintro _ ⟨⟩
  · rintro _ ⟨⟩
  · rintro _ _ ⟨⟩
  · rintro _ ⟨⟩

/-! ### What starts do on their own -/

/-- The list of servers changes only once the new identity is in the keychain, with an encryption
key of its own. -/
theorem Writes.known (writes : Writes launch computer after) :
    after.known = computer.known ∨
      (launch.whenMissing = .startOver ∧ after.keychain = some launch.generated.seed ∧
        after.encryptionKey = some launch.newKey) := by
  cases writes with
  | startedOver agreed _ _ | forgot agreed _ _ => exact .inr ⟨agreed, rfl, rfl⟩
  | _ => exact .inl rfl

/-- Only the file's identity may go to the keychain while servers are known. -/
theorem Writes.refused (writes : Writes launch computer after) (sound : Sound computer)
    (refuses : launch.whenMissing = .refuse) (knows : computer.known.keys ≠ ∅) :
    after.seed = computer.seed ∧ after.known = computer.known := by
  cases writes with
  | nothing => exact ⟨rfl, rfl⟩
  | @fromFile seed file => exact ⟨sound.seed_fromFile file, rfl⟩
  | first _ _ unknown | fallback _ _ unknown => exact absurd unknown knows
  | renewed agreed _ | startedOver agreed _ _ | forgot agreed _ _ =>
    rw [refuses] at agreed
    cases agreed

theorem Writes.seed (writes : Writes launch computer after) (sound : Sound computer)
    (reachable : launch.keychain = true) (sees : launch.shows = []) :
    after.seed = computer.seed ∨ computer.seed = none := by
  cases writes with
  | nothing | renewed _ _ => exact .inl rfl
  | @fromFile seed file => exact .inl (sound.seed_fromFile file)
  | first empty missing _ | startedOver _ empty missing | forgot _ empty missing =>
    exact .inr (seed_of_empty empty missing sees)
  | fallback gone _ _ =>
    rw [reachable] at gone
    cases gone

/-- A start is refused only while the keychain is out of reach, gone or hiding what it holds. -/
theorem Excuse.unseen {error : StoreError} (excuse : Excuse launch computer error)
    (sound : Sound computer) (whole : launch.steps = none) (reachable : launch.keychain = true)
    (sees : launch.shows = []) : False := by
  cases excuse with
  | stopped cut => exact cut whole
  | identityMissing _ missing knows empty =>
    obtain ⟨address, known⟩ := Finset.nonempty_iff_ne_empty.mpr knows
    obtain ⟨pin, found⟩ := (Map.mem_keys_iff _ _).mp known
    exact (sound.pinned address pin found).1 (seed_of_empty empty missing sees)
  | corrupt bytes size kept =>
    refine size (sound.sized bytes ?_)
    obtain held | file := kept
    · exact Option.or_eq_some_iff.mpr (.inl held)
    · exact sound.seed_of_file file
  | unreachable gone _ _ =>
    rw [reachable] at gone
    cases gone

/-! ### A client keeps its identity -/

/-- What a client relies on. -/
structure Lasting (computer : Computer) : Prop where
  /-- The listed servers know the identity the computer keeps and the client runs with, but for
  those the user has given up. -/
  known : ∀ address pin, computer.known.lookup address = some pin → pin.abandoned = false →
    computer.seed = some pin.under.seed ∧ ∀ identity ∈ computer.identity, identity = pin.under
  /-- A start that isn't cut off or kept from the keychain goes through, with the identity the
  computer keeps if it keeps one. -/
  opens : ∀ launch, launch.steps = none → launch.keychain = true → launch.shows = [] →
    ∃ new identity, (start launch computer).1 = .ok new ∧
      (start launch computer).2.identity = some identity ∧
      ∀ seed ∈ computer.seed, identity.seed = seed ∧ new = false
  /-- No other identity is started while servers are known. -/
  refuses : ∀ launch, launch.whenMissing = .refuse → computer.known.keys ≠ ∅ →
    (start launch computer).2.seed = computer.seed ∧
      (start launch computer).2.known = computer.known
  /-- No server is given up before the new identity is in the keychain, with an encryption key
  of its own. -/
  givesUp : ∀ launch, (start launch computer).2.known ≠ computer.known →
    launch.whenMissing = .startOver ∧
      (start launch computer).2.keychain = some launch.generated.seed ∧
      (start launch computer).2.encryptionKey = some launch.newKey
  /-- What a start reports is what it did. -/
  reports : ∀ launch,
    ((start launch computer).1 = .ok true →
      (start launch computer).2.identity = some launch.generated ∧
        (start launch computer).2.known.keys = ∅) ∧
    ((start launch computer).1 = .ok false →
      (start launch computer).2.known = computer.known)

theorem Sound.opens (sound : Sound computer) (whole : launch.steps = none)
    (reachable : launch.keychain = true) (sees : launch.shows = []) :
    ∃ new identity, (start launch computer).1 = .ok new ∧
      (start launch computer).2.identity = some identity ∧
      ∀ seed ∈ computer.seed, identity.seed = seed ∧ new = false := by
  obtain ⟨_, -, excuse, -⟩ | ⟨new, success, identity, left, found, opened⟩ :=
    start_cases launch computer
  · exact (excuse.unseen sound.stopped whole reachable sees).elim
  refine ⟨new, identity, success, by obtain same | same := opened <;> rw [same], ?_⟩
  intro seed kept
  have after := found.seed (sound.stopped.writes rfl (not_splits reachable) found.writes)
  constructor
  · obtain same | none := found.writes.seed sound.stopped reachable sees
    · exact Option.some.inj ((after.symm.trans same).trans kept)
    · exact absurd (none.symm.trans kept) (Option.some_ne_none seed).symm
  · cases new with
    | false => rfl
    | true =>
      have none := (found.fresh rfl).2.2 sees
      exact absurd (none.symm.trans kept) (Option.some_ne_none seed).symm

theorem Sound.lasting (sound : Sound computer) : Lasting computer where
  known address pin found kept := by
    have seed := (sound.pinned address pin found).2 kept
    refine ⟨seed, fun identity running => ?_⟩
    have same := (sound.running identity running).symm.trans seed
    exact Identity.ext (Option.some.inj same)
  opens _ := sound.opens
  refuses launch refuses knows := by
    obtain ⟨_, -, -, writes⟩ | ⟨_, -, _, left, found, opened⟩ := start_cases launch computer
    · exact writes.refused sound.stopped refuses knows
    · have refused := found.writes.refused sound.stopped refuses knows
      obtain same | same := opened
      · rw [same]
        exact refused
      · rw [same]
        exact refused
  givesUp launch changed := by
    obtain ⟨_, -, -, writes⟩ | ⟨_, -, _, left, found, opened⟩ := start_cases launch computer
    · obtain same | ⟨agreed, kept, key⟩ := writes.known
      · exact absurd same changed
      · exact ⟨agreed, kept, key⟩
    · obtain same | ⟨agreed, kept, key⟩ := found.writes.known
      · refine absurd ?_ changed
        obtain opened | opened := opened
        · rw [opened, ← same]
        · rw [opened, ← same]
      · obtain same | same := opened
        · rw [same]
          exact ⟨agreed, kept, key⟩
        · rw [same]
          exact ⟨agreed, kept, rfl⟩
  reports launch := by
    obtain ⟨_, failure, -⟩ | ⟨new, success, identity, left, found, opened⟩ :=
      start_cases launch computer
    · rw [failure]
      constructor
      · rintro ⟨⟩
      · rintro ⟨⟩
    · rw [success]
      constructor
      · rintro ⟨⟩
        obtain ⟨rfl, unknown, -⟩ := found.fresh rfl
        obtain same | same := opened
        · rw [same]
          exact ⟨rfl, unknown⟩
        · rw [same]
          exact ⟨rfl, unknown⟩
      · rintro ⟨⟩
        have known := found.recovered rfl
        obtain same | same := opened
        · rw [same]
          exact known
        · rw [same]
          exact known

/-- Wherever the starts before were cut off, and whatever the keychain hid from them. -/
theorem run_identity (inputs : List Input)
    (whole : Along step (fun computer input => ¬ Splits computer input) {} inputs) :
    Lasting (run step {} inputs) :=
  (sound_run whole).lasting

/-- A start that makes this identity, at this time in seconds. -/
def opens (byte : UInt8) (now : Nat) : Launch where
  whenMissing := .refuse
  keychain := true
  generated := { seed := List.replicate 32 byte, size := List.length_replicate }
  secret := [byte]
  now

/-- A client whose keychain hides its identity is refused, starts over, and is cut off before it
empties its list. The next start has the new identity. -/
def startsOver : List Input :=
  [.start (opens 1 100), .trust "voice.example.net" 7 true,
    .start { opens 2 200 with shows := [false, false] },
    .start { opens 3 300 with whenMissing := .startOver, shows := [false, false], steps := some 6 },
    .start (opens 4 400)]

theorem run_identity_startsOver :
    (run step {} startsOver).identity = some (opens 3 300).generated ∧
      (run step {} startsOver).known.keys = {"voice.example.net"} ∧
      Lasting (run step {} startsOver) := by
  refine ⟨by decide +kernel, by decide +kernel, run_identity startsOver ?_⟩
  exact ⟨not_splits rfl, not_false, not_splits rfl, not_splits rfl, not_splits rfl, trivial⟩

end Keystore

end Throcc
