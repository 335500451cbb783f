/-
This file embeds enrollment runs beside the server: any number of them are in
flight, each with the invite whose try it claimed, and they end in any order
among everything else the server does. It proves what an invite is spent on
and how many tries it takes.
-/

import Throcc.Enrollments
import Throcc.Reachable

namespace Throcc

/-- The invite as it was minted. -/
def InviteRow.untried (invite : InviteRow) : InviteRow := { invite with failures := 0 }

/-- One run of a live invite, from its claimed try until it ends or is dropped. -/
structure InviteRun where
  codeId : String
  pubkey : PublicKey
  name : String
  /-- The invite whose try it claimed; the run proves its secret. -/
  invite : InviteRow
  startedAt : Nat
  /-- It has proved the secret and asked the database to enroll its key. -/
  asked : Bool := false

/-- What a run did to an invite. -/
inductive RunEvent where
  | claimed (codeId : String)
  /-- A run enrolled its key: the invite it had claimed, and the one it consumed. -/
  | enrolled (codeId : String) (claimed : InviteRow) (spent : Option InviteRow)
deriving DecidableEq

def RunEvent.isClaim (codeId : String) : RunEvent → Bool
  | claimed code => code = codeId
  | enrolled _ _ _ => false

def RunEvent.isEnrollment (codeId : String) : RunEvent → Bool
  | claimed _ => false
  | enrolled code _ _ => code = codeId

/-- The server, the runs of live invites in flight and what runs did so far. -/
structure Enrollments where
  server : Server
  runs : List InviteRun := []
  events : List RunEvent := []

namespace Enrollments

inductive Ask where
  /-- A client asks to enroll, and its source may. -/
  | hello (codeId : String) (pubkey : PublicKey) (name : String)
  /-- The messages of a run in flight have been exchanged, and they prove the secret. -/
  | enroll (index : Nat)
  /-- A run in flight ends, having enrolled its key or failed at any point. -/
  | drop (index : Nat)
  | other (action : Action) (plain : action.plain = true)

structure Input where
  ask : Ask
  clock : Clock
  faults : List Bool := []
  draws : Nat → Fin (idChars + secretChars) → UInt8 := fun _ _ => 0

/-- The server's input for one of its own actions. -/
def Input.on (input : Input) (action : Action) : Throcc.Input where
  action := action
  clock := input.clock
  faults := input.faults
  draws := input.draws

variable (primitives : Primitives)

/-- Begins a run. One of an unknown invite goes on with a decoy secret and only fails. -/
def hello (enrollments : Enrollments) (input : Input) (codeId : String) (pubkey : PublicKey)
    (name : String) : Enrollments :=
  let server := enrollments.server
  match validName name with
  | none => enrollments
  | some name =>
    if server.hub.isFull then enrollments
    else
      let codeId := normalize codeId
      let startedAt := input.clock.unixNow
      match Hub.claimTry codeId startedAt { server.hub with faults := input.faults } with
      | (.ok (some invite), hub) =>
        { server := { server with hub }
          runs := enrollments.runs ++ [{ codeId, pubkey, name, invite, startedAt }]
          events := enrollments.events ++ [.claimed codeId] }
      | (_, hub) => { enrollments with server := { server with hub } }

def enroll (enrollments : Enrollments) (input : Input) (index : Nat) (run : InviteRun) :
    Enrollments :=
  let server := enrollments.server
  let spent := server.hub.db.invites.lookup run.codeId
  let runs := enrollments.runs.set index { run with asked := true }
  let enrolled := Hub.enroll run.pubkey run.codeId run.name run.startedAt
    { server.hub with faults := input.faults }
  match enrolled with
  | (.ok (some _), hub) =>
    { server := { server with hub }
      runs
      events := enrollments.events ++ [.enrolled run.codeId run.invite spent] }
  | (_, hub) => { enrollments with server := { server with hub }, runs }

def step (enrollments : Enrollments) (input : Input) : Enrollments :=
  let server := enrollments.server
  match input.ask with
  | .hello codeId pubkey name => enrollments.hello input codeId pubkey name
  | .enroll index =>
    match enrollments.runs[index]? with
    | none => enrollments
    | some run => if run.asked then enrollments else enrollments.enroll input index run
  | .drop index =>
    match enrollments.runs[index]? with
    | none => enrollments
    | some run =>
      let hub := { server.hub with faults := input.faults }
      { enrollments with
        server := { server with hub := hub.endRun run.codeId run.invite.mintedBy }
        runs := enrollments.runs.eraseIdx index }
  | .other action _ =>
    { enrollments with
      server := server.step primitives (input.on action)
      runs := if action.restarts then [] else enrollments.runs }

/-- Nothing has been enrolled yet. -/
def fresh (fingerprint : Fingerprint) (clock : Clock) : Enrollments where
  server := .fresh fingerprint clock

def codes (enrollments : Enrollments) : Codes := enrollments.server.hub.codes

/-- The runs in flight on the invites of a code id. -/
def flying (enrollments : Enrollments) (codeId : String) : Nat :=
  enrollments.runs.countP fun run => run.codeId = codeId

/-- The tries claimed of the invites of a code id. -/
def tries (enrollments : Enrollments) (codeId : String) : Nat :=
  enrollments.events.countP (RunEvent.isClaim codeId)

/-- The enrollments by the invites of a code id. -/
def enrolled (enrollments : Enrollments) (codeId : String) : Nat :=
  enrollments.events.countP (RunEvent.isEnrollment codeId)

/-! ### What a step does -/

/-- Whatever enrollments do, the server takes one of its own steps or none. -/
theorem step_server (enrollments : Enrollments) (input : Input) :
    (step primitives enrollments input).server = enrollments.server ∨
      ∃ action, (step primitives enrollments input).server =
        enrollments.server.step primitives (input.on action) := by
  unfold step
  cases input.ask with
  | hello codeId pubkey name =>
    dsimp only
    unfold hello
    dsimp only
    split
    · exact .inl rfl
    · split
      · exact .inl rfl
      · refine .inr ⟨.claimTry (normalize codeId), ?_⟩
        split
        · rename_i same
          exact congrArg (fun outcome => { enrollments.server with hub := outcome.2 }) same.symm
        · rename_i same
          exact congrArg (fun outcome => { enrollments.server with hub := outcome.2 }) same.symm
  | enroll index =>
    dsimp only
    split
    · exact .inl rfl
    · rename_i run _
      split
      · exact .inl rfl
      · refine .inr ⟨.enroll run.pubkey run.codeId run.name run.startedAt, ?_⟩
        unfold enroll
        dsimp only
        split
        · rename_i same
          exact congrArg (fun outcome => { enrollments.server with hub := outcome.2 }) same.symm
        · rename_i same
          exact congrArg (fun outcome => { enrollments.server with hub := outcome.2 }) same.symm
  | drop index =>
    dsimp only
    split
    · exact .inl rfl
    · rename_i run _
      exact .inr ⟨.endRun run.codeId run.invite.mintedBy, rfl⟩
  | other action plain => exact .inr ⟨action, rfl⟩

/-- The server of a run of enrollments is one that a run of the server reaches. -/
theorem run_server (fingerprint : Fingerprint) (clock : Clock) (inputs : List Input) :
    ∃ served, (run (step primitives) (fresh fingerprint clock) inputs).server =
      run (Server.step primitives) (.fresh fingerprint clock) served := by
  refine run_invariant (step primitives)
    (fun enrollments => ∃ served, enrollments.server =
      run (Server.step primitives) (.fresh fingerprint clock) served) ⟨[], rfl⟩ ?_ inputs
  rintro enrollments input ⟨served, reached⟩
  obtain same | ⟨action, same⟩ := enrollments.step_server primitives input
  · exact ⟨served, same.trans reached⟩
  · refine ⟨served ++ [input.on action], ?_⟩
    rw [same, reached, run_concat]

/-- The runs in flight that the server counts are the runs in flight. -/
def Counted (enrollments : Enrollments) : Prop :=
  ∀ codeId, enrollments.codes.runs.lookup codeId =
    if enrollments.flying codeId = 0 then none else some (enrollments.flying codeId)

/-- What a step does to invites, runs and events. -/
inductive Turn (input : Input) (before after : Enrollments) : Prop where
  | idle (codes : after.codes = before.codes) (runs : after.runs = before.runs)
      (events : after.events = before.events)
  | changed (action : Action) (asks : ∃ plain, input.ask = .other action plain)
      (goes : action ≠ .restart)
      (codes : before.codes.Change (input.on action) after.server.hub.db.users after.codes)
      (runs : after.runs = before.runs) (events : after.events = before.events)
  | restarted (codes : after.codes = before.codes.restart) (runs : after.runs = [])
      (events : after.events = before.events)
  | claimed (run : InviteRun) (stored : before.codes.invites.lookup run.codeId = some run.invite)
      (tried : run.invite.failures < inviteTries) (idle : run.asked = false)
      (codes : after.codes = before.codes.claim run.codeId)
      (runs : after.runs = before.runs ++ [run])
      (events : after.events = before.events ++ [.claimed run.codeId])
  | asked (index : Nat) (run : InviteRun) (found : before.runs[index]? = some run)
      (codes : after.codes = before.codes)
      (runs : after.runs = before.runs.set index { run with asked := true })
      (events : after.events = before.events)
  | enrolled (index : Nat) (run : InviteRun) (invite : InviteRow)
      (asks : input.ask = .enroll index) (found : before.runs[index]? = some run)
      (idle : run.asked = false)
      (stored : before.codes.invites.lookup run.codeId = some invite)
      (codes : after.codes = before.codes.spend run.codeId)
      (runs : after.runs = before.runs.set index { run with asked := true })
      (events : after.events =
        before.events ++ [.enrolled run.codeId run.invite (some invite)])
  | left (index : Nat) (run : InviteRun) (found : before.runs[index]? = some run)
      (kept : before.codes.last run.codeId = true →
        ∀ invite, before.codes.invites.lookup run.codeId = some invite →
          inviteTries ≤ invite.failures → true ∈ input.faults)
      (codes : after.codes = before.codes.leave run.codeId)
      (runs : after.runs = before.runs.eraseIdx index) (events : after.events = before.events)
  | burned (index : Nat) (run : InviteRun) (invite : InviteRow)
      (found : before.runs[index]? = some run) (last : before.codes.last run.codeId = true)
      (stored : before.codes.invites.lookup run.codeId = some invite)
      (spent : inviteTries ≤ invite.failures)
      (codes : after.codes = (before.codes.leave run.codeId).spend run.codeId)
      (runs : after.runs = before.runs.eraseIdx index) (events : after.events = before.events)

theorem flying_pos (enrollments : Enrollments) {index : Nat} {run : InviteRun}
    (found : enrollments.runs[index]? = some run) : 0 < enrollments.flying run.codeId :=
  List.countP_pos_iff.mpr ⟨run, List.mem_of_getElem? found, decide_eq_true rfl⟩

theorem hello_turn (enrollments : Enrollments) (input : Input) (codeId : String)
    (pubkey : PublicKey) (name : String) :
    Turn input enrollments (enrollments.hello input codeId pubkey name) := by
  unfold hello
  dsimp only
  split
  · exact .idle rfl rfl rfl
  · rename_i name _
    split
    · exact .idle rfl rfl rfl
    · let hub : Hub := { enrollments.server.hub with faults := input.faults }
      have claimed := Hub.claimTry_codes (normalize codeId) input.clock.unixNow hub
      unfold Attempt.Ends at claimed
      generalize Hub.claimTry (normalize codeId) input.clock.unixNow hub = outcome at claimed ⊢
      obtain ⟨failure | found, after⟩ := outcome
      · exact .idle claimed rfl rfl
      · cases found with
        | none => exact .idle claimed rfl rfl
        | some invite =>
          obtain ⟨stored, _, tried, codes⟩ := claimed
          exact .claimed ⟨normalize codeId, pubkey, name, invite, input.clock.unixNow, false⟩ stored
            tried rfl codes rfl rfl

theorem enroll_turn (enrollments : Enrollments) (input : Input) {index : Nat} {run : InviteRun}
    (asks : input.ask = .enroll index) (found : enrollments.runs[index]? = some run)
    (idle : run.asked = false) :
    Turn input enrollments (enrollments.enroll input index run) := by
  let hub : Hub := { enrollments.server.hub with faults := input.faults }
  have enrolls := Hub.enroll_codes run.pubkey run.codeId run.name run.startedAt hub
  unfold Attempt.Ends at enrolls
  unfold enroll
  dsimp only
  split
  · rename_i row after same
    rw [same] at enrolls
    obtain ⟨none, _⟩ | ⟨_, invite, stored, _, codes⟩ := enrolls
    · cases none
    · have stored : enrollments.codes.invites.lookup run.codeId = some invite := stored
      have spent : enrollments.server.hub.db.invites.lookup run.codeId = some invite := stored
      rw [spent]
      exact .enrolled index run invite asks found idle stored codes rfl rfl
  · rename_i result after none same
    rw [same] at enrolls
    obtain failure | row := result
    · exact .asked index run found enrolls rfl rfl
    · cases row with
      | none =>
        obtain ⟨_, codes⟩ | ⟨some, _⟩ := enrolls
        · exact .asked index run found codes rfl rfl
        · exact absurd rfl some
      | some row => exact absurd rfl (none row)

theorem turn (enrollments : Enrollments) (input : Input) (counted : enrollments.Counted) :
    Turn input enrollments (step primitives enrollments input) := by
  unfold step
  cases asks : input.ask with
  | hello codeId pubkey name => exact enrollments.hello_turn input codeId pubkey name
  | enroll index =>
    dsimp only
    split
    · exact .idle rfl rfl rfl
    · rename_i run found
      split
      · exact .idle rfl rfl rfl
      · rename_i idle
        exact enrollments.enroll_turn input asks found (Bool.eq_false_iff.mpr idle)
  | drop index =>
    dsimp only
    split
    · exact .idle rfl rfl rfl
    · rename_i run found
      let hub : Hub := { enrollments.server.hub with faults := input.faults }
      have flies : hub.codes.runs.lookup run.codeId ≠ none := by
        have counts := counted run.codeId
        rw [if_neg (Nat.pos_iff_ne_zero.mp (enrollments.flying_pos found))] at counts
        exact fun none => Option.some_ne_none _ (counts.symm.trans none)
      obtain ⟨⟨last, invite, stored, spent⟩, codes⟩ | ⟨kept, codes⟩ :=
        Hub.endRun_codes run.codeId run.invite.mintedBy hub flies
      · exact .burned index run invite found last stored spent codes rfl rfl
      · refine .left index run found (fun last invite stored spent => ?_) codes rfl rfl
        exact kept ⟨last, invite, stored, spent⟩
  | other action plain =>
    dsimp only
    by_cases restarts : action = .restart
    · subst restarts
      exact .restarted rfl rfl rfl
    · have goes : action.restarts = false := by
        cases action <;> first | rfl | exact absurd rfl restarts
      refine .changed action ⟨plain, asks⟩ restarts ?_ (by rw [goes]; rfl) rfl
      exact enrollments.server.change primitives (input.on action) plain

/-! ### Counting runs -/

theorem countP_eraseIdx {Item : Type} (test : Item → Bool) {items : List Item} {index : Nat}
    {item : Item} (found : items[index]? = some item) :
    items.countP test = (items.eraseIdx index).countP test + if test item then 1 else 0 := by
  obtain ⟨within, rfl⟩ := List.getElem?_eq_some_iff.mp found
  rw [← (List.getElem_cons_eraseIdx_perm within).countP_eq, List.countP_cons]

theorem countP_set_of_same {Item : Type} (test : Item → Bool) {items : List Item} {index : Nat}
    {item other : Item} (found : items[index]? = some item) (same : test other = test item) :
    (items.set index other).countP test = items.countP test := by
  obtain ⟨within, rfl⟩ := List.getElem?_eq_some_iff.mp found
  rw [(List.set_perm_cons_eraseIdx within other).countP_eq,
    ← (List.getElem_cons_eraseIdx_perm within).countP_eq, List.countP_cons, List.countP_cons, same]

theorem lookup_of_erased {codes : Codes} {codeId other : String} {invite : InviteRow}
    (stored : (codes.spend codeId).invites.lookup other = some invite) :
    codes.invites.lookup other = some invite := by
  unfold Codes.spend at stored
  dsimp only at stored
  rw [Map.lookup_erase_ite] at stored
  split at stored
  · cases stored
  · exact stored

namespace Turn

variable {input : Input} {before after : Enrollments}

theorem flying_set {index : Nat} {run : InviteRun} (found : before.runs[index]? = some run)
    (runs : after.runs = before.runs.set index { run with asked := true }) (codeId : String) :
    after.flying codeId = before.flying codeId := by
  unfold flying
  rw [runs]
  exact countP_set_of_same _ found rfl

theorem flying_erase {index : Nat} {run : InviteRun} (found : before.runs[index]? = some run)
    (runs : after.runs = before.runs.eraseIdx index) (codeId : String) :
    before.flying codeId = after.flying codeId + if codeId = run.codeId then 1 else 0 := by
  unfold flying
  rw [runs, countP_eraseIdx _ found]
  simp only [decide_eq_true_eq, @eq_comm _ codeId]

theorem counted_of_same (counted : before.Counted) (codes : after.codes.runs = before.codes.runs)
    (flying : ∀ codeId, after.flying codeId = before.flying codeId) : after.Counted := by
  intro codeId
  rw [codes, flying]
  exact counted codeId

theorem counted_leave {index : Nat} {run : InviteRun} (counted : before.Counted)
    (found : before.runs[index]? = some run)
    (codes : after.codes.runs = (before.codes.leave run.codeId).runs)
    (runs : after.runs = before.runs.eraseIdx index) : after.Counted := by
  intro codeId
  have flies := before.flying_pos found
  have counts := counted run.codeId
  rw [if_neg (Nat.pos_iff_ne_zero.mp flies)] at counts
  have total := flying_erase found runs codeId
  rw [codes]
  unfold Codes.leave Codes.last
  rw [counts, Option.getD_some]
  by_cases same : codeId = run.codeId
  · subst same
    rw [if_pos rfl] at total
    have left : before.flying run.codeId - 1 = after.flying run.codeId := by omega
    rw [left]
    by_cases alone : after.flying run.codeId = 0
    · rw [decide_eq_true alone, if_pos alone]
      exact Finmap.lookup_erase _ _
    · rw [decide_eq_false alone, if_neg alone]
      exact Finmap.lookup_insert _
  · rw [if_neg same] at total
    rw [← Nat.add_zero (after.flying codeId), ← total, ← counted codeId]
    dsimp only
    split
    · exact Finmap.lookup_erase_ne same
    · exact Finmap.lookup_insert_of_ne _ same

theorem counted (turn : Turn input before after) (counted : before.Counted) : after.Counted := by
  have same : after.runs = before.runs → ∀ codeId, after.flying codeId = before.flying codeId := by
    intro runs codeId
    unfold flying
    rw [runs]
  cases turn with
  | idle codes runs events => exact counted_of_same counted (congrArg Codes.runs codes) (same runs)
  | changed action asks goes codes runs events =>
    exact counted_of_same counted (codes.traces goes).1 (same runs)
  | restarted codes runs events =>
    intro codeId
    unfold flying
    rw [codes, runs]
    rfl
  | claimed run stored tried idle codes runs events =>
    intro codeId
    have counts := counted codeId
    have total : after.flying codeId =
        before.flying codeId + if codeId = run.codeId then 1 else 0 := by
      unfold flying
      rw [runs, List.countP_append, List.countP_singleton]
      simp only [decide_eq_true_eq, @eq_comm _ codeId]
    rw [codes, total]
    unfold Codes.claim
    dsimp only
    rw [Map.lookup_insert_ite]
    by_cases same : codeId = run.codeId
    · subst same
      rw [if_pos rfl, if_pos rfl, counts, if_neg (Nat.succ_ne_zero _)]
      split
      · rename_i none
        rw [none]
        rfl
      · rfl
    · rw [if_neg same, if_neg same]
      exact counts
  | asked index run found codes runs events =>
    exact counted_of_same counted (congrArg Codes.runs codes) (flying_set found runs)
  | enrolled index run invite asks found idle stored codes runs events =>
    have spent : after.codes.runs = before.codes.runs := by rw [codes, Codes.spend]
    exact counted_of_same counted spent (flying_set found runs)
  | left index run found kept codes runs events =>
    exact counted_leave counted found (congrArg Codes.runs codes) runs
  | burned index run invite found last stored spent codes runs events =>
    have left : after.codes.runs = (before.codes.leave run.codeId).runs := by
      rw [codes, Codes.spend]
    exact counted_leave counted found left runs

end Turn

/-! ### Spending the invite that was claimed -/

/-- The invite stored under the code id of a run that may still enroll is the one it claimed. -/
def HoldsClaimed (enrollments : Enrollments) : Prop :=
  ∀ run ∈ enrollments.runs, run.asked = false → ∀ invite,
    enrollments.codes.invites.lookup run.codeId = some invite →
      invite.untried = run.invite.untried

/-- Every enrollment so far consumed the invite whose try its run had claimed. -/
def SpendsClaimed (enrollments : Enrollments) : Prop :=
  ∀ codeId claimed spent, .enrolled codeId claimed spent ∈ enrollments.events →
    ∃ invite, spent = some invite ∧ invite.untried = claimed.untried

/-- The step mints an invite under the code id of a run in flight that claimed another one. -/
def MintsUnderRun (enrollments : Enrollments) (input : Input) : Prop :=
  ∃ run ∈ enrollments.runs, run.asked = false ∧ ∃ minted,
    (step primitives enrollments input).codes.minted = enrollments.codes.minted ++ [minted] ∧
      minted.codeId = run.codeId ∧ minted ≠ run.invite.untried

namespace Turn

variable {input : Input} {before after : Enrollments}

theorem mem_set_asked {index : Nat} {run other : InviteRun}
    (runs : after.runs = before.runs.set index { run with asked := true })
    (member : other ∈ after.runs) (idle : other.asked = false) : other ∈ before.runs := by
  rw [runs] at member
  obtain member | same := List.mem_or_eq_of_mem_set member
  · exact member
  · rw [same] at idle
    cases idle

theorem holdsClaimed (turn : Turn input before after) (holds : before.HoldsClaimed)
    (fresh : ∀ run ∈ before.runs, run.asked = false → ∀ minted,
      after.codes.minted = before.codes.minted ++ [minted] → minted.codeId = run.codeId →
        minted = run.invite.untried) : after.HoldsClaimed := by
  cases turn with
  | idle codes runs events =>
    unfold HoldsClaimed
    rw [codes, runs]
    exact holds
  | changed action asks goes codes runs events =>
    intro run member idle invite stored
    rw [runs] at member
    obtain ⟨_, ⟨_, kept⟩ | ⟨minted, untried, same, kept⟩⟩ := codes.traces goes
    · exact holds run member idle invite (kept _ _ stored)
    · have stored := kept _ _ stored
      split at stored
      · rename_i code
        rw [stored, ← fresh run member idle minted same code.symm]
        unfold InviteRow.untried
        rw [← untried]
      · exact holds run member idle invite stored
  | restarted codes runs events =>
    intro run member
    rw [runs] at member
    cases member
  | claimed claimer stored tried idle codes runs events =>
    intro run member asks invite stored'
    rw [codes] at stored'
    unfold Codes.claim at stored'
    dsimp only at stored'
    have held : ∃ earlier, before.codes.invites.lookup run.codeId = some earlier ∧
        earlier.untried = invite.untried := by
      rw [Map.lookup_modify] at stored'
      split at stored'
      · obtain ⟨earlier, found, rfl⟩ := Option.map_eq_some_iff.mp stored'
        exact ⟨earlier, found, rfl⟩
      · exact ⟨invite, stored', rfl⟩
    obtain ⟨earlier, found, same⟩ := held
    rw [runs, List.mem_append, List.mem_singleton] at member
    obtain member | rfl := member
    · exact same ▸ holds run member asks earlier found
    · rw [stored] at found
      cases found
      exact same.symm
  | asked index claimer found codes runs events =>
    intro run member idle
    rw [codes]
    exact holds run (mem_set_asked runs member idle) idle
  | enrolled index claimer invite asks found idle' stored codes runs events =>
    intro run member idle other stored'
    rw [codes] at stored'
    exact holds run (mem_set_asked runs member idle) idle other (lookup_of_erased stored')
  | left index claimer found kept codes runs events =>
    intro run member idle
    rw [runs] at member
    rw [codes]
    exact holds run (List.mem_of_mem_eraseIdx member) idle
  | burned index claimer invite found last stored spent codes runs events =>
    intro run member idle other stored'
    rw [runs] at member
    rw [codes] at stored'
    exact holds run (List.mem_of_mem_eraseIdx member) idle other (lookup_of_erased stored')

theorem spendsClaimed (turn : Turn input before after) (holds : before.HoldsClaimed)
    (spends : before.SpendsClaimed) : after.SpendsClaimed := by
  have kept : after.events = before.events → after.SpendsClaimed := by
    intro events
    unfold SpendsClaimed
    rw [events]
    exact spends
  cases turn with
  | idle codes runs events => exact kept events
  | changed action asks goes codes runs events => exact kept events
  | restarted codes runs events => exact kept events
  | claimed run stored tried idle codes runs events =>
    intro codeId claimed spent member
    rw [events, List.mem_append, List.mem_singleton] at member
    obtain member | same := member
    · exact spends codeId claimed spent member
    · cases same
  | asked index run found codes runs events => exact kept events
  | enrolled index run invite asks found idle stored codes runs events =>
    intro codeId claimed spent member
    rw [events, List.mem_append, List.mem_singleton] at member
    obtain member | same := member
    · exact spends codeId claimed spent member
    · cases same
      exact ⟨invite, rfl, holds run (List.mem_of_getElem? found) idle invite stored⟩
  | left index run found kept' codes runs events => exact kept events
  | burned index run invite found last stored spent codes runs events => exact kept events

end Turn

theorem fresh_counted (fingerprint : Fingerprint) (clock : Clock) :
    (fresh fingerprint clock).Counted := fun _ => rfl

/-- As long as no invite is minted under the code id of a run in flight that claimed another,
every enrollment consumes the invite whose try its run claimed: the same code, secret, minter
and expiry. -/
theorem run_spendsClaimed (fingerprint : Fingerprint) (clock : Clock) (inputs : List Input)
    (apart : Along (step primitives)
      (fun enrollments input => ¬ enrollments.MintsUnderRun primitives input)
      (fresh fingerprint clock) inputs) :
    (run (step primitives) (fresh fingerprint clock) inputs).SpendsClaimed := by
  refine (apart.invariant (fun enrollments => enrollments.Counted ∧ enrollments.HoldsClaimed ∧
    enrollments.SpendsClaimed) ?_ ?_).2.2
  · refine ⟨fresh_counted fingerprint clock, fun run member => ?_, fun _ _ _ member => ?_⟩
    · cases member
    · cases member
  · rintro enrollments input ⟨counted, holds, spends⟩ apart
    have turn := enrollments.turn primitives input counted
    refine ⟨turn.counted counted, turn.holdsClaimed holds ?_, turn.spendsClaimed holds spends⟩
    intro run member idle minted same code
    by_contra other
    exact apart ⟨run, member, idle, minted, same, code, other⟩

/-- Something asked of the server in its first second, whose calls of the database succeed. -/
def asked (ask : Ask) : Input where
  ask := ask
  clock := ⟨fromSecs 1, 1⟩

/-- An admin invite is minted and a run enrolls by it. -/
def adminEnrolls : List Input :=
  [asked (.other .adminInvite rfl), asked (.hello "000" 7 "admin"), asked (.enroll 0)]

theorem run_spendsClaimed_adminEnrolls :
    (run (step Server.openPrimitives) (fresh 0 ⟨0, 0⟩) adminEnrolls).SpendsClaimed := by
  refine run_spendsClaimed Server.openPrimitives 0 ⟨0, 0⟩ adminEnrolls
    ⟨?_, ?_, ?_, True.intro⟩
  · rintro ⟨claimer, member, _⟩
    cases member
  · rintro ⟨claimer, member, _⟩
    cases member
  · rintro ⟨claimer, _, _, minted, same, _⟩
    have kept : (step Server.openPrimitives
        (run (step Server.openPrimitives) (fresh 0 ⟨0, 0⟩) (adminEnrolls.take 2))
        (asked (.enroll 0))).codes.minted =
      (run (step Server.openPrimitives) (fresh 0 ⟨0, 0⟩) (adminEnrolls.take 2)).codes.minted := by
      decide +kernel
    exact List.cons_ne_nil _ _ (List.self_eq_append_right.mp (kept.symm.trans same))

/-- Two runs claim tries of one invite. The first enrolls; then an invite with another secret is
minted under the same code id, and the second run, which never saw that secret, enrolls too. -/
def codeReused : List Input :=
  [asked (.other .adminInvite rfl), asked (.hello "000" 7 "one"), asked (.hello "000" 8 "two"),
    asked (.enroll 0), asked (.drop 0),
    { asked (.other .adminInvite rfl) with draws := fun _ index => if index.val = 7 then 1 else 0 },
    asked (.enroll 0)]

theorem run_spendsAnother :
    ¬ (run (step Server.openPrimitives) (fresh 0 ⟨0, 0⟩) codeReused).SpendsClaimed := by
  intro spends
  have last : (run (step Server.openPrimitives) (fresh 0 ⟨0, 0⟩) codeReused).events.getLast? =
      some (.enrolled "000" ⟨"000", "00000", none, 86401, 1⟩
        (some ⟨"000", "00001", none, 86401, 0⟩)) := by decide +kernel
  obtain ⟨invite, same, alike⟩ := spends _ _ _ (List.mem_of_getLast? last)
  cases same
  exact absurd alike (by decide)

/-! ### Tries -/

/-- The invites minted under a code id. -/
def mints (enrollments : Enrollments) (codeId : String) : Nat :=
  enrollments.codes.minted.countP fun invite => invite.codeId = codeId

/-- What a step does to the invite of one code id. -/
inductive Fate (codeId : String) (before after : Enrollments) : Prop where
  | kept
      (stored : ∀ invite, after.codes.invites.lookup codeId = some invite →
        before.codes.invites.lookup codeId = some invite)
      (mints : after.mints codeId = before.mints codeId)
      (tries : after.tries codeId = before.tries codeId)
      (enrolled : after.enrolled codeId = before.enrolled codeId)
  | minted
      (stored : ∀ invite, after.codes.invites.lookup codeId = some invite → invite.failures = 0)
      (mints : after.mints codeId = before.mints codeId + 1)
      (tries : after.tries codeId = before.tries codeId)
      (enrolled : after.enrolled codeId = before.enrolled codeId)
  | claimed (invite : InviteRow) (tried : invite.failures < inviteTries)
      (found : before.codes.invites.lookup codeId = some invite)
      (stored : after.codes.invites.lookup codeId =
        some { invite with failures := invite.failures + 1 })
      (mints : after.mints codeId = before.mints codeId)
      (tries : after.tries codeId = before.tries codeId + 1)
      (enrolled : after.enrolled codeId = before.enrolled codeId)
  | enrolled (invite : InviteRow) (found : before.codes.invites.lookup codeId = some invite)
      (spent : after.codes.invites.lookup codeId = none)
      (mints : after.mints codeId = before.mints codeId)
      (tries : after.tries codeId = before.tries codeId)
      (enrolled : after.enrolled codeId = before.enrolled codeId + 1)

namespace Turn

variable {input : Input} {before after : Enrollments}

theorem counts_of_same (events : after.events = before.events) (codeId : String) :
    after.tries codeId = before.tries codeId ∧ after.enrolled codeId = before.enrolled codeId := by
  unfold Enrollments.tries Enrollments.enrolled
  rw [events]
  exact ⟨rfl, rfl⟩

theorem mints_of_same (minted : after.codes.minted = before.codes.minted) (codeId : String) :
    after.mints codeId = before.mints codeId := by
  unfold Enrollments.mints
  rw [minted]

theorem fate (turn : Turn input before after) (codeId : String) : Fate codeId before after := by
  cases turn with
  | idle codes runs events =>
    obtain ⟨tries, enrolled⟩ := counts_of_same events codeId
    refine .kept (fun invite => ?_) (mints_of_same (congrArg Codes.minted codes) codeId) tries
      enrolled
    rw [codes]
    exact id
  | changed action asks goes codes runs events =>
    obtain ⟨tries, enrolled⟩ := counts_of_same events codeId
    obtain ⟨_, ⟨minted, kept⟩ | ⟨fresh, untried, minted, kept⟩⟩ := codes.traces goes
    · exact .kept (kept codeId) (mints_of_same minted codeId) tries enrolled
    · have total : after.mints codeId =
          before.mints codeId + if fresh.codeId = codeId then 1 else 0 := by
        unfold Enrollments.mints
        rw [minted, List.countP_append, List.countP_singleton]
        simp only [decide_eq_true_eq]
      by_cases same : codeId = fresh.codeId
      · rw [if_pos same.symm] at total
        refine .minted (fun invite stored => ?_) total tries enrolled
        have stored := kept codeId invite stored
        rw [if_pos same] at stored
        rw [stored, untried]
      · rw [if_neg (Ne.symm same)] at total
        refine .kept (fun invite stored => ?_) total tries enrolled
        have stored := kept codeId invite stored
        rw [if_neg same] at stored
        exact stored
  | restarted codes runs events =>
    obtain ⟨tries, enrolled⟩ := counts_of_same events codeId
    have minted : after.codes.minted = before.codes.minted := by rw [codes, Codes.restart]
    refine .kept (fun invite stored => ?_) (mints_of_same minted codeId) tries enrolled
    rw [codes] at stored
    unfold Codes.restart at stored
    rw [Map.lookup_retain] at stored
    exact (Option.filter_eq_some_iff.mp stored).1
  | claimed run stored tried idle codes runs events =>
    have minted : after.mints codeId = before.mints codeId := by
      rw [Enrollments.mints, codes]
      rfl
    have enrolled : after.enrolled codeId = before.enrolled codeId := by
      rw [Enrollments.enrolled, events, List.countP_append]
      rfl
    have tries : after.tries codeId =
        before.tries codeId + if run.codeId = codeId then 1 else 0 := by
      rw [Enrollments.tries, events, List.countP_append, List.countP_singleton]
      simp only [RunEvent.isClaim, decide_eq_true_eq]
      rfl
    by_cases same : run.codeId = codeId
    · subst same
      rw [if_pos rfl] at tries
      refine .claimed run.invite tried stored ?_ minted tries enrolled
      rw [codes]
      unfold Codes.claim
      rw [Map.lookup_modify_self, stored]
      rfl
    · rw [if_neg same] at tries
      refine .kept (fun invite => ?_) minted tries enrolled
      rw [codes]
      unfold Codes.claim
      rw [Map.lookup_modify_of_ne _ _ (Ne.symm same)]
      exact id
  | asked index run found codes runs events =>
    obtain ⟨tries, enrolled⟩ := counts_of_same events codeId
    refine .kept (fun invite => ?_) (mints_of_same (congrArg Codes.minted codes) codeId) tries
      enrolled
    rw [codes]
    exact id
  | enrolled index run invite asks found idle stored codes runs events =>
    have minted : after.mints codeId = before.mints codeId := by
      rw [Enrollments.mints, codes]
      rfl
    have tries : after.tries codeId = before.tries codeId := by
      rw [Enrollments.tries, events, List.countP_append]
      rfl
    have enrolled : after.enrolled codeId =
        before.enrolled codeId + if run.codeId = codeId then 1 else 0 := by
      rw [Enrollments.enrolled, events, List.countP_append, List.countP_singleton]
      simp only [RunEvent.isEnrollment, decide_eq_true_eq]
      rfl
    by_cases same : run.codeId = codeId
    · subst same
      rw [if_pos rfl] at enrolled
      refine .enrolled invite stored ?_ minted tries enrolled
      rw [codes]
      exact Finmap.lookup_erase _ _
    · rw [if_neg same] at enrolled
      refine .kept (fun invite stored => ?_) minted tries enrolled
      rw [codes] at stored
      exact lookup_of_erased stored
  | left index run found kept codes runs events =>
    obtain ⟨tries, enrolled⟩ := counts_of_same events codeId
    refine .kept (fun invite => ?_) ?_ tries enrolled
    · rw [codes]
      exact id
    · rw [Enrollments.mints, codes]
      rfl
  | burned index run invite found last stored spent codes runs events =>
    obtain ⟨tries, enrolled⟩ := counts_of_same events codeId
    refine .kept (fun other stored => ?_) ?_ tries enrolled
    · rw [codes] at stored
      exact lookup_of_erased stored
    · rw [Enrollments.mints, codes]
      rfl

end Turn

/-- What holds of the one invite minted under a code id, and of a code id never minted. -/
structure Tried (codeId : String) (enrollments : Enrollments) : Prop where
  unminted : enrollments.mints codeId = 0 →
    enrollments.codes.invites.lookup codeId = none ∧ enrollments.tries codeId = 0 ∧
      enrollments.enrolled codeId = 0
  stored : enrollments.mints codeId ≤ 1 → ∀ invite,
    enrollments.codes.invites.lookup codeId = some invite →
      enrollments.tries codeId = invite.failures ∧ enrollments.enrolled codeId = 0
  tries : enrollments.mints codeId ≤ 1 → enrollments.tries codeId ≤ inviteTries
  once : enrollments.mints codeId ≤ 1 → enrollments.enrolled codeId ≤ 1

theorem Tried.step {codeId : String} {before after : Enrollments} (tried : before.Tried codeId)
    (fate : Fate codeId before after) : after.Tried codeId := by
  cases fate with
  | kept stored mints tries enrolled =>
    constructor
    · rw [mints, tries, enrolled]
      intro never
      obtain ⟨missing, counts⟩ := tried.unminted never
      refine ⟨Option.eq_none_iff_forall_ne_some.mpr fun invite found => ?_, counts⟩
      rw [stored invite found] at missing
      cases missing
    · rw [mints, tries, enrolled]
      exact fun single invite found => tried.stored single invite (stored invite found)
    · rw [mints, tries]
      exact tried.tries
    · rw [mints, enrolled]
      exact tried.once
  | minted untried mints tries enrolled =>
    -- The only invite of this code id is the one just minted.
    have first : after.mints codeId ≤ 1 →
        before.tries codeId = 0 ∧ before.enrolled codeId = 0 := by
      intro single
      rw [mints] at single
      exact (tried.unminted (Nat.le_zero.mp (Nat.le_of_succ_le_succ single))).2
    constructor
    · intro never
      rw [mints] at never
      cases never
    · rw [tries, enrolled]
      intro single invite found
      rw [untried invite found]
      exact first single
    · rw [tries]
      intro single
      rw [(first single).1]
      exact Nat.zero_le _
    · rw [enrolled]
      intro single
      rw [(first single).2]
      exact Nat.zero_le _
  | claimed invite left found stored mints tries enrolled =>
    have counted := fun single => tried.stored single invite found
    constructor
    · rw [mints]
      intro never
      rw [(tried.unminted never).1] at found
      cases found
    · rw [mints, tries, enrolled, stored]
      intro single other same
      cases same
      exact ⟨congrArg Nat.succ (counted single).1, (counted single).2⟩
    · rw [mints, tries]
      intro single
      rw [(counted single).1]
      exact left
    · rw [mints, enrolled]
      exact tried.once
  | enrolled invite found spent mints tries enrolled =>
    constructor
    · rw [mints]
      intro never
      rw [(tried.unminted never).1] at found
      cases found
    · rw [spent]
      intro _ other same
      cases same
    · rw [mints, tries]
      exact tried.tries
    · rw [mints, enrolled]
      intro single
      rw [(tried.stored single invite found).2]

/-- On an invite without tries left a run is in flight. -/
def LastTryFlies (enrollments : Enrollments) : Prop :=
  ∀ codeId invite, enrollments.codes.invites.lookup codeId = some invite →
    inviteTries ≤ invite.failures → 0 < enrollments.flying codeId

/-- Why a step deletes an invite. -/
inductive Deletes (input : Input) (before after : Enrollments) (codeId : String)
    (invite : InviteRow) : Prop where
  | used (enrolled : after.enrolled codeId = before.enrolled codeId + 1)
  | expired (action : Action) (plain : action.plain = true) (asks : input.ask = .other action plain)
      (mints : (input.on action).mints) (ended : invite.expiresAt ≤ input.clock.unixNow)
  | minterRemoved (action : Action) (plain : action.plain = true)
      (asks : input.ask = .other action plain) (minter : UserId)
      (minted : invite.mintedBy = some minter) (gone : minter ∉ after.server.hub.db.users)
  /-- It has no tries left and no run on it is in flight any more. -/
  | burned (spent : inviteTries ≤ invite.failures) (landed : after.flying codeId = 0)

namespace Turn

variable {input : Input} {before after : Enrollments}

/-- The last run of an invite that ends leaves none in flight. -/
theorem flying_of_last (counted : before.Counted) {index : Nat} {run : InviteRun}
    (found : before.runs[index]? = some run) (runs : after.runs = before.runs.eraseIdx index) :
    before.codes.last run.codeId = true ↔ after.flying run.codeId = 0 := by
  have total := flying_erase found runs run.codeId
  have counts := counted run.codeId
  rw [if_neg (Nat.pos_iff_ne_zero.mp (before.flying_pos found))] at counts
  rw [if_pos rfl] at total
  unfold Codes.last
  rw [counts, Option.getD_some, decide_eq_true_iff, total, Nat.add_sub_cancel]

theorem lastTryFlies (turn : Turn input before after) (counted : before.Counted)
    (flies : before.LastTryFlies) (succeeding : true ∉ input.faults) : after.LastTryFlies := by
  intro codeId invite stored spent
  cases turn with
  | idle codes runs events =>
    rw [codes] at stored
    have before' := flies codeId invite stored spent
    unfold flying at before' ⊢
    rw [runs]
    exact before'
  | changed action asks goes codes runs events =>
    have there : before.codes.invites.lookup codeId = some invite := by
      obtain ⟨_, ⟨_, kept⟩ | ⟨fresh, untried, _, kept⟩⟩ := codes.traces goes
      · exact kept codeId invite stored
      · have stored := kept codeId invite stored
        split at stored
        · rw [stored, untried] at spent
          exact absurd spent (by decide)
        · exact stored
    have before' := flies codeId invite there spent
    unfold flying at before' ⊢
    rw [runs]
    exact before'
  | restarted codes runs events =>
    rw [codes] at stored
    unfold Codes.restart at stored
    rw [Map.lookup_retain] at stored
    have left := of_decide_eq_true (Option.filter_eq_some_iff.mp stored).2
    exact absurd spent (Nat.not_le.mpr left)
  | claimed run stored' tried idle codes runs events =>
    unfold flying
    rw [runs, List.countP_append]
    by_cases same : run.codeId = codeId
    · rw [List.countP_singleton, if_pos (decide_eq_true same)]
      exact Nat.succ_pos _
    · rw [codes] at stored
      unfold Codes.claim at stored
      rw [Map.lookup_modify_of_ne _ _ (Ne.symm same)] at stored
      exact Nat.add_pos_left (flies codeId invite stored spent) _
  | asked index run found codes runs events =>
    rw [codes] at stored
    rw [flying_set found runs]
    exact flies codeId invite stored spent
  | enrolled index run other asks found idle stored' codes runs events =>
    rw [codes] at stored
    rw [flying_set found runs]
    exact flies codeId invite (lookup_of_erased stored) spent
  | left index run found kept codes runs events =>
    rw [codes] at stored
    have total := flying_erase found runs codeId
    by_cases same : codeId = run.codeId
    · subst same
      have alone : ¬ before.codes.last run.codeId = true := fun last =>
        succeeding (kept last invite stored spent)
      rw [flying_of_last counted found runs] at alone
      exact Nat.pos_of_ne_zero alone
    · rw [if_neg same, Nat.add_zero] at total
      rw [← total]
      exact flies codeId invite stored spent
  | burned index run other found last stored' spent' codes runs events =>
    rw [codes] at stored
    have total := flying_erase found runs codeId
    by_cases same : codeId = run.codeId
    · subst same
      unfold Codes.spend at stored
      rw [Finmap.lookup_erase] at stored
      cases stored
    · rw [if_neg same, Nat.add_zero] at total
      rw [← total]
      exact flies codeId invite (lookup_of_erased stored) spent

theorem deletes (turn : Turn input before after) (counted : before.Counted) {codeId : String}
    {invite : InviteRow} (stored : before.codes.invites.lookup codeId = some invite)
    (gone : after.codes.invites.lookup codeId = none) :
    Deletes input before after codeId invite := by
  cases turn with
  | idle codes runs events =>
    rw [codes, stored] at gone
    cases gone
  | changed action asks goes codes runs events =>
    obtain ⟨plain, asks⟩ := asks
    obtain ⟨mints, ended⟩ | ⟨minter, minted, removed⟩ := codes.deletes goes stored gone
    · exact .expired action plain asks mints ended
    · exact .minterRemoved action plain asks minter minted removed
  | restarted codes runs events =>
    rw [codes] at gone
    unfold Codes.restart at gone
    rw [Map.lookup_retain, stored] at gone
    have spent := Option.filter_eq_none_iff.mp gone invite rfl
    refine .burned (Nat.le_of_not_lt fun left => spent (decide_eq_true left)) ?_
    unfold flying
    rw [runs]
    rfl
  | claimed run stored' tried idle codes runs events =>
    rw [codes] at gone
    unfold Codes.claim at gone
    rw [Map.lookup_modify] at gone
    split at gone
    · rw [stored] at gone
      cases gone
    · rw [stored] at gone
      cases gone
  | asked index run found codes runs events =>
    rw [codes, stored] at gone
    cases gone
  | enrolled index run other asks found idle stored' codes runs events =>
    have same : run.codeId = codeId := by
      by_contra different
      rw [codes] at gone
      unfold Codes.spend at gone
      rw [Finmap.lookup_erase_ne (Ne.symm different), stored] at gone
      cases gone
    refine .used ?_
    rw [Enrollments.enrolled, events, List.countP_append, List.countP_singleton,
      RunEvent.isEnrollment, if_pos (decide_eq_true same)]
    rfl
  | left index run found kept codes runs events =>
    rw [codes] at gone
    have gone : before.codes.invites.lookup codeId = none := gone
    rw [stored] at gone
    cases gone
  | burned index run other found last stored' spent codes runs events =>
    have same : run.codeId = codeId := by
      by_contra different
      rw [codes] at gone
      unfold Codes.spend at gone
      rw [Finmap.lookup_erase_ne (Ne.symm different)] at gone
      have gone : before.codes.invites.lookup codeId = none := gone
      rw [stored] at gone
      cases gone
    subst same
    rw [stored] at stored'
    cases stored'
    exact .burned spent ((flying_of_last counted found runs).mp last)

end Turn

theorem run_counted (fingerprint : Fingerprint) (clock : Clock) (inputs : List Input) :
    (run (step primitives) (fresh fingerprint clock) inputs).Counted :=
  run_invariant (step primitives) Counted (fresh_counted fingerprint clock)
    (fun enrollments input counted => (enrollments.turn primitives input counted).counted counted)
    inputs

theorem run_tried (fingerprint : Fingerprint) (clock : Clock) (inputs : List Input)
    (codeId : String) : (run (step primitives) (fresh fingerprint clock) inputs).Tried codeId := by
  refine (run_invariant (step primitives)
    (fun enrollments => enrollments.Counted ∧ enrollments.Tried codeId) ?_ ?_ inputs).2
  · refine ⟨fresh_counted fingerprint clock, fun _ => ⟨rfl, rfl, rfl⟩, fun _ invite stored => ?_,
      fun _ => Nat.zero_le _, fun _ => Nat.zero_le _⟩
    cases stored
  · rintro enrollments input ⟨counted, tried⟩
    have turn := enrollments.turn primitives input counted
    exact ⟨turn.counted counted, tried.step (turn.fate codeId)⟩

theorem run_lastTryFlies (fingerprint : Fingerprint) (clock : Clock) (inputs : List Input)
    (succeeding : ∀ input ∈ inputs, true ∉ input.faults) :
    (run (step primitives) (fresh fingerprint clock) inputs).LastTryFlies := by
  have along : Along (step primitives) (fun _ input => true ∉ input.faults)
      (fresh fingerprint clock) inputs := .of_forall succeeding
  refine (along.invariant (fun enrollments => enrollments.Counted ∧ enrollments.LastTryFlies)
    ⟨fresh_counted fingerprint clock, ?_⟩ ?_).2
  · intro codeId invite stored
    cases stored
  · rintro enrollments input ⟨counted, flies⟩ succeeding
    have turn := enrollments.turn primitives input counted
    exact ⟨turn.counted counted, turn.lastTryFlies counted flies succeeding⟩

/-- Every minted invite is tried by at most three runs and enrolls at most one user. One without
tries left is stored only while a run is in flight on it, and a step deletes an invite for lack
of tries only if no run on it is in flight any more. -/
theorem run_inviteTries (fingerprint : Fingerprint) (clock : Clock) (inputs : List Input)
    (succeeding : ∀ input ∈ inputs, true ∉ input.faults)
    (distinct : ((run (step primitives) (fresh fingerprint clock) inputs).codes.minted.map
      InviteRow.codeId).Nodup) :
    let enrollments := run (step primitives) (fresh fingerprint clock) inputs
    (∀ invite ∈ enrollments.codes.minted,
        enrollments.tries invite.codeId ≤ inviteTries ∧
          enrollments.enrolled invite.codeId ≤ 1) ∧
      enrollments.LastTryFlies ∧
      ∀ input codeId invite, enrollments.codes.invites.lookup codeId = some invite →
        (step primitives enrollments input).codes.invites.lookup codeId = none →
          Deletes input enrollments (step primitives enrollments input) codeId invite := by
  dsimp only
  have counted := run_counted primitives fingerprint clock inputs
  refine ⟨fun invite _ => ?_, run_lastTryFlies primitives fingerprint clock inputs succeeding, ?_⟩
  · have tried := run_tried primitives fingerprint clock inputs invite.codeId
    have single : (run (step primitives) (fresh fingerprint clock) inputs).mints invite.codeId ≤ 1 := by
      have count := List.nodup_iff_count_le_one.mp distinct invite.codeId
      rw [List.count, List.countP_map] at count
      refine le_trans (List.countP_mono_left fun other _ same => ?_) count
      exact beq_iff_eq.mpr (of_decide_eq_true same)
    exact ⟨tried.tries single, tried.once single⟩
  · intro input codeId invite stored gone
    exact (turn primitives _ input counted).deletes counted stored gone

theorem run_inviteTries_adminEnrolls :
    let enrollments := run (step Server.openPrimitives) (fresh 0 ⟨0, 0⟩) adminEnrolls
    ∀ invite ∈ enrollments.codes.minted,
      enrollments.tries invite.codeId ≤ inviteTries ∧ enrollments.enrolled invite.codeId ≤ 1 :=
  (run_inviteTries Server.openPrimitives 0 ⟨0, 0⟩ adminEnrolls (by decide) (by decide +kernel)).1

end Enrollments

end Throcc
