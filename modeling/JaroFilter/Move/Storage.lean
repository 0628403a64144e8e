import JaroFilter.Lib.Program
import JaroFilter.Move.Names

/-!
# One move (`jf_storage_move`)

The calls of a move in their order, each of which may fail for any reason, be it
an error or what another client did meanwhile. The names the move makes, takes
and removes are kept beside the answers.
-/

namespace JaroFilter

open Lib

/-! ### Calls -/

/-- A call that changes no name of a message, by the line that makes it. -/
inductive MoveCheck where
  | lockCurrent | sourceCurrent | destination | destinationAllowed | statParent | statCur | otherThanCur
  | statNew | otherThanNew | running | allocate | statFile | duplicate | close | copied | destinationCurrent
  | statStage | sync | statOwned | openOwned | errnoExists | statPublished | digest | statClaimed
  | statSource | sameOwned | removeDirectory | makeDirectory | renameUnsupported
  deriving DecidableEq, Repr

/-- The calls of a move. -/
inductive MoveSys where
  | check (c : MoveCheck)
  /-- `openat` of the staged message in its directory. -/
  | createMessage (directory : Bytes)
  | linkMessage (name : Bytes)
  | unlinkMessage
  /-- `renameat` of the source into the claim directory. -/
  | claimSource (directory : Bytes)
  | restoreRename
  | restoreLink
  | unlinkClaimed
  deriving DecidableEq, Repr

/-- What became of the entry at the source name. -/
inductive SourceEntry where
  | untouched
  | claimed
  | restored
  | removed
  deriving DecidableEq, Repr

/-- The answers of one run, and the names of messages that the move answers for. -/
structure MoveDisk where
  answers : ℕ → Bool
  limits : ℕ → NameMax
  copyDetail : Bytes
  asked : ℕ := 0
  /-- The directory that holds the staged message. -/
  staged : Option Bytes := none
  published : List Bytes := []
  /-- The directory that holds the claimed source. -/
  held : Option Bytes := none
  source : SourceEntry := .untouched

def MoveDisk.effect (s : MoveDisk) : MoveSys → MoveDisk
  | .check _ => s
  | .createMessage directory => { s with staged := some directory }
  | .linkMessage name => { s with published := s.published ++ [name] }
  | .unlinkMessage => { s with staged := none }
  | .claimSource directory => { s with held := some directory, source := .claimed }
  | .restoreRename => { s with held := none, source := .restored }
  | .restoreLink => { s with source := .restored }
  | .unlinkClaimed => { s with held := none, source := if s.source = .claimed then .removed else s.source }

/-- A call that fails changes nothing. -/
def moveMachine : Prog.Machine MoveDisk MoveSys where
  exec c s :=
    let t := { s with asked := s.asked + 1 }
    if s.answers s.asked then (true, t.effect c) else (false, t)
  torn _ _ _ := False

abbrev MoveProg := Prog MoveDisk MoveSys

/-! ### Paths -/

/-- The arguments of a move that make names and paths. -/
structure MoveInput where
  nonce : Nonce
  rootPath : Bytes
  relative : Bytes
  name : Bytes
  sourcePath : Bytes

/-- `destination_path`. -/
def destinationPath (input : MoveInput) (sub name : Bytes) : Bytes :=
  input.rootPath ++ [47] ++ input.relative ++ [47] ++ sub ++ [47] ++ name

/-- What stands before the last slash. -/
def parentPath (path : Bytes) : Bytes := (path.rdropWhile (· != 47)).dropLast

/-- `recovery_path`. -/
def recoveryPath (input : MoveInput) (directory : Bytes) : Bytes :=
  parentPath input.sourcePath ++ [47] ++ directory ++ [47] ++ input.name

def stagePathOf (input : MoveInput) (directory : Bytes) : Bytes := destinationPath input (cstr "tmp") directory

/-- The path of the staged message. -/
def messagePath (input : MoveInput) (directory : Bytes) : Bytes := stagePathOf input directory ++ cstr "/message"

/-! ### Locals -/

/-- `struct owned_directory`. -/
structure Owned where
  created : Bool := false
  name : Bytes := []
  deriving DecidableEq, Repr

/-- The locals of `jf_storage_move`. -/
structure Move where
  stage : Owned := {}
  claim : Owned := {}
  file : Bool := false
  copyfd : Bool := false
  stageMessage : Bool := false
  claimedMessage : Bool := false
  published : Bool := false
  rc : ℕ := 7
  detail : Bytes := cstr "E_DESTINATION_IO"
  finalPath : Option Bytes := none
  claimPath : Option Bytes := none
  stagePath : Option Bytes := none
  sequence : ℕ
  deriving DecidableEq, Repr

/-- `struct jf_storage_recovery`. -/
structure Recovery where
  source : Option Bytes := none
  destination : Option Bytes := none
  temporary : Option Bytes := none
  published : Option Bytes := none
  deriving DecidableEq, Repr

structure MoveResult where
  rc : ℕ
  detail : Bytes
  recovery : Recovery
  sequence : ℕ
  deriving DecidableEq, Repr

def Move.detailed (m : Move) (detail : String) : Move := { m with detail := cstr detail }

def ask (c : MoveCheck) : MoveProg Bool := .make (.check c)

/-! ### Owned directories -/

/-- `create_owned`; `n` is what is left of the retries. -/
def createOwned (nonce : Nonce) : ℕ → Bytes → ℕ → MoveProg (Bool × Owned × ℕ)
  | 0, name, sequence => .done (false, ⟨false, name⟩, sequence)
  | n + 1, name, sequence =>
    if sequence = sequenceMax then .done (false, ⟨false, name⟩, sequence)
    else
      let name := ownedName nonce (sequence + 1)
      .bind (ask .makeDirectory) fun made =>
        if made then
          .bind (.both (ask .statOwned) (.both (ask .openOwned) (ask .sameOwned))) fun ok =>
            .done (ok, ⟨true, name⟩, sequence + 1)
        else .bind (ask .errnoExists) fun again =>
          if again then createOwned nonce n name (sequence + 1)
          else .done (false, ⟨false, name⟩, sequence + 1)

/-- `remove_owned`: whether it succeeded, and the directory behind it. -/
def removeOwned (d : Owned) : MoveProg (Bool × Owned) :=
  if d.created = false then .done (true, d)
  else .bind (.both (ask .sameOwned) (ask .removeDirectory)) fun removed =>
    if removed then .bind (ask .sync) fun ok => .done (ok, { d with created := false })
    else .done (false, d)

/-! ### The exit block -/

/-- `restore`. -/
def restore : MoveProg Bool :=
  .bind (.make .restoreRename) fun renamed =>
    if renamed then .done true
    else .bind (ask .renameUnsupported) fun unsupported =>
      if unsupported then .both (.make .restoreLink) (.both (ask .sync) (.make .unlinkClaimed))
      else .done false

/-- A close that fails behind a success (`storage.c:463-464`). -/
def finishClose (isOpen : Bool) (m : Move) : MoveProg Move :=
  if isOpen = false then .done m
  else .bind (ask .close) fun ok =>
    .done (if ok = false ∧ m.rc = 0 then { m with rc := 7 }.detailed "E_DESTINATION_IO" else m)

/-- The claimed source goes back to its name or is reported (`storage.c:465-477`). -/
def finishClaim (m : Move) (r : Recovery) : MoveProg (Move × Recovery) :=
  if m.claimedMessage = false then .done (m, r)
  else .bind restore fun ok =>
    if ok then
      .bind (.both (ask .sync) (ask .sync)) fun synced =>
        let m := { m with claimedMessage := false }
        .done (if synced then m else m.detailed "E_SOURCE_FSYNC", r)
    else
      .bind (ask .sync) fun _ => .bind (ask .sync) fun _ =>
        .done ({ m with claimPath := none }.detailed "E_SOURCE_RECOVERY", { r with source := m.claimPath })

/-- The staged message (`storage.c:478-485`). -/
def finishStage (m : Move) : MoveProg Move :=
  if m.stageMessage = false then .done m
  else .bind (.make .unlinkMessage) fun ok =>
    if ok then .done { m with stageMessage := false }
    else
      .bind (ask .sync) fun _ => .bind (ask .sync) fun _ =>
        .done (if m.detail = [] then m.detailed "E_STAGE_CLEANUP" else m)

def finishStageDirectory (m : Move) : MoveProg Move :=
  if m.stage.created = false ∨ m.stageMessage then .done m
  else .bind (removeOwned m.stage) fun x =>
    let m := { m with stage := x.2 }
    .done (if x.1 = false ∧ m.rc = 0 then { m with rc := 7 }.detailed "E_STAGE_CLEANUP" else m)

def finishClaimDirectory (m : Move) : MoveProg Move :=
  if m.claim.created = false ∨ m.claimedMessage then .done m
  else .bind (removeOwned m.claim) fun x =>
    let m := { m with claim := x.2 }
    .done (if x.1 = false ∧ m.rc = 0 then { m with rc := 7 }.detailed "E_SOURCE_FSYNC" else m)

/-- A path without its last component. -/
def cutPath (path : Bytes) : Bytes := if 47 ∈ path then parentPath path else path

/-- The paths that are handed over (`storage.c:488-497`). -/
def reports (m : Move) (r : Recovery) : Recovery :=
  { source := match m.claimPath with
      | some path => if m.claim.created then some (if m.claimedMessage then path else cutPath path) else r.source
      | none => r.source
    temporary := match m.stagePath with
      | some path => if m.stage.created then some (if m.stageMessage then path else cutPath path) else r.temporary
      | none => r.temporary
    destination := if m.rc = 7 ∧ m.published then m.finalPath else r.destination
    published := if m.rc = 0 ∧ m.published then m.finalPath else r.published }

/-- From `done:` to the end. -/
def finish (m : Move) : MoveProg MoveResult :=
  .bind (finishClose m.file m) fun m => .bind (finishClose m.copyfd m) fun m =>
    .bind (finishClaim m {}) fun x => .bind (finishStage x.1) fun m =>
      .bind (finishStageDirectory m) fun m => .bind (finishClaimDirectory m) fun m =>
        .done ⟨if m.rc = 7 ∧ m.detail = cstr "E_MEMORY" then 3 else m.rc, m.detail, reports m x.2, m.sequence⟩

/-! ### The move -/

/-- `if (call fails) { *detail=...; goto done; }`. -/
def guardWith (p : MoveProg Bool) (m : Move) (detail : String) (k : MoveProg MoveResult) :
    MoveProg MoveResult :=
  .bind p fun ok => if ok then k else finish (m.detailed detail)

/-- `if (call fails) goto done;`. -/
def guardPlain (p : MoveProg Bool) (m : Move) (k : MoveProg MoveResult) : MoveProg MoveResult :=
  .bind p fun ok => if ok then k else finish m

/-- The loop that publishes; `n` is what is left of the retries. -/
def publishLoop (input : MoveInput) : ℕ → ℕ → Move → MoveProg (Bool × Move)
  | 0, _, m => .done (false, m.detailed "E_DESTINATION_COLLISION")
  | n + 1, attempt, m =>
    .bind .state fun s =>
      match publishedName input.nonce m.sequence input.name attempt (s.limits attempt) with
      | none => .done (false, m.detailed
          (if (s.limits attempt).value = none then "E_MEMORY" else "E_DESTINATION_COLLISION"))
      | some candidate =>
        .bind (.both (ask .allocate) (ask .allocate)) fun ok =>
          if ok = false then .done (false, m.detailed "E_MEMORY")
          else .bind (.make (.linkMessage candidate)) fun linked =>
            if linked then
              .done (true, { m with published := true,
                                    finalPath := some (destinationPath input (cstr "cur") candidate) })
            else .bind (ask .errnoExists) fun again =>
              if again then publishLoop input n (attempt + 1) m
              else .done (false, m.detailed "E_DESTINATION_PUBLISH")

/-- The checks before the source leaves its claim (`storage.c:440-457`). -/
def removeSource (m : Move) : MoveProg MoveResult :=
  guardWith (.both (ask .statClaimed) (ask .statSource)) m "E_SOURCE_CHANGED" <|
  guardWith (.both (ask .sync) (ask .sync)) m "E_SOURCE_FSYNC" <|
  guardWith (ask .running) m "E_INTERRUPTED" <|
  guardWith (ask .lockCurrent) m "E_BATCH_LOCK_CHANGED" <|
  guardWith (.both (ask .destinationCurrent) (ask .statPublished)) m "E_DESTINATION_CHANGED" <|
  .bind (ask .digest) fun ok => if ok = false then
    .bind (ask .running) fun running =>
      finish (m.detailed (if running then "E_DESTINATION_CHANGED" else "E_INTERRUPTED"))
  else
  guardWith (.both (ask .statSource) (ask .statClaimed)) m "E_SOURCE_CHANGED" <|
  .bind (ask .digest) fun ok => if ok = false then
    .bind (ask .running) fun running =>
      finish (m.detailed (if running then "E_SOURCE_CHANGED" else "E_INTERRUPTED"))
  else
  guardWith (ask .statSource) m "E_SOURCE_CHANGED" <|
  guardWith (.make .unlinkClaimed) m "E_SOURCE_UNLINK" <|
    let m := { m with claimedMessage := false }
    guardWith (ask .sync) m "E_SOURCE_FSYNC" <|
    .bind (removeOwned m.claim) fun x =>
      let m := { m with claim := x.2 }
      finish (if x.1 then { m with rc := 0 } else m.detailed "E_SOURCE_FSYNC")

/-- From the published copy to the claim (`storage.c:423-439`). -/
def claimSource (input : MoveInput) (m : Move) : MoveProg MoveResult :=
  guardWith (ask .sourceCurrent) m "E_SOURCE_CHANGED" <|
  guardWith (ask .running) m "E_INTERRUPTED" <|
  .bind (createOwned input.nonce moveRetries [] m.sequence) fun x =>
    let m := { m with claim := x.2.1, sequence := x.2.2 }
    if x.1 = false then finish (m.detailed "E_SOURCE_CLAIM")
    else
    guardWith (ask .allocate) m "E_MEMORY" <|
      let m := { m with claimPath := some (recoveryPath input m.claim.name) }
      guardWith (ask .running) m "E_INTERRUPTED" <|
      guardWith (ask .lockCurrent) m "E_BATCH_LOCK_CHANGED" <|
      guardWith (.both (ask .destinationCurrent) (ask .statPublished)) m "E_DESTINATION_CHANGED" <|
      .bind (ask .digest) fun ok => if ok = false then
        .bind (ask .running) fun running =>
          finish (m.detailed (if running then "E_DESTINATION_CHANGED" else "E_INTERRUPTED"))
      else
      guardWith (.make (.claimSource m.claim.name)) m "E_SOURCE_CHANGED" <|
        removeSource { m with claimedMessage := true }

/-- From the staged copy to the published one (`storage.c:398-422`). -/
def publishCopy (input : MoveInput) (m : Move) : MoveProg MoveResult :=
  guardWith (ask .sourceCurrent) m "E_SOURCE_CHANGED" <|
  guardWith (ask .running) m "E_INTERRUPTED" <|
  guardWith (ask .destinationCurrent) m "E_DESTINATION_CHANGED" <|
  guardWith (ask .statStage) m "E_COPY_VERIFY" <|
  .bind (publishLoop input moveRetries 0 m) fun x =>
    let m := x.2
    if x.1 = false then finish m
    else
    guardWith (.both (ask .sync) (ask .sync)) m "E_DESTINATION_FSYNC" <|
    guardWith (.make .unlinkMessage) m "E_STAGE_CLEANUP" <|
      let m := { m with stageMessage := false }
      guardWith (ask .sync) m "E_STAGE_CLEANUP" <|
      .bind (removeOwned m.stage) fun x =>
        let m := { m with stage := x.2 }
        if x.1 = false then finish (m.detailed "E_STAGE_CLEANUP") else claimSource input m

/-- The staged copy (`storage.c:384-397`). -/
def stageCopy (input : MoveInput) (m : Move) : MoveProg MoveResult :=
  .bind (createOwned input.nonce moveRetries [] m.sequence) fun x =>
    let m := { m with stage := x.2.1, sequence := x.2.2 }
    if x.1 = false then finish m
    else
    guardWith (ask .allocate) m "E_MEMORY" <|
      let m := { m with stagePath := some (stagePathOf input m.stage.name) }
      guardWith (ask .allocate) m "E_MEMORY" <|
        let m := { m with stagePath := some (messagePath input m.stage.name) }
        guardPlain (.make (.createMessage m.stage.name)) m <|
          let m := { m with file := true, stageMessage := true }
          .bind (ask .copied) fun ok => if ok = false then
            .bind .state fun s => finish { m with detail := s.copyDetail }
          else
          guardPlain (ask .statFile) m <|
          guardPlain (ask .duplicate) m <|
            let m := { m with copyfd := true, file := false }
            guardWith (ask .close) m "E_DESTINATION_IO" <| publishCopy input m

/-- `jf_storage_move` (`storage.c:358-505`). -/
def storageMove (input : MoveInput) (sequence : ℕ) : MoveProg MoveResult :=
  let m : Move := { sequence }
  guardWith (ask .lockCurrent) m "E_BATCH_LOCK_CHANGED" <|
  guardWith (ask .sourceCurrent) m "E_SOURCE_CHANGED" <|
  guardPlain (ask .destination) m <|
  guardWith (ask .destinationAllowed) m "E_DESTINATION_CHANGED" <|
  guardPlain (.both (ask .statParent) (ask .statCur)) m <|
  guardPlain (ask .otherThanCur) { m with rc := 1 } <|
  guardPlain (ask .statNew) m <|
  guardPlain (ask .otherThanNew) { m with rc := 1 } <|
  guardWith (ask .running) m "E_INTERRUPTED" <| stageCopy input m

/-! ### Runs -/

section Moves

variable {α β : Type}

/-- What the run of a program leaves. -/
def Ends (p : MoveProg α) (s : MoveDisk) (Q : α → MoveDisk → Prop) : Prop :=
  Q (Prog.run moveMachine p s).1 (Prog.run moveMachine p s).2

theorem ends_bind {p : MoveProg α} {f : α → MoveProg β} {s : MoveDisk} {Q : β → MoveDisk → Prop}
    (h : Ends p s fun a t => Ends (f a) t Q) : Ends (.bind p f) s Q := by
  rw [Ends, Prog.run_bind]
  exact h

theorem ends_state {s : MoveDisk} {Q : MoveDisk → MoveDisk → Prop} (h : Q s s) : Ends .state s Q := h

theorem ends_mono {p : MoveProg α} {s : MoveDisk} {P Q : α → MoveDisk → Prop} (h : Ends p s P)
    (hQ : ∀ a t, P a t → Q a t) : Ends p s Q := hQ _ _ h

/-- The names of messages are the same. -/
structure SameNames (s t : MoveDisk) : Prop where
  staged : t.staged = s.staged
  published : t.published = s.published
  held : t.held = s.held
  source : t.source = s.source

theorem SameNames.refl (s : MoveDisk) : SameNames s s := ⟨rfl, rfl, rfl, rfl⟩

theorem SameNames.trans {s t u : MoveDisk} (h : SameNames s t) (h' : SameNames t u) : SameNames s u :=
  ⟨h'.staged.trans h.staged, h'.published.trans h.published, h'.held.trans h.held, h'.source.trans h.source⟩

/-- A call either fails or has its effect. -/
theorem ends_make {c : MoveSys} {s : MoveDisk} {Q : Bool → MoveDisk → Prop}
    (hfail : ∀ t, SameNames s t → Q false t) (hdone : ∀ t, SameNames s t → Q true (t.effect c)) :
    Ends (.make c) s Q := by
  have hsame : SameNames s { s with asked := s.asked + 1 } := ⟨rfl, rfl, rfl, rfl⟩
  show Q (moveMachine.exec c s).1 (moveMachine.exec c s).2
  simp only [moveMachine]
  split
  · exact hdone _ hsame
  · exact hfail _ hsame

/-- A program that changes no name. -/
def Quiets (p : MoveProg α) : Prop := ∀ s, Ends p s fun _ t => SameNames s t

theorem quiets_done (a : α) : Quiets (.done a) := fun s => .refl s

theorem quiets_bind {p : MoveProg α} {f : α → MoveProg β} (hp : Quiets p) (hf : ∀ a, Quiets (f a)) :
    Quiets (.bind p f) := fun s =>
  ends_bind (ends_mono (hp s) fun a t ht => ends_mono (hf a t) fun _ _ hu => ht.trans hu)

theorem quiets_ask (c : MoveCheck) : Quiets (ask c) := fun _ =>
  ends_make (fun _ ht => ht) fun _ ht => ht

theorem quiets_both {p q : MoveProg Bool} (hp : Quiets p) (hq : Quiets q) : Quiets (.both p q) :=
  quiets_bind hp fun ok => by
    cases ok
    · exact quiets_done _
    · exact hq

/-- A directory that was made well is recorded as made. -/
theorem createOwned_ends (nonce : Nonce) (n : ℕ) (name : Bytes) (sequence : ℕ) (s : MoveDisk) :
    Ends (createOwned nonce n name sequence) s fun x t =>
      SameNames s t ∧ (x.1 = true → x.2.1.created = true) := by
  induction n generalizing name sequence s with
  | zero => exact ⟨.refl s, fun hx => (by cases hx)⟩
  | succ n ih =>
    rw [createOwned]
    split
    · exact ⟨.refl s, fun hx => (by cases hx)⟩
    · refine ends_bind (ends_mono (quiets_ask _ s) fun made t ht => ?_)
      cases made
      · refine ends_bind (ends_mono (quiets_ask _ t) fun again u hu => ?_)
        have hu := ht.trans hu
        cases again
        · exact ⟨hu, fun hx => (by cases hx)⟩
        · exact ends_mono (ih _ _ u) fun x v hv => ⟨hu.trans hv.1, hv.2⟩
      · refine ends_bind (ends_mono (quiets_both (quiets_ask _) (quiets_both (quiets_ask _) (quiets_ask _)) t)
          fun ok u hu => ?_)
        exact ⟨ht.trans hu, fun _ => rfl⟩

theorem quiets_removeOwned (d : Owned) : Quiets (removeOwned d) := by
  rw [removeOwned]
  split
  · exact quiets_done _
  · refine quiets_bind (quiets_both (quiets_ask _) (quiets_ask _)) fun removed => ?_
    cases removed
    · exact quiets_done _
    · exact quiets_bind (quiets_ask _) fun _ => quiets_done _

/-! ### What the locals say of the names -/

/-- The locals between two calls. -/
structure MoveOk (input : MoveInput) (m : Move) (s : MoveDisk) : Prop where
  staged : s.staged = if m.stageMessage then some m.stage.name else none
  stagePath : m.stageMessage = true → m.stage.created = true ∧
    m.stagePath = some (messagePath input m.stage.name)
  published : if m.published then
      ∃ c, s.published = [c] ∧ m.finalPath = some (destinationPath input (cstr "cur") c)
    else s.published = []
  held : s.held = if m.claimedMessage then some m.claim.name else none
  claimPath : m.claimedMessage = true → m.claim.created = true ∧
    m.claimPath = some (recoveryPath input m.claim.name)
  source : m.claimedMessage = true ∧ s.source = .claimed ∨
    m.claimedMessage = false ∧ (s.source = .untouched ∨ s.source = .removed ∧ m.published = true)
  rc : m.rc = 0 ∨ m.rc = 1 ∨ m.rc = 7

theorem MoveOk.same {input : MoveInput} {m : Move} {s t : MoveDisk} (h : MoveOk input m s)
    (hs : SameNames s t) : MoveOk input m t := by
  refine ⟨hs.staged.trans h.staged, h.stagePath, ?_, hs.held.trans h.held, h.claimPath, ?_, h.rc⟩
  · rw [hs.published]
    exact h.published
  · rw [hs.source]
    exact h.source

theorem MoveOk.detailed {input : MoveInput} {m : Move} {s : MoveDisk} (h : MoveOk input m s) (detail : String) :
    MoveOk input (m.detailed detail) s :=
  ⟨h.staged, h.stagePath, h.published, h.held, h.claimPath, h.source, h.rc⟩

/-- The locals in the exit block, behind the claim. -/
structure ExitOk (input : MoveInput) (m : Move) (r : Recovery) (s : MoveDisk) : Prop where
  staged : s.staged = if m.stageMessage then some m.stage.name else none
  stagePath : m.stageMessage = true → m.stage.created = true ∧
    m.stagePath = some (messagePath input m.stage.name)
  published : if m.published then
      ∃ c, s.published = [c] ∧ m.finalPath = some (destinationPath input (cstr "cur") c)
    else s.published = []
  held : s.held = if m.claimedMessage then some m.claim.name else none
  reported : m.claimedMessage = true → m.claimPath = none ∧ r.source = some (recoveryPath input m.claim.name)
  source : m.claimedMessage = false → s.source = .untouched ∨ s.source = .restored ∨
    s.source = .removed ∧ m.published = true
  rc : m.rc = 0 ∨ m.rc = 1 ∨ m.rc = 7

theorem ExitOk.same {input : MoveInput} {m : Move} {r : Recovery} {s t : MoveDisk} (h : ExitOk input m r s)
    (hs : SameNames s t) : ExitOk input m r t := by
  refine ⟨hs.staged.trans h.staged, h.stagePath, ?_, hs.held.trans h.held, h.reported, ?_, h.rc⟩
  · rw [hs.published]
    exact h.published
  · rw [hs.source]
    exact h.source

/-- Every file of the move is named, and the source is where it was, back, held
and named, or removed behind a copy that is named. -/
structure Accounted (input : MoveInput) (r : MoveResult) (s : MoveDisk) : Prop where
  staged : ∀ d, s.staged = some d → r.recovery.temporary = some (messagePath input d)
  published : ∀ c ∈ s.published, r.recovery.destination = some (destinationPath input (cstr "cur") c)
  held : ∀ d, s.held = some d → r.recovery.source = some (recoveryPath input d)
  source : s.source = .untouched ∨ s.source = .restored ∨ (∃ d, s.held = some d) ∨
    s.source = .removed ∧ ∃ c, s.published = [c]

def Failed (r : MoveResult) : Prop := r.rc = 3 ∨ r.rc = 7

/-! ### The exit block -/

theorem finishClose_ok {input : MoveInput} {isOpen : Bool} {m : Move} {s : MoveDisk} (h : MoveOk input m s) :
    Ends (finishClose isOpen m) s (MoveOk input) := by
  rw [finishClose]
  split
  · exact h
  · refine ends_bind (ends_mono (quiets_ask _ s) fun ok t ht => ?_)
    have ht := h.same ht
    show MoveOk input (if _ then _ else _) t
    split
    · exact ⟨ht.staged, ht.stagePath, ht.published, ht.held, ht.claimPath, ht.source, .inr (.inr rfl)⟩
    · exact ht

/-- What `restore` leaves of a claimed source. -/
theorem restore_ends (s : MoveDisk) : Ends restore s fun ok t =>
    t.staged = s.staged ∧ t.published = s.published ∧
      if ok then t.held = none ∧ t.source = .restored else t.held = s.held := by
  rw [restore]
  refine ends_bind (ends_make (fun t ht => ?_) fun t ht => ⟨ht.staged, ht.published, rfl, rfl⟩)
  refine ends_bind (ends_mono (quiets_ask _ t) fun unsupported u hu => ?_)
  have hu := ht.trans hu
  cases unsupported
  · exact ⟨hu.staged, hu.published, hu.held⟩
  · refine ends_bind (ends_make (fun v hv => ?_) fun v hv => ?_)
    · have hv := hu.trans hv
      exact ⟨hv.staged, hv.published, hv.held⟩
    · have hv := hu.trans hv
      refine ends_bind (ends_mono (quiets_ask _ _) fun synced w hw => ?_)
      cases synced
      · exact ⟨hw.staged.trans hv.staged, hw.published.trans hv.published, hw.held.trans hv.held⟩
      · refine ends_make (fun x hx => ?_) fun x hx => ?_
        · have hx := hw.trans hx
          exact ⟨hx.staged.trans hv.staged, hx.published.trans hv.published, hx.held.trans hv.held⟩
        · have hx := hw.trans hx
          refine ⟨hx.staged.trans hv.staged, hx.published.trans hv.published, rfl, ?_⟩
          have hrestored : x.source = .restored := hx.source
          show (if x.source = .claimed then _ else x.source) = _
          rw [hrestored]
          rfl

theorem finishClaim_ok {input : MoveInput} {m : Move} {s : MoveDisk} (h : MoveOk input m s) :
    Ends (finishClaim m {}) s fun x t => ExitOk input x.1 x.2 t := by
  rw [finishClaim]
  cases hc : m.claimedMessage with
  | false =>
    rw [if_pos rfl]
    have hsource := h.source
    rw [hc] at hsource
    have hback : ExitOk input m {} s := by
      refine ⟨h.staged, h.stagePath, h.published, h.held, fun hm => ?_, fun _ => ?_, h.rc⟩
      · rw [hc] at hm
        cases hm
      · obtain ⟨hm, -⟩ | ⟨-, hs | hs⟩ := hsource
        · cases hm
        · exact .inl hs
        · exact .inr (.inr hs)
    exact hback
  | true =>
    rw [if_neg (by decide)]
    obtain ⟨hcreated, hpath⟩ := h.claimPath hc
    refine ends_bind (ends_mono (restore_ends s) fun ok t ht => ?_)
    obtain ⟨hstaged, hpublished, hheld⟩ := ht
    cases ok
    · -- The source stays in the claim directory, whose path is handed over.
      refine ends_bind (ends_mono (quiets_ask _ t) fun _ u hu => ?_)
      refine ends_bind (ends_mono (quiets_ask _ u) fun _ v hv => ?_)
      have hv := hu.trans hv
      have hheld' : ExitOk input ({ m with claimPath := none }.detailed "E_SOURCE_RECOVERY")
          { source := m.claimPath } v := by
        refine ⟨hv.staged.trans (hstaged.trans h.staged), h.stagePath, ?_, ?_, fun _ => ⟨rfl, hpath⟩,
          fun hm => ?_, h.rc⟩
        · rw [hv.published, hpublished]
          exact h.published
        · exact hv.held.trans (Eq.trans hheld h.held)
        · have hm : m.claimedMessage = false := hm
          rw [hc] at hm
          cases hm
      simp only [hc] at hheld'
      exact hheld'
    · refine ends_bind (ends_mono (quiets_both (quiets_ask _) (quiets_ask _) t) fun synced u hu => ?_)
      have hback : ExitOk input { m with claimedMessage := false } {} u := by
        refine ⟨hu.staged.trans (hstaged.trans h.staged), h.stagePath, ?_, hu.held.trans hheld.1,
          fun hm => (by cases hm), fun _ => .inr (.inl (hu.source.trans hheld.2)), h.rc⟩
        rw [hu.published, hpublished]
        exact h.published
      cases synced
      · exact ⟨hback.staged, hback.stagePath, hback.published, hback.held, hback.reported, hback.source,
          hback.rc⟩
      · exact hback

theorem finishStage_ok {input : MoveInput} {m : Move} {r : Recovery} {s : MoveDisk}
    (h : ExitOk input m r s) : Ends (finishStage m) s fun m' t => ExitOk input m' r t := by
  rw [finishStage]
  split
  · exact h
  · refine ends_bind (ends_make (fun t ht => ?_) fun t ht => ?_)
    · refine ends_bind (ends_mono (quiets_ask _ t) fun _ u hu => ?_)
      refine ends_bind (ends_mono (quiets_ask _ u) fun _ v hv => ?_)
      have hv := h.same ((ht.trans hu).trans hv)
      show ExitOk input (if _ then _ else _) r v
      split
      · exact ⟨hv.staged, hv.stagePath, hv.published, hv.held, hv.reported, hv.source, hv.rc⟩
      · exact hv
    · have ht := h.same ht
      have hgone : ExitOk input { m with stageMessage := false } r (t.effect .unlinkMessage) :=
        ⟨rfl, fun hm => (by cases hm), ht.published, ht.held, ht.reported, ht.source, ht.rc⟩
      exact hgone

theorem finishStageDirectory_ok {input : MoveInput} {m : Move} {r : Recovery} {s : MoveDisk}
    (h : ExitOk input m r s) : Ends (finishStageDirectory m) s fun m' t => ExitOk input m' r t := by
  rw [finishStageDirectory]
  split
  · exact h
  · rename_i hm
    rw [not_or, Bool.not_eq_true] at hm
    refine ends_bind (ends_mono (quiets_removeOwned _ s) fun x t ht => ?_)
    have ht := h.same ht
    have hnot : m.stageMessage = true → False := fun hs => by
      rw [hm.2] at hs
      cases hs
    have hdirectory : ExitOk input { m with stage := x.2 } r t := by
      refine ⟨?_, fun hs => (hnot hs).elim, ht.published, ht.held, ht.reported, ht.source, ht.rc⟩
      have hstaged := ht.staged
      simp only [hm.2] at hstaged ⊢
      exact hstaged
    show ExitOk input (if _ then _ else _) r t
    split
    · exact ⟨hdirectory.staged, hdirectory.stagePath, hdirectory.published, hdirectory.held,
        hdirectory.reported, hdirectory.source, .inr (.inr rfl)⟩
    · exact hdirectory

theorem finishClaimDirectory_ok {input : MoveInput} {m : Move} {r : Recovery} {s : MoveDisk}
    (h : ExitOk input m r s) : Ends (finishClaimDirectory m) s fun m' t => ExitOk input m' r t := by
  rw [finishClaimDirectory]
  split
  · exact h
  · rename_i hm
    rw [not_or, Bool.not_eq_true] at hm
    refine ends_bind (ends_mono (quiets_removeOwned _ s) fun x t ht => ?_)
    have ht := h.same ht
    have hnot : m.claimedMessage = true → False := fun hs => by
      rw [hm.2] at hs
      cases hs
    have hdirectory : ExitOk input { m with claim := x.2 } r t := by
      refine ⟨ht.staged, ht.stagePath, ht.published, ?_, fun hs => (hnot hs).elim, ht.source, ht.rc⟩
      have hheld := ht.held
      simp only [hm.2] at hheld ⊢
      exact hheld
    show ExitOk input (if _ then _ else _) r t
    split
    · exact ⟨hdirectory.staged, hdirectory.stagePath, hdirectory.published, hdirectory.held,
        hdirectory.reported, hdirectory.source, .inr (.inr rfl)⟩
    · exact hdirectory

/-- What is handed over accounts for every file. -/
theorem ExitOk.accounted {input : MoveInput} {m : Move} {r : Recovery} {s : MoveDisk} (h : ExitOk input m r s)
    (hrc : m.rc = 7) {detail : Bytes} {rc sequence : ℕ} :
    Accounted input ⟨rc, detail, reports m r, sequence⟩ s := by
  refine ⟨fun d hd => ?_, fun c hc => ?_, fun d hd => ?_, ?_⟩
  · rw [h.staged] at hd
    cases hm : m.stageMessage with
    | false =>
      rw [hm] at hd
      cases hd
    | true =>
      rw [hm] at hd
      cases hd
      obtain ⟨hcreated, hpath⟩ := h.stagePath hm
      simp only [reports, hpath, hcreated, hm, if_true]
  · have hpublished := h.published
    cases hm : m.published with
    | false =>
      rw [hm] at hpublished
      have hnil : s.published = [] := hpublished
      rw [hnil] at hc
      cases hc
    | true =>
      rw [hm] at hpublished
      obtain ⟨c', hc', hpath⟩ := hpublished
      rw [hc', List.mem_singleton] at hc
      subst hc
      simp only [reports, hrc, hm, hpath, and_self, if_true]
  · rw [h.held] at hd
    cases hm : m.claimedMessage with
    | false =>
      rw [hm] at hd
      cases hd
    | true =>
      rw [hm] at hd
      cases hd
      obtain ⟨hnone, hsource⟩ := h.reported hm
      simp only [reports, hnone, hsource]
  · cases hm : m.claimedMessage with
    | true =>
      refine .inr (.inr (.inl ⟨m.claim.name, ?_⟩))
      rw [h.held, hm]
      rfl
    | false =>
      obtain hs | hs | ⟨hs, hpub⟩ := h.source hm
      · exact .inl hs
      · exact .inr (.inl hs)
      · have hpublished := h.published
        rw [hpub] at hpublished
        obtain ⟨c, hc, -⟩ := hpublished
        exact .inr (.inr (.inr ⟨hs, c, hc⟩))

/-- A failed move has accounted for its files. -/
def MoveSettled (input : MoveInput) (r : MoveResult) (s : MoveDisk) : Prop := Failed r → Accounted input r s

theorem finish_ok {input : MoveInput} {m : Move} {s : MoveDisk} (h : MoveOk input m s) :
    Ends (finish m) s (MoveSettled input) := by
  refine ends_bind (ends_mono (finishClose_ok h) fun m s h => ?_)
  refine ends_bind (ends_mono (finishClose_ok h) fun m s h => ?_)
  refine ends_bind (ends_mono (finishClaim_ok h) fun x s h => ?_)
  refine ends_bind (ends_mono (finishStage_ok h) fun m s h => ?_)
  refine ends_bind (ends_mono (finishStageDirectory_ok h) fun m s h => ?_)
  refine ends_bind (ends_mono (finishClaimDirectory_ok h) fun m s h => ?_)
  intro hfailed
  have hfailed : (if m.rc = 7 ∧ m.detail = cstr "E_MEMORY" then 3 else m.rc) = 3 ∨
      (if m.rc = 7 ∧ m.detail = cstr "E_MEMORY" then 3 else m.rc) = 7 := hfailed
  have hseven : m.rc = 7 := by
    obtain hrc | hrc | hrc := h.rc
    · simp [hrc] at hfailed
    · simp [hrc] at hfailed
    · exact hrc
  exact h.accounted hseven

/-! ### The lines of the move -/

theorem guardWith_ok {input : MoveInput} {p : MoveProg Bool} (hp : Quiets p) {m : Move} {s : MoveDisk}
    (h : MoveOk input m s) {detail : String} {k : MoveProg MoveResult}
    (hk : ∀ t, MoveOk input m t → Ends k t (MoveSettled input)) :
    Ends (guardWith p m detail k) s (MoveSettled input) := by
  refine ends_bind (ends_mono (hp s) fun ok t ht => ?_)
  have ht := h.same ht
  cases ok
  · exact finish_ok (ht.detailed detail)
  · exact hk t ht

theorem guardPlain_ok {input : MoveInput} {p : MoveProg Bool} (hp : Quiets p) {m : Move} {s : MoveDisk}
    (h : MoveOk input m s) {k : MoveProg MoveResult} (hk : ∀ t, MoveOk input m t → Ends k t (MoveSettled input)) :
    Ends (guardPlain p m k) s (MoveSettled input) := by
  refine ends_bind (ends_mono (hp s) fun ok t ht => ?_)
  have ht := h.same ht
  cases ok
  · exact finish_ok ht
  · exact hk t ht

/-- A call with an effect, which leads to other locals. -/
theorem guardCall_ok {input : MoveInput} {c : MoveSys} {m : Move} {s : MoveDisk} (h : MoveOk input m s)
    {detail : String} {k : MoveProg MoveResult}
    (hk : ∀ t, MoveOk input m t → Ends k (t.effect c) (MoveSettled input)) :
    Ends (guardWith (.make c) m detail k) s (MoveSettled input) :=
  ends_bind (ends_make (fun _ ht => finish_ok ((h.same ht).detailed detail)) fun t ht => hk t (h.same ht))

/-- The check of a digest, with its two details. -/
theorem digest_ok {input : MoveInput} {m : Move} {s : MoveDisk} (h : MoveOk input m s) {c : MoveCheck}
    {detail detail' : String} {k : MoveProg MoveResult} (hk : ∀ t, MoveOk input m t → Ends k t (MoveSettled input)) :
    Ends (.bind (ask c) fun ok => if ok = false then
      .bind (ask .running) fun running => finish (m.detailed (if running then detail else detail'))
      else k) s (MoveSettled input) := by
  refine ends_bind (ends_mono (quiets_ask _ s) fun ok t ht => ?_)
  have ht := h.same ht
  cases ok
  · refine ends_bind (ends_mono (quiets_ask _ t) fun running u hu => ?_)
    exact finish_ok ((ht.same hu).detailed _)
  · exact hk t ht

theorem removeSource_ok {input : MoveInput} {m : Move} {s : MoveDisk} (h : MoveOk input m s)
    (hc : m.claimedMessage = true) (hp : m.published = true) :
    Ends (removeSource m) s (MoveSettled input) := by
  refine guardWith_ok (quiets_both (quiets_ask _) (quiets_ask _)) h fun s h => ?_
  refine guardWith_ok (quiets_both (quiets_ask _) (quiets_ask _)) h fun s h => ?_
  refine guardWith_ok (quiets_ask _) h fun s h => ?_
  refine guardWith_ok (quiets_ask _) h fun s h => ?_
  refine guardWith_ok (quiets_both (quiets_ask _) (quiets_ask _)) h fun s h => ?_
  refine digest_ok h fun s h => ?_
  refine guardWith_ok (quiets_both (quiets_ask _) (quiets_ask _)) h fun s h => ?_
  refine digest_ok h fun s h => ?_
  refine guardWith_ok (quiets_ask _) h fun s h => ?_
  refine guardCall_ok h fun s h => ?_
  have hsource : s.source = .claimed := by
    obtain ⟨-, hs⟩ | ⟨hm, -⟩ := h.source
    · exact hs
    · rw [hc] at hm
      cases hm
  have hremoved : MoveOk input { m with claimedMessage := false } (s.effect .unlinkClaimed) := by
    refine ⟨h.staged, h.stagePath, h.published, rfl, fun hm => (by cases hm), .inr ⟨rfl, .inr ⟨?_, hp⟩⟩, h.rc⟩
    show (if s.source = .claimed then SourceEntry.removed else s.source) = .removed
    rw [if_pos hsource]
  refine guardWith_ok (quiets_ask _) hremoved fun s h => ?_
  refine ends_bind (ends_mono (quiets_removeOwned _ s) fun x t ht => ?_)
  have ht := h.same ht
  have hm : MoveOk input { m with claimedMessage := false, claim := x.2 } t :=
    ⟨ht.staged, ht.stagePath, ht.published, ht.held, fun hm => (by cases hm), ht.source, ht.rc⟩
  obtain ⟨ok, d⟩ := x
  cases ok
  · exact finish_ok (hm.detailed "E_SOURCE_FSYNC")
  · exact finish_ok ⟨hm.staged, hm.stagePath, hm.published, hm.held, fun hm => (by cases hm), hm.source, .inl rfl⟩

theorem claimSource_ok {input : MoveInput} {m : Move} {s : MoveDisk} (h : MoveOk input m s)
    (hc : m.claimedMessage = false) (hp : m.published = true) :
    Ends (claimSource input m) s (MoveSettled input) := by
  refine guardWith_ok (quiets_ask _) h fun s h => ?_
  refine guardWith_ok (quiets_ask _) h fun s h => ?_
  refine ends_bind (ends_mono (createOwned_ends _ _ _ _ s) fun x t ht => ?_)
  obtain ⟨ht, hcreated⟩ := ht
  have ht := h.same ht
  have hnot : m.claimedMessage = true → False := fun hm => by
    rw [hc] at hm
    cases hm
  have hheld : t.held = none := by
    rw [ht.held, hc]
    rfl
  have hclaim : ∀ path, MoveOk input { m with claim := x.2.1, sequence := x.2.2, claimPath := path } t := by
    refine fun path => ⟨ht.staged, ht.stagePath, ht.published, ?_, fun hm => (hnot hm).elim, ht.source, ht.rc⟩
    show t.held = if m.claimedMessage then _ else none
    rw [hc]
    exact hheld
  obtain ⟨ok, d, sequence⟩ := x
  cases ok
  · exact finish_ok ((hclaim m.claimPath).detailed _)
  · have hcreated : d.created = true := hcreated rfl
    refine guardWith_ok (quiets_ask _) (hclaim m.claimPath) fun s h => ?_
    have h : MoveOk input { m with claim := d, sequence, claimPath := some (recoveryPath input d.name) } s :=
      ⟨h.staged, h.stagePath, h.published, h.held, fun hm => (hnot hm).elim, h.source, h.rc⟩
    refine guardWith_ok (quiets_ask _) h fun s h => ?_
    refine guardWith_ok (quiets_ask _) h fun s h => ?_
    refine guardWith_ok (quiets_both (quiets_ask _) (quiets_ask _)) h fun s h => ?_
    refine digest_ok h fun s h => ?_
    refine guardCall_ok h fun s h => ?_
    refine removeSource_ok ?_ rfl hp
    exact ⟨h.staged, h.stagePath, h.published, rfl, fun _ => ⟨hcreated, rfl⟩, .inl ⟨rfl, rfl⟩, h.rc⟩

theorem publishLoop_ok {input : MoveInput} {n attempt : ℕ} {m : Move} {s : MoveDisk} (h : MoveOk input m s)
    (hp : m.published = false) (hc : m.claimedMessage = false) :
    Ends (publishLoop input n attempt m) s fun x t => MoveOk input x.2 t ∧ x.2.stageMessage = m.stageMessage ∧
      x.2.claimedMessage = false ∧ (x.1 = true → x.2.published = true) := by
  induction n generalizing attempt s with
  | zero => exact ⟨h.detailed _, rfl, hc, fun hx => (by cases hx)⟩
  | succ n ih =>
    refine ends_bind (ends_state ?_)
    split
    · exact ⟨h.detailed _, rfl, hc, fun hx => (by cases hx)⟩
    · rename_i candidate _
      refine ends_bind (ends_mono (quiets_both (quiets_ask _) (quiets_ask _) s) fun ok t ht => ?_)
      have ht := h.same ht
      cases ok
      · exact ⟨ht.detailed _, rfl, hc, fun hx => (by cases hx)⟩
      · refine ends_bind (ends_make (fun u hu => ?_) fun u hu => ?_)
        · have hu := ht.same hu
          refine ends_bind (ends_mono (quiets_ask _ u) fun again v hv => ?_)
          have hv := hu.same hv
          cases again
          · exact ⟨hv.detailed _, rfl, hc, fun hx => (by cases hx)⟩
          · exact ih hv
        · have hu := ht.same hu
          have hnone : u.published = [] := by
            have hpublished := hu.published
            rw [hp] at hpublished
            exact hpublished
          have hlinked : MoveOk input
              { m with
                published := true
                finalPath := some (destinationPath input (cstr "cur") candidate) }
              (u.effect (.linkMessage candidate)) := by
            refine ⟨hu.staged, hu.stagePath, ⟨candidate, ?_, rfl⟩, hu.held, hu.claimPath, ?_, hu.rc⟩
            · show u.published ++ [candidate] = [candidate]
              rw [hnone]
              rfl
            · obtain ⟨hm, -⟩ | ⟨hm, hs⟩ := hu.source
              · rw [hc] at hm
                cases hm
              · exact .inr ⟨hm, hs.imp_right fun hs => ⟨hs.1, rfl⟩⟩
          exact ⟨hlinked, rfl, hc, fun _ => rfl⟩

theorem publishCopy_ok {input : MoveInput} {m : Move} {s : MoveDisk} (h : MoveOk input m s)
    (hp : m.published = false) (hc : m.claimedMessage = false) :
    Ends (publishCopy input m) s (MoveSettled input) := by
  refine guardWith_ok (quiets_ask _) h fun s h => ?_
  refine guardWith_ok (quiets_ask _) h fun s h => ?_
  refine guardWith_ok (quiets_ask _) h fun s h => ?_
  refine guardWith_ok (quiets_ask _) h fun s h => ?_
  refine ends_bind (ends_mono (publishLoop_ok h hp hc) fun x t ht => ?_)
  obtain ⟨ok, m⟩ := x
  obtain ⟨ht, -, hc, hp⟩ := ht
  cases ok
  · exact finish_ok ht
  · refine guardWith_ok (quiets_both (quiets_ask _) (quiets_ask _)) ht fun s h => ?_
    refine guardCall_ok h fun s h => ?_
    have h : MoveOk input { m with stageMessage := false } (s.effect .unlinkMessage) :=
      ⟨rfl, fun hm => (by cases hm), h.published, h.held, h.claimPath, h.source, h.rc⟩
    refine guardWith_ok (quiets_ask _) h fun s h => ?_
    refine ends_bind (ends_mono (quiets_removeOwned _ s) fun x t ht => ?_)
    have ht := h.same ht
    have hstage : MoveOk input { m with stageMessage := false, stage := x.2 } t :=
      ⟨ht.staged, fun hm => (by cases hm), ht.published, ht.held, ht.claimPath, ht.source, ht.rc⟩
    obtain ⟨ok, d⟩ := x
    cases ok
    · exact finish_ok (hstage.detailed _)
    · exact claimSource_ok hstage hc (hp rfl)

theorem stageCopy_ok {input : MoveInput} {m : Move} {s : MoveDisk} (h : MoveOk input m s)
    (hm : m.stageMessage = false) (hp : m.published = false) (hc : m.claimedMessage = false) :
    Ends (stageCopy input m) s (MoveSettled input) := by
  refine ends_bind (ends_mono (createOwned_ends _ _ _ _ s) fun x t ht => ?_)
  obtain ⟨ht, hcreated⟩ := ht
  have ht := h.same ht
  have hnot : m.stageMessage = true → False := fun hs => by
    rw [hm] at hs
    cases hs
  have hstaged : t.staged = none := by
    rw [ht.staged, hm]
    rfl
  have hstage : ∀ path, MoveOk input { m with stage := x.2.1, sequence := x.2.2, stagePath := path } t := by
    refine fun path => ⟨?_, fun hs => (hnot hs).elim, ht.published, ht.held, ht.claimPath, ht.source, ht.rc⟩
    show t.staged = if m.stageMessage then _ else none
    rw [hm]
    exact hstaged
  obtain ⟨ok, d, sequence⟩ := x
  cases ok
  · exact finish_ok (hstage m.stagePath)
  · have hcreated : d.created = true := hcreated rfl
    refine guardWith_ok (quiets_ask _) (hstage m.stagePath) fun s h => ?_
    have h : MoveOk input { m with stage := d, sequence, stagePath := some (stagePathOf input d.name) } s :=
      ⟨h.staged, fun hs => (hnot hs).elim, h.published, h.held, h.claimPath, h.source, h.rc⟩
    refine guardWith_ok (quiets_ask _) h fun s h => ?_
    have h : MoveOk input { m with stage := d, sequence, stagePath := some (messagePath input d.name) } s :=
      ⟨h.staged, fun hs => (hnot hs).elim, h.published, h.held, h.claimPath, h.source, h.rc⟩
    refine ends_bind (ends_make (fun t ht => finish_ok (h.same ht)) fun t ht => ?_)
    have ht := h.same ht
    have h : MoveOk input
        { m with
          stage := d
          sequence
          stagePath := some (messagePath input d.name)
          file := true
          stageMessage := true }
        (t.effect (.createMessage d.name)) :=
      ⟨rfl, fun _ => ⟨hcreated, rfl⟩, ht.published, ht.held, ht.claimPath, ht.source, ht.rc⟩
    refine ends_bind (ends_mono (quiets_ask _ _) fun ok u hu => ?_)
    have hu := h.same hu
    cases ok
    · refine ends_bind (ends_state ?_)
      exact finish_ok ⟨hu.staged, hu.stagePath, hu.published, hu.held, hu.claimPath, hu.source, hu.rc⟩
    · refine guardPlain_ok (quiets_ask _) hu fun s h => ?_
      refine guardPlain_ok (quiets_ask _) h fun s h => ?_
      have h : MoveOk input
          { m with
            stage := d
            sequence
            stagePath := some (messagePath input d.name)
            stageMessage := true
            copyfd := true
            file := false } s :=
        ⟨h.staged, h.stagePath, h.published, h.held, h.claimPath, h.source, h.rc⟩
      exact guardWith_ok (quiets_ask _) h fun s h => publishCopy_ok h hp hc

/-- The state before a move. -/
structure Fresh (s : MoveDisk) : Prop where
  staged : s.staged = none
  published : s.published = []
  held : s.held = none
  source : s.source = .untouched

theorem storageMove_ok (input : MoveInput) (sequence : ℕ) {s : MoveDisk} (hs : Fresh s) :
    Ends (storageMove input sequence) s (MoveSettled input) := by
  have h : ∀ rc, rc = 0 ∨ rc = 1 ∨ rc = 7 → MoveOk input { sequence, rc } s := fun rc hrc =>
    ⟨hs.staged, fun hm => (by cases hm), hs.published, hs.held, fun hm => (by cases hm),
      .inr ⟨rfl, .inl hs.source⟩, hrc⟩
  have hnoop : ∀ {s}, MoveOk input { sequence } s → MoveOk input { sequence, rc := 1 } s := fun h =>
    ⟨h.staged, h.stagePath, h.published, h.held, h.claimPath, h.source, .inr (.inl rfl)⟩
  have hback : ∀ {s}, MoveOk input { sequence, rc := 1 } s → MoveOk input { sequence } s := fun h =>
    ⟨h.staged, h.stagePath, h.published, h.held, h.claimPath, h.source, .inr (.inr rfl)⟩
  refine guardWith_ok (quiets_ask _) (h 7 (.inr (.inr rfl))) fun s h => ?_
  refine guardWith_ok (quiets_ask _) h fun s h => ?_
  refine guardPlain_ok (quiets_ask _) h fun s h => ?_
  refine guardWith_ok (quiets_ask _) h fun s h => ?_
  refine guardPlain_ok (quiets_both (quiets_ask _) (quiets_ask _)) h fun s h => ?_
  refine guardPlain_ok (quiets_ask _) (hnoop h) fun s h => ?_
  refine guardPlain_ok (quiets_ask _) (hback h) fun s h => ?_
  refine guardPlain_ok (quiets_ask _) (hnoop h) fun s h => ?_
  refine guardWith_ok (quiets_ask _) (hback h) fun s h => ?_
  exact stageCopy_ok h rfl rfl rfl

end Moves

/-! ### The result -/

/-- A run of one move, for the answers its calls get. -/
def moveRun (input : MoveInput) (sequence : ℕ) (answers : ℕ → Bool) (limits : ℕ → NameMax)
    (copyDetail : Bytes) : MoveResult × MoveDisk :=
  Prog.run moveMachine (storageMove input sequence) { answers, limits, copyDetail }

/-- The files a move answers for are named by the paths it returns. -/
structure NamesFiles (input : MoveInput) (x : MoveResult × MoveDisk) : Prop where
  staged : ∀ d, x.2.staged = some d → x.1.recovery.temporary = some (messagePath input d)
  published : ∀ c ∈ x.2.published, x.1.recovery.destination = some (destinationPath input (cstr "cur") c)
  held : ∀ d, x.2.held = some d → x.1.recovery.source = some (recoveryPath input d)

/-- The source is where it was, back at its name, or held at a path that is
returned. -/
def SourceKept (input : MoveInput) (x : MoveResult × MoveDisk) : Prop :=
  x.2.source = .untouched ∨ x.2.source = .restored ∨
    ∃ d, x.2.held = some d ∧ x.1.recovery.source = some (recoveryPath input d)

/-- The source is gone and the copy it was removed for is at a path that is
returned. -/
def SourceReplaced (input : MoveInput) (x : MoveResult × MoveDisk) : Prop :=
  x.2.source = .removed ∧
    ∃ c ∈ x.2.published, x.1.recovery.destination = some (destinationPath input (cstr "cur") c)

/-- A move that fails leaves no file that it does not name, and no source without
a copy that it names. -/
theorem failed_move_accounts (input : MoveInput) (sequence : ℕ) (answers : ℕ → Bool) (limits : ℕ → NameMax)
    (copyDetail : Bytes) (hf : Failed (moveRun input sequence answers limits copyDetail).1) :
    NamesFiles input (moveRun input sequence answers limits copyDetail) ∧
    (SourceKept input (moveRun input sequence answers limits copyDetail) ∨
      SourceReplaced input (moveRun input sequence answers limits copyDetail)) := by
  have hfresh : Fresh { answers, limits, copyDetail } := ⟨rfl, rfl, rfl, rfl⟩
  have haccounted : Accounted input (moveRun input sequence answers limits copyDetail).1
      (moveRun input sequence answers limits copyDetail).2 := storageMove_ok input sequence hfresh hf
  obtain ⟨x, hx⟩ : ∃ x, x = moveRun input sequence answers limits copyDetail := ⟨_, rfl⟩
  rw [← hx] at haccounted ⊢
  refine ⟨⟨haccounted.staged, haccounted.published, haccounted.held⟩, ?_⟩
  obtain hs | hs | ⟨d, hd⟩ | ⟨hs, c, hc⟩ := haccounted.source
  · exact .inl (.inl hs)
  · exact .inl (.inr (.inl hs))
  · exact .inl (.inr (.inr ⟨d, hd, haccounted.held d hd⟩))
  · have hmem : c ∈ x.2.published := by
      rw [hc]
      exact List.mem_singleton_self c
    exact .inr ⟨hs, c, hmem, haccounted.published c hmem⟩

def sampleMove : MoveInput where
  nonce := fun _ => 7
  rootPath := cstr "/mail"
  relative := cstr "work"
  name := cstr "x:2,S"
  sourcePath := cstr "/mail/in/cur/x:2,S"

/-- Every call succeeds but number `k`. -/
def failing (k : ℕ) : ℕ → Bool := fun n => n ≠ k

/-- The claimed source fails its check and cannot go back: a new entry stands at
its name. -/
theorem failed_move_accounts_sample :
    (moveRun sampleMove 0 (fun n => n ≠ 48 ∧ n ≠ 50 ∧ n ≠ 51) (fun _ => .most 255) []).2.held =
      some (cstr ".jaro-filter.07070707070707070707070707070707.2") ∧
    NamesFiles sampleMove (moveRun sampleMove 0 (fun n => n ≠ 48 ∧ n ≠ 50 ∧ n ≠ 51) (fun _ => .most 255) []) :=
  ⟨by decide, (failed_move_accounts sampleMove 0 _ _ [] (.inr (by decide))).1⟩

/-- The source was removed from its claim, and the sync of the claim directory
failed behind it. -/
theorem failed_move_removed : ¬ ∀ (input : MoveInput) (sequence : ℕ) (answers : ℕ → Bool)
    (limits : ℕ → NameMax) (copyDetail : Bytes), Failed (moveRun input sequence answers limits copyDetail).1 →
      NamesFiles input (moveRun input sequence answers limits copyDetail) ∧
      SourceKept input (moveRun input sequence answers limits copyDetail) := by
  intro h
  obtain ⟨x, hx⟩ : ∃ x, x = moveRun sampleMove 0 (failing 62) (fun _ => .most 255) [] := ⟨_, rfl⟩
  have hrun : x.1.rc = 7 ∧ x.2.source = .removed ∧ x.2.held = none := by
    rw [hx]
    decide
  obtain ⟨-, hkept⟩ := h sampleMove 0 (failing 62) (fun _ => .most 255) [] (.inr (hx ▸ hrun.1))
  rw [← hx] at hkept
  obtain hs | hs | ⟨d, hd, -⟩ := hkept
  · rw [hrun.2.1] at hs
    cases hs
  · rw [hrun.2.1] at hs
    cases hs
  · rw [hrun.2.2] at hd
    cases hd

end JaroFilter
