import JaroFilter.Generation.Install

/-!
# Compiling and importing (`generation.c:484-787`)

The two commands that publish, one section for each time the lock is held. The
locks are taken, the root directory is not replaced, and `check` is off.
-/

namespace JaroFilter

open Lib

/-! ### Staging -/

/-- `stage` (`generation.c:493`). -/
def stage (host : Host) (p : Products) : Routine Bool :=
  Prog.both (step .stage .mkdtemp)
    (Prog.both (save .stage (.building .policyBin) p.cache)
      (Prog.both (save .stage (.building .filtersZsh) p.zsh)
        (Prog.both (save .stage (.building .filtersSieve) p.sieve)
          (Prog.both (save .stage (.building .manifestJson) (manifest p.generation))
            (Prog.both (step .stage .fsync)
              (.look fun d => .done (validateDirectory host (stagedFiles d) p.id).isOk))))))

/-- `discard_stage` (`generation.c:484`); its failures are not reported. -/
def discardStage : Routine Unit :=
  .look fun d =>
    if d.staged then
      Prog.bind (removeFile .recover (.building .policyBin)) fun _ =>
        Prog.bind (removeFile .recover (.building .filtersZsh)) fun _ =>
          Prog.bind (removeFile .recover (.building .filtersSieve)) fun _ =>
            Prog.bind (removeFile .recover (.building .manifestJson)) fun _ =>
              Prog.bind (step .recover .rmdir) fun _ => .done ()
    else .done ()

/-- The products as the two commands compare them with an existing generation: an import
looks at the cache only. -/
def sameProducts (whole : Bool) (g : Generation) (p : Products) : Bool :=
  g.cache == p.cache && (!whole || (g.zsh == p.zsh && g.sieve == p.sieve))

/-- The move of the staged directory to its generation (`generation.c:601-613,730-747`). -/
def install (host : Host) (whole : Bool) (p : Products) : Routine ℕ :=
  .look fun d =>
    match d.generations p.id with
    | none => status (Prog.both (step .install (.install p.id)) (step .install .fsync))
    | some _ =>
      match openGeneration host d p.id with
      | .error rc => .done rc
      | .ok g => if sameProducts whole g p then status (step .install .fsync) else .done 5

/-! ### What is compiled -/

/-- What `jf_snapshot_collect` gathers. -/
structure Snapshot where
  sources : List Source
  profile : Profile
  dependencies : List Dependency

/-- Everything a command reads besides the files of its root. -/
structure Pipeline where
  posix : Posix
  /-- `jf_snapshot_collect` with the dependencies of an earlier snapshot. -/
  collect : List Dependency → (Fin 4 → Option Node) → Except ℕ Snapshot
  /-- `jf_snapshot_overlay` with the changed inputs. -/
  overlay : (Fin 4 → Option Bytes) → (Fin 4 → Option Node) → Except ℕ Snapshot
  /-- `jf_sieve_import` under the profile of a snapshot. -/
  imported : Profile → Except ℕ Policy
  /-- `jf_import_merge`. -/
  merge : Policy → Policy → (Fin 4 → Bytes) → Except ℕ (Fin 4 → Bytes)

def inputsOf (d : Disk) (i : Fin 4) : Option Node := d.files (.input i)

/-- `jf_snapshot_parse` and `jf_products_build`. -/
def Pipeline.build (pl : Pipeline) (s : Snapshot) : Except ℕ Products :=
  (do
    let policy ← policyParse pl.posix s.sources
    productsBuild policy s.profile s.dependencies).mapError Failure.rc

/-! ### Compiling -/

/-- What one attempt comes to: an outcome, or another attempt with these dependencies. -/
inductive Attempt where
  | stop (outcome : Except ℕ Bytes)
  | again (prior : List Dependency)

def Attempt.fail (rc : ℕ) : Attempt := .stop (.error rc)

/-- The section before the attempts (`generation.c:660-672`). -/
def openPrevious (host : Host) : Routine (Except ℕ (Option Generation × List Dependency)) :=
  Prog.bind (recover host) fun rc =>
    if rc ≠ 0 then .done (.error rc)
    else .look fun d =>
      match selector d with
      | .error rc => .done (.error rc)
      | .ok old =>
        if old = [] then .done (.ok (none, []))
        else match pinLocked host d none with
          | .error rc => .done (.error rc)
          | .ok g =>
            match cacheDependencies g.cache with
            | .error e => .done (.error e.rc)
            | .ok deps => .done (.ok (some g, deps))

/-- A publication unless selector and export are those of the products (`generation.c:753-760`). -/
def publishIfNeeded (host : Host) (old : Bytes) (p : Products) : Routine ℕ :=
  .look fun d =>
    if old = p.id then
      if publicStatus host d p.sieve = 5 then publish host old p else .done (publicStatus host d p.sieve)
    else publish host old p

/-- The exclusive section of an attempt (`generation.c:719-761`). -/
def publishSection (pl : Pipeline) (host : Host) (s : Snapshot) (fingerprint : Bytes) (p : Products) :
    Routine Attempt :=
  Prog.bind (recover host) fun rc =>
    if rc ≠ 0 then .done (.fail rc)
    else .look fun d =>
      match pl.collect s.dependencies (inputsOf d) with
      | .error rc => .done (if rc = 6 then .again s.dependencies else .fail rc)
      | .ok recheck =>
        match dependenciesFingerprint recheck.dependencies with
        | .error rc => .done (.fail rc)
        | .ok found =>
          if found ≠ fingerprint then .done (.again recheck.dependencies)
          else match selector d with
            | .error rc => .done (.fail rc)
            | .ok old =>
              Prog.bind (install host true p) fun rc =>
                if rc ≠ 0 then .done (.fail rc)
                else Prog.bind (publishIfNeeded host old p) fun rc =>
                  .done (if rc = 0 then .stop (.ok p.id) else .fail rc)

/-- From the snapshot to the end of an attempt (`generation.c:708-775`). -/
def buildAndPublish (pl : Pipeline) (host : Host) (s : Snapshot) (fingerprint : Bytes) : Routine Attempt :=
  match pl.build s with
  | .error rc => .done (.fail rc)
  | .ok p =>
    Prog.bind (stage host p) fun ok =>
      Prog.bind (if ok then publishSection pl host s fingerprint p else .done (.fail 3)) fun r =>
        Prog.bind discardStage fun _ => .done r

/-- The shared section for inputs that have not changed (`generation.c:685-706`): an end of
the attempt, or nothing where the export is to be repaired. -/
def warm (pl : Pipeline) (host : Host) (s : Snapshot) (fingerprint : Bytes) (d : Disk) : Option Attempt :=
  match pl.collect s.dependencies (inputsOf d) with
  | .error rc => some (.fail rc)
  | .ok recheck =>
    match dependenciesFingerprint recheck.dependencies with
    | .error rc => some (.fail rc)
    | .ok found =>
      if found ≠ fingerprint then some (.again recheck.dependencies)
      else match pinLocked host d none with
        | .error rc => some (.fail rc)
        | .ok g =>
          if g.id ≠ digestHex fingerprint then some (.again recheck.dependencies)
          else if publicStatus host d g.sieve = 0 then some (.stop (.ok g.id))
          else if publicStatus host d g.sieve = 5 then none
          else some (.fail (publicStatus host d g.sieve))

/-- The snapshot of an attempt and its fingerprint (`generation.c:677-684`). -/
def snapshotSection (pl : Pipeline) (host : Host) (prior : List Dependency) (d : Disk) :
    Except Attempt (Snapshot × Bytes) :=
  if unfinished host d then .error (.fail 5)
  else match pl.collect prior (inputsOf d) with
    | .error rc => .error (if rc = 6 then .again prior else .fail rc)
    | .ok s =>
      match dependenciesFingerprint s.dependencies with
      | .error rc => .error (.fail rc)
      | .ok fingerprint => .ok (s, fingerprint)

/-- One attempt of `jf_compile`. -/
def attempt (pl : Pipeline) (host : Host) (previous : Option Generation) (prior : List Dependency) :
    Routine Attempt :=
  .look fun d =>
    match snapshotSection pl host prior d with
    | .error r => .done r
    | .ok (s, fingerprint) =>
      if previous.any fun g => g.id == digestHex fingerprint then .look fun d =>
        match warm pl host s fingerprint d with
        | some r => .done r
        | none => buildAndPublish pl host s fingerprint
      else buildAndPublish pl host s fingerprint

/-- The attempts that are left; the last one does not ask for another. -/
def attempts (pl : Pipeline) (host : Host) (previous : Option Generation) :
    ℕ → List Dependency → Routine (Except ℕ Bytes)
  | 0, _ => .done (.error 6)
  | n + 1, prior => Prog.bind (attempt pl host previous prior) fun r =>
    match r with
    | .stop outcome => .done outcome
    | .again prior => attempts pl host previous n prior

/-- `jf_compile` (`generation.c:646`): the ID of the generation. -/
def compile (pl : Pipeline) (host : Host) : Routine (Except ℕ Bytes) :=
  Prog.bind (openPrevious host) fun opened =>
    match opened with
    | .error rc => .done (.error rc)
    | .ok (previous, prior) => attempts pl host previous 3 prior

/-! ### Importing -/

/-- The originals of the inputs (`generation.c:571-579`). -/
def readOriginals (host : Host) (d : Disk) : Except ℕ (Fin 4 → Bytes × Mode) := do
  let read := fun i : Fin 4 =>
    match d.files (.input i) with
    | none => .ok ([], privateMode)
    | some n => loadMode host (some n) inputMax false
  let r₀ ← read 0
  let r₁ ← read 1
  let r₂ ← read 2
  let r₃ ← read 3
  return ![r₀, r₁, r₂, r₃]

/-- What an import has decided before it stages anything. -/
structure Plan where
  before : Snapshot
  fingerprint : Bytes
  change : Change
  products : Products
  old : Bytes

/-- The reading part of an import (`generation.c:567-599`). -/
def planImport (pl : Pipeline) (host : Host) (d : Disk) : Except ℕ Plan := do
  let before ← pl.collect [] (inputsOf d)
  let current ← (policyParse pl.posix before.sources).mapError Failure.rc
  let imported ← pl.imported before.profile
  let reads ← readOriginals host d
  let original := fun i => (reads i).1
  let output ← pl.merge current imported original
  let change : Change := ⟨original, output, fun i => existsAt d (.input i), fun i => (reads i).2⟩
  let after ← pl.overlay (fun i => if change.changed i then some (output i) else none) (inputsOf d)
  let products ← pl.build after
  let fingerprint ← dependenciesFingerprint before.dependencies
  let recheck ← pl.collect before.dependencies (inputsOf d)
  let found ← dependenciesFingerprint recheck.dependencies
  if found ≠ fingerprint then .error 6
  else do
    let old ← selector d
    return ⟨before, fingerprint, change, products, old⟩

/-- The last look at the inventory (`generation.c:618-621`). -/
def recheckInventory (pl : Pipeline) (d : Disk) (plan : Plan) : ℕ :=
  match pl.collect plan.before.dependencies (inputsOf d) with
  | .error rc => rc
  | .ok recheck =>
    match dependenciesFingerprint recheck.dependencies with
    | .error rc => rc
    | .ok found => if found = plan.fingerprint then 0 else 6

/-- From the staged products to the publication (`generation.c:601-634`). -/
def importSection (pl : Pipeline) (host : Host) (plan : Plan) : Routine ℕ :=
  Prog.bind (install host false plan.products) fun rc =>
    if rc ≠ 0 then .done rc
    else .look fun d =>
      if recheckInventory pl d plan ≠ 0 then .done (recheckInventory pl d plan)
      else if ∃ i, plan.change.changed i = true then
        transact host (some plan.change) plan.old plan.products
      else publishIfNeeded host plan.old plan.products

/-- `jf_compile_import` (`generation.c:537`), under one exclusive lock. -/
def compileImport (pl : Pipeline) (host : Host) : Routine (Except ℕ Bytes) :=
  Prog.bind (recover host) fun rc =>
    if rc ≠ 0 then .done (.error rc)
    else .look fun d =>
      match planImport pl host d with
      | .error rc => .done (.error rc)
      | .ok plan =>
        Prog.bind (stage host plan.products) fun ok =>
          Prog.bind (if ok then importSection pl host plan else .done 3) fun rc =>
            Prog.bind discardStage fun _ => .done (if rc = 0 then .ok plan.products.id else .error rc)

end JaroFilter
