import JaroFilter.Generation.Journal

/-!
# Publication and recovery (`generation.c:239-482`)

The routines that change a root: preparing the inputs of an import, publishing
a generation, and recovering from whatever an earlier run left behind.
-/

namespace JaroFilter

open Lib

/-! ### Reads -/

def readJournal (host : Host) (d : Disk) : Option Journal :=
  match load host (d.files (.engine .journal)) 256 with
  | .ok data => readJournalText data
  | .error _ => none

/-- The content of the commit marker, if it is one of `next`. -/
def markerOf (host : Host) (d : Disk) (next : Bytes) : Bool :=
  match load host (d.files (.engine .committed)) 64 with
  | .ok marker => marker.length == 64 && marker == next
  | .error _ => false

/-- `committed_journal` (`generation.c:333`): the committed ID. -/
def committedJournal (host : Host) (d : Disk) : Option Bytes :=
  match readJournal host d, selector d with
  | some j, .ok selected => if markerOf host d j.next ∧ selected = j.next then some j.next else none
  | _, _ => none

/-- `unfinished` (`generation.c:239`). -/
def unfinished (host : Host) (d : Disk) : Bool :=
  (existsAt d (.engine .journal) || existsAt d (.engine .importJournal)) &&
    (committedJournal host d).isNone

/-- `public_status` (`generation.c:245`). -/
def publicStatus (host : Host) (d : Disk) (sieve : Bytes) : ℕ :=
  match load host (d.files .filtersSieve) cacheMax with
  | .ok data => if data = sieve then 0 else 5
  | .error rc => rc

/-- The ID `pin_locked` is asked for, or the selected one. -/
def pinId (d : Disk) : Option Bytes → Except ℕ Bytes
  | some id => if validId id then .ok id else .error 5
  | none =>
    match selector d with
    | .ok id => if id = [] then .error 5 else .ok id
    | .error _ => .error 5

/-- `pin_locked` (`generation.c:253`). -/
def pinLocked (host : Host) (d : Disk) (requested : Option Bytes) : Except ℕ Generation :=
  if unfinished host d then .error 5
  else do
    let id ← pinId d requested
    let g ← openGeneration host d id
    match existsAt d (.engine .journal), committedJournal host d with
    | true, some committed => do
      let published ← if id = committed then .ok g else openGeneration host d committed
      if publicStatus host d published.sieve = 0 then .ok g
      else .error (publicStatus host d published.sieve)
    | _, _ => .ok g

/-! ### Steps -/

def step (r : Region) (op : Op) : Routine Bool := Prog.make ⟨r, op⟩

def removeFile (r : Region) (p : Path) : Routine Bool := step r (.unlink p)

/-- `save` (`generation.c:73`). -/
def save (r : Region) (p : Path) (data : Bytes) : Routine Bool :=
  Prog.both (step r (.create p)) (Prog.both (step r (.write p data)) (step r .fsync))

/-- `copy_file` (`generation.c:285`). -/
def copyFile (host : Host) (r : Region) (name output : Path) : Routine Bool :=
  .look fun d =>
    match load host (d.files name) cacheMax with
    | .ok data => save r output data
    | .error _ => .done false

/-- Opens a file for reading, sets its mode and flushes it. -/
def chmodFile (host : Host) (r : Region) (p : Path) (mode : Mode) : Routine Bool :=
  .look fun d =>
    match d.files p with
    | some (.file _ old _) =>
      if host.canRead old.permissions then Prog.both (step r (.fchmod p mode)) (step r .fsync) else .done false
    | _ => .done false

/-- `set_selector` (`generation.c:297`). -/
def setSelector (r : Region) (id : Bytes) (temporary : Path) : Routine Bool :=
  if id = [] then removeFile r (.engine .current)
  else Prog.both (removeFile r temporary) (Prog.both (step r (.symlink (selectorTarget id) temporary))
    (step r (.rename temporary (.engine .current))))

/-! ### Recovery -/

/-- `cleanup_transaction` (`generation.c:306`): the journal goes first. -/
def cleanupTransaction : Routine Bool :=
  Prog.both (removeFile .recover (.engine .journal)) (Prog.both (step .recover .fsync)
    (Prog.both (Prog.each [.exportBackup, .exportNext, .exportRestore, .journalNext, .currentNext,
      .currentRollback, .committedNext, .committed] fun e => removeFile .recover (.engine e))
      (step .recover .fsync)))

/-- Puts the copy in `backup` back at `target` with its mode, through `restore`. -/
def restoreFile (host : Host) (backup restore target : Path) (mode : Mode) : Routine Bool :=
  Prog.both (removeFile .recover restore) (Prog.both (copyFile host .recover backup restore)
    (Prog.both (chmodFile host .recover restore mode) (step .recover (.rename restore target))))

/-- The restore of one input in `recover_inputs` (`generation.c:365-372`). -/
def restoreInput (host : Host) (lines : Fin 4 → InputLine) (i : Fin 4) : Routine Bool :=
  if (lines i).changed then
    if (lines i).present then
      restoreFile host (.engine (.importFile i .backup)) (.engine (.importFile i .restore)) (.input i)
        (lines i).mode
    else removeFile .recover (.input i)
  else .done true

/-- The input journal's part of `recover_inputs` (`generation.c:354-375`). -/
def recoverJournal (host : Host) (committed : Bool) : Routine Bool :=
  .look fun d =>
    if existsAt d (.engine .importJournal) then
      match (load host (d.files (.engine .importJournal)) 160).toOption.bind readImportText with
      | some lines =>
        Prog.both (if committed then .done true else Prog.each (List.finRange 4) (restoreInput host lines))
          (Prog.both (step .recover .fsync) (Prog.both (step .recover .fsync)
            (Prog.both (removeFile .recover (.engine .importJournal)) (step .recover .fsync))))
      | none => .done false
    else .done true

/-- `recover_inputs` (`generation.c:348`). -/
def recoverInputs (host : Host) (committed : Bool) : Routine Bool :=
  Prog.both (recoverJournal host committed)
    (Prog.both (Prog.each (List.finRange 4) fun i => Prog.each [.backup, .next, .restore] fun s =>
      removeFile .recover (.engine (.importFile i s)))
      (Prog.both (removeFile .recover (.engine .importJournalNext)) (step .recover .fsync)))

/-- The status of steps that fail with 3. -/
def status (p : Routine Bool) : Routine ℕ := Prog.bind p fun ok => .done (if ok then 0 else 3)

/-- The end of `recover`, on either side of the marker. -/
def finishRecovery (host : Host) (committed : Bool) : Routine ℕ :=
  status (Prog.both (recoverInputs host committed) cleanupTransaction)

/-- The rollback of export and selector (`generation.c:429-441`). -/
def rollback (host : Host) (j : Journal) : Routine Bool :=
  Prog.both (if j.present then restoreFile host (.engine .exportBackup) (.engine .exportRestore)
      .filtersSieve j.mode else removeFile .recover .filtersSieve)
    (Prog.both (setSelector .recover j.old (.engine .currentRollback))
      (Prog.both (step .recover .fsync) (step .recover .fsync)))

/-- `recover` (`generation.c:415`). -/
def recover (host : Host) : Routine ℕ :=
  .look fun d =>
    if existsAt d (.engine .journal) then
      match readJournal host d with
      | none => .done 3
      | some j =>
        if existsAt d (.engine .committed) then
          if markerOf host d j.next then
            match pinLocked host d none with
            | .error rc => .done rc
            | .ok _ => finishRecovery host true
          else .done 3
        else Prog.bind (rollback host j) fun ok =>
          if ok then finishRecovery host false else .done 3
    else finishRecovery host false

/-! ### Preparing inputs -/

/-- What an import does to the inputs. -/
structure Change where
  original : Fin 4 → Bytes
  output : Fin 4 → Bytes
  present : Fin 4 → Bool
  modes : Fin 4 → Mode

/-- The `changed` flags (`generation.c:581`). -/
def Change.changed (c : Change) (i : Fin 4) : Bool := c.original i != c.output i

def Change.lines (c : Change) (i : Fin 4) : InputLine := ⟨c.changed i, c.present i, c.modes i⟩

/-- Backup and new content of one input (`generation.c:390-396`). -/
def stageInput (c : Change) (i : Fin 4) : Routine Bool :=
  if c.changed i then
    Prog.both (if c.present i then save .prepare (.engine (.importFile i .backup)) (c.original i)
      else .done true) (save .prepare (.engine (.importFile i .next)) (c.output i))
  else .done true

/-- The rename of one input (`generation.c:403-408`). -/
def replaceInput (host : Host) (c : Change) (i : Fin 4) : Routine Bool :=
  if c.changed i then
    Prog.both (chmodFile host .prepare (.engine (.importFile i .next)) (c.modes i))
      (step .prepare (.rename (.engine (.importFile i .next)) (.input i)))
  else .done true

/-- `prepare_inputs` (`generation.c:383`). -/
def prepareInputs (host : Host) (c : Change) : Routine Bool :=
  Prog.both (Prog.each (List.finRange 4) (stageInput c))
    (Prog.both (save .prepare (.engine .importJournalNext) (importText c.lines))
      (Prog.both (step .prepare (.rename (.engine .importJournalNext) (.engine .importJournal)))
        (Prog.both (step .prepare .fsync)
          (Prog.both (Prog.each (List.finRange 4) (replaceInput host c)) (step .prepare .fsync)))))

/-! ### Publication -/

/-- The export and its journal, up to the point where `prepared` is set. -/
def publishPrepare (host : Host) (old : Bytes) (p : Products) : Routine Bool :=
  .look fun d =>
    let journal := fun present mode => Prog.both (save .publish (.engine .exportNext) p.sieve)
      (Prog.both (save .publish (.engine .journalNext) (journalLine old present mode p.id))
        (Prog.both (step .publish (.rename (.engine .journalNext) (.engine .journal)))
          (step .publish .fsync)))
    if existsAt d .filtersSieve then
      match loadMode host (d.files .filtersSieve) cacheMax false with
      | .ok (data, mode) =>
        Prog.both (save .publish (.engine .exportBackup) data) (journal true mode)
      | .error _ => .done false
    else journal false privateMode

/-- From the rename of the export to the sync of the marker (`generation.c:466-471`). -/
def publishCommit (p : Products) : Routine Bool :=
  Prog.both (step .publish (.rename (.engine .exportNext) .filtersSieve))
    (Prog.both (setSelector .publish p.id (.engine .currentNext))
      (Prog.both (step .publish .fsync) (Prog.both (step .publish .fsync)
        (Prog.both (save .publish (.engine .committedNext) p.id)
          (Prog.both (step .publish (.rename (.engine .committedNext) (.engine .committed)))
            (step .publish .fsync))))))

/-- What `publish` does after a failed step (`generation.c:477-482`). -/
def abandon (host : Host) (prepared : Bool) : Routine ℕ :=
  Prog.bind (removeFile .recover (.engine .committed)) fun removed =>
    if removed then .look fun d =>
      if prepared || existsAt d (.engine .journal) then Prog.bind (recover host) fun _ => .done 3
      else Prog.bind cleanupTransaction fun _ => .done 3
    else .done 3

/-- `publish` (`generation.c:450`). -/
def publish (host : Host) (old : Bytes) (p : Products) : Routine ℕ :=
  Prog.bind (publishPrepare host old p) fun prepared =>
    Prog.bind (if prepared then publishCommit p else .done false) fun ok =>
      if ok then .done 0 else abandon host prepared

/-- The failure path of an import that has begun to prepare (`generation.c:633`). -/
def undoImport (host : Host) (rc : ℕ) : Routine ℕ :=
  if rc = 0 then .done 0
  else Prog.bind (removeFile .recover (.engine .committed)) fun _ =>
    Prog.bind (recover host) fun _ => .done rc

/-- The publishing part of a compile, or of an import with its changes. -/
def transact (host : Host) (change : Option Change) (old : Bytes) (p : Products) : Routine ℕ :=
  match change with
  | none => publish host old p
  | some c =>
    Prog.bind (prepareInputs host c) fun ok =>
      Prog.bind (if ok then publish host old p else .done 3) (undoImport host)

end JaroFilter
