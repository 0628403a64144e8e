import JaroFilter.Lib.Program
import JaroFilter.Products.Fingerprint

/-!
# The files of a root (`generation.c:21-237`)

The inputs, the public export and the engine directory, the calls that change
them, and the reads the generation code bases its decisions on. A call is made
for one region of the code, so that a failure can be placed.
-/

namespace JaroFilter

open Lib

/-! ### Files -/

/-- The permission bits, `st_mode&0777`. -/
abbrev Mode := Fin 512

/-- `st_mode&07777`: the set-ID and sticky bits above the permission bits. -/
structure FileMode where
  special : Fin 8
  permissions : Mode
  deriving DecidableEq

/-- A mode `open` and `fchmod` are given here has no special bit. -/
instance : Coe Mode FileMode := ⟨fun mode => ⟨0, mode⟩⟩

def privateMode : Mode := 0o600

/-- Owner only, for directories. -/
def directoryMode : Mode := 0o700

inductive Node where
  | file (data : Bytes) (mode : FileMode) (links : ℕ)
  | link (target : Bytes)
  -- A directory, or anything else that is neither a regular file nor a link.
  | other
  deriving DecidableEq

inductive Suffix where
  | backup | next | restore
  deriving DecidableEq

/-- The names in the engine directory. -/
inductive EngineName where
  | current | currentNext | currentRollback
  | journal | journalNext | committed | committedNext
  | exportBackup | exportNext | exportRestore
  | importJournal | importJournalNext
  | importFile (i : Fin 4) (suffix : Suffix)
  deriving DecidableEq

/-- The files of a generation directory. -/
inductive Product where
  | policyBin | filtersZsh | filtersSieve | manifestJson
  deriving DecidableEq

/-- `input i` is `jf_import_names[i]` in the root. -/
inductive Path where
  | input (i : Fin 4)
  | filtersSieve
  | engine (e : EngineName)
  | building (f : Product)
  deriving DecidableEq

/-- A directory under `generations`; `extra` stands for any further entry. -/
structure Directory where
  files : Product → Option Node
  extra : Bool
  mode : FileMode

structure Disk where
  files : Path → Option Node
  /-- The `.building-` directory this invocation made is there. -/
  staged : Bool
  generations : Bytes → Option Directory

def Disk.set (d : Disk) (p : Path) (n : Option Node) : Disk :=
  { d with files := Function.update d.files p n }

@[simp] theorem Disk.set_self (d : Disk) (p : Path) (n : Option Node) : (d.set p n).files p = n :=
  Function.update_self ..

theorem Disk.set_of_ne (d : Disk) {p q : Path} (n : Option Node) (h : q ≠ p) :
    (d.set p n).files q = d.files q := Function.update_of_ne h ..

@[simp] theorem Disk.set_staged (d : Disk) (p : Path) (n : Option Node) :
    (d.set p n).staged = d.staged := rfl

@[simp] theorem Disk.set_generations (d : Disk) (p : Path) (n : Option Node) :
    (d.set p n).generations = d.generations := rfl

/-! ### Calls -/

/-- The part of the code that makes a call. -/
inductive Region where
  | stage | install | prepare | publish | recover
  deriving DecidableEq

inductive Op where
  | create (p : Path)
  | write (p : Path) (data : Bytes)
  | fsync
  | fchmod (p : Path) (mode : Mode)
  | rename (p q : Path)
  | symlink (target : Bytes) (p : Path)
  | unlink (p : Path)
  | mkdtemp
  | rmdir
  -- The rename of the staged directory to its generation.
  | install (id : Bytes)

structure Call where
  region : Region
  op : Op

def stagedFiles (d : Disk) : Directory where
  files := fun f => d.files (.building f)
  extra := false
  mode := directoryMode

def clearStage (d : Disk) : Path → Option Node
  | .building _ => none
  | p => d.files p

/-- What a call does when nothing interferes. `unlink` reports a missing name as
success, as `remove_file` takes it; `rename` replaces a file or a link. -/
def Op.exec (d : Disk) : Op → Bool × Disk
  | .create p => if d.files p = none then (true, d.set p (some (.file [] privateMode 1))) else (false, d)
  | .write p data =>
    match d.files p with
    | some (.file old mode links) => (true, d.set p (some (.file (old ++ data) mode links)))
    | _ => (false, d)
  | .fsync => (true, d)
  | .fchmod p mode =>
    match d.files p with
    | some (.file data _ links) => (true, d.set p (some (.file data mode links)))
    | _ => (false, d)
  | .rename p q =>
    if d.files p = none ∨ d.files q = some .other then (false, d)
    else (true, (d.set q (d.files p)).set p none)
  | .symlink target p => if d.files p = none then (true, d.set p (some (.link target))) else (false, d)
  | .unlink p => if d.files p = some .other then (false, d) else (true, d.set p none)
  | .mkdtemp => (true, { d with
      files := clearStage d
      staged := true })
  | .rmdir =>
    if d.staged ∧ ∀ f ∈ [Product.policyBin, .filtersZsh, .filtersSieve, .manifestJson],
        d.files (.building f) = none then (true, { d with staged := false })
    else (false, d)
  | .install id =>
    if d.staged ∧ d.generations id = none then (true, { d with
      files := clearStage d
      staged := false
      generations := Function.update d.generations id (some (stagedFiles d)) })
    else (false, d)

def Call.exec (c : Call) (d : Disk) : Bool × Disk := c.op.exec d

/-- A write cut short leaves a prefix. -/
def Call.Torn (c : Call) (d t : Disk) : Prop :=
  match c.op with
  | .write p data => ∃ n, t = ((Op.write p (data.take n)).exec d).2
  | _ => False

def disks : Prog.Machine Disk Call := ⟨Call.exec, Call.Torn⟩

abbrev Routine (α : Type) := Prog Disk Call α

/-! ### Reads -/

/-- What the host lets a process read, by permission bits: files of its own with
mode 0600 are among it. -/
structure Host where
  canRead : Mode → Bool
  reads_own : canRead privateMode = true

/-- `load_mode` (`generation.c:47`): status 5 for a missing name, a link or an
object of another kind, 3 for a refused open. It looks at the permission bits
only, and gives no others back. -/
def loadMode (host : Host) (n : Option Node) (limit : ℕ) (isPrivate : Bool) :
    Except ℕ (Bytes × Mode) :=
  match n with
  | some (.file data mode links) =>
    if host.canRead mode.permissions = false then .error 3
    else if isPrivate ∧ (mode.permissions ≠ privateMode ∨ links ≠ 1) then .error 5
    else if limit < data.length then .error 5
    else .ok (data, mode.permissions)
  | _ => .error 5

/-- `load` (`generation.c:68`). -/
def load (host : Host) (n : Option Node) (limit : ℕ) : Except ℕ Bytes :=
  (loadMode host n limit true).map Prod.fst

/-- A file of the owner's, with any special bits. -/
def ownFile (special : Fin 8) (data : Bytes) : Option Node :=
  some (.file data ⟨special, privateMode⟩ 1)

/-- A file as `save` leaves it. -/
def savedFile (data : Bytes) : Option Node := some (.file data privateMode 1)

theorem load_ownFile (host : Host) (special : Fin 8) {data : Bytes} {limit : ℕ}
    (h : data.length ≤ limit) : load host (ownFile special data) limit = .ok data := by
  simp only [load, loadMode, ownFile, host.reads_own, Bool.true_eq_false, if_false, ne_eq,
    not_true_eq_false, or_self, and_false, Nat.not_lt.mpr h]
  rfl

theorem load_savedFile (host : Host) {data : Bytes} {limit : ℕ} (h : data.length ≤ limit) :
    load host (savedFile data) limit = .ok data := load_ownFile host 0 h

def existsAt (d : Disk) (p : Path) : Bool := (d.files p).isSome

/-- `valid_id` (`generation.c:28`). -/
def validId (s : Bytes) : Bool := s.length == 64 && s.all isLowerHex

/-- The link target of a generation. -/
def selectorTarget (id : Bytes) : Bytes := cstr "generations/" ++ id

/-- `selector` (`generation.c:166`); no selector is the empty ID. -/
def selector (d : Disk) : Except ℕ Bytes :=
  match d.files (.engine .current) with
  | none => .ok []
  | some (.link target) =>
    if target.length = 76 ∧ target.take 12 = cstr "generations/" ∧ validId (target.drop 12) then
      .ok (target.drop 12)
    else .error 5
  | _ => .error 5

/-! ### Generation directories -/

/-- `struct jf_generation`, without its descriptor. -/
structure Generation where
  id : Bytes
  cache : Bytes
  zsh : Bytes
  sieve : Bytes

/-- `manifest` (`generation.c:177`). -/
def manifest (g : Generation) : Bytes :=
  cstr "\x7b\"schema\":1,\"generation\":\"" ++ g.id ++
    cstr "\",\"policy_sha256\":\"" ++ digestHex (digest g.cache) ++
    cstr "\",\"zsh_sha256\":\"" ++ digestHex (digest g.zsh) ++
    cstr "\",\"sieve_sha256\":\"" ++ digestHex (digest g.sieve) ++ cstr "\"\x7d\n"

/-- `validate_directory` (`generation.c:188`). -/
def validateDirectory (host : Host) (dir : Directory) (id : Bytes) : Except ℕ Generation :=
  if dir.extra ∨ ∃ f ∈ [Product.policyBin, .filtersZsh, .filtersSieve, .manifestJson],
      dir.files f = none then .error 5
  else do
    let cache ← load host (dir.files .policyBin) cacheFileMax
    let zsh ← load host (dir.files .filtersZsh) cacheMax
    let sieve ← load host (dir.files .filtersSieve) cacheMax
    let actual ← load host (dir.files .manifestJson) 4096
    (cacheValidate cache (some zsh) (some sieve) none).mapError Failure.rc
    let g : Generation := ⟨id, cache, zsh, sieve⟩
    if digestHex ((cache.drop 24).take 32) ≠ id ∨ actual ≠ manifest g then .error 5 else .ok g

/-- `directory` (`generation.c:90`) and `validate_directory` on a generation. -/
def openGeneration (host : Host) (d : Disk) (id : Bytes) : Except ℕ Generation :=
  match d.generations id with
  | some dir => if dir.mode.permissions = directoryMode then validateDirectory host dir id else .error 5
  | none => .error 5

end JaroFilter
