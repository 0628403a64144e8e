import JaroFilter.Contact.Source
import JaroFilter.Generation.Compile

/-!
# Collecting a snapshot (`snapshot.c:177-516`)

What `jf_snapshot_collect` and `jf_snapshot_overlay` read and in which order, over a
tree of files that answers each look as it likes. The run of the exporter is a
function of the exporter's bytes and of the book. An export of an earlier
inventory takes its place where nothing it depends on has changed.
-/

namespace JaroFilter

open Lib

/-! ### What there is to read -/

/-- A path or another C string. -/
abbrev CText := {s : Bytes // 0 ∉ s}

/-- `join` (`snapshot.c:14`). -/
def joinPath (a b : CText) : CText := ⟨a.1 ++ 47 :: b.1, by simp [a.2, b.2]⟩

/-- `lstat`, with `readlink` for a link. -/
inductive LinkLook where
  | missing | refused | directory | file
  | link (target : Bytes)

/-- `stat`. -/
inductive Status where
  | missing | refused | directory | file | other

/-- `open`, `fstat` and `read`; `changed` where the second `fstat` differs. -/
inductive Opened where
  | missing | refused
  | data (bytes : Bytes) (changed : Bool)

/-- `opendir` and `readdir`. -/
inductive Listing where
  | missing | refused
  | names (l : List CText)

structure Tree where
  lstat : CText → LinkLook
  stat : CText → Status
  opened : CText → Opened
  listing : CText → Listing
  /-- `access` for execution. -/
  executable : CText → Bool

/-- The arguments and the environment of a command. -/
structure Site where
  root : CText
  accounts : Option CText
  profile : Option CText
  compiler : CText
  /-- The directories of `PATH`, or of the default path. -/
  path : List CText
  /-- What the exporter of these bytes writes for a book, unless it fails. -/
  exporter : Bytes → Bytes → Option Bytes

/-! ### Failures -/

/-- Where a collection ends early; the profile parser reports for itself. -/
inductive CollectError where
  | memory | io | changed
  | profile (f : Failure)

/-- The status (`snapshot.c:489-496`). -/
def CollectError.rc : CollectError → ℕ
  | .memory => 3
  | .io => 3
  | .changed => 6
  | .profile f => f.rc

/-- The text of the error. -/
def CollectError.text : CollectError → Bytes × Bytes
  | .memory => (cstr "E_MEMORY", cstr "snapshot allocation/size limit")
  | .io => (cstr "E_IO", cstr "cannot snapshot input or export addressbook")
  | .changed => (cstr "E_SNAPSHOT_CHANGED", cstr "input changed while reading")
  | .profile f => (cstr "E_PROFILE", f.error.detail)

/-- An error with the path in `error_path`. -/
structure CollectFailure where
  error : CollectError
  path : Bytes

/-! ### The inventory -/

/-- The snapshot as far as it is collected. -/
structure Gathering where
  sources : List Source
  dependencies : List Dependency
  warnings : Bytes
  errorPath : Bytes

/-- `jf_snapshot_dependency` (`snapshot.c:25`). -/
def dependencyAt (deps : List Dependency) (role path : Bytes) : Option Dependency :=
  deps.find? fun d => d.role == role && d.path == path

/-- `dep` (`snapshot.c:54`). -/
def Gathering.dep (g : Gathering) (role path : CText) (present : Bool) (bytes aux : Bytes) : Option Gathering :=
  if g.dependencies.length = dependencyMax then none
  else (bytesAdd cacheMax [] aux).map fun aux => { g with
    dependencies := g.dependencies ++ [{
      role := role.1
      path := path.1
      present
      digest := if present then digest bytes else zeroDigest
      auxiliary := aux
      role_nul := role.2
      path_nul := path.2
      digest_length := by split <;> simp [digest_length, zeroDigest] }] }

/-- `config` (`snapshot.c:68`). -/
def Gathering.config (g : Gathering) (role : CText) (value : Bytes) : Option Gathering :=
  g.dep role ⟨[], by simp⟩ true value value

/-- The configuration records of a list, in turn. -/
def Gathering.configs (g : Gathering) : List (CText × Bytes) → Option Gathering
  | [] => some g
  | c :: cs => (g.config c.1 c.2).bind fun g => g.configs cs

/-- `source` (`snapshot.c:106`). -/
def Gathering.source (g : Gathering) (kind : SourceKind) (identity path : CText) (data : Bytes) :
    Option Gathering :=
  if g.sources.length = ruleMax then none
  else some { g with sources := g.sources ++ [⟨kind, identity.1, path.1, data, identity.2, path.2⟩] }

/-- `link_dep` (`snapshot.c:187`). -/
def Gathering.linkDep (g : Gathering) (tree : Tree) (role path : CText) : Option Gathering :=
  match tree.lstat path with
  | .missing => some g
  | .refused => none
  | .link target =>
    if lineMax < target.length then none
    else g.dep ⟨cstr "link." ++ role.1, by simp [role.2]; decide⟩ path true target target
  | _ => some g

/-- An early end, with the path that is named in it. -/
def Gathering.fail {α : Type} (g : Gathering) (error : CollectError) : Except CollectFailure α :=
  .error ⟨error, g.errorPath⟩

def Gathering.orFail {α : Type} (g : Gathering) (error : CollectError) : Option α → Except CollectFailure α
  | some a => .ok a
  | none => g.fail error

def accountRole : CText := ⟨cstr "input.account", by decide⟩

/-- What is behind the overrides (`snapshot.c:214-235`). -/
def Gathering.read (g : Gathering) (tree : Tree) (role path : CText) (required : Bool) :
    Except CollectFailure (Bytes × Gathering) := do
  let g ← g.orFail .io (g.linkDep tree role path)
  match tree.opened path with
  | .missing =>
    if role = accountRole then g.fail .changed
    else match required, tree.lstat path with
      | false, .missing => do
        let g ← g.orFail .io (g.dep role path false [] [])
        return ([], g)
      | _, _ => g.fail .io
  | .refused => g.fail .io
  | .data bytes changed =>
    if inputMax < bytes.length then g.fail .io
    else if changed then g.fail .changed
    else do
      let g ← g.orFail .io (g.dep role path true bytes [])
      return (bytes, g)

/-- `input` (`snapshot.c:203`): the contents and the snapshot behind the call. -/
def Gathering.input (g : Gathering) (tree : Tree) (overrides : List (CText × Bytes)) (role path : CText)
    (required : Bool) : Except CollectFailure (Bytes × Gathering) :=
  let g := { g with errorPath := path.1 }
  match overrides.find? fun o => o.1 == path with
  | some o => do
    let bytes ← g.orFail .io (bytesAdd cacheMax [] o.2)
    let g ← g.orFail .io (g.dep role path true o.2 [])
    return (bytes, g)
  | none => g.read tree role path required

/-! ### Accounts -/

/-- `inventory_item` (`snapshot.c:243`). -/
def inventoryItem (b : Bytes) (path : CText) (kind : Byte) : Option Bytes :=
  (bytesAdd cacheMax b [kind]).bind fun b => bytesAdd cacheMax b (path.1 ++ [0])

/-- The identity of an account file; external accounts keep no slash behind the colon. -/
def accountIdentity (external : Bool) (relative : CText) : CText :=
  if external then ⟨cstr "accounts:" ++ relative.1, by simp [relative.2]; decide⟩
  else joinPath ⟨cstr "Accounts", by decide⟩ relative

/-- One name of a directory (`snapshot.c:271-292`); `walk` goes through a directory below. -/
def accountsItem (tree : Tree) (overrides : List (CText × Bytes)) (base : CText) (external : Bool)
    (walk : CText → Gathering × Bytes → Except CollectFailure (Gathering × Bytes)) (relative : CText)
    (x : Gathering × Bytes) (name : CText) : Except CollectFailure (Gathering × Bytes) :=
  let rel := if relative.1 = [] then name else joinPath relative name
  let path := joinPath base rel
  match tree.lstat path with
  | .missing => x.1.fail .changed
  | .refused => x.1.fail .io
  | .directory => do
    let inventory ← x.1.orFail .io (inventoryItem x.2 rel 100)
    walk rel (x.1, inventory)
  | entry =>
    match tree.stat path with
    | .file => do
      let inventory ← x.1.orFail .io (inventoryItem x.2 rel (match entry with | .link _ => 108 | _ => 102))
      let (bytes, g) ← x.1.input tree overrides accountRole path true
      let g ← g.orFail .io (g.source .account (accountIdentity external rel) path bytes)
      return (g, inventory)
    | _ => x.1.fail .io

/-- `accounts_walk` (`snapshot.c:249`) with the levels that are left. -/
def accountsWalk (tree : Tree) (overrides : List (CText × Bytes)) (base : CText) (external : Bool) :
    ℕ → CText → Gathering × Bytes → Except CollectFailure (Gathering × Bytes)
  | 0, _, x => x.1.fail .io
  | left + 1, relative, x =>
    match tree.listing (if relative.1 = [] then base else joinPath base relative) with
    | .missing => x.1.fail .changed
    | .refused => x.1.fail .io
    | .names l =>
      if ruleMax < l.length then x.1.fail .io
      else (qsort (fun a b : CText => strcmp a.1 b.1) l).foldlM
        (accountsItem tree overrides base external (accountsWalk tree overrides base external left) relative) x

/-! ### Exports -/

def isBlankReturn (c : Byte) : Bool := c == 32 || c == 9 || c == 13

/-- One row of a book as far as its header goes (`snapshot.c:312-331`). -/
def bookHeaderRow (header : ℕ) (row : Bytes) : Option ℕ :=
  let t := (row.dropWhile isBlankReturn).rdropWhile isBlankReturn
  if row.any fun c => (c < 32 && c != 9 && c != 13) || c == 127 then none
  else if t = [] ∨ t.head? = some 35 then some header
  else if header = 0 ∧ t = cstr "[format]" then some 1
  else if header = 1 ∧ t = cstr "program=abook" then some 2
  else if header = 2 ∧ (t = cstr "version=0.6.0" ∨ t = cstr "version=0.6.1") then some 3
  else none

/-- `empty_book` (`snapshot.c:318`). -/
def emptyBook (raw : Bytes) : Bool :=
  match (lines raw).foldlM bookHeaderRow 0 with
  | some header => header == 0 || header == 3
  | none => false

/-- The mailbox column of one row of the exporter's output (`snapshot.c:375-388`). -/
def exportRow (out row : Bytes) : Option Bytes :=
  let t := if row.getLast? = some 13 then row.dropLast else row
  if t = [] then some out
  else if 9 ∉ t then none
  else (bytesAdd cacheMax out (t.takeWhile (· != 9))).bind fun out => bytesAdd cacheMax out [10]

/-- `export_book` (`snapshot.c:335`). -/
def exportBook (site : Site) (executable raw : Bytes) : Option Bytes :=
  if emptyBook raw then some []
  else (site.exporter executable raw).bind fun result =>
    if inputMax < result.length then none else (lines result).foldlM exportRow []

/-- `same_dependency` (`snapshot.c:73`). -/
def sameDependency : Option Dependency → Option Dependency → Bool
  | some a, some b => a.present == b.present && (!a.present || a.digest == b.digest) && a.auxiliary == b.auxiliary
  | _, _ => false

/-- `same_optional` (`snapshot.c:80`). -/
def sameOptional (a b : Option Dependency) : Bool := (a.isNone && b.isNone) || sameDependency a b

def exporterRole : CText := ⟨cstr "input.exporter", by decide⟩

def compilerRole : CText := ⟨cstr "input.compiler", by decide⟩

/-- The settings an export depends on (`snapshot.c:90-92`). -/
def exportSettings : List Bytes := [
  cstr "config.exporter-flags", cstr "config.exporter-locale", cstr "config.compiler-build",
  cstr "config.cache-version", cstr "config.policy-version", cstr "config.parser", cstr "config.address-case",
  cstr "config.address-normalization", cstr "config.contact-validation", cstr "config.locale",
  cstr "config.regex-dialect", cstr "config.sieve-comparator"]

/-- `reusable_export` (`snapshot.c:87`): the earlier export, where it can be taken. -/
def reusableExport (now prior : List Dependency) (role exportRole path exporter compiler : CText) :
    Option Dependency :=
  match dependencyAt prior role.1 path.1, dependencyAt prior exportRole.1 path.1 with
  | some book, some exported =>
    let same := fun (role path : Bytes) => sameDependency (dependencyAt prior role path) (dependencyAt now role path)
    if book.present && exported.present && same role.1 path.1 &&
        same exporterRole.1 exporter.1 && same compilerRole.1 compiler.1 &&
        sameOptional (dependencyAt prior (cstr "link.input.exporter") exporter.1)
          (dependencyAt now (cstr "link.input.exporter") exporter.1) &&
        sameOptional (dependencyAt prior (cstr "link.input.compiler") compiler.1)
          (dependencyAt now (cstr "link.input.compiler") compiler.1) &&
        exportSettings.all (fun setting => same setting []) &&
        digest exported.auxiliary == exported.digest
    then some exported
    else none
  | _, _ => none

/-- A book with its roles (`snapshot.c:458-460`). -/
structure BookRoles where
  name : CText
  role : CText
  exportRole : CText
  kind : SourceKind

def whitelistBook : BookRoles where
  name := ⟨cstr "whitelist.abook", whitelist_nul⟩
  role := ⟨cstr "input.whitelist", by decide⟩
  exportRole := ⟨cstr "export.whitelist", by decide⟩
  kind := .known

def blacklistBook : BookRoles where
  name := ⟨cstr "blacklist.abook", by decide⟩
  role := ⟨cstr "input.blacklist", by decide⟩
  exportRole := ⟨cstr "export.blacklist", by decide⟩
  kind := .blacklist

/-- `executable` (`snapshot.c:296`) for a name without a slash. -/
def findExecutable (tree : Tree) (path : List CText) (name : CText) : Option CText :=
  (path.map fun dir => joinPath (if dir.1 = [] then ⟨[46], by decide⟩ else dir) name).find? tree.executable

/-- The exporter with its contents; it is looked for with the first book that is there. -/
def Gathering.exporter (g : Gathering) (site : Site) (tree : Tree) (overrides : List (CText × Bytes)) :
    Option (CText × Bytes) → Except CollectFailure ((CText × Bytes) × Gathering)
  | some e => .ok (e, g)
  | none => do
    let e ← g.orFail .io (findExecutable tree site.path ⟨cstr "abook", by decide⟩)
    let (bytes, g) ← g.input tree overrides exporterRole e true
    return ((e, bytes), g)

/-- The export of a book that is there (`snapshot.c:471-476`). -/
def Gathering.exported (g : Gathering) (site : Site) (prior : List Dependency) (b : BookRoles) (path : CText)
    (exporter : CText × Bytes) (raw : Bytes) : Except CollectFailure Bytes :=
  match reusableExport g.dependencies prior b.role b.exportRole path exporter.1 site.compiler with
  | some earlier => g.orFail .io (bytesAdd cacheMax [] earlier.auxiliary)
  | none => g.orFail .io (exportBook site exporter.2 raw)

/-- The export as a dependency and as a source (`snapshot.c:478-482`). -/
def Gathering.finishBook (g : Gathering) (b : BookRoles) (path : CText) (present : Bool) (exported : Bytes) :
    Except CollectFailure Gathering := do
  let g ← g.orFail .memory (g.dep b.exportRole path present exported exported)
  let (warnings, sources) ← g.orFail .memory
    (contactSource b.kind b.name.1 path.1 b.name.2 path.2 g.warnings g.sources exported)
  return { g with
    warnings
    sources }

/-- One book (`snapshot.c:457-485`). -/
def collectBook (site : Site) (tree : Tree) (prior : List Dependency) (overrides : List (CText × Bytes))
    (b : BookRoles) (x : Gathering × Option (CText × Bytes)) :
    Except CollectFailure (Gathering × Option (CText × Bytes)) := do
  let path := joinPath site.root b.name
  let (raw, g) ← x.1.input tree overrides b.role path false
  if (dependencyAt g.dependencies b.role.1 path.1).any Dependency.present then do
    let (exporter, g) ← g.exporter site tree overrides x.2
    let g := { g with errorPath := path.1 }
    let exported ← g.exported site prior b path exporter raw
    let g ← g.finishBook b path true exported
    return (g, some exporter)
  else do
    let g ← g.finishBook b path false []
    return (g, x.2)

/-! ### The collection -/

theorem normalization_nul : 0 ∉ cstr "config.address-normalization" := by decide

theorem qualification_nul : 0 ∉ cstr "config.regex-qualification" := by decide

theorem filters_nul : 0 ∉ cstr "Filters.txt" := by decide

/-- The settings every snapshot has (`snapshot.c:412-419`). -/
def fixedSettings : List (CText × Bytes) := [
  (⟨cstr "config.compiler-build", by decide⟩, compilerId),
  (⟨cstr "config.cache-version", by decide⟩, cstr "1"),
  (⟨cstr "config.policy-version", by decide⟩, cstr "1"),
  (⟨cstr "config.regex-dialect", by decide⟩, cstr "posix-ere-c-icase-v1"),
  (⟨cstr "config.locale", by decide⟩, cstr "C"),
  (⟨cstr "config.parser", by decide⟩, cstr "bounded-rfc822-v2"),
  (⟨cstr "config.address-normalization", normalization_nul⟩, addressNormalization),
  (⟨cstr "config.contact-validation", by decide⟩, cstr "warn-skip-invalid-export-v1"),
  (⟨cstr "config.address-case", by decide⟩, cstr "ascii-mailbox-casemap-v1"),
  (⟨cstr "config.sieve-comparator", by decide⟩, cstr "i;ascii-casemap"),
  (⟨cstr "config.exporter-locale", by decide⟩, cstr "C"),
  (⟨cstr "config.regex-catalogue", catalogue_nul⟩, regexCatalogue),
  (⟨cstr "config.regex-qualification", qualification_nul⟩, regexQualification),
  (⟨cstr "config.exporter-flags", by decide⟩, List.flatten
    ([cstr "--config", cstr "/dev/null", cstr "--datafile", cstr "SNAPSHOT-FD", cstr "--mutt-query", []].map
      (· ++ [0])))]

/-- The mappings with the defaults they override (`snapshot.c:442-451`). -/
def mappingText (p : Profile) : Bytes :=
  List.flatten ([cstr "known", cstr "INBOX", cstr "spam", cstr "Spam"].map (· ++ [0])) ++
    p.mappings.flatMap fun m => m.logical ++ 0 :: (m.mailbox ++ [0])

/-- The settings of a profile (`snapshot.c:433-452`). -/
def profileSettings (bytes : Bytes) (p : Profile) : List (CText × Bytes) := [
  (⟨cstr "config.profile", by decide⟩, bytes),
  (⟨cstr "config.profile-id", by decide⟩, p.id.text),
  (⟨cstr "config.namespace-prefix", by decide⟩, p.namespacePrefix),
  (⟨cstr "config.namespace-separator", by decide⟩, p.separator),
  (⟨cstr "config.create-mailboxes", by decide⟩, cstr (if p.create then "yes" else "no")),
  (⟨cstr "config.capabilities", by decide⟩, cstr (if p.regex then
      if p.mailbox then "fileinto,mailbox,regex" else "fileinto,regex"
    else if p.mailbox then "fileinto,mailbox" else "fileinto")),
  (⟨cstr "config.mailbox-mappings", by decide⟩, mappingText p)]

/-- The accounts (`snapshot.c:424-431`). -/
def collectAccounts (site : Site) (tree : Tree) (overrides : List (CText × Bytes)) (g : Gathering) :
    Except CollectFailure Gathering := do
  let role : CText := ⟨cstr "inventory.accounts", by decide⟩
  let accounts := site.accounts.getD (joinPath site.root ⟨cstr "Accounts", by decide⟩)
  let g := { g with errorPath := accounts.1 }
  let g ← g.orFail .io (g.linkDep tree role accounts)
  match tree.stat accounts with
  | .missing => g.orFail .io (g.dep role accounts false [] [])
  | .directory => do
    let (g, inventory) ← accountsWalk tree overrides accounts site.accounts.isSome 65 ⟨[], by simp⟩ (g, [])
    g.orFail .memory (g.dep role accounts true inventory inventory)
  | _ => g.fail .io

/-- `collect` up to the books (`snapshot.c:409-452`). -/
def collectHead (site : Site) (tree : Tree) (overrides : List (CText × Bytes)) :
    Except CollectFailure (Gathering × Profile) := do
  let g : Gathering := ⟨[], [], [], site.root.1⟩
  let g ← g.orFail .io (g.linkDep tree ⟨cstr "root", by decide⟩ site.root)
  let g ← g.orFail .memory (g.configs fixedSettings)
  let (_, g) ← g.input tree overrides compilerRole site.compiler true
  let filters := joinPath site.root ⟨cstr "Filters.txt", filters_nul⟩
  let (bytes, g) ← g.input tree overrides ⟨cstr "input.filters", by decide⟩ filters true
  let g ← g.orFail .memory (g.source .filters ⟨cstr "Filters.txt", filters_nul⟩ filters bytes)
  let aliases := joinPath site.root ⟨cstr "Aliases.txt", by decide⟩
  let (bytes, g) ← g.input tree overrides ⟨cstr "input.aliases", by decide⟩ aliases false
  let g ← g.orFail .memory (g.source .aliases ⟨cstr "Aliases.txt", by decide⟩ aliases bytes)
  let g ← collectAccounts site tree overrides g
  let profilePath := site.profile.getD (joinPath site.root ⟨cstr "FilterProfile.txt", by decide⟩)
  let (bytes, g) ← g.input tree overrides ⟨cstr "input.profile", by decide⟩ profilePath site.profile.isSome
  match profileParse bytes with
  | .error f => g.fail (.profile f)
  | .ok profile => do
    let g ← g.orFail .memory (g.configs (profileSettings bytes profile))
    return (g, profile)

/-- `collect` (`snapshot.c:397`), for `jf_snapshot_collect` without overrides and for
`jf_snapshot_overlay` without an earlier inventory. -/
def collect (site : Site) (tree : Tree) (prior : List Dependency) (overrides : List (CText × Bytes)) :
    Except CollectFailure (Gathering × Profile) := do
  let (g, profile) ← collectHead site tree overrides
  let x ← collectBook site tree prior overrides whitelistBook (g, none)
  let x ← collectBook site tree prior overrides blacklistBook x
  return (x.1, profile)

end JaroFilter
