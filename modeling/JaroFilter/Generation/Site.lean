import JaroFilter.Generation.Processes
import JaroFilter.Generation.Reuse
import JaroFilter.Import.Script

/-!
# Commands over a collected root

The pipeline of one site: `jf_snapshot_collect` and `jf_snapshot_overlay` over the four
inputs of the root and files that stay as they are, `jf_policy_parse`,
`jf_products_build` and `jf_import_merge`; what an import recovers is any function of the
profile, as `importedPolicy` is. Its inventory depends on what is in the inputs alone, and
an overlay takes the inventory that the replaced inputs have.
-/

namespace JaroFilter

open Lib

/-! ### Two collections that both succeed -/

/-- They agree where both succeed. -/
def Both {ε α : Type} (x y : Except ε α) : Prop := ∀ a b, x = .ok a → y = .ok b → a = b

section Both

variable {ε α β : Type} {x y : Except ε α}

theorem both_refl (x : Except ε α) : Both x x := fun _ _ ha hb => Except.ok.inj (ha.symm.trans hb)

theorem both_of_eq (h : x = y) : Both x y := h ▸ both_refl x

theorem both_bind {f f' : α → Except ε β} (h : Both x y) (hf : ∀ a, Both (f a) (f' a)) :
    Both (x >>= f) (y >>= f') := by
  intro b b' hb hb'
  obtain ⟨a, ha, hb⟩ := bind_eq_ok_iff.mp hb
  obtain ⟨a', ha', hb'⟩ := bind_eq_ok_iff.mp hb'
  cases h a a' ha ha'
  exact hf a b b' hb hb'

theorem both_foldlM {γ : Type} {f f' : α → γ → Except ε α} (hf : ∀ a c, Both (f a c) (f' a c)) (l : List γ) (a : α) :
    Both (l.foldlM f a) (l.foldlM f' a) := by
  induction l generalizing a with
  | nil => exact both_refl _
  | cons c l ih =>
    rw [List.foldlM_cons, List.foldlM_cons]
    exact both_bind (hf a c) ih

end Both

/-! ### The inputs in their root -/

theorem aliases_nul : 0 ∉ cstr "Aliases.txt" := by decide

theorem accounts_nul : 0 ∉ cstr "Accounts" := by decide

def importFileAt : Fin 4 → ImportFile
  | 0 => .filters
  | 1 => .aliases
  | 2 => .whitelist
  | 3 => .blacklist

def inputName (i : Fin 4) : CText := ⟨importName (importFileAt i), importName_nul _⟩

def Site.input (site : Site) (i : Fin 4) : CText := joinPath site.root (inputName i)

/-- The input at a path. -/
def Site.inputAt (site : Site) (path : CText) : Option (Fin 4) :=
  (List.finRange 4).find? fun i => site.input i == path

def inputLink : Option Node → LinkLook
  | none => .missing
  | some (.file ..) => .file
  | some (.link target) => .link target
  | some .other => .directory

/-- What `stat` says; `behind` is for the target of a link. -/
def inputStatus (behind : Status) : Option Node → Status
  | none => .missing
  | some (.file ..) => .file
  | some (.link _) => behind
  | some .other => .other

def inputOpened (host : Host) (behind : Opened) : Option Node → Opened
  | none => .missing
  | some (.file data mode _) => if host.canRead mode.permissions then .data data false else .refused
  | some (.link _) => behind
  | some .other => .refused

/-- What is not among `texts` cannot be read. -/
def Opened.among (texts : Set Bytes) [DecidablePred (· ∈ texts)] : Opened → Opened
  | .data bytes changed => if bytes ∈ texts then .data bytes changed else .refused
  | o => o

/-- The files of a command: the inputs, and the others as in `tree`. -/
def Site.rooted (site : Site) (host : Host) (tree : Tree) (texts : Set Bytes) [DecidablePred (· ∈ texts)]
    (inputs : Fin 4 → Option Node) : Tree where
  lstat path :=
    match site.inputAt path with
    | some i => inputLink (inputs i)
    | none => tree.lstat path
  stat path :=
    match site.inputAt path with
    | some i => inputStatus (tree.stat path) (inputs i)
    | none => tree.stat path
  opened path := Opened.among texts <|
    match site.inputAt path with
    | some i => inputOpened host (tree.opened path) (inputs i)
    | none => tree.opened path
  listing := tree.listing
  executable := tree.executable

/-- The directory of the accounts. -/
def Site.accountsPath (site : Site) : CText := site.accounts.getD (joinPath site.root ⟨cstr "Accounts", accounts_nul⟩)

/-- No input is the root, the directory of the accounts or below it. -/
structure Site.Apart (site : Site) : Prop where
  accounts : ∀ i, site.input i ≠ site.accountsPath
  below : ∀ i relative, site.input i ≠ joinPath site.accountsPath relative

section Rooted

variable {site : Site} {host : Host} {tree : Tree} {texts : Set Bytes} [DecidablePred (· ∈ texts)] {a b : Fin 4 → Option Node}

theorem input_inj (site : Site) {i j : Fin 4} (h : site.input i = site.input j) : i = j := by
  have htext := congrArg Subtype.val h
  simp only [Site.input, joinPath] at htext
  have hname : (inputName i).1 = (inputName j).1 := by simpa using htext
  have hall : ∀ i j : Fin 4, (inputName i).1 = (inputName j).1 → i = j := by decide
  exact hall i j hname

theorem inputAt_input (site : Site) (i : Fin 4) : site.inputAt (site.input i) = some i := by
  unfold Site.inputAt
  cases h : (List.finRange 4).find? fun j => site.input j == site.input i with
  | none =>
    rw [List.find?_eq_none] at h
    exact absurd (beq_self_eq_true _) (h i (List.mem_finRange i))
  | some j =>
    have hj := List.find?_some h
    rw [input_inj site (eq_of_beq hj)]

theorem inputAt_some {path : CText} {i : Fin 4} (h : site.inputAt path = some i) : path = site.input i := by
  unfold Site.inputAt at h
  have hi := List.find?_some h
  exact (eq_of_beq hi).symm

theorem inputAt_none {path : CText} (h : ∀ i, site.input i ≠ path) : site.inputAt path = none :=
  List.find?_eq_none.mpr fun i _ hbeq => h i (eq_of_beq hbeq)

theorem among_data {o : Opened} {bytes : Bytes} {changed : Bool} (h : o.among texts = .data bytes changed) :
    o = .data bytes changed ∧ bytes ∈ texts := by
  cases o with
  | data bytes' changed' =>
    rw [Opened.among] at h
    split at h
    · rename_i hin
      cases h
      exact ⟨rfl, hin⟩
    · cases h
  | _ => cases h

theorem readsIn_rooted {overrides : List (CText × Bytes)} (h : ∀ o ∈ overrides, o.2 ∈ texts) :
    ReadsIn texts (site.rooted host tree texts a) overrides :=
  ⟨fun _ _ _ hopened => (among_data hopened).2, h⟩

/-- A command sees of the inputs neither link counts nor special bits. -/
theorem rooted_plain (h : ∀ i, (a i).map Node.plain = (b i).map Node.plain) :
    site.rooted host tree texts a = site.rooted host tree texts b := by
  have hlink : ∀ n : Option Node, inputLink (n.map Node.plain) = inputLink n := fun n => by
    obtain _ | (_ | _ | _) := n <;> rfl
  have hstatus : ∀ behind (n : Option Node), inputStatus behind (n.map Node.plain) = inputStatus behind n :=
    fun behind n => by obtain _ | (_ | _ | _) := n <;> rfl
  have hopened : ∀ behind (n : Option Node), inputOpened host behind (n.map Node.plain) = inputOpened host behind n :=
    fun behind n => by obtain _ | (_ | _ | _) := n <;> rfl
  unfold Site.rooted
  congr 1
  · funext path
    split
    · rename_i i _
      rw [← hlink, h, hlink]
    · rfl
  · funext path
    split
    · rename_i i _
      rw [← hstatus, h, hstatus]
    · rfl
  · funext path
    split
    · rename_i i _
      rw [← hopened, h, hopened]
    · rfl

/-! ### An overlay and the replaced inputs -/

/-- The overrides of `jf_snapshot_overlay`. -/
def Site.overrides (site : Site) (changes : Fin 4 → Option Bytes) : List (CText × Bytes) :=
  (List.finRange 4).filterMap fun i => (changes i).map fun data => (site.input i, data)

/-- The inputs `b` are the inputs `a` with these changes. -/
def Replaced (changes : Fin 4 → Option Bytes) (a b : Fin 4 → Option Node) : Prop :=
  ∀ i, match changes i with
    | none => (b i).map Node.plain = (a i).map Node.plain
    | some data => ∃ mode, b i = some (.file data mode 1)

theorem mem_overrides {changes : Fin 4 → Option Bytes} {o : CText × Bytes} :
    o ∈ site.overrides changes ↔ ∃ i, changes i = some o.2 ∧ o.1 = site.input i := by
  unfold Site.overrides
  rw [List.mem_filterMap]
  constructor
  · rintro ⟨i, -, h⟩
    obtain ⟨data, hdata, rfl⟩ := Option.map_eq_some_iff.mp h
    exact ⟨i, hdata, rfl⟩
  · rintro ⟨i, hdata, hpath⟩
    exact ⟨i, List.mem_finRange i, by rw [hdata, ← hpath]; rfl⟩

theorem find_overrides (changes : Fin 4 → Option Bytes) (path : CText) :
    ((site.overrides changes).find? fun o => o.1 == path) =
      (site.inputAt path).bind fun i => (changes i).map fun data => (path, data) := by
  cases hfind : (site.overrides changes).find? fun o => o.1 == path with
  | some o =>
    obtain ⟨i, hdata, hpath⟩ := mem_overrides.mp (List.mem_of_find?_eq_some hfind)
    have hbeq := List.find?_some hfind
    have ho : o.1 = path := eq_of_beq hbeq
    rw [← ho, hpath, inputAt_input, Option.bind_some, hdata, Option.map_some, ← hpath]
  | none =>
    rw [List.find?_eq_none] at hfind
    cases hat : site.inputAt path with
    | none => rfl
    | some i =>
      cases hdata : changes i with
      | none => rw [Option.bind_some, hdata, Option.map_none]
      | some data =>
        have hpath := inputAt_some hat
        exact absurd (beq_iff_eq.mpr hpath.symm) (hfind (site.input i, data) (mem_overrides.mpr ⟨i, hdata, rfl⟩))

theorem read_congr {t t' : Tree} (g : Gathering) (role : CText) {path : CText} (required : Bool)
    (hlstat : t.lstat path = t'.lstat path) (hopened : t.opened path = t'.opened path) :
    g.read t role path required = g.read t' role path required := by
  unfold Gathering.read Gathering.linkDep
  rw [hlstat, hopened]

/-- An input from its override, and from its file. -/
theorem both_input {changes : Fin 4 → Option Bytes} (h : Replaced changes a b) (g : Gathering) (role path : CText)
    (required : Bool) :
    Both (g.input (site.rooted host tree texts a) (site.overrides changes) role path required)
      (g.input (site.rooted host tree texts b) [] role path required) := by
  unfold Gathering.input
  dsimp only
  rw [find_overrides, List.find?_nil]
  cases hat : site.inputAt path with
  | none =>
    refine both_of_eq (read_congr _ _ _ ?_ ?_)
    · simp only [Site.rooted, hat]
    · simp only [Site.rooted, hat]
  | some i =>
    have hi := h i
    rw [Option.bind_some]
    cases hc : changes i with
    | none =>
      rw [hc] at hi
      have hsame : ∀ n : Option Node, inputLink (n.map Node.plain) = inputLink n ∧
          inputOpened host (tree.opened path) (n.map Node.plain) = inputOpened host (tree.opened path) n := fun n => by
        obtain _ | (_ | _ | _) := n <;> exact ⟨rfl, rfl⟩
      refine both_of_eq (read_congr _ _ _ ?_ ?_)
      · simp only [Site.rooted, hat]
        rw [← (hsame (a i)).1, ← (hsame (b i)).1, hi]
      · simp only [Site.rooted, hat]
        rw [← (hsame (a i)).2, ← (hsame (b i)).2, hi]
    | some data =>
      rw [hc] at hi
      obtain ⟨mode, hfile⟩ := hi
      intro x y hx hy
      rw [Option.map_some] at hx
      obtain ⟨bytes, hbytes, hx⟩ := bind_eq_ok_iff.mp hx
      obtain ⟨g', hg, hx⟩ := bind_eq_ok_iff.mp hx
      cases hx
      obtain rfl : bytes = data := by simpa using bytesAdd_some (orFail_ok hbytes)
      have hlink : Gathering.linkDep { g with errorPath := path.1 } (site.rooted host tree texts b) role path =
          some { g with errorPath := path.1 } := by
        simp only [Gathering.linkDep, Site.rooted, hat, hfile, inputLink]
      have hopened : (site.rooted host tree texts b).opened path =
          Opened.among texts (if host.canRead mode.permissions then .data bytes false else .refused) := by
        simp only [Site.rooted, hat, hfile, inputOpened]
      unfold Gathering.read at hy
      rw [hlink, hopened] at hy
      obtain ⟨g'', hg'', hy⟩ := bind_eq_ok_iff.mp hy
      cases orFail_ok hg''
      by_cases hreads : host.canRead mode.permissions = true
      swap
      · rw [if_neg hreads] at hy
        cases hy
      rw [if_pos hreads, Opened.among] at hy
      by_cases hin : bytes ∈ texts
      · rw [if_pos hin] at hy
        dsimp only at hy
        split at hy
        · cases hy
        · simp only [Bool.false_eq_true, if_false] at hy
          obtain ⟨g₂, hg₂, hy⟩ := bind_eq_ok_iff.mp hy
          cases hy
          rw [Except.ok.inj (hg.symm.trans hg₂)]
      · rw [if_neg hin] at hy
        cases hy

end Rooted

/-- Two trees, each with its overrides, of which a collection can tell the inputs only. -/
structure Alike (site : Site) (t t' : Tree) (overrides overrides' : List (CText × Bytes)) : Prop where
  input : ∀ (g : Gathering) (role path : CText) (required : Bool),
    Both (g.input t overrides role path required) (g.input t' overrides' role path required)
  listing : t.listing = t'.listing
  executable : t.executable = t'.executable
  root : t.lstat site.root = t'.lstat site.root
  accounts : t.lstat site.accountsPath = t'.lstat site.accountsPath ∧
    t.stat site.accountsPath = t'.stat site.accountsPath
  below : ∀ relative, t.lstat (joinPath site.accountsPath relative) = t'.lstat (joinPath site.accountsPath relative) ∧
    t.stat (joinPath site.accountsPath relative) = t'.stat (joinPath site.accountsPath relative)

section Alike

variable {site : Site} {t t' : Tree} {overrides overrides' : List (CText × Bytes)}

theorem Alike.item (h : Alike site t t' overrides overrides') (external : Bool)
    {walk walk' : CText → Gathering × Bytes → Except CollectFailure (Gathering × Bytes)}
    (hwalk : ∀ relative x, Both (walk relative x) (walk' relative x)) (relative : CText) (x : Gathering × Bytes)
    (name : CText) :
    Both (accountsItem t overrides site.accountsPath external walk relative x name)
      (accountsItem t' overrides' site.accountsPath external walk' relative x name) := by
  unfold accountsItem
  dsimp only
  rw [(h.below _).1, (h.below _).2]
  split
  · exact both_refl _
  · exact both_refl _
  · exact both_bind (both_refl _) fun inventory => hwalk _ _
  · split
    · exact both_bind (both_refl _) fun inventory => both_bind (h.input _ _ _ _) fun _ => both_refl _
    · exact both_refl _

theorem Alike.walk (h : Alike site t t' overrides overrides') (external : Bool) (left : ℕ) (relative : CText)
    (x : Gathering × Bytes) :
    Both (accountsWalk t overrides site.accountsPath external left relative x)
      (accountsWalk t' overrides' site.accountsPath external left relative x) := by
  induction left generalizing relative x with
  | zero => exact both_refl _
  | succ left ih =>
    unfold accountsWalk
    rw [h.listing]
    split
    · exact both_refl _
    · exact both_refl _
    · split
      · exact both_refl _
      · exact both_foldlM (fun x name => h.item external ih relative x name) _ _

theorem Alike.collectAccounts (h : Alike site t t' overrides overrides') (g : Gathering) :
    Both (collectAccounts site t overrides g) (collectAccounts site t' overrides' g) := by
  have hlink : ∀ (g : Gathering) (role : CText),
      g.linkDep t role site.accountsPath = g.linkDep t' role site.accountsPath := by
    intro g role
    rw [Gathering.linkDep, Gathering.linkDep, h.accounts.1]
  unfold JaroFilter.collectAccounts
  dsimp only
  refine both_bind (both_of_eq (congrArg _ (hlink _ _))) fun g => ?_
  rw [show t.stat (site.accounts.getD _) = t'.stat (site.accounts.getD _) from h.accounts.2]
  generalize t'.stat (site.accounts.getD _) = status
  cases status with
  | directory => exact both_bind (h.walk _ _ _ _) fun _ => both_refl _
  | _ => exact both_refl _

theorem Alike.head (h : Alike site t t' overrides overrides') :
    Both (collectHead site t overrides) (collectHead site t' overrides') := by
  unfold collectHead
  dsimp only
  refine both_bind (both_of_eq (by rw [Gathering.linkDep, Gathering.linkDep, h.root])) fun g => ?_
  refine both_bind (both_refl _) fun g => both_bind (h.input _ _ _ _) fun x => ?_
  refine both_bind (h.input _ _ _ _) fun x => both_bind (both_refl _) fun g => ?_
  refine both_bind (h.input _ _ _ _) fun x => both_bind (both_refl _) fun g => ?_
  exact both_bind (h.collectAccounts g) fun g => both_bind (h.input _ _ _ _) fun x => both_refl _

theorem Alike.book (h : Alike site t t' overrides overrides') (prior : List Dependency) (b : BookRoles)
    (x : Gathering × Option (CText × Bytes)) :
    Both (collectBook site t prior overrides b x) (collectBook site t' prior overrides' b x) := by
  have hexporter : ∀ (g : Gathering) (e : Option (CText × Bytes)),
      Both (g.exporter site t overrides e) (g.exporter site t' overrides' e) := by
    intro g e
    cases e with
    | some e => exact both_refl _
    | none =>
      unfold Gathering.exporter findExecutable
      rw [h.executable]
      exact both_bind (both_refl _) fun _ => both_bind (h.input _ _ _ _) fun _ => both_refl _
  unfold collectBook
  refine both_bind (h.input _ _ _ _) fun y => ?_
  dsimp only
  split
  · exact both_bind (hexporter _ _) fun _ => both_refl _
  · exact both_refl _

theorem Alike.collect (h : Alike site t t' overrides overrides') (prior : List Dependency) :
    Both (collect site t prior overrides) (collect site t' prior overrides') := by
  unfold JaroFilter.collect
  exact both_bind h.head fun _ => both_bind (h.book _ _ _) fun _ => both_bind (h.book _ _ _) fun _ => both_refl _

end Alike

theorem rooted_alike {site : Site} {host : Host} {tree : Tree} {texts : Set Bytes} [DecidablePred (· ∈ texts)]
    {changes : Fin 4 → Option Bytes} {a b : Fin 4 → Option Node} (hapart : site.Apart) (h : Replaced changes a b) :
    Alike site (site.rooted host tree texts a) (site.rooted host tree texts b) (site.overrides changes) [] := by
  have houtside : ∀ {path : CText}, (∀ i, site.input i ≠ path) →
      (site.rooted host tree texts a).lstat path = (site.rooted host tree texts b).lstat path ∧
        (site.rooted host tree texts a).stat path = (site.rooted host tree texts b).stat path := by
    intro path hpath
    simp only [Site.rooted, inputAt_none hpath, and_self]
  have hroot : ∀ i, site.input i ≠ site.root := by
    intro i heq
    have hlength := congrArg (fun c : CText => c.1.length) heq
    simp only [Site.input, joinPath, List.length_append, List.length_cons] at hlength
    omega
  exact ⟨both_input h, rfl, rfl, (houtside hroot).1, houtside hapart.accounts,
    fun relative => houtside fun i => hapart.below i relative⟩

/-! ### The pipeline -/

def snapshotOf : Except CollectFailure (Gathering × Profile) → Except ℕ Snapshot
  | .error f => .error f.error.rc
  | .ok (g, profile) => .ok ⟨g.sources, profile, g.dependencies⟩

/-- A snapshot, unless the script of its policy is not among `scripts`. -/
def Snapshot.among (posix : Posix) (scripts : Set Bytes) [DecidablePred (· ∈ scripts)] (s : Snapshot) :
    Except ℕ Snapshot :=
  match policyParse posix s.sources >>= fun policy => productsBuild policy s.profile s.dependencies with
  | .ok p => if p.sieve ∈ scripts then .ok s else .error 3
  | .error _ => .ok s

/-- The place in `jf_import_names`. -/
def ImportFile.number : ImportFile → ℕ
  | .filters => 0
  | .aliases => 1
  | .whitelist => 2
  | .blacklist => 3

theorem ImportFile.number_lt (file : ImportFile) : file.number < 4 := by
  cases file <;> decide

def ImportFile.index (file : ImportFile) : Fin 4 := ⟨file.number, file.number_lt⟩

/-- `jf_sieve_import` of one script, as a command calls it. -/
def importedPolicy (posix : Posix) (legacy : Bool) (input : Bytes) (profile : Profile) : Except ℕ Policy :=
  (sieveImport posix profile legacy input).mapError Failure.rc

/-- The pipeline of a site in a run that reads and imports these texts and builds these
scripts. What is not among them is refused as an unreadable file is, so a run with others
is one for other sets. -/
def Site.pipeline (site : Site) (host : Host) (tree : Tree) (texts scripts : Set Bytes)
    [DecidablePred (· ∈ texts)] [DecidablePred (· ∈ scripts)] (posix : Posix) (imported : Profile → Except ℕ Policy) : Pipeline where
  posix
  collect prior inputs :=
    snapshotOf (collect site (site.rooted host tree texts inputs) prior []) >>= Snapshot.among posix scripts
  overlay changes inputs :=
    if ∀ i, ∀ data ∈ changes i, data ∈ texts then
      snapshotOf (collect site (site.rooted host tree texts inputs) [] (site.overrides changes)) >>=
        Snapshot.among posix scripts
    else .error 3
  imported
  merge current imported original :=
    match importMerge current.rules imported.rules fun f => original f.index with
    | .error f => .error f.rc
    | .ok output => .ok fun i => output (importFileAt i)

section Pipeline

variable {site : Site} {host : Host} {tree : Tree} {texts scripts : Set Bytes} [DecidablePred (· ∈ texts)]
  [DecidablePred (· ∈ scripts)] {posix : Posix} {imported : Profile → Except ℕ Policy} {deps prior : List Dependency}
  {inputs : Fin 4 → Option Node} {s : Snapshot} {p : Products}

theorem snapshotOf_ok {x : Except CollectFailure (Gathering × Profile)} (h : snapshotOf x = .ok s) :
    ∃ g profile, x = .ok (g, profile) ∧ s = ⟨g.sources, profile, g.dependencies⟩ := by
  obtain _ | ⟨g, profile⟩ := x
  · cases h
  · cases h
    exact ⟨g, profile, rfl, rfl⟩

/-- The script of an accepted snapshot is among the scripts. -/
theorem among_ok {s' : Snapshot} (h : s.among posix scripts = .ok s') : s' = s ∧
    ∀ p, (policyParse posix s.sources >>= fun policy => productsBuild policy s.profile s.dependencies) = .ok p →
      p.sieve ∈ scripts := by
  unfold Snapshot.among at h
  split at h
  · rename_i p hp
    split at h
    · rename_i hin
      cases h
      refine ⟨rfl, fun p' hp' => ?_⟩
      obtain rfl : p = p' := Except.ok.inj (hp.symm.trans hp')
      exact hin
    · cases h
  · rename_i e he
    cases h
    exact ⟨rfl, fun p' hp' => (by cases he.symm.trans hp')⟩

theorem pipeline_collects
    (hs : snapshotOf (collect site (site.rooted host tree texts inputs) prior []) = .ok s)
    (hbuild : (site.pipeline host tree texts scripts posix imported).build s = .ok p) (hin : p.sieve ∈ scripts) :
    (site.pipeline host tree texts scripts posix imported).collect prior inputs = .ok s := by
  refine bind_eq_ok_iff.mpr ⟨s, hs, ?_⟩
  rw [Snapshot.among, show policyParse posix s.sources >>= _ = .ok p from mapError_eq_ok_iff.mp hbuild]
  exact if_pos hin

/-- What a snapshot of the pipeline is. -/
theorem pipeline_collect (h : (site.pipeline host tree texts scripts posix imported).collect prior inputs = .ok s) :
    ∃ g profile, collect site (site.rooted host tree texts inputs) prior [] = .ok (g, profile) ∧
      s = ⟨g.sources, profile, g.dependencies⟩ ∧
      ∀ p, (site.pipeline host tree texts scripts posix imported).build s = .ok p → p.sieve ∈ scripts := by
  obtain ⟨s', hs', h⟩ := bind_eq_ok_iff.mp h
  obtain ⟨rfl, hscript⟩ := among_ok h
  obtain ⟨g, profile, hcollect, hs⟩ := snapshotOf_ok hs'
  exact ⟨g, profile, hcollect, hs, fun p hp => hscript p (mapError_eq_ok_iff.mp hp)⟩

theorem pipeline_overlay {changes : Fin 4 → Option Bytes}
    (h : (site.pipeline host tree texts scripts posix imported).overlay changes inputs = .ok s) :
    ∃ g profile, (∀ o ∈ site.overrides changes, o.2 ∈ texts) ∧
      collect site (site.rooted host tree texts inputs) [] (site.overrides changes) = .ok (g, profile) ∧
      s = ⟨g.sources, profile, g.dependencies⟩ ∧
      ∀ p, (site.pipeline host tree texts scripts posix imported).build s = .ok p → p.sieve ∈ scripts := by
  simp only [Site.pipeline] at h
  split at h
  · rename_i hin
    obtain ⟨s', hs', h⟩ := bind_eq_ok_iff.mp h
    obtain ⟨rfl, hscript⟩ := among_ok h
    obtain ⟨g, profile, hcollect, hs⟩ := snapshotOf_ok hs'
    refine ⟨g, profile, fun o ho => ?_, hcollect, hs, fun p hp => hscript p (mapError_eq_ok_iff.mp hp)⟩
    obtain ⟨i, hdata, -⟩ := mem_overrides.mp ho
    exact hin i o.2 hdata
  · cases h

omit [DecidablePred (· ∈ texts)] [DecidablePred (· ∈ scripts)] in
/-- What a cache gives back of an inventory says no more than it. -/
theorem Faithful.stored (h : Faithful site texts deps) :
    Faithful site texts ((qsort depCompare deps).map Dependency.cleared) := by
  have hcleared : ∀ {d : Dependency}, d ∈ (qsort depCompare deps).map Dependency.cleared → d.present = true →
      d ∈ deps := by
    intro d hd hpresent
    obtain ⟨x, hx, rfl⟩ := List.mem_map.mp hd
    have hx := mem_qsort.mp hx
    unfold Dependency.cleared at hpresent ⊢
    split at hpresent
    · rename_i hp
      rw [if_pos hp]
      exact hx
    · rename_i hp
      exact absurd hpresent hp
  intro b hb book hbook exported hexported exporter hexporter hrole herole hxrole hpresent hepresent hxpresent
  exact h b hb book (hcleared hbook hpresent) exported (hcleared hexported hepresent) exporter
    (hcleared hexporter hxpresent) hrole herole hxrole hpresent hepresent hxpresent

/-- The generations that are built from an inventory whose exports are what the exporter says. -/
def Site.known (site : Site) (host : Host) (tree : Tree) (texts scripts : Set Bytes)
    [DecidablePred (· ∈ texts)] [DecidablePred (· ∈ scripts)] (posix : Posix) (imported : Profile → Except ℕ Policy) : Set Generation :=
  {g | ∃ s p, Faithful site texts s.dependencies ∧ (site.pipeline host tree texts scripts posix imported).build s = .ok p ∧
    p.sieve ∈ scripts ∧ p.generation = g}

theorem collect_plain (hdistinct : Set.InjOn digest texts) (hprior : Faithful site texts prior)
    (h : (site.pipeline host tree texts scripts posix imported).collect prior inputs = .ok s) :
    Faithful site texts s.dependencies ∧
      (site.pipeline host tree texts scripts posix imported).collect prior inputs =
        (site.pipeline host tree texts scripts posix imported).collect [] inputs := by
  have hreads : ReadsIn texts (site.rooted host tree texts inputs) [] := readsIn_rooted fun _ ho => by cases ho
  have hsame := collect_reuses hreads hprior
  obtain ⟨g, profile, hcollect, rfl, -⟩ := pipeline_collect h
  refine ⟨collect_faithful hdistinct hreads (hsame ▸ hcollect), ?_⟩
  simp only [Site.pipeline, hsame]

/-- Every inventory a command may start from is faithful. -/
theorem Honest.faithful (hdistinct : Set.InjOn digest texts)
    (h : Honest (site.pipeline host tree texts scripts posix imported) (site.known host tree texts scripts posix imported) deps) :
    Faithful site texts deps := by
  induction h with
  | none =>
    intro b _ book hbook
    cases hbook
  | taken _ hs ih => exact (collect_plain hdistinct ih hs).1
  | stored hg hdeps =>
    obtain ⟨s, p, hfaithful, hbuild, -, rfl⟩ := hg
    obtain ⟨policy, _, hproducts⟩ := bind_eq_ok_iff.mp (mapError_eq_ok_iff.mp hbuild)
    obtain ⟨names, inventory, hparts⟩ := productsBuild_parts hproducts
    rw [show Generation.cache p.generation = p.cache from rfl, cacheDependencies_built hparts] at hdeps
    cases hdeps
    exact hfaithful.stored

theorem steady_pipeline (hdistinct : Set.InjOn digest texts) (hapart : site.Apart) :
    Steady (site.pipeline host tree texts scripts posix imported) (site.known host tree texts scripts posix imported) where
  plain prior a b h := by simp only [Site.pipeline, rooted_plain h]
  prior prior prior' a s s' hprior hprior' hs hs' := by
    have h := (collect_plain hdistinct (hprior.faithful hdistinct) hs).2
    have h' := (collect_plain hdistinct (hprior'.faithful hdistinct) hs').2
    rw [h] at hs
    rw [h', hs] at hs'
    cases hs'
    rfl
  overlay changes a b prior s s' hprior hs hs' hreplaced := by
    rw [(collect_plain hdistinct (hprior.faithful hdistinct) hs').2] at hs'
    obtain ⟨g, profile, -, hcollect, rfl, -⟩ := pipeline_overlay hs
    obtain ⟨g', profile', hcollect', rfl, -⟩ := pipeline_collect hs'
    have hreplaced : Replaced changes a b := fun i => by
      have hi := hreplaced i
      cases hc : changes i with
      | none =>
        rw [hc] at hi
        exact hi
      | some data =>
        rw [hc] at hi
        exact hi
    cases (rooted_alike hapart hreplaced).collect [] _ _ hcollect hcollect'
    rfl

theorem distinct_pipeline (hdistinct : Set.InjOn digest texts) (hscripts : Set.InjOn digest scripts) :
    Distinct (site.pipeline host tree texts scripts posix imported) (site.known host tree texts scripts posix imported) where
  made s p h hbuild := by
    obtain ⟨prior, inputs, hprior, hs⟩ | ⟨changes, inputs, hs⟩ := h
    · obtain ⟨_, _, _, _, hscript⟩ := pipeline_collect hs
      exact ⟨s, p, (collect_plain hdistinct (hprior.faithful hdistinct) hs).1, hbuild, hscript p hbuild, rfl⟩
    · obtain ⟨g, profile, hin, hcollect, rfl, hscript⟩ := pipeline_overlay hs
      exact ⟨_, p, collect_faithful hdistinct (readsIn_rooted hin) hcollect, hbuild, hscript p hbuild, rfl⟩
  injective g hg g' hg' h := by
    obtain ⟨_, p, _, _, hin, rfl⟩ := hg
    obtain ⟨_, p', _, _, hin', rfl⟩ := hg'
    exact hscripts hin hin' h

/-- Over unchanged inputs a selected generation is current. -/
theorem current_pipeline {d : Disk} (hdistinct : Set.InjOn digest texts)
    (hselected : selector d = .ok p.id) (hopens : openGeneration host d p.id = .ok p.generation)
    (hs : (site.pipeline host tree texts scripts posix imported).collect [] (inputsOf d) = .ok s)
    (hbuild : (site.pipeline host tree texts scripts posix imported).build s = .ok p) :
    Current (site.pipeline host tree texts scripts posix imported) host d p := by
  have hempty : Faithful site texts [] := fun _ _ _ hbook => by cases hbook
  have hfaithful := (collect_plain hdistinct hempty hs).1
  have hcollect : ∀ {prior : List Dependency}, Faithful site texts prior →
      (site.pipeline host tree texts scripts posix imported).collect prior (inputsOf d) = .ok s := by
    intro prior hprior
    have hreads : ReadsIn texts (site.rooted host tree texts (inputsOf d)) [] := readsIn_rooted fun _ ho => by cases ho
    rw [← hs]
    simp only [Site.pipeline, collect_reuses hreads hprior]
  refine ⟨hselected, hopens, ⟨s, hbuild⟩, fun prior hprior => ⟨s, hcollect ?_, hbuild⟩⟩
  induction hprior with
  | stored hdeps =>
    obtain ⟨policy, _, hproducts⟩ := bind_eq_ok_iff.mp (mapError_eq_ok_iff.mp hbuild)
    obtain ⟨names, inventory, hparts⟩ := productsBuild_parts hproducts
    rw [cacheDependencies_built hparts] at hdeps
    cases hdeps
    exact hfaithful.stored
  | taken _ hs' ih => exact (collect_plain hdistinct ih hs').1

end Pipeline

/-! ### Any number of processes, in any order -/

section Processes

variable {ι : Type} [DecidableEq ι] (site : Site) (host : Host) (tree : Tree) (texts scripts : Set Bytes)
  [DecidablePred (· ∈ texts)] [DecidablePred (· ∈ scripts)] (posix : Posix) (imported : Profile → Except ℕ Policy)

end Processes

/-! ### A root with one empty input -/

def only (t : Bytes) : Set Bytes := {x | x = t}

instance (t : Bytes) : DecidablePred (· ∈ only t) := fun x => decEq x t

theorem only_injOn (t : Bytes) : Set.InjOn digest (only t) := fun _ hx _ hy _ =>
  (show _ = t from hx).trans (show _ = t from hy).symm

def bareTree : Tree where
  lstat p := if p.1 = cstr "c" then .file else .missing
  stat p := if p.1 = cstr "c" then .file else .missing
  opened p := if p.1 = cstr "c" then .data [] false else .missing
  listing _ := .missing
  executable _ := false

def bareInputs : Fin 4 → Option Node
  | 0 => some (.file [] privateMode 1)
  | _ => none

theorem emptyDigest_length (present : Bool) : (if present then digest [] else zeroDigest).length = 32 := by
  cases present
  · exact zeroDigest_length
  · exact digest_length []

theorem CText.nul (t : CText) : 0 ∉ t.1 := t.2

/-- What is recorded of an input with nothing in it, or of one that is absent. -/
def emptyRecord (role path : CText) (present : Bool) : Dependency where
  role := role.1
  path := path.1
  present := present
  digest := if present then digest [] else zeroDigest
  auxiliary := []
  role_nul := CText.nul role
  path_nul := CText.nul path
  digest_length := emptyDigest_length present

theorem inputFilters_nul : 0 ∉ cstr "input.filters" := by decide

theorem inputAliases_nul : 0 ∉ cstr "input.aliases" := by decide

theorem inventoryAccounts_nul : 0 ∉ cstr "inventory.accounts" := by decide

theorem inputProfile_nul : 0 ∉ cstr "input.profile" := by decide

theorem filterProfile_nul : 0 ∉ cstr "FilterProfile.txt" := by decide

def bareInput (file : ImportFile) : CText := sampleSite.input file.index

def bareRecords : List Dependency := [
  emptyRecord compilerRole sampleSite.compiler true,
  emptyRecord ⟨cstr "input.filters", inputFilters_nul⟩ (bareInput .filters) true,
  emptyRecord ⟨cstr "input.aliases", inputAliases_nul⟩ (bareInput .aliases) false,
  emptyRecord ⟨cstr "inventory.accounts", inventoryAccounts_nul⟩ sampleSite.accountsPath false,
  emptyRecord ⟨cstr "input.profile", inputProfile_nul⟩ (joinPath sampleSite.root ⟨cstr "FilterProfile.txt", filterProfile_nul⟩) false]

def bareBooks : List Dependency := [
  emptyRecord whitelistBook.role (bareInput .whitelist) false,
  emptyRecord whitelistBook.exportRole (bareInput .whitelist) false,
  emptyRecord blacklistBook.role (bareInput .blacklist) false,
  emptyRecord blacklistBook.exportRole (bareInput .blacklist) false]

def bareDeps : List Dependency :=
  settingRecords fixedSettings ++ bareRecords ++ settingRecords (profileSettings [] sampleProfile) ++ bareBooks

def bareSources : List Source := [
  ⟨.filters, cstr "Filters.txt", (bareInput .filters).1, [], filters_nul, CText.nul (bareInput .filters)⟩,
  ⟨.aliases, cstr "Aliases.txt", (bareInput .aliases).1, [], aliases_nul, CText.nul (bareInput .aliases)⟩,
  ⟨.known, whitelistBook.name.1, (bareInput .whitelist).1, [], CText.nul whitelistBook.name, CText.nul (bareInput .whitelist)⟩,
  ⟨.blacklist, blacklistBook.name.1, (bareInput .blacklist).1, [], CText.nul blacklistBook.name, CText.nul (bareInput .blacklist)⟩]

def bareSnapshot : Snapshot := ⟨bareSources, sampleProfile, bareDeps⟩

set_option maxRecDepth 8000 in
theorem collect_bare : ∃ g, collect sampleSite (sampleSite.rooted ownerHost bareTree (only []) bareInputs) [] [] =
    .ok (g, sampleProfile) ∧ g.sources = bareSources ∧ g.dependencies = bareDeps := by
  have hstart : (⟨[], [], [], sampleSite.root.1⟩ : Gathering).linkDep
      (sampleSite.rooted ownerHost bareTree (only []) bareInputs) ⟨cstr "root", by decide⟩ sampleSite.root =
        some ⟨[], [], [], sampleSite.root.1⟩ := rfl
  have hsettings := @configs_eq ⟨[], [], [], sampleSite.root.1⟩ fixedSettings (by decide) fixedSettings_length
  have hok : ∀ {α β : Type} (g : Gathering) (e : CollectError) (a : α) (f : α → Except CollectFailure β),
      (g.orFail e (some a) >>= f) = f a := fun _ _ _ _ => rfl
  rw [collect, collectHead, hstart, hok, hsettings, hok]
  exact ⟨_, rfl, rfl, rfl⟩

theorem bareSources_isOk : (policyParse samplePosix bareSources).isOk = true := by
  decide

def barePolicy : Policy := okValue _ bareSources_isOk

theorem policyParse_bare : policyParse samplePosix bareSources = .ok barePolicy := eq_ok_okValue bareSources_isOk

def bareNames : List Bytes := (mailboxNames sampleProfile barePolicy.rules).getD []

theorem bareNames_isSome : (mailboxNames sampleProfile barePolicy.rules).isSome = true := by
  decide

theorem mailboxNames_bare : mailboxNames sampleProfile barePolicy.rules = some bareNames :=
  Option.eq_some_iff_get_eq.mpr ⟨bareNames_isSome, Option.get_eq_getD ..⟩

theorem bareText_isOk : (emitText sampleProfile barePolicy.rules bareNames).isOk = true := by
  decide +kernel

/-- The settings of a snapshot with the profile of the sample. -/
def bareSettings : List (CText × Bytes) := fixedSettings ++ profileSettings [] sampleProfile

theorem mem_bareDeps {d : Dependency} (hd : d ∈ bareDeps) :
    (∃ c ∈ bareSettings, d = configDependency c.1.1 c.2 c.1.2) ∨ d ∈ bareRecords ++ bareBooks := by
  simp only [bareDeps, settingRecords, List.mem_append, List.mem_map] at hd
  rw [List.mem_append]
  obtain ((⟨c, hc, rfl⟩ | hd) | ⟨c, hc, rfl⟩) | hd := hd
  · exact .inl ⟨c, List.mem_append_left _ hc, rfl⟩
  · exact .inr (.inl hd)
  · exact .inl ⟨c, List.mem_append_right _ hc, rfl⟩
  · exact .inr (.inr hd)

/-- A required setting is recorded with its value. -/
theorem bareSettings_required {c : CText × Bytes} (hc : c ∈ bareSettings) {r : Bytes × Bytes} (hr : r ∈ requiredConfig)
    (hrole : c.1.1 = r.1) : c.2 = r.2 := by
  have hnodup : (bareSettings.map fun c => c.1.1).Nodup := by decide
  obtain ⟨c', hc', hsame⟩ : ∃ c' ∈ bareSettings, (c'.1.1, c'.2) = r := by
    simp only [requiredConfig, List.mem_cons, List.not_mem_nil, or_false] at hr
    obtain rfl | rfl | rfl := hr
    · exact ⟨(⟨cstr "config.address-normalization", normalization_nul⟩, addressNormalization),
        by simp [bareSettings, fixedSettings], rfl⟩
    · exact ⟨(⟨cstr "config.regex-qualification", qualification_nul⟩, regexQualification),
        by simp [bareSettings, fixedSettings], rfl⟩
    · exact ⟨(⟨cstr "config.regex-catalogue", catalogue_nul⟩, regexCatalogue),
        by simp [bareSettings, fixedSettings], rfl⟩
  have heq : c = c' := List.inj_on_of_nodup_map hnodup hc hc' (hrole.trans (congrArg Prod.fst hsame).symm)
  rw [heq]
  exact congrArg Prod.snd hsame

theorem configDependency_ok {c : CText × Bytes} (hrole : c.1.1 ≠ [])
    (hrequired : ∀ r ∈ requiredConfig, c.1.1 = r.1 → c.2 = r.2) :
    DependencyOk (configDependency c.1.1 c.2 c.1.2) where
  role := hrole
  absent h := by cases h
  digest _ _ := rfl
  config r hr h := ⟨rfl, rfl, hrequired r hr h⟩

theorem inventory_bareDeps : Inventory bareDeps := by
  have hroles : ∀ d ∈ bareDeps, d.role ≠ [] := by decide
  have hothers : ∀ d ∈ bareRecords ++ bareBooks, selfDigested d.role = true → d.present = false := by decide
  have hnone : ∀ d ∈ bareRecords ++ bareBooks, d.auxiliary = [] ∧ ∀ c ∈ requiredConfig.map Prod.fst, d.role ≠ c := by
    decide
  have hkeys : bareDeps.Pairwise fun x y => (x.role, x.path) ≠ (y.role, y.path) := by decide +kernel
  have hrequired : ∀ c ∈ requiredConfig.map Prod.fst, ∃ d ∈ bareDeps, d.role = c := by decide
  refine ⟨fun d hd => ?_, hkeys, fun c hc => hrequired c.1 (List.mem_map_of_mem hc)⟩
  obtain ⟨c, hc, rfl⟩ | hd' := mem_bareDeps hd
  · exact configDependency_ok (hroles _ hd) fun r hr hrole => bareSettings_required hc hr hrole
  · refine ⟨hroles _ hd, fun _ => (hnone d hd').1, fun hpresent hself => ?_, fun c hc hrole => ?_⟩
    · rw [hothers d hd' hself] at hpresent
      cases hpresent
    · exact absurd hrole ((hnone d hd').2 c.1 (List.mem_map_of_mem hc))

theorem encodeRecords_length_le (deps : List Dependency) : (encodeRecords (deps.map dependencyRecord)).length ≤
    (deps.map fun d => 100 + d.role.length + d.path.length + d.auxiliary.length).sum := by
  induction deps with
  | nil => exact le_rfl
  | cons d deps ih =>
    have hflag : (if d.present = true then cstr "1" else cstr "0").length = 1 := by
      split
      · decide
      · decide
    have hdigest : (if d.present = true then d.digest else []).length ≤ 32 := by
      split
      · exact d.digest_length.le
      · exact Nat.zero_le _
    have hrecord : (encodeRecord (dependencyRecord d)).length ≤
        100 + d.role.length + d.path.length + d.auxiliary.length := by
      simp only [encodeRecord, dependencyRecord, List.flatMap_cons, List.flatMap_nil, List.length_append,
        List.length_nil, List.length_cons, encodeField, littleEndian_length, hflag]
      omega
    rw [List.map_cons, List.map_cons, encodeRecords_cons, List.length_append, List.sum_cons]
    exact Nat.add_le_add hrecord ih

theorem bareDeps_length : (encodeRecords ((qsort depCompare bareDeps).map dependencyRecord)).length ≤ 12000 := by
  rw [sortedRecords_length]
  exact (encodeRecords_length_le bareDeps).trans (by decide +kernel)

theorem productsBuild_bare_isOk : (productsBuild barePolicy sampleProfile bareDeps).isOk = true := by
  obtain ⟨hprofile, _, hregex⟩ := profileParse_ok profileParse_sample
  obtain ⟨rules, hrules, hpolicy⟩ := map_eq_ok_iff.mp policyParse_bare
  obtain ⟨⟨z, s⟩, hemit⟩ := exists_eq_ok bareText_isOk
  have hclash : mappingClash (qsort mailboxCompare
      (bareNames.zip (barePolicy.rules.map Rule.logical))) = false := by decide
  have hitems : (encodeRecords (ruleRecords 0 (barePolicy.rules.zip bareNames))).length ≤ 2000 := by decide +kernel
  have hnames := mailboxNames_bare
  rw [← hpolicy] at hemit hclash hitems hnames ⊢
  have hsize := records_length z s hitems bareDeps_length
  have hmax : 10 + (12000 + 2300) ≤ cacheMax := by decide
  exact productsBuild_eq_ok (parseRules_resolved hrules) hprofile hregex inventory_bareDeps (by decide) hnames
    hclash hemit ((Nat.add_le_add_left hsize 10).trans hmax)

theorem apart_sampleSite : sampleSite.Apart := by
  have hstart : ∀ i, (sampleSite.input i).1.take 4 ≠ cstr "r/Ac" := by decide
  refine ⟨fun i heq => hstart i ?_, fun i relative heq => hstart i ?_⟩
  · rw [heq]
    decide
  · rw [heq]
    rfl

/-- What its import reads: a historical script. -/
abbrev bareImport : Profile → Except ℕ Policy := importedPolicy samplePosix true historicalScript

/-- The pipeline that reads nothing but empty files and builds one script. -/
abbrev barePipeline (p : Products) : Pipeline :=
  sampleSite.pipeline ownerHost bareTree (only []) (only p.sieve) samplePosix bareImport

/-- The published root with its empty filter file. -/
def bareDisk (p : Products) : Disk := (publishedRoot p).set (.input ImportFile.filters.index) (savedFile [])

section Bare

variable {p : Products}

theorem inputsOf_bareDisk (p : Products) : inputsOf (bareDisk p) = bareInputs := by
  funext i
  unfold inputsOf bareDisk publishedRoot selectedRoot
  match i with
  | 0 => rfl
  | 1 => rfl
  | 2 => rfl
  | 3 => rfl

theorem settled_bareDisk (p : Products) : Settled (bareDisk p) :=
  (settled_publishedRoot p).edited (fun e => by simp) _

theorem barePipeline_build (h : productsBuild barePolicy sampleProfile bareDeps = .ok p) :
    (barePipeline p).build bareSnapshot = .ok p := by
  have hparse : policyParse (barePipeline p).posix bareSources = .ok barePolicy := policyParse_bare
  rw [Pipeline.build, mapError_eq_ok_iff, bind_eq_ok_iff]
  exact ⟨barePolicy, hparse, h⟩

theorem barePipeline_collect (h : productsBuild barePolicy sampleProfile bareDeps = .ok p) :
    (barePipeline p).collect [] bareInputs = .ok bareSnapshot := by
  obtain ⟨g, hcollect, hsources, hdeps⟩ := collect_bare
  have hin : p.sieve ∈ only p.sieve := Eq.refl p.sieve
  refine pipeline_collects ?_ (barePipeline_build h) hin
  rw [hcollect, snapshotOf, hsources, hdeps, bareSnapshot]

theorem current_bareDisk (h : productsBuild barePolicy sampleProfile bareDeps = .ok p) :
    Current (barePipeline p) ownerHost (bareDisk p) p := by
  have hcomplete := complete_of_build h
  refine current_pipeline (only_injOn []) ?_ ?_ (by rw [inputsOf_bareDisk]; exact barePipeline_collect h)
    (barePipeline_build h)
  · exact selector_target hcomplete.id_valid rfl
  · rw [openGeneration, show (bareDisk p).generations p.id = some (productDirectory p) from if_pos rfl]
    exact validateDirectory_complete ownerHost hcomplete

/-- One compile and one import over it. -/
def bareProcesses (p : Products) : Processes Bool where
  disk := bareDisk p
  turn := fun i => if i then some .opening else some (.importing bareImport)
  stage := fun _ => (bareDisk p).stage

theorem starts_bare (h : productsBuild barePolicy sampleProfile bareDeps = .ok p) :
    (bareProcesses p).Starts (barePipeline p) ownerHost
      (sampleSite.known ownerHost bareTree (only []) (only p.sieve) samplePosix bareImport) := by
  have hcurrent := current_bareDisk h
  have hbuild := barePipeline_build h
  have hempty : Faithful sampleSite (only []) [] := fun _ _ _ hbook => by cases hbook
  have hcollect := barePipeline_collect h
  refine ⟨settled_bareDisk p, selector_not_other hcurrent.selected, .inr ⟨p.generation, ?_⟩, ?_, ?_⟩
  · refine ⟨rfl, hcurrent.opens, rfl, fun prior s fingerprint hhonest hs hf => ?_⟩
    have hview : (view (bareDisk p)).inputs = bareInputs := by
      funext i
      match i with
      | 0 => rfl
      | 1 => rfl
      | 2 => rfl
      | 3 => rfl
    rw [show (view (bareProcesses p).disk).inputs = bareInputs from hview] at hs
    rw [(collect_plain (only_injOn []) (hhonest.faithful (only_injOn [])) hs).2, hcollect] at hs
    cases hs
    obtain ⟨found, hfound, hid⟩ := build_fingerprint hbuild
    cases hfound.symm.trans hf
    exact hid
  · have hbare : KnownIn ownerHost (sampleSite.known ownerHost bareTree (only []) (only p.sieve) samplePosix
        bareImport) ⟨fun _ => none, false, fun _ => none⟩ := fun _ _ h => (by cases h)
    refine hbare.gains (complete_of_build h) ?_ (.inr ?_)
    · exact ⟨bareSnapshot, p, (collect_plain (only_injOn []) hempty hcollect).1, hbuild, rfl, rfl⟩
    · funext id
      show (if id = p.id then some (productDirectory p) else none) = _
      rw [Function.update_apply]
  · intro i t ht
    cases i <;> cases ht
    · exact .inr ⟨_, rfl⟩
    · exact .inl rfl

/-- The import is killed at once; the compile takes all its turns and finds nothing to do. -/
theorem bare_turns (h : productsBuild barePolicy sampleProfile bareDeps = .ok p) :
    ∃ y, Relation.ReflTransGen (Processes.Step (barePipeline p) ownerHost) (bareProcesses p) y ∧
      y.turn true = some (.ended (.ok p.id)) ∧ y.disk.withStage (y.stage true) = bareDisk p := by
  have hcurrent := current_bareDisk h
  have hs := settled_bareDisk p
  obtain ⟨deps, hprior, hcompile⟩ := run_compile (run_recover_settled hs) hs hcurrent
  obtain ⟨s, fingerprint, _, _, _, hrun⟩ := run_attempt hs hcurrent hprior
  have h0 : publicStatus ownerHost (bareDisk p) p.sieve = 0 :=
    publicStatus_eq_zero.mpr ⟨⟨0, rfl⟩, hcurrent.complete.sieve_size⟩
  rw [if_pos h0] at hrun
  have hall := hcompile _ _ hrun
  have hkilled : Processes.Step (barePipeline p) ownerHost (bareProcesses p)
      ⟨bareDisk p, Function.update (bareProcesses p).turn false none,
        Function.update (bareProcesses p).stage false (bareDisk p).stage⟩ :=
    .take (i := false) (r := (none, bareDisk p)) rfl (by
      show Prog.Rough disks _ ((bareDisk p).withStage (bareDisk p).stage) _
      rw [withStage_stage]
      exact .killed _ _)
  have hrough := Prog.rough_run disks (compile (barePipeline p) ownerHost) (bareDisk p)
  rw [hall] at hrough
  have hstage : Function.update (bareProcesses p).stage false (bareDisk p).stage true = (bareDisk p).stage :=
    Function.update_of_ne (by decide) _ _
  obtain ⟨y, hy, hdisk, hend⟩ := @rest_takes Bool _ (barePipeline p) ownerHost
    ⟨bareDisk p, Function.update (bareProcesses p).turn false none,
      Function.update (bareProcesses p).stage false (bareDisk p).stage⟩ true .opening rfl
    (some (.ok p.id), bareDisk p) (by
      dsimp only
      rw [hstage, withStage_stage]
      exact hrough)
  exact ⟨y, .head hkilled hy, hend _ rfl, hdisk⟩

end Bare

end JaroFilter
