import JaroFilter.Generation.Collect
import JaroFilter.Products.Restore

/-!
# Exports of earlier inventories (`snapshot.c:87-104,457-485`)

An export that is taken from an earlier inventory is the one the exporter would
write now. What carries it from run to run is that every recorded export is
the exporter's answer to any contents with the recorded digests, in whatever
order a cache keeps the records.
-/

namespace JaroFilter

open Lib

/-! ### What the steps of a collection add -/

section Steps

variable {g g' : Gathering} {tree : Tree} {overrides : List (CText × Bytes)} {contents : Set Bytes}
  {role path : CText} {bytes aux : Bytes}

theorem orFail_ok {α : Type} {e : CollectError} {x : Option α} {a : α} (h : g.orFail e x = .ok a) :
    x = some a := by
  cases x with
  | none => cases h
  | some b =>
    cases h
    rfl

/-- The record that `dep` adds. -/
structure Recorded (d : Dependency) (role path : CText) (there : Bool) (bytes aux : Bytes) : Prop where
  role : d.role = role.1
  path : d.path = path.1
  present : d.present = there
  digest : d.digest = if there then JaroFilter.digest bytes else zeroDigest
  auxiliary : d.auxiliary = aux

theorem dep_some {present : Bool} (h : g.dep role path present bytes aux = some g') :
    ∃ d, g'.dependencies = g.dependencies ++ [d] ∧ Recorded d role path present bytes aux := by
  unfold Gathering.dep at h
  split at h
  · cases h
  · obtain ⟨aux', haux, rfl⟩ := Option.map_eq_some_iff.mp h
    exact ⟨_, rfl, rfl, rfl, rfl, rfl, bytesAdd_some haux⟩

def linkRole (role : CText) : Bytes := cstr "link." ++ role.1

theorem linkDep_some (h : g.linkDep tree role path = some g') :
    ∃ ds, g'.dependencies = g.dependencies ++ ds ∧ ∀ d ∈ ds, d.role = linkRole role := by
  unfold Gathering.linkDep at h
  split at h
  · cases h
    exact ⟨[], by simp, by simp⟩
  · cases h
  · split at h
    · cases h
    · obtain ⟨d, hd, hrecorded⟩ := dep_some h
      refine ⟨[d], hd, fun d' hd' => ?_⟩
      rw [List.mem_singleton.mp hd', hrecorded.role]
      rfl
  · cases h
    exact ⟨[], by simp, by simp⟩

/-- Everything that can be read is among these contents. -/
structure ReadsIn (contents : Set Bytes) (tree : Tree) (overrides : List (CText × Bytes)) : Prop where
  opened : ∀ path bytes changed, tree.opened path = .data bytes changed → bytes ∈ contents
  overrides : ∀ o ∈ overrides, o.2 ∈ contents

/-- What `input` adds: the links on the way, and the input itself. -/
theorem input_ok (hreads : ReadsIn contents tree overrides) {required : Bool}
    (h : g.input tree overrides role path required = .ok (bytes, g')) :
    ∃ ds d, g'.dependencies = g.dependencies ++ ds ++ [d] ∧ (∀ d ∈ ds, d.role = linkRole role) ∧
      Recorded d role path d.present bytes [] ∧ (d.present = true → bytes ∈ contents) ∧
      (required = true → d.present = true) := by
  unfold Gathering.input at h
  dsimp only at h
  split at h
  · rename_i o ho
    obtain ⟨bytes', hbytes, h⟩ := bind_eq_ok_iff.mp h
    obtain ⟨g'', hg, h⟩ := bind_eq_ok_iff.mp h
    cases h
    have hsame : bytes = o.2 := bytesAdd_some (orFail_ok hbytes)
    obtain ⟨d, hd, hrecorded⟩ := dep_some (orFail_ok hg)
    refine ⟨[], d, by simpa using hd, by simp, ?_, fun _ => ?_, fun _ => hrecorded.present⟩
    · rw [hsame, hrecorded.present]
      exact hrecorded
    · rw [hsame]
      exact hreads.overrides o (List.mem_of_find?_eq_some ho)
  · unfold Gathering.read at h
    obtain ⟨g₁, hlink, h⟩ := bind_eq_ok_iff.mp h
    obtain ⟨ds, hds, hroles⟩ := linkDep_some (orFail_ok hlink)
    have hadd : ∀ {present : Bool} {data : Bytes} {g₂ : Gathering},
        g₁.dep role path present data [] = some g₂ → (present = true → data ∈ contents) →
        (required = true → present = true) →
        ∃ ds d, g₂.dependencies = g.dependencies ++ ds ++ [d] ∧ (∀ d ∈ ds, d.role = linkRole role) ∧
          Recorded d role path d.present data [] ∧ (d.present = true → data ∈ contents) ∧
          (required = true → d.present = true) := by
      intro present data g₂ hg hdata hrequired
      obtain ⟨d, hd, hrecorded⟩ := dep_some hg
      refine ⟨ds, d, by rw [hd, hds], hroles, ?_, fun hp => hdata (hrecorded.present ▸ hp),
        fun hr => hrecorded.present.trans (hrequired hr)⟩
      rw [hrecorded.present]
      exact hrecorded
    split at h
    · split at h
      · cases h
      · split at h
        · obtain ⟨g₂, hg, h⟩ := bind_eq_ok_iff.mp h
          cases h
          exact hadd (orFail_ok hg) (fun hp => (by cases hp)) (fun hr => (by cases hr))
        · cases h
    · cases h
    · rename_i data changed hopened
      split at h
      · cases h
      · split at h
        · cases h
        · obtain ⟨g₂, hg, h⟩ := bind_eq_ok_iff.mp h
          cases h
          exact hadd (orFail_ok hg) (fun _ => hreads.opened _ _ _ hopened) fun _ => rfl

/-! ### Up to the books -/

/-- The roles that an export depends on. -/
def exportRoles : List Bytes :=
  [whitelistBook.role.1, whitelistBook.exportRole.1, blacklistBook.role.1, blacklistBook.exportRole.1,
    exporterRole.1]

/-- Nothing of an export is recorded yet. -/
def Gathering.Plain (g : Gathering) : Prop := ∀ d ∈ g.dependencies, d.role ∉ exportRoles

theorem linkRole_plain (role : CText) : linkRole role ∉ exportRoles := by
  intro h
  have hhead : ∀ r ∈ exportRoles, r.head? ≠ some 108 := by decide
  exact hhead _ h rfl

theorem plain_dep (h : g.Plain) (hrole : role.1 ∉ exportRoles) {present : Bool}
    (hg : g.dep role path present bytes aux = some g') : g'.Plain := by
  obtain ⟨d, hd, hrecorded⟩ := dep_some hg
  intro d' hd'
  rw [hd, List.mem_append, List.mem_singleton] at hd'
  obtain hd' | rfl := hd'
  · exact h d' hd'
  · rw [hrecorded.role]
    exact hrole

theorem plain_link (h : g.Plain) (hg : g.linkDep tree role path = some g') : g'.Plain := by
  obtain ⟨ds, hd, hroles⟩ := linkDep_some hg
  intro d' hd'
  rw [hd, List.mem_append] at hd'
  obtain hd' | hd' := hd'
  · exact h d' hd'
  · rw [hroles d' hd']
    exact linkRole_plain role

theorem plain_input (hreads : ReadsIn contents tree overrides) (h : g.Plain) (hrole : role.1 ∉ exportRoles)
    {required : Bool} (hg : g.input tree overrides role path required = .ok (bytes, g')) : g'.Plain := by
  obtain ⟨ds, d, hd, hroles, hrecorded, -, -⟩ := input_ok hreads hg
  intro d' hd'
  rw [hd, List.mem_append, List.mem_append, List.mem_singleton] at hd'
  obtain (hd' | hd') | rfl := hd'
  · exact h d' hd'
  · rw [hroles d' hd']
    exact linkRole_plain role
  · rw [hrecorded.role]
    exact hrole

theorem plain_source (h : g.Plain) {kind : SourceKind} (hg : g.source kind role path bytes = some g') : g'.Plain := by
  unfold Gathering.source at hg
  split at hg
  · cases hg
  · cases hg
    exact h

theorem plain_configs {cs : List (CText × Bytes)} (h : g.Plain) (hroles : ∀ c ∈ cs, c.1.1 ∉ exportRoles)
    (hg : g.configs cs = some g') : g'.Plain := by
  induction cs generalizing g with
  | nil =>
    cases hg
    exact h
  | cons c cs ih =>
    obtain ⟨g₁, hg₁, hg⟩ := Option.bind_eq_some_iff.mp hg
    exact ih (plain_dep h (hroles c (by simp)) hg₁) (fun c' hc' => hroles c' (by simp [hc'])) hg

/-- What `configs` records of a list that fits. -/
def settingRecords (cs : List (CText × Bytes)) : List Dependency :=
  cs.map fun c => configDependency c.1.1 c.2 c.1.2

theorem configs_eq {cs : List (CText × Bytes)} (hcount : g.dependencies.length + cs.length ≤ dependencyMax)
    (hvalues : ∀ c ∈ cs, c.2.length ≤ cacheMax) :
    g.configs cs = some { g with dependencies := g.dependencies ++ settingRecords cs } := by
  induction cs generalizing g with
  | nil => simp [Gathering.configs, settingRecords]
  | cons c cs ih =>
    have hfull : g.dependencies.length ≠ dependencyMax := by
      rw [List.length_cons] at hcount
      omega
    have hvalue : bytesAdd cacheMax [] c.2 = some c.2 := by
      rw [bytesAdd, if_pos ⟨Nat.zero_le _, by simpa using hvalues c (by simp)⟩, List.nil_append]
    have hstep : g.config c.1 c.2 = some { g with
        dependencies := g.dependencies ++ [configDependency c.1.1 c.2 c.1.2] } := by
      simp only [Gathering.config, Gathering.dep, hfull, if_false, hvalue, Option.map_some, if_true]
      rfl
    rw [Gathering.configs, hstep, Option.bind_some, ih ?_ fun c' hc' => hvalues c' (by simp [hc'])]
    · simp [settingRecords]
    · rw [List.length_append, List.length_singleton]
      rw [List.length_cons] at hcount
      omega

/-- A loop of fallible steps keeps what each of them keeps. -/
theorem foldlM_keeps {α β ε : Type} {f : β → α → Except ε β} {P : β → Prop}
    (hf : ∀ x a y, f x a = .ok y → P x → P y) {l : List α} {x y : β} (h : l.foldlM f x = .ok y) (hx : P x) :
    P y := by
  induction l generalizing x with
  | nil =>
    cases h
    exact hx
  | cons a l ih =>
    rw [List.foldlM_cons] at h
    obtain ⟨z, hz, h⟩ := bind_eq_ok_iff.mp h
    exact ih h (hf x a z hz hx)

theorem plain_accountsItem (hreads : ReadsIn contents tree overrides) {base relative name : CText} {external : Bool}
    {walk : CText → Gathering × Bytes → Except CollectFailure (Gathering × Bytes)}
    (hwalk : ∀ r x y, walk r x = .ok y → x.1.Plain → y.1.Plain) {x y : Gathering × Bytes}
    (h : accountsItem tree overrides base external walk relative x name = .ok y) (hx : x.1.Plain) : y.1.Plain := by
  unfold accountsItem at h
  dsimp only at h
  split at h
  · cases h
  · cases h
  · obtain ⟨inventory, -, h⟩ := bind_eq_ok_iff.mp h
    exact hwalk _ _ _ h hx
  · split at h
    · obtain ⟨inventory, -, h⟩ := bind_eq_ok_iff.mp h
      obtain ⟨⟨bytes, g₁⟩, hg₁, h⟩ := bind_eq_ok_iff.mp h
      obtain ⟨g₂, hg₂, h⟩ := bind_eq_ok_iff.mp h
      cases h
      exact plain_source (plain_input hreads hx (by decide) hg₁) (orFail_ok hg₂)
    · cases h

theorem plain_accountsWalk (hreads : ReadsIn contents tree overrides) {base : CText} {external : Bool} (left : ℕ) :
    ∀ relative (x y : Gathering × Bytes), accountsWalk tree overrides base external left relative x = .ok y →
      x.1.Plain → y.1.Plain := by
  induction left with
  | zero =>
    intro relative x y h
    cases h
  | succ left ih =>
    intro relative x y h
    unfold accountsWalk at h
    split at h
    · cases h
    · cases h
    · split at h
      · cases h
      · exact foldlM_keeps (P := fun z : Gathering × Bytes => z.1.Plain)
          (fun x a y => plain_accountsItem hreads ih) h

theorem plain_head (hreads : ReadsIn contents tree overrides) {site : Site} {profile : Profile}
    (h : collectHead site tree overrides = .ok (g, profile)) : g.Plain := by
  unfold collectHead at h
  obtain ⟨g₁, hg₁, h⟩ := bind_eq_ok_iff.mp h
  have h₁ : g₁.Plain := plain_link (fun d hd => (by cases hd)) (orFail_ok hg₁)
  obtain ⟨g₂, hg₂, h⟩ := bind_eq_ok_iff.mp h
  have h₂ : g₂.Plain := plain_configs h₁ (by decide) (orFail_ok hg₂)
  obtain ⟨⟨_, g₃⟩, hg₃, h⟩ := bind_eq_ok_iff.mp h
  have h₃ : g₃.Plain := plain_input hreads h₂ (by decide) hg₃
  obtain ⟨⟨filters, g₄⟩, hg₄, h⟩ := bind_eq_ok_iff.mp h
  have h₄ : g₄.Plain := plain_input hreads h₃ (by decide) hg₄
  obtain ⟨g₅, hg₅, h⟩ := bind_eq_ok_iff.mp h
  have h₅ : g₅.Plain := plain_source h₄ (orFail_ok hg₅)
  obtain ⟨⟨aliases, g₆⟩, hg₆, h⟩ := bind_eq_ok_iff.mp h
  have h₆ : g₆.Plain := plain_input hreads h₅ (by decide) hg₆
  obtain ⟨g₇, hg₇, h⟩ := bind_eq_ok_iff.mp h
  have h₇ : g₇.Plain := plain_source h₆ (orFail_ok hg₇)
  obtain ⟨g₈, hg₈, h⟩ := bind_eq_ok_iff.mp h
  have h₈ : g₈.Plain := by
    unfold collectAccounts at hg₈
    obtain ⟨gl, hgl, hg₈⟩ := bind_eq_ok_iff.mp hg₈
    have hl : gl.Plain := by
      refine plain_link ?_ (orFail_ok hgl)
      exact h₇
    split at hg₈
    · exact plain_dep hl (by decide) (orFail_ok hg₈)
    · obtain ⟨⟨gw, inventory⟩, hgw, hg₈⟩ := bind_eq_ok_iff.mp hg₈
      exact plain_dep (plain_accountsWalk hreads 65 _ _ _ hgw hl) (by decide) (orFail_ok hg₈)
    · cases hg₈
  obtain ⟨⟨bytes, g₉⟩, hg₉, h⟩ := bind_eq_ok_iff.mp h
  have h₉ : g₉.Plain := plain_input hreads h₈ (by decide) hg₉
  dsimp only at h
  split at h
  · cases h
  · obtain ⟨g₁₀, hg₁₀, h⟩ := bind_eq_ok_iff.mp h
    cases h
    refine plain_configs h₉ ?_ (orFail_ok hg₁₀)
    intro c hc
    simp only [profileSettings, List.mem_cons, List.not_mem_nil, or_false] at hc
    rcases hc with rfl | rfl | rfl | rfl | rfl | rfl | rfl <;> (dsimp only; decide)

end Steps

/-! ### The books -/

theorem dependencyAt_some {deps : List Dependency} {role path : Bytes} {d : Dependency}
    (h : dependencyAt deps role path = some d) : d ∈ deps ∧ d.role = role ∧ d.path = path := by
  refine ⟨List.mem_of_find?_eq_some h, ?_⟩
  have hkey := List.find?_some h
  simpa using hkey

/-- A new record is found where none of its role was before. -/
theorem dependencyAt_new {l m : List Dependency} {d : Dependency} (h : ∀ x ∈ l, x.role ≠ d.role) :
    dependencyAt (l ++ d :: m) d.role d.path = some d := by
  have hnone : l.find? (fun x => x.role == d.role && x.path == d.path) = none := by
    rw [List.find?_eq_none]
    intro x hx
    simp [h x hx]
  rw [dependencyAt, List.find?_append, hnone]
  simp

theorem dependencyAt_append {l m : List Dependency} {role path : Bytes} {d : Dependency}
    (h : dependencyAt l role path = some d) : dependencyAt (l ++ m) role path = some d := by
  rw [dependencyAt] at h
  rw [dependencyAt, List.find?_append, h]
  rfl

def books : List BookRoles := [whitelistBook, blacklistBook]

/-- Every export that is recorded is the exporter's answer. -/
structure Exporting (site : Site) (contents : Set Bytes) (deps : List Dependency) (e : Option (CText × Bytes)) :
    Prop where
  exporter : ∀ d ∈ deps, d.role = exporterRole.1 → ∃ e', e = some e' ∧ d.digest = digest e'.2
  known : ∀ e', e = some e' → e'.2 ∈ contents ∧
    ∃ d, dependencyAt deps exporterRole.1 e'.1.1 = some d ∧ d.present = true ∧ d.digest = digest e'.2
  exports : ∀ b ∈ books, ∀ d ∈ deps, d.role = b.exportRole.1 → d.present = true →
    ∃ raw ∈ contents, ∃ e', e = some e' ∧ exportBook site e'.2 raw = some d.auxiliary ∧
      ∀ x ∈ deps, x.role = b.role.1 → x.digest = digest raw

section Books

variable {site : Site} {contents : Set Bytes} {deps : List Dependency} {e : Option (CText × Bytes)}

theorem exporting_plain (h : ∀ d ∈ deps, d.role ∉ exportRoles) : Exporting site contents deps none := by
  refine ⟨fun d hd hrole => (h d hd ?_).elim, fun _ hnone => (by cases hnone), ?_⟩
  · rw [hrole]
    decide
  · intro b hb d hd hrole _
    refine (h d hd ?_).elim
    rw [hrole]
    simp only [books, List.mem_cons, List.not_mem_nil, or_false] at hb
    obtain rfl | rfl := hb <;> decide

/-- Records that no export depends on. -/
theorem Exporting.others (h : Exporting site contents deps e) {ds : List Dependency}
    (hds : ∀ d ∈ ds, d.role ∉ exportRoles) : Exporting site contents (deps ++ ds) e := by
  have hroles : ∀ b ∈ books, b.role.1 ∈ exportRoles ∧ b.exportRole.1 ∈ exportRoles := by decide
  refine ⟨?_, ?_, ?_⟩
  · intro d hd hrole
    obtain hd | hd := List.mem_append.mp hd
    · exact h.exporter d hd hrole
    · exact (hds d hd (by rw [hrole]; decide)).elim
  · intro e' he
    obtain ⟨hin, d, hd, hrest⟩ := h.known e' he
    exact ⟨hin, d, dependencyAt_append hd, hrest⟩
  · intro b hb d hd hrole hpresent
    obtain hd | hd := List.mem_append.mp hd
    · obtain ⟨raw, hraw, e', he, hexport, hbook⟩ := h.exports b hb d hd hrole hpresent
      refine ⟨raw, hraw, e', he, hexport, fun x hx hxrole => ?_⟩
      obtain hx | hx := List.mem_append.mp hx
      · exact hbook x hx hxrole
      · exact (hds x hx (by rw [hxrole]; exact (hroles b hb).1)).elim
    · exact (hds d hd (by rw [hrole]; exact (hroles b hb).2)).elim

/-- The book itself, before its export. -/
theorem Exporting.book (h : Exporting site contents deps e) {b : BookRoles} (hb : b ∈ books) {d : Dependency}
    (hrole : d.role = b.role.1) (hfresh : ∀ x ∈ deps, x.role ≠ b.exportRole.1) :
    Exporting site contents (deps ++ [d]) e := by
  have hroles : ∀ b ∈ books, b.role.1 ≠ exporterRole.1 ∧ ∀ b' ∈ books, b.role.1 ≠ b'.exportRole.1 ∧
      (b.role.1 = b'.role.1 → b.exportRole.1 = b'.exportRole.1) := by decide
  refine ⟨?_, ?_, ?_⟩
  · intro x hx hxrole
    obtain hx | hx := List.mem_append.mp hx
    · exact h.exporter x hx hxrole
    · rw [List.mem_singleton.mp hx, hrole] at hxrole
      exact ((hroles b hb).1 hxrole).elim
  · intro e' he
    obtain ⟨hin, x, hx, hrest⟩ := h.known e' he
    exact ⟨hin, x, dependencyAt_append hx, hrest⟩
  · intro b' hb' x hx hxrole hpresent
    obtain hx | hx := List.mem_append.mp hx
    · obtain ⟨raw, hraw, e', he, hexport, hbook⟩ := h.exports b' hb' x hx hxrole hpresent
      refine ⟨raw, hraw, e', he, hexport, fun y hy hyrole => ?_⟩
      obtain hy | hy := List.mem_append.mp hy
      · exact hbook y hy hyrole
      · rw [List.mem_singleton.mp hy, hrole] at hyrole
        refine (hfresh x hx ?_).elim
        rw [hxrole, ((hroles b hb).2 b' hb').2 hyrole]
    · rw [List.mem_singleton.mp hx, hrole] at hxrole
      exact (((hroles b hb).2 b' hb').1 hxrole).elim

/-- The exporter, once. -/
theorem Exporting.found (h : Exporting site contents deps none) {e' : CText × Bytes} {d : Dependency}
    (hrecorded : Recorded d exporterRole e'.1 true e'.2 []) (hin : e'.2 ∈ contents) :
    Exporting site contents (deps ++ [d]) (some e') := by
  have hdigest : d.digest = digest e'.2 := hrecorded.digest
  have hroles : ∀ b ∈ books, exporterRole.1 ≠ b.exportRole.1 := by decide
  have hnone : ∀ x ∈ deps, x.role ≠ d.role := by
    intro x hx hxrole
    obtain ⟨_, hsome, -⟩ := h.exporter x hx (hxrole.trans hrecorded.role)
    cases hsome
  refine ⟨?_, ?_, ?_⟩
  · intro x hx hxrole
    obtain hx | hx := List.mem_append.mp hx
    · exact (hnone x hx (hxrole.trans hrecorded.role.symm)).elim
    · rw [List.mem_singleton.mp hx]
      exact ⟨e', rfl, hdigest⟩
  · rintro _ ⟨⟩
    refine ⟨hin, d, ?_, hrecorded.present, hdigest⟩
    rw [← hrecorded.role, ← hrecorded.path]
    exact dependencyAt_new hnone
  · intro b hb x hx hxrole hpresent
    obtain hx | hx := List.mem_append.mp hx
    · obtain ⟨_, _, _, hsome, -⟩ := h.exports b hb x hx hxrole hpresent
      cases hsome
    · rw [List.mem_singleton.mp hx, hrecorded.role] at hxrole
      exact (hroles b hb hxrole).elim

/-- The export of a book that was just recorded. -/
theorem Exporting.export (h : Exporting site contents deps e) {b : BookRoles} (hb : b ∈ books) {d : Dependency}
    (hrole : d.role = b.exportRole.1)
    (hd : d.present = true → ∃ raw ∈ contents, ∃ e', e = some e' ∧ exportBook site e'.2 raw = some d.auxiliary ∧
      ∀ x ∈ deps, x.role = b.role.1 → x.digest = digest raw) :
    Exporting site contents (deps ++ [d]) e := by
  have hroles : ∀ b ∈ books, b.exportRole.1 ≠ exporterRole.1 ∧ ∀ b' ∈ books, b.exportRole.1 ≠ b'.role.1 ∧
      (b.exportRole.1 = b'.exportRole.1 → b.role.1 = b'.role.1) := by decide
  refine ⟨?_, ?_, ?_⟩
  · intro x hx hxrole
    obtain hx | hx := List.mem_append.mp hx
    · exact h.exporter x hx hxrole
    · rw [List.mem_singleton.mp hx, hrole] at hxrole
      exact ((hroles b hb).1 hxrole).elim
  · intro e' he
    obtain ⟨hin, x, hx, hrest⟩ := h.known e' he
    exact ⟨hin, x, dependencyAt_append hx, hrest⟩
  · intro b' hb' x hx hxrole hpresent
    have hkeep : ∀ {raw : Bytes}, (∀ y ∈ deps, y.role = b'.role.1 → y.digest = digest raw) →
        ∀ y ∈ deps ++ [d], y.role = b'.role.1 → y.digest = digest raw := by
      intro raw hbook y hy hyrole
      obtain hy | hy := List.mem_append.mp hy
      · exact hbook y hy hyrole
      · rw [List.mem_singleton.mp hy, hrole] at hyrole
        exact (((hroles b hb).2 b' hb').1 hyrole).elim
    obtain hx | hx := List.mem_append.mp hx
    · obtain ⟨raw, hraw, e', he, hexport, hbook⟩ := h.exports b' hb' x hx hxrole hpresent
      exact ⟨raw, hraw, e', he, hexport, hkeep hbook⟩
    · rw [List.mem_singleton.mp hx] at hxrole hpresent ⊢
      obtain ⟨raw, hraw, e', he, hexport, hbook⟩ := hd hpresent
      rw [hrole] at hxrole
      rw [((hroles b hb).2 b' hb').2 hxrole] at hbook
      exact ⟨raw, hraw, e', he, hexport, hkeep hbook⟩

variable {tree : Tree} {overrides : List (CText × Bytes)} {g g' : Gathering} {b : BookRoles} {path : CText}

theorem finishBook_ok {present : Bool} {exported : Bytes} (h : g.finishBook b path present exported = .ok g') :
    ∃ d, g'.dependencies = g.dependencies ++ [d] ∧ Recorded d b.exportRole path present exported exported := by
  unfold Gathering.finishBook at h
  obtain ⟨g₁, hg₁, h⟩ := bind_eq_ok_iff.mp h
  obtain ⟨⟨warnings, sources⟩, -, h⟩ := bind_eq_ok_iff.mp h
  cases h
  obtain ⟨d, hd, hrecorded⟩ := dep_some (orFail_ok hg₁)
  exact ⟨d, hd, hrecorded⟩

theorem exporter_ok (hreads : ReadsIn contents tree overrides) {e' : CText × Bytes}
    (h : g.exporter site tree overrides e = .ok (e', g')) :
    (e = some e' ∧ g' = g) ∨ (e = none ∧ ∃ ds d, g'.dependencies = g.dependencies ++ ds ++ [d] ∧
      (∀ d ∈ ds, d.role = linkRole exporterRole) ∧ Recorded d exporterRole e'.1 true e'.2 [] ∧
      e'.2 ∈ contents) := by
  cases e with
  | some e =>
    cases h
    exact .inl ⟨rfl, rfl⟩
  | none =>
    unfold Gathering.exporter at h
    obtain ⟨path, -, h⟩ := bind_eq_ok_iff.mp h
    obtain ⟨⟨bytes, g₁⟩, hg₁, h⟩ := bind_eq_ok_iff.mp h
    cases h
    obtain ⟨ds, d, hd, hroles, hrecorded, hin, hpresent⟩ := input_ok hreads hg₁
    have hp := hpresent rfl
    rw [hp] at hrecorded
    exact .inr ⟨rfl, ds, d, hd, hroles, hrecorded, hin hp⟩

/-- The state of a collection between its books. -/
abbrev BetweenBooks (site : Site) (contents : Set Bytes) (x : Gathering × Option (CText × Bytes)) : Prop :=
  Exporting site contents x.1.dependencies x.2

/-- No record of a book is there yet. -/
def Unread (b : BookRoles) (deps : List Dependency) : Prop :=
  ∀ d ∈ deps, d.role ≠ b.role.1 ∧ d.role ≠ b.exportRole.1

/-- What is known when the export of a book is decided. -/
structure Deciding (site : Site) (contents : Set Bytes) (b : BookRoles) (path : CText) (raw : Bytes)
    (e : CText × Bytes) (deps : List Dependency) : Prop where
  exporting : Exporting site contents deps (some e)
  raw_in : raw ∈ contents
  book : ∃ d, dependencyAt deps b.role.1 path.1 = some d ∧ d.present = true ∧ d.digest = digest raw
  others : ∀ x ∈ deps, x.role = b.role.1 → x.digest = digest raw

/-- The book and the exporter are read as the inventory says. -/
theorem collectBook_decides (hreads : ReadsIn contents tree overrides) (hb : b ∈ books)
    {x : Gathering × Option (CText × Bytes)} (hx : BetweenBooks site contents x) (hunread : Unread b x.1.dependencies)
    {raw : Bytes} {g₁ : Gathering} (hinput : x.1.input tree overrides b.role path false = .ok (raw, g₁)) :
    ((dependencyAt g₁.dependencies b.role.1 path.1).any Dependency.present = false →
      Exporting site contents g₁.dependencies x.2) ∧
    ((dependencyAt g₁.dependencies b.role.1 path.1).any Dependency.present = true →
      ∀ e g₂, g₁.exporter site tree overrides x.2 = .ok (e, g₂) →
        Deciding site contents b path raw e g₂.dependencies) := by
  obtain ⟨ds, d, hd, hroles, hrecorded, hin, -⟩ := input_ok hreads hinput
  have hlinks : ∀ y ∈ ds, y.role ∉ exportRoles := fun y hy => by
    rw [hroles y hy]
    exact linkRole_plain _
  have hroles' : ∀ b ∈ books, b.role.1 ∈ exportRoles ∧ b.exportRole.1 ∈ exportRoles := by decide
  have hmember := hroles' b hb
  have hfresh : ∀ y ∈ x.1.dependencies ++ ds, y.role ≠ b.role.1 ∧ y.role ≠ b.exportRole.1 := by
    intro y hy
    obtain hy | hy := List.mem_append.mp hy
    · exact hunread y hy
    · exact ⟨fun heq => hlinks y hy (heq ▸ hmember.1), fun heq => hlinks y hy (heq ▸ hmember.2)⟩
  have hexporting : Exporting site contents g₁.dependencies x.2 := by
    rw [hd]
    exact (hx.others hlinks).book hb hrecorded.role fun y hy => (hfresh y hy).2
  have hfound : dependencyAt g₁.dependencies b.role.1 path.1 = some d := by
    rw [hd, ← hrecorded.role, ← hrecorded.path]
    refine dependencyAt_new fun y hy => ?_
    rw [hrecorded.role]
    exact (hfresh y hy).1
  refine ⟨fun _ => hexporting, fun hpresent e g₂ he => ?_⟩
  rw [hfound] at hpresent
  have hpresent : d.present = true := hpresent
  have hdigest : d.digest = digest raw := by rw [hrecorded.digest, if_pos hpresent]
  have hothers : ∀ y ∈ g₁.dependencies, y.role = b.role.1 → y.digest = digest raw := by
    intro y hy hyrole
    rw [hd] at hy
    obtain hy | hy := List.mem_append.mp hy
    · exact ((hfresh y hy).1 hyrole).elim
    · rw [List.mem_singleton.mp hy]
      exact hdigest
  obtain ⟨hsome, rfl⟩ | ⟨hnone, ds', d', hd', hroles', hrecorded', hin'⟩ := exporter_ok hreads he
  · exact ⟨hsome ▸ hexporting, hin hpresent, ⟨d, hfound, hpresent, hdigest⟩, hothers⟩
  · have hlinks' : ∀ y ∈ ds', y.role ∉ exportRoles := fun y hy => by
      rw [hroles' y hy]
      exact linkRole_plain _
    have hne : ∀ b ∈ books, exporterRole.1 ≠ b.role.1 := by decide
    rw [hnone] at hexporting
    rw [hd']
    refine ⟨(hexporting.others hlinks').found hrecorded' hin', hin hpresent, ⟨d, ?_, hpresent, hdigest⟩, ?_⟩
    · exact dependencyAt_append (dependencyAt_append hfound)
    · intro y hy hyrole
      obtain hy | hy := List.mem_append.mp hy
      · obtain hy | hy := List.mem_append.mp hy
        · exact hothers y hy hyrole
        · exact (hlinks' y hy (hyrole ▸ hmember.1)).elim
      · rw [List.mem_singleton.mp hy, hrecorded'.role] at hyrole
        exact (hne b hb hyrole).elim

/-- A book without an earlier inventory. -/
theorem collectBook_exports (hreads : ReadsIn contents tree overrides) (hb : b ∈ books)
    {x y : Gathering × Option (CText × Bytes)} (hx : BetweenBooks site contents x) (hunread : Unread b x.1.dependencies)
    (h : collectBook site tree [] overrides b x = .ok y) : BetweenBooks site contents y := by
  unfold collectBook at h
  obtain ⟨⟨raw, g₁⟩, hinput, h⟩ := bind_eq_ok_iff.mp h
  obtain ⟨habsent, hpresent⟩ := collectBook_decides hreads hb hx hunread hinput
  dsimp only at h
  split at h
  · rename_i hany
    obtain ⟨⟨e', g₂⟩, hexporter, h⟩ := bind_eq_ok_iff.mp h
    have hdeciding := hpresent hany e' g₂ hexporter
    obtain ⟨exported, hexported, h⟩ := bind_eq_ok_iff.mp h
    obtain ⟨g₃, hfinish, h⟩ := bind_eq_ok_iff.mp h
    cases h
    obtain ⟨d, hd, hrecorded⟩ := finishBook_ok hfinish
    have hrun : exportBook site e'.2 raw = some exported := orFail_ok hexported
    show Exporting site contents g₃.dependencies (some e')
    rw [hd]
    refine hdeciding.exporting.export hb hrecorded.role fun _ => ⟨raw, hdeciding.raw_in, e', rfl, ?_, hdeciding.others⟩
    rw [hrecorded.auxiliary]
    exact hrun
  · rename_i hany
    obtain ⟨g₃, hfinish, h⟩ := bind_eq_ok_iff.mp h
    cases h
    obtain ⟨d, hd, hrecorded⟩ := finishBook_ok hfinish
    show Exporting site contents g₃.dependencies x.2
    rw [hd]
    refine (habsent (by simpa using hany)).export hb hrecorded.role fun hp => ?_
    rw [hrecorded.present] at hp
    cases hp

theorem collectBook_unread (hreads : ReadsIn contents tree overrides) {b' : BookRoles} (hb : b ∈ books)
    (hb' : b' ∈ books) (hne : b.role.1 ≠ b'.role.1) {x y : Gathering × Option (CText × Bytes)}
    (hunread : Unread b' x.1.dependencies) (h : collectBook site tree [] overrides b x = .ok y) :
    Unread b' y.1.dependencies := by
  have hroles : ∀ b ∈ books, ∀ b' ∈ books, b.role.1 ≠ b'.role.1 →
      b.role.1 ≠ b'.exportRole.1 ∧ b.exportRole.1 ≠ b'.role.1 ∧ b.exportRole.1 ≠ b'.exportRole.1 ∧
        exporterRole.1 ≠ b'.role.1 ∧ exporterRole.1 ≠ b'.exportRole.1 := by decide
  have hmember : ∀ b ∈ books, b.role.1 ∈ exportRoles ∧ b.exportRole.1 ∈ exportRoles := by decide
  obtain ⟨h1, h2, h3, h4, h5⟩ := hroles b hb b' hb' hne
  have hlink : ∀ role, linkRole role ≠ b'.role.1 ∧ linkRole role ≠ b'.exportRole.1 := fun role =>
    ⟨fun heq => linkRole_plain role (heq ▸ (hmember b' hb').1), fun heq => linkRole_plain role (heq ▸ (hmember b' hb').2)⟩
  have hadd : ∀ {l ds : List Dependency} {d : Dependency}, Unread b' l → (∀ y ∈ ds, ∃ role, y.role = linkRole role) →
      d.role ≠ b'.role.1 ∧ d.role ≠ b'.exportRole.1 → Unread b' (l ++ ds ++ [d]) := by
    intro l ds d hl hds hd y hy
    rw [List.mem_append, List.mem_append, List.mem_singleton] at hy
    obtain (hy | hy) | rfl := hy
    · exact hl y hy
    · obtain ⟨role, hrole⟩ := hds y hy
      rw [hrole]
      exact hlink role
    · exact hd
  have hfinish : ∀ {g g' : Gathering} {present : Bool} {path : CText} {exported : Bytes},
      Unread b' g.dependencies → g.finishBook b path present exported = .ok g' → Unread b' g'.dependencies := by
    intro g g' present path exported hg hf
    obtain ⟨d, hd, hrecorded⟩ := finishBook_ok hf
    rw [hd, ← List.append_nil g.dependencies]
    exact hadd hg (fun _ h => (by cases h)) (by rw [hrecorded.role]; exact ⟨h2, h3⟩)
  unfold collectBook at h
  obtain ⟨⟨raw, g₁⟩, hinput, h⟩ := bind_eq_ok_iff.mp h
  obtain ⟨ds, d, hd, hlinks, hrecorded, -⟩ := input_ok hreads hinput
  have hg₁ : Unread b' g₁.dependencies := by
    rw [hd]
    exact hadd hunread (fun y hy => ⟨_, hlinks y hy⟩) (by rw [hrecorded.role]; exact ⟨hne, h1⟩)
  dsimp only at h
  split at h
  · obtain ⟨⟨e', g₂⟩, hexporter, h⟩ := bind_eq_ok_iff.mp h
    have hg₂ : Unread b' g₂.dependencies := by
      obtain ⟨-, rfl⟩ | ⟨-, ds', d', hd', hlinks', hrecorded', -⟩ := exporter_ok hreads hexporter
      · exact hg₁
      · rw [hd']
        exact hadd hg₁ (fun y hy => ⟨_, hlinks' y hy⟩) (by rw [hrecorded'.role]; exact ⟨h4, h5⟩)
    obtain ⟨exported, -, h⟩ := bind_eq_ok_iff.mp h
    obtain ⟨g₃, hf, h⟩ := bind_eq_ok_iff.mp h
    cases h
    exact hfinish (g := { g₂ with errorPath := (joinPath site.root b.name).1 }) hg₂ hf
  · obtain ⟨g₃, hf, h⟩ := bind_eq_ok_iff.mp h
    cases h
    exact hfinish hg₁ hf

/-! ### Earlier inventories -/

/-- Every recorded export is the exporter's answer to what was read. -/
def Faithful (site : Site) (contents : Set Bytes) (deps : List Dependency) : Prop :=
  ∀ b ∈ books, ∀ book ∈ deps, ∀ exported ∈ deps, ∀ exporter ∈ deps,
    book.role = b.role.1 → exported.role = b.exportRole.1 → exporter.role = exporterRole.1 →
      book.present = true → exported.present = true → exporter.present = true → ∀ raw ∈ contents, ∀ executable ∈ contents,
        book.digest = digest raw → exporter.digest = digest executable →
          exportBook site executable raw = some exported.auxiliary

theorem Exporting.faithful (hdistinct : Set.InjOn digest contents) (h : Exporting site contents deps e) :
    Faithful site contents deps := by
  intro b hb book hbook exported hexported exporter hexporter hrole herole hxrole _ hpresent _ raw hraw executable
    hexecutable hdigest hxdigest
  obtain ⟨raw', hraw', e', he, hexport, hsame⟩ := h.exports b hb exported hexported herole hpresent
  obtain ⟨e'', he', hxsame⟩ := h.exporter exporter hexporter hxrole
  rw [he] at he'
  cases he'
  have hraws : raw = raw' := hdistinct hraw hraw' (hdigest.symm.trans (hsame book hbook hrole))
  have hexecutables : executable = e'.2 := hdistinct hexecutable (h.known e' he).1 (hxdigest.symm.trans hxsame)
  rw [hraws, hexecutables]
  exact hexport

theorem exportRow_length {out row out' : Bytes} (h : exportRow out row = some out') (hout : out.length ≤ cacheMax) :
    out'.length ≤ cacheMax := by
  unfold exportRow at h
  dsimp only at h
  generalize (if row.getLast? = some 13 then row.dropLast else row) = t at h
  split at h
  · cases h
    exact hout
  · split at h
    · cases h
    · obtain ⟨mid, -, h⟩ := Option.bind_eq_some_iff.mp h
      unfold bytesAdd at h
      split at h
      · rename_i hfits
        cases h
        rw [List.length_append]
        omega
      · cases h

theorem exportBook_length {executable raw out : Bytes} (h : exportBook site executable raw = some out) :
    out.length ≤ cacheMax := by
  have hrows : ∀ {rows : List Bytes} {x y : Bytes}, rows.foldlM exportRow x = some y → x.length ≤ cacheMax →
      y.length ≤ cacheMax := by
    intro rows
    induction rows with
    | nil =>
      intro x y h hx
      cases h
      exact hx
    | cons row rows ih =>
      intro x y h hx
      rw [List.foldlM_cons] at h
      obtain ⟨z, hz, h⟩ := Option.bind_eq_some_iff.mp h
      exact ih h (exportRow_length hz hx)
  unfold exportBook at h
  split at h
  · cases h
    exact Nat.zero_le _
  · obtain ⟨result, -, h⟩ := Option.bind_eq_some_iff.mp h
    split at h
    · cases h
    · exact hrows h (Nat.zero_le _)

/-- What is taken from an earlier inventory is the present answer. -/
theorem exported_reuses {prior : List Dependency} (hprior : Faithful site contents prior) (hb : b ∈ books)
    {raw : Bytes} {e' : CText × Bytes} (h : Deciding site contents b path raw e' g.dependencies) :
    g.exported site prior b path e' raw = g.exported site [] b path e' raw := by
  show _ = g.orFail .io (exportBook site e'.2 raw)
  unfold Gathering.exported
  split
  · rename_i earlier hreusable
    unfold reusableExport at hreusable
    split at hreusable
    · rename_i book exported hbook hexported
      dsimp only at hreusable
      split at hreusable
      · rename_i hsame
        cases hreusable
        simp only [Bool.and_eq_true] at hsame
        obtain ⟨⟨⟨⟨⟨⟨⟨⟨hbookpresent, hpresent⟩, hsamebook⟩, hsameexporter⟩, _⟩, _⟩, _⟩, _⟩, _⟩ := hsame
        obtain ⟨d, hd, hdpresent, hddigest⟩ := h.book
        obtain ⟨hein, x, hx, hxpresent, hxdigest⟩ := h.exporting.known e' rfl
        have hdigests : ∀ {a d : Dependency}, d.present = true → sameDependency (some a) (some d) = true →
            a.present = true ∧ a.digest = d.digest := by
          intro a d hp hs
          simp only [sameDependency, hp, Bool.and_eq_true, beq_iff_eq] at hs
          obtain ⟨⟨hap, hdigest⟩, -⟩ := hs
          exact ⟨hap, by simpa [hap] using hdigest⟩
        rw [hbook, hd] at hsamebook
        rw [hx] at hsameexporter
        obtain ⟨exporter, hexporter⟩ : ∃ exporter, dependencyAt prior exporterRole.1 e'.1.1 = some exporter := by
          cases hat : dependencyAt prior exporterRole.1 e'.1.1 with
          | none =>
            rw [hat] at hsameexporter
            cases hsameexporter
          | some exporter => exact ⟨exporter, rfl⟩
        rw [hexporter] at hsameexporter
        obtain ⟨hbookin, hbookrole, -⟩ := dependencyAt_some hbook
        obtain ⟨hexportedin, hexportedrole, -⟩ := dependencyAt_some hexported
        obtain ⟨hexporterin, hexporterrole, -⟩ := dependencyAt_some hexporter
        have hanswer := hprior b hb book hbookin earlier hexportedin exporter hexporterin hbookrole hexportedrole
          hexporterrole hbookpresent hpresent (hdigests hxpresent hsameexporter).1 raw h.raw_in e'.2 hein
          ((hdigests hdpresent hsamebook).2.trans hddigest) ((hdigests hxpresent hsameexporter).2.trans hxdigest)
        rw [hanswer]
        have hlength := exportBook_length hanswer
        rw [bytesAdd, if_pos ⟨Nat.zero_le _, by simpa using hlength⟩]
        rfl
      · cases hreusable
    · cases hreusable
  · rfl

/-- One book, with an earlier inventory and without. -/
theorem collectBook_reuses (hreads : ReadsIn contents tree overrides) {prior : List Dependency}
    (hprior : Faithful site contents prior) (hb : b ∈ books) {x : Gathering × Option (CText × Bytes)}
    (hx : BetweenBooks site contents x) (hunread : Unread b x.1.dependencies) :
    collectBook site tree prior overrides b x = collectBook site tree [] overrides b x := by
  unfold collectBook
  dsimp only
  cases hinput : x.1.input tree overrides b.role (joinPath site.root b.name) false with
  | error f => rfl
  | ok r =>
    obtain ⟨raw, g₁⟩ := r
    obtain ⟨-, hpresent⟩ := collectBook_decides hreads hb hx hunread hinput
    simp only [bind, Except.bind]
    split
    · rename_i hany
      cases hexporter : g₁.exporter site tree overrides x.2 with
      | error f => rfl
      | ok r =>
        obtain ⟨e', g₂⟩ := r
        have hdeciding := hpresent hany e' g₂ hexporter
        dsimp only
        rw [@exported_reuses site contents { g₂ with errorPath := (joinPath site.root b.name).1 } b _ prior hprior hb raw e' hdeciding]
    · rfl

/-- A whole collection, with an earlier inventory and without. -/
theorem collect_reuses (hreads : ReadsIn contents tree overrides) {prior : List Dependency}
    (hprior : Faithful site contents prior) :
    collect site tree prior overrides = collect site tree [] overrides := by
  unfold collect
  cases hhead : collectHead site tree overrides with
  | error f => rfl
  | ok r =>
    obtain ⟨g, profile⟩ := r
    have hplain := plain_head hreads hhead
    have hstart : BetweenBooks site contents (g, none) := exporting_plain hplain
    have hmember : ∀ b ∈ books, b.role.1 ∈ exportRoles ∧ b.exportRole.1 ∈ exportRoles := by decide
    have hunread : ∀ b ∈ books, Unread b g.dependencies := fun b hb d hd =>
      ⟨fun heq => hplain d hd (heq ▸ (hmember b hb).1), fun heq => hplain d hd (heq ▸ (hmember b hb).2)⟩
    have hw : whitelistBook ∈ books := by simp [books]
    have hbl : blacklistBook ∈ books := by simp [books]
    simp only [bind, Except.bind]
    rw [collectBook_reuses hreads hprior hw hstart (hunread _ hw)]
    cases hwhite : collectBook site tree [] overrides whitelistBook (g, none) with
    | error f => rfl
    | ok x =>
      dsimp only
      rw [collectBook_reuses hreads hprior hbl (collectBook_exports hreads hw hstart (hunread _ hw) hwhite)
        (collectBook_unread hreads hw hbl (by decide) (hunread _ hbl) hwhite)]

/-- A collection without an earlier inventory records what it was answered. -/
theorem collect_faithful (hdistinct : Set.InjOn digest contents) (hreads : ReadsIn contents tree overrides)
    {profile : Profile} (h : collect site tree [] overrides = .ok (g, profile)) :
    Faithful site contents g.dependencies := by
  unfold collect at h
  obtain ⟨⟨g₁, profile'⟩, hhead, h⟩ := bind_eq_ok_iff.mp h
  obtain ⟨x, hwhite, h⟩ := bind_eq_ok_iff.mp h
  obtain ⟨y, hblack, h⟩ := bind_eq_ok_iff.mp h
  cases h
  have hplain := plain_head hreads hhead
  have hstart : BetweenBooks site contents (g₁, none) := exporting_plain hplain
  have hmember : ∀ b ∈ books, b.role.1 ∈ exportRoles ∧ b.exportRole.1 ∈ exportRoles := by decide
  have hunread : ∀ b ∈ books, Unread b g₁.dependencies := fun b hb d hd =>
    ⟨fun heq => hplain d hd (heq ▸ (hmember b hb).1), fun heq => hplain d hd (heq ▸ (hmember b hb).2)⟩
  have hw : whitelistBook ∈ books := by simp [books]
  have hbl : blacklistBook ∈ books := by simp [books]
  have hx := collectBook_exports hreads hw hstart (hunread _ hw) hwhite
  have hy := collectBook_exports hreads hbl hx (collectBook_unread hreads hw hbl (by decide) (hunread _ hbl) hwhite)
    hblack
  exact hy.faithful hdistinct

/-- The inventories of earlier collections over any trees, as they were left or as a
cache keeps them in its own order. -/
inductive Earlier (site : Site) (contents : Set Bytes) : List Dependency → Prop
  | none : Earlier site contents []
  | collected {prior : List Dependency} {tree : Tree} {overrides : List (CText × Bytes)} {g : Gathering}
      {profile : Profile} : Earlier site contents prior → ReadsIn contents tree overrides →
      collect site tree prior overrides = .ok (g, profile) → Earlier site contents g.dependencies
  | stored {deps : List Dependency} : Earlier site contents deps → Earlier site contents (qsort depCompare deps)

theorem Earlier.faithful (hdistinct : Set.InjOn digest contents) (h : Earlier site contents deps) :
    Faithful site contents deps := by
  induction h with
  | none =>
    intro b _ book hbook
    cases hbook
  | collected _ hreads hcollect ih =>
    rw [collect_reuses hreads ih] at hcollect
    exact collect_faithful hdistinct hreads hcollect
  | stored _ ih =>
    intro b hb book hbook exported hexported exporter hexporter
    exact ih b hb book (mem_qsort.mp hbook) exported (mem_qsort.mp hexported) exporter (mem_qsort.mp hexporter)

end Books

/-- Collecting with the inventory of any earlier run gives what collecting afresh gives:
the same snapshot, or the same failure. -/
theorem earlier_inventory_agrees (site : Site) (contents : Set Bytes) (hdistinct : Set.InjOn digest contents)
    (tree : Tree) (overrides : List (CText × Bytes)) (hreads : ReadsIn contents tree overrides)
    (prior : List Dependency) (hprior : Earlier site contents prior) :
    collect site tree prior overrides = collect site tree [] overrides :=
  collect_reuses hreads (hprior.faithful hdistinct)

/-! ### The sample -/

/-- The files of the sample; all of them hold one byte. -/
def sampleFiles : List Bytes := [cstr "c", cstr "r/Filters.txt", cstr "r/whitelist.abook", cstr "b/abook"]

def sampleSite : Site where
  root := ⟨cstr "r", by decide⟩
  accounts := none
  profile := none
  compiler := ⟨cstr "c", by decide⟩
  path := [⟨cstr "b", by decide⟩]
  exporter := fun _ _ => some (cstr "a@b.c\tA\n")

def sampleTree : Tree where
  lstat := fun p => if sampleFiles.any (· == p.1) then .file else .missing
  stat := fun p => if sampleFiles.any (· == p.1) then .file else .missing
  opened := fun p => if sampleFiles.any (· == p.1) then .data [120] false else .missing
  listing := fun _ => .missing
  executable := fun _ => true

theorem readsIn_sample : ReadsIn {[120]} sampleTree [] := by
  refine ⟨?_, fun o ho => (by cases ho)⟩
  intro path bytes changed h
  simp only [sampleTree] at h
  split at h
  · cases h
    rfl
  · cases h

theorem fixedSettings_length : ∀ c ∈ fixedSettings, c.2.length ≤ cacheMax := by
  have hcatalogue : regexCatalogue.length ≤ cacheMax := regexCatalogue_length.trans (by decide)
  simp only [fixedSettings, List.forall_mem_cons]
  refine ⟨by decide, by decide, by decide, by decide, by decide, by decide, by decide, by decide, by decide,
    by decide, by decide, hcatalogue, by decide, by decide, by simp⟩

theorem collect_sample : ((collect sampleSite sampleTree [] []).toOption.any fun x =>
    x.1.dependencies.any fun d => d.role == cstr "export.whitelist" && d.present) = true := by
  have hstart : (⟨[], [], [], sampleSite.root.1⟩ : Gathering).linkDep sampleTree ⟨cstr "root", by decide⟩
      sampleSite.root = some ⟨[], [], [], sampleSite.root.1⟩ := rfl
  -- The settings are recorded by a lemma: the kernel must not count the bytes of the catalogue.
  have hsettings := configs_eq (g := ⟨[], [], [], sampleSite.root.1⟩) (by decide) fixedSettings_length
  have hok : ∀ {α β : Type} (g : Gathering) (e : CollectError) (a : α) (f : α → Except CollectFailure β),
      (g.orFail e (some a) >>= f) = f a := fun _ _ _ _ => rfl
  rw [collect, collectHead, hstart, hok, hsettings, hok]
  decide

/-- A second run over the sample that finds the export of the first. -/
theorem earlier_inventory_agrees_sample : ∃ prior : List Dependency,
    (prior.any fun d => d.role == cstr "export.whitelist" && d.present) = true ∧
      collect sampleSite sampleTree prior [] = collect sampleSite sampleTree [] [] := by
  have hcollect := collect_sample
  cases h : collect sampleSite sampleTree [] [] with
  | error f =>
    rw [h] at hcollect
    cases hcollect
  | ok x =>
    obtain ⟨g, profile⟩ := x
    rw [h] at hcollect
    have hearlier : Earlier sampleSite {[120]} g.dependencies := .collected .none readsIn_sample h
    refine ⟨g.dependencies, hcollect, ?_⟩
    rw [← h]
    exact earlier_inventory_agrees sampleSite {[120]} (Set.injOn_singleton _ _) sampleTree [] readsIn_sample _ hearlier

end JaroFilter
