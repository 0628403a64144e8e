import JaroFilter.Generation.Sections

/-!
# Compiles and imports beside each other (`generation.c:537-787`)

Any number of processes compile and import one root. Each goes through its
command in turns, cut where it takes or drops the lock; between two of them
the others have theirs, so a snapshot may be stale by the time it is published.
A turn may be cut short anywhere. The next exclusive one recovers first.
-/

namespace JaroFilter

open Lib

/-! ### Turns -/

/-- What a process does next, with what it has in hand and the attempts left. -/
inductive Turn where
  | opening
  | snapshot (previous : Option Generation) (prior : List Dependency) (left : ℕ)
  | warming (previous : Option Generation) (s : Snapshot) (fingerprint : Bytes) (left : ℕ)
  | staging (previous : Option Generation) (s : Snapshot) (fingerprint : Bytes) (p : Products) (left : ℕ)
  | publishing (previous : Option Generation) (s : Snapshot) (fingerprint : Bytes) (p : Products) (left : ℕ)
  | discarding (previous : Option Generation) (r : Attempt) (left : ℕ)
  | importing (imported : Profile → Except ℕ Policy)
  | ended (outcome : Except ℕ Bytes)

/-- The turn after an attempt. -/
def Turn.after (previous : Option Generation) (left : ℕ) : Attempt → Turn
  | .stop outcome => .ended outcome
  | .again prior => .snapshot previous prior left

/-- The turn after the products are built. -/
def Turn.built (pl : Pipeline) (previous : Option Generation) (s : Snapshot) (fingerprint : Bytes) (left : ℕ) :
    Turn :=
  match pl.build s with
  | .error rc => .after previous left (.fail rc)
  | .ok p => .staging previous s fingerprint p left

/-- One turn: a section under the lock, or one on the staged directory of the process. -/
def Turn.take (pl : Pipeline) (host : Host) : Turn → Routine Turn
  | .opening => Prog.bind (openPrevious host) fun opened =>
    match opened with
    | .error rc => .done (.ended (.error rc))
    | .ok (previous, prior) => .done (.snapshot previous prior 3)
  | .snapshot _ _ 0 => .done (.ended (.error 6))
  | .snapshot previous prior (left + 1) => .look fun d =>
    match snapshotSection pl host prior d with
    | .error r => .done (.after previous left r)
    | .ok (s, fingerprint) =>
      if previous.any fun g => g.id == digestHex fingerprint then .done (.warming previous s fingerprint left)
      else .done (.built pl previous s fingerprint left)
  | .warming previous s fingerprint left => .look fun d =>
    match warm pl host s fingerprint d with
    | some r => .done (.after previous left r)
    | none => .done (.built pl previous s fingerprint left)
  | .staging previous s fingerprint p left => Prog.bind (stage host p) fun ok =>
    .done (if ok then .publishing previous s fingerprint p left else .discarding previous (.fail 3) left)
  | .publishing previous s fingerprint p left => Prog.bind (publishSection pl host s fingerprint p) fun r =>
    .done (.discarding previous r left)
  | .discarding previous r left => Prog.bind discardStage fun _ => .done (.after previous left r)
  | .importing imported => Prog.bind (compileImport (pl.importing imported) host) fun outcome => .done (.ended outcome)
  | .ended outcome => .done (.ended outcome)

/-- An attempt that is under way, and what follows it. -/
def goesOn (pl : Pipeline) (host : Host) (previous : Option Generation) (left : ℕ) (q : Routine Attempt) :
    Routine (Except ℕ Bytes) :=
  Prog.bind q fun r =>
    match r with
    | .stop outcome => .done outcome
    | .again prior => attempts pl host previous left prior

/-- What is left of the command. -/
def Turn.rest (pl : Pipeline) (host : Host) : Turn → Routine (Except ℕ Bytes)
  | .opening => compile pl host
  | .snapshot previous prior left => attempts pl host previous left prior
  | .warming previous s fingerprint left => goesOn pl host previous left <| .look fun d =>
    match warm pl host s fingerprint d with
    | some r => .done r
    | none => buildAndPublish pl host s fingerprint
  | .staging previous s fingerprint p left => goesOn pl host previous left <|
    Prog.bind (stage host p) fun ok =>
      Prog.bind (if ok then publishSection pl host s fingerprint p else .done (.fail 3)) fun r =>
        Prog.bind discardStage fun _ => .done r
  | .publishing previous s fingerprint p left => goesOn pl host previous left <|
    Prog.bind (publishSection pl host s fingerprint p) fun r => Prog.bind discardStage fun _ => .done r
  | .discarding previous r left => goesOn pl host previous left <| Prog.bind discardStage fun _ => .done r
  | .importing imported => compileImport (pl.importing imported) host
  | .ended outcome => .done outcome

section Rest

variable {pl : Pipeline} {host : Host}

theorem rest_after (previous : Option Generation) (left : ℕ) (r : Attempt) :
    (Turn.after previous left r).rest pl host = goesOn pl host previous left (.done r) := by
  cases r <;> rfl

theorem rest_built (previous : Option Generation) (s : Snapshot) (fingerprint : Bytes) (left : ℕ) :
    (Turn.built pl previous s fingerprint left).rest pl host =
      goesOn pl host previous left (buildAndPublish pl host s fingerprint) := by
  unfold Turn.built buildAndPublish
  cases pl.build s with
  | error rc => exact rest_after _ _ _
  | ok p => rfl

/-- The turns are the command: after each, what is left is what its result says. -/
theorem take_rest (t : Turn) : Prog.bind (t.take pl host) (Turn.rest pl host) = t.rest pl host := by
  cases t with
  | opening =>
    show Prog.bind (Prog.bind _ _) _ = Prog.bind _ _
    rw [Prog.bind_assoc]
    congr 1
    funext opened
    cases opened <;> rfl
  | snapshot previous prior left =>
    cases left with
    | zero => rfl
    | succ left =>
      show Prog.look _ = Prog.look _
      congr 1
      funext d
      dsimp only
      cases hs : snapshotSection pl host prior d with
      | error r => exact rest_after _ _ _
      | ok x =>
        obtain ⟨s, fingerprint⟩ := x
        dsimp only
        split
        · rfl
        · exact rest_built _ _ _ _
  | warming previous s fingerprint left =>
    show Prog.look _ = Prog.look _
    congr 1
    funext d
    dsimp only
    split
    · exact rest_after _ _ _
    · exact rest_built _ _ _ _
  | staging previous s fingerprint p left =>
    show Prog.bind (Prog.bind _ _) _ = Prog.bind (Prog.bind _ _) _
    rw [Prog.bind_assoc, Prog.bind_assoc]
    congr 1
    funext ok
    cases ok <;> rfl
  | publishing previous s fingerprint p left =>
    show Prog.bind (Prog.bind _ _) _ = Prog.bind (Prog.bind _ _) _
    rw [Prog.bind_assoc, Prog.bind_assoc]
    rfl
  | discarding previous r left =>
    show Prog.bind (Prog.bind _ _) _ = Prog.bind (Prog.bind _ _) _
    rw [Prog.bind_assoc, Prog.bind_assoc]
    congr 1
    funext x
    exact rest_after _ _ _
  | importing imported =>
    show Prog.bind (Prog.bind _ _) _ = _
    rw [Prog.bind_assoc]
    exact Prog.bind_done _
  | ended outcome => rfl

end Rest

/-! ### Processes -/

/-- A reader opens the generation that is selected. -/
theorem pinLocked_opens {host : Host} {d : Disk} {g : Generation} (h : pinLocked host d none = .ok g) :
    openGeneration host d g.id = .ok g ∧ g.id ≠ [] := by
  unfold pinLocked at h
  split at h
  · cases h
  obtain ⟨id, hid, h⟩ := bind_eq_ok_iff.mp h
  obtain ⟨g', hopens, h⟩ := bind_eq_ok_iff.mp h
  have hne : id ≠ [] := by
    unfold pinId at hid
    simp only at hid
    split at hid
    · split at hid
      · cases hid
      · cases hid
        assumption
    · cases hid
  have hpublic : ∀ published : Generation, (if publicStatus host d published.sieve = 0 then
      (Except.ok g' : Except ℕ Generation) else .error (publicStatus host d published.sieve)) = .ok g → g' = g := by
    intro published hp
    split at hp
    · cases hp
      rfl
    · cases hp
  have hg : g' = g := by
    split at h
    · split at h
      · exact hpublic g' h
      · obtain ⟨published, -, h⟩ := bind_eq_ok_iff.mp h
        exact hpublic published h
    · cases h
      rfl
  have hsame : g.id = id := by rw [← hg, openGeneration_id hopens]
  rw [hsame, ← hg]
  exact ⟨hopens, hne⟩

/-- The staged directory of a process, under a name that no other uses. -/
structure Stage where
  staged : Bool
  files : Product → Option Node

def Disk.stage (d : Disk) : Stage := ⟨d.staged, fun f => d.files (.building f)⟩

/-- The root as a process with this staged directory sees it. -/
def Disk.withStage (d : Disk) (st : Stage) : Disk where
  files := fun q =>
    match q with
    | .building f => st.files f
    | q => d.files q
  staged := st.staged
  generations := d.generations

theorem withStage_stage (d : Disk) : d.withStage d.stage = d := by
  obtain ⟨files, staged, generations⟩ := d
  simp only [Disk.withStage, Disk.stage, Disk.mk.injEq, and_true]
  funext q
  cases q <;> rfl

/-- One root and the processes on it; one that was killed has no turn. -/
structure Processes (ι : Type) where
  disk : Disk
  turn : ι → Option Turn
  stage : ι → Stage

variable {ι : Type} [DecidableEq ι]

/-- A turn of any process, in which any calls may fail and which may be killed. -/
inductive Processes.Step (pl : Pipeline) (host : Host) : Processes ι → Processes ι → Prop
  | take {x : Processes ι} {i : ι} {t : Turn} {r : Option Turn × Disk} : x.turn i = some t →
      Prog.Rough disks (t.take pl host) (x.disk.withStage (x.stage i)) r →
      Step pl host x ⟨r.2, Function.update x.turn i r.1, Function.update x.stage i r.2.stage⟩

/-- The snapshot a process has in hand, with its fingerprint. -/
structure Pipeline.Has (pl : Pipeline) (known : Set Generation) (s : Snapshot) (fingerprint : Bytes) : Prop where
  collected : pl.Collected known s
  fingerprint : dependenciesFingerprint s.dependencies = .ok fingerprint

/-- What a process has in hand was made from one snapshot. -/
def Turn.Holds (pl : Pipeline) (known : Set Generation) (st : Stage) : Turn → Prop
  | .snapshot _ prior _ => Honest pl known prior
  | .warming _ s fingerprint _ => pl.Has known s fingerprint
  | .staging _ s fingerprint p _ => pl.Has known s fingerprint ∧ pl.build s = .ok p
  | .publishing _ s fingerprint p _ =>
    pl.Has known s fingerprint ∧ pl.build s = .ok p ∧ st.files = (productDirectory p).files
  | .discarding _ r _ => ∀ prior, r = .again prior → Honest pl known prior
  | _ => True

structure Processes.Kept (pl : Pipeline) (host : Host) (known : Set Generation) (x : Processes ι) : Prop where
  coherent : Coherent pl host known x.disk
  turns : ∀ i t, x.turn i = some t → t.Holds pl known (x.stage i)

section Kept

variable {pl : Pipeline} {host : Host} {known : Set Generation} {d : Disk} {st : Stage} {x y : Processes ι}

theorem Coherent.withStage (h : Coherent pl host known d) (st : Stage) :
    Coherent pl host known (d.withStage st) := by
  refine h.beside ⟨?_, fun _ _ hdir => hdir⟩ (h.known_in.same rfl)
  intro q hq
  cases q with
  | building f => cases hq
  | _ => rfl

theorem holds_after {previous : Option Generation} {left : ℕ} {r : Attempt}
    (h : ∀ prior, r = .again prior → Honest pl known prior) : (Turn.after previous left r).Holds pl known st := by
  cases r with
  | stop outcome => trivial
  | again prior => exact h prior rfl

theorem fails_honest {rc : ℕ} : ∀ prior, Attempt.fail rc = .again prior → Honest pl known prior :=
  fun _ h => (by cases h)

theorem holds_built {previous : Option Generation} {s : Snapshot} {fingerprint : Bytes} {left : ℕ}
    (h : pl.Has known s fingerprint) : (Turn.built pl previous s fingerprint left).Holds pl known st := by
  unfold Turn.built
  split
  · exact holds_after fails_honest
  · rename_i p hbuild
    exact ⟨h, hbuild⟩

/-- What the first section of an attempt comes to. -/
theorem snapshotSection_holds {prior : List Dependency} (hprior : Honest pl known prior) :
    match snapshotSection pl host prior d with
    | .error r => ∀ prior, r = .again prior → Honest pl known prior
    | .ok (s, fingerprint) => pl.Has known s fingerprint := by
  unfold snapshotSection
  by_cases hfinished : unfinished host d = true
  · rw [if_pos hfinished]
    exact fails_honest
  rw [if_neg hfinished]
  cases hs : pl.collect prior (inputsOf d) with
  | error rc =>
    intro prior' h
    split at h
    · cases h
      exact hprior
    · cases h
  | ok s =>
    dsimp only
    cases hf : dependenciesFingerprint s.dependencies with
    | error rc => exact fails_honest
    | ok fingerprint => exact ⟨⟨_, _, hprior, hs⟩, hf⟩

/-- What the shared section for unchanged inputs starts the next attempt from. -/
theorem warm_again {s : Snapshot} {fingerprint : Bytes} (h : pl.Has known s fingerprint) {r : Attempt}
    (hr : warm pl host s fingerprint d = some r) : ∀ prior, r = .again prior → Honest pl known prior := by
  unfold warm at hr
  cases hs : pl.collect s.dependencies (inputsOf d) with
  | error rc =>
    rw [hs] at hr
    cases hr
    exact fails_honest
  | ok recheck =>
    have hrecheck : Honest pl known recheck.dependencies := .taken h.collected.honest hs
    rw [hs] at hr
    dsimp only at hr
    intro prior hprior
    subst hprior
    repeat' split at hr
    all_goals
      first
      | cases hr
        exact hrecheck
      | cases hr

/-- What the cache of a selected generation starts the first attempt from. -/
theorem openPrevious_honest (h : Coherent pl host known d) {u : Disk} {previous : Option Generation}
    {prior : List Dependency}
    (hr : Prog.Rough disks (openPrevious host) d (some (.ok (previous, prior)), u)) : Honest pl known prior := by
  obtain ⟨hnone, -⟩ | ⟨rc, w, hx, hrest⟩ := Prog.rough_bind disks hr
  · cases hnone
  have hw := (h.recovered hx).1
  have hdone : ∀ {x : Except ℕ (Option Generation × List Dependency)},
      Prog.Rough disks (.done x) w (some (.ok (previous, prior)), u) → x = .ok (previous, prior) := by
    intro x hx
    obtain hx | hx := Prog.rough_done disks hx
    · cases hx
    · cases hx
      rfl
  clear hr
  split at hrest
  · cases hdone hrest
  replace hrest := Prog.rough_look disks hrest
  split at hrest
  · cases hdone hrest
  split at hrest
  · cases hdone hrest
    exact .none
  split at hrest
  · cases hdone hrest
  rename_i g hg
  split at hrest
  · cases hdone hrest
  rename_i deps hdeps
  cases hdone hrest
  exact .stored (hw.known_in _ g (pinLocked_opens hg).1) hdeps

theorem rough_openPrevious (h : Coherent pl host known d) {r : Option (Except ℕ (Option Generation × List Dependency)) × Disk}
    (hr : Prog.Rough disks (openPrevious host) d r) : Coherent pl host known r.2 := by
  obtain ⟨-, hr⟩ | ⟨rc, u, hx, hr⟩ := Prog.rough_bind disks hr
  · exact (h.recovered hr).1
  have hu := (h.recovered hx).1
  refine hu.confined ?_ hr
  split
  · trivial
  · refine Prog.calls_look fun d => ?_
    repeat' split
    all_goals trivial

/-- A turn keeps the root coherent, and what it hands on fits together. -/
theorem rough_take (hpl : Steady pl known) (hdistinct : Distinct pl known) {t : Turn} (h : Coherent pl host known d)
    (ht : t.Holds pl known d.stage) {r : Option Turn × Disk} (hr : Prog.Rough disks (t.take pl host) d r) :
    Coherent pl host known r.2 ∧ ∀ t', r.1 = some t' → t'.Holds pl known r.2.stage := by
  have hdone : ∀ {u : Disk} {t' : Turn}, Coherent pl host known u → Prog.Rough disks (.done t') u r →
      t'.Holds pl known u.stage → Coherent pl host known r.2 ∧ ∀ t', r.1 = some t' → t'.Holds pl known r.2.stage := by
    intro u t' hu hx ht'
    obtain rfl | rfl := Prog.rough_done disks hx
    · exact ⟨hu, fun _ h => (by cases h)⟩
    · exact ⟨hu, fun _ h => (by cases h; exact ht')⟩
  have hkilled : ∀ {u : Disk}, r.1 = none → Coherent pl host known u → u = r.2 →
      Coherent pl host known r.2 ∧ ∀ t', r.1 = some t' → t'.Holds pl known r.2.stage := by
    rintro u hnone hu rfl
    exact ⟨hu, fun _ h => (by rw [hnone] at h; cases h)⟩
  cases t with
  | opening =>
    obtain ⟨hnone, hx⟩ | ⟨opened, u, hx, hr⟩ := Prog.rough_bind disks hr
    · exact hkilled hnone (rough_openPrevious h hx) rfl
    · have hu := rough_openPrevious h hx
      cases opened with
      | error rc => exact hdone hu hr trivial
      | ok o =>
        obtain ⟨previous, prior⟩ := o
        exact hdone hu hr (openPrevious_honest h hx)
  | snapshot previous prior left =>
    cases left with
    | zero => exact hdone h hr trivial
    | succ left =>
      replace hr := Prog.rough_look disks hr
      have hholds := @snapshotSection_holds pl host known d prior ht
      cases hs : snapshotSection pl host prior d with
      | error e =>
        rw [hs] at hr hholds
        exact hdone h hr (holds_after hholds)
      | ok o =>
        obtain ⟨s, fingerprint⟩ := o
        rw [hs] at hr hholds
        dsimp only at hr
        split at hr
        · exact hdone h hr hholds
        · exact hdone h hr (holds_built hholds)
  | warming previous s fingerprint left =>
    replace hr := Prog.rough_look disks hr
    split at hr
    · rename_i r' hwarm
      exact hdone h hr (holds_after (warm_again ht hwarm))
    · exact hdone h hr (holds_built ht)
  | staging previous s fingerprint p left =>
    obtain ⟨hnone, hx⟩ | ⟨ok, u, hx, hr⟩ := Prog.rough_bind disks hr
    · exact hkilled hnone (h.confined calls_stage hx) rfl
    have hu : Coherent pl host known u := h.confined calls_stage hx
    cases ok with
    | false => exact hdone hu hr fails_honest
    | true =>
      have hcomplete := complete_of_pipeline ht.2
      have hrun := Prog.rough_fast_true disks (fast_stage p) hx rfl
      rw [run_stage hcomplete, Prod.mk.injEq] at hrun
      obtain ⟨-, rfl⟩ := hrun
      exact hdone hu hr ⟨ht.1, ht.2, rfl⟩
  | publishing previous s fingerprint p left =>
    obtain ⟨⟨htaken, hf⟩, hbuild, hfiles⟩ := ht
    have hstage : stagedFiles d = productDirectory p := by
      show Directory.mk d.stage.files false directoryMode = _
      rw [hfiles]
      rfl
    obtain ⟨hnone, hx⟩ | ⟨attempt, u, hx, hr⟩ := Prog.rough_bind disks hr
    · exact hkilled hnone (rough_publishSection hpl hdistinct htaken hbuild hf hstage h hx) rfl
    · refine hdone (rough_publishSection hpl hdistinct htaken hbuild hf hstage h hx) hr fun prior hprior => ?_
      subst hprior
      exact publishSection_again htaken hx
  | discarding previous attempt left =>
    obtain ⟨hnone, hx⟩ | ⟨_, u, hx, hr⟩ := Prog.rough_bind disks hr
    · exact hkilled hnone (h.confined calls_discard hx) rfl
    · exact hdone (h.confined calls_discard hx) hr (holds_after ht)
  | importing imported =>
    obtain ⟨hnone, hx⟩ | ⟨outcome, u, hx, hr⟩ := Prog.rough_bind disks hr
    · exact hkilled hnone (rough_compileImport hpl hdistinct h hx) rfl
    · exact hdone (rough_compileImport hpl hdistinct h hx) hr trivial
  | ended outcome => exact hdone h hr trivial

/-- One step, of whichever process. -/
theorem Processes.Kept.step (hpl : Steady pl known) (hdistinct : Distinct pl known) (h : x.Kept pl host known)
    (hs : Processes.Step pl host x y) : y.Kept pl host known := by
  cases hs with
  | @take i t r hi hr =>
    obtain ⟨hcoherent, hturn⟩ := rough_take hpl hdistinct (h.coherent.withStage (x.stage i)) (h.turns i t hi) hr
    refine ⟨hcoherent, fun j t' hj => ?_⟩
    by_cases hji : j = i
    · subst hji
      simp only [Function.update_self] at hj ⊢
      exact hturn t' hj
    · simp only [Function.update_of_ne hji] at hj ⊢
      exact h.turns j t' hj

/-- All steps of all processes, in any order. -/
theorem Processes.Kept.reach (hpl : Steady pl known) (hdistinct : Distinct pl known) (h : x.Kept pl host known)
    (hs : Relation.ReflTransGen (Processes.Step pl host) x y) : y.Kept pl host known := by
  induction hs with
  | refl => exact h
  | tail _ hstep ih => exact ih.step hpl hdistinct hstep

end Kept

/-! ### A command and its turns -/

section Commands

variable {pl : Pipeline} {host : Host} {x : Processes ι}

/-- How many turns are left at most. -/
def Turn.rank : Turn → ℕ
  | .opening => 17
  | .snapshot _ _ left => 5 * left + 1
  | .warming _ _ _ left => 5 * left + 5
  | .staging _ _ _ _ left => 5 * left + 4
  | .publishing _ _ _ _ left => 5 * left + 3
  | .discarding _ _ left => 5 * left + 2
  | .importing _ => 1
  | .ended _ => 0

theorem rank_after (previous : Option Generation) (left : ℕ) (r : Attempt) :
    (Turn.after previous left r).rank ≤ 5 * left + 1 := by
  cases r <;> simp [Turn.after, Turn.rank]

theorem rank_built (previous : Option Generation) (s : Snapshot) (fingerprint : Bytes) (left : ℕ) :
    (Turn.built pl previous s fingerprint left).rank ≤ 5 * left + 4 := by
  unfold Turn.built
  split
  · exact (rank_after _ _ _).trans (by omega)
  · exact le_rfl

/-- Every turn but the last leaves fewer. -/
theorem rank_take {t t' : Turn} {d u : Disk} (h : Prog.Rough disks (t.take pl host) d (some t', u))
    (hne : ∀ outcome, t ≠ .ended outcome) : t'.rank < t.rank := by
  have hdone : ∀ {v : Turn} {w : Disk}, Prog.Rough disks (.done v) w (some t', u) → t' = v := by
    intro v w hx
    obtain hx | hx := Prog.rough_done disks hx
    · cases hx
    · cases hx
      rfl
  have hbind : ∀ {α : Type} {q : Routine α} {f : α → Routine Turn},
      Prog.Rough disks (Prog.bind q f) d (some t', u) → ∃ a w, Prog.Rough disks (f a) w (some t', u) := by
    intro α q f hx
    obtain ⟨hnone, -⟩ | ⟨a, w, -, hx⟩ := Prog.rough_bind disks hx
    · cases hnone
    · exact ⟨a, w, hx⟩
  cases t with
  | opening =>
    obtain ⟨opened, w, h⟩ := hbind h
    cases opened with
    | error rc =>
      obtain rfl := hdone h
      simp [Turn.rank]
    | ok o =>
      obtain rfl := hdone h
      simp [Turn.rank]
  | snapshot previous prior left =>
    cases left with
    | zero =>
      obtain rfl := hdone h
      simp [Turn.rank]
    | succ left =>
      replace h := Prog.rough_look disks h
      cases hs : snapshotSection pl host prior d with
      | error e =>
        rw [hs] at h
        obtain rfl := hdone h
        exact (rank_after _ _ _).trans_lt (by simp only [Turn.rank]; omega)
      | ok o =>
        rw [hs] at h
        obtain ⟨s, fingerprint⟩ := o
        dsimp only at h
        split at h
        · obtain rfl := hdone h
          simp only [Turn.rank]
          omega
        · obtain rfl := hdone h
          exact (rank_built _ _ _ _).trans_lt (by simp only [Turn.rank]; omega)
  | warming previous s fingerprint left =>
    replace h := Prog.rough_look disks h
    split at h
    · obtain rfl := hdone h
      exact (rank_after _ _ _).trans_lt (by simp only [Turn.rank]; omega)
    · obtain rfl := hdone h
      exact (rank_built _ _ _ _).trans_lt (by simp only [Turn.rank]; omega)
  | staging previous s fingerprint p left =>
    obtain ⟨ok, w, h⟩ := hbind h
    obtain rfl := hdone h
    cases ok <;> simp [Turn.rank]
  | publishing previous s fingerprint p left =>
    obtain ⟨r, w, h⟩ := hbind h
    obtain rfl := hdone h
    simp [Turn.rank]
  | discarding previous r left =>
    obtain ⟨a, w, h⟩ := hbind h
    obtain rfl := hdone h
    exact (rank_after _ _ _).trans_lt (by simp [Turn.rank])
  | importing imported =>
    obtain ⟨outcome, w, h⟩ := hbind h
    obtain rfl := hdone h
    simp [Turn.rank]
  | ended outcome => exact absurd rfl (hne outcome)

/-- What is left of a command, run on its own with any failures, is a run of the turns of
its process. -/
theorem rest_takes {i : ι} {t : Turn} (hi : x.turn i = some t) {r : Option (Except ℕ Bytes) × Disk}
    (hr : Prog.Rough disks (t.rest pl host) (x.disk.withStage (x.stage i)) r) :
    ∃ y, Relation.ReflTransGen (Processes.Step pl host) x y ∧ y.disk.withStage (y.stage i) = r.2 ∧
      ∀ outcome, r.1 = some outcome → y.turn i = some (.ended outcome) := by
  induction hrank : t.rank using Nat.strong_induction_on generalizing t x with
  | _ n ih =>
    by_cases hended : ∃ outcome, t = .ended outcome
    · obtain ⟨outcome, rfl⟩ := hended
      refine ⟨x, .refl, ?_⟩
      obtain rfl | rfl := Prog.rough_done disks hr
      · exact ⟨rfl, fun _ h => (by cases h)⟩
      · exact ⟨rfl, fun _ h => (by cases h; exact hi)⟩
    have hne : ∀ outcome, t ≠ .ended outcome := fun outcome h => hended ⟨outcome, h⟩
    rw [← take_rest] at hr
    obtain ⟨hnone, hx⟩ | ⟨t', u, hx, hr⟩ := Prog.rough_bind disks hr
    · refine ⟨_, .single (.take hi hx), ?_, fun _ h => (by rw [hnone] at h; cases h)⟩
      simp only [Function.update_self, withStage_stage]
    · let z : Processes ι := ⟨u, Function.update x.turn i (some t'), Function.update x.stage i u.stage⟩
      have hz : Processes.Step pl host x z := .take hi hx
      have hzi : z.turn i = some t' := Function.update_self ..
      have hview : z.disk.withStage (z.stage i) = u := by
        simp only [z, Function.update_self, withStage_stage]
      rw [← hview] at hr
      obtain ⟨y, hy, hdisk, hend⟩ := ih t'.rank (hrank ▸ rank_take hx hne) hzi hr rfl
      exact ⟨y, .head hz hy, hdisk, hend⟩

end Commands

/-! ### Any number of processes, in any order -/

/-- A root that is settled, on which commands begin. -/
structure Processes.Starts (pl : Pipeline) (host : Host) (known : Set Generation) (x : Processes ι) : Prop where
  settled : Settled x.disk
  current : (view x.disk).current ≠ some .other
  consistent : Consistent pl host known x.disk (view x.disk)
  known_in : KnownIn host known x.disk
  turns : ∀ i t, x.turn i = some t → t = .opening ∨ ∃ imported, t = .importing imported

omit [DecidableEq ι] in
theorem Processes.Starts.kept {pl : Pipeline} {host : Host} {known : Set Generation} {x : Processes ι}
    (h : x.Starts pl host known) : x.Kept pl host known := by
  refine ⟨⟨⟨_, false, settled_recoverable h.settled rfl h.current, h.consistent⟩, h.known_in⟩, fun i t ht => ?_⟩
  obtain rfl | ⟨imported, rfl⟩ := h.turns i t ht
  · trivial
  · trivial

/-- Whatever the processes have done, and wherever they failed or were killed, one
recovery shows a root whose inputs, selector and export agree. -/
theorem recovered_consistent {pl : Pipeline} {host : Host} {known : Set Generation} (hpl : Steady pl known)
    (hdistinct : Distinct pl known) {x y : Processes ι} (hx : x.Starts pl host known)
    (hs : Relation.ReflTransGen (Processes.Step pl host) x y) :
    (Prog.run disks (recover host) y.disk).1 = 0 ∧ Settled (Prog.run disks (recover host) y.disk).2 ∧
      Consistent pl host known (Prog.run disks (recover host) y.disk).2
        (view (Prog.run disks (recover host) y.disk).2) := by
  have hy := hx.kept.reach hpl hdistinct hs
  obtain ⟨v, marked, hrecoverable, hconsistent⟩ := hy.coherent.shows
  obtain ⟨hrc, hsettled, hview⟩ := hrecoverable.run
  refine ⟨hrc, hsettled, ?_⟩
  rw [hview]
  exact hconsistent.grown (rough_grown (Prog.rough_run disks (recover host) y.disk))

/-- A reader that gets a generation at any time gets the one that the inputs on the root
give, and the public export is its script. -/
theorem pinned_consistent {pl : Pipeline} {host : Host} {known : Set Generation} (hpl : Steady pl known)
    (hdistinct : Distinct pl known) {x y : Processes ι} (hx : x.Starts pl host known)
    (hs : Relation.ReflTransGen (Processes.Step pl host) x y) {g : Generation}
    (hg : pinLocked host y.disk none = .ok g) :
    shown y.disk .filtersSieve = savedFile g.sieve ∧
      ∀ prior s fingerprint, Honest pl known prior → pl.collect prior (inputsOf y.disk) = .ok s →
        dependenciesFingerprint s.dependencies = .ok fingerprint → digestHex fingerprint = g.id := by
  have hy := hx.kept.reach hpl hdistinct hs
  obtain ⟨v, marked, hrecoverable, hconsistent⟩ := hy.coherent.shows
  obtain ⟨hfinished, hselected⟩ := pinLocked_selected hg
  obtain hfenced | hshown := hrecoverable.fenced_or_shown
  · rw [hfinished] at hfenced
    cases hfenced
  subst hshown
  obtain ⟨hopens, hne⟩ := pinLocked_opens hg
  have hcurrent := (selector_eq_ok hselected).2
  rw [selectorNode, if_neg hne] at hcurrent
  obtain hnone | ⟨g', hinstep⟩ := hconsistent
  · rw [show (view y.disk).current = y.disk.files (.engine .current) from rfl, hcurrent] at hnone
    cases hnone
  have htarget : selectorTarget g.id = selectorTarget g'.id := by
    have hsame := hcurrent.symm.trans hinstep.current
    simpa using hsame
  have hid : g.id = g'.id := List.append_cancel_left htarget
  have hgg : g = g' := by
    have hopens' := hinstep.opens
    rw [← hid, hopens] at hopens'
    cases hopens'
    rfl
  subst hgg
  refine ⟨hinstep.exported, fun prior s fingerprint hhonest hs hf =>
    hinstep.inputs prior s fingerprint hhonest ?_ hf⟩
  rw [← hs]
  exact hpl.plain _ _ _ fun i => Node.plain_plain _

/-! ### The sample -/

/-- A root with its smallest generation published. -/
def publishedRoot (p : Products) : Disk := (selectedRoot p).set .filtersSieve (savedFile p.sieve)

theorem settled_publishedRoot (p : Products) : Settled (publishedRoot p) :=
  (settled_selectedRoot p).edited (fun e => by simp) _

/-- One compile and one import over it. -/
def sampleProcesses (p : Products) : Processes Bool where
  disk := publishedRoot p
  turn := fun i => if i then some .opening else some (.importing samplePipeline.imported)
  stage := fun _ => (publishedRoot p).stage

theorem rest_takes_sample : ∃ p y, Relation.ReflTransGen (Processes.Step samplePipeline ownerHost)
    (sampleProcesses p) y ∧ ∃ outcome, y.turn true = some (.ended outcome) := by
  obtain ⟨p, -⟩ := exists_eq_ok productsBuild_sample_isOk
  have hx : (sampleProcesses p).turn true = some .opening := rfl
  obtain ⟨y, hy, -, hend⟩ := rest_takes hx (Prog.rough_run disks (compile samplePipeline ownerHost) _)
  exact ⟨p, y, hy, _, hend _ rfl⟩

end JaroFilter
