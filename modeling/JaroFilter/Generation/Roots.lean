import JaroFilter.Generation.Crash

/-!
# Recovery of any root

What a successful recovery has done whatever it found, and that it changes
nothing that a reader was allowed to see.
-/

namespace JaroFilter

open Lib

/-- The states between two calls are not restricted. -/
def Anything (_ : Disk) : Prop := True

section Roots

variable {host : Host} {d : Disk} {r : Region}

theorem safe_anything {α : Type} (p : Routine α) (d : Disk) :
    Prog.Safe disks Anything p d fun _ _ => True := by
  induction p generalizing d with
  | done a => trivial
  | look k ih => exact ih d d
  | call c k ih => exact ⟨fun _ _ => trivial, trivial, ih _ _⟩

theorem safe_of_run {α : Type} {p : Routine α} {Q : α → Disk → Prop}
    (h : Q (Prog.run disks p d).1 (Prog.run disks p d).2) : Prog.Safe disks Anything p d Q := by
  induction p generalizing d with
  | done a => exact h
  | look k ih => exact ih d h
  | call c k ih => exact ⟨fun _ _ => trivial, trivial, ih _ h⟩

theorem safe_then {p q : Routine Bool} {Q : Bool → Disk → Prop}
    (hfalse : ∀ t, Q false t) (hq : ∀ t, Prog.Safe disks Anything q t Q) :
    Prog.Safe disks Anything (Prog.both p q) d Q := by
  apply Prog.safe_both
  apply Prog.safe_mono disks (safe_anything p d) (fun _ h => h)
  intro ok t _
  cases ok with
  | true => exact hq t
  | false => exact hfalse t

/-- Names were removed, all of them where the routine succeeded. -/
structure Removes (es : List EngineName) (d : Disk) (ok : Bool) (t : Disk) : Prop where
  removed : Removed es d t
  gone : ok = true → ∀ e ∈ es, t.files (.engine e) = none

theorem safe_remove_any (e : EngineName) :
    Prog.Safe disks Anything (removeFile r (.engine e)) d (Removes [e] d) := by
  refine ⟨fun _ _ => trivial, trivial, ?_⟩
  by_cases hother : d.files (.engine e) = some .other
  · have hexec : disks.exec ⟨r, .unlink (.engine e)⟩ d = (false, d) := by
      show (Op.unlink (.engine e)).exec d = (false, d)
      simp only [Op.exec, if_pos hother]
    rw [hexec]
    exact ⟨Removed.refl _ d, fun h => by cases h⟩
  · have hexec : disks.exec ⟨r, .unlink (.engine e)⟩ d = (true, d.set (.engine e) none) := by
      show (Op.unlink (.engine e)).exec d = (true, d.set (.engine e) none)
      simp only [Op.exec, if_neg hother]
    rw [hexec]
    refine ⟨(Removed.refl _ d).remove (by simp), ?_⟩
    intro _ e' he'
    rw [List.mem_singleton.mp he']
    exact Disk.set_self ..

theorem safe_fsync_any {Q : Bool → Disk → Prop} (h : Q true d) :
    Prog.Safe disks Anything (step r .fsync) d Q := ⟨fun _ _ => trivial, trivial, h⟩

/-- One routine of removals after another. -/
theorem safe_removes_both {p q : Routine Bool} {es fs : List EngineName}
    (hp : Prog.Safe disks Anything p d (Removes es d))
    (hq : ∀ t, Prog.Safe disks Anything q t (Removes fs t)) :
    Prog.Safe disks Anything (Prog.both p q) d (Removes (es ++ fs) d) := by
  have hleft : ∀ e ∈ es, e ∈ es ++ fs := fun e he => List.mem_append_left _ he
  have hright : ∀ e ∈ fs, e ∈ es ++ fs := fun e he => List.mem_append_right _ he
  apply Prog.safe_both
  apply Prog.safe_mono disks hp (fun _ h => h)
  intro ok t ht
  cases ok with
  | true =>
    apply Prog.safe_mono disks (hq t) (fun _ h => h)
    intro ok u hu
    refine ⟨ht.removed.trans hu.removed hleft hright, ?_⟩
    intro hok e he
    rcases List.mem_append.mp he with he | he
    · exact hu.removed.none (ht.gone rfl e he)
    · exact hu.gone hok e he
  | false =>
    refine ⟨ht.removed.trans (Removed.refl fs t) hleft hright, ?_⟩
    intro hok
    cases hok

theorem safe_removes_each {ι : Type} {f : ι → Routine Bool} {names : ι → List EngineName} (is : List ι)
    (h : ∀ i t, Prog.Safe disks Anything (f i) t (Removes (names i) t)) :
    Prog.Safe disks Anything (Prog.each is f) d (Removes (is.flatMap names) d) := by
  induction is generalizing d with
  | nil => exact ⟨Removed.refl _ d, fun _ e he => by cases he⟩
  | cons i is ih => exact safe_removes_both (h i d) fun t => ih

theorem safe_removes_fsync {p : Routine Bool} {es : List EngineName}
    (hp : Prog.Safe disks Anything p d (Removes es d)) :
    Prog.Safe disks Anything (Prog.both p (step r .fsync)) d (Removes es d) := by
  have hsync : ∀ t, Prog.Safe disks Anything (step r .fsync) t (Removes [] t) :=
    fun t => safe_fsync_any ⟨Removed.refl [] t, fun _ e he => by cases he⟩
  have hboth := safe_removes_both hp hsync
  rw [List.append_nil] at hboth
  exact hboth

/-! ### The parts of a recovery -/

theorem safe_cleanup_any :
    Prog.Safe disks Anything cleanupTransaction d (Removes (.journal :: cleanupNames) d) := by
  have hsync : ∀ t, Prog.Safe disks Anything (step .recover .fsync) t (Removes [] t) :=
    fun t => safe_fsync_any ⟨Removed.refl [] t, fun _ e he => by cases he⟩
  have hnames : ∀ t, Prog.Safe disks Anything (Prog.each cleanupNames fun e =>
      removeFile .recover (.engine e)) t (Removes (cleanupNames.flatMap fun e => [e]) t) :=
    fun t => safe_removes_each cleanupNames fun e t => safe_remove_any e
  have hall := safe_removes_both (safe_remove_any (r := .recover) (d := d) .journal) fun t =>
    safe_removes_both (hsync t) fun t => safe_removes_fsync (r := .recover) (hnames t)
  exact hall

/-- The names `recover_inputs` removes. -/
def importNames : List EngineName :=
  (List.finRange 4).flatMap (fun i => [.importFile i .backup, .importFile i .next, .importFile i .restore]) ++
    [.importJournalNext]

theorem safe_importNames_any : Prog.Safe disks Anything
    (Prog.both (Prog.each (List.finRange 4) fun i => Prog.each [Suffix.backup, .next, .restore] fun s =>
      removeFile .recover (.engine (.importFile i s)))
      (Prog.both (removeFile .recover (.engine .importJournalNext)) (step .recover .fsync))) d
    (Removes importNames d) := by
  apply safe_removes_both
  · exact safe_removes_each _ fun i t => @safe_removes_each _ _ _ (fun s => [.importFile i s]) _
      fun s t => safe_remove_any _
  · exact fun t => safe_removes_fsync (safe_remove_any _)

theorem safe_recoverJournal_any {committed : Bool} :
    Prog.Safe disks Anything (recoverJournal host committed) d fun ok t =>
      ok = true → t.files (.engine .importJournal) = none := by
  apply Prog.safe_look
  split
  · split
    · apply safe_then (fun t h => by cases h)
      intro t
      apply safe_then (fun t h => by cases h)
      intro t
      apply safe_then (fun t h => by cases h)
      intro t
      apply Prog.safe_mono disks (safe_removes_fsync (safe_remove_any .importJournal)) (fun _ h => h)
      intro ok u hu hok
      exact hu.gone hok _ (by simp)
    · apply Prog.safe_done
      intro h
      cases h
  · rename_i hexists
    apply Prog.safe_done
    intro _
    simpa [existsAt] using hexists

theorem safe_recoverInputs_any {committed : Bool} :
    Prog.Safe disks Anything (recoverInputs host committed) d fun ok t => ok = true → importGone t := by
  apply Prog.safe_both
  apply Prog.safe_mono disks safe_recoverJournal_any (fun _ h => h)
  intro ok t ht
  cases ok with
  | true =>
    apply Prog.safe_mono disks safe_importNames_any (fun _ h => h)
    intro ok u hu hok
    refine ⟨hu.removed.none (ht rfl), hu.gone hok _ (by simp [importNames]), ?_⟩
    intro i s
    apply hu.gone hok
    simp only [importNames, List.mem_append, List.mem_flatMap]
    exact Or.inl ⟨i, List.mem_finRange i, by cases s <;> simp⟩
  | false =>
    intro h
    cases h

theorem safe_finishRecovery_any {committed : Bool} :
    Prog.Safe disks Anything (finishRecovery host committed) d fun rc t => rc = 0 → Settled t := by
  apply Prog.safe_bind
  apply Prog.safe_both
  apply Prog.safe_mono disks safe_recoverInputs_any (fun _ h => h)
  intro ok t ht
  cases ok with
  | true =>
    apply Prog.safe_mono disks safe_cleanup_any (fun _ h => h)
    intro ok u hu
    apply Prog.safe_done
    intro hrc
    have hok : ok = true := by
      cases ok with
      | true => rfl
      | false => cases hrc
    exact settled_of_gone hu.removed (hu.gone hok) (ht rfl)
  | false =>
    intro hrc
    cases hrc

/-! ### Errors of the readers -/

theorem loadMode_raises (n : Option Node) (limit : ℕ) (b : Bool) :
    Raises (· ≠ 0) (loadMode host n limit b) := by
  unfold loadMode
  split
  · split
    · exact raises_error (by decide)
    · split
      · exact raises_error (by decide)
      · split
        · exact raises_error (by decide)
        · exact raises_ok _ _
  · exact raises_error (by decide)

theorem load_raises (n : Option Node) (limit : ℕ) : Raises (· ≠ 0) (load host n limit) := by
  have hmode := @loadMode_raises host n limit true
  unfold load
  intro e he
  cases hl : loadMode host n limit true with
  | ok a =>
    rw [hl] at he
    cases he
  | error e' =>
    rw [hl] at he
    cases he
    exact hmode e hl

theorem cacheValidate_rc (data : Bytes) (zsh sieve fp : Option Bytes) :
    Raises (· ≠ 0) ((cacheValidate data zsh sieve fp).mapError Failure.rc) := by
  have hbad : Raises (· ≠ 0) ((Except.error badCache : Except Failure Unit).mapError Failure.rc) :=
    raises_error (by decide)
  unfold cacheValidate
  split
  · exact hbad
  · simp only
    split
    · exact hbad
    · split
      · exact hbad
      · split
        · exact raises_ok _ _
        · exact hbad

theorem openGeneration_raises (id : Bytes) : Raises (· ≠ 0) (openGeneration host d id) := by
  unfold openGeneration
  split
  · split
    · unfold validateDirectory
      split
      · exact raises_error (by decide)
      · refine raises_bind (load_raises _ _) fun cache _ => ?_
        refine raises_bind (load_raises _ _) fun zsh _ => ?_
        refine raises_bind (load_raises _ _) fun sieve _ => ?_
        refine raises_bind (load_raises _ _) fun actual _ => ?_
        refine raises_bind (cacheValidate_rc _ _ _ _) fun _ _ => ?_
        simp only
        split
        · exact raises_error (by decide)
        · exact raises_ok _ _
    · exact raises_error (by decide)
  · exact raises_error (by decide)

theorem pinLocked_raises (requested : Option Bytes) : Raises (· ≠ 0) (pinLocked host d requested) := by
  have hpublic : ∀ g g' : Generation, Raises (· ≠ 0) (if publicStatus host d g'.sieve = 0 then
      (.ok g : Except ℕ Generation) else .error (publicStatus host d g'.sieve)) := by
    intro g g'
    split
    · exact raises_ok _ _
    · rename_i h
      exact raises_error h
  have hid : Raises (· ≠ 0) (pinId d requested) := by
    unfold pinId
    split
    · split
      · exact raises_ok _ _
      · exact raises_error (by decide)
    · split
      · split
        · exact raises_error (by decide)
        · exact raises_ok _ _
      · exact raises_error (by decide)
  unfold pinLocked
  split
  · exact raises_error (by decide)
  · refine raises_bind hid fun id _ => ?_
    refine raises_bind (openGeneration_raises id) fun g _ => ?_
    split
    · simp only
      split
      · exact hpublic g g
      · exact raises_bind (openGeneration_raises _) fun g' _ => hpublic g g'
    · exact raises_ok _ _

/-! ### The whole recovery -/

/-- Whatever a successful recovery found, no transaction file is left. -/
theorem recover_settles (h : (Prog.run disks (recover host) d).1 = 0) :
    Settled (Prog.run disks (recover host) d).2 := by
  have hsafe : Prog.Safe disks Anything (recover host) d fun rc t => rc = 0 → Settled t := by
    have hfail : ∀ {rc : ℕ} {t : Disk}, rc ≠ 0 →
        Prog.Safe disks Anything (.done rc : Routine ℕ) t fun rc t => rc = 0 → Settled t :=
      fun hrc h => absurd h hrc
    apply Prog.safe_look
    split
    · split
      · exact hfail (by decide)
      · split
        · split
          · split
            · rename_i hpin
              exact hfail (pinLocked_raises none _ hpin)
            · exact safe_finishRecovery_any
          · exact hfail (by decide)
        · apply Prog.safe_bind
          apply Prog.safe_mono disks (safe_anything _ _) (fun _ h => h)
          intro ok t _
          split
          · exact safe_finishRecovery_any
          · exact hfail (by decide)
    · exact safe_finishRecovery_any
  exact Prog.safe_run disks hsafe h

theorem Removed.view {es : List EngineName} {t : Disk} (h : Removed es d t) (hc : .current ∉ es) :
    view t = view d := by
  have hsame : ∀ p, (∀ e ∈ es, p ≠ .engine e) → t.files p = d.files p := by
    intro p hp
    rcases h.files p with hs | ⟨_, e, he, rfl⟩
    · exact hs
    · exact absurd rfl (hp e he)
  simp only [JaroFilter.view, View.mk.injEq, shown]
  refine ⟨?_, ?_, ?_⟩
  · funext i
    rw [hsame _ (by simp)]
  · rw [hsame _ (by simp)]
  · apply hsame
    intro e he heq
    cases heq
    exact hc he

theorem safe_finishRecovery_view {committed : Bool}
    (h : committed = true ∨ d.files (.engine .importJournal) = none) :
    Prog.Safe disks Anything (finishRecovery host committed) d fun _ t => view t = view d := by
  have hjournal : Prog.Safe disks Anything (recoverJournal host committed) d fun _ t => view t = view d := by
    apply Prog.safe_look
    split
    · rename_i hexists
      have hc : committed = true := by
        apply h.resolve_right
        intro hnone
        rw [existsAt, hnone] at hexists
        cases hexists
      subst hc
      split
      · have hsync : ∀ t, Prog.Safe disks Anything (step .recover .fsync) t (Removes [] t) :=
          fun t => safe_fsync_any ⟨Removed.refl [] t, fun _ e he => by cases he⟩
        have hremoves := safe_removes_both (hsync d) fun t => safe_removes_both (hsync t) fun t =>
          safe_removes_fsync (r := .recover) (safe_remove_any (r := .recover) (d := t) .importJournal)
        apply Prog.safe_mono disks hremoves (fun _ h => h)
        intro ok t ht
        exact ht.removed.view (by simp)
      · exact Prog.safe_done _ rfl
    · exact Prog.safe_done _ rfl
  apply Prog.safe_bind
  apply Prog.safe_both
  apply Prog.safe_both
  apply Prog.safe_mono disks hjournal (fun _ h => h)
  intro ok t ht
  cases ok with
  | true =>
    apply Prog.safe_mono disks safe_importNames_any (fun _ h => h)
    intro ok u hu
    have hview := hu.removed.view (by simp [importNames])
    cases ok with
    | true =>
      apply Prog.safe_mono disks safe_cleanup_any (fun _ h => h)
      intro ok w hw
      exact (hw.removed.view (by simp [cleanupNames])).trans (hview.trans ht)
    | false => exact hview.trans ht
  | false => exact ht

/-- Recovery of a root that readers accept changes nothing they see. -/
theorem recover_shows (h : unfinished host d = false) :
    view (Prog.run disks (recover host) d).2 = view d := by
  have hsafe : Prog.Safe disks Anything (recover host) d fun _ t => view t = view d := by
    apply Prog.safe_look
    rw [unfinished, Bool.and_eq_false_iff] at h
    by_cases hj : existsAt d (.engine .journal) = true
    · have hsome : ∃ id, committedJournal host d = some id := by
        rcases h with h | h
        · rw [hj] at h
          cases h
        · exact Option.isSome_iff_exists.mp (by simpa using h)
      obtain ⟨id, hid⟩ := hsome
      unfold committedJournal at hid
      split at hid
      · rename_i j selected hread hsel
        split at hid
        · rename_i hmarked
          have hexists : existsAt d (.engine .committed) = true := by
            by_contra hnone
            have hfiles : d.files (.engine .committed) = none := by simpa [existsAt] using hnone
            have hmarker := hmarked.1
            rw [markerOf, hfiles] at hmarker
            cases hmarker
          rw [if_pos hj, hread]
          simp only
          rw [if_pos hexists, if_pos hmarked.1]
          split
          · exact Prog.safe_done _ rfl
          · exact safe_finishRecovery_view (Or.inl rfl)
        · cases hid
      · cases hid
    · have hnone : d.files (.engine .journal) = none := by simpa [existsAt] using hj
      rw [if_neg hj]
      apply safe_finishRecovery_view
      right
      rcases h with h | h
      · rw [Bool.or_eq_false_iff] at h
        simpa [existsAt] using h.2
      · rw [committedJournal_no_journal hnone] at h
        cases h
  exact Prog.safe_run disks hsafe

end Roots

end JaroFilter
