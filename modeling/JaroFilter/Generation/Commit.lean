import JaroFilter.Generation.Publication

/-!
# The commit (`generation.c:450-482`)

A state of a publication is on one of two sides: without its commit marker it
leads back to the old view, with it on to the new one.
-/

namespace JaroFilter

open Lib

/-- Without the marker recovery leads to `old`, with it to `new`; the latter where
the generation is `placed`. -/
structure Decided (host : Host) (placed : Prop) (old new : View) (t : Disk) : Prop where
  back : Recoverable host false old (t.set (.engine .committed) none)
  marker : t.files (.engine .committed) ≠ some .other
  on : placed → t.files (.engine .committed) ≠ none → Recoverable host true new t

theorem Disk.set_same (d : Disk) {p : Path} {n : Option Node} (h : d.files p = n) : d.set p n = d := by
  subst h
  rw [Disk.set, Function.update_eq_self]

section Sides

variable {host : Host} {placed : Prop} {old new v : View} {marked : Bool} {d t : Disk}

theorem Recoverable.usable (h : Recoverable host marked v t) : Usable t := by
  cases h with
  | clean usable _ _ _ _ => exact usable
  | back usable _ _ _ => exact usable
  | on usable _ _ _ _ _ => exact usable

theorem Recoverable.unmarked (h : Recoverable host false v t) : t.files (.engine .committed) = none := by
  cases h with
  | clean _ _ _ _ marker => exact marker.resolve_left (by simp)
  | back _ _ _ rolls => exact rolls.committed
  | on _ _ _ _ _ marker => cases marker

theorem Recoverable.decided (h : Recoverable host false old t) : Decided host placed old new t := by
  refine ⟨?_, h.usable _, ?_⟩
  · rw [Disk.set_same t h.unmarked]
    exact h
  · intro _ hmarked
    exact absurd h.unmarked hmarked

/-- What is shown by a recoverable state can be replaced. -/
theorem Recoverable.current_ne_other (h : Recoverable host marked v t) : v.current ≠ some .other := by
  cases h with
  | clean usable _ _ exported _ =>
    rw [← exported.2]
    exact usable _
  | back _ _ _ rolls =>
    rw [rolls.selector]
    exact selectorNode_ne_other _
  | on usable _ _ _ rolls _ =>
    rw [← rolls.shows.2]
    exact usable _

theorem settled_recoverable (hs : Settled t) (hv : view t = v) (hc : v.current ≠ some .other) :
    Recoverable host marked v t := by
  subst hv
  have hu : Usable t := by
    intro e
    by_cases he : e = .current
    · rw [he]
      exact hc
    · rw [hs e he]
      simp
  exact .clean hu (Or.inl ⟨hs _ (by simp), fun i => rfl⟩) (hs _ (by simp)) ⟨rfl, rfl⟩
    (Or.inr (hs _ (by simp)))

theorem AgreeOn.set {s : Path → Bool} (h : AgreeOn s d t) {p : Path} {n : Option Node}
    (hp : s p = false) : AgreeOn s d (t.set p n) := by
  refine ⟨?_, h.generations⟩
  intro q hq
  rw [(agreeOn_set t n hp).files q hq, h.files q hq]

end Sides

/-! ### Up to the journal -/

/-- The names of the input side, which a publication leaves alone. -/
def importPath : Path → Bool
  | .engine .importJournal => true
  | .engine .importJournalNext => true
  | .engine (.importFile _ _) => true
  | _ => false

/-- A state of a publication that began in `d`, before its marker. -/
structure Preparing (host : Host) (v : View) (d t : Disk) : Prop where
  recoverable : Recoverable host false v t
  imports : AgreeOn importPath d t

/-- The journal of the publication is in place, and the new export beside it. -/
structure Prepared (v : View) (news : Fin 4 → Option Node) (p : Products) (j : Journal) (t : Disk) :
    Prop where
  usable : Usable t
  inputs : InputsBack v t
  kept : InputsKept ⟨news, none, none⟩ t
  rolls : RollsBack v t j
  next : j.next = p.id
  exportNext : t.files (.engine .exportNext) = savedFile p.sieve
  committedNext : t.files (.engine .committedNext) = none

section Publish

variable {host : Host} {placed : Prop} {v : View} {news : Fin 4 → Option Node} {p : Products}
  {old : Bytes} {d : Disk}

theorem safe_publishJournal {t : Disk} {present : Bool} {mode : Mode} (hclean : Clean v t)
    (hkept : InputsKept ⟨news, none, none⟩ t) (himports : AgreeOn importPath d t)
    (hempty : ∀ e ∈ [EngineName.exportNext, .journalNext, .committedNext], t.files (.engine e) = none)
    (hexport : t.files .filtersSieve ≠ some .other) (hold : old = [] ∨ validId old = true)
    (hid : validId p.id = true) (hsel : v.current = selectorNode old)
    (hbackup : if present then ∃ data, v.exported = some (.file data mode 1) ∧ data.length ≤ cacheMax ∧
        t.files (.engine .exportBackup) = savedFile data
      else v.exported = none) :
    Prog.Safe disks (Preparing host v d)
      (Prog.both (save .publish (.engine .exportNext) p.sieve)
        (Prog.both (save .publish (.engine .journalNext) (journalLine old present mode p.id))
          (Prog.both (step .publish (.rename (.engine .journalNext) (.engine .journal)))
            (step .publish .fsync)))) t fun ok u =>
      ok = true ∧ (∃ j, Prepared v news p j u) ∧ AgreeOn importPath d u := by
  have hstart : ∀ {e n}, n ≠ some .other → inputPath (.engine e) = false → cleanPath (.engine e) = false →
      importPath (.engine e) = false → Preparing host v d (t.set (.engine e) n) := by
    intro e n hn hi hc hm
    exact ⟨(hclean.set hn hi hc).recoverable, himports.set hm⟩
  let j : Journal := ⟨old, present, mode, p.id, hold, hid⟩
  let u := t.set (.engine .exportNext) (savedFile p.sieve)
  have hu : Clean v u := hclean.set (savedFile_ne_other _) rfl rfl
  apply Prog.safe_both
  apply safe_save (hempty _ (by simp))
  · intro n hn
    exact hstart hn rfl rfl rfl
  · apply Prog.safe_both
    apply safe_save
    · rw [Disk.set_of_ne t _ (by simp)]
      exact hempty _ (by simp)
    · intro n hn
      exact ⟨(hu.set hn rfl rfl).recoverable, (himports.set rfl).set rfl⟩
    · rw [if_pos rfl]
      -- The rename of the journal is what commits the rollback to its backup.
      let w := (u.set (.engine .journal) (savedFile (journalText j))).set (.engine .journalNext) none
      have hstate : ((u.set (.engine .journalNext) (savedFile (journalText j))).set (.engine .journal)
          (savedFile (journalText j))).set (.engine .journalNext) none = w := by
        rw [Disk.set_comm u _ _ (by simp), Disk.set_set]
      have hfiles : ∀ q, q ≠ .engine .journal → q ≠ .engine .journalNext → q ≠ .engine .exportNext →
          w.files q = t.files q := by
        intro q h1 h2 h3
        rw [Disk.set_of_ne _ none h2, Disk.set_of_ne u _ h1, Disk.set_of_ne t _ h3]
      have hagree : AgreeOn inputPath t w :=
        (((agreeOn_set t _ rfl).set (p := .engine .journal) rfl).set (p := .engine .journalNext) rfl)
      have husable : Usable w := usable_set (usable_set hu.usable (savedFile_ne_other _)) (by simp)
      have hrolls : RollsBack v w j := by
        refine ⟨?_, ?_, hsel, ?_, ?_⟩
        · rw [Disk.set_of_ne _ none (by simp), Disk.set_self]
        · rw [hfiles _ (by simp) (by simp) (by simp), hclean.committed]
        · rw [hfiles _ (by simp) (by simp) (by simp)]
          exact hexport
        · rw [hfiles _ (by simp) (by simp) (by simp)]
          exact hbackup
      have hinputs := inputsBack_congr hclean.inputs hagree
      have hw : Preparing host v d w :=
        ⟨.back husable hinputs j hrolls, ((himports.set rfl).set rfl).set rfl⟩
      apply Prog.safe_both
      apply safe_rename
      · rw [Disk.set_self]
        simp [savedFile]
      · rw [Disk.set_of_ne u _ (by simp)]
        exact hu.usable _
      · rw [Disk.set_self]
        exact hstate ▸ hw
      · rw [Disk.set_self, if_pos rfl]
        change Prog.Safe disks _ _ (((u.set (.engine .journalNext) (savedFile (journalText j))).set
          (.engine .journal) (savedFile (journalText j))).set (.engine .journalNext) none) _
        rw [hstate]
        apply safe_fsync hw
        refine ⟨rfl, ⟨j, husable, hinputs, inputsKept_congr hkept hagree, hrolls, rfl, ?_, ?_⟩, hw.imports⟩
        · rw [Disk.set_of_ne _ none (by simp), Disk.set_of_ne u _ (by simp), Disk.set_self]
        · rw [hfiles _ (by simp) (by simp) (by simp)]
          exact hempty _ (by simp)

/-- A refused export ends the preparation before any call. -/
theorem safe_publishPrepare (host : Host) (p : Products) (h : Ready v news d) (hold : old = [] ∨ validId old = true)
    (hid : validId p.id = true) (hsel : v.current = selectorNode old) :
    Prog.Safe disks (Preparing host v d) (publishPrepare host old p) d fun ok t =>
      (if ok then ∃ j, Prepared v news p j t else Clean v t) ∧ AgreeOn importPath d t := by
  have hempty : ∀ e ∈ [EngineName.exportNext, .journalNext, .committedNext],
      d.files (.engine e) = none := by
    intro e he
    apply h.empty e
    all_goals
      simp only [List.mem_cons, List.not_mem_nil, or_false] at he
      rcases he with rfl | rfl | rfl <;> simp
  have hd : AgreeOn importPath d d := ⟨fun _ _ => rfl, rfl⟩
  apply Prog.safe_look
  simp only
  split
  · split
    · rename_i data mode hload
      obtain ⟨special, links, hfile, hsize⟩ := loadMode_eq_ok hload
      apply Prog.safe_both
      apply safe_save (h.empty _ (by simp) (by simp) (by simp))
      · intro n hn
        exact ⟨(h.clean.set hn rfl rfl).recoverable, hd.set rfl⟩
      · rw [if_pos rfl]
        have hbackup : AgreeOn inputPath d (d.set (.engine .exportBackup) (savedFile data)) :=
          agreeOn_set d _ rfl
        apply Prog.safe_mono disks (safe_publishJournal (h.clean.set (savedFile_ne_other _) rfl rfl)
          (inputsKept_congr h.kept hbackup) (hd.set rfl) _ _ hold hid hsel _) (fun _ ht => ht)
        · intro ok t ht
          obtain ⟨rfl, hj, ha⟩ := ht
          exact ⟨hj, ha⟩
        · intro e he
          rw [Disk.set_of_ne d _ _, hempty e he]
          intro heq
          cases heq
          simp at he
        · rw [Disk.set_of_ne d _ (by simp), hfile]
          simp
        · rw [if_pos rfl]
          refine ⟨data, ?_, hsize, Disk.set_self ..⟩
          rw [← h.clean.shows.1, shown, hfile]
          rfl
    · apply Prog.safe_done
      exact ⟨h.clean, hd⟩
  · rename_i hexists
    have hnone : d.files .filtersSieve = none := by simpa [existsAt] using hexists
    apply Prog.safe_mono disks (safe_publishJournal h.clean h.kept hd hempty _ hold hid hsel _)
      (fun _ ht => ht)
    · intro ok t ht
      obtain ⟨rfl, hj, ha⟩ := ht
      exact ⟨hj, ha⟩
    · rw [hnone]
      simp
    · rw [if_neg (by simp), ← h.clean.shows.1, shown, hnone]
      rfl

/-! ### From the export to the marker -/

/-- The view a publication leads to. -/
def published (news : Fin 4 → Option Node) (p : Products) : View :=
  ⟨news, savedFile p.sieve, some (.link (selectorTarget p.id))⟩

/-- The export is replaced. -/
def exportedDisk (p : Products) (t : Disk) : Disk :=
  (t.set .filtersSieve (savedFile p.sieve)).set (.engine .exportNext) none

/-- The selector is replaced as well. -/
def selectedDisk (p : Products) (t : Disk) : Disk :=
  ((exportedDisk p t).set (.engine .current) (selectorNode p.id)).set (.engine .currentNext) none

/-- The marker is there. -/
def markedDisk (p : Products) (t : Disk) : Disk :=
  ((selectedDisk p t).set (.engine .committed) (savedFile p.id)).set (.engine .committedNext) none

theorem exportedDisk_of_ne (p : Products) (t : Disk) {q : Path} (h1 : q ≠ .filtersSieve)
    (h2 : q ≠ .engine .exportNext) : (exportedDisk p t).files q = t.files q := by
  rw [exportedDisk, Disk.set_of_ne _ none h2, Disk.set_of_ne t _ h1]

theorem selectedDisk_of_ne (p : Products) (t : Disk) {q : Path} (h1 : q ≠ .engine .current)
    (h2 : q ≠ .engine .currentNext) : (selectedDisk p t).files q = (exportedDisk p t).files q := by
  rw [selectedDisk, Disk.set_of_ne _ none h2, Disk.set_of_ne _ _ h1]

theorem markedDisk_of_ne (p : Products) (t : Disk) {q : Path} (h1 : q ≠ .engine .committed)
    (h2 : q ≠ .engine .committedNext) : (markedDisk p t).files q = (selectedDisk p t).files q := by
  rw [markedDisk, Disk.set_of_ne _ none h2, Disk.set_of_ne _ _ h1]

theorem exportedDisk_exported (p : Products) (t : Disk) :
    (exportedDisk p t).files .filtersSieve = savedFile p.sieve := by
  rw [exportedDisk, Disk.set_of_ne _ none (by simp), Disk.set_self]

theorem markedDisk_marker (p : Products) (t : Disk) :
    (markedDisk p t).files (.engine .committed) = savedFile p.id := by
  rw [markedDisk, Disk.set_of_ne _ none (by simp), Disk.set_self]

theorem agreeOn_exportedDisk (p : Products) (t : Disk) : AgreeOn inputPath t (exportedDisk p t) :=
  (agreeOn_set t _ rfl).set rfl

theorem agreeOn_selectedDisk (p : Products) (t : Disk) : AgreeOn inputPath t (selectedDisk p t) :=
  ((agreeOn_exportedDisk p t).set rfl).set rfl

theorem agreeOn_markedDisk (p : Products) (t : Disk) : AgreeOn inputPath t (markedDisk p t) :=
  ((agreeOn_selectedDisk p t).set rfl).set rfl

section Prepared

variable {t : Disk} {j : Journal}

/-- The journal brings the old export back. -/
theorem Prepared.rolls_exported (h : Prepared v news p j t) : RollsBack v (exportedDisk p t) j := by
  refine ⟨?_, ?_, h.rolls.selector, ?_, ?_⟩
  · rw [exportedDisk_of_ne p t (by simp) (by simp), h.rolls.journal]
  · rw [exportedDisk_of_ne p t (by simp) (by simp), h.rolls.committed]
  · rw [exportedDisk_exported]
    exact savedFile_ne_other _
  · rw [exportedDisk_of_ne p t (by simp) (by simp)]
    exact h.rolls.backup

theorem Prepared.usable_exported (h : Prepared v news p j t) : Usable (exportedDisk p t) :=
  usable_set (usable_set h.usable (savedFile_ne_other _)) (by simp)

/-- And the old selector. -/
theorem Prepared.rolls_selected (h : Prepared v news p j t) : RollsBack v (selectedDisk p t) j := by
  have hr := h.rolls_exported
  refine ⟨?_, ?_, h.rolls.selector, ?_, ?_⟩
  · rw [selectedDisk_of_ne p t (by simp) (by simp), hr.journal]
  · rw [selectedDisk_of_ne p t (by simp) (by simp), hr.committed]
  · rw [selectedDisk_of_ne p t (by simp) (by simp)]
    exact hr.replaceable
  · rw [selectedDisk_of_ne p t (by simp) (by simp)]
    exact hr.backup

theorem Prepared.usable_selected (h : Prepared v news p j t) : Usable (selectedDisk p t) :=
  usable_set (usable_set h.usable_exported (selectorNode_ne_other _)) (by simp)

theorem Prepared.back_exported (h : Prepared v news p j t) : Recoverable host false v (exportedDisk p t) :=
  .back h.usable_exported (inputsBack_congr h.inputs (agreeOn_exportedDisk p t)) j h.rolls_exported

theorem Prepared.back_selected (h : Prepared v news p j t) : Recoverable host false v (selectedDisk p t) :=
  .back h.usable_selected (inputsBack_congr h.inputs (agreeOn_selectedDisk p t)) j h.rolls_selected

theorem Prepared.usable_marked (h : Prepared v news p j t) : Usable (markedDisk p t) :=
  usable_set (usable_set h.usable_selected (savedFile_ne_other _)) (by simp)

/-- Behind the marker recovery keeps what was published. -/
theorem Prepared.on_marked (h : Prepared v news p j t) (hid : validId p.id = true) (hinst : Installed host t p) :
    Recoverable host true (published news p) (markedDisk p t) := by
  obtain ⟨_, ⟨g, hopens, hsieve⟩, hsize⟩ := hinst
  have hcurrent : (markedDisk p t).files (.engine .current) = some (.link (selectorTarget p.id)) := by
    rw [markedDisk_of_ne p t (by simp) (by simp), selectedDisk, Disk.set_of_ne _ none (by simp), Disk.set_self,
      selectorNode, if_neg (validId_ne_nil hid)]
  have hexported : (markedDisk p t).files .filtersSieve = savedFile p.sieve := by
    rw [markedDisk_of_ne p t (by simp) (by simp), selectedDisk_of_ne p t (by simp) (by simp), exportedDisk_exported]
  have hkept : InputsKept (published news p) (markedDisk p t) := by
    have hk := inputsKept_congr h.kept (agreeOn_markedDisk p t)
    exact ⟨hk.1, hk.2⟩
  refine .on h.usable_marked hkept j g ⟨?_, ?_, ?_, ?_, ?_, ?_, ?_, ?_⟩ rfl
  · rw [markedDisk_of_ne p t (by simp) (by simp), h.rolls_selected.journal]
  · rw [markedDisk_marker, h.next]
  · rw [hcurrent, h.next]
  · rw [h.next, ← hopens]
    exact openGeneration_congr host rfl p.id
  · exact ⟨0, by rw [hexported, hsieve]; rfl⟩
  · rw [hsieve]
    exact hsize
  · exact shown_savedFile hexported
  · exact hcurrent

theorem Prepared.decided_marked (h : Prepared v news p j t) (hid : validId p.id = true)
    (hinst : placed → Installed host t p) : Decided host placed v (published news p) (markedDisk p t) := by
  refine ⟨?_, h.usable_marked _, fun hplaced _ => h.on_marked hid (hinst hplaced)⟩
  have hstate : (markedDisk p t).set (.engine .committed) none =
      (selectedDisk p t).set (.engine .committedNext) none := by
    rw [markedDisk, Disk.set_comm _ _ _ (by simp), Disk.set_set, Disk.set_same _ h.rolls_selected.committed]
  rw [hstate]
  exact recoverable_set h.back_selected h.usable_selected (by simp) rfl rfl

theorem safe_publishCommit (h : Prepared v news p j t)
    (hid : validId p.id = true) (hinst : placed → Installed host t p) :
    Prog.Safe disks (Decided host placed v (published news p)) (publishCommit p) t fun ok u =>
      ok = true ∧ u.files (.engine .committed) ≠ none ∧
        (placed → Recoverable host true (published news p) u) := by
  have hback : Decided host placed v (published news p) (markedDisk p t) := h.decided_marked hid hinst
  apply Prog.safe_both
  apply safe_rename
  · rw [h.exportNext]
    simp [savedFile]
  · exact h.rolls.replaceable
  · rw [h.exportNext]
    exact Recoverable.decided h.back_exported
  · rw [h.exportNext, if_pos rfl]
    apply Prog.safe_both
    apply safe_setSelector (by simp) h.usable_exported
    · intro n hn
      exact (recoverable_set h.back_exported h.usable_exported hn rfl rfl).decided
    · intro hnil
      exact absurd hnil (validId_ne_nil hid)
    · intro _
      have hI : Decided host placed v (published news p) (selectedDisk p t) := h.back_selected.decided
      refine ⟨hI, ?_⟩
      rw [if_pos rfl]
      apply Prog.safe_both
      apply safe_fsync hI
      apply Prog.safe_both
      apply safe_fsync hI
      apply Prog.safe_both
      apply safe_save
      · show (selectedDisk p t).files _ = none
        rw [selectedDisk_of_ne p t (by simp) (by simp), exportedDisk_of_ne p t (by simp) (by simp), h.committedNext]
      · intro n hn
        exact (recoverable_set h.back_selected h.usable_selected hn rfl rfl).decided
      · have hrename : (((selectedDisk p t).set (.engine .committedNext) (savedFile p.id)).set (.engine .committed)
            (savedFile p.id)).set (.engine .committedNext) none = markedDisk p t := by
          rw [Disk.set_comm (selectedDisk p t) _ _ (by simp), Disk.set_set, markedDisk]
        rw [if_pos rfl]
        apply Prog.safe_both
        apply safe_rename
        · rw [Disk.set_self]
          simp [savedFile]
        · show ((selectedDisk p t).set _ _).files _ ≠ _
          rw [Disk.set_of_ne _ _ (by simp), h.rolls_selected.committed]
          simp
        · rw [Disk.set_self]
          exact hrename ▸ hback
        · rw [Disk.set_self, if_pos rfl]
          show Prog.Safe disks _ _ ((((selectedDisk p t).set _ _).set _ _).set _ _) _
          rw [hrename]
          apply safe_fsync hback
          refine ⟨rfl, ?_, fun hplaced => h.on_marked hid (hinst hplaced)⟩
          rw [markedDisk_marker]
          simp [savedFile]

end Prepared

/-! ### Failures -/

/-- A reported failure without its marker leads back to `v`, and under `S` it is there. -/
structure Undone (host : Host) (v : View) (S : Prop) (rc : ℕ) (t : Disk) : Prop where
  status : rc = 3
  recoverable : Recoverable host false v t
  settled : S → Settled t ∧ view t = v

theorem Undone.of_recovered {S : Prop} {t : Disk} {rc : ℕ} (hc : v.current ≠ some .other)
    (h : Recovered v rc t) : Undone host v S 3 t :=
  ⟨rfl, settled_recoverable h.2.1 h.2.2 hc, fun _ => h.2⟩

/-- Without a journal only the files of the publication are removed. -/
theorem safe_abandonCleanup {t : Disk} (h : Recoverable host false v t)
    (hj : t.files (.engine .journal) = none) :
    Prog.Safe disks (Recoverable host false v) cleanupTransaction t fun _ u =>
      Recoverable host false v u ∧ (importGone t → Settled u ∧ view u = v) := by
  have hclean : Clean v t := by
    cases h with
    | clean usable inputs journal exported marker =>
      exact ⟨usable, inputs, journal, marker.resolve_left (by simp), exported⟩
    | back _ _ _ rolls =>
      rw [rolls.journal] at hj
      cases hj
    | on _ _ _ _ _ marker => cases marker
  have hkept : ∀ u, Removed (.journal :: cleanupNames) t u → Clean v u := by
    intro u hu
    refine ⟨hu.usable hclean.usable, ?_, hu.none hclean.journal, hu.none hclean.committed,
      hu.displayed hclean.shows⟩
    apply inputsBack_congr hclean.inputs
    apply hu.agree
    simp [cleanupNames, inputPath]
  apply Prog.safe_mono disks (safe_cleanupNames hclean.usable fun u _ hu => (hkept u hu).recoverable)
    (fun _ hu => hu)
  intro ok u hu
  obtain ⟨_, hremoved, hnone⟩ := hu
  refine ⟨(hkept u hremoved).recoverable, ?_⟩
  intro hgone
  have hsettled := settled_of_gone hremoved hnone hgone
  refine ⟨hsettled, ?_⟩
  have hfinal := hkept u hremoved
  obtain ⟨vi, ve, vc⟩ := v
  simp only [view, View.mk.injEq]
  refine ⟨?_, hfinal.shows.1, hfinal.shows.2⟩
  rcases hfinal.inputs with ⟨_, hin⟩ | ⟨lines, htext, _⟩
  · exact funext hin
  · rw [hsettled _ (by simp)] at htext
    cases htext

theorem safe_abandon {new : View} {t : Disk} (prepared : Bool) (h : Decided host placed v new t) :
    Prog.Safe disks (Decided host placed v new) (abandon host prepared) t
      (Undone host v (prepared = true ∨ importGone t)) := by
  let u := t.set (.engine .committed) none
  have hu : Recoverable host false v u := h.back
  apply Prog.safe_bind
  apply safe_removeFile h.marker hu.decided
  rw [if_pos rfl]
  apply Prog.safe_look
  split
  · apply Prog.safe_bind
    apply Prog.safe_mono disks (safe_recover hu) (fun _ hw => hw.decided)
    intro rc w hw
    exact Prog.safe_done _ (Undone.of_recovered hu.current_ne_other hw)
  · rename_i hj
    have hnone : u.files (.engine .journal) = none := by
      rw [Bool.or_eq_true, not_or] at hj
      simpa [existsAt] using hj.2
    apply Prog.safe_bind
    apply Prog.safe_mono disks (safe_abandonCleanup hu hnone) (fun _ hw => hw.decided)
    intro ok w hw
    apply Prog.safe_done
    refine ⟨rfl, hw.1, ?_⟩
    intro hdone
    have hgone : importGone t := hdone.resolve_left fun hp => hj (by simp [hp])
    apply hw.2
    refine ⟨?_, ?_, ?_⟩
    · rw [Disk.set_of_ne t none (by simp), hgone.1]
    · rw [Disk.set_of_ne t none (by simp), hgone.2.1]
    · intro i s
      rw [Disk.set_of_ne t none (by simp), hgone.2.2]

/-! ### The publication -/

/-- The two ways a publication ends. -/
inductive Ended (host : Host) (placed : Prop) (old new : View) (d : Disk) (rc : ℕ) (t : Disk) : Prop where
  | committed (status : rc = 0) (marked : t.files (.engine .committed) ≠ none)
      (on : placed → Recoverable host true new t)
  | undone (undone : Undone host old (importGone d) rc t)

theorem importGone_congr {d t : Disk} (h : importGone d) (ha : AgreeOn importPath d t) : importGone t := by
  refine ⟨?_, ?_, ?_⟩
  · rw [ha.files _ rfl, h.1]
  · rw [ha.files _ rfl, h.2.1]
  · intro i s
    rw [ha.files _ rfl, h.2.2]

theorem Installed.congr {t : Disk} (h : Installed host d p) (hg : t.generations = d.generations) :
    Installed host t p := by
  obtain ⟨hid, ⟨g, hopens, hsieve⟩, hsize⟩ := h
  refine ⟨hid, ⟨g, ?_, hsieve⟩, hsize⟩
  rw [openGeneration_congr host hg, hopens]

theorem safe_publish (h : Ready v news d) (hid : validId p.id = true) (hinst : placed → Installed host d p)
    (hold : old = [] ∨ validId old = true) (hsel : v.current = selectorNode old) :
    Prog.Safe disks (Decided host placed v (published news p)) (publish host old p) d
      (Ended host placed v (published news p) d) := by
  have habandon : ∀ {t prepared}, Decided host placed v (published news p) t → AgreeOn importPath d t →
      Prog.Safe disks (Decided host placed v (published news p)) (abandon host prepared) t
        (Ended host placed v (published news p) d) := by
    intro t prepared ht ha
    apply Prog.safe_mono disks (safe_abandon _ ht) (fun _ hu => hu)
    intro rc u hu
    exact .undone ⟨hu.status, hu.recoverable,
      fun hgone => hu.settled (Or.inr (importGone_congr hgone ha))⟩
  apply Prog.safe_bind
  apply Prog.safe_mono disks (safe_publishPrepare host p h hold hid hsel) (fun t ht => ht.recoverable.decided)
  intro prepared t ht
  cases prepared with
  | false =>
    obtain ⟨hclean, ha⟩ := ht
    exact habandon hclean.recoverable.decided ha
  | true =>
    obtain ⟨⟨j, hj⟩, ha⟩ := ht
    apply Prog.safe_bind
    rw [if_pos rfl]
    apply Prog.safe_mono disks (safe_publishCommit hj hid fun hp => (hinst hp).congr ha.generations)
      (fun _ hu => hu)
    intro ok u hu
    obtain ⟨rfl, hmarked, hon⟩ := hu
    rw [if_pos rfl]
    exact .committed rfl hmarked hon

/-- What a whole transaction leaves. -/
inductive Finished (host : Host) (placed : Prop) (old new : View) (rc : ℕ) (t : Disk) : Prop where
  | committed (status : rc = 0) (marked : t.files (.engine .committed) ≠ none)
      (on : placed → Recoverable host true new t)
  | rolledBack (status : rc = 3) (settled : Settled t) (shows : view t = old)

theorem safe_undoImport {new : View} {t : Disk} {rc : ℕ} (hrc : rc = 3) (h : Decided host placed v new t) :
    Prog.Safe disks (Decided host placed v new) (undoImport host rc) t fun rc t =>
      rc = 3 ∧ Settled t ∧ view t = v := by
  have hu : Recoverable host false v (t.set (.engine .committed) none) := h.back
  subst hrc
  apply Prog.safe_bind
  apply safe_removeFile h.marker hu.decided
  apply Prog.safe_bind
  apply Prog.safe_mono disks (safe_recover hu) (fun _ hw => hw.decided)
  intro rc w hw
  exact Prog.safe_done _ ⟨rfl, hw.2⟩

/-- Every state of a transaction is on one of its two sides. -/
theorem safe_transact {change : Option Change} (hs : Settled d) (hsel : selector d = .ok old)
    (hid : validId p.id = true) (hreads : ∀ c, change = some c → Reads host d c) :
    Prog.Safe disks (Decided host (Installed host d p) (view d) (newView d change p))
      (transact host change old p) d
      (Finished host (Installed host d p) (view d) (newView d change p)) := by
  obtain ⟨hold, hcurrent⟩ := selector_eq_ok hsel
  cases change with
  | none =>
    apply Prog.safe_mono disks (safe_publish (settled_ready hs hsel) hid (fun h => h) hold hcurrent)
      (fun _ ht => ht)
    intro rc t ht
    cases ht with
    | committed hrc hmarked hon => exact .committed hrc hmarked hon
    | undone h =>
      have hgone : importGone d := ⟨hs _ (by simp), hs _ (by simp), fun i s => hs _ (by simp)⟩
      exact .rolledBack h.status (h.settled hgone).1 (h.settled hgone).2
  | some c =>
    apply Prog.safe_bind
    apply Prog.safe_mono disks (safe_prepareInputs host hs hsel (hreads c rfl))
      (fun _ ht => ht.recoverable.decided)
    intro ok t ht
    obtain ⟨rfl, hready, hgen⟩ := ht
    apply Prog.safe_bind
    rw [if_pos rfl]
    apply Prog.safe_mono disks (safe_publish hready hid (fun h => h.congr hgen) hold hcurrent)
      (fun _ hu => hu)
    intro rc u hu
    cases hu with
    | committed hrc hmarked hon =>
      subst hrc
      exact Prog.safe_done _ (.committed rfl hmarked hon)
    | undone h =>
      apply Prog.safe_mono disks (safe_undoImport h.status h.recoverable.decided) (fun _ hw => hw)
      intro rc w hw
      exact .rolledBack hw.1 hw.2.1 hw.2.2

end Publish

end JaroFilter
