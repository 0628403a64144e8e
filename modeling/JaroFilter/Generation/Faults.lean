import JaroFilter.Generation.Compile
import JaroFilter.Generation.Roots

/-!
# A failing call

What a compile or an import leaves when one of the calls of its transaction
fails and the calls that undo it succeed.
-/

namespace JaroFilter

open Lib

/-- Staging, installation, preparation and publication; not what undoes them. -/
def InTransaction (c : Call) : Prop := c.region ≠ .recover

/-! ### Which calls a routine makes -/

def notBuilding : Path → Bool
  | .building _ => false
  | _ => true

/-- A call that leaves the staged directory and the generations alone. -/
def Op.avoidsStage : Op → Bool
  | .create p | .write p _ | .fchmod p _ | .unlink p | .symlink _ p => notBuilding p
  | .rename p q => notBuilding p && notBuilding q
  | .fsync => true
  | _ => false

section Calls

variable {P : Call → Prop} {r : Region} {host : Host}

theorem calls_step {op : Op} (h : P ⟨r, op⟩) : Prog.Calls P (step r op) := ⟨h, fun _ => trivial⟩

theorem calls_save {p : Path} {data : Bytes} (hp : notBuilding p = true)
    (h : ∀ op, op.avoidsStage = true → P ⟨r, op⟩) : Prog.Calls P (save r p data) :=
  Prog.calls_both (calls_step (h _ hp)) (Prog.calls_both (calls_step (h _ hp)) (calls_step (h _ rfl)))

theorem calls_copyFile {p q : Path} (hq : notBuilding q = true)
    (h : ∀ op, op.avoidsStage = true → P ⟨r, op⟩) : Prog.Calls P (copyFile host r p q) := by
  apply Prog.calls_look
  intro d
  split
  · exact calls_save hq h
  · trivial

theorem calls_chmodFile {p : Path} {mode : Mode} (hp : notBuilding p = true)
    (h : ∀ op, op.avoidsStage = true → P ⟨r, op⟩) : Prog.Calls P (chmodFile host r p mode) := by
  apply Prog.calls_look
  intro d
  split
  · split
    · exact Prog.calls_both (calls_step (h _ hp)) (calls_step (h _ rfl))
    · trivial
  · trivial

theorem calls_setSelector {id : Bytes} {e : EngineName}
    (h : ∀ op, op.avoidsStage = true → P ⟨r, op⟩) : Prog.Calls P (setSelector r id (.engine e)) := by
  unfold setSelector
  split
  · exact calls_step (h _ rfl)
  · exact Prog.calls_both (calls_step (h _ rfl))
      (Prog.calls_both (calls_step (h _ rfl)) (calls_step (h _ rfl)))

theorem calls_restoreFile {p q t : Path} {mode : Mode} (hq : notBuilding q = true)
    (ht : notBuilding t = true) (h : ∀ op, op.avoidsStage = true → P ⟨.recover, op⟩) :
    Prog.Calls P (restoreFile host p q t mode) := by
  have hrename : (Op.rename q t).avoidsStage = true := by simp [Op.avoidsStage, hq, ht]
  exact Prog.calls_both (calls_step (h _ hq)) (Prog.calls_both (calls_copyFile hq h)
    (Prog.calls_both (calls_chmodFile hq h) (calls_step (h _ hrename))))

theorem calls_cleanupTransaction (h : ∀ op, op.avoidsStage = true → P ⟨.recover, op⟩) :
    Prog.Calls P cleanupTransaction :=
  Prog.calls_both (calls_step (h _ rfl)) (Prog.calls_both (calls_step (h _ rfl))
    (Prog.calls_both (Prog.calls_each fun _ _ => calls_step (h _ rfl)) (calls_step (h _ rfl))))

theorem calls_recoverInputs {committed : Bool} (h : ∀ op, op.avoidsStage = true → P ⟨.recover, op⟩) :
    Prog.Calls P (recoverInputs host committed) := by
  have hstep : ∀ {op}, op.avoidsStage = true → Prog.Calls P (step .recover op) := fun ho => calls_step (h _ ho)
  apply Prog.calls_both
  · apply Prog.calls_look
    intro d
    split
    · split
      · apply Prog.calls_both
        · split
          · trivial
          · apply Prog.calls_each
            intro i _
            unfold restoreInput
            split
            · split
              · exact calls_restoreFile rfl rfl h
              · exact hstep rfl
            · trivial
        · exact Prog.calls_both (hstep rfl) (Prog.calls_both (hstep rfl)
            (Prog.calls_both (hstep rfl) (hstep rfl)))
      · trivial
    · trivial
  · exact Prog.calls_both (Prog.calls_each fun _ _ => Prog.calls_each fun _ _ => hstep rfl)
      (Prog.calls_both (hstep rfl) (hstep rfl))

theorem calls_finishRecovery {committed : Bool} (h : ∀ op, op.avoidsStage = true → P ⟨.recover, op⟩) :
    Prog.Calls P (finishRecovery host committed) :=
  Prog.calls_bind (Prog.calls_both (calls_recoverInputs h) (calls_cleanupTransaction h)) fun _ => trivial

theorem calls_rollback {j : Journal} (h : ∀ op, op.avoidsStage = true → P ⟨.recover, op⟩) :
    Prog.Calls P (rollback host j) := by
  apply Prog.calls_both
  · split
    · exact calls_restoreFile rfl rfl h
    · exact calls_step (h _ rfl)
  · exact Prog.calls_both (calls_setSelector h)
      (Prog.calls_both (calls_step (h _ rfl)) (calls_step (h _ rfl)))

theorem calls_recover (host : Host) (h : ∀ op, op.avoidsStage = true → P ⟨.recover, op⟩) :
    Prog.Calls P (recover host) := by
  apply Prog.calls_look
  intro d
  split
  · split
    · trivial
    · split
      · split
        · split
          · trivial
          · exact calls_finishRecovery h
        · trivial
      · apply Prog.calls_bind (calls_rollback h)
        intro ok
        cases ok with
        | true => exact calls_finishRecovery h
        | false => trivial
  · exact calls_finishRecovery h

theorem calls_abandon {prepared : Bool} (h : ∀ op, op.avoidsStage = true → P ⟨.recover, op⟩) :
    Prog.Calls P (abandon host prepared) := by
  apply Prog.calls_bind (calls_step (h _ rfl))
  intro ok
  cases ok with
  | true =>
    apply Prog.calls_look
    intro d
    split
    · exact Prog.calls_bind (calls_recover _ h) fun _ => trivial
    · exact Prog.calls_bind (calls_cleanupTransaction h) fun _ => trivial
  | false => trivial

theorem calls_undoImport {rc : ℕ} (h : ∀ op, op.avoidsStage = true → P ⟨.recover, op⟩) :
    Prog.Calls P (undoImport host rc) := by
  unfold undoImport
  split
  · trivial
  · exact Prog.calls_bind (calls_step (h _ rfl)) fun _ => Prog.calls_bind (calls_recover _ h) fun _ => trivial

theorem calls_publishPrepare {old : Bytes} {p : Products}
    (h : ∀ op, op.avoidsStage = true → P ⟨.publish, op⟩) : Prog.Calls P (publishPrepare host old p) := by
  have hjournal : ∀ {present mode}, Prog.Calls P (Prog.both (save .publish (.engine .exportNext) p.sieve)
      (Prog.both (save .publish (.engine .journalNext) (journalLine old present mode p.id))
        (Prog.both (step .publish (.rename (.engine .journalNext) (.engine .journal)))
          (step .publish .fsync)))) :=
    Prog.calls_both (calls_save rfl h) (Prog.calls_both (calls_save rfl h)
      (Prog.calls_both (calls_step (h _ rfl)) (calls_step (h _ rfl))))
  apply Prog.calls_look
  intro d
  simp only
  split
  · split
    · exact Prog.calls_both (calls_save rfl h) hjournal
    · trivial
  · exact hjournal

theorem calls_publishCommit {p : Products} (h : ∀ op, op.avoidsStage = true → P ⟨.publish, op⟩) :
    Prog.Calls P (publishCommit p) := by
  have hstep : ∀ {op}, op.avoidsStage = true → Prog.Calls P (step .publish op) := fun ho => calls_step (h _ ho)
  exact Prog.calls_both (hstep rfl) (Prog.calls_both (calls_setSelector h) (Prog.calls_both (hstep rfl)
    (Prog.calls_both (hstep rfl) (Prog.calls_both (calls_save rfl h)
      (Prog.calls_both (hstep rfl) (hstep rfl))))))

theorem calls_publish {old : Bytes} {p : Products}
    (h : ∀ op, op.avoidsStage = true → P ⟨.publish, op⟩)
    (h' : ∀ op, op.avoidsStage = true → P ⟨.recover, op⟩) : Prog.Calls P (publish host old p) := by
  apply Prog.calls_bind (calls_publishPrepare h)
  intro prepared
  apply Prog.calls_bind
  · split
    · exact calls_publishCommit h
    · trivial
  · intro ok
    split
    · trivial
    · exact calls_abandon h'

theorem calls_prepareInputs {c : Change} (h : ∀ op, op.avoidsStage = true → P ⟨.prepare, op⟩) :
    Prog.Calls P (prepareInputs host c) := by
  have hstep : ∀ {op}, op.avoidsStage = true → Prog.Calls P (step .prepare op) := fun ho => calls_step (h _ ho)
  have hstage : ∀ i, Prog.Calls P (stageInput c i) := by
    intro i
    unfold stageInput
    split
    · apply Prog.calls_both _ (calls_save rfl h)
      split
      · exact calls_save rfl h
      · trivial
    · trivial
  have hreplace : ∀ i, Prog.Calls P (replaceInput host c i) := by
    intro i
    unfold replaceInput
    split
    · exact Prog.calls_both (calls_chmodFile rfl h) (hstep rfl)
    · trivial
  exact Prog.calls_both (Prog.calls_each fun i _ => hstage i) (Prog.calls_both (calls_save rfl h)
    (Prog.calls_both (hstep rfl) (Prog.calls_both (hstep rfl)
      (Prog.calls_both (Prog.calls_each fun i _ => hreplace i) (hstep rfl)))))

theorem calls_transact {change : Option Change} {old : Bytes} {p : Products}
    (h : ∀ r op, op.avoidsStage = true → P ⟨r, op⟩) : Prog.Calls P (transact host change old p) := by
  cases change with
  | none => exact calls_publish (h _) (h _)
  | some c =>
    apply Prog.calls_bind (calls_prepareInputs (h _))
    intro ok
    apply Prog.calls_bind
    · split
      · exact calls_publish (h _) (h _)
      · trivial
    · intro rc
      exact calls_undoImport (h _)

end Calls

/-! ### Routines that end at their first failure -/

section Fast

variable {r : Region} {host : Host}

theorem fast_step (op : Op) : Prog.Fast (step r op) := Prog.fast_make _

theorem fast_save (p : Path) (data : Bytes) : Prog.Fast (save r p data) :=
  Prog.fast_both (fast_step _) (Prog.fast_both (fast_step _) (fast_step _))

theorem fast_chmodFile (p : Path) (mode : Mode) : Prog.Fast (chmodFile host r p mode) := by
  apply Prog.fast_look
  intro d
  split
  · split
    · exact Prog.fast_both (fast_step _) (fast_step _)
    · trivial
  · trivial

theorem fast_setSelector (id : Bytes) (p : Path) : Prog.Fast (setSelector r id p) := by
  unfold setSelector
  split
  · exact fast_step _
  · exact Prog.fast_both (fast_step _) (Prog.fast_both (fast_step _) (fast_step _))

theorem fast_prepareInputs (c : Change) : Prog.Fast (prepareInputs host c) := by
  have hstage : ∀ i, Prog.Fast (stageInput c i) := by
    intro i
    unfold stageInput
    split
    · apply Prog.fast_both _ (fast_save _ _)
      split
      · exact fast_save _ _
      · trivial
    · trivial
  have hreplace : ∀ i, Prog.Fast (replaceInput host c i) := by
    intro i
    unfold replaceInput
    split
    · exact Prog.fast_both (fast_chmodFile _ _) (fast_step _)
    · trivial
  exact Prog.fast_both (Prog.fast_each fun i _ => hstage i) (Prog.fast_both (fast_save _ _)
    (Prog.fast_both (fast_step _) (Prog.fast_both (fast_step _)
      (Prog.fast_both (Prog.fast_each fun i _ => hreplace i) (fast_step _)))))

theorem fast_publishPrepare (old : Bytes) (p : Products) : Prog.Fast (publishPrepare host old p) := by
  have hjournal : ∀ present mode, Prog.Fast (Prog.both (save .publish (.engine .exportNext) p.sieve)
      (Prog.both (save .publish (.engine .journalNext) (journalLine old present mode p.id))
        (Prog.both (step .publish (.rename (.engine .journalNext) (.engine .journal)))
          (step .publish .fsync)))) :=
    fun _ _ => Prog.fast_both (fast_save _ _) (Prog.fast_both (fast_save _ _)
      (Prog.fast_both (fast_step _) (fast_step _)))
  apply Prog.fast_look
  intro d
  simp only
  split
  · split
    · exact Prog.fast_both (fast_save _ _) (hjournal _ _)
    · trivial
  · exact hjournal _ _

theorem fast_publishCommit (p : Products) : Prog.Fast (publishCommit p) :=
  Prog.fast_both (fast_step _) (Prog.fast_both (fast_setSelector _ _) (Prog.fast_both (fast_step _)
    (Prog.fast_both (fast_step _) (Prog.fast_both (fast_save _ _)
      (Prog.fast_both (fast_step _) (fast_step _))))))

theorem fast_stage (p : Products) : Prog.Fast (stage host p) := by
  apply Prog.fast_both (fast_step _)
  apply Prog.fast_both (fast_save _ _)
  apply Prog.fast_both (fast_save _ _)
  apply Prog.fast_both (fast_save _ _)
  apply Prog.fast_both (fast_save _ _)
  apply Prog.fast_both (fast_step _)
  exact fun _ => trivial

end Fast

/-! ### A failure of the publication -/

section Publish

variable {host : Host} {v : View} {news : Fin 4 → Option Node} {p : Products} {old : Bytes} {d : Disk}

theorem recover_no_site (op : Op) (_ : op.avoidsStage = true) : ¬ InTransaction ⟨.recover, op⟩ :=
  fun h => h rfl

theorem fault_publish {r : ℕ × Disk} (h : Ready v news d) (hid : validId p.id = true)
    (hold : old = [] ∨ validId old = true) (hsel : v.current = selectorNode old)
    (hf : Prog.Fault disks InTransaction (publish host old p) d r) :
    Undone host v (importGone d) r.1 r.2 := by
  have habandon : ∀ {t : Disk} {prepared : Bool}, Decided host False v (published news p) t →
      (prepared = true ∨ AgreeOn importPath d t) → Undone host v (importGone d)
        (Prog.run disks (abandon host prepared) t).1 (Prog.run disks (abandon host prepared) t).2 := by
    intro t prepared ht ha
    have hu := Prog.safe_run disks (safe_abandon prepared ht)
    refine ⟨hu.status, hu.recoverable, ?_⟩
    intro hgone
    exact hu.settled (ha.imp_right fun ha => importGone_congr hgone ha)
  have hprepare := safe_publishPrepare host p h hold hid hsel
  have hstart : Preparing host v d d := ⟨h.clean.recoverable, fun _ _ => rfl, rfl⟩
  rcases Prog.fault_bind disks hf with ⟨x, hx, hr⟩ | hf
  · obtain ⟨hx1, hx2⟩ := Prog.fault_fast disks (fast_publishPrepare old p) hstart hprepare hx
    rw [hr, hx1]
    exact habandon hx2.recoverable.decided (Or.inr hx2.imports)
  · have hran := Prog.safe_run disks hprepare
    generalize Prog.run disks (publishPrepare host old p) d = ran at hran hf
    obtain ⟨prepared, t⟩ := ran
    cases prepared with
    | false => exact absurd hf (Prog.not_fault_of_calls disks (calls_abandon recover_no_site))
    | true =>
      obtain ⟨⟨j, hj⟩, ha⟩ := hran
      have hdecided : Decided host False v (published news p) t :=
        Recoverable.decided (.back hj.usable hj.inputs j hj.rolls)
      rcases Prog.fault_bind disks hf with ⟨x, hx, hr⟩ | hf
      · obtain ⟨hx1, hx2⟩ := Prog.fault_fast disks (fast_publishCommit p) hdecided
          (safe_publishCommit hj hid fun hfalse => hfalse.elim) hx
        rw [hr, hx1]
        exact habandon hx2 (Or.inl rfl)
      · have hquiet : ∀ ok : Bool, Prog.Calls (fun c => ¬ InTransaction c)
            (if ok then .done 0 else abandon host true) := by
          intro ok
          split
          · trivial
          · exact calls_abandon recover_no_site
        exact absurd hf (Prog.not_fault_of_calls disks (hquiet _))

/-- A failing call of a transaction is reported, and nothing has changed. -/
theorem fault_transact {change : Option Change} {r : ℕ × Disk} (hs : Settled d)
    (hsel : selector d = .ok old) (hid : validId p.id = true)
    (hreads : ∀ c, change = some c → Reads host d c)
    (hf : Prog.Fault disks InTransaction (transact host change old p) d r) :
    r.1 = 3 ∧ Settled r.2 ∧ view r.2 = view d := by
  obtain ⟨hold, hcurrent⟩ := selector_eq_ok hsel
  cases change with
  | none =>
    have hu := fault_publish (settled_ready hs hsel) hid hold hcurrent hf
    exact ⟨hu.status, hu.settled ⟨hs _ (by simp), hs _ (by simp), fun i s => hs _ (by simp)⟩⟩
  | some c =>
    -- A reported failure is undone by one more recovery.
    have hundo : ∀ {t : Disk}, Recoverable host false (view d) t →
        (Prog.run disks (undoImport host 3) t).1 = 3 ∧ Settled (Prog.run disks (undoImport host 3) t).2 ∧
          view (Prog.run disks (undoImport host 3) t).2 = view d := by
      intro t ht
      have hdecided : Decided host False (view d) (view d) t := ht.decided
      exact Prog.safe_run disks (safe_undoImport rfl hdecided)
    have hprepare := safe_prepareInputs host hs hsel (hreads c rfl)
    rcases Prog.fault_bind disks hf with ⟨x, hx, hr⟩ | hf
    · obtain ⟨hx1, hx2⟩ := Prog.fault_fast disks (fast_prepareInputs c) (settled_clean hs hsel) hprepare hx
      rw [hr, hx1]
      exact hundo hx2.recoverable
    · obtain ⟨hok, hready, _⟩ := Prog.safe_run disks hprepare
      rw [hok, if_pos rfl] at hf
      rcases Prog.fault_bind disks hf with ⟨x, hx, hr⟩ | hf
      · have hu := fault_publish hready hid hold hcurrent hx
        rw [hr, hu.status]
        exact hundo hu.recoverable
      · exact absurd hf (Prog.not_fault_of_calls disks (calls_undoImport recover_no_site))

end Publish

/-! ### Between two publications -/

/-- Nothing of a transaction is left, the view is `v`, and a staged directory can be
emptied. -/
structure Still (v : View) (t : Disk) : Prop where
  settled : Settled t
  shows : view t = v
  stage : t.staged = true → ∀ f, t.files (.building f) ≠ some .other

section Still

variable {host : Host} {v : View} {p : Products} {t : Disk}

theorem Still.set (h : Still v t) {f : Product} {n : Option Node} (hn : n ≠ some .other) :
    Still v (t.set (.building f) n) := by
  refine ⟨?_, ?_, ?_⟩
  · intro e he
    rw [Disk.set_of_ne t n (by simp)]
    exact h.settled e he
  · rw [← h.shows]
    simp only [view, shown, View.mk.injEq]
    refine ⟨?_, ?_, ?_⟩
    · funext i
      rw [Disk.set_of_ne t n (by simp)]
    · rw [Disk.set_of_ne t n (by simp)]
    · rw [Disk.set_of_ne t n (by simp)]
  · intro hs g
    by_cases hg : g = f
    · rw [hg, Disk.set_self]
      exact hn
    · rw [Disk.set_of_ne t n (by simpa using hg)]
      exact h.stage hs g

/-- A change of the staged directory as a whole. -/
theorem Still.clear (h : Still v t) (staged : Bool) (generations : Bytes → Option Directory) :
    Still v ⟨clearStage t, staged, generations⟩ := by
  refine ⟨fun e he => h.settled e he, h.shows, ?_⟩
  intro _ f
  simp [clearStage]

theorem safe_stage (host : Host) (p : Products) (h : Still v t) :
    Prog.Safe disks (Still v) (stage host p) t fun _ u => Still v u := by
  have hsave : ∀ {f : Product} {data : Bytes} {u : Disk} {q : Routine Bool}, Still v u →
      u.files (.building f) = none → (Still v (u.set (.building f) (savedFile data)) →
        Prog.Safe disks (Still v) q (u.set (.building f) (savedFile data)) fun _ w => Still v w) →
      Prog.Safe disks (Still v) (Prog.both (save .stage (.building f) data) q) u fun _ w => Still v w := by
    intro f data u q hu hnone hq
    apply Prog.safe_both
    apply safe_save hnone
    · intro n hn
      exact hu.set hn
    · exact hq (hu.set (savedFile_ne_other _))
  have hmade : Op.mkdtemp.exec t = (true, ⟨clearStage t, true, t.generations⟩) := rfl
  apply Prog.safe_both
  apply safe_step hmade (fun _ hu => hu.elim) (h.clear true t.generations)
  apply hsave (h.clear true t.generations) rfl
  intro h₁
  apply hsave h₁ (by rw [Disk.set_of_ne _ _ (by simp)]; rfl)
  intro h₂
  apply hsave h₂ (by rw [Disk.set_of_ne _ _ (by simp), Disk.set_of_ne _ _ (by simp)]; rfl)
  intro h₃
  apply hsave h₃ (by rw [Disk.set_of_ne _ _ (by simp), Disk.set_of_ne _ _ (by simp),
    Disk.set_of_ne _ _ (by simp)]; rfl)
  intro h₄
  apply Prog.safe_both
  exact safe_fsync h₄ h₄

theorem run_discardStage (h : Still v t) :
    Still v (Prog.run disks discardStage t).2 ∧ (Prog.run disks discardStage t).2.staged = false := by
  have hsafe : Prog.Safe disks Anything discardStage t fun _ u => Still v u ∧ u.staged = false := by
    apply Prog.safe_look
    split
    · rename_i hs
      have h₁ : Still v (t.set (.building .policyBin) none) := h.set (by simp)
      have h₂ : Still v ((t.set (.building .policyBin) none).set (.building .filtersZsh) none) :=
        h₁.set (by simp)
      have h₃ : Still v (((t.set (.building .policyBin) none).set (.building .filtersZsh) none).set
          (.building .filtersSieve) none) := h₂.set (by simp)
      have h₄ := h₃.set (f := .manifestJson) (n := none) (by simp)
      apply Prog.safe_bind
      apply safe_removeFile (h.stage hs _) trivial
      apply Prog.safe_bind
      apply safe_removeFile (h₁.stage hs _) trivial
      apply Prog.safe_bind
      apply safe_removeFile (h₂.stage hs _) trivial
      apply Prog.safe_bind
      apply safe_removeFile (h₃.stage hs _) trivial
      apply Prog.safe_bind
      refine ⟨fun _ _ => trivial, trivial, ?_⟩
      have hempty : ∀ f, ((((t.set (.building .policyBin) none).set (.building .filtersZsh) none).set
          (.building .filtersSieve) none).set (.building .manifestJson) none).files (.building f) = none := by
        intro f
        cases f <;> simp [Disk.set]
      have hexec : disks.exec ⟨.recover, .rmdir⟩ ((((t.set (.building .policyBin) none).set
          (.building .filtersZsh) none).set (.building .filtersSieve) none).set (.building .manifestJson)
          none) = (true, { ((((t.set (.building .policyBin) none).set (.building .filtersZsh) none).set
          (.building .filtersSieve) none).set (.building .manifestJson) none) with staged := false }) := by
        show Op.exec _ .rmdir = _
        rw [Op.exec, if_pos ⟨hs, fun f _ => hempty f⟩]
      rw [hexec]
      exact ⟨⟨h₄.settled, h₄.shows, fun hfalse => by cases hfalse⟩, rfl⟩
    · rename_i hs
      exact Prog.safe_done _ ⟨h, by simpa using hs⟩
  exact Prog.safe_run disks hsafe

/-- The staged directory and the generations are the same. -/
structure SameStage (u w : Disk) : Prop where
  staged : w.staged = u.staged
  generations : w.generations = u.generations
  building : ∀ f, w.files (.building f) = u.files (.building f)

theorem SameStage.set {u w : Disk} (h : SameStage u w) {q : Path} {n : Option Node}
    (hq : notBuilding q = true) : SameStage u (w.set q n) := by
  refine ⟨h.staged, h.generations, ?_⟩
  intro f
  rw [Disk.set_of_ne w n, h.building]
  intro heq
  rw [← heq] at hq
  cases hq

theorem sameStage_exec {op : Op} {u w : Disk} (hop : op.avoidsStage = true) (h : SameStage u w) :
    SameStage u (op.exec w).2 := by
  cases op with
  | create q =>
    simp only [Op.exec]
    split
    · exact h.set hop
    · exact h
  | write q data =>
    simp only [Op.exec]
    split
    · exact h.set hop
    · exact h
  | fsync => exact h
  | fchmod q mode =>
    simp only [Op.exec]
    split
    · exact h.set hop
    · exact h
  | rename q q' =>
    rw [Op.avoidsStage, Bool.and_eq_true] at hop
    simp only [Op.exec]
    split
    · exact h
    · exact (h.set hop.2).set hop.1
  | symlink target q =>
    simp only [Op.exec]
    split
    · exact h.set hop
    · exact h
  | unlink q =>
    simp only [Op.exec]
    split
    · exact h
    · exact h.set hop
  | mkdtemp => cases hop
  | rmdir => cases hop
  | install id => cases hop

/-- Routines that do not touch the staged directory keep it. -/
theorem sameStage_run {α : Type} {q : Routine α} (u : Disk)
    (hq : Prog.Calls (fun c => c.op.avoidsStage = true) q) : SameStage u (Prog.run disks q u).2 := by
  have hrefl : SameStage u u := ⟨rfl, rfl, fun _ => rfl⟩
  exact Prog.run_keeps disks (J := SameStage u) (fun _ _ hc hw => sameStage_exec hc hw) hq hrefl

theorem sameStage_fault {α : Type} {q : Routine α} {u : Disk} {r : α × Disk} {site : Call → Prop}
    (hq : Prog.Calls (fun c => c.op.avoidsStage = true) q) (hf : Prog.Fault disks site q u r) :
    SameStage u r.2 := by
  have hrefl : SameStage u u := ⟨rfl, rfl, fun _ => rfl⟩
  apply Prog.fault_keeps disks (J := SameStage u) (fun _ _ hc hw => sameStage_exec hc hw) _ hq hrefl hf
  intro c s t hc ht hs
  obtain ⟨region, op⟩ := c
  cases op with
  | write q data =>
    obtain ⟨n, rfl⟩ := ht
    exact @sameStage_exec (.write q (data.take n)) u s hc hs
  | _ => exact ht.elim

theorem Still.sameStage {u w : Disk} (h : Still v u) (hs : SameStage u w) (hw : Settled w)
    (hview : view w = v) : Still v w := by
  refine ⟨hw, hview, ?_⟩
  intro hstaged f
  rw [hs.building]
  rw [hs.staged] at hstaged
  exact h.stage hstaged f

/-- A recovery between two publications changes nothing. -/
theorem Still.recover (host : Host) (h : Still v t) (hc : v.current ≠ some .other) :
    (Prog.run disks (recover host) t).1 = 0 ∧ Still v (Prog.run disks (recover host) t).2 := by
  have hrecoverable : Recoverable host false v t := settled_recoverable h.settled h.shows hc
  obtain ⟨hrc, hsettled, hview⟩ := hrecoverable.run
  exact ⟨hrc, h.sameStage (sameStage_run t (calls_recover _ fun _ ho => ho)) hsettled hview⟩

theorem safe_installCalls (h : Still v t) :
    Prog.Safe disks (Still v) (Prog.both (step .install (.install p.id)) (step .install .fsync)) t
      fun _ u => Still v u := by
  have hexec : Still v ((Op.install p.id).exec t).2 := by
    simp only [Op.exec]
    split
    · exact h.clear _ _
    · exact h
  apply Prog.safe_both
  refine ⟨fun _ hu => hu.elim, hexec, ?_⟩
  show if _ then _ else _
  split
  · exact safe_fsync hexec hexec
  · exact hexec

/-- A failing call of steps that report 3. -/
theorem fault_status {q : Routine Bool} {I : Disk → Prop} {r : ℕ × Disk} {Q : Bool → Disk → Prop}
    {site : Call → Prop} (hq : Prog.Fast q) (hI : I t) (h : Prog.Safe disks I q t Q)
    (hf : Prog.Fault disks site (status q) t r) : r.1 = 3 ∧ I r.2 := by
  rcases Prog.fault_bind disks hf with ⟨x, hx, hr⟩ | hf
  · obtain ⟨hx1, hx2⟩ := Prog.fault_fast disks hq hI h hx
    rw [hr, hx1]
    exact ⟨rfl, hx2⟩
  · exact absurd hf (Prog.not_fault_done disks)

theorem fault_install {whole : Bool} {r : ℕ × Disk} (h : Still v t)
    (hf : Prog.Fault disks InTransaction (install host whole p) t r) : r.1 = 3 ∧ Still v r.2 := by
  have hf := Prog.fault_look disks hf
  split at hf
  · exact fault_status (Prog.fast_both (fast_step _) (fast_step _)) h (safe_installCalls h) hf
  · split at hf
    · exact absurd hf (Prog.not_fault_done disks)
    · split at hf
      · exact fault_status (fast_step _) h (Q := fun _ u => Still v u) (safe_fsync h h) hf
      · exact absurd hf (Prog.not_fault_done disks)

theorem run_install (host : Host) (whole : Bool) (p : Products) (h : Still v t) :
    Still v (Prog.run disks (install host whole p) t).2 := by
  have hsafe : Prog.Safe disks (Still v) (install host whole p) t fun _ u => Still v u := by
    apply Prog.safe_look
    split
    · apply Prog.safe_bind
      apply Prog.safe_mono disks (safe_installCalls h) (fun _ hu => hu)
      intro ok u hu
      exact hu
    · split
      · exact h
      · split
        · apply Prog.safe_bind
          exact safe_fsync h h
        · exact h
  exact Prog.safe_run disks hsafe

end Still

/-! ### The commands -/

section Commands

variable {pl : Pipeline} {host : Host} {v : View} {p : Products} {t : Disk} {old : Bytes}

theorem selector_not_other (h : selector t = .ok old) : (view t).current ≠ some .other := by
  show t.files (.engine .current) ≠ some .other
  rw [(selector_eq_ok h).2]
  exact selectorNode_ne_other old

/-- A published transaction that was undone is as still as it began. -/
theorem fault_transact_still {change : Option Change} {r : ℕ × Disk} (h : Still v t)
    (hsel : selector t = .ok old) (hid : validId p.id = true)
    (hreads : ∀ c, change = some c → Reads host t c)
    (hf : Prog.Fault disks InTransaction (transact host change old p) t r) :
    r.1 = 3 ∧ Still v r.2 := by
  obtain ⟨hrc, hsettled, hview⟩ := fault_transact h.settled hsel hid hreads hf
  exact ⟨hrc, h.sameStage (sameStage_fault (calls_transact fun _ _ ho => ho) hf) hsettled
    (hview.trans h.shows)⟩

theorem fault_publishIfNeeded {r : ℕ × Disk} (h : Still v t) (hsel : selector t = .ok old)
    (hid : validId p.id = true)
    (hf : Prog.Fault disks InTransaction (publishIfNeeded host old p) t r) : r.1 = 3 ∧ Still v r.2 := by
  have hpublish : Prog.Fault disks InTransaction (publish host old p) t r → r.1 = 3 ∧ Still v r.2 :=
    fun hf => @fault_transact_still host v p t old none r h hsel hid (fun _ hc => by cases hc) hf
  have hf := Prog.fault_look disks hf
  split at hf
  · split at hf
    · exact hpublish hf
    · exact absurd hf (Prog.not_fault_done disks)
  · exact hpublish hf

theorem complete_of_pipeline {s : Snapshot} (h : pl.build s = .ok p) : Complete p := by
  obtain ⟨policy, _, hbuild⟩ := bind_eq_ok_iff.mp (mapError_eq_ok_iff.mp h)
  exact complete_of_build hbuild

theorem fault_publishSection {s : Snapshot} {fingerprint : Bytes} {r : Attempt × Disk} (h : Still v t)
    (hc : v.current ≠ some .other) (hid : validId p.id = true)
    (hf : Prog.Fault disks InTransaction (publishSection pl host s fingerprint p) t r) :
    r.1 = .fail 3 ∧ Still v r.2 := by
  rcases Prog.fault_bind disks hf with ⟨x, hx, hr⟩ | hf
  · exact absurd hx (Prog.not_fault_of_calls disks (calls_recover _ recover_no_site))
  · obtain ⟨hrc, hu⟩ := h.recover host hc
    generalize Prog.run disks (recover host) t = ran at hrc hu hf
    obtain ⟨rc, u⟩ := ran
    rw [if_neg (by simpa using hrc)] at hf
    have hf := Prog.fault_look disks hf
    split at hf
    · exact absurd hf (Prog.not_fault_done disks)
    · split at hf
      · exact absurd hf (Prog.not_fault_done disks)
      · split at hf
        · exact absurd hf (Prog.not_fault_done disks)
        · split at hf
          · exact absurd hf (Prog.not_fault_done disks)
          · rename_i old hsel
            rcases Prog.fault_bind disks hf with ⟨x, hx, hr⟩ | hf
            · obtain ⟨hx1, hx2⟩ := fault_install hu hx
              rw [hr, hx1]
              exact ⟨rfl, hx2⟩
            · have hw := run_install host true p hu
              have hselw := selector_congr (hw.shows.trans hu.shows.symm)
              rw [hsel] at hselw
              split at hf
              · exact absurd hf (Prog.not_fault_done disks)
              · rcases Prog.fault_bind disks hf with ⟨x, hx, hr⟩ | hf
                · obtain ⟨hx1, hx2⟩ := fault_publishIfNeeded hw hselw hid hx
                  rw [hr, hx1]
                  exact ⟨rfl, hx2⟩
                · exact absurd hf (Prog.not_fault_done disks)

/-- An attempt that asks for another has changed nothing. -/
def Repeats (v : View) (r : Attempt) (t : Disk) : Prop := ∀ prior, r = .again prior → Still v t

theorem safe_publishSection {s : Snapshot} {fingerprint : Bytes} (h : Still v t)
    (hc : v.current ≠ some .other) :
    Prog.Safe disks Anything (publishSection pl host s fingerprint p) t (Repeats v) := by
  obtain ⟨hrc, hu⟩ := h.recover host hc
  have hstop : ∀ {outcome : Except ℕ Bytes} {u : Disk}, Repeats v (.stop outcome) u := by
    intro outcome u prior heq
    cases heq
  apply Prog.safe_bind
  apply safe_of_run
  rw [if_neg (by simpa using hrc)]
  generalize (Prog.run disks (recover host) t).2 = u at hu ⊢
  have hstill : ∀ r, Prog.Safe disks Anything (.done r : Routine Attempt) u (Repeats v) :=
    fun r => Prog.safe_done disks fun _ _ => hu
  apply Prog.safe_look
  split
  · exact hstill _
  · split
    · exact hstill _
    · split
      · exact hstill _
      · split
        · exact hstill _
        · apply Prog.safe_bind
          apply Prog.safe_mono disks (safe_anything _ u) (fun _ h => h)
          intro rc w _
          split
          · exact hstop
          · apply Prog.safe_bind
            apply Prog.safe_mono disks (safe_anything _ w) (fun _ h => h)
            intro rc w _
            split
            · exact hstop
            · exact hstop

/-! ### A whole attempt -/

theorem calls_discardStage : Prog.Calls (fun c => ¬ InTransaction c) discardStage := by
  have hstep : ∀ op, Prog.Calls (fun c => ¬ InTransaction c) (step .recover op) :=
    fun op => calls_step fun h => h rfl
  apply Prog.calls_look
  intro d
  split
  · apply Prog.calls_bind (hstep _)
    intro _
    apply Prog.calls_bind (hstep _)
    intro _
    apply Prog.calls_bind (hstep _)
    intro _
    apply Prog.calls_bind (hstep _)
    intro _
    exact Prog.calls_bind (hstep _) fun _ => trivial
  · trivial

theorem run_discarded {α : Type} (a : α) (h : Still v t) :
    (Prog.run disks (Prog.bind discardStage fun _ => .done a) t).1 = a ∧
      Still v (Prog.run disks (Prog.bind discardStage fun _ => .done a) t).2 ∧
      (Prog.run disks (Prog.bind discardStage fun _ => .done a) t).2.staged = false := by
  rw [Prog.run_bind]
  exact ⟨rfl, run_discardStage h⟩

/-- What is discarded at the end of an attempt does not change its outcome. -/
theorem fault_discard {α : Type} {q : Routine α} {r : α × Disk} {a : α}
    (hq : ∀ x, Prog.Fault disks InTransaction q t x → x.1 = a ∧ Still v x.2)
    (hf : Prog.Fault disks InTransaction (Prog.bind q fun b => Prog.bind discardStage fun _ => .done b) t r) :
    r.1 = a ∧ Still v r.2 ∧ r.2.staged = false := by
  rcases Prog.fault_bind disks hf with ⟨x, hx, hr⟩ | hf
  · obtain ⟨hx1, hx2⟩ := hq x hx
    rw [hr, hx1]
    exact run_discarded a hx2
  · exact absurd hf (Prog.not_fault_of_calls disks (Prog.calls_bind calls_discardStage fun _ => trivial))

theorem fault_buildAndPublish {s : Snapshot} {fingerprint : Bytes} {r : Attempt × Disk} (h : Still v t)
    (hc : v.current ≠ some .other)
    (hf : Prog.Fault disks InTransaction (buildAndPublish pl host s fingerprint) t r) :
    r.1 = .fail 3 ∧ Still v r.2 ∧ r.2.staged = false := by
  unfold buildAndPublish at hf
  split at hf
  · exact absurd hf (Prog.not_fault_done disks)
  · rename_i p hbuild
    have hid := (complete_of_pipeline hbuild).id_valid
    rcases Prog.fault_bind disks hf with ⟨x, hx, hr⟩ | hf
    · obtain ⟨hx1, hx2⟩ := Prog.fault_fast disks (fast_stage p) h (safe_stage host _ h) hx
      rw [hr, hx1]
      exact run_discarded (Attempt.fail 3) hx2
    · have hu := Prog.safe_run disks (safe_stage host p h)
      generalize Prog.run disks (stage host p) t = ran at hu hf
      obtain ⟨ok, u⟩ := ran
      apply fault_discard _ hf
      intro x hx
      cases ok with
      | false => exact absurd hx (Prog.not_fault_done disks)
      | true => exact fault_publishSection hu hc hid hx

theorem safe_buildAndPublish {s : Snapshot} {fingerprint : Bytes} (h : Still v t)
    (hstaged : t.staged = false) (hc : v.current ≠ some .other) :
    Prog.Safe disks Anything (buildAndPublish pl host s fingerprint) t fun r u =>
      ∀ prior, r = .again prior → Still v u ∧ u.staged = false := by
  unfold buildAndPublish
  split
  · exact fun _ _ => ⟨h, hstaged⟩
  · rename_i p _
    apply Prog.safe_bind
    apply Prog.safe_mono disks (safe_stage host p h) (fun _ _ => trivial)
    intro ok u hu
    have hsection : Prog.Safe disks Anything
        (if ok then publishSection pl host s fingerprint p else .done (.fail 3)) u (Repeats v) := by
      split
      · exact safe_publishSection hu hc
      · intro prior heq
        cases heq
    apply Prog.safe_bind
    apply Prog.safe_mono disks hsection (fun _ h => h)
    intro r w hw
    apply Prog.safe_bind
    apply safe_of_run
    intro prior heq
    exact run_discardStage (hw prior heq)

theorem fault_attempt {previous : Option Generation} {prior : List Dependency} {r : Attempt × Disk}
    (h : Still v t) (hc : v.current ≠ some .other)
    (hf : Prog.Fault disks InTransaction (attempt pl host previous prior) t r) :
    r.1 = .fail 3 ∧ Still v r.2 ∧ r.2.staged = false := by
  have hf := Prog.fault_look disks hf
  split at hf
  · exact absurd hf (Prog.not_fault_done disks)
  · split at hf
    · have hf := Prog.fault_look disks hf
      split at hf
      · exact absurd hf (Prog.not_fault_done disks)
      · exact fault_buildAndPublish h hc hf
    · exact fault_buildAndPublish h hc hf

theorem safe_attempt (pl : Pipeline) (host : Host) (previous : Option Generation)
    (prior : List Dependency) (h : Still v t)
    (hstaged : t.staged = false) (hc : v.current ≠ some .other) :
    Prog.Safe disks Anything (attempt pl host previous prior) t fun r u =>
      ∀ prior, r = .again prior → Still v u ∧ u.staged = false := by
  apply Prog.safe_look
  split
  · exact fun _ _ => ⟨h, hstaged⟩
  · split
    · apply Prog.safe_look
      split
      · exact fun _ _ => ⟨h, hstaged⟩
      · exact safe_buildAndPublish h hstaged hc
    · exact safe_buildAndPublish h hstaged hc

theorem fault_attempts {previous : Option Generation} {n : ℕ} {prior : List Dependency}
    {r : Except ℕ Bytes × Disk} (h : Still v t) (hstaged : t.staged = false)
    (hc : v.current ≠ some .other)
    (hf : Prog.Fault disks InTransaction (attempts pl host previous n prior) t r) :
    r.1 = .error 3 ∧ Still v r.2 ∧ r.2.staged = false := by
  induction n generalizing t prior with
  | zero => exact absurd hf (Prog.not_fault_done disks)
  | succ n ih =>
    rcases Prog.fault_bind disks hf with ⟨x, hx, hr⟩ | hf
    · obtain ⟨hx1, hx2⟩ := fault_attempt h hc hx
      rw [hr, hx1]
      exact ⟨rfl, hx2⟩
    · have hran := Prog.safe_run disks (safe_attempt pl host previous prior h hstaged hc)
      generalize Prog.run disks (attempt pl host previous prior) t = ran at hran hf
      obtain ⟨outcome, u⟩ := ran
      cases outcome with
      | stop outcome => exact absurd hf (Prog.not_fault_done disks)
      | again prior' =>
        obtain ⟨hu, hstagedu⟩ := hran prior' rfl
        exact ih hu hstagedu hf

/-! ### The commands -/

theorem openPrevious_eq_ok {d : Disk} {previous : Option Generation} {prior : List Dependency}
    (h : (Prog.run disks (openPrevious host) d).1 = .ok (previous, prior)) :
    (Prog.run disks (recover host) d).1 = 0 ∧
      (Prog.run disks (openPrevious host) d).2 = (Prog.run disks (recover host) d).2 ∧
      ∃ old, selector (Prog.run disks (recover host) d).2 = .ok old := by
  unfold openPrevious at h ⊢
  rw [Prog.run_bind] at h ⊢
  generalize Prog.run disks (recover host) d = ran at h ⊢
  obtain ⟨rc, u⟩ := ran
  by_cases hrc : rc = 0
  · rw [if_neg (by simpa using hrc)] at h ⊢
    simp only [Prog.run] at h ⊢
    cases hsel : selector u with
    | error e =>
      rw [hsel] at h
      cases h
    | ok old =>
      refine ⟨hrc, ?_, old, rfl⟩
      simp only
      split
      · rfl
      · split
        · rfl
        · split <;> rfl
  · rw [if_pos hrc] at h
    cases h

theorem still_recovered {d : Disk} (hstaged : d.staged = false)
    (hrc : (Prog.run disks (recover host) d).1 = 0) :
    Still (view (Prog.run disks (recover host) d).2) (Prog.run disks (recover host) d).2 ∧
      (Prog.run disks (recover host) d).2.staged = false := by
  have hsame := sameStage_run d (calls_recover host fun _ ho => ho)
  have hnone : (Prog.run disks (recover host) d).2.staged = false := hsame.staged.trans hstaged
  refine ⟨⟨recover_settles hrc, rfl, ?_⟩, hnone⟩
  intro hs
  rw [hnone] at hs
  cases hs

theorem fault_compile {d : Disk} {r : Except ℕ Bytes × Disk} (hstaged : d.staged = false)
    (hf : Prog.Fault disks InTransaction (compile pl host) d r) :
    r.1 = .error 3 ∧ Still (view (Prog.run disks (recover host) d).2) r.2 ∧ r.2.staged = false := by
  have hquiet : Prog.Calls (fun c => ¬ InTransaction c) (openPrevious host) := by
    apply Prog.calls_bind (calls_recover _ recover_no_site)
    intro rc
    split
    · trivial
    · apply Prog.calls_look
      intro d
      split
      · trivial
      · split
        · trivial
        · split
          · trivial
          · split <;> trivial
  rcases Prog.fault_bind disks hf with ⟨x, hx, _⟩ | hf
  · exact absurd hx (Prog.not_fault_of_calls disks hquiet)
  · have hopen := @openPrevious_eq_ok host d
    generalize Prog.run disks (openPrevious host) d = ran at hopen hf
    obtain ⟨opened, u⟩ := ran
    cases opened with
    | error rc => exact absurd hf (Prog.not_fault_done disks)
    | ok opened =>
      obtain ⟨previous, prior⟩ := opened
      obtain ⟨hrc, hu, old, hsel⟩ := hopen rfl
      obtain ⟨hstill, hnone⟩ := still_recovered hstaged hrc
      subst hu
      exact fault_attempts hstill hnone (selector_not_other hsel) hf

/-! ### Imports -/

theorem readOriginals_ok {d : Disk} {reads : Fin 4 → Bytes × Mode}
    (h : readOriginals host d = .ok reads) (i : Fin 4) :
    (match d.files (.input i) with
      | none => (.ok ([], privateMode) : Except ℕ (Bytes × Mode))
      | some n => loadMode host (some n) inputMax false) = .ok (reads i) := by
  obtain ⟨r₀, h₀, h⟩ := bind_eq_ok_iff.mp h
  obtain ⟨r₁, h₁, h⟩ := bind_eq_ok_iff.mp h
  obtain ⟨r₂, h₂, h⟩ := bind_eq_ok_iff.mp h
  obtain ⟨r₃, h₃, h⟩ := bind_eq_ok_iff.mp h
  cases h
  fin_cases i
  · exact h₀
  · exact h₁
  · exact h₂
  · exact h₃

/-- What an import knows when it has planned. -/
theorem planImport_ok {d : Disk} {plan : Plan} (h : planImport pl host d = .ok plan) :
    Complete plan.products ∧ selector d = .ok plan.old ∧ Reads host d plan.change := by
  obtain ⟨before, _, h⟩ := bind_eq_ok_iff.mp h
  obtain ⟨current, _, h⟩ := bind_eq_ok_iff.mp h
  obtain ⟨imported, _, h⟩ := bind_eq_ok_iff.mp h
  obtain ⟨reads, hreads, h⟩ := bind_eq_ok_iff.mp h
  obtain ⟨output, _, h⟩ := bind_eq_ok_iff.mp h
  obtain ⟨after, _, h⟩ := bind_eq_ok_iff.mp h
  obtain ⟨products, hproducts, h⟩ := bind_eq_ok_iff.mp h
  obtain ⟨fingerprint, _, h⟩ := bind_eq_ok_iff.mp h
  obtain ⟨recheck, _, h⟩ := bind_eq_ok_iff.mp h
  obtain ⟨found, _, h⟩ := bind_eq_ok_iff.mp h
  split at h
  · cases h
  · obtain ⟨old, hold, h⟩ := bind_eq_ok_iff.mp h
    cases h
    refine ⟨complete_of_pipeline hproducts, hold, ?_⟩
    have hread := readOriginals_ok hreads
    refine ⟨fun _ => rfl, ?_, ?_⟩
    · intro i hi
      have hi' := hread i
      have hsome : (d.files (.input i)).isSome = true := hi
      obtain ⟨n, hn⟩ := Option.isSome_iff_exists.mp hsome
      rw [hn] at hi' ⊢
      exact hi'
    · intro i hi
      have hi' := hread i
      have hnone : d.files (.input i) = none := by simpa [existsAt] using hi
      rw [hnone] at hi'
      have hreads' : reads i = ([], privateMode) := (Except.ok.inj hi').symm
      exact ⟨congrArg Prod.fst hreads', congrArg Prod.snd hreads'⟩

theorem loadMode_plain (n : Option Node) (limit : ℕ) :
    loadMode host (n.map Node.plain) limit false = loadMode host n limit false := by
  cases n with
  | none => rfl
  | some n =>
    cases n with
    | file data mode links => simp [loadMode, Node.plain]
    | link target => rfl
    | other => rfl

/-- What was read holds of every disk with the same view. -/
theorem Reads.congr {d u : Disk} {c : Change} (h : Reads host d c) (hv : view u = view d) :
    Reads host u c := by
  have hshown : ∀ i, shown u (.input i) = shown d (.input i) := fun i => congrFun (congrArg View.inputs hv) i
  have hload : ∀ i limit, loadMode host (u.files (.input i)) limit false =
      loadMode host (d.files (.input i)) limit false := by
    intro i limit
    have hi := hshown i
    rw [shown, shown] at hi
    rw [← loadMode_plain (u.files (.input i)), hi, loadMode_plain]
  have hexists : ∀ i, existsAt u (.input i) = existsAt d (.input i) := by
    intro i
    have hi := congrArg Option.isSome (hshown i)
    rw [shown, shown, Option.isSome_map, Option.isSome_map] at hi
    exact hi
  refine ⟨?_, ?_, h.absent⟩
  · intro i
    rw [hexists, h.present]
  · intro i hi
    rw [hload]
    exact h.original i hi

theorem fault_importSection {plan : Plan} {r : ℕ × Disk} (h : Still v t)
    (hsel : selector t = .ok plan.old) (hid : validId plan.products.id = true)
    (hreads : Reads host t plan.change)
    (hf : Prog.Fault disks InTransaction (importSection pl host plan) t r) :
    r.1 = 3 ∧ Still v r.2 := by
  rcases Prog.fault_bind disks hf with ⟨x, hx, hr⟩ | hf
  · obtain ⟨hx1, hx2⟩ := fault_install h hx
    rw [hr, hx1]
    exact ⟨rfl, hx2⟩
  · have hu := run_install host false plan.products h
    have hview := hu.shows.trans h.shows.symm
    have hselu := selector_congr hview
    rw [hsel] at hselu
    split at hf
    · exact absurd hf (Prog.not_fault_done disks)
    · have hf := Prog.fault_look disks hf
      split at hf
      · exact absurd hf (Prog.not_fault_done disks)
      · split at hf
        · apply fault_transact_still hu hselu hid _ hf
          intro c hc
          cases hc
          exact hreads.congr hview
        · exact fault_publishIfNeeded hu hselu hid hf

theorem fault_compileImport {d : Disk} {r : Except ℕ Bytes × Disk} (hstaged : d.staged = false)
    (hf : Prog.Fault disks InTransaction (compileImport pl host) d r) :
    r.1 = .error 3 ∧ Still (view (Prog.run disks (recover host) d).2) r.2 ∧ r.2.staged = false := by
  rcases Prog.fault_bind disks hf with ⟨x, hx, _⟩ | hf
  · exact absurd hx (Prog.not_fault_of_calls disks (calls_recover _ recover_no_site))
  · have hrecovered := @still_recovered host d hstaged
    generalize Prog.run disks (recover host) d = ran at hrecovered hf
    obtain ⟨rc, t⟩ := ran
    split at hf
    · exact absurd hf (Prog.not_fault_done disks)
    · rename_i hrc
      obtain ⟨h, hnone⟩ := hrecovered (by simpa using hrc)
      have hf := Prog.fault_look disks hf
      split at hf
      · exact absurd hf (Prog.not_fault_done disks)
      · rename_i plan hplan
        obtain ⟨hcomplete, hsel, hreads⟩ := planImport_ok hplan
        rcases Prog.fault_bind disks hf with ⟨x, hx, hr⟩ | hf
        · obtain ⟨hx1, hx2⟩ := Prog.fault_fast disks (fast_stage plan.products) h (safe_stage host _ h) hx
          rw [hr, hx1]
          exact run_discarded (Except.error 3 : Except ℕ Bytes) hx2
        · have hu := Prog.safe_run disks (safe_stage host plan.products h)
          generalize Prog.run disks (stage host plan.products) t = ran at hu hf
          obtain ⟨ok, u⟩ := ran
          have hselu := selector_congr hu.shows
          rcases Prog.fault_bind disks hf with ⟨x, hx, hr⟩ | hf
          · have hx' : x.1 = 3 ∧ Still (view t) x.2 := by
              cases ok with
              | false => exact absurd hx (Prog.not_fault_done disks)
              | true =>
                exact fault_importSection hu (hselu.trans hsel) hcomplete.id_valid (hreads.congr hu.shows) hx
            rw [hr, hx'.1]
            exact run_discarded (Except.error 3 : Except ℕ Bytes) hx'.2
          · exact absurd hf (Prog.not_fault_of_calls disks
              (Prog.calls_bind calls_discardStage fun _ => trivial))

end Commands


/-! ### An interrupted root -/

/-- A call of the transaction can fail. -/
def Faulty {α : Type} (q : Routine α) (d : Disk) : Prop := ∃ r, Prog.Fault disks InTransaction q d r

theorem faulty_look {α : Type} {k : Disk → Routine α} {d : Disk} (h : Faulty (k d) d) :
    Faulty (.look k) d := by
  obtain ⟨r, hr⟩ := h
  exact ⟨r, .look hr⟩

theorem faulty_left {α β : Type} {q : Routine α} {f : α → Routine β} {d : Disk} (h : Faulty q d) :
    Faulty (Prog.bind q f) d := by
  obtain ⟨r, hr⟩ := h
  exact ⟨_, Prog.fault_left disks f hr⟩

theorem faulty_right {α β : Type} {q : Routine α} {f : α → Routine β} {d : Disk}
    (h : Faulty (f (Prog.run disks q d).1) (Prog.run disks q d).2) : Faulty (Prog.bind q f) d := by
  obtain ⟨r, hr⟩ := h
  exact ⟨r, Prog.fault_right disks hr⟩

/-- A pipeline that always gathers the smallest inventory. -/
def samplePipeline : Pipeline where
  posix := samplePosix
  collect := fun _ _ => .ok ⟨sampleSources, sampleProfile, sampleDeps⟩
  overlay := fun _ _ => .ok ⟨sampleSources, sampleProfile, sampleDeps⟩
  imported := fun _ => .error 4
  merge := fun _ _ _ => .error 4

/-- The snapshot it gathers. -/
def sampleSnapshot : Snapshot := ⟨sampleSources, sampleProfile, sampleDeps⟩

theorem samplePipeline_build {p : Products}
    (h : productsBuild samplePolicy sampleProfile sampleDeps = .ok p) :
    samplePipeline.build sampleSnapshot = .ok p := by
  have hparse : policyParse samplePipeline.posix sampleSources = .ok samplePolicy := policyParse_sample
  rw [Pipeline.build, mapError_eq_ok_iff, bind_eq_ok_iff]
  exact ⟨samplePolicy, hparse, h⟩

theorem samplePipeline_collect {prior : List Dependency} {inputs : Fin 4 → Option Node} :
    samplePipeline.collect prior inputs = .ok sampleSnapshot := rfl

theorem snapshotSection_eq_ok {host : Host} (pl : Pipeline) {d : Disk} (prior : List Dependency)
    {s : Snapshot} {fingerprint : Bytes} (h : unfinished host d = false)
    (hs : pl.collect prior (inputsOf d) = .ok s)
    (hf : dependenciesFingerprint s.dependencies = .ok fingerprint) :
    snapshotSection pl host prior d = .ok (s, fingerprint) := by
  rw [snapshotSection, if_neg (by simp [h]), hs]
  simp only
  rw [hf]

/-- A root where a first publication was killed after it replaced the export. -/
def interruptedRoot (j : Journal) (p : Products) : Disk :=
  (((bareRoot p).set (.engine .journal) (savedFile (journalText j))).set .filtersSieve (savedFile p.sieve))

theorem interruptedRoot_recoverable (host : Host) (p : Products) (j : Journal) (hold : j.old = [])
    (hp : j.present = false) :
    Recoverable host false ⟨fun _ => none, none, none⟩ (interruptedRoot j p) := by
  refine .back ?_ (Or.inl ⟨rfl, fun i => rfl⟩) j ⟨rfl, rfl, ?_, ?_, ?_⟩
  · exact usable_set (usable_set (fun e => by simp [bareRoot]) (savedFile_ne_other _)) (savedFile_ne_other _)
  · rw [hold]
    rfl
  · exact savedFile_ne_other _
  · rw [if_neg (by simp [hp])]

/-- On a root without selector the first call of the staging can fail. -/
theorem exists_fault_compile {host : Host} {d : Disk} (h : (Prog.run disks (recover host) d).1 = 0)
    (hnone : (view (Prog.run disks (recover host) d).2).current = none) :
    Faulty (compile samplePipeline host) d := by
  have hsettled := recover_settles h
  have hopen : Prog.run disks (openPrevious host) d =
      (.ok (none, []), (Prog.run disks (recover host) d).2) := by
    have hcurrent : (Prog.run disks (recover host) d).2.files (.engine .current) = none := hnone
    have hsel : selector (Prog.run disks (recover host) d).2 = .ok [] := by rw [selector, hcurrent]
    rw [openPrevious, Prog.run_bind, if_neg (by simpa using h)]
    simp only [Prog.run, hsel, if_true]
  obtain ⟨p, hbuild⟩ := exists_eq_ok productsBuild_sample_isOk
  generalize (Prog.run disks (recover host) d).2 = t at hsettled hopen
  have hfinished : unfinished host t = false := by
    rw [unfinished, existsAt, existsAt, hsettled _ (by simp), hsettled _ (by simp)]
    rfl
  obtain ⟨fingerprint, hfingerprint⟩ : ∃ fingerprint,
      dependenciesFingerprint sampleSnapshot.dependencies = .ok fingerprint :=
    ⟨_, keyed_sampleDeps.fingerprint⟩
  have hsnapshot := snapshotSection_eq_ok samplePipeline [] hfinished samplePipeline_collect hfingerprint
  have hstage : Faulty (stage host p) t := by
    apply faulty_left
    have hsite : InTransaction ⟨.stage, .mkdtemp⟩ := by
      intro hregion
      cases hregion
    exact ⟨_, .here hsite (Or.inl rfl)⟩
  have hcold : Faulty (buildAndPublish samplePipeline host sampleSnapshot fingerprint) t := by
    rw [buildAndPublish, samplePipeline_build hbuild]
    exact faulty_left hstage
  have hattempt : Faulty (attempt samplePipeline host none []) t := by
    apply faulty_look
    rw [hsnapshot]
    dsimp only
    rw [if_neg (by simp)]
    exact hcold
  have hattempts : Faulty (attempts samplePipeline host none 3 []) t := by
    rw [attempts]
    exact faulty_left hattempt
  apply faulty_right
  rw [hopen]
  exact hattempts

/-- The journal of a first publication. -/
def firstJournal (p : Products) (h : validId p.id = true) : Journal :=
  ⟨[], false, privateMode, p.id, Or.inl rfl, h⟩

theorem exists_fault_interrupted (host : Host) {p : Products} (h : validId p.id = true) :
    ∃ r, Prog.Fault disks InTransaction (compile samplePipeline host)
      (interruptedRoot (firstJournal p h) p) r := by
  have hrun := (interruptedRoot_recoverable host p (firstJournal p h) rfl rfl).run
  apply exists_fault_compile hrun.1
  rw [hrun.2.2]

/-- A failing call of the transaction is reported, and everything is as the initial
recovery left it: as before, unless a transaction was pending that it rolled back. -/
theorem failed_call_leaves_view (pl : Pipeline) (host : Host) {d : Disk} {r : Except ℕ Bytes × Disk}
    (hstaged : d.staged = false)
    (hf : Prog.Fault disks InTransaction (compile pl host) d r ∨
      Prog.Fault disks InTransaction (compileImport pl host) d r) :
    r.1 = .error 3 ∧ view r.2 = view (Prog.run disks (recover host) d).2 ∧ Settled r.2 ∧
      r.2.staged = false ∧ (unfinished host d = false → view r.2 = view d) := by
  have hboth : r.1 = .error 3 ∧ Still (view (Prog.run disks (recover host) d).2) r.2 ∧
      r.2.staged = false := by
    rcases hf with hf | hf
    · exact fault_compile hstaged hf
    · exact fault_compileImport hstaged hf
  obtain ⟨hrc, hstill, hnone⟩ := hboth
  refine ⟨hrc, hstill.shows, hstill.settled, hnone, ?_⟩
  intro hfinished
  rw [hstill.shows, recover_shows hfinished]

theorem failed_call_leaves_view_sample : ∃ (d : Disk) (r : Except ℕ Bytes × Disk),
    Prog.Fault disks InTransaction (compile samplePipeline ownerHost) d r ∧ r.1 = .error 3 ∧
      Settled r.2 := by
  obtain ⟨p, hbuild⟩ := exists_eq_ok productsBuild_sample_isOk
  obtain ⟨r, hr⟩ := exists_fault_interrupted ownerHost (complete_of_build hbuild).id_valid
  have hfinal := failed_call_leaves_view samplePipeline ownerHost (d := interruptedRoot
    (firstJournal p (complete_of_build hbuild).id_valid) p) rfl (Or.inl hr)
  exact ⟨_, r, hr, hfinal.1, hfinal.2.2.1⟩

/-- The export of a publication that was killed before its marker is not what a failing
compile leaves: its recovery has put the old one back. -/
theorem failed_call_rolls_back : ∃ (d : Disk) (r : Except ℕ Bytes × Disk), d.staged = false ∧
    Prog.Fault disks InTransaction (compile samplePipeline ownerHost) d r ∧ view r.2 ≠ view d := by
  obtain ⟨p, hbuild⟩ := exists_eq_ok productsBuild_sample_isOk
  have hid := (complete_of_build hbuild).id_valid
  obtain ⟨r, hr⟩ := exists_fault_interrupted ownerHost hid
  refine ⟨interruptedRoot (firstJournal p hid) p, r, rfl, hr, ?_⟩
  obtain ⟨_, hstill, _⟩ := fault_compile rfl hr
  have hrun := (interruptedRoot_recoverable ownerHost p (firstJournal p hid) rfl rfl).run
  intro hsame
  have hexport := congrArg View.exported (hsame.symm.trans (hstill.shows.trans hrun.2.2))
  cases hexport

end JaroFilter
