import JaroFilter.Generation.Faults

/-!
# Repair of the public export (`generation.c:245-274`, `415-448`, `654-775`)

What a compile does where nothing but `Filters.sieve` has changed since the last
successful run. A publication leaves its committed journal, and until recovery
has accepted it the export it names has to be there.
-/

namespace JaroFilter

open Lib

/-! ### Paths a routine stays within -/

/-- Every path the call changes is in the set, and no directory moves. -/
def Op.within (s : Path → Bool) : Op → Bool
  | .create p => s p
  | .write p _ => s p
  | .fsync => true
  | .fchmod p _ => s p
  | .rename p q => s p && s q
  | .symlink _ p => s p
  | .unlink p => s p
  | .mkdtemp => false
  | .rmdir => true
  | .install _ => false

theorem within_exec {s : Path → Bool} {op : Op} (h : op.within s = true) {d t : Disk}
    (ht : AgreeOn (fun p => !s p) d t) : AgreeOn (fun p => !s p) d (op.exec t).2 := by
  cases op with
  | create p =>
    simp only [Op.exec]
    split
    · exact ht.set (by simpa [Op.within] using h)
    · exact ht
  | write p data =>
    simp only [Op.exec]
    split
    · exact ht.set (by simpa [Op.within] using h)
    · exact ht
  | fsync => exact ht
  | fchmod p mode =>
    simp only [Op.exec]
    split
    · exact ht.set (by simpa [Op.within] using h)
    · exact ht
  | rename p q =>
    simp only [Op.within, Bool.and_eq_true] at h
    simp only [Op.exec]
    split
    · exact ht
    · exact (ht.set (by simpa using h.2)).set (by simpa using h.1)
  | symlink target p =>
    simp only [Op.exec]
    split
    · exact ht.set (by simpa [Op.within] using h)
    · exact ht
  | unlink p =>
    simp only [Op.exec]
    split
    · exact ht
    · exact ht.set (by simpa [Op.within] using h)
  | mkdtemp => cases h
  | rmdir =>
    simp only [Op.exec]
    split
    · exact ⟨ht.files, ht.generations⟩
    · exact ht
  | install id => cases h

/-- Every call of the routine stays within the set. -/
def Within {α : Type} (s : Path → Bool) (q : Routine α) : Prop :=
  Prog.Calls (fun c => c.op.within s = true) q

theorem Within.run {α : Type} {s : Path → Bool} {q : Routine α} (h : Within s q) (d : Disk) :
    AgreeOn (fun p => !s p) d (Prog.run disks q d).2 :=
  Prog.run_keeps disks (J := AgreeOn (fun p => !s p) d) (fun _ _ hc ht => within_exec hc ht) h
    ⟨fun _ _ => rfl, rfl⟩

section Routines

variable {s : Path → Bool} {r : Region}

theorem within_step {op : Op} (h : op.within s = true) : Within s (step r op) := ⟨h, fun _ => trivial⟩

theorem within_save {p : Path} {data : Bytes} (h : s p = true) : Within s (save r p data) :=
  Prog.calls_both (within_step h) (Prog.calls_both (within_step h) (within_step rfl))

theorem within_setSelector {id : Bytes} {p : Path} (h : s p = true)
    (hc : s (.engine .current) = true) : Within s (setSelector r id p) := by
  unfold setSelector
  split
  · exact within_step hc
  · exact Prog.calls_both (within_step h) (Prog.calls_both (within_step h)
      (within_step (by simp [Op.within, h, hc])))

end Routines

/-! ### Routines of the staged directory -/

/-- A call on the staged directory or on a generation. -/
def Op.aside : Op → Bool
  | .create p => !notBuilding p
  | .write p _ => !notBuilding p
  | .fchmod _ _ => false
  | .rename _ _ => false
  | .symlink _ _ => false
  | .unlink p => !notBuilding p
  | _ => true

/-- The root is as it was, apart from the staged directory. -/
def Aside (d t : Disk) : Prop := ∀ q, notBuilding q = true → t.files q = d.files q

theorem aside_set {d t : Disk} (h : Aside d t) {p : Path} {n : Option Node}
    (hp : (!notBuilding p) = true) : Aside d (t.set p n) := by
  intro q hq
  rw [Disk.set_of_ne t n, h q hq]
  rintro rfl
  simp [hq] at hp

theorem aside_exec {op : Op} (hop : op.aside = true) {d t : Disk} (h : Aside d t) :
    Aside d (op.exec t).2 := by
  have hclear : Aside d ⟨clearStage t, true, t.generations⟩ := by
    intro q hq
    cases q with
    | building f => cases hq
    | input i => exact h _ rfl
    | filtersSieve => exact h _ rfl
    | engine e => exact h _ rfl
  cases op with
  | create p =>
    simp only [Op.exec]
    split
    · exact aside_set h hop
    · exact h
  | write p data =>
    simp only [Op.exec]
    split
    · exact aside_set h hop
    · exact h
  | fsync => exact h
  | fchmod p mode => cases hop
  | rename p q => cases hop
  | symlink target p => cases hop
  | unlink p =>
    simp only [Op.exec]
    split
    · exact h
    · exact aside_set h hop
  | mkdtemp => exact hclear
  | rmdir =>
    simp only [Op.exec]
    split
    · exact h
    · exact h
  | install id =>
    simp only [Op.exec]
    split
    · exact hclear
    · exact h

theorem run_aside {α : Type} {q : Routine α} (h : Prog.Calls (fun c => c.op.aside = true) q)
    (d : Disk) : Aside d (Prog.run disks q d).2 :=
  Prog.run_keeps disks (J := Aside d) (fun _ _ hc ht => aside_exec hc ht) h fun _ _ => rfl

theorem aside_stage (host : Host) (p : Products) (d : Disk) :
    Aside d (Prog.run disks (stage host p) d).2 := by
  have hsave : ∀ {f : Product} {data : Bytes},
      Prog.Calls (fun c => c.op.aside = true) (save .stage (.building f) data) :=
    Prog.calls_both (calls_step rfl) (Prog.calls_both (calls_step rfl) (calls_step rfl))
  have hvalid : Prog.Calls (fun c : Call => c.op.aside = true)
      (.look fun d => .done (validateDirectory host (stagedFiles d) p.id).isOk) := fun _ => trivial
  exact run_aside (Prog.calls_both (calls_step rfl) (Prog.calls_both hsave (Prog.calls_both hsave
    (Prog.calls_both hsave (Prog.calls_both hsave (Prog.calls_both (calls_step rfl) hvalid)))))) d

theorem aside_discardStage (d : Disk) : Aside d (Prog.run disks discardStage d).2 := by
  have hremove : ∀ {f : Product},
      Prog.Calls (fun c => c.op.aside = true) (removeFile .recover (.building f)) := calls_step rfl
  refine run_aside (Prog.calls_look fun d => ?_) d
  split
  · exact Prog.calls_bind hremove fun _ => Prog.calls_bind hremove fun _ => Prog.calls_bind hremove
      fun _ => Prog.calls_bind hremove fun _ => Prog.calls_bind (calls_step rfl) fun _ => trivial
  · trivial

theorem aside_install (host : Host) (whole : Bool) (p : Products) (d : Disk) :
    Aside d (Prog.run disks (install host whole p) d).2 := by
  refine run_aside (Prog.calls_look fun d => ?_) d
  split
  · exact Prog.calls_bind (Prog.calls_both (calls_step rfl) (calls_step rfl)) fun _ => trivial
  · split
    · trivial
    · split
      · exact Prog.calls_bind (calls_step rfl) fun _ => trivial
      · trivial

theorem within_discardStage : Within (fun q => !notBuilding q) discardStage := by
  have hremove : ∀ {f : Product}, Within (fun q => !notBuilding q) (removeFile .recover (.building f)) :=
    within_step rfl
  refine Prog.calls_look fun d => ?_
  split
  · exact Prog.calls_bind hremove fun _ => Prog.calls_bind hremove fun _ => Prog.calls_bind hremove
      fun _ => Prog.calls_bind hremove fun _ => Prog.calls_bind (within_step rfl) fun _ => trivial
  · trivial

theorem Aside.settled {d t : Disk} (h : Aside d t) (hs : Settled d) : Settled t := by
  intro e he
  rw [h _ rfl, hs e he]

theorem Aside.view {d t : Disk} (h : Aside d t) : view t = view d := by
  simp only [JaroFilter.view, shown, h (.input _) rfl, h .filtersSieve rfl,
    h (.engine .current) rfl]

theorem Aside.selector {d t : Disk} (h : Aside d t) : selector t = selector d := by
  rw [JaroFilter.selector, JaroFilter.selector, h _ rfl]

/-! ### Recovery of a settled root -/

theorem run_removeFile_none {r : Region} {p : Path} {d : Disk} (h : d.files p = none) :
    Prog.run disks (removeFile r p) d = (true, d) := by
  show (Op.unlink p).exec d = (true, d)
  rw [Op.exec, if_neg (by simp [h]), Disk.set_same d h]

theorem run_both_true {p q : Routine Bool} {d t : Disk} (h : Prog.run disks p d = (true, t)) :
    Prog.run disks (Prog.both p q) d = Prog.run disks q t := by
  rw [Prog.both, Prog.run_bind, h]
  rfl

theorem run_each_same {ι : Type} {f : ι → Routine Bool} {d : Disk} {is : List ι}
    (h : ∀ i ∈ is, Prog.run disks (f i) d = (true, d)) :
    Prog.run disks (Prog.each is f) d = (true, d) := by
  induction is with
  | nil => rfl
  | cons i is ih =>
    rw [Prog.each, run_both_true (h i (by simp))]
    exact ih fun j hj => h j (by simp [hj])

theorem run_fsync {r : Region} {d : Disk} : Prog.run disks (step r .fsync) d = (true, d) := rfl

/-- Recovery of a settled root changes nothing at all. -/
theorem run_recover_settled {host : Host} {d : Disk} (h : Settled d) :
    Prog.run disks (recover host) d = (0, d) := by
  have hgone : ∀ {e : EngineName}, e ≠ .current → existsAt d (.engine e) = false := by
    intro e he
    rw [existsAt, h e he]
    rfl
  have hremove : ∀ {e : EngineName}, e ≠ .current →
      Prog.run disks (removeFile .recover (.engine e)) d = (true, d) :=
    fun he => run_removeFile_none (h _ he)
  have hjournal : Prog.run disks (recoverJournal host false) d = (true, d) := by
    rw [recoverJournal, Prog.run, if_neg (by simp [hgone])]
    rfl
  have hinputs : Prog.run disks (recoverInputs host false) d = (true, d) := by
    rw [recoverInputs, run_both_true hjournal, run_both_true (run_each_same fun i _ =>
      run_each_same fun s _ => hremove (by simp)), run_both_true (hremove (by simp)), run_fsync]
  have hcleanup : Prog.run disks cleanupTransaction d = (true, d) := by
    rw [cleanupTransaction, run_both_true (hremove (by simp)), run_both_true run_fsync,
      run_both_true (run_each_same fun e he => hremove ?_), run_fsync]
    rintro rfl
    simp at he
  rw [recover, Prog.run, if_neg (by simp [hgone]), finishRecovery, status, Prog.run_bind,
    run_both_true hinputs, hcleanup]
  rfl

/-! ### Recovery behind a committed publication -/

/-- A publication that ended well, before anything has cleaned up behind it. -/
structure Pending (d : Disk) (id : Bytes) : Prop where
  usable : Usable d
  journal : ∃ j, d.files (.engine .journal) = savedFile (journalText j) ∧ j.next = id
  committed : d.files (.engine .committed) = savedFile id
  current : d.files (.engine .current) = some (.link (selectorTarget id))
  inputs : d.files (.engine .importJournal) = none ∨
    ∃ lines, d.files (.engine .importJournal) = savedFile (importText lines)

/-- The names a committed recovery removes. -/
def transactionPath : Path → Bool
  | .engine .current => false
  | .engine _ => true
  | _ => false

theorem within_finishRecovery (host : Host) : Within transactionPath (finishRecovery host true) := by
  have hremove : ∀ {e : EngineName}, e ≠ .current →
      Within transactionPath (removeFile .recover (.engine e)) := by
    intro e he
    exact within_step (by cases e <;> first | exact absurd rfl he | rfl)
  have hsync : Within transactionPath (step .recover .fsync) := within_step rfl
  have hjournal : Within transactionPath (recoverJournal host true) := by
    apply Prog.calls_look
    intro d
    split
    · split
      · exact Prog.calls_both trivial (Prog.calls_both hsync (Prog.calls_both hsync
          (Prog.calls_both (hremove (by simp)) hsync)))
      · trivial
    · trivial
  have hinputs : Within transactionPath (recoverInputs host true) :=
    Prog.calls_both hjournal (Prog.calls_both (Prog.calls_each fun i _ => Prog.calls_each fun s _ =>
      hremove (by simp)) (Prog.calls_both (hremove (by simp)) hsync))
  have hcleanup : Within transactionPath cleanupTransaction := by
    refine Prog.calls_both (hremove (by simp)) (Prog.calls_both hsync
      (Prog.calls_both (Prog.calls_each fun e he => hremove ?_) hsync))
    rintro rfl
    simp at he
  exact Prog.calls_bind (Prog.calls_both hinputs hcleanup) fun _ => trivial

section Pending

variable {host : Host} {d : Disk} {id : Bytes} {g : Generation}

theorem Pending.aside {t : Disk} (h : Pending d id) (ht : Aside d t) : Pending t id := by
  refine ⟨fun e => ?_, ?_, ?_, ?_, ?_⟩
  · rw [ht _ rfl]
    exact h.usable e
  · rw [ht _ rfl]
    exact h.journal
  · rw [ht _ rfl]
    exact h.committed
  · rw [ht _ rfl]
    exact h.current
  · rw [ht _ rfl]
    exact h.inputs

theorem Pending.opens_id (h : Pending d id) : validId id = true := by
  obtain ⟨j, _, rfl⟩ := h.journal
  exact j.next_valid

theorem Pending.selector (h : Pending d id) : selector d = .ok id :=
  selector_target h.opens_id h.current

theorem Pending.marker (h : Pending d id) : markerOf host d id = true := by
  have hlen := validId_length h.opens_id
  rw [markerOf, h.committed, load_savedFile host (by rw [hlen])]
  simp [hlen]

theorem Pending.committed_eq (h : Pending d id) : committedJournal host d = some id := by
  obtain ⟨j, hj, rfl⟩ := h.journal
  rw [committedJournal, readJournal_saved hj, h.selector]
  simp only [h.marker, and_self, if_true]

/-- Readers of a committed publication ask for the export it made. -/
theorem Pending.pinned (h : Pending d id) (hopens : openGeneration host d id = .ok g) :
    pinLocked host d none =
      if publicStatus host d g.sieve = 0 then .ok g else .error (publicStatus host d g.sieve) := by
  obtain ⟨j, hj, hnext⟩ := h.journal
  have hexists : existsAt d (.engine .journal) = true := by
    rw [existsAt, hj]
    rfl
  have hunfinished : unfinished host d = false := by
    rw [unfinished, h.committed_eq]
    simp
  have hpin : pinId d none = .ok id := by
    simp only [pinId, h.selector, validId_ne_nil h.opens_id, if_false]
  simp only [pinLocked, hunfinished, Bool.false_eq_true, if_false, hpin, hopens, hexists,
    h.committed_eq, bind, Except.bind, if_true]

/-- Recovery of a committed publication is its cleanup, or the refusal of its readers. -/
theorem Pending.run_recover (h : Pending d id) (hopens : openGeneration host d id = .ok g) :
    Prog.run disks (recover host) d =
      if publicStatus host d g.sieve = 0 then Prog.run disks (finishRecovery host true) d
      else (publicStatus host d g.sieve, d) := by
  obtain ⟨j, hj, hnext⟩ := h.journal
  have hexists : ∀ {e : EngineName} {data : Bytes}, d.files (.engine e) = savedFile data →
      existsAt d (.engine e) = true := by
    intro e data he
    rw [existsAt, he]
    rfl
  have hpin := h.pinned hopens
  rw [recover, Prog.run, if_pos (hexists hj), readJournal_saved hj]
  dsimp only
  rw [if_pos (hexists h.committed), hnext, if_pos h.marker, hpin]
  by_cases hpublic : publicStatus host d g.sieve = 0
  · simp only [hpublic, if_true]
  · simp only [hpublic, if_false]
    rfl

theorem publicStatus_eq_zero {sieve : Bytes} :
    publicStatus host d sieve = 0 ↔
      (∃ special, d.files .filtersSieve = ownFile special sieve) ∧ sieve.length ≤ cacheMax := by
  unfold publicStatus
  constructor
  · intro h
    split at h
    · next data hload =>
      split at h
      · next heq =>
        subst heq
        obtain ⟨⟨data', mode⟩, hmode, rfl⟩ := map_eq_ok_iff.mp hload
        obtain ⟨special, links, hnode, hlen⟩ := loadMode_eq_ok hmode
        rw [hnode] at hmode ⊢
        simp only [loadMode] at hmode
        split at hmode
        · cases hmode
        · split at hmode
          · cases hmode
          · next hprivate =>
            simp only [true_and, not_or, not_not] at hprivate
            rw [hprivate.1, hprivate.2]
            exact ⟨⟨special, rfl⟩, hlen⟩
      · cases h
    · next rc hload =>
      exact absurd h (load_raises _ _ _ hload)
  · rintro ⟨⟨special, hnode⟩, hlen⟩
    rw [hnode, load_ownFile host special hlen]
    simp

/-- A committed publication whose export is there is cleaned up behind. -/
theorem Pending.recovered (h : Pending d id) (hopens : openGeneration host d id = .ok g)
    (hpublic : publicStatus host d g.sieve = 0) :
    (Prog.run disks (recover host) d).1 = 0 ∧ Settled (Prog.run disks (recover host) d).2 ∧
      AgreeOn (fun p => !transactionPath p) d (Prog.run disks (recover host) d).2 := by
  obtain ⟨hexported, hsize⟩ := publicStatus_eq_zero.mp hpublic
  obtain ⟨j, hj, rfl⟩ := h.journal
  have hon : RollsOn host (view d) d j g :=
    ⟨hj, h.committed, h.current, hopens, hexported, hsize, rfl, rfl⟩
  have hrecoverable : Recoverable host true (view d) d :=
    .on h.usable ⟨h.inputs, fun _ => rfl⟩ j g hon rfl
  obtain ⟨hrc, hsettled, _⟩ := hrecoverable.run
  refine ⟨hrc, hsettled, ?_⟩
  rw [h.run_recover hopens, if_pos hpublic]
  exact (within_finishRecovery host).run d

end Pending

/-! ### A compile of what is selected -/

/-- The inventories a compile of what is selected collects with: that of the selected
generation, and those it then takes itself. -/
inductive Prior (pl : Pipeline) (inputs : Fin 4 → Option Node) (p : Products) : List Dependency → Prop
  | stored {deps : List Dependency} : cacheDependencies p.cache = .ok deps → Prior pl inputs p deps
  | taken {prior : List Dependency} {s : Snapshot} : Prior pl inputs p prior →
      pl.collect prior inputs = .ok s → Prior pl inputs p s.dependencies

/-- The selected generation is the one the inputs give. -/
structure Current (pl : Pipeline) (host : Host) (d : Disk) (p : Products) : Prop where
  selected : selector d = .ok p.id
  opens : openGeneration host d p.id = .ok p.generation
  built : ∃ s, pl.build s = .ok p
  inputs : ∀ prior, Prior pl (inputsOf d) p prior →
    ∃ s, pl.collect prior (inputsOf d) = .ok s ∧ pl.build s = .ok p

section Repair

variable {pl : Pipeline} {host : Host} {d : Disk} {p : Products}

theorem build_fingerprint {s : Snapshot} (h : pl.build s = .ok p) :
    ∃ fingerprint, dependenciesFingerprint s.dependencies = .ok fingerprint ∧
      digestHex fingerprint = p.id := by
  obtain ⟨policy, _, hproducts⟩ := bind_eq_ok_iff.mp (mapError_eq_ok_iff.mp h)
  obtain ⟨names, inventory, hparts⟩ := productsBuild_parts hproducts
  have hcomplete := complete_of_build hproducts
  have hcache := cacheParts_cacheBytes (digest_length inventory) (littleEndian 4
    (1 + s.dependencies.length + policy.rules.length) ++ encodeRecords (cacheRecords s.profile p.zsh
      p.sieve (qsort depCompare s.dependencies) (policy.rules.zip names)))
  refine ⟨digest inventory, ?_, ?_⟩
  · rw [dependenciesFingerprint, if_neg (Nat.not_lt.mpr hparts.dependencies),
      fingerprintLoop_ok hparts.listed]
    rfl
  · rw [hcomplete.id, hparts.cache, hcache.fingerprint]

theorem Current.snapshot (h : Current pl host d p) {prior : List Dependency}
    (hprior : Prior pl (inputsOf d) p prior) :
    ∃ s fingerprint, pl.collect prior (inputsOf d) = .ok s ∧
      dependenciesFingerprint s.dependencies = .ok fingerprint ∧ digestHex fingerprint = p.id ∧
      pl.build s = .ok p := by
  obtain ⟨s, hs, hbuild⟩ := h.inputs prior hprior
  obtain ⟨fingerprint, hf, hid⟩ := build_fingerprint hbuild
  exact ⟨s, fingerprint, hs, hf, hid, hbuild⟩

theorem Current.complete (h : Current pl host d p) : Complete p := by
  obtain ⟨s, hbuild⟩ := h.built
  exact complete_of_pipeline hbuild

theorem Current.dependencies (h : Current pl host d p) :
    ∃ deps, cacheDependencies p.cache = .ok deps := by
  obtain ⟨s, hbuild⟩ := h.built
  obtain ⟨policy, _, hproducts⟩ := bind_eq_ok_iff.mp (mapError_eq_ok_iff.mp hbuild)
  obtain ⟨names, inventory, hparts⟩ := productsBuild_parts hproducts
  exact ⟨_, cacheDependencies_built hparts⟩

/-- Only the names a command does not read in the root have changed. -/
theorem Current.congr (h : Current pl host d p) {t : Disk}
    (hinputs : ∀ i, t.files (.input i) = d.files (.input i))
    (hcurrent : t.files (.engine .current) = d.files (.engine .current))
    (hgen : t.generations = d.generations) : Current pl host t p := by
  have heq : inputsOf t = inputsOf d := funext hinputs
  refine ⟨?_, ?_, h.built, ?_⟩
  · rw [selector, hcurrent]
    exact h.selected
  · rw [openGeneration_congr host hgen]
    exact h.opens
  · rw [heq]
    exact h.inputs

theorem settled_finished (hs : Settled d) : unfinished host d = false := by
  rw [unfinished, existsAt, existsAt, hs _ (by simp), hs _ (by simp)]
  rfl

theorem Current.pinned (h : Current pl host d p) (hs : Settled d) :
    pinLocked host d none = .ok p.generation := by
  have hexists : existsAt d (.engine .journal) = false := by
    rw [existsAt, hs _ (by simp)]
    rfl
  have hpin : pinId d none = .ok p.id := by
    simp only [pinId, h.selected, validId_ne_nil h.complete.id_valid, if_false]
  simp only [pinLocked, settled_finished hs, Bool.false_eq_true, if_false, hpin, h.opens, hexists,
    bind, Except.bind]

theorem run_openPrevious {u : Disk} (hrecover : Prog.run disks (recover host) u = (0, d))
    (hs : Settled d) (h : Current pl host d p) :
    ∃ deps, Prior pl (inputsOf d) p deps ∧
      Prog.run disks (openPrevious host) u = (.ok (some p.generation, deps), d) := by
  obtain ⟨deps, hdeps⟩ := h.dependencies
  refine ⟨deps, .stored hdeps, ?_⟩
  have hcache : cacheDependencies p.generation.cache = .ok deps := hdeps
  rw [openPrevious, Prog.run_bind, hrecover]
  simp only [ne_eq, not_true_eq_false, if_false, Prog.run, h.selected,
    validId_ne_nil h.complete.id_valid, h.pinned hs, hcache]

theorem digestHex_injective {s t : Bytes} (h : digestHex s = digestHex t) : s = t := by
  rw [← unhex_digestHex s, h, unhex_digestHex]

/-- The shared section of a compile of what is selected is decided by the export. -/
theorem run_attempt (hs : Settled d) (h : Current pl host d p) {prior : List Dependency}
    (hprior : Prior pl (inputsOf d) p prior) :
    ∃ s fingerprint, Prior pl (inputsOf d) p s.dependencies ∧ pl.build s = .ok p ∧
      digestHex fingerprint = p.id ∧
      Prog.run disks (attempt pl host (some p.generation) prior) d =
        if publicStatus host d p.sieve = 0 then (.stop (.ok p.id), d)
        else if publicStatus host d p.sieve = 5 then
          Prog.run disks (buildAndPublish pl host s fingerprint) d
        else (.fail (publicStatus host d p.sieve), d) := by
  obtain ⟨s, fingerprint, hs1, hf1, hid1, hbuild⟩ := h.snapshot hprior
  obtain ⟨s2, fingerprint2, hs2, hf2, hid2, _⟩ := h.snapshot (.taken hprior hs1)
  obtain rfl : fingerprint2 = fingerprint := digestHex_injective (hid2.trans hid1.symm)
  refine ⟨s, _, .taken hprior hs1, hbuild, hid1, ?_⟩
  have hsection := snapshotSection_eq_ok pl prior (@settled_finished host d hs) hs1 hf1
  have hwarm : warm pl host s fingerprint2 d =
      if publicStatus host d p.sieve = 0 then some (.stop (.ok p.id))
      else if publicStatus host d p.sieve = 5 then none
      else some (.fail (publicStatus host d p.sieve)) := by
    rw [warm, hs2]
    dsimp only
    rw [hf2]
    dsimp only
    rw [if_neg (by simp), h.pinned hs]
    dsimp only [Products.generation]
    rw [if_neg (by rw [hid1]; simp)]
  rw [attempt, Prog.run, hsection]
  dsimp only
  have hany : (some p.generation).any (fun g => g.id == digestHex fingerprint2) = true := by
    simp [Products.generation, hid1]
  rw [if_pos hany, Prog.run, hwarm]
  by_cases h0 : publicStatus host d p.sieve = 0
  · simp only [h0, if_true]
    rfl
  · by_cases h5 : publicStatus host d p.sieve = 5
    · rw [if_neg h0, if_pos h5, if_neg h0, if_pos h5]
    · simp only [h0, h5, if_false]
      rfl

/-- What the first attempt decides is what the compile returns. -/
theorem run_compile {u : Disk} (hrecover : Prog.run disks (recover host) u = (0, d)) (hs : Settled d)
    (h : Current pl host d p) :
    ∃ deps, Prior pl (inputsOf d) p deps ∧ ∀ t outcome,
      Prog.run disks (attempt pl host (some p.generation) deps) d = (.stop outcome, t) →
        Prog.run disks (compile pl host) u = (outcome, t) := by
  obtain ⟨deps, hprior, hopen⟩ := run_openPrevious hrecover hs h
  refine ⟨deps, hprior, fun t outcome hattempt => ?_⟩
  rw [compile, Prog.run_bind, hopen]
  dsimp only
  rw [attempts, Prog.run_bind, hattempt]
  rfl

/-! ### Staging a build -/

theorem run_save {r : Region} {q : Path} {data : Bytes} (hq : d.files q = none) :
    Prog.run disks (save r q data) d = (true, d.set q (savedFile data)) := by
  have hcreate : Prog.run disks (step r (.create q)) d =
      (true, d.set q (some (.file [] privateMode 1))) := by
    show (Op.create q).exec d = _
    rw [Op.exec, if_pos hq]
  have hwrite : Prog.run disks (step r (.write q data)) (d.set q (some (.file [] privateMode 1))) =
      (true, d.set q (savedFile data)) := by
    show (Op.write q data).exec _ = _
    rw [Op.exec, Disk.set_self]
    simp only [List.nil_append, Disk.set_set]
    rfl
  rw [save, run_both_true hcreate, run_both_true hwrite, run_fsync]

/-- The root with the build staged in it. -/
def stagedRoot (d : Disk) (p : Products) : Disk where
  files
    | .building f => (productDirectory p).files f
    | q => d.files q
  staged := true
  generations := d.generations

theorem run_stage (hp : Complete p) : Prog.run disks (stage host p) d = (true, stagedRoot d p) := by
  have hmk : Prog.run disks (step .stage .mkdtemp) d = (true, ⟨clearStage d, true, d.generations⟩) := rfl
  have hset : (((((⟨clearStage d, true, d.generations⟩ : Disk).set (.building .policyBin)
      (savedFile p.cache)).set (.building .filtersZsh) (savedFile p.zsh)).set (.building .filtersSieve)
      (savedFile p.sieve)).set (.building .manifestJson) (savedFile (manifest p.generation))) =
      stagedRoot d p := by
    simp only [Disk.set, stagedRoot, Disk.mk.injEq, and_true]
    funext q
    cases q with
    | building f => cases f <;> rfl
    | input i => rfl
    | filtersSieve => rfl
    | engine e => rfl
  have hvalid : validateDirectory host (stagedFiles (stagedRoot d p)) p.id = .ok p.generation :=
    validateDirectory_complete host hp
  rw [stage, run_both_true hmk, run_both_true (run_save rfl), run_both_true (run_save rfl),
    run_both_true (run_save rfl), run_both_true (run_save rfl), run_both_true run_fsync, hset,
    Prog.run, hvalid]
  rfl

theorem stagedRoot_settled (hs : Settled d) : Settled (stagedRoot d p) := fun e he => hs e he

theorem stagedRoot_current (h : Current pl host d p) : Current pl host (stagedRoot d p) p :=
  h.congr (fun _ => rfl) rfl rfl

/-! ### Publishing over a damaged export -/

theorem abandon_fails (prepared : Bool) (d : Disk) :
    (Prog.run disks (abandon host prepared) d).1 = 3 := by
  rw [abandon, Prog.run_bind]
  cases (Prog.run disks (removeFile .recover (.engine .committed)) d).1 with
  | false => rfl
  | true =>
    rw [if_pos rfl, Prog.run]
    split
    · rw [Prog.run_bind]
      rfl
    · rw [Prog.run_bind]
      rfl

/-- What a publication can take as the old export. -/
def Replaceable (host : Host) (n : Option Node) : Prop :=
  n = none ∨ ∃ data mode links, n = some (.file data mode links) ∧
    host.canRead mode.permissions = true ∧ data.length ≤ cacheMax

theorem run_publishPrepare_refused (hbad : ¬Replaceable host (d.files .filtersSieve)) (old : Bytes) :
    Prog.run disks (publishPrepare host old p) d = (false, d) := by
  have hexists : existsAt d .filtersSieve = true := by
    rw [existsAt]
    cases hn : d.files .filtersSieve with
    | none => exact absurd (Or.inl hn) hbad
    | some n => rfl
  have hload : ∃ rc, loadMode host (d.files .filtersSieve) cacheMax false = .error rc := by
    cases hl : loadMode host (d.files .filtersSieve) cacheMax false with
    | error rc => exact ⟨rc, rfl⟩
    | ok x =>
      obtain ⟨data, mode⟩ := x
      obtain ⟨special, links, hnode, hlen⟩ := loadMode_eq_ok hl
      refine absurd (Or.inr ⟨data, ⟨special, mode⟩, links, hnode, ?_, hlen⟩) hbad
      rw [hnode] at hl
      simp only [loadMode] at hl
      split at hl
      · cases hl
      · next hread => simpa using hread
  obtain ⟨rc, hrc⟩ := hload
  rw [publishPrepare, Prog.run]
  dsimp only
  rw [if_pos hexists, hrc]
  rfl

/-- The names a publication prepares. -/
def preparePath : Path → Bool
  | .engine .exportBackup => true
  | .engine .exportNext => true
  | .engine .journalNext => true
  | .engine .journal => true
  | _ => false

theorem run_publishPrepare (hs : Settled d) (hgood : Replaceable host (d.files .filtersSieve))
    (old : Bytes) :
    (Prog.run disks (publishPrepare host old p) d).1 = true := by
  have hjournal : ∀ {t : Disk} (present : Bool) (mode : Mode), t.files (.engine .exportNext) = none →
      t.files (.engine .journalNext) = none → t.files (.engine .journal) = none →
      (Prog.run disks (Prog.both (save .publish (.engine .exportNext) p.sieve)
        (Prog.both (save .publish (.engine .journalNext) (journalLine old present mode p.id))
          (Prog.both (step .publish (.rename (.engine .journalNext) (.engine .journal)))
            (step .publish .fsync)))) t).1 = true := by
    intro t present mode h1 h2 h3
    have h2' : (t.set (.engine .exportNext) (savedFile p.sieve)).files (.engine .journalNext) = none := by
      rw [Disk.set_of_ne _ _ (by simp), h2]
    rw [run_both_true (run_save h1), run_both_true (run_save h2')]
    have hrename : Prog.run disks (step .publish (.rename (.engine .journalNext) (.engine .journal)))
        ((t.set (.engine .exportNext) (savedFile p.sieve)).set (.engine .journalNext)
          (savedFile (journalLine old present mode p.id))) =
        (true, ((((t.set (.engine .exportNext) (savedFile p.sieve)).set (.engine .journalNext)
          (savedFile (journalLine old present mode p.id))).set (.engine .journal)
          (savedFile (journalLine old present mode p.id))).set (.engine .journalNext) none)) := by
      show (Op.rename _ _).exec _ = _
      rw [Op.exec, if_neg ?_, Disk.set_self]
      rw [Disk.set_self, Disk.set_of_ne _ _ (by simp), Disk.set_of_ne _ _ (by simp), h3]
      simp [savedFile]
    rw [run_both_true hrename, run_fsync]
  have hnone : ∀ {e : EngineName}, e ≠ .current → d.files (.engine e) = none := fun he => hs _ he
  rw [publishPrepare, Prog.run]
  dsimp only
  rcases hgood with hn | ⟨data, mode, links, hn, hread, hlen⟩
  · rw [if_neg (by simp [existsAt, hn])]
    exact hjournal _ _ (hnone (by simp)) (hnone (by simp)) (hnone (by simp))
  · have hload : loadMode host (d.files .filtersSieve) cacheMax false = .ok (data, mode.permissions) := by
      rw [hn]
      simp only [loadMode, hread, Bool.true_eq_false, if_false, Bool.false_eq_true, false_and,
        Nat.not_lt.mpr hlen]
    rw [if_pos (by simp [existsAt, hn]), hload]
    dsimp only
    have hset : ∀ {e : EngineName}, e ≠ .current → e ≠ .exportBackup →
        (d.set (.engine .exportBackup) (savedFile data)).files (.engine e) = none := by
      intro e he hb
      rw [Disk.set_of_ne _ _ (by simpa using hb), hnone he]
    rw [run_both_true (run_save (hnone (by simp)))]
    exact hjournal _ _ (hset (by simp) (by simp)) (hset (by simp) (by simp)) (hset (by simp) (by simp))

/-- The names a publication commits. -/
def commitPath : Path → Bool
  | .filtersSieve => true
  | .engine .exportNext => true
  | .engine .current => true
  | .engine .currentNext => true
  | .engine .committed => true
  | .engine .committedNext => true
  | _ => false

theorem within_publishCommit (p : Products) : Within commitPath (publishCommit p) :=
  Prog.calls_both (within_step rfl) (Prog.calls_both (within_setSelector rfl rfl)
    (Prog.calls_both (within_step rfl) (Prog.calls_both (within_step rfl)
      (Prog.calls_both (within_save rfl) (Prog.calls_both (within_step rfl) (within_step rfl))))))

theorem within_publishPrepare (old : Bytes) (p : Products) :
    Within preparePath (publishPrepare host old p) := by
  have hjournal : ∀ present mode, Within preparePath (Prog.both
      (save .publish (.engine .exportNext) p.sieve)
      (Prog.both (save .publish (.engine .journalNext) (journalLine old present mode p.id))
        (Prog.both (step .publish (.rename (.engine .journalNext) (.engine .journal)))
          (step .publish .fsync)))) := fun present mode =>
    Prog.calls_both (within_save rfl) (Prog.calls_both (within_save rfl)
      (Prog.calls_both (within_step rfl) (within_step rfl)))
  apply Prog.calls_look
  intro d
  dsimp only
  split
  · split
    · exact Prog.calls_both (within_save rfl) (hjournal _ _)
    · trivial
  · exact hjournal _ _

/-- The commit of what is prepared goes through. -/
theorem run_publishCommit (hid : p.id ≠ []) (hu : Usable d)
    (hexport : d.files (.engine .exportNext) = savedFile p.sieve)
    (hsieve : d.files .filtersSieve ≠ some .other)
    (hnext : d.files (.engine .committedNext) = none) :
    ∃ t, Prog.run disks (publishCommit p) d = (true, t) ∧ Usable t ∧
      t.files .filtersSieve = savedFile p.sieve ∧
      t.files (.engine .current) = some (.link (selectorTarget p.id)) ∧
      t.files (.engine .committed) = savedFile p.id := by
  have hrename : ∀ {r : Region} {u : Disk} {q q' : Path}, u.files q ≠ none →
      u.files q' ≠ some .other →
      Prog.run disks (step r (.rename q q')) u = (true, (u.set q' (u.files q)).set q none) := by
    intro r u q q' h1 h2
    show (Op.rename q q').exec u = _
    rw [Op.exec, if_neg (by simp [h1, h2])]
  have hremove : ∀ {r : Region} {u : Disk} {q : Path}, u.files q ≠ some .other →
      Prog.run disks (removeFile r q) u = (true, u.set q none) := by
    intro r u q h
    show (Op.unlink q).exec u = _
    rw [Op.exec, if_neg h]
  have hlink : ∀ {r : Region} {u : Disk} {q : Path} {target : Bytes}, u.files q = none →
      Prog.run disks (step r (.symlink target q)) u = (true, u.set q (some (.link target))) := by
    intro r u q target h
    show (Op.symlink target q).exec u = _
    rw [Op.exec, if_pos h]
  have hsaved : savedFile p.sieve ≠ none := by simp [savedFile]
  -- The export, the selector and the marker, one after the other.
  let t₁ := (d.set .filtersSieve (savedFile p.sieve)).set (.engine .exportNext) none
  have hu₁ : Usable t₁ := usable_set (usable_set hu (savedFile_ne_other _)) (by simp)
  let t₂ := t₁.set (.engine .currentNext) none
  let t₃ := t₂.set (.engine .currentNext) (some (.link (selectorTarget p.id)))
  let t₄ := (t₃.set (.engine .current) (some (.link (selectorTarget p.id)))).set
    (.engine .currentNext) none
  have hu₂ : Usable t₂ := usable_set hu₁ (by simp)
  have hu₃ : Usable t₃ := usable_set hu₂ (by simp)
  have hu₄ : Usable t₄ := usable_set (usable_set hu₃ (by simp)) (by simp)
  let t₅ := t₄.set (.engine .committedNext) (savedFile p.id)
  let t₆ := (t₅.set (.engine .committed) (savedFile p.id)).set (.engine .committedNext) none
  have hu₅ : Usable t₅ := usable_set hu₄ (savedFile_ne_other _)
  have hu₆ : Usable t₆ := usable_set (usable_set hu₅ (savedFile_ne_other _)) (by simp)
  have h₁ : Prog.run disks (step .publish (.rename (.engine .exportNext) .filtersSieve)) d =
      (true, t₁) := by
    rw [hrename (by rw [hexport]; exact hsaved) hsieve, hexport]
  have h₂ : Prog.run disks (setSelector .publish p.id (.engine .currentNext)) t₁ = (true, t₄) := by
    have hfile : t₃.files (.engine .currentNext) = some (.link (selectorTarget p.id)) :=
      Disk.set_self ..
    rw [setSelector, if_neg hid, run_both_true (hremove (hu₁ _)), run_both_true (hlink (Disk.set_self ..)),
      hrename (by rw [hfile]; simp) (hu₃ _), hfile]
  have hnext₄ : t₄.files (.engine .committedNext) = none := by
    simp [t₄, t₃, t₂, t₁, Disk.set, hnext]
  have h₃ : Prog.run disks (step .publish (.rename (.engine .committedNext) (.engine .committed))) t₅ =
      (true, t₆) := by
    have hfile : t₅.files (.engine .committedNext) = savedFile p.id := Disk.set_self ..
    rw [hrename (by rw [hfile]; simp [savedFile]) (hu₅ _), hfile]
  refine ⟨t₆, ?_, hu₆, ?_, ?_, ?_⟩
  · rw [publishCommit, run_both_true h₁, run_both_true h₂, run_both_true run_fsync,
      run_both_true run_fsync, run_both_true (run_save hnext₄), run_both_true h₃, run_fsync]
  · simp [t₆, t₅, t₄, t₃, t₂, t₁, Disk.set]
  · simp [t₆, t₅, t₄, Disk.set]
  · simp [t₆, Disk.set]

/-- A publication that went through is pending. -/
theorem publish_pending {v : View} {news : Fin 4 → Option Node} {old : Bytes} (h : Ready v news d)
    (hid : validId p.id = true) (hold : old = [] ∨ validId old = true)
    (hsel : v.current = selectorNode old)
    (hprepared : (Prog.run disks (publishPrepare host old p) d).1 = true) :
    ∃ t, Prog.run disks (publish host old p) d = (0, t) ∧ Pending t p.id ∧
      t.files .filtersSieve = savedFile p.sieve ∧ t.generations = d.generations ∧
      ∀ i, t.files (.input i) = d.files (.input i) := by
  have hpost := Prog.safe_run disks (safe_publishPrepare host p h hold hid hsel)
  have hframe := (@within_publishPrepare host old p).run d
  generalize hran : Prog.run disks (publishPrepare host old p) d = ran at hpost hframe hprepared
  obtain ⟨ok, u⟩ := ran
  dsimp only at hpost hframe hprepared
  subst hprepared
  obtain ⟨⟨j, hj⟩, himports⟩ := hpost
  obtain ⟨t, hcommit, husable, hsieve, hcurrent, hcommitted⟩ := run_publishCommit
    (validId_ne_nil hid) hj.usable hj.exportNext hj.rolls.replaceable hj.committedNext
  have hframe2 := (within_publishCommit p).run u
  rw [hcommit] at hframe2
  refine ⟨t, ?_, ?_, hsieve, ?_, ?_⟩
  · rw [publish, Prog.run_bind, hran]
    dsimp only
    rw [if_pos rfl, Prog.run_bind, hcommit]
    rfl
  · refine ⟨husable, ⟨j, ?_, hj.next⟩, hcommitted, hcurrent, ?_⟩
    · rw [hframe2.files _ rfl, hj.rolls.journal]
    · rw [hframe2.files _ rfl]
      exact hj.kept.1
  · rw [hframe2.generations, hframe.generations]
  · intro i
    rw [hframe2.files _ rfl, hframe.files _ rfl]

/-- A publication without its preparation fails. -/
theorem publish_fails {old : Bytes}
    (hprepared : (Prog.run disks (publishPrepare host old p) d).1 = false) :
    (Prog.run disks (publish host old p) d).1 = 3 := by
  rw [publish, Prog.run_bind, hprepared]
  simp only [Bool.false_eq_true, if_false]
  rw [Prog.run_bind]
  exact abandon_fails _ _

/-! ### The exclusive section -/

theorem Current.installed (h : Current pl host d p) (whole : Bool) :
    Prog.run disks (install host whole p) d = (0, d) := by
  have hopen := h.opens
  have hdir : ∃ dir, d.generations p.id = some dir := by
    rw [openGeneration] at hopen
    split at hopen
    · next dir hdir => exact ⟨dir, hdir⟩
    · cases hopen
  obtain ⟨dir, hdir⟩ := hdir
  have hsame : sameProducts whole p.generation p = true := by
    simp [sameProducts, Products.generation]
  rw [install, Prog.run, hdir]
  dsimp only
  rw [hopen]
  dsimp only
  rw [hsame]
  rfl

/-- A damaged export is published again over itself, where it can be replaced. -/
theorem run_publishSection (hs : Settled d) (h : Current pl host d p)
    (hpublic : publicStatus host d p.sieve = 5) {s : Snapshot} {fingerprint : Bytes}
    (hprior : Prior pl (inputsOf d) p s.dependencies) (hid : digestHex fingerprint = p.id) :
    Prog.run disks (publishSection pl host s fingerprint p) d =
      ((if (Prog.run disks (publish host p.id p) d).1 = 0 then .stop (.ok p.id)
        else .fail (Prog.run disks (publish host p.id p) d).1),
        (Prog.run disks (publish host p.id p) d).2) := by
  obtain ⟨s2, fingerprint2, hs2, hf2, hid2, _⟩ := h.snapshot hprior
  obtain rfl : fingerprint2 = fingerprint := digestHex_injective (hid2.trans hid.symm)
  rw [publishSection, Prog.run_bind, run_recover_settled hs]
  simp only [ne_eq, not_true_eq_false, if_false, Prog.run, hs2, hf2, h.selected]
  rw [Prog.run_bind, h.installed true]
  simp only [not_true_eq_false, if_false]
  have hneeded : Prog.run disks (publishIfNeeded host p.id p) d =
      Prog.run disks (publish host p.id p) d := by
    rw [publishIfNeeded, Prog.run, if_pos rfl, if_pos hpublic]
  rw [Prog.run_bind, hneeded]
  rfl

/-- The end of a compile that finds the export damaged. -/
theorem run_buildAndPublish (hs : Settled d) (h : Current pl host d p)
    (hpublic : publicStatus host d p.sieve = 5) {s : Snapshot} {fingerprint : Bytes}
    (hprior : Prior pl (inputsOf d) p s.dependencies) (hbuild : pl.build s = .ok p)
    (hid : digestHex fingerprint = p.id) :
    (Replaceable host (d.files .filtersSieve) →
      ∃ t, Prog.run disks (buildAndPublish pl host s fingerprint) d = (.stop (.ok p.id), t) ∧
        Pending t p.id ∧ t.files .filtersSieve = savedFile p.sieve ∧ Current pl host t p) ∧
      (¬Replaceable host (d.files .filtersSieve) →
        ∃ t, Prog.run disks (buildAndPublish pl host s fingerprint) d = (.fail 3, t)) := by
  have hstage := @run_stage host d p h.complete
  have hsettled : Settled (stagedRoot d p) := stagedRoot_settled hs
  have hsection := run_publishSection hsettled (stagedRoot_current h) hpublic hprior hid
  have hrun : Prog.run disks (buildAndPublish pl host s fingerprint) d =
      ((if (Prog.run disks (publish host p.id p) (stagedRoot d p)).1 = 0 then .stop (.ok p.id)
        else .fail (Prog.run disks (publish host p.id p) (stagedRoot d p)).1),
        (Prog.run disks discardStage (Prog.run disks (publish host p.id p) (stagedRoot d p)).2).2) := by
    rw [buildAndPublish, hbuild]
    dsimp only
    rw [Prog.run_bind, hstage]
    dsimp only
    rw [if_pos rfl, Prog.run_bind, hsection, Prog.run_bind]
    rfl
  obtain ⟨hold, hcurrent⟩ := selector_eq_ok (stagedRoot_current h).selected
  constructor
  · intro hgood
    have hprepared := run_publishPrepare (p := p) hsettled hgood p.id
    obtain ⟨t, hpublish, hpending, hsieve, hgen, hinputs⟩ := publish_pending
      (settled_ready hsettled (stagedRoot_current h).selected) h.complete.id_valid hold hcurrent hprepared
    have haside := aside_discardStage t
    have hpending' := hpending.aside haside
    refine ⟨(Prog.run disks discardStage t).2, ?_, hpending', ?_, h.congr (fun i => ?_) ?_ ?_⟩
    · rw [hrun, hpublish]
      rfl
    · rw [haside _ rfl, hsieve]
    · rw [haside _ rfl, hinputs]
      rfl
    · rw [hpending'.current]
      exact ((selector_eq_ok h.selected).2.trans (if_neg (validId_ne_nil h.complete.id_valid))).symm
    · rw [(within_discardStage.run t).generations, hgen]
      rfl
  · intro hbad
    have hprepared : Prog.run disks (publishPrepare host p.id p) (stagedRoot d p) =
        (false, stagedRoot d p) :=
      run_publishPrepare_refused (d := stagedRoot d p) hbad p.id
    have hfails : (Prog.run disks (publish host p.id p) (stagedRoot d p)).1 = 3 :=
      publish_fails (by rw [hprepared])
    refine ⟨(Prog.run disks discardStage (Prog.run disks (publish host p.id p) (stagedRoot d p)).2).2, ?_⟩
    rw [hrun, hfails]
    rfl

/-! ### When the export is repaired -/

/-- The compile returns 0, the export is the script of the selected generation, and that is
still selected. -/
def Repaired (pl : Pipeline) (host : Host) (d : Disk) (p : Products) : Prop :=
  ∃ t mode links, Prog.run disks (compile pl host) d = (.ok p.id, t) ∧
    t.files .filtersSieve = some (.file p.sieve mode links) ∧ selector t = .ok p.id

/-- The export is as the selected generation has it, or it can be replaced and no
publication is waiting for its recovery. -/
def Repairable (host : Host) (d : Disk) (p : Products) : Prop :=
  (∃ special, d.files .filtersSieve = ownFile special p.sieve) ∨
    d.files (.engine .journal) = none ∧ Replaceable host (d.files .filtersSieve)

theorem Replaceable.publicStatus (h : Replaceable host (d.files .filtersSieve)) (sieve : Bytes) :
    publicStatus host d sieve = 0 ∨ publicStatus host d sieve = 5 := by
  rw [JaroFilter.publicStatus]
  rcases h with hn | ⟨data, mode, links, hn, hread, hlen⟩
  · rw [hn]
    exact Or.inr rfl
  · rw [hn]
    simp only [load, loadMode, hread, Bool.true_eq_false, if_false, Nat.not_lt.mpr hlen, true_and]
    by_cases hprivate : mode.permissions ≠ privateMode ∨ links ≠ 1
    · rw [if_pos hprivate]
      exact Or.inr rfl
    · rw [if_neg hprivate]
      simp only [Except.map]
      split
      · exact Or.inl rfl
      · exact Or.inr rfl

theorem not_repaired {rc : ℕ} {t : Disk} (h : Prog.run disks (compile pl host) d = (.error rc, t)) :
    ¬Repaired pl host d p := by
  rintro ⟨u, _, _, hu, _⟩
  rw [h] at hu
  cases hu

/-- A settled root is repaired where the export is there or can be replaced. -/
theorem repaired_settled {u : Disk} (hrecover : Prog.run disks (recover host) u = (0, d))
    (hs : Settled d) (h : Current pl host d p) :
    Repaired pl host u p ↔
      publicStatus host d p.sieve = 0 ∨ Replaceable host (d.files .filtersSieve) := by
  obtain ⟨deps, hprior, hcompile⟩ := run_compile hrecover hs h
  obtain ⟨s, fingerprint, hrecheck, hbuild, hid, hrun⟩ := run_attempt hs h hprior
  by_cases h0 : publicStatus host d p.sieve = 0
  · rw [if_pos h0] at hrun
    simp only [h0, true_or, iff_true]
    obtain ⟨special, hfile⟩ := (publicStatus_eq_zero.mp h0).1
    exact ⟨d, ⟨special, privateMode⟩, 1, hcompile _ _ hrun, hfile, h.selected⟩
  · rw [if_neg h0] at hrun
    simp only [h0, false_or]
    by_cases h5 : publicStatus host d p.sieve = 5
    · rw [if_pos h5] at hrun
      obtain ⟨hgood, hbad⟩ := run_buildAndPublish hs h h5 hrecheck hbuild hid
      constructor
      · intro hrepaired
        by_contra hno
        obtain ⟨t, ht⟩ := hbad hno
        exact not_repaired (hcompile _ _ (hrun.trans ht)) hrepaired
      · intro hreplaceable
        obtain ⟨t, ht, hpending, hsieve, _⟩ := hgood hreplaceable
        exact ⟨t, privateMode, 1, hcompile _ _ (hrun.trans ht), hsieve, hpending.selector⟩
    · rw [if_neg h5] at hrun
      constructor
      · intro hrepaired
        exact absurd hrepaired (not_repaired (hcompile _ _ hrun))
      · intro hgood
        rcases hgood.publicStatus p.sieve with hst | hst
        · exact absurd hst h0
        · exact absurd hst h5

/-- With a publication pending everything depends on the export it made. -/
theorem repaired_pending (hp : Pending d p.id) (h : Current pl host d p) :
    Repaired pl host d p ↔ ∃ special, d.files .filtersSieve = ownFile special p.sieve := by
  have hsize : p.sieve.length ≤ cacheMax := h.complete.sieve_size
  by_cases h0 : publicStatus host d p.sieve = 0
  · have hfile := (publicStatus_eq_zero.mp h0).1
    obtain ⟨hrc, hsettled, hframe⟩ := hp.recovered h.opens h0
    generalize hran : Prog.run disks (recover host) d = ran at hrc hsettled hframe
    obtain ⟨rc, u⟩ := ran
    dsimp only at hrc hsettled hframe
    subst hrc
    have hcurrent : Current pl host u p :=
      h.congr (fun i => hframe.files _ rfl) (hframe.files _ rfl) hframe.generations
    have hu0 : publicStatus host u p.sieve = 0 := by
      rw [publicStatus_eq_zero]
      exact ⟨hfile.imp fun _ h => (hframe.files _ rfl).trans h, hsize⟩
    rw [repaired_settled hran hsettled hcurrent]
    simp only [hu0, true_or, hfile]
  · have hne : ¬∃ special, d.files .filtersSieve = ownFile special p.sieve := fun hfile =>
      h0 (publicStatus_eq_zero.mpr ⟨hfile, hsize⟩)
    have hrecover := hp.run_recover h.opens
    rw [if_neg (by exact h0)] at hrecover
    have hcompile : Prog.run disks (compile pl host) d =
        (.error (publicStatus host d p.sieve), d) := by
      rw [compile, Prog.run_bind, openPrevious, Prog.run_bind, hrecover]
      dsimp only
      rw [if_pos (by exact h0)]
      rfl
    simp only [hne, iff_false]
    exact not_repaired hcompile

/-- A compile over a publication whose export is there settles the root. -/
theorem Pending.settles (hp : Pending d p.id) (h : Current pl host d p)
    (h0 : publicStatus host d p.sieve = 0) :
    ∃ u, Prog.run disks (compile pl host) d = (.ok p.id, u) ∧ Current pl host u p ∧ Settled u := by
  obtain ⟨hrc, hsettled, hframe⟩ := hp.recovered h.opens h0
  generalize hran : Prog.run disks (recover host) d = ran at hrc hsettled hframe
  obtain ⟨rc, u⟩ := ran
  dsimp only at hrc hsettled hframe
  subst hrc
  have hcurrent : Current pl host u p :=
    h.congr (fun i => hframe.files _ rfl) (hframe.files _ rfl) hframe.generations
  have hu0 : publicStatus host u p.sieve = 0 := by
    obtain ⟨hfile, hsize⟩ := publicStatus_eq_zero.mp h0
    exact publicStatus_eq_zero.mpr ⟨hfile.imp fun _ h => (hframe.files _ rfl).trans h, hsize⟩
  obtain ⟨deps, hprior, hcompile⟩ := run_compile hran hsettled hcurrent
  obtain ⟨_, _, _, _, _, hrun⟩ := run_attempt hsettled hcurrent hprior
  rw [if_pos hu0] at hrun
  exact ⟨u, hcompile _ _ hrun, hcurrent, hsettled⟩

end Repair

/-! ### What successful runs leave -/

/-- Nothing of a transaction is left, or a committed publication. -/
def Resting (d : Disk) : Prop := Settled d ∨ ∃ id, Pending d id

section Runs

variable {pl : Pipeline} {host : Host} {d : Disk} {p : Products}

theorem Resting.aside {t : Disk} (h : Resting d) (ht : Aside d t) : Resting t := by
  rcases h with hs | ⟨id, hp⟩
  · exact Or.inl (ht.settled hs)
  · exact Or.inr ⟨id, hp.aside ht⟩

theorem publish_resting {v : View} {news : Fin 4 → Option Node} {old : Bytes} (h : Ready v news d)
    (hid : validId p.id = true) (hold : old = [] ∨ validId old = true)
    (hsel : v.current = selectorNode old) (hrc : (Prog.run disks (publish host old p) d).1 = 0) :
    Resting (Prog.run disks (publish host old p) d).2 := by
  cases hprepared : (Prog.run disks (publishPrepare host old p) d).1 with
  | false =>
    rw [publish_fails hprepared] at hrc
    cases hrc
  | true =>
    obtain ⟨t, hrun, hpending, _⟩ := publish_pending h hid hold hsel hprepared
    rw [hrun]
    exact Or.inr ⟨_, hpending⟩

theorem publishIfNeeded_resting {old : Bytes} (hs : Settled d) (hsel : selector d = .ok old)
    (hid : validId p.id = true) :
    Prog.Safe disks Anything (publishIfNeeded host old p) d fun rc t => rc = 0 → Resting t := by
  obtain ⟨hold, hcurrent⟩ := selector_eq_ok hsel
  have hpublish : Prog.Safe disks Anything (publish host old p) d fun rc t => rc = 0 → Resting t :=
    safe_of_run (publish_resting (settled_ready hs hsel) hid hold hcurrent)
  apply Prog.safe_look
  split
  · split
    · exact hpublish
    · exact Prog.safe_done _ fun _ => Or.inl hs
  · exact hpublish

/-- An attempt that ends well, or asks for another, leaves the root at rest. -/
def Rests (r : Attempt) (t : Disk) : Prop :=
  (∀ id, r = .stop (.ok id) → Resting t) ∧ ∀ prior, r = .again prior → Settled t

theorem Rests.of_settled (r : Attempt) (h : Settled d) : Rests r d :=
  ⟨fun _ _ => Or.inl h, fun _ _ => h⟩

theorem Rests.failed (rc : ℕ) (t : Disk) : Rests (.fail rc) t := by
  constructor
  · intro id h
    simp [Attempt.fail] at h
  · intro prior h
    simp [Attempt.fail] at h

theorem publishSection_rests {s : Snapshot} {fingerprint : Bytes} (hs : Settled d)
    (hid : validId p.id = true) :
    Prog.Safe disks Anything (publishSection pl host s fingerprint p) d Rests := by
  apply Prog.safe_bind
  apply safe_of_run
  rw [run_recover_settled hs]
  simp only [ne_eq, not_true_eq_false, if_false]
  apply Prog.safe_look
  split
  · exact Prog.safe_done _ (.of_settled _ hs)
  · split
    · exact Prog.safe_done _ (.of_settled _ hs)
    · split
      · exact Prog.safe_done _ (.of_settled _ hs)
      · split
        · exact Prog.safe_done _ (.of_settled _ hs)
        · next old hsel =>
          apply Prog.safe_bind
          apply safe_of_run
          have haside := aside_install host true p d
          generalize Prog.run disks (install host true p) d = ran at haside
          obtain ⟨rc, t⟩ := ran
          dsimp only
          split
          · exact Prog.safe_done _ (.failed _ _)
          · apply Prog.safe_bind
            apply Prog.safe_mono disks (publishIfNeeded_resting (haside.settled hs)
              (haside.selector.trans hsel) hid) (fun _ h => h)
            intro rc u hu
            apply Prog.safe_done
            split
            · next h0 => exact ⟨fun _ _ => hu h0, fun _ h => by cases h⟩
            · exact .failed _ _

theorem buildAndPublish_rests {s : Snapshot} {fingerprint : Bytes} (hs : Settled d) :
    Prog.Safe disks Anything (buildAndPublish pl host s fingerprint) d Rests := by
  unfold buildAndPublish
  split
  · exact Prog.safe_done _ (.of_settled _ hs)
  · next p hbuild =>
    apply Prog.safe_bind
    apply safe_of_run
    have haside := aside_stage host p d
    generalize Prog.run disks (stage host p) d = ran at haside
    obtain ⟨ok, t⟩ := ran
    have ht := haside.settled hs
    have hsection : Prog.Safe disks Anything
        (if ok then publishSection pl host s fingerprint p else .done (.fail 3)) t Rests := by
      cases ok with
      | true => exact publishSection_rests ht (complete_of_pipeline hbuild).id_valid
      | false => exact Prog.safe_done _ (.failed _ _)
    apply Prog.safe_bind
    apply Prog.safe_mono disks hsection (fun _ h => h)
    intro r u hu
    apply Prog.safe_bind
    apply safe_of_run
    have hdiscard := aside_discardStage u
    exact Prog.safe_done _ ⟨fun id h => (hu.1 id h).aside hdiscard,
      fun prior h => hdiscard.settled (hu.2 prior h)⟩

theorem attempt_rests {previous : Option Generation} {prior : List Dependency} (hs : Settled d) :
    Prog.Safe disks Anything (attempt pl host previous prior) d Rests := by
  apply Prog.safe_look
  split
  · exact Prog.safe_done _ (.of_settled _ hs)
  · split
    · apply Prog.safe_look
      split
      · exact Prog.safe_done _ (.of_settled _ hs)
      · exact buildAndPublish_rests hs
    · exact buildAndPublish_rests hs

theorem attempts_rests {previous : Option Generation} {n : ℕ} {prior : List Dependency}
    (hs : Settled d) :
    Prog.Safe disks Anything (attempts pl host previous n prior) d fun r t =>
      ∀ id, r = .ok id → Resting t := by
  induction n generalizing d prior with
  | zero => exact Prog.safe_done _ fun _ h => by cases h
  | succ n ih =>
    apply Prog.safe_bind
    apply Prog.safe_mono disks (attempt_rests hs) (fun _ h => h)
    intro r t ht
    cases r with
    | stop outcome =>
      apply Prog.safe_done
      rintro id rfl
      exact ht.1 id rfl
    | again prior => exact ih (ht.2 prior rfl)

/-- A compile that returns 0 leaves the root at rest, whatever it found. -/
theorem compile_rests {t : Disk} {id : Bytes} (h : Prog.run disks (compile pl host) d = (.ok id, t)) :
    Resting t := by
  have hsafe : Prog.Safe disks Anything (compile pl host) d fun r t => ∀ id, r = .ok id → Resting t := by
    apply Prog.safe_bind
    apply safe_of_run
    have hopen := @openPrevious_eq_ok host d
    generalize Prog.run disks (openPrevious host) d = ran at hopen
    obtain ⟨opened, u⟩ := ran
    cases opened with
    | error rc => exact Prog.safe_done _ fun _ h => by cases h
    | ok opened =>
      obtain ⟨previous, prior⟩ := opened
      obtain ⟨hrc, hu, _⟩ := hopen rfl
      dsimp only at hu
      subst hu
      exact attempts_rests (recover_settles hrc)
  have hrun := Prog.safe_run disks hsafe
  rw [h] at hrun
  exact hrun id rfl

theorem transact_resting {c : Change} {old : Bytes} (hs : Settled d) (hsel : selector d = .ok old)
    (hid : validId p.id = true) (hreads : Reads host d c) :
    Prog.Safe disks Anything (transact host (some c) old p) d fun rc t => rc = 0 → Resting t := by
  obtain ⟨hold, hcurrent⟩ := selector_eq_ok hsel
  apply Prog.safe_bind
  apply Prog.safe_mono disks (safe_prepareInputs host hs hsel hreads) (fun _ _ => trivial)
  rintro ok t ⟨rfl, hready, _⟩
  apply Prog.safe_bind
  rw [if_pos rfl]
  apply safe_of_run
  have hrest := @publish_resting host t p _ _ old hready hid hold hcurrent
  generalize Prog.run disks (publish host old p) t = ran at hrest
  obtain ⟨rc, u⟩ := ran
  by_cases h0 : rc = 0
  · subst h0
    exact Prog.safe_done _ fun _ => hrest rfl
  · have hundo : Prog.Safe disks Anything (undoImport host rc) u fun rc' _ => rc' = rc := by
      unfold undoImport
      rw [if_neg h0]
      apply Prog.safe_bind
      apply Prog.safe_mono disks (safe_anything _ _) (fun _ h => h)
      intro _ _ _
      apply Prog.safe_bind
      apply Prog.safe_mono disks (safe_anything _ _) (fun _ h => h)
      intro _ _ _
      exact Prog.safe_done _ rfl
    apply Prog.safe_mono disks hundo (fun _ h => h)
    intro rc' _ heq h
    exact absurd (heq.symm.trans h) h0

theorem importSection_resting {plan : Plan} (hs : Settled d) (hsel : selector d = .ok plan.old)
    (hid : validId plan.products.id = true) (hreads : Reads host d plan.change) :
    Prog.Safe disks Anything (importSection pl host plan) d fun rc t => rc = 0 → Resting t := by
  apply Prog.safe_bind
  apply safe_of_run
  have haside := aside_install host false plan.products d
  generalize Prog.run disks (install host false plan.products) d = ran at haside
  obtain ⟨rc, t⟩ := ran
  have ht := haside.settled hs
  have hselt := haside.selector.trans hsel
  have hview := haside.view
  dsimp only at haside ht hselt hview ⊢
  split
  · next hrc => exact Prog.safe_done _ fun h => absurd h hrc
  · apply Prog.safe_look
    split
    · next hrc => exact Prog.safe_done _ fun h => absurd h hrc
    · split
      · exact transact_resting ht hselt hid (hreads.congr hview)
      · exact publishIfNeeded_resting ht hselt hid

/-- An import that returns 0 leaves the root at rest. -/
theorem compileImport_rests {t : Disk} {id : Bytes}
    (h : Prog.run disks (compileImport pl host) d = (.ok id, t)) : Resting t := by
  have hsafe : Prog.Safe disks Anything (compileImport pl host) d fun r t =>
      ∀ id, r = .ok id → Resting t := by
    apply Prog.safe_bind
    apply safe_of_run
    have hsettles := @recover_settles host d
    generalize Prog.run disks (recover host) d = ran at hsettles
    obtain ⟨rc, u⟩ := ran
    dsimp only at hsettles ⊢
    split
    · exact Prog.safe_done _ fun _ h => by cases h
    · next hrc =>
      have hs := hsettles (by simpa using hrc)
      apply Prog.safe_look
      split
      · exact Prog.safe_done _ fun _ h => by cases h
      · next plan hplan =>
        obtain ⟨hcomplete, hsel, hreads⟩ := planImport_ok hplan
        apply Prog.safe_bind
        apply safe_of_run
        have haside := aside_stage host plan.products u
        generalize Prog.run disks (stage host plan.products) u = ran at haside
        obtain ⟨ok, w⟩ := ran
        dsimp only at haside
        have hsection : Prog.Safe disks Anything
            (if ok then importSection pl host plan else .done 3) w fun rc t => rc = 0 → Resting t := by
          split
          · exact importSection_resting (haside.settled hs) (haside.selector.trans hsel)
              hcomplete.id_valid (hreads.congr haside.view)
          · exact Prog.safe_done _ fun h => by cases h
        apply Prog.safe_bind
        apply Prog.safe_mono disks hsection (fun _ h => h)
        intro rc x hx
        apply Prog.safe_bind
        apply safe_of_run
        have hdiscard := aside_discardStage x
        apply Prog.safe_done
        intro id hid
        split at hid
        · next h0 => exact (hx h0).aside hdiscard
        · cases hid
  have hrun := Prog.safe_run disks hsafe
  rw [h] at hrun
  exact hrun id rfl

/-! ### Runs -/

/-- A root that successful compiles and imports have led to, with edits of the inputs and
of the export between them. -/
inductive Reached (host : Host) : Disk → Prop
  | settled {d : Disk} (h : Settled d) : Reached host d
  | compile {d t : Disk} {id : Bytes} (pl : Pipeline) (h : Reached host d)
    (hrun : Prog.run disks (compile pl host) d = (.ok id, t)) : Reached host t
  | compileImport {d t : Disk} {id : Bytes} (pl : Pipeline) (h : Reached host d)
    (hrun : Prog.run disks (compileImport pl host) d = (.ok id, t)) : Reached host t
  | input {d : Disk} (i : Fin 4) (n : Option Node) (h : Reached host d) :
    Reached host (d.set (.input i) n)
  | export {d : Disk} (n : Option Node) (h : Reached host d) : Reached host (d.set .filtersSieve n)

theorem Settled.edited {q : Path} (h : Settled d) (hq : ∀ e, q ≠ .engine e) (n : Option Node) :
    Settled (d.set q n) := fun e he => (Disk.set_of_ne d n (hq e).symm).trans (h e he)

theorem Pending.edited {q : Path} {id : Bytes} (h : Pending d id) (hq : ∀ e, q ≠ .engine e)
    (n : Option Node) : Pending (d.set q n) id := by
  have hsame : ∀ e, (d.set q n).files (.engine e) = d.files (.engine e) := fun e =>
    Disk.set_of_ne d n (hq e).symm
  obtain ⟨j, hj, hnext⟩ := h.journal
  refine ⟨?_, ⟨j, (hsame _).trans hj, hnext⟩, (hsame _).trans h.committed,
    (hsame _).trans h.current, ?_⟩
  · intro e
    rw [hsame]
    exact h.usable e
  · rw [hsame]
    exact h.inputs

theorem Resting.edited {q : Path} (h : Resting d) (hq : ∀ e, q ≠ .engine e) (n : Option Node) :
    Resting (d.set q n) := by
  rcases h with hs | ⟨id, hp⟩
  · exact Or.inl (hs.edited hq n)
  · exact Or.inr ⟨id, hp.edited hq n⟩

theorem Reached.resting (h : Reached host d) : Resting d := by
  induction h with
  | settled h => exact Or.inl h
  | compile pl h hrun ih => exact compile_rests hrun
  | compileImport pl h hrun ih => exact compileImport_rests hrun
  | input i n h ih => exact ih.edited (fun e => by simp) n
  | «export» n h ih => exact ih.edited (fun e => by simp) n

end Runs

section Damage

variable {host : Host} {d : Disk} {p : Products}

theorem Current.damaged {pl : Pipeline} (h : Current pl host d p) (n : Option Node) :
    Current pl host (d.set .filtersSieve n) p :=
  h.congr (fun i => Disk.set_of_ne d n (by simp)) (Disk.set_of_ne d n (by simp)) rfl

/-- The next compile brings a damaged export back, where it can be replaced and no
publication is waiting for its recovery. -/
theorem damaged_export_repaired (pl : Pipeline) (host : Host) {d : Disk} {p : Products}
    (hr : Reached host d) (hc : Current pl host d p) (n : Option Node)
    (hn : Repairable host (d.set .filtersSieve n) p) :
    Repaired pl host (d.set .filtersSieve n) p := by
  have hcurrent := hc.damaged n
  have hresting : Resting (d.set .filtersSieve n) := hr.resting.edited (fun e => by simp) n
  rcases hresting with hs | ⟨id, hp⟩
  · rw [repaired_settled (run_recover_settled hs) hs hcurrent]
    rcases hn with hsame | ⟨_, hgood⟩
    · exact Or.inl (publicStatus_eq_zero.mpr ⟨hsame, hcurrent.complete.sieve_size⟩)
    · exact Or.inr hgood
  · obtain rfl : id = p.id := Except.ok.inj (hp.selector.symm.trans hcurrent.selected)
    rw [repaired_pending hp hcurrent]
    rcases hn with hsame | ⟨hnone, _⟩
    · exact hsame
    · obtain ⟨j, hj, _⟩ := hp.journal
      rw [hnone] at hj
      cases hj

/-- A settled root with the smallest generation selected. -/
def selectedRoot (p : Products) : Disk :=
  (bareRoot p).set (.engine .current) (some (.link (selectorTarget p.id)))

theorem settled_selectedRoot (p : Products) : Settled (selectedRoot p) := by
  intro e he
  rw [selectedRoot, Disk.set_of_ne _ _ (by simpa using he)]
  rfl

theorem current_selectedRoot (h : productsBuild samplePolicy sampleProfile sampleDeps = .ok p) :
    Current samplePipeline host (selectedRoot p) p := by
  have hcomplete := complete_of_build h
  refine ⟨?_, ?_, ⟨sampleSnapshot, samplePipeline_build h⟩,
    fun prior _ => ⟨sampleSnapshot, samplePipeline_collect, samplePipeline_build h⟩⟩
  · exact selector_target hcomplete.id_valid (Disk.set_self ..)
  · rw [openGeneration, selectedRoot, Disk.set_generations, bareRoot]
    simp only [if_true, productDirectory]
    exact validateDirectory_complete host hcomplete

/-- The first compile over a selected root without export publishes, and leaves its journal. -/
theorem publishes_selectedRoot (h : productsBuild samplePolicy sampleProfile sampleDeps = .ok p) :
    ∃ t, Reached host t ∧ Current samplePipeline host t p ∧ Pending t p.id ∧
      t.files .filtersSieve = savedFile p.sieve := by
  have hs := settled_selectedRoot p
  have hcurrent := @current_selectedRoot host p h
  obtain ⟨deps, hprior, hcompile⟩ := run_compile (run_recover_settled hs) hs hcurrent
  obtain ⟨s, fingerprint, hrecheck, hbuild, hid, hrun⟩ := run_attempt hs hcurrent hprior
  have h5 : publicStatus host (selectedRoot p) p.sieve = 5 := rfl
  rw [h5] at hrun
  obtain ⟨t, ht, hpending, hsieve, hcurrent'⟩ := (run_buildAndPublish hs hcurrent h5 hrecheck hbuild hid).1 (Or.inl rfl)
  exact ⟨t, .compile samplePipeline (.settled hs) (hcompile _ _ (hrun.trans ht)), hcurrent', hpending,
    hsieve⟩

/-- The second compile removes the journal of the first, and finds the export in place. -/
theorem settles_selectedRoot (h : productsBuild samplePolicy sampleProfile sampleDeps = .ok p) :
    ∃ t u, Reached host t ∧ Prog.run disks (compile samplePipeline host) t = (.ok p.id, u) ∧
      t.files (.engine .journal) ≠ none ∧ Current samplePipeline host u p ∧ Settled u := by
  obtain ⟨t, hreached, hcurrent, hpending, hsieve⟩ := @publishes_selectedRoot host p h
  have h0 : publicStatus host t p.sieve = 0 :=
    publicStatus_eq_zero.mpr ⟨⟨0, hsieve⟩, hcurrent.complete.sieve_size⟩
  obtain ⟨u, hrun, hcurrent', hs⟩ := hpending.settles hcurrent h0
  obtain ⟨j, hj, -⟩ := hpending.journal
  exact ⟨t, u, hreached, hrun, by rw [hj]; simp [savedFile], hcurrent', hs⟩

/-- Two compiles, the first of which publishes; then the export is overwritten. -/
theorem damaged_export_repaired_sample : ∃ p t u, Reached ownerHost t ∧
    Prog.run disks (compile samplePipeline ownerHost) t = (.ok p.id, u) ∧
    t.files (.engine .journal) ≠ none ∧ Current samplePipeline ownerHost u p ∧
    Repaired samplePipeline ownerHost (u.set .filtersSieve (savedFile [0])) p := by
  obtain ⟨p, hbuild⟩ := exists_eq_ok productsBuild_sample_isOk
  obtain ⟨t, u, hreached, hrun, hjournal, hcurrent, hs⟩ := @settles_selectedRoot ownerHost p hbuild
  refine ⟨p, t, u, hreached, hrun, hjournal, hcurrent, damaged_export_repaired samplePipeline ownerHost
    (.compile samplePipeline hreached hrun) hcurrent (savedFile [0])
    (Or.inr ⟨?_, Or.inr ⟨[0], privateMode, 1, Disk.set_self .., ?_, ?_⟩⟩)⟩
  · rw [Disk.set_of_ne _ _ (by simp)]
    exact hs _ (by simp)
  · decide
  · decide

/-- An export that cannot be read is not replaced, and one that is removed behind a
publication is not missed by recovery. -/
theorem damaged_export_stays : ∃ p,
    (∃ d, Reached ownerHost d ∧ Current samplePipeline ownerHost d p ∧
      ¬Repaired samplePipeline ownerHost (d.set .filtersSieve (some (.file [] (0 : Mode) 1))) p) ∧
    ∃ d, Reached ownerHost d ∧ Current samplePipeline ownerHost d p ∧
      ¬Repaired samplePipeline ownerHost (d.set .filtersSieve none) p := by
  obtain ⟨p, hbuild⟩ := exists_eq_ok productsBuild_sample_isOk
  have hs := settled_selectedRoot p
  have hcurrent := @current_selectedRoot ownerHost p hbuild
  refine ⟨p, ⟨_, .settled hs, hcurrent, ?_⟩, ?_⟩
  · have hs' : Settled ((selectedRoot p).set .filtersSieve (some (.file [] (0 : Mode) 1))) :=
      hs.edited (fun e => by simp) _
    rw [repaired_settled (run_recover_settled hs') hs' (hcurrent.damaged _), Disk.set_self]
    rintro (hstatus | hnone | ⟨data, mode, links, hfile, hread, _⟩)
    · rw [publicStatus_eq_zero, Disk.set_self] at hstatus
      obtain ⟨⟨special, hnode⟩, -⟩ := hstatus
      injection hnode with hnode
      injection hnode with _ hmode
      injection hmode with _ hpermissions
      exact absurd hpermissions (by decide)
    · cases hnone
    · cases hfile
      exact absurd hread (by decide)
  · obtain ⟨t, hreached, hcurrent', hpending, -⟩ := @publishes_selectedRoot ownerHost p hbuild
    refine ⟨t, hreached, hcurrent', ?_⟩
    rw [repaired_pending (hpending.edited (fun e => by simp) none) (hcurrent'.damaged none),
      Disk.set_self]
    rintro ⟨special, hsaved⟩
    cases hsaved

end Damage

end JaroFilter
