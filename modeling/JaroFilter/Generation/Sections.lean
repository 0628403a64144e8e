import JaroFilter.Generation.Repair
import JaroFilter.Lib.Rough

/-!
# What a locked section keeps (`generation.c:415-637,719-761`)

A section of a compile or an import in which any calls may fail, each with or
without a part of its effect, and which may be killed. Whatever its snapshot was
taken from, it leaves a root whose recovery shows inputs, selector and export
that agree.
-/

namespace JaroFilter

open Lib

/-! ### Routines that end at their first failure -/

section Fast

variable {host : Host}

theorem fast_copyFile (r : Region) (p q : Path) : Prog.Fast (copyFile host r p q) := by
  apply Prog.fast_look
  intro d
  split
  · exact fast_save _ _
  · trivial

theorem fast_restoreFile (p q t : Path) (mode : Mode) : Prog.Fast (restoreFile host p q t mode) :=
  Prog.fast_both (fast_step _) (Prog.fast_both (fast_copyFile _ _ _)
    (Prog.fast_both (fast_chmodFile _ _) (fast_step _)))

theorem fast_cleanupTransaction : Prog.Fast cleanupTransaction :=
  Prog.fast_both (fast_step _) (Prog.fast_both (fast_step _)
    (Prog.fast_both (Prog.fast_each fun _ _ => fast_step _) (fast_step _)))

theorem fast_recoverInputs (committed : Bool) : Prog.Fast (recoverInputs host committed) := by
  have hrestore : ∀ lines i, Prog.Fast (restoreInput host lines i) := by
    intro lines i
    unfold restoreInput
    split
    · split
      · exact fast_restoreFile _ _ _ _
      · exact fast_step _
    · trivial
  have hjournal : Prog.Fast (recoverJournal host committed) := by
    apply Prog.fast_look
    intro d
    split
    · split
      · refine Prog.fast_both ?_ (Prog.fast_both (fast_step _) (Prog.fast_both (fast_step _)
          (Prog.fast_both (fast_step _) (fast_step _))))
        split
        · trivial
        · exact Prog.fast_each fun i _ => hrestore _ i
      · trivial
    · trivial
  exact Prog.fast_both hjournal (Prog.fast_both
    (Prog.fast_each fun _ _ => Prog.fast_each fun _ _ => fast_step _)
    (Prog.fast_both (fast_step _) (fast_step _)))

theorem fast_rollback (j : Journal) : Prog.Fast (rollback host j) := by
  refine Prog.fast_both ?_ (Prog.fast_both (fast_setSelector _ _) (Prog.fast_both (fast_step _) (fast_step _)))
  split
  · exact fast_restoreFile _ _ _ _
  · exact fast_step _

theorem stops_finishRecovery (committed : Bool) : Prog.Stops (· = 3) (finishRecovery host committed) :=
  Prog.stops_bind (Prog.fast_both (fast_recoverInputs _) fast_cleanupTransaction) ⟨3, rfl, rfl⟩ trivial

theorem stops_recover (host : Host) : Prog.Stops (· = 3) (recover host) := by
  intro d
  dsimp only
  split
  · split
    · trivial
    · split
      · split
        · split
          · trivial
          · exact stops_finishRecovery _
        · trivial
      · exact Prog.stops_bind (fast_rollback _) ⟨3, rfl, rfl⟩ (stops_finishRecovery _)
  · exact stops_finishRecovery _

end Fast

/-! ### Rough runs of a transaction -/

section Rough

variable {host : Host} {placed : Prop} {v : View} {news : Fin 4 → Option Node} {p : Products} {old : Bytes}
  {d t : Disk}

/-- A recovery leaves what it found recoverable, and has shown it where it reports so. -/
theorem rough_recover {marked : Bool} (h : Recoverable host marked v d) {r : Option ℕ × Disk}
    (hr : Prog.Rough disks (recover host) d r) :
    Recoverable host marked v r.2 ∧ (r.1 = some 0 → Settled r.2 ∧ view r.2 = v) := by
  obtain ⟨hI, hend⟩ := Prog.rough_stops disks (stops_recover host) h (safe_recover h) hr
  refine ⟨hI, fun h0 => ?_⟩
  obtain h3 | ⟨-, hsettled, hview⟩ := hend 0 h0
  · cases h3
  · exact ⟨hsettled, hview⟩

theorem rough_removeFile {region : Region} {q : Path} (hq : d.files q ≠ some .other) {r : Option Bool × Disk}
    (hr : Prog.Rough disks (removeFile region q) d r) :
    (r.2 = d ∧ r.1 ≠ some true) ∨ r = (some true, d.set q none) ∨ r = (none, d.set q none) := by
  have hexec : (Op.unlink q).exec d = (true, d.set q none) := by rw [Op.exec, if_neg hq]
  cases hr with
  | killed => exact .inl ⟨rfl, by simp⟩
  | step hrest =>
    have hrest : Prog.Rough disks (.done ((Op.unlink q).exec d).1) ((Op.unlink q).exec d).2 r := hrest
    rw [hexec] at hrest
    obtain rfl | rfl := Prog.rough_done disks hrest
    · exact .inr (.inr rfl)
    · exact .inr (.inl rfl)
  | fails ht hrest =>
    obtain rfl : _ = d := ht.resolve_right fun h => h
    obtain rfl | rfl := Prog.rough_done disks hrest
    · exact .inl ⟨rfl, by simp⟩
    · exact .inl ⟨rfl, by simp⟩

/-- A failed publication stays on the side its marker says. -/
theorem rough_abandon {new : View} {prepared : Bool} (h : Decided host placed v new t) {r : Option ℕ × Disk}
    (hr : Prog.Rough disks (abandon host prepared) t r) : Decided host placed v new r.2 := by
  have hback : Recoverable host false v (t.set (.engine .committed) none) := h.back
  obtain ⟨-, hr⟩ | ⟨removed, u, hremove, hr⟩ := Prog.rough_bind disks hr
  · obtain ⟨hu, -⟩ | hu | hu := rough_removeFile h.marker hr
    · rw [show r.2 = t from hu]
      exact h
    · cases hu
    · rw [congrArg Prod.snd hu]
      exact hback.decided
  · obtain ⟨hu, hfalse⟩ | hu | hu := rough_removeFile h.marker hremove
    · have hu : u = t := hu
      subst hu
      have hremoved : removed = false := by
        cases removed
        · rfl
        · exact (hfalse rfl).elim
      subst hremoved
      obtain rfl | rfl := Prog.rough_done disks hr
      · exact h
      · exact h
    · cases hu
      have hr := Prog.rough_look disks hr
      split at hr
      · obtain ⟨-, hr⟩ | ⟨_, w, hrecover, hr⟩ := Prog.rough_bind disks hr
        · exact (rough_recover hback hr).1.decided
        · obtain rfl | rfl := Prog.rough_done disks hr
          · exact (rough_recover hback hrecover).1.decided
          · exact (rough_recover hback hrecover).1.decided
      · rename_i hj
        have hnone : (t.set (.engine .committed) none).files (.engine .journal) = none := by
          rw [Bool.or_eq_true, not_or] at hj
          simpa [existsAt] using hj.2
        have hclean : ∀ {x : Option Bool × Disk},
            Prog.Rough disks cleanupTransaction (t.set (.engine .committed) none) x →
              Recoverable host false v x.2 := fun hx =>
          (Prog.rough_stops disks (Prog.stops_of_fast fast_cleanupTransaction) hback
            (safe_abandonCleanup hback hnone) hx).1
        obtain ⟨-, hr⟩ | ⟨_, w, hcleanup, hr⟩ := Prog.rough_bind disks hr
        · exact (hclean hr).decided
        · obtain rfl | rfl := Prog.rough_done disks hr
          · exact (hclean hcleanup).decided
          · exact (hclean hcleanup).decided
    · cases hu

/-- Every state of a publication is on one of its sides, whatever fails. -/
theorem rough_publish (h : Ready v news d) (hid : validId p.id = true) (hinst : placed → Installed host d p)
    (hold : old = [] ∨ validId old = true) (hsel : v.current = selectorNode old) {r : Option ℕ × Disk}
    (hr : Prog.Rough disks (publish host old p) d r) : Decided host placed v (published news p) r.2 := by
  have hstart : Preparing host v d d := ⟨h.clean.recoverable, ⟨fun _ _ => rfl, rfl⟩⟩
  have hprepare : ∀ {x : Option Bool × Disk}, Prog.Rough disks (publishPrepare host old p) d x →
      Decided host placed v (published news p) x.2 ∧
        (x.1 = some true → (∃ j, Prepared v news p j x.2) ∧ AgreeOn importPath d x.2) := by
    intro x hx
    obtain ⟨hI, hend⟩ := Prog.rough_stops disks (Prog.stops_of_fast (fast_publishPrepare old p)) hstart
      (safe_publishPrepare host p h hold hid hsel) hx
    refine ⟨hI.recoverable.decided, fun htrue => ?_⟩
    obtain hbad | ⟨hready, ha⟩ := hend true htrue
    · cases hbad
    · exact ⟨hready, ha⟩
  obtain ⟨-, hr⟩ | ⟨prepared, t, hx, hr⟩ := Prog.rough_bind disks hr
  · exact (hprepare hr).1
  obtain ⟨ht, hready⟩ := hprepare hx
  have hcommit : ∀ {x : Option Bool × Disk},
      Prog.Rough disks (if prepared then publishCommit p else .done false) t x →
        Decided host placed v (published news p) x.2 := by
    intro x hx
    cases prepared with
    | false =>
      obtain rfl | rfl := Prog.rough_done disks hx
      · exact ht
      · exact ht
    | true =>
      obtain ⟨⟨j, hj⟩, ha⟩ := hready rfl
      rw [if_pos rfl] at hx
      exact (Prog.rough_stops disks (Prog.stops_of_fast (fast_publishCommit p)) ht
        (safe_publishCommit hj hid fun hp => (hinst hp).congr ha.generations) hx).1
  obtain ⟨-, hr⟩ | ⟨ok, u, hx, hr⟩ := Prog.rough_bind disks hr
  · exact hcommit hr
  · have hu := hcommit hx
    cases ok with
    | true =>
      obtain rfl | rfl := Prog.rough_done disks hr
      · exact hu
      · exact hu
    | false => exact rough_abandon hu hr

/-- Recovery would bring back one of two views. -/
def OneOf (host : Host) (v new : View) (t : Disk) : Prop :=
  (∃ marked, Recoverable host marked v t) ∨ ∃ marked, Recoverable host marked new t

theorem Decided.oneOf {new : View} (h : Decided host placed v new t) (hp : placed) : OneOf host v new t := by
  by_cases hm : t.files (.engine .committed) = none
  · have hback := h.back
    rw [Disk.set_same t hm] at hback
    exact .inl ⟨false, hback⟩
  · exact .inr ⟨true, h.on hp hm⟩

/-- A failed import recovers at once, to the side its marker says. -/
theorem rough_undoImport {new : View} {rc : ℕ} (hp : placed) (h : Decided host placed v new t)
    {r : Option ℕ × Disk} (hr : Prog.Rough disks (undoImport host rc) t r) : OneOf host v new r.2 := by
  rw [undoImport] at hr
  split at hr
  · obtain rfl | rfl := Prog.rough_done disks hr
    · exact h.oneOf hp
    · exact h.oneOf hp
  have hback : Recoverable host false v (t.set (.engine .committed) none) := h.back
  have hrecovers : ∀ {u : Disk} {x : Option ℕ × Disk}, OneOf host v new u →
      Prog.Rough disks (recover host) u x → OneOf host v new x.2 := by
    intro u x hu hx
    obtain ⟨marked, hu⟩ | ⟨marked, hu⟩ := hu
    · exact .inl ⟨marked, (rough_recover hu hx).1⟩
    · exact .inr ⟨marked, (rough_recover hu hx).1⟩
  have hremoved : ∀ {x : Option Bool × Disk}, Prog.Rough disks (removeFile .recover (.engine .committed)) t x →
      OneOf host v new x.2 := by
    intro x hx
    obtain ⟨hu, -⟩ | hu | hu := rough_removeFile h.marker hx
    · rw [hu]
      exact h.oneOf hp
    · rw [hu]
      exact .inl ⟨false, hback⟩
    · rw [hu]
      exact .inl ⟨false, hback⟩
  obtain ⟨-, hr⟩ | ⟨_, u, hremove, hr⟩ := Prog.rough_bind disks hr
  · exact hremoved hr
  obtain ⟨-, hr⟩ | ⟨_, w, hrecover, hr⟩ := Prog.rough_bind disks hr
  · exact hrecovers (x := (none, r.2)) (hremoved hremove) hr
  · have hw := hrecovers (hremoved hremove) hrecover
    obtain rfl | rfl := Prog.rough_done disks hr
    · exact hw
    · exact hw

/-- Every state of a whole transaction leads back, or on. -/
theorem rough_transact {change : Option Change} (hs : Settled d) (hsel : selector d = .ok old)
    (hinst : Installed host d p) (hreads : ∀ c, change = some c → Reads host d c) {r : Option ℕ × Disk}
    (hr : Prog.Rough disks (transact host change old p) d r) :
    OneOf host (view d) (newView d change p) r.2 := by
  obtain ⟨hold, hcurrent⟩ := selector_eq_ok hsel
  cases change with
  | none =>
    exact (rough_publish (settled_ready hs hsel) hinst.id_valid (fun _ => hinst) hold hcurrent hr).oneOf hinst
  | some c =>
    have hclean := settled_clean hs hsel
    have hprepared : ∀ {x : Option Bool × Disk}, Prog.Rough disks (prepareInputs host c) d x →
        Clean (view d) x.2 ∧ (x.1 = some true → Ready (view d) (newInputs d (some c)) x.2 ∧
          x.2.generations = d.generations) := by
      intro x hx
      obtain ⟨hI, hend⟩ := Prog.rough_stops disks (Prog.stops_of_fast (fast_prepareInputs c)) hclean
        (safe_prepareInputs host hs hsel (hreads c rfl)) hx
      refine ⟨hI, fun htrue => ?_⟩
      obtain hbad | ⟨-, hready⟩ := hend true htrue
      · cases hbad
      · exact hready
    obtain ⟨-, hr⟩ | ⟨ok, t, hx, hr⟩ := Prog.rough_bind disks hr
    · exact .inl ⟨false, (hprepared hr).1.recoverable⟩
    obtain ⟨ht, hready⟩ := hprepared hx
    have hpublished : ∀ {x : Option ℕ × Disk},
        Prog.Rough disks (if ok then publish host old p else .done 3) t x →
          Decided host (Installed host d p) (view d) (newView d (some c) p) x.2 := by
      intro x hx
      cases ok with
      | false =>
        obtain rfl | rfl := Prog.rough_done disks hx
        · exact ht.recoverable.decided
        · exact ht.recoverable.decided
      | true =>
        obtain ⟨hready, hgen⟩ := hready rfl
        exact rough_publish hready hinst.id_valid (fun h => h.congr hgen) hold hcurrent hx
    obtain ⟨-, hr⟩ | ⟨rc, u, hx, hr⟩ := Prog.rough_bind disks hr
    · exact (hpublished hr).oneOf hinst
    · exact rough_undoImport hinst (hpublished hx) hr

end Rough

/-! ### What stays -/

section Stays

variable {host : Host} {p : Products} {d t u : Disk}

/-- No generation is removed or changed. -/
def Grown (d t : Disk) : Prop := ∀ id dir, d.generations id = some dir → t.generations id = some dir

theorem grown_exec {op : Op} (h : Grown d t) : Grown d (op.exec t).2 := by
  intro id dir hdir
  have ht := h id dir hdir
  cases op <;> simp only [Op.exec] <;> try split
  case install.isTrue name hfree =>
    show Function.update t.generations name _ id = _
    rw [Function.update_of_ne ?_ _ _, ht]
    rintro rfl
    rw [hfree.2] at ht
    cases ht
  all_goals exact ht

theorem grown_torn {c : Call} (ht : Call.Torn c t u) (h : Grown d t) : Grown d u := by
  obtain ⟨region, op⟩ := c
  cases op with
  | write q data =>
    obtain ⟨n, rfl⟩ := ht
    exact grown_exec h
  | _ => exact ht.elim

theorem rough_grown {α : Type} {q : Routine α} {r : Option α × Disk} (hr : Prog.Rough disks q d r) :
    Grown d r.2 :=
  Prog.rough_keeps disks (J := Grown d) (fun _ _ _ h => grown_exec h) (fun _ _ _ _ ht h => grown_torn ht h)
    (Prog.calls_any q) (fun _ _ h => h) hr

theorem Grown.opens (h : Grown d t) {id : Bytes} {g : Generation} (hg : openGeneration host d id = .ok g) :
    openGeneration host t id = .ok g := by
  unfold openGeneration at hg ⊢
  split at hg
  · rename_i dir hdir
    rw [h id dir hdir]
    exact hg
  · cases hg

theorem rough_sameStage {α : Type} {q : Routine α} {r : Option α × Disk}
    (hq : Prog.Calls (fun c => c.op.avoidsStage = true) q) (hr : Prog.Rough disks q d r) : SameStage d r.2 := by
  refine Prog.rough_keeps disks (J := SameStage d) (fun _ _ hc h => sameStage_exec hc h) ?_ hq
    ⟨rfl, rfl, fun _ => rfl⟩ hr
  intro c s t hc ht hs
  obtain ⟨region, op⟩ := c
  cases op with
  | write q data =>
    obtain ⟨n, rfl⟩ := ht
    exact @sameStage_exec (.write q (data.take n)) _ s hc hs
  | _ => exact ht.elim

/-- The root is as it was but for the staged directory and new generations. -/
structure Beside (d t : Disk) : Prop where
  aside : Aside d t
  grown : Grown d t

theorem rough_beside {α : Type} {q : Routine α} {r : Option α × Disk}
    (hq : Prog.Calls (fun c => c.op.aside = true) q) (hr : Prog.Rough disks q d r) : Beside d r.2 := by
  refine ⟨Prog.rough_keeps disks (J := Aside d) (fun _ _ hc h => aside_exec hc h) ?_ hq (fun _ _ => rfl) hr,
    rough_grown hr⟩
  intro c s t hc ht hs
  obtain ⟨region, op⟩ := c
  cases op with
  | write q data =>
    obtain ⟨n, rfl⟩ := ht
    exact @aside_exec (.write q (data.take n)) hc _ s hs
  | _ => exact ht.elim

/-- A call on the staged directory only. -/
def Op.confined : Op → Bool
  | .install _ => false
  | op => op.aside

theorem confined_aside {op : Op} (h : op.confined = true) : op.aside = true := by
  cases op <;> first | exact h | rfl

theorem rough_confined {α : Type} {q : Routine α} (hq : Prog.Calls (fun c => c.op.confined = true) q)
    {r : Option α × Disk} (hr : Prog.Rough disks q d r) : Beside d r.2 ∧ r.2.generations = d.generations := by
  have hexec : ∀ {op : Op} {u : Disk}, op.confined = true → u.generations = d.generations →
      (op.exec u).2.generations = d.generations := by
    intro op u hop hu
    cases op <;> simp only [Op.exec] <;> try split
    case install.isTrue => cases hop
    all_goals exact hu
  refine ⟨rough_beside (Prog.calls_mono (fun _ => confined_aside) hq) hr,
    Prog.rough_keeps disks (J := fun u => u.generations = d.generations) (fun _ _ hc h => hexec hc h) ?_ hq rfl hr⟩
  intro c s t hc ht hs
  obtain ⟨region, op⟩ := c
  cases op with
  | write q data =>
    obtain ⟨n, rfl⟩ := ht
    exact @hexec (.write q (data.take n)) s hc hs
  | _ => exact ht.elim

theorem calls_stage : Prog.Calls (fun c => c.op.confined = true) (stage host p) := by
  have hsave : ∀ {f : Product} {data : Bytes},
      Prog.Calls (fun c => c.op.confined = true) (save .stage (.building f) data) :=
    Prog.calls_both (calls_step rfl) (Prog.calls_both (calls_step rfl) (calls_step rfl))
  exact Prog.calls_both (calls_step rfl) (Prog.calls_both hsave (Prog.calls_both hsave
    (Prog.calls_both hsave (Prog.calls_both hsave (Prog.calls_both (calls_step rfl) fun _ => trivial)))))

theorem calls_discard : Prog.Calls (fun c => c.op.confined = true) discardStage := by
  have hremove : ∀ {f : Product},
      Prog.Calls (fun c => c.op.confined = true) (removeFile .recover (.building f)) := calls_step rfl
  refine Prog.calls_look fun d => ?_
  split
  · exact Prog.calls_bind hremove fun _ => Prog.calls_bind hremove fun _ => Prog.calls_bind hremove
      fun _ => Prog.calls_bind hremove fun _ => Prog.calls_bind (calls_step rfl) fun _ => trivial
  · trivial

theorem calls_install {whole : Bool} : Prog.Calls (fun c => c.op.aside = true) (install host whole p) := by
  refine Prog.calls_look fun d => ?_
  split
  · exact Prog.calls_bind (Prog.calls_both (calls_step rfl) (calls_step rfl)) fun _ => trivial
  · split
    · trivial
    · split
      · exact Prog.calls_bind (calls_step rfl) fun _ => trivial
      · trivial

/-- The generation of `p` is all that is new. -/
def Gains (p : Products) (d t : Disk) : Prop :=
  t.generations = d.generations ∨
    t.generations = Function.update d.generations p.id (some (productDirectory p))

theorem rough_install_gains {whole : Bool} (hstage : stagedFiles t = productDirectory p)
    {r : Option ℕ × Disk} (hr : Prog.Rough disks (install host whole p) t r) : Gains p t r.2 := by
  let J : Disk → Prop := fun u => (u.generations = t.generations ∧ stagedFiles u = stagedFiles t) ∨
    u.generations = Function.update t.generations p.id (some (productDirectory p))
  have hJ : ∀ (c : Call) (u : Disk), c.op = .install p.id ∨ c.op = .fsync → J u → J (c.exec u).2 := by
    rintro ⟨region, op⟩ u (hop | hop) hu
    all_goals
      have hop : op = _ := hop
      subst hop
    · show J (Op.exec u (.install p.id)).2
      simp only [Op.exec]
      split
      · rename_i hfree
        obtain ⟨hgen, hfiles⟩ | hgen := hu
        · right
          show Function.update u.generations p.id (some (stagedFiles u)) = _
          rw [hgen, hfiles, hstage]
        · have hsome := hfree.2
          rw [hgen, Function.update_self] at hsome
          cases hsome
      · exact hu
    · exact hu
  have hcalls : Prog.Calls (fun c : Call => c.op = .install p.id ∨ c.op = .fsync) (install host whole p) := by
    refine Prog.calls_look fun d => ?_
    split
    · exact Prog.calls_bind (Prog.calls_both (calls_step (.inl rfl)) (calls_step (.inr rfl))) fun _ => trivial
    · split
      · trivial
      · split
        · exact Prog.calls_bind (calls_step (.inr rfl)) fun _ => trivial
        · trivial
  have hT : ∀ (c : Call) (u w : Disk), c.op = .install p.id ∨ c.op = .fsync → c.Torn u w → J u → J w := by
    rintro ⟨region, op⟩ u w (hop | hop) ht hu
    all_goals
      have hop : op = _ := hop
      subst hop
      exact ht.elim
  obtain ⟨hgen, -⟩ | hgen := Prog.rough_keeps disks (J := J) hJ hT hcalls (.inl ⟨rfl, rfl⟩) hr
  · exact .inl hgen
  · exact .inr hgen

/-- All generations are among these. -/
def KnownIn (host : Host) (known : Set Generation) (d : Disk) : Prop :=
  ∀ id g, openGeneration host d id = .ok g → g ∈ known

theorem KnownIn.same {known : Set Generation} (h : KnownIn host known d) (hg : t.generations = d.generations) :
    KnownIn host known t := by
  intro id g hopens
  rw [openGeneration_congr host hg] at hopens
  exact h id g hopens

theorem KnownIn.gains {known : Set Generation} (h : KnownIn host known d) (hp : Complete p)
    (hin : p.generation ∈ known) (hg : Gains p d t) : KnownIn host known t := by
  obtain hg | hg := hg
  · exact h.same hg
  intro id g hopens
  by_cases hid : id = p.id
  · subst hid
    have hopens' : openGeneration host t p.id = .ok p.generation := by
      rw [openGeneration, hg, Function.update_self]
      simp only [productDirectory, if_true]
      exact validateDirectory_complete host hp
    rw [hopens] at hopens'
    cases hopens'
    exact hin
  · refine h id g ?_
    unfold openGeneration at hopens ⊢
    rw [hg, Function.update_of_ne hid] at hopens
    exact hopens

theorem Beside.trans (h : Beside d t) (h' : Beside t u) : Beside d u :=
  ⟨fun q hq => (h'.aside q hq).trans (h.aside q hq), fun id dir hdir => h'.grown id dir (h.grown id dir hdir)⟩

/-- What recovery relies on is beside the staged directory. -/
theorem Beside.recoverable (h : Beside d t) {marked : Bool} {v : View} (hd : Recoverable host marked v d) :
    Recoverable host marked v t := by
  have hfiles : ∀ q, notBuilding q = true → t.files q = d.files q := h.aside
  have husable : Usable t := fun e => by
    rw [hfiles _ rfl]
    exact hd.usable e
  have hinputs : AgreeOn inputPath d { t with generations := d.generations } :=
    ⟨fun q hq => hfiles q (by cases q <;> first | rfl | cases hq), rfl⟩
  have hfence : AgreeOn fencePath d { t with generations := d.generations } :=
    ⟨fun q hq => hfiles q (by cases q <;> first | rfl | cases hq), rfl⟩
  have hsame : Recoverable host marked v { t with generations := d.generations } :=
    recoverable_congr hd husable hinputs hfence
  cases hsame with
  | clean usable inputs journal exported marker => exact .clean usable inputs journal exported marker
  | back usable inputs j rolls => exact .back usable inputs j ⟨rolls.1, rolls.2, rolls.3, rolls.4, rolls.5⟩
  | on usable inputs j g rolls marker =>
    refine .on usable inputs j g ⟨rolls.1, rolls.2, rolls.3, ?_, rolls.5, rolls.6, rolls.7⟩ marker
    exact h.grown.opens rolls.opens

end Stays

/-! ### Agreement of inputs, selector and export -/

/-- The inventories that a command may start from: none, that of a snapshot, or that
in the cache of a known generation. -/
inductive Honest (pl : Pipeline) (known : Set Generation) : List Dependency → Prop
  | none : Honest pl known []
  | taken {prior : List Dependency} {inputs : Fin 4 → Option Node} {s : Snapshot} :
      Honest pl known prior → pl.collect prior inputs = .ok s → Honest pl known s.dependencies
  | stored {g : Generation} {deps : List Dependency} :
      g ∈ known → cacheDependencies g.cache = .ok deps → Honest pl known deps

/-- A snapshot that a compile takes. -/
def Pipeline.Collected (pl : Pipeline) (known : Set Generation) (s : Snapshot) : Prop :=
  ∃ prior inputs, Honest pl known prior ∧ pl.collect prior inputs = .ok s

/-- What the inventory of the inputs does not depend on: link counts, and the
inventory of an earlier run; and the overlay takes the inventory that the
replaced inputs have. -/
structure Steady (pl : Pipeline) (known : Set Generation) : Prop where
  plain : ∀ prior a b, (∀ i, (a i).map Node.plain = (b i).map Node.plain) → pl.collect prior a = pl.collect prior b
  prior : ∀ prior prior' a s s', Honest pl known prior → Honest pl known prior' →
    pl.collect prior a = .ok s → pl.collect prior' a = .ok s' →
      dependenciesFingerprint s.dependencies = dependenciesFingerprint s'.dependencies
  overlay : ∀ changes a b prior s s', Honest pl known prior → pl.overlay changes a = .ok s →
    pl.collect prior b = .ok s' →
      (∀ i, match changes i with
        | none => (b i).map Node.plain = (a i).map Node.plain
        | some data => ∃ mode, b i = some (.file data mode 1)) →
      dependenciesFingerprint s.dependencies = dependenciesFingerprint s'.dependencies

/-- The generations that are ever made are known, and their scripts have digests of
their own. -/
structure Distinct (pl : Pipeline) (known : Set Generation) : Prop where
  made : ∀ s p, (pl.Collected known s ∨ ∃ changes inputs, pl.overlay changes inputs = .ok s) →
    pl.build s = .ok p → p.generation ∈ known
  injective : ∀ g ∈ known, ∀ g' ∈ known, digest g.sieve = digest g'.sieve → g.sieve = g'.sieve

/-- The selected generation is the one the inputs give, and the export is its script. -/
structure InStep (pl : Pipeline) (host : Host) (known : Set Generation) (d : Disk) (v : View) (g : Generation) :
    Prop where
  current : v.current = some (.link (selectorTarget g.id))
  opens : openGeneration host d g.id = .ok g
  exported : v.exported = savedFile g.sieve
  inputs : ∀ prior s fingerprint, Honest pl known prior → pl.collect prior v.inputs = .ok s →
    dependenciesFingerprint s.dependencies = .ok fingerprint → digestHex fingerprint = g.id

/-- Nothing is selected yet, or they agree. -/
def Consistent (pl : Pipeline) (host : Host) (known : Set Generation) (d : Disk) (v : View) : Prop :=
  v.current = none ∨ ∃ g, InStep pl host known d v g

/-- Recovery would bring back a consistent view, and every generation is a known one. -/
structure Coherent (pl : Pipeline) (host : Host) (known : Set Generation) (d : Disk) : Prop where
  shows : ∃ v marked, Recoverable host marked v d ∧ Consistent pl host known d v
  known_in : KnownIn host known d

section Sections

variable {pl : Pipeline} {host : Host} {known : Set Generation} {p : Products} {old : Bytes} {d t u : Disk}

theorem InStep.grown {v : View} {g : Generation} (h : InStep pl host known d v g) (hg : Grown d t) :
    InStep pl host known t v g := ⟨h.current, hg.opens h.opens, h.exported, h.inputs⟩

theorem Consistent.grown {v : View} (h : Consistent pl host known d v) (hg : Grown d t) : Consistent pl host known t v := by
  obtain hnone | ⟨g, hstep⟩ := h
  · exact .inl hnone
  · exact .inr ⟨g, hstep.grown hg⟩

theorem Coherent.beside (h : Coherent pl host known d) (hb : Beside d t) (hs : KnownIn host known t) :
    Coherent pl host known t := by
  obtain ⟨v, marked, hd, hconsistent⟩ := h.shows
  exact ⟨⟨v, marked, hb.recoverable hd, hconsistent.grown hb.grown⟩, hs⟩

theorem Coherent.confined {α : Type} {q : Routine α} (h : Coherent pl host known d)
    (hq : Prog.Calls (fun c => c.op.confined = true) q) {r : Option α × Disk} (hr : Prog.Rough disks q d r) :
    Coherent pl host known r.2 := by
  obtain ⟨hbeside, hgen⟩ := rough_confined hq hr
  exact h.beside hbeside (h.known_in.same hgen)

theorem Coherent.installs {whole : Bool} (h : Coherent pl host known d) (hp : Complete p) (hin : p.generation ∈ known)
    (hstage : stagedFiles d = productDirectory p) {r : Option ℕ × Disk}
    (hr : Prog.Rough disks (install host whole p) d r) : Coherent pl host known r.2 :=
  h.beside (rough_beside calls_install hr) (h.known_in.gains hp hin (rough_install_gains hstage hr))

theorem Node.plain_plain (n : Option Node) : (n.map Node.plain).map Node.plain = n.map Node.plain := by
  cases n with
  | none => rfl
  | some n => cases n <;> rfl

/-- A generation that is in place with its script, and inputs that give its ID. -/
theorem agrees_new {change : Option Change} (hinst : Installed host d p)
    (hid : ∀ prior s fingerprint, Honest pl known prior → pl.collect prior (newInputs d change) = .ok s →
      dependenciesFingerprint s.dependencies = .ok fingerprint → digestHex fingerprint = p.id) :
    ∃ g, InStep pl host known d (newView d change p) g := by
  obtain ⟨-, ⟨g, hopens, hsieve⟩, -⟩ := hinst
  have hgid : g.id = p.id := openGeneration_id hopens
  refine ⟨g, ?_, ?_, ?_, ?_⟩
  · rw [hgid]
    rfl
  · rw [hgid]
    exact hopens
  · rw [hsieve]
    rfl
  · rw [hgid]
    exact hid

/-- What a transaction leaves, whatever failed in it, agrees if both its sides do. -/
theorem OneOf.coherent {change : Option Change} (h : OneOf host (view d) (newView d change p) t)
    (hg : Grown d t) (hs : KnownIn host known t) (hold : Consistent pl host known d (view d))
    (hnew : ∃ g, InStep pl host known d (newView d change p) g) : Coherent pl host known t := by
  obtain ⟨marked, ht⟩ | ⟨marked, ht⟩ := h
  · exact ⟨⟨_, marked, ht, hold.grown hg⟩, hs⟩
  · obtain ⟨g, hstep⟩ := hnew
    exact ⟨⟨_, marked, ht, .inr ⟨g, hstep.grown hg⟩⟩, hs⟩

theorem rough_publishIfNeeded (hs : Settled d) (hknown : KnownIn host known d) (hsel : selector d = .ok old)
    (hinst : Installed host d p) (hold : Consistent pl host known d (view d))
    (hnew : ∃ g, InStep pl host known d (newView d none p) g) {r : Option ℕ × Disk}
    (hr : Prog.Rough disks (publishIfNeeded host old p) d r) : Coherent pl host known r.2 := by
  have hpublish : ∀ {x : Option ℕ × Disk}, Prog.Rough disks (publish host old p) d x → Coherent pl host known x.2 :=
    fun hx => (@rough_transact host p old d none hs hsel hinst (fun _ hc => by cases hc) _ hx).coherent
      (rough_grown hx) (hknown.same (rough_sameStage (calls_publish (fun _ ho => ho) fun _ ho => ho) hx).generations)
      hold hnew
  have hr := Prog.rough_look disks hr
  split at hr
  · split at hr
    · exact hpublish hr
    · have hsame : Coherent pl host known d :=
        ⟨⟨_, false, settled_recoverable hs rfl (selector_not_other hsel), hold⟩, hknown⟩
      obtain rfl | rfl := Prog.rough_done disks hr
      · exact hsame
      · exact hsame
  · exact hpublish hr

theorem validateMeta_sieve {zsh : Option Bytes} {i : ℕ} {w w' : Walk} {f : List Bytes} {sieve : Bytes}
    (h : validateMeta zsh (some sieve) i w f = some w') : digest sieve = f.getD 6 [] := by
  simp only [validateMeta] at h
  split at h
  · cases h
  · split at h
    · cases h
    · rename_i hdigests
      rw [not_or] at hdigests
      by_contra hne
      exact hdigests.2 ⟨sieve, rfl, hne⟩

/-- The first record of an accepted cache holds the digest of the script. -/
theorem cacheValidate_sieve {data zsh sieve : Bytes} (h : cacheValidate data (some zsh) (some sieve) none = .ok ()) :
    ∃ r rest, readRecord validArity (data.drop 92) = some (r, rest) ∧ digest sieve = r.fields.getD 6 [] := by
  simp only [cacheValidate] at h
  split at h
  · cases h
  split at h
  · cases h
  rename_i hcount
  obtain ⟨n, hn⟩ : ∃ n, recordCount data = n + 1 := ⟨recordCount data - 1, by omega⟩
  split at h
  · cases h
  rename_i w rest hloop
  rw [hn, validateLoop] at hloop
  split at hloop
  · cases hloop
  rename_i r s hread
  refine ⟨r, s, hread, ?_⟩
  split at hloop
  · cases hloop
  rename_i w' hrecord
  -- Dependencies and rules are refused before the meta record.
  simp only [validateRecord] at hrecord
  split at hrecord
  · cases hrecord
  split at hrecord
  · exact validateMeta_sieve hrecord
  split at hrecord
  · simp [validateDependency, startWalk] at hrecord
  · simp only [validateRule] at hrecord
    split at hrecord
    · simp [startWalk] at hrecord
    · cases hrecord

/-- One cache has known of one digest. -/
theorem same_digest {data zsh sieve zsh' sieve' : Bytes}
    (h : cacheValidate data (some zsh) (some sieve) none = .ok ())
    (h' : cacheValidate data (some zsh') (some sieve') none = .ok ()) : digest sieve = digest sieve' := by
  obtain ⟨r, rest, hread, hr⟩ := cacheValidate_sieve h
  obtain ⟨r', rest', hread', hr'⟩ := cacheValidate_sieve h'
  rw [hread] at hread'
  cases hread'
  rw [hr, hr']

theorem openGeneration_valid {id : Bytes} {g : Generation} (h : openGeneration host d id = .ok g) :
    cacheValidate g.cache (some g.zsh) (some g.sieve) none = .ok () := by
  unfold openGeneration at h
  split at h
  · split at h
    · unfold validateDirectory at h
      split at h
      · cases h
      obtain ⟨cache, _, h⟩ := bind_eq_ok_iff.mp h
      obtain ⟨zsh, _, h⟩ := bind_eq_ok_iff.mp h
      obtain ⟨sieve, _, h⟩ := bind_eq_ok_iff.mp h
      obtain ⟨actual, _, h⟩ := bind_eq_ok_iff.mp h
      obtain ⟨⟨⟩, hvalid, h⟩ := bind_eq_ok_iff.mp h
      dsimp only at h
      split at h
      · cases h
      · cases h
        exact mapError_eq_ok_iff.mp hvalid
    · cases h
  · cases h

/-- An installation that reports success has the products in their place. -/
theorem rough_install {whole : Bool} (hp : Complete p) (hstage : stagedFiles t = productDirectory p)
    (hdistinct : Distinct pl known) (hin : p.generation ∈ known) (hknown : KnownIn host known t)
    {r : Option ℕ × Disk}
    (hr : Prog.Rough disks (install host whole p) t r) (h0 : r.1 = some 0) : Installed host r.2 p := by
  have hstatus : ∀ {q : Routine Bool} {x : Option ℕ × Disk}, Prog.Fast q → Prog.Rough disks (status q) t x →
      x.1 = some 0 → Prog.run disks q t = (true, x.2) := by
    intro q x hq hx h0
    obtain ⟨hnone, -⟩ | ⟨ok, u, hok, hx⟩ := Prog.rough_bind disks hx
    · rw [hnone] at h0
      cases h0
    obtain rfl | rfl := Prog.rough_done disks hx
    · cases h0
    cases ok with
    | true => exact Prog.rough_fast_true disks hq hok rfl
    | false => cases h0
  have hr := Prog.rough_look disks hr
  split at hr
  · have hrun := hstatus (Prog.fast_both (fast_step _) (fast_step _)) hr h0
    by_cases hfree : t.staged = true ∧ t.generations p.id = none
    · have hexec : Prog.run disks (step .install (.install p.id)) t = (true, (Op.exec t (.install p.id)).2) := by
        show Op.exec t (.install p.id) = _
        simp only [Op.exec, if_pos hfree]
      rw [run_both_true hexec, run_fsync, Prod.mk.injEq] at hrun
      rw [← hrun.2]
      refine installed_complete hp ?_
      simp only [Op.exec, if_pos hfree, Function.update_self, hstage]
    · have hexec : Prog.run disks (step .install (.install p.id)) t = (false, t) := by
        show Op.exec t (.install p.id) = _
        simp only [Op.exec, if_neg hfree]
      rw [Prog.both, Prog.run_bind, hexec] at hrun
      cases hrun
  · split at hr
    · rename_i rc hrc
      obtain rfl | rfl := Prog.rough_done disks hr
      · cases h0
      · cases h0
        exact (openGeneration_raises _ _ hrc rfl).elim
    · rename_i g hg
      split at hr
      · rename_i hsame
        have hrun := hstatus (fast_step _) hr h0
        rw [run_fsync, Prod.mk.injEq] at hrun
        rw [← hrun.2]
        refine ⟨hp.id_valid, ⟨g, hg, ?_⟩, hp.sieve_size⟩
        simp only [sameProducts, Bool.and_eq_true, beq_iff_eq] at hsame
        cases whole with
        | true =>
          have hboth : g.zsh = p.zsh ∧ g.sieve = p.sieve := by simpa using hsame.2
          exact hboth.2
        | false =>
          have hvalid := openGeneration_valid hg
          rw [hsame.1] at hvalid
          exact hdistinct.injective g (hknown _ g hg) _ hin (same_digest hvalid hp.valid)
      · obtain rfl | rfl := Prog.rough_done disks hr
        · cases h0
        · cases h0

theorem stagedFiles_same {u w : Disk} (h : SameStage u w) : stagedFiles w = stagedFiles u := by
  simp only [stagedFiles, h.building]

/-- A recovery that reports success shows what agrees. -/
theorem Coherent.recovered (h : Coherent pl host known t) {r : Option ℕ × Disk}
    (hr : Prog.Rough disks (recover host) t r) :
    Coherent pl host known r.2 ∧ SameStage t r.2 ∧
      (r.1 = some 0 → Settled r.2 ∧ Consistent pl host known r.2 (view r.2)) := by
  obtain ⟨v, marked, ht, hconsistent⟩ := h.shows
  obtain ⟨hI, hend⟩ := rough_recover ht hr
  have hgrown := rough_grown hr
  have hsame := rough_sameStage (calls_recover _ fun _ ho => ho) hr
  refine ⟨⟨⟨v, marked, hI, hconsistent.grown hgrown⟩, h.known_in.same hsame.generations⟩, hsame, fun h0 => ?_⟩
  obtain ⟨hsettled, hview⟩ := hend h0
  rw [hview]
  exact ⟨hsettled, hconsistent.grown hgrown⟩

theorem Beside.selector (h : Beside d t) : selector t = selector d := h.aside.selector

theorem Beside.inputs (h : Beside d t) : inputsOf t = inputsOf d := funext fun i => h.aside (.input i) rfl

theorem Pipeline.Collected.honest {s : Snapshot} (h : pl.Collected known s) : Honest pl known s.dependencies := by
  obtain ⟨_, _, hprior, hs⟩ := h
  exact .taken hprior hs

/-- The exclusive section of a compile, whatever has happened since its snapshot. -/
theorem rough_publishSection (hpl : Steady pl known) (hdistinct : Distinct pl known) {s : Snapshot}
    {fingerprint : Bytes} (htaken : pl.Collected known s) (hbuild : pl.build s = .ok p)
    (hf : dependenciesFingerprint s.dependencies = .ok fingerprint) (hstage : stagedFiles t = productDirectory p)
    (h : Coherent pl host known t) {r : Option Attempt × Disk}
    (hr : Prog.Rough disks (publishSection pl host s fingerprint p) t r) : Coherent pl host known r.2 := by
  have hcomplete := complete_of_pipeline hbuild
  have hin := hdistinct.made s p (.inl htaken) hbuild
  obtain ⟨-, hkilled⟩ | ⟨rc, u, hrecover, hrest⟩ := Prog.rough_bind disks hr
  · exact (h.recovered hkilled).1
  obtain ⟨hu, hsame, hend⟩ := h.recovered hrecover
  have hstays : ∀ {x : Attempt}, Prog.Rough disks (.done x) u r → Coherent pl host known r.2 := by
    intro x hx
    obtain rfl | rfl := Prog.rough_done disks hx
    · exact hu
    · exact hu
  by_cases hrc : rc = 0
  swap
  · rw [if_pos hrc] at hrest
    exact hstays hrest
  subst hrc
  obtain ⟨hs, hconsistent⟩ := hend rfl
  rw [if_neg (not_not.mpr rfl)] at hrest
  replace hrest := Prog.rough_look disks hrest
  split at hrest
  · exact hstays hrest
  rename_i recheck hrecheck
  split at hrest
  · exact hstays hrest
  rename_i found hfound
  split at hrest
  · exact hstays hrest
  rename_i hequal
  rw [not_not] at hequal
  subst hequal
  split at hrest
  · exact hstays hrest
  rename_i old hsel
  have hstaged : stagedFiles u = productDirectory p := (stagedFiles_same hsame).trans hstage
  obtain ⟨-, hrest⟩ | ⟨rc, w, hx, hrest⟩ := Prog.rough_bind disks hrest
  · exact hu.installs (r := (none, r.2)) hcomplete hin hstaged hrest
  have hbeside : Beside u w := rough_beside calls_install hx
  have hw : Coherent pl host known w := hu.installs hcomplete hin hstaged hx
  split at hrest
  · obtain rfl | rfl := Prog.rough_done disks hrest
    · exact hw
    · exact hw
  rename_i hrc
  obtain rfl : rc = 0 := by simpa using hrc
  have hinst : Installed host w p := rough_install hcomplete hstaged hdistinct hin hu.known_in hx rfl
  have hold : Consistent pl host known w (view w) := by
    rw [hbeside.aside.view]
    exact hconsistent.grown hbeside.grown
  have hnew : ∃ g, InStep pl host known w (newView w none p) g := by
    refine agrees_new hinst fun prior s' fingerprint' hhonest hs' hf' => ?_
    -- The inventory was looked at under the same lock.
    have hplain : pl.collect prior (newInputs w none) = pl.collect prior (inputsOf u) := by
      apply hpl.plain
      intro i
      show (shown w (.input i)).map Node.plain = _
      rw [shown, Node.plain_plain]
      exact congrArg (Option.map Node.plain) (congrFun hbeside.inputs i)
    rw [hplain] at hs'
    have hprior := hpl.prior _ _ _ _ _ hhonest htaken.honest hs' hrecheck
    rw [hf', hfound] at hprior
    cases hprior
    obtain ⟨fingerprint, hfingerprint, hid⟩ := build_fingerprint hbuild
    rw [hf] at hfingerprint
    cases hfingerprint
    exact hid
  have hselw := hbeside.selector.trans hsel
  have hpublished : ∀ {x : Option ℕ × Disk}, Prog.Rough disks (publishIfNeeded host old p) w x →
      Coherent pl host known x.2 :=
    fun hx => rough_publishIfNeeded (hbeside.aside.settled hs) hw.known_in hselw hinst hold hnew hx
  obtain ⟨-, hrest⟩ | ⟨rc, z, hx, hrest⟩ := Prog.rough_bind disks hrest
  · exact hpublished hrest
  · have hz := hpublished hx
    obtain rfl | rfl := Prog.rough_done disks hrest
    · exact hz
    · exact hz

/-- An attempt that is given up starts the next from an inventory of its own. -/
theorem publishSection_again {s : Snapshot} {fingerprint : Bytes} (htaken : pl.Collected known s)
    {prior : List Dependency} (hr : Prog.Rough disks (publishSection pl host s fingerprint p) t
      (some (.again prior), u)) : Honest pl known prior := by
  have hdone : ∀ {x : Attempt} {w : Disk}, Prog.Rough disks (.done x) w (some (.again prior), u) →
      x = .again prior := by
    intro x w hx
    obtain hx | hx := Prog.rough_done disks hx
    · cases hx
    · cases hx
      rfl
  have hfail : ∀ {rc : ℕ} {w : Disk},
      ¬Prog.Rough disks (.done (Attempt.fail rc)) w (some (Attempt.again prior), u) :=
    fun hx => (by cases hdone hx)
  obtain ⟨hnone, -⟩ | ⟨rc, w, -, hrest⟩ := Prog.rough_bind disks hr
  · cases hnone
  clear hr
  split at hrest
  · exact (hfail hrest).elim
  replace hrest := Prog.rough_look disks hrest
  split at hrest
  · split at hrest
    · cases hdone hrest
      exact htaken.honest
    · exact (hfail hrest).elim
  rename_i recheck hrecheck
  split at hrest
  · exact (hfail hrest).elim
  split at hrest
  · cases hdone hrest
    exact .taken htaken.honest hrecheck
  split at hrest
  · exact (hfail hrest).elim
  obtain ⟨hnone, -⟩ | ⟨rc, z, -, hrest⟩ := Prog.rough_bind disks hrest
  · cases hnone
  split at hrest
  · exact (hfail hrest).elim
  obtain ⟨hnone, -⟩ | ⟨rc, y, -, hrest⟩ := Prog.rough_bind disks hrest
  · cases hnone
  · have hx := hdone hrest
    split at hx
    · cases hx
    · cases hx

theorem plan_overlay {plan : Plan} (h : planImport pl host d = .ok plan) :
    ∃ after, pl.overlay (fun i => if plan.change.changed i then some (plan.change.output i) else none)
      (inputsOf d) = .ok after ∧ pl.build after = .ok plan.products := by
  obtain ⟨before, _, h⟩ := bind_eq_ok_iff.mp h
  obtain ⟨current, _, h⟩ := bind_eq_ok_iff.mp h
  obtain ⟨imported, _, h⟩ := bind_eq_ok_iff.mp h
  obtain ⟨reads, _, h⟩ := bind_eq_ok_iff.mp h
  obtain ⟨output, _, h⟩ := bind_eq_ok_iff.mp h
  obtain ⟨after, hafter, h⟩ := bind_eq_ok_iff.mp h
  obtain ⟨products, hproducts, h⟩ := bind_eq_ok_iff.mp h
  obtain ⟨fingerprint, _, h⟩ := bind_eq_ok_iff.mp h
  obtain ⟨recheck, _, h⟩ := bind_eq_ok_iff.mp h
  obtain ⟨found, _, h⟩ := bind_eq_ok_iff.mp h
  split at h
  · cases h
  · obtain ⟨old, _, h⟩ := bind_eq_ok_iff.mp h
    cases h
    exact ⟨after, hafter, hproducts⟩

/-- The same root, and an import that recovers `imported`. -/
abbrev Pipeline.importing (pl : Pipeline) (imported : Profile → Except ℕ Policy) : Pipeline := { pl with imported }

/-- An import whose products are in place may publish. -/
theorem plan_agrees (hpl : Steady pl known) {imported : Profile → Except ℕ Policy} {plan : Plan}
    (h : planImport (pl.importing imported) host d = .ok plan)
    (hbeside : ∀ i, shown t (.input i) = shown d (.input i)) (hinst : Installed host t plan.products)
    {change : Option Change}
    (hchange : change = some plan.change ∨ change = none ∧ ∀ i, plan.change.changed i = false) :
    ∃ g, InStep pl host known t (newView t change plan.products) g := by
  refine agrees_new hinst fun prior s fingerprint hhonest hs hf => ?_
  obtain ⟨after, hafter, hbuild⟩ := plan_overlay h
  have hsame := hpl.overlay _ _ _ _ _ _ hhonest hafter hs ?_
  · obtain ⟨fingerprint', hfingerprint, hid⟩ := build_fingerprint hbuild
    rw [hfingerprint, hf] at hsame
    cases hsame
    exact hid
  · intro i
    have hshown : (shown t (.input i)).map Node.plain = (inputsOf d i).map Node.plain := by
      rw [hbeside, shown, Node.plain_plain]
      rfl
    obtain rfl | ⟨rfl, hnone⟩ := hchange
    · cases hc : plan.change.changed i with
      | true =>
        simp only [if_true]
        exact ⟨plan.change.modes i, by simp only [newInputs, hc, if_true]⟩
      | false =>
        simp only [Bool.false_eq_true, if_false]
        rw [← hshown]
        simp only [newInputs, hc, Bool.false_eq_true, if_false]
    · simp only [hnone i, Bool.false_eq_true, if_false]
      exact hshown

/-- The whole import, under one lock. -/
theorem rough_compileImport (hpl : Steady pl known) (hdistinct : Distinct pl known)
    (h : Coherent pl host known t) {imported : Profile → Except ℕ Policy} {r : Option (Except ℕ Bytes) × Disk}
    (hr : Prog.Rough disks (compileImport (pl.importing imported) host) t r) : Coherent pl host known r.2 := by
  obtain ⟨-, hkilled⟩ | ⟨rc, u, hrecover, hrest⟩ := Prog.rough_bind disks hr
  · exact (h.recovered hkilled).1
  obtain ⟨hu, hsame, hend⟩ := h.recovered hrecover
  have hstays : ∀ {w : Disk} {x : Except ℕ Bytes}, Coherent pl host known w → Prog.Rough disks (.done x) w r →
      Coherent pl host known r.2 := by
    intro w x hw hx
    obtain rfl | rfl := Prog.rough_done disks hx
    · exact hw
    · exact hw
  by_cases hrc : rc = 0
  swap
  · rw [if_pos hrc] at hrest
    exact hstays hu hrest
  subst hrc
  obtain ⟨hs, hconsistent⟩ := hend rfl
  rw [if_neg (not_not.mpr rfl)] at hrest
  replace hrest := Prog.rough_look disks hrest
  split at hrest
  · exact hstays hu hrest
  rename_i plan hplan
  obtain ⟨hcomplete, hsel, hreads⟩ := planImport_ok hplan
  obtain ⟨after, hafter, hbuild⟩ := plan_overlay hplan
  have hin := hdistinct.made after plan.products (.inr ⟨_, _, hafter⟩) hbuild
  obtain ⟨-, hrest⟩ | ⟨ok, w, hx, hrest⟩ := Prog.rough_bind disks hrest
  · exact hu.confined (r := (none, r.2)) calls_stage hrest
  have hbeside : Beside u w := (rough_confined calls_stage hx).1
  have hw : Coherent pl host known w := hu.confined calls_stage hx
  have hsection : ∀ {x : Option ℕ × Disk},
      Prog.Rough disks (if ok then importSection (pl.importing imported) host plan else .done 3) w x →
        Coherent pl host known x.2 := by
    intro x hx'
    cases ok with
    | false =>
      obtain rfl | rfl := Prog.rough_done disks hx'
      · exact hw
      · exact hw
    | true =>
      have hrun := Prog.rough_fast_true disks (fast_stage plan.products) hx rfl
      rw [run_stage hcomplete, Prod.mk.injEq] at hrun
      obtain ⟨-, rfl⟩ := hrun
      rw [if_pos rfl] at hx'
      obtain ⟨-, hx'⟩ | ⟨rc, z, hinstall, hx'⟩ := Prog.rough_bind disks hx'
      · exact hw.installs (r := (none, x.2)) hcomplete hin rfl hx'
      have hz := hbeside.trans (rough_beside calls_install hinstall)
      have hzc : Coherent pl host known z := hw.installs hcomplete hin rfl hinstall
      split at hx'
      · obtain rfl | rfl := Prog.rough_done disks hx'
        · exact hzc
        · exact hzc
      rename_i hrc
      obtain rfl : rc = 0 := by simpa using hrc
      have hinst : Installed host z plan.products :=
        rough_install hcomplete rfl hdistinct hin hw.known_in hinstall rfl
      have hx' := Prog.rough_look disks hx'
      split at hx'
      · obtain rfl | rfl := Prog.rough_done disks hx'
        · exact hzc
        · exact hzc
      have hshown : ∀ i, shown z (.input i) = shown u (.input i) := fun i => by
        rw [shown, shown, hz.aside _ rfl]
      have hold : Consistent pl host known z (view z) := by
        rw [hz.aside.view]
        exact hconsistent.grown hz.grown
      have hsettled := hz.aside.settled hs
      have hselz := hz.selector.trans hsel
      split at hx'
      · exact (rough_transact hsettled hselz hinst (fun c hc => by
          cases hc
          exact hreads.congr hz.aside.view) hx').coherent (rough_grown hx')
            (hzc.known_in.same (rough_sameStage (calls_transact fun _ _ ho => ho) hx').generations) hold
            (plan_agrees hpl hplan hshown hinst (.inl rfl))
      · rename_i hnone
        refine rough_publishIfNeeded hsettled hzc.known_in hselz hinst hold ?_ hx'
        refine plan_agrees hpl hplan hshown hinst (.inr ⟨rfl, fun i => ?_⟩)
        cases hc : plan.change.changed i with
        | true => exact (hnone ⟨i, hc⟩).elim
        | false => rfl
  obtain ⟨-, hrest⟩ | ⟨rc, z, hx, hrest⟩ := Prog.rough_bind disks hrest
  · exact hsection hrest
  have hz := hsection hx
  obtain ⟨-, hrest⟩ | ⟨_, y, hx, hrest⟩ := Prog.rough_bind disks hrest
  · exact hz.confined (r := (none, r.2)) calls_discard hrest
  · exact hstays (hz.confined calls_discard hx) hrest

end Sections

end JaroFilter
