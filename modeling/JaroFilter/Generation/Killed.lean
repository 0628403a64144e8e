import JaroFilter.Generation.Repair

/-!
# What a killed transaction comes to (`generation.c:239-283`, `415-482`)

Recovery and readers after crashes anywhere, and a publication that is killed
behind the rename of the export, on three small roots.
-/

namespace JaroFilter

open Lib

/-! ### Recovery and readers -/

/-- Whatever was killed where, one recovery shows the old view or the new one, by the
marker at the first crash, and leaves no transaction file. -/
theorem recovery_after_crashes (host : Host) (change : Option Change) (old : Bytes) (p : Products)
    {d t u : Disk} (h : Begins host change old p d) (hc : Crashed host change old p d t u) :
    (Prog.run disks (recover host) u).1 = 0 ∧ Settled (Prog.run disks (recover host) u).2 ∧
      view (Prog.run disks (recover host) u).2 =
        if t.files (.engine .committed) ≠ none then newView d change p else view d := by
  obtain ⟨marked, hu⟩ := hc.recoverable h
  exact hu.run

/-! ### Behind the rename of the export -/

section Killed

variable {host : Host} {d : Disk} {p : Products}

/-- A publication can be killed where the export is the new script and the marker is missing. -/
theorem crash_publish {v : View} {news : Fin 4 → Option Node} {old : Bytes} (h : Ready v news d)
    (hid : validId p.id = true) (hold : old = [] ∨ validId old = true)
    (hsel : v.current = selectorNode old)
    (hprepared : (Prog.run disks (publishPrepare host old p) d).1 = true) :
    ∃ u t, Prog.run disks (publishPrepare host old p) d = (true, u) ∧
      t = (u.set .filtersSieve (savedFile p.sieve)).set (.engine .exportNext) none ∧
      u.files (.engine .committed) = none ∧ Prog.Crash disks (publish host old p) d t := by
  have hpost := Prog.safe_run disks (safe_publishPrepare host p h hold hid hsel)
  generalize hran : Prog.run disks (publishPrepare host old p) d = ran at hpost hprepared
  obtain ⟨ok, u⟩ := ran
  dsimp only at hpost hprepared
  subst hprepared
  obtain ⟨⟨j, hj⟩, -⟩ := hpost
  have hrename : Prog.run disks (step .publish (.rename (.engine .exportNext) .filtersSieve)) u =
      (true, (u.set .filtersSieve (savedFile p.sieve)).set (.engine .exportNext) none) := by
    show (Op.rename _ _).exec _ = _
    rw [Op.exec, if_neg, hj.exportNext]
    rw [hj.exportNext, not_or]
    exact ⟨by simp [savedFile], hj.rolls.replaceable⟩
  have hcommit : Prog.Crash disks (publishCommit p) u
      ((u.set .filtersSieve (savedFile p.sieve)).set (.engine .exportNext) none) := by
    have hcrash := Prog.crash_run disks (step .publish (.rename (.engine .exportNext) .filtersSieve)) u
    rw [hrename] at hcrash
    exact Prog.crash_left disks hcrash
  refine ⟨u, _, rfl, rfl, hj.rolls.committed, ?_⟩
  apply Prog.crash_bind
  rw [hran]
  dsimp only
  rw [if_pos rfl]
  exact Prog.crash_left disks hcommit

/-- A root with one generation and an old export. -/
def exportedRoot (p : Products) (n : Option Node) : Disk := (bareRoot p).set .filtersSieve n

theorem begins_exportedRoot (h : Complete p) (n : Option Node) :
    Begins host none [] p (exportedRoot p n) := by
  refine ⟨fun e _ => rfl, rfl, installed_complete h ?_, fun _ hc => nomatch hc⟩
  simp [exportedRoot, bareRoot]

/-- The first publication on such a root, killed behind the rename. -/
theorem crash_exportedRoot (h : Complete p) {n : Option Node} (hn : Replaceable host n) :
    ∃ u t, Prog.run disks (publishPrepare host [] p) (exportedRoot p n) = (true, u) ∧
      t = (u.set .filtersSieve (savedFile p.sieve)).set (.engine .exportNext) none ∧
      t.files (.engine .committed) = none ∧
      Prog.Crash disks (transact host none [] p) (exportedRoot p n) t := by
  have hbegins := @begins_exportedRoot host p h n
  have hfile : (exportedRoot p n).files .filtersSieve = n := Disk.set_self ..
  have hprepared := @run_publishPrepare host _ p hbegins.settled (hfile.symm ▸ hn) []
  obtain ⟨u, t, hu, rfl, hmarker, hcrash⟩ := crash_publish (settled_ready hbegins.settled hbegins.selector)
    h.id_valid (Or.inl rfl) (selector_eq_ok hbegins.selector).2 hprepared
  refine ⟨u, _, hu, rfl, ?_, hcrash⟩
  rw [Disk.set_of_ne _ _ (by simp), Disk.set_of_ne _ _ (by simp), hmarker]

/-- What recovery makes of it. -/
theorem recovered_exportedRoot (h : Complete p) {n : Option Node} {t : Disk}
    (hmarker : t.files (.engine .committed) = none)
    (hcrash : Prog.Crash disks (transact host none [] p) (exportedRoot p n) t) :
    Settled (Prog.run disks (recover host) t).2 ∧
      view (Prog.run disks (recover host) t).2 = view (exportedRoot p n) := by
  obtain ⟨marked, hrecoverable⟩ :=
    Crashed.recoverable (begins_exportedRoot h n) (Crashed.first hcrash)
  rw [if_neg (by simp [hmarker])] at hrecoverable
  exact hrecoverable.run.2

end Killed

/-- The first publication is killed with the new export in place: recovery takes it away. -/
theorem recovery_after_crashes_sample : ∃ p t, Begins ownerHost none [] p (exportedRoot p none) ∧
    Prog.Crash disks (transact ownerHost none [] p) (exportedRoot p none) t ∧
    t.files .filtersSieve = savedFile p.sieve ∧ t.files (.engine .committed) = none ∧
    (Prog.run disks (recover ownerHost) t).1 = 0 ∧ Settled (Prog.run disks (recover ownerHost) t).2 ∧
    view (Prog.run disks (recover ownerHost) t).2 = view (exportedRoot p none) := by
  obtain ⟨p, hbuild⟩ := exists_eq_ok productsBuild_sample_isOk
  have hcomplete := complete_of_build hbuild
  obtain ⟨u, t, -, rfl, hmarker, hcrash⟩ := @crash_exportedRoot ownerHost p hcomplete none (Or.inl rfl)
  have hbegins := @begins_exportedRoot ownerHost p hcomplete none
  obtain ⟨hrc, hsettled, hview⟩ := recovery_after_crashes ownerHost none [] p hbegins (.first hcrash)
  rw [if_neg (by simp [hmarker])] at hview
  refine ⟨p, _, hbegins, hcrash, ?_, hmarker, hrc, hsettled, hview⟩
  rw [Disk.set_of_ne _ _ (by simp), Disk.set_self]

/-! ### Special bits -/

/-- The files at these names have no special bits. -/
def Unmarked (s : Path → Bool) (d : Disk) : Prop :=
  ∀ q, s q = true → ∀ data mode links, d.files q = some (.file data mode links) → mode.special.val = 0

section Special

variable {s : Path → Bool} {d : Disk}

theorem Unmarked.set (h : Unmarked s d) (q : Path) {n : Option Node}
    (hn : ∀ data mode links, n = some (.file data mode links) → mode.special.val = 0) :
    Unmarked s (d.set q n) := by
  intro r hr data mode links hfile
  by_cases heq : r = q
  · subst heq
    rw [Disk.set_self] at hfile
    exact hn data mode links hfile
  · rw [Disk.set_of_ne d n heq] at hfile
    exact h r hr data mode links hfile

/-- No call makes a special bit. -/
theorem unmarked_exec {op : Op} (hop : op.within s = true) (h : Unmarked s d) :
    Unmarked s (op.exec d).2 := by
  cases op with
  | create q =>
    simp only [Op.exec]
    split
    · refine h.set q fun data mode links heq => ?_
      cases heq
      rfl
    · exact h
  | write q data =>
    simp only [Op.exec]
    split
    · rename_i old mode links hfile
      refine h.set q fun data' mode' links' heq => ?_
      cases heq
      exact h q hop old mode links hfile
    · exact h
  | fsync => exact h
  | fchmod q mode =>
    simp only [Op.exec]
    split
    · refine h.set q fun data' mode' links' heq => ?_
      cases heq
      rfl
    · exact h
  | rename q r =>
    simp only [Op.within, Bool.and_eq_true] at hop
    simp only [Op.exec]
    split
    · exact h
    · exact (h.set r fun data mode links heq => h q hop.1 data mode links heq).set q
        fun _ _ _ heq => (by cases heq)
  | symlink target q =>
    simp only [Op.exec]
    split
    · exact h.set q fun _ _ _ heq => (by cases heq)
    · exact h
  | unlink q =>
    simp only [Op.exec]
    split
    · exact h
    · exact h.set q fun _ _ _ heq => (by cases heq)
  | mkdtemp => cases hop
  | rmdir =>
    simp only [Op.exec]
    split
    · exact h
    · exact h
  | install id => cases hop

theorem Within.unmarked {α : Type} {q : Routine α} (hq : Within s q) (h : Unmarked s d) :
    Unmarked s (Prog.run disks q d).2 :=
  Prog.run_keeps disks (fun _ _ hc ht => unmarked_exec hc ht) hq h

end Special

/-- Recovery moves no directory. -/
theorem within_recover (host : Host) : Within (fun _ => true) (recover host) :=
  calls_recover host fun op hop => by
    cases op with
    | mkdtemp => cases hop
    | install id => cases hop
    | _ => rfl

/-- What the killed publication leaves has no special bits: the old export was replaced. -/
theorem unmarked_killed {host : Host} {p : Products} {n : Option Node} {u : Disk}
    (hu : Prog.run disks (publishPrepare host [] p) (exportedRoot p n) = (true, u)) :
    Unmarked (fun _ => true)
      ((u.set .filtersSieve (savedFile p.sieve)).set (.engine .exportNext) none) := by
  have hnone : ∀ q, q ≠ .filtersSieve → (exportedRoot p n).files q = none := fun q hq =>
    Disk.set_of_ne _ _ hq
  have hstart : Unmarked preparePath (exportedRoot p n) := by
    intro q hq data mode links hfile
    rw [hnone q (by rintro rfl; cases hq)] at hfile
    cases hfile
  have hprepared := (@within_publishPrepare host [] p).unmarked hstart
  have hframe := (@within_publishPrepare host [] p).run (exportedRoot p n)
  rw [hu] at hprepared hframe
  intro q _ data mode links hfile
  by_cases hnext : q = .engine .exportNext
  · subst hnext
    rw [Disk.set_self] at hfile
    cases hfile
  rw [Disk.set_of_ne _ _ hnext] at hfile
  by_cases hexport : q = .filtersSieve
  · subst hexport
    rw [Disk.set_self] at hfile
    cases hfile
    rfl
  rw [Disk.set_of_ne _ _ hexport] at hfile
  by_cases hq : preparePath q = true
  · exact hprepared q hq data mode links hfile
  · rw [hframe.files q (by simpa using hq), hnone q hexport] at hfile
    cases hfile

/-- A file without special bits is its view but for the link count. -/
theorem file_of_plain {n : Option Node} {data : Bytes} {mode : Mode}
    (hplain : n.map Node.plain = some (.file data mode 1))
    (hspecial : ∀ data mode links, n = some (.file data mode links) → mode.special.val = 0) :
    ∃ links, n = some (.file data mode links) := by
  cases n with
  | none => cases hplain
  | some node =>
    cases node with
    | file data' mode' links =>
      have h0 : mode'.special = 0 := Fin.ext (hspecial data' mode' links rfl)
      obtain ⟨special, permissions⟩ := mode'
      injection hplain with hplain
      injection hplain with hdata hmode
      injection hmode with _ hpermissions
      dsimp only at h0 hpermissions
      rw [hdata, hpermissions, h0]
      exact ⟨links, rfl⟩
    | link target => cases hplain
    | other => cases hplain

/-- An export of mode 02644 comes back without its set-group-ID bit, after a publication
that was killed behind the rename of the new one. -/
theorem special_bits_lost : ∃ p d t, Begins ownerHost none [] p d ∧
    d.files .filtersSieve = some (.file [0] ⟨2, 0o644⟩ 1) ∧
    Prog.Crash disks (transact ownerHost none [] p) d t ∧ t.files (.engine .committed) = none ∧
    (∃ links, (Prog.run disks (recover ownerHost) t).2.files .filtersSieve =
      some (.file [0] ⟨0, 0o644⟩ links)) ∧
    (Prog.run disks (recover ownerHost) t).2.files .filtersSieve ≠ d.files .filtersSieve ∧
    (Prog.run disks (recover ownerHost) t).2.files .filtersSieve ≠ savedFile p.sieve := by
  obtain ⟨p, hbuild⟩ := exists_eq_ok productsBuild_sample_isOk
  have hcomplete := complete_of_build hbuild
  obtain ⟨u, t, hu, rfl, hmarker, hcrash⟩ := @crash_exportedRoot ownerHost p hcomplete
    (some (.file [0] ⟨2, 0o644⟩ 1)) (Or.inr ⟨[0], ⟨2, 0o644⟩, 1, rfl, by decide, by decide⟩)
  have hview := congrArg View.exported (recovered_exportedRoot hcomplete hmarker hcrash).2
  have hclean := (within_recover ownerHost).unmarked (unmarked_killed hu)
  simp only [view, shown, exportedRoot, Disk.set_self] at hview
  obtain ⟨links, hrestored⟩ := file_of_plain hview (hclean .filtersSieve rfl)
  refine ⟨p, _, _, begins_exportedRoot hcomplete _, Disk.set_self .., hcrash, hmarker, ⟨links, hrestored⟩, ?_, ?_⟩
  · rw [hrestored, exportedRoot, Disk.set_self]
    simp
  · rw [hrestored, savedFile]
    simp [privateMode]

/-- A reader that gets a generation gets the one recovery leaves, and recovery changes
nothing it sees; a view that recovery would change is refused with status 5. -/
theorem readers_agree_with_recovery (host : Host) (change : Option Change) (old : Bytes) (p : Products)
    {d t u : Disk} (h : Begins host change old p d) (hc : Crashed host change old p d t u) :
    (∀ g, pinLocked host u none = .ok g → (Prog.run disks (recover host) u).1 = 0 ∧
      selector (Prog.run disks (recover host) u).2 = .ok g.id ∧
      view (Prog.run disks (recover host) u).2 = view u) ∧
    (view (Prog.run disks (recover host) u).2 ≠ view u → pinLocked host u none = .error 5) := by
  obtain ⟨marked, hu⟩ := hc.recoverable h
  obtain ⟨hrc, _, hview⟩ := hu.run
  rcases hu.fenced_or_shown with hfenced | hshown
  · have hpin : pinLocked host u none = .error 5 := by rw [pinLocked, if_pos hfenced]
    refine ⟨?_, fun _ => hpin⟩
    intro g hg
    rw [hpin] at hg
    cases hg
  · rw [hview, hshown]
    refine ⟨?_, fun hne => absurd rfl hne⟩
    intro g hg
    refine ⟨hrc, ?_, rfl⟩
    rw [selector_congr (hview.trans hshown.symm)]
    exact (pinLocked_selected hg).2

/-- A reader gets the generation behind the complete publication, and is refused where the
publication was killed with the new export in place. -/
theorem readers_agree_with_recovery_sample : ∃ p, Begins ownerHost none [] p (exportedRoot p none) ∧
    (∃ t g, Prog.Crash disks (transact ownerHost none [] p) (exportedRoot p none) t ∧
      pinLocked ownerHost t none = .ok g ∧ (Prog.run disks (recover ownerHost) t).1 = 0 ∧
      selector (Prog.run disks (recover ownerHost) t).2 = .ok g.id ∧
      view (Prog.run disks (recover ownerHost) t).2 = view t) ∧
    ∃ t, Prog.Crash disks (transact ownerHost none [] p) (exportedRoot p none) t ∧
      view (Prog.run disks (recover ownerHost) t).2 ≠ view t ∧ pinLocked ownerHost t none = .error 5 := by
  obtain ⟨p, hbuild⟩ := exists_eq_ok productsBuild_sample_isOk
  have hcomplete := complete_of_build hbuild
  have hbegins := @begins_exportedRoot ownerHost p hcomplete none
  refine ⟨p, hbegins, ?_, ?_⟩
  · have hprepared := @run_publishPrepare ownerHost _ p hbegins.settled (Or.inl (Disk.set_self ..)) []
    obtain ⟨t, hpublish, hpending, hsieve, hgenerations, -⟩ := publish_pending
      (settled_ready hbegins.settled hbegins.selector) hcomplete.id_valid (Or.inl rfl)
      (selector_eq_ok hbegins.selector).2 hprepared
    have hcrash := Prog.crash_run disks (transact ownerHost none [] p) (exportedRoot p none)
    have hrun : (Prog.run disks (transact ownerHost none [] p) (exportedRoot p none)).2 = t :=
      congrArg Prod.snd hpublish
    rw [hrun] at hcrash
    have hopens : openGeneration ownerHost t p.id = .ok p.generation := by
      rw [openGeneration_congr ownerHost hgenerations, openGeneration, exportedRoot,
        Disk.set_generations, bareRoot]
      simp only [if_true, productDirectory]
      exact validateDirectory_complete ownerHost hcomplete
    have hpin : pinLocked ownerHost t none = .ok p.generation := by
      rw [hpending.pinned hopens, if_pos]
      exact publicStatus_eq_zero.mpr ⟨⟨0, hsieve⟩, hcomplete.sieve_size⟩
    exact ⟨t, _, hcrash, hpin,
      (readers_agree_with_recovery ownerHost none [] p hbegins (.first hcrash)).1 _ hpin⟩
  · obtain ⟨u, t, -, rfl, hmarker, hcrash⟩ := @crash_exportedRoot ownerHost p hcomplete none (Or.inl rfl)
    have hview := (recovered_exportedRoot hcomplete hmarker hcrash).2
    have hne : view (Prog.run disks (recover ownerHost)
        ((u.set .filtersSieve (savedFile p.sieve)).set (.engine .exportNext) none)).2 ≠
          view ((u.set .filtersSieve (savedFile p.sieve)).set (.engine .exportNext) none) := by
      rw [hview]
      intro heq
      have hexported := congrArg View.exported heq
      simp only [view, shown, exportedRoot, Disk.set_self, Option.map_none] at hexported
      rw [Disk.set_of_ne _ _ (by simp), Disk.set_self] at hexported
      cases hexported
    exact ⟨_, hcrash, hne,
      (readers_agree_with_recovery ownerHost none [] p hbegins (.first hcrash)).2 hne⟩

end JaroFilter
