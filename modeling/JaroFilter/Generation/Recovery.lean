import JaroFilter.Generation.Transaction

/-!
# What recovery leads back to

`Recoverable` describes every state a killed run can leave, by the view that
recovery will show. Each routine of `generation.c:297-448` keeps it after every
call, and `recover` ends in a root without transaction files.
-/

namespace JaroFilter

open Lib

/-! ### The view -/

/-- A node by its bytes and permission bits. -/
def Node.plain : Node → Node
  | .file data mode _ => .file data mode.permissions 1
  | n => n

/-- What users and readers see: inputs, public export and selector. -/
structure View where
  inputs : Fin 4 → Option Node
  exported : Option Node
  current : Option Node

def shown (d : Disk) (p : Path) : Option Node := (d.files p).map Node.plain

def view (d : Disk) : View := ⟨fun i => shown d (.input i), shown d .filtersSieve, d.files (.engine .current)⟩

/-- No transaction file is left. -/
def Settled (d : Disk) : Prop := ∀ e, e ≠ .current → d.files (.engine e) = none

/-- The link of a selected generation. -/
def selectorNode (id : Bytes) : Option Node := if id = [] then none else some (.link (selectorTarget id))

/-! ### Recoverable states -/

/-- Nothing in the engine directory refuses to be unlinked or replaced. -/
def Usable (d : Disk) : Prop := ∀ e, d.files (.engine e) ≠ some .other

/-- One input can be brought back by its line of the input journal. -/
def InputBack (v : View) (d : Disk) (i : Fin 4) (l : InputLine) : Prop :=
  if l.changed then
    d.files (.input i) ≠ some .other ∧
      if l.present then ∃ data, v.inputs i = some (.file data l.mode 1) ∧ data.length ≤ cacheMax ∧
        d.files (.engine (.importFile i .backup)) = savedFile data
      else v.inputs i = none
  else shown d (.input i) = v.inputs i

def InputsBack (v : View) (d : Disk) : Prop :=
  (d.files (.engine .importJournal) = none ∧ ∀ i, shown d (.input i) = v.inputs i) ∨
    ∃ lines, d.files (.engine .importJournal) = savedFile (importText lines) ∧
      ∀ i, InputBack v d i (lines i)

/-- The inputs are those of the view, whatever the input journal still says. -/
def InputsKept (v : View) (d : Disk) : Prop :=
  (d.files (.engine .importJournal) = none ∨
    ∃ lines, d.files (.engine .importJournal) = savedFile (importText lines)) ∧
    ∀ i, shown d (.input i) = v.inputs i

/-- Export and selector are those of the view. -/
def Displayed (v : View) (d : Disk) : Prop :=
  shown d .filtersSieve = v.exported ∧ d.files (.engine .current) = v.current

/-- A journal without its marker: the backup holds the export of the view. -/
structure RollsBack (v : View) (d : Disk) (j : Journal) : Prop where
  journal : d.files (.engine .journal) = savedFile (journalText j)
  committed : d.files (.engine .committed) = none
  selector : v.current = selectorNode j.old
  replaceable : d.files .filtersSieve ≠ some .other
  backup : if j.present then ∃ data, v.exported = some (.file data j.mode 1) ∧ data.length ≤ cacheMax ∧
      d.files (.engine .exportBackup) = savedFile data
    else v.exported = none

/-- A journal with its marker: selector, generation and export agree with it. -/
structure RollsOn (host : Host) (v : View) (d : Disk) (j : Journal) (g : Generation) : Prop where
  journal : d.files (.engine .journal) = savedFile (journalText j)
  committed : d.files (.engine .committed) = savedFile j.next
  current : d.files (.engine .current) = some (.link (selectorTarget j.next))
  opens : openGeneration host d j.next = .ok g
  exported : ∃ special, d.files .filtersSieve = ownFile special g.sieve
  size : g.sieve.length ≤ cacheMax
  shows : Displayed v d

/-- The state recovery brings to the view. `marked` allows a commit marker. -/
inductive Recoverable (host : Host) (marked : Bool) (v : View) (d : Disk) : Prop where
  | clean (usable : Usable d) (inputs : InputsBack v d) (journal : d.files (.engine .journal) = none)
      (exported : Displayed v d) (marker : marked = true ∨ d.files (.engine .committed) = none)
  | back (usable : Usable d) (inputs : InputsBack v d) (j : Journal) (rolls : RollsBack v d j)
  | on (usable : Usable d) (inputs : InputsKept v d) (j : Journal) (g : Generation)
      (rolls : RollsOn host v d j g) (marker : marked = true)

/-! ### Updates -/

theorem Disk.set_set (d : Disk) (p : Path) (a b : Option Node) : (d.set p a).set p b = d.set p b := by
  simp [Disk.set]

theorem Disk.set_comm (d : Disk) {p q : Path} (a b : Option Node) (h : p ≠ q) :
    (d.set p a).set q b = (d.set q b).set p a := by
  simp only [Disk.set, Disk.mk.injEq, and_true]
  exact Function.update_comm h a b d.files

theorem usable_set {d : Disk} (h : Usable d) {p : Path} {n : Option Node} (hn : n ≠ some .other) :
    Usable (d.set p n) := by
  intro e
  by_cases hp : Path.engine e = p
  · subst hp
    rw [Disk.set_self]
    exact hn
  · rw [Disk.set_of_ne d n hp]
    exact h e

theorem shown_set_of_ne (d : Disk) {p q : Path} (n : Option Node) (h : q ≠ p) :
    shown (d.set p n) q = shown d q := by rw [shown, Disk.set_of_ne d n h, shown]

theorem savedFile_ne_other (data : Bytes) : savedFile data ≠ some .other := by simp [savedFile]

theorem shown_savedFile {d : Disk} {p : Path} {data : Bytes} (h : d.files p = savedFile data) :
    shown d p = savedFile data := by
  rw [shown, h]
  rfl

/-- Two disks with the same generations and the same files at some names. -/
structure AgreeOn (s : Path → Bool) (d t : Disk) : Prop where
  files : ∀ p, s p = true → t.files p = d.files p
  generations : t.generations = d.generations

theorem agreeOn_set {s : Path → Bool} (d : Disk) {p : Path} (n : Option Node) (hp : s p = false) :
    AgreeOn s d (d.set p n) := by
  refine ⟨?_, rfl⟩
  intro q hq
  apply Disk.set_of_ne
  intro heq
  rw [heq, hp] at hq
  cases hq

theorem openGeneration_congr (host : Host) {d t : Disk} (h : t.generations = d.generations) (id : Bytes) :
    openGeneration host t id = openGeneration host d id := by rw [openGeneration, h, openGeneration]

/-- The names recovery relies on while the inputs are not restored. -/
def inputPath : Path → Bool
  | .input _ => true
  | .engine (.importFile _ .backup) => true
  | .engine .importJournal => true
  | _ => false

theorem inputsBack_congr {v : View} {d t : Disk} (h : InputsBack v d) (ha : AgreeOn inputPath d t) :
    InputsBack v t := by
  have hshown : ∀ i, shown t (.input i) = shown d (.input i) := by
    intro i
    rw [shown, ha.files _ rfl, shown]
  rcases h with ⟨hnone, hin⟩ | ⟨lines, htext, hin⟩
  · refine Or.inl ⟨by rw [ha.files _ rfl, hnone], ?_⟩
    intro i
    rw [hshown]
    exact hin i
  · refine Or.inr ⟨lines, by rw [ha.files _ rfl, htext], ?_⟩
    intro i
    have hi := hin i
    unfold InputBack at hi ⊢
    rw [hshown, ha.files (.input i) rfl, ha.files (.engine (.importFile i .backup)) rfl]
    exact hi

theorem inputsKept_congr {v : View} {d t : Disk} (h : InputsKept v d) (ha : AgreeOn inputPath d t) :
    InputsKept v t := by
  refine ⟨?_, ?_⟩
  · rw [ha.files _ rfl]
    exact h.1
  · intro i
    rw [shown, ha.files _ rfl]
    exact h.2 i

/-- The names the fence relies on: journal, marker, backup, selector and export. -/
def fencePath : Path → Bool
  | .filtersSieve => true
  | .engine .journal => true
  | .engine .committed => true
  | .engine .current => true
  | .engine .exportBackup => true
  | _ => false

theorem displayed_congr {v : View} {d t : Disk} (h : Displayed v d) (ha : AgreeOn fencePath d t) :
    Displayed v t := by
  refine ⟨?_, ?_⟩
  · rw [shown, ha.files _ rfl]
    exact h.1
  · rw [ha.files _ rfl]
    exact h.2

theorem rollsBack_congr {v : View} {d t : Disk} {j : Journal} (h : RollsBack v d j)
    (ha : AgreeOn fencePath d t) : RollsBack v t j where
  journal := by rw [ha.files _ rfl, h.journal]
  committed := by rw [ha.files _ rfl, h.committed]
  selector := h.selector
  replaceable := by
    rw [ha.files _ rfl]
    exact h.replaceable
  backup := by
    rw [ha.files _ rfl]
    exact h.backup

theorem rollsOn_congr {host : Host} {v : View} {d t : Disk} {j : Journal} {g : Generation}
    (h : RollsOn host v d j g) (ha : AgreeOn fencePath d t) : RollsOn host v t j g where
  journal := by rw [ha.files _ rfl, h.journal]
  committed := by rw [ha.files _ rfl, h.committed]
  current := by rw [ha.files _ rfl, h.current]
  opens := by rw [openGeneration_congr host ha.generations, h.opens]
  exported := h.exported.imp fun _ hx => (ha.files _ rfl).trans hx
  size := h.size
  shows := displayed_congr h.shows ha

/-- A change outside the names recovery relies on. -/
theorem recoverable_congr {host : Host} {marked : Bool} {v : View} {d t : Disk}
    (h : Recoverable host marked v d) (hu : Usable t) (hi : AgreeOn inputPath d t)
    (hf : AgreeOn fencePath d t) : Recoverable host marked v t := by
  cases h with
  | clean usable inputs journal exported marker =>
    refine .clean hu (inputsBack_congr inputs hi) ?_ (displayed_congr exported hf) ?_
    · rw [hf.files _ rfl, journal]
    · rw [hf.files _ rfl]
      exact marker
  | back usable inputs j rolls => exact .back hu (inputsBack_congr inputs hi) j (rollsBack_congr rolls hf)
  | on usable inputs j g rolls marker =>
    exact .on hu (inputsKept_congr inputs hi) j g (rollsOn_congr rolls hf) marker

theorem recoverable_set {host : Host} {marked : Bool} {v : View} {d : Disk}
    (h : Recoverable host marked v d) (hu : Usable d) {p : Path} {n : Option Node}
    (hn : n ≠ some .other) (hi : inputPath p = false) (hf : fencePath p = false) :
    Recoverable host marked v (d.set p n) :=
  recoverable_congr h (usable_set hu hn) (agreeOn_set d n hi) (agreeOn_set d n hf)

/-! ### Single calls -/

section Calls

variable {I : Disk → Prop} {d : Disk} {Q : Bool → Disk → Prop} {r : Region}

/-- The state after a call, and those it leaves when it is cut short. -/
theorem safe_step {op : Op} {ok : Bool} {t : Disk} (hexec : op.exec d = (ok, t))
    (hT : ∀ u, Call.Torn ⟨r, op⟩ d u → I u) (hI : I t) (hQ : Q ok t) :
    Prog.Safe disks I (step r op) d Q := by
  have hmachine : disks.exec ⟨r, op⟩ d = (ok, t) := hexec
  apply Prog.safe_make disks hT
  · rw [hmachine]
    exact hI
  · rw [hmachine]
    exact hQ

theorem safe_fsync (hI : I d) (hQ : Q true d) : Prog.Safe disks I (step r .fsync) d Q :=
  safe_step rfl (fun _ ht => ht.elim) hI hQ

theorem safe_removeFile {p : Path} (hp : d.files p ≠ some .other) (hI : I (d.set p none))
    (hQ : Q true (d.set p none)) : Prog.Safe disks I (removeFile r p) d Q := by
  have hexec : (Op.unlink p).exec d = (true, d.set p none) := by simp only [Op.exec, if_neg hp]
  exact safe_step hexec (fun _ ht => ht.elim) hI hQ

theorem safe_save {p : Path} {data : Bytes} (hp : d.files p = none)
    (hI : ∀ n, n ≠ some .other → I (d.set p n)) (hQ : Q true (d.set p (savedFile data))) :
    Prog.Safe disks I (save r p data) d Q := by
  have hcreate : (Op.create p).exec d = (true, d.set p (savedFile [])) := by
    simp only [Op.exec, if_pos hp]
    rfl
  have hwrite : ∀ s, (Op.write p s).exec (d.set p (savedFile [])) = (true, d.set p (savedFile s)) := by
    intro s
    simp only [Op.exec, Disk.set_self, savedFile, List.nil_append, Disk.set_set]
  apply Prog.safe_both
  apply safe_step hcreate (fun _ ht => ht.elim) (hI _ (savedFile_ne_other _))
  apply Prog.safe_both
  apply safe_step (hwrite data)
  · intro t ht
    obtain ⟨n, rfl⟩ := ht
    rw [hwrite]
    exact hI _ (savedFile_ne_other _)
  · exact hI _ (savedFile_ne_other _)
  · exact safe_fsync (hI _ (savedFile_ne_other _)) hQ

theorem safe_rename {p q : Path} (hp : d.files p ≠ none) (hq : d.files q ≠ some .other)
    (hI : I ((d.set q (d.files p)).set p none)) (hQ : Q true ((d.set q (d.files p)).set p none)) :
    Prog.Safe disks I (step r (.rename p q)) d Q := by
  have hexec : (Op.rename p q).exec d = (true, (d.set q (d.files p)).set p none) := by
    simp only [Op.exec, hp, hq, or_self, if_false]
  exact safe_step hexec (fun _ ht => ht.elim) hI hQ

theorem safe_symlink {p : Path} {target : Bytes} (hp : d.files p = none)
    (hI : I (d.set p (some (.link target)))) (hQ : Q true (d.set p (some (.link target)))) :
    Prog.Safe disks I (step r (.symlink target p)) d Q := by
  have hexec : (Op.symlink target p).exec d = (true, d.set p (some (.link target))) := by
    simp only [Op.exec, if_pos hp]
  exact safe_step hexec (fun _ ht => ht.elim) hI hQ

theorem safe_chmodFile {host : Host} {p : Path} {data : Bytes} {mode : Mode}
    (hp : d.files p = savedFile data) (hI : I (d.set p (some (.file data mode 1))))
    (hQ : Q true (d.set p (some (.file data mode 1)))) :
    Prog.Safe disks I (chmodFile host r p mode) d Q := by
  have hexec : (Op.fchmod p mode).exec d = (true, d.set p (some (.file data mode 1))) := by
    simp only [Op.exec, hp, savedFile]
  apply Prog.safe_look
  simp only [hp, savedFile, host.reads_own, if_true]
  apply Prog.safe_both
  apply safe_step hexec (fun _ ht => ht.elim) hI
  exact safe_fsync hI hQ

/-- The new link takes the place of the selector in one rename. -/
theorem safe_setSelector {id : Bytes} {e : EngineName} (he : e ≠ .current) (hu : Usable d)
    (hI : ∀ n, n ≠ some .other → I (d.set (.engine e) n))
    (hnone : id = [] → I (d.set (.engine .current) none) ∧ Q true (d.set (.engine .current) none))
    (hsome : id ≠ [] → I ((d.set (.engine .current) (selectorNode id)).set (.engine e) none) ∧
      Q true ((d.set (.engine .current) (selectorNode id)).set (.engine e) none)) :
    Prog.Safe disks I (setSelector r id (.engine e)) d Q := by
  unfold setSelector
  split
  · rename_i hid
    exact safe_removeFile (hu _) (hnone hid).1 (hnone hid).2
  · rename_i hid
    have hne : Path.engine .current ≠ Path.engine e := by
      intro h
      cases h
      exact he rfl
    have hstate : (((d.set (.engine e) (some (.link (selectorTarget id)))).set (.engine .current)
        (some (.link (selectorTarget id)))).set (.engine e) none) =
        (d.set (.engine .current) (selectorNode id)).set (.engine e) none := by
      rw [Disk.set_comm _ _ _ hne.symm, Disk.set_set, selectorNode, if_neg hid]
    apply Prog.safe_both
    apply safe_removeFile (hu _) (hI _ (by simp))
    apply Prog.safe_both
    apply safe_symlink (Disk.set_self ..)
    · rw [Disk.set_set]
      exact hI _ (by simp)
    · rw [Disk.set_set]
      apply safe_rename
      · rw [Disk.set_self]
        simp
      · rw [Disk.set_of_ne _ _ hne]
        exact hu _
      · rw [Disk.set_self, hstate]
        exact (hsome hid).1
      · rw [Disk.set_self, hstate]
        exact (hsome hid).2

/-- The target only ever holds its old content or the restored one. -/
theorem safe_restoreFile {host : Host} {backup restore target : Path} {data : Bytes} {mode : Mode}
    (hb : d.files backup = savedFile data) (hsize : data.length ≤ cacheMax)
    (hr : d.files restore ≠ some .other) (ht : d.files target ≠ some .other)
    (hbr : backup ≠ restore) (htr : target ≠ restore)
    (hI : ∀ n, n ≠ some .other → I (d.set restore n))
    (hdone : I ((d.set target (some (.file data mode 1))).set restore none))
    (hQ : Q true ((d.set target (some (.file data mode 1))).set restore none)) :
    Prog.Safe disks I (restoreFile host backup restore target mode) d Q := by
  apply Prog.safe_both
  apply safe_removeFile hr (hI _ (by simp))
  apply Prog.safe_both
  apply Prog.safe_look
  simp only [Disk.set_of_ne d _ hbr, hb, load_savedFile host hsize]
  apply safe_save (Disk.set_self ..)
  · intro n hn
    rw [Disk.set_set]
    exact hI n hn
  · rw [Disk.set_set]
    have hfinal : (((d.set restore (some (.file data mode 1))).set target (some (.file data mode 1))).set
        restore none) = (d.set target (some (.file data mode 1))).set restore none := by
      rw [Disk.set_comm _ _ _ htr.symm, Disk.set_set]
    apply Prog.safe_both
    apply safe_chmodFile (Disk.set_self ..)
    · rw [Disk.set_set]
      exact hI _ (by simp)
    · rw [Disk.set_set]
      apply safe_rename
      · rw [Disk.set_self]
        simp
      · rw [Disk.set_of_ne _ _ htr]
        exact ht
      · rw [Disk.set_self, hfinal]
        exact hdone
      · rw [Disk.set_self, hfinal]
        exact hQ

end Calls

/-! ### Removing names -/

/-- Some of the names are gone, the rest of the disk is as it was. -/
structure Removed (es : List EngineName) (d t : Disk) : Prop where
  files : ∀ p, t.files p = d.files p ∨ (t.files p = none ∧ ∃ e ∈ es, p = .engine e)
  generations : t.generations = d.generations

theorem Removed.refl (es : List EngineName) (d : Disk) : Removed es d d := ⟨fun _ => Or.inl rfl, rfl⟩

theorem Removed.remove {es : List EngineName} {d t : Disk} (h : Removed es d t) {e : EngineName}
    (he : e ∈ es) : Removed es d (t.set (.engine e) none) := by
  refine ⟨?_, h.generations⟩
  intro p
  by_cases hp : p = .engine e
  · subst hp
    exact Or.inr ⟨Disk.set_self .., e, he, rfl⟩
  · rw [Disk.set_of_ne t none hp]
    exact h.files p

theorem Removed.trans {es fs gs : List EngineName} {d t u : Disk} (h : Removed es d t)
    (h' : Removed fs t u) (hes : ∀ e ∈ es, e ∈ gs) (hfs : ∀ e ∈ fs, e ∈ gs) : Removed gs d u := by
  refine ⟨?_, by rw [h'.generations, h.generations]⟩
  intro p
  rcases h'.files p with hsame | ⟨hnone, e, he, rfl⟩
  · rw [hsame]
    rcases h.files p with hsame | ⟨hnone, e, he, rfl⟩
    · exact Or.inl hsame
    · exact Or.inr ⟨hnone, e, hes e he, rfl⟩
  · exact Or.inr ⟨hnone, e, hfs e he, rfl⟩

theorem Removed.agree {es : List EngineName} {d t : Disk} (h : Removed es d t) {s : Path → Bool}
    (hs : ∀ e ∈ es, s (.engine e) = false) : AgreeOn s d t := by
  refine ⟨?_, h.generations⟩
  intro p hp
  rcases h.files p with hsame | ⟨_, e, he, rfl⟩
  · exact hsame
  · rw [hs e he] at hp
    cases hp

theorem Removed.usable {es : List EngineName} {d t : Disk} (h : Removed es d t) (hu : Usable d) :
    Usable t := by
  intro e
  rcases h.files (.engine e) with hsame | ⟨hnone, _⟩
  · rw [hsame]
    exact hu e
  · rw [hnone]
    simp

theorem Removed.none {es : List EngineName} {d t : Disk} (h : Removed es d t) {p : Path}
    (hp : d.files p = none) : t.files p = none := by
  rcases h.files p with hsame | ⟨hnone, _⟩
  · rw [hsame, hp]
  · exact hnone

theorem safe_removes {ι : Type} {I : Disk → Prop} {d : Disk} {r : Region} (name : ι → EngineName)
    (is : List ι) (hu : Usable d) (hI : ∀ t, Removed (is.map name) d t → I t) :
    Prog.Safe disks I (Prog.each is fun i => removeFile r (.engine (name i))) d fun ok t =>
      ok = true ∧ Removed (is.map name) d t ∧ ∀ i ∈ is, t.files (.engine (name i)) = none := by
  have hloop := @Prog.safe_each Disk Call disks ι I
    (fun i => removeFile r (.engine (name i)))
    (fun rest t => Removed (is.map name) d t ∧ (∀ i ∈ rest, i ∈ is) ∧
      ∀ i ∈ is, i ∉ rest → t.files (.engine (name i)) = none) is d
    ⟨Removed.refl _ d, fun _ hi => hi, fun i hi hn => absurd hi hn⟩ ?_
  · apply Prog.safe_mono _ hloop (fun _ ht => ht)
    intro ok t ht
    exact ⟨ht.1, ht.2.1, fun i hi => ht.2.2.2 i hi List.not_mem_nil⟩
  · intro i rest t ht
    obtain ⟨hrem, hsub, hgone⟩ := ht
    have hi : i ∈ is := hsub i (by simp)
    have hnext := hrem.remove (List.mem_map_of_mem hi)
    apply safe_removeFile ((hrem.usable hu) _) (hI _ hnext)
    refine ⟨rfl, hnext, fun k hk => hsub k (by simp [hk]), ?_⟩
    intro k hk hnot
    by_cases hname : name k = name i
    · rw [hname, Disk.set_self]
    · rw [Disk.set_of_ne t none (by simpa using hname)]
      apply hgone k hk
      rw [List.mem_cons, not_or]
      exact ⟨fun heq => hname (by rw [heq]), hnot⟩

/-! ### The input journal -/

section Inputs

variable {host : Host} {O : Disk → Prop} (hO : ∀ d t, AgreeOn fencePath d t → O d → O t) {v : View}

/-- The inputs of `lines` can be brought back, and those outside `rest` are. -/
structure Restoring (O : Disk → Prop) (v : View) (lines : Fin 4 → InputLine) (rest : List (Fin 4))
    (d : Disk) : Prop where
  outer : O d
  usable : Usable d
  journal : d.files (.engine .importJournal) = savedFile (importText lines)
  back : ∀ i, InputBack v d i (lines i)
  restored : ∀ i, i ∉ rest → shown d (.input i) = v.inputs i

include hO

theorem Restoring.set {lines : Fin 4 → InputLine} {rest : List (Fin 4)} {d : Disk}
    (h : Restoring O v lines rest d) {p : Path} {n : Option Node} (hn : n ≠ some .other)
    (hi : inputPath p = false) (hf : fencePath p = false) : Restoring O v lines rest (d.set p n) := by
  have ha := agreeOn_set d n hi
  refine ⟨hO _ _ (agreeOn_set d n hf) h.outer, usable_set h.usable hn, ?_, ?_, ?_⟩
  · rw [ha.files _ rfl, h.journal]
  · intro i
    have hback := h.back i
    unfold InputBack at hback ⊢
    rw [shown, ha.files (.input i) rfl, ha.files (.engine (.importFile i .backup)) rfl]
    exact hback
  · intro i hrest
    rw [shown, ha.files _ rfl]
    exact h.restored i hrest

/-- An input takes the node of the view. -/
theorem Restoring.input {lines : Fin 4 → InputLine} {rest : List (Fin 4)} {d : Disk} {i : Fin 4}
    (h : Restoring O v lines (i :: rest) d) {n : Option Node} (hn : n ≠ some .other)
    (hv : n.map Node.plain = v.inputs i) : Restoring O v lines rest (d.set (.input i) n) := by
  have hne : ∀ j, j ≠ i → Path.input j ≠ Path.input i := by
    intro j hj heq
    cases heq
    exact hj rfl
  have hfiles : ∀ e, (d.set (.input i) n).files (.engine e) = d.files (.engine e) := by
    intro e
    apply Disk.set_of_ne
    simp
  have hshown : shown (d.set (.input i) n) (.input i) = v.inputs i := by
    rw [shown, Disk.set_self, hv]
  refine ⟨hO _ _ (agreeOn_set d n rfl) h.outer, usable_set h.usable hn, ?_, ?_, ?_⟩
  · rw [hfiles, h.journal]
  · intro j
    by_cases hj : j = i
    · subst hj
      have hback := h.back j
      unfold InputBack at hback ⊢
      rw [hfiles, hshown, Disk.set_self]
      split
      · rename_i hc
        rw [if_pos hc] at hback
        exact ⟨hn, hback.2⟩
      · rfl
    · have hback := h.back j
      unfold InputBack at hback ⊢
      rw [shown_set_of_ne d n (hne j hj), Disk.set_of_ne d n (hne j hj), hfiles]
      exact hback
  · intro j hrest
    by_cases hj : j = i
    · rw [hj, hshown]
    · rw [shown_set_of_ne d n (hne j hj)]
      exact h.restored j (by simp [hj, hrest])

omit hO in
theorem Restoring.inputsBack {lines : Fin 4 → InputLine} {rest : List (Fin 4)} {d : Disk}
    (h : Restoring O v lines rest d) : O d ∧ Usable d ∧ InputsBack v d :=
  ⟨h.outer, h.usable, Or.inr ⟨lines, h.journal, h.back⟩⟩

theorem safe_restoreInput {lines : Fin 4 → InputLine} {rest : List (Fin 4)} {d : Disk} {i : Fin 4}
    (h : Restoring O v lines (i :: rest) d) :
    Prog.Safe disks (fun t => O t ∧ Usable t ∧ InputsBack v t) (restoreInput host lines i) d
      fun ok t => ok = true ∧ Restoring O v lines rest t := by
  have hback := h.back i
  unfold InputBack at hback
  unfold restoreInput
  split
  · rename_i hc
    rw [if_pos hc] at hback
    obtain ⟨hin, hback⟩ := hback
    split
    · rename_i hp
      rw [if_pos hp] at hback
      obtain ⟨data, hv, hsize, hfile⟩ := hback
      have hdone : Restoring O v lines rest ((d.set (.input i) (some (.file data (lines i).mode 1))).set
          (.engine (.importFile i .restore)) none) := by
        apply Restoring.set hO _ (by simp) rfl rfl
        exact Restoring.input hO h (by simp) (by rw [hv]; rfl)
      apply safe_restoreFile hfile hsize (h.usable _) hin (by simp) (by simp)
      · intro n hn
        exact (Restoring.set hO h hn rfl rfl).inputsBack
      · exact hdone.inputsBack
      · exact ⟨rfl, hdone⟩
    · rename_i hp
      rw [if_neg hp] at hback
      have hdone : Restoring O v lines rest (d.set (.input i) none) :=
        Restoring.input hO h (by simp) (by rw [hback]; rfl)
      exact safe_removeFile hin (hdone.inputsBack) ⟨rfl, hdone⟩
  · rename_i hc
    rw [if_neg hc] at hback
    apply Prog.safe_done
    refine ⟨rfl, h.outer, h.usable, h.journal, h.back, ?_⟩
    intro j hj
    by_cases hji : j = i
    · rw [hji, hback]
    · exact h.restored j (by simp [hji, hj])

/-- The input journal goes once every input is the one of the view. -/
theorem safe_dropJournal {J : Disk → Prop} {d : Disk} (ho : O d) (hu : Usable d)
    (hin : ∀ i, shown d (.input i) = v.inputs i) (hJ : J d)
    (hdone : ∀ t, O t → Usable t → t.files (.engine .importJournal) = none →
      (∀ i, shown t (.input i) = v.inputs i) → J t) :
    Prog.Safe disks J (Prog.both (step .recover .fsync) (Prog.both (step .recover .fsync)
      (Prog.both (removeFile .recover (.engine .importJournal)) (step .recover .fsync)))) d fun ok t =>
      ok = true ∧ O t ∧ Usable t ∧ t.files (.engine .importJournal) = none ∧
        ∀ i, shown t (.input i) = v.inputs i := by
  have ho' : O (d.set (.engine .importJournal) none) := hO _ _ (agreeOn_set d none rfl) ho
  have hu' : Usable (d.set (.engine .importJournal) none) := usable_set hu (by simp)
  have hin' : ∀ i, shown (d.set (.engine .importJournal) none) (.input i) = v.inputs i := by
    intro i
    rw [shown_set_of_ne d none (by simp)]
    exact hin i
  have hgone : (d.set (.engine .importJournal) none).files (.engine .importJournal) = none :=
    Disk.set_self ..
  have hJ' := hdone _ ho' hu' hgone hin'
  apply Prog.safe_both
  apply safe_fsync hJ
  apply Prog.safe_both
  apply safe_fsync hJ
  apply Prog.safe_both
  apply safe_removeFile (hu _) hJ'
  exact safe_fsync hJ' ⟨rfl, ho', hu', hgone, hin'⟩

theorem safe_recoverJournal_back {d : Disk} (ho : O d) (hu : Usable d) (hin : InputsBack v d) :
    Prog.Safe disks (fun t => O t ∧ Usable t ∧ InputsBack v t) (recoverJournal host false) d
      fun ok t => ok = true ∧ O t ∧ Usable t ∧ t.files (.engine .importJournal) = none ∧
        ∀ i, shown t (.input i) = v.inputs i := by
  apply Prog.safe_look
  rcases hin with ⟨hnone, hall⟩ | ⟨lines, htext, hall⟩
  · rw [existsAt, hnone]
    exact Prog.safe_done _ ⟨rfl, ho, hu, hnone, hall⟩
  · have hread : (load host (d.files (.engine .importJournal)) 160).toOption.bind readImportText =
        some lines := by
      rw [htext, load_savedFile host (importText_length lines)]
      exact readImportText_importText lines
    have hexists : existsAt d (.engine .importJournal) = true := by
      rw [existsAt, htext]
      rfl
    simp only [hexists, hread, if_true, Bool.false_eq_true, if_false]
    apply Prog.safe_both
    have hloop := @Prog.safe_each Disk Call disks (Fin 4)
      (fun t => O t ∧ Usable t ∧ InputsBack v t) (restoreInput host lines) (Restoring O v lines)
      (List.finRange 4) d ⟨ho, hu, htext, hall, fun i hi => absurd (List.mem_finRange i) hi⟩
      (fun i rest t ht => safe_restoreInput hO ht)
    apply Prog.safe_mono _ hloop (fun _ ht => ht)
    intro ok t ht
    rw [if_pos ht.1]
    have hshown : ∀ i, shown t (.input i) = v.inputs i := fun i => ht.2.restored i List.not_mem_nil
    apply safe_dropJournal hO ht.2.outer ht.2.usable hshown (ht.2.inputsBack)
    intro u hou huu hgone hshown
    exact ⟨hou, huu, Or.inl ⟨hgone, hshown⟩⟩

theorem safe_recoverJournal_kept {d : Disk} (ho : O d) (hu : Usable d) (hin : InputsKept v d) :
    Prog.Safe disks (fun t => O t ∧ Usable t ∧ InputsKept v t) (recoverJournal host true) d
      fun ok t => ok = true ∧ O t ∧ Usable t ∧ t.files (.engine .importJournal) = none ∧
        ∀ i, shown t (.input i) = v.inputs i := by
  obtain ⟨hjournal, hall⟩ := hin
  apply Prog.safe_look
  rcases hjournal with hnone | ⟨lines, htext⟩
  · rw [existsAt, hnone]
    exact Prog.safe_done _ ⟨rfl, ho, hu, hnone, hall⟩
  · have hread : (load host (d.files (.engine .importJournal)) 160).toOption.bind readImportText =
        some lines := by
      rw [htext, load_savedFile host (importText_length lines)]
      exact readImportText_importText lines
    have hexists : existsAt d (.engine .importJournal) = true := by
      rw [existsAt, htext]
      rfl
    simp only [hexists, hread, if_true]
    apply Prog.safe_both
    apply Prog.safe_done
    rw [if_pos rfl]
    apply safe_dropJournal hO ho hu hall ⟨ho, hu, Or.inr ⟨lines, htext⟩, hall⟩
    intro u hou huu hgone hshown
    exact ⟨hou, huu, Or.inl hgone, hshown⟩

/-- The inputs are done: only files that no later step reads are left of an import. -/
structure InputsDone (O : Disk → Prop) (v : View) (d : Disk) : Prop where
  outer : O d
  usable : Usable d
  journal : d.files (.engine .importJournal) = none
  shows : ∀ i, shown d (.input i) = v.inputs i

theorem InputsDone.removed {es : List EngineName} {d t : Disk} (h : InputsDone O v d)
    (hr : Removed es d t) (hs : ∀ e ∈ es, fencePath (.engine e) = false) : InputsDone O v t := by
  refine ⟨hO _ _ (hr.agree hs) h.outer, hr.usable h.usable, hr.none h.journal, ?_⟩
  intro i
  rcases hr.files (.input i) with hsame | ⟨_, e, _, he⟩
  · rw [shown, hsame]
    exact h.shows i
  · cases he

/-- The names `recover_inputs` removes in any case. -/
def importGone (t : Disk) : Prop :=
  t.files (.engine .importJournal) = none ∧ t.files (.engine .importJournalNext) = none ∧
    ∀ i s, t.files (.engine (.importFile i s)) = none

theorem safe_recoverInputs {committed : Bool} {J : Disk → Prop} {d : Disk}
    (hjournal : Prog.Safe disks J (recoverJournal host committed) d fun ok t => ok = true ∧ O t ∧
      Usable t ∧ t.files (.engine .importJournal) = none ∧ ∀ i, shown t (.input i) = v.inputs i)
    (hdone : ∀ t, InputsDone O v t → J t) :
    Prog.Safe disks J (recoverInputs host committed) d fun ok t =>
      ok = true ∧ InputsDone O v t ∧ importGone t := by
  apply Prog.safe_both
  apply Prog.safe_mono _ hjournal (fun _ ht => ht)
  intro ok t ht
  obtain ⟨rfl, hot, hut, hgone, hshown⟩ := ht
  have htd : InputsDone O v t := ⟨hot, hut, hgone, hshown⟩
  rw [if_pos rfl]
  apply Prog.safe_both
  have hloop := @Prog.safe_each Disk Call disks (Fin 4) J
    (fun i => Prog.each [Suffix.backup, .next, .restore] fun s =>
      removeFile .recover (.engine (.importFile i s)))
    (fun rest u => InputsDone O v u ∧ ∀ i, i ∉ rest → ∀ s, u.files (.engine (.importFile i s)) = none)
    (List.finRange 4) t ⟨htd, fun i hi => absurd (List.mem_finRange i) hi⟩ ?_
  · apply Prog.safe_mono _ hloop (fun _ hu => hu)
    intro ok u hu
    obtain ⟨rfl, hud, hfiles⟩ := hu
    have hremoved : Removed [.importJournalNext] u (u.set (.engine .importJournalNext) none) :=
      (Removed.refl _ u).remove (by simp)
    have hud' := hud.removed hO hremoved (by simp [fencePath])
    rw [if_pos rfl]
    apply Prog.safe_both
    apply safe_removeFile (hud.usable _) (hdone _ hud')
    apply safe_fsync (hdone _ hud')
    refine ⟨rfl, hud', hud'.journal, Disk.set_self .., ?_⟩
    intro i s
    exact hremoved.none (hfiles i List.not_mem_nil s)
  · intro i rest u hu
    obtain ⟨hud, hfiles⟩ := hu
    have hnames : ∀ e ∈ [Suffix.backup, .next, .restore].map (EngineName.importFile i),
        fencePath (.engine e) = false := by simp [fencePath]
    have hremoves := @safe_removes Suffix J u .recover (EngineName.importFile i)
      [.backup, .next, .restore] hud.usable fun w hw => hdone _ (hud.removed hO hw hnames)
    apply Prog.safe_mono _ hremoves (fun _ hw => hw)
    intro ok w hw
    obtain ⟨hok, hrem, hthis⟩ := hw
    refine ⟨hok, hud.removed hO hrem hnames, ?_⟩
    intro k hk s
    by_cases hki : k = i
    · subst hki
      apply hthis
      cases s <;> simp
    · exact hrem.none (hfiles k (by simp [hki, hk]) s)

end Inputs

/-! ### Finishing a recovery -/

/-- The names `cleanup_transaction` removes after the journal. -/
def cleanupNames : List EngineName := [.exportBackup, .exportNext, .exportRestore, .journalNext,
  .currentNext, .currentRollback, .committedNext, .committed]

section Finish

variable {host : Host} {marked : Bool} {v : View}

theorem recoverable_done {d : Disk} (h : InputsDone (Displayed v) v d)
    (hj : d.files (.engine .journal) = none) (hm : marked = true ∨ d.files (.engine .committed) = none) :
    Recoverable host marked v d :=
  .clean h.usable (Or.inl ⟨h.journal, h.shows⟩) hj h.outer hm

omit host marked v in
/-- The journal goes first, then the names nothing refers to any more. -/
theorem safe_cleanupNames {I : Disk → Prop} {d : Disk} (hu : Usable d)
    (hI : ∀ t, t.files (.engine .journal) = none → Removed (.journal :: cleanupNames) d t → I t) :
    Prog.Safe disks I cleanupTransaction d fun ok t => ok = true ∧
      Removed (.journal :: cleanupNames) d t ∧ ∀ e ∈ .journal :: cleanupNames, t.files (.engine e) = none := by
  have hj : Removed [.journal] d (d.set (.engine .journal) none) := (Removed.refl _ d).remove (by simp)
  have htrans : ∀ t, Removed (cleanupNames.map id) (d.set (.engine .journal) none) t →
      Removed (.journal :: cleanupNames) d t := by
    intro t ht
    apply hj.trans ht
    · intro e he
      simp [List.mem_singleton.mp he]
    · intro e he
      rw [List.map_id] at he
      exact List.mem_cons_of_mem _ he
  have hgone : ∀ t, Removed (cleanupNames.map id) (d.set (.engine .journal) none) t →
      t.files (.engine .journal) = none := fun t ht => ht.none (Disk.set_self ..)
  have hafter : ∀ t, Removed (cleanupNames.map id) (d.set (.engine .journal) none) t → I t :=
    fun t ht => hI t (hgone t ht) (htrans t ht)
  have hstart := hafter _ (Removed.refl _ _)
  apply Prog.safe_both
  apply safe_removeFile (hu _) hstart
  apply Prog.safe_both
  apply safe_fsync hstart
  apply Prog.safe_both
  have hremoves := @safe_removes EngineName I (d.set (.engine .journal) none) .recover id cleanupNames
    (hj.usable hu) hafter
  apply Prog.safe_mono _ hremoves (fun _ ht => ht)
  intro ok t ht
  obtain ⟨rfl, hrem, hnone⟩ := ht
  rw [if_pos rfl]
  apply safe_fsync (hafter t hrem)
  refine ⟨rfl, htrans t hrem, ?_⟩
  intro e he
  rcases List.mem_cons.mp he with rfl | he
  · exact hgone t hrem
  · exact hnone e he

omit host marked v in
theorem settled_of_gone {d t : Disk} (h : Removed (.journal :: cleanupNames) d t)
    (hnone : ∀ e ∈ .journal :: cleanupNames, t.files (.engine e) = none) (hgone : importGone d) :
    Settled t := by
  intro e he
  cases e with
  | current => exact absurd rfl he
  | importJournal => exact h.none hgone.1
  | importJournalNext => exact h.none hgone.2.1
  | importFile i s => exact h.none (hgone.2.2 i s)
  | journal => exact hnone _ (by simp)
  | currentNext => exact hnone _ (by simp [cleanupNames])
  | currentRollback => exact hnone _ (by simp [cleanupNames])
  | journalNext => exact hnone _ (by simp [cleanupNames])
  | committed => exact hnone _ (by simp [cleanupNames])
  | committedNext => exact hnone _ (by simp [cleanupNames])
  | exportBackup => exact hnone _ (by simp [cleanupNames])
  | exportNext => exact hnone _ (by simp [cleanupNames])
  | exportRestore => exact hnone _ (by simp [cleanupNames])

omit host marked in
theorem Removed.displayed {d t : Disk} (h : Removed (.journal :: cleanupNames) d t)
    (hd : Displayed v d) : Displayed v t := by
  refine ⟨?_, ?_⟩
  · rcases h.files .filtersSieve with hs | ⟨_, e, _, he⟩
    · rw [shown, hs]
      exact hd.1
    · cases he
  · rcases h.files (.engine .current) with hs | ⟨_, e, hmem, he⟩
    · rw [hs]
      exact hd.2
    · cases he
      simp [cleanupNames] at hmem

/-- Once the journal is gone nothing refers to the rest. -/
theorem safe_cleanup {d : Disk} (h : InputsDone (Displayed v) v d) (hgone : importGone d)
    (hm : marked = true ∨ d.files (.engine .committed) = none) :
    Prog.Safe disks (Recoverable host marked v) cleanupTransaction d fun ok t =>
      ok = true ∧ Settled t ∧ view t = v := by
  have hkept : ∀ t, Removed (.journal :: cleanupNames) d t → InputsDone (Displayed v) v t := by
    intro t ht
    refine ⟨ht.displayed h.outer, ht.usable h.usable, ht.none h.journal, ?_⟩
    intro i
    rcases ht.files (.input i) with hs | ⟨_, e, _, he⟩
    · rw [shown, hs]
      exact h.shows i
    · cases he
  have hcleanup := @safe_cleanupNames (Recoverable host marked v) d h.usable (by
    intro t hj ht
    apply recoverable_done (hkept t ht) hj
    rcases hm with hm | hm
    · exact Or.inl hm
    · exact Or.inr (ht.none hm))
  apply Prog.safe_mono _ hcleanup (fun _ ht => ht)
  intro ok t ht
  obtain ⟨hok, hrem, hnone⟩ := ht
  refine ⟨hok, settled_of_gone hrem hnone hgone, ?_⟩
  have hfinal := hkept t hrem
  obtain ⟨vi, ve, vc⟩ := v
  simp only [view, View.mk.injEq]
  exact ⟨funext hfinal.shows, hfinal.outer.1, hfinal.outer.2⟩

/-- What every caller of the last part of `recover` gets. -/
def Recovered (v : View) (rc : ℕ) (t : Disk) : Prop := rc = 0 ∧ Settled t ∧ view t = v

theorem safe_finish {O : Disk → Prop} {committed : Bool} {d : Disk}
    (hinputs : Prog.Safe disks (Recoverable host marked v) (recoverInputs host committed) d
      fun ok t => ok = true ∧ InputsDone O v t ∧ importGone t)
    (hO : ∀ t, O t → Displayed v t ∧ (marked = true ∨ t.files (.engine .committed) = none)) :
    Prog.Safe disks (Recoverable host marked v) (finishRecovery host committed) d (Recovered v) := by
  apply Prog.safe_bind
  apply Prog.safe_both
  apply Prog.safe_mono _ hinputs (fun _ ht => ht)
  intro ok t ht
  obtain ⟨rfl, hdone, hgone⟩ := ht
  obtain ⟨hdisplay, hm⟩ := hO t hdone.outer
  rw [if_pos rfl]
  have hclean := @safe_cleanup host marked v t
    ⟨hdisplay, hdone.usable, hdone.journal, hdone.shows⟩ hgone hm
  apply Prog.safe_mono _ hclean (fun _ hu => hu)
  intro ok u hu
  obtain ⟨rfl, hsettled, hview⟩ := hu
  exact Prog.safe_done _ ⟨rfl, hsettled, hview⟩

theorem safe_finish_back {O : Disk → Prop} (hO : ∀ d t, AgreeOn fencePath d t → O d → O t) {d : Disk}
    (ho : O d) (hu : Usable d) (hin : InputsBack v d)
    (hkeep : ∀ t, O t → Usable t → InputsBack v t → Recoverable host marked v t)
    (hshow : ∀ t, O t → Displayed v t ∧ (marked = true ∨ t.files (.engine .committed) = none)) :
    Prog.Safe disks (Recoverable host marked v) (finishRecovery host false) d (Recovered v) := by
  apply safe_finish _ hshow
  apply safe_recoverInputs hO
  · apply Prog.safe_mono _ (safe_recoverJournal_back hO ho hu hin) _ (fun _ _ ht => ht)
    intro t ht
    exact hkeep t ht.1 ht.2.1 ht.2.2
  · intro t ht
    exact hkeep t ht.outer ht.usable (Or.inl ⟨ht.journal, ht.shows⟩)

/-! ### Rolling back -/

theorem readJournal_saved {d : Disk} {j : Journal}
    (h : d.files (.engine .journal) = savedFile (journalText j)) : readJournal host d = some j := by
  rw [readJournal, h, load_savedFile host (journalText_length j)]
  exact readJournalText_journalText j

theorem rollsBack_show {d t : Disk} {j : Journal} (h : RollsBack v d j)
    (ht : ∀ e, e ≠ .current → e ≠ .currentRollback → e ≠ .exportRestore →
      t.files (.engine e) = d.files (.engine e))
    (hs : t.files .filtersSieve ≠ some .other) : RollsBack v t j where
  journal := by rw [ht _ (by simp) (by simp) (by simp), h.journal]
  committed := by rw [ht _ (by simp) (by simp) (by simp), h.committed]
  selector := h.selector
  replaceable := hs
  backup := by
    rw [ht _ (by simp) (by simp) (by simp)]
    exact h.backup

/-- The rollback of the export: it is that of the view, and the fence stands. -/
theorem safe_restoreExport {d : Disk} {j : Journal} (hu : Usable d) (hin : InputsBack v d)
    (h : RollsBack v d j) :
    Prog.Safe disks (Recoverable host marked v)
      (if j.present then restoreFile host (.engine .exportBackup) (.engine .exportRestore)
        .filtersSieve j.mode else removeFile .recover .filtersSieve) d fun ok t =>
      ok = true ∧ Usable t ∧ InputsBack v t ∧ RollsBack v t j ∧ shown t .filtersSieve = v.exported := by
  have hstart : Recoverable host marked v d := .back hu hin j h
  have hbackup := h.backup
  have hset : ∀ n : Option Node, n ≠ some .other → RollsBack v (d.set .filtersSieve n) j := by
    intro n hn
    apply rollsBack_show h
    · intro e _ _ _
      exact Disk.set_of_ne d n (by simp)
    · rw [Disk.set_self]
      exact hn
  have hinputs : ∀ n, InputsBack v (d.set .filtersSieve n) :=
    fun n => inputsBack_congr hin (agreeOn_set d n rfl)
  split
  · rename_i hp
    rw [if_pos hp] at hbackup
    obtain ⟨data, hv, hsize, hfile⟩ := hbackup
    have hback := rollsBack_congr (hset (some (.file data j.mode 1)) (by simp))
      (agreeOn_set (d.set .filtersSieve (some (.file data j.mode 1))) (p := .engine .exportRestore) none rfl)
    have hin' := inputsBack_congr (hinputs (some (.file data j.mode 1)))
      (agreeOn_set (d.set .filtersSieve (some (.file data j.mode 1))) (p := .engine .exportRestore) none rfl)
    have hu' : Usable ((d.set .filtersSieve (some (.file data j.mode 1))).set (.engine .exportRestore) none) :=
      usable_set (usable_set hu (by simp)) (by simp)
    apply safe_restoreFile hfile hsize (hu _) h.replaceable (by simp) (by simp)
    · intro n hn
      exact recoverable_set hstart hu hn rfl rfl
    · exact .back hu' hin' j hback
    · refine ⟨rfl, hu', hin', hback, ?_⟩
      rw [shown_set_of_ne _ none (by simp), shown, Disk.set_self, hv]
      rfl
  · rename_i hp
    rw [if_neg hp] at hbackup
    have hu' : Usable (d.set .filtersSieve none) := usable_set hu (by simp)
    apply safe_removeFile h.replaceable (.back hu' (hinputs _) j (hset _ (by simp)))
    refine ⟨rfl, hu', hinputs _, hset _ (by simp), ?_⟩
    rw [shown, Disk.set_self, hbackup]
    rfl

theorem selectorNode_ne_other (id : Bytes) : selectorNode id ≠ some .other := by
  unfold selectorNode
  split <;> simp

theorem safe_rollback {d : Disk} {j : Journal} (hu : Usable d) (hin : InputsBack v d)
    (h : RollsBack v d j) :
    Prog.Safe disks (Recoverable host marked v) (rollback host j) d fun ok t =>
      ok = true ∧ Usable t ∧ InputsBack v t ∧ RollsBack v t j ∧ Displayed v t := by
  apply Prog.safe_both
  apply Prog.safe_mono _ (safe_restoreExport hu hin h) (fun _ ht => ht)
  intro ok t ht
  obtain ⟨rfl, hut, hint, hback, hexport⟩ := ht
  have hstart : Recoverable host marked v t := .back hut hint j hback
  rw [if_pos rfl]
  apply Prog.safe_both
  have hnode := selectorNode_ne_other j.old
  have hcurrent : ∀ n : Option Node, RollsBack v (t.set (.engine .current) n) j := by
    intro n
    apply rollsBack_show hback
    · intro e he _ _
      exact Disk.set_of_ne t n (by simpa using he)
    · rw [Disk.set_of_ne t n (by simp)]
      exact hback.replaceable
  have hinputs : ∀ n, InputsBack v (t.set (.engine .current) n) :=
    fun n => inputsBack_congr hint (agreeOn_set t n rfl)
  have hlast : ∀ u, Usable u → InputsBack v u → RollsBack v u j → Displayed v u →
      Prog.Safe disks (Recoverable host marked v)
        (Prog.both (step .recover .fsync) (step .recover .fsync)) u fun ok w =>
        ok = true ∧ Usable w ∧ InputsBack v w ∧ RollsBack v w j ∧ Displayed v w := by
    intro u h1 h2 h3 h4
    have hI : Recoverable host marked v u := .back h1 h2 j h3
    apply Prog.safe_both
    exact safe_fsync hI (safe_fsync hI ⟨rfl, h1, h2, h3, h4⟩)
  have hview : v.current = selectorNode j.old := h.selector
  apply safe_setSelector (by simp) hut
  · intro n hn
    exact recoverable_set hstart hut hn rfl rfl
  · intro hid
    have hu' : Usable (t.set (.engine .current) none) := usable_set hut (by simp)
    refine ⟨.back hu' (hinputs _) j (hcurrent _), ?_⟩
    apply hlast _ hu' (hinputs _) (hcurrent _)
    refine ⟨?_, ?_⟩
    · rw [shown_set_of_ne t none (by simp), hexport]
    · rw [Disk.set_self, hview, selectorNode, if_pos hid]
  · intro hid
    have hu' : Usable ((t.set (.engine .current) (selectorNode j.old)).set (.engine .currentRollback) none) :=
      usable_set (usable_set hut hnode) (by simp)
    have hin' := inputsBack_congr (hinputs (selectorNode j.old))
      (agreeOn_set (t.set (.engine .current) (selectorNode j.old)) (p := .engine .currentRollback) none rfl)
    have hback' := rollsBack_congr (hcurrent (selectorNode j.old))
      (agreeOn_set (t.set (.engine .current) (selectorNode j.old)) (p := .engine .currentRollback) none rfl)
    refine ⟨.back hu' hin' j hback', ?_⟩
    apply hlast _ hu' hin' hback'
    refine ⟨?_, ?_⟩
    · rw [shown_set_of_ne _ none (by simp), shown_set_of_ne t _ (by simp), hexport]
    · rw [Disk.set_of_ne _ none (by simp), Disk.set_self, hview]

/-! ### Rolling on -/

theorem selector_target {d : Disk} {id : Bytes} (hid : validId id = true)
    (h : d.files (.engine .current) = some (.link (selectorTarget id))) : selector d = .ok id := by
  have hprefix : (cstr "generations/").length = 12 := by decide
  have htake : (selectorTarget id).take 12 = cstr "generations/" := by
    rw [selectorTarget, ← hprefix]
    exact List.take_left
  have hdrop : (selectorTarget id).drop 12 = id := by
    rw [selectorTarget, ← hprefix]
    exact List.drop_left
  have hlength : (selectorTarget id).length = 76 := by
    rw [selectorTarget, List.length_append, hprefix, validId_length hid]
  rw [selector, h]
  simp only [hlength, htake, hdrop, hid, and_self, if_true]

theorem validId_ne_nil {id : Bytes} (h : validId id = true) : id ≠ [] := by
  intro hnil
  rw [hnil] at h
  exact absurd h (by decide)

theorem RollsOn.marker {d : Disk} {j : Journal} {g : Generation} (h : RollsOn host v d j g) :
    markerOf host d j.next = true := by
  rw [markerOf, h.committed, load_savedFile host (by rw [validId_length j.next_valid])]
  simp [validId_length j.next_valid]

theorem RollsOn.committed_eq {d : Disk} {j : Journal} {g : Generation} (h : RollsOn host v d j g) :
    committedJournal host d = some j.next := by
  rw [committedJournal, readJournal_saved h.journal, selector_target j.next_valid h.current]
  simp only [h.marker, and_self, if_true]

theorem RollsOn.pinned {d : Disk} {j : Journal} {g : Generation} (h : RollsOn host v d j g) :
    pinLocked host d none = .ok g := by
  have hexists : existsAt d (.engine .journal) = true := by
    rw [existsAt, h.journal]
    rfl
  have hpublic : publicStatus host d g.sieve = 0 := by
    obtain ⟨special, hexported⟩ := h.exported
    rw [publicStatus, hexported, load_ownFile host special h.size]
    simp
  have hunfinished : unfinished host d = false := by
    rw [unfinished, h.committed_eq]
    simp
  have hid : pinId d none = .ok j.next := by
    simp only [pinId, selector_target j.next_valid h.current, validId_ne_nil j.next_valid, if_false]
  simp only [pinLocked, hunfinished, Bool.false_eq_true, if_false, hid, h.opens, hexists,
    h.committed_eq, bind, Except.bind, if_true, hpublic]

/-! ### The whole recovery -/

/-- `recover` ends every recoverable state in a settled root with its view. -/
theorem safe_recover {d : Disk} (h : Recoverable host marked v d) :
    Prog.Safe disks (Recoverable host marked v) (recover host) d (Recovered v) := by
  apply Prog.safe_look
  cases h with
  | clean usable inputs journal exported marker =>
    have hexists : existsAt d (.engine .journal) = false := by
      rw [existsAt, journal]
      rfl
    simp only [hexists, Bool.false_eq_true, if_false]
    apply @safe_finish_back host marked v (fun t => Displayed v t ∧ t.files (.engine .journal) = none ∧
      (marked = true ∨ t.files (.engine .committed) = none))
    · intro d t ha ho
      refine ⟨displayed_congr ho.1 ha, ?_, ?_⟩
      · rw [ha.files _ rfl, ho.2.1]
      · rw [ha.files _ rfl]
        exact ho.2.2
    · exact ⟨exported, journal, marker⟩
    · exact usable
    · exact inputs
    · intro t ho hu hin
      exact .clean hu hin ho.2.1 ho.1 ho.2.2
    · intro t ho
      exact ⟨ho.1, ho.2.2⟩
  | back usable inputs j rolls =>
    have hexists : existsAt d (.engine .journal) = true := by
      rw [existsAt, rolls.journal]
      rfl
    have hmarker : existsAt d (.engine .committed) = false := by
      rw [existsAt, rolls.committed]
      rfl
    simp only [hexists, if_true, readJournal_saved rolls.journal, hmarker, Bool.false_eq_true, if_false]
    apply Prog.safe_bind
    apply Prog.safe_mono _ (safe_rollback usable inputs rolls) (fun _ ht => ht)
    intro ok t ht
    obtain ⟨rfl, hut, hint, hback, hshown⟩ := ht
    rw [if_pos rfl]
    apply @safe_finish_back host marked v (fun u => RollsBack v u j ∧ Displayed v u)
    · intro d t ha ho
      exact ⟨rollsBack_congr ho.1 ha, displayed_congr ho.2 ha⟩
    · exact ⟨hback, hshown⟩
    · exact hut
    · exact hint
    · intro u ho hu hin
      exact .back hu hin j ho.1
    · intro u ho
      exact ⟨ho.2, Or.inr ho.1.committed⟩
  | on usable inputs j g rolls marker =>
    have hexists : existsAt d (.engine .journal) = true := by
      rw [existsAt, rolls.journal]
      rfl
    have hmarker : existsAt d (.engine .committed) = true := by
      rw [existsAt, rolls.committed]
      rfl
    have hO : ∀ d t, AgreeOn fencePath d t → RollsOn host v d j g → RollsOn host v t j g :=
      fun d t ha ho => rollsOn_congr ho ha
    simp only [hexists, if_true, readJournal_saved rolls.journal, hmarker, rolls.marker, rolls.pinned]
    apply @safe_finish host marked v (fun t => RollsOn host v t j g)
    · apply safe_recoverInputs hO
      · apply Prog.safe_mono _ (safe_recoverJournal_kept hO rolls usable inputs) _ (fun _ _ ht => ht)
        intro t ht
        exact .on ht.2.1 ht.2.2 j g ht.1 marker
      · intro t ht
        exact .on ht.usable ⟨Or.inl ht.journal, ht.shows⟩ j g ht.outer marker
    · intro t ho
      exact ⟨ho.shows, Or.inl marker⟩

end Finish

end JaroFilter
