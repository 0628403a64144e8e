import JaroFilter.Generation.Recovery

/-!
# The way to a new view

What a compile or an import knows when it begins to publish, and the states it
passes: before the commit marker every state leads back to the old view, after
it to the new one, and without the marker again to the old one.
-/

namespace JaroFilter

open Lib

/-! ### What the callers establish -/

/-- The inputs as an import has read them (`generation.c:571-579`). -/
structure Reads (host : Host) (d : Disk) (c : Change) : Prop where
  present : ∀ i, c.present i = existsAt d (.input i)
  original : ∀ i, c.present i = true →
    loadMode host (d.files (.input i)) inputMax false = .ok (c.original i, c.modes i)
  absent : ∀ i, c.present i = false → c.original i = [] ∧ c.modes i = privateMode

/-- The generation is in place, its ID and script are those of the products. -/
structure Installed (host : Host) (d : Disk) (p : Products) : Prop where
  id_valid : validId p.id = true
  opens : ∃ g, openGeneration host d p.id = .ok g ∧ g.sieve = p.sieve
  size : p.sieve.length ≤ cacheMax

/-- The inputs an import leaves. -/
def newInputs (d : Disk) (change : Option Change) (i : Fin 4) : Option Node :=
  match change with
  | none => shown d (.input i)
  | some c => if c.changed i then some (.file (c.output i) (c.modes i) 1) else shown d (.input i)

/-- The view after the transaction. -/
def newView (d : Disk) (change : Option Change) (p : Products) : View :=
  ⟨newInputs d change, savedFile p.sieve, some (.link (selectorTarget p.id))⟩

theorem loadMode_eq_ok {host : Host} {n : Option Node} {limit : ℕ} {b : Bool} {data : Bytes} {mode : Mode}
    (h : loadMode host n limit b = .ok (data, mode)) :
    ∃ special links, n = some (.file data ⟨special, mode⟩ links) ∧ data.length ≤ limit := by
  cases n with
  | none => cases h
  | some n =>
    cases n with
    | file d m l =>
      simp only [loadMode] at h
      split at h
      · cases h
      · split at h
        · cases h
        · split at h
          · cases h
          · rename_i hsize
            cases h
            exact ⟨m.special, l, rfl, Nat.not_lt.mp hsize⟩
    | link t => cases h
    | other => cases h

theorem selector_eq_ok {d : Disk} {old : Bytes} (h : selector d = .ok old) :
    (old = [] ∨ validId old = true) ∧ d.files (.engine .current) = selectorNode old := by
  unfold selector at h
  split at h
  · rename_i hnone
    cases h
    exact ⟨Or.inl rfl, by rw [hnone]; rfl⟩
  · rename_i target hlink
    split at h
    · rename_i hok
      cases h
      refine ⟨Or.inr hok.2.2, ?_⟩
      rw [hlink, selectorNode, if_neg (validId_ne_nil hok.2.2), selectorTarget, ← hok.2.1,
        List.take_append_drop]
    · cases h
  · cases h

/-! ### States before the journal -/

/-- The names a root without journal relies on. -/
def cleanPath : Path → Bool
  | .filtersSieve => true
  | .engine .journal => true
  | .engine .committed => true
  | .engine .current => true
  | _ => false

/-- No journal and no marker: the export and the selector are those of the view. -/
structure Clean (v : View) (d : Disk) : Prop where
  usable : Usable d
  inputs : InputsBack v d
  journal : d.files (.engine .journal) = none
  committed : d.files (.engine .committed) = none
  shows : Displayed v d

variable {host : Host} {v : View}

theorem Clean.recoverable {d : Disk} (h : Clean v d) : Recoverable host false v d :=
  .clean h.usable h.inputs h.journal h.shows (Or.inr h.committed)

theorem Clean.congr {d t : Disk} (h : Clean v d) (hu : Usable t) (hi : AgreeOn inputPath d t)
    (hc : AgreeOn cleanPath d t) : Clean v t where
  usable := hu
  inputs := inputsBack_congr h.inputs hi
  journal := by rw [hc.files _ rfl, h.journal]
  committed := by rw [hc.files _ rfl, h.committed]
  shows := by
    refine ⟨?_, ?_⟩
    · rw [shown, hc.files _ rfl]
      exact h.shows.1
    · rw [hc.files _ rfl]
      exact h.shows.2

theorem Clean.set {d : Disk} (h : Clean v d) {p : Path} {n : Option Node} (hn : n ≠ some .other)
    (hi : inputPath p = false) (hc : cleanPath p = false) : Clean v (d.set p n) :=
  h.congr (usable_set h.usable hn) (agreeOn_set d n hi) (agreeOn_set d n hc)

/-- Without an input journal the backups of inputs are not read either. -/
theorem Clean.setImport {d : Disk} (h : Clean v d) (hj : d.files (.engine .importJournal) = none)
    {i : Fin 4} {s : Suffix} {n : Option Node} (hn : n ≠ some .other) :
    Clean v (d.set (.engine (.importFile i s)) n) := by
  have hinputs : InputsBack v (d.set (.engine (.importFile i s)) n) := by
    rcases h.inputs with ⟨_, hin⟩ | ⟨lines, htext, _⟩
    · refine Or.inl ⟨?_, ?_⟩
      · rw [Disk.set_of_ne d n (by simp), hj]
      · intro k
        rw [shown_set_of_ne d n (by simp)]
        exact hin k
    · rw [hj] at htext
      cases htext
  refine ⟨usable_set h.usable hn, hinputs, ?_, ?_, ?_, ?_⟩
  · rw [Disk.set_of_ne d n (by simp), h.journal]
  · rw [Disk.set_of_ne d n (by simp), h.committed]
  · rw [shown_set_of_ne d n (by simp)]
    exact h.shows.1
  · rw [Disk.set_of_ne d n (by simp)]
    exact h.shows.2

/-- The root is as it was found, up to a prepared import. -/
structure Ready (v : View) (news : Fin 4 → Option Node) (d : Disk) : Prop where
  clean : Clean v d
  kept : InputsKept ⟨news, none, none⟩ d
  empty : ∀ e, e ≠ .current → e ≠ .importJournal → (∀ i s, e ≠ .importFile i s) →
    d.files (.engine e) = none

theorem settled_clean {d : Disk} {old : Bytes} (h : Settled d) (hs : selector d = .ok old) :
    Clean (view d) d := by
  refine ⟨?_, Or.inl ⟨h _ (by simp), fun i => rfl⟩, h _ (by simp), h _ (by simp), rfl, rfl⟩
  intro e
  by_cases he : e = .current
  · rw [he, (selector_eq_ok hs).2]
    exact selectorNode_ne_other old
  · rw [h e he]
    simp

theorem settled_ready {d : Disk} {old : Bytes} (h : Settled d) (hs : selector d = .ok old) :
    Ready (view d) (newInputs d none) d where
  clean := settled_clean h hs
  kept := ⟨Or.inl (h _ (by simp)), fun i => rfl⟩
  empty := fun e he _ _ => h e he

/-! ### Preparing the inputs -/

section Prepare

variable {d : Disk} {c : Change}

/-- Backups and new contents are written up to the inputs in `rest`. -/
structure Staging (d : Disk) (c : Change) (rest : List (Fin 4)) (t : Disk) : Prop where
  clean : Clean (view d) t
  empty : ∀ e, e ≠ .current → (∀ i s, e ≠ .importFile i s) → t.files (.engine e) = none
  inputs : ∀ i, t.files (.input i) = d.files (.input i)
  generations : t.generations = d.generations
  todo : ∀ i ∈ rest, ∀ s, t.files (.engine (.importFile i s)) = none
  backup : ∀ i, i ∉ rest → c.changed i = true → c.present i = true →
    t.files (.engine (.importFile i .backup)) = savedFile (c.original i)
  next : ∀ i, i ∉ rest → c.changed i = true →
    t.files (.engine (.importFile i .next)) = savedFile (c.output i)

theorem safe_stageInput {i : Fin 4} {rest : List (Fin 4)} {t : Disk} (hnodup : i ∉ rest)
    (h : Staging d c (i :: rest) t) :
    Prog.Safe disks (Clean (view d)) (stageInput c i) t fun ok u => ok = true ∧ Staging d c rest u := by
  have hj : t.files (.engine .importJournal) = none := h.empty _ (by simp) (by simp)
  unfold stageInput
  split
  · rename_i hc
    -- What one more file of this input leaves of the invariant.
    have hnext : ∀ u, Clean (view d) u → u.files (.engine .importJournal) = none →
        u.files (.engine (.importFile i .next)) = none →
        (c.present i = true → u.files (.engine (.importFile i .backup)) = savedFile (c.original i)) →
        (∀ p, (∀ s, p ≠ .engine (.importFile i s)) → u.files p = t.files p) →
        u.generations = t.generations →
        Prog.Safe disks (Clean (view d)) (save .prepare (.engine (.importFile i .next)) (c.output i)) u
          fun ok w => ok = true ∧ Staging d c rest w := by
      intro u hclean hju hn hb hsame hgen
      apply safe_save hn
      · intro n hn
        exact hclean.setImport hju hn
      · have hother : ∀ p, (∀ s, p ≠ .engine (.importFile i s)) →
            (u.set (.engine (.importFile i .next)) (savedFile (c.output i))).files p = t.files p := by
          intro p hp
          rw [Disk.set_of_ne u _ (hp .next), hsame p hp]
        refine ⟨rfl, hclean.setImport hju (savedFile_ne_other _), ?_, ?_, ?_, ?_, ?_, ?_⟩
        · intro e he hne
          rw [hother _ (by simpa using fun s => hne i s)]
          exact h.empty e he hne
        · intro k
          rw [hother _ (by simp)]
          exact h.inputs k
        · rw [← h.generations, ← hgen]
          rfl
        · intro k hk s
          have hki : k ≠ i := fun heq => hnodup (heq ▸ hk)
          rw [hother _ (by simp [hki])]
          exact h.todo k (by simp [hk]) s
        · intro k hk hck hpk
          by_cases hki : k = i
          · subst hki
            rw [Disk.set_of_ne u _ (by simp)]
            exact hb hpk
          · rw [hother _ (by simp [hki])]
            exact h.backup k (by simp [hki, hk]) hck hpk
        · intro k hk hck
          by_cases hki : k = i
          · subst hki
            exact Disk.set_self ..
          · rw [hother _ (by simp [hki])]
            exact h.next k (by simp [hki, hk]) hck
    apply Prog.safe_both
    split
    · apply safe_save (h.todo i (by simp) .backup)
      · intro n hn
        exact h.clean.setImport hj hn
      · apply hnext
        · exact h.clean.setImport hj (savedFile_ne_other _)
        · rw [Disk.set_of_ne t _ (by simp), hj]
        · rw [Disk.set_of_ne t _ (by simp)]
          exact h.todo i (by simp) .next
        · intro _
          exact Disk.set_self ..
        · intro p hp
          exact Disk.set_of_ne t _ (hp .backup)
        · rfl
    · rename_i hp
      apply Prog.safe_done
      apply hnext t h.clean hj (h.todo i (by simp) .next)
      · intro hpi
        exact absurd hpi hp
      · intro p _
        rfl
      · rfl
  · rename_i hc
    apply Prog.safe_done
    refine ⟨rfl, h.clean, h.empty, h.inputs, h.generations, ?_, ?_, ?_⟩
    · intro k hk
      exact h.todo k (by simp [hk])
    · intro k hk hck
      by_cases hki : k = i
      · rw [hki] at hck
        exact absurd hck hc
      · exact h.backup k (by simp [hki, hk]) hck
    · intro k hk hck
      by_cases hki : k = i
      · rw [hki] at hck
        exact absurd hck hc
      · exact h.next k (by simp [hki, hk]) hck

/-- While the journal says so, a changed input may hold anything replaceable. -/
theorem Clean.input {v : View} {t : Disk} {lines : Fin 4 → InputLine} {i : Fin 4} {n : Option Node}
    (h : Clean v t) (hj : t.files (.engine .importJournal) = savedFile (importText lines))
    (hi : (lines i).changed = true) (hn : n ≠ some .other) : Clean v (t.set (.input i) n) := by
  have hengine : ∀ e, (t.set (.input i) n).files (.engine e) = t.files (.engine e) :=
    fun e => Disk.set_of_ne t n (by simp)
  refine ⟨usable_set h.usable hn, ?_, ?_, ?_, ?_, ?_⟩
  · rcases h.inputs with ⟨hnone, _⟩ | ⟨lines', htext, hall⟩
    · rw [hj] at hnone
      cases hnone
    · have hlines : lines' = lines := by
        rw [hj] at htext
        simp only [savedFile, Option.some.injEq, Node.file.injEq, and_true] at htext
        exact (importText_injective htext).symm
      subst hlines
      refine Or.inr ⟨lines', by rw [hengine, hj], ?_⟩
      intro k
      have hk := hall k
      unfold InputBack at hk ⊢
      by_cases hki : k = i
      · subst hki
        rw [if_pos hi] at hk ⊢
        rw [hengine, Disk.set_self]
        exact ⟨hn, hk.2⟩
      · have hne : Path.input k ≠ Path.input i := by simpa using hki
        rw [shown_set_of_ne t n hne, Disk.set_of_ne t n hne, hengine]
        exact hk
  · rw [hengine, h.journal]
  · rw [hengine, h.committed]
  · rw [shown_set_of_ne t n (by simp)]
    exact h.shows.1
  · rw [hengine]
    exact h.shows.2

/-- The inputs outside `rest` have their new contents. -/
structure Replacing (d : Disk) (c : Change) (rest : List (Fin 4)) (t : Disk) : Prop where
  clean : Clean (view d) t
  journal : t.files (.engine .importJournal) = savedFile (importText c.lines)
  empty : ∀ e, e ≠ .current → e ≠ .importJournal → (∀ i s, e ≠ .importFile i s) →
    t.files (.engine e) = none
  generations : t.generations = d.generations
  todo : ∀ i ∈ rest, t.files (.input i) = d.files (.input i) ∧
    (c.changed i = true → t.files (.engine (.importFile i .next)) = savedFile (c.output i))
  done : ∀ i, i ∉ rest → shown t (.input i) = newInputs d (some c) i

theorem safe_replaceInput {host : Host} {i : Fin 4} {rest : List (Fin 4)} {t : Disk} (hnodup : i ∉ rest)
    (hin : d.files (.input i) ≠ some .other) (h : Replacing d c (i :: rest) t) :
    Prog.Safe disks (Clean (view d)) (replaceInput host c i) t fun ok u =>
      ok = true ∧ Replacing d c rest u := by
  obtain ⟨hinput, hnext⟩ := h.todo i (by simp)
  unfold replaceInput
  split
  · rename_i hc
    have hmode : Clean (view d) (t.set (.engine (.importFile i .next))
        (some (.file (c.output i) (c.modes i) 1))) := h.clean.set (by simp) rfl rfl
    have hstate : (((t.set (.engine (.importFile i .next)) (some (.file (c.output i) (c.modes i) 1))).set
        (.input i) (some (.file (c.output i) (c.modes i) 1))).set (.engine (.importFile i .next)) none) =
        (t.set (.input i) (some (.file (c.output i) (c.modes i) 1))).set
          (.engine (.importFile i .next)) none := by
      rw [Disk.set_comm t _ _ (by simp), Disk.set_set]
    have hclean : Clean (view d) ((t.set (.input i) (some (.file (c.output i) (c.modes i) 1))).set
        (.engine (.importFile i .next)) none) :=
      (h.clean.input h.journal hc (by simp)).set (by simp) rfl rfl
    apply Prog.safe_both
    apply safe_chmodFile (hnext hc) hmode
    apply safe_rename
    · rw [Disk.set_self]
      simp
    · rw [Disk.set_of_ne t _ (by simp), hinput]
      exact hin
    · rw [Disk.set_self, hstate]
      exact hclean
    · rw [Disk.set_self, hstate]
      have hfiles : ∀ e, (∀ s, e ≠ .importFile i s) → ((t.set (.input i)
          (some (.file (c.output i) (c.modes i) 1))).set (.engine (.importFile i .next)) none).files
          (.engine e) = t.files (.engine e) := by
        intro e he
        rw [Disk.set_of_ne _ none (by simpa using he .next), Disk.set_of_ne t _ (by simp)]
      refine ⟨rfl, hclean, ?_, ?_, h.generations, ?_, ?_⟩
      · rw [hfiles _ (by simp), h.journal]
      · intro e h1 h2 h3
        rw [hfiles e (h3 i)]
        exact h.empty e h1 h2 h3
      · intro k hk
        have hki : k ≠ i := fun heq => hnodup (heq ▸ hk)
        rw [Disk.set_of_ne _ none (by simp), Disk.set_of_ne t _ (by simpa using hki), hfiles _ (by simp [hki])]
        exact h.todo k (by simp [hk])
      · intro k hk
        rw [shown_set_of_ne _ none (by simp)]
        by_cases hki : k = i
        · subst hki
          rw [shown, Disk.set_self]
          simp only [newInputs, hc, if_true]
          rfl
        · rw [shown_set_of_ne t _ (by simpa using hki)]
          exact h.done k (by simp [hki, hk])
  · rename_i hc
    apply Prog.safe_done
    refine ⟨rfl, h.clean, h.journal, h.empty, h.generations, ?_, ?_⟩
    · intro k hk
      exact h.todo k (by simp [hk])
    · intro k hk
      by_cases hki : k = i
      · subst hki
        rw [shown, hinput]
        simp only [newInputs, hc, Bool.false_eq_true, if_false]
        rfl
      · exact h.done k (by simp [hki, hk])

theorem Reads.not_other {host : Host} (h : Reads host d c) (i : Fin 4) :
    d.files (.input i) ≠ some .other := by
  intro hother
  have hp := h.present i
  rw [existsAt, hother] at hp
  have ho := h.original i hp
  rw [hother] at ho
  cases ho

/-- The journal the staged files are described by. -/
theorem staged_inputsBack {host : Host} (h : Reads host d c) {t : Disk} (ht : Staging d c [] t)
    {u : Disk} (hj : u.files (.engine .importJournal) = savedFile (importText c.lines))
    (hin : ∀ i, u.files (.input i) = t.files (.input i))
    (hb : ∀ i, u.files (.engine (.importFile i .backup)) = t.files (.engine (.importFile i .backup))) :
    InputsBack (view d) u := by
  refine Or.inr ⟨c.lines, hj, ?_⟩
  intro i
  unfold InputBack
  split
  · rename_i hc
    refine ⟨?_, ?_⟩
    · rw [hin, ht.inputs]
      exact h.not_other i
    · split
      · rename_i hp
        obtain ⟨special, links, hfile, hsize⟩ := loadMode_eq_ok (h.original i hp)
        have hmax : inputMax ≤ cacheMax := by decide
        refine ⟨c.original i, ?_, le_trans hsize hmax, ?_⟩
        · simp only [view, shown, hfile]
          rfl
        · rw [hb]
          exact ht.backup i List.not_mem_nil hc hp
      · rename_i hp
        have hexists := h.present i
        have hfalse : c.present i = false := by simpa [Change.lines] using hp
        have hnone : d.files (.input i) = none := by
          rw [hfalse, existsAt] at hexists
          simpa using hexists.symm
        simp only [view, shown, hnone]
        rfl
  · rw [shown, hin, ht.inputs]
    rfl

theorem safe_stageInputs {old : Bytes} (hs : Settled d) (hsel : selector d = .ok old) :
    Prog.Safe disks (Clean (view d)) (Prog.each (List.finRange 4) (stageInput c)) d fun ok t =>
      ok = true ∧ Staging d c [] t := by
  have hstart : Staging d c (List.finRange 4) d := by
    refine ⟨settled_clean hs hsel, fun e he _ => hs e he, fun i => rfl, rfl, fun i _ s => hs _ (by simp),
      ?_, ?_⟩
    · intro i hi
      exact absurd (List.mem_finRange i) hi
    · intro i hi
      exact absurd (List.mem_finRange i) hi
  have hloop := @Prog.safe_each Disk Call disks (Fin 4) (Clean (view d)) (stageInput c)
    (fun rest t => rest.Nodup ∧ Staging d c rest t) (List.finRange 4) d ⟨List.nodup_finRange 4, hstart⟩ (by
      intro i rest t ht
      obtain ⟨hnotin, hrest⟩ := List.nodup_cons.mp ht.1
      apply Prog.safe_mono _ (safe_stageInput hnotin ht.2) (fun _ hu => hu)
      intro ok u hu
      exact ⟨hu.1, hrest, hu.2⟩)
  apply Prog.safe_mono _ hloop (fun _ ht => ht)
  intro ok t ht
  exact ⟨ht.1, ht.2.2⟩

theorem safe_replaceInputs {host : Host} (h : Reads host d c) {t : Disk}
    (ht : Replacing d c (List.finRange 4) t) :
    Prog.Safe disks (Clean (view d)) (Prog.each (List.finRange 4) (replaceInput host c)) t fun ok u =>
      ok = true ∧ Replacing d c [] u := by
  have hloop := @Prog.safe_each Disk Call disks (Fin 4) (Clean (view d)) (replaceInput host c)
    (fun rest u => rest.Nodup ∧ Replacing d c rest u) (List.finRange 4) t ⟨List.nodup_finRange 4, ht⟩ (by
      intro i rest u hu
      obtain ⟨hnotin, hrest⟩ := List.nodup_cons.mp hu.1
      apply Prog.safe_mono _ (safe_replaceInput hnotin (h.not_other i) hu.2) (fun _ hw => hw)
      intro ok w hw
      exact ⟨hw.1, hrest, hw.2⟩)
  apply Prog.safe_mono _ hloop (fun _ hu => hu)
  intro ok u hu
  exact ⟨hu.1, hu.2.2⟩

/-- From a settled root the inputs are replaced, and can be brought back throughout. -/
theorem safe_prepareInputs (host : Host) {old : Bytes} (hs : Settled d) (hsel : selector d = .ok old)
    (h : Reads host d c) :
    Prog.Safe disks (Clean (view d)) (prepareInputs host c) d fun ok t =>
      ok = true ∧ Ready (view d) (newInputs d (some c)) t ∧ t.generations = d.generations := by
  apply Prog.safe_both
  apply Prog.safe_mono _ (safe_stageInputs hs hsel) (fun _ ht => ht)
  intro ok t ht
  obtain ⟨rfl, hstaged⟩ := ht
  rw [if_pos rfl]
  apply Prog.safe_both
  apply safe_save (hstaged.empty _ (by simp) (by simp))
  · intro n hn
    exact hstaged.clean.set hn rfl rfl
  · -- The rename of its journal is what makes the import recoverable.
    have hnone : t.files (.engine .importJournalNext) = none := hstaged.empty _ (by simp) (by simp)
    have hjournal : ((((t.set (.engine .importJournalNext) (savedFile (importText c.lines))).set
        (.engine .importJournal) (savedFile (importText c.lines))).set (.engine .importJournalNext) none)) =
        (t.set (.engine .importJournal) (savedFile (importText c.lines))).set
          (.engine .importJournalNext) none := by
      rw [Disk.set_comm t _ _ (by simp), Disk.set_set]
    have hengine : ∀ e, e ≠ .importJournal → e ≠ .importJournalNext →
        ((t.set (.engine .importJournal) (savedFile (importText c.lines))).set
          (.engine .importJournalNext) none).files (.engine e) = t.files (.engine e) := by
      intro e h1 h2
      rw [Disk.set_of_ne _ none (by simpa using h2), Disk.set_of_ne t _ (by simpa using h1)]
    have hinput : ∀ i, ((t.set (.engine .importJournal) (savedFile (importText c.lines))).set
        (.engine .importJournalNext) none).files (.input i) = t.files (.input i) := by
      intro i
      rw [Disk.set_of_ne _ none (by simp), Disk.set_of_ne t _ (by simp)]
    have htext : ((t.set (.engine .importJournal) (savedFile (importText c.lines))).set
        (.engine .importJournalNext) none).files (.engine .importJournal) =
          savedFile (importText c.lines) := by
      rw [Disk.set_of_ne _ none (by simp), Disk.set_self]
    have hclean : Clean (view d) ((t.set (.engine .importJournal) (savedFile (importText c.lines))).set
        (.engine .importJournalNext) none) := by
      refine ⟨usable_set (usable_set hstaged.clean.usable (savedFile_ne_other _)) (by simp),
        staged_inputsBack h hstaged htext hinput (fun i => hengine _ (by simp) (by simp)), ?_, ?_, ?_, ?_⟩
      · rw [hengine _ (by simp) (by simp), hstaged.clean.journal]
      · rw [hengine _ (by simp) (by simp), hstaged.clean.committed]
      · rw [shown_set_of_ne _ none (by simp), shown_set_of_ne t _ (by simp)]
        exact hstaged.clean.shows.1
      · rw [hengine _ (by simp) (by simp)]
        exact hstaged.clean.shows.2
    have hreplacing : Replacing d c (List.finRange 4)
        ((t.set (.engine .importJournal) (savedFile (importText c.lines))).set
          (.engine .importJournalNext) none) := by
      refine ⟨hclean, htext, ?_, hstaged.generations, ?_, ?_⟩
      · intro e h1 h2 h3
        by_cases h4 : e = .importJournalNext
        · rw [h4, Disk.set_self]
        · rw [hengine e h2 h4]
          exact hstaged.empty e h1 h3
      · intro i _
        rw [hinput, hengine _ (by simp) (by simp)]
        exact ⟨hstaged.inputs i, fun hc => hstaged.next i List.not_mem_nil hc⟩
      · intro i hi
        exact absurd (List.mem_finRange i) hi
    apply Prog.safe_both
    apply safe_rename
    · rw [Disk.set_self]
      simp [savedFile]
    · rw [Disk.set_of_ne t _ (by simp)]
      exact hstaged.clean.usable _
    · rw [Disk.set_self, hjournal]
      exact hclean
    · rw [Disk.set_self, hjournal, if_pos rfl]
      apply Prog.safe_both
      apply safe_fsync hclean
      apply Prog.safe_both
      apply Prog.safe_mono _ (safe_replaceInputs h hreplacing) (fun _ hu => hu)
      intro ok u hu
      obtain ⟨rfl, hdone⟩ := hu
      rw [if_pos rfl]
      apply safe_fsync hdone.clean
      refine ⟨rfl, ⟨hdone.clean, ⟨Or.inr ⟨c.lines, hdone.journal⟩, ?_⟩, hdone.empty⟩, hdone.generations⟩
      intro i
      exact hdone.done i List.not_mem_nil

end Prepare

end JaroFilter
