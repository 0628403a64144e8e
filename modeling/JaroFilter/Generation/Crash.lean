import JaroFilter.Generation.Install

/-!
# Crashes

Runs of a transaction that are killed, any number of killed recoveries, and
what one complete recovery and a reader then make of the root.
-/

namespace JaroFilter

open Lib

/-- A transaction from `d` was killed in `t`, and any number of recoveries after it. -/
inductive Crashed (host : Host) (change : Option Change) (old : Bytes) (p : Products) (d t : Disk) :
    Disk → Prop
  | first : Prog.Crash disks (transact host change old p) d t → Crashed host change old p d t t
  | again {u w : Disk} : Crashed host change old p d t u → Prog.Crash disks (recover host) u w →
      Crashed host change old p d t w

/-- A transaction that may begin: no transaction file is left, the selector is read, the
generation is in place and the inputs of an import are those on disk. -/
structure Begins (host : Host) (change : Option Change) (old : Bytes) (p : Products) (d : Disk) : Prop where
  settled : Settled d
  selector : selector d = .ok old
  installed : Installed host d p
  reads : ∀ c, change = some c → Reads host d c

section Crashes

variable {host : Host} {change : Option Change} {old : Bytes} {p : Products} {d t u : Disk}

theorem Begins.safe (h : Begins host change old p d) :
    Prog.Safe disks (Decided host (Installed host d p) (view d) (newView d change p))
      (transact host change old p) d
      (Finished host (Installed host d p) (view d) (newView d change p)) :=
  safe_transact h.settled h.selector h.installed.id_valid h.reads

theorem Begins.decided (h : Begins host change old p d) {t : Disk}
    (hc : Prog.Crash disks (transact host change old p) d t) :
    Decided host (Installed host d p) (view d) (newView d change p) t :=
  Prog.safe_crash disks (settled_clean h.settled h.selector).recoverable.decided h.safe hc

/-- The side is chosen by the marker at the first crash and never changes. -/
theorem Crashed.recoverable (h : Begins host change old p d) (hc : Crashed host change old p d t u) :
    ∃ marked, Recoverable host marked
      (if t.files (.engine .committed) ≠ none then newView d change p else view d) u := by
  induction hc with
  | first hfirst =>
    have hdecided := h.decided hfirst
    by_cases hm : t.files (.engine .committed) = none
    · rw [if_neg (by simp [hm])]
      have hback := hdecided.back
      rw [Disk.set_same t hm] at hback
      exact ⟨false, hback⟩
    · rw [if_pos hm]
      exact ⟨true, hdecided.on h.installed hm⟩
  | again _ hnext ih =>
    obtain ⟨marked, hu⟩ := ih
    exact ⟨marked, Prog.safe_crash disks hu (safe_recover hu) hnext⟩

theorem Recoverable.run {marked : Bool} {v : View} (h : Recoverable host marked v u) :
    Recovered v (Prog.run disks (recover host) u).1 (Prog.run disks (recover host) u).2 :=
  Prog.safe_run disks (safe_recover h)

/-! ### Readers -/

theorem committedJournal_none {d : Disk} (h : d.files (.engine .committed) = none) :
    committedJournal host d = none := by
  have hmarker : ∀ next, markerOf host d next = false := by
    intro next
    rw [markerOf, h]
    rfl
  unfold committedJournal
  split
  · rw [if_neg (by simp [hmarker])]
  · rfl

theorem committedJournal_no_journal {d : Disk} (h : d.files (.engine .journal) = none) :
    committedJournal host d = none := by
  have hread : readJournal host d = none := by
    rw [readJournal, h]
    rfl
  rw [committedJournal, hread]

/-- A reader is either fenced off or sees what recovery will show. -/
theorem Recoverable.fenced_or_shown {marked : Bool} {v : View} (h : Recoverable host marked v u) :
    unfinished host u = true ∨ view u = v := by
  cases h with
  | clean usable inputs journal exported marker =>
    rcases inputs with ⟨_, hin⟩ | ⟨lines, htext, _⟩
    · right
      obtain ⟨vi, ve, vc⟩ := v
      simp only [view, View.mk.injEq]
      exact ⟨funext hin, exported.1, exported.2⟩
    · left
      have hexists : existsAt u (.engine .importJournal) = true := by
        rw [existsAt, htext]
        rfl
      rw [unfinished, hexists, committedJournal_no_journal journal]
      simp
  | back usable inputs j rolls =>
    left
    have hexists : existsAt u (.engine .journal) = true := by
      rw [existsAt, rolls.journal]
      rfl
    rw [unfinished, hexists, committedJournal_none rolls.committed]
    simp
  | on usable inputs j g rolls marker =>
    right
    obtain ⟨vi, ve, vc⟩ := v
    simp only [view, View.mk.injEq]
    exact ⟨funext inputs.2, rolls.shows.1, rolls.shows.2⟩

theorem validateDirectory_id {dir : Directory} {id : Bytes} {g : Generation}
    (h : validateDirectory host dir id = .ok g) : g.id = id := by
  unfold validateDirectory at h
  split at h
  · cases h
  · obtain ⟨cache, _, h⟩ := bind_eq_ok_iff.mp h
    obtain ⟨zsh, _, h⟩ := bind_eq_ok_iff.mp h
    obtain ⟨sieve, _, h⟩ := bind_eq_ok_iff.mp h
    obtain ⟨actual, _, h⟩ := bind_eq_ok_iff.mp h
    obtain ⟨_, _, h⟩ := bind_eq_ok_iff.mp h
    simp only at h
    split at h
    · cases h
    · cases h
      rfl

theorem openGeneration_id {id : Bytes} {g : Generation} (h : openGeneration host d id = .ok g) :
    g.id = id := by
  unfold openGeneration at h
  split at h
  · split at h
    · exact validateDirectory_id h
    · cases h
  · cases h

/-- What a pin without a requested ID has read. -/
theorem pinLocked_selected {g : Generation} (h : pinLocked host u none = .ok g) :
    unfinished host u = false ∧ selector u = .ok g.id := by
  unfold pinLocked at h
  split at h
  · cases h
  · rename_i hfinished
    obtain ⟨id, hid, h⟩ := bind_eq_ok_iff.mp h
    obtain ⟨g', hopen, h⟩ := bind_eq_ok_iff.mp h
    have hg : g' = g := by
      split at h
      · have hpublic : ∀ published : Generation, (if publicStatus host u published.sieve = 0 then
            (Except.ok g' : Except ℕ Generation) else .error (publicStatus host u published.sieve)) = .ok g →
            g' = g := by
          intro published hp
          split at hp
          · cases hp
            rfl
          · cases hp
        simp only at h
        split at h
        · exact hpublic g' h
        · obtain ⟨published, _, h⟩ := bind_eq_ok_iff.mp h
          exact hpublic published h
      · cases h
        rfl
    refine ⟨by simpa using hfinished, ?_⟩
    unfold pinId at hid
    simp only at hid
    split at hid
    · rename_i selected hsel
      split at hid
      · cases hid
      · cases hid
        rw [hsel, ← hg, openGeneration_id hopen]
    · cases hid

theorem selector_congr {d e : Disk} (h : view d = view e) : selector d = selector e := by
  have hcurrent : d.files (.engine .current) = e.files (.engine .current) := congrArg View.current h
  rw [selector, hcurrent, selector]

end Crashes

/-- A root that holds nothing but the generation of a build. -/
def bareRoot (p : Products) : Disk where
  files := fun _ => none
  staged := false
  generations := fun id => if id = p.id then some (productDirectory p) else none

/-- The owner's reads are decided by the owner's bit. -/
def ownerHost : Host := ⟨fun mode => 256 ≤ mode.val, by decide⟩

end JaroFilter
