import JaroFilter.Batch.MoveCodes

/-!
# Runs of the batch (`jaro-filter.c:264-410`, `500-537`, `590-609`)

The decisions of a classify run and of an apply run with and without a pool, one
for every occurrence, and what its calls make of each.
-/

namespace JaroFilter

open Lib

/-! ### Decisions of a classify run -/

/-- The calls for one occurrence of a classify run; `there` is what `already_there`
returns, `none` for -1. -/
structure ClassifyVisit where
  interrupted : Bool
  prepare : PrepareLook
  there : Option Bool
  closed : Bool
  written : Bool

/-- The decision of `classify` without a storage (`jaro-filter.c:376-390`). -/
def classifyDecision (i : ℕ) (item : Selected) (v : ClassifyVisit) : Decision :=
  let d := (prepare [] i item none v.prepare).2
  let d := if d.rc = 0 then
      match v.there with
      | none => { d with rc := 3 }
      | some same => { d with noop := same }
    else d
  (closeDecision [] d v.closed).2

/-! ### The decisions of a run -/

/-- What `classify` returns for a closed decision. -/
def classifyStatus (d : Decision) (written : Bool) : ℕ := if d.quarantine then 3 else emitStatus d written

/-- The loop of a classify run; `none` is a run that ends with another status than 0 or 7. -/
def classifyRun : List ClassifyVisit → ℕ → List Selected → Option (List Decision)
  | _, _, [] => some []
  | [], _, _ :: _ => none
  | v :: visits, n, item :: items =>
    let d := classifyDecision n item v
    if v.interrupted || classifyStatus d v.written == 3 then none
    else (classifyRun visits (n + 1) items).map (d :: ·)

/-- The loop of an apply run without a pool (`jaro-filter.c:603-608`). -/
def serialRun (lock : Stat) : List Visit → ℕ → List Selected → Option (List Decision)
  | [], n, items => if n < items.length then none else some []
  | v :: visits, n, items =>
    match items[n]? with
    | none => some []
    | some item =>
      let p := prepare items n item (some lock) v.prepare
      let c := closeDecision p.1 (moveDecision p.2 v.move).1 v.closed
      if v.interrupted || classifyStatus c.2 v.written == 3 then none
      else (serialRun lock visits (n + 1) c.1).map (c.2 :: ·)

/-- The loop of an apply run with a pool (`jaro-filter.c:500-537`). -/
def parallelRun (lock : Stat) : List Round → ℕ → List Selected → Option (List Decision)
  | [], start, items => if start < items.length then none else some []
  | r :: rounds, start, items =>
    if start < items.length then
      let w := fillWindow lock r.visits start 0 items
      let closed := closeWindow w.1 (w.2.map fun x => ((moveDecision x.1 x.2.move).1, x.2))
      if windowFails closed.2 || w.2.any (fun x => x.1.quarantine) || r.stopped then none
      else (parallelRun lock rounds (start + w.2.length) closed.1).map (closed.2.map Prod.fst ++ ·)
    else some []

/-- The ways to run a batch. -/
inductive BatchRun where
  | classify (visits : List ClassifyVisit)
  | alone (visits : List Visit)
  | pooled (rounds : List Round)

def BatchRun.apply : BatchRun → Bool
  | .classify _ => false
  | _ => true

/-- The items a run begins with; only an apply run takes a snapshot. -/
def BatchRun.start (run : BatchRun) (looks : ℕ → SnapshotLook) (room : Bool) (items : List Selected) :
    Except ℕ (List Selected) :=
  if run.apply then snapshotPaths items looks room else .ok items

/-- The decisions a run emits, of a run that ends with status 0 or 7. -/
def BatchRun.decisions (lock : Stat) (items : List Selected) : BatchRun → Option (List Decision)
  | .classify visits => classifyRun visits 0 items
  | .alone visits => serialRun lock visits 0 items
  | .pooled rounds => parallelRun lock rounds 0 items

/-- The status of a run whose records are all written. -/
def batchStatus (ds : List Decision) : ℕ := if ds.any fun d => d.rc != 0 then 7 else 0

/-- The records of a run. -/
def batchRows (apply : Bool) (root : Bytes) (items : List Selected) (ds : List Decision) : List (List Bytes) :=
  ds.map fun d => decisionRow apply root ((items[d.item]?.map Selected.path).getD []) d

/-! ### What the calls return -/

section Answers

variable (posix : Posix) (p : Policy)

/-- The headers are those the reader returns, and the verdict is the classifier's, unless
memory runs out. -/
structure PrepareLook.Answered (look : PrepareLook) : Prop where
  headers : ∀ rc code, look.headers = .error (rc, code) →
    rc = 3 ∧ code ≠ some (cstr "E_MESSAGE_IO") ∨
      ∃ reads f, headersRead reads = .error f ∧ (rc, code) = headersAnswer f
  winner : ∀ m r, look.verdict m = .ok r → ∃ i, policyClassify posix p m = .ok (some i) ∧ p.rules[i]? = some r
  refused : ∀ m rc code, look.verdict m = .error (rc, code) → rc ≠ 0 ∧
    (rc = 3 ∨ ∃ e, policyClassify posix p m = .error e ∧ code = e.error.code.name)

/-- The move is one of `jf_storage_move`. -/
def MoveLook.Answered (look : MoveLook) : Prop :=
  ∃ input sequence answers limits copyDetail, isErrorCode copyDetail = true ∧
    look.result = (moveRun input sequence answers limits copyDetail).1.rc ∧
    look.detail = (moveRun input sequence answers limits copyDetail).1.detail

structure Visit.Answered (v : Visit) : Prop where
  prepare : v.prepare.Answered posix p
  move : v.move.Answered

/-- Every call of the run returns what the modelled functions can return. -/
def BatchRun.Answered : BatchRun → Prop
  | .classify visits => ∀ v ∈ visits, v.prepare.Answered posix p
  | .alone visits => ∀ v ∈ visits, v.Answered posix p
  | .pooled rounds => ∀ r ∈ rounds, ∀ v ∈ r.visits, v.Answered posix p

end Answers

/-! ### Decisions that can be shown -/

/-- A decision whose record the consumer takes. -/
structure Presentable (d : Decision) : Prop where
  winner : ∀ r, d.winner = some r → Shown r
  chosen : d.rc = 0 → d.winner.isSome
  coded : d.rc ≠ 0 → d.rc ≠ 3 → ∃ code, d.detail = some code ∧ isErrorCode code = true

/-- An item that is refused names an error. -/
def Selected.Coded (item : Selected) : Prop := ∀ code, item.error = some code → isErrorCode code = true

theorem Presentable.fails {d : Decision} (h : d.winner = none) (hrc : d.rc ≠ 0) {detail : String}
    (hd : isErrorCode (cstr detail) = true) : Presentable (d.fails detail) := by
  refine ⟨?_, fun h0 => absurd h0 hrc, fun _ _ => ⟨_, rfl, hd⟩⟩
  intro r hr
  have hr : d.winner = some r := hr
  rw [h] at hr
  cases hr

section Presents

variable {posix : Posix} {p : Policy}

theorem prepareMessage_presents (hp : ∀ r ∈ p.rules, Shown r) {look : PrepareLook}
    (hl : look.Answered posix p) {d : Decision} (hw : d.winner = none) (hrc : d.rc = 7) :
    Presentable (prepareMessage d look) := by
  have hne : d.rc ≠ 0 := by rw [hrc]; decide
  have hnone : ∀ r, d.winner = some r → Shown r := by
    intro r hr
    rw [hw] at hr
    cases hr
  unfold prepareMessage
  split
  · next rc code hheaders =>
    refine ⟨hnone, fun h0 => ?_, fun _ h3 => ?_⟩
    · dsimp only at h0
      split at h0
      · cases h0
      · next hno =>
        rw [not_or, not_not] at hno
        rw [hno.1] at h0
        cases h0
    · rcases hl.headers rc code hheaders with ⟨rfl, hio⟩ | ⟨reads, f, _, hf⟩
      · exact absurd (if_neg (by simpa using hio)) h3
      · obtain ⟨c, hc, hcode⟩ := headersAnswer_code f
        rw [← hf] at hc
        exact ⟨c, hc, hcode⟩
  · next headers hheaders =>
    split
    · next after current hafter hcurrent =>
      split
      · split
        · next rc code hverdict =>
          obtain ⟨h0, hcode⟩ := hl.refused _ _ _ hverdict
          refine ⟨hnone, fun h => absurd h h0, fun _ h3 => ?_⟩
          rcases hcode with hcode | ⟨e, _, hcode⟩
          · exact absurd hcode h3
          · exact ⟨_, rfl, by rw [hcode]; exact isErrorCode_name _⟩
        · next r hverdict =>
          obtain ⟨i, _, hi⟩ := hl.winner _ _ hverdict
          have hr : Shown r := hp r (List.mem_of_getElem? hi)
          split
          · refine ⟨?_, fun _ => rfl, fun h => absurd rfl h⟩
            rintro _ ⟨⟩
            exact hr
          · refine ⟨?_, fun h => (nomatch h), fun _ h => absurd rfl h⟩
            rintro _ ⟨⟩
            exact hr
      · exact Presentable.fails (by exact hw) (by exact hne) (by decide)
    · exact Presentable.fails (by exact hw) (by exact hne) (by decide)

theorem prepareEntry_presents (hp : ∀ r ∈ p.rules, Shown r) {look : PrepareLook}
    (hl : look.Answered posix p) {d : Decision} (hw : d.winner = none) (hrc : d.rc = 7) (item : Selected)
    (lock : Option Stat) : Presentable (prepareEntry d item lock look) := by
  have hne : d.rc ≠ 0 := by rw [hrc]; decide
  unfold prepareEntry
  split
  · exact Presentable.fails (by exact hw) (by simp) (by decide)
  · exact Presentable.fails (by exact hw) (by exact hne) (by decide)
  · split
    · exact Presentable.fails (by exact hw) (by exact hne) (by decide)
    · split
      · exact Presentable.fails (by exact hw) (by exact hne) (by decide)
      · split
        · exact Presentable.fails (by exact hw) (by exact hne) (by decide)
        · split
          · exact Presentable.fails (by exact hw) (by exact hne) (by decide)
          · unfold prepareFile
            split
            · exact Presentable.fails (by exact hw) (by exact hne) (by decide)
            · split
              · exact Presentable.fails (by exact hw) (by exact hne) (by decide)
              · dsimp only
                split
                · exact Presentable.fails (by exact hw) (by exact hne) (by decide)
                · split
                  · exact Presentable.fails (by exact hw) (by exact hne) (by decide)
                  · exact prepareMessage_presents hp hl hw hrc

theorem prepare_presents (hp : ∀ r ∈ p.rules, Shown r) {look : PrepareLook} (hl : look.Answered posix p)
    (items : List Selected) (i : ℕ) {item : Selected} (hitem : item.Coded) (lock : Option Stat) :
    Presentable (prepare items i item lock look).2 := by
  unfold prepare
  dsimp only
  split
  · exact Presentable.fails rfl (by simp) (by decide)
  · split
    · next code hcode =>
      exact ⟨fun _ h => (nomatch h), fun h => (nomatch h), fun _ _ => ⟨code, rfl, hitem code hcode⟩⟩
    · split
      · exact prepareEntry_presents hp hl rfl rfl item lock
      · split
        · exact Presentable.fails rfl (by simp) (by decide)
        · exact prepareEntry_presents hp hl rfl rfl item lock

theorem moveDecision_presents {d : Decision} (h : Presentable d) {look : MoveLook} (hl : look.Answered) :
    Presentable (moveDecision d look).1 := by
  obtain ⟨input, sequence, answers, limits, copyDetail, hcopy, _, hdetail⟩ := hl
  unfold moveDecision
  split
  · exact h
  · next h0 =>
    have h0 : d.rc = 0 := by simpa using h0
    split
    · exact ⟨h.winner, fun h => (nomatch h), fun _ _ => ⟨_, rfl, by decide⟩⟩
    · dsimp only
      split
      · exact ⟨h.winner, fun _ => h.chosen h0, fun hne => absurd rfl hne⟩
      · refine ⟨h.winner, fun _ => h.chosen h0, fun _ _ => ⟨_, rfl, ?_⟩⟩
        rw [hdetail]
        exact moveRun_coded input sequence answers limits hcopy

end Presents

/-- What `close_decision` makes of the decision itself. -/
def Decision.close (d : Decision) (closed : Bool) : Decision :=
  if d.fd && !d.quarantine then
    if !closed && d.rc == 0 then { d with rc := 7, detail := some (cstr "E_MESSAGE_IO"), fd := false }
    else { d with fd := false }
  else d

theorem closeDecision_eq (items : List Selected) (d : Decision) (closed : Bool) :
    closeDecision items d closed =
      if (d.close closed).noop && (d.close closed).rc == 0 then
        match items[(d.close closed).item]?.bind Selected.first with
        | some f => (setAttempted items f false, d.close closed)
        | none => (items, d.close closed)
      else (items, d.close closed) := rfl

theorem closeDecision_decision (items : List Selected) (d : Decision) (closed : Bool) :
    (closeDecision items d closed).2 = d.close closed := by
  rw [closeDecision_eq]
  split
  · split
    · rfl
    · rfl
  · rfl

theorem Decision.close_item (d : Decision) (closed : Bool) : (d.close closed).item = d.item := by
  unfold Decision.close
  split
  · split <;> rfl
  · rfl

theorem closeDecision_presents {d : Decision} (h : Presentable d) (items : List Selected) (closed : Bool) :
    Presentable (closeDecision items d closed).2 := by
  rw [closeDecision_decision, Decision.close]
  split
  · split
    · exact ⟨h.winner, fun h => (nomatch h), fun _ _ => ⟨_, rfl, by decide⟩⟩
    · exact ⟨h.winner, h.chosen, h.coded⟩
  · exact h

theorem classifyDecision_presents {posix : Posix} {p : Policy} (hp : ∀ r ∈ p.rules, Shown r)
    {v : ClassifyVisit} (hv : v.prepare.Answered posix p) (i : ℕ) {item : Selected} (hitem : item.Coded) :
    Presentable (classifyDecision i item v) := by
  have h := prepare_presents hp hv [] i hitem none
  unfold classifyDecision
  apply closeDecision_presents
  split
  · next h0 =>
    split
    · exact ⟨h.winner, fun h => (nomatch h), fun _ h => absurd rfl h⟩
    · exact ⟨h.winner, fun _ => h.chosen h0, fun hne => absurd h0 hne⟩
  · exact h

/-! ### Items -/

/-- An item of a selection, refused or not. -/
structure Selected.Sound (item : Selected) : Prop where
  path : item.path ≠ []
  path_nul : 0 ∉ item.path
  coded : item.Coded

/-- The items of a batch of `total` occurrences. -/
structure SoundItems (total : ℕ) (items : List Selected) : Prop where
  length : items.length = total
  sound : ∀ item ∈ items, item.Sound

theorem SoundItems.at {total : ℕ} {items : List Selected} (h : SoundItems total items) {n : ℕ}
    {item : Selected} (hn : items[n]? = some item) : n < total ∧ item.Sound := by
  refine ⟨?_, h.sound item (List.mem_of_getElem? hn)⟩
  rw [← h.length]
  exact (List.getElem?_eq_some_iff.mp hn).1

theorem SoundItems.setAttempted {total : ℕ} {items : List Selected} (h : SoundItems total items) (f : ℕ)
    (attempted : Bool) : SoundItems total (setAttempted items f attempted) := by
  refine ⟨by rw [JaroFilter.setAttempted, List.length_modify, h.length], ?_⟩
  intro item hitem
  obtain ⟨i, hi⟩ := List.mem_iff_getElem?.mp hitem
  rw [JaroFilter.setAttempted, List.getElem?_modify] at hi
  obtain ⟨old, hold, hi⟩ := Option.map_eq_some_iff.mp hi
  have hs := h.sound old (List.mem_of_getElem? hold)
  split at hi
  · subst hi
    exact ⟨hs.path, hs.path_nul, hs.coded⟩
  · subst hi
    exact hs

theorem Chosen.sound {s : Selection} (h : Chosen s) :
    s.items.length ≤ pathCountMax ∧ ∀ item ∈ s.items, item.Sound := by
  induction h with
  | start => exact ⟨Nat.zero_le _, fun _ h => absurd h List.not_mem_nil⟩
  | @select s s' path identity h hpath hs ih =>
    unfold selectPath at hs
    split at hs
    · cases hs
    · next hok =>
      rw [not_or, not_or] at hok
      cases hs
      refine ⟨?_, fun item hitem => ?_⟩
      · have := ih.1
        simp only [List.length_append, List.length_singleton]
        omega
      · rcases List.mem_append.mp hitem with hitem | hitem
        · exact ih.2 item hitem
        · obtain rfl := List.mem_singleton.mp hitem
          have hne : path ≠ [] := fun hnil => hok.1 (by rw [hnil]; rfl)
          cases identity with
          | none => exact ⟨hne, hpath, fun _ h => (nomatch h)⟩
          | some st => exact ⟨hne, hpath, fun _ h => (nomatch h)⟩
  | @sort s items h hperm ih =>
    exact ⟨by rw [hperm.length_eq]; exact ih.1, fun item hitem => ih.2 item (hperm.mem_iff.mp hitem)⟩

theorem snapshotItem_sound {item item' : Selected} {look : SnapshotLook} (h : item.Sound)
    (hs : snapshotItem item look = .ok item') : item'.Sound := by
  have hopen : ({ item with error := some (cstr "E_MESSAGE_OPEN") } : Selected).Sound :=
    ⟨h.path, h.path_nul, by rintro _ ⟨⟩; decide⟩
  rw [snapshotItem] at hs
  split at hs
  · cases hs
    exact h
  · split at hs
    · cases hs
    · split at hs
      · cases hs
      · cases hs
        exact hopen
      · split at hs
        · cases hs
          exact hopen
        · split at hs
          · cases hs
            exact ⟨h.path, h.path_nul, h.coded⟩
          · cases hs
            exact ⟨h.path, h.path_nul, by rintro _ ⟨⟩; decide⟩

theorem snapshotItems_sound {looks : ℕ → SnapshotLook} {items items' : List Selected} {i : ℕ}
    (h : ∀ item ∈ items, item.Sound) (hs : snapshotItems looks items i = .ok items') :
    SoundItems items.length items' := by
  induction items generalizing i items' with
  | nil =>
    cases hs
    exact ⟨rfl, h⟩
  | cons item items ih =>
    obtain ⟨x, hx, hs⟩ := bind_eq_ok_iff.mp hs
    obtain ⟨xs, hxs, hs⟩ := bind_eq_ok_iff.mp hs
    cases hs
    have hrest := ih (fun y hy => h y (List.mem_cons_of_mem _ hy)) hxs
    refine ⟨by rw [List.length_cons, List.length_cons, hrest.length], fun y hy => ?_⟩
    rcases List.mem_cons.mp hy with rfl | hy
    · exact snapshotItem_sound (h item (by simp)) hx
    · exact hrest.sound y hy

/-- A run begins with sound items, as many as were selected. -/
theorem BatchRun.start_sound {run : BatchRun} {looks : ℕ → SnapshotLook} {room : Bool} {s : Selection}
    {items : List Selected} (h : Chosen s) (hs : run.start looks room s.items = .ok items) :
    SoundItems s.items.length items := by
  unfold BatchRun.start at hs
  split at hs
  · unfold snapshotPaths at hs
    split at hs
    · cases hs
    · next taken htaken =>
      split at hs
      · cases hs
        have hsound := snapshotItems_sound h.sound.2 htaken
        refine ⟨by simp [setFirsts, hsound.length], fun item hitem => ?_⟩
        obtain ⟨i, hi⟩ := List.mem_iff_getElem?.mp hitem
        rw [setFirsts_get] at hi
        obtain ⟨old, hold, rfl⟩ := Option.map_eq_some_iff.mp hi
        have hold := hsound.sound old (List.mem_of_getElem? hold)
        exact ⟨hold.path, hold.path_nul, hold.coded⟩
      · cases hs
  · cases hs
    exact ⟨rfl, h.sound.2⟩

/-! ### The decisions of the items -/

/-- The decisions of the items from `n` on, ready to be written. -/
def Told (total : ℕ) : ℕ → List Decision → Prop
  | _, [] => True
  | n, d :: ds => (d.item = n ∧ n < total ∧ Presentable d ∧ d.rc ≠ 3) ∧ Told total (n + 1) ds

theorem Told.append {total n : ℕ} {ds es : List Decision} (h : Told total n ds)
    (h' : Told total (n + ds.length) es) : Told total n (ds ++ es) := by
  induction ds generalizing n with
  | nil => exact h'
  | cons d ds ih =>
    refine ⟨h.1, ih h.2 ?_⟩
    rwa [List.length_cons, ← Nat.add_assoc, Nat.add_right_comm] at h'

theorem Told.length_le {total n : ℕ} {ds : List Decision} (h : Told total n ds) (hn : n ≤ total) :
    n + ds.length ≤ total := by
  induction ds generalizing n with
  | nil => exact hn
  | cons d ds ih =>
    have hrest := ih h.2 h.1.2.1
    rw [List.length_cons]
    omega

theorem Told.get {total n : ℕ} {ds : List Decision} (h : Told total n ds) {k : ℕ} {d : Decision}
    (hd : ds[k]? = some d) : d.item = n + k ∧ n + k < total ∧ Presentable d ∧ d.rc ≠ 3 := by
  induction ds generalizing n k with
  | nil => cases hd
  | cons x ds ih =>
    cases k with
    | zero =>
      cases hd
      exact h.1
    | succ k =>
      obtain ⟨h1, h2, h3⟩ := ih h.2 hd
      exact ⟨by omega, by omega, h3⟩

/-- A written record leaves no status 3. -/
theorem classifyStatus_ne {d : Decision} {written : Bool} (h : classifyStatus d written ≠ 3) : d.rc ≠ 3 := by
  intro h3
  unfold classifyStatus at h
  split at h
  · exact h rfl
  · simp [emitStatus, h3] at h

section Loops

variable {posix : Posix} {p : Policy} {total : ℕ}

theorem prepareMessage_item (d : Decision) (look : PrepareLook) : (prepareMessage d look).item = d.item := by
  unfold prepareMessage
  split
  · rfl
  · split
    · split
      · split
        · rfl
        · split <;> rfl
      · rfl
    · rfl

theorem prepare_item (items : List Selected) (i : ℕ) (item : Selected) (lock : Option Stat)
    (look : PrepareLook) :
    (prepare items i item lock look).2.item = i := by
  have hentry : ∀ d : Decision, (prepareEntry d item lock look).item = d.item := by
    intro d
    unfold prepareEntry prepareFile
    dsimp only
    repeat' split
    all_goals first
      | rfl
      | exact prepareMessage_item _ _
  unfold prepare
  dsimp only
  repeat' split
  all_goals first
    | rfl
    | exact hentry _

theorem classifyDecision_item (i : ℕ) (item : Selected) (v : ClassifyVisit) :
    (classifyDecision i item v).item = i := by
  have hprepare := prepare_item [] i item none v.prepare
  unfold classifyDecision
  dsimp only
  rw [closeDecision_decision, Decision.close_item]
  split
  · split
    · exact hprepare
    · exact hprepare
  · exact hprepare

theorem classifyRun_told (hp : ∀ r ∈ p.rules, Shown r) {visits : List ClassifyVisit}
    (hv : ∀ v ∈ visits, v.prepare.Answered posix p) {n : ℕ} {items : List Selected} {ds : List Decision}
    (hs : ∀ item ∈ items, item.Sound) (hn : n + items.length = total)
    (h : classifyRun visits n items = some ds) : Told total n ds ∧ n + ds.length = total := by
  induction items generalizing visits n ds with
  | nil =>
    have h : some [] = some ds := by cases visits <;> exact h
    cases h
    exact ⟨trivial, hn⟩
  | cons item items ih =>
    cases visits with
    | nil => cases h
    | cons v visits =>
      simp only [classifyRun] at h
      split at h
      · cases h
      · next hgood =>
        simp only [Bool.or_eq_true, beq_iff_eq, not_or] at hgood
        obtain ⟨rest, hrest, rfl⟩ := Option.map_eq_some_iff.mp h
        rw [List.length_cons] at hn
        obtain ⟨htold, hlen⟩ := ih (fun w hw => hv w (by simp [hw]))
          (fun x hx => hs x (List.mem_cons_of_mem _ hx)) (by omega) hrest
        refine ⟨⟨⟨classifyDecision_item n item v, by omega, ?_, classifyStatus_ne hgood.2⟩, htold⟩, ?_⟩
        · exact classifyDecision_presents hp (hv v (by simp)) n (hs item (by simp)).coded
        · rw [List.length_cons]
          omega

theorem prepare_kept {items : List Selected} (h : SoundItems total items) (i : ℕ) (item : Selected)
    (lock : Option Stat) (look : PrepareLook) : SoundItems total (prepare items i item lock look).1 := by
  unfold prepare
  dsimp only
  split
  · exact h
  · split
    · exact h
    · split
      · exact h
      · split
        · exact h
        · exact h.setAttempted _ _

theorem moveDecision_item (d : Decision) (look : MoveLook) : (moveDecision d look).1.item = d.item := by
  unfold moveDecision
  dsimp only
  repeat' split
  all_goals rfl

theorem closeDecision_kept {items : List Selected} (h : SoundItems total items) (d : Decision) (closed : Bool) :
    SoundItems total (closeDecision items d closed).1 := by
  rw [closeDecision_eq]
  split
  · split
    · exact h.setAttempted _ _
    · exact h
  · exact h

theorem serialRun_told (hp : ∀ r ∈ p.rules, Shown r) {lock : Stat} {visits : List Visit}
    (hv : ∀ v ∈ visits, v.Answered posix p) {n : ℕ} {items : List Selected} {ds : List Decision}
    (hs : SoundItems total items) (hn : n ≤ total) (h : serialRun lock visits n items = some ds) :
    Told total n ds ∧ n + ds.length = total := by
  induction visits generalizing n items ds with
  | nil =>
    simp only [serialRun] at h
    split at h
    · cases h
    · cases h
      rw [hs.length] at *
      exact ⟨trivial, by simp; omega⟩
  | cons v visits ih =>
    simp only [serialRun] at h
    split at h
    · next hnone =>
      cases h
      rw [List.getElem?_eq_none_iff, hs.length] at hnone
      exact ⟨trivial, by simp; omega⟩
    · next item hitem =>
      split at h
      · cases h
      · next hgood =>
        simp only [Bool.or_eq_true, beq_iff_eq, not_or] at hgood
        obtain ⟨rest, hrest, rfl⟩ := Option.map_eq_some_iff.mp h
        obtain ⟨hlt, hsound⟩ := hs.at hitem
        obtain ⟨hvp, hvm⟩ := hv v (by simp)
        have hkept := closeDecision_kept (prepare_kept hs n item lock v.prepare)
          (moveDecision (prepare items n item lock v.prepare).2 v.move).1 v.closed
        obtain ⟨htold, hlen⟩ := ih (fun w hw => hv w (by simp [hw])) hkept hlt hrest
        refine ⟨⟨⟨?_, hlt, ?_, classifyStatus_ne hgood.2⟩, htold⟩, ?_⟩
        · rw [closeDecision_decision, Decision.close_item, moveDecision_item, prepare_item]
        · exact closeDecision_presents (moveDecision_presents
            (prepare_presents hp hvp items n hsound.coded lock) hvm) _ _
        · rw [List.length_cons]
          omega

/-- Decisions of a window, with the calls that go on with them. -/
def Queued (posix : Posix) (p : Policy) (total : ℕ) : ℕ → List (Decision × Visit) → Prop
  | _, [] => True
  | n, x :: xs => (x.1.item = n ∧ n < total ∧ Presentable x.1 ∧ x.2.Answered posix p) ∧
    Queued posix p total (n + 1) xs

theorem fillWindow_queued (hp : ∀ r ∈ p.rules, Shown r) {lock : Stat} {visits : List Visit}
    (hv : ∀ v ∈ visits, v.Answered posix p) {start count : ℕ} {items : List Selected}
    (hs : SoundItems total items) :
    SoundItems total (fillWindow lock visits start count items).1 ∧
      Queued posix p total (start + count) (fillWindow lock visits start count items).2 := by
  induction visits generalizing count items with
  | nil => exact ⟨hs, trivial⟩
  | cons v visits ih =>
    rw [fillWindow]
    split
    · exact ⟨hs, trivial⟩
    · split
      · exact ⟨hs, trivial⟩
      · next item hitem =>
        split
        · exact ⟨hs, trivial⟩
        · obtain ⟨hlt, hsound⟩ := hs.at hitem
          have hvisit := hv v (by simp)
          have hkept := prepare_kept hs (start + count) item lock v.prepare
          have hpresent := prepare_presents hp hvisit.prepare items (start + count) hsound.coded lock
          have hindex := prepare_item items (start + count) item lock v.prepare
          generalize prepare items (start + count) item lock v.prepare = x at hkept hpresent hindex
          have hd : (if x.2.rc = 0 ∧ v.parentKept = false then
                ({ x.2 with rc := 7 } : Decision).fails "E_MESSAGE_CHANGED" else x.2).item = start + count ∧
              Presentable (if x.2.rc = 0 ∧ v.parentKept = false then
                ({ x.2 with rc := 7 } : Decision).fails "E_MESSAGE_CHANGED" else x.2) := by
            split
            · refine ⟨hindex, hpresent.winner, ?_, fun _ _ => ⟨_, rfl, by decide⟩⟩
              intro h
              cases h
            · exact ⟨hindex, hpresent⟩
          dsimp only
          generalize (if x.2.rc = 0 ∧ v.parentKept = false then
            ({ x.2 with rc := 7 } : Decision).fails "E_MESSAGE_CHANGED" else x.2) = d at hd
          split
          · exact ⟨hkept, ⟨hd.1, hlt, hd.2, hvisit⟩, trivial⟩
          · have hrest := @ih (fun w hw => hv w (by simp [hw])) (count + 1) x.1 hkept
            exact ⟨hrest.1, ⟨hd.1, hlt, hd.2, hvisit⟩, hrest.2⟩

theorem Queued.moved {n : ℕ} {xs : List (Decision × Visit)} (h : Queued posix p total n xs) :
    Queued posix p total n (xs.map fun x => ((moveDecision x.1 x.2.move).1, x.2)) := by
  induction xs generalizing n with
  | nil => trivial
  | cons x xs ih =>
    obtain ⟨⟨hi, hlt, hx, hv⟩, hrest⟩ := h
    exact ⟨⟨(moveDecision_item _ _).trans hi, hlt, moveDecision_presents hx hv.move, hv⟩, ih hrest⟩

theorem closeWindow_told {n : ℕ} {xs : List (Decision × Visit)} {items : List Selected}
    (hs : SoundItems total items) (h : Queued posix p total n xs)
    (hgood : windowFails (closeWindow items xs).2 = false) :
    SoundItems total (closeWindow items xs).1 ∧ Told total n ((closeWindow items xs).2.map Prod.fst) ∧
      (closeWindow items xs).2.length = xs.length := by
  induction xs generalizing n items with
  | nil => exact ⟨hs, trivial, rfl⟩
  | cons x xs ih =>
    obtain ⟨d, v⟩ := x
    obtain ⟨⟨hi, hlt, hx, hv⟩, hrest⟩ := h
    have hkept := closeDecision_kept hs d v.closed
    have hitem : (closeDecision items d v.closed).2.item = d.item := by
      rw [closeDecision_decision, Decision.close_item]
    simp only [closeWindow, windowFails, List.any_cons, Bool.or_eq_false_iff] at hgood
    obtain ⟨hsound, htold, hlen⟩ := ih hkept hrest hgood.2
    refine ⟨hsound, ⟨⟨hitem.trans hi, hlt, closeDecision_presents hx _ _, ?_⟩, htold⟩, ?_⟩
    · intro h3
      have hstatus := hgood.1
      have h3 : (closeDecision items d v.closed).2.rc = 3 := h3
      simp [emitStatus, h3] at hstatus
    · simp only [closeWindow, List.length_cons, hlen]

theorem parallelRun_told (hp : ∀ r ∈ p.rules, Shown r) {lock : Stat} {rounds : List Round}
    (hr : ∀ r ∈ rounds, ∀ v ∈ r.visits, v.Answered posix p) {start : ℕ} {items : List Selected}
    {ds : List Decision} (hs : SoundItems total items) (hn : start ≤ total)
    (h : parallelRun lock rounds start items = some ds) : Told total start ds ∧ start + ds.length = total := by
  induction rounds generalizing start items ds with
  | nil =>
    simp only [parallelRun] at h
    split at h
    · cases h
    · next hend =>
      cases h
      rw [hs.length] at hend
      exact ⟨trivial, by simp; omega⟩
  | cons r rounds ih =>
    simp only [parallelRun] at h
    split at h
    · split at h
      · cases h
      · next hgood =>
        simp only [Bool.or_eq_true, not_or, Bool.not_eq_true] at hgood
        obtain ⟨rest, hrest, rfl⟩ := Option.map_eq_some_iff.mp h
        have hfill := @fillWindow_queued posix p total hp lock r.visits (hr r (by simp)) start 0 items hs
        obtain ⟨hsound, htold, hlen⟩ := closeWindow_told hfill.1 hfill.2.moved hgood.1.1
        rw [List.length_map] at hlen
        have hle := htold.length_le hn
        rw [List.length_map, hlen] at hle
        obtain ⟨htold', hlen'⟩ := ih (fun x hx => hr x (by simp [hx])) hsound hle hrest
        refine ⟨htold.append ?_, ?_⟩
        · rw [List.length_map, hlen]
          exact htold'
        · rw [List.length_append, List.length_map, hlen]
          omega
    · next hend =>
      cases h
      rw [hs.length] at hend
      exact ⟨trivial, by simp; omega⟩

/-- One decision for every item, in order. -/
theorem BatchRun.told (hp : ∀ r ∈ p.rules, Shown r) {lock : Stat} {run : BatchRun}
    (hr : run.Answered posix p) {items : List Selected} (hs : SoundItems total items) {ds : List Decision}
    (h : run.decisions lock items = some ds) : Told total 0 ds ∧ ds.length = total := by
  have hboth : Told total 0 ds ∧ 0 + ds.length = total := by
    cases run with
    | classify visits => exact classifyRun_told hp hr hs.sound (by rw [hs.length, Nat.zero_add]) h
    | alone visits => exact serialRun_told hp hr hs (Nat.zero_le _) h
    | pooled rounds => exact parallelRun_told hp hr hs (Nat.zero_le _) h
  rwa [Nat.zero_add] at hboth

end Loops

end JaroFilter
