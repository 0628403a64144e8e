import JaroFilter.Batch.Runs

/-!
# The decision stream (`jaro-filter.c:226-250`, `zlibs/filter-native:5-69`)

The consumer takes every stream a finished run has written, and reads back its
records and its status.
-/

namespace JaroFilter

open Lib

/-! ### The records -/

theorem isLineNumber_decimalText (n : ℕ) : isLineNumber (decimalText n) = true := by
  by_cases h : n = 0
  · subst h
    decide
  · cases htext : decimalText n with
    | nil => exact absurd htext (decimalText_ne_nil n)
    | cons c s =>
      have hdigits := decimalText_digits n
      have hhead := decimalText_head h
      rw [htext] at hdigits hhead
      have hc := hdigits c (by simp)
      have hne : c ≠ 48 := by simpa using hhead
      have hlow : 49 ≤ c := by
        have := hc.1
        grind
      simp only [isLineNumber, Bool.or_eq_true, Bool.and_eq_true, List.all_eq_true, decide_eq_true_eq,
        List.head?_cons, Option.any_some]
      exact Or.inr ⟨⟨hlow, hc.2⟩, hdigits⟩

theorem decisionRow_length (apply : Bool) (root path : Bytes) (d : Decision) :
    (decisionRow apply root path d).length = 11 := rfl

theorem isErrorRow_decisionRow (apply : Bool) (root path : Bytes) (d : Decision) :
    isErrorRow (decisionRow apply root path d) = (d.rc != 0) := by
  have hnames : cstr "noop" ≠ cstr "error" ∧ cstr "moved" ≠ cstr "error" ∧
      cstr "classified" ≠ cstr "error" := by decide
  by_cases h0 : d.rc = 0
  · cases hn : d.noop <;> cases apply <;> simp [isErrorRow, decisionRow, record, decisionStatus, h0, hn, hnames]
  · simp [isErrorRow, decisionRow, record, decisionStatus, h0]

/-- The consumer takes the record of every decision that can be shown. -/
theorem rowAccepted_decisionRow {apply : Bool} {root path : Bytes} {d : Decision} (h : Presentable d)
    (h3 : d.rc ≠ 3) (hroot : root.head? = some 47) (hpath : path ≠ []) :
    rowAccepted apply (d.item + 1) (decisionRow apply root path d) = true := by
  have hline := isLineNumber_decimalText
  unfold rowAccepted
  rw [isErrorRow_decisionRow]
  by_cases h0 : d.rc = 0
  · obtain ⟨r, hr⟩ := Option.isSome_iff_exists.mp (h.chosen h0)
    have hshown := h.winner r hr
    obtain ⟨c, s, rfl⟩ : ∃ c s, root = c :: s := by
      cases root with
      | nil => cases hroot
      | cons c s => exact ⟨c, s, rfl⟩
    have hslash : c = 47 := by simpa using hroot
    have hnames : cstr "noop" ≠ cstr "error" ∧ cstr "moved" ≠ cstr "error" ∧
        cstr "classified" ≠ cstr "error" ∧ cstr "moved" ≠ cstr "noop" ∧
        cstr "classified" ≠ cstr "noop" ∧ cstr "moved" ≠ cstr "classified" ∧
        cstr "classified" ≠ cstr "moved" := by decide
    obtain ⟨n1, n2, n3, n4, n5, n6, n7⟩ := hnames
    cases hn : d.noop <;> cases apply <;>
      simp [decisionRow, record, decisionStatus, h0, hn, hr, hpath, hline, hshown.id, hshown.id_ne,
        hshown.logical, hshown.sieve, hslash, n1, n2, n3, n4, n4.symm, n5, n5.symm, n6, n7]
  · obtain ⟨code, hdetail, hcode⟩ := h.coded h0 h3
    have hid : ((d.winner.map Rule.id).getD [] == [] || isRuleId ((d.winner.map Rule.id).getD [])) = true := by
      cases hw : d.winner with
      | none => rfl
      | some r => simp [(h.winner r hw).id]
    simp only [decisionRow, record, decisionStatus, h0, ne_eq, not_false_eq_true, if_true, if_false,
      hdetail, List.getD_cons_zero, List.getD_cons_succ]
    rw [hline, hid]
    simp [hpath, hcode, h0]

theorem decisionRow_nul {apply : Bool} {root path : Bytes} {d : Decision} (h : Presentable d)
    (h3 : d.rc ≠ 3) (hroot : 0 ∉ root) (hpath : 0 ∉ path) : ∀ f ∈ decisionRow apply root path d, 0 ∉ f := by
  have htexts : ∀ g : Rule → Bytes, (∀ r, Shown r → 0 ∉ g r) → 0 ∉ (d.winner.map g).getD [] := by
    intro g hg
    cases hw : d.winner with
    | none => exact List.not_mem_nil
    | some r => exact hg r (h.winner r hw)
  have hid := htexts Rule.id fun r hr => hr.texts _ (by simp)
  have hlogical := htexts Rule.logical fun r hr => hr.texts _ (by simp)
  have hsieve := htexts Rule.sieve fun r hr => hr.texts _ (by simp)
  have hsource := htexts Rule.source fun r hr => hr.texts _ (by simp)
  have hlocal : 0 ∉ (if d.rc = 0 then d.winner.map fun r => root ++ [47] ++ r.localDir else none).getD [] := by
    split
    · apply htexts
      intro r hr h0
      simp only [List.append_assoc, List.mem_append, List.mem_singleton] at h0
      rcases h0 with h0 | h0 | h0
      · exact hroot h0
      · exact absurd h0 (by decide)
      · exact hr.texts r.localDir (by simp) h0
    · exact List.not_mem_nil
  have hdetail : 0 ∉ (if d.rc = 0 then none else d.detail).getD [] := by
    split
    · exact List.not_mem_nil
    · next h0 =>
      obtain ⟨code, hcode, hc⟩ := h.coded h0 h3
      rw [hcode]
      exact isErrorCode_nul hc
  have hstatus : 0 ∉ cstr (decisionStatus apply d) := by
    unfold decisionStatus
    split
    · decide
    · split
      · decide
      · split <;> decide
  intro f hf
  simp only [decisionRow, record, List.mem_cons, List.not_mem_nil, or_false] at hf
  rcases hf with rfl | rfl | rfl | rfl | rfl | rfl | rfl | rfl | rfl | rfl | rfl
  · exact decimalText_nul _
  · exact hpath
  · exact hid
  · split <;> decide
  · split
    · exact List.not_mem_nil
    · exact hlogical
  · split
    · exact List.not_mem_nil
    · exact hlocal
  · split
    · exact List.not_mem_nil
    · exact hsieve
  · exact hstatus
  · exact hsource
  · exact decimalText_nul _
  · exact hdetail

theorem validId_nul {id : Bytes} (h : validId id = true) : 0 ∉ id := by
  intro h0
  simp only [validId, Bool.and_eq_true, List.all_eq_true] at h
  exact absurd (h.2 0 h0) (by decide)

/-- The stream of a run that ends with status 0 or 7 has one record for every occurrence and
passes every check of the consumer, which reads the records that were written and returns the
status of the run. -/
theorem decision_stream_agrees (posix : Posix) {cache : Bytes} {p : Policy} (hp : cachePolicy posix cache = .ok p)
    {s : Selection} (hs : Chosen s) {root id : Bytes} (hroot : root.head? = some 47) (hnul : 0 ∉ root)
    (hid : validId id = true) (run : BatchRun) (hrun : run.Answered posix p) {looks : ℕ → SnapshotLook}
    {room : Bool} {items : List Selected} (hitems : run.start looks room s.items = .ok items) (lock : Stat)
    {ds : List Decision} (hds : run.decisions lock items = some ds) :
    (batchRows run.apply root items ds).length = s.items.length ∧
      acceptedRows (decisionStream id (batchRows run.apply root items ds)) id run.apply =
        some (batchRows run.apply root items ds) ∧
      (batchStatus ds = 7 ↔ ∃ row ∈ batchRows run.apply root items ds, isErrorRow row = true) ∧
      nativeFilterRecords (decisionStream id (batchRows run.apply root items ds)) (batchStatus ds) id run.apply =
        batchStatus ds := by
  have hsound := run.start_sound hs hitems
  obtain ⟨htold, hlen⟩ := BatchRun.told (cachePolicy_shown hp) hrun hsound hds
  have hrows : (batchRows run.apply root items ds).length = s.items.length := by
    rw [batchRows, List.length_map, hlen]
  have hrow : ∀ k d, ds[k]? = some d → d.item = k ∧ Presentable d ∧ d.rc ≠ 3 ∧
      ((items[d.item]?.map Selected.path).getD []) ≠ [] ∧ 0 ∉ ((items[d.item]?.map Selected.path).getD []) := by
    intro k d hd
    obtain ⟨hi, hlt, hpresent, h3⟩ := htold.get hd
    rw [Nat.zero_add] at hi hlt
    rw [← hsound.length] at hlt
    have hitem := hsound.sound items[k] (List.getElem_mem hlt)
    rw [hi, List.getElem?_eq_getElem hlt]
    exact ⟨rfl, hpresent, h3, hitem.path, hitem.path_nul⟩
  have hread : readStream (decisionStream id (batchRows run.apply root items ds)) id =
      some (batchRows run.apply root items ds) := by
    apply readStream_decisions (validId_nul hid)
    · intro row hmem
      obtain ⟨d, _, rfl⟩ := List.mem_map.mp hmem
      exact decisionRow_length _ _ _ _
    · intro row hmem
      obtain ⟨d, hd, rfl⟩ := List.mem_map.mp hmem
      obtain ⟨k, hk⟩ := List.mem_iff_getElem?.mp hd
      obtain ⟨_, hpresent, h3, _, hpath⟩ := hrow k d hk
      exact decisionRow_nul hpresent h3 hnul hpath
    · rw [hrows]
      exact hs.sound.1
  have haccepted : acceptedRows (decisionStream id (batchRows run.apply root items ds)) id run.apply =
      some (batchRows run.apply root items ds) := by
    rw [acceptedRows, hread]
    apply if_pos
    rw [List.all_eq_true]
    rintro ⟨row, k⟩ hmem
    rw [List.mem_zipIdx_iff_getElem?, batchRows, List.getElem?_map] at hmem
    obtain ⟨d, hd, rfl⟩ := Option.map_eq_some_iff.mp hmem
    obtain ⟨hi, hpresent, h3, hpath, _⟩ := hrow k d hd
    have haccept := @rowAccepted_decisionRow run.apply root _ d hpresent h3 hroot hpath
    rw [hi] at haccept ⊢
    exact haccept
  have herror : (batchRows run.apply root items ds).any isErrorRow = ds.any fun d => d.rc != 0 := by
    rw [batchRows, List.any_map]
    congr 1
    funext d
    exact isErrorRow_decisionRow _ _ _ _
  refine ⟨hrows, haccepted, ?_, ?_⟩
  · rw [← List.any_eq_true, herror, batchStatus]
    split
    · next hany => simp [hany]
    · next hany => simp [hany]
  · rw [nativeFilterRecords, haccepted]
    dsimp only
    rw [herror, batchStatus]
    cases ds.any fun d => d.rc != 0 <;> rfl

theorem exists_cachePolicy_sample : ∃ cache p r, cachePolicy samplePosix cache = .ok p ∧
    policyClassify samplePosix p sampleMessage = .ok (some 1) ∧ p.rules[1]? = some r := by
  obtain ⟨out, hbuild⟩ := exists_eq_ok productsBuild_sample_isOk
  obtain ⟨rules, hrules, hpolicy⟩ := map_eq_ok_iff.mp policyParse_sample
  have hclassify := policyClassify_sample
  have hsecond : ∃ r, samplePolicy.rules[1]? = some r :=
    Option.isSome_iff_exists.mp (by decide)
  rw [← hpolicy] at hbuild hclassify hsecond
  obtain ⟨names, inventory, hparts⟩ := productsBuild_parts hbuild
  obtain ⟨r, hr⟩ := hsecond
  have hrule : rules[1]? = some r := hr
  refine ⟨_, _, restored sampleProfile r, cachePolicy_built (parseRules_resolved hrules) hparts, ?_, ?_⟩
  · rw [(preserves_restored sampleProfile).policyClassify]
    exact hclassify
  · show (rules.map (restored sampleProfile))[1]? = _
    rw [List.getElem?_map, hrule]
    rfl

/-- A visit whose message the classifier files by `r`; `result` and `detail` are the move's. -/
def filedVisit (r : Rule) (result : ℕ) (detail : Bytes) : Visit where
  interrupted := false
  prepare :=
    { source := true, parent := .opened, before := some sampleStat, opened := true, status := some sampleStat,
      headers := .ok ⟨sampleMessage, 0, []⟩, after := some sampleStat, current := some sampleStat,
      verdict := fun m => if m = sampleMessage then .ok r else .error (3, []), joined := true }
  parentKept := true
  move := ⟨false, result, detail⟩
  closed := true
  written := true

/-- Two occurrences of one message and one of another name of it: the first is in its place
already, the second is moved, the third comes too late. -/
def filedRun (r : Rule) (already moved : MoveResult) : BatchRun :=
  .alone [filedVisit r already.rc already.detail, filedVisit r moved.rc moved.detail,
    filedVisit r moved.rc moved.detail]

theorem filedVisit_answered {p : Policy} {r : Rule} {i : ℕ}
    (hwinner : policyClassify samplePosix p sampleMessage = .ok (some i)) (hr : p.rules[i]? = some r)
    (answers : ℕ → Bool) : (filedVisit r (moveRun sampleMove 0 answers (fun _ => .most 255) (cstr "E_STORE")).1.rc
      (moveRun sampleMove 0 answers (fun _ => .most 255) (cstr "E_STORE")).1.detail).Answered samplePosix p := by
  refine ⟨⟨fun rc code h => (by cases h), fun m r' h => ?_, fun m rc code h => ?_⟩,
    ⟨sampleMove, 0, answers, fun _ => .most 255, cstr "E_STORE", by decide, rfl, rfl⟩⟩
  · simp only [filedVisit] at h
    split at h
    · rename_i hm
      cases h
      exact ⟨i, hm ▸ hwinner, hr⟩
    · cases h
  · simp only [filedVisit] at h
    split at h
    · cases h
    · cases h
      exact ⟨by decide, Or.inl rfl⟩

theorem sampleTaken_eq : sampleTaken =
    [⟨cstr "a", sampleStat, true, false, none, some 0⟩, ⟨cstr "b", sampleStat, true, false, none, some 0⟩,
      ⟨cstr "a", sampleStat, true, false, none, some 0⟩] := by
  decide

theorem filedRun_decisions (r : Rule) {already moved : MoveResult} (h1 : already.rc = 1) (h0 : moved.rc = 0) :
    ∃ ds, (filedRun r already moved).decisions {} sampleTaken = some ds ∧ batchStatus ds = 7 ∧
      (batchRows true (cstr "/r") sampleTaken ds).map (fun row => row.getD 7 []) =
        [cstr "noop", cstr "moved", cstr "error"] := by
  rw [sampleTaken_eq]
  simp [BatchRun.decisions, filedRun, filedVisit, h1, h0, serialRun, prepare, prepareEntry, prepareFile,
    prepareMessage, Decision.fails, sampleStat, storageSame, setAttempted, attemptedAt, moveDecision,
    closeDecision, classifyStatus, emitStatus, batchStatus, batchRows, decisionRow]
  exact ⟨rfl, rfl, rfl⟩

theorem decision_stream_agrees_sample : ∃ cache p r already moved ds,
    cachePolicy samplePosix cache = .ok p ∧
    policyClassify samplePosix p sampleMessage = .ok (some 1) ∧ p.rules[1]? = some r ∧
    already = (moveRun sampleMove 0 (fun n => n ≠ 6) (fun _ => .most 255) (cstr "E_STORE")).1 ∧
    moved = (moveRun sampleMove 0 (fun _ => true) (fun _ => .most 255) (cstr "E_STORE")).1 ∧
    (filedRun r already moved).decisions {} sampleTaken = some ds ∧
    acceptedRows (decisionStream (List.replicate 64 48) (batchRows true (cstr "/r") sampleTaken ds))
      (List.replicate 64 48) true = some (batchRows true (cstr "/r") sampleTaken ds) ∧
    (batchRows true (cstr "/r") sampleTaken ds).map (fun row => row.getD 7 []) =
      [cstr "noop", cstr "moved", cstr "error"] ∧ batchStatus ds = 7 := by
  obtain ⟨cache, p, r, hp, hwinner, hr⟩ := exists_cachePolicy_sample
  obtain ⟨already, halready⟩ : ∃ x, x = (moveRun sampleMove 0 (fun n => n ≠ 6) (fun _ => .most 255)
    (cstr "E_STORE")).1 := ⟨_, rfl⟩
  obtain ⟨moved, hmoved⟩ : ∃ x, x = (moveRun sampleMove 0 (fun _ => true) (fun _ => .most 255)
    (cstr "E_STORE")).1 := ⟨_, rfl⟩
  have h1 : already.rc = 1 := by
    rw [halready]
    decide
  have h0 : moved.rc = 0 := by
    rw [hmoved]
    decide
  obtain ⟨ds, hds, hstatus, hrows⟩ := filedRun_decisions r h1 h0
  have hanswered : (filedRun r already moved).Answered samplePosix p := by
    intro v hv
    simp only [List.mem_cons, List.not_mem_nil, or_false] at hv
    rcases hv with rfl | rfl | rfl
    · rw [halready]
      exact filedVisit_answered hwinner hr _
    · rw [hmoved]
      exact filedVisit_answered hwinner hr _
    · rw [hmoved]
      exact filedVisit_answered hwinner hr _
  have hitems : (filedRun r already moved).start (fun _ => ⟨true, .opened, some sampleStat⟩) true
      sampleItems = .ok sampleTaken := rfl
  obtain ⟨_, haccepted, _, _⟩ := @decision_stream_agrees samplePosix cache p hp _ chosen_sampleItems (cstr "/r")
    (List.replicate 64 48) (by decide) (by decide) (by decide) (filedRun r already moved) hanswered _ _ _ hitems
    {} ds hds
  exact ⟨cache, p, r, already, moved, ds, hp, hwinner, hr, halready, hmoved, hds, haccepted, hrows, hstatus⟩

end JaroFilter
