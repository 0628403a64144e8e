import JaroFilter.Policy.Resolve

/-!
# What resolution computes (`policy.c:483-607`)

The records of a snapshot as the list of what its lines say, and the rules a
parse returns as a selection of that list: one entry a key, numbered by its
earlier equal records, in the order of the stages. The loops of `resolve` run
over sorted arrays; the selection is stated without them.
-/

namespace JaroFilter

open Lib

/-! ### The records of a snapshot -/

/-- The rules the lines of a source make, each with its line number. -/
def records (s : Source) : List Rule :=
  ((lines s.data).zipIdx 1).filterMap fun l =>
    match parseLine s l.2 (chopCr l.1) with
    | .ok r => r
    | .error _ => none

/-- The records in parse order, each with the index of its source. -/
def parsed (sources : List Source) : List (Rule × ℕ) :=
  (qsort compareSources sources.zipIdx).flatMap fun s => (records s.1).map fun r => (r, s.2)

/-- Entries numbered from `k` on. -/
def enter : ℕ → List (Rule × Option ℕ) → List Entry
  | _, [] => []
  | k, x :: xs => ⟨x.1, k, x.2⟩ :: enter (k + 1) xs

theorem enter_append (k : ℕ) (xs ys : List (Rule × Option ℕ)) :
    enter k (xs ++ ys) = enter k xs ++ enter (k + xs.length) ys := by
  induction xs generalizing k with
  | nil => rfl
  | cons x xs ih =>
    simp only [List.cons_append, enter, ih, List.length_cons, Nat.add_assoc, Nat.add_comm 1]

theorem enter_length (k : ℕ) (xs : List (Rule × Option ℕ)) : (enter k xs).length = xs.length := by
  induction xs generalizing k with
  | nil => rfl
  | cons x xs ih => simp only [enter, List.length_cons, ih]

theorem enter_order (k : ℕ) (xs : List (Rule × Option ℕ)) :
    (enter k xs).map Entry.order = List.range' k xs.length := by
  induction xs generalizing k with
  | nil => rfl
  | cons x xs ih => simp only [enter, List.map_cons, ih, List.length_cons, List.range'_succ]

theorem enter_rules (k : ℕ) (xs : List (Rule × Option ℕ)) :
    (enter k xs).map Entry.rule = xs.map Prod.fst := by
  induction xs generalizing k with
  | nil => rfl
  | cons x xs ih => simp only [enter, List.map_cons, ih]

/-- The lines of one input, read from `number + 1` on. -/
theorem parseLines_eq {s : Source} {index number : ℕ} {ls : List Bytes} {entries result : List Entry}
    (h : parseLines s index number ls entries = .ok result) :
    result = entries ++ enter entries.length
      (((ls.zipIdx (number + 1)).filterMap fun l =>
        match parseLine s l.2 (chopCr l.1) with
        | .ok r => r
        | .error _ => none).map fun r => (r, some index)) := by
  induction ls generalizing number entries with
  | nil =>
    cases h
    simp [enter]
  | cons l ls ih =>
    simp only [parseLines] at h
    split at h
    · cases h
    · split at h
      · cases h
      · rw [List.zipIdx_cons]
        split at h
        · cases h
        · rename_i hline
          rw [List.filterMap_cons_none (by simp only [hline])]
          exact ih h
        · rename_i r hline
          rw [List.filterMap_cons_some (by simp only [hline]; rfl), ih h]
          simp only [append, List.map_cons, enter, List.length_append, List.length_singleton,
            List.append_assoc, List.singleton_append]

theorem parseSources_eq {ss : List (Source × ℕ)} {entries result : List Entry}
    (h : parseSources ss entries = .ok result) :
    result = entries ++ enter entries.length
      ((ss.flatMap fun s => (records s.1).map fun r => (r, s.2)).map fun x => (x.1, some x.2)) := by
  induction ss generalizing entries with
  | nil =>
    cases h
    simp [enter]
  | cons s ss ih =>
    obtain ⟨mid, hmid, hrest⟩ := bind_eq_ok_iff.mp h
    have hhead := parseLines_eq hmid
    rw [ih hrest, hhead, List.flatMap_cons, List.map_append, enter_append]
    simp only [records, List.map_map, List.length_append, enter_length, List.length_map,
      List.append_assoc]
    rfl

/-- The builtins as the last records. -/
def builtinRecords : List Rule := [bounceRule, spamRule, unsortedRule]

/-- The entries a parse resolves. -/
def allEntries (sources : List Source) : List Entry :=
  enter 0 ((parsed sources).map (fun x => (x.1, some x.2)) ++ builtinRecords.map fun r => (r, none))

theorem appendBuiltins_eq (entries : List Entry) :
    appendBuiltins entries = entries ++ enter entries.length (builtinRecords.map fun r => (r, none)) := by
  simp [appendBuiltins, append, builtinRecords, enter]

theorem parseRules_ok {posix : Posix} {sources : List Source} {rules : List Rule}
    (h : parseRules posix sources = .ok rules) :
    resolve posix (allEntries sources) = .ok rules ∧ checkSources sources.zipIdx = .ok () ∧
      Built (enter 0 ((parsed sources).map fun x => (x.1, some x.2))) := by
  obtain ⟨_, hcheck, hrest⟩ := bind_eq_ok_iff.mp h
  obtain ⟨entries, hparse, hresolve⟩ := bind_eq_ok_iff.mp hrest
  have hentries := parseSources_eq hparse
  simp only [List.nil_append, List.length_nil] at hentries
  have hbuilt : Built entries := by
    refine parseSources_built hparse ?_ ⟨rfl, by simp⟩
    intro s hs
    exact (checkSources_ok hcheck s (mem_qsort.mp hs)).2
  refine ⟨?_, hcheck, by rw [hentries] at hbuilt; exact hbuilt⟩
  rw [allEntries, enter_append, List.length_map]
  rw [appendBuiltins_eq, hentries, enter_length, List.length_map] at hresolve
  rw [Nat.zero_add]
  exact hresolve

/-! ### Occurrence numbers -/

/-- The earlier records of a list that are the same as a rule. -/
def earlier (entries : List Entry) (e : Entry) : ℕ :=
  entries.countP fun x => sameRecord x.rule e.rule && decide (x.order < e.order)

/-- An entry with its number: one more than the earlier records equal to it. -/
def numbered (entries : List Entry) (e : Entry) : Entry :=
  { e with rule := { e.rule with occurrence := earlier entries e + 1 } }

theorem sameRecord_iff (x y : Rule) : sameRecord x y = true ↔
    x.selector = y.selector ∧ x.predicate = y.predicate ∧ x.logical = y.logical ∧
      x.sourceIdentity = y.sourceIdentity := by
  simp only [sameRecord, Bool.and_eq_true, beq_iff_eq, compareKey_eq_iff, and_assoc]

theorem sameRecord_trans {x y z : Rule} (h1 : sameRecord x y = true) (h2 : sameRecord y z = true) :
    sameRecord x z = true := by
  rw [sameRecord_iff] at *
  obtain ⟨a, b, c, d⟩ := h1
  obtain ⟨a', b', c', d'⟩ := h2
  exact ⟨a.trans a', b.trans b', c.trans c', d.trans d'⟩

theorem sameRecord_symm {x y : Rule} (h : sameRecord x y = true) : sameRecord y x = true := by
  rw [sameRecord_iff] at *
  obtain ⟨a, b, c, d⟩ := h
  exact ⟨a.symm, b.symm, c.symm, d.symm⟩

/-- `compare_records` orders by the record first and by parse order last. -/
def recordOrder (x y : Rule) : Ordering :=
  (compareKey x y).then ((strcmp x.logical y.logical).then (strcmp x.sourceIdentity y.sourceIdentity))

theorem compareRecords_eq (x y : Entry) :
    compareRecords x y = (recordOrder x.rule y.rule).then (compare x.order y.order) := by
  simp only [compareRecords, recordOrder, Ordering.then_assoc]

theorem recordOrder_eq_iff (x y : Rule) : recordOrder x y = .eq ↔ sameRecord x y = true := by
  simp only [recordOrder, Ordering.then_eq_eq, compareKey_eq_iff, strcmp_eq_iff, sameRecord_iff,
    and_assoc]

instance : Std.TransCmp recordOrder :=
  inferInstanceAs (Std.TransCmp (compareLex (compareLex (compareOn Rule.selector) (compareOn Rule.predicate))
    (compareLex (compareOn Rule.logical) (compareOn Rule.sourceIdentity))))

/-- Sorted by `compare_records`, equal records stand together in parse order. -/
def RecordSorted (l : List Entry) : Prop :=
  l.Pairwise fun x y => recordOrder x.rule y.rule = .lt ∨
    sameRecord x.rule y.rule = true ∧ x.order < y.order

theorem recordSorted_qsort {l : List Entry} (hn : (l.map Entry.order).Nodup) :
    RecordSorted (qsort compareRecords l) := by
  have hnodup : ((qsort compareRecords l).map Entry.order).Nodup :=
    ((qsort_perm compareRecords l).map _).nodup_iff.mpr hn
  have hsort := pairwise_qsort compareRecords l
  have hne := List.pairwise_map.mp hnodup
  refine (hsort.and hne).imp ?_
  intro x y h
  obtain ⟨hle, hxy⟩ := h
  rw [compareRecords_eq] at hle
  cases hr : recordOrder x.rule y.rule with
  | lt => exact .inl rfl
  | eq =>
    rw [hr, Ordering.then, Nat.isLE_compare] at hle
    exact .inr ⟨(recordOrder_eq_iff _ _).mp hr, by omega⟩
  | gt =>
    rw [hr] at hle
    cases hle

theorem sameRecord_comm (x y : Rule) : sameRecord x y = sameRecord y x := by
  rw [Bool.eq_iff_iff]
  exact ⟨sameRecord_symm, sameRecord_symm⟩

theorem not_sameRecord_of_lt {x y : Rule} (h : recordOrder x y = .lt) : sameRecord x y = false := by
  rw [Bool.eq_false_iff]
  intro he
  rw [(recordOrder_eq_iff _ _).mpr he] at h
  cases h

theorem recordOrder_self (x : Rule) : recordOrder x x = .eq := Std.ReflCmp.compare_self

/-- The earlier occurrences of a record are the equal records behind it. -/
theorem earlier_sorted {pre es : List Entry} {e : Entry} (hs : RecordSorted (pre ++ e :: es)) :
    earlier (pre ++ e :: es) e = pre.countP fun x => sameRecord x.rule e.rule := by
  have hpair := List.pairwise_append.mp hs
  have hafter := (List.pairwise_cons.mp hpair.2.1).1
  -- what follows `e` comes later in parse order where it is the same record
  have hlater : ∀ x ∈ e :: es, (sameRecord x.rule e.rule && decide (x.order < e.order)) = false := by
    intro x hx
    rcases List.mem_cons.mp hx with rfl | hx
    · simp
    · rcases hafter x hx with h | ⟨_, h⟩
      · rw [sameRecord_comm, not_sameRecord_of_lt h, Bool.false_and]
      · rw [decide_eq_false (by omega), Bool.and_false]
  have hzero : (e :: es).countP (fun x => sameRecord x.rule e.rule && decide (x.order < e.order)) = 0 := by
    rw [List.countP_eq_zero]
    intro x hx
    rw [hlater x hx]
    simp
  rw [earlier, List.countP_append, hzero, Nat.add_zero]
  refine List.countP_congr ?_
  intro x hx
  rcases hpair.2.2 x hx e (by simp) with h | ⟨h, hlt⟩
  · simp [not_sameRecord_of_lt h]
  · simp [h, hlt]

/-- Behind the end of a run stands nothing equal to the next record. -/
theorem run_ends {pre es : List Entry} {e : Entry} {head : Rule} (hs : RecordSorted (pre ++ e :: es))
    (hhead : ∀ x ∈ pre, recordOrder x.rule head ≠ .gt) (hlast : ∃ x ∈ pre, sameRecord x.rule head = true)
    (hsame : sameRecord head e.rule = false) :
    recordOrder head e.rule = .lt ∧ ∀ y ∈ pre, sameRecord y.rule e.rule = false := by
  obtain ⟨x, hx, hxhead⟩ := hlast
  have hlt : recordOrder head e.rule = .lt := by
    rw [← Std.TransCmp.congr_left ((recordOrder_eq_iff _ _).mpr hxhead)]
    rcases (List.pairwise_append.mp hs).2.2 x hx e (by simp) with h | ⟨h, _⟩
    · exact h
    · have hbad := sameRecord_trans (sameRecord_symm hxhead) h
      rw [hsame] at hbad
      cases hbad
  refine ⟨hlt, fun y hy => ?_⟩
  rw [Bool.eq_false_iff]
  intro he
  have hy := hhead y hy
  rw [Std.TransCmp.congr_left ((recordOrder_eq_iff _ _).mpr he), Std.OrientedCmp.gt_of_lt hlt] at hy
  exact hy rfl

/-- The loop over a run: `pre` is behind it, the run's `k` records at its end. -/
theorem numberRuns_eq (pre es : List Entry) (head : Rule) (k : ℕ) (hs : RecordSorted (pre ++ es))
    (hone : ∀ e ∈ es, e.rule.occurrence = 1)
    (hk : k = pre.countP fun x => sameRecord x.rule head)
    (hhead : ∀ x ∈ pre, recordOrder x.rule head ≠ .gt)
    (hlast : ∃ x ∈ pre, sameRecord x.rule head = true) :
    numberRuns head k es = es.map (numbered (pre ++ es)) := by
  induction es generalizing pre head k with
  | nil => rfl
  | cons e es ih =>
    have hsplit : pre ++ e :: es = pre ++ [e] ++ es := by simp
    have hearlier := earlier_sorted hs
    have hafter : ∀ y ∈ es, y.rule.occurrence = 1 := fun y hy => hone y (List.mem_cons_of_mem _ hy)
    simp only [numberRuns, List.map_cons]
    cases hsame : sameRecord head e.rule with
    | true =>
      have hcount : earlier (pre ++ e :: es) e = k := by
        rw [hearlier, hk]
        refine List.countP_congr ?_
        intro y _
        constructor
        · intro h
          exact sameRecord_trans h (sameRecord_symm hsame)
        · intro h
          exact sameRecord_trans h hsame
      have hbelow : ∀ y ∈ pre ++ [e], recordOrder y.rule head ≠ .gt := by
        intro y hy
        rcases List.mem_append.mp hy with hy | hy
        · exact hhead y hy
        · rw [List.mem_singleton.mp hy, (recordOrder_eq_iff _ _).mpr (sameRecord_symm hsame)]
          simp
      obtain ⟨x, hx, hxhead⟩ := hlast
      have hrest := ih (pre ++ [e]) head (k + 1) (by rwa [← hsplit]) hafter
        (by rw [List.countP_append, ← hk]; simp [sameRecord_comm e.rule, hsame]) hbelow
        ⟨x, by simp [hx], hxhead⟩
      simp only [if_true, hrest, hsplit]
      rw [numbered, ← hsplit, hcount]
    | false =>
      obtain ⟨hlt, hzero⟩ := run_ends hs hhead hlast hsame
      have hnone : pre.countP (fun y => sameRecord y.rule e.rule) = 0 := by
        rw [List.countP_eq_zero]
        intro y hy
        rw [hzero y hy]
        simp
      have hself : sameRecord e.rule e.rule = true := (recordOrder_eq_iff _ _).mp (recordOrder_self _)
      have hbelow : ∀ y ∈ pre ++ [e], recordOrder y.rule e.rule ≠ .gt := by
        intro y hy
        rcases List.mem_append.mp hy with hy | hy
        · intro hgt
          exact hhead y hy (Std.TransCmp.gt_trans hgt (Std.OrientedCmp.gt_of_lt hlt))
        · rw [List.mem_singleton.mp hy, recordOrder_self]
          simp
      have hrest := ih (pre ++ [e]) e.rule 1 (by rwa [← hsplit]) hafter
        (by rw [List.countP_append, hnone]; simp [hself]) hbelow ⟨e, by simp, hself⟩
      simp only [Bool.false_eq_true, if_false, hrest, hsplit]
      have hfirst : numbered (pre ++ [e] ++ es) e = e := by
        rw [numbered, ← hsplit, hearlier, hnone]
        have h1 := hone e (by simp)
        rw [show (0 : ℕ) + 1 = 1 from rfl, ← h1]
      rw [hfirst]

theorem numberOccurrences_eq {l : List Entry} (hs : RecordSorted l)
    (hone : ∀ e ∈ l, e.rule.occurrence = 1) : numberOccurrences l = l.map (numbered l) := by
  cases l with
  | nil => rfl
  | cons e es =>
    have hself : sameRecord e.rule e.rule = true :=
      (recordOrder_eq_iff _ _).mp Std.ReflCmp.compare_self
    have hrest := numberRuns_eq [e] es e.rule 1 hs (fun y hy => hone y (List.mem_cons_of_mem _ hy))
      (by simp [hself])
      (by
        intro y hy
        rw [List.mem_singleton.mp hy, (Std.ReflCmp.compare_self : recordOrder e.rule e.rule = .eq)]
        simp)
      ⟨e, by simp, hself⟩
    have hzero : earlier (e :: es) e = 0 := by
      rw [earlier, List.countP_eq_zero]
      intro x hx
      rcases List.mem_cons.mp hx with rfl | hx
      · simp
      · rcases (List.pairwise_cons.mp hs).1 x hx with h | ⟨_, h⟩
        · have hne : sameRecord x.rule e.rule = false := by
            rw [sameRecord_comm, Bool.eq_false_iff]
            intro he
            rw [(recordOrder_eq_iff _ _).mpr he] at h
            cases h
          simp [hne]
        · simp only [Bool.and_eq_true, decide_eq_true_eq, not_and]
          omega
    have hfirst : numbered (e :: es) e = e := by
      rw [numbered, hzero, Nat.zero_add, ← hone e (by simp)]
    rw [numberOccurrences, hrest, List.map_cons, hfirst]
    rfl

theorem numbered_perm {l l' : List Entry} (h : l.Perm l') (e : Entry) : numbered l e = numbered l' e := by
  rw [numbered, numbered, earlier, earlier, h.countP_eq]

/-! ### One entry a key -/

/-- The entry that stands for its key: the first for a contact, the last for
every other selector. -/
def Stands (entries : List Entry) (e : Entry) : Prop :=
  ∀ x ∈ entries, compareKey x.rule e.rule = .eq →
    if isContact e.rule.selector then e.order ≤ x.order else x.order ≤ e.order

instance (entries : List Entry) : DecidablePred (Stands entries) :=
  fun e => inferInstanceAs (Decidable (∀ x ∈ entries, compareKey x.rule e.rule = .eq →
    if isContact e.rule.selector then e.order ≤ x.order else x.order ≤ e.order))

/-- Sorted by `compare_keys`, equal keys stand together in parse order. -/
def KeySorted (l : List Entry) : Prop :=
  l.Pairwise fun x y => compareKey x.rule y.rule = .lt ∨
    compareKey x.rule y.rule = .eq ∧ x.order < y.order

theorem keySorted_qsort {l : List Entry} (hn : (l.map Entry.order).Nodup) :
    KeySorted (qsort compareKeys l) := by
  have hnodup : ((qsort compareKeys l).map Entry.order).Nodup :=
    ((qsort_perm compareKeys l).map _).nodup_iff.mpr hn
  refine ((pairwise_qsort compareKeys l).and (List.pairwise_map.mp hnodup)).imp ?_
  intro x y h
  obtain ⟨hle, hxy⟩ := h
  simp only [compareKeys] at hle
  cases hk : compareKey x.rule y.rule with
  | lt => exact .inl rfl
  | eq =>
    rw [hk, Ordering.then, Nat.isLE_compare] at hle
    exact .inr ⟨rfl, by omega⟩
  | gt =>
    rw [hk] at hle
    cases hle

theorem isContact_of_key {x y : Entry} (h : compareKey x.rule y.rule = .eq) :
    isContact x.rule.selector = isContact y.rule.selector := by
  rw [((compareKey_eq_iff _ _).mp h).1]

theorem stands_append {l l' : List Entry} {e : Entry} :
    Stands (l ++ l') e ↔ Stands l e ∧ Stands l' e := by
  simp only [Stands, List.mem_append, or_imp, forall_and]

theorem stands_of_distinct {l : List Entry} {e : Entry}
    (h : ∀ x ∈ l, compareKey x.rule e.rule ≠ .eq) : Stands l e :=
  fun x hx he => absurd he (h x hx)

/-- Of a whole run the first or the last entry stands. -/
theorem mem_kept {first last : Entry} {run : List Entry} (hs : KeySorted run)
    (hfirst : run.head? = some first) (hlast : run.getLast? = some last)
    (hkey : ∀ x ∈ run, compareKey x.rule first.rule = .eq) (e : Entry) :
    e = kept first last ↔ e ∈ run ∧ Stands run e := by
  have hkeys : ∀ x ∈ run, ∀ y ∈ run, compareKey x.rule y.rule = .eq := fun x hx y hy =>
    Std.TransCmp.eq_trans (hkey x hx) (Std.OrientedCmp.eq_symm (hkey y hy))
  have hfmem : first ∈ run := List.mem_of_head? hfirst
  have hlmem : last ∈ run := List.mem_of_getLast? hlast
  have hfle : ∀ x ∈ run, x = first ∨ first.order < x.order := by
    intro x hx
    cases run with
    | nil => cases hfirst
    | cons a run =>
      obtain rfl : a = first := by simpa using hfirst
      rcases List.mem_cons.mp hx with rfl | hx
      · exact .inl rfl
      · rcases (List.pairwise_cons.mp hs).1 x hx with h | ⟨_, h⟩
        · rw [hkeys a (by simp) x (List.mem_cons_of_mem _ hx)] at h
          cases h
        · exact .inr h
  have hlle : ∀ x ∈ run, x = last ∨ x.order < last.order := by
    intro x hx
    rcases List.eq_nil_or_concat run with rfl | ⟨init, a, rfl⟩
    · cases hx
    · rw [List.concat_eq_append] at *
      obtain rfl : a = last := by simpa using hlast
      rcases List.mem_append.mp hx with hx | hx
      · rcases (List.pairwise_append.mp hs).2.2 x hx a (by simp) with h | ⟨_, h⟩
        · rw [hkeys x (by simp [hx]) a (by simp)] at h
          cases h
        · exact .inr h
      · exact .inl (List.mem_singleton.mp hx)
  have hcontact : ∀ x ∈ run, isContact x.rule.selector = isContact first.rule.selector :=
    fun x hx => isContact_of_key (hkey x hx)
  constructor
  · rintro rfl
    refine ⟨kept_mem hfmem hlmem, ?_⟩
    intro x hx _
    rw [hcontact _ (kept_mem hfmem hlmem)]
    simp only [kept]
    cases isContact first.rule.selector with
    | true =>
      rcases hfle x hx with rfl | h
      · simp
      · simp only [if_true]
        omega
    | false =>
      rcases hlle x hx with rfl | h
      · simp
      · simp only [Bool.false_eq_true, if_false]
        omega
  · intro h
    obtain ⟨he, hstands⟩ := h
    have hf := hstands first hfmem (hkeys _ hfmem _ he)
    have hl := hstands last hlmem (hkeys _ hlmem _ he)
    rw [hcontact e he] at hf hl
    simp only [kept]
    cases hc : isContact first.rule.selector with
    | true =>
      simp only [hc, if_true] at hf ⊢
      rcases hfle e he with h | h
      · exact h
      · omega
    | false =>
      simp only [hc, Bool.false_eq_true, if_false] at hl ⊢
      rcases hlle e he with h | h
      · exact h
      · omega

/-- The discard loop keeps exactly the entries that stand for their key; `run`
is the run behind it, from `first` to `last`. -/
theorem mem_keepRuns {first last : Entry} (run es : List Entry) (hs : KeySorted (run ++ es))
    (hfirst : run.head? = some first) (hlast : run.getLast? = some last)
    (hkey : ∀ x ∈ run, compareKey x.rule first.rule = .eq) (e : Entry) :
    e ∈ keepRuns first last es ↔ e ∈ run ++ es ∧ Stands (run ++ es) e := by
  induction es generalizing first last run with
  | nil =>
    rw [List.append_nil] at hs ⊢
    rw [keepRuns, List.mem_singleton]
    exact mem_kept hs hfirst hlast hkey e
  | cons a es ih =>
    have hsplit : run ++ a :: es = run ++ [a] ++ es := by simp
    have hfmem : first ∈ run := List.mem_of_head? hfirst
    rw [keepRuns]
    split
    · rename_i ha
      rw [hsplit] at hs ⊢
      refine ih (run ++ [a]) hs ?_ (by simp) ?_
      · rw [List.head?_append, hfirst]
        rfl
      · intro x hx
        rcases List.mem_append.mp hx with hx | hx
        · exact hkey x hx
        · rw [List.mem_singleton.mp hx]
          exact Std.OrientedCmp.eq_symm ha
    · rename_i ha
      obtain ⟨hrun, hrest, hcross⟩ := List.pairwise_append.mp hs
      have hlt : compareKey first.rule a.rule = .lt := by
        rcases hcross first hfmem a (by simp) with h | ⟨h, _⟩
        · exact h
        · exact absurd h ha
      -- the keys behind differ from all that follow
      have hdistinct : ∀ x ∈ run, ∀ y ∈ a :: es, compareKey x.rule y.rule = .lt := by
        intro x hx y hy
        have hxa : compareKey x.rule a.rule = .lt := by
          rw [Std.TransCmp.congr_left (hkey x hx)]
          exact hlt
        rcases List.mem_cons.mp hy with rfl | hy
        · exact hxa
        · rcases (List.pairwise_cons.mp hrest).1 y hy with h | ⟨h, _⟩
          · exact Std.TransCmp.lt_trans hxa h
          · rw [← Std.TransCmp.congr_right h]
            exact hxa
      have htail := @ih a a [a] hrest rfl rfl
        (by simp [(Std.ReflCmp.compare_self : compareKey a.rule a.rule = .eq)])
      rw [List.mem_cons, mem_kept hrun hfirst hlast hkey, htail, List.singleton_append,
        List.mem_append, stands_append]
      constructor
      · rintro (⟨he, hst⟩ | ⟨he, hst⟩)
        · refine ⟨.inl he, hst, stands_of_distinct ?_⟩
          intro y hy heq
          have hd := hdistinct e he y hy
          rw [Std.OrientedCmp.eq_symm heq] at hd
          cases hd
        · refine ⟨.inr he, stands_of_distinct ?_, hst⟩
          intro x hx heq
          have hd := hdistinct x hx e he
          rw [heq] at hd
          cases hd
      · rintro ⟨he | he, hst⟩
        · exact .inl ⟨he, hst.1⟩
        · exact .inr ⟨he, hst.2⟩

theorem mem_survivors {l : List Entry} (hs : KeySorted l) (e : Entry) :
    e ∈ survivors l ↔ e ∈ l ∧ Stands l e := by
  cases l with
  | nil => simp [survivors]
  | cons a es =>
    exact mem_keepRuns [a] es hs rfl rfl (by simp [(Std.ReflCmp.compare_self : compareKey a.rule a.rule = .eq)]) e

theorem stands_perm {l l' : List Entry} (h : l.Perm l') {e : Entry} : Stands l e ↔ Stands l' e := by
  simp only [Stands, h.mem_iff]

theorem stands_numbered {entries l : List Entry} {e : Entry} :
    Stands (l.map (numbered entries)) (numbered entries e) ↔ Stands l e := by
  simp only [Stands, List.forall_mem_map]
  rfl

theorem numbered_order (entries l : List Entry) :
    (l.map (numbered entries)).map Entry.order = l.map Entry.order := by
  simp only [List.map_map]
  rfl

instance : Std.TransCmp fun x y : Entry => compare x.order y.order :=
  inferInstanceAs (Std.TransCmp (compareOn Entry.order))

/-- Duplicate resolution selects the entries that stand for their key, each
with its occurrence number, and keeps their order. -/
theorem dedupe_eq {entries : List Entry} (ho : entries.map Entry.order = List.range entries.length)
    (hone : ∀ e ∈ entries, e.rule.occurrence = 1) :
    dedupe entries = (entries.filter (Stands entries)).map (numbered entries) := by
  have hnodup : (entries.map Entry.order).Nodup := by
    rw [ho]
    exact List.nodup_range
  have hperm := qsort_perm compareRecords entries
  have hnumber : numberOccurrences (qsort compareRecords entries) =
      (qsort compareRecords entries).map (numbered entries) := by
    rw [numberOccurrences_eq (recordSorted_qsort hnodup) fun e he => hone e (mem_qsort.mp he)]
    exact List.map_congr_left fun e _ => numbered_perm hperm e
  have hnperm : ((qsort compareRecords entries).map (numbered entries)).Perm
      (entries.map (numbered entries)) := hperm.map _
  have hnorder : (((qsort compareRecords entries).map (numbered entries)).map Entry.order).Nodup := by
    rw [numbered_order]
    exact (hperm.map _).nodup_iff.mpr hnodup
  have hsorted : KeySorted (qsort compareKeys ((qsort compareRecords entries).map (numbered entries))) :=
    keySorted_qsort hnorder
  have hmem : ∀ e, e ∈ (entries.filter (Stands entries)).map (numbered entries) ↔
      e ∈ survivors (qsort compareKeys ((qsort compareRecords entries).map (numbered entries))) := by
    intro e
    rw [mem_survivors hsorted, mem_qsort, hnperm.mem_iff, List.mem_map, List.mem_map]
    constructor
    · intro h
      obtain ⟨e0, he0, rfl⟩ := h
      obtain ⟨he0, hst⟩ := List.mem_filter.mp he0
      refine ⟨⟨e0, he0, rfl⟩, ?_⟩
      rw [stands_perm ((qsort_perm _ _).trans hnperm), stands_numbered]
      simpa using hst
    · intro h
      obtain ⟨⟨e0, he0, rfl⟩, hst⟩ := h
      rw [stands_perm ((qsort_perm _ _).trans hnperm), stands_numbered] at hst
      exact ⟨e0, List.mem_filter.mpr ⟨he0, by simpa using hst⟩, rfl⟩
  have hleft : ((entries.filter (Stands entries)).map (numbered entries)).Pairwise
      fun x y => x.order < y.order := by
    rw [← List.pairwise_map (f := Entry.order) (R := (· < ·)), numbered_order]
    have hlt : (entries.map Entry.order).Pairwise (· < ·) := by
      rw [ho]
      exact List.pairwise_lt_range
    exact hlt.sublist (List.filter_sublist.map _)
  have hsurvive : (survivors (qsort compareKeys
      ((qsort compareRecords entries).map (numbered entries)))).Nodup := by
    have horder := ((qsort_perm compareKeys _).map Entry.order).nodup_iff.mpr hnorder
    exact (List.Nodup.of_map _ horder).sublist (survivors_sublist _)
  have hall : ((entries.filter (Stands entries)).map (numbered entries)).Perm
      (survivors (qsort compareKeys ((qsort compareRecords entries).map (numbered entries)))) := by
    refine (List.perm_ext_iff_of_nodup ?_ hsurvive).mpr hmem
    exact hleft.imp fun h he => by rw [he] at h; omega
  rw [dedupe, hnumber]
  refine (eq_qsort_of_perm _ hall (hleft.imp fun h => Nat.isLE_compare.mpr (by omega)) ?_).symm
  intro a ha b hb he
  have heq : a.order = b.order := Nat.compare_eq_eq.mp he
  have hinj := (hleft.imp fun h => Nat.ne_of_lt h)
  exact List.inj_on_of_nodup_map (List.pairwise_map.mpr hinj) (hall.mem_iff.mpr ha)
    (hall.mem_iff.mpr hb) heq

/-! ### The selection of a snapshot -/

/-- Every record is `append`'s, filled in from its source and line. -/
theorem parseLine_newRule {s : Source} {number : ℕ} {line : Bytes} {r : Rule}
    (h : parseLine s number line = .ok (some r)) :
    ∃ selector predicate logical kind stage fields,
      r = newRule (some s) number selector predicate logical kind stage fields := by
  have hcontact : ∀ {r}, parseContact s number line = .ok (some r) →
      ∃ selector predicate logical kind stage fields,
        r = newRule (some s) number selector predicate logical kind stage fields := by
    intro r h
    simp only [parseContact] at h
    split at h
    · cases h
    · split at h
      · cases h
      · split at h <;> cases h <;> exact ⟨_, _, _, _, _, _, rfl⟩
  unfold parseLine at h
  split at h
  · exact hcontact h
  · split at h
    · cases h
    · split at h
      · cases h
      · cases h
      · split at h
        · simp only [parseFilter] at h
          repeat' split at h
          all_goals cases h
          all_goals exact ⟨_, _, _, _, _, _, rfl⟩
        · simp only [parseOwn] at h
          repeat' split at h
          all_goals cases h
          all_goals exact ⟨_, _, _, _, _, _, rfl⟩

theorem mem_records {s : Source} {r : Rule} : r ∈ records s ↔
    ∃ l n, (lines s.data)[n]? = some l ∧ parseLine s (n + 1) (chopCr l) = .ok (some r) := by
  simp only [records, List.mem_filterMap, Prod.exists, List.mk_mem_zipIdx_iff_le_and_getElem?_sub]
  constructor
  · intro h
    obtain ⟨l, n, ⟨hn, hl⟩, hr⟩ := h
    obtain ⟨n, rfl⟩ : ∃ k, n = k + 1 := ⟨n - 1, by omega⟩
    refine ⟨l, n, hl, ?_⟩
    split at hr
    · rename_i r' hline
      rw [hline, hr]
    · cases hr
  · intro h
    obtain ⟨l, n, hl, hr⟩ := h
    exact ⟨l, n + 1, ⟨by omega, hl⟩, by rw [hr]⟩

theorem records_eq {s : Source} {r : Rule} (h : r ∈ records s) :
    r.occurrence = 1 ∧ r.sourceIdentity = s.identity ∧ r.source = s.path := by
  obtain ⟨l, n, -, hr⟩ := mem_records.mp h
  obtain ⟨_, _, _, _, _, _, rfl⟩ := parseLine_newRule hr
  exact ⟨rfl, rfl, rfl⟩

/-- The records of a source follow its lines. -/
theorem records_lines (s : Source) : (records s).Pairwise fun x y => x.line < y.line := by
  have hlines : ((lines s.data).zipIdx 1).Pairwise fun x y => x.2 < y.2 := by
    rw [← List.pairwise_map (f := Prod.snd) (R := (· < ·)), List.zipIdx_map_snd]
    exact List.pairwise_lt_range'
  refine List.pairwise_filterMap.mpr (hlines.imp ?_)
  intro x y hxy r hr r' hr'
  have hline : ∀ (z : Bytes × ℕ) (q : Rule), (match parseLine s z.2 (chopCr z.1) with
      | .ok r => r
      | .error _ => none) = some q → q.line = z.2 := by
    intro z q hq
    split at hq
    · rename_i o ho
      rw [hq] at ho
      obtain ⟨_, _, _, _, _, _, rfl⟩ := parseLine_newRule ho
      rfl
    · cases hq
  rw [hline x r hr, hline y r' hr']
  exact hxy

/-- The order in which records are parsed: by the kind and identity of their
sources, then by the place of the source in the array, then by line. -/
def ParsedBefore (sources : List Source) (x y : Rule × ℕ) : Prop :=
  ∃ s t, sources[x.2]? = some s ∧ sources[y.2]? = some t ∧
    (s.kind.code < t.kind.code ∨ s.kind.code = t.kind.code ∧
      (strcmp s.identity t.identity = .lt ∨ s.identity = t.identity ∧
        (x.2 < y.2 ∨ x.2 = y.2 ∧ x.1.line < y.1.line)))

theorem compareSources_eq : compareSources =
    compareLex (compareOn fun x : Source × ℕ => x.1.kind.code)
      (compareLex (compareOn fun x => x.1.identity) (compareOn Prod.snd)) := rfl

instance : Std.TransCmp compareSources := by
  rw [compareSources_eq]
  infer_instance

theorem mem_parsed {sources : List Source} {r : Rule} {i : ℕ} :
    (r, i) ∈ parsed sources ↔ ∃ s, sources[i]? = some s ∧ r ∈ records s := by
  simp only [parsed, List.mem_flatMap, mem_qsort, Prod.exists, List.mk_mem_zipIdx_iff_getElem?,
    List.mem_map, Prod.mk.injEq]
  constructor
  · intro h
    obtain ⟨s, j, hs, q, hq, rfl, rfl⟩ := h
    exact ⟨s, hs, hq⟩
  · intro h
    obtain ⟨s, hs, hr⟩ := h
    exact ⟨s, i, hs, r, hr, rfl, rfl⟩

/-- The list of records is in parse order. -/
theorem pairwise_parsed (sources : List Source) : (parsed sources).Pairwise (ParsedBefore sources) := by
  refine List.pairwise_flatMap.mpr ⟨?_, ?_⟩
  · intro s hs
    have hs := List.mem_zipIdx_iff_getElem?.mp (mem_qsort.mp hs)
    refine List.pairwise_map.mpr ((records_lines s.1).imp ?_)
    intro x y hxy
    exact ⟨s.1, s.1, hs, hs, .inr ⟨rfl, .inr ⟨rfl, .inr ⟨rfl, hxy⟩⟩⟩⟩
  · have hindex : ((qsort compareSources sources.zipIdx).map Prod.snd).Nodup := by
      rw [((qsort_perm _ _).map _).nodup_iff, List.zipIdx_map_snd]
      exact List.nodup_range'
    have hsort := (pairwise_qsort compareSources sources.zipIdx).and (List.pairwise_map.mp hindex)
    refine (List.Pairwise.and_mem.mp hsort).imp ?_
    intro s t h x hx y hy
    obtain ⟨hs, ht, hle, hne⟩ := h
    have hs := List.mem_zipIdx_iff_getElem?.mp (mem_qsort.mp hs)
    have ht := List.mem_zipIdx_iff_getElem?.mp (mem_qsort.mp ht)
    obtain ⟨q, -, rfl⟩ := List.mem_map.mp hx
    obtain ⟨q', -, rfl⟩ := List.mem_map.mp hy
    refine ⟨s.1, t.1, hs, ht, ?_⟩
    simp only [compareSources] at hle
    cases hk : compare s.1.kind.code t.1.kind.code with
    | lt => exact .inl (Nat.compare_eq_lt.mp hk)
    | gt =>
      rw [hk] at hle
      cases hle
    | eq =>
      refine .inr ⟨Nat.compare_eq_eq.mp hk, ?_⟩
      cases hi : strcmp s.1.identity t.1.identity with
      | lt => exact .inl rfl
      | gt =>
        rw [hk, hi] at hle
        cases hle
      | eq =>
        rw [hk, hi] at hle
        have hle := Nat.isLE_compare.mp hle
        exact .inr ⟨(strcmp_eq_iff _ _).mp hi, .inl (by omega)⟩

/-- The entries of the records, without the builtins. -/
def parsedEntries (sources : List Source) : List Entry :=
  enter 0 ((parsed sources).map fun x => (x.1, some x.2))

def builtinEntries (k : ℕ) : List Entry := enter k (builtinRecords.map fun r => (r, none))

theorem allEntries_eq (sources : List Source) :
    allEntries sources = parsedEntries sources ++ builtinEntries (parsedEntries sources).length := by
  rw [allEntries, enter_append, Nat.zero_add, parsedEntries, builtinEntries, enter_length]

theorem allEntries_order (sources : List Source) :
    (allEntries sources).map Entry.order = List.range (allEntries sources).length := by
  rw [allEntries, enter_order, enter_length, List.range_eq_range']

theorem mem_parsedEntries {sources : List Source} {e : Entry} (h : e ∈ parsedEntries sources) :
    ∃ i, (e.rule, i) ∈ parsed sources := by
  have hr : e.rule ∈ (parsedEntries sources).map Entry.rule := List.mem_map_of_mem h
  rw [parsedEntries, enter_rules, List.map_map] at hr
  obtain ⟨x, hx, he⟩ := List.mem_map.mp hr
  exact ⟨x.2, by rw [← he]; exact hx⟩

theorem mem_builtinEntries {k : ℕ} {e : Entry} (h : e ∈ builtinEntries k) :
    e.rule = bounceRule ∨ e.rule = spamRule ∨ e.rule = unsortedRule := by
  have hr : e.rule ∈ (builtinEntries k).map Entry.rule := List.mem_map_of_mem h
  rw [builtinEntries, enter_rules] at hr
  simpa [builtinRecords] using hr

theorem allEntries_occurrence (sources : List Source) :
    ∀ e ∈ allEntries sources, e.rule.occurrence = 1 := by
  intro e he
  rw [allEntries_eq] at he
  rcases List.mem_append.mp he with he | he
  · obtain ⟨i, hi⟩ := mem_parsedEntries he
    obtain ⟨s, -, hr⟩ := mem_parsed.mp hi
    exact (records_eq hr).1
  · rcases mem_builtinEntries he with h | h | h <;> rw [h] <;> rfl

/-- A record's key is no builtin's. -/
theorem builtin_key_ne {sources : List Source} (hb : Built (parsedEntries sources)) {k : ℕ}
    {e b : Entry} (he : e ∈ parsedEntries sources) (hmem : b ∈ builtinEntries k) :
    compareKey e.rule b.rule ≠ .eq ∧ compareKey b.rule e.rule ≠ .eq := by
  have hnot := (hb.rules e he).not_builtin
  have hbuiltin : isBuiltinSelector b.rule.selector = true := by
    rcases mem_builtinEntries hmem with h | h | h <;> rw [h] <;> decide
  constructor
  · intro h
    rw [((compareKey_eq_iff _ _).mp h).1, hbuiltin] at hnot
    cases hnot
  · intro h
    rw [← ((compareKey_eq_iff _ _).mp h).1, hbuiltin] at hnot
    cases hnot

theorem builtinEntries_distinct (k : ℕ) : (builtinEntries k).Pairwise DistinctKeys := by
  have hrules : builtinRecords.Pairwise fun x y => compareKey x y ≠ .eq := by decide
  have hmap : ((builtinEntries k).map Entry.rule).Pairwise fun x y => compareKey x y ≠ .eq := by
    rw [builtinEntries, enter_rules, List.map_map]
    exact hrules
  exact List.Pairwise.of_map Entry.rule (fun _ _ h => h) hmap

instance : Std.Symm DistinctKeys := ⟨fun _ _ h => h.symm⟩

/-- An entry counts as earlier only among those with its key. -/
theorem earlier_eq_zero {l : List Entry} {e : Entry}
    (h : ∀ x ∈ l, compareKey x.rule e.rule = .eq → e.order ≤ x.order) : earlier l e = 0 := by
  rw [earlier, List.countP_eq_zero]
  intro x hx
  simp only [Bool.and_eq_true, decide_eq_true_eq, not_and]
  intro hsame
  have hsame := (sameRecord_iff _ _).mp hsame
  have hle := h x hx ((compareKey_eq_iff _ _).mpr ⟨hsame.1, hsame.2.1⟩)
  omega

theorem earlier_append (l l' : List Entry) (e : Entry) :
    earlier (l ++ l') e = earlier l e + earlier l' e := List.countP_append

/-- The selection keeps the builtins as they are and selects of the records
alone. -/
theorem dedupe_allEntries {sources : List Source} (hb : Built (parsedEntries sources)) :
    dedupe (allEntries sources) =
      ((parsedEntries sources).filter (Stands (parsedEntries sources))).map
          (numbered (parsedEntries sources)) ++
        builtinEntries (parsedEntries sources).length := by
  have hone := allEntries_occurrence sources
  rw [dedupe_eq (allEntries_order sources) hone]
  rw [allEntries_eq] at hone ⊢
  obtain ⟨k, hk⟩ : ∃ k, k = (parsedEntries sources).length := ⟨_, rfl⟩
  rw [← hk] at hone ⊢
  rw [List.filter_append, List.map_append]
  congr 1
  · have hfilter : (parsedEntries sources).filter (Stands (parsedEntries sources ++ builtinEntries k)) =
        (parsedEntries sources).filter (Stands (parsedEntries sources)) := by
      refine List.filter_congr fun e he => ?_
      refine decide_eq_decide.mpr ?_
      rw [stands_append]
      exact and_iff_left (stands_of_distinct fun b hmem => (builtin_key_ne hb he hmem).2)
    rw [hfilter]
    refine List.map_congr_left fun e he => ?_
    have he := (List.mem_filter.mp he).1
    rw [numbered, numbered, earlier_append]
    rw [earlier_eq_zero fun b hmem h => absurd h (builtin_key_ne hb he hmem).2, Nat.add_zero]
  · have hpair := builtinEntries_distinct k
    have hself : ∀ b ∈ builtinEntries k, ∀ x ∈ builtinEntries k,
        compareKey x.rule b.rule = .eq → x = b := by
      intro b hmem x hx h
      by_contra hne
      exact hpair.forall hx hmem hne h
    have hfilter : (builtinEntries k).filter (Stands (parsedEntries sources ++ builtinEntries k)) =
        builtinEntries k := by
      refine List.filter_eq_self.mpr fun b hmem => ?_
      refine decide_eq_true ?_
      rw [stands_append]
      refine ⟨stands_of_distinct fun e he => (builtin_key_ne hb he hmem).1, ?_⟩
      intro x hx h
      rw [hself b hmem x hx h]
      split <;> exact le_refl _
    have hnumbered : ∀ b ∈ builtinEntries k,
        numbered (parsedEntries sources ++ builtinEntries k) b = b := by
      intro b hmem
      have hzero : earlier (parsedEntries sources ++ builtinEntries k) b = 0 := by
        refine earlier_eq_zero fun x hx h => ?_
        rcases List.mem_append.mp hx with hx | hx
        · exact absurd h (builtin_key_ne hb hx hmem).1
        · rw [hself b hmem x hx h]
      rw [numbered, hzero, Nat.zero_add, ← hone b (List.mem_append_right _ hmem)]
    rw [hfilter, List.map_congr_left hnumbered, List.map_id']

end JaroFilter
