import JaroFilter.Policy.Resolution

/-!
# Snapshots in any order (`policy.c:542-607`)

The rules of a snapshot are a function of its records in parse order: neither
the order of the source array nor the sorting routine's treatment of equal
elements shows in them.
-/

namespace JaroFilter

open Lib

/-! ### The order of the rules -/

/-- By stage, in stage 5 addresses before domains, then in parse order. -/
def RuleBefore (x y : Entry) : Prop :=
  x.rule.stage < y.rule.stage ∨ x.rule.stage = y.rule.stage ∧
    (stageRank x.rule < stageRank y.rule ∨ stageRank x.rule = stageRank y.rule ∧ x.order < y.order)

theorem pairwise_compareOrder {l : List Entry} (hn : (l.map Entry.order).Nodup) :
    (qsort compareOrder l).Pairwise RuleBefore := by
  have hnodup : ((qsort compareOrder l).map Entry.order).Nodup :=
    ((qsort_perm compareOrder l).map _).nodup_iff.mpr hn
  refine ((pairwise_qsort compareOrder l).and (List.pairwise_map.mp hnodup)).imp ?_
  intro x y h
  obtain ⟨hle, hne⟩ := h
  rw [compareOrder_eq] at hle
  simp only [compareLex, compareOn] at hle
  cases hs : compare x.rule.stage y.rule.stage with
  | lt => exact .inl (Nat.compare_eq_lt.mp hs)
  | gt =>
    rw [hs] at hle
    cases hle
  | eq =>
    refine .inr ⟨Nat.compare_eq_eq.mp hs, ?_⟩
    cases hr : compare (stageRank x.rule) (stageRank y.rule) with
    | lt => exact .inl (Nat.compare_eq_lt.mp hr)
    | gt =>
      rw [hs, hr] at hle
      cases hle
    | eq =>
      rw [hs, hr] at hle
      have hle := Nat.isLE_compare.mp hle
      exact .inr ⟨Nat.compare_eq_eq.mp hr, by omega⟩

/-- The selection of the records: one entry a key, with its number. -/
def selected (sources : List Source) : List Entry :=
  ((parsedEntries sources).filter (Stands (parsedEntries sources))).map
    (numbered (parsedEntries sources))

theorem nodup_dedupe (sources : List Source) :
    ((dedupe (allEntries sources)).map Entry.order).Nodup := by
  rw [dedupe_eq (allEntries_order sources) (allEntries_occurrence sources), numbered_order]
  refine List.Nodup.sublist (List.filter_sublist.map _) ?_
  rw [allEntries_order]
  exact List.nodup_range

/-- The rules are the selected records and the builtins, in the order of the
stages. -/
theorem parseRules_selects {posix : Posix} {sources : List Source} {rules : List Rule}
    (h : parseRules posix sources = .ok rules) :
    ∃ es : List Entry, rules = es.map (fun e => identified e.rule) ∧ es.Pairwise RuleBefore ∧
      es.Perm (selected sources ++ builtinEntries (parsedEntries sources).length) := by
  obtain ⟨hresolve, -, hb⟩ := parseRules_ok h
  obtain ⟨hrules, -, -⟩ := resolve_ok hresolve
  refine ⟨_, hrules, pairwise_compareOrder (nodup_dedupe sources), ?_⟩
  rw [selected, ← dedupe_allEntries hb]
  exact qsort_perm _ _

/-! ### Permuted sources -/

/-- `compare_sources` up to the place in the array. -/
def compareSource (x y : Source) : Ordering :=
  (compare x.kind.code y.kind.code).then (strcmp x.identity y.identity)

instance : Std.TransCmp compareSource :=
  inferInstanceAs (Std.TransCmp
    (compareLex (compareOn fun x : Source => x.kind.code) (compareOn Source.identity)))

theorem compareSource_eq_iff (x y : Source) :
    compareSource x y = .eq ↔ x.kind = y.kind ∧ x.identity = y.identity := by
  have hcode : ∀ a b : SourceKind, a.code = b.code ↔ a = b := by
    intro a b
    cases a <;> cases b <;> simp [SourceKind.code]
  simp only [compareSource, Ordering.then_eq_eq, Nat.compare_eq_eq, strcmp_eq_iff, hcode]

/-- What tells sources apart. -/
def sourceKey (s : Source) : SourceKind × Bytes := (s.kind, s.identity)

theorem sorted_sources {sources : List Source} (hn : (sources.map sourceKey).Nodup) :
    (qsort compareSources sources.zipIdx).map Prod.fst = qsort compareSource sources := by
  refine eq_qsort_of_perm compareSource ?_ ?_ ?_
  · have hperm := (qsort_perm compareSources sources.zipIdx).map Prod.fst
    rwa [List.zipIdx_map_fst] at hperm
  · refine List.pairwise_map.mpr ((pairwise_qsort compareSources sources.zipIdx).imp ?_)
    intro x y hle
    simp only [compareSources] at hle
    simp only [compareSource]
    cases hk : compare x.1.kind.code y.1.kind.code with
    | eq =>
      rw [hk] at hle
      cases hi : strcmp x.1.identity y.1.identity with
      | gt =>
        rw [hi] at hle
        cases hle
      | _ => rfl
    | lt => rfl
    | gt =>
      rw [hk] at hle
      cases hle
  · intro a ha b hb he
    obtain ⟨hk, hi⟩ := (compareSource_eq_iff a b).mp he
    exact List.inj_on_of_nodup_map hn ha hb (Prod.ext hk hi)

theorem parsed_rules {sources : List Source} :
    (parsed sources).map Prod.fst =
      ((qsort compareSources sources.zipIdx).map Prod.fst).flatMap records := by
  simp only [parsed, List.map_flatMap, List.map_map, List.flatMap_map]
  refine List.flatMap_congr fun s _ => ?_
  exact List.map_id _

theorem parsed_perm {sources sources' : List Source} (hp : sources'.Perm sources)
    (hn : (sources.map sourceKey).Nodup) :
    (parsed sources').map Prod.fst = (parsed sources).map Prod.fst := by
  have hn' : (sources'.map sourceKey).Nodup := (hp.map _).nodup_iff.mpr hn
  have hsort : qsort compareSource sources' = qsort compareSource sources := by
    refine eq_qsort_of_perm compareSource ((qsort_perm _ _).trans hp) (pairwise_qsort _ _) ?_
    intro a ha b hb he
    obtain ⟨hk, hi⟩ := (compareSource_eq_iff a b).mp he
    exact List.inj_on_of_nodup_map hn ha hb (Prod.ext hk hi)
  rw [parsed_rules, parsed_rules, sorted_sources hn, sorted_sources hn', hsort]

/-! ### What a run of the parser needs -/

theorem checkSources_of {ss : List (Source × ℕ)}
    (h : ∀ s ∈ ss, s.1.identity ≠ [] ∧ s.1.data.length ≤ inputMax) : checkSources ss = .ok () := by
  induction ss with
  | nil => rfl
  | cons s ss ih =>
    obtain ⟨hid, hlen⟩ := h s (by simp)
    have hs : checkSource s.1 s.2 = .ok () := by
      rw [checkSource, if_neg hid, if_neg (by omega)]
    rw [checkSources, hs]
    exact ih fun x hx => h x (List.mem_cons_of_mem _ hx)

/-- Whether the lines parse depends on the lines and their source alone. -/
theorem parseLines_of_ok {s : Source} {index number : ℕ} {ls : List Bytes}
    {entries result : List Entry} (index' : ℕ) (entries' : List Entry)
    (h : parseLines s index number ls entries = .ok result) :
    ∃ result', parseLines s index' number ls entries' = .ok result' := by
  induction ls generalizing number entries entries' with
  | nil => exact ⟨_, rfl⟩
  | cons l ls ih =>
    simp only [parseLines] at h ⊢
    split at h
    · cases h
    · rename_i hlen
      rw [if_neg hlen]
      split at h
      · cases h
      · rename_i hutf
        rw [if_neg hutf]
        split at h
        · cases h
        · exact ih entries' h
        · exact ih _ h

theorem parseSources_lines {ss : List (Source × ℕ)} {entries result : List Entry}
    (h : parseSources ss entries = .ok result) :
    ∀ s ∈ ss, ∃ index entries result, parseLines s.1 index 0 (lines s.1.data) entries = .ok result := by
  induction ss generalizing entries with
  | nil => simp
  | cons s ss ih =>
    obtain ⟨mid, hmid, hrest⟩ := bind_eq_ok_iff.mp h
    intro x hx
    rcases List.mem_cons.mp hx with rfl | hx
    · exact ⟨_, _, _, hmid⟩
    · exact ih hrest x hx

theorem parseSources_of_lines {ss : List (Source × ℕ)} (entries : List Entry)
    (h : ∀ s ∈ ss, ∃ index entries result,
      parseLines s.1 index 0 (lines s.1.data) entries = .ok result) :
    ∃ result, parseSources ss entries = .ok result := by
  induction ss generalizing entries with
  | nil => exact ⟨_, rfl⟩
  | cons s ss ih =>
    obtain ⟨_, _, _, hs⟩ := h s (by simp)
    obtain ⟨mid, hmid⟩ := parseLines_of_ok s.2 entries hs
    obtain ⟨result, hrest⟩ := ih mid fun x hx => h x (List.mem_cons_of_mem _ hx)
    exact ⟨result, by rw [parseSources, hmid]; exact hrest⟩

/-! ### Entries up to their source's index -/

/-- An entry without the index of its source, which only diagnostics use. -/
def strip (e : Entry) : Entry := { e with inputIndex := none }

theorem stands_strip {l : List Entry} {e : Entry} : Stands (l.map strip) (strip e) ↔ Stands l e := by
  simp only [Stands, List.forall_mem_map]
  rfl

theorem numbered_strip (l : List Entry) (e : Entry) :
    numbered (l.map strip) (strip e) = strip (numbered l e) := by
  have hcount : earlier (l.map strip) (strip e) = earlier l e := by
    rw [earlier, earlier, List.countP_map]
    rfl
  rw [numbered, numbered, hcount]
  rfl

theorem select_strip (l : List Entry) :
    ((l.map strip).filter (Stands (l.map strip))).map (numbered (l.map strip)) =
      ((l.filter (Stands l)).map (numbered l)).map strip := by
  rw [List.filter_map, List.map_map, List.map_map]
  have hfilter : l.filter ((fun e => decide (Stands (l.map strip) e)) ∘ strip) = l.filter (Stands l) :=
    List.filter_congr fun e _ => decide_eq_decide.mpr stands_strip
  rw [hfilter]
  exact List.map_congr_left fun e _ => numbered_strip l e

theorem qsort_strip (l : List Entry) :
    (qsort compareOrder l).map strip = qsort compareOrder (l.map strip) :=
  List.map_insertionSort _ _ strip l fun _ _ _ _ => Iff.rfl

theorem finishRules_of_compiled {posix : Posix} {es : List Entry}
    (h : ∀ e ∈ es, e.rule.kind = .ere → posix.regcomp e.rule.predicate = none) :
    finishRules posix es = .ok (es.map fun e => identified e.rule) := by
  induction es with
  | nil => rfl
  | cons e es ih =>
    have hrest := ih fun x hx => h x (List.mem_cons_of_mem _ hx)
    simp only [finishRules, List.map_cons, hrest, Except.map]
    split
    · rename_i hk
      rw [h e (by simp) hk]
      rfl
    · rfl

/-- Resolution sees the rules and their order only. -/
theorem resolve_of_strip {posix : Posix} {entries entries' : List Entry} {rules : List Rule}
    (hs : entries'.map strip = entries.map strip)
    (ho : entries.map Entry.order = List.range entries.length)
    (hone : ∀ e ∈ entries, e.rule.occurrence = 1) (h : resolve posix entries = .ok rules) :
    resolve posix entries' = .ok rules := by
  have hlen : entries'.length = entries.length := by simpa using congrArg List.length hs
  have ho' : entries'.map Entry.order = List.range entries'.length := by
    have hmap := congrArg (List.map Entry.order) hs
    rw [List.map_map, List.map_map] at hmap
    rw [hlen, ← ho]
    exact hmap
  have hone' : ∀ e ∈ entries', e.rule.occurrence = 1 := by
    intro e he
    have hmem : strip e ∈ entries.map strip := by
      rw [← hs]
      exact List.mem_map_of_mem he
    obtain ⟨x, hx, heq⟩ := List.mem_map.mp hmem
    have hrule : (strip x).rule = (strip e).rule := congrArg Entry.rule heq
    have hx1 := hone x hx
    rwa [show x.rule = e.rule from hrule] at hx1
  have hdedupe : (dedupe entries').map strip = (dedupe entries).map strip := by
    rw [dedupe_eq ho' hone', dedupe_eq ho hone, ← select_strip, ← select_strip, hs]
  have hdlen : (dedupe entries').length = (dedupe entries).length := by
    simpa using congrArg List.length hdedupe
  have hsorted : (qsort compareOrder (dedupe entries')).map strip =
      (qsort compareOrder (dedupe entries)).map strip := by
    rw [qsort_strip, qsort_strip, hdedupe]
  have hrules : (qsort compareOrder (dedupe entries')).map (fun e => identified e.rule) =
      (qsort compareOrder (dedupe entries)).map fun e => identified e.rule := by
    have hmap := congrArg (List.map fun e : Entry => identified e.rule) hsorted
    rw [List.map_map, List.map_map] at hmap
    exact hmap
  obtain ⟨hres, hmax, hcomp⟩ := resolve_ok h
  have hroom : ¬ ruleMax < (dedupe entries').length - builtinRules := by
    rw [hdlen]
    simp only [ruleRecordMax, builtinRules] at hmax ⊢
    omega
  rw [resolve, if_neg hroom, finishRules_of_compiled, hrules, ← hres]
  intro e he hk
  have hmem : identified e.rule ∈ rules := by
    rw [hres, ← hrules]
    exact List.mem_map_of_mem he
  exact hcomp (identified e.rule) hmem hk

theorem enter_strip (k : ℕ) (xs : List (Rule × Option ℕ)) :
    (enter k xs).map strip = enter k (xs.map fun x => (x.1, none)) := by
  induction xs generalizing k with
  | nil => rfl
  | cons x xs ih =>
    simp only [enter, List.map_cons, ih]
    rfl

theorem allEntries_strip {sources sources' : List Source}
    (h : (parsed sources').map Prod.fst = (parsed sources).map Prod.fst) :
    (allEntries sources').map strip = (allEntries sources).map strip := by
  have hmap : ∀ l : List (Rule × ℕ), (l.map fun x => (x.1, some x.2)).map
      (fun x : Rule × Option ℕ => (x.1, (none : Option ℕ))) = (l.map Prod.fst).map fun r => (r, none) := by
    intro l
    rw [List.map_map, List.map_map]
    rfl
  rw [allEntries, allEntries, enter_strip, enter_strip, List.map_append, List.map_append, hmap, hmap, h]

/-- A parse that succeeds does so in any order of the sources, with the same
rules. -/
theorem parseRules_perm {posix : Posix} {sources sources' : List Source} {rules : List Rule}
    (hp : sources'.Perm sources) (hn : (sources.map sourceKey).Nodup)
    (h : parseRules posix sources = .ok rules) : parseRules posix sources' = .ok rules := by
  obtain ⟨hresolve, hcheck, -⟩ := parseRules_ok h
  obtain ⟨_, -, hrest⟩ := bind_eq_ok_iff.mp h
  obtain ⟨entries, hparse, -⟩ := bind_eq_ok_iff.mp hrest
  have hmem : ∀ s ∈ sources'.zipIdx, ∃ i, (s.1, i) ∈ sources.zipIdx := by
    intro s hs
    have hs : s.1 ∈ sources' := by
      rw [← List.zipIdx_map_fst 0 sources']
      exact List.mem_map_of_mem hs
    obtain ⟨i, hi⟩ := List.mem_iff_getElem?.mp (hp.mem_iff.mp hs)
    exact ⟨i, List.mk_mem_zipIdx_iff_getElem?.mpr hi⟩
  have hcheck' : checkSources sources'.zipIdx = .ok () := by
    refine checkSources_of fun s hs => ?_
    obtain ⟨i, hi⟩ := hmem s hs
    exact checkSources_ok hcheck (s.1, i) hi
  obtain ⟨entries', hparse'⟩ : ∃ entries',
      parseSources (qsort compareSources sources'.zipIdx) [] = .ok entries' := by
    refine parseSources_of_lines [] fun s hs => ?_
    obtain ⟨i, hi⟩ := hmem s (mem_qsort.mp hs)
    exact parseSources_lines hparse (s.1, i) (mem_qsort.mpr hi)
  have hentries := parseSources_eq hparse'
  simp only [List.nil_append, List.length_nil] at hentries
  have hall : appendBuiltins entries' = allEntries sources' := by
    rw [appendBuiltins_eq, hentries, enter_length, List.length_map, allEntries, enter_append,
      List.length_map, Nat.zero_add]
    rfl
  have hresolve' := resolve_of_strip (allEntries_strip (parsed_perm hp hn))
    (allEntries_order sources) (allEntries_occurrence sources) hresolve
  rw [parseRules, hcheck']
  simp only [bind, Except.bind, hparse', hall]
  exact hresolve'

/-! ### Any sorting routine -/

/-- A sorting routine of the C library: it permutes, and it sorts by every
comparison that is an order. How it places equal elements is left open. -/
structure Sorter where
  sort : {α : Type} → (α → α → Ordering) → List α → List α
  perm : ∀ {α : Type} (cmp : α → α → Ordering) (l : List α), (sort cmp l).Perm l
  sorted : ∀ {α : Type} (cmp : α → α → Ordering) [Std.TransCmp cmp] (l : List α),
    (sort cmp l).Pairwise fun a b => (cmp a b).isLE = true

/-- Without ties there is one way to sort. -/
theorem Sorter.eq_qsort (S : Sorter) {α : Type} (cmp : α → α → Ordering) [Std.TransCmp cmp]
    {l : List α} (h : ∀ a ∈ l, ∀ b ∈ l, cmp a b = .eq → a = b) : S.sort cmp l = qsort cmp l :=
  eq_qsort_of_perm cmp (S.perm cmp l) (S.sorted cmp l) h

/-- `resolve` with the routine for its three sorts; the entries left after the
duplicates are compacted in place, in parse order. -/
def resolveWith (S : Sorter) (posix : Posix) (entries : List Entry) : Except Failure (List Rule) :=
  let numbered := numberOccurrences (S.sort compareRecords entries)
  let left := qsort (fun x y => compare x.order y.order) (survivors (S.sort compareKeys numbered))
  if ruleMax < left.length - builtinRules then
    let e := left[ruleMax]?
    .error ((fault .eRuleLimit "too many effective rules/contact predicates").fail
      (e.bind Entry.inputIndex) ((e.map fun e => e.rule.line).getD 0))
  else finishRules posix (S.sort compareOrder left)

/-- `jf_policy_parse` with the routine for all four sorts. -/
def parseRulesWith (S : Sorter) (posix : Posix) (sources : List Source) : Except Failure (List Rule) := do
  checkSources sources.zipIdx
  let entries ← parseSources (S.sort compareSources sources.zipIdx) []
  resolveWith S posix (appendBuiltins entries)

theorem ordered_nodup {entries : List Entry}
    (ho : entries.map Entry.order = List.range entries.length) : (entries.map Entry.order).Nodup := by
  rw [ho]
  exact List.nodup_range

theorem resolveWith_eq (S : Sorter) (posix : Posix) {entries : List Entry}
    (ho : entries.map Entry.order = List.range entries.length) :
    resolveWith S posix entries = resolve posix entries := by
  have htie : ∀ l : List Entry, (l.map Entry.order).Nodup → ∀ a ∈ l, ∀ b ∈ l, a.order = b.order → a = b :=
    fun l hl a ha b hb h => List.inj_on_of_nodup_map hl ha hb h
  have hnodup := ordered_nodup ho
  have h1 : S.sort compareRecords entries = qsort compareRecords entries := by
    refine S.eq_qsort compareRecords fun a ha b hb h => htie _ hnodup a ha b hb ?_
    rw [compareRecords_eq, Ordering.then_eq_eq] at h
    exact Nat.compare_eq_eq.mp h.2
  have hnumber : ((numberOccurrences (qsort compareRecords entries)).map Entry.order).Nodup := by
    have hmap := congrArg (List.map Entry.order) (numberOccurrences_unnumbered (qsort compareRecords entries))
    rw [List.map_map, List.map_map] at hmap
    have heq : (numberOccurrences (qsort compareRecords entries)).map Entry.order =
        (qsort compareRecords entries).map Entry.order := hmap
    rw [heq]
    exact ((qsort_perm compareRecords entries).map _).nodup_iff.mpr hnodup
  have h2 : S.sort compareKeys (numberOccurrences (qsort compareRecords entries)) =
      qsort compareKeys (numberOccurrences (qsort compareRecords entries)) := by
    refine S.eq_qsort compareKeys fun a ha b hb h => htie _ hnumber a ha b hb ?_
    rw [compareKeys, Ordering.then_eq_eq] at h
    exact Nat.compare_eq_eq.mp h.2
  have hleft : ((dedupe entries).map Entry.order).Nodup := by
    have hsub := (survivors_sublist (qsort compareKeys (numberOccurrences (qsort compareRecords entries)))).map
      Entry.order
    have hkeys := ((qsort_perm compareKeys (numberOccurrences (qsort compareRecords entries))).map
      Entry.order).nodup_iff.mpr hnumber
    exact ((qsort_perm _ _).map Entry.order).nodup_iff.mpr (hkeys.sublist hsub)
  have h3 : S.sort compareOrder (dedupe entries) = qsort compareOrder (dedupe entries) := by
    refine S.eq_qsort compareOrder fun a ha b hb h => htie _ hleft a ha b hb ?_
    rw [compareOrder_eq] at h
    simp only [compareLex, compareOn, Ordering.then_eq_eq] at h
    exact Nat.compare_eq_eq.mp h.2.2
  rw [dedupe] at h3
  simp only [resolveWith, resolve, h1, h2, h3, dedupe]
  rfl

theorem parseRulesWith_eq (S : Sorter) (posix : Posix) (sources : List Source) :
    parseRulesWith S posix sources = parseRules posix sources := by
  have hsort : S.sort compareSources sources.zipIdx = qsort compareSources sources.zipIdx := by
    have hindex : (sources.zipIdx.map Prod.snd).Nodup := by
      rw [List.zipIdx_map_snd]
      exact List.nodup_range'
    refine S.eq_qsort compareSources fun a ha b hb h => List.inj_on_of_nodup_map hindex ha hb ?_
    simp only [compareSources, Ordering.then_eq_eq] at h
    exact Nat.compare_eq_eq.mp h.2.2
  rw [parseRulesWith, parseRules, hsort]
  cases checkSources sources.zipIdx with
  | error e => rfl
  | ok _ =>
    cases hparse : parseSources (qsort compareSources sources.zipIdx) [] with
    | error e => rfl
    | ok entries =>
      have hentries := parseSources_eq hparse
      simp only [List.nil_append, List.length_nil] at hentries
      have ho : entries.map Entry.order = List.range entries.length := by
        rw [hentries, enter_order, enter_length, List.range_eq_range']
      exact resolveWith_eq S posix (ordered_append _ _ (ordered_append _ _ (ordered_append _ _ ho)))

/-! ### The rules of a snapshot -/

/-- The rules of a snapshot are the builtins and one record a key, the first of
a contact's and the last of a route's, in the order of the stages and then of
the sources' kinds and identities, their places in the array and the lines. No
sorting routine and, where kind and identity tell the sources apart, no
permutation of them changes this. -/
theorem parseRules_spec {posix : Posix} {sources : List Source} {rules : List Rule}
    (h : parseRules posix sources = .ok rules) :
    (∃ es : List Entry, rules = es.map (fun e => identified e.rule) ∧ es.Pairwise RuleBefore ∧
        es.Perm (selected sources ++ builtinEntries (parsedEntries sources).length)) ∧
      (parsed sources).Pairwise (ParsedBefore sources) ∧
      (∀ r i, (r, i) ∈ parsed sources ↔ ∃ s, sources[i]? = some s ∧ r ∈ records s) ∧
      (∀ S : Sorter, parseRulesWith S posix sources = .ok rules) ∧
      ((sources.map sourceKey).Nodup →
        ∀ sources' : List Source, sources'.Perm sources → parseRules posix sources' = .ok rules) := by
  refine ⟨parseRules_selects h, pairwise_parsed sources, fun r i => mem_parsed, ?_, ?_⟩
  · intro S
    rw [parseRulesWith_eq, h]
  · intro hn sources' hp
    exact parseRules_perm hp hn h

def neverCompiles : Posix := ⟨fun _ => some ⟨false, []⟩, fun _ _ => .failed⟩

/-- Two inputs of one kind and identity: a route in the second line of the
first, a route in the first line of the second. -/
def twinSources : List Source :=
  [⟨.filters, cstr "f", cstr "p", cstr "\nfrom-domain a move x\n", by decide, by decide⟩,
    ⟨.filters, cstr "f", cstr "q", cstr "from-domain b move y\n", by decide, by decide⟩]

def twinEntries : List Entry :=
  [⟨newRule (some ⟨.filters, cstr "f", cstr "p", [], by decide, by decide⟩) 2 (cstr "from-domain")
      (cstr "a") (cstr "x") .domainApex 3 3, 0, some 0⟩,
    ⟨newRule (some ⟨.filters, cstr "f", cstr "q", [], by decide, by decide⟩) 1 (cstr "from-domain")
      (cstr "b") (cstr "y") .domainApex 3 3, 1, some 1⟩]

theorem twin_parse : parseSources (qsort compareSources twinSources.zipIdx) [] = .ok twinEntries := by
  decide

/-- What the twins resolve to, in order. -/
def twinSorted : List Entry :=
  [⟨bounceRule, 2, none⟩] ++ twinEntries ++ [⟨spamRule, 3, none⟩, ⟨unsortedRule, 4, none⟩]

/-- A parse in its steps. -/
theorem parseRules_of_sorted {posix : Posix} {sources : List Source} {entries sorted : List Entry}
    (hcheck : checkSources sources.zipIdx = .ok ())
    (hparse : parseSources (qsort compareSources sources.zipIdx) [] = .ok entries)
    (hsorted : qsort compareOrder (dedupe (appendBuiltins entries)) = sorted)
    (hlen : sorted.length ≤ ruleRecordMax)
    (hkind : ∀ e ∈ sorted, e.rule.kind = .ere → posix.regcomp e.rule.predicate = none) :
    parseRules posix sources = .ok (sorted.map fun e => identified e.rule) := by
  have hcount : (dedupe (appendBuiltins entries)).length = sorted.length := by
    rw [← length_qsort compareOrder, hsorted]
  have hroom : ¬ ruleMax < (dedupe (appendBuiltins entries)).length - builtinRules := by
    simp only [ruleRecordMax, builtinRules] at hlen ⊢
    omega
  rw [parseRules, hcheck]
  simp only [bind, Except.bind, hparse]
  rw [resolve, if_neg hroom, hsorted, finishRules_of_compiled hkind]

theorem twin_rules :
    parseRules neverCompiles twinSources = .ok (twinSorted.map fun e => identified e.rule) :=
  parseRules_of_sorted (by decide) twin_parse (by decide) (by decide) (by decide)

/-- The second line of the first input stands before the first line of the
second, though both have one kind and one identity. -/
theorem parse_order_by_position :
    ∃ (sources : List Source) (rules : List Rule), parseRules neverCompiles sources = .ok rules ∧
      (∀ s ∈ sources, s.kind = .filters ∧ s.identity = cstr "f") ∧
      ∃ x y, [x, y].Sublist rules ∧ x.stage = y.stage ∧ stageRank x = stageRank y ∧
        y.line < x.line := by
  refine ⟨twinSources, _, twin_rules, by decide, ?_⟩
  obtain ⟨a, b, hab⟩ : ∃ a b, twinEntries = [a, b] := ⟨_, _, rfl⟩
  refine ⟨identified a.rule, identified b.rule, ?_, ?_⟩
  · rw [twinSorted, hab]
    simp only [List.map_append, List.map_cons, List.map_nil]
    exact (List.sublist_append_right _ _).trans (List.sublist_append_left _ _)
  · have hfacts : ∀ x y, twinEntries = [x, y] → x.rule.stage = y.rule.stage ∧
        stageRank x.rule = stageRank y.rule ∧ y.rule.line < x.rule.line := by
      intro x y hxy
      simp only [twinEntries, List.cons.injEq, and_true] at hxy
      obtain ⟨rfl, rfl⟩ := hxy
      decide
    exact hfacts a b hab

theorem shadow_name : 0 ∉ cstr "g" := by decide

theorem shadow_path : 0 ∉ cstr "r" := by decide

/-- A route, and in a second input the same route to another destination and a
new one. -/
def shadowSources : List Source :=
  [⟨.filters, cstr "r", cstr "r", cstr "from-domain a move x\n", shadow_path, shadow_path⟩,
    ⟨.filters, cstr "g", cstr "r", cstr "from-domain a move y\nfrom-domain b move z\n",
      shadow_name, shadow_path⟩]

/-- What they parse to. The second input comes first. -/
def shadowEntries : List Entry :=
  [⟨newRule (some ⟨.filters, cstr "g", cstr "r", [], shadow_name, shadow_path⟩) 1
      (cstr "from-domain") (cstr "a") (cstr "y") .domainApex 3 3, 0, some 1⟩,
    ⟨newRule (some ⟨.filters, cstr "g", cstr "r", [], shadow_name, shadow_path⟩) 2
      (cstr "from-domain") (cstr "b") (cstr "z") .domainApex 3 3, 1, some 1⟩,
    ⟨newRule (some ⟨.filters, cstr "r", cstr "r", [], shadow_path, shadow_path⟩) 1
      (cstr "from-domain") (cstr "a") (cstr "x") .domainApex 3 3, 2, some 0⟩]

/-- What they resolve to: the route to `y` is gone. -/
def shadowSorted : List Entry :=
  [⟨bounceRule, 3, none⟩] ++ shadowEntries.drop 1 ++ [⟨spamRule, 4, none⟩, ⟨unsortedRule, 5, none⟩]

theorem shadow_rules :
    parseRules neverCompiles shadowSources = .ok (shadowSorted.map fun e => identified e.rule) :=
  @parseRules_of_sorted _ _ shadowEntries _ (by decide) (by decide) (by decide) (by decide) (by decide)

theorem parseRules_spec_sample :
    (∃ es : List Entry, es.Pairwise RuleBefore ∧ es.length = 5 ∧
      es.Perm (selected shadowSources ++ builtinEntries (parsedEntries shadowSources).length)) ∧
    (parsed shadowSources).Pairwise (ParsedBefore shadowSources) ∧
    (∀ S : Sorter, parseRulesWith S neverCompiles shadowSources =
      .ok (shadowSorted.map fun e => identified e.rule)) ∧
    parseRules neverCompiles shadowSources.reverse =
      .ok (shadowSorted.map fun e => identified e.rule) := by
  obtain ⟨⟨es, hes, hpair, hperm⟩, horder, -, hsorter, hshuffle⟩ := parseRules_spec shadow_rules
  have hlen : es.length = 5 := by
    have hmap := congrArg List.length hes
    rw [List.length_map, List.length_map] at hmap
    exact hmap.symm
  exact ⟨⟨es, hpair, hlen, hperm⟩, horder, hsorter,
    hshuffle (by decide) _ (List.reverse_perm _)⟩

end JaroFilter
