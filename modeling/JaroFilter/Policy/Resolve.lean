import JaroFilter.Policy.Parse
import JaroFilter.Sha256

/-!
# Resolving the entries (`policy.c:425-522`)

Occurrence numbers, duplicate resolution, the order of the eight stages, rule
identifiers and regex compilation: the second half of `jf_policy_parse`.
-/

namespace JaroFilter

open Lib

/-! ### Resolution -/

/-- `compare_key` (`policy.c:425`). -/
def compareKey (x y : Rule) : Ordering :=
  (strcmp x.selector y.selector).then (strcmp x.predicate y.predicate)

/-- `compare_records` (`policy.c:431`). -/
def compareRecords (x y : Entry) : Ordering :=
  (compareKey x.rule y.rule).then ((strcmp x.rule.logical y.rule.logical).then
    ((strcmp x.rule.sourceIdentity y.rule.sourceIdentity).then (compare x.order y.order)))

/-- `compare_keys` (`policy.c:441`). -/
def compareKeys (x y : Entry) : Ordering :=
  (compareKey x.rule y.rule).then (compare x.order y.order)

/-- `compare_order` (`policy.c:448`): in stage 5 addresses come first. -/
def compareOrder (x y : Entry) : Ordering :=
  if x.rule.stage ≠ y.rule.stage then
    if x.rule.stage < y.rule.stage then .lt else .gt
  else if x.rule.stage = 5 ∧ x.rule.kind ≠ y.rule.kind ∧ x.rule.kind = .address then .lt
  else if x.rule.stage = 5 ∧ x.rule.kind ≠ y.rule.kind ∧ y.rule.kind = .address then .gt
  else compare x.order y.order

def sameRecord (x y : Rule) : Bool :=
  compareKey x y == .eq && x.logical == y.logical && x.sourceIdentity == y.sourceIdentity

/-- The occurrence loop over the records sorted by `compare_records`
(`policy.c:490-495`): the `k`-th record after `head` in its run gets `k + 1`. -/
def numberRuns (head : Rule) (k : ℕ) : List Entry → List Entry
  | [] => []
  | e :: es =>
    if sameRecord head e.rule then
      { e with rule := { e.rule with occurrence := k + 1 } } :: numberRuns head (k + 1) es
    else e :: numberRuns e.rule 1 es

def numberOccurrences : List Entry → List Entry
  | [] => []
  | e :: es => e :: numberRuns e.rule 1 es

def isContact (selector : Bytes) : Bool :=
  selector == cstr "own" || selector == cstr "known" || selector == cstr "blacklist"

/-- Of one run of equal keys a contact keeps its first record, any other
selector its last. -/
def kept (first last : Entry) : Entry := if isContact first.rule.selector then first else last

/-- The discard loop over the records sorted by `compare_keys`
(`policy.c:497-502`), as the survivors it leaves. -/
def keepRuns (first last : Entry) : List Entry → List Entry
  | [] => [kept first last]
  | e :: es =>
    if compareKey first.rule e.rule = .eq then keepRuns first e es
    else kept first last :: keepRuns e e es

def survivors : List Entry → List Entry
  | [] => []
  | e :: es => keepRuns e e es

/-- The entries left after duplicate resolution, in parse order again. -/
def dedupe (entries : List Entry) : List Entry :=
  let numbered := numberOccurrences (qsort compareRecords entries)
  let left := survivors (qsort compareKeys numbered)
  qsort (fun x y => compare x.order y.order) left

/-- `identify` (`policy.c:459`): builtins by name, contacts by predicate, every
other rule by its record and occurrence. -/
def identify (r : Rule) : Bytes :=
  if r.selector = cstr "bounce" ∨ r.selector = cstr "spam" ∨ r.selector = cstr "unsorted" then
    cstr "builtin:" ++ r.selector
  else if r.selector = cstr "known" ∨ r.selector = cstr "blacklist" ∨ r.selector = cstr "own" then
    r.selector ++ cstr ":" ++ sha256Hex (sha256Update sha256Init r.predicate)
  else
    let parts := [r.selector ++ [0], r.predicate ++ [0], r.action ++ [0], r.logical ++ [0],
      r.sourceIdentity ++ [0], decimalText r.occurrence]
    cstr "r:" ++ sha256Hex (parts.foldl sha256Update sha256Init)

/-- The last loop of `resolve` (`policy.c:520-538`). -/
def finishRules (posix : Posix) : List Entry → Except Failure (List Rule)
  | [] => .ok []
  | e :: es =>
    let r := { e.rule with id := identify e.rule }
    if r.kind = .ere then
      match posix.regcomp r.predicate with
      | some err =>
        let code := if err.space then Code.eMemory else .eRegex
        .error (Fault.fail ⟨code, err.text⟩ e.inputIndex r.line)
      | none => (finishRules posix es).map (r :: ·)
    else (finishRules posix es).map (r :: ·)

/-- `resolve` (`policy.c:482`). -/
def resolve (posix : Posix) (entries : List Entry) : Except Failure (List Rule) :=
  let left := dedupe entries
  if ruleMax < left.length - builtinRules then
    let e := left[ruleMax]?
    .error ((fault .eRuleLimit "too many effective rules/contact predicates").fail
      (e.bind Entry.inputIndex) ((e.map fun e => e.rule.line).getD 0))
  else finishRules posix (qsort compareOrder left)

/-- `jf_policy_parse` (`policy.c:524`) up to its index: the resolved rules. -/
def parseRules (posix : Posix) (sources : List Source) : Except Failure (List Rule) := do
  checkSources sources.zipIdx
  let entries ← parseSources (qsort compareSources sources.zipIdx) []
  resolve posix (appendBuiltins entries)

/-! ### The comparisons are orders -/

instance : Std.TransCmp compareKey :=
  inferInstanceAs (Std.TransCmp (compareLex (compareOn Rule.selector) (compareOn Rule.predicate)))

instance : Std.TransCmp compareKeys :=
  inferInstanceAs (Std.TransCmp (compareLex
    (compareLex (compareOn fun e : Entry => e.rule.selector) (compareOn fun e => e.rule.predicate))
    (compareOn Entry.order)))

instance : Std.TransCmp compareRecords :=
  inferInstanceAs (Std.TransCmp (compareLex
    (compareLex (compareOn fun e : Entry => e.rule.selector) (compareOn fun e => e.rule.predicate))
    (compareLex (compareOn fun e => e.rule.logical)
      (compareLex (compareOn fun e => e.rule.sourceIdentity) (compareOn Entry.order)))))

/-- The place of a rule inside its stage: only stage 5 tells kinds apart. -/
def stageRank (r : Rule) : ℕ := if r.stage = 5 ∧ r.kind ≠ .address then 1 else 0

theorem compareOrder_eq : compareOrder =
    compareLex (compareOn fun e : Entry => e.rule.stage)
      (compareLex (compareOn fun e => stageRank e.rule) (compareOn Entry.order)) := by
  funext x y
  simp only [compareOrder, compareLex, compareOn, stageRank]
  by_cases hs : x.rule.stage = y.rule.stage
  · simp only [hs, ne_eq, not_true_eq_false, if_false, Std.ReflCmp.compare_self, Ordering.then]
    by_cases h5 : y.rule.stage = 5
    · by_cases hx : x.rule.kind = .address
      · by_cases hy : y.rule.kind = .address
        · simp [h5, hx, hy]
        · have hxy : ¬ Kind.address = y.rule.kind := fun h => hy h.symm
          simp [h5, hx, hy, hxy, Nat.compare_eq_ite_lt]
      · by_cases hy : y.rule.kind = .address
        · simp [h5, hx, hy, Nat.compare_eq_ite_lt]
        · simp [h5, hx, hy]
    · simp [h5]
  · simp only [ne_eq, hs, not_false_eq_true, if_true]
    rcases Nat.lt_or_gt_of_ne hs with hlt | hgt
    · simp [Nat.compare_eq_lt.mpr hlt, hlt]
    · simp [Nat.compare_eq_gt.mpr hgt, Nat.lt_asymm hgt]

instance : Std.TransCmp compareOrder := by
  rw [compareOrder_eq]
  infer_instance

/-! ### Survivors -/

theorem kept_mem {first last : Entry} {run : List Entry} (hf : first ∈ run) (hl : last ∈ run) :
    kept first last ∈ run := by
  unfold kept
  split
  · exact hf
  · exact hl

/-- The survivors are a sublist: `run` is the current run so far. -/
theorem keepRuns_sublist {first last : Entry} (es run : List Entry) (hf : first ∈ run)
    (hl : last ∈ run) : (keepRuns first last es).Sublist (run ++ es) := by
  induction es generalizing first last run with
  | nil => simpa [keepRuns] using kept_mem hf hl
  | cons e es ih =>
    simp only [keepRuns]
    split
    · have hstep := @ih first e (run ++ [e]) (by simp [hf]) (by simp)
      simpa using hstep
    · have hstep := @ih e e [e] (by simp) (by simp)
      have hone : [kept first last].Sublist run := by simpa using kept_mem hf hl
      simpa using hone.append hstep

theorem survivors_sublist (l : List Entry) : (survivors l).Sublist l := by
  cases l with
  | nil => simp [survivors]
  | cons e es =>
    have hsub := @keepRuns_sublist e e es [e] (by simp) (by simp)
    simpa [survivors] using hsub

theorem kept_key {first last : Entry} (h : compareKey first.rule last.rule = .eq) :
    compareKey first.rule (kept first last).rule = .eq := by
  unfold kept
  split
  · exact Std.ReflCmp.compare_self
  · exact h

/-- Every key of the run and of what follows survives. -/
theorem keepRuns_complete {first last : Entry} {es : List Entry}
    (h : compareKey first.rule last.rule = .eq) :
    ∀ e ∈ first :: es, ∃ k ∈ keepRuns first last es, compareKey e.rule k.rule = .eq := by
  induction es generalizing first last with
  | nil =>
    intro e he
    have he : e = first := by simpa using he
    subst he
    exact ⟨_, by simp [keepRuns], kept_key h⟩
  | cons a es ih =>
    intro e he
    simp only [keepRuns]
    split
    · rename_i ha
      have hcase : e = a ∨ e ∈ first :: es := by
        simp only [List.mem_cons] at he ⊢
        tauto
      rcases hcase with rfl | hmem
      · obtain ⟨k, hk, hkey⟩ := ih ha first (by simp)
        exact ⟨k, hk, Std.TransCmp.eq_trans (Std.OrientedCmp.eq_symm ha) hkey⟩
      · exact ih ha e hmem
    · rcases List.mem_cons.mp he with rfl | hmem
      · exact ⟨_, by simp, kept_key h⟩
      · obtain ⟨k, hk, hkey⟩ := ih Std.ReflCmp.compare_self e hmem
        exact ⟨k, by simp [hk], hkey⟩

theorem survivors_complete (l : List Entry) :
    ∀ e ∈ l, ∃ k ∈ survivors l, compareKey e.rule k.rule = .eq := by
  cases l with
  | nil => simp
  | cons a es => exact keepRuns_complete Std.ReflCmp.compare_self

/-- On a sorted list each key survives once: the surviving keys increase. -/
theorem keepRuns_increasing {first last : Entry} {es : List Entry}
    (h : compareKey first.rule last.rule = .eq)
    (hs : (first :: es).Pairwise fun x y => (compareKey x.rule y.rule).isLE = true) :
    (keepRuns first last es).Pairwise (fun x y => compareKey x.rule y.rule = .lt) ∧
      ∀ k ∈ keepRuns first last es, (compareKey first.rule k.rule).isLE = true := by
  induction es generalizing first last with
  | nil =>
    refine ⟨by simp [keepRuns], ?_⟩
    intro k hk
    rw [List.mem_singleton.mp hk, kept_key h]
    rfl
  | cons a es ih =>
    obtain ⟨hfirst, hrest⟩ := List.pairwise_cons.mp hs
    simp only [keepRuns]
    split
    · rename_i ha
      refine ih ha (List.pairwise_cons.mpr ⟨fun y hy => hfirst y (by simp [hy]), ?_⟩)
      exact (List.pairwise_cons.mp hrest).2
    · rename_i ha
      obtain ⟨hpair, hle⟩ := ih Std.ReflCmp.compare_self hrest
      have hlt : compareKey first.rule a.rule = .lt := by
        have hfa := hfirst a (by simp)
        cases hc : compareKey first.rule a.rule with
        | lt => rfl
        | eq => exact absurd hc ha
        | gt => simp [hc] at hfa
      have hall : ∀ k ∈ keepRuns a a es, compareKey first.rule k.rule = .lt :=
        fun k hk => Std.TransCmp.lt_of_lt_of_isLE hlt (hle k hk)
      refine ⟨List.pairwise_cons.mpr ⟨fun k hk => ?_, hpair⟩, fun k hk => ?_⟩
      · rw [← Std.TransCmp.congr_left (kept_key h)]
        exact hall k hk
      · rcases List.mem_cons.mp hk with rfl | hk
        · rw [kept_key h]
          rfl
        · rw [hall k hk]
          rfl

theorem survivors_increasing {l : List Entry}
    (hs : l.Pairwise fun x y => (compareKey x.rule y.rule).isLE = true) :
    (survivors l).Pairwise fun x y => compareKey x.rule y.rule = .lt := by
  cases l with
  | nil => simp [survivors]
  | cons a es => exact (keepRuns_increasing Std.ReflCmp.compare_self hs).1

/-! ### Occurrence numbers -/

/-- An entry as `append` left it: occurrence numbers are all that resolution
changes before identifiers are given. -/
def Entry.unnumbered (e : Entry) : Entry := { e with rule := { e.rule with occurrence := 1 } }

theorem numberRuns_unnumbered (head : Rule) (k : ℕ) (es : List Entry) :
    (numberRuns head k es).map Entry.unnumbered = es.map Entry.unnumbered := by
  induction es generalizing head k with
  | nil => rfl
  | cons e es ih =>
    simp only [numberRuns]
    split
    · simp only [List.map_cons, ih, Entry.unnumbered]
    · simp only [List.map_cons, ih]

theorem numberOccurrences_unnumbered (l : List Entry) :
    (numberOccurrences l).map Entry.unnumbered = l.map Entry.unnumbered := by
  cases l with
  | nil => rfl
  | cons e es => simp only [numberOccurrences, List.map_cons, numberRuns_unnumbered]

theorem compareKey_unnumbered (x y : Entry) :
    compareKey x.unnumbered.rule y.unnumbered.rule = compareKey x.rule y.rule := rfl

/-! ### Duplicate resolution -/

/-- The keys of two rules differ. -/
def DistinctKeys (x y : Entry) : Prop := compareKey x.rule y.rule ≠ .eq

theorem DistinctKeys.symm {x y : Entry} (h : DistinctKeys x y) : DistinctKeys y x :=
  fun he => h (Std.OrientedCmp.eq_symm he)

theorem pairwise_keys_qsort (l : List Entry) :
    (qsort compareKeys l).Pairwise fun x y => (compareKey x.rule y.rule).isLE = true := by
  refine (pairwise_qsort compareKeys l).imp ?_
  intro x y h
  simp only [compareKeys] at h
  cases hc : compareKey x.rule y.rule <;> simp [hc] at h ⊢

theorem mem_dedupe {entries : List Entry} {e : Entry} (h : e ∈ dedupe entries) :
    ∃ e0 ∈ entries, e.unnumbered = e0.unnumbered := by
  simp only [dedupe, mem_qsort] at h
  have hnumbered := (survivors_sublist _).subset h
  rw [mem_qsort] at hnumbered
  have hmap := List.mem_map_of_mem (f := Entry.unnumbered) hnumbered
  rw [numberOccurrences_unnumbered] at hmap
  obtain ⟨e0, he0, heq⟩ := List.mem_map.mp hmap
  exact ⟨e0, mem_qsort.mp he0, heq.symm⟩

theorem dedupe_complete {entries : List Entry} {e0 : Entry} (h : e0 ∈ entries) :
    ∃ e ∈ dedupe entries, compareKey e0.rule e.rule = .eq := by
  have hmap : e0.unnumbered ∈ (numberOccurrences (qsort compareRecords entries)).map
      Entry.unnumbered := by
    rw [numberOccurrences_unnumbered]
    exact List.mem_map_of_mem (mem_qsort.mpr h)
  obtain ⟨e1, he1, heq⟩ := List.mem_map.mp hmap
  obtain ⟨e, he, hkey⟩ := survivors_complete _ e1 (mem_qsort.mpr he1 : e1 ∈ qsort compareKeys _)
  refine ⟨e, mem_qsort.mpr he, ?_⟩
  rw [← compareKey_unnumbered, ← heq, compareKey_unnumbered]
  exact hkey

theorem pairwise_dedupe (entries : List Entry) : (dedupe entries).Pairwise DistinctKeys := by
  have hlt := survivors_increasing
    (pairwise_keys_qsort (numberOccurrences (qsort compareRecords entries)))
  refine ((qsort_perm _ _).pairwise_iff fun h => h.symm).mpr (hlt.imp ?_)
  intro x y h
  simp [DistinctKeys, h]

/-! ### The resolved policy -/

/-- The rule as `resolve` stores it, with its identifier. -/
def identified (r : Rule) : Rule := { r with id := identify r }

theorem finishRules_ok {posix : Posix} {es : List Entry} {rules : List Rule}
    (h : finishRules posix es = .ok rules) :
    rules = es.map (fun e => identified e.rule) ∧
      ∀ r ∈ rules, r.kind = .ere → posix.regcomp r.predicate = none := by
  induction es generalizing rules with
  | nil =>
    cases h
    simp
  | cons e es ih =>
    simp only [finishRules] at h
    split at h
    · split at h
      · cases h
      · rename_i hcomp
        obtain ⟨rest, hrest, rfl⟩ := map_eq_ok_iff.mp h
        obtain ⟨hmap, hall⟩ := ih hrest
        refine ⟨by rw [hmap]; rfl, ?_⟩
        intro r hr hk
        rcases List.mem_cons.mp hr with rfl | hr
        · exact hcomp
        · exact hall r hr hk
    · rename_i hk
      obtain ⟨rest, hrest, rfl⟩ := map_eq_ok_iff.mp h
      obtain ⟨hmap, hall⟩ := ih hrest
      refine ⟨by rw [hmap]; rfl, ?_⟩
      intro r hr hkind
      rcases List.mem_cons.mp hr with rfl | hr
      · exact absurd hkind hk
      · exact hall r hr hkind

/-- Every policy has its three builtins once, the fallback last. -/
structure HasBuiltins (rules : List Rule) : Prop where
  bounce : rules.countP (fun r => r.kind == .senderContains) = 1
  spam : rules.countP (fun r => r.kind == .spamIs) = 1
  fallback : rules.countP (fun r => r.kind == .always) = 1
  last : ∃ init r, rules = init ++ [r] ∧ r.kind = .always

/-- What `resolve` guarantees of the rules it returns. -/
structure Resolved (posix : Posix) (rules : List Rule) : Prop extends HasBuiltins rules where
  ok : ∀ r ∈ rules, RuleOk r
  sorted : rules.Pairwise fun x y => x.stage ≤ y.stage
  id : ∀ r ∈ rules, r.id = identify r
  compiled : ∀ r ∈ rules, r.kind = .ere → posix.regcomp r.predicate = none
  length : rules.length ≤ ruleRecordMax

theorem RuleOk.stage_le {r : Rule} (h : RuleOk r) : 1 ≤ r.stage ∧ r.stage ≤ 8 := by
  have hplaced := h.placed
  cases hk : r.kind <;> rw [hk] at hplaced <;>
    simp only [placements, List.mem_cons, Prod.mk.injEq, List.not_mem_nil, or_false] at hplaced <;>
    omega

theorem RuleOk.always_iff {r : Rule} (h : RuleOk r) : r.kind = .always ↔ r.stage = 8 := by
  have hplaced := h.placed
  cases hk : r.kind <;> rw [hk] at hplaced <;>
    simp only [placements, List.mem_cons, Prod.mk.injEq, List.not_mem_nil, or_false] at hplaced <;>
    simp <;> omega

/-- Of a list of distinct keys with one key of a kind, one rule has it. -/
theorem countP_kind_eq_one {l : List Entry} {k : Kind} {sel p : Bytes}
    (hp : l.Pairwise DistinctKeys) (hex : ∃ e ∈ l, e.rule.kind = k)
    (hkey : ∀ e ∈ l, e.rule.kind = k → e.rule.selector = sel ∧ e.rule.predicate = p) :
    l.countP (fun e => e.rule.kind == k) = 1 := by
  have hle : (l.filter fun e => e.rule.kind == k).length ≤ 1 := by
    have hpair : (l.filter fun e => e.rule.kind == k).Pairwise DistinctKeys := hp.filter _
    match hf : l.filter fun e => e.rule.kind == k with
    | [] => simp [hf]
    | [_] => simp [hf]
    | x :: y :: rest =>
      rw [hf] at hpair
      have hx : x ∈ l.filter fun e => e.rule.kind == k := by simp [hf]
      have hy : y ∈ l.filter fun e => e.rule.kind == k := by simp [hf]
      simp only [List.mem_filter, beq_iff_eq] at hx hy
      obtain ⟨hx1, hx2⟩ := hkey x hx.1 hx.2
      obtain ⟨hy1, hy2⟩ := hkey y hy.1 hy.2
      have hne := (List.pairwise_cons.mp hpair).1 y (by simp)
      refine absurd ?_ hne
      simp only [compareKey, hx1, hx2, hy1, hy2, (strcmp_eq_iff _ _).mpr, Ordering.then]
  obtain ⟨e, he, hk⟩ := hex
  have hpos : 0 < l.countP fun e => e.rule.kind == k := List.countP_pos_iff.mpr ⟨e, he, by simp [hk]⟩
  rw [List.countP_eq_length_filter] at hpos ⊢
  omega

theorem RuleOk.of_unnumbered {e e0 : Entry} (he : e.unnumbered = e0.unnumbered)
    (h : RuleOk e0.rule) : RuleOk e.rule := by
  have h0 : RuleOk e0.unnumbered.rule :=
    ⟨h.placed, h.normal, h.selector, h.logical, h.logical_utf8, h.stage_logical, h.localDir,
      h.action, h.source_nul, h.line⟩
  rw [← he] at h0
  exact ⟨h0.placed, h0.normal, h0.selector, h0.logical, h0.logical_utf8, h0.stage_logical,
    h0.localDir, h0.action, h0.source_nul, h0.line⟩

theorem RuleOk.identified {r : Rule} (h : RuleOk r) : RuleOk (identified r) :=
  ⟨h.placed, h.normal, h.selector, h.logical, h.logical_utf8, h.stage_logical, h.localDir,
    h.action, h.source_nul, h.line⟩

/-- A builtin kind fixes selector and predicate. -/
theorem RuleOk.builtin_key {r : Rule} (h : RuleOk r) {sel : Bytes}
    (hk : builtinSelector r.kind = some sel) : r.selector = sel := by
  have hsel := h.selector
  rw [hk] at hsel
  split at hsel
  · exact (Option.some.inj hsel).symm
  · cases hsel

theorem bounceRule_ok : RuleOk bounceRule :=
  ⟨by decide, rfl, by decide, by decide, by decide, by decide, by decide, by decide, by decide,
    by decide⟩

theorem spamRule_ok : RuleOk spamRule :=
  ⟨by decide, rfl, by decide, by decide, by decide, by decide, by decide, by decide, by decide,
    by decide⟩

theorem unsortedRule_ok : RuleOk unsortedRule :=
  ⟨by decide, rfl, by decide, by decide, by decide, by decide, by decide, by decide, by decide,
    by decide⟩

theorem mem_appendBuiltins {entries : List Entry} {e : Entry} (h : e ∈ appendBuiltins entries) :
    e ∈ entries ∨ e.rule = bounceRule ∨ e.rule = spamRule ∨ e.rule = unsortedRule := by
  simp only [appendBuiltins, append, List.mem_append, List.mem_singleton] at h
  rcases h with ((h | rfl) | rfl) | rfl
  · exact Or.inl h
  · exact Or.inr (Or.inl rfl)
  · exact Or.inr (Or.inr (Or.inl rfl))
  · exact Or.inr (Or.inr (Or.inr rfl))

theorem builtins_mem (entries : List Entry) :
    (∃ e ∈ appendBuiltins entries, e.rule = bounceRule) ∧
      (∃ e ∈ appendBuiltins entries, e.rule = spamRule) ∧
      ∃ e ∈ appendBuiltins entries, e.rule = unsortedRule := by
  refine ⟨⟨⟨bounceRule, entries.length, none⟩, ?_, rfl⟩,
    ⟨⟨spamRule, entries.length + 1, none⟩, ?_, rfl⟩,
    ⟨⟨unsortedRule, entries.length + 2, none⟩, ?_, rfl⟩⟩ <;>
    simp [appendBuiltins, append]

theorem appendBuiltins_ok {entries : List Entry} (hb : Built entries) :
    ∀ e ∈ appendBuiltins entries, RuleOk e.rule := by
  intro e he
  rcases mem_appendBuiltins he with he | he | he | he
  · exact (hb.rules e he).toRuleOk
  · rw [he]
    exact bounceRule_ok
  · rw [he]
    exact spamRule_ok
  · rw [he]
    exact unsortedRule_ok

theorem dedupe_ok {entries : List Entry} (h : ∀ e ∈ entries, RuleOk e.rule) :
    ∀ e ∈ dedupe entries, RuleOk e.rule := by
  intro e he
  obtain ⟨e0, he0, heq⟩ := mem_dedupe he
  exact (h e0 he0).of_unnumbered heq

theorem compareKey_eq_iff (x y : Rule) :
    compareKey x y = .eq ↔ x.selector = y.selector ∧ x.predicate = y.predicate := by
  rw [compareKey, Ordering.then_eq_eq, strcmp_eq_iff, strcmp_eq_iff]

theorem builtinSelector_inj {j k : Kind} {sel : Bytes} (hj : builtinSelector j = some sel)
    (hk : builtinSelector k = some sel) : j = k := by
  have heq : builtinSelector j = builtinSelector k := hj.trans hk.symm
  cases j <;> cases k <;>
    first
    | rfl
    | exact absurd heq (by decide)
    | exact absurd hj (by simp [builtinSelector])

/-- In stage order the fallback, alone in stage 8, comes last. -/
theorem exists_last_always {rules : List Rule} (hok : ∀ r ∈ rules, RuleOk r)
    (hsorted : rules.Pairwise fun x y => x.stage ≤ y.stage)
    (hex : 0 < rules.countP fun r => r.kind == .always) :
    ∃ init r, rules = init ++ [r] ∧ r.kind = .always := by
  obtain ⟨f, hf, hkind⟩ := List.countP_pos_iff.mp hex
  have hkind : f.kind = .always := by simpa using hkind
  rcases List.eq_nil_or_concat rules with hnil | ⟨init, r, hr⟩
  · rw [hnil] at hf
    exact absurd hf (by simp)
  · rw [List.concat_eq_append] at hr
    refine ⟨init, r, hr, ?_⟩
    have hrok : RuleOk r := hok r (by rw [hr]; simp)
    rw [hrok.always_iff]
    have h8 : f.stage = 8 := (hok f hf).always_iff.mp hkind
    have hle : f.stage ≤ r.stage := by
      rw [hr] at hf hsorted
      rcases List.mem_append.mp hf with hf | hf
      · exact (List.pairwise_append.mp hsorted).2.2 f hf r (by simp)
      · rw [List.mem_singleton.mp hf]
    have hbound := hrok.stage_le
    omega

/-- Each builtin survives resolution once. -/
theorem countP_dedupe_builtin {entries : List Entry} (hok : ∀ e ∈ entries, RuleOk e.rule)
    {b : Entry} (hb : b ∈ entries) {sel : Bytes} (hsel : builtinSelector b.rule.kind = some sel) :
    (dedupe entries).countP (fun e => e.rule.kind == b.rule.kind) = 1 := by
  have hdok := dedupe_ok hok
  have hkey : ∀ r : Rule, RuleOk r → r.kind = b.rule.kind →
      r.selector = sel ∧ r.predicate = b.rule.predicate := by
    intro r hr hk
    refine ⟨hr.builtin_key (by rw [hk]; exact hsel), ?_⟩
    have hn := hr.normal
    have hbn := (hok b hb).normal
    rw [hk] at hn
    cases hkind : b.rule.kind <;> rw [hkind] at hn hbn hsel <;>
      first
      | exact hn.trans hbn.symm
      | cases hsel
  obtain ⟨e, he, heq⟩ := dedupe_complete hb
  refine countP_kind_eq_one (pairwise_dedupe entries) ⟨e, he, ?_⟩ fun x hx hk => hkey x.rule (hdok x hx) hk
  have hselector : e.rule.selector = b.rule.selector := ((compareKey_eq_iff _ _).mp heq).1.symm
  have hesel := (hdok e he).selector
  have hbsel := (hok b hb).selector
  rw [hselector] at hesel
  rw [hsel] at hbsel
  split at hbsel
  · rename_i hbuiltin
    rw [if_pos hbuiltin] at hesel
    exact builtinSelector_inj hesel (hsel.trans hbsel)
  · cases hbsel

theorem resolve_ok {posix : Posix} {entries : List Entry} {rules : List Rule}
    (h : resolve posix entries = .ok rules) :
    rules = (qsort compareOrder (dedupe entries)).map (fun e => identified e.rule) ∧
      (dedupe entries).length ≤ ruleRecordMax ∧
      ∀ r ∈ rules, r.kind = .ere → posix.regcomp r.predicate = none := by
  simp only [resolve] at h
  split at h
  · cases h
  · rename_i hlen
    obtain ⟨hmap, hcomp⟩ := finishRules_ok h
    exact ⟨hmap, by simp only [ruleRecordMax, builtinRules] at hlen ⊢; omega, hcomp⟩

theorem resolve_resolved {posix : Posix} {entries : List Entry} {rules : List Rule}
    (h : resolve posix (appendBuiltins entries) = .ok rules) (hb : Built entries) :
    Resolved posix rules := by
  obtain ⟨hrules, hlen, hcomp⟩ := resolve_ok h
  have hall := appendBuiltins_ok hb
  have hdok := dedupe_ok hall
  have hcount : ∀ (b : Rule) (sel : Bytes), (∃ e ∈ appendBuiltins entries, e.rule = b) →
      builtinSelector b.kind = some sel → rules.countP (fun r => r.kind == b.kind) = 1 := by
    rintro b sel ⟨e, he, rfl⟩ hsel
    rw [hrules, List.countP_map, (qsort_perm _ _).countP_eq]
    exact countP_dedupe_builtin hall he hsel
  have hok : ∀ r ∈ rules, RuleOk r := by
    intro r hr
    rw [hrules] at hr
    obtain ⟨e, he, rfl⟩ := List.mem_map.mp hr
    exact (hdok e (mem_qsort.mp he)).identified
  have hsorted : rules.Pairwise fun x y => x.stage ≤ y.stage := by
    rw [hrules, List.pairwise_map]
    refine (pairwise_qsort compareOrder _).imp ?_
    intro x y hxy
    rw [compareOrder_eq] at hxy
    simp only [compareLex, compareOn] at hxy
    have hle : (compare x.rule.stage y.rule.stage).isLE = true := by
      cases hc : compare x.rule.stage y.rule.stage <;> simp [hc] at hxy ⊢
    exact Nat.isLE_compare.mp hle
  obtain ⟨hbounce, hspam, hunsorted⟩ := builtins_mem entries
  have hfallback : rules.countP (fun r => r.kind == .always) = 1 :=
    hcount unsortedRule (cstr "unsorted") hunsorted rfl
  refine ⟨⟨?_, ?_, hfallback, ?_⟩, hok, hsorted, ?_, hcomp, ?_⟩
  · exact hcount bounceRule (cstr "bounce") hbounce rfl
  · exact hcount spamRule (cstr "spam") hspam rfl
  · exact exists_last_always hok hsorted (by rw [hfallback]; exact Nat.one_pos)
  · intro r hr
    rw [hrules] at hr
    obtain ⟨e, _, rfl⟩ := List.mem_map.mp hr
    rfl
  · rw [hrules, List.length_map, length_qsort]
    exact hlen

/-- Every policy the parser returns is resolved. -/
theorem parseRules_resolved {posix : Posix} {sources : List Source} {rules : List Rule}
    (h : parseRules posix sources = .ok rules) : Resolved posix rules := by
  obtain ⟨_, hcheck, hrest⟩ := bind_eq_ok_iff.mp h
  obtain ⟨entries, hparse, hresolve⟩ := bind_eq_ok_iff.mp hrest
  refine resolve_resolved hresolve (parseSources_built hparse ?_ ⟨rfl, by simp⟩)
  intro s hs
  exact (checkSources_ok hcheck s (mem_qsort.mp hs)).2

end JaroFilter
