import JaroFilter.Policy.Grammar
import JaroFilter.Policy.Snapshot

/-!
# Rule identities (`policy.c:459-523`)

The ID of a rule hashes what the rule says and how many equal records stand
before it, never where it stands. Two snapshots are compared by the records
that share a key, read in parse order and without their source and line.
-/

namespace JaroFilter

open Lib

/-! ### What an ID hashes -/

def sha256 (data : Bytes) : Bytes := sha256Hex (sha256Update sha256Init data)

/-- The six fields of an explicit record, a NUL between two. -/
def recordFields (r : Rule) : Bytes :=
  r.selector ++ 0 :: (r.predicate ++ 0 :: (r.action ++ 0 :: (r.logical ++ 0 ::
    (r.sourceIdentity ++ 0 :: decimalText r.occurrence))))

def hashedInput (r : Rule) : Bytes := if isContact r.selector then r.predicate else recordFields r

/-- The inputs a policy hashes: its builtins have fixed IDs. -/
def hashedInputs (rules : List Rule) : Set Bytes :=
  {x | ∃ r ∈ rules, isBuiltinSelector r.selector = false ∧ x = hashedInput r}

theorem isContact_iff (s : Bytes) :
    isContact s = true ↔ s = cstr "known" ∨ s = cstr "blacklist" ∨ s = cstr "own" := by
  simp only [isContact, Bool.or_eq_true, beq_iff_eq]
  tauto

theorem isBuiltinSelector_iff (s : Bytes) :
    isBuiltinSelector s = true ↔ s = cstr "bounce" ∨ s = cstr "spam" ∨ s = cstr "unsorted" := by
  simp only [isBuiltinSelector, Bool.or_eq_true, beq_iff_eq, or_assoc]

/-- Streaming the parts hashes the fields as one input. -/
theorem identify_eq (r : Rule) : identify r =
    if isBuiltinSelector r.selector then cstr "builtin:" ++ r.selector
    else (if isContact r.selector then r.selector ++ cstr ":" else cstr "r:") ++
      sha256 (hashedInput r) := by
  rw [identify]
  simp only [← isBuiltinSelector_iff, ← isContact_iff]
  split
  · rfl
  · simp only [hashedInput]
    split
    · rfl
    · rw [foldl_sha256Update _ sha256Init_ready, sha256, recordFields]
      simp only [List.flatten_cons, List.flatten_nil, List.append_assoc, List.singleton_append,
        List.append_nil]

/-! ### Different records, different IDs -/

/-- The first two bytes of an ID tell builtins, each contact selector and
routes apart. -/
def idTag (selector : Bytes) : Bytes :=
  if isBuiltinSelector selector then cstr "bu"
  else if isContact selector then selector.take 2
  else cstr "r:"

theorem take_identify (r : Rule) : (identify r).take 2 = idTag r.selector := by
  rw [identify_eq, idTag]
  split
  · rfl
  · split
    · rename_i hcontact
      rcases (isContact_iff _).mp hcontact with h | h | h <;> rw [h] <;> rfl
    · rfl

theorem idTag_inj {s t : Bytes} (h : idTag s = idTag t) :
    isBuiltinSelector s = isBuiltinSelector t ∧ isContact s = isContact t ∧
      (isBuiltinSelector s = false → isContact s = true → s = t) := by
  have hcontacts : ∀ u, isContact u = true → u ∈ [cstr "known", cstr "blacklist", cstr "own"] := by
    intro u hu
    simpa using (isContact_iff u).mp hu
  have hbuiltin : ∀ u, isBuiltinSelector u = true → isContact u = false := by
    intro u hu
    rcases (isBuiltinSelector_iff u).mp hu with rfl | rfl | rfl <;> rfl
  have htags : ∀ u ∈ [cstr "known", cstr "blacklist", cstr "own"],
      u.take 2 ≠ cstr "bu" ∧ u.take 2 ≠ cstr "r:" ∧
        ∀ v ∈ [cstr "known", cstr "blacklist", cstr "own"], u.take 2 = v.take 2 → u = v := by decide
  have hne : cstr "bu" ≠ cstr "r:" := by decide
  simp only [idTag] at h
  cases hbs : isBuiltinSelector s <;> cases hbt : isBuiltinSelector t <;>
    cases hcs : isContact s <;> cases hct : isContact t <;>
    simp only [hbs, hbt, hcs, hct, if_true, Bool.false_eq_true, if_false] at h
  case false.false.false.false => simp
  case false.false.false.true => exact absurd h.symm (htags t (hcontacts t hct)).2.1
  case false.false.true.false => exact absurd h (htags s (hcontacts s hcs)).2.1
  case false.false.true.true =>
    exact ⟨rfl, rfl, fun _ _ => (htags s (hcontacts s hcs)).2.2 t (hcontacts t hct) h⟩
  case false.true.false.false => exact absurd h.symm hne
  case false.true.true.false => exact absurd h (htags s (hcontacts s hcs)).1
  case true.false.false.false => exact absurd h hne
  case true.false.false.true => exact absurd h.symm (htags t (hcontacts t hct)).1
  case true.true.false.false => simp
  all_goals
    first
    | exact absurd (hbuiltin s hbs) (by rw [hcs]; decide)
    | exact absurd (hbuiltin t hbt) (by rw [hct]; decide)

theorem recordFields_inj {r q : Rule} (hs : 0 ∉ r.selector ∧ 0 ∉ q.selector)
    (hp : 0 ∉ r.predicate ∧ 0 ∉ q.predicate) (ha : 0 ∉ r.action ∧ 0 ∉ q.action)
    (hl : 0 ∉ r.logical ∧ 0 ∉ q.logical) (hi : 0 ∉ r.sourceIdentity ∧ 0 ∉ q.sourceIdentity)
    (h : recordFields r = recordFields q) :
    r.selector = q.selector ∧ r.predicate = q.predicate ∧ r.logical = q.logical ∧
      r.occurrence = q.occurrence := by
  obtain ⟨h1, h⟩ := append_zero_inj hs.1 hs.2 h
  obtain ⟨h2, h⟩ := append_zero_inj hp.1 hp.2 h
  obtain ⟨-, h⟩ := append_zero_inj ha.1 ha.2 h
  obtain ⟨h3, h⟩ := append_zero_inj hl.1 hl.2 h
  obtain ⟨-, h⟩ := append_zero_inj hi.1 hi.2 h
  exact ⟨h1, h2, h3, decimalText_injective h⟩

/-- A rule whose fields are all free of NUL. -/
structure Named (r : Rule) : Prop extends RuleOk r where
  selector_nul : 0 ∉ r.selector
  identity_nul : 0 ∉ r.sourceIdentity

theorem Named.action_nul {r : Rule} (h : Named r) : 0 ∉ r.action := by
  rw [h.action]
  decide

/-- The name of a builtin determines its predicate. -/
theorem RuleOk.builtin_predicate {r q : Rule} (hr : RuleOk r) (hq : RuleOk q)
    (hb : isBuiltinSelector r.selector = true) (h : r.selector = q.selector) :
    r.predicate = q.predicate := by
  have hrs := hr.selector
  have hqs := hq.selector
  rw [← h] at hqs
  rw [if_pos hb] at hrs hqs
  have hkind := builtinSelector_inj hrs hqs
  have hrn := hr.normal
  have hqn := hq.normal
  rw [← hkind] at hqn
  cases hk : r.kind <;> rw [hk] at hrs hrn hqn
  case senderContains => exact Eq.trans hrn hqn.symm
  case spamIs => exact Eq.trans hrn hqn.symm
  case always => exact Eq.trans hrn hqn.symm
  all_goals cases hrs

/-- Two rules of one ID have one key, and routes one destination and number,
when the hash tells their inputs apart. -/
theorem identify_inj {r q : Rule} (hr : Named r) (hq : Named q)
    (hinj : isBuiltinSelector r.selector = false → isBuiltinSelector q.selector = false →
      sha256 (hashedInput r) = sha256 (hashedInput q) → hashedInput r = hashedInput q)
    (h : identify r = identify q) :
    compareKey r q = .eq ∧ (isBuiltinSelector r.selector = false → isContact r.selector = false →
      r.logical = q.logical ∧ r.occurrence = q.occurrence) := by
  have htag : idTag r.selector = idTag q.selector := by
    rw [← take_identify, ← take_identify, h]
  obtain ⟨hb, hc, hsel⟩ := idTag_inj htag
  rw [identify_eq, identify_eq, ← hb, ← hc] at h
  rw [compareKey_eq_iff]
  cases hbr : isBuiltinSelector r.selector with
  | true =>
    rw [hbr, if_pos rfl, if_pos rfl] at h
    have hname := List.append_cancel_left h
    exact ⟨⟨hname, hr.builtin_predicate hq.toRuleOk hbr hname⟩, fun hf => absurd hf (by decide)⟩
  | false =>
    simp only [hbr, Bool.false_eq_true, if_false] at h
    cases hcr : isContact r.selector with
    | true =>
      have hname := hsel hbr hcr
      rw [hcr, if_pos rfl, if_pos rfl, ← hname] at h
      have hhash := hinj hbr (by rw [← hb, hbr]) (List.append_cancel_left h)
      rw [hashedInput, hashedInput, ← hname, hcr, if_pos rfl, if_pos rfl] at hhash
      exact ⟨⟨hname, hhash⟩, fun _ hf => absurd hf (by decide)⟩
    | false =>
      simp only [hcr, Bool.false_eq_true, if_false] at h
      have hhash := hinj hbr (by rw [← hb, hbr]) (List.append_cancel_left h)
      rw [hashedInput, hashedInput, ← hc, hcr] at hhash
      obtain ⟨h1, h2, h3, h4⟩ := recordFields_inj ⟨hr.selector_nul, hq.selector_nul⟩
        ⟨hr.predicate_nul, hq.predicate_nul⟩ ⟨hr.action_nul, hq.action_nul⟩
        ⟨validUtf8_not_nul hr.logical_utf8, validUtf8_not_nul hq.logical_utf8⟩
        ⟨hr.identity_nul, hq.identity_nul⟩ hhash
      exact ⟨⟨h1, h2⟩, fun _ _ => ⟨h3, h4⟩⟩

/-! ### The records of one key -/

/-- The first of increasing entries. -/
theorem head?_iff {l : List Entry} (hl : (l.map Entry.order).Pairwise (· < ·)) {e : Entry} :
    l.head? = some e ↔ e ∈ l ∧ ∀ x ∈ l, e.order ≤ x.order := by
  cases l with
  | nil => simp
  | cons a l =>
    have hpair := List.pairwise_cons.mp (List.pairwise_map.mp hl)
    constructor
    · intro h
      obtain rfl : a = e := by simpa using h
      refine ⟨by simp, fun x hx => ?_⟩
      rcases List.mem_cons.mp hx with rfl | hx
      · exact le_refl _
      · exact (hpair.1 x hx).le
    · intro h
      obtain ⟨hmem, hle⟩ := h
      rcases List.mem_cons.mp hmem with rfl | hmem
      · rfl
      · have hlt := hpair.1 e hmem
        have hge := hle a (by simp)
        omega

/-- The last of increasing entries. -/
theorem getLast?_iff {l : List Entry} (hl : (l.map Entry.order).Pairwise (· < ·)) {e : Entry} :
    l.getLast? = some e ↔ e ∈ l ∧ ∀ x ∈ l, x.order ≤ e.order := by
  rcases List.eq_nil_or_concat l with rfl | ⟨l, a, rfl⟩
  · simp
  · rw [List.concat_eq_append] at hl ⊢
    have hpair := (List.pairwise_append.mp (List.pairwise_map.mp hl)).2.2
    rw [List.getLast?_concat]
    constructor
    · intro h
      obtain rfl : a = e := by simpa using h
      refine ⟨by simp, fun x hx => ?_⟩
      rcases List.mem_append.mp hx with hx | hx
      · exact (hpair x hx a (by simp)).le
      · rw [List.mem_singleton.mp hx]
    · intro h
      obtain ⟨hmem, hle⟩ := h
      rcases List.mem_append.mp hmem with hmem | hmem
      · have hlt := hpair e hmem a (by simp)
        have hge := hle a (by simp)
        omega
      · rw [List.mem_singleton.mp hmem]

def definitions (rs : List Rule) (r : Rule) : List Rule := rs.filter fun x => compareKey x r == .eq

/-- What stands for the records of one key, with its number. -/
def effective (contact : Bool) (ds : List Rule) : Option Rule :=
  if contact then ds.head?.map fun x => { x with occurrence := 1 }
  else ds.getLast?.map fun x => { x with occurrence := ds.countP (sameRecord · x) }

theorem mem_key {l : List Entry} {e x : Entry} :
    x ∈ l.filter (fun x => compareKey x.rule e.rule == .eq) ↔
      x ∈ l ∧ compareKey x.rule e.rule = .eq := by
  rw [List.mem_filter, beq_iff_eq]

theorem stands_iff {l : List Entry} (hl : (l.map Entry.order).Pairwise (· < ·)) {e : Entry} :
    e ∈ l ∧ Stands l e ↔
      (if isContact e.rule.selector then (l.filter fun x => compareKey x.rule e.rule == .eq).head?
        else (l.filter fun x => compareKey x.rule e.rule == .eq).getLast?) = some e := by
  have hd : ((l.filter fun x => compareKey x.rule e.rule == .eq).map Entry.order).Pairwise (· < ·) :=
    hl.sublist (List.filter_sublist.map _)
  have hself : compareKey e.rule e.rule = .eq := Std.ReflCmp.compare_self
  cases hc : isContact e.rule.selector
  · simp only [Bool.false_eq_true, if_false]
    rw [getLast?_iff hd, mem_key]
    simp only [mem_key, hself, and_true, and_imp, Stands, hc, Bool.false_eq_true, if_false]
  · simp only [if_true]
    rw [head?_iff hd, mem_key]
    simp only [mem_key, hself, and_true, and_imp, Stands, hc, if_true]

/-- Of the equal records of a route all but the kept one stand earlier. -/
theorem earlier_route {l : List Entry} (hl : (l.map Entry.order).Pairwise (· < ·)) {e : Entry}
    (he : e ∈ l) (hs : Stands l e) (hc : isContact e.rule.selector = false) :
    earlier l e + 1 = (l.map Entry.rule).countP (sameRecord · e.rule) := by
  obtain ⟨pre, post, rfl⟩ := List.append_of_mem he
  have hpair := List.pairwise_append.mp (List.pairwise_map.mp hl)
  have hpost := (List.pairwise_cons.mp hpair.2.1).1
  have hnone : ∀ x ∈ post, sameRecord x.rule e.rule = false := by
    intro x hx
    rw [← Bool.not_eq_true]
    intro hsame
    obtain ⟨h1, h2, -⟩ := (sameRecord_iff _ _).mp hsame
    have hle := hs x (by simp [hx]) ((compareKey_eq_iff _ _).mpr ⟨h1, h2⟩)
    rw [hc] at hle
    simp only [Bool.false_eq_true, if_false] at hle
    have hlt := hpost x hx
    omega
  have hself : sameRecord e.rule e.rule = true := (sameRecord_iff _ _).mpr ⟨rfl, rfl, rfl, rfl⟩
  have hpre : pre.countP (fun x => sameRecord x.rule e.rule && decide (x.order < e.order)) =
      pre.countP fun x => sameRecord x.rule e.rule := by
    refine List.countP_congr fun x hx => ?_
    have hlt := hpair.2.2 x hx e (by simp)
    simp [hlt]
  have hzero : post.countP (fun x => sameRecord x.rule e.rule && decide (x.order < e.order)) = 0 ∧
      post.countP (fun x => sameRecord x.rule e.rule) = 0 := by
    constructor <;> refine List.countP_eq_zero.mpr fun x hx => ?_ <;> simp [hnone x hx]
  rw [earlier, List.countP_map, List.countP_append, List.countP_append, List.countP_cons,
    List.countP_cons, hpre, hzero.1]
  simp only [Function.comp_apply, hself, Bool.true_and, lt_irrefl, decide_false, Bool.false_eq_true,
    if_false, if_true, Function.comp_def, hzero.2]

theorem parsedEntries_order (sources : List Source) :
    ((parsedEntries sources).map Entry.order).Pairwise (· < ·) := by
  rw [parsedEntries, enter_order]
  exact List.pairwise_lt_range'

theorem parsedEntries_rules (sources : List Source) :
    (parsedEntries sources).map Entry.rule = (parsed sources).map Prod.fst := by
  rw [parsedEntries, enter_rules, List.map_map]
  rfl

/-- Same records as a rule are among the records of its key. -/
theorem countP_definitions (rs : List Rule) (r : Rule) :
    (definitions rs r).countP (sameRecord · r) = rs.countP (sameRecord · r) := by
  rw [definitions, List.countP_filter]
  refine List.countP_congr fun x _ => ?_
  simp only [Bool.and_eq_true, beq_iff_eq, and_iff_left_iff_imp]
  intro h
  obtain ⟨h1, h2, -⟩ := (sameRecord_iff _ _).mp h
  exact (compareKey_eq_iff _ _).mpr ⟨h1, h2⟩

theorem definitions_congr {rs : List Rule} {r q : Rule} (h : compareKey r q = .eq) :
    definitions rs r = definitions rs q := by
  obtain ⟨h1, h2⟩ := (compareKey_eq_iff _ _).mp h
  refine List.filter_congr fun x _ => ?_
  rw [compareKey, compareKey, h1, h2]

/-- A selected record is what stands for its key. -/
theorem mem_selected_iff {sources : List Source} {r : Rule} :
    r ∈ (selected sources).map Entry.rule ↔
      effective (isContact r.selector) (definitions ((parsed sources).map Prod.fst) r) = some r := by
  have hl := parsedEntries_order sources
  have hone : ∀ e ∈ parsedEntries sources, e.rule.occurrence = 1 := fun e he =>
    allEntries_occurrence sources e (by rw [allEntries_eq]; exact List.mem_append_left _ he)
  have hdefs : ∀ q : Rule, definitions ((parsed sources).map Prod.fst) q =
      ((parsedEntries sources).filter fun x => compareKey x.rule q == .eq).map Entry.rule := by
    intro q
    rw [definitions, ← parsedEntries_rules, List.filter_map]
    rfl
  have hearlier : ∀ e ∈ parsedEntries sources, Stands (parsedEntries sources) e →
      earlier (parsedEntries sources) e + 1 = if isContact e.rule.selector then 1 else
        (definitions ((parsed sources).map Prod.fst) e.rule).countP (sameRecord · e.rule) := by
    intro e he hs
    cases hc : isContact e.rule.selector with
    | true =>
      rw [if_pos rfl, earlier_eq_zero fun x hx hk => ?_]
      have hle := hs x hx hk
      rwa [hc, if_pos rfl] at hle
    | false =>
      rw [if_neg (by decide), countP_definitions, ← parsedEntries_rules]
      exact earlier_route hl he hs hc
  constructor
  · intro h
    obtain ⟨n, hn, rfl⟩ := List.mem_map.mp h
    obtain ⟨e, he, rfl⟩ := List.mem_map.mp hn
    obtain ⟨he, hs⟩ := List.mem_filter.mp he
    have hs := of_decide_eq_true hs
    have hpick := (stands_iff hl).mp ⟨he, hs⟩
    have hnum := hearlier e he hs
    have hkey : definitions ((parsed sources).map Prod.fst) (numbered (parsedEntries sources) e).rule =
        definitions ((parsed sources).map Prod.fst) e.rule := rfl
    have hsel : (numbered (parsedEntries sources) e).rule.selector = e.rule.selector := rfl
    rw [effective, hkey, hsel]
    cases hc : isContact e.rule.selector with
    | true =>
      rw [hc, if_pos rfl] at hpick hnum
      rw [if_pos rfl, hdefs, List.head?_map, hpick]
      simp only [Option.map_some, numbered, hnum]
    | false =>
      rw [hc, if_neg (by decide)] at hpick hnum
      rw [if_neg (by decide), hdefs, List.getLast?_map, hpick]
      simp only [Option.map_some, numbered, ← hdefs, hnum]
  · intro h
    rw [effective] at h
    obtain ⟨e, hpick, hr⟩ : ∃ e, (if isContact r.selector then
          ((parsedEntries sources).filter fun x => compareKey x.rule r == .eq).head?
        else ((parsedEntries sources).filter fun x => compareKey x.rule r == .eq).getLast?) = some e ∧
        { e.rule with occurrence := if isContact r.selector then 1 else
          (definitions ((parsed sources).map Prod.fst) r).countP (sameRecord · e.rule) } = r := by
      cases hc : isContact r.selector with
      | true =>
        rw [hc, if_pos rfl, hdefs, List.head?_map, Option.map_map] at h
        obtain ⟨e, he, hr⟩ := Option.map_eq_some_iff.mp h
        exact ⟨e, he, hr⟩
      | false =>
        rw [hc, if_neg (by decide)] at h
        obtain ⟨q, hq, hr⟩ := Option.map_eq_some_iff.mp h
        rw [hdefs, List.getLast?_map] at hq
        obtain ⟨e, he, rfl⟩ := Option.map_eq_some_iff.mp hq
        exact ⟨e, he, hr⟩
    have hsel : e.rule.selector = r.selector := by rw [← hr]
    have hkey : compareKey e.rule r = .eq := by
      rw [compareKey_eq_iff, ← hr]
      exact ⟨rfl, rfl⟩
    have hfilter : ((parsedEntries sources).filter fun x => compareKey x.rule r == .eq) =
        (parsedEntries sources).filter fun x => compareKey x.rule e.rule == .eq := by
      obtain ⟨h1, h2⟩ := (compareKey_eq_iff _ _).mp hkey
      refine List.filter_congr fun x _ => ?_
      rw [compareKey, compareKey, h1, h2]
    rw [hfilter, ← hsel] at hpick
    obtain ⟨he, hs⟩ := (stands_iff hl).mpr hpick
    refine List.mem_map.mpr ⟨numbered (parsedEntries sources) e, List.mem_map.mpr
      ⟨e, List.mem_filter.mpr ⟨he, decide_eq_true hs⟩, rfl⟩, ?_⟩
    rw [← hsel, ← definitions_congr hkey, ← hearlier e he hs] at hr
    exact hr

theorem mem_rules {posix : Posix} {sources : List Source} {rules : List Rule}
    (h : parseRules posix sources = .ok rules) {r : Rule} :
    r ∈ rules ↔ ∃ q, r = identified q ∧
      (q ∈ (selected sources).map Entry.rule ∨ q ∈ builtinRecords) := by
  obtain ⟨es, hrules, -, hperm⟩ := parseRules_selects h
  have hbuiltin : (builtinEntries (parsedEntries sources).length).map Entry.rule = builtinRecords := by
    rw [builtinEntries, enter_rules, List.map_map]
    exact List.map_id _
  have hmem : ∀ q, q ∈ es.map Entry.rule ↔
      q ∈ (selected sources).map Entry.rule ∨ q ∈ builtinRecords := by
    intro q
    rw [(hperm.map Entry.rule).mem_iff, List.map_append, List.mem_append, hbuiltin]
  simp only [hrules, List.mem_map] at hmem ⊢
  constructor
  · intro h
    obtain ⟨e, he, rfl⟩ := h
    exact ⟨e.rule, rfl, (hmem e.rule).mp ⟨e, he, rfl⟩⟩
  · intro h
    obtain ⟨q, rfl, hq⟩ := h
    obtain ⟨e, he, rfl⟩ := (hmem q).mpr hq
    exact ⟨e, he, rfl⟩

/-! ### Pairwise distinct IDs -/

theorem parseLine_selector {s : Source} {number : ℕ} {line : Bytes} {r : Rule}
    (h : parseLine s number line = .ok (some r)) : 0 ∉ r.selector := by
  have hcontact : parseContact s number line = .ok (some r) → 0 ∉ r.selector := by
    intro h
    simp only [parseContact] at h
    split at h
    · cases h
    · split at h
      · cases h
      · split at h <;> cases h
        · exact (by decide : (0 : Byte) ∉ cstr "known")
        · exact (by decide : (0 : Byte) ∉ cstr "blacklist")
  unfold parseLine at h
  split at h
  · exact hcontact h
  · split at h
    · cases h
    · split at h
      · cases h
      · cases h
      · rename_i tokens _ _
        split at h
        · simp only [parseFilter] at h
          split at h
          · cases h
          · rename_i kind hkind
            have hnul : 0 ∉ tokens.getD 0 [] := by
              rcases selectorKind_cases hkind with ⟨-, hm⟩ | ⟨-, hm⟩ | ⟨-, hm⟩
              · exact (by decide : ∀ t ∈ [cstr "known-domain", cstr "from-domain", cstr "to-domain"],
                  (0 : Byte) ∉ t) _ hm
              · exact (by decide : ∀ t ∈ [cstr "from-address", cstr "to-address"], (0 : Byte) ∉ t) _ hm
              · exact (by decide : ∀ t ∈ [cstr "from", cstr "to"], (0 : Byte) ∉ t) _ hm
            repeat' split at h
            all_goals cases h
            all_goals exact hnul
        · simp only [parseOwn] at h
          repeat' split at h
          all_goals cases h
          all_goals exact (by decide : (0 : Byte) ∉ cstr "own")

theorem selected_source {sources : List Source} {q : Rule}
    (h : q ∈ (selected sources).map Entry.rule) : ∃ e ∈ parsedEntries sources,
      Stands (parsedEntries sources) e ∧ q = (numbered (parsedEntries sources) e).rule := by
  obtain ⟨n, hn, rfl⟩ := List.mem_map.mp h
  obtain ⟨e, he, rfl⟩ := List.mem_map.mp hn
  obtain ⟨he, hs⟩ := List.mem_filter.mp he
  exact ⟨e, he, of_decide_eq_true hs, rfl⟩

theorem rules_named {posix : Posix} {sources : List Source} {rules : List Rule}
    (h : parseRules posix sources = .ok rules) : ∀ r ∈ rules, Named r := by
  intro r hr
  have hok := (parseRules_resolved h).ok r hr
  obtain ⟨q, rfl, hq⟩ := (mem_rules h).mp hr
  refine ⟨hok, ?_, ?_⟩
  · rcases hq with hq | hq
    · obtain ⟨e, he, -, rfl⟩ := selected_source hq
      obtain ⟨i, hi⟩ := mem_parsedEntries he
      obtain ⟨s, -, hrec⟩ := mem_parsed.mp hi
      obtain ⟨l, n, -, hline⟩ := mem_records.mp hrec
      exact (parseLine_selector hline : 0 ∉ e.rule.selector)
    · exact (by decide : ∀ q ∈ builtinRecords, (0 : Byte) ∉ q.selector) q hq
  · rcases hq with hq | hq
    · obtain ⟨e, he, -, rfl⟩ := selected_source hq
      obtain ⟨i, hi⟩ := mem_parsedEntries he
      obtain ⟨s, -, hrec⟩ := mem_parsed.mp hi
      have hident : 0 ∉ e.rule.sourceIdentity := by
        rw [(records_eq hrec).2.1]
        exact s.identity_nul
      exact hident
    · exact (by decide : ∀ q ∈ builtinRecords, (0 : Byte) ∉ q.sourceIdentity) q hq

theorem rules_keys {posix : Posix} {sources : List Source} {rules : List Rule}
    (h : parseRules posix sources = .ok rules) :
    rules.Pairwise fun x y => compareKey x y ≠ .eq := by
  obtain ⟨hresolve, -, -⟩ := parseRules_ok h
  obtain ⟨hrules, -, -⟩ := resolve_ok hresolve
  have hkeys : (qsort compareOrder (dedupe (allEntries sources))).Pairwise DistinctKeys :=
    ((qsort_perm _ _).pairwise_iff fun h => h.symm).mpr (pairwise_dedupe _)
  rw [hrules]
  exact List.pairwise_map.mpr hkeys

theorem rules_ids {posix : Posix} {sources : List Source} {rules : List Rule}
    (h : parseRules posix sources = .ok rules) (hinj : Set.InjOn sha256 (hashedInputs rules)) :
    rules.Pairwise fun x y => x.id ≠ y.id := by
  have hresolved := parseRules_resolved h
  refine (rules_keys h).imp_of_mem ?_
  intro x y hx hy hkey hid
  rw [hresolved.id x hx, hresolved.id y hy] at hid
  refine hkey (identify_inj (rules_named h x hx) (rules_named h y hy) ?_ hid).1
  intro hbx hby heq
  exact hinj ⟨x, hx, hbx, rfl⟩ ⟨y, hy, hby, rfl⟩ heq

/-! ### Grown snapshots -/

/-- A rule without its place. -/
def erase (r : Rule) : Rule := { r with source := [], line := 0 }

/-- The record of a line, wherever it stands. -/
def lineRecord (s : Source) (l : Bytes) : Option Rule :=
  match parseLine s 0 (chopCr l) with
  | .ok r => r.map erase
  | .error _ => none

theorem erase_newRule (s s' : Source) (hi : s'.identity = s.identity) (n n' : ℕ)
    (selector predicate logical : Bytes) (kind : Kind) (stage fields : ℕ) :
    erase (newRule (some s') n' selector predicate logical kind stage fields) =
      erase (newRule (some s) n selector predicate logical kind stage fields) := by
  simp only [erase, newRule, Option.map_some, Option.getD_some, hi]

/-- Up to its place, the record of a line depends on the kind and identity of
the source alone. -/
theorem parseLine_erase {s s' : Source} (hk : s'.kind = s.kind) (hi : s'.identity = s.identity)
    (n n' : ℕ) (l : Bytes) :
    (parseLine s' n' l).map (Option.map erase) = (parseLine s n l).map (Option.map erase) := by
  have hrule := fun selector predicate logical kind stage fields =>
    erase_newRule s s' hi n n' selector predicate logical kind stage fields
  have hcontact : (parseContact s' n' l).map (Option.map erase) =
      (parseContact s n l).map (Option.map erase) := by
    simp only [parseContact, hk]
    split
    · rfl
    · split
      · rfl
      · split <;> simp only [Except.map, Option.map_some, hrule]
  have hown : ∀ tokens, (parseOwn s' n' tokens).map (Option.map erase) =
      (parseOwn s n tokens).map (Option.map erase) := by
    intro tokens
    simp only [parseOwn, hk]
    generalize (if s.kind = SourceKind.account then 1 else 0) = position
    split
    · rfl
    · split
      · rfl
      · simp only [Except.map, Option.map_some, hrule]
  have hfilter : ∀ tokens, (parseFilter s' n' tokens).map (Option.map erase) =
      (parseFilter s n tokens).map (Option.map erase) := by
    intro tokens
    simp only [parseFilter]
    split
    · rfl
    · repeat' split
      all_goals first
        | rfl
        | simp only [Except.map, Option.map_some, hrule]
  simp only [parseLine, hk]
  split
  · exact hcontact
  · split
    · rfl
    · split
      · rfl
      · rfl
      · split
        · exact hfilter _
        · exact hown _

theorem lineRecord_eq (s : Source) (n : ℕ) (l : Bytes) :
    (match parseLine s n (chopCr l) with
      | .ok r => r
      | .error _ => none).map erase = lineRecord s l := by
  have h := @parseLine_erase s s rfl rfl n 0 (chopCr l)
  rw [lineRecord]
  cases h1 : parseLine s n (chopCr l) <;> cases h2 : parseLine s 0 (chopCr l) <;>
    rw [h1, h2] at h <;> simp only [Except.map, Except.ok.injEq, reduceCtorEq] at h
  · rfl
  · exact h.symm

theorem lineRecord_congr {s s' : Source} (hk : s'.kind = s.kind) (hi : s'.identity = s.identity)
    (l : Bytes) : lineRecord s' l = lineRecord s l := by
  have h := parseLine_erase hk hi 0 0 (chopCr l)
  rw [lineRecord, lineRecord]
  cases h1 : parseLine s' 0 (chopCr l) <;> cases h2 : parseLine s 0 (chopCr l) <;>
    rw [h1, h2] at h <;> simp only [Except.map, Except.ok.injEq, reduceCtorEq] at h
  exact h

theorem records_erase (s : Source) : (records s).map erase = (lines s.data).filterMap (lineRecord s) := by
  rw [records, List.map_filterMap]
  have hfst : lines s.data = ((lines s.data).zipIdx 1).map Prod.fst := by rw [List.zipIdx_map_fst]
  conv_rhs => rw [hfst, List.filterMap_map]
  refine List.filterMap_congr fun x _ => ?_
  exact lineRecord_eq s x.2 x.1

/-- A line that says nothing: blank, or a comment where the kind has comments. -/
def Idle (kind : SourceKind) (line : Bytes) : Prop :=
  (∀ c ∈ line, isBlank c = true) ∨
    (kind = .filters ∨ kind = .account ∨ kind = .aliases) ∧
      ∃ blanks text, line = blanks ++ 35 :: text ∧ ∀ c ∈ blanks, isBlank c = true

/-- Lines with more lines among them. -/
inductive Inserted (new : Bytes → Prop) : List Bytes → List Bytes → Prop
  | nil : Inserted new [] []
  | keep (l : Bytes) {ls ls' : List Bytes} : Inserted new ls ls' → Inserted new (l :: ls) (l :: ls')
  | insert {l : Bytes} {ls ls' : List Bytes} : new l → Inserted new ls ls' → Inserted new ls (l :: ls')

/-- What may be inserted into a source of a snapshot: a line that says nothing,
or a record whose selector and predicate the snapshot has nowhere. -/
def Insertable (sources : List Source) (s : Source) (l : Bytes) : Prop :=
  Idle s.kind (chopCr l) ∨ ∃ n r, parseLine s n (chopCr l) = .ok (some r) ∧
    ∀ x ∈ parsed sources, compareKey x.1 r ≠ .eq

/-- The same sources by kind and identity, with any paths, and lines inserted
anywhere. -/
def Extends (sources sources' : List Source) : Prop :=
  List.Forall₂ (fun s s' => s'.kind = s.kind ∧ s'.identity = s.identity ∧
    Inserted (Insertable sources s) (lines s.data) (lines s'.data)) sources sources'

theorem lineRecord_idle {s : Source} {l : Bytes} (h : Idle s.kind (chopCr l)) : lineRecord s l = none := by
  obtain ⟨line, hline⟩ : ∃ line, line = chopCr l := ⟨_, rfl⟩
  rw [← hline] at h
  rw [lineRecord, ← hline]
  have hdrop : (∀ c ∈ line, isBlank c = true) → line.dropWhile isBlank = [] :=
    fun hb => List.dropWhile_eq_nil_iff.mpr hb
  have hlex : lex line = .ok [] := by
    refine lex_iff.mpr ⟨?_, by simp⟩
    rcases h with hb | ⟨-, blanks, text, rfl, hb⟩
    · exact .done hb
    · exact .comment hb text
  have hquiet : parseLine s 0 line = .ok none := by
    unfold parseLine
    split
    · rename_i hkind
      rcases h with hb | ⟨hkinds, -⟩
      · have htrim : trimBlanks line = [] := by
          rw [trimBlanks, hdrop hb]
          rfl
        simp only [parseContact, htrim, if_true]
      · rcases hkind with hkind | hkind <;> rw [hkind] at hkinds <;> simp at hkinds
    · split
      · rfl
      · rw [hlex]
  rw [hquiet]
  rfl

/-- A record of a snapshot in a key of its own. -/
def inSnapshot (rs : List Rule) (r : Rule) : Bool := rs.any fun x => compareKey x r == .eq

theorem inSnapshot_erase (rs : List Rule) : inSnapshot rs ∘ erase = inSnapshot rs := rfl

theorem inserted_records {sources : List Source} {s s' : Source} (hk : s'.kind = s.kind)
    (hi : s'.identity = s.identity) {ls ls' : List Bytes}
    (h : Inserted (Insertable sources s) ls ls')
    (hin : ∀ l ∈ ls, ∀ r, lineRecord s l = some r →
      inSnapshot ((parsed sources).map Prod.fst) r = true) :
    (ls'.filterMap (lineRecord s')).filter (inSnapshot ((parsed sources).map Prod.fst)) =
      ls.filterMap (lineRecord s) := by
  induction h with
  | nil => rfl
  | @keep l ls ls' _ ih =>
    have ih := ih fun x hx => hin x (List.mem_cons_of_mem _ hx)
    cases hr : lineRecord s l with
    | none =>
      rw [List.filterMap_cons_none hr, List.filterMap_cons_none (by rw [lineRecord_congr hk hi, hr]), ih]
    | some r =>
      rw [List.filterMap_cons_some hr,
        List.filterMap_cons_some (by rw [lineRecord_congr hk hi, hr]),
        List.filter_cons_of_pos (hin l (by simp) r hr), ih]
  | @insert l ls ls' hnew _ ih =>
    have ih := ih hin
    have hdrop : ∀ r, lineRecord s' l = some r →
        inSnapshot ((parsed sources).map Prod.fst) r = false := by
      intro r hr
      rw [lineRecord_congr hk hi] at hr
      rcases hnew with hidle | ⟨n, q, hq, hnone⟩
      · rw [lineRecord_idle hidle] at hr
        cases hr
      · rw [← lineRecord_eq s n l, hq] at hr
        obtain rfl : erase q = r := by simpa using hr
        rw [inSnapshot, List.any_eq_false]
        intro x hx
        obtain ⟨y, hy, rfl⟩ := List.mem_map.mp hx
        have hne : compareKey y.1 (erase q) ≠ .eq := hnone y hy
        simpa using hne
    cases hr : lineRecord s' l with
    | none => rw [List.filterMap_cons_none hr, ih]
    | some r =>
      rw [List.filterMap_cons_some hr, List.filter_cons_of_neg (by rw [hdrop r hr]; decide), ih]

/-- Sources of the same kinds and identities are sorted alike. -/
theorem extends_sorted {sources sources' : List Source} (h : Extends sources sources') :
    ∃ zs : List ((Source × Source) × ℕ),
      (qsort compareSources sources.zipIdx).map Prod.fst = zs.map (fun z => z.1.1) ∧
      (qsort compareSources sources'.zipIdx).map Prod.fst = zs.map (fun z => z.1.2) ∧
      ∀ z ∈ zs, z.1.1 ∈ sources ∧ z.1.2.kind = z.1.1.kind ∧ z.1.2.identity = z.1.1.identity ∧
        Inserted (Insertable sources z.1.1) (lines z.1.1.data) (lines z.1.2.data) := by
  obtain ⟨hlen, hrel⟩ := List.forall₂_iff_zip.mp h
  have hfst : sources.zipIdx = (sources.zip sources').zipIdx.map fun z => (z.1.1, z.2) := by
    have hmap : sources = (sources.zip sources').map Prod.fst := by
      rw [List.map_fst_zip (by omega)]
    conv_lhs => rw [hmap]
    rw [List.zipIdx_map]
    rfl
  have hsnd : sources'.zipIdx = (sources.zip sources').zipIdx.map fun z => (z.1.2, z.2) := by
    have hmap : sources' = (sources.zip sources').map Prod.snd := by
      rw [List.map_snd_zip (by omega)]
    conv_lhs => rw [hmap]
    rw [List.zipIdx_map]
    rfl
  have hmem : ∀ z ∈ (sources.zip sources').zipIdx, z.1 ∈ sources.zip sources' := by
    intro z hz
    rw [← List.zipIdx_map_fst 0 (sources.zip sources')]
    exact List.mem_map_of_mem hz
  refine ⟨qsort (fun a b => compareSources (a.1.1, a.2) (b.1.1, b.2)) (sources.zip sources').zipIdx,
    ?_, ?_, ?_⟩
  · rw [hfst, qsort, ← List.map_insertionSort (fun a b =>
      (compareSources (a.1.1, a.2) (b.1.1, b.2)).isLE = true) _ _ _ fun _ _ _ _ => Iff.rfl, List.map_map]
    rfl
  · rw [hsnd, qsort, ← List.map_insertionSort (fun a b =>
      (compareSources (a.1.1, a.2) (b.1.1, b.2)).isLE = true) _ _ _ ?_, List.map_map]
    · rfl
    · intro a ha b hb
      obtain ⟨hka, hia, -⟩ := hrel (a := a.1.1) (b := a.1.2) (hmem a ha)
      obtain ⟨hkb, hib, -⟩ := hrel (a := b.1.1) (b := b.1.2) (hmem b hb)
      simp only [compareSources, hka, hia, hkb, hib]
  · intro z hz
    have hz := hmem z (mem_qsort.mp hz)
    exact ⟨(List.of_mem_zip hz).1, hrel hz⟩

/-- What is inserted adds no record of an old key and takes none away. -/
theorem extends_records {sources sources' : List Source} (h : Extends sources sources') :
    (((parsed sources').map Prod.fst).filter (inSnapshot ((parsed sources).map Prod.fst))).map erase =
      ((parsed sources).map Prod.fst).map erase := by
  obtain ⟨zs, hsorted, hsorted', hrel⟩ := extends_sorted h
  obtain ⟨known, hknown⟩ : ∃ known, known = inSnapshot ((parsed sources).map Prod.fst) := ⟨_, rfl⟩
  have hself : ∀ z ∈ zs, ∀ r ∈ records z.1.1, known r = true := by
    intro z hz r hr
    obtain ⟨i, hi⟩ := List.mem_iff_getElem?.mp (hrel z hz).1
    have hmem : r ∈ (parsed sources).map Prod.fst :=
      List.mem_map.mpr ⟨(r, i), mem_parsed.mpr ⟨_, hi, hr⟩, rfl⟩
    rw [hknown, inSnapshot, List.any_eq_true]
    exact ⟨r, hmem, beq_iff_eq.mpr Std.ReflCmp.compare_self⟩
  have herase : ∀ rs : List Rule, (rs.filter known).map erase = (rs.map erase).filter known := by
    intro rs
    rw [List.filter_map, hknown, inSnapshot_erase]
  rw [← hknown, herase, parsed_rules, parsed_rules, hsorted, hsorted', List.flatMap_map, List.flatMap_map,
    List.map_flatMap, List.map_flatMap, List.filter_flatMap]
  refine List.flatMap_congr fun z hz => ?_
  obtain ⟨-, hk, hi, hins⟩ := hrel z hz
  rw [records_erase, records_erase, hknown]
  refine inserted_records hk hi hins ?_
  intro l hl r hr
  rw [← hknown]
  have hmem : r ∈ (records z.1.1).map erase := by
    rw [records_erase]
    exact List.mem_filterMap.mpr ⟨l, hl, hr⟩
  obtain ⟨q, hq, rfl⟩ := List.mem_map.mp hmem
  have hq := hself z hz q hq
  rw [hknown] at hq ⊢
  exact hq

theorem effective_erase (contact : Bool) (ds : List Rule) :
    (effective contact ds).map erase = effective contact (ds.map erase) := by
  have hcount : ∀ x, (ds.map erase).countP (sameRecord · (erase x)) = ds.countP (sameRecord · x) := by
    intro x
    rw [List.countP_map]
    rfl
  cases contact
  · simp only [effective, Bool.false_eq_true, if_false, List.getLast?_map, Option.map_map,
      Function.comp_def, hcount]
    rfl
  · simp only [effective, if_true, List.head?_map, Option.map_map]
    rfl

/-- The records of an old key are the same in the grown snapshot. -/
theorem extends_definitions {sources sources' : List Source} (h : Extends sources sources') {r : Rule}
    (hr : inSnapshot ((parsed sources).map Prod.fst) r = true) :
    (definitions ((parsed sources').map Prod.fst) r).map erase =
      (definitions ((parsed sources).map Prod.fst) r).map erase := by
  have hrecords := extends_records h
  obtain ⟨rs, hrs⟩ : ∃ rs, rs = (parsed sources).map Prod.fst := ⟨_, rfl⟩
  rw [← hrs] at hr hrecords ⊢
  have hkey : ∀ x, (compareKey x r == .eq) = true → inSnapshot rs x = true := by
    intro x hx
    obtain ⟨y, hy, hyr⟩ := List.any_eq_true.mp hr
    obtain ⟨h1, h2⟩ := (compareKey_eq_iff _ _).mp (beq_iff_eq.mp hx)
    refine List.any_eq_true.mpr ⟨y, hy, ?_⟩
    rw [compareKey, h1, h2]
    exact hyr
  have hfilter : ∀ l : List Rule, (definitions l r).map erase = definitions (l.map erase) r := by
    intro l
    rw [definitions, definitions, List.filter_map]
    rfl
  have hsub : definitions (((parsed sources').map Prod.fst).filter (inSnapshot rs)) r =
      definitions ((parsed sources').map Prod.fst) r := by
    rw [definitions, definitions, List.filter_filter]
    refine List.filter_congr fun x _ => ?_
    cases hx : compareKey x r == .eq with
    | false => rfl
    | true => rw [hkey x hx, Bool.and_true]
  rw [← hsub, hfilter, hfilter, hrecords]

/-- Every rule is in a grown snapshot, at another place perhaps. -/
theorem rules_extends {posix : Posix} {sources sources' : List Source} {rules rules' : List Rule}
    (h : parseRules posix sources = .ok rules) (h' : parseRules posix sources' = .ok rules')
    (hext : Extends sources sources') : ∀ r ∈ rules, ∃ r' ∈ rules', erase r' = erase r := by
  intro r hr
  obtain ⟨q, rfl, hq⟩ := (mem_rules h).mp hr
  rcases hq with hq | hq
  · obtain ⟨e, he, -, hqe⟩ := selected_source hq
    obtain ⟨i, hi⟩ := mem_parsedEntries he
    have hin : inSnapshot ((parsed sources).map Prod.fst) q = true := by
      refine List.any_eq_true.mpr ⟨e.rule, List.mem_map.mpr ⟨_, hi, rfl⟩, beq_iff_eq.mpr ?_⟩
      rw [compareKey_eq_iff, hqe]
      exact ⟨rfl, rfl⟩
    have hdefs := extends_definitions hext hin
    have heff := mem_selected_iff.mp hq
    have herased : (effective (isContact q.selector)
        (definitions ((parsed sources').map Prod.fst) q)).map erase = some (erase q) := by
      rw [effective_erase, hdefs, ← effective_erase, heff]
      rfl
    obtain ⟨q', hq', heq⟩ := Option.map_eq_some_iff.mp herased
    obtain ⟨hsel, hpred⟩ : q'.selector = q.selector ∧ q'.predicate = q.predicate := by
      have hkeys : (erase q').selector = (erase q).selector ∧ (erase q').predicate = (erase q).predicate := by
        rw [heq]
        exact ⟨rfl, rfl⟩
      exact hkeys
    have hmem : q' ∈ (selected sources').map Entry.rule := by
      rw [mem_selected_iff, hsel, definitions_congr ((compareKey_eq_iff _ _).mpr ⟨hsel, hpred⟩)]
      exact hq'
    refine ⟨identified q', (mem_rules h').mpr ⟨q', rfl, .inl hmem⟩, ?_⟩
    have hid : identified (erase q') = identified (erase q) := by rw [heq]
    exact hid
  · exact ⟨identified q, (mem_rules h').mpr ⟨q, rfl, .inr hq⟩, rfl⟩

/-! ### What changes an ID -/

def IsRoute (r : Rule) : Prop := isBuiltinSelector r.selector = false ∧ isContact r.selector = false

/-- A rule keeps the last record of its key; `before` is what was parsed ahead
of that record. -/
def DefinedAfter (sources : List Source) (before : List (Rule × ℕ)) (r : Rule) : Prop :=
  ∃ q i after, parsed sources = before ++ (q, i) :: after ∧
    (∀ x ∈ after, compareKey x.1 r ≠ .eq) ∧ r = { q with occurrence := r.occurrence, id := r.id }

/-- The earlier definitions that are identical to a rule. -/
def identicalBefore (before : List (Rule × ℕ)) (r : Rule) : ℕ :=
  before.countP fun x => sameRecord x.1 r

theorem route_selected {posix : Posix} {sources : List Source} {rules : List Rule}
    (h : parseRules posix sources = .ok rules) {r : Rule} (hr : r ∈ rules) (hroute : IsRoute r) :
    ∃ q ∈ (selected sources).map Entry.rule, r = identified q := by
  obtain ⟨q, rfl, hq⟩ := (mem_rules h).mp hr
  rcases hq with hq | hq
  · exact ⟨q, hq, rfl⟩
  · have hbuiltin := (by decide : ∀ q ∈ builtinRecords, isBuiltinSelector q.selector = true) q hq
    have hnot : isBuiltinSelector q.selector = false := hroute.1
    rw [hbuiltin] at hnot
    cases hnot

theorem route_defined {posix : Posix} {sources : List Source} {rules : List Rule}
    (h : parseRules posix sources = .ok rules) {r : Rule} (hr : r ∈ rules) (hroute : IsRoute r) :
    ∃ before, DefinedAfter sources before r := by
  obtain ⟨q, hq, rfl⟩ := route_selected h hr hroute
  obtain ⟨e, he, hs, rfl⟩ := selected_source hq
  have hl := parsedEntries_order sources
  have hc : isContact e.rule.selector = false := hroute.2
  obtain ⟨pre, post, hsplit⟩ := List.append_of_mem he
  have hrules := parsedEntries_rules sources
  rw [hsplit, List.map_append, List.map_cons] at hrules
  obtain ⟨before, rest, hparsed, hbefore, hrest⟩ := List.map_eq_append_iff.mp hrules.symm
  obtain ⟨x, after, rfl, hx, hafter⟩ := List.map_eq_cons_iff.mp hrest
  refine ⟨before, x.1, x.2, after, hparsed, ?_, by rw [hx]; rfl⟩
  intro y hy hkey
  have hmem : y.1 ∈ post.map Entry.rule := by
    rw [← hafter]
    exact List.mem_map_of_mem hy
  obtain ⟨z, hz, hzy⟩ := List.mem_map.mp hmem
  rw [hsplit] at hl
  have hlt := (List.pairwise_cons.mp (List.pairwise_append.mp (List.pairwise_map.mp hl)).2.1).1 z hz
  have hkey : compareKey z.rule e.rule = .eq := by rw [hzy]; exact hkey
  have hle := hs z (by rw [hsplit]; simp [hz]) hkey
  rw [hc, if_neg (by decide)] at hle
  omega

/-- The number of a route counts the identical definitions before it. -/
theorem route_occurrence {posix : Posix} {sources : List Source} {rules : List Rule}
    (h : parseRules posix sources = .ok rules) {r : Rule} (hr : r ∈ rules) (hroute : IsRoute r)
    {before : List (Rule × ℕ)} (hdef : DefinedAfter sources before r) :
    r.occurrence = identicalBefore before r + 1 := by
  obtain ⟨q, hq, rfl⟩ := route_selected h hr hroute
  have hc : isContact q.selector = false := hroute.2
  have heff := mem_selected_iff.mp hq
  rw [hc, effective, if_neg (by decide)] at heff
  obtain ⟨x, -, hx⟩ := Option.map_eq_some_iff.mp heff
  have hsame : (fun y => sameRecord y x) = fun y => sameRecord y q := by
    rw [← hx]
    rfl
  have hnumber : q.occurrence = ((parsed sources).map Prod.fst).countP (sameRecord · q) := by
    rw [← countP_definitions]
    refine (congrArg Rule.occurrence hx).symm.trans ?_
    rw [← hsame]
  obtain ⟨p, i, after, hparsed, hafter, hp⟩ := hdef
  have hself : sameRecord p q = true := by
    rw [sameRecord_iff]
    refine ⟨?_, ?_, ?_, ?_⟩
    · exact (congrArg Rule.selector hp).symm
    · exact (congrArg Rule.predicate hp).symm
    · exact (congrArg Rule.logical hp).symm
    · exact (congrArg Rule.sourceIdentity hp).symm
  have hnone : after.countP (fun x => sameRecord x.1 q) = 0 := by
    refine List.countP_eq_zero.mpr fun y hy hsame => hafter y hy ?_
    obtain ⟨h1, h2, -⟩ := (sameRecord_iff _ _).mp hsame
    exact (compareKey_eq_iff _ _).mpr ⟨h1, h2⟩
  have hcount : ((parsed sources).map Prod.fst).countP (sameRecord · q) =
      identicalBefore before q + 1 := by
    rw [List.countP_map, hparsed, List.countP_append, List.countP_cons]
    simp only [Function.comp_def, hself, if_true, hnone]
    rfl
  exact hnumber.trans hcount

/-- Rule IDs under a hash that tells the hashed inputs apart. In one policy no
two are equal. A rule keeps its ID when sources move, lines that say nothing
are inserted and records of new keys are inserted; a route has another one when
its destination or the number of identical definitions before it changes. -/
theorem rule_identities {posix : Posix} {sources : List Source} {rules : List Rule}
    (h : parseRules posix sources = .ok rules) :
    (Set.InjOn sha256 (hashedInputs rules) → rules.Pairwise fun x y => x.id ≠ y.id) ∧
      (∀ (sources' : List Source) (rules' : List Rule), Extends sources sources' →
        parseRules posix sources' = .ok rules' →
        ∀ r ∈ rules, ∃ r' ∈ rules', r'.id = r.id ∧ erase r' = erase r) ∧
      ∀ (sources' : List Source) (rules' : List Rule), parseRules posix sources' = .ok rules' →
        Set.InjOn sha256 (hashedInputs rules ∪ hashedInputs rules') →
        ∀ r ∈ rules, ∀ r' ∈ rules', IsRoute r → r'.selector = r.selector →
          r'.predicate = r.predicate →
          (∃ before before', DefinedAfter sources before r ∧ DefinedAfter sources' before' r') ∧
            ∀ before before', DefinedAfter sources before r → DefinedAfter sources' before' r' →
              r'.logical ≠ r.logical ∨ identicalBefore before' r' ≠ identicalBefore before r →
              r'.id ≠ r.id := by
  refine ⟨rules_ids h, ?_, ?_⟩
  · intro sources' rules' hext h' r hr
    obtain ⟨r', hr', heq⟩ := rules_extends h h' hext r hr
    have hid : (erase r').id = (erase r).id := by rw [heq]
    exact ⟨r', hr', hid, heq⟩
  · intro sources' rules' h' hinj r hr r' hr' hroute hsel hpred
    have hroute' : IsRoute r' := by
      rw [IsRoute, hsel]
      exact hroute
    obtain ⟨before, hbefore⟩ := route_defined h hr hroute
    obtain ⟨before', hbefore'⟩ := route_defined h' hr' hroute'
    refine ⟨⟨before, before', hbefore, hbefore'⟩, ?_⟩
    intro before before' hbefore hbefore' hchange hid
    rw [(parseRules_resolved h').id r' hr', (parseRules_resolved h).id r hr] at hid
    obtain ⟨-, hfields⟩ := identify_inj (rules_named h' r' hr') (rules_named h r hr)
      (fun hb' hb heq => hinj (.inr ⟨r', hr', hb', rfl⟩) (.inl ⟨r, hr, hb, rfl⟩) heq) hid
    obtain ⟨hlogical, hnumber⟩ := hfields hroute'.1 hroute'.2
    rw [route_occurrence h hr hroute hbefore, route_occurrence h' hr' hroute' hbefore'] at hnumber
    rcases hchange with hchange | hchange
    · exact hchange hlogical
    · omega

theorem solo_name : 0 ∉ cstr "f" := by decide

theorem solo_path : 0 ∉ cstr "o" := by decide

theorem solo_other : 0 ∉ cstr "q" := by decide

/-- The route of the twins alone, before the other one and a blank line were
inserted and a source moved. -/
def soloSources : List Source :=
  [⟨.filters, cstr "f", cstr "o", cstr "from-domain a move x\n", solo_name, solo_path⟩,
    ⟨.filters, cstr "f", cstr "q", [], solo_name, solo_other⟩]

def soloRoute : Rule :=
  newRule (some ⟨.filters, cstr "f", cstr "o", [], solo_name, solo_path⟩) 1 (cstr "from-domain")
    (cstr "a") (cstr "x") .domainApex 3 3

def soloSorted : List Entry :=
  [⟨bounceRule, 1, none⟩, ⟨soloRoute, 0, some 0⟩, ⟨spamRule, 2, none⟩, ⟨unsortedRule, 3, none⟩]

theorem solo_rules :
    parseRules neverCompiles soloSources = .ok (soloSorted.map fun e => identified e.rule) :=
  @parseRules_of_sorted _ _ [⟨soloRoute, 0, some 0⟩] _ (by decide) (by decide)
    (by decide) (by decide) (by decide)

theorem solo_parsed : parsed soloSources = [(soloRoute, 0)] := by
  decide

theorem solo_extends : Extends soloSources twinSources := by
  have hroute : lines (cstr "from-domain a move x\n") = [cstr "from-domain a move x"] ∧
      lines (cstr "\nfrom-domain a move x\n") = [[], cstr "from-domain a move x"] ∧
      lines (cstr "from-domain b move y\n") = [cstr "from-domain b move y"] := by decide
  obtain ⟨hsolo, hblank, hother⟩ := hroute
  unfold Extends
  generalize hnew : Insertable soloSources = new
  simp only [soloSources, twinSources, List.forall₂_cons, List.forall₂_nil_left_iff, and_true, true_and]
  subst hnew
  refine ⟨?_, ?_⟩
  · rw [hsolo, hblank]
    exact .insert (.inl (.inl (by simp [chopCr]))) (.keep _ .nil)
  · rw [hother]
    refine .insert (.inr ⟨1, newRule (some ⟨.filters, cstr "f", cstr "q", [], by decide, by decide⟩) 1
      (cstr "from-domain") (cstr "b") (cstr "y") .domainApex 3 3, by decide, ?_⟩) .nil
    rw [solo_parsed]
    decide

/-- The solo route with another destination. -/
def routedSources : List Source :=
  [⟨.filters, cstr "f", cstr "o", cstr "from-domain a move y\n", solo_name, solo_path⟩]

def routedRoute : Rule :=
  newRule (some ⟨.filters, cstr "f", cstr "o", [], solo_name, solo_path⟩) 1 (cstr "from-domain")
    (cstr "a") (cstr "y") .domainApex 3 3

def routedSorted : List Entry :=
  [⟨bounceRule, 1, none⟩, ⟨routedRoute, 0, some 0⟩, ⟨spamRule, 2, none⟩, ⟨unsortedRule, 3, none⟩]

theorem routed_rules :
    parseRules neverCompiles routedSources = .ok (routedSorted.map fun e => identified e.rule) :=
  @parseRules_of_sorted _ _ [⟨routedRoute, 0, some 0⟩] _ (by decide) (by decide)
    (by decide) (by decide) (by decide)

/-- What the routes among resolved entries hash. -/
theorem mem_hashedInputs {es : List Entry} {routes : List Rule} {x : Bytes}
    (hroutes : ∀ e ∈ es, isBuiltinSelector e.rule.selector = false → e.rule ∈ routes)
    (hx : x ∈ hashedInputs (es.map fun e => identified e.rule)) : x ∈ routes.map hashedInput := by
  obtain ⟨r, hr, hb, rfl⟩ := hx
  obtain ⟨e, he, rfl⟩ := List.mem_map.mp hr
  exact List.mem_map.mpr ⟨e.rule, hroutes e he hb, rfl⟩

theorem twin_injOn : Set.InjOn sha256 (hashedInputs (twinSorted.map fun e => identified e.rule)) := by
  obtain ⟨a, b, hab⟩ : ∃ a b, twinEntries.map (fun e => e.rule) = [a, b] := ⟨_, _, rfl⟩
  have hne : ∀ a b, twinEntries.map (fun e => e.rule) = [a, b] →
      sha256 (hashedInput a) ≠ sha256 (hashedInput b) := by
    intro a b h
    simp only [twinEntries, List.map_cons, List.map_nil, List.cons.injEq, and_true] at h
    obtain ⟨rfl, rfl⟩ := h
    decide +kernel
  refine (Set.injOn_pair.mpr fun h => absurd h (hne a b hab)).mono fun x hx => ?_
  have hroutes : ∀ e ∈ twinSorted, isBuiltinSelector e.rule.selector = false →
      e.rule ∈ twinEntries.map fun e => e.rule := by decide
  have hmem := mem_hashedInputs hroutes hx
  rw [hab] at hmem
  simpa using hmem

theorem routed_injOn : Set.InjOn sha256
    (hashedInputs (soloSorted.map fun e => identified e.rule) ∪
      hashedInputs (routedSorted.map fun e => identified e.rule)) := by
  have hne : sha256 (hashedInput soloRoute) ≠ sha256 (hashedInput routedRoute) := by decide +kernel
  have hsolo : ∀ e ∈ soloSorted, isBuiltinSelector e.rule.selector = false →
      e.rule ∈ [soloRoute] := by decide
  have hrouted : ∀ e ∈ routedSorted, isBuiltinSelector e.rule.selector = false →
      e.rule ∈ [routedRoute] := by decide
  refine (Set.injOn_pair.mpr fun h => absurd h hne).mono fun x hx => ?_
  rcases hx with hx | hx
  · have hmem := mem_hashedInputs hsolo hx
    simp only [List.map_cons, List.map_nil, List.mem_singleton] at hmem
    exact Or.inl hmem
  · have hmem := mem_hashedInputs hrouted hx
    simp only [List.map_cons, List.map_nil, List.mem_singleton] at hmem
    exact Or.inr hmem

theorem rule_identities_sample :
    (twinSorted.map fun e => identified e.rule).Pairwise (fun x y => x.id ≠ y.id) ∧
      (∀ r ∈ soloSorted.map (fun e => identified e.rule),
        ∃ r' ∈ twinSorted.map (fun e => identified e.rule), r'.id = r.id ∧ erase r' = erase r) ∧
      (identified routedRoute).id ≠ (identified soloRoute).id := by
  refine ⟨(rule_identities twin_rules).1 twin_injOn,
    (rule_identities solo_rules).2.1 _ _ solo_extends twin_rules, ?_⟩
  have hsolo : identified soloRoute ∈ soloSorted.map fun e => identified e.rule :=
    List.mem_map.mpr ⟨⟨soloRoute, 0, some 0⟩, List.mem_cons_of_mem _ List.mem_cons_self, rfl⟩
  have hrouted : identified routedRoute ∈ routedSorted.map fun e => identified e.rule :=
    List.mem_map.mpr ⟨⟨routedRoute, 0, some 0⟩, List.mem_cons_of_mem _ List.mem_cons_self, rfl⟩
  have hroute : IsRoute (identified soloRoute) :=
    (by decide : isBuiltinSelector soloRoute.selector = false ∧ isContact soloRoute.selector = false)
  have hsame : routedRoute.selector = soloRoute.selector ∧ routedRoute.predicate = soloRoute.predicate ∧
      routedRoute.logical ≠ soloRoute.logical := by decide
  obtain ⟨⟨before, before', hbefore, hbefore'⟩, hchange⟩ := (rule_identities solo_rules).2.2 _ _
    routed_rules routed_injOn _ hsolo _ hrouted hroute hsame.1 hsame.2.1
  exact hchange before before' hbefore hbefore' (.inl hsame.2.2)

end JaroFilter
