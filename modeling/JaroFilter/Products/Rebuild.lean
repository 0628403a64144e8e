import JaroFilter.Lib.Buffer
import JaroFilter.Products.Hostile

/-!
# The second walk (`cache.c:322-354`, `policy.c:616-682`)

`jf_cache_policy` walks the validated bytes again without a single check, and
`jf_policy_restore` copies fields into arrays of fixed size. Every access is
checked here; on accepted bytes none fails.
-/

namespace JaroFilter

open Lib Access

/-! ### The walk -/

/-- The sizes of one record's fields, believed as they stand (`cache.c:336`,
`342-346`). -/
def walkFields (data : Bytes) : ℕ → ℕ → Access (List CacheView × ℕ)
  | 0, pos => .value ([], pos)
  | k + 1, pos => do
    let size ← numberAt data pos
    let rest ← walkFields data k (pos + 4 + size)
    pure (⟨pos + 4, size⟩ :: rest.1, rest.2)

/-- The first loop (`cache.c:333-337`): the number of `R` records. -/
def countRules (data : Bytes) : ℕ → ℕ → Access ℕ
  | 0, _ => .value 0
  | n + 1, pos => do
    let tag ← byteAt data pos
    let fields ← numberAt data (pos + 1)
    let x ← walkFields data fields (pos + 5)
    let rest ← countRules data n x.2
    pure (if tag = 82 then rest + 1 else rest)

/-- The second loop (`cache.c:341-349`): the views of the `R` records, stored
in an array of `room` rules of twelve fields. -/
def takeRules (data : Bytes) (room : ℕ) : ℕ → ℕ → ℕ → Access (List (List CacheView))
  | 0, _, _ => .value []
  | n + 1, i, pos => do
    let tag ← byteAt data pos
    let fields ← numberAt data (pos + 1)
    let x ← walkFields data fields (pos + 5)
    if tag = 82 then
      if room ≤ i ∨ 12 < x.1.length then .outside
      else do
        let rest ← takeRules data room n (i + 1) x.2
        pure (x.1 :: rest)
    else takeRules data room n i x.2

/-! ### The copies -/

/-- One entry of `jf_policy_restore` (`policy.c:644-663`): the kind name goes
through an array of 32 bytes and the ID into one of 75. -/
def restoreRuleAt (data : Bytes) (f : ℕ → CacheView) : Access Rule := do
  let text := fun k => bytesAt data (f k).pos (f k).size
  let kind ← copyInto 32 data (f 2).pos (f 2).size
  let stage ← text 1
  let fields ← text 3
  let line ← text 10
  let id ← copyInto 75 data (f 4).pos (f 4).size
  let predicate ← text 5
  let logical ← text 6
  let localDir ← text 7
  let sieve ← text 8
  let source ← text 9
  pure { kind := kindOfName kind, stage := cachedNumber stage % 2 ^ 32,
         fields := cachedNumber fields % 2 ^ 32, selector := [], predicate, action := cstr "move",
         logical, localDir, sieve, source, sourceIdentity := [], line := cachedNumber line,
         occurrence := 1, id }

/-- The entry loop (`policy.c:644-676`). -/
def restoreRulesAt (posix : Posix) (data : Bytes) :
    List (List CacheView) → Access (Except Failure (List Rule))
  | [] => .value (.ok [])
  | v :: vs => do
    let r ← restoreRuleAt data fun k => v.getD k {}
    match (if r.kind = .ere then posix.regcomp r.predicate else none) with
    | some e =>
      let code := if e.space then Code.eMemory else .eCache
      pure (.error ⟨if e.space then 3 else 5, ⟨code, none, 0, cstr "cached regex compilation failed"⟩⟩)
    | none => do
      let rest ← restoreRulesAt posix data vs
      pure (rest.map (r :: ·))

/-- `jf_policy_restore` (`policy.c:623`). -/
def policyRestoreAt (posix : Posix) (data : Bytes) (records : List (List CacheView)) :
    Access (Except Failure Policy) :=
  if records.length < builtinRules ∨ ruleRecordMax < records.length then
    pure (.error ((fault .eMemory "invalid cache reconstruction allocator/count").fail none 0))
  else do
    let rules ← restoreRulesAt posix data records
    pure (rules.map buildIndex)

/-- The views `jf_cache_policy` hands on. -/
def cacheViewsAt (data : Bytes) : Access (List (List CacheView)) := do
  let count ← numberAt data 88
  let room ← countRules data count 92
  takeRules data room count 0 92

/-- `jf_cache_policy` (`cache.c:322`). -/
def cachePolicyAt (posix : Posix) (data : Bytes) : Access (Except Failure Policy) :=
  match cacheValidateAt data none none none with
  | .outside => .outside
  | .refused => pure (.error badCache)
  | .value _ => do
    let records ← cacheViewsAt data
    policyRestoreAt posix data records

/-! ### The walk stays inside -/

section Walk

variable {data : Bytes}

theorem walkFields_eq {k pos : ℕ} {fs : List Bytes} {rest : Bytes} (hpos : pos ≤ data.length)
    (h : readFields k (data.drop pos) = some (fs, rest)) :
    ∃ vs stop, walkFields data k pos = .value (vs, stop) ∧ Viewed data pos (vs, stop) (fs, rest) := by
  induction k generalizing pos fs with
  | zero =>
    cases h
    exact ⟨[], pos, rfl, rfl, by simp, ⟨le_rfl, hpos⟩, rfl⟩
  | succ k ih =>
    simp only [readFields] at h
    by_cases h4 : pos + 4 ≤ data.length
    · obtain ⟨n, hn, hread⟩ := numberAt_agrees h4
      rw [hread] at h
      simp only [List.length_drop, List.drop_drop] at h
      split at h
      · cases h
      · split at h
        · cases h
        · rename_i hfit _ fs' rest' hr
          cases h
          obtain ⟨vs, stop, hw, hmap, hin, hle, hdrop⟩ := ih (show pos + 4 + n ≤ data.length by omega) hr
          refine ⟨⟨pos + 4, n⟩ :: vs, stop, ?_, ?_, ?_, ⟨?_, hle.2⟩, hdrop⟩
          · simp only [walkFields, hn, hw, value_bind, pure_eq]
          · simp only at hmap
            rw [List.map_cons, hmap]
            rfl
          · intro v hv
            rcases List.mem_cons.mp hv with rfl | hv
            · simp only [CacheView.Inside]
              omega
            · exact hin v hv
          · have hlow := hle.1
            simp only at hlow ⊢
            omega
    · have hnone : readNumber 4 (data.drop pos) = none := by
        rw [readNumber, if_pos (by simp only [List.length_take, List.length_drop]; omega)]
      rw [hnone] at h
      cases h

/-- One record read off the rest, and the accesses that read it. -/
theorem record_accesses {accept : Byte → ℕ → Bool} {pos : ℕ} {r : Record} {rest : Bytes}
    (h : readRecord accept (data.drop pos) = some (r, rest)) :
    byteAt data pos = .value r.tag ∧ ∃ n vs stop, numberAt data (pos + 1) = .value n ∧
      walkFields data n (pos + 5) = .value (vs, stop) ∧ Viewed data (pos + 5) (vs, stop) (r.fields, rest) := by
  cases hs : data.drop pos with
  | nil =>
    rw [hs] at h
    cases h
  | cons tag s =>
    obtain ⟨hbyte, hs1, hlt⟩ := peek_of_drop hs
    rw [hs, ← hs1] at h
    simp only [readRecord] at h
    by_cases h4 : pos + 1 + 4 ≤ data.length
    · obtain ⟨n, hn, hread⟩ := numberAt_agrees h4
      rw [hread] at h
      simp only at h
      split at h
      · split at h
        · cases h
        · rename_i fields rest' hr
          cases h
          obtain ⟨vs, stop, hw, hview⟩ := walkFields_eq (show pos + 5 ≤ data.length by omega) hr
          refine ⟨?_, n, vs, stop, hn, hw, hview⟩
          rw [byteAt, show data[pos]? = some tag from hbyte]
      · cases h
    · have hnone : readNumber 4 (data.drop (pos + 1)) = none := by
        rw [readNumber, if_pos (by simp only [List.length_take, List.length_drop]; omega)]
      rw [hnone] at h
      cases h

/-- The fields of the `R` records. -/
def ruleFields (records : List Record) : List (List Bytes) :=
  (records.filter fun r => r.tag == 82).map Record.fields

theorem countRules_eq {accept : Byte → ℕ → Bool} {n pos : ℕ} {records : List Record} {rest : Bytes}
    (hpos : pos ≤ data.length) (h : readRecords accept n (data.drop pos) = some (records, rest)) :
    countRules data n pos = .value (ruleFields records).length := by
  induction n generalizing pos records with
  | zero =>
    cases h
    rfl
  | succ n ih =>
    simp only [readRecords] at h
    split at h
    · cases h
    · rename_i r s hr
      split at h
      · cases h
      · rename_i rs rest' hrs
        cases h
        obtain ⟨htag, k, vs, stop, hn, hw, -, -, hle, hdrop⟩ := record_accesses hr
        simp only at hle hdrop
        rw [hdrop] at hrs
        simp only [countRules, htag, hn, hw, value_bind, ih hle.2 hrs, pure_eq, ruleFields,
          List.filter_cons]
        by_cases h82 : r.tag = 82 <;> simp [h82]

theorem takeRules_eq {room n i pos : ℕ} {records : List Record} {rest : Bytes}
    (hpos : pos ≤ data.length) (h : readRecords validArity n (data.drop pos) = some (records, rest))
    (hroom : i + (ruleFields records).length ≤ room) :
    ∃ views, takeRules data room n i pos = .value views ∧
      views.map (List.map (CacheView.text data)) = ruleFields records ∧
      ∀ vs ∈ views, ∀ v ∈ vs, v.Inside data := by
  induction n generalizing i pos records with
  | zero =>
    cases h
    exact ⟨[], rfl, rfl, by simp⟩
  | succ n ih =>
    simp only [readRecords] at h
    split at h
    · cases h
    · rename_i r s hr
      split at h
      · cases h
      · rename_i rs rest' hrs
        cases h
        obtain ⟨htag, k, vs, stop, hn, hw, hmap, hin, hle, hdrop⟩ := record_accesses hr
        have harity := readRecord_accept hr
        simp only at hmap hle hdrop
        rw [hdrop] at hrs
        simp only [takeRules, htag, hn, hw, value_bind]
        by_cases h82 : r.tag = 82
        · have hfields : ruleFields (r :: rs) = r.fields :: ruleFields rs := by
            simp [ruleFields, h82]
          have hlen : vs.length = r.fields.length := by rw [← hmap, List.length_map]
          have h12 := validArity_le harity
          rw [hfields, List.length_cons] at hroom
          have hfits : ¬ (room ≤ i ∨ 12 < vs.length) := by omega
          obtain ⟨views, htake, hviews, hinside⟩ :=
            ih hle.2 hrs (show i + 1 + (ruleFields rs).length ≤ room by omega)
          rw [if_pos h82, if_neg hfits, htake]
          refine ⟨vs :: views, rfl, ?_, ?_⟩
          · rw [List.map_cons, hmap, hviews, hfields]
          · intro x hx
            rcases List.mem_cons.mp hx with rfl | hx
            · exact hin
            · exact hinside x hx
        · have hfields : ruleFields (r :: rs) = ruleFields rs := by
            simp [ruleFields, h82]
          rw [hfields] at hroom ⊢
          rw [if_neg h82]
          exact ih hle.2 hrs hroom

end Walk

/-! ### What an accepted record holds -/

/-- A field the reconstruction can copy: names and IDs fit their arrays, and
the numbers are read as they stand. -/
structure Fitting (f : List Bytes) : Prop where
  kind : (f.getD 2 []).length < 32
  id : (f.getD 4 []).length < 75
  decimals : ∀ k ∈ [0, 1, 3, 10], cachedNumber (f.getD k []) = decimalValue (f.getD k [])
  casts : ∀ k ∈ [1, 3], cachedNumber (f.getD k []) < 2 ^ 32

theorem decimalLoop_value {s : Bytes} {m n : ℕ} (hm : m ≤ sizeMax) (h : decimalLoop m s = some n) :
    s.foldl (fun n c => (n * 10 + (c.toNat - 48)) % 2 ^ 64) m = n ∧
      s.foldl (fun n c => n * 10 + (c.toNat - 48)) m = n := by
  induction s generalizing m with
  | nil =>
    cases h
    exact ⟨rfl, rfl⟩
  | cons c s ih =>
    simp only [decimalLoop] at h
    split at h
    · cases h
    · rename_i hno
      rw [not_or, not_or] at hno
      obtain ⟨_, h9, hroom⟩ := hno
      have h9 : c.toNat ≤ 57 := UInt8.le_iff_toNat_le.mp (UInt8.not_lt.mp h9)
      have hmax : 9 ≤ sizeMax := by decide
      have hle : m * 10 + (c.toNat - 48) ≤ sizeMax := by omega
      have hmod : (m * 10 + (c.toNat - 48)) % 2 ^ 64 = m * 10 + (c.toNat - 48) :=
        Nat.mod_eq_of_lt (Nat.lt_of_le_of_lt hle (by decide))
      rw [List.foldl_cons, List.foldl_cons, hmod]
      exact ih hle h

theorem decimal_value {s : Bytes} {n : ℕ} (h : decimal s = some n) :
    cachedNumber s = n ∧ decimalValue s = n := by
  unfold decimal at h
  split at h
  · cases h
  · exact decimalLoop_value (Nat.zero_le _) h

theorem cacheId_length {s : Bytes} (h : cacheId s = true) : s.length < 75 := by
  simp only [cacheId] at h
  split at h
  · rename_i hbuiltin
    rcases hbuiltin with rfl | rfl | rfl <;> decide
  · split at h
    · cases h
    · rename_i hsize
      simp only [Bool.and_eq_true, Bool.or_eq_true, beq_iff_eq] at h
      have hbefore : (s.takeWhile (· != 58)).length ≤ 9 := by
        rcases h.1 with ((hb | hb) | hb) | hb <;> rw [hb] <;> decide
      omega

/-- What one accepted `R` record does to the walk, and what it holds. -/
structure RuleStep (w w1 : Walk) (f : List Bytes) : Prop where
  fitting : Fitting f
  ordinal : w1.ordinal = w.ordinal + 1
  bound : w1.ordinal ≤ ruleRecordMax
  stage : w1.priorStage = (restoreRule f).stage
  prior : w.priorStage ≤ (restoreRule f).stage
  bounce : (restoreRule f).kind = .senderContains → (restoreRule f).stage = 2
  spam : (restoreRule f).kind = .spamIs → (restoreRule f).stage = 6

theorem validatePredicate_place {w w1 : Walk} {last : Bool} {name id p : Bytes} {stage mask : ℕ}
    (h : validatePredicate w last name id p stage mask = some w1) :
    mask ≤ 16 ∧ (kindOfName name = .senderContains → stage = 2) ∧
      (kindOfName name = .spamIs → stage = 6) := by
  have hplace : addressPlace stage mask = true → mask ≤ 16 := by
    simp only [addressPlace, Bool.or_eq_true, Bool.and_eq_true, beq_iff_eq]
    omega
  obtain ⟨k, rfl⟩ := validatePredicate_name h
  rw [kindOfName_kindName]
  simp only [validatePredicate, kindName_eq_address, kindName_eq_domainApex,
    kindName_eq_domainSubdomains, kindName_eq_ere, kindName_eq_senderContains, kindName_eq_spamIs,
    kindName_eq_always] at h
  cases k <;> simp at h
  case address => exact ⟨hplace h.1.2.2.2, by simp, by simp⟩
  case domainApex => exact ⟨hplace h.1.2.2.2, by simp, by simp⟩
  case domainSubdomains => exact ⟨hplace h.1.2.2.2, by simp, by simp⟩
  case ere => exact ⟨by omega, by simp, by simp⟩
  case senderContains => exact ⟨by omega, fun _ => h.1.1, by simp⟩
  case spamIs => exact ⟨by omega, by simp, fun _ => h.1.1⟩
  case always => exact ⟨by omega, by simp, by simp⟩

theorem validateRule_step {last : Bool} {w w1 : Walk} {f : List Bytes}
    (h : validateRule last w f = some w1) : RuleStep w w1 f := by
  simp only [validateRule] at h
  split at h
  · rename_i order stage mask line h0 h1 h3 h10
    split at h
    · cases h
    · rename_i hok
      simp only [not_or, not_lt, Bool.not_eq_false] at hok
      obtain ⟨_, _, hbound, hlow, hhigh, hprior, hid, _⟩ := hok
      obtain ⟨hmask, hbounce, hspam⟩ := validatePredicate_place h
      obtain ⟨hwalk, _⟩ := validatePredicate_counts h
      obtain ⟨k, hk⟩ := validatePredicate_name h
      have hstage : (restoreRule f).stage = stage := by
        rw [restoreRule, (decimal_value h1).1, Nat.mod_eq_of_lt (by omega)]
      have hkind : (restoreRule f).kind = kindOfName (f.getD 2 []) := rfl
      refine ⟨⟨?_, cacheId_length hid, ?_, ?_⟩, by rw [hwalk]; rfl, ?_, ?_, ?_, ?_, ?_⟩
      · rw [hk]
        cases k <;> decide
      · intro j hj
        simp only [List.mem_cons, List.not_mem_nil, or_false] at hj
        rcases hj with rfl | rfl | rfl | rfl
        · rw [(decimal_value h0).1, (decimal_value h0).2]
        · rw [(decimal_value h1).1, (decimal_value h1).2]
        · rw [(decimal_value h3).1, (decimal_value h3).2]
        · rw [(decimal_value h10).1, (decimal_value h10).2]
      · intro j hj
        simp only [List.mem_cons, List.not_mem_nil, or_false] at hj
        rcases hj with rfl | rfl
        · rw [(decimal_value h1).1]
          omega
        · rw [(decimal_value h3).1]
          omega
      · rw [hwalk]
        exact hbound
      · rw [hwalk, hstage]
        rfl
      · rw [hstage]
        exact hprior
      · rw [hkind, hstage]
        exact hbounce
      · rw [hkind, hstage]
        exact hspam
  · cases h

/-- Records of the other kinds leave the rule counters alone. -/
theorem validateRecord_other {zsh sieve : Option Bytes} {count i : ℕ} {raw : Bytes} {w w1 : Walk}
    {r : Record} (htag : r.tag ≠ 82) (harity : validArity r.tag r.fields.length = true)
    (h : validateRecord zsh sieve count i raw w r = some w1) :
    w1.ordinal = w.ordinal ∧ w1.priorStage = w.priorStage := by
  simp only [validateRecord] at h
  split at h
  · cases h
  · split at h
    · simp only [validateMeta] at h
      split at h
      · cases h
      · split at h <;> cases h
        exact ⟨rfl, rfl⟩
    · split at h
      · simp only [validateDependency] at h
        split at h
        · cases h
        · obtain ⟨w2, hconfig, rfl⟩ := Option.map_eq_some_iff.mp h
          simp only [validateConfig] at hconfig
          split_ifs at hconfig <;> cases hconfig <;> exact ⟨rfl, rfl⟩
      · rename_i h77 h68
        simp [validArity, h77, h68, htag] at harity

/-- What a walk over accepted records guarantees of its rules. -/
structure RuleWalk (w w' : Walk) (records : List Record) : Prop where
  fitting : ∀ f ∈ ruleFields records, Fitting f
  ordinal : w'.ordinal = w.ordinal + (ruleFields records).length
  bound : w.ordinal ≤ ruleRecordMax → w'.ordinal ≤ ruleRecordMax
  sorted : (recordRules records).Pairwise fun x y => x.stage ≤ y.stage
  prior : ∀ x ∈ recordRules records, w.priorStage ≤ x.stage
  bounce : ∀ x ∈ recordRules records, x.kind = .senderContains → x.stage = 2
  spam : ∀ x ∈ recordRules records, x.kind = .spamIs → x.stage = 6

theorem Walks.rules {zsh sieve : Option Bytes} {count i : ℕ} {w w' : Walk} {records : List Record}
    (h : Walks zsh sieve count i w records w') : RuleWalk w w' records := by
  induction h with
  | nil i w => exact ⟨by simp [ruleFields], rfl, id, by simp [recordRules], by simp [recordRules],
      by simp [recordRules], by simp [recordRules]⟩
  | @cons i w w1 w' r rs raw harity hstep _ ih =>
    by_cases htag : r.tag = 82
    · have hfields : ruleFields (r :: rs) = r.fields :: ruleFields rs := by simp [ruleFields, htag]
      have hrules : recordRules (r :: rs) = restoreRule r.fields :: recordRules rs := by
        simp [recordRules, htag]
      have hrule : ∃ last, validateRule last w r.fields = some w1 := by
        simp only [validateRecord] at hstep
        split at hstep
        · cases hstep
        · rw [if_neg (by rw [htag]; decide), if_neg (by rw [htag]; decide)] at hstep
          exact ⟨_, hstep⟩
      obtain ⟨last, hrule⟩ := hrule
      have hs := validateRule_step hrule
      refine ⟨?_, ?_, fun _ => ih.bound hs.bound, ?_, ?_, ?_, ?_⟩
      · rw [hfields]
        exact List.forall_mem_cons.mpr ⟨hs.fitting, ih.fitting⟩
      · rw [hfields, List.length_cons, ih.ordinal, hs.ordinal]
        omega
      · rw [hrules]
        exact List.pairwise_cons.mpr ⟨fun x hx => hs.stage ▸ ih.prior x hx, ih.sorted⟩
      · rw [hrules]
        refine List.forall_mem_cons.mpr ⟨hs.prior, fun x hx => ?_⟩
        have hx := ih.prior x hx
        rw [hs.stage] at hx
        exact le_trans hs.prior hx
      · rw [hrules]
        exact List.forall_mem_cons.mpr ⟨hs.bounce, ih.bounce⟩
      · rw [hrules]
        exact List.forall_mem_cons.mpr ⟨hs.spam, ih.spam⟩
    · have hfields : ruleFields (r :: rs) = ruleFields rs := by simp [ruleFields, htag]
      have hrules : recordRules (r :: rs) = recordRules rs := by simp [recordRules, htag]
      obtain ⟨hordinal, hprior⟩ := validateRecord_other htag harity hstep
      refine ⟨?_, ?_, ?_, ?_, ?_, ?_, ?_⟩
      · rw [hfields]
        exact ih.fitting
      · rw [hfields, ih.ordinal, hordinal]
      · intro hb
        exact ih.bound (hordinal ▸ hb)
      · rw [hrules]
        exact ih.sorted
      · rw [hrules, ← hprior]
        exact ih.prior
      · rw [hrules]
        exact ih.bounce
      · rw [hrules]
        exact ih.spam

/-! ### The rebuilt policy -/

section Copies

variable {posix : Posix} {data : Bytes}

theorem restoreRuleAt_eq {vs : List CacheView} (hin : ∀ v ∈ vs, v.Inside data)
    (hfit : Fitting (vs.map (CacheView.text data))) :
    restoreRuleAt data (fun k => vs.getD k {}) =
      .value (restoreRule (vs.map (CacheView.text data))) := by
  have hinside : ∀ k, (vs.getD k {}).Inside data := getD_of_forall hin (Nat.zero_le _)
  have htext : ∀ k, (vs.map (CacheView.text data)).getD k [] = (vs.getD k {}).text data := by
    intro k
    rw [List.getD_eq_getElem?_getD, List.getD_eq_getElem?_getD, List.getElem?_map]
    cases vs[k]? <;> rfl
  have hkind := hfit.kind
  have hid := hfit.id
  rw [htext, text_length hinside] at hkind hid
  simp only [restoreRuleAt, bytesAt_text hinside, copyInto_text hinside hkind, copyInto_text hinside hid,
    value_bind, pure_eq, restoreRule, htext]

theorem restoreRulesAt_eq {views : List (List CacheView)} (hin : ∀ vs ∈ views, ∀ v ∈ vs, v.Inside data)
    (hfit : ∀ vs ∈ views, Fitting (vs.map (CacheView.text data))) :
    restoreRulesAt posix data views =
      .value (restoreRules posix (views.map (List.map (CacheView.text data)))) := by
  induction views with
  | nil => rfl
  | cons vs views ih =>
    have ih := ih (fun x hx => hin x (by simp [hx])) fun x hx => hfit x (by simp [hx])
    rw [List.map_cons]
    simp only [restoreRulesAt, restoreRules, restoreRuleAt_eq (hin vs (by simp)) (hfit vs (by simp)),
      value_bind, ih]
    by_cases hk : (restoreRule (vs.map (CacheView.text data))).kind = .ere
    · rw [if_pos hk, if_pos hk]
      cases posix.regcomp (restoreRule (vs.map (CacheView.text data))).predicate <;> rfl
    · rw [if_neg hk, if_neg hk]
      rfl

end Copies

/-- What a rebuilt policy's rules are sure to be. -/
structure Rebuilt (rules : List Rule) : Prop extends HasBuiltins rules where
  sorted : rules.Pairwise fun x y => x.stage ≤ y.stage
  bounce_stage : ∀ r ∈ rules, r.kind = .senderContains → r.stage = 2
  spam_stage : ∀ r ∈ rules, r.kind = .spamIs → r.stage = 6

/-- The views of accepted bytes, and what stands in them. -/
structure Views (data : Bytes) (views : List (List CacheView)) : Prop where
  inside : ∀ vs ∈ views, ∀ v ∈ vs, v.Inside data
  fitting : ∀ vs ∈ views, Fitting (vs.map (CacheView.text data))
  least : 3 ≤ views.length
  most : views.length ≤ 100003
  rebuilt : Rebuilt (views.map fun vs => restoreRule (vs.map (CacheView.text data)))

theorem cacheViewsAt_accepted {data : Bytes} {zsh sieve fingerprint : Option Bytes}
    (h : cacheValidate data zsh sieve fingerprint = .ok ()) :
    ∃ views rest, cacheViewsAt data = .value views ∧ Views data views ∧
      (∃ records, readRecords (fun _ _ => true) (recordCount data) (data.drop 92) = some (records, rest) ∧
        views.map (List.map (CacheView.text data)) = ruleFields records) := by
  obtain ⟨records, w, hread, hlen, hwalks, hb, hs, hf⟩ := cacheValidate_walks h
  have h92 : 92 ≤ data.length := by
    simp only [cacheValidate] at h
    split at h
    · cases h
    · rename_i hheader
      simp only [cacheHeader, Bool.not_eq_false, Bool.and_eq_true, decide_eq_true_eq] at hheader
      exact hheader.1.1.1.1.1.1.1
  obtain ⟨views, htake, hmap, hinside⟩ := takeRules_eq h92 hread
    (show 0 + (ruleFields records).length ≤ (ruleFields records).length by omega)
  have hcount := countRules_eq h92 hread
  have hnum : numberAt data 88 = .value (recordCount data) := by
    rw [numberAt, bytesAt_eq (by omega)]
    rfl
  have hrules := hwalks.rules
  have hbuiltins := hwalks.builtins hlen hb hs hf
  have hrestored : (views.map fun vs => restoreRule (vs.map (CacheView.text data))) =
      recordRules records := by
    have hcomp : (views.map fun vs => restoreRule (vs.map (CacheView.text data))) =
        (views.map (List.map (CacheView.text data))).map restoreRule := by
      rw [List.map_map]
      rfl
    rw [hcomp, hmap, ruleFields, List.map_map]
    rfl
  have hlength : views.length = (ruleFields records).length := by rw [← hmap, List.length_map]
  refine ⟨views, [], ?_, ⟨hinside, ?_, ?_, ?_, ?_⟩, records, readRecords_mono (fun _ _ _ => rfl) hread,
    hmap⟩
  · simp only [cacheViewsAt, hnum, hcount, value_bind, htake]
  · intro vs hvs
    exact hrules.fitting _ (hmap ▸ List.mem_map_of_mem hvs)
  · have hge := hbuiltins.length_ge
    rw [← hrestored, List.length_map] at hge
    exact hge
  · have hbound := hrules.bound (Nat.zero_le _)
    rw [hrules.ordinal, ← hlength, show startWalk.ordinal = 0 from rfl, Nat.zero_add] at hbound
    exact hbound
  · rw [hrestored]
    exact ⟨hbuiltins, hrules.sorted, hrules.bounce, hrules.spam⟩

/-- The second walk and the reconstruction never leave the bytes or overrun an
array; they rebuild the policy the walk over lists rebuilds. -/
theorem cachePolicyAt_eq (posix : Posix) (data : Bytes) :
    cachePolicyAt posix data = .value (cachePolicy posix data) := by
  have hvalid := cacheValidateAt_eq data none none none
  rw [cachePolicyAt, hvalid, cachePolicy]
  cases h : cacheValidate data none none none with
  | error e =>
    rw [cacheValidate_error h]
    rfl
  | ok u =>
    obtain ⟨views, rest, hviews, hfacts, records, hread, hmap⟩ := cacheViewsAt_accepted h
    have hneed : need (Except.ok u : Except Failure Unit).isOk = .value () := rfl
    have hbind : ∀ k : Unit → Except Failure Policy, (Except.ok u >>= k) = k u := fun _ => rfl
    have hrestored : restoreRulesAt posix data views = _ :=
      restoreRulesAt_eq hfacts.inside hfacts.fitting
    have hlen : (ruleFields records).length = views.length := by rw [← hmap, List.length_map]
    simp only [hneed, hbind, hviews, value_bind, hread, policyRestoreAt, policyRestore]
    change _ = Access.value (if (ruleFields records).length < builtinRules ∨
      ruleRecordMax < (ruleFields records).length then _ else (restoreRules posix (ruleFields records)).map buildIndex)
    rw [hlen, hrestored, hmap]
    split <;> rfl

/-- Whatever the bytes, the validator stays inside them; and what it accepts,
the unguarded second walk and the copies take without leaving the bytes or an
array, with every number as it stands, into between 3 and 100003 rules in stage
order with one bounce, one spam and one final always rule. -/
theorem hostile_cache_harmless (posix : Posix) (data : Bytes) (zsh sieve fingerprint : Option Bytes) :
    cacheValidateAt data zsh sieve fingerprint =
        need (cacheValidate data zsh sieve fingerprint).isOk ∧
      cachePolicyAt posix data = .value (cachePolicy posix data) ∧
      (cacheValidate data zsh sieve fingerprint = .ok () →
        ∃ views, cacheViewsAt data = .value views ∧ Views data views ∧
          ∀ p, cachePolicy posix data = .ok p →
            p.rules = (views.map fun vs => restoreRule (vs.map (CacheView.text data))) ∧
              p.bounce.isSome ∧ p.spam.isSome ∧ p.fallback.isSome) := by
  refine ⟨cacheValidateAt_eq data zsh sieve fingerprint, cachePolicyAt_eq posix data, ?_⟩
  intro h
  obtain ⟨views, rest, hviews, hfacts, records, hread, hmap⟩ := cacheViewsAt_accepted h
  refine ⟨views, hviews, hfacts, ?_⟩
  intro p hp
  obtain ⟨_, _, hp⟩ := bind_eq_ok_iff.mp hp
  rw [hread] at hp
  simp only [policyRestore] at hp
  split at hp
  · cases hp
  · obtain ⟨rules, hrules, rfl⟩ := map_eq_ok_iff.mp hp
    have heq := restoreRules_ok hrules
    have hcomp : (views.map fun vs => restoreRule (vs.map (CacheView.text data))) = rules := by
      rw [heq]
      have hfields : ruleFields records = (records.filter fun r => r.tag == 82).map Record.fields := rfl
      rw [← hfields, ← hmap, List.map_map]
      rfl
    have hbuiltins := hfacts.rebuilt.toHasBuiltins
    rw [hcomp] at hbuiltins
    obtain ⟨b, hb, _⟩ := lastOfKind_eq hbuiltins.bounce
    obtain ⟨s, hs, _⟩ := lastOfKind_eq hbuiltins.spam
    obtain ⟨f, hf, _⟩ := lastOfKind_eq hbuiltins.fallback
    refine ⟨hcomp.symm, ?_, ?_, ?_⟩
    · simp [buildIndex, hb]
    · simp [buildIndex, hs]
    · simp [buildIndex, hf]

theorem hostile_cache_harmless_sample : ∃ out views,
    productsBuild samplePolicy sampleProfile sampleDeps = .ok out ∧
      cacheViewsAt out.cache = .value views ∧ Views out.cache views := by
  obtain ⟨out, hbuild⟩ := exists_eq_ok productsBuild_sample_isOk
  obtain ⟨names, inventory, hparts⟩ := productsBuild_parts hbuild
  obtain ⟨-, -, haccepted⟩ := hostile_cache_harmless samplePosix out.cache (some out.zsh)
    (some out.sieve) (some (digest inventory))
  obtain ⟨views, hviews, hfacts, -⟩ := haccepted hparts.valid
  exact ⟨out, views, hbuild, hviews, hfacts⟩

end JaroFilter
