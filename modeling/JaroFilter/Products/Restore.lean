import JaroFilter.Products.Accept

/-!
# Reading a cache back (`cache.c:322-393`, `policy.c:609-682`)

What an accepted cache holds, that the readers undo the writer, and that the
restored policy decides every message as the parsed one: the classifier reads a
rule's kind, mask and predicate only.
-/

namespace JaroFilter

open Lib

/-! ### Accepted records -/

/-- The records the validator has walked over, whatever their raw bytes. -/
inductive Walks (zsh sieve : Option Bytes) (count : ℕ) : ℕ → Walk → List Record → Walk → Prop where
  | nil (i : ℕ) (w : Walk) : Walks zsh sieve count i w [] w
  | cons {i : ℕ} {w w1 w' : Walk} {r : Record} {rs : List Record} {raw : Bytes}
      (arity : validArity r.tag r.fields.length = true)
      (step : validateRecord zsh sieve count i raw w r = some w1)
      (rest : Walks zsh sieve count (i + 1) w1 rs w') : Walks zsh sieve count i w (r :: rs) w'

theorem validateLoop_walks {zsh sieve : Option Bytes} {count n i : ℕ} {w w' : Walk} {s rest : Bytes}
    (h : validateLoop zsh sieve count n i w s = some (w', rest)) :
    ∃ records, readRecords validArity n s = some (records, rest) ∧
      Walks zsh sieve count i w records w' := by
  induction n generalizing i w s with
  | zero =>
    cases h
    exact ⟨[], rfl, .nil _ _⟩
  | succ n ih =>
    simp only [validateLoop] at h
    split at h
    · cases h
    · rename_i r s' hread
      split at h
      · cases h
      · rename_i w1 hstep
        obtain ⟨records, hrecords, hwalks⟩ := ih h
        refine ⟨r :: records, ?_, .cons (readRecord_accept hread) hstep hwalks⟩
        simp only [readRecords, hread, hrecords]

/-- The validator looks at both texts only when it is given them. -/
theorem validateRecord_none {zsh sieve : Option Bytes} {count i : ℕ} {w w1 : Walk} {r : Record}
    {raw : Bytes} (h : validateRecord zsh sieve count i raw w r = some w1) :
    validateRecord none none count i raw w r = some w1 := by
  have hmeta : ∀ f, validateMeta zsh sieve i w f = some w1 → validateMeta none none i w f = some w1 := by
    intro f hf
    simp only [validateMeta] at hf ⊢
    split at hf
    · cases hf
    · rename_i hno
      split at hf
      · cases hf
      · rw [if_neg hno, if_neg (by simp)]
        exact hf
  simp only [validateRecord] at h ⊢
  split at h
  · cases h
  · rename_i htext
    rw [if_neg htext]
    split at h
    · rename_i htag
      rw [if_pos htag]
      exact hmeta _ h
    · rename_i htag
      rw [if_neg htag]
      exact h

theorem validateLoop_none {zsh sieve : Option Bytes} {count n i : ℕ} {w : Walk} {s : Bytes}
    {out : Walk × Bytes} (h : validateLoop zsh sieve count n i w s = some out) :
    validateLoop none none count n i w s = some out := by
  induction n generalizing i w s with
  | zero => exact h
  | succ n ih =>
    simp only [validateLoop] at h ⊢
    split at h
    · cases h
    · rename_i r s' hread
      split at h
      · cases h
      · rename_i w1 hstep
        simp only [validateRecord_none hstep]
        exact ih h

theorem cacheValidate_error {data : Bytes} {zsh sieve fingerprint : Option Bytes} {e : Failure}
    (h : cacheValidate data zsh sieve fingerprint = .error e) : e = badCache := by
  simp only [cacheValidate] at h
  split_ifs at h
  · exact (Except.error.inj h).symm
  · exact (Except.error.inj h).symm
  · split at h
    · exact (Except.error.inj h).symm
    · split at h
      · cases h
      · exact (Except.error.inj h).symm

theorem cacheValidate_none {data : Bytes} {zsh sieve fp : Option Bytes}
    (h : cacheValidate data zsh sieve fp = .ok ()) : cacheValidate data none none none = .ok () := by
  simp only [cacheValidate] at h ⊢
  split at h
  · cases h
  · rename_i hheader
    have hnone : cacheHeader data none = true := by
      simp only [cacheHeader, Bool.not_eq_false, Bool.and_eq_true] at hheader ⊢
      simp_all
    split at h
    · cases h
    · rename_i hcount
      split at h
      · cases h
      · rename_i w rest hloop
        simp only [hnone, Bool.true_eq_false, if_false, hcount, validateLoop_none hloop]
        exact h

/-- What acceptance says of the records behind the header. -/
theorem cacheValidate_walks {data : Bytes} {zsh sieve fp : Option Bytes}
    (h : cacheValidate data zsh sieve fp = .ok ()) :
    ∃ records w, readRecords validArity (recordCount data) (data.drop 92) = some (records, []) ∧
      records.length = recordCount data ∧
      Walks zsh sieve (recordCount data) 0 startWalk records w ∧
      w.bounce = 1 ∧ w.spam = 1 ∧ w.fallback = 1 := by
  simp only [cacheValidate] at h
  split at h
  · cases h
  · split at h
    · cases h
    · split at h
      · cases h
      · rename_i w rest hloop
        split at h
        · rename_i hdone
          obtain ⟨records, hread, hwalks⟩ := validateLoop_walks hloop
          simp only [walkComplete, Bool.and_eq_true, beq_iff_eq] at hdone
          obtain ⟨⟨⟨⟨⟨⟨rfl, hb⟩, hs⟩, hf⟩, _⟩, _⟩, _⟩ := hdone
          exact ⟨records, w, hread, readRecords_length hread, hwalks, hb, hs, hf⟩
        · cases h

/-- The rules the records of a cache stand for. -/
def recordRules (records : List Record) : List Rule :=
  (records.filter fun r => r.tag == 82).map fun r => restoreRule r.fields

/-- How far a record moves the three counters. -/
structure Counts (r : Record) (w w1 : Walk) : Prop where
  bounce : w1.bounce = w.bounce + (recordRules [r]).countP fun x => x.kind == .senderContains
  spam : w1.spam = w.spam + (recordRules [r]).countP fun x => x.kind == .spamIs
  fallback : w1.fallback = w.fallback + (recordRules [r]).countP fun x => x.kind == .always

theorem validatePredicate_name {w w1 : Walk} {last : Bool} {name id p : Bytes} {stage mask : ℕ}
    (h : validatePredicate w last name id p stage mask = some w1) : ∃ k, name = kindName k := by
  by_contra hno
  have h1 : name ≠ cstr "address" := fun he => hno ⟨.address, he⟩
  have h2 : name ≠ cstr "domain-apex" := fun he => hno ⟨.domainApex, he⟩
  have h3 : name ≠ cstr "domain-subdomains" := fun he => hno ⟨.domainSubdomains, he⟩
  have h4 : name ≠ cstr "ere" := fun he => hno ⟨.ere, he⟩
  have h5 : name ≠ cstr "sender-contains" := fun he => hno ⟨.senderContains, he⟩
  have h6 : name ≠ cstr "spam-is" := fun he => hno ⟨.spamIs, he⟩
  have h7 : name ≠ cstr "always" := fun he => hno ⟨.always, he⟩
  simp [validatePredicate, h1, h2, h3, h4, h5, h6, h7] at h

/-- An accepted predicate moves its own counter, and only the last record may
be the fallback. -/
theorem validatePredicate_counts {w w1 : Walk} {last : Bool} {name id p : Bytes} {stage mask : ℕ}
    (h : validatePredicate w last name id p stage mask = some w1) :
    w1 = notePredicate w (kindOfName name) ∧ (kindOfName name = .always → last = true) := by
  obtain ⟨k, rfl⟩ := validatePredicate_name h
  rw [kindOfName_kindName]
  simp only [validatePredicate, kindName_eq_address, kindName_eq_domainApex,
    kindName_eq_domainSubdomains, kindName_eq_ere, kindName_eq_senderContains, kindName_eq_spamIs,
    kindName_eq_always] at h
  cases k <;> simp at h
  case address => exact ⟨h.2.2.symm, by simp⟩
  case domainApex => exact ⟨h.2.2.2.symm, by simp⟩
  case domainSubdomains => exact ⟨h.2.2.2.symm, by simp⟩
  case ere => exact ⟨h.2.symm, by simp⟩
  case senderContains => exact ⟨h.2.symm, by simp⟩
  case spamIs => exact ⟨h.2.symm, by simp⟩
  case always => exact ⟨h.2.symm, fun _ => h.1.2.2.2.1⟩

theorem validateRule_counts {last : Bool} {w w1 : Walk} {r : Record} (htag : r.tag = 82)
    (h : validateRule last w r.fields = some w1) :
    Counts r w w1 ∧ ((restoreRule r.fields).kind = .always → last = true) := by
  simp only [validateRule] at h
  split at h
  · split at h
    · cases h
    · obtain ⟨rfl, hlast⟩ := validatePredicate_counts h
      refine ⟨?_, hlast⟩
      constructor <;>
        cases hk : kindOfName (r.fields.getD 2 []) <;>
          simp [notePredicate, recordRules, htag, restoreRule, hk, -List.getD_eq_getElem?_getD]
  · cases h

/-- One record moves the counters by the rule it holds. -/
theorem validateRecord_counts {zsh sieve : Option Bytes} {count i : ℕ} {raw : Bytes} {w w1 : Walk}
    {r : Record} (harity : validArity r.tag r.fields.length = true)
    (h : validateRecord zsh sieve count i raw w r = some w1) :
    Counts r w w1 ∧ (r.tag = 82 → (restoreRule r.fields).kind = .always → i + 1 = count) := by
  have hother : r.tag ≠ 82 → w1.bounce = w.bounce → w1.spam = w.spam → w1.fallback = w.fallback →
      Counts r w w1 := by
    intro htag h1 h2 h3
    constructor <;> simp [recordRules, htag, h1, h2, h3]
  simp only [validateRecord] at h
  split at h
  · cases h
  · split at h
    · rename_i htag
      simp only [validateMeta] at h
      split at h
      · cases h
      · split at h
        · cases h
        · cases h
          exact ⟨hother (by simp [htag]) rfl rfl rfl, by simp [htag]⟩
    · split at h
      · rename_i htag
        simp only [validateDependency] at h
        split at h
        · cases h
        · obtain ⟨w2, hconfig, rfl⟩ := Option.map_eq_some_iff.mp h
          have hsame : w2.bounce = w.bounce ∧ w2.spam = w.spam ∧ w2.fallback = w.fallback := by
            simp only [validateConfig] at hconfig
            split at hconfig
            · split at hconfig <;> cases hconfig
              exact ⟨rfl, rfl, rfl⟩
            · split at hconfig
              · split at hconfig <;> cases hconfig
                exact ⟨rfl, rfl, rfl⟩
              · split at hconfig
                · split at hconfig <;> cases hconfig
                  exact ⟨rfl, rfl, rfl⟩
                · cases hconfig
                  exact ⟨rfl, rfl, rfl⟩
          exact ⟨hother (by simp [htag]) hsame.1 hsame.2.1 hsame.2.2, by simp [htag]⟩
      · rename_i h77 h68
        have htag : r.tag = 82 := by
          by_contra hne
          simp [validArity, h77, h68, hne] at harity
        obtain ⟨hcounts, hlast⟩ := validateRule_counts htag h
        exact ⟨hcounts, fun _ hk => by simpa using hlast hk⟩

theorem recordRules_cons (r : Record) (rs : List Record) :
    recordRules (r :: rs) = recordRules [r] ++ recordRules rs := by
  simp only [recordRules, List.filter_cons]
  split <;> simp

/-- Over a whole walk the counters count the builtins, and the fallback is the
last record. -/
theorem Walks.counts {zsh sieve : Option Bytes} {count i : ℕ} {w w' : Walk} {records : List Record}
    (h : Walks zsh sieve count i w records w') (hcount : i + records.length = count) :
    w'.bounce = w.bounce + (recordRules records).countP (fun x => x.kind == .senderContains) ∧
      w'.spam = w.spam + (recordRules records).countP (fun x => x.kind == .spamIs) ∧
      w'.fallback = w.fallback + (recordRules records).countP (fun x => x.kind == .always) ∧
      ∀ init x rest, recordRules records = init ++ x :: rest → x.kind = .always → rest = [] := by
  induction h with
  | nil i w => simp [recordRules]
  | @cons i w w1 w' r rs raw harity hstep _ ih =>
    simp only [List.length_cons] at hcount
    obtain ⟨h1, h2, h3, hlast⟩ := ih (by omega)
    obtain ⟨hc, hend⟩ := validateRecord_counts harity hstep
    simp only [recordRules_cons r rs, List.countP_append]
    refine ⟨by rw [h1, hc.bounce]; omega, by rw [h2, hc.spam]; omega, by rw [h3, hc.fallback]; omega,
      ?_⟩
    intro init x rest heq hk
    by_cases htag : r.tag = 82
    · have hone : recordRules [r] = [restoreRule r.fields] := by simp [recordRules, htag]
      rw [hone, List.singleton_append] at heq
      cases init with
      | nil =>
        rw [List.nil_append, List.cons.injEq] at heq
        obtain ⟨hx, hrest⟩ := heq
        rw [← hx] at hk
        have hlen := hend htag hk
        have hnil : rs = [] := List.eq_nil_of_length_eq_zero (by omega)
        rw [← hrest, hnil]
        rfl
      | cons y init =>
        rw [List.cons_append, List.cons.injEq] at heq
        exact hlast init x rest heq.2 hk
    · have hnone : recordRules [r] = [] := by simp [recordRules, htag]
      rw [hnone, List.nil_append] at heq
      exact hlast init x rest heq hk

theorem restoreRules_ok {posix : Posix} {fs : List (List Bytes)} {rules : List Rule}
    (h : restoreRules posix fs = .ok rules) : rules = fs.map restoreRule := by
  induction fs generalizing rules with
  | nil =>
    cases h
    rfl
  | cons f fs ih =>
    have hrest : (restoreRules posix fs).map (restoreRule f :: ·) = .ok rules := by
      simp only [restoreRules] at h
      split at h
      · split at h
        · cases h
        · exact h
      · exact h
    obtain ⟨rest, hr, rfl⟩ := map_eq_ok_iff.mp hrest
    rw [List.map_cons, ← ih hr]

theorem Walks.builtins {zsh sieve : Option Bytes} {count : ℕ} {w : Walk} {records : List Record}
    (hwalks : Walks zsh sieve count 0 startWalk records w) (hlen : records.length = count)
    (hb : w.bounce = 1) (hs : w.spam = 1) (hf : w.fallback = 1) : HasBuiltins (recordRules records) := by
  obtain ⟨hbounce, hspam, hfallback, hlast⟩ := hwalks.counts (by omega)
  have h0 : startWalk.bounce = 0 ∧ startWalk.spam = 0 ∧ startWalk.fallback = 0 := ⟨rfl, rfl, rfl⟩
  rw [h0.1, hb, Nat.zero_add] at hbounce
  rw [h0.2.1, hs, Nat.zero_add] at hspam
  rw [h0.2.2, hf, Nat.zero_add] at hfallback
  refine ⟨hbounce.symm, hspam.symm, hfallback.symm, ?_⟩
  have hpos : 0 < (recordRules records).countP fun x => x.kind == .always := by omega
  obtain ⟨x, hx, hk⟩ := List.countP_pos_iff.mp hpos
  obtain ⟨init, rest, hsplit⟩ := List.append_of_mem hx
  have hk : x.kind = .always := by simpa using hk
  have hnil := hlast init x rest hsplit hk
  subst hnil
  exact ⟨init, x, hsplit, hk⟩

/-- A policy rebuilt from an accepted cache has its three builtins. -/
theorem cachePolicy_builtins {posix : Posix} {cache : Bytes} {p : Policy}
    (h : cachePolicy posix cache = .ok p) : ∃ rules, p = buildIndex rules ∧ HasBuiltins rules := by
  obtain ⟨_, hvalid, h⟩ := bind_eq_ok_iff.mp h
  obtain ⟨records, w, hread, hlen, hwalks, hb, hs, hf⟩ := cacheValidate_walks hvalid
  rw [readRecords_mono (fun _ _ _ => rfl) hread] at h
  simp only [policyRestore] at h
  split at h
  · cases h
  · obtain ⟨rules, hrules, rfl⟩ := map_eq_ok_iff.mp h
    have heq := restoreRules_ok hrules
    rw [List.map_map] at heq
    exact ⟨rules, rfl, heq ▸ hwalks.builtins hlen hb hs hf⟩

/-- A policy is the index of its rules, the built-in ones among them, whether it
was parsed or restored. -/
theorem policy_builtins {posix : Posix} {p : Policy}
    (hp : (∃ sources, policyParse posix sources = .ok p) ∨ ∃ cache, cachePolicy posix cache = .ok p) :
    ∃ rules, p = buildIndex rules ∧ HasBuiltins rules := by
  rcases hp with ⟨sources, hsources⟩ | ⟨cache, hcache⟩
  · obtain ⟨rules, hrules, heq⟩ := map_eq_ok_iff.mp hsources
    exact ⟨rules, heq.symm, (parseRules_resolved hrules).toHasBuiltins⟩
  · exact cachePolicy_builtins hcache

/-- The classifier's winner is the first rule of the resolved order that holds,
for a parsed policy and for one restored from an accepted cache. -/
theorem winner_is_first_match (posix : Posix) (p : Policy)
    (hp : (∃ sources, policyParse posix sources = .ok p) ∨ ∃ cache, cachePolicy posix cache = .ok p)
    (m : Message) (w : Option ℕ) (h : policyClassify posix p m = .ok w) :
    ∃ i, w = some i ∧ FirstMatch (Holds posix m) p.rules i := by
  obtain ⟨rules, rfl, hrules⟩ := policy_builtins hp
  exact classify_least hrules h

theorem winner_is_first_match_sample :
    ∃ i, some 1 = some i ∧ FirstMatch (Holds samplePosix sampleMessage) samplePolicy.rules i :=
  winner_is_first_match samplePosix samplePolicy (Or.inl ⟨sampleSources, policyParse_sample⟩)
    sampleMessage (some 1) policyClassify_sample

/-! ### What the classifier reads -/

/-- A change of rules that keeps what the classifier reads. -/
structure Preserves (f : Rule → Rule) : Prop where
  kind : ∀ r, (f r).kind = r.kind
  fields : ∀ r, (f r).fields = r.fields
  predicate : ∀ r, (f r).predicate = r.predicate

section Preserves

variable {f : Rule → Rule} (hf : Preserves f)

include hf

theorem Preserves.indexKey (r : Rule) : indexKey (f r) = indexKey r := by
  simp only [JaroFilter.indexKey, hf.kind, hf.predicate]

theorem Preserves.filter_zipIdx (rules : List Rule) (q : Kind → Bool) :
    (rules.map f).zipIdx.filter (fun e => q e.1.kind) =
      (rules.zipIdx.filter fun e => q e.1.kind).map (Prod.map f id) := by
  rw [List.zipIdx_map, List.filter_map]
  congr 1
  refine List.filter_congr fun e _ => ?_
  simp [hf.kind]

theorem Preserves.lastOfKind (k : Kind) (rules : List Rule) :
    lastOfKind k (rules.map f) = lastOfKind k rules := by
  have hfilter := hf.filter_zipIdx rules fun x => x == k
  simp only [JaroFilter.lastOfKind, hfilter, List.getLast?_map, Option.map_map]
  rfl

theorem Preserves.index (rules : List Rule) :
    (buildIndex (rules.map f)).index = (buildIndex rules).index.map (Prod.map f id) := by
  have hfilter := hf.filter_zipIdx rules fun k => k.code ≤ 2
  simp only [buildIndex, hfilter, qsort]
  refine (List.map_insertionSort _ _ _ _ fun a _ b _ => ?_).symm
  simp only [compareIndex, Prod.map_fst, Prod.map_snd, hf.kind, hf.indexKey, id_eq]

theorem Preserves.lookup (rules : List Rule) (kind : Kind) (key : Bytes) (field : ℕ)
    (best : Option ℕ) :
    lookup (buildIndex (rules.map f)) kind key field best =
      lookup (buildIndex rules) kind key field best := by
  have hcompare : ∀ e, compareLookup kind key (Prod.map f id e) = compareLookup kind key e := by
    intro e
    simp only [compareLookup, Prod.map_fst, hf.kind, hf.indexKey]
  simp only [JaroFilter.lookup, hf.index, List.length_map]
  rw [bisect_map fun e => by rw [hcompare], ← List.map_drop, List.takeWhile_map, List.foldl_map]
  simp only [Function.comp_def, hcompare, Prod.map_fst, Prod.map_snd, hf.fields, id_eq]

theorem Preserves.searchLegacy (posix : Posix) (mailbox : Bytes) (field : ℕ) (best : Option ℕ)
    (es : List (Rule × ℕ)) :
    searchLegacy posix mailbox field best (es.map (Prod.map f id)) =
      searchLegacy posix mailbox field best es := by
  induction es with
  | nil => rfl
  | cons e es ih =>
    simp only [List.map_cons, JaroFilter.searchLegacy, Prod.map_fst, Prod.map_snd, hf.fields,
      hf.predicate, id_eq, ih]

theorem Preserves.searchAddresses (posix : Posix) (rules : List Rule) (as : List Mailbox)
    (best : Option ℕ) :
    searchAddresses posix (buildIndex (rules.map f)) as best =
      searchAddresses posix (buildIndex rules) as best := by
  have hlegacy : (buildIndex (rules.map f)).legacy = (buildIndex rules).legacy.map (Prod.map f id) :=
    hf.filter_zipIdx rules fun k => k == .ere
  induction as generalizing best with
  | nil => rfl
  | cons a as ih =>
    simp only [JaroFilter.searchAddresses, searchIndex, hf.lookup, hlegacy, hf.searchLegacy, ih]

/-- Kind, mask and predicate are all that decides a message. -/
theorem Preserves.policyClassify (posix : Posix) (rules : List Rule) (m : Message) :
    policyClassify posix (buildIndex (rules.map f)) m = policyClassify posix (buildIndex rules) m := by
  have hraw : searchRaw (buildIndex (rules.map f)) m = searchRaw (buildIndex rules) m := by
    have h1 : (buildIndex (rules.map f)).bounce = (buildIndex rules).bounce := hf.lastOfKind _ _
    have h2 : (buildIndex (rules.map f)).spam = (buildIndex rules).spam := hf.lastOfKind _ _
    have h3 : (buildIndex (rules.map f)).fallback = (buildIndex rules).fallback := hf.lastOfKind _ _
    simp only [searchRaw, h1, h2, h3]
  simp only [JaroFilter.policyClassify, hraw, hf.searchAddresses]

end Preserves

/-! ### Reading what the compiler wrote -/

/-- The parts of a successful build. -/
structure BuildParts (p : Policy) (profile : Profile) (deps : List Dependency) (out : Products)
    (names : List Bytes) (inventory : Bytes) : Prop where
  dependencies : deps.length ≤ dependencyMax
  rules : builtinRules ≤ p.rules.length ∧ p.rules.length ≤ ruleRecordMax
  mailboxes : mailboxNames profile p.rules = some names
  clash : mappingClash (qsort mailboxCompare (names.zip (p.rules.map Rule.logical))) = false
  emit : emitText profile p.rules names = .ok (out.zsh, out.sieve)
  listed : inventoryLoop none inventoryTag (qsort depCompare deps) = .ok inventory
  size : (littleEndian 4 (1 + deps.length + p.rules.length) ++ encodeRecords (cacheRecords profile
    out.zsh out.sieve (qsort depCompare deps) (p.rules.zip names))).length ≤ cacheMax
  cache : out.cache = cacheBytes (digest inventory) (littleEndian 4 (1 + deps.length + p.rules.length) ++
    encodeRecords (cacheRecords profile out.zsh out.sieve (qsort depCompare deps) (p.rules.zip names)))
  valid : cacheValidate out.cache (some out.zsh) (some out.sieve) (some (digest inventory)) = .ok ()

theorem productsBuild_parts {p : Policy} {profile : Profile} {deps : List Dependency} {out : Products}
    (h : productsBuild p profile deps = .ok out) :
    ∃ names inventory, BuildParts p profile deps out names inventory := by
  simp only [productsBuild] at h
  split at h
  · cases h
  · rename_i hlimits
    obtain ⟨names, hnames, h⟩ := bind_eq_ok_iff.mp h
    split at h
    · cases h
    · rename_i hclash
      obtain ⟨⟨zsh, sieve⟩, hemit, h⟩ := bind_eq_ok_iff.mp h
      obtain ⟨inventory, hinventory, h⟩ := bind_eq_ok_iff.mp h
      obtain ⟨payload, hpayload, h⟩ := bind_eq_ok_iff.mp h
      split at h
      · obtain ⟨_, hvalid, h⟩ := bind_eq_ok_iff.mp h
        cases h
        obtain ⟨heq, hsize⟩ := bytesAddAll_ok (Nat.zero_le _) (orMemory_ok hpayload)
        rw [List.nil_append, List.flatten_cons, ← List.flatMap_def, ← encodeRecords] at heq
        rw [heq] at hsize hvalid
        exact ⟨names, inventory, by omega, by omega, orMemory_ok hnames, eq_false_of_ne_true hclash, hemit,
          hinventory, hsize, by rw [heq], by rw [heq]; exact hvalid⟩
      · cases h

theorem BuildParts.count {p : Policy} {profile : Profile} {deps : List Dependency} {out : Products}
    {names : List Bytes} {inventory : Bytes} (h : BuildParts p profile deps out names inventory) :
    (cacheRecords profile out.zsh out.sieve (qsort depCompare deps) (p.rules.zip names)).length =
      1 + deps.length + p.rules.length := by
  have hlen := mailboxNames_length h.mailboxes
  simp only [cacheRecords, List.length_cons, List.length_append, List.length_map, length_qsort,
    length_ruleRecords, List.length_zip]
  omega

/-- Record count and records of the cache, as its readers see them. -/
theorem BuildParts.read {p : Policy} {profile : Profile} {deps : List Dependency} {out : Products}
    {names : List Bytes} {inventory : Bytes} (h : BuildParts p profile deps out names inventory) :
    recordCount out.cache = 1 + deps.length + p.rules.length ∧
      out.cache.drop 92 = encodeRecords (cacheRecords profile out.zsh out.sieve (qsort depCompare deps)
        (p.rules.zip names)) := by
  have hparts := cacheParts_cacheBytes (digest_length inventory)
    (littleEndian 4 (1 + deps.length + p.rules.length) ++ encodeRecords (cacheRecords profile
      out.zsh out.sieve (qsort depCompare deps) (p.rules.zip names)))
  rw [← h.cache] at hparts
  have h1 := h.dependencies
  have h2 := h.rules.2
  have hmax : 1 + dependencyMax + ruleRecordMax < 256 ^ 4 := by decide
  exact hparts.records (by omega)

theorem BuildParts.fits {p : Policy} {profile : Profile} {deps : List Dependency} {out : Products}
    {names : List Bytes} {inventory : Bytes} (h : BuildParts p profile deps out names inventory)
    {r : Record} (hr : r ∈ cacheRecords profile out.zsh out.sieve (qsort depCompare deps)
      (p.rules.zip names)) : r.Fits := by
  have hsize := h.size
  rw [List.length_append] at hsize
  exact fits_of_encode hr (cacheRecords_arity hr).2 (by omega)

/-- The rule a cache keeps: the mapped mailbox, without selector, origin and
occurrence. -/
def restored (profile : Profile) (r : Rule) : Rule :=
  { r with
    selector := []
    action := cstr "move"
    sieve := (profileMailbox profile r).getD []
    sourceIdentity := []
    occurrence := 1 }

theorem preserves_restored (profile : Profile) : Preserves (restored profile) :=
  ⟨fun _ => rfl, fun _ => rfl, fun _ => rfl⟩

theorem restoreRule_ruleRecord {profile : Profile} {r : Rule} (hr : RuleOk r) {mailbox : Bytes}
    (hm : profileMailbox profile r = some mailbox) (i : ℕ) :
    restoreRule (ruleRecord i r mailbox).fields = restored profile r := by
  have hlimit : inputMax ≤ sizeMax ∧ 16 ≤ sizeMax := by decide
  obtain ⟨hl1, hl2⟩ := hlimit
  have hstage := hr.stage_le.2
  have hfields := hr.fields_le
  have hline := hr.line
  simp only [restoreRule, ruleRecord, List.getD_cons_zero, List.getD_cons_succ, kindOfName_kindName,
    cachedNumber_decimalText (show r.stage ≤ sizeMax by omega),
    cachedNumber_decimalText (show r.fields ≤ sizeMax by omega),
    cachedNumber_decimalText (show r.line ≤ sizeMax by omega),
    Nat.mod_eq_of_lt (show r.stage < 2 ^ 32 by omega),
    Nat.mod_eq_of_lt (show r.fields < 2 ^ 32 by omega), restored, hm, Option.getD_some]

theorem restoreRules_map {posix : Posix} {fs : List (List Bytes)}
    (h : ∀ f ∈ fs, (restoreRule f).kind = .ere → posix.regcomp (restoreRule f).predicate = none) :
    restoreRules posix fs = .ok (fs.map restoreRule) := by
  induction fs with
  | nil => rfl
  | cons f fs ih =>
    have ih := ih fun g hg => h g (by simp [hg])
    simp only [restoreRules, ih]
    split
    · rename_i hk
      rw [h f (by simp) hk]
      rfl
    · rfl

theorem map_ruleRecords {profile : Profile} {rules : List Rule} {names : List Bytes}
    (hok : ∀ r ∈ rules, RuleOk r) (hnames : mailboxNames profile rules = some names) (i : ℕ) :
    (ruleRecords i (rules.zip names)).map (fun r => restoreRule r.fields) =
      rules.map (restored profile) := by
  induction rules generalizing names i with
  | nil => rfl
  | cons r rules ih =>
    obtain ⟨name, rest, rfl, hname, hrest⟩ := mailboxNames_cons hnames
    simp only [List.zip_cons_cons, ruleRecords, List.map_cons,
      restoreRule_ruleRecord (hok r (by simp)) hname]
    rw [ih (fun x hx => hok x (by simp [hx])) hrest]

theorem filter_cacheRecords (profile : Profile) (zsh sieve : Bytes) (sorted : List Dependency)
    (items : List (Rule × Bytes)) :
    (cacheRecords profile zsh sieve sorted items).filter (fun r => r.tag == 82) =
      ruleRecords 0 items := by
  have hmeta : ((metaRecord profile zsh sieve).tag == 82) = false := rfl
  have hdeps : (sorted.map dependencyRecord).filter (fun r => r.tag == 82) = [] := by
    rw [List.filter_eq_nil_iff]
    intro r hr
    obtain ⟨d, _, rfl⟩ := List.mem_map.mp hr
    simp [dependencyRecord]
  have hrules : (ruleRecords 0 items).filter (fun r => r.tag == 82) = ruleRecords 0 items := by
    rw [List.filter_eq_self]
    intro r hr
    simp [(mem_ruleRecords hr).1]
  rw [cacheRecords, List.filter_cons, hmeta, List.filter_append, hdeps, hrules]
  rfl

/-- The cache gives back the rules, each as it is stored. -/
theorem cachePolicy_built {posix : Posix} {rules : List Rule} (hres : Resolved posix rules)
    {profile : Profile} {deps : List Dependency} {out : Products} {names : List Bytes}
    {inventory : Bytes} (h : BuildParts (buildIndex rules) profile deps out names inventory) :
    cachePolicy posix out.cache = .ok (buildIndex (rules.map (restored profile))) := by
  obtain ⟨hcount, hdrop⟩ := h.read
  have hread := readRecords_encode (fun _ _ => true)
    (fun r hr => ⟨h.fits hr, rfl⟩) ([] : Bytes)
  rw [List.append_nil, h.count, ← hcount, ← hdrop] at hread
  have hmap : (ruleRecords 0 (rules.zip names)).map (fun r => restoreRule r.fields) =
      rules.map (restored profile) := map_ruleRecords hres.ok h.mailboxes 0
  have hlen : (ruleRecords 0 (rules.zip names)).length = rules.length := by
    have hl := congrArg List.length hmap
    simpa using hl
  have hrestore : restoreRules posix ((ruleRecords 0 (rules.zip names)).map Record.fields) =
      .ok (rules.map (restored profile)) := by
    rw [restoreRules_map, List.map_map]
    · exact congrArg Except.ok hmap
    · intro f hf hk
      have hmem : restoreRule f ∈ rules.map (restored profile) := by
        rw [← hmap]
        obtain ⟨r, hr, rfl⟩ := List.mem_map.mp hf
        exact List.mem_map.mpr ⟨r, hr, rfl⟩
      obtain ⟨r, hr, heq⟩ := List.mem_map.mp hmem
      rw [← heq] at hk ⊢
      exact hres.compiled r hr hk
  have hrange : ¬ (rules.length < builtinRules ∨ ruleRecordMax < rules.length) := by
    have hr := h.rules
    simp only [buildIndex] at hr
    omega
  have hrules : (buildIndex rules).rules = rules := rfl
  rw [cachePolicy, cacheValidate_none h.valid]
  simp only [bind, Except.bind, hread, hrules, filter_cacheRecords, policyRestore, List.length_map,
    hlen, hrange, if_false, hrestore]
  rfl

/-! ### The dependency list -/

/-- An absent entry keeps the cleared digest `dep` gives it (`snapshot.c:60`). -/
def Cleared (d : Dependency) : Prop := d.present = false → d.digest = zeroDigest

theorem zeroDigest_length : zeroDigest.length = 32 := List.length_replicate ..

/-- A dependency without the digest of an absent input: `put_dep` writes an
empty field for it, and `jf_cache_dependencies` leaves the array cleared. -/
def Dependency.cleared (d : Dependency) : Dependency :=
  if d.present then d else { d with
    digest := zeroDigest
    digest_length := zeroDigest_length }

theorem Dependency.cleared_cleared (d : Dependency) : Cleared d.cleared := by
  obtain ⟨role, path, present, digest, auxiliary, hrole, hpath, hlen⟩ := d
  cases present with
  | true => exact fun h => by cases h
  | false => exact fun _ => rfl

theorem cString_eq_self {s : Bytes} (h : 0 ∉ s) : cString s = s := by
  rw [cString, List.takeWhile_eq_self_iff]
  intro c hc
  rw [bne_iff_ne]
  rintro rfl
  exact h hc

theorem restoreDependency_record (d : Dependency) :
    restoreDependency (dependencyRecord d).fields = d.cleared := by
  have hflag : cstr "0" ≠ cstr "1" := by decide
  have hrole := cString_eq_self d.role_nul
  have hpath := cString_eq_self d.path_nul
  have hpad : ∀ s : Bytes, s.length = 32 → padDigest s = s := by
    intro s hs
    rw [padDigest, ← hs, List.take_left]
  obtain ⟨role, path, present, digest, auxiliary, _, _, hlen⟩ := d
  simp only [restoreDependency, dependencyRecord, Dependency.cleared, List.getD_cons_zero,
    List.getD_cons_succ] at hrole hpath ⊢
  cases present with
  | false => simp [hrole, hpath, padDigest, hflag, zeroDigest]
  | true => simp [hrole, hpath, hpad digest hlen]

/-- The dependency loop collects the `D` records among written ones. -/
theorem dependencyLoop_encode (ds : List Dependency) (rs : List Record) {count : ℕ}
    (hmax : count + ds.length ≤ dependencyMax)
    (hfit : ∀ d ∈ ds, (dependencyRecord d).Fits ∧ d.auxiliary.length ≤ cacheMax)
    (hrs : ∀ r ∈ rs, r.Fits ∧ r.fields.length ≤ 12 ∧ r.tag ≠ 68) :
    dependencyLoop (ds.length + rs.length) count (encodeRecords (ds.map dependencyRecord ++ rs)) =
      .ok (ds.map Dependency.cleared, []) := by
  induction ds generalizing count with
  | nil =>
    simp only [List.map_nil, List.nil_append, List.length_nil, Nat.zero_add]
    induction rs with
    | nil => rfl
    | cons r rs ih =>
      obtain ⟨hf, hlen, htag⟩ := hrs r (by simp)
      have hread := readRecord_encode (fun _ fields => decide (fields ≤ 12)) hf
        (by simpa using hlen) (encodeRecords rs)
      rw [List.length_cons, encodeRecords_cons]
      simp only [dependencyLoop, hread, htag, if_false]
      exact ih fun q hq => hrs q (by simp [hq])
  | cons d ds ih =>
    obtain ⟨hf, haux⟩ := hfit d (by simp)
    have hlen : (dependencyRecord d).fields.length = 5 := rfl
    have hread := readRecord_encode (fun _ fields => decide (fields ≤ 12)) hf
      (by simp [hlen]) (encodeRecords (ds.map dependencyRecord ++ rs))
    simp only [List.length_cons] at hmax
    have ih := @ih (count + 1) (by omega) fun e he => hfit e (by simp [he])
    have hindex : (d :: ds).length + rs.length = ds.length + rs.length + 1 := by
      simp only [List.length_cons]
      omega
    have htag : (dependencyRecord d).tag = 68 := rfl
    have hdigest : ¬ 32 < ((dependencyRecord d).fields.getD 3 []).length := by
      cases hp : d.present <;> simp [dependencyRecord, hp, d.digest_length]
    have hkept : ¬ cacheMax < ((dependencyRecord d).fields.getD 4 []).length := by
      have hfield : (dependencyRecord d).fields.getD 4 [] = d.auxiliary := rfl
      rw [hfield]
      omega
    have hcount : ¬ count = dependencyMax := by omega
    rw [hindex, List.map_cons, List.cons_append, encodeRecords_cons]
    simp only [dependencyLoop, hread, htag, if_true, hlen, ne_eq, not_true_eq_false, hcount, hdigest,
      or_self, if_false, hkept, ih]
    rw [restoreDependency_record]
    rfl

theorem auxiliary_length_le (d : Dependency) :
    d.auxiliary.length ≤ (encodeRecord (dependencyRecord d)).length := by
  have hfield : (encodeField d.auxiliary).length ≤
      ((dependencyRecord d).fields.flatMap encodeField).length :=
    length_le_flatMap (by simp [dependencyRecord])
  have hle := encodeField_length d.auxiliary
  simp only [encodeRecord, List.length_cons, List.length_append]
  omega

theorem cacheDependencies_built {p : Policy} {profile : Profile} {deps : List Dependency}
    {out : Products} {names : List Bytes} {inventory : Bytes}
    (h : BuildParts p profile deps out names inventory) :
    cacheDependencies out.cache = .ok ((qsort depCompare deps).map Dependency.cleared) := by
  obtain ⟨hcount, hdrop⟩ := h.read
  have hlen := mailboxNames_length h.mailboxes
  set items := p.rules.zip names with hitems
  have hzip : (ruleRecords 0 items).length = p.rules.length := by
    rw [length_ruleRecords, hitems, List.length_zip]
    omega
  have hmem : ∀ r ∈ (qsort depCompare deps).map dependencyRecord ++ ruleRecords 0 items,
      r ∈ cacheRecords profile out.zsh out.sieve (qsort depCompare deps) items :=
    fun r hr => List.mem_cons_of_mem _ hr
  have hsize := h.size
  rw [List.length_append, ← hitems] at hsize
  have hloop := @dependencyLoop_encode (qsort depCompare deps) (ruleRecords 0 items) 0
    (by rw [length_qsort, Nat.zero_add]; exact h.dependencies)
    (fun d hd => by
      have hin := hmem _ (List.mem_append_left _ (List.mem_map_of_mem hd))
      have hle : (encodeRecord (dependencyRecord d)).length ≤ _ := length_le_flatMap hin
      have haux := auxiliary_length_le d
      simp only [encodeRecords] at hsize
      exact ⟨h.fits hin, by omega⟩)
    (fun r hr => by
      have hin := hmem _ (List.mem_append_right _ hr)
      refine ⟨h.fits hin, (cacheRecords_arity hin).2, ?_⟩
      rw [(mem_ruleRecords hr).1]
      decide)
  have hmeta := readRecord_encode (fun _ fields => decide (fields ≤ 12))
    (h.fits (r := metaRecord profile out.zsh out.sieve) (by simp [cacheRecords]))
    (by simp [metaRecord])
    (encodeRecords ((qsort depCompare deps).map dependencyRecord ++ ruleRecords 0 items))
  have htag : (metaRecord profile out.zsh out.sieve).tag ≠ 68 := by
    simp [metaRecord]
  have hlong : ¬ out.cache.length < 92 := by
    have hparts := cacheParts_cacheBytes (digest_length inventory)
      (littleEndian 4 (1 + deps.length + p.rules.length) ++ encodeRecords (cacheRecords profile
        out.zsh out.sieve (qsort depCompare deps) items))
    rw [← h.cache] at hparts
    rw [hparts.length, List.length_append, littleEndian_length, cacheHeaderSize]
    omega
  have hturns : 1 + deps.length + p.rules.length =
      (qsort depCompare deps).length + (ruleRecords 0 items).length + 1 := by
    rw [length_qsort, hzip]
    omega
  rw [cacheDependencies, if_neg hlong, hcount, hdrop, hturns, cacheRecords, encodeRecords_cons]
  simp only [dependencyLoop, hmeta, htag, if_false, hloop]
  rfl

/-! ### The round trip -/

/-- A cache gives back the policy and the dependencies it was built from, those of
absent inputs without a digest, and the restored policy decides every message
alike. -/
theorem cache_round_trip (posix : Posix) (sources : List Source) (profile : Profile)
    (deps : List Dependency) {p : Policy} {out : Products}
    (hp : policyParse posix sources = .ok p) (hbuild : productsBuild p profile deps = .ok out) :
    ∃ q, cachePolicy posix out.cache = .ok q ∧
      List.Forall₂ (fun r r' : Rule => r'.kind = r.kind ∧ r'.stage = r.stage ∧
        r'.fields = r.fields ∧ r'.id = r.id ∧ r'.predicate = r.predicate ∧ r'.logical = r.logical ∧
        r'.localDir = r.localDir ∧ r'.source = r.source ∧ r'.line = r.line ∧
        profileMailbox profile r = some r'.sieve) p.rules q.rules ∧
      cacheDependencies out.cache = .ok ((qsort depCompare deps).map Dependency.cleared) ∧
      ∀ m, policyClassify posix q m = policyClassify posix p m := by
  obtain ⟨rules, hrules, rfl⟩ := map_eq_ok_iff.mp hp
  obtain ⟨names, inventory, hparts⟩ := productsBuild_parts hbuild
  refine ⟨_, cachePolicy_built (parseRules_resolved hrules) hparts, ?_,
    cacheDependencies_built hparts, fun m => (preserves_restored profile).policyClassify _ _ _⟩
  have hnames : mailboxNames profile rules = some names := hparts.mailboxes
  change List.Forall₂ _ rules (rules.map (restored profile))
  rw [List.forall₂_map_right_iff, List.forall₂_same]
  intro r hr
  obtain ⟨name, hname⟩ := mailboxNames_some hnames hr
  exact ⟨rfl, rfl, rfl, rfl, rfl, rfl, rfl, rfl, rfl, by simp [restored, hname]⟩

/-! ### A cache for the small policy -/

theorem bytesAddAll_some {limit : ℕ} (b : Bytes) (pieces : List Bytes)
    (h : b.length + pieces.flatten.length ≤ limit) :
    bytesAddAll limit b pieces = some (b ++ pieces.flatten) := by
  induction pieces generalizing b with
  | nil => simp [bytesAddAll]
  | cons s pieces ih =>
    simp only [List.flatten_cons, List.length_append] at h
    have hfit : b.length ≤ limit ∧ s.length ≤ limit - b.length := by omega
    have ih := ih (b := b ++ s) (by simp only [List.length_append]; omega)
    simp only [bytesAddAll, bytesAdd, hfit, and_self, if_true, ih, List.flatten_cons,
      List.append_assoc]

theorem inventoryLoop_eq_ok (previous : Option Dependency) (b : Bytes) {ds : List Dependency}
    (hrole : ∀ d ∈ ds, d.role ≠ []) (hsorted : ds.Pairwise fun x y => depCompare x y = .lt)
    (hprevious : ∀ x ∈ previous, ∀ d ∈ ds, depCompare x d = .lt)
    (hsize : b.length + (encodeRecords (ds.map dependencyRecord)).length ≤ cacheMax) :
    inventoryLoop previous b ds = .ok (b ++ encodeRecords (ds.map dependencyRecord)) := by
  induction ds generalizing previous b with
  | nil => simp [inventoryLoop, encodeRecords]
  | cons d ds ih =>
    obtain ⟨hfirst, hrest⟩ := List.pairwise_cons.mp hsorted
    rw [List.map_cons, encodeRecords_cons, List.length_append] at hsize
    have hno : ¬ (d.role = [] ∨ ∃ x ∈ previous, depCompare x d = .eq) := by
      rintro (h | ⟨x, hx, h⟩)
      · exact hrole d (by simp) h
      · simp [hprevious x hx d (by simp)] at h
    have hfit : b.length ≤ cacheMax ∧
        (encodeRecord (dependencyRecord d)).length ≤ cacheMax - b.length := by omega
    have ih := ih (some d) (b ++ encodeRecord (dependencyRecord d))
      (fun e he => hrole e (by simp [he])) hrest
      (fun x hx e he => by
        have hx : d = x := by simpa using hx
        subst hx
        exact hfirst e he)
      (by simp only [List.length_append]; omega)
    rw [inventoryLoop, if_neg hno, bytesAdd, if_pos hfit]
    rw [List.map_cons, encodeRecords_cons, ← List.append_assoc, ← ih]
    rfl

/-- Past emission and the size limits the validator's verdict is the build's. -/
theorem productsBuild_validates {posix : Posix} {rules : List Rule} (hres : Resolved posix rules)
    {profile : Profile} {deps : List Dependency} (hrole : ∀ d ∈ deps, d.role ≠ [])
    (hdistinct : deps.Pairwise fun x y => (x.role, x.path) ≠ (y.role, y.path))
    (hmax : deps.length ≤ dependencyMax) {names : List Bytes} {zsh sieve : Bytes}
    (hnames : mailboxNames profile rules = some names)
    (hclash : mappingClash (qsort mailboxCompare (names.zip (rules.map Rule.logical))) = false)
    (hemit : emitText profile rules names = .ok (zsh, sieve))
    (hsize : 10 + (encodeRecords (cacheRecords profile zsh sieve (qsort depCompare deps)
      (rules.zip names))).length ≤ cacheMax) :
    ∃ inventory payload, inventoryLoop none inventoryTag (qsort depCompare deps) = .ok inventory ∧
      bytesAddAll cacheMax [] (littleEndian 4 (1 + deps.length + rules.length) ::
        (cacheRecords profile zsh sieve (qsort depCompare deps) (rules.zip names)).map encodeRecord) =
          some payload ∧
      productsBuild (buildIndex rules) profile deps =
        (cacheValidate (cacheBytes (digest inventory) payload) (some zsh) (some sieve)
          (some (digest inventory))).map fun _ => ⟨zsh, sieve, cacheBytes (digest inventory) payload,
            digest inventory, digestHex (digest inventory)⟩ := by
  have hdrop : (encodeRecords ((qsort depCompare deps).map dependencyRecord)).length ≤
      (encodeRecords (cacheRecords profile zsh sieve (qsort depCompare deps) (rules.zip names))).length := by
    simp only [cacheRecords, encodeRecords, List.flatMap_cons, List.flatMap_append, List.length_append]
    omega
  have htag : inventoryTag.length = 6 := by decide
  have hinventory := inventoryLoop_eq_ok none inventoryTag
    (fun d hd => hrole d (mem_qsort.mp hd)) (sorted_of_distinct hdistinct) (by simp) (by omega)
  have hpayload := @bytesAddAll_some cacheMax []
    (littleEndian 4 (1 + deps.length + rules.length) ::
      (cacheRecords profile zsh sieve (qsort depCompare deps) (rules.zip names)).map encodeRecord) (by
    rw [List.flatten_cons, ← List.flatMap_def, ← encodeRecords, List.length_append,
      littleEndian_length, List.length_nil]
    omega)
  have hlong := (bytesAddAll_ok (Nat.zero_le _) hpayload).2
  have hlimits : ¬ (dependencyMax < deps.length ∨ rules.length < builtinRules ∨
      ruleRecordMax < rules.length ∨ 2 ^ 32 - 1 - rules.length - 1 < deps.length) := by
    have h1 := hres.toHasBuiltins.length_ge
    have h2 := hres.length
    have h3 : dependencyMax + ruleRecordMax < 2 ^ 32 - 2 := by decide
    omega
  have hrules : (buildIndex rules).rules = rules := rfl
  refine ⟨_, _, hinventory, hpayload, ?_⟩
  simp only [productsBuild, hrules, hlimits, if_false, hnames, orMemory, bind, Except.bind, hclash,
    Bool.false_eq_true, hemit, hinventory, hpayload, cacheFileSize_iff.mpr hlong, if_true]
  cases cacheValidate (cacheBytes _ _) (some zsh) (some sieve) (some _) with
  | ok => rfl
  | error => rfl

/-- Emission, distinct mailboxes and the size limits are all a build needs. -/
theorem productsBuild_eq_ok {posix : Posix} {rules : List Rule} (hres : Resolved posix rules)
    {profile : Profile} (hprofile : ProfileOk profile)
    (hregex : profile.regex = true ↔ profile.id = .pigeonhole) {deps : List Dependency}
    (hdeps : Inventory deps) (hmax : deps.length ≤ dependencyMax) {names : List Bytes}
    {zsh sieve : Bytes} (hnames : mailboxNames profile rules = some names)
    (hclash : mappingClash (qsort mailboxCompare (names.zip (rules.map Rule.logical))) = false)
    (hemit : emitText profile rules names = .ok (zsh, sieve))
    (hsize : 10 + (encodeRecords (cacheRecords profile zsh sieve (qsort depCompare deps)
      (rules.zip names))).length ≤ cacheMax) :
    (productsBuild (buildIndex rules) profile deps).isOk = true := by
  obtain ⟨inventory, payload, hinventory, hpayload, hbuild⟩ := productsBuild_validates hres
    (fun d hd => (hdeps.ok d hd).role) hdeps.distinct hmax hnames hclash hemit hsize
  rw [hbuild, cacheValidate_built hprofile hregex hres hdeps hmax hnames hemit hinventory hpayload]
  rfl

theorem regexCatalogue_length : regexCatalogue.length ≤ 4000 := by decide +kernel

def sampleNames : List Bytes := (mailboxNames sampleProfile samplePolicy.rules).getD []

theorem mailboxNames_sample : mailboxNames sampleProfile samplePolicy.rules = some sampleNames :=
  (Option.eq_some_iff_get_eq.mpr ⟨sampleNames_isSome, Option.get_eq_getD ..⟩)

theorem configDependency_length (role value : Bytes) (h : 0 ∉ role) :
    (encodeRecord (dependencyRecord (configDependency role value h))).length =
      58 + role.length + value.length := by
  have h1 : (cstr "1").length = 1 := by decide
  simp only [encodeRecord, dependencyRecord, configDependency, List.flatMap_cons, List.flatMap_nil,
    List.length_append, List.length_nil, List.length_cons, encodeField, littleEndian_length,
    digest_length, if_true, h1]
  omega

/-- Sorting keeps the bytes of an inventory but for their order. -/
theorem sortedRecords_length (deps : List Dependency) :
    (encodeRecords ((qsort depCompare deps).map dependencyRecord)).length =
      (encodeRecords (deps.map dependencyRecord)).length :=
  (((qsort_perm depCompare deps).map dependencyRecord).flatMap_right encodeRecord).length_eq

theorem sampleDeps_bytes : (encodeRecords (sampleDeps.map dependencyRecord)).length ≤ 5000 := by
  -- The catalogue stays a variable: the kernel must not count its bytes again.
  have hbound : ∀ a b c d e f : ℕ, a ≤ 50 → b ≤ 50 → c ≤ 50 → d ≤ 50 → e ≤ 100 → f ≤ 4000 →
      58 + a + d + (58 + b + e + (58 + c + f + 0)) ≤ 5000 := by
    intro a b c d e f ha hb hc hd he hf
    omega
  rw [encodeRecords, sampleDeps, List.map_cons, List.map_cons, List.map_cons,
    List.map_nil, List.flatMap_cons, List.flatMap_cons, List.flatMap_cons, List.flatMap_nil,
    List.length_append, List.length_append, List.length_append, List.length_nil,
    configDependency_length, configDependency_length, configDependency_length]
  exact hbound _ _ _ _ _ _ (by decide) (by decide) (by decide)
    (by decide) (by decide) regexCatalogue_length

theorem sampleDeps_length :
    (encodeRecords ((qsort depCompare sampleDeps).map dependencyRecord)).length ≤ 5000 :=
  (sortedRecords_length sampleDeps).trans_le sampleDeps_bytes

/-- The sample inventory with one more record. -/
theorem sampleDeps_append_length (d : Dependency) :
    (encodeRecords ((qsort depCompare (sampleDeps ++ [d])).map dependencyRecord)).length ≤
      5000 + (encodeRecord (dependencyRecord d)).length := by
  have hbytes := sampleDeps_bytes
  rw [sortedRecords_length, List.map_append, encodeRecords, List.flatMap_append, List.length_append]
  simp only [encodeRecords, List.map_cons, List.map_nil, List.flatMap_cons, List.flatMap_nil,
    List.append_nil] at hbytes ⊢
  omega

/-- The records of a small cache under the profile of the sample. -/
theorem records_length (z s : Bytes) {deps : List Dependency} {items : List (Rule × Bytes)} {n : ℕ}
    (hitems : (encodeRecords (ruleRecords 0 items)).length ≤ 2000)
    (h : (encodeRecords ((qsort depCompare deps).map dependencyRecord)).length ≤ n) :
    (encodeRecords (cacheRecords sampleProfile z s (qsort depCompare deps) items)).length ≤ n + 2300 := by
  have hmeta : (encodeRecord (metaRecord sampleProfile z s)).length ≤ 300 := by
    have hfixed : (((metaRecord sampleProfile [] []).fields.take 5).flatMap encodeField).length ≤
        200 := by decide +kernel
    have hfields : (metaRecord sampleProfile z s).fields =
        (metaRecord sampleProfile [] []).fields.take 5 ++ [digest z, digest s] := rfl
    rw [encodeRecord, hfields]
    simp only [List.flatMap_append, List.length_cons, List.length_append, List.flatMap_cons,
      List.flatMap_nil, encodeField, digest_length, littleEndian_length, List.length_nil] at hfixed ⊢
    omega
  simp only [cacheRecords, encodeRecords_cons, List.length_append]
  simp only [encodeRecords, List.flatMap_append, List.length_append] at hitems h ⊢
  omega

theorem sampleRecords_length (z s : Bytes) {deps : List Dependency}
    (h : (encodeRecords ((qsort depCompare deps).map dependencyRecord)).length ≤ 6000) :
    (encodeRecords (cacheRecords sampleProfile z s (qsort depCompare deps)
      (samplePolicy.rules.zip sampleNames))).length ≤ 10000 :=
  (records_length z s (by decide +kernel) h).trans (by decide)

/-- What a build of the sample policy reaches, whatever small inventory it gets. -/
theorem sample_reaches {deps : List Dependency}
    (hbytes : (encodeRecords ((qsort depCompare deps).map dependencyRecord)).length ≤ 6000) :
    ∃ rules z s, policyParse samplePosix sampleSources = .ok (buildIndex rules) ∧
      samplePolicy = buildIndex rules ∧ Resolved samplePosix rules ∧
      mailboxNames sampleProfile rules = some sampleNames ∧
      mappingClash (qsort mailboxCompare (sampleNames.zip (rules.map Rule.logical))) = false ∧
      emitText sampleProfile rules sampleNames = .ok (z, s) ∧
      10 + (encodeRecords (cacheRecords sampleProfile z s (qsort depCompare deps)
        (rules.zip sampleNames))).length ≤ cacheMax := by
  obtain ⟨rules, hrules, hpolicy⟩ := map_eq_ok_iff.mp policyParse_sample
  obtain ⟨⟨z, s⟩, hemit⟩ := exists_eq_ok sampleText_isOk
  rw [mailboxNames_sample, Option.getD_some] at hemit
  have hclash : mappingClash (qsort mailboxCompare
      (sampleNames.zip (samplePolicy.rules.map Rule.logical))) = false := by decide
  have hsize := sampleRecords_length z s hbytes
  have hmax : 10010 ≤ cacheMax := by decide
  have hnames := mailboxNames_sample
  have hparse := policyParse_sample
  rw [← hpolicy] at hemit hclash hsize hnames hparse
  exact ⟨rules, z, s, hparse, hpolicy.symm, parseRules_resolved hrules, hnames, hclash, hemit,
    (Nat.add_le_add_left hsize 10).trans hmax⟩

theorem productsBuild_isOk_of_inventory {deps : List Dependency} (hdeps : Inventory deps)
    (hmax : deps.length ≤ dependencyMax)
    (hbytes : (encodeRecords ((qsort depCompare deps).map dependencyRecord)).length ≤ 6000) :
    (productsBuild samplePolicy sampleProfile deps).isOk = true := by
  obtain ⟨hprofile, _, hregex⟩ := profileParse_ok profileParse_sample
  obtain ⟨rules, z, s, _, hpolicy, hres, hnames, hclash, hemit, hsize⟩ := sample_reaches hbytes
  rw [hpolicy]
  exact productsBuild_eq_ok hres hprofile hregex hdeps hmax hnames hclash hemit hsize

theorem productsBuild_sample_isOk :
    (productsBuild samplePolicy sampleProfile sampleDeps).isOk = true :=
  productsBuild_isOk_of_inventory inventory_sampleDeps (by decide) (sampleDeps_length.trans (by decide))

theorem uncleared_role : 0 ∉ cstr "input" := by decide

theorem whitelist_nul : 0 ∉ cstr "whitelist.abook" := by decide

/-- An absent record whose digest was not cleared. -/
def uncleared : Dependency where
  role := cstr "input"
  path := cstr "whitelist.abook"
  present := false
  digest := List.replicate 32 1
  auxiliary := []
  role_nul := uncleared_role
  path_nul := whitelist_nul
  digest_length := List.length_replicate ..

theorem inventory_uncleared : Inventory (sampleDeps ++ [uncleared]) := by
  have hrole : uncleared.role ≠ [] ∧ ∀ c ∈ requiredConfig, uncleared.role ≠ c.1 := by
    simp only [requiredConfig, List.forall_mem_cons, List.not_mem_nil, false_implies, implies_true,
      and_true]
    decide
  refine ⟨?_, ?_, ?_⟩
  · intro d hd
    rcases List.mem_append.mp hd with hd | hd
    · exact inventory_sampleDeps.ok d hd
    · rw [List.mem_singleton.mp hd]
      exact ⟨hrole.1, fun _ => rfl, (fun h => by cases h), fun c hc heq => absurd heq (hrole.2 c hc)⟩
  · refine List.pairwise_append.mpr ⟨inventory_sampleDeps.distinct, List.pairwise_singleton .., ?_⟩
    intro d hd e he
    rw [List.mem_singleton.mp he]
    intro heq
    obtain ⟨hr, -⟩ := Prod.mk.inj heq
    simp only [sampleDeps, List.mem_cons, List.not_mem_nil, or_false] at hd
    rcases hd with rfl | rfl | rfl
    · exact hrole.2 _ (List.mem_cons_self ..) hr.symm
    · exact hrole.2 _ (List.mem_cons_of_mem _ (List.mem_cons_self ..)) hr.symm
    · exact hrole.2 _ (List.mem_cons_of_mem _ (List.mem_cons_of_mem _ (List.mem_cons_self ..))) hr.symm
  · intro c hc
    obtain ⟨d, hd, heq⟩ := inventory_sampleDeps.required c hc
    exact ⟨d, List.mem_append_left _ hd, heq⟩

theorem uncleared_length : (encodeRecord (dependencyRecord uncleared)).length ≤ 1000 := by
  decide

theorem uncleared_isOk :
    (productsBuild samplePolicy sampleProfile (sampleDeps ++ [uncleared])).isOk = true :=
  productsBuild_isOk_of_inventory inventory_uncleared (by decide)
    ((sampleDeps_append_length uncleared).trans (Nat.add_le_add_left uncleared_length 5000))

theorem cache_round_trip_sample : ∃ p out q,
    policyParse samplePosix sampleSources = .ok p ∧
    productsBuild p sampleProfile (sampleDeps ++ [uncleared]) = .ok out ∧
    cachePolicy samplePosix out.cache = .ok q ∧
    cacheDependencies out.cache =
      .ok ((qsort depCompare (sampleDeps ++ [uncleared])).map Dependency.cleared) ∧
    ∀ m, policyClassify samplePosix q m = policyClassify samplePosix p m := by
  obtain ⟨out, hbuild⟩ := exists_eq_ok uncleared_isOk
  obtain ⟨q, hq, _, hdeps, hclass⟩ := cache_round_trip samplePosix sampleSources sampleProfile
    (sampleDeps ++ [uncleared]) policyParse_sample hbuild
  exact ⟨_, out, q, policyParse_sample, hbuild, hq, hdeps, hclass⟩

/-- The build takes the uncleared record, and the reader does not give it back. -/
theorem absent_digest_not_restored : ∃ out,
    policyParse samplePosix sampleSources = .ok samplePolicy ∧
    productsBuild samplePolicy sampleProfile (sampleDeps ++ [uncleared]) = .ok out ∧
    cacheDependencies out.cache ≠ .ok (qsort depCompare (sampleDeps ++ [uncleared])) := by
  obtain ⟨out, hbuild⟩ := exists_eq_ok uncleared_isOk
  obtain ⟨names, inventory, hparts⟩ := productsBuild_parts hbuild
  refine ⟨out, policyParse_sample, hbuild, ?_⟩
  rw [cacheDependencies_built hparts]
  intro heq
  have hmem : uncleared ∈ qsort depCompare (sampleDeps ++ [uncleared]) :=
    mem_qsort.mpr (List.mem_append_right _ (List.mem_singleton_self _))
  rw [← Except.ok.inj heq] at hmem
  obtain ⟨d, _, hd⟩ := List.mem_map.mp hmem
  have hcleared : Cleared uncleared := hd ▸ d.cleared_cleared
  have hne : uncleared.digest ≠ zeroDigest := by decide
  exact hne (hcleared rfl)

/-! ### A list the validator refuses -/

theorem Walks.mem {zsh sieve : Option Bytes} {count i : ℕ} {w w' : Walk} {records : List Record}
    (h : Walks zsh sieve count i w records w') {r : Record} (hr : r ∈ records) :
    ∃ j raw v v1, validateRecord zsh sieve count j raw v r = some v1 := by
  induction h with
  | nil => cases hr
  | cons _ step _ ih =>
    rcases List.mem_cons.mp hr with rfl | hr
    · exact ⟨_, _, _, _, step⟩
    · exact ih hr

/-- A build has had each of its dependencies accepted. -/
theorem BuildParts.accepts {p : Policy} {profile : Profile} {deps : List Dependency} {out : Products}
    {names : List Bytes} {inventory : Bytes} (h : BuildParts p profile deps out names inventory)
    {d : Dependency} (hd : d ∈ deps) : ∃ count j raw v v1,
      validateRecord (some out.zsh) (some out.sieve) count j raw v (dependencyRecord d) = some v1 := by
  obtain ⟨records, w, hread, _, hwalks, _⟩ := cacheValidate_walks h.valid
  obtain ⟨hcount, hrest⟩ := h.read
  have hrecords := readRecords_encode validArity
    (fun r hr => ⟨h.fits hr, (cacheRecords_arity hr).1⟩) ([] : Bytes)
  rw [List.append_nil, h.count, ← hcount, ← hrest, hread] at hrecords
  cases hrecords
  exact ⟨_, hwalks.mem (List.mem_cons_of_mem _ (List.mem_append_left _ (List.mem_map_of_mem
    (mem_qsort.mpr hd))))⟩

/-- The validator takes a required role without a path only. -/
theorem validateRecord_config {zsh sieve : Option Bytes} {count i : ℕ} {raw : Bytes} {w w1 : Walk}
    {d : Dependency} (h : validateRecord zsh sieve count i raw w (dependencyRecord d) = some w1)
    (hrole : d.role = cstr "config.regex-catalogue") : d.path = [] := by
  have hne : cstr "config.regex-catalogue" ≠ cstr "config.address-normalization" ∧
      cstr "config.regex-catalogue" ≠ cstr "config.regex-qualification" := by decide
  have hfield : (dependencyRecord d).fields.getD 0 [] = d.role := rfl
  simp only [validateRecord] at h
  split at h
  · cases h
  · change validateDependency raw w (dependencyRecord d).fields = some w1 at h
    simp only [validateDependency] at h
    split at h
    · cases h
    · obtain ⟨v, hv, -⟩ := Option.map_eq_some_iff.mp h
      simp only [validateConfig, hfield, hrole, hne.1, hne.2, if_false, if_true] at hv
      split at hv
      · rename_i hok
        simp only [configOk, Bool.and_eq_true, beq_iff_eq] at hok
        exact hok.1.1
      · cases hv

theorem catalogue_nul : 0 ∉ cstr "config.regex-catalogue" := by decide

theorem stray_path : 0 ∉ cstr "x" := by decide

/-- A second record of a required role, with a path. -/
def stray : Dependency where
  role := cstr "config.regex-catalogue"
  path := cstr "x"
  present := true
  digest := digest []
  auxiliary := []
  role_nul := catalogue_nul
  path_nul := stray_path
  digest_length := digest_length []

theorem stray_length : (encodeRecord (dependencyRecord stray)).length ≤ 1000 := by
  have h1 : (cstr "1").length = 1 ∧ (cstr "config.regex-catalogue").length = 22 ∧
      (cstr "x").length = 1 := by decide
  simp only [encodeRecord, dependencyRecord, stray, List.flatMap_cons, List.flatMap_nil,
    List.length_append, List.length_nil, List.length_cons, encodeField, littleEndian_length,
    digest_length, if_true, h1]
  omega

theorem stray_distinct :
    (sampleDeps ++ [stray]).Pairwise fun x y => (x.role, x.path) ≠ (y.role, y.path) := by
  refine List.pairwise_append.mpr ⟨inventory_sampleDeps.distinct, List.pairwise_singleton .., ?_⟩
  intro d hd e he heq
  rw [List.mem_singleton.mp he] at heq
  have hpath : d.path = [] := by
    simp only [sampleDeps, List.mem_cons, List.not_mem_nil, or_false] at hd
    rcases hd with rfl | rfl | rfl <;> rfl
  rw [hpath] at heq
  exact List.cons_ne_nil _ _ (Prod.mk.inj heq).2.symm

/-- Keys, digests and required records are as they should be, and the build
reports a corrupt product: the second record of a required role has a path. -/
theorem stray_config_refused :
    policyParse samplePosix sampleSources = .ok samplePolicy ∧ profileParse [] = .ok sampleProfile ∧
      (∀ d ∈ sampleDeps ++ [stray], d.role ≠ [] ∧ (d.present = false → d.auxiliary = []) ∧
        (d.present = true → selfDigested d.role = true → d.digest = digest d.auxiliary)) ∧
      ((sampleDeps ++ [stray]).Pairwise fun x y => (x.role, x.path) ≠ (y.role, y.path)) ∧
      (∀ c ∈ requiredConfig, ∃ d ∈ sampleDeps ++ [stray],
        d.role = c.1 ∧ d.path = [] ∧ d.present = true ∧ d.auxiliary = c.2) ∧
      ∃ e, productsBuild samplePolicy sampleProfile (sampleDeps ++ [stray]) = .error e ∧ e.rc = 5 := by
  have hrole : ∀ d ∈ sampleDeps ++ [stray], d.role ≠ [] := by
    intro d hd
    rcases List.mem_append.mp hd with hd | hd
    · exact (inventory_sampleDeps.ok d hd).role
    · rw [List.mem_singleton.mp hd]
      exact List.cons_ne_nil _ _
  refine ⟨policyParse_sample, profileParse_sample, ?_, stray_distinct, ?_, ?_⟩
  · intro d hd
    refine ⟨hrole d hd, ?_⟩
    rcases List.mem_append.mp hd with hd | hd
    · exact ⟨(inventory_sampleDeps.ok d hd).absent, (inventory_sampleDeps.ok d hd).digest⟩
    · rw [List.mem_singleton.mp hd]
      exact ⟨(fun h => by cases h), fun _ _ => by simp only [stray]⟩
  · intro c hc
    obtain ⟨d, hd, heq⟩ := inventory_sampleDeps.required c hc
    exact ⟨d, List.mem_append_left _ hd, heq, (inventory_sampleDeps.ok d hd).config c hc heq⟩
  · obtain ⟨rules, z, s, _, hpolicy, hres, hnames, hclash, hemit, hsize⟩ := sample_reaches
      ((sampleDeps_append_length stray).trans (Nat.add_le_add_left stray_length 5000))
    obtain ⟨inventory, payload, _, _, hbuild⟩ := productsBuild_validates hres hrole stray_distinct
      (by decide) hnames hclash hemit hsize
    rw [← hpolicy] at hbuild
    cases hvalid : cacheValidate (cacheBytes (digest inventory) payload) (some z) (some s)
      (some (digest inventory)) with
    | error e => exact ⟨e, by rw [hbuild, hvalid]; rfl, by rw [cacheValidate_error hvalid]; rfl⟩
    | ok =>
      rw [hvalid] at hbuild
      obtain ⟨names, _, hparts⟩ := productsBuild_parts hbuild
      obtain ⟨_, _, _, _, _, hstep⟩ :=
        hparts.accepts (List.mem_append_right _ (List.mem_singleton_self stray))
      have hpath : stray.path = [] := validateRecord_config hstep rfl
      exact absurd hpath (by decide)

end JaroFilter
