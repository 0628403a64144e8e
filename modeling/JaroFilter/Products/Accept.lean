import JaroFilter.Products.Cache
import JaroFilter.Sieve.Emitted

/-!
# The validator accepts what the compiler writes (`cache.c:84-320`)

The record walk of `jf_cache_validate` followed over the records of
`jf_products_build`: one step lemma for each tag, a run lemma for the
dependencies and one for the rules, and the header around them.
-/

namespace JaroFilter

open Lib

/-! ### Field texts -/

/-- Only zero starts with a zero. -/
theorem decimalText_head {n : ℕ} (h : n ≠ 0) : (decimalText n).head? ≠ some 48 := by
  rw [decimalText, if_neg h, List.head?_map, List.head?_reverse]
  have hne : Nat.digits 10 n ≠ [] := Nat.digits_ne_nil_iff_ne_zero.mpr h
  have hlast := Nat.getLast_digit_ne_zero 10 h
  have hlt : (Nat.digits 10 n).getLast hne < 10 :=
    Nat.digits_lt_base (by omega) (List.getLast_mem hne)
  have hall : ∀ d : Fin 10, d.val ≠ 0 → UInt8.ofNat (48 + d.val) ≠ 48 := by decide
  rw [List.getLast?_eq_some_getLast hne, Option.map_some]
  intro heq
  exact hall ⟨_, hlt⟩ hlast (Option.some.inj heq)

theorem decimal_decimalText {n : ℕ} (h : n ≤ sizeMax) : decimal (decimalText n) = some n := by
  have hno : ¬ (decimalText n = [] ∨
      (1 < (decimalText n).length ∧ (decimalText n).head? = some 48)) := by
    rintro (hnil | ⟨hlen, hhead⟩)
    · exact decimalText_ne_nil n hnil
    · by_cases h0 : n = 0
      · subst h0
        exact absurd hlen (by decide)
      · exact decimalText_head h0 hhead
  rw [decimal, if_neg hno, decimalLoop_decimalText h]

theorem cachedNumber_decimalText {n : ℕ} (h : n ≤ sizeMax) : cachedNumber (decimalText n) = n := by
  have hmod : ∀ (l : Bytes) (m : ℕ), l.foldl (fun n c => n * 10 + (c.toNat - 48)) m % 2 ^ 64 =
      l.foldl (fun n c => (n * 10 + (c.toNat - 48)) % 2 ^ 64) (m % 2 ^ 64) := by
    intro l
    induction l with
    | nil => exact fun m => rfl
    | cons d l ih =>
      intro m
      rw [List.foldl_cons, List.foldl_cons, ih]
      congr 1
      omega
  have hvalue := decimalValue_decimalText n
  unfold decimalValue at hvalue
  have hfold := hmod (decimalText n) 0
  rw [hvalue] at hfold
  unfold cachedNumber
  rw [Nat.zero_mod] at hfold
  rw [← hfold, Nat.mod_eq_of_lt]
  unfold sizeMax at h
  omega

theorem kindOfName_kindName (k : Kind) : kindOfName (kindName k) = k := by
  cases k <;> decide

theorem kindName_nul (k : Kind) : 0 ∉ kindName k := by
  cases k <;> decide

theorem safeText_destination {s : Bytes} (h : destination s = true) (hu : validUtf8 s = true) :
    safeText s true = true := by
  obtain ⟨hne, hhead, hplain, hcomp⟩ := destination_iff.mp h
  have hall : (s.all fun c => !isControl c) = true := by
    simpa only [List.all_eq_true, Bool.not_eq_true'] using hplain
  simp [safeText, hne, hu, hhead, hall, hcomp]

theorem safeText_plain {s : Bytes} (h : PlainText s) (hne : s ≠ []) : safeText s false = true := by
  have hall : (s.all fun c => !isControl c) = true := by
    simpa only [List.all_eq_true, Bool.not_eq_true'] using h.plain
  simp [safeText, hne, h.utf8, hall]

theorem sha256Hex_lowerHex (s : Sha256) :
    (sha256Hex s).length = 64 ∧ (sha256Hex s).all isLowerHex = true := by
  obtain ⟨bytes, hlen, heq⟩ := sha256Hex_eq s
  rw [heq, digestHex_length, hlen, List.all_eq_true]
  exact ⟨rfl, digestHex_lowerHex bytes⟩

/-- An identifier of a named origin and 64 digits. -/
theorem cacheId_of_origin {origin : Bytes}
    (ho : origin ∈ [cstr "r", cstr "known", cstr "blacklist", cstr "own"]) (s : Sha256) :
    cacheId (origin ++ cstr ":" ++ sha256Hex s) = true := by
  obtain ⟨hlen, hall⟩ := sha256Hex_lowerHex s
  have hcolon : ∀ o ∈ [cstr "r", cstr "known", cstr "blacklist", cstr "own"],
      ∀ c ∈ o, (c != 58) = true := by decide +kernel
  have hsep : cstr ":" = [58] := by decide
  have hbefore : (origin ++ cstr ":" ++ sha256Hex s).takeWhile (· != 58) = origin := by
    rw [hsep, List.append_assoc, List.takeWhile_append_of_pos (hcolon origin ho)]
    simp
  have hlength : (origin ++ cstr ":" ++ sha256Hex s).length = origin.length + 65 := by
    rw [hsep, List.length_append, List.length_append, hlen]
    rfl
  have hdrop : (origin ++ cstr ":" ++ sha256Hex s).drop (origin.length + 1) = sha256Hex s := by
    rw [hsep, List.append_assoc, List.drop_append]
    simp
  unfold cacheId
  split
  · rfl
  · simp only [hbefore, hlength, hdrop, hall]
    have h1 : ¬ (origin.length = origin.length + 65 ∨ origin.length + 65 - origin.length ≠ 65) := by
      omega
    simp only [List.mem_cons, List.not_mem_nil, or_false] at ho
    simp only [h1, if_false, Bool.and_true, Bool.or_eq_true, beq_iff_eq]
    rcases ho with h | h | h | h
    · exact Or.inl (Or.inl (Or.inl h))
    · exact Or.inl (Or.inl (Or.inr h))
    · exact Or.inl (Or.inr h)
    · exact Or.inr h

theorem cacheId_identify (r : Rule) : cacheId (identify r) = true := by
  unfold identify
  split
  · rename_i hsel
    rcases hsel with h | h | h <;> rw [h] <;> decide
  · split
    · rename_i hsel
      refine cacheId_of_origin ?_ _
      simp only [List.mem_cons, List.not_mem_nil, or_false]
      exact Or.inr hsel
    · exact @cacheId_of_origin (cstr "r") (by simp) _

theorem identify_nul (r : Rule) : 0 ∉ identify r := by
  have hhex : ∀ s : Sha256, 0 ∉ sha256Hex s := by
    intro s h
    obtain ⟨bytes, _, heq⟩ := sha256Hex_eq s
    rw [heq] at h
    exact absurd (digestHex_lowerHex bytes 0 h) (by decide)
  unfold identify
  split
  · rename_i hsel
    rcases hsel with h | h | h <;> rw [h] <;> decide
  · split
    · rename_i hsel
      have hpre : 0 ∉ r.selector ++ cstr ":" := by
        rcases hsel with h | h | h <;> rw [h] <;> decide
      intro h
      rcases List.mem_append.mp h with h | h
      · exact hpre h
      · exact hhex _ h
    · intro h
      rcases List.mem_append.mp h with h | h
      · exact absurd h (by decide)
      · exact hhex _ h

/-! ### The walk over records -/

/-- The record loop on records instead of bytes. -/
def walkRecords (zsh sieve : Option Bytes) (count : ℕ) : ℕ → Walk → List Record → Option Walk
  | _, w, [] => some w
  | i, w, r :: rs =>
    match validateRecord zsh sieve count i (encodeRecord r) w r with
    | none => none
    | some w => walkRecords zsh sieve count (i + 1) w rs

theorem validateLoop_encode (zsh sieve : Option Bytes) (count : ℕ) {records : List Record}
    (h : ∀ r ∈ records, r.Fits ∧ validArity r.tag r.fields.length = true) (i : ℕ) (w : Walk)
    (rest : Bytes) :
    validateLoop zsh sieve count records.length i w (encodeRecords records ++ rest) =
      (walkRecords zsh sieve count i w records).map fun w => (w, rest) := by
  induction records generalizing i w with
  | nil => rfl
  | cons r rs ih =>
    obtain ⟨hf, ha⟩ := h r (by simp)
    have ih := ih fun q hq => h q (by simp [hq])
    have happ : encodeRecords (r :: rs) ++ rest = encodeRecord r ++ (encodeRecords rs ++ rest) := by
      rw [encodeRecords_cons, List.append_assoc]
    have hraw : (encodeRecord r ++ (encodeRecords rs ++ rest)).take
        ((encodeRecord r ++ (encodeRecords rs ++ rest)).length - (encodeRecords rs ++ rest).length) =
        encodeRecord r := by
      rw [List.length_append, Nat.add_sub_cancel, List.take_left]
    simp only [List.length_cons, validateLoop, happ, readRecord_encode _ hf ha, hraw, walkRecords]
    cases validateRecord zsh sieve count i (encodeRecord r) w r with
    | none => rfl
    | some w => exact ih _ _

/-! ### Dependency records -/

/-- The configuration records every inventory holds, with the values
`jf_snapshot_collect` writes (`snapshot.c:412-419`). -/
def requiredConfig : List (Bytes × Bytes) := [
  (cstr "config.address-normalization", addressNormalization),
  (cstr "config.regex-qualification", regexQualification),
  (cstr "config.regex-catalogue", regexCatalogue)]

/-- One record of an inventory. -/
structure DependencyOk (d : Dependency) : Prop where
  role : d.role ≠ []
  absent : d.present = false → d.auxiliary = []
  digest : d.present = true → selfDigested d.role = true → d.digest = JaroFilter.digest d.auxiliary
  config : ∀ c ∈ requiredConfig, d.role = c.1 → d.path = [] ∧ d.present = true ∧ d.auxiliary = c.2

/-- A dependency list with distinct keys and its required records. -/
structure Inventory (deps : List Dependency) : Prop where
  ok : ∀ d ∈ deps, DependencyOk d
  distinct : deps.Pairwise fun x y => (x.role, x.path) ≠ (y.role, y.path)
  required : ∀ c ∈ requiredConfig, ∃ d ∈ deps, d.role = c.1

/-- The walk after an accepted dependency. -/
def noteDependency (w : Walk) (d : Dependency) : Walk where
  previousRole := d.role
  previousPath := d.path
  hash := sha256Update w.hash (encodeRecord (dependencyRecord d))
  ordinal := w.ordinal
  priorStage := w.priorStage
  dependencies := w.dependencies + 1
  phase := w.phase
  fallback := w.fallback
  bounce := w.bounce
  spam := w.spam
  regexProfile := w.regexProfile
  qualification := w.qualification || d.role == cstr "config.regex-qualification"
  catalogue := w.catalogue || d.role == cstr "config.regex-catalogue"
  normalization := w.normalization || d.role == cstr "config.address-normalization"

theorem validateConfig_eq {w : Walk} {d : Dependency} (hd : DependencyOk d) :
    validateConfig w (dependencyRecord d).fields = some { w with
      qualification := w.qualification || d.role == cstr "config.regex-qualification"
      catalogue := w.catalogue || d.role == cstr "config.regex-catalogue"
      normalization := w.normalization || d.role == cstr "config.address-normalization" } := by
  have hconfig : ∀ c ∈ requiredConfig, d.role = c.1 → ∀ checked,
      configOk (dependencyRecord d).fields checked c.2 = true := by
    intro c hc hrole checked
    obtain ⟨hpath, hpresent, haux⟩ := hd.config c hc hrole
    simp [configOk, dependencyRecord, hpath, hpresent, haux]
  have hne : cstr "config.address-normalization" ≠ cstr "config.regex-qualification" ∧
      cstr "config.address-normalization" ≠ cstr "config.regex-catalogue" ∧
      cstr "config.regex-qualification" ≠ cstr "config.regex-catalogue" := by decide
  obtain ⟨h12, h13, h23⟩ := hne
  have hrole : (dependencyRecord d).fields.getD 0 [] = d.role := rfl
  unfold validateConfig
  simp only [hrole]
  by_cases h1 : d.role = cstr "config.address-normalization"
  · have hok := hconfig (cstr "config.address-normalization", addressNormalization)
      (by simp [requiredConfig]) h1 true
    simp [h1, hok, h12, h13]
  · by_cases h2 : d.role = cstr "config.regex-qualification"
    · have hok := hconfig (cstr "config.regex-qualification", regexQualification)
        (by simp [requiredConfig]) h2 w.regexProfile
      simp [h2, hok, h12.symm, h23]
    · by_cases h3 : d.role = cstr "config.regex-catalogue"
      · have hok := hconfig (cstr "config.regex-catalogue", regexCatalogue)
          (by simp [requiredConfig]) h3 w.regexProfile
        simp [h3, hok, h13.symm, h23.symm]
      · have hb1 := beq_eq_false_iff_ne.mpr h1
        have hb2 := beq_eq_false_iff_ne.mpr h2
        have hb3 := beq_eq_false_iff_ne.mpr h3
        simp [h1, h2, h3, hb1, hb2, hb3]

/-- One dependency record is accepted after every smaller key. -/
theorem validateRecord_dependency (zsh sieve : Option Bytes) (count i : ℕ) {w : Walk}
    {d : Dependency} (hd : DependencyOk d) (hphase : w.phase = 1)
    (hmax : w.dependencies + 1 ≤ dependencyMax)
    (horder : w.previousRole ≠ [] →
      (strcmp w.previousRole d.role).then (strcmp w.previousPath d.path) = .lt) :
    validateRecord zsh sieve count i (encodeRecord (dependencyRecord d)) w (dependencyRecord d) =
      some (noteDependency w d) := by
  have hflag : 0 ∉ cstr "1" ∧ 0 ∉ cstr "0" ∧ cstr "1" ≠ cstr "0" := by decide
  have htext : (textFields (dependencyRecord d)).any (fun f => f.contains 0) = false := by
    have h1 := d.role_nul
    have h2 := d.path_nul
    cases hp : d.present <;> simp [textFields, dependencyRecord, hp, h1, h2, hflag.1, hflag.2.1]
  have hnext : ¬ (w.previousRole ≠ [] ∧ (strcmp w.previousRole d.role = .gt ∨
      (strcmp w.previousRole d.role = .eq ∧ (strcmp w.previousPath d.path).isGE = true))) := by
    rintro ⟨hne, hc⟩
    have hlt := horder hne
    rcases hc with hc | ⟨hc, hge⟩
    · simp [hc] at hlt
    · simp [hc] at hlt
      simp [hlt] at hge
  have hstored : ¬ ¬ ((((dependencyRecord d).fields.getD 2 [] == cstr "1") = true ∧
      ((dependencyRecord d).fields.getD 3 []).length = 32) ∨
      (((dependencyRecord d).fields.getD 2 [] == cstr "0") = true ∧
        (dependencyRecord d).fields.getD 3 [] = [])) := by
    cases hp : d.present
    · simp [dependencyRecord, hp]
    · simp [dependencyRecord, hp, d.digest_length]
  have haux : ¬ (((dependencyRecord d).fields.getD 2 [] == cstr "0") = true ∧
      (dependencyRecord d).fields.getD 4 [] ≠ []) := by
    cases hp : d.present
    · simp [dependencyRecord, hp, hd.absent hp]
    · simp [dependencyRecord, hp, hflag.2.2]
  have hdigest : ¬ (((dependencyRecord d).fields.getD 2 [] == cstr "1") = true ∧
      selfDigested ((dependencyRecord d).fields.getD 0 []) = true ∧
      digest ((dependencyRecord d).fields.getD 4 []) ≠ (dependencyRecord d).fields.getD 3 []) := by
    cases hp : d.present
    · simp [dependencyRecord, hp, hflag.2.2.symm]
    · rintro ⟨_, hself, hneq⟩
      exact hneq (by simpa [dependencyRecord, hp] using (hd.digest hp hself).symm)
  have hmax : ¬ dependencyMax < w.dependencies + 1 := by omega
  have htag : (dependencyRecord d).tag = 68 := rfl
  have hrole : (dependencyRecord d).fields.getD 0 [] = d.role := rfl
  have hpath : (dependencyRecord d).fields.getD 1 [] = d.path := rfl
  rw [hrole] at hdigest
  have hno : ¬ (dependencyMax < w.dependencies + 1 ∨ w.phase ≠ 1 ∨ d.role = [] ∨
      (w.previousRole ≠ [] ∧ (strcmp w.previousRole d.role = .gt ∨
        (strcmp w.previousRole d.role = .eq ∧ (strcmp w.previousPath d.path).isGE = true))) ∨
      ¬ ((((dependencyRecord d).fields.getD 2 [] == cstr "1") = true ∧
        ((dependencyRecord d).fields.getD 3 []).length = 32) ∨
        (((dependencyRecord d).fields.getD 2 [] == cstr "0") = true ∧
          (dependencyRecord d).fields.getD 3 [] = [])) ∨
      (((dependencyRecord d).fields.getD 2 [] == cstr "0") = true ∧
        (dependencyRecord d).fields.getD 4 [] ≠ []) ∨
      (((dependencyRecord d).fields.getD 2 [] == cstr "1") = true ∧ selfDigested d.role = true ∧
        digest ((dependencyRecord d).fields.getD 4 []) ≠ (dependencyRecord d).fields.getD 3 [])) := by
    rintro (h | h | h | h | h | h | h)
    · exact hmax h
    · exact h hphase
    · exact hd.role h
    · exact hnext h
    · exact hstored h
    · exact haux h
    · exact hdigest h
  have h77 : (68 : Byte) ≠ 77 := by decide
  simp only [validateRecord, htext, Bool.false_eq_true, if_false, htag, h77, if_true,
    validateDependency, hrole, hpath, if_neg hno, validateConfig_eq hd, Option.map_some,
    noteDependency]

/-- The dependencies in the order of their keys are all accepted. -/
theorem walkRecords_dependencies (zsh sieve : Option Bytes) (count : ℕ) {ds : List Dependency}
    (rs : List Record) {i : ℕ} {w : Walk} (hok : ∀ d ∈ ds, DependencyOk d) (hphase : w.phase = 1)
    (hmax : w.dependencies + ds.length ≤ dependencyMax)
    (hsorted : ds.Pairwise fun x y => depCompare x y = .lt)
    (horder : w.previousRole ≠ [] →
      ∀ d ∈ ds, (strcmp w.previousRole d.role).then (strcmp w.previousPath d.path) = .lt) :
    walkRecords zsh sieve count i w (ds.map dependencyRecord ++ rs) =
      walkRecords zsh sieve count (i + ds.length) (ds.foldl noteDependency w) rs := by
  induction ds generalizing i w with
  | nil => rfl
  | cons d ds ih =>
    obtain ⟨hfirst, hrest⟩ := List.pairwise_cons.mp hsorted
    simp only [List.length_cons] at hmax
    have hstep := validateRecord_dependency zsh sieve count i
      (hok d (by simp)) hphase (by omega) fun hne => horder hne d (by simp)
    simp only [List.map_cons, List.cons_append, walkRecords, hstep, List.foldl_cons,
      List.length_cons]
    have hcount : (noteDependency w d).dependencies + ds.length ≤ dependencyMax := by
      simp only [noteDependency]
      omega
    have hindex : i + (ds.length + 1) = i + 1 + ds.length := by omega
    rw [hindex]
    exact ih (fun e he => hok e (by simp [he])) hphase hcount hrest fun _ e he => hfirst e he

/-- The fields a run of dependencies changes, and those it leaves alone. -/
structure Noted (ds : List Dependency) (w w' : Walk) : Prop where
  phase : w'.phase = w.phase
  ordinal : w'.ordinal = w.ordinal
  priorStage : w'.priorStage = w.priorStage
  bounce : w'.bounce = w.bounce
  spam : w'.spam = w.spam
  fallback : w'.fallback = w.fallback
  regexProfile : w'.regexProfile = w.regexProfile
  hash : w'.hash = sha256Update w.hash (encodeRecords (ds.map dependencyRecord))
  qualification : w'.qualification =
    (w.qualification || ds.any fun d => d.role == cstr "config.regex-qualification")
  catalogue : w'.catalogue =
    (w.catalogue || ds.any fun d => d.role == cstr "config.regex-catalogue")
  normalization : w'.normalization =
    (w.normalization || ds.any fun d => d.role == cstr "config.address-normalization")

theorem noted_foldl (ds : List Dependency) {w : Walk} (hw : w.hash.Ready) :
    Noted ds w (ds.foldl noteDependency w) := by
  induction ds generalizing w with
  | nil => exact ⟨rfl, rfl, rfl, rfl, rfl, rfl, rfl, (sha256Update_nil hw).symm, by simp, by simp, by simp⟩
  | cons d ds ih =>
    have hready : (noteDependency w d).hash.Ready := sha256Update_ready _ _ hw
    have h := ih hready
    rw [List.foldl_cons]
    refine ⟨h.phase, h.ordinal, h.priorStage, h.bounce, h.spam, h.fallback, h.regexProfile, ?_, ?_,
      ?_, ?_⟩
    · rw [h.hash, List.map_cons, encodeRecords_cons, sha256Update_append _ _ _ hw]
      rfl
    · rw [h.qualification, List.any_cons, ← Bool.or_assoc]
      rfl
    · rw [h.catalogue, List.any_cons, ← Bool.or_assoc]
      rfl
    · rw [h.normalization, List.any_cons, ← Bool.or_assoc]
      rfl

/-! ### Rule records -/

/-- A rule as the compiler stores it, with its mailbox. -/
structure Storable (p : Profile) (x : Rule × Bytes) : Prop where
  ok : RuleOk x.1
  id : x.1.id = identify x.1
  exported : Exported p x.1
  mailbox : PlainText x.2 ∧ x.2 ≠ []

theorem Storable.mailbox_nul {p : Profile} {x : Rule × Bytes} (h : Storable p x) : 0 ∉ x.2 :=
  validUtf8_not_nul h.mailbox.1.utf8

/-- The walk after an accepted rule. -/
def noteRule (w : Walk) (r : Rule) : Walk where
  previousRole := w.previousRole
  previousPath := w.previousPath
  hash := w.hash
  ordinal := w.ordinal + 1
  priorStage := r.stage
  dependencies := w.dependencies
  phase := 2
  fallback := w.fallback + (if r.kind = .always then 1 else 0)
  bounce := w.bounce + (if r.kind = .senderContains then 1 else 0)
  spam := w.spam + (if r.kind = .spamIs then 1 else 0)
  regexProfile := w.regexProfile
  qualification := w.qualification
  catalogue := w.catalogue
  normalization := w.normalization

theorem noUpper_of_fold {s : Bytes} (h : foldBytes s = s) : noUpper s = true := by
  rw [noUpper, List.all_eq_true]
  intro c hc
  have hfix : foldByte c = c := by
    have hmap : s.map foldByte = s.map id := by rw [List.map_id]; exact h
    exact List.map_inj_left.mp hmap c hc
  have hupper := foldByte_not_upper c
  rw [hfix] at hupper
  rw [Bool.not_eq_true', ← Bool.not_eq_true, Bool.and_eq_true, decide_eq_true_eq, decide_eq_true_eq]
  exact hupper

theorem ruleRecord_text {p : Profile} {x : Rule × Bytes} (h : Storable p x) (i : ℕ) :
    (textFields (ruleRecord i x.1 x.2)).any (fun f => f.contains 0) = false := by
  have hlogical := validUtf8_not_nul h.ok.logical_utf8
  have hlocal : 0 ∉ x.1.localDir := by
    rw [h.ok.localDir]
    split
    · decide
    · exact hlogical
  have haction : 0 ∉ x.1.action := by
    rw [h.ok.action]
    decide
  have hid : 0 ∉ x.1.id := by
    rw [h.id]
    exact identify_nul x.1
  simp [textFields, ruleRecord, decimalText_nul, kindName_nul, hid, h.ok.predicate_nul, hlogical,
    hlocal, h.mailbox_nul, h.ok.source_nul, haction]

theorem kindName_injective : Function.Injective kindName :=
  Function.LeftInverse.injective kindOfName_kindName

/-- Comparing names compares kinds. -/
theorem kindName_eq_iff (k l : Kind) : (kindName k = kindName l) = (k = l) :=
  propext kindName_injective.eq_iff

@[simp] theorem kindName_eq_address (k : Kind) : (kindName k = cstr "address") = (k = .address) :=
  kindName_eq_iff k .address

@[simp] theorem kindName_eq_domainApex (k : Kind) : (kindName k = cstr "domain-apex") = (k = .domainApex) :=
  kindName_eq_iff k .domainApex

@[simp] theorem kindName_eq_domainSubdomains (k : Kind) : (kindName k = cstr "domain-subdomains") = (k = .domainSubdomains) :=
  kindName_eq_iff k .domainSubdomains

@[simp] theorem kindName_eq_ere (k : Kind) : (kindName k = cstr "ere") = (k = .ere) :=
  kindName_eq_iff k .ere

@[simp] theorem kindName_eq_senderContains (k : Kind) : (kindName k = cstr "sender-contains") = (k = .senderContains) :=
  kindName_eq_iff k .senderContains

@[simp] theorem kindName_eq_spamIs (k : Kind) : (kindName k = cstr "spam-is") = (k = .spamIs) :=
  kindName_eq_iff k .spamIs

@[simp] theorem kindName_eq_always (k : Kind) : (kindName k = cstr "always") = (k = .always) :=
  kindName_eq_iff k .always

/-- The identifier of a builtin is its name. -/
theorem Storable.builtin_id {p : Profile} {x : Rule × Bytes} (h : Storable p x) {sel : Bytes}
    (hk : builtinSelector x.1.kind = some sel)
    (hs : sel = cstr "bounce" ∨ sel = cstr "spam" ∨ sel = cstr "unsorted") :
    x.1.id = cstr "builtin:" ++ sel := by
  have hsel := h.ok.builtin_key hk
  rw [h.id, identify, if_pos (by rw [hsel]; exact hs), hsel]

theorem normal_address_bounds {p : Bytes} (h : Normal .address p) : p ≠ [] ∧ p.length ≤ lineMax := by
  obtain ⟨hlen, l, d, _, _, heq⟩ := normalizeMailbox_eq_some_iff.mp h.1
  refine ⟨?_, hlen⟩
  rw [heq, canonical]
  split <;> simp

theorem RuleOk.fields_le {r : Rule} (h : RuleOk r) : r.fields ≤ 16 := by
  have hplaced := h.placed
  cases hk : r.kind <;> rw [hk] at hplaced <;>
    simp only [placements, List.mem_cons, Prod.mk.injEq, List.not_mem_nil, or_false] at hplaced <;>
    omega

/-- What the predicate checks add to the walk. -/
def notePredicate (w : Walk) (k : Kind) : Walk :=
  { w with
    fallback := w.fallback + (if k = .always then 1 else 0)
    bounce := w.bounce + (if k = .senderContains then 1 else 0)
    spam := w.spam + (if k = .spamIs then 1 else 0) }

theorem validatePredicate_rule {p : Profile} {x : Rule × Bytes} (h : Storable p x) {w : Walk}
    (last : Bool)
    (hregex : x.1.kind = .ere →
      w.regexProfile = true ∧ w.qualification = true ∧ w.catalogue = true)
    (hbounce : x.1.kind = .senderContains → w.bounce = 0)
    (hspam : x.1.kind = .spamIs → w.spam = 0)
    (hfallback : x.1.kind = .always → w.fallback = 0 ∧ last = true) :
    validatePredicate w last (kindName x.1.kind) x.1.id x.1.predicate x.1.stage x.1.fields =
      some (notePredicate w x.1.kind) := by
  obtain ⟨r, mailbox⟩ := x
  have hplaced := h.ok.placed
  have hnormal := h.ok.normal
  have hbuiltin := fun sel => @Storable.builtin_id _ _ h sel
  simp only at hplaced hnormal hregex hbounce hspam hfallback hbuiltin ⊢
  simp only [validatePredicate, kindName_eq_address, kindName_eq_domainApex,
    kindName_eq_domainSubdomains, kindName_eq_ere, kindName_eq_senderContains, kindName_eq_spamIs,
    kindName_eq_always]
  cases hk : r.kind <;> rw [hk] at hplaced hnormal hregex hbounce hspam hfallback hbuiltin <;>
    simp only [placements, List.mem_cons, Prod.mk.injEq, List.not_mem_nil, or_false] at hplaced
  case address =>
    have hplace : addressPlace r.stage r.fields = true := by
      rcases hplaced with ⟨h1, h2⟩ | ⟨h1, h2⟩ | ⟨h1, h2⟩ | ⟨h1, h2⟩ | ⟨h1, h2⟩ <;> rw [h1, h2] <;> rfl
    obtain ⟨hne, hlen⟩ := normal_address_bounds hnormal
    have hlen : ¬ lineMax < r.predicate.length := by omega
    simp [hne, hlen, hnormal.2.2, hplace, hnormal.1, noUpper_of_fold hnormal.2.1, notePredicate]
  case domainApex =>
    have hplace : addressPlace r.stage r.fields = true := by
      rcases hplaced with ⟨h1, h2⟩ | ⟨h1, h2⟩ | ⟨h1, h2⟩ <;> rw [h1, h2] <;> rfl
    have hstage : r.stage = 3 ∨ r.stage = 4 ∨ r.stage = 5 := by omega
    have hne := validDomain_ne_nil hnormal.1
    have hsize := validDomain_length hnormal.1
    have hlen : ¬ lineMax < r.predicate.length := by
      have hmax : 253 ≤ lineMax := by decide
      omega
    simp [hne, hlen, validUtf8_domain hnormal.1, hplace, hstage, hnormal.1,
      noUpper_of_fold hnormal.2, notePredicate]
  case domainSubdomains =>
    obtain ⟨d, heq, hd, hfold⟩ := hnormal
    have hplace : addressPlace r.stage r.fields = true := by
      rcases hplaced with ⟨h1, h2⟩ | ⟨h1, h2⟩ | ⟨h1, h2⟩ <;> rw [h1, h2] <;> rfl
    have hstage : r.stage = 3 ∨ r.stage = 4 ∨ r.stage = 5 := by omega
    have hne := validDomain_ne_nil hd
    have hsize := validDomain_length hd
    have hstar : cstr "*." = [42, 46] := by decide
    have hutf : validUtf8 (42 :: 46 :: d) = true := by
      rw [validUtf8_cons_ascii (by decide) (by decide), validUtf8_cons_ascii (by decide) (by decide)]
      exact validUtf8_domain hd
    have hlen : ¬ lineMax < d.length + 1 + 1 := by
      have hmax : 255 ≤ lineMax := by decide
      omega
    simp [heq, hstar, hlen, hutf, hplace, hstage, hd, hne, noUpper_of_fold hfold, notePredicate]
  case ere =>
    obtain ⟨h1, h2, h3⟩ := hregex rfl
    obtain ⟨hne, hlen, _⟩ := hnormal
    have hlen : ¬ lineMax < r.predicate.length := by omega
    have hsupported := (h.exported.regex hk).2
    simp only at hsupported
    have hnote : notePredicate w .ere = w := rfl
    rw [hnote]
    simp [h1, h2, h3, hne, hlen, hplaced, hsupported]
  case senderContains =>
    have hp : r.predicate = cstr "mailman-bounce" := hnormal
    have hid := hbuiltin (cstr "bounce") rfl (Or.inl rfl)
    have hname : cstr "builtin:" ++ cstr "bounce" = cstr "builtin:bounce" := by decide
    simp [hplaced, hbounce rfl, hid, hname, hp, notePredicate]
  case spamIs =>
    have hp : r.predicate = cstr "YES" := hnormal
    have hid := hbuiltin (cstr "spam") rfl (Or.inr (Or.inl rfl))
    have hname : cstr "builtin:" ++ cstr "spam" = cstr "builtin:spam" := by decide
    simp [hplaced, hspam rfl, hid, hname, hp, notePredicate]
  case always =>
    have hp : r.predicate = [] := hnormal
    have hid := hbuiltin (cstr "unsorted") rfl (Or.inr (Or.inr rfl))
    have hname : cstr "builtin:" ++ cstr "unsorted" = cstr "builtin:unsorted" := by decide
    obtain ⟨h0, hl⟩ := hfallback rfl
    simp [hplaced, h0, hl, hid, hname, hp, notePredicate]

/-- One rule record is accepted in its place. -/
theorem validateRecord_rule (zsh sieve : Option Bytes) (count i : ℕ) {p : Profile}
    {x : Rule × Bytes} (h : Storable p x) {w : Walk} (raw : Bytes) (hphase : w.phase ≠ 0)
    (hmax : w.ordinal + 1 ≤ ruleRecordMax) (hstage : w.priorStage ≤ x.1.stage)
    (hregex : x.1.kind = .ere →
      w.regexProfile = true ∧ w.qualification = true ∧ w.catalogue = true)
    (hbounce : x.1.kind = .senderContains → w.bounce = 0)
    (hspam : x.1.kind = .spamIs → w.spam = 0)
    (hfallback : x.1.kind = .always → w.fallback = 0 ∧ i + 1 = count) :
    validateRecord zsh sieve count i raw w (ruleRecord w.ordinal x.1 x.2) =
      some (noteRule w x.1) := by
  have hlimit : ruleRecordMax ≤ sizeMax ∧ inputMax ≤ sizeMax ∧ 16 ≤ sizeMax := by decide
  obtain ⟨hl1, hl2, hl3⟩ := hlimit
  obtain ⟨hs1, hs8⟩ := h.ok.stage_le
  have hmask : x.1.fields ≤ 16 := h.ok.fields_le
  have hline := h.ok.line
  have hlocal : safeText x.1.localDir true = true := by
    rw [h.ok.localDir]
    split
    · decide
    · exact safeText_destination h.ok.logical h.ok.logical_utf8
  have hlogical := safeText_destination h.ok.logical h.ok.logical_utf8
  have hmailbox := safeText_plain h.mailbox.1 h.mailbox.2
  have hid : cacheId x.1.id = true := by
    rw [h.id]
    exact cacheId_identify x.1
  have htag : (ruleRecord w.ordinal x.1 x.2).tag = 82 := rfl
  have h77 : (82 : Byte) ≠ 77 := by decide
  have h68 : (82 : Byte) ≠ 68 := by decide
  have hpred := validatePredicate_rule h (i + 1 == count)
    (w := { w with ordinal := w.ordinal + 1, phase := 2, priorStage := x.1.stage }) hregex hbounce
    hspam fun hk => ⟨(hfallback hk).1, by simp [(hfallback hk).2]⟩
  simp only [validateRecord, ruleRecord_text h, Bool.false_eq_true, if_false, htag, h77, h68,
    validateRule]
  simp only [ruleRecord, List.getD_cons_zero, List.getD_cons_succ,
    decimal_decimalText (show w.ordinal + 1 ≤ sizeMax by omega),
    decimal_decimalText (show x.1.stage ≤ sizeMax by omega),
    decimal_decimalText (show x.1.fields ≤ sizeMax by omega),
    decimal_decimalText (show x.1.line ≤ sizeMax by omega)]
  have hno : ¬ (w.phase = 0 ∨ w.ordinal + 1 ≠ w.ordinal + 1 ∨ ruleRecordMax < w.ordinal + 1 ∨
      x.1.stage < 1 ∨ 8 < x.1.stage ∨ x.1.stage < w.priorStage ∨ cacheId x.1.id = false ∨
      safeText x.1.logical true = false ∨ safeText x.1.localDir true = false ∨
      safeText x.2 false = false ∨ x.1.action ≠ cstr "move") := by
    rw [hid, hlogical, hlocal, hmailbox, h.ok.action]
    simp only [Bool.true_eq_false, ne_eq, not_true_eq_false, or_false, false_or]
    omega
  rw [if_neg hno, hpred]
  rfl

/-- The rules from position `i` on are all accepted: `w` has counted the
builtins before them. -/
theorem walkRecords_rules (zsh sieve : Option Bytes) (count : ℕ) {p : Profile}
    {xs : List (Rule × Bytes)} {i : ℕ} {w : Walk} (hok : ∀ x ∈ xs, Storable p x)
    (hphase : w.phase ≠ 0) (hcount : i + xs.length = count)
    (hmax : w.ordinal + xs.length ≤ ruleRecordMax)
    (hsorted : xs.Pairwise fun x y => x.1.stage ≤ y.1.stage)
    (hprior : ∀ x ∈ xs, w.priorStage ≤ x.1.stage)
    (hregex : ∀ x ∈ xs, x.1.kind = .ere →
      w.regexProfile = true ∧ w.qualification = true ∧ w.catalogue = true)
    (hbounce : w.bounce + xs.countP (fun x => x.1.kind == .senderContains) ≤ 1)
    (hspam : w.spam + xs.countP (fun x => x.1.kind == .spamIs) ≤ 1)
    (hfallback : w.fallback + xs.countP (fun x => x.1.kind == .always) ≤ 1)
    (hlast : ∀ init x rest, xs = init ++ x :: rest → x.1.kind = .always → rest = []) :
    walkRecords zsh sieve count i w (ruleRecords w.ordinal xs) =
      some ((xs.map Prod.fst).foldl noteRule w) := by
  induction xs generalizing i w with
  | nil => rfl
  | cons x xs ih =>
    obtain ⟨hfirst, hrest⟩ := List.pairwise_cons.mp hsorted
    simp only [List.length_cons, List.countP_cons] at hcount hmax hbounce hspam hfallback
    have hend : x.1.kind = .always → xs = [] := hlast [] x xs rfl
    have hstep := validateRecord_rule zsh sieve count i (hok x (by simp))
      (encodeRecord (ruleRecord w.ordinal x.1 x.2)) hphase (by omega)
      (hprior x (by simp)) (hregex x (by simp)) (fun hk => by simp [hk] at hbounce; omega)
      (fun hk => by simp [hk] at hspam; omega)
      (fun hk => by
        have hnil := hend hk
        subst hnil
        simp [hk] at hfallback hcount
        exact ⟨by omega, hcount⟩)
    simp only [ruleRecords, walkRecords, hstep, List.map_cons, List.foldl_cons]
    refine ih (fun y hy => hok y (by simp [hy])) (by simp [noteRule]) (by omega)
      (by simp only [noteRule]; omega) hrest hfirst (fun y hy => hregex y (by simp [hy])) ?_ ?_ ?_
      fun init y rest heq => hlast (x :: init) y rest (by rw [heq, List.cons_append])
    · cases hk : x.1.kind <;> simp [noteRule, hk] at hbounce ⊢ <;> omega
    · cases hk : x.1.kind <;> simp [noteRule, hk] at hspam ⊢ <;> omega
    · cases hk : x.1.kind <;> simp [noteRule, hk] at hfallback ⊢ <;> omega

/-- The fields a run of rules changes, and those the last checks read. -/
structure Counted (rules : List Rule) (w w' : Walk) : Prop where
  hash : w'.hash = w.hash
  regexProfile : w'.regexProfile = w.regexProfile
  qualification : w'.qualification = w.qualification
  catalogue : w'.catalogue = w.catalogue
  normalization : w'.normalization = w.normalization
  bounce : w'.bounce = w.bounce + rules.countP fun r => r.kind == .senderContains
  spam : w'.spam = w.spam + rules.countP fun r => r.kind == .spamIs
  fallback : w'.fallback = w.fallback + rules.countP fun r => r.kind == .always

theorem counted_foldl (rules : List Rule) (w : Walk) : Counted rules w (rules.foldl noteRule w) := by
  induction rules generalizing w with
  | nil => exact ⟨rfl, rfl, rfl, rfl, rfl, rfl, rfl, rfl⟩
  | cons r rules ih =>
    have h := ih (noteRule w r)
    rw [List.foldl_cons]
    refine ⟨h.hash, h.regexProfile, h.qualification, h.catalogue, h.normalization, ?_, ?_, ?_⟩
    · rw [h.bounce, List.countP_cons]
      simp only [noteRule, beq_iff_eq]
      omega
    · rw [h.spam, List.countP_cons]
      simp only [noteRule, beq_iff_eq]
      omega
    · rw [h.fallback, List.countP_cons]
      simp only [noteRule, beq_iff_eq]
      omega

/-! ### The whole payload -/

instance : Std.TransCmp depCompare :=
  inferInstanceAs (Std.TransCmp (compareLex (compareOn Dependency.role) (compareOn Dependency.path)))

theorem depCompare_eq_iff {x y : Dependency} :
    depCompare x y = .eq ↔ (x.role, x.path) = (y.role, y.path) := by
  simp only [depCompare, Ordering.then_eq_eq, strcmp_eq_iff, Prod.mk.injEq]

/-- Distinct keys are in strict order after sorting. -/
theorem sorted_of_distinct {deps : List Dependency}
    (h : deps.Pairwise fun x y => (x.role, x.path) ≠ (y.role, y.path)) :
    (qsort depCompare deps).Pairwise fun x y => depCompare x y = .lt := by
  have hle := pairwise_qsort depCompare deps
  have hne : (qsort depCompare deps).Pairwise fun x y => depCompare x y ≠ .eq := by
    refine ((qsort_perm depCompare deps).pairwise_iff ?_).mpr (h.imp ?_)
    · intro x y hxy heq
      exact hxy (Std.OrientedCmp.eq_symm heq)
    · intro x y hxy heq
      exact hxy (depCompare_eq_iff.mp heq)
  refine (hle.and hne).imp ?_
  intro x y hxy
  cases hc : depCompare x y with
  | lt => rfl
  | eq => exact absurd hc hxy.2
  | gt => simp [hc] at hxy

theorem Inventory.sorted {deps : List Dependency} (h : Inventory deps) :
    (qsort depCompare deps).Pairwise fun x y => depCompare x y = .lt :=
  sorted_of_distinct h.distinct

theorem inventoryLoop_ok {previous : Option Dependency} {b b' : Bytes} {ds : List Dependency}
    (h : inventoryLoop previous b ds = .ok b') :
    b' = b ++ encodeRecords (ds.map dependencyRecord) := by
  induction ds generalizing previous b with
  | nil =>
    cases h
    simp [encodeRecords]
  | cons d ds ih =>
    simp only [inventoryLoop] at h
    split at h
    · cases h
    · obtain ⟨b1, hb, h⟩ := bind_eq_ok_iff.mp h
      have hb1 : b1 = b ++ encodeRecord (dependencyRecord d) := by
        simp only [bytesAdd] at hb
        split at hb
        · cases hb
          rfl
        · cases hb
      rw [ih h, hb1, List.map_cons, encodeRecords_cons, List.append_assoc]

theorem bytesAddAll_ok {limit : ℕ} {b b' : Bytes} {pieces : List Bytes} (hb : b.length ≤ limit)
    (h : bytesAddAll limit b pieces = some b') : b' = b ++ pieces.flatten ∧ b'.length ≤ limit := by
  induction pieces generalizing b with
  | nil =>
    cases h
    exact ⟨by simp, hb⟩
  | cons s pieces ih =>
    simp only [bytesAddAll, bytesAdd] at h
    by_cases hfit : b.length ≤ limit ∧ s.length ≤ limit - b.length
    · simp only [hfit, and_self, if_true] at h
      obtain ⟨heq, hlen⟩ := ih (by simp only [List.length_append]; omega) h
      exact ⟨by rw [heq, List.flatten_cons, List.append_assoc], hlen⟩
    · simp only [hfit, if_false] at h
      cases h

theorem encodeField_length (f : Bytes) : f.length ≤ (encodeField f).length := by
  simp [encodeField]

/-- Records inside a bounded payload fit their size fields. -/
theorem fits_of_encode {records : List Record} {r : Record} (hr : r ∈ records)
    (hc : r.fields.length ≤ 12) (h : (encodeRecords records).length ≤ cacheMax) : r.Fits := by
  have hmax : cacheMax < 256 ^ 4 := by decide
  have hrecord : (encodeRecord r).length ≤ (encodeRecords records).length :=
    length_le_flatMap hr
  refine ⟨by omega, fun f hf => ?_⟩
  have hfield : (encodeField f).length ≤ (r.fields.flatMap encodeField).length :=
    length_le_flatMap hf
  have hf := encodeField_length f
  simp only [encodeRecord, List.length_cons, List.length_append] at hrecord
  omega

theorem mem_ruleRecords {i : ℕ} {xs : List (Rule × Bytes)} {r : Record} (h : r ∈ ruleRecords i xs) :
    r.tag = 82 ∧ r.fields.length = 12 := by
  induction xs generalizing i with
  | nil => simp [ruleRecords] at h
  | cons x xs ih =>
    rcases List.mem_cons.mp h with rfl | h
    · exact ⟨rfl, rfl⟩
    · exact ih h

/-- Every written record has its tag's number of fields. -/
theorem cacheRecords_arity {p : Profile} {zsh sieve : Bytes} {sorted : List Dependency}
    {items : List (Rule × Bytes)} {r : Record} (h : r ∈ cacheRecords p zsh sieve sorted items) :
    validArity r.tag r.fields.length = true ∧ r.fields.length ≤ 12 := by
  rcases List.mem_cons.mp h with rfl | h
  · exact ⟨rfl, by simp [metaRecord]⟩
  · rcases List.mem_append.mp h with h | h
    · obtain ⟨d, _, rfl⟩ := List.mem_map.mp h
      exact ⟨rfl, by simp [dependencyRecord]⟩
    · obtain ⟨htag, hlen⟩ := mem_ruleRecords h
      rw [htag, hlen]
      exact ⟨rfl, le_rfl⟩

theorem length_ruleRecords (i : ℕ) (xs : List (Rule × Bytes)) :
    (ruleRecords i xs).length = xs.length := by
  induction xs generalizing i with
  | nil => rfl
  | cons x xs ih => simp [ruleRecords, ih]

/-- The walk after the `M` record. -/
def metaWalk (p : Profile) : Walk :=
  { startWalk with phase := 1, regexProfile := p.id.text == ProfileId.pigeonhole.text }

theorem validateRecord_meta (p : Profile) (zsh sieve : Bytes) (count : ℕ) (raw : Bytes) :
    validateRecord (some zsh) (some sieve) count 0 raw startWalk (metaRecord p zsh sieve) =
      some (metaWalk p) := by
  have htext : (textFields (metaRecord p zsh sieve)).any (fun f => f.contains 0) = false := by
    have hfixed : ∀ f ∈ [compilerId, ProfileId.coreV1.text, ProfileId.pigeonhole.text,
        cstr "posix-ere-c-icase-v1", cstr "ascii-mailbox-casemap-v1", cstr "i;ascii-casemap"],
        f.contains 0 = false := by decide
    have hfields : textFields (metaRecord p zsh sieve) = [compilerId, p.id.text,
        cstr "posix-ere-c-icase-v1", cstr "ascii-mailbox-casemap-v1", cstr "i;ascii-casemap"] := rfl
    rw [hfields, List.any_eq_false]
    intro f hf
    rw [hfixed f (by cases hid : p.id <;> rw [hid] at hf <;> simp at hf ⊢ <;> tauto)]
    decide
  have hprofile : ¬ (p.id.text ≠ ProfileId.coreV1.text ∧ p.id.text ≠ ProfileId.pigeonhole.text) := by
    cases p.id <;> simp
  have htag : (metaRecord p zsh sieve).tag = 77 := rfl
  have hphase : startWalk.phase = 0 := rfl
  simp only [validateRecord, htext, Bool.false_eq_true, if_false, htag, if_true, validateMeta]
  simp only [metaRecord, List.getD_cons_zero, List.getD_cons_succ, hphase, hprofile, digest_length]
  simp [metaWalk]

/-- The walk after the records of an inventory has seen all it requires. -/
theorem Inventory.noted {deps : List Dependency} (h : Inventory deps) (p : Profile) :
    Noted (qsort depCompare deps) (metaWalk p) ((qsort depCompare deps).foldl noteDependency (metaWalk p)) ∧
      ((qsort depCompare deps).foldl noteDependency (metaWalk p)).normalization = true ∧
      ((qsort depCompare deps).foldl noteDependency (metaWalk p)).qualification = true ∧
      ((qsort depCompare deps).foldl noteDependency (metaWalk p)).catalogue = true := by
  have hready : (metaWalk p).hash.Ready := sha256Update_ready _ _ sha256Init_ready
  have hnoted := noted_foldl (qsort depCompare deps) hready
  have hfound : ∀ c ∈ requiredConfig, (qsort depCompare deps).any (fun d => d.role == c.1) = true := by
    intro c hc
    obtain ⟨d, hd, hrole⟩ := h.required c hc
    exact List.any_eq_true.mpr ⟨d, mem_qsort.mpr hd, by simp [hrole]⟩
  refine ⟨hnoted, ?_, ?_, ?_⟩
  · rw [hnoted.normalization, hfound (cstr "config.address-normalization", addressNormalization)
      (by simp [requiredConfig]), Bool.or_true]
  · rw [hnoted.qualification, hfound (cstr "config.regex-qualification", regexQualification)
      (by simp [requiredConfig]), Bool.or_true]
  · rw [hnoted.catalogue, hfound (cstr "config.regex-catalogue", regexCatalogue)
      (by simp [requiredConfig]), Bool.or_true]

/-- The rules of a policy with their mailboxes can be stored once they are
emitted. -/
theorem storable_of_emit {posix : Posix} {p : Profile} (hp : ProfileOk p) {rules : List Rule}
    (hres : Resolved posix rules) {names : List Bytes} {z s : Bytes}
    (hnames : mailboxNames p rules = some names) (hemit : emitText p rules names = .ok (z, s)) :
    ∀ x ∈ rules.zip names, Storable p x := by
  obtain ⟨blocks, r, mailbox, hzip, hk, hstaged, _, _⟩ := emitText_ok hemit hres.ok
  intro x hx
  obtain ⟨hmem, hmail⟩ := mailboxNames_mem hnames hx
  have hok := hres.ok _ hmem
  refine ⟨hok, hres.id _ hmem, ?_, ?_⟩
  · rw [hzip] at hx
    rcases List.mem_append.mp hx with hx | hx
    · obtain ⟨block, hb, hx⟩ := List.mem_flatten.mp hx
      obtain ⟨_, _, hall⟩ := hstaged.exists_stage hb
      exact (hall x hx).2
    · have hx : x = (r, mailbox) := by simpa using hx
      subst hx
      exact ⟨fun he => by simp [hk] at he⟩
  · rw [profileMailbox_eq hmail]
    exact mailboxName_ok hp _ hok.logical hok.logical_utf8

theorem countP_zip_fst {rules : List Rule} {names : List Bytes} (h : names.length = rules.length)
    (q : Rule → Bool) : (rules.zip names).countP (fun x => q x.1) = rules.countP q := by
  have hfst : (rules.zip names).map Prod.fst = rules := List.map_fst_zip (by omega)
  conv_rhs => rw [← hfst]
  rw [List.countP_map]
  rfl

/-- The builtins are three rules. -/
theorem HasBuiltins.length_ge {rules : List Rule} (h : HasBuiltins rules) :
    builtinRules ≤ rules.length := by
  have hsplit : ∀ l : List Rule, l.countP (fun r => r.kind == .senderContains) +
      l.countP (fun r => r.kind == .spamIs) + l.countP (fun r => r.kind == .always) ≤ l.length := by
    intro l
    induction l with
    | nil => exact le_rfl
    | cons r l ih =>
      simp only [List.countP_cons, List.length_cons]
      cases hk : r.kind <;> simp <;> omega
  have hle := hsplit rules
  rw [h.bounce, h.spam, h.fallback] at hle
  exact hle

/-- Nothing follows the fallback. -/
theorem HasBuiltins.always_last {rules : List Rule} (h : HasBuiltins rules) {init rest : List Rule}
    {r : Rule} (heq : rules = init ++ r :: rest) (hk : r.kind = .always) : rest = [] := by
  obtain ⟨init', r', heq', hk'⟩ := h.last
  have hcount := h.fallback
  by_contra hne
  obtain ⟨rest', last, hrest⟩ := (List.eq_nil_or_concat rest).resolve_left hne
  rw [List.concat_eq_append] at hrest
  have hsame : last = r' := by
    have hlast : rules.getLast? = some r' := by simp [heq']
    rw [heq, hrest, ← List.cons_append, ← List.append_assoc, List.getLast?_concat] at hlast
    exact Option.some.inj hlast
  rw [heq, hrest, hsame] at hcount
  simp [hk, hk', List.countP_append] at hcount
  omega

/-- The walk accepts the written records and has found all it needs. -/
theorem walk_cacheRecords {posix : Posix} {p : Profile} (hp : ProfileOk p)
    (hregex : p.regex = true ↔ p.id = .pigeonhole) {rules : List Rule} (hres : Resolved posix rules)
    {deps : List Dependency} (hdeps : Inventory deps) (hmax : deps.length ≤ dependencyMax)
    {names : List Bytes} {z s : Bytes} (hnames : mailboxNames p rules = some names)
    (hemit : emitText p rules names = .ok (z, s)) :
    ∃ w, walkRecords (some z) (some s) (1 + deps.length + rules.length) 0 startWalk
        (cacheRecords p z s (qsort depCompare deps) (rules.zip names)) = some w ∧
      walkComplete w [] (digest (inventoryTag ++
        encodeRecords ((qsort depCompare deps).map dependencyRecord))) = true := by
  have hlen := mailboxNames_length hnames
  have hzip : (rules.zip names).length = rules.length := by simp [hlen]
  have hfst : (rules.zip names).map Prod.fst = rules := List.map_fst_zip (by omega)
  have hstore := storable_of_emit hp hres hnames hemit
  obtain ⟨hnoted, hnormalization, hqualification, hcatalogue⟩ := hdeps.noted p
  set w := (qsort depCompare deps).foldl noteDependency (metaWalk p) with hw
  have hcount : ∀ k, (rules.zip names).countP (fun x => x.1.kind == k) =
      rules.countP fun r => r.kind == k := fun k => countP_zip_fst hlen fun r => r.kind == k
  have hmeta : walkRecords (some z) (some s) (1 + deps.length + rules.length) 0 startWalk
      (cacheRecords p z s (qsort depCompare deps) (rules.zip names)) =
      walkRecords (some z) (some s) (1 + deps.length + rules.length) 1 (metaWalk p)
        ((qsort depCompare deps).map dependencyRecord ++ ruleRecords 0 (rules.zip names)) := by
    simp only [cacheRecords, walkRecords, validateRecord_meta]
  have hdepWalk := walkRecords_dependencies (some z) (some s)
    (1 + deps.length + rules.length) (ruleRecords 0 (rules.zip names)) (i := 1)
    (w := metaWalk p)
    (fun d hd => hdeps.ok d (mem_qsort.mp hd)) rfl
    (by rw [length_qsort]; simpa [metaWalk, startWalk] using hmax) hdeps.sorted
    fun hne => absurd rfl hne
  have hordinal : w.ordinal = 0 := hnoted.ordinal
  have hruleWalk := walkRecords_rules (some z) (some s)
    (1 + deps.length + rules.length) (i := 1 + (qsort depCompare deps).length) (w := w)
    hstore (by rw [hnoted.phase]; simp [metaWalk]) (by rw [length_qsort, hzip])
    (by rw [hordinal, hzip, Nat.zero_add]; exact hres.length)
    (by
      have hsorted := hres.sorted
      rw [← hfst, List.pairwise_map] at hsorted
      exact hsorted)
    (by
      intro x _
      rw [hnoted.priorStage]
      exact Nat.zero_le _)
    (by
      intro x hx hk
      have hid := hregex.mp ((hstore x hx).exported.regex hk).1
      refine ⟨?_, hqualification, hcatalogue⟩
      rw [hnoted.regexProfile]
      simp [metaWalk, hid])
    (by rw [hcount, hres.bounce, hnoted.bounce]; exact le_rfl)
    (by rw [hcount, hres.spam, hnoted.spam]; exact le_rfl)
    (by rw [hcount, hres.fallback, hnoted.fallback]; exact le_rfl)
    (by
      intro init x rest heq hk
      have hmap := congrArg (List.map Prod.fst) heq
      rw [hfst, List.map_append, List.map_cons] at hmap
      exact List.map_eq_nil_iff.mp (hres.toHasBuiltins.always_last hmap hk))
  rw [hordinal, hfst] at hruleWalk
  refine ⟨rules.foldl noteRule w, ?_, ?_⟩
  · rw [hmeta, hdepWalk, hruleWalk]
  · have hcounted := counted_foldl rules w
    have hhash : sha256Hex w.hash = digestHex (digest (inventoryTag ++
        encodeRecords ((qsort depCompare deps).map dependencyRecord))) := by
      rw [digestHex_digest, sha256Update_append _ _ _ sha256Init_ready, hnoted.hash]
      rfl
    simp only [walkComplete, hcounted.bounce, hcounted.spam, hcounted.fallback, hcounted.normalization,
      hcounted.qualification, hcounted.catalogue, hcounted.hash, hhash, hres.bounce, hres.spam,
      hres.fallback, hnoted.bounce, hnoted.spam, hnoted.fallback, hnormalization, hqualification,
      hcatalogue]
    simp [metaWalk, startWalk]

/-! ### The header -/

/-- Where the parts of a cache stand. -/
structure CacheParts (data fingerprint payload : Bytes) : Prop where
  length : data.length = cacheHeaderSize + payload.length
  magic : data.take 8 = cstr "JFNCACHE"
  version : (data.drop 8).take 4 = littleEndian 4 1
  policy : (data.drop 12).take 4 = littleEndian 4 1
  size : (data.drop 16).take 8 = littleEndian 8 payload.length
  fingerprint : (data.drop 24).take 32 = fingerprint
  digest : (data.drop 56).take 32 = JaroFilter.digest payload
  payload : data.drop 88 = payload

theorem cacheParts_cacheBytes {fp : Bytes} (hfp : fp.length = 32) (payload : Bytes) :
    CacheParts (cacheBytes fp payload) fp payload := by
  have h8 : (cstr "JFNCACHE").length = 8 := by decide
  have hd := digest_length payload
  constructor <;>
    simp [cacheBytes, cacheHeaderSize, List.drop_append, h8, hfp, hd, List.drop_of_length_le]
  omega

theorem cacheFileSize_iff {n : ℕ} : cacheFileSize n = true ↔ n ≤ cacheMax := by
  have hmax : cacheFileMax - cacheHeaderSize = cacheMax := rfl
  have hle : cacheHeaderSize ≤ cacheFileMax := by decide
  simp [cacheFileSize, hmax, hle]

theorem CacheParts.header {data fp payload : Bytes} (h : CacheParts data fp payload)
    (h4 : 4 ≤ payload.length) (hmax : payload.length ≤ cacheMax) :
    cacheHeader data (some fp) = true := by
  have hlen : 92 ≤ data.length := by
    rw [h.length, cacheHeaderSize]
    omega
  have hsub : data.length - 88 = payload.length := by
    rw [h.length, cacheHeaderSize]
    omega
  have hsize : payload.length < 256 ^ 8 := by
    have hbound : cacheMax < 256 ^ 8 := by decide
    omega
  have hone : (1 : ℕ) < 256 ^ 4 := by decide
  have hsub' : data.length - cacheHeaderSize = payload.length := hsub
  simp only [cacheHeader, hlen, hsub, hsub', cacheFileSize_iff.mpr hmax, h.magic, h.version, h.policy,
    h.size, h.fingerprint, h.digest, h.payload, littleValue_littleEndian hone,
    littleValue_littleEndian hsize]
  simp

/-- The count and the records behind the header. -/
theorem CacheParts.records {data fp : Bytes} {count : ℕ} {records : List Record}
    (h : CacheParts data fp (littleEndian 4 count ++ encodeRecords records)) (hc : count < 256 ^ 4) :
    recordCount data = count ∧ data.drop 92 = encodeRecords records := by
  have htake : (littleEndian 4 count ++ encodeRecords records).take 4 = littleEndian 4 count := by
    simp
  have hdrop : data.drop 92 = (data.drop 88).drop 4 := by rw [List.drop_drop]
  rw [recordCount, h.payload, htake, littleValue_littleEndian hc, hdrop, h.payload]
  exact ⟨rfl, by simp⟩

theorem cacheValidate_records {z s fp : Bytes} (hfp : fp.length = 32) {records : List Record}
    (harity : ∀ r ∈ records, validArity r.tag r.fields.length = true ∧ r.fields.length ≤ 12)
    (hmin : 1 + builtinRules ≤ records.length) (hmax : records.length ≤ cacheRecordMax)
    (hsize : (littleEndian 4 records.length ++ encodeRecords records).length ≤ cacheMax) {w : Walk}
    (hwalk : walkRecords (some z) (some s) records.length 0 startWalk records = some w)
    (hdone : walkComplete w [] fp = true) :
    cacheValidate (cacheBytes fp (littleEndian 4 records.length ++ encodeRecords records)) (some z)
      (some s) (some fp) = .ok () := by
  have hparts := cacheParts_cacheBytes hfp (littleEndian 4 records.length ++ encodeRecords records)
  have hheader := hparts.header (by simp) hsize
  have hbound : cacheRecordMax < 256 ^ 4 := by decide
  obtain ⟨hcount, hdrop⟩ := hparts.records (by omega)
  simp only [List.length_append, littleEndian_length] at hsize
  have hloop := validateLoop_encode (some z) (some s) records.length
    (fun r hr => ⟨fits_of_encode hr (harity r hr).2 (by omega), (harity r hr).1⟩) 0 startWalk []
  rw [List.append_nil, hwalk] at hloop
  have hrange : ¬ (records.length < 1 + builtinRules ∨ cacheRecordMax < records.length) := by omega
  simp only [cacheValidate, hheader, Bool.true_eq_false, if_false, hcount, hrange, hdrop, hloop,
    Option.map_some, hparts.fingerprint, hdone, if_true]

/-- Whatever is emitted and fits the limits passes the validator. -/
theorem cacheValidate_built {posix : Posix} {p : Profile} (hp : ProfileOk p)
    (hregex : p.regex = true ↔ p.id = .pigeonhole) {rules : List Rule} (hres : Resolved posix rules)
    {deps : List Dependency} (hdeps : Inventory deps) (hmax : deps.length ≤ dependencyMax)
    {names : List Bytes} {z s inventory payload : Bytes}
    (hnames : mailboxNames p rules = some names) (hemit : emitText p rules names = .ok (z, s))
    (hinventory : inventoryLoop none inventoryTag (qsort depCompare deps) = .ok inventory)
    (hpayload : bytesAddAll cacheMax [] (littleEndian 4 (1 + deps.length + rules.length) ::
      (cacheRecords p z s (qsort depCompare deps) (rules.zip names)).map encodeRecord) =
        some payload) :
    cacheValidate (cacheBytes (digest inventory) payload) (some z) (some s) (some (digest inventory)) =
      .ok () := by
  have hlen := mailboxNames_length hnames
  have hcount : (cacheRecords p z s (qsort depCompare deps) (rules.zip names)).length =
      1 + deps.length + rules.length := by
    simp only [cacheRecords, List.length_cons, List.length_append, List.length_map, length_qsort,
      length_ruleRecords, List.length_zip]
    omega
  have hthree : builtinRules ≤ rules.length := hres.toHasBuiltins.length_ge
  obtain ⟨heq, hsize⟩ := bytesAddAll_ok (Nat.zero_le _) hpayload
  rw [List.nil_append, List.flatten_cons, ← List.flatMap_def, ← encodeRecords, ← hcount] at heq
  obtain ⟨w, hwalk, hdone⟩ := walk_cacheRecords hp hregex hres hdeps hmax hnames hemit
  rw [← hcount] at hwalk
  rw [heq] at hsize ⊢
  have hrules := hres.length
  rw [inventoryLoop_ok hinventory]
  refine cacheValidate_records (digest_length _) (fun r hr => cacheRecords_arity hr) ?_ ?_ hsize hwalk
    hdone
  · rw [hcount]
    omega
  · rw [hcount, cacheRecordMax]
    omega

/-! ### Statuses -/

/-- The status that reports a corrupt product. -/
def NotCorrupt (e : Failure) : Prop := e.rc ≠ 5

theorem notCorrupt_productError (code : Code) (line : ℕ) (detail : Bytes) :
    NotCorrupt (productError code line detail) := by
  simp only [NotCorrupt, productError]
  split <;> decide

theorem emitAdd_raises (b s : Bytes) : Raises NotCorrupt (emitAdd b s) := by
  unfold emitAdd
  split
  · exact raises_ok _ _
  · exact raises_error (notCorrupt_productError _ _ _)

theorem emitRule_raises (p : Profile) (i : ℕ) (item : Rule × Bytes) (b : Bytes) :
    Raises NotCorrupt (emitRule p i item b) := by
  refine raises_bind ?_ fun _ _ => raises_bind (emitAdd_raises _ _) fun _ _ => raises_bind ?_
    fun _ _ => raises_bind (emitAdd_raises _ _) fun _ _ => emitAdd_raises _ _
  · unfold checkExport
    split
    · exact raises_error (by simp [NotCorrupt])
    · exact raises_ok _ _
  · unfold testText
    split
    · exact raises_ok _ _
    · exact raises_ok _ _
    · split
      · exact raises_error (notCorrupt_productError _ _ _)
      · exact raises_ok _ _

theorem emitStage_raises (p : Profile) (stage i : ℕ) (items : List (Rule × Bytes)) (b : Bytes) :
    Raises NotCorrupt (emitStage p stage i items b) := by
  induction items generalizing i b with
  | nil => exact raises_ok _ _
  | cons item items ih =>
    simp only [emitStage]
    split
    · exact raises_bind (emitRule_raises p i item b) fun _ _ => ih _ _
    · exact raises_ok _ _

theorem emitStages_raises (p : Profile) (stages : List ℕ) (i : ℕ) (items : List (Rule × Bytes))
    (b : Bytes) : Raises NotCorrupt (emitStages p stages i items b) := by
  induction stages generalizing i items b with
  | nil => exact raises_ok _ _
  | cons stage stages ih =>
    exact raises_bind (emitAdd_raises _ _) fun _ _ => raises_bind (emitStage_raises _ _ _ _ _)
      fun _ _ => raises_bind (emitAdd_raises _ _) fun _ _ => ih _ _ _

theorem emitText_raises (p : Profile) (rules : List Rule) (names : List Bytes) :
    Raises NotCorrupt (emitText p rules names) := by
  refine raises_bind (emitAdd_raises _ _) fun _ _ => raises_bind (emitAdd_raises _ _) fun _ _ =>
    raises_bind (emitStages_raises _ _ _ _ _) fun x _ => ?_
  obtain ⟨rest, b⟩ := x
  simp only
  split
  · split
    · exact raises_bind (emitAdd_raises _ _) fun _ _ => raises_ok _ _
    · exact raises_error (notCorrupt_productError _ _ _)
  · exact raises_error (notCorrupt_productError _ _ _)

theorem orMemory_raises {α : Type} (x : Option α) : Raises NotCorrupt (orMemory x) := by
  cases x with
  | none => exact raises_error (notCorrupt_productError _ _ _)
  | some a => exact raises_ok _ _

theorem orMemory_ok {α : Type} {x : Option α} {a : α} (h : orMemory x = .ok a) : x = some a := by
  cases x with
  | none => cases h
  | some b =>
    cases h
    rfl

theorem inventoryLoop_raises (previous : Option Dependency) (b : Bytes) (ds : List Dependency) :
    Raises NotCorrupt (inventoryLoop previous b ds) := by
  induction ds generalizing previous b with
  | nil => exact raises_ok _ _
  | cons d ds ih =>
    simp only [inventoryLoop]
    split
    · exact raises_error (notCorrupt_productError _ _ _)
    · exact raises_bind (orMemory_raises _) fun _ _ => ih _ _

/-- The compiler never reports its own cache as corrupt: past emission and the
size limits the validator accepts. -/
theorem built_cache_accepted (posix : Posix) (sources : List Source) (data : Bytes)
    (deps : List Dependency) {p : Policy} {profile : Profile}
    (hp : policyParse posix sources = .ok p) (hprofile : profileParse data = .ok profile)
    (hdeps : Inventory deps) :
    (∀ e, productsBuild p profile deps = .error e → e.rc ≠ 5) ∧
    ∀ names zsh sieve inventory payload, deps.length ≤ dependencyMax →
      mailboxNames profile p.rules = some names →
      emitText profile p.rules names = .ok (zsh, sieve) →
      inventoryLoop none inventoryTag (qsort depCompare deps) = .ok inventory →
      bytesAddAll cacheMax [] (littleEndian 4 (1 + deps.length + p.rules.length) ::
        (cacheRecords profile zsh sieve (qsort depCompare deps) (p.rules.zip names)).map
          encodeRecord) = some payload →
      cacheValidate (cacheBytes (digest inventory) payload) (some zsh) (some sieve)
        (some (digest inventory)) = .ok () := by
  obtain ⟨rules, hrules, rfl⟩ := map_eq_ok_iff.mp hp
  obtain ⟨hok, _, hregex⟩ := profileParse_ok hprofile
  have hres := parseRules_resolved hrules
  have hvalid : ∀ names zsh sieve inventory payload, deps.length ≤ dependencyMax →
      mailboxNames profile rules = some names → emitText profile rules names = .ok (zsh, sieve) →
      inventoryLoop none inventoryTag (qsort depCompare deps) = .ok inventory →
      bytesAddAll cacheMax [] (littleEndian 4 (1 + deps.length + rules.length) ::
        (cacheRecords profile zsh sieve (qsort depCompare deps) (rules.zip names)).map
          encodeRecord) = some payload →
      cacheValidate (cacheBytes (digest inventory) payload) (some zsh) (some sieve)
        (some (digest inventory)) = .ok () := fun _ _ _ _ _ h1 h2 h3 h4 h5 =>
    cacheValidate_built hok hregex hres hdeps h1 h2 h3 h4 h5
  refine ⟨?_, hvalid⟩
  change Raises NotCorrupt (productsBuild (buildIndex rules) profile deps)
  simp only [productsBuild]
  split
  · exact raises_error (notCorrupt_productError _ _ _)
  · rename_i hlimits
    have hmax : deps.length ≤ dependencyMax := by omega
    refine raises_bind (orMemory_raises _) fun names hnames => ?_
    split
    · exact raises_error (notCorrupt_productError _ _ _)
    · refine raises_bind (emitText_raises _ _ _) fun x hemit => ?_
      obtain ⟨zsh, sieve⟩ := x
      refine raises_bind (inventoryLoop_raises _ _ _) fun inventory hinventory =>
        raises_bind (orMemory_raises _) fun payload hpayload => ?_
      split
      · have haccept := hvalid names zsh sieve inventory payload hmax (orMemory_ok hnames) hemit
          hinventory (orMemory_ok hpayload)
        rw [haccept]
        exact raises_ok _ _
      · exact raises_error (notCorrupt_productError _ _ _)

/-- The record `config` (`snapshot.c:67`) adds to an inventory. -/
def configDependency (role value : Bytes) (h : 0 ∉ role) : Dependency where
  role := role
  path := []
  present := true
  digest := digest value
  auxiliary := value
  role_nul := h
  path_nul := List.not_mem_nil
  digest_length := digest_length value

/-- The smallest inventory. -/
def sampleDeps : List Dependency := [
  configDependency (cstr "config.address-normalization") addressNormalization (by decide),
  configDependency (cstr "config.regex-qualification") regexQualification (by decide),
  configDependency (cstr "config.regex-catalogue") regexCatalogue (by decide)]

theorem inventory_sampleDeps : Inventory sampleDeps := by
  have hne : cstr "config.address-normalization" ≠ cstr "config.regex-qualification" ∧
      cstr "config.address-normalization" ≠ cstr "config.regex-catalogue" ∧
      cstr "config.regex-qualification" ≠ cstr "config.regex-catalogue" := by decide
  have hnil : cstr "config.address-normalization" ≠ [] ∧ cstr "config.regex-qualification" ≠ [] ∧
      cstr "config.regex-catalogue" ≠ [] := by decide
  obtain ⟨h12, h13, h23⟩ := hne
  refine ⟨?_, ?_, ?_⟩
  · intro d hd
    simp only [sampleDeps, List.mem_cons, List.not_mem_nil, or_false] at hd
    rcases hd with rfl | rfl | rfl
    · exact ⟨hnil.1, by simp [configDependency], by simp [configDependency],
        by simp [requiredConfig, configDependency, h12, h13]⟩
    · exact ⟨hnil.2.1, by simp [configDependency], by simp [configDependency],
        by simp [requiredConfig, configDependency, h12.symm, h23]⟩
    · exact ⟨hnil.2.2, by simp [configDependency], by simp [configDependency],
        by simp [requiredConfig, configDependency, h13.symm, h23.symm]⟩
  · simp [sampleDeps, configDependency, h12, h13, h23]
  · simp [sampleDeps, configDependency, requiredConfig]

theorem built_cache_accepted_sample :
    policyParse samplePosix sampleSources = .ok samplePolicy ∧ Inventory sampleDeps ∧
      ∀ e, productsBuild samplePolicy sampleProfile sampleDeps = .error e → e.rc ≠ 5 :=
  ⟨policyParse_sample, inventory_sampleDeps,
    (built_cache_accepted samplePosix sampleSources [] sampleDeps policyParse_sample
      profileParse_sample inventory_sampleDeps).1⟩

end JaroFilter
